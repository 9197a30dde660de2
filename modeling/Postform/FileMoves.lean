import Postform.FileWriter

/- What a `FileWriter` carries through moves. A `Ledger` keeps, beside the world
   of writers, the message each variable holds, as what has been passed to
   `write` since it was acquired, and the messages that were committed; a move
   hands the message on. The writers carry the messages where the calls of
   `::write` are the records of the committed messages, with those a `commit`
   would make now (`CarriesMessages`).

   The invariant is that what a variable holds is the buffer of its writer. Two
   operations break it: both moves leave the buffer of the source behind, and the
   move assignment keeps the buffer of its target (`KeepsBuffer`). -/
namespace Postform

open Function Ownership

variable {L W : Type}

/-- The message each variable holds, with its logger, and the messages
committed. -/
structure Ledger (L W : Type) where
  held : W → Option (L × Bytes)
  records : List (L × Bytes)

namespace Ledger

variable [DecidableEq W]

/-- The message of `w` is committed. -/
def commit (g : Ledger L W) (w : W) : Ledger L W := ⟨update g.held w none, g.records ++ (g.held w).toList⟩

/-- What an operation does to the messages; `acquired` says whether the logger
was free. -/
def step (g : Ledger L W) (acquired : L → Bool) : WriterOp L W → Ledger L W
  | .getWriter l dst => { g with held := update g.held dst (if acquired l then some (l, []) else none) }
  | .default dst => { g with held := update g.held dst none }
  | .write w data => { g with held := update g.held w ((g.held w).map fun m => (m.1, m.2 ++ data)) }
  | .commit w => g.commit w
  | .moveConstruct src dst => { g with held := handOn g.held src dst }
  | .moveAssign src dst =>
    if src = dst then g
    else { g.commit dst with held := handOn (g.commit dst).held src dst }
  | .destroy w => g.commit w

end Ledger

/-- The world and its ledger. -/
structure Account (L W : Type) where
  world : FileWorld L W
  ledger : Ledger L W

namespace Account

def initial : Account L W := ⟨.initial, fun _ => none, []⟩

section
variable [DecidableEq L] [DecidableEq W] (order : ByteOrder) (fd : L → Int)

def step (s : Account L W) (op : WriterOp L W) : Option (Account L W) :=
  (s.world.step order fd op).map fun world => ⟨world, s.ledger.step (fun l => !s.world.taken l) op⟩

omit [DecidableEq L] [DecidableEq W] in
/-- The calls of `::write` so far are the records of the messages committed. -/
def RecordsRight (s : Account L W) : Prop :=
  s.world.calls = s.ledger.records.flatMap fun m => FileWriter.recordCalls order (fd m.1) m.2

/-- The records are right, with the one a commit appends. -/
def CarriesMessages (s : Account L W) : Prop :=
  s.RecordsRight order fd ∧ ∀ w t, s.step order fd (.commit w) = some t → t.RecordsRight order fd

end

/-- A move from a valid writer finds the source's buffer in its target: the move
constructor has an empty one, the move assignment the one that was there. -/
def KeepsBuffer (s : Account L W) : WriterOp L W → Prop
  | .moveConstruct src _ => ∀ x, s.world.writers src = some x → x.logger.isSome → x.data = []
  | .moveAssign src dst => src ≠ dst → ∀ x y, s.world.writers src = some x → s.world.writers dst = some y →
      x.logger.isSome → y.data = x.data
  | _ => True

end Account

/-! The messages the writers hold. -/

/-- The message in a writer's buffer, if it is valid. -/
def FileWriter.pending (x : FileWriter L) : Option (L × Bytes) := x.logger.map fun l => (l, x.data)

/-- A valid writer has its logger's descriptor. -/
def FileWriter.Linked (fd : L → Int) (x : FileWriter L) : Prop := ∀ l, x.logger = some l → x.fd = fd l

theorem FileWriter.pending_write (x : FileWriter L) (data : Bytes) :
    (x.write data).pending = x.pending.map fun m => (m.1, m.2 ++ data) := by
  cases h : x.logger <;> simp [FileWriter.write, FileWriter.pending, h]

theorem FileWriter.linked_write {fd : L → Int} {x : FileWriter L} (hx : x.Linked fd) (data : Bytes) :
    (x.write data).Linked fd := by
  cases h : x.logger with
  | none => simpa [FileWriter.write, h] using hx
  | some l => simpa [FileWriter.write, h, FileWriter.Linked] using hx l h

theorem FileWriter.logger_commit (order : ByteOrder) (x : FileWriter L) : (x.commit order).1.logger = none := by
  cases h : x.logger <;> simp [FileWriter.commit, h]

theorem FileWriter.data_commit (order : ByteOrder) (x : FileWriter L) : (x.commit order).1.data = x.data := by
  cases h : x.logger <;> simp [FileWriter.commit, h]

theorem FileWriter.linked_none {fd : L → Int} {x : FileWriter L} (h : x.logger = none) : x.Linked fd := by
  intro l hl
  rw [h] at hl
  cases hl

theorem FileWriter.pending_none {x : FileWriter L} (h : x.logger = none) : x.pending = none := by
  rw [FileWriter.pending, h, Option.map_none]

theorem FileWriter.pending_eq {x y : FileWriter L} (hlogger : y.logger = x.logger)
    (hdata : x.logger.isSome → x.data = y.data) : y.pending = x.pending := by
  rw [FileWriter.pending, FileWriter.pending, hlogger]
  cases h : x.logger with
  | none => rfl
  | some l => rw [hdata (by rw [h]; rfl)]

theorem FileWriter.commit_calls {fd : L → Int} {x : FileWriter L} (hx : x.Linked fd) (order : ByteOrder) :
    (x.commit order).2.1 = x.pending.toList.flatMap fun m => recordCalls order (fd m.1) m.2 := by
  cases h : x.logger with
  | none => simp [FileWriter.commit, FileWriter.pending, h]
  | some l => simp [FileWriter.commit, FileWriter.pending, h, hx l h]

namespace FileWorld

/-- The message the writer in a variable holds. -/
def pendingIn (writers : W → Option (FileWriter L)) (w : W) : Option (L × Bytes) :=
  (writers w).bind FileWriter.pending

theorem pendingIn_some {writers : W → Option (FileWriter L)} {w : W} {x : FileWriter L} (h : writers w = some x) :
    pendingIn writers w = x.pending := by
  rw [pendingIn, h, Option.bind_some]

variable [DecidableEq W]

theorem pendingIn_update (writers : W → Option (FileWriter L)) (w : W) (y : Option (FileWriter L)) :
    pendingIn (update writers w y) = update (pendingIn writers) w (y.bind FileWriter.pending) :=
  bind_update FileWriter.pending writers w y

theorem pendingIn_move {writers : W → Option (FileWriter L)} {src dst : W} {x moved left : FileWriter L}
    (hsrc : writers src = some x) (hmoved : moved.pending = x.pending) (hleft : left.logger = none) :
    pendingIn (update (update writers dst (some moved)) src (some left)) = handOn (pendingIn writers) src dst :=
  bind_move hsrc hmoved (FileWriter.pending_none hleft)

end FileWorld

namespace Account

open FileWorld

section
variable [DecidableEq L] [DecidableEq W] {order : ByteOrder} {fd : L → Int}

/-- What a variable holds is the buffer of its writer, and the records are
right. -/
structure Carried (order : ByteOrder) (fd : L → Int) (s : Account L W) : Prop where
  held : s.ledger.held = pendingIn s.world.writers
  records : s.RecordsRight order fd
  linked : ∀ w x, s.world.writers w = some x → x.Linked fd

omit [DecidableEq L] [DecidableEq W] in
theorem carried_initial : Carried order fd (initial : Account L W) :=
  ⟨rfl, rfl, fun w x h => by cases h⟩

theorem Carried.commitTo {s : Account L W} (h : Carried order fd s) {w : W} {x : FileWriter L}
    (hw : s.world.writers w = some x) {after : Option (FileWriter L)} (hafter : ∀ y, after = some y → y.logger = none) :
    Carried order fd ⟨s.world.commitTo order w x after, s.ledger.commit w⟩ := by
  have hnone : after.bind FileWriter.pending = none := by
    cases after with
    | none => rfl
    | some y => exact FileWriter.pending_none (hafter y rfl)
  refine ⟨?_, ?_, ?_⟩
  · simp only [Ledger.commit, FileWorld.commitTo, pendingIn_update, hnone, h.held]
  · have hrecords := h.records
    simp only [RecordsRight] at hrecords
    simp only [RecordsRight, Ledger.commit, FileWorld.commitTo, List.flatMap_append, ← hrecords,
      FileWriter.commit_calls (h.linked w x hw), h.held, pendingIn_some hw]
  · exact forall_update h.linked w fun y hy => FileWriter.linked_none (hafter y hy)

omit [DecidableEq L] in
/-- A writer put in a variable, with the message it holds; the flags do not
count. -/
theorem Carried.place {s : Account L W} (h : Carried order fd s) (taken : L → Bool) (w : W) {y : FileWriter L}
    (hlinked : y.Linked fd) {held : Option (L × Bytes)} (hheld : held = y.pending) :
    Carried order fd ⟨{ s.world with taken := taken, writers := update s.world.writers w (some y) },
      { s.ledger with held := update s.ledger.held w held }⟩ := by
  refine ⟨?_, h.records, forall_update h.linked w fun x hx => ?_⟩
  · simp only [h.held, hheld, pendingIn_update, Option.bind_some]
  · cases hx
    exact hlinked

omit [DecidableEq L] in
theorem Carried.move {s : Account L W} (h : Carried order fd s) {src : W} (dst : W) {x moved left : FileWriter L}
    (hsrc : s.world.writers src = some x) (hmoved : moved.pending = x.pending) (hlinked : moved.Linked fd)
    (hleft : left.logger = none) :
    Carried order fd ⟨{ s.world with writers := update (update s.world.writers dst (some moved)) src (some left) },
      { s.ledger with held := handOn s.ledger.held src dst }⟩ := by
  refine ⟨?_, h.records, ?_⟩
  · simp only [h.held, pendingIn_move hsrc hmoved hleft]
  · refine forall_update (forall_update h.linked dst fun y hy => ?_) src fun y hy => ?_
    · cases hy; exact hlinked
    · cases hy; exact FileWriter.linked_none hleft

/-- **Every step that keeps the buffer** keeps the invariant. -/
theorem Carried.step {s t : Account L W} {op : WriterOp L W} (h : Carried order fd s)
    (hstep : s.step order fd op = some t) (hop : KeepsBuffer s op) : Carried order fd t := by
  obtain ⟨world, hworld, rfl⟩ := Option.map_eq_some_iff.mp hstep
  cases op with
  | getWriter l dst =>
    simp only [FileWorld.step] at hworld
    split at hworld
    · cases hworld
    split at hworld
    · next htaken =>
      cases hworld
      apply h.place _ dst (FileWriter.linked_none rfl)
      show (if (!s.world.taken l) = true then some (l, []) else none) = none
      rw [htaken]
      rfl
    · next htaken =>
      have hfree : s.world.taken l = false := by simpa using htaken
      have hlinked : (FileWriter.acquired l (fd l)).Linked fd := by
        intro k hk
        cases hk
        rfl
      cases hworld
      apply h.place _ dst hlinked
      show (if (!s.world.taken l) = true then some (l, []) else none) = some (l, [])
      rw [hfree]
      rfl
  | default dst =>
    simp only [FileWorld.step] at hworld
    split at hworld
    · cases hworld
    cases hworld
    exact h.place _ dst (FileWriter.linked_none rfl) rfl
  | write w data =>
    obtain ⟨x, hx, rfl⟩ := Option.map_eq_some_iff.mp hworld
    apply h.place _ w (FileWriter.linked_write (h.linked w x hx) data)
    rw [h.held, pendingIn_some hx, FileWriter.pending_write]
  | commit w =>
    obtain ⟨x, hx, rfl⟩ := Option.map_eq_some_iff.mp hworld
    exact h.commitTo hx fun y hy => by cases hy; exact FileWriter.logger_commit order x
  | moveConstruct src dst =>
    simp only [FileWorld.step] at hworld
    split at hworld
    · cases hworld
    obtain ⟨x, hx, rfl⟩ := Option.map_eq_some_iff.mp hworld
    exact h.move dst hx (FileWriter.pending_eq rfl (hop x hx)) (h.linked src x hx) rfl
  | moveAssign src dst =>
    obtain ⟨y, hy, hworld⟩ := Option.bind_eq_some_iff.mp hworld
    obtain ⟨x, hx, rfl⟩ := Option.map_eq_some_iff.mp hworld
    by_cases hne : src = dst
    · simp only [Ledger.step, if_pos hne]
      exact h
    -- the commit `operator=` starts with, then the move
    have hcommit := h.commitTo hy fun z hz => Option.some.inj hz ▸ FileWriter.logger_commit order y
    have hsrc : (s.world.commitTo order dst y (some (y.commit order).1)).writers src = some x := by
      simp only [FileWorld.commitTo, update_of_ne hne, hx]
    have hpending : ((y.commit order).1.moveAssign x).1.pending = x.pending := by
      refine FileWriter.pending_eq rfl fun hvalid => ?_
      rw [← hop hne x y hx hy hvalid]
      exact (FileWriter.data_commit order y).symm
    have hleft : ((y.commit order).1.moveAssign x).2.logger = none := rfl
    have hmove := hcommit.move dst hsrc hpending (h.linked src x hx) hleft
    simp only [FileWorld.commitTo, update_idem] at hmove
    simp only [if_neg hne, Ledger.step]
    exact hmove
  | destroy w =>
    obtain ⟨x, hx, rfl⟩ := Option.map_eq_some_iff.mp hworld
    exact h.commitTo hx fun y hy => by cases hy

theorem Carried.carriesMessages {s : Account L W} (h : Carried order fd s) : s.CarriesMessages order fd :=
  ⟨h.records, fun _ _ hstep => (h.step hstep trivial).records⟩

/-- A commit of a writer whose buffer is not the message it holds. -/
theorem not_carriesMessages {s : Account L W} {w : W} {x : FileWriter L} {m : L × Bytes}
    (hw : s.world.writers w = some x) (hvalid : x.logger.isSome) (hheld : s.ledger.held w = some m)
    (hdata : x.data ≠ m.2) : ¬s.CarriesMessages order fd := by
  intro h
  obtain ⟨hright, hcommit⟩ := h
  have hstep : s.step order fd (.commit w) =
      some ⟨s.world.commitTo order w x (some (x.commit order).1), s.ledger.commit w⟩ := by
    simp only [Account.step, FileWorld.step, hw, Option.map_some, Ledger.step]
  have hafter := hcommit w _ hstep
  simp only [RecordsRight] at hright
  simp only [RecordsRight, FileWorld.commitTo, Ledger.commit, hheld, FileWriter.commit, if_pos hvalid,
    List.flatMap_append, ← hright, Option.toList_some, List.flatMap_singleton] at hafter
  have hrecord := List.append_cancel_left hafter
  simp only [FileWriter.recordCalls, List.cons.injEq, SysWrite.mk.injEq] at hrecord
  exact hdata hrecord.2.1.2

/-- A step that does not keep the buffer leaves a writer whose record is
wrong. -/
theorem Carried.broken {s t : Account L W} {op : WriterOp L W} (h : Carried order fd s)
    (hstep : s.step order fd op = some t) (hop : ¬KeepsBuffer s op) : ¬t.CarriesMessages order fd := by
  obtain ⟨world, hworld, rfl⟩ := Option.map_eq_some_iff.mp hstep
  cases op with
  | moveConstruct src dst =>
    simp only [KeepsBuffer, not_forall] at hop
    obtain ⟨x, hx, hvalid, hdata⟩ := hop
    obtain ⟨l, hl⟩ := Option.isSome_iff_exists.mp hvalid
    simp only [FileWorld.step] at hworld
    split at hworld
    · cases hworld
    next hdead =>
    have hne : dst ≠ src := by
      intro heq
      rw [heq, hx] at hdead
      exact hdead rfl
    simp only [hx, Option.map_some, Option.some.injEq] at hworld
    subst hworld
    -- the new writer has an empty buffer, and holds the message
    apply not_carriesMessages (w := dst) (x := x.moveConstruct.1) (m := (l, x.data))
    · simp only [update_of_ne hne, update_self]
    · exact hvalid
    · simp only [Ledger.step, handOn, update_of_ne hne, update_self, h.held, pendingIn_some hx, FileWriter.pending, hl,
        Option.map_some]
    · exact Ne.symm hdata
  | moveAssign src dst =>
    simp only [KeepsBuffer, not_forall] at hop
    obtain ⟨hne, x, y, hx, hy, hvalid, hdata⟩ := hop
    obtain ⟨l, hl⟩ := Option.isSome_iff_exists.mp hvalid
    simp only [FileWorld.step, hx, hy, Option.bind_some, Option.map_some, if_neg hne, Option.some.injEq] at hworld
    subst hworld
    -- the target has its own buffer, and holds the message of the source
    apply not_carriesMessages (w := dst) (x := ((y.commit order).1.moveAssign x).1) (m := (l, x.data))
    · simp only [FileWorld.commitTo, update_of_ne (Ne.symm hne), update_self]
    · exact hvalid
    · simp only [Ledger.step, if_neg hne, Ledger.commit, handOn, update_of_ne (Ne.symm hne), update_of_ne hne,
        update_self, h.held, pendingIn_some hx, FileWriter.pending, hl, Option.map_some]
    · rw [FileWriter.moveAssign, FileWriter.data_commit]
      exact hdata
  | _ => exact absurd trivial hop

end

end Account

/-- **A writer carries its message** throughout a run exactly when each move from
    a valid writer of the run finds the source's buffer in its target. -/
theorem writers_carry_messages_iff {L W : Type} [DecidableEq L] [DecidableEq W] (order : ByteOrder) (fd : L → Int)
    (tr : Runs.Trace (WriterOp L W) (Account L W))
    (hrun : Runs.IsRun (fun s op t => Account.step order fd s op = some t) Account.initial tr) :
    Runs.Always (Account.CarriesMessages order fd) Account.initial tr ↔
      Runs.Along Account.KeepsBuffer Account.initial tr := by
  have hinitial : Account.Carried order fd (Account.initial : Account L W) := Account.carried_initial
  refine Runs.always_iff_along ?_ ?_ ?_ hinitial hrun
  · exact fun s h => h.carriesMessages
  · exact fun s op t h hstep hop => h.step hstep hop
  · exact fun s op t h hstep hop => h.broken hstep hop

/-- So along such a run every record is right. -/
theorem records_right_of_keepsBuffer {L W : Type} [DecidableEq L] [DecidableEq W] (order : ByteOrder) (fd : L → Int)
    {tr : Runs.Trace (WriterOp L W) (Account L W)}
    (hrun : Runs.IsRun (fun s op t => Account.step order fd s op = some t) Account.initial tr)
    (hkeeps : Runs.Along Account.KeepsBuffer Account.initial tr) :
    Runs.Always (Account.RecordsRight order fd) Account.initial tr := by
  have hcarried : Runs.Always (Account.Carried order fd) Account.initial tr :=
    Runs.always_of_along (fun _ _ _ h hstep hop => h.step hstep hop) Account.carried_initial hrun hkeeps
  exact hcarried.imp fun s h => h.records

theorem writers_carry_messages_moved : ∃ tr, Runs.follow (Account.step .little fun _ => 3)
      (Account.initial : Account Unit Bool)
      [.default false, .getWriter () true, .moveAssign true false, .write false [1, 2],
        .commit false] = some tr ∧
    Runs.Always (Account.CarriesMessages .little fun _ => 3) Account.initial tr := by
  refine ⟨_, rfl, ?_⟩
  apply (writers_carry_messages_iff .little (fun _ => 3) _ (Runs.isRun_follow
    [.default false, .getWriter () true, .moveAssign true false, .write false [1, 2],
      .commit false] rfl)).mpr
  refine ⟨trivial, trivial, fun _ x y hx hy _ => ?_, trivial, trivial, trivial⟩
  cases hx
  cases hy
  rfl

/-- A byte is written and the writer moved: the record has no payload. -/
theorem moved_message_is_lost :
    ¬∀ tr : Runs.Trace (WriterOp Unit Bool) (Account Unit Bool),
      Runs.IsRun (fun s op t => Account.step .little (fun _ => 3) s op = some t) Account.initial tr →
      Runs.Always (Account.RecordsRight .little fun _ => 3) Account.initial tr := by
  intro h
  obtain ⟨tr, htr⟩ : ∃ tr, Runs.follow (Account.step .little fun _ => 3) (Account.initial : Account Unit Bool)
    [.getWriter () true, .write true [1], .moveConstruct true false, .commit false] = some tr := ⟨_, rfl⟩
  have hfinal := Runs.always_final _ _ (h tr (Runs.isRun_follow _ htr))
  cases htr
  have hcalls : ([⟨3, [0, 0, 0, 0]⟩, ⟨3, []⟩] : List SysWrite) = [⟨3, [1, 0, 0, 0]⟩, ⟨3, [1]⟩] := hfinal
  exact absurd hcalls (by decide)

end Postform
