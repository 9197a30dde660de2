import Postform.Lib.Ownership
import Postform.Lib.Runs
import Postform.SerialWriter

/- The writer lock. A logger's `m_taken` is set by the exchange in `getWriter` and
   cleared by the writer that commits; between the two the lock lives in the
   writer's fields, and writers are moved, overwritten and destroyed. A `World`
   is any number of loggers and of variables that hold writers, under every
   sequence of the operations.

   A writer owns its logger while it is Writable (`SerialWriter.owner`), and every
   operation is one on the table of owners: take, give back, hand on. The one
   that breaks it is a move assignment onto a Writable writer, which overwrites
   the owner without giving the logger back. -/
namespace Postform

open Function Ownership

/-- The loggers' flags, the writers alive, and what each transport was given. -/
structure World (L W T : Type) where
  taken : L → Bool
  writers : W → Option (SerialWriter L T)
  received : T → List TransportOp

/-- An operation on loggers and writers; `dst` is the variable written to. -/
inductive WriterOp (L W : Type) where
  | getWriter (logger : L) (dst : W)
  | default (dst : W)
  | write (w : W) (data : Bytes)
  | commit (w : W)
  | moveConstruct (src dst : W)
  | moveAssign (src dst : W)
  | destroy (w : W)
  deriving DecidableEq, Repr

variable {L W T : Type}

/-- The logger a writer owns. -/
def SerialWriter.owner (x : SerialWriter L T) : Option L := if x.state = .writable then x.logger else none

namespace World

def initial : World L W T := ⟨fun _ => false, fun _ => none, fun _ => []⟩

/-- The logger the writer in a variable owns. -/
def ownerIn (writers : W → Option (SerialWriter L T)) (w : W) : Option L := (writers w).bind SerialWriter.owner

/-- The lock is taken exactly when one writer alive is Writable with this
logger. -/
def LockMatchesWriters (s : World L W T) : Prop := ∀ l, s.taken l = true ↔
  ∃! w, ∃ x, s.writers w = some x ∧ x.state = .writable ∧ x.logger = some l

section
variable [DecidableEq L] [DecidableEq W] [DecidableEq T] (transport : L → T)

/-- `commit` of the writer `x` in the variable `w`, which then holds `after`. -/
def commitTo (s : World L W T) (w : W) (x : SerialWriter L T) (after : Option (SerialWriter L T)) : World L W T :=
  { taken := match x.commit.2.2 with
      | some l => update s.taken l false
      | none => s.taken
    writers := update s.writers w after
    received := match x.transport with
      | some t => update s.received t (s.received t ++ x.commit.2.1)
      | none => s.received }

/-- An operation; `none` where the objects it needs are not alive, or the one
it creates is. -/
def step (s : World L W T) : WriterOp L W → Option (World L W T)
  | .getWriter l dst =>
    if (s.writers dst).isSome then none
    else if s.taken l then some { s with taken := update s.taken l true, writers := update s.writers dst (some .invalid) }
    else some { s with
      taken := update s.taken l true
      writers := update s.writers dst (some (.acquired l (transport l))) }
  | .default dst =>
    if (s.writers dst).isSome then none
    else some { s with writers := update s.writers dst (some .invalid) }
  | .write w data => (s.writers w).map fun x =>
      { s with
        writers := update s.writers w (some (x.write data).1)
        received := match x.transport with
          | some t => update s.received t (s.received t ++ (x.write data).2.map .write)
          | none => s.received }
  | .commit w => (s.writers w).map fun x => s.commitTo w x (some x.commit.1)
  | .moveConstruct src dst =>
    if (s.writers dst).isSome then none
    else (s.writers src).map fun x =>
      { s with writers := update (update s.writers dst (some x.moveConstruct.1)) src (some x.moveConstruct.2) }
  | .moveAssign src dst =>
    (s.writers dst).bind fun y => (s.writers src).map fun x =>
      if src = dst then s
      else { s with writers := update (update s.writers dst (some (y.moveAssign x).1)) src (some (y.moveAssign x).2) }
  | .destroy w => (s.writers w).map fun x => s.commitTo w x none

end

/-! The operations on the table of owners. -/

/-- A Writable writer has a logger. -/
def Linked (writers : W → Option (SerialWriter L T)) : Prop :=
  ∀ w x, writers w = some x → x.state = .writable → ∃ l, x.logger = some l

/-- The flags agree with the writers that own a logger. -/
structure Locked (s : World L W T) : Prop where
  consistent : Consistent s.taken (ownerIn s.writers)
  linked : Linked s.writers

theorem locked_initial : Locked (initial : World L W T) :=
  ⟨consistent_initial, fun w x h => by cases h⟩

theorem owner_some {x : SerialWriter L T} {l : L} :
    x.owner = some l ↔ x.state = .writable ∧ x.logger = some l := by
  by_cases h : x.state = .writable <;> simp [SerialWriter.owner, h]

theorem ownerIn_some {writers : W → Option (SerialWriter L T)} {w : W} {l : L} :
    ownerIn writers w = some l ↔ ∃ x, writers w = some x ∧ x.state = .writable ∧ x.logger = some l := by
  simp only [ownerIn, Option.bind_eq_some_iff, owner_some]

theorem lockMatchesWriters_of_locked {s : World L W T} (h : Locked s) : LockMatchesWriters s := by
  intro l
  simp only [← ownerIn_some]
  exact h.consistent.existsUnique l

section
variable [DecidableEq W]

theorem ownerIn_update (writers : W → Option (SerialWriter L T)) (w : W) (y : Option (SerialWriter L T)) :
    ownerIn (update writers w y) = update (ownerIn writers) w (y.bind SerialWriter.owner) :=
  bind_update SerialWriter.owner writers w y

theorem Linked.update {writers : W → Option (SerialWriter L T)} (h : Linked writers) (w : W)
    {y : Option (SerialWriter L T)} (hy : ∀ x, y = some x → x.state = .writable → ∃ l, x.logger = some l) :
    Linked (Function.update writers w y) :=
  forall_update h w hy

theorem owner_invalid : (SerialWriter.invalid : SerialWriter L T).owner = none := rfl

theorem owner_acquired (l : L) (t : T) : (SerialWriter.acquired l t).owner = some l := rfl

theorem owner_commit (x : SerialWriter L T) : x.commit.1.owner = none ∧ x.commit.1.state = .finished := by
  cases h : x.state <;> simp [SerialWriter.commit, SerialWriter.owner, h]

theorem owner_write (x : SerialWriter L T) (data : Bytes) : (x.write data).1.owner = x.owner ∧
    (x.write data).1.state = x.state ∧ (x.write data).1.logger = x.logger := by
  by_cases h : x.state = .writable <;> simp [SerialWriter.write, SerialWriter.owner, h]

theorem update_owner_none {writers : W → Option (SerialWriter L T)} {w : W} (hw : ownerIn writers w = none) :
    update (ownerIn writers) w none = ownerIn writers := by
  rw [← hw, update_eq_self]

theorem ownerIn_move {writers : W → Option (SerialWriter L T)} {src dst : W} {x left : SerialWriter L T}
    (hsrc : writers src = some x) (hleft : left.owner = none) :
    ownerIn (update (update writers dst (some x)) src (some left)) = handOn (ownerIn writers) src dst :=
  bind_move hsrc rfl hleft

theorem linked_move {writers : W → Option (SerialWriter L T)} (h : Linked writers) {src dst : W}
    {x left : SerialWriter L T} (hsrc : writers src = some x) (hleft : left.state = .finished) :
    Linked (update (update writers dst (some x)) src (some left)) := by
  refine (h.update dst fun y hy hyw => ?_).update src fun y hy hyw => ?_
  · cases hy; exact h src x hsrc hyw
  · cases hy; rw [hleft] at hyw; cases hyw

end

section
variable [DecidableEq L] [DecidableEq W] [DecidableEq T] {transport : L → T}

theorem Locked.commitTo {s : World L W T} (h : Locked s) {w : W} {x : SerialWriter L T} (hw : s.writers w = some x)
    {after : Option (SerialWriter L T)} (hafter : ∀ y, after = some y → y.state = .finished) :
    Locked (s.commitTo w x after) := by
  have hnone : after.bind SerialWriter.owner = none := by
    cases after with
    | none => rfl
    | some y => simp [SerialWriter.owner, hafter y rfl]
  refine ⟨?_, h.linked.update w fun y hy hyw => ?_⟩
  · simp only [World.commitTo, ownerIn_update, hnone]
    by_cases hx : x.state = .writable
    · obtain ⟨l, hl⟩ := h.linked w x hw hx
      have hrel : x.commit.2.2 = some l := by simp [SerialWriter.commit, hx, hl]
      rw [hrel]
      exact h.consistent.release (ownerIn_some.mpr ⟨x, hw, hx, hl⟩)
    · have hrel : x.commit.2.2 = none := by simp [SerialWriter.commit, hx]
      have hown : ownerIn s.writers w = none := by simp [ownerIn, hw, SerialWriter.owner, hx]
      rw [hrel, update_owner_none hown]
      exact h.consistent
  · rw [hafter y hy] at hyw
    cases hyw

/-- Where the source is another object, the target of a move assignment is not
Writable. -/
def NoWritableTarget (s : World L W T) : WriterOp L W → Prop
  | .moveAssign src dst => src ≠ dst → ∀ y, s.writers dst = some y → y.state ≠ .writable
  | _ => True

omit [DecidableEq L] [DecidableEq W] [DecidableEq T] in
theorem ownerIn_dead {writers : W → Option (SerialWriter L T)} {w : W} (h : ¬(writers w).isSome) :
    ownerIn writers w = none := by
  rw [ownerIn, Option.not_isSome_iff_eq_none.mp h, Option.bind_none]

omit [DecidableEq L] [DecidableEq T] in
theorem Locked.place {s : World L W T} (h : Locked s) {w : W} {y : SerialWriter L T}
    (howner : y.owner = ownerIn s.writers w) (hlinked : y.state = .writable → ∃ l, y.logger = some l)
    (received : T → List TransportOp) : Locked ⟨s.taken, update s.writers w (some y), received⟩ := by
  refine ⟨?_, h.linked.update w fun x hx hxw => ?_⟩
  · simp only [ownerIn_update, Option.bind_some, howner, update_eq_self]
    exact h.consistent
  · cases hx
    exact hlinked hxw

omit [DecidableEq L] [DecidableEq T] in
theorem Locked.place_invalid {s : World L W T} (h : Locked s) {w : W} (hdead : ¬(s.writers w).isSome) :
    Locked { s with writers := update s.writers w (some .invalid) } := by
  have howner : (SerialWriter.invalid : SerialWriter L T).owner = ownerIn s.writers w := by
    rw [ownerIn_dead hdead, owner_invalid]
  exact h.place howner (fun hw => by cases hw) s.received

theorem Locked.step {s t : World L W T} {op : WriterOp L W} (h : Locked s)
    (hstep : World.step transport s op = some t) (hop : NoWritableTarget s op) : Locked t := by
  cases op with
  | getWriter l dst =>
    simp only [World.step] at hstep
    split at hstep
    · cases hstep
    next hdead =>
    split at hstep
    · next htaken =>
      -- the exchange stores what is there already
      have htaken' : update s.taken l true = s.taken := by rw [← htaken, update_eq_self]
      rw [htaken'] at hstep
      cases hstep
      exact h.place_invalid hdead
    · next htaken =>
      cases hstep
      refine ⟨?_, h.linked.update dst fun x hx _ => ⟨l, by cases hx; rfl⟩⟩
      rw [ownerIn_update, Option.bind_some, owner_acquired]
      exact h.consistent.acquire (by simpa using htaken) (ownerIn_dead hdead)
  | default dst =>
    simp only [World.step] at hstep
    split at hstep
    · cases hstep
    next hdead =>
    cases hstep
    exact h.place_invalid hdead
  | write w data =>
    obtain ⟨x, hx, rfl⟩ := Option.map_eq_some_iff.mp hstep
    obtain ⟨hown, hstate, hlogger⟩ := owner_write x data
    apply h.place
    · rw [hown, ownerIn, hx, Option.bind_some]
    · intro hw
      rw [hlogger]
      rw [hstate] at hw
      exact h.linked w x hx hw
  | commit w =>
    obtain ⟨x, hx, rfl⟩ := Option.map_eq_some_iff.mp hstep
    exact h.commitTo hx fun y hy => by cases hy; exact (owner_commit x).2
  | moveConstruct src dst =>
    simp only [World.step] at hstep
    split at hstep
    · cases hstep
    next hdead =>
    obtain ⟨x, hx, rfl⟩ := Option.map_eq_some_iff.mp hstep
    have hne : src ≠ dst := by
      intro heq
      subst heq
      rw [hx] at hdead
      exact hdead rfl
    refine ⟨?_, linked_move h.linked hx rfl⟩
    simp only [SerialWriter.moveConstruct]
    rw [ownerIn_move hx rfl]
    apply h.consistent.handedOn hne
    exact ownerIn_dead hdead
  | moveAssign src dst =>
    obtain ⟨y, hy, hstep⟩ := Option.bind_eq_some_iff.mp hstep
    obtain ⟨x, hx, hstep⟩ := Option.map_eq_some_iff.mp hstep
    split at hstep
    · cases hstep; exact h
    next hne =>
    cases hstep
    refine ⟨?_, linked_move h.linked hx rfl⟩
    simp only [SerialWriter.moveAssign]
    rw [ownerIn_move hx rfl]
    -- the writer that is overwritten owns nothing
    apply h.consistent.handedOn hne
    rw [ownerIn, hy, Option.bind_some, SerialWriter.owner, if_neg (hop hne y hy)]
  | destroy w =>
    obtain ⟨x, hx, rfl⟩ := Option.map_eq_some_iff.mp hstep
    exact h.commitTo hx fun y hy => by cases hy

/-- A move assignment onto a Writable writer leaves its logger taken with no
writer to give it back. -/
theorem Locked.broken {s t : World L W T} {op : WriterOp L W} (h : Locked s)
    (hstep : World.step transport s op = some t) (hop : ¬NoWritableTarget s op) : ¬LockMatchesWriters t := by
  cases op with
  | moveAssign src dst =>
    simp only [NoWritableTarget, not_forall] at hop
    obtain ⟨hne, y, hy, hyw⟩ := hop
    obtain ⟨y', hy', hstep⟩ := Option.bind_eq_some_iff.mp hstep
    obtain ⟨x, hx, hstep⟩ := Option.map_eq_some_iff.mp hstep
    rw [if_neg hne] at hstep
    cases hstep
    obtain ⟨l, hl⟩ := h.linked dst y hy (not_not.mp hyw)
    -- the flag stays set and nobody owns it
    obtain ⟨htaken, hgone⟩ := h.consistent.lost hne (ownerIn_some.mpr ⟨y, hy, not_not.mp hyw, hl⟩)
    intro hlock
    obtain ⟨w, hw, -⟩ := (hlock l).mp htaken
    have hown := ownerIn_some.mpr hw
    simp only [SerialWriter.moveAssign] at hown
    rw [ownerIn_move hx rfl] at hown
    exact hgone w hown
  | _ => exact absurd trivial hop

end

end World

/-- **The writer lock** matches the writers throughout a run exactly when no
    move assignment of the run has a Writable writer of another object as its
    target. -/
theorem lock_matches_writers_iff {L W T : Type} [DecidableEq L] [DecidableEq W] [DecidableEq T] (transport : L → T)
    (tr : Runs.Trace (WriterOp L W) (World L W T))
    (hrun : Runs.IsRun (fun s op t => World.step transport s op = some t) World.initial tr) :
    Runs.Always World.LockMatchesWriters World.initial tr ↔
      Runs.Along World.NoWritableTarget World.initial tr := by
  refine Runs.always_iff_along ?_ ?_ ?_ World.locked_initial hrun
  · exact fun s h => World.lockMatchesWriters_of_locked h
  · exact fun s op t h hstep hop => h.step hstep hop
  · exact fun s op t h hstep hop => h.broken hstep hop

theorem lock_matches_writers_moved : ∃ tr, Runs.follow (World.step id) (World.initial : World Unit Bool Unit)
      [.getWriter () true, .default false, .moveAssign true false, .commit false] = some tr ∧
    Runs.Always World.LockMatchesWriters World.initial tr := by
  refine ⟨_, rfl, ?_⟩
  apply (lock_matches_writers_iff id _ (Runs.isRun_follow
    [.getWriter () true, .default false, .moveAssign true false, .commit false] rfl)).mpr
  refine ⟨trivial, trivial, fun _ y hy => ?_, trivial, trivial⟩
  cases hy
  decide

/-- A writer is taken and an empty one assigned to it: the lock is lost. -/
theorem move_onto_writable_leaks :
    ¬∀ tr : Runs.Trace (WriterOp Unit Bool) (World Unit Bool Unit),
      Runs.IsRun (fun s op t => World.step id s op = some t) World.initial tr →
      Runs.Always World.LockMatchesWriters World.initial tr := by
  intro h
  obtain ⟨tr, htr⟩ : ∃ tr, Runs.follow (World.step id) (World.initial : World Unit Bool Unit)
    [.getWriter () true, .default false, .moveAssign false true] = some tr := ⟨_, rfl⟩
  have hfinal := Runs.always_final _ _ (h tr (Runs.isRun_follow _ htr))
  cases htr
  obtain ⟨w, ⟨x, hx, hw, -⟩, -⟩ := (hfinal ()).mp rfl
  cases w <;> cases hx <;> cases hw

end Postform
