import Postform.Delivery

/- The level filter among many contexts. What a context does with the logger is to
   execute a log macro or to call `setLevel`; either begins with one load or store
   of `m_level`. A macro below the level that it loads is over; any other goes on
   as in `Contexts`.

   `history` is these loads and stores in the order they were made. The filter is
   the sequential one over the history (`passed`): what is printed are the logs of
   the calls that it lets through and that win the writer (`levels_deliver`). -/
namespace Postform

open Wire Host

variable {p : Platform} {image : Image}

/-- What a context does. The level of the call itself does not matter, only that of
its macro. -/
inductive LoggerCall (p : Platform) (image : Image) where
  | setLevel (level : LogLevel)
  | log (call : Call p image)

/-- The level behind a history. -/
def levelAfter {ι : Type} : LogLevel → List (ι × LoggerCall p image) → LogLevel
  | mLevel, [] => mLevel
  | _, (_, .setLevel level) :: history => levelAfter level history
  | mLevel, (_, .log _) :: history => levelAfter mLevel history

/-- The calls that a history lets through. -/
def passed {ι : Type} : LogLevel → List (ι × LoggerCall p image) → List (ι × Call p image)
  | _, [] => []
  | _, (_, .setLevel level) :: history => passed level history
  | mLevel, (i, .log call) :: history =>
    if call.site.logMacro.level.index < mLevel.index then passed mLevel history
    else (i, call) :: passed mLevel history

variable {ι : Type} [DecidableEq ι]

/-- Those of one context. -/
def passedBy (history : List (ι × LoggerCall p image)) (i : ι) : List (Call p image) :=
  ((passed .debug history).filter fun x => x.1 = i).map Prod.snd

/-- The logger with its level, and what each context has still to do. -/
structure LevelSystem (ι : Type) (p : Platform) (image : Image) where
  mLevel : LogLevel
  program : ι → List (LoggerCall p image)
  logger : System ι p
  history : List (ι × LoggerCall p image)

inductive LevelAction (ι : Type) where
  | level (i : ι)
  | logger (i : ι) (action : Action)
  deriving DecidableEq, Repr

namespace LevelSystem

def initial (program : ι → List (LoggerCall p image)) : LevelSystem ι p image :=
  ⟨.debug, program, System.initial fun _ => [], []⟩

/-- A call that `log` lets through is the next of its context. -/
def enter (logger : System ι p) (i : ι) (arguments : List (Argument p)) : System ι p :=
  logger.setContext i ⟨[arguments], .idle⟩

/-- The load or store of `m_level` by a context between two calls. -/
def levelStep (s : LevelSystem ι p image) (i : ι) : Option (LevelSystem ι p image) :=
  match s.logger.contexts i, s.program i with
  | ⟨[], .idle⟩, .setLevel level :: rest =>
    some { s with
      mLevel := level
      program := Function.update s.program i rest
      history := s.history ++ [(i, .setLevel level)] }
  | ⟨[], .idle⟩, .log call :: rest =>
    let logger := match Postform.log s.mLevel call.site.logMacro.level
        (.internedString call.address :: call.args.map Prod.fst) with
      | some arguments => enter s.logger i arguments
      | none => s.logger
    some { s with
      logger := logger
      program := Function.update s.program i rest
      history := s.history ++ [(i, .log call)] }
  | _, _ => none

def step (s : LevelSystem ι p image) : LevelAction ι → Option (LevelSystem ι p image)
  | .level i => s.levelStep i
  | .logger i action => (s.logger.step (i, action)).map fun logger => { s with logger := logger }

def Steps (s : LevelSystem ι p image) (a : LevelAction ι) (t : LevelSystem ι p image) : Prop := s.step a = some t

end LevelSystem

/-! The filter. -/

omit [DecidableEq ι] in
theorem levelAfter_append (mLevel : LogLevel) (history more : List (ι × LoggerCall p image)) :
    levelAfter mLevel (history ++ more) = levelAfter (levelAfter mLevel history) more := by
  induction history generalizing mLevel with
  | nil => rfl
  | cons x history ih =>
    obtain ⟨i, x⟩ := x
    cases x with
    | setLevel level => exact ih level
    | log call => exact ih mLevel

omit [DecidableEq ι] in
theorem passed_append (mLevel : LogLevel) (history more : List (ι × LoggerCall p image)) :
    passed mLevel (history ++ more) = passed mLevel history ++ passed (levelAfter mLevel history) more := by
  induction history generalizing mLevel with
  | nil => rfl
  | cons x history ih =>
    obtain ⟨i, x⟩ := x
    cases x with
    | setLevel level => exact ih level
    | log call =>
      rw [List.cons_append, passed, passed, levelAfter, ih]
      split <;> rfl

theorem passedBy_concat (history : List (ι × LoggerCall p image)) (x : ι × LoggerCall p image) (i : ι) :
    passedBy (history ++ [x]) i = passedBy history i ++
      ((passed (levelAfter .debug history) [x]).filter fun y => y.1 = i).map Prod.snd := by
  unfold passedBy
  rw [passed_append, List.filter_append, List.map_append]

/-- Every call packs, so that the level alone decides. -/
theorem Call.log_eq (call : Call p image) (mLevel : LogLevel) :
    Postform.log mLevel call.site.logMacro.level (.internedString call.address :: call.args.map Prod.fst) =
      if call.site.logMacro.level.index < mLevel.index then none else some call.arguments := by
  have harguments : buildArgs (.internedString call.address :: call.args.map Prod.fst) = some call.arguments := by
    obtain ⟨rest, hcons⟩ := call.arguments_cons Crates.reference_documented
    unfold Call.arguments at hcons ⊢
    rw [Postform.log, if_neg (Nat.not_lt.mpr call.passes)] at hcons ⊢
    cases hbuild : buildArgs (.internedString call.address :: call.args.map Prod.fst) with
    | some arguments => rfl
    | none =>
      rw [hbuild] at hcons
      cases hcons
  rw [Postform.log, harguments]

/-! A call enters. -/

theorem System.Inv.congr_program {program program' : ι → List (List (Argument p))} {s : System ι p}
    (h : System.Inv program s) (heq : ∀ i, program i = program' i) : System.Inv program' s := by
  have hprogram : program = program' := funext heq
  rwa [← hprogram]

theorem System.Inv.enter {program : ι → List (List (Argument p))} {s : System ι p} (h : System.Inv program s) {i : ι}
    (hidle : s.contexts i = ⟨[], .idle⟩) (arguments : List (Argument p)) :
    System.Inv (Function.update program i (program i ++ [arguments])) (LevelSystem.enter s i arguments) := by
  have hphase (j : ι) : ((LevelSystem.enter s i arguments).contexts j).phase = (s.contexts j).phase := by
    show (Function.update s.contexts i _ j).phase = _
    by_cases hj : j = i
    · subst hj
      rw [Function.update_self, hidle]
    · rw [Function.update_of_ne hj]
  have howner : (LevelSystem.enter s i arguments).owner = s.owner := by
    funext j
    unfold System.owner
    rw [hphase j]
  refine ⟨?_, h.free, fun j hj => ?_, fun j => ?_⟩
  · rw [howner]
    exact h.lock
  · rw [hphase j] at hj ⊢
    exact h.held j hj
  · have hcalls := h.calls j
    show (s.exchangesOf j).map Exchange.arguments ++ (Function.update s.contexts i _ j).pending = _
    by_cases hj : j = i
    · subst hj
      rw [hidle] at hcalls
      rw [Function.update_self, Function.update_self, ← hcalls]
      simp [Context.pending]
    · rw [Function.update_of_ne hj, Function.update_of_ne hj]
      exact hcalls

namespace LevelSystem

/-- The logger runs the calls that the history lets through. -/
structure Inv (program : ι → List (LoggerCall p image)) (s : LevelSystem ι p image) : Prop where
  mLevel : s.mLevel = levelAfter .debug s.history
  order : ∀ i, ((s.history.filter fun x => x.1 = i).map Prod.snd) ++ s.program i = program i
  logger : System.Inv (fun i => (passedBy s.history i).map Call.arguments) s.logger

theorem inv_initial (program : ι → List (LoggerCall p image)) : Inv program (initial program) where
  mLevel := rfl
  order := fun _ => rfl
  logger := System.inv_initial _

variable {program : ι → List (LoggerCall p image)} {s t : LevelSystem ι p image}

theorem Inv.order_concat (h : Inv program s) {i : ι} {x : LoggerCall p image} {rest : List (LoggerCall p image)}
    (hnext : s.program i = x :: rest) (j : ι) :
    (((s.history ++ [(i, x)]).filter fun y => y.1 = j).map Prod.snd) ++ Function.update s.program i rest j =
      program j := by
  rw [List.filter_append, List.map_append, List.append_assoc, ← h.order j]
  by_cases hj : j = i
  · subst hj
    rw [Function.update_self, hnext]
    simp
  · rw [Function.update_of_ne hj]
    simp [Ne.symm hj]

theorem Inv.levelStep (h : Inv program s) {i : ι} (hstep : s.levelStep i = some t) : Inv program t := by
  unfold LevelSystem.levelStep at hstep
  split at hstep
  · next level rest hidle hnext =>
    cases hstep
    refine ⟨?_, h.order_concat hnext, h.logger.congr_program fun j => ?_⟩
    · rw [levelAfter_append]
      rfl
    · rw [passedBy_concat]
      simp [passed]
  · next call rest hidle hnext =>
    cases hstep
    refine ⟨?_, h.order_concat hnext, ?_⟩
    · rw [levelAfter_append]
      exact h.mLevel
    · simp only [call.log_eq]
      by_cases hlow : call.site.logMacro.level.index < s.mLevel.index
      · rw [if_pos hlow]
        apply h.logger.congr_program
        intro j
        rw [passedBy_concat, passed, ← h.mLevel, if_pos hlow]
        simp [passed]
      · rw [if_neg hlow]
        apply (h.logger.enter hidle call.arguments).congr_program
        intro j
        rw [passedBy_concat, passed, ← h.mLevel, if_neg hlow]
        by_cases hj : j = i
        · subst hj
          rw [Function.update_self]
          simp [passed]
        · rw [Function.update_of_ne hj]
          simp [passed, Ne.symm hj]
  · cases hstep

theorem Inv.step (h : Inv program s) {a : LevelAction ι} (hstep : Steps s a t) : Inv program t := by
  cases a with
  | level i => exact h.levelStep hstep
  | logger i action =>
    obtain ⟨logger, hlogger, rfl⟩ := Option.map_eq_some_iff.mp hstep
    exact { h with logger := h.logger.step hlogger }

end LevelSystem

/-- **The level filter.** Contexts that interrupt each other anywhere execute log
    macros and set the level. However their loads and stores of the level fell, those
    of each context in its order: the calls that a context has made on the writer or
    has still to make are those that the sequential filter lets through, and whatever
    beginning of the transport's bytes the host has, the decoder has called the action
    on the logs of the first of them that won the writer. -/
theorem levels_deliver (crates : Crates) (hcrates : crates.Documented) (p : Platform) (image : Image) {ι : Type}
    [DecidableEq ι] (program : ι → List (LoggerCall p image)) (tr : Runs.Trace (LevelAction ι) (LevelSystem ι p image))
    (hrun : Runs.IsRun LevelSystem.Steps (LevelSystem.initial program) tr) :
    Runs.Always (fun s => (∀ i, ((s.history.filter fun x => x.1 = i).map Prod.snd) ++ s.program i = program i) ∧
      (∀ i, (s.logger.exchangesOf i).map Exchange.arguments ++ (s.logger.contexts i).pending =
        (passedBy s.history i).map Call.arguments) ∧
      ∀ chunks : List Bytes, chunks.flatten <+: SerialWriter.opBytes s.logger.received →
        ∃ printed left, Delivered (passedBy s.history) s.logger.won printed ∧
          feedAll crates image.elfMetadata [] chunks = (logEvents printed, some left) ∧
          (chunks.flatten = SerialWriter.opBytes s.logger.received → s.logger.won.length ≤ printed.length + 1 ∧
            (s.logger.taken = false → printed.map Prod.fst = s.logger.won))) (LevelSystem.initial program) tr := by
  refine (Runs.always_of_step (fun _ _ _ h hstep => h.step hstep) (LevelSystem.inv_initial program) hrun).imp
    fun s h => ⟨h.order, h.logger.calls, fun chunks hchunks => ?_⟩
  rw [feedAll_eq]
  exact h.logger.delivered hcrates (fun call timestamp => (decode_at hcrates call timestamp).2) hchunks

/-- An interrupt raises the level in the middle of a frame, and its own log is
dropped. -/
theorem levels_deliver_sample : ∃ tr,
    Runs.follow LevelSystem.step (LevelSystem.initial fun i => if i then [.log Sample.call] else
        [.setLevel .error, .log Sample.call])
      [.level true, .logger true (.readTimestamp 5), .logger true .exchange, .logger true .proceed, .level false,
        .level false, .logger true .proceed] = some tr ∧
    Runs.Always (fun s => (∀ i, ((s.history.filter fun x => x.1 = i).map Prod.snd) ++ s.program i =
        if i then [.log Sample.call] else [.setLevel .error, .log Sample.call]) ∧
      (∀ i, (s.logger.exchangesOf i).map Exchange.arguments ++ (s.logger.contexts i).pending =
        (passedBy s.history i).map Call.arguments) ∧
      ∀ chunks : List Bytes, chunks.flatten <+: SerialWriter.opBytes s.logger.received →
        ∃ printed left, Delivered (passedBy s.history) s.logger.won printed ∧
          feedAll Crates.reference Sample.image.elfMetadata [] chunks = (logEvents printed, some left) ∧
          (chunks.flatten = SerialWriter.opBytes s.logger.received → s.logger.won.length ≤ printed.length + 1 ∧
            (s.logger.taken = false → printed.map Prod.fst = s.logger.won)))
      (LevelSystem.initial fun i => if i then [.log Sample.call] else [.setLevel .error, .log Sample.call]) tr := by
  obtain ⟨tr, htr⟩ : ∃ tr, Runs.follow LevelSystem.step (LevelSystem.initial fun i => if i then [.log Sample.call] else
        [.setLevel .error, .log Sample.call])
      [.level true, .logger true (.readTimestamp 5), .logger true .exchange, .logger true .proceed, .level false,
        .level false, .logger true .proceed] = some tr := ⟨_, rfl⟩
  exact ⟨tr, htr, levels_deliver Crates.reference Crates.reference_documented _ _ _ tr (Runs.isRun_follow _ htr)⟩

end Postform
