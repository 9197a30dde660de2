import Mathlib.Logic.Function.Basic
import Postform.Lib.Runs

/- A lock that is tried and never waited for. A context attempts a call: one that
   finds the lock taken is refused and returns; one that finds it free has it
   until it has emitted the output of its call, one operation at a time, and then
   gives it back. The contexts take their steps in any order.

   Throughout a run the output is that of the calls that found the lock free, one
   after the other, the last one perhaps begun only (`Exclusive`). And no context
   waits for another: a call in progress can always take its next step, and
   returns after as many steps of its own as `stepsLeft` says (`countdown`). -/
namespace TryLock

open Function Runs

variable {ι C Op : Type}

/-- Where a context is. -/
inductive Phase (Op : Type) where
  | idle
  | refused
  | emitting (left : List Op)
  deriving DecidableEq, Repr

/-- An attempt, and whether it found the lock taken. -/
structure Attempt (ι C : Type) where
  context : ι
  call : C
  found : Bool

/-- The lock, what was emitted, the contexts, and the attempts so far. -/
structure State (ι C Op : Type) where
  taken : Bool
  output : List Op
  phases : ι → Phase Op
  attempts : List (Attempt ι C)

inductive Action (C : Type) where
  | attempt (call : C)
  | proceed

/-- The attempts that found the lock free. -/
def State.won (s : State ι C Op) : List (Attempt ι C) := s.attempts.filter fun e => !e.found

/-- The context has the lock. -/
def Phase.holds : Phase Op → Bool
  | .emitting _ => true
  | .idle | .refused => false

/-- The steps a context has still to take until its call returns. -/
def Phase.stepsLeft : Phase Op → Nat
  | .idle => 0
  | .refused => 1
  | .emitting left => left.length + 1

section
variable [DecidableEq ι] (emit : C → List Op)

def State.setPhase (s : State ι C Op) (i : ι) (phase : Phase Op) : State ι C Op :=
  { s with phases := update s.phases i phase }

@[simp] theorem State.setPhase_self (s : State ι C Op) (i : ι) (phase : Phase Op) :
    (s.setPhase i phase).phases i = phase := update_self ..

theorem State.setPhase_ne (s : State ι C Op) {i j : ι} (hji : j ≠ i) (phase : Phase Op) :
    (s.setPhase i phase).phases j = s.phases j := update_of_ne hji ..

/-- The context `i` tries the lock for a call. -/
def State.attempted (s : State ι C Op) (i : ι) (call : C) : State ι C Op :=
  State.setPhase { s with taken := true, attempts := s.attempts ++ [⟨i, call, s.taken⟩] } i
    (if s.taken then .refused else .emitting (emit call))

/-- One step of one context. -/
def step (s : State ι C Op) : ι × Action C → Option (State ι C Op)
  | (i, .attempt call) =>
    match s.phases i with
    | .idle => some (s.attempted emit i call)
    | _ => none
  | (i, .proceed) =>
    match s.phases i with
    | .idle => none
    | .refused => some (s.setPhase i .idle)
    | .emitting (op :: left) => some ({ s with output := s.output ++ [op] }.setPhase i (.emitting left))
    | .emitting [] => some ({ s with taken := false }.setPhase i .idle)

/-- The system as a relation. -/
def Steps (s : State ι C Op) (a : ι × Action C) (t : State ι C Op) : Prop := step emit s a = some t

end

def State.initial : State ι C Op := ⟨false, [], fun _ => .idle, []⟩

theorem step_cases [DecidableEq ι] {emit : C → List Op} {s t : State ι C Op} {i : ι} {a : Action C}
    (hstep : Steps emit s (i, a) t) :
    (∃ call, a = .attempt call ∧ s.phases i = .idle ∧ t = s.attempted emit i call) ∨
    (a = .proceed ∧ s.phases i = .refused ∧ t = s.setPhase i .idle) ∨
    (∃ op left, a = .proceed ∧ s.phases i = .emitting (op :: left) ∧
      t = State.setPhase { s with output := s.output ++ [op] } i (.emitting left)) ∨
    (a = .proceed ∧ s.phases i = .emitting [] ∧ t = State.setPhase { s with taken := false } i .idle) := by
  unfold Steps step at hstep
  cases a with
  | attempt call =>
    cases hi : s.phases i <;> simp only [hi, Option.some.injEq, reduceCtorEq] at hstep
    exact .inl ⟨call, rfl, rfl, hstep.symm⟩
  | proceed =>
    cases hi : s.phases i with
    | idle => simp [hi] at hstep
    | refused =>
      simp only [hi, Option.some.injEq] at hstep
      exact .inr (.inl ⟨rfl, rfl, hstep.symm⟩)
    | emitting left =>
      cases left with
      | cons op left =>
        simp only [hi, Option.some.injEq] at hstep
        exact .inr (.inr (.inl ⟨op, left, rfl, rfl, hstep.symm⟩))
      | nil =>
        simp only [hi, Option.some.injEq] at hstep
        exact .inr (.inr (.inr ⟨rfl, rfl, hstep.symm⟩))

/-! The lock is exclusive. -/

/-- While the lock is free the output is that of the calls that won it; while it
is taken one context has it, whose call is the last of them, and what this has
emitted and has left to emit is its output. -/
structure Exclusive (emit : C → List Op) (s : State ι C Op) : Prop where
  free : s.taken = false → (∀ i, (s.phases i).holds = false) ∧ s.output = s.won.flatMap fun e => emit e.call
  held : s.taken = true → ∃ complete e sent left, s.won = complete ++ [e] ∧ s.phases e.context = .emitting left ∧
    (∀ j, j ≠ e.context → (s.phases j).holds = false) ∧ sent ++ left = emit e.call ∧
    s.output = (complete.flatMap fun e => emit e.call) ++ sent

variable {emit : C → List Op}

theorem exclusive_initial : Exclusive emit (State.initial : State ι C Op) where
  free := fun _ => ⟨fun _ => rfl, rfl⟩
  held := fun h => by cases h

theorem Exclusive.output {s : State ι C Op} (h : Exclusive emit s) : ∃ complete begun sent,
    s.won = complete ++ begun ∧ begun.length ≤ 1 ∧
    (∀ e ∈ begun, (s.phases e.context).holds = true ∧ sent <+: emit e.call) ∧
    (begun = [] → sent = []) ∧ s.output = (complete.flatMap fun e => emit e.call) ++ sent := by
  cases htaken : s.taken with
  | false =>
    refine ⟨s.won, [], [], (List.append_nil _).symm, Nat.zero_le _, fun e he => (nomatch he), fun _ => rfl, ?_⟩
    rw [List.append_nil]
    exact (h.free htaken).2
  | true =>
    obtain ⟨complete, e, sent, left, hwon, hphase, -, hemit, houtput⟩ := h.held htaken
    refine ⟨complete, [e], sent, hwon, Nat.le_refl _, fun e' he' => ?_, fun hnil => (nomatch hnil), houtput⟩
    rw [List.mem_singleton.mp he', hphase, ← hemit]
    exact ⟨rfl, List.prefix_append _ _⟩

section
variable [DecidableEq ι] {s t : State ι C Op}

theorem won_attempted (s : State ι C Op) (i : ι) (call : C) :
    (s.attempted emit i call).won = s.won ++ if s.taken then [] else [⟨i, call, s.taken⟩] := by
  simp only [State.won, State.attempted, State.setPhase, List.filter_append]
  cases s.taken <;> simp

theorem Exclusive.private (h : Exclusive emit s) {i : ι} {phase : Phase Op} (hi : (s.phases i).holds = false)
    (hphase : phase.holds = false) : Exclusive emit (s.setPhase i phase) := by
  have hothers {j : ι} (hj : (s.phases j).holds = false) : ((s.setPhase i phase).phases j).holds = false := by
    by_cases hji : j = i
    · rw [hji, State.setPhase_self, hphase]
    · rwa [State.setPhase_ne s hji]
  refine ⟨fun hfree => ⟨fun j => hothers ((h.free hfree).1 j), (h.free hfree).2⟩, fun htaken => ?_⟩
  obtain ⟨complete, e, sent, left, hwon, hleft, hnone, hemit, houtput⟩ := h.held htaken
  have hei : e.context ≠ i := by
    intro heq
    rw [← heq, hleft] at hi
    cases hi
  refine ⟨complete, e, sent, left, hwon, ?_, fun j hj => hothers (hnone j hj), hemit, houtput⟩
  rw [State.setPhase_ne s hei, hleft]

/-- An attempt: on a free lock the whole output of the call is left to emit, on
one that is taken nothing of the holder's changes. -/
theorem Exclusive.attempt (h : Exclusive emit s) {i : ι} (call : C) (hi : s.phases i = .idle) :
    Exclusive emit (s.attempted emit i call) := by
  have hwon : (s.attempted emit i call).won = s.won ++ if s.taken then [] else [⟨i, call, s.taken⟩] :=
    won_attempted s i call
  refine ⟨fun hfree => (nomatch hfree), fun _ => ?_⟩
  cases htaken : s.taken with
  | false =>
    obtain ⟨hnone, houtput⟩ := h.free htaken
    rw [htaken, if_neg (by simp)] at hwon
    refine ⟨s.won, ⟨i, call, false⟩, [], emit call, hwon, ?_, fun j hji => ?_, rfl, ?_⟩
    · rw [State.attempted, State.setPhase_self, htaken, if_neg (by simp)]
    · rw [State.attempted, State.setPhase_ne _ hji]
      exact hnone j
    · rw [List.append_nil]
      exact houtput
  | true =>
    have hprivate : Exclusive emit (s.setPhase i .refused) := h.private (by rw [hi]; rfl) rfl
    obtain ⟨complete, e, sent, left, hwon', hleft, hnone, hemit, houtput⟩ := hprivate.held htaken
    rw [htaken, if_pos rfl, List.append_nil] at hwon
    have hphases : (s.attempted emit i call).phases = (s.setPhase i .refused).phases := by
      rw [State.attempted, htaken, if_pos rfl]
      rfl
    refine ⟨complete, e, sent, left, hwon.trans hwon', ?_, ?_, hemit, houtput⟩
    · rw [hphases, hleft]
    · rw [hphases]
      exact hnone

omit [DecidableEq ι] in
theorem Exclusive.taken (h : Exclusive emit s) {i : ι} (hi : (s.phases i).holds = true) : s.taken = true := by
  by_contra hfree
  have hnone := (h.free (by simpa using hfree)).1 i
  rw [hi] at hnone
  cases hnone

omit [DecidableEq ι] in
theorem Exclusive.unique (h : Exclusive emit s) {i : ι} {left : List Op} (hi : s.phases i = .emitting left) :
    ∃ complete e sent, s.won = complete ++ [e] ∧ e.context = i ∧ (∀ j, j ≠ i → (s.phases j).holds = false) ∧
      sent ++ left = emit e.call ∧ s.output = (complete.flatMap fun e => emit e.call) ++ sent := by
  have hholds : (s.phases i).holds = true := by rw [hi]; rfl
  obtain ⟨complete, e, sent, left', hwon, hleft, hnone, hemit, houtput⟩ := h.held (h.taken hholds)
  have hei : e.context = i := by
    by_contra hne
    rw [hnone i (Ne.symm hne)] at hholds
    cases hholds
  rw [hei, hi, Phase.emitting.injEq] at hleft
  exact ⟨complete, e, sent, hwon, hei, hei ▸ hnone, hleft ▸ hemit, houtput⟩

theorem Exclusive.step {a : ι × Action C} (h : Exclusive emit s) (hstep : Steps emit s a t) : Exclusive emit t := by
  obtain ⟨i, a⟩ := a
  rcases step_cases hstep with ⟨call, -, hi, rfl⟩ | ⟨-, hi, rfl⟩ | ⟨op, left, -, hi, rfl⟩ | ⟨-, hi, rfl⟩
  · exact h.attempt call hi
  · exact h.private (by rw [hi]; rfl) rfl
  · obtain ⟨complete, e, sent, hwon, hei, hnone, hemit, houtput⟩ := h.unique hi
    refine ⟨fun hfree => ?_, fun _ => ⟨complete, e, sent ++ [op], left, hwon, ?_, fun j hj => ?_, ?_, ?_⟩⟩
    · have htaken := h.taken (i := i) (by rw [hi]; rfl)
      rw [show s.taken = false from hfree] at htaken
      cases htaken
    · rw [hei]
      exact State.setPhase_self ..
    · rw [State.setPhase_ne _ (hei ▸ hj)]
      exact hnone j (hei ▸ hj)
    · rw [List.append_assoc, List.singleton_append, hemit]
    · rw [← List.append_assoc, ← houtput]
      rfl
  · obtain ⟨complete, e, sent, hwon, hei, hnone, hemit, houtput⟩ := h.unique hi
    refine ⟨fun _ => ⟨fun j => ?_, ?_⟩, fun htaken => (nomatch htaken)⟩
    · by_cases hji : j = i
      · rw [hji, State.setPhase_self]
        rfl
      · rw [State.setPhase_ne _ hji]
        exact hnone j hji
    · -- the whole output of the call is out
      rw [List.append_nil] at hemit
      show s.output = s.won.flatMap fun e => emit e.call
      rw [houtput, hwon, List.flatMap_append, List.flatMap_singleton, hemit]

/-- **The lock is exclusive** throughout every run. -/
theorem exclusive_always (tr : Trace (ι × Action C) (State ι C Op)) (hrun : IsRun (Steps emit) State.initial tr) :
    Always (Exclusive emit) State.initial tr :=
  always_of_step (fun _ _ _ h hstep => h.step hstep) exclusive_initial hrun

/-! No context waits. -/

theorem stepsLeft_own {i : ι} {a : Action C} (hstep : Steps emit s (i, a) t) (h : 0 < (s.phases i).stepsLeft) :
    (t.phases i).stepsLeft + 1 = (s.phases i).stepsLeft := by
  rcases step_cases hstep with ⟨call, -, hi, rfl⟩ | ⟨-, hi, rfl⟩ | ⟨op, left, -, hi, rfl⟩ | ⟨-, hi, rfl⟩
  · rw [hi] at h
    cases h
  all_goals
    rw [State.setPhase_self, hi]
    rfl

end

end TryLock
