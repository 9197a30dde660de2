import Postform.RttTransport

/- Leaving blocking mode. `write` loads the flags once, before it waits, so a host
   that stores NO_BLOCK_TRIM does not free a call that is already waiting: only
   the read offset does. A call is stuck (`Waits`) when it is past the flag load
   and the next offset is the host's; it then goes round between the load of the
   read offset and the store of the write offset for ever. Every other call ends
   in three steps of its own or fewer. -/
namespace Postform.Rtt

/-- The call in progress is in the wait loop, with the next offset the host's. -/
def Waits (size : Nat) (s : Machine) : Prop :=
  (∃ value, s.target = .loadRead value ∨ s.target = .publish value) ∧
    s.read = getNextWritePtr size s.mWritePtr

/-- With NO_BLOCK_TRIM set, the call in progress ends by the target's own
steps. -/
def NeverStranded (size : Nat) (s : Machine) : Prop :=
  s.flags = .noBlockTrim → ∃ n, (ownSteps size n s).target = .idle

variable {size : Nat}

theorem Waits.targetStep {s t : Machine} (h : Waits size s) (hstep : targetStep size s = some t) : Waits size t := by
  obtain ⟨⟨value, hpc | hpc⟩, hfull⟩ := h
  · simp only [Rtt.targetStep, hpc, if_pos hfull] at hstep
    cases hstep
    exact ⟨⟨value, .inr rfl⟩, hfull⟩
  · simp only [Rtt.targetStep, hpc] at hstep
    cases hstep
    exact ⟨⟨value, .inl rfl⟩, hfull⟩

theorem Waits.ownSteps (n : Nat) {s : Machine} (h : Waits size s) : Waits size (ownSteps size n s) := by
  induction n generalizing s with
  | zero => exact h
  | succ n ih =>
    unfold Rtt.ownSteps
    cases hstep : Rtt.targetStep size s with
    | none => exact h
    | some t => exact ih (h.targetStep hstep)

theorem Waits.not_idle {s : Machine} (h : Waits size s) : s.target ≠ .idle := by
  obtain ⟨⟨value, hpc | hpc⟩, -⟩ := h <;> rw [hpc] <;> simp

theorem ends_of_not_waits {s : Machine} (hflags : s.flags = .noBlockTrim) (h : ¬Waits size s) :
    ∃ n, (ownSteps size n s).target = .idle := by
  cases hpc : s.target with
  | idle => exact ⟨0, hpc⟩
  | loadFlags value => exact ⟨2, by simp [ownSteps, targetStep, hpc, hflags]⟩
  | loadRead value =>
    have hroom : s.read ≠ getNextWritePtr size s.mWritePtr := fun hfull => h ⟨⟨value, .inl hpc⟩, hfull⟩
    exact ⟨2, by simp [ownSteps, targetStep, hpc, hroom]⟩
  | publish value =>
    have hroom : s.read ≠ getNextWritePtr size s.mWritePtr := fun hfull => h ⟨⟨value, .inr hpc⟩, hfull⟩
    exact ⟨3, by simp [ownSteps, targetStep, hpc, hroom]⟩
  | storeByte value => exact ⟨1, by simp [ownSteps, targetStep, hpc]⟩
  | storeWrite => exact ⟨1, by simp [ownSteps, targetStep, hpc]⟩

/-- The call in progress ends exactly when it does not wait. -/
theorem neverStranded_iff (s : Machine) :
    NeverStranded size s ↔ (s.flags = .noBlockTrim → ¬Waits size s) := by
  constructor
  · intro h hflags hwaits
    obtain ⟨n, hn⟩ := h hflags
    exact (hwaits.ownSteps n).not_idle hn
  · exact fun h hflags => ends_of_not_waits hflags (h hflags)

/-- What the host must not do while a call is in the wait loop: store
NO_BLOCK_TRIM with the buffer full, or, with NO_BLOCK_TRIM stored, the read
offset that makes it full. -/
def LeavesRoom (size : Nat) (s : Machine) : Label → Prop
  | .setFlags .noBlockTrim => ¬Waits size s
  | .hostStore => s.flags = .noBlockTrim → ∀ seen pos, s.host = .copying seen pos →
      ¬Waits size { s with read := pos }
  | _ => True

theorem not_waits_of_target {s : Machine} (h : ∀ value, s.target ≠ .loadRead value ∧ s.target ≠ .publish value) :
    ¬Waits size s := by
  intro hwaits
  obtain ⟨⟨value, hpc | hpc⟩, -⟩ := hwaits
  · exact (h value).1 hpc
  · exact (h value).2 hpc

/-- With NO_BLOCK_TRIM set, no step of the target's own begins the wait. -/
theorem Waits.of_targetStep {s t : Machine} (hflags : s.flags = .noBlockTrim)
    (hstep : Rtt.targetStep size s = some t) (h : Waits size t) : Waits size s := by
  have hleft (hpc : ∀ value, t.target ≠ .loadRead value ∧ t.target ≠ .publish value) : Waits size s :=
    absurd h (not_waits_of_target hpc)
  unfold Rtt.targetStep at hstep
  cases hpc : s.target with
  | idle => simp [hpc] at hstep
  | loadFlags value =>
    -- the flags it loads send it past the loop
    simp only [hpc, hflags, reduceCtorEq, if_false, Option.some.injEq] at hstep
    subst hstep
    exact hleft (by simp)
  | loadRead value =>
    by_cases hfull : s.read = getNextWritePtr size s.mWritePtr
    · exact ⟨⟨value, .inl hpc⟩, hfull⟩
    · simp only [hpc, if_neg hfull, Option.some.injEq] at hstep
      subst hstep
      exact hleft (by simp)
  | publish value =>
    simp only [hpc, Option.some.injEq] at hstep
    subst hstep
    exact ⟨⟨value, .inr hpc⟩, h.2⟩
  | storeByte value =>
    simp only [hpc, Option.some.injEq] at hstep
    subst hstep
    exact hleft (by simp)
  | storeWrite =>
    simp only [hpc, Option.some.injEq] at hstep
    subst hstep
    exact hleft (by simp)

theorem targetStep_flags {s t : Machine} (hstep : targetStep size s = some t) : t.flags = s.flags := by
  unfold targetStep at hstep
  split at hstep
  · cases hstep
  · split at hstep <;> (cases hstep; rfl)
  · split at hstep <;> (cases hstep; rfl)
  all_goals
    cases hstep
    rfl

theorem neverStranded_step {s t : Machine} {a : Label} (h : NeverStranded size s) (hstep : Steps size s a t)
    (ha : LeavesRoom size s a) : NeverStranded size t := by
  rw [neverStranded_iff] at h ⊢
  intro hflags
  cases a with
  | target =>
    have hsame := targetStep_flags hstep
    exact fun hwaits => h (hsame ▸ hflags) (hwaits.of_targetStep (hsame ▸ hflags) hstep)
  | callWrite value =>
    simp only [Steps, step] at hstep
    split at hstep
    · cases hstep
      exact not_waits_of_target (by simp)
    · cases hstep
  | callCommit =>
    simp only [Steps, step] at hstep
    split at hstep
    · cases hstep
      exact not_waits_of_target (by simp)
    · cases hstep
  | hostLoad =>
    simp only [Steps, step] at hstep
    split at hstep
    · cases hstep
      exact h hflags
    · cases hstep
  | hostCopy =>
    simp only [Steps, step] at hstep
    split at hstep
    · cases hstep
    split at hstep
    · cases hstep
    · cases hstep
      exact h hflags
  | hostStore =>
    simp only [Steps, step] at hstep
    split at hstep
    · cases hstep
    · next seen pos hcopying =>
      cases hstep
      exact ha hflags seen pos hcopying
  | setFlags flags =>
    simp only [Steps, step, Option.some.injEq] at hstep
    subst hstep
    -- NO_BLOCK_TRIM is what was stored
    subst hflags
    exact ha

theorem stranded_step {s t : Machine} {a : Label} (hstep : Steps size s a t) (ha : ¬LeavesRoom size s a) :
    ¬NeverStranded size t := by
  rw [neverStranded_iff]
  cases a with
  | hostStore =>
    simp only [LeavesRoom, not_forall, not_not] at ha
    obtain ⟨hflags, seen, pos, hcopying, hwaits⟩ := ha
    simp only [Steps, step, hcopying, Option.some.injEq] at hstep
    subst hstep
    exact fun h => h hflags hwaits
  | setFlags flags =>
    cases flags with
    | blockIfFull => exact absurd trivial ha
    | noBlockTrim =>
      simp only [Steps, step, Option.some.injEq] at hstep
      subst hstep
      exact fun h => ha fun hwaits => h rfl hwaits
  | _ => exact absurd trivial ha

/-- **Leaving blocking mode** strands no call throughout a run exactly when, at
    every step of it, the host leaves room to a call in the wait loop. -/
theorem never_stranded_iff (size : Nat) (buffer : Nat → UInt8) (start : Nat) (flags : Flags)
    (tr : Runs.Trace Label Machine)
    (hrun : Runs.IsRun (Steps size) (Machine.initial buffer start flags) tr) :
    Runs.Always (NeverStranded size) (Machine.initial buffer start flags) tr ↔
      Runs.Along (LeavesRoom size) (Machine.initial buffer start flags) tr := by
  have hinit : NeverStranded size (Machine.initial buffer start flags) := fun _ => ⟨0, rfl⟩
  refine Runs.always_iff_along ?_ ?_ ?_ hinit hrun
  · exact fun _ h => h
  · exact fun s a t h hstep ha => neverStranded_step h hstep ha
  · exact fun s a t _ hstep ha => stranded_step hstep ha

theorem never_stranded_switch : ∃ tr, Runs.follow (step 2) (Machine.initial (fun _ => 0) 0 .blockIfFull)
      [.callWrite 7, .target, .target, .target, .setFlags .noBlockTrim, .callWrite 8, .target, .target] = some tr ∧
    Runs.Always (NeverStranded 2) (Machine.initial (fun _ => 0) 0 .blockIfFull) tr := by
  obtain ⟨tr, htr⟩ : ∃ tr, Runs.follow (step 2) (Machine.initial (fun _ => 0) 0 .blockIfFull)
    [.callWrite 7, .target, .target, .target, .setFlags .noBlockTrim, .callWrite 8, .target, .target] = some tr :=
      ⟨_, rfl⟩
  refine ⟨tr, htr, (never_stranded_iff 2 (fun _ => 0) 0 .blockIfFull tr (Runs.isRun_follow _ htr)).mpr ?_⟩
  cases htr
  refine ⟨trivial, trivial, trivial, trivial, ?_, trivial, trivial, trivial, trivial⟩
  exact fun h => absurd rfl h.not_idle

/-- The mode switched while a call waits. -/
theorem switch_while_waiting_strands :
    ¬∀ (size : Nat) (buffer : Nat → UInt8) (start : Nat) (flags : Flags) (tr : Runs.Trace Label Machine),
      Runs.IsRun (Steps size) (Machine.initial buffer start flags) tr →
      Runs.Always (NeverStranded size) (Machine.initial buffer start flags) tr := by
  intro h
  obtain ⟨tr, htr⟩ : ∃ tr, Runs.follow (step 2) (Machine.initial (fun _ => 0) 0 .blockIfFull)
    [.callWrite 7, .target, .target, .target, .callWrite 8, .target, .setFlags .noBlockTrim] = some tr := ⟨_, rfl⟩
  have hfinal := Runs.always_final _ _ (h 2 (fun _ => 0) 0 .blockIfFull tr (Runs.isRun_follow _ htr))
  rw [neverStranded_iff] at hfinal
  cases htr
  exact hfinal rfl ⟨⟨8, .inl rfl⟩, rfl⟩

end Postform.Rtt
