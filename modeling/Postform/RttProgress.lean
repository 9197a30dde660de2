import Postform.RttFifo

/- The ring makes progress in blocking mode. A host that goes on reading gets all
   that is published and gives its slots back (`Fifo.catchUp`), so a call of the
   transport, wherever it is, can be brought to its end by its own steps and the
   host's (`Fifo.returns`): the wait loop publishes what it has before it waits. -/
namespace Postform.Rtt

open Ring Runs

variable {n : RingSize} {start : Nat} {s t : Machine} {written : List UInt8} {P R : Nat}

/-- The host's reader. -/
abbrev HostMoves (a : Label) : Prop := a.isHost = true

/-- The host's reader and the call in progress. -/
def Moves (a : Label) : Prop := a = .target ∨ HostMoves a

/-- What the host may do: read, or store the flags. -/
def Label.byHost : Label → Bool
  | .hostLoad | .hostCopy | .hostStore | .setFlags _ => true
  | .callWrite _ | .callCommit | .target => false

theorem hostStep_target {a : Label} (ha : a.byHost = true) (hstep : Steps n.size s a t) :
    t.target = s.target ∧ t.passed = s.passed ∧ t.write = s.write ∧ t.mWritePtr = s.mWritePtr := by
  unfold Steps Rtt.step at hstep
  cases a with
  | hostLoad =>
    simp only at hstep
    split at hstep
    · cases hstep
      exact ⟨rfl, rfl, rfl, rfl⟩
    · cases hstep
  | hostCopy =>
    simp only at hstep
    split at hstep
    · cases hstep
    · split at hstep
      · cases hstep
      · cases hstep
        exact ⟨rfl, rfl, rfl, rfl⟩
  | hostStore =>
    simp only at hstep
    split at hstep
    · cases hstep
    · cases hstep
      exact ⟨rfl, rfl, rfl, rfl⟩
  | setFlags flags =>
    cases hstep
    exact ⟨rfl, rfl, rfl, rfl⟩
  | _ => cases ha

/-- What a call of `write` passes. -/
def Label.passes : Label → List UInt8
  | .callWrite value => [value]
  | .callCommit | .target | .hostLoad | .hostCopy | .hostStore | .setFlags _ => []

theorem passed_step {size : Nat} {a : Label} (hstep : Steps size s a t) : t.passed = s.passed ++ a.passes := by
  unfold Steps Rtt.step at hstep
  cases a with
  | target =>
    have hstep : Rtt.targetStep size s = some t := hstep
    rw [Label.passes, List.append_nil]
    unfold Rtt.targetStep at hstep
    split at hstep
    · cases hstep
    · split at hstep <;> (cases hstep; rfl)
    · split at hstep <;> (cases hstep; rfl)
    all_goals
      cases hstep
      rfl
  | setFlags =>
    cases hstep
    exact (List.append_nil _).symm
  | callWrite value =>
    simp only at hstep
    split at hstep <;> cases hstep
    rfl
  | callCommit | hostLoad | hostStore =>
    simp only at hstep
    split at hstep <;> cases hstep
    exact (List.append_nil _).symm
  | hostCopy =>
    simp only at hstep
    split at hstep
    · cases hstep
    · split at hstep <;> cases hstep
      exact (List.append_nil _).symm

theorem byHost_of_moves {a : Label} (h : HostMoves a) : a.byHost = true := by
  cases a with
  | hostLoad | hostCopy | hostStore => rfl
  | _ => cases h

theorem leads_target (h : Leads (Steps n.size) HostMoves s t) :
    t.target = s.target ∧ t.passed = s.passed ∧ t.write = s.write ∧ t.mWritePtr = s.mWritePtr := by
  refine h.keeps (P := fun u => u.target = s.target ∧ u.passed = s.passed ∧ u.write = s.write ∧
    u.mWritePtr = s.mWritePtr) ?_ ⟨rfl, rfl, rfl, rfl⟩
  intro u a v ⟨htarget, hpassed, hwrite, hptr⟩ hstep ha
  obtain ⟨htarget', hpassed', hwrite', hptr'⟩ := hostStep_target (byHost_of_moves ha) hstep
  exact ⟨htarget'.trans htarget, hpassed'.trans hpassed, hwrite'.trans hwrite, hptr'.trans hptr⟩

/-- **The host catches up** with all that is published, and gives its slots back. -/
theorem Fifo.catchUp (h : Fifo n start s written written.length R) : ∃ t, Leads (Steps n.size) HostMoves s t ∧
    Fifo n start t written written.length written.length ∧ t.copied = written := by
  obtain ⟨tr, hrun, hhost, hcopied⟩ := h.drain rfl
  obtain ⟨⟨R', hfifo⟩, -, -⟩ := h.hostRun hrun hhost
  have hleads : Leads (Steps n.size) HostMoves s (final s tr) := ⟨tr, hrun, hhost, rfl⟩
  have hlen : (final s tr).copied.length = written.length := by rw [hcopied]
  have hstate := hfifo.host
  cases hpc : (final s tr).host with
  | idle =>
    rw [hpc, hlen] at hstate
    exact ⟨_, hleads, hstate ▸ hfifo, hcopied⟩
  | copying seen pos =>
    have hstore := hfifo.hostStore hpc
    rw [hlen] at hstore
    refine ⟨_, hleads.trans (.cons (a := .hostStore) ?_ rfl (.refl _)), hstore, hcopied⟩
    simp only [Steps, Rtt.step, hpc]

theorem Fifo.returns_room (h : Fifo n start s written P R) {value : UInt8} (hpc : s.target = .loadRead value)
    (hroom : s.read ≠ getNextWritePtr n.size s.mWritePtr) : ∃ t, Leads (Steps n.size) Moves s t ∧
      (∃ written P R, Fifo n start t written P R) ∧ t.target = .idle ∧ t.passed = s.passed := by
  have hload : Rtt.targetStep n.size s = some { s with target := .storeByte value } := by
    unfold Rtt.targetStep
    rw [hpc]
    exact if_neg hroom
  obtain ⟨written', P', hfifo⟩ := h.targetStep hload
  have hstore : Rtt.targetStep n.size { s with target := .storeByte value } = some { s with
      buffer := Function.update s.buffer s.mWritePtr value
      mWritePtr := getNextWritePtr n.size s.mWritePtr
      target := .idle } := rfl
  obtain ⟨written'', P'', hfifo'⟩ := hfifo.targetStep hstore
  exact ⟨_, .cons (a := .target) hload (.inl rfl) (.cons (a := .target) hstore (.inl rfl) (.refl _)),
    ⟨_, _, _, hfifo'⟩, rfl, rfl⟩

theorem Fifo.returns_published (h : Fifo n start s written written.length R) {value : UInt8}
    (hpc : s.target = .loadRead value) : ∃ t, Leads (Steps n.size) Moves s t ∧
      (∃ written P R, Fifo n start t written P R) ∧ t.target = .idle ∧ t.passed = s.passed := by
  obtain ⟨u, hleads, hfifo, -⟩ := h.catchUp
  obtain ⟨htarget, hpassed, -, -⟩ := leads_target hleads
  have hroom : u.read ≠ getNextWritePtr n.size u.mWritePtr := by
    have := n.two_le
    rw [hfifo.read, hfifo.mWritePtr, getNextWritePtr_slot]
    exact slot_ne (Nat.lt_succ_self _) (by omega)
  obtain ⟨t, hreturns, hex, hidle, hsame⟩ := hfifo.returns_room (htarget.trans hpc) hroom
  exact ⟨t, (hleads.mono fun a ha => .inr ha).trans hreturns, hex, hidle, hsame.trans hpassed⟩

theorem Fifo.returns_loadRead (h : Fifo n start s written P R) {value : UInt8} (hpc : s.target = .loadRead value) :
    ∃ t, Leads (Steps n.size) Moves s t ∧ (∃ written P R, Fifo n start t written P R) ∧ t.target = .idle ∧
      t.passed = s.passed := by
  by_cases hfull : s.read = getNextWritePtr n.size s.mWritePtr
  · have hload : Rtt.targetStep n.size s = some { s with target := .publish value } := by
      unfold Rtt.targetStep
      rw [hpc]
      exact if_pos hfull
    have hpublish : Rtt.targetStep n.size { s with target := .publish value } =
        some { s with write := s.mWritePtr, target := .loadRead value } := rfl
    have hfifo : Fifo n start { s with write := s.mWritePtr, target := .loadRead value } written written.length R :=
      h.publish.goto _ (by simp only [hpc]) (by simp)
    obtain ⟨t, hleads, hreturned⟩ := hfifo.returns_published rfl
    exact ⟨t, .cons (a := .target) hload (.inl rfl) (.cons (a := .target) hpublish (.inl rfl) hleads), hreturned⟩
  · exact h.returns_room hpc hfull

theorem Fifo.returns_write (h : Fifo n start s written P R) (hpc : s.target ≠ .storeWrite) :
    ∃ t, Leads (Steps n.size) Moves s t ∧ (∃ written P R, Fifo n start t written P R) ∧ t.target = .idle ∧
      t.passed = s.passed := by
  cases hcase : s.target with
  | idle => exact ⟨s, .refl s, ⟨_, _, _, h⟩, hcase, rfl⟩
  | loadFlags value =>
    -- blocking mode: on to the wait loop
    have hload : Rtt.targetStep n.size s = some { s with target := .loadRead value } := by
      unfold Rtt.targetStep
      rw [hcase]
      exact if_pos h.flags
    have hfifo : Fifo n start { s with target := .loadRead value } written P R :=
      h.goto _ (by rw [hcase]; rfl) (by simp)
    obtain ⟨t, hleads, hreturned⟩ := hfifo.returns_loadRead rfl
    exact ⟨t, .cons (a := .target) hload (.inl rfl) hleads, hreturned⟩
  | loadRead value => exact h.returns_loadRead hcase
  | publish value =>
    have hpublish : Rtt.targetStep n.size s = some { s with write := s.mWritePtr, target := .loadRead value } := by
      unfold Rtt.targetStep
      rw [hcase]
    have hfifo : Fifo n start { s with write := s.mWritePtr, target := .loadRead value } written written.length R :=
      h.publish.goto _ (by simp only [hcase]; rfl) (by simp)
    obtain ⟨t, hleads, hreturned⟩ := hfifo.returns_published rfl
    exact ⟨t, .cons (a := .target) hpublish (.inl rfl) hleads, hreturned⟩
  | storeByte value =>
    have hstore : Rtt.targetStep n.size s = some { s with
        buffer := Function.update s.buffer s.mWritePtr value
        mWritePtr := getNextWritePtr n.size s.mWritePtr
        target := .idle } := by
      unfold Rtt.targetStep
      rw [hcase]
    obtain ⟨written', P', hfifo⟩ := h.targetStep hstore
    exact ⟨_, .cons (a := .target) hstore (.inl rfl) (.refl _), ⟨_, _, _, hfifo⟩, rfl, rfl⟩
  | storeWrite => exact absurd hcase hpc

/-- **Every call of the transport returns**, if the host goes on reading. -/
theorem Fifo.returns (h : Fifo n start s written P R) : ∃ t, Leads (Steps n.size) Moves s t ∧
    (∃ written P R, Fifo n start t written P R) ∧ t.target = .idle ∧ t.passed = s.passed ∧
    (s.target = .storeWrite → t.write = t.mWritePtr) := by
  by_cases hpc : s.target = .storeWrite
  · have hstore : Rtt.targetStep n.size s = some { s with write := s.mWritePtr, target := .idle } := by
      unfold Rtt.targetStep
      rw [hpc]
    obtain ⟨written', P', hfifo⟩ := h.targetStep hstore
    exact ⟨_, .cons (a := .target) hstore (.inl rfl) (.refl _), ⟨_, _, _, hfifo⟩, rfl, rfl, fun _ => rfl⟩
  · obtain ⟨t, hleads, hex, hidle, hpassed⟩ := h.returns_write hpc
    exact ⟨t, hleads, hex, hidle, hpassed, fun hcase => absurd hcase hpc⟩

end Postform.Rtt
