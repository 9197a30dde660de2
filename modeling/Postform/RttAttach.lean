import Postform.RttFifo

/- Attaching to a target that runs. Without blocking the target writes over what
   the host has not read, so the ring is no queue; but in any mode the offsets are
   on the ring, and the last turn of what was written is in the buffer (`Trail`).
   Once blocking is set, what is in the buffer from the host's offset on stays there
   until the host has it. From then on the ring is the queue of `RttFifo`, with that
   as its beginning, if the write offset is not behind the host's: what the host
   copies is what was passed to `write`, without a gap (`attach_lossless`). -/
namespace Postform.Rtt

open Function Ring Runs

variable (n : RingSize) (start : Nat)

/-- In any mode: the offsets are counters on the ring, and every slot has the last
byte that was written there. -/
structure Trail (s : Machine) (written : List UInt8) (P : Nat) : Prop where
  passed : s.passed = written ++ s.target.pending
  write : s.write = slot start n.size P
  mWritePtr : s.mWritePtr = slot start n.size written.length
  order : P ≤ written.length
  buffer : ∀ k (hk : k < written.length), written.length ≤ k + n.size → s.buffer (slot start n.size k) = written[k]
  read : ∃ R ≤ P, s.read = slot start n.size R
  host : ∀ seen pos, s.host = .copying seen pos → ∃ C S, C ≤ S ∧ S ≤ P ∧ pos = slot start n.size C ∧
    seen = slot start n.size S

variable {n : RingSize} {start : Nat}

theorem trail_initial (buffer : Nat → UInt8) (h : start < n.size) (flags : Flags) :
    Trail n start (.initial buffer start flags) [] 0 where
  passed := rfl
  write := (slot_zero h).symm
  mWritePtr := (slot_zero h).symm
  order := Nat.le_refl _
  buffer := fun k hk _ => by cases hk
  read := ⟨0, Nat.le_refl _, (slot_zero h).symm⟩
  host := fun _ _ h => by cases h

section
variable {s t : Machine} {written : List UInt8} {P : Nat}

theorem Trail.size_pos (_ : Trail n start s written P) : 0 < n.size := by
  have := n.two_le
  omega

theorem Trail.write_lt (h : Trail n start s written P) : s.write < n.size := by
  rw [h.write]
  exact slot_lt h.size_pos P

theorem Trail.read_lt (h : Trail n start s written P) : s.read < n.size := by
  obtain ⟨R, -, hread⟩ := h.read
  rw [hread]
  exact slot_lt h.size_pos R

theorem Trail.mWritePtr_lt (h : Trail n start s written P) : s.mWritePtr < n.size := by
  rw [h.mWritePtr]
  exact slot_lt h.size_pos _

theorem Trail.pos_lt (h : Trail n start s written P) {seen pos : Nat} (hcopying : s.host = .copying seen pos) :
    pos < n.size := by
  obtain ⟨C, S, -, -, hpos, -⟩ := h.host seen pos hcopying
  rw [hpos]
  exact slot_lt h.size_pos C

/-! One step. -/

theorem Trail.goto (h : Trail n start s written P) (pc : TargetPc) (hpending : pc.pending = s.target.pending) :
    Trail n start { s with target := pc } written P :=
  { h with passed := by rw [h.passed, ← hpending] }

theorem Trail.publish (h : Trail n start s written P) :
    Trail n start { s with write := s.mWritePtr } written written.length where
  passed := h.passed
  write := h.mWritePtr
  mWritePtr := h.mWritePtr
  order := Nat.le_refl _
  buffer := h.buffer
  read := by
    obtain ⟨R, hR, hread⟩ := h.read
    exact ⟨R, Nat.le_trans hR h.order, hread⟩
  host := fun seen pos hcopying => by
    obtain ⟨C, S, hCS, hSP, hpos, hseen⟩ := h.host seen pos hcopying
    exact ⟨C, S, hCS, Nat.le_trans hSP h.order, hpos, hseen⟩

/-- The byte goes over the oldest. -/
theorem Trail.storeByte (h : Trail n start s written P) {value : UInt8} (hpc : s.target = .storeByte value) :
    Trail n start { s with
      buffer := update s.buffer s.mWritePtr value
      mWritePtr := getNextWritePtr n.size s.mWritePtr
      target := .idle } (written ++ [value]) P := by
  refine { h with passed := ?_, mWritePtr := ?_, order := ?_, buffer := fun k hk hlast => ?_ }
  · simp [h.passed, hpc, TargetPc.pending]
  · simp [h.mWritePtr, getNextWritePtr_slot]
  · rw [List.length_append]
    exact Nat.le_add_right_of_le h.order
  · simp only [List.length_append, List.length_singleton] at hk hlast
    simp only [h.mWritePtr]
    rcases Nat.lt_or_ge k written.length with hlt | hge
    · have hne : slot start n.size k ≠ slot start n.size written.length := slot_ne hlt (by omega)
      rw [update_of_ne hne, h.buffer k hlt (by omega), List.getElem_append_left hlt]
    · have hk' : k = written.length := by omega
      subst hk'
      rw [update_self, List.getElem_concat_length rfl]

theorem Trail.targetStep (h : Trail n start s written P) (hstep : targetStep n.size s = some t) :
    ∃ written P, Trail n start t written P := by
  unfold Rtt.targetStep at hstep
  split at hstep
  · cases hstep
  · next hpc =>
    split at hstep <;> cases hstep <;> exact ⟨written, P, h.goto _ (by rw [hpc]; rfl)⟩
  · next hpc =>
    split at hstep <;> cases hstep <;> exact ⟨written, P, h.goto _ (by rw [hpc]; rfl)⟩
  · next hpc =>
    cases hstep
    exact ⟨written, written.length, h.publish.goto _ (by simp only [hpc]; rfl)⟩
  · next value hpc =>
    cases hstep
    exact ⟨_, P, h.storeByte hpc⟩
  · next hpc =>
    cases hstep
    exact ⟨written, written.length, h.publish.goto _ (by simp only [hpc]; rfl)⟩

theorem Trail.step (h : Trail n start s written P) {a : Label} (hstep : Steps n.size s a t) :
    ∃ written P, Trail n start t written P := by
  unfold Steps Rtt.step at hstep
  cases a with
  | callWrite value =>
    simp only at hstep
    split at hstep
    · next hidle =>
      cases hstep
      refine ⟨written, P, { h with passed := ?_ }⟩
      simp [h.passed, hidle, TargetPc.pending]
    · cases hstep
  | callCommit =>
    simp only at hstep
    split at hstep
    · next hidle =>
      cases hstep
      exact ⟨written, P, h.goto _ (by rw [hidle]; rfl)⟩
    · cases hstep
  | target => exact h.targetStep hstep
  | hostLoad =>
    simp only at hstep
    split at hstep
    · cases hstep
      refine ⟨written, P, { h with host := fun seen pos heq => ?_ }⟩
      cases heq
      obtain ⟨R, hR, hread⟩ := h.read
      exact ⟨R, P, hR, Nat.le_refl _, hread, h.write⟩
    · cases hstep
  | hostCopy =>
    simp only at hstep
    split at hstep
    · cases hstep
    · next seen pos hcopying =>
      split at hstep
      · cases hstep
      · next hne =>
        cases hstep
        obtain ⟨C, S, hCS, hSP, hpos, hseen⟩ := h.host seen pos hcopying
        refine ⟨written, P, { h with host := fun _ _ heq => ?_ }⟩
        cases heq
        have hlt : C < S := by
          rcases Nat.lt_or_ge C S with hlt | hge
          · exact hlt
          · exact absurd (by rw [hpos, hseen, Nat.le_antisymm hCS hge]) hne
        exact ⟨C + 1, S, hlt, hSP, by rw [hpos, nextReadPtr_slot], hseen⟩
  | hostStore =>
    simp only at hstep
    split at hstep
    · cases hstep
    · next seen pos hcopying =>
      cases hstep
      obtain ⟨C, S, hCS, hSP, hpos, -⟩ := h.host seen pos hcopying
      exact ⟨written, P, { h with read := ⟨C, Nat.le_trans hCS hSP, hpos⟩, host := fun _ _ heq => by cases heq }⟩
  | setFlags flags =>
    cases hstep
    exact ⟨written, P, { h with }⟩

end

theorem trail_always {buffer : Nat → UInt8} (h : start < n.size) {flags : Flags} {tr : Trace Label Machine}
    (hrun : IsRun (Steps n.size) (.initial buffer start flags) tr) :
    Always (fun s => ∃ written P, Trail n start s written P) (.initial buffer start flags) tr :=
  always_of_step (fun _ _ _ ⟨_, _, ht⟩ hstep => ht.step hstep) ⟨[], 0, trail_initial buffer h flags⟩ hrun

/-! From then on. -/

/-- Blocking is set, the host is between two reads, the write offset lies between
the host's and the transport's own, and the call in progress has not passed the wait
loop on a full ring. -/
structure Attachable (size : Nat) (s : Machine) : Prop where
  flags : s.flags = .blockIfFull
  host : s.host = .idle
  between : ahead size s.read s.write ≤ ahead size s.read s.mWritePtr
  room : ∀ value, s.target = .storeByte value → s.read ≠ getNextWritePtr size s.mWritePtr

/-- How many bytes were passed to `write` in front of those from the host's offset
on. -/
def resumeFrom (size : Nat) (s : Machine) : Nat :=
  s.passed.length - s.target.pending.length - ahead size s.read s.mWritePtr

/-- The histories with something in front. -/
def Machine.after (s : Machine) (passed copied : List UInt8) : Machine :=
  { s with passed := passed ++ s.passed, copied := copied ++ s.copied }

theorem step_after (size : Nat) (s : Machine) (passed copied : List UInt8) (a : Label) :
    Rtt.step size (s.after passed copied) a = (Rtt.step size s a).map fun t => t.after passed copied := by
  obtain ⟨buffer, write, read, flags, mWritePtr, target, host, passed', copied'⟩ := s
  unfold Machine.after
  cases a with
  | target =>
    show Rtt.targetStep size _ = (Rtt.targetStep size _).map _
    unfold Rtt.targetStep
    cases target with
    | loadFlags value =>
      simp only
      by_cases hflags : flags = .blockIfFull
      · rw [if_pos hflags, if_pos hflags]
        rfl
      · rw [if_neg hflags, if_neg hflags]
        rfl
    | loadRead value =>
      simp only
      by_cases hfull : read = getNextWritePtr size mWritePtr
      · rw [if_pos hfull, if_pos hfull]
        rfl
      · rw [if_neg hfull, if_neg hfull]
        rfl
    | _ => rfl
  | callWrite value =>
    simp only [Rtt.step]
    by_cases hidle : target = .idle
    · rw [if_pos hidle, if_pos hidle, List.append_assoc]
      rfl
    · rw [if_neg hidle, if_neg hidle]
      rfl
  | callCommit =>
    simp only [Rtt.step]
    by_cases hidle : target = .idle
    · rw [if_pos hidle, if_pos hidle]
      rfl
    · rw [if_neg hidle, if_neg hidle]
      rfl
  | hostLoad =>
    simp only [Rtt.step]
    by_cases hidle : host = .idle
    · rw [if_pos hidle, if_pos hidle]
      rfl
    · rw [if_neg hidle, if_neg hidle]
      rfl
  | hostCopy =>
    simp only [Rtt.step]
    cases host with
    | idle => rfl
    | copying seen pos =>
      simp only
      by_cases hend : pos = seen
      · rw [if_pos hend, if_pos hend]
        rfl
      · rw [if_neg hend, if_neg hend, List.append_assoc]
        rfl
  | hostStore =>
    simp only [Rtt.step]
    cases host <;> rfl
  | setFlags => rfl

/-- **The ring at the moment of attaching**, seen as a queue that begins with what
    is in the buffer from the host's offset on. -/
theorem Trail.fifo {s : Machine} {written : List UInt8} {P : Nat} (h : Trail n start s written P)
    (hattach : Attachable n.size s) : ∃ queue, written = written.take (resumeFrom n.size s) ++ queue ∧
      Fifo n s.read { s with passed := queue ++ s.target.pending, copied := [] } queue
        (ahead n.size s.read s.write) 0 := by
  obtain ⟨R, hRP, hread⟩ := h.read
  have hlen : s.passed.length - s.target.pending.length = written.length := by
    rw [h.passed, List.length_append, Nat.add_sub_cancel]
  have hfrom : resumeFrom n.size s = written.length - ahead n.size s.read s.mWritePtr := by rw [resumeFrom, hlen]
  have hahead := @slot_sub_ahead start n.size h.size_pos R written.length (Nat.le_trans hRP h.order)
  rw [← hread, ← h.mWritePtr] at hahead
  obtain ⟨hle, hslot⟩ := hahead
  have hlt : ahead n.size s.read s.mWritePtr < n.size := Nat.mod_lt _ h.size_pos
  have hmWritePtr := slot_ahead h.read_lt h.mWritePtr_lt
  have hbetween := hattach.between
  generalize hd : ahead n.size s.read s.mWritePtr = d at hfrom hle hslot hlt hmWritePtr hbetween
  refine ⟨written.drop (resumeFrom n.size s), (List.take_append_drop _ _).symm, ?_⟩
  have hqueue : (written.drop (resumeFrom n.size s)).length = d := by
    rw [List.length_drop, hfrom]
    omega
  have hcounter (k : Nat) : slot s.read n.size k = slot start n.size (written.length - d + k) := by
    rw [← hslot, slot_slot]
  exact {
    flags := hattach.flags
    passed := rfl
    write := (slot_ahead h.read_lt h.write_lt).symm
    read := (slot_zero h.read_lt).symm
    mWritePtr := by
      rw [hqueue]
      exact hmWritePtr.symm
    order := ⟨Nat.le_refl _, Nat.zero_le _, by rw [hqueue]; exact hbetween⟩
    room := by
      rw [hqueue]
      omega
    roomForByte := fun value hpc => by
      -- else the next offset would be the host's
      have hne := hattach.room value hpc
      rw [h.mWritePtr, getNextWritePtr_slot] at hne
      rw [hqueue]
      by_contra hfull
      have hd' : d + 1 = n.size := by omega
      apply hne
      have hturn : written.length + 1 = written.length - d + n.size := by omega
      rw [hturn, slot_add_size, hslot]
    buffer := fun k hk _ => by
      rw [hqueue] at hk
      have hget := h.buffer (written.length - d + k) (by omega) (by omega)
      show s.buffer _ = _
      rw [hcounter, hget, List.getElem_drop]
      simp only [hfrom]
    copied := rfl
    host := by simp only [hattach.host, List.length_nil] }

/-- The ring is a queue from the state `s` on, behind the bytes `before`. -/
def Queued (n : RingSize) (s : Machine) (before : List UInt8) (t : Machine) : Prop :=
  ∃ u, t = u.after before s.copied ∧ ∃ written P R, Fifo n s.read u written P R

theorem Trail.queued {s : Machine} {written : List UInt8} {P : Nat} (h : Trail n start s written P)
    (hattach : Attachable n.size s) :
    ∃ before, before.length = resumeFrom n.size s ∧ before <+: s.passed ∧ Queued n s before s := by
  obtain ⟨queue, hqueue, hfifo⟩ := h.fifo hattach
  have hpassed : s.passed = written.take (resumeFrom n.size s) ++ (queue ++ s.target.pending) := by
    rw [h.passed, ← List.append_assoc, ← hqueue]
  refine ⟨written.take (resumeFrom n.size s), ?_, ⟨_, hpassed.symm⟩, _, ?_, queue, _, 0, hfifo⟩
  · apply List.length_take_of_le
    rw [resumeFrom, h.passed, List.length_append]
    omega
  · unfold Machine.after
    simp only [List.append_nil]
    rw [← hpassed]

theorem Queued.step {s t u : Machine} {before : List UInt8} (h : Queued n s before t) {a : Label}
    (ha : a ≠ .setFlags .noBlockTrim) (hstep : Steps n.size t a u) : Queued n s before u := by
  obtain ⟨v, rfl, written, P, R, hv⟩ := h
  rw [Steps, step_after] at hstep
  obtain ⟨v', hv', rfl⟩ := Option.map_eq_some_iff.mp hstep
  exact ⟨v', rfl, hv.step ha hv'⟩

theorem Queued.copied {s t : Machine} {before : List UInt8} (h : Queued n s before t) :
    ∃ copied, t.copied = s.copied ++ copied ∧ copied <+: t.passed.drop before.length := by
  obtain ⟨u, rfl, written, P, R, hu⟩ := h
  refine ⟨u.copied, rfl, ?_⟩
  show u.copied <+: (before ++ u.passed).drop before.length
  rw [List.drop_left]
  exact hu.lossless.copied

/-- **Attaching**. Whatever mode the target was in and whatever it wrote over: from
    any state in which blocking is set and the write offset is not behind the host's,
    the host copies in every further run exactly what was passed to `write` from the
    host's offset on, in order and without a gap, and all that is passed from then
    on. -/
theorem attach_lossless (n : RingSize) (buffer : Nat → UInt8) (start : Nat) (hstart : start < n.size) (flags : Flags)
    (tr : Trace Label Machine)
    (hrun : IsRun (Steps n.size) (.initial buffer start flags) tr)
    (hattach : Attachable n.size (final (.initial buffer start flags) tr))
    (tr' : Trace Label Machine) (hrun' : IsRun (Steps n.size) (final (.initial buffer start flags) tr) tr')
    (hmode' : Along (fun _ a => a ≠ .setFlags .noBlockTrim) (final (.initial buffer start flags) tr) tr') :
    let s := final (.initial buffer start flags) tr
    Always (fun t => ∃ copied, t.copied = s.copied ++ copied ∧ copied <+: t.passed.drop (resumeFrom n.size s)) s tr' := by
  intro s
  obtain ⟨written, P, htrail⟩ : ∃ written P, Trail n start s written P := always_final _ _ (trail_always hstart hrun)
  obtain ⟨before, hbefore, -, hbegin⟩ := htrail.queued hattach
  have hqueued : Always (Queued n s before) s tr' :=
    always_of_along (fun _ _ _ hu hstep ha => hu.step ha hstep) hbegin hrun' hmode'
  apply hqueued.imp
  intro t ht
  rw [← hbefore]
  exact ht.copied

/-- Three bytes overrun a ring of two, and the host, which has read none of them,
attaches. -/
def overrun : List Label := [.callWrite 1, .target, .target, .callCommit, .target, .callWrite 2, .target, .target,
  .callWrite 3, .target, .target, .setFlags .blockIfFull]

/-- It reads, and the next byte arrives. -/
def nextByteArrives : List Label :=
  [.hostLoad, .hostCopy, .hostStore, .callWrite 4, .target, .target, .target, .callCommit, .target, .hostLoad, .hostCopy]

theorem attach_lossless_overrun : ∃ s tr', overrun.foldlM (step 2) (.initial (fun _ => 0) 0 .noBlockTrim) = some s ∧
    follow (step 2) s nextByteArrives = some tr' ∧
    Always (fun t => ∃ copied, t.copied = s.copied ++ copied ∧ copied <+: t.passed.drop (resumeFrom 2 s)) s tr' := by
  obtain ⟨s, tr', hs, hattach, htr'⟩ : ∃ s tr', overrun.foldlM (step 2) (.initial (fun _ => 0) 0 .noBlockTrim) = some s ∧
      Attachable 2 s ∧ follow (step 2) s nextByteArrives = some tr' :=
    ⟨_, _, rfl, ⟨rfl, rfl, by decide, fun _ h => by cases h⟩, rfl⟩
  obtain ⟨tr, hrun, hfinal⟩ := exists_isRun overrun hs
  subst hfinal
  exact ⟨_, tr', hs, htr', attach_lossless ⟨2, by decide, by decide⟩ (fun _ => 0) 0 (by decide) .noBlockTrim tr hrun
    hattach tr' (isRun_follow _ htr') (along_follow _ htr' (by decide))⟩

end Postform.Rtt
