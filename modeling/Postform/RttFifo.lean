import Postform.RttTransport

/- The ring in blocking mode is a lossless FIFO. The offsets are counters on the
   ring: `written` is what is in the buffer so far, of which the first `P` bytes
   are published and the first `R` are given back by the host. The target keeps
   one slot between itself and `R`, so no two counters in use meet by a whole turn,
   and every slot from `R` on still has the byte that was written there
   (`Fifo.buffer`). What the host copies is then the next byte of `written`. -/
namespace Postform.Rtt

open Function Ring

/-- The byte of the call in progress that is not in the buffer yet. -/
def TargetPc.pending : TargetPc → List UInt8
  | .loadFlags value | .loadRead value | .publish value | .storeByte value => [value]
  | .idle | .storeWrite => []

/-- The sizes of the rings in question. -/
structure RingSize where
  size : Nat
  two_le : 2 ≤ size
  fits : size < 2 ^ 32

variable (n : RingSize) (start : Nat)

/-- The offsets and the buffer are what the counters say. -/
structure Fifo (s : Machine) (written : List UInt8) (P R : Nat) : Prop where
  flags : s.flags = .blockIfFull
  passed : s.passed = written ++ s.target.pending
  write : s.write = slot start n.size P
  read : s.read = slot start n.size R
  mWritePtr : s.mWritePtr = slot start n.size written.length
  order : R ≤ s.copied.length ∧ s.copied.length ≤ P ∧ P ≤ written.length
  room : written.length + 1 ≤ R + n.size
  roomForByte : ∀ value, s.target = .storeByte value → written.length + 2 ≤ R + n.size
  buffer : ∀ k (hk : k < written.length), R ≤ k → s.buffer (slot start n.size k) = written[k]
  copied : s.copied = written.take s.copied.length
  host : match s.host with
    | .idle => R = s.copied.length
    | .copying seen pos => pos = slot start n.size s.copied.length ∧
        ∃ S, seen = slot start n.size S ∧ s.copied.length ≤ S ∧ S ≤ P

variable {n : RingSize} {start : Nat}

theorem getNextWritePtr_slot (k : Nat) :
    getNextWritePtr n.size (slot start n.size k) = slot start n.size (k + 1) := by
  have h0 : 0 < n.size := by have := n.two_le; omega
  have hlt := @slot_lt start n.size h0 k
  have := n.fits
  rw [slot_succ h0, getNextWritePtr, Nat.mod_eq_of_lt (by omega)]

theorem nextReadPtr_slot (k : Nat) : nextReadPtr n.size (slot start n.size k) = slot start n.size (k + 1) := by
  have h0 : 0 < n.size := by have := n.two_le; omega
  rw [slot_succ h0, nextReadPtr]

theorem fifo_initial (buffer : Nat → UInt8) (h : start < n.size) :
    Fifo n start (.initial buffer start .blockIfFull) [] 0 0 where
  flags := rfl
  passed := rfl
  write := (slot_zero h).symm
  read := (slot_zero h).symm
  mWritePtr := (slot_zero h).symm
  order := ⟨Nat.le_refl _, Nat.le_refl _, Nat.le_refl _⟩
  room := by have := n.two_le; simp; omega
  roomForByte := fun _ h => by cases h
  buffer := fun k hk _ => by cases hk
  copied := rfl
  host := rfl

section
variable {s t : Machine} {written : List UInt8} {P R : Nat}

/-! The host. -/

theorem Fifo.hostLoad (h : Fifo n start s written P R) (hidle : s.host = .idle) :
    Fifo n start { s with host := .copying s.write s.read } written P R := by
  have hhost := h.host
  rw [hidle] at hhost
  exact { h with host := ⟨by rw [h.read, hhost], P, h.write, h.order.2.1, Nat.le_refl P⟩ }

theorem Fifo.hostCopy (h : Fifo n start s written P R) {seen pos : Nat} (hcopying : s.host = .copying seen pos)
    (hne : pos ≠ seen) :
    Fifo n start { s with
      copied := s.copied ++ [s.buffer pos]
      host := .copying seen (nextReadPtr n.size pos) } written P R := by
  have hhost := h.host
  rw [hcopying] at hhost
  obtain ⟨hpos, S, hseen, hCS, hSP⟩ := hhost
  obtain ⟨hRC, hCP, hPW⟩ := h.order
  -- it has not reached the offset it saw, so the next byte is published
  have hlt : s.copied.length < S := by
    rcases Nat.lt_or_ge s.copied.length S with hlt | hge
    · exact hlt
    · exact absurd (by rw [hpos, hseen, Nat.le_antisymm hCS hge]) hne
  have hbyte := h.buffer s.copied.length (by omega) hRC
  rw [← hpos] at hbyte
  have hlen : (s.copied ++ [s.buffer pos]).length = s.copied.length + 1 := by simp
  refine { h with order := ?_, copied := ?_, host := ?_ }
  · simp only [hlen]
    omega
  · simp only [hlen]
    rw [hbyte, List.take_succ_eq_append_getElem (by omega), ← h.copied]
  · simp only [hlen]
    exact ⟨by rw [hpos, nextReadPtr_slot], S, hseen, hlt, hSP⟩

theorem Fifo.hostStore (h : Fifo n start s written P R) {seen pos : Nat} (hcopying : s.host = .copying seen pos) :
    Fifo n start { s with read := pos, host := .idle } written P s.copied.length := by
  have hhost := h.host
  rw [hcopying] at hhost
  obtain ⟨hRC, hCP, hPW⟩ := h.order
  have hroom := h.room
  refine { h with read := hhost.1, order := ⟨Nat.le_refl _, hCP, hPW⟩, room := by omega,
                  roomForByte := fun v hv => ?_, buffer := fun k hk hC => h.buffer k hk (by omega), host := rfl }
  have := h.roomForByte v hv
  omega

/-- **One step of the host** leaves the target and its calls as they are. -/
theorem Fifo.hostStep (h : Fifo n start s written P R) {a : Label} (ha : a.isHost = true) (hstep : Steps n.size s a t) :
    (∃ R, Fifo n start t written P R) ∧ t.target = s.target ∧ t.passed = s.passed := by
  cases a with
  | hostLoad =>
    simp only [Steps, Rtt.step] at hstep
    split at hstep
    · next hidle =>
      cases hstep
      exact ⟨⟨R, h.hostLoad hidle⟩, rfl, rfl⟩
    · cases hstep
  | hostCopy =>
    simp only [Steps, Rtt.step] at hstep
    split at hstep
    · cases hstep
    · next seen pos hcopying =>
      split at hstep
      · cases hstep
      · next hne =>
        cases hstep
        exact ⟨⟨R, h.hostCopy hcopying hne⟩, rfl, rfl⟩
  | hostStore =>
    simp only [Steps, Rtt.step] at hstep
    split at hstep
    · cases hstep
    · next seen pos hcopying =>
      cases hstep
      exact ⟨⟨_, h.hostStore hcopying⟩, rfl, rfl⟩
  | _ => cases ha

/-! The target. -/

/-- The byte goes where no byte is that the host may still read. -/
theorem Fifo.storeByte (h : Fifo n start s written P R) {value : UInt8} (hpc : s.target = .storeByte value) :
    Fifo n start { s with
      buffer := update s.buffer s.mWritePtr value
      mWritePtr := getNextWritePtr n.size s.mWritePtr
      target := .idle } (written ++ [value]) P R := by
  obtain ⟨hRC, hCP, hPW⟩ := h.order
  have hroom := h.roomForByte value hpc
  refine { h with passed := ?_, mWritePtr := ?_, order := ?_, room := ?_, roomForByte := fun v hv => (nomatch hv),
                  buffer := fun k hk hR => ?_, copied := ?_ }
  · simp [h.passed, hpc, TargetPc.pending]
  · simp [h.mWritePtr, getNextWritePtr_slot]
  · simp only [List.length_append, List.length_singleton]
    omega
  · simp only [List.length_append, List.length_singleton]
    omega
  · simp only [List.length_append, List.length_singleton] at hk
    simp only [h.mWritePtr]
    rcases Nat.lt_or_ge k written.length with hlt | hge
    · have hne : slot start n.size k ≠ slot start n.size written.length := slot_ne hlt (by omega)
      rw [update_of_ne hne, h.buffer k hlt hR, List.getElem_append_left hlt]
    · -- the slot just written
      have hk' : k = written.length := by omega
      subst hk'
      rw [update_self, List.getElem_concat_length rfl]
  · have hCW : s.copied.length ≤ written.length := by omega
    simp only [List.take_append_of_le_length hCW]
    exact h.copied

theorem Fifo.goto (h : Fifo n start s written P R) (pc : TargetPc) (hpending : pc.pending = s.target.pending)
    (hroom : ∀ value, pc = .storeByte value → written.length + 2 ≤ R + n.size) :
    Fifo n start { s with target := pc } written P R :=
  { h with passed := by rw [h.passed, ← hpending], roomForByte := hroom }

theorem Fifo.publish (h : Fifo n start s written P R) :
    Fifo n start { s with write := s.mWritePtr } written written.length R := by
  obtain ⟨hRC, hCP, hPW⟩ := h.order
  refine { h with write := h.mWritePtr, order := ⟨hRC, Nat.le_trans hCP hPW, Nat.le_refl _⟩, host := ?_ }
  have hhost := h.host
  cases hcase : s.host with
  | idle => rwa [hcase] at hhost
  | copying seen pos =>
    rw [hcase] at hhost
    obtain ⟨hpos, S, hseen, hCS, hSP⟩ := hhost
    exact ⟨hpos, S, hseen, hCS, Nat.le_trans hSP hPW⟩

theorem Fifo.targetStep (h : Fifo n start s written P R) (hstep : targetStep n.size s = some t) :
    ∃ written P, Fifo n start t written P R := by
  simp only [Rtt.targetStep] at hstep
  split at hstep
  · cases hstep
  · next value hpc =>
    rw [if_pos h.flags] at hstep
    cases hstep
    exact ⟨written, P, h.goto _ (by rw [hpc]; rfl) (by simp)⟩
  · next value hpc =>
    split at hstep
    · cases hstep
      exact ⟨written, P, h.goto _ (by rw [hpc]; rfl) (by simp)⟩
    · next hne =>
      -- the next offset is not the host's, so the slot before it is free
      cases hstep
      refine ⟨written, P, h.goto _ (by rw [hpc]; rfl) fun _ _ => ?_⟩
      rw [h.mWritePtr, getNextWritePtr_slot, h.read] at hne
      have hroom := h.room
      rcases Nat.lt_or_ge (written.length + 1) (R + n.size) with hlt | hge
      · omega
      · have hturn : written.length + 1 = R + n.size := by omega
        rw [hturn, slot_add_size] at hne
        exact absurd rfl hne
  · next value hpc =>
    cases hstep
    exact ⟨written, written.length, h.publish.goto _ (by simp only [hpc]; rfl) (by simp)⟩
  · next value hpc =>
    cases hstep
    exact ⟨_, P, h.storeByte hpc⟩
  · next hpc =>
    cases hstep
    exact ⟨written, written.length, h.publish.goto _ (by simp only [hpc]; rfl) (by simp)⟩

theorem Fifo.step (h : Fifo n start s written P R) {a : Label} (ha : a ≠ .setFlags .noBlockTrim)
    (hstep : Steps n.size s a t) : ∃ written P R, Fifo n start t written P R := by
  cases a with
  | callWrite value =>
    simp only [Steps, Rtt.step] at hstep
    split at hstep
    · next hidle =>
      cases hstep
      refine ⟨written, P, R, { h with passed := ?_, roomForByte := fun v hv => (nomatch hv) }⟩
      simp [h.passed, hidle, TargetPc.pending]
    · cases hstep
  | callCommit =>
    simp only [Steps, Rtt.step] at hstep
    split at hstep
    · next hidle =>
      cases hstep
      exact ⟨written, P, R, h.goto _ (by rw [hidle]; rfl) (by simp)⟩
    · cases hstep
  | target =>
    obtain ⟨written, P, h⟩ := h.targetStep hstep
    exact ⟨written, P, R, h⟩
  | hostLoad | hostCopy | hostStore =>
    obtain ⟨⟨R', h'⟩, -, -⟩ := h.hostStep rfl hstep
    exact ⟨written, P, R', h'⟩
  | setFlags flags =>
    simp only [Steps, Rtt.step, Option.some.injEq] at hstep
    subst hstep
    cases flags with
    | blockIfFull => exact ⟨written, P, R, { h with flags := rfl }⟩
    | noBlockTrim => exact absurd rfl ha

end

/-! What the host gets. -/

/-- Only the host acts. -/
def HostOnly (tr : Runs.Trace Label Machine) : Prop := ∀ x ∈ tr, x.1.isHost = true

theorem HostOnly.cons {a : Label} {t : Machine} {tr : Runs.Trace Label Machine} (ha : a.isHost = true)
    (h : HostOnly tr) : HostOnly ((a, t) :: tr) := by
  intro x hx
  rcases List.mem_cons.mp hx with rfl | hx
  · exact ha
  · exact h x hx

/-- A `commit` that is about to store: once it has, and if only the host acts
from then on, the host can go on to the end of all that was passed to `write`. -/
def Drains (size : Nat) (s : Machine) : Prop := s.target = .storeWrite →
  ∀ t tr, Steps size s .target t → Runs.IsRun (Steps size) t tr → HostOnly tr →
    ∃ tr', Runs.IsRun (Steps size) (Runs.final t tr) tr' ∧ HostOnly tr' ∧
      (Runs.final (Runs.final t tr) tr').copied = s.passed

/-- The host has the first bytes passed to `write`, the offsets and the index
the host reads at are inside the buffer, and a commit lets the host have it
all. -/
structure Lossless (size : Nat) (s : Machine) : Prop where
  copied : s.copied <+: s.passed
  mWritePtr : s.mWritePtr < size
  write : s.write < size
  readIndex : ∀ seen pos, s.host = .copying seen pos → pos < size
  drains : Drains size s

section
variable {s t : Machine} {written : List UInt8} {P R : Nat}

theorem Fifo.hostRun : ∀ {tr : Runs.Trace Label Machine} {s : Machine} {R : Nat}, Fifo n start s written P R →
    Runs.IsRun (Steps n.size) s tr → HostOnly tr →
    (∃ R, Fifo n start (Runs.final s tr) written P R) ∧ (Runs.final s tr).target = s.target ∧
      (Runs.final s tr).passed = s.passed
  | [], _, R, h, _, _ => ⟨⟨R, h⟩, rfl, rfl⟩
  | (a, t) :: tr, s, R, h, hrun, hhost => by
    obtain ⟨⟨R', h'⟩, htarget, hpassed⟩ := h.hostStep (hhost (a, t) List.mem_cons_self) hrun.1
    obtain ⟨hfifo, htarget', hpassed'⟩ := h'.hostRun hrun.2 fun x hx => hhost x (List.mem_cons_of_mem _ hx)
    exact ⟨hfifo, htarget'.trans htarget, hpassed'.trans hpassed⟩

theorem Fifo.copyAll : ∀ (k : Nat) {s : Machine}, Fifo n start s written P R → P = written.length →
    ∀ {seen pos}, s.host = .copying seen pos → seen = slot start n.size P → P = s.copied.length + k →
    ∃ tr, Runs.IsRun (Steps n.size) s tr ∧ HostOnly tr ∧ (Runs.final s tr).copied = written
  | 0, s, h, hP, seen, pos, hhost, hseen, hk => by
    refine ⟨[], trivial, fun x hx => (nomatch hx), ?_⟩
    have := h.copied
    rwa [List.take_of_length_le (by omega)] at this
  | k + 1, s, h, hP, seen, pos, hhost, hseen, hk => by
    obtain ⟨hRC, -, -⟩ := h.order
    have hroom := h.room
    have hpos : pos = slot start n.size s.copied.length := by
      have := h.host
      rw [hhost] at this
      exact this.1
    -- less than a turn lies between them
    have hne : pos ≠ seen := by
      rw [hpos, hseen]
      exact slot_ne (by omega) (by omega)
    obtain ⟨tr, hrun, hhostOnly, hcopied⟩ := (h.hostCopy hhost hne).copyAll k hP rfl hseen (by simp; omega)
    exact ⟨(.hostCopy, _) :: tr, ⟨by simp only [Steps, Rtt.step, hhost, if_neg hne], hrun⟩, hhostOnly.cons rfl, hcopied⟩

theorem Fifo.drain (h : Fifo n start s written P R) (hP : P = written.length) :
    ∃ tr, Runs.IsRun (Steps n.size) s tr ∧ HostOnly tr ∧ (Runs.final s tr).copied = written := by
  have fromIdle {s : Machine} {R : Nat} (h : Fifo n start s written P R) (hidle : s.host = .idle) :
      ∃ tr, Runs.IsRun (Steps n.size) s tr ∧ HostOnly tr ∧ (Runs.final s tr).copied = written := by
    obtain ⟨-, hCP, -⟩ := h.order
    obtain ⟨tr, hrun, hhostOnly, hcopied⟩ := (h.hostLoad hidle).copyAll (P - s.copied.length) hP rfl h.write
      (by simp only; omega)
    exact ⟨(.hostLoad, _) :: tr, ⟨by simp only [Steps, Rtt.step, hidle, if_true], hrun⟩, hhostOnly.cons rfl, hcopied⟩
  cases hhost : s.host with
  | idle => exact fromIdle h hhost
  | copying seen pos =>
    -- the host first stores the offset it got to
    obtain ⟨tr, hrun, hhostOnly, hcopied⟩ := fromIdle (h.hostStore hhost) rfl
    exact ⟨(.hostStore, _) :: tr, ⟨by simp only [Steps, Rtt.step, hhost], hrun⟩, hhostOnly.cons rfl, hcopied⟩

theorem Fifo.lossless (h : Fifo n start s written P R) : Lossless n.size s := by
  have h0 : 0 < n.size := by have := n.two_le; omega
  refine ⟨?_, ?_, ?_, fun seen pos hcopying => ?_, fun hpc t tr hstep hrun hhostOnly => ?_⟩
  · rw [h.copied, h.passed]
    exact (List.take_prefix _ _).trans (List.prefix_append _ _)
  · rw [h.mWritePtr]
    exact slot_lt h0 _
  · rw [h.write]
    exact slot_lt h0 _
  · have hhost := h.host
    rw [hcopying] at hhost
    rw [hhost.1]
    exact slot_lt h0 _
  · simp only [Steps, Rtt.step, Rtt.targetStep, hpc, Option.some.injEq] at hstep
    subst hstep
    -- the host's steps keep what was passed, and what is left it can copy
    have hcommitted := h.publish.goto .idle (by simp only [hpc]; rfl) (by simp)
    obtain ⟨⟨R', hfifo⟩, -, -⟩ := hcommitted.hostRun hrun hhostOnly
    have hpassed : s.passed = written := by rw [h.passed, hpc]; exact List.append_nil _
    obtain ⟨tr', hrun', hhost', hcopied⟩ := hfifo.drain rfl
    exact ⟨tr', hrun', hhost', hcopied.trans hpassed.symm⟩

end

/-- **The ring is a lossless FIFO in blocking mode**, for every interleaving of
    the two sides. -/
theorem ring_lossless (n : RingSize) (buffer : Nat → UInt8) (start : Nat) (hstart : start < n.size)
    (tr : Runs.Trace Label Machine)
    (hrun : Runs.IsRun (Steps n.size) (Machine.initial buffer start .blockIfFull) tr)
    (hmode : Runs.Along (fun _ a => a ≠ .setFlags .noBlockTrim) (Machine.initial buffer start .blockIfFull) tr) :
    Runs.Always (Lossless n.size) (Machine.initial buffer start .blockIfFull) tr := by
  have hfifo : Runs.Always (fun s => ∃ written P R, Fifo n start s written P R)
      (Machine.initial buffer start .blockIfFull) tr := by
    apply Runs.always_of_along (fun s a t ⟨_, _, _, h⟩ hstep ha => h.step ha hstep) ?_ hrun hmode
    exact ⟨[], 0, 0, fifo_initial buffer hstart⟩
  exact hfifo.imp fun s ⟨_, _, _, h⟩ => h.lossless

theorem ring_lossless_two : ∃ tr, Runs.follow (step 2) (Machine.initial (fun _ => 0) 1 .blockIfFull)
      [.callWrite 7, .target, .target, .target, .callWrite 8, .target, .target, .target, .hostLoad, .hostCopy,
        .hostStore, .target, .target] = some tr ∧
    Runs.Always (Lossless 2) (Machine.initial (fun _ => 0) 1 .blockIfFull) tr := by
  obtain ⟨tr, htr⟩ : ∃ tr, Runs.follow (step 2) (Machine.initial (fun _ => 0) 1 .blockIfFull)
      [.callWrite 7, .target, .target, .target, .callWrite 8, .target, .target, .target, .hostLoad, .hostCopy,
        .hostStore, .target, .target] = some tr := ⟨_, rfl⟩
  exact ⟨tr, htr, ring_lossless ⟨2, by decide, by decide⟩ (fun _ => 0) 1 (by decide) tr (Runs.isRun_follow _ htr)
    (Runs.along_follow _ htr (by decide))⟩

end Postform.Rtt
