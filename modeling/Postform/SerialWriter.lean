import Postform.Logger
import Postform.Lib.Rcobs

/- `SerialWriter`: the streaming rCOBS encoder a log call writes through. The
   marker counts the bytes since the last zero sent; a zero in the data is sent
   as the marker, a marker of 255 is flushed before the next byte is looked at,
   and `commit` sends the last marker and the zero that ends the frame.

   `Encodes sent data m` is the invariant of the `write` loop: what has been
   sent is whole blocks of the data up to the literals still open, and `m`
   counts those. The marker is then a function of the run of non-zero bytes at
   the end of the data, and the frame is what the data alone determines
   (`writeAll_eq`). -/
namespace Postform

open Wire

inductive WriterState where
  | writable | finished
  deriving DecidableEq, Repr

/-- A writer of a logger `L` over a transport `T`; the pointers may be null. -/
structure SerialWriter (L T : Type) where
  logger : Option L
  transport : Option T
  state : WriterState
  marker : Nat
  deriving DecidableEq, Repr

/-- A call of the transport's interface. -/
inductive TransportOp where
  | write (value : UInt8)
  | commit
  deriving DecidableEq, Repr

namespace SerialWriter

variable {L T : Type}

/-- `SerialWriter() = default`. -/
def invalid : SerialWriter L T := ⟨none, none, .finished, 1⟩

/-- The constructor the logger calls. -/
def acquired (logger : L) (transport : T) : SerialWriter L T :=
  ⟨some logger, some transport, .writable, 1⟩

/-- `m_transport->write(m_marker)`: the marker is narrowed to a byte. -/
def markerByte (marker : Nat) : UInt8 := UInt8.ofNat marker

/-- One turn of the loop of `write`: the bytes it sends and the marker. -/
def writeByte (marker : Nat) (value : UInt8) : Bytes × Nat :=
  let (flush, marker) := if marker = 255 then ([markerByte marker], 1) else ([], marker)
  if value = 0 then (flush ++ [markerByte marker], 1)
  else (flush ++ [value], (marker + 1) % 2 ^ 32)

/-- The loop of `write`. -/
def writeLoop : Nat → Bytes → Bytes × Nat
  | marker, [] => ([], marker)
  | marker, value :: data =>
    let (sent, marker) := writeByte marker value
    let (more, marker) := writeLoop marker data
    (sent ++ more, marker)

/-- `write`: the bytes the transport gets. -/
def write (w : SerialWriter L T) (data : Bytes) : SerialWriter L T × Bytes :=
  if w.state = .writable then
    let (sent, marker) := writeLoop w.marker data
    ({ w with marker := marker }, sent)
  else (w, [])

/-- `commit`: the calls of the transport, and the logger that is released. -/
def commit (w : SerialWriter L T) : SerialWriter L T × List TransportOp × Option L :=
  if w.state = .writable then
    ({ logger := none, transport := none, state := .finished, marker := 0 },
      [.write (markerByte w.marker), .write 0, .commit], w.logger)
  else (w, [], none)

/-- The move constructor: the new writer, and what `other` is left as. -/
def moveConstruct (other : SerialWriter L T) : SerialWriter L T × SerialWriter L T := (other, invalid)

/-- `operator=` from another object: this writer, and what `other` is left as.
The fields are overwritten, whatever they were. -/
def moveAssign (_this other : SerialWriter L T) : SerialWriter L T × SerialWriter L T :=
  (other, { logger := none, transport := none, state := .finished, marker := 2 ^ 32 - 1 })

/-- A sequence of `write` calls. -/
def writeAll (w : SerialWriter L T) : List Bytes → SerialWriter L T × Bytes
  | [] => (w, [])
  | data :: rest =>
    let (w, sent) := w.write data
    let (w, more) := w.writeAll rest
    (w, sent ++ more)

/-- The bytes among calls of the transport. -/
def opBytes (ops : List TransportOp) : Bytes :=
  ops.filterMap fun op => match op with
    | .write value => some value
    | .commit => none

/-- All the bytes the transport gets for a message: the `write` calls on the
writer, then `commit`. -/
def transmitted (w : SerialWriter L T) (writes : List Bytes) : Bytes :=
  (w.writeAll writes).2 ++ opBytes (w.writeAll writes).1.commit.2.1

theorem opBytes_append (ops more : List TransportOp) : opBytes (ops ++ more) = opBytes ops ++ opBytes more :=
  List.filterMap_append

/-! Splitting the data over calls changes nothing. -/

theorem writeLoop_append (m : Nat) (a b : Bytes) : writeLoop m (a ++ b) =
    ((writeLoop m a).1 ++ (writeLoop (writeLoop m a).2 b).1, (writeLoop (writeLoop m a).2 b).2) := by
  induction a generalizing m with
  | nil => rfl
  | cons value a ih => simp only [List.cons_append, writeLoop, ih, List.append_assoc]

theorem writeAll_eq {w : SerialWriter L T} (hw : w.state = .writable) (writes : List Bytes) :
    w.writeAll writes =
      ({ w with marker := (writeLoop w.marker writes.flatten).2 }, (writeLoop w.marker writes.flatten).1) := by
  induction writes generalizing w with
  | nil => rfl
  | cons data rest ih =>
    have hwrite : w.write data = ({ w with marker := (writeLoop w.marker data).2 }, (writeLoop w.marker data).1) := by
      simp [write, hw]
    -- a writer stays Writable while it is written to
    have ih := ih (w := { w with marker := (writeLoop w.marker data).2 }) hw
    simp only [writeAll, hwrite, ih, List.flatten_cons, writeLoop_append]

end SerialWriter

/-- The frame of a message, without the zero that ends it. -/
def frameBody (data : Bytes) : Bytes :=
  (SerialWriter.writeLoop 1 data).1 ++ [SerialWriter.markerByte (SerialWriter.writeLoop 1 data).2]

/-- The bytes on the wire for a message. -/
def frame (data : Bytes) : Bytes := frameBody data ++ [0]

namespace SerialWriter

variable {L T : Type}

theorem transmitted_acquired (l : L) (t : T) (writes : List Bytes) :
    (acquired l t).transmitted writes = frame writes.flatten := by
  rw [transmitted, writeAll_eq (w := acquired l t) rfl]
  simp [acquired, commit, opBytes, frame, frameBody]

/-! The loop encodes. -/

/-- `sent` is what a fresh writer has sent for `data`, `m` its marker: whole
blocks and the open literals. -/
structure Encodes (sent data : Bytes) (m : Nat) : Prop where
  blocks : ∃ frame lits msg, Rcobs.Blocks frame msg ∧ sent = frame ++ lits ∧ data = msg ++ lits ∧
    m = lits.length + 1
  marker : m = if Rcobs.trailingRun data = 0 then 1 else (Rcobs.trailingRun data - 1) % 254 + 2

theorem Encodes.nil : Encodes [] [] 1 :=
  ⟨⟨[], [], [], Rcobs.Blocks.nil, rfl, rfl, rfl⟩, rfl⟩

theorem Encodes.marker_range {sent data : Bytes} {m : Nat} (h : Encodes sent data m) : 1 ≤ m ∧ m ≤ 255 := by
  have := h.marker
  split at this <;> omega

theorem markerByte_toNat {m : Nat} (h : m ≤ 255) : (markerByte m).toNat = m := by
  rw [markerByte, UInt8.toNat_ofNat']; omega

theorem closing_markerByte {m : Nat} (h : m ≤ 255) :
    Rcobs.closing (markerByte m) = if m = 255 then [] else [0] := by
  have : markerByte m = 255 ↔ m = 255 := by
    rw [← UInt8.toNat_inj, markerByte_toNat h]; simp
  simp [Rcobs.closing, this]

theorem Encodes.literal {sent data : Bytes} {m : Nat} (h : Encodes sent data m) (hm : m ≠ 255)
    {value : UInt8} (hv : value ≠ 0) : Encodes (sent ++ [value]) (data ++ [value]) (m + 1) := by
  obtain ⟨frame, lits, msg, hb, rfl, rfl, hl⟩ := h.blocks
  refine ⟨⟨frame, lits ++ [value], msg, hb, by simp, by simp, by simp [hl]⟩, ?_⟩
  have hk := h.marker
  rw [Rcobs.trailingRun_snoc hv]
  split at hk <;> (rw [if_neg (by omega)]; omega)

theorem Encodes.zero {sent data : Bytes} {m : Nat} (h : Encodes sent data m) (hm : m ≠ 255) :
    Encodes (sent ++ [markerByte m]) (data ++ [0]) 1 := by
  have hr := h.marker_range
  obtain ⟨frame, lits, msg, hb, rfl, rfl, hl⟩ := h.blocks
  have hclose := hb.close lits (m := markerByte m) (by rw [markerByte_toNat hr.2, hl])
  rw [closing_markerByte hr.2, if_neg hm] at hclose
  exact ⟨⟨_, [], _, hclose, by simp, by simp, rfl⟩, by rw [Rcobs.trailingRun_zero]; rfl⟩

/-- With the marker at 255 a block of 254 literals is closed first; the data
are the same. -/
theorem Encodes.flush {sent data : Bytes} (h : Encodes sent data 255) :
    ∃ frame, Rcobs.Blocks frame data ∧ sent ++ [markerByte 255] = frame ∧
      0 < Rcobs.trailingRun data ∧ (Rcobs.trailingRun data - 1) % 254 = 253 := by
  have hk := h.marker
  obtain ⟨frame, lits, msg, hb, rfl, rfl, hl⟩ := h.blocks
  have hclose := hb.close lits (m := markerByte 255) (by rw [markerByte_toNat (by omega), hl])
  rw [closing_markerByte (by omega), if_pos rfl, List.append_nil] at hclose
  refine ⟨_, hclose, rfl, ?_⟩
  split at hk <;> omega

theorem Encodes.writeByte {sent data : Bytes} {m : Nat} (h : Encodes sent data m) (value : UInt8) :
    Encodes (sent ++ (writeByte m value).1) (data ++ [value]) (writeByte m value).2 := by
  have hr := h.marker_range
  by_cases hm : m = 255
  · subst hm
    obtain ⟨frame, hb, hsent, hpos, hmod⟩ := h.flush
    by_cases hv : value = 0
    · subst hv
      have hclose := hb.close [] (m := markerByte 1) rfl
      rw [closing_markerByte (by omega), if_neg (by omega)] at hclose
      refine ⟨⟨_, [], _, hclose, ?_, by simp, rfl⟩, by simp [SerialWriter.writeByte, Rcobs.trailingRun_zero]⟩
      simp [SerialWriter.writeByte, ← hsent]
    · refine ⟨⟨frame, [value], data, hb, ?_, rfl, ?_⟩, ?_⟩
      · simp [SerialWriter.writeByte, hv, ← hsent]
      · simp [SerialWriter.writeByte, hv]
      · simp only [SerialWriter.writeByte, if_true, if_neg hv]
        rw [Rcobs.trailingRun_snoc hv, if_neg (by omega)]
        omega
  · by_cases hv : value = 0
    · subst hv
      simpa [SerialWriter.writeByte, hm] using h.zero hm
    · have hmod : (m + 1) % 2 ^ 32 = m + 1 := Nat.mod_eq_of_lt (by omega)
      simp only [SerialWriter.writeByte, if_neg hm, if_neg hv, List.nil_append, hmod]
      exact h.literal hm hv

/-- **The loop keeps the invariant**, whatever was sent before. -/
theorem Encodes.writeLoop : ∀ {sent data : Bytes} {m : Nat}, Encodes sent data m → ∀ more : Bytes,
    Encodes (sent ++ (writeLoop m more).1) (data ++ more) (writeLoop m more).2
  | sent, data, m, h, [] => by simpa [SerialWriter.writeLoop] using h
  | sent, data, m, h, value :: more => by
    have := (h.writeByte value).writeLoop more
    simpa [SerialWriter.writeLoop] using this

theorem encodes (data : Bytes) :
    Encodes (SerialWriter.writeLoop 1 data).1 data (SerialWriter.writeLoop 1 data).2 := by
  simpa using Encodes.nil.writeLoop data

end SerialWriter

/-! What the host gets back from a frame. -/

/-- The length of the run of non-zero bytes that ends the data is a positive
multiple of 254. -/
def EndsFull (data : Bytes) : Prop := 0 < Rcobs.trailingRun data ∧ 254 ∣ Rcobs.trailingRun data

instance (data : Bytes) : Decidable (EndsFull data) := by unfold EndsFull; infer_instance

theorem frameBody_blocks (data : Bytes) :
    Rcobs.Blocks (frameBody data) (data ++ if EndsFull data then [] else [0]) := by
  have h := SerialWriter.encodes data
  have hr := h.marker_range
  have hk := h.marker
  obtain ⟨frame, lits, msg, hb, hsent, hdata, hl⟩ := h.blocks
  have hclose := hb.close lits (m := SerialWriter.markerByte (SerialWriter.writeLoop 1 data).2)
    (by rw [SerialWriter.markerByte_toNat hr.2, hl])
  have hfull : (SerialWriter.writeLoop 1 data).2 = 255 ↔ EndsFull data := by
    rw [EndsFull, Nat.dvd_iff_mod_eq_zero]
    split at hk <;> omega
  rw [SerialWriter.closing_markerByte hr.2, ← hsent, ← hdata] at hclose
  simpa only [frameBody, hfull] using hclose

/-! A frame has one zero byte, its last. -/

theorem SerialWriter.markerByte_ne_zero {m : Nat} (h : 1 ≤ m ∧ m ≤ 255) : SerialWriter.markerByte m ≠ 0 := by
  intro hz
  have := SerialWriter.markerByte_toNat h.2
  rw [hz] at this
  simp at this
  omega

theorem SerialWriter.writeByte_noZero {m : Nat} (h : 1 ≤ m ∧ m ≤ 255) (value : UInt8) :
    0 ∉ (SerialWriter.writeByte m value).1 := by
  have hm := SerialWriter.markerByte_ne_zero h
  have h1 := SerialWriter.markerByte_ne_zero (m := 1) (by omega)
  have h255 := SerialWriter.markerByte_ne_zero (m := 255) (by omega)
  simp only [SerialWriter.writeByte]
  split <;> split <;> simp_all [eq_comm]

theorem SerialWriter.writeLoop_noZero : ∀ {sent data : Bytes} {m : Nat}, SerialWriter.Encodes sent data m →
    ∀ more : Bytes, 0 ∉ (SerialWriter.writeLoop m more).1
  | _, _, _, _, [] => by simp [SerialWriter.writeLoop]
  | sent, data, m, h, value :: more => by
    have ih := SerialWriter.writeLoop_noZero (h.writeByte value) more
    have hb := SerialWriter.writeByte_noZero h.marker_range value
    simpa [SerialWriter.writeLoop] using ⟨hb, ih⟩

theorem frameBody_noZero (data : Bytes) : 0 ∉ frameBody data := by
  have hs := SerialWriter.writeLoop_noZero SerialWriter.Encodes.nil data
  have hm := SerialWriter.markerByte_ne_zero (SerialWriter.encodes data).marker_range
  simpa [frameBody] using ⟨hs, hm.symm⟩

theorem takeWhile_frame (data : Bytes) : (frame data).takeWhile (· != 0) = frameBody data := by
  have h := frameBody_noZero data
  rw [frame, List.takeWhile_append_of_pos]
  · simp
  · intro b hb
    have : b ≠ 0 := fun hz => h (hz ▸ hb)
    simpa using this

theorem getLast?_of_endsFull {data : Bytes} (h : EndsFull data) : data.getLast? ≠ some 0 := by
  intro hz
  obtain ⟨init, rfl⟩ := List.getLast?_eq_some_iff.mp hz
  rw [EndsFull, Rcobs.trailingRun_zero] at h
  omega

/-- **What the decoder makes of a frame.** -/
theorem decode_frameBody (data : Bytes) :
    Rcobs.decode (frameBody data) = if EndsFull data then none else some data := by
  have h := frameBody_blocks data
  split
  · next hf =>
    rw [if_pos hf, List.append_nil] at h
    exact Rcobs.decode_of_blocks_none h (getLast?_of_endsFull hf)
  · next hf =>
    rw [if_neg hf] at h
    exact Rcobs.decode_of_blocks h

end Postform
