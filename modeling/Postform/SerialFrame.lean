import Postform.SerialWriter

/- The frame as the transport sees it. `SerialWriter` models what a `write` call
   sends; here each `m_transport->write` is a call of its own, with the value
   `m_marker` has before it. The marker stays between 1 and 255 from turn to turn
   (`writeByte_marker`), so the byte it is narrowed to is never a zero, and a byte
   is sent on top of the data only after 254 others (`writeLoop_length`). -/
namespace Postform

open Wire

/-- A call of `m_transport->write`, and `m_marker` before it. -/
structure TransportWrite where
  marker : Nat
  value : UInt8
  deriving DecidableEq, Repr

namespace SerialWriter

variable {L T : Type}

/-- The calls in one turn of the loop of `write`, and the marker after it. -/
def writeByteCalls (marker : Nat) (value : UInt8) : List TransportWrite × Nat :=
  let (flush, marker) := if marker = 255 then ([⟨marker, markerByte marker⟩], 1) else ([], marker)
  if value = 0 then (flush ++ [⟨marker, markerByte marker⟩], 1)
  else (flush ++ [⟨marker, value⟩], (marker + 1) % 2 ^ 32)

/-- The calls in the loop of `write`. -/
def writeLoopCalls : Nat → Bytes → List TransportWrite × Nat
  | marker, [] => ([], marker)
  | marker, value :: data =>
    let (sent, marker) := writeByteCalls marker value
    let (more, marker) := writeLoopCalls marker data
    (sent ++ more, marker)

/-- The calls in `write`. -/
def writeCalls (w : SerialWriter L T) (data : Bytes) : List TransportWrite :=
  if w.state = .writable then (writeLoopCalls w.marker data).1 else []

/-- The calls in `commit`. -/
def commitCalls (w : SerialWriter L T) : List TransportWrite :=
  if w.state = .writable then [⟨w.marker, markerByte w.marker⟩, ⟨w.marker, 0⟩] else []

/-- The calls for a message: those of every `write`, then those of `commit`. -/
def messageCalls (w : SerialWriter L T) : List Bytes → List TransportWrite
  | [] => w.commitCalls
  | data :: rest => w.writeCalls data ++ (w.write data).1.messageCalls rest

/-! The calls are those that send the bytes. -/

theorem writeByteCalls_eq (marker : Nat) (value : UInt8) :
    (writeByteCalls marker value).1.map TransportWrite.value = (writeByte marker value).1 ∧
      (writeByteCalls marker value).2 = (writeByte marker value).2 := by
  by_cases hm : marker = 255 <;> by_cases hv : value = 0 <;> simp [writeByteCalls, writeByte, hm, hv]

theorem writeLoopCalls_eq (marker : Nat) (data : Bytes) :
    (writeLoopCalls marker data).1.map TransportWrite.value = (writeLoop marker data).1 ∧
      (writeLoopCalls marker data).2 = (writeLoop marker data).2 := by
  induction data generalizing marker with
  | nil => exact ⟨rfl, rfl⟩
  | cons value data ih =>
    obtain ⟨hsent, hmarker⟩ := writeByteCalls_eq marker value
    obtain ⟨hmore, hlast⟩ := ih (writeByte marker value).2
    simp only [writeLoopCalls, writeLoop, List.map_append, hsent, hmarker, hmore, hlast, and_self]

theorem messageCalls_eq (w : SerialWriter L T) (writes : List Bytes) :
    (w.messageCalls writes).map TransportWrite.value = w.transmitted writes := by
  induction writes generalizing w with
  | nil =>
    cases hw : w.state <;> simp [messageCalls, commitCalls, transmitted, writeAll, commit, opBytes, hw]
  | cons data rest ih =>
    have hcalls : (w.writeCalls data).map TransportWrite.value = (w.write data).2 := by
      by_cases hw : w.state = .writable
      · simp only [writeCalls, write, if_pos hw, (writeLoopCalls_eq w.marker data).1]
      · simp only [writeCalls, write, if_neg hw, List.map_nil]
    rw [messageCalls, List.map_append, hcalls, ih]
    simp only [transmitted, writeAll, List.append_assoc]

/-! The marker between the calls. -/

/-- Every call finds the marker in the range of the bytes other than zero. -/
def MarkersInRange (calls : List TransportWrite) : Prop := ∀ call ∈ calls, 1 ≤ call.marker ∧ call.marker ≤ 255

theorem markersInRange_append {calls more : List TransportWrite} (h : MarkersInRange calls) (hmore : MarkersInRange more) :
    MarkersInRange (calls ++ more) := by
  intro call hcall
  rcases List.mem_append.mp hcall with hcall | hcall
  · exact h call hcall
  · exact hmore call hcall

/-- **One turn** keeps the marker in range, and counts what it sends: the marker
    goes up with every byte and down by 254 where a byte is sent on top. -/
theorem writeByte_marker {m : Nat} (h : 1 ≤ m ∧ m ≤ 255) (value : UInt8) :
    MarkersInRange (writeByteCalls m value).1 ∧
    (1 ≤ (writeByte m value).2 ∧ (writeByte m value).2 ≤ 255) ∧
    ∃ extra, (writeByte m value).1.length = 1 + extra ∧ 254 * extra + (writeByte m value).2 ≤ 1 + m := by
  by_cases hm : m = 255
  · subst hm
    -- the flush is the byte sent on top, and pays for it
    refine ⟨?_, ?_, 1, ?_, ?_⟩ <;> by_cases hv : value = 0 <;>
      simp [MarkersInRange, writeByteCalls, writeByte, hv]
  · by_cases hv : value = 0
    · refine ⟨?_, by simp [writeByte, hv], 0, by simp [writeByte, hm, hv], by simp [writeByte, hv]⟩
      simp [MarkersInRange, writeByteCalls, hm, hv, h]
    · have hmod : (m + 1) % 2 ^ 32 = m + 1 := Nat.mod_eq_of_lt (by omega)
      refine ⟨by simp [MarkersInRange, writeByteCalls, hm, hv, h], ?_, 0, by simp [writeByte, hm, hv], ?_⟩
      · simp only [writeByte, if_neg hm, if_neg hv, hmod]
        omega
      · simp only [writeByte, if_neg hm, if_neg hv, hmod]
        omega

theorem writeLoop_marker {m : Nat} (h : 1 ≤ m ∧ m ≤ 255) (data : Bytes) :
    MarkersInRange (writeLoopCalls m data).1 ∧ 1 ≤ (writeLoop m data).2 ∧ (writeLoop m data).2 ≤ 255 := by
  induction data generalizing m with
  | nil => exact ⟨by simp [MarkersInRange, writeLoopCalls], h⟩
  | cons value data ih =>
    obtain ⟨hcalls, hrange, -⟩ := writeByte_marker h value
    obtain ⟨hmore, hlast⟩ := ih hrange
    simp only [writeLoopCalls, writeLoop, (writeByteCalls_eq m value).2]
    exact ⟨markersInRange_append hcalls hmore, hlast⟩

theorem messageCalls_marker {w : SerialWriter L T} (h : 1 ≤ w.marker ∧ w.marker ≤ 255) (writes : List Bytes) :
    MarkersInRange (w.messageCalls writes) := by
  induction writes generalizing w with
  | nil =>
    by_cases hw : w.state = .writable
    · simp [messageCalls, commitCalls, MarkersInRange, hw, h]
    · simp [messageCalls, commitCalls, MarkersInRange, hw]
  | cons data rest ih =>
    by_cases hw : w.state = .writable
    · obtain ⟨hcalls, hlast⟩ := writeLoop_marker h data
      rw [messageCalls, writeCalls, if_pos hw]
      apply markersInRange_append hcalls
      apply ih
      rw [write, if_pos hw]
      exact hlast
    · rw [messageCalls, writeCalls, if_neg hw, write, if_neg hw]
      exact ih h

/-! How much is sent on top of the data. -/

theorem writeLoop_length {m : Nat} (h : 1 ≤ m ∧ m ≤ 255) (data : Bytes) :
    ∃ extra, (writeLoop m data).1.length = data.length + extra ∧
      254 * extra + (writeLoop m data).2 ≤ data.length + m := by
  induction data generalizing m with
  | nil => exact ⟨0, rfl, by simp [writeLoop]⟩
  | cons value data ih =>
    obtain ⟨-, hrange, first, hfirst, hpaid⟩ := writeByte_marker h value
    obtain ⟨extra, hlen, hle⟩ := ih hrange
    refine ⟨first + extra, ?_, ?_⟩
    · simp only [writeLoop, List.length_append, List.length_cons, hfirst, hlen]
      omega
    · simp only [writeLoop, List.length_cons]
      omega

theorem frame_length_le (data : Bytes) : (frame data).length ≤ data.length + 2 + data.length / 254 := by
  have hone : 1 ≤ 1 ∧ 1 ≤ 255 := by decide
  obtain ⟨extra, hlen, hle⟩ := writeLoop_length hone data
  obtain ⟨-, hlast, -⟩ := writeLoop_marker hone data
  have hextra : extra ≤ data.length / 254 := (Nat.le_div_iff_mul_le (by decide)).mpr (by omega)
  simp only [frame, frameBody, List.length_append, List.length_singleton, hlen]
  omega

end SerialWriter

/-- **A frame is well formed.** What the transport gets for a message depends on
    the data alone; it has one zero, its last byte, and at most one byte in 254
    besides the data, a marker and that zero; and no transport write finds the
    marker outside 1..=255, so none narrows it to a zero. -/
theorem frame_well_formed {L T : Type} (logger : L) (transport : T) (writes : List Bytes) :
    let writer := SerialWriter.acquired logger transport
    writer.transmitted writes = writer.transmitted [writes.flatten] ∧
    (∃ body, writer.transmitted writes = body ++ [0] ∧ 0 ∉ body) ∧
    (writer.transmitted writes).length ≤ writes.flatten.length + 2 + writes.flatten.length / 254 ∧
    (writer.messageCalls writes).map TransportWrite.value = writer.transmitted writes ∧
    ∀ call ∈ writer.messageCalls writes, (1 ≤ call.marker ∧ call.marker ≤ 255) ∧
      (SerialWriter.markerByte call.marker).toNat = call.marker ∧ SerialWriter.markerByte call.marker ≠ 0 := by
  intro writer
  have hsent : ∀ split : List Bytes, writer.transmitted split = frame split.flatten :=
    SerialWriter.transmitted_acquired logger transport
  refine ⟨?_, ?_, ?_, SerialWriter.messageCalls_eq writer writes, fun call hcall => ?_⟩
  · rw [hsent, hsent, List.flatten_singleton]
  · rw [hsent]
    exact ⟨frameBody writes.flatten, rfl, frameBody_noZero writes.flatten⟩
  · rw [hsent]
    exact SerialWriter.frame_length_le writes.flatten
  · have hone : 1 ≤ 1 ∧ 1 ≤ 255 := by decide
    have hrange := SerialWriter.messageCalls_marker (w := writer) hone writes call hcall
    exact ⟨hrange, SerialWriter.markerByte_toNat hrange.2, SerialWriter.markerByte_ne_zero hrange⟩

end Postform
