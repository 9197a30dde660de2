import Postform.Decoder
import Postform.SerialWriter

/- The host's end of the serial path. `SerialDecoder::feed_and_do` collects the
   bytes up to a zero, undoes the framing and decodes; it calls the action on a
   log and prints an error where either fails. What it does depends on the bytes
   alone and not on how they were cut into calls (`feedAll_eq`), and a frame that
   arrives whole is one event of its own message (`feedAndDo_frame`). -/
namespace Postform

open Wire

namespace Host

/-- What `feed_and_do` does with a complete frame: it calls the action, or
prints. -/
inductive Event where
  | action (log : Log)
  | println (text : Str)

section
variable (crates : Crates) (elf : ElfMetadata)

/-- The body of the loop at a zero; `none` where decoding panics. -/
def frameEvent (rcobsMsgBuffer : Bytes) : Option Event :=
  match crates.rcobsDecode rcobsMsgBuffer with
  | none => some (.println "Error decoding rcobs log".toList)
  | some message =>
    match decode crates elf message with
    | .ok log => some (.action log)
    | .error (.err error) => some (.println ("Error parsing log: ".toList ++ error.display))
    | .error .panic => none

/-- `feed_and_do`, from the buffer the calls before left: what it does, in
order, and the buffer it leaves, if it returns. -/
def feedAndDo : Bytes → Bytes → List Event × Option Bytes
  | rcobsMsgBuffer, [] => ([], some rcobsMsgBuffer)
  | rcobsMsgBuffer, byte :: data =>
    if byte = 0 then
      match frameEvent crates elf rcobsMsgBuffer with
      | none => ([], none)
      | some event =>
        let (events, left) := feedAndDo [] data
        (event :: events, left)
    else feedAndDo (rcobsMsgBuffer ++ [byte]) data

/-- A sequence of calls, up to the first that panics. -/
def feedAll : Bytes → List Bytes → List Event × Option Bytes
  | rcobsMsgBuffer, [] => ([], some rcobsMsgBuffer)
  | rcobsMsgBuffer, data :: rest =>
    match feedAndDo crates elf rcobsMsgBuffer data with
    | (events, none) => (events, none)
    | (events, some rcobsMsgBuffer) =>
      let (more, left) := feedAll rcobsMsgBuffer rest
      (events ++ more, left)

theorem feedAndDo_append : ∀ (buffer a b : Bytes),
    feedAndDo crates elf buffer (a ++ b) = match feedAndDo crates elf buffer a with
      | (events, none) => (events, none)
      | (events, some buffer) =>
        (events ++ (feedAndDo crates elf buffer b).1, (feedAndDo crates elf buffer b).2)
  | _, [], _ => rfl
  | buffer, byte :: a, b => by
    rw [List.cons_append, feedAndDo, feedAndDo]
    split
    · cases frameEvent crates elf buffer with
      | none => rfl
      | some event =>
        simp only [feedAndDo_append [] a b]
        rcases feedAndDo crates elf [] a with ⟨events, _ | left⟩ <;> rfl
    · exact feedAndDo_append (buffer ++ [byte]) a b

/-- **Cutting the stream into calls changes nothing.** -/
theorem feedAll_eq (buffer : Bytes) (chunks : List Bytes) :
    feedAll crates elf buffer chunks = feedAndDo crates elf buffer chunks.flatten := by
  induction chunks generalizing buffer with
  | nil => rfl
  | cons data rest ih =>
    rw [feedAll, List.flatten_cons, feedAndDo_append]
    rcases feedAndDo crates elf buffer data with ⟨events, _ | left⟩
    · rfl
    · simp only [ih left]

theorem feedAndDo_noZero {body : Bytes} (h : 0 ∉ body) (buffer data : Bytes) :
    feedAndDo crates elf buffer (body ++ data) = feedAndDo crates elf (buffer ++ body) data := by
  induction body generalizing buffer with
  | nil => simp
  | cons byte body ih =>
    rw [List.mem_cons, not_or] at h
    rw [List.cons_append, feedAndDo, if_neg (Ne.symm h.1), ih h.2]
    simp

/-- **A frame is one event**: that of its message, if this does not end in a
    full run of non-zero bytes. -/
theorem feedAndDo_frame (hcrates : crates.Documented) {message : Bytes} (hfull : ¬EndsFull message) {log : Log}
    (hlog : decode crates elf message = .ok log) (data : Bytes) :
    feedAndDo crates elf [] (frame message ++ data) =
      (.action log :: (feedAndDo crates elf [] data).1, (feedAndDo crates elf [] data).2) := by
  have hevent : frameEvent crates elf (frameBody message) = some (.action log) := by
    have hblocks := frameBody_blocks message
    rw [if_neg hfull] at hblocks
    rw [frameEvent, hcrates.rcobsDecode hblocks]
    simp only [hlog]
  calc feedAndDo crates elf [] (frame message ++ data)
      = feedAndDo crates elf [] (frameBody message ++ (0 :: data)) := by rw [frame]; simp
    _ = feedAndDo crates elf (frameBody message) (0 :: data) :=
        feedAndDo_noZero crates elf (frameBody_noZero message) [] (0 :: data)
    _ = _ := by rw [feedAndDo, if_pos rfl, hevent]

end

end Host

/-! Framing: a message written through a writer, and what the host decodes. -/

section
variable {L T : Type} (rcobsDecode : Bytes → Option Bytes)

/-- **Framing.** The bytes before the terminating zero decode to the data
    exactly when the data do not end in a run of non-zero bytes whose length
    is a positive multiple of 254: there `commit` sends the marker 255, which
    stands for no zero, and no empty block after it. -/
theorem framing_round_trip (hrcobs : ∀ f, rcobsDecode f = Rcobs.decode f) (logger : L) (transport : T)
    (writes : List Bytes) :
    rcobsDecode (((SerialWriter.acquired logger transport).transmitted writes).takeWhile (· != 0)) =
      some writes.flatten ↔ ¬EndsFull writes.flatten := by
  rw [SerialWriter.transmitted_acquired, takeWhile_frame, hrcobs, decode_frameBody]
  by_cases hfull : EndsFull writes.flatten
  · rw [if_pos hfull]
    exact iff_of_false (by simp) (not_not_intro hfull)
  · rw [if_neg hfull]
    exact iff_of_true rfl hfull

theorem framing_round_trip_hello :
    Rcobs.decode (((SerialWriter.acquired () ()).transmitted [[104, 105], [], [0, 33]]).takeWhile (· != 0)) =
      some [104, 105, 0, 33] :=
  (framing_round_trip Rcobs.decode (fun _ => rfl) () () [[104, 105], [], [0, 33]]).mpr (by decide)

end

theorem framing_fails_at_254 :
    ¬∀ (rcobsDecode : Bytes → Option Bytes), (∀ f, rcobsDecode f = Rcobs.decode f) →
      ∀ writes : List Bytes,
        rcobsDecode (((SerialWriter.acquired () ()).transmitted writes).takeWhile (· != 0)) =
          some writes.flatten := by
  intro h
  have hfull : EndsFull [List.replicate 254 1].flatten := by
    rw [List.flatten_singleton, EndsFull, Rcobs.trailingRun_replicate (by decide)]
    decide
  have h254 := h Rcobs.decode (fun _ => rfl) [List.replicate 254 1]
  rw [SerialWriter.transmitted_acquired, takeWhile_frame, decode_frameBody, if_pos hfull] at h254
  cases h254

end Postform
