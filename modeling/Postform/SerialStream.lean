import Postform.Lib.Segments
import Postform.SerialDecoder

/- `feed_and_do` over any two decoders. What the host does with a byte stream is
   stated for `rcobs::decode` and `Decoder::decode` as two functions that return a
   value or an error: each zero ends a segment of the stream, and the action gets
   the logs of the segments that decode, in order (`feed_eq`). A segment that does
   not decode, or was joined in the middle, costs its own log and no other.

   `feedAndDo_total` says that the decoder of the model is this one as long as
   `decode` does not panic. -/
namespace Postform.Host

open Wire

section
variable (rcobsDecode : Bytes → Option Bytes) (decode : Bytes → Except Error Log)

/-- What is done with a complete frame. -/
def frameOutcome (rcobsMsgBuffer : Bytes) : Event :=
  match rcobsDecode rcobsMsgBuffer with
  | none => .println "Error decoding rcobs log".toList
  | some message =>
    match decode message with
    | .ok log => .action log
    | .error error => .println ("Error parsing log: ".toList ++ error.display)

/-- `feed_and_do`, from the buffer the calls before left: what it does, in
order, and the buffer it leaves. -/
def feed : Bytes → Bytes → List Event × Bytes
  | rcobsMsgBuffer, [] => ([], rcobsMsgBuffer)
  | rcobsMsgBuffer, byte :: data =>
    if byte = 0 then
      let (events, left) := feed [] data
      (frameOutcome rcobsDecode decode rcobsMsgBuffer :: events, left)
    else feed (rcobsMsgBuffer ++ [byte]) data

/-- A sequence of calls. -/
def feedCalls : Bytes → List Bytes → List Event × Bytes
  | rcobsMsgBuffer, [] => ([], rcobsMsgBuffer)
  | rcobsMsgBuffer, data :: rest =>
    let (events, rcobsMsgBuffer) := feed rcobsDecode decode rcobsMsgBuffer data
    let (more, left) := feedCalls rcobsMsgBuffer rest
    (events ++ more, left)

/-- The log a segment decodes to, if it does. -/
def segmentLog (segment : Bytes) : Option Log := (rcobsDecode segment).bind fun message => (decode message).toOption

end

/-- The log an event passes to the action. -/
def Event.log? : Event → Option Log
  | .action log => some log
  | .println _ => none

/-- The logs passed to the action, in order. -/
def actionLogs (events : List Event) : List Log := events.filterMap Event.log?

section
variable {rcobsDecode : Bytes → Option Bytes} {decode : Bytes → Except Error Log}

theorem frameOutcome_log (segment : Bytes) :
    (frameOutcome rcobsDecode decode segment).log? = segmentLog rcobsDecode decode segment := by
  simp only [frameOutcome, segmentLog]
  cases rcobsDecode segment with
  | none => rfl
  | some message => cases h : decode message <;> simp [h, Event.log?, Except.toOption]

/-- **One call** does to each complete segment what is done with a frame, and
    keeps the unfinished one. -/
theorem feed_eq (buffer data : Bytes) : feed rcobsDecode decode buffer data =
    ((Segments.complete 0 buffer data).map (frameOutcome rcobsDecode decode), Segments.unfinished 0 buffer data) := by
  induction data generalizing buffer with
  | nil => rw [feed, Segments.complete_nil, Segments.unfinished_nil, List.map_nil]
  | cons byte data ih =>
    by_cases hzero : byte = 0
    · subst hzero
      rw [feed, if_pos rfl, ih, Segments.complete_delim, Segments.unfinished_delim, List.map_cons]
    · rw [feed, if_neg hzero, ih, Segments.complete_cons hzero, Segments.unfinished_cons hzero]

theorem feedCalls_eq (buffer : Bytes) (chunks : List Bytes) : feedCalls rcobsDecode decode buffer chunks =
    ((Segments.complete 0 buffer chunks.flatten).map (frameOutcome rcobsDecode decode),
      Segments.unfinished 0 buffer chunks.flatten) := by
  induction chunks generalizing buffer with
  | nil =>
    rw [feedCalls, List.flatten_nil, Segments.complete_nil, Segments.unfinished_nil, List.map_nil]
  | cons data rest ih =>
    simp only [feedCalls, feed_eq, ih, List.flatten_cons, Segments.complete_append, Segments.unfinished_append,
      List.map_append]

theorem actionLogs_feedCalls (buffer : Bytes) (chunks : List Bytes) :
    actionLogs (feedCalls rcobsDecode decode buffer chunks).1 =
      (Segments.complete 0 buffer chunks.flatten).filterMap (segmentLog rcobsDecode decode) := by
  have hlog : Event.log? ∘ frameOutcome rcobsDecode decode = segmentLog rcobsDecode decode := by
    funext segment
    exact frameOutcome_log segment
  rw [feedCalls_eq, actionLogs, List.filterMap_map, hlog]

/-- Without a panic the decoder is `feed` with its own two decoders. -/
theorem feedAndDo_total {crates : Crates} {elf : ElfMetadata}
    (hdecode : ∀ message, Host.decode crates elf message = (decode message).mapError .err) (buffer data : Bytes) :
    feedAndDo crates elf buffer data =
      ((feed crates.rcobsDecode decode buffer data).1, some (feed crates.rcobsDecode decode buffer data).2) := by
  induction data generalizing buffer with
  | nil => rfl
  | cons byte data ih =>
    have hevent : frameEvent crates elf buffer = some (frameOutcome crates.rcobsDecode decode buffer) := by
      rw [frameEvent, frameOutcome]
      cases crates.rcobsDecode buffer with
      | none => rfl
      | some message => cases h : decode message <;> simp [hdecode, h, Except.mapError]
    by_cases hzero : byte = 0
    · simp only [feedAndDo, feed, if_pos hzero, hevent, ih]
    · simp only [feedAndDo, feed, if_neg hzero, ih]

end

/-- **The stream resynchronises.** However the stream is cut into calls, the
    action gets the logs of its zero-ended segments that decode, in order, the
    first segment behind the initial buffer; the bytes after the last zero are
    left in the buffer; and the bytes between two zeros decide on one log at
    most, those before and behind it do not depend on them. -/
theorem stream_resynchronises (rcobsDecode : Bytes → Option Bytes) (decode : Bytes → Except Error Log)
    (buffer : Bytes) :
    (∀ chunks, actionLogs (feedCalls rcobsDecode decode buffer chunks).1 =
        (Segments.complete 0 buffer chunks.flatten).filterMap (segmentLog rcobsDecode decode) ∧
      (feedCalls rcobsDecode decode buffer chunks).2 = Segments.unfinished 0 buffer chunks.flatten) ∧
    ∀ before after segment, 0 ∉ segment → ∃ one : List Log, one.length ≤ 1 ∧
      ∀ chunks, chunks.flatten = before ++ segment ++ after →
        actionLogs (feedCalls rcobsDecode decode buffer chunks).1 =
          (Segments.complete 0 buffer before).filterMap (segmentLog rcobsDecode decode) ++ one ++
            ((Segments.complete 0 [] after).drop 1).filterMap (segmentLog rcobsDecode decode) := by
  constructor
  · intro chunks
    exact ⟨actionLogs_feedCalls buffer chunks, by rw [feedCalls_eq]⟩
  · intro before after segment hsegment
    obtain ⟨piece, hpiece, hcomplete⟩ := Segments.complete_middle buffer hsegment before after
    refine ⟨piece.filterMap (segmentLog rcobsDecode decode), ?_, fun chunks hchunks => ?_⟩
    · exact Nat.le_trans (List.length_filterMap_le ..) hpiece
    · rw [actionLogs_feedCalls, hchunks, hcomplete, List.filterMap_append, List.filterMap_append]

end Postform.Host
