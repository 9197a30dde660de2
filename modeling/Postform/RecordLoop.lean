import Postform.Decoder
import Postform.FileWriter
import Postform.SerialDecoder

/- The record loop of `postform_persist`. It splits four bytes off the file, takes
   as many bytes as they say for one message, decodes it, and stops when nothing
   follows; the split and the slice panic where the file is too short.

   The loop hands over the whole records in front and panics at what is torn, the
   empty file included (`recordLoop_split`). So it reads back what `FileWriter`
   wrote, and tolerates no other file. -/
namespace Postform

open Wire

namespace Host

section
variable (decode : Bytes → Res Log)

/-- What is printed for a message; `none` where decoding panics. -/
def messageEvent (message : Bytes) : Option Event :=
  match decode message with
  | .ok log => some (.action log)
  | .error (.err error) => some (.println ("Error parsing log: ".toList ++ error.display))
  | .error .panic => none

/-- The loop of `main`: the messages handed to `decode`, each with what is
printed for it, and the bytes left where it ends; `none` where it panics. -/
def recordLoop (logData : Bytes) : List (Bytes × Option Event) × Option Bytes :=
  if logData.length < 4 then ([], none)
  else
    let size := Records.ofLeBytes (logData.take 4)
    let rest := logData.drop 4
    if rest.length < size then ([], none)
    else
      match messageEvent decode (rest.take size) with
      | none => ([(rest.take size, none)], none)
      | some event =>
        if logData.drop (4 + size) = [] then ([(rest.take size, some event)], some (logData.drop (4 + size)))
        else
          let (handed, left) := recordLoop (logData.drop (4 + size))
          ((rest.take size, some event) :: handed, left)
termination_by logData.length
decreasing_by
  rw [List.length_drop]
  omega

theorem recordLoop_eq (logData : Bytes) : recordLoop decode logData =
    match Records.readRecord 4 logData with
    | none => ([], none)
    | some (message, rest) =>
      match messageEvent decode message with
      | none => ([(message, none)], none)
      | some event =>
        if rest = [] then ([(message, some event)], some [])
        else ((message, some event) :: (recordLoop decode rest).1, (recordLoop decode rest).2) := by
  rw [recordLoop, Records.readRecord]
  by_cases hshort : logData.length < 4
  · rw [if_pos hshort, if_pos (.inl hshort)]
  by_cases hsize : (logData.drop 4).length < Records.ofLeBytes (logData.take 4)
  · rw [if_neg hshort, if_pos hsize, if_pos (.inr hsize)]
  rw [if_neg hshort, if_neg hsize, if_neg (by rw [not_or]; exact ⟨hshort, hsize⟩)]
  simp only [List.drop_drop]
  split
  · rfl
  · split
    next hnil => rw [hnil]
    · rfl

end

section
variable {decode : Bytes → Except Error Log}

/-- What is printed for a message where `decode` does not panic. -/
def messagePrint (decode : Bytes → Except Error Log) (message : Bytes) : Event :=
  match decode message with
  | .ok log => .action log
  | .error error => .println ("Error parsing log: ".toList ++ error.display)

theorem messageEvent_total (message : Bytes) :
    messageEvent (fun message => (decode message).mapError .err) message = some (messagePrint decode message) := by
  rw [messageEvent, messagePrint]
  cases decode message <;> rfl

/-- **The loop by the records** of the file: one message a record, and it ends
    only behind a last record with nothing torn. -/
theorem recordLoop_split {logData torn : Bytes} {messages : List Bytes}
    (h : Records.Splits 4 logData messages torn) :
    recordLoop (fun message => (decode message).mapError .err) logData =
      (messages.map fun message => (message, some (messagePrint decode message)),
        if messages ≠ [] ∧ torn = [] then some [] else none) := by
  induction messages generalizing logData with
  | nil =>
    have htorn : Records.readRecord 4 logData = none := by
      rw [h.eq]
      exact h.torn
    rw [recordLoop_eq, htorn]
    rfl
  | cons message rest ih =>
    have hsize := h.sizes message List.mem_cons_self
    have heq : logData = Records.record 4 message ++ (rest.flatMap (Records.record 4) ++ torn) := by
      rw [h.eq, List.flatMap_cons, List.append_assoc]
    rw [heq] at h
    obtain ⟨rest', hrest, htail⟩ := (Records.splits_record_iff hsize).mp h
    cases hrest
    rw [recordLoop_eq, heq, Records.readRecord_record hsize]
    simp only [messageEvent_total, List.map_cons]
    by_cases hnil : rest.flatMap (Records.record 4) ++ torn = []
    · -- the last record, and nothing behind it
      obtain ⟨hrest, htorn⟩ := List.append_eq_nil_iff.mp hnil
      have hlast : rest = [] := by
        cases rest with
        | nil => rfl
        | cons => simp [Records.record, Records.leBytes] at hrest
      rw [if_pos hnil, hlast, htorn]
      rfl
    · rw [if_neg hnil, ih htail]
      have hmore : rest ≠ [] ∧ torn = [] ↔ message :: rest ≠ [] ∧ torn = [] := by
        constructor
        · exact fun hand => ⟨List.cons_ne_nil _ _, hand.2⟩
        · intro hand
          refine ⟨fun hrest => hnil ?_, hand.2⟩
          rw [hrest, hand.2]
          rfl
      simp only [hmore]

theorem recordLoop_congr {decode decode' : Bytes → Res Log} {logData torn : Bytes} {messages : List Bytes}
    (h : Records.Splits 4 logData messages torn)
    (hsame : ∀ message ∈ messages, messageEvent decode message = messageEvent decode' message) :
    recordLoop decode logData = recordLoop decode' logData := by
  induction messages generalizing logData with
  | nil =>
    have htorn : Records.readRecord 4 logData = none := by
      rw [h.eq]
      exact h.torn
    rw [recordLoop_eq, recordLoop_eq decode', htorn]
  | cons message rest ih =>
    have hsize := h.sizes message List.mem_cons_self
    have heq : logData = Records.record 4 message ++ (rest.flatMap (Records.record 4) ++ torn) := by
      rw [h.eq, List.flatMap_cons, List.append_assoc]
    rw [heq] at h ⊢
    obtain ⟨rest', hrest, htail⟩ := (Records.splits_record_iff hsize).mp h
    cases hrest
    rw [recordLoop_eq, recordLoop_eq decode', Records.readRecord_record hsize]
    simp only [hsame message List.mem_cons_self, ih htail fun m hm => hsame m (List.mem_cons_of_mem _ hm)]

theorem recordLoop_events {decode : Bytes → Res Log} {logData torn : Bytes} {messages : List Bytes}
    (h : Records.Splits 4 logData messages torn) (hevents : ∀ message ∈ messages, messageEvent decode message ≠ none) :
    recordLoop decode logData = (messages.map fun message => (message, messageEvent decode message),
      if messages ≠ [] ∧ torn = [] then some [] else none) := by
  let total (message : Bytes) : Except Error Log :=
    match decode message with
    | .ok log => .ok log
    | .error (.err error) => .error error
    | .error .panic => .error .invalidLogMessage
  have hsame : ∀ message ∈ messages, messageEvent decode message = some (messagePrint total message) := by
    intro message hmessage
    have hevent := hevents message hmessage
    unfold messageEvent messagePrint at *
    simp only [total]
    cases hdecode : decode message with
    | ok log => rfl
    | error exit =>
      cases exit with
      | err error => rfl
      | panic => simp [hdecode] at hevent
  have hcongr := recordLoop_congr h fun message hmessage =>
    (hsame message hmessage).trans (messageEvent_total message).symm
  rw [hcongr, recordLoop_split h]
  congr 1
  apply List.map_congr_left
  intro message hmessage
  rw [hsame message hmessage]

/-- The loop ends without a panic, with the whole records in front of what is
torn handed to `decode`. -/
def ToleratesFile (decode : Bytes → Except Error Log) (logData : Bytes) : Prop :=
  ∃ handed left, recordLoop (fun message => (decode message).mapError .err) logData = (handed, some left) ∧
    ∀ messages torn, Records.Splits 4 logData messages torn → handed.map Prod.fst = messages

end

/-- **The file round trip.** The loop hands over the messages of a file that
    writers on a little-endian machine wrote, each once and in order, and ends
    with nothing left. -/
theorem record_loop_round_trip {L : Type} (logger : L) (fd : Int) (decode : Bytes → Except Error Log)
    (messages : List (List Bytes)) (hne : messages ≠ []) (hsizes : ∀ writes ∈ messages, writes.flatten.length < 2 ^ 32)
    (logData : Bytes) (hfile : logData = messages.flatMap (FileWriter.recordBytes .little logger fd)) :
    recordLoop (fun message => (decode message).mapError .err) logData =
      (messages.map fun writes => (writes.flatten, some (messagePrint decode writes.flatten)), some []) := by
  have hsplit : Records.Splits 4 logData (messages.map List.flatten) [] := by
    refine ⟨?_, ?_, rfl⟩
    · rw [hfile, List.append_nil, List.flatMap_map]
      exact List.flatMap_congr fun writes hmem => FileWriter.recordBytes_little logger fd (hsizes writes hmem)
    · intro message hmem
      obtain ⟨writes, hwrites, rfl⟩ := List.mem_map.mp hmem
      exact hsizes writes hwrites
  rw [recordLoop_split hsplit, List.map_map, if_pos ⟨by simpa using hne, rfl⟩]
  rfl

theorem record_loop_round_trip_two :
    recordLoop (fun _ => .error (.err .invalidLogMessage)) [3, 0, 0, 0, 1, 2, 0, 0, 0, 0, 0] =
      ([([1, 2, 0], some (messagePrint (fun _ => .error .invalidLogMessage) [1, 2, 0])),
        ([], some (messagePrint (fun _ => .error .invalidLogMessage) []))], some []) :=
  record_loop_round_trip () 3 (fun _ => .error .invalidLogMessage) [[[1], [2, 0]], []] (by decide) (by decide)
    [3, 0, 0, 0, 1, 2, 0, 0, 0, 0, 0] (by decide)

/-- **The loop tolerates** exactly the files that are one whole record or more
    and nothing else. -/
theorem tolerates_file_iff (decode : Bytes → Except Error Log) (logData : Bytes) :
    ToleratesFile decode logData ↔ ∃ messages : List Bytes, messages ≠ [] ∧
      (∀ message ∈ messages, message.length < 2 ^ 32) ∧ logData = messages.flatMap (Records.record 4) := by
  constructor
  · intro h
    obtain ⟨handed, left, hloop, -⟩ := h
    obtain ⟨messages, torn, hsplit⟩ := Records.exists_splits (k := 4) (by decide) logData
    rw [recordLoop_split hsplit, Prod.mk.injEq] at hloop
    split at hloop
    · next hwhole =>
      refine ⟨messages, hwhole.1, hsplit.sizes, ?_⟩
      rw [hsplit.eq, hwhole.2, List.append_nil]
    · cases hloop.2
  · intro h
    obtain ⟨messages, hne, hsizes, heq⟩ := h
    have hsplit : Records.Splits 4 logData messages [] := ⟨by rw [heq, List.append_nil], hsizes, rfl⟩
    refine ⟨_, [], by rw [recordLoop_split hsplit, if_pos ⟨hne, rfl⟩], fun messages' torn' hsplit' => ?_⟩
    rw [(hsplit'.unique hsplit).1, List.map_map]
    exact List.map_id _

theorem empty_file_panics : ¬∀ (decode : Bytes → Except Error Log) (logData : Bytes), ToleratesFile decode logData := by
  intro h
  obtain ⟨handed, left, hloop, -⟩ := h (fun _ => .error .invalidLogMessage) []
  rw [recordLoop_eq] at hloop
  cases hloop

end Host

end Postform
