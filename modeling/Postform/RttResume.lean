import Postform.RttAttach
import Postform.RttDelivery

/- Attaching to contexts that log. The host comes to a target that runs, in any mode
   and with any history, and sets blocking. Where it comes in the middle of a frame, or
   its decoder still holds something, the bytes up to the first zero are no message of
   the target: the decoder makes of them what it makes of any frame, which may be a
   panic (`tornEvents`). Behind them it calls the action on the logs of the calls that
   win, and of the calls that win after that it misses none (`attach_delivers`). -/
namespace Postform

open Wire Host Runs

variable {ι : Type} {p : Platform} {image : Image}

/-! A stream of frames that is entered somewhere. -/

/-- There are no bytes, or the last one is the zero of a frame. -/
def EndsFrame (bytes : Bytes) : Prop := ∀ byte ∈ bytes.getLast?, byte = 0

instance : DecidablePred EndsFrame := fun _ => inferInstanceAs (Decidable (∀ _ ∈ _, _))

theorem endsFrame_frame (e : Exchange ι p) (bytes : Bytes) : EndsFrame (e.frame ++ bytes) ↔ EndsFrame bytes := by
  unfold EndsFrame
  rcases List.eq_nil_or_concat bytes with rfl | ⟨front, last, rfl⟩
  · have hlast : e.frame.getLast? = some 0 := List.getLast?_concat ..
    rw [List.append_nil, hlast]
    simp
  · rw [List.concat_eq_append, ← List.append_assoc, List.getLast?_concat, List.getLast?_concat]

/-- **The cut.** Behind any position of the frames there is the end of one frame at
    most, and then whole frames. -/
theorem frames_drop : ∀ (won : List (Exchange ι p)) {position : Nat}, position ≤ (won.map Exchange.frame).flatten.length →
    ∃ lost kept tail, won = lost ++ kept ∧ (won.map Exchange.frame).flatten.drop position =
      tail ++ (kept.map Exchange.frame).flatten ∧
      (tail = [] ∧ EndsFrame ((won.map Exchange.frame).flatten.take position) ∨
        ¬EndsFrame ((won.map Exchange.frame).flatten.take position) ∧ ∃ garbage, 0 ∉ garbage ∧ tail = garbage ++ [0])
  | [], position, _ => ⟨[], [], [], rfl, by simp, .inl ⟨rfl, by simp [EndsFrame]⟩⟩
  | e :: won, position, h => by
    rw [List.map_cons, List.flatten_cons] at h ⊢
    rcases Nat.eq_zero_or_pos position with rfl | hpos
    · exact ⟨[], e :: won, [], rfl, by simp, .inl ⟨rfl, by simp [EndsFrame]⟩⟩
    rcases Nat.lt_or_ge position e.frame.length with hin | hout
    · -- inside the first frame
      let body := frameBody (vlogWrites e.timestamp e.arguments).flatten
      have hframe : e.frame = body ++ [0] := rfl
      have hbody : position ≤ body.length := by
        rw [hframe, List.length_append, List.length_singleton] at hin
        omega
      refine ⟨[e], won, body.drop position ++ [0], rfl, ?_, .inr ⟨fun hends => ?_, _, fun hmem => ?_, rfl⟩⟩
      · rw [List.drop_append_of_le_length (Nat.le_of_lt hin), hframe, List.drop_append_of_le_length hbody]
      · rw [List.take_append_of_le_length (Nat.le_of_lt hin), hframe, List.take_append_of_le_length hbody] at hends
        have hnonempty : body.take position ≠ [] := by
          rw [← List.length_pos_iff, List.length_take]
          omega
        have hlast := List.getLast_mem hnonempty
        rw [hends _ (List.getLast?_eq_some_getLast hnonempty)] at hlast
        exact frameBody_noZero _ (List.mem_of_mem_take hlast)
      · exact frameBody_noZero _ (List.mem_of_mem_drop hmem)
    · have hrest : position - e.frame.length ≤ (won.map Exchange.frame).flatten.length := by
        rw [List.length_append] at h
        omega
      obtain ⟨lost, kept, tail, hwon, hdrop, htail⟩ := frames_drop won hrest
      rw [List.take_append, List.take_of_length_le hout, endsFrame_frame]
      refine ⟨e :: lost, kept, tail, by rw [hwon, List.cons_append], ?_, htail⟩
      rw [List.drop_append, List.drop_of_length_le hout, List.nil_append, hdrop]

/-- The zeros in front of a cut are those of the frames that are lost, but for that of
the tail. -/
theorem count_cut {won lost kept : List (Exchange ι p)} {position : Nat} {tail : Bytes} (hwon : won = lost ++ kept)
    (hcut : (won.map Exchange.frame).flatten.drop position = tail ++ (kept.map Exchange.frame).flatten) :
    ((won.map Exchange.frame).flatten.take position).count 0 + tail.count 0 = lost.length := by
  have hlength : won.length = lost.length + kept.length := by rw [hwon, List.length_append]
  have htotal := count_frames won
  rw [← List.take_append_drop position (won.map Exchange.frame).flatten, List.count_append, hcut, List.count_append,
    count_frames] at htotal
  omega

section
variable (crates : Crates) (elf : ElfMetadata)

/-- The first event of a decoder that holds `held` and goes on with `bytes`; `none`
where it is a panic. -/
def joinedEvents (held bytes : Bytes) : Option (List Event) :=
  if 0 ∈ bytes then (frameEvent crates elf (held ++ bytes.takeWhile (· ≠ 0))).map fun event => [event] else some []

/-- What a decoder that holds `held` makes of the frame that it enters behind the bytes
`before`: nothing where it holds nothing and enters at the beginning of one. -/
def tornEvents (before held bytes : Bytes) : Option (List Event) :=
  if held = [] ∧ EndsFrame before then some [] else joinedEvents crates elf held bytes

end

/-- The number of the frames that it misses: those that are over, and the one that is
torn. -/
def missedFrames (before held : Bytes) : Nat := before.count 0 + if held = [] ∧ EndsFrame before then 0 else 1

section
variable {crates : Crates} (hcrates : crates.Documented)
include hcrates

/-- What comes behind a segment that was joined: the event of the segment, and the
logs of the frames behind it. -/
theorem feedAndDo_torn {elf : ElfMetadata} (held : Bytes) {body bytes : Bytes} (hzero : 0 ∉ body)
    (sent : List (Bytes × Log))
    (hsent : ∀ m ∈ sent, ¬EndsFull m.1 ∧ decode crates elf m.1 = .ok m.2)
    (hbytes : bytes <+: body ++ [0] ++ (sent.map fun m => frame m.1).flatten) : ∃ left,
      feedAndDo crates elf held bytes = (joinedEvents crates elf held bytes).elim ([], none) fun torn =>
        (torn ++ (sent.take (bytes.count 0 - 1)).map fun m => .action m.2, some left) := by
  unfold joinedEvents
  rcases prefix_frame hbytes with hbody | ⟨rest, rfl, hrest⟩
  · -- no zero has come yet
    have hnone : 0 ∉ bytes := fun hmem => hzero (hbody.subset hmem)
    have hfeed := feedAndDo_noZero crates elf hnone held []
    rw [List.append_nil] at hfeed
    refine ⟨held ++ bytes, ?_⟩
    rw [hfeed, if_neg hnone, List.count_eq_zero.mpr hnone]
    rfl
  · obtain ⟨left, hfeed⟩ := feedAndDo_prefix hcrates sent hsent hrest
    have hjoined : feedAndDo crates elf held (body ++ [0] ++ rest) = feedAndDo crates elf (held ++ body) (0 :: rest) := by
      rw [List.append_assoc, List.singleton_append, feedAndDo_noZero crates elf hzero]
    have hcount : (body ++ [0] ++ rest).count 0 - 1 = rest.count 0 := by
      rw [List.count_append, List.count_append, List.count_eq_zero.mpr hzero, List.count_singleton_self]
      omega
    have hsegment : (body ++ [0] ++ rest).takeWhile (· ≠ 0) = body := by
      have hbody : ∀ byte ∈ body, decide (byte ≠ 0) = true := by
        intro byte hmem
        exact decide_eq_true fun heq => hzero (heq ▸ hmem)
      rw [List.append_assoc, List.takeWhile_append_of_pos hbody]
      simp
    rw [if_pos (by simp), hsegment, hjoined, hcount, feedAndDo, if_pos rfl, hfeed]
    cases frameEvent crates elf (held ++ body) with
    | none => exact ⟨[], rfl⟩
    | some event => exact ⟨left, rfl⟩

/-- The beginning of a stream that begins with the end of a frame, on a decoder that
holds something: a first frame is joined to it where there is no such end. -/
theorem feedAndDo_cut {elf : ElfMetadata} {before : Bytes} (held : Bytes) {tail bytes : Bytes}
    (htail : tail = [] ∧ EndsFrame before ∨ ¬EndsFrame before ∧ ∃ garbage, 0 ∉ garbage ∧ tail = garbage ++ [0])
    (sent : List (Bytes × Log))
    (hsent : ∀ m ∈ sent, ¬EndsFull m.1 ∧ decode crates elf m.1 = .ok m.2)
    (hbytes : bytes <+: tail ++ (sent.map fun m => frame m.1).flatten) :
    ∃ j left, j ≤ (if held = [] then 0 else 1) ∧
      j + tail.count 0 = (if held = [] ∧ EndsFrame before then 0 else 1) ∧
      feedAndDo crates elf held bytes = (tornEvents crates elf before held bytes).elim ([], none) fun torn =>
        (torn ++ ((sent.drop j).take (bytes.count 0 - tail.count 0 - j)).map fun m => .action m.2, some left) := by
  rcases htail with ⟨rfl, hends⟩ | ⟨hends, garbage, hzero, rfl⟩
  · rw [List.nil_append] at hbytes
    by_cases hheld : held = []
    · subst hheld
      obtain ⟨left, hfeed⟩ := feedAndDo_prefix hcrates sent hsent hbytes
      rw [tornEvents, if_pos (And.intro rfl hends), if_pos (And.intro rfl hends)]
      exact ⟨0, left, Nat.le_refl _, rfl, hfeed⟩
    · have hjoins : ¬(held = [] ∧ EndsFrame before) := fun h => hheld h.1
      rw [tornEvents, if_neg hheld, if_neg hjoins, if_neg hjoins]
      cases sent with
      | nil =>
        rw [List.map_nil, List.flatten_nil, List.prefix_nil] at hbytes
        subst hbytes
        exact ⟨1, held, Nat.le_refl 1, rfl, rfl⟩
      | cons m sent =>
        obtain ⟨left, hfeed⟩ := feedAndDo_torn hcrates held (frameBody_noZero m.1) sent
          (fun m' hm => hsent m' (List.mem_cons_of_mem _ hm)) hbytes
        exact ⟨1, left, Nat.le_refl 1, rfl, hfeed⟩
  · obtain ⟨left, hfeed⟩ := feedAndDo_torn hcrates held hzero sent hsent hbytes
    have hcount : (garbage ++ [0]).count 0 = 1 := by
      rw [List.count_append, List.count_eq_zero.mpr hzero, List.count_singleton_self]
    have hjoins : ¬(held = [] ∧ EndsFrame before) := fun h => hends h.2
    rw [tornEvents, if_neg hjoins, if_neg hjoins, hcount]
    exact ⟨0, left, Nat.zero_le _, rfl, hfeed⟩

variable [DecidableEq ι]

/-- **What is printed in one state** of a beginning of what was sent behind the bytes
    `before`. `s` is a state before `t` in which these were already sent. -/
theorem System.Inv.resumed {elf : ElfMetadata} {logOf : Call p image → Log}
    (hlogs : ∀ (call : Call p image) timestamp,
      decode crates elf (vlogWrites timestamp call.arguments).flatten = .ok (logOf (call.at' timestamp)))
    {calls : ι → List (Call p image)} {s t : System ι p} (h : System.Inv (fun i => (calls i).map Call.arguments) t)
    (hwon : s.won <+: t.won) {before : Bytes} (hbefore : before <+: (s.won.map Exchange.frame).flatten)
    (held : Bytes) {bytes : Bytes} (hbytes : bytes <+: (SerialWriter.opBytes t.received).drop before.length) :
    let kept := t.won.drop (missedFrames before held)
    missedFrames before held ≤ s.won.length + (if held = [] then 0 else 1) ∧
    ∃ printed left, Delivered calls kept printed ∧
      (bytes = (SerialWriter.opBytes t.received).drop before.length →
        kept.length ≤ printed.length + 1 ∧ (t.taken = false → printed.map Prod.fst = kept)) ∧
      feedAndDo crates elf held bytes = (tornEvents crates elf before held bytes).elim ([], none) fun torn =>
        (torn ++ events logOf printed, some left) := by
  obtain ⟨more, hmore⟩ := hwon
  have hposition : before.length ≤ (s.won.map Exchange.frame).flatten.length := hbefore.length_le
  obtain ⟨lost, kept, tail, hsplit, hcut, htail⟩ := frames_drop s.won hposition
  rw [← List.prefix_iff_eq_take.mp hbefore] at htail
  obtain ⟨winners, hwinners, hdelivered⟩ := exists_delivered h.calls
  have hwinners : winners.map Prod.fst = t.won := hwinners
  have hdelivered : Delivered calls t.won winners := hdelivered
  have hlength : winners.length = t.won.length := by rw [← hwinners, List.length_map]
  have hkept : t.won = lost ++ (kept ++ more) := by rw [← hmore, hsplit, List.append_assoc]
  obtain ⟨hframes, hall, hfree⟩ := h.frames
  have hcutAll : (t.won.map Exchange.frame).flatten.drop before.length =
      tail ++ ((kept ++ more).map Exchange.frame).flatten := by
    rw [← hmore, List.map_append, List.flatten_append, List.drop_append_of_le_length hposition, hcut, List.map_append,
      List.flatten_append, List.append_assoc]
  let message (z : Exchange ι p × Call p image) : Bytes × Log :=
    ((vlogWrites z.1.timestamp z.1.arguments).flatten, logOf (z.2.at' z.1.timestamp))
  have hsent : ∀ m ∈ (winners.drop lost.length).map message, ¬EndsFull m.1 ∧ decode crates elf m.1 = .ok m.2 := by
    intro m hm
    obtain ⟨z, hz, rfl⟩ := List.mem_map.mp hm
    show ¬EndsFull (vlogWrites z.1.timestamp z.1.arguments).flatten ∧ decode _ _ (vlogWrites z.1.timestamp _).flatten = _
    rw [← hdelivered.arguments z (List.mem_of_mem_drop hz)]
    exact ⟨(decode_at hcrates z.2 z.1.timestamp).1, hlogs z.2 z.1.timestamp⟩
  -- the bytes are the beginning of the stream behind the cut
  have hstream : bytes <+: tail ++ (((winners.drop lost.length).map message).map fun m => frame m.1).flatten := by
    have hbehind : (winners.drop lost.length).map Prod.fst = kept ++ more := by
      rw [List.map_drop, hwinners, hkept, List.drop_left]
    have hmessages : (((winners.drop lost.length).map message).map fun m => frame m.1).flatten =
        ((kept ++ more).map Exchange.frame).flatten := by
      rw [← hbehind, List.map_map, List.map_map]
      rfl
    rw [hmessages, ← hcutAll]
    exact hbytes.trans (hframes.drop _)
  obtain ⟨j, left, hj, hjoins, hfeed⟩ := feedAndDo_cut hcrates held htail _ hsent hstream
  -- the zeros of `before` are those of the lost frames, but for that of the tail
  have hzeros := count_cut hkept hcutAll
  have htake : (t.won.map Exchange.frame).flatten.take before.length = before := by
    rw [← hmore, List.map_append, List.flatten_append, List.take_append_of_le_length hposition]
    exact (List.prefix_iff_eq_take.mp hbefore).symm
  have hmissed : missedFrames before held = lost.length + j := by
    rw [htake] at hzeros
    unfold missedFrames
    omega
  rw [hmissed]
  have hprinted := (hdelivered.drop hwinners (lost.length + j)).take (bytes.count 0 - tail.count 0 - j)
  refine ⟨?_, _, left, hprinted, fun hbytes => ?_, ?_⟩
  · have hlost : lost.length ≤ s.won.length := by
      rw [hsplit, List.length_append]
      omega
    exact Nat.add_le_add hlost hj
  · have hsentZeros : (SerialWriter.opBytes t.received).count 0 ≤
        ((t.won.map Exchange.frame).flatten.take before.length).count 0 + bytes.count 0 := by
      rw [hbytes, ← List.take_append_drop before.length (SerialWriter.opBytes t.received), List.count_append,
        List.take_append_drop]
      exact Nat.add_le_add_right ((hframes.take before.length).sublist.count_le 0) _
    have hmissing : (t.won.drop (lost.length + j)).length ≤ ((winners.drop (lost.length + j)).take
        (bytes.count 0 - tail.count 0 - j)).length + (t.won.length - (SerialWriter.opBytes t.received).count 0) := by
      rw [List.length_take, List.length_drop, List.length_drop, hlength]
      omega
    refine ⟨by omega, fun htaken => hprinted.won.eq_of_length_le ?_⟩
    rw [List.length_map]
    have := hfree htaken
    omega
  · have hevents : ((((winners.drop lost.length).map message).drop j).take (bytes.count 0 - tail.count 0 - j)).map
        (fun m => Event.action m.2) =
          events logOf ((winners.drop (lost.length + j)).take (bytes.count 0 - tail.count 0 - j)) := by
      rw [← List.map_drop, ← List.map_take, List.map_map, List.drop_drop]
      rfl
    rwa [hevents] at hfeed

end

/-! The system. -/

namespace RttSystem

variable [DecidableEq ι] {n : Rtt.RingSize} {start : Nat} {program : ι → List (List (Argument p))}

/-- In any mode: the logger's invariant, and the offsets on the ring. -/
structure Loose (n : Rtt.RingSize) (start : Nat) (program : ι → List (List (Argument p))) (s : RttSystem ι p) : Prop where
  logger : System.Inv program s.logger
  trail : ∃ written P, Rtt.Trail n start s.channel written P
  passed : s.channel.passed = SerialWriter.opBytes s.logger.received

theorem Loose.step {s t : RttSystem ι p} (h : Loose n start program s) {a : RttAction ι}
    (hstep : s.step n.size a = some t) : Loose n start program t := by
  obtain ⟨written, P, htrail⟩ := h.trail
  have hpassed := passed_step hstep h.passed
  rcases step_cases hstep with ⟨i, b, -, hlogger, -, ⟨hchannel, -⟩ | ⟨op, -, hcall⟩⟩ | ⟨hlogger, label, -, hchannel⟩
  · exact ⟨h.logger.step hlogger, ⟨written, P, hchannel ▸ htrail⟩, hpassed⟩
  · exact ⟨h.logger.step hlogger, htrail.step hcall, hpassed⟩
  · exact ⟨hlogger ▸ h.logger, htrail.step hchannel, hpassed⟩

theorem loose_always {buffer : Nat → UInt8} (hstart : start < n.size) {tr : Trace (RttAction ι) (RttSystem ι p)}
    (hrun : IsRun (Steps n.size) (initial buffer start program) tr) :
    Always (Loose n start program) (initial buffer start program) tr := by
  refine always_of_step (fun _ _ _ h hstep => h.step hstep) ?_ hrun
  exact ⟨System.inv_initial program, ⟨[], 0, Rtt.trail_initial _ hstart _⟩, rfl⟩

/-- From the state `s` on, in which the host attaches. -/
structure Attached (n : Rtt.RingSize) (program : ι → List (List (Argument p))) (s : RttSystem ι p) (before : Bytes)
    (t : RttSystem ι p) : Prop where
  logger : System.Inv program t.logger
  passed : t.channel.passed = SerialWriter.opBytes t.logger.received
  won : s.logger.won <+: t.logger.won
  queued : Rtt.Queued n s.channel before t.channel

theorem Attached.step {s t u : RttSystem ι p} {before : Bytes} (h : Attached n program s before t) {a : RttAction ι}
    (hmode : a ≠ .host (.setFlags .noBlockTrim)) (hstep : t.step n.size a = some u) : Attached n program s before u := by
  have hpassed := passed_step hstep h.passed
  rcases step_cases hstep with ⟨i, b, -, hlogger, -, hchannel⟩ | ⟨hlogger, label, hlabel, hchannel⟩
  · have hwon := h.won.trans (System.won_step hlogger)
    rcases hchannel with ⟨hquiet, -⟩ | ⟨op, -, hcall⟩
    · exact ⟨h.logger.step hlogger, hpassed, hwon, hquiet ▸ h.queued⟩
    · have hblocking : op.label ≠ .setFlags .noBlockTrim := by cases op <;> simp [TransportOp.label]
      exact ⟨h.logger.step hlogger, hpassed, hwon, h.queued.step hblocking hcall⟩
  · have hblocking : label ≠ .setFlags .noBlockTrim := by
      rcases hlabel with ⟨-, rfl⟩ | ⟨rfl, -⟩
      · simp
      · exact fun heq => hmode (heq ▸ rfl)
    exact ⟨hlogger ▸ h.logger, hpassed, hlogger ▸ h.won, h.queued.step hblocking hchannel⟩

theorem Loose.attached {s : RttSystem ι p} (h : Loose n start program s) (hattach : Rtt.Attachable n.size s.channel) :
    let before := s.channel.passed.take (Rtt.resumeFrom n.size s.channel)
    before.length = Rtt.resumeFrom n.size s.channel ∧ before <+: (s.logger.won.map Exchange.frame).flatten ∧
      Attached n program s before s := by
  obtain ⟨written, P, htrail⟩ := h.trail
  obtain ⟨before, hlength, hpassed, hqueued⟩ := htrail.queued hattach
  have hbefore : s.channel.passed.take (Rtt.resumeFrom n.size s.channel) = before := by
    rw [← hlength]
    exact (List.prefix_iff_eq_take.mp hpassed).symm
  simp only [hbefore]
  refine ⟨hlength, ?_, h.logger, h.passed, List.prefix_refl _, hqueued⟩
  rw [h.passed] at hpassed
  exact hpassed.trans h.logger.frames.1

end RttSystem

/-- **Attaching to contexts that log.** However the target ran before and in whatever
    modes: from any state that is `Attachable`, the decoder, whatever it still holds,
    makes of a frame that was torn what `frameEvent` makes of it, and behind that calls
    the action on the logs of the calls that win, in order, without the first
    `missedFrames` ones. Nothing is torn where it holds nothing and comes at the
    beginning of a frame. Those missed had won before, but for one at most where the
    decoder holds something. With all the bytes at most one of the others is missing,
    and none where no call is in progress. -/
theorem attach_delivers (crates : Crates) (hcrates : crates.Documented) (n : Rtt.RingSize) (p : Platform) (image : Image)
    {ι : Type} [DecidableEq ι] (calls : ι → List (Call p image)) (buffer : Nat → UInt8) (start : Nat)
    (hstart : start < n.size) (tr : Trace (RttAction ι) (RttSystem ι p))
    (hrun : IsRun (RttSystem.Steps n.size) (RttSystem.running buffer start calls) tr)
    (hattach : Rtt.Attachable n.size (final (RttSystem.running buffer start calls) tr).channel)
    (tr' : Trace (RttAction ι) (RttSystem ι p))
    (hrun' : IsRun (RttSystem.Steps n.size) (final (RttSystem.running buffer start calls) tr) tr')
    (hmode' : Along (fun _ a => a ≠ .host (.setFlags .noBlockTrim)) (final (RttSystem.running buffer start calls) tr)
      tr') :
    let s := final (RttSystem.running buffer start calls) tr
    Always (fun t => ∃ copied, t.channel.copied = s.channel.copied ++ copied ∧
      ∀ (held : Bytes) (chunks : List Bytes), chunks.flatten <+: copied →
        let before := s.channel.passed.take (Rtt.resumeFrom n.size s.channel)
        let kept := t.logger.won.drop (missedFrames before held)
        missedFrames before held ≤ s.logger.won.length + (if held = [] then 0 else 1) ∧
        ∃ printed left, Delivered calls kept printed ∧
          (chunks.flatten = t.channel.passed.drop (Rtt.resumeFrom n.size s.channel) →
            kept.length ≤ printed.length + 1 ∧ (t.logger.taken = false → printed.map Prod.fst = kept)) ∧
          feedAll crates image.elfMetadata held chunks =
            (tornEvents crates image.elfMetadata before held chunks.flatten).elim ([], none) fun torn =>
              (torn ++ logEvents printed, some left)) s tr' := by
  intro s
  have hloose : RttSystem.Loose n start _ s := always_final _ _ (RttSystem.loose_always hstart hrun)
  obtain ⟨hlength, hbefore, hbegin⟩ := hloose.attached hattach
  have hattached : Always (RttSystem.Attached n _ s _) s tr' :=
    always_of_along (fun _ _ _ h hstep ha => h.step ha hstep) hbegin hrun' hmode'
  apply hattached.imp
  intro t ht
  obtain ⟨copied, hcopied, hbegins⟩ := ht.queued.copied
  refine ⟨copied, hcopied, fun held chunks hchunks => ?_⟩
  rw [ht.passed] at hbegins
  have hprinted := ht.logger.resumed hcrates (fun call timestamp => (decode_at hcrates call timestamp).2) ht.won hbefore
    held (hchunks.trans hbegins)
  rw [hlength] at hprinted
  rw [feedAll_eq, ht.passed]
  exact hprinted

namespace Sample

/-- A log overruns a ring of two before the host attaches. -/
def overrun : List (RttAction Unit) :=
  [.host (.setFlags .noBlockTrim), .context () (.readTimestamp 5), .context () .exchange, .context () .proceed,
    .transport,
    .transport, .context () .proceed, .transport, .transport, .host (.setFlags .blockIfFull)]

/-- A byte more is written, the next one waits, and the host reads. -/
def resumed : List (RttAction Unit) :=
  [.context () .proceed, .transport, .transport, .transport, .context () .proceed, .transport, .transport, .transport,
    .host .hostLoad, .host .hostCopy, .host .hostStore]

end Sample

theorem attach_delivers_sample : ∃ s tr',
    Sample.overrun.foldlM (RttSystem.step 2) (RttSystem.running (fun _ => 0) 0 fun _ : Unit => [Sample.call]) = some s ∧
    follow (RttSystem.step 2) s Sample.resumed = some tr' ∧
    Always (fun t => ∃ copied, t.channel.copied = s.channel.copied ++ copied ∧
      ∀ (held : Bytes) (chunks : List Bytes), chunks.flatten <+: copied →
        let before := s.channel.passed.take (Rtt.resumeFrom 2 s.channel)
        let kept := t.logger.won.drop (missedFrames before held)
        missedFrames before held ≤ s.logger.won.length + (if held = [] then 0 else 1) ∧
        ∃ printed left, Delivered (fun _ => [Sample.call]) kept printed ∧
          (chunks.flatten = t.channel.passed.drop (Rtt.resumeFrom 2 s.channel) →
            kept.length ≤ printed.length + 1 ∧ (t.logger.taken = false → printed.map Prod.fst = kept)) ∧
          feedAll Crates.reference Sample.image.elfMetadata held chunks =
            (tornEvents Crates.reference Sample.image.elfMetadata before held chunks.flatten).elim ([], none) fun torn =>
              (torn ++ logEvents printed, some left)) s tr' := by
  obtain ⟨s, tr', hs, hattach, htr'⟩ : ∃ s tr',
      Sample.overrun.foldlM (RttSystem.step 2) (RttSystem.running (fun _ => 0) 0 fun _ : Unit => [Sample.call]) = some s ∧
      Rtt.Attachable 2 s.channel ∧ follow (RttSystem.step 2) s Sample.resumed = some tr' :=
    ⟨_, _, rfl, ⟨rfl, rfl, by decide, fun _ h => by cases h⟩, rfl⟩
  obtain ⟨tr, hrun, hfinal⟩ := exists_isRun Sample.overrun hs
  subst hfinal
  exact ⟨_, tr', hs, htr', attach_delivers Crates.reference Crates.reference_documented ⟨2, by decide, by decide⟩ _
    Sample.image (fun _ => [Sample.call]) (fun _ => 0) 0 (by decide) tr hrun hattach tr' (isRun_follow _ htr')
    (along_follow _ htr' (by decide))⟩

end Postform
