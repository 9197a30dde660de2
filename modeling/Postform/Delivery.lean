import Postform.ContextsLock
import Postform.Lib.Shuffle
import Postform.RoundTrip

/- What the host prints of the calls that many contexts make at once. The contexts
   of `Contexts` execute log macros; the host has got some of the bytes that the
   transport was given, in any number of reads. The bytes are the beginning of the
   frames of the calls that won the writer, so the host has printed the logs of the
   first of these, in order, and holds back what it has of the next.

   Which call a log belongs to is read off the history of the exchanges: the
   exchanges of a context are its calls in order (`Shuffle.exists_matching`). -/
namespace Postform

open Wire Host

/-! A program with one macro. -/

namespace Sample

def site : CallSite := ⟨.logInfo, "a.c".toList, 7, "n=%hhd %%".toList, by decide, by decide, by decide⟩

/-- Its image, with a string of another object in front. -/
def image : Image := ⟨fun mode => match mode with
  | .debug => [100, 0]
  | .info => Utf8.encode site.internedString ++ [0]
  | _ => [], 1000⟩

def call : Call ⟨true, true, true⟩ image where
  site := site
  mLevel := .info
  passes := by decide
  address := 2
  interned := ⟨[], [], rfl, rfl⟩
  timestamp := 77
  args := [(.integral .schar (-5) (by decide), "-5".toList)]
  few := by decide
  accepted := by decide
  prints := .cons (.integral rfl (.inl ⟨.hh, rfl⟩)) .nil

end Sample

variable {p : Platform} {image : Image}

/-! A call of a context. -/

namespace Call

/-- The arguments that reach `vlog`. -/
def arguments (call : Call p image) : List (Argument p) :=
  (Postform.log call.mLevel call.site.logMacro.level
    (.internedString call.address :: call.args.map Prod.fst)).getD []

/-- The call, with the timestamp it reads. -/
def at' (call : Call p image) (timestamp : BitVec 64) : Call p image := { call with timestamp := timestamp }

end Call

theorem vlogOps_inj {timestamp : BitVec 64} {arguments arguments' : List (Argument p)}
    (h : vlogOps timestamp arguments = vlogOps timestamp arguments') :
    vlogWrites timestamp arguments = vlogWrites timestamp arguments' := by
  have htail := (List.cons.inj h).2
  have hwrites := List.append_cancel_right htail
  refine List.map_injective_iff.mpr ?_ hwrites
  intro data data' heq
  cases heq
  rfl

theorem count_frame (message : Bytes) : (frame message).count 0 = 1 := by
  rw [frame, List.count_append, List.count_eq_zero.mpr (frameBody_noZero message), List.count_singleton_self]

section
variable {crates : Crates} (hcrates : crates.Documented)
include hcrates

theorem decode_at (call : Call p image) (timestamp : BitVec 64) :
    ¬EndsFull (vlogWrites timestamp call.arguments).flatten ∧
      decode crates image.elfMetadata (vlogWrites timestamp call.arguments).flatten =
        .ok (call.at' timestamp).hostLog := by
  obtain ⟨arguments, hops, hfew, hdecode⟩ := decode_call hcrates (call.at' timestamp)
  have hops : (call.at' timestamp).ops = vlogOps timestamp arguments := hops
  have hwrites : vlogWrites timestamp call.arguments = vlogWrites timestamp arguments := by
    apply vlogOps_inj
    rw [← hops]
    unfold Call.ops Call.arguments Call.at'
    cases hlog : Postform.log call.mLevel call.site.logMacro.level
        (.internedString call.address :: call.args.map Prod.fst) with
    | some arguments' => rfl
    | none =>
      -- then nothing would have been sent
      unfold Call.ops Call.at' at hops
      simp only [hlog] at hops
      cases hops
  rw [hwrites]
  exact ⟨not_endsFull timestamp (by omega), hdecode⟩

theorem Call.arguments_cons (call : Call p image) : ∃ rest, call.arguments = .internedString call.address :: rest := by
  obtain ⟨arguments, hops, -, -⟩ := decode_call hcrates call
  unfold Call.ops at hops
  unfold Call.arguments
  cases hlog : Postform.log call.mLevel call.site.logMacro.level
      (.internedString call.address :: call.args.map Prod.fst) with
  | none =>
    simp only [hlog] at hops
    cases hops
  | some arguments' =>
    rw [Postform.log, if_neg (Nat.not_lt.mpr call.passes)] at hlog
    obtain ⟨x, rest, hx, -, rfl⟩ := buildArgs_cons_some hlog
    cases hx
    exact ⟨rest, rfl⟩

omit hcrates in
theorem prefix_frame {body rest bytes : Bytes} (h : bytes <+: body ++ [0] ++ rest) :
    bytes <+: body ∨ ∃ more, bytes = body ++ [0] ++ more ∧ more <+: rest := by
  rcases Nat.lt_or_ge bytes.length (body ++ [0]).length with hshort | hlong
  · left
    have hframe := List.prefix_of_prefix_length_le h (List.prefix_append _ _) (Nat.le_of_lt hshort)
    apply List.prefix_of_prefix_length_le hframe (List.prefix_append _ _)
    rw [List.length_append, List.length_singleton] at hshort
    omega
  · right
    obtain ⟨more, rfl⟩ := List.prefix_of_prefix_length_le (List.prefix_append _ _) h hlong
    rw [List.prefix_append_right_inj] at h
    exact ⟨more, rfl, h⟩

/-- **The beginning of a stream of frames** is fed as the logs of the frames that
    are whole. -/
theorem feedAndDo_prefix {elf : ElfMetadata} : ∀ (sent : List (Bytes × Log)),
    (∀ m ∈ sent, ¬EndsFull m.1 ∧ decode crates elf m.1 = .ok m.2) → ∀ {bytes : Bytes},
    bytes <+: (sent.map fun m => frame m.1).flatten → ∃ left, feedAndDo crates elf [] bytes =
      (((sent.take (bytes.count 0)).map fun m => .action m.2), some left)
  | [], _, bytes, h => by
    rw [List.map_nil, List.flatten_nil, List.prefix_nil] at h
    subst h
    exact ⟨[], rfl⟩
  | (message, log) :: sent, hsent, bytes, h => by
    obtain ⟨hfull, hdecode⟩ : ¬EndsFull message ∧ decode crates elf message = .ok log := hsent _ List.mem_cons_self
    have h : bytes <+: frameBody message ++ [0] ++ (sent.map fun m => frame m.1).flatten := h
    rcases prefix_frame h with hbody | ⟨rest, rfl, hrest⟩
    · -- the frame is not whole: no zero yet
      have hzero : (0 : UInt8) ∉ bytes := fun hmem => frameBody_noZero message (hbody.subset hmem)
      have hfeed := feedAndDo_noZero crates elf hzero [] []
      rw [List.append_nil, List.nil_append] at hfeed
      exact ⟨bytes, by rw [hfeed, List.count_eq_zero.mpr hzero]; rfl⟩
    · obtain ⟨left, hfeed⟩ := feedAndDo_prefix sent (fun m hm => hsent m (List.mem_cons_of_mem _ hm)) hrest
      have hframe : frameBody message ++ [0] ++ rest = frame message ++ rest := rfl
      refine ⟨left, ?_⟩
      rw [hframe, feedAndDo_frame crates elf hcrates hfull hdecode, hfeed, List.count_append, count_frame,
        Nat.add_comm 1, List.take_succ_cons, List.map_cons]

end

/-! Contexts that execute macros. -/

variable {ι : Type} [DecidableEq ι]

/-- The contexts, each with the macros it executes. -/
abbrev System.running (calls : ι → List (Call p image)) : System ι p :=
  System.initial fun i => (calls i).map Call.arguments

/-- The printed calls are the first that won, each with the exchange it made, and
those of a context are in its order. -/
structure Delivered (calls : ι → List (Call p image)) (won : List (Exchange ι p))
    (printed : List (Exchange ι p × Call p image)) : Prop where
  won : printed.map Prod.fst <+: won
  arguments : ∀ z ∈ printed, z.2.arguments = z.1.arguments
  ordered : ∀ i, (Shuffle.ofKey Exchange.context i printed).Sublist (calls i)

/-- The events of printed calls, each with the log that `logOf` makes of it. -/
def events (logOf : Call p image → Log) (printed : List (Exchange ι p × Call p image)) : List Event :=
  printed.map fun z => .action (logOf (z.2.at' z.1.timestamp))

/-- Their own logs. -/
def logEvents (printed : List (Exchange ι p × Call p image)) : List Event := events Call.hostLog printed

/-- **The calls that won**: a history in which the exchanges of each context are its
    calls in order has a call for each. -/
theorem exists_delivered {calls : ι → List (Call p image)} {exchanges : List (Exchange ι p)}
    {pending : ι → List (List (Argument p))} (h : ∀ i, (exchanges.filter fun e => e.context = i).map Exchange.arguments ++
      pending i = (calls i).map Call.arguments) :
    ∃ winners, winners.map Prod.fst = (exchanges.filter fun e => !e.found) ∧
      Delivered calls (exchanges.filter fun e => !e.found) winners := by
  obtain ⟨matched, hentries, hmatch, hordered⟩ :=
    Shuffle.exists_matching Exchange.context Exchange.arguments Call.arguments exchanges calls fun i => ⟨_, h i⟩
  have hwon : (matched.filter fun z => !z.1.found).map Prod.fst = exchanges.filter fun e => !e.found := by
    rw [← hentries, List.filter_map]
    rfl
  refine ⟨matched.filter fun z => !z.1.found, hwon, ?_, fun z hz => hmatch z (List.mem_of_mem_filter hz), fun i => ?_⟩
  · rw [hwon]
  · exact (Shuffle.ofKey_sublist List.filter_sublist i).trans (hordered i).sublist

theorem Delivered.take {calls : ι → List (Call p image)} {won : List (Exchange ι p)}
    {printed : List (Exchange ι p × Call p image)} (h : Delivered calls won printed) (n : Nat) :
    Delivered calls won (printed.take n) where
  won := by
    rw [List.map_take]
    exact (List.take_prefix _ _).trans h.won
  arguments := fun z hz => h.arguments z (List.mem_of_mem_take hz)
  ordered := fun i => (Shuffle.ofKey_sublist (List.take_sublist _ _) i).trans (h.ordered i)

theorem Delivered.drop {calls : ι → List (Call p image)} {won : List (Exchange ι p)}
    {printed : List (Exchange ι p × Call p image)} (h : Delivered calls won printed) (hall : printed.map Prod.fst = won)
    (n : Nat) : Delivered calls (won.drop n) (printed.drop n) where
  won := by rw [List.map_drop, hall]
  arguments := fun z hz => h.arguments z (List.mem_of_mem_drop hz)
  ordered := fun i => (Shuffle.ofKey_sublist (List.drop_sublist _ _) i).trans (h.ordered i)

omit [DecidableEq ι] in
theorem count_frames (won : List (Exchange ι p)) : (won.map Exchange.frame).flatten.count 0 = won.length := by
  induction won with
  | nil => rfl
  | cons e won ih =>
    have hone : e.frame.count 0 = 1 := count_frame _
    rw [List.map_cons, List.flatten_cons, List.count_append, ih, hone, List.length_cons, Nat.add_comm]

/-- What the transport has: frames of the calls that won, the last perhaps begun
only. -/
theorem System.Inv.frames {program : ι → List (List (Argument p))} {s : System ι p} (h : System.Inv program s) :
    SerialWriter.opBytes s.received <+: (s.won.map Exchange.frame).flatten ∧
      s.won.length ≤ (SerialWriter.opBytes s.received).count 0 + 1 ∧
      (s.taken = false → (SerialWriter.opBytes s.received).count 0 = s.won.length) := by
  cases htaken : s.taken with
  | false =>
    have hbytes := h.free htaken
    rw [hbytes, count_frames]
    exact ⟨List.prefix_refl _, Nat.le_succ _, fun _ => rfl⟩
  | true =>
    obtain ⟨complete, hcase⟩ := (System.separated_of_inv h).frames
    rcases hcase with ⟨hwon, hbytes⟩ | ⟨e, sent, hwon, -, hsent, hbytes⟩
    · rw [hbytes, hwon, count_frames]
      exact ⟨List.prefix_refl _, Nat.le_succ _, fun hf => (nomatch hf)⟩
    · rw [hbytes, hwon, List.count_append, count_frames]
      refine ⟨?_, ?_, fun hf => (nomatch hf)⟩
      · rw [List.map_append, List.flatten_append, List.prefix_append_right_inj]
        simpa using hsent
      · rw [List.length_append, List.length_singleton]
        omega

section
variable {crates : Crates} (hcrates : crates.Documented)
include hcrates

/-- **One state**: whatever beginning of the bytes the host has, it has printed the
    first of the calls that won, and with all of them at most one is missing. `elf` may
    be any metadata with which the calls decode. -/
theorem System.Inv.delivered {elf : ElfMetadata} {logOf : Call p image → Log}
    (hlogs : ∀ (call : Call p image) timestamp,
      decode crates elf (vlogWrites timestamp call.arguments).flatten = .ok (logOf (call.at' timestamp)))
    {calls : ι → List (Call p image)} {s : System ι p} (h : System.Inv (fun i => (calls i).map Call.arguments) s)
    {bytes : Bytes} (hbytes : bytes <+: SerialWriter.opBytes s.received) :
    ∃ printed left, Delivered calls s.won printed ∧ feedAndDo crates elf [] bytes = (events logOf printed, some left) ∧
      (bytes = SerialWriter.opBytes s.received → s.won.length ≤ printed.length + 1 ∧
        (s.taken = false → printed.map Prod.fst = s.won)) := by
  obtain ⟨winners, hwinners, hdelivered⟩ := exists_delivered h.calls
  have hwinners : winners.map Prod.fst = s.won := hwinners
  have hdelivered : Delivered calls s.won winners := hdelivered
  obtain ⟨hbegins, hmissing, hfree⟩ := h.frames
  let sent : List (Bytes × Log) := winners.map fun z =>
    ((vlogWrites z.1.timestamp z.1.arguments).flatten, logOf (z.2.at' z.1.timestamp))
  have hsent : ∀ m ∈ sent, ¬EndsFull m.1 ∧ decode crates elf m.1 = .ok m.2 := by
    intro m hm
    obtain ⟨z, hz, rfl⟩ := List.mem_map.mp hm
    rw [← hdelivered.arguments z hz]
    exact ⟨(decode_at hcrates z.2 z.1.timestamp).1, hlogs z.2 z.1.timestamp⟩
  have hframes : (sent.map fun m => frame m.1).flatten = (s.won.map Exchange.frame).flatten := by
    rw [← hwinners, List.map_map, List.map_map]
    rfl
  obtain ⟨left, hfeed⟩ := feedAndDo_prefix hcrates sent hsent (hframes ▸ hbytes.trans hbegins)
  have hlength : (winners.take (bytes.count 0)).length = min (bytes.count 0) s.won.length := by
    rw [List.length_take, ← hwinners, List.length_map]
  refine ⟨winners.take (bytes.count 0), left, hdelivered.take _, ?_, fun hall => ?_⟩
  · rw [hfeed, List.map_take, List.map_map]
    show (((winners.map _).take _), _) = (((winners.take _).map _), _)
    rw [List.map_take]
    rfl
  · rw [← hall] at hmissing hfree
    refine ⟨by omega, fun htaken => ?_⟩
    apply (hdelivered.take _).won.eq_of_length_le
    rw [List.length_map, hlength, hfree htaken, Nat.min_self]

end

theorem System.inv_always {program : ι → List (List (Argument p))} {tr : Runs.Trace (ι × Action) (System ι p)}
    (hrun : Runs.IsRun (fun s a t => System.step s a = some t) (System.initial program) tr) :
    Runs.Always (System.Inv program) (System.initial program) tr :=
  Runs.always_of_step (fun _ _ _ h hstep => h.step hstep) (System.inv_initial program) hrun

/-- **Delivery.** Contexts execute log macros on one `SerialLogger`, interrupting
    each other anywhere. Whenever the host has got a beginning of what the transport
    was given, in whatever reads, it has called the action on the logs of the first
    calls that found the flag clear and on nothing else: each log once, with the
    timestamp its call read, those of a context in its order. With all the bytes at
    most one call is missing, and none where no call is in progress. -/
theorem contexts_deliver (crates : Crates) (hcrates : crates.Documented) (p : Platform) (image : Image) {ι : Type}
    [DecidableEq ι] (calls : ι → List (Call p image)) (tr : Runs.Trace (ι × Action) (System ι p))
    (hrun : Runs.IsRun (fun s a t => System.step s a = some t) (System.running calls) tr) :
    Runs.Always (fun s => ∀ chunks : List Bytes, chunks.flatten <+: SerialWriter.opBytes s.received →
      ∃ printed left, Delivered calls s.won printed ∧
        feedAll crates image.elfMetadata [] chunks = (logEvents printed, some left) ∧
        (chunks.flatten = SerialWriter.opBytes s.received → s.won.length ≤ printed.length + 1 ∧
          (s.taken = false → printed.map Prod.fst = s.won))) (System.running calls) tr := by
  apply (System.inv_always hrun).imp
  intro s h chunks hchunks
  rw [feedAll_eq]
  exact h.delivered hcrates (fun call timestamp => (decode_at hcrates call timestamp).2) hchunks

theorem contexts_deliver_sample : ∃ tr,
    Runs.follow System.step (System.running fun _ : Bool => [Sample.call])
      [(true, .readTimestamp 5), (true, .exchange), (true, .proceed), (false, .readTimestamp 6), (false, .exchange),
        (false, .proceed), (true, .proceed)] = some tr ∧
    Runs.Always (fun s => ∀ chunks : List Bytes, chunks.flatten <+: SerialWriter.opBytes s.received →
      ∃ printed left, Delivered (fun _ => [Sample.call]) s.won printed ∧
        feedAll Crates.reference Sample.image.elfMetadata [] chunks = (logEvents printed, some left) ∧
        (chunks.flatten = SerialWriter.opBytes s.received → s.won.length ≤ printed.length + 1 ∧
          (s.taken = false → printed.map Prod.fst = s.won))) (System.running fun _ => [Sample.call]) tr := by
  obtain ⟨tr, htr⟩ : ∃ tr, Runs.follow System.step (System.running fun _ : Bool => [Sample.call])
      [(true, .readTimestamp 5), (true, .exchange), (true, .proceed), (false, .readTimestamp 6), (false, .exchange),
        (false, .proceed), (true, .proceed)] = some tr := ⟨_, rfl⟩
  exact ⟨tr, htr, contexts_deliver Crates.reference Crates.reference_documented _ Sample.image _ tr
    (Runs.isRun_follow _ htr)⟩

end Postform
