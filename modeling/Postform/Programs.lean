import Postform.Delivery
import Postform.ElfFile
import Postform.FileContexts

/- The host's programs. `postform_serial` and `postform_persist` read the ELF file
   first and give up where that fails; the one then feeds what it reads from the
   port to the decoder, for as long as reading works, and the other runs the
   record loop over the log file.

   With the target's side of `Delivery` and `FileContexts` they make the two paths
   whole: contexts execute log macros, the image is linked and loaded, and what the
   program prints are the logs of the calls that won (`serial_program`,
   `persist_program`). -/
namespace Postform

open Wire Host

namespace Host

/-- Where a `main` is after its input so far, or how it ended. -/
inductive Outcome where
  | reading (rcobsMsgBuffer : Bytes)
  | returned
  | loadError (error : LoadError)
  | ioError
  | panicked
  deriving DecidableEq, Repr

/-- The end of `main` where `from_elf_file` has no result. -/
def LoadExit.outcome : LoadExit → Outcome
  | .err error => .loadError error
  | .panic => .panicked

/-- What `port.read` gives. -/
inductive PortRead where
  | count (data : Bytes)
  | timedOut
  | failed
  deriving DecidableEq, Repr

section
variable (crates : Crates) (elf : ElfMetadata)

/-- The loop of `postform_serial` over the reads so far. -/
def serialLoop : Bytes → List PortRead → List Event × Outcome
  | rcobsMsgBuffer, [] => ([], .reading rcobsMsgBuffer)
  | rcobsMsgBuffer, .timedOut :: reads => serialLoop rcobsMsgBuffer reads
  | _, .failed :: _ => ([], .ioError)
  | rcobsMsgBuffer, .count data :: reads =>
    if 0 < data.length then
      match feedAndDo crates elf rcobsMsgBuffer data with
      | (events, none) => (events, .panicked)
      | (events, some rcobsMsgBuffer) =>
        let (more, outcome) := serialLoop rcobsMsgBuffer reads
        (events ++ more, outcome)
    else serialLoop rcobsMsgBuffer reads

end

/-- `main` of `postform_serial`, without its options; `port` is `none` where the port
does not open. -/
def serialMain (crates : Crates) (hostVersion : Str) (opened : Except LoadError ElfFile) (disableVersionCheck : Bool)
    (port : Option (List PortRead)) : List Event × Outcome :=
  match fromElfFile hostVersion opened disableVersionCheck with
  | .error exit => ([], exit.outcome)
  | .ok elf =>
    match port with
    | none => ([], .ioError)
    | some reads => serialLoop crates elf [] reads

/-- `main` of `postform_persist`, without its options; `logFile` is `none` where the
file cannot be read. -/
def persistMain (crates : Crates) (hostVersion : Str) (opened : Except LoadError ElfFile) (disableVersionCheck : Bool)
    (logFile : Option Bytes) : List Event × Outcome :=
  match fromElfFile hostVersion opened disableVersionCheck with
  | .error exit => ([], exit.outcome)
  | .ok elf =>
    match logFile with
    | none => ([], .ioError)
    | some logData =>
      let (handed, left) := recordLoop (decode crates elf) logData
      (handed.filterMap Prod.snd, if left.isSome then .returned else .panicked)

/-- The bytes of a read. -/
def PortRead.data : PortRead → Bytes
  | .count data => data
  | .timedOut | .failed => []

/-- **The loop feeds what it reads**: timeouts and empty reads change nothing. -/
theorem serialLoop_eq (crates : Crates) (elf : ElfMetadata) : ∀ (reads : List PortRead) (buffer : Bytes),
    .failed ∉ reads → serialLoop crates elf buffer reads =
      ((feedAndDo crates elf buffer (reads.flatMap PortRead.data)).1,
        match (feedAndDo crates elf buffer (reads.flatMap PortRead.data)).2 with
        | some left => .reading left
        | none => .panicked)
  | [], buffer, _ => rfl
  | .failed :: reads, buffer, h => absurd List.mem_cons_self h
  | .timedOut :: reads, buffer, h => by
    have ih := serialLoop_eq crates elf reads buffer fun hmem => h (List.mem_cons_of_mem _ hmem)
    rw [serialLoop, ih]
    rfl
  | .count data :: reads, buffer, h => by
    have ih (buffer : Bytes) := serialLoop_eq crates elf reads buffer fun hmem => h (List.mem_cons_of_mem _ hmem)
    rw [serialLoop, List.flatMap_cons, PortRead.data, feedAndDo_append]
    split
    · rcases feedAndDo crates elf buffer data with ⟨events, _ | left⟩
      · rfl
      · simp only [ih left]
    · next hempty =>
      have hnil : data = [] := List.length_eq_zero_iff.mp (by omega)
      rw [hnil, ih buffer]
      rfl

end Host

variable {p : Platform} {image : Image}

/-- The log of a call on a host that has not found all levels. -/
def Call.labelledLog (labelled : Host.LogLevel → Bool) (call : Call p image) : Log :=
  { call.hostLog with
    level := if labelled call.site.logMacro.hostLevel then call.site.logMacro.hostLevel else .unknown }

section
variable {crates : Crates} (hcrates : crates.Documented) {version : Str} {labelled : Host.LogLevel → Bool}
include hcrates

theorem decode_labelled (call : Call p image) (timestamp : BitVec 64) :
    decode crates (image.labelledMetadata labelled) (vlogWrites timestamp call.arguments).flatten =
      .ok ((call.at' timestamp).labelledLog labelled) := by
  obtain ⟨rest, harguments⟩ := call.arguments_cons hcrates
  have hdecode := (decode_at hcrates call timestamp).2
  have hstamp : crates.readUnsigned (vlogWrites timestamp call.arguments).flatten =
      some (timestamp.toNat, argumentBytes call.arguments) := by
    rw [hcrates.readUnsigned, vlogWrites_flatten, readU64_word (Nat.le_of_ble_eq_true rfl : 8 ≤ 64) (Nat.le_refl 64)]
  have haddress : crates.readUnsigned (argumentBytes call.arguments) = some (call.address.toNat, argumentBytes rest) := by
    rw [harguments, argumentBytes_cons, Argument.wire, hcrates.readUnsigned,
      readU64_word p.eight_le_pointerBits p.pointerBits_le]
  have hlevel := getLogSection_labelled labelled call.interned
  rw [Image.labelledMetadata] at hlevel ⊢
  rw [decode_sections _ hstamp haddress hdecode, hlevel]
  rfl

omit hcrates in
theorem Linked.loads {file : ElfFile} (h : Linked image version labelled file) {hostVersion : Str}
    {disableVersionCheck : Bool} (hagree : disableVersionCheck = true ∨ version = hostVersion) :
    Host.fromElfFile hostVersion (.ok file) disableVersionCheck = .ok (image.labelledMetadata labelled) := by
  rw [h.fromElfFile, if_neg]
  rintro ⟨hcompared, hdiffer⟩
  rcases hagree with hdisabled | hsame
  · rw [hcompared] at hdisabled
    cases hdisabled
  · exact hdiffer hsame

end

/-- **What a file without some labels loses.** The host takes a file linked from the
    image where the versions agree or are not compared, and refuses it with both
    versions otherwise. With what it has then every call decodes to its log, with
    the level unknown where its labels were missing. -/
theorem linked_calls_decode (crates : Crates) (hcrates : crates.Documented) (p : Platform) (image : Image)
    (version : Str) (labelled : Host.LogLevel → Bool) (file : ElfFile) (hlinked : Linked image version labelled file)
    (hostVersion : Str) (disableVersionCheck : Bool) :
    if disableVersionCheck = false ∧ version ≠ hostVersion then
      Host.fromElfFile hostVersion (.ok file) disableVersionCheck =
        .error (.err (.mismatchedPostformVersions version hostVersion))
    else ∃ elf, Host.fromElfFile hostVersion (.ok file) disableVersionCheck = .ok elf ∧
      ∀ (call : Call p image) (timestamp : BitVec 64),
        decode crates elf (vlogWrites timestamp call.arguments).flatten =
          .ok ((call.at' timestamp).labelledLog labelled) := by
  have hload := hlinked.fromElfFile hostVersion disableVersionCheck
  split
  · next hmismatch =>
    rw [hload, if_pos hmismatch]
  · next hagree =>
    rw [if_neg hagree] at hload
    exact ⟨_, hload, fun call timestamp => decode_labelled hcrates call timestamp⟩

/-- **One state of the file**: the record loop hands the action the logs of the calls
    whose records are whole. -/
theorem FileSystem.delivered {crates : Crates} {elf : ElfMetadata} {logOf : Call p image → Log}
    (hlogs : ∀ (call : Call p image) timestamp,
      decode crates elf (vlogWrites timestamp call.arguments).flatten = .ok (logOf (call.at' timestamp)))
    {ι : Type} [DecidableEq ι] {calls : ι → List (Call p image)} {s : FileSystem ι p} {fd : Int} {previous : Option Bytes}
    (hord : FileSystem.Ordered (fun i => (calls i).map Call.arguments) s)
    (hexcl : TryLock.Exclusive (Message.fileCalls .little fd) (s.tryLock .little)) (hfresh : previous.getD [] = [])
    (hsizes : ∀ i, ∀ call ∈ calls i, ∀ timestamp, (vlogWrites timestamp call.arguments).flatten.length < 2 ^ 32) :
    ∃ printed, Delivered calls s.won printed ∧ s.won.length ≤ printed.length + 1 ∧
      (recordLoop (decode crates elf) (s.content fd previous)).1.filterMap Prod.snd = events logOf printed ∧
      (s.taken = false → printed.map Prod.fst = s.won ∧
        (printed ≠ [] → (recordLoop (decode crates elf) (s.content fd previous)).2 = some [])) := by
  obtain ⟨winners, hwinners, hdelivered⟩ := exists_delivered hord
  have hwinners : winners.map Prod.fst = s.won := hwinners
  have hsize : ∀ e ∈ s.exchanges, e.message.bytes.length < 2 ^ 32 := by
    intro e he
    obtain ⟨call, hcall, harguments⟩ := List.mem_map.mp (hord.mem_program he)
    have := hsizes e.context call hcall e.timestamp
    rwa [harguments] at this
  obtain ⟨delivered, pending, torn, hwon, hlen, hfree, hsplits⟩ := FileSystem.content_splits hexcl hsize hfresh
  have hprinted : (winners.take delivered.length).map Prod.fst = delivered := by
    rw [List.map_take, hwinners, hwon, List.take_left]
  have hevent : ∀ z ∈ winners, messageEvent (decode crates elf) z.1.message.bytes =
      some (.action (logOf (z.2.at' z.1.timestamp))) := by
    intro z hz
    have hdecode : decode crates elf z.1.message.bytes = .ok (logOf (z.2.at' z.1.timestamp)) := by
      rw [← hlogs, hdelivered.arguments z hz]
      rfl
    rw [messageEvent, hdecode]
  have hmessages : delivered.map (fun e => e.message.bytes) =
      (winners.take delivered.length).map fun z => z.1.message.bytes := by
    rw [← hprinted, List.map_map, hprinted]
    rfl
  rw [hmessages] at hsplits
  have hsome : ∀ message ∈ (winners.take delivered.length).map fun z => z.1.message.bytes,
      messageEvent (decode crates elf) message ≠ none := by
    intro message hmessage
    obtain ⟨z, hz, rfl⟩ := List.mem_map.mp hmessage
    rw [hevent z (List.mem_of_mem_take hz)]
    exact Option.some_ne_none _
  have hloop := recordLoop_events hsplits hsome
  refine ⟨winners.take delivered.length, hdelivered.take _, ?_, ?_, fun hf => ⟨?_, fun hne => ?_⟩⟩
  · have hcount := congrArg List.length hprinted
    rw [List.length_map] at hcount
    rw [hwon, List.length_append, hcount]
    omega
  · rw [hloop, List.map_map, List.filterMap_map, events, ← List.filterMap_eq_map]
    apply List.filterMap_congr
    intro z hz
    exact hevent z (List.mem_of_mem_take hz)
  · rw [hprinted, hwon, (hfree hf).1, List.append_nil]
  · rw [hloop]
    apply if_pos
    exact ⟨by simpa using hne, (hfree hf).2⟩

/-- A file linked from the sample, whose table has lost the labels of errors and has
a symbol of the program. -/
def Sample.file : ElfFile where
  sectionByName name :=
    if name = ".interned_strings".toList then some (some Sample.image.strings)
    else if name = ".postform_config".toList then some (some [232, 3, 0, 0])
    else if name = ".postform_version".toList then some (some [49, 0])
    else none
  symbols := [⟨some "main".toList, 1024⟩, ⟨some "__InternedDebugStart".toList, 0⟩, ⟨some "__InternedDebugEnd".toList, 2⟩,
    ⟨some "__InternedInfoStart".toList, 2⟩, ⟨some "__InternedInfoEnd".toList, 18⟩,
    ⟨some "__InternedWarningStart".toList, 18⟩, ⟨some "__InternedWarningEnd".toList, 18⟩]

/-- The levels of the sample that still have their labels. -/
def Sample.labelled (level : Host.LogLevel) : Bool := level != .error

theorem Sample.linked : Linked Sample.image "1".toList Sample.labelled Sample.file where
  strings := rfl
  config := rfl
  versionText := rfl
  noNul := by decide
  names := by decide
  labels := fun logMacro hlabelled => by
    unfold DefinesSymbol
    cases logMacro with
    | logError => cases hlabelled
    | _ => decide
  missing := fun logMacro hlabelled => by
    cases logMacro with
    | logError => exact .inl (by decide)
    | _ => cases hlabelled

theorem linked_calls_decode_sample : ∃ elf, Host.fromElfFile "2".toList (.ok Sample.file) true = .ok elf ∧
    ∀ (call : Call ⟨true, true, true⟩ Sample.image) (timestamp : BitVec 64),
      decode Crates.reference elf (vlogWrites timestamp call.arguments).flatten =
        .ok ((call.at' timestamp).labelledLog Sample.labelled) :=
  linked_calls_decode Crates.reference Crates.reference_documented _ _ _ _ _ Sample.linked "2".toList true

/-! Both programs on both sides. -/

/-- **One state**: what `postform_serial` prints of a beginning of what was sent. -/
theorem System.Inv.serial {crates : Crates} (hcrates : crates.Documented) {version : Str}
    {labelled : Host.LogLevel → Bool} {file : ElfFile} (hlinked : Linked image version labelled file) {hostVersion : Str}
    {disableVersionCheck : Bool} (hagree : disableVersionCheck = true ∨ version = hostVersion) {ι : Type} [DecidableEq ι]
    {calls : ι → List (Call p image)} {s : System ι p} (h : System.Inv (fun i => (calls i).map Call.arguments) s)
    {reads : List PortRead} (hworks : .failed ∉ reads)
    (hreads : reads.flatMap PortRead.data <+: SerialWriter.opBytes s.received) :
    ∃ printed left, Delivered calls s.won printed ∧
      serialMain crates hostVersion (.ok file) disableVersionCheck (some reads) =
        (events (Call.labelledLog labelled) printed, .reading left) ∧
      (reads.flatMap PortRead.data = SerialWriter.opBytes s.received → s.won.length ≤ printed.length + 1 ∧
        (s.taken = false → printed.map Prod.fst = s.won)) := by
  have hlogs (call : Call p image) (timestamp : BitVec 64) :=
    @decode_labelled p image crates hcrates labelled call timestamp
  obtain ⟨printed, left, hdelivered, hfeed, hall⟩ := h.delivered hcrates hlogs hreads
  refine ⟨printed, left, hdelivered, ?_, hall⟩
  unfold serialMain
  rw [hlinked.loads hagree]
  simp only [serialLoop_eq crates _ reads [] hworks, hfeed]

/-- **The serial path.** Contexts execute log macros on one `SerialLogger`, and
    `postform_serial` has read a beginning of what its transport was given, in any
    reads and with any timeouts between. It has printed the logs of the first calls
    that won and goes on reading; with all the bytes at most one call is missing,
    and none where no call is in progress. -/
theorem serial_program (crates : Crates) (hcrates : crates.Documented) (p : Platform) (image : Image) (version : Str)
    (labelled : Host.LogLevel → Bool) (file : ElfFile) (hlinked : Linked image version labelled file) (hostVersion : Str)
    (disableVersionCheck : Bool) (hagree : disableVersionCheck = true ∨ version = hostVersion) {ι : Type} [DecidableEq ι]
    (calls : ι → List (Call p image)) (tr : Runs.Trace (ι × Action) (System ι p))
    (hrun : Runs.IsRun (fun s a t => System.step s a = some t) (System.running calls) tr) :
    Runs.Always (fun s => ∀ reads : List PortRead, .failed ∉ reads →
      reads.flatMap PortRead.data <+: SerialWriter.opBytes s.received → ∃ printed left, Delivered calls s.won printed ∧
        serialMain crates hostVersion (.ok file) disableVersionCheck (some reads) =
          (events (Call.labelledLog labelled) printed, .reading left) ∧
        (reads.flatMap PortRead.data = SerialWriter.opBytes s.received → s.won.length ≤ printed.length + 1 ∧
          (s.taken = false → printed.map Prod.fst = s.won))) (System.running calls) tr := by
  apply (System.inv_always hrun).imp
  intro s h reads hworks hreads
  exact h.serial hcrates hlinked hagree hworks hreads

/-- **The file path.** Threads execute log macros on one `FileLogger` that opened an
    empty file, and the process stops in any state of any run. `postform_persist`
    then prints the logs of the calls that won, all but the last at least; where no
    call was in progress it prints them all, and ends without a panic if there are
    any. -/
theorem persist_program (crates : Crates) (hcrates : crates.Documented) (p : Platform) (image : Image) (version : Str)
    (labelled : Host.LogLevel → Bool) (file : ElfFile) (hlinked : Linked image version labelled file) (hostVersion : Str)
    (disableVersionCheck : Bool) (hagree : disableVersionCheck = true ∨ version = hostVersion) {ι : Type} [DecidableEq ι]
    (calls : ι → List (Call p image)) (fd : Int) (previous : Option Bytes) (hfresh : previous.getD [] = [])
    (hsizes : ∀ i, ∀ call ∈ calls i, ∀ timestamp, (vlogWrites timestamp call.arguments).flatten.length < 2 ^ 32)
    (tr : Runs.Trace (ι × Action) (FileSystem ι p))
    (hrun : Runs.IsRun (FileSystem.Steps .little fd) (FileSystem.initial fun i => (calls i).map Call.arguments) tr) :
    Runs.Always (fun s =>
      let persisted := persistMain crates hostVersion (.ok file) disableVersionCheck (some (s.content fd previous))
      ∃ printed, Delivered calls s.won printed ∧ s.won.length ≤ printed.length + 1 ∧
        persisted.1 = events (Call.labelledLog labelled) printed ∧
        (s.taken = false → printed.map Prod.fst = s.won ∧ (printed ≠ [] → persisted.2 = .returned)))
      (FileSystem.initial fun i => (calls i).map Call.arguments) tr := by
  have hlogs (call : Call p image) (timestamp : BitVec 64) :=
    @decode_labelled p image crates hcrates labelled call timestamp
  have hordered := Runs.always_of_step (P := FileSystem.Ordered fun i => (calls i).map Call.arguments)
    (fun _ _ _ h hstep => h.step hstep) FileSystem.ordered_initial hrun
  refine (hordered.and (FileSystem.exclusive_always hrun)).imp fun s ⟨hord, hexcl⟩ => ?_
  obtain ⟨printed, hdelivered, hlen, hevents, hfree⟩ := FileSystem.delivered hlogs hord hexcl hfresh hsizes
  have hmain : persistMain crates hostVersion (.ok file) disableVersionCheck (some (s.content fd previous)) =
      ((recordLoop (decode crates (image.labelledMetadata labelled)) (s.content fd previous)).1.filterMap Prod.snd,
        if (recordLoop (decode crates (image.labelledMetadata labelled)) (s.content fd previous)).2.isSome then .returned
        else .panicked) := by
    unfold persistMain
    rw [hlinked.loads hagree]
  simp only [hmain]
  refine ⟨printed, hdelivered, hlen, hevents, fun hf => ⟨(hfree hf).1, fun hne => ?_⟩⟩
  rw [(hfree hf).2 hne]
  rfl

theorem serial_program_sample : ∃ tr,
    Runs.follow System.step (System.running fun _ : Bool => [Sample.call])
      [(true, .readTimestamp 5), (true, .exchange), (true, .proceed), (false, .readTimestamp 6), (false, .exchange),
        (false, .proceed), (true, .proceed)] = some tr ∧
    Runs.Always (fun s => ∀ reads : List PortRead, .failed ∉ reads →
      reads.flatMap PortRead.data <+: SerialWriter.opBytes s.received →
        ∃ printed left, Delivered (fun _ => [Sample.call]) s.won printed ∧
          serialMain Crates.reference "1".toList (.ok Sample.file) false (some reads) =
            (events (Call.labelledLog Sample.labelled) printed, .reading left) ∧
          (reads.flatMap PortRead.data = SerialWriter.opBytes s.received → s.won.length ≤ printed.length + 1 ∧
            (s.taken = false → printed.map Prod.fst = s.won))) (System.running fun _ => [Sample.call]) tr := by
  obtain ⟨tr, htr⟩ : ∃ tr, Runs.follow System.step (System.running fun _ : Bool => [Sample.call])
      [(true, .readTimestamp 5), (true, .exchange), (true, .proceed), (false, .readTimestamp 6), (false, .exchange),
        (false, .proceed), (true, .proceed)] = some tr := ⟨_, rfl⟩
  exact ⟨tr, htr, serial_program Crates.reference Crates.reference_documented _ _ _ _ _ Sample.linked "1".toList false
    (.inr rfl) _ tr (Runs.isRun_follow _ htr)⟩

theorem persist_program_sample : ∃ tr,
    Runs.follow (FileSystem.step .little 3) (FileSystem.initial fun _ : Bool => [Sample.call].map Call.arguments)
      [(true, .readTimestamp 5), (true, .exchange), (true, .proceed), (false, .readTimestamp 6), (false, .exchange),
        (false, .proceed), (true, .proceed), (true, .proceed)] = some tr ∧
    Runs.Always (fun s =>
      let persisted := persistMain Crates.reference "1".toList (.ok Sample.file) false (some (s.content 3 none))
      ∃ printed, Delivered (fun _ => [Sample.call]) s.won printed ∧ s.won.length ≤ printed.length + 1 ∧
        persisted.1 = events (Call.labelledLog Sample.labelled) printed ∧
        (s.taken = false → printed.map Prod.fst = s.won ∧ (printed ≠ [] → persisted.2 = .returned)))
      (FileSystem.initial fun _ => [Sample.call].map Call.arguments) tr := by
  obtain ⟨tr, htr⟩ : ∃ tr, Runs.follow (FileSystem.step .little 3)
      (FileSystem.initial fun _ : Bool => [Sample.call].map Call.arguments)
      [(true, .readTimestamp 5), (true, .exchange), (true, .proceed), (false, .readTimestamp 6), (false, .exchange),
        (false, .proceed), (true, .proceed), (true, .proceed)] = some tr := ⟨_, rfl⟩
  refine ⟨tr, htr, persist_program Crates.reference Crates.reference_documented _ _ _ _ _ Sample.linked "1".toList false
    (.inr rfl) (fun _ => [Sample.call]) 3 none rfl ?_ tr (Runs.isRun_follow _ htr)⟩
  intro _ call hcall timestamp
  rw [List.mem_singleton.mp hcall, vlogWrites_flatten, List.length_append]
  have hstamp := writeLeb128Unsigned_length (by decide) (Nat.le_refl 64) timestamp
  have harguments : (argumentBytes Sample.call.arguments).length = 2 := by decide
  omega

end Postform
