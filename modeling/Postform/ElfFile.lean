import Mathlib.Data.List.TakeWhile
import Postform.Lib.Records
import Postform.RoundTrip

/- What the host reads of the ELF file. `from_elf_file` takes three sections and,
   for each level, the first symbols with the names of its two labels. A level that
   lacks one is left out with a warning; a symbol whose name cannot be read is an
   `unwrap` that panics, where it stands in front of a label that is looked for
   (`load_panics_iff`).

   `Linked` is the file that the linker makes of an image under `postform.ld`, whose
   symbol table may have lost the labels of some levels. The host loads the image
   of it (`Linked.fromElfFile`), and what it lost is the level of their logs only
   (`decode_sections`, `getLogSection_labelled`). -/
namespace Postform

open Wire

namespace Host

/-- A symbol; `name` is `none` where `name()` is an error. -/
structure ElfSymbol where
  name : Option Str
  address : Nat
  deriving DecidableEq, Repr

/-- What the `object` crate has of a file: the sections by name, each with its data
if they can be read, and the symbols in order. -/
structure ElfFile where
  sectionByName : Str → Option (Option Bytes)
  symbols : List ElfSymbol

/-- The errors of reading the file. -/
inductive LoadError where
  | ioError
  | elfParseError
  | missingInternedStrings
  | missingPostformConfiguration
  | missingPostformVersion
  | mismatchedPostformVersions (firmware host : Str)
  | levelNotFound
  deriving DecidableEq, Repr

/-- How reading the file leaves without a result. -/
inductive LoadExit where
  | err (error : LoadError)
  | panic
  deriving DecidableEq, Repr

abbrev LoadRes (α : Type) := Except LoadExit α

/-- The `Into<&'static str>` of a level. -/
def LogLevel.name : LogLevel → Str
  | .debug => "Debug".toList
  | .info => "Info".toList
  | .warning => "Warning".toList
  | .error => "Error".toList
  | .unknown => "Unknown".toList

def LogLevel.getStartSectionLabel (level : LogLevel) : Str := "__Interned".toList ++ level.name ++ "Start".toList

def LogLevel.getEndSectionLabel (level : LogLevel) : Str := "__Interned".toList ++ level.name ++ "End".toList

/-- `symbols().find(|x| x.name().unwrap() == label)`. -/
def findSymbol (label : Str) : List ElfSymbol → LoadRes (Option ElfSymbol)
  | [] => .ok none
  | x :: symbols =>
    match x.name with
    | none => .error .panic
    | some name => if name = label then .ok (some x) else findSymbol label symbols

/-- The address of a label, with `ok_or`. -/
def labelAddress (elfFile : ElfFile) (label : Str) : LoadRes Nat := do
  match ← findSymbol label elfFile.symbols with
  | some x => pure x.address
  | none => .error (.err .levelNotFound)

def LogLevel.findLevelInElf (level : LogLevel) (elfFile : ElfFile) : LoadRes (Nat × Nat) := do
  let start ← labelAddress elfFile level.getStartSectionLabel
  let «end» ← labelAddress elfFile level.getEndSectionLabel
  pure (start, «end»)

/-- The levels the loop looks for. -/
def levels : List LogLevel := [.debug, .info, .warning, .error]

/-- The loop over the levels. -/
def findLevels (elfFile : ElfFile) : List LogLevel → LoadRes (List LogSection)
  | [] => .ok []
  | level :: rest =>
    match level.findLevelInElf elfFile with
    | .ok (start, «end») => do
      let sections ← findLevels elfFile rest
      pure (⟨level, start, «end»⟩ :: sections)
    | .error (.err _) => findLevels elfFile rest
    | .error .panic => .error .panic

/-- `section_by_name`, `ok_or`, `data`. -/
def ElfFile.sectionData (elfFile : ElfFile) (name : Str) (missing : LoadError) : LoadRes Bytes :=
  match elfFile.sectionByName name with
  | none => .error (.err missing)
  | some none => .error (.err .elfParseError)
  | some (some data) => .ok data

/-- The version in the firmware, up to a NUL. -/
def firmwareVersion (postformVersion : Bytes) : Str := Utf8.fromUtf8Lossy (postformVersion.takeWhile (· != 0))

/-- `read_u32::<LittleEndian>()`. -/
def readU32 (data : Bytes) : LoadRes UInt32 :=
  if data.length < 4 then .error (.err .ioError) else .ok (UInt32.ofNat (Records.ofLeBytes (data.take 4)))

/-- What `from_elf_file` reads before it looks for the levels. -/
def readSections (hostVersion : Str) (disableVersionCheck : Bool) (elfFile : ElfFile) : LoadRes (Bytes × UInt32) := do
  let postformVersion ← elfFile.sectionData ".postform_version".toList .missingPostformVersion
  if disableVersionCheck = false ∧ firmwareVersion postformVersion ≠ hostVersion then
    .error (.err (.mismatchedPostformVersions (firmwareVersion postformVersion) hostVersion))
  else
    let internedStrings ← elfFile.sectionData ".interned_strings".toList .missingInternedStrings
    let config ← elfFile.sectionData ".postform_config".toList .missingPostformConfiguration
    let timestampFreq ← readU32 config
    pure (internedStrings, timestampFreq)

/-- `ElfMetadata::from_elf_file`; `opened` is what `fs::read` and `ElfFile::parse`
give, and `hostVersion` the `POSTFORM_VERSION` the host was built with. -/
def fromElfFile (hostVersion : Str) (opened : Except LoadError ElfFile) (disableVersionCheck : Bool) :
    LoadRes ElfMetadata := do
  let elfFile ← opened.mapError .err
  let (internedStrings, timestampFreq) ← readSections hostVersion disableVersionCheck elfFile
  let sections ← findLevels elfFile levels
  pure ⟨timestampFreq.toFloat, internedStrings, sections⟩

/-! Where it panics. -/

/-- The symbols in front of the first whose name cannot be read. -/
def readable (symbols : List ElfSymbol) : List ElfSymbol := symbols.takeWhile fun x => x.name.isSome

/-- A label is looked for up to the first name that cannot be read. -/
theorem findSymbol_eq (label : Str) : ∀ symbols : List ElfSymbol, findSymbol label symbols =
    match (readable symbols).find? fun x => x.name = some label with
    | some x => .ok (some x)
    | none => if ∀ x ∈ symbols, x.name ≠ none then .ok none else .error .panic
  | [] => by simp [findSymbol, readable]
  | x :: symbols => by
    have ih := findSymbol_eq label symbols
    unfold findSymbol
    cases hname : x.name with
    | none => simp [readable, hname]
    | some name =>
      have hreadable : readable (x :: symbols) = x :: readable symbols := by simp [readable, hname]
      rw [hreadable, List.find?_cons]
      by_cases hlabel : name = label
      · simp [hname, hlabel]
      · simp only [hname, hlabel, if_false, ih, Option.some.injEq, decide_false, List.forall_mem_cons, ne_eq,
          reduceCtorEq, not_false_eq_true, true_and]

theorem labelAddress_eq (elfFile : ElfFile) (label : Str) : labelAddress elfFile label =
    match (readable elfFile.symbols).find? fun x => x.name = some label with
    | some x => .ok x.address
    | none => if ∀ x ∈ elfFile.symbols, x.name ≠ none then .error (.err .levelNotFound) else .error .panic := by
  rw [labelAddress, findSymbol_eq]
  split
  · rfl
  · split <;> rfl

end Host

/-! The file of an image. -/

open Host

/-- Every symbol of that name has the address, and there is one. -/
def DefinesSymbol (symbols : List ElfSymbol) (label : Str) (address : Nat) : Prop :=
  (∃ x ∈ symbols, x.name = some label) ∧ ∀ x ∈ symbols, x.name = some label → x.address = address

/-- `file` is linked from the image under `postform.ld`, with the version the target
was built with; `labelled` are the levels whose labels are in the symbol table. -/
structure Linked (image : Image) (version : Str) (labelled : Host.LogLevel → Bool) (file : ElfFile) : Prop where
  strings : file.sectionByName ".interned_strings".toList = some (some image.strings)
  config : file.sectionByName ".postform_config".toList = some (some (Records.leBytes 4 image.timestampFreq.toNat))
  versionText : file.sectionByName ".postform_version".toList = some (some (Utf8.encode version ++ [0]))
  noNul : '\x00' ∉ version
  names : ∀ x ∈ file.symbols, x.name ≠ none
  labels : ∀ logMacro : LogMacro, labelled logMacro.hostLevel = true →
    DefinesSymbol file.symbols logMacro.hostLevel.getStartSectionLabel (image.start logMacro.internMode) ∧
      DefinesSymbol file.symbols logMacro.hostLevel.getEndSectionLabel
        (image.start logMacro.internMode + (image.content logMacro.internMode).length)
  missing : ∀ logMacro : LogMacro, labelled logMacro.hostLevel = false →
    (∀ x ∈ file.symbols, x.name ≠ some logMacro.hostLevel.getStartSectionLabel) ∨
      ∀ x ∈ file.symbols, x.name ≠ some logMacro.hostLevel.getEndSectionLabel

/-- The metadata of an image, without the sections of the levels that are not
labelled. -/
def Image.labelledMetadata (image : Image) (labelled : Host.LogLevel → Bool) : ElfMetadata :=
  { image.elfMetadata with logSections := image.elfMetadata.logSections.filter fun x => labelled x.level }

theorem readable_eq {symbols : List ElfSymbol} (h : ∀ x ∈ symbols, x.name ≠ none) : readable symbols = symbols := by
  apply List.takeWhile_eq_self_iff.mpr
  intro x hx
  exact Option.isSome_iff_ne_none.mpr (h x hx)

theorem labelAddress_defines {file : ElfFile} (hnames : ∀ x ∈ file.symbols, x.name ≠ none) {label : Str} {address : Nat}
    (h : DefinesSymbol file.symbols label address) : labelAddress file label = .ok address := by
  rw [labelAddress_eq, readable_eq hnames]
  split
  · next x hfind =>
    have hx := List.find?_some hfind
    rw [h.2 x (List.mem_of_find?_eq_some hfind) (of_decide_eq_true hx)]
  · next hfind =>
    obtain ⟨x, hx, hname⟩ := h.1
    have := List.find?_eq_none.mp hfind x hx
    simp [hname] at this

theorem labelAddress_missing {file : ElfFile} (hnames : ∀ x ∈ file.symbols, x.name ≠ none) {label : Str}
    (h : ∀ x ∈ file.symbols, x.name ≠ some label) : labelAddress file label = .error (.err .levelNotFound) := by
  have hfind : (file.symbols.find? fun x => x.name = some label) = none := by
    apply List.find?_eq_none.mpr
    intro x hx
    simpa using h x hx
  rw [labelAddress_eq, readable_eq hnames, hfind]
  exact if_pos hnames

namespace Linked

variable {image : Image} {version : Str} {labelled : Host.LogLevel → Bool} {file : ElfFile}

theorem findLevelInElf (h : Linked image version labelled file) (logMacro : LogMacro) :
    logMacro.hostLevel.findLevelInElf file = if labelled logMacro.hostLevel then
      .ok (image.start logMacro.internMode, image.start logMacro.internMode + (image.content logMacro.internMode).length)
      else .error (.err .levelNotFound) := by
  unfold LogLevel.findLevelInElf
  cases hlabelled : labelled logMacro.hostLevel with
  | true =>
    obtain ⟨hstart, hend⟩ := h.labels logMacro hlabelled
    rw [labelAddress_defines h.names hstart, labelAddress_defines h.names hend]
    rfl
  | false =>
    rcases h.missing logMacro hlabelled with hstart | hend
    · rw [labelAddress_missing h.names hstart]
      rfl
    · rw [labelAddress_missing h.names hend]
      cases hstart : labelAddress file logMacro.hostLevel.getStartSectionLabel with
      | ok start => rfl
      | error exit =>
        -- a label that is not found either
        rw [labelAddress_eq, if_pos h.names] at hstart
        split at hstart <;> cases hstart
        rfl

theorem findLevels_linked (h : Linked image version labelled file) :
    findLevels file levels = .ok (image.labelledMetadata labelled).logSections := by
  have one (logMacro : LogMacro) {rest : List Host.LogLevel} {sections : List LogSection}
      (hrest : findLevels file rest = .ok (sections.filter fun x => labelled x.level)) :
      findLevels file (logMacro.hostLevel :: rest) =
        .ok ((image.logSection logMacro.hostLevel logMacro.internMode :: sections).filter fun x => labelled x.level) := by
    rw [findLevels, h.findLevelInElf logMacro, List.filter_cons]
    cases hlabelled : labelled logMacro.hostLevel with
    | true =>
      have hlevel : labelled (image.logSection logMacro.hostLevel logMacro.internMode).level = true := hlabelled
      rw [if_pos hlevel]
      simp only [if_true, hrest]
      rfl
    | false =>
      have hlevel : ¬labelled (image.logSection logMacro.hostLevel logMacro.internMode).level = true := by
        rw [show (image.logSection logMacro.hostLevel logMacro.internMode).level = logMacro.hostLevel from rfl, hlabelled]
        simp
      rw [if_neg hlevel]
      simpa using hrest
  have hnil : findLevels file [] = .ok (([] : List LogSection).filter fun x => labelled x.level) := rfl
  exact one .logDebug (one .logInfo (one .logWarning (one .logError hnil)))

theorem readSections_linked (h : Linked image version labelled file) (hostVersion : Str) (disableVersionCheck : Bool) :
    readSections hostVersion disableVersionCheck file =
      if disableVersionCheck = false ∧ version ≠ hostVersion then
        .error (.err (.mismatchedPostformVersions version hostVersion))
      else .ok (image.strings, image.timestampFreq) := by
  have hversion : firmwareVersion (Utf8.encode version ++ [0]) = version := by
    have hzero := Utf8.zero_notMem_encode h.noNul
    rw [firmwareVersion, List.takeWhile_append_of_pos, List.takeWhile_cons_of_neg (by simp), List.append_nil,
      Utf8.fromUtf8Lossy_encode]
    intro b hb
    simpa using fun heq : b = 0 => hzero (heq ▸ hb)
  have hfreq : readU32 (Records.leBytes 4 image.timestampFreq.toNat) = .ok image.timestampFreq := by
    have hlt : image.timestampFreq.toNat < 256 ^ 4 := image.timestampFreq.toNat_lt
    rw [readU32, if_neg (by simp), List.take_of_length_le (by simp), Records.ofLeBytes_leBytes hlt, UInt32.ofNat_toNat]
  unfold readSections ElfFile.sectionData
  rw [h.strings, h.config, h.versionText]
  simp only [Bind.bind, Except.bind, hversion, hfreq]
  rfl

/-- **Linking and loading**: the host has the metadata of the image, exactly where
    the versions agree or are not compared. -/
theorem fromElfFile (h : Linked image version labelled file) (hostVersion : Str) (disableVersionCheck : Bool) :
    Host.fromElfFile hostVersion (.ok file) disableVersionCheck =
      if disableVersionCheck = false ∧ version ≠ hostVersion then
        .error (.err (.mismatchedPostformVersions version hostVersion))
      else .ok (image.labelledMetadata labelled) := by
  unfold Host.fromElfFile
  simp only [Except.mapError, Bind.bind, Except.bind, h.readSections_linked, h.findLevels_linked]
  split
  · next hread =>
    split at hread
    · next hmismatch =>
      cases hread
      rw [if_pos hmismatch]
    · cases hread
  · next hread =>
    split at hread
    · cases hread
    · next hagree =>
      cases hread
      rw [if_neg hagree]
      rfl

end Linked

/-! Decoding without some levels. -/

section
variable {crates : Crates} {elf : ElfMetadata} (sections : List LogSection)

theorem runTokens_sections (ending : Ending) (tokens : List Token) (out : Str) (arguments : Bytes) :
    runTokens crates { elf with logSections := sections } ending tokens out arguments =
      runTokens crates elf ending tokens out arguments := by
  induction tokens generalizing out arguments with
  | nil => rfl
  | cons token tokens ih =>
    have hhandler : token.kind.handler crates { elf with logSections := sections } = token.kind.handler crates elf := by
      cases token.kind <;> rfl
    simp only [runTokens, hhandler, ih]

theorem formatString_sections (format : Str) (arguments : Bytes) :
    formatString crates { elf with logSections := sections } format arguments =
      formatString crates elf format arguments := by
  rw [formatString, formatString, formatLoop_eq, formatLoop_eq, runTokens_sections]

/-- **The sections decide the level only.** -/
theorem decode_sections {buffer rest arguments : Bytes} {ticks strPtr : Nat} {log : Log}
    (hticks : crates.readUnsigned buffer = some (ticks, rest))
    (hptr : crates.readUnsigned rest = some (strPtr, arguments))
    (h : decode crates elf buffer = .ok log) :
    decode crates { elf with logSections := sections } buffer =
      .ok { log with level := (ElfMetadata.getLogSection { elf with logSections := sections } strPtr).level } := by
  unfold decode at h ⊢
  simp only [hticks, okOr, decodeUnsigned, hptr, Bind.bind, Except.bind, formatString_sections] at h ⊢
  have hstring : ElfMetadata.recoverInternedString { elf with logSections := sections } strPtr =
      elf.recoverInternedString strPtr := rfl
  rw [hstring]
  cases hrecover : elf.recoverInternedString strPtr with
  | error exit => simp [hrecover] at h
  | ok internedString =>
    simp only [hrecover] at h ⊢
    cases hsplit : decodeFormatString internedString with
    | error exit => simp [hsplit] at h
    | ok parts =>
      obtain ⟨fileName, lineNumber, format⟩ := parts
      simp only [hsplit] at h ⊢
      cases hformat : formatString crates elf format arguments with
      | error exit => simp [hformat] at h
      | ok formattedStr =>
        simp only [hformat, Pure.pure, Except.pure, Except.ok.injEq] at h ⊢
        subst h
        rfl

end

theorem Image.Interned.contains {image : Image} {logMacro : LogMacro} {address : Nat} {bytes : Bytes}
    (h : image.Interned logMacro.internMode address bytes) (other : LogMacro) :
    (image.start other.internMode ≤ address &&
      address < image.start other.internMode + (image.content other.internMode).length) = decide (other = logMacro) := by
  obtain ⟨pre, post, hcontent, rfl⟩ := h
  have hlen : pre.length < (image.content logMacro.internMode).length := by
    rw [hcontent]
    simp
  cases logMacro <;> cases other <;> simp [Image.start, layout, LogMacro.internMode] at hlen ⊢ <;> omega

theorem getLogSection_labelled {image : Image} (labelled : Host.LogLevel → Bool) {logMacro : LogMacro} {address : Nat}
    {bytes : Bytes} (h : image.Interned logMacro.internMode address bytes) :
    ((image.labelledMetadata labelled).getLogSection address).level =
      if labelled logMacro.hostLevel then logMacro.hostLevel else .unknown := by
  have hsections : (image.labelledMetadata labelled).logSections =
      (([.logDebug, .logInfo, .logWarning, .logError] : List LogMacro).map fun other =>
        image.logSection other.hostLevel other.internMode).filter fun x => labelled x.level := rfl
  have hcontains (other : LogMacro) : (decide ((image.logSection other.hostLevel other.internMode).start ≤ address) &&
      decide (address < (image.logSection other.hostLevel other.internMode).end)) = decide (other = logMacro) :=
    h.contains other
  have hlevel (other : LogMacro) : (image.logSection other.hostLevel other.internMode).level = other.hostLevel := rfl
  rw [ElfMetadata.getLogSection, hsections, List.find?_filter]
  simp only [List.map_cons, List.map_nil, List.find?_cons, List.find?_nil, hcontains, hlevel]
  cases hlabelled : labelled logMacro.hostLevel <;> cases logMacro <;>
    simp only [LogMacro.hostLevel] at hlabelled ⊢ <;> simp [hlabelled, Image.logSection]

end Postform
