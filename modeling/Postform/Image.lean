import Postform.Interning
import Postform.Logger

/- The image both sides share. A log macro puts `file@line@fmt` into the section
   of its level and sends only its address; `postform.ld` lays the sections out
   from address 0, so an address is a position in the bytes the host loads, and
   the symbols around a section give the level back.

   What else an object file puts into the sections (other strings, padding) is
   arbitrary: `Interned` says that a C string is somewhere in its section. -/
namespace Postform

open Wire Host

/-- The parts of `.interned_strings`. -/
inductive InternMode where
  | debug | info | warning | error | user
  deriving DecidableEq, Repr

/-- The order of `postform.ld`. -/
def layout : List InternMode := [.debug, .info, .warning, .error, .user]

/-- A linked image: the contents of the sections, and the word in
`.postform_config`. -/
structure Image where
  content : InternMode → Bytes
  timestampFreq : UInt32

namespace Image

/-- The contents of `.interned_strings`. -/
def strings (image : Image) : Bytes := layout.flatMap image.content

/-- The address a section starts at. -/
def start (image : Image) (mode : InternMode) : Nat :=
  ((layout.takeWhile (· ≠ mode)).flatMap image.content).length

/-- `find_level_in_elf`: the section between the symbols of a level. -/
def logSection (image : Image) (level : Host.LogLevel) (mode : InternMode) : LogSection :=
  ⟨level, image.start mode, image.start mode + (image.content mode).length⟩

/-- `ElfMetadata::from_elf_file`. -/
def elfMetadata (image : Image) : ElfMetadata :=
  ⟨image.timestampFreq.toFloat, image.strings,
    [image.logSection .debug .debug, image.logSection .info .info, image.logSection .warning .warning,
      image.logSection .error .error]⟩

/-- The C string `bytes` is in the section, at the address. -/
def Interned (image : Image) (mode : InternMode) (address : Nat) (bytes : Bytes) : Prop :=
  ∃ pre post, image.content mode = pre ++ bytes ++ 0 :: post ∧ address = image.start mode + pre.length

end Image

/-- The macros. -/
inductive LogMacro where
  | logDebug | logInfo | logWarning | logError
  deriving DecidableEq, Repr

namespace LogMacro

/-- The level a macro logs with. -/
def level : LogMacro → LogLevel
  | .logDebug => .debug
  | .logInfo => .info
  | .logWarning => .warning
  | .logError => .error

/-- The section it interns its string in. -/
def internMode : LogMacro → InternMode
  | .logDebug => .debug
  | .logInfo => .info
  | .logWarning => .warning
  | .logError => .error

/-- The level as the host names it. -/
def hostLevel : LogMacro → Host.LogLevel
  | .logDebug => .debug
  | .logInfo => .info
  | .logWarning => .warning
  | .logError => .error

end LogMacro

/-- What a file name and a format are made of, for the host to find them. -/
def EntryText (s : Str) : Prop := Utf8.IsAscii s ∧ '@' ∉ s ∧ '\x00' ∉ s

instance (s : Str) : Decidable (EntryText s) := by unfold EntryText; infer_instance

/-- A use of a macro. The line is a `u32` of the host's. -/
structure CallSite where
  logMacro : LogMacro
  file : Str
  line : Nat
  fmt : Str
  fileText : EntryText file
  lineFits : line < 2 ^ 32
  fmtText : EntryText fmt

/-- What it interns. -/
def CallSite.internedString (site : CallSite) : Str := internedText site.file site.line site.fmt

/-! The host finds the string, and the level of the section. -/

theorem Image.strings_split (image : Image) (mode : InternMode) :
    ∃ before after, image.strings = before ++ image.content mode ++ after ∧ before.length = image.start mode := by
  refine ⟨(layout.takeWhile (· ≠ mode)).flatMap image.content,
    ((layout.dropWhile (· ≠ mode)).tail).flatMap image.content, ?_, rfl⟩
  cases mode <;> simp [Image.strings, layout]

section
variable {image : Image} {mode : InternMode} {address : Nat} {bytes : Bytes}

theorem Image.Interned.strings (h : image.Interned mode address bytes) :
    ∃ pre post, image.strings = pre ++ (bytes ++ 0 :: post) ∧ address = pre.length := by
  obtain ⟨pre, post, hcontent, rfl⟩ := h
  obtain ⟨before, after, hstrings, hstart⟩ := image.strings_split mode
  exact ⟨before ++ pre, post ++ after, by simp [hstrings, hcontent], by simp [hstart]⟩

/-- **The string at an address is the one interned there.** -/
theorem recoverInternedString_interned (h : image.Interned mode address bytes) (hnul : 0 ∉ bytes) :
    image.elfMetadata.recoverInternedString address = .ok (Utf8.fromUtf8Lossy bytes) := by
  obtain ⟨pre, post, hstrings, rfl⟩ := h.strings
  exact recoverInternedString_at hstrings hnul

/-- **The section around an address gives the level.** -/
theorem getLogSection_interned (logMacro : LogMacro) (h : image.Interned logMacro.internMode address bytes) :
    (image.elfMetadata.getLogSection address).level = logMacro.hostLevel := by
  obtain ⟨pre, post, hcontent, rfl⟩ := h
  have hlen : pre.length < (image.content logMacro.internMode).length := by
    rw [hcontent]; simp
  -- the sections before it end where it starts, or earlier
  rw [ElfMetadata.getLogSection, Image.elfMetadata]
  simp only [Image.logSection, Image.start, layout, LogMacro.internMode] at hlen ⊢
  cases logMacro with
  | logDebug =>
    rw [List.find?_cons_of_pos (by simpa using hlen)]
    rfl
  | logInfo =>
    rw [List.find?_cons_of_neg (by simp), List.find?_cons_of_pos (by simpa using hlen)]
    rfl
  | logWarning =>
    rw [List.find?_cons_of_neg (by simp; omega), List.find?_cons_of_neg (by simp),
      List.find?_cons_of_pos (by simp; omega)]
    rfl
  | logError =>
    rw [List.find?_cons_of_neg (by simp; omega), List.find?_cons_of_neg (by simp; omega),
      List.find?_cons_of_neg (by simp; omega), List.find?_cons_of_pos (by simpa using hlen)]
    rfl

end

theorem decodeFormatString_internedString (site : CallSite) :
    decodeFormatString site.internedString = .ok (site.file, site.line, site.fmt) :=
  decodeFormatString_internedText site.fileText.2.1 site.lineFits site.fmtText.2.1

end Postform
