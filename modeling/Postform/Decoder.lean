import Mathlib.Data.List.Basic
import Postform.Lib.Leb128
import Postform.Lib.Rcobs
import Postform.Lib.Utf8

/- The host's decoder. A Rust `String` is the list of its scalar values, a
   `&mut &[u8]` is passed on as the bytes that are left, and a function that
   returns a `Result` and may panic is one into `Res`: a panic (a slice index
   out of range, an `unwrap` of `None`) is an exit of its own.

   The two readers of the `leb128` crate and `rcobs::decode` are parameters;
   `Crates.Documented` says that they read the formats they are named after. -/
namespace Postform.Host

open Wire

abbrev Bytes := List UInt8
abbrev Str := List Char

/-- The functions of the `leb128` and `rcobs` crates the host calls; `none` is
their `Err`. A `u64` is its natural number, an `i64` its integer. -/
structure Crates where
  readUnsigned : Bytes → Option (Nat × Bytes)
  readSigned : Bytes → Option (Int × Bytes)
  rcobsDecode : Bytes → Option Bytes

/-- The readers of `leb128` read LEB128. -/
structure Crates.ReadsLeb128 (crates : Crates) : Prop where
  readUnsigned : ∀ bytes, crates.readUnsigned bytes = Leb128.readU64 bytes
  readSigned : ∀ bytes, crates.readSigned bytes = Leb128.readS64 bytes

/-- And `rcobs` undoes a frame. Of one whose last block is full nothing is asked. -/
structure Crates.Documented (crates : Crates) : Prop extends crates.ReadsLeb128 where
  rcobsDecode : ∀ {frame message}, Rcobs.Blocks frame (message ++ [0]) → crates.rcobsDecode frame = some message

/-- Crates that do what is documented. -/
def Crates.reference : Crates := ⟨Leb128.readU64, Leb128.readS64, Rcobs.decode⟩

theorem Crates.reference_documented : Crates.reference.Documented :=
  ⟨⟨fun _ => rfl, fun _ => rfl⟩, Rcobs.decode_of_blocks⟩

/-- The errors of decoding a log. -/
inductive Error where
  | invalidFormatString
  | invalidLogMessage
  | missingLogArgument
  | invalidFormatSpecifier (c : Char)
  deriving DecidableEq, Repr

/-- The `Display` of an error. -/
def Error.display : Error → Str
  | .invalidFormatString => "Invalid format string".toList
  | .invalidLogMessage => "Invalid log message".toList
  | .missingLogArgument => "Missing log argument".toList
  | .invalidFormatSpecifier c => "Invalid format specifier: '".toList ++ [c] ++ "'".toList

/-- How a call leaves without a result. -/
inductive Exit where
  | err (error : Error)
  | panic
  deriving DecidableEq, Repr

abbrev Res (α : Type) := Except Exit α

/-- `ok_or`. -/
def okOr {α : Type} (o : Option α) (e : Error) : Res α :=
  match o with
  | some a => .ok a
  | none => .error (.err e)

inductive LogLevel where
  | debug | info | warning | error | unknown
  deriving DecidableEq, Repr

structure LogSection where
  level : LogLevel
  start : Nat
  «end» : Nat
  deriving DecidableEq, Repr

/-- A parsed log. -/
structure Log where
  timestamp : Float
  level : LogLevel
  message : Str
  fileName : Str
  lineNumber : Nat

structure ElfMetadata where
  timestampFreq : Float
  strings : Bytes
  logSections : List LogSection

def ElfMetadata.getLogSection (elf : ElfMetadata) (strPtr : Nat) : LogSection :=
  match elf.logSections.find? fun x => x.start ≤ strPtr && strPtr < x.end with
  | some section_ => section_
  | none => ⟨.unknown, 0, 0⟩

def ElfMetadata.recoverInternedString (elf : ElfMetadata) (strPtr : Nat) : Res Str :=
  if elf.strings.length < strPtr then .error .panic
  else do
    let strBuffer := elf.strings.drop strPtr
    let endOfString ← okOr (strBuffer.findIdx? (· == 0)) .invalidFormatString
    pure (Utf8.fromUtf8Lossy (strBuffer.take endOfString))

/-- `str::parse::<u32>`: decimal digits, with an optional plus sign. -/
def parseU32 (s : Str) : Option Nat :=
  let digits := match s with
    | '+' :: digits => digits
    | _ => s
  if digits ≠ [] ∧ digits.all Char.isDigit ∧ Nat.ofDigitChars 10 digits 0 < 2 ^ 32 then
    some (Nat.ofDigitChars 10 digits 0)
  else none

/-- `decode_format_string`: the file, the line and the format. -/
def decodeFormatString (internedString : Str) : Res (Str × Nat × Str) := do
  let splits := internedString.splitOn '@'
  let fileName ← okOr splits[0]? .invalidFormatString
  let line ← okOr splits[1]? .invalidFormatString
  let lineNumber ← okOr (parseU32 line) .invalidFormatString
  let format ← okOr splits[2]? .invalidFormatString
  pure (fileName, lineNumber, format)

section
variable (crates : Crates)

def decodeUnsigned (message : Bytes) : Res (Nat × Bytes) := okOr (crates.readUnsigned message) .invalidLogMessage

def decodeSigned (message : Bytes) : Res (Int × Bytes) := okOr (crates.readSigned message) .invalidLogMessage

/-- A handler appends to the output and takes its argument off the buffer. -/
abbrev FormatSpecHandler := Str → Bytes → Res (Str × Bytes)

/-- `char::from_u32`. -/
def charFromU32 (n : Nat) : Option Char := if n.isValidChar then some (Char.ofNat n) else none

def formatChar : FormatSpecHandler := fun outStr buffer => do
  let (integerVal, buffer) ← decodeUnsigned crates buffer
  let charVal ← okOr (charFromU32 (integerVal % 2 ^ 32)) .invalidLogMessage
  pure (outStr ++ [charVal], buffer)

/-- The handlers that print an unsigned integer. -/
def formatNumber (render : Nat → Str) : FormatSpecHandler := fun outStr buffer => do
  let (integerVal, buffer) ← decodeUnsigned crates buffer
  pure (outStr ++ render integerVal, buffer)

def formatUnsigned : FormatSpecHandler := formatNumber crates (Nat.toDigits 10)

def formatOctal : FormatSpecHandler := formatNumber crates (Nat.toDigits 8)

def formatHex : FormatSpecHandler := formatNumber crates (Nat.toDigits 16)

def formatPointer : FormatSpecHandler := formatNumber crates fun n => '0' :: 'x' :: Nat.toDigits 16 n

/-- The `Display` of an `i64`. -/
def displayInt (n : Int) : Str :=
  if n < 0 then '-' :: Nat.toDigits 10 n.natAbs else Nat.toDigits 10 n.natAbs

def formatSigned : FormatSpecHandler := fun outStr buffer => do
  let (integerVal, buffer) ← decodeSigned crates buffer
  pure (outStr ++ displayInt integerVal, buffer)

/-- The handler of `%s`. -/
def formatStr : FormatSpecHandler := fun outStr buffer => do
  let nulRangeEnd := (buffer.findIdx? (· == 0)).getD buffer.length
  let res ← okOr (Utf8.fromUtf8 (buffer.take nulRangeEnd)) .missingLogArgument
  if buffer.length < nulRangeEnd + 1 then .error .panic
  else pure (outStr ++ res, buffer.drop (nulRangeEnd + 1))

/-- The handler of `%k`. -/
def formatInterned (elf : ElfMetadata) : FormatSpecHandler := fun outStr buffer => do
  let (strPtr, buffer) ← decodeUnsigned crates buffer
  let internedString ← elf.recoverInternedString strPtr
  pure (outStr ++ internedString, buffer)

/-- The handler of `%%`. -/
def formatPercent : FormatSpecHandler := fun outStr buffer => pure (outStr ++ ['%'], buffer)

/-- `FORMAT_SPEC_TABLE`. -/
def formatSpecTable (elf : ElfMetadata) : List (Str × FormatSpecHandler) :=
  [("%s".toList, formatStr),
   ("%hhd".toList, formatSigned crates),
   ("%hd".toList, formatSigned crates),
   ("%d".toList, formatSigned crates),
   ("%ld".toList, formatSigned crates),
   ("%lld".toList, formatSigned crates),
   ("%hhu".toList, formatUnsigned crates),
   ("%hu".toList, formatUnsigned crates),
   ("%u".toList, formatUnsigned crates),
   ("%lu".toList, formatUnsigned crates),
   ("%llu".toList, formatUnsigned crates),
   ("%hho".toList, formatOctal crates),
   ("%ho".toList, formatOctal crates),
   ("%o".toList, formatOctal crates),
   ("%lo".toList, formatOctal crates),
   ("%llo".toList, formatOctal crates),
   ("%hhx".toList, formatHex crates),
   ("%hx".toList, formatHex crates),
   ("%x".toList, formatHex crates),
   ("%lx".toList, formatHex crates),
   ("%llx".toList, formatHex crates),
   ("%p".toList, formatPointer crates),
   ("%k".toList, formatInterned crates elf),
   ("%%".toList, formatPercent),
   ("%c".toList, formatChar crates)]

/-- The first entry of the table the text starts with. -/
def findSpec (elf : ElfMetadata) (format : Str) : Option (Str × FormatSpecHandler) :=
  (formatSpecTable crates elf).find? fun entry => entry.1.isPrefixOf format

/-- `format.find('%')`: the byte position of the first `%`. -/
def findPercent : Str → Option Nat
  | [] => none
  | c :: format => if c = '%' then some 0 else (findPercent format).map (c.utf8Size + ·)

theorem findSpec_spec {crates : Crates} {elf : ElfMetadata} {format : Str} {entry : Str × FormatSpecHandler}
    (h : findSpec crates elf format = some entry) : entry.1 <+: format ∧ 2 ≤ Utf8.size entry.1 := by
  have hmem := List.mem_of_find?_eq_some h
  have hp : entry.1 <+: format := List.isPrefixOf_iff_prefix.mp
    (List.find?_some (p := fun entry : Str × FormatSpecHandler => entry.1.isPrefixOf format) h)
  refine ⟨hp, ?_⟩
  have all : ∀ spec ∈ (formatSpecTable crates elf).map Prod.fst, 2 ≤ Utf8.size spec := by
    simp only [formatSpecTable, List.map_cons, List.map_nil]
    decide
  exact all _ (List.mem_map_of_mem hmem)

/-- The loop of `format_string`, from the format that is left: the entries it
selects, in order, and what it returns. `%` is found by its byte position and
skipped to by that many characters; the `ok_or` of the lookup evaluates
`format.chars().next().unwrap()` first, whatever the lookup gives. -/
def formatLoop (elf : ElfMetadata) (format formattedStr : Str) (arguments : Bytes) : List Str × Res Str :=
  match findPercent format with
  | none => ([], .ok (formattedStr ++ format))
  | some formatSpecPos =>
    match _hrest : format.drop formatSpecPos with
    | [] => ([], .error .panic)
    | c :: rest =>
      match _hfind : findSpec crates elf (c :: rest) with
      | none => ([], .error (.err (.invalidFormatSpecifier c)))
      | some (formatSpec, handler) =>
        match handler (formattedStr ++ format.take formatSpecPos) arguments with
        | .error exit => ([formatSpec], .error exit)
        | .ok (formattedStr, arguments) =>
          let (selected, result) :=
            formatLoop elf ((c :: rest).drop (Utf8.size formatSpec)) formattedStr arguments
          (formatSpec :: selected, result)
termination_by format.length
decreasing_by
  have hlen : (format.drop formatSpecPos).length = (c :: rest).length := by rw [_hrest]
  have hsize := (findSpec_spec _hfind).2
  simp only [List.length_drop, List.length_cons] at hlen hsize ⊢
  omega

/-- `Decoder::format_string`. -/
def formatString (elf : ElfMetadata) (format : Str) (arguments : Bytes) : Res Str :=
  (formatLoop crates elf format [] arguments).2

/-- `Decoder::decode`. -/
def decode (elf : ElfMetadata) (buffer : Bytes) : Res Log := do
  let (ticks, buffer) ← okOr (crates.readUnsigned buffer) .invalidLogMessage
  let timestamp := (UInt64.ofNat ticks).toFloat / elf.timestampFreq
  let (strPtr, buffer) ← decodeUnsigned crates buffer
  let internedString ← elf.recoverInternedString strPtr
  let (fileName, lineNumber, format) ← decodeFormatString internedString
  let formattedStr ← formatString crates elf format buffer
  let logSection := elf.getLogSection strPtr
  pure ⟨timestamp, logSection.level, formattedStr, fileName, lineNumber⟩

end

end Postform.Host
