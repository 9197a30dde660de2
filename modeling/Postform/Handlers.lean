import Postform.FormatString

/- The handlers of `FORMAT_SPEC_TABLE`, by cases. Each is one equation over what
   it reads: a number off the front, a string up to its NUL, a string of the
   table. The one error they never return is that of an unknown specifier. -/
namespace Postform.Host

open Wire

section
variable (crates : Crates) (elf : ElfMetadata)

theorem formatStr_eq (out : Str) (b : Bytes) :
    formatStr out b = match Utf8.fromUtf8 (b.take (b.idxOf 0)) with
      | none => .error (.err .missingLogArgument)
      | some res => if 0 ∈ b then .ok (out ++ res, b.drop (b.idxOf 0 + 1)) else .error .panic := by
  have hidx : (b.findIdx? (· == 0)).getD b.length = b.idxOf 0 := List.findIdx_eq_getD_findIdx?.symm
  have hmem : b.length < b.idxOf 0 + 1 ↔ 0 ∉ b := by
    rw [← List.idxOf_lt_length_iff]; omega
  simp only [formatStr, hidx]
  cases Utf8.fromUtf8 (b.take (b.idxOf 0)) with
  | none => rfl
  | some res =>
    simp only [okOr, hmem]
    by_cases h : 0 ∈ b <;> simp [h, Bind.bind, Except.bind, Pure.pure, Except.pure]

theorem recoverInternedString_eq (ptr : Nat) :
    elf.recoverInternedString ptr =
      if elf.strings.length < ptr then .error .panic
      else if 0 ∈ elf.strings.drop ptr then
        .ok (Utf8.fromUtf8Lossy ((elf.strings.drop ptr).take ((elf.strings.drop ptr).idxOf 0)))
      else .error (.err .invalidFormatString) := by
  simp only [ElfMetadata.recoverInternedString]
  split
  · rfl
  · generalize elf.strings.drop ptr = b
    split
    · next h =>
      have hidx : b.findIdx? (· == 0) = some (b.idxOf 0) := by
        have hlt := List.idxOf_lt_length_iff.mpr h
        have hget := @List.findIdx_eq_getD_findIdx? _ b (· == 0)
        cases hf : b.findIdx? (· == 0) with
        | none => rw [List.findIdx?_eq_none_iff] at hf; simpa using hf 0 h
        | some i => rw [hf] at hget; exact congrArg some hget.symm
      rw [hidx]
      rfl
    · next h =>
      have hidx : b.findIdx? (· == 0) = none := by
        rw [List.findIdx?_eq_none_iff]
        intro x hx
        simp only [beq_eq_false_iff_ne]
        intro heq
        subst heq
        exact h hx
      rw [hidx]
      rfl

theorem formatNumber_eq (render : Nat → Str) (out : Str) (b : Bytes) :
    formatNumber crates render out b = match crates.readUnsigned b with
      | none => .error (.err .invalidLogMessage)
      | some (n, rest) => .ok (out ++ render n, rest) := by
  simp only [formatNumber, decodeUnsigned]
  cases crates.readUnsigned b <;> rfl

theorem formatSigned_eq (out : Str) (b : Bytes) :
    formatSigned crates out b = match crates.readSigned b with
      | none => .error (.err .invalidLogMessage)
      | some (n, rest) => .ok (out ++ displayInt n, rest) := by
  simp only [formatSigned, decodeSigned]
  cases crates.readSigned b <;> rfl

theorem formatChar_eq (out : Str) (b : Bytes) :
    formatChar crates out b = match crates.readUnsigned b with
      | none => .error (.err .invalidLogMessage)
      | some (n, rest) =>
        if (n % 2 ^ 32).isValidChar then .ok (out ++ [Char.ofNat (n % 2 ^ 32)], rest)
        else .error (.err .invalidLogMessage) := by
  simp only [formatChar, decodeUnsigned]
  cases crates.readUnsigned b with
  | none => rfl
  | some r =>
    simp only [okOr, Bind.bind, Except.bind, charFromU32]
    by_cases h : (r.1 % 2 ^ 32).isValidChar <;>
      simp only [h, if_true, if_false, Pure.pure, Except.pure]

theorem formatInterned_eq (out : Str) (b : Bytes) :
    formatInterned crates elf out b = match crates.readUnsigned b with
      | none => .error (.err .invalidLogMessage)
      | some (ptr, rest) =>
        match elf.recoverInternedString ptr with
        | .error exit => .error exit
        | .ok str => .ok (out ++ str, rest) := by
  simp only [formatInterned, decodeUnsigned]
  cases crates.readUnsigned b with
  | none => rfl
  | some r =>
    simp only [okOr, Bind.bind, Except.bind]
    cases elf.recoverInternedString r.1 <;> rfl

theorem handler_ne_invalidFormatSpecifier (k : Kind) (out : Str) (b : Bytes) (c : Char) :
    k.handler crates elf out b ≠ .error (.err (.invalidFormatSpecifier c)) := by
  have number (render : Nat → Str) :
      formatNumber crates render out b ≠ .error (.err (.invalidFormatSpecifier c)) := by
    rw [formatNumber_eq]
    cases crates.readUnsigned b <;> simp
  cases k with
  | str =>
    simp only [Kind.handler, formatStr_eq]
    cases Utf8.fromUtf8 (b.take (b.idxOf 0)) with
    | none => simp
    | some res => by_cases h : 0 ∈ b <;> simp [h]
  | signed =>
    simp only [Kind.handler, formatSigned_eq]
    cases crates.readSigned b <;> simp
  | unsigned => exact number _
  | octal => exact number _
  | hex => exact number _
  | pointer => exact number fun n => '0' :: 'x' :: Nat.toDigits 16 n
  | interned =>
    simp only [Kind.handler, formatInterned_eq]
    cases crates.readUnsigned b with
    | none => simp
    | some r =>
      simp only [recoverInternedString_eq]
      by_cases h1 : elf.strings.length < r.1 <;> by_cases h2 : 0 ∈ elf.strings.drop r.1 <;> simp [h1, h2]
  | percent => simp [Kind.handler, formatPercent, Pure.pure, Except.pure]
  | char =>
    simp only [Kind.handler, formatChar_eq]
    cases crates.readUnsigned b with
    | none => simp
    | some r => by_cases h : (r.1 % 2 ^ 32).isValidChar <;> simp only [h, if_true, if_false] <;> simp

end

end Postform.Host
