import Mathlib.Tactic.IntervalCases
import Postform.Lib.Digits
import Postform.Rendering

/- Integer rendering. `printfText` is what `printf` prints for a value of an
   integral type; a handler renders the value when it makes that text of the
   bytes `vlog` wrote. The width of the type is not transmitted and the sign only
   in the group's last byte, which the handlers of `%o`, `%x` and `%c` read as
   unsigned: for a negative value they get it plus one turn of the group's own
   range, or nothing, and never the value's bit pattern. -/
namespace Postform

open Wire Host

/-- The value's bit pattern at `sizeof(T)`. -/
def IntType.pattern (p : Platform) (t : IntType) (v : Int) : Nat := (v % 2 ^ t.bits p).toNat

/-- What `printf` prints for the value of an integral type; `none` for the
conversions that are not in question here. -/
def printfText (p : Platform) (t : IntType) (v : Int) : Conv → Option Str
  | .int _ .d => some (toString v).toList
  | .int _ .u => some (toString v).toList
  | .int _ .o => some (Nat.toDigits 8 (t.pattern p v))
  | .int _ .x => some (Nat.toDigits 16 (t.pattern p v))
  | .c => some [Char.ofNat (v % 256).toNat]
  | _ => none

/-- The handler of the conversion makes this text of an argument, whatever was
printed before and whatever bytes follow. -/
def Renders {p : Platform} (cv : Conv) (a : Arg p) (text : Str) : Prop :=
  ∀ (crates : Crates) (elf : ElfMetadata) (x : Argument p), crates.Documented → makeArg a = some x →
    ∃ spec handler, findSpec crates elf (convSpec cv) = some (spec, handler) ∧
      ∀ out rest, handler out (x.wire ++ rest) = .ok (out ++ text, rest)

/-! The values of the integral types. -/

theorem IntType.bits_cases (p : Platform) (t : IntType) : t.bits p ∈ [8, 16, 32, 64] := by
  cases t <;> simp [IntType.bits, IntType.size, Platform.longSize]

theorem IntType.InRange.char_bounds {p : Platform} {t : IntType} {v : Int} (h : t.InRange p v)
    (hchar : (ArgType.integral t).isChar = true) : -128 ≤ v ∧ v < 256 := by
  cases t with
  | char | schar | uchar =>
    simp only [IntType.InRange, IntType.bits, IntType.size] at h
    split at h
    · omega
    split at h <;> omega
  | _ => cases hchar

theorem IntType.InRange.pattern {p : Platform} {t : IntType} {v : Int} (h : t.InRange p v) :
    (t.pattern p v : Int) = if 0 ≤ v then v else v + 2 ^ t.bits p := by
  have hpos : (0 : Int) < 2 ^ (t.bits p - 1) := Int.pow_pos (by decide)
  have hpow : (2 : Int) ^ t.bits p = 2 * 2 ^ (t.bits p - 1) := by
    rw [← Int.pow_succ', Nat.sub_add_cancel]
    have hbits := t.bits_cases p
    simp at hbits
    omega
  have hlo : -2 ^ t.bits p ≤ v ∧ v < 2 ^ t.bits p := by
    simp only [IntType.InRange] at h
    split at h
    · omega
    split at h <;> omega
  rw [IntType.pattern, Int.toNat_of_nonneg (Int.emod_nonneg _ (by omega))]
  split
  · rw [Int.emod_eq_of_lt (by omega) hlo.2]
  · rw [← Int.add_emod_right, Int.emod_eq_of_lt (by omega) (by omega)]

theorem wire_integral {p : Platform} {t : IntType} {v : Int} {h : t.InRange p v} {x : Argument p}
    (hx : makeArg (.integral t v h) = some x) :
    Leb128.IsGroup x.wire ∧ x.wire.length ≤ 10 ∧
      if t.isSigned p then Leb128.signedValue x.wire = v else Leb128.value x.wire = v.toNat := by
  obtain ⟨hlo, hhi, hs, hu⟩ := h.bounds
  simp only [makeArg] at hx
  split at hx
  · next hsigned =>
    cases hx
    obtain ⟨hg, hv, hl⟩ := writeLeb128Signed_spec (w := 64) (by decide) (BitVec.ofInt 64 v)
    refine ⟨hg, hl, ?_⟩
    rw [if_pos hsigned, Argument.wire, hv, BitVec.toInt_ofInt_eq_self (by decide) (by omega) (by have := hs hsigned; omega)]
  · next hsigned =>
    cases hx
    obtain ⟨hg, hv, hl⟩ := writeLeb128Unsigned_spec (w := 64) (by decide) (BitVec.ofInt 64 v)
    refine ⟨hg, hl, ?_⟩
    have h0 := hu (by simpa using hsigned)
    rw [if_neg hsigned, Argument.wire, hv, BitVec.toNat_ofInt, Int.emod_eq_of_lt h0 (by omega)]

section
variable {p : Platform} {t : IntType} {v : Int} {h : t.InRange p v} {x : Argument p}
  (hx : makeArg (.integral t v h) = some x)
include hx

theorem readU64_integral (h0 : 0 ≤ v) (rest : Bytes) : Leb128.readU64 (x.wire ++ rest) = some (v.toNat, rest) := by
  obtain ⟨hg, hl, hv⟩ := wire_integral hx
  obtain ⟨-, hhi, hs, -⟩ := h.bounds
  split at hv
  · next hsigned =>
    have := hs hsigned
    rw [Leb128.readU64_signed_nonneg hg hl (by omega) (by omega), hv]
  · rw [Leb128.readU64_group hg hl (by omega), hv]

theorem readS64_integral (hsigned : t.isSigned p) (rest : Bytes) :
    Leb128.readS64 (x.wire ++ rest) = some (v, rest) := by
  obtain ⟨hg, hl, hv⟩ := wire_integral hx
  obtain ⟨hlo, -, hs, -⟩ := h.bounds
  have := hs hsigned
  rw [if_pos hsigned] at hv
  rw [Leb128.readS64_group hg hl (by omega) (by omega), hv]

/-- A negative value has the unsigned value of its group one turn higher, and
is not read at all where the group has ten bytes. -/
theorem readU64_negative (hneg : v < 0) :
    (Leb128.value x.wire : Int) = v + 128 ^ x.wire.length ∧ ∀ rest, Leb128.readU64 (x.wire ++ rest) =
      if x.wire.length < 10 then some (Leb128.value x.wire, rest) else none := by
  obtain ⟨hg, hl, hv⟩ := wire_integral hx
  obtain ⟨hlo, -, -, hu⟩ := h.bounds
  have hsigned : t.isSigned p := by
    by_contra hn
    have := hu (by simpa using hn)
    omega
  rw [if_pos hsigned] at hv
  have hval : Leb128.signedValue x.wire = Leb128.value x.wire - 128 ^ x.wire.length := by
    rcases Leb128.signedValue_eq hg with ⟨h0, -⟩ | ⟨-, he⟩
    · omega
    · exact he
  rw [hv] at hval
  refine ⟨by omega, fun rest => ?_⟩
  rw [Leb128.readU64_signed_neg hg hl (by omega) (by omega), hv]
  have : (v + 128 ^ x.wire.length).toNat = Leb128.value x.wire := by omega
  rw [this]

/-- No group has the range of an integral type. -/
theorem value_ne_pattern (hneg : v < 0) : Leb128.value x.wire ≠ t.pattern p v := by
  obtain ⟨hval, -⟩ := readU64_negative hx hneg
  have hpat := h.pattern
  rw [if_neg (by omega)] at hpat
  intro heq
  rw [heq, hpat] at hval
  -- the range of the type, a power of 2 ^ 8, would be one of the group, a power of 2 ^ 7
  have hturn : (2 : Int) ^ t.bits p = 128 ^ x.wire.length := by omega
  have hpow : (2 : Nat) ^ t.bits p = 2 ^ (7 * x.wire.length) := by
    calc (2 : Nat) ^ t.bits p = 128 ^ x.wire.length := by exact_mod_cast hturn
      _ = 2 ^ (7 * x.wire.length) := by rw [pow_mul]; norm_num
  have := Nat.pow_right_injective (Nat.le_refl 2) hpow
  have hbits := t.bits_cases p
  simp at hbits
  omega

end

theorem displayInt_eq (v : Int) : displayInt v = (toString v).toList := by
  rw [Int.toString_eq_repr, Int.repr_eq_if, displayInt]
  split
  · next hneg =>
    have habs : (-v).toNat = v.natAbs := by omega
    rw [if_neg (by omega), habs]
    simp
  · next hneg =>
    have habs : v.toNat = v.natAbs := by omega
    rw [if_pos (by omega), habs]
    simp

theorem toString_toNat {v : Int} (h : 0 ≤ v) : Nat.toDigits 10 v.toNat = (toString v).toList := by
  have habs : v.toNat = v.natAbs := by omega
  rw [← displayInt_eq, displayInt, if_neg (by omega), habs]

/-! Each conversion. -/

theorem renders_iff {p : Platform} {cv : Conv} {k : Kind} {a : Arg p} {text : Str}
    (hkind : convKind cv = some k) : Renders cv a text ↔
      ∀ (crates : Crates) (elf : ElfMetadata) (x : Argument p), crates.Documented → makeArg a = some x →
        ∀ out rest, k.handler crates elf out (x.wire ++ rest) = .ok (out ++ text, rest) := by
  simp only [Renders, findSpec_conv, hkind, Option.map_some, Option.some.injEq, Prod.mk.injEq]
  constructor
  · intro h crates elf x hcrates hx
    obtain ⟨_, _, ⟨-, rfl⟩, hrun⟩ := h crates elf x hcrates hx
    exact hrun
  · intro h crates elf x hcrates hx
    exact ⟨_, _, ⟨rfl, rfl⟩, h crates elf x hcrates hx⟩

section
variable {p : Platform} {t : IntType} {v : Int} {h : t.InRange p v}

theorem renders_d (hsigned : t.isSigned p) (size : Size) :
    Renders (.int size .d) (.integral t v h) (toString v).toList := by
  rw [renders_iff (k := .signed) rfl]
  intro crates elf x hcrates hx out rest
  rw [Kind.handler, formatSigned_eq, hcrates.readSigned, readS64_integral hx hsigned, ← displayInt_eq]

theorem formatNumber_nonneg {crates : Crates} (hcrates : crates.Documented) {x : Argument p}
    (hx : makeArg (.integral t v h) = some x) (h0 : 0 ≤ v) (render : Nat → Str) (out : Str) (rest : Bytes) :
    formatNumber crates render out (x.wire ++ rest) = .ok (out ++ render v.toNat, rest) := by
  rw [formatNumber_eq, hcrates.readUnsigned, readU64_integral hx h0]

theorem pattern_nonneg (h : t.InRange p v) (h0 : 0 ≤ v) : t.pattern p v = v.toNat := by
  have := h.pattern
  rw [if_pos h0] at this
  omega

/-- A value that is not negative is rendered under every conversion. -/
theorem renders_nonneg (h0 : 0 ≤ v) {cv : Conv} (hacc : cv.accepts p (.integral t) = true) {text : Str}
    (htext : printfText p t v cv = some text) : Renders cv (.integral t v h) text := by
  cases cv with
  | int size letter =>
    cases letter with
    | d =>
      cases htext
      simp only [Conv.accepts, IntLetter.accepts, ArgType.isSignedIntegral, Bool.and_eq_true] at hacc
      exact renders_d hacc.1 size
    | i => cases htext
    | u =>
      cases htext
      rw [renders_iff (k := .unsigned) rfl]
      intro crates elf x hcrates hx out rest
      rw [Kind.handler, formatUnsigned, formatNumber_nonneg hcrates hx h0, toString_toNat h0]
    | o =>
      cases htext
      rw [renders_iff (k := .octal) rfl]
      intro crates elf x hcrates hx out rest
      rw [Kind.handler, formatOctal, formatNumber_nonneg hcrates hx h0, pattern_nonneg h h0]
    | x =>
      cases htext
      rw [renders_iff (k := .hex) rfl]
      intro crates elf x hcrates hx out rest
      rw [Kind.handler, formatHex, formatNumber_nonneg hcrates hx h0, pattern_nonneg h h0]
  | c =>
    cases htext
    rw [renders_iff (k := .char) rfl]
    intro crates elf x hcrates hx out rest
    obtain ⟨-, hlt⟩ := h.char_bounds hacc
    have hn : v.toNat % 2 ^ 32 = v.toNat := Nat.mod_eq_of_lt (by omega)
    have hvalid : v.toNat.isValidChar := .inl (by omega)
    rw [Kind.handler, formatChar_eq, hcrates.readUnsigned, readU64_integral hx h0]
    simp only [hn, hvalid, if_true]
    rw [Int.emod_eq_of_lt h0 hlt]
  | _ => cases htext

theorem toNat_charOfNat {n : Nat} (hn : n.isValidChar) : (Char.ofNat n).toNat = n := by
  rw [Char.ofNat, dif_pos hn]
  rfl

/-- A negative value is not rendered under `%o` and `%x`. -/
theorem not_formatNumber_negative {x : Argument p} (hx : makeArg (.integral t v h) = some x) (hneg : v < 0) {b : Nat}
    (hb : 1 < b) (hb16 : b ≤ 16) : formatNumber Crates.reference (Nat.toDigits b) [] (x.wire ++ []) ≠
      .ok ([] ++ Nat.toDigits b (t.pattern p v), []) := by
  obtain ⟨-, hread⟩ := readU64_negative hx hneg
  rw [formatNumber_eq, show Crates.reference.readUnsigned = Leb128.readU64 from rfl, hread]
  by_cases h10 : x.wire.length < 10
  · simp only [h10, if_true, List.nil_append, ne_eq, Except.ok.injEq, Prod.mk.injEq, and_true]
    exact fun heq => value_ne_pattern hx hneg (Digits.toDigits_inj hb hb16 heq)
  · simp [h10]

theorem not_formatChar_negative {x : Argument p} (hx : makeArg (.integral t v h) = some x) (hneg : v < 0)
    (hchar : (ArgType.integral t).isChar = true) : formatChar Crates.reference [] (x.wire ++ []) ≠
      .ok ([] ++ [Char.ofNat (v % 256).toNat], []) := by
  obtain ⟨hval, hread⟩ := readU64_negative hx hneg
  obtain ⟨hlo, -⟩ := h.char_bounds hchar
  rw [formatChar_eq, show Crates.reference.readUnsigned = Leb128.readU64 from rfl, hread]
  by_cases h10 : x.wire.length < 10
  · simp only [h10, if_true]
    by_cases hvalid : (Leb128.value x.wire % 2 ^ 32).isValidChar
    · simp only [hvalid, if_true, List.nil_append, ne_eq, Except.ok.injEq, Prod.mk.injEq, and_true, List.cons.injEq]
      intro heq
      have hn := congrArg Char.toNat heq
      rw [toNat_charOfNat hvalid, toNat_charOfNat (.inl (by omega))] at hn
      -- the group's range is no power that turns the value into its byte
      generalize x.wire.length = k at h10 hval
      interval_cases k <;> omega
    · simp only [hvalid, if_false, ne_eq, reduceCtorEq, not_false_eq_true]
  · simp [h10]

end

theorem accepts_of_formatValidator {p : Platform} {cv : Conv} {T : ArgType}
    (h : formatValidator p (convSpec cv) [T] = true) : cv.accepts p T = true := by
  obtain ⟨ps, -, hconvs, hacc⟩ := accepted_pieces h
  have hcv : conversions (convSpec cv) = [cv] := by
    have := conversions_text [.conv cv]
    simpa [text, Piece.text, convSpec] using this
  rw [← hconvs, hcv, List.forall₂_cons] at hacc
  exact hacc.1

/-- **Integer rendering** is what `printf` defines exactly for `%d` and for the
    values that are not negative. -/
theorem integer_text_iff (p : Platform) (t : IntType) (v : Int) (h : t.InRange p v) (cv : Conv) (text : Str)
    (haccepts : formatValidator p (convSpec cv) [.integral t] = true) (htext : printfText p t v cv = some text) :
    Renders cv (.integral t v h) text ↔ (∃ size, cv = .int size .d) ∨ 0 ≤ v := by
  have hacc := accepts_of_formatValidator haccepts
  constructor
  · intro hr
    by_contra hcond
    rw [not_or, not_le] at hcond
    obtain ⟨hd, hneg⟩ := hcond
    obtain ⟨x, hx⟩ := makeArg_of_loggable (a := Arg.integral t v h) (by rfl)
    have hsigned : t.isSigned p := by
      by_contra hn
      have := h.bounds.2.2.2 (by simpa using hn)
      omega
    cases cv with
    | int size letter =>
      cases letter with
      | d => exact hd ⟨size, rfl⟩
      | i => cases htext
      | u => simp [Conv.accepts, IntLetter.accepts, ArgType.isUnsignedIntegral, hsigned] at hacc
      | o =>
        cases htext
        rw [renders_iff (k := .octal) rfl] at hr
        exact not_formatNumber_negative hx hneg (by decide) (by decide)
          (hr _ emptyString x Crates.reference_documented hx [] [])
      | x =>
        cases htext
        rw [renders_iff (k := .hex) rfl] at hr
        exact not_formatNumber_negative hx hneg (by decide) (by decide)
          (hr _ emptyString x Crates.reference_documented hx [] [])
    | c =>
      cases htext
      rw [renders_iff (k := .char) rfl] at hr
      exact not_formatChar_negative hx hneg hacc (hr _ emptyString x Crates.reference_documented hx [] [])
    | _ => cases htext
  · intro hcase
    rcases hcase with ⟨size, rfl⟩ | h0
    · cases htext
      simp only [Conv.accepts, IntLetter.accepts, ArgType.isSignedIntegral, Bool.and_eq_true] at hacc
      exact renders_d hacc.1 size
    · exact renders_nonneg h0 hacc htext

theorem integer_text_minus_five : Renders (p := ⟨true, true, true⟩) (.int .hh .d)
    (.integral .schar (-5) (by decide)) "-5".toList :=
  (integer_text_iff ⟨true, true, true⟩ .schar (-5) (by decide) (.int .hh .d) "-5".toList (by decide)
    (by decide)).mpr (.inl ⟨.hh, rfl⟩)

/-- `%x` with the `int` -1 prints 7f. -/
theorem percent_x_negative_fails :
    ¬∀ (p : Platform) (t : IntType) (v : Int) (h : t.InRange p v) (cv : Conv) (text : Str),
      formatValidator p (convSpec cv) [.integral t] = true → printfText p t v cv = some text →
      Renders cv (.integral t v h) text := by
  intro hall
  have hr := hall ⟨true, true, true⟩ .int (-1) (by decide) (.int .default .x) "ffffffff".toList (by decide) (by decide)
  obtain ⟨_, _, hfind, hrun⟩ := hr Crates.reference emptyString (.signedInteger (BitVec.ofInt 64 (-1)))
    Crates.reference_documented rfl
  rw [findSpec_conv] at hfind
  cases hfind
  have h7f : formatHex Crates.reference [] (Argument.wire (p := ⟨true, true, true⟩)
      (.signedInteger (BitVec.ofInt 64 (-1))) ++ []) = .ok ("7f".toList, []) := rfl
  have hcontra := (hrun [] []).symm.trans h7f
  revert hcontra
  decide

end Postform
