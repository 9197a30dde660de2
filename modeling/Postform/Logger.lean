import Postform.Args
import Postform.Lib.Leb128

/- The target's half of a log call: `Logger::log` filters by level and packs the
   arguments, `vlog` serialises the timestamp and every packed argument with one
   `writer.write` each. Numbers go out as LEB128, which `writeLeb128` builds in a
   buffer of fixed size; the two loops are modelled over the machine words they
   run on and give `none` where they would write past that buffer, which they
   never do (`leb128UnsignedLoop_spec`, `leb128SignedLoop_spec`).

   The spec lemmas say what the loops write in the terms of the LEB128 library:
   one group that denotes the value. -/
namespace Postform

open Wire

abbrev Bytes := List UInt8

/-- `MAX_BUF_SIZE` for a type of `w` bits. -/
def maxBufSize (w : Nat) : Nat := (w + 6) / 7

/-- The loop of `writeLeb128` for unsigned types; `room` bytes of `buffer` are
free. -/
def leb128UnsignedLoop {w : Nat} : Nat → BitVec w → Option Bytes
  | 0, _ => none
  | room + 1, value =>
    let byte := UInt8.ofNat (value &&& 0x7F#w).toNat
    let value := value >>> 7
    if value = 0 then some [byte]
    else (leb128UnsignedLoop room value).map ((byte ||| 0x80) :: ·)

/-- The loop of `writeLeb128` for signed types. The sign is put back by hand
after the shift. -/
def leb128SignedLoop {w : Nat} (negative : Bool) : Nat → BitVec w → Option Bytes
  | 0, _ => none
  | room + 1, value =>
    let byte := UInt8.ofNat (value &&& 0x7F#w).toNat
    let value := value.sshiftRight 7
    let value := if negative then value ||| (0x7F#w <<< (w - 7)) else value
    if value = -1 ∧ byte &&& 0x40 ≠ 0 then some [byte]
    else if value = 0 ∧ byte &&& 0x40 = 0 then some [byte]
    else (leb128SignedLoop negative room value).map ((byte ||| 0x80) :: ·)

/-! The arithmetic of one turn of the loops. -/

theorem low7_toNat {w : Nat} (hw : 8 ≤ w) (v : BitVec w) :
    (UInt8.ofNat (v &&& 0x7F#w).toNat).toNat = v.toNat % 128 := by
  have h7 : (0x7F#w).toNat = 2 ^ 7 - 1 := by
    rw [BitVec.toNat_ofNat]
    exact Nat.mod_eq_of_lt (Nat.lt_of_lt_of_le (by decide) (Nat.pow_le_pow_right (by decide) hw))
  rw [BitVec.toNat_and, h7, Nat.and_two_pow_sub_one_eq_mod, UInt8.toNat_ofNat']
  omega

theorem shiftRight7_toNat {w : Nat} (v : BitVec w) : (v >>> 7).toNat = v.toNat / 128 := by
  rw [BitVec.toNat_ushiftRight, Nat.shiftRight_eq_div_pow]

theorem or80_toNat {b : UInt8} (hb : b.toNat < 128) : (b ||| 0x80).toNat = b.toNat + 128 := by
  have all : ∀ i : Fin 128, (UInt8.ofNat i.val ||| 0x80).toNat = i.val + 128 := by decide
  have h := all ⟨b.toNat, hb⟩
  rwa [UInt8.ofNat_toNat] at h

theorem and40_eq_zero {b : UInt8} (hb : b.toNat < 128) : b &&& 0x40 = 0 ↔ b.toNat < 64 := by
  have all : ∀ i : Fin 128, UInt8.ofNat i.val &&& 0x40 = 0 ↔ i.val < 64 := by decide
  have h := all ⟨b.toNat, hb⟩
  rwa [UInt8.ofNat_toNat] at h

theorem toNat_mod_eq_toInt_emod {w : Nat} (hw : 8 ≤ w) (v : BitVec w) :
    (v.toNat % 128 : Nat) = v.toInt % 128 := by
  obtain ⟨k, hk⟩ : ∃ k, (2 : Int) ^ w = 128 * k := by
    obtain ⟨n, rfl⟩ := Nat.exists_eq_add_of_le (show 7 ≤ w by omega)
    exact ⟨2 ^ n, by rw [pow_add]; norm_num⟩
  rw [BitVec.toInt_eq_toNat_cond]
  split
  · simp
  · push_cast
    rw [hk]
    omega

/-- Putting the sign back changes nothing: the shift was arithmetic. -/
theorem sshiftRight_or_sign {w : Nat} {v : BitVec w} (hv : v.toInt < 0) :
    v.sshiftRight 7 ||| (0x7F#w <<< (w - 7)) = v.sshiftRight 7 := by
  have hmsb : v.msb = true := by
    rw [BitVec.msb_eq_toInt]; simpa using hv
  apply BitVec.eq_of_getLsbD_eq
  intro i hi
  rw [BitVec.getLsbD_or, BitVec.getLsbD_sshiftRight]
  by_cases h : 7 + i < w
  · have : (0x7F#w <<< (w - 7)).getLsbD i = false := by
      rw [BitVec.getLsbD_shiftLeft]
      simp; omega
    rw [this, Bool.or_false]
  · simp [h, hmsb, hi]

theorem sshiftRight_sign {w : Nat} {v : BitVec w} {negative : Bool} (hneg : negative = true ↔ v.toInt < 0) :
    (if negative then v.sshiftRight 7 ||| (0x7F#w <<< (w - 7)) else v.sshiftRight 7) =
      v.sshiftRight 7 := by
  split
  · next h => exact sshiftRight_or_sign (hneg.mp h)
  · rfl

theorem sshiftRight7_toInt {w : Nat} (v : BitVec w) : (v.sshiftRight 7).toInt = v.toInt / 128 := by
  rw [BitVec.toInt_sshiftRight, Int.shiftRight_eq_div_pow]
  norm_num

/-! What the loops write. -/

theorem leb128UnsignedLoop_spec {w : Nat} (hw : 8 ≤ w) : ∀ (room : Nat) (v : BitVec w),
    v.toNat < 128 ^ (room + 1) →
    ∃ g, leb128UnsignedLoop (room + 1) v = some g ∧ Leb128.IsGroup g ∧ Leb128.value g = v.toNat ∧
      g.length ≤ room + 1 := by
  intro room
  induction room with
  | zero =>
    intro v hv
    have hb := low7_toNat hw v
    have hz : v >>> 7 = 0 := BitVec.eq_of_toNat_eq (by rw [shiftRight7_toNat]; simp at hv ⊢; omega)
    refine ⟨[UInt8.ofNat (v &&& 0x7F#w).toNat], by simp only [leb128UnsignedLoop, hz, if_true], ?_, ?_,
      Nat.le_refl _⟩
    · simp only [Leb128.IsGroup, hb]; omega
    · simp only [Leb128.value, hb]; simp at hv; omega
  | succ room ih =>
    intro v hv
    have hb := low7_toNat hw v
    rw [leb128UnsignedLoop]
    by_cases hz : v >>> 7 = 0
    · have hv0 := congrArg BitVec.toNat hz
      rw [shiftRight7_toNat] at hv0
      simp only [BitVec.ofNat_eq_ofNat, BitVec.toNat_ofNat, Nat.zero_mod] at hv0
      refine ⟨_, if_pos hz, ?_, ?_, by simp⟩
      · simp only [Leb128.IsGroup, hb]; omega
      · simp only [Leb128.value, hb]; omega
    · have hlt : (v >>> 7).toNat < 128 ^ (room + 1) := by
        rw [shiftRight7_toNat, Nat.div_lt_iff_lt_mul (by decide)]
        rwa [pow_succ] at hv
      obtain ⟨g, hg, hgroup, hval, hlen⟩ := ih (v >>> 7) hlt
      refine ⟨(UInt8.ofNat (v &&& 0x7F#w).toNat ||| 0x80) :: g, by simp only [if_neg hz, hg, Option.map_some],
        ?_, ?_, by simpa using hlen⟩
      · exact Leb128.isGroup_cons (by rw [or80_toNat (by omega)]; omega) hgroup
      · rw [Leb128.value, or80_toNat (by omega), hb, hval, shiftRight7_toNat]
        omega

theorem leb128_last {w : Nat} (hw : 8 ≤ w) (v : BitVec w) (h : -64 ≤ v.toInt ∧ v.toInt < 64) :
    Leb128.signedValue [UInt8.ofNat (v &&& 0x7F#w).toNat] = v.toInt := by
  have hm := toNat_mod_eq_toInt_emod hw v
  simp only [Leb128.signedValue, low7_toNat hw]
  split <;> omega

theorem leb128_stop {w : Nat} (hw : 8 ≤ w) (v : BitVec w) :
    let byte := UInt8.ofNat (v &&& 0x7F#w).toNat
    (v.sshiftRight 7 = -1 ∧ byte &&& 0x40 ≠ 0 ∨ v.sshiftRight 7 = 0 ∧ byte &&& 0x40 = 0) ↔
      -64 ≤ v.toInt ∧ v.toInt < 64 := by
  intro byte
  have hb : byte.toNat = v.toNat % 128 := low7_toNat hw v
  have hm := toNat_mod_eq_toInt_emod hw v
  have h40 := and40_eq_zero (b := byte) (by omega)
  have hneg1 : v.sshiftRight 7 = -1 ↔ v.toInt / 128 = -1 := by
    rw [← BitVec.toInt_inj, sshiftRight7_toInt, BitVec.ofNat_eq_ofNat, BitVec.neg_one_eq_allOnes, BitVec.toInt_allOnes,
      if_pos (by omega)]
  have hzero : v.sshiftRight 7 = 0 ↔ v.toInt / 128 = 0 := by
    rw [← BitVec.toInt_inj, sshiftRight7_toInt]; simp
  rw [ne_eq, h40, hneg1, hzero]
  omega

theorem leb128SignedLoop_spec {w : Nat} (hw : 8 ≤ w) : ∀ (room : Nat) (v : BitVec w) (negative : Bool),
    (negative = true ↔ v.toInt < 0) → -(64 * 128 ^ room) ≤ v.toInt → v.toInt < 64 * 128 ^ room →
    ∃ g, leb128SignedLoop negative (room + 1) v = some g ∧ Leb128.IsGroup g ∧
      Leb128.signedValue g = v.toInt ∧ g.length ≤ room + 1 := by
  intro room
  induction room with
  | zero =>
    intro v negative hneg hlo hhi
    have hstop := (leb128_stop hw v).mpr (by omega)
    have hb := low7_toNat hw v
    refine ⟨[UInt8.ofNat (v &&& 0x7F#w).toNat], ?_, ?_, leb128_last hw v (by omega), Nat.le_refl _⟩
    · simp only [leb128SignedLoop, sshiftRight_sign hneg]
      rcases hstop with h | h
      · rw [if_pos h]
      · rw [if_pos h, ite_self]
    · simp only [Leb128.IsGroup, hb]; omega
  | succ room ih =>
    intro v negative hneg hlo hhi
    have hb := low7_toNat hw v
    by_cases hr : -64 ≤ v.toInt ∧ v.toInt < 64
    · refine ⟨[UInt8.ofNat (v &&& 0x7F#w).toNat], ?_, ?_, leb128_last hw v hr, by simp⟩
      · rw [leb128SignedLoop]
        simp only [sshiftRight_sign hneg]
        rcases (leb128_stop hw v).mpr hr with h | h
        · rw [if_pos h]
        · rw [if_pos h, ite_self]
      · simp only [Leb128.IsGroup, hb]; omega
    · have hgo := mt (leb128_stop hw v).mp hr
      rw [not_or] at hgo
      have hv := sshiftRight7_toInt v
      have hpow : (128 : Int) ^ (room + 1) = 128 * 128 ^ room := by rw [pow_succ]; ring
      rw [hpow] at hlo hhi
      obtain ⟨g, hg, hgroup, hval, hlen⟩ := ih (v.sshiftRight 7) negative (by rw [hv, hneg]; omega)
        (by rw [hv]; omega) (by rw [hv]; omega)
      refine ⟨(UInt8.ofNat (v &&& 0x7F#w).toNat ||| 0x80) :: g, ?_, ?_, ?_, by simpa using hlen⟩
      · rw [leb128SignedLoop]
        simp only [sshiftRight_sign hneg, if_neg hgo.1, if_neg hgo.2, hg, Option.map_some]
      · exact Leb128.isGroup_cons (by rw [or80_toNat (by omega)]; omega) hgroup
      · have hm := toNat_mod_eq_toInt_emod hw v
        rw [Leb128.signedValue_cons hgroup.ne_nil, or80_toNat (by omega), hval, hv]
        omega

/-! `writeLeb128`: the buffer is never overrun. -/

theorem pow_maxBufSize {w : Nat} (hw : 8 ≤ w) :
    ∃ room, maxBufSize w = room + 1 ∧ 2 ^ w ≤ 128 ^ (room + 1) ∧ 2 ^ (w - 1) ≤ 64 * 128 ^ room := by
  refine ⟨maxBufSize w - 1, by simp only [maxBufSize]; omega, ?_, ?_⟩
  · calc 2 ^ w ≤ 2 ^ (7 * (maxBufSize w - 1 + 1)) :=
          Nat.pow_le_pow_right (by decide) (by simp only [maxBufSize]; omega)
      _ = 128 ^ (maxBufSize w - 1 + 1) := by rw [pow_mul]; norm_num
  · calc 2 ^ (w - 1) ≤ 2 ^ (6 + 7 * (maxBufSize w - 1)) :=
          Nat.pow_le_pow_right (by decide) (by simp only [maxBufSize]; omega)
      _ = 64 * 128 ^ (maxBufSize w - 1) := by rw [pow_add, pow_mul]; norm_num

theorem leb128Unsigned_group {w : Nat} (hw : 8 ≤ w) (v : BitVec w) :
    ∃ g, leb128UnsignedLoop (maxBufSize w) v = some g ∧ Leb128.IsGroup g ∧ Leb128.value g = v.toNat ∧
      g.length ≤ maxBufSize w := by
  obtain ⟨room, hroom, hu, -⟩ := pow_maxBufSize hw
  rw [hroom]
  exact leb128UnsignedLoop_spec hw room v (Nat.lt_of_lt_of_le v.isLt hu)

theorem leb128Signed_group {w : Nat} (hw : 8 ≤ w) (v : BitVec w) :
    ∃ g, leb128SignedLoop (v.toInt < 0) (maxBufSize w) v = some g ∧ Leb128.IsGroup g ∧
      Leb128.signedValue g = v.toInt ∧ g.length ≤ maxBufSize w := by
  obtain ⟨room, hroom, -, hs⟩ := pow_maxBufSize hw
  have hlo := BitVec.le_toInt v
  have hhi := BitVec.toInt_lt (x := v)
  have hs' : (2 : Int) ^ (w - 1) ≤ 64 * 128 ^ room := by exact_mod_cast hs
  rw [hroom]
  exact leb128SignedLoop_spec hw room v _ (by simp) (by omega) (by omega)

/-- `writeLeb128` for an unsigned type of `w` bits: the bytes given to
`writer->write`. -/
def writeLeb128Unsigned {w : Nat} (hw : 8 ≤ w) (value : BitVec w) : Bytes :=
  (leb128UnsignedLoop (maxBufSize w) value).get
    (let ⟨_, h, _⟩ := leb128Unsigned_group hw value; by rw [h]; rfl)

/-- `writeLeb128` for a signed type of `w` bits. -/
def writeLeb128Signed {w : Nat} (hw : 8 ≤ w) (value : BitVec w) : Bytes :=
  (leb128SignedLoop (value.toInt < 0) (maxBufSize w) value).get
    (let ⟨_, h, _⟩ := leb128Signed_group hw value; by rw [h]; rfl)

theorem writeLeb128Unsigned_spec {w : Nat} (hw : 8 ≤ w) (v : BitVec w) :
    Leb128.IsGroup (writeLeb128Unsigned hw v) ∧ Leb128.value (writeLeb128Unsigned hw v) = v.toNat ∧
      (writeLeb128Unsigned hw v).length ≤ maxBufSize w := by
  obtain ⟨g, h, hg⟩ := leb128Unsigned_group hw v
  have : writeLeb128Unsigned hw v = g := Option.get_of_eq_some _ h
  rwa [this]

theorem writeLeb128Signed_spec {w : Nat} (hw : 8 ≤ w) (v : BitVec w) :
    Leb128.IsGroup (writeLeb128Signed hw v) ∧ Leb128.signedValue (writeLeb128Signed hw v) = v.toInt ∧
      (writeLeb128Signed hw v).length ≤ maxBufSize w := by
  obtain ⟨g, h, hg⟩ := leb128Signed_group hw v
  have : writeLeb128Signed hw v = g := Option.get_of_eq_some _ h
  rwa [this]

/-! `Logger::log` and `Logger::vlog`. -/

/-- The target's log levels, in the order they are declared and compared in. -/
inductive LogLevel where
  | debug | info | warning | error | off
  deriving DecidableEq, Repr

def LogLevel.index : LogLevel → Nat
  | .debug => 0
  | .info => 1
  | .warning => 2
  | .error => 3
  | .off => 4

variable {p : Platform}

theorem Platform.eight_le_pointerBits (p : Platform) : 8 ≤ p.pointerBits := by
  simp only [Platform.pointerBits, Platform.longSize]; split <;> omega

theorem Platform.pointerBits_le (p : Platform) : p.pointerBits ≤ 64 := by
  simp only [Platform.pointerBits, Platform.longSize]; split <;> omega

/-- What `vlog` gives to `writer.write` for an argument. The size of a string
is narrowed to the `uint32_t` that `write` takes. -/
def Argument.wire : Argument p → Bytes
  | .stringPointer s => (s.bytes ++ [0]).take ((s.bytes.length + 1) % 2 ^ 32)
  | .unsignedInteger v => writeLeb128Unsigned (by decide) v
  | .signedInteger v => writeLeb128Signed (by decide) v
  | .internedString a => writeLeb128Unsigned p.eight_le_pointerBits a
  | .voidPtr a => writeLeb128Unsigned p.eight_le_pointerBits a

/-- The bytes of the arguments of a message. -/
def argumentBytes (arguments : List (Argument p)) : Bytes := (arguments.map Argument.wire).flatten

/-- The `writer.write` calls of `vlog`, in order. -/
def vlogWrites (timestamp : BitVec 64) (arguments : List (Argument p)) : List Bytes :=
  writeLeb128Unsigned (by decide) timestamp :: arguments.map Argument.wire

/-- `Logger::log`: the arguments that reach `vlog`, unless the level filter
drops the call or the arguments do not pack. -/
def log (mLevel level : LogLevel) (args : List (Arg p)) : Option (List (Argument p)) :=
  if level.index < mLevel.index then none else buildArgs args

theorem wire_stringPointer (s : CString) : (Argument.stringPointer (p := p) s).wire = s.bytes ++ [0] := by
  rw [Argument.wire, Nat.mod_eq_of_lt s.fits, List.take_of_length_le (by simp)]

theorem vlogWrites_flatten (timestamp : BitVec 64) (arguments : List (Argument p)) :
    (vlogWrites timestamp arguments).flatten =
      writeLeb128Unsigned (by decide) timestamp ++ argumentBytes arguments := rfl

@[simp] theorem argumentBytes_nil : argumentBytes (p := p) [] = [] := rfl

@[simp] theorem argumentBytes_cons (x : Argument p) (arguments : List (Argument p)) :
    argumentBytes (x :: arguments) = x.wire ++ argumentBytes arguments := rfl

end Postform
