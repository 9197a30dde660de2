import Postform.Decoder
import Postform.Logger

/- The numbers on the wire. `writeLeb128` is instantiated at the integer types of
   8, 16, 32 and 64 bits, and the host reads every number with the 64-bit readers
   of the `leb128` crate. The loops stop at the first byte after which nothing is
   left but copies of the sign, so what they write is the shortest group that
   denotes the value (`leb128UnsignedLoop_shortest`, `leb128SignedLoop_shortest`),
   and no type is wider than the readers: the value comes back, and the bytes
   behind it are left alone. -/
namespace Postform

open Wire Host

/-! The loops stop as early as they can. -/

/-- Behind a byte with the continuation bit there is something of the value
left. -/
theorem leb128UnsignedLoop_large {w : Nat} : ∀ {room : Nat} {v : BitVec w} {b c : UInt8} {g : Bytes},
    leb128UnsignedLoop room v = some (b :: c :: g) → 128 ^ (g.length + 1) ≤ v.toNat := by
  intro room
  induction room with
  | zero => intro v b c g h; cases h
  | succ room ih =>
    intro v b c g h
    have hshift := shiftRight7_toNat v
    rw [leb128UnsignedLoop] at h
    split at h
    · cases h
    · next hz =>
      obtain ⟨g', hg', heq⟩ := Option.map_eq_some_iff.mp h
      cases heq
      have hpos : (v >>> 7).toNat ≠ 0 := fun h0 => hz (BitVec.eq_of_toNat_eq (by rw [h0]; rfl))
      cases g with
      | nil =>
        rw [List.length_nil, Nat.zero_add, pow_one]
        omega
      | cons d g =>
        have hlarge := ih hg'
        rw [List.length_cons, pow_succ]
        omega

theorem leb128SignedLoop_large {w : Nat} (hw : 8 ≤ w) : ∀ {room : Nat} {v : BitVec w} {negative : Bool} {b c : UInt8}
    {g : Bytes}, (negative = true ↔ v.toInt < 0) → leb128SignedLoop negative room v = some (b :: c :: g) →
    v.toInt < -(64 * 128 ^ g.length) ∨ 64 * 128 ^ g.length ≤ v.toInt := by
  intro room
  induction room with
  | zero => intro v negative b c g _ h; cases h
  | succ room ih =>
    intro v negative b c g hneg h
    have hshift := sshiftRight7_toInt v
    have hstop := leb128_stop hw v
    rw [leb128SignedLoop] at h
    simp only [sshiftRight_sign hneg] at h
    split at h
    · cases h
    next hminus =>
    split at h
    · cases h
    next hzero =>
    obtain ⟨g', hg', heq⟩ := Option.map_eq_some_iff.mp h
    cases heq
    cases g with
    | nil =>
      -- one byte would have done
      have hgo := mt hstop.mpr (not_or.mpr ⟨hminus, hzero⟩)
      rw [List.length_nil, pow_zero]
      omega
    | cons d g =>
      have hlarge := ih (by rw [hshift, hneg]; omega) hg'
      have hpow : (128 : Int) ^ (g.length + 1) = 128 * 128 ^ g.length := by rw [pow_succ]; ring
      rw [List.length_cons, hpow]
      omega

section
variable {w : Nat} (hw : 8 ≤ w) (v : BitVec w)
include hw

/-- **What the unsigned loop writes** is the shortest group of the value. -/
theorem leb128UnsignedLoop_shortest : ∃ g, leb128UnsignedLoop (maxBufSize w) v = some g ∧
    g.length ≤ maxBufSize w ∧ Leb128.Shortest Leb128.value g ∧ Leb128.value g = v.toNat := by
  obtain ⟨g, hloop, hgroup, hvalue, hlen⟩ := leb128Unsigned_group hw v
  refine ⟨g, hloop, hlen, ?_, hvalue⟩
  apply Leb128.shortest_value hgroup
  intro n hn
  match g, hn with
  | b :: c :: g, hn =>
    have hlarge := leb128UnsignedLoop_large hloop
    obtain rfl : g.length = n := by simpa using hn
    rwa [hvalue]

/-- **What the signed loop writes** is the shortest group of the value. -/
theorem leb128SignedLoop_shortest : ∃ g, leb128SignedLoop (v.toInt < 0) (maxBufSize w) v = some g ∧
    g.length ≤ maxBufSize w ∧ Leb128.Shortest Leb128.signedValue g ∧ Leb128.signedValue g = v.toInt := by
  obtain ⟨g, hloop, hgroup, hvalue, hlen⟩ := leb128Signed_group hw v
  refine ⟨g, hloop, hlen, ?_, hvalue⟩
  apply Leb128.shortest_signedValue hgroup
  intro n hn
  match g, hn with
  | b :: c :: g, hn =>
    have hlarge := leb128SignedLoop_large hw (by simp) hloop
    obtain rfl : g.length = n := by simpa using hn
    rwa [hvalue]

end

/-- A signed number of `n + 2` bytes is none of those that `n + 1` bytes denote. -/
theorem writeLeb128Signed_large {w : Nat} (hw : 8 ≤ w) {v : BitVec w} {n : Nat}
    (hlength : (writeLeb128Signed hw v).length = n + 2) : v.toInt < -(64 * 128 ^ n) ∨ 64 * 128 ^ n ≤ v.toInt := by
  obtain ⟨g, hloop, -⟩ := leb128Signed_group hw v
  have hwrite : writeLeb128Signed hw v = g := Option.get_of_eq_some _ hloop
  rw [hwrite] at hlength
  match g, hlength with
  | b :: c :: g, hlength =>
    obtain rfl : g.length = n := by simpa using hlength
    exact leb128SignedLoop_large hw (by simp) hloop

/-! The readers. -/

theorem readU64_word {w : Nat} (hw : 8 ≤ w) (hw64 : w ≤ 64) (v : BitVec w) (rest : Bytes) :
    Leb128.readU64 (writeLeb128Unsigned hw v ++ rest) = some (v.toNat, rest) := by
  obtain ⟨hgroup, hvalue, hlen⟩ := writeLeb128Unsigned_spec hw v
  have hfits : v.toNat < 2 ^ 64 := Nat.lt_of_lt_of_le v.isLt (Nat.pow_le_pow_right (by decide) hw64)
  rw [maxBufSize] at hlen
  rw [Leb128.readU64_group hgroup (by omega) (by omega), hvalue]

section
variable {crates : Crates} (hcrates : crates.ReadsLeb128) {w : Nat} (hw64 : w ≤ 64) (v : BitVec w) {g : Bytes}
  (hgroup : Leb128.IsGroup g) (hlen : g.length ≤ maxBufSize w)
include hcrates hw64 hgroup hlen

theorem decodeUnsigned_group (hvalue : Leb128.value g = v.toNat) (rest : Bytes) :
    decodeUnsigned crates (g ++ rest) = .ok (v.toNat, rest) := by
  have hfits : v.toNat < 2 ^ 64 := Nat.lt_of_lt_of_le v.isLt (Nat.pow_le_pow_right (by decide) hw64)
  rw [maxBufSize] at hlen
  rw [decodeUnsigned, hcrates.readUnsigned, Leb128.readU64_group hgroup (by omega) (by omega), hvalue]
  rfl

theorem decodeSigned_group (hvalue : Leb128.signedValue g = v.toInt) (rest : Bytes) :
    decodeSigned crates (g ++ rest) = .ok (v.toInt, rest) := by
  have hpow : (2 : Int) ^ (w - 1) ≤ 2 ^ 63 := by
    exact_mod_cast Nat.pow_le_pow_right (show 0 < 2 by decide) (show w - 1 ≤ 63 by omega)
  have hlo := BitVec.le_toInt v
  have hhi := BitVec.toInt_lt (x := v)
  rw [maxBufSize] at hlen
  rw [decodeSigned, hcrates.readSigned, Leb128.readS64_group hgroup (by omega) (by omega) (by omega), hvalue]
  rfl

end

/-- **LEB128 on the wire.** For every value of an integer type the loop stays
    in its buffer and writes the shortest group that denotes the value, of
    which no last byte is redundant; the host's reader takes exactly that group
    for the value, whatever follows it. -/
theorem write_leb128_canonical (crates : Crates) (hcrates : crates.ReadsLeb128) (w : Nat)
    (hw : w ∈ [8, 16, 32, 64]) (v : BitVec w) :
    (∃ g, leb128UnsignedLoop (maxBufSize w) v = some g ∧ g.length ≤ maxBufSize w ∧
      Leb128.Shortest Leb128.value g ∧
      (∀ init b c, g = init ++ [b, c] → Leb128.value (init ++ [b &&& 0x7F]) ≠ Leb128.value g) ∧
      Leb128.value g = v.toNat ∧ ∀ rest, decodeUnsigned crates (g ++ rest) = .ok (v.toNat, rest)) ∧
    (∃ g, leb128SignedLoop (v.toInt < 0) (maxBufSize w) v = some g ∧ g.length ≤ maxBufSize w ∧
      Leb128.Shortest Leb128.signedValue g ∧
      (∀ init b c, g = init ++ [b, c] → Leb128.signedValue (init ++ [b &&& 0x7F]) ≠ Leb128.signedValue g) ∧
      Leb128.signedValue g = v.toInt ∧ ∀ rest, decodeSigned crates (g ++ rest) = .ok (v.toInt, rest)) := by
  have hbits : 8 ≤ w ∧ w ≤ 64 := by
    simp only [List.mem_cons, List.not_mem_nil, or_false] at hw
    omega
  constructor
  · obtain ⟨g, hloop, hlen, hshortest, hvalue⟩ := leb128UnsignedLoop_shortest hbits.1 v
    refine ⟨g, hloop, hlen, hshortest, fun init b c heq => ?_, hvalue, fun rest => ?_⟩
    · subst heq
      exact hshortest.noRedundant
    · exact decodeUnsigned_group hcrates hbits.2 v hshortest.group hlen hvalue rest
  · obtain ⟨g, hloop, hlen, hshortest, hvalue⟩ := leb128SignedLoop_shortest hbits.1 v
    refine ⟨g, hloop, hlen, hshortest, fun init b c heq => ?_, hvalue, fun rest => ?_⟩
    · subst heq
      exact hshortest.noRedundant
    · exact decodeSigned_group hcrates hbits.2 v hshortest.group hlen hvalue rest

theorem write_leb128_canonical_min : leb128SignedLoop true (maxBufSize 16) (BitVec.ofInt 16 (-32768)) =
      some [0x80, 0x80, 0x7e] ∧
    Leb128.Shortest Leb128.signedValue [0x80, 0x80, 0x7e] ∧
    decodeSigned Crates.reference [0x80, 0x80, 0x7e, 5] = .ok (-32768, [5]) := by
  obtain ⟨-, g, hloop, -, hshortest, -, -, hread⟩ := write_leb128_canonical Crates.reference
    Crates.reference_documented.toReadsLeb128 16 (by decide) (BitVec.ofInt 16 (-32768))
  obtain rfl : [0x80, 0x80, 0x7e] = g := Option.some.inj hloop
  exact ⟨rfl, hshortest, hread [5]⟩

end Postform
