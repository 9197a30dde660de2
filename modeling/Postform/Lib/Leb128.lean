import Mathlib.Data.List.Basic
import Mathlib.Algebra.Order.Ring.Int
import Mathlib.Tactic.Ring
import Mathlib.Tactic.Linarith

/- LEB128, the little-endian base-128 number format. A number is a group of
   bytes, every byte but the last with its top bit set; the low seven bits of
   the bytes are the digits, least significant first. Read as unsigned the
   group denotes `value`; read as signed, bit 6 of the last byte is the sign
   and the group denotes `signedValue`. `readU64` and `readS64` are the 64-bit
   readers: they take one group off the front and refuse a number that does
   not fit, which a tenth byte outside {0, 1} (unsigned) or {0, 0x7f} (signed)
   shows. What a group denotes depends on its own bytes only, so whatever
   follows it is left as it is. Longer groups denote the small numbers again;
   `Shortest` says that no other group is as short. -/
namespace Wire.Leb128

/-- One number's bytes: all but the last carry the continuation bit. -/
def IsGroup : List UInt8 → Prop
  | [] => False
  | [b] => b.toNat < 128
  | b :: c :: g => 128 ≤ b.toNat ∧ IsGroup (c :: g)

/-- The first group of a byte sequence and what follows it. -/
def split : List UInt8 → Option (List UInt8 × List UInt8)
  | [] => none
  | b :: rest =>
    if b.toNat < 128 then some ([b], rest)
    else (split rest).map fun p => (b :: p.1, p.2)

/-- The number a group denotes, unsigned. -/
def value : List UInt8 → Nat
  | [] => 0
  | b :: g => b.toNat % 128 + 128 * value g

/-- The number a group denotes, signed: the last digit counts from -64. -/
def signedValue : List UInt8 → Int
  | [] => 0
  | [b] => if b.toNat % 128 < 64 then b.toNat % 128 else (b.toNat % 128 : Nat) - 128
  | b :: c :: g => (b.toNat % 128 : Nat) + 128 * signedValue (c :: g)

/-- The unsigned 64-bit reader. -/
def readU64 (bytes : List UInt8) : Option (Nat × List UInt8) :=
  match split bytes with
  | none => none
  | some (g, rest) =>
    if g.length < 10 ∨ g.length = 10 ∧ g.getLast? ∈ [some 0, some 1] then some (value g, rest)
    else none

/-- The signed 64-bit reader. -/
def readS64 (bytes : List UInt8) : Option (Int × List UInt8) :=
  match split bytes with
  | none => none
  | some (g, rest) =>
    if g.length < 10 ∨ g.length = 10 ∧ g.getLast? ∈ [some 0, some 0x7f] then some (signedValue g, rest)
    else none

/-! Groups. -/

theorem IsGroup.ne_nil {g : List UInt8} (h : IsGroup g) : g ≠ [] := by
  cases g with
  | nil => exact h.elim
  | cons b g => simp

theorem isGroup_cons {b : UInt8} {g : List UInt8} (hb : 128 ≤ b.toNat) (hg : IsGroup g) :
    IsGroup (b :: g) := by
  cases g with
  | nil => exact hg.elim
  | cons c g => exact ⟨hb, hg⟩

theorem signedValue_cons {b : UInt8} {g : List UInt8} (hg : g ≠ []) :
    signedValue (b :: g) = (b.toNat % 128 : Nat) + 128 * signedValue g := by
  cases g with
  | nil => exact absurd rfl hg
  | cons c g => rfl

theorem split_group : ∀ {g : List UInt8}, IsGroup g → ∀ rest, split (g ++ rest) = some (g, rest)
  | [], h, _ => h.elim
  | [b], h, rest => by
    have hb : b.toNat < 128 := h
    simp [split, hb]
  | b :: c :: g, h, rest => by
    obtain ⟨hb, hg⟩ := h
    have ih := split_group hg rest
    have hb' : ¬b.toNat < 128 := by omega
    rw [List.cons_append, split, if_neg hb', ih]
    rfl

theorem value_lt (g : List UInt8) : value g < 128 ^ g.length := by
  induction g with
  | nil => simp [value]
  | cons b g ih =>
    rw [value, List.length_cons, pow_succ]
    have hdigit := Nat.mod_lt b.toNat (show 128 > 0 by decide)
    omega

/-- The two readings of a group agree, or differ by one turn of its range. -/
theorem signedValue_eq : ∀ {g : List UInt8}, IsGroup g →
    (0 ≤ signedValue g ∧ signedValue g = value g) ∨
      (signedValue g < 0 ∧ signedValue g = value g - 128 ^ g.length)
  | [], h => h.elim
  | [b], h => by
    have hb : b.toNat < 128 := h
    simp only [signedValue, value, List.length_singleton]
    split <;> omega
  | b :: c :: g, h => by
    have ih := signedValue_eq h.2
    rw [signedValue, value, List.length_cons, pow_succ]
    rcases ih with ⟨h0, he⟩ | ⟨h0, he⟩
    · left; push_cast; omega
    · right
      refine ⟨by omega, ?_⟩
      rw [he]; push_cast; ring

theorem value_ten : ∀ {n : Nat} {g : List UInt8} {b : UInt8}, IsGroup g → g.length = n + 1 →
    g.getLast? = some b → 128 ^ n * b.toNat ≤ value g ∧ value g < 128 ^ n * (b.toNat + 1)
  | n, [], b, h, _, _ => h.elim
  | n, [a], b, h, hl, hb => by
    have ha : a.toNat < 128 := h
    simp only [List.getLast?_singleton, Option.some.injEq] at hb
    obtain rfl : n = 0 := by simpa using hl.symm
    subst hb
    simp only [value]
    omega
  | 0, a :: c :: g, b, _, hl, _ => by simp at hl
  | n + 1, a :: c :: g, b, h, hl, hb => by
    have ih := value_ten (n := n) (b := b) h.2 (by simpa using hl) (by simpa using hb)
    have ha := Nat.mod_lt a.toNat (show 128 > 0 by decide)
    rw [value, pow_succ]
    constructor
    · calc 128 ^ n * 128 * b.toNat = 128 * (128 ^ n * b.toNat) := by ring
        _ ≤ 128 * value (c :: g) := Nat.mul_le_mul_left _ ih.1
        _ ≤ _ := Nat.le_add_left _ _
    · calc a.toNat % 128 + 128 * value (c :: g) < 128 * (value (c :: g) + 1) := by omega
        _ ≤ 128 * (128 ^ n * (b.toNat + 1)) := Nat.mul_le_mul_left _ ih.2
        _ = _ := by ring

theorem getLast?_of_group {g : List UInt8} (h : IsGroup g) : ∃ b, g.getLast? = some b := by
  cases hg : g.getLast? with
  | none => exact absurd (List.getLast?_eq_none_iff.mp hg) h.ne_nil
  | some b => exact ⟨b, rfl⟩

/-! What follows a group is left alone, whether it fits or not. -/

theorem readU64_extent {g : List UInt8} (h : IsGroup g) (rest : List UInt8) :
    readU64 (g ++ rest) = (readU64 g).map fun r => (r.1, rest) := by
  have hg := split_group h []
  rw [List.append_nil] at hg
  simp only [readU64, split_group h rest, hg]
  split <;> rfl

theorem readS64_extent {g : List UInt8} (h : IsGroup g) (rest : List UInt8) :
    readS64 (g ++ rest) = (readS64 g).map fun r => (r.1, rest) := by
  have hg := split_group h []
  rw [List.append_nil] at hg
  simp only [readS64, split_group h rest, hg]
  split <;> rfl

/-! Reading a group that fits. -/

theorem readU64_group {g : List UInt8} (h : IsGroup g) (hl : g.length ≤ 10) (hv : value g < 2 ^ 64)
    (rest : List UInt8) : readU64 (g ++ rest) = some (value g, rest) := by
  rw [readU64, split_group h]
  simp only
  apply if_pos
  by_cases h10 : g.length < 10
  · exact .inl h10
  · -- the tenth digit counts from 2 ^ 63, so a value of 64 bits has it below 2
    obtain ⟨b, hb⟩ := getLast?_of_group h
    have hv' := (value_ten (n := 9) h (by omega) hb).1
    have hb2 : b.toNat < 2 := by omega
    refine .inr ⟨by omega, ?_⟩
    have : b = 0 ∨ b = 1 := by
      rcases Nat.lt_or_ge b.toNat 1 with h1 | h1
      · exact .inl (UInt8.toNat_inj.mp (by simpa using h1))
      · exact .inr (UInt8.toNat_inj.mp (by simp; omega))
    rcases this with rfl | rfl <;> simp [hb]

theorem readS64_group {g : List UInt8} (h : IsGroup g) (hl : g.length ≤ 10)
    (hlo : -2 ^ 63 ≤ signedValue g) (hhi : signedValue g < 2 ^ 63) (rest : List UInt8) :
    readS64 (g ++ rest) = some (signedValue g, rest) := by
  rw [readS64, split_group h]
  simp only
  apply if_pos
  by_cases h10 : g.length < 10
  · exact .inl h10
  · -- the tenth digit has the bit of 2 ^ 63 and six of the sign: none of them set, or all
    obtain ⟨b, hb⟩ := getLast?_of_group h
    have hl10 : g.length = 10 := by omega
    obtain ⟨h1, h2⟩ := value_ten (n := 9) h hl10 hb
    refine .inr ⟨hl10, ?_⟩
    rcases signedValue_eq h with ⟨h0, he⟩ | ⟨h0, he⟩
    · have : b = 0 := UInt8.toNat_inj.mp (by simp; omega)
      simp [hb, this]
    · rw [hl10] at he
      have hb7 := value_lt g
      rw [hl10] at hb7
      have : b = 0x7f := UInt8.toNat_inj.mp (by simp; omega)
      simp [hb, this]

/-- What the unsigned reader makes of a signed number's bytes: a number that
    is not negative is read as it is. -/
theorem readU64_signed_nonneg {g : List UInt8} (h : IsGroup g) (hl : g.length ≤ 10)
    (h0 : 0 ≤ signedValue g) (hhi : signedValue g < 2 ^ 63) (rest : List UInt8) :
    readU64 (g ++ rest) = some ((signedValue g).toNat, rest) := by
  rcases signedValue_eq h with ⟨_, he⟩ | ⟨hn, _⟩
  · rw [readU64_group h hl (by omega), he]; simp
  · omega

/-- A negative number of ten bytes is refused; a shorter one is read as one
    turn of its range above what it is. -/
theorem readU64_signed_neg {g : List UInt8} (h : IsGroup g) (hl : g.length ≤ 10)
    (h0 : signedValue g < 0) (hlo : -2 ^ 63 ≤ signedValue g) (rest : List UInt8) :
    readU64 (g ++ rest) =
      if g.length < 10 then some ((signedValue g + 128 ^ g.length).toNat, rest) else none := by
  obtain ⟨_, he⟩ : signedValue g < 0 ∧ signedValue g = value g - 128 ^ g.length := by
    rcases signedValue_eq h with ⟨hn, _⟩ | h'
    · omega
    · exact h'
  split
  · next h10 =>
    have : value g < 2 ^ 64 := by
      have := value_lt g
      have : 128 ^ g.length ≤ 128 ^ 9 := Nat.pow_le_pow_right (by decide) (by omega)
      omega
    rw [readU64_group h hl this, he]
    simp
  · next h10 =>
    have hl10 : g.length = 10 := by omega
    obtain ⟨b, hb⟩ := getLast?_of_group h
    obtain ⟨h1, h2⟩ := value_ten (n := 9) h hl10 hb
    rw [hl10] at he
    have hb2 : 2 ≤ b.toNat := by omega
    rw [readU64, split_group h]
    simp only
    apply if_neg
    intro hfits
    rcases hfits with hc | ⟨_, hc⟩
    · omega
    · rw [hb] at hc
      simp only [List.mem_cons, Option.some.injEq, List.not_mem_nil, or_false] at hc
      rcases hc with rfl | rfl <;> simp at hb2

/-! The shortest groups. -/

/-- No other group that denotes the same is as short. -/
structure Shortest {α : Type} (denote : List UInt8 → α) (g : List UInt8) : Prop where
  group : IsGroup g
  least : ∀ g', IsGroup g' → denote g' = denote g → g' = g ∨ g.length < g'.length

theorem isGroup_snoc {init : List UInt8} {b c : UInt8} (h : IsGroup (init ++ [b, c])) {b' : UInt8}
    (hb' : b'.toNat < 128) : IsGroup (init ++ [b']) := by
  induction init with
  | nil => exact hb'
  | cons a init ih =>
    cases init with
    | nil => exact ⟨h.1, hb'⟩
    | cons d init => exact ⟨h.1, ih h.2⟩

/-- Of a shortest group the last byte cannot be left out: the group that ends
one byte earlier denotes something else. -/
theorem Shortest.noRedundant {α : Type} {denote : List UInt8 → α} {init : List UInt8} {b c : UInt8}
    (h : Shortest denote (init ++ [b, c])) : denote (init ++ [b &&& 0x7F]) ≠ denote (init ++ [b, c]) := by
  intro heq
  have hb : (b &&& 0x7F).toNat < 128 := by
    rw [UInt8.toNat_and]
    exact Nat.lt_succ_of_le Nat.and_le_right
  rcases h.least _ (isGroup_snoc h.group hb) heq with hsame | hlonger
  · have hlen := congrArg List.length hsame
    simp at hlen
  · simp at hlonger

theorem digit_inj {b c : UInt8} (hmod : b.toNat % 128 = c.toNat % 128) (hcont : b.toNat < 128 ↔ c.toNat < 128) :
    b = c := by
  apply UInt8.toNat_inj.mp
  have := b.toNat_lt
  have := c.toNat_lt
  omega

theorem value_cons {b : UInt8} {g : List UInt8} : value (b :: g) = b.toNat % 128 + 128 * value g := rfl

theorem value_inj : ∀ {g g' : List UInt8}, IsGroup g → IsGroup g' → g.length = g'.length → value g = value g' →
    g = g'
  | [], _, h, _, _, _ => h.elim
  | _ :: _, [], _, h', _, _ => h'.elim
  | [b], [b'], h, h', _, hv => by
    have hb : b.toNat < 128 := h
    have hb' : b'.toNat < 128 := h'
    simp only [value] at hv
    rw [digit_inj (b := b) (c := b') (by omega) (by omega)]
  | [_], _ :: _ :: _, _, _, hl, _ => by simp at hl
  | _ :: _ :: _, [_], _, _, hl, _ => by simp at hl
  | b :: c :: g, b' :: c' :: g', h, h', hl, hv => by
    rw [value_cons, value_cons (g := c' :: g')] at hv
    obtain ⟨hb, hg⟩ := h
    obtain ⟨hb', hg'⟩ := h'
    have heq := value_inj hg hg' (by simpa using hl) (by omega)
    have hdigit : b = b' := digit_inj (by omega) (by omega)
    rw [heq, hdigit]

theorem signedValue_inj {g g' : List UInt8} (h : IsGroup g) (h' : IsGroup g') (hl : g.length = g'.length)
    (hv : signedValue g = signedValue g') : g = g' := by
  apply value_inj h h' hl
  have hlt := value_lt g
  have hlt' := value_lt g'
  rw [hl] at hlt
  -- the signs agree, so the two are off by the same number of turns
  rcases signedValue_eq h with ⟨h0, he⟩ | ⟨h0, he⟩ <;> rcases signedValue_eq h' with ⟨h0', he'⟩ | ⟨h0', he'⟩
  · omega
  · omega
  · omega
  · rw [hl] at he
    omega

theorem signedValue_range : ∀ {n : Nat} {g : List UInt8}, IsGroup g → g.length = n + 1 →
    -(64 * 128 ^ n) ≤ signedValue g ∧ signedValue g < 64 * 128 ^ n
  | _, [], h, _ => h.elim
  | n, [b], h, hl => by
    obtain rfl : n = 0 := by simpa using hl.symm
    have hb : b.toNat < 128 := h
    simp only [signedValue]
    split <;> omega
  | 0, _ :: _ :: _, _, hl => by simp at hl
  | n + 1, b :: c :: g, h, hl => by
    obtain ⟨hlo, hhi⟩ := signedValue_range (n := n) h.2 (by simpa using hl)
    have hdigit := Nat.mod_lt b.toNat (show 128 > 0 by decide)
    have hpow : (128 : Int) ^ (n + 1) = 128 * 128 ^ n := by rw [pow_succ]; ring
    rw [signedValue, hpow]
    omega

/-- A group is the shortest when a shorter one cannot reach its value. -/
theorem shortest_value {g : List UInt8} (hg : IsGroup g) (h : ∀ n, g.length = n + 2 → 128 ^ (n + 1) ≤ value g) :
    Shortest value g := by
  refine ⟨hg, fun g' hg' heq => ?_⟩
  rcases Nat.lt_trichotomy g'.length g.length with hlt | hsame | hgt
  · have hpos := List.length_pos_of_ne_nil hg'.ne_nil
    obtain ⟨n, hn⟩ : ∃ n, g.length = n + 2 := ⟨g.length - 2, by omega⟩
    have hpow : 128 ^ g'.length ≤ 128 ^ (n + 1) := Nat.pow_le_pow_right (by decide) (by omega)
    have hshort := value_lt g'
    have hlong := h n hn
    omega
  · exact .inl (value_inj hg' hg hsame heq)
  · exact .inr hgt

theorem shortest_signedValue {g : List UInt8} (hg : IsGroup g)
    (h : ∀ n, g.length = n + 2 → signedValue g < -(64 * 128 ^ n) ∨ 64 * 128 ^ n ≤ signedValue g) :
    Shortest signedValue g := by
  refine ⟨hg, fun g' hg' heq => ?_⟩
  rcases Nat.lt_trichotomy g'.length g.length with hlt | hsame | hgt
  · have hpos := List.length_pos_of_ne_nil hg'.ne_nil
    obtain ⟨n, hn⟩ : ∃ n, g.length = n + 2 := ⟨g.length - 2, by omega⟩
    obtain ⟨m, hm⟩ : ∃ m, g'.length = m + 1 := ⟨g'.length - 1, by omega⟩
    have hpow : (128 : Int) ^ m ≤ 128 ^ n := by
      exact_mod_cast Nat.pow_le_pow_right (show 0 < 128 by decide) (show m ≤ n by omega)
    obtain ⟨hlo, hhi⟩ := signedValue_range hg' hm
    rcases h n hn with hneg | hpos'
    · omega
    · omega
  · exact .inl (signedValue_inj hg' hg hsame heq)
  · exact .inr hgt

end Wire.Leb128
