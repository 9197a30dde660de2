import Mathlib.Algebra.Order.Ring.Int
import Mathlib.Data.List.Basic

/- UTF-8 text. A text is its sequence of Unicode scalar values; `chunks` cuts
   a byte sequence into the scalar values it encodes and, where it is not
   UTF-8, the maximal ill-formed pieces. `fromUtf8` accepts the sequences with
   no such piece and `fromUtf8Lossy` puts a replacement character for each.
   Both read back what `encode` writes. -/
namespace Wire.Utf8

/-- The UTF-8 bytes of a text. -/
def encode (text : List Char) : List UInt8 := text.flatMap String.utf8EncodeChar

/-- The number of bytes of a text. -/
def size (text : List Char) : Nat := (text.map Char.utf8Size).sum

/-- A continuation byte. -/
def isCont (b : UInt8) : Bool := 0x80 ≤ b.toNat && b.toNat ≤ 0xBF

/-- The second bytes a three-byte sequence may have: no overlong form and no
    surrogate. -/
def second3 (b b1 : Nat) : Bool :=
  (b == 0xE0 && 0xA0 ≤ b1 && b1 ≤ 0xBF) || (0xE1 ≤ b && b ≤ 0xEC && 0x80 ≤ b1 && b1 ≤ 0xBF) ||
    (b == 0xED && 0x80 ≤ b1 && b1 ≤ 0x9F) || (0xEE ≤ b && b ≤ 0xEF && 0x80 ≤ b1 && b1 ≤ 0xBF)

/-- The second bytes a four-byte sequence may have: no overlong form and
    nothing above the last scalar value. -/
def second4 (b b1 : Nat) : Bool :=
  (b == 0xF0 && 0x90 ≤ b1 && b1 ≤ 0xBF) || (0xF1 ≤ b && b ≤ 0xF3 && 0x80 ≤ b1 && b1 ≤ 0xBF) ||
    (b == 0xF4 && 0x80 ≤ b1 && b1 ≤ 0x8F)

/-- The scalar value that the lead byte `b` of a two-byte sequence starts, or
    `none` for an ill-formed piece, and how many bytes after `b` belong to it. -/
def next2 (b : Nat) : List UInt8 → Option Char × Nat
  | b1 :: _ => if isCont b1 then (some (Char.ofNat (b % 32 * 64 + b1.toNat % 64)), 1) else (none, 0)
  | [] => (none, 0)

def next3 (b : Nat) : List UInt8 → Option Char × Nat
  | b1 :: rest =>
    if second3 b b1.toNat then
      match rest with
      | b2 :: _ =>
        if isCont b2 then (some (Char.ofNat (b % 16 * 4096 + b1.toNat % 64 * 64 + b2.toNat % 64)), 2)
        else (none, 1)
      | [] => (none, 1)
    else (none, 0)
  | [] => (none, 0)

def next4 (b : Nat) : List UInt8 → Option Char × Nat
  | b1 :: rest =>
    if second4 b b1.toNat then
      match rest with
      | b2 :: rest =>
        if isCont b2 then
          match rest with
          | b3 :: _ =>
            if isCont b3 then
              (some (Char.ofNat (b % 8 * 262144 + b1.toNat % 64 * 4096 + b2.toNat % 64 * 64 + b3.toNat % 64)), 3)
            else (none, 2)
          | [] => (none, 2)
        else (none, 1)
      | [] => (none, 1)
    else (none, 0)
  | [] => (none, 0)

/-- The same for any first byte. -/
def next (b : UInt8) (rest : List UInt8) : Option Char × Nat :=
  if b.toNat < 0x80 then (some (Char.ofNat b.toNat), 0)
  else if 0xC2 ≤ b.toNat ∧ b.toNat ≤ 0xDF then next2 b.toNat rest
  else if 0xE0 ≤ b.toNat ∧ b.toNat ≤ 0xEF then next3 b.toNat rest
  else if 0xF0 ≤ b.toNat ∧ b.toNat ≤ 0xF4 then next4 b.toNat rest
  else (none, 0)

/-- The pieces of a byte sequence, the first `skip` bytes already taken. -/
def chunksFrom : Nat → List UInt8 → List (Option Char)
  | _, [] => []
  | skip + 1, _ :: rest => chunksFrom skip rest
  | 0, b :: rest => (next b rest).1 :: chunksFrom (next b rest).2 rest

def chunks (bytes : List UInt8) : List (Option Char) := chunksFrom 0 bytes

/-- The text the bytes encode, if they are UTF-8 throughout. -/
def fromUtf8 (bytes : List UInt8) : Option (List Char) := (chunks bytes).mapM id

/-- The text the bytes encode, U+FFFD standing for each ill-formed piece. -/
def fromUtf8Lossy (bytes : List UInt8) : List Char := (chunks bytes).map (·.getD (Char.ofNat 0xFFFD))

/-! Reading back. -/

theorem chunksFrom_skip (lead rest : List UInt8) :
    chunksFrom lead.length (lead ++ rest) = chunksFrom 0 rest := by
  induction lead with
  | nil => rfl
  | cons b lead ih => rw [List.length_cons, List.cons_append, chunksFrom, ih]

theorem chunks_of_next {b : UInt8} (lead : List UInt8) {rest : List UInt8} {c : Char}
    (h : next b (lead ++ rest) = (some c, lead.length)) :
    chunks (b :: lead ++ rest) = some c :: chunks rest := by
  simp only [chunks, List.cons_append, chunksFrom, h, chunksFrom_skip]

theorem toNat_ofNat_byte {n : Nat} (h : n < 256) : (UInt8.ofNat n).toNat = n := by
  rw [UInt8.toNat_ofNat']; omega

theorem chunks_encodeChar (c : Char) (rest : List UInt8) :
    chunks (String.utf8EncodeChar c ++ rest) = some c :: chunks rest := by
  have hv : c.toNat < 0xD800 ∨ 0xDFFF < c.toNat ∧ c.toNat < 0x110000 := c.valid
  have hc : Char.ofNat c.toNat = c := Char.ofNat_toNat c
  simp only [String.utf8EncodeChar]
  rw [show c.val.toNat = c.toNat from rfl]
  -- the digits of the value in base 64, each range of values by its length
  generalize c.toNat = v at hv hc
  subst hc
  split
  · have e := toNat_ofNat_byte (n := v) (by omega)
    apply chunks_of_next []
    rw [next, if_pos (by omega), e]
    rfl
  split
  · have e0 := toNat_ofNat_byte (n := v / 64 % 32 + 192) (by omega)
    have e1 := toNat_ofNat_byte (n := v % 64 + 128) (by omega)
    apply chunks_of_next [UInt8.ofNat (v % 64 + 128)]
    rw [next, if_neg (by omega), if_pos (by omega), List.singleton_append, next2]
    simp only [isCont, e0, e1, List.length_singleton]
    rw [if_pos (by simp; omega)]
    congr 3; omega
  split
  · have e0 := toNat_ofNat_byte (n := v / 4096 % 16 + 224) (by omega)
    have e1 := toNat_ofNat_byte (n := v / 64 % 64 + 128) (by omega)
    have e2 := toNat_ofNat_byte (n := v % 64 + 128) (by omega)
    apply chunks_of_next [UInt8.ofNat (v / 64 % 64 + 128), UInt8.ofNat (v % 64 + 128)]
    rw [next, if_neg (by omega), if_neg (by omega), if_pos (by omega)]
    simp only [List.cons_append, List.nil_append, next3, isCont, second3, e0, e1, e2, List.length_cons,
      List.length_nil]
    rw [if_pos (by simp; omega), if_pos (by simp; omega)]
    congr 3; omega
  · have e0 := toNat_ofNat_byte (n := v / 262144 % 8 + 240) (by omega)
    have e1 := toNat_ofNat_byte (n := v / 4096 % 64 + 128) (by omega)
    have e2 := toNat_ofNat_byte (n := v / 64 % 64 + 128) (by omega)
    have e3 := toNat_ofNat_byte (n := v % 64 + 128) (by omega)
    apply chunks_of_next [UInt8.ofNat (v / 4096 % 64 + 128), UInt8.ofNat (v / 64 % 64 + 128),
      UInt8.ofNat (v % 64 + 128)]
    rw [next, if_neg (by omega), if_neg (by omega), if_neg (by omega), if_pos (by omega)]
    simp only [List.cons_append, List.nil_append, next4, isCont, second4, e0, e1, e2, e3,
      List.length_cons, List.length_nil]
    rw [if_pos (by simp; omega), if_pos (by simp; omega), if_pos (by simp; omega)]
    congr 3; omega

theorem chunks_encode (text : List Char) : chunks (encode text) = text.map some := by
  unfold encode
  induction text with
  | nil => rfl
  | cons c text ih => rw [List.flatMap_cons, chunks_encodeChar, ih, List.map_cons]

theorem fromUtf8_encode (text : List Char) : fromUtf8 (encode text) = some text := by
  rw [fromUtf8, chunks_encode]
  induction text with
  | nil => rfl
  | cons c text ih => simp [List.mapM_cons, ih]

theorem fromUtf8Lossy_encode (text : List Char) : fromUtf8Lossy (encode text) = text := by
  rw [fromUtf8Lossy, chunks_encode, List.map_map]
  exact List.map_id _

theorem eq_nul_of_zero_mem {c : Char} (h : 0 ∈ String.utf8EncodeChar c) : c = '\x00' := by
  have byte {n : Nat} (hn : n < 256) (heq : 0 = UInt8.ofNat n) : n = 0 := by
    have := toNat_ofNat_byte hn
    rw [← heq] at this
    simpa using this.symm
  have hv : c.toNat < 0xD800 ∨ 0xDFFF < c.toNat ∧ c.toNat < 0x110000 := c.valid
  have hc : Char.ofNat c.toNat = c := Char.ofNat_toNat c
  simp only [String.utf8EncodeChar, show c.val.toNat = c.toNat from rfl] at h
  split at h
  · rw [List.mem_singleton] at h
    rw [← hc, byte (by omega) h]
  -- the bytes of a longer sequence are all above 127
  split at h
  · simp only [List.mem_cons, List.not_mem_nil, or_false] at h
    rcases h with h | h <;> exact absurd (byte (by omega) h) (by omega)
  split at h
  · simp only [List.mem_cons, List.not_mem_nil, or_false] at h
    rcases h with h | h | h <;> exact absurd (byte (by omega) h) (by omega)
  · simp only [List.mem_cons, List.not_mem_nil, or_false] at h
    rcases h with h | h | h | h <;> exact absurd (byte (by omega) h) (by omega)

theorem zero_notMem_encode {text : List Char} (h : '\x00' ∉ text) : 0 ∉ encode text := by
  rw [encode, List.mem_flatMap]
  intro hex
  obtain ⟨c, hc, hz⟩ := hex
  exact h (eq_nul_of_zero_mem hz ▸ hc)

/-! ASCII. -/

/-- Every character of the text is one byte. -/
def IsAscii (text : List Char) : Prop := ∀ c ∈ text, c.toNat < 128

instance (text : List Char) : Decidable (IsAscii text) :=
  List.decidableBAll (fun c : Char => c.toNat < 128) text

theorem utf8Size_ascii {c : Char} (h : c.toNat < 128) : c.utf8Size = 1 := by
  rw [Char.utf8Size_eq_one_iff, UInt32.le_iff_toNat_le]
  exact Nat.le_of_lt_succ h

theorem size_ascii {text : List Char} (h : IsAscii text) : size text = text.length := by
  unfold size
  induction text with
  | nil => rfl
  | cons c text ih =>
    have ih := ih fun x hx => h x (List.mem_cons_of_mem c hx)
    rw [List.map_cons, List.sum_cons, List.length_cons, utf8Size_ascii (h c List.mem_cons_self), ih]
    omega

end Wire.Utf8
