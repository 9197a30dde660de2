import Mathlib.Algebra.Order.Ring.Int
import Mathlib.Data.List.Basic

/- Records with a length in front. A number of `k` bytes, least significant
   first, is followed by as many bytes as it says. `record` writes one and
   `readRecord` takes one off the front of a file, where it is whole.

   A file is its whole records and what is torn behind them (`Splits`): every
   file splits, in one way (`exists_splits`, `Splits.unique`). -/
namespace Records

/-- The last `k` bytes of a number, least significant first. -/
def leBytes : Nat → Nat → List UInt8
  | 0, _ => []
  | k + 1, n => UInt8.ofNat (n % 256) :: leBytes k (n / 256)

/-- The number in bytes, least significant first. -/
def ofLeBytes : List UInt8 → Nat
  | [] => 0
  | b :: bytes => b.toNat + 256 * ofLeBytes bytes

@[simp] theorem length_leBytes : ∀ k n, (leBytes k n).length = k
  | 0, _ => rfl
  | k + 1, n => by rw [leBytes, List.length_cons, length_leBytes k]

theorem ofLeBytes_leBytes : ∀ {k n : Nat}, n < 256 ^ k → ofLeBytes (leBytes k n) = n
  | 0, n, h => by
    have hn : n = 0 := by simpa using h
    rw [hn]
    rfl
  | k + 1, n, h => by
    have hdiv : n / 256 < 256 ^ k := by
      apply Nat.div_lt_of_lt_mul
      rw [Nat.mul_comm, ← Nat.pow_succ]
      exact h
    have hbyte : (UInt8.ofNat (n % 256)).toNat = n % 256 := by
      rw [UInt8.toNat_ofNat']
      omega
    rw [leBytes, ofLeBytes, ofLeBytes_leBytes hdiv, hbyte]
    omega

theorem leBytes_ofLeBytes : ∀ bytes : List UInt8, leBytes bytes.length (ofLeBytes bytes) = bytes
  | [] => rfl
  | b :: bytes => by
    have hb := b.toNat_lt
    have hmod : (b.toNat + 256 * ofLeBytes bytes) % 256 = b.toNat := by omega
    have hdiv : (b.toNat + 256 * ofLeBytes bytes) / 256 = ofLeBytes bytes := by omega
    rw [List.length_cons, leBytes, ofLeBytes, hmod, hdiv, leBytes_ofLeBytes bytes, UInt8.ofNat_toNat]

theorem ofLeBytes_lt : ∀ bytes : List UInt8, ofLeBytes bytes < 256 ^ bytes.length
  | [] => by decide
  | b :: bytes => by
    have hb := b.toNat_lt
    have ih := ofLeBytes_lt bytes
    rw [ofLeBytes, List.length_cons, Nat.pow_succ]
    omega

/-- The payload behind its length. -/
def record (k : Nat) (payload : List UInt8) : List UInt8 := leBytes k payload.length ++ payload

/-- The payload of the record in front and what follows it, if the record is
whole. -/
def readRecord (k : Nat) (file : List UInt8) : Option (List UInt8 × List UInt8) :=
  let size := ofLeBytes (file.take k)
  let rest := file.drop k
  if file.length < k ∨ rest.length < size then none else some (rest.take size, rest.drop size)

variable {k : Nat}

theorem readRecord_record {payload : List UInt8} (h : payload.length < 256 ^ k) (rest : List UInt8) :
    readRecord k (record k payload ++ rest) = some (payload, rest) := by
  have htake : (record k payload ++ rest).take k = leBytes k payload.length := by
    rw [record, List.append_assoc, List.take_left' (length_leBytes ..)]
  have hdrop : (record k payload ++ rest).drop k = payload ++ rest := by
    rw [record, List.append_assoc, List.drop_left' (length_leBytes ..)]
  simp only [readRecord, htake, hdrop, ofLeBytes_leBytes h]
  rw [if_neg (by simp [record]), List.take_left, List.drop_left]

theorem readRecord_exact {file payload rest : List UInt8} (h : readRecord k file = some (payload, rest)) :
    payload.length < 256 ^ k ∧ file = record k payload ++ rest := by
  simp only [readRecord] at h
  split at h
  · cases h
  next hwhole =>
  obtain ⟨hk, hsize⟩ := not_or.mp hwhole
  cases h
  have hlen : (file.take k).length = k := by rw [List.length_take]; omega
  have hpayload : ((file.drop k).take (ofLeBytes (file.take k))).length = ofLeBytes (file.take k) := by
    rw [List.length_take]; omega
  constructor
  · rw [hpayload]
    calc ofLeBytes (file.take k) < 256 ^ (file.take k).length := ofLeBytes_lt _
      _ = 256 ^ k := by rw [hlen]
  · have hhead := leBytes_ofLeBytes (file.take k)
    rw [hlen] at hhead
    rw [record, hpayload, hhead, List.append_assoc, List.take_append_drop, List.take_append_drop]

/-! Files. -/

/-- The payloads of the whole records of a file, and what is torn. -/
structure Splits (k : Nat) (file : List UInt8) (payloads : List (List UInt8)) (torn : List UInt8) : Prop where
  eq : file = payloads.flatMap (record k) ++ torn
  sizes : ∀ payload ∈ payloads, payload.length < 256 ^ k
  torn : readRecord k torn = none

theorem Splits.cons {file payload torn : List UInt8} {payloads : List (List UInt8)}
    (h : Splits k file payloads torn) (hsize : payload.length < 256 ^ k) :
    Splits k (record k payload ++ file) (payload :: payloads) torn := by
  refine ⟨?_, ?_, h.torn⟩
  · rw [List.flatMap_cons, List.append_assoc, ← h.eq]
  · intro other hother
    rcases List.mem_cons.mp hother with heq | hmem
    · rw [heq]; exact hsize
    · exact h.sizes other hmem

theorem splits_record_iff {file payload torn : List UInt8} {payloads : List (List UInt8)}
    (hsize : payload.length < 256 ^ k) : Splits k (record k payload ++ file) payloads torn ↔
      ∃ rest, payloads = payload :: rest ∧ Splits k file rest torn := by
  constructor
  · intro h
    cases payloads with
    | nil =>
      have htorn := h.torn
      rw [← List.nil_append torn, ← List.flatMap_nil, ← h.eq, readRecord_record hsize] at htorn
      cases htorn
    | cons first rest =>
      have hread := readRecord_record hsize file
      rw [h.eq, List.flatMap_cons, List.append_assoc,
        readRecord_record (h.sizes first List.mem_cons_self)] at hread
      cases hread
      exact ⟨rest, rfl, rfl, fun other hother => h.sizes other (List.mem_cons_of_mem _ hother), h.torn⟩
  · intro h
    obtain ⟨rest, heq, h⟩ := h
    rw [heq]
    exact h.cons hsize

theorem splits_torn_iff {file torn : List UInt8} {payloads : List (List UInt8)} (htorn : readRecord k file = none) :
    Splits k file payloads torn ↔ payloads = [] ∧ torn = file := by
  constructor
  · intro h
    cases payloads with
    | nil => exact ⟨rfl, h.eq.symm⟩
    | cons first rest =>
      rw [h.eq, List.flatMap_cons, List.append_assoc,
        readRecord_record (h.sizes first List.mem_cons_self)] at htorn
      cases htorn
  · intro h
    obtain ⟨hpayloads, heq⟩ := h
    rw [hpayloads, heq]
    exact ⟨rfl, by simp, htorn⟩

/-- **Every file splits.** -/
theorem exists_splits (hk : 0 < k) (file : List UInt8) : ∃ payloads torn, Splits k file payloads torn := by
  induction hn : file.length using Nat.strongRecOn generalizing file with
  | ind n ih =>
    cases hread : readRecord k file with
    | none => exact ⟨[], file, (splits_torn_iff hread).mpr ⟨rfl, rfl⟩⟩
    | some next =>
      obtain ⟨payload, rest⟩ := next
      obtain ⟨hsize, heq⟩ := readRecord_exact hread
      have hlen : rest.length < n := by
        rw [← hn, heq, record, List.length_append, List.length_append, length_leBytes]
        omega
      obtain ⟨payloads, torn, h⟩ := ih rest.length hlen rest rfl
      rw [heq]
      exact ⟨payload :: payloads, torn, h.cons hsize⟩

theorem Splits.unique {file torn torn' : List UInt8} {payloads payloads' : List (List UInt8)}
    (h : Splits k file payloads torn) (h' : Splits k file payloads' torn') : payloads = payloads' ∧ torn = torn' := by
  induction payloads generalizing file payloads' with
  | nil =>
    have heq : file = torn := h.eq
    obtain ⟨hpayloads, htorn⟩ := (splits_torn_iff (heq ▸ h.torn)).mp h'
    rw [hpayloads, htorn, heq]
    exact ⟨rfl, rfl⟩
  | cons first rest ih =>
    have hsize := h.sizes first List.mem_cons_self
    have heq : file = record k first ++ (rest.flatMap (record k) ++ torn) := by
      rw [h.eq, List.flatMap_cons, List.append_assoc]
    rw [heq] at h h'
    obtain ⟨tail, htail, h⟩ := (splits_record_iff hsize).mp h
    obtain ⟨rest', hrest', h'⟩ := (splits_record_iff hsize).mp h'
    cases htail
    obtain ⟨hrest, htorn⟩ := ih h h'
    rw [hrest', hrest]
    exact ⟨rfl, htorn⟩

end Records
