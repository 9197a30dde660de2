import Mathlib.Data.Nat.ModEq

/- Positions on a ring. Counters that only grow are kept as offsets below the
   ring's size: the counter `k` stands at `slot start size k`. Two counters less
   than one turn apart are at the same slot only if they are equal, so the
   offsets decide on emptiness and fullness as long as the counters stay within
   a turn of each other. -/
namespace Ring

/-- Where a counter stands on a ring that was entered at `start`. -/
def slot (start size k : Nat) : Nat := (start + k) % size

variable {start size : Nat}

theorem slot_lt (h : 0 < size) (k : Nat) : slot start size k < size := Nat.mod_lt _ h

theorem slot_zero (h : start < size) : slot start size 0 = start := Nat.mod_eq_of_lt h

theorem slot_add_size (k : Nat) : slot start size (k + size) = slot start size k := by
  rw [slot, ← Nat.add_assoc, Nat.add_mod_right, slot]

theorem slot_inj {i j : Nat} (hij : i ≤ j) (hji : j < i + size) (h : slot start size i = slot start size j) : i = j := by
  have hdvd : size ∣ (start + j) - (start + i) := (Nat.modEq_iff_dvd' (by omega)).mp h
  have hzero := Nat.eq_zero_of_dvd_of_lt hdvd (by omega)
  omega

theorem slot_slot (i k : Nat) : slot (slot start size i) size k = slot start size (i + k) := by
  unfold slot
  rw [Nat.mod_add_mod, Nat.add_assoc]

/-- How many slots `b` is ahead of `a`. -/
def ahead (size a b : Nat) : Nat := (b + size - a) % size

theorem slot_ahead {a b : Nat} (ha : a < size) (hb : b < size) : slot a size (ahead size a b) = b := by
  calc slot a size (ahead size a b) = (a + (b + size - a)) % size := Nat.add_mod_mod ..
    _ = (b + size) % size := by rw [Nat.add_sub_cancel' (by omega)]
    _ = b := by rw [Nat.add_mod_right, Nat.mod_eq_of_lt hb]

/-- Of two counters the slots tell the distance up to whole turns. -/
theorem ahead_slot (h : 0 < size) {i j : Nat} (hij : i ≤ j) :
    ahead size (slot start size i) (slot start size j) = (j - i) % size := by
  have hi := @slot_lt start size h i
  have hback : (ahead size (slot start size i) (slot start size j) + slot start size i) % size =
      ((j - i) % size + slot start size i) % size := by
    calc (ahead size (slot start size i) (slot start size j) + slot start size i) % size
        = (slot start size j + size - slot start size i + slot start size i) % size := Nat.mod_add_mod ..
      _ = (slot start size j + size) % size := by rw [Nat.sub_add_cancel (by omega)]
      _ = slot start size j := by rw [Nat.add_mod_right, Nat.mod_eq_of_lt (slot_lt h j)]
      _ = (slot start size i + (j - i)) % size := by
        rw [← slot, slot_slot, Nat.add_sub_cancel' hij]
      _ = ((j - i) % size + slot start size i) % size := by rw [Nat.mod_add_mod, Nat.add_comm]
  have hcancel : ahead size (slot start size i) (slot start size j) ≡ (j - i) % size [MOD size] :=
    Nat.ModEq.add_right_cancel' _ hback
  exact Nat.ModEq.eq_of_lt_of_lt hcancel (Nat.mod_lt _ h) (Nat.mod_lt _ h)

/-- The last counter before `j` that stands where `i` does. -/
theorem slot_sub_ahead (h : 0 < size) {i j : Nat} (hij : i ≤ j) :
    ahead size (slot start size i) (slot start size j) ≤ j - i ∧
      slot start size (j - ahead size (slot start size i) (slot start size j)) = slot start size i := by
  rw [ahead_slot h hij]
  have hle : (j - i) % size ≤ j - i := Nat.mod_le _ _
  refine ⟨hle, ?_⟩
  -- whole turns lie between them
  have hturns : j - (j - i) % size = i + size * ((j - i) / size) := by
    have := Nat.mod_add_div (j - i) size
    omega
  rw [hturns, slot, ← Nat.add_assoc, Nat.add_mul_mod_self_left, slot]

theorem slot_succ (h : 0 < size) (k : Nat) : slot start size (k + 1) =
    if size ≤ slot start size k + 1 then slot start size k + 1 - size else slot start size k + 1 := by
  have hlt := @slot_lt start size h k
  have hmod : slot start size (k + 1) = (slot start size k + 1) % size := by
    calc (start + (k + 1)) % size = (start + k + 1) % size := by rw [Nat.add_assoc]
      _ = ((start + k) % size + 1) % size := (Nat.mod_add_mod (start + k) size 1).symm
  rw [hmod]
  split
  · next hge =>
    rw [Nat.mod_eq_sub_mod hge, Nat.mod_eq_of_lt (by omega)]
  · exact Nat.mod_eq_of_lt (by omega)

/-- A slot is free for the counter `j` when no counter less than a turn behind
stands there. -/
theorem slot_ne {i j : Nat} (hij : i < j) (hji : j < i + size) : slot start size i ≠ slot start size j :=
  fun h => Nat.ne_of_lt hij (slot_inj (Nat.le_of_lt hij) hji h)

end Ring
