import Mathlib.Data.Nat.Basic

/- Numerals in base `b`, most significant digit first, as `Nat.toDigits` writes
   them: two numbers with the same numeral are equal, in every base up to 16. -/
namespace Wire.Digits

theorem digitChar_inj {m n : Nat} (hm : m < 16) (hn : n < 16) (h : m.digitChar = n.digitChar) : m = n := by
  have all : ∀ i j : Fin 16, i.val.digitChar = j.val.digitChar → i = j := by decide
  exact Fin.mk.inj (all ⟨m, hm⟩ ⟨n, hn⟩ h)

theorem toDigits_inj {b : Nat} (hb : 1 < b) (hb16 : b ≤ 16) : ∀ {m n : Nat},
    Nat.toDigits b m = Nat.toDigits b n → m = n := by
  intro m
  induction m using Nat.strongRecOn with
  | ind m ih =>
    intro n h
    rw [Nat.toDigits_eq_if hb (n := m), Nat.toDigits_eq_if hb (n := n)] at h
    have hmb := Nat.mod_lt m (show 0 < b by omega)
    have hnb := Nat.mod_lt n (show 0 < b by omega)
    split at h <;> split at h
    · exact digitChar_inj (by omega) (by omega) (by simpa using h)
    · -- one digit against at least two
      have hl := congrArg List.length h
      simp at hl
    · have hl := congrArg List.length h
      simp at hl
    · obtain ⟨hq, hr⟩ := List.append_inj' h rfl
      have hdiv : m / b = n / b := ih (m / b) (Nat.div_lt_self (by omega) hb) hq
      have hmod : m % b = n % b := digitChar_inj (by omega) (by omega) (by simpa using hr)
      calc m = b * (m / b) + m % b := (Nat.div_add_mod m b).symm
        _ = b * (n / b) + n % b := by rw [hdiv, hmod]
        _ = n := Nat.div_add_mod n b

end Wire.Digits
