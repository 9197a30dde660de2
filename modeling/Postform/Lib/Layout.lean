import Mathlib.Algebra.Order.Ring.Int
import Mathlib.Data.List.Basic

/- The layout of C data. A type has a size and an alignment that divides it. The
   fields of a structure follow one another, each at the next multiple of its
   alignment, and the structure ends at the next multiple of the largest. So a
   field lies within the structure (`offsetOf_add_le`) and apart from every other
   field (`fields_apart`). -/
namespace Layout

/-- The least multiple of `a` that is not below `n`. -/
def alignUp (n a : Nat) : Nat := (n + a - 1) / a * a

theorem dvd_alignUp (n a : Nat) : a ∣ alignUp n a := Nat.dvd_mul_left a _

theorem le_alignUp {a : Nat} (ha : 0 < a) (n : Nat) : n ≤ alignUp n a := by
  have hdiv := Nat.div_add_mod (n + a - 1) a
  have hmod := Nat.mod_lt (n + a - 1) ha
  rw [Nat.mul_comm] at hdiv
  unfold alignUp
  omega

/-- A type: its size, and its alignment as a power of two. -/
structure Extent where
  size : Nat
  logAlign : Nat
  whole : 2 ^ logAlign ∣ size

def Extent.align (e : Extent) : Nat := 2 ^ e.logAlign

theorem Extent.align_pos (e : Extent) : 0 < e.align := Nat.pow_pos (by decide)

/-- A number of `2 ^ k` bytes. -/
def scalar (k : Nat) : Extent := ⟨2 ^ k, k, Nat.dvd_refl _⟩

def Extent.array (e : Extent) (n : Nat) : Extent := ⟨n * e.size, e.logAlign, Nat.dvd_mul_left_of_dvd e.whole n⟩

/-! Structures. -/

/-- The fields in order, each with its type. -/
abbrev Fields (ι : Type) := List (ι × Extent)

section
variable {ι : Type}

/-- The end of the last field, where the first is placed from `offset` on. -/
def endFrom : Nat → Fields ι → Nat
  | offset, [] => offset
  | offset, (_, e) :: rest => endFrom (alignUp offset e.align + e.size) rest

def logAlign : Fields ι → Nat
  | [] => 0
  | (_, e) :: rest => max e.logAlign (logAlign rest)

def struct (fields : Fields ι) : Extent :=
  ⟨alignUp (endFrom 0 fields) (2 ^ logAlign fields), logAlign fields, dvd_alignUp ..⟩

theorem le_endFrom : ∀ (fields : Fields ι) (offset : Nat), offset ≤ endFrom offset fields
  | [], _ => Nat.le_refl _
  | (_, e) :: rest, offset => by
    have hpad := le_alignUp e.align_pos offset
    have ih := le_endFrom rest (alignUp offset e.align + e.size)
    unfold endFrom
    omega

theorem extent_unique {f : ι} {e e' : Extent} {rest : Fields ι} (hnodup : (((f, e) :: rest).map Prod.fst).Nodup)
    (hmem : (f, e') ∈ (f, e) :: rest) : e' = e := by
  rcases List.mem_cons.mp hmem with heq | hrest
  · cases heq
    rfl
  · have hnot : f ∉ rest.map Prod.fst := (List.nodup_cons.mp hnodup).1
    exact absurd (List.mem_map_of_mem hrest) hnot

variable [DecidableEq ι]

def offsetFrom (f : ι) : Nat → Fields ι → Nat
  | offset, [] => offset
  | offset, (g, e) :: rest =>
    if g = f then alignUp offset e.align else offsetFrom f (alignUp offset e.align + e.size) rest

/-- The offset of the field. -/
def offsetOf (fields : Fields ι) (f : ι) : Nat := offsetFrom f 0 fields

theorem le_offsetFrom (f : ι) : ∀ (fields : Fields ι) (offset : Nat), offset ≤ offsetFrom f offset fields
  | [], _ => Nat.le_refl _
  | (g, e) :: rest, offset => by
    have hpad := le_alignUp e.align_pos offset
    have ih := le_offsetFrom f rest (alignUp offset e.align + e.size)
    unfold offsetFrom
    split <;> omega

variable {f g : ι} {e e' : Extent} {fields : Fields ι}

theorem offsetFrom_add_le : ∀ {fields : Fields ι} (offset : Nat), (fields.map Prod.fst).Nodup → (f, e) ∈ fields →
    offsetFrom f offset fields + e.size ≤ endFrom offset fields
  | (g, e') :: rest, offset, hnodup, hmem => by
    unfold offsetFrom endFrom
    by_cases hname : g = f
    · subst hname
      have he : e = e' := extent_unique hnodup hmem
      rw [if_pos rfl, he]
      exact le_endFrom ..
    · have hrest : (f, e) ∈ rest := by
        rcases List.mem_cons.mp hmem with heq | hrest
        · cases heq
          exact absurd rfl hname
        · exact hrest
      rw [if_neg hname]
      exact offsetFrom_add_le _ (List.nodup_cons.mp hnodup).2 hrest

/-- **A field lies within its structure.** -/
theorem offsetOf_add_le (hnodup : (fields.map Prod.fst).Nodup) (hmem : (f, e) ∈ fields) :
    offsetOf fields f + e.size ≤ (struct fields).size := by
  calc offsetOf fields f + e.size ≤ endFrom 0 fields := offsetFrom_add_le 0 hnodup hmem
    _ ≤ (struct fields).size := le_alignUp (struct fields).align_pos _

theorem offsetFrom_apart : ∀ {fields : Fields ι} (offset : Nat), (fields.map Prod.fst).Nodup → (f, e) ∈ fields →
    (g, e') ∈ fields → f ≠ g → offsetFrom f offset fields + e.size ≤ offsetFrom g offset fields ∨
      offsetFrom g offset fields + e'.size ≤ offsetFrom f offset fields
  | (i, ei) :: rest, offset, hnodup, hf, hg, hne => by
    have hbehind := fun j => le_offsetFrom j rest (alignUp offset ei.align + ei.size)
    unfold offsetFrom
    by_cases hif : i = f
    · subst hif
      rw [if_pos rfl, if_neg hne, extent_unique hnodup hf]
      exact .inl (hbehind g)
    · by_cases hig : i = g
      · subst hig
        rw [if_pos rfl, if_neg hif, extent_unique hnodup hg]
        exact .inr (hbehind f)
      · have hf' : (f, e) ∈ rest := (List.mem_cons.mp hf).resolve_left fun h => hif (congrArg Prod.fst h).symm
        have hg' : (g, e') ∈ rest := (List.mem_cons.mp hg).resolve_left fun h => hig (congrArg Prod.fst h).symm
        rw [if_neg hif, if_neg hig]
        exact offsetFrom_apart _ (List.nodup_cons.mp hnodup).2 hf' hg' hne

/-- **Two fields of a structure do not overlap.** -/
theorem fields_apart (hnodup : (fields.map Prod.fst).Nodup) (hf : (f, e) ∈ fields) (hg : (g, e') ∈ fields)
    (hne : f ≠ g) : offsetOf fields f + e.size ≤ offsetOf fields g ∨ offsetOf fields g + e'.size ≤ offsetOf fields f :=
  offsetFrom_apart 0 hnodup hf hg hne

end

/-! Arrays. -/

theorem element_le {n i : Nat} (e : Extent) (h : i < n) : i * e.size + e.size ≤ (e.array n).size := by
  show i * e.size + e.size ≤ n * e.size
  rw [← Nat.succ_mul]
  exact Nat.mul_le_mul_right _ h

theorem elements_apart {i j : Nat} (e : Extent) (h : i ≠ j) :
    i * e.size + e.size ≤ j * e.size ∨ j * e.size + e.size ≤ i * e.size := by
  rw [← Nat.succ_mul, ← Nat.succ_mul]
  rcases Nat.lt_or_gt_of_ne h with hlt | hgt
  · exact .inl (Nat.mul_le_mul_right _ hlt)
  · exact .inr (Nat.mul_le_mul_right _ hgt)

end Layout
