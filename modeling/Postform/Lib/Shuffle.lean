import Mathlib.Data.List.Basic
import Mathlib.Data.List.Infix

/- Histories of many sources. The entries of a history carry the key of the
   source they come from. Where those of each key follow the list of that source,
   seen through `f` and `g`, every entry can be matched to an element of its
   source's list, each used once and in order (`exists_matching`). -/
namespace Shuffle

variable {κ α β γ : Type} [DecidableEq κ]

/-- The elements matched to the entries of one key. -/
def ofKey (key : α → κ) (i : κ) (matched : List (α × β)) : List β :=
  (matched.filter fun z => key z.1 = i).map Prod.snd

/-- **Matching.** -/
theorem exists_matching (key : α → κ) (f : α → γ) (g : β → γ) : ∀ (entries : List α) (source : κ → List β),
    (∀ i, (entries.filter fun x => key x = i).map f <+: (source i).map g) →
    ∃ matched : List (α × β), matched.map Prod.fst = entries ∧ (∀ z ∈ matched, g z.2 = f z.1) ∧
      ∀ i, ofKey key i matched <+: source i
  | [], source, _ => ⟨[], rfl, fun z hz => (nomatch hz), fun i => List.nil_prefix⟩
  | x :: entries, source, h => by
    -- the entry takes the first element of its source
    have hx := h (key x)
    rw [List.filter_cons_of_pos (by simp), List.map_cons] at hx
    obtain ⟨y, rest, hsource, hy⟩ : ∃ y rest, source (key x) = y :: rest ∧ g y = f x := by
      cases hs : source (key x) with
      | nil =>
        rw [hs, List.map_nil, List.prefix_nil] at hx
        cases hx
      | cons y rest =>
        rw [hs, List.map_cons, List.cons_prefix_cons] at hx
        exact ⟨y, rest, rfl, hx.1.symm⟩
    let left : κ → List β := fun i => if i = key x then rest else source i
    obtain ⟨matched, hentries, hmatch, hof⟩ := exists_matching key f g entries left fun i => by
      have hi := h i
      by_cases hix : i = key x
      · subst hix
        rw [List.filter_cons_of_pos (by simp), List.map_cons, hsource, List.map_cons, List.cons_prefix_cons] at hi
        simp only [left, if_true]
        exact hi.2
      · rw [List.filter_cons_of_neg (by simpa using Ne.symm hix)] at hi
        simp only [left, if_neg hix]
        exact hi
    refine ⟨(x, y) :: matched, by rw [List.map_cons, hentries], fun z hz => ?_, fun i => ?_⟩
    · rcases List.mem_cons.mp hz with rfl | hz
      · exact hy
      · exact hmatch z hz
    · have hi := hof i
      unfold ofKey at hi ⊢
      by_cases hix : i = key x
      · subst hix
        rw [List.filter_cons_of_pos (by simp), List.map_cons, hsource, List.cons_prefix_cons]
        simp only [left, if_true] at hi
        exact ⟨rfl, hi⟩
      · rw [List.filter_cons_of_neg (by simpa using Ne.symm hix)]
        simp only [left, if_neg hix] at hi
        exact hi

theorem ofKey_sublist {key : α → κ} {matched some : List (α × β)} (h : some.Sublist matched) (i : κ) :
    (ofKey key i some).Sublist (ofKey key i matched) := (h.filter _).map _

end Shuffle
