import Mathlib.Logic.Function.Basic

/- Flags and their owners. Each resource of `L` has a flag that is set while it
   is taken, and each holder of `W` owns at most one resource. The two agree when
   a flag is set exactly while some holder owns the resource, and no two holders
   own the same one. Taking a free resource, giving one back and handing it on
   to a holder that owns none keep the agreement; handing on to a holder that
   owns one loses that one for good.

   The holders may be variables of a program, the values in them what owns: then
   `table w` is the value in `w`, if there is one, and a move from one variable
   to another hands on what the value owns (`bind_move`). -/
namespace Ownership

open Function

variable {L W : Type}

/-- The flags agree with the owners. -/
structure Consistent (taken : L → Bool) (owner : W → Option L) : Prop where
  taken_iff : ∀ l, taken l = true ↔ ∃ w, owner w = some l
  unique : ∀ l w w', owner w = some l → owner w' = some l → w = w'

theorem Consistent.existsUnique {taken : L → Bool} {owner : W → Option L} (h : Consistent taken owner) (l : L) :
    taken l = true ↔ ∃! w, owner w = some l := by
  rw [h.taken_iff]
  constructor
  · intro hex
    obtain ⟨w, hw⟩ := hex
    exact ⟨w, hw, fun w' hw' => h.unique l w' w hw' hw⟩
  · intro hex
    obtain ⟨w, hw, -⟩ := hex
    exact ⟨w, hw⟩

theorem consistent_initial : Consistent (fun _ : L => false) (fun _ : W => (none : Option L)) :=
  ⟨fun l => by simp, fun l w w' hw => by cases hw⟩

section
variable [DecidableEq L] [DecidableEq W] {taken : L → Bool} {owner : W → Option L}

theorem Consistent.acquire (h : Consistent taken owner) {l : L} {w : W} (hfree : taken l = false)
    (hw : owner w = none) : Consistent (update taken l true) (update owner w (some l)) := by
  -- a clear flag has no owner
  have hnone : ∀ v, owner v ≠ some l := by
    intro v hv
    have htaken := (h.taken_iff l).mpr ⟨v, hv⟩
    rw [hfree] at htaken
    cases htaken
  constructor
  · intro k
    by_cases hk : k = l
    · subst hk
      simp only [update_self, true_iff]
      exact ⟨w, by rw [update_self]⟩
    · rw [update_of_ne hk, h.taken_iff]
      constructor
      · intro hex
        obtain ⟨v, hv⟩ := hex
        have hvw : v ≠ w := by intro heq; subst heq; rw [hw] at hv; cases hv
        exact ⟨v, by rw [update_of_ne hvw, hv]⟩
      · intro hex
        obtain ⟨v, hv⟩ := hex
        by_cases hvw : v = w
        · subst hvw
          rw [update_self, Option.some.injEq] at hv
          exact absurd hv.symm hk
        · rw [update_of_ne hvw] at hv
          exact ⟨v, hv⟩
  · intro k v v' hv hv'
    -- the new owner of `l` is alone, the others own what they owned
    by_cases hvw : v = w <;> by_cases hvw' : v' = w
    · rw [hvw, hvw']
    · subst hvw
      rw [update_self, Option.some.injEq] at hv
      rw [update_of_ne hvw', ← hv] at hv'
      exact absurd hv' (hnone v')
    · subst hvw'
      rw [update_self, Option.some.injEq] at hv'
      rw [update_of_ne hvw, ← hv'] at hv
      exact absurd hv (hnone v)
    · rw [update_of_ne hvw] at hv
      rw [update_of_ne hvw'] at hv'
      exact h.unique k v v' hv hv'

theorem Consistent.release (h : Consistent taken owner) {l : L} {w : W} (hw : owner w = some l) :
    Consistent (update taken l false) (update owner w none) := by
  have hother : ∀ {v k}, update owner w none v = some k → v ≠ w ∧ owner v = some k := by
    intro v k hv
    by_cases hvw : v = w
    · subst hvw; rw [update_self] at hv; cases hv
    · rw [update_of_ne hvw] at hv
      exact ⟨hvw, hv⟩
  constructor
  · intro k
    by_cases hk : k = l
    · subst hk
      simp only [update_self, Bool.false_eq_true, false_iff, not_exists]
      intro v hv
      exact (hother hv).1 (h.unique k v w (hother hv).2 hw)
    · rw [update_of_ne hk, h.taken_iff]
      constructor
      · intro hex
        obtain ⟨v, hv⟩ := hex
        have hvw : v ≠ w := by
          intro heq
          subst heq
          rw [hw, Option.some.injEq] at hv
          exact hk hv.symm
        exact ⟨v, by rw [update_of_ne hvw, hv]⟩
      · intro hex
        obtain ⟨v, hv⟩ := hex
        exact ⟨v, (hother hv).2⟩
  · intro k v v' hv hv'
    exact h.unique k v v' (hother hv).2 (hother hv').2

/-- The owners after `src` handed what it owns on to `dst`. -/
def handOn (owner : W → Option L) (src dst : W) : W → Option L := update (update owner dst (owner src)) src none

omit [DecidableEq L] in
theorem handOn_some {src dst v : W} {l : L} (hv : handOn owner src dst v = some l) :
    v ≠ src ∧ (v = dst ∧ owner src = some l ∨ v ≠ dst ∧ owner v = some l) := by
  by_cases hs : v = src
  · subst hs; simp [handOn] at hv
  · rw [handOn, update_of_ne hs] at hv
    by_cases hd : v = dst
    · subst hd
      rw [update_self] at hv
      exact ⟨hs, .inl ⟨rfl, hv⟩⟩
    · rw [update_of_ne hd] at hv
      exact ⟨hs, .inr ⟨hd, hv⟩⟩

omit [DecidableEq L] in
theorem Consistent.handedOn (h : Consistent taken owner) {src dst : W} (hne : src ≠ dst) (hdst : owner dst = none) :
    Consistent taken (handOn owner src dst) := by
  constructor
  · intro k
    rw [h.taken_iff]
    constructor
    · intro hex
      obtain ⟨v, hv⟩ := hex
      by_cases hs : v = src
      · subst hs
        exact ⟨dst, by rw [handOn, update_of_ne (Ne.symm hne), update_self, hv]⟩
      · have hd : v ≠ dst := by intro heq; subst heq; rw [hdst] at hv; cases hv
        exact ⟨v, by rw [handOn, update_of_ne hs, update_of_ne hd, hv]⟩
    · intro hex
      obtain ⟨v, hv⟩ := hex
      rcases (handOn_some hv).2 with ⟨-, hsrc⟩ | ⟨-, hv⟩
      · exact ⟨src, hsrc⟩
      · exact ⟨v, hv⟩
  · intro k v v' hv hv'
    obtain ⟨hs, hcase⟩ := handOn_some hv
    obtain ⟨hs', hcase'⟩ := handOn_some hv'
    -- `dst` stands for `src`, which is no owner any more
    rcases hcase with ⟨hd, hown⟩ | ⟨-, hown⟩ <;> rcases hcase' with ⟨hd', hown'⟩ | ⟨-, hown'⟩
    · rw [hd, hd']
    · exact absurd (h.unique k v' src hown' hown) hs'
    · exact absurd (h.unique k v src hown hown') hs
    · exact h.unique k v v' hown hown'

omit [DecidableEq L] in
/-- What `dst` owned is taken and has no owner any more. -/
theorem Consistent.lost (h : Consistent taken owner) {src dst : W} (hne : src ≠ dst) {l : L}
    (hdst : owner dst = some l) : taken l = true ∧ ∀ w, handOn owner src dst w ≠ some l := by
  refine ⟨(h.taken_iff l).mpr ⟨dst, hdst⟩, fun w hw => ?_⟩
  rcases (handOn_some hw).2 with ⟨-, hsrc⟩ | ⟨hd, hw⟩
  · exact hne (h.unique l src dst hsrc hdst)
  · exact hd (h.unique l w dst hw hdst)

end

/-! Tables of values that own. -/

section
variable [DecidableEq W] {α : Type} {table : W → Option α}

theorem forall_update {P : α → Prop} (h : ∀ w x, table w = some x → P x) (w : W) {y : Option α}
    (hy : ∀ x, y = some x → P x) : ∀ v x, update table w y v = some x → P x := by
  intro v x hv
  by_cases hvw : v = w
  · subst hvw
    rw [update_self] at hv
    exact hy x hv
  · rw [update_of_ne hvw] at hv
    exact h v x hv

theorem bind_update (owned : α → Option L) (table : W → Option α) (w : W) (y : Option α) :
    (fun v => (update table w y v).bind owned) = update (fun v => (table v).bind owned) w (y.bind owned) := by
  funext v
  by_cases h : v = w
  · subst h; simp
  · simp [h]

/-- A move: the target gets a value that owns what the source's does, the source
is left with one that owns nothing. -/
theorem bind_move {owned : α → Option L} {src dst : W} {x moved left : α} (hsrc : table src = some x)
    (hmoved : owned moved = owned x) (hleft : owned left = none) :
    (fun v => (update (update table dst (some moved)) src (some left) v).bind owned) =
      handOn (fun v => (table v).bind owned) src dst := by
  rw [bind_update, bind_update, handOn, Option.bind_some, Option.bind_some, hmoved, hleft, hsrc, Option.bind_some]

end

end Ownership
