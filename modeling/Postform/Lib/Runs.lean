import Mathlib.Data.List.Basic

/- Runs of a labelled transition system. A run from `s` is a trace: each label
   with the state it led to. `Always P` says that `P` holds of every state of
   the run, the first included; `Along cond` that every step of it meets
   `cond`, a condition on the state before the step and its label.

   `always_of_step` is the invariant rule. `always_iff_along` is its exact
   form for a system that keeps a property only while its steps meet a
   condition: if from the invariant a step that meets `cond` keeps it and a
   step that does not breaks `P`, then `P` holds throughout a run exactly when
   every step of the run meets `cond`. -/
namespace Runs

variable {σ α : Type}

/-- Each label with the state reached by it. -/
abbrev Trace (α σ : Type) := List (α × σ)

/-- The trace follows the steps of the system from `s`. -/
def IsRun (step : σ → α → σ → Prop) : σ → Trace α σ → Prop
  | _, [] => True
  | s, (a, t) :: tr => step s a t ∧ IsRun step t tr

/-- The last state of the run. -/
def final : σ → Trace α σ → σ
  | s, [] => s
  | _, (_, t) :: tr => final t tr

/-- `P` holds of every state of the run. -/
def Always (P : σ → Prop) : σ → Trace α σ → Prop
  | s, [] => P s
  | s, (_, t) :: tr => P s ∧ Always P t tr

/-- Every step of the run meets `cond`. -/
def Along (cond : σ → α → Prop) : σ → Trace α σ → Prop
  | _, [] => True
  | s, (a, t) :: tr => cond s a ∧ Along cond t tr

variable {step : σ → α → σ → Prop} {P Q : σ → Prop} {cond : σ → α → Prop}

theorem Always.head : ∀ {s : σ} {tr : Trace α σ}, Always P s tr → P s
  | _, [], h => h
  | _, _ :: _, h => h.1

theorem always_final : ∀ (s : σ) (tr : Trace α σ), Always P s tr → P (final s tr)
  | _, [], h => h
  | _, (_, t) :: tr, h => always_final t tr h.2

theorem Always.imp (hpq : ∀ s, P s → Q s) : ∀ {s : σ} {tr : Trace α σ}, Always P s tr → Always Q s tr
  | _, [], h => hpq _ h
  | _, (_, _) :: _, h => ⟨hpq _ h.1, Always.imp hpq h.2⟩

theorem Always.and : ∀ {s : σ} {tr : Trace α σ}, Always P s tr → Always Q s tr → Always (fun s => P s ∧ Q s) s tr
  | _, [], hp, hq => ⟨hp, hq⟩
  | _, (_, _) :: _, hp, hq => ⟨⟨hp.1, hq.1⟩, Always.and hp.2 hq.2⟩

/-- **The invariant rule.** What every step meeting `cond` keeps holds
    throughout a run whose steps all meet it. -/
theorem always_of_along (hkeep : ∀ s a t, P s → step s a t → cond s a → P t) {s : σ} {tr : Trace α σ}
    (h : P s) (hr : IsRun step s tr) (hc : Along cond s tr) : Always P s tr := by
  induction tr generalizing s with
  | nil => exact h
  | cons at' tr ih =>
    obtain ⟨a, t⟩ := at'
    exact ⟨h, ih (hkeep s a t h hr.1 hc.1) hr.2 hc.2⟩

theorem always_of_step (hkeep : ∀ s a t, P s → step s a t → P t) {s : σ} {tr : Trace α σ}
    (h : P s) (hr : IsRun step s tr) : Always P s tr := by
  induction tr generalizing s with
  | nil => exact h
  | cons at' tr ih =>
    obtain ⟨a, t⟩ := at'
    exact ⟨h, ih (hkeep s a t h hr.1) hr.2⟩

theorem isRun_guarded {s : σ} {tr : Trace α σ} (h : Always P s tr) (hr : IsRun step s tr) :
    IsRun (fun s a t => P s ∧ step s a t) s tr := by
  induction tr generalizing s with
  | nil => trivial
  | cons at' tr ih => exact ⟨⟨h.1, hr.1⟩, ih h.2 hr.2⟩

/-- **The exact rule.** `Q` is the invariant that carries `P`. -/
theorem always_iff_along (hqp : ∀ s, Q s → P s)
    (hkeep : ∀ s a t, Q s → step s a t → cond s a → Q t)
    (hbreak : ∀ s a t, Q s → step s a t → ¬cond s a → ¬P t) {s : σ} {tr : Trace α σ}
    (h : Q s) (hr : IsRun step s tr) : Always P s tr ↔ Along cond s tr := by
  constructor
  · intro hP
    induction tr generalizing s with
    | nil => trivial
    | cons at' tr ih =>
      obtain ⟨a, t⟩ := at'
      have hc : cond s a := by
        by_contra hn
        exact hbreak s a t h hr.1 hn hP.2.head
      exact ⟨hc, ih (hkeep s a t h hr.1 hc) hr.2 hP.2⟩
  · intro hc
    exact (always_of_along hkeep h hr hc).imp hqp

theorem isRun_concat {s : σ} {tr : Trace α σ} {a : α} {t : σ} (hr : IsRun step s tr) (hstep : step (final s tr) a t) :
    IsRun step s (tr ++ [(a, t)]) := by
  induction tr generalizing s with
  | nil => exact ⟨hstep, trivial⟩
  | cons bu tr ih => exact ⟨hr.1, ih hr.2 hstep⟩

theorem along_concat {s : σ} {tr : Trace α σ} {a : α} {t : σ} (h : Along cond s (tr ++ [(a, t)])) :
    cond (final s tr) a := by
  induction tr generalizing s with
  | nil => exact h.1
  | cons bu tr ih => exact ih h.2

/-- **Every step of every run** is every step from a state that a run
    reaches. -/
theorem along_iff_reached {s : σ} : (∀ tr, IsRun step s tr → Along cond s tr) ↔
    ∀ tr, IsRun step s tr → ∀ a t, step (final s tr) a t → cond (final s tr) a := by
  constructor
  · intro h tr hr a t hstep
    exact along_concat (h _ (isRun_concat hr hstep))
  · intro h tr hr
    induction tr generalizing s with
    | nil => trivial
    | cons at' tr ih =>
      obtain ⟨a, t⟩ := at'
      refine ⟨h [] trivial a t hr.1, ih ?_ hr.2⟩
      intro more hmore
      exact h ((a, t) :: more) ⟨hr.1, hmore⟩

/-! Continuations whose labels are of one kind. -/

/-- A run whose labels are all among `own` leads from one state to another. -/
def Leads (step : σ → α → σ → Prop) (own : α → Prop) (s t : σ) : Prop :=
  ∃ tr, IsRun step s tr ∧ (∀ x ∈ tr, own x.1) ∧ final s tr = t

theorem Leads.refl {own : α → Prop} (s : σ) : Leads step own s s := ⟨[], trivial, fun _ hx => (nomatch hx), rfl⟩

theorem Leads.cons {own : α → Prop} {s t u : σ} {a : α} (hstep : step s a t) (ha : own a) (h : Leads step own t u) :
    Leads step own s u := by
  obtain ⟨tr, hrun, hown, hfinal⟩ := h
  refine ⟨(a, t) :: tr, ⟨hstep, hrun⟩, fun x hx => ?_, hfinal⟩
  rcases List.mem_cons.mp hx with rfl | hx
  · exact ha
  · exact hown x hx

theorem Leads.trans {own : α → Prop} {s t u : σ} (h : Leads step own s t) (h' : Leads step own t u) :
    Leads step own s u := by
  obtain ⟨tr, hrun, hown, rfl⟩ := h
  induction tr generalizing s with
  | nil => exact h'
  | cons bv tr ih =>
    refine Leads.cons hrun.1 (hown bv List.mem_cons_self) ?_
    exact ih hrun.2 (fun x hx => hown x (List.mem_cons_of_mem _ hx)) h'

theorem Leads.mono {own own' : α → Prop} {s t : σ} (h : Leads step own s t) (hown : ∀ a, own a → own' a) :
    Leads step own' s t := by
  obtain ⟨tr, hrun, hall, hfinal⟩ := h
  exact ⟨tr, hrun, fun x hx => hown x.1 (hall x hx), hfinal⟩

theorem Leads.keeps {own : α → Prop} (hkeep : ∀ s a t, P s → step s a t → own a → P t) {s t : σ} (hs : P s)
    (h : Leads step own s t) : P t := by
  obtain ⟨tr, hrun, hown, rfl⟩ := h
  induction tr generalizing s with
  | nil => exact hs
  | cons bv tr ih =>
    have hv := hkeep s bv.1 bv.2 hs hrun.1 (hown bv List.mem_cons_self)
    exact ih hv hrun.2 fun x hx => hown x (List.mem_cons_of_mem _ hx)

theorem Leads.lift {τ β : Type} {step' : τ → β → τ → Prop} {own : α → Prop} {own' : β → Prop} {f : σ → τ} {g : α → β}
    (hstep : ∀ s a t, step s a t → own a → step' (f s) (g a) (f t)) (hown : ∀ a, own a → own' (g a)) {s t : σ}
    (h : Leads step own s t) : Leads step' own' (f s) (f t) := by
  obtain ⟨tr, hrun, hall, rfl⟩ := h
  induction tr generalizing s with
  | nil => exact Leads.refl (f s)
  | cons bv tr ih =>
    have hb := hall bv List.mem_cons_self
    refine Leads.cons (hstep s bv.1 bv.2 hrun.1 hb) (hown bv.1 hb) ?_
    exact ih hrun.2 fun x hx => hall x (List.mem_cons_of_mem _ hx)

/-- **Counting down.** A measure that every step of one's own lowers by one, and
    that no other step changes, has fallen by the number of one's own steps. What
    these steps keep until it is zero holds then. -/
theorem countdown {measure : σ → Nat} {own : α → Bool}
    (hown : ∀ s a t, P s → step s a t → own a = true → 0 < measure s → measure t + 1 = measure s ∧ P t)
    (hother : ∀ s a t, P s → step s a t → own a = false → measure t = measure s ∧ P t) {s : σ} {tr : Trace α σ}
    (h : P s) (hr : IsRun step s tr) (hle : tr.countP (fun x => own x.1) ≤ measure s) :
    measure (final s tr) + tr.countP (fun x => own x.1) = measure s ∧ P (final s tr) := by
  induction tr generalizing s with
  | nil => exact ⟨rfl, h⟩
  | cons at' tr ih =>
    obtain ⟨a, t⟩ := at'
    rw [List.countP_cons] at hle ⊢
    cases ha : own a with
    | true =>
      simp only [ha, if_true] at hle ⊢
      obtain ⟨hone, ht⟩ := hown s a t h hr.1 ha (by omega)
      obtain ⟨hrest, hfinal⟩ := ih ht hr.2 (by omega)
      refine ⟨?_, hfinal⟩
      show measure (final t tr) + _ = _
      omega
    | false =>
      simp only [ha, Bool.false_eq_true, if_false, Nat.add_zero] at hle ⊢
      obtain ⟨hone, ht⟩ := hother s a t h hr.1 ha
      rw [← hone]
      exact ih ht hr.2 (by omega)

/-- The trace of a sequence of labels under a step function; `none` where one
is not enabled. -/
def follow (step : σ → α → Option σ) : σ → List α → Option (Trace α σ)
  | _, [] => some []
  | s, a :: as => do
    let t ← step s a
    let tr ← follow step t as
    pure ((a, t) :: tr)

theorem isRun_follow {step : σ → α → Option σ} : ∀ (as : List α) {s : σ} {tr : Trace α σ},
    follow step s as = some tr → IsRun (fun s a t => step s a = some t) s tr
  | [], _, _, h => by cases h; trivial
  | a :: as, s, tr, h => by
    obtain ⟨t, ht, h⟩ := Option.bind_eq_some_iff.mp h
    obtain ⟨tr', htr, h⟩ := Option.bind_eq_some_iff.mp h
    cases h
    exact ⟨ht, isRun_follow as htr⟩

theorem foldlM_of_follow {step : σ → α → Option σ} : ∀ (as : List α) {s : σ} {tr : Trace α σ},
    follow step s as = some tr → as.foldlM step s = some (final s tr)
  | [], _, _, h => by cases h; rfl
  | a :: as, s, tr, h => by
    obtain ⟨t, ht, h⟩ := Option.bind_eq_some_iff.mp h
    obtain ⟨tr', htr, h⟩ := Option.bind_eq_some_iff.mp h
    cases h
    rw [List.foldlM_cons, ht]
    exact foldlM_of_follow as htr

theorem exists_isRun {step : σ → α → Option σ} : ∀ (as : List α) {s t : σ}, as.foldlM step s = some t →
    ∃ tr, IsRun (fun s a t => step s a = some t) s tr ∧ final s tr = t
  | [], _, _, h => by
    cases h
    exact ⟨[], trivial, rfl⟩
  | a :: as, s, t, h => by
    rw [List.foldlM_cons] at h
    obtain ⟨u, hu, h⟩ := Option.bind_eq_some_iff.mp h
    obtain ⟨tr, hr, hfinal⟩ := exists_isRun as h
    exact ⟨(a, u) :: tr, ⟨hu, hr⟩, hfinal⟩

theorem foldlM_append {step : σ → α → Option σ} {s t : σ} {as : List α} (h : as.foldlM step s = some t) (more : List α) :
    (as ++ more).foldlM step s = more.foldlM step t := by
  rw [List.foldlM_append, h]
  rfl

theorem along_follow {step : σ → α → Option σ} {cond : α → Prop} : ∀ (as : List α) {s : σ} {tr : Trace α σ},
    follow step s as = some tr → (∀ a ∈ as, cond a) → Along (fun _ a => cond a) s tr
  | [], _, _, h, _ => by cases h; trivial
  | a :: as, s, tr, h, hc => by
    obtain ⟨t, ht, h⟩ := Option.bind_eq_some_iff.mp h
    obtain ⟨tr', htr, h⟩ := Option.bind_eq_some_iff.mp h
    cases h
    exact ⟨hc a List.mem_cons_self, along_follow as htr fun b hb => hc b (List.mem_cons_of_mem _ hb)⟩

end Runs
