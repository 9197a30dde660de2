import Postform.Lib.Runs

/- Refinement of one labelled transition system by another. Under an abstraction
   function each concrete step is the abstract step its label stands for, or, if
   it stands for none, leaves the abstract state as it is. A run then has an image
   among the abstract runs, and what holds throughout the image of the abstract
   states holds throughout the run of the concrete ones (`Refines.always`). -/
namespace Simulation

open Runs

variable {σ α τ β : Type}

/-- Every concrete step is explained abstractly. -/
def Refines (step : σ → α → σ → Prop) (spec : τ → β → τ → Prop) (abs : σ → τ) (label : σ → α → Option β) : Prop :=
  ∀ s a t, step s a t → match label s a with
    | some b => spec (abs s) b (abs t)
    | none => abs t = abs s

/-- The abstract trace of a concrete one. -/
def image (abs : σ → τ) (label : σ → α → Option β) : σ → Trace α σ → Trace β τ
  | _, [] => []
  | s, (a, t) :: tr =>
    match label s a with
    | some b => (b, abs t) :: image abs label t tr
    | none => image abs label t tr

variable {step : σ → α → σ → Prop} {spec : τ → β → τ → Prop} {abs : σ → τ} {label : σ → α → Option β}

/-- **Runs are explained**: the image of a run is a run that ends in the
    abstraction of its last state. -/
theorem Refines.isRun (h : Refines step spec abs label) {s : σ} {tr : Trace α σ} (hrun : IsRun step s tr) :
    IsRun spec (abs s) (image abs label s tr) ∧ final (abs s) (image abs label s tr) = abs (final s tr) := by
  induction tr generalizing s with
  | nil => exact ⟨trivial, rfl⟩
  | cons at' tr ih =>
    obtain ⟨a, t⟩ := at'
    obtain ⟨hstep, hrun⟩ := hrun
    obtain ⟨himage, hfinal⟩ := ih hrun
    have hone := h s a t hstep
    unfold image
    cases hlabel : label s a with
    | some b =>
      rw [hlabel] at hone
      exact ⟨⟨hone, himage⟩, hfinal⟩
    | none =>
      rw [hlabel] at hone
      rw [← hone]
      exact ⟨himage, hfinal⟩

/-- **Invariants come down**: what every abstract run keeps, every concrete run
    keeps of its abstraction. -/
theorem Refines.always (h : Refines step spec abs label) {P : τ → Prop} {s : σ}
    (hspec : ∀ tr, IsRun spec (abs s) tr → Always P (abs s) tr) {tr : Trace α σ} (hrun : IsRun step s tr) :
    Always (fun s => P (abs s)) s tr := by
  induction tr generalizing s with
  | nil => exact hspec [] trivial
  | cons at' tr ih =>
    obtain ⟨a, t⟩ := at'
    obtain ⟨hstep, hrun⟩ := hrun
    have hone := h s a t hstep
    refine ⟨hspec [] trivial, ih ?_ hrun⟩
    intro more hmore
    cases hlabel : label s a with
    | some b =>
      rw [hlabel] at hone
      exact (hspec ((b, abs t) :: more) ⟨hone, hmore⟩).2
    | none =>
      rw [hlabel] at hone
      rw [hone] at hmore ⊢
      exact hspec more hmore

end Simulation
