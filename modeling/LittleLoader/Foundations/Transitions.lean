import Mathlib.Logic.Relation

/-!
# Foundations/Transitions — the states that a labelled step function reaches

    Reaches step P s t   =   s ──▸ ⋯ ──▸ t, every step with a label that P allows where it is taken

`Reaches.invariant` is the induction over a run, and `Reaches.of_run` reads a run off the step
function.
-/

namespace LittleLoader

variable {σ ι : Type} {step : σ → ι → Option σ} {P Q : σ → ι → Prop} {I : σ → Prop} {s t u : σ}

/-- A run from `s` to `t` whose steps are all allowed by `P`. -/
def Reaches (step : σ → ι → Option σ) (P : σ → ι → Prop) : σ → σ → Prop :=
  Relation.ReflTransGen fun s t => ∃ l, P s l ∧ step s l = some t

/-- The run with the given labels. -/
def runSteps (step : σ → ι → Option σ) : List ι → σ → Option σ
  | [], s => some s
  | l :: ls, s => (step s l).bind (runSteps step ls)

namespace Reaches

theorem refl (s : σ) : Reaches step P s s := Relation.ReflTransGen.refl

theorem tail {l : ι} (h : Reaches step P s t) (hl : P t l) (hstep : step t l = some u) :
    Reaches step P s u := Relation.ReflTransGen.tail h ⟨l, hl, hstep⟩

/-- A run is one of every weaker condition. -/
theorem mono (hPQ : ∀ s l, P s l → Q s l) (h : Reaches step P s t) : Reaches step Q s t :=
  Relation.ReflTransGen.mono (fun s _ ⟨l, hl, hstep⟩ => ⟨l, hPQ s l hl, hstep⟩) _ _ h

/-- **The rule of invariants**: what every allowed step preserves holds throughout the run. -/
theorem invariant (hstep : ∀ s l t, I s → P s l → step s l = some t → I t)
    (h : Reaches step P s t) (hs : I s) : I t := by
  induction h with
  | refl => exact hs
  | tail _ hlast ih =>
      obtain ⟨l, hl, ht⟩ := hlast
      exact hstep _ l _ ih hl ht

/-- A run of the step function. -/
theorem of_run {ls : List ι} (h : runSteps step ls s = some t) :
    Reaches step (fun _ _ => True) s t := by
  induction ls generalizing s with
  | nil => exact Option.some_inj.mp h ▸ refl s
  | cons l ls ih =>
      obtain ⟨u, hu, hrest⟩ := Option.bind_eq_some_iff.mp h
      exact Relation.ReflTransGen.head ⟨l, trivial, hu⟩ (ih hrest)

/-- **A run of the step function**, with a test of every label that is taken. -/
theorem of_checked_run {c : σ → ι → Bool} (hc : ∀ s l, c s l = true → P s l) {ls : List ι}
    (h : runSteps (fun s l => if c s l = true then step s l else none) ls s = some t) :
    Reaches step P s t := by
  induction ls generalizing s with
  | nil => exact Option.some_inj.mp h ▸ refl s
  | cons l ls ih =>
      obtain ⟨u, hu, hrest⟩ := Option.bind_eq_some_iff.mp h
      dsimp only at hu
      split at hu
      · rename_i hl
        exact Relation.ReflTransGen.head ⟨l, hc s l hl, hu⟩ (ih hrest)
      · exact absurd hu.symm (Option.some_ne_none u)

end Reaches

end LittleLoader
