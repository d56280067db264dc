import Mathlib.Data.List.Basic

/-!
# Foundations/Simulation — runs of a step function, and the abstract runs behind them

    s  ──i──▸ s'  ──j──▸ s''     with outputs  o, p
    │R        │R         │R
    t  ──i──▸ t'  ──j──▸ t''     with outputs  o, p

A step of the machine is a function of its input and may fail; an abstract step is a relation.  If
every step of the machine goes well and has an abstract step behind it, so does every run
(`Simulates.run`).
-/

namespace LittleLoader

variable {ι ο σ τ ε : Type} {step : ι → σ → Except ε (ο × σ)} {A : ι → τ → ο → τ → Prop}
  {R : σ → τ → Prop} {P : ι → Prop} {is : List ι} {s : σ} {t : τ}

/-- The steps of the machine for some inputs in a row, and their outputs. -/
def runInputs (step : ι → σ → Except ε (ο × σ)) : List ι → σ → Except ε (List ο × σ)
  | [], s => .ok ([], s)
  | i :: is, s => do
      let (o, s) ← step i s
      let (os, s) ← runInputs step is s
      return (o :: os, s)

/-- Abstract steps in a row. -/
inductive Traces (A : ι → τ → ο → τ → Prop) : List ι → τ → List ο → τ → Prop
  | nil (t : τ) : Traces A [] t [] t
  | cons {i : ι} {is : List ι} {o : ο} {os : List ο} {t u w : τ} (h : A i t o u)
      (hs : Traces A is u os w) : Traces A (i :: is) t (o :: os) w

/-- **A simulation**: every step goes well, and has an abstract step behind it. -/
def Simulates (R : σ → τ → Prop) (P : ι → Prop) (step : ι → σ → Except ε (ο × σ))
    (A : ι → τ → ο → τ → Prop) : Prop :=
  ∀ i s t, P i → R s t → ∃ o s' t', step i s = .ok (o, s') ∧ A i t o t' ∧ R s' t'

/-- **Every run goes well, and has an abstract run behind it.** -/
theorem Simulates.run (h : Simulates R P step A) (his : ∀ i ∈ is, P i) (hs : R s t) :
    ∃ os s' t', runInputs step is s = .ok (os, s') ∧ Traces A is t os t' ∧ R s' t' := by
  induction is generalizing s t with
  | nil => exact ⟨[], s, t, rfl, .nil t, hs⟩
  | cons i is ih =>
    obtain ⟨hi, his⟩ := List.forall_mem_cons.mp his
    obtain ⟨o, s₁, t₁, hstep, habs, hs₁⟩ := h i s t hi hs
    obtain ⟨os, s', t', hrun, htraces, hs'⟩ := ih his hs₁
    refine ⟨o :: os, s', t', ?_, .cons habs htraces, hs'⟩
    rw [runInputs, hstep]
    change (runInputs step is s₁ >>= fun x => pure (o :: x.1, x.2)) = _
    rw [hrun]
    rfl

/-- The first output of a run is that of its first step. -/
theorem exists_of_runInputs {i : ι} {o : ο} {os : List ο} {u w : σ} (hstep : step i s = .ok (o, u))
    (hrun : runInputs step (i :: is) s = .ok (os, w)) :
    ∃ os', os = o :: os' ∧ runInputs step is u = .ok (os', w) := by
  rw [runInputs, hstep] at hrun
  change (runInputs step is u >>= fun x => pure (o :: x.1, x.2)) = _ at hrun
  cases hrest : runInputs step is u with
  | error e =>
    rw [hrest] at hrun
    cases hrun
  | ok x =>
    rw [hrest] at hrun
    cases hrun
    exact ⟨x.1, rfl, rfl⟩

end LittleLoader
