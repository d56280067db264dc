import Mathlib.Logic.Basic

/-!
# Foundations/Yields — what a computation that may fail yields

    Yields x Q   =   x ends normally, with a value in Q

For `Except` this is a weakest precondition, as `Returns` is for a computation with state.  A loop
with a bound yields a value where a measure of its arguments says that the bound is not reached.
`YieldsOr` also says with which exceptions a computation may end.
-/

namespace LittleLoader

variable {ε α β : Type}

/-- **The computation ends normally**, with a value in `Q`. -/
def Yields (x : Except ε α) (Q : α → Prop) : Prop := ∃ a, x = .ok a ∧ Q a

namespace Yields

variable {x y : Except ε α} {f : α → Except ε β} {P Q : α → Prop} {R : β → Prop} {a : α} {c : Prop}
  [Decidable c]

theorem ok (h : Q a) : Yields (.ok a : Except ε α) Q := ⟨a, rfl, h⟩

theorem pure (h : Q a) : Yields (Pure.pure a : Except ε α) Q := ⟨a, rfl, h⟩

/-- **Sequencing.** -/
theorem bind (hx : Yields x P) (hf : ∀ a, P a → Yields (f a) R) : Yields (x >>= f) R := by
  obtain ⟨a, rfl, ha⟩ := hx
  exact hf a ha

/-- **Consequence.** -/
theorem mono (hx : Yields x P) (hPQ : ∀ a, P a → Q a) : Yields x Q := by
  obtain ⟨a, hx, ha⟩ := hx
  exact ⟨a, hx, hPQ a ha⟩

/-- **A case distinction.** -/
theorem ite (hx : c → Yields x Q) (hy : ¬ c → Yields y Q) : Yields (if c then x else y) Q := by
  by_cases hc : c
  · rw [if_pos hc]
    exact hx hc
  · rw [if_neg hc]
    exact hy hc

end Yields

/-! ## Computations that may fail -/

/-- The computation ends with a value in `Q`, or with an exception in `E`. -/
def YieldsOr (x : Except ε α) (Q : α → Prop) (E : ε → Prop) : Prop :=
  match x with
  | .ok a => Q a
  | .error e => E e

section YieldsOr

variable {x y : Except ε α} {f : α → Except ε β} {P Q : α → Prop} {R : β → Prop} {E : ε → Prop}
  {e : ε} {c : Prop} [Decidable c]

theorem Yields.or (h : Yields x Q) : YieldsOr x Q E := by
  obtain ⟨a, rfl, ha⟩ := h
  exact ha

namespace YieldsOr

theorem throw (h : E e) : YieldsOr (MonadExcept.throw e : Except ε α) Q E := h

/-- What is promised of the value that there is. -/
theorem of_eq_ok {a : α} (hx : YieldsOr x Q E) (ha : x = .ok a) : Q a := by
  subst ha
  exact hx

/-- **Consequence.** -/
theorem mono (hx : YieldsOr x P E) (hPQ : ∀ a, P a → Q a) : YieldsOr x Q E := by
  cases x with
  | ok a => exact hPQ a hx
  | error e => exact hx

/-- **Sequencing.** -/
theorem bind (hx : YieldsOr x P E) (hf : ∀ a, P a → YieldsOr (f a) R E) :
    YieldsOr (x >>= f) R E := by
  cases x with
  | ok a => exact hf a hx
  | error e => exact hx

/-- **A case distinction.** -/
theorem ite (hx : c → YieldsOr x Q E) (hy : ¬ c → YieldsOr y Q E) :
    YieldsOr (if c then x else y) Q E := by
  by_cases hc : c
  · rw [if_pos hc]
    exact hx hc
  · rw [if_neg hc]
    exact hy hc

end YieldsOr

end YieldsOr

end LittleLoader
