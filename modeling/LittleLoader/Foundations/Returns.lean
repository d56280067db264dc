import Mathlib.Logic.Basic

/-!
# Foundations/Returns — total correctness of a computation with state and exceptions

    Returns x s Q   =   x, started in s, ends normally, with a value and a state in Q

For `EStateM` this is a weakest precondition: the equations below (`returns_pure`, `returns_bind`,
…) push it through a program, and `Returns.mono` replaces a call by its specification.  A run that
throws, or that a bounded loop gives up on, satisfies no `Returns`; `Ends` also says in which states
a run may stop.
-/

namespace LittleLoader

variable {ε σ α β : Type}

/-- **Total correctness.**  Started in `s`, the computation ends normally, in `Q`. -/
def Returns (x : EStateM ε σ α) (s : σ) (Q : α → σ → Prop) : Prop :=
  match x.run s with
  | .ok a t => Q a t
  | .error _ _ => False

/-! ## The calculus -/

@[simp] theorem returns_pure {a : α} {s : σ} {Q : α → σ → Prop} :
    Returns (pure a : EStateM ε σ α) s Q ↔ Q a s := Iff.rfl

/-- **Sequencing**: the second computation starts where the first one ended. -/
@[simp] theorem returns_bind {x : EStateM ε σ α} {f : α → EStateM ε σ β} {s : σ}
    {Q : β → σ → Prop} :
    Returns (x >>= f) s Q ↔ Returns x s fun a t => Returns (f a) t Q := by
  simp only [Returns, EStateM.run_bind]
  cases x.run s <;> rfl

@[simp] theorem returns_map {x : EStateM ε σ α} {f : α → β} {s : σ} {Q : β → σ → Prop} :
    Returns (f <$> x) s Q ↔ Returns x s fun a t => Q (f a) t := by
  simp only [Returns, EStateM.run, Functor.map, EStateM.map]
  cases x s <;> rfl

@[simp] theorem returns_get {s : σ} {Q : σ → σ → Prop} :
    Returns (get : EStateM ε σ σ) s Q ↔ Q s s := Iff.rfl

@[simp] theorem returns_set {s t : σ} {Q : PUnit → σ → Prop} :
    Returns (set t : EStateM ε σ PUnit) s Q ↔ Q ⟨⟩ t := Iff.rfl

@[simp] theorem returns_modify {g : σ → σ} {s : σ} {Q : PUnit → σ → Prop} :
    Returns (modify g : EStateM ε σ PUnit) s Q ↔ Q ⟨⟩ (g s) := Iff.rfl

@[simp] theorem not_returns_throw {e : ε} {s : σ} {Q : α → σ → Prop} :
    ¬ Returns (throw e : EStateM ε σ α) s Q := fun h => h

namespace Returns

variable {x : EStateM ε σ α} {s t : σ} {P Q : α → σ → Prop} {a : α}

theorem iff_run : Returns x s Q ↔ ∃ a t, x.run s = .ok a t ∧ Q a t := by
  constructor
  · intro h
    cases hx : x.run s with
    | ok a t => exact ⟨a, t, rfl, by simpa only [Returns, hx] using h⟩
    | error e t => simp only [Returns, hx] at h
  · rintro ⟨a, t, hx, hQ⟩
    simpa only [Returns, hx] using hQ

/-- **Consequence**: a call is replaced by what its specification promises. -/
theorem mono (h : Returns x s P) (hPQ : ∀ a t, P a t → Q a t) : Returns x s Q := by
  obtain ⟨a, t, hx, hP⟩ := iff_run.mp h
  exact iff_run.mpr ⟨a, t, hx, hPQ a t hP⟩

/-- A run is deterministic: what is promised of a run holds of the run there is. -/
theorem of_run (h : Returns x s Q) (hx : x.run s = .ok a t) : Q a t := by
  simpa only [Returns, hx] using h

/-- **A run that ends has one outcome**, and what the run promises is what holds of it. -/
theorem exists_outcome (h : Returns x s P) :
    ∃ a t, P a t ∧ ∀ Q : α → σ → Prop, Returns x s Q ↔ Q a t := by
  obtain ⟨a, t, hx, hP⟩ := iff_run.mp h
  exact ⟨a, t, hP, fun Q => ⟨fun hQ => hQ.of_run hx, fun hQ => iff_run.mpr ⟨a, t, hx, hQ⟩⟩⟩

/-- The state in which the computation ends or stops. -/
def lastState (x : EStateM ε σ α) (s : σ) : σ :=
  match x.run s with
  | .ok _ t => t
  | .error _ t => t

/-- A run that ends normally ends in its last state. -/
theorem exists_lastState (h : Returns x s Q) :
    ∃ a, x.run s = .ok a (lastState x s) ∧ Q a (lastState x s) := by
  obtain ⟨a, t, hx, hQ⟩ := iff_run.mp h
  have hlast : lastState x s = t := by rw [lastState, hx]
  exact ⟨a, by rw [hlast, hx], by rwa [hlast]⟩

/-- Two promises of one run are one promise. -/
theorem and (hP : Returns x s P) (hQ : Returns x s Q) :
    Returns x s fun a t => P a t ∧ Q a t := by
  obtain ⟨a, t, hx, hPa⟩ := iff_run.mp hP
  exact iff_run.mpr ⟨a, t, hx, hPa, hQ.of_run hx⟩

end Returns

/-! ## Runs that may stop -/

/-- Started in `s`, the computation ends in `Q`, or an exception stops it in `E`. -/
def Ends (x : EStateM ε σ α) (s : σ) (Q : α → σ → Prop) (E : ε → σ → Prop) : Prop :=
  match x.run s with
  | .ok a t => Q a t
  | .error e t => E e t

section Ends

variable {x : EStateM ε σ α} {f : α → EStateM ε σ β} {s : σ} {P Q : α → σ → Prop}
  {R : β → σ → Prop} {E F : ε → σ → Prop}

@[simp] theorem ends_pure {a : α} : Ends (pure a : EStateM ε σ α) s Q E ↔ Q a s := Iff.rfl

@[simp] theorem ends_throw {e : ε} : Ends (throw e : EStateM ε σ α) s Q E ↔ E e s := Iff.rfl

@[simp] theorem ends_get {Q : σ → σ → Prop} : Ends (get : EStateM ε σ σ) s Q E ↔ Q s s := Iff.rfl

@[simp] theorem ends_set {t : σ} {Q : PUnit → σ → Prop} :
    Ends (set t : EStateM ε σ PUnit) s Q E ↔ Q ⟨⟩ t := Iff.rfl

@[simp] theorem ends_modify {g : σ → σ} {Q : PUnit → σ → Prop} :
    Ends (modify g : EStateM ε σ PUnit) s Q E ↔ Q ⟨⟩ (g s) := Iff.rfl

/-- **Sequencing**: an exception of the first computation is one of both. -/
@[simp] theorem ends_bind : Ends (x >>= f) s R E ↔ Ends x s (fun a t => Ends (f a) t R E) E := by
  simp only [Ends, EStateM.run_bind]
  cases x.run s <;> rfl

@[simp] theorem ends_map {g : α → β} :
    Ends (g <$> x) s R E ↔ Ends x s (fun a t => R (g a) t) E := by
  simp only [Ends, EStateM.run, Functor.map, EStateM.map]
  cases x s <;> rfl

theorem ends_ite {c : Prop} [Decidable c] {y : EStateM ε σ α} :
    Ends (if c then x else y) s Q E ↔ if c then Ends x s Q E else Ends y s Q E := by
  split <;> rfl

/-- A run that ends normally does not stop. -/
theorem Returns.ends (h : Returns x s Q) : Ends x s Q E := by
  obtain ⟨a, t, hx, hQ⟩ := iff_run.mp h
  simpa only [Ends, hx] using hQ

/-- **A call that ends normally** is replaced by its specification. -/
theorem Returns.ends_bind (h : Returns x s P) (hf : ∀ a t, P a t → Ends (f a) t R E) :
    Ends (x >>= f) s R E :=
  LittleLoader.ends_bind.mpr (h.mono hf).ends

/-- The same for a call in two branches that continue alike. -/
theorem Returns.ends_ite_bind {c : Prop} [Decidable c] {y : EStateM ε σ α}
    (h : Returns (if c then x else y) s P) (hf : ∀ a t, P a t → Ends (f a) t R E) :
    Ends (if c then x >>= f else y >>= f) s R E := by
  split
  · rename_i hc
    exact Returns.ends_bind (by simpa only [if_pos hc] using h) hf
  · rename_i hc
    exact Returns.ends_bind (by simpa only [if_neg hc] using h) hf

namespace Ends

theorem mono (h : Ends x s P F) (hPQ : ∀ a t, P a t → Q a t) (hFE : ∀ e t, F e t → E e t) :
    Ends x s Q E := by
  unfold Ends at h ⊢
  cases hx : x.run s with
  | ok a t => exact hPQ a t (by simpa only [hx] using h)
  | error e t => exact hFE e t (by simpa only [hx] using h)

/-- Two promises of one run are one promise. -/
theorem and (hP : Ends x s P E) (hQ : Ends x s Q F) :
    Ends x s (fun a t => P a t ∧ Q a t) fun e t => E e t ∧ F e t := by
  unfold Ends at hP hQ ⊢
  cases hx : x.run s with
  | ok a t => exact ⟨by simpa only [hx] using hP, by simpa only [hx] using hQ⟩
  | error e t => exact ⟨by simpa only [hx] using hP, by simpa only [hx] using hQ⟩

/-- What holds however the run ends holds. -/
theorem const {p : Prop} (h : Ends x s (fun _ _ => p) fun _ _ => p) : p := by
  unfold Ends at h
  split at h <;> exact h

/-- **A run that cannot stop** ends normally. -/
theorem returns (h : Ends x s Q E) (hE : ∀ e t, ¬ E e t) : Returns x s Q := by
  unfold Ends at h
  cases hx : x.run s with
  | ok a t => exact Returns.iff_run.mpr ⟨a, t, hx, by simpa only [hx] using h⟩
  | error e t => exact absurd (by simpa only [hx] using h) (hE e t)

end Ends

/-- **A run that ends normally** keeps every other promise about its end. -/
theorem Returns.and_ends (h : Returns x s P) (h' : Ends x s Q E) :
    Returns x s fun a t => P a t ∧ Q a t :=
  ((h.ends (E := fun _ _ => False)).and h').returns fun _ _ hstop => hstop.1

end Ends

/-! From here on only the calculus sees through them: unfolded, they would run their program. -/

attribute [irreducible] Returns Ends

end LittleLoader
