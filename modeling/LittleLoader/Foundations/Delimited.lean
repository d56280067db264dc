import Mathlib.Data.List.TakeWhile

/-!
# Foundations/Delimited — a list up to its first delimiter

    l  =  front ++ rest,   no delimiter in front,   rest empty or beginning with one

There is exactly one such cut of a list (`Cut.exists_cut`, `Cut.unique`).  A scanner that moves on
to the next delimiter is specified by the cut it finds.
-/

namespace LittleLoader

variable {α : Type} {P : α → Prop} {front front' rest rest' : List α}

/-- **A cut** of a list at its first delimiter. -/
structure Cut (P : α → Prop) (front rest : List α) : Prop where
  front : ∀ a ∈ front, ¬ P a
  rest : ∀ a ∈ rest.head?, P a

namespace Cut

theorem nil (h : ∀ a ∈ front, ¬ P a) : Cut P front [] := ⟨h, by simp⟩

theorem cons {a : α} (h : ∀ a ∈ front, ¬ P a) (ha : P a) : Cut P front (a :: rest) :=
  ⟨h, by simpa using ha⟩

/-- Every list has a cut. -/
theorem exists_cut (P : α → Prop) (l : List α) :
    ∃ front rest, l = front ++ rest ∧ Cut P front rest := by
  classical
  refine ⟨l.takeWhile (¬ P ·), l.dropWhile (¬ P ·), List.takeWhile_append_dropWhile.symm,
    fun a ha => by simpa using List.mem_takeWhile_imp ha, fun a ha => ?_⟩
  have := List.head?_dropWhile_not (fun a => decide (¬ P a)) l
  rw [Option.mem_def.mp ha] at this
  simpa using this

/-- **…and only one.** -/
theorem unique (h : Cut P front rest) (h' : Cut P front' rest')
    (heq : front ++ rest = front' ++ rest') : front = front' ∧ rest = rest' := by
  classical
  have htake : ∀ {f r : List α}, Cut P f r → (f ++ r).takeWhile (¬ P ·) = f := by
    intro f r hfr
    rw [List.takeWhile_append_of_pos fun a ha => by simpa using hfr.front a ha]
    cases r with
    | nil => simp
    | cons a r => simpa using hfr.rest a
  have hfront : front = front' := by rw [← htake h, heq, htake h']
  exact ⟨hfront, List.append_cancel_left (hfront ▸ heq)⟩

end Cut

end LittleLoader
