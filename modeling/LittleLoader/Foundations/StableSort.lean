import Mathlib.Data.List.Nodup
import Mathlib.Data.List.Perm.Basic
import Mathlib.Order.Lattice

/-!
# Foundations/StableSort — stable sorting by a key, and the bubble sort

`StableSorted key xs ys` says that `ys` is `xs` sorted by `key`, entries of one key in the order
they had.  It determines `ys` (`StableSorted.unique`), and it keeps what depends on the order within
a key only, such as the first entry of each key.

`bubble x ys` is the inner loop of a bubble sort as a function: `x` moves right past every smaller
entry, and the largest entry ends up last.
-/

namespace LittleLoader

variable {α κ : Type} [LinearOrder κ] {key : α → κ} {x y : α} {xs ys zs : List α}

/-- `ys` is `xs` in the order of the keys, with entries of equal key in their original order. -/
structure StableSorted (key : α → κ) (xs ys : List α) : Prop where
  sorted : ys.Pairwise (key · ≤ key ·)
  stable : ∀ k, ys.filter (key · = k) = xs.filter (key · = k)

namespace StableSorted

/-- Lists that agree within every key are permutations of each other. -/
theorem perm_of_filter_eq (h : ∀ k, ys.filter (key · = k) = xs.filter (key · = k)) :
    ys.Perm xs := by
  classical
  rw [List.perm_iff_count]
  intro a
  have hcount : ∀ l : List α, (l.filter (key · = key a)).count a = l.count a := fun l =>
    List.count_filter (by simp)
  rw [← hcount ys, ← hcount xs, h]

/-- **A stable sort permutes.** -/
theorem perm (h : StableSorted key xs ys) : ys.Perm xs := perm_of_filter_eq h.stable

/-- **A stable sort has one result**: the order of the keys and the order within each of them leave
no choice. -/
theorem unique (hy : StableSorted key xs ys) (hz : StableSorted key xs zs) : ys = zs := by
  suffices H : ∀ (ys zs : List α), ys.Pairwise (key · ≤ key ·) → zs.Pairwise (key · ≤ key ·) →
      (∀ k, ys.filter (key · = k) = zs.filter (key · = k)) → ys = zs from
    H ys zs hy.sorted hz.sorted fun k => (hy.stable k).trans (hz.stable k).symm
  clear hy hz
  intro ys
  induction ys with
  | nil =>
    intro zs _ _ h
    exact (perm_of_filter_eq h).symm.eq_nil.symm
  | cons y ys ih =>
    intro zs hys hzs h
    have hp : (y :: ys).Perm zs := perm_of_filter_eq h
    cases zs with
    | nil => exact absurd hp.length_eq (by simp)
    | cons z zs =>
      obtain ⟨hy, hys'⟩ := List.pairwise_cons.mp hys
      obtain ⟨hz, hzs'⟩ := List.pairwise_cons.mp hzs
      have hyz : key y ≤ key z := by
        rcases List.mem_cons.mp (hp.symm.subset List.mem_cons_self) with rfl | hmem
        · exact le_rfl
        · exact hy z hmem
      have hzy : key z ≤ key y := by
        rcases List.mem_cons.mp (hp.subset List.mem_cons_self) with rfl | hmem
        · exact le_rfl
        · exact hz y hmem
      have hkey : key z = key y := le_antisymm hzy hyz
      -- the first entry of the common key is the same in both lists
      obtain rfl : y = z := by
        have h₀ := h (key y)
        simp only [List.filter_cons, hkey, decide_true, if_true] at h₀
        exact (List.cons.inj h₀).1
      refine congrArg (y :: ·) (ih zs hys' hzs' fun k => ?_)
      have hk := h k
      by_cases hk' : key y = k
      · simpa [List.filter_cons, hk'] using hk
      · simpa [List.filter_cons, hk'] using hk

/-- **Distinct keys leave no choice**: the result does not depend on the order the list had. -/
theorem of_perm (h : xs.Perm zs) (hnodup : (xs.map key).Nodup) (hys : StableSorted key xs ys) :
    StableSorted key zs ys := by
  refine ⟨hys.sorted, fun k => (hys.stable k).trans ?_⟩
  have hany : ∀ l : List α, l.Pairwise fun _ _ => True := fun l =>
    List.pairwise_of_forall fun _ _ => trivial
  refine (h.filter fun a => decide (key a = k)).eq_of_pairwise ?_ (hany _) (hany _)
  intro a b ha hb _ _
  obtain ⟨ha, hak⟩ := List.mem_filter.mp ha
  obtain ⟨hb, hbk⟩ := List.mem_filter.mp hb
  exact List.inj_on_of_nodup_map hnodup ha (h.symm.subset hb)
    ((of_decide_eq_true hak).trans (of_decide_eq_true hbk).symm)

/-- Sorting by a derived key sorts what the key is derived from. -/
theorem map {β : Type} (f : α → β) (key : β → κ)
    (h : StableSorted (fun a => key (f a)) xs ys) : StableSorted key (xs.map f) (ys.map f) where
  sorted := List.pairwise_map.mpr h.sorted
  stable k := by
    rw [List.filter_map, List.filter_map]
    exact congrArg (List.map f) (h.stable k)

end StableSorted

/-! ## The bubble sort -/

/-- One round of the bubble sort on `x :: ys`: `x` is carried right and exchanged for a larger entry
whenever it meets one. -/
def bubble (key : α → κ) : α → List α → List α
  | x, [] => [x]
  | x, y :: ys => if key y < key x then y :: bubble key x ys else x :: bubble key y ys

@[simp] theorem length_bubble : (bubble key x ys).length = ys.length + 1 := by
  induction ys generalizing x with
  | nil => rfl
  | cons y ys ih => simp only [bubble]; split <;> simp [ih]

/-- A round exchanges entries of different keys only. -/
theorem filter_bubble (k : κ) :
    (bubble key x ys).filter (key · = k) = (x :: ys).filter (key · = k) := by
  induction ys generalizing x with
  | nil => rfl
  | cons y ys ih =>
    simp only [bubble]
    split
    · rename_i hlt
      rw [List.filter_cons, ih]
      by_cases hy : key y = k
      · have hx : key x ≠ k := fun hx => hlt.ne (hy.trans hx.symm)
        simp [hx, hy]
      · simp [List.filter_cons, hy]
    · rw [List.filter_cons, ih]
      simp only [List.filter_cons]

theorem bubble_perm : (bubble key x ys).Perm (x :: ys) :=
  StableSorted.perm_of_filter_eq filter_bubble

/-- **A round moves a largest entry to the end.** -/
theorem bubble_eq_append_max (key : α → κ) (x : α) (ys : List α) :
    ∃ front m, bubble key x ys = front ++ [m] ∧ ∀ z ∈ x :: ys, key z ≤ key m := by
  induction ys generalizing x with
  | nil => exact ⟨[], x, rfl, by simp⟩
  | cons y ys ih =>
    simp only [bubble]
    split
    · rename_i hlt
      obtain ⟨front, m, heq, hm⟩ := ih x
      refine ⟨y :: front, m, by rw [heq, List.cons_append], ?_⟩
      have hx : key x ≤ key m := hm x List.mem_cons_self
      simp only [List.mem_cons, forall_eq_or_imp] at hm ⊢
      exact ⟨hx, hlt.le.trans hx, hm.2⟩
    · rename_i hle
      obtain ⟨front, m, heq, hm⟩ := ih y
      refine ⟨x :: front, m, by rw [heq, List.cons_append], ?_⟩
      simp only [List.mem_cons, forall_eq_or_imp] at hm ⊢
      exact ⟨(not_lt.mp hle).trans hm.1, hm.1, hm.2⟩

/-- What the outer loop of a bubble sort keeps: `done` is sorted, above everything in `front`, and
no two entries of one key have changed places. -/
structure BubbleInv (key : α → κ) (xs front done : List α) : Prop where
  sorted : done.Pairwise (key · ≤ key ·)
  above : ∀ a ∈ front, ∀ b ∈ done, key a ≤ key b
  stable : ∀ k, (front ++ done).filter (key · = k) = xs.filter (key · = k)

namespace BubbleInv

variable {front done : List α}

theorem init (xs : List α) : BubbleInv key xs xs [] where
  sorted := List.Pairwise.nil
  above := by simp
  stable := by simp

/-- **A round settles one more entry.** -/
theorem round (h : BubbleInv key xs (x :: front) done) :
    ∃ front' m, bubble key x front = front' ++ [m] ∧ front'.length = front.length ∧
      BubbleInv key xs front' (m :: done) := by
  obtain ⟨front', m, heq, hm⟩ := bubble_eq_append_max key x front
  have hmem : ∀ a ∈ front' ++ [m], a ∈ x :: front := fun a ha =>
    bubble_perm.subset (heq ▸ ha)
  refine ⟨front', m, heq, ?_, ?_, ?_, fun k => ?_⟩
  · simpa using (congrArg List.length heq).symm
  · exact List.pairwise_cons.mpr ⟨h.above m (hmem m (by simp)), h.sorted⟩
  · intro a ha b hb
    have ha' : a ∈ x :: front := hmem a (by simp [ha])
    rcases List.mem_cons.mp hb with rfl | hb
    · exact hm a ha'
    · exact h.above a ha' b hb
  · rw [← h.stable k, List.append_cons, ← heq, List.filter_append, filter_bubble,
      ← List.filter_append]

/-- **With one entry left the list is sorted.** -/
theorem stableSorted (h : BubbleInv key xs front done) (hlen : front.length ≤ 1) :
    StableSorted key xs (front ++ done) where
  sorted := by
    rw [List.pairwise_append]
    refine ⟨?_, h.sorted, h.above⟩
    match front, hlen with
    | [], _ => exact List.Pairwise.nil
    | [a], _ => exact List.pairwise_singleton _ a
  stable := h.stable

end BubbleInv

end LittleLoader
