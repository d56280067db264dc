import Mathlib.Data.List.Nodup
import Mathlib.Data.Finset.Card
import Mathlib.Logic.Function.Basic

/-!
# Foundations/Linked — singly linked lists in a store

A store maps addresses to nodes, and `view` reads a node as its payload and the pointer to the next
one.  `Segment view store p cs q` says that following the pointers from `p` visits the cells `cs`,
addresses and payloads, and then holds `q`; `q = none` is a list.

A list visits no address twice (`Segment.nodup`), so a store changed outside a list still holds it
(`Segment.congr`), and one changed at a cell holds the list with that cell changed
(`Segment.update`, `Segment.relink`).
-/

namespace LittleLoader

variable {A N B : Type} {view : N → B × Option A} {store store' : A → Option N}
  {p q r : Option A} {cs ds : List (A × B)} {a : A} {b : B} {n : N}

/-- From `p`, the pointers of the store lead through the cells `cs` to `q`. -/
def Segment (view : N → B × Option A) (store : A → Option N) :
    Option A → List (A × B) → Option A → Prop
  | p, [], q => p = q
  | p, (a, b) :: cs, q =>
      p = some a ∧ ∃ n r, store a = some n ∧ view n = (b, r) ∧ Segment view store r cs q

namespace Segment

/-! ## Shape -/

@[simp] theorem nil_iff : Segment view store p [] q ↔ p = q := Iff.rfl

theorem cons_iff : Segment view store p ((a, b) :: cs) q ↔
    p = some a ∧ ∃ n r, store a = some n ∧ view n = (b, r) ∧ Segment view store r cs q := Iff.rfl

/-- **Segments compose**: they meet in the pointer the first one ends with. -/
theorem append_iff : Segment view store p (cs ++ ds) q ↔
    ∃ r, Segment view store p cs r ∧ Segment view store r ds q := by
  induction cs generalizing p with
  | nil => simp
  | cons c cs ih =>
    obtain ⟨a, b⟩ := c
    simp only [List.cons_append, cons_iff, ih]
    constructor
    · rintro ⟨rfl, n, r, hn, hv, s, h₁, h₂⟩
      exact ⟨s, ⟨rfl, n, r, hn, hv, h₁⟩, h₂⟩
    · rintro ⟨s, ⟨rfl, n, r, hn, hv, h₁⟩, h₂⟩
      exact ⟨rfl, n, r, hn, hv, s, h₁, h₂⟩

theorem store_ne_none (h : Segment view store p cs q) : ∀ c ∈ cs, store c.1 ≠ none := by
  induction cs generalizing p with
  | nil => simp
  | cons c cs ih =>
    obtain ⟨a, b⟩ := c
    obtain ⟨rfl, n, r, hn, -, hr⟩ := h
    intro c hc
    rcases List.mem_cons.mp hc with rfl | hc
    · simp [hn]
    · exact ih hr c hc

/-- A store that agrees on the cells of a segment has the segment too. -/
theorem congr (h : Segment view store p cs q) (hs : ∀ c ∈ cs, store' c.1 = store c.1) :
    Segment view store' p cs q := by
  induction cs generalizing p with
  | nil => exact h
  | cons c cs ih =>
    obtain ⟨a, b⟩ := c
    obtain ⟨rfl, n, r, hn, hv, hr⟩ := h
    exact ⟨rfl, n, r, (hs (a, b) List.mem_cons_self).trans hn, hv,
      ih hr fun c hc => hs c (List.mem_cons_of_mem _ hc)⟩

/-! ## A list visits no address twice -/

/-- **The pointers decide the cells**: there is one list from `p`. -/
theorem unique (h : Segment view store p cs none) (h' : Segment view store p ds none) :
    cs = ds := by
  induction cs generalizing p ds with
  | nil =>
    obtain rfl : p = none := h
    cases ds with
    | nil => rfl
    | cons d ds => exact absurd h'.1 (by simp)
  | cons c cs ih =>
    obtain ⟨a, b⟩ := c
    obtain ⟨rfl, n, r, hn, hv, hr⟩ := h
    cases ds with
    | nil => exact absurd h' (by simp)
    | cons d ds =>
      obtain ⟨a', b'⟩ := d
      obtain ⟨ha, n', r', hn', hv', hr'⟩ := h'
      obtain rfl : a = a' := by simpa using ha
      obtain rfl : n = n' := by simpa using hn.symm.trans hn'
      obtain ⟨rfl, rfl⟩ : b = b' ∧ r = r' := by simpa using hv.symm.trans hv'
      rw [ih hr hr']

/-- **A list is acyclic.**  An address met twice would start two lists of different length. -/
theorem nodup (h : Segment view store p cs none) : (cs.map Prod.fst).Nodup := by
  induction cs generalizing p with
  | nil => simp
  | cons c cs ih =>
    obtain ⟨a, b⟩ := c
    have hwhole := h
    obtain ⟨rfl, n, r, hn, hv, hr⟩ := h
    refine List.nodup_cons.mpr ⟨fun hmem => ?_, ih hr⟩
    obtain ⟨⟨a', b'⟩, hc, rfl⟩ := List.mem_map.mp hmem
    obtain ⟨c₁, c₂, rfl⟩ := List.append_of_mem hc
    obtain ⟨s, -, hs⟩ := append_iff.mp hr
    obtain rfl : s = some a' := hs.1
    have hlen := congrArg List.length (unique hwhole hs)
    simp only [List.length_cons, List.length_append] at hlen
    omega

/-- **A list in a store of `k` addresses has at most `k` cells.** -/
theorem length_le {store : ℕ → Option N} {view : N → B × Option ℕ} {p : Option ℕ}
    {cs : List (ℕ × B)} {k : ℕ} (h : Segment view store p cs none)
    (hk : ∀ i, k ≤ i → store i = none) : cs.length ≤ k := by
  have hsub : (cs.map Prod.fst).toFinset ⊆ Finset.range k := by
    intro i hi
    obtain ⟨c, hc, rfl⟩ := List.mem_map.mp (List.mem_toFinset.mp hi)
    by_contra hge
    exact h.store_ne_none c hc (hk _ (by simpa using hge))
  have := Finset.card_le_card hsub
  rwa [List.toFinset_card_of_nodup h.nodup, List.length_map, Finset.card_range] at this

/-! ## Changing a store -/

section Update

variable [DecidableEq A]

/-- A node outside the segment may be written. -/
theorem update_of_notMem (h : Segment view store p cs q) (ha : a ∉ cs.map Prod.fst) :
    Segment view (Function.update store a (some n)) p cs q :=
  h.congr fun c hc => Function.update_of_ne
    (fun he : c.1 = a => ha (List.mem_map.mpr ⟨c, hc, he⟩)) _ _

/-- **A cell is overwritten in place**: the list holds the new payload there. -/
theorem update (h : Segment view store p (cs ++ (a, b) :: ds) none) {n₀ n' : N} {b' : B}
    (h₀ : store a = some n₀) (hv : view n' = (b', (view n₀).2)) :
    Segment view (Function.update store a (some n')) p (cs ++ (a, b') :: ds) none := by
  have hnd := h.nodup
  rw [List.map_append, List.map_cons, List.nodup_append] at hnd
  obtain ⟨-, hnd, hdisj⟩ := hnd
  obtain ⟨r, h₁, h₂⟩ := append_iff.mp h
  obtain ⟨rfl, n, s, hn, hvn, hs⟩ := h₂
  obtain rfl : n₀ = n := by simpa using h₀.symm.trans hn
  refine append_iff.mpr ⟨some a, h₁.update_of_notMem fun ha => ?_, rfl, n', s, by simp, ?_,
    hs.update_of_notMem (List.nodup_cons.mp hnd).1⟩
  · exact hdisj a ha a List.mem_cons_self rfl
  · rw [hv, hvn]

/-- **A new cell in front** of a list. -/
theorem cons_update (h : Segment view store p cs none) (ha : store a = none)
    (hv : view n = (b, p)) :
    Segment view (Function.update store a (some n)) (some a) ((a, b) :: cs) none := by
  refine ⟨rfl, n, p, by simp, hv, h.update_of_notMem fun hmem => ?_⟩
  obtain ⟨c, hc, rfl⟩ := List.mem_map.mp hmem
  exact h.store_ne_none c hc ha

/-- **A cell is unlinked**: the one before it gets its next pointer. -/
theorem unlink {a₁ a₂ : A} {b₁ b₂ : B} {n₁ n₂ n' : N}
    (h : Segment view store p (cs ++ (a₁, b₁) :: (a₂, b₂) :: ds) none)
    (h₁ : store a₁ = some n₁) (h₂ : store a₂ = some n₂)
    (hv : view n' = ((view n₁).1, (view n₂).2)) :
    Segment view (Function.update store a₁ (some n')) p (cs ++ (a₁, b₁) :: ds) none := by
  have hnd := h.nodup
  simp only [List.map_append, List.map_cons, List.nodup_append, List.nodup_cons,
    List.mem_cons] at hnd
  obtain ⟨-, ⟨hnd, -⟩, hdisj⟩ := hnd
  obtain ⟨r, h₃, h₄⟩ := append_iff.mp h
  obtain ⟨rfl, m₁, s, hm₁, hvm₁, hs⟩ := h₄
  obtain ⟨rfl, m₂, t, hm₂, hvm₂, ht⟩ := hs
  obtain rfl : n₁ = m₁ := by simpa using h₁.symm.trans hm₁
  obtain rfl : n₂ = m₂ := by simpa using h₂.symm.trans hm₂
  refine append_iff.mpr ⟨some a₁, h₃.update_of_notMem fun ha => ?_, rfl, n', t, by simp, ?_,
    ht.update_of_notMem fun ha => hnd (Or.inr ha)⟩
  · exact hdisj a₁ ha a₁ (Or.inl rfl) rfl
  · rw [hv, hvm₁, hvm₂]

end Update

end Segment

end LittleLoader
