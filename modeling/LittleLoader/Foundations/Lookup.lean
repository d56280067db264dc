import Mathlib.Data.List.Nodup
import Mathlib.Data.List.Perm.Basic
import Mathlib.Logic.Function.Basic

/-!
# Foundations/Lookup — association lists with duplicate keys, and the maps they stand for

`xs.lookup k` is the value of the *first* entry of `k`, and `xs.reverse.lookup k` that of the last.
`assign` overwrites the first entry of a key in place, or puts a new one in front.  On the map
`fun k => xs.lookup k` that is a function update whatever duplicates there are (`lookup_assign`);
what it does to the *last* entry depends on how many there are (`lookup_reverse_assign`).
-/

namespace LittleLoader

variable {K V : Type} [DecidableEq K] {k j : K} {v : V} {xs ys : List (K × V)}

/-! ## The first entry of a key -/

theorem lookup_cons_ite (x : K × V) (xs : List (K × V)) (k : K) :
    (x :: xs).lookup k = if k = x.1 then some x.2 else xs.lookup k := by
  obtain ⟨j, v⟩ := x
  rw [List.lookup_cons]
  by_cases h : k = j
  · simp [h]
  · simp [h, beq_eq_false_iff_ne.mpr h]

theorem lookup_eq_head?_filter (xs : List (K × V)) (k : K) :
    xs.lookup k = (xs.filter (·.1 = k)).head?.map Prod.snd := by
  induction xs with
  | nil => rfl
  | cons x xs ih =>
    rw [lookup_cons_ite, List.filter_cons]
    by_cases h : k = x.1
    · simp [h]
    · simp [h, Ne.symm h, ih]

theorem lookup_isSome_iff : (xs.lookup k).isSome ↔ k ∈ xs.map Prod.fst := by
  induction xs with
  | nil => simp
  | cons x xs ih =>
    rw [lookup_cons_ite]
    by_cases h : k = x.1 <;> simp_all

theorem lookup_eq_none_iff_notMem : xs.lookup k = none ↔ k ∉ xs.map Prod.fst := by
  rw [← lookup_isSome_iff, Option.not_isSome_iff_eq_none]

theorem mem_of_lookup (h : xs.lookup k = some v) : (k, v) ∈ xs := by
  induction xs with
  | nil => simp at h
  | cons x xs ih =>
    rw [lookup_cons_ite] at h
    split at h
    · rename_i hk
      obtain rfl : x.2 = v := by simpa using h
      simp [hk]
    · exact List.mem_cons_of_mem _ (ih h)

/-- Lists that agree within a key look it up the same. -/
theorem lookup_eq_of_filter_eq (h : ys.filter (·.1 = k) = xs.filter (·.1 = k)) :
    ys.lookup k = xs.lookup k := by
  rw [lookup_eq_head?_filter, lookup_eq_head?_filter, h]

/-- …and so do their reversals. -/
theorem lookup_reverse_eq_of_filter_eq (h : ys.filter (·.1 = k) = xs.filter (·.1 = k)) :
    ys.reverse.lookup k = xs.reverse.lookup k :=
  lookup_eq_of_filter_eq (by rw [List.filter_reverse, List.filter_reverse, h])

theorem lookup_eq_some_iff_mem (hnd : (xs.map Prod.fst).Nodup) :
    xs.lookup k = some v ↔ (k, v) ∈ xs := by
  refine ⟨mem_of_lookup, fun h => ?_⟩
  obtain ⟨u, hu⟩ := Option.isSome_iff_exists.mp
    (lookup_isSome_iff.mpr (List.mem_map_of_mem (f := Prod.fst) h))
  have heq : (k, u) = (k, v) := List.inj_on_of_nodup_map hnd (mem_of_lookup hu) h rfl
  rw [hu, (Prod.mk.inj heq).2]

/-- **With distinct keys the order does not matter.** -/
theorem lookup_eq_of_perm (h : ys.Perm xs) (hnd : (xs.map Prod.fst).Nodup) (k : K) :
    ys.lookup k = xs.lookup k := by
  have hnd' : (ys.map Prod.fst).Nodup := (h.map _).nodup_iff.mpr hnd
  ext v
  rw [lookup_eq_some_iff_mem hnd', lookup_eq_some_iff_mem hnd, h.mem_iff]

/-! ## Assignment -/

/-- The first entry of `k`, if there is one, gets the value `v`. -/
def replaceFirst (k : K) (v : V) : List (K × V) → List (K × V)
  | [] => []
  | x :: xs => if x.1 = k then (x.1, v) :: xs else x :: replaceFirst k v xs

/-- **Assignment**: in place if the key is there, in front if it is not. -/
def assign (k : K) (v : V) (xs : List (K × V)) : List (K × V) :=
  if k ∈ xs.map Prod.fst then replaceFirst k v xs else (k, v) :: xs

@[simp] theorem map_fst_replaceFirst : (replaceFirst k v xs).map Prod.fst = xs.map Prod.fst := by
  induction xs with
  | nil => rfl
  | cons x xs ih => simp only [replaceFirst]; split <;> simp [ih]

theorem replaceFirst_append (h : k ∉ xs.map Prod.fst) (u : V) :
    replaceFirst k v (xs ++ (k, u) :: ys) = xs ++ (k, v) :: ys := by
  induction xs with
  | nil => simp [replaceFirst]
  | cons x xs ih =>
    obtain ⟨hx, hxs⟩ := not_or.mp (List.mem_cons.not.mp h)
    rw [List.cons_append, replaceFirst, if_neg (Ne.symm hx), ih hxs, List.cons_append]

theorem map_fst_assign_of_mem (h : k ∈ xs.map Prod.fst) :
    (assign k v xs).map Prod.fst = xs.map Prod.fst := by
  rw [assign, if_pos h, map_fst_replaceFirst]

/-- **The entry that an assignment overwrites**, with the entries in front of it and behind it. -/
theorem exists_assign_eq (h : k ∈ xs.map Prod.fst) :
    ∃ ys u zs, xs = ys ++ (k, u) :: zs ∧ k ∉ ys.map Prod.fst ∧
      ∀ v, assign k v xs = ys ++ (k, v) :: zs := by
  obtain ⟨_, _, hkeys, hnot⟩ := List.eq_append_cons_of_mem h
  obtain ⟨ys, zs, rfl, rfl, hzs⟩ := List.map_eq_append_iff.mp hkeys
  obtain ⟨x, zs, rfl, rfl, -⟩ := List.map_eq_cons_iff.mp hzs
  refine ⟨ys, x.2, zs, rfl, hnot, fun v => ?_⟩
  rw [assign, if_pos h]
  exact replaceFirst_append hnot x.2

theorem length_le_assign : xs.length ≤ (assign k v xs).length := by
  unfold assign
  split
  · have hkeys : (replaceFirst k v xs).map Prod.fst = xs.map Prod.fst := map_fst_replaceFirst
    have hlen := congrArg List.length hkeys
    simp only [List.length_map] at hlen
    exact Nat.le_of_eq hlen.symm
  · simp

theorem nodup_assign (hnd : (xs.map Prod.fst).Nodup) : ((assign k v xs).map Prod.fst).Nodup := by
  unfold assign
  split
  · rwa [map_fst_replaceFirst]
  · rename_i h
    exact List.nodup_cons.mpr ⟨h, hnd⟩

theorem lookup_replaceFirst (h : k ∈ xs.map Prod.fst) :
    (replaceFirst k v xs).lookup j = if j = k then some v else xs.lookup j := by
  induction xs with
  | nil => simp at h
  | cons x xs ih =>
    simp only [replaceFirst]
    split
    · rename_i hx
      rw [lookup_cons_ite, lookup_cons_ite, hx]
      split <;> rfl
    · rename_i hx
      have h' : k ∈ xs.map Prod.fst := by
        rcases List.mem_cons.mp h with rfl | h
        · exact absurd rfl hx
        · exact h
      rw [lookup_cons_ite, lookup_cons_ite, ih h']
      by_cases hj : j = x.1
      · simp [hj, hx]
      · simp [hj]

/-- **Assignment updates the map.** -/
theorem lookup_assign : (assign k v xs).lookup j = if j = k then some v else xs.lookup j := by
  unfold assign
  split
  · rename_i h
    exact lookup_replaceFirst h
  · rw [lookup_cons_ite]

theorem filter_replaceFirst {P : K → Prop} [DecidablePred P] (hk : ¬ P k) :
    (replaceFirst k v xs).filter (fun x => P x.1) = xs.filter (fun x => P x.1) := by
  induction xs with
  | nil => rfl
  | cons x xs ih =>
    simp only [replaceFirst]
    split
    · rename_i hx
      simp [hx, hk]
    · rw [List.filter_cons, ih, List.filter_cons]

/-- An assignment to a key that is there leaves the entries of the other keys alone. -/
theorem filter_assign {P : K → Prop} [DecidablePred P] (h : k ∈ xs.map Prod.fst) (hk : ¬ P k) :
    (assign k v xs).filter (fun x => P x.1) = xs.filter (fun x => P x.1) := by
  rw [assign, if_pos h, filter_replaceFirst hk]

theorem mem_assign {x : K × V} (h : x ∈ assign k v xs) : x = (k, v) ∨ x ∈ xs := by
  unfold assign at h
  split at h
  · clear * - h
    induction xs with
    | nil => simp [replaceFirst] at h
    | cons y ys ih =>
      simp only [replaceFirst] at h
      split at h
      · rename_i hy
        rcases List.mem_cons.mp h with rfl | h
        · exact Or.inl (by rw [hy])
        · exact Or.inr (List.mem_cons_of_mem _ h)
      · rcases List.mem_cons.mp h with rfl | h
        · exact Or.inr List.mem_cons_self
        · exact (ih h).imp_right (List.mem_cons_of_mem _)
  · simpa using h

/-! ## Removal -/

/-- Entries of other keys in front stay. -/
theorem eraseP_append_of_notMem (h : k ∉ xs.map Prod.fst) (ys : List (K × V)) :
    (xs ++ ys).eraseP (·.1 = k) = xs ++ ys.eraseP (·.1 = k) :=
  List.eraseP_append_right _ fun _ hx hk =>
    h (of_decide_eq_true hk ▸ List.mem_map_of_mem hx)

theorem lookup_eraseP (hnd : (xs.map Prod.fst).Nodup) :
    (xs.eraseP (·.1 = k)).lookup j = if j = k then none else xs.lookup j := by
  induction xs with
  | nil => simp
  | cons x xs ih =>
    obtain ⟨hx, hnd⟩ := List.nodup_cons.mp hnd
    by_cases hk : x.1 = k
    · subst hk
      rw [List.eraseP_cons_of_pos (by simp), lookup_cons_ite]
      by_cases hj : j = x.1
      · simpa [hj] using lookup_eq_none_iff_notMem.mpr hx
      · simp [hj]
    · rw [List.eraseP_cons_of_neg (by simpa using hk), lookup_cons_ite, lookup_cons_ite, ih hnd]
      by_cases hj : j = x.1
      · simp [hj, hk]
      · simp [hj]

theorem nodup_eraseP (hnd : (xs.map Prod.fst).Nodup) :
    ((xs.eraseP (·.1 = k)).map Prod.fst).Nodup :=
  hnd.sublist ((List.eraseP_sublist).map _)

/-! ## The last entry of a key -/

/-- How many entries the key has. -/
def multiplicity (k : K) (xs : List (K × V)) : ℕ := (xs.map Prod.fst).count k

theorem multiplicity_cons (x : K × V) (xs : List (K × V)) (k : K) :
    multiplicity k (x :: xs) = multiplicity k xs + if x.1 = k then 1 else 0 := by
  simp [multiplicity, List.count_cons]

theorem mem_map_fst_iff_multiplicity : k ∈ xs.map Prod.fst ↔ 0 < multiplicity k xs :=
  List.count_pos_iff.symm

theorem multiplicity_assign : multiplicity j (assign k v xs)
    = if j = k then max 1 (multiplicity j xs) else multiplicity j xs := by
  unfold assign
  split
  · rename_i h
    rw [multiplicity, map_fst_replaceFirst, ← multiplicity]
    split
    · rename_i hj
      subst hj
      have := mem_map_fst_iff_multiplicity.mp h
      omega
    · rfl
  · rename_i h
    rw [multiplicity_cons]
    have h₀ : multiplicity k xs = 0 := by
      simpa [mem_map_fst_iff_multiplicity] using h
    split
    · rename_i hj
      subst hj
      simp [h₀]
    · rename_i hj
      simp [Ne.symm hj]

/-- A removal takes one entry of the key, if there is one. -/
theorem multiplicity_eraseP : multiplicity j (xs.eraseP (·.1 = k))
    = if j = k then multiplicity j xs - 1 else multiplicity j xs := by
  induction xs with
  | nil => simp [multiplicity]
  | cons x xs ih =>
    by_cases hx : x.1 = k
    · rw [List.eraseP_cons_of_pos (by simpa using hx), multiplicity_cons, hx]
      by_cases hj : j = k
      · simp [hj]
      · simp [hj, Ne.symm hj]
    · rw [List.eraseP_cons_of_neg (by simpa using hx), multiplicity_cons, multiplicity_cons, ih]
      by_cases hj : j = k
      · subst hj
        simp [hx]
      · simp [hj]

/-- **A removal hides the key** exactly if it has no second entry. -/
theorem lookup_eraseP_self_eq_none_iff :
    (xs.eraseP (·.1 = k)).lookup k = none ↔ multiplicity k xs ≤ 1 := by
  rw [lookup_eq_none_iff_notMem, mem_map_fst_iff_multiplicity, multiplicity_eraseP, if_pos rfl]
  omega

/-- …and no other key, in any case. -/
theorem lookup_eraseP_of_ne (h : j ≠ k) : (xs.eraseP (·.1 = k)).lookup j = xs.lookup j := by
  induction xs with
  | nil => simp
  | cons x xs ih =>
    by_cases hx : x.1 = k
    · rw [List.eraseP_cons_of_pos (by simpa using hx), lookup_cons_ite, if_neg (hx ▸ h)]
    · rw [List.eraseP_cons_of_neg (by simpa using hx), lookup_cons_ite, lookup_cons_ite, ih]

/-- A key with one entry has the same first and last one. -/
theorem lookup_reverse_of_multiplicity_le_one (h : multiplicity k xs ≤ 1) :
    xs.reverse.lookup k = xs.lookup k := by
  induction xs with
  | nil => rfl
  | cons x xs ih =>
    rw [multiplicity_cons] at h
    rw [List.reverse_cons, List.lookup_append, lookup_cons_ite x, ih (by omega),
      lookup_cons_ite, List.lookup_nil]
    by_cases hk : k = x.1
    · subst hk
      have h₀ : multiplicity x.1 xs = 0 := by simp at h; omega
      have hnone : xs.lookup x.1 = none := by
        rw [lookup_eq_none_iff_notMem, mem_map_fst_iff_multiplicity]
        omega
      simp [hnone]
    · simp [hk]

theorem lookup_reverse_replaceFirst (h : 2 ≤ multiplicity j xs) :
    (replaceFirst k v xs).reverse.lookup j = xs.reverse.lookup j := by
  induction xs with
  | nil => rfl
  | cons x xs ih =>
    rw [multiplicity_cons] at h
    simp only [replaceFirst]
    split
    · -- the first entry is overwritten, and `j` has another one behind it
      have hmem : (xs.reverse.lookup j).isSome := by
        rw [lookup_isSome_iff, List.map_reverse, List.mem_reverse, mem_map_fst_iff_multiplicity]
        split at h <;> omega
      obtain ⟨u, hu⟩ := Option.isSome_iff_exists.mp hmem
      rw [List.reverse_cons, List.reverse_cons, List.lookup_append, List.lookup_append, hu]
      rfl
    · rename_i hx
      rw [List.reverse_cons, List.reverse_cons, List.lookup_append, List.lookup_append]
      by_cases hj : x.1 = j
      · have hk : k ≠ j := fun e => hx (hj.trans e.symm)
        rw [lookup_reverse_eq_of_filter_eq (filter_replaceFirst (P := (· = j)) hk)]
      · rw [ih (by simpa [hj] using h)]

/-- **Assignment leaves the last entry of a key with several alone.** -/
theorem lookup_reverse_assign (h : 2 ≤ multiplicity j xs) :
    (assign k v xs).reverse.lookup j = xs.reverse.lookup j := by
  unfold assign
  split
  · exact lookup_reverse_replaceFirst h
  · rename_i hk
    have hj : j ≠ k := by
      rintro rfl
      exact hk (mem_map_fst_iff_multiplicity.mpr (by omega))
    rw [List.reverse_cons, List.lookup_append, lookup_cons_ite, if_neg hj, List.lookup_nil,
      Option.or_none]

theorem multiplicity_reverse : multiplicity k xs.reverse = multiplicity k xs := by
  rw [multiplicity, List.map_reverse, List.count_reverse, multiplicity]

theorem multiplicity_le_one_of_nodup (h : (xs.map Prod.fst).Nodup) (k : K) :
    multiplicity k xs ≤ 1 := List.nodup_iff_count_le_one.mp h k

/-! ## Assignments in a row -/

/-- Assignments, one after the other. -/
def assigns (us xs : List (K × V)) : List (K × V) :=
  us.foldl (fun xs u => assign u.1 u.2 xs) xs

variable {us : List (K × V)}

@[simp] theorem assigns_nil : assigns [] xs = xs := rfl

@[simp] theorem assigns_cons (u : K × V) :
    assigns (u :: us) xs = assigns us (assign u.1 u.2 xs) := rfl

theorem length_le_assigns : xs.length ≤ (assigns us xs).length := by
  induction us generalizing xs with
  | nil => exact Nat.le_refl _
  | cons u us ih => exact Nat.le_trans length_le_assign ih

/-- **The last assignment counts.** -/
theorem lookup_assigns : (assigns us xs).lookup k = (us.reverse ++ xs).lookup k := by
  induction us generalizing xs with
  | nil => rfl
  | cons u us ih =>
    rw [assigns_cons, ih, List.reverse_cons, List.append_assoc, List.singleton_append,
      List.lookup_append, List.lookup_append, lookup_assign, lookup_cons_ite]

theorem nodup_assigns (h : (xs.map Prod.fst).Nodup) : ((assigns us xs).map Prod.fst).Nodup := by
  induction us generalizing xs with
  | nil => exact h
  | cons u us ih => exact ih (nodup_assign h)

/-- Assignments to keys that are there keep the keys. -/
theorem map_fst_assigns_of_mem (h : ∀ u ∈ us, u.1 ∈ xs.map Prod.fst) :
    (assigns us xs).map Prod.fst = xs.map Prod.fst := by
  induction us generalizing xs with
  | nil => rfl
  | cons u us ih =>
    obtain ⟨hu, hus⟩ := List.forall_mem_cons.mp h
    have hfst := map_fst_assign_of_mem (v := u.2) hu
    rw [assigns_cons, ih (by rwa [hfst]), hfst]

/-- …and the entries of all others. -/
theorem filter_assigns {P : K → Prop} [DecidablePred P] (h : ∀ u ∈ us, u.1 ∈ xs.map Prod.fst)
    (hP : ∀ u ∈ us, ¬ P u.1) :
    (assigns us xs).filter (fun x => P x.1) = xs.filter (fun x => P x.1) := by
  induction us generalizing xs with
  | nil => rfl
  | cons u us ih =>
    obtain ⟨hu, hus⟩ := List.forall_mem_cons.mp h
    obtain ⟨hPu, hPus⟩ := List.forall_mem_cons.mp hP
    rw [assigns_cons, ih (by rwa [map_fst_assign_of_mem hu]) hPus, filter_assign hu hPu]

theorem multiplicity_assigns_le_one (h : multiplicity k xs ≤ 1) :
    multiplicity k (assigns us xs) ≤ 1 := by
  induction us generalizing xs with
  | nil => exact h
  | cons u us ih =>
    refine ih ?_
    rw [multiplicity_assign]
    split <;> omega

theorem lookup_reverse_assigns (h : 2 ≤ multiplicity k xs) :
    (assigns us xs).reverse.lookup k = xs.reverse.lookup k := by
  induction us generalizing xs with
  | nil => rfl
  | cons u us ih =>
    have h' : 2 ≤ multiplicity k (assign u.1 u.2 xs) := by
      rw [multiplicity_assign]
      split <;> omega
    rw [assigns_cons, ih h', lookup_reverse_assign h]

/-- **First and last entry after assignments**: they agree for a key that had one entry at most;
for the others the last entry is still the old one. -/
theorem lookup_assigns_eq_reverse_iff :
    (assigns us xs).lookup k = (assigns us xs).reverse.lookup k ↔
      (2 ≤ multiplicity k xs → xs.reverse.lookup k = (us.reverse ++ xs).lookup k) := by
  by_cases h : 2 ≤ multiplicity k xs
  · rw [lookup_assigns, lookup_reverse_assigns h]
    exact ⟨fun heq _ => heq.symm, fun heq => (heq h).symm⟩
  · have hle : multiplicity k (assigns us xs) ≤ 1 := multiplicity_assigns_le_one (by omega)
    simp [h, lookup_reverse_of_multiplicity_le_one hle]

theorem mem_assigns {x : K × V} (h : x ∈ assigns us xs) : x ∈ us ∨ x ∈ xs := by
  induction us generalizing xs with
  | nil => exact .inr h
  | cons u us ih =>
    rcases ih h with hx | hx
    · exact .inl (List.mem_cons_of_mem _ hx)
    · rcases mem_assign hx with rfl | hx
      · exact .inl List.mem_cons_self
      · exact .inr hx

end LittleLoader
