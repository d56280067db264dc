import LittleLoader.Block.Write
import LittleLoader.Machine.Qsort

/-!
# Env/PairArray — the array that `uboot_env_sort` sorts

    qsortBytes (cells.flatMap encode ++ behind)  refines  qsort cells

On the bytes of an array `qsort_` does what `qsort` does to its cells, and it leaves the bytes
behind them alone (`returns_qsortBytes`).  So the list that `uboot_env_sort` relinks is the stable
order of its pairs, and the array of their pointers is the only other memory it changes
(`ubootEnvSort_stable`).
-/

namespace LittleLoader

variable {w : World} {env : UbootEnv} {cs : List (Addr × Entry)}

/-! ## Cells and their bytes -/

section Cells

variable {α : Type} {encode : α → List Byte} {width j nel rounds : ℕ} {a b : α} {P : α → Prop}
  {cells front back : List α} {rest : List Byte} {compar : α → α → M ℤ}
  {comparBytes : List Byte → List Byte → M ℤ} {Q : List α → World → Prop}

/-- The bytes of cells that are `width` bytes wide each. -/
theorem length_flatMap_cells (hwidth : ∀ a ∈ front, (encode a).length = width) :
    (front.flatMap encode).length = front.length * width := by
  induction front with
  | nil => simp
  | cons a front ih =>
    obtain ⟨ha, hfront⟩ := List.forall_mem_cons.mp hwidth
    rw [List.flatMap_cons, List.length_append, ha, ih hfront, List.length_cons, Nat.succ_mul,
      Nat.add_comm]

/-- Two cells side by side. -/
theorem exists_adjacent (ha : cells[j]? = some a) (hb : cells[j + 1]? = some b) :
    ∃ front back, cells = front ++ a :: b :: back ∧ front.length = j := by
  obtain ⟨hj, rfl⟩ := List.getElem?_eq_some_iff.mp ha
  obtain ⟨hj', rfl⟩ := List.getElem?_eq_some_iff.mp hb
  refine ⟨cells.take j, cells.drop (j + 2), ?_, List.length_take_of_le hj.le⟩
  rw [← List.drop_eq_getElem_cons hj', ← List.drop_eq_getElem_cons hj, List.take_append_drop]

/-- **The exchange** by three copies. -/
theorem swapCells_append {f x y t : List Byte} (hf : f.length = j * width) (hx : x.length = width)
    (hy : y.length = width) :
    swapCells (f ++ (x ++ (y ++ t))) width j = some (f ++ (y ++ (x ++ t))) := by
  have hfx : (f ++ x).length = (j + 1) * width := by
    rw [List.length_append, hf, hx, Nat.succ_mul]
  have hfy : (j + 1) * width = (f ++ y).length := by rw [← hfx]; simp [hx, hy]
  have htemp : memcpy (List.replicate width 0#8) (x ++ (y ++ t)) width = some x := by
    rw [memcpy_eq (by simp) (by simp [hx]), List.take_left' hx]
    simp
  have hfirst : memcpyAt (f ++ (x ++ (y ++ t))) (j * width) (y ++ t) width
      = some (f ++ (y ++ (y ++ t))) := by
    rw [← hy, memcpyAt_append (hy ▸ hf.symm) (by simp; omega), List.drop_left' (hx.trans hy.symm),
      List.append_assoc]
  have hsecond : memcpyAt (f ++ (y ++ (y ++ t))) ((j + 1) * width) x width
      = some (f ++ (y ++ (x ++ t))) := by
    have := memcpyAt_append (s := x) (t := []) hfy (show x.length ≤ (y ++ t).length by simp; omega)
    rwa [List.append_nil, List.drop_left' (hy.trans hx.symm), hx, List.append_assoc,
      List.append_assoc, List.append_assoc] at this
  have hdrop : (f ++ (x ++ (y ++ t))).drop ((j + 1) * width) = y ++ t := by
    rw [← List.append_assoc, List.drop_left' hfx]
  rw [swapCells, List.drop_left' hf, htemp, hdrop]
  simp only [Option.bind_eq_bind, Option.bind_some, hfirst, hsecond]

/-- The pointers into the array, and the exchange of the cells they point to. -/
theorem cells_adjacent (rest : List Byte)
    (hwidth : ∀ c ∈ front ++ a :: b :: back, (encode c).length = width)
    (hj : front.length = j) :
    ∃ s t, ((front ++ a :: b :: back).flatMap encode ++ rest).drop (j * width) = encode a ++ s ∧
      ((front ++ a :: b :: back).flatMap encode ++ rest).drop ((j + 1) * width) = encode b ++ t ∧
      swapCells ((front ++ a :: b :: back).flatMap encode ++ rest) width j
        = some ((front ++ b :: a :: back).flatMap encode ++ rest) := by
  have ha : (encode a).length = width := hwidth a (by simp)
  have hb : (encode b).length = width := hwidth b (by simp)
  have hf : (front.flatMap encode).length = j * width := by
    rw [length_flatMap_cells fun c hc => hwidth c (List.mem_append_left _ hc), hj]
  have hfa : (front.flatMap encode ++ encode a).length = (j + 1) * width := by
    rw [List.length_append, hf, ha, Nat.succ_mul]
  have hsplit : (front ++ a :: b :: back).flatMap encode ++ rest
      = front.flatMap encode ++ (encode a ++ (encode b ++ (back.flatMap encode ++ rest))) := by
    simp
  refine ⟨encode b ++ (back.flatMap encode ++ rest), back.flatMap encode ++ rest, ?_, ?_, ?_⟩
  · rw [hsplit, List.drop_left' hf]
  · rw [hsplit, ← List.append_assoc, List.drop_left' hfa]
  · rw [hsplit, swapCells_append hf ha hb]
    simp

/-! ## The loops -/

/-- **The inner loop on bytes** follows the one on cells. -/
theorem returns_qsortBytesInner (hwidth : ∀ a, P a → (encode a).length = width)
    (hcompar : ∀ a b s t, P a → P b → comparBytes (encode a ++ s) (encode b ++ t) = compar a b)
    (hP : ∀ a ∈ cells, P a) (h : Returns (qsortInner compar rounds j cells) w Q) :
    Returns (qsortBytesInner width comparBytes rounds j (cells.flatMap encode ++ rest)) w
      fun r w' => ∃ cells', r = cells'.flatMap encode ++ rest ∧ (∀ a ∈ cells', P a) ∧
        Q cells' w' := by
  induction rounds generalizing w j cells with
  | zero => exact returns_pure.mpr ⟨cells, rfl, hP, returns_pure.mp h⟩
  | succ rounds ih =>
    rw [qsortInner, returns_bind, returns_access_iff] at h
    obtain ⟨a, ha, h⟩ := h
    rw [returns_bind, returns_access_iff] at h
    obtain ⟨b, hb, h⟩ := h
    obtain ⟨front, back, rfl, hj⟩ := exists_adjacent ha hb
    have hwidth' : ∀ c ∈ front ++ a :: b :: back, (encode c).length = width :=
      fun c hc => hwidth c (hP c hc)
    obtain ⟨s, t, hs, ht, hswap⟩ := cells_adjacent rest hwidth' hj
    rw [qsortBytesInner, hs, ht, hcompar a b s t (hP a (by simp)) (hP b (by simp)), returns_bind]
    refine (returns_bind.mp h).mono fun r w' hr => ?_
    by_cases hpos : r > 0
    · have hset : ((front ++ a :: b :: back).set j b).set (j + 1) a = front ++ b :: a :: back := by
        simp [← hj]
      rw [if_pos hpos, returns_bind, returns_access hswap]
      rw [if_pos hpos, hset] at hr
      refine ih (fun c hc => hP c ?_) hr
      simp only [List.mem_append, List.mem_cons] at hc ⊢
      tauto
    · rw [if_neg hpos] at hr ⊢
      exact ih hP hr

/-- **The outer loop on bytes** follows the one on cells. -/
theorem returns_qsortBytesOuter (hwidth : ∀ a, P a → (encode a).length = width)
    (hcompar : ∀ a b s t, P a → P b → comparBytes (encode a ++ s) (encode b ++ t) = compar a b)
    {i : ℕ} (hP : ∀ a ∈ cells, P a) (h : Returns (qsortOuter compar nel rounds i cells) w Q) :
    Returns (qsortBytesOuter nel width comparBytes rounds i (cells.flatMap encode ++ rest)) w
      fun r w' => ∃ cells', r = cells'.flatMap encode ++ rest ∧ Q cells' w' := by
  induction rounds generalizing w i cells with
  | zero => exact returns_pure.mpr ⟨cells, rfl, returns_pure.mp h⟩
  | succ rounds ih =>
    rw [qsortOuter, returns_bind] at h
    rw [qsortBytesOuter, returns_bind]
    refine (returns_qsortBytesInner hwidth hcompar hP h).mono ?_
    rintro r w' ⟨cells', rfl, hP', h'⟩
    exact ih hP' h'

/-- **`qsort_` on the bytes of an array refines `qsort` on its cells**, and leaves what is behind
the array alone. -/
theorem returns_qsortBytes (rest : List Byte)
    (hwidth : ∀ a, P a → (encode a).length = width)
    (hcompar : ∀ a b s t, P a → P b → comparBytes (encode a ++ s) (encode b ++ t) = compar a b)
    (hP : ∀ a ∈ cells, P a) (h : Returns (qsort cells nel compar) w Q) :
    Returns (qsortBytes (cells.flatMap encode ++ rest) nel width comparBytes) w fun r w' =>
      ∃ cells', r = cells'.flatMap encode ++ rest ∧ Q cells' w' := by
  by_cases hnel : nel = 0
  · rw [qsort, if_pos hnel] at h
    exact absurd h not_returns_throw
  · rw [qsort, if_neg hnel] at h
    rw [qsortBytes, if_neg hnel]
    exact returns_qsortBytesOuter hwidth hcompar hP h

end Cells

/-! ## Pointers -/

@[simp] theorem length_pointerBytes (a : Addr) : (pointerBytes a).length = 8 := by
  simp [pointerBytes]

/-- A pointer is loaded as it was stored. -/
theorem loadPointer_append {a : ℕ} (ha : a < 2 ^ 64) (t : List Byte) :
    loadPointer (pointerBytes a ++ t) = some a := by
  rw [loadPointer, if_pos (by simp), List.take_left' (length_pointerBytes a)]
  refine congrArg some (show (_ : ℕ) = a from ?_)
  simp only [pointerBytes, List.range_succ, List.range_zero, List.nil_append, List.cons_append,
    List.map_cons, List.map_nil, List.foldr_cons, List.foldr_nil, BitVec.toNat_ofNat]
  omega

theorem envNameCompareCells_append {a b : Addr} (ha : a < 2 ^ 64) (hb : b < 2 ^ 64)
    (s t : List Byte) :
    envNameCompareCells (pointerBytes a ++ s) (pointerBytes b ++ t) = envNameCompare a b := by
  rw [envNameCompareCells, loadPointer_append ha, loadPointer_append hb]
  simp [access]

/-! ## `uboot_env_sort` -/

/-- **The array of pointers** is sorted in place, whatever is behind it. -/
theorem returns_qsortBytes_pairs {cs' : List (Addr × Entry)} (h : Linked w.nodes env.vars cs)
    (hne : cs ≠ []) (haddr : ∀ c ∈ cs, c.1 < 2 ^ 64) (hsorted : StableSorted pairKey cs cs')
    (size : ℕ) (behind : List Byte) :
    Returns (qsortBytes ((cs.map Prod.fst).flatMap pointerBytes ++ behind) cs.length 8
        envNameCompareCells) (w.alloc size) fun r w' =>
      r = (cs'.map Prod.fst).flatMap pointerBytes ++ behind ∧ w' = w.alloc size := by
  have hpair := h.pairAt_alloc size
  have haddr' : ∀ a ∈ cs.map Prod.fst, a < 2 ^ 64 := by
    intro a ha
    obtain ⟨c, hc, rfl⟩ := List.mem_map.mp ha
    exact haddr c hc
  have hsort := returns_qsort (cs.map Prod.fst) (fun a => (entryAt cs a).1.key)
    (by simpa using hne) fun a b ha hb => returns_envNameCompare (hpair a ha) (hpair b hb)
  rw [List.length_map] at hsort
  refine (returns_qsortBytes behind (fun a _ => length_pointerBytes a)
    (fun a b s t ha hb => envNameCompareCells_append (haddr' a ha) (haddr' b hb) s t)
    (fun _ ha => ha) hsort).mono ?_
  rintro r w' ⟨arr, rfl, harr, rfl⟩
  refine ⟨?_, rfl⟩
  -- both orders are the stable order of the names, and there is only one
  have hmap := harr.map (fun a => (a, entryAt cs a)) pairKey
  rw [h.map_entryAt] at hmap
  obtain rfl := hmap.unique hsorted
  simp [Function.comp_def]

/-- **`uboot_env_sort` is a stable sort that keeps every pair.**  The list ends in the same pairs,
with the names and values they had, in the order of their names; pairs of one name keep their order.
It ends in `NULL` and passes no pair twice.  No other pair is touched, and of the memory behind the
array of pointers nothing. -/
theorem ubootEnvSort_stable (h : Linked w.nodes env.vars cs)
    (hfresh : ∀ a, w.heap ≤ a → w.nodes a = none) :
    Returns (ubootEnvSort env) w fun r w' => ∃ cs',
      cs'.Perm cs ∧ cs'.Pairwise (fun c d => c.2.1.key ≤ d.2.1.key) ∧
      (∀ n : CStr, cs'.filter (·.2.1 = n) = cs.filter (·.2.1 = n)) ∧
      Linked w'.nodes r.vars cs' ∧ (cs'.map Prod.fst).Nodup ∧ r.envSize = env.envSize ∧
      (∀ a ∉ cs.map Prod.fst, w'.nodes a = w.nodes a) ∧
      (cs ≠ [] → (∀ c ∈ cs, c.1 < 2 ^ 64) → ∀ behind : List Byte,
        Returns (qsortBytes ((cs.map Prod.fst).flatMap pointerBytes ++ behind) cs.length 8
          envNameCompareCells) (w.alloc (cs.length * 8)) fun arr _ =>
            arr = (cs'.map Prod.fst).flatMap pointerBytes ++ behind) := by
  refine (returns_ubootEnvSort_pairs h hfresh).mono ?_
  rintro r w' ⟨hsize, -, -, hnodes, cs', hsorted, hlinked⟩
  refine ⟨cs', hsorted.perm, hsorted.sorted, fun n => ?_, hlinked, hlinked.nodup, hsize, hnodes,
    fun hne haddr behind => ?_⟩
  · simpa only [pairKey, CStr.key_injective.eq_iff] using hsorted.stable n.key
  · exact (returns_qsortBytes_pairs h hne haddr hsorted _ behind).mono fun _ _ hr => hr.1

/-- Two pairs of the name `b` and one of the name `a`. -/
theorem ubootEnvSort_stable_small : ∃ w env cs,
    cs.map Prod.snd = [(CStr.lit "b", CStr.lit "1"), (CStr.lit "b", CStr.lit "2"),
      (CStr.lit "a", CStr.lit "")] ∧
    Returns (ubootEnvSort env) w fun r w' => ∃ cs' : List (Addr × Entry), cs'.Perm cs ∧
      cs'.Pairwise (fun c d => c.2.1.key ≤ d.2.1.key) ∧ Linked w'.nodes r.vars cs' := by
  have h := (((Holds.powerOn 8 0 (fun _ => 0) []).push (e := (CStr.lit "a", CStr.lit ""))
    (.refl _)).push (e := (CStr.lit "b", CStr.lit "2")) (.refl _)).push
      (e := (CStr.lit "b", CStr.lit "1")) (.refl _)
  obtain ⟨cs, hcs, hxs⟩ := h.list
  exact ⟨_, _, cs, hxs, (ubootEnvSort_stable hcs h.fresh).mono
    fun _ _ ⟨cs', hperm, hsorted, _, hlinked, _⟩ => ⟨cs', hperm, hsorted, hlinked⟩⟩

end LittleLoader
