import LittleLoader.Env.Holds
import LittleLoader.Foundations.StableSort

/-!
# Env/Sort — `qsort_` and `uboot_env_sort` sort stably

`qsort_` is a bubble sort, so with a comparison that follows a key it computes the stable sort
(`returns_qsort`).  `uboot_env_sort` sorts the addresses of the pairs by their names and relinks
them in that order: the entries of the environment are sorted by name, entries of one name in the
order they had (`returns_ubootEnvSort`).
-/

namespace LittleLoader

variable {w w' : World} {env : UbootEnv} {p : Option Addr} {a : Addr} {xs : List Entry}
  {cs : List (Addr × Entry)} {fuel : ℕ}

/-! ## `qsort_` -/

section Qsort

variable {α κ : Type} [LinearOrder κ] {key : α → κ} {compar : α → α → M ℤ} {P : α → Prop}

/-- The inner loop carries `x` through the cells that are left of its round. -/
theorem returns_qsortInner (front : List α) (x : α)
    (hcompar : ∀ a b, P a → P b →
      Returns (compar a b) w fun r w' => (0 < r ↔ key b < key a) ∧ w' = w)
    {back mid : List α} (hP : ∀ a ∈ x :: mid, P a) :
    Returns (qsortInner compar mid.length front.length (front ++ x :: mid ++ back)) w
      fun r w' => r = front ++ bubble key x mid ++ back ∧ w' = w := by
  induction mid generalizing front x with
  | nil => simp [qsortInner, bubble]
  | cons y mid ih =>
    have hx : (front ++ x :: y :: mid ++ back)[front.length]? = some x := by simp
    have hy : (front ++ x :: y :: mid ++ back)[front.length + 1]? = some y := by simp
    rw [List.length_cons, qsortInner, returns_bind, returns_access hx, returns_bind,
      returns_access hy, returns_bind]
    refine (hcompar x y (hP x (by simp)) (hP y (by simp))).mono ?_
    rintro r w' ⟨hr, rfl⟩
    simp only [gt_iff_lt, hr, bubble]
    split
    · have hswap : ((front ++ x :: y :: mid ++ back).set front.length y).set (front.length + 1) x
          = (front ++ [y]) ++ x :: mid ++ back := by
        simp
      have := ih (front ++ [y]) x fun a ha => hP a (by
        rcases List.mem_cons.mp ha with rfl | ha <;> simp [*])
      rw [hswap]
      simpa using this
    · have := ih (front ++ [x]) y fun a ha => hP a (List.mem_cons_of_mem _ ha)
      simpa using this

/-- The outer loop settles one cell a round. -/
theorem returns_qsortOuter
    (hcompar : ∀ a b, P a → P b →
      Returns (compar a b) w fun r w' => (0 < r ↔ key b < key a) ∧ w' = w)
    {xs front done : List α} (rounds : ℕ) (hP : ∀ a ∈ front, P a)
    (hinv : BubbleInv key xs front done) (hrounds : front.length = rounds + 1) :
    Returns (qsortOuter compar (front.length + done.length) rounds done.length (front ++ done)) w
      fun r w' => StableSorted key xs r ∧ w' = w := by
  induction rounds generalizing front done with
  | zero => exact returns_pure.mpr ⟨hinv.stableSorted hrounds.le, rfl⟩
  | succ rounds ih =>
    rcases front with _ | ⟨x, mid⟩
    · simp at hrounds
    · have hbound : (x :: mid).length + done.length - done.length - 1 = mid.length := by
        simp only [List.length_cons]
        omega
      rw [qsortOuter, returns_bind, hbound]
      refine (returns_qsortInner [] x hcompar hP).mono ?_
      rintro r w' ⟨rfl, rfl⟩
      obtain ⟨front', m, heq, hlen, hinv'⟩ := hinv.round
      have hP' : ∀ a ∈ front', P a := fun a ha =>
        hP a (bubble_perm.subset (heq ▸ List.mem_append_left _ ha))
      have hlen' : front'.length = rounds + 1 := by simpa [hlen] using hrounds
      have := ih hP' hinv' hlen'
      rw [List.nil_append, heq, List.append_assoc, List.singleton_append]
      rw [hlen, List.length_cons, Nat.add_comm done.length 1, ← Nat.add_assoc] at this
      simpa [Nat.add_comm] using this

/-- **`qsort_` sorts stably** by any key its comparison follows. -/
theorem returns_qsort (arr : List α) (key : α → κ) (hne : arr ≠ [])
    (hcompar : ∀ a b, a ∈ arr → b ∈ arr →
      Returns (compar a b) w fun r w' => (0 < r ↔ key b < key a) ∧ w' = w) :
    Returns (qsort arr arr.length compar) w fun r w' => StableSorted key arr r ∧ w' = w := by
  have hlen : arr.length ≠ 0 := by simpa using hne
  rw [qsort, if_neg hlen]
  have := returns_qsortOuter (P := (· ∈ arr)) hcompar (arr.length - 1)
    (fun _ ha => ha) (.init arr) (by omega)
  simpa using this

end Qsort

/-! ## The array of pairs -/

theorem returns_countPairs (h : Linked w.nodes p cs) (hfuel : cs.length < fuel) :
    Returns (countPairs fuel p) w fun r w' => r = cs.length ∧ w' = w := by
  induction cs generalizing p fuel with
  | nil =>
    obtain rfl := Linked.nil_iff.mp h
    obtain ⟨fuel, rfl⟩ : ∃ k, fuel = k + 1 := ⟨fuel - 1, by omega⟩
    simp [countPairs]
  | cons c cs ih =>
    obtain ⟨rfl, next, hn, hr⟩ := Linked.cons_iff.mp h
    obtain ⟨fuel, rfl⟩ : ∃ k, fuel = k + 1 := ⟨fuel - 1, by omega⟩
    simp only [countPairs, returns_bind, returns_loadPair hn, returns_pure]
    refine (ih hr (by simpa using hfuel)).mono ?_
    rintro r w' ⟨rfl, rfl⟩
    exact ⟨rfl, rfl⟩

/-- The filling loop stores the addresses of the pairs behind the `front` it has stored already, in
an array that is long enough. -/
theorem returns_fillPairs (front rest : List Addr) (h : Linked w.nodes p cs)
    (hrest : rest.length = cs.length) (hfuel : cs.length < fuel) :
    Returns (fillPairs fuel p front.length (front ++ rest)) w fun r w' =>
      r = front ++ cs.map Prod.fst ∧ w' = w := by
  induction cs generalizing p fuel front rest with
  | nil =>
    obtain rfl := Linked.nil_iff.mp h
    obtain rfl : rest = [] := List.length_eq_zero_iff.mp hrest
    obtain ⟨fuel, rfl⟩ : ∃ k, fuel = k + 1 := ⟨fuel - 1, by omega⟩
    simp [fillPairs]
  | cons c cs ih =>
    obtain ⟨rfl, next, hn, hr⟩ := Linked.cons_iff.mp h
    obtain ⟨fuel, rfl⟩ : ∃ k, fuel = k + 1 := ⟨fuel - 1, by omega⟩
    rcases rest with _ | ⟨r, rest⟩
    · simp at hrest
    · have hbound : ¬ (front.length ≥ (front ++ r :: rest).length) := by simp
      simp only [fillPairs, if_neg hbound, returns_bind, returns_loadPair hn]
      have := ih (front ++ [c.1]) rest hr (by simpa using hrest)
        (by simpa using hfuel)
      simpa [List.set_append] using this

/-! ## Relinking -/

/-- The pair at `a` holds the entry `e`, whatever it is linked to. -/
def PairAt (w : World) (a : Addr) (e : Entry) : Prop :=
  ∃ next, w.nodes a = some ⟨e.1.obj, e.2.obj, next⟩

theorem Linked.pairAt (h : Linked w.nodes p cs) : ∀ c ∈ cs, PairAt w c.1 c.2 := by
  induction cs generalizing p with
  | nil => simp
  | cons c cs ih =>
    obtain ⟨-, next, hn, hr⟩ := Linked.cons_iff.mp h
    intro d hd
    rcases List.mem_cons.mp hd with rfl | hd
    · exact ⟨next, hn⟩
    · exact ih hr d hd

theorem PairAt.store_of_ne {b : Addr} {v : UbootNameValue} {e : Entry} (h : PairAt w a e)
    (hab : a ≠ b) : PairAt (w.store b v) a e := by
  obtain ⟨next, hn⟩ := h
  exact ⟨next, by rw [World.store_nodes, Function.update_of_ne hab, hn]⟩

theorem returns_setNext {e : Entry} {next : Option Addr} (h : PairAt w a e)
    {Q : Unit → World → Prop} :
    Returns (setNext a next) w Q ↔ Q () (w.store a ⟨e.1.obj, e.2.obj, next⟩) := by
  obtain ⟨_, hn⟩ := h
  simp [setNext, returns_loadPair hn]

/-- What relinking leaves alone: everything but the pairs of the array. -/
structure Relinked (w w' : World) (arr : List Addr) : Prop extends SameDevice w w' where
  heap : w'.heap = w.heap
  nodes : ∀ a ∉ arr, w'.nodes a = w.nodes a

theorem relinked_store {b : Addr} {v : UbootNameValue} {arr : List Addr} (hb : b ∈ arr) :
    Relinked w (w.store b v) arr where
  toSameDevice := sameDevice_store _ _ _
  heap := rfl
  nodes a ha := Function.update_of_ne (fun hab : a = b => ha (hab.symm ▸ hb)) _ _

/-- **Relinking**: from the pair at index `front.length` on, the pairs of the array end up linked in
its order, the last one to `NULL`. -/
theorem returns_relinkPairs {entryAt : Addr → Entry} (front : List Addr) {rest : List Addr}
    {b : Addr} (hnd : (b :: rest).Nodup) (hpair : ∀ a ∈ b :: rest, PairAt w a (entryAt a)) :
    Returns (do
        relinkPairs (front ++ b :: rest) rest.length front.length
        let last ← access (front ++ b :: rest)[front.length + rest.length]?
        setNext last none) w
      fun _ w' => Relinked w w' (b :: rest) ∧
        Linked w'.nodes (some b) ((b :: rest).map fun a => (a, entryAt a)) := by
  induction rest generalizing w front b with
  | nil =>
    have hlast : (front ++ [b])[front.length]? = some b := by simp
    simp only [relinkPairs, List.length_nil, pure_bind, Nat.add_zero, returns_bind,
      returns_access hlast, returns_setNext (hpair b (by simp))]
    refine ⟨relinked_store (by simp), Linked.cons_iff.mpr ⟨rfl, none, by simp, rfl⟩⟩
  | cons c rest ih =>
    have hb : (front ++ b :: c :: rest)[front.length]? = some b := by simp
    have hc : (front ++ b :: c :: rest)[front.length + 1]? = some c := by simp
    obtain ⟨hbrest, hnd'⟩ := List.nodup_cons.mp hnd
    rw [List.length_cons, relinkPairs, bind_assoc, returns_bind, returns_access hb, bind_assoc,
      returns_bind, returns_access hc, bind_assoc, returns_bind,
      returns_setNext (hpair b (by simp))]
    have hpair' : ∀ a ∈ c :: rest,
        PairAt (w.store b ⟨(entryAt b).1.obj, (entryAt b).2.obj, some c⟩) a (entryAt a) :=
      fun a ha => (hpair a (List.mem_cons_of_mem _ ha)).store_of_ne fun hab => hbrest (hab ▸ ha)
    have := ih (front ++ [b]) hnd' hpair'
    rw [List.length_append, List.length_singleton, List.append_assoc, List.singleton_append,
      Nat.add_assoc, Nat.add_comm 1] at this
    refine this.mono ?_
    rintro _ w' ⟨hw', hlinked⟩
    refine ⟨⟨(sameDevice_store _ _ _).trans hw'.toSameDevice, hw'.heap, fun a ha => ?_⟩,
      Linked.cons_iff.mpr ⟨rfl, some c, ?_, hlinked⟩⟩
    · rw [hw'.nodes a fun h => ha (List.mem_cons_of_mem _ h), World.store_nodes,
        Function.update_of_ne fun hab : a = b => ha (hab.symm ▸ List.mem_cons_self)]
    · rw [hw'.nodes b hbrest, World.store_nodes, Function.update_self]

/-! ## `uboot_env_sort` -/

theorem returns_envNameCompare {b : Addr} {d e : Entry} (ha : PairAt w a d) (hb : PairAt w b e) :
    Returns (envNameCompare a b) w fun r w' => (0 < r ↔ e.1.key < d.1.key) ∧ w' = w := by
  obtain ⟨_, ha⟩ := ha
  obtain ⟨_, hb⟩ := hb
  obtain ⟨r, hr, -, hpos⟩ := strcmp_obj d.1 e.1
  simp [envNameCompare, returns_loadPair ha, returns_loadPair hb, hr, hpos]

/-- The entries of one name keep their order. -/
theorem StableSorted.filter_name {ys : List Entry}
    (h : StableSorted (fun e : Entry => e.1.key) xs ys) (n : CStr) :
    ys.filter (·.1 = n) = xs.filter (·.1 = n) := by
  simpa only [CStr.key_injective.eq_iff] using h.stable n.key

/-- The entries of a list by the addresses of its pairs. -/
def entryAt (cs : List (Addr × Entry)) (a : Addr) : Entry := (cs.lookup a).getD default

theorem Linked.entryAt_eq (h : Linked w.nodes p cs) : ∀ c ∈ cs, entryAt cs c.1 = c.2 := by
  intro c hc
  rw [entryAt, (lookup_eq_some_iff_mem h.nodup).mpr hc, Option.getD_some]

theorem Linked.map_entryAt (h : Linked w.nodes p cs) :
    (cs.map Prod.fst).map (fun a => (a, entryAt cs a)) = cs := by
  rw [List.map_map]
  refine (List.map_congr_left fun c hc => ?_).trans (List.map_id cs)
  exact Prod.ext rfl (h.entryAt_eq c hc)

/-- The pairs of a list, also when the heap has grown. -/
theorem Linked.pairAt_alloc (h : Linked w.nodes p cs) (size : ℕ) :
    ∀ a ∈ cs.map Prod.fst, PairAt (w.alloc size) a (entryAt cs a) := by
  intro a ha
  obtain ⟨c, hc, rfl⟩ := List.mem_map.mp ha
  rw [h.entryAt_eq c hc]
  exact h.pairAt c hc

/-- The name of a pair: the key it is sorted by. -/
def pairKey (c : Addr × Entry) : List ℕ := c.2.1.key

/-- **`uboot_env_sort` relinks the pairs in the stable order of their names**, and leaves all other
pairs alone. -/
theorem returns_ubootEnvSort_pairs (hcs : Linked w.nodes env.vars cs)
    (hfresh : ∀ a, w.heap ≤ a → w.nodes a = none) :
    Returns (ubootEnvSort env) w fun r w' =>
      r.envSize = env.envSize ∧ SameDevice w w' ∧ w.heap ≤ w'.heap ∧
        (∀ a ∉ cs.map Prod.fst, w'.nodes a = w.nodes a) ∧
        ∃ cs', StableSorted pairKey cs cs' ∧ Linked w'.nodes r.vars cs' := by
  have hfuel : cs.length < w.heap + 1 := Nat.lt_succ_of_le (hcs.length_le hfresh)
  simp only [ubootEnvSort, returns_bind, returns_listFuel]
  refine (returns_countPairs hcs hfuel).mono ?_
  rintro count w' ⟨rfl, rfl⟩
  by_cases hne : cs = []
  · subst hne
    exact returns_pure.mpr ⟨rfl, .refl _, le_rfl, fun _ _ => rfl, [],
      ⟨List.Pairwise.nil, fun _ => rfl⟩, hcs⟩
  · have hlen : cs.length ≠ 0 := by simpa using hne
    simp only [if_neg hlen, returns_bind, returns_malloc, returns_listFuel]
    have hq := quiet_alloc w' (cs.length * 8)
    set w₁ := w'.alloc (cs.length * 8)
    have hcs₁ : Linked w₁.nodes env.vars cs := hq.nodes ▸ hcs
    have hpair : ∀ a ∈ cs.map Prod.fst, PairAt w₁ a (entryAt cs a) := hcs.pairAt_alloc _
    refine (returns_fillPairs [] _ hcs₁ (by simp)
      (hfuel.trans_le (Nat.succ_le_succ hq.heap))).mono ?_
    rintro arr w₂ ⟨rfl, rfl⟩
    have hsort := returns_qsort (cs.map Prod.fst) (fun a => (entryAt cs a).1.key)
      (by simpa using hne) fun a b ha hb => returns_envNameCompare (hpair a ha) (hpair b hb)
    rw [List.length_map] at hsort
    refine hsort.mono ?_
    rintro arr w₂ ⟨hsorted, rfl⟩
    have hperm := hsorted.perm
    have hcount : arr.length = cs.length := by simpa using hperm.length_eq
    rcases arr with _ | ⟨b, rest⟩
    · simp [hlen.symm] at hcount
    · have hrelink := returns_relinkPairs []
        (hperm.nodup_iff.mpr hcs.nodup) fun a ha => hpair a (hperm.subset ha)
      have hrest : cs.length - 1 = rest.length := by
        rw [← hcount]
        simp
      rw [hrest]
      simp only [List.nil_append, List.length_nil, Nat.zero_add, returns_bind] at hrelink
      refine hrelink.mono fun _ _ h => h.mono fun _ _ h => h.mono ?_
      rintro _ w₂ ⟨hw₂, hlinked⟩
      rw [List.getElem?_cons_zero, returns_access_some, returns_pure]
      refine ⟨rfl, hq.toSameDevice.trans hw₂.toSameDevice, hw₂.heap ▸ hq.heap, fun a ha => ?_,
        (b :: rest).map fun a => (a, entryAt cs a), ?_, hlinked⟩
      · rw [hw₂.nodes a fun hmem => ha (hperm.subset hmem), hq.nodes]
      · have hmap := hsorted.map (fun a => (a, entryAt cs a)) pairKey
        rwa [hcs.map_entryAt] at hmap

/-- **`uboot_env_sort` is a stable sort by name** that keeps every entry. -/
theorem returns_ubootEnvSort (h : Holds w env xs) :
    Returns (ubootEnvSort env) w fun r w' =>
      r.envSize = env.envSize ∧ SameDevice w w' ∧
        ∃ ys, StableSorted (fun e : Entry => e.1.key) xs ys ∧ Holds w' r ys := by
  obtain ⟨⟨cs, hcs, rfl⟩, hfresh⟩ := h
  refine (returns_ubootEnvSort_pairs hcs hfresh).mono ?_
  rintro r w' ⟨hsize, hdev, hheap, hnodes, cs', hsorted, hlinked⟩
  refine ⟨hsize, hdev, cs'.map Prod.snd, hsorted.map Prod.snd fun e : Entry => e.1.key, ?_⟩
  refine Holds.mk_of_linked _ hlinked rfl fun a ha => ?_
  have hnone := hfresh a (hheap.trans ha)
  rw [hnodes a fun hmem => ?_, hnone]
  obtain ⟨c, hc, rfl⟩ := List.mem_map.mp hmem
  obtain ⟨next, hn⟩ := hcs.pairAt c hc
  simp [hn] at hnone

end LittleLoader
