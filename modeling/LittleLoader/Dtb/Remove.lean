import LittleLoader.Dtb.Edit
import LittleLoader.Dtb.Place

/-!
# Dtb/Remove — properties and nodes taken away

    fdt_del_…:   is ┆ removed ┆ rest   ──▸   is ┆ rest
    fdt_nop_…:   is ┆ removed ┆ rest   ──▸   is ┆ NOP ┆ … ┆ NOP ┆ rest

Items in a row are cut out, and what is behind them moves up, or NOPs are stored over them, and
nothing moves.  Neither needs room.
-/

namespace LittleLoader

open Memory Mem

variable {m m' : Mem} {fdt n e p : ℕ} {l l' : Layout} {pre post is rest cut : List Item}
  {pad : List Byte} {ts us : List Token} {k : CStr} {t x : Node} {q : List ℕ}

/-! ## Items in a row -/

/-- NOPs in a row. -/
def nops (n : ℕ) : List Item := List.replicate n .nop

theorem denotes_nops {strings : List Byte} (n : ℕ) (h : Denotes strings is ts) :
    Denotes strings (nops n ++ is) ts := by
  induction n with
  | zero => exact h
  | succ n ih => exact .nop ih

@[simp] theorem length_itemsBytes_nops (n : ℕ) : (itemsBytes (nops n)).length = 4 * n := by
  induction n with
  | zero => rfl
  | succ n ih =>
    have hnop : Item.nop.bytes.length = 4 := rfl
    rw [nops, List.replicate_succ, itemsBytes_cons, List.length_append, hnop, ← nops, ih]
    omega

/-- **The loop of `fdt_nop_region_`** stores NOPs, up to the end or just past it. -/
theorem nopLoop_eq (hn : e - p ≤ n) :
    nopLoop e n p m = m.write p (itemsBytes (nops ((e - p + 3) / 4))) := by
  induction n generalizing m p with
  | zero =>
    have hzero : (e - p + 3) / 4 = 0 := by omega
    rw [nopLoop, hzero]
    exact write_nil.symm
  | succ n ih =>
    rw [nopLoop]
    by_cases hp : p < e
    · have hone : (e - p + 3) / 4 = (e - (p + 4) + 3) / 4 + 1 := by omega
      have hnop : Item.nop.bytes = be32 fdtNop := rfl
      rw [if_pos hp, ih (by omega), hone, nops, nops, List.replicate_succ, itemsBytes_cons, hnop,
        write_append_front, length_be32, st32]
    · have hzero : (e - p + 3) / 4 = 0 := by omega
      rw [if_neg hp, hzero]
      exact write_nil.symm

namespace Loaded

variable (h : Loaded m fdt l)

include h

/-- **Items are cut out.** -/
theorem exists_cutItems (cut : List Item) (hi : l.HasItems (is ++ (cut ++ rest))) :
    ∃ m' l', fdtSpliceStruct m fdt (fdt + l.offDtStruct + (itemsBytes is).length)
        ((itemsBytes cut).length : ℕ) 0 = (0, m') ∧ Edited fdt m l m' l' ∧
      l.free.length ≤ l'.free.length + 0 ∧ l'.HasItems (is ++ rest) ∧ l'.strings = l.strings := by
  have hs : l.structs = itemsBytes is ++ (itemsBytes cut ++ (itemsBytes rest ++ be32 fdtEnd)) := by
    rw [hi.structs, itemsBytes_append, itemsBytes_append, List.append_assoc, List.append_assoc]
  obtain ⟨hole, free, m', hhole, -, hsplice, hedit⟩ := h.exists_spliceStruct hs (Nat.zero_le _)
  obtain rfl := List.length_eq_zero_iff.mp hhole
  refine ⟨m', _, hsplice, hedit, hedit.free_le ?_, ⟨?_, fun i hmem => ?_⟩, rfl⟩
  · simp only [hs, List.length_append, List.length_nil]
    omega
  · rw [itemsBytes_append, List.nil_append, List.append_assoc]
  · refine hi.padded i ?_
    simp only [List.mem_append] at hmem ⊢
    tauto

/-- **NOPs are stored over items.** -/
theorem exists_nopItems (cut : List Item) (hi : l.HasItems (is ++ (cut ++ rest)))
    (hn : (n + 3) / 4 * 4 = (itemsBytes cut).length) :
    ∃ l', Edited fdt m l (fdtNopRegion m (fdt + l.offDtStruct + (itemsBytes is).length) n) l' ∧
      l.free.length ≤ l'.free.length + 0 ∧ l'.HasItems (is ++ (nops ((n + 3) / 4) ++ rest)) ∧
        l'.strings = l.strings := by
  have hs : l.structs = itemsBytes is ++ (itemsBytes cut ++ (itemsBytes rest ++ be32 fdtEnd)) := by
    rw [hi.structs, itemsBytes_append, itemsBytes_append, List.append_assoc, List.append_assoc]
  have hlen : (itemsBytes (nops ((n + 3) / 4))).length = (itemsBytes cut).length := by
    rw [length_itemsBytes_nops]
    omega
  have hregion : fdtNopRegion m (fdt + l.offDtStruct + (itemsBytes is).length) n
      = m.write (fdt + l.offDtStruct + (itemsBytes is).length)
          (itemsBytes (nops ((n + 3) / 4))) := by
    rw [fdtNopRegion, nopLoop_eq (by omega), Nat.add_sub_cancel_left]
  rw [hregion]
  refine ⟨_, h.write_structs hs hlen, Nat.le_refl _, ⟨?_, fun i hmem => ?_⟩, rfl⟩
  · rw [itemsBytes_append, itemsBytes_append, List.append_assoc, List.append_assoc]
  · simp only [List.mem_append] at hmem
    rcases hmem with hmem | hmem | hmem
    · exact hi.padded i (List.mem_append_left _ hmem)
    · rw [List.eq_of_mem_replicate hmem]
      rfl
    · exact hi.padded i (by simp [hmem])

end Loaded


/-! ## Properties -/

theorem eraseP_append {qs rs : List Property} {v : List Byte} (hqs : k ∉ qs.map Prod.fst) :
    (qs ++ (k, v) :: rs).eraseP (·.1 = k) = qs ++ rs := by
  rw [eraseP_append_of_notMem hqs, List.eraseP_cons_of_pos (by simp)]

namespace Loaded

variable (h : Loaded m fdt l) {name : CStr} {npad : List Byte} {ps : List Property} {t : Token}

include h

/-- What a property takes. -/
theorem length_prop {off : ℕ} {old pad : List Byte}
    (hi : l.HasItems (is ++ .prop off old pad :: rest)) :
    (itemsBytes [.prop off old pad]).length = sizeofProperty + fdtTagalign old.length ∧
      uint (old.length : ℕ) = old.length := by
  obtain ⟨-, hpad, hlt⟩ := h.structs_of_prop hi
  refine ⟨?_, uint_eq rfl (by omega)⟩
  rw [← hpad, itemsBytes_cons, itemsBytes_nil, List.append_nil, Item.length_bytes_prop,
    List.length_append, sizeofProperty]
  omega

/-- **`fdt_delprop`** cuts the first property of the name out. -/
theorem delprop_cases (hi : l.HasItems (pre ++ .beginNode name npad :: post))
    (hd : Denotes l.strings post (ps.map Token.prop ++ t :: us)) (ht : ∀ x, t ≠ .prop x) :
    (k ∉ ps.map Prod.fst ∧
      fdtDelprop m fdt (offset pre) k.obj = .ok (FdtErr.notfound.code, m)) ∨
    ∃ m', k ∈ ps.map Prod.fst ∧ fdtDelprop m fdt (offset pre) k.obj = .ok (0, m') ∧
      EditEnd fdt m l 0 (fun r l' => r = 0 ∧
        ∃ post', l'.HasItems (pre ++ .beginNode name npad :: post') ∧
          Denotes l'.strings post' ((ps.eraseP (·.1 = k)).map Token.prop ++ t :: us)) 0 m' := by
  rw [fdtDelprop, h.rwProbe_eq]
  simp only [h.getProperty_eq]
  cases hd.propCase k with
  | absent hmem =>
    rw [h.getProperty_absent hi hd ht hmem]
    exact .inl ⟨hmem, rfl⟩
  | present qs rs old is rest off pad hps hqs hpost his hoff hrest =>
    subst hps hpost
    obtain ⟨hget, hi'⟩ := h.getProperty_present hi his hqs hoff
    obtain ⟨hcut, hold⟩ := h.length_prop hi'
    obtain ⟨m', l', hsplice, hedit, hfree, hitems, hstrings⟩ :=
      h.exists_cutItems [.prop off old pad] hi'
    rw [hcut] at hsplice
    rw [List.append_assoc, List.cons_append] at hitems
    rw [hget, ok_bind]
    simp only [hold, hsplice]
    refine .inr ⟨m', by simp, rfl, .done l' hedit hfree (le_refl 0) ⟨rfl, is ++ rest, hitems, ?_⟩⟩
    rw [eraseP_append hqs, List.map_append, List.append_assoc, hstrings]
    exact his.append hrest

/-- **`fdt_nop_property`** stores NOPs over it. -/
theorem nopProperty_cases (hi : l.HasItems (pre ++ .beginNode name npad :: post))
    (hd : Denotes l.strings post (ps.map Token.prop ++ t :: us)) (ht : ∀ x, t ≠ .prop x) :
    (k ∉ ps.map Prod.fst ∧
      fdtNopProperty m fdt (offset pre) k.obj = .ok (FdtErr.notfound.code, m)) ∨
    ∃ m', k ∈ ps.map Prod.fst ∧ fdtNopProperty m fdt (offset pre) k.obj = .ok (0, m') ∧
      EditEnd fdt m l 0 (fun r l' => r = 0 ∧
        ∃ post', l'.HasItems (pre ++ .beginNode name npad :: post') ∧
          Denotes l'.strings post' ((ps.eraseP (·.1 = k)).map Token.prop ++ t :: us)) 0 m' := by
  rw [fdtNopProperty, h.getProperty_eq]
  cases hd.propCase k with
  | absent hmem =>
    rw [h.getProperty_absent hi hd ht hmem]
    exact .inl ⟨hmem, rfl⟩
  | present qs rs old is rest off pad hps hqs hpost his hoff hrest =>
    subst hps hpost
    obtain ⟨hget, hi'⟩ := h.getProperty_present hi his hqs hoff
    obtain ⟨hcut, hold⟩ := h.length_prop hi'
    have hround : (old.length + sizeofProperty + 3) / 4 * 4
        = sizeofProperty + fdtTagalign old.length := by
      unfold sizeofProperty fdtTagalign
      omega
    obtain ⟨l', hedit, hfree, hitems, hstrings⟩ :=
      h.exists_nopItems [.prop off old pad] hi' (hround.trans hcut.symm)
    rw [List.append_assoc, List.cons_append] at hitems
    rw [hget, ok_bind]
    simp only [hold, pure_eq]
    refine .inr ⟨_, by simp, rfl, .done l' hedit hfree (le_refl 0)
      ⟨rfl, is ++ (nops _ ++ rest), hitems, ?_⟩⟩
    rw [eraseP_append hqs, List.map_append, List.append_assoc, hstrings]
    exact his.append (denotes_nops _ hrest)

/-- **`fdt_setprop_inplace`** stores another value of the same length. -/
theorem setpropInplace_cases (v : List Byte)
    (hi : l.HasItems (pre ++ .beginNode name npad :: post))
    (hd : Denotes l.strings post (ps.map Token.prop ++ t :: us)) (ht : ∀ x, t ≠ .prop x) :
    (ps.lookup k = none ∧ fdtSetpropInplace m fdt (offset pre) k.obj v v.length
      = .ok (FdtErr.notfound.code, m)) ∨
    (∃ old, ps.lookup k = some old ∧ old.length ≠ v.length ∧
      fdtSetpropInplace m fdt (offset pre) k.obj v v.length = .ok (FdtErr.nospace.code, m)) ∨
    ∃ old m', ps.lookup k = some old ∧ old.length = v.length ∧
      fdtSetpropInplace m fdt (offset pre) k.obj v v.length = .ok (0, m') ∧
      EditEnd fdt m l 0 (fun r l' => r = 0 ∧
        ∃ post', l'.HasItems (pre ++ .beginNode name npad :: post') ∧
          Denotes l'.strings post' ((assign k v ps).map Token.prop ++ t :: us)) 0 m' := by
  have hversion : ¬ (fdtVersion m fdt < 0x10) := by
    rw [h.version_eq]
    decide
  rw [fdtSetpropInplace, k.fetch_strlen, ok_bind]
  simp only [fdtGetprop]
  cases hd.propCase k with
  | absent hmem =>
    rw [h.getProperty_absent hi hd ht hmem]
    exact .inl ⟨lookup_eq_none_iff_notMem.mpr hmem, rfl⟩
  | present qs rs old is rest off pad hps hqs hpost his hoff hrest =>
    subst hps hpost
    obtain ⟨hget, hi'⟩ := h.getProperty_present hi his hqs hoff
    obtain ⟨hcut, hold⟩ := h.length_prop hi'
    have hnot (a b : Prop) : ¬ (fdtVersion m fdt < 0x10 ∧ a ∧ b) := fun hc => hversion hc.1
    right
    simp only [hget, ok_bind, if_neg (hnot _ _), pure_eq, hold]
    by_cases hlen : old.length = v.length
    · obtain ⟨hs, -, -⟩ := h.structs_of_prop hi'
      rw [List.append_assoc old pad] at hs
      have hedit := h.store_structs hs hlen.symm
        (p := fdt + l.offDtStruct +
          (itemsBytes (pre ++ .beginNode name npad :: is)).length + sizeofProperty)
        (by simp only [List.length_append, length_be32, sizeofProperty]; omega)
      have hstore := memcpyFrom_eq (m := m) (d := fdt + l.offDtStruct +
        (itemsBytes (pre ++ .beginNode name npad :: is)).length + sizeofProperty)
        (Nat.le_refl v.length)
      rw [List.take_length] at hstore
      refine .inr ⟨old, _, lookup_append hqs, hlen, ?_, .done _ hedit (Nat.le_refl _) (le_refl 0)
        ⟨rfl, is ++ .prop off v pad :: rest, ⟨?_, fun i hmem => ?_⟩, ?_⟩⟩
      · rw [if_neg (not_not.mpr (congrArg _ hlen)), if_neg (Nat.not_lt.mpr hlen.ge), hstore,
          ok_bind]
      · simp only [itemsBytes_append, itemsBytes_cons, Item.bytes, Item.tag, Item.body, Item.pad,
          List.append_assoc, hlen]
      · simp only [List.mem_append, List.mem_cons] at hmem
        rcases hmem with hmem | rfl | hmem | rfl | hmem
        · exact hi.padded i (List.mem_append_left _ hmem)
        · exact hi.padded _ (by simp)
        · exact hi.padded i (by simp [hmem])
        · have hpadded := hi.padded (.prop off old pad) (by simp)
          simpa only [Item.Padded, Item.body, Item.pad, List.length_append, hlen] using hpadded
        · exact hi.padded i (by simp [hmem])
      · simpa only [assign_append hqs, List.map_append, List.map_cons, List.append_assoc,
          List.cons_append] using his.append (.prop k off v pad hoff hrest)
    · refine .inl ⟨old, lookup_append hqs, hlen, ?_⟩
      rw [if_pos fun heq => hlen (by exact_mod_cast heq)]

/-! ## Nodes -/

/-- The offset behind the end of the node, and the size of the node. -/
theorem nodeEnd_eq (hi : l.HasItems (pre ++ (.beginNode name npad :: (is ++ [.endNode])) ++ post))
    (hd : Denotes l.strings is ts) (hp : PassesBy (fun _ => false) 0 ts 0) :
    fdtNodeEndOffset m fdt (offset pre)
        = .ok (offset (pre ++ .beginNode name npad :: (is ++ [.endNode]))) ∧
      offset (pre ++ .beginNode name npad :: (is ++ [.endNode])) - offset pre
        = ((itemsBytes (.beginNode name npad :: (is ++ [.endNode]))).length : ℕ) := by
  have hi' : l.HasItems (pre ++ .beginNode name npad :: (is ++ .endNode :: post)) := by
    simpa only [List.append_assoc, List.cons_append, List.nil_append] using hi
  refine ⟨h.nodeEndOffset_eq hi' hd hp, ?_⟩
  rw [offset, offset, itemsBytes_append, List.length_append]
  omega

/-- **`fdt_del_node`** cuts the items of the node out. -/
theorem exists_delNode
    (hi : l.HasItems (pre ++ (.beginNode name npad :: (is ++ [.endNode])) ++ post))
    (hd : Denotes l.strings is ts) (hp : PassesBy (fun _ => false) 0 ts 0) :
    ∃ m', fdtDelNode m fdt (offset pre) = .ok (0, m') ∧
      EditEnd fdt m l 0 (fun r l' => r = 0 ∧ l'.HasItems (pre ++ post) ∧ l'.strings = l.strings)
        0 m' := by
  obtain ⟨hend, hsize⟩ := h.nodeEnd_eq hi hd hp
  rw [List.append_assoc] at hi
  obtain ⟨m', l', hsplice, hedit, hfree, hitems, hstrings⟩ := h.exists_cutItems _ hi
  refine ⟨m', ?_, .done l' hedit hfree (le_refl 0) ⟨rfl, hitems, hstrings⟩⟩
  rw [fdtDelNode, h.rwProbe_eq]
  simp only
  rw [hend, ok_bind, if_neg (not_lt.mpr (offset_nonneg _)), hsize, h.offsetPtrRaw_offset, hsplice,
    pure_eq]

/-- **`fdt_nop_node`** stores NOPs over them. -/
theorem exists_nopNode
    (hi : l.HasItems (pre ++ (.beginNode name npad :: (is ++ [.endNode])) ++ post))
    (hd : Denotes l.strings is ts) (hp : PassesBy (fun _ => false) 0 ts 0) :
    ∃ m' n, fdtNopNode m fdt (offset pre) = .ok (0, m') ∧
      EditEnd fdt m l 0 (fun r l' => r = 0 ∧ l'.HasItems (pre ++ (nops n ++ post)) ∧
        l'.strings = l.strings) 0 m' := by
  obtain ⟨hend, hsize⟩ := h.nodeEnd_eq hi hd hp
  rw [List.append_assoc] at hi
  have hmod : (itemsBytes (.beginNode name npad :: (is ++ [.endNode]))).length % 4 = 0 :=
    length_itemsBytes_mod
      fun i hmem => hi.padded i (List.mem_append_right _ (List.mem_append_left _ hmem))
  obtain ⟨l', hedit, hfree, hitems, hstrings⟩ := h.exists_nopItems _ hi
    (n := (itemsBytes (.beginNode name npad :: (is ++ [.endNode]))).length) (by omega)
  refine ⟨_, _, ?_, .done l' hedit hfree (le_refl 0) ⟨rfl, hitems, hstrings⟩⟩
  have hptr : fetch (fdtOffsetPtr m fdt (offset pre) 0)
      = (.ok (fdt + l.offDtStruct + (itemsBytes pre).length) : MemM ℕ) := by
    rw [offset, h.offsetPtr_eq (by rw [hi.structs]; simp)]
    rfl
  rw [fdtNopNode, hend, ok_bind, if_neg (not_lt.mpr (offset_nonneg _)), hptr, ok_bind, hsize,
    Int.toNat_natCast, pure_eq]

end Loaded

end LittleLoader
