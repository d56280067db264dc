import LittleLoader.Dtb.Remove

/-!
# Dtb/Nodes — nodes made and renamed

    fdt_add_subnode:   node ┆ properties ┆ children ┆ …  ──▸  node ┆ properties ┆ new ┆ children ┆ …

The new node is behind the properties of its parent and in front of its children; it is empty.
Another name may take more bytes than the old one, or fewer.
-/

namespace LittleLoader

open Memory Mem

variable {m : Mem} {fdt n : ℕ} {l : Layout} {pre post is rest : List Item} {i : Item}
  {us : List Token} {k name : CStr}

/-- The room that a new node takes. -/
def nodeRoom (k : CStr) : ℕ := 4 + fdtTagalign (k.bytes.length + 1) + fdtTagsize

namespace Loaded

variable (h : Loaded m fdt l)

include h

/-- **An empty node** between items. -/
theorem exists_insertNode (k : CStr) (hi : l.HasItems (is ++ rest))
    (hroom : nodeRoom k ≤ l.free.length) :
    ∃ m₁ l' pad, fdtSpliceStruct m fdt (fdt + l.offDtStruct + (itemsBytes is).length) 0
        (nodeRoom k : ℕ) = (0, m₁) ∧
      Edited fdt m l (Mem.st32 (Memory.write (Memory.write
        (m₁.st32 (fdt + l.offDtStruct + (itemsBytes is).length) fdtBeginNode)
        (fdt + l.offDtStruct + (itemsBytes is).length + 4)
          (List.replicate (fdtTagalign (k.bytes.length + 1)) 0#8))
            (fdt + l.offDtStruct + (itemsBytes is).length + 4) k.bytes)
              (fdt + l.offDtStruct + (itemsBytes is).length +
                (4 + fdtTagalign (k.bytes.length + 1))) fdtEndNode) l' ∧
        l.free.length ≤ l'.free.length + nodeRoom k ∧
        l'.HasItems (is ++ .beginNode k pad :: .endNode :: rest) ∧ l'.strings = l.strings := by
  have hs : l.structs = itemsBytes is ++ ([] ++ (itemsBytes rest ++ be32 fdtEnd)) := by
    rw [hi.structs, itemsBytes_append, List.nil_append, List.append_assoc]
  obtain ⟨hole, free, m₁, hhole, -, hsplice, hedit⟩ := h.exists_spliceStruct hs (n := nodeRoom k)
    (Nat.le_trans hroom (Nat.le_add_left _ _))
  have hle := le_fdtTagalign (k.bytes.length + 1)
  -- the tag, the name with its padding, and the tag of the end
  obtain ⟨t, hole, rfl, ht, hhole⟩ := exists_append_of_length (a := 4)
    (b := fdtTagalign (k.bytes.length + 1) + 4) (by rw [hhole, nodeRoom, fdtTagsize]; omega)
  obtain ⟨u, v, rfl, hu, hv⟩ := exists_append_of_length hhole
  have hoff := hedit.offDtStruct
  have htag := hedit.loaded.store_structs (a := itemsBytes is) (b := t) (d := be32 fdtBeginNode)
    (c := u ++ (v ++ (itemsBytes rest ++ be32 fdtEnd)))
    (p := fdt + l.offDtStruct + (itemsBytes is).length) (by simp only [List.append_assoc]) ht.symm
    (by rw [hoff])
  have hpad := htag.loaded.store_structs (a := itemsBytes is ++ be32 fdtBeginNode) (b := u)
    (d := List.replicate (fdtTagalign (k.bytes.length + 1)) 0#8)
    (c := v ++ (itemsBytes rest ++ be32 fdtEnd))
    (p := fdt + l.offDtStruct + (itemsBytes is).length + 4) (by simp only [List.append_assoc])
    (by rw [List.length_replicate, hu])
    (by rw [htag.offDtStruct, hoff, List.length_append, length_be32]; omega)
  -- the padding after the name: its first byte is the NUL
  obtain ⟨z, hz, hlenz⟩ : ∃ z, List.replicate (fdtTagalign (k.bytes.length + 1)) 0#8
      = List.replicate k.bytes.length 0#8 ++ ([0#8] ++ z) ∧
        z.length = fdtTagalign (k.bytes.length + 1) - (k.bytes.length + 1) := by
    refine ⟨List.replicate (fdtTagalign (k.bytes.length + 1) - (k.bytes.length + 1)) 0#8, ?_,
      List.length_replicate⟩
    rw [← List.replicate_one, List.replicate_append_replicate, List.replicate_append_replicate]
    congr 1
    omega
  have hname := hpad.loaded.store_structs (a := itemsBytes is ++ be32 fdtBeginNode)
    (b := List.replicate k.bytes.length 0#8) (d := k.bytes)
    (c := [0#8] ++ (z ++ (v ++ (itemsBytes rest ++ be32 fdtEnd))))
    (p := fdt + l.offDtStruct + (itemsBytes is).length + 4)
    (by rw [hz]; simp only [List.append_assoc]) List.length_replicate.symm
    (by rw [hpad.offDtStruct, htag.offDtStruct, hoff, List.length_append, length_be32]; omega)
  have hend := hname.loaded.store_structs
    (a := itemsBytes is ++ (be32 fdtBeginNode ++ (k.bytes ++ ([0#8] ++ z))))
    (b := v) (d := be32 fdtEndNode) (c := itemsBytes rest ++ be32 fdtEnd)
    (p := fdt + l.offDtStruct + (itemsBytes is).length + (4 + fdtTagalign (k.bytes.length + 1)))
    (by simp only [List.append_assoc]) hv.symm
    (by
      rw [hname.offDtStruct, hpad.offDtStruct, htag.offDtStruct, hoff]
      simp only [List.length_append, length_be32, hlenz, List.length_cons, List.length_nil]
      omega)
  have hall := (((hedit.trans htag).trans hpad).trans hname).trans hend
  refine ⟨m₁, _, z, hsplice, hall, hall.free_le ?_, ⟨?_, ?_⟩, rfl⟩
  · simp only [hs, List.length_append, length_be32, hlenz, List.length_cons, List.length_nil,
      nodeRoom, fdtTagsize]
    omega
  · rw [itemsBytes_append, itemsBytes_cons, itemsBytes_cons]
    simp only [Item.bytes, Item.tag, Item.body, Item.pad, CStr.obj, List.append_assoc,
      List.append_nil]
  · have hnode : (Item.beginNode k z).Padded := by
      rw [Item.Padded, Item.body, Item.pad, hlenz, k.length_obj]
      omega
    intro i hmem
    rcases List.mem_append.mp hmem with hmem | hmem
    · exact hi.padded i (List.mem_append_left _ hmem)
    · rcases List.mem_cons.mp hmem with rfl | hmem
      · exact hnode
      · rcases List.mem_cons.mp hmem with rfl | hmem
        · rfl
        · exact hi.padded i (List.mem_append_right _ hmem)

theorem skipProperties_eq (his : ∀ i ∈ is, i.tag = fdtProp ∨ i.tag = fdtNop)
    (hi : l.HasItems (pre ++ (is ++ i :: post))) (htag : i.tag = fdtBeginNode ∨ i.tag = fdtEndNode)
    (hn : is.length < n) :
    skipProperties m fdt n (offset pre) = .ok (offset (pre ++ is)) := by
  induction is generalizing pre n with
  | nil =>
    obtain ⟨n, rfl⟩ : ∃ j, n = j + 1 := ⟨n - 1, by omega⟩
    have hstop : ¬ (i.tag = fdtProp ∨ i.tag = fdtNop) := by
      rcases htag with h | h <;> rw [h] <;> decide
    rw [skipProperties, h.nextTag_eq hi, ok_bind]
    dsimp only
    rw [if_neg hstop, pure_eq, List.append_nil]
  | cons j is ih =>
    obtain ⟨n, rfl⟩ : ∃ j, n = j + 1 := ⟨n - 1, by omega⟩
    obtain ⟨hj, his⟩ := List.forall_mem_cons.mp his
    rw [List.cons_append] at hi
    rw [skipProperties, h.nextTag_eq hi, ok_bind]
    dsimp only
    rw [if_pos hj, ih his (List.append_cons .. ▸ hi) (by simpa using hn), ← List.append_cons]

/-- **`fdt_add_subnode`** puts an empty node behind the properties of the parent. -/
theorem exists_addSubnode {npad : List Byte} {ps : List Property} {t : Token}
    (hi : l.HasItems (pre ++ .beginNode name npad :: post))
    (hd : Denotes l.strings post (ps.map Token.prop ++ t :: us)) (ht : ∀ x, t ≠ .prop x)
    (hnot : fdtSubnodeOffsetNamelen m fdt (offset pre) k.obj k.bytes.length
      = .ok FdtErr.notfound.code)
    (hn : nodeRoom k < 0x80000000) :
    ∃ r m', fdtAddSubnode m fdt (offset pre) k.obj = .ok (r, m') ∧
      EditEnd fdt m l (nodeRoom k) (fun r l' => ∃ is rest pad,
        r = offset (pre ++ .beginNode name npad :: is) ∧
        l'.HasItems (pre ++ .beginNode name npad :: (is ++ .beginNode k pad :: .endNode :: rest)) ∧
          Denotes l'.strings is (ps.map Token.prop) ∧ Denotes l'.strings rest (t :: us)) r m' := by
  obtain ⟨is, i, rest, rfl, his, hnext, hrest⟩ := hd.exists_split
  have htotal := hi.length_lt
  simp only [List.length_cons, List.length_append] at htotal
  have hi' : l.HasItems ((pre ++ .beginNode name npad :: is) ++ i :: rest) := by
    rwa [List.append_assoc, List.cons_append]
  have hbegin : l.HasItems ((pre ++ [.beginNode name npad]) ++ (is ++ i :: rest)) :=
    List.append_cons .. ▸ hi
  have hskip := h.skipProperties_eq (n := fdtTotalsize m fdt + 1) his.tag_of_props hbegin
    (hnext.tag_eq ht) (by rw [h.totalsize_eq]; omega)
  rw [← List.append_cons] at hskip
  have hnode : (Item.beginNode name npad).tag = fdtBeginNode := rfl
  have hlast (p q : ℕ) : p + (q + fdtTagsize) - fdtTagsize = p + q := by
    rw [← Nat.add_assoc, Nat.add_sub_cancel]
  have hsize : 4 + fdtTagalign (k.bytes.length + 1) + fdtTagsize = nodeRoom k := rfl
  rw [fdtAddSubnode, k.fetch_strlen, ok_bind, fdtAddSubnodeNamelen, h.rwProbe_eq]
  simp only
  rw [hnot, ok_bind, if_neg (by decide), if_neg (not_not.mpr rfl), h.nextTag_eq hi, ok_bind]
  simp only
  rw [if_neg (not_not.mpr hnode), hskip, ok_bind, h.offsetPtrRaw_offset, hsize]
  rcases Nat.lt_or_ge l.free.length (nodeRoom k) with hroom | hroom
  · rw [h.insert_nospace hi' hroom hn]
    exact ⟨_, m, rfl, .nospace l h.edited_refl hroom rfl rfl rfl⟩
  · obtain ⟨m₁, l', pad, hsplice, hedit, hfree, hitems, hstrings⟩ := h.exists_insertNode k hi' hroom
    have hstore := memcpyFrom_eq (m := Memory.write
      (m₁.st32 (fdt + l.offDtStruct + (itemsBytes (pre ++ .beginNode name npad :: is)).length)
        fdtBeginNode)
      (fdt + l.offDtStruct + (itemsBytes (pre ++ .beginNode name npad :: is)).length + 4)
      (List.replicate (fdtTagalign (k.bytes.length + 1)) 0#8))
      (d := fdt + l.offDtStruct + (itemsBytes (pre ++ .beginNode name npad :: is)).length + 4)
      (n := k.bytes.length) (b := k.obj) (by rw [k.length_obj]; omega)
    rw [List.append_assoc, List.cons_append] at hitems
    rw [hsplice]
    simp only
    rw [Mem.memset_eq, hstore, k.take_obj, ok_bind, pure_eq, ← hsize, hlast]
    exact ⟨_, _, rfl, .done l' hedit hfree (offset_nonneg _)
      ⟨is, i :: rest, pad, rfl, hitems, hstrings ▸ his, hstrings ▸ hnext.append hrest⟩⟩

/-! ## Names -/

/-- **`fdt_set_name`** writes another name in the place of the old one. -/
theorem exists_setName {npad : List Byte} (hi : l.HasItems (pre ++ .beginNode name npad :: post))
    (hn : fdtTagalign (k.bytes.length + 1) < 0x80000000) :
    ∃ r m', fdtSetName m fdt (offset pre) k.obj = .ok (r, m') ∧
      EditEnd fdt m l (fdtTagalign (k.bytes.length + 1)) (fun r l' => r = 0 ∧
        ∃ pad, l'.HasItems (pre ++ .beginNode k pad :: post) ∧ l'.strings = l.strings) r m' := by
  have hsizes := h.sizes
  have hlen := hi.length_structs
  have hpadded := hi.padded (.beginNode name npad) (by simp)
  have hbytes := hpadded.length_bytes
  rw [Item.Padded, Item.body, Item.pad, ← List.length_append, name.length_obj] at hpadded
  rw [Item.body, name.length_obj] at hbytes
  have hle := le_fdtTagalign (name.bytes.length + 1)
  have hold : uint ((name.bytes.length : ℕ) + 1) = name.bytes.length + 1 :=
    uint_eq (by push_cast; rfl) (by omega)
  have hs : l.structs = (itemsBytes pre ++ be32 fdtBeginNode) ++
      ((name.obj ++ npad) ++ (itemsBytes post ++ be32 fdtEnd)) := by
    rw [hi.structs, itemsBytes_append, itemsBytes_cons]
    simp only [Item.bytes, Item.tag, Item.body, Item.pad, List.append_assoc]
  have hp : fdt + l.offDtStruct + (itemsBytes pre).length + 4
      = fdt + l.offDtStruct + (itemsBytes pre ++ be32 fdtBeginNode).length := by
    rw [List.length_append, length_be32]
    omega
  rw [fdtSetName, h.rwProbe_eq]
  simp only
  rw [h.getName_eq hi, ok_bind]
  simp only [k.fetch_strlen, ok_bind, hold, hp, ← hpadded]
  rcases Nat.lt_or_ge ((name.obj ++ npad).length + l.free.length)
    (fdtTagalign (k.bytes.length + 1)) with hroom | hroom
  · rw [h.spliceStruct_nospace rfl hs hroom hn]
    exact ⟨_, m, rfl, .nospace l h.edited_refl (by omega) rfl rfl rfl⟩
  · obtain ⟨hole, free, m₁, hhole, -, hsplice, hedit⟩ := h.exists_spliceStruct hs hroom
    obtain ⟨u, w, rfl, hu, hw⟩ := exists_append_of_length (a := k.obj.length)
      (b := fdtTagalign (k.bytes.length + 1) - (k.bytes.length + 1)) (v := hole)
      (by rw [hhole, k.length_obj]; have := le_fdtTagalign (k.bytes.length + 1); omega)
    have hstore := hedit.loaded.store_structs (a := itemsBytes pre ++ be32 fdtBeginNode) (b := u)
      (d := k.obj) (c := w ++ (itemsBytes post ++ be32 fdtEnd))
      (p := fdt + l.offDtStruct + (itemsBytes pre ++ be32 fdtBeginNode).length)
      (by simp only [List.append_assoc]) hu.symm (by rw [hedit.offDtStruct])
    have hcopy := memcpyFrom_eq (m := m₁)
      (d := fdt + l.offDtStruct + (itemsBytes pre ++ be32 fdtBeginNode).length)
      (n := k.bytes.length + 1) (b := k.obj) k.length_obj.ge
    rw [List.take_of_length_le k.length_obj.le] at hcopy
    have hall := hedit.trans hstore
    rw [hsplice]
    simp only [hcopy, ok_bind, pure_eq]
    refine ⟨0, _, rfl, .done _ hall (hall.free_le ?_) (le_refl 0) ⟨rfl, w, ⟨?_, ?_⟩, rfl⟩⟩
    · rw [List.length_append, hu] at hhole
      simp only [hs, List.length_append, length_be32] at hpadded ⊢
      omega
    · rw [itemsBytes_append, itemsBytes_cons]
      simp only [Item.bytes, Item.tag, Item.body, Item.pad, List.append_assoc]
    · have hnode : (Item.beginNode k w).Padded := by
        have hle := le_fdtTagalign (k.bytes.length + 1)
        rw [Item.Padded, Item.body, Item.pad, hw, k.length_obj]
        omega
      intro i hmem
      rcases List.mem_append.mp hmem with hmem | hmem
      · exact hi.padded i (List.mem_append_left _ hmem)
      · rcases List.mem_cons.mp hmem with rfl | hmem
        · exact hnode
        · exact hi.padded i (List.mem_append_right _ (List.mem_cons_of_mem _ hmem))

end Loaded

end LittleLoader
