import LittleLoader.Dtb.Splice

/-!
# Dtb/Edit — properties in place

    fdt_setprop:   pre ┆ node ┆ properties ┆ …   ──▸   pre ┆ node ┆ assign k v properties ┆ …

An edit keeps the items in front of it and behind it, and the names of properties, whose strings
stay where they are.  Where there is not enough free space for it, the blocks are left as they were
(`EditEnd`); a name that was added to the strings is taken away again.
-/

namespace LittleLoader

open Memory Mem

variable {m m' : Mem} {fdt n x : ℕ} {l l' : Layout} {pre post is rest : List Item} {i : Item}
  {strings s v w hole : List Byte} {ts us : List Token} {k name : CStr} {off : ℕ} {r : ℤ}

/-! ## Outcomes -/

/-- **The end of an edit** that needs `n` bytes at most: it is done, or they are not free, and then
the blocks are as they were. -/
inductive EditEnd (fdt : ℕ) (m : Mem) (l : Layout) (n : ℕ) (P : ℤ → Layout → Prop) (r : ℤ)
    (m' : Mem) : Prop
  | done (l' : Layout) (hedit : Edited fdt m l m' l') (hfree : l.free.length ≤ l'.free.length + n)
      (hr : 0 ≤ r) (h : P r l')
  | nospace (l' : Layout) (hedit : Edited fdt m l m' l') (hroom : l.free.length < n)
      (hr : r = FdtErr.nospace.code) (hstructs : l'.structs = l.structs)
      (hstrings : l'.strings = l.strings)

theorem EditEnd.imp {P Q : ℤ → Layout → Prop} (h : EditEnd fdt m l n P r m')
    (himp : ∀ l', Edited fdt m l m' l' → P r l' → Q r l') : EditEnd fdt m l n Q r m' := by
  cases h with
  | done l' hedit hfree hr h => exact .done l' hedit hfree hr (himp l' hedit h)
  | nospace l' hedit hroom hr hstructs hstrings =>
    exact .nospace l' hedit hroom hr hstructs hstrings

/-- The growth of the blocks is what the free space loses. -/
theorem Edited.free_le (h : Edited fdt m l m' l')
    (hle : l'.structs.length + l'.strings.length ≤ l.structs.length + l.strings.length + n) :
    l.free.length ≤ l'.free.length + n := by
  have hlen := h.length_free
  omega

/-! ## Strings -/

/-- The loop over the string table: where it stops, the string is. -/
theorem exists_findStringLoop {e : ℤ} {p : ℕ} (hn : n ≤ s.length) (hfuel : e < p + x) :
    ∃ r, findStringLoop m e s n (x + 1) p = .ok r ∧
      ∀ q, r = some q → p ≤ q ∧ (q : ℤ) ≤ e ∧ m.read q n = s.take n := by
  induction x generalizing p with
  | zero =>
    refine ⟨none, ?_, fun q hq => nomatch hq⟩
    rw [findStringLoop, if_pos (by simpa using hfuel), pure_eq]
  | succ x ih =>
    rw [findStringLoop]
    by_cases he : (p : ℤ) > e
    · exact ⟨none, by rw [if_pos he, pure_eq], fun q hq => nomatch hq⟩
    · obtain ⟨d, hd, hzero⟩ := exists_memcmp (m := m) (p := p) hn
      rw [if_neg he, hd, ok_bind]
      by_cases hmatch : d = 0
      · refine ⟨some p, by rw [if_pos hmatch, pure_eq], ?_⟩
        rintro q ⟨⟩
        exact ⟨Nat.le_refl _, not_lt.mp he, hzero.mp hmatch⟩
      · obtain ⟨r, hr, hfound⟩ := ih (p := p + 1) (by push_cast at hfuel ⊢; omega)
        refine ⟨r, by rw [if_neg hmatch, hr], fun q hq => ?_⟩
        obtain ⟨hle, hrest⟩ := hfound q hq
        exact ⟨Nat.le_of_succ_le hle, hrest⟩

namespace Loaded

variable (h : Loaded m fdt l)

include h

theorem spliceString_eq (hroom : n ≤ l.free.length) :
    fdtSpliceString m fdt n = (0, m.st32 (fdt + 32) (l.strings.length + n)) := by
  have hsizes := h.sizes
  have htotal : l.totalsize = l.offDtStrings + l.strings.length + l.free.length := rfl
  have hgrow : uint (((l.offDtStrings + l.strings.length : ℕ) : ℤ) + (n : ℕ))
      = l.offDtStrings + l.strings.length + n := uint_eq (by omega) (by omega)
  have hnew : uint (((l.offDtStrings + l.strings.length : ℕ) : ℤ) - 0 + (n : ℕ))
      = l.offDtStrings + l.strings.length + n := uint_eq (by omega) (by omega)
  have hzero : uint 0 = 0 := uint_eq (n := 0) rfl (by omega)
  have hsize : uint ((l.strings.length : ℤ) + (n : ℕ)) = l.strings.length + n :=
    uint_eq (by omega) (by omega)
  have hcount : fdt + (l.offDtStrings + l.strings.length) -
      (((fdt + l.offDtStrings + l.strings.length : ℕ) : ℤ) + 0).toNat = 0 := by omega
  have hsplice : fdtSplice m fdt (fdt + l.offDtStrings + l.strings.length) 0 n = (0, m) := by
    simp only [fdtSplice, h.dataSize_eq, h.totalsize_eq, hgrow, hnew, hzero]
    rw [if_neg (by omega), if_neg (by omega), if_neg (by omega), hcount, memmove_eq, read_zero,
      write_nil]
  simp only [fdtSpliceString, h.offDtStrings_eq, h.sizeDtStrings_eq, hsplice, hsize]

theorem spliceString_nospace (hroom : l.free.length < n) (hn : n < 0x80000000) :
    fdtSpliceString m fdt n = (FdtErr.nospace.code, m) := by
  have hsizes := h.sizes
  have htotal : l.totalsize = l.offDtStrings + l.strings.length + l.free.length := rfl
  have hgrow : uint (((l.offDtStrings + l.strings.length : ℕ) : ℤ) + (n : ℕ))
      = l.offDtStrings + l.strings.length + n := uint_eq (by omega) (by omega)
  have hnew : uint (((l.offDtStrings + l.strings.length : ℕ) : ℤ) - 0 + (n : ℕ))
      = l.offDtStrings + l.strings.length + n := uint_eq (by omega) (by omega)
  have hzero : uint 0 = 0 := uint_eq (n := 0) rfl (by omega)
  have hsplice : fdtSplice m fdt (fdt + l.offDtStrings + l.strings.length) 0 n
      = (FdtErr.nospace.code, m) := by
    simp only [fdtSplice, h.dataSize_eq, h.totalsize_eq, hgrow, hnew, hzero]
    rw [if_neg (by omega), if_neg (by omega), if_pos (by omega)]
  simp only [fdtSpliceString, h.offDtStrings_eq, h.sizeDtStrings_eq, hsplice, FdtErr.code]

/-- What is in the string table at an address. -/
theorem prefix_of_read (hoff : off + v.length ≤ l.strings.length)
    (hread : m.read (fdt + l.offDtStrings + off) v.length = v) : v <+: l.strings.drop off := by
  have hall := h.strings
  rw [← List.take_append_drop off l.strings] at hall
  have hright := hall.right
  rw [List.length_take_of_le (by omega)] at hright
  rw [hright.read_take (by rw [List.length_drop]; omega)] at hread
  exact hread ▸ List.take_prefix _ _

/-- **`fdt_find_add_string_`**: the string is in the table, or it is added, or there is no room. -/
theorem findAddString_cases (hk : k.obj.length < 0x80000000) :
    (∃ off : ℕ, fdtFindAddString m fdt k.obj = .ok ((off : ℕ), false, m) ∧
      k.obj <+: l.strings.drop off) ∨
    (∃ m', fdtFindAddString m fdt k.obj = .ok ((l.strings.length : ℕ), true, m') ∧
      k.obj.length ≤ l.free.length ∧ Edited fdt m l m'
        { l with strings := l.strings ++ k.obj, free := l.free.drop k.obj.length }) ∨
    (fdtFindAddString m fdt k.obj = .ok (FdtErr.nospace.code, false, m) ∧
      l.free.length < k.obj.length) := by
  have hsizes := h.sizes
  have hlen := k.length_obj
  obtain ⟨r, hr, hfound⟩ := exists_findStringLoop (m := m) (s := k.obj) (n := k.bytes.length + 1)
    (x := l.strings.length) (p := fdt + l.offDtStrings)
    (e := ((fdt + l.offDtStrings : ℕ) : ℤ) + l.strings.length - (k.bytes.length + 1 : ℕ))
    (by omega) (by omega)
  rw [fdtFindAddString, h.offDtStrings_eq, h.sizeDtStrings_eq, fdtFindString, k.fetch_strlen,
    int_eq (n := l.strings.length) rfl (by omega)]
  simp only [ok_bind, hr]
  cases r with
  | some q =>
    obtain ⟨hle, hlast, hread⟩ := hfound q rfl
    obtain ⟨off, rfl⟩ := Nat.exists_eq_add_of_le hle
    rw [← hlen, List.take_length] at hread
    have hoff : ((fdt + l.offDtStrings + off : ℕ) : ℤ) - ((fdt + l.offDtStrings : ℕ) : ℤ)
        = off := by omega
    refine .inl ⟨off, ?_, h.prefix_of_read (by omega) hread⟩
    simp only [hoff, pure_eq]
  | none =>
    right
    have hoff : ((fdt + l.offDtStrings + l.strings.length : ℕ) : ℤ) -
        ((fdt + l.offDtStrings : ℕ) : ℤ) = l.strings.length := by omega
    rcases Nat.lt_or_ge l.free.length k.obj.length with hroom | hroom
    · refine .inr ⟨?_, hroom⟩
      simp only [← hlen, h.spliceString_nospace hroom hk, FdtErr.code, pure_eq]
    · refine .inl ⟨_, ?_, hroom, h.appendString k.obj hroom⟩
      have hstore := memcpyFrom_eq (m := m.st32 (fdt + 32) (l.strings.length + k.obj.length))
        (d := fdt + l.offDtStrings + l.strings.length) (b := k.obj) (Nat.le_refl _)
      rw [List.take_length] at hstore
      simp only [h.spliceString_eq hroom, ← hlen, hstore, ok_bind, hoff, pure_eq]

/-- **The string that was added is taken away again.** -/
theorem exists_delLastString {f : List Byte}
    (hedit : Edited fdt m l m' { l with strings := l.strings ++ k.obj, free := f }) :
    ∃ m'', fdtDelLastString m' fdt k.obj = .ok m'' ∧
      Edited fdt m l m'' { l with free := k.obj ++ f } := by
  have hsizes := hedit.loaded.sizes
  have htotal := h.sizes
  have hlen := hedit.length_free
  simp only [List.length_append] at hsizes hlen
  have hsize : uint ((l.strings.length + k.obj.length : ℕ) - (k.bytes.length + 1 : ℕ))
      = l.strings.length := by
    have hobj := k.length_obj
    exact uint_eq (by omega) (by omega)
  have hheader : Layout.header { l with free := k.obj ++ f } =
      (Layout.header { l with strings := l.strings ++ k.obj, free := f }).set 8 l.strings.length := by
    simp only [Layout.header, Layout.totalsize, Layout.offDtStrings, Layout.offDtStruct,
      List.set_cons_succ, List.set_cons_zero, List.length_append, Nat.add_assoc]
  have hhas := hedit.loaded.has
  rw [Layout.bytes_of_free] at hhas
  have hset := has_setWord (k := 8) (x := l.strings.length) hhas (by simp)
  refine ⟨m'.st32 (fdt + 32) l.strings.length, ?_, ?_⟩
  · rw [fdtDelLastString, k.fetch_strlen, ok_bind, hedit.loaded.sizeDtStrings_eq,
      List.length_append]
    simp only [hsize, pure_eq]
  · refine h.edited_of_has (by rw [List.length_append]; omega) List.prefix_rfl
      (hedit.same.trans (SameOutside.write _ (by omega) (by rw [length_be32]; omega))) ?_
    rw [Layout.bytes_of_free, hheader]
    simpa only [List.append_assoc] using hset

end Loaded

/-! ## The value of a property -/

theorem exists_append_of_length {a b : ℕ} (h : v.length = a + b) :
    ∃ u w, v = u ++ w ∧ u.length = a ∧ w.length = b :=
  ⟨v.take a, v.drop a, (List.take_append_drop a v).symm, List.length_take_of_le (by omega),
    by rw [List.length_drop]; omega⟩

/-- The structure block consists of items, and of a property between them whose value is of length
`n` and begins in the hole. -/
structure Layout.HasHole (l : Layout) (is rest : List Item) (off n : ℕ) (hole : List Byte) :
    Prop where
  length : hole.length = fdtTagalign n
  structs : l.structs = itemsBytes is ++
    (be32 fdtProp ++ (be32 n ++ (be32 off ++ (hole ++ (itemsBytes rest ++ be32 fdtEnd)))))
  padded : ∀ i ∈ is ++ rest, i.Padded

/-- What a property between the items takes. -/
theorem Layout.HasHole.length_eq (hh : l.HasHole is rest off n hole) :
    l.structs.length = (itemsBytes is).length + (itemsBytes rest).length + 4 +
      (sizeofProperty + fdtTagalign n) := by
  rw [hh.structs]
  simp only [List.length_append, length_be32, hh.length, sizeofProperty]
  omega

theorem Layout.HasHole.length_structs (hh : l'.HasHole is rest off n hole)
    (hi : l.HasItems (is ++ rest)) :
    l'.structs.length = l.structs.length + (sizeofProperty + fdtTagalign n) := by
  rw [hh.length_eq, hi.structs, itemsBytes_append]
  simp only [List.length_append, length_be32]

/-- The hole is filled: what is behind the value is its padding. -/
theorem Layout.HasHole.items (hh : l.HasHole is rest off n (v ++ w)) (hv : v.length = n) :
    l.HasItems (is ++ .prop off v w :: rest) := by
  obtain ⟨hlen, hs, hpadded⟩ := hh
  subst hv
  refine ⟨?_, fun i hmem => ?_⟩
  · rw [hs, itemsBytes_append, itemsBytes_cons]
    simp only [Item.bytes, Item.tag, Item.body, Item.pad, List.append_assoc]
  · rcases List.mem_append.mp hmem with hmem | hmem
    · exact hpadded i (List.mem_append_left _ hmem)
    rcases List.mem_cons.mp hmem with rfl | hmem
    · have hbody : (Item.prop off v w).body.length = 8 + v.length := by
        simp only [Item.body, List.length_append, length_be32]
      rw [List.length_append] at hlen
      rw [Item.Padded, hbody, fdtTagalign_add (by decide), Item.pad]
      omega
    · exact hpadded i (List.mem_append_right _ hmem)

namespace Loaded

variable (h : Loaded m fdt l)

include h

/-- A store into the structure block, by its address. -/
theorem store_structs {a b c d : List Byte} {p : ℕ} (hs : l.structs = a ++ (b ++ c))
    (hlen : d.length = b.length) (hp : p = fdt + l.offDtStruct + a.length) :
    Edited fdt m l (m.write p d) { l with structs := a ++ (d ++ c) } :=
  hp ▸ h.write_structs hs hlen

/-- **A part of the hole is overwritten.** -/
theorem exists_fill {u b d : List Byte} (hh : l.HasHole is rest off n (u ++ (b ++ w)))
    (hlen : d.length = b.length) :
    ∃ l', Edited fdt m l (m.write (fdt + l.offDtStruct + (itemsBytes is).length + sizeofProperty +
        u.length) d) l' ∧
      l'.HasHole is rest off n (u ++ (d ++ w)) ∧ l'.strings = l.strings := by
  obtain ⟨hhole, hs, hpadded⟩ := hh
  have hstore := h.store_structs
    (a := itemsBytes is ++ (be32 fdtProp ++ (be32 n ++ (be32 off ++ u)))) (b := b) (d := d)
    (c := w ++ (itemsBytes rest ++ be32 fdtEnd))
    (p := fdt + l.offDtStruct + (itemsBytes is).length + sizeofProperty + u.length)
    (by simp only [hs, List.append_assoc]) hlen
    (by simp only [List.length_append, length_be32, sizeofProperty]; omega)
  refine ⟨_, hstore, ⟨?_, ?_, hpadded⟩, rfl⟩
  · simpa only [List.length_append, hlen] using hhole
  · simp only [List.append_assoc]

/-- The bytes of a property, by its place. -/
theorem structs_of_prop {old pad : List Byte}
    (hi : l.HasItems (is ++ .prop off old pad :: rest)) :
    l.structs = (itemsBytes is ++ (be32 fdtProp ++ (be32 old.length ++ be32 off))) ++
        ((old ++ pad) ++ (itemsBytes rest ++ be32 fdtEnd)) ∧
      (old ++ pad).length = fdtTagalign old.length ∧ old.length < 0x80000000 := by
  have hsizes := h.sizes
  have hlen := hi.length_structs
  have hpadded : (Item.prop off old pad).Padded :=
    hi.padded _ (List.mem_append_right _ List.mem_cons_self)
  have hbody : (Item.prop off old pad).body.length = 8 + old.length := by
    simp only [Item.body, List.length_append, length_be32]
  have hbytes := hpadded.length_bytes
  have hle := le_fdtTagalign old.length
  rw [hbody, fdtTagalign_add (by decide)] at hbytes
  rw [Item.Padded, hbody, fdtTagalign_add (by decide), Item.pad] at hpadded
  refine ⟨?_, by rw [List.length_append]; omega, by omega⟩
  rw [hi.structs, itemsBytes_append, itemsBytes_cons]
  simp only [Item.bytes, Item.tag, Item.body, Item.pad, List.append_assoc]

/-- **A property with another length**: its value is a hole that begins with what was there. -/
theorem exists_resize {old pad : List Byte} (hi : l.HasItems (is ++ .prop off old pad :: rest))
    (hroom : fdtTagalign n ≤ fdtTagalign old.length + l.free.length) :
    ∃ m₁ l' hole, fdtSpliceStruct m fdt
        (fdt + l.offDtStruct + (itemsBytes is).length + sizeofProperty)
        (fdtTagalign (uint (old.length : ℕ)) : ℕ) (fdtTagalign n : ℕ) = (0, m₁) ∧
      Edited fdt m l (m₁.st32 (fdt + l.offDtStruct + (itemsBytes is).length + 4) n) l' ∧
        l'.HasHole is rest off n hole ∧ l'.strings = l.strings ∧
          (old ++ pad).take (fdtTagalign n) <+: hole := by
  obtain ⟨hs, hpad, hlt⟩ := h.structs_of_prop hi
  have hold : uint (old.length : ℕ) = old.length := uint_eq rfl (by omega)
  obtain ⟨hole, free, m₁, hhole, hprefix, hsplice, hedit⟩ :=
    h.exists_spliceStruct (n := fdtTagalign n) hs (by rwa [hpad])
  have ha : fdt + l.offDtStruct +
      (itemsBytes is ++ (be32 fdtProp ++ (be32 old.length ++ be32 off))).length
        = fdt + l.offDtStruct + (itemsBytes is).length + sizeofProperty := by
    simp only [List.length_append, length_be32, sizeofProperty]
    omega
  rw [ha, hpad] at hsplice
  have hstore := hedit.loaded.store_structs (a := itemsBytes is ++ be32 fdtProp)
    (b := be32 old.length) (d := be32 n)
    (c := be32 off ++ (hole ++ (itemsBytes rest ++ be32 fdtEnd)))
    (p := fdt + l.offDtStruct + (itemsBytes is).length + 4)
    (by simp only [List.append_assoc]) rfl
    (by rw [hedit.offDtStruct, List.length_append, length_be32]; omega)
  refine ⟨m₁, _, hole, by rw [hold]; exact hsplice, hedit.trans hstore, ⟨hhole, ?_, ?_⟩, rfl,
    hprefix⟩
  · simp only [List.append_assoc]
  · intro i hmem
    rcases List.mem_append.mp hmem with hmem | hmem
    · exact hi.padded i (List.mem_append_left _ hmem)
    · exact hi.padded i (List.mem_append_right _ (List.mem_cons_of_mem _ hmem))

theorem resize_nospace {old pad : List Byte} (hi : l.HasItems (is ++ .prop off old pad :: rest))
    (hroom : fdtTagalign old.length + l.free.length < fdtTagalign n)
    (hn : fdtTagalign n < 0x80000000) :
    fdtSpliceStruct m fdt (fdt + l.offDtStruct + (itemsBytes is).length + sizeofProperty)
      (fdtTagalign (uint (old.length : ℕ)) : ℕ) (fdtTagalign n : ℕ) = (FdtErr.nospace.code, m) := by
  obtain ⟨hs, hpad, hlt⟩ := h.structs_of_prop hi
  have hold : uint (old.length : ℕ) = old.length := uint_eq rfl (by omega)
  rw [hold, ← hpad]
  refine h.spliceStruct_nospace ?_ hs (by rwa [hpad]) hn
  simp only [List.length_append, length_be32, sizeofProperty]
  omega

/-- **A new property** between items: its value is a hole. -/
theorem exists_insert (off : ℕ) (hi : l.HasItems (is ++ rest))
    (hroom : sizeofProperty + fdtTagalign n ≤ l.free.length) :
    ∃ m₁ l' hole, fdtSpliceStruct m fdt (fdt + l.offDtStruct + (itemsBytes is).length) 0
        (sizeofProperty + fdtTagalign n : ℕ) = (0, m₁) ∧
      Edited fdt m l (((m₁.st32 (fdt + l.offDtStruct + (itemsBytes is).length) fdtProp).st32
        (fdt + l.offDtStruct + (itemsBytes is).length + 8) off).st32
          (fdt + l.offDtStruct + (itemsBytes is).length + 4) n) l' ∧
        l'.HasHole is rest off n hole ∧ l'.strings = l.strings := by
  have hs : l.structs = itemsBytes is ++ ([] ++ (itemsBytes rest ++ be32 fdtEnd)) := by
    rw [hi.structs, itemsBytes_append, List.nil_append, List.append_assoc]
  obtain ⟨hole, free, m₁, hhole, -, hsplice, hedit⟩ := h.exists_spliceStruct hs
    (n := sizeofProperty + fdtTagalign n) (Nat.le_trans hroom (Nat.le_add_left _ _))
  -- the tag, the length, the name and the value
  obtain ⟨t, hole, rfl, ht, hhole⟩ := exists_append_of_length (a := 4) (b := 8 + fdtTagalign n)
    (by rw [hhole, sizeofProperty]; omega)
  obtain ⟨u, hole, rfl, hu, hhole⟩ := exists_append_of_length (a := 4) (b := 4 + fdtTagalign n)
    (by rw [hhole]; omega)
  obtain ⟨v, w, rfl, hv, hw⟩ := exists_append_of_length hhole
  have hoff := hedit.offDtStruct
  have htag := hedit.loaded.store_structs (a := itemsBytes is) (b := t) (d := be32 fdtProp)
    (c := u ++ (v ++ (w ++ (itemsBytes rest ++ be32 fdtEnd))))
    (p := fdt + l.offDtStruct + (itemsBytes is).length) (by simp only [List.append_assoc]) ht.symm
    (by rw [hoff])
  have hname := htag.loaded.store_structs (a := itemsBytes is ++ (be32 fdtProp ++ u)) (b := v)
    (d := be32 off) (c := w ++ (itemsBytes rest ++ be32 fdtEnd))
    (p := fdt + l.offDtStruct + (itemsBytes is).length + 8) (by simp only [List.append_assoc])
    hv.symm
    (by rw [htag.offDtStruct, hoff, List.length_append, List.length_append, hu, length_be32]; omega)
  have hlen := hname.loaded.store_structs (a := itemsBytes is ++ be32 fdtProp) (b := u)
    (d := be32 n) (c := be32 off ++ (w ++ (itemsBytes rest ++ be32 fdtEnd)))
    (p := fdt + l.offDtStruct + (itemsBytes is).length + 4) (by simp only [List.append_assoc])
    hu.symm
    (by rw [hname.offDtStruct, htag.offDtStruct, hoff, List.length_append, length_be32]; omega)
  refine ⟨m₁, _, w, hsplice, ((hedit.trans htag).trans hname).trans hlen,
    ⟨hw, ?_, hi.padded⟩, rfl⟩
  simp only [List.append_assoc]

/-- No room behind the items. -/
theorem insert_nospace (hi : l.HasItems (is ++ rest)) (hroom : l.free.length < n)
    (hn : n < 0x80000000) :
    fdtSpliceStruct m fdt (fdt + l.offDtStruct + (itemsBytes is).length) 0 (n : ℕ)
      = (FdtErr.nospace.code, m) := by
  have hs : l.structs = itemsBytes is ++ ([] ++ (itemsBytes rest ++ be32 fdtEnd)) := by
    rw [hi.structs, itemsBytes_append, List.nil_append, List.append_assoc]
  exact h.spliceStruct_nospace rfl hs (by rw [List.length_nil]; omega) hn

end Loaded

/-! ## Properties -/

/-- **The property of a name**: there is none, or it has its place among the items. -/
inductive PropCase (l : Layout) (ps : List Property) (post : List Item) (k : CStr)
    (us : List Token) : Prop
  | absent (hk : k ∉ ps.map Prod.fst)
  | present (qs rs : List Property) (old : List Byte) (is rest : List Item) (off : ℕ)
      (pad : List Byte) (hps : ps = qs ++ (k, old) :: rs) (hqs : k ∉ qs.map Prod.fst)
      (hpost : post = is ++ .prop off old pad :: rest)
      (his : Denotes l.strings is (qs.map Token.prop)) (hk : k.obj <+: l.strings.drop off)
      (hrest : Denotes l.strings rest (rs.map Token.prop ++ us))

theorem Denotes.propCase {ps : List Property} (k : CStr)
    (hd : Denotes l.strings post (ps.map Token.prop ++ us)) : PropCase l ps post k us := by
  by_cases hmem : k ∈ ps.map Prod.fst
  · obtain ⟨qs, old, rs, rfl, hqs, -⟩ := exists_assign_eq hmem
    rw [List.map_append, List.map_cons, List.append_assoc, List.cons_append] at hd
    obtain ⟨is, i, rest, rfl, his, hprop, hrest⟩ := hd.exists_split
    obtain ⟨off, pad, rfl, hk⟩ := hprop.exists_eq_prop
    exact .present qs rs old is rest off pad rfl hqs rfl his hk hrest
  · exact .absent hmem

theorem assign_append {qs rs : List Property} (hqs : k ∉ qs.map Prod.fst) (v w : List Byte) :
    assign k v (qs ++ (k, w) :: rs) = qs ++ (k, v) :: rs := by
  rw [assign, if_pos (by simp), replaceFirst_append hqs]

theorem ne_of_notMem {ps : List Property} (h : k ∉ ps.map Prod.fst) : ∀ x ∈ ps, x.1 ≠ k :=
  fun _ hx heq => h (heq ▸ List.mem_map_of_mem hx)

namespace Loaded

variable (h : Loaded m fdt l) {npad : List Byte} {ps : List Property} {t : Token}

include h

/-- There is no property of the name. -/
theorem getProperty_absent (hi : l.HasItems (pre ++ .beginNode name npad :: post))
    (hd : Denotes l.strings post (ps.map Token.prop ++ t :: us)) (ht : ∀ x, t ≠ .prop x)
    (hk : k ∉ ps.map Prod.fst) :
    fdtGetPropertyNamelen m fdt (offset pre) k.obj k.bytes.length
      = .ok (none, FdtErr.notfound.code) := by
  obtain ⟨is, i, rest, rfl, his, hnext, -⟩ := hd.exists_split
  exact h.getProperty_notFound hi his (ne_of_notMem hk) (hnext.tag_eq ht)

/-- **`fdt_add_property_`** puts a new property in front, or leaves the blocks as they were. -/
theorem addProperty_cases (hi : l.HasItems (pre ++ .beginNode name npad :: post))
    (hn : sizeofProperty + fdtTagalign n < 0x80000000) (hk : k.obj.length < 0x80000000) :
    (∃ off m' l' hole, fdtAddProperty m fdt (offset pre) k.obj n = .ok (0,
        some (fdt + l.offDtStruct + (itemsBytes (pre ++ [.beginNode name npad])).length), m') ∧
      Edited fdt m l m' l' ∧ l.free.length ≤ l'.free.length +
        (sizeofProperty + fdtTagalign n + k.obj.length) ∧
      l'.HasHole (pre ++ [.beginNode name npad]) post off n hole ∧ k.obj <+: l'.strings.drop off) ∨
    ∃ p m' l', fdtAddProperty m fdt (offset pre) k.obj n = .ok (FdtErr.nospace.code, p, m') ∧
      Edited fdt m l m' l' ∧ l.free.length < sizeofProperty + fdtTagalign n + k.obj.length ∧
        l'.structs = l.structs ∧ l'.strings = l.strings := by
  have hnext : ¬ offset (pre ++ [.beginNode name npad]) < 0 := not_lt.mpr (offset_nonneg _)
  have hnat (off : ℕ) : ¬ ((off : ℕ) : ℤ) < 0 := not_lt.mpr (Int.natCast_nonneg off)
  have hassoc (l' : Layout) (hs : l'.structs = l.structs) :
      l'.HasItems ((pre ++ [.beginNode name npad]) ++ post) := by
    rw [List.append_assoc]
    exact ⟨hs ▸ hi.structs, hi.padded⟩
  have hsizes := h.sizes
  rw [fdtAddProperty, h.checkNodeOffset_eq hi, ok_bind, if_neg hnext]
  rcases h.findAddString_cases hk with ⟨off, hfind, hoff⟩ | ⟨m₁, hfind, hfree, hedit⟩ |
    ⟨hfind, hroom⟩
  · -- the string is there
    have hname : uint (off : ℕ) = off := by
      have hle := nameoff_le hoff
      exact uint_eq rfl (by omega)
    rw [hfind]
    simp only [ok_bind, if_neg (hnat off), h.offsetPtrRaw_offset, hname]
    rcases Nat.lt_or_ge l.free.length (sizeofProperty + fdtTagalign n) with hroom | hroom
    · rw [h.insert_nospace (hassoc l rfl) hroom hn]
      exact .inr ⟨_, m, l, rfl, h.edited_refl, by omega, rfl, rfl⟩
    · obtain ⟨m₂, l', hole, hsplice, hinsert, hhole, hstrings⟩ :=
        h.exists_insert off (hassoc l rfl) hroom
      rw [hsplice]
      exact .inl ⟨off, _, l', hole, rfl, hinsert,
        hinsert.free_le (by rw [hhole.length_structs (hassoc l rfl), hstrings]; omega), hhole,
        hstrings ▸ hoff⟩
  · -- the string is added
    have hsizes' := hedit.loaded.sizes
    have hname : uint (l.strings.length : ℕ) = l.strings.length := uint_eq rfl (by omega)
    have hptr := hedit.loaded.offsetPtrRaw_offset (pre ++ [.beginNode name npad])
    rw [hedit.offDtStruct] at hptr
    rw [hfind]
    simp only [ok_bind, if_neg (hnat _), hptr, hname]
    rcases Nat.lt_or_ge (l.free.drop k.obj.length).length (sizeofProperty + fdtTagalign n)
      with hroom | hroom
    · have hsplice := hedit.loaded.insert_nospace (hassoc _ rfl) hroom hn
      obtain ⟨m₂, hdel, hback⟩ := h.exists_delLastString hedit
      rw [hedit.offDtStruct] at hsplice
      rw [hsplice]
      simp only [FdtErr.code, if_true, hdel, ok_bind]
      rw [List.length_drop] at hroom
      exact .inr ⟨_, m₂, _, rfl, hback, by omega, rfl, rfl⟩
    · obtain ⟨m₂, l', hole, hsplice, hinsert, hhole, hstrings⟩ :=
        hedit.loaded.exists_insert l.strings.length (hassoc _ rfl) hroom
      have hall := hedit.trans hinsert
      rw [hedit.offDtStruct] at hsplice hinsert hall
      rw [hsplice]
      refine .inl ⟨l.strings.length, _, l', hole, rfl, hall, hall.free_le ?_, hhole, ?_⟩
      · rw [hhole.length_structs (hassoc l rfl), hstrings, List.length_append]
        omega
      · rw [hstrings, List.drop_left]
  · -- there is no room for it
    rw [hfind]
    simp only [ok_bind]
    exact .inr ⟨none, m, l, rfl, h.edited_refl, by omega, rfl, rfl⟩

/-- The property at its place is found. -/
theorem getProperty_present {qs : List Property} {old pad : List Byte}
    (hi : l.HasItems (pre ++ .beginNode name npad :: (is ++ .prop off old pad :: rest)))
    (his : Denotes l.strings is (qs.map Token.prop)) (hqs : k ∉ qs.map Prod.fst)
    (hk : k.obj <+: l.strings.drop off) :
    fdtGetPropertyNamelen m fdt (offset pre) k.obj k.bytes.length
        = .ok (some (fdt + l.offDtStruct +
            (itemsBytes (pre ++ .beginNode name npad :: is)).length), (old.length : ℤ)) ∧
      l.HasItems ((pre ++ .beginNode name npad :: is) ++ .prop off old pad :: rest) :=
  ⟨h.getProperty_found hi his (ne_of_notMem hqs) hk, by rwa [List.append_assoc, List.cons_append]⟩

/-- **A placeholder**: the property is stored but for its value, in place or in front, or the blocks
are as they were. -/
theorem placeholder_cases (hi : l.HasItems (pre ++ .beginNode name npad :: post))
    (hd : Denotes l.strings post (ps.map Token.prop ++ t :: us)) (ht : ∀ x, t ≠ .prop x)
    (hn : sizeofProperty + fdtTagalign n < 0x80000000) (hk : k.obj.length < 0x80000000) :
    (∃ is rest off hole m' l', fdtSetpropPlaceholder m fdt (offset pre) k.obj n = .ok (0,
        some (fdt + l.offDtStruct + (itemsBytes (pre ++ .beginNode name npad :: is)).length +
          sizeofProperty), m') ∧
      Edited fdt m l m' l' ∧ l.free.length ≤ l'.free.length +
        (sizeofProperty + fdtTagalign n + k.obj.length) ∧
      l'.HasHole (pre ++ .beginNode name npad :: is) rest off n hole ∧
        ∀ v pad, Denotes l'.strings (is ++ .prop off v pad :: rest)
          ((assign k v ps).map Token.prop ++ t :: us)) ∨
    ∃ m' l', fdtSetpropPlaceholder m fdt (offset pre) k.obj n
        = .ok (FdtErr.nospace.code, none, m') ∧
      Edited fdt m l m' l' ∧ l.free.length < sizeofProperty + fdtTagalign n + k.obj.length ∧
        l'.structs = l.structs ∧ l'.strings = l.strings := by
  rw [fdtSetpropPlaceholder, h.rwProbe_eq]
  simp only [fdtResizeProperty, h.getProperty_eq]
  cases hd.propCase k with
  | present qs rs old is rest off pad hps hqs hpost his hoff hrest =>
    subst hps hpost
    obtain ⟨hget, hi'⟩ := h.getProperty_present hi his hqs hoff
    simp only [hget, ok_bind]
    rcases Nat.lt_or_ge (fdtTagalign old.length + l.free.length) (fdtTagalign n) with hroom | hroom
    · rw [h.resize_nospace hi' hroom (by omega)]
      exact .inr ⟨m, l, rfl, h.edited_refl, by omega, rfl, rfl⟩
    · obtain ⟨m₁, l', hole, hsplice, hedit, hhole, hstrings, -⟩ := h.exists_resize hi' hroom
      rw [hsplice]
      refine .inl ⟨is, rest, off, hole, _, l', rfl, hedit, hedit.free_le ?_, hhole, fun v pad' => ?_⟩
      · have hlen := hi'.length_structs
        have hbytes := (Item.length_bytes_prop off old pad)
        rw [hhole.length_eq, hstrings]
        omega
      · rw [assign_append hqs, hstrings, List.map_append, List.map_cons, List.append_assoc,
          List.cons_append]
        exact his.append (.prop k off v pad' hoff hrest)
  | absent hmem =>
    simp only [h.getProperty_absent hi hd ht hmem, ok_bind, pure_eq, if_true]
    rcases h.addProperty_cases hi hn hk with ⟨off, m', l', hole, hadd, hedit, hfree, hhole, hoff⟩ |
      ⟨p, m', l', hadd, hedit, hroom, hstructs, hstrings⟩
    · rw [hadd]
      refine .inl ⟨[], post, off, hole, m', l', rfl, hedit, hfree, hhole, fun v pad => ?_⟩
      rw [assign, if_neg hmem]
      exact .prop k off v pad hoff (hd.mono hedit.strings)
    · rw [hadd]
      exact .inr ⟨m', l', rfl, hedit, hroom, hstructs, hstrings⟩

/-- **`fdt_setprop`** assigns the property of a node, or leaves the blocks as they were. -/
theorem exists_setprop (v : List Byte) (hi : l.HasItems (pre ++ .beginNode name npad :: post))
    (hd : Denotes l.strings post (ps.map Token.prop ++ t :: us)) (ht : ∀ x, t ≠ .prop x)
    (hn : sizeofProperty + fdtTagalign v.length < 0x80000000) (hk : k.obj.length < 0x80000000) :
    ∃ r m', fdtSetprop m fdt (offset pre) k.obj v v.length = .ok (r, m') ∧
      EditEnd fdt m l (sizeofProperty + fdtTagalign v.length + k.obj.length) (fun r l' => r = 0 ∧
        ∃ post', l'.HasItems (pre ++ .beginNode name npad :: post') ∧
          Denotes l'.strings post' ((assign k v ps).map Token.prop ++ t :: us)) r m' := by
  rw [fdtSetprop]
  rcases h.placeholder_cases hi hd ht hn hk with
    ⟨is, rest, off, hole, m₁, l₁, hplace, hedit, hfree, hhole, hdenotes⟩ |
    ⟨m', l', hplace, hedit, hroom, hstructs, hstrings⟩
  · obtain ⟨u, w, rfl, hu, -⟩ := exists_append_of_length (a := v.length)
      (hhole.length.trans (Nat.add_sub_cancel' (le_fdtTagalign v.length)).symm)
    obtain ⟨l', hfill, hhole', hstrings⟩ := hedit.loaded.exists_fill (u := []) hhole hu.symm
    have hitems := Layout.HasHole.items (v := v) (w := w) hhole' rfl
    rw [List.append_assoc, List.cons_append] at hitems
    rw [hedit.offDtStruct, List.length_nil, Nat.add_zero] at hfill
    have hstore := memcpyFrom_eq (m := m₁) (d := fdt + l.offDtStruct +
      (itemsBytes (pre ++ .beginNode name npad :: is)).length + sizeofProperty)
      (Nat.le_refl v.length)
    rw [List.take_length] at hstore
    have hall : l.free.length ≤ l'.free.length +
        (sizeofProperty + fdtTagalign v.length + k.obj.length) := by
      have hlen := hfill.length_free
      rw [hhole'.length_eq, hhole.length_eq, hstrings] at hlen
      omega
    refine ⟨0, _, ?_, .done l' (hedit.trans hfill) hall (le_refl 0)
      ⟨rfl, is ++ .prop off v w :: rest, hitems, hstrings ▸ hdenotes v w⟩⟩
    have hfetch (p : ℕ) : fetch (some p) = (.ok p : MemM ℕ) := rfl
    rw [hplace, ok_bind]
    dsimp only
    rw [if_neg (not_not.mpr rfl)]
    by_cases hv : v.length = 0
    · rw [if_neg (not_not.mpr hv), List.length_eq_zero_iff.mp hv, write_nil, pure_eq]
    · rw [if_pos hv, hfetch, ok_bind, hstore, ok_bind, pure_eq]
  · rw [hplace]
    exact ⟨_, m', rfl, .nospace l' hedit hroom rfl hstructs hstrings⟩

/-! ### Longer values -/

omit h in
theorem fdtTagalign_add_le (a b : ℕ) : fdtTagalign (a + b) ≤ fdtTagalign a + fdtTagalign b := by
  unfold fdtTagalign
  omega

omit h in
theorem lookup_append {qs rs : List Property} {old : List Byte} (hqs : k ∉ qs.map Prod.fst) :
    (qs ++ (k, old) :: rs).lookup k = some old := by
  induction qs with
  | nil => simp
  | cons q qs ih =>
    obtain ⟨hne, hqs⟩ := not_or.mp (List.mem_cons.not.mp hqs)
    rw [List.cons_append, lookup_cons_ite, if_neg hne, ih hqs]

/-- The value is written behind the part of the hole that is kept. -/
theorem exists_append (old v : List Byte)
    (hh : l.HasHole is rest off (old.length + v.length) hole) (hold : old <+: hole) :
    ∃ l' w, Edited fdt m l (m.write (fdt + l.offDtStruct + (itemsBytes is).length +
        sizeofProperty + old.length) v) l' ∧
      l'.HasItems (is ++ .prop off (old ++ v) w :: rest) ∧ l'.strings = l.strings ∧
        l'.structs.length = l.structs.length := by
  obtain ⟨tail, rfl⟩ := hold
  have hlen := hh.length
  have hle := le_fdtTagalign (old.length + v.length)
  rw [List.length_append] at hlen
  obtain ⟨b, w, rfl, hb, -⟩ := exists_append_of_length (v := tail) (a := v.length)
    (b := tail.length - v.length) (by omega)
  obtain ⟨l', hfill, hhole, hstrings⟩ := h.exists_fill hh hb.symm
  have hsame := hhole.length_eq.trans hh.length_eq.symm
  rw [← List.append_assoc] at hhole
  exact ⟨l', w, hfill, hhole.items (List.length_append ..), hstrings, hsame⟩

/-- **`fdt_appendprop`** makes the value of a property longer, or leaves the blocks as they were. -/
theorem exists_appendprop (v : List Byte)
    (hi : l.HasItems (pre ++ .beginNode name npad :: post))
    (hd : Denotes l.strings post (ps.map Token.prop ++ t :: us)) (ht : ∀ x, t ≠ .prop x)
    (hn : l.totalsize + (sizeofProperty + fdtTagalign v.length) < 0x80000000)
    (hk : k.obj.length < 0x80000000) :
    ∃ r m', fdtAppendprop m fdt (offset pre) k.obj v v.length = .ok (r, m') ∧
      EditEnd fdt m l (sizeofProperty + fdtTagalign v.length + k.obj.length) (fun r l' => r = 0 ∧
        ∃ post', l'.HasItems (pre ++ .beginNode name npad :: post') ∧ Denotes l'.strings post'
          ((assign k ((ps.lookup k).getD [] ++ v) ps).map Token.prop ++ t :: us)) r m' := by
  have hstore (m : Mem) (p : ℕ) : m.memcpyFrom p v v.length = .ok (m.write p v) := by
    rw [memcpyFrom_eq (Nat.le_refl _), List.take_length]
  rw [fdtAppendprop, h.rwProbe_eq]
  simp only [h.getProperty_eq]
  cases hd.propCase k with
  | present qs rs old is rest off pad hps hqs hpost his hoff hrest =>
    subst hps hpost
    obtain ⟨hget, hi'⟩ := h.getProperty_present hi his hqs hoff
    have hsizes := h.sizes
    have hlen := hi'.length_structs
    have hbytes := Item.length_bytes_prop off old pad
    have hle := le_fdtTagalign v.length
    have hlt : old.length + v.length < 0x80000000 := by omega
    have hsum := fdtTagalign_add_le old.length v.length
    have hle' := le_fdtTagalign (old.length + v.length)
    have hmono : fdtTagalign old.length ≤ fdtTagalign (old.length + v.length) := by
      unfold fdtTagalign
      omega
    have hstructs := (h.structs_of_prop hi').2.1
    have hpad : old.length + pad.length = fdtTagalign old.length := by
      rw [← List.length_append, hstructs]
    have hfits : fdtTagalign (old.length + v.length) < 0x80000000 := by omega
    have hnew : int ((v.length : ℤ) + (old.length : ℕ)) = (old.length + v.length : ℕ) :=
      int_eq (by rw [Nat.cast_add, Int.add_comm]) hlt
    have huint : uint ((old.length + v.length : ℕ) : ℤ) = old.length + v.length :=
      uint_eq rfl (Nat.lt_trans hlt (by decide))
    simp only [hget, ok_bind, hnew, huint]
    rcases Nat.lt_or_ge (fdtTagalign old.length + l.free.length)
      (fdtTagalign (old.length + v.length)) with hroom | hroom
    · rw [h.resize_nospace hi' hroom hfits]
      refine ⟨_, m, rfl, .nospace l h.edited_refl ?_ rfl rfl rfl⟩
      clear hnew huint
      omega
    · obtain ⟨m₁, l₁, hole, hsplice, hedit, hhole, hstrings, hprefix⟩ := h.exists_resize hi' hroom
      rw [List.take_of_length_le (by rw [hstructs]; exact hmono)] at hprefix
      obtain ⟨l', w, hfill, hitems, hstrings', hsame⟩ := hedit.loaded.exists_append _ v hhole
        ((List.prefix_append _ _).trans hprefix)
      have hall := hedit.trans hfill
      rw [hedit.offDtStruct] at hall
      rw [List.append_assoc, List.cons_append] at hitems
      have hptr (p : ℕ) : ((p : ℤ) + (sizeofProperty : ℕ) + (old.length : ℕ)).toNat
          = p + sizeofProperty + old.length := by
        clear hnew huint
        omega
      rw [hsplice]
      simp only [hptr, hstore, ok_bind, pure_eq]
      refine ⟨0, _, rfl, .done l' hall (hall.free_le ?_) (le_refl 0)
        ⟨rfl, is ++ .prop off (old ++ v) w :: rest, hitems, ?_⟩⟩
      · rw [hsame, hhole.length_eq, hstrings', hstrings]
        clear hnew huint
        omega
      · rw [lookup_append hqs, Option.getD_some, assign_append hqs, hstrings', hstrings,
          List.map_append, List.map_cons, List.append_assoc, List.cons_append]
        exact his.append (.prop k off (old ++ v) w hoff hrest)
  | absent hmem =>
    simp only [h.getProperty_absent hi hd ht hmem, ok_bind]
    have hnone : ps.lookup k = none := lookup_eq_none_iff_notMem.mpr hmem
    rcases h.addProperty_cases hi (n := v.length) (by omega) hk with
      ⟨off, m₁, l₁, hole, hadd, hedit, hfree, hhole, hoff⟩ |
      ⟨p, m', l', hadd, hedit, hroom, hstructs, hstrings⟩
    · obtain ⟨l', w, hfill, hitems, hstrings, hsame⟩ := hedit.loaded.exists_append [] v
        (by rwa [List.length_nil, Nat.zero_add]) (List.nil_prefix)
      have hall := hedit.trans hfill
      rw [hedit.offDtStruct, List.length_nil, Nat.add_zero] at hall
      rw [List.append_assoc, List.singleton_append] at hitems
      have hfetch (p : ℕ) : fetch (some p) = (.ok p : MemM ℕ) := rfl
      rw [hadd]
      simp only [hfetch, hstore, ok_bind, pure_eq]
      have hfree' : l₁.free.length = l'.free.length := by
        have hlen := hfill.length_free
        rw [hsame, hstrings] at hlen
        omega
      refine ⟨0, _, rfl, .done l' hall (hfree' ▸ hfree) (le_refl 0)
        ⟨rfl, .prop off v w :: post, hitems, ?_⟩⟩
      rw [hnone, Option.getD_none, List.nil_append, assign, if_neg hmem, hstrings]
      exact .prop k off v w hoff (hd.mono hedit.strings)
    · rw [hadd]
      exact ⟨_, m', rfl, .nospace l' hedit hroom rfl hstructs hstrings⟩

end Loaded

end LittleLoader
