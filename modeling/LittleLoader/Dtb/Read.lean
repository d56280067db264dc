import LittleLoader.Dtb.Format

/-!
# Dtb/Read — what `libfdt` finds in a blob

    fdt_next_tag:   offset of an item   ──▸   its tag, and the offset of the next one

The functions walk the items by their offsets.  Each lemma is about a place in the list of items,
`items = pre ++ i :: post`, whose offset is the length of the bytes of `pre`.
-/

namespace LittleLoader

open Memory Mem

variable {m : Mem} {fdt n k a w : ℕ} {x : ℤ} {l : Layout} {pre post is : List Item} {i : Item}
  {ws : List ℕ} {rest xs : List Byte}

/-! ## Integers -/

theorem uint_eq (h : x = n) (hn : n < 0x100000000) : uint x = n := by
  unfold uint
  omega

theorem int_eq (h : x = n) (hn : n < 0x80000000) : int x = n := by
  unfold int
  subst h
  exact Int.bmod_eq_of_le (by omega) (by omega)

/-! ## The header -/

/-- **A word of a list of words.** -/
theorem ld32_word (h : Has m a (ws.flatMap be32)) (hw : ws[k]? = some w) (hlt : w < 0x100000000) :
    m.ld32 (a + 4 * k) = w := by
  induction ws generalizing a k with
  | nil => cases hw
  | cons v ws ih =>
    rw [List.flatMap_cons] at h
    cases k with
    | zero =>
      obtain rfl : v = w := by simpa using hw
      exact ld32_eq h.left hlt
    | succ k =>
      have hnext : a + 4 * (k + 1) = a + (be32 v).length + 4 * k := by
        rw [length_be32]
        omega
      rw [hnext]
      exact ih h.right (by simpa using hw)

/-- **The blob is in the memory** at `fdt`, and its header is one that `libfdt` takes. -/
structure Loaded (m : Mem) (fdt : ℕ) (l : Layout) : Prop where
  has : Has m fdt l.bytes
  totalsize_lt : l.totalsize < intMax
  lastCompVersion_le : l.lastCompVersion ≤ 17
  le_offMemRsvmap : 40 ≤ l.offMemRsvmap
  offMemRsvmap_le : l.offMemRsvmap + 16 ≤ l.offDtStruct
  aligned : fdt % 8 = 0
  bound : fdt + l.totalsize ≤ 0x10000000000000000

/-! ## Names and tags -/

theorem memchrObj_eq {s : List Byte} {c : Byte} (hn : n ≤ s.length) :
    memchrObj s c n = .ok (c ∈ s.take n) := by
  induction n generalizing s with
  | zero => cases s <;> rfl
  | succ n ih =>
    match s with
    | [] => simp at hn
    | b :: s =>
      rw [memchrObj, ih (by simpa using hn), List.take_succ_cons]
      by_cases hb : b = c
      · rw [if_pos hb, pure_eq, decide_eq_true (hb ▸ List.mem_cons_self)]
      · rw [if_neg hb]
        exact congrArg Except.ok (decide_eq_decide.mpr (by simp [Ne.symm hb]))

/-- `fdt_next_tag`, when it finds the end of the item. -/
theorem nextTag_of {start offset : ℤ} {tag tagp p : ℕ}
    (hptr : fdtOffsetPtr m fdt start fdtTagsize = some tagp) (htag : m.ld32 tagp = tag)
    (hend : tagEnd m fdt tag (start + fdtTagsize) = .ok (some offset))
    (hfit : fdtOffsetPtr m fdt start (uint (offset - start)) = some p) :
    fdtNextTag m fdt start = .ok (tag, int (fdtTagalign (uint offset))) := by
  rw [fdtNextTag, hptr]
  dsimp only
  rw [htag, hend]
  dsimp only [bind, Except.bind]
  rw [hfit]
  dsimp only [pure, Except.pure]

namespace Loaded

variable (h : Loaded m fdt l)

include h

/-- A field of the header. -/
theorem field (k : ℕ) (hw : l.header[k]? = some w) (hlt : w < 0x100000000) :
    m.ld32 (fdt + 4 * k) = w :=
  ld32_word h.has.left hw hlt

/-- The blocks stand in order, and no number of bytes is too large for an `int`. -/
theorem sizes : l.offDtStruct + l.structs.length ≤ l.offDtStrings ∧
    l.offDtStrings + l.strings.length ≤ l.totalsize ∧ l.totalsize < 0x7fffffff ∧
      40 ≤ l.offMemRsvmap ∧ l.offMemRsvmap + 16 ≤ l.offDtStruct ∧ l.lastCompVersion ≤ 17 :=
  ⟨l.offDtStruct_le, l.offDtStrings_le, h.totalsize_lt, h.le_offMemRsvmap, h.offMemRsvmap_le,
    h.lastCompVersion_le⟩

theorem magic_eq : fdtMagic m fdt = fdtMagicNumber :=
  h.field 0 rfl (by decide)

theorem totalsize_eq : fdtTotalsize m fdt = l.totalsize := by
  have hsizes := h.sizes
  exact h.field 1 rfl (by omega)

theorem offDtStruct_eq : fdtOffDtStruct m fdt = l.offDtStruct := by
  have hsizes := h.sizes
  exact h.field 2 rfl (by omega)

theorem offDtStrings_eq : fdtOffDtStrings m fdt = l.offDtStrings := by
  have hsizes := h.sizes
  exact h.field 3 rfl (by omega)

theorem offMemRsvmap_eq : fdtOffMemRsvmap m fdt = l.offMemRsvmap := by
  have hsizes := h.sizes
  exact h.field 4 rfl (by omega)

theorem version_eq : fdtVersion m fdt = 17 :=
  h.field 5 rfl (by decide)

theorem lastCompVersion_eq : fdtLastCompVersion m fdt = l.lastCompVersion := by
  have hsizes := h.sizes
  exact h.field 6 rfl (by omega)

theorem sizeDtStrings_eq : fdtSizeDtStrings m fdt = l.strings.length := by
  have hsizes := h.sizes
  exact h.field 8 rfl (by omega)

theorem sizeDtStruct_eq : fdtSizeDtStruct m fdt = l.structs.length := by
  have hsizes := h.sizes
  exact h.field 9 rfl (by omega)

/-! ### The checks of the header -/

theorem roProbe_eq : fdtRoProbe m fdt = l.totalsize := by
  have hsizes := h.sizes
  simp only [fdtRoProbe, h.aligned, h.magic_eq, h.version_eq, h.lastCompVersion_eq, h.totalsize_eq,
    fdtMagicNumber, fdtSwMagicNumber, intMax]
  rw [if_neg (by simp), if_neg (by omega), if_neg (by simp), if_neg (by simp), if_pos (by omega)]

theorem checkHeader_eq : fdtCheckHeader m fdt = 0 := by
  have hsizes := h.sizes
  have hblock (base size : ℕ) (hbase : 40 ≤ base) (hend : base + size ≤ l.totalsize) :
      checkBlock 40 l.totalsize base size = true := by
    have huint : uint ((base : ℤ) + size) = base + size := uint_eq rfl (by omega)
    simp only [checkBlock, checkOff, huint, Bool.decide_and, Bool.and_eq_true, decide_eq_true_eq]
    omega
  have hstruct := hblock l.offDtStruct l.structs.length (by omega) (by omega)
  have hstrings := hblock l.offDtStrings l.strings.length (by omega) (by omega)
  have hrsv : checkOff 40 l.totalsize l.offMemRsvmap = true := by
    simp only [checkOff, Bool.decide_and, Bool.and_eq_true, decide_eq_true_eq]
    omega
  have hheader : fdtHeaderSize m fdt = 40 := by simp [fdtHeaderSize, h.version_eq]
  simp only [fdtCheckHeader, hheader, h.magic_eq, h.version_eq, h.lastCompVersion_eq,
    h.totalsize_eq, h.offMemRsvmap_eq, h.offDtStruct_eq, h.offDtStrings_eq, h.sizeDtStruct_eq,
    h.sizeDtStrings_eq, intMax]
  rw [if_neg (not_not.mpr h.aligned), if_neg (not_not.mpr rfl), if_neg (by omega),
    if_neg (by omega), if_neg (by omega), if_neg (not_not.mpr hrsv), if_neg (by omega),
    if_neg fun hc => hc.2 hstruct, if_neg (not_not.mpr hstrings)]

theorem rwProbe_eq : fdtRwProbe m fdt = (0, m) := by
  have hsizes := h.sizes
  have hrsv : uint ((l.offMemRsvmap : ℤ) + (16 : ℕ)) = l.offMemRsvmap + 16 := uint_eq rfl (by omega)
  have hstruct : uint ((l.offDtStruct : ℤ) + l.structs.length) = l.offDtStruct + l.structs.length :=
    uint_eq rfl (by omega)
  have hstrings : uint ((l.offDtStrings : ℤ) + l.strings.length)
      = l.offDtStrings + l.strings.length := uint_eq rfl (by omega)
  have hordered : fdtBlocksMisordered m fdt 16 l.structs.length = false := by
    simp only [fdtBlocksMisordered, h.totalsize_eq, h.offMemRsvmap_eq, h.offDtStruct_eq,
      h.offDtStrings_eq, h.sizeDtStrings_eq, hrsv, hstruct, hstrings, decide_eq_false_iff_not]
    omega
  simp only [fdtRwProbe, h.roProbe_eq, h.version_eq, h.sizeDtStruct_eq, hordered]
  rw [if_neg (by omega), if_neg (by omega), if_neg (by simp), if_neg (by omega)]

/-! ### The structure block -/

theorem offsetPtrRaw_eq : fdtOffsetPtrRaw m fdt k = fdt + l.offDtStruct + k := by
  rw [fdtOffsetPtrRaw, h.offDtStruct_eq]
  omega

/-- **A place in the structure block.** -/
theorem offsetPtr_eq (hk : k + n ≤ l.structs.length) :
    fdtOffsetPtr m fdt k n = some (fdt + l.offDtStruct + k) := by
  have hsizes := h.sizes
  have huoffset : uint (k : ℤ) = k := uint_eq rfl (by omega)
  have habs : uint ((k : ℤ) + l.offDtStruct) = k + l.offDtStruct := uint_eq rfl (by omega)
  have habs' : uint (((k + l.offDtStruct : ℕ) : ℤ) + n) = k + l.offDtStruct + n :=
    uint_eq rfl (by omega)
  have hend : uint ((k : ℤ) + n) = k + n := uint_eq rfl (by omega)
  simp only [fdtOffsetPtr, h.offDtStruct_eq, h.totalsize_eq, h.version_eq, h.sizeDtStruct_eq,
    huoffset, habs, habs', hend, h.offsetPtrRaw_eq]
  rw [if_neg (by omega), if_neg (by omega), if_neg (by omega)]

/-- The structure block. -/
theorem structs : Has m (fdt + l.offDtStruct) l.structs := by
  have hoff : fdt + (l.header.flatMap be32).length + l.front.length = fdt + l.offDtStruct := by
    simp [Layout.header, Layout.offDtStruct, Nat.add_assoc]
  exact hoff ▸ h.has.right.right.left

/-- **An item** at its place. -/
theorem item (hi : l.HasItems (pre ++ i :: post)) :
    Has m (fdt + l.offDtStruct + (itemsBytes pre).length) i.bytes := by
  have hall := h.structs
  rw [hi.structs, itemsBytes_append, itemsBytes_cons] at hall
  exact hall.left.right.left

/-- **The loop over a name** stops behind its NUL. -/
theorem skipName_eq (hnot : 0#8 ∉ xs) (hs : Has m (fdt + l.offDtStruct + k) (xs ++ [0#8]))
    (hk : k + xs.length + 1 ≤ l.structs.length) (hn : xs.length < n) :
    skipName m fdt n k = .ok (true, ((k + xs.length + 1 : ℕ) : ℤ)) := by
  induction xs generalizing k n with
  | nil =>
    obtain ⟨n, rfl⟩ : ∃ j, n = j + 1 := ⟨n - 1, by simp at hn; omega⟩
    have hnul := (has_cons.mp hs).1
    have hptr := h.offsetPtr_eq (k := k) (n := 1) hk
    rw [skipName, hptr]
    exact if_neg (not_not.mpr hnul)
  | cons x xs ih =>
    obtain ⟨n, rfl⟩ : ∃ j, n = j + 1 := ⟨n - 1, by simp at hn; omega⟩
    obtain ⟨hx, hxs⟩ := has_cons.mp hs
    obtain ⟨hne, hnot⟩ := not_or.mp (List.mem_cons.not.mp hnot)
    rw [List.length_cons] at hk hn
    have hnext := ih (k := k + 1) (n := n) hnot (by rwa [← Nat.add_assoc]) (by omega) (by omega)
    have hcast : ((k + 1 : ℕ) : ℤ) = (k : ℤ) + 1 := rfl
    rw [hcast] at hnext
    have hptr := h.offsetPtr_eq (k := k) (n := 1) (by omega)
    have hlen : k + (xs.length + 1) + 1 = k + 1 + xs.length + 1 := by omega
    rw [skipName, hptr, List.length_cons, hlen, ← hnext]
    exact if_pos (hx ▸ Ne.symm hne)

/-- The tag of an item, and its body. -/
theorem item_parts (hi : l.HasItems (pre ++ i :: post)) :
    m.ld32 (fdt + l.offDtStruct + (itemsBytes pre).length) = i.tag ∧
      Has m (fdt + l.offDtStruct + ((itemsBytes pre).length + 4)) i.body := by
  have hbody := (h.item hi).left
  refine ⟨ld32_eq hbody.left i.tag_lt, ?_⟩
  rw [← Nat.add_assoc]
  exact hbody.right

/-- **The end of an item**, up to its padding. -/
theorem tagEnd_eq (hi : l.HasItems (pre ++ i :: post)) :
    tagEnd m fdt i.tag (((itemsBytes pre).length + 4 : ℕ) : ℤ)
      = .ok (some (((itemsBytes pre).length + 4 + i.body.length : ℕ) : ℤ)) := by
  have hsizes := h.sizes
  have hlen := hi.length_structs
  have hbytes : i.bytes.length = 4 + i.body.length + i.pad.length := by
    simp [Item.bytes, Nat.add_assoc]
  obtain ⟨-, hbody⟩ := h.item_parts hi
  cases i with
  | beginNode name pad =>
    have hobj : (Item.beginNode name pad).body.length = name.bytes.length + 1 := name.length_obj
    have hskip := h.skipName_eq (n := fdtTotalsize m fdt + 1) name.nul_notMem hbody
      (by omega) (by rw [h.totalsize_eq]; omega)
    simp only [tagEnd, Item.tag, if_true, hskip, hobj]
    rfl
  | prop nameoff value pad =>
    have hobj : (Item.prop nameoff value pad).body.length = 8 + value.length := by
      simp [Item.body]
      omega
    have hfits : ¬ (intMax ≤ value.length + ((itemsBytes pre).length + 4) ∨
        value.length + ((itemsBytes pre).length + 4) < (itemsBytes pre).length + 4) := by
      unfold intMax
      omega
    have hlt : value.length + ((itemsBytes pre).length + 4) < 0x100000000 := by omega
    have hlt' : (itemsBytes pre).length + 4 < 0x100000000 := by omega
    have hlenp := h.offsetPtr_eq (k := (itemsBytes pre).length + 4) (n := 4) (by omega)
    have hvalue : m.ld32 (fdt + l.offDtStruct + ((itemsBytes pre).length + 4)) = value.length :=
      ld32_eq hbody.left.left (by omega)
    have hsum : uint ((value.length : ℤ) + ((itemsBytes pre).length + 4 : ℕ))
        = value.length + ((itemsBytes pre).length + 4) := uint_eq rfl hlt
    have hoffset : uint (((itemsBytes pre).length + 4 : ℕ) : ℤ) = (itemsBytes pre).length + 4 :=
      uint_eq rfl hlt'
    have hend : int ((((itemsBytes pre).length + 4 : ℕ) : ℤ) + (sizeofProperty - fdtTagsize : ℕ) +
        value.length) = ((itemsBytes pre).length + 4 + (8 + value.length) : ℕ) :=
      int_eq (by simp only [sizeofProperty, fdtTagsize]; omega) (by omega)
    have htag : ¬ fdtProp = fdtBeginNode := by decide
    simp only [tagEnd, Item.tag, if_neg htag, if_true, hlenp, hvalue, hsum, hoffset, if_neg hfits,
      hend, h.version_eq, hobj]
    rw [if_neg fun hversion => absurd hversion.1 (by decide)]
    rfl
  | endNode =>
    rw [tagEnd, if_neg (by decide), if_neg (by decide), if_pos (.inr (.inl rfl)), pure_eq]
    rfl
  | nop =>
    rw [tagEnd, if_neg (by decide), if_neg (by decide), if_pos (.inr (.inr rfl)), pure_eq]
    rfl

/-- **`fdt_next_tag`** at an item. -/
theorem nextTag_eq (hi : l.HasItems (pre ++ i :: post)) :
    fdtNextTag m fdt (offset pre) = .ok (i.tag, offset (pre ++ [i])) := by
  have hsizes := h.sizes
  have hlen := hi.length_structs
  have hpadded : i.Padded := hi.padded i (List.mem_append_right _ List.mem_cons_self)
  have hbytes := hpadded.length_bytes
  have hle := le_fdtTagalign i.body.length
  have hmod := hi.offset_mod
  have hptr := h.offsetPtr_eq (k := (itemsBytes pre).length) (n := fdtTagsize)
    (by unfold fdtTagsize; omega)
  have hptr' := h.offsetPtr_eq (k := (itemsBytes pre).length) (n := 4 + i.body.length) (by omega)
  have hend := h.tagEnd_eq hi
  have hsize : uint ((((itemsBytes pre).length + 4 + i.body.length : ℕ) : ℤ)
      - ((itemsBytes pre).length : ℕ)) = 4 + i.body.length := uint_eq (by omega) (by omega)
  have hoffset : uint (((itemsBytes pre).length + 4 + i.body.length : ℕ) : ℤ)
      = (itemsBytes pre).length + 4 + i.body.length := uint_eq rfl (by omega)
  have halign : fdtTagalign ((itemsBytes pre).length + 4 + i.body.length)
      = (itemsBytes (pre ++ [i])).length := by
    rw [Nat.add_assoc, fdtTagalign_add hmod, itemsBytes_append, List.length_append, itemsBytes_cons,
      itemsBytes_nil, List.append_nil, hbytes, fdtTagalign_add (by decide)]
  have hnext : (itemsBytes (pre ++ [i])).length < 0x80000000 := by
    rw [itemsBytes_append, List.length_append, itemsBytes_cons, itemsBytes_nil, List.append_nil]
    omega
  have hcast : (((itemsBytes pre).length : ℕ) : ℤ) + (fdtTagsize : ℕ)
      = (((itemsBytes pre).length + 4 : ℕ) : ℤ) := (Int.natCast_add _ _).symm
  rw [offset, nextTag_of hptr (h.item_parts hi).1 (hcast ▸ hend) (hsize ▸ hptr'), hoffset, halign,
    int_eq rfl hnext, offset]


/-! ### Nodes -/

theorem checkNodeOffset_eq {name : CStr} {pad : List Byte}
    (hi : l.HasItems (pre ++ .beginNode name pad :: post)) :
    fdtCheckNodeOffset m fdt (offset pre) = .ok (offset (pre ++ [.beginNode name pad])) := by
  have hplace : ¬ (offset pre < 0 ∨ offset pre % (fdtTagsize : ℕ) ≠ 0) := by
    rw [not_or, not_lt, not_not]
    exact ⟨offset_nonneg _, hi.offset_emod⟩
  rw [fdtCheckNodeOffset, if_neg hplace, h.nextTag_eq hi]
  rfl

theorem checkPropOffset_eq {nameoff : ℕ} {value pad : List Byte}
    (hi : l.HasItems (pre ++ .prop nameoff value pad :: post)) :
    fdtCheckPropOffset m fdt (offset pre) = .ok (offset (pre ++ [.prop nameoff value pad])) := by
  have hplace : ¬ (offset pre < 0 ∨ offset pre % (fdtTagsize : ℕ) ≠ 0) := by
    rw [not_or, not_lt, not_not]
    exact ⟨offset_nonneg _, hi.offset_emod⟩
  rw [fdtCheckPropOffset, if_neg hplace, h.nextTag_eq hi]
  rfl

/-- The address of an item. -/
theorem offsetPtrRaw_offset (is : List Item) :
    fdtOffsetPtrRaw m fdt (offset is) = fdt + l.offDtStruct + (itemsBytes is).length :=
  h.offsetPtrRaw_eq

/-- `fdt_get_name`. -/
theorem getName_eq {name : CStr} {pad : List Byte}
    (hi : l.HasItems (pre ++ .beginNode name pad :: post)) :
    fdtGetName m fdt (offset pre)
      = .ok (some (fdt + l.offDtStruct + (itemsBytes pre).length + 4), name.bytes.length) := by
  have hsizes := h.sizes
  have hbound := h.bound
  have hlen := hi.length_structs
  have hobj : Has m (fdt + l.offDtStruct + (itemsBytes pre).length + 4) name.obj := by
    rw [Nat.add_assoc _ _ 4]
    exact (h.item_parts hi).2
  have hbytes : (Item.beginNode name pad).bytes.length = 4 + name.obj.length + pad.length := by
    simp only [Item.bytes, List.length_append, length_be32, Item.body, Item.pad]
  have hstrlen := strlen_eq hobj (by omega)
  have hprobe : ¬ fdtRoProbe m fdt < 0 := by
    rw [h.roProbe_eq]
    omega
  have hnext : ¬ offset (pre ++ [.beginNode name pad]) < 0 := not_lt.mpr (offset_nonneg _)
  have htag : fdtTagsize = 4 := rfl
  rw [fdtGetName, if_neg hprobe, h.checkNodeOffset_eq hi, ok_bind, if_neg hnext,
    h.offsetPtrRaw_offset, htag]
  dsimp only
  rw [h.version_eq, if_neg (by decide), hstrlen, ok_bind, pure_eq]

/-- **`fdt_nodename_eq_`**: the name of the node is `k`, up to a unit address. -/
theorem nodenameEq_eq {name : CStr} {pad k s : List Byte}
    (hi : l.HasItems (pre ++ .beginNode name pad :: post)) (hs : k <+: s) :
    fdtNodenameEq m fdt (offset pre) s k.length = .ok (namesNode k name) := by
  have hobj : Has m (fdt + l.offDtStruct + (itemsBytes pre).length + 4) name.obj := by
    rw [Nat.add_assoc _ _ 4]
    exact (h.item_parts hi).2
  have htake : s.take k.length = k := (List.prefix_iff_eq_take.mp hs).symm
  rw [fdtNodenameEq, h.getName_eq hi, ok_bind]
  dsimp only
  by_cases hlen : name.bytes.length < k.length
  · rw [if_pos (by exact_mod_cast hlen)]
    have hnot : ¬ k <+: name.bytes := fun hp => absurd hp.length_le (by omega)
    simp [namesNode, hnot, pure, Except.pure]
  · rw [if_neg (by exact_mod_cast hlen)]
    have hle : k.length ≤ name.bytes.length := Nat.le_of_not_lt hlen
    have hread := hobj.read_take (n := k.length) (by rw [name.length_obj]; omega)
    have hcell := hobj.getElem (i := k.length) (by rw [name.length_obj]; omega)
    obtain ⟨r, hr, hzero⟩ := exists_memcmp (m := m)
      (p := fdt + l.offDtStruct + (itemsBytes pre).length + 4) hs.length_le
    rw [CStr.obj, List.take_append_of_le_length hle] at hread
    rw [hread, htake] at hzero
    rw [hr, ok_bind]
    by_cases hprefix : k <+: name.bytes
    · rw [if_neg (not_not.mpr (hzero.mpr (List.prefix_iff_eq_take.mp hprefix).symm)), hcell,
        memchrObj_eq hs.length_le, htake, ok_bind, pure_eq, pure_eq, CStr.getElem_obj]
      cases hc : name.bytes[k.length]? with
      | none =>
        have hend : name.bytes.length = k.length :=
          Nat.le_antisymm (List.getElem?_eq_none_iff.mp hc) hle
        simp [namesNode, hprefix, hend]
      | some c =>
        have hmore : name.bytes.length ≠ k.length := fun heq => by
          rw [List.getElem?_eq_none (Nat.le_of_eq heq)] at hc
          cases hc
        have hnul : c ≠ 0#8 := by
          rintro rfl
          exact name.nul_notMem (List.mem_of_getElem? hc)
        simp [namesNode, hprefix, hmore, hc, hnul]
    · have hne : r ≠ 0 := fun hr => hprefix (List.prefix_iff_eq_take.mpr (hzero.mp hr).symm)
      rw [if_pos hne, pure_eq]
      simp [namesNode, hprefix]

/-! ### The names of properties -/

/-- The strings block. -/
theorem strings : Has m (fdt + l.offDtStrings) l.strings := by
  have hoff : fdt + (l.header.flatMap be32).length + l.front.length + l.structs.length +
      l.gap.length = fdt + l.offDtStrings := by
    simp [Layout.header, Layout.offDtStrings, Layout.offDtStruct, Nat.add_assoc]
  exact hoff ▸ h.has.right.right.right.right.left

/-- A string of the strings block. -/
theorem string {name : CStr} {nameoff : ℕ} (hname : name.obj <+: l.strings.drop nameoff) :
    Has m (fdt + l.offDtStrings + nameoff) name.obj := by
  have hle := nameoff_le hname
  obtain ⟨tail, htail⟩ := hname
  have hall := h.strings
  rw [← List.take_append_drop nameoff l.strings, ← htail] at hall
  have hright := hall.right.left
  rwa [List.length_take_of_le (by omega)] at hright

/-- `fdt_get_string`. -/
theorem getString_eq {name : CStr} {nameoff : ℕ} (hname : name.obj <+: l.strings.drop nameoff) :
    fdtGetString m fdt (nameoff : ℕ)
      = (some (fdt + (l.offDtStrings + nameoff)), (name.bytes.length : ℤ)) := by
  have hsizes := h.sizes
  have hle := nameoff_le hname
  have habs : uint (((nameoff : ℕ) : ℤ) + l.offDtStrings) = l.offDtStrings + nameoff :=
    uint_eq (by omega) (by omega)
  have htotal : uint (l.totalsize : ℕ) = l.totalsize := uint_eq rfl (by omega)
  have hoffset : uint (nameoff : ℕ) = nameoff := uint_eq rfl (by omega)
  have hsize : uint ((l.strings.length : ℤ) - (nameoff : ℕ)) = l.strings.length - nameoff :=
    uint_eq (by omega) (by omega)
  have hobj := h.string hname
  rw [Nat.add_assoc] at hobj
  have hfound := memchr_eq (n := min (l.strings.length - nameoff)
    (l.totalsize - (l.offDtStrings + nameoff))) hobj name.nul_notMem (by omega)
  simp only [fdtGetString, h.roProbe_eq, h.offDtStrings_eq, h.sizeDtStrings_eq, h.magic_eq,
    h.version_eq, habs, htotal, hoffset, hsize]
  rw [if_neg (by omega), if_neg (by omega), if_pos trivial, if_neg (by omega), if_pos (by omega),
    if_neg (by omega)]
  simp only [hfound]
  congr 1
  omega

/-- **`fdt_string_eq_`** compares the name of a property. -/
theorem stringEq_eq {name k : CStr} {nameoff : ℕ} (hname : name.obj <+: l.strings.drop nameoff) :
    fdtStringEq m fdt (nameoff : ℕ) k.obj k.bytes.length = .ok (name = k) := by
  have hobj := h.string hname
  rw [Nat.add_assoc] at hobj
  rw [fdtStringEq, h.getString_eq hname]
  dsimp only
  by_cases hlen : name.bytes.length = k.bytes.length
  · obtain ⟨r, hr, hzero⟩ := exists_memcmp (m := m) (p := fdt + (l.offDtStrings + nameoff))
      (b := k.obj) (n := k.bytes.length) (by rw [k.length_obj]; omega)
    rw [hobj.left.read_eq hlen.symm, k.take_obj] at hzero
    rw [if_neg (not_not.mpr (by exact_mod_cast hlen)), hr, ok_bind, pure_eq]
    congr 1
    exact decide_eq_decide.mpr (hzero.trans CStr.ext_iff.symm)
  · have hne : name ≠ k := fun heq => hlen (congrArg (·.bytes.length) heq)
    rw [if_pos (by exact_mod_cast hlen), decide_eq_false hne, pure_eq]

end Loaded

end LittleLoader
