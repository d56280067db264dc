import LittleLoader.Dtb.Walk
import LittleLoader.Memory.Move

/-!
# Dtb/Splice — room in a blob

    … ┆ a ┆ b ┆ c ┆ gap ┆ strings ┆ free     ──▸     … ┆ a ┆ hole ┆ c ┆ gap ┆ strings ┆ free

A splice makes room in the structure block, or takes some away: what is behind it moves, over its
own bytes if need be, and two words of the header are set anew.  After it the memory holds a blob of
the same size (`exists_spliceStruct`); what is in the hole does not matter, for it is overwritten
(`write_structs`).
-/

namespace LittleLoader

open Memory Mem

variable {m m' m'' : Mem} {fdt n k x : ℕ} {l l' l'' : Layout} {ws : List ℕ}
  {a b b' c xs ys : List Byte}

/-! ## Edits -/

/-- **An edit**: the memory holds a blob of the same size, with another structure block, and with
more strings perhaps; nothing outside it has changed. -/
structure Edited (fdt : ℕ) (m : Mem) (l : Layout) (m' : Mem) (l' : Layout) : Prop where
  loaded : Loaded m' fdt l'
  same : SameOutside fdt l.totalsize m m'
  totalsize : l'.totalsize = l.totalsize
  rest : l' = { l with structs := l'.structs, strings := l'.strings, free := l'.free }
  strings : l.strings <+: l'.strings

theorem Loaded.edited_refl (h : Loaded m fdt l) : Edited fdt m l m l :=
  ⟨h, .refl _ _ _, rfl, rfl, List.prefix_rfl⟩

namespace Edited

theorem trans (h : Edited fdt m l m' l') (h' : Edited fdt m' l' m'' l'') :
    Edited fdt m l m'' l'' where
  loaded := h'.loaded
  same := h.same.trans (h.totalsize ▸ h'.same)
  totalsize := h'.totalsize.trans h.totalsize
  rest := by rw [h'.rest, h.rest]
  strings := h.strings.trans h'.strings

theorem offDtStruct (h : Edited fdt m l m' l') : l'.offDtStruct = l.offDtStruct := by
  rw [h.rest]
  rfl

/-- The free space pays for what the blocks gain. -/
theorem length_free (h : Edited fdt m l m' l') :
    l'.structs.length + l'.strings.length + l'.free.length
      = l.structs.length + l.strings.length + l.free.length := by
  have htotal := h.totalsize
  have hfront : l'.front = l.front := by rw [h.rest]
  have hgap : l'.gap = l.gap := by rw [h.rest]
  simp only [Layout.totalsize, Layout.offDtStrings, Layout.offDtStruct, hfront, hgap] at htotal
  omega

end Edited

/-! ## Words of the header -/

/-- A word elsewhere is set. -/
theorem has_st32 (h : Has m n xs) (hd : n + xs.length ≤ k ∨ k + 4 ≤ n) : Has (m.st32 k x) n xs :=
  h.write_of_disjoint hd

/-- **A word of a list of words is set.** -/
theorem has_setWord (h : Has m n (ws.flatMap be32 ++ xs)) (hk : k < ws.length) :
    Has (m.st32 (n + 4 * k) x) n ((ws.set k x).flatMap be32 ++ xs) := by
  have hsplit : ws = ws.take k ++ ws[k] :: ws.drop (k + 1) := by simp
  have hset : ws.set k x = ws.take k ++ x :: ws.drop (k + 1) := by
    rw [List.set_eq_take_append_cons_drop, if_pos hk]
  rw [hsplit] at h
  rw [hset]
  simp only [List.flatMap_append, List.flatMap_cons, List.append_assoc] at h ⊢
  refine h.write_middle ?_ rfl
  rw [length_flatMap_be32, List.length_take_of_le (Nat.le_of_lt hk)]

/-! ## The bytes of a blob, by places -/

namespace Layout

@[simp] theorem length_header (l : Layout) : l.header.length = 10 := rfl

theorem bytes_of_structs (l : Layout) (hs : l.structs = a ++ (b ++ c)) :
    l.bytes = (l.header.flatMap be32 ++ (l.front ++ a)) ++
      (b ++ ((c ++ (l.gap ++ l.strings)) ++ l.free)) := by
  simp only [bytes, hs, List.append_assoc]

theorem bytes_of_free (l : Layout) : l.bytes = l.header.flatMap be32 ++
    ((l.front ++ (l.structs ++ (l.gap ++ l.strings))) ++ l.free) := by
  simp only [bytes, List.append_assoc]

theorem offDtStrings_eq (l : Layout) (hs : l.structs = a ++ (b ++ c)) :
    l.offDtStrings = l.offDtStruct + (a.length + (b.length + c.length)) + l.gap.length := by
  rw [offDtStrings, hs, List.length_append, List.length_append]

end Layout

namespace Loaded

variable (h : Loaded m fdt l)

include h

/-- **An edit** is what leaves a blob of the same size. -/
theorem edited_of_has {structs strings free : List Byte}
    (hlen : structs.length + strings.length + free.length
      = l.structs.length + l.strings.length + l.free.length)
    (hstrings : l.strings <+: strings) (hsame : SameOutside fdt l.totalsize m m')
    (hhas : Has m' fdt
      (Layout.bytes { l with structs := structs, strings := strings, free := free })) :
    Edited fdt m l m' { l with structs := structs, strings := strings, free := free } := by
  have htotal : Layout.totalsize { l with structs := structs, strings := strings, free := free }
      = l.totalsize := by
    simp only [Layout.totalsize, Layout.offDtStrings, Layout.offDtStruct]
    omega
  exact
    { loaded := ⟨hhas, htotal ▸ h.totalsize_lt, h.lastCompVersion_le, h.le_offMemRsvmap,
        h.offMemRsvmap_le, h.aligned, htotal ▸ h.bound⟩
      same := hsame
      totalsize := htotal
      rest := rfl
      strings := hstrings }

/-! ## Stores into a block -/

/-- **A part of the structure block is overwritten.** -/
theorem write_structs (hs : l.structs = a ++ (b ++ c)) (hlen : b'.length = b.length) :
    Edited fdt m l (m.write (fdt + l.offDtStruct + a.length) b')
      { l with structs := a ++ (b' ++ c) } := by
  have hsize : (a ++ (b' ++ c)).length = l.structs.length := by
    simp only [hs, List.length_append, hlen]
  have hoff : l.offDtStruct + (a.length + (b.length + c.length)) ≤ l.offDtStrings := by
    simpa only [hs, List.length_append] using l.offDtStruct_le
  have hle := l.offDtStrings_le
  have hheader : Layout.header { l with structs := a ++ (b' ++ c) } = l.header := by
    simp only [Layout.header, Layout.totalsize, Layout.offDtStrings, Layout.offDtStruct, hsize]
  have hhas := h.has
  rw [l.bytes_of_structs hs] at hhas
  refine h.edited_of_has (by rw [hsize]) List.prefix_rfl
    (SameOutside.write _ (by omega) (by omega)) ?_
  rw [Layout.bytes_of_structs _ rfl, hheader]
  refine hhas.write_middle ?_ hlen
  rw [List.length_append, List.length_append, length_flatMap_be32, l.length_header,
    Layout.offDtStruct]
  omega

/-- **A string is appended**: the free space starts behind it. -/
theorem appendString (xs : List Byte) (hroom : xs.length ≤ l.free.length) :
    Edited fdt m l ((m.st32 (fdt + 32) (l.strings.length + xs.length)).write
        (fdt + l.offDtStrings + l.strings.length) xs)
      { l with strings := l.strings ++ xs, free := l.free.drop xs.length } := by
  have hsizes := h.sizes
  have hend : l.offDtStrings + l.strings.length + l.free.length = l.totalsize := rfl
  have hlen : xs.length + (l.free.drop xs.length).length = l.free.length := by
    rw [List.length_drop]
    omega
  have hheader : Layout.header { l with strings := l.strings ++ xs, free := l.free.drop xs.length }
      = l.header.set 8 (l.strings.length + xs.length) := by
    simp only [Layout.header, Layout.totalsize, Layout.offDtStrings, Layout.offDtStruct,
      List.set_cons_succ, List.set_cons_zero, List.length_append, Nat.add_assoc, hlen]
  have hbytes :
      Layout.bytes { l with strings := l.strings ++ xs, free := l.free.drop xs.length }
        = ((l.header.set 8 (l.strings.length + xs.length)).flatMap be32 ++
          (l.front ++ (l.structs ++ (l.gap ++ l.strings)))) ++ (xs ++ l.free.drop xs.length) := by
    rw [Layout.bytes_of_free, hheader]
    simp only [List.append_assoc]
  have hhas := h.has
  rw [l.bytes_of_free, ← List.take_append_drop xs.length l.free] at hhas
  have hset := has_setWord (k := 8) (x := l.strings.length + xs.length) hhas (by simp)
  rw [← List.append_assoc] at hset
  refine h.edited_of_has (by rw [List.length_append]; omega) (List.prefix_append _ _)
    ((SameOutside.write _ (by omega) (by rw [length_be32]; omega)).trans
      (SameOutside.write _ (by omega) (by omega))) ?_
  rw [hbytes]
  refine hset.write_middle ?_ (List.length_take_of_le hroom).symm
  simp only [List.length_append, length_flatMap_be32, List.length_set, Layout.length_header]
  unfold Layout.offDtStrings Layout.offDtStruct
  omega

/-! ## Splices -/

theorem dataSize_eq : fdtDataSize m fdt = l.offDtStrings + l.strings.length := by
  have hsizes := h.sizes
  rw [fdtDataSize, h.offDtStrings_eq, h.sizeDtStrings_eq]
  exact uint_eq (by omega) (by omega)

/-- **`fdt_splice_`** moves what is behind the part, up to the end of the strings. -/
theorem splice_eq (hs : l.structs = a ++ (b ++ c)) (hroom : n ≤ b.length + l.free.length) :
    fdtSplice m fdt (fdt + l.offDtStruct + a.length) (b.length : ℕ) (n : ℕ)
      = (0, m.write (fdt + l.offDtStruct + a.length + n) (c ++ (l.gap ++ l.strings))) := by
  have hsizes := h.sizes
  have htotal : l.totalsize = l.offDtStrings + l.strings.length + l.free.length := rfl
  have hstructs := l.offDtStrings_eq hs
  have hgrow : uint (((l.offDtStrings + l.strings.length : ℕ) : ℤ) + (n : ℕ))
      = l.offDtStrings + l.strings.length + n := uint_eq (by omega) (by omega)
  have hold : uint (b.length : ℕ) = b.length := uint_eq rfl (by omega)
  have hnew : uint (((l.offDtStrings + l.strings.length : ℕ) : ℤ) - (b.length : ℕ) + (n : ℕ))
      = l.offDtStrings + l.strings.length - b.length + n := uint_eq (by omega) (by omega)
  have hdest : (((fdt + l.offDtStruct + a.length : ℕ) : ℤ) + (n : ℕ)).toNat
      = fdt + l.offDtStruct + a.length + n := by omega
  have hsrc : (((fdt + l.offDtStruct + a.length : ℕ) : ℤ) + (b.length : ℕ)).toNat
      = fdt + l.offDtStruct + a.length + b.length := by omega
  have hmoved : Has m (fdt + l.offDtStruct + a.length + b.length) (c ++ (l.gap ++ l.strings)) := by
    have hhas := h.has
    rw [l.bytes_of_structs hs] at hhas
    have hright := hhas.right.right.left
    simp only [List.length_append, length_flatMap_be32, Layout.length_header] at hright
    have hoff : fdt + (4 * 10 + (l.front.length + a.length)) + b.length
        = fdt + l.offDtStruct + a.length + b.length := by
      rw [Layout.offDtStruct]
      omega
    rwa [hoff] at hright
  have hcount : fdt + (l.offDtStrings + l.strings.length) -
      (fdt + l.offDtStruct + a.length + b.length) = (c ++ (l.gap ++ l.strings)).length := by
    simp only [List.length_append]
    omega
  simp only [fdtSplice, h.dataSize_eq, h.totalsize_eq, hgrow, hold, hnew, hdest, hsrc]
  rw [if_neg (by omega), if_neg (by omega), if_neg (by omega), hcount, memmove_eq,
    hmoved.read_eq rfl]

/-- There is not enough free space: nothing is stored. -/
theorem spliceStruct_nospace {p : ℕ} (hp : p = fdt + l.offDtStruct + a.length)
    (hs : l.structs = a ++ (b ++ c)) (hroom : b.length + l.free.length < n) (hn : n < 0x80000000) :
    fdtSpliceStruct m fdt p (b.length : ℕ) (n : ℕ) = (FdtErr.nospace.code, m) := by
  subst hp
  have hsizes := h.sizes
  have htotal : l.totalsize = l.offDtStrings + l.strings.length + l.free.length := rfl
  have hstructs := l.offDtStrings_eq hs
  have hgrow : uint (((l.offDtStrings + l.strings.length : ℕ) : ℤ) + (n : ℕ))
      = l.offDtStrings + l.strings.length + n := uint_eq (by omega) (by omega)
  have hold : uint (b.length : ℕ) = b.length := uint_eq rfl (by omega)
  have hnew : uint (((l.offDtStrings + l.strings.length : ℕ) : ℤ) - (b.length : ℕ) + (n : ℕ))
      = l.offDtStrings + l.strings.length - b.length + n := uint_eq (by omega) (by omega)
  have hsplice : fdtSplice m fdt (fdt + l.offDtStruct + a.length) (b.length : ℕ) (n : ℕ)
      = (FdtErr.nospace.code, m) := by
    simp only [fdtSplice, h.dataSize_eq, h.totalsize_eq, hgrow, hold, hnew]
    rw [if_neg (by omega), if_neg (by omega), if_pos (by omega)]
  simp only [fdtSpliceStruct, hsplice, FdtErr.code]

/-- The stores of `fdt_splice_struct_`: two words of the header, and what moves. -/
theorem exists_spliceStruct_stores (hs : l.structs = a ++ (b ++ c))
    (hroom : n ≤ b.length + l.free.length) :
    ∃ m', fdtSpliceStruct m fdt (fdt + l.offDtStruct + a.length) (b.length : ℕ) (n : ℕ) = (0, m') ∧
      SameOutside fdt l.totalsize m m' ∧
      Has m' fdt (((l.header.set 9 (a.length + n + c.length)).set 3
        (l.offDtStrings + n - b.length)).flatMap be32 ++ (l.front ++ a)) ∧
      Has m' (fdt + l.offDtStruct + a.length) (b.take n) ∧
      Has m' (fdt + l.offDtStruct + a.length + n) (c ++ (l.gap ++ l.strings)) := by
  have hsizes := h.sizes
  have htotal : l.totalsize = l.offDtStrings + l.strings.length + l.free.length := rfl
  have hlen : l.structs.length = a.length + (b.length + c.length) := by
    rw [hs, List.length_append, List.length_append]
  have hlenmoved : (c ++ (l.gap ++ l.strings)).length
      = c.length + (l.gap.length + l.strings.length) := by
    rw [List.length_append, List.length_append]
  have hstructs := l.offDtStrings_eq hs
  have hoff : l.offDtStruct = 40 + l.front.length := rfl
  have hx : uint ((l.structs.length : ℤ) + ((n : ℤ) - (b.length : ℕ))) = a.length + n + c.length :=
    uint_eq (by omega) (by omega)
  have hy : uint ((l.offDtStrings : ℤ) + ((n : ℤ) - (b.length : ℕ)))
      = l.offDtStrings + n - b.length := uint_eq (by omega) (by omega)
  have hhas := h.has
  rw [l.bytes_of_structs hs] at hhas
  -- the move
  obtain ⟨m₁, hm₁⟩ : ∃ m₁ : Mem, m.write (fdt + l.offDtStruct + a.length + n)
    (c ++ (l.gap ++ l.strings)) = m₁ := ⟨_, rfl⟩
  have hmoved : Has m₁ (fdt + l.offDtStruct + a.length + n) (c ++ (l.gap ++ l.strings)) :=
    hm₁ ▸ has_write _ _ _
  have hfront : Has m₁ fdt (l.header.flatMap be32 ++ (l.front ++ a)) :=
    hm₁ ▸ hhas.left.write_of_disjoint (.inl (by simp; omega))
  have hlenb : (b.take n).length ≤ n := List.length_take_le n b
  have hkept : Has m₁ (fdt + l.offDtStruct + a.length) (b.take n) := by
    have hb := hhas.right
    rw [← List.take_append_drop n b, List.append_assoc] at hb
    have hat : fdt + (l.header.flatMap be32 ++ (l.front ++ a)).length
        = fdt + l.offDtStruct + a.length := by
      simp only [List.length_append, length_flatMap_be32, Layout.length_header]
      omega
    exact hm₁ ▸ (hat ▸ hb.left).write_of_disjoint (.inl (by omega))
  have hsize : fdtSizeDtStruct m₁ fdt = l.structs.length :=
    ld32_word (k := 9) hfront.left rfl (by omega)
  -- the size of the structure block
  obtain ⟨m₂, hm₂⟩ : ∃ m₂ : Mem, m₁.st32 (fdt + 36) (a.length + n + c.length) = m₂ := ⟨_, rfl⟩
  have hmoved' : Has m₂ (fdt + l.offDtStruct + a.length + n) (c ++ (l.gap ++ l.strings)) :=
    hm₂ ▸ has_st32 hmoved (.inr (by omega))
  have hkept' : Has m₂ (fdt + l.offDtStruct + a.length) (b.take n) :=
    hm₂ ▸ has_st32 hkept (.inr (by omega))
  have hfront' := hm₂ ▸ has_setWord (k := 9) (x := a.length + n + c.length) hfront (by simp)
  have hstrings : fdtOffDtStrings m₂ fdt = l.offDtStrings :=
    ld32_word (k := 3) hfront'.left rfl (by omega)
  -- the offset of the strings
  refine ⟨m₂.st32 (fdt + 12) (l.offDtStrings + n - b.length), ?_, ?_,
    has_setWord (k := 3) hfront' (by simp), has_st32 hkept' (.inr (by omega)),
    has_st32 hmoved' (.inr (by omega))⟩
  · simp only [fdtSpliceStruct, h.splice_eq hs hroom, hm₁, hsize, hx, hm₂, hstrings, hy]
  · subst hm₁ hm₂
    exact ((SameOutside.write _ (by omega) (by rw [hlenmoved]; omega)).trans
      (SameOutside.write _ (by omega) (by rw [length_be32]; omega))).trans
        (SameOutside.write _ (by omega) (by rw [length_be32]; omega))

/-- **`fdt_splice_struct_`**: the part `b` of the structure block becomes a hole of another size,
which begins with what was there. -/
theorem exists_spliceStruct (hs : l.structs = a ++ (b ++ c))
    (hroom : n ≤ b.length + l.free.length) :
    ∃ hole free m', hole.length = n ∧ b.take n <+: hole ∧
      fdtSpliceStruct m fdt (fdt + l.offDtStruct + a.length) (b.length : ℕ) (n : ℕ) = (0, m') ∧
        Edited fdt m l m' { l with structs := a ++ (hole ++ c), free := free } := by
  obtain ⟨m', hsplice, hsame, hfront, hkept, hmoved⟩ := h.exists_spliceStruct_stores hs hroom
  have hlen : l.structs.length = a.length + (b.length + c.length) := by
    rw [hs, List.length_append, List.length_append]
  have hstructs := l.offDtStrings_eq hs
  -- the hole and the free space are what happens to be there
  obtain ⟨hole, hlenhole, hprefix, hhole⟩ := hkept.exists_extend (List.length_take_le n b)
  obtain ⟨free, hlenfree, hfree⟩ := exists_has m' (fdt + l.offDtStruct + a.length + n +
    (c ++ (l.gap ++ l.strings)).length) (b.length + l.free.length - n)
  have hsize : (a ++ (hole ++ c)).length = a.length + n + c.length := by
    simp only [List.length_append, hlenhole, Nat.add_assoc]
  have hheader : Layout.header { l with structs := a ++ (hole ++ c), free := free }
      = (l.header.set 9 (a.length + n + c.length)).set 3 (l.offDtStrings + n - b.length) := by
    have hoff : Layout.offDtStrings { l with structs := a ++ (hole ++ c), free := free }
        = l.offDtStrings + n - b.length := by
      simp only [Layout.offDtStrings, Layout.offDtStruct, hsize] at hstructs ⊢
      omega
    have htotal : Layout.totalsize { l with structs := a ++ (hole ++ c), free := free }
        = l.totalsize := by
      rw [Layout.totalsize, hoff, Layout.totalsize, hlenfree]
      dsimp only
      omega
    simp only [Layout.header, htotal, hoff, hsize, List.set_cons_succ, List.set_cons_zero,
      Layout.offDtStruct]
  refine ⟨hole, free, m', hlenhole, hprefix, hsplice,
    h.edited_of_has (by omega) List.prefix_rfl hsame ?_⟩
  rw [Layout.bytes_of_structs _ rfl, hheader]
  have hat : fdt + ((((l.header.set 9 (a.length + n + c.length)).set 3
      (l.offDtStrings + n - b.length)).flatMap be32) ++ (l.front ++ a)).length
        = fdt + l.offDtStruct + a.length := by
    simp only [List.length_append, length_flatMap_be32, List.length_set, Layout.length_header]
    unfold Layout.offDtStruct
    omega
  refine has_append.mpr ⟨hfront, ?_⟩
  rw [hat]
  refine has_append.mpr ⟨hhole, ?_⟩
  rw [hlenhole]
  exact has_append.mpr ⟨hmoved, hfree⟩

end Loaded

end LittleLoader
