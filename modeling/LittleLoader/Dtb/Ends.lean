import LittleLoader.Dtb.Read
import LittleLoader.Foundations.Yields

/-!
# Dtb/Ends — searches that end, whatever is in the memory

    offset ──fdt_next_tag──▸ offset'      offset + 4 ≤ offset' ≤ totalsize, or an error

No blob is assumed here: behind a header that `libfdt` accepts, the bytes may be any.  An offset is
checked before it is followed, and a tag is followed by a higher offset or by an error, so every
loop over the structure block ends before its bound is reached.
-/

namespace LittleLoader

open Memory Mem

variable {m : Mem} {fdt n p tag : ℕ} {o d start next : ℤ} {s k : List Byte}

/-! ## Integers -/

theorem int_eq_add (x : ℤ) : ∃ z, int x = x + z * 0x100000000 := by
  simp only [int, Int.bmod_def]
  split
  · exact ⟨-(x / 0x100000000), by omega⟩
  · exact ⟨-(x / 0x100000000) - 1, by omega⟩

/-! ## Offsets -/

/-- **An offset that is accepted** is inside the blob, and so are the bytes behind it. -/
theorem offsetPtr_bounds (h : fdtOffsetPtr m fdt o n = some p) (ho : o < 0x80000000)
    (hn : n < 0x100000000) :
    0 ≤ o ∧ o + n + fdtOffDtStruct m fdt ≤ fdtTotalsize m fdt ∧ p = fdtOffsetPtrRaw m fdt o ∧
      (17 ≤ fdtVersion m fdt → o + n ≤ fdtSizeDtStruct m fdt) := by
  have hstruct : fdtOffDtStruct m fdt < 0x100000000 := ld32_lt _ _
  rw [fdtOffsetPtr] at h
  by_cases hneg : o < 0
  · rw [if_pos hneg] at h
    cases h
  rw [if_neg hneg] at h
  by_cases hout : uint (o + fdtOffDtStruct m fdt) < uint o ∨
      uint (uint (o + fdtOffDtStruct m fdt) + n) < uint (o + fdtOffDtStruct m fdt) ∨
      uint (uint (o + fdtOffDtStruct m fdt) + n) > fdtTotalsize m fdt
  · rw [if_pos hout] at h
    cases h
  rw [if_neg hout] at h
  by_cases hblock : fdtVersion m fdt ≥ 0x11 ∧
      (uint (uint o + n) < uint o ∨ uint (o + n) > fdtSizeDtStruct m fdt)
  · rw [if_pos hblock] at h
    cases h
  rw [if_neg hblock] at h
  obtain rfl := Option.some.inj h
  simp only [uint] at hout hblock
  refine ⟨not_lt.mp hneg, by omega, rfl, fun hversion => ?_⟩
  have hblock := not_and.mp hblock hversion
  omega

/-- **What a search needs of the header**: no size is too large for an `int`. -/
structure Readable (m : Mem) (fdt : ℕ) : Prop where
  totalsize_le : fdtTotalsize m fdt ≤ intMax
  le_offDtStruct : 28 ≤ fdtOffDtStruct m fdt
  bound : fdt + fdtTotalsize m fdt ≤ 0x10000000000000000

/-- **A tag that takes `k` bytes**: the name of a node ends inside them, and so does the value of a
property. -/
structure TagSize (m : Mem) (fdt tag : ℕ) (start : ℤ) (k : ℕ) : Prop where
  le : 4 ≤ k
  name : tag = fdtBeginNode → 5 ≤ k ∧ m (fdtOffsetPtrRaw m fdt (start + k - 1)) = 0#8
  prop : tag = fdtProp → m.ld32 (fdtOffsetPtrRaw m fdt start + 4) + sizeofProperty ≤ k ∧
    (fdtVersion m fdt < 0x10 ∧ (start + sizeofProperty) % 8 ≠ 0 ∧
      m.ld32 (fdtOffsetPtrRaw m fdt start + 4) ≥ 8 →
        m.ld32 (fdtOffsetPtrRaw m fdt start + 4) + sizeofProperty + 4 ≤ k)
  endNode : tag = fdtEndNode → k = 4

/-- **A tag that is followed by an offset** is inside the blob, up to its padding. -/
def TagEnds (m : Mem) (fdt tag : ℕ) (start next : ℤ) : Prop :=
  ∃ k : ℕ, TagSize m fdt tag start k ∧ 0 ≤ start ∧
    start + k + fdtOffDtStruct m fdt ≤ fdtTotalsize m fdt ∧
    (17 ≤ fdtVersion m fdt → start + k ≤ fdtSizeDtStruct m fdt) ∧
    next % 4 = 0 ∧ start + k ≤ next ∧ next < start + k + 4

theorem TagEnds.bounds (htag : TagEnds m fdt tag start next) (hstruct : 28 ≤ fdtOffDtStruct m fdt) :
    0 ≤ start ∧ start + 4 ≤ next ∧ next < fdtTotalsize m fdt := by
  obtain ⟨k, hsize, hpos, hend, -, -, hle, hlt⟩ := htag
  have hk := hsize.le
  omega

/-- **The rounds that are left** are enough for what is left of the blob. -/
def Enough (m : Mem) (fdt n : ℕ) (o : ℤ) : Prop :=
  1 ≤ n ∧ (0 ≤ o → o < 0x80000000 ∧ 2 ≤ n ∧ fdtTotalsize m fdt + 8 ≤ o + 4 * n)

theorem offsetPtrRaw_add (ho : 0 ≤ o) (n : ℕ) :
    fdtOffsetPtrRaw m fdt (o + n) = fdtOffsetPtrRaw m fdt o + n := by
  unfold fdtOffsetPtrRaw
  omega

theorem offsetPtrRaw_le (m : Mem) (fdt : ℕ) (ho : 0 ≤ o) : fdt + fdtOffDtStruct m fdt ≤ fdtOffsetPtrRaw m fdt o := by
  unfold fdtOffsetPtrRaw
  omega

namespace Readable

variable (h : Readable m fdt)

include h

theorem totalsize_lt : fdtTotalsize m fdt < 0x80000000 := Nat.lt_succ_of_le h.totalsize_le

/-! ## Tags -/

/-- The name of a node: its end is found, or it goes on up to the end of the blob. -/
theorem skipName_yields (hn : (fdtTotalsize m fdt : ℤ) ≤ o + n) (ho : o < 0x80000000) :
    Yields (skipName m fdt (n + 1) o) fun x => x.1 = true →
      0 ≤ o ∧ o < x.2 ∧ x.2 + fdtOffDtStruct m fdt ≤ fdtTotalsize m fdt ∧
        m (fdtOffsetPtrRaw m fdt (x.2 - 1)) = 0#8 := by
  have htotal := h.totalsize_lt
  have hstruct := h.le_offDtStruct
  induction n generalizing o with
  | zero =>
    rw [skipName]
    cases hptr : fdtOffsetPtr m fdt o 1 with
    | none => exact .pure fun h => absurd h Bool.false_ne_true
    | some p =>
      have hbounds := offsetPtr_bounds hptr ho (by decide)
      omega
  | succ n ih =>
    rw [skipName]
    cases hptr : fdtOffsetPtr m fdt o 1 with
    | none => exact .pure fun h => absurd h Bool.false_ne_true
    | some p =>
      obtain ⟨hpos, hend, rfl, -⟩ := offsetPtr_bounds hptr ho (by decide)
      refine .ite (fun _ => ?_) fun hnul => .pure fun _ => ⟨hpos, by omega, by omega, ?_⟩
      · refine (ih (o := o + 1) (by push_cast at hn; omega) (by omega)).mono fun x hx hfound => ?_
        obtain ⟨-, hlt, hle, hzero⟩ := hx hfound
        exact ⟨hpos, by omega, hle, hzero⟩
      · rw [Int.add_sub_cancel]
        exact not_not.mp hnul

/-- **The end of a tag**: an `int` may have cut it off. -/
theorem tagEnd_yields (hpos : 0 ≤ start)
    (hend : start + 4 + fdtOffDtStruct m fdt ≤ fdtTotalsize m fdt) :
    Yields (tagEnd m fdt tag (start + fdtTagsize)) fun x => ∀ o ∈ x, ∃ k : ℕ,
      k < 0x100000000 ∧ TagSize m fdt tag start k ∧ ∃ z : ℤ, o = start + k + z * 0x100000000 := by
  have htotal := h.totalsize_lt
  have hsize : (fdtTagsize : ℤ) = 4 := rfl
  rw [tagEnd, hsize]
  refine .ite ?_ fun hname => .ite ?_ fun hprop => .ite ?_ fun _ => .pure fun o ho => absurd ho (Option.not_mem_none o)
  · rintro rfl
    refine (h.skipName_yields (o := start + 4) (by omega) (by omega)).bind ?_
    rintro ⟨found, o⟩ hfound
    refine .pure fun o' ho' => ?_
    cases found with
    | false => cases ho'
    | true =>
      obtain rfl : o = o' := by simpa using ho'
      obtain ⟨-, hlt, hle, hnul⟩ := hfound rfl
      dsimp only at hlt hle hnul
      obtain ⟨k, rfl⟩ : ∃ k : ℕ, o = start + k := ⟨(o - start).toNat, by omega⟩
      exact ⟨k, by omega, ⟨by omega, fun _ => ⟨by omega, hnul⟩, fun h => absurd h (by decide),
        fun h => absurd h (by decide)⟩, 0, by omega⟩
  · rintro rfl
    cases hptr : fdtOffsetPtr m fdt (start + 4) 4 with
    | none => exact .pure fun o ho => absurd ho (Option.not_mem_none o)
    | some lenp =>
      obtain ⟨-, -, rfl, -⟩ := offsetPtr_bounds hptr (by omega) (by decide)
      have hlenp : fdtOffsetPtrRaw m fdt (start + 4) = fdtOffsetPtrRaw m fdt start + 4 :=
        offsetPtrRaw_add hpos 4
      dsimp only
      rw [hlenp]
      generalize hlen : m.ld32 (fdtOffsetPtrRaw m fdt start + 4) = len
      have hlt : len < 0x100000000 := hlen ▸ ld32_lt _ _
      refine .ite (fun _ => .pure fun o ho => absurd ho (Option.not_mem_none o)) fun hfits => .pure fun o ho => ?_
      simp only [uint, intMax] at hfits
      obtain ⟨z, hz⟩ := int_eq_add (start + 4 + (sizeofProperty - fdtTagsize : ℕ) + len)
      rw [hz] at ho
      have hsizes : ((sizeofProperty - fdtTagsize : ℕ) : ℤ) = 8 := rfl
      have hsizeof : sizeofProperty = 12 := rfl
      obtain ho | ⟨hshort, ho⟩ : o = start + 4 + 8 + len + z * 0x100000000 + 4 ∨
          ¬ (fdtVersion m fdt < 0x10 ∧ (start + sizeofProperty) % 8 ≠ 0 ∧ len ≥ 8) ∧
            o = start + 4 + 8 + len + z * 0x100000000 := by
        rw [hsizes] at ho
        obtain rfl := Option.some.inj ho
        split
        · exact .inl rfl
        · exact .inr ⟨by omega, rfl⟩
      · exact ⟨len + 16, by omega, ⟨by omega, fun h => absurd h hname,
          fun _ => ⟨by omega, fun _ => by omega⟩, fun h => absurd h (by decide)⟩, z, by omega⟩
      · exact ⟨len + 12, by omega, ⟨by omega, fun h => absurd h hname,
          fun _ => ⟨by omega, fun h => absurd (hlen ▸ h) hshort⟩, fun h => absurd h (by decide)⟩, z,
          by omega⟩
  · intro _
    refine .pure fun o ho => ?_
    obtain rfl := Option.some.inj ho
    exact ⟨4, by decide, ⟨le_rfl, fun h => absurd h hname, fun h => absurd h hprop, fun _ => rfl⟩,
      0, by omega⟩

/-- **`fdt_next_tag`** finds a tag and a higher offset, or the end and an error. -/
theorem nextTag_yields (hstart : start < 0x80000000) :
    Yields (fdtNextTag m fdt start) fun x =>
      (x.1 = fdtEnd ∧ x.2 < 0) ∨ TagEnds m fdt x.1 start x.2 := by
  have htotal := h.totalsize_lt
  have hstruct := h.le_offDtStruct
  rw [fdtNextTag]
  cases hptr : fdtOffsetPtr m fdt start fdtTagsize with
  | none => exact .pure (.inl ⟨rfl, by decide⟩)
  | some tagp =>
    obtain ⟨hpos, hend, rfl, -⟩ := offsetPtr_bounds hptr hstart (by decide)
    refine (h.tagEnd_yields hpos hend).bind fun x hx => ?_
    cases x with
    | none => exact .pure (.inl ⟨rfl, by decide⟩)
    | some o =>
      obtain ⟨k, hk, hsize, z, rfl⟩ := hx o rfl
      have huint : uint (start + k + z * 0x100000000 - start) = k := by
        unfold uint
        omega
      dsimp only
      rw [huint]
      cases hfit : fdtOffsetPtr m fdt start k with
      | none => exact .pure (.inl ⟨rfl, by decide⟩)
      | some _ =>
        obtain ⟨-, hfit, -, hversion⟩ := offsetPtr_bounds hfit hstart hk
        have hoffset : uint (start + k + z * 0x100000000) = (start + k).toNat := by
          unfold uint
          omega
        have hnext : int (fdtTagalign (start + k).toNat) = fdtTagalign (start + k).toNat :=
          int_eq rfl (by unfold fdtTagalign; omega)
        refine .pure (.inr ⟨k, hsize, hpos, hfit, hversion, ?_⟩)
        dsimp only
        rw [hoffset, hnext]
        unfold fdtTagalign
        omega

/-- `fdt_check_node_offset_`. -/
theorem checkNodeOffset_yields (ho : o < 0x80000000) :
    Yields (fdtCheckNodeOffset m fdt o) fun r => r < 0 ∨ TagEnds m fdt fdtBeginNode o r := by
  rw [fdtCheckNodeOffset]
  refine .ite (fun _ => .pure (.inl (by decide))) fun _ => (h.nextTag_yields ho).bind ?_
  rintro ⟨tag, next⟩ hnext
  refine .pure ?_
  split
  · exact .inl (by decide)
  · rename_i htag
    obtain rfl : tag = fdtBeginNode := not_not.mp htag
    exact hnext.imp_left And.right

/-- `fdt_check_prop_offset_`. -/
theorem checkPropOffset_yields (ho : o < 0x80000000) :
    Yields (fdtCheckPropOffset m fdt o) fun r => r < 0 ∨ TagEnds m fdt fdtProp o r := by
  rw [fdtCheckPropOffset]
  refine .ite (fun _ => .pure (.inl (by decide))) fun _ => (h.nextTag_yields ho).bind ?_
  rintro ⟨tag, next⟩ hnext
  refine .pure ?_
  split
  · exact .inl (by decide)
  · rename_i htag
    obtain rfl : tag = fdtProp := not_not.mp htag
    exact hnext.imp_left And.right

/-! ## Loops over tags -/

theorem enough (ho : o < 0 ∨ 4 ≤ o ∧ o < fdtTotalsize m fdt) :
    Enough m fdt (fdtTotalsize m fdt + 1) o := by
  have htotal := h.totalsize_lt
  constructor <;> omega

theorem enough_step (hn : Enough m fdt (n + 1) o) (ho : 0 ≤ o)
    (hnext : next < 0 ∨ o + 4 ≤ next ∧ next < fdtTotalsize m fdt) : Enough m fdt n next := by
  have htotal := h.totalsize_lt
  obtain ⟨-, hn⟩ := hn
  have hn := hn ho
  constructor <;> omega

/-- **A node, or the end of one**: the end is inside the blob. -/
def NodeFound (m : Mem) (fdt : ℕ) (o : ℤ) (x : ℤ × ℤ) : Prop :=
  x.1 < 0 ∨ o ≤ x.1 ∧ x.1 < fdtTotalsize m fdt ∧ (x.2 < 0 →
    x.1 + fdtOffDtStruct m fdt ≤ fdtTotalsize m fdt ∧
      (17 ≤ fdtVersion m fdt → x.1 ≤ fdtSizeDtStruct m fdt))

/-- The loop of `fdt_next_node`. -/
theorem nextNodeLoop_yields (hn : Enough m fdt n o) (hd : 0 ≤ d) (ho : o < fdtTotalsize m fdt)
    (hmod : o % 4 = 0) : Yields (nextNodeLoop m fdt n o d) (NodeFound m fdt o) := by
  have hstruct := h.le_offDtStruct
  have htotal := h.totalsize_lt
  induction n generalizing o d with
  | zero => exact absurd hn.1 (by decide)
  | succ n ih =>
    rw [nextNodeLoop]
    refine (h.nextTag_yields (by omega)).bind ?_
    rintro ⟨tag, next⟩ hnext
    dsimp only at hnext ⊢
    by_cases htag : TagEnds m fdt tag o next
    · obtain ⟨hpos, hle, hlt⟩ := htag.bounds hstruct
      have hrest {d' : ℤ} (hd' : 0 ≤ d') :
          Yields (nextNodeLoop m fdt n next d') (NodeFound m fdt o) := by
        have hmod' : next % 4 = 0 := by
          obtain ⟨k, -, -, -, -, hmod', -⟩ := htag
          exact hmod'
        refine (ih (h.enough_step hn hpos (.inr ⟨hle, hlt⟩)) hd' hlt hmod').mono ?_
        exact fun x hx => hx.imp_right fun ⟨hle', hrest⟩ => ⟨by omega, hrest⟩
      refine .ite (fun _ => .pure (.inr ⟨le_rfl, ho, fun hneg => ?_⟩)) fun _ =>
        .ite (fun hend => .ite (fun _ => .pure (.inr ⟨?_, hlt, fun _ => ?_⟩)) fun hneg => ?_)
          fun _ => .ite (fun _ => .pure (.inl ?_)) fun _ => hrest hd
      · dsimp only at hneg
        omega
      · dsimp only
        omega
      · -- the end of a node takes no padding
        obtain ⟨k, hsize, -, hfit, hversion, hmod', hle, hpad⟩ := htag
        obtain rfl := hsize.endNode hend
        have hnext : next = o + 4 := by omega
        subst hnext
        exact ⟨hfit, hversion⟩
      · exact hrest (by omega)
      · rw [if_pos (by omega)]
        exact (by decide : FdtErr.notfound.code < 0)
    · obtain ⟨rfl, hneg⟩ := hnext.resolve_right htag
      rw [if_neg (by decide), if_neg (by decide), if_pos rfl, if_neg (by omega)]
      exact .pure (.inl hneg)

/-- **`fdt_next_node`** moves on. -/
theorem nextNode_yields (ho : 0 ≤ o) (hlt : o < 0x80000000) (hd : 0 ≤ d) :
    Yields (fdtNextNode m fdt o d) (NodeFound m fdt (o + 4)) := by
  have hstruct := h.le_offDtStruct
  have htotal := h.totalsize_lt
  rw [fdtNextNode, if_pos ho]
  refine (h.checkNodeOffset_yields hlt).bind fun next hnext => .ite (fun hneg => ?_) fun hpos => ?_
  · exact .pure (.inl hneg)
  · have htag := hnext.resolve_left hpos
    obtain ⟨-, hle, hlt⟩ := htag.bounds hstruct
    obtain ⟨k, hsize, -, hfit, -, hmod, -⟩ := htag
    have hk := hsize.le
    refine (h.nextNodeLoop_yields (h.enough (.inr ⟨by omega, hlt⟩)) hd hlt hmod).mono ?_
    exact fun x hx => hx.imp_right fun ⟨hle', hrest⟩ => ⟨by omega, hrest⟩

/-- The end of a node. -/
def NodeEnd (m : Mem) (fdt : ℕ) (start r : ℤ) : Prop :=
  r < 0 ∨ start + 4 ≤ r ∧ r + fdtOffDtStruct m fdt ≤ fdtTotalsize m fdt ∧
    (17 ≤ fdtVersion m fdt → r ≤ fdtSizeDtStruct m fdt)

/-- The loop of `fdt_node_end_offset_`. -/
theorem nodeEndLoop_yields (hn : Enough m fdt n o) (ho : o < 0 ∨ start ≤ o)
    (hd : 0 ≤ d ∨ NodeEnd m fdt start o) :
    Yields (nodeEndLoop m fdt n o d) (NodeEnd m fdt start) := by
  induction n generalizing o d with
  | zero => exact absurd hn.1 (by decide)
  | succ n ih =>
    rw [nodeEndLoop]
    refine .ite (fun hgo => ?_) fun hstop => .pure ?_
    · refine (h.nextNode_yields hgo.1 (hn.2 hgo.1).1 hgo.2).bind ?_
      rintro ⟨o', d'⟩ hfound
      rcases hfound with hneg | ⟨hle, hlt, hend⟩
      · exact ih (h.enough_step hn hgo.1 (.inl hneg)) (.inl hneg) (.inr (.inl hneg))
      · have hstart : start + 4 ≤ o' := by
          dsimp only at hle
          omega
        refine ih (h.enough_step hn hgo.1 (.inr ⟨hle, hlt⟩)) (.inr (by omega)) ?_
        rcases Int.lt_or_le d' 0 with hd' | hd'
        · exact .inr (.inr ⟨hstart, hend hd'⟩)
        · exact .inl hd'
    · by_cases hneg : o < 0
      · exact .inl hneg
      · exact hd.resolve_left fun hd => hstop ⟨not_lt.mp hneg, hd⟩

/-- **`fdt_node_end_offset_`**: a node that is found ends inside the blob. -/
theorem nodeEndOffset_yields (ho : o < 0x80000000) :
    Yields (fdtNodeEndOffset m fdt o) fun r => r < 0 ∨ 0 ≤ o ∧ o + 4 ≤ r ∧
      r + fdtOffDtStruct m fdt ≤ fdtTotalsize m fdt ∧
      (17 ≤ fdtVersion m fdt → r ≤ fdtSizeDtStruct m fdt) := by
  by_cases hneg : o < 0
  · rw [fdtNodeEndOffset, nodeEndLoop, if_neg (by omega)]
    exact .pure (.inl hneg)
  · have hend : Yields (fdtNodeEndOffset m fdt o) (NodeEnd m fdt o) :=
      h.nodeEndLoop_yields ⟨by omega, fun _ => by omega⟩ (.inr le_rfl) (.inl le_rfl)
    exact hend.mono fun r hr => hr.imp_right fun hr => ⟨not_lt.mp hneg, hr⟩

/-! ## Names -/

omit h in
/-- A string that ends. -/
theorem strlenLoop_yields {a i : ℕ} (hnul : m (a + i) = 0#8) (hi : i < n) :
    Yields (m.strlenLoop n a) (· ≤ i) := by
  induction n generalizing a i with
  | zero => omega
  | succ n ih =>
    rw [strlenLoop]
    refine .ite (fun _ => .pure (Nat.zero_le i)) fun hne => ?_
    cases i with
    | zero => exact absurd hnul hne
    | succ i =>
      obtain ⟨len, hlen, hle⟩ := ih (a := a + 1) (i := i) (by rwa [Nat.add_assoc, Nat.add_comm 1])
        (by omega)
      rw [hlen]
      exact .ok (Nat.succ_le_succ hle)

omit h in
/-- The last place of a character in a string that ends. -/
theorem strrchrLoop_yields {a i : ℕ} {c : Byte} {last : Option ℕ} (hnul : m (a + i) = 0#8)
    (hi : i < n) :
    Yields (m.strrchrLoop c n last a) fun r => r = last ∨ ∃ j < i, r = some (a + j) := by
  induction n generalizing a i last with
  | zero => omega
  | succ n ih =>
    rw [strrchrLoop]
    refine .ite (fun _ => .pure (.inl rfl)) fun hne => ?_
    cases i with
    | zero => exact absurd hnul hne
    | succ i =>
      refine (ih (by rwa [Nat.add_assoc, Nat.add_comm 1]) (by omega)).mono ?_
      rintro r (rfl | ⟨j, hj, rfl⟩)
      · split_ifs
        · exact .inr ⟨0, by omega, rfl⟩
        · exact .inl rfl
      · exact .inr ⟨j + 1, by omega, by rw [Nat.add_assoc, Nat.add_comm 1]⟩

/-- **The name of a node** ends inside the node, and begins with it from version 16 on. -/
theorem getName_yields (ho : o < 0x80000000) :
    Yields (fdtGetName m fdt o) fun x => (x.1 = none ∧ x.2 < 0) ∨ ∃ i len : ℕ,
      x = (some (fdtOffsetPtrRaw m fdt o + 4 + i), (len : ℤ)) ∧ 0 ≤ o ∧
        o + 5 + i + len + fdtOffDtStruct m fdt ≤ fdtTotalsize m fdt ∧
        (17 ≤ fdtVersion m fdt → i = 0 ∧ o + 5 + len ≤ fdtSizeDtStruct m fdt) := by
  have hbound := h.bound
  rw [fdtGetName]
  refine .ite (fun hprobe => .pure (.inl ⟨rfl, hprobe⟩)) fun _ =>
    (h.checkNodeOffset_yields ho).bind fun next hnext =>
      .ite (fun hneg => .pure (.inl ⟨rfl, hneg⟩)) fun hpos => ?_
  obtain ⟨k, hsize, hstart, hend, hversion, -⟩ := hnext.resolve_left hpos
  obtain ⟨hk, hnul⟩ := hsize.name rfl
  have hraw : fdtOffsetPtrRaw m fdt (o + k - 1) = fdtOffsetPtrRaw m fdt o + 4 + (k - 5) := by
    unfold fdtOffsetPtrRaw
    omega
  have hlast : fdtOffsetPtrRaw m fdt o + k ≤ 0x10000000000000000 := by
    unfold fdtOffsetPtrRaw
    omega
  rw [hraw] at hnul
  have htag : fdtTagsize = 4 := rfl
  rw [htag]
  refine .ite (fun hold => ?_) fun _ => ?_
  · refine (strrchrLoop_yields hnul (by omega)).bind ?_
    rintro r (rfl | ⟨j, hj, rfl⟩)
    · exact .pure (.inl ⟨rfl, by decide⟩)
    · have hrest : m (fdtOffsetPtrRaw m fdt o + 4 + j + 1 + (k - 6 - j)) = 0#8 := by
        rw [← hnul]
        congr 1
        omega
      refine (strlenLoop_yields hrest (by omega)).bind fun len hlen => .pure (.inr ?_)
      exact ⟨j + 1, len, rfl, hstart, by omega, fun hv => by omega⟩
  · refine (strlenLoop_yields hnul (by omega)).bind fun len hlen => .pure (.inr ?_)
    refine ⟨0, len, rfl, hstart, by omega, fun hv => ⟨rfl, ?_⟩⟩
    have hstruct := hversion hv
    omega

theorem nodenameEq_yields (ho : o < 0x80000000) (hs : n ≤ s.length) :
    Yields (fdtNodenameEq m fdt o s n) fun _ => True := by
  rw [fdtNodenameEq]
  refine (h.getName_yields ho).bind ?_
  rintro ⟨p, olen⟩ hname
  rcases hname with ⟨rfl, -⟩ | ⟨i, len, heq, -⟩
  · exact .pure trivial
  · cases heq
    obtain ⟨r, hr, -⟩ := exists_memcmp (m := m) (p := fdtOffsetPtrRaw m fdt o + 4 + i) hs
    refine .ite (fun _ => .pure trivial) fun _ => ?_
    rw [hr, ok_bind]
    refine .ite (fun _ => .pure trivial) fun _ => .ite (fun _ => .pure trivial) fun _ => ?_
    rw [memchrObj_eq hs, ok_bind]
    exact .pure trivial

/-! ## Paths -/

/-- The loop of `fdt_subnode_offset_namelen`. -/
theorem subnodeLoop_yields (hs : n ≤ s.length) {fuel : ℕ} (hn : Enough m fdt fuel o) :
    Yields (subnodeLoop m fdt s n fuel o d) (· < 0x80000000) := by
  induction fuel generalizing o d with
  | zero => exact absurd hn.1 (by decide)
  | succ fuel ih =>
    rw [subnodeLoop]
    refine .ite (fun hgo => ?_) fun hstop => .ite (fun _ => .pure (by decide)) fun hd => .pure ?_
    · have hlt := (hn.2 hgo.1).1
      have hrest : Yields (fdtNextNode m fdt o d >>= fun x => subnodeLoop m fdt s n fuel x.1 x.2)
          (· < 0x80000000) :=
        (h.nextNode_yields hgo.1 hlt hgo.2).bind fun x hx =>
          ih (h.enough_step hn hgo.1 (hx.imp_right fun hf => ⟨hf.1, hf.2.1⟩))
      refine .ite (fun _ => (h.nodenameEq_yields hlt hs).bind fun b _ => ?_) fun _ => hrest
      exact .ite (fun _ => .pure hlt) fun _ => hrest
    · omega

/-- `fdt_subnode_offset_namelen`. -/
theorem subnodeOffset_yields (hs : n ≤ s.length) (ho : o < 0x80000000) :
    Yields (fdtSubnodeOffsetNamelen m fdt o s n) (· < 0x80000000) := by
  rw [fdtSubnodeOffsetNamelen]
  refine .ite (fun hprobe => .pure (by omega)) fun _ =>
    h.subnodeLoop_yields hs ⟨by omega, fun _ => by omega⟩

/-- The loop of `fdt_path_offset_namelen`. -/
theorem pathLoop_yields (hs : s.length < n) (ho : o < 0x80000000) :
    Yields (pathLoop m fdt n s o) (· < 0x80000000) := by
  induction n generalizing s o with
  | zero => omega
  | succ n ih =>
    rw [pathLoop]
    refine .ite (fun _ => .pure ho) fun _ => ?_
    dsimp only
    generalize hrest : s.dropWhile (· = chr '/') = k
    have hk : k.length ≤ s.length := hrest ▸ (List.dropWhile_suffix _).length_le
    refine .ite (fun _ => .pure ho) fun hne => ?_
    have hname : (k.takeWhile (· ≠ chr '/')).length ≤ k.length :=
      (List.takeWhile_prefix _).length_le
    refine (h.subnodeOffset_yields hname ho).bind fun x hx =>
      .ite (fun _ => .pure hx) fun _ => ih ?_ hx
    rw [List.length_drop]
    have hpos : 0 < (k.takeWhile (· ≠ chr '/')).length := by
      obtain ⟨c, d, rfl⟩ := List.exists_cons_of_length_pos (Nat.pos_of_ne_zero hne)
      have hc := List.head?_dropWhile_not (· = chr '/') s
      rw [hrest] at hc
      rw [List.takeWhile_cons_of_pos (by simpa using hc), List.length_cons]
      exact Nat.succ_pos _
    omega

/-- `fdt_path_offset` of a path that begins with `/`. -/
theorem absolutePathOffset_yields (s : List Byte) :
    Yields (fdtAbsolutePathOffset m fdt s) (· < 0x80000000) := by
  rw [fdtAbsolutePathOffset]
  exact .ite (fun _ => .pure (by omega)) fun _ => h.pathLoop_yields (Nat.lt_succ_self _) (by decide)

/-! ## Properties -/

/-- `nextprop_`. -/
theorem nextprop_yields (hn : Enough m fdt n o) (ho : o < fdtTotalsize m fdt) :
    Yields (nextprop m fdt n o) fun r => r < 0 ∨ o ≤ r ∧ r < fdtTotalsize m fdt := by
  have hstruct := h.le_offDtStruct
  have htotal := h.totalsize_lt
  induction n generalizing o with
  | zero => exact absurd hn.1 (by decide)
  | succ n ih =>
    rw [nextprop]
    refine (h.nextTag_yields (by omega)).bind ?_
    rintro ⟨tag, next⟩ hnext
    refine .ite (fun _ => .pure ?_) fun hend => .ite (fun _ => .pure (.inr ⟨le_rfl, ho⟩)) fun _ =>
      .ite (fun _ => ?_) fun _ => .pure (.inl (by decide))
    · split
      · exact .inl (by decide)
      · exact .inl (by omega)
    · have htag := hnext.resolve_left fun hx => hend hx.1
      obtain ⟨hpos, hle, hlt⟩ := htag.bounds hstruct
      refine (ih (h.enough_step hn hpos (.inr ⟨hle, hlt⟩)) hlt).mono ?_
      exact fun r hr => hr.imp_right fun hr => ⟨by dsimp only at hle; omega, hr.2⟩

/-- `fdt_first_property_offset`. -/
theorem firstPropertyOffset_yields (ho : o < 0x80000000) :
    Yields (fdtFirstPropertyOffset m fdt o) fun r =>
      r < 0 ∨ 4 ≤ r ∧ r < fdtTotalsize m fdt := by
  have hstruct := h.le_offDtStruct
  rw [fdtFirstPropertyOffset]
  refine (h.checkNodeOffset_yields ho).bind fun next hnext =>
    .ite (fun hneg => .pure (.inl hneg)) fun hpos => ?_
  obtain ⟨hstart, hle, hlt⟩ := (hnext.resolve_left hpos).bounds hstruct
  refine (h.nextprop_yields (h.enough (.inr ⟨by omega, hlt⟩)) hlt).mono ?_
  exact fun r hr => hr.imp_right fun hr => ⟨by omega, hr.2⟩

/-- `fdt_next_property_offset`. -/
theorem nextPropertyOffset_yields (ho : o < 0x80000000) :
    Yields (fdtNextPropertyOffset m fdt o) fun r =>
      r < 0 ∨ o + 4 ≤ r ∧ r < fdtTotalsize m fdt := by
  have hstruct := h.le_offDtStruct
  rw [fdtNextPropertyOffset]
  refine (h.checkPropOffset_yields ho).bind fun next hnext =>
    .ite (fun hneg => .pure (.inl hneg)) fun hpos => ?_
  obtain ⟨hstart, hle, hlt⟩ := (hnext.resolve_left hpos).bounds hstruct
  refine (h.nextprop_yields (h.enough (.inr ⟨by omega, hlt⟩)) hlt).mono ?_
  exact fun r hr => hr.imp_right fun hr => ⟨by omega, hr.2⟩

omit h in
theorem stringEq_yields (hs : n ≤ s.length) : Yields (fdtStringEq m fdt o s n) fun _ => True := by
  rw [fdtStringEq]
  rcases fdtGetString m fdt o with ⟨_ | p, slen⟩
  · exact .pure trivial
  · refine .ite (fun _ => .pure trivial) fun _ => ?_
    obtain ⟨r, hr, -⟩ := exists_memcmp (m := m) (p := p) hs
    rw [hr, ok_bind]
    exact .pure trivial

/-- **A property** that is found: it is behind the tag of its node, and its value is in the blob. -/
def PropFound (m : Mem) (fdt : ℕ) (x : Option ℕ × ℤ) : Prop :=
  (x.1 = none ∧ x.2 < 0) ∨ ∃ (o : ℤ) (len : ℕ), x = (some (fdtOffsetPtrRaw m fdt o), (len : ℤ)) ∧
    len = m.ld32 (fdtOffsetPtrRaw m fdt o + 4) ∧ 4 ≤ o ∧
    (fdtVersion m fdt < 0x10 ∧ (o + sizeofProperty) % 8 ≠ 0 ∧ len ≥ 8 →
      o + sizeofProperty + 4 + len + fdtOffDtStruct m fdt ≤ fdtTotalsize m fdt) ∧
    o + sizeofProperty + len + fdtOffDtStruct m fdt ≤ fdtTotalsize m fdt ∧
    (17 ≤ fdtVersion m fdt → o + sizeofProperty + len ≤ fdtSizeDtStruct m fdt)

/-- The loop of `fdt_get_property_namelen_`. -/
theorem propertyLoop_yields (hs : n ≤ s.length) {fuel : ℕ} (hn : Enough m fdt fuel o)
    (ho : o < 0 ∨ 4 ≤ o) : Yields (propertyLoop m fdt s n fuel o) (PropFound m fdt) := by
  have htotal := h.totalsize_lt
  induction fuel generalizing o with
  | zero => exact absurd hn.1 (by decide)
  | succ fuel ih =>
    rw [propertyLoop]
    refine .ite (fun hneg => .pure (.inl ⟨rfl, hneg⟩)) fun hpos => ?_
    have hlt := (hn.2 (not_lt.mp hpos)).1
    refine (h.checkPropOffset_yields hlt).bind fun next hnext =>
      .ite (fun _ => .pure (.inl ⟨rfl, by decide⟩)) fun hnext' => ?_
    obtain ⟨k, hsize, -, hend, hversion, -⟩ := hnext.resolve_left hnext'
    obtain ⟨hk, hk'⟩ := hsize.prop rfl
    refine (stringEq_yields hs).bind fun b _ => .ite (fun _ => .pure (.inr ?_)) fun _ => ?_
    · refine ⟨o, _, ?_, rfl, by omega, fun hpad => ?_, by omega, fun hv => ?_⟩
      · rw [int_eq rfl (by omega)]
      · have hend' := hk' hpad
        omega
      · have hstruct := hversion hv
        omega
    · refine (h.nextPropertyOffset_yields hlt).bind fun r hr => ih ?_ (hr.imp_right fun hr => ?_)
      · exact h.enough_step hn (not_lt.mp hpos) hr
      · omega

/-- `fdt_get_property_namelen_`. -/
theorem getPropertyNamelen_yields (hs : n ≤ s.length) (ho : o < 0x80000000) :
    Yields (fdtGetPropertyNamelen m fdt o s n) (PropFound m fdt) := by
  have hstruct := h.le_offDtStruct
  have htotal := h.totalsize_lt
  rw [fdtGetPropertyNamelen]
  refine (h.firstPropertyOffset_yields ho).bind fun r hr => ?_
  exact h.propertyLoop_yields hs (h.enough hr) (hr.imp_right And.left)

/-- **`fdt_get_property`.** -/
theorem getProperty_yields (name : CStr) (ho : o < 0x80000000) :
    Yields (fdtGetProperty m fdt o name.obj) (PropFound m fdt) := by
  rw [fdtGetProperty, name.fetch_strlen, ok_bind]
  exact .ite (fun _ => .pure (.inl ⟨rfl, by decide⟩)) fun _ =>
    h.getPropertyNamelen_yields (by rw [name.length_obj]; omega) ho

/-- **`fdt_getprop_namelen`**: the value is in the blob, behind the tag of its node. -/
theorem getprop_yields (hs : n ≤ s.length) (ho : o < 0x80000000) :
    Yields (fdtGetprop m fdt o s n) fun x => x.1 = none ∨
      ∃ p len : ℕ, x = (some p, (len : ℤ)) ∧ fdt + fdtOffDtStruct m fdt + 16 ≤ p ∧
        p + len ≤ fdt + fdtTotalsize m fdt := by
  rw [fdtGetprop]
  refine (h.getPropertyNamelen_yields hs ho).bind ?_
  rintro ⟨prop, len⟩ hfound
  rcases hfound with ⟨hnone, -⟩ | ⟨o', l, heq, hl, ho', hpad, hend, -⟩
  · obtain rfl : prop = none := hnone
    exact .pure (.inl rfl)
  · cases heq
    have hsizeof : sizeofProperty = 12 := rfl
    have hplace (s : ℕ) : (fdt + s + o').toNat - (fdt + s + (0 : ℤ)).toNat = o'.toNat ∧
        ((fdt + s + o').toNat : ℤ) = fdt + s + o' := by omega
    obtain ⟨hplace, hraw⟩ := hplace (fdtOffDtStruct m fdt)
    rw [← fdtOffsetPtrRaw] at hplace hraw
    rw [← fdtOffsetPtrRaw] at hplace
    dsimp only
    rw [hplace, ← hl]
    refine .ite (fun hc => .pure (.inr ⟨_, l, rfl, by omega, ?_⟩)) fun _ =>
      .pure (.inr ⟨_, l, rfl, by omega, by omega⟩)
    have hend' := hpad ⟨hc.1, by omega, hc.2.2⟩
    omega

/-! ## Paths -/

/-- **`fdt_get_alias_namelen`**: a path that is found ends in the blob. -/
theorem getAliasNamelen_yields (hs : n ≤ s.length) :
    Yields (fdtGetAliasNamelen m fdt s n) fun r =>
      ∀ p ∈ r, ∃ i, m (p + i) = 0#8 ∧ p + i < 0x10000000000000000 := by
  have hnone : ∀ p ∈ (none : Option ℕ), ∃ i, m (p + i) = 0#8 ∧ p + i < 0x10000000000000000 :=
    fun p hp => absurd hp.symm (Option.some_ne_none p)
  rw [fdtGetAliasNamelen]
  refine (h.absolutePathOffset_yields _).bind fun o ho => .ite (fun _ => ?_) fun _ =>
    (h.getprop_yields hs ho).bind ?_
  · exact .pure hnone
  rintro ⟨prop, len⟩ hfound
  rcases hfound with hprop | ⟨p, l, heq, -, hend⟩
  · obtain rfl : prop = none := hprop
    exact .pure hnone
  · cases heq
    refine .pure fun q hq => ?_
    split at hq
    · rename_i hpath
      obtain ⟨hpos, hnul, -⟩ := hpath
      obtain rfl := Option.some.inj hq
      have hlast : ((p : ℤ) + l - 1).toNat = p + (l - 1) := by omega
      have hbound := h.bound
      exact ⟨l - 1, hlast ▸ hnul, by omega⟩
    · exact hnone q hq

/-- **`fdt_path_offset`**, also of a path that begins with an alias. -/
theorem pathOffset_yields (s : List Byte) : Yields (fdtPathOffset m fdt s) (· < 0x80000000) := by
  have hname : (s.takeWhile (· ≠ chr '/')).length ≤ s.length := (List.takeWhile_prefix _).length_le
  rw [fdtPathOffset]
  refine .ite (fun _ => .pure (by omega)) fun _ => .ite (fun _ => .pure (by decide)) fun _ =>
    .ite (fun _ => ?_) fun _ => h.pathLoop_yields (Nat.lt_succ_self _) (by decide)
  refine (h.getAliasNamelen_yields hname).bind ?_
  rintro (_ | p) hp
  · exact .pure (by decide)
  · obtain ⟨i, hnul, hi⟩ := hp p rfl
    refine (strlenLoop_yields hnul (by omega)).bind fun len _ =>
      (h.absolutePathOffset_yields _).bind fun o ho => h.pathLoop_yields ?_ ho
    rw [List.length_drop]
    omega

/-! ## The properties before a new node -/

/-- The loop of `fdt_add_subnode_namelen` over the properties of the parent. -/
theorem skipProperties_yields (hn : Enough m fdt n o) (ho : o < fdtTotalsize m fdt)
    (hpos : 0 ≤ o) :
    Yields (skipProperties m fdt n o) fun r => 0 ≤ r ∧ r < fdtTotalsize m fdt := by
  have hstruct := h.le_offDtStruct
  have htotal := h.totalsize_lt
  induction n generalizing o with
  | zero => exact absurd hn.1 (by decide)
  | succ n ih =>
    rw [skipProperties]
    refine (h.nextTag_yields (by omega)).bind ?_
    rintro ⟨tag, next⟩ hnext
    refine .ite (fun htag => ?_) fun _ => .pure ⟨hpos, ho⟩
    have hends := hnext.resolve_left fun hx => by
      rw [show tag = fdtEnd from hx.1] at htag
      exact absurd htag (by decide)
    obtain ⟨-, hle, hlt⟩ := hends.bounds hstruct
    exact ih (h.enough_step hn hpos (.inr ⟨hle, hlt⟩)) hlt (by dsimp only at hle; omega)

end Readable

end LittleLoader
