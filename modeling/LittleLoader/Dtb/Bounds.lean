import LittleLoader.Dtb.Ends
import LittleLoader.Memory.Move

/-!
# Dtb/Bounds — splices that stay inside the blob, whatever is in it

    [ fdt                                                   fdt + totalsize )
      header ≤ reservations ≤ structure block ≤ strings block

No tree is assumed here: the header is one that `fdt_check_header` takes, and the bytes behind it may
be any.  A splice is refused where it would leave the blob, and what is written into the gap that it
opens is no longer than the gap.
-/

namespace LittleLoader

open Memory Mem

variable {m m' : Mem} {fdt n p q x a len : ℕ} {o r old new : ℤ} {b : List Byte}

/-! ## Words that are stored -/

namespace Mem

theorem ld32_congr (h : ∀ i < 4, m' (p + i) = m (q + i)) : m'.ld32 p = m.ld32 q := by
  have h₀ : m' p = m q := h 0 (by decide)
  rw [Mem.ld32, Mem.ld32, h₀, h 1 (by decide), h 2 (by decide), h 3 (by decide)]

theorem ld32_write (h : q + 4 ≤ a ∨ a + b.length ≤ q) :
    Mem.ld32 (Memory.write m a b) q = m.ld32 q := by
  simp only [Mem.ld32]
  rw [write_of_outside (by omega), write_of_outside (by omega), write_of_outside (by omega),
    write_of_outside (by omega)]

theorem ld32_st32 (h : q + 4 ≤ p ∨ p + 4 ≤ q) : (m.st32 p x).ld32 q = m.ld32 q :=
  ld32_write (by simpa using h)

theorem ld32_st32_self (hx : x < 0x100000000) : (m.st32 p x).ld32 p = x :=
  ld32_eq (has_write m p (be32 x)) hx

theorem memcpyFrom_yields : Yields (m.memcpyFrom a b b.length) (· = Memory.write m a b) := by
  rw [memcpyFrom_eq le_rfl, List.take_length]
  exact .ok rfl

end Mem

theorem fdtTagalign_bounds (x : ℕ) : x ≤ fdtTagalign x ∧ fdtTagalign x ≤ x + 3 := by
  unfold fdtTagalign
  omega

/-! ## Headers -/

/-- **A header that `fdt_check_header` takes**, of version 17 or later. -/
structure Accepted (m : Mem) (fdt : ℕ) : Prop where
  aligned : fdt % 8 = 0
  magic : fdtMagic m fdt = fdtMagicNumber
  version : 17 ≤ fdtVersion m fdt
  lastCompVersion : fdtLastCompVersion m fdt ≤ 17
  totalsize : fdtTotalsize m fdt ≤ intMax
  memRsvmap : 40 ≤ fdtOffMemRsvmap m fdt ∧ fdtOffMemRsvmap m fdt ≤ fdtTotalsize m fdt
  dtStruct : 40 ≤ fdtOffDtStruct m fdt ∧
    fdtOffDtStruct m fdt + fdtSizeDtStruct m fdt ≤ fdtTotalsize m fdt
  dtStrings : 40 ≤ fdtOffDtStrings m fdt ∧
    fdtOffDtStrings m fdt + fdtSizeDtStrings m fdt ≤ fdtTotalsize m fdt

theorem checkOff_iff {hdrsize totalsize off : ℕ} :
    checkOff hdrsize totalsize off = true ↔ hdrsize ≤ off ∧ off ≤ totalsize := by
  simp [checkOff]

theorem checkBlock_iff (hdrsize base size : ℕ) {totalsize : ℕ} (hbase : base < 0x100000000)
    (hsize : size < 0x100000000) (htotal : totalsize ≤ intMax) :
    checkBlock hdrsize totalsize base size = true ↔ hdrsize ≤ base ∧ base + size ≤ totalsize := by
  have hend : uint ((base : ℤ) + size) = (base + size) % 0x100000000 := by
    unfold uint
    omega
  simp only [checkBlock, checkOff, hend, intMax, Bool.decide_and, Bool.and_eq_true,
    decide_eq_true_eq] at htotal ⊢
  omega

theorem FdtErr.code_neg (e : FdtErr) : e.code < 0 := by cases e <;> decide

/-- A check among others. -/
theorem ite_code_eq_zero {c : Prop} [Decidable c] {e : FdtErr} :
    (if c then e.code else r) = 0 ↔ ¬ c ∧ r = 0 := by
  have he := e.code_neg.ne
  by_cases hc : c <;> simp [hc, he]

/-- **`fdt_check_header`** of a version that can be edited. -/
theorem checkHeader_iff (hversion : 17 ≤ fdtVersion m fdt) :
    fdtCheckHeader m fdt = 0 ↔ Accepted m fdt := by
  have hheader : fdtHeaderSize m fdt = 40 := by
    simp only [fdtHeaderSize]
    rw [if_neg (by omega), if_neg (by omega), if_neg (by omega), if_neg (by omega)]
  have hstruct (htotal : fdtTotalsize m fdt ≤ intMax) :=
    checkBlock_iff 40 (fdtOffDtStruct m fdt) (fdtSizeDtStruct m fdt) (ld32_lt _ _)
      (ld32_lt _ _) htotal
  have hstrings (htotal : fdtTotalsize m fdt ≤ intMax) :=
    checkBlock_iff 40 (fdtOffDtStrings m fdt) (fdtSizeDtStrings m fdt) (ld32_lt _ _)
      (ld32_lt _ _) htotal
  simp only [fdtCheckHeader, hheader, ite_code_eq_zero, not_not, checkOff_iff]
  constructor
  · rintro ⟨haligned, hmagic, hcomp, -, htotal, hrsv, -, hs, ht, -⟩
    have htotal : fdtTotalsize m fdt ≤ intMax := by omega
    exact ⟨haligned, hmagic, hversion, by omega, htotal, hrsv,
      (hstruct htotal).mp (not_not.mp fun hnot => hs ⟨by omega, hnot⟩), (hstrings htotal).mp ht⟩
  · intro h
    have hcomp := h.lastCompVersion
    have hrsv := h.memRsvmap
    have htotal := h.totalsize
    exact ⟨h.aligned, h.magic, by omega, by omega, by omega, hrsv, by omega,
      fun hs => hs.2 ((hstruct htotal).mpr h.dtStruct), (hstrings htotal).mpr h.dtStrings, trivial⟩

/-- A header that is accepted is one that can be searched. -/
theorem readable (h : fdtCheckHeader m fdt = 0)
    (hbound : fdt + fdtTotalsize m fdt ≤ 0x10000000000000000) : Readable m fdt := by
  have hheader : 28 ≤ fdtHeaderSize m fdt := by
    simp only [fdtHeaderSize]
    split_ifs <;> omega
  simp only [fdtCheckHeader, ite_code_eq_zero, not_not, checkOff_iff] at h
  obtain ⟨-, -, -, -, htotal, -, hold, hnew, -⟩ := h
  refine ⟨by omega, ?_, hbound⟩
  by_cases hversion : fdtVersion m fdt < 17
  · have hoff := not_not.mp fun hs => hold ⟨hversion, hs⟩
    omega
  · have hblock := not_not.mp fun hs => hnew ⟨hversion, hs⟩
    have hoff := ((checkBlock_iff _ _ _ (ld32_lt _ _) (ld32_lt _ _) (by omega)).mp hblock).1
    exact hheader.trans hoff

/-- **The header is the first 40 bytes.** -/
theorem checkHeader_write (ha : fdt + 40 ≤ a) :
    fdtCheckHeader (Memory.write m a b) fdt = fdtCheckHeader m fdt := by
  have hword (k : ℕ) (hk : k ≤ 36) : Mem.ld32 (Memory.write m a b) (fdt + k) = m.ld32 (fdt + k) :=
    ld32_write (.inl (by omega))
  have hmagic : fdtMagic (Memory.write m a b) fdt = fdtMagic m fdt := hword 0 (by decide)
  have htotal : fdtTotalsize (Memory.write m a b) fdt = fdtTotalsize m fdt := hword 4 (by decide)
  have hstruct : fdtOffDtStruct (Memory.write m a b) fdt = fdtOffDtStruct m fdt :=
    hword 8 (by decide)
  have hstrings : fdtOffDtStrings (Memory.write m a b) fdt = fdtOffDtStrings m fdt :=
    hword 12 (by decide)
  have hrsv : fdtOffMemRsvmap (Memory.write m a b) fdt = fdtOffMemRsvmap m fdt :=
    hword 16 (by decide)
  have hversion : fdtVersion (Memory.write m a b) fdt = fdtVersion m fdt := hword 20 (by decide)
  have hcomp : fdtLastCompVersion (Memory.write m a b) fdt = fdtLastCompVersion m fdt :=
    hword 24 (by decide)
  have hsize' : fdtSizeDtStrings (Memory.write m a b) fdt = fdtSizeDtStrings m fdt :=
    hword 32 (by decide)
  have hsize : fdtSizeDtStruct (Memory.write m a b) fdt = fdtSizeDtStruct m fdt :=
    hword 36 (by decide)
  have hheader : fdtHeaderSize (Memory.write m a b) fdt = fdtHeaderSize m fdt := by
    rw [fdtHeaderSize, fdtHeaderSize, hversion]
  rw [fdtCheckHeader, fdtCheckHeader, hheader, hmagic, htotal, hstruct, hstrings, hrsv, hversion,
    hcomp, hsize', hsize]

/-- **A blob that can be edited**: the blocks stand in order. -/
structure Sane (m : Mem) (fdt n : ℕ) : Prop where
  accepted : Accepted m fdt
  totalsize : fdtTotalsize m fdt = n
  bound : fdt + n ≤ 0x10000000000000000
  ordered : fdtOffDtStruct m fdt + fdtSizeDtStruct m fdt ≤ fdtOffDtStrings m fdt

/-- **What an edit keeps**: the memory outside the blob, and a header that is accepted. -/
structure Keeps (fdt n : ℕ) (m m' : Mem) : Prop where
  same : SameOutside fdt n m m'
  checkHeader : fdtCheckHeader m' fdt = 0
  totalsize : fdtTotalsize m' fdt = n

namespace Sane

variable (h : Sane m fdt n)

include h

theorem sizes : 40 ≤ fdtOffDtStruct m fdt ∧
    fdtOffDtStruct m fdt + fdtSizeDtStruct m fdt ≤ fdtOffDtStrings m fdt ∧
    fdtOffDtStrings m fdt + fdtSizeDtStrings m fdt ≤ n ∧ n < 0x80000000 := by
  have htotal := h.accepted.totalsize
  rw [h.totalsize] at htotal
  refine ⟨h.accepted.dtStruct.1, h.ordered, ?_, by unfold intMax at htotal; omega⟩
  exact h.totalsize ▸ h.accepted.dtStrings.2

theorem readable : Readable m fdt :=
  LittleLoader.readable ((checkHeader_iff h.accepted.version).mpr h.accepted)
    (h.totalsize.symm ▸ h.bound)

theorem keeps (hsame : SameOutside fdt n m' m) : Keeps fdt n m' m :=
  ⟨hsame, (checkHeader_iff h.accepted.version).mpr h.accepted, h.totalsize⟩

/-- **A header that is edited**, in the fields that an edit stores. -/
theorem update (hrest : ∀ k, k = 0 ∨ k = 4 ∨ k = 8 ∨ k = 16 ∨ k = 24 →
      m'.ld32 (fdt + k) = m.ld32 (fdt + k))
    (hversion : 17 ≤ fdtVersion m' fdt) (hstrings : 40 ≤ fdtOffDtStrings m' fdt)
    (hord : fdtOffDtStruct m fdt + fdtSizeDtStruct m' fdt ≤ fdtOffDtStrings m' fdt)
    (hend : fdtOffDtStrings m' fdt + fdtSizeDtStrings m' fdt ≤ n) : Sane m' fdt n := by
  have hmagic : fdtMagic m' fdt = fdtMagic m fdt := hrest 0 (by decide)
  have htotal : fdtTotalsize m' fdt = n := (hrest 4 (by decide)).trans h.totalsize
  have hstruct : fdtOffDtStruct m' fdt = fdtOffDtStruct m fdt := hrest 8 (by decide)
  have hrsv : fdtOffMemRsvmap m' fdt = fdtOffMemRsvmap m fdt := hrest 16 (by decide)
  have hcomp : fdtLastCompVersion m' fdt = fdtLastCompVersion m fdt := hrest 24 (by decide)
  have hsizes := h.sizes
  have hrsv' := h.accepted.memRsvmap
  rw [h.totalsize] at hrsv'
  refine ⟨⟨h.accepted.aligned, ?_, hversion, hcomp.trans_le h.accepted.lastCompVersion, ?_, ?_, ?_, ?_⟩,
    htotal, h.bound, ?_⟩
  · exact hmagic.trans h.accepted.magic
  · rw [htotal]
    unfold intMax
    omega
  · rw [hrsv, htotal]
    exact hrsv'
  · rw [hstruct, htotal]
    omega
  · rw [htotal]
    exact ⟨hstrings, hend⟩
  · rw [hstruct]
    exact hord

omit h in
/-- A store behind the header. -/
theorem sizes_write (m : Mem) (b : List Byte) (ha : fdt + 40 ≤ a) :
    fdtOffDtStruct (Memory.write m a b) fdt = fdtOffDtStruct m fdt ∧
      fdtSizeDtStruct (Memory.write m a b) fdt = fdtSizeDtStruct m fdt ∧
      fdtOffDtStrings (Memory.write m a b) fdt = fdtOffDtStrings m fdt ∧
      fdtSizeDtStrings (Memory.write m a b) fdt = fdtSizeDtStrings m fdt :=
  ⟨ld32_write (.inl (by omega)), ld32_write (.inl (by omega)), ld32_write (.inl (by omega)),
    ld32_write (.inl (by omega))⟩

/-- **A store behind the header** keeps the header. -/
theorem write (ha : fdt + 40 ≤ a) : Sane (Memory.write m a b) fdt n := by
  have hword (k : ℕ) (hk : k ≤ 36) : Mem.ld32 (Memory.write m a b) (fdt + k) = m.ld32 (fdt + k) :=
    ld32_write (.inl (by omega))
  have hsizes := h.sizes
  obtain ⟨-, hsize, hstrings, hsize'⟩ := sizes_write m b ha
  exact h.update (fun k hk => hword k (by omega))
    (h.accepted.version.trans_eq (hword 20 (by decide)).symm)
    (h.accepted.dtStrings.1.trans_eq hstrings.symm) (by omega) (by omega)

/-- A store in the blob. -/
theorem keeps_write (ha : fdt + 40 ≤ a) (hend : a + b.length ≤ fdt + n) :
    Sane (Memory.write m a b) fdt n ∧ SameOutside fdt n m (Memory.write m a b) :=
  ⟨h.write ha, .write m (by omega) hend⟩

/-- A store of a field of the header stays in the blob. -/
theorem same_st32 (hp : fdt ≤ p) (hend : p + 4 ≤ fdt + 40) : SameOutside fdt n m (m.st32 p x) := by
  have hsizes := h.sizes
  exact .write m hp (by rw [length_be32]; omega)

/-! ### Splices -/

theorem dataSize_eq :
    fdtDataSize m fdt = fdtOffDtStrings m fdt + fdtSizeDtStrings m fdt := by
  have hsizes := h.sizes
  exact uint_eq (by push_cast; rfl) (by omega)

/-- **`fdt_splice_`** is refused, or it moves what is behind the splice inside the blob. -/
theorem splice_cases (p : ℕ) (old new : ℤ) (hnew : 0 ≤ new) (hnew' : new < 0x80000000) :
    (∃ e : FdtErr, fdtSplice m fdt p old new = (e.code, m)) ∨
      (0 ≤ old ∧ p + old ≤ fdt + fdtDataSize m fdt ∧ fdtDataSize m fdt - old + new ≤ n ∧
        ∃ b : List Byte, fdtSplice m fdt p old new = (0, m.write (p + new).toNat b) ∧
          p + new + b.length = fdt + fdtDataSize m fdt - old + new) := by
  have hsizes := h.sizes
  have hdata := h.dataSize_eq
  rw [fdtSplice]
  dsimp only
  by_cases hout : old < 0 ∨ (p : ℤ) - fdt + old < p - fdt ∨ (p : ℤ) - fdt + old > fdtDataSize m fdt
  · rw [if_pos hout]
    exact .inl ⟨.badoffset, rfl⟩
  by_cases hwrap : p < fdt ∨ uint (fdtDataSize m fdt + new) < uint old
  · rw [if_neg hout, if_pos hwrap]
    exact .inl ⟨.badoffset, rfl⟩
  by_cases hspace : uint (fdtDataSize m fdt - old + new) > fdtTotalsize m fdt
  · rw [if_neg hout, if_neg hwrap, if_pos hspace]
    exact .inl ⟨.nospace, rfl⟩
  rw [if_neg hout, if_neg hwrap, if_neg hspace, memmove_eq]
  rw [h.totalsize] at hspace
  unfold uint at hwrap hspace
  refine .inr ⟨by omega, by omega, by omega, _, rfl, ?_⟩
  rw [length_read]
  omega

/-- The header after a splice of the structure block. -/
theorem moveStrings (delta : ℤ) (hsize : 0 ≤ fdtSizeDtStruct m fdt + delta)
    (hend : fdtDataSize m fdt + delta ≤ n) :
    let m₁ := m.st32 (fdt + 36) (uint (fdtSizeDtStruct m fdt + delta))
    Sane (m₁.st32 (fdt + 12) (uint (fdtOffDtStrings m₁ fdt + delta))) fdt n := by
  have hsizes := h.sizes
  rw [h.dataSize_eq] at hend
  have hstruct : uint (fdtSizeDtStruct m fdt + delta) = fdtSizeDtStruct m fdt + delta := by
    unfold uint
    omega
  have hstrings : uint (fdtOffDtStrings m fdt + delta) = fdtOffDtStrings m fdt + delta := by
    unfold uint
    omega
  intro m₁
  have hoff : fdtOffDtStrings m₁ fdt = fdtOffDtStrings m fdt := ld32_st32 (by omega)
  rw [hoff]
  have hword (k : ℕ) (hk : k + 4 ≤ 12 ∨ 16 ≤ k ∧ k + 4 ≤ 36) :
      (m₁.st32 (fdt + 12) (uint (fdtOffDtStrings m fdt + delta))).ld32 (fdt + k)
        = m.ld32 (fdt + k) := by
    rw [ld32_st32 (by omega), ld32_st32 (by omega)]
  have hstruct' : fdtSizeDtStruct (m₁.st32 (fdt + 12) (uint (fdtOffDtStrings m fdt + delta))) fdt
      = uint (fdtSizeDtStruct m fdt + delta) := by
    rw [fdtSizeDtStruct, ld32_st32 (by omega), ld32_st32_self (by omega)]
  have hstrings' : fdtOffDtStrings (m₁.st32 (fdt + 12) (uint (fdtOffDtStrings m fdt + delta))) fdt
      = uint (fdtOffDtStrings m fdt + delta) := ld32_st32_self (by omega)
  have hsize' : fdtSizeDtStrings (m₁.st32 (fdt + 12) (uint (fdtOffDtStrings m fdt + delta))) fdt
      = fdtSizeDtStrings m fdt := hword 32 (by decide)
  exact h.update (fun k hk => hword k (by omega))
    (h.accepted.version.trans_eq (hword 20 (by decide)).symm) (by omega) (by omega) (by omega)

/-- **`fdt_splice_struct_`** is refused, or there is room for `new` bytes at the splice. -/
theorem spliceStruct_cases (p : ℕ) (old new : ℤ) (hp : fdt + fdtOffDtStruct m fdt ≤ p)
    (hold : old ≤ fdtSizeDtStruct m fdt) (hnew : 0 ≤ new) (hnew' : new < 0x80000000) :
    (∃ e : FdtErr, fdtSpliceStruct m fdt p old new = (e.code, m)) ∨
      ∃ m', fdtSpliceStruct m fdt p old new = (0, m') ∧ Sane m' fdt n ∧ SameOutside fdt n m m' ∧
        p + new ≤ fdt + n := by
  have hsizes := h.sizes
  have hdata := h.dataSize_eq
  rw [fdtSpliceStruct]
  dsimp only
  rcases h.splice_cases p old new hnew hnew' with
    ⟨e, hsplice⟩ | ⟨hpos, hend, hroom, b, hsplice, hlen⟩
  · rw [hsplice]
    refine .inl ⟨e, ?_⟩
    cases e <;> rfl
  · rw [hsplice]
    have ha : fdt + 40 ≤ (p + new).toNat := by omega
    obtain ⟨hs, hsame⟩ := h.keeps_write (b := b) ha (by omega)
    obtain ⟨-, hsize, hstrings, hsize'⟩ := sizes_write m b ha
    have hmove := hs.moveStrings (new - old) (by omega)
      (by rw [hs.dataSize_eq, hsize', hstrings]; omega)
    refine .inr ⟨_, rfl, hmove, ?_, by omega⟩
    exact (hsame.trans (hs.same_st32 (by omega) (by omega))).trans
      (.write _ (by omega) (by rw [length_be32]; omega))

/-! ### Strings -/

omit h in
/-- The loop of `fdt_find_string_`. -/
theorem findStringLoop_yields {last : ℤ} {s : List Byte} {fuel : ℕ} (hs : len ≤ s.length)
    (hfuel : 1 ≤ fuel) (hlast : last + 1 < p + fuel) :
    Yields (findStringLoop m last s len fuel p) fun x => ∀ q ∈ x, p ≤ q := by
  induction fuel generalizing p with
  | zero => omega
  | succ fuel ih =>
    rw [findStringLoop]
    refine .ite (fun _ => .pure fun q hq => nomatch hq) fun hle => ?_
    obtain ⟨r, hr, -⟩ := exists_memcmp (m := m) (p := p) hs
    rw [hr, ok_bind]
    refine .ite (fun _ => .pure fun q hq => ?_) fun _ => ?_
    · obtain rfl := Option.some.inj hq
      exact le_rfl
    · refine (ih (p := p + 1) (by omega) (by push_cast at hlast ⊢; omega)).mono fun x hx q hq => ?_
      have := hx q hq
      omega

/-- The header with another size of the strings block. -/
theorem resizeStrings (size : ℕ) (hend : fdtOffDtStrings m fdt + size ≤ n) :
    Sane (m.st32 (fdt + 32) size) fdt n ∧ SameOutside fdt n m (m.st32 (fdt + 32) size) ∧
      fdtSizeDtStrings (m.st32 (fdt + 32) size) fdt = size := by
  have hsizes := h.sizes
  have hword (k : ℕ) (hk : k + 4 ≤ 32 ∨ 36 ≤ k) :
      (m.st32 (fdt + 32) size).ld32 (fdt + k) = m.ld32 (fdt + k) := ld32_st32 (by omega)
  have hsize : fdtSizeDtStrings (m.st32 (fdt + 32) size) fdt = size := ld32_st32_self (by omega)
  have hstrings : fdtOffDtStrings (m.st32 (fdt + 32) size) fdt = fdtOffDtStrings m fdt :=
    hword 12 (by decide)
  have hstruct : fdtSizeDtStruct (m.st32 (fdt + 32) size) fdt = fdtSizeDtStruct m fdt :=
    hword 36 (by decide)
  exact ⟨h.update (fun k hk => hword k (by omega))
    (h.accepted.version.trans_eq (hword 20 (by decide)).symm) (by omega) (by omega) (by omega),
    h.same_st32 (by omega) (by omega), hsize⟩

/-- `fdt_splice_string_`. -/
theorem spliceString_cases (hlen : len < 0x80000000) :
    (∃ e : FdtErr, fdtSpliceString m fdt len = (e.code, m)) ∨
      fdtOffDtStrings m fdt + (fdtSizeDtStrings m fdt + len) ≤ n ∧
        fdtSpliceString m fdt len = (0, m.st32 (fdt + 32) (fdtSizeDtStrings m fdt + len)) := by
  have hsizes := h.sizes
  have hdata := h.dataSize_eq
  rw [fdtSpliceString]
  rcases h.splice_cases (fdt + fdtOffDtStrings m fdt + fdtSizeDtStrings m fdt) 0 len
    (by omega) (by omega) with ⟨e, hsplice⟩ | ⟨-, -, hroom, b, hsplice, hb⟩
  · rw [hsplice]
    refine .inl ⟨e, ?_⟩
    cases e <;> rfl
  · obtain rfl : b = [] := List.length_eq_zero_iff.mp (by omega)
    have hsize : uint ((fdtSizeDtStrings m fdt : ℤ) + len) = fdtSizeDtStrings m fdt + len :=
      uint_eq rfl (by omega)
    rw [hsplice, write_nil, ← hsize]
    exact .inr ⟨by omega, rfl⟩

/-- **`fdt_find_add_string_`**. -/
theorem findAddString_yields (k : CStr) (hk : k.obj.length < 0x80000000) :
    Yields (fdtFindAddString m fdt k.obj) fun x => Sane x.2.2 fdt n ∧ SameOutside fdt n m x.2.2 ∧
      (x.1 < 0 ∨ (x.2.1 = true → k.obj.length ≤ fdtSizeDtStrings x.2.2 fdt)) := by
  have hsizes := h.sizes
  have hdata := h.dataSize_eq
  have hlen := k.length_obj
  rw [fdtFindAddString]
  dsimp only
  rw [k.fetch_strlen, ok_bind, fdtFindString, k.fetch_strlen, ok_bind, ← k.length_obj]
  have htab : int (fdtSizeDtStrings m fdt) = fdtSizeDtStrings m fdt := int_eq rfl (by omega)
  rw [htab]
  refine (findStringLoop_yields (p := fdt + fdtOffDtStrings m fdt) le_rfl (by omega)
    (by push_cast; omega)).bind fun x hx => ?_
  cases x with
  | some q => exact .pure ⟨h, .refl _ _ _, .inr fun hfalse => nomatch hfalse⟩
  | none =>
    dsimp only
    rcases h.spliceString_cases hk with ⟨e, hsplice⟩ | ⟨hroom, hsplice⟩
    · rw [hsplice]
      have he := e.code_neg
      cases e <;> exact .pure ⟨h, .refl _ _ _, .inl he⟩
    · obtain ⟨hs, hsame, hsize⟩ := h.resizeStrings _ hroom
      obtain ⟨hs', hsame'⟩ := hs.keeps_write (b := k.obj)
        (a := fdt + fdtOffDtStrings m fdt + fdtSizeDtStrings m fdt) (by omega) (by omega)
      rw [hsplice]
      refine memcpyFrom_yields.bind ?_
      rintro _ rfl
      refine .pure ⟨hs', hsame.trans hsame', .inr fun _ => ?_⟩
      rw [(sizes_write _ _ (by omega)).2.2.2, hsize]
      omega

end Sane

/-! ## `fdt_rw_probe_` -/

theorem roProbe_cases (m : Mem) (fdt : ℕ) : (∃ e : FdtErr, fdtRoProbe m fdt = e.code) ∨
    fdtRoProbe m fdt = fdtTotalsize m fdt := by
  rw [fdtRoProbe]
  split_ifs <;> first | exact .inr rfl | exact .inl ⟨_, rfl⟩

/-- **`fdt_rw_probe_`** refuses the blob, or it can be edited. -/
theorem rwProbe_cases (hheader : fdtCheckHeader m fdt = 0)
    (hbound : fdt + fdtTotalsize m fdt ≤ 0x10000000000000000) :
    (∃ e : FdtErr, fdtRwProbe m fdt = (e.code, m)) ∨ ∃ m', fdtRwProbe m fdt = (0, m') ∧
      Sane m' fdt (fdtTotalsize m fdt) ∧ SameOutside fdt (fdtTotalsize m fdt) m m' := by
  rw [fdtRwProbe]
  rcases roProbe_cases m fdt with ⟨e, he⟩ | htotal
  · rw [he, if_pos e.code_neg]
    exact .inl ⟨e, rfl⟩
  rw [htotal, if_neg (by omega)]
  by_cases hversion : fdtVersion m fdt < 17
  · rw [if_pos hversion]
    exact .inl ⟨.badversion, rfl⟩
  rw [if_neg hversion]
  by_cases hblocks : fdtBlocksMisordered m fdt 16 (fdtSizeDtStruct m fdt)
  · rw [if_pos hblocks]
    exact .inl ⟨.badlayout, rfl⟩
  have haccepted := (checkHeader_iff (not_lt.mp hversion)).mp hheader
  have htotal := haccepted.totalsize
  have hstruct := haccepted.dtStruct
  have hord : fdtOffDtStruct m fdt + fdtSizeDtStruct m fdt ≤ fdtOffDtStrings m fdt := by
    rw [fdtBlocksMisordered, decide_eq_true_eq] at hblocks
    simp only [uint, intMax] at hblocks htotal
    omega
  have hs : Sane m fdt (fdtTotalsize m fdt) := ⟨haccepted, rfl, hbound, hord⟩
  rw [if_neg hblocks]
  by_cases hnew : fdtVersion m fdt > 17
  · rw [if_pos hnew]
    refine .inr ⟨_, rfl, ?_, hs.same_st32 (by omega) (by omega)⟩
    have hword (k : ℕ) (hk : k + 4 ≤ 20 ∨ 24 ≤ k) :
        (m.st32 (fdt + 20) 17).ld32 (fdt + k) = m.ld32 (fdt + k) := ld32_st32 (by omega)
    have hversion' : fdtVersion (m.st32 (fdt + 20) 17) fdt = 17 := ld32_st32_self (by decide)
    have hsizes := hs.sizes
    have hstrings : fdtOffDtStrings (m.st32 (fdt + 20) 17) fdt = fdtOffDtStrings m fdt :=
      hword 12 (by decide)
    have hsize : fdtSizeDtStruct (m.st32 (fdt + 20) 17) fdt = fdtSizeDtStruct m fdt :=
      hword 36 (by decide)
    have hsize' : fdtSizeDtStrings (m.st32 (fdt + 20) 17) fdt = fdtSizeDtStrings m fdt :=
      hword 32 (by decide)
    exact hs.update (fun k hk => hword k (by omega)) hversion'.ge (by omega) (by omega) (by omega)
  · rw [if_neg hnew]
    exact .inr ⟨m, rfl, hs, .refl _ _ _⟩

end LittleLoader
