import LittleLoader.Dtb.Bounds
import LittleLoader.Dtb.Tree

/-!
# Dtb/Contained — edits that stay inside the blob, whatever is in it

    fdt_rw_probe_ ──▸ search ──▸ splice ──▸ stores in the room that the splice has made

An edit searches, splices, and stores no more than there is room for.  So it ends with a return code,
nothing outside the blob has changed, and the header is again one that `fdt_check_header` takes.
-/

namespace LittleLoader

open Memory Mem

variable {m m' : Mem} {fdt n p a len : ℕ} {o : ℤ} {b : List Byte}

namespace Sane

variable (h : Sane m fdt n)

include h

/-! ### Properties -/

/-- **An edit that makes room** for `len` bytes is refused, or the room is in the blob. -/
def MakesRoom (m : Mem) (fdt n len : ℕ) (x : ℤ × Option ℕ × Mem) : Prop :=
  Sane x.2.2 fdt n ∧ SameOutside fdt n m x.2.2 ∧
    (x.1 < 0 ∨ x.1 = 0 ∧ ∃ p, x.2.1 = some p ∧ fdt + 40 ≤ p ∧ p + len ≤ fdt + n)

/-- **`fdt_resize_property_`**. -/
theorem resizeProperty_yields (k : CStr) (ho : o < 0x80000000)
    (hlen : sizeofProperty + fdtTagalign len < 0x80000000) :
    Yields (fdtResizeProperty m fdt o k.obj len) (MakesRoom m fdt n (sizeofProperty + len)) := by
  have hsizes := h.sizes
  rw [fdtResizeProperty]
  refine (h.readable.getProperty_yields k ho).bind ?_
  rintro ⟨prop, oldlen⟩ hfound
  rcases hfound with ⟨hnone, hneg⟩ | ⟨o', l, heq, -, ho', -, hend, hversion⟩
  · obtain rfl : prop = none := hnone
    exact .pure ⟨h, .refl _ _ _, .inl hneg⟩
  · cases heq
    have hraw := offsetPtrRaw_le m fdt (o := o') (by omega)
    have hstruct := hversion h.accepted.version
    have huint : uint (l : ℤ) = l := uint_eq rfl (by omega)
    have hold := fdtTagalign_bounds l
    have hnew := fdtTagalign_bounds len
    have hsizeof : sizeofProperty = 12 := rfl
    dsimp only
    rw [huint]
    rcases h.spliceStruct_cases (fdtOffsetPtrRaw m fdt o' + sizeofProperty)
      (fdtTagalign l) (fdtTagalign len) (by omega) (by omega) (by omega) (by omega) with
      ⟨e, hsplice⟩ | ⟨m', hsplice, hs, hsame, hroom⟩
    · rw [hsplice]
      have he := e.code_neg
      cases e <;> exact .pure ⟨h, .refl _ _ _, .inl he⟩
    · rw [hsplice]
      obtain ⟨hs', hsame'⟩ := hs.keeps_write (b := be32 len)
        (a := fdtOffsetPtrRaw m fdt o' + 4) (by omega) (by rw [length_be32]; omega)
      exact .pure ⟨hs', hsame.trans hsame', .inr ⟨rfl, _, rfl, by omega, by push_cast at hroom; omega⟩⟩

/-- **`fdt_add_property_`**. -/
theorem addProperty_yields (k : CStr) (ho : o < 0x80000000)
    (hlen : sizeofProperty + fdtTagalign len < 0x80000000) (hk : k.obj.length < 0x80000000) :
    Yields (fdtAddProperty m fdt o k.obj len) (MakesRoom m fdt n (sizeofProperty + len)) := by
  have hsizes := h.sizes
  rw [fdtAddProperty]
  refine (h.readable.checkNodeOffset_yields ho).bind fun next hnext =>
    .ite (fun hneg => .pure ⟨h, .refl _ _ _, .inl hneg⟩) fun hpos =>
      (h.findAddString_yields k hk).bind ?_
  rintro ⟨r, allocated, m₁⟩ ⟨hs₁, hsame₁, hsize⟩
  refine .ite (fun hneg => .pure ⟨hs₁, hsame₁, .inl hneg⟩) fun hnneg => ?_
  dsimp only at hs₁ hsame₁ hsize ⊢
  have hsizes₁ := hs₁.sizes
  have hraw := offsetPtrRaw_le m₁ fdt (o := next) (by omega)
  have hnew := fdtTagalign_bounds len
  have hsizeof : sizeofProperty = 12 := rfl
  rcases hs₁.spliceStruct_cases (fdtOffsetPtrRaw m₁ fdt next) 0
    (sizeofProperty + fdtTagalign len : ℕ) (by omega) (by omega) (by omega) (by omega) with
    ⟨e, hsplice⟩ | ⟨m', hsplice, hs, hsame, hroom⟩
  · rw [hsplice]
    have hundo (r : ℤ) (hr : r < 0) :
        Yields (if allocated = true then
            fdtDelLastString m₁ fdt k.obj >>= fun m => pure (r, some (fdtOffsetPtrRaw m₁ fdt next), m)
          else pure (r, some (fdtOffsetPtrRaw m₁ fdt next), m₁) : MemM (ℤ × Option ℕ × Mem))
          (MakesRoom m fdt n (sizeofProperty + len)) := by
      refine .ite (fun hallocated => ?_) fun _ => .pure ⟨hs₁, hsame₁, .inl hr⟩
      have hfits := (hsize.resolve_left hnneg) hallocated
      have huint : uint ((fdtSizeDtStrings m₁ fdt : ℤ) - (k.bytes.length + 1 : ℕ))
          = fdtSizeDtStrings m₁ fdt - (k.bytes.length + 1) :=
        uint_eq (by rw [k.length_obj] at hfits; omega) (by omega)
      rw [fdtDelLastString, k.fetch_strlen, ok_bind]
      dsimp only
      rw [huint]
      obtain ⟨hs, hsame, -⟩ := hs₁.resizeStrings
        (fdtSizeDtStrings m₁ fdt - (k.bytes.length + 1)) (by omega)
      exact .pure ⟨hs, hsame₁.trans hsame, .inl hr⟩
    have he := e.code_neg
    cases e <;> exact hundo _ he
  · rw [hsplice]
    obtain ⟨hs₂, hsame₂⟩ := hs.keeps_write (b := be32 fdtProp)
      (a := fdtOffsetPtrRaw m₁ fdt next) (by omega) (by rw [length_be32]; omega)
    obtain ⟨hs₃, hsame₃⟩ := hs₂.keeps_write (b := be32 (uint r))
      (a := fdtOffsetPtrRaw m₁ fdt next + 8) (by omega) (by rw [length_be32]; omega)
    obtain ⟨hs₄, hsame₄⟩ := hs₃.keeps_write (b := be32 len)
      (a := fdtOffsetPtrRaw m₁ fdt next + 4) (by omega) (by rw [length_be32]; omega)
    exact .pure ⟨hs₄, (((hsame₁.trans hsame).trans hsame₂).trans hsame₃).trans hsame₄,
      .inr ⟨rfl, _, rfl, by omega, by push_cast at hroom; omega⟩⟩

end Sane

/-! ## Edits -/

/-- The edits that store no NOPs: the last one of a region may go over its end. -/
def Edit.bytewise : Edit → Bool
  | nopProperty _ | nopNode => false
  | _ => true

/-- **An edit that is contained**: it is refused, or what it has written is inside the blob. -/
abbrev Contained (m : Mem) (fdt : ℕ) (x : ℤ × Mem) : Prop := Keeps fdt (fdtTotalsize m fdt) m x.2

namespace Sane

variable (h : Sane m fdt n)

include h

/-- A value that is stored in the blob. -/
theorem memcpyFrom_yields (hsame : SameOutside fdt n m' m) (ha : fdt + 40 ≤ a)
    (hend : a + b.length ≤ fdt + n) :
    Yields (m.memcpyFrom a b b.length) (Keeps fdt n m') := by
  obtain ⟨hs, hsame'⟩ := h.keeps_write (b := b) ha hend
  refine Mem.memcpyFrom_yields.mono ?_
  rintro _ rfl
  exact hs.keeps (hsame.trans hsame')

end Sane

section

variable (hheader : fdtCheckHeader m fdt = 0)
  (hbound : fdt + fdtTotalsize m fdt ≤ 0x10000000000000000) (ho : o < 0x80000000)

include hheader hbound ho

omit ho in
/-- An edit that probes the blob first. -/
theorem rwProbe_yields {f : Mem → MemM (ℤ × Mem)} {Q : ℤ × Mem → Prop}
    (hrefused : ∀ e : FdtErr, Q (e.code, m))
    (hf : ∀ m₁, Sane m₁ fdt (fdtTotalsize m fdt) → SameOutside fdt (fdtTotalsize m fdt) m m₁ →
      Yields (f m₁) Q) :
    Yields (match fdtRwProbe m fdt with
      | (0, m) => f m
      | (err, m) => pure (err, m)) Q := by
  rcases rwProbe_cases hheader hbound with ⟨e, hprobe⟩ | ⟨m₁, hprobe, hs, hsame⟩
  · rw [hprobe]
    have he := hrefused e
    cases e <;> exact .pure he
  · rw [hprobe]
    exact hf m₁ hs hsame

omit hbound ho in
theorem contained_refl (r : ℤ) : Contained m fdt (r, m) := ⟨.refl _ _ _, hheader, rfl⟩

/-- `fdt_setprop_placeholder`. -/
theorem setpropPlaceholder_yields (k : CStr) (hlen : sizeofProperty + fdtTagalign len < 0x80000000)
    (hk : k.obj.length < 0x80000000) :
    Yields (fdtSetpropPlaceholder m fdt o k.obj len) fun x =>
      Contained m fdt (x.1, x.2.2) ∧ (x.1 ≠ 0 ∨ Sane x.2.2 fdt (fdtTotalsize m fdt) ∧
        ∃ p, x.2.1 = some p ∧ fdt + 40 ≤ p ∧ p + len ≤ fdt + fdtTotalsize m fdt) := by
  rw [fdtSetpropPlaceholder]
  rcases rwProbe_cases hheader hbound with ⟨e, hprobe⟩ | ⟨m₁, hprobe, hs, hsame⟩
  · rw [hprobe]
    have he := e.code_neg.ne
    cases e <;> exact .pure ⟨contained_refl hheader _, .inl he⟩
  · rw [hprobe]
    have hrest {x : ℤ × Option ℕ × Mem}
        (hx : Sane.MakesRoom m₁ fdt (fdtTotalsize m fdt) (sizeofProperty + len) x) :
        Yields (if x.1 ≠ 0 then pure (x.1, none, x.2.2)
          else pure (0, x.2.1.map (· + sizeofProperty), x.2.2) : MemM (ℤ × Option ℕ × Mem)) fun x =>
            Contained m fdt (x.1, x.2.2) ∧ (x.1 ≠ 0 ∨ Sane x.2.2 fdt (fdtTotalsize m fdt) ∧
              ∃ p, x.2.1 = some p ∧ fdt + 40 ≤ p ∧ p + len ≤ fdt + fdtTotalsize m fdt) := by
      obtain ⟨hs₂, hsame₂, hroom⟩ := hx
      have hkeeps := hs₂.keeps (hsame.trans hsame₂)
      refine .ite (fun hne => .pure ⟨hkeeps, .inl hne⟩) fun heq => .pure ⟨hkeeps, .inr ⟨hs₂, ?_⟩⟩
      rcases hroom with hneg | ⟨-, p, hp, hle, hend⟩
      · omega
      · exact ⟨p + sizeofProperty, by rw [hp]; rfl, by omega, by omega⟩
    refine (hs.resizeProperty_yields k ho hlen).bind ?_
    rintro ⟨err, prop, m₂⟩ hroom
    refine .ite (fun _ => (hroom.1.addProperty_yields k ho hlen hk).bind fun x hx => ?_) fun _ =>
      hrest hroom
    exact hrest ⟨hx.1, hroom.2.1.trans hx.2.1, hx.2.2⟩

/-- **`fdt_setprop`.** -/
theorem setprop_contained (k : CStr) (v : List Byte)
    (hsize : (Edit.setprop k v).size < 0x80000000) :
    Yields (fdtSetprop m fdt o k.obj v v.length) (Contained m fdt) := by
  rw [Edit.size] at hsize
  rw [fdtSetprop]
  refine (setpropPlaceholder_yields hheader hbound ho k (by omega) (by omega)).bind ?_
  rintro ⟨err, prop, m₁⟩ ⟨hkeeps, hroom⟩
  refine .ite (fun _ => .pure hkeeps) fun hzero => .ite (fun _ => ?_) fun _ => .pure hkeeps
  obtain ⟨hs, p, hp, hle, hend⟩ := hroom.resolve_left hzero
  obtain rfl : prop = some p := hp
  exact (hs.memcpyFrom_yields hkeeps.same hle hend).bind fun _ hm => .pure hm

/-- **`fdt_appendprop`.** -/
theorem appendprop_contained (k : CStr) (v : List Byte)
    (hsize : fdtTotalsize m fdt + (Edit.appendprop k v).size < 0x80000000) :
    Yields (fdtAppendprop m fdt o k.obj v v.length) (Contained m fdt) := by
  have hlen := fdtTagalign_bounds v.length
  rw [Edit.size] at hsize
  refine rwProbe_yields hheader hbound (fun e => contained_refl hheader _)
    fun m₁ hs hsame => ?_
  have hsizes := hs.sizes
  refine (hs.readable.getProperty_yields k ho).bind ?_
  rintro ⟨prop, oldlen⟩ hfound
  rcases hfound with ⟨hnone, hneg⟩ | ⟨o', l, heq, -, ho', -, hend, hversion⟩
  · obtain rfl : prop = none := hnone
    refine (hs.addProperty_yields k ho (by omega) (by omega)).bind ?_
    rintro ⟨err, prop, m₂⟩ ⟨hs₂, hsame₂, hroom⟩
    dsimp only at hroom
    rcases hroom with hneg | ⟨rfl, p, rfl, hle, hend⟩
    · obtain ⟨j, rfl⟩ := Int.eq_negSucc_of_lt_zero hneg
      exact .pure (hs₂.keeps (hsame.trans hsame₂))
    · exact (hs₂.memcpyFrom_yields (hsame.trans hsame₂) (by omega) (by omega)).bind fun _ hm =>
        .pure hm
  · cases heq
    rw [hs.totalsize] at hend
    have hraw := offsetPtrRaw_le m₁ fdt (o := o') (by omega)
    have hstruct := hversion hs.accepted.version
    have hold := fdtTagalign_bounds l
    have hsum := fdtTagalign_bounds (v.length + l)
    have hsizeof : sizeofProperty = 12 := rfl
    have hsplice := hs.spliceStruct_cases (fdtOffsetPtrRaw m₁ fdt o' + sizeofProperty)
      (fdtTagalign l) (fdtTagalign (v.length + l)) (by omega) (by omega) (by omega)
      (by omega)
    have hat : ((fdtOffsetPtrRaw m₁ fdt o' : ℤ) + sizeofProperty + l).toNat
        = fdtOffsetPtrRaw m₁ fdt o' + sizeofProperty + l := by omega
    have hl : l < 0x100000000 := by omega
    have hsum' : v.length + l < 0x80000000 := by omega
    dsimp only
    rw [int_eq (Int.natCast_add _ _).symm hsum', uint_eq rfl hl, uint_eq rfl (by omega), hat]
    rcases hsplice with ⟨e, hsplice⟩ | ⟨m₂, hsplice, hs₂, hsame₂, hroom⟩
    · rw [hsplice]
      cases e <;> exact .pure (hs.keeps hsame)
    · rw [hsplice]
      obtain ⟨hs₃, hsame₃⟩ := hs₂.keeps_write (b := be32 (v.length + l))
        (a := fdtOffsetPtrRaw m₁ fdt o' + 4) (by omega) (by rw [length_be32]; omega)
      refine (hs₃.memcpyFrom_yields ((hsame.trans hsame₂).trans hsame₃) (b := v)
        (a := fdtOffsetPtrRaw m₁ fdt o' + sizeofProperty + l) (by omega) (by omega)).bind ?_
      exact fun _ hm => .pure hm

/-- **`fdt_delprop`.** -/
theorem delprop_contained (k : CStr) :
    Yields (fdtDelprop m fdt o k.obj) (Contained m fdt) := by
  refine rwProbe_yields hheader hbound (fun e => contained_refl hheader _)
    fun m₁ hs hsame => ?_
  have hsizes := hs.sizes
  refine (hs.readable.getProperty_yields k ho).bind ?_
  rintro ⟨prop, oldlen⟩ hfound
  rcases hfound with ⟨hnone, -⟩ | ⟨o', l, heq, -, ho', -, hend, hversion⟩
  · obtain rfl : prop = none := hnone
    exact .pure (hs.keeps hsame)
  · cases heq
    rw [hs.totalsize] at hend
    have hraw := offsetPtrRaw_le m₁ fdt (o := o') (by omega)
    have hstruct := hversion hs.accepted.version
    have hold := fdtTagalign_bounds l
    have hl : l < 0x100000000 := by omega
    have hsplice := hs.spliceStruct_cases (fdtOffsetPtrRaw m₁ fdt o')
      (sizeofProperty + fdtTagalign l : ℕ) 0 hraw (by omega) le_rfl (by decide)
    dsimp only
    rw [uint_eq rfl hl]
    rcases hsplice with ⟨e, hsplice⟩ | ⟨m₂, hsplice, hs₂, hsame₂, -⟩
    · rw [hsplice]
      exact .pure (hs.keeps hsame)
    · rw [hsplice]
      exact .pure (hs₂.keeps (hsame.trans hsame₂))

/-- **`fdt_set_name`.** -/
theorem setName_contained (k : CStr) (hsize : fdtTagalign (k.bytes.length + 1) < 0x80000000) :
    Yields (fdtSetName m fdt o k.obj) (Contained m fdt) := by
  refine rwProbe_yields hheader hbound (fun e => contained_refl hheader _)
    fun m₁ hs hsame => ?_
  have hsizes := hs.sizes
  refine (hs.readable.getName_yields ho).bind ?_
  rintro ⟨namep, oldlen⟩ hname
  rcases hname with ⟨hnone, -⟩ | ⟨i, l, heq, hpos, hend, hversion⟩
  · obtain rfl : namep = none := hnone
    exact .pure (hs.keeps hsame)
  · obtain ⟨rfl, hstruct⟩ := hversion hs.accepted.version
    cases heq
    rw [hs.totalsize] at hend
    have hraw := offsetPtrRaw_le m₁ fdt hpos
    have hold := fdtTagalign_bounds (l + 1)
    have hnew := fdtTagalign_bounds (k.bytes.length + 1)
    have hl : l + 1 < 0x100000000 := by omega
    have hsplice := hs.spliceStruct_cases (fdtOffsetPtrRaw m₁ fdt o + 4)
      (fdtTagalign (l + 1)) (fdtTagalign (k.bytes.length + 1)) (by omega) (by omega)
      (by omega) (by omega)
    dsimp only
    rw [k.fetch_strlen, ok_bind, uint_eq (x := (l : ℤ) + 1) (n := l + 1) rfl hl]
    rcases hsplice with ⟨e, hsplice⟩ | ⟨m₂, hsplice, hs₂, hsame₂, hroom⟩
    · rw [hsplice]
      cases e <;> exact .pure (hs.keeps hsame)
    · rw [hsplice, ← k.length_obj]
      rw [← k.length_obj] at hnew hroom
      refine (hs₂.memcpyFrom_yields (hsame.trans hsame₂) (b := k.obj)
        (a := fdtOffsetPtrRaw m₁ fdt o + 4) (by omega) (by omega)).bind ?_
      exact fun _ hm => .pure hm

/-- **`fdt_del_node`.** -/
theorem delNode_contained : Yields (fdtDelNode m fdt o) (Contained m fdt) := by
  refine rwProbe_yields hheader hbound (fun e => contained_refl hheader _)
    fun m₁ hs hsame => ?_
  have hsizes := hs.sizes
  refine (hs.readable.nodeEndOffset_yields ho).bind fun r hr => .ite (fun _ => ?_) fun hneg => ?_
  · exact .pure (hs.keeps hsame)
  · obtain ⟨hpos, hle, -, hversion⟩ := hr.resolve_left hneg
    have hraw := offsetPtrRaw_le m₁ fdt hpos
    have hstruct := hversion hs.accepted.version
    rcases hs.spliceStruct_cases (fdtOffsetPtrRaw m₁ fdt o) (r - o) 0 hraw
      (by omega) le_rfl (by decide) with ⟨e, hsplice⟩ | ⟨m₂, hsplice, hs₂, hsame₂, -⟩
    · rw [hsplice]
      exact .pure (hs.keeps hsame)
    · rw [hsplice]
      exact .pure (hs₂.keeps (hsame.trans hsame₂))

/-- **`fdt_add_subnode`.** -/
theorem addSubnode_contained (k : CStr) (hsize : nodeRoom k < 0x80000000) :
    Yields (fdtAddSubnode m fdt o k.obj) fun x => x.1 < 0x80000000 ∧ Contained m fdt x := by
  have hlen := k.length_obj
  have halign := fdtTagalign_bounds (k.bytes.length + 1)
  have htagsize : fdtTagsize = 4 := rfl
  rw [nodeRoom] at hsize
  rw [fdtAddSubnode, k.fetch_strlen, ok_bind]
  refine rwProbe_yields hheader hbound
    (fun e => ⟨e.code_neg.trans (by decide), contained_refl hheader _⟩) fun m₁ hs hsame => ?_
  have hsizes := hs.sizes
  have hstay {r : ℤ} (hr : r < 0x80000000) : Yields (pure (r, m₁) : MemM (ℤ × Mem))
      fun x => x.1 < 0x80000000 ∧ Contained m fdt x := .pure ⟨hr, hs.keeps hsame⟩
  refine (hs.readable.subnodeOffset_yields (by omega) ho).bind fun r hr =>
    .ite (fun _ => hstay (by decide)) fun _ => .ite (fun _ => hstay hr) fun _ =>
      (hs.readable.nextTag_yields ho).bind ?_
  rintro ⟨tag, next⟩ htag
  refine .ite (fun _ => hstay (by decide)) fun hbegin => ?_
  have hends := htag.resolve_left fun hx => hbegin (by rw [show tag = fdtEnd from hx.1]; decide)
  obtain ⟨hpos, hle, hlt⟩ := hends.bounds hs.readable.le_offDtStruct
  refine (hs.readable.skipProperties_yields (hs.readable.enough (.inr ⟨by omega, hlt⟩)) hlt
    (by omega)).bind fun o' ho' => ?_
  have hraw := offsetPtrRaw_le m₁ fdt ho'.1
  have hsplice := hs.spliceStruct_cases (fdtOffsetPtrRaw m₁ fdt o') 0
    (4 + fdtTagalign (k.bytes.length + 1) + fdtTagsize : ℕ) hraw (by omega) (by omega)
    (by omega)
  rcases hsplice with ⟨e, hsplice⟩ | ⟨m₂, hsplice, hs₂, hsame₂, hroom⟩
  · dsimp only
    rw [hsplice]
    have he := e.code_neg.trans (by decide : (0 : ℤ) < 0x80000000)
    cases e <;> exact hstay he
  · have htake : (k.obj.take k.bytes.length).length = k.bytes.length :=
      List.length_take_of_le (by omega)
    obtain ⟨hs₃, hsame₃⟩ := hs₂.keeps_write (b := be32 fdtBeginNode)
      (a := fdtOffsetPtrRaw m₁ fdt o') (by omega) (by rw [length_be32]; omega)
    obtain ⟨hs₄, hsame₄⟩ := hs₃.keeps_write (a := fdtOffsetPtrRaw m₁ fdt o' + 4)
      (b := List.replicate (fdtTagalign (k.bytes.length + 1)) 0#8) (by omega)
      (by rw [List.length_replicate]; omega)
    obtain ⟨hs₅, hsame₅⟩ := hs₄.keeps_write (a := fdtOffsetPtrRaw m₁ fdt o' + 4)
      (b := k.obj.take k.bytes.length) (by omega) (by omega)
    obtain ⟨hs₆, hsame₆⟩ := hs₅.keeps_write (b := be32 fdtEndNode)
      (a := fdtOffsetPtrRaw m₁ fdt o' + (4 + fdtTagalign (k.bytes.length + 1) + fdtTagsize)
        - fdtTagsize) (by omega) (by rw [length_be32]; omega)
    have hsame₆ := ((((hsame.trans hsame₂).trans hsame₃).trans hsame₄).trans hsame₅).trans hsame₆
    have hstore : Yields (((m₂.st32 (fdtOffsetPtrRaw m₁ fdt o') fdtBeginNode).memset
          (fdtOffsetPtrRaw m₁ fdt o' + 4) 0#8 (fdtTagalign (k.bytes.length + 1))).memcpyFrom
          (fdtOffsetPtrRaw m₁ fdt o' + 4) k.obj k.bytes.length >>= fun m =>
        pure (o', m.st32 (fdtOffsetPtrRaw m₁ fdt o' +
          (4 + fdtTagalign (k.bytes.length + 1) + fdtTagsize) - fdtTagsize) fdtEndNode))
        fun x => x.1 < 0x80000000 ∧ Contained m fdt x := by
      rw [Mem.memset_eq, memcpyFrom_eq (by omega), ok_bind]
      have htotal := hs.readable.totalsize_lt
      exact .pure ⟨by dsimp only; omega, hs₆.keeps hsame₆⟩
    dsimp only
    rw [hsplice]
    exact hstore

/-- **`fdt_setprop_inplace`**, which does not probe the blob. -/
theorem setpropInplace_contained (k : CStr) (v : List Byte) :
    Yields (fdtSetpropInplace m fdt o k.obj v v.length) (Contained m fdt) := by
  have h := readable hheader hbound
  have hstruct := h.le_offDtStruct
  have hkeeps := contained_refl hheader 0
  have hget := h.getprop_yields (n := k.bytes.length) (s := k.obj) (by rw [k.length_obj]; omega) ho
  rw [fdtSetpropInplace, k.fetch_strlen, ok_bind]
  refine hget.bind ?_
  rintro ⟨_ | p, proplen⟩ -
  · exact .pure hkeeps
  refine .ite (fun _ => .pure hkeeps) fun _ => hget.bind ?_
  rintro ⟨prop, proplen⟩ hfound
  rcases hfound with hnone | ⟨p, l, heq, hp, hend⟩
  · obtain rfl : prop = none := hnone
    exact .pure hkeeps
  cases heq
  have hl : l < 0x100000000 := by
    have htotal := h.totalsize_lt
    omega
  dsimp only
  rw [uint_eq rfl hl]
  refine .ite (fun _ => .pure hkeeps) fun hfits => Mem.memcpyFrom_yields.bind ?_
  rintro _ rfl
  have htotal : fdtTotalsize (Memory.write m p v) fdt = fdtTotalsize m fdt :=
    ld32_write (.inl (by omega))
  exact .pure ⟨.write m (by omega) (by omega), (checkHeader_write (by omega)).trans hheader, htotal⟩

/-- **An edit** that the blob is large enough to be asked for. -/
theorem Edit.call_contained {e : Edit} (he : e.bytewise)
    (hsize : fdtTotalsize m fdt + e.size < 0x80000000) :
    Yields (e.call m fdt o) (Contained m fdt) := by
  cases e with
  | setprop k v =>
    exact setprop_contained hheader hbound ho k v (Nat.lt_of_le_of_lt (Nat.le_add_left _ _) hsize)
  | appendprop k v => exact appendprop_contained hheader hbound ho k v hsize
  | setpropInplace k v => exact setpropInplace_contained hheader hbound ho k v
  | delprop k => exact delprop_contained hheader hbound ho k
  | setName k =>
    exact setName_contained hheader hbound ho k (by simp only [Edit.size, nodeRoom] at hsize; omega)
  | addSubnode k =>
    exact (addSubnode_contained hheader hbound ho k
      (Nat.lt_of_le_of_lt (Nat.le_add_left _ _) hsize)).mono fun _ hx => hx.2
  | delNode => exact delNode_contained hheader hbound ho
  | nopProperty k => cases he
  | nopNode => cases he

end

end LittleLoader
