import LittleLoader.Dtb.Tree
import LittleLoader.Dtb.Unique

/-!
# Dtb/Load — boot arguments in the tree that the kernel gets

    source ──memcpy_──▸ dest ──fdt_add_subnode──▸ … ──fdt_setprop──▸ the tree with boot arguments

The node is found or made, and then the property is set: the blob stores the tree with boot
arguments, or the run ends for want of free space (`addBootargs_cases`).  There is no third case.
-/

namespace LittleLoader

open Memory Mem

variable {m m' : Mem} {fdt n : ℕ} {l l' : Layout} {pre post is : List Item} {i : Item}
  {strings : List Byte} {ts us : List Token} {t : DeviceTree} {args : CStr}

/-- The free space that is enough for boot arguments. -/
def bootargsRoom (args : CStr) : ℕ := nodeRoom chosen + (Edit.setprop bootargs args.obj).room

theorem bootargsRoom_le (args : CStr) : bootargsRoom args ≤ args.bytes.length + 64 := by
  have hlen := args.length_obj
  have hnode : nodeRoom chosen = 16 := by decide
  have hbootargs : bootargs.obj.length = 9 := by decide
  simp only [bootargsRoom, Edit.room, hnode, hbootargs, sizeofProperty, fdtTagalign]
  omega

/-- An edited blob stores the tree of its structure block; the rest of the tree is as it was. -/
theorem Layout.Stores.edited {root : Node} (hs : l.Stores t) (hedit : Edited fdt m l m' l')
    (htree : l'.HasTree root) : l'.Stores ⟨t.bootCpuid, t.reservations, root⟩ where
  totalsize := hedit.totalsize ▸ hs.totalsize
  lastCompVersion := by
    rw [hedit.rest]
    exact hs.lastCompVersion
  bootCpuid := by
    rw [hedit.rest]
    exact hs.bootCpuid
  reservations := by
    rw [hedit.rest]
    exact hs.reservations
  used := hs.used
  structs := by
    obtain ⟨i, is, -, hi, hd⟩ := htree
    exact ⟨i :: is, hi, hd⟩

/-! ## `fdt_add_bootargs` -/

/-- The run ends, and the message says that there is no space. -/
def EndsForSpace (x : MemM Mem) : Prop :=
  ∃ fmt, x = .error (.fatal ⟨fmt, [.str (lit "FDT_ERR_NOSPACE")]⟩)

namespace Loaded

variable (h : Loaded m fdt l)

include h

/-- The last step of `fdt_add_bootargs`, where the node is found. -/
theorem addBootargs_of_found {x r : ℤ} (hx : 0 ≤ x)
    (hpath : fdtPathOffset m fdt (lit "/chosen").dropLast = .ok x)
    (hset : fdtSetprop m fdt x bootargs.obj args.obj args.obj.length = .ok (r, m')) :
    fdtAddBootargs m fdt (some args.obj)
      = if r < 0 then fatalFdt "Failed to set bootargs property: %s" r else .ok m' := by
  have hlit : lit "bootargs" = bootargs.obj := rfl
  have hnotfound : x ≠ FdtErr.notfound.code := by
    rintro rfl
    exact absurd hx (by decide)
  rw [fdtAddBootargs]
  simp only
  rw [h.checkHeader_eq, if_neg (by decide), hpath, ok_bind, if_neg hnotfound,
    if_neg (not_lt.mpr hx), pure_eq, ok_bind]
  simp only
  rw [args.fetch_strlen, ok_bind, hlit, ← args.length_obj, hset, ok_bind]
  rfl

/-- …after the node has been made. -/
theorem addBootargs_of_notFound {x r : ℤ} {m₁ : Mem} (hx : 0 ≤ x)
    (hpath : fdtPathOffset m fdt (lit "/chosen").dropLast = .ok FdtErr.notfound.code)
    (hadd : fdtAddSubnode m fdt 0 chosen.obj = .ok (x, m₁))
    (hset : fdtSetprop m₁ fdt x bootargs.obj args.obj args.obj.length = .ok (r, m')) :
    fdtAddBootargs m fdt (some args.obj)
      = if r < 0 then fatalFdt "Failed to set bootargs property: %s" r else .ok m' := by
  have hlit : lit "bootargs" = bootargs.obj := rfl
  have hlit' : lit "chosen" = chosen.obj := rfl
  rw [fdtAddBootargs]
  simp only
  rw [h.checkHeader_eq, if_neg (by decide), hpath, ok_bind, if_pos rfl, hlit', hadd, ok_bind]
  simp only
  rw [if_neg (not_lt.mpr hx), pure_eq, ok_bind]
  simp only
  rw [args.fetch_strlen, ok_bind, hlit, ← args.length_obj, hset, ok_bind]
  rfl

/-- The node cannot be made. -/
theorem addBootargs_of_nospace
    (hpath : fdtPathOffset m fdt (lit "/chosen").dropLast = .ok FdtErr.notfound.code)
    (hadd : fdtAddSubnode m fdt 0 chosen.obj = .ok (FdtErr.nospace.code, m')) :
    EndsForSpace (fdtAddBootargs m fdt (some args.obj)) := by
  have hlit : lit "chosen" = chosen.obj := rfl
  rw [fdtAddBootargs]
  simp only
  rw [h.checkHeader_eq, if_neg (by decide), hpath, ok_bind, if_pos rfl, hlit, hadd, ok_bind]
  simp only
  rw [if_pos (by decide)]
  exact ⟨_, rfl⟩

/-- **`fdt_add_bootargs`**: the blob stores the tree with boot arguments, or there is no space. -/
theorem addBootargs_cases (hs : l.Stores t) (hroot : be32 fdtBeginNode <+: l.structs)
    (hlen : args.bytes.length + 64 < 0x80000000) :
    (∃ m' l', fdtAddBootargs m fdt (some args.obj) = .ok m' ∧ Edited fdt m l m' l' ∧
      l'.Stores (t.setBootargs args)) ∨
    (EndsForSpace (fdtAddBootargs m fdt (some args.obj)) ∧
      l.free.length < bootargsRoom args) := by
  have hroom := bootargsRoom_le args
  have hsize : (Edit.setprop bootargs args.obj).size < 0x80000000 := by
    have hle : (Edit.setprop bootargs args.obj).size ≤ bootargsRoom args := Nat.le_add_left _ _
    omega
  obtain ⟨pad, post, hplace⟩ := (hs.hasTree hroot).place
  have hnames : pathNames (lit "/chosen").dropLast = [chosen.bytes] := by decide
  have hfound := h.pathOffset_find hplace (b := (lit "/chosen").dropLast) rfl
  rw [hnames] at hfound
  rw [DeviceTree.setBootargs]
  cases hfind : t.root.find [chosen.bytes] with
  | some p =>
    rw [hfind] at hfound
    obtain ⟨x, pre, pad, post, us, hx, hpath⟩ := hfound
    rw [List.nil_append] at hx
    obtain ⟨r, m', hrun, hend⟩ := h.setprop_place (k := bootargs) (v := args.obj) hx hsize
    have hall := h.addBootargs_of_found (offset_nonneg pre) hpath hrun
    cases hend with
    | done l' hedit hfree hr htree =>
      rw [if_neg (not_lt.mpr hr)] at hall
      refine .inl ⟨m', l', hall, hedit, hs.edited hedit ?_⟩
      dsimp only
      rw [Rose.modify_eq_set hx.node]
      exact htree
    | nospace l' hedit hroom' hr =>
      subst hr
      rw [if_pos (by decide)] at hall
      exact .inr ⟨⟨_, hall⟩, Nat.lt_of_lt_of_le hroom' (Nat.le_add_left _ _)⟩
  | none =>
    rw [hfind] at hfound
    obtain ⟨x, m₁, hadd, hend⟩ := h.addSubnode_place hplace hfind (by decide)
    rw [offset_nil] at hadd
    cases hend with
    | done l₁ hedit₁ hfree₁ hx hchild =>
      obtain ⟨pre', pad', post', us', rfl, hchild⟩ := hchild
      obtain ⟨r, m', hrun, hend⟩ :=
        hedit₁.loaded.setprop_place (k := bootargs) (v := args.obj) hchild hsize
      have hall := h.addBootargs_of_notFound hx hfound hadd hrun
      cases hend with
      | done l' hedit hfree hr htree =>
        rw [if_neg (not_lt.mpr hr)] at hall
        exact .inl ⟨m', l', hall, hedit₁.trans hedit, hs.edited (hedit₁.trans hedit) htree⟩
      | nospace l' hedit hroom' hr =>
        subst hr
        rw [if_pos (by decide)] at hall
        refine .inr ⟨⟨_, hall⟩, ?_⟩
        rw [bootargsRoom]
        omega
    | nospace l' hedit hroom' hr =>
      subst hr
      exact .inr ⟨h.addBootargs_of_nospace hfound hadd,
        Nat.lt_of_lt_of_le hroom' (Nat.le_add_right _ _)⟩

end Loaded

/-! ## `load_dtb` -/

/-- The header of a blob that stores a tree is one that `libfdt` takes, where it is small enough. -/
theorem Layout.Stores.loaded (hs : l.Stores t) (hhas : Has m fdt l.bytes)
    (hsize : l.totalsize < intMax) (halign : fdt % 8 = 0)
    (hbound : fdt + l.totalsize ≤ 0x10000000000000000) : Loaded m fdt l := by
  obtain ⟨before, after, hfront, hoff⟩ := hs.reservations
  have hlen : before.length + 16 ≤ l.front.length := by
    rw [hfront, reservationsBytes]
    simp only [List.length_append, List.length_replicate]
    omega
  refine ⟨hhas, hsize, hs.lastCompVersion, by omega, ?_, halign, hbound⟩
  rw [Layout.offDtStruct]
  omega

/-- **`load_dtb`** copies the blob, and then edits the copy. -/
theorem loadDtb_eq {src dest : ℕ} {bootargs : Option (List Byte)} (hhas : Has m src l.bytes)
    (hsize : l.totalsize < 0x100000000)
    (hdisj : src + l.totalsize ≤ dest ∨ dest + l.totalsize ≤ src) :
    loadDtb m src dest bootargs = fdtAddBootargs (m.write dest l.bytes) dest bootargs := by
  have hword : Has m src (l.header.flatMap be32) := hhas.left
  have hlen : m.ld32 (src + 4) = l.totalsize := ld32_word (k := 1) hword rfl hsize
  have hmagic : m.ldWord src = 0xedfe0dd0 := by
    obtain ⟨h₀, h₁, h₂, h₃, -⟩ : m src = _ ∧ m (src + 1) = _ ∧ m (src + 2) = _ ∧ m (src + 3) = _ ∧
        True := by
      simpa only [be32, has_cons, has_nil, Nat.add_assoc] using
        (show Has m src (be32 fdtMagicNumber) from hword.left)
    rw [ldWord, h₀, h₁, h₂, h₃]
    decide
  have hcopy : m.memcpy dest src l.totalsize = m.write dest l.bytes := by
    rw [Mem.memcpy_eq (by omega), hhas.read_eq l.length_bytes.symm]
  rw [loadDtb, hmagic]
  simp only
  rw [if_neg (not_not.mpr rfl), toNat_be32ToLe32, hlen, hcopy]

/-! ### Blobs that `libfdt` does not edit -/

/-- The blobs that `libfdt` edits: the structure block begins with the root, and the size is below
`INT_MAX`. -/
structure Layout.Editable (l : Layout) : Prop where
  root : be32 fdtBeginNode <+: l.structs
  size : l.totalsize < intMax

/-- The run ends with `fatal`. -/
def EndsFatal (x : MemM Mem) : Prop := ∃ e, x = .error (.fatal e)

theorem EndsForSpace.endsFatal {x : MemM Mem} (h : EndsForSpace x) : EndsFatal x := by
  obtain ⟨fmt, h⟩ := h
  exact ⟨_, h⟩

/-- An error on the way to the node ends the run. -/
theorem addBootargs_fatal {r : ℤ} (hr : r < 0) (hne : r ≠ FdtErr.notfound.code)
    (hpath : fdtPathOffset m fdt (lit "/chosen").dropLast = .ok r) :
    EndsFatal (fdtAddBootargs m fdt (some args.obj)) := by
  rw [fdtAddBootargs]
  simp only
  by_cases hheader : fdtCheckHeader m fdt < 0
  · rw [if_pos hheader]
    exact ⟨_, rfl⟩
  · rw [if_neg hheader, hpath, ok_bind, if_neg hne, if_pos hr]
    exact ⟨_, rfl⟩

/-- A blob of `INT_MAX` bytes or more. -/
theorem Layout.Stores.addBootargs_of_large (hs : l.Stores t) (hhas : Has m fdt l.bytes)
    (hsize : intMax ≤ l.totalsize) (halign : fdt % 8 = 0) :
    EndsFatal (fdtAddBootargs m fdt (some args.obj)) := by
  have hword (k w : ℕ) (hw : l.header[k]? = some w) : m.ld32 (fdt + 4 * k) = w :=
    ld32_word hhas.left hw (hs.header_lt _ (List.mem_of_getElem? hw))
  have hmagic : fdtMagic m fdt = fdtMagicNumber := hword 0 _ rfl
  have htotal : fdtTotalsize m fdt = l.totalsize := hword 1 _ rfl
  have hversion : fdtVersion m fdt = 17 := hword 5 _ rfl
  have hcomp : fdtLastCompVersion m fdt = l.lastCompVersion := hword 6 _ rfl
  have hle := hs.lastCompVersion
  have hprobe : fdtRoProbe m fdt = FdtErr.truncated.code := by
    simp only [fdtRoProbe, halign, hmagic, htotal, hversion, hcomp]
    rw [if_neg (by decide), if_neg (by omega), if_neg fun hc => absurd hc.1 (by decide),
      if_neg (by decide), if_neg (by omega)]
  refine addBootargs_fatal (r := FdtErr.truncated.code) (by decide) (by decide) ?_
  rw [fdtPathOffset, hprobe]
  rfl

/-- A blob whose structure block begins with a NOP. -/
theorem Loaded.addBootargs_of_nop (h : Loaded m fdt l) (hi : l.HasItems (.nop :: post)) :
    EndsFatal (fdtAddBootargs m fdt (some args.obj)) := by
  have hprobe : ¬ fdtRoProbe m fdt < 0 := by
    rw [h.roProbe_eq]
    omega
  have hnop : Item.nop.tag ≠ fdtBeginNode := by decide
  have hfirst : l.HasItems ([] ++ .nop :: post) := hi
  have htag := h.nextTag_eq hfirst
  rw [offset_nil] at htag
  have hcheck : fdtCheckNodeOffset m fdt 0 = .ok FdtErr.badoffset.code := by
    rw [fdtCheckNodeOffset, if_neg (by decide), htag, ok_bind]
    simp only
    rw [if_pos hnop, pure_eq]
  have hnext : fdtNextNode m fdt 0 0 = .ok (FdtErr.badoffset.code, 0) := by
    rw [fdtNextNode, if_pos (by decide), hcheck, ok_bind]
    exact if_pos (by decide)
  have hsearch : fdtSubnodeOffsetNamelen m fdt 0 chosen.bytes chosen.bytes.length
      = .ok FdtErr.badoffset.code := by
    rw [fdtSubnodeOffsetNamelen, if_neg hprobe, subnodeLoop, if_pos (by decide),
      if_neg (by decide), hnext, ok_bind]
    simp only
    rw [subnodeLoop, if_neg (by decide), if_neg (by decide), pure_eq]
  have hpath : fdtPathOffset m fdt (lit "/chosen").dropLast
      = fdtSubnodeOffsetNamelen m fdt 0 chosen.bytes chosen.bytes.length >>= fun x =>
        if x < 0 then pure x else pathLoop m fdt 7 [] x := by
    rw [fdtPathOffset, if_neg hprobe]
    rfl
  rw [hsearch, ok_bind, if_pos (by decide)] at hpath
  exact addBootargs_fatal (by decide) (by decide) hpath

/-! ### The tree that the kernel gets -/

/-- **The kernel gets the tree**: the run completes, nothing outside the `n` bytes at `dest` has
changed, and what is there is a blob of that tree and of no other. -/
def Loads (m : Mem) (src dest n : ℕ) (args : CStr) (t : DeviceTree) : Prop :=
  ∃ m', loadDtb m src dest (some args.obj) = .ok m' ∧ SameOutside dest n m m' ∧
    ∃ b, b.length = n ∧ Has m' dest b ∧ ∀ u, IsDtb b u ↔ u = t

/-- A blob that `libfdt` edits gets the boot arguments, or there is no space for them. -/
theorem Layout.Stores.loads_cases {src dest : ℕ} (hs : l.Stores t) (he : l.Editable)
    (hhas : Has m src l.bytes) (hlen : args.bytes.length + 64 < 0x80000000)
    (halign : dest % 8 = 0) (hbound : dest + l.totalsize ≤ 0x10000000000000000)
    (hdisj : src + l.totalsize ≤ dest ∨ dest + l.totalsize ≤ src) :
    Loads m src dest l.totalsize args (t.setBootargs args) ∨
      EndsForSpace (loadDtb m src dest (some args.obj)) ∧ l.free.length < bootargsRoom args := by
  have hloaded := hs.loaded (has_write m dest l.bytes) he.size halign hbound
  rw [loadDtb_eq hhas hs.totalsize hdisj]
  rcases hloaded.addBootargs_cases hs he.root hlen with
    ⟨m', l', hadd, hedit, hstores⟩ | hnospace
  · have hcopy := SameOutside.write m (Nat.le_refl dest)
      (Nat.le_of_eq (congrArg (dest + ·) l.length_bytes))
    refine .inl ⟨m', ?_, hcopy.trans hedit.same, l'.bytes, l'.length_bytes.trans hedit.totalsize,
      hedit.loaded.has, fun u => ⟨fun hu => hu.unique ⟨l', rfl, hstores⟩, ?_⟩⟩
    · rw [loadDtb_eq hhas hs.totalsize hdisj, hadd]
    · rintro rfl
      exact ⟨l', rfl, hstores⟩
  · exact .inr hnospace

/-- 64 bytes of free space beside them are enough. -/
theorem Layout.Stores.loads_of_room {src dest : ℕ} (hs : l.Stores t) (he : l.Editable)
    (hhas : Has m src l.bytes) (hroom : args.bytes.length + 64 ≤ l.free.length)
    (halign : dest % 8 = 0) (hbound : dest + l.totalsize ≤ 0x10000000000000000)
    (hdisj : src + l.totalsize ≤ dest ∨ dest + l.totalsize ≤ src) :
    Loads m src dest l.totalsize args (t.setBootargs args) := by
  have hle := bootargsRoom_le args
  have hlen : args.bytes.length + 64 < 0x80000000 := by
    have hsize := he.size
    rw [Layout.totalsize, intMax] at hsize
    omega
  rcases hs.loads_cases he hhas hlen halign hbound hdisj with hloads | ⟨-, hlt⟩
  · exact hloads
  · omega

/-- A blob that it does not edit ends the run. -/
theorem Layout.Stores.endsFatal {src dest : ℕ} (hs : l.Stores t) (he : ¬ l.Editable)
    (hhas : Has m src l.bytes) (halign : dest % 8 = 0)
    (hbound : dest + l.totalsize ≤ 0x10000000000000000)
    (hdisj : src + l.totalsize ≤ dest ∨ dest + l.totalsize ≤ src) :
    EndsFatal (loadDtb m src dest (some args.obj)) := by
  rw [loadDtb_eq hhas hs.totalsize hdisj]
  rcases Nat.lt_or_ge l.totalsize intMax with hsize | hsize
  · obtain ⟨is, hi, hd⟩ := hs.structs
    rw [Node.tokens_eq] at hd
    cases hd with
    | nop =>
      exact (hs.loaded (has_write m dest l.bytes) hsize halign hbound).addBootargs_of_nop hi
    | beginNode =>
      refine absurd ⟨?_, hsize⟩ he
      rw [hi.structs]
      exact List.prefix_append _ _
  · exact hs.addBootargs_of_large (has_write m dest l.bytes) hsize halign

/-- **All or nothing**: whatever its free space is, a blob that `libfdt` edits gets the boot
arguments or the run ends for want of space; for any other blob the run ends. -/
theorem loadDtb_allOrNothing {src dest : ℕ} (hhas : Has m src l.bytes) (hs : l.Stores t)
    (hlen : args.bytes.length + 64 < 0x80000000) (halign : dest % 8 = 0)
    (hbound : dest + l.totalsize ≤ 0x10000000000000000)
    (hdisj : src + l.totalsize ≤ dest ∨ dest + l.totalsize ≤ src) :
    (l.Editable → Loads m src dest l.totalsize args (t.setBootargs args) ∨
      EndsForSpace (loadDtb m src dest (some args.obj)) ∧ l.free.length < bootargsRoom args) ∧
    (¬ l.Editable → EndsFatal (loadDtb m src dest (some args.obj))) :=
  ⟨fun he => hs.loads_cases he hhas hlen halign hbound hdisj,
    fun he => hs.endsFatal he hhas halign hbound hdisj⟩

/-- **Boot arguments reach the kernel**, where there are 64 bytes of free space beside them:
`load_dtb` leaves a blob of the tree with boot arguments if `libfdt` edits the blob, and ends the
run if not.  Without boot arguments it copies the blob byte for byte. -/
theorem loadDtb_bootargs {src dest : ℕ} (args : Option CStr) (hhas : Has m src l.bytes)
    (hs : l.Stores t) (hroom : ∀ a ∈ args, a.bytes.length + 64 ≤ l.free.length)
    (halign : dest % 8 = 0) (hbound : dest + l.totalsize ≤ 0x10000000000000000)
    (hdisj : src + l.totalsize ≤ dest ∨ dest + l.totalsize ≤ src) :
    match args with
    | none => ∃ m', loadDtb m src dest none = .ok m' ∧ SameOutside dest l.totalsize m m' ∧
        Has m' dest l.bytes
    | some a =>
        (l.Editable → Loads m src dest l.totalsize a (t.setBootargs a)) ∧
        (¬ l.Editable → EndsFatal (loadDtb m src dest (some a.obj))) := by
  cases args with
  | none =>
    refine ⟨m.write dest l.bytes, ?_, SameOutside.write m (Nat.le_refl dest)
      (Nat.le_of_eq (congrArg (dest + ·) l.length_bytes)), has_write _ _ _⟩
    rw [loadDtb_eq hhas hs.totalsize hdisj]
    rfl
  | some a =>
    exact ⟨fun he => hs.loads_of_room he hhas (hroom a rfl) halign hbound hdisj,
      fun he => hs.endsFatal he hhas halign hbound hdisj⟩

/-! ### Three blobs -/

/-- The root has no name. -/
def rootName : CStr := ⟨[], List.not_mem_nil⟩

/-- A blob of version 17 without reservations and without properties. -/
def sampleLayout (items : List Item) (free : ℕ) : Layout where
  offMemRsvmap := 40
  lastCompVersion := 16
  bootCpuidPhys := 0
  front := reservationsBytes []
  structs := itemsBytes items ++ be32 fdtEnd
  gap := []
  strings := []
  free := List.replicate free 0#8

theorem totalsize_sampleLayout (items : List Item) (free : ℕ) :
    (sampleLayout items free).totalsize = 60 + (itemsBytes items).length + free := by
  have hfront : (reservationsBytes []).length = 16 := by decide
  simp only [Layout.totalsize, Layout.offDtStrings, Layout.offDtStruct, sampleLayout,
    List.length_append, List.length_nil, List.length_replicate, length_be32, hfront]
  omega

theorem sampleLayout_stores {items : List Item} {root : Node} {free : ℕ}
    (hsize : 60 + (itemsBytes items).length + free < 0x100000000)
    (hpadded : ∀ i ∈ items, i.Padded) (hroot : Denotes [] items root.tokens) :
    (sampleLayout items free).Stores ⟨0, [], root⟩ where
  totalsize := (totalsize_sampleLayout items free).trans_lt hsize
  lastCompVersion := show 16 ≤ 17 by decide
  bootCpuid := ⟨rfl, show 0 < 0x100000000 by decide⟩
  reservations := ⟨[], [], by rw [List.nil_append, List.append_nil]; rfl, rfl⟩
  used := fun _ h => absurd h List.not_mem_nil
  structs := ⟨items, ⟨rfl, hpadded⟩, hroot⟩

/-- A tree that is only a root. -/
def rootTree : DeviceTree := ⟨0, [], .mk rootName [] []⟩

/-- The items of its blob. -/
def rootItems : List Item := [.beginNode rootName [0#8, 0#8, 0#8], .endNode]

theorem denotes_rootItems : Denotes [] rootItems rootTree.root.tokens := by
  rw [Node.tokens_eq]
  exact .beginNode _ _ (.endNode .nil)

/-- A tree whose root has one child, `chosen@0`. -/
def unitAddressTree : DeviceTree :=
  ⟨0, [], .mk rootName [] [.mk (.lit "chosen@0") [] []]⟩

/-- The items of its blob. -/
def unitAddressItems : List Item :=
  [.beginNode rootName [0#8, 0#8, 0#8], .beginNode (.lit "chosen@0") [0#8, 0#8, 0#8], .endNode,
    .endNode]

/-- Its blob. -/
def unitAddress : Layout := sampleLayout unitAddressItems 80

theorem unitAddress_stores : unitAddress.Stores unitAddressTree := by
  refine sampleLayout_stores (by decide) (by decide) ?_
  simp only [Node.tokens_eq]
  exact .beginNode _ _ (.beginNode _ _ (.endNode (.endNode .nil)))

/-- The memory that holds a blob at `0x1000`. -/
def atSource (l : Layout) : Mem := Memory.write (fun _ => 0#8) 0x1000 l.bytes

theorem unitAddress_editable : unitAddress.Editable := ⟨by decide, by decide⟩

/-- The tree with boot arguments in the node `chosen@0`. -/
theorem loadDtb_bootargs_unitAddress :
    Loads (atSource unitAddress) 0x1000 0x2000 unitAddress.totalsize (.lit "quiet")
      (unitAddressTree.setBootargs (.lit "quiet")) :=
  (loadDtb_bootargs (some (.lit "quiet")) (has_write _ _ _) unitAddress_stores (by decide)
    (by decide) (by decide) (by decide)).1 unitAddress_editable

/-- Less free space than that, and still enough. -/
theorem loadDtb_allOrNothing_tight :
    Loads (atSource (sampleLayout rootItems 45)) 0x1000 0x2000
      (sampleLayout rootItems 45).totalsize (.lit "quiet")
      (rootTree.setBootargs (.lit "quiet")) := by
  have hs : (sampleLayout rootItems 45).Stores rootTree :=
    sampleLayout_stores (by decide) (by decide) denotes_rootItems
  exact ((loadDtb_allOrNothing (has_write _ _ _) hs (by decide) (by decide) (by decide)
    (by decide)).1 ⟨by decide, by decide⟩).resolve_right fun hspace => absurd hspace.2 (by decide)

/-- The boot arguments are delivered in a child `chosen` of the root. -/
def Delivers (m : Mem) (src dest n : ℕ) (args : CStr) : Prop :=
  ∃ m' b u, loadDtb m src dest (some args.obj) = .ok m' ∧ b.length = n ∧ Has m' dest b ∧ IsDtb b u ∧
    ∃ c ∈ u.root.children, Node.name c = chosen ∧ (Node.props c).lookup bootargs = some args.obj

theorem EndsFatal.not_delivers {src dest : ℕ}
    (h : EndsFatal (loadDtb m src dest (some args.obj))) : ¬ Delivers m src dest n args := by
  rintro ⟨m', b, u, hok, -⟩
  obtain ⟨e, herr⟩ := h
  exact absurd (herr.symm.trans hok) nofun

theorem Loads.not_delivers {src dest : ℕ} (h : Loads m src dest n args t)
    (hnot : ∀ c ∈ t.root.children, Node.name c ≠ chosen) : ¬ Delivers m src dest n args := by
  obtain ⟨m', hok, -, b, hlen, hhas, htree⟩ := h
  rintro ⟨m'', b', u, hok', hlen', hhas', hu, c, hc, hname, -⟩
  obtain rfl : m' = m'' := Except.ok.inj (hok.symm.trans hok')
  obtain rfl : b = b' := (hhas.read_eq hlen.symm).symm.trans (hhas'.read_eq hlen'.symm)
  obtain rfl := (htree u).mp hu
  exact hnot c hc hname

/-- The blob of the tree has room for the arguments, and they are not delivered. -/
structure Undelivered (l : Layout) (t : DeviceTree) (dest : ℕ) (args : CStr) : Prop where
  stores : l.Stores t
  room : args.bytes.length + 64 ≤ l.free.length
  not_delivers : ¬ Delivers (atSource l) 0x1000 dest l.totalsize args

theorem sampleLayout_undelivered {items : List Item} {root : Node} {free dest : ℕ}
    (hs : (sampleLayout items free).Stores ⟨0, [], root⟩)
    (hnot : ¬ (sampleLayout items free).Editable) (halign : dest % 8 = 0)
    (hroom : args.bytes.length + 64 ≤ free)
    (hdest : 0x1000 + (sampleLayout items free).totalsize ≤ dest)
    (hbound : dest + (sampleLayout items free).totalsize ≤ 0x10000000000000000) :
    Undelivered (sampleLayout items free) ⟨0, [], root⟩ dest args where
  stores := hs
  room := hroom.trans_eq List.length_replicate.symm
  not_delivers := (hs.endsFatal hnot (has_write _ _ _) halign hbound (.inl hdest)).not_delivers

/-- **Not every blob with room** gets its arguments in a node `chosen`: not one that begins with a
NOP, not one with a node `chosen@0`, and not one of 2 GiB. -/
theorem undelivered_blobs :
    Undelivered (sampleLayout (.nop :: rootItems) 80) rootTree 0x2000 (.lit "quiet") ∧
      Undelivered unitAddress unitAddressTree 0x2000 (.lit "quiet") ∧
      Undelivered (sampleLayout rootItems 0x80000000) rootTree 0x100000000 (.lit "quiet") := by
  have hloads : Loads (atSource unitAddress) 0x1000 0x2000 unitAddress.totalsize (.lit "quiet")
      (unitAddressTree.setBootargs (.lit "quiet")) :=
    unitAddress_stores.loads_of_room unitAddress_editable (has_write _ _ _) (by decide) (by decide)
      (by decide) (by decide)
  refine ⟨?_, ⟨unitAddress_stores, by decide, hloads.not_delivers (by decide)⟩, ?_⟩
  · exact sampleLayout_undelivered
      (sampleLayout_stores (by decide) (by decide) (.nop denotes_rootItems))
      (fun he => absurd he.root (by decide)) (by decide) (by decide) (by decide) (by decide)
  · have hlen : (sampleLayout rootItems 0x80000000).totalsize = 0x80000048 :=
      totalsize_sampleLayout rootItems 0x80000000
    exact sampleLayout_undelivered (sampleLayout_stores (by decide) (by decide) denotes_rootItems)
      (fun he => absurd (hlen ▸ he.size) (by decide)) (by decide) (by decide) (hlen ▸ by decide)
      (hlen ▸ by decide)

end LittleLoader
