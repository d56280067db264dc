import Mathlib.Data.Int.Notation
import LittleLoader.Machine.Memory
import LittleLoader.Machine.Util

/-!
# Machine/Libfdt — reading a device tree: `fdt.c` and `fdt_ro.c`

`fdt` is the address of the blob.  An `int` is an integer, an `unsigned int` a natural number, and
what the conversion to one of them cuts off is cut off (`uint`, `int`).  `FDT_ASSUME_MASK` is 0, so
every check that `can_assume` could drop is made.  A loop over the structure block is bounded by
`totalsize`: each round moves on by a tag at least.
-/

namespace LittleLoader

/-- A value converted to `unsigned int`. -/
def uint (x : ℤ) : ℕ := (x % 0x100000000).toNat

/-- A value converted to `int`. -/
def int (x : ℤ) : ℤ := Int.bmod x 0x100000000

/-! ## Constants -/

/-- `FDT_MAGIC`. -/
def fdtMagicNumber : ℕ := 0xd00dfeed

/-- `FDT_SW_MAGIC`. -/
def fdtSwMagicNumber : ℕ := 0x2ff20112

/-- `FDT_TAGSIZE`. -/
def fdtTagsize : ℕ := 4

/-- `FDT_BEGIN_NODE`. -/
def fdtBeginNode : ℕ := 1

/-- `FDT_END_NODE`. -/
def fdtEndNode : ℕ := 2

/-- `FDT_PROP`. -/
def fdtProp : ℕ := 3

/-- `FDT_NOP`. -/
def fdtNop : ℕ := 4

/-- `FDT_END`. -/
def fdtEnd : ℕ := 9

/-- `INT_MAX`. -/
def intMax : ℕ := 0x7fffffff

/-- The negated error numbers that the functions return. -/
inductive FdtErr
  | notfound | exists_ | nospace | badoffset | badpath | badstate | truncated | badmagic
  | badversion | badstructure | badlayout | internal | alignment
deriving DecidableEq

/-- `-FDT_ERR_…`. -/
def FdtErr.code : FdtErr → ℤ
  | notfound => -1
  | exists_ => -2
  | nospace => -3
  | badoffset => -4
  | badpath => -5
  | badstate => -7
  | truncated => -8
  | badmagic => -9
  | badversion => -10
  | badstructure => -11
  | badlayout => -12
  | internal => -13
  | alignment => -19

/-- `FDT_TAGALIGN`. -/
def fdtTagalign (x : ℕ) : ℕ := (x + 3) / 4 * 4

/-- `sizeof(struct fdt_property)`. -/
def sizeofProperty : ℕ := 12

/-! ## The header -/

section Header

variable (m : Mem) (fdt : ℕ)

/-- `fdt_magic`. -/
def fdtMagic : ℕ := m.ld32 fdt

/-- `fdt_totalsize`. -/
def fdtTotalsize : ℕ := m.ld32 (fdt + 4)

/-- `fdt_off_dt_struct`. -/
def fdtOffDtStruct : ℕ := m.ld32 (fdt + 8)

/-- `fdt_off_dt_strings`. -/
def fdtOffDtStrings : ℕ := m.ld32 (fdt + 12)

/-- `fdt_off_mem_rsvmap`. -/
def fdtOffMemRsvmap : ℕ := m.ld32 (fdt + 16)

/-- `fdt_version`. -/
def fdtVersion : ℕ := m.ld32 (fdt + 20)

/-- `fdt_last_comp_version`. -/
def fdtLastCompVersion : ℕ := m.ld32 (fdt + 24)

/-- `fdt_size_dt_strings`. -/
def fdtSizeDtStrings : ℕ := m.ld32 (fdt + 32)

/-- `fdt_size_dt_struct`. -/
def fdtSizeDtStruct : ℕ := m.ld32 (fdt + 36)

/-- `fdt_ro_probe_`. -/
def fdtRoProbe : ℤ :=
  let totalsize := fdtTotalsize m fdt
  if fdt % 8 ≠ 0 then FdtErr.alignment.code
  else if fdtMagic m fdt = fdtMagicNumber ∧
      (fdtVersion m fdt < 0x02 ∨ fdtLastCompVersion m fdt > 0x11) then FdtErr.badversion.code
  else if fdtMagic m fdt = fdtSwMagicNumber ∧ fdtSizeDtStruct m fdt = 0 then FdtErr.badstate.code
  else if fdtMagic m fdt ≠ fdtMagicNumber ∧ fdtMagic m fdt ≠ fdtSwMagicNumber then
    FdtErr.badmagic.code
  else if totalsize < intMax then totalsize
  else FdtErr.truncated.code

/-- `check_off_`. -/
def checkOff (hdrsize totalsize off : ℕ) : Bool := hdrsize ≤ off ∧ off ≤ totalsize

/-- `check_block_`. -/
def checkBlock (hdrsize totalsize base size : ℕ) : Bool :=
  checkOff hdrsize totalsize base ∧ ¬ uint (base + size) < base ∧
    checkOff hdrsize totalsize (uint (base + size))

/-- `fdt_header_size`. -/
def fdtHeaderSize : ℕ :=
  let version := fdtVersion m fdt
  if version ≤ 1 then 28 else if version ≤ 2 then 32 else if version ≤ 3 then 36
  else if version ≤ 16 then 36 else 40

/-- `fdt_check_header`. -/
def fdtCheckHeader : ℤ :=
  let hdrsize := fdtHeaderSize m fdt
  let totalsize := fdtTotalsize m fdt
  if fdt % 8 ≠ 0 then FdtErr.alignment.code
  else if fdtMagic m fdt ≠ fdtMagicNumber then FdtErr.badmagic.code
  else if fdtVersion m fdt < 0x02 ∨ fdtLastCompVersion m fdt > 0x11 then FdtErr.badversion.code
  else if fdtVersion m fdt < fdtLastCompVersion m fdt then FdtErr.badversion.code
  else if totalsize < hdrsize ∨ totalsize > intMax then FdtErr.truncated.code
  else if ¬ checkOff hdrsize totalsize (fdtOffMemRsvmap m fdt) then FdtErr.truncated.code
  else if fdtVersion m fdt < 17 ∧ ¬ checkOff hdrsize totalsize (fdtOffDtStruct m fdt) then
    FdtErr.truncated.code
  else if ¬ fdtVersion m fdt < 17 ∧
      ¬ checkBlock hdrsize totalsize (fdtOffDtStruct m fdt) (fdtSizeDtStruct m fdt) then
    FdtErr.truncated.code
  else if ¬ checkBlock hdrsize totalsize (fdtOffDtStrings m fdt) (fdtSizeDtStrings m fdt) then
    FdtErr.truncated.code
  else 0

end Header

/-! ## The structure block -/

section Struct

variable (m : Mem) (fdt : ℕ)

/-- `fdt_offset_ptr_`, without checks. -/
def fdtOffsetPtrRaw (offset : ℤ) : ℕ := (fdt + fdtOffDtStruct m fdt + offset).toNat

/-- `fdt_offset_ptr`: `none` is `NULL`. -/
def fdtOffsetPtr (offset : ℤ) (len : ℕ) : Option ℕ :=
  let uoffset := uint offset
  let absoffset := uint (offset + fdtOffDtStruct m fdt)
  if offset < 0 then none
  else if absoffset < uoffset ∨ uint (absoffset + len) < absoffset ∨
      uint (absoffset + len) > fdtTotalsize m fdt then none
  else if fdtVersion m fdt ≥ 0x11 ∧
      (uint (uoffset + len) < uoffset ∨ uint (offset + len) > fdtSizeDtStruct m fdt) then none
  else some (fdtOffsetPtrRaw m fdt offset)

/-- The loop of `fdt_next_tag` over the name of a node: whether its NUL was found, and `offset`. -/
def skipName : ℕ → ℤ → MemM (Bool × ℤ)
  | 0, _ => throw .hang
  | fuel + 1, offset =>
      match fdtOffsetPtr m fdt offset 1 with
      | none => pure (false, offset + 1)
      | some p => if m p ≠ 0#8 then skipName fuel (offset + 1) else pure (true, offset + 1)

/-- The offset behind a tag: `none` is the premature end. -/
def tagEnd (tag : ℕ) (offset : ℤ) : MemM (Option ℤ) := do
  if tag = fdtBeginNode then
    let (found, offset) ← skipName m fdt (fdtTotalsize m fdt + 1) offset
    return if found then some offset else none
  else if tag = fdtProp then
    match fdtOffsetPtr m fdt offset 4 with
    | none => return none
    | some lenp =>
      let len := m.ld32 lenp
      let sum := uint (len + offset)
      if intMax ≤ sum ∨ sum < uint offset then return none
      let offset := int (offset + (sizeofProperty - fdtTagsize : ℕ) + len)
      -- before version 16 a value of 8 bytes or more is aligned to 8
      return some (if fdtVersion m fdt < 0x10 ∧ len ≥ 8 ∧ (offset - len) % 8 ≠ 0 then offset + 4
        else offset)
  else if tag = fdtEnd ∨ tag = fdtEndNode ∨ tag = fdtNop then return some offset
  else return none

/-- `fdt_next_tag`: the tag and `*nextoffset`. -/
def fdtNextTag (startoffset : ℤ) : MemM (ℕ × ℤ) := do
  match fdtOffsetPtr m fdt startoffset fdtTagsize with
  | none => return (fdtEnd, FdtErr.truncated.code)
  | some tagp =>
    let tag := m.ld32 tagp
    match ← tagEnd m fdt tag (startoffset + fdtTagsize) with
    | none => return (fdtEnd, FdtErr.badstructure.code)
    | some offset =>
      match fdtOffsetPtr m fdt startoffset (uint (offset - startoffset)) with
      | none => return (fdtEnd, FdtErr.badstructure.code)
      | some _ => return (tag, int (fdtTagalign (uint offset)))

/-- `fdt_check_node_offset_`. -/
def fdtCheckNodeOffset (offset : ℤ) : MemM ℤ := do
  if offset < 0 ∨ offset % fdtTagsize ≠ 0 then return FdtErr.badoffset.code
  let (tag, nextoffset) ← fdtNextTag m fdt offset
  return if tag ≠ fdtBeginNode then FdtErr.badoffset.code else nextoffset

/-- `fdt_check_prop_offset_`. -/
def fdtCheckPropOffset (offset : ℤ) : MemM ℤ := do
  if offset < 0 ∨ offset % fdtTagsize ≠ 0 then return FdtErr.badoffset.code
  let (tag, nextoffset) ← fdtNextTag m fdt offset
  return if tag ≠ fdtProp then FdtErr.badoffset.code else nextoffset

/-- The loop of `fdt_next_node` from `nextoffset` on: the offset and `*depth`. -/
def nextNodeLoop : ℕ → ℤ → ℤ → MemM (ℤ × ℤ)
  | 0, _, _ => throw .hang
  | fuel + 1, offset, depth => do
      let (tag, nextoffset) ← fdtNextTag m fdt offset
      if tag = fdtBeginNode then return (offset, depth + 1)
      else if tag = fdtEndNode then
        if depth - 1 < 0 then return (nextoffset, depth - 1)
        else nextNodeLoop fuel nextoffset (depth - 1)
      else if tag = fdtEnd then
        return (if nextoffset ≥ 0 then FdtErr.notfound.code else nextoffset, depth)
      else nextNodeLoop fuel nextoffset depth

/-- `fdt_next_node`, for a `depth` that is not `NULL`. -/
def fdtNextNode (offset depth : ℤ) : MemM (ℤ × ℤ) := do
  let nextoffset ← if offset ≥ 0 then fdtCheckNodeOffset m fdt offset else pure 0
  if nextoffset < 0 then return (nextoffset, depth)
  nextNodeLoop m fdt (fdtTotalsize m fdt + 1) nextoffset depth

/-! ## Nodes -/

/-- `fdt_get_name`: the address of the name, and its length or an error.  Before version 16 a name is
a path, and its last part is given. -/
def fdtGetName (nodeoffset : ℤ) : MemM (Option ℕ × ℤ) := do
  let probe := fdtRoProbe m fdt
  if probe < 0 then return (none, probe)
  let nextoffset ← fdtCheckNodeOffset m fdt nodeoffset
  if nextoffset < 0 then return (none, nextoffset)
  let nameptr := fdtOffsetPtrRaw m fdt nodeoffset + fdtTagsize
  if fdtVersion m fdt < 0x10 then
    match ← m.strrchr nameptr (chr '/') with
    | none => return (none, FdtErr.badstructure.code)
    | some leaf => return (some (leaf + 1), (← m.strlen (leaf + 1) : ℕ))
  return (some nameptr, (← m.strlen nameptr : ℕ))

/-- `memchr_` in an object outside: whether the byte is there. -/
def memchrObj : List Byte → Byte → ℕ → MemM Bool
  | _, _, 0 => pure false
  | [], _, _ + 1 => throw .fault
  | b :: s, c, n + 1 => if b = c then pure true else memchrObj s c n

/-- `fdt_nodename_eq_`. -/
def fdtNodenameEq (offset : ℤ) (s : List Byte) (len : ℕ) : MemM Bool := do
  match ← fdtGetName m fdt offset with
  | (none, _) => return false
  | (some p, olen) =>
    if olen < len then return false
    if (← m.memcmp p s len) ≠ 0 then return false
    if m (p + len) = 0#8 then return true
    return !(← memchrObj s (chr '@') len) && m (p + len) = chr '@'

/-- The loop of `fdt_subnode_offset_namelen`. -/
def subnodeLoop (name : List Byte) (namelen : ℕ) : ℕ → ℤ → ℤ → MemM ℤ
  | 0, _, _ => throw .hang
  | fuel + 1, offset, depth => do
      if offset ≥ 0 ∧ depth ≥ 0 then
        if depth = 1 then
          if ← fdtNodenameEq m fdt offset name namelen then return offset
        let (offset, depth) ← fdtNextNode m fdt offset depth
        subnodeLoop name namelen fuel offset depth
      else if depth < 0 then return FdtErr.notfound.code
      else return offset

/-- `fdt_subnode_offset_namelen`. -/
def fdtSubnodeOffsetNamelen (offset : ℤ) (name : List Byte) (namelen : ℕ) : MemM ℤ := do
  let probe := fdtRoProbe m fdt
  if probe < 0 then return probe
  subnodeLoop m fdt name namelen (fdtTotalsize m fdt + 2) offset 0

/-- The loop of `fdt_path_offset_namelen`: `p` is what is left of the path, without its NUL. -/
def pathLoop : ℕ → List Byte → ℤ → MemM ℤ
  | 0, _, _ => throw .hang
  | fuel + 1, p, offset => do
      if p.length = 0 then return offset
      let p := p.dropWhile (· = chr '/')
      if p.length = 0 then return offset
      let len := (p.takeWhile (· ≠ chr '/')).length
      let offset ← fdtSubnodeOffsetNamelen m fdt offset p len
      if offset < 0 then return offset
      pathLoop fuel (p.drop len) offset

/-! ## Properties -/

/-- `nextprop_`. -/
def nextprop : ℕ → ℤ → MemM ℤ
  | 0, _ => throw .hang
  | fuel + 1, offset => do
      let (tag, nextoffset) ← fdtNextTag m fdt offset
      if tag = fdtEnd then
        return if nextoffset ≥ 0 then FdtErr.badstructure.code else nextoffset
      else if tag = fdtProp then return offset
      else if tag = fdtNop then nextprop fuel nextoffset
      else return FdtErr.notfound.code

/-- `fdt_first_property_offset`. -/
def fdtFirstPropertyOffset (nodeoffset : ℤ) : MemM ℤ := do
  let offset ← fdtCheckNodeOffset m fdt nodeoffset
  if offset < 0 then return offset
  nextprop m fdt (fdtTotalsize m fdt + 1) offset

/-- `fdt_next_property_offset`. -/
def fdtNextPropertyOffset (offset : ℤ) : MemM ℤ := do
  let offset ← fdtCheckPropOffset m fdt offset
  if offset < 0 then return offset
  nextprop m fdt (fdtTotalsize m fdt + 1) offset

/-- `fdt_get_string`: the address of the string, and its length or an error. -/
def fdtGetString (stroffset : ℤ) : Option ℕ × ℤ :=
  let totalsize := fdtRoProbe m fdt
  let absoffset := uint (stroffset + fdtOffDtStrings m fdt)
  let size := fdtSizeDtStrings m fdt
  let sized (len : ℕ) : Option ℕ × ℤ :=
    match m.memchr (fdt + absoffset) 0#8 len with
    | none => (none, FdtErr.truncated.code)
    | some n => (some (fdt + absoffset), (n : ℤ) - (fdt + absoffset : ℕ))
  if totalsize < 0 then (none, totalsize)
  else if absoffset ≥ uint totalsize then (none, FdtErr.badoffset.code)
  else
    let len := uint totalsize - absoffset
    if fdtMagic m fdt = fdtMagicNumber then
      if stroffset < 0 then (none, FdtErr.badoffset.code)
      else if fdtVersion m fdt ≥ 17 then
        if uint stroffset ≥ size then (none, FdtErr.badoffset.code)
        else sized (min (uint (size - stroffset)) len)
      else sized len
    else if fdtMagic m fdt = fdtSwMagicNumber then
      if stroffset ≥ 0 ∨ uint (-stroffset) > size then (none, FdtErr.badoffset.code)
      else sized (min (uint (-stroffset)) len)
    else (none, FdtErr.internal.code)

/-- `fdt_string_eq_`. -/
def fdtStringEq (stroffset : ℤ) (s : List Byte) (len : ℕ) : MemM Bool := do
  match fdtGetString m fdt stroffset with
  | (none, _) => return false
  | (some p, slen) =>
    if slen ≠ len then return false
    return (← m.memcmp p s len) = 0

/-- The loop of `fdt_get_property_namelen_`: the address of the property and its length, or an
error. -/
def propertyLoop (name : List Byte) (namelen : ℕ) : ℕ → ℤ → MemM (Option ℕ × ℤ)
  | 0, _ => throw .hang
  | fuel + 1, offset => do
      if offset < 0 then return (none, offset)
      -- `fdt_get_property_by_offset_`
      if (← fdtCheckPropOffset m fdt offset) < 0 then return (none, FdtErr.internal.code)
      let prop := fdtOffsetPtrRaw m fdt offset
      let len := int (m.ld32 (prop + 4))
      if ← fdtStringEq m fdt (int (m.ld32 (prop + 8))) name namelen then return (some prop, len)
      propertyLoop name namelen fuel (← fdtNextPropertyOffset m fdt offset)

/-- `fdt_get_property_namelen_`. -/
def fdtGetPropertyNamelen (nodeoffset : ℤ) (name : List Byte) (namelen : ℕ) :
    MemM (Option ℕ × ℤ) := do
  propertyLoop m fdt name namelen (fdtTotalsize m fdt + 1)
    (← fdtFirstPropertyOffset m fdt nodeoffset)

/-- `fdt_get_property`. -/
def fdtGetProperty (nodeoffset : ℤ) (name : List Byte) : MemM (Option ℕ × ℤ) := do
  let namelen ← fetch (LittleLoader.strlen name)
  if fdtVersion m fdt < 0x10 then return (none, FdtErr.badversion.code)
  fdtGetPropertyNamelen m fdt nodeoffset name namelen

/-- `fdt_getprop_namelen`: the address of the value and its length, or an error. -/
def fdtGetprop (nodeoffset : ℤ) (name : List Byte) (namelen : ℕ) : MemM (Option ℕ × ℤ) := do
  match ← fdtGetPropertyNamelen m fdt nodeoffset name namelen with
  | (none, len) => return (none, len)
  | (some prop, len) =>
    let poffset := prop - fdtOffsetPtrRaw m fdt 0
    if fdtVersion m fdt < 0x10 ∧ (poffset + sizeofProperty) % 8 ≠ 0 ∧ m.ld32 (prop + 4) ≥ 8 then
      return (some (prop + sizeofProperty + 4), len)
    return (some (prop + sizeofProperty), len)

/-! ## Paths -/

/-- `fdt_path_offset` of a path that begins with `/`. -/
def fdtAbsolutePathOffset (path : List Byte) : MemM ℤ := do
  let probe := fdtRoProbe m fdt
  if probe < 0 then return probe
  pathLoop m fdt (path.length + 1) path 0

/-- `fdt_get_alias_namelen`: the address of the path. -/
def fdtGetAliasNamelen (name : List Byte) (namelen : ℕ) : MemM (Option ℕ) := do
  let offset ← fdtAbsolutePathOffset m fdt (lit "/aliases").dropLast
  if offset < 0 then return none
  match ← fdtGetprop m fdt offset name namelen with
  | (none, _) => return none
  | (some p, len) =>
    return if len > 0 ∧ m (p + len - 1).toNat = 0#8 ∧ m p = chr '/' then some p else none

/-- `fdt_path_offset`; `path` is without its NUL. -/
def fdtPathOffset (path : List Byte) : MemM ℤ := do
  let probe := fdtRoProbe m fdt
  if probe < 0 then return probe
  if path.length = 0 then return FdtErr.badpath.code
  if path.head? ≠ some (chr '/') then
    let namelen := (path.takeWhile (· ≠ chr '/')).length
    match ← fdtGetAliasNamelen m fdt path namelen with
    | none => return FdtErr.badpath.code
    | some p =>
      let offset ← fdtAbsolutePathOffset m fdt (m.read p (← m.strlen p))
      pathLoop m fdt (path.length + 1) (path.drop namelen) offset
  else pathLoop m fdt (path.length + 1) path 0

end Struct

end LittleLoader
