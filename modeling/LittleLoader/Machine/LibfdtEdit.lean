import LittleLoader.Machine.Libfdt

/-!
# Machine/LibfdtEdit — editing a device tree: `fdt_rw.c` and `fdt_wip.c`

The functions take the memory and return it as they leave it, after the value of the C function.
The length of a string or a value is an `int` there and a natural number here.
-/

namespace LittleLoader

section Edit

variable (m : Mem) (fdt : ℕ)

/-! ## Checks -/

/-- `fdt_blocks_misordered_`. -/
def fdtBlocksMisordered (memRsvSize structSize : ℕ) : Bool :=
  fdtOffMemRsvmap m fdt < 40 ∨
    fdtOffDtStruct m fdt < uint (fdtOffMemRsvmap m fdt + memRsvSize) ∨
    fdtOffDtStrings m fdt < uint (fdtOffDtStruct m fdt + structSize) ∨
    fdtTotalsize m fdt < uint (fdtOffDtStrings m fdt + fdtSizeDtStrings m fdt)

/-- `fdt_rw_probe_`: a version after 17 becomes 17. -/
def fdtRwProbe : ℤ × Mem :=
  let probe := fdtRoProbe m fdt
  if probe < 0 then (probe, m)
  else if fdtVersion m fdt < 17 then (FdtErr.badversion.code, m)
  else if fdtBlocksMisordered m fdt 16 (fdtSizeDtStruct m fdt) then (FdtErr.badlayout.code, m)
  else if fdtVersion m fdt > 17 then (0, m.st32 (fdt + 20) 17)
  else (0, m)

/-! ## Splices -/

/-- `fdt_data_size_`. -/
def fdtDataSize : ℕ := uint (fdtOffDtStrings m fdt + fdtSizeDtStrings m fdt)

/-- `fdt_splice_`; `size_t` and pointers have 64 bits, and nothing here wraps them. -/
def fdtSplice (p : ℕ) (oldlen newlen : ℤ) : ℤ × Mem :=
  let dsize := fdtDataSize m fdt
  let soff : ℤ := p - fdt
  if oldlen < 0 ∨ soff + oldlen < soff ∨ soff + oldlen > dsize then (FdtErr.badoffset.code, m)
  else if p < fdt ∨ uint (dsize + newlen) < uint oldlen then (FdtErr.badoffset.code, m)
  else if uint (dsize - oldlen + newlen) > fdtTotalsize m fdt then (FdtErr.nospace.code, m)
  else
    let dest := (p + newlen).toNat
    let src := (p + oldlen).toNat
    (0, m.memmove dest src (fdt + dsize - src))

/-- `fdt_splice_struct_`. -/
def fdtSpliceStruct (p : ℕ) (oldlen newlen : ℤ) : ℤ × Mem :=
  let delta := newlen - oldlen
  match fdtSplice m fdt p oldlen newlen with
  | (0, m) =>
      let m := m.st32 (fdt + 36) (uint (fdtSizeDtStruct m fdt + delta))
      (0, m.st32 (fdt + 12) (uint (fdtOffDtStrings m fdt + delta)))
  | (err, m) => (err, m)

/-- `fdt_splice_string_`. -/
def fdtSpliceString (newlen : ℤ) : ℤ × Mem :=
  let p := fdt + fdtOffDtStrings m fdt + fdtSizeDtStrings m fdt
  match fdtSplice m fdt p 0 newlen with
  | (0, m) => (0, m.st32 (fdt + 32) (uint (fdtSizeDtStrings m fdt + newlen)))
  | (err, m) => (err, m)

/-- `fdt_del_last_string_`. -/
def fdtDelLastString (s : List Byte) : MemM Mem := do
  let newlen := (← fetch (strlen s)) + 1
  return m.st32 (fdt + 32) (uint (fdtSizeDtStrings m fdt - newlen))

/-! ## Strings -/

/-- The loop of `fdt_find_string_` over `strtab`, from `p` on; `last` may be before `strtab`. -/
def findStringLoop (last : ℤ) (s : List Byte) (len : ℕ) : ℕ → ℕ → MemM (Option ℕ)
  | 0, _ => throw .hang
  | fuel + 1, p => do
      if p > last then return none
      if (← m.memcmp p s len) = 0 then return some p
      findStringLoop last s len fuel (p + 1)

/-- `fdt_find_string_`. -/
def fdtFindString (strtab tabsize : ℕ) (s : List Byte) : MemM (Option ℕ) := do
  let len := (← fetch (strlen s)) + 1
  findStringLoop m (strtab + int tabsize - len) s len (tabsize + 1) strtab

/-- `fdt_find_add_string_`: the offset of the string or an error, and `*allocated`. -/
def fdtFindAddString (s : List Byte) : MemM (ℤ × Bool × Mem) := do
  let strtab := fdt + fdtOffDtStrings m fdt
  let len := (← fetch (strlen s)) + 1
  match ← fdtFindString m strtab (fdtSizeDtStrings m fdt) s with
  | some p => return ((p : ℤ) - strtab, false, m)
  | none =>
    let new := strtab + fdtSizeDtStrings m fdt
    match fdtSpliceString m fdt len with
    | (0, m) => return ((new : ℤ) - strtab, true, ← m.memcpyFrom new s len)
    | (err, m) => return (err, false, m)

/-! ## Properties -/

/-- `fdt_resize_property_`: the return code, and `*prop`. -/
def fdtResizeProperty (nodeoffset : ℤ) (name : List Byte) (len : ℕ) :
    MemM (ℤ × Option ℕ × Mem) := do
  match ← fdtGetProperty m fdt nodeoffset name with
  | (none, oldlen) => return (oldlen, none, m)
  | (some prop, oldlen) =>
    match fdtSpliceStruct m fdt (prop + sizeofProperty) (fdtTagalign (uint oldlen))
      (fdtTagalign len) with
    | (0, m) => return (0, some prop, m.st32 (prop + 4) len)
    | (err, m) => return (err, some prop, m)

/-- `fdt_add_property_`: the return code, and `*prop`. -/
def fdtAddProperty (nodeoffset : ℤ) (name : List Byte) (len : ℕ) : MemM (ℤ × Option ℕ × Mem) := do
  let nextoffset ← fdtCheckNodeOffset m fdt nodeoffset
  if nextoffset < 0 then return (nextoffset, none, m)
  let (namestroff, allocated, m) ← fdtFindAddString m fdt name
  if namestroff < 0 then return (namestroff, none, m)
  let prop := fdtOffsetPtrRaw m fdt nextoffset
  match fdtSpliceStruct m fdt prop 0 (sizeofProperty + fdtTagalign len : ℕ) with
  | (0, m) =>
      let m := m.st32 prop fdtProp
      let m := m.st32 (prop + 8) (uint namestroff)
      return (0, some prop, m.st32 (prop + 4) len)
  | (err, m) =>
      if allocated then return (err, some prop, ← fdtDelLastString m fdt name)
      return (err, some prop, m)

/-- `fdt_setprop_placeholder`: the return code, and `*prop_data`. -/
def fdtSetpropPlaceholder (nodeoffset : ℤ) (name : List Byte) (len : ℕ) :
    MemM (ℤ × Option ℕ × Mem) := do
  match fdtRwProbe m fdt with
  | (0, m) =>
      let (err, prop, m) ← fdtResizeProperty m fdt nodeoffset name len
      let (err, prop, m) ← if err = FdtErr.notfound.code then
          fdtAddProperty m fdt nodeoffset name len
        else pure (err, prop, m)
      if err ≠ 0 then return (err, none, m)
      return (0, prop.map (· + sizeofProperty), m)
  | (err, m) => return (err, none, m)

/-- `fdt_setprop`. -/
def fdtSetprop (nodeoffset : ℤ) (name val : List Byte) (len : ℕ) : MemM (ℤ × Mem) := do
  let (err, propData, m) ← fdtSetpropPlaceholder m fdt nodeoffset name len
  if err ≠ 0 then return (err, m)
  if len ≠ 0 then return (0, ← m.memcpyFrom (← fetch propData) val len)
  return (0, m)

/-- `fdt_appendprop`. -/
def fdtAppendprop (nodeoffset : ℤ) (name val : List Byte) (len : ℕ) : MemM (ℤ × Mem) := do
  match fdtRwProbe m fdt with
  | (0, m) =>
      match ← fdtGetProperty m fdt nodeoffset name with
      | (some prop, oldlen) =>
          let newlen := int (len + oldlen)
          match fdtSpliceStruct m fdt (prop + sizeofProperty) (fdtTagalign (uint oldlen))
            (fdtTagalign (uint newlen)) with
          | (0, m) =>
              let m := m.st32 (prop + 4) (uint newlen)
              return (0, ← m.memcpyFrom (prop + sizeofProperty + oldlen).toNat val len)
          | (err, m) => return (err, m)
      | (none, _) =>
          match ← fdtAddProperty m fdt nodeoffset name len with
          | (0, prop, m) =>
              return (0, ← m.memcpyFrom ((← fetch prop) + sizeofProperty) val len)
          | (err, _, m) => return (err, m)
  | (err, m) => return (err, m)

/-- `fdt_delprop`. -/
def fdtDelprop (nodeoffset : ℤ) (name : List Byte) : MemM (ℤ × Mem) := do
  match fdtRwProbe m fdt with
  | (0, m) =>
      match ← fdtGetProperty m fdt nodeoffset name with
      | (none, len) => return (len, m)
      | (some prop, len) =>
          return fdtSpliceStruct m fdt prop (sizeofProperty + fdtTagalign (uint len) : ℕ) 0
  | (err, m) => return (err, m)

/-! ## Nodes -/

/-- `fdt_set_name`. -/
def fdtSetName (nodeoffset : ℤ) (name : List Byte) : MemM (ℤ × Mem) := do
  match fdtRwProbe m fdt with
  | (0, m) =>
      match ← fdtGetName m fdt nodeoffset with
      | (none, oldlen) => return (oldlen, m)
      | (some namep, oldlen) =>
          let newlen ← fetch (strlen name)
          match fdtSpliceStruct m fdt namep (fdtTagalign (uint (oldlen + 1)))
            (fdtTagalign (newlen + 1)) with
          | (0, m) => return (0, ← m.memcpyFrom namep name (newlen + 1))
          | (err, m) => return (err, m)
  | (err, m) => return (err, m)

/-- The loop of `fdt_add_subnode_namelen` over the properties of the parent. -/
def skipProperties : ℕ → ℤ → MemM ℤ
  | 0, _ => throw .hang
  | fuel + 1, offset => do
      let (tag, nextoffset) ← fdtNextTag m fdt offset
      if tag = fdtProp ∨ tag = fdtNop then skipProperties fuel nextoffset else return offset

/-- `fdt_add_subnode_namelen`. -/
def fdtAddSubnodeNamelen (parentoffset : ℤ) (name : List Byte) (namelen : ℕ) : MemM (ℤ × Mem) := do
  match fdtRwProbe m fdt with
  | (0, m) =>
      let offset ← fdtSubnodeOffsetNamelen m fdt parentoffset name namelen
      if offset ≥ 0 then return (FdtErr.exists_.code, m)
      if offset ≠ FdtErr.notfound.code then return (offset, m)
      let (tag, nextoffset) ← fdtNextTag m fdt parentoffset
      if tag ≠ fdtBeginNode then return (FdtErr.internal.code, m)
      let offset ← skipProperties m fdt (fdtTotalsize m fdt + 1) nextoffset
      let nh := fdtOffsetPtrRaw m fdt offset
      let nodelen := 4 + fdtTagalign (namelen + 1) + fdtTagsize
      match fdtSpliceStruct m fdt nh 0 nodelen with
      | (0, m) =>
          let m := m.st32 nh fdtBeginNode
          let m := m.memset (nh + 4) 0#8 (fdtTagalign (namelen + 1))
          let m ← m.memcpyFrom (nh + 4) name namelen
          return (offset, m.st32 (nh + nodelen - fdtTagsize) fdtEndNode)
      | (err, m) => return (err, m)
  | (err, m) => return (err, m)

/-- `fdt_add_subnode`. -/
def fdtAddSubnode (parentoffset : ℤ) (name : List Byte) : MemM (ℤ × Mem) := do
  fdtAddSubnodeNamelen m fdt parentoffset name (← fetch (strlen name))

/-- The loop of `fdt_node_end_offset_`. -/
def nodeEndLoop : ℕ → ℤ → ℤ → MemM ℤ
  | 0, _, _ => throw .hang
  | fuel + 1, offset, depth => do
      if offset ≥ 0 ∧ depth ≥ 0 then
        let (offset, depth) ← fdtNextNode m fdt offset depth
        nodeEndLoop fuel offset depth
      else return offset

/-- `fdt_node_end_offset_`. -/
def fdtNodeEndOffset (offset : ℤ) : MemM ℤ := nodeEndLoop m fdt (fdtTotalsize m fdt + 2) offset 0

/-- `fdt_del_node`. -/
def fdtDelNode (nodeoffset : ℤ) : MemM (ℤ × Mem) := do
  match fdtRwProbe m fdt with
  | (0, m) =>
      let endoffset ← fdtNodeEndOffset m fdt nodeoffset
      if endoffset < 0 then return (endoffset, m)
      return fdtSpliceStruct m fdt (fdtOffsetPtrRaw m fdt nodeoffset) (endoffset - nodeoffset) 0
  | (err, m) => return (err, m)

end Edit

/-! ## `fdt_wip.c`: edits that keep every offset -/

/-- The loop of `fdt_nop_region_`, from `p` up to `e`. -/
def nopLoop (e : ℕ) : ℕ → ℕ → Mem → Mem
  | 0, _, m => m
  | fuel + 1, p, m => if p < e then nopLoop e fuel (p + 4) (m.st32 p fdtNop) else m

/-- `fdt_nop_region_`. -/
def fdtNopRegion (m : Mem) (start len : ℕ) : Mem := nopLoop (start + len) len start m

section Wip

variable (m : Mem) (fdt : ℕ)

/-- `fdt_nop_property`. -/
def fdtNopProperty (nodeoffset : ℤ) (name : List Byte) : MemM (ℤ × Mem) := do
  match ← fdtGetProperty m fdt nodeoffset name with
  | (none, len) => return (len, m)
  | (some prop, len) => return (0, fdtNopRegion m prop (uint len + sizeofProperty))

/-- `fdt_nop_node`. -/
def fdtNopNode (nodeoffset : ℤ) : MemM (ℤ × Mem) := do
  let endoffset ← fdtNodeEndOffset m fdt nodeoffset
  if endoffset < 0 then return (endoffset, m)
  return (0, fdtNopRegion m (← fetch (fdtOffsetPtr m fdt nodeoffset 0))
    (endoffset - nodeoffset).toNat)

/-- `fdt_setprop_inplace`, which stores the value through `fdt_setprop_inplace_namelen_partial`
at index 0. -/
def fdtSetpropInplace (nodeoffset : ℤ) (name val : List Byte) (len : ℕ) : MemM (ℤ × Mem) := do
  let namelen ← fetch (strlen name)
  match ← fdtGetprop m fdt nodeoffset name namelen with
  | (none, proplen) => return (proplen, m)
  | (some _, proplen) =>
    if proplen ≠ len then return (FdtErr.nospace.code, m)
    match ← fdtGetprop m fdt nodeoffset name namelen with
    | (none, proplen) => return (proplen, m)
    | (some propval, proplen) =>
      if uint proplen < len then return (FdtErr.nospace.code, m)
      return (0, ← m.memcpyFrom propval val len)

end Wip

end LittleLoader
