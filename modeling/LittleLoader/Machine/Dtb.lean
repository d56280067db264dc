import LittleLoader.Machine.LibfdtEdit

/-!
# Machine/Dtb — `load_dtb` of `main.c`
-/

namespace LittleLoader

/-- `fdt_strerror`, for the errors that are returned here. -/
def fdtStrerror (err : ℤ) : String :=
  if err > 0 then "<valid offset/length>" else if err = 0 then "<no error>"
  else if err = FdtErr.notfound.code then "FDT_ERR_NOTFOUND"
  else if err = FdtErr.exists_.code then "FDT_ERR_EXISTS"
  else if err = FdtErr.nospace.code then "FDT_ERR_NOSPACE"
  else if err = FdtErr.badoffset.code then "FDT_ERR_BADOFFSET"
  else if err = FdtErr.badpath.code then "FDT_ERR_BADPATH"
  else if err = FdtErr.badstate.code then "FDT_ERR_BADSTATE"
  else if err = FdtErr.truncated.code then "FDT_ERR_TRUNCATED"
  else if err = FdtErr.badmagic.code then "FDT_ERR_BADMAGIC"
  else if err = FdtErr.badversion.code then "FDT_ERR_BADVERSION"
  else if err = FdtErr.badstructure.code then "FDT_ERR_BADSTRUCTURE"
  else if err = FdtErr.badlayout.code then "FDT_ERR_BADLAYOUT"
  else if err = FdtErr.internal.code then "FDT_ERR_INTERNAL"
  else if err = FdtErr.alignment.code then "FDT_ERR_ALIGNMENT"
  else "<unknown error>"

/-- `fatal` with the text of an error. -/
def fatalFdt {α : Type} (fmt : String) (err : ℤ) : MemM α :=
  throw (.fatal ⟨fmt, [.str (lit (fdtStrerror err))]⟩)

/-- `fdt_add_bootargs`. -/
def fdtAddBootargs (m : Mem) (dtb : ℕ) (bootargs : Option (List Byte)) : MemM Mem := do
  match bootargs with
  | none => return m
  | some bootargs =>
    if fdtCheckHeader m dtb < 0 then throw (.fatal ⟨"Invalid DTB header from QEMU?", []⟩)
    let chosenOffset ← fdtPathOffset m dtb ((lit "/chosen").dropLast)
    let (chosenOffset, m) ←
      if chosenOffset = FdtErr.notfound.code then do
        let (chosenOffset, m) ← fdtAddSubnode m dtb 0 (lit "chosen")
        if chosenOffset < 0 then fatalFdt "Failed to create /chosen node: %s" chosenOffset
        else pure (chosenOffset, m)
      else if chosenOffset < 0 then fatalFdt "Error finding /chosen node: %s" chosenOffset
      else pure (chosenOffset, m)
    let (ret, m) ← fdtSetprop m dtb chosenOffset (lit "bootargs") bootargs
      ((← fetch (strlen bootargs)) + 1)
    if ret < 0 then fatalFdt "Failed to set bootargs property: %s" ret
    else return m

/-- `be32_to_le32`. -/
def be32ToLe32 (x : BitVec 32) : BitVec 32 :=
  (x >>> 24) &&& 0x000000ff ||| (x >>> 8) &&& 0x0000ff00 ||| (x <<< 8) &&& 0x00ff0000 |||
    (x <<< 24) &&& 0xff000000

/-- `load_dtb`. -/
def loadDtb (m : Mem) (dtbSource dtbLoadAddr : ℕ) (bootargs : Option (List Byte)) : MemM Mem := do
  let magic := m.ldWord dtbSource
  if magic ≠ 0xedfe0dd0 then
    throw (.fatal ⟨"DTB address needs to be passed in x0, but magic number is 0x%08x",
      [.u32 magic]⟩)
  let len := be32ToLe32 (m.ldWord (dtbSource + 4))
  fdtAddBootargs (m.memcpy dtbLoadAddr dtbSource len.toNat) dtbLoadAddr bootargs

end LittleLoader
