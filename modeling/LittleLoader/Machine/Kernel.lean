import LittleLoader.Machine.VirtioBlk

/-!
# Machine/Kernel — `load_kernel` of `main.c`

`kernel_base` is memory from `KERNEL_LOAD_ADDR` on, as far as there is any.  The sector with the
header comes first, and the header says how many more there are.  The arithmetic of that second
request is cut out: a 64-bit quotient becomes an `int` (`numSectors`), and an `int` product becomes
the `uint32_t` that the driver gets (`restBytes`).
-/

namespace LittleLoader

/-- `KERNEL_LOAD_ADDR`. -/
def kernelLoadAddr : ℕ := 0x40200000

/-- `KERNEL_MAX_LENGTH`. -/
def kernelMaxLength : BitVec 64 := 64 * 1024 * 1024

/-- The fields of `struct kernel_header` that `load_kernel` reads. -/
structure KernelHeader where
  imageSize : BitVec 64
  magic : BitVec 32
deriving DecidableEq

/-- The number in `n` bytes at `p`, least significant first. -/
def loadLe : ℕ → List Byte → Option ℕ
  | 0, _ => some 0
  | _ + 1, [] => none
  | n + 1, b :: p => (b.toNat + 256 * ·) <$> loadLe n p

/-- `(struct kernel_header *) kernel_base`: the size is at offset 16, the magic number at 56. -/
def kernelHeader (kernelBase : List Byte) : Option KernelHeader := do
  let imageSize ← loadLe 8 (kernelBase.drop 16)
  let magic ← loadLe 4 (kernelBase.drop 56)
  return ⟨BitVec.ofNat 64 imageSize, BitVec.ofNat 32 magic⟩

/-- The magic number of a kernel: `ARM\x64`. -/
def kernelMagic : BitVec 32 := 0x644d5241

/-- `num_sectors`. -/
def numSectors (imageSize : BitVec 64) : BitVec 32 :=
  ((imageSize + BitVec.ofNat 64 sectorSize - 1) / BitVec.ofNat 64 sectorSize).setWidth 32

/-- `(num_sectors - 1) * SECTOR_SIZE`. -/
def restBytes (numSectors : BitVec 32) : BitVec 32 := (numSectors - 1) * BitVec.ofNat 32 sectorSize

/-- `load_kernel`: the size of the image, and the memory at `kernel_base` as it is left. -/
def loadKernel (lba : BitVec 64) (kernelBase : List Byte) : M (BitVec 64 × List Byte) := do
  let (rc, kernelBase) ← virtioBlkRead lba (BitVec.ofNat 32 sectorSize) kernelBase
  if rc < 0 then fatal "Failed to read kernel header at LBA %lu" [.nat lba.toNat]
  let header ← access (kernelHeader kernelBase)
  if header.magic ≠ kernelMagic then fatal "Linux kernel header magic isn't ARM\\x64" []
  if header.imageSize > kernelMaxLength then
    fatal "Linux kernel header image size of %lu is larger than max support size of %lu"
      [.nat header.imageSize.toNat, .nat kernelMaxLength.toNat]
  let numSectors := numSectors header.imageSize
  let (rc, rest) ← virtioBlkRead (lba + 1) (restBytes numSectors) (kernelBase.drop sectorSize)
  let kernelBase := kernelBase.take sectorSize ++ rest
  if rc < 0 then fatal "Failed to read kernel" []
  let header ← access (kernelHeader kernelBase)
  return (header.imageSize, kernelBase)

end LittleLoader
