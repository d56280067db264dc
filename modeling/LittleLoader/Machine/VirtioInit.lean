import LittleLoader.Machine.Virtqueue

/-!
# Machine/VirtioInit — `virtio_blk_init`

The function talks to the device through the registers of its MMIO page only.  What the registers
answer is up to the device, so a run is given the values of its reads in advance, in their order;
`Mmio.trace` lists the accesses as they were made.
-/

namespace LittleLoader

/-! ## The registers -/

/-- `VIRT_MMIO_MAGIC`. -/
def mmioMagic : ℕ := 0x000

/-- `VIRT_MMIO_VERSION`. -/
def mmioVersion : ℕ := 0x004

/-- `VIRT_MMIO_DEVICE_ID`. -/
def mmioDeviceId : ℕ := 0x008

/-- `VIRT_MMIO_VENDOR_ID`. -/
def mmioVendorId : ℕ := 0x00c

/-- `VIRT_MMIO_DEVICE_FEATURES`. -/
def mmioDeviceFeatures : ℕ := 0x010

/-- `VIRT_MMIO_DEVICE_FEATURES_SEL`. -/
def mmioDeviceFeaturesSel : ℕ := 0x014

/-- `VIRT_MMIO_DRIVER_FEATURES`. -/
def mmioDriverFeatures : ℕ := 0x020

/-- `VIRT_MMIO_DRIVER_FEATURES_SEL`. -/
def mmioDriverFeaturesSel : ℕ := 0x024

/-- `VIRT_MMIO_QUEUE_SEL`. -/
def mmioQueueSel : ℕ := 0x030

/-- `VIRT_MMIO_QUEUE_NUM_MAX`. -/
def mmioQueueNumMax : ℕ := 0x034

/-- `VIRT_MMIO_QUEUE_NUM`. -/
def mmioQueueNum : ℕ := 0x038

/-- `VIRT_MMIO_QUEUE_READY`. -/
def mmioQueueReady : ℕ := 0x044

/-- `VIRT_MMIO_STATUS`. -/
def mmioStatus : ℕ := 0x070

/-- `VIRT_MMIO_QUEUE_DESC_LOW`, and `_HIGH` behind it. -/
def mmioQueueDesc : ℕ := 0x080

/-- `VIRT_MMIO_QUEUE_DRIVER_LOW`, and `_HIGH` behind it. -/
def mmioQueueDriver : ℕ := 0x090

/-- `VIRT_MMIO_QUEUE_DEVICE_LOW`, and `_HIGH` behind it. -/
def mmioQueueDevice : ℕ := 0x0a0

/-- An access to a register, by its offset. -/
inductive Access
  | read (reg : ℕ) (value : BitVec 32)
  | write (reg : ℕ) (value : BitVec 32)
deriving DecidableEq

/-- The driver's side of the bus. -/
structure Mmio where
  /-- What the reads to come will return. -/
  answers : ℕ → BitVec 32
  trace : List Access
  virtq : Virtq

/-- The addresses of `desc`, `avail` and `used`. -/
structure QueueAddrs where
  desc : BitVec 64
  avail : BitVec 64
  used : BitVec 64

/-- A computation on the bus; `fatal` ends it. -/
abbrev MmioM := EStateM Message Mmio

/-- A register, read. -/
def readReg (reg : ℕ) : MmioM (BitVec 32) := do
  let m ← get
  set { m with answers := fun i => m.answers (i + 1), trace := m.trace ++ [Access.read reg (m.answers 0)] }
  return m.answers 0

/-- A register, written. -/
def writeReg (reg : ℕ) (value : BitVec 32) : MmioM Unit :=
  modify fun m => { m with trace := m.trace ++ [Access.write reg value] }

/-- A 64-bit address, in two registers. -/
def writeAddr (reg : ℕ) (addr : BitVec 64) : MmioM Unit := do
  writeReg reg (addr.setWidth 32)
  writeReg (reg + 4) ((addr >>> 32).setWidth 32)

/-- `fatal`. -/
def fatalMmio {α : Type} (fmt : String) : MmioM α := throw ⟨fmt, []⟩

/-- The value of a comparison. -/
def ofBool (p : Prop) [Decidable p] : BitVec 32 := if p then 1 else 0

/-! ## The function -/

/-- The guard of the first `fatal`: `||` reads no register after one that differs. -/
def deviceMissing : MmioM Bool := do
  if (← readReg mmioMagic) ≠ 0x74726976 then return true
  if (← readReg mmioVersion) ≠ 2 then return true
  if (← readReg mmioDeviceId) ≠ 2 then return true
  return (← readReg mmioVendorId) ≠ 0x554d4551

/-- The bits of the first feature word that are masked out: `VIRTIO_BLK_F_RO`, `VIRTIO_BLK_F_SCSI`,
`VIRTIO_BLK_F_CONFIG_WCE`, `VIRTIO_BLK_F_MQ`, `VIRTIO_F_ANY_LAYOUT`, `VIRTIO_RING_F_EVENT_IDX` and
`VIRTIO_RING_F_INDIRECT_DESC`. -/
def maskedFeatures : List ℕ := [5, 7, 11, 12, 27, 29, 28]

/-- `features &= ~(1 << bit)` for each of the bits. -/
def maskOut (features : BitVec 32) (bits : List ℕ) : BitVec 32 :=
  bits.foldl (fun features bit => features &&& ~~~(1#32 <<< bit)) features

/-- `virtio_blk_init`. -/
def virtioBlkInit (a : QueueAddrs) : MmioM Unit := do
  if ← deviceMissing then
    fatalMmio "Couldn't find a virtio blk device.\n\nCheck the QEMU command line for the following:\n\n    -global virtio-mmio.force-legacy=false\n    -drive if=none,file=disk.img,format=raw,id=vdisk\n    -device virtio-blk-device,drive=vdisk,bus=virtio-mmio-bus.0\n"
  let status : BitVec 32 := 0
  writeReg mmioStatus status
  let status := status ||| 1
  writeReg mmioStatus status
  let status := status ||| 2
  writeReg mmioStatus status
  writeReg mmioDeviceFeaturesSel 0
  let features ← readReg mmioDeviceFeatures
  let features := maskOut features maskedFeatures
  writeReg mmioDriverFeaturesSel 0
  writeReg mmioDriverFeatures features
  writeReg mmioDeviceFeaturesSel 1
  let features ← readReg mmioDeviceFeatures
  -- `VIRTIO_BLK_F_VERSION_1` is bit 32 of the features
  let features := features &&& 1#32 <<< (32 - 32)
  writeReg mmioDriverFeaturesSel 1
  writeReg mmioDriverFeatures features
  let status := status ||| 8
  writeReg mmioStatus status
  -- the source compares first: `VIRT_MMIO_STATUS & (8 == 0)`
  if (← readReg mmioStatus) &&& ofBool ((8 : ℤ) = 0) ≠ 0 then
    fatalMmio "virtio disk didn't like our feature selection?\n"
  writeReg mmioQueueSel 0
  if (← readReg mmioQueueReady) ≠ 0 then fatalMmio "virtio disk queue in use?\n"
  if (← readReg mmioQueueNumMax) < 8 then fatalMmio "virtio disk queue num max too low?\n"
  writeReg mmioQueueNum 8
  modify fun m => { m with virtq := m.virtq.clear }
  writeAddr mmioQueueDesc a.desc
  writeAddr mmioQueueDriver a.avail
  writeAddr mmioQueueDevice a.used
  writeReg mmioQueueReady 1
  let status := status ||| 4
  writeReg mmioStatus status

end LittleLoader
