import LittleLoader.Machine.World

/-!
# Machine/VirtioBlk — the block device at the level of its requests

`do_virtio_blk_io` hands one request to the device and polls the status byte until it is not `0xff`
any more.  Here the device answers with the next `Completion`: status `0` is a request carried out,
any other status a failed one, after which the bytes it covers hold whatever the device left there.
Status `0xff` leaves the driver polling, and so does a device that has no more completions, which
does not touch the bytes either.
-/

namespace LittleLoader

/-- `SECTOR_SIZE`. -/
def sectorSize : ℕ := 512

/-- `VIRTIO_BLK_T_IN`. -/
def virtioBlkTIn : BitVec 32 := 0

/-- `VIRTIO_BLK_T_OUT`. -/
def virtioBlkTOut : BitVec 32 := 1

/-! ## The disk -/

/-- The `len` bytes of the disk from `offset` on. -/
def Disk.read (disk : Disk) (offset len : ℕ) : List Byte :=
  (List.range len).map fun i => disk (offset + i)

/-- The disk with `bytes` stored from `offset` on. -/
def Disk.write (disk : Disk) (offset : ℕ) (bytes : List Byte) : Disk := fun i =>
  if i < offset then disk i else bytes[i - offset]?.getD (disk i)

/-! ## The driver -/

/-- `do_virtio_blk_io`: the return code, and the buffer as the request leaves it. -/
def doVirtioBlkIo (type : BitVec 32) (lba : BitVec 64) (lenBytes : BitVec 32)
    (buffer : List Byte) : M (ℤ × List Byte) := do
  let len := lenBytes.toNat
  if buffer.length < len then throw .fault
  observe (.request type lba lenBytes (if type = virtioBlkTIn then [] else buffer.take len))
  let w ← get
  match w.completions with
  | [] => throw .hang
  | c :: completions =>
    let offset := lba.toNat * sectorSize
    let torn := (List.range len).map c.torn
    let (disk, buffer) :=
      if type = virtioBlkTIn then
        (w.disk, (if c.status = 0#8 then w.disk.read offset len else torn) ++ buffer.drop len)
      else
        (w.disk.write offset (if c.status = 0#8 then buffer.take len else torn), buffer)
    set { w with disk := disk, completions := completions }
    if c.status = 0xff#8 then throw .hang
    let rc : ℤ := if c.status = 0#8 then lenBytes.toInt else -c.status.toNat
    observe (.completed rc)
    return (rc, buffer)

/-- `virtio_blk_read`. -/
def virtioBlkRead (lba : BitVec 64) (lenBytes : BitVec 32) (buffer : List Byte) :
    M (ℤ × List Byte) :=
  doVirtioBlkIo virtioBlkTIn lba lenBytes buffer

/-- `virtio_blk_write`. -/
def virtioBlkWrite (lba : BitVec 64) (lenBytes : BitVec 32) (buffer : List Byte) : M ℤ := do
  return (← doVirtioBlkIo virtioBlkTOut lba lenBytes buffer).1

end LittleLoader
