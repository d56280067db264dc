import Mathlib.Data.Nat.Notation
import Mathlib.Logic.Function.Basic
import LittleLoader.Machine.VirtioBlk

/-!
# Machine/Virtqueue — the memory that `virtio_blk.c` shares with the device

`Virtq` holds the static structures of `virtio_blk.c`.  What `do_virtio_blk_io` does up to its
notification is a list of stores, one for each assignment of the source and in its order
(`requestStores`, `publishStores`): run one after the other they are the driver's code, and run one
at a time they can be interleaved with the device.

The buffers of the callers are objects of their own: a request knows the address of its buffer.
-/

namespace LittleLoader

/-! ## `virtio.h` -/

/-- `VIRTQ_DESC_F_NEXT`. -/
def virtqDescFNext : BitVec 16 := 1

/-- `VIRTQ_DESC_F_WRITE`. -/
def virtqDescFWrite : BitVec 16 := 2

/-- `struct virtq_desc`. -/
structure VirtqDesc where
  addr : BitVec 64
  len : BitVec 32
  flags : BitVec 16
  next : BitVec 16
deriving DecidableEq

/-- `struct virtq_avail`; `QUEUE_SIZE` is 8. -/
structure VirtqAvail where
  flags : BitVec 16
  idx : BitVec 16
  ring : Fin 8 → BitVec 16
  usedEvent : BitVec 16

/-- `struct virtq_used_elem`. -/
structure VirtqUsedElem where
  id : BitVec 32
  len : BitVec 32
deriving DecidableEq

/-- `struct virtq_used`. -/
structure VirtqUsed where
  flags : BitVec 16
  idx : BitVec 16
  ring : Fin 8 → VirtqUsedElem
  availEvent : BitVec 16

/-- `struct virtio_blk_req`. -/
structure VirtioBlkReq where
  type : BitVec 32
  reserved : BitVec 32
  sector : BitVec 64
deriving DecidableEq

/-- The static structures of `virtio_blk.c`. -/
structure Virtq where
  desc : Fin 8 → VirtqDesc
  avail : VirtqAvail
  used : VirtqUsed
  req : VirtioBlkReq
  status : Byte

/-- As they are at power-on. -/
def Virtq.bss : Virtq where
  desc := fun _ => ⟨0, 0, 0, 0⟩
  avail := ⟨0, 0, fun _ => 0, 0⟩
  used := ⟨0, 0, fun _ => ⟨0, 0⟩, 0⟩
  req := ⟨0, 0, 0⟩
  status := 0

/-- The addresses of `req` and `status`. -/
structure Statics where
  req : BitVec 64
  status : BitVec 64
deriving DecidableEq

/-- The four `memset_` of `virtio_blk_init`. -/
def Virtq.clear (q : Virtq) : Virtq where
  desc := fun _ => ⟨0, 0, 0, 0⟩
  avail := ⟨0, 0, fun _ => 0, 0⟩
  used := ⟨0, 0, fun _ => ⟨0, 0⟩, 0⟩
  req := ⟨0, 0, 0⟩
  status := q.status

/-! ## The stores -/

/-- An assignment of `do_virtio_blk_io`. -/
inductive Store
  | reqType (type : BitVec 32)
  | reqReserved
  | reqSector (lba : BitVec 64)
  | descAddr (i : Fin 8) (addr : BitVec 64)
  | descLen (i : Fin 8) (len : BitVec 32)
  | descFlags (i : Fin 8) (flags : BitVec 16)
  | descNext (i : Fin 8) (next : BitVec 16)
  /-- `status = 0xff`. -/
  | status
  /-- `avail.ring[idx] = 0`. -/
  | availRing
  /-- `avail.idx++`. -/
  | availIdx
  | usedIdx
  | usedFlags
deriving DecidableEq

/-- `avail.idx & (QUEUE_SIZE-1)`. -/
def Virtq.slot (q : Virtq) : Fin 8 := ⟨(q.avail.idx &&& 7).toNat, by
  rw [BitVec.toNat_and]
  exact Nat.lt_succ_of_le Nat.and_le_right⟩

/-- The assignment. -/
def Store.apply (q : Virtq) : Store → Virtq
  | reqType type => { q with req := { q.req with type := type } }
  | reqReserved => { q with req := { q.req with reserved := 0 } }
  | reqSector lba => { q with req := { q.req with sector := lba } }
  | descAddr i addr => { q with desc := Function.update q.desc i { q.desc i with addr := addr } }
  | descLen i len => { q with desc := Function.update q.desc i { q.desc i with len := len } }
  | descFlags i flags => { q with desc := Function.update q.desc i { q.desc i with flags := flags } }
  | descNext i next => { q with desc := Function.update q.desc i { q.desc i with next := next } }
  | status => { q with status := 0xff }
  | availRing => { q with avail := { q.avail with ring := Function.update q.avail.ring q.slot 0 } }
  | availIdx => { q with avail := { q.avail with idx := q.avail.idx + 1 } }
  | usedIdx => { q with used := { q.used with idx := 0 } }
  | usedFlags => { q with used := { q.used with flags := 0 } }

/-- The arguments of a call of `do_virtio_blk_io`. -/
structure IoCall where
  type : BitVec 32
  lba : BitVec 64
  lenBytes : BitVec 32
  buffer : BitVec 64
deriving DecidableEq

/-- The call of `virtio_blk_read`. -/
def IoCall.read (lba : BitVec 64) (lenBytes : BitVec 32) (buffer : BitVec 64) : IoCall :=
  ⟨virtioBlkTIn, lba, lenBytes, buffer⟩

/-- The call of `virtio_blk_write`. -/
def IoCall.write (lba : BitVec 64) (lenBytes : BitVec 32) (buffer : BitVec 64) : IoCall :=
  ⟨virtioBlkTOut, lba, lenBytes, buffer⟩

/-- A call of `virtio_blk_read` or of `virtio_blk_write`. -/
inductive BlkCall
  | read (lba : BitVec 64) (lenBytes : BitVec 32) (buffer : BitVec 64)
  | write (lba : BitVec 64) (lenBytes : BitVec 32) (buffer : BitVec 64)

/-- The call of `do_virtio_blk_io`. -/
def BlkCall.io : BlkCall → IoCall
  | read lba lenBytes buffer => .read lba lenBytes buffer
  | write lba lenBytes buffer => .write lba lenBytes buffer

/-- The request: the header, and the descriptors of the header, the buffer and the status byte. -/
def requestStores (a : Statics) (call : IoCall) : List Store :=
  [.reqType call.type, .reqReserved, .reqSector call.lba,
    .descAddr 0 a.req, .descLen 0 16, .descFlags 0 virtqDescFNext, .descNext 0 1,
    .descAddr 1 call.buffer, .descLen 1 call.lenBytes,
    .descFlags 1 (if call.type = virtioBlkTIn then virtqDescFWrite ||| virtqDescFNext
      else virtqDescFNext), .descNext 1 2,
    .status,
    .descAddr 2 a.status, .descLen 2 1, .descFlags 2 virtqDescFWrite, .descNext 2 0]

/-- The chain becomes available. -/
def publishStores : List Store := [.availRing, .availIdx, .usedIdx, .usedFlags]

/-- The stores, one after the other. -/
def Virtq.stores (q : Virtq) (stores : List Store) : Virtq := stores.foldl Store.apply q

/-! ## The chains -/

/-- The descriptors from `i` on.  A chain of more than `fuel` descriptors is not one: with as many
as the queue has, it runs in a circle. -/
def Virtq.walk (q : Virtq) : ℕ → BitVec 16 → Option (List VirtqDesc)
  | 0, _ => none
  | fuel + 1, i =>
      if h : i.toNat < 8 then
        let d := q.desc ⟨i.toNat, h⟩
        if d.flags &&& virtqDescFNext = 0 then some [d] else (d :: ·) <$> q.walk fuel d.next
      else none

/-- The chain whose head is in the slot of the ring. -/
def Virtq.chain (q : Virtq) (slot : Fin 8) : Option (List VirtqDesc) :=
  q.walk 8 (q.avail.ring slot)

/-- The slot of a device that keeps the index `nextAvail`. -/
def deviceSlot (nextAvail : BitVec 16) : Fin 8 := ⟨nextAvail.toNat % 8, Nat.mod_lt _ (by decide)⟩

/-- A byte that the device writes to an address: `status` is the only byte of these structures that
descriptors point to. -/
def Virtq.writeByte (q : Virtq) (a : Statics) (addr : BitVec 64) (v : Byte) : Virtq :=
  if addr = a.status then { q with status := v } else q

/-- What `do_virtio_blk_io` returns for the status byte. -/
def ioResult (lenBytes : BitVec 32) (status : Byte) : ℤ :=
  if status = 0#8 then lenBytes.toInt else -status.toNat

end LittleLoader
