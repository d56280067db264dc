import LittleLoader.Machine.Virtqueue

/-!
# Machine/Interleaving — `do_virtio_blk_io` one step at a time, with the device in between

The driver's next step is one assignment, one read of `status`, or the notification.  Between any
two of them the device may pop a chain that is available, transfer a byte of a chain that it owns,
write the status byte of one, or give one back: in any order, but that it gives a chain back last.

The device reads a chain and its header when it pops the chain.  It owns a chain from when the chain
is available until it is given back.
-/

namespace LittleLoader

/-! ## The states -/

/-- A chain that the device has popped. -/
structure Job where
  head : BitVec 16
  header : VirtioBlkReq
  buffer : BitVec 64
  len : BitVec 32
  statusAddr : BitVec 64
  /-- The status byte, if the device has written it. -/
  status : Option Byte
  /-- The bytes of the buffer that the device has transferred. -/
  moved : List ℕ

/-- Where the driver is. -/
inductive Driver
  /-- Not called, or returned. -/
  | idle (last : Option (IoCall × ℤ))
  /-- Before the next of the assignments, or before the notification if there are none left. -/
  | storing (call : IoCall) (rest : List Store)
  /-- `while (status == 0xff)`. -/
  | polling (call : IoCall)
  /-- `if (status == VIRTIO_BLK_S_OK)`. -/
  | testing (call : IoCall)
  /-- `return -status`. -/
  | failing (call : IoCall)
deriving DecidableEq

/-- The driver, the device and what they share. -/
structure Sys where
  virtq : Virtq
  /-- The buffers of the callers. -/
  memory : BitVec 64 → Byte
  disk : Disk
  driver : Driver
  /-- The number of chains that the device has popped. -/
  popped : ℕ
  /-- The number of chains that it has given back. -/
  given : ℕ
  /-- The chains in its hands, by their number. -/
  jobs : ℕ → Option Job

/-- After `virtio_blk_init`. -/
def Sys.start (q : Virtq) (memory : BitVec 64 → Byte) (disk : Disk) : Sys where
  virtq := q
  memory := memory
  disk := disk
  driver := .idle none
  popped := 0
  given := 0
  jobs := fun _ => none

/-- The device's index into the available ring. -/
def Sys.nextAvail (s : Sys) : BitVec 16 := BitVec.ofNat 16 s.popped

/-! ## The steps -/

/-- What happens next. -/
inductive Label
  /-- The program stores into its buffers, between two calls. -/
  | caller (memory : BitVec 64 → Byte)
  /-- The program calls the driver. -/
  | call (c : BlkCall)
  /-- The driver takes its next step. -/
  | driver
  /-- The device pops a chain. -/
  | pop
  /-- The device transfers byte `i` of the buffer of chain `n`. -/
  | transfer (n i : ℕ)
  /-- The device writes the status byte of chain `n`. -/
  | writeStatus (n : ℕ) (v : Byte)
  /-- The device puts chain `n` into the used ring. -/
  | giveBack (n : ℕ) (written : BitVec 32)

/-- The driver's next step. -/
def Sys.driverStep (s : Sys) : Option Sys :=
  match s.driver with
  | .idle _ => none
  | .storing call (st :: rest) =>
      some { s with virtq := st.apply s.virtq, driver := .storing call rest }
  | .storing call [] => some { s with driver := .polling call }
  | .polling call =>
      some (if s.virtq.status = 0xff then s else { s with driver := .testing call })
  | .testing call =>
      some { s with driver :=
        if s.virtq.status = 0 then .idle (some (call, call.lenBytes.toInt)) else .failing call }
  | .failing call =>
      some { s with driver := .idle (some (call, -(s.virtq.status.toNat : ℤ))) }

/-- The chain with its head in the device's slot, as a request: a header, a buffer and a status
byte. -/
def Sys.popJob (a : Statics) (s : Sys) : Option Job :=
  match s.virtq.chain (deviceSlot s.nextAvail) with
  | some [header, buffer, status] =>
      if header.addr = a.req then
        some ⟨s.virtq.avail.ring (deviceSlot s.nextAvail), s.virtq.req, buffer.addr, buffer.len,
          status.addr, none, []⟩
      else none
  | _ => none

/-- The address of a byte of the buffer. -/
def Job.addr (job : Job) (i : ℕ) : BitVec 64 := job.buffer + BitVec.ofNat 64 i

/-- The byte of the disk that belongs to it. -/
def Job.offset (job : Job) (i : ℕ) : ℕ := job.header.sector.toNat * sectorSize + i

/-- The byte is transferred. -/
def Sys.transfer (s : Sys) (job : Job) (i : ℕ) : Sys :=
  if job.header.type = virtioBlkTIn then
    { s with memory := Function.update s.memory (job.addr i) (s.disk (job.offset i)) }
  else { s with disk := Function.update s.disk (job.offset i) (s.memory (job.addr i)) }

/-- All the bytes have been transferred. -/
def Job.Moved (job : Job) : Prop := ∀ i < job.len.toNat, i ∈ job.moved

instance (job : Job) : Decidable job.Moved :=
  inferInstanceAs (Decidable (∀ i < job.len.toNat, i ∈ job.moved))

/-- The entry of the used ring for chain `n`, and the index behind it. -/
def VirtqUsed.push (used : VirtqUsed) (given : ℕ) (e : VirtqUsedElem) : VirtqUsed :=
  { used with
    ring := Function.update used.ring (deviceSlot (BitVec.ofNat 16 given)) e
    idx := BitVec.ofNat 16 (given + 1) }

/-- **A step** of the driver or of the device, if it can be taken. -/
def Sys.step (a : Statics) (s : Sys) : Label → Option Sys
  | .caller memory =>
      match s.driver with
      | .idle _ => some { s with memory := memory }
      | _ => none
  | .call c =>
      match s.driver with
      | .idle _ => some { s with driver := .storing c.io (requestStores a c.io ++ publishStores) }
      | _ => none
  | .driver => s.driverStep
  | .pop =>
      if s.virtq.avail.idx = s.nextAvail then none
      else (s.popJob a).map fun job =>
        { s with popped := s.popped + 1, jobs := Function.update s.jobs s.popped (some job) }
  | .transfer n i =>
      (s.jobs n).bind fun job =>
        if i < job.len.toNat then
          some { s.transfer job i with
            jobs := Function.update s.jobs n (some { job with moved := i :: job.moved }) }
        else none
  | .writeStatus n v =>
      (s.jobs n).bind fun job =>
        if job.status = none then
          some { s with
            virtq := s.virtq.writeByte a job.statusAddr v
            jobs := Function.update s.jobs n (some { job with status := some v }) }
        else none
  | .giveBack n written =>
      (s.jobs n).bind fun job =>
        if job.status ≠ none ∧ (job.status = some 0 → job.Moved) then
          some { s with
            virtq := { s.virtq with
              used := s.virtq.used.push s.given ⟨job.head.setWidth 32, written⟩ }
            given := s.given + 1
            jobs := Function.update s.jobs n none }
        else none

end LittleLoader
