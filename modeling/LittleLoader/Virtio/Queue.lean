import Mathlib.Algebra.Group.Nat.Defs
import LittleLoader.Boot.Device
import LittleLoader.Virtio.Handshake

/-!
# Virtio/Queue — the driver and the device stay in step

    driver   avail.idx   n ──────▸ n + 1                              n + 1
    device   nextAvail   n               ──pop──▸ n + 1 ──status──▸   n + 1

Both sides count the chains, each with 16 bits of its own.  Between two calls the counters agree,
and this is all that a call needs of the calls before it: it stores every field again that the
device reads (`exists_doIo`).
-/

namespace LittleLoader

variable {a : Statics} {q : Virtq} {call : IoCall} {i : Fin 8}

/-! ## The device -/

/-- What the device does with a chain: the status byte, and the used ring as it leaves it. -/
structure Answer where
  status : Byte
  used : VirtqUsed
  status_ne : status ≠ 0xff

/-- The queue between the driver and the device. -/
structure QueueSys where
  virtq : Virtq
  /-- The device's own index. -/
  nextAvail : BitVec 16
  /-- What the device will do with the chains to come. -/
  answers : ℕ → Answer

/-- The number of chains that are available. -/
def QueueSys.available (s : QueueSys) : ℕ := (s.virtq.avail.idx - s.nextAvail).toNat

/-- The device pops a chain, handles it and writes the status byte, to the address in the last
descriptor. -/
def QueueSys.serve (a : Statics) (s : QueueSys) : QueueSys :=
  match (s.virtq.chain (deviceSlot s.nextAvail)).bind List.getLast? with
  | none => { s with nextAvail := s.nextAvail + 1 }
  | some d =>
    { virtq := { s.virtq.writeByte a d.addr (s.answers 0).status with used := (s.answers 0).used }
      nextAvail := s.nextAvail + 1
      answers := fun i => s.answers (i + 1) }

/-- The device serves a number of chains. -/
def QueueSys.serveAll (a : Statics) : ℕ → QueueSys → QueueSys
  | 0, s => s
  | n + 1, s => (s.serve a).serveAll a n

/-! ## The driver -/

/-- A call that has returned. -/
structure Done where
  /-- The queue at the notification. -/
  notified : QueueSys
  /-- The slot of the ring that the driver has written. -/
  slot : Fin 8
  /-- The queue at the return. -/
  returned : QueueSys
  rc : ℤ

/-- `do_virtio_blk_io`, with a device that serves the chains when it is notified.  With a status
byte of `0xff` the driver polls for ever. -/
def doIo (a : Statics) (call : IoCall) (s : QueueSys) : Option Done :=
  let request := s.virtq.stores (requestStores a call)
  let notified : QueueSys := { s with virtq := request.stores publishStores }
  let served := notified.serveAll a notified.available
  if served.virtq.status = 0xff then none
  else some {
    notified := notified
    slot := request.slot
    returned := served
    rc := ioResult call.lenBytes served.virtq.status }

/-- The calls, one after the other. -/
def doCalls (a : Statics) : List BlkCall → QueueSys → Option (List Done)
  | [], _ => some []
  | call :: calls, s => do
    let done ← doIo a call.io s
    return done :: (← doCalls a calls done.returned)

/-! ## What a call stores -/

/-- The queue when the driver notifies the device. -/
def Virtq.publish (q : Virtq) (a : Statics) (call : IoCall) : Virtq :=
  (q.stores (requestStores a call)).stores publishStores

/-- The flags of the buffer's descriptor. -/
def bufferFlags (type : BitVec 32) : BitVec 16 :=
  if type = virtioBlkTIn then virtqDescFWrite ||| virtqDescFNext else virtqDescFNext

/-- The slot is the index modulo the size of the queue. -/
theorem slot_eq_deviceSlot : q.slot = deviceSlot q.avail.idx := by
  refine Fin.ext ?_
  simp only [Virtq.slot, deviceSlot, BitVec.toNat_and]
  exact Nat.and_two_pow_sub_one_eq_mod q.avail.idx.toNat 3

/-- The stores of a request leave the available ring alone. -/
theorem requestStores_avail : (q.stores (requestStores a call)).avail = q.avail := rfl

theorem publish_req : (q.publish a call).req = ⟨call.type, 0, call.lba⟩ := rfl

/-- The descriptor of the header. -/
theorem publish_desc_zero : (q.publish a call).desc 0 = ⟨a.req, 16, virtqDescFNext, 1⟩ := rfl

/-- The descriptor of the buffer. -/
theorem publish_desc_one : (q.publish a call).desc 1 = ⟨call.buffer, call.lenBytes, bufferFlags call.type,
    2⟩ := rfl

/-- The descriptor of the status byte. -/
theorem publish_desc_two : (q.publish a call).desc 2 = ⟨a.status, 1, virtqDescFWrite, 0⟩ := rfl

/-- The chain goes on behind a descriptor with `VIRTQ_DESC_F_NEXT`. -/
theorem walk_of_next {fuel : ℕ} {d : VirtqDesc} (hd : q.desc i = d)
    (hflags : d.flags &&& virtqDescFNext ≠ 0) :
    q.walk (fuel + 1) (BitVec.ofNat 16 i) = (d :: ·) <$> q.walk fuel d.next := by
  have hi : (BitVec.ofNat 16 i).toNat = i := Nat.mod_eq_of_lt (i.isLt.trans (by decide))
  subst hd
  simp only [Virtq.walk, hi, i.isLt, dite_true]
  exact if_neg hflags

/-- A descriptor without it is the last one. -/
theorem walk_of_last {fuel : ℕ} {d : VirtqDesc} (hd : q.desc i = d)
    (hflags : d.flags &&& virtqDescFNext = 0) :
    q.walk (fuel + 1) (BitVec.ofNat 16 i) = some [d] := by
  have hi : (BitVec.ofNat 16 i).toNat = i := Nat.mod_eq_of_lt (i.isLt.trans (by decide))
  subst hd
  simp only [Virtq.walk, hi, i.isLt, dite_true]
  exact if_pos hflags

/-- **The chain**: its head is in the slot, and it ends with the third descriptor. -/
theorem publish_chain : (q.publish a call).chain q.slot =
    some [⟨a.req, 16, virtqDescFNext, 1⟩, ⟨call.buffer, call.lenBytes, bufferFlags call.type, 2⟩,
      ⟨a.status, 1, virtqDescFWrite, 0⟩] := by
  have hhead : (q.publish a call).avail.ring q.slot = 0 := Function.update_self ..
  have hnext : bufferFlags call.type &&& virtqDescFNext ≠ 0 := by
    rw [bufferFlags]
    split <;> decide
  have hlast : (q.publish a call).walk 6 2 = _ := walk_of_last publish_desc_two
    (show virtqDescFWrite &&& virtqDescFNext = 0 by decide)
  have htail : (q.publish a call).walk 7 1 = _ := walk_of_next publish_desc_one hnext
  have hall : (q.publish a call).walk 8 0 = _ := walk_of_next publish_desc_zero
    (show virtqDescFNext &&& virtqDescFNext ≠ 0 by decide)
  rw [Virtq.chain, hhead, hall]
  exact congrArg (Option.map _) (htail.trans (congrArg (Option.map _) hlast))

/-! ## Being in step -/

/-- A descriptor that the device may write to. -/
def VirtqDesc.deviceWritable (d : VirtqDesc) : Prop := d.flags &&& virtqDescFWrite ≠ 0

/-- **A call that stays in step**: at the notification there is one chain, where the driver has put
it, and it is this call's header, buffer and status byte; the device has popped and answered it once
when the call returns, and the result tells the status. -/
structure InStep (a : Statics) (call : IoCall) (answer : Answer) (done : Done) : Prop where
  available : done.notified.available = 1
  slot : deviceSlot done.notified.nextAvail = done.slot
  chain : ∃ header buffer status,
    done.notified.virtq.chain done.slot = some [header, buffer, status] ∧
    header.addr = a.req ∧ header.len = 16 ∧ ¬ header.deviceWritable ∧
    buffer.addr = call.buffer ∧ buffer.len = call.lenBytes ∧
    (buffer.deviceWritable ↔ call.type = virtioBlkTIn) ∧
    status.addr = a.status ∧ status.len = 1 ∧ status.deviceWritable
  header : done.notified.virtq.req = ⟨call.type, 0, call.lba⟩
  answered : done.notified.answers 0 = answer
  once : done.returned.answers = fun i => done.notified.answers (i + 1)
  popped : done.returned.nextAvail = done.notified.nextAvail + 1
  index : done.returned.nextAvail = done.returned.virtq.avail.idx
  result : done.rc = if answer.status = 0 then (call.lenBytes.toNat : ℤ)
    else -(answer.status.toNat : ℤ)

/-- **A run that stays in step**: call by call, with the answers in their order. -/
def RunInStep (a : Statics) (calls : List BlkCall) (answers : ℕ → Answer) (dones : List Done) :
    Prop :=
  dones.length = calls.length ∧ ∀ i call, calls[i]? = some call →
    ∃ done, dones[i]? = some done ∧ InStep a call.io (answers i) done

/-- The queue at the notification. -/
def QueueSys.notify (s : QueueSys) (a : Statics) (call : IoCall) : QueueSys :=
  { s with virtq := s.virtq.publish a call }

section Step

variable {s : QueueSys}

/-- From a queue in step, the notification finds one chain. -/
theorem notify_available (hstep : s.nextAvail = s.virtq.avail.idx) :
    (s.notify a call).available = 1 := by
  have hidx : (s.notify a call).virtq.avail.idx = s.virtq.avail.idx + 1 := rfl
  have hnext : (s.notify a call).nextAvail = s.virtq.avail.idx := hstep
  rw [QueueSys.available, hidx, hnext, BitVec.add_comm, BitVec.add_sub_cancel]
  rfl

/-- It is in the slot that the driver has written. -/
theorem notify_slot (hstep : s.nextAvail = s.virtq.avail.idx) :
    deviceSlot (s.notify a call).nextAvail = s.virtq.slot := by
  rw [slot_eq_deviceSlot, ← hstep]
  rfl

/-- The queue when the device has answered: it has popped the chain and written the status byte. -/
def QueueSys.answered (s : QueueSys) (a : Statics) (call : IoCall) : QueueSys where
  virtq := { s.virtq.publish a call with
    status := (s.answers 0).status, used := (s.answers 0).used }
  nextAvail := s.nextAvail + 1
  answers := fun i => s.answers (i + 1)

theorem serve_notify (hstep : s.nextAvail = s.virtq.avail.idx) :
    (s.notify a call).serve a = s.answered a call := by
  have hchain : (s.notify a call).virtq.chain (deviceSlot (s.notify a call).nextAvail) =
      some [⟨a.req, 16, virtqDescFNext, 1⟩, ⟨call.buffer, call.lenBytes, bufferFlags call.type, 2⟩,
        ⟨a.status, 1, virtqDescFWrite, 0⟩] := by
    rw [notify_slot hstep]
    exact publish_chain
  simp only [QueueSys.serve, hchain, Option.bind_some, List.getLast?_cons_cons,
    List.getLast?_singleton, Virtq.writeByte, if_true]
  rfl

/-- **A call from a queue in step** returns when the device has answered. -/
theorem doIo_eq (hstep : s.nextAvail = s.virtq.avail.idx) :
    doIo a call s = some ⟨s.notify a call, s.virtq.slot, s.answered a call,
      ioResult call.lenBytes (s.answers 0).status⟩ := by
  have hserved : (s.notify a call).serveAll a (s.notify a call).available =
      s.answered a call := by
    rw [notify_available hstep]
    exact serve_notify hstep
  have hstatus : ¬ (s.answered a call).virtq.status = 0xff := (s.answers 0).status_ne
  have hdo : doIo a call s =
      if ((s.notify a call).serveAll a (s.notify a call).available).virtq.status = 0xff then none
      else some ⟨s.notify a call, s.virtq.slot,
        (s.notify a call).serveAll a (s.notify a call).available, ioResult call.lenBytes
          ((s.notify a call).serveAll a (s.notify a call).available).virtq.status⟩ := rfl
  rw [hdo, hserved, if_neg hstatus]
  rfl

/-- A buffer is writable for the device if the call is a read. -/
theorem bufferFlags_and_write {type : BitVec 32} :
    bufferFlags type &&& virtqDescFWrite ≠ 0 ↔ type = virtioBlkTIn := by
  rw [bufferFlags]
  split
  · exact iff_of_true (by decide) ‹_›
  · exact iff_of_false (by decide) ‹_›

/-- **It stays in step**, and leaves the queue in step. -/
theorem exists_doIo (hstep : s.nextAvail = s.virtq.avail.idx)
    (hlen : call.lenBytes.toNat < 2 ^ 31) :
    ∃ done, doIo a call s = some done ∧ InStep a call (s.answers 0) done ∧
      done.returned.answers = fun i => s.answers (i + 1) := by
  refine ⟨_, doIo_eq hstep, {
    available := notify_available hstep
    slot := notify_slot hstep
    chain := ⟨_, _, _, publish_chain, rfl, rfl, ?_, rfl, rfl, bufferFlags_and_write, rfl, rfl, ?_⟩
    header := publish_req
    answered := rfl
    once := rfl
    popped := rfl
    index := ?_
    result := ?_ }, rfl⟩
  · exact not_not_intro (show virtqDescFNext &&& virtqDescFWrite = 0 by decide)
  · exact show virtqDescFWrite &&& virtqDescFWrite ≠ 0 by decide
  · exact congrArg (· + 1) hstep
  · have htoInt : call.lenBytes.toInt = call.lenBytes.toNat :=
      BitVec.toInt_eq_toNat_of_lt (by omega)
    exact congrArg (fun n : ℤ => if (s.answers 0).status = 0 then n else _) htoInt

end Step

/-- **The queue refines the request**: a call from a queue in step returns what `doVirtioBlkIo`
returns for a completion with the status of the answer. -/
theorem doIo_refines {s : QueueSys} {w : World} {c : Completion} {cs : List Completion}
    {buffer : List Byte} (hstep : s.nextAvail = s.virtq.avail.idx)
    (hstatus : c.status = (s.answers 0).status) (hc : w.completions = c :: cs)
    (hbuffer : buffer.length = call.lenBytes.toNat) :
    ∃ done, doIo a call s = some done ∧
      Returns (doVirtioBlkIo call.type call.lba call.lenBytes buffer) w
        fun r w' => r.1 = done.rc ∧ w'.completions = cs := by
  refine ⟨_, doIo_eq hstep, Ends.returns ?_ fun _ (_ : World) => not_false⟩
  rw [ends_doVirtioBlkIo_cons hc hbuffer]
  have hne : ¬ c.status = 0xff#8 := hstatus ▸ (s.answers 0).status_ne
  simp only [if_neg hne]
  rw [Completion.code, hstatus]
  exact ⟨rfl, rfl⟩

/-! ## Runs -/

/-- **Every call of a run** that starts in step stays in step. -/
theorem exists_doCalls {s : QueueSys} {calls : List BlkCall}
    (hstep : s.nextAvail = s.virtq.avail.idx)
    (hlen : ∀ call ∈ calls, call.io.lenBytes.toNat < 2 ^ 31) :
    ∃ dones, doCalls a calls s = some dones ∧ RunInStep a calls s.answers dones := by
  induction calls generalizing s with
  | nil => exact ⟨[], rfl, rfl, fun i call h => by simp at h⟩
  | cons call calls ih =>
      rw [List.forall_mem_cons] at hlen
      obtain ⟨done, hdo, hdone, hanswers⟩ := exists_doIo (a := a) hstep hlen.1
      obtain ⟨dones, hdos, hlength, hdones⟩ := ih hdone.index hlen.2
      refine ⟨done :: dones, by simp [doCalls, hdo, hdos], congrArg (· + 1) hlength, ?_⟩
      intro i call' hcall
      cases i with
      | zero => exact ⟨done, rfl, Option.some_inj.mp hcall ▸ hdone⟩
      | succ i =>
          obtain ⟨done', hget, hin⟩ := hdones i call' hcall
          rw [hanswers] at hin
          exact ⟨done', hget, hin⟩

/-- The calls, as requests: what they return for the buffers. -/
def doRequests (buffers : BlkCall → List Byte) : List BlkCall → M (List ℤ)
  | [] => return []
  | call :: calls => do
    let (rc, _) ← doVirtioBlkIo call.io.type call.io.lba call.io.lenBytes (buffers call)
    return rc :: (← doRequests buffers calls)

/-- **A run on the queue refines the requests**: the calls return the same codes on the queue and as
requests, for completions with the statuses of the answers. -/
theorem doCalls_refines {s : QueueSys} {w : World} {calls : List BlkCall} {cs : List Completion}
    {buffers : BlkCall → List Byte} (hstep : s.nextAvail = s.virtq.avail.idx)
    (hlen : ∀ call ∈ calls, call.io.lenBytes.toNat < 2 ^ 31)
    (hbuffers : ∀ call ∈ calls, (buffers call).length = call.io.lenBytes.toNat)
    (hw : w.completions = cs)
    (hcs : cs.map Completion.status = (List.range calls.length).map fun i => (s.answers i).status) :
    ∃ dones, doCalls a calls s = some dones ∧
      Returns (doRequests buffers calls) w fun rcs _ => rcs = dones.map Done.rc := by
  induction calls generalizing s w cs with
  | nil => exact ⟨[], rfl, returns_pure.mpr rfl⟩
  | cons call calls ih =>
      rw [List.forall_mem_cons] at hlen hbuffers
      rw [List.length_cons, List.range_succ_eq_map, List.map_cons, List.map_map] at hcs
      obtain ⟨c, cs, rfl, hstatus, hcs⟩ := List.map_eq_cons_iff.mp hcs
      obtain ⟨done, hdo, hdone, hanswers⟩ := exists_doIo (a := a) hstep hlen.1
      obtain ⟨done', hdo', hreturns⟩ := doIo_refines (a := a) hstep hstatus hw hbuffers.1
      obtain rfl := Option.some_inj.mp (hdo.symm.trans hdo')
      have hnext : cs.map Completion.status =
          (List.range calls.length).map fun i => (done.returned.answers i).status := by
        rw [hcs, hanswers]
        rfl
      obtain ⟨dones, hdos, -⟩ := exists_doCalls (a := a) hdone.index hlen.2
      refine ⟨done :: dones, by simp [doCalls, hdo, hdos], ?_⟩
      rw [doRequests, returns_bind]
      refine hreturns.mono ?_
      rintro ⟨rc, buffer⟩ w₁ ⟨rfl, hw₁⟩
      obtain ⟨dones', hdos', hrest⟩ := ih hdone.index hlen.2 hbuffers.2 hw₁ hnext
      obtain rfl := Option.some_inj.mp (hdos.symm.trans hdos')
      rw [returns_bind]
      exact hrest.mono fun _ _ hrcs => returns_pure.mpr (hrcs ▸ rfl)

/-- **The queue stays in step** in every run of calls after `virtio_blk_init`, whatever its length
and whatever the device answers. -/
theorem virtioBlkInit_runInStep (addrs : QueueAddrs) (m : Mmio) (a : Statics)
    (calls : List BlkCall) (answers : ℕ → Answer)
    (hlen : ∀ call ∈ calls, call.io.lenBytes.toNat < 2 ^ 31) :
    Ends (virtioBlkInit addrs) m
      (fun _ m' => ∃ dones, doCalls a calls ⟨m'.virtq, 0, answers⟩ = some dones ∧
        RunInStep a calls answers dones)
      fun _ _ => True := by
  refine ends_virtioBlkInit.mono (fun _ m' hend => ?_) fun _ _ _ => trivial
  obtain ⟨-, rfl⟩ := hend
  exact exists_doCalls (s := ⟨m.virtq.clear, 0, answers⟩) rfl hlen

/-- A read, and a write of nothing behind it, on a disk that `virtio_blk_init` accepts. -/
theorem virtioBlkInit_runInStep_small : Returns (virtioBlkInit ⟨0, 0, 0⟩)
    ⟨diskAnswers (1 ||| 2 ||| 8), [], Virtq.bss⟩
    fun _ m' => ∃ dones,
      doCalls ⟨0x1000, 0x2000⟩ [.read 7 512 0x40200000, .write 8 0 0]
        ⟨m'.virtq, 0, fun _ => ⟨0, Virtq.bss.used, by decide⟩⟩ = some dones ∧
      RunInStep ⟨0x1000, 0x2000⟩ [.read 7 512 0x40200000, .write 8 0 0]
        (fun _ => ⟨0, Virtq.bss.used, by decide⟩) dones := by
  have hinit := returns_virtioBlkInit (a := ⟨0, 0, 0⟩)
    (m := ⟨diskAnswers (1 ||| 2 ||| 8), [], Virtq.bss⟩) (passes_diskAnswers _)
  exact (hinit.and_ends (virtioBlkInit_runInStep ⟨0, 0, 0⟩
    ⟨diskAnswers (1 ||| 2 ||| 8), [], Virtq.bss⟩ ⟨0x1000, 0x2000⟩
    [.read 7 512 0x40200000, .write 8 0 0] (fun _ => ⟨0, Virtq.bss.used, by decide⟩)
    (by decide))).mono fun _ _ hr => hr.2

end LittleLoader
