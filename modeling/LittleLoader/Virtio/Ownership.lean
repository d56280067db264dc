import LittleLoader.Foundations.Transitions
import LittleLoader.Machine.Interleaving
import LittleLoader.Virtio.Queue

/-!
# Virtio/Ownership — what the driver knows of the device when it returns

    available ──▸ popped ──▸ data, status byte, in any order ──▸ used ring
    driver:                               ╰──▸ the poll ends

The driver polls the status byte, and not the used ring.  So it never gets ahead of the status byte,
but it may get ahead of the rest: of data that the device transfers after the status byte, and of
the entry of the used ring.
-/

namespace LittleLoader

variable {a : Statics} {q q' : Virtq} {call : IoCall} {s s' : Sys} {job : Job} {n i : ℕ}

/-! ## What is asked of a step of the driver -/

/-- The device owns a chain: one is available, or in its hands. -/
def Sys.Owned (s : Sys) : Prop :=
  s.virtq.avail.idx ≠ s.nextAvail ∨ ∃ n job, s.jobs n = some job

/-- The device has written the status byte of every chain. -/
structure Sys.Answered (s : Sys) : Prop where
  index : s.virtq.avail.idx = s.nextAvail
  status : ∀ n job, s.jobs n = some job → job.status ≠ none

/-- The assignment is to `req`, `desc` or `status`. -/
def Store.OfRequest : Store → Prop
  | .availRing | .availIdx | .usedIdx | .usedFlags => False
  | _ => True

/-- The driver's next step stores into `req`, `desc` or `status`. -/
def Sys.Rewrites (s : Sys) : Prop :=
  ∃ call st rest, s.driver = .storing call (st :: rest) ∧ st.OfRequest

/-- The buffer of the call holds the sectors that it asks for. -/
def Sys.Delivered (s : Sys) (call : IoCall) : Prop :=
  ∀ i < call.lenBytes.toNat, s.memory (call.buffer + BitVec.ofNat 64 i) =
    s.disk (call.lba.toNat * sectorSize + i)

/-- **A read that returns a length** has its sectors in the buffer, when it returns. -/
def ReadsDelivered (s' : Sys) : Prop :=
  ∀ call rc, s'.driver = .idle (some (call, rc)) → call.type = virtioBlkTIn → 0 ≤ rc →
    s'.Delivered call

/-- **The ownership is respected** by a step of the driver from `s` to `s'`: it does not rewrite the
request, and it does not return, while the device owns a chain. -/
structure OwnershipKept (s s' : Sys) : Prop where
  rewrites : s.Rewrites → ¬ s.Owned
  returns : ∀ r, s'.driver = .idle (some r) → ¬ s.Owned
  delivered : ReadsDelivered s'

/-- **The status bytes are awaited** by a step of the driver. -/
structure StatusAwaited (s s' : Sys) : Prop where
  rewrites : s.Rewrites → s.Answered
  returns : ∀ r, s'.driver = .idle (some r) → s.Answered

/-! ## What may be asked of the steps of a run -/

/-- The poll that ends the loop does not fall between the status byte of a chain and its entry in
the used ring. -/
def Prompt (s : Sys) : Label → Prop
  | .driver => ∀ call, s.driver = .polling call → s.virtq.status ≠ 0xff →
      ∀ n job, s.jobs n = some job → job.status = none
  | _ => True

/-- The status byte comes after the data: all of it, if it is the one of a success. -/
def StatusLast (s : Sys) : Label → Prop
  | .transfer n _ => ∀ job, s.jobs n = some job → job.status = none
  | .writeStatus n v => ∀ job, s.jobs n = some job → v = 0 → job.Moved
  | _ => True

/-! ## The steps of the device -/

/-- A step that is taken with a chain in hand, if the chain allows it. -/
theorem bind_guard_eq_some {α β : Type} {o : Option α} {P : α → Prop} [DecidablePred P] {f : α → β}
    {b : β} : (o.bind fun x => if P x then some (f x) else none) = some b ↔
      ∃ x, o = some x ∧ P x ∧ b = f x := by
  rw [Option.bind_eq_some_iff]
  refine exists_congr fun x => and_congr_right fun _ => ?_
  split <;> simp [*, eq_comm]

theorem step_pop : s.step a .pop = some s' ↔ s.virtq.avail.idx ≠ s.nextAvail ∧
    ∃ job, s.popJob a = some job ∧ s' = { s with
      popped := s.popped + 1, jobs := Function.update s.jobs s.popped (some job) } := by
  rw [Sys.step]
  split
  · exact iff_of_false nofun fun h => h.1 ‹_›
  · rw [Option.map_eq_some_iff, and_iff_right ‹_›]
    exact exists_congr fun job => and_congr_right fun _ => eq_comm

theorem step_transfer : s.step a (.transfer n i) = some s' ↔
    ∃ job, s.jobs n = some job ∧ i < job.len.toNat ∧ s' = { s.transfer job i with
      jobs := Function.update s.jobs n (some { job with moved := i :: job.moved }) } :=
  bind_guard_eq_some

theorem step_writeStatus {v : Byte} : s.step a (.writeStatus n v) = some s' ↔
    ∃ job, s.jobs n = some job ∧ job.status = none ∧ s' = { s with
      virtq := s.virtq.writeByte a job.statusAddr v
      jobs := Function.update s.jobs n (some { job with status := some v }) } :=
  bind_guard_eq_some

theorem step_giveBack {written : BitVec 32} : s.step a (.giveBack n written) = some s' ↔
    ∃ job, s.jobs n = some job ∧ (job.status ≠ none ∧ (job.status = some 0 → job.Moved)) ∧
      s' = { s with
        virtq := { s.virtq with
          used := s.virtq.used.push s.given ⟨job.head.setWidth 32, written⟩ }
        given := s.given + 1
        jobs := Function.update s.jobs n none } :=
  bind_guard_eq_some

/-! ## The request, whatever the used ring holds -/

/-- The two queues differ in the used ring at most. -/
def Virtq.Agree (q q' : Virtq) : Prop := ∃ used, q' = { q with used := used }

namespace Virtq.Agree

theorem refl (q : Virtq) : q.Agree q := ⟨q.used, rfl⟩

theorem trans {q'' : Virtq} (h : q.Agree q') (h' : q'.Agree q'') : q.Agree q'' := by
  obtain ⟨_, rfl⟩ := h
  obtain ⟨used, rfl⟩ := h'
  exact ⟨used, rfl⟩

theorem symm (h : q.Agree q') : q'.Agree q := by
  obtain ⟨_, rfl⟩ := h
  exact ⟨q.used, rfl⟩

theorem status (h : q.Agree q') : q'.status = q.status := by
  obtain ⟨_, rfl⟩ := h
  rfl

theorem avail (h : q.Agree q') : q'.avail = q.avail := by
  obtain ⟨_, rfl⟩ := h
  rfl

theorem apply (h : q.Agree q') (st : Store) : (st.apply q).Agree (st.apply q') := by
  obtain ⟨used, rfl⟩ := h
  cases st <;> exact ⟨_, rfl⟩

end Virtq.Agree

/-- A chain is in the descriptors and the available ring. -/
theorem chain_of_agree (h : q.Agree q') (slot : Fin 8) : q'.chain slot = q.chain slot := by
  obtain ⟨used, rfl⟩ := h
  have hwalk : ∀ fuel i, Virtq.walk { q with used := used } fuel i = q.walk fuel i := by
    intro fuel
    induction fuel with
    | zero => exact fun _ => rfl
    | succ fuel ih =>
        intro i
        simp only [Virtq.walk, ih]
  exact hwalk 8 _

/-- What is published of a request. -/
def Sys.Published (s : Sys) (a : Statics) (call : IoCall) : Prop :=
  ∃ q : Virtq, (q.publish a call).Agree s.virtq ∧ s.nextAvail = q.avail.idx

/-- The request of the call, popped. -/
structure Job.OfCall (job : Job) (a : Statics) (call : IoCall) : Prop where
  header : job.header = ⟨call.type, 0, call.lba⟩
  buffer : job.buffer = call.buffer
  len : job.len = call.lenBytes
  statusAddr : job.statusAddr = a.status

/-- **A published request is popped as it is.** -/
theorem Sys.Published.popJob (h : s.Published a call) : ∃ job, s.popJob a = some job ∧
    job.OfCall a call ∧ job.status = none ∧ job.moved = [] := by
  obtain ⟨q, hagree, hnext⟩ := h
  have hchain : s.virtq.chain (deviceSlot s.nextAvail) = some [⟨a.req, 16, virtqDescFNext, 1⟩,
      ⟨call.buffer, call.lenBytes, bufferFlags call.type, 2⟩,
      ⟨a.status, 1, virtqDescFWrite, 0⟩] := by
    rw [hnext, ← slot_eq_deviceSlot, chain_of_agree hagree, publish_chain]
  have hreq : s.virtq.req = ⟨call.type, 0, call.lba⟩ := by
    obtain ⟨used, hused⟩ := hagree
    rw [hused]
    rfl
  simp only [Sys.popJob, hchain, if_true]
  exact ⟨_, rfl, ⟨hreq, rfl, rfl, rfl⟩, rfl, rfl⟩

/-! ## The data of a read -/

/-- The bytes that have been transferred into the buffer are there. -/
structure Sys.Tracks (s : Sys) (job : Job) : Prop where
  bound : ∀ i ∈ job.moved, i < job.len.toNat
  moved : job.header.type = virtioBlkTIn →
    ∀ i ∈ job.moved, s.memory (job.addr i) = s.disk (job.offset i)

/-- The bytes of a buffer have addresses of their own. -/
theorem addr_injective {i j : ℕ} (hi : i < job.len.toNat) (hj : j < job.len.toNat)
    (h : job.addr i = job.addr j) : i = j := by
  have hlen : job.len.toNat < 2 ^ 32 := job.len.isLt
  have hnat := congrArg BitVec.toNat (BitVec.add_right_inj job.buffer |>.mp h)
  simp only [BitVec.toNat_ofNat] at hnat
  omega

/-- One more byte. -/
theorem Sys.Tracks.transfer (h : s.Tracks job) (hi : i < job.len.toNat) :
    (s.transfer job i).Tracks { job with moved := i :: job.moved } where
  bound j hj := (List.mem_cons.mp hj).elim (fun hji => hji ▸ hi) (h.bound j)
  moved htype j hj := by
    have hmem : (s.transfer job i).memory =
        Function.update s.memory (job.addr i) (s.disk (job.offset i)) := by
      rw [Sys.transfer, if_pos htype]
    have hdisk : (s.transfer job i).disk = s.disk := by rw [Sys.transfer, if_pos htype]
    rw [hmem, hdisk]
    by_cases hji : j = i
    · subst hji
      exact Function.update_self ..
    · have hj' : j ∈ job.moved := (List.mem_cons.mp hj).resolve_left hji
      have hne : job.addr j ≠ job.addr i := fun heq => hji (addr_injective (h.bound j hj') hi heq)
      exact (Function.update_of_ne hne ..).trans (h.moved htype j hj')

/-- **All of them**: the sectors are in the buffer. -/
theorem Sys.Tracks.delivered (h : s.Tracks job) (hcall : job.OfCall a call) (hmoved : job.Moved)
    (htype : call.type = virtioBlkTIn) : s.Delivered call := by
  intro i hi
  rw [← hcall.len] at hi
  have hbyte := h.moved (by rw [hcall.header]; exact htype) i (hmoved i hi)
  rwa [Job.addr, Job.offset, hcall.buffer, hcall.header] at hbyte

/-! ## The invariant

A run may be prompt (`p`), and its device may write the status byte last (`l`).  What depends on
neither holds in every run. -/

section Invariant

variable {p l : Prop} {lab : Label}

/-- A chain of an earlier call: it is answered, and no prompt run has one. -/
def Job.Stale (p : Prop) (job : Job) : Prop := job.status ≠ none ∧ ¬ p

/-- No chain of a call is under way. -/
structure Sys.Settled (p : Prop) (s : Sys) : Prop where
  index : s.virtq.avail.idx = s.nextAvail
  stale : ∀ n job, s.jobs n = some job → job.Stale p

theorem Sys.Settled.answered (h : s.Settled p) : s.Answered :=
  ⟨h.index, fun n job hjob => (h.stale n job hjob).1⟩

/-- In a prompt run the device then owns nothing. -/
theorem Sys.Settled.not_owned (h : s.Settled p) (hp : p) : ¬ s.Owned := by
  rintro (hidx | ⟨n, job, hjob⟩)
  · exact hidx h.index
  · exact (h.stale n job hjob).2 hp

/-- How far the device is with the chain of the call. -/
inductive Stage (p l : Prop) (a : Statics) (call : IoCall) (s : Sys) : Prop
  | published (hpub : s.Published a call) (hstatus : s.virtq.status = 0xff)
      (stale : ∀ n job, s.jobs n = some job → job.Stale p)
  | popped (n : ℕ) (job : Job) (index : s.virtq.avail.idx = s.nextAvail)
      (hjob : s.jobs n = some job) (hnone : job.status = none) (hcall : job.OfCall a call)
      (hstatus : s.virtq.status = 0xff)
      (stale : ∀ k ≠ n, ∀ j, s.jobs k = some j → j.Stale p)
      (tracks : p ∨ l → s.Tracks job)
  | answered (n : ℕ) (job : Job) (index : s.virtq.avail.idx = s.nextAvail)
      (hjob : s.jobs n = some job) (hsome : job.status = some s.virtq.status)
      (hcall : job.OfCall a call)
      (stale : ∀ k ≠ n, ∀ j, s.jobs k = some j → j.Stale p)
      (tracks : p ∨ l → s.Tracks job)
      (last : l → s.virtq.status = 0 → job.Moved)
  | given (settled : s.Settled p)
      (delivered : p ∨ l → s.virtq.status = 0 → call.type = virtioBlkTIn → s.Delivered call)

/-- Stale chains stay so, if the one that changes is stale afterwards, given back or not counted. -/
theorem stale_update {jobs : ℕ → Option Job} {o : Option Job} {P : ℕ → Prop}
    (h : ∀ k, P k → ∀ j, jobs k = some j → j.Stale p) (ho : P n → ∀ j, o = some j → j.Stale p) :
    ∀ k, P k → ∀ j, Function.update jobs n o k = some j → j.Stale p := by
  intro k hk j hj
  by_cases hkn : k = n
  · subst hkn
    rw [Function.update_self] at hj
    exact ho hk j hj
  · rw [Function.update_of_ne hkn] at hj
    exact h k hk j hj

/-- The same for all the chains. -/
theorem stale_update_all {jobs : ℕ → Option Job} {o : Option Job}
    (h : ∀ k j, jobs k = some j → j.Stale p) (ho : ∀ j, o = some j → j.Stale p) :
    ∀ k j, Function.update jobs n o k = some j → j.Stale p :=
  fun k => stale_update (P := fun _ => True) (fun k _ => h k) (fun _ => ho) k trivial

theorem transfer_virtq : (s.transfer job i).virtq = s.virtq := by
  rw [Sys.transfer]
  split <;> rfl

theorem transfer_popped : (s.transfer job i).popped = s.popped := by
  rw [Sys.transfer]
  split <;> rfl

/-- The label is one of the device. -/
def Label.OfDevice : Label → Prop
  | .pop | .transfer _ _ | .writeStatus _ _ | .giveBack _ _ => True
  | _ => False

/-- What the device leaves as it is while no chain is under way. -/
structure Frame (p l : Prop) (s s' : Sys) : Prop where
  agree : s.virtq.Agree s'.virtq
  data : p ∨ l → s'.memory = s.memory ∧ s'.disk = s.disk

/-- The condition on the status bytes lets no data of an answered chain through. -/
theorem not_transfer_of_stale (hl : l → StatusLast s (.transfer n i)) (hjob : s.jobs n = some job)
    (hstale : job.Stale p) : ¬ (p ∨ l) := by
  rintro (hp | hlast)
  · exact hstale.2 hp
  · exact hstale.1 (hl hlast job hjob)

/-- **The device between two calls**: it can go on with stale chains only. -/
theorem Sys.Settled.step (h : s.Settled p) (hl : l → StatusLast s lab) (hdev : lab.OfDevice)
    (hstep : s.step a lab = some s') : s'.Settled p ∧ Frame p l s s' := by
  cases lab with
  | pop => exact absurd h.index (step_pop.mp hstep).1
  | transfer n i =>
      obtain ⟨job, hjob, -, rfl⟩ := step_transfer.mp hstep
      have hstale := h.stale n job hjob
      have hno : ¬ (p ∨ l) := not_transfer_of_stale hl hjob hstale
      refine ⟨⟨?_, stale_update_all h.stale ?_⟩, ⟨?_, fun hpl => absurd hpl hno⟩⟩
      · simp only [Sys.nextAvail, transfer_virtq, transfer_popped]
        exact h.index
      · exact fun j hj => Option.some_inj.mp hj ▸ hstale
      · simp only [transfer_virtq]
        exact .refl _
  | writeStatus n v =>
      obtain ⟨job, hjob, hnone, -⟩ := step_writeStatus.mp hstep
      exact absurd hnone (h.stale n job hjob).1
  | giveBack n written =>
      obtain ⟨job, hjob, -, rfl⟩ := step_giveBack.mp hstep
      exact ⟨⟨h.index, stale_update_all h.stale nofun⟩, ⟨⟨_, rfl⟩, fun _ => ⟨rfl, rfl⟩⟩⟩
  | caller memory => exact hdev.elim
  | call c => exact hdev.elim
  | driver => exact hdev.elim

/-- What is delivered stays so, with what the device leaves alone. -/
theorem Frame.delivered (h : Frame p l s s') (hpl : p ∨ l) (hdel : s.Delivered call) :
    s'.Delivered call := by
  obtain ⟨hmemory, hdisk⟩ := h.data hpl
  intro i hi
  rw [hmemory, hdisk]
  exact hdel i hi

/-- The chain is popped. -/
theorem Stage.pop (h : Stage p l a call s) (hstep : s.step a .pop = some s') :
    Stage p l a call s' := by
  obtain ⟨hidx, job, hpop, rfl⟩ := step_pop.mp hstep
  cases h with
  | published hpub hstatus stale =>
      obtain ⟨job', hpop', hcall, hnone, hmoved⟩ := hpub.popJob
      obtain rfl : job' = job := Option.some_inj.mp (hpop'.symm.trans hpop)
      refine .popped s.popped job' ?_ (Function.update_self ..) hnone hcall hstatus ?_
        fun _ => ⟨?_, ?_⟩
      · obtain ⟨q, ⟨used, hused⟩, hnext⟩ := hpub
        have hpopped : BitVec.ofNat 16 s.popped = q.avail.idx := hnext
        simp only [Sys.nextAvail, BitVec.ofNat_add, hpopped, hused]
        rfl
      · exact stale_update (fun k _ => stale k) fun hne => absurd rfl hne
      · simp [hmoved]
      · simp [hmoved]
  | popped n cur index => exact absurd index hidx
  | answered n cur index => exact absurd index hidx
  | given settled => exact absurd settled.index hidx

/-- A byte is transferred: of the call's own chain, or of a stale one. -/
theorem Stage.transfer (h : Stage p l a call s) (hl : l → StatusLast s (.transfer n i))
    (hstep : s.step a (.transfer n i) = some s') : Stage p l a call s' := by
  have hdevice : Label.OfDevice (.transfer n i) := trivial
  obtain ⟨job, hjob, hi, hs'⟩ := step_transfer.mp hstep
  have hvirtq : s'.virtq = s.virtq := by
    rw [hs']
    exact transfer_virtq
  have hnext : s'.nextAvail = s.nextAvail := by simp only [hs', Sys.nextAvail, transfer_popped]
  have hjobs : s'.jobs = Function.update s.jobs n (some { job with moved := i :: job.moved }) := by
    rw [hs']
  have htracks : s.Tracks job → s'.Tracks { job with moved := i :: job.moved } := by
    intro h
    rw [hs']
    exact ⟨(h.transfer hi).bound, (h.transfer hi).moved⟩
  have hkeep : ∀ k, s.jobs k = some job → job.Stale p → ∀ j,
      some { job with moved := i :: job.moved } = some j → j.Stale p :=
    fun k _ hstale j hj => Option.some_inj.mp hj ▸ hstale
  cases h with
  | published hpub hstatus stale =>
      refine .published ?_ (hvirtq ▸ hstatus) ?_
      · rwa [Sys.Published, hvirtq, hnext]
      · rw [hjobs]
        exact stale_update_all stale (hkeep n hjob (stale n job hjob))
  | popped m cur index hcur hnone hcall hstatus stale tracks =>
      have hindex : s'.virtq.avail.idx = s'.nextAvail := by rw [hvirtq, hnext, index]
      by_cases hnm : n = m
      · subst hnm
        obtain rfl : cur = job := Option.some_inj.mp (hcur.symm.trans hjob)
        refine .popped n { cur with moved := i :: cur.moved } hindex
          (hjobs ▸ Function.update_self ..) hnone
          ⟨hcall.header, hcall.buffer, hcall.len, hcall.statusAddr⟩ (hvirtq ▸ hstatus) ?_
          fun hpl => htracks (tracks hpl)
        rw [hjobs]
        exact stale_update stale fun hne => absurd rfl hne
      · have hstale := stale n hnm job hjob
        refine .popped m cur hindex ?_ hnone hcall (hvirtq ▸ hstatus) ?_
          fun hpl => absurd hpl (not_transfer_of_stale hl hjob hstale)
        · rw [hjobs, Function.update_of_ne (Ne.symm hnm), hcur]
        · rw [hjobs]
          exact stale_update stale fun _ => hkeep n hjob hstale
  | answered m cur index hcur hsome hcall stale tracks last =>
      have hindex : s'.virtq.avail.idx = s'.nextAvail := by rw [hvirtq, hnext, index]
      by_cases hnm : n = m
      · subst hnm
        obtain rfl : cur = job := Option.some_inj.mp (hcur.symm.trans hjob)
        refine .answered n { cur with moved := i :: cur.moved } hindex
          (hjobs ▸ Function.update_self ..) (hvirtq ▸ hsome)
          ⟨hcall.header, hcall.buffer, hcall.len, hcall.statusAddr⟩ ?_
          (fun hpl => htracks (tracks hpl)) fun hlast hok k hk =>
            List.mem_cons_of_mem _ (last hlast (hvirtq ▸ hok) k hk)
        rw [hjobs]
        exact stale_update stale fun hne => absurd rfl hne
      · have hstale := stale n hnm job hjob
        refine .answered m cur hindex ?_ (hvirtq ▸ hsome) hcall ?_
          (fun hpl => absurd hpl (not_transfer_of_stale hl hjob hstale))
          fun hlast hok => last hlast (hvirtq ▸ hok)
        · rw [hjobs, Function.update_of_ne (Ne.symm hnm), hcur]
        · rw [hjobs]
          exact stale_update stale fun _ => hkeep n hjob hstale
  | given settled delivered =>
      obtain ⟨hsettled, hframe⟩ := settled.step hl hdevice hstep
      exact .given hsettled fun hpl hok htype =>
        hframe.delivered hpl (delivered hpl (hframe.agree.status ▸ hok) htype)

/-- A status byte is written: the one of the call's own chain, all others have theirs. -/
theorem Stage.writeStatus {v : Byte} (h : Stage p l a call s)
    (hl : l → StatusLast s (.writeStatus n v)) (hstep : s.step a (.writeStatus n v) = some s') :
    Stage p l a call s' := by
  obtain ⟨job, hjob, hnone, rfl⟩ := step_writeStatus.mp hstep
  cases h with
  | published hpub hstatus stale => exact absurd hnone (stale n job hjob).1
  | popped m cur index hcur hnone' hcall hstatus stale tracks =>
      obtain rfl : n = m := by
        by_contra hnm
        exact (stale n hnm job hjob).1 hnone
      obtain rfl : cur = job := Option.some_inj.mp (hcur.symm.trans hjob)
      have hwrite : s.virtq.writeByte a cur.statusAddr v = { s.virtq with status := v } := by
        rw [Virtq.writeByte, if_pos hcall.statusAddr]
      rw [hwrite]
      exact .answered n _ index (Function.update_self ..) rfl
        ⟨hcall.header, hcall.buffer, hcall.len, hcall.statusAddr⟩
        (stale_update stale fun hne => absurd rfl hne)
        (fun hpl => ⟨(tracks hpl).bound, (tracks hpl).moved⟩)
        fun hlast hok => hl hlast cur hjob hok
  | answered m cur index hcur hsome hcall stale tracks last =>
      by_cases hnm : n = m
      · subst hnm
        rw [Option.some_inj.mp (hcur.symm.trans hjob), hnone] at hsome
        exact absurd hsome.symm (Option.some_ne_none _)
      · exact absurd hnone (stale n hnm job hjob).1
  | given settled delivered => exact absurd hnone (settled.stale n job hjob).1

/-- A chain is given back: the call's own one is answered then, and of a success all is there. -/
theorem Stage.giveBack {written : BitVec 32} (h : Stage p l a call s)
    (hstep : s.step a (.giveBack n written) = some s') : Stage p l a call s' := by
  obtain ⟨job, hjob, ⟨hsome', hmoved⟩, rfl⟩ := step_giveBack.mp hstep
  cases h with
  | published hpub hstatus stale =>
      obtain ⟨q, hagree, hnext⟩ := hpub
      exact .published ⟨q, hagree.trans ⟨_, rfl⟩, hnext⟩ hstatus (stale_update_all stale nofun)
  | popped m cur index hcur hnone hcall hstatus stale tracks =>
      have hmn : m ≠ n := by
        rintro rfl
        exact hsome' (Option.some_inj.mp (hcur.symm.trans hjob) ▸ hnone)
      exact .popped m cur index ((Function.update_of_ne hmn ..).trans hcur) hnone hcall hstatus
        (stale_update stale fun _ => nofun) fun hpl => ⟨(tracks hpl).bound, (tracks hpl).moved⟩
  | answered m cur index hcur hsome hcall stale tracks last =>
      by_cases hmn : m = n
      · subst hmn
        obtain rfl : cur = job := Option.some_inj.mp (hcur.symm.trans hjob)
        refine .given ⟨index, fun k j hj => ?_⟩ fun hpl hok htype =>
          (tracks hpl).delivered hcall (hmoved (hok ▸ hsome)) htype
        by_cases hkm : k = m
        · subst hkm
          exact absurd ((Function.update_self ..).symm.trans hj) nofun
        · exact stale k hkm j ((Function.update_of_ne hkm ..).symm.trans hj)
      · exact .answered m cur index ((Function.update_of_ne hmn ..).trans hcur) hsome hcall
          (stale_update stale fun _ => nofun)
          (fun hpl => ⟨(tracks hpl).bound, (tracks hpl).moved⟩) last
  | given settled delivered =>
      exact .given ⟨settled.index, stale_update_all settled.stale nofun⟩ delivered

/-- **The device while a chain is under way.** -/
theorem Stage.step (h : Stage p l a call s) (hl : l → StatusLast s lab) (hdev : lab.OfDevice)
    (hstep : s.step a lab = some s') : Stage p l a call s' := by
  cases lab with
  | pop => exact h.pop hstep
  | transfer n i => exact h.transfer hl hstep
  | writeStatus n v => exact h.writeStatus hl hstep
  | giveBack n written => exact h.giveBack hstep
  | caller memory => exact hdev.elim
  | call c => exact hdev.elim
  | driver => exact hdev.elim

/-- The stages do not depend on the used ring, nor on where the driver is. -/
theorem Stage.agree (h : Stage p l a call s) (hagree : s.virtq.Agree q) (d : Driver) :
    Stage p l a call { s with virtq := q, driver := d } := by
  obtain ⟨used, rfl⟩ := hagree
  cases h with
  | published hpub hstatus stale =>
      obtain ⟨q, hq, hnext⟩ := hpub
      exact .published ⟨q, hq.trans ⟨used, rfl⟩, hnext⟩ hstatus stale
  | popped n cur index hcur hnone hcall hstatus stale tracks =>
      exact .popped n cur index hcur hnone hcall hstatus stale
        fun hpl => ⟨(tracks hpl).bound, (tracks hpl).moved⟩
  | answered n cur index hcur hsome hcall stale tracks last =>
      exact .answered n cur index hcur hsome hcall stale
        (fun hpl => ⟨(tracks hpl).bound, (tracks hpl).moved⟩) last
  | given settled delivered => exact .given ⟨settled.index, settled.stale⟩ delivered

/-- The assignments before the chain is available. -/
def preparation (a : Statics) (call : IoCall) : List Store := requestStores a call ++ [.availRing]

/-- None of them makes a chain available. -/
theorem apply_avail_idx {st : Store} (h : st ∈ preparation a call) (q : Virtq) :
    (st.apply q).avail.idx = q.avail.idx := by
  cases st with
  | availIdx => simp [preparation, requestStores] at h
  | _ => rfl

/-- The stores of the preparation, with the request as a whole. -/
theorem stores_preparation :
    q.stores (preparation a call) = Store.availRing.apply (q.stores (requestStores a call)) := by
  rw [preparation, Virtq.stores, List.foldl_append]
  rfl

/-- It makes the request available as it is. -/
theorem publish_agree : (q.publish a call).Agree
    (Store.availIdx.apply (q.stores (preparation a call))) := by
  rw [stores_preparation, Virtq.publish]
  generalize q.stores (requestStores a call) = r
  exact ⟨r.used, rfl⟩

theorem preparation_avail_idx : (q.stores (preparation a call)).avail.idx = q.avail.idx := by
  rw [stores_preparation]
  have hidx : (q.stores (requestStores a call)).avail.idx = q.avail.idx :=
    congrArg VirtqAvail.idx requestStores_avail
  exact hidx

/-- The driver is before the assignment that makes the chain available. -/
def Preparing (a : Statics) (call : IoCall) (rest : List Store) (s : Sys) : Prop :=
  ∃ (q : Virtq) (done rest' : List Store), preparation a call = done ++ rest' ∧
    rest = rest' ++ [.availIdx, .usedIdx, .usedFlags] ∧ (q.stores done).Agree s.virtq

/-- **The invariant**, by where the driver is. -/
def Inv (p l : Prop) (a : Statics) (s : Sys) : Prop :=
  match s.driver with
  | .idle _ => s.Settled p
  | .storing call rest => (Preparing a call rest s ∧ s.Settled p) ∨
      ((∀ st ∈ rest, st = .usedIdx ∨ st = .usedFlags) ∧ Stage p l a call s)
  | .polling call => Stage p l a call s
  | .testing call => s.Settled p ∧
      (p ∨ l → s.virtq.status = 0 → call.type = virtioBlkTIn → s.Delivered call)
  | .failing _ => s.Settled p ∧ s.virtq.status ≠ 0

/-- The device does not move the driver. -/
theorem device_driver (hdev : lab.OfDevice) (hstep : s.step a lab = some s') :
    s'.driver = s.driver := by
  cases lab with
  | pop =>
      obtain ⟨-, job, -, rfl⟩ := step_pop.mp hstep
      rfl
  | transfer n i =>
      obtain ⟨job, -, -, rfl⟩ := step_transfer.mp hstep
      show (s.transfer job i).driver = s.driver
      rw [Sys.transfer]
      split <;> rfl
  | writeStatus n v =>
      obtain ⟨job, -, -, rfl⟩ := step_writeStatus.mp hstep
      rfl
  | giveBack n written =>
      obtain ⟨job, -, -, rfl⟩ := step_giveBack.mp hstep
      rfl
  | caller memory => exact hdev.elim
  | call c => exact hdev.elim
  | driver => exact hdev.elim

/-- **The device keeps the invariant.** -/
theorem Inv.device (h : Inv p l a s) (hl : l → StatusLast s lab) (hdev : lab.OfDevice)
    (hstep : s.step a lab = some s') : Inv p l a s' := by
  have hdriver := device_driver hdev hstep
  unfold Inv at h ⊢
  rw [hdriver]
  cases hd : s.driver with
  | idle last =>
      simp only [hd] at h
      exact (h.step hl hdev hstep).1
  | storing call rest =>
      simp only [hd] at h
      rcases h with ⟨⟨q, done, rest', hdone, hrest, hagree⟩, hsettled⟩ | ⟨hrest, hstage⟩
      · obtain ⟨hsettled', hframe⟩ := hsettled.step hl hdev hstep
        exact .inl ⟨⟨q, done, rest', hdone, hrest, hagree.trans hframe.agree⟩, hsettled'⟩
      · exact .inr ⟨hrest, hstage.step hl hdev hstep⟩
  | polling call =>
      simp only [hd] at h
      exact h.step hl hdev hstep
  | testing call =>
      simp only [hd] at h
      obtain ⟨hsettled, hframe⟩ := h.1.step hl hdev hstep
      exact ⟨hsettled, fun hpl hok htype =>
        hframe.delivered hpl (h.2 hpl (hframe.agree.status ▸ hok) htype)⟩
  | failing call =>
      simp only [hd] at h
      obtain ⟨hsettled, hframe⟩ := h.1.step hl hdev hstep
      exact ⟨hsettled, hframe.agree.status ▸ h.2⟩

/-- The next assignment of the preparation, or the one that makes the chain available. -/
theorem Inv.store {st : Store} {rest : List Store} (hprep : Preparing a call (st :: rest) s)
    (hsettled : s.Settled p) :
    Inv p l a { s with virtq := st.apply s.virtq, driver := .storing call rest } := by
  obtain ⟨q, done, rest', hdone, hrest, hagree⟩ := hprep
  cases rest' with
  | nil =>
      obtain ⟨rfl, rfl⟩ := List.cons_eq_cons.mp hrest
      obtain rfl : preparation a call = done := by rw [hdone, List.append_nil]
      have hpublish : (q.publish a call).Agree (Store.availIdx.apply s.virtq) :=
        publish_agree.trans (hagree.apply .availIdx)
      have hnext : s.nextAvail = q.avail.idx := by
        rw [← hsettled.index, hagree.avail, preparation_avail_idx]
      exact .inr ⟨by simp, .published ⟨q, hpublish, hnext⟩ hpublish.status hsettled.stale⟩
  | cons st' rest' =>
      obtain ⟨rfl, rfl⟩ := List.cons_eq_cons.mp hrest
      have hmem : st ∈ preparation a call := by simp [hdone]
      refine .inl ⟨⟨q, done ++ [st], rest', by simp [hdone], rfl, ?_⟩, ⟨?_, hsettled.stale⟩⟩
      · rw [Virtq.stores, List.foldl_append]
        exact hagree.apply st
      · exact (apply_avail_idx hmem _).trans hsettled.index

/-- **The loop ends** with the chain of the call answered, in a prompt run given back. -/
theorem Stage.polled (h : Stage p l a call s) (hp : p → Prompt s .driver)
    (hdriver : s.driver = .polling call) (hstatus : s.virtq.status ≠ 0xff) :
    s.Settled p ∧ (p ∨ l → s.virtq.status = 0 → call.type = virtioBlkTIn → s.Delivered call) := by
  cases h with
  | published hpub hff => exact absurd hff hstatus
  | popped n cur index hcur hnone hcall hff => exact absurd hff hstatus
  | answered n cur index hcur hsome hcall stale tracks last =>
      have hp' : ¬ p := fun hprompt => by
        rw [hp hprompt call hdriver hstatus n cur hcur] at hsome
        exact absurd hsome nofun
      refine ⟨⟨index, fun k j hk => ?_⟩, fun hpl hok htype => ?_⟩
      · by_cases hkn : k = n
        · subst hkn
          rw [Option.some_inj.mp (hcur.symm.trans hk)] at hsome
          exact ⟨fun hnone => absurd (hnone.symm.trans hsome) nofun, hp'⟩
        · exact stale k hkn j hk
      · exact (tracks hpl).delivered hcall (last (hpl.resolve_left hp') hok) htype
  | given settled delivered => exact ⟨settled, delivered⟩

/-- **The driver keeps the invariant.** -/
theorem Inv.driver (h : Inv p l a s) (hp : p → Prompt s .driver)
    (hstep : s.driverStep = some s') : Inv p l a s' := by
  unfold Inv at h
  unfold Sys.driverStep at hstep
  cases hd : s.driver with
  | idle last => simp [hd] at hstep
  | storing call rest =>
      simp only [hd] at h hstep
      cases rest with
      | nil =>
          rcases h with ⟨⟨q, done, rest', -, hrest, -⟩, -⟩ | ⟨-, hstage⟩
          · exact absurd hrest (by simp)
          · obtain rfl := Option.some_inj.mp hstep
            exact hstage.agree (.refl _) (.polling call)
      | cons st rest =>
          obtain rfl := Option.some_inj.mp hstep
          rcases h with ⟨hprep, hsettled⟩ | ⟨hrest, hstage⟩
          · exact .store hprep hsettled
          · rw [List.forall_mem_cons] at hrest
            have hagree : s.virtq.Agree (st.apply s.virtq) := by
              rcases hrest.1 with rfl | rfl <;> exact ⟨_, rfl⟩
            exact .inr ⟨hrest.2, hstage.agree hagree (.storing call rest)⟩
  | polling call =>
      simp only [hd] at h hstep
      by_cases hff : s.virtq.status = 0xff
      · rw [if_pos hff] at hstep
        obtain rfl := Option.some_inj.mp hstep
        unfold Inv
        simpa only [hd] using h
      · rw [if_neg hff] at hstep
        obtain rfl := Option.some_inj.mp hstep
        obtain ⟨hsettled, hdelivered⟩ := h.polled hp hd hff
        exact ⟨⟨hsettled.index, hsettled.stale⟩, hdelivered⟩
  | testing call =>
      simp only [hd] at h hstep
      obtain rfl := Option.some_inj.mp hstep
      by_cases hok : s.virtq.status = 0
      · simp only [if_pos hok]
        exact ⟨h.1.index, h.1.stale⟩
      · simp only [if_neg hok]
        exact ⟨⟨h.1.index, h.1.stale⟩, hok⟩
  | failing call =>
      simp only [hd] at h hstep
      obtain rfl := Option.some_inj.mp hstep
      exact ⟨h.1.index, h.1.stale⟩

/-- **Every step keeps the invariant.** -/
theorem Inv.step (h : Inv p l a s) (hp : p → Prompt s lab) (hl : l → StatusLast s lab)
    (hstep : s.step a lab = some s') : Inv p l a s' := by
  cases lab with
  | driver => exact h.driver hp hstep
  | pop => exact h.device hl trivial hstep
  | transfer n i => exact h.device hl trivial hstep
  | writeStatus n v => exact h.device hl trivial hstep
  | giveBack n written => exact h.device hl trivial hstep
  | caller memory =>
      unfold Inv at h
      unfold Sys.step at hstep
      cases hd : s.driver with
      | idle last =>
          simp only [hd] at h hstep
          obtain rfl := Option.some_inj.mp hstep
          simp only [Inv]
          exact ⟨h.index, h.stale⟩
      | _ => simp [hd] at hstep
  | call c =>
      unfold Inv at h
      unfold Sys.step at hstep
      cases hd : s.driver with
      | idle last =>
          simp only [hd] at h hstep
          obtain rfl := Option.some_inj.mp hstep
          exact .inl ⟨⟨s.virtq, [], preparation a c.io, rfl, by simp [preparation, publishStores],
            .refl _⟩, ⟨h.index, h.stale⟩⟩
      | _ => simp [hd] at hstep

/-- The invariant holds throughout a run. -/
theorem Inv.reaches {q : Virtq} {memory : BitVec 64 → Byte} {disk : Disk}
    {P : Sys → Label → Prop} (hp : ∀ s lab, P s lab → p → Prompt s lab)
    (hl : ∀ s lab, P s lab → l → StatusLast s lab)
    (h : Reaches (Sys.step a) P (Sys.start q.clear memory disk) s) : Inv p l a s :=
  h.invariant (fun s lab _ hs hP hstep => hs.step (hp s lab hP) (hl s lab hP) hstep)
    ⟨rfl, fun _ _ => nofun⟩

/-! ## What the invariant says of a step of the driver -/

/-- Between the calls there is no chain under way. -/
theorem Inv.settled_of_rewrites (h : Inv p l a s) (hrewrites : s.Rewrites) : s.Settled p := by
  obtain ⟨call, st, rest, hd, hst⟩ := hrewrites
  simp only [Inv, hd] at h
  rcases h with ⟨-, hsettled⟩ | ⟨hrest, -⟩
  · exact hsettled
  · rcases hrest st List.mem_cons_self with rfl | rfl <;> exact hst.elim

/-- The call that returns, and what its status says. -/
theorem Inv.of_returns {call : IoCall} {rc : ℤ} (h : Inv p l a s)
    (hstep : s.driverStep = some s') (hret : s'.driver = .idle (some (call, rc))) :
    s.Settled p ∧
      (p ∨ l → call.type = virtioBlkTIn → 0 ≤ rc → s'.Delivered call) := by
  unfold Inv at h
  unfold Sys.driverStep at hstep
  cases hd : s.driver with
  | idle last => simp [hd] at hstep
  | storing call' rest =>
      cases rest <;> simp only [hd] at hstep <;> obtain rfl := Option.some_inj.mp hstep <;>
        exact absurd hret nofun
  | polling call' =>
      simp only [hd] at hstep
      by_cases hff : s.virtq.status = 0xff
      · rw [if_pos hff] at hstep
        obtain rfl := Option.some_inj.mp hstep
        exact absurd (hd.symm.trans hret) nofun
      · rw [if_neg hff] at hstep
        obtain rfl := Option.some_inj.mp hstep
        exact absurd hret nofun
  | testing call' =>
      simp only [hd] at h hstep
      obtain rfl := Option.some_inj.mp hstep
      by_cases hok : s.virtq.status = 0
      · simp only [if_pos hok, Driver.idle.injEq, Option.some_inj, Prod.mk.injEq] at hret
        obtain ⟨rfl, -⟩ := hret
        exact ⟨h.1, fun hpl htype _ => h.2 hpl hok htype⟩
      · simp only [if_neg hok] at hret
        exact absurd hret nofun
  | failing call' =>
      simp only [hd] at h hstep
      obtain rfl := Option.some_inj.mp hstep
      simp only [Driver.idle.injEq, Option.some_inj, Prod.mk.injEq] at hret
      obtain ⟨rfl, rfl⟩ := hret
      have hpos : s.virtq.status.toNat ≠ 0 := fun h₀ => h.2 (BitVec.eq_of_toNat_eq h₀)
      exact ⟨h.1, fun _ _ hrc => absurd hrc (by omega)⟩

end Invariant

/-! ## Ownership -/

/-- **What the driver's polling gives** from a start on: the status bytes are always awaited; in a
prompt run, ownership is respected; and a device that writes the status byte last has then delivered
what it was asked for. -/
structure PollingGives (a : Statics) (start : Sys) : Prop where
  always : ∀ s s', Reaches (Sys.step a) (fun _ _ => True) start s → s.driverStep = some s' →
    StatusAwaited s s'
  prompt : ∀ s s', Reaches (Sys.step a) Prompt start s → Prompt s .driver →
    s.driverStep = some s' → OwnershipKept s s'
  statusLast : ∀ s s', Reaches (Sys.step a) StatusLast start s → s.driverStep = some s' →
    ReadsDelivered s'

/-- **Request ownership** in every run of calls after `virtio_blk_init`, interleaved with the steps
of the device in any way. -/
theorem virtioBlkInit_pollingGives (addrs : QueueAddrs) (m : Mmio) (a : Statics)
    (memory : BitVec 64 → Byte) (disk : Disk) :
    Ends (virtioBlkInit addrs) m
      (fun _ m' => PollingGives a (Sys.start m'.virtq memory disk)) fun _ _ => True := by
  refine ends_virtioBlkInit.mono (fun _ m' hend => ?_) fun _ _ _ => trivial
  obtain ⟨-, rfl⟩ := hend
  refine ⟨fun s s' hreach hstep => ?_, fun s s' hreach hp hstep => ?_,
    fun s s' hreach hstep call rc hret htype hrc => ?_⟩
  · have hinv : Inv False False a s := Inv.reaches (fun _ _ _ => False.elim)
      (fun _ _ _ => False.elim) hreach
    exact ⟨fun hrewrites => (hinv.settled_of_rewrites hrewrites).answered,
      fun r hret => (hinv.of_returns hstep hret).1.answered⟩
  · have hinv : Inv True False a s := Inv.reaches (fun _ _ h _ => h) (fun _ _ _ => False.elim) hreach
    exact ⟨fun hrewrites => (hinv.settled_of_rewrites hrewrites).not_owned trivial,
      fun r hret => (hinv.of_returns hstep hret).1.not_owned trivial,
      fun call rc hret => (hinv.of_returns hstep hret).2 (.inl trivial)⟩
  · have hinv : Inv False True a s := Inv.reaches (fun _ _ _ => False.elim) (fun _ _ h _ => h) hreach
    exact (hinv.of_returns hstep hret).2 (.inr trivial) htype hrc

/-- A test for both conditions; it lets no poll pass. -/
def keepsOrder (s : Sys) : Label → Bool
  | .driver => match s.driver with
    | .polling _ => false
    | _ => true
  | .transfer n _ => (s.jobs n).all fun job => decide (job.status = none)
  | .writeStatus n v => (s.jobs n).all fun job => decide (v = 0 → job.Moved)
  | _ => true

theorem prompt_of_keepsOrder (h : keepsOrder s lab = true) : Prompt s lab ∧ StatusLast s lab := by
  cases lab with
  | driver =>
      refine ⟨fun call hpolling => ?_, trivial⟩
      simp [keepsOrder, hpolling] at h
  | transfer n i =>
      refine ⟨trivial, fun job hjob => ?_⟩
      simpa [keepsOrder, hjob] using h
  | writeStatus n v =>
      refine ⟨trivial, fun job hjob hv => ?_⟩
      simpa [keepsOrder, hjob, hv] using h
  | _ => exact ⟨trivial, trivial⟩

/-- The driver reads one byte, and the device transfers it, writes the status byte and gives the
chain back before the driver polls. -/
def promptRead : List Label :=
  .call (.read 0 1 0x40200000) :: List.replicate 20 .driver ++
    [.pop, .transfer 0 0, .writeStatus 0 0, .giveBack 0 1, .driver]

/-- A disk of ones, and a memory of zeroes. -/
def earlyStart : Sys := Sys.start Virtq.bss.clear (fun _ => 0) fun _ => 1

/-- **A read that returns its length**, in a run that is prompt and in which the status byte comes
last. -/
theorem exists_promptRead : ∃ s s',
    Reaches (Sys.step ⟨0x1000, 0x2000⟩) (fun s lab => Prompt s lab ∧ StatusLast s lab)
        earlyStart s ∧ Prompt s .driver ∧ s.driverStep = some s' ∧
      s'.driver = .idle (some (.read 0 1 0x40200000, 1)) := by
  have hrun : ∃ j₁ j₂ j₃, (runSteps (fun s lab => if keepsOrder s lab = true then
      Sys.step ⟨0x1000, 0x2000⟩ s lab else none) promptRead earlyStart).map
        (fun s => (s.driver, s.virtq.status, s.jobs)) =
      some (.polling (.read 0 1 0x40200000), 0, Function.update (Function.update (Function.update
        (Function.update (fun _ => none) 0 (some j₁)) 0 (some j₂)) 0 (some j₃)) 0 none) :=
    ⟨_, _, _, rfl⟩
  obtain ⟨j₁, j₂, j₃, hrun⟩ := hrun
  obtain ⟨s, hs, hfacts⟩ := Option.map_eq_some_iff.mp hrun
  simp only [Prod.mk.injEq, Function.update_idem, Function.update_eq_self] at hfacts
  obtain ⟨hdriver, hstatus, hjobs⟩ := hfacts
  have hprompt : Prompt s .driver := fun call _ _ n job hjob => by
    rw [hjobs] at hjob
    exact absurd hjob.symm (Option.some_ne_none job)
  -- the poll, and the test behind it
  have hpoll : Sys.step ⟨0x1000, 0x2000⟩ s .driver =
      some { s with driver := .testing (.read 0 1 0x40200000) } := by
    simp only [Sys.step, Sys.driverStep, hdriver, hstatus]
    rfl
  have hreach := Reaches.of_checked_run (fun _ _ => prompt_of_keepsOrder) hs
  refine ⟨_, { s with driver := .idle (some (.read 0 1 0x40200000, 1)) },
    hreach.tail ⟨hprompt, trivial⟩ hpoll, fun call hpolling => ?_, ?_, rfl⟩
  · exact absurd hpolling nofun
  · simp only [Sys.driverStep, hstatus, if_true]
    rfl

/-- It is one of the runs after `virtio_blk_init`: nothing is owned when it returns, and the byte is
in the buffer. -/
theorem virtioBlkInit_pollingGives_read : Returns (virtioBlkInit ⟨0, 0, 0⟩)
    ⟨diskAnswers (1 ||| 2 ||| 8), [], Virtq.bss⟩ fun _ m' => ∃ s s',
      Reaches (Sys.step ⟨0x1000, 0x2000⟩) (fun s lab => Prompt s lab ∧ StatusLast s lab)
        (Sys.start m'.virtq (fun _ => 0) fun _ => 1) s ∧ s.driverStep = some s' ∧
      s'.driver = .idle (some (.read 0 1 0x40200000, 1)) ∧ ¬ s.Owned ∧
      s'.Delivered (.read 0 1 0x40200000) := by
  have hinit := returns_virtioBlkInit (a := ⟨0, 0, 0⟩)
    (m := ⟨diskAnswers (1 ||| 2 ||| 8), [], Virtq.bss⟩) (passes_diskAnswers _)
  refine (hinit.and_ends (virtioBlkInit_pollingGives ⟨0, 0, 0⟩
    ⟨diskAnswers (1 ||| 2 ||| 8), [], Virtq.bss⟩ ⟨0x1000, 0x2000⟩ (fun _ => 0) fun _ => 1)).mono ?_
  rintro _ _ ⟨rfl, hgives⟩
  obtain ⟨s, s', hreach, hprompt, hstep, hreturn⟩ := exists_promptRead
  have hkept := hgives.prompt s s' (hreach.mono fun _ _ h => h.1) hprompt hstep
  have hdelivered := hgives.statusLast s s' (hreach.mono fun _ _ h => h.2) hstep
  exact ⟨s, s', hreach, hstep, hreturn, hkept.returns _ hreturn,
    hdelivered _ _ hreturn rfl (by decide)⟩

/-- Every step of the driver respects the ownership, in every run. -/
def RespectsOwnership (a : Statics) (start : Sys) : Prop :=
  ∀ s s', Reaches (Sys.step a) (fun _ _ => True) start s → s.driverStep = some s' →
    OwnershipKept s s'

/-- The driver reads one byte, and the device writes the status byte of a success before it: the
twenty assignments, the pop, the status byte, the notification and the poll. -/
def earlyStatus : List Label :=
  .call (.read 0 1 0x40200000) :: List.replicate 20 .driver ++
    [.pop, .writeStatus 0 0, .driver, .driver]

/-- **An early return**: the read returns its length, the device still owns the chain, and the byte
is not in the buffer. -/
theorem exists_earlyReturn : ∃ s s', Reaches (Sys.step ⟨0x1000, 0x2000⟩) (fun _ _ => True)
    earlyStart s ∧ s.driverStep = some s' ∧
    s'.driver = .idle (some (.read 0 1 0x40200000, 1)) ∧ s.Owned ∧
    ¬ s'.Delivered (.read 0 1 0x40200000) := by
  have hrun : (runSteps (Sys.step ⟨0x1000, 0x2000⟩) earlyStatus earlyStart).map
      (fun s => (s.driver, s.virtq.status, (s.jobs 0).isSome, s.memory 0x40200000, s.disk 0)) =
        some (.testing (.read 0 1 0x40200000), 0, true, 0, 1) := rfl
  obtain ⟨s, hs, hfacts⟩ := Option.map_eq_some_iff.mp hrun
  simp only [Prod.mk.injEq] at hfacts
  obtain ⟨hdriver, hstatus, hjob, hmemory, hdisk⟩ := hfacts
  refine ⟨s, { s with driver := .idle (some (.read 0 1 0x40200000, 1)) }, .of_run hs, ?_, rfl,
    .inr ⟨0, Option.isSome_iff_exists.mp hjob⟩, fun hdelivered => ?_⟩
  · simp only [Sys.driverStep, hdriver, hstatus, if_true]
    rfl
  · have hbyte : s.memory 0x40200000 = s.disk 0 := hdelivered 0 (by decide)
    rw [hmemory, hdisk] at hbyte
    exact absurd hbyte (by decide)

/-- The driver does not respect the ownership in every run. -/
theorem not_respectsOwnership_earlyStatus :
    ¬ RespectsOwnership ⟨0x1000, 0x2000⟩ earlyStart := by
  intro h
  obtain ⟨s, s', hreach, hstep, hreturn, howned, -⟩ := exists_earlyReturn
  exact (h s s' hreach hstep).returns _ hreturn howned

end LittleLoader
