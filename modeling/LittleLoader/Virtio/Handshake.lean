import Mathlib.Tactic.SplitIfs
import LittleLoader.Foundations.Returns
import LittleLoader.Machine.VirtioInit

/-!
# Virtio/Handshake — `virtio_blk_init` negotiates with the device

    reset ──▸ ACKNOWLEDGE ──▸ DRIVER ──▸ features ──▸ FEATURES_OK ──▸ queue ──▸ DRIVER_OK

Whatever the registers answer, the driver writes its status in this order, offers a part of the
features only, and gives up before `DRIVER_OK` if the device or its queue is not what it wants.  One
check never fires: the status that is read back after `FEATURES_OK` makes no difference
(`handshake_iff`).
-/

namespace LittleLoader

variable {m : Mmio} {reg : ℕ} {value : BitVec 32} {a : QueueAddrs} {E : Message → Mmio → Prop}

/-! ## The bus -/

/-- The bus after `n` reads and some accesses. -/
def Mmio.after (m : Mmio) (n : ℕ) (accesses : List Access) : Mmio :=
  { m with answers := fun i => m.answers (i + n), trace := m.trace ++ accesses }

/-- The bus after the `memset_` of the queue. -/
def Mmio.clear (m : Mmio) : Mmio := { m with virtq := m.virtq.clear }

section After

variable {n k i : ℕ} {l l' : List Access}

@[simp] theorem Mmio.after_answers : (m.after n l).answers i = m.answers (i + n) := rfl

@[simp] theorem Mmio.after_trace : (m.after n l).trace = m.trace ++ l := rfl

theorem Mmio.clear_after : (m.after n l).clear = m.clear.after n l := rfl

theorem Mmio.after_after : (m.after n l).after k l' = m.after (k + n) (l ++ l') := by
  simp only [Mmio.after, List.append_assoc, Nat.add_assoc]

end After

theorem ends_readReg {Q : BitVec 32 → Mmio → Prop} :
    Ends (readReg reg) m Q E ↔ Q (m.answers 0) (m.after 1 [Access.read reg (m.answers 0)]) := by
  simp [readReg, Mmio.after]

theorem ends_writeReg {Q : Unit → Mmio → Prop} :
    Ends (writeReg reg value) m Q E ↔ Q () (m.after 0 [Access.write reg value]) := ends_modify

theorem ends_writeAddr {addr : BitVec 64} {Q : Unit → Mmio → Prop} :
    Ends (writeAddr reg addr) m Q E ↔ Q () (m.after 0 [Access.write reg (addr.setWidth 32),
      Access.write (reg + 4) ((addr >>> 32).setWidth 32)]) := by
  simp only [writeAddr, ends_bind, ends_writeReg, Mmio.after_after, List.cons_append,
    List.nil_append]

theorem ends_clear {Q : PUnit → Mmio → Prop} :
    Ends (modify fun m => { m with virtq := m.virtq.clear } : MmioM PUnit) m Q E ↔ Q ⟨⟩ m.clear :=
  ends_modify

theorem ends_fatalMmio {α : Type} {fmt : String} {Q : α → Mmio → Prop} :
    Ends (fatalMmio fmt) m Q E ↔ E ⟨fmt, []⟩ m := ends_throw

/-- The values written to a register. -/
def writesTo (reg : ℕ) (trace : List Access) : List (BitVec 32) :=
  trace.filterMap fun
    | .write r v => if r = reg then some v else none
    | .read _ _ => none

/-! ## What a handshake is -/

/-- **The handshake is honoured** by the accesses of a run that ends: the device is the one the
driver wants, the status takes its steps in order and only gains bits, what the driver accepts of
each feature word was offered and is not masked out, the device has kept `FEATURES_OK`, and its
queue was free and is large enough. -/
structure Handshake (trace : List Access) : Prop where
  identity : [.read mmioMagic 0x74726976, .read mmioVersion 2, .read mmioDeviceId 2,
    .read mmioVendorId 0x554d4551] <+: trace
  status : writesTo mmioStatus trace = [0, 1, 1 ||| 2, 1 ||| 2 ||| 8, 1 ||| 2 ||| 8 ||| 4]
  features : ∃ offered₀ offered₁ accepted₀ accepted₁,
    [.write mmioDeviceFeaturesSel 0, .read mmioDeviceFeatures offered₀,
      .write mmioDriverFeaturesSel 0, .write mmioDriverFeatures accepted₀,
      .write mmioDeviceFeaturesSel 1, .read mmioDeviceFeatures offered₁,
      .write mmioDriverFeaturesSel 1, .write mmioDriverFeatures accepted₁] <:+: trace ∧
    writesTo mmioDriverFeatures trace = [accepted₀, accepted₁] ∧
    accepted₀ &&& offered₀ = accepted₀ ∧ accepted₁ &&& offered₁ = accepted₁ ∧
    (∀ bit ∈ maskedFeatures, accepted₀.getLsbD bit = false) ∧
    ∀ bit, bit ≠ 0 → accepted₁.getLsbD bit = false
  kept : ∃ status, [.write mmioStatus (1 ||| 2 ||| 8), .read mmioStatus status] <:+: trace ∧
    status.getLsbD 3 = true
  queue : ∃ numMax, [.read mmioQueueReady 0, .read mmioQueueNumMax numMax] <:+: trace ∧
    8 ≤ numMax.toNat

/-- The driver has not announced itself as ready. -/
def NotReady (trace : List Access) : Prop := ∀ v ∈ writesTo mmioStatus trace, v.getLsbD 2 = false

/-- **The handshake is honoured, or the driver gives up** before it announces itself as ready. -/
def HonoursHandshake (a : QueueAddrs) (m : Mmio) : Prop :=
  Ends (virtioBlkInit a) m (fun _ m' => Handshake m'.trace) fun _ m' => NotReady m'.trace

/-- What the first check wants of the answers. -/
structure Identified (answers : ℕ → BitVec 32) : Prop where
  magic : answers 0 = 0x74726976
  version : answers 1 = 2
  deviceId : answers 2 = 2
  vendorId : answers 3 = 0x554d4551

/-- What the checks that fire want of the answers. -/
structure Passes (answers : ℕ → BitVec 32) : Prop extends Identified answers where
  queueReady : answers 7 = 0
  queueNumMax : ¬ answers 8 < 8

/-! ## The run -/

/-- The reads of the first check. -/
def identityAccesses : List Access :=
  [.read mmioMagic 0x74726976, .read mmioVersion 2, .read mmioDeviceId 2,
    .read mmioVendorId 0x554d4551]

/-- The accesses from the reset to the check of the features. -/
def featureAccesses (offered₀ offered₁ status : BitVec 32) : List Access :=
  [.write mmioStatus 0, .write mmioStatus 1, .write mmioStatus (1 ||| 2),
    .write mmioDeviceFeaturesSel 0, .read mmioDeviceFeatures offered₀,
    .write mmioDriverFeaturesSel 0, .write mmioDriverFeatures (maskOut offered₀ maskedFeatures),
    .write mmioDeviceFeaturesSel 1, .read mmioDeviceFeatures offered₁,
    .write mmioDriverFeaturesSel 1, .write mmioDriverFeatures (offered₁ &&& 1),
    .write mmioStatus (1 ||| 2 ||| 8), .read mmioStatus status]

/-- The accesses from the choice of the queue to `DRIVER_OK`. -/
def queueAccesses (a : QueueAddrs) (numMax : BitVec 32) : List Access :=
  [.write mmioQueueSel 0, .read mmioQueueReady 0, .read mmioQueueNumMax numMax,
    .write mmioQueueNum 8,
    .write mmioQueueDesc (a.desc.setWidth 32),
    .write (mmioQueueDesc + 4) ((a.desc >>> 32).setWidth 32),
    .write mmioQueueDriver (a.avail.setWidth 32),
    .write (mmioQueueDriver + 4) ((a.avail >>> 32).setWidth 32),
    .write mmioQueueDevice (a.used.setWidth 32),
    .write (mmioQueueDevice + 4) ((a.used >>> 32).setWidth 32),
    .write mmioQueueReady 1, .write mmioStatus (1 ||| 2 ||| 8 ||| 4)]

/-- The accesses of a run that ends. -/
def handshakeAccesses (a : QueueAddrs) (answers : ℕ → BitVec 32) : List Access :=
  identityAccesses ++ featureAccesses (answers 4) (answers 5) (answers 6) ++
    queueAccesses a (answers 8)

/-- The first check, on the answers. -/
theorem ends_deviceMissing {Q : Bool → Mmio → Prop}
    (hsame : Identified m.answers → Q false (m.after 4 identityAccesses))
    (hother : ¬ Identified m.answers → ∀ n l, writesTo mmioStatus l = [] → Q true (m.after n l)) :
    Ends deviceMissing m Q E := by
  simp only [deviceMissing, ends_bind, ends_readReg, ends_ite, ends_pure, Mmio.after_after,
    Mmio.after_answers, List.cons_append, List.nil_append, Nat.reduceAdd, Nat.zero_add]
  split_ifs with h₀ h₁ h₂
  · exact hother (fun h => h₀ h.magic) _ _ rfl
  · exact hother (fun h => h₁ h.version) _ _ rfl
  · exact hother (fun h => h₂ h.deviceId) _ _ rfl
  · by_cases h₃ : m.answers 3 = 0x554d4551
    · have hid : Identified m.answers := ⟨not_not.mp h₀, not_not.mp h₁, not_not.mp h₂, h₃⟩
      simpa only [hid.magic, hid.version, hid.deviceId, h₃, ne_eq, not_true_eq_false, decide_false,
        identityAccesses] using hsame hid
    · simpa only [ne_eq, h₃, not_false_eq_true, decide_true] using
        hother (fun h => h₃ h.vendorId) _ _ rfl

/-- The guard of the second `fatal` is never true: `8 == 0` is not. -/
theorem and_ofBool_eq_zero {status : BitVec 32} : status &&& ofBool ((8 : ℤ) = 0) = 0 := by
  simp [ofBool]

/-- Up to `FEATURES_OK` the driver is not ready. -/
theorem notReady_of_writesTo {l : List Access}
    (h : writesTo mmioStatus l = [0, 1, 1 ||| 2, 1 ||| 2 ||| 8]) : NotReady l := by
  rw [NotReady, h]
  simp only [List.forall_mem_cons, List.not_mem_nil, false_imp_iff, implies_true, and_true]
  exact ⟨rfl, rfl, rfl, rfl⟩

/-- **A run** goes through all its accesses if the answers pass the checks that fire, and stops
before `DRIVER_OK` otherwise. -/
theorem ends_virtioBlkInit : Ends (virtioBlkInit a) m
    (fun _ m' => Passes m.answers ∧ m' = m.clear.after 9 (handshakeAccesses a m.answers))
    fun _ m' => ¬ Passes m.answers ∧ ∃ l, m'.trace = m.trace ++ l ∧ NotReady l := by
  rw [virtioBlkInit, ends_bind]
  refine ends_deviceMissing (fun hid => ?_) fun hid n l hl => ?_
  · simp only [ends_bind, ends_readReg, ends_writeReg, ends_writeAddr, ends_clear, ends_fatalMmio,
      ends_ite, Mmio.after_after, Mmio.clear_after, Mmio.after_answers, Nat.reduceAdd,
      Nat.zero_add, Bool.false_eq_true, if_false, and_ofBool_eq_zero, ne_eq, not_true_eq_false]
    split_ifs with hready hmax
    · exact ⟨fun h => h.queueNumMax hmax, _, rfl, notReady_of_writesTo rfl⟩
    · refine ⟨⟨hid, hready, hmax⟩, ?_⟩
      rw [hready]
      rfl
    · exact ⟨fun h => hready h.queueReady, _, rfl, notReady_of_writesTo rfl⟩
  · simp only [if_true, ends_bind, ends_fatalMmio]
    exact ⟨fun h => hid h.toIdentified, l, rfl, by simp [NotReady, hl]⟩

/-- **A run whose answers pass the checks** returns. -/
theorem returns_virtioBlkInit (h : Passes m.answers) : Returns (virtioBlkInit a) m
    fun _ m' => m' = m.clear.after 9 (handshakeAccesses a m.answers) :=
  (ends_virtioBlkInit.returns fun _ _ hstop => hstop.1 h).mono fun _ _ hend => hend.2

/-! ## What its accesses say -/

/-- The values read from a register. -/
def readsOf (reg : ℕ) (trace : List Access) : List (BitVec 32) :=
  trace.filterMap fun
    | .read r v => if r = reg then some v else none
    | .write _ _ => none

/-- A part of the accesses has a part of the reads. -/
theorem readsOf_sublist {l l' : List Access} (h : l <:+: l') :
    (readsOf reg l).Sublist (readsOf reg l') :=
  h.sublist.filterMap _

/-- The driver keeps the bits that it does not mask out. -/
theorem getLsbD_maskOut {features : BitVec 32} {bits : List ℕ} {bit : ℕ} (hbit : bit < 32) :
    (maskOut features bits).getLsbD bit = (features.getLsbD bit && decide (bit ∉ bits)) := by
  induction bits generalizing features with
  | nil => simp [maskOut]
  | cons b bits ih =>
      have hstep : maskOut features (b :: bits) = maskOut (features &&& ~~~(1#32 <<< b)) bits := rfl
      have hb : (1#32 <<< b).getLsbD bit = decide (bit = b) := by
        rw [BitVec.getLsbD_shiftLeft, BitVec.getLsbD_one, Bool.eq_iff_iff]
        simp only [hbit, decide_true, Bool.true_and, Bool.and_eq_true, Bool.not_eq_true',
          decide_eq_false_iff_not, decide_eq_true_eq]
        omega
      rw [hstep, ih, BitVec.getLsbD_and, BitVec.getLsbD_not, hb]
      by_cases hbb : bit = b <;> simp [hbb, hbit]

/-- What is accepted was offered. -/
theorem maskOut_and_self {features : BitVec 32} {bits : List ℕ} :
    maskOut features bits &&& features = maskOut features bits := by
  ext bit hbit
  rw [← BitVec.getLsbD_eq_getElem, ← BitVec.getLsbD_eq_getElem, BitVec.getLsbD_and,
    getLsbD_maskOut hbit, Bool.and_right_comm, Bool.and_self]

/-- What is masked out is not accepted. -/
theorem getLsbD_maskOut_of_mem {features : BitVec 32} {bits : List ℕ} {bit : ℕ} (hbit : bit < 32)
    (hmem : bit ∈ bits) : (maskOut features bits).getLsbD bit = false := by
  rw [getLsbD_maskOut hbit, decide_eq_false (not_not_intro hmem), Bool.and_false]

/-- **A run that ends honours the handshake if and only if** the device has kept `FEATURES_OK`: all
the rest is checked. -/
theorem handshake_handshakeAccesses {answers : ℕ → BitVec 32} (h : Passes answers) :
    Handshake (handshakeAccesses a answers) ↔ (answers 6).getLsbD 3 = true := by
  have hfeatures : featureAccesses (answers 4) (answers 5) (answers 6) <:+:
      handshakeAccesses a answers := ⟨_, _, rfl⟩
  have hqueue : queueAccesses a (answers 8) <:+: handshakeAccesses a answers :=
    List.IsSuffix.isInfix ⟨_, rfl⟩
  constructor
  · intro hshake
    obtain ⟨status, hread, hbit⟩ := hshake.kept
    have hmem : status ∈ readsOf mmioStatus (handshakeAccesses a answers) :=
      (readsOf_sublist hread).subset (List.mem_singleton_self _)
    have heq : status = answers 6 := List.mem_singleton.mp hmem
    rwa [heq] at hbit
  · intro hbit
    exact {
      identity := ⟨_, rfl⟩
      status := rfl
      features := by
        refine ⟨answers 4, answers 5, maskOut (answers 4) maskedFeatures, answers 5 &&& 1,
          List.IsInfix.trans ⟨[_, _, _], [_, _], rfl⟩ hfeatures, rfl, maskOut_and_self, ?_, ?_, ?_⟩
        · rw [BitVec.and_assoc, BitVec.and_comm 1, ← BitVec.and_assoc, BitVec.and_self]
        · intro bit hmem
          have hlt : bit < 32 := by
            revert bit
            decide
          exact getLsbD_maskOut_of_mem hlt hmem
        · intro bit hne
          simp [hne]
      kept := ⟨answers 6,
        List.IsInfix.trans ⟨[_, _, _, _, _, _, _, _, _, _, _], [], rfl⟩ hfeatures, hbit⟩
      queue := ⟨answers 8,
        List.IsInfix.trans ⟨[_], [_, _, _, _, _, _, _, _, _], rfl⟩ hqueue,
        BitVec.not_lt.mp h.queueNumMax⟩ }

/-- A run whose answers fail a check gives up. -/
theorem honoursHandshake_of_not_passes {answers : ℕ → BitVec 32} {q : Virtq}
    (h : ¬ Passes answers) : HonoursHandshake a ⟨answers, [], q⟩ :=
  ends_virtioBlkInit.mono (fun _ _ hend => absurd hend.1 h) fun _ _ ⟨_, l, hl, hready⟩ => by
    rwa [hl, List.nil_append]

/-- A run whose answers pass the checks ends, and what is left is the kept status. -/
theorem honoursHandshake_of_passes {answers : ℕ → BitVec 32} {q : Virtq} (h : Passes answers) :
    HonoursHandshake a ⟨answers, [], q⟩ ↔ (answers 6).getLsbD 3 = true := by
  rw [← handshake_handshakeAccesses (a := a) h]
  have hrun := ends_virtioBlkInit (a := a) (m := ⟨answers, [], q⟩)
  constructor
  · intro hhonours
    have hboth := (hrun.and hhonours).returns fun _ _ hstop => hstop.1.1 h
    obtain ⟨_, t, ⟨⟨_, hend⟩, hshake⟩, -⟩ := hboth.exists_outcome
    rwa [hend] at hshake
  · intro hshake
    refine hrun.mono (fun _ t hend => ?_) fun _ _ hstop => absurd h hstop.1
    rwa [hend.2]

/-! ## The handshake -/

/-- **`virtio_blk_init` honours the handshake if and only if** the answers fail a check that fires,
or the status that is read back still has `FEATURES_OK`. -/
theorem handshake_iff (a : QueueAddrs) (answers : ℕ → BitVec 32) (q : Virtq) :
    HonoursHandshake a ⟨answers, [], q⟩ ↔
      (Passes answers → (answers 6).getLsbD 3 = true) := by
  by_cases h : Passes answers
  · rw [honoursHandshake_of_passes h]
    exact ⟨fun hbit _ => hbit, fun hbit => hbit h⟩
  · exact iff_of_true (honoursHandshake_of_not_passes h) fun hp => absurd hp h

/-- The answers of a disk that offers every feature, and has `status` after `FEATURES_OK`. -/
def diskAnswers (status : BitVec 32) : ℕ → BitVec 32
  | 0 => 0x74726976
  | 1 => 2
  | 2 => 2
  | 3 => 0x554d4551
  | 4 => 0xffffffff
  | 5 => 0xffffffff
  | 6 => status
  | 8 => 1024
  | _ => 0

theorem passes_diskAnswers (status : BitVec 32) : Passes (diskAnswers status) where
  magic := rfl
  version := rfl
  deviceId := rfl
  vendorId := rfl
  queueReady := rfl
  queueNumMax := show ¬ (1024 : BitVec 32) < 8 by decide

/-- **A disk that takes `FEATURES_OK` back** goes unnoticed: the driver goes on to `DRIVER_OK`. -/
theorem not_honoursHandshake_reluctant :
    ¬ HonoursHandshake ⟨0, 0, 0⟩ ⟨diskAnswers (1 ||| 2), [], Virtq.bss⟩ := by
  rw [honoursHandshake_of_passes (passes_diskAnswers _)]
  decide

end LittleLoader
