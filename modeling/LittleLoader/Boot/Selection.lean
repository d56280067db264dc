import LittleLoader.Boot.Process

/-!
# Boot/Selection — the slot that is booted, and its kernel

A machine whose device answers boots to the end (`returns_processUbootEnv`), and asks for the kernel
of the slot of the verdict and of no other (`BootEnd.selects`).  If the variables of the failback
check are missing there is no verdict, and the default kernel is booted whatever the active slot
says (`bootsKernel_iff`).
-/

namespace LittleLoader

/-- A machine whose device reads the block, and completes a request after that; `slack` is what its
memory has held before. -/
structure Machine where
  stackTop : ℕ
  slack : ℕ → Byte
  read : Completion
  write : Completion
  rest : List Completion
  read_status : read.status = 0#8
  write_status : write.status ≠ 0xff#8

/-- The machine at power-on, with a given disk. -/
def Machine.powerOn (m : Machine) (disk : Disk) : World :=
  .powerOn m.stackTop disk (m.read :: m.write :: m.rest)

/-- The machine once the block is in the buffer. -/
def Machine.afterRead (m : Machine) (disk : Disk) : World :=
  LittleLoader.afterRead m.stackTop disk (m.write :: m.rest)

variable {m : Machine} {w w' : World} {disk : Disk} {xs es : List Entry} {d : Verdict}
  {pre post : List Event} {s o t v : CStr} {config : BootConfig} {n : ℕ}

/-- **Such a machine boots** from a block that is accepted. -/
theorem returns_processUbootEnv (m : Machine) (hes : IsBlock (envBlock disk) es)
    (hactive : ∀ slot, varsOf es.reverse nervesFwActive = some slot → slot.bytes ≠ []) :
    Returns (processUbootEnv m.slack) (m.powerOn disk) fun config w' =>
      BootEnd es.reverse (m.afterRead disk) w' config := by
  have hends : Ends (processUbootEnv m.slack) (m.powerOn disk) _ _ :=
    ends_processUbootEnv_of_isBlock hes hactive
  refine (hends.returns ?_).mono ?_
  · rintro e w' (hunread | ⟨c, cs, d, hc, -, -, hstuck⟩)
    · exact hunread.status _ rfl m.read_status
    · obtain ⟨rfl, rfl⟩ := List.cons.inj hc
      exact m.write_status (hstuck.hangs _ rfl)
  · rintro config w' ⟨c, cs, hc, hend⟩
    obtain ⟨rfl, rfl⟩ := List.cons.inj hc
    exact hend

/-! ## The slot -/

namespace Outcome

theorem mem_post {e : Event} (h : Outcome xs d pre post w w') (he : e ∈ post) : e ∈ w'.trace := by
  cases h with
  | kept hus hlogs => simp [hlogs.trace, he]
  | noRoom hus hroom hlogs => simp [hlogs.trace, he]
  | saved hus hroom ys hys c hc hhanded => simp [hhanded.trace, he]

theorem kernelLookups_eq (h : Outcome xs d pre post w w') :
    kernelLookups w'.trace = kernelLookups w.trace ++ kernelLookups pre ++ kernelLookups post := by
  have hnil (e : Event) (he : kernelLookups [e] = []) (evs : List Event) :
      kernelLookups (e :: evs) = kernelLookups evs := by
    rw [kernelLookups_cons, he, List.nil_append]
  cases h with
  | kept hus hlogs => simp [hlogs.trace]
  | noRoom hus hroom hlogs => simp [hlogs.trace, hnil (.ubootEnvWrite (-1)) rfl]
  | saved hus hroom ys hys c hc hhanded =>
    simp [hhanded.trace, hnil (writeRequest _) rfl, hnil (.completed _) rfl,
      hnil (.ubootEnvWrite 0) rfl]

end Outcome

theorem kernelLookups_before :
    kernelLookups ((m.afterRead disk).trace ++ .ubootEnvRead 0 :: checkSteps (varsOf xs)) = [] := by
  rw [kernelLookups_append, kernelLookups_cons, kernelLookups_checkSteps]
  rfl

namespace BootEnd

/-- Without a verdict there is no lookup, and the default kernel is booted. -/
theorem of_verdict_none (h : BootEnd xs (m.afterRead disk) w' config)
    (hnone : verdict (varsOf xs) = none) : config = {} ∧ kernelLookups w'.trace = [] := by
  cases h with
  | cleanup _ hlogs => exact ⟨rfl, by rw [hlogs.trace, kernelLookups_before]⟩
  | booted d hd => simp [hd] at hnone

/-- **With a verdict** its slot is selected, and the kernel that the block names for it booted. -/
theorem of_verdict (h : BootEnd xs (m.afterRead disk) w' config)
    (hd : verdict (varsOf xs) = some d) :
    config = kernelConfig (varsOf xs) d.slot ∧ Selects d.slot w'.trace ∧
      asks (varsOf xs) (kernelLba d.slot) ∈ w'.trace := by
  cases h with
  | cleanup hnone => simp [hd] at hnone
  | booted d' hd' hslot hout =>
    obtain rfl := Option.some.inj (hd.symm.trans hd')
    have hlba := setVars_of_verdict hd (kernelLba_notMem hslot)
    have hargs := setVars_of_verdict hd (kernelArgs_notMem hslot)
    refine ⟨by rw [kernelConfig, kernelConfig, hlba, hargs], ?_, ?_⟩
    · have hsel := selects_kernelSteps (f := setVars d.updates (varsOf xs)) hslot
      unfold Selects at hsel ⊢
      rwa [hout.kernelLookups_eq, ← kernelLookups_append, kernelLookups_before, List.nil_append]
    · refine hout.mem_post ?_
      rw [kernelSteps, asks, hlba, ← asks]
      exact List.mem_cons_self

end BootEnd

/-! ## The kernel of the active slot -/

/-- **The boot takes the kernel of slot `t`** from the block: its `kernel_lba` is found, and is the
number `n`; the arguments are those given, `NULL` for none. -/
def BootsKernel (m : Machine) (disk : Disk) (t : CStr) (n : ℕ) (args : Option CStr) : Prop :=
  Returns (processUbootEnv m.slack) (m.powerOn disk) fun config w' =>
    .ubootEnvGetenv (kernelLba t).bytes 0 ∈ w'.trace ∧ config.kernelLba.toNat = n ∧
      config.kernelArgs = args.map CStr.obj

/-- Without a verdict, it takes the default kernel. -/
theorem returns_default (m : Machine) (hes : IsBlock (envBlock disk) es)
    (hactive : varsOf es.reverse nervesFwActive = some s) (hs : s.bytes ≠ [])
    (hnone : verdict (varsOf es.reverse) = none) :
    Returns (processUbootEnv m.slack) (m.powerOn disk) fun config w' =>
      config = {} ∧ kernelLookups w'.trace = [] := by
  exact (returns_processUbootEnv m hes (ne_nil_of_active hactive hs)).mono fun config w' hend =>
    hend.of_verdict_none hnone

theorem not_bootsKernel {args : Option CStr} (hes : IsBlock (envBlock disk) es)
    (hactive : varsOf es.reverse nervesFwActive = some s) (hs : s.bytes ≠ []) (ht : t.bytes ≠ [])
    (hnone : verdict (varsOf es.reverse) = none) : ¬ BootsKernel m disk t n args := by
  intro h
  obtain ⟨config, w', -, ⟨-, hnil⟩, hmem, -⟩ :=
    Returns.iff_run.mp ((returns_default m hes hactive hs hnone).and h)
  have hlookup : (kernelLba t).bytes ∈ kernelLookups w'.trace := by
    obtain ⟨c, -, hc⟩ := bytes_withHead ht
    refine List.mem_filterMap.mpr ⟨_, hmem, ?_⟩
    exact if_pos (.inl (by rw [kernelLba, hc, List.tail_cons]; decide))
  rw [hnil] at hlookup
  cases hlookup

/-- **The active slot decides what is booted exactly if** the variables of the failback check are
there: `upgrade_available`, and `bootcount` if that is `1`. -/
theorem bootsKernel_iff (m : Machine) (hes : IsBlock (envBlock disk) es) (hslots : Slots s o)
    (hactive : es.reverse.lookup nervesFwActive = some s)
    (ht : t = if es.reverse.lookup upgradeAvailable = some (.lit "1") ∧
      es.reverse.lookup bootcount = some (.lit "1") then o else s)
    (hlba : es.reverse.lookup (kernelLba t) = some v) (hdecimal : IsDecimal v n)
    (hn : n < 2 ^ 64) :
    BootsKernel m disk t n (es.reverse.lookup (kernelArgs t)) ↔
      es.reverse.lookup upgradeAvailable ≠ none ∧
        (es.reverse.lookup upgradeAvailable = some (.lit "1") →
          es.reverse.lookup bootcount ≠ none) := by
  change _ ↔ CheckComplete (varsOf es.reverse)
  change varsOf es.reverse nervesFwActive = some s at hactive
  rw [← verdict_ne_none_iff hactive]
  have htne : t.bytes ≠ [] := by
    rw [ht]
    split
    · exact hslots.otherSlot_eq ▸ otherSlot_ne_nil
    · exact hslots.ne_nil
  constructor
  · intro hboots hnone
    exact not_bootsKernel hes hactive hslots.ne_nil htne hnone hboots
  · intro hsome
    obtain ⟨d, hd⟩ := Option.ne_none_iff_exists'.mp hsome
    have hslot : d.slot = t := by
      rw [slot_of_verdict hactive hd, hslots.otherSlot_eq, ht]
      rfl
    refine (returns_processUbootEnv m hes (ne_nil_of_active hactive hslots.ne_nil)).mono
      fun config w' hend => ?_
    obtain ⟨rfl, -, hmem⟩ := hend.of_verdict hd
    change varsOf es.reverse (kernelLba t) = some v at hlba
    rw [hslot, asks, hlba] at hmem
    rw [hslot, kernelConfig_of_some hlba, hdecimal.number_eq]
    exact ⟨hmem, by rw [BitVec.toNat_ofNat, Nat.mod_eq_of_lt hn], rfl⟩

/-- A machine whose device does what it is asked for. -/
def sampleMachine : Machine := ⟨0, fun _ => 0, ⟨0, fun _ => 0⟩, ⟨0, fun _ => 0⟩, [], rfl, by decide⟩

/-- Slot `a` with its kernel at block 1000, and no failback check. -/
def slotEntries : List Entry :=
  [(.lit "a.kernel_args", .lit "quiet"), (.lit "a.kernel_lba", .lit "1000"),
    (nervesFwActive, slotA)]

/-- With `upgrade_available` set to `0` besides, that kernel is booted. -/
theorem bootsKernel_iff_validated : BootsKernel sampleMachine
    (diskOf ((upgradeAvailable, .lit "0") :: slotEntries)) (.lit "a") 1000 (some (.lit "quiet")) := by
  have hes : IsBlock _ ((upgradeAvailable, CStr.lit "0") :: slotEntries) :=
    isBlock_diskOf (by decide) (by decide)
  have hlba : ((upgradeAvailable, CStr.lit "0") :: slotEntries).reverse.lookup
      (kernelLba (.lit "a")) = some (.lit "1000") := by decide
  have hdecimal : IsDecimal (.lit "1000") 1000 := by decide
  exact Iff.mpr (bootsKernel_iff (o := .lit "b") sampleMachine hes (.inl ⟨rfl, rfl⟩) (by decide)
    (by decide) hlba hdecimal (by decide)) (by decide)

/-- **The default kernel** is booted without `upgrade_available`, although the block names a kernel
for its active slot. -/
theorem not_bootsKernel_slotEntries :
    IsBlock (envBlock (diskOf slotEntries)) slotEntries ∧
      slotEntries.reverse.lookup nervesFwActive = some (.lit "a") ∧
      slotEntries.reverse.lookup upgradeAvailable = none ∧
      slotEntries.reverse.lookup (kernelLba (.lit "a")) = some (.lit "1000") ∧
      IsDecimal (.lit "1000") 1000 ∧
      (Returns (processUbootEnv sampleMachine.slack)
        (sampleMachine.powerOn (diskOf slotEntries)) fun config _ =>
        config = ⟨defaultKernelLba, none⟩) ∧
      ¬ BootsKernel sampleMachine (diskOf slotEntries) (.lit "a") 1000 (some (.lit "quiet")) := by
  have hes : IsBlock (envBlock (diskOf slotEntries)) slotEntries :=
    isBlock_diskOf (by decide) (by decide)
  have hactive : varsOf slotEntries.reverse nervesFwActive = some (.lit "a") := by decide
  have hnone : verdict (varsOf slotEntries.reverse) = none := by decide
  refine ⟨hes, hactive, by decide, by decide, by decide, ?_,
    not_bootsKernel hes hactive (by decide) (by decide) hnone⟩
  exact (returns_default _ hes hactive (by decide) hnone).mono fun _ _ h => h.1

end LittleLoader
