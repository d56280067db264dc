import LittleLoader.Block.RoundTrip
import LittleLoader.Boot.Safety
import LittleLoader.Boot.Selection

/-!
# Boot/Runs — boots in a row, and the variables from one to the next

A run is a sequence of boots, each of which finds the disk as it has been left, and of writes by
others (`boots`).  What a boot leaves for the next one is `DiskAfter`.  On a block with distinct
names this is a step of the map of its variables (`Stores.boot`):

    Stores disk f   →   Stores disk' (nextVars f)
-/

namespace LittleLoader

/-! ## Runs -/

/-- A boot of a run: the machine, and the disk it starts on. -/
structure Boot where
  machine : Machine
  disk : Disk

/-- A step of a run: a boot, or a write of somebody else. -/
inductive RunStep
  | boot (m : Machine)
  | rewrite (disk : Disk)

namespace Boot

/-- The machine at power-on. -/
def start (b : Boot) : World := b.machine.powerOn b.disk

/-- The state in which the boot ends, whether `process_uboot_env` returns or not. -/
def after (b : Boot) : World := Returns.lastState (processUbootEnv b.machine.slack) b.start

/-- `process_uboot_env` returns. -/
def Ended (b : Boot) : Prop :=
  ∃ config, (processUbootEnv b.machine.slack).run b.start = .ok config b.after

end Boot

/-- **The boots of a run**, each on the disk that the steps before have left. -/
def boots : List RunStep → Disk → List Boot
  | [], _ => []
  | .boot m :: steps, disk => ⟨m, disk⟩ :: boots steps (Boot.after ⟨m, disk⟩).disk
  | .rewrite disk :: steps, _ => boots steps disk

/-- The return codes of the calls of `uboot_env_write`. -/
def writeCodes (trace : List Event) : List ℤ :=
  trace.filterMap fun
    | .ubootEnvWrite rc => some rc
    | _ => none

/-- Every `uboot_env_write` of the boot has succeeded, and every request of the device. -/
def WritesSucceed (trace : List Event) : Prop :=
  (∀ rc ∈ writeCodes trace, 0 ≤ rc) ∧ ∀ rc ∈ returnCodes trace, 0 ≤ rc

variable {b : Boot} {m : Machine} {w w' : World} {disk : Disk} {xs ys es : List Entry} {d : Verdict}
  {config : BootConfig} {f : Vars} {n s : CStr}

/-- What a run of the function promises holds of the end of the boot. -/
theorem Boot.of_returns {P : BootConfig → World → Prop}
    (h : Returns (processUbootEnv b.machine.slack) b.start P) :
    b.Ended ∧ ∃ config, P config b.after := by
  obtain ⟨config, hrun, hP⟩ := h.exists_lastState
  exact ⟨⟨config, hrun⟩, config, hP⟩

/-! ## The disk after a boot -/

@[simp] theorem writeCodes_append (evs evs' : List Event) :
    writeCodes (evs ++ evs') = writeCodes evs ++ writeCodes evs' :=
  List.filterMap_append

@[simp] theorem writeCodes_checkSteps : writeCodes (checkSteps f) = [] := by
  unfold checkSteps
  split
  · rfl
  · split <;> rfl

@[simp] theorem writeCodes_kernelSteps : writeCodes (kernelSteps f s) = [] := by
  unfold kernelSteps
  split <;> rfl

/-- Up to the verdict nothing is written. -/
theorem writeCodes_before (evs : List Event) :
    writeCodes ((m.afterRead disk).trace ++ (.ubootEnvRead 0 :: checkSteps f ++ evs))
      = writeCodes evs := by
  rw [writeCodes_append, writeCodes_append]
  change [] ++ (writeCodes (checkSteps f) ++ writeCodes evs) = writeCodes evs
  rw [writeCodes_checkSteps, List.nil_append, List.nil_append]

/-- **The disk after a boot** with the verdict `d` on a block of the entries `es`. -/
inductive DiskAfter (m : Machine) (disk : Disk) (es : List Entry) (d : Verdict) (w' : World) : Prop
  | kept (hus : d.updates = []) (hwrite : writeCodes w'.trace = [])
      (hcodes : returnCodes w'.trace = [(ubootEnvSize : ℤ)]) (hdisk : w'.disk = disk)
  | noRoom (hus : d.updates ≠ []) (hroom : ¬ Fits ubootEnvSize (assigns d.updates es.reverse))
      (hwrite : writeCodes w'.trace = [-1])
      (hcodes : returnCodes w'.trace = [(ubootEnvSize : ℤ)]) (hdisk : w'.disk = disk)
  | written (hus : d.updates ≠ []) (hroom : Fits ubootEnvSize (assigns d.updates es.reverse))
      (ys : List Entry)
      (hys : StableSorted (fun e : Entry => e.1.key) (assigns d.updates es.reverse) ys)
      (hwrite : writeCodes w'.trace = [0])
      (hcodes : returnCodes w'.trace = [(ubootEnvSize : ℤ), m.write.code envLen])
      (hdisk : 0 ≤ m.write.code envLen → IsBlock (envBlock w'.disk) ys)

/-- The names of the entries after the assignments are names that can be stored. -/
theorem valid_assigns (hes : IsBlock (envBlock disk) es)
    (hd : verdict (varsOf es.reverse) = some d) :
    ∀ e ∈ assigns d.updates es.reverse, ValidName e.1 := by
  have hfailback : ∀ n ∈ failbackNames, ValidName n := by decide
  intro e he
  rcases mem_assigns he with he | he
  · exact hfailback _ (mem_failbackNames_of_verdict hd e he)
  · exact hes.payload.valid e (List.mem_reverse.mp he)

theorem BootEnd.diskAfter (hes : IsBlock (envBlock disk) es)
    (hd : verdict (varsOf es.reverse) = some d)
    (h : BootEnd es.reverse (m.afterRead disk) w' config) : DiskAfter m disk es d w' := by
  cases h with
  | cleanup hnone => simp [hd] at hnone
  | booted d' hd' hslot hout =>
    obtain rfl := Option.some.inj (hd.symm.trans hd')
    cases hout with
    | kept hus hlogs =>
      refine .kept hus ?_ (hlogs.returnCodes_eq (internal_before internal_kernelSteps)) hlogs.disk
      rw [hlogs.trace, writeCodes_before, writeCodes_kernelSteps]
    | noRoom hus hroom hlogs =>
      refine .noRoom hus hroom ?_ (hlogs.returnCodes_eq
        (internal_before (.cons ⟨rfl, rfl⟩ internal_kernelSteps))) hlogs.disk
      rw [hlogs.trace, writeCodes_before]
      exact congrArg (-1 :: ·) writeCodes_kernelSteps
    | saved hus hroom ys hys c hc hhanded =>
      obtain rfl : m.write = c := (List.cons.inj hc.choose_spec).1
      have hperm := hys.perm
      have hlen := length_writtenBlock ((fits_iff_of_perm hperm).mpr hroom)
      refine .written hus hroom ys hys ?_
        (hhanded.returnCodes_eq (internal_before ⟨rfl, rfl⟩) internal_kernelSteps) fun hcode => ?_
      · rw [hhanded.trace, List.append_assoc _ [_], writeCodes_before]
        exact congrArg (0 :: ·) writeCodes_kernelSteps
      · rw [hhanded.stored _ rfl hcode, envBlock_write _ hlen]
        exact isBlock_writtenBlock fun e he => valid_assigns hes hd e (hperm.subset he)

/-- **The writes succeed** if there is room, and the device carries the request out. -/
theorem writesSucceed (m : Machine) (hes : IsBlock (envBlock disk) es)
    (hactive : ∀ slot, varsOf es.reverse nervesFwActive = some slot → slot.bytes ≠ [])
    (hd : verdict (varsOf es.reverse) = some d) (hstatus : m.write.status = 0#8)
    (hroom : d.updates ≠ [] → Fits ubootEnvSize (assigns d.updates es.reverse)) :
    WritesSucceed (Boot.after ⟨m, disk⟩).trace := by
  obtain ⟨-, config, hend⟩ := Boot.of_returns (b := ⟨m, disk⟩) (returns_processUbootEnv m hes hactive)
  have hcode : 0 ≤ m.write.code envLen := by
    by_contra hneg
    exact m.write.code_neg_iff.mp (by omega) hstatus
  unfold WritesSucceed
  cases hend.diskAfter hes hd with
  | kept hus hwrite hcodes hdisk => simp [hwrite, hcodes]
  | noRoom hus hfull hwrite hcodes hdisk => exact absurd (hroom hus) hfull
  | written hus hroom ys hys hwrite hcodes hdisk => simp [hwrite, hcodes, hcode]

/-! ## The variables on the disk -/

/-- **The disk stores the variables `f`**: its block is accepted, and has one entry for each. -/
def Stores (disk : Disk) (f : Vars) : Prop :=
  ∃ es, IsBlock (envBlock disk) es ∧ (es.map Prod.fst).Nodup ∧ varsOf es = f

/-- With distinct names the order of the entries does not matter. -/
theorem varsOf_reverse (h : (es.map Prod.fst).Nodup) : varsOf es.reverse = varsOf es :=
  funext fun n => lookup_reverse_of_multiplicity_le_one (multiplicity_le_one_of_nodup h n)

/-- **A boot is a step of the variables**: it selects the slot of the verdict, and if its writes
succeed the disk stores the variables after the verdict. -/
theorem Stores.boot (m : Machine) (h : Stores disk f)
    (hactive : ∀ slot, f nervesFwActive = some slot → slot.bytes ≠ []) (hd : verdict f = some d)
    (hwrites : WritesSucceed (Boot.after ⟨m, disk⟩).trace) :
    Boot.Ended ⟨m, disk⟩ ∧ Selects d.slot (Boot.after ⟨m, disk⟩).trace ∧
      Stores (Boot.after ⟨m, disk⟩).disk (setVars d.updates f) ∧
      (d.updates = [] → (Boot.after ⟨m, disk⟩).disk = disk) := by
  obtain ⟨es, hes, hnodup, rfl⟩ := h
  rw [← varsOf_reverse hnodup] at hactive hd ⊢
  obtain ⟨hended, config, hend⟩ :=
    Boot.of_returns (b := ⟨m, disk⟩) (returns_processUbootEnv m hes hactive)
  refine ⟨hended, (hend.of_verdict hd).2.1, ?_⟩
  cases hend.diskAfter hes hd with
  | kept hus hwrite hcodes hdisk =>
    refine ⟨⟨es, by rwa [hdisk], hnodup, ?_⟩, fun _ => hdisk⟩
    funext n
    rw [hus, ← varsOf_reverse hnodup]
    simp [setVars]
  | noRoom hus hroom hwrite hcodes hdisk =>
    exact absurd (hwrites.1 (-1) (by simp [hwrite])) (by decide)
  | written hus hroom ys hys hwrite hcodes hdisk =>
    have hcode : 0 ≤ m.write.code envLen := hwrites.2 _ (by simp [hcodes])
    have hset : ((assigns d.updates es.reverse).map Prod.fst).Nodup :=
      nodup_assigns (((List.reverse_perm es).map Prod.fst).nodup_iff.mpr hnodup)
    refine ⟨⟨ys, hdisk hcode, (hys.perm.map _).nodup_iff.mpr hset, ?_⟩, fun h => absurd h hus⟩
    rw [← varsOf_assigns]
    exact funext fun n => lookup_eq_of_perm hys.perm hset n

end LittleLoader
