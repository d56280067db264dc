import LittleLoader.Boot.Process

/-!
# Boot/Safety — no boot damages the block on the disk

Whatever the block holds and whatever the device does, a boot either leaves the disk alone, or hands
the device one block in place of the old one (`processUbootEnv_blockSafe`).  That block has the
entries of the old one, with other values for the failback variables at most.
-/

namespace LittleLoader

variable {w w' : World} {disk : Disk} {data : List Byte} {xs ys es : List Entry} {d : Verdict}
  {evs : List Event} {rc : Option ℤ} {stackTop : ℕ} {completions cs : List Completion}
  {f : Vars} {slot : CStr}

/-! ## What the device is asked for -/

/-- The requests that are not reads. -/
def writeRequests (trace : List Event) : List Event :=
  trace.filter fun
    | .request type _ _ _ => type ≠ virtioBlkTIn
    | _ => false

/-- The return codes of the requests, in the order of their completion. -/
def returnCodes (trace : List Event) : List ℤ :=
  trace.filterMap fun
    | .completed rc => some rc
    | _ => none

@[simp] theorem writeRequests_append (evs evs' : List Event) :
    writeRequests (evs ++ evs') = writeRequests evs ++ writeRequests evs' :=
  List.filter_append ..

@[simp] theorem returnCodes_append (evs evs' : List Event) :
    returnCodes (evs ++ evs') = returnCodes evs ++ returnCodes evs' :=
  List.filterMap_append

theorem writeRequests_cons (e : Event) (evs : List Event) :
    writeRequests (e :: evs) = writeRequests [e] ++ writeRequests evs :=
  writeRequests_append [e] evs

theorem returnCodes_cons (e : Event) (evs : List Event) :
    returnCodes (e :: evs) = returnCodes [e] ++ returnCodes evs :=
  returnCodes_append [e] evs

@[simp] theorem writeRequests_writeRequest :
    writeRequests [writeRequest data] = [writeRequest data] := rfl

@[simp] theorem returnCodes_writeRequest : returnCodes [writeRequest data] = [] := rfl

theorem writeRequests_completed (l : List ℤ) : writeRequests (l.map .completed) = [] := by
  simp [writeRequests]

theorem returnCodes_completed (l : List ℤ) : returnCodes (l.map .completed) = l := by
  simp [returnCodes]

/-- Steps without the device. -/
structure Internal (evs : List Event) : Prop where
  writes : writeRequests evs = []
  codes : returnCodes evs = []

theorem Internal.append {evs' : List Event} (h : Internal evs) (h' : Internal evs') :
    Internal (evs ++ evs') :=
  ⟨by rw [writeRequests_append, h.writes, h'.writes, List.append_nil],
    by rw [returnCodes_append, h.codes, h'.codes, List.append_nil]⟩

theorem Internal.cons {e : Event} (he : Internal [e]) (h : Internal evs) : Internal (e :: evs) :=
  he.append h

theorem internal_checkSteps : Internal (checkSteps f) := by
  unfold checkSteps
  split
  · exact ⟨rfl, rfl⟩
  · split <;> exact ⟨rfl, rfl⟩

theorem internal_before (h : Internal evs) :
    Internal (.ubootEnvRead 0 :: checkSteps f ++ evs) :=
  .append (.cons ⟨rfl, rfl⟩ internal_checkSteps) h

theorem internal_kernelSteps : Internal (kernelSteps f slot) := by
  unfold kernelSteps
  split <;> exact ⟨rfl, rfl⟩

/-- The requests of a boot that hands a block to the device: the read, and the write if it ends. -/
theorem Handed.returnCodes_eq {pre post : List Event}
    (h : Handed pre data rc post (afterRead stackTop disk cs) w') (hpre : Internal pre)
    (hpost : Internal post) : returnCodes w'.trace = (ubootEnvSize : ℤ) :: rc.toList := by
  rw [h.trace, returnCodes_append, returnCodes_append, hpre.codes, returnCodes_cons,
    returnCodes_append, returnCodes_completed, hpost.codes, returnCodes_writeRequest,
    List.append_nil]
  rfl

/-- …and of any other boot: the read alone. -/
theorem Logs.returnCodes_eq (h : Logs evs (afterRead stackTop disk cs) w') (hevs : Internal evs) :
    returnCodes w'.trace = [(ubootEnvSize : ℤ)] := by
  rw [h.trace, returnCodes_append, hevs.codes]
  rfl

/-! ## Safety -/

/-- The entries of the variables that the failback check does not set. -/
def otherEntries (es : List Entry) : List Entry := es.filter fun e => e.1 ∉ failbackNames

/-- **The block is replaced**: the one request that is not a read stores `data`. -/
structure Replaced (disk : Disk) (data : List Byte) (w' : World) : Prop where
  request : writeRequests w'.trace = [writeRequest data]
  read : .ubootEnvRead 0 ∈ w'.trace
  active : .ubootEnvGetenv nervesFwActive.bytes 0 ∈ w'.trace
  count : .ubootEnvGetenv bootcount.bytes 0 ∈ w'.trace
  write : .ubootEnvWrite 0 ∈ w'.trace
  /-- The new block has the names of the old one, and the entries of all other variables. -/
  entries : ∃ es fs, IsBlock (envBlock disk) es ∧ IsBlock data fs ∧
    varsOf es.reverse upgradeAvailable = some (.lit "1") ∧
    (fs.map Prod.fst).Perm (es.map Prod.fst) ∧ (otherEntries fs).Perm (otherEntries es)
  length : data.length = ubootEnvSize
  outside : ∀ i, i < envOffset ∨ envOffset + ubootEnvSize ≤ i → w'.disk i = disk i
  /-- If the device reports a success, the second one of the boot, the block is there. -/
  stored : ∀ rc, (returnCodes w'.trace)[1]? = some rc → 0 ≤ rc → envBlock w'.disk = data

/-- **What a boot may do to the disk**: nothing, or replace the block. -/
inductive BlockSafe (disk : Disk) (w' : World) : Prop
  | untouched (hnone : writeRequests w'.trace = []) (hdisk : w'.disk = disk)
  | replaced (data : List Byte) (h : Replaced disk data w')

/-- A run that has only logged steps of its own. -/
theorem BlockSafe.of_logs (h : Logs evs (afterRead stackTop disk cs) w') (hevs : Internal evs) :
    BlockSafe disk w' := by
  refine .untouched ?_ h.disk
  rw [h.trace, writeRequests_append, hevs.writes]
  rfl

/-- The entries that an upgrade hands to the device. -/
theorem entries_of_upgrade
    (hd : verdict (varsOf es.reverse) = some d) (hus : d.updates ≠ [])
    (hys : StableSorted (fun e : Entry => e.1.key) (assigns d.updates es.reverse) ys) :
    (ys.map Prod.fst).Perm (es.map Prod.fst) ∧ (otherEntries ys).Perm (otherEntries es) := by
  obtain ⟨slot, count, hactive, havailable, hcount, rfl⟩ := exists_of_updates_ne_nil hd hus
  have hpresent (n v : CStr) (h : varsOf es.reverse n = some v) :
      n ∈ es.reverse.map Prod.fst := lookup_isSome_iff.mp (by rw [← varsOf, h]; rfl)
  have hnames : ∀ n ∈ failbackNames, n ∈ es.reverse.map Prod.fst := by
    simp only [failbackNames, List.forall_mem_cons]
    exact ⟨hpresent _ _ hactive, hpresent _ _ havailable, hpresent _ _ hcount, by simp⟩
  have hset := mem_failbackNames_of_verdict hd
  have hkeys : ∀ u ∈ (upgradeVerdict slot count).updates, u.1 ∈ es.reverse.map Prod.fst :=
    fun u hu => hnames _ (hset u hu)
  constructor
  · have hperm := hys.perm.map Prod.fst
    rw [map_fst_assigns_of_mem hkeys] at hperm
    exact hperm.trans ((List.reverse_perm es).map _)
  · have hperm := hys.perm.filter fun e => e.1 ∉ failbackNames
    rw [filter_assigns (P := (· ∉ failbackNames)) hkeys fun u hu h => h (hset u hu)] at hperm
    exact hperm.trans ((List.reverse_perm es).filter _)

/-- **A block that is handed to the device** replaces the old one. -/
theorem Handed.replaced {post : List Event} (hes : IsBlock (envBlock disk) es)
    (hd : verdict (varsOf es.reverse) = some d) (hus : d.updates ≠ [])
    (hys : StableSorted (fun e : Entry => e.1.key) (assigns d.updates es.reverse) ys)
    (hroom : Fits ubootEnvSize (assigns d.updates es.reverse))
    (h : Handed (.ubootEnvRead 0 :: checkSteps (varsOf es.reverse) ++ [.ubootEnvWrite 0])
      (writtenBlock ubootEnvSize ys) rc post (afterRead stackTop disk cs) w')
    (hpost : Internal post) : Replaced disk (writtenBlock ubootEnvSize ys) w' := by
  obtain ⟨hperm, hother⟩ := entries_of_upgrade hd hus hys
  obtain ⟨slot, count, hactive, havailable, hcount, -⟩ := exists_of_updates_ne_nil hd hus
  have hvalid : ∀ e ∈ ys, ValidName e.1 := by
    intro e he
    obtain ⟨e', he', heq⟩ := List.mem_map.mp (hperm.subset (List.mem_map_of_mem he))
    exact heq ▸ hes.payload.valid e' he'
  have hlen : (writtenBlock ubootEnvSize ys).length = ubootEnvSize :=
    length_writtenBlock ((fits_iff_of_perm hys.perm).mpr hroom)
  have hpre : Internal (.ubootEnvRead 0 :: checkSteps (varsOf es.reverse) ++ [.ubootEnvWrite 0]) :=
    internal_before ⟨rfl, rfl⟩
  have hsteps : checkSteps (varsOf es.reverse) = [.ubootEnvGetenv nervesFwActive.bytes 0,
      .ubootEnvGetenv upgradeAvailable.bytes 0, .ubootEnvGetenv bootcount.bytes 0] := by
    simp [checkSteps_of_upgradeAvailable hactive havailable, bootcountStep, asks, hactive,
      havailable, hcount, answer]
  have hmem (e : Event) (he : e ∈ .ubootEnvRead 0 :: checkSteps (varsOf es.reverse) ++
      [.ubootEnvWrite 0]) : e ∈ w'.trace := by
    rw [h.trace]
    exact List.mem_append_right _ (List.mem_append_left _ he)
  refine ⟨?_, hmem _ (by simp), hmem _ (by simp [hsteps]), hmem _ (by simp [hsteps]),
    hmem _ (by simp), ⟨es, ys, hes, isBlock_writtenBlock hvalid, havailable, hperm, hother⟩, hlen,
    h.outside, fun r hr hr₀ => ?_⟩
  · rw [h.trace, writeRequests_append, writeRequests_append, hpre.writes, writeRequests_cons,
      writeRequests_append, writeRequests_completed, hpost.writes]
    rfl
  · have hcodes := h.returnCodes_eq hpre hpost
    have hrc : rc = some r := by
      rw [hcodes] at hr
      cases rc with
      | none => simp at hr
      | some r' => simpa using hr
    rw [h.stored r hrc hr₀, envBlock_write _ hlen]

theorem BootEnd.blockSafe {config : BootConfig} (hes : IsBlock (envBlock disk) es)
    (h : BootEnd es.reverse (afterRead stackTop disk cs) w' config) : BlockSafe disk w' := by
  cases h with
  | cleanup hnone hlogs => exact .of_logs hlogs (.cons ⟨rfl, rfl⟩ internal_checkSteps)
  | booted d hd hslot hout =>
    cases hout with
    | kept hus hlogs => exact .of_logs hlogs (internal_before internal_kernelSteps)
    | noRoom hus hroom hlogs =>
      exact .of_logs hlogs (internal_before (.cons ⟨rfl, rfl⟩ internal_kernelSteps))
    | saved hus hroom ys hys c hc hhanded =>
      exact .replaced _ (hhanded.replaced hes hd hus hys hroom internal_kernelSteps)

theorem Stuck.blockSafe (hes : IsBlock (envBlock disk) es)
    (hd : verdict (varsOf es.reverse) = some d)
    (h : Stuck es.reverse d (.ubootEnvRead 0 :: checkSteps (varsOf es.reverse))
      (afterRead stackTop disk cs) w') : BlockSafe disk w' := by
  obtain ⟨hus, -, ys, hys, hroom, hhanded⟩ := h
  exact .replaced _ (hhanded.replaced hes hd hus hys hroom ⟨rfl, rfl⟩)

theorem Unread.blockSafe (h : Unread disk completions w') : BlockSafe disk w' := by
  refine .untouched ?_ h.disk
  rcases h.trace with ht | ⟨rc, ht⟩ <;> rw [ht] <;> rfl

/-- **The block on the disk is never damaged by a boot**, whatever it holds and whatever the device
does, and wherever the boot stops. -/
theorem processUbootEnv_blockSafe (slack : ℕ → Byte) (stackTop : ℕ) (disk : Disk)
    (completions : List Completion)
    (hactive : ∀ es slot, IsBlock (envBlock disk) es →
      es.reverse.lookup nervesFwActive = some slot → slot.bytes ≠ []) :
    Ends (processUbootEnv slack) (.powerOn stackTop disk completions) (fun _ w' => BlockSafe disk w')
      (fun _ w' => BlockSafe disk w') := by
  refine ends_processUbootEnv (fun c cs _ _ => ?_) fun _ _ h _ => h.blockSafe
  have hinit : Holds (afterRead stackTop disk cs) (ubootEnvInit ubootEnvSize) [] :=
    .init _ fun _ _ => rfl
  by_cases haccepted : ∃ es, IsBlock (envBlock disk) es
  · obtain ⟨es, hes⟩ := haccepted
    refine (ends_processBlock hinit rfl (length_envBlock _) hes fun slot => hactive es slot hes).mono
      ?_ ?_
    · rintro r w' ⟨hend, hys⟩
      exact ⟨hend.blockSafe hes, hys⟩
    · rintro e w' ⟨d, hd, hstuck⟩
      exact hstuck.blockSafe hes hd
  · refine (returns_processBlock_of_not_isBlock hinit rfl (length_envBlock _)
      (not_exists.mp haccepted)).ends.mono ?_ fun _ _ h => h
    rintro r w' ⟨-, hlogs, hys⟩
    exact ⟨.of_logs hlogs ⟨rfl, rfl⟩, hys⟩

/-- A boot from the block of an upgrade, by a device that fails to write. -/
theorem processUbootEnv_blockSafe_upgrade :
    Ends (processUbootEnv fun _ => 0)
      (.powerOn 0 (diskOf (upgradeEntries (.lit "0"))) [⟨0, fun _ => 0⟩, ⟨1, fun _ => 0⟩])
      (fun _ w' => BlockSafe (diskOf (upgradeEntries (.lit "0"))) w')
      (fun _ w' => BlockSafe (diskOf (upgradeEntries (.lit "0"))) w') := by
  refine processUbootEnv_blockSafe _ _ _ _ fun es slot hes hslot => ?_
  obtain rfl := hes.unique (isBlock_diskOf (by decide) (by decide))
  obtain rfl : CStr.lit "a" = slot := Option.some.inj hslot
  decide

end LittleLoader
