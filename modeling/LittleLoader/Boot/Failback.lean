import LittleLoader.Boot.Runs

/-!
# Boot/Failback — an upgrade that nobody validates is tried once

    pending (bootcount ≠ 1)  →  pending (bootcount = 1)  →  settled on the other slot

The variables of an upgrade go through these phases from boot to boot, and stay in the last one.  A
run of boots without other writers therefore selects the new slot once at most, and the other slot
from the second boot on (`failback_run`).
-/

namespace LittleLoader

variable {disk disk₁ : Disk} {f g : Vars} {s o n count : CStr} {es : List Entry} {bs : List Boot}

/-! ## The phases -/

/-- An upgrade of slot `s` waits for its validation. -/
structure Pending (s count : CStr) (f : Vars) : Prop where
  active : f nervesFwActive = some s
  available : f upgradeAvailable = some (.lit "1")
  count : f bootcount = some count

/-- Slot `o` is active, and nothing waits. -/
structure Settled (o : CStr) (f : Vars) : Prop where
  active : f nervesFwActive = some o
  available : f upgradeAvailable = some (.lit "0")
  count : f bootcount = some (.lit "0")

/-- The variables that the failback check does not set are the same. -/
def SameOthers (f g : Vars) : Prop := ∀ n, n ∉ failbackNames → g n = f n

theorem Settled.verdict_eq (h : Settled o f) : verdict f = some ⟨o, []⟩ :=
  verdict_of_ne h.active h.available (by decide)

theorem Pending.verdict_eq (h : Pending s count f) : verdict f = some (upgradeVerdict s count) := by
  rw [verdict_of_upgrade h.active h.available, h.count, Option.map_some]

/-- The first boot of an upgrade notes its try. -/
theorem Pending.try1 (h : Pending s count f) :
    Pending s (.lit "1") (setVars (try1 s).updates f) where
  active := h.active
  available := h.available
  count := rfl

/-- The second one settles on the other slot. -/
theorem settled_revert (f : Vars) : Settled (otherSlot s) (setVars (revert s).updates f) where
  active := rfl
  available := rfl
  count := rfl

theorem SameOthers.trans {h : Vars} (hfg : SameOthers f g) (hgh : SameOthers g h) :
    SameOthers f h := fun n hn => (hgh n hn).trans (hfg n hn)

theorem sameOthers_revert (s : CStr) (f : Vars) : SameOthers f (setVars (revert s).updates f) :=
  fun _ hn => setVars_of_notMem hn

theorem sameOthers_try1 (s : CStr) (f : Vars) : SameOthers f (setVars (try1 s).updates f) :=
  fun _ hn => setVars_of_notMem fun hmem => hn (List.mem_cons_of_mem _ (List.mem_cons_of_mem _ hmem))

/-! ## Runs -/

/-- The boots select slot `o`, and all leave the same disk, which stores `g`. -/
structure RunsOn (o : CStr) (g : Vars) (disk₁ : Disk) (bs : List Boot) : Prop where
  ended : ∀ b ∈ bs, b.Ended
  selects : ∀ b ∈ bs, Selects o b.after.trace
  disk : ∀ b ∈ bs, b.after.disk = disk₁
  stores : ∀ b ∈ bs, Stores b.after.disk g

theorem RunsOn.nil : RunsOn o g disk₁ [] := ⟨by simp, by simp, by simp, by simp⟩

/-- One boot more in front. -/
theorem RunsOn.cons {b : Boot} (h : RunsOn o g disk₁ bs) (hended : b.Ended)
    (hsel : Selects o b.after.trace) (hdisk : b.after.disk = disk₁)
    (hstores : Stores b.after.disk g) : RunsOn o g disk₁ (b :: bs) where
  ended := List.forall_mem_cons.mpr ⟨hended, h.ended⟩
  selects := List.forall_mem_cons.mpr ⟨hsel, h.selects⟩
  disk := List.forall_mem_cons.mpr ⟨hdisk, h.disk⟩
  stores := List.forall_mem_cons.mpr ⟨hstores, h.stores⟩

/-- **Settled boots** change nothing. -/
theorem Settled.runsOn (ms : List Machine) (h : Settled o f) (hstores : Stores disk f)
    (ho : o.bytes ≠ []) (hwrites : ∀ b ∈ boots (ms.map .boot) disk, WritesSucceed b.after.trace) :
    RunsOn o f disk (boots (ms.map .boot) disk) := by
  induction ms with
  | nil => exact .nil
  | cons m ms ih =>
    rw [List.map_cons, boots] at hwrites ⊢
    obtain ⟨hfirst, hrest⟩ := List.forall_mem_cons.mp hwrites
    obtain ⟨hended, hsel, -, hdisk⟩ :=
      hstores.boot m (ne_nil_of_active h.active ho) h.verdict_eq hfirst
    have hsame := hdisk rfl
    rw [hsame] at hrest ⊢
    exact (ih hrest).cons hended hsel hsame (by rwa [hsame])

/-- **An upgrade that has been tried** is reverted by the next boot, and the boots after it are
settled. -/
theorem Pending.runsOn (ms : List Machine) (h : Pending s (.lit "1") f) (hstores : Stores disk f)
    (hs : s.bytes ≠ []) (hwrites : ∀ b ∈ boots (ms.map .boot) disk, WritesSucceed b.after.trace) :
    ∃ disk₁, RunsOn (otherSlot s) (setVars (revert s).updates f) disk₁
      (boots (ms.map .boot) disk) := by
  cases ms with
  | nil => exact ⟨disk, .nil⟩
  | cons m ms =>
    rw [List.map_cons, boots] at hwrites ⊢
    obtain ⟨hfirst, hrest⟩ := List.forall_mem_cons.mp hwrites
    obtain ⟨hended, hsel, hstores', -⟩ :=
      hstores.boot m (ne_nil_of_active h.active hs) h.verdict_eq hfirst
    have hrun := (settled_revert f).runsOn ms hstores' otherSlot_ne_nil hrest
    exact ⟨_, hrun.cons hended hsel rfl hstores'⟩

/-! ## The run of an upgrade -/

/-- What a boot of the run keeps: it ends, and the slot it has selected is the active one of the
variables it leaves, which differ from `f` in the failback variables only. -/
def BootKeeps (f : Vars) (b : Boot) : Prop :=
  b.Ended ∧ ∃ g slot, Stores b.after.disk g ∧ Selects slot b.after.trace ∧
    g nervesFwActive = some slot ∧ SameOthers f g

theorem RunsOn.bootKeeps (h : RunsOn o g disk₁ bs) (hg : g nervesFwActive = some o)
    (hsame : SameOthers f g) : ∀ b ∈ bs, BootKeeps f b := fun b hb =>
  ⟨h.ended b hb, g, o, h.stores b hb, h.selects b hb, hg, hsame⟩

theorem RunsOn.pairwise (h : RunsOn o g disk₁ bs) :
    bs.Pairwise fun b b' => b'.after.disk = b.after.disk :=
  List.Pairwise.imp_of_mem (fun hb hb' _ => (h.disk _ hb').trans (h.disk _ hb).symm)
    (List.pairwise_of_forall fun _ _ => trivial)

/-- The other slot is not selected. -/
theorem RunsOn.countP_eq_zero (h : RunsOn o g disk₁ bs) (hslots : Slots s o) :
    bs.countP (fun b => Selects s b.after.trace) = 0 := by
  refine List.countP_eq_zero.mpr fun b hb hsel => ?_
  exact hslots.kernelLba_ne ((of_decide_eq_true hsel).kernelLba_eq (h.selects b hb))

/-- **An upgrade is tried once at most.**  In a run of boots without other writers, the writes of
which succeed, the new slot `s` is selected once at most.  From the second boot on the other slot is
selected, the block is settled on it, and no boot changes it any more.  After every boot the slot
that was selected is the active one on the disk, and all other variables have kept their values. -/
theorem failback_run (ms : List Machine) (hes : IsBlock (envBlock disk) es)
    (hnodup : (es.map Prod.fst).Nodup) (hslots : Slots s o)
    (hactive : es.lookup nervesFwActive = some s)
    (havailable : es.lookup upgradeAvailable = some (.lit "1"))
    (hcount : es.lookup bootcount = some count)
    (hwrites : ∀ b ∈ boots (ms.map .boot) disk, WritesSucceed b.after.trace) :
    (boots (ms.map .boot) disk).countP (fun b => Selects s b.after.trace) ≤ 1 ∧
      (∀ b ∈ (boots (ms.map .boot) disk).tail, Selects o b.after.trace ∧
        ∃ g, Stores b.after.disk g ∧ Settled o g) ∧
      ((boots (ms.map .boot) disk).tail.Pairwise fun b b' => b'.after.disk = b.after.disk) ∧
      ∀ b ∈ boots (ms.map .boot) disk, BootKeeps (varsOf es) b := by
  have hstores : Stores disk (varsOf es) := ⟨es, hes, hnodup, rfl⟩
  have hpending : Pending s count (varsOf es) := ⟨hactive, havailable, hcount⟩
  by_cases hone : count = .lit "1"
  · subst hone
    have hsettled := settled_revert (s := s) (varsOf es)
    obtain ⟨disk₁, hrun⟩ := hpending.runsOn ms hstores hslots.ne_nil hwrites
    rw [hslots.otherSlot_eq] at hrun hsettled
    refine ⟨(hrun.countP_eq_zero hslots).le.trans zero_le_one, fun b hb => ?_, hrun.pairwise.tail,
      hrun.bootKeeps hsettled.active (sameOthers_revert s _)⟩
    exact ⟨hrun.selects b (List.mem_of_mem_tail hb), _, hrun.stores b (List.mem_of_mem_tail hb),
      hsettled⟩
  · have hverdict : verdict (varsOf es) = some (try1 s) := by
      rw [hpending.verdict_eq, upgradeVerdict, if_neg hone]
    cases ms with
    | nil => simp [boots]
    | cons m ms =>
      rw [List.map_cons, boots] at hwrites ⊢
      obtain ⟨hfirst, hrest⟩ := List.forall_mem_cons.mp hwrites
      obtain ⟨hended, hsel, hstores', -⟩ := hstores.boot m
        (ne_nil_of_active hpending.active hslots.ne_nil) hverdict hfirst
      have hpending' := hpending.try1
      have hsettled := settled_revert (s := s) (setVars (try1 s).updates (varsOf es))
      obtain ⟨disk₁, hrun⟩ := hpending'.runsOn ms hstores' hslots.ne_nil hrest
      rw [hslots.otherSlot_eq] at hrun hsettled
      have hsame := (sameOthers_try1 s (varsOf es)).trans (sameOthers_revert s _)
      refine ⟨?_, fun b hb => ⟨hrun.selects b hb, _, hrun.stores b hb, hsettled⟩, hrun.pairwise,
        List.forall_mem_cons.mpr ⟨?_, hrun.bootKeeps hsettled.active hsame⟩⟩
      · rw [List.countP_cons, hrun.countP_eq_zero hslots]
        split <;> omega
      · exact ⟨hended, _, s, hstores', hsel, hpending'.active, sameOthers_try1 s _⟩

/-- The writes of a settled boot succeed: there are none. -/
theorem Settled.writesSucceed (m : Machine) (h : Settled o f) (hstores : Stores disk f)
    (ho : o.bytes ≠ []) (hstatus : m.write.status = 0#8) :
    WritesSucceed (Boot.after ⟨m, disk⟩).trace := by
  obtain ⟨es, hes, hnodup, rfl⟩ := hstores
  rw [← varsOf_reverse hnodup] at h
  exact LittleLoader.writesSucceed m hes (ne_nil_of_active h.active ho) h.verdict_eq hstatus fun hus =>
    absurd rfl hus

/-- The disk of an upgrade of slot `a` that has been tried. -/
def triedDisk : Disk := diskOf (upgradeEntries text1)

theorem isBlock_triedDisk : IsBlock (envBlock triedDisk) (upgradeEntries (.lit "1")) :=
  isBlock_diskOf (by decide) (by decide)

/-- Two boots of it: the first one reverts it already. -/
theorem failback_run_triedDisk :
    (boots [.boot sampleMachine, .boot sampleMachine] triedDisk).countP
        (fun b => Selects (.lit "a") b.after.trace) ≤ 1 ∧
      ∀ b ∈ (boots [.boot sampleMachine, .boot sampleMachine] triedDisk).tail,
        Selects (.lit "b") b.after.trace := by
  have hreverse : varsOf (upgradeEntries (.lit "1")).reverse = varsOf (upgradeEntries (.lit "1")) :=
    varsOf_reverse (by decide)
  have hactive : varsOf (upgradeEntries (.lit "1")) nervesFwActive = some (.lit "a") := by decide
  have hne := ne_nil_of_active hactive (by decide)
  have hd : verdict (varsOf (upgradeEntries (.lit "1"))) = some (revert (.lit "a")) := by decide
  have hfirst : WritesSucceed (Boot.after ⟨sampleMachine, triedDisk⟩).trace :=
    writesSucceed sampleMachine isBlock_triedDisk (hreverse ▸ hne)
      (hreverse ▸ hd) rfl fun _ => by decide
  have hstored : Stores triedDisk (varsOf (upgradeEntries (.lit "1"))) :=
    ⟨_, isBlock_triedDisk, by decide, rfl⟩
  obtain ⟨-, -, hstores, -⟩ := hstored.boot sampleMachine hne hd hfirst
  have hwrites : ∀ b ∈ boots ([sampleMachine, sampleMachine].map .boot) triedDisk,
      WritesSucceed b.after.trace := by
    simp only [List.map_cons, List.map_nil, boots, List.forall_mem_cons]
    have hsecond := (settled_revert _).writesSucceed sampleMachine hstores (by decide) rfl
    exact ⟨hfirst, hsecond, by simp⟩
  have hrun := failback_run (s := .lit "a") (o := .lit "b") [sampleMachine, sampleMachine]
    isBlock_triedDisk (by decide) (.inl ⟨rfl, rfl⟩) hactive (by decide) rfl hwrites
  exact ⟨hrun.1, fun b hb => (hrun.2.1 b hb).1⟩

end LittleLoader
