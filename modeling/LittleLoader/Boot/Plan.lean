import LittleLoader.Env.Holds
import LittleLoader.Machine.Main
import LittleLoader.Strings.Decimal

/-!
# Boot/Plan — what a boot makes of its environment

    verdict f  =  the slot to boot, and the variables to set before

A boot sees its environment as the map `f` of the answers of `uboot_env_getenv`.  Everything it does
with a block it has read follows from this map: the slot and the updates (`verdict`), the kernel
(`kernelConfig`), the variables it asks for (`checkSteps`, `kernelSteps`), and the map it leaves for
the next boot (`setVars` of the updates).
-/

namespace LittleLoader

/-- The variables of an environment: the value of each name. -/
abbrev Vars := CStr → Option CStr

/-- The variables of a list of entries. -/
def varsOf (xs : List Entry) : Vars := fun n => xs.lookup n

variable {f : Vars} {slot available count n v : CStr} {us xs : List Entry}

/-! ## The variables -/

/-- The slot to boot. -/
def nervesFwActive : CStr := .lit "nerves_fw_active"

/-- Whether the active slot waits for its validation. -/
def upgradeAvailable : CStr := .lit "upgrade_available"

/-- Whether the active slot has been tried before. -/
def bootcount : CStr := .lit "bootcount"

/-- The variables that the failback check sets. -/
def failbackNames : List CStr := [nervesFwActive, upgradeAvailable, bootcount]

/-- The name of the variable with the kernel's first block. -/
def kernelLba (slot : CStr) : CStr := slot.withHead (.lit "x.kernel_lba")

/-- The name of the variable with the kernel's arguments. -/
def kernelArgs (slot : CStr) : CStr := slot.withHead (.lit "x.kernel_args")

theorem bytes_withHead (h : slot.bytes ≠ []) : ∃ c, slot.bytes.head? = some c ∧ ∀ t : CStr,
    (slot.withHead t).bytes = c :: t.bytes.tail := by
  obtain ⟨c, l, hs, -⟩ := CStr.exists_cons h
  exact ⟨c, by rw [hs, List.head?_cons], fun t => by simp [CStr.withHead, hs]⟩

/-- The variables of a slot are told from those the check sets by what follows their first byte. -/
theorem withHead_notMem {t : CStr} (h : slot.bytes ≠ [])
    (ht : t.bytes.tail ∉ failbackNames.map fun n => n.bytes.tail) :
    slot.withHead t ∉ failbackNames := by
  obtain ⟨c, -, hc⟩ := bytes_withHead h
  intro hmem
  have htail := List.mem_map_of_mem (f := fun n : CStr => n.bytes.tail) hmem
  rw [hc, List.tail_cons] at htail
  exact ht htail

theorem kernelLba_notMem (h : slot.bytes ≠ []) : kernelLba slot ∉ failbackNames :=
  withHead_notMem h (by decide)

theorem kernelArgs_notMem (h : slot.bytes ≠ []) : kernelArgs slot ∉ failbackNames :=
  withHead_notMem h (by decide)

/-! ## The failback check -/

/-- The text the check compares `upgrade_available` and `bootcount` with. -/
abbrev text1 : CStr := .lit "1"

/-- The name of the first slot. -/
abbrev slotA : CStr := .lit "a"

/-- The slot that is booted instead: `active_slot[0]` becomes `b` if it is `a`, and `a` if not. -/
def otherSlot (slot : CStr) : CStr :=
  (if slot.bytes.head? = some (chr 'a') then CStr.lit "b" else CStr.lit "a").withHead slot

/-- The two slots of the disk, one way round or the other. -/
def Slots (s o : CStr) : Prop :=
  (s = .lit "a" ∧ o = .lit "b") ∨ (s = .lit "b" ∧ o = .lit "a")

namespace Slots

variable {s o : CStr}

theorem otherSlot_eq (h : Slots s o) : otherSlot s = o := by
  rcases h with ⟨rfl, rfl⟩ | ⟨rfl, rfl⟩ <;> decide

theorem ne_nil (h : Slots s o) : s.bytes ≠ [] := by
  rcases h with ⟨rfl, -⟩ | ⟨rfl, -⟩ <;> decide

theorem kernelLba_ne (h : Slots s o) : kernelLba s ≠ kernelLba o := by
  rcases h with ⟨rfl, rfl⟩ | ⟨rfl, rfl⟩ <;> decide

end Slots

theorem otherSlot_ne_nil : (otherSlot slot).bytes ≠ [] := by
  unfold otherSlot
  split <;> simp [CStr.withHead, CStr.lit]

/-- The slot to boot, and the variables to set before. -/
structure Verdict where
  slot : CStr
  updates : List Entry
deriving DecidableEq

/-- The slot `o` is booted instead of the active one. -/
def revertTo (o : CStr) : Verdict :=
  ⟨o, [(nervesFwActive, o), (upgradeAvailable, .lit "0"), (bootcount, .lit "0")]⟩

/-- The previous boot did not validate `slot`. -/
def revert (slot : CStr) : Verdict :=
  ⟨otherSlot slot, [(nervesFwActive, otherSlot slot), (upgradeAvailable, .lit "0"),
    (bootcount, .lit "0")]⟩

/-- The first try of `slot`. -/
def try1 (slot : CStr) : Verdict := ⟨slot, [(bootcount, .lit "1")]⟩

/-- What becomes of an upgrade: `bootcount` is compared as a text. -/
def upgradeVerdict (slot count : CStr) : Verdict :=
  if count = .lit "1" then revert slot else try1 slot

theorem upgradeVerdict_updates_ne_nil : (upgradeVerdict slot count).updates ≠ [] := by
  unfold upgradeVerdict
  split <;> simp [revert, try1]

theorem upgradeVerdict_slot_ne_nil (h : slot.bytes ≠ []) :
    (upgradeVerdict slot count).slot.bytes ≠ [] := by
  unfold upgradeVerdict
  split
  · exact otherSlot_ne_nil
  · exact h

/-- **The failback check.**  Without the variables it needs, nothing is booted from a slot. -/
def verdict (f : Vars) : Option Verdict :=
  match f nervesFwActive, f upgradeAvailable with
  | some slot, some available =>
    if available = .lit "1" then
      (f bootcount).map (upgradeVerdict slot)
    else some ⟨slot, []⟩
  | _, _ => none

/-- No upgrade waits for its validation: the active slot is booted. -/
theorem verdict_of_ne (hactive : f nervesFwActive = some slot)
    (havailable : f upgradeAvailable = some available) (h : available ≠ .lit "1") :
    verdict f = some ⟨slot, []⟩ := by simp [verdict, hactive, havailable, h]

/-- An upgrade waits for its validation: `bootcount` decides. -/
theorem verdict_of_upgrade (hactive : f nervesFwActive = some slot)
    (havailable : f upgradeAvailable = some (.lit "1")) :
    verdict f = (f bootcount).map (upgradeVerdict slot) := by
  simp [verdict, hactive, havailable]

/-- The variables that the check needs are there. -/
def CheckComplete (f : Vars) : Prop :=
  f upgradeAvailable ≠ none ∧ (f upgradeAvailable = some (.lit "1") → f bootcount ≠ none)

/-- **There is a verdict** if the variables for it are there. -/
theorem verdict_ne_none_iff (hactive : f nervesFwActive = some slot) :
    verdict f ≠ none ↔ CheckComplete f := by
  unfold CheckComplete
  cases havailable : f upgradeAvailable with
  | none => simp [verdict, hactive, havailable]
  | some available =>
    by_cases hone : available = .lit "1"
    · rw [verdict_of_upgrade hactive (hone ▸ havailable)]
      simp [hone]
    · rw [verdict_of_ne hactive havailable hone]
      simp [hone]

/-- **The slot that is booted**: the other one for an upgrade that has been tried before. -/
theorem slot_of_verdict {d : Verdict} (hactive : f nervesFwActive = some slot)
    (h : verdict f = some d) : d.slot =
      if f upgradeAvailable = some (.lit "1") ∧ f bootcount = some (.lit "1") then otherSlot slot
      else slot := by
  by_cases hone : f upgradeAvailable = some (.lit "1")
  · rw [verdict_of_upgrade hactive hone] at h
    obtain ⟨count, hcount, rfl⟩ := Option.map_eq_some_iff.mp h
    rw [hone, hcount, upgradeVerdict]
    by_cases h1 : count = .lit "1" <;> simp [h1, revert, try1]
  · obtain ⟨available, havailable⟩ : ∃ available, f upgradeAvailable = some available := by
      cases havailable : f upgradeAvailable with
      | none => simp [verdict, hactive, havailable] at h
      | some available => exact ⟨available, rfl⟩
    have hne : available ≠ .lit "1" := fun e => hone (e ▸ havailable)
    rw [verdict_of_ne hactive havailable hne] at h
    obtain rfl := Option.some.inj h
    simp [hone]

/-- **Something is set** for an upgrade with a `bootcount` only. -/
theorem exists_of_updates_ne_nil {d : Verdict} (h : verdict f = some d) (hus : d.updates ≠ []) :
    ∃ slot count, f nervesFwActive = some slot ∧ f upgradeAvailable = some (.lit "1") ∧
      f bootcount = some count ∧ d = upgradeVerdict slot count := by
  unfold verdict at h
  split at h
  · rename_i slot available hactive havailable
    split at h
    · rename_i hone
      obtain ⟨count, hcount, rfl⟩ := Option.map_eq_some_iff.mp h
      exact ⟨slot, count, hactive, hone ▸ havailable, hcount, rfl⟩
    · obtain rfl := Option.some.inj h
      exact absurd rfl hus
  · cases h

/-- The active slot is the one that is found. -/
theorem ne_nil_of_active (hactive : f nervesFwActive = some slot) (h : slot.bytes ≠ []) :
    ∀ slot, f nervesFwActive = some slot → slot.bytes ≠ [] := by
  intro slot' hslot'
  rwa [← Option.some.inj (hactive.symm.trans hslot')]

/-! ## The environment for the next boot -/

/-- The variables after the assignments `us`. -/
def setVars (us : List Entry) (f : Vars) : Vars := fun n => (us.reverse.lookup n).or (f n)

/-- The assignments to the list act on its variables. -/
theorem varsOf_assigns : varsOf (assigns us xs) = setVars us (varsOf xs) := by
  funext n
  rw [varsOf, lookup_assigns, List.lookup_append, setVars, varsOf]

theorem setVars_of_notMem (h : n ∉ us.map Prod.fst) : setVars us f n = f n := by
  have hnone : us.reverse.lookup n = none := by
    rw [lookup_eq_none_iff_notMem, List.map_reverse, List.mem_reverse]
    exact h
  rw [setVars, hnone, Option.none_or]

/-- Only the failback variables are set. -/
theorem mem_failbackNames_of_verdict {d : Verdict} (h : verdict f = some d) :
    ∀ u ∈ d.updates, u.1 ∈ failbackNames := by
  unfold verdict at h
  split at h
  · split at h
    · obtain ⟨count, -, rfl⟩ := Option.map_eq_some_iff.mp h
      unfold upgradeVerdict
      split <;> simp [revert, try1, failbackNames]
    · obtain rfl := Option.some.inj h
      simp
  · cases h

theorem setVars_of_verdict {d : Verdict} (h : verdict f = some d) (hn : n ∉ failbackNames) :
    setVars d.updates f n = f n := by
  refine setVars_of_notMem fun hmem => ?_
  obtain ⟨u, hu, rfl⟩ := List.mem_map.mp hmem
  exact hn (mem_failbackNames_of_verdict h u hu)

/-! ## The kernel -/

/-- **The kernel of the slot**; without a `kernel_lba`, the default one. -/
def kernelConfig (f : Vars) (slot : CStr) : BootConfig :=
  match f (kernelLba slot) with
  | none => {}
  | some v => ⟨v.number, (f (kernelArgs slot)).map CStr.obj⟩

theorem kernelConfig_of_some (h : f (kernelLba slot) = some v) :
    kernelConfig f slot = ⟨v.number, (f (kernelArgs slot)).map CStr.obj⟩ := by
  rw [kernelConfig, h]

/-! ## The variables that are asked for -/

/-- A call of `uboot_env_getenv`. -/
def asks (f : Vars) (n : CStr) : Event := .ubootEnvGetenv n.bytes (answer (f n)).1

/-- The steps up to the verdict. -/
def checkSteps (f : Vars) : List Event :=
  asks f nervesFwActive :: if f nervesFwActive = none then [] else
    asks f upgradeAvailable :: if f upgradeAvailable = some (.lit "1") then [asks f bootcount] else []

/-- The steps of the lookup of the kernel. -/
def kernelSteps (f : Vars) (slot : CStr) : List Event :=
  asks f (kernelLba slot) :: if f (kernelLba slot) = none then [] else [asks f (kernelArgs slot)]

/-- The kernel variables that a boot has asked for: the names with the tails of the templates. -/
def kernelLookups (trace : List Event) : List (List Byte) :=
  trace.filterMap fun
    | .ubootEnvGetenv name _ =>
      if name.tail = (CStr.lit ".kernel_lba").bytes ∨ name.tail = (CStr.lit ".kernel_args").bytes
      then some name else none
    | _ => none

/-- **The boot selects the slot**: the kernel variables it asks for are those of the slot. -/
def Selects (slot : CStr) (trace : List Event) : Prop :=
  kernelLookups trace = [(kernelLba slot).bytes] ∨
    kernelLookups trace = [(kernelLba slot).bytes, (kernelArgs slot).bytes]

instance (slot : CStr) (trace : List Event) : Decidable (Selects slot trace) :=
  inferInstanceAs (Decidable (_ ∨ _))

@[simp] theorem kernelLookups_append (evs evs' : List Event) :
    kernelLookups (evs ++ evs') = kernelLookups evs ++ kernelLookups evs' :=
  List.filterMap_append

theorem kernelLookups_cons (e : Event) (evs : List Event) :
    kernelLookups (e :: evs) = kernelLookups [e] ++ kernelLookups evs :=
  kernelLookups_append [e] evs

theorem kernelLookups_asks_withHead {t : CStr} (h : slot.bytes ≠ [])
    (ht : t.bytes.tail = (CStr.lit ".kernel_lba").bytes ∨
      t.bytes.tail = (CStr.lit ".kernel_args").bytes) :
    kernelLookups [asks f (slot.withHead t)] = [(slot.withHead t).bytes] := by
  obtain ⟨c, -, hc⟩ := bytes_withHead h
  simp [kernelLookups, asks, hc, ht]

theorem kernelLookups_asks_of_mem (h : n ∈ failbackNames) : kernelLookups [asks f n] = [] := by
  have htail : ∀ n ∈ failbackNames, ¬ (n.bytes.tail = (CStr.lit ".kernel_lba").bytes ∨
    n.bytes.tail = (CStr.lit ".kernel_args").bytes) := by decide
  simp [kernelLookups, asks, htail n h]

/-- The check asks for no kernel variable. -/
@[simp] theorem kernelLookups_checkSteps : kernelLookups (checkSteps f) = [] := by
  have hmem (n : CStr) (h : n ∈ failbackNames) (evs : List Event) :
      kernelLookups (asks f n :: evs) = kernelLookups evs := by
    rw [kernelLookups_cons, kernelLookups_asks_of_mem h, List.nil_append]
  unfold checkSteps
  rw [hmem _ (by decide)]
  split
  · rfl
  · rw [hmem _ (by decide)]
    split
    · rw [hmem _ (by decide)]
      rfl
    · rfl

/-- **The lookup of the kernel selects the slot.** -/
theorem selects_kernelSteps (h : slot.bytes ≠ []) : Selects slot (kernelSteps f slot) := by
  have hlba : kernelLookups [asks f (kernelLba slot)] = [(kernelLba slot).bytes] :=
    kernelLookups_asks_withHead h (.inl (by decide))
  have hargs : kernelLookups [asks f (kernelArgs slot)] = [(kernelArgs slot).bytes] :=
    kernelLookups_asks_withHead h (.inr (by decide))
  unfold Selects kernelSteps
  rw [kernelLookups_cons, hlba]
  split
  · exact .inl rfl
  · rw [hargs]
    exact .inr rfl

/-- A boot selects one slot. -/
theorem Selects.kernelLba_eq {slot' : CStr} {trace : List Event} (h : Selects slot trace)
    (h' : Selects slot' trace) : kernelLba slot = kernelLba slot' := by
  refine CStr.ext ?_
  rcases h with h | h <;> rcases h' with h' | h' <;> rw [h] at h' <;> simpa using (List.cons.inj h').1

end LittleLoader
