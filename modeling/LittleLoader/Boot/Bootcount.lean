import LittleLoader.Boot.Failback

/-!
# Boot/Bootcount — the documented rule for `bootcount`, and where the texts break it

    bootcount = 0  →  the active slot is tried      bootcount > 0  →  the other slot is booted

The check compares `bootcount` with the text `1`.  Every other text is a first try, also `2` and
`01`: the counter goes back to `1`, and the slot stays active.  A run follows the rule exactly if it
meets no such text (`followsRule_iff`).
-/

namespace LittleLoader

variable {m : Machine} {w' : World} {disk : Disk} {xs ys es us : List Entry} {s o count n : CStr}
  {k : ℕ}

/-! ## The rule -/

/-- The disk waits for the validation of slot `s`, and `bootcount` is the decimal text of `k`. -/
structure Awaits (disk : Disk) (es : List Entry) (s o count : CStr) (k : ℕ) : Prop where
  block : IsBlock (envBlock disk) es
  slots : Slots s o
  pending : Pending s count (varsOf es.reverse)
  decimal : IsDecimal count k

/-- **The rule**, at the end of a boot that has found the number `k`. -/
structure Rule (s o : CStr) (k : ℕ) (w' : World) : Prop where
  tries : Selects s w'.trace → k = 0
  switches : 1 ≤ k → Selects o w'.trace
  /-- If the device has done what it was asked for and `s` is still active, the next boot finds no
  smaller number. -/
  keeps : (∀ rc ∈ returnCodes w'.trace, 0 ≤ rc) → ∀ es count' k', IsBlock (envBlock w'.disk) es →
    es.reverse.lookup nervesFwActive = some s → es.reverse.lookup bootcount = some count' →
    IsDecimal count' k' → k ≤ k'

/-- A boot follows the rule. -/
def Boot.FollowsRule (b : Boot) : Prop := ∀ es s o count k, Awaits b.disk es s o count k →
  Returns (processUbootEnv b.machine.slack) b.start fun _ w' => Rule s o k w'

/-! ## The condition -/

/-- **The switch to the other slot does not last**: the block has an older entry that makes `s` the
active slot, and that the next boot finds instead, with a `bootcount` of `0`. -/
structure Stale (es : List Entry) (s : CStr) : Prop where
  room : Fits ubootEnvSize (assigns (revert s).updates es.reverse)
  several : 2 ≤ multiplicity nervesFwActive es
  active : es.lookup nervesFwActive = some s
  count : 2 ≤ multiplicity bootcount es →
    ∃ count', es.lookup bootcount = some count' ∧ IsDecimal count' 0

/-- The texts with which the comparison does what the rule says. -/
def Boot.MeetsRule (b : Boot) : Prop := ∀ es s o count k, Awaits b.disk es s o count k →
  k = 0 ∨ count = text1 ∧ (b.machine.write.status = 0#8 → ¬ Stale es s)

/-! ## One boot -/

/-- What the next boot finds: the value that was set, if the name has one entry. -/
theorem lookup_reread
    (hys : StableSorted (fun e : Entry => e.1.key) (assigns us es.reverse) ys) (n : CStr) :
    ys.reverse.lookup n =
      if 2 ≤ multiplicity n es then es.lookup n else setVars us (varsOf es.reverse) n := by
  rw [lookup_reverse_of_stableSorted hys]
  split
  · rename_i h
    rw [lookup_reverse_assigns (by rwa [multiplicity_reverse]), List.reverse_reverse]
  · rename_i h
    have hle : multiplicity n (assigns us es.reverse) ≤ 1 :=
      multiplicity_assigns_le_one (by rw [multiplicity_reverse]; omega)
    rw [lookup_reverse_of_multiplicity_le_one hle, ← varsOf_assigns, varsOf]

/-- **A text that is not `1`** is a first try: the rule is met for the number `0` only. -/
theorem rule_try1_iff (hsel : Selects s w'.trace) : Rule s o k w' ↔ k = 0 := by
  constructor
  · exact fun h => h.tries hsel
  · rintro rfl
    exact ⟨fun _ => rfl, fun h => by omega, fun _ _ _ _ _ _ _ _ => Nat.zero_le _⟩

/-- **The text `1`** switches to the other slot: the rule is met unless that does not last. -/
theorem rule_revert_iff (h : Awaits disk es s o (.lit "1") 1) (hsel : Selects o w'.trace)
    (hdisk : DiskAfter m disk es (revert s) w') :
    Rule s o 1 w' ↔ (m.write.status = 0#8 → ¬ Stale es s) := by
  have hne : s ≠ o := fun e => h.slots.kernelLba_ne (congrArg kernelLba e)
  have htries : Selects s w'.trace → 1 = 0 := fun hs =>
    absurd (hs.kernelLba_eq hsel) h.slots.kernelLba_ne
  cases hdisk with
  | kept hus => cases hus
  | noRoom hus hroom hwrite hcodes hdisk =>
    refine ⟨fun _ _ hstale => hroom hstale.room, fun _ => ⟨htries, fun _ => hsel, ?_⟩⟩
    intro _ es' count' k' hes' _ hcount' hk'
    rw [hdisk] at hes'
    obtain rfl := h.block.unique hes'
    have hc : count' = .lit "1" := Option.some.inj (hcount'.symm.trans h.pending.count)
    exact (h.decimal.unique (hc ▸ hk')).le
  | written hus hroom ys hys hwrite hcodes hdisk =>
    by_cases hstatus : m.write.status = 0#8
    · have hcode : 0 ≤ m.write.code envLen := by
        by_contra hneg
        exact m.write.code_neg_iff.mp (by omega) hstatus
      have hactive := lookup_reread hys nervesFwActive
      have hcount := lookup_reread hys bootcount
      constructor
      · intro hrule _ hstale
        rw [if_pos hstale.several, hstale.active] at hactive
        obtain ⟨count', hcount', hzero⟩ :
            ∃ count', ys.reverse.lookup bootcount = some count' ∧ IsDecimal count' 0 := by
          rw [hcount]
          split
          · rename_i hmult
            exact hstale.count hmult
          · exact ⟨.lit "0", rfl, by decide⟩
        have hle := hrule.keeps (by simp [hcodes, hcode]) ys count' 0 (hdisk hcode) hactive hcount'
          hzero
        omega
      · refine fun hnot => ⟨htries, fun _ => hsel, ?_⟩
        intro _ es' count' k' hes' hactive' hcount' hk'
        obtain rfl := (hdisk hcode).unique hes'
        by_contra hlt
        obtain rfl : k' = 0 := by omega
        rw [hactive] at hactive'
        rw [hcount] at hcount'
        split at hactive'
        · rename_i hseveral
          exact hnot hstatus ⟨hroom, hseveral, hactive', fun hmult =>
            ⟨count', by rwa [if_pos hmult] at hcount', hk'⟩⟩
        · -- a single entry has the other slot for its value
          have hother : otherSlot s = s := Option.some.inj hactive'
          exact absurd (hother.symm.trans h.slots.otherSlot_eq) hne
    · have hneg : m.write.code envLen < 0 := m.write.code_neg_iff.mpr hstatus
      refine ⟨fun _ hs => absurd hs hstatus, fun _ => ⟨htries, fun _ => hsel, fun hcodes' => ?_⟩⟩
      have hpos := hcodes' (m.write.code envLen) (by simp [hcodes])
      omega

/-! ## Runs -/

/-- **A boot follows the rule exactly if** its block meets the condition. -/
theorem Boot.followsRule_iff_meetsRule (b : Boot) : b.FollowsRule ↔ b.MeetsRule := by
  refine forall_congr' fun es => forall_congr' fun s => forall_congr' fun o => forall_congr'
    fun count => forall_congr' fun k => forall_congr' fun h => ?_
  have hactive := ne_nil_of_active h.pending.active h.slots.ne_nil
  obtain ⟨config, w', hend, hout⟩ :=
    (returns_processUbootEnv b.machine h.block hactive).exists_outcome
  have hsel := (hend.of_verdict h.pending.verdict_eq).2.1
  have hdisk := hend.diskAfter h.block h.pending.verdict_eq
  rw [Boot.start, hout]
  by_cases hone : count = .lit "1"
  · subst hone
    obtain rfl : k = 1 := h.decimal.unique (by decide)
    rw [upgradeVerdict, if_pos rfl] at hsel hdisk
    have hother : (revert s).slot = o := h.slots.otherSlot_eq
    rw [hother] at hsel
    simpa using rule_revert_iff h hsel hdisk
  · rw [upgradeVerdict, if_neg hone] at hsel
    have hs : (try1 s).slot = s := rfl
    rw [hs] at hsel
    simpa [hone] using rule_try1_iff hsel

/-- **A run follows the rule for `bootcount` exactly if** every `bootcount` that a boot of an
upgrade finds is `0`, or is written `1` and the switch it leads to lasts.  The run may have any
writes of others between its boots. -/
theorem followsRule_iff (steps : List RunStep) (disk : Disk) :
    (∀ b ∈ boots steps disk, b.FollowsRule) ↔ ∀ b ∈ boots steps disk, b.MeetsRule :=
  forall₂_congr fun b _ => b.followsRule_iff_meetsRule

/-- The disk of an upgrade of slot `a` that has been tried twice. -/
def twiceDisk : Disk := diskOf (upgradeEntries (.lit "2"))

theorem isBlock_twiceDisk : IsBlock (envBlock twiceDisk) (upgradeEntries (.lit "2")) :=
  isBlock_diskOf (by decide) (by decide)

/-- **The text `2` is a first try**: the boot selects slot `a` once more. -/
theorem not_followsRule_twiceDisk :
    Awaits twiceDisk (upgradeEntries (.lit "2")) (.lit "a") (.lit "b") (.lit "2") 2 ∧
      (Returns (processUbootEnv sampleMachine.slack) (sampleMachine.powerOn twiceDisk) fun _ w' =>
        Selects (.lit "a") w'.trace) ∧
      ¬ ∀ b ∈ boots [.boot sampleMachine] twiceDisk, b.FollowsRule := by
  have hawaits : Awaits twiceDisk (upgradeEntries (.lit "2")) (.lit "a") (.lit "b") (.lit "2") 2 :=
    ⟨isBlock_twiceDisk, .inl ⟨rfl, rfl⟩, ⟨by decide, by decide, by decide⟩, by decide⟩
  have hactive := ne_nil_of_active hawaits.pending.active (by decide)
  refine ⟨hawaits, (returns_processUbootEnv _ hawaits.block hactive).mono fun _ _ hend =>
    (hend.of_verdict hawaits.pending.verdict_eq).2.1, fun h => ?_⟩
  have hfollows : Boot.FollowsRule ⟨sampleMachine, twiceDisk⟩ := h _ List.mem_cons_self
  have hmeets := (Boot.followsRule_iff_meetsRule _).mp hfollows
  simp only [Boot.MeetsRule] at hmeets
  rcases hmeets _ _ _ _ _ hawaits with hk | ⟨hone, -⟩
  · cases hk
  · exact absurd hone (by decide)

end LittleLoader
