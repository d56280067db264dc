import LittleLoader.Boot.Kernel
import LittleLoader.Boot.Runs
import LittleLoader.Env.Allocation

/-!
# Boot/Heap — the heap of a boot, and the kernel behind it

    _stack_top ──heap──▸ _stack_top + bootUse slack es  ┆  KERNEL_LOAD_ADDR ──kernel──▸

The heap grows towards the kernel, and nothing checks that it stops before it.  What a boot
allocates is a function of the entries of its block, and of the bytes behind a slot without a name
(`bootUse`), so the heap and the kernel are apart exactly for the blocks that leave the room
(`heapClear_iff`).
-/

namespace LittleLoader

variable {w w₁ w' : World} {env env' : UbootEnv} {xs ys zs es : List Entry} {buffer : List Byte}
  {slack : ℕ → Byte} {n slot available count : CStr} {d : Verdict}

/-! ## What a boot allocates -/

/-- The copy that the check makes for an upgrade. -/
def bootcountUse (f : Vars) : ℕ :=
  if f upgradeAvailable = some text1 then answerUse (f bootcount) else 0

/-- The copies of the check. -/
def checkUse (f : Vars) : ℕ :=
  answerUse (f nervesFwActive) + if f nervesFwActive = none then 0 else
    answerUse (f upgradeAvailable) + bootcountUse f

/-- The assignments of the verdict, and the sort of the write. -/
def updateUse (d : Verdict) (xs : List Entry) : ℕ :=
  if d.updates = [] then 0 else setsUse d.updates xs + sortUse (assigns d.updates xs)

/-- The copies of the lookup of the kernel; a slot without a name has none. -/
def kernelUse (f : Vars) (slot : CStr) : ℕ :=
  if slot.bytes = [] then 0 else
    answerUse (f (kernelLba slot)) +
      if f (kernelLba slot) = none then 0 else answerUse (f (kernelArgs slot))

/-- The text of a slot without a name. -/
abbrev nameless : CStr := .lit ""

/-- The slot to revert has no name. -/
def RevertsNameless (f : Vars) : Prop :=
  f nervesFwActive = some nameless ∧ f upgradeAvailable = some text1 ∧ f bootcount = some text1

instance (f : Vars) : Decidable (RevertsNameless f) := inferInstanceAs (Decidable (_ ∧ _))

/-- The slot that is booted in place of one without a name: `active_slot[0]` overwrites the NUL of
an object of one byte, and the name goes on with what the heap holds behind it, at most up to the
end of the copy of `upgrade_available`. -/
def otherThanNameless (slack : ℕ → Byte) : CStr :=
  .ofBytes (chr 'a' :: (padding slack nameless.obj.length ++ text1.obj))

example : otherThanNameless (fun _ => 0#8) = .lit "a" := by decide

/-- **The verdict**, for a slot without a name too. -/
def verdictOn (slack : ℕ → Byte) (f : Vars) : Option Verdict :=
  if RevertsNameless f then some (revertTo (otherThanNameless slack)) else verdict f

/-- What follows from the verdict. -/
def verdictUse (slack : ℕ → Byte) (xs : List Entry) : ℕ :=
  (verdictOn slack (varsOf xs)).elim 0 fun d =>
    updateUse d xs + kernelUse (setVars d.updates (varsOf xs)) d.slot

/-- The allocations for a block of the entries. -/
def blockUse (slack : ℕ → Byte) (es : List Entry) : ℕ :=
  readUse es + checkUse (varsOf es.reverse) + verdictUse slack es.reverse

/-- **The allocations of a boot**: its buffer, and those for the block in it. -/
def bootUse (slack : ℕ → Byte) (es : List Entry) : ℕ := allocated ubootEnvSize + blockUse slack es

theorem verdictOn_of_named {f : Vars} (h : ¬ RevertsNameless f) :
    verdictOn slack f = verdict f := if_neg h

/-- Only the failback variables are set. -/
theorem setVars_of_verdictOn {f : Vars} (h : verdictOn slack f = some d)
    (hn : n ∉ failbackNames) : setVars d.updates f n = f n := by
  unfold verdictOn at h
  split at h
  · obtain rfl := Option.some.inj h
    exact setVars_of_notMem hn
  · exact setVars_of_verdict h hn

/-! ## The lookups -/

/-- **A call of `uboot_env_getenv`** allocates the copy of its answer. -/
theorem returns_getenv_heap (h : Holds w env xs) (rest : List Byte) :
    Returns (getenv env (n.obj ++ rest)) w fun r w' =>
      (r = answer (varsOf xs n) ∧ Logs [asks (varsOf xs) n] w w' ∧ Holds w' env xs) ∧
        w'.heap = w.heap + answerUse (varsOf xs n) := by
  refine (returns_getenv h rest).and ?_
  rw [getenv, returns_bind]
  refine (returns_ubootEnvGetenv_heap h rest).mono ?_
  rintro ⟨rc, value⟩ w₁ ⟨-, -, hheap⟩
  simp only [returns_bind, returns_observe, returns_pure, World.observe_heap]
  exact hheap

theorem returns_getenvOrCleanup_heap (h : Holds w env xs) (rest : List Byte) {fmt : String}
    {args : List Arg} :
    Returns (getenvOrCleanup env (n.obj ++ rest) fmt args) w fun r w' =>
      (r = (varsOf xs n).map CStr.obj ∧ Logs [asks (varsOf xs) n] w w' ∧ Holds w' env xs) ∧
        w'.heap = w.heap + answerUse (varsOf xs n) := by
  refine (returns_getenvOrCleanup_append h rest).and_ends (E := fun _ _ => True) ?_
  rw [getenvOrCleanup]
  refine (returns_getenv_heap h rest).ends_bind ?_
  rintro ⟨rc, value⟩ w₁ ⟨-, hheap⟩
  have hrest : KeepsHeap (if rc < 0 then (do info fmt args; return none)
      else (do return some (← access value)) : M (Option (List Byte))) :=
    .ite (.bind (.info _ _) fun _ => .pure _) (.bind (.access _) fun _ => .pure _)
  exact (hrest w₁).mono (fun _ _ hw' => hw'.trans hheap) fun _ _ _ => trivial

/-- **The lookup of the kernel** of a slot with a name. -/
theorem returns_lookupKernel_heap (h : Holds w env xs) (hslot : slot.bytes ≠ []) :
    Returns (lookupKernel env slot.obj) w fun r w' =>
      (r = kernelConfig (varsOf xs) slot ∧ Logs (kernelSteps (varsOf xs) slot) w w' ∧
        Holds w' env xs) ∧ w'.heap = w.heap + kernelUse (varsOf xs) slot := by
  refine (returns_lookupKernel h hslot).and ?_
  rw [lookupKernel, returns_bind, returns_slotKey (t := .lit "x.kernel_lba") hslot rfl (by decide)
    (by decide), returns_bind, kernelUse, if_neg hslot]
  refine (returns_getenvOrCleanup_heap (n := kernelLba slot) h _).mono ?_
  rintro _ w₁ ⟨⟨rfl, -, hw₁⟩, hheap⟩
  cases hv : varsOf xs (kernelLba slot) with
  | none =>
      rw [hv] at hheap
      simpa using hheap
  | some v =>
      obtain ⟨rest, hx⟩ := strtoull_number v
      simp only [Option.map_some, returns_bind, returns_access hx]
      rw [returns_slotKey (t := .lit "x.kernel_args") hslot rfl (by decide) (by decide)]
      refine (returns_getenv_heap (n := kernelArgs slot) hw₁ _).mono ?_
      rintro ⟨rc, value⟩ w₂ ⟨-, hheap'⟩
      simp only [returns_info, returns_pure, World.say_heap]
      rw [hheap', hheap, hv, if_neg (Option.some_ne_none v), Nat.add_assoc]

/-- No entry has the empty name. -/
theorem lookup_nameless (h : ∀ e ∈ xs, ValidName e.1) : varsOf xs nameless = none := by
  rw [varsOf, lookup_eq_none_iff_notMem]
  intro hmem
  obtain ⟨e, he, hname⟩ := List.mem_map.mp hmem
  exact (h e he).1 (by rw [hname]; rfl)

/-- A slot without a name has no kernel: the name that is looked up is empty. -/
theorem returns_lookupKernel_nameless (h : Holds w env xs) (hnone : varsOf xs nameless = none) :
    Returns (lookupKernel env nameless.obj) w fun r w' =>
      r = {} ∧ Holds w' env xs ∧ w'.heap = w.heap := by
  have hkey : slotKey "x.kernel_lba" nameless.obj =
      (pure (nameless.obj ++ (lit "x.kernel_lba").drop 1 ++ List.replicate 19 0#8) : M _) := rfl
  rw [lookupKernel, returns_bind, hkey, returns_pure, returns_bind]
  rw [List.append_assoc]
  refine (returns_getenvOrCleanup_heap (n := nameless) h _).mono ?_
  rintro _ w₁ ⟨⟨rfl, -, hw₁⟩, hheap⟩
  rw [hnone] at hheap ⊢
  exact returns_pure.mpr ⟨rfl, hw₁, hheap⟩

/-! ## The failback branch -/

/-- **The slot `o`** is made the active one, by three assignments. -/
theorem returns_revertSlot_to {behind : List Byte} {o : CStr} (h : Holds w env xs)
    (ho : ∀ c, slot.obj.head? = some c → (poke (slot.obj ++ behind) 0
      (if c = chr 'a' then chr 'b' else chr 'a')).bind cstring = some o.obj) :
    Returns (revertSlot env slot.obj behind) w fun r w' =>
      (r.2 = o.obj ∧ r.1.envSize = env.envSize ∧ SameDevice w w' ∧
        Holds w' r.1 (assigns (revertTo o).updates xs)) ∧
        w'.heap = w.heap + setsUse (revertTo o).updates xs := by
  obtain ⟨c, l, hobj⟩ := List.exists_cons_of_ne_nil slot.obj_ne_nil
  have hpoke := ho c (by rw [hobj, List.head?_cons])
  have hderef {Q : Byte → World → Prop} {w : World} : Returns (deref slot.obj) w Q ↔ Q c w := by
    rw [hobj, returns_deref_cons]
  have hq := quiet_say w ⟨"Slot %s didn't validate, so reverting back...", [.str slot.obj]⟩
  have hsets := returns_ubootEnvSetenvs_heap (revertTo o).updates (h.quiet hq)
  simp only [revertTo, ubootEnvSetenvs, returns_bind, returns_pure] at hsets
  simp only [revertSlot, returns_bind, returns_info, hderef, returns_pure, returns_access hpoke,
    true_and]
  refine hsets.mono fun _ _ h₁ => h₁.mono fun _ _ h₂ => h₂.mono ?_
  rintro r w' ⟨⟨henv, hdev, hw'⟩, hheap⟩
  exact ⟨⟨henv, hq.toSameDevice.trans hdev, hw'⟩, hheap⟩

/-- **The other slot** of one with a name. -/
theorem returns_revertSlot_heap (h : Holds w env xs) (hslot : slot.bytes ≠ [])
    (behind : List Byte) :
    Returns (revertSlot env slot.obj behind) w fun r w' =>
      (r.2 = (otherSlot slot).obj ∧ r.1.envSize = env.envSize ∧ SameDevice w w' ∧
        Holds w' r.1 (assigns (revert slot).updates xs)) ∧
        w'.heap = w.heap + setsUse (revert slot).updates xs := by
  obtain ⟨c, l, hs, -⟩ := CStr.exists_cons hslot
  refine returns_revertSlot_to h fun c' hc' => ?_
  rw [CStr.obj, hs, List.cons_append, List.head?_cons] at hc'
  exact Option.some.inj hc' ▸ poke_otherSlot hs behind

/-- **The other slot** of one without a name. -/
theorem returns_revertSlot_nameless (h : Holds w env xs) (slack : ℕ → Byte) :
    Returns (revertSlot env nameless.obj (padding slack nameless.obj.length ++ text1.obj)) w
      fun r w' => (r.2 = (otherThanNameless slack).obj ∧ r.1.envSize = env.envSize ∧
        SameDevice w w' ∧ Holds w' r.1 (assigns (revertTo (otherThanNameless slack)).updates xs)) ∧
        w'.heap = w.heap + setsUse (revertTo (otherThanNameless slack)).updates xs := by
  refine returns_revertSlot_to h fun c hc => ?_
  obtain rfl : 0#8 = c := Option.some.inj hc
  have hpoke : poke (nameless.obj ++ (padding slack nameless.obj.length ++ text1.obj)) 0
      (if (0#8 : Byte) = chr 'a' then chr 'b' else chr 'a')
      = some (chr 'a' :: (padding slack nameless.obj.length ++ text1.obj)) := rfl
  rw [hpoke, Option.bind_some, otherThanNameless]
  exact cstring_eq (by simp [CStr.obj])

/-- **The slot is tried**: one assignment. -/
theorem returns_trySlot_heap (h : Holds w env xs) :
    Returns (trySlot env slot.obj) w fun r w' =>
      (r.2 = slot.obj ∧ r.1.envSize = env.envSize ∧ SameDevice w w' ∧
        Holds w' r.1 (assigns (try1 slot).updates xs)) ∧
        w'.heap = w.heap + setsUse (try1 slot).updates xs := by
  refine (returns_trySlot h).and ?_
  have hq := quiet_say w ⟨"Trying slot %s for the first time...", [.str slot.obj]⟩
  simp only [trySlot, returns_bind, returns_info, returns_pure]
  exact (returns_ubootEnvSetenv_heap (n := bootcount) (v := .lit "1") (h.quiet hq)).mono
    fun _ _ hr => hr.2

/-! ## The block that goes back -/

theorem keepsHeap_doVirtioBlkIo (type : BitVec 32) (lba : BitVec 64) (len : BitVec 32)
    (buffer : List Byte) : KeepsHeap (doVirtioBlkIo type lba len buffer) := by
  intro w
  rw [doVirtioBlkIo]
  refine ends_ite.mpr ?_
  split
  · exact KeepsHeap.throw (α := ℤ × List Byte) .fault w
  · rw [ends_bind, ends_observe, ends_bind, ends_get]
    dsimp only
    split
    · exact ends_throw.mpr rfl
    · rw [ends_bind, ends_set, ends_ite]
      split
      · exact ends_bind.mpr (ends_throw.mpr rfl)
      · exact ends_bind.mpr (ends_observe.mpr (ends_pure.mpr rfl))

/-- **The write** of the environment allocates for its sort only. -/
theorem ends_writeBack_heap (h : Holds w env xs) (henv : env.envSize = ubootEnvSize) :
    Ends (writeBack env buffer) w (fun _ w' => w'.heap = w.heap + sortUse xs)
      fun _ w' => w'.heap ≤ w.heap + sortUse xs := by
  have hreport (failed : Bool) (env : UbootEnv) : KeepsHeap (do
      if failed then info "Failed to write u-boot environment after failback!!" []
      return env) :=
    .ite (.bind (.info _ _) fun _ => .pure _) (.pure _)
  rw [writeBack, ends_bind]
  refine (ends_ubootEnvWrite_heap h (henv ▸ by decide)).mono ?_ fun _ _ hw' => hw'
  rintro ⟨rc, env₁, buffer₁⟩ w₁ hw₁
  have hrest : KeepsHeap (do
      observe (.ubootEnvWrite rc)
      let failed ← if rc < 0 then pure true else
        (fun rc => decide (rc < 0)) <$>
          virtioBlkWrite ubootEnvLba (BitVec.ofNat 32 ubootEnvSize) buffer₁
      if failed then info "Failed to write u-boot environment after failback!!" []
      return env₁) :=
    .bind (.observe _) fun _ => .ite (.bind (.pure _) fun _ => hreport _ _)
      (.bind (.map (.bind (keepsHeap_doVirtioBlkIo _ _ _ _) fun _ => .pure _)) fun _ => hreport _ _)
  exact (hrest w₁).mono (fun _ _ hw' => hw'.trans hw₁) fun _ _ hw' => (hw'.trans hw₁).le

/-! ## The check -/

/-- **The end of the failback check**, as far as the heap is concerned. -/
inductive CheckEnd (slack : ℕ → Byte) (env : UbootEnv) (xs : List Entry) (w w' : World) :
    Option (UbootEnv × List Byte) → Prop
  | cleanup (hnone : verdictOn slack (varsOf xs) = none) (hholds : Holds w' env xs)
      (hheap : w'.heap = w.heap + bootcountUse (varsOf xs)) : CheckEnd slack env xs w w' none
  | decided (d : Verdict) (hd : verdictOn slack (varsOf xs) = some d) (env' : UbootEnv)
      (ys : List Entry) (hys : varsOf ys = setVars d.updates (varsOf xs))
      (hholds : Holds w' env' ys)
      (hheap : w'.heap = w.heap + bootcountUse (varsOf xs) + updateUse d xs) :
      CheckEnd slack env xs w w' (some (env', d.slot.obj))

/-- The failback check stops in the driver. -/
structure CheckStop (slack : ℕ → Byte) (xs : List Entry) (d : Verdict) (w w' : World) : Prop where
  verdict : verdictOn slack (varsOf xs) = some d
  hangs : Hangs w.completions
  heap : w'.heap ≤ w.heap + bootcountUse (varsOf xs) + updateUse d xs

/-- **The block goes back** with what an upgrade assigns. -/
theorem ends_checkFailback_write {d : Verdict} {set : M (UbootEnv × List Byte)}
    (hd : verdictOn slack (varsOf xs) = some d) (hne : d.updates ≠ [])
    (henv : env.envSize = ubootEnvSize) (hbuffer : buffer.length = ubootEnvSize)
    (hcompletions : w₁.completions = w.completions)
    (hheap : w₁.heap = w.heap + bootcountUse (varsOf xs))
    (hset : Returns set w₁ fun r w' => (r.2 = d.slot.obj ∧ r.1.envSize = env.envSize ∧
      SameDevice w₁ w' ∧ Holds w' r.1 (assigns d.updates xs)) ∧
        w'.heap = w₁.heap + setsUse d.updates xs) :
    Ends (do
        let (env, activeSlot) ← set
        let env ← writeBack env buffer
        return some (env, activeSlot)) w₁ (fun r w' => CheckEnd slack env xs w w' r)
      fun _ w' => ∃ d, CheckStop slack xs d w w' := by
  refine hset.ends_bind ?_
  rintro ⟨env₁, _⟩ w₂ ⟨⟨rfl, henv₁, hdev, hw₂⟩, hheap₂⟩
  have hupdate : w₂.heap + sortUse (assigns d.updates xs) =
      w.heap + bootcountUse (varsOf xs) + updateUse d xs := by
    rw [hheap₂, hheap, updateUse, if_neg hne, ← Nat.add_assoc]
  rw [ends_bind]
  refine ((ends_writeBack hw₂ hne (henv₁.trans henv) hbuffer).and
    (ends_writeBack_heap hw₂ (henv₁.trans henv))).mono ?_ ?_
  · rintro env₂ w₃ ⟨⟨-, ys, hw₃, hys⟩, hheap₃⟩
    exact ends_pure.mpr
      (.decided d hd env₂ ys (hys.trans varsOf_assigns) hw₃ (hheap₃.trans hupdate))
  · rintro e w₃ ⟨hstuck, hheap₃⟩
    exact ⟨d, hd, (hdev.completions.trans hcompletions) ▸ hstuck.hangs, hheap₃.trans hupdate.le⟩

theorem ends_checkFailback_heap (h : Holds w env xs) (henv : env.envSize = ubootEnvSize)
    (hbuffer : buffer.length = ubootEnvSize) (hactive : varsOf xs nervesFwActive = some slot)
    (havailable : varsOf xs upgradeAvailable = some available) :
    Ends (checkFailback slack env buffer slot.obj available.obj) w
      (fun r w' => CheckEnd slack env xs w w' r) fun _ w' => ∃ d, CheckStop slack xs d w w' := by
  obtain ⟨r, hr, hr₀, -⟩ := strcmp_obj available (.lit "1")
  rw [CStr.obj_lit] at hr
  rw [checkFailback, ends_bind, ends_access hr]
  by_cases hone : available = text1
  · subst hone
    have hverdict := verdict_of_upgrade hactive havailable
    have huse : bootcountUse (varsOf xs) = answerUse (varsOf xs bootcount) := if_pos havailable
    rw [if_pos (hr₀.mpr rfl)]
    refine (returns_getenvOrCleanup_heap (n := bootcount) h []).ends_bind ?_
    rintro _ w₁ ⟨⟨rfl, hlog, hw₁⟩, hheap⟩
    rw [← huse] at hheap
    cases hcount : varsOf xs bootcount with
    | none =>
        have hnamed : ¬ RevertsNameless (varsOf xs) := fun h₁ =>
          absurd (hcount.symm.trans h₁.2.2) (Option.some_ne_none _).symm
        rw [hcount] at hverdict
        exact ends_pure.mpr (.cleanup ((verdictOn_of_named hnamed).trans hverdict) hw₁ hheap)
    | some count =>
        rw [hcount, Option.map_some] at hverdict
        obtain ⟨r', hr', hr'₀, -⟩ := strcmp_obj count (.lit "1")
        rw [CStr.obj_lit] at hr'
        simp only [Option.map_some]
        rw [ends_bind, ends_access hr']
        by_cases hnameless : RevertsNameless (varsOf xs)
        · obtain rfl : slot = nameless := Option.some.inj (hactive.symm.trans hnameless.1)
          obtain rfl : count = text1 := Option.some.inj (hcount.symm.trans hnameless.2.2)
          rw [if_pos (hr'₀.mpr rfl)]
          exact ends_checkFailback_write (if_pos hnameless) (List.cons_ne_nil _ _) henv hbuffer
            hlog.completions hheap (returns_revertSlot_nameless hw₁ slack)
        · have hd : verdictOn slack (varsOf xs) = some (upgradeVerdict slot count) :=
            (verdictOn_of_named hnameless).trans hverdict
          by_cases h1 : count = text1
          · have hslot : slot.bytes ≠ [] := fun hnil =>
              hnameless ⟨hactive.trans (congrArg some (CStr.ext hnil)), havailable, h1 ▸ hcount⟩
            rw [upgradeVerdict, if_pos h1] at hd
            rw [if_pos (hr'₀.mpr h1)]
            exact ends_checkFailback_write hd (List.cons_ne_nil _ _) henv hbuffer
              hlog.completions hheap (returns_revertSlot_heap hw₁ hslot _)
          · rw [upgradeVerdict, if_neg h1] at hd
            rw [if_neg (mt hr'₀.mp h1)]
            exact ends_checkFailback_write hd (List.cons_ne_nil _ _) henv hbuffer
              hlog.completions hheap (returns_trySlot_heap hw₁)
  · have hne : ¬ varsOf xs upgradeAvailable = some text1 := fun h₁ =>
      hone (Option.some.inj (havailable.symm.trans h₁))
    have hnamed : ¬ RevertsNameless (varsOf xs) := fun h' => hne h'.2.1
    rw [if_neg (mt hr₀.mp hone)]
    refine ends_pure.mpr (.decided ⟨slot, []⟩
      ((verdictOn_of_named hnamed).trans (verdict_of_ne hactive havailable hone)) env xs ?_ h ?_)
    · funext n
      simp [setVars]
    · simp [bootcountUse, updateUse, hne]

/-! ## The block -/

/-- **The end of a boot**, as far as the heap is concerned: the arguments of the kernel are a copy
of the variable's value, on the heap. -/
structure HeapEnd (slack : ℕ → Byte) (es : List Entry) (w w' : World) (config : BootConfig) :
    Prop where
  heap : w'.heap = w.heap + blockUse slack es
  args : ∀ args, config.kernelArgs = some args → ∃ d v,
    verdictOn slack (varsOf es.reverse) = some d ∧
      varsOf es.reverse (kernelArgs d.slot) = some v ∧ args = v.obj

theorem verdictUse_of_none (h : verdictOn slack (varsOf xs) = none) : verdictUse slack xs = 0 := by
  rw [verdictUse, h, Option.elim_none]

theorem verdictUse_of_some (h : verdictOn slack (varsOf xs) = some d) :
    verdictUse slack xs = updateUse d xs + kernelUse (setVars d.updates (varsOf xs)) d.slot := by
  rw [verdictUse, h, Option.elim_some]

/-- Without one of the variables there is no verdict. -/
theorem verdictOn_eq_none {f : Vars} (h : verdict f = none)
    (hnone : f nervesFwActive = none ∨ f upgradeAvailable = none) : verdictOn slack f = none := by
  have hnamed : ¬ RevertsNameless f := by
    rintro ⟨hactive, havailable, -⟩
    rcases hnone with hnone | hnone
    · exact absurd (hnone.symm.trans hactive) (Option.some_ne_none _).symm
    · exact absurd (hnone.symm.trans havailable) (Option.some_ne_none _).symm
  exact (verdictOn_of_named hnamed).trans h

/-- **The kernel of any slot** is looked up. -/
theorem returns_lookupKernel_verdict (h : Holds w env xs) (hslot : slot.bytes = [] →
    varsOf xs nameless = none) :
    Returns (lookupKernel env slot.obj) w fun r w' =>
      ((∃ ys, Holds w' env ys) ∧ w'.heap = w.heap + kernelUse (varsOf xs) slot) ∧
        ∀ args, r.kernelArgs = some args → slot.bytes ≠ [] ∧
          ∃ v, varsOf xs (kernelArgs slot) = some v ∧ args = v.obj := by
  by_cases hnil : slot.bytes = []
  · obtain rfl : slot = nameless := CStr.ext hnil
    refine (returns_lookupKernel_nameless h (hslot hnil)).mono ?_
    rintro _ w' ⟨rfl, hw', hheap⟩
    rw [kernelUse, if_pos hnil]
    exact ⟨⟨⟨_, hw'⟩, hheap⟩, fun _ h => absurd h.symm (Option.some_ne_none _)⟩
  · refine (returns_lookupKernel_heap h hnil).mono ?_
    rintro _ w' ⟨⟨rfl, -, hw'⟩, hheap⟩
    refine ⟨⟨⟨_, hw'⟩, hheap⟩, fun args hargs => ⟨hnil, ?_⟩⟩
    unfold kernelConfig at hargs
    split at hargs
    · exact absurd hargs.symm (Option.some_ne_none _)
    · obtain ⟨v, hv, rfl⟩ := Option.map_eq_some_iff.mp hargs
      exact ⟨v, hv, rfl⟩

/-- **The heap of a boot**, for every block that is accepted. -/
theorem ends_processBlock_heap {block : List Byte} (h : Holds w env zs)
    (henv : env.envSize = ubootEnvSize) (hlen : block.length = ubootEnvSize)
    (hes : IsBlock block es) :
    Ends (processBlock slack env block) w
      (fun r w' => HeapEnd slack es w w' r.1 ∧ ∃ ys, Holds w' r.2 ys)
      fun _ w' => w'.heap ≤ w.heap + blockUse slack es ∧
        (¬ Hangs w.completions → w'.heap = w.heap + blockUse slack es) := by
  refine (returns_ubootEnvRead_heap h
    ⟨hlen.trans henv.symm, henv ▸ by decide, henv ▸ le_ptrdiffMax (by decide)⟩ hes).ends_bind ?_
  rintro ⟨rc, env₁⟩ w₁ ⟨⟨rfl, henv₁, hdev, hw₁⟩, hheap₁⟩
  dsimp only at henv₁ hw₁ ⊢
  rw [ends_bind, ends_observe, if_neg (by decide)]
  refine (returns_getenvOrCleanup_heap (n := nervesFwActive) hw₁.observe []).ends_bind ?_
  rintro _ w₂ ⟨⟨rfl, hlog₂, hw₂⟩, hheap₂⟩
  rw [World.observe_heap, hheap₁] at hheap₂
  have hvalid : varsOf es.reverse nameless = none :=
    lookup_nameless fun e he => hes.payload.valid e (List.mem_reverse.mp he)
  cases hactive : varsOf es.reverse nervesFwActive with
  | none =>
      have hnone : verdictOn slack (varsOf es.reverse) = none :=
        verdictOn_eq_none (by simp [verdict, hactive]) (.inl hactive)
      refine ends_pure.mpr ⟨⟨?_, fun _ h => absurd h.symm (Option.some_ne_none _)⟩, _, hw₂⟩
      rw [hheap₂, blockUse, verdictUse_of_none hnone]
      simp [checkUse, hactive, Nat.add_assoc]
  | some slot =>
      refine (returns_getenvOrCleanup_heap (n := upgradeAvailable) hw₂ []).ends_bind ?_
      rintro _ w₃ ⟨⟨rfl, hlog₃, hw₃⟩, hheap₃⟩
      have hcheck : w₃.heap + bootcountUse (varsOf es.reverse)
          = w.heap + (readUse es + checkUse (varsOf es.reverse)) := by
        rw [hheap₃, hheap₂, checkUse, if_neg (hactive ▸ Option.some_ne_none slot)]
        simp only [Nat.add_assoc]
      cases havailable : varsOf es.reverse upgradeAvailable with
      | none =>
          have hnone : verdictOn slack (varsOf es.reverse) = none :=
            verdictOn_eq_none (by simp [verdict, hactive, havailable]) (.inr havailable)
          have hcount : bootcountUse (varsOf es.reverse) = 0 := by simp [bootcountUse, havailable]
          refine ends_pure.mpr ⟨⟨?_, fun _ h => absurd h.symm (Option.some_ne_none _)⟩, _, hw₃⟩
          rw [hcount, Nat.add_zero] at hcheck
          rw [hcheck, blockUse, verdictUse_of_none hnone, Nat.add_zero]
      | some available =>
          have hcompletions : w₃.completions = w.completions :=
            hlog₃.completions.trans (hlog₂.completions.trans hdev.completions)
          refine ends_bind.mpr ((ends_checkFailback_heap hw₃ (henv₁.trans henv) hlen hactive
            havailable).mono ?_ ?_)
          · rintro _ w₄ (⟨hnone, hw₄, hheap₄⟩ | ⟨d, hd, env₂, ys, hys, hw₄, hheap₄⟩)
            · refine ends_pure.mpr ⟨⟨?_, fun _ h => absurd h.symm (Option.some_ne_none _)⟩, _, hw₄⟩
              rw [hheap₄, hcheck, blockUse, verdictUse_of_none hnone, Nat.add_zero]
            · have hnone : d.slot.bytes = [] → varsOf ys nameless = none := fun _ => by
                rw [hys, setVars_of_verdictOn hd (by decide), hvalid]
              refine (returns_lookupKernel_verdict hw₄ hnone).ends_bind ?_
              rintro config w₅ ⟨⟨hw₅, hheap₅⟩, hargs⟩
              refine ends_pure.mpr ⟨⟨?_, fun args h => ?_⟩, hw₅⟩
              · rw [hheap₅, hheap₄, hcheck, hys, blockUse, verdictUse_of_some hd]
                simp only [Nat.add_assoc]
              · obtain ⟨hne, v, hv, rfl⟩ := hargs args h
                rw [hys, setVars_of_verdictOn hd (kernelArgs_notMem hne)] at hv
                exact ⟨d, v, hd, hv, rfl⟩
          · rintro _ w₄ ⟨d, hd, hhangs, hheap₄⟩
            rw [hcheck, Nat.add_assoc] at hheap₄
            refine ⟨hheap₄.trans ?_, fun h => absurd (hcompletions ▸ hhangs) h⟩
            rw [blockUse, verdictUse_of_some hd]
            omega

/-! ## The heap and the kernel -/

section Clear

variable {stackTop : ℕ} {disk : Disk} {completions : List Completion} {config : BootConfig}

/-- The bytes of an object at `addr`, once `load_kernel` has left `kernelBase` from
`KERNEL_LOAD_ADDR` on. -/
def afterLoad (kernelBase : List Byte) (addr : ℕ) (obj : List Byte) : List Byte :=
  obj.mapIdx fun i b =>
    if addr + i < kernelLoadAddr then b else kernelBase[addr + i - kernelLoadAddr]?.getD b

/-- An object below the kernel is not overwritten. -/
theorem afterLoad_of_le {addr : ℕ} {obj kernelBase : List Byte}
    (h : addr + obj.length ≤ kernelLoadAddr) : afterLoad kernelBase addr obj = obj := by
  refine List.ext_getElem (by simp [afterLoad]) fun i _ hi => ?_
  have hlt : addr + i < kernelLoadAddr := by omega
  simp [afterLoad, hlt]

/-- **The heap stays below the kernel**: what `malloc_` has handed out is below its top, so every
region ends at or below `KERNEL_LOAD_ADDR`; and wherever on the heap the arguments are, once the
kernel is loaded they still are the value of the slot's variable. -/
structure KernelClear (slack : ℕ → Byte) (es : List Entry) (config : BootConfig) (w' : World) :
    Prop where
  heap : w'.heap ≤ kernelLoadAddr
  args : ∀ args, config.kernelArgs = some args → ∃ d v,
    verdictOn slack (varsOf es.reverse) = some d ∧
    varsOf es.reverse (kernelArgs d.slot) = some v ∧ ∀ kernelBase addr,
      addr + args.length ≤ w'.heap → afterLoad kernelBase addr args = v.obj

/-- **The heap and the kernel never overlap**, whatever the device does: neither if the boot returns
nor if it stops. -/
def HeapClear (slack : ℕ → Byte) (stackTop : ℕ) (disk : Disk) (es : List Entry) : Prop :=
  ∀ completions, Ends (processUbootEnv slack) (.powerOn stackTop disk completions)
    (fun config w' => KernelClear slack es config w') fun _ w' => w'.heap ≤ kernelLoadAddr

/-- **The heap of a boot**, from power-on to its end. -/
theorem ends_processUbootEnv_heap (hes : IsBlock (envBlock disk) es) :
    Ends (processUbootEnv slack) (.powerOn stackTop disk completions)
      (fun config w' => w'.heap = stackTop + bootUse slack es ∧ ∀ args,
        config.kernelArgs = some args → ∃ d v, verdictOn slack (varsOf es.reverse) = some d ∧
          varsOf es.reverse (kernelArgs d.slot) = some v ∧ args = v.obj)
      fun _ w' => w'.heap ≤ stackTop + bootUse slack es ∧ ((∀ c cs, completions = c :: cs →
        c.status = 0#8 ∧ ¬ Hangs cs) → completions ≠ [] →
          w'.heap = stackTop + bootUse slack es) := by
  have hstart : stackTop + bootUse slack es = stackTop + ubootEnvSize + blockUse slack es := by
    rw [bootUse, ← Nat.add_assoc]
    rfl
  rw [hstart]
  refine ends_processUbootEnv (fun c cs hc hstatus => ?_) fun e w' hunread hheap => ?_
  · have hinit : Holds (afterRead stackTop disk cs) (ubootEnvInit ubootEnvSize) [] :=
      .init _ fun _ _ => rfl
    refine (ends_processBlock_heap hinit rfl (length_envBlock _) hes).mono ?_ ?_
    · rintro r w' ⟨hend, hys⟩
      exact ⟨⟨hend.heap, hend.args⟩, hys⟩
    · rintro e w' ⟨hle, heq⟩
      exact ⟨hle, fun h _ => heq (h c cs hc).2⟩
  · refine ⟨hheap.le.trans (Nat.le_add_right _ _), fun h hne => ?_⟩
    obtain ⟨c, cs, rfl⟩ := List.exists_cons_of_ne_nil hne
    exact absurd (h c cs rfl).1 (hunread.status c rfl)

/-- **The heap and the kernel never overlap exactly if** there is room for what the boot allocates:
its size is `bootUse` of the entries, and nothing checks it. -/
theorem heapClear_iff (hes : IsBlock (envBlock disk) es) :
    HeapClear slack stackTop disk es ↔ stackTop + bootUse slack es ≤ kernelLoadAddr := by
  constructor
  · intro h
    -- a device that carries out both requests lets the boot allocate all of it
    have hends := (h [⟨0#8, fun _ => 0#8⟩, ⟨0#8, fun _ => 0#8⟩]).and
      (ends_processUbootEnv_heap hes)
    have hdevice : ∀ c cs, [⟨0#8, fun _ => 0#8⟩, ⟨0#8, fun _ => 0#8⟩] = c :: cs →
        c.status = 0#8 ∧ ¬ Hangs cs := by
      intro c cs hc
      obtain ⟨rfl, rfl⟩ := List.cons.inj hc
      exact ⟨rfl, by simp [Hangs]⟩
    obtain ⟨w', hheap, hle⟩ : ∃ w' : World, w'.heap = stackTop + bootUse slack es ∧
        w'.heap ≤ kernelLoadAddr :=
      (hends.mono (fun _ w' hw' => ⟨w', hw'.2.1, hw'.1.heap⟩) fun _ w' hw' =>
        ⟨w', hw'.2.2 hdevice (List.cons_ne_nil _ _), hw'.1⟩).const
    exact hheap ▸ hle
  · intro h completions
    refine (ends_processUbootEnv_heap hes).mono ?_ fun _ _ hw' => hw'.1.trans h
    rintro config w' ⟨hheap, hargs⟩
    refine ⟨hheap ▸ h, fun args hargs' => ?_⟩
    obtain ⟨d, v, hd, hv, rfl⟩ := hargs args hargs'
    exact ⟨d, v, hd, hv, fun kernelBase addr haddr => afterLoad_of_le (haddr.trans (hheap ▸ h))⟩

/-- An upgrade that is reverted, on a machine with its heap right behind a small image. -/
theorem heapClear_iff_upgrade :
    HeapClear (fun _ => 0#8) 0x40001000 (diskOf (upgradeEntries text1)) (upgradeEntries text1) := by
  have hes : IsBlock (envBlock (diskOf (upgradeEntries text1))) (upgradeEntries text1) :=
    isBlock_diskOf (by decide) (by decide)
  exact (heapClear_iff hes).mpr (by decide)

/-! ## A block with many small entries -/

theorem length_encode_replicate (k : ℕ) (e : Entry) :
    (encode (List.replicate k e)).length = k * e.encode.length := by
  simp [encode, List.length_flatMap]

theorem readUse_append (es fs : List Entry) : readUse (es ++ fs) = readUse es + readUse fs := by
  simp [readUse]

theorem readUse_replicate (k : ℕ) (e : Entry) : readUse (List.replicate k e) = k * e.use := by
  simp [readUse]

/-- An upgrade, and `k` entries of three bytes. -/
def crowdedEntries (k : ℕ) : List Entry :=
  List.replicate k (slotA, nameless) ++ upgradeEntries text1

theorem isBlock_crowdedEntries {k : ℕ} (hk : k ≤ 43000) :
    IsBlock (envBlock (diskOf (crowdedEntries k))) (crowdedEntries k) := by
  refine isBlock_diskOf ?_ ?_
  · have hupgrade : (encode (upgradeEntries text1)).length = 51 := by decide
    have hentry : (Entry.encode (slotA, nameless)).length = 3 := by decide
    rw [Fits, crowdedEntries, encode_append, List.length_append, length_encode_replicate, hentry,
      hupgrade, ubootEnvSize]
    omega
  · intro e he
    rcases List.mem_append.mp he with he | he
    · rw [List.eq_of_mem_replicate he]
      decide
    · have hvalid : ∀ e ∈ upgradeEntries text1, ValidName e.1 := by decide
      exact hvalid e he

/-- **Each small entry** takes 40 bytes of the heap, and 8 more in the sort. -/
theorem le_bootUse_crowdedEntries (slack : ℕ → Byte) (k : ℕ) :
    allocated ubootEnvSize + 48 * k ≤ bootUse slack (crowdedEntries k) := by
  have huse : Entry.use (slotA, nameless) = 40 := by decide
  have hread : 40 * k ≤ readUse (crowdedEntries k) := by
    rw [crowdedEntries, readUse_append, readUse_replicate, huse]
    omega
  have hvars (n v : CStr) (hv : (upgradeEntries text1).reverse.lookup n = some v) :
      varsOf (crowdedEntries k).reverse n = some v := by
    rw [varsOf, crowdedEntries, List.reverse_append, List.lookup_append, hv, Option.some_or]
  have hactive : varsOf (crowdedEntries k).reverse nervesFwActive = some slotA :=
    hvars _ _ (by decide)
  have hverdict : verdict (varsOf (crowdedEntries k).reverse) = some (revert slotA) := by
    rw [verdict_of_upgrade hactive (hvars _ _ (by decide)), hvars bootcount text1 (by decide)]
    rfl
  have hnamed : ¬ RevertsNameless (varsOf (crowdedEntries k).reverse) := fun h =>
    absurd (hactive.symm.trans h.1) (by decide)
  have hlen : k ≤ (assigns (revert slotA).updates (crowdedEntries k).reverse).length := by
    refine le_trans ?_ length_le_assigns
    rw [List.length_reverse, crowdedEntries, List.length_append, List.length_replicate]
    exact Nat.le_add_right _ _
  have hupdate : 8 * k ≤ updateUse (revert slotA) (crowdedEntries k).reverse := by
    rw [updateUse, if_neg (by decide), sortUse, allocated]
    omega
  rw [bootUse, blockUse, verdictUse_of_some ((verdictOn_of_named hnamed).trans hverdict)]
  omega

/-- **The heap runs into the kernel**, even from the lowest address on that it can have. -/
theorem not_heapClear_crowdedEntries :
    IsBlock (envBlock (diskOf (crowdedEntries 41000))) (crowdedEntries 41000) ∧
      ∀ slack, ¬ HeapClear slack 0x40001000 (diskOf (crowdedEntries 41000))
        (crowdedEntries 41000) := by
  have hes := isBlock_crowdedEntries (k := 41000) (by decide)
  refine ⟨hes, fun slack h => ?_⟩
  have hle := (heapClear_iff hes).mp h
  have huse := le_bootUse_crowdedEntries slack 41000
  have hbuffer : allocated ubootEnvSize = 131072 := by decide
  rw [hbuffer] at huse
  rw [kernelLoadAddr] at hle
  omega

end Clear

end LittleLoader
