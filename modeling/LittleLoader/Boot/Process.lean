import LittleLoader.Block.Read
import LittleLoader.Block.Write
import LittleLoader.Boot.Device
import LittleLoader.Boot.Plan

/-!
# Boot/Process — a boot, from the block on the disk to the kernel

    read, check, (write back,) look the kernel up

`ends_processUbootEnv` describes every run of `process_uboot_env` on a block that is accepted: what
it returns, what it asks for and what it hands to the device are those of the `verdict`.
-/

namespace LittleLoader

variable {w w₁ w' : World} {env env' : UbootEnv} {xs ys es : List Entry} {buffer : List Byte}
  {slack : ℕ → Byte} {n slot available count : CStr} {d : Verdict} {evs pre post : List Event}

/-- Only the memory matters. -/
theorem Holds.memory (h : Holds w env xs) (hnodes : w'.nodes = w.nodes) (hheap : w'.heap = w.heap) :
    Holds w' env xs :=
  ⟨hnodes ▸ h.list, fun a ha => hnodes ▸ h.fresh a (hheap ▸ ha)⟩

/-! ## Lookups -/

/-- **A call of `uboot_env_getenv`** is answered from the list, and leaves one step. -/
theorem returns_getenv (h : Holds w env xs) (rest : List Byte) :
    Returns (getenv env (n.obj ++ rest)) w fun r w' =>
      r = answer (varsOf xs n) ∧ Logs [asks (varsOf xs) n] w w' ∧ Holds w' env xs := by
  rw [getenv, returns_bind]
  refine (returns_ubootEnvGetenv_append h rest).mono ?_
  rintro ⟨rc, value⟩ w₁ ⟨hr, hq⟩
  have hchars : chars (n.obj ++ rest) = n.bytes := by
    rw [CStr.obj, List.append_assoc]
    exact chars_append n.nul_notMem
  simp only [returns_bind, returns_observe, returns_pure, hchars]
  have hrc : rc = (answer (varsOf xs n)).1 := congrArg Prod.fst hr
  rw [hrc]
  exact ⟨hrc ▸ hr, hq.toSameDevice.logs.trans (logs_observe _ _), (h.quiet hq).observe⟩

/-- The jump to `cleanup` is taken exactly if the variable is missing. -/
theorem returns_getenvOrCleanup_append (h : Holds w env xs) (rest : List Byte) {fmt : String}
    {args : List Arg} :
    Returns (getenvOrCleanup env (n.obj ++ rest) fmt args) w fun r w' =>
      r = (varsOf xs n).map CStr.obj ∧ Logs [asks (varsOf xs) n] w w' ∧ Holds w' env xs := by
  rw [getenvOrCleanup, returns_bind]
  refine (returns_getenv h rest).mono ?_
  rintro ⟨rc, value⟩ w₁ ⟨hr, hlog, hw₁⟩
  cases hv : varsOf xs n with
  | none =>
    obtain ⟨rfl, rfl⟩ : rc = -1 ∧ value = none := by simpa [hv, answer] using hr
    dsimp only
    rw [if_pos (by decide), returns_bind, returns_info, returns_pure]
    have hq := quiet_say w₁ ⟨fmt, args⟩
    exact ⟨rfl, hlog.sameDevice hq.toSameDevice, hw₁.quiet hq⟩
  | some v =>
    obtain ⟨rfl, rfl⟩ : rc = 0 ∧ value = some v.obj := by simpa [hv, answer] using hr
    dsimp only
    rw [if_neg (by decide), returns_bind, returns_access_some, returns_pure]
    exact ⟨rfl, hlog, hw₁⟩

theorem returns_getenvOrCleanup (h : Holds w env xs) {fmt : String} {args : List Arg} :
    Returns (getenvOrCleanup env n.obj fmt args) w fun r w' =>
      r = (varsOf xs n).map CStr.obj ∧ Logs [asks (varsOf xs) n] w w' ∧ Holds w' env xs := by
  simpa only [List.append_nil] using returns_getenvOrCleanup_append h []

/-! ## The kernel -/

/-- `char key[32]` holds the name of the slot's variable, and zeros behind it. -/
theorem returns_slotKey {template : String} {t : CStr} {Q : List Byte → World → Prop}
    (h : slot.bytes ≠ []) (ht : t.obj = lit template) (hne : t.bytes ≠ [])
    (hlen : t.bytes.length < 32) :
    Returns (slotKey template slot.obj) w Q ↔
      Q ((slot.withHead t).obj ++ List.replicate (31 - t.bytes.length) 0#8) w := by
  obtain ⟨c, l, hs, -⟩ := CStr.exists_cons h
  have hobj : slot.obj = c :: (l ++ [0#8]) := by rw [CStr.obj, hs, List.cons_append]
  have hcopy : strcpy (List.replicate 32 0#8) t.obj = some _ := strcpy_obj (by simpa using hlen)
  rw [List.drop_replicate] at hcopy
  rw [slotKey, ← ht, returns_bind, returns_access hcopy, returns_bind, hobj, returns_deref_cons,
    returns_access (poke_obj_head hs hne _)]
  have hrest : 32 - (t.bytes.length + 1) = 31 - t.bytes.length := by omega
  rw [hrest]

/-- **The kernel is looked up** for the slot. -/
theorem returns_lookupKernel (h : Holds w env xs) (hslot : slot.bytes ≠ []) :
    Returns (lookupKernel env slot.obj) w fun r w' =>
      r = kernelConfig (varsOf xs) slot ∧ Logs (kernelSteps (varsOf xs) slot) w w' ∧
        Holds w' env xs := by
  rw [lookupKernel, returns_bind, returns_slotKey (t := .lit "x.kernel_lba") hslot rfl (by decide)
    (by decide), returns_bind]
  refine (returns_getenvOrCleanup_append (n := kernelLba slot) h _).mono ?_
  rintro _ w₁ ⟨rfl, hlog, hw₁⟩
  cases hv : varsOf xs (kernelLba slot) with
  | none =>
    rw [kernelConfig, kernelSteps, hv, if_pos rfl]
    exact returns_pure.mpr ⟨rfl, hlog, hw₁⟩
  | some v =>
    obtain ⟨rest, hx⟩ := strtoull_number v
    simp only [Option.map_some, returns_bind, returns_access hx]
    rw [returns_slotKey (t := .lit "x.kernel_args") hslot rfl (by decide) (by decide)]
    refine (returns_getenv (n := kernelArgs slot) hw₁ _).mono ?_
    rintro ⟨rc, value⟩ w₂ ⟨hr, hlog', hw₂⟩
    simp only [returns_info, returns_pure]
    have hq := quiet_say w₂ ⟨"Booting from slot %s (kernel LBA %lu, kernel_args: %s)",
      [.str slot.obj, .ptr "kernel_lba", .str (value.getD (lit "<none>"))]⟩
    have hvalue : value = (varsOf xs (kernelArgs slot)).map CStr.obj := by
      cases ha : varsOf xs (kernelArgs slot) <;> simp [ha, answer] at hr <;> simp [hr]
    rw [kernelConfig, kernelSteps, hv, if_neg (by simp)]
    exact ⟨by rw [hvalue], (hlog.trans hlog').sameDevice hq.toSameDevice, hw₂.quiet hq⟩

/-! ## The failback branch -/

/-- `active_slot[0]` is overwritten. -/
theorem poke_otherSlot {c : Byte} {l : List Byte} (hs : slot.bytes = c :: l) (behind : List Byte) :
    (poke (slot.obj ++ behind) 0 (if c = chr 'a' then chr 'b' else chr 'a')).bind cstring
      = some (otherSlot slot).obj := by
  have hne : slot.bytes ≠ [] := by simp [hs]
  have hhead : slot.bytes.head? = some c := by rw [hs, List.head?_cons]
  unfold otherSlot
  by_cases hc : c = chr 'a'
  · rw [if_pos hc, if_pos (hc ▸ hhead), poke_obj_head (c := chr 'b') (s := .lit "b") rfl hne,
      Option.bind_some, cstring_obj_append]
  · rw [if_neg hc, if_neg fun h => hc (Option.some.inj (hhead.symm.trans h)),
      poke_obj_head (c := chr 'a') (s := .lit "a") rfl hne, Option.bind_some, cstring_obj_append]

/-- **The other slot** is made the active one. -/
theorem returns_revertSlot (h : Holds w env xs) (hslot : slot.bytes ≠ []) (behind : List Byte) :
    Returns (revertSlot env slot.obj behind) w fun r w' =>
      r.2 = (otherSlot slot).obj ∧ r.1.envSize = env.envSize ∧ SameDevice w w' ∧
        Holds w' r.1 (assigns (revert slot).updates xs) := by
  obtain ⟨c, l, hs, -⟩ := CStr.exists_cons hslot
  have hderef {Q : Byte → World → Prop} {w : World} : Returns (deref slot.obj) w Q ↔ Q c w := by
    rw [CStr.obj, hs, List.cons_append, returns_deref_cons]
  have hq := quiet_say w ⟨"Slot %s didn't validate, so reverting back...", [.str slot.obj]⟩
  have hsets := returns_ubootEnvSetenvs (revert slot).updates (h.quiet hq)
  simp only [revert, ubootEnvSetenvs, returns_bind, returns_pure] at hsets
  simp only [revertSlot, returns_bind, returns_info, hderef, returns_pure,
    returns_access (poke_otherSlot hs behind), true_and]
  refine hsets.mono fun _ _ h₁ => h₁.mono fun _ _ h₂ => h₂.mono ?_
  rintro r w' ⟨henv, hdev, hw'⟩
  exact ⟨henv, hq.toSameDevice.trans hdev, hw'⟩

/-- **The slot is tried**: `bootcount` says so to the next boot. -/
theorem returns_trySlot (h : Holds w env xs) :
    Returns (trySlot env slot.obj) w fun r w' =>
      r.2 = slot.obj ∧ r.1.envSize = env.envSize ∧ SameDevice w w' ∧
        Holds w' r.1 (assigns (try1 slot).updates xs) := by
  have hq := quiet_say w ⟨"Trying slot %s for the first time...", [.str slot.obj]⟩
  simp only [trySlot, returns_bind, returns_info, returns_pure]
  refine (returns_ubootEnvSetenv (n := bootcount) (v := .lit "1") (h.quiet hq)).mono ?_
  rintro ⟨rc, env₁⟩ w₁ ⟨-, henv, hdev, hw₁⟩
  exact ⟨trivial, henv, hq.toSameDevice.trans hdev, hw₁⟩

/-! ## The block that goes back -/

/-- **What becomes of the block on the disk** after a verdict on the entries `xs`: it is kept, the
new entries do not fit, or a block with them is handed to the device.  Before, the steps `pre` are
observed, afterwards the steps `post`. -/
inductive Outcome (xs : List Entry) (d : Verdict) (pre post : List Event) (w w' : World) : Prop
  | kept (hus : d.updates = []) (hlogs : Logs (pre ++ post) w w')
  | noRoom (hus : d.updates ≠ []) (hroom : ¬ Fits ubootEnvSize (assigns d.updates xs))
      (hlogs : Logs (pre ++ .ubootEnvWrite (-1) :: post) w w')
  | saved (hus : d.updates ≠ []) (hroom : Fits ubootEnvSize (assigns d.updates xs))
      (ys : List Entry) (hys : StableSorted (fun e : Entry => e.1.key) (assigns d.updates xs) ys)
      (c : Completion) (hc : ∃ cs, w.completions = c :: cs)
      (hhanded : Handed (pre ++ [.ubootEnvWrite 0]) (writtenBlock ubootEnvSize ys)
        (some (c.code envLen)) post w w')

/-- The device never completes the request for the new block. -/
structure Stuck (xs : List Entry) (d : Verdict) (pre : List Event) (w w' : World) : Prop where
  updates : d.updates ≠ []
  hangs : Hangs w.completions
  handed : ∃ ys, StableSorted (fun e : Entry => e.1.key) (assigns d.updates xs) ys ∧
    Fits ubootEnvSize (assigns d.updates xs) ∧
    Handed (pre ++ [.ubootEnvWrite 0]) (writtenBlock ubootEnvSize ys) none [] w w'

/-- Steps before. -/
theorem Outcome.after (h : Outcome xs d pre post w₁ w') (hlog : Logs evs w w₁) :
    Outcome xs d (evs ++ pre) post w w' := by
  cases h with
  | kept hus hlogs => exact .kept hus (by simpa using hlog.trans hlogs)
  | noRoom hus hroom hlogs => exact .noRoom hus hroom (by simpa using hlog.trans hlogs)
  | saved hus hroom ys hys c hc hhanded =>
    exact .saved hus hroom ys hys c (hlog.completions ▸ hc) (by simpa using hlog.handed hhanded)

/-- Steps afterwards. -/
theorem Outcome.before (h : Outcome xs d pre post w w₁) (hlog : Logs evs w₁ w') :
    Outcome xs d pre (post ++ evs) w w' := by
  cases h with
  | kept hus hlogs => exact .kept hus (by simpa using hlogs.trans hlog)
  | noRoom hus hroom hlogs => exact .noRoom hus hroom (by simpa using hlogs.trans hlog)
  | saved hus hroom ys hys c hc hhanded => exact .saved hus hroom ys hys c hc (hhanded.logs hlog)

theorem Stuck.after (h : Stuck xs d pre w₁ w') (hlog : Logs evs w w₁) :
    Stuck xs d (evs ++ pre) w w' := by
  obtain ⟨hus, hhangs, ys, hys, hroom, hhanded⟩ := h
  exact ⟨hus, hlog.completions ▸ hhangs, ys, hys, hroom, by simpa using hlog.handed hhanded⟩

/-- **The environment goes back to the disk**, sorted, if it fits. -/
theorem ends_writeBack (h : Holds w env (assigns d.updates xs)) (hus : d.updates ≠ [])
    (henv : env.envSize = ubootEnvSize) (hbuffer : buffer.length = ubootEnvSize) :
    Ends (writeBack env buffer) w
      (fun r w' => Outcome xs d [] [] w w' ∧
        ∃ ys, Holds w' r ys ∧ varsOf ys = varsOf (assigns d.updates xs))
      (fun _ w' => Stuck xs d [] w w') := by
  rw [writeBack]
  have hbound : env.envSize ≤ ptrdiffMax := henv ▸ le_ptrdiffMax (by decide)
  refine (returns_ubootEnvWrite h (by rw [henv, hbuffer]) (henv ▸ by decide) hbound).ends_bind ?_
  rintro ⟨rc, env₁, buffer₁⟩ w₁ ⟨-, hdev, ys, hys, hw₁, hfits, hfull⟩
  have hvars : varsOf ys = varsOf (assigns d.updates xs) :=
    funext fun n => lookup_eq_of_filter_eq (hys.filter_name n)
  rw [henv] at hfits hfull
  by_cases hroom : Fits ubootEnvSize (assigns d.updates xs)
  · obtain ⟨rfl, rfl⟩ : rc = 0 ∧ buffer₁ = _ := hfits hroom
    have hlen : (writtenBlock ubootEnvSize ys).length = ubootEnvSize :=
      length_writtenBlock ((fits_iff_of_perm hys.perm).mpr hroom)
    have hlog : Logs [.ubootEnvWrite 0] w (w₁.observe (.ubootEnvWrite 0)) :=
      hdev.logs.trans (logs_observe w₁ _)
    dsimp only
    rw [List.drop_eq_nil_of_le hbuffer.le, List.append_nil, ends_bind, ends_observe,
      if_neg (by decide), ends_bind, ends_map]
    refine (ends_writeBlock _ hlen).mono ?_ ?_
    · rintro rc w₂ ⟨⟨c, cs, hc, rfl⟩, hhanded, hnodes, hheap⟩
      have hw₂ : Holds w₂ env₁ ys := hw₁.observe.memory hnodes hheap
      have hc' : ∃ cs, w.completions = c :: cs := ⟨cs, hlog.completions ▸ hc⟩
      refine Returns.ends ?_
      split
      · have hq := quiet_say w₂ ⟨"Failed to write u-boot environment after failback!!", []⟩
        rw [returns_bind, returns_info, returns_pure]
        exact ⟨.saved hus hroom ys hys c hc' ((hlog.handed hhanded).logs hq.toSameDevice.logs),
          ys, hw₂.quiet hq, hvars⟩
      · rw [returns_pure]
        exact ⟨.saved hus hroom ys hys c hc' (hlog.handed hhanded), ys, hw₂, hvars⟩
    · rintro e w₂ ⟨hhangs, hhanded⟩
      exact ⟨hus, hlog.completions ▸ hhangs, ys, hys, hroom, hlog.handed hhanded⟩
  · obtain rfl : rc = -1 := hfull hroom
    have hlog : Logs [.ubootEnvWrite (-1)] w (w₁.observe (.ubootEnvWrite (-1))) :=
      hdev.logs.trans (logs_observe w₁ _)
    have hq := quiet_say (w₁.observe (.ubootEnvWrite (-1)))
      ⟨"Failed to write u-boot environment after failback!!", []⟩
    refine Returns.ends ?_
    dsimp only
    rw [returns_bind, returns_observe, if_pos (by decide), returns_bind, returns_pure,
      if_pos rfl, returns_bind, returns_info, returns_pure]
    exact ⟨.noRoom hus hroom (hlog.sameDevice hq.toSameDevice), ys, hw₁.observe.quiet hq, hvars⟩

/-! ## The check -/

/-- The lookup that the check makes for an upgrade. -/
def bootcountStep (f : Vars) (available : CStr) : List Event :=
  if available = text1 then [asks f bootcount] else []

/-- **The failback check** follows the verdict. -/
theorem ends_checkFailback (h : Holds w env xs) (henv : env.envSize = ubootEnvSize)
    (hbuffer : buffer.length = ubootEnvSize) (hslot : slot.bytes ≠ [])
    (hactive : varsOf xs nervesFwActive = some slot)
    (havailable : varsOf xs upgradeAvailable = some available) :
    Ends (checkFailback slack env buffer slot.obj available.obj) w
      (fun r w' => (verdict (varsOf xs) = none ∧ r = none ∧
          Logs (bootcountStep (varsOf xs) available) w w' ∧ Holds w' env xs) ∨
        ∃ d env' ys, verdict (varsOf xs) = some d ∧ d.slot.bytes ≠ [] ∧ r = some (env', d.slot.obj) ∧
          Outcome xs d (bootcountStep (varsOf xs) available) [] w w' ∧ Holds w' env' ys ∧
          varsOf ys = setVars d.updates (varsOf xs))
      (fun _ w' => ∃ d, verdict (varsOf xs) = some d ∧
        Stuck xs d (bootcountStep (varsOf xs) available) w w') := by
  obtain ⟨r, hr, hr₀, -⟩ := strcmp_obj available (.lit "1")
  rw [CStr.obj_lit] at hr
  rw [checkFailback, ends_bind, ends_access hr, bootcountStep]
  by_cases hone : available = .lit "1"
  · have hverdict := verdict_of_upgrade hactive (hone ▸ havailable)
    rw [if_pos (hr₀.mpr hone), if_pos hone]
    refine (returns_getenvOrCleanup (n := bootcount) h).ends_bind ?_
    rintro _ w₁ ⟨rfl, hlog, hw₁⟩
    cases hcount : varsOf xs bootcount with
    | none =>
      rw [hcount] at hverdict
      exact (returns_pure.mpr (.inl ⟨hverdict, rfl, hlog, hw₁⟩)).ends
    | some count =>
      rw [hcount] at hverdict
      obtain ⟨r', hr', hr'₀, -⟩ := strcmp_obj count (.lit "1")
      rw [CStr.obj_lit] at hr'
      have hset : Returns (if r' = 0
          then revertSlot env slot.obj (padding slack slot.obj.length ++ available.obj)
          else trySlot env slot.obj) w₁ fun r w' =>
            r.2 = (upgradeVerdict slot count).slot.obj ∧ r.1.envSize = env.envSize ∧
            SameDevice w₁ w' ∧ Holds w' r.1 (assigns (upgradeVerdict slot count).updates xs) := by
        unfold upgradeVerdict
        by_cases h1 : count = .lit "1"
        · rw [if_pos (hr'₀.mpr h1), if_pos h1]
          exact returns_revertSlot hw₁ hslot _
        · rw [if_neg (mt hr'₀.mp h1), if_neg h1]
          exact returns_trySlot hw₁
      simp only [Option.map_some]
      rw [ends_bind, ends_access hr']
      refine hset.ends_ite_bind ?_
      rintro ⟨env₁, _⟩ w₂ ⟨rfl, henv₁, hdev, hw₂⟩
      have hlog' := hlog.sameDevice hdev
      rw [ends_bind]
      refine (ends_writeBack hw₂ upgradeVerdict_updates_ne_nil (henv₁.trans henv) hbuffer).mono
        ?_ ?_
      · rintro env₂ w₃ ⟨hout, ys, hw₃, hys⟩
        refine (returns_pure.mpr (.inr ⟨_, env₂, ys, hverdict, upgradeVerdict_slot_ne_nil hslot,
          rfl, ?_, hw₃, hys.trans varsOf_assigns⟩)).ends
        simpa using hout.after hlog'
      · rintro e w₃ hstuck
        exact ⟨_, hverdict, by simpa using hstuck.after hlog'⟩
  · rw [if_neg (mt hr₀.mp hone), if_neg hone]
    refine (returns_pure.mpr (.inr ⟨⟨slot, []⟩, env, xs, verdict_of_ne hactive havailable hone, hslot,
      rfl, .kept rfl (SameDevice.refl w).logs, h, ?_⟩)).ends
    funext n
    simp [setVars]

/-! ## The block -/

/-- **The end of a boot** on a block that leaves the entries `xs` in the list. -/
inductive BootEnd (xs : List Entry) (w w' : World) : BootConfig → Prop
  | cleanup (hnone : verdict (varsOf xs) = none)
      (hlogs : Logs (.ubootEnvRead 0 :: checkSteps (varsOf xs)) w w') : BootEnd xs w w' {}
  | booted (d : Verdict) (hd : verdict (varsOf xs) = some d) (hslot : d.slot.bytes ≠ [])
      (hout : Outcome xs d (.ubootEnvRead 0 :: checkSteps (varsOf xs))
        (kernelSteps (setVars d.updates (varsOf xs)) d.slot) w w') :
      BootEnd xs w w' (kernelConfig (setVars d.updates (varsOf xs)) d.slot)

theorem checkSteps_of_upgradeAvailable {f : Vars} (hactive : f nervesFwActive = some slot)
    (havailable : f upgradeAvailable = some available) :
    checkSteps f = asks f nervesFwActive :: asks f upgradeAvailable :: bootcountStep f available := by
  simp [checkSteps, bootcountStep, hactive, havailable]

/-- **A block that is accepted** is processed to its end, unless the device hangs. -/
theorem ends_processBlock {block : List Byte} {zs : List Entry} (h : Holds w env zs)
    (henv : env.envSize = ubootEnvSize) (hlen : block.length = ubootEnvSize)
    (hes : IsBlock block es)
    (hactive : ∀ slot, varsOf es.reverse nervesFwActive = some slot → slot.bytes ≠ []) :
    Ends (processBlock slack env block) w
      (fun r w' => BootEnd es.reverse w w' r.1 ∧ ∃ ys, Holds w' r.2 ys)
      (fun _ w' => ∃ d, verdict (varsOf es.reverse) = some d ∧
        Stuck es.reverse d (.ubootEnvRead 0 :: checkSteps (varsOf es.reverse)) w w') := by
  have hread := returns_ubootEnvRead h
    ⟨hlen.trans henv.symm, henv ▸ by decide, henv ▸ le_ptrdiffMax (by decide)⟩ hes []
  rw [List.append_nil] at hread
  refine hread.ends_bind ?_
  rintro ⟨rc, env₁⟩ w₁ ⟨rfl, henv₁, hdev, hw₁⟩
  have hlog := hdev.logs.trans (logs_observe w₁ (.ubootEnvRead 0))
  dsimp only at henv₁ hw₁ ⊢
  rw [ends_bind, ends_observe, if_neg (by decide)]
  refine (returns_getenvOrCleanup (n := nervesFwActive) hw₁.observe).ends_bind ?_
  rintro _ w₂ ⟨rfl, hlog₂, hw₂⟩
  cases hslot : varsOf es.reverse nervesFwActive with
  | none =>
    have hsteps : checkSteps (varsOf es.reverse) = [asks (varsOf es.reverse) nervesFwActive] := by
      simp [checkSteps, hslot]
    refine (returns_pure.mpr ⟨.cleanup (by simp [verdict, hslot]) ?_, _, hw₂⟩).ends
    simpa [hsteps] using hlog.trans hlog₂
  | some slot =>
    refine (returns_getenvOrCleanup (n := upgradeAvailable) hw₂).ends_bind ?_
    rintro _ w₃ ⟨rfl, hlog₃, hw₃⟩
    cases havailable : varsOf es.reverse upgradeAvailable with
    | none =>
      have hsteps : checkSteps (varsOf es.reverse)
          = [asks (varsOf es.reverse) nervesFwActive, asks (varsOf es.reverse) upgradeAvailable] := by
        simp [checkSteps, hslot, havailable]
      refine (returns_pure.mpr ⟨.cleanup (by simp [verdict, hslot, havailable]) ?_, _, hw₃⟩).ends
      simpa [hsteps] using (hlog.trans hlog₂).trans hlog₃
    | some available =>
      have hsteps := checkSteps_of_upgradeAvailable hslot havailable
      have hlog' := (hlog.trans hlog₂).trans hlog₃
      refine ends_bind.mpr ((ends_checkFailback hw₃ (henv₁.trans henv) hlen (hactive _ hslot)
        hslot havailable).mono ?_ ?_)
      · rintro r w₄ (⟨hnone, rfl, hlog₄, hw₄⟩ | ⟨d, env₂, ys, hd, hne, rfl, hout, hw₄, hys⟩)
        · refine (returns_pure.mpr ⟨.cleanup hnone ?_, _, hw₄⟩).ends
          simpa [hsteps] using hlog'.trans hlog₄
        · refine (returns_lookupKernel hw₄ hne).ends_bind ?_
          rintro _ w₅ ⟨rfl, hlog₅, hw₅⟩
          rw [hys] at hlog₅ ⊢
          refine (returns_pure.mpr ⟨.booted d hd hne ?_, ys, hw₅⟩).ends
          simpa [hsteps] using (hout.after hlog').before hlog₅
      · rintro e w₄ ⟨d, hd, hstuck⟩
        exact ⟨d, hd, by simpa [hsteps] using hstuck.after hlog'⟩

/-- **A block that is not accepted** leaves the defaults. -/
theorem returns_processBlock_of_not_isBlock {block : List Byte} {zs : List Entry}
    (h : Holds w env zs) (henv : env.envSize = ubootEnvSize) (hlen : block.length = ubootEnvSize)
    (hnone : ∀ es, ¬ IsBlock block es) :
    Returns (processBlock slack env block) w fun r w' =>
      r.1 = {} ∧ Logs [.ubootEnvRead (-1)] w w' ∧ ∃ ys, Holds w' r.2 ys := by
  have hread : Returns (ubootEnvRead env (block ++ [])) w _ := returns_ubootEnvRead_of_not_isBlock h
    ⟨hlen.trans henv.symm, henv ▸ by decide, henv ▸ le_ptrdiffMax (by decide)⟩ hnone
  rw [List.append_nil] at hread
  rw [processBlock, returns_bind]
  refine hread.mono ?_
  rintro ⟨rc, env₁⟩ w₁ ⟨rfl, -, hdev, ys, hw₁⟩
  have hlog : Logs [.ubootEnvRead (-1)] w (w₁.observe (.ubootEnvRead (-1))) :=
    hdev.logs.trans (logs_observe w₁ _)
  have hq := quiet_say (w₁.observe (.ubootEnvRead (-1)))
    ⟨"Failed to read u-boot environment from buffer", []⟩
  dsimp only at hw₁ ⊢
  rw [returns_bind, returns_observe, if_pos (by decide), returns_bind, returns_info, returns_pure]
  exact ⟨rfl, hlog.sameDevice hq.toSameDevice, ys, hw₁.observe.quiet hq⟩

/-! ## Disks with a given block -/

/-- A disk with a block of the entries, and nothing else. -/
def diskOf (es : List Entry) : Disk :=
  Disk.write (fun _ => 0#8) envOffset (writtenBlock ubootEnvSize es)

theorem isBlock_diskOf (hfits : Fits ubootEnvSize es) (hvalid : ∀ e ∈ es, ValidName e.1) :
    IsBlock (envBlock (diskOf es)) es := by
  rw [diskOf, envBlock_write _ (length_writtenBlock hfits)]
  exact isBlock_writtenBlock hvalid

/-- The variables of an upgrade of slot `a`. -/
def upgradeEntries (count : CStr) : List Entry :=
  [(bootcount, count), (nervesFwActive, slotA), (upgradeAvailable, text1)]

/-! ## The whole function -/

section Whole

variable {stackTop : ℕ} {disk : Disk} {completions : List Completion}

/-- The steps of a block that is read. -/
def readSteps : List Event := [readRequest, .completed ubootEnvSize]

/-- The machine once the block is in the buffer. -/
def afterRead (stackTop : ℕ) (disk : Disk) (completions : List Completion) : World :=
  { World.powerOn (stackTop + ubootEnvSize) disk completions with trace := readSteps }

/-- The block has not been read: the device has failed, or hangs. -/
structure Unread (disk : Disk) (completions : List Completion) (w' : World) : Prop where
  disk : w'.disk = disk
  trace : w'.trace = [readRequest] ∨ ∃ rc, w'.trace = [readRequest, .completed rc]
  status : ∀ c ∈ completions.head?, c.status ≠ 0#8

/-- **The function** reads the block, processes it, and frees the list. -/
theorem ends_processUbootEnv {Q : BootConfig → World → Prop} {E : Stop → World → Prop}
    (hblock : ∀ c cs, completions = c :: cs → c.status = 0#8 →
      Ends (processBlock slack (ubootEnvInit ubootEnvSize) (envBlock disk))
        (afterRead stackTop disk cs)
        (fun r w' => Q r.1 w' ∧ ∃ ys, Holds w' r.2 ys) E)
    (hunread : ∀ e w', Unread disk completions w' → w'.heap = stackTop + ubootEnvSize → E e w') :
    Ends (processUbootEnv slack) (.powerOn stackTop disk completions) Q E := by
  have halloc : Returns (malloc ubootEnvSize) (.powerOn stackTop disk completions) fun _ w =>
      w = .powerOn (stackTop + ubootEnvSize) disk completions := by
    simp [World.alloc, World.powerOn, ubootEnvSize]
  refine halloc.ends_bind ?_
  rintro _ _ rfl
  rw [ends_bind]
  refine (ends_readBlock _ (List.length_replicate)).mono ?_ ?_
  · rintro ⟨rc, buffer⟩ w₁ ⟨c, cs, hc, rfl, hbuffer, rfl⟩
    dsimp only
    by_cases hstatus : c.status = 0#8
    · have hblock' : buffer = envBlock disk := hbuffer hstatus
      have hcode : c.code envLen = ubootEnvSize := by
        rw [Completion.code, if_pos hstatus, toInt_envLen]
      rw [if_neg (by rw [c.code_neg_iff]; simpa using hstatus), ends_bind, hcode, hblock']
      refine (hblock c cs hc hstatus).mono ?_ fun _ _ h => h
      rintro ⟨config, env⟩ w₂ ⟨hQ, ys, hw₂⟩
      refine (returns_ubootEnvFree hw₂).ends_bind ?_
      rintro _ _ ⟨-, rfl⟩
      exact ends_pure.mpr hQ
    · rw [if_pos (c.code_neg_iff.mpr hstatus), fatal, ends_bind, ends_throw]
      refine hunread _ _ ⟨rfl, .inr ⟨_, rfl⟩, ?_⟩ rfl
      change completions = _ at hc
      simpa [hc] using hstatus
  · rintro e w₁ ⟨hhangs, hlogs, hheap⟩
    refine hunread e w₁ ⟨hlogs.disk, .inl hlogs.trace, fun c hc => ?_⟩ hheap
    rw [hhangs c hc]
    decide

/-- **A boot from a block that is accepted.** -/
theorem ends_processUbootEnv_of_isBlock (hes : IsBlock (envBlock disk) es)
    (hactive : ∀ slot, varsOf es.reverse nervesFwActive = some slot → slot.bytes ≠ []) :
    Ends (processUbootEnv slack) (.powerOn stackTop disk completions)
      (fun config w' => ∃ c cs, completions = c :: cs ∧
        BootEnd es.reverse (afterRead stackTop disk cs) w' config)
      (fun _ w' => Unread disk completions w' ∨ ∃ c cs d, completions = c :: cs ∧
        c.status = 0#8 ∧ verdict (varsOf es.reverse) = some d ∧
        Stuck es.reverse d (.ubootEnvRead 0 :: checkSteps (varsOf es.reverse))
          (afterRead stackTop disk cs) w') := by
  refine ends_processUbootEnv (fun c cs hc hstatus => ?_) fun _ _ h _ => .inl h
  have hinit : Holds (afterRead stackTop disk cs) (ubootEnvInit ubootEnvSize) [] :=
    .init _ fun _ _ => rfl
  refine (ends_processBlock hinit rfl (length_envBlock _) hes hactive).mono ?_ ?_
  · rintro r w' ⟨hend, hys⟩
    exact ⟨⟨c, cs, hc, hend⟩, hys⟩
  · rintro e w' ⟨d, hd, hstuck⟩
    exact .inr ⟨c, cs, d, hc, hstatus, hd, hstuck⟩

end Whole

end LittleLoader
