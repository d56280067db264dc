import LittleLoader.Block.RoundTrip
import LittleLoader.Env.FiniteMap

/-!
# Env/Unset — `uboot_env_unsetenv` takes one pair of the name

    setenv n v  ↦  max 1 c      unsetenv n  ↦  c - 1      write, getenv  ↦  c

where `c` counts the pairs of the name `n`.  The loop stops at the first of them, so the variable is
gone exactly if there was no second one (`Holds.unsetRemoves_iff_multiplicity`).  A block may hold
several pairs of a name, and no call but `uboot_env_unsetenv` makes them fewer.
-/

namespace LittleLoader

variable {w w' : World} {env : UbootEnv} {xs es : List Entry} {block : List Byte} {n : CStr}
  {size : ℕ}

/-! ## One removal -/

/-- **`uboot_env_unsetenv` removes the variable**: then `uboot_env_getenv` does not find the name
any more, and answers every other name as before. -/
def UnsetRemoves (env : UbootEnv) (n : CStr) (w : World) : Prop :=
  Returns (ubootEnvUnsetenv env n.obj) w fun r w' =>
    Returns (ubootEnvGetenv r.2 n.obj) w' (fun a _ => a = (-1, none)) ∧
      ∀ k, k ≠ n → ∀ a, Returns (ubootEnvGetenv env k.obj) w (fun b _ => b = a) ↔
        Returns (ubootEnvGetenv r.2 k.obj) w' fun b _ => b = a

theorem Holds.returns_getenv_iff (h : Holds w env xs) (n : CStr) (a : ℤ × Option (List Byte)) :
    Returns (ubootEnvGetenv env n.obj) w (fun b _ => b = a) ↔ answer (xs.lookup n) = a := by
  obtain ⟨b, w', ⟨rfl, -⟩, hout⟩ := (returns_ubootEnvGetenv (n := n) h).exists_outcome
  exact hout _

/-- **The variable is gone exactly if** the list has at most one pair of the name. -/
theorem Holds.unsetRemoves_iff_multiplicity (h : Holds w env xs) (n : CStr) :
    UnsetRemoves env n w ↔ multiplicity n xs ≤ 1 := by
  obtain ⟨⟨rc, env'⟩, w', ⟨-, -, -, h'⟩, hout⟩ :=
    (returns_ubootEnvUnsetenv (n := n) h).exists_outcome
  have hothers : ∀ k, k ≠ n → ∀ a, Returns (ubootEnvGetenv env k.obj) w (fun b _ => b = a) ↔
      Returns (ubootEnvGetenv env' k.obj) w' fun b _ => b = a := fun k hk a => by
    rw [h.returns_getenv_iff, h'.returns_getenv_iff, lookup_eraseP_of_ne hk]
  have hnone : ((-1, none) : ℤ × Option (List Byte)) = answer none := rfl
  rw [UnsetRemoves, hout, and_iff_left hothers, h'.returns_getenv_iff, hnone,
    answer_injective.eq_iff, lookup_eraseP_self_eq_none_iff]

/-! ## Runs -/

/-- The number of pairs of the name after a call. -/
def Op.copies (n : CStr) (c : ℕ) : Op → ℕ
  | setenv k _ => if n = k then max 1 c else c
  | unsetenv k => if n = k then c - 1 else c
  | getenv _ => c
  | write _ => c

/-- **One call** changes the number of pairs of a name by the rule. -/
theorem Op.returns_run_copies {op : Op} (h : Holds w env xs) (hop : op.HasRoom env.envSize)
    (hbound : env.envSize ≤ ptrdiffMax) :
    Returns (op.run env) w fun r w' => r.2.envSize = env.envSize ∧
      ∃ ys, Holds w' r.2 ys ∧ ∀ n, multiplicity n ys = op.copies n (multiplicity n xs) := by
  cases op with
  | setenv k v =>
    simp only [Op.run, returns_bind, returns_pure]
    refine (returns_ubootEnvSetenv h).mono ?_
    rintro r w' ⟨-, henv, -, hw'⟩
    exact ⟨henv, _, hw', fun n => multiplicity_assign⟩
  | unsetenv k =>
    simp only [Op.run, returns_bind, returns_pure]
    refine (returns_ubootEnvUnsetenv h).mono ?_
    rintro r w' ⟨-, henv, -, hw'⟩
    exact ⟨henv, _, hw', fun n => multiplicity_eraseP⟩
  | getenv k =>
    simp only [Op.run, returns_bind, returns_pure]
    refine (returns_ubootEnvGetenv h).mono ?_
    rintro r w' ⟨-, hq⟩
    exact ⟨trivial, xs, h.quiet hq, fun _ => rfl⟩
  | write buffer =>
    simp only [Op.run, returns_bind, returns_pure]
    by_cases hsize : 8 ≤ env.envSize
    · refine (returns_ubootEnvWrite h hop hsize hbound).mono ?_
      rintro r w' ⟨henv, -, ys, hsorted, hys, -⟩
      exact ⟨henv, ys, hys, fun n => (hsorted.perm.map Prod.fst).count_eq n⟩
    · rw [ubootEnvWrite, if_pos (not_le.mp hsize), returns_bind, returns_errReturn, returns_pure]
      exact ⟨rfl, xs, h.quiet (quiet_say _ _), fun _ => rfl⟩

/-- The number of pairs of the name after the calls. -/
def copiesAfter (n : CStr) (ops : List Op) (c : ℕ) : ℕ := ops.foldl (fun c op => op.copies n c) c

/-- **A run** changes it by the rule, call by call. -/
theorem returns_runOps_copies {ops : List Op} (h : Holds w env xs)
    (hops : ∀ op ∈ ops, op.HasRoom env.envSize) (hbound : env.envSize ≤ ptrdiffMax) :
    Returns (runOps ops env) w fun r w' =>
      ∃ ys, Holds w' r.2 ys ∧ ∀ n, multiplicity n ys = copiesAfter n ops (multiplicity n xs) := by
  induction ops generalizing w env xs with
  | nil => exact returns_pure.mpr ⟨xs, h, fun _ => rfl⟩
  | cons op ops ih =>
    obtain ⟨hop, hops⟩ := List.forall_mem_cons.mp hops
    simp only [runOps, returns_bind, returns_pure]
    refine (Op.returns_run_copies h hop hbound).mono ?_
    rintro ⟨a, env₁⟩ w₁ ⟨henv, ys, h₁, hcopies⟩
    dsimp only at henv h₁
    rw [← henv] at hops hbound
    refine (ih h₁ hops hbound).mono ?_
    rintro ⟨as, env₂⟩ w₂ ⟨zs, h₂, hcopies₂⟩
    exact ⟨zs, h₂, fun n => by rw [hcopies₂, hcopies, copiesAfter, copiesAfter, List.foldl_cons]⟩

/-- No call makes a second pair of a name. -/
theorem copiesAfter_le_one {ops : List Op} {c : ℕ} (hc : c ≤ 1) : copiesAfter n ops c ≤ 1 := by
  induction ops generalizing c with
  | nil => exact hc
  | cons op ops ih =>
    refine ih ?_
    cases op with
    | setenv k v =>
      simp only [Op.copies]
      split
      · exact max_le le_rfl hc
      · exact hc
    | unsetenv k =>
      simp only [Op.copies]
      split
      · exact (Nat.sub_le c 1).trans hc
      · exact hc
    | getenv k => exact hc
    | write buffer => exact hc

theorem returns_unsetRemoves_iff {ops : List Op} (h : Holds w env xs)
    (hops : ∀ op ∈ ops, op.HasRoom env.envSize) (hbound : env.envSize ≤ ptrdiffMax) (n : CStr) :
    Returns (runOps ops env) w fun r w' =>
      UnsetRemoves r.2 n w' ↔ copiesAfter n ops (multiplicity n xs) ≤ 1 := by
  refine (returns_runOps_copies h hops hbound).mono ?_
  rintro r w' ⟨ys, hys, hcopies⟩
  rw [hys.unsetRemoves_iff_multiplicity, hcopies]

/-- **When `uboot_env_unsetenv` removes a variable.**  It does after any calls on a new environment.
On one that has read a block it does exactly if at most one pair of the name is left: of those in
the block, each call of `uboot_env_unsetenv` has taken one away, and `uboot_env_setenv` has added
one where there was none. -/
theorem unsetRemoves_iff (ops : List Op) (hfresh : ∀ a, w.heap ≤ a → w.nodes a = none)
    (hbound : size ≤ ptrdiffMax) (hops : ∀ op ∈ ops, op.HasRoom size) (n : CStr) :
    (Returns (runOps ops (ubootEnvInit size)) w fun r w' => UnsetRemoves r.2 n w') ∧
      ∀ env xs block es, Holds w env xs → env.envSize = size → HasBlock env block →
        IsBlock block es → Returns (do runOps ops (← ubootEnvRead env block).2) w fun r w' =>
          UnsetRemoves r.2 n w' ↔ copiesAfter n ops (multiplicity n es) ≤ 1 := by
  refine ⟨(returns_unsetRemoves_iff (.init size hfresh) hops hbound n).mono fun r w' hr =>
    hr.mpr (copiesAfter_le_one (Nat.zero_le 1)), ?_⟩
  rintro env xs block es h rfl hblock hes
  have hread := returns_ubootEnvRead h hblock hes []
  rw [List.append_nil] at hread
  rw [returns_bind]
  refine hread.mono ?_
  rintro r w' ⟨-, henv, -, hr⟩
  rw [← henv] at hops hbound
  have hrun := returns_unsetRemoves_iff hr hops hbound n
  rwa [multiplicity_reverse] at hrun

/-- With two pairs of `a` in the block, the second removal is the one that removes it. -/
theorem unsetRemoves_iff_staleBlock :
    Returns (do runOps [.unsetenv (.lit "a")] (← ubootEnvRead (ubootEnvInit 16) staleBlock).2)
      (.powerOn 0 (fun _ => 0) []) fun r w' => UnsetRemoves r.2 (.lit "a") w' := by
  have hblock : HasBlock (ubootEnvInit 16) staleBlock :=
    ⟨rfl, by decide, le_ptrdiffMax (by decide)⟩
  have hiff := (unsetRemoves_iff [.unsetenv (.lit "a")] (fun _ _ => rfl)
    (le_ptrdiffMax (by decide)) (by simp [Op.HasRoom]) (.lit "a")).2 _ _ _ _
      (.powerOn 16 0 (fun _ => 0) []) rfl hblock isBlock_staleBlock
  exact hiff.mono fun r w' hr => hr.mpr (by decide)

/-- **The first one does not**: after it, `uboot_env_getenv` answers with the other pair. -/
theorem not_unsetRemoves_staleBlock : (∃ es, IsBlock staleBlock es) ∧
    Returns (ubootEnvRead (ubootEnvInit 16) staleBlock) (.powerOn 0 (fun _ => 0) []) fun r w' =>
      r.1 = 0 ∧ ¬ UnsetRemoves r.2 (.lit "a") w' ∧
        Returns (ubootEnvUnsetenv r.2 (lit "a")) w' fun r' w'' =>
          Returns (ubootEnvGetenv r'.2 (lit "a")) w'' fun a _ => a = (0, some (lit "1")) := by
  have hblock : HasBlock (ubootEnvInit 16) staleBlock :=
    ⟨rfl, by decide, le_ptrdiffMax (by decide)⟩
  have hread := returns_ubootEnvRead (.powerOn 16 0 (fun _ => 0) []) hblock isBlock_staleBlock []
  rw [List.append_nil] at hread
  refine ⟨⟨_, isBlock_staleBlock⟩, hread.mono ?_⟩
  rintro r w' ⟨hrc, -, -, hr⟩
  refine ⟨hrc, fun h => absurd ((hr.unsetRemoves_iff_multiplicity _).mp h) (by decide), ?_⟩
  refine (returns_ubootEnvUnsetenv (n := .lit "a") hr).mono ?_
  rintro r' w'' ⟨-, -, -, hr'⟩
  exact (returns_ubootEnvGetenv (n := .lit "a") hr').mono fun a _ ha => ha.1.trans (by decide)

end LittleLoader
