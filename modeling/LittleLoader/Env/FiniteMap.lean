import LittleLoader.Block.Read
import LittleLoader.Block.Write

/-!
# Env/FiniteMap — an environment with distinct names is a finite map

    setenv n v  ↦  m[n := v]      unsetenv n  ↦  m[n := none]      getenv, write  ↦  m

`Represents w env m` is the simulation: the list of `env` has distinct names, and `m` is its lookup.
Every operation preserves it (`Op.returns_run`), so in every run the environment answers as the map
does (`returns_runOps`).  The failing `uboot_env_write` is no exception: it reorders the list, and a
list with distinct names may be in any order.
-/

namespace LittleLoader

variable {w w' : World} {env : UbootEnv} {xs ys es : List Entry} {m : CStr → Option CStr}
  {block : List Byte} {n : CStr} {size : ℕ}

/-! ## The operations, on the map -/

/-- A call into `uboot_env.c`. -/
inductive Op
  | setenv (n v : CStr)
  | unsetenv (n : CStr)
  | getenv (n : CStr)
  | write (buffer : List Byte)

namespace Op

/-- What the call does to the map. -/
def apply : Op → (CStr → Option CStr) → CStr → Option CStr
  | setenv n v, m => Function.update m n (some v)
  | unsetenv n, m => Function.update m n none
  | getenv _, m => m
  | write _, m => m

/-- What `uboot_env_getenv` should answer. -/
def expected : Op → (CStr → Option CStr) → Option (ℤ × Option (List Byte))
  | getenv n, m => some (answer (m n))
  | _, _ => none

/-- The name the call is about. -/
def name? : Op → Option CStr
  | setenv n _ => some n
  | unsetenv n => some n
  | getenv n => some n
  | write _ => none

/-- The buffer of a write has the size of the environment. -/
def HasRoom (size : ℕ) : Op → Prop
  | write buffer => size ≤ buffer.length
  | _ => True

/-- A call leaves every other name alone. -/
theorem apply_of_ne {op : Op} (h : op.name? ≠ some n) : op.apply m n = m n := by
  cases op with
  | setenv k v => exact Function.update_of_ne (fun hk : n = k => h (hk ▸ rfl)) _ _
  | unsetenv k => exact Function.update_of_ne (fun hk : n = k => h (hk ▸ rfl)) _ _
  | getenv k => rfl
  | write buffer => rfl

/-- The call itself, with the answer of `uboot_env_getenv`. -/
def run : Op → UbootEnv → M (Option (ℤ × Option (List Byte)) × UbootEnv)
  | setenv n v, env => do return (none, (← ubootEnvSetenv env n.obj v.obj).2)
  | unsetenv n, env => do return (none, (← ubootEnvUnsetenv env n.obj).2)
  | getenv n, env => do return (some (← ubootEnvGetenv env n.obj), env)
  | write buffer, env => do return (none, (← ubootEnvWrite env buffer).2.1)

end Op

/-! ## The simulation -/

/-- **The environment represents the map**: its names are distinct, and the map is its lookup. -/
def Represents (w : World) (env : UbootEnv) (m : CStr → Option CStr) : Prop :=
  ∃ xs, Holds w env xs ∧ (xs.map Prod.fst).Nodup ∧ ∀ n, xs.lookup n = m n

/-- The list may be in any order. -/
theorem Represents.of_perm (h : Holds w env ys) (hperm : ys.Perm xs)
    (hnodup : (xs.map Prod.fst).Nodup) (hm : ∀ n, xs.lookup n = m n) : Represents w env m :=
  ⟨ys, h, (hperm.map _).nodup_iff.mpr hnodup, fun n =>
    (lookup_eq_of_perm hperm hnodup n).trans (hm n)⟩

theorem Represents.getenv (h : Represents w env m) (n : CStr) :
    Returns (ubootEnvGetenv env n.obj) w fun r w' => r = answer (m n) ∧ Quiet w w' := by
  obtain ⟨xs, h, -, hm⟩ := h
  simpa only [hm] using returns_ubootEnvGetenv (n := n) h

/-- `uboot_env_write` keeps the map, whether it succeeds or not. -/
theorem Represents.write {buffer : List Byte} (h : Represents w env m)
    (hbuffer : env.envSize ≤ buffer.length) (hbound : env.envSize ≤ ptrdiffMax) :
    Returns (ubootEnvWrite env buffer) w fun r w' =>
      r.2.1.envSize = env.envSize ∧ Represents w' r.2.1 m := by
  obtain ⟨xs, h, hnodup, hm⟩ := h
  by_cases hsize : 8 ≤ env.envSize
  · refine (returns_ubootEnvWrite h hbuffer hsize hbound).mono ?_
    rintro r w' ⟨henv, -, ys, hsorted, hys, -⟩
    exact ⟨henv, .of_perm hys hsorted.perm hnodup hm⟩
  · rw [ubootEnvWrite, if_pos (by omega), returns_bind, returns_errReturn, returns_pure]
    exact ⟨rfl, xs, h.quiet (quiet_say _ _), hnodup, hm⟩

/-- **One call**: the answer is that of the map, and the map follows. -/
theorem Op.returns_run {op : Op} (h : Represents w env m) (hop : op.HasRoom env.envSize)
    (hbound : env.envSize ≤ ptrdiffMax) :
    Returns (op.run env) w fun r w' => r.1 = op.expected m ∧ r.2.envSize = env.envSize ∧
      Represents w' r.2 (op.apply m) := by
  cases op with
  | setenv n v =>
    obtain ⟨xs, h, hnodup, hm⟩ := h
    simp only [Op.run, returns_bind, returns_pure]
    refine (returns_ubootEnvSetenv h).mono ?_
    rintro r w' ⟨-, henv, -, hw'⟩
    refine ⟨rfl, henv, _, hw', nodup_assign hnodup, fun k => ?_⟩
    rw [lookup_assign, Op.apply, Function.update_apply, hm]
  | unsetenv n =>
    obtain ⟨xs, h, hnodup, hm⟩ := h
    simp only [Op.run, returns_bind, returns_pure]
    refine (returns_ubootEnvUnsetenv h).mono ?_
    rintro r w' ⟨-, henv, -, hw'⟩
    refine ⟨rfl, henv, _, hw', nodup_eraseP hnodup, fun k => ?_⟩
    rw [lookup_eraseP hnodup, Op.apply, Function.update_apply, hm]
  | getenv n =>
    simp only [Op.run, returns_bind, returns_pure]
    refine (h.getenv n).mono ?_
    rintro r w' ⟨rfl, hq⟩
    obtain ⟨xs, h, hnodup, hm⟩ := h
    exact ⟨rfl, trivial, xs, h.quiet hq, hnodup, hm⟩
  | write buffer =>
    simp only [Op.run, returns_bind, returns_pure]
    refine (h.write hop hbound).mono ?_
    rintro r w' ⟨henv, hw'⟩
    exact ⟨rfl, henv, hw'⟩

/-! ## Runs -/

/-- The calls one after the other, with the answers. -/
def runOps : List Op → UbootEnv → M (List (Option (ℤ × Option (List Byte))) × UbootEnv)
  | [], env => return ([], env)
  | op :: ops, env => do
      let (a, env) ← op.run env
      let (as, env) ← runOps ops env
      return (a :: as, env)

/-- The map after the calls. -/
def applyOps (ops : List Op) (m : CStr → Option CStr) : CStr → Option CStr :=
  ops.foldl (fun m op => op.apply m) m

/-- The answers the map gives on the way. -/
def expectedOps : List Op → (CStr → Option CStr) → List (Option (ℤ × Option (List Byte)))
  | [], _ => []
  | op :: ops, m => op.expected m :: expectedOps ops (op.apply m)

/-- **A run answers as the map does**, and ends in an environment that represents it. -/
theorem returns_runOps {ops : List Op} (h : Represents w env m)
    (hops : ∀ op ∈ ops, op.HasRoom env.envSize) (hbound : env.envSize ≤ ptrdiffMax) :
    Returns (runOps ops env) w fun r w' => r.1 = expectedOps ops m ∧
      r.2.envSize = env.envSize ∧ Represents w' r.2 (applyOps ops m) := by
  induction ops generalizing w env m with
  | nil => simpa [runOps, expectedOps, applyOps] using h
  | cons op ops ih =>
    obtain ⟨hop, hops⟩ := List.forall_mem_cons.mp hops
    simp only [runOps, returns_bind, returns_pure]
    refine (Op.returns_run h hop hbound).mono ?_
    rintro ⟨a, env₁⟩ w₁ ⟨rfl, henv, h₁⟩
    dsimp only at henv h₁
    rw [← henv] at hops hbound
    refine (ih h₁ hops hbound).mono ?_
    rintro ⟨as, env₂⟩ w₂ ⟨rfl, henv₂, h₂⟩
    exact ⟨rfl, henv₂.trans henv, h₂⟩

/-- **The environment refines a finite map** after `ops`: it gave the answers of the map, its names
are distinct, every lookup answers with the map, and a further call about another name, or a write,
changes no answer. -/
structure RefinesMap (m : CStr → Option CStr) (ops : List Op) (size : ℕ)
    (r : List (Option (ℤ × Option (List Byte))) × UbootEnv) (w : World) : Prop where
  answers : r.1 = expectedOps ops m
  distinct : ∃ xs, Holds w r.2 xs ∧ (xs.map Prod.fst).Nodup
  getenv : ∀ n, Returns (ubootEnvGetenv r.2 n.obj) w fun a _ => a = answer (applyOps ops m n)
  frame : ∀ (op : Op) (n : CStr), op.HasRoom size → op.name? ≠ some n →
    Returns (do ubootEnvGetenv (← op.run r.2).2 n.obj) w fun a _ => a = answer (applyOps ops m n)

theorem returns_refinesMap {ops : List Op} (h : Represents w env m)
    (hops : ∀ op ∈ ops, op.HasRoom env.envSize) (hbound : env.envSize ≤ ptrdiffMax) :
    Returns (runOps ops env) w (RefinesMap m ops env.envSize) := by
  refine (returns_runOps h hops hbound).mono ?_
  rintro r w' ⟨hanswers, henv, hr⟩
  obtain ⟨xs, hxs, hnodup, -⟩ := id hr
  refine ⟨hanswers, ⟨xs, hxs, hnodup⟩, fun n => (hr.getenv n).mono fun _ _ ha => ha.1,
    fun op n hop hname => ?_⟩
  rw [returns_bind]
  refine (Op.returns_run hr (henv ▸ hop) (henv ▸ hbound)).mono ?_
  rintro s w'' ⟨-, -, hs⟩
  rw [← Op.apply_of_ne (m := applyOps ops m) hname]
  exact (hs.getenv n).mono fun _ _ ha => ha.1

/-- **The in-memory environment refines a finite map.**  From an empty environment, or from one that
has read an accepted block with distinct names, every sequence of calls answers as the map with the
same updates does. -/
theorem runOps_refines_map {ops : List Op} (hfresh : ∀ a, w.heap ≤ a → w.nodes a = none)
    (hbound : size ≤ ptrdiffMax) (hops : ∀ op ∈ ops, op.HasRoom size) :
    Returns (runOps ops (ubootEnvInit size)) w (RefinesMap (fun _ => none) ops size) ∧
      ∀ env xs block es, Holds w env xs → env.envSize = size → HasBlock env block →
        IsBlock block es → (es.map Prod.fst).Nodup →
          Returns (do runOps ops (← ubootEnvRead env block).2) w
            (RefinesMap (fun n => es.lookup n) ops size) := by
  refine ⟨returns_refinesMap ⟨[], .init size hfresh, List.nodup_nil, fun _ => rfl⟩ hops hbound, ?_⟩
  rintro env xs block es h rfl hblock hes hnodup
  have hread := returns_ubootEnvRead h hblock hes []
  rw [List.append_nil] at hread
  rw [returns_bind]
  refine hread.mono ?_
  rintro r w' ⟨-, henv, -, hr⟩
  rw [← henv] at hops hbound ⊢
  exact returns_refinesMap (.of_perm hr es.reverse_perm hnodup fun _ => rfl) hops hbound

/-- In eight bytes there is no room for `a=1`: the write fails, and `a` is still there. -/
theorem runOps_refines_map_small :
    Returns (runOps [.setenv (.lit "a") (.lit "1"), .write (List.replicate 8 0#8),
        .getenv (.lit "a"), .unsetenv (.lit "a"), .getenv (.lit "a")] (ubootEnvInit 8))
      (.powerOn 0 (fun _ => 0) []) fun r _ =>
        r.1 = [none, none, some (0, some (lit "1")), none, some (-1, none)] :=
  (runOps_refines_map (fun _ _ => rfl) (le_ptrdiffMax (by decide))
    (by simp [Op.HasRoom])).1.mono fun _ _ h => h.answers.trans (by decide)

end LittleLoader
