import LittleLoader.Foundations.Linked
import LittleLoader.Foundations.Lookup
import LittleLoader.Machine.Steps
import LittleLoader.Machine.UbootEnv

/-!
# Env/Holds — the environment as an association list

`Holds w env xs` says that the list of `env` in the memory of `w` is a proper one and that it
represents the entries `xs`, in list order.  On `xs` the operations of `uboot_env.c` are those of
`Foundations/Lookup`:

    uboot_env_getenv  ↦  List.lookup      uboot_env_setenv    ↦  assign
    uboot_env_free    ↦  []               uboot_env_unsetenv  ↦  List.eraseP
-/

namespace LittleLoader

/-- A variable: its name and its value. -/
abbrev Entry := CStr × CStr

/-- The objects of an entry, as a pair of the list points to them. -/
def Entry.objs (e : Entry) : List Byte × List Byte := (e.1.obj, e.2.obj)

/-- A pair as a node of a linked list. -/
def UbootNameValue.view (n : UbootNameValue) : (List Byte × List Byte) × Option Addr :=
  ((n.name, n.value), n.next)

/-- The pointers from `p` lead through pairs that represent the given entries, to `NULL`. -/
def Linked (nodes : Addr → Option UbootNameValue) (p : Option Addr) (cs : List (Addr × Entry)) :
    Prop :=
  Segment UbootNameValue.view nodes p (cs.map (Prod.map id Entry.objs)) none

/-- **The list of `env` represents the entries `xs`**, and nothing lives above the heap pointer. -/
structure Holds (w : World) (env : UbootEnv) (xs : List Entry) : Prop where
  list : ∃ cs, Linked w.nodes env.vars cs ∧ cs.map Prod.snd = xs
  fresh : ∀ a, w.heap ≤ a → w.nodes a = none

variable {w w' : World} {env env' : UbootEnv} {p : Option Addr} {a : Addr} {e : Entry}
  {cs : List (Addr × Entry)} {xs ys us : List Entry} {n v : CStr} {fuel : ℕ}

@[simp] theorem ubootEnvInit_envSize (size : ℕ) : (ubootEnvInit size).envSize = size := rfl

/-! ## Linked pairs -/

namespace Linked

theorem nil_iff : Linked w.nodes p [] ↔ p = none := Iff.rfl

theorem cons_iff : Linked w.nodes p ((a, e) :: cs) ↔
    p = some a ∧ ∃ next, w.nodes a = some ⟨e.1.obj, e.2.obj, next⟩ ∧ Linked w.nodes next cs := by
  constructor
  · rintro ⟨rfl, ⟨name, value, next⟩, r, hn, hv, hr⟩
    obtain ⟨⟨rfl, rfl⟩, rfl⟩ : (name = e.1.obj ∧ value = e.2.obj) ∧ next = r := by
      simpa [UbootNameValue.view, Entry.objs] using hv
    exact ⟨rfl, next, hn, hr⟩
  · rintro ⟨rfl, next, hn, hr⟩
    exact ⟨rfl, _, next, hn, rfl, hr⟩

/-- The end of a list is a list. -/
theorem of_append {ds : List (Addr × Entry)} (h : Linked w.nodes p (cs ++ ds)) :
    ∃ q, Linked w.nodes q ds := by
  rw [Linked, List.map_append] at h
  obtain ⟨q, -, hq⟩ := Segment.append_iff.mp h
  exact ⟨q, hq⟩

/-- The list has fewer pairs than the heap has bytes. -/
theorem length_le (h : Linked w.nodes p cs) (hfresh : ∀ a, w.heap ≤ a → w.nodes a = none) :
    cs.length ≤ w.heap := by
  simpa using Segment.length_le h hfresh

theorem nodup (h : Linked w.nodes p cs) : (cs.map Prod.fst).Nodup := by
  have hmap : (cs.map (Prod.map id Entry.objs)).map Prod.fst = cs.map Prod.fst := by simp
  exact hmap ▸ Segment.nodup h

end Linked

namespace Holds

theorem mk_of_linked (cs : List (Addr × Entry)) (h : Linked w.nodes env.vars cs)
    (hxs : cs.map Prod.snd = xs) (hfresh : ∀ a, w.heap ≤ a → w.nodes a = none) :
    Holds w env xs := ⟨⟨cs, h, hxs⟩, hfresh⟩

/-- An environment without pairs, in any memory that has been allocated from `heap` only. -/
theorem nil (h : env.vars = none) (hfresh : ∀ a, w.heap ≤ a → w.nodes a = none) :
    Holds w env [] :=
  mk_of_linked [] (Linked.nil_iff.mpr h) rfl hfresh

/-- `uboot_env_init`, in any memory of that kind. -/
theorem init (size : ℕ) (hfresh : ∀ a, w.heap ≤ a → w.nodes a = none) :
    Holds w (ubootEnvInit size) [] := nil rfl hfresh

/-- The environment of a machine that has just been powered on. -/
theorem powerOn (size stackTop : ℕ) (disk : Disk) (completions : List Completion) :
    Holds (.powerOn stackTop disk completions) (ubootEnvInit size) [] := init size fun _ _ => rfl

/-- Allocations and messages do not disturb the list. -/
theorem quiet (h : Holds w env xs) (hq : Quiet w w') : Holds w' env xs := by
  obtain ⟨⟨cs, hcs, hxs⟩, hfresh⟩ := h
  exact ⟨⟨cs, hq.nodes ▸ hcs, hxs⟩, fun a ha => hq.nodes ▸ hfresh a (hq.heap.trans ha)⟩

theorem observe {ev : Event} (h : Holds w env xs) : Holds (w.observe ev) env xs := ⟨h.1, h.2⟩

/-- **The list represents one list of entries.** -/
theorem unique (h : Holds w env xs) (h' : Holds w env ys) : xs = ys := by
  obtain ⟨⟨cs, hcs, rfl⟩, -⟩ := h
  obtain ⟨⟨ds, hds, rfl⟩, -⟩ := h'
  have hinj : Function.Injective Entry.objs := by
    rintro ⟨n, v⟩ ⟨n', v'⟩ he
    obtain ⟨h₁, h₂⟩ := Prod.mk.inj he
    exact Prod.ext (CStr.obj_injective h₁) (CStr.obj_injective h₂)
  rw [List.map_injective_iff.mpr (Function.injective_id.prodMap hinj) (Segment.unique hcs hds)]

end Holds

@[simp] theorem returns_listFuel {Q : ℕ → World → Prop} :
    Returns listFuel w Q ↔ Q (w.heap + 1) w := by simp [listFuel]

/-! ## `uboot_env_free` -/

theorem returns_freeLoop (h : Linked w.nodes p cs) (hfuel : cs.length < fuel) :
    Returns (ubootEnvFreeLoop fuel p) w fun _ w' => w' = w := by
  induction cs generalizing p fuel with
  | nil =>
    obtain rfl := Linked.nil_iff.mp h
    obtain ⟨fuel, rfl⟩ : ∃ k, fuel = k + 1 := ⟨fuel - 1, by omega⟩
    simp [ubootEnvFreeLoop]
  | cons c cs ih =>
    obtain ⟨rfl, next, hn, hr⟩ := Linked.cons_iff.mp h
    obtain ⟨fuel, rfl⟩ : ∃ k, fuel = k + 1 := ⟨fuel - 1, by omega⟩
    simp only [ubootEnvFreeLoop, returns_bind, returns_loadPair hn]
    exact ih hr (by simpa using hfuel)

/-- **`uboot_env_free`** leaves the empty list. -/
theorem returns_ubootEnvFree (h : Holds w env xs) :
    Returns (ubootEnvFree env) w fun r w' => r = { env with vars := none } ∧ w' = w := by
  obtain ⟨⟨cs, hcs, -⟩, hfresh⟩ := h
  simp only [ubootEnvFree, returns_bind, returns_listFuel, returns_pure, true_and]
  exact returns_freeLoop hcs (Nat.lt_succ_of_le (hcs.length_le hfresh))

/-! ## `uboot_env_getenv` -/

/-- The state after a copy of the value, if there is one. -/
def World.copied (w : World) (v : Option CStr) : World :=
  v.elim w fun v => w.alloc (v.bytes.length + 1)

theorem quiet_copied (w : World) (v : Option CStr) : Quiet w (w.copied v) := by
  cases v with
  | none => exact .refl w
  | some v => exact quiet_alloc _ _

theorem returns_getenvLoop (rest : List Byte) (h : Linked w.nodes p cs)
    (hfuel : cs.length < fuel) :
    Returns (ubootEnvGetenvLoop (n.obj ++ rest) fuel p) w fun r w' =>
      r = ((cs.map Prod.snd).lookup n).map CStr.obj ∧
        w' = w.copied ((cs.map Prod.snd).lookup n) := by
  induction cs generalizing p fuel with
  | nil =>
    obtain rfl := Linked.nil_iff.mp h
    obtain ⟨fuel, rfl⟩ : ∃ k, fuel = k + 1 := ⟨fuel - 1, by omega⟩
    simp [ubootEnvGetenvLoop, World.copied]
  | cons c cs ih =>
    obtain ⟨a, e⟩ := c
    obtain ⟨rfl, next, hn, hr⟩ := Linked.cons_iff.mp h
    obtain ⟨fuel, rfl⟩ : ∃ k, fuel = k + 1 := ⟨fuel - 1, by omega⟩
    rw [ubootEnvGetenvLoop, returns_bind, returns_loadPair hn, returns_strcmp_append,
      List.map_cons, lookup_cons_ite]
    by_cases he : e.1 = n
    · simp [he, World.copied]
    · simpa only [he, Ne.symm he, if_false] using ih hr (by simpa using hfuel)

/-- What `uboot_env_getenv` returns for what it finds: the return code and `*value`. -/
def answer : Option CStr → ℤ × Option (List Byte)
  | some v => (0, some v.obj)
  | none => (-1, none)

theorem answer_injective : Function.Injective answer := by
  rintro (_ | v) (_ | v') h
  · rfl
  · simp [answer] at h
  · simp [answer] at h
  · rw [CStr.obj_injective (Option.some.inj (Prod.mk.inj h).2)]

/-- **`uboot_env_getenv`** looks the name up, in whatever buffer it is, and copies the value. -/
theorem returns_ubootEnvGetenv_copied (h : Holds w env xs) (rest : List Byte) :
    Returns (ubootEnvGetenv env (n.obj ++ rest)) w fun r w' =>
      r = answer (xs.lookup n) ∧ Quiet w w' ∧ w'.heap = (w.copied (xs.lookup n)).heap := by
  obtain ⟨⟨cs, hcs, rfl⟩, hfresh⟩ := h
  simp only [ubootEnvGetenv, returns_bind, returns_listFuel]
  refine (returns_getenvLoop rest hcs (Nat.lt_succ_of_le (hcs.length_le hfresh))).mono ?_
  rintro r w' ⟨rfl, rfl⟩
  cases (cs.map Prod.snd).lookup n with
  | some v => exact returns_pure.mpr ⟨rfl, quiet_copied _ _, rfl⟩
  | none => simpa [answer] using (quiet_copied w none).trans (quiet_say _ _)

theorem returns_ubootEnvGetenv_append (h : Holds w env xs) (rest : List Byte) :
    Returns (ubootEnvGetenv env (n.obj ++ rest)) w fun r w' =>
      r = answer (xs.lookup n) ∧ Quiet w w' :=
  (returns_ubootEnvGetenv_copied h rest).mono fun _ _ hr => ⟨hr.1, hr.2.1⟩

theorem returns_ubootEnvGetenv (h : Holds w env xs) :
    Returns (ubootEnvGetenv env n.obj) w fun r w' => r = answer (xs.lookup n) ∧ Quiet w w' := by
  simpa only [List.append_nil] using returns_ubootEnvGetenv_append h []

/-- **`uboot_env_getenv` answers alike** in both environments, whatever it is asked for. -/
def SameAnswers (env : UbootEnv) (w : World) (env' : UbootEnv) (w' : World) : Prop :=
  ∀ n : CStr, ∃ a, Returns (ubootEnvGetenv env n.obj) w (fun r _ => r = a) ∧
    Returns (ubootEnvGetenv env' n.obj) w' fun r _ => r = a

theorem Holds.sameAnswers_iff (h : Holds w env xs) (h' : Holds w' env' ys) :
    SameAnswers env w env' w' ↔ ∀ n, xs.lookup n = ys.lookup n := by
  refine forall_congr' fun n => ?_
  have hx := (returns_ubootEnvGetenv (n := n) h).mono fun r _ hr => hr.1
  have hy := (returns_ubootEnvGetenv (n := n) h').mono fun r _ hr => hr.1
  rw [← answer_injective.eq_iff]
  constructor
  · rintro ⟨a, ha, ha'⟩
    obtain ⟨_, _, -, h₁, h₂⟩ := Returns.iff_run.mp (hx.and ha)
    obtain ⟨_, _, -, h₁', h₂'⟩ := Returns.iff_run.mp (hy.and ha')
    exact (h₁.symm.trans h₂).trans (h₁'.symm.trans h₂').symm
  · intro heq
    exact ⟨_, hx, heq ▸ hy⟩

/-! ## `uboot_env_setenv` -/

/-- A pair is overwritten in place. -/
theorem Holds.store {front : List (Addr × Entry)} {e : Entry} (e' : Entry) {next : Option Addr}
    (h : Linked w.nodes env.vars (front ++ (a, e) :: cs))
    (hfresh : ∀ a, w.heap ≤ a → w.nodes a = none)
    (ha : w.nodes a = some ⟨e.1.obj, e.2.obj, next⟩) :
    Holds (w.store a ⟨e'.1.obj, e'.2.obj, next⟩) env
      (front.map Prod.snd ++ e' :: cs.map Prod.snd) := by
  refine Holds.mk_of_linked (front ++ (a, e') :: cs) ?_ (by simp) fun b hb => ?_
  · rw [Linked, List.map_append, List.map_cons] at h ⊢
    exact h.update ha rfl
  · have hne : b ≠ a := by
      rintro rfl
      simp [hfresh b hb] at ha
    rw [World.store_nodes, Function.update_of_ne hne]
    exact hfresh b hb

/-- The loop of `uboot_env_setenv`, past the pairs `front` of other names: it replaces the value of
the first pair of the name if there is one. -/
theorem returns_setenvLoop (front : List (Addr × Entry))
    (hall : Linked w.nodes env.vars (front ++ cs)) (h : Linked w.nodes p cs)
    (hfresh : ∀ a, w.heap ≤ a → w.nodes a = none) (hfront : n ∉ (front.map Prod.snd).map Prod.fst)
    (hfuel : cs.length < fuel) :
    Returns (ubootEnvSetenvLoop n.obj v.obj fuel p) w fun r w' =>
      (n ∈ (cs.map Prod.snd).map Prod.fst → r = true ∧ SameDevice w w' ∧
        Holds w' env (replaceFirst n v ((front ++ cs).map Prod.snd))) ∧
      (n ∉ (cs.map Prod.snd).map Prod.fst → r = false ∧ w' = w) := by
  induction cs generalizing p fuel front with
  | nil =>
    obtain rfl := Linked.nil_iff.mp h
    obtain ⟨fuel, rfl⟩ : ∃ k, fuel = k + 1 := ⟨fuel - 1, by omega⟩
    simp [ubootEnvSetenvLoop]
  | cons c cs ih =>
    obtain ⟨a, e⟩ := c
    obtain ⟨rfl, next, hn, hr⟩ := Linked.cons_iff.mp h
    obtain ⟨fuel, rfl⟩ : ∃ k, fuel = k + 1 := ⟨fuel - 1, by omega⟩
    rw [ubootEnvSetenvLoop, returns_bind, returns_loadPair hn, returns_strcmp_eq]
    by_cases he : e.1 = n
    · obtain ⟨n, u⟩ := e
      subst he
      simp only [if_true, returns_bind, returns_strdup, returns_storePair, returns_pure,
        List.map_cons, List.mem_cons, true_or, true_and, forall_const, not_true, false_implies,
        and_true]
      refine ⟨(quiet_alloc _ _).toSameDevice.trans (sameDevice_store _ _ _), ?_⟩
      have hq := quiet_alloc w (v.bytes.length + 1)
      rw [List.map_append, List.map_cons, replaceFirst_append hfront]
      exact Holds.store (n, v) hall (fun b hb => hfresh b (hq.heap.trans hb)) hn
    · have hfront' : n ∉ ((front ++ [(a, e)]).map Prod.snd).map Prod.fst := by
        simpa [Ne.symm he] using hfront
      have := ih (front ++ [(a, e)]) (by simpa using hall) hr hfront'
        (by simpa using hfuel)
      simpa [he, Ne.symm he] using this

/-- **A new pair goes in front of the list**, at the address that was the top of the heap. -/
theorem Holds.push (h : Holds w env xs) (hq : Quiet (w.alloc sizeofPair) w') :
    Holds (w'.store w.heap ⟨e.1.obj, e.2.obj, env.vars⟩) { env with vars := some w.heap }
      (e :: xs) := by
  obtain ⟨⟨cs, hcs, rfl⟩, hfresh⟩ := h
  have hnodes : w'.nodes = w.nodes := hq.nodes
  refine Holds.mk_of_linked ((w.heap, e) :: cs) ?_ rfl fun b hb => ?_
  · rw [World.store_nodes, hnodes]
    exact Segment.cons_update hcs (hfresh _ le_rfl) rfl
  · have hlt : w.heap < b := by
      have := hq.heap
      simp only [World.store_heap, World.alloc_heap, sizeofPair] at hb this
      omega
    rw [World.store_nodes, Function.update_of_ne hlt.ne', hnodes]
    exact hfresh b hlt.le

/-- **Every list of entries** is the one of an environment, of any size. -/
theorem exists_holds (size : ℕ) (xs : List Entry) :
    ∃ (w : World) (env : UbootEnv), env.envSize = size ∧ Holds w env xs := by
  induction xs with
  | nil => exact ⟨_, _, ubootEnvInit_envSize size, .powerOn size 0 (fun _ => 0) []⟩
  | cons e xs ih =>
    obtain ⟨w, env, henv, h⟩ := ih
    exact ⟨_, { env with vars := some w.heap }, henv, h.push (.refl _)⟩

/-- Two variables, against the order of their names. -/
def twoEntries : List Entry :=
  [(.ofBytes (lit "b"), .ofBytes (lit "2")), (.ofBytes (lit "a"), .ofBytes (lit "1"))]

/-- **`uboot_env_setenv`** assigns. -/
theorem returns_ubootEnvSetenv (h : Holds w env xs) :
    Returns (ubootEnvSetenv env n.obj v.obj) w fun r w' =>
      r.1 = 0 ∧ r.2.envSize = env.envSize ∧ SameDevice w w' ∧ Holds w' r.2 (assign n v xs) := by
  obtain ⟨⟨cs, hcs, rfl⟩, hfresh⟩ := h
  simp only [ubootEnvSetenv, returns_bind, returns_listFuel]
  refine (returns_setenvLoop [] hcs hcs hfresh (by simp)
    (Nat.lt_succ_of_le (hcs.length_le hfresh))).mono ?_
  rintro r w' ⟨hfound, hmissing⟩
  by_cases hmem : n ∈ (cs.map Prod.snd).map Prod.fst
  · obtain ⟨rfl, hdev, hw'⟩ := hfound hmem
    rw [assign, if_pos hmem]
    exact returns_pure.mpr ⟨rfl, rfl, hdev, hw'⟩
  · obtain ⟨rfl, rfl⟩ := hmissing hmem
    rw [assign, if_neg hmem]
    simp only [Bool.false_eq_true, if_false, returns_bind, returns_malloc, returns_strdup,
      returns_storePair, returns_pure, true_and]
    have hq : Quiet (w'.alloc sizeofPair) (((w'.alloc sizeofPair).alloc (n.bytes.length + 1)).alloc
        (v.bytes.length + 1)) := (quiet_alloc _ _).trans (quiet_alloc _ _)
    exact ⟨((quiet_alloc _ _).trans hq).toSameDevice.trans (sameDevice_store _ _ _),
      Holds.push (e := (n, v)) (.mk_of_linked _ hcs rfl hfresh) hq⟩

/-- Calls of `uboot_env_setenv`, one after the other. -/
def ubootEnvSetenvs : List Entry → UbootEnv → M UbootEnv
  | [], env => return env
  | u :: us, env => do
      let (_, env) ← ubootEnvSetenv env u.1.obj u.2.obj
      ubootEnvSetenvs us env

theorem returns_ubootEnvSetenvs (us : List Entry) (h : Holds w env xs) :
    Returns (ubootEnvSetenvs us env) w fun r w' =>
      r.envSize = env.envSize ∧ SameDevice w w' ∧ Holds w' r (assigns us xs) := by
  induction us generalizing w env xs with
  | nil => simpa [ubootEnvSetenvs] using ⟨SameDevice.refl w, h⟩
  | cons u us ih =>
    rw [ubootEnvSetenvs, returns_bind]
    refine (returns_ubootEnvSetenv h).mono ?_
    rintro ⟨rc, env₁⟩ w₁ ⟨-, henv, hdev, h₁⟩
    refine (ih h₁).mono ?_
    rintro r w' ⟨hr, hdev', hw'⟩
    exact ⟨hr.trans henv, hdev.trans hdev', hw'⟩

/-! ## `uboot_env_unsetenv` -/

/-- The loop of `uboot_env_unsetenv`, past the pairs `front` of other names, the last of which is
`prev`. -/
theorem returns_unsetenvLoop (front : List (Addr × Entry))
    (hall : Linked w.nodes env.vars (front ++ cs)) (h : Linked w.nodes p cs)
    (hfresh : ∀ a, w.heap ≤ a → w.nodes a = none) (hfront : n ∉ (front.map Prod.snd).map Prod.fst)
    (hfuel : cs.length < fuel) :
    Returns (ubootEnvUnsetenvLoop n.obj env.vars fuel (front.getLast?.map Prod.fst) p) w
      fun r w' => SameDevice w w' ∧
        Holds w' { env with vars := r } (((front ++ cs).map Prod.snd).eraseP (·.1 = n)) := by
  induction cs generalizing p fuel front with
  | nil =>
    obtain rfl := Linked.nil_iff.mp h
    obtain ⟨fuel, rfl⟩ : ∃ k, fuel = k + 1 := ⟨fuel - 1, by omega⟩
    have herase := eraseP_append_of_notMem hfront []
    simp only [List.append_nil, List.eraseP_nil] at herase
    simp only [ubootEnvUnsetenvLoop, returns_pure, List.append_nil, herase]
    exact ⟨.refl w, Holds.mk_of_linked _ (by simpa using hall) rfl hfresh⟩
  | cons c cs ih =>
    obtain ⟨a, e⟩ := c
    obtain ⟨rfl, next, hn, hr⟩ := Linked.cons_iff.mp h
    obtain ⟨fuel, rfl⟩ : ∃ k, fuel = k + 1 := ⟨fuel - 1, by omega⟩
    rw [ubootEnvUnsetenvLoop, returns_bind, returns_loadPair hn, returns_strcmp_eq]
    by_cases he : e.1 = n
    · have hgoal : ((front ++ (a, e) :: cs).map Prod.snd).eraseP (·.1 = n)
          = (front ++ cs).map Prod.snd := by
        rw [List.map_append, eraseP_append_of_notMem hfront, List.map_cons,
          List.eraseP_cons_of_pos (by simpa using he), List.map_append]
      rw [hgoal, if_pos he]
      rcases List.eq_nil_or_concat front with rfl | ⟨front, ⟨q, d⟩, rfl⟩
      · exact returns_pure.mpr ⟨.refl w, Holds.mk_of_linked _ hr rfl hfresh⟩
      · -- `prev` is the pair `q` before it: its next pointer skips `a`
        have hall' : Linked w.nodes env.vars (front ++ (q, d) :: (a, e) :: cs) := by
          simpa using hall
        obtain ⟨r, hr'⟩ := hall'.of_append
        obtain ⟨rfl, next', hq, -⟩ := Linked.cons_iff.mp hr'
        simp only [List.concat_eq_append, List.getLast?_append, List.getLast?_singleton,
          Option.some_or, Option.map_some, returns_bind, returns_loadPair hq, returns_storePair,
          returns_pure]
        refine ⟨sameDevice_store _ _ _, Holds.mk_of_linked (front ++ (q, d) :: cs) ?_
          (by simp) fun b hb => ?_⟩
        · rw [Linked, List.map_append, List.map_cons, List.map_cons] at hall'
          rw [Linked, List.map_append, List.map_cons]
          exact hall'.unlink hq hn rfl
        · have hne : b ≠ q := by
            rintro rfl
            simp [hfresh b hb] at hq
          rw [World.store_nodes, Function.update_of_ne hne]
          exact hfresh b hb
    · have hfront' : n ∉ ((front ++ [(a, e)]).map Prod.snd).map Prod.fst := by
        simpa [Ne.symm he] using hfront
      have := ih (front ++ [(a, e)]) (by simpa using hall) hr hfront'
        (by simpa using hfuel)
      rw [if_neg he]
      simpa using this

/-- **`uboot_env_unsetenv`** removes the first entry of the name. -/
theorem returns_ubootEnvUnsetenv (h : Holds w env xs) :
    Returns (ubootEnvUnsetenv env n.obj) w fun r w' =>
      r.1 = 0 ∧ r.2.envSize = env.envSize ∧ SameDevice w w' ∧
        Holds w' r.2 (xs.eraseP (·.1 = n)) := by
  obtain ⟨⟨cs, hcs, rfl⟩, hfresh⟩ := h
  simp only [ubootEnvUnsetenv, returns_bind, returns_listFuel, returns_pure, true_and]
  exact returns_unsetenvLoop [] hcs hcs hfresh (by simp)
    (Nat.lt_succ_of_le (hcs.length_le hfresh))

end LittleLoader
