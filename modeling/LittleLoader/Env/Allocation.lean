import LittleLoader.Block.Read
import LittleLoader.Block.Write

/-!
# Env/Allocation — how far the calls move the top of the heap

    uboot_env_read      24 + ⌈name⌉ + ⌈value⌉  a pair
    uboot_env_getenv    ⌈value⌉                  if the name is found
    uboot_env_setenv    ⌈value⌉, or a pair      in place, or in front of the list
    uboot_env_sort      8  a pair

where `⌈s⌉` is the size of a copy of `s`, with its NUL and rounded up to 8 bytes.  `free_` gives
nothing back, so the sizes add up.
-/

namespace LittleLoader

variable {α β : Type} {w w' : World} {env : UbootEnv} {xs es : List Entry} {e : Entry} {n v : CStr}
  {fuel : ℕ} {p : Option Addr}

/-! ## Sizes -/

/-- What `malloc_` moves the top of the heap by. -/
def allocated (size : ℕ) : ℕ := (size + 7) / 8 * 8

/-- A copy of a string. -/
def copyUse (s : CStr) : ℕ := allocated (s.bytes.length + 1)

/-- A pair with its copies. -/
def Entry.use (e : Entry) : ℕ := allocated sizeofPair + copyUse e.1 + copyUse e.2

/-- The pairs of a block. -/
def readUse (es : List Entry) : ℕ := (es.map Entry.use).sum

/-- The copy that `uboot_env_getenv` hands out. -/
def answerUse (v : Option CStr) : ℕ := v.elim 0 copyUse

/-- An assignment to the entries `xs`. -/
def setUse (u : Entry) (xs : List Entry) : ℕ :=
  if u.1 ∈ xs.map Prod.fst then copyUse u.2 else u.use

/-- Assignments, one after the other. -/
def setsUse : List Entry → List Entry → ℕ
  | [], _ => 0
  | u :: us, xs => setUse u xs + setsUse us (assign u.1 u.2 xs)

/-- The array of `uboot_env_sort`. -/
def sortUse (xs : List Entry) : ℕ := allocated (xs.length * 8)

theorem alloc_heap (w : World) (size : ℕ) : (w.alloc size).heap = w.heap + allocated size := rfl

@[simp] theorem readUse_cons : readUse (e :: es) = e.use + readUse es := by simp [readUse]

/-! ## Computations that allocate nothing -/

/-- The top of the heap is left alone, also by a run that stops. -/
def KeepsHeap (x : M α) : Prop :=
  ∀ w, Ends x w (fun _ w' => w'.heap = w.heap) fun _ w' => w'.heap = w.heap

namespace KeepsHeap

variable {x : M α} {f : α → M β}

theorem pure (a : α) : KeepsHeap (Pure.pure a : M α) := fun _ => ends_pure.mpr rfl

theorem throw (e : Stop) : KeepsHeap (MonadExcept.throw e : M α) := fun _ => ends_throw.mpr rfl

theorem bind (hx : KeepsHeap x) (hf : ∀ a, KeepsHeap (f a)) : KeepsHeap (x >>= f) := fun w =>
  ends_bind.mpr <| (hx w).mono (fun a w₁ h => (hf a w₁).mono (fun _ _ h' => h'.trans h)
    fun _ _ h' => h'.trans h) fun _ _ h => h

theorem map {g : α → β} (hx : KeepsHeap x) : KeepsHeap (g <$> x) := fun w =>
  ends_map.mpr (hx w)

theorem ite {c : Prop} [Decidable c] {y : M α} (hx : KeepsHeap x) (hy : KeepsHeap y) :
    KeepsHeap (if c then x else y) := by
  split <;> assumption

theorem access (o : Option α) : KeepsHeap (LittleLoader.access o) := by
  cases o with
  | none => exact throw _
  | some a => exact pure a

theorem loadPair (p : Addr) : KeepsHeap (LittleLoader.loadPair p) := fun w =>
  ends_bind.mpr (ends_get.mpr (access _ w))

theorem storePair (p : Addr) (v : UbootNameValue) : KeepsHeap (LittleLoader.storePair p v) :=
  fun _ => ends_modify.mpr rfl

theorem info (fmt : String) (args : List Arg) : KeepsHeap (LittleLoader.info fmt args) :=
  fun _ => ends_modify.mpr rfl

theorem errReturn (fmt : String) (args : List Arg) : KeepsHeap (LittleLoader.errReturn fmt args) :=
  (info fmt args).bind fun _ => pure _

theorem observe (e : Event) : KeepsHeap (LittleLoader.observe e) := fun _ => ends_modify.mpr rfl

theorem listFuel : KeepsHeap LittleLoader.listFuel := fun _ =>
  ends_bind.mpr (ends_get.mpr (ends_pure.mpr rfl))

end KeepsHeap

/-! ## `uboot_env_read` -/

/-- **The outer loop** allocates a pair for each entry of its payload. -/
theorem returns_readLoop_heap {payload stop : List Byte} (h : IsPayload payload es)
    (hfuel : payload.length < fuel) (hp : payload.length ≤ ptrdiffMax) :
    Returns (ubootEnvReadLoop stop fuel (payload ++ stop) env) w
      fun _ w' => w'.heap = w.heap + readUse es := by
  obtain ⟨hvalid, tail, rfl, htail⟩ := h
  induction es generalizing fuel w env with
  | nil =>
      obtain ⟨fuel, rfl⟩ : ∃ k, fuel = k + 1 := ⟨fuel - 1, by omega⟩
      rcases htail with rfl | ⟨rest, rfl⟩
      · simp [ubootEnvReadLoop, readUse]
      · have hlen : (0#8 :: (rest ++ stop)).length ≠ stop.length := by
          simp
          omega
        rw [encode_nil, List.nil_append, List.cons_append, ubootEnvReadLoop, if_neg hlen,
          returns_bind, returns_deref_cons, if_pos rfl, returns_pure]
        rfl
  | cons e es ih =>
      obtain ⟨fuel, rfl⟩ : ∃ k, fuel = k + 1 := ⟨fuel - 1, by omega⟩
      rw [List.forall_mem_cons] at hvalid
      rw [encode_cons, List.append_assoc, List.length_append, Entry.length_encode] at hfuel hp
      rw [encode_cons, List.append_assoc, List.append_assoc, ← List.append_assoc (encode es),
        ubootEnvReadLoop_entry hvalid.1]
      simp only [returns_bind, returns_malloc,
        returns_strndup_name (s := e.1) (show e.1.bytes.length ≤ ptrdiffMax by omega),
        returns_strndup_value (s := e.2) (show e.2.bytes.length ≤ ptrdiffMax by omega),
        returns_storePair]
      refine (ih hvalid.2 (by omega) (by omega)).mono fun _ w' hw' => ?_
      rw [hw', readUse_cons]
      simp only [World.store_heap, alloc_heap, Entry.use, copyUse, Nat.add_assoc]

/-- **`uboot_env_read`** allocates the pairs of the block. -/
theorem returns_ubootEnvRead_heap (h : Holds w env xs) {block : List Byte}
    (hblock : HasBlock env block) (hes : IsBlock block es) :
    Returns (ubootEnvRead env block) w fun r w' =>
      (r.1 = 0 ∧ r.2.envSize = env.envSize ∧ SameDevice w w' ∧ Holds w' r.2 es.reverse) ∧
        w'.heap = w.heap + readUse es := by
  have hread := returns_ubootEnvRead h hblock hes []
  rw [List.append_nil] at hread
  have hloop : Returns (ubootEnvRead env (block ++ [])) w _ := returns_ubootEnvRead_loop h hblock
    hes.isSealed (returns_readLoop_heap hes.payload (by simp) hblock.payload_le)
  rw [List.append_nil] at hloop
  exact hread.and hloop

/-! ## `uboot_env_sort` and `uboot_env_write` -/

theorem keepsHeap_fillPairs (fuel : ℕ) (p : Option Addr) (i : ℕ) (arr : List Addr) :
    KeepsHeap (fillPairs fuel p i arr) := by
  induction fuel generalizing p i arr with
  | zero => exact .throw _
  | succ fuel ih =>
      cases p with
      | none => exact .pure _
      | some p =>
          rw [fillPairs]
          exact .ite (.bind (.throw _) fun _ => .bind (.loadPair p) fun _ => ih _ _ _)
            (.bind (.loadPair p) fun _ => ih _ _ _)

theorem keepsHeap_qsortInner {compar : α → α → M ℤ} (hcompar : ∀ a b, KeepsHeap (compar a b))
    (rounds j : ℕ) (arr : List α) : KeepsHeap (qsortInner compar rounds j arr) := by
  induction rounds generalizing j arr with
  | zero => exact .pure _
  | succ rounds ih =>
      exact .bind (.access _) fun a => .bind (.access _) fun b => .bind (hcompar a b) fun _ =>
        .ite (ih _ _) (ih _ _)

theorem keepsHeap_qsortOuter {compar : α → α → M ℤ} (hcompar : ∀ a b, KeepsHeap (compar a b))
    (nel rounds i : ℕ) (arr : List α) : KeepsHeap (qsortOuter compar nel rounds i arr) := by
  induction rounds generalizing i arr with
  | zero => exact .pure _
  | succ rounds ih => exact .bind (keepsHeap_qsortInner hcompar _ _ _) fun _ => ih _ _

theorem keepsHeap_qsort {compar : α → α → M ℤ} (hcompar : ∀ a b, KeepsHeap (compar a b))
    (arr : List α) (nel : ℕ) : KeepsHeap (qsort arr nel compar) :=
  .ite (.throw _) (keepsHeap_qsortOuter hcompar _ _ _ _)

theorem keepsHeap_envNameCompare (a b : Addr) : KeepsHeap (envNameCompare a b) :=
  .bind (.loadPair a) fun _ => .bind (.loadPair b) fun _ => .access _

theorem keepsHeap_setNext (p : Addr) (next : Option Addr) : KeepsHeap (setNext p next) :=
  .bind (.loadPair p) fun _ => .storePair _ _

theorem keepsHeap_relinkPairs (arr : List Addr) (rounds i : ℕ) :
    KeepsHeap (relinkPairs arr rounds i) := by
  induction rounds generalizing i with
  | zero => exact .pure _
  | succ rounds ih =>
      exact .bind (.access _) fun _ => .bind (.access _) fun _ =>
        .bind (keepsHeap_setNext _ _) fun _ => ih _

theorem keepsHeap_writeLoop (stop fuel : ℕ) (p : Option Addr) (buffer : List Byte) (i : ℕ) :
    KeepsHeap (ubootEnvWriteLoop stop fuel p buffer i) := by
  induction fuel generalizing p buffer i with
  | zero => exact .throw _
  | succ fuel ih =>
      cases p with
      | none => exact .pure _
      | some p =>
          rw [ubootEnvWriteLoop]
          refine .bind (.loadPair p) fun _ => .bind (.access _) fun _ => .bind (.access _) fun _ =>
            .ite (.bind (.errReturn _ _) fun _ => .pure _) ?_
          exact .bind (.access _) fun _ => .bind (.access _) fun _ => .bind (.access _) fun _ =>
            .bind (.access _) fun _ => ih _ _ _

theorem ends_malloc {size : ℕ} {Q : Addr → World → Prop} {E : Stop → World → Prop} :
    Ends (malloc size) w Q E ↔ Q w.heap (w.alloc size) := by
  simp [malloc, World.alloc]

/-- **The sort** allocates its array. -/
theorem ends_ubootEnvSort_heap (h : Holds w env xs) :
    Ends (ubootEnvSort env) w (fun _ w' => w'.heap = w.heap + sortUse xs)
      fun _ w' => w'.heap ≤ w.heap + sortUse xs := by
  obtain ⟨⟨cs, hcs, rfl⟩, hfresh⟩ := h
  have hfuel : cs.length < w.heap + 1 := Nat.lt_succ_of_le (hcs.length_le hfresh)
  have hfuel' : Returns listFuel w fun fuel w' => fuel = w.heap + 1 ∧ w' = w :=
    returns_listFuel.mpr ⟨rfl, rfl⟩
  refine hfuel'.ends_bind ?_
  rintro _ _ ⟨rfl, rfl⟩
  refine (returns_countPairs hcs hfuel).ends_bind ?_
  rintro _ _ ⟨rfl, rfl⟩
  by_cases hlen : cs.length = 0
  · rw [if_pos hlen]
    simp [sortUse, hlen, allocated]
  · rw [if_neg hlen, ends_bind, ends_malloc]
    have hrest : KeepsHeap (do
        let pairarray ← fillPairs (← listFuel) env.vars 0 (List.replicate cs.length 0)
        let pairarray ← qsort pairarray cs.length envNameCompare
        relinkPairs pairarray (cs.length - 1) 0
        let last ← access pairarray[cs.length - 1]?
        setNext last none
        let first ← access pairarray[0]?
        return { env with vars := some first }) :=
      .bind .listFuel fun _ => .bind (keepsHeap_fillPairs _ _ _ _) fun _ =>
        .bind (keepsHeap_qsort keepsHeap_envNameCompare _ _) fun _ =>
        .bind (keepsHeap_relinkPairs _ _ _) fun _ => .bind (.access _) fun _ =>
        .bind (keepsHeap_setNext _ _) fun _ => .bind (.access _) fun _ => .pure _
    have huse : sortUse (cs.map Prod.snd) = allocated (cs.length * 8) := by
      rw [sortUse, List.length_map]
    rw [huse]
    exact (hrest _).mono (fun _ _ hw' => hw') fun _ _ hw' => hw'.le

/-- **`uboot_env_write`** allocates for its sort only. -/
theorem ends_ubootEnvWrite_heap (h : Holds w env xs) {buffer : List Byte} (hsize : 8 ≤ env.envSize) :
    Ends (ubootEnvWrite env buffer) w (fun _ w' => w'.heap = w.heap + sortUse xs)
      fun _ w' => w'.heap ≤ w.heap + sortUse xs := by
  rw [ubootEnvWrite, if_neg (by omega), ends_bind]
  cases memset buffer 0xff#8 env.envSize with
  | none => exact ends_throw.mpr (Nat.le_add_right _ _)
  | some filled =>
      refine ends_pure.mpr (ends_bind.mpr ((ends_ubootEnvSort_heap h).mono ?_ fun _ _ hw' => hw'))
      intro env₁ w₁ hw₁
      have hrest : KeepsHeap (do
          let r ← ubootEnvWriteLoop (env₁.envSize - 2) (← listFuel) env₁.vars filled 4
          if r.1 < 0 then return (r.1, env₁, r.2.1)
          let buffer ← access (poke r.2.1 r.2.2 0#8)
          let crc32 ← access (crc32buf (buffer.drop 4) (sizeT (env₁.envSize - 4)))
          let buffer ← access (storeCrc32 buffer crc32)
          return (0, env₁, buffer)) :=
        .bind .listFuel fun _ => .bind (keepsHeap_writeLoop _ _ _ _ _) fun _ =>
          .ite (.pure _) (.bind (.access _) fun _ => .bind (.access _) fun _ =>
            .bind (.access _) fun _ => .pure _)
      exact (hrest w₁).mono (fun _ _ hw' => hw'.trans hw₁) fun _ _ hw' => (hw'.trans hw₁).le

/-! ## `uboot_env_getenv` and `uboot_env_setenv` -/

theorem copied_heap (w : World) (v : Option CStr) : (w.copied v).heap = w.heap + answerUse v := by
  cases v <;> rfl

/-- **`uboot_env_getenv`** allocates a copy of the value. -/
theorem returns_ubootEnvGetenv_heap (h : Holds w env xs) (rest : List Byte) :
    Returns (ubootEnvGetenv env (n.obj ++ rest)) w fun r w' =>
      r = answer (xs.lookup n) ∧ Quiet w w' ∧ w'.heap = w.heap + answerUse (xs.lookup n) :=
  (returns_ubootEnvGetenv_copied h rest).mono fun _ _ hr =>
    ⟨hr.1, hr.2.1, hr.2.2.trans (copied_heap _ _)⟩

/-- The loop of `uboot_env_setenv` allocates a copy of the value, if it finds the name. -/
theorem ends_setenvLoop_heap (name : List Byte) :
    Ends (ubootEnvSetenvLoop name v.obj fuel p) w
      (fun found w' => w'.heap = w.heap + if found then copyUse v else 0) fun _ _ => True := by
  induction fuel generalizing p w with
  | zero => exact ends_throw.mpr trivial
  | succ fuel ih =>
      cases p with
      | none => exact ends_pure.mpr rfl
      | some p =>
          rw [ubootEnvSetenvLoop, ends_bind]
          refine (KeepsHeap.loadPair p w).mono ?_ fun _ _ _ => trivial
          intro pair w₁ hw₁
          rw [ends_bind]
          refine (KeepsHeap.access _ w₁).mono ?_ fun _ _ _ => trivial
          intro r w₂ hw₂
          have hheap : w₂.heap = w.heap := hw₂.trans hw₁
          split
          · refine Returns.ends (returns_bind.mpr (returns_strdup.mpr ?_))
            rw [returns_bind, returns_storePair, returns_pure, if_pos rfl]
            exact congrArg (· + copyUse v) hheap
          · exact ih.mono (fun _ _ hw' => hw'.trans (congrArg (· + _) hheap)) fun _ _ h => h

/-- **`uboot_env_setenv`** allocates a copy of the value, or a whole pair. -/
theorem returns_ubootEnvSetenv_heap (h : Holds w env xs) :
    Returns (ubootEnvSetenv env n.obj v.obj) w fun r w' =>
      (r.1 = 0 ∧ r.2.envSize = env.envSize ∧ SameDevice w w' ∧ Holds w' r.2 (assign n v xs)) ∧
        w'.heap = w.heap + setUse (n, v) xs := by
  refine (returns_ubootEnvSetenv h).and_ends (E := fun _ _ => True) ?_
  obtain ⟨⟨cs, hcs, rfl⟩, hfresh⟩ := h
  have hfuel : Returns listFuel w fun fuel w' => fuel = w.heap + 1 ∧ w' = w :=
    returns_listFuel.mpr ⟨rfl, rfl⟩
  refine hfuel.ends_bind ?_
  rintro _ w ⟨rfl, rfl⟩
  have hloop : Returns (ubootEnvSetenvLoop n.obj v.obj (w.heap + 1) env.vars) w _ :=
    (returns_setenvLoop [] hcs hcs hfresh (by simp)
      (Nat.lt_succ_of_le (hcs.length_le hfresh))).and_ends (ends_setenvLoop_heap n.obj)
  refine hloop.ends_bind ?_
  rintro found w₁ ⟨⟨hfound, hmissing⟩, hheap⟩
  by_cases hmem : n ∈ (cs.map Prod.snd).map Prod.fst
  · obtain ⟨rfl, -⟩ := hfound hmem
    rw [if_pos rfl, setUse, if_pos hmem]
    exact ends_pure.mpr (by simpa using hheap)
  · obtain ⟨rfl, rfl⟩ := hmissing hmem
    rw [if_neg (by simp), setUse, if_neg hmem]
    refine Returns.ends ?_
    simp only [returns_bind, returns_malloc, returns_strdup, returns_storePair, returns_pure,
      World.store_heap, alloc_heap, Entry.use, copyUse, Nat.add_assoc]

/-- **Calls of `uboot_env_setenv`**, one after the other. -/
theorem returns_ubootEnvSetenvs_heap (us : List Entry) (h : Holds w env xs) :
    Returns (ubootEnvSetenvs us env) w fun r w' =>
      (r.envSize = env.envSize ∧ SameDevice w w' ∧ Holds w' r (assigns us xs)) ∧
        w'.heap = w.heap + setsUse us xs := by
  refine (returns_ubootEnvSetenvs us h).and_ends (E := fun _ _ => True) ?_
  induction us generalizing w env xs with
  | nil => exact ends_pure.mpr rfl
  | cons u us ih =>
      refine (returns_ubootEnvSetenv_heap h).ends_bind ?_
      rintro ⟨rc, env₁⟩ w₁ ⟨⟨-, -, -, hw₁⟩, hheap⟩
      refine (ih hw₁).mono (fun _ _ hw' => ?_) fun _ _ h => h
      rw [hw', hheap, setsUse, Nat.add_assoc]

end LittleLoader
