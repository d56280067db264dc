import LittleLoader.Strings.CStr

/-!
# Machine/Steps — the primitive steps in the calculus, and what a step leaves alone

One equation for each primitive of `Machine/World` pushes `Returns` through it.  `SameDevice` and
`Quiet` are the frames of the specifications: what the environment code never touches, and what its
reading half never touches.
-/

namespace LittleLoader

variable {α : Type} {w w' w'' : World}

/-! ## Frames -/

/-- Disk, device and trace are as before: nothing observable from outside has happened. -/
structure SameDevice (w w' : World) : Prop where
  disk : w'.disk = w.disk
  completions : w'.completions = w.completions
  trace : w'.trace = w.trace

/-- Besides, no node has changed: memory has at most been allocated, and messages printed. -/
structure Quiet (w w' : World) : Prop extends SameDevice w w' where
  nodes : w'.nodes = w.nodes
  heap : w.heap ≤ w'.heap

namespace SameDevice

@[refl] theorem refl (w : World) : SameDevice w w := ⟨rfl, rfl, rfl⟩

theorem trans (h : SameDevice w w') (h' : SameDevice w' w'') : SameDevice w w'' :=
  ⟨h'.disk.trans h.disk, h'.completions.trans h.completions, h'.trace.trans h.trace⟩

end SameDevice

namespace Quiet

@[refl] theorem refl (w : World) : Quiet w w := ⟨.refl w, rfl, le_rfl⟩

theorem trans (h : Quiet w w') (h' : Quiet w' w'') : Quiet w w'' :=
  ⟨h.toSameDevice.trans h'.toSameDevice, h'.nodes.trans h.nodes, h.heap.trans h'.heap⟩

end Quiet

/-! ## The state after a step -/

/-- The heap after an allocation of `size` bytes. -/
def World.alloc (w : World) (size : ℕ) : World := { w with heap := w.heap + (size + 7) / 8 * 8 }

/-- The console after a message. -/
def World.say (w : World) (m : Message) : World := { w with console := w.console ++ [m] }

/-- The trace after an observable step. -/
def World.observe (w : World) (e : Event) : World := { w with trace := w.trace ++ [e] }

/-- The store after a pair has been written. -/
def World.store (w : World) (p : Addr) (v : UbootNameValue) : World :=
  { w with nodes := Function.update w.nodes p (some v) }

@[simp] theorem World.alloc_heap (w : World) (size : ℕ) :
    (w.alloc size).heap = w.heap + (size + 7) / 8 * 8 := rfl

@[simp] theorem World.alloc_nodes (w : World) (size : ℕ) : (w.alloc size).nodes = w.nodes := rfl

@[simp] theorem World.say_heap (w : World) (m : Message) : (w.say m).heap = w.heap := rfl

@[simp] theorem World.say_nodes (w : World) (m : Message) : (w.say m).nodes = w.nodes := rfl

@[simp] theorem World.observe_heap (w : World) (e : Event) : (w.observe e).heap = w.heap := rfl

@[simp] theorem World.observe_nodes (w : World) (e : Event) : (w.observe e).nodes = w.nodes := rfl

@[simp] theorem World.observe_disk (w : World) (e : Event) : (w.observe e).disk = w.disk := rfl

@[simp] theorem World.observe_completions (w : World) (e : Event) :
    (w.observe e).completions = w.completions := rfl

@[simp] theorem World.observe_trace (w : World) (e : Event) :
    (w.observe e).trace = w.trace ++ [e] := rfl

@[simp] theorem World.store_heap (w : World) (p : Addr) (v : UbootNameValue) :
    (w.store p v).heap = w.heap := rfl

@[simp] theorem World.store_nodes (w : World) (p : Addr) (v : UbootNameValue) :
    (w.store p v).nodes = Function.update w.nodes p (some v) := rfl

theorem quiet_alloc (w : World) (size : ℕ) : Quiet w (w.alloc size) :=
  ⟨⟨rfl, rfl, rfl⟩, rfl, Nat.le_add_right _ _⟩

theorem quiet_say (w : World) (m : Message) : Quiet w (w.say m) := ⟨⟨rfl, rfl, rfl⟩, rfl, le_rfl⟩

theorem sameDevice_store (w : World) (p : Addr) (v : UbootNameValue) :
    SameDevice w (w.store p v) := ⟨rfl, rfl, rfl⟩

/-! ## Lengths as `size_t` -/

variable {k n : ℕ}

/-- The blocks of the program are small objects. -/
theorem le_ptrdiffMax (h : n ≤ 1048576) : n ≤ ptrdiffMax := by
  unfold ptrdiffMax
  omega

theorem sizeT_natCast (h : k ≤ ptrdiffMax) : sizeT k = k := by
  unfold sizeT
  unfold ptrdiffMax at h
  omega

theorem sizeT_sub (hk : k ≤ n) (h : n ≤ ptrdiffMax) : sizeT (n - k) = n - k := by
  rw [← Int.ofNat_sub hk, sizeT_natCast (by omega)]

/-- A negative length is a huge `size_t`: no bound for a string in an object. -/
theorem le_sizeT_neg (h : k ≤ ptrdiffMax) : k ≤ sizeT (-k) := by
  unfold sizeT
  unfold ptrdiffMax at h
  omega

/-! ## The primitive steps -/

@[simp] theorem returns_access_some {a : α} {Q : α → World → Prop} :
    Returns (access (some a)) w Q ↔ Q a w := returns_pure

theorem returns_access {o : Option α} {a : α} {Q : α → World → Prop} (h : o = some a) :
    Returns (access o) w Q ↔ Q a w := by rw [h, returns_access_some]

theorem returns_access_iff {o : Option α} {Q : α → World → Prop} :
    Returns (access o) w Q ↔ ∃ a, o = some a ∧ Q a w := by
  cases o with
  | none => simp [access]
  | some a => simp

theorem ends_access {o : Option α} {a : α} {Q : α → World → Prop} {E : Stop → World → Prop}
    (h : o = some a) : Ends (access o) w Q E ↔ Q a w := by
  rw [h]
  exact ends_pure

@[simp] theorem returns_deref_cons {c : Byte} {p : List Byte} {Q : Byte → World → Prop} :
    Returns (deref (c :: p)) w Q ↔ Q c w := returns_pure

@[simp] theorem returns_info {fmt : String} {args : List Arg} {Q : Unit → World → Prop} :
    Returns (info fmt args) w Q ↔ Q () (w.say ⟨fmt, args⟩) := returns_modify

@[simp] theorem returns_errReturn {fmt : String} {args : List Arg} {Q : ℤ → World → Prop} :
    Returns (errReturn fmt args) w Q ↔ Q (-1) (w.say ⟨fmt, args⟩) := by simp [errReturn]

@[simp] theorem returns_observe {e : Event} {Q : Unit → World → Prop} :
    Returns (observe e) w Q ↔ Q () (w.observe e) := returns_modify

@[simp] theorem ends_observe {e : Event} {Q : Unit → World → Prop} {E : Stop → World → Prop} :
    Ends (observe e) w Q E ↔ Q () (w.observe e) := ends_modify

@[simp] theorem returns_malloc {size : ℕ} {Q : Addr → World → Prop} :
    Returns (malloc size) w Q ↔ Q w.heap (w.alloc size) := by simp [malloc, World.alloc]

theorem returns_loadPair {p : Addr} {n : UbootNameValue} {Q : UbootNameValue → World → Prop}
    (h : w.nodes p = some n) : Returns (loadPair p) w Q ↔ Q n w := by
  simp [loadPair, h]

@[simp] theorem returns_storePair {p : Addr} {v : UbootNameValue} {Q : Unit → World → Prop} :
    Returns (storePair p v) w Q ↔ Q () (w.store p v) := returns_modify

/-! ## Copies of strings -/

/-- **`strdup_`** allocates a copy of the string. -/
@[simp] theorem returns_strdup {s : CStr} {Q : List Byte → World → Prop} :
    Returns (strdup s.obj) w Q ↔ Q s.obj (w.alloc (s.bytes.length + 1)) := by
  have hlen : s.bytes.length + 1 = s.obj.length := by simp [CStr.obj]
  have hcopy : memcpy (List.replicate s.obj.length 0#8) s.obj s.obj.length = some s.obj := by
    rw [memcpy_eq (by simp) le_rfl]
    simp
  simp [strdup, hlen, hcopy]

/-- **`strndup_`** allocates a copy of the `k` characters that `strnlen_` counts. -/
theorem returns_strndup {l : List Byte} {n k : ℕ} {Q : List Byte → World → Prop}
    (h : strnlen l n = some k) (hk : k ≤ l.length) :
    Returns (strndup l n) w Q ↔ Q (l.take k ++ [0#8]) (w.alloc (k + 1)) := by
  have hcopy : memcpy (List.replicate (k + 1) 0#8) l k = some (l.take k ++ [0#8]) := by
    rw [memcpy_eq (by simp) hk, List.drop_replicate]
    simp
  have hlen : (l.take k).length = k := List.length_take_of_le hk
  have hpoke : poke (l.take k ++ [0#8]) k 0#8 = some (l.take k ++ [0#8]) := by
    rw [poke_eq (by simp [hlen]), List.set_append_right _ _ hlen.le, hlen]
    simp
  simp [strndup, h, hcopy, hpoke]

/-- A comparison with a string for equality; more bytes may follow in its object. -/
theorem returns_strcmp_append {β : Type} {s t : CStr} (rest : List Byte) {x y : M β}
    {Q : β → World → Prop} :
    Returns (access (strcmp s.obj (t.obj ++ rest)) >>= fun r => if r = 0 then x else y) w Q ↔
      Returns (if s = t then x else y) w Q := by
  obtain ⟨r, hr, h₀, -⟩ := strcmp_obj s t
  simp only [strcmp_append hr, returns_bind, returns_access_some, h₀]

theorem returns_strcmp_eq {β : Type} {s t : CStr} {x y : M β} {Q : β → World → Prop} :
    Returns (access (strcmp s.obj t.obj) >>= fun r => if r = 0 then x else y) w Q ↔
      Returns (if s = t then x else y) w Q := by
  simpa only [List.append_nil] using returns_strcmp_append []

end LittleLoader
