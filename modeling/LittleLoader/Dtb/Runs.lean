import LittleLoader.Dtb.Load
import LittleLoader.Foundations.Simulation

/-!
# Dtb/Runs — a blob under any sequence of edits

    request:   path ──fdt_path_offset──▸ offset ──fdt_…──▸ blob

The abstract state is a tree and a number of free bytes.  A request is done, or refused with the
error that it has on that tree, or refused because there is not enough free space; a run of requests
on the blob has a run of these steps behind it (`Layout.Stores.runs`), and where there is room for
all of them none is refused for space (`Traces.eq_foldl`).
-/

namespace LittleLoader

open Memory Mem

variable {m m' : Mem} {fdt n f f' : ℕ} {l l' : Layout} {t t' x y : Node} {p : List ℕ}
  {ks : List (List Byte)} {k : CStr} {v : List Byte} {r : ℤ}

/-! ## Requests -/

/-- An edit of the node that a path names. -/
structure Request where
  path : CStr
  edit : Edit
deriving DecidableEq

namespace Request

variable (q : Request)

/-- The node is looked up, and then edited. -/
def call (fdt : ℕ) (q : Request) (m : Mem) : MemM (ℤ × Mem) := do
  let offset ← fdtPathOffset m fdt q.path.bytes
  if offset < 0 then return (offset, m)
  q.edit.call m fdt offset

/-- **The meaning** of a request. -/
def apply (t : Node) : Except FdtErr Node :=
  match t.find (pathNames q.path.bytes) with
  | none => .error .notfound
  | some p =>
      match t.get? p with
      | none => .error .notfound
      | some x => q.edit.apply t p x

/-- The tree after the request. -/
def after (t : Node) : Node :=
  match q.apply t with
  | .ok t' => t'
  | .error _ => t

/-- The path begins with a slash and is not that of the root if the node is to be taken away; with
the blob, the arguments are not too large for an `int`. -/
structure Valid (n : ℕ) (q : Request) : Prop where
  path : q.path.bytes.head? = some (chr '/')
  root : q.edit = .delNode ∨ q.edit = .nopNode → pathNames q.path.bytes ≠ []
  size : n + q.edit.size < 0x80000000
  length : q.path.bytes.length < 0x80000000

/-- **A step**: a tree with free space behind it, and the return code. -/
inductive Step (q : Request) : Node × ℕ → ℤ → Node × ℕ → Prop
  | done {t t' : Node} {f f' : ℕ} {r : ℤ} (h : q.apply t = .ok t') (hf : f ≤ f' + q.edit.room)
      (hr : 0 ≤ r) : Step q (t, f) r (t', f')
  | refused {t : Node} {f : ℕ} {e : FdtErr} (h : q.apply t = .error e) : Step q (t, f) e.code (t, f)
  | nospace {t t' : Node} {f : ℕ} (h : q.apply t = .ok t') (hf : f < q.edit.room) :
      Step q (t, f) FdtErr.nospace.code (t, f)

end Request

/-! ### Runs with room for all requests -/

/-- **Where there is room for all requests, each is done** unless the tree refuses it. -/
theorem Traces.eq_foldl {qs : List Request} {rs : List ℤ} {s s' : Node × ℕ}
    (h : Traces Request.Step qs s rs s') (hroom : (qs.map fun q => q.edit.room).sum ≤ s.2) :
    s'.1 = qs.foldl (fun t q => q.after t) s.1 := by
  induction h with
  | nil => rfl
  | @cons q qs r rs s u w hstep _ ih =>
    rw [List.map_cons, List.sum_cons] at hroom
    rw [List.foldl_cons]
    cases hstep with
    | @done t t' f f' r happly hf hr =>
      have hafter : q.after t = t' := by rw [Request.after, happly]
      rw [hafter]
      exact ih (by dsimp only at hroom ⊢; omega)
    | @refused t f e happly =>
      have hafter : q.after t = t := by rw [Request.after, happly]
      rw [hafter]
      exact ih (by dsimp only at hroom ⊢; omega)
    | nospace happly hf =>
      dsimp only at hroom
      omega

/-! ## One request -/

theorem Node.find_ne_nil (h : t.find ks = some p) (hks : ks ≠ []) : p ≠ [] := by
  obtain ⟨k, ks, rfl⟩ := List.exists_cons_of_ne_nil hks
  rw [Node.find, List.map_cons, Rose.locate] at h
  obtain ⟨i, -, hi⟩ := Option.bind_eq_some_iff.mp h
  obtain ⟨c, -, hc⟩ := Option.bind_eq_some_iff.mp hi
  obtain ⟨p, -, rfl⟩ := Option.map_eq_some_iff.mp hc
  exact List.cons_ne_nil _ _

/-- **A request** does what it means, or it is refused. -/
theorem Loaded.exists_request {q : Request} (h : Loaded m fdt l) (ht : l.HasTree t)
    (hq : q.Valid l.totalsize) :
    ∃ r m', q.call fdt m = .ok (r, m') ∧
      match q.apply t with
      | .ok t' => EditEnd fdt m l q.edit.room (fun _ l' => l'.HasTree t') r m'
      | .error e => r = e.code ∧ m' = m := by
  obtain ⟨pad, post, hroot⟩ := ht.place
  have hfound := h.pathOffset_find hroot hq.path
  rw [Request.call, Request.apply]
  cases hfind : t.find (pathNames q.path.bytes) with
  | none =>
    rw [hfind] at hfound
    rw [show fdtPathOffset m fdt q.path.bytes = _ from hfound, ok_bind, if_pos (by decide), pure_eq]
    exact ⟨_, m, rfl, rfl, rfl⟩
  | some p =>
    rw [hfind] at hfound
    obtain ⟨x, pre, pad, post, us, hx, hpath⟩ := hfound
    rw [List.nil_append] at hx
    rw [hpath, ok_bind, if_neg (not_lt.mpr (offset_nonneg pre))]
    simp only [hx.node]
    exact h.exists_call q.edit hx (fun hdel => Node.find_ne_nil hfind (hq.root hdel)) hq.size

/-- **The blob of an edited tree** is what the memory holds. -/
def HoldsTree (fdt : ℕ) (m₀ : Mem) (l₀ : Layout) (m : Mem) (s : Node × ℕ) : Prop :=
  ∃ l, Edited fdt m₀ l₀ m l ∧ l.HasTree s.1 ∧ l.free.length = s.2

/-- **Requests simulate steps of the tree.** -/
theorem simulates_requests {m₀ : Mem} {l₀ : Layout} :
    Simulates (HoldsTree fdt m₀ l₀) (Request.Valid l₀.totalsize) (Request.call fdt) Request.Step := by
  rintro q m ⟨t, f⟩ hq ⟨l, hedit, ht, hf⟩
  dsimp only at ht hf
  subst hf
  obtain ⟨r, m', hcall, hend⟩ := hedit.loaded.exists_request ht (hedit.totalsize ▸ hq)
  cases happly : q.apply t with
  | error e =>
    rw [happly] at hend
    obtain ⟨rfl, rfl⟩ := hend
    exact ⟨_, _, _, hcall, .refused happly, l, hedit, ht, rfl⟩
  | ok t' =>
    rw [happly] at hend
    cases hend with
    | done l' hedit' hfree hr htree =>
      exact ⟨r, m', (t', l'.free.length), hcall, .done happly hfree hr, l', hedit.trans hedit', htree,
        rfl⟩
    | nospace l' hedit' hroom hr hstructs hstrings =>
      subst hr
      have hlen := hedit'.length_free
      have htree : l'.HasTree t := by
        obtain ⟨i, is, htag, hi, hd⟩ := ht
        exact ⟨i, is, htag, ⟨hstructs ▸ hi.structs, hi.padded⟩, hstrings ▸ hd⟩
      refine ⟨_, m', (t, l.free.length), hcall, .nospace happly hroom, l', hedit.trans hedit', htree, ?_⟩
      rw [hstructs, hstrings] at hlen
      dsimp only
      omega

/-- A request that the tree does not refuse is done if there is room. -/
theorem Request.Step.of_room {q : Request} (h : q.Step (t, f) r (x, f'))
    (happly : q.apply t = .ok t') (hroom : q.edit.room ≤ f) : 0 ≤ r ∧ x = t' := by
  cases h with
  | done happly' _ hr => exact ⟨hr, Except.ok.inj (happly'.symm.trans happly)⟩
  | refused happly' => exact absurd (happly'.symm.trans happly) nofun
  | nospace _ hf => omega

/-- …and the blob is then one of the edited tree. -/
theorem Layout.Stores.call_done {t : DeviceTree} {q : Request} {root : Node} (hs : l.Stores t)
    (he : l.Editable) (hhas : Has m fdt l.bytes) (halign : fdt % 8 = 0)
    (hbound : fdt + l.totalsize ≤ 0x10000000000000000) (hq : q.Valid l.totalsize)
    (happly : q.apply t.root = .ok root) (hroom : q.edit.room ≤ l.free.length) :
    ∃ r m' b, q.call fdt m = .ok (r, m') ∧ 0 ≤ r ∧ Has m' fdt b ∧
      IsDtb b ⟨t.bootCpuid, t.reservations, root⟩ := by
  have hloaded := hs.loaded hhas he.size halign hbound
  obtain ⟨r, m', ⟨root', f⟩, hcall, hstep, l', hedit, htree, -⟩ := simulates_requests q m
    (t.root, l.free.length) hq ⟨l, hloaded.edited_refl, hs.hasTree he.root, rfl⟩
  obtain ⟨hr, rfl⟩ := hstep.of_room happly hroom
  exact ⟨r, m', l'.bytes, hcall, hr, hedit.loaded.has, l', rfl, hs.edited hedit htree⟩

/-! ## Runs -/

/-- **A blob under any sequence of requests**: each request ends; the bytes are then the blob of one
tree, reached by the steps that the return codes tell, and nothing outside the blob has changed. -/
theorem Layout.Stores.runs {t : DeviceTree} {qs : List Request} (hs : l.Stores t)
    (he : l.Editable) (hhas : Has m fdt l.bytes) (halign : fdt % 8 = 0)
    (hbound : fdt + l.totalsize ≤ 0x10000000000000000) (hqs : ∀ q ∈ qs, q.Valid l.totalsize) :
    ∃ rs m' root f b, runInputs (Request.call fdt) qs m = .ok (rs, m') ∧
      SameOutside fdt l.totalsize m m' ∧ b.length = l.totalsize ∧ Has m' fdt b ∧
      (∀ u, IsDtb b u ↔ u = ⟨t.bootCpuid, t.reservations, root⟩) ∧
      Traces Request.Step qs (t.root, l.free.length) rs (root, f) ∧
      ((qs.map fun q => q.edit.room).sum ≤ l.free.length →
        root = qs.foldl (fun t q => q.after t) t.root) := by
  have hloaded := hs.loaded hhas he.size halign hbound
  obtain ⟨rs, m', ⟨root, f⟩, hrun, htraces, l', hedit, htree, hf⟩ := simulates_requests.run hqs
    (s := m) (t := (t.root, l.free.length)) ⟨l, hloaded.edited_refl, hs.hasTree he.root, rfl⟩
  have hstores := hs.edited hedit htree
  refine ⟨rs, m', root, f, l'.bytes, hrun, hedit.same, l'.length_bytes.trans hedit.totalsize,
    hedit.loaded.has, fun u => ⟨fun hu => hu.unique ⟨l', rfl, hstores⟩, ?_⟩, htraces,
    htraces.eq_foldl⟩
  rintro rfl
  exact ⟨l', rfl, hstores⟩

/-- A property is set under `/chosen`. -/
def setQuiet : Request := ⟨.lit "/chosen", .setprop bootargs (lit "quiet")⟩

theorem setQuiet_valid : setQuiet.Valid unitAddress.totalsize :=
  ⟨by decide, by simp [setQuiet], by decide, by decide⟩

theorem setQuiet_apply : setQuiet.apply unitAddressTree.root
    = .ok (unitAddressTree.setBootargs (.lit "quiet")).root := rfl

/-- A property is set and its node taken away, and taken away again. -/
def unitAddressRequests : List Request :=
  [setQuiet, ⟨.lit "/chosen", .delNode⟩, ⟨.lit "/chosen", .delNode⟩]

/-- The root alone is left. -/
theorem runs_unitAddress : ∃ rs m' b,
    runInputs (Request.call 0x2000) unitAddressRequests
        (Memory.write (fun _ => 0#8) 0x2000 unitAddress.bytes) = .ok (rs, m') ∧
      Has m' 0x2000 b ∧ ∀ u, IsDtb b u ↔ u = ⟨0, [], .mk rootName [] []⟩ := by
  have hvalid : ∀ q ∈ unitAddressRequests, q.Valid unitAddress.totalsize := by
    have hall (q : Request) (h : q.path = .lit "/chosen")
        (hsize : unitAddress.totalsize + q.edit.size < 0x80000000) :
        q.Valid unitAddress.totalsize :=
      ⟨by rw [h]; decide, fun _ => by rw [h]; decide, hsize, by rw [h]; decide⟩
    simp only [unitAddressRequests, List.forall_mem_cons]
    exact ⟨hall _ rfl (by decide), hall _ rfl (by decide), hall _ rfl (by decide), by simp⟩
  obtain ⟨rs, m', root, f, b, hrun, -, -, hhas, htree, -, hroot⟩ :=
    unitAddress_stores.runs ⟨by decide, by decide⟩
      (has_write (fun _ => 0#8) 0x2000 unitAddress.bytes) (by decide) (by decide) hvalid
  rw [hroot (by decide)] at htree
  exact ⟨rs, m', b, hrun, hhas, htree⟩

end LittleLoader
