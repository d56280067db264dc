import LittleLoader.Dtb.Runs

/-!
# Dtb/Query — what is read back from an edited blob

    path, name   ──fdt_path_offset, fdt_getprop──▸   value      =   the value in the tree

A value that has been written is read at every path that reaches the same node, and everything else
is read as before (`readProperty_call`).
-/

namespace LittleLoader

open Memory Mem

variable {m m' : Mem} {fdt : ℕ} {l l' : Layout} {t t' x y : Node} {p : List ℕ}
  {pre post : List Item} {pad : List Byte} {us : List Token} {ks : List (List Byte)} {j k : CStr}
  {v w : List Byte} {r : ℤ}

/-! ## In the tree -/

/-- The value of a property of the node that is reached by names. -/
def Node.lookup (t : Node) (ks : List (List Byte)) (k : CStr) : Option (List Byte) :=
  (t.find ks).bind fun p => ((t.get? p).map Rose.label).bind fun a => a.2.lookup k

theorem Node.lookup_eq (hp : t.find ks = some p) (hx : t.get? p = some x) :
    t.lookup ks k = x.props.lookup k := by
  rw [Node.lookup, hp, Option.bind_some, hx]
  rfl

/-- The names reach the same nodes. -/
theorem Node.find_setProp (hx : t.get? p = some x) :
    Node.find ks (t.set p (x.setProp k v)) = t.find ks := by
  refine Rose.locate_set (z := x.setProp k v) hx rfl fun c hc => ?_
  obtain ⟨s, -, rfl⟩ := List.mem_map.mp hc
  rfl

/-- **A property is set**, and the others are as before. -/
theorem Node.lookup_setProp (hx : t.get? p = some x) :
    Node.lookup (t.set p (x.setProp k v)) ks j
      = if t.find ks = some p ∧ j = k then some v else t.lookup ks j := by
  rw [Node.lookup, Node.find_setProp hx, Node.lookup]
  cases hq : t.find ks with
  | none => simp
  | some q =>
    rw [Option.bind_some, Option.bind_some, Rose.label_get?_set (z := x.setProp k v) hx rfl]
    by_cases hqp : q = p
    · subst hqp
      have hset : (x.setProp k v).label.2 = assign k v x.label.2 := rfl
      rw [if_pos rfl, hx, Option.bind_some, hset, lookup_assign]
      simp
    · rw [if_neg hqp, if_neg fun h => hqp (Option.some.inj h.1)]

/-! ## In the blob -/

/-- The property of a node that is found by its path, as a caller reads it: the bytes that
`fdt_getprop` points to, if there are any. -/
def readProperty (m : Mem) (fdt : ℕ) (path k : CStr) : MemM (Option (List Byte)) := do
  let offset ← fdtPathOffset m fdt path.bytes
  if offset < 0 then return none
  match ← fdtGetprop m fdt offset k.obj k.bytes.length with
  | (none, _) => return none
  | (some p, len) => return some (m.read p len.toNat)

namespace Loaded

variable (h : Loaded m fdt l)

include h

/-- **`fdt_getprop`** points to the value in the tree. -/
theorem getprop_place (hp : Place l t p x pre pad post us) :
    (x.props.lookup k = none ∧ fdtGetprop m fdt (offset pre) k.obj k.bytes.length
      = .ok (none, FdtErr.notfound.code)) ∨
    ∃ v a, x.props.lookup k = some v ∧ Has m a v ∧
      fdtGetprop m fdt (offset pre) k.obj k.bytes.length = .ok (some a, (v.length : ℤ)) := by
  have hd := hp.rest
  obtain ⟨y, ts, hts, hy⟩ := exists_tokensAll_eq x.children us
  have hversion (a b : Prop) : ¬ (fdtVersion m fdt < 0x10 ∧ a ∧ b) := by
    rw [h.version_eq]
    exact fun hc => absurd hc.1 (by decide)
  rw [hts] at hd
  rw [fdtGetprop]
  cases hd.propCase k with
  | absent hmem =>
    rw [h.getProperty_absent hp.items hd hy hmem]
    exact .inl ⟨lookup_eq_none_iff_notMem.mpr hmem, rfl⟩
  | present qs rs old is rest off pad' hps hqs hpost his hoff hrest =>
    subst hpost
    obtain ⟨hget, hi⟩ := h.getProperty_present hp.items his hqs hoff
    obtain ⟨hs, -, -⟩ := h.structs_of_prop hi
    have hvalue := h.structs
    rw [hs, List.append_assoc old pad'] at hvalue
    have hat : fdt + l.offDtStruct + (itemsBytes (pre ++ .beginNode x.name pad :: is) ++
        (be32 fdtProp ++ (be32 old.length ++ be32 off))).length
          = fdt + l.offDtStruct + (itemsBytes (pre ++ .beginNode x.name pad :: is)).length +
            sizeofProperty := by
      simp only [List.length_append, length_be32, sizeofProperty]
      omega
    refine .inr ⟨old, _, ?_, hat ▸ hvalue.right.left, ?_⟩
    · rw [hps, lookup_append hqs]
    · rw [hget, ok_bind]
      exact if_neg (hversion _ _)

/-- **What is read is what is in the tree.** -/
theorem readProperty_eq {path : CStr} (ht : l.HasTree t)
    (hpath : path.bytes.head? = some (chr '/')) :
    readProperty m fdt path k = .ok (t.lookup (pathNames path.bytes) k) := by
  obtain ⟨pad, post, hroot⟩ := ht.place
  have hfound := h.pathOffset_find hroot hpath
  rw [readProperty]
  cases hfind : t.find (pathNames path.bytes) with
  | none =>
    rw [hfind] at hfound
    rw [show fdtPathOffset m fdt path.bytes = _ from hfound, ok_bind, if_pos (by decide), pure_eq,
      Node.lookup, hfind, Option.bind_none]
  | some p =>
    rw [hfind] at hfound
    obtain ⟨x, pre, pad, post, us, hx, hoff⟩ := hfound
    rw [List.nil_append] at hx
    rw [hoff, ok_bind, if_neg (not_lt.mpr (offset_nonneg pre)), Node.lookup_eq hfind hx.node]
    rcases h.getprop_place (k := k) hx with ⟨hnone, hget⟩ | ⟨v, a, hsome, hhas, hget⟩
    · rw [hget, hnone]
      rfl
    · rw [hget, hsome, ok_bind]
      exact congrArg (fun b => Except.ok (some b)) (hhas.read_eq (Int.toNat_natCast _).symm)

end Loaded

/-! ## Writes -/

/-- The property that an edit writes, and its new value, given the old one. -/
def Edit.writes : Edit → Option (CStr × (Option (List Byte) → List Byte))
  | setprop k v | setpropInplace k v => some (k, fun _ => v)
  | appendprop k v => some (k, fun old => old.getD [] ++ v)
  | _ => none

theorem Edit.apply_of_writes {e : Edit} {g : Option (List Byte) → List Byte}
    (he : e.writes = some (k, g)) (h : e.apply t p x = .ok t') :
    t' = t.set p (x.setProp k (g (x.props.lookup k))) := by
  cases e with
  | setprop k v =>
    cases he
    cases h
    rfl
  | appendprop k v =>
    cases he
    cases h
    rfl
  | setpropInplace k v =>
    cases he
    rw [Edit.apply] at h
    cases hold : x.props.lookup k with
    | none =>
      rw [hold] at h
      cases h
    | some old =>
      simp only [hold] at h
      by_cases hlen : old.length = v.length
      · rw [if_pos hlen] at h
        cases h
        rfl
      · rw [if_neg hlen] at h
        cases h
  | _ => cases he

/-- A request that writes a property. -/
theorem Request.lookup_of_writes {q : Request} {g : Option (List Byte) → List Byte}
    (hq : q.edit.writes = some (k, g)) (h : q.apply t = .ok t') (ks : List (List Byte)) (j : CStr) :
    t'.lookup ks j = if t.find ks = t.find (pathNames q.path.bytes) ∧ j = k then
      some (g (t.lookup (pathNames q.path.bytes) k)) else t.lookup ks j := by
  rw [Request.apply] at h
  cases hfind : t.find (pathNames q.path.bytes) with
  | none =>
    rw [hfind] at h
    cases h
  | some p =>
    simp only [hfind] at h
    cases hx : t.get? p with
    | none =>
      rw [hx] at h
      cases h
    | some x =>
      simp only [hx] at h
      rw [Edit.apply_of_writes hq h, Node.lookup_setProp hx, Node.lookup_eq hfind hx]

/-- **What is written is read**: a request that writes a property and succeeds changes what is read
at the paths of that node under that name, and nothing else; one that fails changes nothing. -/
theorem Layout.Stores.readProperty_call {t : DeviceTree} {q : Request} (path : CStr)
    (hs : l.Stores t) (he : l.Editable) (hhas : Has m fdt l.bytes) (halign : fdt % 8 = 0)
    (hbound : fdt + l.totalsize ≤ 0x10000000000000000) (hq : q.Valid l.totalsize)
    (hpath : path.bytes.head? = some (chr '/')) :
    ∃ r m', q.call fdt m = .ok (r, m') ∧
      (r < 0 → readProperty m' fdt path j = readProperty m fdt path j) ∧
      ∀ k g, q.edit.writes = some (k, g) → 0 ≤ r → readProperty m' fdt path j
        = if t.root.find (pathNames path.bytes) = t.root.find (pathNames q.path.bytes) ∧ j = k then
            (some ∘ g) <$> readProperty m fdt q.path k
          else readProperty m fdt path j := by
  have hloaded := hs.loaded hhas he.size halign hbound
  have htree := hs.hasTree he.root
  obtain ⟨r, m', ⟨root, f⟩, hcall, hstep, l', hedit, htree', hf⟩ := simulates_requests q m
    (t.root, l.free.length) hq ⟨l, hloaded.edited_refl, htree, rfl⟩
  refine ⟨r, m', hcall, fun hr => ?_, fun k g hwrites hr => ?_⟩
  all_goals
    rw [hedit.loaded.readProperty_eq htree' hpath, hloaded.readProperty_eq htree hpath]
  · cases hstep with
    | done _ _ hr' => exact absurd hr (not_lt.mpr hr')
    | refused => rfl
    | nospace => rfl
  · rw [hloaded.readProperty_eq htree hq.path]
    cases hstep with
    | done happly =>
      rw [Request.lookup_of_writes hwrites happly]
      split <;> rfl
    | @refused _ _ e => cases e <;> exact absurd hr (by decide)
    | nospace => exact absurd hr (by decide)

/-- The arguments that are stored under `/chosen` are read under `/chosen@0`. -/
theorem readProperty_call_unitAddress : ∃ r m',
    setQuiet.call 0x1000 (atSource unitAddress) = .ok (r, m') ∧ 0 ≤ r ∧
      readProperty m' 0x1000 (.lit "/chosen@0") bootargs = .ok (some (lit "quiet")) := by
  have hhas : Has (atSource unitAddress) 0x1000 unitAddress.bytes := has_write _ _ _
  obtain ⟨r, m', -, hdone, hr, -⟩ := unitAddress_stores.call_done unitAddress_editable hhas
    (by decide) (by decide) setQuiet_valid setQuiet_apply (by decide)
  obtain ⟨r', m'', hcall, -, hread⟩ := unitAddress_stores.readProperty_call (j := bootargs)
    (.lit "/chosen@0") unitAddress_editable hhas (by decide) (by decide) setQuiet_valid (by decide)
  cases hdone.symm.trans hcall
  refine ⟨r, m', hdone, hr, ?_⟩
  have hloaded := unitAddress_stores.loaded hhas unitAddress_editable.size (by decide) (by decide)
  have hold : readProperty (atSource unitAddress) 0x1000 (.lit "/chosen") bootargs = _ :=
    hloaded.readProperty_eq (unitAddress_stores.hasTree unitAddress_editable.root) (by decide)
  have hpath : setQuiet.path = .lit "/chosen" := rfl
  rw [hread bootargs _ rfl hr, if_pos (by decide), hpath, hold]
  rfl

end LittleLoader
