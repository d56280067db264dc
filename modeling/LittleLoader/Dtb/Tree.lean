import LittleLoader.Dtb.Nodes

/-!
# Dtb/Tree — edits of the tree

    blob of t    ──fdt_…──▸   blob of t'
      │                          │
      t        ──  edit  ──▸     t'

A function of `libfdt` that edits the blob at the place of a node has an edit of the tree at the
address of the node for its meaning.  It does what that edit does, or it fails: with the error that
the edit has on that tree, or for want of free space.
-/

namespace LittleLoader

open Memory Mem

variable {m : Mem} {fdt : ℕ} {l : Layout} {t x c : Node} {p : List ℕ} {pre post : List Item}
  {pad : List Byte} {us : List Token} {k : CStr} {v : List Byte}

/-! ## Edits -/

/-- An edit at a node. -/
inductive Edit
  | setprop (k : CStr) (v : List Byte)
  | appendprop (k : CStr) (v : List Byte)
  | setpropInplace (k : CStr) (v : List Byte)
  | delprop (k : CStr)
  | nopProperty (k : CStr)
  | setName (k : CStr)
  | addSubnode (k : CStr)
  | delNode
  | nopNode
deriving DecidableEq

namespace Edit

/-- The call. -/
def call (m : Mem) (fdt : ℕ) (offset : ℤ) : Edit → MemM (ℤ × Mem)
  | setprop k v => fdtSetprop m fdt offset k.obj v v.length
  | appendprop k v => fdtAppendprop m fdt offset k.obj v v.length
  | setpropInplace k v => fdtSetpropInplace m fdt offset k.obj v v.length
  | delprop k => fdtDelprop m fdt offset k.obj
  | nopProperty k => fdtNopProperty m fdt offset k.obj
  | setName k => fdtSetName m fdt offset k.obj
  | addSubnode k => fdtAddSubnode m fdt offset k.obj
  | delNode => fdtDelNode m fdt offset
  | nopNode => fdtNopNode m fdt offset

/-- **The meaning**: the tree `t`, whose node at `p` is `x`, after the edit of that node. -/
def apply (t : Node) (p : List ℕ) (x : Node) : Edit → Except FdtErr Node
  | setprop k v => .ok (t.set p (x.setProp k v))
  | appendprop k v => .ok (t.set p (x.setProp k ((x.props.lookup k).getD [] ++ v)))
  | setpropInplace k v =>
      match x.props.lookup k with
      | none => .error .notfound
      | some old =>
          if old.length = v.length then .ok (t.set p (x.setProp k v)) else .error .nospace
  | delprop k | nopProperty k =>
      if k ∈ x.props.map Prod.fst then .ok (t.set p (x.delProp k)) else .error .notfound
  | setName k => .ok (t.set p (x.rename k))
  | addSubnode k =>
      if x.find [k.bytes] = none then .ok (t.set p (x.addChild (.mk k [] []))) else .error .exists_
  | delNode | nopNode => .ok (t.erase p)

/-- The free space that is enough. -/
def room : Edit → ℕ
  | setprop k v | appendprop k v => sizeofProperty + fdtTagalign v.length + k.obj.length
  | setName k => fdtTagalign (k.bytes.length + 1)
  | addSubnode k => nodeRoom k
  | _ => 0

/-- What the arguments take. -/
def size : Edit → ℕ
  | setprop k v | appendprop k v | setpropInplace k v =>
      sizeofProperty + fdtTagalign v.length + k.obj.length
  | setName k | addSubnode k => nodeRoom k
  | delprop k | nopProperty k => k.obj.length
  | delNode | nopNode => 0

/-- An edit that takes the node away is not for the root. -/
def AllowedAt (p : List ℕ) (e : Edit) : Prop := e = delNode ∨ e = nopNode → p ≠ []

end Edit

namespace Loaded

variable (h : Loaded m fdt l)

include h

/-! ## Properties -/

omit h in
/-- A node with other properties. -/
theorem hasTree_props {ps : List Property} {m' : Mem} {n : ℕ} {r : ℤ}
    (hp : Place l t p x pre pad post us)
    (hend : EditEnd fdt m l n (fun r l' => r = 0 ∧
      ∃ post', l'.HasItems (pre ++ .beginNode x.name pad :: post') ∧ Denotes l'.strings post'
        (ps.map Token.prop ++ (Node.tokensAll x.children ++ .endNode :: us))) r m') :
    EditEnd fdt m l n (fun _ l' => l'.HasTree (t.set p (Node.mk x.name ps x.children))) r m' :=
  hend.imp fun _ hedit ⟨_, _, hitems, hdenotes⟩ =>
    (hp.set (Node.mk x.name ps x.children) hedit.strings hitems hdenotes).hasTree

theorem setprop_place (hp : Place l t p x pre pad post us)
    (hsize : (Edit.setprop k v).size < 0x80000000) :
    ∃ r m', fdtSetprop m fdt (offset pre) k.obj v v.length = .ok (r, m') ∧
      EditEnd fdt m l (Edit.setprop k v).room
        (fun _ l' => l'.HasTree (t.set p (x.setProp k v))) r m' := by
  have hd := hp.rest
  obtain ⟨y, ts, hts, hy⟩ := exists_tokensAll_eq x.children us
  rw [hts] at hd
  rw [Edit.size] at hsize
  obtain ⟨r, m', hset, hend⟩ := h.exists_setprop (k := k) v hp.items hd hy (by omega) (by omega)
  exact ⟨r, m', hset, hasTree_props hp (hts ▸ hend)⟩

theorem appendprop_place (hp : Place l t p x pre pad post us)
    (hsize : l.totalsize + (Edit.appendprop k v).size < 0x80000000) :
    ∃ r m', fdtAppendprop m fdt (offset pre) k.obj v v.length = .ok (r, m') ∧
      EditEnd fdt m l (Edit.appendprop k v).room (fun _ l' =>
        l'.HasTree (t.set p (x.setProp k ((x.props.lookup k).getD [] ++ v)))) r m' := by
  have hd := hp.rest
  obtain ⟨y, ts, hts, hy⟩ := exists_tokensAll_eq x.children us
  rw [hts] at hd
  rw [Edit.size] at hsize
  obtain ⟨r, m', hset, hend⟩ := h.exists_appendprop (k := k) v hp.items hd hy (by omega) (by omega)
  exact ⟨r, m', hset, hasTree_props hp (hts ▸ hend)⟩

/-! ## Nodes -/

theorem setName_place (hp : Place l t p x pre pad post us)
    (hsize : (Edit.setName k).size < 0x80000000) :
    ∃ r m', fdtSetName m fdt (offset pre) k.obj = .ok (r, m') ∧
      EditEnd fdt m l (Edit.setName k).room (fun _ l' => l'.HasTree (t.set p (x.rename k))) r m' := by
  rw [Edit.size, nodeRoom] at hsize
  obtain ⟨r, m', hset, hend⟩ := h.exists_setName (k := k) hp.items (by omega)
  refine ⟨r, m', hset, hend.imp fun l' hedit hplaced => ?_⟩
  obtain ⟨_, pad', hitems, _⟩ := hplaced
  exact (hp.set (x.rename k) hedit.strings hitems (hp.rest.mono hedit.strings)).hasTree

/-- **The new node has its place.** -/
theorem addSubnode_place (hp : Place l t p x pre pad post us) (hnot : x.find [k.bytes] = none)
    (hsize : nodeRoom k < 0x80000000) :
    ∃ r m', fdtAddSubnode m fdt (offset pre) k.obj = .ok (r, m') ∧
      EditEnd fdt m l (nodeRoom k) (fun r l' => ∃ pre' pad' post' us', r = offset pre' ∧
        Place l' (t.set p (x.addChild (.mk k [] []))) (p ++ [0]) (.mk k [] []) pre' pad' post' us')
          r m' := by
  have hd := hp.rest
  obtain ⟨y, ts, hts, hy⟩ := exists_tokensAll_eq x.children us
  rw [hts] at hd
  rcases h.subnodeOffset_find hp k.bytes with ⟨-, hsearch⟩ | ⟨i, c, _, _, _, _, hfind, -, -⟩
  · obtain ⟨r, m', hadd, hend⟩ := h.exists_addSubnode (k := k) hp.items hd hy
      (hsearch _ (List.prefix_append _ _)) hsize
    refine ⟨r, m', hadd, hend.imp fun l' hedit ⟨is, rest, pad', hr, hitems, his, hrest⟩ => ?_⟩
    have hchild : Denotes l'.strings (is ++ .beginNode k pad' :: .endNode :: rest)
        ((x.addChild (.mk k [] [])).props.map Token.prop ++
          (Node.tokensAll (x.addChild (.mk k [] [])).children ++ .endNode :: us)) := by
      have htokens : Node.tokensAll (x.addChild (.mk k [] [])).children ++ .endNode :: us
          = .beginNode k :: .endNode :: (y :: ts) := by
        rw [← hts]
        simp [Node.addChild, Node.tokens_eq, Node.name, Node.props]
      rw [htokens]
      exact his.append (.beginNode k pad' (.endNode hrest))
    have hplace := hp.set (x.addChild (.mk k [] [])) hedit.strings hitems hchild
    have hfirst : (x.addChild (.mk k [] [])).children = [] ++ Node.mk k [] [] :: x.children := rfl
    refine ⟨_, pad', .endNode :: rest, _, hr, hplace.child_of hfirst ?_ ?_⟩
    · rw [tokensAll_nil, List.append_nil]
      exact his
    · rw [← hts] at hrest
      exact .endNode hrest
  · rw [hfind, Node.find] at hnot
    simp [Rose.locate] at hnot

/-- A child of the name is there. -/
theorem addSubnode_exists (hp : Place l t p x pre pad post us) (hfound : x.find [k.bytes] ≠ none) :
    fdtAddSubnode m fdt (offset pre) k.obj = .ok (FdtErr.exists_.code, m) := by
  rcases h.subnodeOffset_find hp k.bytes with ⟨hnone, -⟩ | ⟨i, c, pre', _, _, _, -, -, hsearch⟩
  · exact absurd (hnone []) hfound
  · rw [fdtAddSubnode, k.fetch_strlen, ok_bind, fdtAddSubnodeNamelen, h.rwProbe_eq]
    simp only
    rw [hsearch k.obj (List.prefix_append _ _), ok_bind, if_pos (offset_nonneg pre'), pure_eq]

/-- **A node is taken away**, cut out or under NOPs. -/
theorem delNode_place (hp : Place l t p x pre pad post us) (hne : p ≠ []) :
    (∃ m', fdtDelNode m fdt (offset pre) = .ok (0, m') ∧
      EditEnd fdt m l 0 (fun _ l' => l'.HasTree (t.erase p)) 0 m') ∧
    ∃ m', fdtNopNode m fdt (offset pre) = .ok (0, m') ∧
      EditEnd fdt m l 0 (fun _ l' => l'.HasTree (t.erase p)) 0 m' := by
  obtain ⟨is, post', rfl, his, hpost⟩ := hp.exists_end
  have hi := hp.items
  rw [show pre ++ .beginNode x.name pad :: (is ++ .endNode :: post')
    = pre ++ (.beginNode x.name pad :: (is ++ [.endNode])) ++ post' by simp] at hi
  have hpass : PassesBy (fun _ => false) 0
      (x.props.map Token.prop ++ Node.tokensAll x.children) 0 :=
    (PassesBy.props _ _ _).append (PassesBy.nodes _ _ _ fun _ _ _ => rfl)
  obtain ⟨m₁, hdel, hend⟩ := h.exists_delNode hi his hpass
  obtain ⟨m₂, n, hnop, hend'⟩ := h.exists_nopNode hi his hpass
  refine ⟨⟨m₁, hdel, hend.imp fun l' hedit ⟨_, hitems, _⟩ => ?_⟩,
    ⟨m₂, hnop, hend'.imp fun l' hedit ⟨_, hitems, _⟩ => ?_⟩⟩
  · exact hp.erase hne hedit.strings hitems (hpost.mono hedit.strings)
  · exact hp.erase hne hedit.strings hitems (denotes_nops n (hpost.mono hedit.strings))

/-! ## The edits -/

/-- **An edit at a place** has its meaning, or it is refused. -/
theorem exists_call (e : Edit) (hp : Place l t p x pre pad post us) (hallowed : e.AllowedAt p)
    (hsize : l.totalsize + e.size < 0x80000000) :
    ∃ r m', e.call m fdt (offset pre) = .ok (r, m') ∧
      match e.apply t p x with
      | .ok t' => EditEnd fdt m l e.room (fun _ l' => l'.HasTree t') r m'
      | .error err => r = err.code ∧ m' = m := by
  have hd := hp.rest
  obtain ⟨y, ts, hts, hy⟩ := exists_tokensAll_eq x.children us
  rw [hts] at hd
  have hsmall : e.size < 0x80000000 := by omega
  cases e with
  | setprop k v => exact h.setprop_place hp hsmall
  | appendprop k v => exact h.appendprop_place hp hsize
  | setpropInplace k v =>
    rw [Edit.apply]
    rcases h.setpropInplace_cases (k := k) v hp.items hd hy with ⟨hnone, hset⟩ |
      ⟨old, hsome, hne, hset⟩ | ⟨old, m', hsome, heq, hset, hend⟩
    · rw [hnone]
      exact ⟨_, _, hset, rfl, rfl⟩
    · simp only [hsome, if_neg hne]
      exact ⟨_, _, hset, rfl, rfl⟩
    · simp only [hsome, if_pos heq]
      exact ⟨_, m', hset, hasTree_props hp (hts ▸ hend)⟩
  | delprop k =>
    rw [Edit.apply]
    rcases h.delprop_cases (k := k) hp.items hd hy with ⟨hmem, hdel⟩ | ⟨m', hmem, hdel, hend⟩
    · rw [if_neg hmem]
      exact ⟨_, _, hdel, rfl, rfl⟩
    · rw [if_pos hmem]
      exact ⟨_, m', hdel, hasTree_props hp (hts ▸ hend)⟩
  | nopProperty k =>
    rw [Edit.apply]
    rcases h.nopProperty_cases (k := k) hp.items hd hy with ⟨hmem, hdel⟩ | ⟨m', hmem, hdel, hend⟩
    · rw [if_neg hmem]
      exact ⟨_, _, hdel, rfl, rfl⟩
    · rw [if_pos hmem]
      exact ⟨_, m', hdel, hasTree_props hp (hts ▸ hend)⟩
  | setName k => exact h.setName_place hp hsmall
  | addSubnode k =>
    rw [Edit.apply]
    by_cases hnot : x.find [k.bytes] = none
    · obtain ⟨r, m', hadd, hend⟩ := h.addSubnode_place hp hnot hsmall
      rw [if_pos hnot]
      exact ⟨r, m', hadd, hend.imp fun _ _ ⟨_, _, _, _, _, hplace⟩ => hplace.hasTree⟩
    · rw [if_neg hnot]
      exact ⟨_, m, h.addSubnode_exists hp hnot, rfl, rfl⟩
  | delNode =>
    obtain ⟨m', hdel, hend⟩ := (h.delNode_place hp (hallowed (.inl rfl))).1
    exact ⟨0, m', hdel, hend⟩
  | nopNode =>
    obtain ⟨m', hdel, hend⟩ := (h.delNode_place hp (hallowed (.inr rfl))).2
    exact ⟨0, m', hdel, hend⟩

end Loaded

end LittleLoader
