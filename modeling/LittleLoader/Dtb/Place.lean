import LittleLoader.Dtb.Walk

/-!
# Dtb/Place — where a node of the tree is in the blob

    pre ┆ start of x ┆ post    with    tokens of t  =  … ++ tokens of x ++ …

A place is a node of the tree with its address there, and the items in front of its start and behind
it.  The searches by name and by path go from one place to another: they find the node that is
reached by the names in the tree.
-/

namespace LittleLoader

open Memory Mem

variable {m : Mem} {fdt : ℕ} {l : Layout} {t x c : Node} {p : List ℕ} {pre post : List Item}
  {pad k s b : List Byte} {us : List Token} {xs ys : List Node} {ks : List (List Byte)}

/-! ## Places -/

/-- **The structure block stores the tree** of a node, and begins with its start. -/
def Layout.HasTree (l : Layout) (t : Node) : Prop :=
  ∃ i is, i.tag = fdtBeginNode ∧ l.HasItems (i :: is) ∧ Denotes l.strings (i :: is) t.tokens

/-- **A place**: the node `x` is at the address `p` of the tree; the tokens behind its end are `us`,
whatever the node. -/
structure Place (l : Layout) (t : Node) (p : List ℕ) (x : Node) (pre : List Item) (pad : List Byte)
    (post : List Item) (us : List Token) : Prop where
  node : t.get? p = some x
  start : p = [] ∧ pre = [] ∨ ∃ i is, pre = i :: is ∧ i.tag = fdtBeginNode
  items : l.HasItems (pre ++ .beginNode x.name pad :: post)
  rest : Denotes l.strings post
    (x.props.map Token.prop ++ (Node.tokensAll x.children ++ .endNode :: us))
  front : ∃ ts, Denotes l.strings pre ts ∧
    (∀ z : Node, Node.tokens (t.set p z) = ts ++ (z.tokens ++ us)) ∧
      (p ≠ [] → Node.tokens (t.erase p) = ts ++ us)

/-- The root is at the start of the structure block. -/
theorem Layout.HasTree.place (h : l.HasTree t) : ∃ pad post, Place l t [] t [] pad post [] := by
  obtain ⟨i, post, htag, hi, hd⟩ := h
  rw [Node.tokens_eq] at hd
  cases hd with
  | nop => exact absurd htag (by decide)
  | beginNode _ pad hd =>
    exact ⟨pad, post, rfl, .inl ⟨rfl, rfl⟩, hi, hd, [], .nil, fun z => by simp,
      fun h => absurd rfl h⟩

/-- A blob that stores a tree has it in its structure block, unless that begins with a NOP. -/
theorem Layout.Stores.hasTree {t : DeviceTree} (hs : l.Stores t)
    (hroot : be32 fdtBeginNode <+: l.structs) : l.HasTree t.root := by
  obtain ⟨is, hi, hd⟩ := hs.structs
  rw [Node.tokens_eq] at hd
  cases hd with
  | @nop is _ hd =>
    have hne : ¬ be32 fdtBeginNode <+: be32 fdtNop ++ (itemsBytes is ++ be32 fdtEnd) := by
      simp [be32, fdtBeginNode, fdtNop, List.cons_prefix_cons]
    rw [hi.structs] at hroot
    exact absurd hroot hne
  | beginNode _ pad hd =>
    exact ⟨_, _, rfl, hi, Node.tokens_eq t.root ▸ .beginNode _ pad hd⟩

namespace Place

theorem tokens_eq (z : Node) (us : List Token) : z.tokens ++ us = .beginNode z.name ::
    (z.props.map Token.prop ++ (Node.tokensAll z.children ++ .endNode :: us)) := by
  simp [z.tokens_eq]

/-- The tree is in the structure block. -/
theorem hasTree (h : Place l t p x pre pad post us) : l.HasTree t := by
  obtain ⟨ts, hfront, htokens, -⟩ := h.front
  have hd := hfront.append (.beginNode x.name pad h.rest)
  rw [← tokens_eq, ← htokens x, Rose.set_eq_self h.node] at hd
  rcases h.start with ⟨-, rfl⟩ | ⟨i, is, rfl, htag⟩
  · exact ⟨_, _, rfl, h.items, hd⟩
  · exact ⟨i, _, htag, h.items, hd⟩

/-- **Another node at the place**, if that is what the items behind it denote. -/
theorem set (h : Place l t p x pre pad post us) {l' : Layout} {pad' : List Byte}
    {post' : List Item} (z : Node) (hstrings : l.strings <+: l'.strings)
    (hi : l'.HasItems (pre ++ .beginNode z.name pad' :: post'))
    (hd : Denotes l'.strings post'
      (z.props.map Token.prop ++ (Node.tokensAll z.children ++ .endNode :: us))) :
    Place l' (t.set p z) p z pre pad' post' us := by
  obtain ⟨ts, hfront, htokens, herase⟩ := h.front
  refine ⟨Rose.get?_set h.node z, h.start, hi, hd, ts, hfront.mono hstrings, fun y => ?_,
    fun hp => ?_⟩
  · rw [Rose.set_set, htokens]
  · rw [Rose.erase_set _ _ hp, herase hp]

/-- **The tree without the node**, if the items behind its end are put in its place. -/
theorem erase (h : Place l t p x pre pad post us) (hp : p ≠ []) {l' : Layout} {post' : List Item}
    (hstrings : l.strings <+: l'.strings) (hi : l'.HasItems (pre ++ post'))
    (hd : Denotes l'.strings post' us) : l'.HasTree (t.erase p) := by
  obtain ⟨ts, hfront, -, htokens⟩ := h.front
  have hd' := (hfront.mono hstrings).append hd
  rw [← htokens hp] at hd'
  rcases h.start with ⟨hnil, -⟩ | ⟨i, is, rfl, htag⟩
  · exact absurd hnil hp
  · exact ⟨i, is ++ post', htag, hi, hd'⟩

/-- **A child has its place** behind the properties and the children in front of it. -/
theorem child_of {is : List Item} {pad' : List Byte} {post' : List Item}
    (h : Place l t p x pre pad (is ++ .beginNode c.name pad' :: post') us)
    (hc : x.children = xs ++ c :: ys)
    (his : Denotes l.strings is (x.props.map Token.prop ++ Node.tokensAll xs))
    (hrest : Denotes l.strings post' (c.props.map Token.prop ++
      (Node.tokensAll c.children ++ .endNode :: (Node.tokensAll ys ++ .endNode :: us)))) :
    Place l t (p ++ [xs.length]) c (pre ++ .beginNode x.name pad :: is) pad' post'
      (Node.tokensAll ys ++ .endNode :: us) := by
  obtain ⟨ts, hfront, htokens, -⟩ := h.front
  have hset (z : Node) : t.set (p ++ [xs.length]) z = t.set p (.node x.label (xs ++ z :: ys)) := by
    rw [Rose.set, Rose.modify_append, Rose.modify_eq_set h.node, Rose.modify_cons hc]
    rfl
  have hparent (zs : List Node) : Node.tokens (.node x.label zs) = .beginNode x.name ::
      (x.props.map Token.prop ++ (Node.tokensAll zs ++ [.endNode])) := Node.tokens_eq _
  refine ⟨?_, .inr ?_, ?_, hrest, ts ++ .beginNode x.name ::
    (x.props.map Token.prop ++ Node.tokensAll xs), hfront.append (.beginNode x.name pad his),
    fun z => ?_, fun _ => ?_⟩
  · rw [Rose.get?_append, h.node]
    exact congrArg (Option.bind · _) (Rose.getElem?_children hc)
  · rcases h.start with ⟨-, rfl⟩ | ⟨i, is', rfl, htag⟩
    · exact ⟨_, _, rfl, rfl⟩
    · exact ⟨i, _, rfl, htag⟩
  · rw [List.append_assoc, List.cons_append]
    exact h.items
  · rw [hset, htokens, hparent]
    simp only [tokensAll_append, tokensAll_cons, List.append_assoc, List.cons_append,
      List.nil_append]
  · rw [Rose.erase_append h.node hc, htokens, hparent]
    simp only [tokensAll_append, List.append_assoc, List.cons_append, List.nil_append]

theorem child (h : Place l t p x pre pad post us) (hc : x.children = xs ++ c :: ys) :
    ∃ is pad' post', post = is ++ .beginNode c.name pad' :: post' ∧
      Denotes l.strings is (x.props.map Token.prop ++ Node.tokensAll xs) ∧
        Place l t (p ++ [xs.length]) c (pre ++ .beginNode x.name pad :: is) pad' post'
          (Node.tokensAll ys ++ .endNode :: us) := by
  have hrest := h.rest
  rw [hc, tokensAll_append, tokensAll_cons, List.append_assoc, List.append_assoc, tokens_eq,
    ← List.append_assoc] at hrest
  obtain ⟨is, i, post', rfl, his, hnode, hpost⟩ := hrest.exists_split
  obtain ⟨pad', rfl⟩ := hnode.exists_eq_beginNode
  exact ⟨is, pad', post', rfl, his, h.child_of hc his hpost⟩

/-- The end of the node. -/
theorem exists_end (h : Place l t p x pre pad post us) :
    ∃ is post', post = is ++ .endNode :: post' ∧
      Denotes l.strings is (x.props.map Token.prop ++ Node.tokensAll x.children) ∧
        Denotes l.strings post' us := by
  have hrest := h.rest
  rw [← List.append_assoc] at hrest
  obtain ⟨is, i, post', rfl, his, hend, hpost⟩ := hrest.exists_split
  obtain rfl := hend.eq_endNode
  exact ⟨is, post', rfl, his, hpost⟩

end Place

/-! ## Names -/

/-- The parts of a path: what is between slashes, but for empty strings. -/
def pathNames (b : List Byte) : List (List Byte) := (b.splitOn (chr '/')).filter (· ≠ [])

theorem pathNames_cons_slash (b : List Byte) : pathNames (chr '/' :: b) = pathNames b := by
  rw [pathNames, List.splitOn_eq_splitOnP, List.splitOnP_cons_eq_if_modifyHead, if_pos (by simp)]
  rfl

theorem pathNames_dropWhile (b : List Byte) :
    pathNames (b.dropWhile (· = chr '/')) = pathNames b := by
  induction b with
  | nil => rfl
  | cons c b ih =>
    by_cases hc : c = chr '/'
    · rw [List.dropWhile_cons_of_pos (by simpa using hc), ih, hc, pathNames_cons_slash]
    · rw [List.dropWhile_cons_of_neg (by simpa using hc)]

/-- **The first part** of a path that does not begin with a slash. -/
theorem pathNames_eq {c : Byte} (hc : c ≠ chr '/') : pathNames (c :: b)
    = (c :: b).takeWhile (· ≠ chr '/') :: pathNames ((c :: b).dropWhile (· ≠ chr '/')) := by
  have hne : (c :: b).takeWhile (· ≠ chr '/') ≠ [] := by
    rw [List.takeWhile_cons_of_pos (by simpa using hc)]
    exact List.cons_ne_nil _ _
  have hall : ∀ d ∈ (c :: b).takeWhile (· ≠ chr '/'), (d == chr '/') = false := fun d hd => by
    simpa using List.mem_takeWhile_imp hd
  conv_lhs => rw [← List.takeWhile_append_dropWhile (p := (· ≠ chr '/')) (l := c :: b)]
  cases hrest : (c :: b).dropWhile (· ≠ chr '/') with
  | nil =>
    rw [List.append_nil, pathNames, List.splitOn_eq_splitOnP, List.splitOnP_eq_singleton hall,
      List.filter_cons_of_pos (by simpa using hne)]
    rfl
  | cons d rest =>
    obtain rfl : d = chr '/' := by
      have hhead := List.head?_dropWhile_not (· ≠ chr '/') (c :: b)
      rw [hrest] at hhead
      simpa using hhead
    rw [pathNames_cons_slash, pathNames, List.splitOn_eq_splitOnP,
      List.splitOnP_append_cons_of_forall_mem hall _ (by simp), ← List.splitOn_eq_splitOnP,
      List.filter_cons_of_pos (by simpa using hne)]
    rfl

/-! ## Searches -/

theorem Node.find_cons (hc : x.children = xs ++ c :: ys)
    (hxs : ∀ y ∈ xs, namesNode k y.name = false) (hname : namesNode k c.name = true) :
    x.find (k :: ks) = (xs.length :: ·) <$> c.find ks := by
  have hindex : (xs ++ c :: ys).findIdx? (fun y : Node => namesNode k y.name)
      = some xs.length := by
    rw [List.findIdx?_append, List.findIdx?_eq_none_iff.mpr hxs, List.findIdx?_cons,
      if_pos hname]
    simp
  rw [Node.find, List.map_cons, Rose.locate, hc]
  exact (congrArg (Option.bind · _) hindex).trans (by simp; rfl)

theorem Node.find_eq_none (hxs : ∀ y : Node, y ∈ x.children → namesNode k y.name = false) :
    x.find (k :: ks) = none := by
  rw [Node.find, List.map_cons, Rose.locate]
  exact congrArg (Option.bind · _) (List.findIdx?_eq_none_iff.mpr hxs)

/-- **What a search finds** below the place at `p`: the place at `p ++ q`, if the tree has one. -/
def Found (l : Layout) (t : Node) (p : List ℕ) (r : MemM ℤ) : Option (List ℕ) → Prop
  | some q => ∃ y pre pad post us, Place l t (p ++ q) y pre pad post us ∧ r = .ok (offset pre)
  | none => r = .ok FdtErr.notfound.code

theorem Found.cons {i : ℕ} {r : MemM ℤ} {q : Option (List ℕ)} (h : Found l t (p ++ [i]) r q) :
    Found l t p r ((i :: ·) <$> q) := by
  cases q with
  | none => exact h
  | some q =>
    obtain ⟨y, pre, pad, post, us, hy, hr⟩ := h
    rw [List.append_assoc] at hy
    exact ⟨y, pre, pad, post, us, hy, hr⟩

namespace Loaded

variable (h : Loaded m fdt l)

include h

/-- **A step down**: `fdt_subnode_offset_namelen` finds the place of the first child of the name. -/
theorem subnodeOffset_place (hp : Place l t p x pre pad post us)
    (hc : x.children = xs ++ c :: ys) (hxs : ∀ y ∈ xs, namesNode k y.name = false)
    (hname : namesNode k c.name = true) :
    ∃ pre' pad' post' us', Place l t (p ++ [xs.length]) c pre' pad' post' us' ∧ ∀ s, k <+: s →
      fdtSubnodeOffsetNamelen m fdt (offset pre) s k.length = .ok (offset pre') := by
  obtain ⟨is, pad', post', rfl, his, hchild⟩ := hp.child hc
  have hpass : PassesBy (namesNode k) 0 (x.props.map Token.prop ++ Node.tokensAll xs) 0 :=
    (PassesBy.props _ _ _).append (PassesBy.nodes _ _ _ fun y hy _ => hxs y hy)
  exact ⟨_, pad', post', _, hchild,
    fun s hs => h.subnodeOffset_found hp.items hs his hpass hname⟩

/-- …or none. -/
theorem subnodeOffset_noPlace (hp : Place l t p x pre pad post us) (hs : k <+: s)
    (hxs : ∀ y : Node, y ∈ x.children → namesNode k y.name = false) :
    fdtSubnodeOffsetNamelen m fdt (offset pre) s k.length = .ok FdtErr.notfound.code := by
  obtain ⟨is, post', rfl, his, -⟩ := hp.exists_end
  have hpass : PassesBy (namesNode k) 0 (x.props.map Token.prop ++ Node.tokensAll x.children) 0 :=
    (PassesBy.props _ _ _).append (PassesBy.nodes _ _ _ fun y hy _ => hxs y hy)
  exact h.subnodeOffset_notFound hp.items hs his hpass

/-- The two outcomes of a step down. -/
theorem subnodeOffset_find (hp : Place l t p x pre pad post us) (k : List Byte) :
    ((∀ ks, x.find (k :: ks) = none) ∧ ∀ s, k <+: s →
      fdtSubnodeOffsetNamelen m fdt (offset pre) s k.length = .ok FdtErr.notfound.code) ∨
    ∃ i c pre' pad' post' us', (∀ ks, x.find (k :: ks) = (i :: ·) <$> Node.find ks c) ∧
      Place l t (p ++ [i]) c pre' pad' post' us' ∧ ∀ s, k <+: s →
        fdtSubnodeOffsetNamelen m fdt (offset pre) s k.length = .ok (offset pre') := by
  cases hfind : x.children.find? (fun y : Node => namesNode k y.name) with
  | none =>
    have hxs : ∀ y : Node, y ∈ x.children → namesNode k y.name = false := by
      simpa using List.find?_eq_none.mp hfind
    exact .inl ⟨fun ks => Node.find_eq_none hxs, fun s hs => h.subnodeOffset_noPlace hp hs hxs⟩
  | some c =>
    obtain ⟨hname, xs, ys, hc, hxs⟩ := List.find?_eq_some_iff_append.mp hfind
    have hxs : ∀ y ∈ xs, namesNode k y.name = false := by simpa using hxs
    obtain ⟨pre', pad', post', us', hplace, hoff⟩ := h.subnodeOffset_place hp hc hxs hname
    exact .inr ⟨xs.length, c, pre', pad', post', us', fun ks => Node.find_cons hc hxs hname, hplace,
      hoff⟩

/-- **The way down a path**: the loop of `fdt_path_offset_namelen` finds the place of the node that
is reached by the names. -/
theorem pathLoop_place {n : ℕ} (hn : b.length < n) (hp : Place l t p x pre pad post us) :
    Found l t p (pathLoop m fdt n b (offset pre)) (x.find (pathNames b)) := by
  induction n generalizing b p x pre pad post us with
  | zero => cases hn
  | succ n ih =>
    have hroot : Found l t p (.ok (offset pre)) (x.find []) :=
      ⟨x, pre, pad, post, us, (List.append_nil p).symm ▸ hp, rfl⟩
    rw [← pathNames_dropWhile, pathLoop]
    by_cases hb : b.length = 0
    · obtain rfl := List.length_eq_zero_iff.mp hb
      exact hroot
    rw [if_neg hb]
    dsimp only
    have hdrop : (b.dropWhile (· = chr '/')).length ≤ b.length :=
      (List.dropWhile_sublist _).length_le
    have hhead := List.head?_dropWhile_not (· = chr '/') b
    generalize b.dropWhile (· = chr '/') = d at hdrop hhead ⊢
    cases d with
    | nil => exact hroot
    | cons c d =>
      have hc : c ≠ chr '/' := by simpa using hhead
      have hk : (c :: d).takeWhile (· ≠ chr '/') <+: c :: d := List.takeWhile_prefix _
      have hrest : (c :: d).drop ((c :: d).takeWhile (· ≠ chr '/')).length
          = (c :: d).dropWhile (· ≠ chr '/') :=
        (congrArg (List.drop _) List.takeWhile_append_dropWhile.symm).trans List.drop_left
      have hshort : ((c :: d).dropWhile (· ≠ chr '/')).length < n := by
        have hle := (List.dropWhile_sublist (p := (· ≠ chr '/')) (l := d)).length_le
        rw [List.dropWhile_cons_of_pos (by simpa using hc)]
        rw [List.length_cons] at hdrop
        omega
      rw [if_neg (by simp), pathNames_eq hc, hrest]
      rcases h.subnodeOffset_find hp ((c :: d).takeWhile (· ≠ chr '/')) with
        ⟨hnone, hoff⟩ | ⟨i, y, pre', _, _, _, hfind, hy, hoff⟩
      · rw [hoff _ hk, ok_bind, if_pos (by decide), hnone]
        rfl
      · rw [hoff _ hk, ok_bind, if_neg (not_lt.mpr (offset_nonneg _)), hfind]
        exact (ih hshort hy).cons

/-- **`fdt_path_offset`** finds the place of the node that is reached by the names of the path. -/
theorem pathOffset_find (hp : Place l t [] t [] pad post us) (hb : b.head? = some (chr '/')) :
    Found l t [] (fdtPathOffset m fdt b) (t.find (pathNames b)) := by
  have hprobe : ¬ fdtRoProbe m fdt < 0 := by
    rw [h.roProbe_eq]
    omega
  have hlen : b.length ≠ 0 := fun hlen => by
    rw [List.length_eq_zero_iff.mp hlen] at hb
    cases hb
  have hfound := h.pathLoop_place (Nat.lt_succ_self b.length) hp
  rw [offset_nil] at hfound
  rw [fdtPathOffset, if_neg hprobe, if_neg hlen, if_neg (not_not.mpr hb)]
  exact hfound

end Loaded

end LittleLoader
