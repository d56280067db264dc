import Mathlib.Data.List.Infix
import Mathlib.Data.List.TakeWhile
import LittleLoader.Dtb.Read
import LittleLoader.Machine.LibfdtEdit

/-!
# Dtb/Walk — the searches of `libfdt` in the structure block

    PassesBy p d ts e:   d ──ts──▸ e,  and no node that begins at depth 0 has the name

A search for a subnode, or for the end of a node, goes from node to node and counts the depth; a
search for a property goes over the properties at the start of a node.  Each is a loop within a
loop, and is followed from the place of one item to the place of the next: `seek` and `seekProp` are
the loops inside with what follows them outside.
-/

namespace LittleLoader

open Memory Mem

variable {m : Mem} {fdt n d e f g : ℕ} {l : Layout} {pre post is : List Item} {i : Item}
  {ts us : List Token}
  {t : Token} {strings strings' : List Byte} {k : CStr} {r : MemM ℤ}

/-! ## Depths -/

/-- The tokens go from one depth to another, and no node that begins at depth 0 has a name with the
property. -/
inductive PassesBy (p : CStr → Bool) : ℕ → List Token → ℕ → Prop
  | nil (d : ℕ) : PassesBy p d [] d
  | prop {d e : ℕ} {ts : List Token} (x : Property) (h : PassesBy p d ts e) :
      PassesBy p d (.prop x :: ts) e
  | beginNode {d e : ℕ} {ts : List Token} (name : CStr) (hname : d = 0 → p name = false)
      (h : PassesBy p (d + 1) ts e) : PassesBy p d (.beginNode name :: ts) e
  | endNode {d e : ℕ} {ts : List Token} (h : PassesBy p d ts e) :
      PassesBy p (d + 1) (.endNode :: ts) e

namespace PassesBy

variable {p : CStr → Bool}

theorem append (h : PassesBy p d ts e) (h' : PassesBy p e us n) : PassesBy p d (ts ++ us) n := by
  induction h with
  | nil => exact h'
  | prop x _ ih => exact .prop x (ih h')
  | beginNode name hname _ ih => exact .beginNode name hname (ih h')
  | endNode _ ih => exact .endNode (ih h')

theorem props (p : CStr → Bool) (d : ℕ) (xs : List Property) :
    PassesBy p d (xs.map Token.prop) d := by
  induction xs with
  | nil => exact .nil d
  | cons x xs ih => exact .prop x ih

mutual

/-- A node is passed, unless it begins at depth 0 and has the name. -/
theorem node (p : CStr → Bool) (d : ℕ) :
    (x : Node) → (d = 0 → p x.name = false) → PassesBy p d x.tokens d
  | .mk name xs children, h => by
      rw [Node.tokens_eq]
      exact .beginNode name h ((props p _ xs).append
        ((nodes p (d + 1) children fun _ _ h => absurd h (Nat.succ_ne_zero d)).append
          (.endNode (.nil d))))

/-- Nodes in a row are passed, unless they begin at depth 0 and one of them has the name. -/
theorem nodes (p : CStr → Bool) (d : ℕ) :
    (xs : List Node) → (∀ x ∈ xs, d = 0 → p x.name = false) →
      PassesBy p d (Node.tokensAll xs) d
  | [], _ => by
      rw [tokensAll_nil]
      exact .nil d
  | x :: xs, h => by
      rw [tokensAll_cons]
      exact (node p d x (h x List.mem_cons_self)).append
        (nodes p d xs fun y hy => h y (List.mem_cons_of_mem _ hy))

end

end PassesBy

/-! ## Items and tokens -/

namespace Denotes

/-- More strings at the end of the table. -/
theorem mono (h : Denotes strings is ts) (hp : strings <+: strings') : Denotes strings' is ts := by
  induction h with
  | nil => exact .nil
  | nop _ ih => exact .nop ih
  | beginNode name pad _ ih => exact .beginNode name pad ih
  | prop name nameoff value pad hname _ ih =>
    exact .prop name nameoff value pad (hname.trans (List.IsPrefix.drop hp _)) ih
  | endNode _ ih => exact .endNode ih

theorem append (h : Denotes strings is ts) (h' : Denotes strings post us) :
    Denotes strings (is ++ post) (ts ++ us) := by
  induction h with
  | nil => exact h'
  | nop _ ih => exact .nop ih
  | beginNode name pad _ ih => exact .beginNode name pad ih
  | prop name nameoff value pad hname _ ih => exact .prop name nameoff value pad hname ih
  | endNode _ ih => exact .endNode ih

/-- **The item of a token**, with the items in front of it and behind it. -/
theorem exists_split (h : Denotes strings is (ts ++ t :: us)) :
    ∃ xs i ys, is = xs ++ i :: ys ∧ Denotes strings xs ts ∧ Denotes strings [i] [t] ∧
      Denotes strings ys us := by
  generalize hts : ts ++ t :: us = all at h
  induction h generalizing ts with
  | nil => simp at hts
  | nop _ ih =>
    obtain ⟨xs, i, ys, rfl, hxs, hi, hys⟩ := ih hts
    exact ⟨.nop :: xs, i, ys, rfl, .nop hxs, hi, hys⟩
  | beginNode name pad h ih =>
    rcases List.append_eq_cons_iff.mp hts with ⟨rfl, heq⟩ | ⟨ts, rfl, rfl⟩
    · obtain ⟨rfl, rfl⟩ := List.cons.inj heq
      exact ⟨[], .beginNode name pad, _, rfl, .nil, .beginNode name pad .nil, h⟩
    · obtain ⟨xs, i, ys, rfl, hxs, hi, hys⟩ := ih rfl
      exact ⟨.beginNode name pad :: xs, i, ys, rfl, .beginNode name pad hxs, hi, hys⟩
  | prop name nameoff value pad hname h ih =>
    rcases List.append_eq_cons_iff.mp hts with ⟨rfl, heq⟩ | ⟨ts, rfl, rfl⟩
    · obtain ⟨rfl, rfl⟩ := List.cons.inj heq
      exact ⟨[], .prop nameoff value pad, _, rfl, .nil, .prop name nameoff value pad hname .nil, h⟩
    · obtain ⟨xs, i, ys, rfl, hxs, hi, hys⟩ := ih rfl
      exact ⟨.prop nameoff value pad :: xs, i, ys, rfl, .prop name nameoff value pad hname hxs, hi,
        hys⟩
  | endNode h ih =>
    rcases List.append_eq_cons_iff.mp hts with ⟨rfl, heq⟩ | ⟨ts, rfl, rfl⟩
    · obtain ⟨rfl, rfl⟩ := List.cons.inj heq
      exact ⟨[], .endNode, _, rfl, .nil, .endNode .nil, h⟩
    · obtain ⟨xs, i, ys, rfl, hxs, hi, hys⟩ := ih rfl
      exact ⟨.endNode :: xs, i, ys, rfl, .endNode hxs, hi, hys⟩

/-- The items of properties. -/
theorem tag_of_props {ps : List Property} (h : Denotes strings is (ps.map Token.prop)) :
    ∀ i ∈ is, i.tag = fdtProp ∨ i.tag = fdtNop := by
  generalize hts : ps.map Token.prop = ts at h
  induction h generalizing ps with
  | nil => exact fun i hi => absurd hi List.not_mem_nil
  | nop _ ih => exact List.forall_mem_cons.mpr ⟨.inr rfl, ih hts⟩
  | prop name nameoff value pad _ _ ih =>
    obtain ⟨x, ps, -, -, hps⟩ := List.map_eq_cons_iff.mp hts
    exact List.forall_mem_cons.mpr ⟨.inl rfl, ih hps⟩
  | beginNode =>
    obtain ⟨x, ps, -, hx, -⟩ := List.map_eq_cons_iff.mp hts
    cases hx
  | endNode =>
    obtain ⟨x, ps, -, hx, -⟩ := List.map_eq_cons_iff.mp hts
    cases hx

/-- The item of a property. -/
theorem exists_eq_prop {x : Property} (h : Denotes strings [i] [.prop x]) :
    ∃ off pad, i = .prop off x.2 pad ∧ x.1.obj <+: strings.drop off := by
  cases h with
  | nop h => cases h
  | prop name nameoff value pad hname _ => exact ⟨nameoff, pad, rfl, hname⟩

/-- The item of the start of a node. -/
theorem exists_eq_beginNode (h : Denotes strings [i] [.beginNode k]) :
    ∃ pad, i = .beginNode k pad := by
  cases h with
  | nop h => cases h
  | beginNode name pad _ => exact ⟨pad, rfl⟩

theorem eq_endNode (h : Denotes strings [i] [.endNode]) : i = .endNode := by
  cases h with
  | nop h => cases h
  | endNode _ => rfl

/-- The item of a token that is not a property. -/
theorem tag_eq (h : Denotes strings [i] [t]) (ht : ∀ x, t ≠ .prop x) :
    i.tag = fdtBeginNode ∨ i.tag = fdtEndNode := by
  cases h with
  | nop h => cases h
  | beginNode => exact .inl rfl
  | prop name nameoff value => exact absurd rfl (ht (name, value))
  | endNode => exact .inr rfl

end Denotes

theorem length_le_itemsBytes (is : List Item) : 4 * is.length ≤ (itemsBytes is).length := by
  induction is with
  | nil => exact Nat.le_refl _
  | cons i is ih =>
    rw [itemsBytes_cons, List.length_append, List.length_cons, Item.bytes, List.length_append,
      List.length_append, length_be32]
    omega

theorem Layout.HasItems.length_lt (hi : l.HasItems is) : is.length < l.totalsize := by
  have hle := length_le_itemsBytes is
  have hstruct := l.offDtStruct_le
  have hstrings := l.offDtStrings_le
  have hlen : l.structs.length = (itemsBytes is).length + 4 := by
    rw [hi.structs, List.length_append, length_be32]
  have hoff : 40 ≤ l.offDtStruct := Nat.le_add_right _ _
  omega

/-! ## Searches -/

/-- The loop of `fdt_next_node`, and the rounds of the loop that calls it. -/
def seek (m : Mem) (fdt : ℕ) (loop : ℕ → ℤ → ℤ → MemM ℤ) (f g : ℕ) (o d : ℤ) : MemM ℤ := do
  let (o, d) ← nextNodeLoop m fdt f o d
  loop g o d

/-- **A loop over nodes**, which goes on at every node but one of depth 1 that has the name. -/
def GoesOn (m : Mem) (fdt : ℕ) (l : Layout) (p : CStr → Bool) (loop : ℕ → ℤ → ℤ → MemM ℤ) : Prop :=
  ∀ {pre post : List Item} {name : CStr} {pad : List Byte} {d g : ℕ},
    l.HasItems (pre ++ .beginNode name pad :: post) → (d = 1 → p name = false) →
      loop (g + 1) (offset pre) (d : ℕ) = fdtNextNode m fdt (offset pre) (d : ℕ) >>= fun x =>
        loop g x.1 x.2

/-- The loop of `nextprop_`, and the rounds of `fdt_get_property` behind it. -/
def seekProp (m : Mem) (fdt : ℕ) (s : List Byte) (len f g : ℕ) (o : ℤ) : MemM (Option ℕ × ℤ) := do
  propertyLoop m fdt s len f (← nextprop m fdt g o)

namespace Loaded

variable (h : Loaded m fdt l) {loop : ℕ → ℤ → ℤ → MemM ℤ} {p : CStr → Bool}

include h

/-! ## Nodes -/

theorem nextNode_eq {name : CStr} {pad : List Byte} {x : ℤ}
    (hi : l.HasItems (pre ++ .beginNode name pad :: post)) : fdtNextNode m fdt (offset pre) x
      = nextNodeLoop m fdt (fdtTotalsize m fdt + 1) (offset (pre ++ [.beginNode name pad])) x := by
  have hnext : ¬ offset (pre ++ [.beginNode name pad]) < 0 := not_lt.mpr (offset_nonneg _)
  rw [fdtNextNode, if_pos (offset_nonneg _), h.checkNodeOffset_eq hi, ok_bind]
  exact if_neg hnext

/-- **A round** at a node. -/
theorem goesOn_eq {name : CStr} {pad : List Byte} (hloop : GoesOn m fdt l p loop)
    (hi : l.HasItems (pre ++ .beginNode name pad :: post)) (hname : d = 1 → p name = false) :
    loop (g + 1) (offset pre) (d : ℕ) = seek m fdt loop (fdtTotalsize m fdt + 1) g
      (offset (pre ++ [.beginNode name pad])) (d : ℕ) := by
  rw [hloop hi hname, h.nextNode_eq hi, seek]

/-- An item that is neither the start nor the end of a node is skipped. -/
theorem seek_skip {x : ℤ} (hi : l.HasItems (pre ++ i :: post))
    (htag : i.tag = fdtProp ∨ i.tag = fdtNop) :
    seek m fdt loop (f + 1) g (offset pre) x = seek m fdt loop f g (offset (pre ++ [i])) x := by
  have hbegin : i.tag ≠ fdtBeginNode := by rcases htag with h | h <;> rw [h] <;> decide
  have hendNode : i.tag ≠ fdtEndNode := by rcases htag with h | h <;> rw [h] <;> decide
  have hend : i.tag ≠ fdtEnd := by rcases htag with h | h <;> rw [h] <;> decide
  rw [seek, nextNodeLoop, h.nextTag_eq hi, ok_bind]
  dsimp only
  rw [if_neg hbegin, if_neg hendNode, if_neg hend, seek]

/-- The search is at a node. -/
theorem seek_beginNode {x : ℤ} {name : CStr} {pad : List Byte}
    (hi : l.HasItems (pre ++ .beginNode name pad :: post)) :
    seek m fdt loop (f + 1) g (offset pre) x = loop g (offset pre) (x + 1) := by
  rw [seek, nextNodeLoop, h.nextTag_eq hi, ok_bind]
  dsimp only
  rw [if_pos (by rfl), pure_eq, ok_bind]

/-- The end of a node within the node that is searched. -/
theorem seek_endNode (hi : l.HasItems (pre ++ .endNode :: post)) :
    seek m fdt loop (f + 1) g (offset pre) (d + 1 : ℕ)
      = seek m fdt loop f g (offset (pre ++ [.endNode])) (d : ℕ) := by
  have hdepth : ((d + 1 : ℕ) : ℤ) - 1 = d := by omega
  have hdepth' : ¬ (d : ℤ) < 0 := by omega
  rw [seek, nextNodeLoop, h.nextTag_eq hi, ok_bind]
  dsimp only
  rw [if_neg (by decide), if_pos (by rfl), hdepth, if_neg hdepth', seek]

/-- The end of the node that is searched. -/
theorem seek_end (hi : l.HasItems (pre ++ .endNode :: post)) :
    seek m fdt loop (f + 1) g (offset pre) (0 : ℕ)
      = loop g (offset (pre ++ [.endNode])) (-1) := by
  rw [seek, nextNodeLoop, h.nextTag_eq hi, ok_bind]
  dsimp only
  rw [if_neg (by decide), if_pos (by rfl), if_pos (by decide), pure_eq, ok_bind]
  rfl

/-- **The search passes the tokens.** -/
theorem seek_passes {all : List Item} (hloop : GoesOn m fdt l p loop) (hd : Denotes strings is ts)
    (hp : PassesBy p d ts e) (hi : l.HasItems (pre ++ (is ++ post))) (hall : pre ++ is = all)
    (hend : ∀ f g, post.length < f → post.length < g →
      seek m fdt loop f g (offset all) (e : ℕ) = r)
    (hf : (is ++ post).length < f) (hg : (is ++ post).length < g) :
    seek m fdt loop f g (offset pre) (d : ℕ) = r := by
  induction hd generalizing pre d f g with
  | nil =>
    cases hp
    obtain rfl : pre = all := by simpa using hall
    exact hend f g hf hg
  | nop _ ih =>
    obtain ⟨f, rfl⟩ : ∃ j, f = j + 1 := ⟨f - 1, by omega⟩
    simp only [List.cons_append, List.length_cons] at hi hf hg
    rw [h.seek_skip hi (.inr rfl)]
    exact ih hp (List.append_cons .. ▸ hi) (List.append_cons .. ▸ hall) (by omega) (by omega)
  | beginNode name pad _ ih =>
    obtain ⟨f, rfl⟩ : ∃ j, f = j + 1 := ⟨f - 1, by omega⟩
    obtain ⟨g, rfl⟩ : ∃ j, g = j + 1 := ⟨g - 1, by omega⟩
    have htotal := hi.length_lt
    simp only [List.cons_append, List.length_cons, List.length_append] at hi hf hg htotal
    cases hp with
    | beginNode _ hname hp =>
      have hround := h.goesOn_eq (d := d + 1) (g := g) hloop hi fun h => hname (by omega)
      rw [h.seek_beginNode hi, ← Nat.cast_succ, hround]
      exact ih hp (List.append_cons .. ▸ hi) (List.append_cons .. ▸ hall)
        (by rw [h.totalsize_eq, List.length_append]; omega)
        (by rw [List.length_append]; omega)
  | prop name nameoff value pad _ _ ih =>
    obtain ⟨f, rfl⟩ : ∃ j, f = j + 1 := ⟨f - 1, by omega⟩
    simp only [List.cons_append, List.length_cons] at hi hf hg
    cases hp with
    | prop _ hp =>
      rw [h.seek_skip hi (.inl rfl)]
      exact ih hp (List.append_cons .. ▸ hi) (List.append_cons .. ▸ hall) (by omega) (by omega)
  | endNode _ ih =>
    obtain ⟨f, rfl⟩ : ∃ j, f = j + 1 := ⟨f - 1, by omega⟩
    simp only [List.cons_append, List.length_cons] at hi hf hg
    cases hp with
    | endNode hp =>
      rw [h.seek_endNode hi]
      exact ih hp (List.append_cons .. ▸ hi) (List.append_cons .. ▸ hall) (by omega) (by omega)

/-- **A loop from a node on** passes the tokens inside it. -/
theorem loop_passes {root : CStr} {rpad : List Byte} {all : List Item}
    (hloop : GoesOn m fdt l p loop) (hd : Denotes strings is ts) (hp : PassesBy p 0 ts e)
    (hi : l.HasItems (pre ++ .beginNode root rpad :: (is ++ post)))
    (hall : pre ++ .beginNode root rpad :: is = all)
    (hend : ∀ f g, post.length < f → post.length < g →
      seek m fdt loop f g (offset all) (e : ℕ) = r) :
    loop (fdtTotalsize m fdt + 2) (offset pre) 0 = r := by
  have htotal := hi.length_lt
  rw [List.length_append, List.length_cons] at htotal
  have hround := h.goesOn_eq (d := 0) (g := fdtTotalsize m fdt + 1) hloop hi
    fun h => absurd h (by decide)
  refine Eq.trans hround (h.seek_passes hloop hd hp (List.append_cons .. ▸ hi)
    (List.append_cons .. ▸ hall) hend ?_ ?_)
  all_goals rw [h.totalsize_eq]; omega

/-! ### Subnodes -/

theorem goesOn_subnodeLoop {k s : List Byte} (hs : k <+: s) :
    GoesOn m fdt l (namesNode k) (subnodeLoop m fdt s k.length) := by
  intro pre post name pad d g hi hname
  have hround : offset pre ≥ 0 ∧ (d : ℤ) ≥ 0 := ⟨offset_nonneg _, Int.natCast_nonneg d⟩
  rw [subnodeLoop, if_pos hround]
  by_cases hd : (d : ℤ) = 1
  · rw [if_pos hd, h.nodenameEq_eq hi hs, hname (by exact_mod_cast hd), ok_bind]
    rfl
  · rw [if_neg hd]

theorem subnodeOffset_eq {s : List Byte} {k : ℕ} {x : ℤ} : fdtSubnodeOffsetNamelen m fdt x s k
    = subnodeLoop m fdt s k (fdtTotalsize m fdt + 2) x 0 := by
  have hprobe : ¬ fdtRoProbe m fdt < 0 := by
    rw [h.roProbe_eq]
    omega
  rw [fdtSubnodeOffsetNamelen, if_neg hprobe]

/-- **`fdt_subnode_offset_namelen`** finds the first child of the name. -/
theorem subnodeOffset_found {root name : CStr} {rpad pad k s : List Byte}
    (hi : l.HasItems (pre ++ .beginNode root rpad :: (is ++ .beginNode name pad :: post)))
    (hs : k <+: s) (hd : Denotes strings is ts) (hp : PassesBy (namesNode k) 0 ts 0)
    (hname : namesNode k name = true) :
    fdtSubnodeOffsetNamelen m fdt (offset pre) s k.length
      = .ok (offset (pre ++ .beginNode root rpad :: is)) := by
  rw [h.subnodeOffset_eq]
  refine h.loop_passes (h.goesOn_subnodeLoop hs) hd hp hi rfl fun f g hf hg => ?_
  obtain ⟨f, rfl⟩ : ∃ j, f = j + 1 := ⟨f - 1, by omega⟩
  obtain ⟨g, rfl⟩ : ∃ j, g = j + 1 := ⟨g - 1, by omega⟩
  have hi' : l.HasItems ((pre ++ .beginNode root rpad :: is) ++ .beginNode name pad :: post) := by
    rwa [List.append_assoc, List.cons_append]
  have hround : offset (pre ++ .beginNode root rpad :: is) ≥ 0 ∧ ((0 : ℕ) : ℤ) + 1 ≥ 0 :=
    ⟨offset_nonneg _, by decide⟩
  rw [h.seek_beginNode hi', subnodeLoop, if_pos hround, if_pos (by decide), h.nodenameEq_eq hi' hs,
    hname, ok_bind]
  exact if_pos rfl

/-- **…or none**. -/
theorem subnodeOffset_notFound {root : CStr} {rpad k s : List Byte}
    (hi : l.HasItems (pre ++ .beginNode root rpad :: (is ++ .endNode :: post)))
    (hs : k <+: s) (hd : Denotes strings is ts) (hp : PassesBy (namesNode k) 0 ts 0) :
    fdtSubnodeOffsetNamelen m fdt (offset pre) s k.length = .ok FdtErr.notfound.code := by
  rw [h.subnodeOffset_eq]
  refine h.loop_passes (h.goesOn_subnodeLoop hs) hd hp hi rfl fun f g hf hg => ?_
  obtain ⟨f, rfl⟩ : ∃ j, f = j + 1 := ⟨f - 1, by omega⟩
  obtain ⟨g, rfl⟩ : ∃ j, g = j + 1 := ⟨g - 1, by omega⟩
  have hi' : l.HasItems ((pre ++ .beginNode root rpad :: is) ++ .endNode :: post) := by
    rwa [List.append_assoc, List.cons_append]
  rw [h.seek_end hi', subnodeLoop, if_neg fun hc => absurd hc.2 (by decide), if_pos (by decide),
    pure_eq]

/-! ### Ends -/

omit h in
theorem goesOn_nodeEndLoop : GoesOn m fdt l (fun _ => false) (nodeEndLoop m fdt) := by
  intro pre post name pad d g hi _
  have hround : offset pre ≥ 0 ∧ (d : ℤ) ≥ 0 := ⟨offset_nonneg _, Int.natCast_nonneg d⟩
  rw [nodeEndLoop, if_pos hround]

/-- **`fdt_node_end_offset_`**: the offset behind the end of the node. -/
theorem nodeEndOffset_eq {root : CStr} {rpad : List Byte}
    (hi : l.HasItems (pre ++ .beginNode root rpad :: (is ++ .endNode :: post)))
    (hd : Denotes strings is ts) (hp : PassesBy (fun _ => false) 0 ts 0) :
    fdtNodeEndOffset m fdt (offset pre)
      = .ok (offset (pre ++ .beginNode root rpad :: (is ++ [.endNode]))) := by
  rw [fdtNodeEndOffset]
  refine h.loop_passes goesOn_nodeEndLoop hd hp hi rfl fun f g hf hg => ?_
  obtain ⟨f, rfl⟩ : ∃ j, f = j + 1 := ⟨f - 1, by omega⟩
  obtain ⟨g, rfl⟩ : ∃ j, g = j + 1 := ⟨g - 1, by omega⟩
  have hi' : l.HasItems ((pre ++ .beginNode root rpad :: is) ++ .endNode :: post) := by
    rwa [List.append_assoc, List.cons_append]
  rw [h.seek_end hi', nodeEndLoop, if_neg fun hc => absurd hc.2 (by decide), pure_eq,
    List.append_assoc, List.cons_append]

/-! ## Properties -/

theorem nextprop_nop {g : ℕ} (hi : l.HasItems (pre ++ .nop :: post)) :
    nextprop m fdt (g + 1) (offset pre) = nextprop m fdt g (offset (pre ++ [.nop])) := by
  have htag : Item.nop.tag = fdtNop := rfl
  rw [nextprop, h.nextTag_eq hi, ok_bind, htag]
  dsimp only
  rw [if_neg (by decide), if_neg (by decide), if_pos rfl]

theorem nextprop_prop {nameoff : ℕ} {value pad : List Byte}
    (hi : l.HasItems (pre ++ .prop nameoff value pad :: post)) :
    nextprop m fdt (g + 1) (offset pre) = .ok (offset pre) := by
  have htag : (Item.prop nameoff value pad).tag = fdtProp := rfl
  rw [nextprop, h.nextTag_eq hi, ok_bind, htag]
  dsimp only
  rw [if_neg (by decide), if_pos rfl, pure_eq]

/-- The properties end where a node starts or ends. -/
theorem nextprop_end (hi : l.HasItems (pre ++ i :: post))
    (htag : i.tag = fdtBeginNode ∨ i.tag = fdtEndNode) :
    nextprop m fdt (g + 1) (offset pre) = .ok FdtErr.notfound.code := by
  have hend : i.tag ≠ fdtEnd := by rcases htag with h | h <;> rw [h] <;> decide
  have hprop : i.tag ≠ fdtProp := by rcases htag with h | h <;> rw [h] <;> decide
  have hnop : i.tag ≠ fdtNop := by rcases htag with h | h <;> rw [h] <;> decide
  rw [nextprop, h.nextTag_eq hi, ok_bind]
  dsimp only
  rw [if_neg hend, if_neg hprop, if_neg hnop, pure_eq]

/-- The length and the name of a property. -/
theorem prop_fields {nameoff : ℕ} {value pad : List Byte}
    (hi : l.HasItems (pre ++ .prop nameoff value pad :: post)) (hoff : nameoff ≤ l.strings.length) :
    int (m.ld32 (fdt + l.offDtStruct + (itemsBytes pre).length + 4)) = value.length ∧
      int (m.ld32 (fdt + l.offDtStruct + (itemsBytes pre).length + 8)) = nameoff := by
  have hsizes := h.sizes
  have hlen := hi.length_structs
  have hbytes : (Item.prop nameoff value pad).bytes.length = 12 + value.length + pad.length := by
    simp only [Item.bytes, List.length_append, length_be32, Item.body, Item.pad]
    omega
  have hbody := (h.item_parts hi).2
  rw [← Nat.add_assoc] at hbody
  have hvalue := ld32_eq hbody.left.left (by omega)
  have hnameoff := ld32_eq hbody.left.right (by omega)
  rw [length_be32, Nat.add_assoc _ 4 4] at hnameoff
  rw [hvalue, hnameoff]
  exact ⟨int_eq rfl (by omega), int_eq rfl (by omega)⟩

/-- **A round** of `fdt_get_property`. -/
theorem propertyLoop_eq {name : CStr} {nameoff : ℕ} {value pad : List Byte}
    (hi : l.HasItems (pre ++ .prop nameoff value pad :: post))
    (hname : name.obj <+: l.strings.drop nameoff) :
    propertyLoop m fdt k.obj k.bytes.length (f + 1) (offset pre)
      = if name = k then
          .ok (some (fdt + l.offDtStruct + (itemsBytes pre).length), (value.length : ℤ))
        else seekProp m fdt k.obj k.bytes.length f (fdtTotalsize m fdt + 1)
          (offset (pre ++ [.prop nameoff value pad])) := by
  have hle := nameoff_le hname
  obtain ⟨hvalue, hnameoff⟩ := h.prop_fields hi (by omega)
  have hplace : ¬ offset pre < 0 := not_lt.mpr (offset_nonneg _)
  have hnext : ¬ offset (pre ++ [.prop nameoff value pad]) < 0 := not_lt.mpr (offset_nonneg _)
  have hround : fdtNextPropertyOffset m fdt (offset pre)
      = nextprop m fdt (fdtTotalsize m fdt + 1) (offset (pre ++ [.prop nameoff value pad])) := by
    rw [fdtNextPropertyOffset, h.checkPropOffset_eq hi, ok_bind, if_neg hnext]
  rw [propertyLoop, if_neg hplace, h.checkPropOffset_eq hi, ok_bind, if_neg hnext]
  dsimp only
  rw [h.offsetPtrRaw_offset, hvalue, hnameoff, h.stringEq_eq hname, ok_bind, hround]
  by_cases heq : name = k
  · rw [if_pos heq, if_pos (decide_eq_true heq), pure_eq]
  · rw [if_neg heq, if_neg (by simpa using heq), seekProp]

/-- **The search passes** properties of other names. -/
theorem seekProp_passes {xs : List Property} {r : MemM (Option ℕ × ℤ)} {all : List Item}
    (hd : Denotes l.strings is (xs.map Token.prop)) (hx : ∀ x ∈ xs, x.1 ≠ k)
    (hi : l.HasItems (pre ++ (is ++ post))) (hall : pre ++ is = all)
    (hend : ∀ f g, post.length < f → post.length < g →
      seekProp m fdt k.obj k.bytes.length f g (offset all) = r)
    (hf : (is ++ post).length < f) (hg : (is ++ post).length < g) :
    seekProp m fdt k.obj k.bytes.length f g (offset pre) = r := by
  generalize hts : xs.map Token.prop = ts at hd
  induction hd generalizing pre xs f g with
  | nil =>
    obtain rfl : pre = all := by simpa using hall
    exact hend f g hf hg
  | nop _ ih =>
    obtain ⟨g, rfl⟩ : ∃ j, g = j + 1 := ⟨g - 1, by omega⟩
    simp only [List.cons_append, List.length_cons] at hi hf hg
    rw [seekProp, h.nextprop_nop hi]
    exact ih hx (List.append_cons .. ▸ hi) (List.append_cons .. ▸ hall) (by omega) (by omega) hts
  | prop name nameoff value pad hname _ ih =>
    obtain ⟨f, rfl⟩ : ∃ j, f = j + 1 := ⟨f - 1, by omega⟩
    obtain ⟨g, rfl⟩ : ∃ j, g = j + 1 := ⟨g - 1, by omega⟩
    obtain ⟨x, xs, rfl, hname', hxs⟩ := List.map_eq_cons_iff.mp hts
    obtain rfl : x = (name, value) := Token.prop.inj hname'
    obtain ⟨hne, hx⟩ := List.forall_mem_cons.mp hx
    have htotal := hi.length_lt
    simp only [List.cons_append, List.length_cons, List.length_append] at hi hf hg htotal
    rw [seekProp, h.nextprop_prop hi, ok_bind, h.propertyLoop_eq hi hname, if_neg hne]
    exact ih hx (List.append_cons .. ▸ hi) (List.append_cons .. ▸ hall)
      (by rw [List.length_append]; omega)
      (by rw [h.totalsize_eq, List.length_append]; omega) hxs
  | beginNode =>
    obtain ⟨x, xs, -, hx, -⟩ := List.map_eq_cons_iff.mp hts
    cases hx
  | endNode =>
    obtain ⟨x, xs, -, hx, -⟩ := List.map_eq_cons_iff.mp hts
    cases hx

/-- The search among the properties of a node. -/
theorem getPropertyNamelen_eq {name : CStr} {pad : List Byte}
    (hi : l.HasItems (pre ++ .beginNode name pad :: post)) :
    fdtGetPropertyNamelen m fdt (offset pre) k.obj k.bytes.length
      = seekProp m fdt k.obj k.bytes.length (fdtTotalsize m fdt + 1) (fdtTotalsize m fdt + 1)
          (offset (pre ++ [.beginNode name pad])) := by
  have hnext : ¬ offset (pre ++ [.beginNode name pad]) < 0 := not_lt.mpr (offset_nonneg _)
  rw [fdtGetPropertyNamelen, fdtFirstPropertyOffset, h.checkNodeOffset_eq hi, ok_bind,
    if_neg hnext, seekProp]

theorem getProperty_eq {x : ℤ} : fdtGetProperty m fdt x k.obj
    = fdtGetPropertyNamelen m fdt x k.obj k.bytes.length := by
  rw [fdtGetProperty, k.fetch_strlen, ok_bind, h.version_eq, if_neg (by decide)]

/-- **`fdt_get_property_namelen_`** finds the first property of the name. -/
theorem getProperty_found {name : CStr} {pad value vpad : List Byte} {nameoff : ℕ}
    {xs : List Property}
    (hi : l.HasItems (pre ++ .beginNode name pad :: (is ++ .prop nameoff value vpad :: post)))
    (hd : Denotes l.strings is (xs.map Token.prop)) (hx : ∀ x ∈ xs, x.1 ≠ k)
    (hk : k.obj <+: l.strings.drop nameoff) :
    fdtGetPropertyNamelen m fdt (offset pre) k.obj k.bytes.length
      = .ok (some (fdt + l.offDtStruct + (itemsBytes (pre ++ .beginNode name pad :: is)).length),
          (value.length : ℤ)) := by
  have htotal := hi.length_lt
  rw [List.length_append, List.length_cons] at htotal
  rw [h.getPropertyNamelen_eq hi]
  refine h.seekProp_passes hd hx (List.append_cons .. ▸ hi)
    (List.append_cons pre (.beginNode name pad) is).symm ?_
    (by rw [h.totalsize_eq]; omega) (by rw [h.totalsize_eq]; omega)
  intro f g hf hg
  obtain ⟨f, rfl⟩ : ∃ j, f = j + 1 := ⟨f - 1, by omega⟩
  obtain ⟨g, rfl⟩ : ∃ j, g = j + 1 := ⟨g - 1, by omega⟩
  have hi' : l.HasItems
      ((pre ++ .beginNode name pad :: is) ++ .prop nameoff value vpad :: post) := by
    rwa [List.append_assoc, List.cons_append]
  rw [seekProp, h.nextprop_prop hi', ok_bind, h.propertyLoop_eq hi' hk, if_pos rfl]

/-- **…or none**. -/
theorem getProperty_notFound {name : CStr} {pad : List Byte} {xs : List Property}
    (hi : l.HasItems (pre ++ .beginNode name pad :: (is ++ i :: post)))
    (hd : Denotes l.strings is (xs.map Token.prop)) (hx : ∀ x ∈ xs, x.1 ≠ k)
    (htag : i.tag = fdtBeginNode ∨ i.tag = fdtEndNode) :
    fdtGetPropertyNamelen m fdt (offset pre) k.obj k.bytes.length
      = .ok (none, FdtErr.notfound.code) := by
  have htotal := hi.length_lt
  rw [List.length_append, List.length_cons] at htotal
  rw [h.getPropertyNamelen_eq hi]
  refine h.seekProp_passes hd hx (List.append_cons .. ▸ hi)
    (List.append_cons pre (.beginNode name pad) is).symm ?_
    (by rw [h.totalsize_eq]; omega) (by rw [h.totalsize_eq]; omega)
  intro f g hf hg
  obtain ⟨f, rfl⟩ : ∃ j, f = j + 1 := ⟨f - 1, by omega⟩
  obtain ⟨g, rfl⟩ : ∃ j, g = j + 1 := ⟨g - 1, by omega⟩
  have hi' : l.HasItems ((pre ++ .beginNode name pad :: is) ++ i :: post) := by
    rwa [List.append_assoc, List.cons_append]
  rw [seekProp, h.nextprop_end hi' htag, ok_bind, propertyLoop, if_pos (by decide), pure_eq]

end Loaded

end LittleLoader
