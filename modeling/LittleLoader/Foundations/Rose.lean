import Mathlib.Data.List.Basic

/-!
# Foundations/Rose — trees with any number of children, and the words that write them down

    node a [x, y]   ──word──▸   enter a ++ word x ++ word y ++ leave

A subtree has an address, the list of the numbers of the children on the way to it; an edit at an
address is an edit of the subtree that is there (`modify_eq_set`), or of its parent (`erase_append`).
In the word of a tree the word of a subtree is one stretch.
-/

universe u v

/-- A tree with a label at each node. -/
inductive Rose (α : Type u)
  | node (label : α) (children : List (Rose α))

namespace Rose

variable {α : Type u} {β : Type v} {x y z : Rose α} {xs ys : List (Rose α)} {p q : List ℕ}
  {i : ℕ} {f : Rose α → Rose α}

/-- The label of the root. -/
def label : Rose α → α
  | node a _ => a

/-- The subtrees below the root. -/
def children : Rose α → List (Rose α)
  | node _ xs => xs

@[simp] theorem label_node (a : α) (xs : List (Rose α)) : (node a xs).label = a := rfl

@[simp] theorem children_node (a : α) (xs : List (Rose α)) : (node a xs).children = xs := rfl

/-! ## Addresses -/

/-- The subtree at an address. -/
def get? : List ℕ → Rose α → Option (Rose α)
  | [], x => some x
  | i :: p, x => x.children[i]?.bind (get? p)

/-- The tree with the subtree at an address changed. -/
def modify (f : Rose α → Rose α) : List ℕ → Rose α → Rose α
  | [], x => f x
  | i :: p, x => node x.label (x.children.modify i (modify f p))

/-- The tree with another subtree at an address. -/
def set (x : Rose α) (p : List ℕ) (z : Rose α) : Rose α := x.modify (fun _ => z) p

/-- The tree without its child of a number. -/
def eraseChild (i : ℕ) (x : Rose α) : Rose α := node x.label (x.children.eraseIdx i)

/-- The tree without the subtree at an address; there is always a root. -/
def erase (x : Rose α) (p : List ℕ) : Rose α :=
  match p.getLast? with
  | none => x
  | some i => x.modify (eraseChild i) p.dropLast

/-- The address that is reached by the first child with each property in turn. -/
def locate : List (α → Bool) → Rose α → Option (List ℕ)
  | [], _ => some []
  | c :: cs, x => (x.children.findIdx? (c ·.label)).bind fun i =>
      x.children[i]?.bind fun y => (i :: ·) <$> locate cs y

@[simp] theorem get?_nil (x : Rose α) : x.get? [] = some x := rfl

@[simp] theorem modify_nil (f : Rose α → Rose α) (x : Rose α) : x.modify f [] = f x := rfl

@[simp] theorem set_nil (x z : Rose α) : x.set [] z = z := rfl

/-- A child, with the children in front of it and behind it. -/
theorem exists_children (h : x.children[i]? = some y) :
    ∃ xs ys, x.children = xs ++ y :: ys ∧ xs.length = i := by
  obtain ⟨hi, rfl⟩ := List.getElem?_eq_some_iff.mp h
  exact ⟨x.children.take i, x.children.drop (i + 1), by simp, List.length_take_of_le (Nat.le_of_lt hi)⟩

theorem getElem?_children (h : x.children = xs ++ y :: ys) : x.children[xs.length]? = some y := by
  rw [h, List.getElem?_append_right (Nat.le_refl _), Nat.sub_self]
  rfl

theorem modify_cons (h : x.children = xs ++ y :: ys) :
    x.modify f (xs.length :: p) = node x.label (xs ++ y.modify f p :: ys) := by
  rw [modify, h, List.modify_eq_take_cons_drop (by simp)]
  simp

theorem get?_append : x.get? (p ++ q) = (x.get? p).bind (get? q) := by
  induction p generalizing x with
  | nil => rfl
  | cons i p ih =>
    rw [List.cons_append, get?, get?, Option.bind_assoc]
    exact congrArg _ (funext fun _ => ih)

theorem modify_append : x.modify f (p ++ q) = x.modify (modify f q) p := by
  induction p generalizing x with
  | nil => rfl
  | cons i p ih =>
    rw [List.cons_append, modify, modify]
    exact congrArg (fun g => node x.label (x.children.modify i g)) (funext fun _ => ih)

/-- What is changed is the subtree that is there. -/
theorem modify_eq_set (h : x.get? p = some y) : x.modify f p = x.set p (f y) := by
  induction p generalizing x with
  | nil =>
    obtain rfl : x = y := by simpa using h
    rfl
  | cons i p ih =>
    obtain ⟨c, hc, hget⟩ := Option.bind_eq_some_iff.mp h
    obtain ⟨xs, ys, hchildren, rfl⟩ := exists_children hc
    rw [set, modify_cons hchildren, modify_cons hchildren, ih hget, set]

theorem modify_modify {g : Rose α → Rose α} :
    (x.modify f p).modify g p = x.modify (fun y => g (f y)) p := by
  induction p generalizing x with
  | nil => rfl
  | cons i p ih =>
    rw [modify, modify, modify, label_node, children_node, List.modify_modify_eq]
    exact congrArg (fun h => node x.label (x.children.modify i h)) (funext fun _ => ih)

@[simp] theorem set_set (x y z : Rose α) (p : List ℕ) : (x.set p y).set p z = x.set p z :=
  modify_modify

theorem modify_id (x : Rose α) (p : List ℕ) : x.modify id p = x := by
  induction p generalizing x with
  | nil => rfl
  | cons i p ih =>
    have hid : modify (α := α) id p = id := funext fun y => ih y
    obtain ⟨a, xs⟩ := x
    rw [modify, hid, List.modify_id, label_node, children_node]

theorem set_eq_self (h : x.get? p = some y) : x.set p y = x :=
  (modify_eq_set (f := id) h).symm.trans (modify_id x p)

theorem get?_set (h : x.get? p = some y) (z : Rose α) : (x.set p z).get? p = some z := by
  induction p generalizing x with
  | nil => rfl
  | cons i p ih =>
    obtain ⟨c, hc, hget⟩ := Option.bind_eq_some_iff.mp h
    obtain ⟨xs, ys, hchildren, rfl⟩ := exists_children hc
    rw [set, modify_cons hchildren, get?, getElem?_children rfl]
    exact ih hget

/-! ### Another label -/

theorem getElem?_children_set {c : Rose α} (hc : x.children[i]? = some c) (j : ℕ) :
    (x.set (i :: p) z).children[j]? = if i = j then some (c.set p z) else x.children[j]? := by
  rw [set, modify, children_node, List.getElem?_modify]
  by_cases hij : i = j
  · subst hij
    simp [hc, set]
  · simp [hij]

/-- **The labels of a tree** with another label at an address. -/
theorem label_get?_set (h : x.get? p = some y) (hz : z.children = y.children) :
    ((x.set p z).get? q).map label = if q = p then some z.label else (x.get? q).map label := by
  induction p generalizing x q with
  | nil =>
    obtain rfl : x = y := by simpa using h
    match q with
    | [] => simp
    | j :: q => simp [get?, hz]
  | cons i p ih =>
    obtain ⟨c, hc, hget⟩ := Option.bind_eq_some_iff.mp h
    match q with
    | [] => simp [set, modify]
    | j :: q =>
      rw [get?, get?, getElem?_children_set hc]
      by_cases hij : i = j
      · subst hij
        rw [if_pos rfl, Option.bind_some, ih hget, hc, Option.bind_some]
        simp
      · rw [if_neg hij, if_neg fun hq => hij (List.cons.inj hq).1.symm]

/-- **The same children are found**, if the properties do not tell the labels apart. -/
theorem locate_set (h : x.get? p = some y) (hz : z.children = y.children)
    {cs : List (α → Bool)} (hlabel : ∀ c ∈ cs, c z.label = c y.label) :
    locate cs (x.set p z) = locate cs x := by
  induction cs generalizing x p with
  | nil => rfl
  | cons c cs ih =>
    obtain ⟨hc, hcs⟩ := List.forall_mem_cons.mp hlabel
    match p with
    | [] =>
      obtain rfl : x = y := by simpa using h
      rw [set_nil, locate, locate, hz]
    | i :: p =>
      obtain ⟨w, hw, hget⟩ := Option.bind_eq_some_iff.mp h
      have hchild : c (w.set p z).label = c w.label := by
        match p with
        | [] =>
          obtain rfl : w = y := by simpa using hget
          exact hc
        | _ :: _ => rfl
      have hmap : (x.set (i :: p) z).children.map (c ·.label) = x.children.map (c ·.label) := by
        refine List.ext_getElem? fun j => ?_
        rw [List.getElem?_map, List.getElem?_map, getElem?_children_set hw]
        by_cases hij : i = j
        · subst hij
          rw [if_pos rfl, hw, Option.map_some, Option.map_some, hchild]
        · rw [if_neg hij]
      have hindex : (x.set (i :: p) z).children.findIdx? (c ·.label)
          = x.children.findIdx? (c ·.label) := by
        have hfind := congrArg (List.findIdx? id) hmap
        rwa [List.findIdx?_map, List.findIdx?_map] at hfind
      rw [locate, locate, hindex]
      refine congrArg _ (funext fun j => ?_)
      rw [getElem?_children_set hw]
      by_cases hij : i = j
      · subst hij
        rw [if_pos rfl, hw, Option.bind_some, Option.bind_some, ih hget hcs]
      · rw [if_neg hij]

/-- **A child is taken away** at its parent. -/
theorem erase_append (h : x.get? p = some y) (hc : y.children = xs ++ z :: ys) :
    x.erase (p ++ [xs.length]) = x.set p (node y.label (xs ++ ys)) := by
  have hchild : y.eraseChild xs.length = node y.label (xs ++ ys) := by
    rw [eraseChild, hc, List.eraseIdx_append_of_length_le (Nat.le_refl _), Nat.sub_self]
    rfl
  rw [erase, List.getLast?_concat, List.dropLast_concat, ← hchild]
  exact modify_eq_set h

theorem erase_set (x z : Rose α) (hp : p ≠ []) : (x.set p z).erase p = x.erase p := by
  obtain ⟨q, i, rfl⟩ : ∃ q i, p = q ++ [i] :=
    ⟨p.dropLast, p.getLast hp, (List.dropLast_append_getLast hp).symm⟩
  have hchild (y : Rose α) : (y.modify (fun _ => z) [i]).eraseChild i = y.eraseChild i := by
    rw [eraseChild, modify, label_node, children_node, List.eraseIdx_modify_of_eq, eraseChild]
  rw [erase, erase, List.getLast?_concat, List.dropLast_concat, set, modify_append]
  simp only [modify_modify, hchild]

/-! ## Words -/

mutual

/-- The word of a tree: the root is entered, and left after its children. -/
def word (enter : α → List β) (leave : List β) : Rose α → List β
  | node a xs => enter a ++ (words enter leave xs ++ leave)

/-- The words of trees in a row. -/
def words (enter : α → List β) (leave : List β) : List (Rose α) → List β
  | [] => []
  | x :: xs => word enter leave x ++ words enter leave xs

end

variable {enter : α → List β} {leave : List β}

theorem word_eq (x : Rose α) :
    x.word enter leave = enter x.label ++ (words enter leave x.children ++ leave) := by
  obtain ⟨a, xs⟩ := x
  rw [word, label_node, children_node]

@[simp] theorem words_nil : words enter leave [] = [] := by rw [words]

@[simp] theorem words_cons (x : Rose α) (xs : List (Rose α)) :
    words enter leave (x :: xs) = x.word enter leave ++ words enter leave xs := by rw [words]

@[simp] theorem words_append (xs ys : List (Rose α)) :
    words enter leave (xs ++ ys) = words enter leave xs ++ words enter leave ys := by
  induction xs with
  | nil => simp
  | cons x xs ih => simp [ih]

end Rose
