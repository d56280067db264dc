import LittleLoader.Dtb.Memory
import LittleLoader.Foundations.Lookup
import LittleLoader.Foundations.Rose
import LittleLoader.Machine.Libfdt

/-!
# Dtb/Format — device trees, and the blobs that store them

    header ┆ … memory reservations … ┆ structure block ┆ … ┆ strings block ┆ free space

A device tree is a tree of named nodes with properties.  Its tokens are stored in the structure
block, one item each, with padding and with NOPs between them; a property names itself by an offset
into the strings block.
-/

namespace LittleLoader

open Mem

/-! ## Device trees -/

/-- A property: its name and its value. -/
abbrev Property := CStr × List Byte

/-- A node: its name and its properties, and its children below it. -/
abbrev Node := Rose (CStr × List Property)

/-- An entry of the reservation map: the address and the size of a region. -/
abbrev Reservation := BitVec 64 × BitVec 64

/-- A device tree. -/
structure DeviceTree where
  bootCpuid : ℕ
  reservations : List Reservation
  root : Node

namespace Node

variable (x : Node)

/-- A node, by its parts. -/
@[match_pattern] abbrev mk (name : CStr) (props : List Property) (children : List Node) : Node :=
  .node (name, props) children

/-- The name of a node. -/
def name : CStr := x.label.1

/-- The properties of a node. -/
def props : List Property := x.label.2

/-- The node with one property set: in place if there is one of that name, in front if not. -/
def setProp (k : CStr) (v : List Byte) : Node := .mk x.name (assign k v x.props) x.children

/-- The node without its first property of a name. -/
def delProp (k : CStr) : Node := .mk x.name (x.props.eraseP (·.1 = k)) x.children

/-- The node with another name. -/
def rename (k : CStr) : Node := .mk k x.props x.children

/-- The node with one more child, in front of the others. -/
def addChild (c : Node) : Node := .mk x.name x.props (c :: x.children)

end Node

/-- The names that `libfdt` takes for `k`: `k` itself, and `k` with a unit address if it has none. -/
def namesNode (k : List Byte) (n : CStr) : Bool :=
  k <+: n.bytes ∧ (n.bytes.length = k.length ∨
    chr '@' ∉ k ∧ n.bytes[k.length]? = some (chr '@'))

/-- The address of the node that is reached by names. -/
def Node.find (ks : List (List Byte)) (x : Node) : Option (List ℕ) :=
  x.locate (ks.map fun k a => namesNode k a.1)

/-- The name of the node with the boot arguments. -/
def chosen : CStr := .lit "chosen"

/-- The name of the property with the boot arguments. -/
def bootargs : CStr := .lit "bootargs"

/-- **The tree with boot arguments**: the property is set in the first child of the root that the
name of the node is taken for, and in a new one in front if there is none. -/
def DeviceTree.setBootargs (args : CStr) (t : DeviceTree) : DeviceTree where
  bootCpuid := t.bootCpuid
  reservations := t.reservations
  root := match t.root.find [chosen.bytes] with
    | some p => t.root.modify (Node.setProp · bootargs args.obj) p
    | none => t.root.addChild (.mk chosen [(bootargs, args.obj)] [])

/-! ## Tokens -/

/-- A token of the structure block. -/
inductive Token
  | beginNode (name : CStr)
  | prop (p : Property)
  | endNode
deriving DecidableEq

/-- The tokens at the start of a node. -/
def Token.enter (a : CStr × List Property) : List Token := .beginNode a.1 :: a.2.map Token.prop

/-- The tokens of a node. -/
def Node.tokens (x : Node) : List Token := x.word Token.enter [.endNode]

/-- The tokens of nodes in a row. -/
def Node.tokensAll (xs : List Node) : List Token := Rose.words Token.enter [.endNode] xs

theorem Node.tokens_eq (x : Node) : x.tokens =
    .beginNode x.name :: (x.props.map Token.prop ++ (Node.tokensAll x.children ++ [.endNode])) :=
  Rose.word_eq x

@[simp] theorem tokensAll_nil : Node.tokensAll [] = [] := Rose.words_nil

@[simp] theorem tokensAll_cons (x : Node) (xs : List Node) :
    Node.tokensAll (x :: xs) = x.tokens ++ Node.tokensAll xs := Rose.words_cons x xs

@[simp] theorem tokensAll_append (xs ys : List Node) :
    Node.tokensAll (xs ++ ys) = Node.tokensAll xs ++ Node.tokensAll ys := Rose.words_append xs ys

/-- What follows the properties of a node: the start of a child, or the end. -/
theorem exists_tokensAll_eq (xs : List Node) (us : List Token) :
    ∃ t ts, Node.tokensAll xs ++ .endNode :: us = t :: ts ∧ ∀ x, t ≠ .prop x := by
  match xs with
  | [] => exact ⟨.endNode, us, by simp, fun x hx => nomatch hx⟩
  | x :: xs =>
    refine ⟨.beginNode x.name, (x.props.map Token.prop ++
      (Node.tokensAll x.children ++ [.endNode])) ++ Node.tokensAll xs ++ .endNode :: us, ?_,
      fun x hx => nomatch hx⟩
    rw [tokensAll_cons, x.tokens_eq, List.cons_append, List.cons_append]

/-! ## The structure block -/

/-- A token as it is stored, with its padding. -/
inductive Item
  | beginNode (name : CStr) (pad : List Byte)
  | prop (nameoff : ℕ) (value pad : List Byte)
  | endNode
  | nop
deriving DecidableEq

namespace Item

/-- The number of the tag. -/
def tag : Item → ℕ
  | beginNode _ _ => fdtBeginNode
  | prop _ _ _ => fdtProp
  | endNode => fdtEndNode
  | nop => fdtNop

/-- What follows the tag, up to the padding. -/
def body : Item → List Byte
  | beginNode name _ => name.obj
  | prop nameoff value _ => be32 value.length ++ be32 nameoff ++ value
  | endNode => []
  | nop => []

/-- The padding. -/
def pad : Item → List Byte
  | beginNode _ pad => pad
  | prop _ _ pad => pad
  | endNode => []
  | nop => []

/-- The bytes of an item. -/
def bytes (i : Item) : List Byte := be32 i.tag ++ i.body ++ i.pad

/-- The padding goes up to the next multiple of 4. -/
def Padded (i : Item) : Prop := i.body.length + i.pad.length = fdtTagalign i.body.length

instance (i : Item) : Decidable i.Padded := inferInstanceAs (Decidable (_ = _))

end Item

/-- The bytes of items in a row. -/
def itemsBytes (is : List Item) : List Byte := is.flatMap Item.bytes

/-- **The items store the tokens**: NOPs stand for nothing, and the name of a property is the string
at its offset. -/
inductive Denotes (strings : List Byte) : List Item → List Token → Prop
  | nil : Denotes strings [] []
  | nop {is ts} (h : Denotes strings is ts) : Denotes strings (.nop :: is) ts
  | beginNode {is ts} (name : CStr) (pad : List Byte) (h : Denotes strings is ts) :
      Denotes strings (.beginNode name pad :: is) (.beginNode name :: ts)
  | prop {is ts} (name : CStr) (nameoff : ℕ) (value pad : List Byte)
      (hname : name.obj <+: strings.drop nameoff) (h : Denotes strings is ts) :
      Denotes strings (.prop nameoff value pad :: is) (.prop (name, value) :: ts)
  | endNode {is ts} (h : Denotes strings is ts) : Denotes strings (.endNode :: is) (.endNode :: ts)

/-! ## Blobs -/

/-- An entry of the reservation map. -/
def Reservation.bytes (r : Reservation) : List Byte :=
  be32 (r.1.toNat / 0x100000000) ++ be32 r.1.toNat ++ be32 (r.2.toNat / 0x100000000) ++
    be32 r.2.toNat

/-- The reservation map ends with an entry of zeros. -/
def reservationsBytes (rs : List Reservation) : List Byte :=
  rs.flatMap Reservation.bytes ++ List.replicate 16 0#8

/-- **The layout of a blob** of version 17 whose blocks stand in the order of the format: what is in
the header but does not follow from the blocks, and the blocks with what is between them. -/
structure Layout where
  offMemRsvmap : ℕ
  lastCompVersion : ℕ
  bootCpuidPhys : ℕ
  front : List Byte
  structs : List Byte
  gap : List Byte
  strings : List Byte
  free : List Byte

namespace Layout

variable (l : Layout)

/-- Where the structure block starts. -/
def offDtStruct : ℕ := 40 + l.front.length

/-- Where the strings block starts. -/
def offDtStrings : ℕ := l.offDtStruct + l.structs.length + l.gap.length

/-- The size of the blob. -/
def totalsize : ℕ := l.offDtStrings + l.strings.length + l.free.length

/-- The fields of the header. -/
def header : List ℕ :=
  [fdtMagicNumber, l.totalsize, l.offDtStruct, l.offDtStrings, l.offMemRsvmap, 17,
    l.lastCompVersion, l.bootCpuidPhys, l.strings.length, l.structs.length]

/-- The bytes of the blob. -/
def bytes : List Byte :=
  l.header.flatMap be32 ++ (l.front ++ (l.structs ++ (l.gap ++ (l.strings ++ l.free))))

/-- **The structure block consists of the items**, and ends with its end tag. -/
structure HasItems (is : List Item) : Prop where
  structs : l.structs = itemsBytes is ++ be32 fdtEnd
  padded : ∀ i ∈ is, i.Padded

/-- **The blob stores the tree.** -/
structure Stores (t : DeviceTree) : Prop where
  totalsize : l.totalsize < 0x100000000
  lastCompVersion : l.lastCompVersion ≤ 17
  bootCpuid : l.bootCpuidPhys = t.bootCpuid ∧ t.bootCpuid < 0x100000000
  reservations : ∃ before after, l.front = before ++ (reservationsBytes t.reservations ++ after) ∧
    l.offMemRsvmap = 40 + before.length
  used : ∀ r ∈ t.reservations, r ≠ (0, 0)
  structs : ∃ is, l.HasItems is ∧ Denotes l.strings is t.root.tokens

end Layout

/-! ## Sizes and offsets -/

section

variable {l : Layout} {pre post is : List Item} {i : Item} {k n : ℕ}

@[simp] theorem fdtTagalign_mod (n : ℕ) : fdtTagalign n % 4 = 0 := by
  unfold fdtTagalign
  omega

theorem le_fdtTagalign (n : ℕ) : n ≤ fdtTagalign n := by
  unfold fdtTagalign
  omega

theorem fdtTagalign_add (h : k % 4 = 0) : fdtTagalign (k + n) = k + fdtTagalign n := by
  unfold fdtTagalign
  omega

@[simp] theorem length_flatMap_be32 (ws : List ℕ) : (ws.flatMap be32).length = 4 * ws.length := by
  induction ws with
  | nil => rfl
  | cons w ws ih =>
    rw [List.flatMap_cons, List.length_append, ih, length_be32, List.length_cons]
    omega

@[simp] theorem itemsBytes_nil : itemsBytes [] = [] := rfl

@[simp] theorem itemsBytes_cons : itemsBytes (i :: is) = i.bytes ++ itemsBytes is := rfl

@[simp] theorem itemsBytes_append : itemsBytes (pre ++ post) = itemsBytes pre ++ itemsBytes post :=
  List.flatMap_append

/-- The offset behind the items. -/
def offset (is : List Item) : ℤ := ((itemsBytes is).length : ℕ)

theorem offset_nil : offset [] = 0 := rfl

theorem offset_nonneg (is : List Item) : 0 ≤ offset is := Int.natCast_nonneg _

/-- An item takes its tag, its body and its padding. -/
theorem Item.Padded.length_bytes (hi : i.Padded) :
    i.bytes.length = 4 + fdtTagalign i.body.length := by
  rw [Item.bytes, List.length_append, List.length_append, length_be32, Nat.add_assoc, hi]

theorem Item.length_bytes_prop (nameoff : ℕ) (value pad : List Byte) :
    (Item.prop nameoff value pad).bytes.length = 12 + value.length + pad.length := by
  simp only [Item.bytes, Item.body, Item.pad, List.length_append, length_be32]
  omega

theorem Item.tag_lt (i : Item) : i.tag < 0x100000000 := by
  cases i <;> simp [Item.tag, fdtBeginNode, fdtProp, fdtEndNode, fdtNop]

theorem length_itemsBytes_mod (h : ∀ i ∈ is, i.Padded) : (itemsBytes is).length % 4 = 0 := by
  induction is with
  | nil => rfl
  | cons i is ih =>
    obtain ⟨hi, his⟩ := List.forall_mem_cons.mp h
    have hbody := fdtTagalign_mod i.body.length
    have hrest := ih his
    rw [itemsBytes_cons, List.length_append, hi.length_bytes]
    omega

theorem Layout.offDtStruct_le (l : Layout) : l.offDtStruct + l.structs.length ≤ l.offDtStrings :=
  Nat.le_add_right _ _

theorem Layout.offDtStrings_le (l : Layout) : l.offDtStrings + l.strings.length ≤ l.totalsize :=
  Nat.le_add_right _ _

theorem Layout.length_bytes (l : Layout) : l.bytes.length = l.totalsize := by
  simp only [Layout.bytes, Layout.totalsize, Layout.offDtStrings, Layout.offDtStruct,
    Layout.header, List.length_append, length_flatMap_be32, List.length_cons, List.length_nil]
  omega

/-- The name of a property is inside the strings. -/
theorem nameoff_le {strings : List Byte} {name : CStr} {nameoff : ℕ}
    (hname : name.obj <+: strings.drop nameoff) :
    nameoff + name.bytes.length + 1 ≤ strings.length := by
  have hle := hname.length_le
  rw [List.length_drop, name.length_obj] at hle
  omega

namespace Layout.HasItems

/-- The structure block, by the place of an item. -/
theorem length_structs (hi : l.HasItems (pre ++ i :: post)) :
    (itemsBytes pre).length + i.bytes.length + (itemsBytes post).length + 4 = l.structs.length := by
  rw [hi.structs]
  simp only [itemsBytes_append, itemsBytes_cons, List.length_append, length_be32]
  omega

theorem offset_mod (hi : l.HasItems (pre ++ post)) : (itemsBytes pre).length % 4 = 0 :=
  length_itemsBytes_mod fun i h => hi.padded i (List.mem_append_left _ h)

theorem offset_emod (hi : l.HasItems (pre ++ post)) : offset pre % (fdtTagsize : ℕ) = 0 := by
  have hmod := hi.offset_mod
  unfold offset fdtTagsize
  omega

end Layout.HasItems

end

/-! ## The blobs of a tree -/

/-- **The bytes are a blob of the tree.** -/
def IsDtb (bs : List Byte) (t : DeviceTree) : Prop := ∃ l : Layout, l.bytes = bs ∧ l.Stores t

end LittleLoader
