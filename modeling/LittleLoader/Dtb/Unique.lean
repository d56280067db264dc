import LittleLoader.Dtb.Read

/-!
# Dtb/Unique — a blob stores one tree

    header ──▸ blocks ──▸ items ──▸ tokens ──▸ tree

Each arrow is a function: the header says where the blocks are, a tag and the NUL of a name or the
length of a value say where an item ends, and the start and the end of a node where it is in the
tree.
-/

namespace LittleLoader

open Mem

variable {x y n : ℕ} {l l' : Layout} {is js : List Item} {i j : Item} {strings xs ys : List Byte}
  {ts us : List Token} {t u : DeviceTree} {a b : CStr} {ws vs : List ℕ}

/-! ## Words -/

theorem ofNat_eq_ofNat_iff : BitVec.ofNat 8 x = BitVec.ofNat 8 y ↔ x % 256 = y % 256 := by
  rw [← BitVec.toNat_inj, BitVec.toNat_ofNat, BitVec.toNat_ofNat]

theorem be32_eq_iff : be32 x = be32 y ↔ x % 0x100000000 = y % 0x100000000 := by
  simp only [be32, List.cons.injEq, and_true, ofNat_eq_ofNat_iff]
  omega

theorem be32_injective (hx : x < 0x100000000) (hy : y < 0x100000000) (h : be32 x = be32 y) :
    x = y := by
  have hmod := be32_eq_iff.mp h
  omega

/-- Words that fit into 32 bits. -/
theorem flatMap_be32_injective (hws : ∀ w ∈ ws, w < 0x100000000) (hvs : ∀ v ∈ vs, v < 0x100000000)
    (h : ws.flatMap be32 = vs.flatMap be32) : ws = vs := by
  induction ws generalizing vs with
  | nil =>
    cases vs with
    | nil => rfl
    | cons v vs => simp [be32] at h
  | cons w ws ih =>
    cases vs with
    | nil => simp [be32] at h
    | cons v vs =>
      obtain ⟨hw, hws⟩ := List.forall_mem_cons.mp hws
      obtain ⟨hv, hvs⟩ := List.forall_mem_cons.mp hvs
      obtain ⟨hhead, htail⟩ := List.append_inj h rfl
      rw [be32_injective hw hv hhead, ih hws hvs htail]

/-! ## Strings -/

/-- **The NUL ends a string.** -/
theorem obj_append_inj (h : a.obj ++ xs = b.obj ++ ys) : a = b ∧ xs = ys := by
  simp only [CStr.obj, List.append_assoc, List.singleton_append] at h
  have hlen : some a.bytes.length = some b.bytes.length := by
    rw [← strlen_append a.nul_notMem, h, strlen_append b.nul_notMem]
  obtain ⟨hbytes, htail⟩ := List.append_inj h (Option.some.inj hlen)
  exact ⟨CStr.ext hbytes, (List.cons.inj htail).2⟩

/-! ## The layout -/

/-- The numbers of the header fit into their words. -/
theorem Layout.Stores.header_lt (h : l.Stores t) : ∀ w ∈ l.header, w < 0x100000000 := by
  obtain ⟨before, after, hfront, hoff⟩ := h.reservations
  have hlen : before.length ≤ l.front.length := by
    rw [hfront, List.length_append]
    exact Nat.le_add_right _ _
  have htotal := h.totalsize
  have hcomp := h.lastCompVersion
  obtain ⟨hcpu, hlt⟩ := h.bootCpuid
  have hstructs := l.offDtStruct_le
  have hstrings := l.offDtStrings_le
  have hstart : l.offDtStruct = 40 + l.front.length := rfl
  intro w hw
  simp only [Layout.header, List.mem_cons, List.not_mem_nil, or_false] at hw
  rcases hw with rfl | rfl | rfl | rfl | rfl | rfl | rfl | rfl | rfl | rfl
  · decide
  all_goals omega

/-- **The bytes are those of one layout.** -/
theorem Layout.Stores.layout_eq (h : l.Stores t) (h' : l'.Stores u) (hbytes : l.bytes = l'.bytes) :
    l = l' := by
  obtain ⟨hheader, hrest⟩ := List.append_inj hbytes (by simp [Layout.header])
  have hwords := flatMap_be32_injective h.header_lt h'.header_lt hheader
  simp only [Layout.header, List.cons.injEq, Layout.offDtStruct, Layout.offDtStrings, true_and,
    and_true] at hwords
  obtain ⟨-, hstruct, hstrings, hrsv, hcomp, hcpu, hstringslen, hstructslen⟩ := hwords
  obtain ⟨hfront, hrest⟩ := List.append_inj hrest (by omega)
  obtain ⟨hstructs, hrest⟩ := List.append_inj hrest hstructslen
  obtain ⟨hgap, hrest⟩ := List.append_inj hrest (by omega)
  obtain ⟨hstrings, hfree⟩ := List.append_inj hrest hstringslen
  cases l
  cases l'
  simp_all only

/-! ## Items -/

/-- The numbers of an item fit into their words. -/
def Item.Small : Item → Prop
  | .prop nameoff value _ => value.length < 0x100000000 ∧ nameoff < 0x100000000
  | _ => True

/-- **The bytes of an item are those of one item.** -/
theorem item_append_inj (hi : i.Padded) (hj : j.Padded) (hi' : i.Small) (hj' : j.Small)
    (h : i.bytes ++ xs = j.bytes ++ ys) : i = j ∧ xs = ys := by
  simp only [Item.bytes, List.append_assoc] at h
  obtain ⟨htag, h⟩ := List.append_inj h rfl
  have htag := be32_injective i.tag_lt j.tag_lt htag
  cases i with
  | beginNode a p =>
    cases j with
    | beginNode b q =>
      obtain ⟨rfl, hrest⟩ := obj_append_inj h
      obtain ⟨rfl, rfl⟩ := List.append_inj hrest (Nat.add_left_cancel (hi.trans hj.symm))
      exact ⟨rfl, rfl⟩
    | _ => simp [Item.tag, fdtBeginNode, fdtEndNode, fdtProp, fdtNop] at htag
  | prop off v p =>
    cases j with
    | prop off' v' q =>
      simp only [Item.body, Item.pad, List.append_assoc] at h
      obtain ⟨hlen, hrest⟩ := List.append_inj h rfl
      obtain ⟨hoff, hrest'⟩ := List.append_inj hrest rfl
      obtain ⟨rfl, hpad⟩ := List.append_inj hrest' (be32_injective hi'.1 hj'.1 hlen)
      obtain rfl := be32_injective hi'.2 hj'.2 hoff
      obtain ⟨rfl, rfl⟩ := List.append_inj hpad (Nat.add_left_cancel (hi.trans hj.symm))
      exact ⟨rfl, rfl⟩
    | _ => simp [Item.tag, fdtBeginNode, fdtEndNode, fdtProp, fdtNop] at htag
  | endNode =>
    cases j with
    | endNode => exact ⟨rfl, h⟩
    | _ => simp [Item.tag, fdtBeginNode, fdtEndNode, fdtProp, fdtNop] at htag
  | nop =>
    cases j with
    | nop => exact ⟨rfl, h⟩
    | _ => simp [Item.tag, fdtBeginNode, fdtEndNode, fdtProp, fdtNop] at htag

/-- The end tag is not the tag of an item. -/
theorem end_ne_item (i : Item) : be32 fdtEnd ++ xs ≠ i.bytes ++ ys := by
  intro h
  simp only [Item.bytes, List.append_assoc] at h
  have htag := be32_injective (by decide) i.tag_lt (List.append_inj h rfl).1
  cases i <;> simp [Item.tag, fdtBeginNode, fdtEndNode, fdtProp, fdtNop, fdtEnd] at htag

/-- **The structure block is that of one list of items.** -/
theorem itemsBytes_inj (his : ∀ i ∈ is, i.Padded ∧ i.Small) (hjs : ∀ j ∈ js, j.Padded ∧ j.Small)
    (h : itemsBytes is ++ be32 fdtEnd = itemsBytes js ++ be32 fdtEnd) : is = js := by
  induction is generalizing js with
  | nil =>
    cases js with
    | nil => rfl
    | cons j js =>
      rw [itemsBytes_cons, List.append_assoc, itemsBytes_nil, List.nil_append] at h
      have hend : be32 fdtEnd ++ [] = j.bytes ++ (itemsBytes js ++ be32 fdtEnd) := by
        rwa [List.append_nil]
      exact absurd hend (end_ne_item j)
  | cons i is ih =>
    cases js with
    | nil =>
      rw [itemsBytes_cons, List.append_assoc, itemsBytes_nil, List.nil_append] at h
      have hend : be32 fdtEnd ++ [] = i.bytes ++ (itemsBytes is ++ be32 fdtEnd) := by
        rw [List.append_nil, h]
      exact absurd hend (end_ne_item i)
    | cons j js =>
      obtain ⟨hi, his'⟩ := List.forall_mem_cons.mp his
      obtain ⟨hj, hjs'⟩ := List.forall_mem_cons.mp hjs
      rw [itemsBytes_cons, itemsBytes_cons, List.append_assoc, List.append_assoc] at h
      obtain ⟨rfl, hrest⟩ := item_append_inj hi.1 hj.1 hi.2 hj.2 h
      rw [ih his' hjs' hrest]

/-! ## Tokens -/

/-- **Items store one list of tokens.** -/
theorem Denotes.unique (h : Denotes strings is ts) (h' : Denotes strings is us) : ts = us := by
  induction h generalizing us with
  | nil =>
    cases h'
    rfl
  | nop _ ih =>
    cases h' with
    | nop h' => exact ih h'
  | beginNode name pad _ ih =>
    cases h' with
    | beginNode _ _ h' => rw [ih h']
  | prop name nameoff value pad hname _ ih =>
    cases h' with
    | prop name' _ _ _ hname' h' =>
      obtain ⟨xs, hxs⟩ := hname
      obtain ⟨ys, hys⟩ := hname'
      rw [ih h', (obj_append_inj (hxs.trans hys.symm)).1]
  | endNode _ ih =>
    cases h' with
    | endNode h' => rw [ih h']

/-- The numbers of the items fit into their words. -/
theorem Denotes.small (h : Denotes strings is ts) (hstrings : strings.length < 0x100000000)
    (hn : (itemsBytes is).length < 0x100000000) : ∀ i ∈ is, i.Small := by
  induction h with
  | nil => exact fun i hi => absurd hi List.not_mem_nil
  | nop _ ih =>
    rw [itemsBytes_cons, List.length_append] at hn
    exact List.forall_mem_cons.mpr ⟨trivial, ih (by omega)⟩
  | beginNode name pad _ ih =>
    rw [itemsBytes_cons, List.length_append] at hn
    exact List.forall_mem_cons.mpr ⟨trivial, ih (by omega)⟩
  | prop name nameoff value pad hname _ ih =>
    have hle := nameoff_le hname
    rw [itemsBytes_cons, List.length_append] at hn
    refine List.forall_mem_cons.mpr ⟨⟨?_, by omega⟩, ih (by omega)⟩
    simp only [Item.bytes, Item.body, List.length_append, length_be32] at hn
    omega
  | endNode _ ih =>
    rw [itemsBytes_cons, List.length_append] at hn
    exact List.forall_mem_cons.mpr ⟨trivial, ih (by omega)⟩

/-! ## Trees -/

/-- Properties end where something else comes. -/
theorem props_append_inj {ps qs : List Property} {s t : Token} (hs : ∀ x, s ≠ .prop x)
    (ht : ∀ x, t ≠ .prop x) (h : ps.map Token.prop ++ s :: ts = qs.map Token.prop ++ t :: us) :
    ps = qs ∧ s :: ts = t :: us := by
  induction ps generalizing qs with
  | nil =>
    cases qs with
    | nil => exact ⟨rfl, h⟩
    | cons q qs => exact absurd (List.cons.inj h).1 (hs q)
  | cons p ps ih =>
    cases qs with
    | nil => exact absurd (List.cons.inj h).1.symm (ht p)
    | cons q qs =>
      obtain ⟨hp, hrest⟩ := List.cons.inj h
      obtain ⟨rfl, heq⟩ := ih hrest
      exact ⟨by rw [Token.prop.inj hp], heq⟩

mutual

/-- **The tokens of a node are those of one node.** -/
theorem tokens_append_inj : (x y : Node) → (ts us : List Token) →
    x.tokens ++ ts = y.tokens ++ us → x = y ∧ ts = us
  | .mk a ps xs, .mk b qs ys, ts, us, h => by
      simp only [Node.tokens_eq, Node.name, Node.props, Rose.label_node, Rose.children_node,
        List.cons_append, List.append_assoc, List.nil_append, List.cons.injEq,
        Token.beginNode.injEq] at h
      obtain ⟨rfl, hrest⟩ := h
      obtain ⟨s, ss, hs, hsne⟩ := exists_tokensAll_eq xs ts
      obtain ⟨t, tt, ht, htne⟩ := exists_tokensAll_eq ys us
      rw [hs, ht] at hrest
      obtain ⟨rfl, hchildren⟩ := props_append_inj hsne htne hrest
      rw [← hs, ← ht] at hchildren
      obtain ⟨rfl, rfl⟩ := tokensAll_append_inj xs ys ts us hchildren
      exact ⟨rfl, rfl⟩

/-- **The tokens of nodes in a row**, up to an end, are those of one list of nodes. -/
theorem tokensAll_append_inj : (xs ys : List Node) → (ts us : List Token) →
    Node.tokensAll xs ++ .endNode :: ts = Node.tokensAll ys ++ .endNode :: us → xs = ys ∧ ts = us
  | [], [], _, _, h => by simpa using h
  | [], y :: ys, _, _, h => by simp [Node.tokens_eq] at h
  | x :: xs, [], _, _, h => by simp [Node.tokens_eq] at h
  | x :: xs, y :: ys, ts, us, h => by
      simp only [tokensAll_cons, List.append_assoc] at h
      obtain ⟨rfl, hrest⟩ := tokens_append_inj x y _ _ h
      obtain ⟨rfl, rfl⟩ := tokensAll_append_inj xs ys ts us hrest
      exact ⟨rfl, rfl⟩

end

/-! ## Reservations -/

theorem zeros_eq : List.replicate 16 0#8 = Reservation.bytes (0, 0) := by decide

theorem reservationsBytes_cons (r : Reservation) (rs : List Reservation) :
    reservationsBytes (r :: rs) = r.bytes ++ reservationsBytes rs := by
  simp only [reservationsBytes, List.flatMap_cons, List.append_assoc]

theorem reservation_injective {r s : Reservation} (h : r.bytes = s.bytes) : r = s := by
  have hword (v w : BitVec 64) (hhigh : be32 (v.toNat / 0x100000000) = be32 (w.toNat / 0x100000000))
      (hlow : be32 v.toNat = be32 w.toNat) : v = w := by
    have hv := v.isLt
    have hw := w.isLt
    rw [be32_eq_iff] at hhigh hlow
    exact BitVec.eq_of_toNat_eq (by omega)
  obtain ⟨hthree, hsize'⟩ := List.append_inj h rfl
  obtain ⟨htwo, hsize⟩ := List.append_inj hthree rfl
  obtain ⟨haddress, haddress'⟩ := List.append_inj htwo rfl
  exact Prod.ext (hword _ _ haddress haddress') (hword _ _ hsize hsize')

/-- **The reservation map ends at the first entry of zeros.** -/
theorem reservations_append_inj {rs ss : List Reservation} (hrs : ∀ r ∈ rs, r ≠ (0, 0))
    (hss : ∀ s ∈ ss, s ≠ (0, 0)) (h : reservationsBytes rs ++ xs = reservationsBytes ss ++ ys) :
    rs = ss := by
  have hnil (r : Reservation) (zs ws : List Byte)
      (h : reservationsBytes [] ++ zs = r.bytes ++ ws) : r = (0, 0) :=
    reservation_injective ((List.append_inj h rfl).1.symm.trans zeros_eq)
  induction rs generalizing ss with
  | nil =>
    cases ss with
    | nil => rfl
    | cons s ss =>
      rw [reservationsBytes_cons, List.append_assoc] at h
      exact absurd (hnil s _ _ h) (hss s List.mem_cons_self)
  | cons r rs ih =>
    cases ss with
    | nil =>
      rw [reservationsBytes_cons, List.append_assoc] at h
      exact absurd (hnil r _ _ h.symm) (hrs r List.mem_cons_self)
    | cons s ss =>
      rw [reservationsBytes_cons, reservationsBytes_cons, List.append_assoc, List.append_assoc] at h
      obtain ⟨hbytes, hrest⟩ := List.append_inj h rfl
      rw [reservation_injective hbytes, ih (List.forall_mem_cons.mp hrs).2
        (List.forall_mem_cons.mp hss).2 hrest]

/-! ## The tree of a blob -/

/-- **A blob stores one tree.** -/
theorem IsDtb.unique {bs : List Byte} (h : IsDtb bs t) (h' : IsDtb bs u) : t = u := by
  obtain ⟨l, rfl, hl⟩ := h
  obtain ⟨l', hbytes, hl'⟩ := h'
  obtain rfl := hl.layout_eq hl' hbytes.symm
  -- the reservations
  obtain ⟨before, after, hfront, hoff⟩ := hl.reservations
  obtain ⟨before', after', hfront', hoff'⟩ := hl'.reservations
  obtain ⟨-, hmap⟩ := List.append_inj (hfront.symm.trans hfront') (by omega)
  have hreservations := reservations_append_inj hl.used hl'.used hmap
  -- the nodes
  obtain ⟨is, hi, hd⟩ := hl.structs
  obtain ⟨js, hj, hd'⟩ := hl'.structs
  have htotal := hl.totalsize
  have hstructs := l.offDtStruct_le
  have hstrings := l.offDtStrings_le
  have hsmall (is : List Item) (ts : List Token) (hi : l.HasItems is)
      (hd : Denotes l.strings is ts) : ∀ i ∈ is, i.Padded ∧ i.Small := by
    have hlen : l.structs.length = (itemsBytes is).length + 4 := by
      rw [hi.structs, List.length_append, length_be32]
    exact fun i hmem => ⟨hi.padded i hmem, hd.small (by omega) (by omega) i hmem⟩
  obtain rfl := itemsBytes_inj (hsmall is _ hi hd) (hsmall js _ hj hd')
    (hi.structs.symm.trans hj.structs)
  have htokens := hd.unique hd'
  have hroot := (tokens_append_inj t.root u.root [] [] (by rw [htokens])).1
  have hcpu := hl.bootCpuid.1.symm.trans hl'.bootCpuid.1
  cases t
  cases u
  simp_all only

end LittleLoader
