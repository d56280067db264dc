import LittleLoader.Block.Checksum
import LittleLoader.Env.Holds
import LittleLoader.Foundations.Delimited

/-!
# Block/Grammar — the format of an environment block

    block    =  crc32 payload, payload
    payload  =  entry … entry, then the end of the block or a NUL and anything
    entry    =  name '=' value NUL

where a name is one byte that is not NUL, and then bytes that are neither NUL nor `=`.  The format
is unambiguous: a payload has one list of entries (`IsPayload.unique`).
-/

namespace LittleLoader

variable {e e' : Entry} {es fs : List Entry} {n : CStr} {payload block l p q v : List Byte}
  {c : Byte}

/-! ## Entries as bytes -/

/-- An entry on the disk. -/
def Entry.encode (e : Entry) : List Byte := e.1.bytes ++ chr '=' :: (e.2.bytes ++ [0#8])

/-- Entries on the disk, one after the other. -/
def encode (es : List Entry) : List Byte := es.flatMap Entry.encode

@[simp] theorem encode_nil : encode [] = [] := rfl

@[simp] theorem encode_cons : encode (e :: es) = e.encode ++ encode es := rfl

@[simp] theorem encode_append : encode (es ++ fs) = encode es ++ encode fs := List.flatMap_append

@[simp] theorem Entry.length_encode (e : Entry) :
    e.encode.length = e.1.bytes.length + e.2.bytes.length + 2 := by
  simp only [Entry.encode, List.length_append, List.length_cons, List.length_nil]
  omega

/-- The room that entries take does not depend on their order. -/
theorem length_encode_eq_of_perm (h : es.Perm fs) : (encode es).length = (encode fs).length :=
  (h.flatMap_right _).length_eq

/-! ## The format -/

/-- A name the reader can find: it is not empty, and has no `=` after its first byte. -/
def ValidName (n : CStr) : Prop := n.bytes ≠ [] ∧ chr '=' ∉ n.bytes.tail

instance : Decidable (ValidName n) := inferInstanceAs (Decidable (_ ∧ _))

/-- **The payload holds the entries**, one after the other, up to its end or to a NUL. -/
structure IsPayload (payload : List Byte) (es : List Entry) : Prop where
  valid : ∀ e ∈ es, ValidName e.1
  bytes : ∃ tail, payload = encode es ++ tail ∧ (tail = [] ∨ ∃ rest, tail = 0#8 :: rest)

/-- **The block is sealed and holds the entries.** -/
structure IsBlock (block : List Byte) (es : List Entry) : Prop where
  isSealed : Sealed block
  payload : IsPayload (block.drop 4) es

/-! ## Parsing an entry -/

/-- The bytes that end the scan for a name. -/
def EndsName (b : Byte) : Prop := b = 0#8 ∨ b = chr '='

theorem chr_eq_ne_nul : chr '=' ≠ 0#8 := by decide

/-- A name is its first byte and bytes that do not end it. -/
theorem ValidName.exists_cons (h : ValidName n) :
    ∃ c l, n.bytes = c :: l ∧ c ≠ 0#8 ∧ ∀ b ∈ l, ¬ EndsName b := by
  obtain ⟨_ | ⟨c, l⟩, hnul⟩ := n
  · exact absurd rfl h.1
  · simp only [List.mem_cons, not_or] at hnul
    refine ⟨c, l, rfl, Ne.symm hnul.1, ?_⟩
    rintro b hb (rfl | rfl)
    · exact hnul.2 hb
    · exact h.2 hb

theorem Entry.exists_encode (h : ValidName e.1) :
    ∃ c l, e.1.bytes = c :: l ∧ c ≠ 0#8 ∧ (∀ b ∈ l, ¬ EndsName b) ∧
      e.encode = c :: (l ++ chr '=' :: (e.2.bytes ++ [0#8])) := by
  obtain ⟨c, l, hn, hc, hl⟩ := h.exists_cons
  exact ⟨c, l, hn, hc, hl, by simp [Entry.encode, hn]⟩

/-- **An entry can be read off the bytes it begins.** -/
theorem Entry.encode_inj (h : ValidName e.1) (h' : ValidName e'.1)
    (heq : e.encode ++ p = e'.encode ++ q) : e = e' ∧ p = q := by
  obtain ⟨c, l, hn, -, hl, he⟩ := Entry.exists_encode h
  obtain ⟨c', l', hn', -, hl', he'⟩ := Entry.exists_encode h'
  simp only [he, he', List.cons_append, List.append_assoc, List.nil_append,
    List.cons.injEq] at heq
  obtain ⟨rfl, heq⟩ := heq
  -- the first byte that ends the name is the `=`, the first NUL after it ends the value
  obtain ⟨rfl, hafter⟩ := (Cut.cons hl (.inr rfl)).unique (Cut.cons hl' (.inr rfl)) heq
  have hvalue : ∀ s : CStr, ∀ b ∈ s.bytes, ¬ b = 0#8 := fun s b hb h => s.nul_notMem (h ▸ hb)
  obtain ⟨hv, hrest⟩ := (Cut.cons (hvalue e.2) rfl).unique (Cut.cons (hvalue e'.2) rfl)
    (List.cons.inj hafter).2
  exact ⟨Prod.ext (CStr.ext (hn.trans hn'.symm)) (CStr.ext hv), (List.cons.inj hrest).2⟩

namespace IsPayload

/-- A payload that does not begin with a NUL begins with an entry. -/
theorem exists_entry (h : IsPayload (c :: p) es) (hc : c ≠ 0#8) :
    ∃ e fs q, es = e :: fs ∧ ValidName e.1 ∧ c :: p = e.encode ++ q ∧ IsPayload q fs := by
  obtain ⟨hvalid, tail, heq, htail⟩ := h
  match es with
  | [] =>
    obtain rfl | ⟨rest, rfl⟩ := htail
    · simp at heq
    · exact absurd (List.cons.inj heq).1 hc
  | e :: fs =>
    exact ⟨e, fs, encode fs ++ tail, rfl, hvalid e (by simp), by simpa using heq,
      fun d hd => hvalid d (List.mem_cons_of_mem _ hd), tail, rfl, htail⟩

@[simp] theorem nil_iff : IsPayload [] es ↔ es = [] := by
  constructor
  · rintro ⟨-, tail, heq, -⟩
    match es with
    | [] => rfl
    | e :: fs => simp [Entry.encode] at heq
  · rintro rfl
    exact ⟨by simp, [], rfl, .inl rfl⟩

@[simp] theorem nul_iff : IsPayload (0#8 :: p) es ↔ es = [] := by
  constructor
  · rintro ⟨hvalid, tail, heq, -⟩
    match es with
    | [] => rfl
    | e :: fs =>
      obtain ⟨c, l, -, hc, -, he⟩ := Entry.exists_encode (hvalid e (by simp))
      rw [encode_cons, he] at heq
      exact absurd (List.cons.inj heq).1.symm hc
  · rintro rfl
    exact ⟨by simp, 0#8 :: p, rfl, .inr ⟨p, rfl⟩⟩

theorem entry_iff (he : ValidName e.1) :
    IsPayload (e.encode ++ p) es ↔ ∃ fs, es = e :: fs ∧ IsPayload p fs := by
  constructor
  · intro h
    obtain ⟨c, l, -, hc, -, hencode⟩ := Entry.exists_encode he
    have h' := h
    rw [hencode, List.cons_append] at h'
    obtain ⟨e', fs, q, rfl, he', heq, hq⟩ := h'.exists_entry hc
    rw [← List.cons_append, ← hencode] at heq
    obtain ⟨rfl, rfl⟩ := Entry.encode_inj he he' heq
    exact ⟨fs, rfl, hq⟩
  · rintro ⟨fs, rfl, hvalid, tail, rfl, htail⟩
    exact ⟨by simpa using ⟨he, fun a b hab => hvalid (a, b) hab⟩, tail, by simp, htail⟩

/-- **The format is unambiguous.** -/
theorem unique (h : IsPayload payload es) (h' : IsPayload payload fs) : es = fs := by
  induction es generalizing payload fs with
  | nil =>
    obtain ⟨-, tail, rfl, rfl | ⟨rest, rfl⟩⟩ := h
    · exact (nil_iff.mp h').symm
    · exact (nul_iff.mp h').symm
  | cons e es ih =>
    obtain ⟨hvalid, tail, rfl, htail⟩ := h
    rw [encode_cons, List.append_assoc, entry_iff (hvalid e (by simp))] at h'
    obtain ⟨gs, rfl, hgs⟩ := h'
    rw [ih ⟨fun d hd => hvalid d (List.mem_cons_of_mem _ hd), tail, rfl, htail⟩ hgs]

end IsPayload

/-! ## What the reader rejects -/

/-- A name without its `=` is no entry. -/
theorem not_isPayload_of_name (hc : c ≠ 0#8) (hl : ∀ b ∈ l, ¬ EndsName b)
    (hp : p = [] ∨ ∃ rest, p = 0#8 :: rest) : ¬ IsPayload (c :: (l ++ p)) es := by
  intro h
  obtain ⟨e, -, q, -, he, heq, -⟩ := h.exists_entry hc
  obtain ⟨c', l', -, -, hl', hencode⟩ := Entry.exists_encode he
  rw [hencode, List.cons_append, List.append_assoc] at heq
  have hcut : Cut EndsName l p := by
    obtain rfl | ⟨rest, rfl⟩ := hp
    · exact .nil hl
    · exact .cons hl (.inl rfl)
  obtain ⟨-, rfl⟩ := hcut.unique (.cons hl' (.inr rfl)) (List.cons.inj heq).2
  obtain hp | ⟨rest, hp⟩ := hp
  · simp at hp
  · exact chr_eq_ne_nul (List.cons.inj hp).1

/-- A value without its NUL is no entry. -/
theorem not_isPayload_of_value (hc : c ≠ 0#8) (hl : ∀ b ∈ l, ¬ EndsName b) (hv : 0#8 ∉ v) :
    ¬ IsPayload (c :: (l ++ chr '=' :: v)) es := by
  intro h
  obtain ⟨e, -, q, -, he, heq, -⟩ := h.exists_entry hc
  obtain ⟨c', l', -, -, hl', hencode⟩ := Entry.exists_encode he
  rw [hencode, List.cons_append, List.append_assoc] at heq
  obtain ⟨-, heq⟩ := (Cut.cons hl (.inr rfl)).unique (.cons hl' (.inr rfl)) (List.cons.inj heq).2
  rw [(List.cons.inj heq).2] at hv
  simp at hv

/-! ## Blocks -/

namespace IsBlock

theorem unique (h : IsBlock block es) (h' : IsBlock block fs) : es = fs :=
  h.payload.unique h'.payload

theorem sealBlock (h : IsPayload payload es) : IsBlock (sealBlock payload) es :=
  ⟨sealed_sealBlock payload, by rwa [drop_sealBlock]⟩

end IsBlock

end LittleLoader
