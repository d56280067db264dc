import LittleLoader.Block.Grammar
import LittleLoader.Env.Sort

/-!
# Block/Write — `uboot_env_write` stores the sorted entries

    crc32, entry … entry, NUL, 0xff … 0xff

The writer succeeds exactly if the entries, the CRC field and two bytes more fit into the block
(`Fits`), and then leaves `writtenBlock` in the buffer (`returns_ubootEnvWrite`).  It has sorted the
list before it knows, and overwritten the block, but never a byte behind it (`StoredBelow`).
-/

namespace LittleLoader

variable {w w' : World} {env : UbootEnv} {xs ys : List Entry} {e : Entry} {a : Option Addr}
  {cs : List (Addr × Entry)} {front fill buffer buffer' buffer'' s t : List Byte} {c : Byte}
  {fuel p size stop stop' : ℕ}

/-! ## What stores leave alone -/

/-- `buffer'` is `buffer` after stores at offsets below `stop`. -/
structure StoredBelow (stop : ℕ) (buffer buffer' : List Byte) : Prop where
  length : buffer'.length = buffer.length
  drop : buffer'.drop stop = buffer.drop stop

namespace StoredBelow

@[refl] theorem refl (stop : ℕ) (buffer : List Byte) : StoredBelow stop buffer buffer := ⟨rfl, rfl⟩

theorem trans (h : StoredBelow stop buffer buffer') (h' : StoredBelow stop buffer' buffer'') :
    StoredBelow stop buffer buffer'' :=
  ⟨h'.length.trans h.length, h'.drop.trans h.drop⟩

theorem mono (h : StoredBelow stop buffer buffer') (hle : stop ≤ stop') :
    StoredBelow stop' buffer buffer' := by
  refine ⟨h.length, ?_⟩
  have hdrop := congrArg (List.drop (stop' - stop)) h.drop
  rwa [List.drop_drop, List.drop_drop, Nat.add_sub_cancel' hle] at hdrop

/-- Bytes that replace as many behind a front. -/
theorem append (hs : s.length ≤ fill.length) (hstop : front.length + s.length ≤ stop) :
    StoredBelow stop (front ++ fill) (front ++ s ++ fill.drop s.length) := by
  refine mono ⟨?_, ?_⟩ hstop
  · simp only [List.length_append, List.length_drop]
    omega
  · rw [List.drop_left' List.length_append, ← List.drop_drop, List.drop_left]

/-- A block in front of bytes that are not stored to. -/
theorem exists_append (h : StoredBelow stop (s ++ t) buffer) (hs : s.length = stop) :
    ∃ s', s'.length = stop ∧ buffer = s' ++ t := by
  refine ⟨buffer.take stop, ?_, ?_⟩
  · rw [List.length_take, h.length, List.length_append]
    omega
  · have hdrop := h.drop
    rw [List.drop_left' hs] at hdrop
    rw [← hdrop, List.take_append_drop]

end StoredBelow

/-! ## Stores at the cursor -/

theorem memcpyAt_append (hp : p = front.length) (h : s.length ≤ fill.length) :
    memcpyAt (front ++ fill) p (s ++ t) s.length = some (front ++ s ++ fill.drop s.length) := by
  subst hp
  rw [memcpyAt, List.drop_left, memcpy_eq h (by simp)]
  simp

theorem poke_append (hp : p = front.length) (h : 0 < fill.length) :
    poke (front ++ fill) p c = some (front ++ [c] ++ fill.drop 1) := by
  subst hp
  match fill with
  | [] => simp at h
  | b :: fill => rw [poke_eq (by simp), List.set_append_right _ _ le_rfl]; simp

/-- **A round stores its entry** at the cursor, if it passes the room check. -/
theorem returns_putEntry {β : Type} {k : List Byte → M β} {Q : β → World → Prop}
    (h : e.encode.length ≤ fill.length) :
    Returns (do
        let buffer ← access (memcpyAt (front ++ fill) front.length e.1.obj e.1.bytes.length)
        let p := front.length + e.1.bytes.length
        let buffer ← access (poke buffer p (chr '='))
        let p := p + 1
        let buffer ← access (memcpyAt buffer p e.2.obj e.2.bytes.length)
        let p := p + e.2.bytes.length
        let buffer ← access (poke buffer p 0#8)
        k buffer) w Q ↔
      Returns (k (front ++ e.encode ++ fill.drop e.encode.length)) w Q := by
  rw [Entry.length_encode] at h
  have h₁ : memcpyAt (front ++ fill) front.length e.1.obj e.1.bytes.length
      = some (front ++ e.1.bytes ++ fill.drop e.1.bytes.length) :=
    memcpyAt_append rfl (by omega)
  have h₂ : poke (front ++ e.1.bytes ++ fill.drop e.1.bytes.length)
      (front.length + e.1.bytes.length) (chr '=') = some _ :=
    poke_append (by simp) (by rw [List.length_drop]; omega)
  have h₃ : memcpyAt (front ++ e.1.bytes ++ [chr '='] ++ (fill.drop e.1.bytes.length).drop 1)
      (front.length + e.1.bytes.length + 1) (e.2.bytes ++ [0#8]) e.2.bytes.length = some _ :=
    memcpyAt_append (by simp only [List.length_append, List.length_singleton])
    (by simp only [List.length_drop]; omega)
  have h₄ : poke (front ++ e.1.bytes ++ [chr '='] ++ e.2.bytes ++
        ((fill.drop e.1.bytes.length).drop 1).drop e.2.bytes.length)
      (front.length + e.1.bytes.length + 1 + e.2.bytes.length) 0#8 = some _ :=
    poke_append (by simp only [List.length_append, List.length_singleton])
    (by simp only [List.length_drop]; omega)
  rw [returns_bind, returns_access h₁, returns_bind, returns_access h₂, returns_bind,
    CStr.obj, returns_access h₃, returns_bind, returns_access h₄]
  have hencode : front ++ e.1.bytes ++ [chr '='] ++ e.2.bytes ++ [0#8] = front ++ e.encode := by
    simp [Entry.encode]
  have hdrop : (((fill.drop e.1.bytes.length).drop 1).drop e.2.bytes.length).drop 1
      = fill.drop e.encode.length := by
    rw [List.drop_drop, List.drop_drop, List.drop_drop, Entry.length_encode]
    congr 1
    omega
  rw [hencode, hdrop]

/-! ## The loop -/

/-- **The loop** stores the entries at the cursor if they end before `stop`.  `memset_` has seen to
it that the buffer goes that far. -/
theorem returns_ubootEnvWriteLoop (stop : ℕ) (front fill : List Byte) (h : Linked w.nodes a cs)
    (hfuel : cs.length < fuel) (hstop : stop ≤ front.length + fill.length) :
    Returns (ubootEnvWriteLoop stop fuel a (front ++ fill) front.length) w fun r w' =>
      Quiet w w' ∧ StoredBelow stop (front ++ fill) r.2.1 ∧
        (front.length + (encode (cs.map Prod.snd)).length ≤ stop →
          r = (0, front ++ encode (cs.map Prod.snd) ++ fill.drop (encode (cs.map Prod.snd)).length,
            front.length + (encode (cs.map Prod.snd)).length)) ∧
        (stop < front.length + (encode (cs.map Prod.snd)).length → front.length ≤ stop →
          r.1 = -1) := by
  induction cs generalizing a fuel front fill with
  | nil =>
    obtain rfl := Linked.nil_iff.mp h
    obtain ⟨fuel, rfl⟩ : ∃ k, fuel = k + 1 := ⟨fuel - 1, by omega⟩
    simp only [ubootEnvWriteLoop, returns_pure, List.map_nil, encode_nil, List.length_nil]
    exact ⟨.refl w, .refl _ _, fun _ => by simp, fun _ _ => by omega⟩
  | cons d cs ih =>
    obtain ⟨b, e⟩ := d
    obtain ⟨rfl, next, hn, hr⟩ := Linked.cons_iff.mp h
    obtain ⟨fuel, rfl⟩ : ∃ k, fuel = k + 1 := ⟨fuel - 1, by omega⟩
    rw [ubootEnvWriteLoop, returns_bind, returns_loadPair hn, returns_bind, strlen_obj,
      returns_access_some, returns_bind, strlen_obj, returns_access_some]
    have hlen := e.length_encode
    simp only [List.map_cons, encode_cons, List.length_append]
    split
    · rw [returns_bind, returns_errReturn, returns_pure]
      exact ⟨quiet_say _ _, .refl _ _, fun _ => by omega, fun _ _ => rfl⟩
    · have hcursor : front.length + e.1.bytes.length + 1 + e.2.bytes.length + 1
          = (front ++ e.encode).length := by
        rw [List.length_append, hlen]
        omega
      have := ih (front ++ e.encode) (fill.drop e.encode.length) hr
        (by simpa using hfuel) (by simp only [List.length_append, List.length_drop]; omega)
      refine (returns_putEntry (k := fun buffer => ubootEnvWriteLoop stop fuel next buffer
        (front.length + e.1.bytes.length + 1 + e.2.bytes.length + 1)) (by omega)).mpr ?_
      rw [hcursor]
      refine this.mono ?_
      rintro r w' ⟨hq, hstored, hfits, hfull⟩
      rw [List.length_append] at hfits hfull
      refine ⟨hq, (StoredBelow.append (by omega) (by omega)).trans hstored, fun hle => ?_,
        fun hlt hle => hfull (by omega) (by omega)⟩
      rw [hfits (by omega)]
      simp [Nat.add_assoc]

/-! ## `uboot_env_write` -/

/-- **There is room for the entries**: the writer keeps a byte more free than the format needs. -/
def Fits (size : ℕ) (es : List Entry) : Prop := (encode es).length + 6 ≤ size

instance (size : ℕ) (es : List Entry) : Decidable (Fits size es) :=
  inferInstanceAs (Decidable (_ ≤ _))

theorem fits_iff_of_perm (h : xs.Perm ys) : Fits size xs ↔ Fits size ys := by
  rw [Fits, Fits, length_encode_eq_of_perm h]

/-- The payload of entries: the NUL that ends them, and the fill. -/
def writtenPayload (size : ℕ) (es : List Entry) : List Byte :=
  encode es ++ 0#8 :: List.replicate (size - 5 - (encode es).length) 0xff#8

/-- **The block the writer leaves.** -/
def writtenBlock (size : ℕ) (es : List Entry) : List Byte := sealBlock (writtenPayload size es)

theorem length_writtenBlock (h : Fits size xs) : (writtenBlock size xs).length = size := by
  unfold Fits at h
  simp only [writtenBlock, writtenPayload, length_sealBlock, List.length_append, List.length_cons,
    List.length_replicate]
  omega

theorem isBlock_writtenBlock (h : ∀ e ∈ xs, ValidName e.1) : IsBlock (writtenBlock size xs) xs :=
  .sealBlock ⟨h, _, rfl, .inr ⟨_, rfl⟩⟩

theorem length_writtenPayload (h : Fits size xs) : (writtenPayload size xs).length = size - 4 := by
  unfold Fits at h
  simp only [writtenPayload, List.length_append, List.length_cons, List.length_replicate]
  omega

/-- Past the loop: the terminator and the CRC field complete the block. -/
theorem returns_sealBuffer {β : Type} {k : List Byte → M β} {Q : β → World → Prop}
    {rest : List Byte} (hfits : Fits size ys) (hbound : size ≤ ptrdiffMax) :
    Returns (do
        let buffer ← access (poke (List.replicate 4 0xff#8 ++ encode ys ++
          (List.replicate (size - 4) 0xff#8 ++ rest).drop (encode ys).length)
          (4 + (encode ys).length) 0#8)
        let crc32 ← access (crc32buf (buffer.drop 4) (sizeT (size - 4)))
        let buffer ← access (storeCrc32 buffer crc32)
        k buffer) w Q ↔
      Returns (k (writtenBlock size ys ++ rest)) w Q := by
  have hpayload := length_writtenPayload hfits
  unfold Fits at hfits
  have hcount : sizeT (size - 4) = (writtenPayload size ys).length := by
    rw [← Nat.cast_ofNat, sizeT_sub (by omega) hbound, hpayload]
  have hfill : (List.replicate (size - 4) 0xff#8 ++ rest).drop (encode ys).length
      = 0xff#8 :: (List.replicate (size - 5 - (encode ys).length) 0xff#8 ++ rest) := by
    rw [List.drop_append_of_le_length (by rw [List.length_replicate]; omega), List.drop_replicate,
      show size - 4 - (encode ys).length = size - 5 - (encode ys).length + 1 by omega,
      List.replicate_succ, List.cons_append]
  have hpoke : poke (List.replicate 4 0xff#8 ++ encode ys ++
      (List.replicate (size - 4) 0xff#8 ++ rest).drop (encode ys).length)
      (4 + (encode ys).length) 0#8 = some _ :=
    poke_append (by simp only [List.length_append, List.length_replicate])
    (by simp [hfill])
  have hbuffer : List.replicate 4 0xff#8 ++ encode ys ++ [0#8] ++
      ((List.replicate (size - 4) 0xff#8 ++ rest).drop (encode ys).length).drop 1
      = List.replicate 4 0xff#8 ++ (writtenPayload size ys ++ rest) := by
    rw [hfill, writtenPayload]
    simp
  rw [hbuffer] at hpoke
  rw [returns_bind, returns_access hpoke, returns_bind, List.drop_left' (by simp), hcount,
    returns_access (crc32buf_eq (by simp)), List.take_left, returns_bind,
    returns_access (storeCrc32_eq (by simp)), List.drop_left' (by simp), ← List.append_assoc]
  rfl

/-- The written block replaces the block that was there. -/
theorem storedBelow_writtenBlock (hfits : Fits size ys) (hbuffer : size ≤ buffer.length) :
    StoredBelow size buffer (writtenBlock size ys ++ buffer.drop size) := by
  have hlen := length_writtenBlock hfits
  refine ⟨?_, by rw [List.drop_left' hlen]⟩
  rw [List.length_append, hlen, List.length_drop]
  omega

/-- **`uboot_env_write`**: the list is sorted, and stored if it fits.  The stores, also those before
it is found not to fit, stay inside the block. -/
theorem returns_ubootEnvWrite_stored (h : Holds w env xs) (hbuffer : env.envSize ≤ buffer.length)
    (hsize : 8 ≤ env.envSize) (hbound : env.envSize ≤ ptrdiffMax) :
    Returns (ubootEnvWrite env buffer) w fun r w' => StoredBelow env.envSize buffer r.2.2 ∧
      r.2.1.envSize = env.envSize ∧ SameDevice w w' ∧
        ∃ ys, StableSorted (fun e : Entry => e.1.key) xs ys ∧ Holds w' r.2.1 ys ∧
          (Fits env.envSize xs → r.1 = 0 ∧
            r.2.2 = writtenBlock env.envSize ys ++ buffer.drop env.envSize) ∧
          (¬ Fits env.envSize xs → r.1 = -1) := by
  rw [ubootEnvWrite, if_neg (by omega), returns_bind, returns_access (memset_eq hbuffer),
    returns_bind]
  refine (returns_ubootEnvSort h).mono ?_
  rintro env₁ w₁ ⟨henv, hdev, ys, hsorted, hys⟩
  obtain ⟨⟨cs, hcs, rfl⟩, hfresh⟩ := id hys
  have hperm : Fits env.envSize _ ↔ Fits env.envSize xs := fits_iff_of_perm hsorted.perm
  have hsplit : List.replicate env.envSize 0xff#8 ++ buffer.drop env.envSize
      = List.replicate 4 0xff#8 ++
        (List.replicate (env.envSize - 4) 0xff#8 ++ buffer.drop env.envSize) := by
    rw [← List.append_assoc, List.replicate_append_replicate]
    congr 2
    omega
  have hloop := returns_ubootEnvWriteLoop (env₁.envSize - 2) (List.replicate 4 0xff#8)
    (List.replicate (env.envSize - 4) 0xff#8 ++ buffer.drop env.envSize) hcs
    (Nat.lt_succ_of_le (hcs.length_le hfresh))
    (by simp only [List.length_append, List.length_replicate]; omega)
  rw [List.length_replicate, ← hsplit] at hloop
  have hfilled : StoredBelow env.envSize buffer
      (List.replicate env.envSize 0xff#8 ++ buffer.drop env.envSize) := by
    have hlen : (List.replicate env.envSize 0xff#8).length = env.envSize := List.length_replicate
    have happend : StoredBelow env.envSize ([] ++ buffer) _ :=
      .append (hlen.trans_le hbuffer) (by rw [List.length_nil, hlen, Nat.zero_add])
    rwa [List.nil_append, List.nil_append, hlen] at happend
  simp only [returns_bind, returns_listFuel]
  refine hloop.mono ?_
  rintro r w₂ ⟨hq, hstored, hfits, hfull⟩
  have hdev₂ := hdev.trans hq.toSameDevice
  by_cases hroom : Fits env.envSize xs
  · have hroom' := hperm.mpr hroom
    have hlen := hroom'
    unfold Fits at hlen
    obtain rfl := hfits (by omega)
    rw [if_neg (by simp), henv]
    refine (returns_sealBuffer (k := fun buffer => pure (0, env₁, buffer)) hroom' hbound).mpr ?_
    exact returns_pure.mpr ⟨storedBelow_writtenBlock hroom' hbuffer, henv, hdev₂, _, hsorted,
      hys.quiet hq, fun _ => ⟨rfl, rfl⟩, fun h => absurd hroom h⟩
  · have hroom' := mt hperm.mp hroom
    unfold Fits at hroom'
    have hrc := hfull (by omega) (by omega)
    rw [if_pos (by omega), returns_pure]
    exact ⟨hfilled.trans (hstored.mono (by omega)), henv, hdev₂, _, hsorted, hys.quiet hq,
      fun h => absurd h hroom, fun _ => hrc⟩

theorem returns_ubootEnvWrite (h : Holds w env xs) (hbuffer : env.envSize ≤ buffer.length)
    (hsize : 8 ≤ env.envSize) (hbound : env.envSize ≤ ptrdiffMax) :
    Returns (ubootEnvWrite env buffer) w fun r w' =>
      r.2.1.envSize = env.envSize ∧ SameDevice w w' ∧
        ∃ ys, StableSorted (fun e : Entry => e.1.key) xs ys ∧ Holds w' r.2.1 ys ∧
          (Fits env.envSize xs → r.1 = 0 ∧
            r.2.2 = writtenBlock env.envSize ys ++ buffer.drop env.envSize) ∧
          (¬ Fits env.envSize xs → r.1 = -1) :=
  (returns_ubootEnvWrite_stored h hbuffer hsize hbound).mono fun _ _ hr => hr.2

/-- **Entries that fit** are written. -/
theorem returns_ubootEnvWrite_of_fits (h : Holds w env xs) (hbuffer : env.envSize ≤ buffer.length)
    (hsize : 8 ≤ env.envSize) (hbound : env.envSize ≤ ptrdiffMax) (hfits : Fits env.envSize xs) :
    Returns (ubootEnvWrite env buffer) w fun r _ => r.1 = 0 :=
  (returns_ubootEnvWrite h hbuffer hsize hbound).mono
    fun _ _ ⟨_, _, _, _, _, hwritten, _⟩ => (hwritten hfits).1

end LittleLoader
