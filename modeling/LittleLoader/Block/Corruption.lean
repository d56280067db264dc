import LittleLoader.Block.Read

/-!
# Block/Corruption — a burst of errors in the payload is detected

The bits of the payload are numbered as CRC-32 takes them: byte after byte, the lowest bit of each
first.  Two payloads that differ, and only in a window of 32 bits, have different checksums
(`crc32_ne_of_burst`), so the reader rejects the damaged block before it makes a pair
(`ubootEnvRead_detects_burst`).
-/

namespace LittleLoader

open ShiftRegister

variable {w : World} {env : UbootEnv} {xs : List Entry} {block block' rest p q front back : List Byte}
  {k width : ℕ}

/-! ## Windows of bits -/

/-- `p` and `q` agree on every bit outside the `width` bits from `k` on. -/
def AgreeOutside (k width : ℕ) (p q : List Byte) : Prop :=
  ∀ i, i < k ∨ k + width ≤ i → (messageBits p)[i]? = (messageBits q)[i]?

theorem AgreeOutside.mono {width' : ℕ} (h : AgreeOutside k width p q) (hw : width ≤ width') :
    AgreeOutside k width' p q := fun i hi => h i (by omega)

theorem length_messageBits (p : List Byte) : (messageBits p).length = 8 * p.length := by
  induction p with
  | nil => rfl
  | cons b p ih =>
    rw [messageBits, List.flatMap_cons, List.length_append, ← messageBits, ih, length_bits,
      List.length_cons]
    omega

theorem bits_injective {n : ℕ} : Function.Injective (bits (n := n)) := by
  intro x y h
  apply BitVec.eq_of_getLsbD_eq
  intro i hi
  have := congrArg (·[i]?) h
  simpa [bits, hi] using this

theorem messageBits_injective : Function.Injective messageBits := by
  intro p
  induction p with
  | nil =>
    intro q h
    have := congrArg List.length h
    rw [length_messageBits, length_messageBits] at this
    simp only [List.length_nil] at this
    exact (List.eq_nil_of_length_eq_zero (by omega)).symm
  | cons b p ih =>
    intro q h
    match q with
    | [] =>
      have := congrArg List.length h
      rw [length_messageBits, length_messageBits] at this
      simp at this
    | c :: q =>
      simp only [messageBits, List.flatMap_cons] at h
      obtain ⟨hb, hp⟩ := List.append_inj h (by simp)
      rw [bits_injective hb, ih hp]

/-- A change of a few bytes is a change in a window of bits. -/
theorem agreeOutside_of_bytes (front p q back : List Byte) (h : p.length = q.length) :
    AgreeOutside (8 * front.length) (8 * p.length) (front ++ p ++ back) (front ++ q ++ back) := by
  intro i hi
  have happend : ∀ r : List Byte, messageBits (front ++ r ++ back)
      = messageBits front ++ (messageBits r ++ messageBits back) := by
    intro r
    simp [messageBits]
  rw [happend, happend]
  rcases hi with hi | hi
  · rw [List.getElem?_append_left (by rw [length_messageBits]; omega),
      List.getElem?_append_left (by rw [length_messageBits]; omega)]
  · rw [List.getElem?_append_right (by simp only [length_messageBits]; omega),
      List.getElem?_append_right (by simp only [length_messageBits]; omega),
      List.getElem?_append_right (by simp only [length_messageBits]; omega),
      List.getElem?_append_right (by simp only [length_messageBits]; omega),
      length_messageBits p, length_messageBits q, h]

/-! ## Detection -/

/-- The top bit of the feedback is set: the register loses nothing. -/
theorem crcPoly_top : crcPoly.getLsbD (32 - 1) = true := by decide

/-- **CRC-32 detects every burst of 32 bits.** -/
theorem crc32_ne_of_burst (hlen : p.length = q.length) (hne : p ≠ q)
    (hburst : AgreeOutside k 32 p q) : crc32 p ≠ crc32 q := by
  intro h
  apply hne
  apply messageBits_injective
  have hbits : (messageBits p).length = (messageBits q).length := by
    rw [length_messageBits, length_messageBits, hlen]
  have hsplit : ∀ l : List Bool, l = l.take k ++ (l.drop k).take 32 ++ l.drop (k + 32) := by
    intro l
    rw [← List.drop_drop, List.append_assoc, List.take_append_drop, List.take_append_drop]
  have hfront : (messageBits p).take k = (messageBits q).take k := by
    apply List.ext_getElem?
    intro i
    simp only [List.getElem?_take]
    split
    · exact hburst i (.inl ‹_›)
    · rfl
  have hback : (messageBits p).drop (k + 32) = (messageBits q).drop (k + 32) := by
    apply List.ext_getElem?
    intro i
    simp only [List.getElem?_drop]
    exact hburst _ (.inr (by omega))
  have hregister := (BitVec.not_inj).mp h
  rw [hsplit (messageBits p), hsplit (messageBits q), hfront, hback] at hregister
  have hwindow := feedBits_burst crcPoly_top (by simp) (by simp [hbits]) hregister
  rw [hsplit (messageBits p), hsplit (messageBits q), hfront, hback, hwindow]

/-- The damaged block is not sealed. -/
theorem Sealed.not_of_burst (hs : Sealed block) (hlen : block'.length = block.length)
    (hcrc : block'.take 4 = block.take 4) (hne : block' ≠ block) (hwidth : width ≤ 32)
    (hburst : AgreeOutside k width (block'.drop 4) (block.drop 4)) : ¬ Sealed block' := by
  intro hs'
  have hpayload : block'.drop 4 ≠ block.drop 4 := by
    intro heq
    apply hne
    rw [← List.take_append_drop 4 block', hcrc, heq, List.take_append_drop]
  have hfield := hs'.symm.trans (hcrc.trans hs)
  exact crc32_ne_of_burst (by simp [hlen]) hpayload (hburst.mono hwidth)
    (crcField_injective hfield)

/-- **Corruption is detected.**  A block that differs from an accepted one, and only in a window of
at most 32 bits of the payload, is rejected, and leaves no variable. -/
theorem ubootEnvRead_detects_burst (h : Holds w env xs) (hblock : HasBlock env block)
    (hacc : Returns (ubootEnvRead env block) w fun r _ => r.1 = 0)
    (hlen : block'.length = block.length) (hcrc : block'.take 4 = block.take 4)
    (hne : block' ≠ block) (hwidth : width ≤ 32)
    (hburst : AgreeOutside k width (block'.drop 4) (block.drop 4)) :
    Returns (ubootEnvRead env (block' ++ rest)) w fun r _ =>
      r.1 = -1 ∧ r.2 = { env with vars := none } := by
  rw [← List.append_nil block, ← isBlock_iff_returns h hblock] at hacc
  obtain ⟨es, hes⟩ := hacc
  refine (returns_ubootEnvRead_of_not_sealed h ⟨hlen.trans hblock.length, hblock.size,
    hblock.bound⟩ (hes.isSealed.not_of_burst hlen hcrc hne hwidth hburst)).mono ?_
  rintro r w' ⟨rfl, -⟩
  exact ⟨rfl, rfl⟩

/-- `a=1` damaged to `a=2`. -/
theorem ubootEnvRead_detects_burst_small :
    Returns (ubootEnvRead (ubootEnvInit 9)
        (crcField (crc32 (lit "a=1" ++ [0#8])) ++ (lit "a=2" ++ [0#8]) ++ []))
      (World.powerOn 0 (fun _ => 0) []) fun r _ => r.1 = -1 ∧ r.2 = ⟨9, none⟩ := by
  have hblock : HasBlock (ubootEnvInit 9) (sealBlock (lit "a=1" ++ [0#8])) :=
    ⟨rfl, by decide, le_ptrdiffMax (by decide)⟩
  have hpayload : IsPayload (lit "a=1" ++ [0#8]) [(CStr.lit "a", CStr.lit "1")] :=
    ⟨by decide, [0#8], rfl, .inr ⟨[], rfl⟩⟩
  have hempty := Holds.powerOn 9 0 (fun _ => 0) []
  have hacc := (isBlock_iff_returns hempty hblock []).mp ⟨_, .sealBlock hpayload⟩
  rw [List.append_nil] at hacc
  exact ubootEnvRead_detects_burst hempty hblock hacc rfl rfl
    (fun h => absurd (List.append_cancel_left h) (by decide)) (by decide)
    (agreeOutside_of_bytes [chr 'a', chr '='] [chr '2'] [chr '1'] [0#8, 0#8] rfl)

/-- In particular any change of up to four bytes of the payload is. -/
theorem ubootEnvRead_detects_bytes (h : Holds w env xs) (hblock : HasBlock env (front ++ p ++ back))
    (hes : ∃ es, IsBlock (front ++ p ++ back) es) (hfront : 4 ≤ front.length)
    (hlen : q.length = p.length) (hne : q ≠ p) (hp : p.length ≤ 4) :
    Returns (ubootEnvRead env (front ++ q ++ back ++ rest)) w fun r _ =>
      r.1 = -1 ∧ r.2 = { env with vars := none } := by
  obtain ⟨es, hes⟩ := hes
  have hdrop : ∀ r : List Byte, (front ++ r ++ back).drop 4 = front.drop 4 ++ r ++ back := by
    intro r
    rw [List.append_assoc, List.drop_append_of_le_length hfront, List.append_assoc]
  have hburst : AgreeOutside (8 * (front.drop 4).length) (8 * q.length)
      ((front ++ q ++ back).drop 4) ((front ++ p ++ back).drop 4) := by
    rw [hdrop, hdrop]
    exact agreeOutside_of_bytes _ _ _ _ hlen
  have hs := hes.isSealed.not_of_burst (by simp [hlen])
    (by simp only [List.append_assoc, List.take_append_of_le_length hfront])
    (by simpa using hne) (by omega) hburst
  refine (returns_ubootEnvRead_of_not_sealed h ⟨Eq.trans (by simp [hlen]) hblock.length,
    hblock.size, hblock.bound⟩ hs).mono ?_
  rintro r w' ⟨rfl, -⟩
  exact ⟨rfl, rfl⟩

end LittleLoader
