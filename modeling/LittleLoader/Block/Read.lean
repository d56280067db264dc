import LittleLoader.Block.Grammar

/-!
# Block/Read — `uboot_env_read` accepts the format

The three loops of `uboot_env_read` against the grammar: a round of the outer loop reads one entry
and puts it in front of the list, so the list holds the entries of the block in reverse order
(`returns_ubootEnvRead`).  The bytes behind the block, if the buffer goes on, make no difference.
-/

namespace LittleLoader

variable {w w' : World} {env : UbootEnv} {xs es : List Entry} {e : Entry}
  {stop rest block l p q v : List Byte} {c : Byte} {fuel k : ℕ}

/-! ## The scans -/

theorem scanName_append (hl : ∀ b ∈ l, ¬ EndsName b) :
    scanName stop (l ++ chr '=' :: (p ++ stop)) = some (some (chr '=' :: (p ++ stop))) := by
  induction l with
  | nil =>
    have hlen : (chr '=' :: (p ++ stop)).length ≠ stop.length := by simp; omega
    rw [List.nil_append, scanName, if_neg hlen, if_neg chr_eq_ne_nul, if_pos rfl]
  | cons b l ih =>
    obtain ⟨hb, hl⟩ := List.forall_mem_cons.mp hl
    simp only [EndsName, not_or] at hb
    have hlen : (b :: (l ++ chr '=' :: (p ++ stop))).length ≠ stop.length := by simp; omega
    rw [List.cons_append, scanName, if_neg hlen, if_neg hb.1, if_neg hb.2, ih hl]

theorem scanName_of_no_eq (hl : ∀ b ∈ l, ¬ EndsName b) (hp : p = [] ∨ ∃ r, p = 0#8 :: r) :
    scanName stop (l ++ (p ++ stop)) = some none := by
  induction l with
  | nil =>
    obtain rfl | ⟨r, rfl⟩ := hp
    · cases stop <;> simp [scanName]
    · rw [List.nil_append, List.cons_append, scanName]
      split <;> simp
  | cons b l ih =>
    obtain ⟨hb, hl⟩ := List.forall_mem_cons.mp hl
    simp only [EndsName, not_or] at hb
    have hlen : (b :: (l ++ (p ++ stop))).length ≠ stop.length := by simp; omega
    rw [List.cons_append, scanName, if_neg hlen, if_neg hb.1, if_neg hb.2, ih hl]

theorem scanValue_append (hv : 0#8 ∉ v) :
    scanValue stop (v ++ 0#8 :: (p ++ stop)) = some (some (0#8 :: (p ++ stop))) := by
  induction v with
  | nil =>
    have hlen : (0#8 :: (p ++ stop)).length ≠ stop.length := by simp; omega
    rw [List.nil_append, scanValue, if_neg hlen, if_pos rfl]
  | cons b v ih =>
    simp only [List.mem_cons, not_or] at hv
    have hlen : (b :: (v ++ 0#8 :: (p ++ stop))).length ≠ stop.length := by simp; omega
    rw [List.cons_append, scanValue, if_neg hlen, if_neg (Ne.symm hv.1), ih hv.2]

theorem scanValue_of_no_nul (hv : 0#8 ∉ v) : scanValue stop (v ++ stop) = some none := by
  induction v with
  | nil => cases stop <;> simp [scanValue]
  | cons b v ih =>
    simp only [List.mem_cons, not_or] at hv
    have hlen : (b :: (v ++ stop)).length ≠ stop.length := by simp; omega
    rw [List.cons_append, scanValue, if_neg hlen, if_neg (Ne.symm hv.1), ih hv.2]

/-! ## The copies -/

/-- The copy of a name is bounded by the distance to its `=`. -/
theorem returns_strndup_name {s : CStr} {Q : List Byte → World → Prop}
    (h : s.bytes.length ≤ ptrdiffMax) :
    Returns (strndup (s.bytes ++ p) (sizeT (ptrDiff p (s.bytes ++ p)))) w Q ↔
      Q s.obj (w.alloc (s.bytes.length + 1)) := by
  have hlen : ptrDiff p (s.bytes ++ p) = (s.bytes.length : ℤ) := by
    simp only [ptrDiff, List.length_append]
    omega
  rw [hlen, sizeT_natCast h, returns_strndup (strnlen_append s.nul_notMem) (by simp),
    List.take_left, CStr.obj]

/-- The copy of a value has a bound that is too large, and ends at its NUL. -/
theorem returns_strndup_value {s : CStr} {Q : List Byte → World → Prop}
    (h : s.bytes.length ≤ ptrdiffMax) :
    Returns (strndup (s.bytes ++ 0#8 :: p) (sizeT (ptrDiff (s.bytes ++ 0#8 :: p) (0#8 :: p)))) w Q ↔
      Q s.obj (w.alloc (s.bytes.length + 1)) := by
  have hlen : ptrDiff (s.bytes ++ 0#8 :: p) (0#8 :: p) = -(s.bytes.length : ℤ) := by
    simp only [ptrDiff, List.length_append]
    omega
  rw [hlen, returns_strndup (strnlen_append_nul s.nul_notMem (le_sizeT_neg h)) (by simp),
    List.take_left, CStr.obj]

/-- **A round that reads an entry** copies the name and the value, and stores the pair. -/
theorem ubootEnvReadLoop_entry (he : ValidName e.1) :
    ubootEnvReadLoop stop (fuel + 1) (e.encode ++ (q ++ stop)) env = (do
      let pair ← malloc sizeofPair
      let pairName ← strndup (e.1.bytes ++ chr '=' :: (e.2.bytes ++ 0#8 :: (q ++ stop)))
        (sizeT (ptrDiff (chr '=' :: (e.2.bytes ++ 0#8 :: (q ++ stop)))
          (e.1.bytes ++ chr '=' :: (e.2.bytes ++ 0#8 :: (q ++ stop)))))
      let pairValue ← strndup (e.2.bytes ++ 0#8 :: (q ++ stop))
        (sizeT (ptrDiff (e.2.bytes ++ 0#8 :: (q ++ stop)) (0#8 :: (q ++ stop))))
      storePair pair ⟨pairName, pairValue, env.vars⟩
      ubootEnvReadLoop stop fuel (q ++ stop) { env with vars := some pair }) := by
  obtain ⟨c, l, hname, hc, hl, hencode⟩ := Entry.exists_encode he
  have hbytes : e.encode ++ (q ++ stop) =
      c :: (l ++ chr '=' :: ((e.2.bytes ++ 0#8 :: q) ++ stop)) := by simp [hencode]
  have hlen : (c :: (l ++ chr '=' :: ((e.2.bytes ++ 0#8 :: q) ++ stop))).length ≠ stop.length := by
    simp
    omega
  have hvalue : (e.2.bytes ++ 0#8 :: q) ++ stop = e.2.bytes ++ 0#8 :: (q ++ stop) := by simp
  rw [hbytes, ubootEnvReadLoop, if_neg hlen, hname]
  simp only [deref, List.head?_cons, access, pure_bind, if_neg hc, List.drop_one, List.tail_cons,
    scanName_append hl]
  rw [hvalue]
  simp only [scanValue_append e.2.nul_notMem, pure_bind, List.tail_cons, List.cons_append]

/-- **A round stores its entry** in front of the list. -/
theorem returns_storeEntry {α : Type} {f : Addr → M α} {Q : α → World → Prop} (h : Holds w env xs)
    (hname : e.1.bytes.length ≤ ptrdiffMax) (hvalue : e.2.bytes.length ≤ ptrdiffMax)
    (hf : ∀ w', SameDevice w w' → Holds w' { env with vars := some w.heap } (e :: xs) →
      Returns (f w.heap) w' Q) :
    Returns (do
        let pair ← malloc sizeofPair
        let pairName ← strndup (e.1.bytes ++ p) (sizeT (ptrDiff p (e.1.bytes ++ p)))
        let pairValue ← strndup (e.2.bytes ++ 0#8 :: q)
          (sizeT (ptrDiff (e.2.bytes ++ 0#8 :: q) (0#8 :: q)))
        storePair pair ⟨pairName, pairValue, env.vars⟩
        f pair) w Q := by
  simp only [returns_bind, returns_malloc, returns_strndup_name hname,
    returns_strndup_value hvalue, returns_storePair]
  have hq : Quiet (w.alloc sizeofPair) (((w.alloc sizeofPair).alloc (e.1.bytes.length + 1)).alloc
      (e.2.bytes.length + 1)) := (quiet_alloc _ _).trans (quiet_alloc _ _)
  exact hf _ (((quiet_alloc _ _).trans hq).toSameDevice.trans (sameDevice_store _ _ _))
    (h.push hq)

/-! ## The loop -/

/-- **What the reader makes of a payload** in front of the entries `xs`: all its entries and `0`, or
those before a malformed one and `-1`. -/
structure ReadResult (payload : List Byte) (xs : List Entry) (size : ℕ) (w : World)
    (r : ℤ × UbootEnv) (w' : World) : Prop where
  envSize : r.2.envSize = size
  device : SameDevice w w'
  result : (r.1 = 0 ∧ ∃ es, IsPayload payload es ∧ Holds w' r.2 (es.reverse ++ xs)) ∨
    (r.1 = -1 ∧ (∀ es, ¬ IsPayload payload es) ∧ ∃ pre bad, payload = encode pre ++ bad ∧
      (∀ e ∈ pre, ValidName e.1) ∧ Holds w' r.2 (pre.reverse ++ xs))

namespace ReadResult

theorem stopped (h : Holds w env xs) (hp : IsPayload p []) :
    ReadResult p xs env.envSize w (0, env) w :=
  ⟨rfl, .refl w, .inl ⟨rfl, [], hp, h⟩⟩

theorem malformed (h : Holds w env xs) (hq : Quiet w w') (hp : ∀ es, ¬ IsPayload p es) :
    ReadResult p xs env.envSize w (-1, env) w' :=
  ⟨rfl, hq.toSameDevice, .inr ⟨rfl, hp, [], p, rfl, by simp, h.quiet hq⟩⟩

/-- One entry more. -/
theorem cons {size : ℕ} {w₁ : World} {r : ℤ × UbootEnv} (h : ReadResult p (e :: xs) size w₁ r w')
    (he : ValidName e.1) (hdev : SameDevice w w₁) :
    ReadResult (e.encode ++ p) xs size w r w' := by
  refine ⟨h.envSize, hdev.trans h.device, ?_⟩
  rcases h.result with ⟨hr, es, hes, hw'⟩ | ⟨hr, hnone, pre, bad, rfl, hpre, hw'⟩
  · exact .inl ⟨hr, e :: es, (IsPayload.entry_iff he).mpr ⟨es, rfl, hes⟩, by simpa using hw'⟩
  · refine .inr ⟨hr, fun es hes => ?_, e :: pre, bad, by simp,
      List.forall_mem_cons.mpr ⟨he, hpre⟩, by simpa using hw'⟩
    obtain ⟨fs, -, hfs⟩ := (IsPayload.entry_iff he).mp hes
    exact hnone fs hfs

end ReadResult

/-- **The outer loop** reads the payload `p` that is left. -/
theorem returns_ubootEnvReadLoop (h : Holds w env xs) (hfuel : p.length < fuel)
    (hp : p.length ≤ ptrdiffMax) :
    Returns (ubootEnvReadLoop stop fuel (p ++ stop) env) w (ReadResult p xs env.envSize w) := by
  induction fuel generalizing w env xs p with
  | zero => omega
  | succ fuel ih =>
    rcases p with _ | ⟨c, p⟩
    · simpa [ubootEnvReadLoop] using ReadResult.stopped h (by simp)
    · have hlen : ((c :: p) ++ stop).length ≠ stop.length := by simp; omega
      rw [ubootEnvReadLoop, if_neg hlen, List.cons_append, returns_bind, returns_deref_cons]
      by_cases hc : c = 0#8
      · subst hc
        simpa using ReadResult.stopped h (by simp)
      obtain ⟨l, p', rfl, hl, hends⟩ := Cut.exists_cut EndsName p
      rw [if_neg hc, List.drop_one, List.tail_cons, List.append_assoc, returns_bind]
      rcases p' with _ | ⟨b, p'⟩
      · rw [returns_access (scanName_of_no_eq hl (.inl rfl)), returns_bind, returns_errReturn,
          returns_pure]
        exact .malformed h (quiet_say _ _) fun es => not_isPayload_of_name hc hl (.inl rfl)
      · rcases hends b rfl with rfl | rfl
        · rw [returns_access (scanName_of_no_eq hl (.inr ⟨p', rfl⟩)), returns_bind,
            returns_errReturn, returns_pure]
          exact .malformed h (quiet_say _ _) fun es =>
            not_isPayload_of_name hc hl (.inr ⟨p', rfl⟩)
        · obtain ⟨v, p', rfl, hv, hends⟩ := Cut.exists_cut (· = 0#8) p'
          have hnul : 0#8 ∉ v := fun hmem => hv _ hmem rfl
          rw [List.cons_append, returns_access (scanName_append hl)]
          simp only [List.drop_one, List.tail_cons, List.append_assoc, returns_bind]
          rcases p' with _ | ⟨b, q⟩
          · rw [List.nil_append, returns_access (scanValue_of_no_nul hnul), returns_bind,
              returns_errReturn, returns_pure]
            exact .malformed h (quiet_say _ _) fun es => by
              simpa using not_isPayload_of_value hc hl hnul
          · obtain rfl := hends b rfl
            have hname : 0#8 ∉ c :: l := by
              simpa [Ne.symm hc] using fun hmem => hl _ hmem (.inl rfl)
            let e : Entry := (⟨c :: l, hname⟩, ⟨v, hnul⟩)
            have he : ValidName e.1 := ⟨by simp [e], fun hmem => hl _ hmem (.inr rfl)⟩
            have hencode : c :: (l ++ chr '=' :: (v ++ 0#8 :: q)) = e.encode ++ q := by
              simp [e, Entry.encode]
            have hbound : e.1.bytes.length + e.2.bytes.length + q.length + 2 ≤ ptrdiffMax := by
              rw [hencode, List.length_append, Entry.length_encode] at hp
              omega
            have hfuel' : q.length < fuel := by
              rw [hencode, List.length_append, Entry.length_encode] at hfuel
              omega
            rw [List.cons_append, returns_access (scanValue_append hnul), hencode]
            refine returns_storeEntry (e := e) (p := chr '=' :: (v ++ 0#8 :: (q ++ stop)))
              (q := q ++ stop) h (by omega) (by omega) fun w₁ hdev hw₁ => ?_
            exact (ih hw₁ hfuel' (by omega)).mono fun r w' hr => hr.cons he hdev

/-! ## `uboot_env_read` -/

/-- **A block of the size `env` has**: room for the CRC field at least, and no more than
`PTRDIFF_MAX` bytes, as any object of the machine. -/
structure HasBlock (env : UbootEnv) (block : List Byte) : Prop where
  length : block.length = env.envSize
  size : 4 ≤ env.envSize
  bound : env.envSize ≤ ptrdiffMax

/-- The two numbers that `uboot_env_read` compares: they are equal for a sealed block. -/
theorem HasBlock.crcs (hblock : HasBlock env block) (rest : List Byte) :
    ∃ x y, expectedCrc32 (block ++ rest) = some x ∧
      crc32buf ((block ++ rest).drop 4) (sizeT (env.envSize - 4)) = some y ∧
      (x = y ↔ Sealed block) := by
  obtain ⟨hlen, hsize, hbound⟩ := hblock
  obtain ⟨x, hx, htake⟩ := expectedCrc32_eq (block ++ rest) (by simp; omega)
  have hcount : sizeT (env.envSize - 4) = block.length - 4 := by
    rw [← Nat.cast_ofNat, sizeT_sub hsize hbound, hlen]
  have hdrop : (block ++ rest).drop 4 = block.drop 4 ++ rest :=
    List.drop_append_of_le_length (by omega)
  refine ⟨x, crc32 (block.drop 4), hx, ?_, ?_⟩
  · rw [hcount, hdrop, crc32buf_eq (by simp), List.take_left' (by simp)]
  · rw [List.take_append_of_le_length (by omega)] at htake
    rw [Sealed, htake]
    exact crcField_injective.eq_iff.symm

/-- A block that is not sealed is rejected before any pair is made. -/
theorem returns_ubootEnvRead_of_not_sealed (h : Holds w env xs) (hblock : HasBlock env block)
    (hs : ¬ Sealed block) :
    Returns (ubootEnvRead env (block ++ rest)) w fun r w' =>
      r = (-1, { env with vars := none }) ∧ Quiet w w' := by
  obtain ⟨x, y, hx, hy, hxy⟩ := hblock.crcs rest
  rw [ubootEnvRead, returns_bind]
  refine (returns_ubootEnvFree h).mono ?_
  rintro r w' ⟨rfl, rfl⟩
  rw [returns_bind, returns_access hx, returns_bind, returns_access hy,
    if_pos (fun heq => hs (hxy.mp heq)), returns_bind, returns_errReturn, returns_pure]
  exact ⟨rfl, quiet_say _ _⟩

/-- A sealed block is left to the outer loop. -/
theorem returns_ubootEnvRead_loop {Q : ℤ × UbootEnv → World → Prop} (h : Holds w env xs)
    (hblock : HasBlock env block) (hs : Sealed block)
    (hloop : Returns (ubootEnvReadLoop rest ((block.drop 4 ++ rest).length + 1)
      (block.drop 4 ++ rest) { env with vars := none }) w Q) :
    Returns (ubootEnvRead env (block ++ rest)) w Q := by
  obtain ⟨x, y, hx, hy, hxy⟩ := hblock.crcs rest
  rw [ubootEnvRead, returns_bind]
  refine (returns_ubootEnvFree h).mono ?_
  rintro r w' ⟨rfl, rfl⟩
  rw [returns_bind, returns_access hx, returns_bind, returns_access hy,
    if_neg (fun hne => hne (hxy.mpr hs)), List.drop_left' hblock.length,
    List.drop_append_of_le_length hs.length_le]
  exact hloop

/-- A payload is a small object, as its block. -/
theorem HasBlock.payload_le (hblock : HasBlock env block) : (block.drop 4).length ≤ ptrdiffMax := by
  have hlen := hblock.length
  have hbound := hblock.bound
  rw [List.length_drop]
  omega

/-- The payload of a sealed block is read to its end or to the first malformed entry. -/
theorem returns_ubootEnvRead_of_sealed (h : Holds w env xs) (hblock : HasBlock env block)
    (hs : Sealed block) :
    Returns (ubootEnvRead env (block ++ rest)) w (ReadResult (block.drop 4) [] env.envSize w) := by
  have hnil : Holds w { env with vars := none } [] := .nil rfl h.fresh
  refine returns_ubootEnvRead_loop h hblock hs
    (returns_ubootEnvReadLoop hnil (Nat.lt_succ_of_le ?_) hblock.payload_le)
  rw [List.length_append]
  omega

/-- **`uboot_env_read` accepts the blocks of the format**, and leaves their entries in reverse
order. -/
theorem returns_ubootEnvRead (h : Holds w env xs) (hblock : HasBlock env block)
    (hes : IsBlock block es) (rest : List Byte) :
    Returns (ubootEnvRead env (block ++ rest)) w fun r w' =>
      r.1 = 0 ∧ r.2.envSize = env.envSize ∧ SameDevice w w' ∧ Holds w' r.2 es.reverse := by
  refine (returns_ubootEnvRead_of_sealed h hblock hes.isSealed).mono fun r w' hr => ?_
  rcases hr.result with ⟨hrc, fs, hfs, hw'⟩ | ⟨-, hnone, -⟩
  · obtain rfl := hes.payload.unique hfs
    exact ⟨hrc, hr.envSize, hr.device, by simpa using hw'⟩
  · exact absurd hes.payload (hnone es)

/-- **…and no others.** -/
theorem returns_ubootEnvRead_of_not_isBlock (h : Holds w env xs) (hblock : HasBlock env block)
    (hnone : ∀ es, ¬ IsBlock block es) :
    Returns (ubootEnvRead env (block ++ rest)) w fun r w' =>
      r.1 = -1 ∧ r.2.envSize = env.envSize ∧ SameDevice w w' ∧ ∃ ys, Holds w' r.2 ys := by
  by_cases hs : Sealed block
  · refine (returns_ubootEnvRead_of_sealed h hblock hs).mono fun r w' hr => ?_
    rcases hr.result with ⟨-, es, hes, -⟩ | ⟨hrc, -, pre, -, -, -, hw'⟩
    · exact absurd ⟨hs, hes⟩ (hnone es)
    · exact ⟨hrc, hr.envSize, hr.device, _, hw'⟩
  · refine (returns_ubootEnvRead_of_not_sealed h hblock hs).mono ?_
    rintro r w' ⟨rfl, hq⟩
    exact ⟨rfl, rfl, hq.toSameDevice, [], (Holds.nil rfl h.fresh).quiet hq⟩

/-- The blocks of the format are those the reader accepts. -/
theorem isBlock_iff_returns (h : Holds w env xs) (hblock : HasBlock env block)
    (rest : List Byte) :
    (∃ es, IsBlock block es) ↔ Returns (ubootEnvRead env (block ++ rest)) w fun r _ => r.1 = 0 := by
  constructor
  · rintro ⟨es, hes⟩
    exact (returns_ubootEnvRead h hblock hes rest).mono fun r w' hr => hr.1
  · intro hacc
    by_contra hnone
    obtain ⟨r, w', -, h₀, h₁, -⟩ := Returns.iff_run.mp
      (hacc.and (returns_ubootEnvRead_of_not_isBlock h hblock (not_exists.mp hnone)))
    omega

/-- **The reader accepts exactly its grammar and stays inside the block.**  It returns whatever
follows the block, also if nothing does and a byte beyond it would be outside the buffer.  With the
right CRC field it returns `0` exactly on the payloads of the format, and then the list holds the
entries of the payload in reverse order; with any other CRC field it returns `-1` and no pairs. -/
theorem ubootEnvRead_accepts_iff (h : Holds w env xs) (hblock : HasBlock env block) :
    Returns (ubootEnvRead env (block ++ rest)) w fun r w' =>
      (Sealed block → (r.1 = 0 ↔ ∃ es, IsPayload (block.drop 4) es) ∧ (r.1 = 0 ∨ r.1 = -1) ∧
        ∀ es, IsPayload (block.drop 4) es → Holds w' r.2 es.reverse) ∧
      (¬ Sealed block → r.1 = -1 ∧ r.2.vars = none) := by
  by_cases hs : Sealed block
  · refine (returns_ubootEnvRead_of_sealed h hblock hs).mono fun r w' hr =>
      ⟨fun _ => ?_, fun hns => absurd hs hns⟩
    rcases hr.result with ⟨hrc, es, hes, hw'⟩ | ⟨hrc, hnone, -⟩
    · refine ⟨⟨fun _ => ⟨es, hes⟩, fun _ => hrc⟩, .inl hrc, fun fs hfs => ?_⟩
      obtain rfl := hes.unique hfs
      simpa using hw'
    · refine ⟨⟨fun h₀ => by omega, fun ⟨es, hes⟩ => absurd hes (hnone es)⟩, .inr hrc,
        fun es hes => ?_⟩
      exact absurd hes (hnone es)
  · refine (returns_ubootEnvRead_of_not_sealed h hblock hs).mono ?_
    rintro r w' ⟨rfl, -⟩
    exact ⟨fun hs' => absurd hs' hs, fun _ => ⟨rfl, rfl⟩⟩

/-- The block of nine bytes that holds `a=1`, in a buffer that ends with it. -/
theorem ubootEnvRead_accepts_iff_small :
    Returns (ubootEnvRead (ubootEnvInit 9) (sealBlock (lit "a=1" ++ [0#8]) ++ []))
      (World.powerOn 0 (fun _ => 0) []) fun r w' =>
        r.1 = 0 ∧ Holds w' r.2 [(CStr.lit "a", CStr.lit "1")] := by
  have hpayload : IsPayload ((sealBlock (lit "a=1" ++ [0#8])).drop 4)
      [(CStr.lit "a", CStr.lit "1")] := by
    rw [drop_sealBlock]
    exact ⟨by decide, [0#8], rfl, .inr ⟨[], rfl⟩⟩
  refine (ubootEnvRead_accepts_iff (.powerOn _ _ _ _)
    ⟨rfl, by decide, le_ptrdiffMax (by decide)⟩).mono ?_
  intro r w' hr
  obtain ⟨hiff, -, hlist⟩ := hr.1 (sealed_sealBlock _)
  exact ⟨hiff.mpr ⟨_, hpayload⟩, hlist _ hpayload⟩

end LittleLoader
