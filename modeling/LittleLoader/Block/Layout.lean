import Mathlib.Data.List.Permutation
import LittleLoader.Block.Read
import LittleLoader.Block.Write

/-!
# Block/Layout — what `uboot_env_write` leaves in the buffer

    crc32,  name = value NUL … name = value NUL,  NUL,  0xff … 0xff

The entries are those of the list, in the order of `strcmp_` (`ubootEnvWrite_layout`), and the CRC
field is the one that `uboot_env_read` asks for (`crc32_interoperable`), whether `char` is a signed
type or not.
-/

namespace LittleLoader

variable {w : World} {env : UbootEnv} {xs : List Entry} {block buffer bytes buf : List Byte}
  {s t : CStr} {b : Byte} {x : BitVec 32} {n : ℕ} {signed : Bool}

/-! ## The order of the entries -/

/-- `strcmp_` does not put `t` before `s`. -/
def StrcmpLe (s t : CStr) : Prop := ∃ r, strcmp s.obj t.obj = some r ∧ r ≤ 0

theorem strcmpLe_iff : StrcmpLe s t ↔ s.key ≤ t.key := by
  obtain ⟨r, hr, -, hpos⟩ := strcmp_obj s t
  rw [← not_lt, ← hpos, not_lt]
  constructor
  · rintro ⟨r', hr', hle⟩
    obtain rfl : r = r' := Option.some.inj (hr.symm.trans hr')
    exact hle
  · exact fun hle => ⟨r, hr, hle⟩

/-- **The writer stores the layout, and nothing outside the block.**  Whether it succeeds or finds
no room, what follows the block is as it was; with nothing behind the block, a store there would be
a fault.  On success the payload holds every entry of the list once, in the order of `strcmp_`, then
a NUL, and then the fill. -/
theorem ubootEnvWrite_layout (h : Holds w env xs) (hsize : 8 ≤ env.envSize)
    (hbound : env.envSize ≤ ptrdiffMax) (hblock : block.length = env.envSize) (rest : List Byte) :
    Returns (ubootEnvWrite env (block ++ rest)) w fun r _ =>
      ∃ block', block'.length = env.envSize ∧ r.2.2 = block' ++ rest ∧ (r.1 = 0 ∨ r.1 = -1) ∧
        (r.1 = 0 → ∃ ys, ys.Perm xs ∧ ys.Pairwise (fun d e => StrcmpLe d.1 e.1) ∧
          block'.drop 4 = encode ys ++
            0#8 :: List.replicate (env.envSize - 5 - (encode ys).length) 0xff#8) := by
  have hbuffer : env.envSize ≤ (block ++ rest).length := by
    rw [List.length_append]
    omega
  refine (returns_ubootEnvWrite_stored h hbuffer hsize hbound).mono ?_
  rintro ⟨rc, env₁, buffer₁⟩ w₁ ⟨hstored, -, -, ys, hsorted, -, hfits, hfull⟩
  obtain ⟨block', hlen, rfl⟩ : ∃ block', _ ∧ buffer₁ = _ := hstored.exists_append hblock
  refine ⟨block', hlen, rfl, ?_⟩
  by_cases hroom : Fits env.envSize xs
  · obtain ⟨rfl, hwritten⟩ : rc = 0 ∧ _ := hfits hroom
    have hsortedFits := (fits_iff_of_perm hsorted.perm).mpr hroom
    have heq : block' = writtenBlock env.envSize ys :=
      (List.append_inj hwritten (hlen.trans (length_writtenBlock hsortedFits).symm)).1
    refine ⟨.inl rfl, fun _ => ⟨ys, hsorted.perm, ?_, ?_⟩⟩
    · exact hsorted.sorted.imp fun hle => strcmpLe_iff.mpr hle
    · rw [heq, writtenBlock, drop_sealBlock, writtenPayload]
  · obtain rfl : rc = -1 := hfull hroom
    exact ⟨.inr rfl, fun h₀ => by simp at h₀⟩

/-- Sixteen bytes with two more behind them: the two variables, in the order of their names, and the
fill. -/
theorem ubootEnvWrite_layout_small : ∃ w env, Holds w env twoEntries ∧
    Returns (ubootEnvWrite env (List.replicate 16 0#8 ++ [1#8, 2#8])) w fun r _ => r.1 = 0 ∧
      r.2.2.drop 4 = lit "a=1" ++ lit "b=2" ++ [0#8, 0xff#8, 0xff#8, 0xff#8] ++ [1#8, 2#8] := by
  obtain ⟨w, env, henv, h⟩ := exists_holds 16 twoEntries
  have hbuffer : env.envSize ≤ (List.replicate 16 0#8 ++ [1#8, 2#8]).length :=
    henv.trans_le (by decide)
  have hsize : 8 ≤ env.envSize := henv ▸ by decide
  have hbound : env.envSize ≤ ptrdiffMax := henv ▸ le_ptrdiffMax (by decide)
  refine ⟨w, env, h, ((returns_ubootEnvWrite_of_fits h hbuffer hsize hbound (henv ▸ by decide)).and
    (ubootEnvWrite_layout h hsize hbound (henv ▸ List.length_replicate) [1#8, 2#8])).mono ?_⟩
  rintro r w' ⟨hrc, block', hlen, hr, -, hlayout⟩
  obtain ⟨ys, hperm, hsorted, hbytes⟩ := hlayout hrc
  have hys : ys = twoEntries.reverse := by
    rcases List.perm_pair.mp hperm with rfl | rfl
    · have hle := strcmpLe_iff.mp (List.rel_of_pairwise_cons hsorted (List.mem_singleton_self _))
      exact absurd hle (by decide)
    · rfl
  rw [henv] at hlen
  rw [henv, hys] at hbytes
  refine ⟨hrc, ?_⟩
  rw [hr, List.drop_append_of_le_length (by omega), hbytes]
  rfl

/-! ## The checksum on the disk -/

/-- The bytes as `uint8_t` casts of the `char`s that hold them. -/
def charCasts (signed : Bool) (bytes : List Byte) : List Byte :=
  bytes.map fun b => BitVec.ofInt 8 (charValue signed b)

/-- **The cast restores the byte**, also one that is negative as a `char`. -/
@[simp] theorem charCasts_eq : charCasts signed bytes = bytes := by
  have hcast : ∀ b : Byte, BitVec.ofInt 8 (charValue signed b) = b := by
    intro b
    cases signed
    · simp [charValue]
    · simp [charValue]
  simp [charCasts, hcast]

/-- What is stored in the CRC field is what is read from it. -/
theorem expectedCrc32_storeCrc32 (h : 4 ≤ buf.length) :
    ∃ buf', storeCrc32 buf x = some buf' ∧ buf'.drop 4 = buf.drop 4 ∧
      expectedCrc32 buf' = some x := by
  refine ⟨_, storeCrc32_eq h, List.drop_left' rfl, ?_⟩
  obtain ⟨y, hy, hfield⟩ := expectedCrc32_eq (crcField x ++ buf.drop 4) (by simp)
  rw [List.take_left' (length_crcField x)] at hfield
  rw [hy, crcField_injective hfield]

/-- **The checksum on the disk is CRC-32.**  For bytes of any number and either kind of `char`,
`crc32buf` is the bitwise checksum, and a number stored in the CRC field is read back from it.  The
block that `uboot_env_write` leaves is sealed with the checksum of its payload, and
`uboot_env_read` accepts no block that is not. -/
theorem crc32_interoperable (h : Holds w env xs) (hsize : 8 ≤ env.envSize)
    (hblock : HasBlock env block) (hbuffer : env.envSize ≤ buffer.length) (rest : List Byte)
    (signed : Bool) :
    (∀ bytes behind, crc32buf (charCasts signed (bytes ++ behind)) bytes.length
        = some (crc32 bytes)) ∧
      (∀ (x : BitVec 32) (buf : List Byte), 4 ≤ buf.length → ∃ buf', storeCrc32 buf x = some buf' ∧
        buf'.drop 4 = buf.drop 4 ∧ expectedCrc32 (charCasts signed buf') = some x) ∧
      (Returns (ubootEnvWrite env buffer) w fun r _ => r.1 = 0 →
        (r.2.2.take env.envSize).take 4 = crcField (crc32 ((r.2.2.take env.envSize).drop 4))) ∧
      Returns (ubootEnvRead env (block ++ rest)) w fun r _ => r.1 = 0 ↔
        block.take 4 = crcField (crc32 (block.drop 4)) ∧ ∃ es, IsPayload (block.drop 4) es := by
  refine ⟨fun bytes behind => ?_, fun x buf hbuf => ?_, ?_, ?_⟩
  · rw [charCasts_eq, crc32buf_eq (by simp), List.take_left]
  · simpa only [charCasts_eq] using expectedCrc32_storeCrc32 hbuf
  · refine (returns_ubootEnvWrite h hbuffer hsize hblock.bound).mono ?_
    rintro ⟨rc, env₁, buffer₁⟩ w₁ ⟨-, -, ys, hsorted, -, hfits, hfull⟩ hrc
    have hroom : Fits env.envSize xs := by
      by_contra hroom
      have := hfull hroom
      omega
    obtain rfl : buffer₁ = _ := (hfits hroom).2
    rw [List.take_left' (length_writtenBlock ((fits_iff_of_perm hsorted.perm).mpr hroom))]
    exact sealed_sealBlock _
  · have hread : Returns (ubootEnvRead env (block ++ rest)) w _ := ubootEnvRead_accepts_iff h hblock
    refine hread.mono ?_
    rintro ⟨rc, env₁⟩ w₁ ⟨hsealed, hnot⟩
    by_cases hs : Sealed block
    · exact (hsealed hs).1.trans (and_iff_right hs).symm
    · refine ⟨fun h₀ => ?_, fun hr => absurd hr.1 hs⟩
      obtain rfl : rc = -1 := (hnot hs).1
      simp at h₀

/-- Two variables are written and sealed; a block of eight bytes `0x80` is accepted exactly if its
field is the checksum of the others. -/
theorem crc32_interoperable_small : ∃ w env, Holds w env twoEntries ∧
    crc32buf (charCasts true (List.replicate 4 0x80#8 ++ [])) 4
        = some (crc32 (List.replicate 4 0x80#8)) ∧
      (∃ buf', storeCrc32 (List.replicate 8 0#8) 0x80ff01fe = some buf' ∧
        expectedCrc32 (charCasts true buf') = some 0x80ff01fe) ∧
      (Returns (ubootEnvWrite env (List.replicate 16 0#8)) w fun r _ => r.1 = 0 ∧
        (r.2.2.take 16).take 4 = crcField (crc32 ((r.2.2.take 16).drop 4))) ∧
      Returns (ubootEnvRead env (List.replicate 16 0x80#8 ++ [])) w fun r _ => r.1 = 0 ↔
        List.replicate 4 0x80#8 = crcField (crc32 (List.replicate 12 0x80#8)) ∧
          ∃ es, IsPayload (List.replicate 12 0x80#8) es := by
  obtain ⟨w, env, henv, h⟩ := exists_holds 16 twoEntries
  have hbuffer : env.envSize ≤ (List.replicate 16 0#8).length := henv.trans_le (by decide)
  have hsize : 8 ≤ env.envSize := henv ▸ by decide
  have hbound : env.envSize ≤ ptrdiffMax := henv ▸ le_ptrdiffMax (by decide)
  have hblock : HasBlock env (List.replicate 16 0x80#8) :=
    ⟨henv ▸ List.length_replicate, henv ▸ by decide, hbound⟩
  obtain ⟨hloop, hstore, hwrite, hread⟩ :=
    crc32_interoperable h hsize hblock hbuffer [] true
  obtain ⟨buf', hbuf', -, hexpected⟩ := hstore 0x80ff01fe (List.replicate 8 0#8) (by decide)
  refine ⟨w, env, h, hloop _ [], ⟨buf', hbuf', hexpected⟩, ?_, hread⟩
  refine ((returns_ubootEnvWrite_of_fits h hbuffer hsize hbound (henv ▸ by decide)).and
    hwrite).mono fun r _ hr => ⟨hr.1, ?_⟩
  rw [← henv]
  exact hr.2 hr.1

end LittleLoader
