import LittleLoader.Block.RoundTrip

/-!
# Block/Canonical — one block for one set of variables

    the same entries, in any order  ──uboot_env_write──▸  the same bytes

Where no two entries share a name the sort has one result, so neither the order of the list nor the
bytes the buffer held before reach the block (`returns_ubootEnvWrite_of_perm`).  Reading gives the
entries of a block in reverse order, so writing it again reproduces it (`ubootEnvWrite_canonical`).
-/

namespace LittleLoader

variable {w w' : World} {env env' : UbootEnv} {xs xs' : List Entry} {buffer buffer' : List Byte}

/-- Lists of entries with distinct names are the same up to order if they have the same entries. -/
theorem perm_of_mem_iff (hnodup : (xs.map Prod.fst).Nodup) (hnodup' : (xs'.map Prod.fst).Nodup)
    (hmem : ∀ e, e ∈ xs ↔ e ∈ xs') : xs.Perm xs' :=
  (List.perm_ext_iff_of_nodup hnodup.of_map hnodup'.of_map).mpr hmem

/-- Distinct names have distinct keys. -/
theorem nodup_keys (hnodup : (xs.map Prod.fst).Nodup) :
    (xs.map fun e : Entry => e.1.key).Nodup := by
  have hmap := hnodup.map CStr.key_injective
  rwa [List.map_map] at hmap

/-- **Two lists of the same entries are written alike.** -/
theorem returns_ubootEnvWrite_of_perm (h : Holds w env xs) (h' : Holds w' env' xs')
    (henv : env'.envSize = env.envSize) (hperm : xs.Perm xs') (hnodup : (xs.map Prod.fst).Nodup)
    (hsize : 8 ≤ env.envSize) (hbound : env.envSize ≤ ptrdiffMax)
    (hbuffer : env.envSize ≤ buffer.length) (hbuffer' : env.envSize ≤ buffer'.length) :
    Returns (ubootEnvWrite env buffer) w fun r _ =>
      Returns (ubootEnvWrite env' buffer') w' fun r' _ =>
        r'.1 = r.1 ∧ (r.1 = 0 → r'.2.2.take env.envSize = r.2.2.take env.envSize) := by
  refine (returns_ubootEnvWrite h hbuffer hsize hbound).mono ?_
  rintro ⟨rc, env₁, buffer₁⟩ w₁ ⟨-, -, ys, hys, -, hfits, hfull⟩
  refine (returns_ubootEnvWrite h' (henv.trans_le hbuffer') (henv.ge.trans' hsize)
    (henv.trans_le hbound)).mono ?_
  rintro ⟨rc', env₁', buffer₁'⟩ w₁' ⟨-, -, ys', hys', -, hfits', hfull'⟩
  rw [henv, ← fits_iff_of_perm hperm] at hfits' hfull'
  by_cases hroom : Fits env.envSize xs
  · obtain rfl : ys = ys' := (hys.of_perm hperm (nodup_keys hnodup)).unique hys'
    have hlen := length_writtenBlock ((fits_iff_of_perm hys.perm).mpr hroom)
    obtain ⟨rfl, rfl⟩ : rc = 0 ∧ buffer₁ = _ := hfits hroom
    obtain ⟨rfl, rfl⟩ : rc' = 0 ∧ buffer₁' = _ := hfits' hroom
    exact ⟨rfl, fun _ => by rw [List.take_left' hlen, List.take_left' hlen]⟩
  · obtain rfl : rc = -1 := hfull hroom
    obtain rfl : rc' = -1 := hfull' hroom
    exact ⟨rfl, fun h₀ => by simp at h₀⟩

/-- **Written blocks are canonical.**  Two environments with the same pairs, of distinct names, get
the same return code and, on success, the same bytes, whatever the order of their lists, the memory
they live in and the contents of the buffers.  In particular a written block is reproduced byte for
byte by reading it, with any environment of that size, and writing it again. -/
theorem ubootEnvWrite_canonical (h : Holds w env xs) (h' : Holds w' env' xs')
    (henv : env'.envSize = env.envSize) (hmem : ∀ e, e ∈ xs ↔ e ∈ xs')
    (hnodup : (xs.map Prod.fst).Nodup) (hnodup' : (xs'.map Prod.fst).Nodup)
    (hsize : 8 ≤ env.envSize) (hbound : env.envSize ≤ ptrdiffMax)
    (hbuffer : env.envSize ≤ buffer.length) (hbuffer' : env.envSize ≤ buffer'.length) :
    (Returns (ubootEnvWrite env buffer) w fun r _ =>
      Returns (ubootEnvWrite env' buffer') w' fun r' _ =>
        r'.1 = r.1 ∧ (r.1 = 0 → r'.2.2.take env.envSize = r.2.2.take env.envSize)) ∧
      ((∀ e ∈ xs, ValidName e.1) → Returns (ubootEnvWrite env buffer) w fun r _ => r.1 = 0 →
        ∀ (env₂ : UbootEnv) (w₂ : World) (zs : List Entry) (buffer₂ : List Byte),
          Holds w₂ env₂ zs → env₂.envSize = env.envSize → env.envSize ≤ buffer₂.length →
            Returns (ubootEnvRead env₂ r.2.2) w₂ fun r₂ w₃ => r₂.1 = 0 ∧
              Returns (ubootEnvWrite r₂.2 buffer₂) w₃ fun r' _ =>
                r'.1 = 0 ∧ r'.2.2.take env.envSize = r.2.2.take env.envSize) := by
  refine ⟨returns_ubootEnvWrite_of_perm h h' henv (perm_of_mem_iff hnodup hnodup' hmem) hnodup hsize
    hbound hbuffer hbuffer', fun hvalid => ?_⟩
  refine (returns_ubootEnvWrite h hbuffer hsize hbound).mono ?_
  rintro ⟨rc, env₁, buffer₁⟩ w₁ ⟨henv₁, -, ys, hys, hw₁, hfits, hfull⟩ hrc env₂ w₂ zs buffer₂ hzs
    henv₂ hbuffer₂
  have hroom : Fits env.envSize xs := by
    by_contra hroom
    have := hfull hroom
    omega
  obtain rfl : buffer₁ = _ := (hfits hroom).2
  have hroom' := (fits_iff_of_perm hys.perm).mpr hroom
  have hvalid' : ∀ e ∈ ys, ValidName e.1 := fun e he => hvalid e (hys.perm.subset he)
  refine (returns_ubootEnvRead_writtenBlock hzs henv₂ hroom' hbound hvalid' _).mono ?_
  rintro ⟨rc₃, env₃⟩ w₃ ⟨hrc₃, henv₃, -, hw₃⟩
  dsimp only at hrc₃ henv₃ hw₃ ⊢
  refine ⟨hrc₃, ?_⟩
  rw [← henv₃] at hsize hbound hbuffer₂
  refine (returns_ubootEnvWrite hw₃ hbuffer₂ hsize hbound).mono ?_
  rintro ⟨rc₄, env₄, buffer₄⟩ w₄ ⟨-, -, ys', hys', -, hfits', -⟩
  rw [henv₃] at hfits'
  have hperm : xs.Perm ys.reverse := hys.perm.symm.trans ys.reverse_perm.symm
  obtain rfl : ys = ys' := (hys.of_perm hperm (nodup_keys hnodup)).unique hys'
  obtain ⟨rfl, rfl⟩ : rc₄ = 0 ∧ buffer₄ = _ := hfits' ((fits_iff_of_perm hperm).mp hroom)
  have hlen := length_writtenBlock hroom'
  exact ⟨rfl, by rw [List.take_left' hlen, List.take_left' hlen]⟩

/-- Two variables, in either order and over different buffers; and the block read and written
again. -/
theorem ubootEnvWrite_canonical_small : ∃ w env w' env',
    Holds w env twoEntries ∧ Holds w' env' twoEntries.reverse ∧
      Returns (ubootEnvWrite env (List.replicate 16 0#8)) w fun r _ => r.1 = 0 ∧
        (Returns (ubootEnvWrite env' (List.replicate 16 1#8)) w' fun r' _ =>
          r'.1 = 0 ∧ r'.2.2.take 16 = r.2.2.take 16) ∧
        Returns (ubootEnvRead (ubootEnvInit 16) r.2.2) (World.powerOn 0 (fun _ => 0) [])
          fun r₂ w₃ => r₂.1 = 0 ∧ Returns (ubootEnvWrite r₂.2 (List.replicate 16 2#8)) w₃
            fun r' _ => r'.1 = 0 ∧ r'.2.2.take 16 = r.2.2.take 16 := by
  obtain ⟨w, env, henv, h⟩ := exists_holds 16 twoEntries
  obtain ⟨w', env', henv', h'⟩ := exists_holds 16 twoEntries.reverse
  have hbuffer (c : Byte) : env.envSize ≤ (List.replicate 16 c).length :=
    henv.trans_le (List.length_replicate (a := c)).ge
  have hsize : 8 ≤ env.envSize := henv ▸ by decide
  have hbound : env.envSize ≤ ptrdiffMax := henv ▸ le_ptrdiffMax (by decide)
  obtain ⟨hsame, hagain⟩ := ubootEnvWrite_canonical h h' (henv'.trans henv.symm)
    (fun _ => List.mem_reverse.symm) (by decide) (by decide) hsize hbound (hbuffer 0#8) (hbuffer 1#8)
  refine ⟨w, env, w', env', h, h', ((returns_ubootEnvWrite_of_fits h (hbuffer 0#8) hsize hbound
    (henv ▸ by decide)).and (hsame.and (hagain (by decide)))).mono ?_⟩
  rintro r _ ⟨hrc, hsame, hagain⟩
  rw [henv] at hagain hsame
  refine ⟨hrc, hsame.mono fun r' _ hr' => ⟨hr'.1.trans hrc, hr'.2 hrc⟩, ?_⟩
  exact hagain hrc _ _ _ (List.replicate 16 2#8) (.powerOn 16 0 (fun _ => 0) []) rfl
    List.length_replicate.ge

end LittleLoader
