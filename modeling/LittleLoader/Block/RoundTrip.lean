import LittleLoader.Block.Read
import LittleLoader.Block.Write

/-!
# Block/RoundTrip — what is written and what is read back

The writer stores the entries in the order of their names, the reader leaves them in reverse order,
and `uboot_env_getenv` answers with the first entry of a name.  With one entry a name that loses
nothing (`ubootEnvRead_ubootEnvWrite`).  With several, the sort keeps their order and the reader
turns it round, so the answer after the round trip is the last entry instead of the first one
(`noUpdateLost_iff`).
-/

namespace LittleLoader

variable {w w' : World} {env env' : UbootEnv} {xs ys zs es us : List Entry}
  {block buffer rest : List Byte} {size : ℕ}

/-! ## Reading what was written -/

/-- **What was written is read back**, in reverse order. -/
theorem returns_ubootEnvRead_writtenBlock (h : Holds w env zs) (henv : env.envSize = size)
    (hfits : Fits size ys) (hbound : size ≤ ptrdiffMax) (hvalid : ∀ e ∈ ys, ValidName e.1)
    (rest : List Byte) :
    Returns (ubootEnvRead env (writtenBlock size ys ++ rest)) w fun r w' =>
      r.1 = 0 ∧ r.2.envSize = size ∧ SameDevice w w' ∧ Holds w' r.2 ys.reverse := by
  subst henv
  have hsize : 4 ≤ env.envSize := by
    unfold Fits at hfits
    omega
  exact returns_ubootEnvRead h ⟨length_writtenBlock hfits, hsize, hbound⟩
    (isBlock_writtenBlock hvalid) rest

/-- The entries after a round trip: the sorted ones in reverse order. -/
theorem lookup_reverse_of_stableSorted (h : StableSorted (fun e : Entry => e.1.key) xs ys)
    (n : CStr) : ys.reverse.lookup n = xs.reverse.lookup n :=
  lookup_reverse_eq_of_filter_eq (h.filter_name n)

/-- **Decode undoes encode.**  If the names are distinct and such that the reader finds them, a
successful write and a read, by any environment of that size in any memory, give the same pairs, and
every lookup answers as on the original environment. -/
theorem ubootEnvRead_ubootEnvWrite (h : Holds w env xs) (hsize : 8 ≤ env.envSize)
    (hbound : env.envSize ≤ ptrdiffMax) (hbuffer : env.envSize ≤ buffer.length)
    (hnodup : (xs.map Prod.fst).Nodup) (hvalid : ∀ e ∈ xs, ValidName e.1) :
    Returns (ubootEnvWrite env buffer) w fun r _ => r.1 = 0 →
      ∀ (env' : UbootEnv) (w' : World) (zs : List Entry), Holds w' env' zs →
        env'.envSize = env.envSize →
          Returns (ubootEnvRead env' r.2.2) w' fun r' w'' => r'.1 = 0 ∧
            (∃ ys, Holds w'' r'.2 ys ∧ ys.Perm xs) ∧ SameAnswers env w r'.2 w'' := by
  refine (returns_ubootEnvWrite h hbuffer hsize hbound).mono ?_
  rintro ⟨rc, env₁, buffer₁⟩ w₁ ⟨-, -, ys, hsorted, -, hfits, hfull⟩ hrc env' w' zs hzs henv'
  have hroom : Fits env.envSize xs := by
    by_contra hroom
    have := hfull hroom
    omega
  obtain rfl : buffer₁ = _ := (hfits hroom).2
  have hvalid' : ∀ e ∈ ys, ValidName e.1 := fun e he => hvalid e (hsorted.perm.subset he)
  refine (returns_ubootEnvRead_writtenBlock hzs henv' ((fits_iff_of_perm hsorted.perm).mpr hroom)
    hbound hvalid' _).mono ?_
  rintro r' w'' ⟨hrc', -, -, hys⟩
  refine ⟨hrc', ⟨_, hys, (List.reverse_perm _).trans hsorted.perm⟩,
    (h.sameAnswers_iff hys).mpr fun n => ?_⟩
  rw [lookup_reverse_of_stableSorted hsorted,
    lookup_reverse_of_multiplicity_le_one (multiplicity_le_one_of_nodup hnodup n)]

/-- Two variables, written to 16 bytes. -/
theorem ubootEnvRead_ubootEnvWrite_small : ∃ w env, Holds w env twoEntries ∧
    Returns (ubootEnvWrite env (List.replicate 16 0#8)) w fun r _ => r.1 = 0 ∧
      Returns (ubootEnvRead (ubootEnvInit 16) r.2.2) (World.powerOn 0 (fun _ => 0) [])
        fun r' w' => r'.1 = 0 ∧ (∃ ys, Holds w' r'.2 ys ∧ ys.Perm twoEntries) ∧
          SameAnswers env w r'.2 w' := by
  obtain ⟨w, env, henv, h⟩ := exists_holds 16 twoEntries
  have hbuffer : env.envSize ≤ (List.replicate 16 0#8).length := henv.trans_le (by decide)
  have hsize : 8 ≤ env.envSize := henv ▸ by decide
  have hbound : env.envSize ≤ ptrdiffMax := henv ▸ le_ptrdiffMax (by decide)
  refine ⟨w, env, h, ((returns_ubootEnvWrite_of_fits h hbuffer hsize hbound (henv ▸ by decide)).and
    (ubootEnvRead_ubootEnvWrite h hsize hbound hbuffer (by decide) (by decide))).mono ?_⟩
  rintro r w' ⟨hrc, hread⟩
  exact ⟨hrc, hread hrc _ _ _ (.powerOn 16 0 (fun _ => 0) []) henv.symm⟩

/-! ## Several entries of one name -/

/-- If `uboot_env_write` returns `0`, a fresh environment that reads the buffer answers as `env` did
before the write. -/
def WriteKeepsAnswers (env : UbootEnv) (w : World) (buffer : List Byte) : Prop :=
  Returns (ubootEnvWrite env buffer) w fun r w' => r.1 = 0 →
    Returns (ubootEnvRead (ubootEnvInit env.envSize) r.2.2) w' fun r' w'' =>
      r'.1 = 0 ∧ SameAnswers env w r'.2 w''

/-- The round trip swaps the first and the last entry of a name. -/
theorem writeKeepsAnswers_iff (h : Holds w env xs) (hsize : 8 ≤ env.envSize)
    (hbound : env.envSize ≤ ptrdiffMax) (hbuffer : env.envSize ≤ buffer.length)
    (hvalid : ∀ e ∈ xs, ValidName e.1) :
    WriteKeepsAnswers env w buffer ↔
      (Fits env.envSize xs → ∀ n, xs.lookup n = xs.reverse.lookup n) := by
  obtain ⟨⟨rc, env₁, buffer₁⟩, w₁, ⟨-, -, ys, hsorted, hys, hfits, hfull⟩, hout⟩ :=
    (returns_ubootEnvWrite h hbuffer hsize hbound).exists_outcome
  rw [WriteKeepsAnswers, hout]
  by_cases hroom : Fits env.envSize xs
  · obtain ⟨hrc, rfl⟩ : rc = 0 ∧ buffer₁ = _ := hfits hroom
    have hvalid' : ∀ e ∈ ys, ValidName e.1 := fun e he => hvalid e (hsorted.perm.subset he)
    have hread := returns_ubootEnvRead_writtenBlock (.init env.envSize hys.fresh) (ubootEnvInit_envSize _)
      ((fits_iff_of_perm hsorted.perm).mpr hroom) hbound hvalid' (buffer.drop env.envSize)
    obtain ⟨r, w₂, ⟨hrc', -, -, hzs⟩, hreread⟩ := hread.exists_outcome
    simp only [hrc, hreread, hrc', h.sameAnswers_iff hzs, lookup_reverse_of_stableSorted hsorted,
      hroom, true_and, forall_const]
  · have hrc : rc = -1 := hfull hroom
    simp [hrc, hroom]

/-- **No update is lost** by reading the block, setting `us`, writing, and reading again. -/
def NoUpdateLost (w : World) (size : ℕ) (block : List Byte) (us : List Entry)
    (buffer : List Byte) : Prop :=
  Returns (do
      let (_, env) ← ubootEnvRead (ubootEnvInit size) block
      ubootEnvSetenvs us env) w fun env w' => WriteKeepsAnswers env w' buffer

theorem noUpdateLost_iff_lookup (hfresh : ∀ a, w.heap ≤ a → w.nodes a = none)
    (hes : IsBlock block es) (hlen : block.length = size) (hsize : 8 ≤ size)
    (hbound : size ≤ ptrdiffMax) (hbuffer : size ≤ buffer.length)
    (hvalid : ∀ u ∈ us, ValidName u.1) :
    NoUpdateLost w size block us buffer ↔ (Fits size (assigns us es.reverse) →
      ∀ n, (assigns us es.reverse).lookup n = (assigns us es.reverse).reverse.lookup n) := by
  have hread := returns_ubootEnvRead (.init size hfresh)
    ⟨hlen, le_trans (by decide) hsize, hbound⟩ hes []
  rw [List.append_nil] at hread
  obtain ⟨⟨_, env₀⟩, w₀, ⟨-, henv₀, -, h₀⟩, houtRead⟩ := hread.exists_outcome
  rw [NoUpdateLost, returns_bind, houtRead]
  dsimp only at h₀ henv₀ ⊢
  obtain ⟨env, w₁, ⟨henv, -, h₁⟩, houtSet⟩ := (returns_ubootEnvSetenvs us h₀).exists_outcome
  obtain rfl : env.envSize = size := henv.trans henv₀
  rw [houtSet, writeKeepsAnswers_iff h₁ hsize hbound hbuffer]
  intro e he
  rcases mem_assigns he with he | he
  · exact hvalid e he
  · exact hes.payload.valid e (List.mem_reverse.mp he)

/-- **The round trip loses no update exactly if** the names with several entries in the block agree:
the first entry of such a name in the block has the value that was set last, or else that of the
last entry.  (If the entries do not fit any more, nothing is written.) -/
theorem noUpdateLost_iff (hfresh : ∀ a, w.heap ≤ a → w.nodes a = none)
    (hes : IsBlock block es) (hlen : block.length = size) (hsize : 8 ≤ size)
    (hbound : size ≤ ptrdiffMax) (hbuffer : size ≤ buffer.length)
    (hvalid : ∀ u ∈ us, u.1.bytes ≠ [] ∧ chr '=' ∉ u.1.bytes) :
    NoUpdateLost w size block us buffer ↔
      (Fits size (assigns us es.reverse) → ∀ n, 2 ≤ multiplicity n es →
        es.lookup n = (us.reverse ++ es.reverse).lookup n) := by
  have hvalid' : ∀ u ∈ us, ValidName u.1 := fun u hu =>
    ⟨(hvalid u hu).1, fun h => (hvalid u hu).2 (List.mem_of_mem_tail h)⟩
  rw [noUpdateLost_iff_lookup hfresh hes hlen hsize hbound hbuffer hvalid']
  refine imp_congr_right fun _ => forall_congr' fun n => ?_
  rw [lookup_assigns_eq_reverse_iff, multiplicity_reverse, List.reverse_reverse]

/-- A block of 16 bytes that holds `a=1` and then `a=2`. -/
def staleBlock : List Byte :=
  sealBlock (lit "a=1" ++ lit "a=2" ++ [0#8, 0xff#8, 0xff#8, 0xff#8])

theorem isBlock_staleBlock :
    IsBlock staleBlock [(CStr.lit "a", CStr.lit "1"), (CStr.lit "a", CStr.lit "2")] :=
  .sealBlock ⟨by decide, _, rfl, .inr ⟨_, rfl⟩⟩

/-- With `a` set to `1` first, nothing is lost. -/
theorem noUpdateLost_iff_staleBlock :
    NoUpdateLost (.powerOn 0 (fun _ => 0) []) 16 staleBlock [(CStr.lit "a", CStr.lit "1")]
      (List.replicate 16 0#8) := by
  refine Iff.mpr (noUpdateLost_iff (fun _ _ => rfl) isBlock_staleBlock rfl (by decide)
    (le_ptrdiffMax (by decide)) (by decide) (by decide)) fun _ n hn => ?_
  have hmem := mem_map_fst_iff_multiplicity.mpr (Nat.lt_of_lt_of_le Nat.zero_lt_two hn)
  obtain rfl : n = CStr.lit "a" := by simpa using hmem
  decide

/-- **An update is lost** otherwise: `a` is `2` before the write and `1` after it. -/
theorem not_noUpdateLost_staleBlock : (∃ es, IsBlock staleBlock es) ∧
    ¬ NoUpdateLost (.powerOn 0 (fun _ => 0) []) 16 staleBlock [] (List.replicate 16 0#8) := by
  refine ⟨⟨_, isBlock_staleBlock⟩, ?_⟩
  have hlen : staleBlock.length = 16 := rfl
  rw [noUpdateLost_iff_lookup (fun _ _ => rfl) isBlock_staleBlock hlen (by decide)
    (le_ptrdiffMax (by decide)) (by decide) (by simp)]
  intro h
  exact absurd (h (by decide) (CStr.lit "a")) (by decide)

end LittleLoader
