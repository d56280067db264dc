import LittleLoader.Block.Read
import LittleLoader.Block.Write

/-!
# Block/Capacity — what fits into a block

The format needs a byte for the NUL after the entries, the room check of `uboot_env_write` asks for
two.  So the writer takes everything the format has room for, except entries that fill the block to
the last byte (`ubootEnvWrite_fills_iff`): a block whose terminator is its last byte can be read but
not written back.
-/

namespace LittleLoader

variable {w w' : World} {env : UbootEnv} {xs es us : List Entry} {block buffer : List Byte}
  {n u v : CStr} {size : ℕ}

/-- **The writer succeeds exactly if the entries fit.** -/
theorem returns_ubootEnvWrite_iff (h : Holds w env xs) (hsize : 8 ≤ env.envSize)
    (hbound : env.envSize ≤ ptrdiffMax) (hbuffer : env.envSize ≤ buffer.length) :
    Returns (ubootEnvWrite env buffer) w (fun r _ => r.1 = 0) ↔ Fits env.envSize xs := by
  obtain ⟨r, w', ⟨-, -, ys, -, -, hfits, hfull⟩, hout⟩ :=
    (returns_ubootEnvWrite h hbuffer hsize hbound).exists_outcome
  rw [hout]
  refine ⟨fun h₀ => ?_, fun hroom => (hfits hroom).1⟩
  by_contra hroom
  have := hfull hroom
  omega

/-- Replacing a value by one of its length takes no more room. -/
theorem length_encode_assign (h : xs.lookup n = some u) (hlen : v.bytes.length = u.bytes.length) :
    (encode (assign n v xs)).length = (encode xs).length := by
  rw [assign, if_pos (lookup_isSome_iff.mp (by rw [h]; rfl))]
  induction xs with
  | nil => simp at h
  | cons e xs ih =>
    rw [lookup_cons_ite] at h
    rw [replaceFirst]
    by_cases he : e.1 = n
    · subst he
      obtain rfl : e.2 = u := by simpa using h
      simp [hlen]
    · rw [if_neg (Ne.symm he)] at h
      simp [he, ih h]

/-- The block has a NUL after its entries. -/
def Terminated (block : List Byte) (es : List Entry) : Prop :=
  ∃ tail, block.drop 4 = encode es ++ 0#8 :: tail

theorem Terminated.length_le (h : Terminated block es) (hlen : block.length = size)
    (hes : IsBlock block es) : (encode es).length + 5 ≤ size := by
  obtain ⟨tail, htail⟩ := h
  have hdrop := congrArg List.length htail
  simp only [List.length_drop, List.length_append, List.length_cons] at hdrop
  have := hes.isSealed.length_le
  omega

/-- Every update replaces a value by one of its length. -/
def SameLengths (us xs : List Entry) : Prop :=
  ∀ u ∈ us, ∃ old, xs.lookup u.1 = some old ∧ u.2.bytes.length = old.bytes.length

theorem length_encode_assigns (h : SameLengths us xs) :
    (encode (assigns us xs)).length = (encode xs).length := by
  induction us generalizing xs with
  | nil => rfl
  | cons u us ih =>
    obtain ⟨hu, hus⟩ := List.forall_mem_cons.mp h
    obtain ⟨old, hold, hlen⟩ := hu
    rw [assigns_cons, ih, length_encode_assign hold hlen]
    intro e he
    obtain ⟨old', hold', hlen'⟩ := hus e he
    rw [lookup_assign]
    split
    · rename_i hname
      rw [hname, hold] at hold'
      exact ⟨u.2, rfl, by rw [hlen', ← Option.some.inj hold', hlen]⟩
    · exact ⟨old', hold', hlen'⟩

/-- Read the block, set `us`, and write: the return code of `uboot_env_write`. -/
def rewriteBlock (env : UbootEnv) (block : List Byte) (us : List Entry) (buffer : List Byte) :
    M ℤ := do
  let (_, env) ← ubootEnvRead env block
  let env ← ubootEnvSetenvs us env
  return (← ubootEnvWrite env buffer).1

theorem returns_rewriteBlock_iff (h : Holds w env xs) (hsize : 8 ≤ env.envSize)
    (hbound : env.envSize ≤ ptrdiffMax) (hbuffer : env.envSize ≤ buffer.length)
    (hlen : block.length = env.envSize) (hes : IsBlock block es) :
    Returns (rewriteBlock env block us buffer) w (fun r _ => r = 0) ↔
      Fits env.envSize (assigns us es.reverse) := by
  have hread := returns_ubootEnvRead h ⟨hlen, by omega, hbound⟩ hes []
  rw [List.append_nil] at hread
  obtain ⟨⟨_, env₁⟩, w₁, ⟨-, henv₁, -, h₁⟩, houtRead⟩ := hread.exists_outcome
  dsimp only at henv₁ h₁
  obtain ⟨env₂, w₂, ⟨henv₂, -, h₂⟩, houtSet⟩ := (returns_ubootEnvSetenvs us h₁).exists_outcome
  have henv : env₂.envSize = env.envSize := henv₂.trans henv₁
  rw [← henv] at hsize hbound hbuffer ⊢
  simp only [rewriteBlock, returns_bind, houtRead, houtSet, returns_pure,
    returns_ubootEnvWrite_iff h₂ hsize hbound hbuffer]

/-- **Encoder and decoder disagree on one byte.**  The writer takes exactly what the format has room
for, unless the entries and their NUL fill the block.  A terminated block that was accepted can be
written back, also with values replaced by others of their lengths, exactly if its terminator is not
its last byte. -/
theorem ubootEnvWrite_fills_iff (h : Holds w env xs) (hsize : 8 ≤ env.envSize)
    (hbound : env.envSize ≤ ptrdiffMax) (hbuffer : env.envSize ≤ buffer.length) :
    (Returns (ubootEnvWrite env buffer) w
        (fun r _ => r.1 = 0 ↔ (encode xs).length + 1 ≤ env.envSize - 4) ↔
      (encode xs).length + 5 ≠ env.envSize) ∧
    ∀ block es us, IsBlock block es → block.length = env.envSize → Terminated block es →
      SameLengths us es.reverse →
        (Returns (rewriteBlock env block us buffer) w (fun r _ => r = 0) ↔
          (encode es).length + 5 ≠ env.envSize) := by
  refine ⟨?_, fun block es us hes hlen hterm hsame => ?_⟩
  · obtain ⟨r, w', -, hout⟩ := (returns_ubootEnvWrite h hbuffer hsize hbound).exists_outcome
    have hiff := returns_ubootEnvWrite_iff h hsize hbound hbuffer
    rw [hout] at hiff
    rw [hout, hiff, Fits]
    omega
  · have hle := hterm.length_le hlen hes
    rw [returns_rewriteBlock_iff h hsize hbound hbuffer hlen hes, Fits,
      length_encode_assigns hsame, length_encode_eq_of_perm es.reverse_perm]
    omega

/-- A block of eight bytes that holds `x=` and ends with its terminator. -/
def fullBlock : List Byte := sealBlock (lit "x=" ++ [0#8])

theorem isBlock_fullBlock : IsBlock fullBlock [(CStr.lit "x", CStr.lit "")] :=
  .sealBlock ⟨by decide, _, rfl, .inr ⟨[], rfl⟩⟩

/-- **The full block is accepted and cannot be written back.** -/
theorem not_rewriteBlock_fullBlock :
    fullBlock.length = 8 ∧ IsBlock fullBlock [(CStr.lit "x", CStr.lit "")] ∧
      Terminated fullBlock [(CStr.lit "x", CStr.lit "")] ∧
      (encode [(CStr.lit "x", CStr.lit "")]).length + 1 ≤ 8 - 4 ∧
      ¬ Returns (rewriteBlock (ubootEnvInit 8) fullBlock [] (List.replicate 8 0#8))
        (.powerOn 0 (fun _ => 0) []) fun r _ => r = 0 := by
  refine ⟨rfl, isBlock_fullBlock, ⟨[], rfl⟩, by decide, ?_⟩
  rw [returns_rewriteBlock_iff (.powerOn 8 _ _ _) (by decide) (le_ptrdiffMax (by decide))
    (by decide) rfl isBlock_fullBlock]
  decide

/-- One byte more, and it can. -/
theorem ubootEnvWrite_fills_iff_small :
    Returns (rewriteBlock (ubootEnvInit 9) (sealBlock (lit "x=" ++ [0#8, 0xff#8])) []
      (List.replicate 9 0#8)) (.powerOn 0 (fun _ => 0) []) fun r _ => r = 0 := by
  have hes : IsBlock (sealBlock (lit "x=" ++ [0#8, 0xff#8])) [(CStr.lit "x", CStr.lit "")] :=
    .sealBlock ⟨by decide, _, rfl, .inr ⟨_, rfl⟩⟩
  exact ((ubootEnvWrite_fills_iff (.powerOn 9 _ _ _) (by decide) (le_ptrdiffMax (by decide))
    (by decide)).2 _ _ [] hes rfl ⟨_, rfl⟩ (by simp [SameLengths])).mpr (by decide)

end LittleLoader
