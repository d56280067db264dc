import LittleLoader.Block.Read

/-!
# Block/Rejection — what a rejected block leaves behind

    wrong checksum                  ⟶  -1, no pairs
    entry … entry, malformed entry  ⟶  -1, the pairs of the entries before the malformed one

`uboot_env_read` empties the list first, and compares the checksums before it makes a pair.  A
malformed entry it finds later, when the pairs of the entries before it are linked already, and its
error return leaves them there (`leavesNothing_iff`).
-/

namespace LittleLoader

variable {w w' : World} {env : UbootEnv} {xs ys : List Entry} {e : Entry}
  {rest block buffer p q : List Byte}

/-! ## Leaving nothing -/

/-- **A rejected block leaves no variables behind**: if `uboot_env_read` fails, the list is empty
and no name has a value. -/
def LeavesNothing (w : World) (env : UbootEnv) (buffer : List Byte) : Prop :=
  Returns (ubootEnvRead env buffer) w fun r w' =>
    r.1 = -1 → r.2.vars = none ∧
      ∀ n : CStr, Returns (ubootEnvGetenv r.2 n.obj) w' fun a _ => a = (-1, none)

/-- The payload begins with a well-formed entry. -/
def BeginsWithEntry (p : List Byte) : Prop := ∃ e : Entry, ∃ q, ValidName e.1 ∧ p = e.encode ++ q

theorem Holds.vars_eq_none (h : Holds w env []) : env.vars = none := by
  obtain ⟨⟨cs, hcs, hnil⟩, -⟩ := h
  obtain rfl := List.map_eq_nil_iff.mp hnil
  exact Linked.nil_iff.mp hcs

/-- It is enough that no entries are left. -/
theorem leavesNothing_of_holds_nil (h : Returns (ubootEnvRead env buffer) w fun r w' =>
    r.1 = -1 → Holds w' r.2 []) : LeavesNothing w env buffer :=
  h.mono fun _ _ hr hrc => ⟨(hr hrc).vars_eq_none, fun _ =>
    (returns_ubootEnvGetenv (hr hrc)).mono fun _ _ ha => ha.1⟩

/-- …and an entry that is left is found under its name. -/
theorem Holds.answers_entry (h : Holds w env (ys ++ [e])) :
    ¬ Returns (ubootEnvGetenv env e.1.obj) w fun a _ => a = (-1, none) := by
  intro hnone
  obtain ⟨a, w', -, ha, hlookup, -⟩ :=
    Returns.iff_run.mp (hnone.and (returns_ubootEnvGetenv h))
  have heq : (ys ++ [e]).lookup e.1 = none := answer_injective (hlookup.symm.trans ha)
  simpa using List.lookup_eq_none_iff.mp heq e (by simp)

/-! ## The failing returns -/

/-- A payload that begins with no entry is rejected before any pair is made. -/
theorem returns_ubootEnvRead_of_not_beginsWithEntry (h : Holds w env xs)
    (hblock : HasBlock env block) (hs : Sealed block) (hfirst : ¬ BeginsWithEntry (block.drop 4)) :
    Returns (ubootEnvRead env (block ++ rest)) w fun r w' => r.1 = -1 → Holds w' r.2 [] := by
  refine (returns_ubootEnvRead_of_sealed h hblock hs).mono fun r w' hr hrc => ?_
  rcases hr.result with ⟨h₀, -⟩ | ⟨-, -, pre, bad, hpayload, hvalid, hw'⟩
  · omega
  · match pre with
    | [] => simpa using hw'
    | e :: pre =>
      refine absurd ⟨e, encode pre ++ bad, hvalid e List.mem_cons_self, ?_⟩ hfirst
      rw [hpayload, encode_cons, List.append_assoc]

/-- **The first entry is published**: whatever is malformed behind it, its pair is the last of the
list that is left. -/
theorem returns_ubootEnvRead_of_entry (h : Holds w env xs) (hblock : HasBlock env block)
    (hs : Sealed block) (he : ValidName e.1) (hfirst : block.drop 4 = e.encode ++ q)
    (hnone : ∀ es, ¬ IsPayload (block.drop 4) es) :
    Returns (ubootEnvRead env (block ++ rest)) w fun r w' =>
      r.1 = -1 ∧ ∃ ys, Holds w' r.2 (ys ++ [e]) := by
  have hnil : Holds w { env with vars := none } [] := .nil rfl h.fresh
  have hlen := hblock.payload_le
  rw [hfirst, List.length_append, Entry.length_encode] at hlen
  refine returns_ubootEnvRead_loop h hblock hs ?_
  rw [hfirst, List.append_assoc, ubootEnvReadLoop_entry he]
  refine returns_storeEntry hnil (by omega) (by omega) fun w₁ _ hw₁ => ?_
  have hfuel : q.length < (e.encode ++ (q ++ rest)).length := by
    simp only [List.length_append, Entry.length_encode]
    omega
  refine (returns_ubootEnvReadLoop hw₁ hfuel (by omega)).mono fun r w' hr => ?_
  rcases hr.result with ⟨-, es, hes, -⟩ | ⟨hrc, -, pre, -, -, -, hw'⟩
  · exact absurd (hfirst ▸ (IsPayload.entry_iff he).mpr ⟨es, rfl, hes⟩) (hnone (e :: es))
  · exact ⟨hrc, pre.reverse, hw'⟩

/-! ## The condition -/

/-- **A rejected block leaves no variables behind exactly if its checksum is wrong or its payload
begins with no entry.**  All other blocks that leave none are accepted ones. -/
theorem leavesNothing_iff (h : Holds w env xs) (hblock : HasBlock env block) (rest : List Byte) :
    LeavesNothing w env (block ++ rest) ↔
      ¬ Sealed block ∨ (∃ es, IsPayload (block.drop 4) es) ∨ ¬ BeginsWithEntry (block.drop 4) := by
  constructor
  · intro hleaves
    by_contra hcond
    simp only [not_or, not_not, not_exists] at hcond
    obtain ⟨hs, hnone, e, q, he, hfirst⟩ := hcond
    obtain ⟨r, w', -, himp, hrc, ys, hys⟩ := Returns.iff_run.mp
      (hleaves.and (returns_ubootEnvRead_of_entry h hblock hs he hfirst hnone))
    exact hys.answers_entry ((himp hrc).2 e.1)
  · intro hcond
    refine leavesNothing_of_holds_nil ?_
    by_cases hs : Sealed block
    · rcases hcond with hns | ⟨es, hes⟩ | hfirst
      · exact absurd hs hns
      · refine (returns_ubootEnvRead h hblock ⟨hs, hes⟩ rest).mono fun r w' hr hrc => ?_
        have := hr.1
        omega
      · exact returns_ubootEnvRead_of_not_beginsWithEntry h hblock hs hfirst
    · refine (returns_ubootEnvRead_of_not_sealed h hblock hs).mono ?_
      rintro r w' ⟨rfl, hq⟩ -
      exact (Holds.nil rfl h.fresh).quiet hq

/-- Eight bytes with the right checksum: the entry `a=`, and a byte that begins no entry. -/
def tornBlock : List Byte := sealBlock (lit "a=" ++ [chr 'b'])

/-- The payload of `tornBlock` is the entry and the byte. -/
theorem drop_tornBlock : tornBlock.drop 4 = Entry.encode (CStr.lit "a", CStr.lit "") ++ [chr 'b'] :=
  drop_sealBlock _

theorem not_isPayload_tornBlock (es : List Entry) : ¬ IsPayload (tornBlock.drop 4) es := by
  rw [drop_tornBlock, IsPayload.entry_iff (by decide)]
  rintro ⟨fs, -, hfs⟩
  exact not_isPayload_of_name (l := []) (by decide) (by simp) (.inl rfl) hfs

theorem hasBlock_tornBlock : HasBlock (ubootEnvInit 8) tornBlock :=
  ⟨rfl, by decide, le_ptrdiffMax (by decide)⟩

/-- **The variable `a` of a rejected block is left behind.** -/
theorem not_leavesNothing_tornBlock :
    ¬ LeavesNothing (World.powerOn 0 (fun _ => 0) []) (ubootEnvInit 8) tornBlock := by
  intro hleaves
  obtain ⟨r, w', -, himp, hrc, ys, hys⟩ := Returns.iff_run.mp (hleaves.and
    (List.append_nil tornBlock ▸ returns_ubootEnvRead_of_entry (.powerOn 8 0 (fun _ => 0) [])
      hasBlock_tornBlock (sealed_sealBlock _) (by decide) drop_tornBlock not_isPayload_tornBlock))
  exact hys.answers_entry ((himp hrc).2 _)

/-- A first entry without its `=` is rejected with nothing left behind. -/
theorem leavesNothing_iff_noEntry :
    LeavesNothing (World.powerOn 0 (fun _ => 0) []) (ubootEnvInit 8)
      (sealBlock (List.replicate 4 (chr 'a')) ++ []) := by
  refine (leavesNothing_iff (.powerOn 8 0 (fun _ => 0) [])
    ⟨rfl, by decide, le_ptrdiffMax (by decide)⟩ []).mpr (.inr (.inr ?_))
  rintro ⟨e, q, -, heq⟩
  have hnul : 0#8 ∈ List.replicate 4 (chr 'a') := by
    rw [← drop_sealBlock (List.replicate 4 (chr 'a')), heq]
    simp [Entry.encode]
  exact absurd hnul (by decide)

end LittleLoader
