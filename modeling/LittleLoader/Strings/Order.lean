import LittleLoader.Strings.CStr

/-!
# Strings/Order — `strcmp_` is a total order

    strcmp_ x y < 0   ↔   x.key < y.key

The keys are the bytes as numbers, in lexicographic order with a proper prefix first.  The loop of
`strcmp_` compares plain `char`s; whether they are signed makes no difference, since it only asks
whether they are equal (`strcmpChars_eq`).
-/

namespace LittleLoader

variable {signed : Bool} {a : Byte} {x y : CStr}

/-! ## Plain `char`s -/

theorem charValue_injective (signed : Bool) : Function.Injective (charValue signed) := by
  intro a b h
  cases signed
  · exact BitVec.eq_of_toNat_eq (Int.ofNat_inj.mp h)
  · exact BitVec.eq_of_toInt_eq h

theorem charValue_eq_zero : charValue signed a = 0 ↔ a = 0#8 := by
  have hzero : charValue signed 0#8 = 0 := by cases signed <;> rfl
  exact ⟨fun h => charValue_injective signed (h.trans hzero.symm), fun h => h ▸ hzero⟩

/-- **The kind of `char` makes no difference.** -/
theorem strcmpChars_eq (signed : Bool) (s t : List Byte) : strcmpChars signed s t = strcmp s t := by
  induction s generalizing t with
  | nil => rfl
  | cons a s ih =>
    cases t with
    | nil => rfl
    | cons b t =>
      simp only [strcmpChars, strcmp, ne_eq, charValue_eq_zero, (charValue_injective signed).eq_iff,
        ih]

/-! ## The order -/

/-- The result of `strcmp_` for two strings. -/
def CStr.compare (signed : Bool) (x y : CStr) : ℤ := (strcmpChars signed x.obj y.obj).getD 0

/-- **`strcmp_` stays inside both strings**, whatever follows them. -/
theorem strcmpChars_append (signed : Bool) (x y : CStr) (rest rest' : List Byte) :
    strcmpChars signed (x.obj ++ rest) (y.obj ++ rest') = some (x.compare signed y) := by
  obtain ⟨r, hr, -⟩ := strcmp_obj x y
  rw [CStr.compare, strcmpChars_eq, strcmpChars_eq, hr]
  exact strcmp_append_append hr rest rest'

theorem compare_eq_zero : x.compare signed y = 0 ↔ x = y := by
  obtain ⟨r, hr, hzero, -⟩ := strcmp_obj x y
  rwa [CStr.compare, strcmpChars_eq, hr]

theorem compare_pos : 0 < x.compare signed y ↔ y.key < x.key := by
  obtain ⟨r, hr, -, hpos⟩ := strcmp_obj x y
  rwa [CStr.compare, strcmpChars_eq, hr]

theorem compare_le : x.compare signed y ≤ 0 ↔ x.key ≤ y.key :=
  Int.not_lt.symm.trans ((not_congr compare_pos).trans not_lt)

theorem compare_neg : x.compare signed y < 0 ↔ x.key < y.key := by
  have hne : x.compare signed y ≠ 0 ↔ x.key ≠ y.key :=
    not_congr (compare_eq_zero.trans CStr.key_injective.eq_iff.symm)
  exact Int.lt_iff_le_and_ne.trans ((and_congr compare_le hne).trans lt_iff_le_and_ne.symm)

/-- The sign changes with the order of the strings. -/
theorem sign_compare : (x.compare signed y).sign = -(y.compare signed x).sign := by
  rcases lt_trichotomy x.key y.key with h | h | h
  · rw [Int.sign_eq_neg_one_of_neg (compare_neg.mpr h), Int.sign_eq_one_of_pos (compare_pos.mpr h)]
  · obtain rfl := CStr.key_injective h
    rw [compare_eq_zero.mpr rfl]
    rfl
  · rw [Int.sign_eq_one_of_pos (compare_pos.mpr h), Int.sign_eq_neg_one_of_neg (compare_neg.mpr h)]
    rfl

/-- A proper prefix comes first. -/
theorem key_lt_of_isPrefix (h : x.bytes <+: y.bytes) (hne : x ≠ y) : x.key < y.key := by
  obtain ⟨_ | ⟨c, l⟩, hl⟩ := h
  · exact absurd (CStr.ext (by rw [← hl, List.append_nil])) hne
  · have hkey : y.key = x.key ++ (c :: l).map BitVec.toNat := by
      rw [CStr.key, CStr.key, ← hl, List.map_append]
    calc x.key = x.key ++ [] := (List.append_nil _).symm
      _ < y.key := hkey ▸ List.append_left_lt (List.nil_lt_cons _ _)

/-- **`strcmp_` is a total order on strings**, whether plain `char` is signed or not. -/
theorem strcmp_total_order (signed : Bool) :
    (∀ x y : CStr, ∀ rest rest', strcmpChars signed (x.obj ++ rest) (y.obj ++ rest')
      = some (x.compare signed y)) ∧
    (∀ x y : CStr, x.compare signed y = 0 ↔ x = y) ∧
    (∀ x y : CStr, x.compare signed y < 0 ↔ x.key < y.key) ∧
    (∀ x y : CStr, x.bytes <+: y.bytes → x ≠ y → x.compare signed y < 0) ∧
    (∀ x y : CStr, (x.compare signed y).sign = -(y.compare signed x).sign) ∧
    ∀ x y z : CStr, x.compare signed y ≤ 0 → y.compare signed z ≤ 0 → x.compare signed z ≤ 0 :=
  ⟨strcmpChars_append signed, fun _ _ => compare_eq_zero, fun _ _ => compare_neg,
    fun _ _ h hne => compare_neg.mpr (key_lt_of_isPrefix h hne), fun _ _ => sign_compare,
    fun _ _ _ h h' => compare_le.mpr ((compare_le.mp h).trans (compare_le.mp h'))⟩

end LittleLoader
