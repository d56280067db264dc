import LittleLoader.Strings.Numeral

/-!
# Strings/Decimal — numbers in decimal, and what `strtoull_` makes of them

`strtoull_` never leaves a string (`exists_strtoull`), and of a decimal text it makes the number
that is written there, modulo `2^64` (`strtoull_decimal`).
-/

namespace LittleLoader

variable {s : CStr} {n : ℕ}

/-! ## Decimal texts -/

/-- A decimal digit. -/
def IsDigit (c : Byte) : Prop := chr '0' ≤ c ∧ c ≤ chr '9'

instance : DecidablePred IsDigit := fun _ => inferInstanceAs (Decidable (_ ∧ _))

/-- The number that digits write behind the number `n`. -/
def appendDigits (n : ℕ) (l : List Byte) : ℕ :=
  l.foldl (fun n c => 10 * n + (c.toNat - (chr '0').toNat)) n

/-- **The string is the decimal text of `n`.** -/
def IsDecimal (s : CStr) (n : ℕ) : Prop :=
  s.bytes ≠ [] ∧ (∀ c ∈ s.bytes, IsDigit c) ∧ appendDigits 0 s.bytes = n

instance (s : CStr) (n : ℕ) : Decidable (IsDecimal s n) := inferInstanceAs (Decidable (_ ∧ _ ∧ _))

/-- A text writes one number. -/
theorem IsDecimal.unique {m : ℕ} (h : IsDecimal s n) (h' : IsDecimal s m) : n = m :=
  h.2.2.symm.trans h'.2.2

/-! ## `strtoull_` -/

/-- **`strtoull_` stays inside the string.** -/
theorem exists_strtoull (s : CStr) : ∃ x, strtoull s.obj 10 = some x := by
  obtain ⟨ds, c, rest, hds⟩ := exists_isNumeral 10 s
  have heq := hds.strtoull_eq (by decide) []
  rw [List.append_nil] at heq
  exact ⟨_, heq⟩

/-- The number that `strtoull_` makes of a string. -/
def CStr.number (s : CStr) : BitVec 64 := ((strtoull s.obj 10).map Prod.fst).getD 0

theorem strtoull_number (s : CStr) : ∃ rest, strtoull s.obj 10 = some (s.number, rest) := by
  obtain ⟨⟨k, rest⟩, hx⟩ := exists_strtoull s
  exact ⟨rest, by rw [CStr.number, hx]; rfl⟩

/-- The digit that a decimal digit writes. -/
theorem IsDigit.writesDigit : ∀ {c : Byte}, IsDigit c →
    WritesDigit c (c.toNat - (chr '0').toNat) ∧ c.toNat - (chr '0').toNat < 10 := by
  decide

/-- **A decimal text is a numeral.** -/
theorem IsDecimal.isNumeral (h : IsDecimal s n) :
    ∃ ds, digitsValue 10 ds = n ∧ IsNumeral 10 s.obj ds [0#8] := by
  obtain ⟨hne, hdigits, rfl⟩ := h
  have hrun : List.Forall₂ WritesDigit s.bytes
      (s.bytes.map fun c => c.toNat - (chr '0').toNat) := by
    rw [List.forall₂_map_right_iff, List.forall₂_same]
    exact fun c hc => (hdigits c hc).writesDigit.1
  refine ⟨_, ?_, ⟨0, s.bytes, rfl, hrun, head?_ne_space hrun hne⟩, fun d hd => ?_, fun c hc => ?_⟩
  · rw [digitsValue_eq_foldl, List.foldl_map, appendDigits]
    simp only [Nat.add_comm]
  · obtain ⟨c, hc, rfl⟩ := List.mem_map.mp hd
    exact (hdigits c hc).writesDigit.2
  · obtain rfl := Option.some.inj hc
    exact fun _ _ => not_writesDigit_nul

/-- **Of a decimal text it makes the number**, and stops at the NUL. -/
theorem strtoull_decimal (h : IsDecimal s n) :
    strtoull s.obj 10 = some (BitVec.ofNat 64 n, [0#8]) := by
  obtain ⟨ds, hvalue, hnum⟩ := h.isNumeral
  have heq := hnum.strtoull_eq (by decide) []
  rwa [List.append_nil, List.append_nil, hvalue] at heq

theorem IsDecimal.number_eq (h : IsDecimal s n) : s.number = BitVec.ofNat 64 n := by
  rw [CStr.number, strtoull_decimal h]
  rfl

end LittleLoader
