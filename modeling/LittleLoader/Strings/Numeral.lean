import Mathlib.Data.List.Forall2
import Mathlib.Data.Nat.Digits.Defs
import LittleLoader.Strings.CStr

/-!
# Strings/Numeral — the number that `strtoull_` reads

    spaces, a run of digits of the base, the first character that is none

`strtoull_` skips the spaces, consumes the longest run of digits, and returns its positional value
modulo `2^64`, with `*endptr` at what stopped it (`strtoull_reads`).
-/

namespace LittleLoader

variable {base d k m : ℕ} {c : Byte} {run rest str : List Byte} {ds : List ℕ}

/-! ## Digits -/

/-- The character writes the digit `d`, in lower or in upper case. -/
def WritesDigit (c : Byte) (d : ℕ) : Prop :=
  d < 16 ∧ (c = chr (Nat.digitChar d) ∨ c = chr (Nat.digitChar d).toUpper)

instance : Decidable (WritesDigit c d) := inferInstanceAs (Decidable (_ ∧ _))

/-- **`char_to_digit`** finds the digit that a character writes. -/
theorem WritesDigit.charToDigit_eq (h : WritesDigit c d) : charToDigit c = d := by
  have hdigits : ∀ d < 16, charToDigit (chr (Nat.digitChar d)) = d ∧
      charToDigit (chr (Nat.digitChar d).toUpper) = d := by decide
  obtain ⟨hd, rfl | rfl⟩ := h
  · exact (hdigits d hd).1
  · exact (hdigits d hd).2

/-- …and `-1` if there is none. -/
theorem charToDigit_cases (c : Byte) :
    (∃ d, WritesDigit c d ∧ charToDigit c = d) ∨ charToDigit c = -1 := by
  have hall : ∀ c : Byte, WritesDigit c (charToDigit c).toNat ∨ charToDigit c = -1 := by decide
  exact (hall c).imp_left fun h => ⟨_, h, h.charToDigit_eq⟩

/-- The digit loop stops at the characters that write no digit of the base. -/
theorem convertDigits_stop {r : BitVec 64} (h : ∀ d < base, ¬ WritesDigit c d) :
    convertDigits base (c :: rest) r = some (r, c :: rest) := by
  rcases charToDigit_cases c with ⟨d, hd, heq⟩ | heq
  · have hle : ¬ d < base := fun hlt => h d hlt hd
    have hne : (d : ℤ) ≠ -1 := by omega
    have hge : (d : ℤ) ≥ base := by omega
    simp only [convertDigits, heq, if_neg hne, if_pos hge]
  · simp only [convertDigits, heq, if_true]

/-- **A round** takes one digit into the number. -/
theorem convertDigits_digit (h : WritesDigit c d) (hd : d < base) :
    convertDigits base (c :: str) (BitVec.ofNat 64 m)
      = convertDigits base str (BitVec.ofNat 64 (d + base * m)) := by
  have hne : (d : ℤ) ≠ -1 := by omega
  have hlt : ¬ (d : ℤ) ≥ base := by omega
  have hstep : BitVec.ofNat 64 m * BitVec.ofInt 64 base + BitVec.ofInt 64 d
      = BitVec.ofNat 64 (d + base * m) := by
    rw [BitVec.ofInt_natCast, BitVec.ofInt_natCast, BitVec.ofNat_add, BitVec.ofNat_mul,
      BitVec.mul_comm, BitVec.add_comm]
  simp only [convertDigits, h.charToDigit_eq, if_neg hne, if_neg hlt, hstep]

/-! ## Numerals -/

/-- **The string begins with the digits `ds`** of the base, most significant first, after any
spaces; `rest` is what follows them, and begins with no digit. -/
structure IsNumeral (base : ℕ) (str : List Byte) (ds : List ℕ) (rest : List Byte) : Prop where
  text : ∃ k run, str = List.replicate k (chr ' ') ++ (run ++ rest) ∧
    List.Forall₂ WritesDigit run ds ∧ (run ++ rest).head? ≠ some (chr ' ')
  digits : ∀ d ∈ ds, d < base
  stops : ∀ c ∈ rest.head?, ∀ d < base, ¬ WritesDigit c d

/-- The positional value of digits, most significant first. -/
def digitsValue (base : ℕ) (ds : List ℕ) : ℕ := Nat.ofDigits base ds.reverse

/-- The digits go into the number one by one. -/
theorem digitsValue_eq_foldl : digitsValue base ds = ds.foldl (fun m d => d + base * m) 0 := by
  simp [digitsValue, Nat.ofDigits_eq_foldr]

theorem convertDigits_run (h : List.Forall₂ WritesDigit run ds) (hds : ∀ d ∈ ds, d < base)
    (hstop : ∀ d < base, ¬ WritesDigit c d) :
    convertDigits base (run ++ c :: rest) (BitVec.ofNat 64 m)
      = some (BitVec.ofNat 64 (ds.foldl (fun m d => d + base * m) m), c :: rest) := by
  induction h generalizing m with
  | nil => exact convertDigits_stop hstop
  | cons hc _ ih =>
    obtain ⟨hd, hds⟩ := List.forall_mem_cons.mp hds
    rw [List.cons_append, convertDigits_digit hc hd, ih hds, List.foldl_cons]

theorem skipSpaces_replicate (h : str.head? = some c) (hc : c ≠ chr ' ') :
    skipSpaces (List.replicate k (chr ' ') ++ str) = some str := by
  induction k with
  | zero =>
    obtain ⟨t, rfl⟩ := List.head?_eq_some_iff.mp h
    simp [skipSpaces, hc]
  | succ k ih => rw [List.replicate_succ, List.cons_append, skipSpaces, if_pos rfl, ih]

/-- **`strtoull_` reads a numeral**, in whatever buffer it is. -/
theorem IsNumeral.strtoull_eq (h : IsNumeral base str ds (c :: rest)) (hbase : base ≠ 0)
    (behind : List Byte) : strtoull (str ++ behind) base
      = some (BitVec.ofNat 64 (digitsValue base ds), c :: rest ++ behind) := by
  obtain ⟨⟨k, run, rfl, hrun, hspace⟩, hds, hstop⟩ := h
  have hstop' : ∀ d < base, ¬ WritesDigit c d := hstop c rfl
  have hhead : ∃ b, (run ++ (c :: rest ++ behind)).head? = some b ∧ b ≠ chr ' ' := by
    cases run with
    | nil => exact ⟨c, rfl, fun hc => hspace (hc ▸ rfl)⟩
    | cons b run => exact ⟨b, rfl, fun hb => hspace (hb ▸ rfl)⟩
  obtain ⟨b, hb, hne⟩ := hhead
  have hbasePrefix : basePrefix (run ++ (c :: rest ++ behind)) base
      = some (run ++ (c :: rest ++ behind), (base : ℤ)) := if_neg (by exact_mod_cast hbase)
  have hconvert : convertDigits base (run ++ c :: (rest ++ behind)) (BitVec.ofNat 64 0) = _ :=
    convertDigits_run hrun hds hstop'
  rw [← digitsValue_eq_foldl] at hconvert
  rw [List.append_assoc, List.append_assoc, strtoull, skipSpaces_replicate hb hne]
  simp only [Option.bind_eq_bind, Option.bind_some, hbasePrefix]
  exact hconvert

/-! ## Every string begins with a numeral -/

theorem not_writesDigit_nul : ¬ WritesDigit 0#8 d := by
  have hnul : ∀ d < 16, ¬ WritesDigit 0#8 d := by decide
  exact fun h => hnul d h.1 h

/-- The longest run of digits, up to the NUL of a string at the latest. -/
theorem exists_run (base : ℕ) (l : List Byte) : ∃ run ds c rest,
    l ++ [0#8] = run ++ c :: rest ∧ List.Forall₂ WritesDigit run ds ∧ (∀ d ∈ ds, d < base) ∧
      ∀ d < base, ¬ WritesDigit c d := by
  induction l with
  | nil =>
    exact ⟨[], [], 0#8, [], rfl, .nil, by simp, fun _ _ => not_writesDigit_nul⟩
  | cons b l ih =>
    by_cases hb : ∃ d < base, WritesDigit b d
    · obtain ⟨d, hd, hbd⟩ := hb
      obtain ⟨run, ds, c, rest, hl, hrun, hds, hstop⟩ := ih
      exact ⟨b :: run, d :: ds, c, rest, by rw [List.cons_append, hl, List.cons_append],
        .cons hbd hrun, List.forall_mem_cons.mpr ⟨hd, hds⟩, hstop⟩
    · exact ⟨[], [], b, l ++ [0#8], rfl, .nil, by simp, fun d hd hbd => hb ⟨d, hd, hbd⟩⟩

theorem exists_isNumeral (base : ℕ) (s : CStr) :
    ∃ ds c rest, IsNumeral base s.obj ds (c :: rest) := by
  rw [CStr.obj]
  induction s.bytes with
  | nil =>
    obtain ⟨run, ds, c, rest, hl, hrun, hds, hstop⟩ := exists_run base []
    exact ⟨ds, c, rest, ⟨0, run, hl, hrun, hl ▸ by decide⟩, hds, fun b hb => by
      obtain rfl := Option.some.inj hb
      exact hstop⟩
  | cons b l ih =>
    by_cases hb : b = chr ' '
    · obtain ⟨ds, c, rest, ⟨k, run, hl, hrun, hhead⟩, hds, hstop⟩ := ih
      exact ⟨ds, c, rest, ⟨k + 1, run, by rw [List.cons_append, hl, hb]; rfl, hrun, hhead⟩, hds,
        hstop⟩
    · obtain ⟨run, ds, c, rest, hl, hrun, hds, hstop⟩ := exists_run base (b :: l)
      exact ⟨ds, c, rest, ⟨0, run, hl, hrun, hl ▸ by simpa using hb⟩, hds, fun b' hb' => by
        obtain rfl := Option.some.inj hb'
        exact hstop⟩

theorem nul_notMem_run (h : List.Forall₂ WritesDigit run ds) : 0#8 ∉ run := by
  induction h with
  | nil => simp
  | cons hc _ ih =>
    rw [List.mem_cons, not_or]
    exact ⟨fun hnul => not_writesDigit_nul (hnul ▸ hc), ih⟩

/-- The numeral of a string ends at its NUL or before. -/
theorem IsNumeral.exists_cons {s : CStr} (h : IsNumeral base s.obj ds rest) :
    ∃ c l, rest = c :: l := by
  obtain ⟨⟨k, run, hobj, hrun, -⟩, -, -⟩ := h
  refine List.exists_cons_of_ne_nil fun hrest => ?_
  have hnul : 0#8 ∈ List.replicate k (chr ' ') ++ (run ++ rest) := hobj ▸ by simp [CStr.obj]
  rw [hrest, List.append_nil, List.mem_append] at hnul
  rcases hnul with hspace | hmem
  · exact absurd (List.eq_of_mem_replicate hspace) (by decide)
  · exact nul_notMem_run hrun hmem

/-! ## The rendering of a number -/

/-- The rendering of a number in a base is a run of digits, and the number is its value. -/
theorem exists_digits (h₂ : 2 ≤ base) (h₁₆ : base ≤ 16) (n : ℕ) : ∃ ds,
    List.Forall₂ WritesDigit ((Nat.toDigits base n).map chr) ds ∧ (∀ d ∈ ds, d < base) ∧
      digitsValue base ds = n := by
  induction n using Nat.strong_induction_on with
  | h n ih =>
    rw [Nat.toDigits_eq_if h₂]
    split
    · rename_i hn
      exact ⟨[n], .cons ⟨by omega, .inl rfl⟩ .nil, by simpa using hn, by simp [digitsValue]⟩
    · rename_i hn
      obtain ⟨ds, hds, hlt, hvalue⟩ := ih (n / base) (Nat.div_lt_self (by omega) h₂)
      have hmod : n % base < base := Nat.mod_lt n (by omega)
      refine ⟨ds ++ [n % base], ?_, ?_, ?_⟩
      · rw [List.map_append]
        exact List.rel_append hds (.cons ⟨by omega, .inl rfl⟩ .nil)
      · intro d hd
        rcases List.mem_append.mp hd with hd | hd
        · exact hlt d hd
        · rwa [List.mem_singleton.mp hd]
      · rw [digitsValue_eq_foldl] at hvalue ⊢
        rw [List.foldl_append, hvalue, List.foldl_cons, List.foldl_nil]
        exact Nat.mod_add_div n base

/-- …also with zeros before it. -/
theorem exists_digits_zeros (h₂ : 2 ≤ base) (h₁₆ : base ≤ 16) (n z : ℕ) : ∃ ds,
    List.Forall₂ WritesDigit (List.replicate z (chr '0') ++ (Nat.toDigits base n).map chr) ds ∧
      (∀ d ∈ ds, d < base) ∧ digitsValue base ds = n := by
  induction z with
  | zero => exact exists_digits h₂ h₁₆ n
  | succ z ih =>
    obtain ⟨ds, hds, hlt, hvalue⟩ := ih
    refine ⟨0 :: ds, .cons ⟨by omega, .inl rfl⟩ hds, List.forall_mem_cons.mpr ⟨by omega, hlt⟩, ?_⟩
    rw [digitsValue_eq_foldl] at hvalue ⊢
    simpa using hvalue

theorem WritesDigit.ne_space (h : WritesDigit c d) : c ≠ chr ' ' := by
  rintro rfl
  have hspace : charToDigit (chr ' ') = -1 := by decide
  have := h.charToDigit_eq
  omega

theorem head?_ne_space (h : List.Forall₂ WritesDigit run ds) (hne : run ≠ []) :
    (run ++ rest).head? ≠ some (chr ' ') := by
  cases h with
  | nil => exact absurd rfl hne
  | cons hb _ => exact fun heq => hb.ne_space (Option.some.inj heq)

/-- **Spaces, zeros and the rendering of a number** make a numeral of that value. -/
theorem isNumeral_toDigits (h₂ : 2 ≤ base) (h₁₆ : base ≤ 16) (n k z : ℕ) (rest : List Byte)
    (hstop : ∀ d < base, ¬ WritesDigit c d) : ∃ ds, digitsValue base ds = n ∧
      IsNumeral base (List.replicate k (chr ' ') ++ (List.replicate z (chr '0') ++
        ((Nat.toDigits base n).map chr ++ c :: rest))) ds (c :: rest) := by
  obtain ⟨ds, hrun, hlt, hvalue⟩ := exists_digits_zeros h₂ h₁₆ n z
  have hne : List.replicate z (chr '0') ++ (Nat.toDigits base n).map chr ≠ [] := by simp
  refine ⟨ds, hvalue, ⟨k, _, by rw [List.append_assoc], hrun, head?_ne_space hrun hne⟩, hlt,
    fun b hb => ?_⟩
  obtain rfl := Option.some.inj hb
  exact hstop

/-! ## `strtoull_` -/

/-- **`strtoull_` reads the number that was written.**  It stays inside the string, whatever follows
it; it skips the spaces, consumes the longest run of digits of the base, and returns their
positional value modulo `2^64`, with `*endptr` at the first character that is left.  So it makes of
the rendering of a number that fits, with any spaces and zeros before it and anything but a digit
behind it, the number. -/
theorem strtoull_reads (h₂ : 2 ≤ base) (h₁₆ : base ≤ 16) :
    (∀ s : CStr, (∃ ds rest, IsNumeral base s.obj ds rest) ∧
      ∀ ds rest, IsNumeral base s.obj ds rest → ∀ behind, strtoull (s.obj ++ behind) base
        = some (BitVec.ofNat 64 (digitsValue base ds), rest ++ behind)) ∧
      ∀ n < 2 ^ 64, ∀ (k z : ℕ) (suffix : CStr) (behind : List Byte),
        (∀ c ∈ suffix.bytes.head?, ∀ d < base, ¬ WritesDigit c d) →
          ∃ r : BitVec 64, r.toNat = n ∧
            strtoull (List.replicate k (chr ' ') ++ (List.replicate z (chr '0') ++
              ((Nat.toDigits base n).map chr ++ (suffix.obj ++ behind)))) base
                = some (r, suffix.obj ++ behind) := by
  have hbase : base ≠ 0 := by omega
  refine ⟨fun s => ?_, fun n hn k z suffix behind hsuffix => ?_⟩
  · obtain ⟨ds, c, rest, hds⟩ := exists_isNumeral base s
    refine ⟨⟨ds, c :: rest, hds⟩, fun ds' rest' hds' => ?_⟩
    obtain ⟨c', l', rfl⟩ := hds'.exists_cons
    exact hds'.strtoull_eq hbase
  · have hsplit : ∃ c l, suffix.obj = c :: l ∧ ∀ d < base, ¬ WritesDigit c d := by
      rw [CStr.obj]
      cases hbytes : suffix.bytes with
      | nil => exact ⟨0#8, [], rfl, fun d hd => not_writesDigit_nul⟩
      | cons c l => exact ⟨c, l ++ [0#8], rfl, hsuffix c (by rw [hbytes]; rfl)⟩
    obtain ⟨c, l, hobj, hstop⟩ := hsplit
    obtain ⟨ds, hvalue, hnum⟩ := isNumeral_toDigits h₂ h₁₆ n k z (l ++ behind) hstop
    refine ⟨BitVec.ofNat 64 n, Nat.mod_eq_of_lt hn, ?_⟩
    have heq := hnum.strtoull_eq hbase []
    rw [List.append_nil, List.append_nil, hvalue] at heq
    rw [hobj]
    exact heq

/-- The decimal text of `1234` behind two spaces and a zero, and a string of hexadecimal digits. -/
theorem strtoull_reads_small :
    (∃ r : BitVec 64, r.toNat = 1234 ∧ strtoull (List.replicate 2 (chr ' ') ++
      (List.replicate 1 (chr '0') ++ ((Nat.toDigits 10 1234).map chr ++
        ((CStr.lit ",").obj ++ [])))) 10 = some (r, (CStr.lit ",").obj ++ [])) ∧
      ∃ ds rest, IsNumeral 16 (CStr.lit "fF").obj ds rest := by
  exact ⟨(strtoull_reads (show 2 ≤ 10 by decide) (by decide)).2 1234 (by decide) 2 1
    (CStr.lit ",") [] (by decide),
    ((strtoull_reads (show 2 ≤ 16 by decide) (by decide)).1 (CStr.lit "fF")).1⟩

end LittleLoader
