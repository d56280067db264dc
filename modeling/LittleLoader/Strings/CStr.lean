import Mathlib.Data.List.Lex
import Mathlib.Data.List.TakeWhile
import LittleLoader.Machine.Util

/-!
# Strings/CStr — strings, and what the C library functions do to them

A `CStr` is a byte string without a NUL; `CStr.obj` is the object that holds it, NUL included.  On
such objects, also when more bytes follow, the functions of `Machine/Util` never leave the object,
and they compute the list functions their names stand for.
-/

namespace LittleLoader

/-- A string: its bytes, none of which is the NUL that ends it. -/
structure CStr where
  bytes : List Byte
  nul_notMem : 0#8 ∉ bytes
deriving DecidableEq

namespace CStr

instance : Inhabited CStr := ⟨[], by simp⟩

variable {s t : CStr}

@[ext] theorem ext (h : s.bytes = t.bytes) : s = t := by
  cases s
  cases t
  simpa using h

/-- The object of a string. -/
def obj (s : CStr) : List Byte := s.bytes ++ [0#8]

/-- The string of a literal. -/
def lit (s : String) (h : 0#8 ∉ s.toList.map chr := by decide) : CStr := ⟨s.toList.map chr, h⟩

@[simp] theorem obj_lit (s : String) (h : 0#8 ∉ s.toList.map chr) :
    (lit s h).obj = LittleLoader.lit s := rfl

theorem obj_ne_nil (s : CStr) : s.obj ≠ [] := by simp [obj]

theorem obj_injective : Function.Injective obj := fun _ _ h => ext (List.append_cancel_right h)

/-- The string at `p`, without its NUL. -/
def ofBytes (p : List Byte) : CStr where
  bytes := p.takeWhile (· ≠ 0#8)
  nul_notMem := fun h => by simpa using List.mem_takeWhile_imp h

/-- The string `t` with the first byte of `s` in place of its own. -/
def withHead (s t : CStr) : CStr where
  bytes := s.bytes.take 1 ++ t.bytes.drop 1
  nul_notMem := by
    rw [List.mem_append, not_or]
    exact ⟨fun h => s.nul_notMem (List.mem_of_mem_take h),
      fun h => t.nul_notMem (List.mem_of_mem_drop h)⟩

theorem exists_cons (h : s.bytes ≠ []) : ∃ c l, s.bytes = c :: l ∧ c ≠ 0#8 := by
  obtain ⟨c, l, hs⟩ := List.exists_cons_of_ne_nil h
  refine ⟨c, l, hs, ?_⟩
  rintro rfl
  exact s.nul_notMem (hs ▸ List.mem_cons_self)

/-- The bytes as numbers: `strcmp_` compares these lexicographically. -/
def key (s : CStr) : List ℕ := s.bytes.map BitVec.toNat

theorem key_injective : Function.Injective key := fun _ _ h =>
  ext (List.map_injective_iff.mpr (fun _ _ => BitVec.eq_of_toNat_eq) h)

end CStr

variable {s t : CStr} {a d l rest : List Byte} {c : Byte} {n i : ℕ}

/-! ## Blocks of memory -/

/-- **`memcpy_` copies**, as long as both objects are long enough. -/
theorem memcpy_eq (hd : n ≤ d.length) (hl : n ≤ l.length) :
    memcpy d l n = some (l.take n ++ d.drop n) := by
  induction n generalizing d l with
  | zero => simp [memcpy]
  | succ n ih =>
    match d, l with
    | [], _ => simp at hd
    | _ :: _, [] => simp at hl
    | _ :: d, b :: l => simp [memcpy, ih (by simpa using hd) (by simpa using hl)]

theorem memset_eq (hl : n ≤ l.length) :
    memset l c n = some (List.replicate n c ++ l.drop n) := by
  induction n generalizing l with
  | zero => simp [memset]
  | succ n ih =>
    match l with
    | [] => simp at hl
    | _ :: l => simp [memset, ih (by simpa using hl), List.replicate_succ]

theorem poke_eq (h : i < l.length) : poke l i c = some (l.set i c) := if_pos h

/-! ## The scans for a NUL -/

theorem strlen_append (h : 0#8 ∉ l) : strlen (l ++ 0#8 :: rest) = some l.length := by
  induction l with
  | nil => simp [strlen]
  | cons c l ih =>
    simp only [List.mem_cons, not_or] at h
    simp [strlen, Ne.symm h.1, ih h.2]

@[simp] theorem strlen_obj (s : CStr) : strlen s.obj = some s.bytes.length :=
  strlen_append s.nul_notMem

/-- A string ends with its NUL, whatever is behind. -/
theorem cstring_obj_append (s : CStr) (rest : List Byte) : cstring (s.obj ++ rest) = some s.obj := by
  have hlen : strlen (s.obj ++ rest) = some s.bytes.length := by
    rw [CStr.obj, List.append_assoc, List.singleton_append, strlen_append s.nul_notMem]
  rw [cstring, hlen, Option.map_eq_map, Option.map_some, List.take_left' (by simp [CStr.obj])]

theorem cstring_eq {p : List Byte} (h : 0#8 ∈ p) : cstring p = some (CStr.ofBytes p).obj := by
  have hsplit : p = (CStr.ofBytes p).obj ++ (p.dropWhile (· ≠ 0#8)).tail := by
    obtain ⟨a, l, hdrop⟩ : ∃ a l, p.dropWhile (· ≠ 0#8) = a :: l := by
      refine List.exists_cons_of_ne_nil fun hnil => ?_
      exact absurd (List.dropWhile_eq_nil_iff.mp hnil _ h) (by simp)
    have hzero : a = 0#8 := by
      have hhead := List.head?_dropWhile_not (· ≠ 0#8) p
      rw [hdrop] at hhead
      simpa using hhead
    rw [CStr.obj, hdrop, List.tail_cons, ← hzero, List.append_assoc, List.singleton_append, ← hdrop]
    exact (List.takeWhile_append_dropWhile).symm
  conv_lhs => rw [hsplit]
  exact cstring_obj_append _ _

/-- `strnlen_` stops at the NUL if its bound allows that many characters. -/
theorem strnlen_append_nul (h : 0#8 ∉ l) (hn : l.length ≤ n) :
    strnlen (l ++ 0#8 :: rest) n = some l.length := by
  induction l generalizing n with
  | nil => cases n <;> simp [strnlen]
  | cons c l ih =>
    simp only [List.mem_cons, not_or] at h
    cases n with
    | zero => simp at hn
    | succ n => simp [strnlen, Ne.symm h.1, ih h.2 (by simpa using hn)]

/-- …and at its bound if there is no NUL before it. -/
theorem strnlen_append (h : 0#8 ∉ l) : strnlen (l ++ rest) l.length = some l.length := by
  induction l with
  | nil => cases rest <;> simp [strnlen]
  | cons c l ih =>
    simp only [List.mem_cons, not_or] at h
    simp [strnlen, Ne.symm h.1, ih h.2]

theorem chars_append (h : 0#8 ∉ l) : chars (l ++ 0#8 :: rest) = l := by
  rw [chars, List.takeWhile_append_of_pos]
  · simp
  · intro c hc
    have hne : c ≠ 0#8 := by
      rintro rfl
      exact h hc
    simpa using hne

/-! ## Comparison -/

/-- The comparison of two bytes decides `strcmp_` unless they are equal and not NUL. -/
theorem strcmp_cons (a b : Byte) (s t : List Byte) : strcmp (a :: s) (b :: t)
    = if a ≠ 0#8 ∧ a = b then strcmp s t else some ((a.toNat : ℤ) - b.toNat) := rfl

/-- `strcmp_` does not look behind the ends of its strings. -/
theorem strcmp_append_append {r : ℤ} (h : strcmp a d = some r) (rest rest' : List Byte) :
    strcmp (a ++ rest) (d ++ rest') = some r := by
  induction a generalizing d with
  | nil => simp [strcmp] at h
  | cons a s ih =>
    cases d with
    | nil => simp [strcmp] at h
    | cons b t =>
      rw [strcmp_cons] at h
      rw [List.cons_append, List.cons_append, strcmp_cons]
      split
      · rename_i hab
        rw [if_pos hab] at h
        exact ih h
      · rename_i hab
        rwa [if_neg hab] at h

theorem strcmp_append {r : ℤ} (h : strcmp a d = some r) (rest : List Byte) :
    strcmp a (d ++ rest) = some r := by
  simpa using strcmp_append_append h [] rest

private theorem toNat_pos_of_ne {c : Byte} (h : c ≠ 0#8) : 0 < c.toNat :=
  Nat.pos_of_ne_zero fun h₀ => h (BitVec.eq_of_toNat_eq h₀)

/-- **`strcmp_` is the lexicographic comparison**: it stays inside both objects, its result is zero
on equal strings only, and positive exactly if the second string comes first. -/
theorem strcmp_obj (s t : CStr) :
    ∃ r, strcmp s.obj t.obj = some r ∧ (r = 0 ↔ s = t) ∧ (0 < r ↔ t.key < s.key) := by
  obtain ⟨s, hs⟩ := s
  obtain ⟨t, ht⟩ := t
  simp only [CStr.obj, CStr.key, CStr.mk.injEq]
  induction s generalizing t with
  | nil =>
    cases t with
    | nil => exact ⟨0, by simp [strcmp]⟩
    | cons b t =>
      simp only [List.mem_cons, not_or] at ht
      have hb : 0 < b.toNat := toNat_pos_of_ne (Ne.symm ht.1)
      refine ⟨(0 : ℤ) - b.toNat, by simp [strcmp], ?_, ?_⟩
      · simpa using hb.ne'
      · simp
  | cons a s ih =>
    simp only [List.mem_cons, not_or] at hs
    have ha : 0 < a.toNat := toNat_pos_of_ne (Ne.symm hs.1)
    cases t with
    | nil =>
      refine ⟨(a.toNat : ℤ) - 0, by simp [strcmp, Ne.symm hs.1], ?_, ?_⟩
      · simpa using ha.ne'
      · simpa using ha
    | cons b t =>
      simp only [List.mem_cons, not_or] at ht
      rw [List.cons_append, List.cons_append, strcmp_cons]
      by_cases hab : a = b
      · subst hab
        obtain ⟨r, hr, h₀, hpos⟩ := ih hs.2 t ht.2
        refine ⟨r, by simpa [Ne.symm hs.1] using hr, ?_, ?_⟩
        · simpa using h₀
        · simpa [List.cons_lt_cons_iff] using hpos
      · have hne : a.toNat ≠ b.toNat := fun h => hab (BitVec.eq_of_toNat_eq h)
        refine ⟨(a.toNat : ℤ) - b.toNat, by simp [hab], ?_, ?_⟩
        · simp only [List.cons.injEq, hab, false_and, iff_false]
          omega
        · simp only [List.map_cons, List.cons_lt_cons_iff, Ne.symm hne, false_and, or_false]
          omega

/-! ## The first byte -/

/-- `t[0] = s[0]`. -/
theorem poke_obj_head (hs : s.bytes = c :: l) (ht : t.bytes ≠ []) (rest : List Byte) :
    poke (t.obj ++ rest) 0 c = some ((s.withHead t).obj ++ rest) := by
  obtain ⟨b, m, hb, -⟩ := CStr.exists_cons ht
  have hlen : 0 < (t.obj ++ rest).length := by
    simp only [CStr.obj, List.length_append, List.length_singleton]
    omega
  rw [poke_eq hlen]
  simp [CStr.obj, CStr.withHead, hs, hb]

/-! ## Copies -/

/-- **`strcpy_`** stores the string and its NUL. -/
theorem strcpy_obj (h : s.bytes.length < d.length) :
    strcpy d s.obj = some (s.obj ++ d.drop (s.bytes.length + 1)) := by
  obtain ⟨s, hs⟩ := s
  simp only [CStr.obj] at h ⊢
  induction s generalizing d with
  | nil =>
    match d with
    | [] => simp at h
    | _ :: d => simp [strcpy]
  | cons c s ih =>
    simp only [List.mem_cons, not_or] at hs
    match d with
    | [] => simp at h
    | _ :: d => simp [strcpy, Ne.symm hs.1, ih hs.2 (by simpa using h)]

end LittleLoader
