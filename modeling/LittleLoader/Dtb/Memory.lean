import Mathlib.Tactic.IntervalCases
import LittleLoader.Machine.Dtb
import LittleLoader.Strings.CStr

/-!
# Dtb/Memory — what the functions on the memory store and find

    m.memcpyFrom d b n  =  m.write d (b.take n)

Every store is the write of a list, so a segment of the memory is followed through it by the lemmas
on writes.
-/

namespace LittleLoader

/-! ## Strings of the program -/

namespace CStr

variable {s : CStr} {i : ℕ}

theorem length_obj (s : CStr) : s.obj.length = s.bytes.length + 1 := by
  rw [obj, List.length_append, List.length_singleton]

theorem take_obj (s : CStr) : s.obj.take s.bytes.length = s.bytes := List.take_left

theorem getElem_obj (hi : i < s.obj.length) : s.obj[i] = s.bytes[i]?.getD 0#8 := by
  rw [length_obj] at hi
  rcases Nat.lt_or_ge i s.bytes.length with hlt | hge
  · simp only [obj, List.getElem_append_left hlt, List.getElem?_eq_getElem hlt, Option.getD_some]
  · obtain rfl : i = s.bytes.length := by omega
    simp [obj]

theorem fetch_strlen (s : CStr) : fetch (strlen s.obj) = (.ok s.bytes.length : MemM ℕ) := by
  rw [strlen_obj]
  rfl

end CStr

namespace Mem

open Memory

variable {m : Mem} {d s p n x : ℕ} {xs ys b : List Byte} {c : Byte}

theorem ok_bind {α β : Type} (a : α) (f : α → MemM β) : ((.ok a : MemM α) >>= f) = f a := rfl

theorem pure_eq {α : Type} (a : α) : (pure a : MemM α) = .ok a := rfl

/-! ## Copies -/

theorem memcpy_eq (h : d + n ≤ s ∨ s + n ≤ d) : m.memcpy d s n = m.write d (m.read s n) :=
  copyUp_eq (by omega)

theorem memcpyFrom_eq (h : n ≤ b.length) : m.memcpyFrom d b n = .ok (m.write d (b.take n)) := by
  induction n generalizing m d b with
  | zero => simp [memcpyFrom, pure, Except.pure]
  | succ n ih =>
    match b with
    | [] => simp at h
    | c :: b =>
      rw [memcpyFrom, ih (by simpa using h), List.take_succ_cons, write_cons]

theorem memset_eq : m.memset d c n = m.write d (List.replicate n c) := by
  induction n generalizing m d with
  | zero => simp [memset]
  | succ n ih => rw [memset, ih, List.replicate_succ, write_cons]

/-! ## Comparisons and searches -/

/-- **`memcmp_`** is 0 exactly for equal bytes. -/
theorem exists_memcmp (h : n ≤ b.length) :
    ∃ r, m.memcmp p b n = .ok r ∧ (r = 0 ↔ m.read p n = b.take n) := by
  induction n generalizing p b with
  | zero => exact ⟨0, rfl, by simp⟩
  | succ n ih =>
    match b with
    | [] => simp at h
    | c :: b =>
      rw [memcmp, read_succ, List.take_succ_cons, List.cons.injEq]
      by_cases hc : m p = c
      · rw [if_neg (not_not.mpr hc)]
        simpa only [hc, true_and] using ih (p := p + 1) (b := b) (by simpa using h)
      · rw [if_pos hc]
        refine ⟨_, rfl, iff_of_false ?_ fun h => hc h.1⟩
        split <;> decide

theorem memchr_eq (h : Has m s (xs ++ [c])) (hnot : c ∉ xs) (hn : xs.length < n) :
    m.memchr s c n = some (s + xs.length) := by
  induction xs generalizing s n with
  | nil =>
    obtain ⟨n, rfl⟩ : ∃ k, n = k + 1 := ⟨n - 1, by simp at hn; omega⟩
    rw [memchr, if_pos (has_cons.mp h).1]
    rfl
  | cons x xs ih =>
    obtain ⟨n, rfl⟩ : ∃ k, n = k + 1 := ⟨n - 1, by simp at hn; omega⟩
    obtain ⟨hx, hxs⟩ := has_cons.mp h
    obtain ⟨hne, hnot⟩ := not_or.mp (List.mem_cons.not.mp hnot)
    rw [memchr, if_neg (hx ▸ Ne.symm hne), ih hxs hnot (by simpa using hn), List.length_cons,
      Nat.add_right_comm, Nat.add_assoc]

theorem strlenLoop_eq (h : Has m s (xs ++ [0#8])) (hnot : 0#8 ∉ xs) (hn : xs.length < n) :
    m.strlenLoop n s = .ok xs.length := by
  induction xs generalizing s n with
  | nil =>
    obtain ⟨n, rfl⟩ : ∃ k, n = k + 1 := ⟨n - 1, by simp at hn; omega⟩
    rw [strlenLoop, if_pos (has_cons.mp h).1]
    rfl
  | cons x xs ih =>
    obtain ⟨n, rfl⟩ : ∃ k, n = k + 1 := ⟨n - 1, by simp at hn; omega⟩
    obtain ⟨hx, hxs⟩ := has_cons.mp h
    obtain ⟨hne, hnot⟩ := not_or.mp (List.mem_cons.not.mp hnot)
    rw [strlenLoop, if_neg (hx ▸ Ne.symm hne), ih hxs hnot (by simpa using hn)]
    rfl

/-- **`strlen_`** of a string in the memory. -/
theorem strlen_eq {t : CStr} (h : Has m s t.obj) (hs : s + t.obj.length ≤ 0x10000000000000000) :
    m.strlen s = .ok t.bytes.length := by
  rw [t.length_obj] at hs
  exact strlenLoop_eq h t.nul_notMem (by omega)

/-! ## Words -/

@[simp] theorem length_be32 (x : ℕ) : (be32 x).length = 4 := rfl

/-- **A word that was stored is loaded.** -/
theorem ld32_eq (h : Has m p (be32 x)) (hx : x < 0x100000000) : m.ld32 p = x := by
  obtain ⟨h₀, h₁, h₂, h₃, -⟩ : m p = _ ∧ m (p + 1) = _ ∧ m (p + 2) = _ ∧ m (p + 3) = _ ∧ True := by
    simpa only [be32, has_cons, has_nil, Nat.add_assoc] using h
  rw [ld32, h₀, h₁, h₂, h₃]
  simp only [BitVec.toNat_ofNat]
  omega

theorem ld32_lt (m : Mem) (p : ℕ) : m.ld32 p < 0x100000000 := by
  have h₀ := (m p).isLt
  have h₁ := (m (p + 1)).isLt
  have h₂ := (m (p + 2)).isLt
  have h₃ := (m (p + 3)).isLt
  unfold ld32
  omega

/-- Four bytes, least significant first. -/
theorem toNat_join (b₀ b₁ b₂ b₃ : Byte) :
    (b₀.setWidth 32 ||| b₁.setWidth 32 <<< 8 ||| b₂.setWidth 32 <<< 16 |||
      b₃.setWidth 32 <<< 24 : BitVec 32).toNat =
      b₀.toNat + b₁.toNat * 0x100 + b₂.toNat * 0x10000 + b₃.toNat * 0x1000000 := by
  have h₀ := b₀.isLt
  have h₁ := b₁.isLt
  have h₂ := b₂.isLt
  have h₃ := b₃.isLt
  have hor (a b i : ℕ) (h : a < 2 ^ i) : a ||| b <<< i = a + b * 2 ^ i := by
    rw [Nat.or_comm, ← Nat.shiftLeft_add_eq_or_of_lt h, Nat.shiftLeft_eq, Nat.add_comm]
  have hshift (b i : ℕ) (hb : b < 256) (hi : i ≤ 24) : b <<< i % 2 ^ 32 = b <<< i := by
    refine Nat.mod_eq_of_lt ?_
    rw [Nat.shiftLeft_eq]
    calc b * 2 ^ i ≤ b * 2 ^ 24 := Nat.mul_le_mul_left _ (Nat.pow_le_pow_right (by decide) hi)
      _ < 2 ^ 32 := by omega
  have hmod (b : Byte) : b.toNat % 2 ^ 32 = b.toNat := Nat.mod_eq_of_lt (by have := b.isLt; omega)
  simp only [BitVec.toNat_or, BitVec.toNat_shiftLeft, BitVec.toNat_setWidth, hmod]
  rw [hshift _ 8 h₁ (by decide), hshift _ 16 h₂ (by decide), hshift _ 24 h₃ (by decide),
    hor b₀.toNat b₁.toNat 8 (by omega), hor (b₀.toNat + _) b₂.toNat 16 (by omega),
    hor (b₀.toNat + _ + _) b₃.toNat 24 (by omega)]
  norm_num

/-- **The word is turned round.** -/
theorem toNat_be32ToLe32 (m : Mem) (p : ℕ) : (be32ToLe32 (m.ldWord p)).toNat = m.ld32 p := by
  have hturn (b₀ b₁ b₂ b₃ : Byte) : be32ToLe32 (b₀.setWidth 32 ||| b₁.setWidth 32 <<< 8 |||
      b₂.setWidth 32 <<< 16 ||| b₃.setWidth 32 <<< 24) = b₃.setWidth 32 |||
        b₂.setWidth 32 <<< 8 ||| b₁.setWidth 32 <<< 16 ||| b₀.setWidth 32 <<< 24 := by
    apply BitVec.eq_of_getLsbD_eq
    intro i hi
    simp only [be32ToLe32, BitVec.getLsbD_or, BitVec.getLsbD_and, BitVec.getLsbD_shiftLeft,
      BitVec.getLsbD_setWidth, BitVec.getLsbD_ushiftRight]
    interval_cases i <;> simp
  rw [ldWord, hturn, toNat_join, ld32]
  omega

end Mem

end LittleLoader
