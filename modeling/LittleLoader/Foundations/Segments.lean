import Mathlib.Data.Nat.Notation
import Mathlib.Logic.Function.Basic

/-!
# Foundations/Segments — segments of a memory

    Has m a (xs ++ ys)   ↔   Has m a xs  ∧  Has m (a + xs.length) ys

A memory is a function of the address.  `Has m a xs` says that the cells from `a` on hold `xs`; a
memory is changed by writing lists (`write`), and what a write does to a segment follows from where
it is: it replaces a part of the segment (`Has.write_middle`), or leaves it alone
(`Has.write_of_disjoint`).  A copy cell by cell is the write of what was read, if it goes in the
direction in which no cell is overwritten before it is read (`copyUp_eq`, `copyDown_eq`).
-/

namespace LittleLoader

variable {β : Type}

/-- A memory: the cell at each address. -/
abbrev Memory (β : Type) := ℕ → β

namespace Memory

variable {m m' m'' : Memory β} {a b d i k n s : ℕ} {x : β} {xs ys zs : List β}

/-- The `n` cells from `a` on. -/
def read (m : Memory β) (a n : ℕ) : List β := (List.range n).map fun i => m (a + i)

/-- The memory with the list stored from `a` on. -/
def write (m : Memory β) (a : ℕ) (xs : List β) : Memory β := fun i =>
  if i < a then m i else xs[i - a]?.getD (m i)

/-- **The segment** from `a` on. -/
def Has (m : Memory β) (a : ℕ) (xs : List β) : Prop := m.read a xs.length = xs

/-- Only the `n` cells from `a` on have changed. -/
def SameOutside (a n : ℕ) (m m' : Memory β) : Prop := ∀ i, i < a ∨ a + n ≤ i → m' i = m i

/-! ## Reading -/

@[simp] theorem length_read (m : Memory β) (a n : ℕ) : (m.read a n).length = n := by simp [read]

@[simp] theorem getElem_read (hi : i < (m.read a n).length) : (m.read a n)[i] = m (a + i) := by
  simp [read]

@[simp] theorem read_zero (m : Memory β) (a : ℕ) : m.read a 0 = [] := rfl

theorem read_succ (m : Memory β) (a n : ℕ) : m.read a (n + 1) = m a :: m.read (a + 1) n := by
  simp only [read, List.range_succ_eq_map, List.map_cons, List.map_map, Nat.add_zero]
  congr 1
  exact List.map_congr_left fun _ _ => congrArg m (by simp only [Nat.succ_eq_add_one]; omega)

theorem read_add (m : Memory β) (a k n : ℕ) :
    m.read a (k + n) = m.read a k ++ m.read (a + k) n := by
  simp [read, List.range_add, Function.comp_def, Nat.add_assoc]

/-- Memories that agree on the cells. -/
theorem read_congr (h : ∀ i, a ≤ i → i < a + n → m' i = m i) : m'.read a n = m.read a n :=
  List.map_congr_left fun _ hi => h _ (Nat.le_add_right _ _)
    (Nat.add_lt_add_left (List.mem_range.mp hi) a)

/-! ## Segments -/

theorem has_read (m : Memory β) (a n : ℕ) : Has m a (m.read a n) := by
  rw [Has, length_read]

/-- Cells hold something. -/
theorem exists_has (m : Memory β) (a n : ℕ) : ∃ xs : List β, xs.length = n ∧ Has m a xs :=
  ⟨m.read a n, length_read m a n, has_read m a n⟩

@[simp] theorem has_nil : Has m a [] := rfl

theorem has_cons : Has m a (x :: xs) ↔ m a = x ∧ Has m (a + 1) xs := by
  rw [Has, List.length_cons, read_succ, List.cons.injEq]
  rfl

/-- **A segment of two parts.** -/
theorem has_append : Has m a (xs ++ ys) ↔ Has m a xs ∧ Has m (a + xs.length) ys := by
  rw [Has, List.length_append, read_add]
  constructor
  · intro h
    exact List.append_inj h (length_read _ _ _)
  · rintro ⟨hx, hy⟩
    rw [hx, hy]

theorem Has.left (h : Has m a (xs ++ ys)) : Has m a xs := (has_append.mp h).1

theorem Has.right (h : Has m a (xs ++ ys)) : Has m (a + xs.length) ys := (has_append.mp h).2

theorem Has.read_eq (h : Has m a xs) (hn : n = xs.length) : m.read a n = xs := hn ▸ h

theorem Has.getElem (h : Has m a xs) (hi : i < xs.length) : m (a + i) = xs[i] := by
  have hread : i < (m.read a xs.length).length := by rwa [length_read]
  rw [← getElem_read hread]
  exact List.getElem_of_eq h _

theorem Has.read_take (h : Has m a xs) (hn : n ≤ xs.length) : m.read a n = xs.take n := by
  rw [← List.take_append_drop n xs] at h
  exact h.left.read_eq (List.length_take_of_le hn).symm

/-- A segment goes on with whatever is behind it. -/
theorem Has.exists_extend (h : Has m a xs) (hn : xs.length ≤ n) :
    ∃ ys : List β, ys.length = n ∧ xs <+: ys ∧ Has m a ys := by
  obtain ⟨ys, hlen, hys⟩ := exists_has m (a + xs.length) (n - xs.length)
  refine ⟨xs ++ ys, ?_, List.prefix_append _ _, has_append.mpr ⟨h, hys⟩⟩
  rw [List.length_append, hlen]
  omega

theorem Has.unique (h : Has m a xs) (h' : Has m a ys) (hlen : xs.length = ys.length) : xs = ys := by
  rw [← h, ← h', hlen]

theorem Has.congr (h : Has m a xs) (hm : ∀ i, a ≤ i → i < a + xs.length → m' i = m i) :
    Has m' a xs := (read_congr hm).trans h

/-! ## Writing -/

/-- **What was written is there.** -/
theorem write_of_inside (hi : i < xs.length) : m.write a xs (a + i) = xs[i] := by
  rw [write, if_neg (Nat.not_lt.mpr (Nat.le_add_right a i)), Nat.add_sub_cancel_left,
    List.getElem?_eq_getElem hi, Option.getD_some]

/-- …and the rest is as it was. -/
theorem write_of_outside (h : i < a ∨ a + xs.length ≤ i) : m.write a xs i = m i := by
  unfold write
  split
  · rfl
  · rw [List.getElem?_eq_none (by omega), Option.getD_none]

/-- The cells of a write, and those before and behind it. -/
theorem inside_or_outside (a n i : ℕ) : (∃ k < n, i = a + k) ∨ i < a ∨ a + n ≤ i := by
  by_cases h : i < a ∨ a + n ≤ i
  · exact .inr h
  · exact .inl ⟨i - a, by omega, by omega⟩

@[simp] theorem write_nil : m.write a [] = m := by
  funext i
  exact write_of_outside (by simp only [List.length_nil]; omega)

theorem write_cons : m.write a (x :: xs) = Memory.write (Function.update m a x) (a + 1) xs := by
  funext i
  rcases inside_or_outside (a + 1) xs.length i with ⟨k, hk, rfl⟩ | hout
  · have hadd : a + 1 + k = a + (k + 1) := by omega
    rw [write_of_inside hk, hadd, write_of_inside (Nat.succ_lt_succ hk), List.getElem_cons_succ]
  · rw [write_of_outside hout]
    rcases inside_or_outside a 1 i with ⟨k, hk, rfl⟩ | hne
    · obtain rfl : k = 0 := by omega
      rw [write_of_inside (Nat.succ_pos _), Nat.add_zero, Function.update_self]
      rfl
    · rw [write_of_outside (by simp only [List.length_cons]; omega),
        Function.update_of_ne (by omega)]

/-- A list is written in two parts, the last one first. -/
theorem write_append : m.write a (xs ++ ys) = (m.write (a + xs.length) ys).write a xs := by
  funext i
  rcases inside_or_outside a xs.length i with ⟨k, hk, rfl⟩ | hout
  · have hk' : k < (xs ++ ys).length := by
      rw [List.length_append]
      omega
    rw [write_of_inside hk, write_of_inside hk', List.getElem_append_left hk]
  · rw [write_of_outside hout]
    rcases inside_or_outside (a + xs.length) ys.length i with ⟨k, hk, rfl⟩ | hout'
    · have hk' : xs.length + k < (xs ++ ys).length := by
        rw [List.length_append]
        omega
      rw [write_of_inside hk, Nat.add_assoc, write_of_inside hk',
        List.getElem_append_right (Nat.le_add_right _ _)]
      simp only [Nat.add_sub_cancel_left]
    · rw [write_of_outside hout', write_of_outside]
      rw [List.length_append]
      omega

/-- A list is written part by part, from the front. -/
theorem write_append_front :
    m.write a (xs ++ ys) = Memory.write (m.write a xs) (a + xs.length) ys := by
  induction xs generalizing m a with
  | nil => simp
  | cons x xs ih =>
    rw [List.cons_append, write_cons, write_cons, ih, List.length_cons, Nat.add_right_comm,
      Nat.add_assoc]

/-! ## Segments and writes -/

theorem has_write (m : Memory β) (a : ℕ) (xs : List β) : Has (m.write a xs) a xs := by
  refine List.ext_getElem (length_read _ _ _) fun i _ hi => ?_
  rw [getElem_read, write_of_inside hi]

/-- A segment elsewhere is left alone. -/
theorem Has.write_of_disjoint (h : Has m b ys) (hd : b + ys.length ≤ a ∨ a + xs.length ≤ b) :
    Has (m.write a xs) b ys :=
  h.congr fun _ _ _ => write_of_outside (by omega)

/-- **A part of a segment is replaced.** -/
theorem Has.write_middle {ys' : List β} (h : Has m a (xs ++ (ys ++ zs))) (hk : k = a + xs.length)
    (hlen : ys'.length = ys.length) : Has (m.write k ys') a (xs ++ (ys' ++ zs)) := by
  subst hk
  refine has_append.mpr ⟨h.left.write_of_disjoint (.inl (Nat.le_refl _)),
    has_append.mpr ⟨has_write _ _ _, ?_⟩⟩
  rw [hlen]
  exact h.right.right.write_of_disjoint (.inr (Nat.le_of_eq (by rw [hlen])))

/-! ## What has not changed -/

namespace SameOutside

theorem refl (a n : ℕ) (m : Memory β) : SameOutside a n m m := fun _ _ => rfl

theorem trans (h : SameOutside a n m m') (h' : SameOutside a n m' m'') : SameOutside a n m m'' :=
  fun i hi => (h' i hi).trans (h i hi)

/-- A write inside. -/
theorem write (m : Memory β) (h : a ≤ b) (h' : b + xs.length ≤ a + n) :
    SameOutside a n m (m.write b xs) := fun _ _ => write_of_outside (by omega)

end SameOutside

/-! ## Copying cell by cell -/

/-- The copy of `n` cells from the lowest address up. -/
def copyUp (m : Memory β) (d s : ℕ) : ℕ → Memory β
  | 0 => m
  | n + 1 => copyUp (Function.update m d (m s)) (d + 1) (s + 1) n

/-- The copy of `n` cells down from the addresses behind them. -/
def copyDown (m : Memory β) (d s : ℕ) : ℕ → Memory β
  | 0 => m
  | n + 1 => copyDown (Function.update m (d - 1) (m (s - 1))) (d - 1) (s - 1) n

/-- **The copy up**: what is left of the source is above what has been stored. -/
theorem copyUp_eq (h : d ≤ s ∨ s + n ≤ d) : m.copyUp d s n = m.write d (m.read s n) := by
  induction n generalizing m d s with
  | zero => simp [copyUp]
  | succ n ih =>
    have hread : Memory.read (Function.update m d (m s)) (s + 1) n = m.read (s + 1) n :=
      read_congr fun i _ _ => Function.update_of_ne (by omega) _ _
    rw [copyUp, ih (by omega), hread, read_succ, write_cons]

/-- **The copy down**: what is left of the source is below what has been stored. -/
theorem copyDown_eq (h : s ≤ d ∨ d + n ≤ s) :
    m.copyDown (d + n) (s + n) n = m.write d (m.read s n) := by
  induction n generalizing m with
  | zero => simp [copyDown]
  | succ n ih =>
    have hread : Memory.read (Function.update m (d + n) (m (s + n))) s n = m.read s n :=
      read_congr fun i _ _ => Function.update_of_ne (by omega) _ _
    have hlast : m.read s (n + 1) = m.read s n ++ [m (s + n)] := by
      rw [read_add, read_succ]
      rfl
    have hd : d + (n + 1) - 1 = d + n := rfl
    have hs : s + (n + 1) - 1 = s + n := rfl
    rw [copyDown, hd, hs, ih (by omega), hread, hlast, write_append, length_read, write_cons,
      write_nil]

end Memory

end LittleLoader
