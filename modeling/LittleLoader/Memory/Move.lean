import Mathlib.Algebra.Group.Nat.Defs
import LittleLoader.Foundations.Segments
import LittleLoader.Machine.Memory

/-!
# Memory/Move — what `memmove_` stores

    memmove m dest src n  ~  M.write dest (M.read src n)      where m ~ M

The memory of the machine is followed on a memory without end (`Agrees`), where no address wraps.
There each loop goes in the direction in which a byte is read before it is overwritten, so a move is
one write of the bytes that were at the source, whatever overlaps.
-/

namespace LittleLoader

open Memory

variable {m : Ram} {M : Memory Byte} {d s n : ℕ}

/-! ## The memory without end -/

/-- A move between numbers is a write of what was at the source. -/
theorem Mem.memmove_eq (m : Mem) (d s n : ℕ) : m.memmove d s n = m.write d (m.read s n) := by
  unfold memmove
  split
  · exact copyUp_eq (by omega)
  · exact copyDown_eq (by omega)

/-- The memories agree on the addresses that there are. -/
def Agrees (m : Ram) (M : Memory Byte) : Prop := ∀ a < 2 ^ 64, m (BitVec.ofNat 64 a) = M a

theorem ofNat_toNat (p : Pointer) : BitVec.ofNat 64 p.toNat = p := by simp

namespace Agrees

/-- The memory of the machine, continued without end. -/
theorem extend (m : Ram) : Agrees m fun a => m (BitVec.ofNat 64 a) := fun _ _ => rfl

/-- **A round of a loop**: one byte is copied. -/
theorem copy (h : Agrees m M) (hd : d < 2 ^ 64) (hs : s < 2 ^ 64) :
    Agrees (Function.update m (BitVec.ofNat 64 d) (m (BitVec.ofNat 64 s)))
      (Function.update M d (M s)) := by
  intro a ha
  have hinj : BitVec.ofNat 64 a = BitVec.ofNat 64 d ↔ a = d := by
    rw [← BitVec.toNat_inj, BitVec.toNat_ofNat, BitVec.toNat_ofNat, Nat.mod_eq_of_lt ha,
      Nat.mod_eq_of_lt hd]
  simp only [Function.update_apply, hinj, h s hs, h a ha]

theorem moveUp (h : Agrees m M) (hd : d + n ≤ 2 ^ 64) (hs : s + n ≤ 2 ^ 64) :
    Agrees (m.moveUp (BitVec.ofNat 64 d) (BitVec.ofNat 64 s) n) (M.copyUp d s n) := by
  induction n generalizing m M d s with
  | zero => exact h
  | succ n ih =>
    have hstep := ih (h.copy (d := d) (s := s) (by omega) (by omega)) (d := d + 1) (s := s + 1)
      (by omega) (by omega)
    rw [BitVec.ofNat_add, BitVec.ofNat_add] at hstep
    exact hstep

theorem moveDown (h : Agrees m M) (hd : d + n ≤ 2 ^ 64) (hs : s + n ≤ 2 ^ 64) :
    Agrees (m.moveDown (BitVec.ofNat 64 (d + n)) (BitVec.ofNat 64 (s + n)) n)
      (M.copyDown (d + n) (s + n) n) := by
  induction n generalizing m M with
  | zero => exact h
  | succ n ih =>
    have hlast (a : ℕ) : BitVec.ofNat 64 (a + (n + 1)) - 1 = BitVec.ofNat 64 (a + n) := by
      rw [← Nat.add_assoc, BitVec.ofNat_add]
      exact BitVec.add_sub_cancel _ _
    rw [Ram.moveDown, hlast, hlast]
    exact ih (h.copy (by omega) (by omega)) (by omega) (by omega)

/-- **A move is a write** of what was at the source. -/
theorem memmove (h : Agrees m M) {dest src : Pointer} (hd : dest.toNat + n ≤ 2 ^ 64)
    (hs : src.toNat + n ≤ 2 ^ 64) :
    Agrees (m.memmove dest src n) (M.write dest.toNat (M.read src.toNat n)) := by
  have hadd (p : Pointer) : p + BitVec.ofNat 64 n = BitVec.ofNat 64 (p.toNat + n) := by
    rw [BitVec.ofNat_add, ofNat_toNat]
  unfold Ram.memmove
  split
  · rename_i hlt
    have hup := h.moveUp hd hs
    rwa [copyUp_eq (.inl (Nat.le_of_lt (BitVec.lt_def.mp hlt))), ofNat_toNat, ofNat_toNat] at hup
  · rename_i hlt
    have hle : src.toNat ≤ dest.toNat := Nat.le_of_not_lt hlt
    have hdown := h.moveDown hd hs
    rwa [copyDown_eq (.inl hle), ← hadd, ← hadd] at hdown

end Agrees

/-! ## `memmove_` -/

/-- **`memmove_` moves the bytes**, and changes no others: for `dest` below, above or at `src`, with
any overlap, the `n` bytes at `dest` are those that were at `src`. -/
theorem memmove_moves (m : Ram) (dest src : Pointer) (n : ℕ) (hd : dest.toNat + n ≤ 2 ^ 64)
    (hs : src.toNat + n ≤ 2 ^ 64) :
    (∀ i < n, m.memmove dest src n (dest + BitVec.ofNat 64 i) = m (src + BitVec.ofNat 64 i)) ∧
      ∀ a : Pointer, a.toNat < dest.toNat ∨ dest.toNat + n ≤ a.toNat →
        m.memmove dest src n a = m a := by
  have hmove := (Agrees.extend m).memmove hd hs
  have hlen := length_read (fun a => m (BitVec.ofNat 64 a)) src.toNat n
  refine ⟨fun i hi => ?_, fun a ha => ?_⟩
  · have hget := hmove (dest.toNat + i) (by omega)
    rwa [write_of_inside (by rwa [hlen]), getElem_read, BitVec.ofNat_add, BitVec.ofNat_add,
      ofNat_toNat, ofNat_toNat] at hget
  · have hget := hmove a.toNat a.isLt
    rwa [write_of_outside (by rwa [hlen]), ofNat_toNat] at hget

/-- Three bytes move up by one, onto two of themselves: the last of them. -/
theorem memmove_moves_overlap :
    Ram.memmove (fun a => a.setWidth 8) 1 0 3 (1 + BitVec.ofNat 64 2)
      = (0 + BitVec.ofNat 64 2).setWidth 8 :=
  (memmove_moves (fun a => a.setWidth 8) 1 0 3 (by decide) (by decide)).1 2 (by decide)

end LittleLoader
