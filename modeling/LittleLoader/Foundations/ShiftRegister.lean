import Mathlib.Data.List.Basic
import Mathlib.Logic.Function.Iterate
import Mathlib.Order.Basic

/-!
# Foundations/ShiftRegister — a feedback shift register, fed a bit at a time

The register shifts towards its low end and adds `poly` when a one falls out: the reflected form of
division by a polynomial.  Two facts carry everything below.

* Shifting is linear (`shift_xor`), and feeding up to `w` bits is the same as adding them to the
  register at once and shifting (`feedBits_eq`).  A table of `shifts 8` therefore computes the
  register a byte at a time (`shifts_eq_table`).
* If `poly` has its top bit, shifting loses nothing (`shift_injective`).  Two messages that differ
  in a **burst** of at most `w` bits leave different registers (`feedBits_burst`).
-/

namespace LittleLoader

namespace ShiftRegister

variable {w : ℕ} {poly r s x y : BitVec w} {b : Bool} {bs u v : List Bool}

/-- One shift towards the low end, with the feedback `poly`. -/
def shift (poly r : BitVec w) : BitVec w :=
  if r.getLsbD 0 then r >>> 1 ^^^ poly else r >>> 1

/-- `n` shifts. -/
def shifts (poly : BitVec w) (n : ℕ) : BitVec w → BitVec w := (shift poly)^[n]

/-- A bit in the low place of a register. -/
def ofBit (b : Bool) : BitVec w := if b then 1#w else 0#w

/-- One message bit, added at the low end before the shift. -/
def feedBit (poly r : BitVec w) (b : Bool) : BitVec w := shift poly (r ^^^ ofBit b)

/-- The register after a message. -/
def feedBits (poly : BitVec w) : BitVec w → List Bool → BitVec w := List.foldl (feedBit poly)

/-- Message bits as a register, the first one lowest. -/
def word : List Bool → BitVec w
  | [] => 0
  | b :: bs => ofBit b ^^^ word bs <<< 1

/-- The bits of a vector, the lowest one first. -/
def bits {n : ℕ} (x : BitVec n) : List Bool := (List.range n).map x.getLsbD

@[simp] theorem length_bits {n : ℕ} (x : BitVec n) : (bits x).length = n := by simp [bits]

@[simp] theorem feedBits_nil : feedBits poly r [] = r := rfl

@[simp] theorem feedBits_cons :
    feedBits poly r (b :: bs) = feedBits poly (feedBit poly r b) bs := rfl

theorem feedBits_append : feedBits poly r (u ++ v) = feedBits poly (feedBits poly r u) v :=
  List.foldl_append

@[simp] theorem shifts_zero : shifts poly 0 r = r := rfl

theorem shifts_succ (n : ℕ) : shifts poly (n + 1) r = shifts poly n (shift poly r) := rfl

/-! ## Linearity -/

/-- The bits of a shifted register. -/
theorem getLsbD_shift (i : ℕ) :
    (shift poly x).getLsbD i = (x.getLsbD (1 + i) ^^ (x.getLsbD 0 && poly.getLsbD i)) := by
  unfold shift
  cases hx : x.getLsbD 0 <;> simp

theorem shift_xor : shift poly (x ^^^ y) = shift poly x ^^^ shift poly y := by
  apply BitVec.eq_of_getLsbD_eq
  intro i _
  simp only [BitVec.getLsbD_xor, getLsbD_shift]
  cases x.getLsbD (1 + i) <;> cases y.getLsbD (1 + i) <;> cases x.getLsbD 0 <;>
    cases y.getLsbD 0 <;> cases poly.getLsbD i <;> rfl

theorem shifts_xor (n : ℕ) : shifts poly n (x ^^^ y) = shifts poly n x ^^^ shifts poly n y := by
  induction n generalizing x y with
  | zero => rfl
  | succ n ih => rw [shifts_succ, shifts_succ, shifts_succ, shift_xor, ih]

theorem shift_of_even (h : x.getLsbD 0 = false) : shift poly x = x >>> 1 := by
  simp [shift, h]

/-- **A register with clear low bits only moves down.** -/
theorem shifts_of_low_clear (n : ℕ) (h : ∀ i < n, x.getLsbD i = false) :
    shifts poly n x = x >>> n := by
  induction n generalizing x with
  | zero => simp
  | succ n ih =>
    rw [shifts_succ, shift_of_even (h 0 (by omega)), ih, ← BitVec.shiftRight_add, Nat.add_comm]
    intro i hi
    rw [BitVec.getLsbD_ushiftRight, Nat.add_comm]
    exact h (i + 1) (by omega)

/-! ## Feeding a word at once -/

theorem getLsbD_ofBit (hw : 0 < w) (i : ℕ) :
    (ofBit b : BitVec w).getLsbD i = (b && decide (i = 0)) := by
  cases b <;> simp [ofBit, BitVec.getLsbD_one, hw]

theorem getLsbD_word (hw : 0 < w) (i : ℕ) :
    (word bs : BitVec w).getLsbD i = (decide (i < w) && bs[i]?.getD false) := by
  induction bs generalizing i with
  | nil => simp [word]
  | cons b bs ih =>
    rw [word, BitVec.getLsbD_xor, getLsbD_ofBit hw, BitVec.getLsbD_shiftLeft, ih]
    cases i with
    | zero => simp [hw]
    | succ i =>
      by_cases hi : i + 1 < w
      · simp [hi, show i < w by omega]
      · simp [hi]

/-- **Up to `w` message bits may be added at once**: the register then shifts as often as there are
bits. -/
theorem feedBits_eq (hlen : bs.length ≤ w) :
    feedBits poly r bs = shifts poly bs.length (r ^^^ word bs) := by
  induction bs generalizing r with
  | nil => simp [word]
  | cons b bs ih =>
    have hlen' : bs.length < w := by simp only [List.length_cons] at hlen; omega
    have hw : 0 < w := by omega
    -- the rest of the message, one place up, falls back into place with the first shift
    have heven : (word bs <<< 1 : BitVec w).getLsbD 0 = false := by simp
    have hdown : (word bs <<< 1 : BitVec w) >>> 1 = word bs := by
      apply BitVec.eq_of_getLsbD_eq
      intro i hi
      rw [BitVec.getLsbD_ushiftRight, BitVec.getLsbD_shiftLeft]
      by_cases h : 1 + i < w
      · simp [h]
      · have hbs : bs[i]? = none := List.getElem?_eq_none (by omega)
        simp [h, getLsbD_word hw, hbs]
    rw [feedBits_cons, ih (Nat.le_of_lt hlen'), List.length_cons, shifts_succ, word, ← BitVec.xor_assoc,
      shift_xor, shift_of_even heven, hdown, feedBit]

theorem word_bits {n : ℕ} (x : BitVec n) (hw : 0 < w) : word (bits x) = x.setWidth w := by
  apply BitVec.eq_of_getLsbD_eq
  intro i hi
  rw [getLsbD_word hw, BitVec.getLsbD_setWidth]
  by_cases h : i < n
  · simp [bits, h, hi]
  · simp [bits, h, BitVec.getLsbD_of_ge x i (by omega)]

/-- **A byte at a time from a table**: `n` shifts of a register are those of its low `n` bits, and
the rest of it moved down `n` places. -/
theorem shifts_eq_table (n : ℕ) {m : BitVec w} (hm : ∀ i < w, m.getLsbD i = decide (i < n)) :
    shifts poly n x = shifts poly n (x &&& m) ^^^ x >>> n := by
  have hsplit : x = (x &&& m) ^^^ (x &&& ~~~m) := by
    ext i hi
    simp only [BitVec.getElem_xor, BitVec.getElem_and, BitVec.getElem_not]
    cases x[i] <;> cases m[i] <;> rfl
  have hclear : ∀ i < n, (x &&& ~~~m).getLsbD i = false := by
    intro i hi
    rw [BitVec.getLsbD_and, BitVec.getLsbD_not]
    by_cases hiw : i < w
    · simp [hiw, hm i hiw, hi]
    · simp [hiw]
  have hmoved : (x &&& ~~~m) >>> n = x >>> n := by
    apply BitVec.eq_of_getLsbD_eq
    intro i _
    rw [BitVec.getLsbD_ushiftRight, BitVec.getLsbD_ushiftRight, BitVec.getLsbD_and,
      BitVec.getLsbD_not]
    by_cases hiw : n + i < w
    · rw [hm (n + i) hiw]
      simp [hiw]
    · simp [BitVec.getLsbD_of_ge x (n + i) (by omega)]
  conv_lhs => rw [hsplit, shifts_xor, shifts_of_low_clear n hclear, hmoved]

/-! ## Bursts -/

/-- **With its top bit in `poly` the register loses nothing**: the top bit of the result is the bit
that fell out. -/
theorem shift_injective (hpoly : poly.getLsbD (w - 1) = true) :
    Function.Injective (shift poly) := by
  intro x y h
  rcases Nat.eq_zero_or_pos w with rfl | hw
  · exact BitVec.eq_of_toNat_eq (by omega)
  have htop : x.getLsbD 0 = y.getLsbD 0 := by
    have := congrArg (·.getLsbD (w - 1)) h
    simp only [getLsbD_shift, hpoly, Bool.and_true] at this
    rwa [BitVec.getLsbD_of_ge x _ (by omega), BitVec.getLsbD_of_ge y _ (by omega),
      Bool.false_xor, Bool.false_xor] at this
  apply BitVec.eq_of_getLsbD_eq
  intro i hi
  cases i with
  | zero => exact htop
  | succ i =>
    have := congrArg (·.getLsbD i) h
    simp only [getLsbD_shift, htop] at this
    rw [Nat.add_comm i 1]
    exact Bool.xor_left_inj.mp this

theorem shifts_injective (hpoly : poly.getLsbD (w - 1) = true) (n : ℕ) :
    Function.Injective (shifts poly n) := (shift_injective hpoly).iterate n

/-- What the register holds survives any further message. -/
theorem feedBits_injective (hpoly : poly.getLsbD (w - 1) = true) (bs : List Bool) :
    Function.Injective (feedBits poly · bs) := by
  induction bs with
  | nil => exact fun _ _ h => h
  | cons b bs ih =>
    intro r s h
    have := shift_injective hpoly (ih h)
    exact (BitVec.xor_left_inj _).mp this

theorem word_injective (hw : 0 < w) (hu : u.length ≤ w) (huv : u.length = v.length)
    (h : (word u : BitVec w) = word v) : u = v := by
  apply List.ext_getElem huv
  intro i hi hi'
  have := congrArg (·.getLsbD i) h
  simp only [getLsbD_word hw, show i < w by omega, decide_true, Bool.true_and] at this
  simpa [hi, hi'] using this

/-- **Bursts are detected**: messages that differ, and only in a window of at most `w` bits, leave
different registers. -/
theorem feedBits_burst (hpoly : poly.getLsbD (w - 1) = true) (hu : u.length ≤ w)
    (huv : u.length = v.length) {front back : List Bool}
    (h : feedBits poly r (front ++ u ++ back) = feedBits poly r (front ++ v ++ back)) :
    u = v := by
  rcases Nat.eq_zero_or_pos w with rfl | hw
  · rw [List.eq_nil_of_length_eq_zero (by omega : u.length = 0),
      List.eq_nil_of_length_eq_zero (by omega : v.length = 0)]
  have hv : v.length ≤ w := huv ▸ hu
  simp only [feedBits_append] at h
  have h₁ := feedBits_injective hpoly back h
  generalize feedBits poly r front = s at h₁
  rw [feedBits_eq hu, feedBits_eq hv, huv] at h₁
  exact word_injective hw hu huv ((BitVec.xor_right_inj _).mp (shifts_injective hpoly _ h₁))

end ShiftRegister

end LittleLoader
