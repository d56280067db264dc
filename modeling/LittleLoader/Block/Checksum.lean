import Mathlib.Tactic.IntervalCases
import LittleLoader.Foundations.ShiftRegister
import LittleLoader.Machine.UbootEnv

/-!
# Block/Checksum — `crc32buf` computes CRC-32, and the CRC field holds it

    crc32 bytes  =  ~ (the register, all ones at first, after the bits of the bytes)

The table of `crc32.c` holds eight shifts of every byte (`crc32Tab_eq`), so a step of `UPDC32`
feeds the register eight bits and `crc32buf` computes `crc32` (`crc32buf_eq`).  A block is
**sealed** when its first four bytes are the checksum of the others.
-/

namespace LittleLoader

open ShiftRegister

variable {block bytes buf rest : List Byte} {crc x y : BitVec 32} {octet : Byte} {n : ℕ}

/-! ## CRC-32 -/

/-- The feedback of CRC-32. -/
def crcPoly : BitVec 32 := 0xedb88320

/-- The bits of a message, those of each byte lowest first. -/
def messageBits (bytes : List Byte) : List Bool := bytes.flatMap bits

/-- **CRC-32**, bit by bit. -/
def crc32 (bytes : List Byte) : BitVec 32 :=
  ~~~ feedBits crcPoly 0xffffffff (messageBits bytes)

/-- The value of the check over the digits 1 to 9. -/
example : crc32 ("123456789".toList.map chr) = 0xcbf43926 := by decide +kernel

/-! ## The table -/

/-- **The table holds eight shifts of every byte.** -/
theorem crc32Tab_eq : ∀ i < 256, crc32Tab[i]? = some (shifts crcPoly 8 (BitVec.ofNat 32 i)) := by
  decide +kernel

/-- The mask of the low byte. -/
theorem getLsbD_lowByte : ∀ i < 32, (0xff : BitVec 32).getLsbD i = decide (i < 8) := by decide

/-- **`UPDC32` feeds the register one byte.** -/
theorem updc32_eq : updc32 octet crc = some (feedBits crcPoly crc (bits octet)) := by
  have hlow : ((crc ^^^ octet.setWidth 32) &&& 0xff).toNat < 256 := by
    rw [BitVec.toNat_and]
    exact Nat.lt_succ_of_le Nat.and_le_right
  have hoctet : (octet.setWidth 32 : BitVec 32) >>> 8 = 0 := by
    apply BitVec.eq_of_getLsbD_eq
    intro i _
    simp
  have hmoved : (crc ^^^ octet.setWidth 32) >>> 8 = crc >>> 8 := by
    rw [BitVec.ushiftRight_xor_distrib, hoctet]
    exact BitVec.xor_zero
  have htable : shifts crcPoly 8 (crc ^^^ octet.setWidth 32) = _ :=
    shifts_eq_table 8 getLsbD_lowByte
  rw [hmoved] at htable
  rw [updc32, crc32Tab_eq _ hlow, feedBits_eq (by simp), word_bits _ (by omega), length_bits,
    htable, BitVec.ofNat_toNat, BitVec.setWidth_eq]
  rfl

theorem crc32bufLoop_eq (h : n ≤ buf.length) :
    crc32bufLoop buf n crc = some (feedBits crcPoly crc (messageBits (buf.take n))) := by
  induction n generalizing buf crc with
  | zero => simp [crc32bufLoop, messageBits]
  | succ n ih =>
    match buf with
    | [] => simp at h
    | octet :: buf =>
      simp only [crc32bufLoop, updc32_eq, Option.bind_eq_bind, Option.bind_some]
      rw [ih (by simpa using h), List.take_succ_cons, messageBits, messageBits, List.flatMap_cons,
        feedBits_append]

/-- **`crc32buf` computes CRC-32**, and reads `len` bytes only. -/
theorem crc32buf_eq (h : n ≤ buf.length) : crc32buf buf n = some (crc32 (buf.take n)) := by
  rw [crc32buf, crc32bufLoop_eq h]
  rfl

/-! ## The CRC field -/

/-- The four bytes of the CRC field, least significant first. -/
def crcField (x : BitVec 32) : List Byte :=
  [x.setWidth 8, (x >>> 8).setWidth 8, (x >>> 16).setWidth 8, (x >>> 24).setWidth 8]

@[simp] theorem length_crcField (x : BitVec 32) : (crcField x).length = 4 := rfl

/-- The number that four bytes store, least significant first. -/
def joinBytes (b0 b1 b2 b3 : Byte) : BitVec 32 :=
  b0.setWidth 32 ||| b1.setWidth 32 <<< 8 ||| b2.setWidth 32 <<< 16 ||| b3.setWidth 32 <<< 24

theorem joinBytes_crcField (x : BitVec 32) : joinBytes (x.setWidth 8) ((x >>> 8).setWidth 8)
    ((x >>> 16).setWidth 8) ((x >>> 24).setWidth 8) = x := by
  apply BitVec.eq_of_getLsbD_eq
  intro i hi
  simp only [joinBytes, BitVec.getLsbD_or, BitVec.getLsbD_shiftLeft, BitVec.getLsbD_setWidth,
    BitVec.getLsbD_ushiftRight]
  interval_cases i <;> simp

theorem crcField_joinBytes (b0 b1 b2 b3 : Byte) :
    crcField (joinBytes b0 b1 b2 b3) = [b0, b1, b2, b3] := by
  simp only [crcField, List.cons.injEq, and_true]
  refine ⟨?_, ?_, ?_, ?_⟩ <;>
  · apply BitVec.eq_of_getLsbD_eq
    intro i hi
    simp only [joinBytes, BitVec.getLsbD_or, BitVec.getLsbD_shiftLeft, BitVec.getLsbD_setWidth,
      BitVec.getLsbD_ushiftRight]
    interval_cases i <;> simp

/-- **The reader checks the CRC field.** -/
theorem expectedCrc32_eq (buf : List Byte) (h : 4 ≤ buf.length) :
    ∃ x, expectedCrc32 buf = some x ∧ buf.take 4 = crcField x := by
  match buf with
  | b0 :: b1 :: b2 :: b3 :: rest =>
    exact ⟨joinBytes b0 b1 b2 b3, rfl, (crcField_joinBytes b0 b1 b2 b3).symm⟩
  | [] | [_] | [_, _] | [_, _, _] => simp at h

theorem crcField_injective : Function.Injective crcField := by
  intro x y h
  simp only [crcField, List.cons.injEq] at h
  obtain ⟨h0, h1, h2, h3, -⟩ := h
  rw [← joinBytes_crcField x, h0, h1, h2, h3, joinBytes_crcField]

/-- **The writer stores it.** -/
theorem storeCrc32_eq (h : 4 ≤ buf.length) :
    storeCrc32 buf x = some (crcField x ++ buf.drop 4) := by
  match buf with
  | b0 :: b1 :: b2 :: b3 :: rest =>
    have hand : ∀ y : Byte, y &&& 255#8 = y := fun y => BitVec.and_allOnes
    simp [storeCrc32, poke, crcField, hand]
  | [] | [_] | [_, _] | [_, _, _] => simp at h

/-! ## Sealed blocks -/

/-- The first four bytes are the checksum of the others. -/
def Sealed (block : List Byte) : Prop := block.take 4 = crcField (crc32 (block.drop 4))

instance : Decidable (Sealed block) := inferInstanceAs (Decidable (_ = _))

/-- The block of a payload. -/
def sealBlock (payload : List Byte) : List Byte := crcField (crc32 payload) ++ payload

@[simp] theorem length_sealBlock (payload : List Byte) :
    (sealBlock payload).length = payload.length + 4 := by
  simp [sealBlock, Nat.add_comm]

@[simp] theorem drop_sealBlock (payload : List Byte) : (sealBlock payload).drop 4 = payload :=
  List.drop_left' rfl

theorem sealed_sealBlock (payload : List Byte) : Sealed (sealBlock payload) := by
  rw [Sealed, drop_sealBlock]
  exact List.take_left' rfl

theorem Sealed.length_le (h : Sealed block) : 4 ≤ block.length := by
  have := congrArg List.length h
  rw [List.length_take, length_crcField] at this
  omega

end LittleLoader
