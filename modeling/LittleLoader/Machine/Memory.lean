import Mathlib.Data.Nat.Notation
import Mathlib.Logic.Function.Basic
import LittleLoader.Foundations.Segments
import LittleLoader.Machine.World

/-!
# Machine/Memory — the memory as a whole, and the functions of `util.c` on it

    dest < src    dest[0] := src[0], dest[1] := src[1], …
    src ≤ dest    …, dest[1] := src[1], dest[0] := src[0]

The ranges of a move may overlap, and a device tree is edited in place, so here a pointer is an
address of the one memory, and not the rest of an object as in `Machine/Util`.  `Ram` has the
pointers of the machine, for `memmove_` alone.  The functions on device trees work on a `Mem`, whose
addresses are numbers: nothing there wraps, and strings of the program that are outside the tree
stay lists.
-/

namespace LittleLoader

/-! ## The memory of the machine -/

/-- A pointer: an address that wraps after 64 bits. -/
abbrev Pointer := BitVec 64

/-- The memory of the machine. -/
abbrev Ram := Pointer → Byte

namespace Ram

/-- The forward loop of `memmove_`: `while (n--) *d++ = *s++`. -/
def moveUp (m : Ram) (d s : Pointer) : ℕ → Ram
  | 0 => m
  | n + 1 => moveUp (Function.update m d (m s)) (d + 1) (s + 1) n

/-- The backward loop of `memmove_`: `while (n--) *(--d) = *(--s)`. -/
def moveDown (m : Ram) (d s : Pointer) : ℕ → Ram
  | 0 => m
  | n + 1 => moveDown (Function.update m (d - 1) (m (s - 1))) (d - 1) (s - 1) n

/-- `memmove_`. -/
def memmove (m : Ram) (dest src : Pointer) (n : ℕ) : Ram :=
  if dest < src then m.moveUp dest src n
  else m.moveDown (dest + BitVec.ofNat 64 n) (src + BitVec.ofNat 64 n) n

end Ram

/-! ## Addresses that are numbers -/

/-- The memory, with addresses that are numbers. -/
abbrev Mem := Memory Byte

/-- A computation on the memory: a value, or what ends the run. -/
abbrev MemM := Except Stop

/-- The result of an access that may leave its object. -/
def fetch {α : Type} : Option α → MemM α
  | some a => pure a
  | none => throw .fault

namespace Mem

/-! ## Copies -/

/-- `memcpy_`. -/
def memcpy (m : Mem) (dst src n : ℕ) : Mem := m.copyUp dst src n

/-- `memmove_`. -/
def memmove (m : Mem) (dest src n : ℕ) : Mem :=
  if dest < src then m.copyUp dest src n else m.copyDown (dest + n) (src + n) n

/-- `memcpy_` from an object outside the memory. -/
def memcpyFrom (m : Mem) (dst : ℕ) : List Byte → ℕ → MemM Mem
  | _, 0 => pure m
  | [], _ + 1 => throw .fault
  | c :: src, n + 1 => memcpyFrom (Function.update m dst c) (dst + 1) src n

/-- `memset_`. -/
def memset (m : Mem) (b : ℕ) (c : Byte) : ℕ → Mem
  | 0 => m
  | len + 1 => memset (Function.update m b c) (b + 1) c len

/-! ## Comparisons and searches -/

/-- `memcmp_` of the memory with an object outside. -/
def memcmp (m : Mem) (p : ℕ) : List Byte → ℕ → MemM ℤ
  | _, 0 => pure 0
  | [], _ + 1 => throw .fault
  | c :: s, n + 1 =>
      if m p ≠ c then pure (if m p < c then -1 else 1) else memcmp m (p + 1) s n

/-- `memchr_`: the address. -/
def memchr (m : Mem) (s : ℕ) (c : Byte) : ℕ → Option ℕ
  | 0 => none
  | n + 1 => if m s = c then some s else memchr m (s + 1) c n

/-- The loop of `strrchr_`: the address. -/
def strrchrLoop (m : Mem) (c : Byte) : ℕ → Option ℕ → ℕ → MemM (Option ℕ)
  | 0, _, _ => throw .hang
  | fuel + 1, last, s =>
      if m s = 0#8 then pure last
      else strrchrLoop m c fuel (if m s = c then some s else last) (s + 1)

/-- `strrchr_`; there are `0x10000000000000000 - s` addresses from `s` on. -/
def strrchr (m : Mem) (s : ℕ) (c : Byte) : MemM (Option ℕ) :=
  m.strrchrLoop c (0x10000000000000000 - s) none s

/-- The loop of `strlen_`; there are `fuel` addresses from `s` on. -/
def strlenLoop (m : Mem) : ℕ → ℕ → MemM ℕ
  | 0, _ => throw .hang
  | fuel + 1, s => if m s = 0#8 then pure 0 else (· + 1) <$> strlenLoop m fuel (s + 1)

/-- `strlen_`. -/
def strlen (m : Mem) (s : ℕ) : MemM ℕ := m.strlenLoop (0x10000000000000000 - s) s

/-! ## Words -/

/-- `fdt32_ld`, `fdt32_to_cpu`: the word whose most significant byte comes first. -/
def ld32 (m : Mem) (p : ℕ) : ℕ :=
  (m p).toNat * 0x1000000 + (m (p + 1)).toNat * 0x10000 + (m (p + 2)).toNat * 0x100 +
    (m (p + 3)).toNat

/-- The bytes of `cpu_to_fdt32`. -/
def be32 (x : ℕ) : List Byte :=
  [BitVec.ofNat 8 (x / 0x1000000), BitVec.ofNat 8 (x / 0x10000), BitVec.ofNat 8 (x / 0x100),
    BitVec.ofNat 8 x]

/-- A store of `cpu_to_fdt32(x)`. -/
def st32 (m : Mem) (p x : ℕ) : Mem := m.write p (be32 x)

/-- A `uint32_t`, least significant byte first. -/
def ldWord (m : Mem) (p : ℕ) : BitVec 32 :=
  (m p).setWidth 32 ||| (m (p + 1)).setWidth 32 <<< 8 ||| (m (p + 2)).setWidth 32 <<< 16 |||
    (m (p + 3)).setWidth 32 <<< 24

end Mem

end LittleLoader
