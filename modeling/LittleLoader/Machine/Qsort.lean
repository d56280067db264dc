import Mathlib.Algebra.Group.Nat.Defs
import LittleLoader.Machine.UbootEnv

/-!
# Machine/Qsort — `qsort_` byte by byte

    base  =  cell 0, cell 1, …, cell (nel - 1)     each of width bytes

`qsort` of `Machine/Util` moves whole cells.  Here the array is the object in memory: the comparison
is given pointers into it, and two cells change places by three calls of `memcpy_`.
-/

namespace LittleLoader

/-- The exchange of the cells `j` and `j + 1`, by way of `temp`. -/
def swapCells (arr : List Byte) (width j : ℕ) : Option (List Byte) := do
  let temp ← memcpy (List.replicate width 0#8) (arr.drop (j * width)) width
  let arr ← memcpyAt arr (j * width) (arr.drop ((j + 1) * width)) width
  memcpyAt arr ((j + 1) * width) temp width

/-- The inner loop of `qsort_` from `j` on, with `rounds` of its `nel - i - 1` rounds to go. -/
def qsortBytesInner (width : ℕ) (compar : List Byte → List Byte → M ℤ) :
    ℕ → ℕ → List Byte → M (List Byte)
  | 0, _, arr => return arr
  | rounds + 1, j, arr => do
      if (← compar (arr.drop (j * width)) (arr.drop ((j + 1) * width))) > 0 then
        let arr ← access (swapCells arr width j)
        qsortBytesInner width compar rounds (j + 1) arr
      else
        qsortBytesInner width compar rounds (j + 1) arr

/-- The outer loop of `qsort_` from `i` on, with `rounds` of its `nel - 1` rounds to go. -/
def qsortBytesOuter (nel width : ℕ) (compar : List Byte → List Byte → M ℤ) :
    ℕ → ℕ → List Byte → M (List Byte)
  | 0, _, arr => return arr
  | rounds + 1, i, arr => do
      let arr ← qsortBytesInner width compar (nel - i - 1) 0 arr
      qsortBytesOuter nel width compar rounds (i + 1) arr

/-- `qsort_`.  As in `qsort`, an array without cells is left at its first comparison. -/
def qsortBytes (base : List Byte) (nel width : ℕ) (compar : List Byte → List Byte → M ℤ) :
    M (List Byte) :=
  if nel = 0 then throw .fault else qsortBytesOuter nel width compar (nel - 1) 0 base

/-! ## The cells of `pairarray` -/

/-- The eight bytes of a pointer, least significant first. -/
def pointerBytes (a : Addr) : List Byte := (List.range 8).map fun i => BitVec.ofNat 8 (a / 256 ^ i)

/-- The load of a pointer. -/
def loadPointer (p : List Byte) : Option Addr :=
  if 8 ≤ p.length then some ((p.take 8).foldr (fun b a => b.toNat + 256 * a) 0) else none

/-- `env_name_compare` as `qsort_` calls it: `*(const struct uboot_name_value **) a`. -/
def envNameCompareCells (a b : List Byte) : M ℤ := do
  envNameCompare (← access (loadPointer a)) (← access (loadPointer b))

end LittleLoader
