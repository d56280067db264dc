import LittleLoader.Machine.World

/-!
# Machine/Util — the C library functions of `util.c`

The functions that only read or overwrite the objects they are given are `Option`-valued, `none`
being an access outside an object; the ones that allocate are computations in `M`.  A function that
overwrites an object from a pointer on returns the object from there on.
-/

namespace LittleLoader

/-! ## Blocks of memory -/

/-- `memcpy_`: `while (n--) *d++ = *s++`. -/
def memcpy : List Byte → List Byte → ℕ → Option (List Byte)
  | d, _, 0 => some d
  | _ :: d, b :: s, n + 1 => (b :: ·) <$> memcpy d s n
  | _, _, _ + 1 => none

/-- `memset_`: `while (len--) *p++ = c`. -/
def memset : List Byte → Byte → ℕ → Option (List Byte)
  | p, _, 0 => some p
  | _ :: p, c, len + 1 => (c :: ·) <$> memset p c len
  | [], _, _ + 1 => none

/-- `p[i] = c`. -/
def poke (p : List Byte) (i : ℕ) (c : Byte) : Option (List Byte) :=
  if i < p.length then some (p.set i c) else none

/-! ## Strings -/

/-- `strlen_`. -/
def strlen : List Byte → Option ℕ
  | [] => none
  | c :: s => if c = 0#8 then some 0 else (· + 1) <$> strlen s

/-- The string at `p`, with its NUL. -/
def cstring (p : List Byte) : Option (List Byte) := (fun n => p.take (n + 1)) <$> strlen p

/-- `strnlen_`: `while (n-- && *p) p++`. -/
def strnlen : List Byte → ℕ → Option ℕ
  | _, 0 => some 0
  | [], _ + 1 => none
  | c :: s, n + 1 => if c = 0#8 then some 0 else (· + 1) <$> strnlen s n

/-- `strcmp_`: on past equal bytes up to a NUL of `s1`, then the difference of the two bytes. -/
def strcmp : List Byte → List Byte → Option ℤ
  | a :: s1, b :: s2 => if a ≠ 0#8 ∧ a = b then strcmp s1 s2 else some ((a.toNat : ℤ) - b.toNat)
  | _, _ => none

/-- The value of a `char` that holds the byte, on a machine whose `char` is signed or not. -/
def charValue (signed : Bool) (b : Byte) : ℤ := if signed then b.toInt else b.toNat

/-- `strcmp_` on such a machine: the loop tests and compares `char`s, the result is the difference
of `unsigned char`s. -/
def strcmpChars (signed : Bool) : List Byte → List Byte → Option ℤ
  | a :: s1, b :: s2 =>
      if charValue signed a ≠ 0 ∧ charValue signed a = charValue signed b then
        strcmpChars signed s1 s2
      else some ((a.toNat : ℤ) - b.toNat)
  | _, _ => none

/-- `strcpy_`: up to and including the NUL of `src`. -/
def strcpy : List Byte → List Byte → Option (List Byte)
  | _ :: dest, c :: src => if c = 0#8 then some (c :: dest) else (c :: ·) <$> strcpy dest src
  | _, _ => none

/-- `strdup_`.  Every byte of the new object is overwritten, so what it holds at first is
immaterial. -/
def strdup (s : List Byte) : M (List Byte) := do
  let len := (← access (strlen s)) + 1
  let _ ← malloc len
  access (memcpy (List.replicate len 0#8) s len)

/-- `strndup_`. -/
def strndup (s : List Byte) (n : ℕ) : M (List Byte) := do
  let len ← access (strnlen s n)
  let _ ← malloc (len + 1)
  let copy ← access (memcpy (List.replicate (len + 1) 0#8) s len)
  access (poke copy len 0#8)

/-! ## Sorting -/

/-- The inner loop of `qsort_` from `j` on, with `rounds` of its `nel - i - 1` rounds to go. -/
def qsortInner {α : Type} (compar : α → α → M ℤ) : ℕ → ℕ → List α → M (List α)
  | 0, _, arr => return arr
  | rounds + 1, j, arr => do
      let a ← access arr[j]?
      let b ← access arr[j + 1]?
      if (← compar a b) > 0 then
        qsortInner compar rounds (j + 1) ((arr.set j b).set (j + 1) a)
      else
        qsortInner compar rounds (j + 1) arr

/-- The outer loop of `qsort_` from `i` on, with `rounds` of its `nel - 1` rounds to go. -/
def qsortOuter {α : Type} (compar : α → α → M ℤ) (nel : ℕ) : ℕ → ℕ → List α → M (List α)
  | 0, _, arr => return arr
  | rounds + 1, i, arr => do
      let arr ← qsortInner compar (nel - i - 1) 0 arr
      qsortOuter compar nel rounds (i + 1) arr

/-- `qsort_`, a bubble sort of the `nel` cells of `arr`.  The bound `nel - 1` of an empty array
wraps to `SIZE_MAX`, and the first comparison is outside the array. -/
def qsort {α : Type} (arr : List α) (nel : ℕ) (compar : α → α → M ℤ) : M (List α) :=
  if nel = 0 then throw .fault else qsortOuter compar nel (nel - 1) 0 arr

/-! ## Numbers -/

/-- `char_to_digit`. -/
def charToDigit (c : Byte) : ℤ :=
  if c ≥ chr '0' ∧ c ≤ chr '9' then (c.toNat : ℤ) - (chr '0').toNat
  else if c ≥ chr 'a' ∧ c ≤ chr 'f' then (c.toNat : ℤ) - (chr 'a').toNat + 10
  else if c ≥ chr 'A' ∧ c ≤ chr 'F' then (c.toNat : ℤ) - (chr 'A').toNat + 10
  else -1

/-- `while (*str == ' ') str++`. -/
def skipSpaces : List Byte → Option (List Byte)
  | [] => none
  | c :: str => if c = chr ' ' then skipSpaces str else some (c :: str)

/-- The optional prefix that picks the base when `base` is 0. -/
def basePrefix (str : List Byte) (base : ℤ) : Option (List Byte × ℤ) :=
  if base = 0 then do
    let c ← str.head?
    if c = chr '0' then
      let str := str.drop 1
      let x ← str.head?
      if x = chr 'x' ∨ x = chr 'X' then some (str.drop 1, 16) else some (str, 10)
    else some (str, 10)
  else some (str, base)

/-- The digit loop: the value so far and the first character that is no digit of the base. -/
def convertDigits (base : ℤ) : List Byte → BitVec 64 → Option (BitVec 64 × List Byte)
  | [], _ => none
  | c :: str, result =>
      let digit := charToDigit c
      if digit = -1 then some (result, c :: str)
      else if digit ≥ base then some (result, c :: str)
      else convertDigits base str (result * BitVec.ofInt 64 base + BitVec.ofInt 64 digit)

/-- `strtoull_`: the number and `*endptr`. -/
def strtoull (str : List Byte) (base : ℤ) : Option (BitVec 64 × List Byte) := do
  let str ← skipSpaces str
  let (str, base) ← basePrefix str base
  convertDigits base str 0

end LittleLoader
