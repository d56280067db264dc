import Mathlib.Data.Int.Notation
import Mathlib.Data.Nat.Notation
import Mathlib.Logic.Function.Basic
import LittleLoader.Foundations.Returns

/-!
# Machine/World — the memory, the disk and the console a boot runs on

The C functions are computations in `M`, a state monad over `World` with the exceptions `Stop`.

* A `char *` is **the list of the bytes from it to the end of its object**: `p + k` is `p.drop k`,
  `*p` is the head, and reading at the end of the list is an access outside the object, a `fault`.
  Two pointers into one object are equal when as many bytes follow them.
* `malloc_` is the bump allocator of `util.c`: `heap` is its `heap` pointer.  The structures the
  program links by pointers (`struct uboot_name_value`) live in `nodes` under their addresses; a
  string that only one pointer owns is the list of its bytes.
* A loop over linked structures is bounded by `heap`: a list that does not run in a circle has
  fewer nodes than the heap has bytes, and one that does is a `hang`.
-/

namespace LittleLoader

/-- A byte of memory. -/
abbrev Byte := BitVec 8

/-- An address on the heap. -/
abbrev Addr := ℕ

/-- The byte of a character constant. -/
def chr (c : Char) : Byte := BitVec.ofNat 8 c.toNat

/-- A string literal: its characters and the NUL after them. -/
def lit (s : String) : List Byte := s.toList.map chr ++ [0#8]

/-- The characters of the string at `p`. -/
def chars (p : List Byte) : List Byte := p.takeWhile (· ≠ 0#8)

/-- `x` converted to `size_t`, of 64 bits. -/
def sizeT (x : ℤ) : ℕ := (x % 0x10000000000000000).toNat

/-- `p - q` for two pointers into one object. -/
def ptrDiff (p q : List Byte) : ℤ := (q.length : ℤ) - p.length

/-- The largest object of the machine: `PTRDIFF_MAX`. -/
def ptrdiffMax : ℕ := 0x7fffffffffffffff

/-! ## What a run leaves behind -/

/-- An argument of a message. -/
inductive Arg
  | str (s : List Byte)
  | u32 (x : BitVec 32)
  | nat (n : ℕ)
  /-- The address of a variable of the program. -/
  | ptr (variableName : String)
deriving DecidableEq

/-- A call of `info` or `fatal`: the format and its arguments. -/
structure Message where
  fmt : String
  args : List Arg := []
deriving DecidableEq

/-- What ends a run before its function returns. -/
inductive Stop
  /-- `fatal` powers the machine off. -/
  | fatal (message : Message)
  /-- A loop that never ends. -/
  | hang
  /-- An access outside an object. -/
  | fault
deriving DecidableEq

/-- An observable step of a run: a request handed to the block device, or the return of a call into
the driver or the environment code. -/
inductive Event
  /-- `data` is what the device is to write. -/
  | request (type : BitVec 32) (lba : BitVec 64) (lenBytes : BitVec 32) (data : List Byte)
  | completed (rc : ℤ)
  | ubootEnvRead (rc : ℤ)
  | ubootEnvGetenv (name : List Byte) (rc : ℤ)
  | ubootEnvWrite (rc : ℤ)
deriving DecidableEq

/-! ## The state -/

/-- `struct uboot_name_value`. -/
structure UbootNameValue where
  name : List Byte
  value : List Byte
  next : Option Addr
deriving DecidableEq

/-- The bytes of the disk, by their offset from its start. -/
abbrev Disk := ℕ → Byte

/-- How the device completes a request: the status byte it writes, and what the bytes the request
covers hold if that is not the status of a success. -/
structure Completion where
  status : Byte
  torn : ℕ → Byte

/-- The state a computation runs in. -/
structure World where
  /-- `static char *heap` of `util.c`. -/
  heap : ℕ
  nodes : Addr → Option UbootNameValue
  console : List Message
  disk : Disk
  /-- How the device will complete the requests to come. -/
  completions : List Completion
  trace : List Event

/-- The machine at power-on: an empty heap from `stackTop` on. -/
def World.powerOn (stackTop : ℕ) (disk : Disk) (completions : List Completion) : World where
  heap := stackTop
  nodes := fun _ => none
  console := []
  disk := disk
  completions := completions
  trace := []

/-- A computation of the program. -/
abbrev M := EStateM Stop World

/-! ## Primitive steps -/

/-- The result of a memory access that may leave its object. -/
def access {α : Type} : Option α → M α
  | some a => pure a
  | none => throw .fault

/-- `*p`. -/
def deref (p : List Byte) : M Byte := access p.head?

/-- `info`. -/
def info (fmt : String) (args : List Arg) : M Unit :=
  modify fun w => { w with console := w.console ++ [⟨fmt, args⟩] }

/-- `fatal`. -/
def fatal {α : Type} (fmt : String) (args : List Arg) : M α := throw (.fatal ⟨fmt, args⟩)

/-- `ERR_RETURN`: the message and the `-1` of the caller. -/
def errReturn (fmt : String) (args : List Arg) : M ℤ := do
  info fmt args
  return -1

/-- Record an observable step. -/
def observe (e : Event) : M Unit := modify fun w => { w with trace := w.trace ++ [e] }

/-- `malloc_`: hand out the top of the heap and move it up by `size`, rounded up to 8 bytes. -/
def malloc (size : ℕ) : M Addr := do
  let w ← get
  set { w with heap := w.heap + (size + 7) / 8 * 8 }
  return w.heap

/-- `*pair`, read. -/
def loadPair (pair : Addr) : M UbootNameValue := do
  let w ← get
  access (w.nodes pair)

/-- `*pair`, written. -/
def storePair (pair : Addr) (v : UbootNameValue) : M Unit :=
  modify fun w => { w with nodes := Function.update w.nodes pair (some v) }

end LittleLoader
