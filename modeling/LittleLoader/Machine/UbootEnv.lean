import LittleLoader.Machine.Crc32
import LittleLoader.Machine.Util

/-!
# Machine/UbootEnv — `uboot_env.c`

The functions take the `struct uboot_env` and return it as they leave it; the pairs it links are in
`World.nodes`.  `uboot_env_write` also returns the buffer as it leaves it, on the failing paths too.
-/

namespace LittleLoader

/-- `struct uboot_env`. -/
structure UbootEnv where
  envSize : ℕ
  vars : Option Addr
deriving DecidableEq

/-- `sizeof(struct uboot_name_value)`. -/
def sizeofPair : ℕ := 24

/-- A bound on the rounds of a loop over the list: it has fewer pairs than the heap has bytes. -/
def listFuel : M ℕ := do return (← get).heap + 1

/-- `uboot_env_init`. -/
def ubootEnvInit (len : ℕ) : UbootEnv := ⟨len, none⟩

/-! ## `uboot_env_free` -/

/-- The loop of `uboot_env_free`; `free_` does nothing. -/
def ubootEnvFreeLoop : ℕ → Option Addr → M Unit
  | 0, _ => throw .hang
  | _ + 1, none => return
  | fuel + 1, some p => do
      let pair ← loadPair p
      ubootEnvFreeLoop fuel pair.next

/-- `uboot_env_free`. -/
def ubootEnvFree (env : UbootEnv) : M UbootEnv := do
  ubootEnvFreeLoop (← listFuel) env.vars
  return { env with vars := none }

/-! ## `uboot_env_read` -/

/-- The four bytes of the CRC field, least significant first. -/
def expectedCrc32 (buffer : List Byte) : Option (BitVec 32) := do
  let b0 ← buffer[0]?
  let b1 ← buffer[1]?
  let b2 ← buffer[2]?
  let b3 ← buffer[3]?
  return b0.setWidth 32 ||| b1.setWidth 32 <<< 8 ||| b2.setWidth 32 <<< 16 |||
    b3.setWidth 32 <<< 24

/-- The first inner loop of `uboot_env_read`: `endname` moves on to the next `=`.  The inner `none`
is the invalid environment, at `end` or at a NUL. -/
def scanName (stop : List Byte) : List Byte → Option (Option (List Byte))
  | [] => if stop.length = 0 then some none else none
  | c :: rest =>
      if (c :: rest).length = stop.length then some none
      else if c = 0#8 then some none
      else if c = chr '=' then some (some (c :: rest))
      else scanName stop rest

/-- The second inner loop of `uboot_env_read`: `endvalue` moves on to the next NUL. -/
def scanValue (stop : List Byte) : List Byte → Option (Option (List Byte))
  | [] => if stop.length = 0 then some none else none
  | c :: rest =>
      if (c :: rest).length = stop.length then some none
      else if c = 0#8 then some (some (c :: rest))
      else scanValue stop rest

/-- The outer loop of `uboot_env_read`: one pair a round, put in front of the list. -/
def ubootEnvReadLoop (stop : List Byte) : ℕ → List Byte → UbootEnv → M (ℤ × UbootEnv)
  | 0, _, _ => throw .hang
  | fuel + 1, name, env => do
      if name.length = stop.length then return (0, env)
      if (← deref name) = 0#8 then return (0, env)
      match ← access (scanName stop (name.drop 1)) with
      | none => return (← errReturn "Invalid U-boot environment" [], env)
      | some endname =>
        let value := endname.drop 1
        match ← access (scanValue stop value) with
        | none => return (← errReturn "Invalid U-boot environment" [], env)
        | some endvalue =>
          let pair ← malloc sizeofPair
          let pairName ← strndup name (sizeT (ptrDiff endname name))
          -- the source has the operands in this order: a negative length, a huge `size_t`
          let pairValue ← strndup value (sizeT (ptrDiff value endvalue))
          storePair pair ⟨pairName, pairValue, env.vars⟩
          ubootEnvReadLoop stop fuel (endvalue.drop 1) { env with vars := some pair }

/-- `uboot_env_read`. -/
def ubootEnvRead (env : UbootEnv) (buffer : List Byte) : M (ℤ × UbootEnv) := do
  let env ← ubootEnvFree env
  let expected ← access (expectedCrc32 buffer)
  let actual ← access (crc32buf (buffer.drop 4) (sizeT (env.envSize - 4)))
  if expected ≠ actual then
    return (← errReturn "U-boot environment CRC32 mismatch (expected 0x%08x; got 0x%08x)"
      [.u32 expected, .u32 actual], env)
  let stop := buffer.drop env.envSize
  let name := buffer.drop 4
  ubootEnvReadLoop stop (name.length + 1) name env

/-! ## `uboot_env_setenv`, `uboot_env_unsetenv`, `uboot_env_getenv` -/

/-- The loop of `uboot_env_setenv`: the value of the first pair of that name is replaced.  Whether
there was one. -/
def ubootEnvSetenvLoop (name value : List Byte) : ℕ → Option Addr → M Bool
  | 0, _ => throw .hang
  | _ + 1, none => return false
  | fuel + 1, some p => do
      let pair ← loadPair p
      if (← access (strcmp pair.name name)) = 0 then
        let copy ← strdup value
        storePair p { pair with value := copy }
        return true
      else
        ubootEnvSetenvLoop name value fuel pair.next

/-- `uboot_env_setenv`. -/
def ubootEnvSetenv (env : UbootEnv) (name value : List Byte) : M (ℤ × UbootEnv) := do
  if ← ubootEnvSetenvLoop name value (← listFuel) env.vars then
    return (0, env)
  else
    let pair ← malloc sizeofPair
    let pairName ← strdup name
    let pairValue ← strdup value
    storePair pair ⟨pairName, pairValue, env.vars⟩
    return (0, { env with vars := some pair })

/-- The loop of `uboot_env_unsetenv`, with `prev` and `pair`; returns `env->vars`. -/
def ubootEnvUnsetenvLoop (name : List Byte) (vars : Option Addr) :
    ℕ → Option Addr → Option Addr → M (Option Addr)
  | 0, _, _ => throw .hang
  | _ + 1, _, none => return vars
  | fuel + 1, prev, some p => do
      let pair ← loadPair p
      if (← access (strcmp pair.name name)) = 0 then
        match prev with
        | some q => do
            let prevPair ← loadPair q
            storePair q { prevPair with next := pair.next }
            return vars
        | none => return pair.next
      else
        ubootEnvUnsetenvLoop name vars fuel (some p) pair.next

/-- `uboot_env_unsetenv`. -/
def ubootEnvUnsetenv (env : UbootEnv) (name : List Byte) : M (ℤ × UbootEnv) := do
  let vars ← ubootEnvUnsetenvLoop name env.vars (← listFuel) none env.vars
  return (0, { env with vars := vars })

/-- The loop of `uboot_env_getenv`. -/
def ubootEnvGetenvLoop (name : List Byte) : ℕ → Option Addr → M (Option (List Byte))
  | 0, _ => throw .hang
  | _ + 1, none => return none
  | fuel + 1, some p => do
      let pair ← loadPair p
      if (← access (strcmp pair.name name)) = 0 then
        return some (← strdup pair.value)
      else
        ubootEnvGetenvLoop name fuel pair.next

/-- `uboot_env_getenv`: the return code and `*value`. -/
def ubootEnvGetenv (env : UbootEnv) (name : List Byte) : M (ℤ × Option (List Byte)) := do
  match ← ubootEnvGetenvLoop name (← listFuel) env.vars with
  | some value => return (0, some value)
  | none => return (← errReturn "variable '%s' not found" [.str name], none)

/-! ## `uboot_env_sort` -/

/-- `env_name_compare`. -/
def envNameCompare (a b : Addr) : M ℤ := do
  let apair ← loadPair a
  let bpair ← loadPair b
  access (strcmp apair.name bpair.name)

/-- The counting loop of `uboot_env_sort`. -/
def countPairs : ℕ → Option Addr → M ℕ
  | 0, _ => throw .hang
  | _ + 1, none => return 0
  | fuel + 1, some p => do
      let pair ← loadPair p
      return (← countPairs fuel pair.next) + 1

/-- The loop of `uboot_env_sort` that fills `pairarray` from index `i` on. -/
def fillPairs : ℕ → Option Addr → ℕ → List Addr → M (List Addr)
  | 0, _, _, _ => throw .hang
  | _ + 1, none, _, pairarray => return pairarray
  | fuel + 1, some p, i, pairarray => do
      if i ≥ pairarray.length then throw .fault
      let pair ← loadPair p
      fillPairs fuel pair.next (i + 1) (pairarray.set i p)

/-- `p->next = next`. -/
def setNext (p : Addr) (next : Option Addr) : M Unit := do
  let pair ← loadPair p
  storePair p { pair with next := next }

/-- The relinking loop of `uboot_env_sort` from `i` on, with `rounds` of its `count - 1` rounds to
go. -/
def relinkPairs (pairarray : List Addr) : ℕ → ℕ → M Unit
  | 0, _ => return
  | rounds + 1, i => do
      let p ← access pairarray[i]?
      let q ← access pairarray[i + 1]?
      setNext p (some q)
      relinkPairs pairarray rounds (i + 1)

/-- `uboot_env_sort`.  `count` is an `int` in the source: `2^31` pairs do not fit in the memory of
the machine. -/
def ubootEnvSort (env : UbootEnv) : M UbootEnv := do
  let count ← countPairs (← listFuel) env.vars
  if count = 0 then return env
  let _ ← malloc (count * 8)
  let pairarray ← fillPairs (← listFuel) env.vars 0 (List.replicate count 0)
  let pairarray ← qsort pairarray count envNameCompare
  relinkPairs pairarray (count - 1) 0
  let last ← access pairarray[count - 1]?
  setNext last none
  let first ← access pairarray[0]?
  return { env with vars := some first }

/-! ## `uboot_env_write` -/

/-- `memcpy_(p, src, n)` for `p = buffer + i`. -/
def memcpyAt (buffer : List Byte) (i : ℕ) (src : List Byte) (n : ℕ) : Option (List Byte) :=
  (buffer.take i ++ ·) <$> memcpy (buffer.drop i) src n

/-- The loop of `uboot_env_write`: the pairs from `pair` on, to `buffer + p`.  The return code, the
buffer and `p`. -/
def ubootEnvWriteLoop (stop : ℕ) : ℕ → Option Addr → List Byte → ℕ → M (ℤ × List Byte × ℕ)
  | 0, _, _, _ => throw .hang
  | _ + 1, none, buffer, p => return (0, buffer, p)
  | fuel + 1, some a, buffer, p => do
      let pair ← loadPair a
      let namelen ← access (strlen pair.name)
      let valuelen ← access (strlen pair.value)
      if p + namelen + 1 + valuelen ≥ stop then
        return (← errReturn "Not enough room in U-boot environment" [], buffer, p)
      let buffer ← access (memcpyAt buffer p pair.name namelen)
      let p := p + namelen
      let buffer ← access (poke buffer p (chr '='))
      let p := p + 1
      let buffer ← access (memcpyAt buffer p pair.value valuelen)
      let p := p + valuelen
      let buffer ← access (poke buffer p 0#8)
      let p := p + 1
      ubootEnvWriteLoop stop fuel pair.next buffer p

/-- The four stores of the CRC field, least significant byte first. -/
def storeCrc32 (buffer : List Byte) (crc32 : BitVec 32) : Option (List Byte) := do
  let buffer ← poke buffer 0 ((crc32 &&& 0xff).setWidth 8)
  let buffer ← poke buffer 1 (((crc32 >>> 8) &&& 0xff).setWidth 8)
  let buffer ← poke buffer 2 (((crc32 >>> 16) &&& 0xff).setWidth 8)
  poke buffer 3 ((crc32 >>> 24).setWidth 8)

/-- `uboot_env_write`: the return code, the environment with its list sorted, the buffer. -/
def ubootEnvWrite (env : UbootEnv) (buffer : List Byte) : M (ℤ × UbootEnv × List Byte) := do
  if env.envSize < 8 then
    return (← errReturn "u-boot environment block size too small" [], env, buffer)
  let buffer ← access (memset buffer 0xff#8 env.envSize)
  let env ← ubootEnvSort env
  let (rc, buffer, p) ← ubootEnvWriteLoop (env.envSize - 2) (← listFuel) env.vars buffer 4
  if rc < 0 then return (rc, env, buffer)
  let buffer ← access (poke buffer p 0#8)
  let crc32 ← access (crc32buf (buffer.drop 4) (sizeT (env.envSize - 4)))
  let buffer ← access (storeCrc32 buffer crc32)
  return (0, env, buffer)

end LittleLoader
