import LittleLoader.Machine.UbootEnv
import LittleLoader.Machine.VirtioBlk

/-!
# Machine/Main — `process_uboot_env` of `main.c`

The function picks the slot to boot.  It is cut where its phases end: the environment is read
(`processBlock`), the failback branch updates it and writes it back (`checkFailback`), the slot's
kernel is looked up (`lookupKernel`).  `goto cleanup` is a return from `processBlock`.

The calls into `uboot_env.c` are made through `observe`, so that the trace of a run says which
variables were asked for and what the calls returned.
-/

namespace LittleLoader

/-- `UBOOT_ENV_LBA`. -/
def ubootEnvLba : BitVec 64 := 16

/-- `UBOOT_ENV_SIZE`. -/
def ubootEnvSize : ℕ := 256 * 512

/-- `DEFAULT_KERNEL_LBA`. -/
def defaultKernelLba : BitVec 64 := 512

/-- `*kernel_lba` and `*kernel_args`. -/
structure BootConfig where
  kernelLba : BitVec 64 := defaultKernelLba
  kernelArgs : Option (List Byte) := none
deriving DecidableEq

/-! ## The calls -/

/-- A call of `uboot_env_getenv`. -/
def getenv (env : UbootEnv) (name : List Byte) : M (ℤ × Option (List Byte)) := do
  let (rc, value) ← ubootEnvGetenv env name
  observe (.ubootEnvGetenv (chars name) rc)
  return (rc, value)

/-- `OK_OR_CLEANUP_MSG` on a call of `uboot_env_getenv`: `none` is the jump to `cleanup`. -/
def getenvOrCleanup (env : UbootEnv) (name : List Byte) (fmt : String) (args : List Arg) :
    M (Option (List Byte)) := do
  let (rc, value) ← getenv env name
  if rc < 0 then
    info fmt args
    return none
  return some (← access value)

/-! ## The failback branch -/

/-- What the heap holds behind an object of `size` bytes up to the next one.  Nobody has stored it:
the memory has it from before, `slack i` at distance `i` from the start of the object. -/
def padding (slack : ℕ → Byte) (size : ℕ) : List Byte :=
  (List.range ((size + 7) / 8 * 8 - size)).map fun i => slack (size + i)

/-- The other branch of the failback check: the previous boot did not validate its slot.  Returns
`env` and `active_slot`; `behind` is what the heap holds behind that. -/
def revertSlot (env : UbootEnv) (activeSlot behind : List Byte) : M (UbootEnv × List Byte) := do
  info "Slot %s didn't validate, so reverting back..." [.str activeSlot]
  let other := if (← deref activeSlot) = chr 'a' then chr 'b' else chr 'a'
  -- without its NUL, an empty name goes on behind its object
  let activeSlot ← access ((poke (activeSlot ++ behind) 0 other).bind cstring)
  let (_, env) ← ubootEnvSetenv env (lit "nerves_fw_active") activeSlot
  let (_, env) ← ubootEnvSetenv env (lit "upgrade_available") (lit "0")
  let (_, env) ← ubootEnvSetenv env (lit "bootcount") (lit "0")
  return (env, activeSlot)

/-- The first try of a new slot. -/
def trySlot (env : UbootEnv) (activeSlot : List Byte) : M (UbootEnv × List Byte) := do
  info "Trying slot %s for the first time..." [.str activeSlot]
  let (_, env) ← ubootEnvSetenv env (lit "bootcount") (lit "1")
  return (env, activeSlot)

/-- The environment goes back to the disk; a failure is only reported. -/
def writeBack (env : UbootEnv) (buffer : List Byte) : M UbootEnv := do
  let (rc, env, buffer) ← ubootEnvWrite env buffer
  observe (.ubootEnvWrite rc)
  let failed ← if rc < 0 then pure true else
    (fun rc => decide (rc < 0)) <$>
      virtioBlkWrite ubootEnvLba (BitVec.ofNat 32 ubootEnvSize) buffer
  if failed then info "Failed to write u-boot environment after failback!!" []
  return env

/-- The block under `if (strcmp_(upgrade_available, "1") == 0)`; `none` is the jump to `cleanup`. -/
def checkFailback (slack : ℕ → Byte) (env : UbootEnv)
    (buffer activeSlot upgradeAvailable : List Byte) : M (Option (UbootEnv × List Byte)) := do
  if (← access (strcmp upgradeAvailable (lit "1"))) = 0 then
    match ← getenvOrCleanup env (lit "bootcount")
      "Failed to get `bootcount`. Skipping automatic failback check." [] with
    | none => return none
    | some bootcount =>
      -- the copy of `upgrade_available` is the next object on the heap
      let (env, activeSlot) ← if (← access (strcmp bootcount (lit "1"))) = 0
        then revertSlot env activeSlot (padding slack activeSlot.length ++ upgradeAvailable)
        else trySlot env activeSlot
      let env ← writeBack env buffer
      return some (env, activeSlot)
  else
    return some (env, activeSlot)

/-! ## The kernel of a slot -/

/-- `char key[32]` after `strcpy_(key, template)` and `key[0] = slot[0]`. -/
def slotKey (template : String) (slot : List Byte) : M (List Byte) := do
  let key ← access (strcpy (List.replicate 32 0#8) (lit template))
  access (poke key 0 (← deref slot))

/-- The lookups of the slot's `kernel_lba` and `kernel_args`. -/
def lookupKernel (env : UbootEnv) (activeSlot : List Byte) : M BootConfig := do
  let kernelLbaKey ← slotKey "x.kernel_lba" activeSlot
  match ← getenvOrCleanup env kernelLbaKey
    "No '%s' variable found in u-boot environment, using default." [.str kernelLbaKey] with
  | none => return {}
  | some kernelLbaStr =>
    let (kernelLba, _) ← access (strtoull kernelLbaStr 10)
    let kernelArgsKey ← slotKey "x.kernel_args" activeSlot
    let (_, kernelArgs) ← getenv env kernelArgsKey
    -- the source prints the pointer `kernel_lba`, not the number it points to
    info "Booting from slot %s (kernel LBA %lu, kernel_args: %s)"
      [.str activeSlot, .ptr "kernel_lba", .str (kernelArgs.getD (lit "<none>"))]
    return ⟨kernelLba, kernelArgs⟩

/-! ## The function -/

/-- The body of `process_uboot_env` up to `cleanup`, for a buffer that holds the block; `env` as it
is at `cleanup`. -/
def processBlock (slack : ℕ → Byte) (env : UbootEnv) (buffer : List Byte) :
    M (BootConfig × UbootEnv) := do
  let (rc, env) ← ubootEnvRead env buffer
  observe (.ubootEnvRead rc)
  if rc < 0 then
    info "Failed to read u-boot environment from buffer" []
    return ({}, env)
  match ← getenvOrCleanup env (lit "nerves_fw_active")
    "Failed to get `nerves_fw_active` from U-Boot environment" [] with
  | none => return ({}, env)
  | some activeSlot =>
    match ← getenvOrCleanup env (lit "upgrade_available")
      "Failed to get `upgrade_available`. Skipping automatic failback check." [] with
    | none => return ({}, env)
    | some upgradeAvailable =>
      match ← checkFailback slack env buffer activeSlot upgradeAvailable with
      | none => return ({}, env)
      | some (env, activeSlot) => return (← lookupKernel env activeSlot, env)

/-- `process_uboot_env`; `slack` is what the memory has held where it puts the copy of
`nerves_fw_active`. -/
def processUbootEnv (slack : ℕ → Byte) : M BootConfig := do
  let _ ← malloc ubootEnvSize
  let env := ubootEnvInit ubootEnvSize
  let (rc, buffer) ← virtioBlkRead ubootEnvLba (BitVec.ofNat 32 ubootEnvSize)
    (List.replicate ubootEnvSize 0#8)
  if rc < 0 then
    fatal "Failed to read u-boot environment from LBA %d\n" [.nat ubootEnvLba.toNat]
  let (config, env) ← processBlock slack env buffer
  let _ ← ubootEnvFree env
  return config

end LittleLoader
