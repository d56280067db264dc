import LittleLoader.Machine.Main
import LittleLoader.Machine.Steps

/-!
# Boot/Device — the environment's block on the disk, and the two requests for it

    LBA 16:  512 · 256 bytes, `envBlock disk`

A boot reads the block (`ends_readBlock`), and may hand the device a new one (`ends_writeBlock`).
Between two states of a boot there are the steps that have been observed: `Logs` if the disk is left
alone, `Handed` if a block has been handed to the device.
-/

namespace LittleLoader

variable {w w₁ w' : World} {disk : Disk} {data buffer : List Byte} {evs pre post : List Event}
  {rc : Option ℤ} {offset : ℕ}

/-! ## The block on the disk -/

namespace Disk

theorem length_read (disk : Disk) (offset len : ℕ) : (disk.read offset len).length = len := by
  simp [Disk.read]

/-- **What was written is read.** -/
theorem read_write (disk : Disk) (offset : ℕ) (data : List Byte) :
    (disk.write offset data).read offset data.length = data := by
  refine List.ext_getElem (length_read _ _ _) fun i _ hi => ?_
  simp [Disk.read, Disk.write, hi]

/-- A write leaves the rest of the disk alone. -/
theorem write_of_outside {i : ℕ} (h : i < offset ∨ offset + data.length ≤ i) :
    disk.write offset data i = disk i := by
  unfold Disk.write
  split
  · rfl
  · rw [List.getElem?_eq_none (by omega), Option.getD_none]

end Disk

/-- Where the block of the environment starts. -/
def envOffset : ℕ := ubootEnvLba.toNat * sectorSize

/-- **The block of the environment.** -/
def envBlock (disk : Disk) : List Byte := disk.read envOffset ubootEnvSize

@[simp] theorem length_envBlock (disk : Disk) : (envBlock disk).length = ubootEnvSize :=
  Disk.length_read _ _ _

theorem envBlock_write (disk : Disk) (h : data.length = ubootEnvSize) :
    envBlock (disk.write envOffset data) = data := by
  rw [envBlock, ← h, Disk.read_write]

/-- Its size as the driver gets it. -/
def envLen : BitVec 32 := BitVec.ofNat 32 ubootEnvSize

theorem toNat_envLen : envLen.toNat = ubootEnvSize := by decide

/-! ## Observed steps -/

/-- The request for the block. -/
def readRequest : Event := .request virtioBlkTIn ubootEnvLba envLen []

/-- The request to store a new block. -/
def writeRequest (data : List Byte) : Event :=
  .request virtioBlkTOut ubootEnvLba envLen data

/-- The steps `evs` have been observed; disk and device are as before. -/
structure Logs (evs : List Event) (w w' : World) : Prop where
  disk : w'.disk = w.disk
  completions : w'.completions = w.completions
  trace : w'.trace = w.trace ++ evs

/-- **A block has been handed to the device**, after the steps `pre` and before the steps `post`.
The device has completed the request with the return code `rc`, unless it still works on it. -/
structure Handed (pre : List Event) (data : List Byte) (rc : Option ℤ) (post : List Event)
    (w w' : World) : Prop where
  trace : w'.trace
    = w.trace ++ (pre ++ writeRequest data :: (rc.toList.map Event.completed ++ post))
  outside : ∀ i, i < envOffset ∨ envOffset + ubootEnvSize ≤ i → w'.disk i = w.disk i
  stored : ∀ r, rc = some r → 0 ≤ r → w'.disk = w.disk.write envOffset data

theorem SameDevice.logs (h : SameDevice w w') : Logs [] w w' :=
  ⟨h.disk, h.completions, by rw [h.trace, List.append_nil]⟩

theorem logs_observe (w : World) (e : Event) : Logs [e] w (w.observe e) := ⟨rfl, rfl, rfl⟩

theorem Logs.trans {evs' : List Event} (h : Logs evs w w₁) (h' : Logs evs' w₁ w') :
    Logs (evs ++ evs') w w' :=
  ⟨h'.disk.trans h.disk, h'.completions.trans h.completions, by
    rw [h'.trace, h.trace, List.append_assoc]⟩

theorem Logs.sameDevice (h : Logs evs w w₁) (h' : SameDevice w₁ w') : Logs evs w w' := by
  simpa using h.trans h'.logs

theorem Logs.handed (h : Logs evs w w₁) (h' : Handed pre data rc post w₁ w') :
    Handed (evs ++ pre) data rc post w w' where
  trace := by rw [h'.trace, h.trace]; simp
  outside i hi := (h'.outside i hi).trans (congrFun h.disk i)
  stored r hr hr₀ := by rw [h'.stored r hr hr₀, h.disk]

theorem Handed.logs (h : Handed pre data rc post w w₁) (h' : Logs evs w₁ w') :
    Handed pre data rc (post ++ evs) w w' where
  trace := by rw [h'.trace, h.trace]; simp
  outside i hi := (congrFun h'.disk i).trans (h.outside i hi)
  stored r hr hr₀ := by rw [h'.disk, h.stored r hr hr₀]

/-! ## The requests -/

section Requests

variable {α : Type} {type : BitVec 32} {lba : BitVec 64} {len : BitVec 32} {c : Completion}
  {cs : List Completion} {Q : ℤ × List Byte → World → Prop} {E : Stop → World → Prop}

/-- The return code of the driver for a request that the device completes with `c`. -/
def Completion.code (c : Completion) (len : BitVec 32) : ℤ :=
  if c.status = 0#8 then len.toInt else -c.status.toNat

/-- What the completion leaves where the request stores `bytes`. -/
def Completion.bytes (c : Completion) (bytes : List Byte) : List Byte :=
  if c.status = 0#8 then bytes else (List.range bytes.length).map c.torn

@[simp] theorem Completion.length_bytes : (c.bytes data).length = data.length := by
  unfold Completion.bytes
  split <;> simp

/-- A device that never answers. -/
theorem ends_doVirtioBlkIo_nil (hc : w.completions = []) (hlen : buffer.length = len.toNat) :
    Ends (doVirtioBlkIo type lba len buffer) w Q E ↔
      E .hang (w.observe (.request type lba len (if type = virtioBlkTIn then [] else buffer))) := by
  simp only [doVirtioBlkIo, ← hlen, lt_irrefl, if_false, List.take_length, ends_bind, observe,
    ends_modify, ends_get, hc, ends_throw, World.observe]

/-- A device that completes the request with `c`: the driver polls on status `0xff`. -/
theorem ends_doVirtioBlkIo_cons (hc : w.completions = c :: cs)
    (hlen : buffer.length = len.toNat) :
    Ends (doVirtioBlkIo type lba len buffer) w Q E ↔
      let w₁ := w.observe (.request type lba len (if type = virtioBlkTIn then [] else buffer))
      let w₂ := { w₁ with
        disk := if type = virtioBlkTIn then w.disk else
          w.disk.write (lba.toNat * sectorSize) (c.bytes buffer)
        completions := cs }
      if c.status = 0xff#8 then E .hang w₂ else
        Q (c.code len, if type = virtioBlkTIn then
          c.bytes (w.disk.read (lba.toNat * sectorSize) len.toNat) else buffer)
          (w₂.observe (.completed (c.code len))) := by
  by_cases htype : type = virtioBlkTIn <;> by_cases hff : c.status = 0xff#8 <;>
    simp only [doVirtioBlkIo, ← hlen, lt_irrefl, if_false, if_true, List.take_length,
      List.drop_length, List.append_nil, ends_bind, observe, ends_modify, ends_get, ends_set,
      ends_pure, ends_throw, hc, htype, hff, World.observe, Completion.code, Completion.bytes,
      Disk.length_read]

end Requests

theorem toInt_envLen : envLen.toInt = ubootEnvSize := by
  rw [BitVec.toInt_eq_toNat_of_lt (by decide), toNat_envLen]

/-- The driver reports a failure for every status but `0`. -/
theorem Completion.code_neg_iff (c : Completion) : c.code envLen < 0 ↔ c.status ≠ 0#8 := by
  have hlen : 0 ≤ envLen.toInt := by decide
  unfold Completion.code
  split
  · rename_i h
    simpa [h] using hlen
  · rename_i h
    have hpos : 0 < c.status.toNat := Nat.pos_of_ne_zero fun h₀ => h (BitVec.eq_of_toNat_eq h₀)
    simpa [h] using hpos

/-- The device does not complete the next request. -/
def Hangs (completions : List Completion) : Prop := ∀ c ∈ completions.head?, c.status = 0xff#8

/-- **The block is read**, unless the device fails or hangs; the disk is left alone. -/
theorem ends_readBlock (w : World) (hlen : buffer.length = ubootEnvSize) :
    Ends (virtioBlkRead ubootEnvLba envLen buffer) w
      (fun r w' => ∃ c cs, w.completions = c :: cs ∧ r.1 = c.code envLen ∧
        (c.status = 0#8 → r.2 = envBlock w.disk) ∧
        w' = { w with
          completions := cs
          trace := w.trace ++ [readRequest, .completed (c.code envLen)] })
      (fun _ w' => Hangs w.completions ∧
        Logs [readRequest] { w with completions := w'.completions } w' ∧ w'.heap = w.heap) := by
  have hlen' : buffer.length = envLen.toNat := hlen.trans toNat_envLen.symm
  rcases hc : w.completions with _ | ⟨c, cs⟩
  · rw [virtioBlkRead, ends_doVirtioBlkIo_nil hc hlen']
    exact ⟨by simp [Hangs], ⟨rfl, rfl, rfl⟩, rfl⟩
  · rw [virtioBlkRead, ends_doVirtioBlkIo_cons hc hlen']
    by_cases hff : c.status = 0xff#8
    · simp only [hff, if_true]
      exact ⟨by simp [Hangs, hff], ⟨rfl, rfl, rfl⟩, rfl⟩
    · simp only [hff, if_false, if_true]
      refine ⟨c, cs, rfl, rfl, fun h₀ => ?_, ?_⟩
      · rw [Completion.bytes, if_pos h₀]
        rfl
      · simp [World.observe, readRequest, envLen]

/-- **A block is handed to the device**, which completes the request or hangs. -/
theorem ends_writeBlock (w : World) (hlen : data.length = ubootEnvSize) :
    Ends (virtioBlkWrite ubootEnvLba envLen data) w
      (fun r w' => (∃ c cs, w.completions = c :: cs ∧ r = c.code envLen) ∧
        Handed [] data (some r) [] w w' ∧ w'.nodes = w.nodes ∧ w'.heap = w.heap)
      (fun _ w' => Hangs w.completions ∧ Handed [] data none [] w w') := by
  have hlen' : data.length = envLen.toNat := hlen.trans toNat_envLen.symm
  have hout : virtioBlkTOut ≠ virtioBlkTIn := by decide
  have hoffset : ubootEnvLba.toNat * sectorSize = envOffset := rfl
  have houtside (c : Completion) (i : ℕ) (hi : i < envOffset ∨ envOffset + ubootEnvSize ≤ i) :
      w.disk.write envOffset (c.bytes data) i = w.disk i :=
    Disk.write_of_outside (by rwa [Completion.length_bytes, hlen])
  rcases hc : w.completions with _ | ⟨c, cs⟩
  · rw [virtioBlkWrite, ends_bind, ends_doVirtioBlkIo_nil hc hlen', if_neg hout]
    exact ⟨by simp [Hangs], rfl, fun _ _ => rfl, by simp⟩
  · rw [virtioBlkWrite, ends_bind, ends_doVirtioBlkIo_cons hc hlen']
    simp only [if_neg hout, hoffset]
    split
    · rename_i hff
      exact ⟨by simp [Hangs, hff], rfl, fun i hi => by simpa only using houtside c i hi, by simp⟩
    · refine ends_pure.mpr ⟨⟨c, cs, rfl, rfl⟩, ⟨?_, fun i hi => ?_, ?_⟩,
        by simp only [World.observe_nodes], by simp only [World.observe_heap]⟩
      · simp [World.observe, writeRequest]
      · simpa only [World.observe_disk] using houtside c i hi
      · rintro r hr hr₀
        obtain rfl := Option.some.inj hr
        have hstatus : c.status = 0#8 := by
          by_contra hne
          exact absurd (c.code_neg_iff.mpr hne) (by omega)
        rw [World.observe_disk, Completion.bytes, if_pos hstatus]

end LittleLoader
