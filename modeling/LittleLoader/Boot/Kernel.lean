import Mathlib.Algebra.Group.Nat.Defs
import LittleLoader.Boot.Device
import LittleLoader.Machine.Kernel

/-!
# Boot/Kernel — `load_kernel` loads the image that the header announces

    sector lba: the header  ──▸  kernel_base        the others, from lba + 1 on  ──▸  behind it

The image is loaded as it is on the disk, and nothing is stored behind its last sector, unless the
header says that it has no bytes (`loadsImage_iff`): then the second request is for `-1` sectors.
-/

namespace LittleLoader

variable {w w' : World} {lba : BitVec 64} {len : BitVec 32} {imageSize : BitVec 64}
  {buffer kernelBase p q : List Byte} {c c₁ c₂ : Completion} {cs : List Completion} {n : ℕ}

/-! ## The arithmetic -/

/-- The sectors that hold the image. -/
def imageSectors (imageSize : BitVec 64) : ℕ := (imageSize.toNat + (sectorSize - 1)) / sectorSize

/-- The memory the image may be stored to: its sectors, and the one of the header in any case. -/
def imageRegion (imageSize : BitVec 64) : ℕ := max sectorSize (imageSectors imageSize * sectorSize)

theorem toNat_numSectors (h : imageSize ≤ kernelMaxLength) :
    (numSectors imageSize).toNat = imageSectors imageSize := by
  have hle : imageSize.toNat ≤ 67108864 := h
  have hone : (1 : BitVec 64).toNat = 1 := rfl
  simp only [numSectors, imageSectors, sectorSize, BitVec.toNat_setWidth, BitVec.toNat_udiv,
    BitVec.toNat_sub, BitVec.toNat_add, BitVec.toNat_ofNat, hone, Nat.reducePow, Nat.reduceMod]
  omega

theorem imageSectors_le (h : imageSize ≤ kernelMaxLength) : imageSectors imageSize ≤ 131072 := by
  have hle : imageSize.toNat ≤ 67108864 := h
  simp only [imageSectors, sectorSize]
  omega

/-- **The second request is for the other sectors**, if there is a first one. -/
theorem toNat_restBytes (h : imageSize ≤ kernelMaxLength) (hne : imageSize ≠ 0) :
    (restBytes (numSectors imageSize)).toNat = (imageSectors imageSize - 1) * sectorSize := by
  have hle := imageSectors_le h
  have hpos : 0 < imageSize.toNat := Nat.pos_of_ne_zero fun h₀ => hne (BitVec.eq_of_toNat_eq h₀)
  have hsectors : 0 < imageSectors imageSize := by
    simp only [imageSectors, sectorSize]
    omega
  have hone : (1 : BitVec 32).toNat = 1 := rfl
  simp only [restBytes, sectorSize, BitVec.toNat_mul, BitVec.toNat_sub, BitVec.toNat_ofNat,
    toNat_numSectors h, hone, Nat.reducePow, Nat.reduceMod]
  omega

/-! ## The header -/

theorem loadLe_append (h : n ≤ p.length) (q : List Byte) : loadLe n (p ++ q) = loadLe n p := by
  induction n generalizing p with
  | zero => cases p <;> cases q <;> rfl
  | succ n ih =>
    match p with
    | [] => simp at h
    | b :: p => rw [List.cons_append, loadLe, loadLe, ih (by simpa using h)]

/-- The header is in the first sector. -/
theorem kernelHeader_append (h : p.length = sectorSize) (q : List Byte) :
    kernelHeader (p ++ q) = kernelHeader p := by
  rw [sectorSize] at h
  rw [kernelHeader, kernelHeader, List.drop_append_of_le_length (by omega),
    List.drop_append_of_le_length (by omega), loadLe_append (by rw [List.length_drop]; omega),
    loadLe_append (by rw [List.length_drop]; omega)]

/-! ## The requests -/

/-- The state after a read of `len` bytes that the device has carried out. -/
def World.afterRead (w : World) (lba : BitVec 64) (len : BitVec 32) (cs : List Completion) : World :=
  { w.observe (.request virtioBlkTIn lba len []) with completions := cs }.observe
    (.completed len.toInt)

/-- **A read that succeeds** stores the sectors, and nothing behind them. -/
theorem ends_virtioBlkRead {Q : ℤ × List Byte → World → Prop} {E : Stop → World → Prop}
    (hc : w.completions = c :: cs) (hstatus : c.status = 0#8) (hlen : len.toNat ≤ buffer.length) :
    Ends (virtioBlkRead lba len buffer) w Q E ↔
      Q (len.toInt, w.disk.read (lba.toNat * sectorSize) len.toNat ++ buffer.drop len.toNat)
        (w.afterRead lba len cs) := by
  simp only [virtioBlkRead, doVirtioBlkIo, not_lt.mpr hlen, if_false, if_true, ends_bind, observe,
    ends_modify, ends_get, ends_set, ends_pure, hc, hstatus, World.afterRead, World.observe,
    (by decide : (0#8 : Byte) ≠ 0xff#8)]

/-- The state after both requests. -/
def World.afterKernel (w : World) (lba : BitVec 64) (imageSize : BitVec 64)
    (cs : List Completion) : World :=
  (w.afterRead lba (BitVec.ofNat 32 sectorSize) (w.completions.drop 1)).afterRead (lba + 1)
    (restBytes (numSectors imageSize)) cs

/-- The memory after both requests. -/
def loadedImage (disk : Disk) (lba : BitVec 64) (imageSize : BitVec 64) (kernelBase : List Byte) :
    List Byte :=
  disk.read (lba.toNat * sectorSize) sectorSize ++
    (disk.read ((lba + 1).toNat * sectorSize) (restBytes (numSectors imageSize)).toNat ++
      kernelBase.drop (sectorSize + (restBytes (numSectors imageSize)).toNat))

/-- **`load_kernel`, with both requests carried out**, and enough memory for them.  The length of
the second one comes back as an `int`. -/
theorem ends_loadKernel {Q : BitVec 64 × List Byte → World → Prop} {E : Stop → World → Prop}
    (hc : w.completions = c₁ :: c₂ :: cs) (h₁ : c₁.status = 0#8) (h₂ : c₂.status = 0#8)
    (hheader : kernelHeader (w.disk.read (lba.toNat * sectorSize) sectorSize)
      = some ⟨imageSize, kernelMagic⟩) (hmax : imageSize ≤ kernelMaxLength)
    (hlen : sectorSize + (restBytes (numSectors imageSize)).toNat ≤ kernelBase.length) :
    Ends (loadKernel lba kernelBase) w Q E ↔
      if (restBytes (numSectors imageSize)).toInt < 0 then
        E (.fatal ⟨"Failed to read kernel", []⟩) (w.afterKernel lba imageSize cs)
      else
        Q (imageSize, loadedImage w.disk lba imageSize kernelBase)
          (w.afterKernel lba imageSize cs) := by
  have hsector : (BitVec.ofNat 32 sectorSize).toNat = sectorSize := rfl
  have hpos : ¬ (BitVec.ofNat 32 sectorSize).toInt < 0 := by decide
  have hread := Disk.length_read w.disk (lba.toNat * sectorSize) sectorSize
  rw [loadKernel, ends_bind, ends_virtioBlkRead hc h₁ (by omega)]
  simp only [hsector, if_neg hpos, ends_bind, ends_access ((kernelHeader_append hread _).trans hheader),
    ne_eq, not_true, if_false, BitVec.not_lt.mpr hmax, gt_iff_lt]
  rw [List.drop_left' hread, List.take_left' hread, ends_virtioBlkRead (c := c₂) rfl h₂
    (by rw [List.length_drop]; omega), List.drop_drop]
  have hlast : w.afterKernel lba imageSize cs = World.afterRead
      (w.afterRead lba (BitVec.ofNat 32 sectorSize) (c₂ :: cs)) (lba + 1)
        (restBytes (numSectors imageSize)) cs := by
    rw [World.afterKernel, hc, List.drop_one, List.tail_cons]
  have hdisk : (w.afterRead lba (BitVec.ofNat 32 sectorSize) (c₂ :: cs)).disk = w.disk := rfl
  rw [hlast, hdisk]
  split
  · rw [ends_bind, fatal, ends_throw]
  · rw [ends_bind, ends_access ((kernelHeader_append hread _).trans hheader), ends_pure]
    rfl

/-! ## The image -/

/-- **`load_kernel` loads exactly the image**: its arithmetic is that of the integers, nothing but
the sectors of the image is stored, the image is that of the disk, and its size is returned. -/
structure LoadsImage (w : World) (lba imageSize : BitVec 64) (kernelBase : List Byte) : Prop where
  sectors : (numSectors imageSize).toInt = imageSectors imageSize
  length : ((restBytes (numSectors imageSize)).toNat : ℤ)
    = ((imageSectors imageSize : ℤ) - 1) * sectorSize
  returns : Returns (loadKernel lba kernelBase) w fun r _ => r.1 = imageSize ∧
    ∃ image, image.length = imageRegion imageSize ∧
      r.2 = image ++ kernelBase.drop (imageRegion imageSize) ∧
        image.take imageSize.toNat = w.disk.read (lba.toNat * sectorSize) imageSize.toNat

/-- The image goes on in the sector after that of the header.  Only for the last number of a sector
there is none, and the second request starts at sector 0 again. -/
def Continues (disk : Disk) (lba imageSize : BitVec 64) : Prop :=
  lba + 1 = 0 → disk.read 0 (imageSize.toNat - sectorSize)
    = disk.read (2 ^ 64 * sectorSize) (imageSize.toNat - sectorSize)

theorem continues_iff {disk : Disk} : Continues disk lba imageSize ↔
    disk.read ((lba + 1).toNat * sectorSize) (imageSize.toNat - sectorSize)
      = disk.read (lba.toNat * sectorSize + sectorSize) (imageSize.toNat - sectorSize) := by
  have hadd : (lba + 1).toNat = (lba.toNat + 1) % 2 ^ 64 := by
    rw [BitVec.toNat_add]
    rfl
  have hlt := lba.isLt
  by_cases h : lba + 1 = 0
  · have hlast : lba.toNat + 1 = 2 ^ 64 := by
      have h₀ : (lba + 1).toNat = 0 := by rw [h]; rfl
      omega
    have hnext : lba.toNat * sectorSize + sectorSize = 2 ^ 64 * sectorSize := by
      rw [← hlast, Nat.succ_mul]
    have hzero : (lba + 1).toNat = 0 := by rw [h]; rfl
    rw [Continues, hnext, hzero, Nat.zero_mul]
    exact imp_iff_right h
  · have hne : (lba + 1).toNat ≠ 0 := fun h₀ => h (BitVec.eq_of_toNat_eq h₀)
    have hnext : (lba + 1).toNat = lba.toNat + 1 := by omega
    rw [hnext, Nat.succ_mul]
    exact iff_of_true (fun h₀ => absurd h₀ h) rfl

/-- The sectors of an image, read one after the other. -/
theorem Disk.read_add (disk : Disk) (offset m n : ℕ) :
    disk.read offset (m + n) = disk.read offset m ++ disk.read (offset + m) n := by
  simp [Disk.read, List.range_add, Function.comp_def, Nat.add_assoc]

theorem Disk.take_read (disk : Disk) (offset : ℕ) {m n : ℕ} (h : m ≤ n) :
    (disk.read offset n).take m = disk.read offset m := by
  rw [← Nat.add_sub_cancel' h, Disk.read_add, List.take_left' (Disk.length_read _ _ _)]

/-- **The loaded image is that of the disk exactly if** it goes on where it should. -/
theorem take_loadedImage_iff {disk : Disk} (hmax : imageSize ≤ kernelMaxLength)
    (hne : imageSize ≠ 0) :
    (disk.read (lba.toNat * sectorSize) sectorSize ++ disk.read ((lba + 1).toNat * sectorSize)
        (restBytes (numSectors imageSize)).toNat).take imageSize.toNat
      = disk.read (lba.toNat * sectorSize) imageSize.toNat ↔ Continues disk lba imageSize := by
  have hrest := toNat_restBytes hmax hne
  have hle : imageSize.toNat - sectorSize ≤ (restBytes (numSectors imageSize)).toNat := by
    rw [hrest]
    simp only [imageSectors, sectorSize]
    omega
  rw [continues_iff, List.take_append, Disk.length_read, Disk.take_read _ _ hle]
  by_cases hsmall : imageSize.toNat ≤ sectorSize
  · rw [Disk.take_read _ _ hsmall, Nat.sub_eq_zero_of_le hsmall]
    simp [Disk.read]
  · have hsplit : imageSize.toNat = sectorSize + (imageSize.toNat - sectorSize) := by omega
    rw [List.take_of_length_le (by rw [Disk.length_read]; omega)]
    conv_lhs => rhs; rw [hsplit, Disk.read_add]
    rw [List.append_right_inj]

/-- The length of the second request of a kernel with a sector is no negative `int`. -/
theorem toInt_restBytes (hmax : imageSize ≤ kernelMaxLength) (hne : imageSize ≠ 0) :
    ¬ (restBytes (numSectors imageSize)).toInt < 0 := by
  have hle := imageSectors_le hmax
  have hrest := toNat_restBytes hmax hne
  have hlt : 2 * (restBytes (numSectors imageSize)).toNat < 2 ^ 32 := by
    rw [hrest, sectorSize]
    omega
  rw [BitVec.toInt_eq_toNat_of_lt hlt]
  omega

/-- **`load_kernel` loads exactly the image, exactly if there is one**: for every header that it
accepts, with any size but zero, as long as the sectors of the image have consecutive numbers. -/
theorem loadsImage_iff (hc : w.completions = c₁ :: c₂ :: cs) (h₁ : c₁.status = 0#8)
    (h₂ : c₂.status = 0#8)
    (hheader : kernelHeader (w.disk.read (lba.toNat * sectorSize) sectorSize)
      = some ⟨imageSize, kernelMagic⟩) (hmax : imageSize ≤ kernelMaxLength)
    (hroom : imageRegion imageSize ≤ kernelBase.length) :
    LoadsImage w lba imageSize kernelBase ↔ imageSize ≠ 0 ∧ Continues w.disk lba imageSize := by
  have hsectors := imageSectors_le hmax
  by_cases hne : imageSize = 0
  · refine ⟨fun h => ?_, fun h => absurd hne h.1⟩
    have hlength := h.length
    rw [hne] at hlength
    exact absurd hlength (by decide)
  have hrest := toNat_restBytes hmax hne
  have hpos : 0 < imageSectors imageSize := by
    have : 0 < imageSize.toNat := Nat.pos_of_ne_zero fun h₀ => hne (BitVec.eq_of_toNat_eq h₀)
    simp only [imageSectors, sectorSize]
    omega
  have hregion : imageRegion imageSize
      = sectorSize + (restBytes (numSectors imageSize)).toNat := by
    rw [hrest, imageRegion, sectorSize]
    omega
  have hsize : imageSize.toNat ≤ imageRegion imageSize := by
    simp only [imageRegion, imageSectors, sectorSize]
    omega
  -- the bytes that are stored are as many as the region has
  have hstored : loadedImage w.disk lba imageSize kernelBase =
      (w.disk.read (lba.toNat * sectorSize) sectorSize ++
        w.disk.read ((lba + 1).toNat * sectorSize) (restBytes (numSectors imageSize)).toNat) ++
          kernelBase.drop (imageRegion imageSize) := by
    rw [loadedImage, List.append_assoc, hregion]
  have hlen : (w.disk.read (lba.toNat * sectorSize) sectorSize ++
      w.disk.read ((lba + 1).toNat * sectorSize) (restBytes (numSectors imageSize)).toNat).length
      = imageRegion imageSize := by
    rw [List.length_append, Disk.length_read, Disk.length_read, hregion]
  have hrun : ∀ Q : BitVec 64 × List Byte → World → Prop, Returns (loadKernel lba kernelBase) w Q ↔
      Q (imageSize, loadedImage w.disk lba imageSize kernelBase) (w.afterKernel lba imageSize cs) := by
    intro Q
    have hends := ends_loadKernel (Q := Q) (E := fun _ _ => False) hc h₁ h₂ hheader hmax
      (hregion ▸ hroom)
    rw [if_neg (toInt_restBytes hmax hne)] at hends
    exact ⟨fun h => hends.mp h.ends, fun h => (hends.mpr h).returns fun _ _ => id⟩
  constructor
  · intro h
    obtain ⟨-, image, himage, hr, htake⟩ := (hrun _).mp h.returns
    obtain rfl := (List.append_inj (hstored.symm.trans hr) (hlen.trans himage.symm)).1
    exact ⟨hne, (take_loadedImage_iff hmax hne).mp htake⟩
  · rintro ⟨-, hcontinues⟩
    refine ⟨?_, ?_, (hrun _).mpr ⟨rfl, _, hlen, hstored,
      (take_loadedImage_iff hmax hne).mpr hcontinues⟩⟩
    · have hnum := toNat_numSectors hmax
      rw [BitVec.toInt_eq_toNat_of_lt (by omega), hnum]
    · rw [hrest, sectorSize]
      omega

/-! ## Two kernels -/

/-- A disk that begins with the header of a kernel of the size that the bytes store. -/
def headerDisk (imageSize : List Byte) : Disk := fun i =>
  (List.replicate 16 0#8 ++ imageSize ++ List.replicate 32 0#8 ++
    [0x41#8, 0x52#8, 0x4d#8, 0x64#8])[i]?.getD 0#8

/-- A kernel of 600 bytes: two sectors. -/
theorem loadsImage_iff_small :
    LoadsImage (.powerOn 0 (headerDisk [0x58#8, 2#8, 0#8, 0#8, 0#8, 0#8, 0#8, 0#8])
      [⟨0#8, fun _ => 0#8⟩, ⟨0#8, fun _ => 0#8⟩]) 0 600 (List.replicate 1024 0#8) := by
  have hroom : imageRegion 600 ≤ (List.replicate 1024 0#8).length := by
    rw [List.length_replicate]
    decide
  exact Iff.mpr (loadsImage_iff rfl rfl rfl (by decide +kernel) (by decide) hroom)
    ⟨by decide, fun h => absurd h (by decide)⟩

/-- A disk with a kernel of no bytes, and a device that carries out two requests. -/
def emptyKernel : World :=
  .powerOn 0 (headerDisk (List.replicate 8 0#8)) [⟨0#8, fun _ => 0#8⟩, ⟨0#8, fun _ => 0#8⟩]

theorem kernelHeader_emptyKernel :
    kernelHeader (emptyKernel.disk.read ((0 : BitVec 64).toNat * sectorSize) sectorSize)
      = some ⟨0, kernelMagic⟩ := by decide +kernel

/-- **A kernel without bytes** sends the driver off for `2^32 - 512` bytes, and the device that
delivers them has failed, by the sign of that `int`. -/
theorem not_loadsImage_emptyKernel :
    kernelHeader (emptyKernel.disk.read ((0 : BitVec 64).toNat * sectorSize) sectorSize)
        = some ⟨0, kernelMagic⟩ ∧
      ¬ LoadsImage emptyKernel 0 0 (List.replicate 4294967296 0#8) ∧
        Ends (loadKernel 0 (List.replicate 4294967296 0#8)) emptyKernel (fun _ _ => False)
          fun e _ => e = .fatal ⟨"Failed to read kernel", []⟩ := by
  refine ⟨kernelHeader_emptyKernel, fun h => absurd h.length (by decide), ?_⟩
  have hlen : sectorSize + (restBytes (numSectors 0)).toNat
      ≤ (List.replicate 4294967296 0#8).length := by
    rw [List.length_replicate]
    decide
  generalize List.replicate 4294967296 0#8 = kernelBase at hlen ⊢
  have hcompletions : emptyKernel.completions = [⟨0#8, fun _ => 0#8⟩, ⟨0#8, fun _ => 0#8⟩] := rfl
  rw [ends_loadKernel hcompletions rfl rfl kernelHeader_emptyKernel (by decide) hlen]
  exact (if_pos (by decide)).mpr rfl

end LittleLoader
