import LittleLoader.Dtb.Contained
import LittleLoader.Dtb.Runs

/-!
# Dtb/Untrusted — `load_dtb` and any sequence of edits, on any bytes

    memory  ──load_dtb──▸   memory, changed at the destination only   |   fatal

The tree comes from outside, and nothing is known of it.  Whatever the bytes are, every request on a
blob with an accepted header ends and stays inside the blob, and `load_dtb` ends: it leaves the
memory outside its destination alone, or it stops the boot.
-/

namespace LittleLoader

open Memory Mem

variable {m m' m'' : Mem} {fdt n : ℕ} {args : CStr}

/-! ## Requests -/

namespace Keeps

theorem refl (hheader : fdtCheckHeader m fdt = 0) : Keeps fdt (fdtTotalsize m fdt) m m :=
  ⟨.refl _ _ _, hheader, rfl⟩

theorem trans (h : Keeps fdt n m m') (h' : Keeps fdt n m' m'') : Keeps fdt n m m'' :=
  ⟨h.same.trans h'.same, h'.checkHeader, h'.totalsize⟩

end Keeps

/-- A request that can be made of any blob of `n` bytes. -/
structure Request.Bounded (n : ℕ) (q : Request) : Prop where
  bytewise : q.edit.bytewise
  size : n + q.edit.size < 0x80000000

theorem Request.call_contained {q : Request} (hheader : fdtCheckHeader m fdt = 0)
    (hbound : fdt + fdtTotalsize m fdt ≤ 0x10000000000000000)
    (hq : q.Bounded (fdtTotalsize m fdt)) : Yields (q.call fdt m) (Contained m fdt) :=
  ((readable hheader hbound).pathOffset_yields _).bind fun _ ho =>
    .ite (fun _ => .pure (.refl hheader)) fun _ =>
      Edit.call_contained hheader hbound ho hq.bytewise hq.size

/-- **Requests stay inside the blob.** -/
theorem simulates_contained (m₀ : Mem) (hbound : fdt + n ≤ 0x10000000000000000) :
    Simulates (fun m (_ : Unit) => Keeps fdt n m₀ m) (Request.Bounded n) (Request.call fdt)
      fun _ _ _ _ => True := by
  rintro q m ⟨⟩ hq hm
  obtain ⟨⟨r, m'⟩, hcall, hkeeps⟩ := Request.call_contained (q := q) hm.checkHeader
    (hm.totalsize.symm ▸ hbound) (hm.totalsize.symm ▸ hq)
  rw [Contained, hm.totalsize] at hkeeps
  exact ⟨r, m', (), hcall, trivial, hm.trans hkeeps⟩

/-- **Any sequence of requests, on any bytes**: behind a header that `fdt_check_header` takes, every
request ends with a return code.  Nothing outside the blob changes, and the header stays one that
is taken, for a blob of the same size. -/
theorem requests_contained {qs : List Request} (hheader : fdtCheckHeader m fdt = 0)
    (hbound : fdt + fdtTotalsize m fdt ≤ 0x10000000000000000)
    (hqs : ∀ q ∈ qs, q.Bounded (fdtTotalsize m fdt)) :
    ∃ rs m', runInputs (Request.call fdt) qs m = .ok (rs, m') ∧
      SameOutside fdt (fdtTotalsize m fdt) m m' ∧ fdtCheckHeader m' fdt = 0 ∧
      fdtTotalsize m' fdt = fdtTotalsize m fdt := by
  obtain ⟨rs, m', -, hrun, -, hkeeps⟩ := (simulates_contained m hbound).run hqs
    (s := m) (t := ()) (.refl hheader)
  exact ⟨rs, m', hrun, hkeeps.same, hkeeps.checkHeader, hkeeps.totalsize⟩

/-- A property is set, and looked for under an alias. -/
theorem requests_contained_unitAddress : ∃ r rs m',
    runInputs (Request.call 0x1000) [setQuiet, ⟨.lit "console/0", .delprop bootargs⟩]
        (atSource unitAddress) = .ok (r :: rs, m') ∧ 0 ≤ r ∧
      SameOutside 0x1000 unitAddress.totalsize (atSource unitAddress) m' ∧
      fdtCheckHeader m' 0x1000 = 0 ∧ fdtTotalsize m' 0x1000 = unitAddress.totalsize := by
  have hhas : Has (atSource unitAddress) 0x1000 unitAddress.bytes := has_write _ _ _
  have hloaded := unitAddress_stores.loaded hhas unitAddress_editable.size (by decide) (by decide)
  obtain ⟨r, m₁, -, hdone, hr, -⟩ := unitAddress_stores.call_done unitAddress_editable hhas
    (by decide) (by decide) setQuiet_valid setQuiet_apply (by decide)
  have hbounded : ∀ q ∈ [setQuiet, ⟨.lit "console/0", .delprop bootargs⟩],
      q.Bounded unitAddress.totalsize := by
    simp only [List.forall_mem_cons]
    exact ⟨⟨rfl, by decide⟩, ⟨rfl, by decide⟩, by simp⟩
  obtain ⟨rs, m', hrun, hsame, hheader, htotal⟩ := requests_contained hloaded.checkHeader_eq
    (hloaded.totalsize_eq ▸ by decide) (hloaded.totalsize_eq.symm ▸ hbounded)
  rw [hloaded.totalsize_eq] at hsame htotal
  obtain ⟨rs, rfl, -⟩ := exists_of_runInputs hdone hrun
  exact ⟨r, rs, m', hrun, hr, hsame, hheader, htotal⟩

/-! ## `load_dtb` -/

/-- One check of a header, before others. -/
theorem code_or_zero {c : Prop} [Decidable c] {e : FdtErr} {r : ℤ}
    (hr : (∃ e : FdtErr, r = e.code) ∨ r = 0) :
    (∃ e' : FdtErr, (if c then e.code else r) = e'.code) ∨ (if c then e.code else r) = 0 := by
  split
  · exact .inl ⟨e, rfl⟩
  · exact hr

theorem checkHeader_cases (m : Mem) (fdt : ℕ) :
    (∃ e : FdtErr, fdtCheckHeader m fdt = e.code) ∨ fdtCheckHeader m fdt = 0 := by
  rw [fdtCheckHeader]
  iterate 9 refine code_or_zero ?_
  exact .inr rfl

/-- What stops a boot, and is no fault and no endless loop. -/
def IsFatal (e : Stop) : Prop := ∃ message, e = .fatal message

/-- The last step of `fdt_add_bootargs`, at a node that is found or made. -/
theorem setBootargs_contained {o : ℤ} (hlen : args.bytes.length + 64 < 0x80000000)
    (hbound : fdt + n ≤ 0x10000000000000000) (hm : Keeps fdt n m m') (ho : o < 0x80000000) :
    YieldsOr (fdtSetprop m' fdt o bootargs.obj args.obj (args.bytes.length + 1) >>= fun x =>
      if x.1 < 0 then fatalFdt "Failed to set bootargs property: %s" x.1 else pure x.2)
      (Keeps fdt n m) IsFatal := by
  have hroom := bootargsRoom_le args
  have hle : (Edit.setprop bootargs args.obj).size ≤ bootargsRoom args := Nat.le_add_left _ _
  have hset := setprop_contained hm.checkHeader (hm.totalsize.symm ▸ hbound) ho bootargs args.obj
    (by omega)
  rw [args.length_obj] at hset
  refine hset.or.bind fun x hx => .ite (fun _ => .throw ⟨_, rfl⟩) fun _ => (Yields.pure ?_).or
  rw [Contained, hm.totalsize] at hx
  exact hm.trans hx

/-- **`fdt_add_bootargs`**, whatever is in the memory. -/
theorem addBootargs_contained (hlen : args.bytes.length + 64 < 0x80000000)
    (hbound : fdt + fdtTotalsize m fdt ≤ 0x10000000000000000) :
    YieldsOr (fdtAddBootargs m fdt (some args.obj)) (Keeps fdt (fdtTotalsize m fdt) m) IsFatal := by
  have hfatal {β : Type} {Q : β → Prop} (fmt : String) (r : ℤ) (f : ℤ × Mem → MemM β) :
      YieldsOr (fatalFdt fmt r >>= f) Q IsFatal :=
    .bind (P := fun _ => False) (.throw ⟨_, rfl⟩) fun _ h => h.elim
  have hlit : lit "chosen" = chosen.obj := rfl
  have hlit' : lit "bootargs" = bootargs.obj := rfl
  have hlast {x : ℤ × Mem} (hx : Keeps fdt (fdtTotalsize m fdt) m x.2) (ho : x.1 < 0x80000000) :=
    setBootargs_contained hlen hbound hx ho
  rw [fdtAddBootargs]
  simp only
  refine .ite (fun _ => .throw ⟨_, rfl⟩) fun hpos => ?_
  have hheader : fdtCheckHeader m fdt = 0 := by
    rcases checkHeader_cases m fdt with ⟨e, he⟩ | hzero
    · exact absurd (he ▸ e.code_neg) hpos
    · exact hzero
  rw [hlit, hlit', args.fetch_strlen]
  refine ((readable hheader hbound).pathOffset_yields _).or.bind fun o ho => .ite (fun _ => ?_)
    fun _ => .ite (fun _ => hfatal _ _ _) fun _ => hlast (x := (o, m)) (.refl hheader) ho
  exact (addSubnode_contained hheader hbound (by decide) chosen (by decide)).or.bind fun x hx =>
    .ite (fun _ => hfatal _ _ _) fun _ => hlast hx.2 hx.1

section Copy

variable {src dest : ℕ}

/-- `load_dtb` stops, or goes on with the copy. -/
theorem loadDtb_cases (m : Mem) (src dest : ℕ) (args : Option (List Byte)) :
    (∃ e, loadDtb m src dest args = .error e ∧ IsFatal e) ∨
      loadDtb m src dest args
        = fdtAddBootargs (m.memcpy dest src (m.ld32 (src + 4))) dest args := by
  rw [loadDtb]
  simp only
  by_cases hmagic : m.ldWord src ≠ 0xedfe0dd0
  · rw [if_pos hmagic]
    exact .inl ⟨_, rfl, _, rfl⟩
  · rw [if_neg hmagic, toNat_be32ToLe32]
    exact .inr rfl

theorem sameOutside_memcpy (hdisj : src + n ≤ dest ∨ dest + n ≤ src) :
    SameOutside dest n m (m.memcpy dest src n) := by
  rw [Mem.memcpy_eq (by omega)]
  exact .write m le_rfl (by rw [length_read])

theorem memcpy_of_inside {i : ℕ} (hdisj : src + n ≤ dest ∨ dest + n ≤ src) (hi : i < n) :
    m.memcpy dest src n (dest + i) = m (src + i) := by
  rw [Mem.memcpy_eq (by omega), write_of_inside (by rwa [length_read]), getElem_read]

/-- The copy has the size that the source says. -/
theorem totalsize_memcpy (hdisj : src + n ≤ dest ∨ dest + n ≤ src) (hsize : 8 ≤ n) :
    fdtTotalsize (m.memcpy dest src n) dest = m.ld32 (src + 4) := by
  rw [fdtTotalsize]
  refine ld32_congr fun i hi => ?_
  have hlt : 4 + i < n := by omega
  rw [Nat.add_assoc, memcpy_of_inside hdisj hlt, Nat.add_assoc]

/-- Without boot arguments. -/
theorem loadDtb_copies (m : Mem)
    (hdisj : src + m.ld32 (src + 4) ≤ dest ∨ dest + m.ld32 (src + 4) ≤ src) :
    YieldsOr (loadDtb m src dest none) (SameOutside dest (m.ld32 (src + 4)) m) IsFatal := by
  rcases loadDtb_cases m src dest none with ⟨e, hload, he⟩ | hload
  · rw [hload]
    exact he
  · rw [hload]
    exact sameOutside_memcpy hdisj

/-- With boot arguments. -/
theorem loadDtb_adds (m : Mem) (hlen : args.bytes.length + 64 < 0x80000000)
    (hsize : 8 ≤ m.ld32 (src + 4)) (hbound : dest + m.ld32 (src + 4) ≤ 0x10000000000000000)
    (hdisj : src + m.ld32 (src + 4) ≤ dest ∨ dest + m.ld32 (src + 4) ≤ src) :
    YieldsOr (loadDtb m src dest (some args.obj)) (Keeps dest (m.ld32 (src + 4)) m) IsFatal := by
  rcases loadDtb_cases m src dest (some args.obj) with ⟨e, hload, he⟩ | hload
  · rw [hload]
    exact he
  · have htotal := totalsize_memcpy (m := m) hdisj hsize
    have hadd := addBootargs_contained hlen (htotal.symm ▸ hbound)
    rw [htotal] at hadd
    rw [hload]
    exact hadd.mono fun _ hkeeps =>
      ⟨(sameOutside_memcpy hdisj).trans hkeeps.same, hkeeps.checkHeader, hkeeps.totalsize⟩

end Copy

/-- **`load_dtb` on any memory**: the run ends.  Either it stops the boot, or nothing has changed
outside the bytes that the source says it has, at the destination; with boot arguments, what is
there then has a header that `fdt_check_header` takes. -/
theorem loadDtb_contained (m : Mem) (src dest : ℕ) (args : Option CStr)
    (hlen : ∀ a ∈ args, a.bytes.length + 64 < 0x80000000) (hsize : 8 ≤ m.ld32 (src + 4))
    (hbound : dest + m.ld32 (src + 4) ≤ 0x10000000000000000)
    (hdisj : src + m.ld32 (src + 4) ≤ dest ∨ dest + m.ld32 (src + 4) ≤ src) :
    YieldsOr (loadDtb m src dest (args.map CStr.obj)) (fun m' =>
      SameOutside dest (m.ld32 (src + 4)) m m' ∧
        (args ≠ none → fdtCheckHeader m' dest = 0 ∧ fdtTotalsize m' dest = m.ld32 (src + 4)))
      IsFatal := by
  cases args with
  | none => exact (loadDtb_copies m hdisj).mono fun _ hsame => ⟨hsame, fun h => absurd rfl h⟩
  | some a =>
    exact (loadDtb_adds m (hlen a rfl) hsize hbound hdisj).mono fun _ hkeeps =>
      ⟨hkeeps.same, fun _ => ⟨hkeeps.checkHeader, hkeeps.totalsize⟩⟩

/-- A blob that is edited. -/
theorem loadDtb_contained_unitAddress : ∃ m',
    loadDtb (atSource unitAddress) 0x1000 0x2000 (some (CStr.lit "quiet").obj) = .ok m' ∧
      SameOutside 0x2000 unitAddress.totalsize (atSource unitAddress) m' ∧
      fdtCheckHeader m' 0x2000 = 0 ∧ fdtTotalsize m' 0x2000 = unitAddress.totalsize := by
  have hhas : Has (atSource unitAddress) 0x1000 unitAddress.bytes := has_write _ _ _
  have htotal : unitAddress.totalsize = 172 := totalsize_sampleLayout unitAddressItems 80
  generalize atSource unitAddress = m at hhas ⊢
  have hsize : m.ld32 (0x1000 + 4) = 172 := htotal ▸
    (unitAddress_stores.loaded hhas unitAddress_editable.size (by decide) (by decide)).totalsize_eq
  have hloads : Loads m 0x1000 0x2000 unitAddress.totalsize (.lit "quiet") _ :=
    unitAddress_stores.loads_of_room unitAddress_editable hhas (by decide) (by decide) (by decide)
      (by decide)
  obtain ⟨m', hload, -⟩ := hloads
  have hcontained := loadDtb_contained m 0x1000 0x2000 (some (.lit "quiet")) (by decide) (by omega)
    (by omega) (by omega)
  rw [hsize, ← htotal] at hcontained
  obtain ⟨hsame, hheader⟩ := hcontained.of_eq_ok hload
  exact ⟨m', hload, hsame, hheader (Option.some_ne_none _)⟩

end LittleLoader
