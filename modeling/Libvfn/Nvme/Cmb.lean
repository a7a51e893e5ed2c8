import Libvfn.Iommu.Intervals
import Libvfn.Vfio.Pci

/-!
# The controller memory buffer

A controller may offer some of its own memory. The register `CMBLOC` says where it is, namely
in which region of the PCI device and at which offset, and `CMBSZ` how large it is; offset and
size are counted in a unit that `CMBSZ` names. `nvme_configure_cmb` maps the memory into the
process and for the device, and `nvme_discard_cmb` undoes this.

The registers are arguments of the functions. The writes to `CMBMSC` are recorded, and so are
the calls of `vfio_pci_map_bar` and `vfio_pci_unmap_bar` with what comes of them.
-/

namespace Libvfn

namespace Nvme

namespace Cmb

open Word Support Iommu Vfio

/-! ## Registers -/

def capCmbs (cap : U64) : U64 := cap >>> 57 &&& 0x1

def cmblocBir (cmbloc : BitVec 32) : BitVec 32 := cmbloc &&& 0x7

def cmblocOfst (cmbloc : BitVec 32) : BitVec 32 := cmbloc >>> 12 &&& 0xfffff

def cmbszSzu (cmbsz : BitVec 32) : BitVec 32 := cmbsz >>> 8 &&& 0xf

def cmbszSz (cmbsz : BitVec 32) : BitVec 32 := cmbsz >>> 12 &&& 0xfffff

def nvmeCmbSize (cmbsz : BitVec 32) : U64 :=
  (cmbszSz cmbsz).setWidth 64 * ((1 : U64) <<< (12 + 4 * (cmbszSzu cmbsz).toNat))

structure BarBytes where
  bar : ℕ
  start : ℕ
  len : ℕ
  deriving DecidableEq

def cmbUnit (cmbsz : BitVec 32) : ℕ := 2 ^ (12 + 4 * (cmbszSzu cmbsz).toNat)

/-- The memory of the controller, as NVMe defines it. -/
def nvmeCmbBytes (cmbloc cmbsz : BitVec 32) : BarBytes where
  bar := (cmblocBir cmbloc).toNat
  start := (cmblocOfst cmbloc).toNat * cmbUnit cmbsz
  len := (cmbszSz cmbsz).toNat * cmbUnit cmbsz

/-! ## The buffer -/

inductive BarCall where
  | map (bar : ℕ) (len offset : U64) (mmap : MmapCall)
  | unmap (bar : ℕ) (mem len offset munmap : U64)
  deriving DecidableEq

def BarCall.bytes : BarCall → BarBytes
  | .map bar len offset _ => ⟨bar, offset.toNat, len.toNat⟩
  | .unmap bar _ len offset _ => ⟨bar, offset.toNat, len.toNat⟩

def BarCall.length : BarCall → U64
  | .map _ _ _ mmap => mmap.len
  | .unmap _ _ _ _ munmap => munmap

structure Buffer where
  bar : ℕ
  vaddr : U64
  iova : U64
  size : U64

def Buffer.zeroed : Buffer := ⟨0, 0, 0, 0⟩

structure State (σ : Type*) where
  cmb : Buffer
  ctx : IommuCtx σ
  cmbmsc : List U64
  calls : List BarCall

structure Regs where
  cap : U64
  cmbmsc : U64
  cmbloc : BitVec 32
  cmbsz : BitVec 32

section Functions

variable {σ δ : Type*}

/-- `nvme_configure_cmb` once the buffer is mapped into the process. -/
def nvmeMapCmb (ops : IommuCtxOps σ) (s : State σ) (cmbmsc : U64) : Except Errno Unit × State σ :=
  match iommuMapVaddr ops s.ctx s.cmb.vaddr s.cmb.size s.cmb.iova 0 with
  | (.error e, ctx) => (.error e, { s with ctx := ctx })
  | (.ok iova, ctx) =>
      (.ok (), { s with
        ctx := ctx
        cmb := { s.cmb with iova := iova }
        cmbmsc := s.cmbmsc ++ [cmbmsc ||| (0x2 : U64) ||| iova >>> 12 <<< 12] })

/-- `nvme_configure_cmb`. What `mmap` gives is never at `NULL`. -/
def nvmeConfigureCmb (ops : IommuCtxOps σ) (pci : VfioPciDevice δ) (s : State σ) (regs : Regs)
    (mmap : Except Errno U64) : Option (Except Errno Unit × State σ) :=
  if capCmbs regs.cap = 0 then some (.ok (), s)
  else
    let bar := (cmblocBir regs.cmbloc).toNat
    let size := nvmeCmbSize regs.cmbsz
    let offset := (cmblocOfst regs.cmbloc).setWidth 64
    (vfioPciMapBar pci bar size offset mmap.toOption).map fun (call, vaddr) =>
      let s := { s with
        cmb := ⟨bar, vaddr.getD 0, s.cmb.iova, size⟩
        cmbmsc := s.cmbmsc ++ [0x1]
        calls := s.calls ++ [.map bar size offset call] }
      match mmap with
      | .error e => (.error e, s)
      | .ok _ => nvmeMapCmb ops s regs.cmbmsc

def nvmeDiscardCmb (ops : IommuCtxOps σ) (pci : VfioPciDevice δ) (s : State σ) (cmbmsc : U64)
    (cmbloc : BitVec 32) : Option (State σ) :=
  if s.cmb.vaddr = 0 then some s
  else
    let offset := (cmblocOfst cmbloc).setWidth 64
    (vfioPciUnmapBar pci s.cmb.bar s.cmb.size offset).map fun len =>
      { cmb := .zeroed
        ctx := (iommuUnmapVaddr ops s.ctx s.cmb.vaddr).2
        cmbmsc := s.cmbmsc ++ [cmbmsc &&& ~~~(0x2 : U64) &&& ~~~((0xfffffffffffff : U64) <<< 12)]
        calls := s.calls ++ [.unmap s.cmb.bar s.cmb.vaddr s.cmb.size offset len] }

end Functions

/-! ## The bytes that are asked for -/

section Bytes

variable {cmbloc cmbsz : BitVec 32}

theorem cmbszSz_lt (cmbsz : BitVec 32) : (cmbszSz cmbsz).toNat < 2 ^ 20 := by
  rw [cmbszSz, BitVec.toNat_and]
  exact Nat.and_lt_two_pow _ (by decide)

theorem toNat_nvmeCmbSize (hszu : (cmbszSzu cmbsz).toNat ≤ 6) :
    (nvmeCmbSize cmbsz).toNat = (cmbszSz cmbsz).toNat * cmbUnit cmbsz := by
  have hsz := cmbszSz_lt cmbsz
  have hunit : cmbUnit cmbsz ≤ 2 ^ 36 := Nat.pow_le_pow_right (by decide) (by omega)
  have hmul : (cmbszSz cmbsz).toNat * cmbUnit cmbsz < 2 ^ 64 :=
    lt_of_le_of_lt (Nat.mul_le_mul hsz.le hunit) (by decide)
  have hone : ((1 : U64) <<< (12 + 4 * (cmbszSzu cmbsz).toNat)).toNat = cmbUnit cmbsz := by
    have hlt : cmbUnit cmbsz < 2 ^ 64 := lt_of_le_of_lt hunit (by decide)
    rw [cmbUnit] at hlt ⊢
    rw [BitVec.toNat_shiftLeft]
    change 1 <<< _ % 2 ^ 64 = _
    rw [Nat.one_shiftLeft, Nat.mod_eq_of_lt hlt]
  rw [nvmeCmbSize, BitVec.toNat_mul, hone, BitVec.toNat_setWidth_of_le (by decide),
    Nat.mod_eq_of_lt hmul]

theorem toNat_offset (cmbloc : BitVec 32) :
    ((cmblocOfst cmbloc).setWidth 64).toNat = (cmblocOfst cmbloc).toNat :=
  BitVec.toNat_setWidth_of_le (by decide)

theorem two_le_cmbUnit (cmbsz : BitVec 32) : 2 ≤ cmbUnit cmbsz :=
  calc 2 = 2 ^ 1 := rfl
    _ ≤ cmbUnit cmbsz := Nat.pow_le_pow_right (by decide) (by omega)

/-- The offset is asked for as it stands in the register. -/
theorem bytes_eq_iff (hszu : (cmbszSzu cmbsz).toNat ≤ 6) (call : MmapCall) :
    (BarCall.map (cmblocBir cmbloc).toNat (nvmeCmbSize cmbsz)
        ((cmblocOfst cmbloc).setWidth 64) call).bytes = nvmeCmbBytes cmbloc cmbsz ↔
      cmblocOfst cmbloc = 0 := by
  have hunit := two_le_cmbUnit cmbsz
  rw [BarCall.bytes, nvmeCmbBytes, BarBytes.mk.injEq, toNat_nvmeCmbSize hszu, toNat_offset]
  constructor
  · rintro ⟨-, hstart, -⟩
    apply BitVec.eq_of_toNat_eq
    rcases Nat.eq_zero_or_pos (cmblocOfst cmbloc).toNat with hzero | hpos
    · exact hzero
    · exact absurd hstart (Nat.ne_of_lt (lt_mul_of_one_lt_right hpos hunit))
  · intro hzero
    rw [hzero]
    exact ⟨rfl, (Nat.zero_mul _).symm, rfl⟩

/-- The length is not cut off if the memory lies inside the region. -/
theorem barLen_eq {δ : Type*} {pci : VfioPciDevice δ} {bar : ℕ}
    (hszu : (cmbszSzu cmbsz).toNat ≤ 6)
    (hinside : (nvmeCmbBytes cmbloc cmbsz).start + (nvmeCmbBytes cmbloc cmbsz).len ≤
      (pci.barRegionInfo bar).size.toNat) :
    barLen pci bar (nvmeCmbSize cmbsz) ((cmblocOfst cmbloc).setWidth 64) = nvmeCmbSize cmbsz := by
  have hsize := toNat_nvmeCmbSize hszu
  have hoffset := toNat_offset cmbloc
  have hle : (cmblocOfst cmbloc).toNat ≤ (cmblocOfst cmbloc).toNat * cmbUnit cmbsz :=
    Nat.le_mul_of_pos_right _ (by have := two_le_cmbUnit cmbsz; omega)
  dsimp only [nvmeCmbBytes] at hinside
  have hrest := BitVec.toNat_sub_of_le (x := (pci.barRegionInfo bar).size)
    (y := (cmblocOfst cmbloc).setWidth 64) (by rw [BitVec.le_def]; omega)
  rw [barLen]
  split_ifs with hlt
  · rfl
  · rw [BitVec.lt_def] at hlt
    apply BitVec.eq_of_toNat_eq
    omega

end Bytes

section Configure

variable {σ δ : Type*} {ops : IommuCtxOps σ} {pci : VfioPciDevice δ} {s s' : State σ} {regs : Regs}
  {mmap : Except Errno U64} {res : Except Errno Unit}

def mapCall (pci : VfioPciDevice δ) (cmbloc cmbsz : BitVec 32) : BarCall :=
  let bar := (cmblocBir cmbloc).toNat
  let offset := (cmblocOfst cmbloc).setWidth 64
  .map bar (nvmeCmbSize cmbsz) offset
    ⟨barLen pci bar (nvmeCmbSize cmbsz) offset, (pci.barRegionInfo bar).offset + offset⟩

theorem nvmeMapCmb_frame {cmbmsc : U64} (h : nvmeMapCmb ops s cmbmsc = (res, s')) :
    s'.calls = s.calls ∧ s'.cmb.bar = s.cmb.bar ∧ s'.cmb.size = s.cmb.size := by
  unfold nvmeMapCmb at h
  generalize iommuMapVaddr ops s.ctx s.cmb.vaddr s.cmb.size s.cmb.iova 0 = r at h
  obtain ⟨e | iova, ctx⟩ := r
  · obtain ⟨-, rfl⟩ := Prod.mk.inj h
    exact ⟨rfl, rfl, rfl⟩
  · obtain ⟨-, rfl⟩ := Prod.mk.inj h
    exact ⟨rfl, rfl, rfl⟩

/-- Whatever comes of it, the region is asked for once, and its size is kept. -/
theorem nvmeConfigureCmb_calls (hcap : capCmbs regs.cap ≠ 0)
    (h : nvmeConfigureCmb ops pci s regs mmap = some (res, s')) :
    (cmblocBir regs.cmbloc).toNat < pciStdNumBars ∧
      s'.calls = s.calls ++ [mapCall pci regs.cmbloc regs.cmbsz] ∧
      s'.cmb.bar = (cmblocBir regs.cmbloc).toNat ∧ s'.cmb.size = nvmeCmbSize regs.cmbsz := by
  unfold nvmeConfigureCmb at h
  rw [if_neg hcap] at h
  obtain ⟨⟨call, vaddr⟩, hmap, h⟩ := Option.map_eq_some_iff.mp h
  unfold vfioPciMapBar at hmap
  split_ifs at hmap with hbar
  obtain ⟨rfl, -⟩ := Prod.mk.inj (Option.some.inj hmap)
  refine ⟨hbar, ?_⟩
  cases mmap with
  | error e =>
      obtain ⟨-, rfl⟩ := Prod.mk.inj h
      exact ⟨rfl, rfl, rfl⟩
  | ok v => exact nvmeMapCmb_frame h

/-- `nvme_discard_cmb` makes the call that undoes the one of `nvme_configure_cmb`. -/
theorem nvmeDiscardCmb_calls {cmbloc cmbsz : BitVec 32} (cmbmsc : U64) (hvaddr : s.cmb.vaddr ≠ 0)
    (hbar : s.cmb.bar = (cmblocBir cmbloc).toNat) (hstd : s.cmb.bar < pciStdNumBars)
    (hsize : s.cmb.size = nvmeCmbSize cmbsz) :
    ∃ s' call, nvmeDiscardCmb ops pci s cmbmsc cmbloc = some s' ∧ s'.calls = s.calls ++ [call] ∧
      call.bytes = (mapCall pci cmbloc cmbsz).bytes ∧
      call.length = (mapCall pci cmbloc cmbsz).length := by
  have hunmap : ∀ len offset, vfioPciUnmapBar pci s.cmb.bar len offset =
      some (barLen pci s.cmb.bar len offset) := fun len offset => if_pos hstd
  rw [nvmeDiscardCmb, if_neg hvaddr]
  dsimp only
  rw [hunmap]
  refine ⟨_, _, rfl, rfl, ?_, ?_⟩
  · rw [hbar, hsize]
    rfl
  · rw [hbar, hsize]
    rfl

/-- For every value of the registers with a defined unit, the bytes that are asked for are those
of the controller's memory if and only if the offset is zero. The length is not cut off if that
memory lies inside the region, and `nvme_discard_cmb` gives back what was mapped. -/
theorem cmb_decoded_iff (hszu : (cmbszSzu regs.cmbsz).toNat ≤ 6) (hcap : capCmbs regs.cap ≠ 0)
    (h : nvmeConfigureCmb ops pci s regs mmap = some (res, s')) :
    ∃ call, s'.calls = s.calls ++ [call] ∧
      (call.bytes = nvmeCmbBytes regs.cmbloc regs.cmbsz ↔ cmblocOfst regs.cmbloc = 0) ∧
      ((nvmeCmbBytes regs.cmbloc regs.cmbsz).start + (nvmeCmbBytes regs.cmbloc regs.cmbsz).len ≤
          (pci.barRegionInfo (nvmeCmbBytes regs.cmbloc regs.cmbsz).bar).size.toNat →
        call.length.toNat = (nvmeCmbBytes regs.cmbloc regs.cmbsz).len) ∧
      (s'.cmb.vaddr ≠ 0 → ∀ cmbmsc, ∃ s'' undo,
        nvmeDiscardCmb ops pci s' cmbmsc regs.cmbloc = some s'' ∧ s''.calls = s'.calls ++ [undo] ∧
          undo.bytes = call.bytes ∧ undo.length = call.length) := by
  obtain ⟨hstd, hcalls, hbar, hsize⟩ := nvmeConfigureCmb_calls hcap h
  refine ⟨mapCall pci regs.cmbloc regs.cmbsz, hcalls, bytes_eq_iff hszu _, fun hinside => ?_,
    fun hvaddr cmbmsc => nvmeDiscardCmb_calls cmbmsc hvaddr hbar (hbar ▸ hstd) hsize⟩
  have hlen := barLen_eq hszu hinside
  exact (congrArg BitVec.toNat hlen).trans (toNat_nvmeCmbSize hszu)

end Configure

def largeBars : VfioPciDevice ℕ :=
  { VfioPciDevice.zeroed ℕ with barRegionInfo := fun _ => ⟨0x4000000, 0⟩ }

def noBuffer : State Unit := ⟨.zeroed, identityCtx fun _ => true, [], []⟩

/-- Sixteen units of 64 KiB at the start of the region 2. -/
theorem cmb_decoded_iff_at_start :
    ∃ s' call, nvmeConfigureCmb identityOps largeBars noBuffer
        ⟨0x200000000000000, 0x1, 0x2, 0x10100⟩ (.ok 0x10000) = some (.ok (), s') ∧
      s'.calls = [call] ∧ call.bytes = ⟨2, 0, 0x100000⟩ := by
  have h : nvmeConfigureCmb identityOps largeBars noBuffer
      ⟨0x200000000000000, 0x1, 0x2, 0x10100⟩ (.ok 0x10000) = some (.ok (), _) := rfl
  obtain ⟨call, hcalls, hbytes, -⟩ := cmb_decoded_iff (by decide) (by decide) h
  exact ⟨_, call, h, hcalls, hbytes.mpr rfl⟩

/-- The same memory, one unit behind the start. It is asked for one byte behind the start. -/
theorem cmb_offset_not_scaled :
    (nvmeConfigureCmb identityOps largeBars noBuffer
        ⟨0x200000000000000, 0x1, 0x1002, 0x10100⟩ (.ok 0x10000)).map
        (fun r => r.2.calls.map BarCall.bytes) = some [⟨2, 0x1, 0x100000⟩] ∧
      nvmeCmbBytes 0x1002 0x10100 = ⟨2, 0x10000, 0x100000⟩ := by
  decide +kernel

end Cmb

end Nvme

end Libvfn
