import Libvfn.Iommu.Vfio.Container

/-!
# The vfio backend

The backend that puts the allocator of a container behind the functions of a
context. The kernel is a parameter (`KernelOps`): it may answer a call in any way. Where it
matters which mappings it accepts, it is one that keeps the mappings that are live
(`liveKernel`).
-/

namespace Libvfn

namespace Iommu

open Word Support Util

structure DmaMap where
  vaddr : U64
  size : U64
  iova : U64
  flags : U64
  deriving DecidableEq

def iommuMapNowrite : U64 := 4

def iommuMapNoread : U64 := 8

def vfioDmaMapFlagRead : U64 := 1

def vfioDmaMapFlagWrite : U64 := 2

def dmaMapFlags (flags : U64) : U64 :=
  let access := vfioDmaMapFlagRead ||| vfioDmaMapFlagWrite
  let access :=
    if flags &&& iommuMapNowrite ≠ 0 then access &&& ~~~vfioDmaMapFlagWrite else access
  if flags &&& iommuMapNoread ≠ 0 then access &&& ~~~vfioDmaMapFlagRead else access

/-- How a kernel answers, on a state of its own. `none` is success. -/
structure KernelOps (κ : Type*) where
  /-- `VFIO_IOMMU_MAP_DMA`. -/
  map : κ → DmaMap → Option Errno × κ
  /-- `VFIO_IOMMU_UNMAP_DMA`, for an address and a size. -/
  unmap : κ → U64 → U64 → Option Errno × κ
  /-- `VFIO_IOMMU_UNMAP_DMA` with `VFIO_DMA_UNMAP_FLAG_ALL`. -/
  unmapAll : κ → Option Errno × κ

structure KernelVfio (κ : Type*) where
  vfio : VfioContainer
  kernel : κ

def VfioContainer.putAll (vfio : VfioContainer) (ms : List IovaMapping) : VfioContainer :=
  ms.foldl (fun vfio m => vfioIovaPut vfio m.iova m.len) vfio

theorem putAll_eq (vfio : VfioContainer) (ms : List IovaMapping) :
    ∃ fl, vfio.putAll ms = { vfio with freeIovas := fl } := by
  induction ms generalizing vfio with
  | nil => exact ⟨vfio.freeIovas, rfl⟩
  | cons m ms ih =>
      obtain ⟨fl, hfl⟩ := ih (vfioIovaPut vfio m.iova m.len)
      rw [VfioContainer.putAll, List.foldl_cons, ← VfioContainer.putAll, hfl, vfioIovaPut]
      split_ifs
      · exact ⟨fl, rfl⟩
      · exact ⟨fl, rfl⟩

/-- The container once everything is unmapped at once: nothing is free any more. -/
def VfioContainer.clearFree (vfio : VfioContainer) : VfioContainer :=
  { vfio with
    freeIovas := { vfio.freeIovas with list := (skiplistClearWith vfio.freeIovas.list).1 } }

section Kernel

variable {κ : Type*} (kernel : KernelOps κ)

def vfioIommuType1DoDmaMap (pagesize : U64) (s : KernelVfio κ) (vaddr len iova flags : U64) :
    Except Errno U64 × KernelVfio κ :=
  if !aligned (vaddr ||| len ||| iova) pagesize then (.error .EINVAL, s)
  else
    match kernel.map s.kernel ⟨vaddr, len, iova, dmaMapFlags flags⟩ with
    | (some e, k) => (.error e, { s with kernel := k })
    | (none, k) => (.ok iova, { s with kernel := k })

def vfioIommuType1DoDmaUnmap (s : KernelVfio κ) (iova len : U64) :
    Except Errno Unit × KernelVfio κ :=
  match kernel.unmap s.kernel iova len with
  | (some e, k) => (.error e, { s with kernel := k })
  | (none, k) => (.ok (), ⟨vfioIovaPut s.vfio iova len, k⟩)

def vfioIommuType1DoDmaUnmapAll (s : KernelVfio κ) : Except Errno Unit × KernelVfio κ :=
  match kernel.unmapAll s.kernel with
  | (some e, k) => (.error e, { s with kernel := k })
  | (none, k) => (.ok (), ⟨s.vfio.clearFree, k⟩)

def KernelVfio.reserved (s : KernelVfio κ) :
    Except Errno (U64 × VfioContainer) → Except Errno U64 × KernelVfio κ
  | .ok (iova, vfio) => (.ok iova, { s with vfio := vfio })
  | .error e => (.error e, s)

/-- `vfio_ops`, which has `dma_unmap_all` only if the header of the kernel has
`VFIO_UNMAP_ALL`. -/
def kernelVfioOps (pagesize : U64) (hasUnmapAll : Bool) : IommuCtxOps (KernelVfio κ) where
  iovaReserve := some fun s len flags =>
    s.reserved (vfioIommuType1IovaReserve pagesize s.vfio len flags)
  iovaReserveAlign := some fun s len align _ =>
    s.reserved (vfioIommuType1IovaReserveAlign pagesize s.vfio len align)
  iovaPutEphemeral := some fun s => { s with vfio := vfioIommuType1IovaPutEphemeral s.vfio }
  dmaMap := vfioIommuType1DoDmaMap kernel pagesize
  dmaUnmap := vfioIommuType1DoDmaUnmap kernel
  dmaUnmapAll := if hasUnmapAll then some (vfioIommuType1DoDmaUnmapAll kernel) else none

theorem vfioIommuType1DoDmaMap_vfio (pagesize : U64) (s : KernelVfio κ)
    (vaddr len iova flags : U64) :
    (vfioIommuType1DoDmaMap kernel pagesize s vaddr len iova flags).2.vfio = s.vfio := by
  rw [vfioIommuType1DoDmaMap]
  split_ifs
  · rfl
  · obtain ⟨_ | e, k⟩ := kernel.map s.kernel ⟨vaddr, len, iova, dmaMapFlags flags⟩ <;> rfl

theorem vfioIommuType1DoDmaUnmap_vfio (s : KernelVfio κ) (iova len : U64) :
    (vfioIommuType1DoDmaUnmap kernel s iova len).2.vfio =
      if (vfioIommuType1DoDmaUnmap kernel s iova len).1.isOk then vfioIovaPut s.vfio iova len
      else s.vfio := by
  rw [vfioIommuType1DoDmaUnmap]
  obtain ⟨_ | e, k⟩ := kernel.unmap s.kernel iova len <;> rfl

variable {kernel}

theorem vfioIommuType1DoDmaMap_ok {pagesize vaddr len iova flags iova' : U64} {s s' : KernelVfio κ}
    (h : vfioIommuType1DoDmaMap kernel pagesize s vaddr len iova flags = (.ok iova', s')) :
    iova' = iova ∧ aligned (vaddr ||| len ||| iova) pagesize = true := by
  rw [vfioIommuType1DoDmaMap] at h
  split_ifs at h with haligned
  · cases (Prod.mk.inj h).1
  · rw [Bool.not_eq_true', Bool.not_eq_false] at haligned
    generalize kernel.map s.kernel ⟨vaddr, len, iova, dmaMapFlags flags⟩ = answer at h
    obtain ⟨_ | e, k⟩ := answer
    · obtain ⟨hiova, -⟩ := Prod.mk.inj h
      exact ⟨(Except.ok.inj hiova).symm, haligned⟩
    · cases (Prod.mk.inj h).1

theorem vfioIommuType1DoDmaUnmap_error {s s' : KernelVfio κ} {iova len : U64} {e : Errno}
    (h : vfioIommuType1DoDmaUnmap kernel s iova len = (.error e, s')) : s'.vfio = s.vfio := by
  have hvfio := vfioIommuType1DoDmaUnmap_vfio kernel s iova len
  rwa [h] at hvfio

theorem vfioIommuType1DoDmaUnmap_ok {s s' : KernelVfio κ} {iova len : U64}
    (h : vfioIommuType1DoDmaUnmap kernel s iova len = (.ok (), s')) :
    s'.vfio = vfioIovaPut s.vfio iova len := by
  have hvfio := vfioIommuType1DoDmaUnmap_vfio kernel s iova len
  rwa [h] at hvfio

/-- Each mapping is unmapped by itself: the blocks are put back, and the ephemeral mappings
stay counted. -/
theorem unmapMappings_vfio {pagesize : U64} {hasUnmapAll : Bool} {ms : List IovaMapping}
    {s s' : KernelVfio κ}
    (hunmap : unmapMappings (kernelVfioOps kernel pagesize hasUnmapAll) ms s = some s') :
    s'.vfio = s.vfio.putAll ms := by
  induction ms generalizing s with
  | nil =>
      obtain rfl := Option.some.inj hunmap
      rfl
  | cons m ms ih =>
      rw [unmapMappings] at hunmap
      rcases hput : vfioIommuType1DoDmaUnmap kernel s m.iova m.len with ⟨e | u, s''⟩
      · dsimp only [kernelVfioOps] at hunmap
        rw [hput] at hunmap
        cases hunmap
      · dsimp only [kernelVfioOps] at hunmap
        rw [hput] at hunmap
        rw [ih hunmap, vfioIommuType1DoDmaUnmap_ok hput]
        rfl

theorem kernelVfioOps_dmaUnmapAll {pagesize : U64} {hasUnmapAll : Bool}
    {unmapAll : KernelVfio κ → Except Errno Unit × KernelVfio κ}
    (hops : (kernelVfioOps kernel pagesize hasUnmapAll).dmaUnmapAll = some unmapAll) :
    hasUnmapAll = true ∧ unmapAll = vfioIommuType1DoDmaUnmapAll kernel := by
  obtain ⟨hhas, hsome⟩ := Option.ite_none_right_eq_some.mp hops
  exact ⟨hhas, (Option.some.inj hsome).symm⟩

theorem vfioIommuType1DoDmaUnmapAll_vfio (kernel : KernelOps κ) (s : KernelVfio κ) :
    (vfioIommuType1DoDmaUnmapAll kernel s).2.vfio =
      if (vfioIommuType1DoDmaUnmapAll kernel s).1.isOk then s.vfio.clearFree else s.vfio := by
  rw [vfioIommuType1DoDmaUnmapAll]
  obtain ⟨_ | e, k⟩ := kernel.unmapAll s.kernel <;> rfl

end Kernel

/-! ## A kernel that keeps the mappings -/

def DmaMap.overlaps (a b : DmaMap) : Bool :=
  max a.iova.toNat b.iova.toNat <
    min (a.iova.toNat + a.size.toNat) (b.iova.toNat + b.size.toNat)

/-- A kernel that refuses a mapping if it overlaps a live one, and drops the live mappings inside
a block that is unmapped. -/
def liveKernel : KernelOps (List DmaMap) where
  map := fun live m => if live.any m.overlaps then (some .EEXIST, live) else (none, m :: live)
  unmap := fun live iova len =>
    (none, live.filter fun m =>
      m.iova.toNat < iova.toNat ∨ iova.toNat + len.toNat < m.iova.toNat + m.size.toNat)
  unmapAll := fun _ => (none, [])

abbrev VfioState := KernelVfio (List DmaMap)

def vfioOps (pagesize : U64) : IommuCtxOps VfioState := kernelVfioOps liveKernel pagesize true

/-- Calls that map at an address of the backend's choice or the caller's, and that
unmap. -/
inductive VfioCall where
  | map (vaddr len iova flags : U64)
  | unmap (vaddr : U64)
  | allocSame (len : U64) (busy : ℕ) (mmap : Except Errno U64)
  | freeSame (vaddr : U64)

def vfioStep (pagesize : U64) (ctx : IommuCtx VfioState) : VfioCall → Option (IommuCtx VfioState)
  | .map vaddr len iova flags =>
      some (iommuMapVaddr (vfioOps pagesize) ctx vaddr len iova flags).2
  | .unmap vaddr => some (iommuUnmapVaddr (vfioOps pagesize) ctx vaddr).2
  | .allocSame len busy mmap =>
      some (iommuAllocSameIova (vfioOps pagesize) pagesize ctx len busy mmap).2
  | .freeSame vaddr => some (iommuFreeSameIova (vfioOps pagesize) ctx vaddr).2

end Iommu

end Libvfn
