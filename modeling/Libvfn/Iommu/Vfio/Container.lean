import Libvfn.Iommu.Dma
import Libvfn.Iommu.Vfio.FreeList

/-!
# The allocator of I/O virtual addresses

A container hands out blocks of I/O virtual addresses. It looks for a block in the
list of free addresses first and otherwise advances a cursor through the ranges
that the device can use; a block that is given back goes to the list. A small
range is set aside for ephemeral mappings and has a cursor of its own, which is
reset when the last of these mappings is gone.

The size of a host page, `__VFN_PAGESIZE`, is a parameter of the functions that
check alignment.
-/

namespace Libvfn

namespace Iommu

open Word Support Util

/-- `struct iommu_iova_range`; the last address is part of the range. -/
structure IovaRange where
  start : U64
  last : U64
  deriving DecidableEq

/-- `struct vfio_container`, as far as addresses go, with the ranges of its
context. -/
structure VfioContainer where
  iovaRanges : List IovaRange
  next : U64
  nextEphemeral : U64
  nephemerals : U64
  ephemerals : IovaRange
  freeIovas : FreeList

/-- The loop that `__iova_reserve` and `__iova_reserve_align` share. The cursor moves
up to the start of a range it has not reached; `place` is where a block would start
then, if anywhere. The result is the block and the cursor behind it. -/
def iovaReserveFrom (place : U64 → Option U64) (len : U64) :
    List IovaRange → U64 → Option (U64 × U64)
  | [], _ => none
  | r :: ranges, next =>
      if r.last < next then iovaReserveFrom place len ranges next
      else
        let next := if r.start < next then next else r.start
        match place next with
        | none => iovaReserveFrom place len ranges next
        | some iova =>
            if r.last < iova ∨ r.last - iova + 1 < len then
              iovaReserveFrom place len ranges next
            else some (iova, iova + len)

/-- A block that was cut off starts where `place` puts it from a cursor that has moved up to
the range, and the range has room for it. -/
theorem iovaReserveFrom_eq_some {place : U64 → Option U64} {ranges : List IovaRange}
    {len next iova next' : U64}
    (h : iovaReserveFrom place len ranges next = some (iova, next')) :
    ∃ r ∈ ranges, ∃ moved, next ≤ moved ∧ r.start ≤ moved ∧ place moved = some iova ∧
      iova ≤ r.last ∧ len ≤ r.last - iova + 1 ∧ next' = iova + len := by
  induction ranges generalizing next with
  | nil => simp [iovaReserveFrom] at h
  | cons r ranges ih =>
      -- the block may come from a range behind, once the cursor has moved
      have hbehind : ∀ {moved : U64}, next ≤ moved →
          iovaReserveFrom place len ranges moved = some (iova, next') → ∃ r' ∈ r :: ranges,
            ∃ moved, next ≤ moved ∧ r'.start ≤ moved ∧ place moved = some iova ∧
              iova ≤ r'.last ∧ len ≤ r'.last - iova + 1 ∧ next' = iova + len := by
        intro moved hle hrest
        obtain ⟨r', hr', moved', hle', hin⟩ := ih hrest
        exact ⟨r', List.mem_cons_of_mem r hr', moved', BitVec.le_trans hle hle', hin⟩
      rw [iovaReserveFrom] at h
      by_cases hskip : r.last < next
      · rw [if_pos hskip] at h
        exact hbehind (BitVec.le_refl next) h
      · rw [if_neg hskip] at h
        generalize hmoved : (if r.start < next then next else r.start) = moved at h
        have hge : next ≤ moved ∧ r.start ≤ moved := by
          rw [← hmoved]
          split_ifs with hlt
          · exact ⟨BitVec.le_refl next, BitVec.le_of_lt hlt⟩
          · exact ⟨BitVec.not_lt.mp hlt, BitVec.le_refl r.start⟩
        dsimp only at h
        cases hput : place moved with
        | none =>
            rw [hput] at h
            exact hbehind hge.1 h
        | some a =>
            rw [hput] at h
            dsimp only at h
            split_ifs at h with hfull
            · exact hbehind hge.1 h
            · obtain ⟨rfl, rfl⟩ := Prod.mk.inj (Option.some.inj h)
              rw [not_or, BitVec.not_lt, BitVec.not_lt] at hfull
              exact ⟨r, List.mem_cons_self, moved, hge.1, hge.2, hput, hfull.1, hfull.2, rfl⟩

def iovaReserve (ranges : List IovaRange) (next len : U64) : Option (U64 × U64) :=
  iovaReserveFrom some len ranges next

/-- `__iova_reserve_align`; an address that wraps around when it is aligned is passed
over. -/
def iovaReserveAlign (ranges : List IovaRange) (next len align : U64) : Option (U64 × U64) :=
  iovaReserveFrom
    (fun next => if alignUp next align < next then none else some (alignUp next align))
    len ranges next

def vfioIommuType1IovaReserve (pagesize : U64) (vfio : VfioContainer) (len flags : U64) :
    Except Errno (U64 × VfioContainer) :=
  if !aligned len pagesize then .error .EINVAL
  else if flags &&& iommuMapEphemeral ≠ 0 then
    match iovaReserve [vfio.ephemerals] vfio.nextEphemeral len with
    | none => .error .ENOMEM
    | some (iova, next) =>
        .ok (iova, { vfio with nextEphemeral := next, nephemerals := vfio.nephemerals + 1 })
  else
    match iovaGetFree vfio.freeIovas len with
    | some (iova, fl) => .ok (iova, { vfio with freeIovas := fl })
    | none =>
        match iovaReserve vfio.iovaRanges vfio.next len with
        | some (iova, next) => .ok (iova, { vfio with next := next })
        | none => .error .ENOMEM

def vfioIommuType1IovaReserveAlign (pagesize : U64) (vfio : VfioContainer) (len align : U64) :
    Except Errno (U64 × VfioContainer) :=
  if !aligned len pagesize then .error .EINVAL
  else if align = 0 ∨ !aligned align pagesize then .error .EINVAL
  else
    match iovaGetFreeAlign vfio.freeIovas len align with
    | some (iova, fl) => .ok (iova, { vfio with freeIovas := fl })
    | none =>
        match iovaReserveAlign vfio.iovaRanges vfio.next len align with
        | some (iova, next) => .ok (iova, { vfio with next := next })
        | none => .error .ENOMEM

def VfioContainer.supply (vfio : VfioContainer) (got : Option (U64 × FreeList))
    (cut : Option (U64 × U64)) : Except Errno (U64 × VfioContainer) :=
  match got with
  | some (iova, fl) => .ok (iova, { vfio with freeIovas := fl })
  | none =>
      match cut with
      | some (iova, next) => .ok (iova, { vfio with next := next })
      | none => .error .ENOMEM

theorem vfioIommuType1IovaReserve_eq_supply {flags : U64}
    (hflags : flags &&& iommuMapEphemeral = 0) (pagesize : U64) (vfio : VfioContainer)
    (len : U64) :
    vfioIommuType1IovaReserve pagesize vfio len flags =
      if !aligned len pagesize then .error .EINVAL
      else vfio.supply (iovaGetFree vfio.freeIovas len)
        (iovaReserve vfio.iovaRanges vfio.next len) := by
  rw [vfioIommuType1IovaReserve, if_neg (not_not.mpr hflags)]
  rfl

theorem vfioIommuType1IovaReserveAlign_eq_supply (pagesize : U64) (vfio : VfioContainer)
    (len align : U64) :
    vfioIommuType1IovaReserveAlign pagesize vfio len align =
      if !aligned len pagesize then .error .EINVAL
      else if align = 0 ∨ !aligned align pagesize then .error .EINVAL
      else vfio.supply (iovaGetFreeAlign vfio.freeIovas len align)
        (iovaReserveAlign vfio.iovaRanges vfio.next len align) := rfl

theorem supply_eq_ok {vfio vfio' : VfioContainer} {got : Option (U64 × FreeList)}
    {cut : Option (U64 × U64)} {iova : U64} (h : vfio.supply got cut = .ok (iova, vfio')) :
    (∃ fl, got = some (iova, fl) ∧ vfio' = { vfio with freeIovas := fl }) ∨
      ∃ next, cut = some (iova, next) ∧ vfio' = { vfio with next := next } := by
  cases got with
  | some taken =>
      obtain ⟨rfl, rfl⟩ := Prod.mk.inj (Except.ok.inj h)
      exact .inl ⟨taken.2, rfl, rfl⟩
  | none =>
      cases cut with
      | some cut =>
          obtain ⟨rfl, rfl⟩ := Prod.mk.inj (Except.ok.inj h)
          exact .inr ⟨cut.2, rfl, rfl⟩
      | none => cases h

def VfioContainer.after (vfio : VfioContainer) : Except Errno (U64 × VfioContainer) → VfioContainer
  | .ok (_, vfio') => vfio'
  | .error _ => vfio

def vfioIovaPut (vfio : VfioContainer) (iova len : U64) : VfioContainer :=
  if vfio.ephemerals.start ≤ iova ∧ iova ≤ vfio.ephemerals.last then vfio
  else { vfio with freeIovas := iovaPutFree vfio.freeIovas iova len }

/-- `vfio_iommu_type1_iova_put_ephemeral`, with the recycling of the range when the
last ephemeral mapping is gone. -/
def vfioIommuType1IovaPutEphemeral (vfio : VfioContainer) : VfioContainer :=
  let vfio := { vfio with nephemerals := vfio.nephemerals - 1 }
  if vfio.nephemerals = 0 then { vfio with nextEphemeral := vfio.ephemerals.start } else vfio

def vfioInitContainer (ranges : List IovaRange) (rand : ℕ → Bool) (garbage : FreeRange) :
    VfioContainer where
  iovaRanges := ranges
  next := 0
  nextEphemeral := 0
  nephemerals := 0
  ephemerals := ⟨0, 0⟩
  freeIovas := freeListInit rand garbage

def vfioIommuType1IovaReserved : U64 := 0x10000

/-- What `vfio_iommu_type1_init` does to the addresses: it sets a range aside for
ephemeral mappings. -/
def vfioIommuType1Init (pagesize : U64) (vfio : VfioContainer) : Except Errno VfioContainer :=
  match vfioIommuType1IovaReserve pagesize vfio vfioIommuType1IovaReserved 0 with
  | .error e => .error e
  | .ok (iova, vfio) =>
      .ok { vfio with ephemerals := ⟨iova, iova + vfioIommuType1IovaReserved - 1⟩ }

end Iommu

end Libvfn
