import Libvfn.Iommu.Map

/-!
# Mapping memory for a device

A context keeps the map of virtual addresses and leaves the rest to a backend, a
table of functions some of which need not be there. What the backend keeps, the
state of the kernel included, is a type of its own; each function of the table
returns that state along with its result, and what happens when one fails halfway
is part of the model. `none` is the end of the process.
-/

namespace Libvfn

namespace Iommu

open Word Support Util

def iommuMapFixedIova : U64 := 1

def iommuMapEphemeral : U64 := 2

/-- `struct iommu_ctx_ops`, on the state of a backend. The functions on devices are
left out. -/
structure IommuCtxOps (σ : Type*) where
  /-- Reserve a block for a length and flags. -/
  iovaReserve : Option (σ → U64 → U64 → Except Errno U64 × σ)
  /-- Reserve a block for a length, an alignment and flags. -/
  iovaReserveAlign : Option (σ → U64 → U64 → U64 → Except Errno U64 × σ)
  iovaPutEphemeral : Option (σ → σ)
  /-- Map a virtual address and a length at an address, with flags. The address may be
  the backend's choice. -/
  dmaMap : σ → U64 → U64 → U64 → U64 → Except Errno U64 × σ
  dmaUnmap : σ → U64 → U64 → Except Errno Unit × σ
  dmaUnmapAll : Option (σ → Except Errno Unit × σ)

structure IommuCtx (σ : Type*) where
  map : IovaMap
  iovaMax : U64
  iovaNextSame : U64
  backend : σ

variable {σ : Type*}

/-- The part that `iommu_map_vaddr` and `iommu_map_vaddr_align` share, from the call of
`dma_map` on. Nothing is undone if the mapping cannot be recorded. -/
def iommuMapAt (ops : IommuCtxOps σ) (ctx : IommuCtx σ) (vaddr len iova flags : U64) :
    Except Errno U64 × IommuCtx σ :=
  match ops.dmaMap ctx.backend vaddr len iova flags with
  | (.error e, backend) => (.error e, { ctx with backend := backend })
  | (.ok iova, backend) =>
      match iovaMapAdd ctx.map vaddr len iova flags with
      | .error e => (.error e, { ctx with backend := backend })
      | .ok map => (.ok iova, { ctx with map := map, backend := backend })

/-- What the common part can do: the backend or the map refuses, or the mapping is linked. The
backend has made its mapping in either case, unless it was the one that refused. -/
inductive MapsAt (ops : IommuCtxOps σ) (ctx : IommuCtx σ) (vaddr len iova flags : U64) :
    Except Errno U64 × IommuCtx σ → Prop
  | refused (e : Errno) :
      MapsAt ops ctx vaddr len iova flags
        (.error e, { ctx with backend := (ops.dmaMap ctx.backend vaddr len iova flags).2 })
  | linked (got : U64) (hlen : len ≠ 0) (hmiss : iovaMapFind ctx.map vaddr = none) :
      MapsAt ops ctx vaddr len iova flags
        (.ok got,
          { ctx with
            map := iovaMapLink ctx.map ⟨vaddr, len, got, flags⟩
            backend := (ops.dmaMap ctx.backend vaddr len iova flags).2 })

theorem iommuMapAt_maps (ops : IommuCtxOps σ) (ctx : IommuCtx σ) (vaddr len iova flags : U64) :
    MapsAt ops ctx vaddr len iova flags (iommuMapAt ops ctx vaddr len iova flags) := by
  have hmaps := @MapsAt.refused σ ops ctx vaddr len iova flags
  have hlinked := @MapsAt.linked σ ops ctx vaddr len iova flags
  rw [iommuMapAt]
  generalize ops.dmaMap ctx.backend vaddr len iova flags = r at hmaps hlinked ⊢
  obtain ⟨e | got, backend⟩ := r
  · exact hmaps e
  · dsimp only
    cases hadd : iovaMapAdd ctx.map vaddr len got flags with
    | error e => exact hmaps e
    | ok map =>
        obtain ⟨hlen, hmiss, rfl⟩ := iovaMapAdd_eq_ok hadd
        exact hlinked got hlen hmiss

def iommuMapReserved (ops : IommuCtxOps σ) (ctx : IommuCtx σ) (vaddr len flags : U64) :
    Except Errno U64 × σ → Except Errno U64 × IommuCtx σ
  | (.error e, backend) => (.error e, { ctx with backend := backend })
  | (.ok iova, backend) => iommuMapAt ops { ctx with backend := backend } vaddr len iova flags

/-- `iommu_map_vaddr`. The address is read only if it is to be fixed; a backend that
has no reservations chooses it itself. -/
def iommuMapVaddr (ops : IommuCtxOps σ) (ctx : IommuCtx σ) (vaddr len iova flags : U64) :
    Except Errno U64 × IommuCtx σ :=
  match iommuTranslateVaddr ctx.map vaddr with
  | some iova => (.ok iova, ctx)
  | none =>
      if flags &&& iommuMapFixedIova ≠ 0 then iommuMapAt ops ctx vaddr len iova flags
      else
        match ops.iovaReserve with
        | none => iommuMapAt ops ctx vaddr len 0 flags
        | some reserve => iommuMapReserved ops ctx vaddr len flags (reserve ctx.backend len flags)

def iommuMapVaddrAlign (ops : IommuCtxOps σ) (ctx : IommuCtx σ) (vaddr len align flags : U64) :
    Except Errno U64 × IommuCtx σ :=
  if flags &&& iommuMapFixedIova ≠ 0 then (.error .EINVAL, ctx)
  else
    match iommuTranslateVaddr ctx.map vaddr with
    | some iova => (.ok iova, ctx)
    | none =>
        match ops.iovaReserveAlign with
        | none => (.error .EOPNOTSUPP, ctx)
        | some reserve =>
            iommuMapReserved ops ctx vaddr len flags (reserve ctx.backend len align flags)

inductive MapsVaddr (ops : IommuCtxOps σ) (ctx : IommuCtx σ) (vaddr len iova flags : U64) :
    Except Errno U64 × IommuCtx σ → Prop
  | found (got : U64) (hfound : iommuTranslateVaddr ctx.map vaddr = some got) :
      MapsVaddr ops ctx vaddr len iova flags (.ok got, ctx)
  | fixed (hmiss : iommuTranslateVaddr ctx.map vaddr = none)
      (hflags : flags &&& iommuMapFixedIova ≠ 0) :
      MapsVaddr ops ctx vaddr len iova flags (iommuMapAt ops ctx vaddr len iova flags)
  | chosen (hmiss : iommuTranslateVaddr ctx.map vaddr = none)
      (hflags : flags &&& iommuMapFixedIova = 0) (hnone : ops.iovaReserve = none) :
      MapsVaddr ops ctx vaddr len iova flags (iommuMapAt ops ctx vaddr len 0 flags)
  | reserved (hmiss : iommuTranslateVaddr ctx.map vaddr = none)
      (hflags : flags &&& iommuMapFixedIova = 0) (res : Except Errno U64 × σ)
      (hres : ops.iovaReserve.map (fun reserve => reserve ctx.backend len flags) = some res) :
      MapsVaddr ops ctx vaddr len iova flags (iommuMapReserved ops ctx vaddr len flags res)

theorem iommuMapVaddr_maps (ops : IommuCtxOps σ) (ctx : IommuCtx σ)
    (vaddr len iova flags : U64) :
    MapsVaddr ops ctx vaddr len iova flags (iommuMapVaddr ops ctx vaddr len iova flags) := by
  rw [iommuMapVaddr]
  cases hmiss : iommuTranslateVaddr ctx.map vaddr with
  | some got => exact .found got hmiss
  | none =>
      dsimp only
      split_ifs with hflags
      · exact .fixed hmiss hflags
      · cases hreserve : ops.iovaReserve with
        | none => exact .chosen hmiss (not_not.mp hflags) hreserve
        | some reserve => exact .reserved hmiss (not_not.mp hflags) _ (by rw [hreserve]; rfl)

inductive MapsVaddrAlign (ops : IommuCtxOps σ) (ctx : IommuCtx σ) (vaddr len align flags : U64) :
    Except Errno U64 × IommuCtx σ → Prop
  | refused (hflags : flags &&& iommuMapFixedIova ≠ 0) :
      MapsVaddrAlign ops ctx vaddr len align flags (.error .EINVAL, ctx)
  | found (got : U64) (hfound : iommuTranslateVaddr ctx.map vaddr = some got) :
      MapsVaddrAlign ops ctx vaddr len align flags (.ok got, ctx)
  | unsupported (hnone : ops.iovaReserveAlign = none) :
      MapsVaddrAlign ops ctx vaddr len align flags (.error .EOPNOTSUPP, ctx)
  | reserved (hmiss : iommuTranslateVaddr ctx.map vaddr = none)
      (hflags : flags &&& iommuMapFixedIova = 0) (res : Except Errno U64 × σ)
      (hres : ops.iovaReserveAlign.map (fun reserve => reserve ctx.backend len align flags) =
        some res) :
      MapsVaddrAlign ops ctx vaddr len align flags (iommuMapReserved ops ctx vaddr len flags res)

theorem iommuMapVaddrAlign_maps (ops : IommuCtxOps σ) (ctx : IommuCtx σ)
    (vaddr len align flags : U64) :
    MapsVaddrAlign ops ctx vaddr len align flags
      (iommuMapVaddrAlign ops ctx vaddr len align flags) := by
  rw [iommuMapVaddrAlign]
  split_ifs with hflags
  · exact .refused hflags
  · cases hmiss : iommuTranslateVaddr ctx.map vaddr with
    | some got => exact .found got hmiss
    | none =>
        cases hreserve : ops.iovaReserveAlign with
        | none => exact .unsupported hreserve
        | some reserve => exact .reserved hmiss (not_not.mp hflags) _ (by rw [hreserve]; rfl)

def putEphemeral (ops : IommuCtxOps σ) (flags : U64) (backend : σ) : σ :=
  match ops.iovaPutEphemeral with
  | some put => if flags &&& iommuMapEphemeral ≠ 0 then put backend else backend
  | none => backend

def iommuUnmapVaddr (ops : IommuCtxOps σ) (ctx : IommuCtx σ) (vaddr : U64) :
    Except Errno U64 × IommuCtx σ :=
  match iovaMapFind ctx.map vaddr with
  | none => (.error .ENOENT, ctx)
  | some n =>
      let m := ctx.map.mapping n
      match ops.dmaUnmap ctx.backend m.iova m.len with
      | (.error e, backend) => (.error e, { ctx with backend := backend })
      | (.ok _, backend) =>
          (.ok m.len,
            { ctx with
              map := iovaMapRemove ctx.map m.vaddr
              backend := putEphemeral ops m.flags backend })

/-- `__unmap_mapping` on one mapping after the other. A failure is fatal. -/
def unmapMappings (ops : IommuCtxOps σ) : List IovaMapping → σ → Option σ
  | [], backend => some backend
  | m :: ms, backend =>
      match ops.dmaUnmap backend m.iova m.len with
      | (.error _, _) => none
      | (.ok _, backend) => unmapMappings ops ms backend

def iommuUnmapAll (ops : IommuCtxOps σ) (ctx : IommuCtx σ) :
    Option (Except Errno Unit × IommuCtx σ) :=
  let cleared := iovaMapClearWith ctx.map
  match ops.dmaUnmapAll with
  | some unmapAll =>
      match unmapAll ctx.backend with
      | (.error e, backend) => some (.error e, { ctx with backend := backend })
      | (.ok _, backend) => some (.ok (), { ctx with map := cleared.1, backend := backend })
  | none =>
      (unmapMappings ops (cleared.2.map ctx.map.mapping) ctx.backend).map fun backend =>
        (.ok (), { ctx with map := cleared.1, backend := backend })

def iommuMaxSameIova : U64 := 0x7fffffffffff

def sameIovaFull (ctx : IommuCtx σ) (len : U64) : Bool :=
  ctx.iovaMax ≤ ctx.iovaNextSame + len ∨ iommuMaxSameIova ≤ ctx.iovaNextSame + len

/-- What `iommu_alloc_same_iova` does with the answer of `mmap`, unless it is
`EEXIST`. -/
def iommuAllocSameAt (ops : IommuCtxOps σ) (ctx : IommuCtx σ) (len : U64) :
    Except Errno U64 → Except Errno U64 × IommuCtx σ
  | .error e => (.error e, ctx)
  | .ok vaddr =>
      match iommuMapVaddr ops ctx vaddr len vaddr iommuMapFixedIova with
      | (.error e, ctx) => (.error e, ctx)
      | (.ok _, ctx) => (.ok vaddr, { ctx with iovaNextSame := ctx.iovaNextSame + len })

/-- The loop of `iommu_alloc_same_iova`, for a length that is aligned already. There is no room at
the cursor (`full`), or else `mmap` is asked. It says that the memory is in use, and the next turn
follows (`busy`), or there is no other turn (`last`). `answers` is what is known about its
answers. -/
def sameIovaLoop {γ β : Type*} (len : U64) (rest : γ → γ) (full : IommuCtx σ → β)
    (busy : γ → IommuCtx σ → β → β) (last : γ → IommuCtx σ → β) : ℕ → γ → IommuCtx σ → β
  | 0, answers, ctx => if sameIovaFull ctx len then full ctx else last answers ctx
  | turns + 1, answers, ctx =>
      if sameIovaFull ctx len then full ctx
      else
        busy answers ctx
          (sameIovaLoop len rest full busy last turns (rest answers)
            { ctx with iovaNextSame := ctx.iovaNextSame + len })

/-- The loop, where `mmap` answers `EEXIST` as often as the counter says and then with an address
or another error. -/
def iommuAllocSameLoop (ops : IommuCtxOps σ) (len : U64) (mmap : Except Errno U64) (busy : ℕ)
    (ctx : IommuCtx σ) : Except Errno U64 × IommuCtx σ :=
  sameIovaLoop len id (fun ctx => (.error .ENOMEM, ctx)) (fun _ _ result => result)
    (fun _ ctx => iommuAllocSameAt ops ctx len mmap) busy () ctx

theorem iommuAllocSameLoop_zero (ops : IommuCtxOps σ) (len : U64) (mmap : Except Errno U64)
    (ctx : IommuCtx σ) :
    iommuAllocSameLoop ops len mmap 0 ctx =
      if sameIovaFull ctx len then (.error .ENOMEM, ctx) else iommuAllocSameAt ops ctx len mmap :=
  rfl

theorem iommuAllocSameLoop_succ (ops : IommuCtxOps σ) (len : U64) (mmap : Except Errno U64)
    (busy : ℕ) (ctx : IommuCtx σ) :
    iommuAllocSameLoop ops len mmap (busy + 1) ctx =
      if sameIovaFull ctx len then (.error .ENOMEM, ctx)
      else
        iommuAllocSameLoop ops len mmap busy { ctx with iovaNextSame := ctx.iovaNextSame + len } :=
  rfl

def iommuAllocSameIova (ops : IommuCtxOps σ) (pagesize : U64) (ctx : IommuCtx σ) (len : U64)
    (busy : ℕ) (mmap : Except Errno U64) : Except Errno U64 × IommuCtx σ :=
  iommuAllocSameLoop ops (alignUp len pagesize) mmap busy ctx

def iommuFreeSameIova (ops : IommuCtxOps σ) (ctx : IommuCtx σ) (vaddr : U64) :
    Except Errno U64 × IommuCtx σ :=
  iommuUnmapVaddr ops ctx vaddr

inductive DmaOp where
  | map (vaddr len iova flags : U64)
  | mapAlign (vaddr len align flags : U64)
  | unmap (vaddr : U64)
  | unmapAll

def dmaStep (ops : IommuCtxOps σ) (ctx : IommuCtx σ) : DmaOp → Option (IommuCtx σ)
  | .map vaddr len iova flags => some (iommuMapVaddr ops ctx vaddr len iova flags).2
  | .mapAlign vaddr len align flags => some (iommuMapVaddrAlign ops ctx vaddr len align flags).2
  | .unmap vaddr => some (iommuUnmapVaddr ops ctx vaddr).2
  | .unmapAll => (iommuUnmapAll ops ctx).map Prod.snd

end Iommu

end Libvfn
