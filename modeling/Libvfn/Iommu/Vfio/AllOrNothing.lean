import Libvfn.Iommu.Vfio.MapRace

/-!
# What a failed mapping leaves behind

A call that maps reserves a block, asks the kernel, and records the mapping; none of the three
is undone if a later one fails. Recording can only fail for an empty mapping, so what matters is
the reservation: a call that fails before it leaves everything as it was, and so does one whose
address is fixed. A call that has reserved a block and fails then leaves the block reserved, or
the ephemeral mapping counted, in every state in which the allocator is well formed.
-/

namespace Libvfn

namespace Iommu

open Word Support Util

def VfioContainer.available (vfio : VfioContainer) : Set ℕ :=
  {x | ∃ r ∈ vfio.freeIovas.ranges, x ∈ r.addresses} ∪
    usable vfio.iovaRanges ∩ Set.Ici vfio.next.toNat

def VfioContainer.availableEphemeral (vfio : VfioContainer) : Set ℕ :=
  usable [vfio.ephemerals] ∩ Set.Ici vfio.nextEphemeral.toNat

/-- The two contexts have the same map, the same mappings in the kernel, the same number of
ephemeral mappings and the same addresses left. -/
structure Unchanged {κ : Type*} (live : κ → Set DmaMap) (ctx ctx' : IommuCtx (KernelVfio κ)) :
    Prop where
  map : ctx'.map = ctx.map
  live : live ctx'.backend.kernel = live ctx.backend.kernel
  nephemerals : ctx'.backend.vfio.nephemerals = ctx.backend.vfio.nephemerals
  available : ctx'.backend.vfio.available = ctx.backend.vfio.available
  availableEphemeral :
    ctx'.backend.vfio.availableEphemeral = ctx.backend.vfio.availableEphemeral

inductive MapOp where
  | vaddr (iova : U64)
  | vaddrAlign (align : U64)

structure MapRequest where
  vaddr : U64
  len : U64
  flags : U64
  op : MapOp

def MapRequest.call {σ : Type*} (q : MapRequest) (ops : IommuCtxOps σ) (ctx : IommuCtx σ) :
    Except Errno U64 × IommuCtx σ :=
  match q.op with
  | .vaddr iova => iommuMapVaddr ops ctx q.vaddr q.len iova q.flags
  | .vaddrAlign align => iommuMapVaddrAlign ops ctx q.vaddr q.len align q.flags

/-- What the call reserves, unless its address is fixed. -/
def MapRequest.reservation (q : MapRequest) (pagesize : U64) (vfio : VfioContainer) :
    Except Errno (U64 × VfioContainer) :=
  match q.op with
  | .vaddr _ => vfioIommuType1IovaReserve pagesize vfio q.len q.flags
  | .vaddrAlign align => vfioIommuType1IovaReserveAlign pagesize vfio q.len align

def MapRequest.Granted (q : MapRequest) (pagesize : U64) (vfio : VfioContainer) : Prop :=
  q.flags &&& iommuMapFixedIova = 0 ∧ ∃ got, q.reservation pagesize vfio = .ok got

section Fails

variable {κ : Type*} {kernel : KernelOps κ} {pagesize : U64} {hasUnmapAll : Bool}
  {ctx ctx' : IommuCtx (KernelVfio κ)} {q : MapRequest} {e : Errno}

/-- Where a call can fail: before it has reserved a block, or when it maps, at a fixed address
or at the block. -/
inductive Fails (kernel : KernelOps κ) (pagesize : U64) (hasUnmapAll : Bool)
    (ctx : IommuCtx (KernelVfio κ)) (q : MapRequest) : IommuCtx (KernelVfio κ) → Prop
  | early (hnot : ¬q.Granted pagesize ctx.backend.vfio) :
      Fails kernel pagesize hasUnmapAll ctx q ctx
  | fixed (iova : U64) (e : Errno) (ctx' : IommuCtx (KernelVfio κ))
      (hmiss : iommuTranslateVaddr ctx.map q.vaddr = none)
      (hflags : q.flags &&& iommuMapFixedIova ≠ 0)
      (hfail : iommuMapAt (kernelVfioOps kernel pagesize hasUnmapAll) ctx q.vaddr q.len iova
        q.flags = (.error e, ctx')) :
      Fails kernel pagesize hasUnmapAll ctx q ctx'
  | reserved (iova : U64) (vfio : VfioContainer) (e : Errno) (ctx' : IommuCtx (KernelVfio κ))
      (hmiss : iommuTranslateVaddr ctx.map q.vaddr = none)
      (hflags : q.flags &&& iommuMapFixedIova = 0)
      (hres : q.reservation pagesize ctx.backend.vfio = .ok (iova, vfio))
      (hfail : iommuMapAt (kernelVfioOps kernel pagesize hasUnmapAll)
        { ctx with backend := { ctx.backend with vfio := vfio } } q.vaddr q.len iova q.flags =
          (.error e, ctx')) :
      Fails kernel pagesize hasUnmapAll ctx q ctx'

theorem fails_of_reserved {res : Except Errno (U64 × VfioContainer)}
    (hmiss : iommuTranslateVaddr ctx.map q.vaddr = none)
    (hflags : q.flags &&& iommuMapFixedIova = 0)
    (hres : q.reservation pagesize ctx.backend.vfio = res)
    (hfail : iommuMapReserved (kernelVfioOps kernel pagesize hasUnmapAll) ctx q.vaddr q.len q.flags
      (ctx.backend.reserved res) = (.error e, ctx')) :
    Fails kernel pagesize hasUnmapAll ctx q ctx' := by
  obtain e' | ⟨iova, vfio⟩ := res
  · obtain ⟨-, rfl⟩ := Prod.mk.inj hfail
    refine .early fun hgranted => ?_
    obtain ⟨-, got, hgot⟩ := hgranted
    rw [hres] at hgot
    cases hgot
  · exact .reserved iova vfio e ctx' hmiss hflags hres hfail

theorem MapRequest.fails
    (hfail : q.call (kernelVfioOps kernel pagesize hasUnmapAll) ctx = (.error e, ctx')) :
    Fails kernel pagesize hasUnmapAll ctx q ctx' := by
  obtain ⟨vaddr, len, flags, iova | align⟩ := q
  · rw [MapRequest.call] at hfail
    dsimp only at hfail
    have hmaps := iommuMapVaddr_maps (kernelVfioOps kernel pagesize hasUnmapAll) ctx vaddr len iova
      flags
    generalize iommuMapVaddr _ ctx vaddr len iova flags = r at hfail hmaps
    cases hmaps with
    | found => cases (Prod.mk.inj hfail).1
    | fixed hmiss hflags => exact .fixed iova e ctx' hmiss hflags hfail
    | chosen _ _ hnone => exact absurd hnone (Option.some_ne_none _)
    | reserved hmiss hflags res hres =>
        obtain rfl := Option.some.inj hres
        exact fails_of_reserved hmiss hflags rfl hfail
  · rw [MapRequest.call] at hfail
    dsimp only at hfail
    have hmaps := iommuMapVaddrAlign_maps (kernelVfioOps kernel pagesize hasUnmapAll) ctx vaddr len
      align flags
    generalize iommuMapVaddrAlign _ ctx vaddr len align flags = r at hfail hmaps
    cases hmaps with
    | refused hflags =>
        obtain ⟨-, rfl⟩ := Prod.mk.inj hfail
        exact .early fun hgranted => hflags hgranted.1
    | found => cases (Prod.mk.inj hfail).1
    | unsupported hnone => exact absurd hnone (Option.some_ne_none _)
    | reserved hmiss hflags res hres =>
        obtain rfl := Option.some.inj hres
        exact fails_of_reserved hmiss hflags rfl hfail

/-- What the kernel answers when a mapping fails, if it is asked at all. -/
theorem vfioIommuType1DoDmaMap_error {live : κ → Set DmaMap}
    (hlive : ∀ k m e k', kernel.map k m = (some e, k') → live k' = live k)
    {s s' : KernelVfio κ} {vaddr len iova flags : U64}
    (hfail : vfioIommuType1DoDmaMap kernel pagesize s vaddr len iova flags = (.error e, s')) :
    live s'.kernel = live s.kernel := by
  rw [vfioIommuType1DoDmaMap] at hfail
  split_ifs at hfail
  · obtain ⟨-, rfl⟩ := Prod.mk.inj hfail
    rfl
  · rcases hmap : kernel.map s.kernel ⟨vaddr, len, iova, dmaMapFlags flags⟩ with ⟨_ | e', k⟩
    · rw [hmap] at hfail
      cases (Prod.mk.inj hfail).1
    · rw [hmap] at hfail
      obtain ⟨-, rfl⟩ := Prod.mk.inj hfail
      exact hlive _ _ _ _ hmap

theorem vfioIommuType1DoDmaMap_accepted {s s' : KernelVfio κ} {vaddr len iova flags iova' : U64}
    (hok : vfioIommuType1DoDmaMap kernel pagesize s vaddr len iova flags = (.ok iova', s')) :
    (kernel.map s.kernel ⟨vaddr, len, iova, dmaMapFlags flags⟩).1 = none := by
  rw [vfioIommuType1DoDmaMap] at hok
  split_ifs at hok
  · cases (Prod.mk.inj hok).1
  · rcases hmap : kernel.map s.kernel ⟨vaddr, len, iova, dmaMapFlags flags⟩ with ⟨_ | e', k⟩
    · rfl
    · rw [hmap] at hok
      cases (Prod.mk.inj hok).1

/-- Mapping can fail after the kernel has accepted for an empty mapping only. -/
theorem iommuMapAt_eq_error {live : κ → Set DmaMap}
    (hlive : ∀ k m e k', kernel.map k m = (some e, k') → live k' = live k)
    {vaddr len iova flags : U64}
    (hfail : iommuMapAt (kernelVfioOps kernel pagesize hasUnmapAll) ctx vaddr len iova flags =
      (.error e, ctx')) (hmiss : iommuTranslateVaddr ctx.map vaddr = none)
    (hempty : len ≠ 0 ∨ ∀ k m, m.size = 0 → (kernel.map k m).1 ≠ none) :
    ctx'.map = ctx.map ∧ ctx'.backend.vfio = ctx.backend.vfio ∧
      live ctx'.backend.kernel = live ctx.backend.kernel := by
  have hvfio := vfioIommuType1DoDmaMap_vfio kernel pagesize ctx.backend vaddr len iova flags
  rw [iommuMapAt] at hfail
  dsimp only [kernelVfioOps] at hfail
  rcases hdma : vfioIommuType1DoDmaMap kernel pagesize ctx.backend vaddr len iova flags with
    ⟨e' | got, s⟩
  · rw [hdma] at hfail hvfio
    obtain ⟨-, rfl⟩ := Prod.mk.inj hfail
    exact ⟨rfl, hvfio, vfioIommuType1DoDmaMap_error hlive hdma⟩
  · rw [hdma] at hfail
    dsimp only at hfail
    have hfind : iovaMapFind ctx.map vaddr = none := Option.map_eq_none_iff.mp hmiss
    rw [iovaMapAdd, ← iovaMapFind, hfind] at hfail
    by_cases hlen : len = 0
    · exact absurd (vfioIommuType1DoDmaMap_accepted hdma)
        (hempty.resolve_left (not_not.mpr hlen) _ _ hlen)
    · rw [if_neg hlen, if_neg (by simp)] at hfail
      cases (Prod.mk.inj hfail).1

/-! ## The addresses that are left -/

variable {vfio vfio' : VfioContainer} {xs : List ℕ} {iova len : U64}

theorem Free.mem_ranges_iff (h : Free vfio.freeIovas xs) {x : ℕ} :
    (∃ r ∈ vfio.freeIovas.ranges, x ∈ r.addresses) ↔ vfio.freeIovas.Has xs x := by
  constructor
  · rintro ⟨r, hr, hx⟩
    exact h.has_of_mem hr hx
  · rintro ⟨i, hi, hx⟩
    rw [h.ranges_eq]
    exact ⟨_, List.mem_map_of_mem hi, hx⟩

theorem Reserves.available_ne (h : Reserves vfio xs iova len vfio') (hready : Ready vfio xs)
    (hlen : len ≠ 0) : vfio'.available ≠ vfio.available := by
  have hstart : iova.toNat ∈ addresses iova len := start_mem_addresses hlen
  obtain ⟨-, xs', hready', hpool, -⟩ := h.pool hready
  have hbefore : iova.toNat ∈ vfio.available := by
    cases h with
    | free htake =>
        exact .inl (hready.free.mem_ranges_iff.mpr (htake.1 _ hstart.1 hstart.2))
    | cursor hle _ husable => exact .inr ⟨husable hstart, hle⟩
  have hafter : iova.toNat ∉ vfio'.available := by
    rintro (hx | ⟨-, hx⟩)
    · exact (hpool (.inl (hready'.free.mem_ranges_iff.mp hx))).2 hstart
    · exact (hpool (.inr hx)).2 hstart
  exact fun heq => hafter (heq ▸ hbefore)

theorem MapRequest.reservation_ne (hready : Ready vfio xs) (hbound : Bounded vfio.iovaRanges)
    (hlen : q.len ≠ 0) (hres : q.reservation pagesize vfio = .ok (iova, vfio')) :
    vfio'.available ≠ vfio.available ∨ vfio'.nephemerals ≠ vfio.nephemerals := by
  obtain ⟨vaddr, len, flags, _ | align⟩ := q
  · by_cases hflags : flags &&& iommuMapEphemeral = 0
    · exact .inl ((vfioIommuType1IovaReserve_spec hready hbound hflags hres).available_ne hready
        hlen)
    · obtain ⟨next, -, rfl⟩ := iovaReserve_of_ephemeral hflags hres
      exact .inr (by simp)
  · exact .inl ((vfioIommuType1IovaReserveAlign_spec hready hbound hres).available_ne hready hlen)

end Fails

/-- A call that fails leaves everything as it was if it has not reserved a block, and, where the
allocator is well formed, only then. -/
theorem iommu_map_all_or_nothing_iff {κ : Type*} (kernel : KernelOps κ) (live : κ → Set DmaMap)
    (hlive : ∀ k m e k', kernel.map k m = (some e, k') → live k' = live k) (pagesize : U64)
    (hasUnmapAll : Bool) (ctx ctx' : IommuCtx (KernelVfio κ)) (q : MapRequest) (e : Errno)
    (hfail : q.call (kernelVfioOps kernel pagesize hasUnmapAll) ctx = (.error e, ctx')) :
    ((q.len ≠ 0 ∨ ∀ k m, m.size = 0 → (kernel.map k m).1 ≠ none) →
        ¬q.Granted pagesize ctx.backend.vfio → Unchanged live ctx ctx') ∧
      ∀ xs, Ready ctx.backend.vfio xs → Bounded ctx.backend.vfio.iovaRanges → q.len ≠ 0 →
        Unchanged live ctx ctx' → ¬q.Granted pagesize ctx.backend.vfio := by
  refine ⟨fun hempty hnot => ?_, fun xs hready hbound hlen hsame hgranted => ?_⟩
  · cases q.fails hfail with
    | early => exact ⟨rfl, rfl, rfl, rfl, rfl⟩
    | fixed iova e ctx' hmiss _ hat =>
        obtain ⟨hmap, hvfio, hkernel⟩ := iommuMapAt_eq_error hlive hat hmiss hempty
        exact ⟨hmap, hkernel, by rw [hvfio], by rw [hvfio], by rw [hvfio]⟩
    | reserved iova vfio e ctx' _ hflags hres => exact absurd ⟨hflags, _, hres⟩ hnot
  · cases q.fails hfail with
    | early hnot => exact hnot hgranted
    | fixed iova e ctx' _ hflags => exact hflags hgranted.1
    | reserved iova vfio e ctx' hmiss _ hres hat =>
        obtain ⟨-, hvfio, -⟩ := iommuMapAt_eq_error hlive hat hmiss (.inl hlen)
        have havailable := hsame.available
        have hcount := hsame.nephemerals
        rw [hvfio] at havailable hcount
        exact (q.reservation_ne hready hbound hlen hres).elim (· havailable) (· hcount)

def fullKernel : KernelOps (List DmaMap) :=
  { recordingKernel with map := fun live _ => (some .ENOMEM, live) }

def pageKernelCtx : IommuCtx (KernelVfio (List DmaMap)) :=
  ⟨iovaMapInit (fun _ => true) ⟨0, 0, 0, 0⟩, 0, 0, ⟨pageContainer, []⟩⟩

/-- The kernel refuses a mapping at a fixed address, and nothing has changed. -/
theorem iommu_map_all_or_nothing_iff_fixed :
    let q : MapRequest := ⟨0x200000, 0x1000, iommuMapFixedIova, .vaddr 0x20000⟩
    let res := q.call (kernelVfioOps fullKernel 0x1000 true) pageKernelCtx
    res.1 = .error .ENOMEM ∧ Unchanged (fun live => {m | m ∈ live}) pageKernelCtx res.2 := by
  intro q res
  have hres : res.1 = .error .ENOMEM := by decide +kernel
  have hfail : res = (.error .ENOMEM, res.2) := by rw [← hres]
  have hlive : ∀ k m e k', fullKernel.map k m = (some e, k') →
      {m | m ∈ k'} = {m : DmaMap | m ∈ k} := by
    rintro k m e k' hmap
    obtain ⟨-, rfl⟩ := Prod.mk.inj hmap
    rfl
  have hflags : ¬q.Granted 0x1000 pageContainer := fun hgranted =>
    absurd hgranted.1 (by decide)
  exact ⟨hres, (iommu_map_all_or_nothing_iff fullKernel _ hlive 0x1000 true pageKernelCtx res.2 q
    .ENOMEM hfail).1 (.inl (by decide)) hflags⟩

/-- A virtual address that is not aligned is refused once the block is reserved, and the block
stays reserved. The kernel refuses an ephemeral mapping, and the mapping stays counted. -/
theorem iommu_map_leaves_reservation :
    (let q : MapRequest := ⟨0x200800, 0x1000, 0, .vaddr 0⟩
      let res := q.call (kernelVfioOps recordingKernel 0x1000 true) pageKernelCtx
      res.1 = .error .EINVAL ∧ 0x11000 ∈ pageKernelCtx.backend.vfio.available ∧
        0x11000 ∉ res.2.backend.vfio.available) ∧
    let q : MapRequest := ⟨0x200000, 0x1000, iommuMapEphemeral, .vaddr 0⟩
    let res := q.call (kernelVfioOps fullKernel 0x1000 true) pageKernelCtx
    res.1 = .error .ENOMEM ∧ pageKernelCtx.backend.vfio.nephemerals = 0 ∧
      res.2.backend.vfio.nephemerals = 1 := by
  refine ⟨⟨by decide +kernel, ?_, ?_⟩, by decide +kernel, rfl, by decide +kernel⟩
  · exact .inr ⟨⟨_, List.mem_singleton_self _, by decide, by decide⟩, by decide⟩
  · rintro (⟨r, hr, -⟩ | ⟨-, hx⟩)
    · exact absurd hr List.not_mem_nil
    · exact absurd hx (by decide +kernel)

end Iommu

end Libvfn
