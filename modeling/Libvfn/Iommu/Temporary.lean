import Libvfn.Iommu.Vfio.Ephemeral
import Libvfn.Util.SkipList.Cuts

/-!
# Temporary mappings

A caller that needs a buffer mapped for the time of a command maps it with the ephemeral flag
and unmaps it afterwards. Unmapping looks for the first address of the buffer, and it finds
the mapping that was made for it, whatever else is in the map: the search goes by where the
mapping was linked. So this needs no order of the mappings, only a list of nodes that were
allocated for it, and this much holds in every run, no matter what the blocks are. Only a
mapping whose end wraps around is not found again.

The backend that counts the ephemeral mappings counts a block when it is reserved. It is
discounted when the mapping is removed, and stays counted when the mapping is not made.
-/

namespace Libvfn

namespace Iommu

open Word Support Util Runs

/-! ## Any map -/

/-- The list holds the nodes `xs`, all of which were allocated. Their mappings may overlap. -/
structure Listed (map : IovaMap) (xs : List ℕ) : Prop where
  holds : Holds map.list xs
  fresh : ∀ i ∈ xs, i < map.fresh

section Listed

variable {map : IovaMap} {xs : List ℕ} {m : IovaMapping} {vaddr : U64}

theorem listed_init (rand : ℕ → Bool) (garbage : IovaMapping) :
    Listed (iovaMapInit rand garbage) [] :=
  ⟨holds_init rand, by simp⟩

theorem Listed.held_eq (h : Listed map xs) :
    map.held = xs.map fun i => map.mapping (.entry i) :=
  h.holds.map_tail map.mapping

theorem Listed.not_mem_fresh (h : Listed map xs) : map.fresh ∉ xs :=
  fun hmem => (h.fresh _ hmem).false

theorem Listed.mapping_link (h : Listed map xs) (m : IovaMapping) {i : ℕ} (hi : i ∈ xs) :
    (iovaMapLink map m).mapping (.entry i) = map.mapping (.entry i) :=
  mapping_link_of_ne m fun heq => h.not_mem_fresh (heq ▸ hi)

theorem Listed.link (h : Listed map xs) (m : IovaMapping) :
    ∃ l r, xs = l ++ r ∧ Listed (iovaMapLink map m) (l ++ map.fresh :: r) := by
  obtain ⟨l, r, rfl, hholds⟩ :=
    h.holds.link_any (iovaCmp map.mapping m.vaddr) h.not_mem_fresh
  refine ⟨l, r, rfl, hholds, fun i hi => ?_⟩
  rcases List.mem_cons.mp (List.perm_middle.mem_iff.mp hi) with rfl | hi
  · exact Nat.lt_succ_self _
  · exact Nat.lt_succ_of_lt (h.fresh i hi)

theorem Listed.held_link (h : Listed map xs) (m : IovaMapping) :
    (iovaMapLink map m).held.Perm (m :: map.held) := by
  obtain ⟨l, r, rfl, h'⟩ := h.link m
  rw [h'.held_eq, h.held_eq]
  refine (List.perm_middle.map _).trans ?_
  rw [List.map_cons, mapping_link_self,
    List.map_congr_left fun i hi => h.mapping_link m hi]

theorem Listed.remove (h : Listed map xs) (vaddr : U64) :
    ∃ xs', Listed (iovaMapRemove map vaddr) xs' := by
  rw [iovaMapRemove]
  cases hfind : (skiplistFind map.list (iovaCmp map.mapping vaddr)).1 with
  | none => exact ⟨xs, h⟩
  | some n =>
      obtain ⟨i, -, rfl, -⟩ := h.holds.mem_of_find hfind
      exact ⟨xs.erase i, h.holds.erase_any hfind, fun j hj => h.fresh j (List.mem_of_mem_erase hj)⟩

theorem Listed.clear (h : Listed map xs) : Listed (iovaMapClearWith map).1 [] :=
  ⟨h.holds.clear_spec.1, by simp⟩

/-! ## Linking and removing -/

theorem iovaCmp_link_self :
    iovaCmp (iovaMapLink map m).mapping m.vaddr (.entry map.fresh) =
      if m.vaddr < m.vaddr + m.len then 0 else 1 := by
  rw [iovaCmp, mapping_link_self]
  simp only [BitVec.lt_def, BitVec.le_def]
  split_ifs <;> omega

theorem Listed.find_link (h : Listed map xs) (hmiss : iovaMapFind map m.vaddr = none) :
    iovaMapFind (iovaMapLink map m) m.vaddr =
      if m.vaddr < m.vaddr + m.len then some (.entry map.fresh) else none := by
  have hsame : ∀ i ∈ xs, iovaCmp (iovaMapLink map m).mapping m.vaddr (.entry i) =
      iovaCmp map.mapping m.vaddr (.entry i) := by
    intro i hi
    rw [iovaCmp, h.mapping_link m hi, iovaCmp]
  have hnonneg : 0 ≤ iovaCmp (iovaMapLink map m).mapping m.vaddr (.entry map.fresh) := by
    rw [iovaCmp_link_self]
    split_ifs <;> decide
  have hfind := h.holds.find_link h.not_mem_fresh hsame hmiss hnonneg
  rw [iovaCmp_link_self] at hfind
  refine hfind.trans ?_
  split_ifs <;> first | rfl | contradiction

theorem Listed.held_remove_link (h : Listed map xs) (hmiss : iovaMapFind map m.vaddr = none)
    (hend : m.vaddr < m.vaddr + m.len) :
    (iovaMapRemove (iovaMapLink map m) m.vaddr).held = map.held := by
  have hfind := h.find_link hmiss
  rw [if_pos hend, iovaMapFind] at hfind
  obtain ⟨l, r, rfl, h'⟩ := h.link m
  have herase := h'.holds.erase_any hfind
  rw [List.erase_append_right _ h'.holds.not_mem_split.1, List.erase_cons_head] at herase
  rw [iovaMapRemove, hfind, h.held_eq, IovaMap.held]
  exact (herase.map_tail _).trans (List.map_congr_left fun i hi => h.mapping_link m hi)

end Listed

/-! ## Calls -/

section Calls

variable {σ : Type*} {ops : IommuCtxOps σ} {ctx ctx' : IommuCtx σ} {xs : List ℕ}
  {vaddr len iova flags align : U64}

theorem iommuMapAt_listed (h : Listed ctx.map xs) :
    ∃ xs, Listed (iommuMapAt ops ctx vaddr len iova flags).2.map xs := by
  have hmaps := iommuMapAt_maps ops ctx vaddr len iova flags
  generalize iommuMapAt ops ctx vaddr len iova flags = r at hmaps ⊢
  cases hmaps with
  | refused => exact ⟨xs, h⟩
  | linked got =>
      obtain ⟨l, r, -, h'⟩ := h.link ⟨vaddr, len, got, flags⟩
      exact ⟨_, h'⟩

theorem iommuMapReserved_listed (h : Listed ctx.map xs) (res : Except Errno U64 × σ) :
    ∃ xs, Listed (iommuMapReserved ops ctx vaddr len flags res).2.map xs := by
  obtain ⟨e | iova, backend⟩ := res
  · exact ⟨xs, h⟩
  · have h' : Listed ({ ctx with backend := backend } : IommuCtx σ).map xs := h
    exact iommuMapAt_listed h'

theorem iommuMapVaddr_listed (h : Listed ctx.map xs) :
    ∃ xs, Listed (iommuMapVaddr ops ctx vaddr len iova flags).2.map xs := by
  have hmaps := iommuMapVaddr_maps ops ctx vaddr len iova flags
  generalize iommuMapVaddr ops ctx vaddr len iova flags = r at hmaps ⊢
  cases hmaps with
  | found => exact ⟨xs, h⟩
  | fixed => exact iommuMapAt_listed h
  | chosen => exact iommuMapAt_listed h
  | reserved _ _ res => exact iommuMapReserved_listed h res

theorem iommuMapVaddrAlign_listed (h : Listed ctx.map xs) :
    ∃ xs, Listed (iommuMapVaddrAlign ops ctx vaddr len align flags).2.map xs := by
  have hmaps := iommuMapVaddrAlign_maps ops ctx vaddr len align flags
  generalize iommuMapVaddrAlign ops ctx vaddr len align flags = r at hmaps ⊢
  cases hmaps with
  | refused => exact ⟨xs, h⟩
  | found => exact ⟨xs, h⟩
  | unsupported => exact ⟨xs, h⟩
  | reserved _ _ res => exact iommuMapReserved_listed h res

theorem iommuUnmapVaddr_listed (h : Listed ctx.map xs) :
    ∃ xs, Listed (iommuUnmapVaddr ops ctx vaddr).2.map xs := by
  rw [iommuUnmapVaddr]
  cases iovaMapFind ctx.map vaddr with
  | none => exact ⟨xs, h⟩
  | some n =>
      dsimp only
      generalize ops.dmaUnmap ctx.backend (ctx.map.mapping n).iova (ctx.map.mapping n).len = res
      obtain ⟨e | u, backend⟩ := res
      · exact ⟨xs, h⟩
      · exact h.remove _

/-- Every call keeps a list of allocated nodes, whatever its block is. -/
theorem listed_step (call : DmaOp) (h : ∃ xs, Listed ctx.map xs)
    (hstep : dmaStep ops ctx call = some ctx') : ∃ xs, Listed ctx'.map xs := by
  obtain ⟨xs, h⟩ := h
  cases call with
  | map vaddr len iova flags =>
      obtain rfl := Option.some.inj hstep
      exact iommuMapVaddr_listed h
  | mapAlign vaddr len align flags =>
      obtain rfl := Option.some.inj hstep
      exact iommuMapVaddrAlign_listed h
  | unmap vaddr =>
      obtain rfl := Option.some.inj hstep
      exact iommuUnmapVaddr_listed h
  | unmapAll =>
      obtain ⟨res, hres, rfl⟩ := Option.map_eq_some_iff.mp hstep
      cases iommuUnmapAll_spec hres with
      | refused => exact ⟨xs, h⟩
      | atOnce => exact ⟨[], h.clear⟩
      | oneByOne => exact ⟨[], h.clear⟩

theorem listed_run (ops : IommuCtxOps σ) (rand : ℕ → Bool) (garbage : IovaMapping)
    (hmap : ctx.map = iovaMapInit rand garbage) (calls : List DmaOp)
    (hrun : run (dmaStep ops) ctx calls = some ctx') : ∃ xs, Listed ctx'.map xs := by
  have hinit : ∃ xs, Listed ctx.map xs := ⟨[], hmap ▸ listed_init rand garbage⟩
  have hkeep : ∀ (u : IommuCtx σ) (call : DmaOp) (u' : IommuCtx σ), (∃ xs, Listed u.map xs) →
      dmaStep ops u call = some u' → ∃ xs, Listed u'.map xs := fun u call u' => listed_step call
  exact run_invariant_of_step hkeep hinit hrun

end Calls

/-! ## The counter of a backend -/

/-- The backend counts the blocks that are reserved for ephemeral mappings, and discounts them
when they are put back. A backend that has neither function has nothing to count. -/
structure CountsEphemerals {σ : Type*} (ops : IommuCtxOps σ) (counter : σ → U64) : Prop where
  reserve : ∀ reserve, ops.iovaReserve = some reserve → ∀ backend len,
    counter (reserve backend len iommuMapEphemeral).2 =
      counter backend + if (reserve backend len iommuMapEphemeral).1.isOk then 1 else 0
  put : ∀ put, ops.iovaPutEphemeral = some put → ∀ backend,
    counter (put backend) = counter backend - 1
  both : ops.iovaReserve.isSome = ops.iovaPutEphemeral.isSome
  dmaMap : ∀ backend vaddr len iova flags,
    counter (ops.dmaMap backend vaddr len iova flags).2 = counter backend
  dmaUnmap : ∀ backend iova len, counter (ops.dmaUnmap backend iova len).2 = counter backend

theorem reserved_after {κ : Type*} (s : KernelVfio κ)
    (res : Except Errno (U64 × VfioContainer)) :
    (s.reserved res).2.vfio = s.vfio.after res ∧ (s.reserved res).1.isOk = res.isOk := by
  obtain e | ⟨iova, vfio⟩ := res
  · exact ⟨rfl, rfl⟩
  · exact ⟨rfl, rfl⟩

/-- The counter of a container is such a counter, for any kernel. -/
theorem kernelVfioOps_counts {κ : Type*} (kernel : KernelOps κ) (pagesize : U64)
    (hasUnmapAll : Bool) :
    CountsEphemerals (kernelVfioOps kernel pagesize hasUnmapAll) (·.vfio.nephemerals) where
  reserve := by
    rintro _ ⟨⟩ s len
    have hflags : ephemeralFlags iommuMapEphemeral = true := rfl
    obtain ⟨hafter, hok⟩ := reserved_after s
      (vfioIommuType1IovaReserve pagesize s.vfio len iommuMapEphemeral)
    dsimp only
    rw [hafter, hok]
    exact nephemerals_after_reserve_ephemeral pagesize s.vfio len iommuMapEphemeral hflags
  put := by
    rintro _ ⟨⟩ s
    dsimp only [vfioIommuType1IovaPutEphemeral]
    split_ifs <;> rfl
  both := rfl
  dmaMap s vaddr len iova flags := by
    dsimp only [kernelVfioOps]
    rw [vfioIommuType1DoDmaMap_vfio]
  dmaUnmap s iova len := by
    dsimp only [kernelVfioOps]
    rw [vfioIommuType1DoDmaUnmap_vfio]
    split_ifs
    · exact vfioIovaPut_nephemerals ..
    · rfl

/-! ## Mapping and unmapping a buffer -/

section Temporary

variable {σ : Type*} {ops : IommuCtxOps σ} {counter : σ → U64} {ctx ctx' : IommuCtx σ}
  {xs : List ℕ} {m : IovaMapping} {vaddr len iova : U64}

def reservesEphemeral (ops : IommuCtxOps σ) (backend : σ) (len : U64) : Bool :=
  ops.iovaReserve.any fun reserve => (reserve backend len iommuMapEphemeral).1.isOk

/-- What `iommu_map_vaddr` does with a buffer that is not mapped, for an ephemeral mapping: it
fails, and the block may stay counted, or the mapping is linked and counted. -/
inductive MapsEphemeral (ops : IommuCtxOps σ) (counter : σ → U64) (ctx : IommuCtx σ)
    (vaddr len : U64) : Except Errno U64 × IommuCtx σ → Prop
  | failed (e : Errno) (ctx' : IommuCtx σ) (hmap : ctx'.map = ctx.map)
      (hcounter : counter ctx'.backend = counter ctx.backend +
        if reservesEphemeral ops ctx.backend len then 1 else 0) :
      MapsEphemeral ops counter ctx vaddr len (.error e, ctx')
  | made (got : U64) (ctx' : IommuCtx σ) (hmiss : iovaMapFind ctx.map vaddr = none)
      (hmap : ctx'.map = iovaMapLink ctx.map ⟨vaddr, len, got, iommuMapEphemeral⟩)
      (hcounter : counter ctx'.backend = counter ctx.backend +
        if ops.iovaReserve.isSome then 1 else 0) :
      MapsEphemeral ops counter ctx vaddr len (.ok got, ctx')

/-- The part behind the reservation, where `counted` says whether a block was counted. -/
theorem iommuMapAt_ephemeral (ctx ctx₀ : IommuCtx σ) {counted : Bool}
    (hcounts : CountsEphemerals ops counter) (hmap : ctx₀.map = ctx.map)
    (hcounter : counter ctx₀.backend = counter ctx.backend + if counted then 1 else 0)
    (hreserves : reservesEphemeral ops ctx.backend len = counted)
    (hsome : ops.iovaReserve.isSome = counted) (iova : U64) :
    MapsEphemeral ops counter ctx vaddr len
      (iommuMapAt ops ctx₀ vaddr len iova iommuMapEphemeral) := by
  have hmaps := iommuMapAt_maps ops ctx₀ vaddr len iova iommuMapEphemeral
  have hsame := (hcounts.dmaMap ctx₀.backend vaddr len iova iommuMapEphemeral).trans hcounter
  generalize iommuMapAt ops ctx₀ vaddr len iova iommuMapEphemeral = r at hmaps ⊢
  cases hmaps with
  | refused e =>
      rw [← hreserves] at hsame
      exact .failed e _ hmap hsame
  | linked got _ hmiss =>
      rw [hmap] at hmiss
      rw [← hsome] at hsame
      exact .made got _ hmiss (by rw [hmap]) hsame

theorem iommuMapVaddr_ephemeral (hcounts : CountsEphemerals ops counter)
    (hmiss : iommuTranslateVaddr ctx.map vaddr = none) {r : Except Errno U64 × IommuCtx σ}
    (hr : iommuMapVaddr ops ctx vaddr len iova iommuMapEphemeral = r) :
    MapsEphemeral ops counter ctx vaddr len r := by
  rw [← hr, iommuMapVaddr, hmiss]
  dsimp only
  rw [if_neg (by decide)]
  cases hreserve : ops.iovaReserve with
  | none =>
      have hnone : reservesEphemeral ops ctx.backend len = false := by
        rw [reservesEphemeral, hreserve]
        rfl
      exact iommuMapAt_ephemeral ctx ctx hcounts rfl (add_zero _).symm hnone
        (by rw [hreserve]; rfl) 0
  | some reserve =>
      have hcounter := hcounts.reserve reserve hreserve ctx.backend len
      have hany : reservesEphemeral ops ctx.backend len =
          (reserve ctx.backend len iommuMapEphemeral).1.isOk := by
        rw [reservesEphemeral, hreserve]
        rfl
      dsimp only
      rw [← hany] at hcounter
      generalize reserve ctx.backend len iommuMapEphemeral = res at hcounter hany ⊢
      obtain ⟨e | iova, backend⟩ := res
      · exact .failed e _ rfl hcounter
      · rw [hany] at hcounter
        exact iommuMapAt_ephemeral ctx { ctx with backend := backend } hcounts rfl hcounter hany
          (by rw [hreserve]; rfl) iova

/-- Unmapping what was linked for a buffer takes it out again. -/
theorem iommuUnmapVaddr_linked (h : Listed ctx.map xs)
    (hmiss : iovaMapFind ctx.map m.vaddr = none) (hmap : ctx'.map = iovaMapLink ctx.map m)
    {n : U64} {ctx'' : IommuCtx σ} (hunmap : iommuUnmapVaddr ops ctx' m.vaddr = (.ok n, ctx'')) :
    ctx''.map.held = ctx.map.held ∧
      ctx''.backend = putEphemeral ops m.flags (ops.dmaUnmap ctx'.backend m.iova m.len).2 := by
  have hfind := h.find_link hmiss
  rw [iommuUnmapVaddr, hmap, hfind] at hunmap
  by_cases hend : m.vaddr < m.vaddr + m.len
  · rw [if_pos hend] at hunmap
    dsimp only at hunmap
    rw [mapping_link_self] at hunmap
    generalize ops.dmaUnmap ctx'.backend m.iova m.len = res at hunmap ⊢
    obtain ⟨e | u, backend⟩ := res
    · cases (Prod.mk.inj hunmap).1
    · obtain ⟨-, rfl⟩ := Prod.mk.inj hunmap
      exact ⟨h.held_remove_link hmiss hend, rfl⟩
  · rw [if_neg hend] at hunmap
    cases (Prod.mk.inj hunmap).1

theorem counter_putEphemeral (hcounts : CountsEphemerals ops counter) (backend : σ) :
    counter (putEphemeral ops iommuMapEphemeral backend) =
      counter backend - if ops.iovaReserve.isSome then 1 else 0 := by
  rw [hcounts.both, putEphemeral]
  cases hput : ops.iovaPutEphemeral with
  | none => exact (sub_zero _).symm
  | some put => exact hcounts.put put hput backend

theorem temporary_undone (hcounts : CountsEphemerals ops counter) (h : Listed ctx.map xs)
    {got : U64} (hmaps : MapsEphemeral ops counter ctx vaddr len (.ok got, ctx')) {n : U64}
    {ctx'' : IommuCtx σ} (hunmap : iommuUnmapVaddr ops ctx' vaddr = (.ok n, ctx'')) :
    ctx''.map.held = ctx.map.held ∧ counter ctx''.backend = counter ctx.backend := by
  cases hmaps with
  | made _ _ hmiss hmap hcounter =>
      obtain ⟨hheld, hbackend⟩ := iommuUnmapVaddr_linked
        (m := ⟨vaddr, len, got, iommuMapEphemeral⟩) h hmiss hmap hunmap
      refine ⟨hheld, ?_⟩
      rw [hbackend, counter_putEphemeral hcounts, hcounts.dmaUnmap, hcounter, add_sub_cancel_right]

theorem temporary_left (h : Listed ctx.map xs) {got : U64}
    (hmaps : MapsEphemeral ops counter ctx vaddr len (.ok got, ctx')) :
    ctx'.map.held.Perm (⟨vaddr, len, got, iommuMapEphemeral⟩ :: ctx.map.held) ∧
      ctx'.map.ephemerals = ctx.map.ephemerals + 1 := by
  cases hmaps with
  | made _ _ hmiss hmap =>
      have hflags : iommuMapEphemeral &&& iommuMapEphemeral ≠ 0 := by decide
      have heph : IovaMapping.ephemeral ⟨vaddr, len, got, iommuMapEphemeral⟩ = true :=
        decide_eq_true hflags
      rw [IovaMap.ephemerals, hmap]
      have hperm := h.held_link ⟨vaddr, len, got, iommuMapEphemeral⟩
      refine ⟨hperm, ?_⟩
      rw [hperm.countP_eq, List.countP_cons_of_pos heph, IovaMap.ephemerals]

end Temporary

end Iommu

end Libvfn
