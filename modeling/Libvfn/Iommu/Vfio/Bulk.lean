import Libvfn.Iommu.Vfio.Stock

/-!
# Unmapping everything at once and one by one

A context can be emptied by `iommu_unmap_all` or by unmapping each mapping by itself. The
map is empty either way, but the container need not be the same: `iommu_unmap_all` does not
discount ephemeral mappings, and where the kernel can unmap everything at once, the list of
free addresses is emptied instead of the blocks being put back.

The containers have the same future exactly if no ephemeral mapping was live and, where
everything was unmapped at once, nothing was free and no block would have been put back.
-/

namespace Libvfn

namespace Iommu

open Word Support Util Spans Runs

def unmapEach {σ : Type*} (ops : IommuCtxOps σ) (ctx : IommuCtx σ) (ms : List IovaMapping) :
    IommuCtx σ :=
  ms.foldl (fun ctx m => (iommuUnmapVaddr ops ctx m.vaddr).2) ctx

/-- The contexts are empty, count the same ephemeral mappings, and the same reservations
succeed. -/
structure SameFuture {κ : Type*} (pagesize : U64) (ctx ctx' : IommuCtx (KernelVfio κ)) : Prop where
  empty : ctx.map.held = [] ∧ ctx'.map.held = []
  nephemerals : ctx.backend.vfio.nephemerals = ctx'.backend.vfio.nephemerals
  reserves : ∀ reqs, reserveAll pagesize ctx.backend.vfio reqs =
    reserveAll pagesize ctx'.backend.vfio reqs

/-! ## Containers -/

section Container

variable {p k : ℕ} {vfio : VfioContainer} {ms ms' : List IovaMapping} {ys : List ℕ}

def VfioContainer.removeAll (vfio : VfioContainer) (ms : List IovaMapping) : VfioContainer :=
  ms.foldl VfioContainer.remove vfio

theorem removeAll_nephemerals (vfio : VfioContainer) (ms : List IovaMapping) :
    (vfio.removeAll ms).nephemerals =
      vfio.nephemerals - BitVec.ofNat 64 (ms.countP IovaMapping.ephemeral) := by
  induction ms generalizing vfio with
  | nil => exact (sub_zero _).symm
  | cons m ms ih =>
      rw [VfioContainer.removeAll, List.foldl_cons, ← VfioContainer.removeAll, ih,
        remove_nephemerals, List.countP_cons, BitVec.ofNat_add]
      cases m.ephemeral with
      | false => simp
      | true =>
          rw [if_pos rfl, sub_sub, add_comm]
          rfl

theorem removeAll_eq_putAll (h : ∀ m ∈ ms, m.ephemeral = false) :
    vfio.removeAll ms = vfio.putAll ms := by
  induction ms generalizing vfio with
  | nil => rfl
  | cons m ms ih =>
      have hm : vfio.remove m = vfioIovaPut vfio m.iova m.len := by
        rw [VfioContainer.remove, h m List.mem_cons_self]
        rfl
      rw [VfioContainer.removeAll, List.foldl_cons, hm]
      exact ih fun c hc => h c (List.mem_cons_of_mem m hc)

theorem twins_of_alike {vfio₁ vfio₂ : VfioContainer} {fl₁ fl₂ : FreeList} {ys₁ ys₂ : List ℕ}
    (h₁ : vfio₁ = { vfio with freeIovas := fl₁ }) (h₂ : vfio₂ = { vfio with freeIovas := fl₂ })
    (halike : Alike vfio₁.freeIovas ys₁ vfio₂.freeIovas ys₂) : Twins vfio₁ vfio₂ := by
  subst h₁ h₂
  exact ⟨⟨ys₁, ys₂, halike⟩, rfl, rfl, rfl, rfl⟩

theorem Stock.twins_putAll (hp : 0 < p) (h : Stock p vfio ms ys) (hperm : ms.Perm ms') :
    Twins (vfio.putAll ms) (vfio.putAll ms') := by
  obtain ⟨ys₁, h₁, hhas₁⟩ := h.putAll hp
  obtain ⟨ys₂, h₂, hhas₂⟩ := (h.perm hperm).putAll hp
  obtain ⟨fl₁, hfl₁⟩ := putAll_eq vfio ms
  obtain ⟨fl₂, hfl₂⟩ := putAll_eq vfio ms'
  refine twins_of_alike hfl₁ hfl₂ ⟨h₁.tidy, h₂.tidy, fun x => ?_⟩
  rw [hhas₁, hhas₂]
  simp only [hperm.mem_iff]

theorem Tidy.ranges_eq_nil_iff (h : Tidy vfio.freeIovas ys) :
    vfio.freeIovas.ranges = [] ↔ ∀ x, ¬vfio.freeIovas.Has ys x := by
  rw [h.toFree.ranges_eq, List.map_eq_nil_iff]
  constructor
  · rintro rfl x
    exact not_covers_nil _ _ x
  · intro hnone
    refine List.eq_nil_iff_forall_not_mem.mpr fun i hi => ?_
    exact hnone _ ⟨i, hi, le_rfl, h.apart.nonempty i hi⟩

/-- Nothing is free, and none of the blocks goes back to the list. -/
def VfioContainer.Bare (vfio : VfioContainer) (ms : List IovaMapping) : Prop :=
  vfio.freeIovas.ranges = [] ∧ ∀ m ∈ ms, vfio.takesBack m.iova = false

/-- Emptying the list does the same as putting the blocks back exactly if there is nothing
in either. -/
theorem Stock.reserveAll_clearFree_iff (hk : k < 64) (hpos : 0 < k)
    (h : Stock (2 ^ k) vfio ms ys) :
    (∀ reqs, reserveAll (BitVec.twoPow 64 k) vfio.clearFree reqs =
        reserveAll (BitVec.twoPow 64 k) (vfio.putAll ms) reqs) ↔ vfio.Bare ms := by
  obtain ⟨ys', h', hhas⟩ := h.putAll (Nat.two_pow_pos k)
  obtain ⟨fl, hfl⟩ := putAll_eq vfio ms
  have hclear : Tidy vfio.clearFree.freeIovas [] := h.tidy.clear
  rw [VfioContainer.Bare, h.tidy.ranges_eq_nil_iff]
  constructor
  · intro hsame
    have hranges : (vfio.putAll ms).iovaRanges = vfio.clearFree.iovaRanges := by
      rw [hfl]
      rfl
    have hnext : (vfio.putAll ms).next = vfio.clearFree.next := by
      rw [hfl]
      rfl
    have hbound : Bounded vfio.clearFree.iovaRanges := h.bounded
    have hget := iovaGetFree_eq_none_of_reserveAll hk hbound hranges hnext
      (iovaGetFree_nil hclear _) hsame
    have hnil : ys' = [] := by
      by_contra hne
      have hsome := iovaGetFree_page_isSome h'.tidy hk hpos h'.paged hne
      rw [hget] at hsome
      cases hsome
    have hnone : ∀ x, ¬(vfio.putAll ms).freeIovas.Has ys' x := by
      rw [hnil]
      exact not_covers_nil _ _
    refine ⟨fun x hx => hnone x ((hhas x).mpr (.inl hx)), fun m hm => ?_⟩
    by_contra hback
    rw [Bool.not_eq_false] at hback
    exact hnone m.iova.toNat ((hhas _).mpr
      (.inr ⟨m, hm, hback, start_mem_addresses (h.len_ne_zero m hm)⟩))
  · rintro ⟨hfree, hback⟩ reqs
    have hlist : vfio.clearFree = { vfio with freeIovas := vfio.clearFree.freeIovas } := rfl
    refine (twins_of_alike hlist hfl ⟨hclear, h'.tidy, fun x => ?_⟩).reserveAll _ reqs
    refine iff_of_false (not_covers_nil _ _ x) fun hx => ?_
    rcases (hhas x).mp hx with hx | ⟨m, hm, hm', -⟩
    · exact hfree x hx
    · rw [hback m hm] at hm'
      cases hm'

theorem bare_congr (h : ms.Perm ms') : vfio.Bare ms ↔ vfio.Bare ms' := by
  simp only [VfioContainer.Bare, h.mem_iff]

/-- Whether the two ways to get rid of ordinary mappings leave containers on which the same
calls succeed. -/
theorem Stock.reserveAll_iff (hk : k < 64) (hpos : 0 < k) (h : Stock (2 ^ k) vfio ms ys)
    (hperm : ms'.Perm ms) (hasUnmapAll : Bool) :
    (∀ reqs, reserveAll (BitVec.twoPow 64 k)
          (if hasUnmapAll then vfio.clearFree else vfio.putAll ms) reqs =
        reserveAll (BitVec.twoPow 64 k) (vfio.putAll ms') reqs) ↔
      (hasUnmapAll → vfio.Bare ms) := by
  cases hasUnmapAll with
  | true =>
      simp only [if_true, true_implies]
      rw [(h.perm hperm.symm).reserveAll_clearFree_iff hk hpos, bare_congr hperm]
  | false =>
      refine iff_of_true (fun reqs => ?_) fun hfalse => (nomatch hfalse)
      exact (h.twins_putAll (Nat.two_pow_pos k) hperm.symm).reserveAll _ reqs

theorem removeAll_nephemerals_eq_iff (hlt : ms.countP IovaMapping.ephemeral < 2 ^ 64) :
    vfio.nephemerals = (vfio.removeAll ms).nephemerals ↔ ∀ m ∈ ms, m.ephemeral = false := by
  rw [removeAll_nephemerals, eq_comm, sub_eq_self, ← BitVec.toNat_inj, BitVec.toNat_ofNat,
    Nat.mod_eq_of_lt hlt]
  have hzero : (0 : U64).toNat = 0 := rfl
  rw [hzero, List.countP_eq_zero]
  simp only [Bool.not_eq_true]

end Container

/-! ## Contexts -/

section Context

variable {κ : Type*} {kernel : KernelOps κ} {pagesize : U64} {hasUnmapAll : Bool}
  {ctx : IommuCtx (KernelVfio κ)} {xs : List ℕ} {m : IovaMapping} {ms : List IovaMapping}

theorem vfioIommuType1DoDmaUnmapAll_eq_ok (hunmapAll : ∀ s, (kernel.unmapAll s).1 = none)
    (s : KernelVfio κ) : ∃ s', vfioIommuType1DoDmaUnmapAll kernel s = (.ok (), s') := by
  have hnone := hunmapAll s.kernel
  rw [vfioIommuType1DoDmaUnmapAll]
  generalize kernel.unmapAll s.kernel = answer at hnone ⊢
  obtain ⟨answer, k⟩ := answer
  obtain rfl := hnone
  exact ⟨_, rfl⟩

section Willing

variable (hunmap : ∀ s iova len, (kernel.unmap s iova len).1 = none)

include hunmap

theorem vfioIommuType1DoDmaUnmap_eq_ok (s : KernelVfio κ) (iova len : U64) :
    ∃ s', vfioIommuType1DoDmaUnmap kernel s iova len = (.ok (), s') := by
  have hnone := hunmap s.kernel iova len
  rw [vfioIommuType1DoDmaUnmap]
  generalize kernel.unmap s.kernel iova len = answer at hnone ⊢
  obtain ⟨answer, k⟩ := answer
  obtain rfl := hnone
  exact ⟨_, rfl⟩

/-- A mapping is found under its address and removed. -/
theorem Unmaps.held {res : Except Errno U64 × IommuCtx (KernelVfio κ)} (h : Mapped ctx.map xs)
    (hm : m ∈ ctx.map.held)
    (hunmaps : Unmaps (kernelVfioOps kernel pagesize hasUnmapAll) ctx xs m.vaddr res) :
    ctx.map.held.Perm (m :: res.2.map.held) ∧
      res.2.backend.vfio = ctx.backend.vfio.remove m := by
  rw [h.held_eq] at hm
  obtain ⟨j, hj, rfl⟩ := List.mem_map.mp hm
  have hinj := (h.cmp_eq_zero_iff hj _).mp (h.cmp_self hj)
  cases hunmaps with
  | missing hmiss => exact absurd ⟨j, hj, hinj⟩ hmiss
  | refused i e backend hi hin hrefused =>
      change vfioIommuType1DoDmaUnmap kernel _ _ _ = _ at hrefused
      obtain ⟨s', hok⟩ := vfioIommuType1DoDmaUnmap_eq_ok hunmap ctx.backend
        (ctx.map.mapping (.entry i)).iova (ctx.map.mapping (.entry i)).len
      rw [hok] at hrefused
      cases (Prod.mk.inj hrefused).1
  | removed l r i backend hxs hin hok =>
      subst hxs
      obtain rfl := h.apart.eq_of_mem hj (by simp) hinj hin
      refine ⟨h.remove.2, ?_⟩
      dsimp only
      exact putEphemeral_vfio _ _ (vfioIommuType1DoDmaUnmap_ok hok)

/-- Once every mapping is unmapped, the map is empty. -/
theorem unmapEach_spec (pagesize : U64) (hasUnmapAll : Bool) (h : ∃ xs, Mapped ctx.map xs)
    (hperm : ms.Perm ctx.map.held) :
    (unmapEach (kernelVfioOps kernel pagesize hasUnmapAll) ctx ms).map.held = [] ∧
      (unmapEach (kernelVfioOps kernel pagesize hasUnmapAll) ctx ms).backend.vfio =
        ctx.backend.vfio.removeAll ms := by
  induction ms generalizing ctx with
  | nil => exact ⟨List.nil_perm.mp hperm, rfl⟩
  | cons m ms ih =>
      obtain ⟨xs, h⟩ := h
      have hunmaps : Unmaps (kernelVfioOps kernel pagesize hasUnmapAll) ctx xs m.vaddr _ :=
        iommuUnmapVaddr_spec h
      obtain ⟨hheld, hvfio⟩ := hunmaps.held hunmap h (hperm.mem_iff.mp List.mem_cons_self)
      obtain ⟨hempty, hend⟩ := ih (hunmaps.mapped h) (hperm.trans hheld).cons_inv
      refine ⟨hempty, hend.trans ?_⟩
      rw [hvfio]
      rfl

theorem unmapsEach_eq_true (ms : List IovaMapping) (k : κ) : kernel.unmapsEach ms k = true := by
  induction ms generalizing k with
  | nil => rfl
  | cons m ms ih => rw [KernelOps.unmapsEach, hunmap, ih, Option.isNone_none, Bool.and_true]

/-- Removing all mappings succeeds. -/
theorem iommuUnmapAll_eq_ok (hunmapAll : ∀ s, (kernel.unmapAll s).1 = none) (pagesize : U64)
    (hasUnmapAll : Bool) (ctx : IommuCtx (KernelVfio κ)) :
    ∃ bulk, iommuUnmapAll (kernelVfioOps kernel pagesize hasUnmapAll) ctx =
      some (.ok (), bulk) := by
  cases hasUnmapAll with
  | true =>
      have hops : (kernelVfioOps kernel pagesize true).dmaUnmapAll =
          some (vfioIommuType1DoDmaUnmapAll kernel) := rfl
      obtain ⟨s', hok⟩ := vfioIommuType1DoDmaUnmapAll_eq_ok hunmapAll ctx.backend
      rw [iommuUnmapAll, hops]
      dsimp only
      rw [hok]
      exact ⟨_, rfl⟩
  | false =>
      have hops : (kernelVfioOps kernel pagesize false).dmaUnmapAll = none := rfl
      obtain ⟨s', hs'⟩ := Option.isSome_iff_exists.mp ((unmapMappings_isSome kernel pagesize false
        ((iovaMapClearWith ctx.map).2.map ctx.map.mapping) ctx.backend).trans
          (unmapsEach_eq_true hunmap _ _))
      rw [iommuUnmapAll, hops]
      dsimp only
      rw [hs']
      exact ⟨_, rfl⟩

end Willing

end Context

/-- In a context that is reached by calls whose blocks are clear and settled, with a kernel
that does not refuse to unmap, removing all mappings at once and one by one leave the same
future exactly if no mapping is ephemeral and, where the kernel unmaps everything at once,
nothing is free or would be put back. -/
theorem bulk_unmap_agrees_iff {κ : Type*} (kernel : KernelOps κ)
    (hunmap : ∀ s iova len, (kernel.unmap s iova len).1 = none)
    (hunmapAll : ∀ s, (kernel.unmapAll s).1 = none) (k : ℕ) (hpos : 0 < k) (hk : k < 64)
    (hasUnmapAll : Bool) (init : IommuCtx (KernelVfio κ)) (rand rand' : ℕ → Bool)
    (garbage : IovaMapping) (garbage' : FreeRange) (hmap : init.map = iovaMapInit rand garbage)
    (hfree : init.backend.vfio.freeIovas = freeListInit rand' garbage')
    (hbound : ∀ r ∈ init.backend.vfio.iovaRanges, r.last.toNat < 2 ^ 64 - 1)
    (calls : List DmaOp) (ctx : IommuCtx (KernelVfio κ))
    (hcalls : MeetsAlong (dmaStep (kernelVfioOps kernel (BitVec.twoPow 64 k) hasUnmapAll))
      (fun ctx call => call.Clear ctx ∧ Settled ctx call) init calls)
    (hrun : run (dmaStep (kernelVfioOps kernel (BitVec.twoPow 64 k) hasUnmapAll)) init calls =
      some ctx)
    (ms : List IovaMapping) (hms : ms.Perm ctx.map.held) :
    ∃ bulk, iommuUnmapAll (kernelVfioOps kernel (BitVec.twoPow 64 k) hasUnmapAll) ctx =
        some (.ok (), bulk) ∧
      (SameFuture (BitVec.twoPow 64 k) bulk
          (unmapEach (kernelVfioOps kernel (BitVec.twoPow 64 k) hasUnmapAll) ctx ms) ↔
        (∀ m ∈ ctx.map.held, m.ephemeral = false) ∧
          (hasUnmapAll → ctx.backend.vfio.Bare ctx.map.held)) := by
  have hinit : Stocked (2 ^ k) init := by
    have hmapped : Mapped init.map [] := hmap ▸ mapped_init rand garbage
    have htidy : Tidy init.backend.vfio.freeIovas [] := hfree ▸ tidy_init rand' garbage'
    refine ⟨⟨[], hmapped⟩, [], ?_⟩
    rw [hmapped.held_eq]
    exact stock_nil htidy hbound
  obtain ⟨⟨xs, hmapped⟩, ys, hstock⟩ : Stocked (2 ^ k) ctx :=
    run_invariant (fun _ call _ => stocked_step hk call) hinit hcalls hrun
  obtain ⟨bulk, hbulk⟩ := iommuUnmapAll_eq_ok hunmap hunmapAll (BitVec.twoPow 64 k) hasUnmapAll ctx
  obtain ⟨hempty, hvfio⟩ := (iommuUnmapAll_spec hbulk).vfio_of_ok hmapped
  obtain ⟨hempty', hvfio'⟩ := unmapEach_spec hunmap (BitVec.twoPow 64 k) hasUnmapAll
    ⟨xs, hmapped⟩ hms
  have hcount : ms.countP IovaMapping.ephemeral < 2 ^ 64 := by
    rw [hms.countP_eq]
    exact hmapped.ephemerals_lt
  have hneph := (iommuUnmapAll_spec hbulk).nephemerals hmapped
  refine ⟨bulk, hbulk, ?_⟩
  constructor
  · intro hsame
    have hordinary : ∀ m ∈ ms, m.ephemeral = false := by
      rw [← removeAll_nephemerals_eq_iff hcount, ← hvfio', ← hneph]
      exact hsame.nephemerals
    refine ⟨fun m hm => hordinary m (hms.mem_iff.mpr hm), ?_⟩
    have hreserves := hsame.reserves
    rw [hvfio, hvfio', removeAll_eq_putAll hordinary] at hreserves
    exact (hstock.reserveAll_iff hk hpos hms hasUnmapAll).mp hreserves
  · rintro ⟨hheld, hbare⟩
    have hordinary : ∀ m ∈ ms, m.ephemeral = false := fun m hm => hheld m (hms.mem_iff.mp hm)
    refine ⟨⟨hempty, hempty'⟩, ?_, ?_⟩
    · rw [hneph, hvfio']
      exact (removeAll_nephemerals_eq_iff hcount).mpr hordinary
    · rw [hvfio, hvfio', removeAll_eq_putAll hordinary]
      exact (hstock.reserveAll_iff hk hpos hms hasUnmapAll).mpr hbare

def willingKernel : KernelOps Unit where
  map := fun _ _ => (none, ())
  unmap := fun _ _ _ => (none, ())
  unmapAll := fun _ => (none, ())

def smallContainer : VfioContainer :=
  { vfioInitContainer [⟨0x1000, 0x12fff⟩] (fun _ => true) ⟨0, 0⟩ with
    next := 0x11000
    ephemerals := ⟨0x1000, 0x10fff⟩ }

def smallCtx : IommuCtx (KernelVfio Unit) :=
  ⟨iovaMapInit (fun _ => true) ⟨0, 0, 0, 0⟩, 0, 0, ⟨smallContainer, ()⟩⟩

def smallOps (hasUnmapAll : Bool) : IommuCtxOps (KernelVfio Unit) :=
  kernelVfioOps willingKernel (BitVec.twoPow 64 12) hasUnmapAll

/-- What the counter and a sequence of reservations are after calls and then removing all
mappings, at once and one by one. -/
def emptied (hasUnmapAll : Bool) (calls : List DmaOp) (reqs : List IovaRequest) :
    Option ((U64 × List Bool) × U64 × List Bool) :=
  let future (ctx : IommuCtx (KernelVfio Unit)) : U64 × List Bool :=
    (ctx.backend.vfio.nephemerals,
      reserveAll (BitVec.twoPow 64 12) ctx.backend.vfio reqs)
  (run (dmaStep (smallOps hasUnmapAll)) smallCtx calls).bind fun ctx =>
    (iommuUnmapAll (smallOps hasUnmapAll) ctx).map fun bulk =>
      (future bulk.2, future (unmapEach (smallOps hasUnmapAll) ctx ctx.map.held))

/-- Two pages are mapped. If everything is unmapped at once, they are lost. An ephemeral
mapping is made: if all mappings are removed by one call, whichever way, it stays counted,
and its range is not used again. -/
theorem bulk_unmap_differs :
    vfioIommuType1Init 0x1000 (vfioInitContainer [⟨0x1000, 0x12fff⟩] (fun _ => true) ⟨0, 0⟩) =
        .ok smallContainer ∧
      emptied true [.map 0x100000 0x2000 0 0] [.plain 0x1000 0] =
        some ((0, [false]), 0, [true]) ∧
      emptied true [.map 0x100000 0x10000 0 iommuMapEphemeral] [.plain 0x1000 iommuMapEphemeral] =
        some ((1, [false]), 0, [true]) ∧
      emptied false [.map 0x100000 0x10000 0 iommuMapEphemeral] [.plain 0x1000 iommuMapEphemeral] =
        some ((1, [false]), 0, [true]) ∧
      ∃ ctx bulk, run (dmaStep (smallOps true)) smallCtx [.map 0x100000 0x2000 0 0] = some ctx ∧
        iommuUnmapAll (smallOps true) ctx = some (.ok (), bulk) ∧
        ¬SameFuture (BitVec.twoPow 64 12) bulk
          (unmapEach (smallOps true) ctx ctx.map.held) := by
  refine ⟨rfl, by decide +kernel, by decide +kernel, by decide +kernel, _, _, rfl, rfl, ?_⟩
  intro hsame
  exact absurd (hsame.reserves [.plain 0x1000 0]) (by decide +kernel)

/-- Two pages are mapped and unmapped by one call, or by themselves, the second one first. -/
theorem bulk_unmap_agrees_two :
    ∃ ctx bulk, run (dmaStep (smallOps false)) smallCtx
          [.map 0x100000 0x1000 0 0, .map 0x200000 0x1000 0 0] = some ctx ∧
        ctx.map.held = [⟨0x100000, 0x1000, 0x11000, 0⟩, ⟨0x200000, 0x1000, 0x12000, 0⟩] ∧
        iommuUnmapAll (smallOps false) ctx = some (.ok (), bulk) ∧
        SameFuture (BitVec.twoPow 64 12) bulk
          (unmapEach (smallOps false) ctx ctx.map.held.reverse) := by
  have hheld : ((run (dmaStep (smallOps false)) smallCtx
      [.map 0x100000 0x1000 0 0, .map 0x200000 0x1000 0 0]).map fun ctx => ctx.map.held) =
        some [⟨0x100000, 0x1000, 0x11000, 0⟩, ⟨0x200000, 0x1000, 0x12000, 0⟩] := by
    decide +kernel
  obtain ⟨ctx, hrun, hheld⟩ := Option.map_eq_some_iff.mp hheld
  have hfirst : ((dmaStep (smallOps false) smallCtx (.map 0x100000 0x1000 0 0)).map
      fun ctx => ctx.map.held) = some [⟨0x100000, 0x1000, 0x11000, 0⟩] := by
    decide +kernel
  obtain ⟨ctx₁, hstep, hheld₁⟩ := Option.map_eq_some_iff.mp hfirst
  have hcalls : MeetsAlong (dmaStep (smallOps false))
      (fun ctx call => call.Clear ctx ∧ Settled ctx call) smallCtx
      [.map 0x100000 0x1000 0 0, .map 0x200000 0x1000 0 0] := by
    refine meetsAlong_cons hstep ⟨.inr ⟨by decide, fun m hm => absurd hm List.not_mem_nil⟩,
      fun hfixed => absurd rfl hfixed⟩ ⟨⟨.inr ⟨by decide, fun m hm => ?_⟩,
      fun hfixed => absurd rfl hfixed⟩, fun _ _ => trivial⟩
    rw [hheld₁, List.mem_singleton] at hm
    rw [hm]
    exact (disjoint_addresses_of_le (by decide)).symm
  obtain ⟨bulk, hbulk, hiff⟩ := bulk_unmap_agrees_iff willingKernel (fun _ _ _ => rfl)
    (fun _ => rfl) 12 (by decide) (by decide) false smallCtx (fun _ => true) (fun _ => true)
    ⟨0, 0, 0, 0⟩ ⟨0, 0⟩ rfl rfl (by decide) _ ctx hcalls hrun ctx.map.held.reverse
    (List.reverse_perm _)
  refine ⟨ctx, bulk, hrun, hheld, hbulk, hiff.mpr ⟨?_, fun hfalse => (nomatch hfalse)⟩⟩
  rw [hheld]
  decide

end Iommu

end Libvfn
