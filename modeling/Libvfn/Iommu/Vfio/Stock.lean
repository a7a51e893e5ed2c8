import Libvfn.Iommu.Vfio.Ephemeral
import Libvfn.Iommu.Vfio.Twins

/-!
# What goes back to the list of free addresses

When a mapping is removed, its block goes back to the list of free addresses unless it
starts in the range set aside for ephemeral mappings. The stock of a container are the free
addresses and these blocks: they are whole pages and do not overlap, so that the blocks can
be put back in any order, and the list covers the same addresses in the end
(`Stock.putAll`). The calls of a context keep the stock, whatever the kernel answers, if
the blocks with a fixed address are ones that the allocator has passed.
-/

namespace Libvfn

namespace Iommu

open Word Support Util Spans Pool Runs

/-- Whether a block that starts at the address is put into the list of free addresses. -/
def VfioContainer.takesBack (vfio : VfioContainer) (iova : U64) : Bool :=
  !decide (vfio.ephemerals.start ≤ iova ∧ iova ≤ vfio.ephemerals.last)

def VfioContainer.returns (vfio : VfioContainer) (ms : List IovaMapping) : List (Set ℕ) :=
  (ms.filter fun m => vfio.takesBack m.iova).map IovaMapping.block

/-- The free addresses and the blocks of the mappings `ms` that go back to the list. -/
structure Stock (p : ℕ) (vfio : VfioContainer) (ms : List IovaMapping) (ys : List ℕ) : Prop where
  tidy : Tidy vfio.freeIovas ys
  below : ∀ x, vfio.freeIovas.Has ys x → x < vfio.next.toNat
  bounded : Bounded vfio.iovaRanges
  parted : Parted (vfio.pool ys) (vfio.returns ms)
  paged : Paged p {x | vfio.freeIovas.Has ys x}
  dvd : ∀ m ∈ ms, p ∣ m.iova.toNat ∧ p ∣ m.len.toNat
  len_ne_zero : ∀ m ∈ ms, m.len ≠ 0

def Spare (vfio : VfioContainer) (ms : List IovaMapping) (ys : List ℕ) (m : IovaMapping) : Prop :=
  vfio.takesBack m.iova → Parted (vfio.pool ys) (m.block :: vfio.returns ms)

variable {p : ℕ} {vfio vfio' : VfioContainer} {ms ms' : List IovaMapping} {m : IovaMapping}
  {ys ys' : List ℕ} {vaddr len iova align flags : U64}

theorem returns_cons (vfio : VfioContainer) (m : IovaMapping) (ms : List IovaMapping) :
    vfio.returns (m :: ms) =
      if vfio.takesBack m.iova then m.block :: vfio.returns ms else vfio.returns ms := by
  rw [VfioContainer.returns, List.filter_cons]
  split_ifs <;> rfl

theorem returns_congr (h : vfio'.ephemerals = vfio.ephemerals) :
    vfio'.returns ms = vfio.returns ms := by
  rw [VfioContainer.returns, VfioContainer.returns]
  simp only [VfioContainer.takesBack, h]

theorem Stock.ready (h : Stock p vfio ms ys) : Ready vfio ys := ⟨h.tidy.toFree, h.below⟩

theorem Stock.perm (h : Stock p vfio ms ys) (hp : ms.Perm ms') : Stock p vfio ms' ys :=
  { h with
    parted := h.parted.perm ((hp.filter _).map _)
    dvd := fun m hm => h.dvd m (hp.mem_iff.mpr hm)
    len_ne_zero := fun m hm => h.len_ne_zero m (hp.mem_iff.mpr hm) }

theorem Stock.aside (h : Stock p vfio ms ys) (n next : U64) :
    Stock p { vfio with nephemerals := n, nextEphemeral := next } ms ys :=
  ⟨h.tidy, h.below, h.bounded, h.parted, h.paged, h.dvd, h.len_ne_zero⟩

theorem Stock.enter (h : Stock p vfio ms ys) (hm : Spare vfio ms ys m)
    (hdvd : p ∣ m.iova.toNat ∧ p ∣ m.len.toNat) (hlen : m.len ≠ 0) :
    Stock p vfio (m :: ms) ys := by
  refine { h with
    parted := ?_
    dvd := List.forall_mem_cons.mpr ⟨hdvd, h.dvd⟩
    len_ne_zero := List.forall_mem_cons.mpr ⟨hlen, h.len_ne_zero⟩ }
  rw [returns_cons]
  split_ifs with hback
  · exact hm hback
  · exact h.parted

theorem stock_nil (htidy : Tidy vfio.freeIovas []) (hbound : Bounded vfio.iovaRanges) :
    Stock p vfio [] [] where
  tidy := htidy
  below := fun x hx => absurd hx (not_covers_nil _ _ x)
  bounded := hbound
  parted := parted_nil _
  paged := fun x _ _ hx => absurd hx (not_covers_nil _ _ x)
  dvd := by simp
  len_ne_zero := by simp

/-! ## Putting back -/

theorem vfioIovaPut_eq (vfio : VfioContainer) (iova len : U64) :
    vfioIovaPut vfio iova len =
      if vfio.takesBack iova then { vfio with freeIovas := iovaPutFree vfio.freeIovas iova len }
      else vfio := by
  rw [vfioIovaPut, VfioContainer.takesBack]
  by_cases haside : vfio.ephemerals.start ≤ iova ∧ iova ≤ vfio.ephemerals.last
  · rw [if_pos haside, decide_eq_true haside]
    rfl
  · rw [if_neg haside, decide_eq_false haside]
    rfl

/-- A block that is put back is free if it goes back to the list. -/
theorem Stock.put (hp : 0 < p) (h : Stock p vfio (m :: ms) ys) :
    ∃ ys', Stock p (vfioIovaPut vfio m.iova m.len) ms ys' ∧
      ∀ x, (vfioIovaPut vfio m.iova m.len).freeIovas.Has ys' x ↔
        vfio.freeIovas.Has ys x ∨ (vfio.takesBack m.iova ∧ x ∈ m.block) := by
  have hdvd := fun c hc => h.dvd c (List.mem_cons_of_mem m hc)
  have hlen := fun c hc => h.len_ne_zero c (List.mem_cons_of_mem m hc)
  have hparted := h.parted
  rw [returns_cons] at hparted
  rw [vfioIovaPut_eq]
  by_cases hback : vfio.takesBack m.iova
  · rw [if_pos hback] at hparted ⊢
    have hout := (parted_cons.mp hparted).1
    have hpos := BitVec.toNat_pos_of_ne_zero (h.len_ne_zero m List.mem_cons_self)
    have hend := end_le_next hpos hout
    obtain ⟨ys', htidy, hhas⟩ := iovaPutFree_tidy h.tidy hpos (hend.trans_lt vfio.next.isLt)
      (fun x hle hlt hx => Set.disjoint_left.mp hout (.inl hx) ⟨hle, hlt⟩)
    have hset : {x | (iovaPutFree vfio.freeIovas m.iova m.len).Has ys' x} =
        {x | vfio.freeIovas.Has ys x} ∪ m.block := Set.ext hhas
    obtain ⟨hiova, hmlen⟩ := h.dvd m List.mem_cons_self
    refine ⟨ys', ⟨htidy, ?_, h.bounded, hparted.put ?_, ?_, hdvd, hlen⟩, fun x => ?_⟩
    · intro x hx
      rcases (hhas x).mp hx with hx | hx
      · exact h.below x hx
      · exact hx.2.trans_le hend
    · rintro x (hx | hx)
      · exact ((hhas x).mp hx).imp_left .inl
      · exact .inl (.inr hx)
    · rw [hset]
      exact h.paged.union (paged_Ico hp hiova (hiova.add hmlen))
    · rw [hhas]
      exact or_congr_right ⟨fun hx => ⟨hback, hx⟩, fun hx => hx.2⟩
  · rw [if_neg hback] at hparted ⊢
    refine ⟨ys, { h with parted := hparted, dvd := hdvd, len_ne_zero := hlen }, fun x => ?_⟩
    exact (or_iff_left fun hx => hback hx.1).symm

theorem takesBack_vfioIovaPut (vfio : VfioContainer) (iova len a : U64) :
    (vfioIovaPut vfio iova len).takesBack a = vfio.takesBack a := by
  rw [VfioContainer.takesBack, (vfioIovaPut_sameAside vfio iova len).ephemerals]
  rfl

/-- Once all blocks are put back, the list covers what it covered and the blocks that go
back to it, whatever the order. -/
theorem Stock.putAll (hp : 0 < p) (h : Stock p vfio ms ys) :
    ∃ ys', Stock p (vfio.putAll ms) [] ys' ∧
      ∀ x, (vfio.putAll ms).freeIovas.Has ys' x ↔
        vfio.freeIovas.Has ys x ∨ ∃ m ∈ ms, vfio.takesBack m.iova ∧ x ∈ m.block := by
  induction ms generalizing vfio ys with
  | nil => exact ⟨ys, h, fun x => by simp [VfioContainer.putAll]⟩
  | cons m ms ih =>
      obtain ⟨ys₁, h₁, hhas₁⟩ := h.put hp
      obtain ⟨ys', h', hhas⟩ := ih h₁
      refine ⟨ys', h', fun x => (hhas x).trans ?_⟩
      simp only [hhas₁, takesBack_vfioIovaPut, List.exists_mem_cons_iff, or_assoc]

/-! ## Reservations -/

def FreeList.Whole (p : ℕ) (fl : FreeList) : Prop :=
  ∃ ys, Tidy fl ys ∧ Paged p {x | fl.Has ys x}

theorem whole_of_taken {fl fl' : FreeList} (hp : 0 < p) (hpaged : Paged p {x | fl.Has ys x})
    (hiova : p ∣ iova.toNat) (hlen : p ∣ len.toNat)
    (htaken : ∃ ys', Tidy fl' ys' ∧ ∀ x, fl'.Has ys' x ↔
      fl.Has ys x ∧ ¬(iova.toNat ≤ x ∧ x < iova.toNat + len.toNat)) : fl'.Whole p := by
  obtain ⟨ys', htidy, hhas⟩ := htaken
  refine ⟨ys', htidy, ?_⟩
  have hset : {x | fl'.Has ys' x} = {x | fl.Has ys x} \ addresses iova len := Set.ext hhas
  rw [hset]
  exact hpaged.diff (paged_Ico hp hiova (hiova.add hlen))

theorem freeIovas_of_supply {P : FreeList → Prop} (hP : P vfio.freeIovas)
    {got : Option (U64 × FreeList)} {cut : Option (U64 × U64)}
    (hgot : ∀ iova fl, got = some (iova, fl) → P fl)
    (h : vfio.supply got cut = .ok (iova, vfio')) : P vfio'.freeIovas := by
  rcases supply_eq_ok h with ⟨fl, hfree, rfl⟩ | ⟨next, -, rfl⟩
  · exact hgot _ _ hfree
  · exact hP

theorem Stock.of_reserves (h : Stock p vfio ms ys) (hres : Reserves vfio ys iova len vfio')
    (hwhole : vfio'.freeIovas.Whole p) (vaddr flags : U64) :
    ∃ ys', Stock p vfio' ms ys' ∧ Spare vfio' ms ys' ⟨vaddr, len, iova, flags⟩ := by
  obtain ⟨hsub, ys', hready, hpool, -⟩ := hres.pool h.ready
  obtain ⟨ys'', htidy, hpaged⟩ := hwhole
  obtain rfl := htidy.holds.unique hready.free.holds
  have hreturns : vfio'.returns ms = vfio.returns ms := returns_congr hres.sameAside.ephemerals
  refine ⟨_, ⟨htidy, hready.below, hres.iovaRanges ▸ h.bounded, ?_, hpaged, h.dvd,
    h.len_ne_zero⟩, fun _ => ?_⟩
  · rw [hreturns]
    exact h.parted.mono (hpool.trans Set.sdiff_subset)
  · rw [hreturns]
    exact h.parted.take hsub hpool

section Shift

variable {k : ℕ} (hk : k < 64)

include hk

theorem Stock.reserve (h : Stock (2 ^ k) vfio ms ys) (hflags : flags &&& iommuMapEphemeral = 0)
    (hres : vfioIommuType1IovaReserve (BitVec.twoPow 64 k) vfio len flags = .ok (iova, vfio'))
    (vaddr : U64) :
    ∃ ys', Stock (2 ^ k) vfio' ms ys' ∧ Spare vfio' ms ys' ⟨vaddr, len, iova, flags⟩ := by
  refine h.of_reserves (vfioIommuType1IovaReserve_spec h.ready h.bounded hflags hres) ?_ _ _
  rw [vfioIommuType1IovaReserve_eq_supply hflags] at hres
  split_ifs at hres with haligned
  rw [Bool.not_eq_true', Bool.not_eq_false, aligned_twoPow_iff len hk] at haligned
  refine freeIovas_of_supply ⟨ys, h.tidy, h.paged⟩ (fun iova fl hget => ?_) hres
  exact whole_of_taken (Nat.two_pow_pos k) h.paged
    (iovaGetFree_dvd h.tidy (Nat.two_pow_pos k) h.paged hget) haligned
    (iovaGetFree_tidy h.tidy hget)

theorem Stock.reserveAlign (h : Stock (2 ^ k) vfio ms ys)
    (hres : vfioIommuType1IovaReserveAlign (BitVec.twoPow 64 k) vfio len align =
      .ok (iova, vfio')) (vaddr flags : U64) :
    ∃ ys', Stock (2 ^ k) vfio' ms ys' ∧ Spare vfio' ms ys' ⟨vaddr, len, iova, flags⟩ := by
  refine h.of_reserves (vfioIommuType1IovaReserveAlign_spec h.ready h.bounded hres) ?_ _ _
  rw [vfioIommuType1IovaReserveAlign_eq_supply] at hres
  split_ifs at hres with haligned halign
  rw [Bool.not_eq_true', Bool.not_eq_false, aligned_twoPow_iff len hk] at haligned
  rw [not_or, Bool.not_eq_true', Bool.not_eq_false, aligned_twoPow_iff align hk] at halign
  refine freeIovas_of_supply ⟨ys, h.tidy, h.paged⟩ (fun iova fl hget => ?_) hres
  exact whole_of_taken (Nat.two_pow_pos k) h.paged
    (iovaGetFreeAlign_dvd hk halign.1 halign.2 hget) haligned (iovaGetFreeAlign_tidy h.tidy hget)

end Shift

theorem iovaReserve_singleton {r : IovaRange} {next next' : U64}
    (h : iovaReserve [r] next len = some (iova, next')) : r.start ≤ iova ∧ iova ≤ r.last := by
  obtain ⟨r', hr', moved, -, hstart, hplace, hlast, -⟩ := iovaReserveFrom_eq_some h
  obtain rfl := List.mem_singleton.mp hr'
  obtain rfl := Option.some.inj hplace
  exact ⟨hstart, hlast⟩

theorem Stock.reserve_ephemeral (h : Stock p vfio ms ys) {pagesize : U64}
    (hflags : flags &&& iommuMapEphemeral ≠ 0)
    (hres : vfioIommuType1IovaReserve pagesize vfio len flags = .ok (iova, vfio')) (vaddr : U64) :
    Stock p vfio' ms ys ∧ Spare vfio' ms ys ⟨vaddr, len, iova, flags⟩ := by
  obtain ⟨next, hcur, rfl⟩ := iovaReserve_of_ephemeral hflags hres
  refine ⟨h.aside _ _, fun hback => ?_⟩
  have haside := decide_eq_true (iovaReserve_singleton hcur)
  rw [VfioContainer.takesBack, haside] at hback
  cases hback

/-! ## Calls -/

section Calls

variable {κ : Type*} {kernel : KernelOps κ} {k : ℕ} {hasUnmapAll : Bool}
  {ctx ctx' : IommuCtx (KernelVfio κ)} {xs : List ℕ}

structure Stocked (p : ℕ) (ctx : IommuCtx (KernelVfio κ)) : Prop where
  mapped : ∃ xs, Mapped ctx.map xs
  stock : ∃ ys, Stock p ctx.backend.vfio ctx.map.held ys

theorem dvd_of_aligned_or {a b c : U64} (hk : k < 64)
    (h : aligned (a ||| b ||| c) (BitVec.twoPow 64 k) = true) :
    2 ^ k ∣ b.toNat ∧ 2 ^ k ∣ c.toNat := by
  rw [aligned, decide_eq_true_iff, BitVec.and_comm, BitVec.and_or_distrib_left,
    BitVec.and_or_distrib_left] at h
  obtain ⟨hab, hc⟩ := BitVec.or_eq_zero_iff.mp h
  obtain ⟨-, hb⟩ := BitVec.or_eq_zero_iff.mp hab
  rw [← and_mask_eq_zero_iff b hk, ← and_mask_eq_zero_iff c hk, BitVec.and_comm,
    BitVec.and_comm c]
  exact ⟨hb, hc⟩

/-- Mapping at a block that can be put back later keeps the stock. -/
theorem Stock.mapAt (hk : k < 64) (h : Mapped ctx.map xs) (hfree : Unmapped ctx.map vaddr len)
    (hstock : Stock (2 ^ k) ctx.backend.vfio ctx.map.held ys)
    (hspare : Spare ctx.backend.vfio ctx.map.held ys ⟨vaddr, len, iova, flags⟩) :
    Stocked (2 ^ k) (iommuMapAt (kernelVfioOps kernel (BitVec.twoPow 64 k) hasUnmapAll) ctx vaddr
      len iova flags).2 := by
  have hvfio := vfioIommuType1DoDmaMap_vfio kernel (BitVec.twoPow 64 k) ctx.backend vaddr len iova
    flags
  rw [iommuMapAt]
  dsimp only [kernelVfioOps]
  rcases hmap : vfioIommuType1DoDmaMap kernel (BitVec.twoPow 64 k) ctx.backend vaddr len iova flags
    with ⟨e | iova', backend⟩
  · rw [hmap] at hvfio
    exact ⟨⟨xs, h⟩, ys, hvfio ▸ hstock⟩
  · rw [hmap] at hvfio
    obtain ⟨rfl, haligned⟩ := vfioIommuType1DoDmaMap_ok hmap
    obtain ⟨hlen, hiova⟩ := dvd_of_aligned_or hk haligned
    dsimp only at hvfio ⊢
    rw [h.add_eq hfree]
    by_cases hzero : len = 0
    · rw [if_pos hzero]
      exact ⟨⟨xs, h⟩, ys, hvfio ▸ hstock⟩
    · rw [if_neg hzero]
      obtain ⟨xs', h', hperm⟩ := h.link (m := ⟨vaddr, len, iova', flags⟩) hzero hfree
      refine ⟨⟨xs', h'⟩, ys, ?_⟩
      dsimp only
      rw [hvfio]
      exact (hstock.enter hspare ⟨hiova, hlen⟩ hzero).perm hperm.symm

theorem Stock.mapReserved (hk : k < 64) (h : Mapped ctx.map xs)
    (hfree : Unmapped ctx.map vaddr len)
    (hstock : Stock (2 ^ k) ctx.backend.vfio ctx.map.held ys)
    {res : Except Errno (U64 × VfioContainer)}
    (hres : ∀ iova vfio, res = .ok (iova, vfio) → ∃ ys', Stock (2 ^ k) vfio ctx.map.held ys' ∧
      Spare vfio ctx.map.held ys' ⟨vaddr, len, iova, flags⟩) :
    Stocked (2 ^ k) (iommuMapReserved (kernelVfioOps kernel (BitVec.twoPow 64 k) hasUnmapAll) ctx
      vaddr len flags (ctx.backend.reserved res)).2 := by
  obtain e | ⟨iova, vfio⟩ := res
  · exact ⟨⟨xs, h⟩, ys, hstock⟩
  · obtain ⟨ys', hstock', hspare⟩ := hres iova vfio rfl
    change Stocked (2 ^ k) (iommuMapAt _ { ctx with backend := { ctx.backend with vfio := vfio } }
      vaddr len iova flags).2
    exact Stock.mapAt hk h hfree hstock' hspare

/-- A fixed block that goes back to the list is one that the cursor has passed and that is
neither free nor in use. -/
def Settled (ctx : IommuCtx (KernelVfio κ)) : DmaOp → Prop
  | .map _ len iova flags =>
      flags &&& iommuMapFixedIova ≠ 0 → ctx.backend.vfio.takesBack iova →
        iova.toNat + len.toNat ≤ ctx.backend.vfio.next.toNat ∧
          (∀ r ∈ ctx.backend.vfio.freeIovas.ranges, Disjoint (addresses iova len) r.addresses) ∧
          ∀ m ∈ ctx.map.held, ctx.backend.vfio.takesBack m.iova →
            Disjoint (addresses iova len) m.block
  | _ => True

theorem Stock.spare_fixed (hstock : Stock p ctx.backend.vfio ctx.map.held ys)
    (hsettled : Settled ctx (.map vaddr len iova flags))
    (hfixed : flags &&& iommuMapFixedIova ≠ 0) :
    Spare ctx.backend.vfio ctx.map.held ys ⟨vaddr, len, iova, flags⟩ := by
  intro hback
  obtain ⟨hend, hfree, hheld⟩ := hsettled hfixed hback
  refine parted_cons.mpr ⟨Set.disjoint_right.mpr fun x hblock hx => ?_, fun b hb => ?_,
    hstock.parted⟩
  · rcases hx with hx | hx
    · obtain ⟨r, hr, hin⟩ := hstock.tidy.toFree.exists_range hx
      exact Set.disjoint_left.mp (hfree r hr) hblock hin
    · exact (hblock.2.trans_le hend).not_ge hx
  · obtain ⟨m, hm, rfl⟩ := List.mem_map.mp hb
    obtain ⟨hm, hmback⟩ := List.mem_filter.mp hm
    exact hheld m hm hmback

theorem Stocked.mapVaddr (hk : k < 64) (h : Stocked (2 ^ k) ctx)
    (hclear : Clear ctx.map vaddr len) (hsettled : Settled ctx (.map vaddr len iova flags)) :
    Stocked (2 ^ k) (iommuMapVaddr (kernelVfioOps kernel (BitVec.twoPow 64 k) hasUnmapAll) ctx
      vaddr len iova flags).2 := by
  obtain ⟨⟨xs, hmapped⟩, ys, hstock⟩ := h
  have hmaps := iommuMapVaddr_maps (kernelVfioOps kernel (BitVec.twoPow 64 k) hasUnmapAll) ctx
    vaddr len iova flags
  generalize iommuMapVaddr _ ctx vaddr len iova flags = r at hmaps ⊢
  cases hmaps with
  | found => exact ⟨⟨xs, hmapped⟩, ys, hstock⟩
  | fixed hmiss hfixed =>
      exact hstock.mapAt hk hmapped (hclear.unmapped hmapped hmiss)
        (hstock.spare_fixed hsettled hfixed)
  | chosen _ _ hnone => exact absurd hnone (Option.some_ne_none _)
  | reserved hmiss _ res hres =>
      obtain rfl := Option.some.inj hres
      refine hstock.mapReserved hk hmapped (hclear.unmapped hmapped hmiss) fun iova' vfio hres => ?_
      by_cases heph : flags &&& iommuMapEphemeral = 0
      · exact hstock.reserve hk heph hres vaddr
      · exact ⟨ys, hstock.reserve_ephemeral heph hres vaddr⟩

theorem Stocked.mapVaddrAlign (hk : k < 64) (h : Stocked (2 ^ k) ctx)
    (hclear : Clear ctx.map vaddr len) :
    Stocked (2 ^ k) (iommuMapVaddrAlign (kernelVfioOps kernel (BitVec.twoPow 64 k) hasUnmapAll)
      ctx vaddr len align flags).2 := by
  obtain ⟨⟨xs, hmapped⟩, ys, hstock⟩ := h
  have hmaps := iommuMapVaddrAlign_maps (kernelVfioOps kernel (BitVec.twoPow 64 k) hasUnmapAll)
    ctx vaddr len align flags
  generalize iommuMapVaddrAlign _ ctx vaddr len align flags = r at hmaps ⊢
  cases hmaps with
  | refused => exact ⟨⟨xs, hmapped⟩, ys, hstock⟩
  | found => exact ⟨⟨xs, hmapped⟩, ys, hstock⟩
  | unsupported hnone => exact absurd hnone (Option.some_ne_none _)
  | reserved hmiss _ res hres =>
      obtain rfl := Option.some.inj hres
      exact hstock.mapReserved hk hmapped (hclear.unmapped hmapped hmiss)
        fun iova' vfio hres => hstock.reserveAlign hk hres vaddr flags

theorem Stock.remove (hp : 0 < p) (h : Stock p vfio (m :: ms) ys) :
    ∃ ys', Stock p (vfio.remove m) ms ys' := by
  obtain ⟨ys', h', -⟩ := h.put hp
  refine ⟨ys', ?_⟩
  rw [VfioContainer.remove]
  split_ifs
  · rw [vfioIommuType1IovaPutEphemeral]
    dsimp only
    split_ifs <;> exact h'.aside _ _
  · exact h'

theorem Stocked.unmapVaddr {pagesize : U64} (hp : 0 < p) (h : Stocked p ctx)
    {res : Except Errno U64 × IommuCtx (KernelVfio κ)} (hmapped : Mapped ctx.map xs)
    (hunmaps : Unmaps (kernelVfioOps kernel pagesize hasUnmapAll) ctx xs vaddr res) :
    Stocked p res.2 := by
  refine ⟨hunmaps.mapped hmapped, ?_⟩
  obtain ⟨ys, hstock⟩ := h.stock
  cases hunmaps with
  | missing => exact ⟨ys, hstock⟩
  | refused i e backend hi hin hunmap =>
      exact ⟨ys, (vfioIommuType1DoDmaUnmap_error hunmap).symm ▸ hstock⟩
  | removed l r i backend hxs hin hunmap =>
      subst hxs
      obtain ⟨ys', hstock'⟩ := (hstock.perm hmapped.remove.2).remove hp
      refine ⟨ys', ?_⟩
      dsimp only
      rw [putEphemeral_vfio _ _ (vfioIommuType1DoDmaUnmap_ok hunmap)]
      exact hstock'

theorem Tidy.clear {fl : FreeList} (h : Tidy fl ys) :
    Tidy { fl with list := (skiplistClearWith fl.list).1 } [] :=
  ⟨⟨h.holds.clear_spec.1, by simp, apart_nil _ _, by simp⟩, .nil⟩

theorem Stocked.unmapAll {pagesize : U64} (hp : 0 < p) (h : Stocked p ctx)
    {res : Except Errno Unit × IommuCtx (KernelVfio κ)}
    (hunmaps : UnmapsAll (kernelVfioOps kernel pagesize hasUnmapAll) ctx res) :
    Stocked p res.2 := by
  obtain ⟨⟨xs, hmapped⟩, ys, hstock⟩ := h
  refine ⟨hunmaps.mapped hmapped, ?_⟩
  rcases hunmaps.vfio_eq hmapped with ⟨-, hmap, hvfio⟩ | ⟨-, hheld, hvfio⟩
  · rw [hmap, hvfio]
    exact ⟨ys, hstock⟩
  · rw [hheld, hvfio]
    split_ifs
    · exact ⟨[], stock_nil hstock.tidy.clear hstock.bounded⟩
    · obtain ⟨ys', hstock', -⟩ := hstock.putAll hp
      exact ⟨ys', hstock'⟩

/-- Every call keeps the stock, if its block is clear and settled. -/
theorem stocked_step (hk : k < 64) (call : DmaOp) (h : Stocked (2 ^ k) ctx)
    (hcall : call.Clear ctx ∧ Settled ctx call)
    (hstep : dmaStep (kernelVfioOps kernel (BitVec.twoPow 64 k) hasUnmapAll) ctx call =
      some ctx') : Stocked (2 ^ k) ctx' := by
  have hp := Nat.two_pow_pos k
  cases call with
  | map vaddr len iova flags =>
      obtain rfl := Option.some.inj hstep
      exact h.mapVaddr hk hcall.1 hcall.2
  | mapAlign vaddr len align flags =>
      obtain rfl := Option.some.inj hstep
      exact h.mapVaddrAlign hk hcall.1
  | unmap vaddr =>
      obtain rfl := Option.some.inj hstep
      obtain ⟨xs, hmapped⟩ := h.mapped
      exact h.unmapVaddr hp hmapped (iommuUnmapVaddr_spec hmapped)
  | unmapAll =>
      obtain ⟨res, hres, rfl⟩ := Option.map_eq_some_iff.mp hstep
      exact h.unmapAll hp (iommuUnmapAll_spec hres)

end Calls

end Iommu

end Libvfn
