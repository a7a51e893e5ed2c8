import Libvfn.Iommu.Intervals
import Libvfn.Iommu.Vfio.Allocator
import Libvfn.Iommu.Vfio.Backend

/-!
# Fixed and allocated addresses

A mapping at an address of the caller's choice does not go through the allocator,
but when it is removed its addresses are given to the allocator all the same. The
allocator's account of the mappings (`Account`) says that none of them meets what a
reservation may return; it is kept by every call if the fixed addresses are ones
that the allocator has passed and that are neither free nor set aside. Otherwise a
reservation may return a block that is in use.
-/

namespace Libvfn

namespace Iommu

open Word Support Util Spans Pool

def IovaRange.addresses (r : IovaRange) : Set ℕ := Set.Icc r.start.toNat r.last.toNat

def IovaMapping.block (m : IovaMapping) : Set ℕ := addresses m.iova m.len

def IovaMapping.ephemeral (m : IovaMapping) : Bool := m.flags &&& iommuMapEphemeral ≠ 0

/-- All addresses that a reservation may return. -/
def VfioContainer.offer (vfio : VfioContainer) (ys : List ℕ) : Set ℕ :=
  vfio.pool ys ∪ (vfio.ephemerals.addresses ∩ Set.Ici vfio.nextEphemeral.toNat)

/-- An ephemeral mapping lies in the range set aside, another one outside. -/
def InPlace (vfio : VfioContainer) (m : IovaMapping) : Prop :=
  if m.ephemeral then m.block ⊆ vfio.ephemerals.addresses
  else Disjoint vfio.ephemerals.addresses m.block

/-- The allocator's account of the mappings `ms`: they meet neither each other nor what
may be reserved, and the ephemeral ones are counted. -/
structure Account (vfio : VfioContainer) (ms : List IovaMapping) (ys : List ℕ) : Prop where
  ready : Ready vfio ys
  bounded : Bounded vfio.iovaRanges
  start_le_last : vfio.ephemerals.start.toNat ≤ vfio.ephemerals.last.toNat
  apart : Disjoint vfio.ephemerals.addresses (vfio.pool ys)
  parted : Parted (vfio.offer ys) (ms.map IovaMapping.block)
  inPlace : ∀ m ∈ ms, InPlace vfio m
  count : ms.countP IovaMapping.ephemeral ≤ vfio.nephemerals.toNat
  room : vfio.nephemerals.toNat ≤ vfio.nextEphemeral.toNat - vfio.ephemerals.start.toNat

structure Expected (vfio : VfioContainer) (ms : List IovaMapping) (ys : List ℕ)
    (m : IovaMapping) : Prop where
  outside : Disjoint (vfio.offer ys) m.block
  inPlace : InPlace vfio m
  counted : m.ephemeral → ms.countP IovaMapping.ephemeral < vfio.nephemerals.toNat

variable {vfio vfio' : VfioContainer} {ms ms' : List IovaMapping} {m : IovaMapping}
  {ys : List ℕ} {pagesize len flags iova vaddr : U64}

theorem Account.perm (h : Account vfio ms ys) (hp : ms.Perm ms') : Account vfio ms' ys :=
  { h with
    parted := h.parted.perm (hp.map _)
    inPlace := fun m hm => h.inPlace m (hp.mem_iff.mpr hm)
    count := hp.countP_eq _ ▸ h.count }

theorem Account.enter (h : Account vfio ms ys) (hm : Expected vfio ms ys m)
    (hlive : ∀ c ∈ ms, Disjoint m.block c.block) : Account vfio (m :: ms) ys := by
  refine { h with parted := ?_, inPlace := ?_, count := ?_ }
  · refine parted_cons.mpr ⟨hm.outside, fun b hb => ?_, h.parted⟩
    obtain ⟨c, hc, rfl⟩ := List.mem_map.mp hb
    exact hlive c hc
  · exact List.forall_mem_cons.mpr ⟨hm.inPlace, h.inPlace⟩
  · rw [List.countP_cons]
    by_cases heph : m.ephemeral
    · rw [if_pos heph]
      exact hm.counted heph
    · rw [if_neg heph]
      exact h.count

theorem Account.last_lt_next (h : Account vfio ms ys) :
    vfio.ephemerals.last.toNat < vfio.next.toNat := by
  have hmem : vfio.ephemerals.last.toNat ∈ vfio.ephemerals.addresses := ⟨h.start_le_last, le_rfl⟩
  by_contra hge
  exact Set.disjoint_left.mp h.apart hmem (.inr (not_lt.mp hge))

/-- The containers agree on the usable ranges and on everything about ephemeral
mappings. -/
structure SameAside (vfio vfio' : VfioContainer) : Prop where
  iovaRanges : vfio'.iovaRanges = vfio.iovaRanges
  ephemerals : vfio'.ephemerals = vfio.ephemerals
  nextEphemeral : vfio'.nextEphemeral = vfio.nextEphemeral
  nephemerals : vfio'.nephemerals = vfio.nephemerals

theorem SameAside.offer_eq (h : SameAside vfio vfio') (ys : List ℕ) :
    vfio'.offer ys =
      vfio'.pool ys ∪ (vfio.ephemerals.addresses ∩ Set.Ici vfio.nextEphemeral.toNat) := by
  rw [VfioContainer.offer, h.ephemerals, h.nextEphemeral]

theorem SameAside.inPlace_iff (h : SameAside vfio vfio') : InPlace vfio' m ↔ InPlace vfio m := by
  rw [InPlace, InPlace, h.ephemerals]

theorem Account.change {ys' : List ℕ} (h : Account vfio ms ys) (hsame : SameAside vfio vfio')
    (hms : ms'.Sublist ms) (hready : Ready vfio' ys')
    (hapart : Disjoint vfio.ephemerals.addresses (vfio'.pool ys'))
    (hparted : Parted (vfio'.offer ys') (ms'.map IovaMapping.block)) : Account vfio' ms' ys' where
  ready := hready
  bounded := hsame.iovaRanges ▸ h.bounded
  start_le_last := hsame.ephemerals ▸ h.start_le_last
  apart := hsame.ephemerals ▸ hapart
  parted := hparted
  inPlace := fun m hm => hsame.inPlace_iff.mpr (h.inPlace m (hms.subset hm))
  count := hsame.nephemerals ▸ hms.countP_le.trans h.count
  room := by
    rw [hsame.nephemerals, hsame.nextEphemeral, hsame.ephemerals]
    exact h.room

/-! ## Reservations -/

theorem Reserves.sameAside {ys : List ℕ} (h : Reserves vfio ys iova len vfio') :
    SameAside vfio vfio' := by
  cases h <;> exact ⟨rfl, rfl, rfl, rfl⟩

theorem ephemeral_eq_false (hflags : m.flags &&& iommuMapEphemeral = 0) : m.ephemeral = false :=
  decide_eq_false (not_not.mpr hflags)

/-- An ordinary reservation takes a block out of the pool and leaves the ephemeral
mappings alone. -/
theorem Account.reserve (h : Account vfio ms ys) (hflags : flags &&& iommuMapEphemeral = 0)
    (hres : vfioIommuType1IovaReserve pagesize vfio len flags = .ok (iova, vfio')) (vaddr : U64) :
    ∃ ys', Account vfio' ms ys' ∧ Expected vfio' ms ys' ⟨vaddr, len, iova, flags⟩ := by
  have hreserves := vfioIommuType1IovaReserve_spec h.ready h.bounded hflags hres
  obtain ⟨hsub, ys', hready, hpool, -⟩ := hreserves.pool h.ready
  have hsame := hreserves.sameAside
  have hordinary : IovaMapping.ephemeral ⟨vaddr, len, iova, flags⟩ = false :=
    ephemeral_eq_false hflags
  have hplace : Disjoint vfio.ephemerals.addresses (addresses iova len) := h.apart.mono_right hsub
  have hoffer : vfio'.offer ys' ⊆ vfio.offer ys \ addresses iova len := by
    rw [hsame.offer_eq]
    rintro x (hx | hx)
    · exact ⟨.inl (hpool hx).1, (hpool hx).2⟩
    · exact ⟨.inr hx, Set.disjoint_left.mp hplace hx.1⟩
  refine ⟨ys', h.change hsame (.refl ms) hready ?_ ?_, ⟨?_, ?_, ?_⟩⟩
  · exact h.apart.mono_right (hpool.trans Set.sdiff_subset)
  · exact h.parted.mono (hoffer.trans Set.sdiff_subset)
  · exact Set.disjoint_sdiff_left.mono_left hoffer
  · rw [hsame.inPlace_iff, InPlace, hordinary]
    exact hplace
  · rw [hordinary]
    exact fun hfalse => absurd hfalse (by simp)

theorem Account.bounded_ephemerals (h : Account vfio ms ys) : Bounded [vfio.ephemerals] := by
  intro r hr
  rw [List.mem_singleton] at hr
  rw [hr]
  have hlt := h.last_lt_next
  have hnext := vfio.next.isLt
  omega

theorem iovaReserve_of_ephemeral (hflags : flags &&& iommuMapEphemeral ≠ 0)
    (hres : vfioIommuType1IovaReserve pagesize vfio len flags = .ok (iova, vfio')) :
    ∃ next, iovaReserve [vfio.ephemerals] vfio.nextEphemeral len = some (iova, next) ∧
      vfio' = { vfio with nextEphemeral := next, nephemerals := vfio.nephemerals + 1 } := by
  rw [vfioIommuType1IovaReserve, if_pos hflags] at hres
  split_ifs at hres
  cases hcur : iovaReserve [vfio.ephemerals] vfio.nextEphemeral len with
  | none =>
      rw [hcur] at hres
      cases hres
  | some cut =>
      rw [hcur] at hres
      obtain ⟨rfl, rfl⟩ := Prod.mk.inj (Except.ok.inj hres)
      exact ⟨cut.2, rfl, rfl⟩

theorem vfioIommuType1IovaReserve_ephemeral (hbound : Bounded [vfio.ephemerals])
    (hflags : flags &&& iommuMapEphemeral ≠ 0)
    (hres : vfioIommuType1IovaReserve pagesize vfio len flags = .ok (iova, vfio')) :
    ∃ next, Advances [vfio.ephemerals] vfio.nextEphemeral len iova next ∧
      vfio' = { vfio with nextEphemeral := next, nephemerals := vfio.nephemerals + 1 } := by
  obtain ⟨next, hcur, rfl⟩ := iovaReserve_of_ephemeral hflags hres
  exact ⟨next, iovaReserve_spec hbound hcur, rfl⟩

/-- A reservation for an ephemeral mapping moves the cursor of the range set aside. -/
theorem Account.reserve_ephemeral (h : Account vfio ms ys)
    (hflags : flags &&& iommuMapEphemeral ≠ 0) (hlen : len ≠ 0)
    (hres : vfioIommuType1IovaReserve pagesize vfio len flags = .ok (iova, vfio')) (vaddr : U64) :
    Account vfio' ms ys ∧ Expected vfio' ms ys ⟨vaddr, len, iova, flags⟩ := by
  obtain ⟨next, hadv, rfl⟩ :=
    vfioIommuType1IovaReserve_ephemeral h.bounded_ephemerals hflags hres
  obtain ⟨hcur, hnext, r, hr, hstart, hlast⟩ := hadv
  rw [List.mem_singleton] at hr
  subst hr
  have hpos := BitVec.toNat_pos_of_ne_zero hlen
  have hroom := h.room
  have hone : (1 : U64).toNat = 1 := rfl
  have hcount : (vfio.nephemerals + 1).toNat = vfio.nephemerals.toNat + 1 := by
    exact BitVec.toNat_add_of_lt (by have := next.isLt; omega)
  have hinside : addresses iova len ⊆ vfio.ephemerals.addresses := fun x hx =>
    ⟨hstart.trans hx.1, Nat.le_of_lt_succ (hx.2.trans_le hlast)⟩
  have hephemeral : IovaMapping.ephemeral ⟨vaddr, len, iova, flags⟩ = true :=
    decide_eq_true hflags
  refine ⟨⟨⟨h.ready.free, h.ready.below⟩, h.bounded, h.start_le_last, h.apart, ?_, h.inPlace,
    ?_, ?_⟩, ⟨?_, ?_, ?_⟩⟩
  · refine h.parted.mono (Set.union_subset_union_right _ fun x hx => ⟨hx.1, ?_⟩)
    exact hcur.trans (le_trans (by rw [hnext]; omega) hx.2)
  · rw [hcount]
    exact Nat.le_succ_of_le h.count
  · rw [hcount]
    dsimp only
    omega
  · refine Set.disjoint_left.mpr fun x hx hblock => ?_
    rcases hx with hx | hx
    · exact Set.disjoint_left.mp h.apart (hinside hblock) hx
    · exact hblock.2.not_ge (hnext ▸ hx.2)
  · rw [InPlace, hephemeral]
    exact hinside
  · intro _
    rw [hcount]
    exact Nat.lt_succ_of_le h.count

/-! ## Fixed addresses -/

def Passed (vfio : VfioContainer) (iova len : U64) : Prop :=
  iova.toNat + len.toNat ≤ vfio.next.toNat ∧
    (∀ r ∈ vfio.freeIovas.ranges, Disjoint (addresses iova len) r.addresses) ∧
    Disjoint (addresses iova len) vfio.ephemerals.addresses

theorem Free.exists_range (h : Free vfio.freeIovas ys) {x : ℕ} (hx : vfio.freeIovas.Has ys x) :
    ∃ r ∈ vfio.freeIovas.ranges, x ∈ r.addresses := by
  obtain ⟨i, hi, hin⟩ := hx
  refine ⟨vfio.freeIovas.range (.entry i), ?_, hin⟩
  rw [h.ranges_eq]
  exact List.mem_map_of_mem hi

theorem Account.expected_fixed (h : Account vfio ms ys) (hpassed : Passed vfio iova len)
    (hflags : flags &&& iommuMapEphemeral = 0) (vaddr : U64) :
    Expected vfio ms ys ⟨vaddr, len, iova, flags⟩ := by
  obtain ⟨hbelow, hfree, haside⟩ := hpassed
  have hordinary : IovaMapping.ephemeral ⟨vaddr, len, iova, flags⟩ = false :=
    ephemeral_eq_false hflags
  refine ⟨Set.disjoint_right.mpr fun x hblock hx => ?_, ?_, ?_⟩
  · rcases hx with (hx | hx) | hx
    · obtain ⟨r, hr, hin⟩ := h.ready.free.exists_range hx
      exact Set.disjoint_left.mp (hfree r hr) hblock hin
    · exact (hblock.2.trans_le hbelow).not_ge hx
    · exact Set.disjoint_left.mp haside hblock hx.1
  · rw [InPlace, hordinary]
    exact haside.symm
  · rw [hordinary]
    exact fun hfalse => absurd hfalse (by simp)

/-! ## Giving back -/

theorem vfioIovaPut_sameAside (vfio : VfioContainer) (iova len : U64) :
    SameAside vfio (vfioIovaPut vfio iova len) := by
  rw [vfioIovaPut]
  split_ifs <;> exact ⟨rfl, rfl, rfl, rfl⟩

theorem pool_subset_offer (vfio : VfioContainer) (ys : List ℕ) : vfio.pool ys ⊆ vfio.offer ys :=
  Set.subset_union_left

/-- An ordinary mapping that is removed goes to the free list. -/
theorem Account.remove (h : Account vfio (m :: ms) ys) (hlen : m.len ≠ 0)
    (hordinary : m.ephemeral = false) : ∃ ys', Account (vfioIovaPut vfio m.iova m.len) ms ys' := by
  have hout : Disjoint (vfio.offer ys) m.block := (parted_cons.mp h.parted).1
  have hplace : Disjoint vfio.ephemerals.addresses m.block := by
    have hin := h.inPlace m List.mem_cons_self
    rwa [InPlace, hordinary] at hin
  obtain ⟨ys', hready, hpool, -⟩ := vfioIovaPut_spec h.ready (BitVec.toNat_pos_of_ne_zero hlen)
    (hout.mono_left (pool_subset_offer vfio ys))
  have hsame := vfioIovaPut_sameAside vfio m.iova m.len
  refine ⟨ys', h.change hsame (List.sublist_cons_self m ms) hready ?_ (h.parted.put ?_)⟩
  · exact (Set.disjoint_union_right.mpr ⟨h.apart, hplace⟩).mono_right hpool
  · rw [hsame.offer_eq]
    rintro x (hx | hx)
    · exact (hpool hx).imp_left .inl
    · exact .inl (.inr hx)

/-- The range of ephemeral mappings is recycled when none is left. -/
theorem Account.remove_ephemeral (h : Account vfio (m :: ms) ys) (hlen : m.len ≠ 0)
    (heph : m.ephemeral = true) :
    Account (vfioIommuType1IovaPutEphemeral (vfioIovaPut vfio m.iova m.len)) ms ys := by
  have hplace : m.block ⊆ vfio.ephemerals.addresses := by
    have hin := h.inPlace m List.mem_cons_self
    rwa [InPlace, heph] at hin
  have hput : vfioIovaPut vfio m.iova m.len = vfio := by
    rw [vfioIovaPut, if_pos]
    exact hplace (start_mem_addresses hlen)
  have hcount := h.count
  rw [List.countP_cons_of_pos heph] at hcount
  have hone : (1 : U64).toNat = 1 := rfl
  have hneph : (vfio.nephemerals - 1).toNat = vfio.nephemerals.toNat - 1 :=
    BitVec.toNat_sub_of_le (by rw [BitVec.le_def, hone]; omega)
  have hroom := h.room
  obtain ⟨-, -, hparted⟩ := parted_cons.mp h.parted
  have htail : ∀ c ∈ ms, InPlace vfio c := fun c hc => h.inPlace c (List.mem_cons_of_mem m hc)
  rw [hput, vfioIommuType1IovaPutEphemeral]
  dsimp only
  by_cases hlast : vfio.nephemerals - 1 = 0
  · -- the other mappings are ordinary ones, which lie outside the range
    rw [if_pos hlast]
    rw [hlast] at hneph
    have hnone : ms.countP IovaMapping.ephemeral = 0 := by
      rw [show (0 : U64).toNat = 0 from rfl] at hneph
      omega
    refine ⟨⟨h.ready.free, h.ready.below⟩, h.bounded, h.start_le_last, h.apart, ?_, htail, ?_, ?_⟩
    · refine List.pairwise_cons.mpr ⟨fun b hb => ?_, (List.pairwise_cons.mp hparted).2⟩
      obtain ⟨c, hc, rfl⟩ := List.mem_map.mp hb
      have hordinary : c.ephemeral = false := by
        rw [← Bool.not_eq_true]
        exact List.countP_eq_zero.mp hnone c hc
      have hc' := htail c hc
      rw [InPlace, hordinary] at hc'
      refine Set.disjoint_union_left.mpr ⟨?_, hc'.mono_left Set.inter_subset_left⟩
      exact (hparted.disjoint hb).mono_left (pool_subset_offer vfio ys)
    · rw [hlast, hnone]
      exact Nat.zero_le _
    · rw [hlast]
      exact Nat.zero_le _
  · rw [if_neg hlast]
    refine ⟨⟨h.ready.free, h.ready.below⟩, h.bounded, h.start_le_last, h.apart, hparted, htail,
      ?_, ?_⟩
    · rw [hneph]
      omega
    · rw [hneph]
      dsimp only
      omega

/-! ## Calls -/

/-- What holds between the calls: the map is well formed, the allocator accounts for
its mappings, and they are live in the kernel. -/
structure VfioInv (ctx : IommuCtx VfioState) (xs ys : List ℕ) : Prop where
  mapped : Mapped ctx.map xs
  account : Account ctx.backend.vfio ctx.map.held ys
  live : ∀ m ∈ ctx.map.held, ∃ d ∈ ctx.backend.kernel, d.iova = m.iova ∧ d.size = m.len

variable {ctx : IommuCtx VfioState} {xs : List ℕ}

theorem DmaMap.disjoint_of_not_overlaps {a b : DmaMap} (h : a.overlaps b = false) :
    Disjoint (addresses a.iova a.size) (addresses b.iova b.size) := by
  rw [DmaMap.overlaps, decide_eq_false_iff_not, not_lt] at h
  refine Set.disjoint_left.mpr fun x ha hb => ?_
  exact (lt_min ha.2 hb.2).not_ge (h.trans (max_le ha.1 hb.1))

theorem Mapped.len_ne_zero {map : IovaMap} (h : Mapped map xs) {m : IovaMapping}
    (hm : m ∈ map.held) : m.len ≠ 0 := by
  rw [h.held_eq] at hm
  obtain ⟨i, hi, rfl⟩ := List.mem_map.mp hm
  intro hzero
  have hne := h.apart.nonempty i hi
  rw [IovaMap.lo, IovaMap.hi, hzero] at hne
  exact absurd hne (lt_irrefl _)

theorem vfioIommuType1DoDmaMap_cases (pagesize : U64) (s : VfioState) (vaddr len iova flags : U64) :
    (∃ e, vfioIommuType1DoDmaMap liveKernel pagesize s vaddr len iova flags = (.error e, s)) ∨
      ∃ d : DmaMap, d.iova = iova ∧ d.size = len ∧ (∀ c ∈ s.kernel, d.overlaps c = false) ∧
        vfioIommuType1DoDmaMap liveKernel pagesize s vaddr len iova flags =
          (.ok iova, { s with kernel := d :: s.kernel }) := by
  rw [vfioIommuType1DoDmaMap, liveKernel]
  dsimp only
  split_ifs with haligned hlive
  · exact .inl ⟨_, rfl⟩
  · exact .inl ⟨_, rfl⟩
  · rw [Bool.not_eq_true, List.any_eq_false] at hlive
    exact .inr ⟨_, rfl, rfl, fun c hc => Bool.not_eq_true _ ▸ hlive c hc, rfl⟩

/-- Mapping at a block that the allocator expects keeps the invariant, accepted or
not. -/
theorem VfioInv.mapAt (h : VfioInv ctx xs ys) (hfree : Unmapped ctx.map vaddr len)
    (hexp : Expected ctx.backend.vfio ctx.map.held ys ⟨vaddr, len, iova, flags⟩) :
    ∃ xs', VfioInv (iommuMapAt (vfioOps pagesize) ctx vaddr len iova flags).2 xs' ys := by
  have hops : (vfioOps pagesize).dmaMap = vfioIommuType1DoDmaMap liveKernel pagesize := rfl
  rcases vfioIommuType1DoDmaMap_cases pagesize ctx.backend vaddr len iova flags with
    ⟨e, hmap⟩ | ⟨d, hiova, hsize, hlive, hmap⟩
  · rw [iommuMapAt, hops, hmap]
    exact ⟨xs, h⟩
  rw [iommuMapAt, hops, hmap]
  dsimp only
  rw [h.mapped.add_eq hfree]
  by_cases hlen : len = 0
  · rw [if_pos hlen]
    refine ⟨xs, h.mapped, h.account, fun m hm => ?_⟩
    obtain ⟨c, hc, hblock⟩ := h.live m hm
    exact ⟨c, List.mem_cons_of_mem d hc, hblock⟩
  · rw [if_neg hlen]
    obtain ⟨xs', hmapped, hperm⟩ := h.mapped.link (m := ⟨vaddr, len, iova, flags⟩) hlen hfree
    refine ⟨xs', hmapped, Account.perm (h.account.enter hexp fun m hm => ?_) hperm.symm,
      fun m hm => ?_⟩
    · obtain ⟨c, hc, hciova, hcsize⟩ := h.live m hm
      have hdisj := DmaMap.disjoint_of_not_overlaps (hlive c hc)
      rwa [hiova, hsize, hciova, hcsize] at hdisj
    · rcases List.mem_cons.mp (hperm.mem_iff.mp hm) with rfl | hm
      · exact ⟨d, List.mem_cons_self, hiova, hsize⟩
      · obtain ⟨c, hc, hblock⟩ := h.live m hm
        exact ⟨c, List.mem_cons_of_mem d hc, hblock⟩

/-- What a call that maps has to meet: the virtual addresses are mapped already, or
none of them is; and then a fixed block is one that the allocator has passed, and an
ephemeral mapping is not fixed and not empty. -/
def Fits (ctx : IommuCtx VfioState) (vaddr len iova flags : U64) : Prop :=
  (∃ m ∈ ctx.map.held, vaddr.toNat ∈ addresses m.vaddr m.len) ∨
    Unmapped ctx.map vaddr len ∧
      (flags &&& iommuMapFixedIova ≠ 0 → Passed ctx.backend.vfio iova len) ∧
      (flags &&& iommuMapEphemeral ≠ 0 → flags &&& iommuMapFixedIova = 0 ∧ len ≠ 0)

/-- A reservation and the mapping at the block it returns. -/
theorem VfioInv.mapReserved (h : VfioInv ctx xs ys) (hfree : Unmapped ctx.map vaddr len)
    (heph : flags &&& iommuMapEphemeral ≠ 0 → len ≠ 0) :
    ∃ xs' ys', VfioInv (iommuMapReserved (vfioOps pagesize) ctx vaddr len flags
      (ctx.backend.reserved
        (vfioIommuType1IovaReserve pagesize ctx.backend.vfio len flags))).2 xs' ys' := by
  rcases hres : vfioIommuType1IovaReserve pagesize ctx.backend.vfio len flags with
    e | ⟨iova, vfio⟩
  · exact ⟨xs, ys, h⟩
  · obtain ⟨ys', haccount, hexp⟩ : ∃ ys', Account vfio ctx.map.held ys' ∧
        Expected vfio ctx.map.held ys' ⟨vaddr, len, iova, flags⟩ := by
      by_cases hflags : flags &&& iommuMapEphemeral = 0
      · exact h.account.reserve hflags hres vaddr
      · exact ⟨ys, h.account.reserve_ephemeral hflags (heph hflags) hres vaddr⟩
    have h' : VfioInv { ctx with backend := { ctx.backend with vfio := vfio } } xs ys' :=
      ⟨h.mapped, haccount, h.live⟩
    obtain ⟨xs', hend⟩ := h'.mapAt hfree hexp
    exact ⟨xs', ys', hend⟩

theorem VfioInv.map (h : VfioInv ctx xs ys) (hfits : Fits ctx vaddr len iova flags)
    (pagesize : U64) :
    ∃ xs' ys', VfioInv (iommuMapVaddr (vfioOps pagesize) ctx vaddr len iova flags).2 xs' ys' := by
  have hmaps := iommuMapVaddr_maps (vfioOps pagesize) ctx vaddr len iova flags
  generalize iommuMapVaddr (vfioOps pagesize) ctx vaddr len iova flags = r at hmaps ⊢
  have hmissed (hmiss : iommuTranslateVaddr ctx.map vaddr = none) :=
    hfits.resolve_left fun ⟨m, hm, hin⟩ => by
      rw [h.mapped.translate_eq_some_iff.mpr ⟨m, hm, hin, rfl⟩] at hmiss
      exact absurd hmiss (Option.some_ne_none _)
  cases hmaps with
  | found => exact ⟨xs, ys, h⟩
  | fixed hmiss hfix =>
      obtain ⟨hfree, hfixed, heph⟩ := hmissed hmiss
      have hordinary : flags &&& iommuMapEphemeral = 0 := by
        by_contra hne
        exact hfix (heph hne).1
      obtain ⟨xs', h'⟩ := h.mapAt hfree (h.account.expected_fixed (hfixed hfix) hordinary vaddr)
      exact ⟨xs', ys, h'⟩
  | chosen _ _ hnone => exact absurd hnone (Option.some_ne_none _)
  | reserved hmiss _ res hres =>
      obtain rfl := Option.some.inj hres
      obtain ⟨hfree, -, heph⟩ := hmissed hmiss
      exact h.mapReserved hfree fun hne => (heph hne).2

theorem mem_live_of_disjoint {s : VfioState} {d : DmaMap} (hd : d ∈ s.kernel) (hsize : d.size ≠ 0)
    (hdisj : Disjoint (addresses iova len) (addresses d.iova d.size)) :
    d ∈ (vfioIommuType1DoDmaUnmap liveKernel s iova len).2.kernel := by
  have hpos := BitVec.toNat_pos_of_ne_zero hsize
  refine List.mem_filter.mpr ⟨hd, decide_eq_true ?_⟩
  by_contra hinside
  rw [not_or, not_lt, not_lt] at hinside
  exact Set.disjoint_left.mp hdisj ⟨hinside.1, by omega⟩ (start_mem_addresses hsize)

/-- The allocator's account after a mapping is removed. -/
theorem Account.unmap {s : VfioState} (h : Account s.vfio (m :: ms) ys) (hlen : m.len ≠ 0)
    (pagesize : U64) :
    ∃ ys', Account (putEphemeral (vfioOps pagesize) m.flags
      (vfioIommuType1DoDmaUnmap liveKernel s m.iova m.len).2).vfio ms ys' := by
  cases heph : m.ephemeral with
  | false =>
      have hflags : ¬m.flags &&& iommuMapEphemeral ≠ 0 := of_decide_eq_false heph
      obtain ⟨ys', h'⟩ := h.remove hlen heph
      refine ⟨ys', ?_⟩
      rw [putEphemeral, vfioOps, kernelVfioOps]
      dsimp only
      rw [if_neg hflags]
      exact h'
  | true =>
      have hflags : m.flags &&& iommuMapEphemeral ≠ 0 := of_decide_eq_true heph
      refine ⟨ys, ?_⟩
      rw [putEphemeral, vfioOps, kernelVfioOps]
      dsimp only
      rw [if_pos hflags]
      exact h.remove_ephemeral hlen heph

theorem putEphemeral_live (pagesize flags : U64) (s : VfioState) :
    (putEphemeral (vfioOps pagesize) flags s).kernel = s.kernel := by
  rw [putEphemeral, vfioOps, kernelVfioOps]
  dsimp only
  split_ifs <;> rfl

/-- Removing a mapping keeps the invariant. -/
theorem VfioInv.unmap (h : VfioInv ctx xs ys) (vaddr : U64) :
    ∃ xs' ys', VfioInv (iommuUnmapVaddr (vfioOps pagesize) ctx vaddr).2 xs' ys' := by
  have hunmaps : Unmaps (vfioOps pagesize) ctx xs vaddr _ := iommuUnmapVaddr_spec h.mapped
  generalize iommuUnmapVaddr (vfioOps pagesize) ctx vaddr = res at hunmaps ⊢
  cases hunmaps with
  | missing => exact ⟨xs, ys, h⟩
  | refused i e backend hi hin hunmap => cases hunmap
  | removed l r i backend hxs hin hunmap =>
      subst hxs
      obtain rfl := (Prod.mk.inj hunmap).2
      obtain ⟨hmapped, hperm⟩ := h.mapped.remove
      have hlen : (ctx.map.mapping (.entry i)).len ≠ 0 :=
        h.mapped.len_ne_zero (hperm.mem_iff.mpr List.mem_cons_self)
      have haccount := h.account.perm hperm
      obtain ⟨-, hothers, -⟩ := parted_cons.mp haccount.parted
      obtain ⟨ys', hend⟩ := haccount.unmap hlen pagesize
      refine ⟨l ++ r, ys', hmapped, hend, fun c hc => ?_⟩
      have hc' := hperm.mem_iff.mpr (List.mem_cons_of_mem _ hc)
      obtain ⟨d, hd, hiova, hsize⟩ := h.live c hc'
      have hstays := mem_live_of_disjoint hd (hsize ▸ h.mapped.len_ne_zero hc')
        (by rw [hiova, hsize]; exact hothers _ (List.mem_map_of_mem hc))
      exact ⟨d, (putEphemeral_live pagesize _ _).symm ▸ hstays, hiova, hsize⟩

theorem VfioInv.set_iovaNextSame (h : VfioInv ctx xs ys) (next : U64) :
    VfioInv { ctx with iovaNextSame := next } xs ys :=
  ⟨h.mapped, h.account, h.live⟩

/-- A block at the same address as its memory is a fixed one. -/
theorem VfioInv.allocSame (h : VfioInv ctx xs ys) {mmap : Except Errno U64}
    (hfits : ∀ vaddr, mmap = .ok vaddr → Fits ctx vaddr len vaddr iommuMapFixedIova) (busy : ℕ) :
    ∃ xs' ys',
      VfioInv (iommuAllocSameLoop (vfioOps pagesize) len mmap busy ctx).2 xs' ys' := by
  induction busy generalizing ctx with
  | zero =>
      rw [iommuAllocSameLoop_zero]
      split_ifs
      · exact ⟨xs, ys, h⟩
      · cases mmap with
        | error e => exact ⟨xs, ys, h⟩
        | ok vaddr =>
            obtain ⟨xs', ys', h'⟩ := h.map (hfits vaddr rfl) pagesize
            rw [iommuAllocSameAt]
            generalize iommuMapVaddr (vfioOps pagesize) ctx vaddr len vaddr iommuMapFixedIova =
              res at h'
            obtain ⟨e | iova, ctx'⟩ := res
            · exact ⟨xs', ys', h'⟩
            · exact ⟨xs', ys', h'.set_iovaNextSame _⟩
  | succ busy ih =>
      rw [iommuAllocSameLoop_succ]
      split_ifs
      · exact ⟨xs, ys, h⟩
      · exact ih (h.set_iovaNextSame _) hfits

def VfioCall.Fits (pagesize : U64) (ctx : IommuCtx VfioState) : VfioCall → Prop
  | .map vaddr len iova flags => Iommu.Fits ctx vaddr len iova flags
  | .allocSame len _ mmap => ∀ vaddr, mmap = .ok vaddr →
      Iommu.Fits ctx vaddr (alignUp len pagesize) vaddr iommuMapFixedIova
  | .unmap _ => True
  | .freeSame _ => True

/-- Every call that meets its condition keeps the invariant. -/
theorem vfioInv_step {ctx' : IommuCtx VfioState} (call : VfioCall)
    (h : ∃ xs ys, VfioInv ctx xs ys) (hfits : call.Fits pagesize ctx)
    (hstep : vfioStep pagesize ctx call = some ctx') : ∃ xs ys, VfioInv ctx' xs ys := by
  obtain ⟨xs, ys, h⟩ := h
  cases call with
  | map vaddr len iova flags =>
      obtain rfl := Option.some.inj hstep
      exact h.map hfits pagesize
  | unmap vaddr =>
      obtain rfl := Option.some.inj hstep
      exact h.unmap vaddr
  | allocSame len busy mmap =>
      obtain rfl := Option.some.inj hstep
      exact h.allocSame hfits busy
  | freeSame vaddr =>
      obtain rfl := Option.some.inj hstep
      exact h.unmap vaddr

/-! ## Runs -/

/-- No reservation would return a block in use, and nothing that is free is still ahead
of the cursor. -/
structure Collisionless (pagesize : U64) (ctx : IommuCtx VfioState) : Prop where
  reserve : ∀ len flags iova vfio,
    vfioIommuType1IovaReserve pagesize ctx.backend.vfio len flags = .ok (iova, vfio) →
      ∀ m ∈ ctx.map.held, Disjoint (addresses iova len) m.block
  cursor : ∀ r ∈ ctx.backend.vfio.freeIovas.ranges,
    ∀ x ∈ r.addresses, x < ctx.backend.vfio.next.toNat

theorem Account.reserve_subset_offer (h : Account vfio ms ys)
    (hres : vfioIommuType1IovaReserve pagesize vfio len flags = .ok (iova, vfio')) :
    addresses iova len ⊆ vfio.offer ys := by
  by_cases hflags : flags &&& iommuMapEphemeral = 0
  · have hreserves := vfioIommuType1IovaReserve_spec h.ready h.bounded hflags hres
    exact (hreserves.pool h.ready).1.trans (pool_subset_offer vfio ys)
  · obtain ⟨next, ⟨hcur, -, r, hr, hstart, hlast⟩, -⟩ :=
      vfioIommuType1IovaReserve_ephemeral h.bounded_ephemerals hflags hres
    rw [List.mem_singleton] at hr
    subst hr
    exact fun x hx => .inr ⟨⟨hstart.trans hx.1, Nat.le_of_lt_succ (hx.2.trans_le hlast)⟩,
      hcur.trans hx.1⟩

theorem VfioInv.collisionless (h : VfioInv ctx xs ys) (pagesize : U64) :
    Collisionless pagesize ctx := by
  refine ⟨fun len flags iova vfio hres m hm => ?_, fun r hr x hx => ?_⟩
  · have hout := h.account.parted.disjoint (List.mem_map_of_mem hm)
    exact hout.mono_left (h.account.reserve_subset_offer hres)
  · exact h.account.ready.below x (h.account.ready.free.has_of_mem hr hx)

/-- The account is empty once a range is set aside. -/
theorem account_init {ranges : List IovaRange} (hbound : Bounded ranges) {rand : ℕ → Bool}
    {garbage : FreeRange}
    (hinit : vfioIommuType1Init pagesize (vfioInitContainer ranges rand garbage) = .ok vfio) :
    ∃ ys, Account vfio [] ys := by
  rw [vfioIommuType1Init] at hinit
  rcases hres : vfioIommuType1IovaReserve pagesize (vfioInitContainer ranges rand garbage)
      vfioIommuType1IovaReserved 0 with e | ⟨iova, vfio'⟩
  · rw [hres] at hinit
    cases hinit
  rw [hres] at hinit
  obtain rfl := Except.ok.inj hinit
  have hready : Ready (vfioInitContainer ranges rand garbage) [] :=
    ⟨free_init rand garbage, fun x hx => absurd hx (not_covers_nil _ _ x)⟩
  have hreserves := vfioIommuType1IovaReserve_spec hready hbound (by decide) hres
  obtain ⟨-, ys, hready', hpool, -⟩ := hreserves.pool hready
  have hlen : vfioIommuType1IovaReserved.toNat = 0x10000 := rfl
  have hout : Disjoint (vfio'.pool ys) (addresses iova vfioIommuType1IovaReserved) :=
    Set.disjoint_sdiff_left.mono_left hpool
  have hend := end_le_next (by rw [hlen]; decide) hout
  have hlast : (iova + vfioIommuType1IovaReserved - 1).toNat = iova.toNat + 0xffff := by
    have hnext := vfio'.next.isLt
    have hone : iova + vfioIommuType1IovaReserved - 1 = iova + 0xffff := by
      rw [vfioIommuType1IovaReserved]
      ring
    rw [hone]
    exact BitVec.toNat_add_of_lt (by rw [show (0xffff : U64).toNat = 0xffff from rfl]; omega)
  refine ⟨ys, ⟨hready'.free, hready'.below⟩, hreserves.iovaRanges ▸ hbound, ?_, ?_, parted_nil _,
    by simp, by simp, ?_⟩
  · dsimp only
    omega
  · refine Set.disjoint_left.mpr fun x hx hpool => Set.disjoint_left.mp hout hpool ⟨hx.1, ?_⟩
    have hle : x ≤ (iova + vfioIommuType1IovaReserved - 1).toNat := hx.2
    omega
  · dsimp only
    rw [hreserves.sameAside.nephemerals]
    exact Nat.zero_le _

/-- In a run of calls that meet their conditions no reservation collides with a
mapping. -/
theorem vfio_collisionless (pagesize : U64) (ranges : List IovaRange)
    (hbound : ∀ r ∈ ranges, r.last.toNat < 2 ^ 64 - 1) (rand : ℕ → Bool) (garbage : FreeRange)
    (vfio : VfioContainer)
    (hinit : vfioIommuType1Init pagesize (vfioInitContainer ranges rand garbage) = .ok vfio)
    (ctx : IommuCtx VfioState) (rand' : ℕ → Bool) (garbage' : IovaMapping)
    (hmap : ctx.map = iovaMapInit rand' garbage') (hvfio : ctx.backend.vfio = vfio)
    (calls : List VfioCall) (ctx' : IommuCtx VfioState)
    (hfits : Runs.MeetsAlong (vfioStep pagesize) (VfioCall.Fits pagesize) ctx calls)
    (hrun : Runs.run (vfioStep pagesize) ctx calls = some ctx') :
    Collisionless pagesize ctx' := by
  obtain ⟨ys, haccount⟩ := account_init hbound hinit
  have hmapped : Mapped ctx.map [] := hmap ▸ mapped_init rand' garbage'
  have hheld : ctx.map.held = [] := by
    rw [hmapped.held_eq]
    rfl
  have hstart : ∃ xs ys, VfioInv ctx xs ys :=
    ⟨[], ys, hmapped, by rw [hheld, hvfio]; exact haccount, by rw [hheld]; simp⟩
  obtain ⟨xs, ys, h⟩ : ∃ xs ys, VfioInv ctx' xs ys :=
    Runs.run_invariant (fun _ call _ => vfioInv_step call) hstart hfits hrun
  exact h.collisionless pagesize

def pageContainer : VfioContainer :=
  { vfioInitContainer [⟨0x1000, 0xffffff⟩] (fun _ => true) ⟨0, 0⟩ with
    next := 0x11000
    ephemerals := ⟨0x1000, 0x10fff⟩ }

def pageCtx : IommuCtx VfioState :=
  ⟨iovaMapInit (fun _ => true) ⟨0, 0, 0, 0⟩, 0, 0, ⟨pageContainer, []⟩⟩

/-- A page is fixed below the addresses of the allocator, another one is mapped, and the
first is removed. -/
theorem vfio_collisionless_fixed_low :
    let calls := [VfioCall.map 0x200000 0x1000 0 iommuMapFixedIova, .map 0x100000 0x1000 0 0,
      .unmap 0x200000]
    let run := Runs.run (vfioStep 0x1000) pageCtx calls
    run.map (fun ctx => (ctx.map.held, ctx.backend.vfio.freeIovas.ranges)) =
        some ([⟨0x100000, 0x1000, 0x11000, 0⟩], [⟨0, 0x1000⟩]) ∧
      ∀ ctx, run = some ctx → Collisionless 0x1000 ctx := by
  refine ⟨by decide +kernel, fun ctx hrun => ?_⟩
  refine vfio_collisionless 0x1000 [⟨0x1000, 0xffffff⟩] (by decide) (fun _ => true) ⟨0, 0⟩
    pageContainer rfl pageCtx (fun _ => true) ⟨0, 0, 0, 0⟩ rfl rfl _ ctx ?_ hrun
  have hfirst : Fits pageCtx 0x200000 0x1000 0 iommuMapFixedIova := by
    refine .inr ⟨⟨by decide, ?_⟩, fun _ => ⟨by decide, ?_, ?_⟩, fun heph => absurd rfl heph⟩
    · exact fun m hm => absurd hm List.not_mem_nil
    · exact fun r hr => absurd hr List.not_mem_nil
    · exact Set.disjoint_left.mpr fun x hx hx' => (hx.2.trans_le (by decide)).not_ge hx'.1
  have hsecond : Fits
      (iommuMapVaddr (vfioOps 0x1000) pageCtx 0x200000 0x1000 0 iommuMapFixedIova).2
      0x100000 0x1000 0 0 := by
    refine .inr ⟨⟨by decide, fun m hm => ?_⟩, fun hfix => absurd rfl hfix,
      fun heph => absurd rfl heph⟩
    have hheld : (iommuMapVaddr (vfioOps 0x1000) pageCtx 0x200000 0x1000 0
        iommuMapFixedIova).2.map.held = [⟨0x200000, 0x1000, 0, 1⟩] := by
      decide +kernel
    rw [hheld, List.mem_singleton] at hm
    rw [hm]
    exact disjoint_addresses_of_le (by decide)
  exact Runs.meetsAlong_cons rfl hfirst
    (Runs.meetsAlong_cons rfl hsecond (Runs.meetsAlong_cons rfl trivial trivial))

/-- A page that is fixed where the cursor stands is returned by the next reservation,
and one that is fixed further up and removed is free while the cursor is still to
reach it. -/
theorem vfio_collisionless_fixed_ahead :
    vfioIommuType1Init 0x1000
        (vfioInitContainer [⟨0x1000, 0xffffff⟩] (fun _ => true) ⟨0, 0⟩) = .ok pageContainer ∧
    (∃ ctx, Runs.run (vfioStep 0x1000) pageCtx
        [.map 0x200000 0x1000 0x11000 iommuMapFixedIova] = some ctx ∧
      ctx.map.held = [⟨0x200000, 0x1000, 0x11000, iommuMapFixedIova⟩] ∧
      (vfioIommuType1IovaReserve 0x1000 ctx.backend.vfio 0x1000 0).toOption.map Prod.fst =
        some 0x11000 ∧
      ¬Collisionless 0x1000 ctx) ∧
    ∃ ctx, Runs.run (vfioStep 0x1000) pageCtx
        [.map 0x200000 0x1000 0x20000 iommuMapFixedIova, .unmap 0x200000] = some ctx ∧
      ctx.backend.vfio.freeIovas.ranges = [⟨0x20000, 0x1000⟩] ∧
      ctx.backend.vfio.next = 0x11000 ∧ ¬Collisionless 0x1000 ctx := by
  refine ⟨rfl, ?_, ?_⟩
  · have hrun : (Runs.run (vfioStep 0x1000) pageCtx
        [.map 0x200000 0x1000 0x11000 iommuMapFixedIova]).map (fun ctx => (ctx.map.held,
          (vfioIommuType1IovaReserve 0x1000 ctx.backend.vfio 0x1000 0).toOption.map Prod.fst)) =
        some ([⟨0x200000, 0x1000, 0x11000, iommuMapFixedIova⟩], some 0x11000) := by
      decide +kernel
    obtain ⟨ctx, hctx, hend⟩ := Option.map_eq_some_iff.mp hrun
    obtain ⟨hheld, hres⟩ := Prod.mk.inj hend
    refine ⟨ctx, hctx, hheld, hres, fun h => ?_⟩
    rcases hreserve : vfioIommuType1IovaReserve 0x1000 ctx.backend.vfio 0x1000 0 with
      e | ⟨iova, vfio⟩
    · rw [hreserve] at hres
      cases hres
    · rw [hreserve] at hres
      obtain rfl : iova = 0x11000 := Option.some.inj hres
      have hdisj := h.reserve _ _ _ _ hreserve ⟨0x200000, 0x1000, 0x11000, iommuMapFixedIova⟩
        (hheld ▸ List.mem_cons_self)
      have hboth : 0x11000 ∈ addresses 0x11000 0x1000 := ⟨by decide, by decide⟩
      exact Set.disjoint_left.mp hdisj hboth hboth
  · have hrun : (Runs.run (vfioStep 0x1000) pageCtx
        [.map 0x200000 0x1000 0x20000 iommuMapFixedIova, .unmap 0x200000]).map
          (fun ctx => (ctx.backend.vfio.freeIovas.ranges, ctx.backend.vfio.next)) =
        some ([⟨0x20000, 0x1000⟩], 0x11000) := by
      decide +kernel
    obtain ⟨ctx, hctx, hend⟩ := Option.map_eq_some_iff.mp hrun
    obtain ⟨hranges, hnext⟩ := Prod.mk.inj hend
    refine ⟨ctx, hctx, hranges, hnext, fun h => ?_⟩
    have hlt := h.cursor ⟨0x20000, 0x1000⟩ (hranges ▸ List.mem_cons_self) 0x20000
      ⟨by decide, by decide⟩
    rw [hnext] at hlt
    exact absurd hlt (by decide)

end Iommu

end Libvfn
