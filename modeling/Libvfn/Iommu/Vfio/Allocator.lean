import Libvfn.Foundation.Pool
import Libvfn.Foundation.Run
import Libvfn.Iommu.Vfio.Coalesce
import Libvfn.Iommu.Vfio.Container

/-!
# Blocks that are handed out do not overlap

The allocator owns a pool of addresses: those in the list of free addresses and
those from the cursor on. A reservation takes its block out of the pool, in one of
two ways (`Reserves`), and giving a block back returns it. Over a run, the blocks
handed out and not given back meet neither each other nor the pool.
-/

namespace Libvfn

namespace Iommu

open Word Support Util Spans Pool

def usable (ranges : List IovaRange) : Set ℕ :=
  {x | ∃ r ∈ ranges, r.start.toNat ≤ x ∧ x ≤ r.last.toNat}

def FreeList.ranges (fl : FreeList) : List FreeRange := (fl.list.heads 0).tail.map fl.range

structure Ready (vfio : VfioContainer) (xs : List ℕ) : Prop where
  free : Free vfio.freeIovas xs
  below : ∀ x, vfio.freeIovas.Has xs x → x < vfio.next.toNat

def VfioContainer.pool (vfio : VfioContainer) (xs : List ℕ) : Set ℕ :=
  {x | vfio.freeIovas.Has xs x} ∪ Set.Ici vfio.next.toNat

/-! ## Reservations -/

/-- The two ways to reserve a block: from the list, or at the cursor. -/
inductive Reserves (vfio : VfioContainer) (xs : List ℕ) (iova len : U64) :
    VfioContainer → Prop
  | free {fl : FreeList} (htake : Takes vfio.freeIovas xs iova len fl) :
      Reserves vfio xs iova len { vfio with freeIovas := fl }
  | cursor {next : U64} (hle : vfio.next.toNat ≤ iova.toNat)
      (hnext : next.toNat = iova.toNat + len.toNat)
      (husable : addresses iova len ⊆ usable vfio.iovaRanges) :
      Reserves vfio xs iova len { vfio with next := next }

/-- No range reaches the last address, so that the ends of blocks do not wrap. -/
def Bounded (ranges : List IovaRange) : Prop := ∀ r ∈ ranges, r.last.toNat < 2 ^ 64 - 1

/-- The block lies in one of the ranges, at or behind the cursor, which ends up behind
the block. -/
def Advances (ranges : List IovaRange) (next len iova next' : U64) : Prop :=
  next.toNat ≤ iova.toNat ∧ next'.toNat = iova.toNat + len.toNat ∧
    ∃ r ∈ ranges, r.start.toNat ≤ iova.toNat ∧ iova.toNat + len.toNat ≤ r.last.toNat + 1

theorem iovaReserveFrom_spec {place : U64 → Option U64}
    (hplace : ∀ a b, place a = some b → a ≤ b) {ranges : List IovaRange}
    (hbound : Bounded ranges) {next len iova next' : U64}
    (h : iovaReserveFrom place len ranges next = some (iova, next')) :
    Advances ranges next len iova next' := by
  obtain ⟨r, hr, moved, hnext, hstart, hput, hlast, hfits, rfl⟩ := iovaReserveFrom_eq_some h
  have hmoved := BitVec.le_def.mp (hplace moved iova hput)
  have hbelow := hbound r hr
  have hone : (1 : U64).toNat = 1 := rfl
  rw [BitVec.le_def] at hnext hstart hlast hfits
  rw [BitVec.toNat_add, BitVec.toNat_sub_of_le (BitVec.le_def.mpr hlast), hone,
    Nat.mod_eq_of_lt (by omega)] at hfits
  have hend : (iova + len).toNat = iova.toNat + len.toNat := BitVec.toNat_add_of_lt (by omega)
  exact ⟨by omega, hend, r, hr, by omega, by omega⟩

theorem iovaReserve_spec {ranges : List IovaRange} (hbound : Bounded ranges)
    {next len iova next' : U64} (h : iovaReserve ranges next len = some (iova, next')) :
    Advances ranges next len iova next' :=
  iovaReserveFrom_spec (fun _ _ hab => Option.some.inj hab ▸ BitVec.le_refl _) hbound h

theorem iovaReserveAlign_spec {ranges : List IovaRange} (hbound : Bounded ranges)
    {next len align iova next' : U64}
    (h : iovaReserveAlign ranges next len align = some (iova, next')) :
    Advances ranges next len iova next' := by
  refine iovaReserveFrom_spec (fun a b hab => ?_) hbound h
  split_ifs at hab with hwrap
  exact Option.some.inj hab ▸ BitVec.not_lt.mp hwrap

variable {vfio vfio' : VfioContainer} {xs : List ℕ} {pagesize len align flags iova : U64}

theorem Advances.reserves {next : U64} (h : Advances vfio.iovaRanges vfio.next len iova next) :
    Reserves vfio xs iova len { vfio with next := next } := by
  obtain ⟨hle, hnext, r, hr, hlo, hhi⟩ := h
  refine .cursor hle hnext fun x hx => ⟨r, hr, ?_, ?_⟩
  · exact hlo.trans hx.1
  · exact Nat.le_of_lt_succ (hx.2.trans_le hhi)

theorem reserves_of_supply {got : Option (U64 × FreeList)} {cut : Option (U64 × U64)}
    (hgot : ∀ iova fl, got = some (iova, fl) → Takes vfio.freeIovas xs iova len fl)
    (hcut : ∀ iova next, cut = some (iova, next) →
      Advances vfio.iovaRanges vfio.next len iova next)
    (h : vfio.supply got cut = .ok (iova, vfio')) : Reserves vfio xs iova len vfio' := by
  rcases supply_eq_ok h with ⟨fl, hfree, rfl⟩ | ⟨next, hcursor, rfl⟩
  · exact .free (hgot _ _ hfree)
  · exact (hcut _ _ hcursor).reserves

theorem vfioIommuType1IovaReserve_spec (hready : Ready vfio xs)
    (hbound : Bounded vfio.iovaRanges) (hflags : flags &&& iommuMapEphemeral = 0)
    (h : vfioIommuType1IovaReserve pagesize vfio len flags = .ok (iova, vfio')) :
    Reserves vfio xs iova len vfio' := by
  rw [vfioIommuType1IovaReserve_eq_supply hflags] at h
  split_ifs at h
  exact reserves_of_supply (fun _ _ => iovaGetFree_spec hready.free)
    (fun _ _ => iovaReserve_spec hbound) h

theorem vfioIommuType1IovaReserveAlign_spec (hready : Ready vfio xs)
    (hbound : Bounded vfio.iovaRanges)
    (h : vfioIommuType1IovaReserveAlign pagesize vfio len align = .ok (iova, vfio')) :
    Reserves vfio xs iova len vfio' := by
  rw [vfioIommuType1IovaReserveAlign_eq_supply] at h
  split_ifs at h
  exact reserves_of_supply (fun _ _ => iovaGetFreeAlign_spec hready.free)
    (fun _ _ => iovaReserveAlign_spec hbound) h

/-- A reservation takes its block out of the pool. -/
theorem Reserves.pool (h : Reserves vfio xs iova len vfio') (hready : Ready vfio xs) :
    addresses iova len ⊆ vfio.pool xs ∧
      ∃ xs', Ready vfio' xs' ∧ vfio'.pool xs' ⊆ vfio.pool xs \ addresses iova len ∧
        ∀ x, vfio'.freeIovas.Has xs' x → vfio.freeIovas.Has xs x := by
  cases h with
  | free htake =>
      obtain ⟨hin, xs', hfree, hhas⟩ := htake
      have hsub : addresses iova len ⊆ {x | vfio.freeIovas.Has xs x} := fun x hx =>
        hin x hx.1 hx.2
      refine ⟨hsub.trans Set.subset_union_left, xs', ⟨hfree, ?_⟩, ?_, ?_⟩
      · exact fun x hx => hready.below x ((hhas x).mp hx).1
      · rintro x (hx | hx)
        · exact ⟨.inl ((hhas x).mp hx).1, ((hhas x).mp hx).2⟩
        · exact ⟨.inr hx, fun hmem => (hready.below x (hsub hmem)).not_ge hx⟩
      · exact fun x hx => ((hhas x).mp hx).1
  | cursor hle hnext husable =>
      refine ⟨fun x hx => .inr (hle.trans hx.1), xs, ⟨hready.free, ?_⟩, ?_, fun _ hx => hx⟩
      · intro x hx
        exact (hready.below x hx).trans_le (by rw [hnext]; omega)
      · rintro x (hx | hx)
        · refine ⟨.inl hx, fun hmem => ?_⟩
          exact (hready.below x hx).not_ge (hle.trans hmem.1)
        · rw [Set.mem_Ici, hnext] at hx
          exact ⟨.inr (hle.trans (by omega)), fun hmem => hmem.2.not_ge hx⟩

theorem Reserves.mem_usable (h : Reserves vfio xs iova len vfio')
    (hfree : ∀ x, vfio.freeIovas.Has xs x → x ∈ usable vfio.iovaRanges) :
    addresses iova len ⊆ usable vfio.iovaRanges := by
  cases h with
  | free htake => exact fun x hx => hfree x (htake.1 x hx.1 hx.2)
  | cursor _ _ husable => exact husable

theorem Reserves.iovaRanges (h : Reserves vfio xs iova len vfio') :
    vfio'.iovaRanges = vfio.iovaRanges := by
  cases h <;> rfl

/-! ## Giving back -/

theorem end_le_next (hpos : 0 < len.toNat) (hout : Disjoint (vfio.pool xs) (addresses iova len)) :
    iova.toNat + len.toNat ≤ vfio.next.toNat := by
  by_contra hlt
  have hlast : iova.toNat + len.toNat - 1 ∈ addresses iova len := ⟨by omega, by omega⟩
  refine Set.disjoint_left.mp hout (.inr ?_) hlast
  rw [Set.mem_Ici]
  omega

/-- A block that is given back may go to the pool, and nothing else does. -/
theorem vfioIovaPut_spec (hready : Ready vfio xs) (hpos : 0 < len.toNat)
    (hout : Disjoint (vfio.pool xs) (addresses iova len)) :
    ∃ xs', Ready (vfioIovaPut vfio iova len) xs' ∧
      (vfioIovaPut vfio iova len).pool xs' ⊆ vfio.pool xs ∪ addresses iova len ∧
      ∀ x, (vfioIovaPut vfio iova len).freeIovas.Has xs' x →
        vfio.freeIovas.Has xs x ∨ x ∈ addresses iova len := by
  have hend := end_le_next hpos hout
  rw [vfioIovaPut]
  split_ifs
  · exact ⟨xs, hready, Set.subset_union_left, fun x hx => .inl hx⟩
  · have hgap : ∀ x, iova.toNat ≤ x → x < iova.toNat + len.toNat →
        ¬vfio.freeIovas.Has xs x := fun x hle hlt hx =>
      Set.disjoint_left.mp hout (.inl hx) ⟨hle, hlt⟩
    obtain ⟨xs', hfree, hhas⟩ :=
      iovaPutFree_spec hready.free hpos (hend.trans_lt vfio.next.isLt) hgap
    refine ⟨xs', ⟨hfree, fun x hx => ?_⟩, ?_, fun x hx => (hhas x).mp hx⟩
    · rcases (hhas x).mp hx with hx | hx
      · exact hready.below x hx
      · exact hx.2.trans_le hend
    · rintro x (hx | hx)
      · exact ((hhas x).mp hx).imp_left .inl
      · exact .inl (.inr hx)

theorem vfioIovaPut_iovaRanges :
    (vfioIovaPut vfio iova len).iovaRanges = vfio.iovaRanges := by
  rw [vfioIovaPut]
  split_ifs <;> rfl

/-! ## Runs of the allocator -/

structure Block where
  iova : U64
  len : U64
  deriving DecidableEq

def Block.addresses (b : Block) : Set ℕ := Word.addresses b.iova b.len

structure AllocState where
  vfio : VfioContainer
  out : List Block

inductive AllocOp where
  | reserve (len flags : U64)
  | reserveAlign (len align : U64)
  | put (b : Block)

def AllocState.record (s : AllocState) (len : U64) :
    Except Errno (U64 × VfioContainer) → AllocState
  | .ok (iova, vfio) => ⟨vfio, ⟨iova, len⟩ :: s.out⟩
  | .error _ => s

/-- One call. Reservations are for ordinary mappings and have a length; a block can be
given back while it is out. -/
def allocStep (pagesize : U64) (s : AllocState) : AllocOp → Option AllocState
  | .reserve len flags =>
      if len ≠ 0 ∧ flags &&& iommuMapEphemeral = 0 then
        some (s.record len (vfioIommuType1IovaReserve pagesize s.vfio len flags))
      else none
  | .reserveAlign len align =>
      if len ≠ 0 then
        some (s.record len (vfioIommuType1IovaReserveAlign pagesize s.vfio len align))
      else none
  | .put b =>
      if b ∈ s.out then some ⟨vfioIovaPut s.vfio b.iova b.len, s.out.erase b⟩ else none

/-- What holds between the calls: the blocks that are out are apart from each other
and from the pool, and the free and the reserved addresses can be used. -/
structure AllocInv (ranges : List IovaRange) (s : AllocState) (xs : List ℕ) : Prop where
  ready : Ready s.vfio xs
  ranges_eq : s.vfio.iovaRanges = ranges
  parted : Parted (s.vfio.pool xs) (s.out.map Block.addresses)
  pos : ∀ b ∈ s.out, 0 < b.len.toNat
  free_usable : ∀ x, s.vfio.freeIovas.Has xs x → x ∈ usable ranges
  out_usable : ∀ b ∈ s.out, b.addresses ⊆ usable ranges

variable {ranges : List IovaRange} {s s' : AllocState}

theorem AllocInv.record (h : AllocInv ranges s xs) (hlen : len ≠ 0)
    {res : Except Errno (U64 × VfioContainer)}
    (hres : ∀ iova vfio', res = .ok (iova, vfio') → Reserves s.vfio xs iova len vfio') :
    ∃ xs', AllocInv ranges (s.record len res) xs' := by
  obtain e | ⟨iova, vfio'⟩ := res
  · exact ⟨xs, h⟩
  have hreserves := hres iova vfio' rfl
  obtain ⟨hsub, xs', hready, hpool, hfree⟩ := hreserves.pool h.ready
  have husable : addresses iova len ⊆ usable ranges := by
    have hin := hreserves.mem_usable (by rw [h.ranges_eq]; exact h.free_usable)
    rwa [h.ranges_eq] at hin
  refine ⟨xs', ⟨hready, hreserves.iovaRanges.trans h.ranges_eq, ?_, ?_, ?_, ?_⟩⟩
  · exact h.parted.take hsub hpool
  · exact List.forall_mem_cons.mpr ⟨BitVec.toNat_pos_of_ne_zero hlen, h.pos⟩
  · exact fun x hx => h.free_usable x (hfree x hx)
  · exact List.forall_mem_cons.mpr ⟨husable, h.out_usable⟩

theorem AllocInv.put (h : AllocInv ranges s xs) {b : Block} (hb : b ∈ s.out) :
    ∃ xs', AllocInv ranges ⟨vfioIovaPut s.vfio b.iova b.len, s.out.erase b⟩ xs' := by
  have hparted : Parted (s.vfio.pool xs) (b.addresses :: (s.out.erase b).map Block.addresses) :=
    h.parted.perm ((List.perm_cons_erase hb).map Block.addresses)
  obtain ⟨xs', hready, hpool, hfree⟩ :=
    vfioIovaPut_spec h.ready (h.pos b hb) (parted_cons.mp hparted).1
  refine ⟨xs', ⟨hready, vfioIovaPut_iovaRanges.trans h.ranges_eq, hparted.put hpool, ?_, ?_, ?_⟩⟩
  · exact fun c hc => h.pos c (List.mem_of_mem_erase hc)
  · intro x hx
    exact (hfree x hx).elim (h.free_usable x) fun hx => h.out_usable b hb hx
  · exact fun c hc => h.out_usable c (List.mem_of_mem_erase hc)

/-- Every call keeps the invariant. -/
theorem AllocInv.step (hbound : Bounded ranges) (op : AllocOp)
    (h : ∃ xs, AllocInv ranges s xs) (hstep : allocStep pagesize s op = some s') :
    ∃ xs, AllocInv ranges s' xs := by
  obtain ⟨xs, h⟩ := h
  have hbound' : Bounded s.vfio.iovaRanges := h.ranges_eq.symm ▸ hbound
  cases op with
  | reserve len flags =>
      rw [allocStep] at hstep
      split_ifs at hstep with hargs
      obtain rfl := Option.some.inj hstep
      exact h.record hargs.1 fun iova vfio' =>
        vfioIommuType1IovaReserve_spec h.ready hbound' hargs.2
  | reserveAlign len align =>
      rw [allocStep] at hstep
      split_ifs at hstep with hlen
      obtain rfl := Option.some.inj hstep
      exact h.record hlen fun iova vfio' => vfioIommuType1IovaReserveAlign_spec h.ready hbound'
  | put b =>
      rw [allocStep] at hstep
      split_ifs at hstep with hb
      obtain rfl := Option.some.inj hstep
      exact h.put hb

theorem Free.ranges_eq (h : Free vfio.freeIovas xs) :
    vfio.freeIovas.ranges = xs.map fun i => vfio.freeIovas.range (.entry i) :=
  h.holds.map_tail vfio.freeIovas.range

def FreeRange.addresses (r : FreeRange) : Set ℕ := Word.addresses r.start r.len

theorem Free.pairwise_disjoint (h : Free vfio.freeIovas xs) :
    (vfio.freeIovas.ranges.map FreeRange.addresses).Pairwise Disjoint := by
  rw [h.ranges_eq, List.map_map]
  exact h.apart.pairwise_disjoint

theorem Free.has_of_mem (h : Free vfio.freeIovas xs) {r : FreeRange}
    (hr : r ∈ vfio.freeIovas.ranges) : r.addresses ⊆ {x | vfio.freeIovas.Has xs x} := by
  rw [h.ranges_eq] at hr
  obtain ⟨i, hi, rfl⟩ := List.mem_map.mp hr
  exact fun x hx => ⟨i, hi, hx⟩

/-- Blocks, free ranges and the addresses from the cursor on do not overlap, and a
block that was handed out can be used by the device. -/
theorem allocator_blocks_disjoint (pagesize : U64) (vfio : VfioContainer) (rand : ℕ → Bool)
    (garbage : FreeRange) (hbound : ∀ r ∈ vfio.iovaRanges, r.last.toNat < 2 ^ 64 - 1)
    (hfree : vfio.freeIovas = freeListInit rand garbage)
    (ops : List AllocOp) (s : AllocState)
    (hrun : Runs.run (allocStep pagesize) ⟨vfio, []⟩ ops = some s) :
    (Set.Ici s.vfio.next.toNat :: (s.out.map Block.addresses ++
        s.vfio.freeIovas.ranges.map FreeRange.addresses)).Pairwise Disjoint ∧
      ∀ b ∈ s.out, b.addresses ⊆ usable vfio.iovaRanges := by
  have hempty : ∀ x, ¬vfio.freeIovas.Has [] x := not_covers_nil _ _
  have hinit : AllocInv vfio.iovaRanges ⟨vfio, []⟩ [] :=
    { ready := ⟨hfree ▸ free_init rand garbage, fun x hx => absurd hx (hempty x)⟩
      ranges_eq := rfl
      parted := parted_nil _
      pos := by simp
      free_usable := fun x hx => absurd hx (hempty x)
      out_usable := by simp }
  obtain ⟨xs, h⟩ := Runs.run_invariant_of_step
    (fun s op s' => AllocInv.step hbound op) ⟨[], hinit⟩ hrun
  have hfreeSub {r : FreeRange} (hr : r ∈ s.vfio.freeIovas.ranges) :
      r.addresses ⊆ s.vfio.pool xs :=
    (h.ready.free.has_of_mem hr).trans Set.subset_union_left
  refine ⟨List.pairwise_cons.mpr ⟨fun c hc => ?_, List.pairwise_append.mpr ⟨?_, ?_, ?_⟩⟩, ?_⟩
  · rcases List.mem_append.mp hc with hc | hc
    · exact (h.parted.disjoint hc).mono_left Set.subset_union_right
    · obtain ⟨r, hr, rfl⟩ := List.mem_map.mp hc
      exact Set.disjoint_right.mpr fun x hx hge =>
        (h.ready.below x (h.ready.free.has_of_mem hr hx)).not_ge hge
  · exact (List.pairwise_cons.mp h.parted).2
  · exact h.ready.free.pairwise_disjoint
  · intro b hb c hc
    obtain ⟨r, hr, rfl⟩ := List.mem_map.mp hc
    exact ((h.parted.disjoint hb).mono_left (hfreeSub hr)).symm
  · exact h.out_usable

/-- Two blocks are reserved, the first is given back, an aligned block is reserved
behind the second, and the first is handed out again. -/
theorem allocator_blocks_disjoint_reuse :
    let run := Runs.run (allocStep 0x1000)
      ⟨vfioInitContainer [⟨0x1000, 0xffff⟩] (fun _ => true) ⟨0, 0⟩, []⟩
      [.reserve 0x1000 0, .reserve 0x2000 0, .put ⟨0x1000, 0x1000⟩, .reserveAlign 0x1000 0x2000,
        .reserve 0x1000 0]
    run.map AllocState.out = some [⟨0x1000, 0x1000⟩, ⟨0x4000, 0x1000⟩, ⟨0x2000, 0x2000⟩] ∧
      ∀ s, run = some s →
        (Set.Ici s.vfio.next.toNat :: (s.out.map Block.addresses ++
          s.vfio.freeIovas.ranges.map FreeRange.addresses)).Pairwise Disjoint ∧
        ∀ b ∈ s.out, b.addresses ⊆ usable [⟨0x1000, 0xffff⟩] :=
  ⟨by decide +kernel, fun s hs => allocator_blocks_disjoint 0x1000
    (vfioInitContainer [⟨0x1000, 0xffff⟩] (fun _ => true) ⟨0, 0⟩) (fun _ => true) ⟨0, 0⟩
    (by decide) rfl _ s hs⟩

end Iommu

end Libvfn
