import Libvfn.Iommu.Vfio.Collision

/-!
# Counting the ephemeral mappings

A container counts its ephemeral mappings, to know when their range can be used again. A
block that is reserved in the range counts, and a mapping that is removed is discounted if
its flags say that it is ephemeral. These are not the same mappings: a mapping at a fixed
address or with an alignment may have the flag, but no block in the range; a block stays
reserved when the kernel refuses the mapping; and removing all mappings at once discounts
none.

The kernel may refuse any call here. The counter is right along a run exactly if every
call is balanced. This is a condition on the arguments of the call, on the allocator and the
map as the call finds them, and on the answers of the kernel: an ephemeral block that can be
reserved is accepted by the kernel, a fixed or aligned one with the flag is not, and all
mappings are removed at once only if none is ephemeral.
-/

namespace Libvfn

namespace Iommu

open Word Support Util Spans Runs

def ephemeralFlags (flags : U64) : Bool := flags &&& iommuMapEphemeral ≠ 0

def IovaMap.ephemerals (map : IovaMap) : ℕ := map.held.countP IovaMapping.ephemeral

/-- The counter is right, so that it does not underflow, and the range is used again only
when the last ephemeral mapping goes. -/
structure EphemeralsCounted {κ : Type*} (ctx : IommuCtx (KernelVfio κ)) : Prop where
  count : ctx.backend.vfio.nephemerals.toNat = ctx.map.ephemerals
  no_underflow : ∀ m ∈ ctx.map.held, m.ephemeral → ctx.backend.vfio.nephemerals ≠ 0
  rewinds_last : ∀ m ∈ ctx.map.held, m.ephemeral → ctx.backend.vfio.nephemerals - 1 = 0 →
    ∀ m' ∈ ctx.map.held, m'.ephemeral → m' = m

section Answers

variable {κ : Type*} (kernel : KernelOps κ)

/-- The kernel accepts the block at the address, and it is not empty. -/
def KernelOps.accepts (pagesize : U64) (k : κ) (vaddr len iova flags : U64) : Bool :=
  len ≠ 0 && aligned (vaddr ||| len ||| iova) pagesize &&
    (kernel.map k ⟨vaddr, len, iova, dmaMapFlags flags⟩).1.isNone

def KernelOps.unmapsEach : List IovaMapping → κ → Bool
  | [], _ => true
  | m :: ms, k =>
      (kernel.unmap k m.iova m.len).1.isNone &&
        unmapsEach ms (kernel.unmap k m.iova m.len).2

/-- The kernel agrees to unmap everything, at once or one mapping after the other. -/
def KernelOps.unmapsAll (hasUnmapAll : Bool) (k : κ) (held : List IovaMapping) : Bool :=
  if hasUnmapAll then (kernel.unmapAll k).1.isNone else kernel.unmapsEach held k

/-- If an ephemeral mapping has a fixed address, or is aligned, then the kernel does not accept
it. Otherwise the kernel accepts it wherever a block is reserved for it. All mappings are removed
at once only if none is ephemeral. -/
def Balanced (pagesize : U64) (hasUnmapAll : Bool) (ctx : IommuCtx (KernelVfio κ)) :
    DmaOp → Prop
  | .map vaddr len iova flags =>
      ephemeralFlags flags → iommuTranslateVaddr ctx.map vaddr = none →
        if flags &&& iommuMapFixedIova ≠ 0 then
          kernel.accepts pagesize ctx.backend.kernel vaddr len iova flags = false
        else
          ∀ iova vfio, vfioIommuType1IovaReserve pagesize ctx.backend.vfio len flags =
            .ok (iova, vfio) →
              kernel.accepts pagesize ctx.backend.kernel vaddr len iova flags = true
  | .mapAlign vaddr len align flags =>
      ephemeralFlags flags → flags &&& iommuMapFixedIova = 0 →
        iommuTranslateVaddr ctx.map vaddr = none →
          ∀ iova vfio, vfioIommuType1IovaReserveAlign pagesize ctx.backend.vfio len align =
            .ok (iova, vfio) →
              kernel.accepts pagesize ctx.backend.kernel vaddr len iova flags = false
  | .unmap _ => True
  | .unmapAll =>
      kernel.unmapsAll hasUnmapAll ctx.backend.kernel ctx.map.held = true →
        ∀ m ∈ ctx.map.held, m.ephemeral = false

end Answers

/-! ## Mappings -/

section Map

variable {map : IovaMap} {xs : List ℕ} {m : IovaMapping}

theorem Mapped.length_held_lt (h : Mapped map xs) : map.held.length < 2 ^ 64 := by
  have hle := h.apart.add_length_le (Nat.zero_le (2 ^ 64 - 1)) (fun _ _ => Nat.zero_le _)
    (fun i hi => Nat.le_sub_one_of_lt (h.small i hi))
  rw [h.held_eq, List.length_map]
  omega

theorem Mapped.ephemerals_lt (h : Mapped map xs) : map.ephemerals < 2 ^ 64 :=
  List.countP_le_length.trans_lt h.length_held_lt

theorem Mapped.ephemerals_link (h : Mapped map xs) (hlen : m.len ≠ 0)
    (hfree : Unmapped map m.vaddr m.len) :
    (iovaMapLink map m).ephemerals = map.ephemerals + m.ephemeral.toNat := by
  obtain ⟨-, -, hperm⟩ := h.link hlen hfree
  rw [IovaMap.ephemerals, hperm.countP_eq, List.countP_cons, IovaMap.ephemerals]
  cases m.ephemeral <;> rfl

theorem Mapped.ephemerals_remove {l r : List ℕ} {i : ℕ} (h : Mapped map (l ++ i :: r)) :
    map.ephemerals = (iovaMapRemove map (map.mapping (.entry i)).vaddr).ephemerals +
      (map.mapping (.entry i)).ephemeral.toNat := by
  rw [IovaMap.ephemerals, h.remove.2.countP_eq, List.countP_cons, IovaMap.ephemerals]
  cases (map.mapping (.entry i)).ephemeral <;> rfl

theorem Mapped.ephemerals_clear (h : Mapped map xs) : (iovaMapClearWith map).1.ephemerals = 0 := by
  rw [IovaMap.ephemerals, h.clear.held_eq]
  rfl

theorem ephemerals_eq_zero_iff : map.ephemerals = 0 ↔ ∀ m ∈ map.held, m.ephemeral = false := by
  rw [IovaMap.ephemerals, List.countP_eq_zero]
  simp

end Map

/-! ## Calls -/

section Calls

variable {κ : Type*} {kernel : KernelOps κ} {pagesize : U64} {hasUnmapAll : Bool}
  {ctx ctx' : IommuCtx (KernelVfio κ)} {xs : List ℕ} {vaddr len iova align flags : U64}
  {r : Except Errno U64 × IommuCtx (KernelVfio κ)}

/-- The rest follows once the counter is right. -/
theorem ephemeralsCounted_of_count
    (hcount : ctx.backend.vfio.nephemerals.toNat = ctx.map.ephemerals) :
    EphemeralsCounted ctx := by
  have hone : (1 : U64).toNat = 1 := rfl
  have hpos : ∀ m ∈ ctx.map.held, m.ephemeral → 0 < ctx.map.ephemerals := fun m hm heph =>
    List.countP_pos_iff.mpr ⟨m, hm, heph⟩
  refine ⟨hcount, ?_, ?_⟩
  · intro m hm heph hzero
    have hlt := hpos m hm heph
    rw [hzero] at hcount
    exact hlt.ne hcount
  · intro m hm heph hlast m' hm' heph'
    have hlt := hpos m hm heph
    have hlength : (ctx.map.held.filter IovaMapping.ephemeral).length = 1 := by
      rw [← List.countP_eq_length_filter, ← IovaMap.ephemerals, ← hcount,
        sub_eq_zero.mp hlast, hone]
    obtain ⟨a, ha⟩ := List.length_eq_one_iff.mp hlength
    have hmem : ∀ b ∈ ctx.map.held, b.ephemeral → b = a := by
      intro b hb hbeph
      rw [← List.mem_singleton, ← ha]
      exact List.mem_filter.mpr ⟨hb, hbeph⟩
    rw [hmem m hm heph, hmem m' hm' heph']

theorem counted_iff {n : U64} {c : ℕ} (hn : n.toNat = c) {made counted : Bool}
    (hlt : c + made.toNat < 2 ^ 64) :
    (n + (if counted then 1 else 0)).toNat = c + made.toNat ↔ made = counted := by
  have hone : (1 : U64).toNat = 1 := rfl
  have hzero : (0 : U64).toNat = 0 := rfl
  rw [BitVec.toNat_add, hn]
  cases made <;> cases counted <;> simp_all <;> omega

/-- What a call that maps does once a block was reserved: it makes the mapping, or it fails, and
the container is the given one. -/
structure Enters (ctx : IommuCtx (KernelVfio κ)) (flags : U64) (vfio : VfioContainer)
    (made : Bool) (r : Except Errno U64 × IommuCtx (KernelVfio κ)) : Prop where
  mapped : ∃ xs, Mapped r.2.map xs
  vfio_eq : r.2.backend.vfio = vfio
  count : r.2.map.ephemerals = ctx.map.ephemerals + (made && ephemeralFlags flags).toNat

/-- The mapping is made just if the kernel accepts it. -/
theorem mapAt_enters (h : Mapped ctx.map xs) (hfree : Unmapped ctx.map vaddr len) :
    Enters ctx flags ctx.backend.vfio
      (kernel.accepts pagesize ctx.backend.kernel vaddr len iova flags)
      (iommuMapAt (kernelVfioOps kernel pagesize hasUnmapAll) ctx vaddr len iova flags) := by
  rw [iommuMapAt, KernelOps.accepts]
  dsimp only [kernelVfioOps, vfioIommuType1DoDmaMap]
  cases aligned (vaddr ||| len ||| iova) pagesize with
  | false =>
      rw [Bool.and_false, Bool.false_and]
      exact ⟨⟨xs, h⟩, rfl, rfl⟩
  | true =>
      rw [Bool.and_true]
      obtain ⟨_ | e, k⟩ := kernel.map ctx.backend.kernel ⟨vaddr, len, iova, dmaMapFlags flags⟩
      · simp only [Bool.not_true, Bool.false_eq_true, if_false, Option.isNone_none, Bool.and_true]
        rw [h.add_eq hfree]
        by_cases hlen : len = 0
        · rw [if_pos hlen, decide_eq_false (not_not.mpr hlen)]
          exact ⟨⟨xs, h⟩, rfl, rfl⟩
        · rw [if_neg hlen, decide_eq_true hlen]
          obtain ⟨xs', h', -⟩ := h.link (m := ⟨vaddr, len, iova, flags⟩) hlen hfree
          exact ⟨⟨xs', h'⟩, rfl, h.ephemerals_link hlen hfree⟩
      · rw [Option.isNone_some, Bool.and_false]
        exact ⟨⟨xs, h⟩, rfl, rfl⟩

theorem mapReserved_enters (h : Mapped ctx.map xs) (hfree : Unmapped ctx.map vaddr len)
    (iova : U64) (vfio : VfioContainer) :
    Enters ctx flags vfio (kernel.accepts pagesize ctx.backend.kernel vaddr len iova flags)
      (iommuMapReserved (kernelVfioOps kernel pagesize hasUnmapAll) ctx vaddr len flags
        (ctx.backend.reserved (.ok (iova, vfio)))) := by
  have henters : Enters { ctx with backend := { ctx.backend with vfio := vfio } } flags vfio
      (kernel.accepts pagesize ctx.backend.kernel vaddr len iova flags)
      (iommuMapAt (kernelVfioOps kernel pagesize hasUnmapAll)
        { ctx with backend := { ctx.backend with vfio := vfio } } vaddr len iova flags) :=
    mapAt_enters h hfree
  exact ⟨henters.mapped, henters.vfio_eq, henters.count⟩

theorem nephemerals_after_supply (vfio : VfioContainer) (got : Option (U64 × FreeList))
    (cut : Option (U64 × U64)) :
    (vfio.after (vfio.supply got cut)).nephemerals = vfio.nephemerals := by
  obtain _ | ⟨iova, fl⟩ := got
  · obtain _ | ⟨iova, next⟩ := cut <;> rfl
  · rfl

theorem nephemerals_after_reserve (pagesize : U64) (vfio : VfioContainer) (len flags : U64)
    (hflags : ephemeralFlags flags = false) :
    (vfio.after (vfioIommuType1IovaReserve pagesize vfio len flags)).nephemerals =
      vfio.nephemerals := by
  have hzero : flags &&& iommuMapEphemeral = 0 := by simpa [ephemeralFlags] using hflags
  rw [vfioIommuType1IovaReserve_eq_supply hzero]
  split_ifs
  · rfl
  · exact nephemerals_after_supply vfio _ _

theorem nephemerals_after_reserveAlign (pagesize : U64) (vfio : VfioContainer)
    (len align : U64) :
    (vfio.after (vfioIommuType1IovaReserveAlign pagesize vfio len align)).nephemerals =
      vfio.nephemerals := by
  rw [vfioIommuType1IovaReserveAlign_eq_supply]
  split_ifs
  · rfl
  · rfl
  · exact nephemerals_after_supply vfio _ _

theorem nephemerals_after_reserve_ephemeral (pagesize : U64) (vfio : VfioContainer)
    (len flags : U64) (hflags : ephemeralFlags flags = true) :
    (vfio.after (vfioIommuType1IovaReserve pagesize vfio len flags)).nephemerals =
      vfio.nephemerals +
        (if (vfioIommuType1IovaReserve pagesize vfio len flags).isOk then 1 else 0) := by
  rcases hres : vfioIommuType1IovaReserve pagesize vfio len flags with e | ⟨iova, vfio'⟩
  · exact (add_zero _).symm
  · obtain ⟨next, -, rfl⟩ := iovaReserve_of_ephemeral (of_decide_eq_true hflags) hres
    rfl

/-- The counter stays right exactly if a mapping with the flag is made just when a block was
counted for it. -/
theorem Enters.counted_iff {vfio : VfioContainer} {made : Bool} (h : Enters ctx flags vfio made r)
    (hcount : ctx.backend.vfio.nephemerals.toNat = ctx.map.ephemerals) (counted : Bool)
    (hplain : ephemeralFlags flags = false →
      vfio.nephemerals = ctx.backend.vfio.nephemerals)
    (hephemeral : ephemeralFlags flags = true →
      vfio.nephemerals = ctx.backend.vfio.nephemerals + (if counted then 1 else 0)) :
    r.2.backend.vfio.nephemerals.toNat = r.2.map.ephemerals ↔
      (ephemeralFlags flags → made = counted) := by
  obtain ⟨xs, hxs⟩ := h.mapped
  have hlt := hxs.ephemerals_lt
  rw [h.count] at hlt
  rw [h.vfio_eq, h.count]
  cases hflags : ephemeralFlags flags with
  | false =>
      rw [hplain hflags, Bool.and_false, hcount]
      exact iff_of_true rfl fun heph => absurd heph Bool.false_ne_true
  | true =>
      rw [hflags, Bool.and_true] at hlt
      rw [hephemeral hflags, Bool.and_true, Iommu.counted_iff hcount hlt]
      exact ⟨fun heq _ => heq, fun heq => heq rfl⟩

/-- A call of `iommu_map_vaddr` keeps the counter right exactly if it is balanced. -/
theorem mapVaddr_counted (h : Mapped ctx.map xs)
    (hcount : ctx.backend.vfio.nephemerals.toNat = ctx.map.ephemerals)
    (hclear : Clear ctx.map vaddr len)
    (hmaps : MapsVaddr (kernelVfioOps kernel pagesize hasUnmapAll) ctx vaddr len iova flags r) :
    r.2.backend.vfio.nephemerals.toNat = r.2.map.ephemerals ↔
      Balanced kernel pagesize hasUnmapAll ctx (.map vaddr len iova flags) := by
  rw [Balanced]
  cases hmaps with
  | found got hfound =>
      exact iff_of_true hcount fun _ hmiss => absurd (hfound ▸ hmiss) (Option.some_ne_none _)
  | fixed hmiss hfixed =>
      rw [(mapAt_enters h (hclear.unmapped h hmiss)).counted_iff hcount false
        (fun _ => rfl) (fun _ => (add_zero _).symm), if_pos hfixed]
      exact ⟨fun hmade heph _ => hmade heph, fun hbalanced heph => hbalanced heph hmiss⟩
  | chosen _ _ hnone => exact absurd hnone (Option.some_ne_none _)
  | reserved hmiss hplain res hops =>
      obtain rfl := Option.some.inj hops
      have hnone := nephemerals_after_reserve pagesize ctx.backend.vfio len flags
      have hone := nephemerals_after_reserve_ephemeral pagesize ctx.backend.vfio len flags
      dsimp only
      rw [if_neg (not_not.mpr hplain)]
      rcases hres : vfioIommuType1IovaReserve pagesize ctx.backend.vfio len flags
        with e | ⟨iova, vfio⟩
      · exact iff_of_true hcount fun _ _ _ _ hok => nomatch hok
      · rw [hres] at hnone hone
        rw [(mapReserved_enters h (hclear.unmapped h hmiss) iova vfio).counted_iff
          hcount true hnone hone]
        constructor
        · rintro hmade heph - iova' vfio' ⟨⟩
          exact hmade heph
        · exact fun hbalanced heph => hbalanced heph hmiss iova vfio rfl

/-- A call of `iommu_map_vaddr_align` keeps the counter right exactly if it is balanced. -/
theorem mapVaddrAlign_counted (h : Mapped ctx.map xs)
    (hcount : ctx.backend.vfio.nephemerals.toNat = ctx.map.ephemerals)
    (hclear : Clear ctx.map vaddr len)
    (hmaps : MapsVaddrAlign (kernelVfioOps kernel pagesize hasUnmapAll) ctx vaddr len align
      flags r) :
    r.2.backend.vfio.nephemerals.toNat = r.2.map.ephemerals ↔
      Balanced kernel pagesize hasUnmapAll ctx (.mapAlign vaddr len align flags) := by
  rw [Balanced]
  cases hmaps with
  | refused hfixed => exact iff_of_true hcount fun _ hplain => absurd hplain hfixed
  | found got hfound =>
      exact iff_of_true hcount fun _ _ hmiss => absurd (hfound ▸ hmiss) (Option.some_ne_none _)
  | unsupported hnone => exact absurd hnone (Option.some_ne_none _)
  | reserved hmiss hplain res hops =>
      obtain rfl := Option.some.inj hops
      have hsame := nephemerals_after_reserveAlign pagesize ctx.backend.vfio len align
      dsimp only
      rcases hres : vfioIommuType1IovaReserveAlign pagesize ctx.backend.vfio len align
        with e | ⟨iova, vfio⟩
      · exact iff_of_true hcount fun _ _ _ _ _ hok => nomatch hok
      · rw [hres] at hsame
        rw [(mapReserved_enters h (hclear.unmapped h hmiss) iova vfio).counted_iff
          hcount false (fun _ => hsame) (fun _ => hsame.trans (add_zero _).symm)]
        constructor
        · rintro hmade heph - - iova' vfio' ⟨⟩
          exact hmade heph
        · exact fun hbalanced heph => hbalanced heph hplain hmiss iova vfio rfl

theorem vfioIovaPut_nephemerals (vfio : VfioContainer) (iova len : U64) :
    (vfioIovaPut vfio iova len).nephemerals = vfio.nephemerals := by
  rw [vfioIovaPut]
  split_ifs <;> rfl

def VfioContainer.remove (vfio : VfioContainer) (m : IovaMapping) : VfioContainer :=
  if m.ephemeral then vfioIommuType1IovaPutEphemeral (vfioIovaPut vfio m.iova m.len)
  else vfioIovaPut vfio m.iova m.len

theorem putEphemeral_vfio {vfio : VfioContainer} (m : IovaMapping) (s : KernelVfio κ)
    (hput : s.vfio = vfioIovaPut vfio m.iova m.len) :
    (putEphemeral (kernelVfioOps kernel pagesize hasUnmapAll) m.flags s).vfio = vfio.remove m := by
  rw [VfioContainer.remove, ← hput]
  dsimp only [putEphemeral, kernelVfioOps]
  cases heph : m.ephemeral with
  | false =>
      rw [if_neg (of_decide_eq_false heph)]
      rfl
  | true =>
      rw [if_pos (of_decide_eq_true heph)]
      rfl

theorem remove_nephemerals (vfio : VfioContainer) (m : IovaMapping) :
    (vfio.remove m).nephemerals = vfio.nephemerals - (if m.ephemeral then 1 else 0) := by
  have hput := vfioIovaPut_nephemerals vfio m.iova m.len
  rw [VfioContainer.remove]
  split_ifs
  · rw [← hput]
    dsimp only [vfioIommuType1IovaPutEphemeral]
    split_ifs <;> rfl
  · rw [hput]
    exact (sub_zero _).symm

theorem unmapVaddr_counted (h : Mapped ctx.map xs)
    (hcount : ctx.backend.vfio.nephemerals.toNat = ctx.map.ephemerals)
    (hunmaps : Unmaps (kernelVfioOps kernel pagesize hasUnmapAll) ctx xs vaddr r) :
    r.2.backend.vfio.nephemerals.toNat = r.2.map.ephemerals := by
  cases hunmaps with
  | missing => exact hcount
  | refused i e backend hi hin hunmap =>
      dsimp only
      rw [vfioIommuType1DoDmaUnmap_error hunmap]
      exact hcount
  | removed l r' i backend hxs hin hunmap =>
      subst hxs
      have hsplit := h.ephemerals_remove
      dsimp only
      rw [putEphemeral_vfio _ _ (vfioIommuType1DoDmaUnmap_ok hunmap), remove_nephemerals]
      have hone : (1 : U64).toNat = 1 := rfl
      cases heph : (ctx.map.mapping (.entry i)).ephemeral with
      | false =>
          rw [heph] at hsplit
          exact (congrArg BitVec.toNat (sub_zero _)).trans (hcount.trans hsplit)
      | true =>
          rw [heph] at hsplit
          have hsub : (ctx.backend.vfio.nephemerals - 1).toNat = _ :=
            BitVec.toNat_sub_of_le (BitVec.le_def.mpr (by rw [hone, hcount, hsplit]; simp))
          rw [if_pos rfl, hsub, hcount, hsplit, hone]
          simp

/-- What removing all mappings does to the container. -/
theorem UnmapsAll.vfio_eq {res : Except Errno Unit × IommuCtx (KernelVfio κ)}
    (h : Mapped ctx.map xs)
    (hunmaps : UnmapsAll (kernelVfioOps kernel pagesize hasUnmapAll) ctx res) :
    (res.1.isOk = false ∧ res.2.map = ctx.map ∧ res.2.backend.vfio = ctx.backend.vfio) ∨
      (res.1.isOk = true ∧ res.2.map.held = [] ∧ res.2.backend.vfio =
        if hasUnmapAll then ctx.backend.vfio.clearFree
        else ctx.backend.vfio.putAll ctx.map.held) := by
  have hall := vfioIommuType1DoDmaUnmapAll_vfio kernel ctx.backend
  cases hunmaps with
  | refused unmapAll e backend hops hunmap =>
      obtain ⟨-, rfl⟩ := kernelVfioOps_dmaUnmapAll hops
      rw [hunmap] at hall
      exact .inl ⟨rfl, rfl, hall⟩
  | atOnce unmapAll backend hops hunmap =>
      obtain ⟨hhas, rfl⟩ := kernelVfioOps_dmaUnmapAll hops
      rw [hunmap] at hall
      rw [if_pos hhas]
      exact .inr ⟨rfl, h.clear_held.1, hall⟩
  | oneByOne backend hops hunmap =>
      have hhas : ¬hasUnmapAll = true := fun hhas => by
        rw [kernelVfioOps, if_pos hhas] at hops
        cases hops
      rw [if_neg hhas]
      rw [h.clear_held.2] at hunmap
      exact .inr ⟨rfl, h.clear_held.1, unmapMappings_vfio hunmap⟩

theorem UnmapsAll.vfio_of_ok (h : Mapped ctx.map xs)
    (hunmaps : UnmapsAll (kernelVfioOps kernel pagesize hasUnmapAll) ctx (.ok (), ctx')) :
    ctx'.map.held = [] ∧ ctx'.backend.vfio =
      if hasUnmapAll then ctx.backend.vfio.clearFree
      else ctx.backend.vfio.putAll ctx.map.held := by
  rcases hunmaps.vfio_eq h with ⟨hno, -⟩ | ⟨-, hok⟩
  · cases hno
  · exact hok

theorem UnmapsAll.nephemerals {res : Except Errno Unit × IommuCtx (KernelVfio κ)}
    (h : Mapped ctx.map xs)
    (hunmaps : UnmapsAll (kernelVfioOps kernel pagesize hasUnmapAll) ctx res) :
    res.2.backend.vfio.nephemerals = ctx.backend.vfio.nephemerals := by
  rcases hunmaps.vfio_eq h with ⟨-, -, hvfio⟩ | ⟨-, -, hvfio⟩
  · rw [hvfio]
  · obtain ⟨fl, hfl⟩ := putAll_eq ctx.backend.vfio ctx.map.held
    rw [hvfio, hfl]
    split_ifs <;> rfl

theorem unmapMappings_isSome (kernel : KernelOps κ) (pagesize : U64) (hasUnmapAll : Bool)
    (ms : List IovaMapping) (s : KernelVfio κ) :
    (unmapMappings (kernelVfioOps kernel pagesize hasUnmapAll) ms s).isSome =
      kernel.unmapsEach ms s.kernel := by
  induction ms generalizing s with
  | nil => rfl
  | cons m ms ih =>
      rw [unmapMappings, KernelOps.unmapsEach]
      dsimp only [kernelVfioOps, vfioIommuType1DoDmaUnmap]
      obtain ⟨_ | e, k⟩ := kernel.unmap s.kernel m.iova m.len
      · exact ih ⟨vfioIovaPut s.vfio m.iova m.len, k⟩
      · rfl

/-- All mappings are removed just if the kernel agrees to unmap everything. -/
theorem iommuUnmapAll_any (h : Mapped ctx.map xs) :
    (iommuUnmapAll (kernelVfioOps kernel pagesize hasUnmapAll) ctx).any (·.1.isOk) =
      kernel.unmapsAll hasUnmapAll ctx.backend.kernel ctx.map.held := by
  rw [iommuUnmapAll, h.clear_held.2]
  cases hasUnmapAll with
  | true =>
      have hops : (kernelVfioOps kernel pagesize true).dmaUnmapAll =
        some (vfioIommuType1DoDmaUnmapAll kernel) := rfl
      have hall : kernel.unmapsAll true ctx.backend.kernel ctx.map.held =
        (kernel.unmapAll ctx.backend.kernel).1.isNone := rfl
      rw [hops, hall]
      dsimp only [vfioIommuType1DoDmaUnmapAll]
      obtain ⟨_ | e, k⟩ := kernel.unmapAll ctx.backend.kernel
      · rfl
      · rfl
  | false =>
      have hops : (kernelVfioOps kernel pagesize false).dmaUnmapAll = none := rfl
      have hall : kernel.unmapsAll false ctx.backend.kernel ctx.map.held =
        kernel.unmapsEach ctx.map.held ctx.backend.kernel := rfl
      rw [hops, hall, ← unmapMappings_isSome kernel pagesize false ctx.map.held ctx.backend]
      cases unmapMappings (kernelVfioOps kernel pagesize false) ctx.map.held ctx.backend with
      | none => rfl
      | some backend => rfl

theorem unmapAll_counted (h : Mapped ctx.map xs)
    (hcount : ctx.backend.vfio.nephemerals.toNat = ctx.map.ephemerals)
    {res : Except Errno Unit × IommuCtx (KernelVfio κ)}
    (hres : iommuUnmapAll (kernelVfioOps kernel pagesize hasUnmapAll) ctx = some res) :
    res.2.backend.vfio.nephemerals.toNat = res.2.map.ephemerals ↔
      Balanced kernel pagesize hasUnmapAll ctx .unmapAll := by
  have hunmaps := iommuUnmapAll_spec hres
  rw [hunmaps.nephemerals h, hcount, Balanced, ← iommuUnmapAll_any h, hres, Option.any_some]
  cases hunmaps with
  | refused => exact iff_of_true rfl fun hok => absurd hok Bool.false_ne_true
  | atOnce =>
      dsimp only
      rw [h.ephemerals_clear, ephemerals_eq_zero_iff]
      exact ⟨fun hnone _ => hnone, fun hnone => hnone rfl⟩
  | oneByOne =>
      dsimp only
      rw [h.ephemerals_clear, ephemerals_eq_zero_iff]
      exact ⟨fun hnone _ => hnone, fun hnone => hnone rfl⟩

/-- A call keeps the counter right exactly if it is balanced. -/
theorem counted_step (call : DmaOp) (h : Mapped ctx.map xs)
    (hcount : ctx.backend.vfio.nephemerals.toNat = ctx.map.ephemerals) (hclear : call.Clear ctx)
    (hstep : dmaStep (kernelVfioOps kernel pagesize hasUnmapAll) ctx call = some ctx') :
    ctx'.backend.vfio.nephemerals.toNat = ctx'.map.ephemerals ↔
      Balanced kernel pagesize hasUnmapAll ctx call := by
  cases call with
  | map vaddr len iova flags =>
      obtain rfl := Option.some.inj hstep
      exact mapVaddr_counted h hcount hclear (iommuMapVaddr_maps _ ctx vaddr len iova flags)
  | mapAlign vaddr len align flags =>
      obtain rfl := Option.some.inj hstep
      exact mapVaddrAlign_counted h hcount hclear
        (iommuMapVaddrAlign_maps _ ctx vaddr len align flags)
  | unmap vaddr =>
      obtain rfl := Option.some.inj hstep
      exact iff_of_true (unmapVaddr_counted h hcount (iommuUnmapVaddr_spec h)) trivial
  | unmapAll =>
      obtain ⟨res, hres, rfl⟩ := Option.map_eq_some_iff.mp hstep
      exact unmapAll_counted h hcount hres

end Calls

/-- In a run of calls whose blocks are clear, the kernel answering as it likes, the counter of
ephemeral mappings is right at any time if and only if every call is balanced. -/
theorem ephemerals_counted_iff {κ : Type*} (kernel : KernelOps κ) (pagesize : U64)
    (hasUnmapAll : Bool) (rand : ℕ → Bool) (garbage : IovaMapping)
    (ctx : IommuCtx (KernelVfio κ)) (hmap : ctx.map = iovaMapInit rand garbage)
    (hzero : ctx.backend.vfio.nephemerals = 0) (calls : List DmaOp)
    (hclear : MeetsAlong (dmaStep (kernelVfioOps kernel pagesize hasUnmapAll)) DmaOp.Clear ctx
      calls) :
    (∀ pre ctx', pre <+: calls →
      run (dmaStep (kernelVfioOps kernel pagesize hasUnmapAll)) ctx pre = some ctx' →
        EphemeralsCounted ctx') ↔
      MeetsAlong (dmaStep (kernelVfioOps kernel pagesize hasUnmapAll))
        (Balanced kernel pagesize hasUnmapAll) ctx calls := by
  have hmapped : Mapped ctx.map [] := hmap ▸ mapped_init rand garbage
  have hcount : ctx.backend.vfio.nephemerals.toNat = ctx.map.ephemerals := by
    rw [hzero, IovaMap.ephemerals, hmapped.held_eq]
    rfl
  refine good_along_iff_of_meets
    (fun s call s' (hs : ∃ xs, Mapped s.map xs) _ hcall hstep _ => mapped_step call hs hcall hstep)
    ?_ ?_ ⟨[], hmapped⟩ (ephemeralsCounted_of_count hcount) hclear
  · rintro s call s' ⟨xs, hs⟩ hgood hcall hstep
    rw [← counted_step call hs hgood.count hcall hstep]
    exact ⟨EphemeralsCounted.count, ephemeralsCounted_of_count⟩
  · rintro s (_ | _ | _ | _) ⟨xs, hs⟩ _ _ hstep
    · cases hstep
    · cases hstep
    · cases hstep
    · rw [Balanced, ← iommuUnmapAll_any hs, Option.map_eq_none_iff.mp hstep]
      exact fun hok => absurd hok Bool.false_ne_true

def scriptedKernel : KernelOps (List (Option Errno)) where
  map := fun answers _ => (answers.headD none, answers.tail)
  unmap := fun answers _ _ => (answers.headD none, answers.tail)
  unmapAll := fun answers => (answers.headD none, answers.tail)

def scriptedCtx (answers : List (Option Errno)) : IommuCtx (KernelVfio (List (Option Errno))) :=
  ⟨iovaMapInit (fun _ => true) ⟨0, 0, 0, 0⟩, 0, 0, ⟨pageContainer, answers⟩⟩

def ephemeralsAfter (answers : List (Option Errno)) (calls : List DmaOp) :
    Option (U64 × U64 × List IovaMapping) :=
  (run (dmaStep (kernelVfioOps scriptedKernel 0x1000 true)) (scriptedCtx answers) calls).map
    fun ctx => (ctx.backend.vfio.nephemerals, ctx.backend.vfio.nextEphemeral, ctx.map.held)

/-- The kernel refuses an ephemeral mapping: it counts, but is not there. All mappings are
removed at once: one still counts. An ephemeral mapping has a fixed address: the counter
underflows when it is removed, or the range is used again while another mapping lies in
it. -/
theorem ephemerals_miscounted :
    ephemeralsAfter [some .EINVAL] [.map 0x100000 0x1000 0 iommuMapEphemeral] =
        some (1, 0x2000, []) ∧
      ephemeralsAfter [] [.map 0x100000 0x1000 0 iommuMapEphemeral, .unmapAll] =
        some (1, 0x2000, []) ∧
      ephemeralsAfter [] [.map 0x100000 0x1000 0x20000 (iommuMapFixedIova ||| iommuMapEphemeral),
          .unmap 0x100000] = some (0xffffffffffffffff, 0, []) ∧
      ephemeralsAfter [] [.map 0x100000 0x1000 0 iommuMapEphemeral,
          .map 0x200000 0x1000 0x20000 (iommuMapFixedIova ||| iommuMapEphemeral),
          .unmap 0x200000] =
        some (0, 0x1000, [⟨0x100000, 0x1000, 0x1000, iommuMapEphemeral⟩]) ∧
      ∃ ctx, run (dmaStep (kernelVfioOps scriptedKernel 0x1000 true)) (scriptedCtx [some .EINVAL])
          [.map 0x100000 0x1000 0 iommuMapEphemeral] = some ctx ∧ ¬ EphemeralsCounted ctx := by
  refine ⟨by decide +kernel, by decide +kernel, by decide +kernel, by decide +kernel, _, rfl, ?_⟩
  intro hcounted
  exact absurd hcounted.count (by decide +kernel)

/-- An ephemeral mapping is made and removed, and the range is used again. -/
theorem ephemerals_counted_one :
    let calls := [DmaOp.map 0x100000 0x1000 0 iommuMapEphemeral, .unmap 0x100000]
    ephemeralsAfter [] calls = some (0, 0x1000, []) ∧
      ∀ pre ctx', pre <+: calls →
        run (dmaStep (kernelVfioOps scriptedKernel 0x1000 true)) (scriptedCtx []) pre = some ctx' →
          EphemeralsCounted ctx' := by
  intro calls
  have hclear : MeetsAlong (dmaStep (kernelVfioOps scriptedKernel 0x1000 true)) DmaOp.Clear
      (scriptedCtx []) calls := by
    refine meetsAlong_cons rfl (.inr ⟨by decide, ?_⟩) (meetsAlong_cons rfl trivial trivial)
    exact fun m hm => absurd hm List.not_mem_nil
  refine ⟨by decide +kernel, ?_⟩
  refine (ephemerals_counted_iff scriptedKernel 0x1000 true (fun _ => true) ⟨0, 0, 0, 0⟩
    (scriptedCtx []) rfl rfl calls hclear).mpr ?_
  refine meetsAlong_cons rfl (fun _ _ => ?_) (meetsAlong_cons rfl trivial trivial)
  rw [if_neg (by decide)]
  intro iova vfio hres
  have hiova : (vfioIommuType1IovaReserve 0x1000 pageContainer 0x1000 iommuMapEphemeral).map
    Prod.fst = .ok 0x1000 := rfl
  rw [show pageContainer = (scriptedCtx []).backend.vfio from rfl, hres] at hiova
  rw [show iova = 0x1000 from Except.ok.inj hiova]
  rfl

end Iommu

end Libvfn
