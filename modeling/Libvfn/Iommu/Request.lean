import Libvfn.Iommu.Intervals

/-!
# What a successful mapping covers

A call that maps a block whose first address is mapped already succeeds at once. It returns
what this address translates to and does not look at the length, so that the rest of the block
may be mapped elsewhere, or not at all. The whole block is translated if it was not mapped
before, or if mappings cover all of it and shift it by the same distance (`Backed`), and only
then.
-/

namespace Libvfn

namespace Iommu

open Word Support

/-- Every byte of the block translates to the byte at the same offset from `iova`. -/
def TranslatesAll (map : IovaMap) (vaddr len iova : U64) : Prop :=
  ∀ o : U64, o < len → iommuTranslateVaddr map (vaddr + o) = some (iova + o)

/-- Mappings cover the whole block, and all shift it by the same distance. -/
def Backed (map : IovaMap) (vaddr len : U64) : Prop :=
  ∃ shift : U64, ∀ o : U64, o < len →
    ∃ m ∈ map.held, (vaddr + o).toNat ∈ addresses m.vaddr m.len ∧ m.iova = m.vaddr + shift

variable {map : IovaMap} {xs : List ℕ} {vaddr len iova flags : U64}

theorem TranslatesAll.first (h : TranslatesAll map vaddr len iova) (hlen : len ≠ 0) :
    iommuTranslateVaddr map vaddr = some iova := by
  have hzero := h 0 (BitVec.lt_def.mpr (BitVec.toNat_pos_of_ne_zero hlen))
  rwa [add_zero, add_zero] at hzero

theorem Mapped.translatesAll_of_shift (h : Mapped map xs) (shift : U64)
    (hshift : ∀ o : U64, o < len → ∃ m ∈ map.held,
      (vaddr + o).toNat ∈ addresses m.vaddr m.len ∧ m.iova = m.vaddr + shift) :
    TranslatesAll map vaddr len (vaddr + shift) := by
  intro o ho
  obtain ⟨m, hm, hin, hiova⟩ := hshift o ho
  refine h.translate_eq_some_iff.mpr ⟨m, hm, hin, ?_⟩
  rw [hiova]
  grind

theorem Mapped.backed_iff (h : Mapped map xs) :
    Backed map vaddr len ↔ ∃ iova, TranslatesAll map vaddr len iova := by
  constructor
  · rintro ⟨shift, hshift⟩
    exact ⟨_, h.translatesAll_of_shift shift hshift⟩
  · rintro ⟨iova, hall⟩
    refine ⟨iova - vaddr, fun o ho => ?_⟩
    obtain ⟨m, hm, hin, hiova⟩ := h.translate_eq_some_iff.mp (hall o ho)
    exact ⟨m, hm, hin, by grind⟩

theorem Mapped.translatesAll_link (h : Mapped map xs) (hlen : len ≠ 0)
    (hfree : Unmapped map vaddr len) :
    TranslatesAll (iovaMapLink map ⟨vaddr, len, iova, flags⟩) vaddr len iova := by
  obtain ⟨xs', h', hperm⟩ := h.link (m := ⟨vaddr, len, iova, flags⟩) hlen hfree
  intro o ho
  have hsum : (vaddr + o).toNat = vaddr.toNat + o.toNat :=
    BitVec.toNat_add_of_lt (by have := hfree.1; have := BitVec.lt_def.mp ho; omega)
  refine h'.translate_eq_some_iff.mpr ⟨_, hperm.mem_iff.mpr List.mem_cons_self, ?_, ?_⟩
  · rw [hsum]
    exact ⟨Nat.le_add_right _ _, Nat.add_lt_add_left (BitVec.lt_def.mp ho) _⟩
  · rw [add_sub_cancel_left]

/-! ## The call -/

section Call

variable {σ : Type*} {ops : IommuCtxOps σ} {ctx ctx' : IommuCtx σ} {iova' : U64}

theorem iommuMapAt_eq_ok (hok : iommuMapAt ops ctx vaddr len iova flags = (.ok iova', ctx')) :
    len ≠ 0 ∧ ctx'.map = iovaMapLink ctx.map ⟨vaddr, len, iova', flags⟩ := by
  rw [iommuMapAt] at hok
  rcases hdma : ops.dmaMap ctx.backend vaddr len iova flags with ⟨e | got, backend⟩
  · rw [hdma] at hok
    simp at hok
  · rw [hdma] at hok
    dsimp only at hok
    cases hadd : iovaMapAdd ctx.map vaddr len got flags with
    | error e =>
        rw [hadd] at hok
        simp at hok
    | ok map' =>
        rw [hadd] at hok
        obtain ⟨hgot, rfl⟩ := Prod.mk.inj hok
        obtain rfl := Except.ok.inj hgot
        obtain ⟨hlen, -, rfl⟩ := iovaMapAdd_eq_ok hadd
        exact ⟨hlen, rfl⟩

theorem iommuMapReserved_eq_ok {res : Except Errno U64 × σ}
    (hok : iommuMapReserved ops ctx vaddr len flags res = (.ok iova', ctx')) :
    len ≠ 0 ∧ ctx'.map = iovaMapLink ctx.map ⟨vaddr, len, iova', flags⟩ := by
  obtain ⟨e | got, backend⟩ := res
  · simp [iommuMapReserved] at hok
  · have hat : iommuMapAt ops { ctx with backend := backend } vaddr len got flags =
        (.ok iova', ctx') := hok
    obtain ⟨hlen, hmap⟩ := iommuMapAt_eq_ok hat
    exact ⟨hlen, hmap⟩

theorem iommuMapVaddr_eq_ok
    (hok : iommuMapVaddr ops ctx vaddr len iova flags = (.ok iova', ctx')) :
    (iommuTranslateVaddr ctx.map vaddr = some iova' ∧ ctx' = ctx) ∨
      (iommuTranslateVaddr ctx.map vaddr = none ∧ len ≠ 0 ∧
        ctx'.map = iovaMapLink ctx.map ⟨vaddr, len, iova', flags⟩) := by
  have hmaps := iommuMapVaddr_maps ops ctx vaddr len iova flags
  generalize iommuMapVaddr ops ctx vaddr len iova flags = r at hok hmaps
  cases hmaps with
  | found got hfound =>
      obtain ⟨hgot, rfl⟩ := Prod.mk.inj hok
      exact .inl ⟨hfound.trans (congrArg some (Except.ok.inj hgot)), rfl⟩
  | fixed hmiss => exact .inr ⟨hmiss, iommuMapAt_eq_ok hok⟩
  | chosen hmiss => exact .inr ⟨hmiss, iommuMapAt_eq_ok hok⟩
  | reserved hmiss => exact .inr ⟨hmiss, iommuMapReserved_eq_ok hok⟩

/-- After calls whose blocks are clear, a successful call covers its whole block if the block
was not mapped at all or was backed, and otherwise, if it is clear itself, it does not. -/
theorem iommuMapVaddr_covers_iff (ops : IommuCtxOps σ) (rand : ℕ → Bool) (garbage : IovaMapping)
    (ctx₀ : IommuCtx σ) (hmap : ctx₀.map = iovaMapInit rand garbage) (calls : List DmaOp)
    (ctx : IommuCtx σ) (hclear : Runs.MeetsAlong (dmaStep ops) DmaOp.Clear ctx₀ calls)
    (hrun : Runs.run (dmaStep ops) ctx₀ calls = some ctx) (vaddr len iova flags : U64)
    (hlen : len ≠ 0) (iova' : U64) (ctx' : IommuCtx σ)
    (hok : iommuMapVaddr ops ctx vaddr len iova flags = (.ok iova', ctx')) :
    (Unmapped ctx.map vaddr len ∨ Backed ctx.map vaddr len →
        TranslatesAll ctx'.map vaddr len iova') ∧
      (Clear ctx.map vaddr len → TranslatesAll ctx'.map vaddr len iova' →
        Unmapped ctx.map vaddr len ∨ Backed ctx.map vaddr len) := by
  have hinit : ∃ xs, Mapped ctx₀.map xs := ⟨[], hmap ▸ mapped_init rand garbage⟩
  obtain ⟨xs, h⟩ : ∃ xs, Mapped ctx.map xs :=
    Runs.run_invariant (fun _ call _ => mapped_step call) hinit hclear hrun
  rcases iommuMapVaddr_eq_ok hok with ⟨htranslate, rfl⟩ | ⟨hmiss, -, hlink⟩
  · refine ⟨fun hserved => ?_, fun _ hall => .inr (h.backed_iff.mpr ⟨iova', hall⟩)⟩
    rcases hserved with hfree | hbacked
    · obtain ⟨m, hm, hin, -⟩ := h.translate_eq_some_iff.mp htranslate
      exact absurd hin (Set.disjoint_left.mp (hfree.2 m hm) (start_mem_addresses hlen))
    · obtain ⟨got, hall⟩ := h.backed_iff.mp hbacked
      obtain rfl := Option.some.inj (htranslate.symm.trans (hall.first hlen))
      exact hall
  · refine ⟨fun hserved => ?_, fun hblock _ => .inl (hblock.unmapped h hmiss)⟩
    rcases hserved with hfree | hbacked
    · rw [hlink]
      exact h.translatesAll_link hlen hfree
    · obtain ⟨got, hall⟩ := h.backed_iff.mp hbacked
      exact absurd (hmiss.symm.trans (hall.first hlen)) (Option.some_ne_none _).symm

/-- One page is mapped, and then the page behind it. -/
theorem iommuMapVaddr_covers_iff_two_pages :
    let ctx := (iommuMapVaddr identityOps (identityCtx fun _ => true) 0x1000 0x1000 0 0).2
    let res := iommuMapVaddr identityOps ctx 0x2000 0x1000 0 0
    res.1 = .ok 0x2000 ∧ TranslatesAll res.2.map 0x2000 0x1000 0x2000 := by
  intro ctx res
  have hres : res.1 = .ok 0x2000 := by decide +kernel
  have hheld : ctx.map.held = [⟨0x1000, 0x1000, 0x1000, 0⟩] := by decide +kernel
  have hclear : Runs.MeetsAlong (dmaStep identityOps) DmaOp.Clear (identityCtx fun _ => true)
      [.map 0x1000 0x1000 0 0] :=
    Runs.meetsAlong_cons rfl
      (.inr ⟨by decide, fun m hm => absurd hm List.not_mem_nil⟩) trivial
  have hfree : Unmapped ctx.map 0x2000 0x1000 := by
    refine ⟨by decide, fun m hm => ?_⟩
    rw [hheld, List.mem_singleton] at hm
    rw [hm]
    exact (disjoint_addresses_of_le (by decide)).symm
  have hok : res = (.ok 0x2000, res.2) := by rw [← hres]
  exact ⟨hres, (iommuMapVaddr_covers_iff identityOps (fun _ => true) ⟨0, 0, 0, 0⟩ _ rfl _ ctx
    hclear rfl 0x2000 0x1000 0 0 (by decide) 0x2000 res.2 hok).1 (.inl hfree)⟩

/-- A page is mapped, and three pages from the same address on are to be mapped. The call
succeeds, and the second page is still not mapped. -/
theorem iommuMapVaddr_covers_first_page :
    let ctx := (iommuMapVaddr identityOps (identityCtx fun _ => true) 0x1000 0x1000 0 0).2
    let res := iommuMapVaddr identityOps ctx 0x1000 0x3000 0 0
    res.1 = .ok 0x1000 ∧ iommuTranslateVaddr res.2.map 0x2000 = none ∧
      ¬TranslatesAll res.2.map 0x1000 0x3000 0x1000 := by
  intro ctx res
  have hmiss : iommuTranslateVaddr res.2.map 0x2000 = none := by decide +kernel
  refine ⟨by decide +kernel, hmiss, fun hall => ?_⟩
  have hpage := hall 0x1000 (by decide)
  rw [show (0x1000 : U64) + 0x1000 = 0x2000 from by decide, hmiss] at hpage
  exact absurd hpage.symm (Option.some_ne_none _)

end Call

end Iommu

end Libvfn
