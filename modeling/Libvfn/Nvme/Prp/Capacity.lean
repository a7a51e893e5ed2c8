import Libvfn.Nvme.Prp.Validate
import Mathlib.Order.Interval.Finset.Nat

/-!
# The capacity check

A buffer fits when the pages it touches, without the first, fit into the list pages.
`nvme_map_prp` compares a count that went through an `int`, so a buffer is counted
modulo `2 ^ 32` bytes, and one whose count comes out as `-1` passes as well.
`CountHolds` lists the buffers for which this makes no difference: those below
`2 ^ 31` bytes behind their first page, and those that are too large and are still
too large, or negative, as they are counted.
-/

namespace Libvfn

namespace Nvme

open Word Support Iommu

variable {pageshift : ℕ}

def pagesTouched (pageshift : ℕ) (iova : U64) (len : ℕ) : ℕ :=
  ((Finset.Ico iova.toNat (iova.toNat + len)).image (· / 2 ^ pageshift)).card

/-- The number of further pages passes the comparison with `room` as an `int` holds it:
it is `-1`, or neither negative nor more than `room`. -/
def CountPasses (pageshift room pages : ℕ) : Prop :=
  pages % 2 ^ (32 - pageshift) = 2 ^ (32 - pageshift) - 1 ∨
    pages % 2 ^ (32 - pageshift) < 2 ^ (31 - pageshift) ∧ pages % 2 ^ (32 - pageshift) ≤ room

/-- The number of further pages is held by an `int`, or there are too many and they do
not pass. -/
def CountHolds (pageshift room pages : ℕ) : Prop :=
  pages < 2 ^ (31 - pageshift) ∨ room < pages ∧ ¬CountPasses pageshift room pages

/-- A call accepts the buffers that fit and refuses the others, and what it accepts
is read back as the whole buffer. -/
def CapacityExact (ctrl : NvmeCtrl) (prplistIova : U64) (nprplists : ℕ) (iova len : U64)
    (out : PrpOutcome) : Prop :=
  let fits := pagesTouched ctrl.pageshift iova len.toNat ≤ listRoom ctrl.pageshift nprplists + 1
  (out.ret = .ok () ↔ fits) ∧
    (¬fits → out.ret = .error .EINVAL) ∧
    (2 ^ ctrl.pageshift ∣ prplistIova.toNat → out.ret = .ok () →
      prpWalk (listRead prplistIova out.stores) (2 ^ ctrl.pageshift) out.cmd.dptr len.toNat =
        some (byteRange iova len.toNat))

/-! ## Counting pages -/

theorem image_div_Ico {pagesize : ℕ} (hpos : 0 < pagesize) (a : ℕ) {len : ℕ} (hlen : 0 < len) :
    (Finset.Ico a (a + len)).image (· / pagesize) =
      Finset.Icc (a / pagesize) ((a + len - 1) / pagesize) := by
  ext page
  simp only [Finset.mem_image, Finset.mem_Ico, Finset.mem_Icc]
  constructor
  · rintro ⟨addr, ⟨hlo, hhi⟩, rfl⟩
    exact ⟨Nat.div_le_div_right hlo, Nat.div_le_div_right (by omega)⟩
  · rintro ⟨hlo, hhi⟩
    have hstart : page * pagesize ≤ a + len - 1 := (Nat.le_div_iff_mul_le hpos).mp hhi
    -- the first byte of the page, unless the buffer starts inside it
    by_cases hinside : a ≤ page * pagesize
    · exact ⟨page * pagesize, ⟨hinside, by omega⟩, Nat.mul_div_cancel _ hpos⟩
    · have hle : page ≤ a / pagesize := (Nat.le_div_iff_mul_le hpos).mpr (by omega)
      exact ⟨a, ⟨le_rfl, by omega⟩, le_antisymm hlo hle⟩

theorem pagesAfter_eq (pageshift : ℕ) (iova : U64) {len : ℕ} (hlen : 0 < len) :
    pagesAfter pageshift iova len = (iova.toNat % 2 ^ pageshift + len - 1) / 2 ^ pageshift := by
  have hpos : 0 < 2 ^ pageshift := by positivity
  have hmod : iova.toNat % 2 ^ pageshift < 2 ^ pageshift := Nat.mod_lt _ hpos
  rw [pagesAfter, firstChunk]
  rcases le_total len (2 ^ pageshift - iova.toNat % 2 ^ pageshift) with hshort | hlong
  · rw [Nat.min_eq_left hshort, Nat.div_eq_of_lt (by omega), Nat.div_eq_of_lt (by omega)]
  · rw [Nat.min_eq_right hlong]
    congr 1
    omega

theorem pagesTouched_sub_one (pageshift : ℕ) (iova : U64) (len : ℕ) :
    pagesTouched pageshift iova len - 1 = pagesAfter pageshift iova len := by
  have hpos : 0 < 2 ^ pageshift := by positivity
  rcases Nat.eq_zero_or_pos len with rfl | hlen
  · have hdiv : (2 ^ pageshift - 1) / 2 ^ pageshift = 0 := Nat.div_eq_of_lt (by omega)
    simp [pagesTouched, pagesAfter, hdiv]
  · have hsplit : iova.toNat + len - 1 =
        iova.toNat % 2 ^ pageshift + len - 1 + 2 ^ pageshift * (iova.toNat / 2 ^ pageshift) := by
      have := Nat.mod_add_div iova.toNat (2 ^ pageshift)
      omega
    rw [pagesTouched, image_div_Ico hpos _ hlen, Nat.card_Icc, hsplit,
      Nat.add_mul_div_left _ _ hpos, pagesAfter_eq pageshift iova hlen, Nat.add_right_comm,
      Nat.add_sub_cancel, Nat.add_sub_cancel]

theorem pagesTouched_le_iff (pageshift room : ℕ) (iova : U64) (len : ℕ) :
    pagesTouched pageshift iova len ≤ room + 1 ↔ pagesAfter pageshift iova len ≤ room := by
  rw [← pagesTouched_sub_one]
  omega

/-! ## What the call compares -/

theorem countPasses_iff_of_lt (hk : pageshift < 32) {room pages : ℕ}
    (hpages : pages < 2 ^ (31 - pageshift)) : CountPasses pageshift room pages ↔ pages ≤ room := by
  rw [CountPasses, two_pow_half hk, Nat.mod_eq_of_lt (by omega)]
  omega

theorem countPasses_iff (hk : pageshift < 31) (iova len : U64) (room : ℕ) :
    CountPasses pageshift room (pagesAfter pageshift iova len.toNat) ↔
      0 ≤ prpcountFirst iova len pageshift ∧ prpcountFirst iova len pageshift - 1 ≤ room := by
  have hpos : 0 < 2 ^ (31 - pageshift) := by positivity
  rw [CountPasses, prpcountFirst_eq hk, two_pow_half (by omega), Int.bmod_def,
    ← Int.natCast_emod]
  have hlt := Nat.mod_lt (pagesAfter pageshift iova len.toNat)
    (by omega : 0 < 2 * 2 ^ (31 - pageshift))
  generalize pagesAfter pageshift iova len.toNat % (2 * 2 ^ (31 - pageshift)) = m at *
  generalize 2 ^ (31 - pageshift) = half at *
  split_ifs <;> omega

/-- A first segment that is the only one fails exactly on the comparison. -/
theorem mapPrpFirst_init_fst (hk : pageshift < 31) (hk' : 4 ≤ pageshift) (base : U64)
    {nprplists : ℕ} (hn : 1 ≤ nprplists) (hcap : listRoom pageshift nprplists < 2 ^ 31)
    (iova len : U64) :
    (mapPrpFirst (prpCursorInit base nprplists) iova len pageshift true).1 =
      if prpcountFirst iova len pageshift - 1 ≤ listRoom pageshift nprplists then
        prpcountFirst iova len pageshift
      else -1 := by
  have hroom : prplistCapacity (prpCursorInit base nprplists).nprplists (maxPrpsOf pageshift) =
      listRoom pageshift nprplists := by
    rw [prpCursorInit, prplistCapacity_eq hn, Int.bmod_eq_of_le (by omega) (by omega)]
  have hmark : LastMarked (firstEntries pageshift iova len true) := lastMarked_pageEntries _ _ _
  have hput := putAll_iff_room (c := prpCursorInit base nprplists) hk' hn
    (.inr (.inl (maxPrpsOf_pos pageshift))) hmark
  rw [room_init, firstEntries, length_pageEntries, ← firstEntries] at hput
  rw [mapPrpFirst_eq hk, hroom]
  by_cases hle : prpcountFirst iova len pageshift - 1 ≤ listRoom pageshift nprplists
  · rw [if_neg (by omega), if_pos (hput.mpr (by omega)), if_pos hle]
  · rw [if_pos (by omega), if_neg hle]

section Call

variable {ctrl : NvmeCtrl} {prplists prplistIova : U64} {held : ℕ → U64} {nprplists : ℕ}
  {cmd : NvmeCmd} {iova len : U64}
  (hmapped : iommuTranslateVaddr ctrl.map prplists = some prplistIova) (hn : 1 ≤ nprplists)

include hmapped hn

/-- The call accepts what passes the comparison and refuses everything else for the
same reason. -/
theorem nvmeMapPrp_ret (hcap : listRoom ctrl.pageshift nprplists < 2 ^ 31) :
    (nvmeMapPrp ctrl prplists held nprplists cmd iova len).ret =
      if 0 ≤ prpcountFirst iova len ctrl.pageshift ∧
          prpcountFirst iova len ctrl.pageshift - 1 ≤ listRoom ctrl.pageshift nprplists
      then .ok () else .error .EINVAL := by
  have hk' := ctrl.le_pageshift
  have hfst := mapPrpFirst_init_fst ctrl.pageshift_lt (by omega) prplistIova hn hcap iova len
  rw [nvmeMapPrp, if_neg (by omega), hmapped]
  dsimp only
  rw [apply_ite PrpOutcome.ret, hfst]
  split_ifs <;> first | rfl | omega

theorem nvmeMapPrp_ret_ok_iff (hcap : listRoom ctrl.pageshift nprplists < 2 ^ 31) :
    (nvmeMapPrp ctrl prplists held nprplists cmd iova len).ret = .ok () ↔
      CountPasses ctrl.pageshift (listRoom ctrl.pageshift nprplists)
        (pagesAfter ctrl.pageshift iova len.toNat) := by
  rw [nvmeMapPrp_ret hmapped hn hcap, countPasses_iff ctrl.pageshift_lt]
  split_ifs with hpasses
  · exact iff_of_true rfl hpasses
  · exact iff_of_false (by simp) hpasses

theorem nvmeMapPrp_ret_of_ne_ok (hcap : listRoom ctrl.pageshift nprplists < 2 ^ 31)
    (hne : (nvmeMapPrp ctrl prplists held nprplists cmd iova len).ret ≠ .ok ()) :
    (nvmeMapPrp ctrl prplists held nprplists cmd iova len).ret = .error .EINVAL := by
  rw [nvmeMapPrp_ret hmapped hn hcap] at hne ⊢
  split_ifs at hne ⊢ with hpasses
  · exact absurd rfl hne
  · rfl

end Call

/-! ## Buffers that are counted wrong -/

/-- As long as the entries do not run past the end of the buffer, they are pages
of it. -/
theorem mem_byteRange_of_mem_firstEntries {iova len : U64} {lastSegment : Bool}
    {e : U64 × Bool} (he : e ∈ firstEntries pageshift iova len lastSegment)
    (hlo : (firstEntries pageshift iova len lastSegment).length * 2 ^ pageshift < len.toNat) :
    e.1 ∈ byteRange iova len.toNat := by
  have hlen := len.isLt
  have hpage : e.1 ∈ (firstEntries pageshift iova len lastSegment).map Prod.fst :=
    List.mem_map_of_mem he
  rw [firstEntries, length_pageEntries] at hlo
  rw [firstEntries, map_fst_pageEntries, pagesFrom] at hpage
  obtain ⟨i, hi, hei⟩ := List.mem_map.mp hpage
  rw [List.mem_range'_1] at hi
  have hmod : iova.toNat % 2 ^ pageshift < 2 ^ pageshift := Nat.mod_lt _ (by positivity)
  have hlow := Nat.mul_le_mul_right (2 ^ pageshift) hi.1
  have hhigh := Nat.mul_le_mul_right (2 ^ pageshift) (by omega :
    i ≤ (prpcountFirst iova len pageshift - 1).toNat)
  have hoffset : e.1 - iova =
      BitVec.ofNat 64 (i * 2 ^ pageshift - iova.toNat % 2 ^ pageshift) := by
    rw [← hei, ← BitVec.ofNat_sub_ofNat_of_le _ _ (by omega) (by omega)]
    ring
  rw [mem_byteRange_iff hlen.le, hoffset, BitVec.toNat_ofNat, Nat.mod_eq_of_lt (by omega)]
  omega

theorem length_firstEntries_lt (hk : pageshift < 31) (iova len : U64) (lastSegment : Bool) :
    (firstEntries pageshift iova len lastSegment).length < 2 ^ (31 - pageshift) := by
  have hpos : 0 < 2 ^ (31 - pageshift) := by positivity
  have hlt := Int.bmod_lt (x := (pagesAfter pageshift iova len.toNat : ℤ))
    (m := 2 * 2 ^ (31 - pageshift)) (by omega)
  rw [firstEntries, length_pageEntries, prpcountFirst_eq hk, two_pow_half (by omega)]
  omega

theorem firstEntries_short (hk : pageshift < 31) {iova len : U64} (lastSegment : Bool)
    (hpages : 2 ^ (31 - pageshift) ≤ pagesAfter pageshift iova len.toNat) :
    (firstEntries pageshift iova len lastSegment).length * 2 ^ pageshift <
      len.toNat - firstChunk (2 ^ pageshift) iova len.toNat := by
  have hlt := length_firstEntries_lt hk iova len lastSegment
  have hmul := Nat.mul_le_mul_right (2 ^ pageshift) (Nat.succ_le_of_lt (hlt.trans_le hpages))
  obtain ⟨hbound, -⟩ := pagesAfter_bounds pageshift iova len.toNat
  rw [Nat.succ_mul] at hmul
  omega

theorem prpWalk_of_no_entry (base : U64) (dptr : Dptr) {pagesize len : ℕ}
    (hlen : pagesize < len - firstChunk pagesize dptr.prp1 len) :
    prpWalk (listRead base []) pagesize dptr len = none := by
  have hempty : listRead base [] dptr.prp2 = none := by simp [listRead, listMemory]
  rw [prpWalk, if_neg (by omega), if_neg (by omega), walkList_none (by omega) hempty]
  rfl

/-- A buffer of so many pages that the count is wrong is not read back when it is
accepted. -/
theorem prpWalk_of_miscount {ctrl : NvmeCtrl} {prplists prplistIova : U64} {held : ℕ → U64}
    {nprplists : ℕ} {cmd : NvmeCmd} {iova len : U64}
    (hmapped : iommuTranslateVaddr ctrl.map prplists = some prplistIova) (hn : 1 ≤ nprplists)
    (haligned : 2 ^ ctrl.pageshift ∣ prplistIova.toNat)
    (hout : ∀ addr ∈ byteRange iova len.toNat,
      nprplists * 2 ^ ctrl.pageshift ≤ (addr - prplistIova).toNat)
    (hpages : 2 ^ (31 - ctrl.pageshift) ≤ pagesAfter ctrl.pageshift iova len.toNat)
    (hret : (nvmeMapPrp ctrl prplists held nprplists cmd iova len).ret = .ok ()) :
    prpWalk
        (listRead prplistIova (nvmeMapPrp ctrl prplists held nprplists cmd iova len).stores)
        (2 ^ ctrl.pageshift) (nvmeMapPrp ctrl prplists held nprplists cmd iova len).cmd.dptr
        len.toNat = none := by
  have hk := ctrl.pageshift_lt
  have hk' := ctrl.le_pageshift
  obtain ⟨c, hput, -, hcall⟩ := nvmeMapPrp_ok hmapped hret
  have hlength : (firstEntries ctrl.pageshift iova len true).length =
      (prpcountFirst iova len ctrl.pageshift - 1).toNat := by
    rw [firstEntries, length_pageEntries]
  have hlt := length_firstEntries_lt hk iova len true
  have hshort := firstEntries_short hk true hpages
  have hword : 2 ^ (31 - ctrl.pageshift) ≤ 2 ^ 31 := Nat.pow_le_pow_right (by omega) (by omega)
  rw [hcall]
  dsimp only
  by_cases hnil : firstEntries ctrl.pageshift iova len true = []
  · obtain ⟨hbound, -⟩ := pagesAfter_bounds ctrl.pageshift iova len.toNat
    have hhalf : 2 ≤ 2 ^ (31 - ctrl.pageshift) := Nat.le_self_pow (by omega) 2
    have htwo := Nat.mul_le_mul_right (2 ^ ctrl.pageshift) (hhalf.trans hpages)
    rw [hnil] at hput
    obtain ⟨-, rfl⟩ := Prod.mk.inj hput
    exact prpWalk_of_no_entry prplistIova _ (by dsimp only; omega)
  · have hone := List.length_pos_iff.mpr hnil
    have hsum : prpcountFirst iova len ctrl.pageshift =
        1 + ((firstEntries ctrl.pageshift iova len true).length : ℤ) := by omega
    rw [hsum]
    refine prpWalk_of_putAll_short held iova len.toNat (by omega) (by omega) haligned
      (lastMarked_pageEntries _ _ _) hput hn (by omega) hnil (fun e he => ?_) hshort
    exact hout _ (mem_byteRange_of_mem_firstEntries (List.mem_of_getLast? he) (by omega))

/-! ## The check -/

section Check

variable {ctrl : NvmeCtrl} {prplists prplistIova : U64} {held : ℕ → U64} {nprplists : ℕ}
  {cmd : NvmeCmd} {iova len : U64}
  (hmapped : iommuTranslateVaddr ctrl.map prplists = some prplistIova) (hn : 1 ≤ nprplists)
  (hcap : listRoom ctrl.pageshift nprplists < 2 ^ 31)

include hmapped hn hcap

theorem capacityExact_of_countHolds
    (hholds : CountHolds ctrl.pageshift (listRoom ctrl.pageshift nprplists)
      (pagesAfter ctrl.pageshift iova len.toNat)) :
    CapacityExact ctrl prplistIova nprplists iova len
      (nvmeMapPrp ctrl prplists held nprplists cmd iova len) := by
  have hok : (nvmeMapPrp ctrl prplists held nprplists cmd iova len).ret = .ok () ↔ _ :=
    nvmeMapPrp_ret_ok_iff hmapped hn hcap
  have hk := ctrl.pageshift_lt
  simp only [CapacityExact, pagesTouched_le_iff]
  rcases hholds with hpages | ⟨hroom, hnot⟩
  · rw [countPasses_iff_of_lt (by omega) hpages] at hok
    refine ⟨hok, fun h => nvmeMapPrp_ret_of_ne_ok hmapped hn hcap (mt hok.mp h), ?_⟩
    exact fun haligned => prpWalk_of_count hmapped haligned (prpcountFirst_of_lt hk hpages)
  · have hrefused := mt hok.mp hnot
    exact ⟨iff_of_false hrefused (not_le.mpr hroom),
      fun _ => nvmeMapPrp_ret_of_ne_ok hmapped hn hcap hrefused, fun _ h => absurd h hrefused⟩

theorem countHolds_of_capacityExact (haligned : 2 ^ ctrl.pageshift ∣ prplistIova.toNat)
    (hout : ∀ addr ∈ byteRange iova len.toNat,
      nprplists * 2 ^ ctrl.pageshift ≤ (addr - prplistIova).toNat)
    (hexact : CapacityExact ctrl prplistIova nprplists iova len
      (nvmeMapPrp ctrl prplists held nprplists cmd iova len)) :
    CountHolds ctrl.pageshift (listRoom ctrl.pageshift nprplists)
      (pagesAfter ctrl.pageshift iova len.toNat) := by
  simp only [CapacityExact, pagesTouched_le_iff] at hexact
  obtain ⟨hfits, -, hwalk⟩ := hexact
  refine or_iff_not_imp_left.mpr fun hpages => ?_
  -- an accepted buffer of that size is not read back, so it was refused
  have hrefused : (nvmeMapPrp ctrl prplists held nprplists cmd iova len).ret ≠ .ok () := by
    intro hret
    have hnone := prpWalk_of_miscount hmapped hn haligned hout (not_lt.mp hpages) hret
    rw [hwalk haligned hret] at hnone
    exact absurd hnone (Option.some_ne_none _)
  exact ⟨not_le.mp (mt hfits.mpr hrefused),
    mt (nvmeMapPrp_ret_ok_iff hmapped hn hcap).mpr hrefused⟩

end Check

/-- The capacity check is exact, and what is accepted is described as a whole, for
the buffers that `CountHolds` allows and, when the buffer keeps clear of the list
pages, for no others. -/
theorem nvmeMapPrp_capacity_iff (ctrl : NvmeCtrl) (prplists prplistIova : U64)
    (held : ℕ → U64) (nprplists : ℕ) (cmd : NvmeCmd) (iova len : U64)
    (hmapped : iommuTranslateVaddr ctrl.map prplists = some prplistIova)
    (hn : 1 ≤ nprplists) (hcap : listRoom ctrl.pageshift nprplists < 2 ^ 31) :
    let out := nvmeMapPrp ctrl prplists held nprplists cmd iova len
    let holds := CountHolds ctrl.pageshift (listRoom ctrl.pageshift nprplists)
      (pagesAfter ctrl.pageshift iova len.toNat)
    (holds → CapacityExact ctrl prplistIova nprplists iova len out) ∧
      (2 ^ ctrl.pageshift ∣ prplistIova.toNat →
        (∀ addr ∈ byteRange iova len.toNat,
          nprplists * 2 ^ ctrl.pageshift ≤ (addr - prplistIova).toNat) →
        CapacityExact ctrl prplistIova nprplists iova len out → holds) :=
  ⟨capacityExact_of_countHolds hmapped hn hcap, countHolds_of_capacityExact hmapped hn hcap⟩

/-- Two pages and a bit need two entries of the list. -/
theorem nvmeMapPrp_capacity_iff_two_pages :
    CapacityExact twoPageCtrl 0x20000 1 0x1000100 0x2000
      (nvmeMapPrp twoPageCtrl 0x10000 (fun _ => 0) 1 ⟨0, ⟨0, 0⟩⟩ 0x1000100 0x2000) :=
  (nvmeMapPrp_capacity_iff twoPageCtrl 0x10000 0x20000 (fun _ => 0) 1 ⟨0, ⟨0, 0⟩⟩ 0x1000100
    0x2000 (by decide) (by decide) (by decide)).1 (.inl (by decide))

/-- A buffer of 4 GiB behind its first page is taken for one page: it is accepted
with a single list page, and the command names its first page and nothing else. -/
theorem nvmeMapPrp_accepts_four_gib :
    let out := nvmeMapPrp twoPageCtrl 0x10000 (fun _ => 0) 1 ⟨0, ⟨0, 0⟩⟩ 0x1000000 0x100001000
    out.ret = .ok () ∧ out.cmd.dptr = ⟨0x1000000, 0⟩ ∧ out.stores = [] ∧
      listRoom twoPageCtrl.pageshift 1 = 512 ∧
      pagesTouched twoPageCtrl.pageshift 0x1000000 0x100001000 = 2 ^ 20 + 1 ∧
      ¬CapacityExact twoPageCtrl 0x20000 1 0x1000000 0x100001000 out := by
  have hpages : pagesTouched twoPageCtrl.pageshift 0x1000000 0x100001000 = 2 ^ 20 + 1 := by
    have hsub := pagesTouched_sub_one twoPageCtrl.pageshift 0x1000000 0x100001000
    have hafter : pagesAfter twoPageCtrl.pageshift 0x1000000 0x100001000 = 2 ^ 20 := by
      decide +kernel
    omega
  refine ⟨rfl, rfl, rfl, rfl, hpages, fun h => ?_⟩
  have hle := h.1.mp rfl
  rw [show (0x100001000 : U64).toNat = 0x100001000 from rfl, hpages] at hle
  exact absurd hle (by decide)

end Nvme

end Libvfn
