import Libvfn.Nvme.Prp.Validate
import Mathlib.Algebra.BigOperators.Ring.List

/-!
# Cutting a buffer into segments

A buffer that is cut at page boundaries has the same pages as the whole, so the vector
of its segments should be mapped as the buffer is. `vecEntries_of_pageCut` says that the
entries are the same, which settles what a successful call leaves behind.

The two calls differ in what they compare with the capacity of the list pages: all
entries at once, or those of the first segment only. The capacity is computed in an
`int`. As long as it fits one, both come to the same, as the entries that are put one
by one run out of slots where the comparison would have failed.
-/

namespace Libvfn

namespace Nvme

open Word Support Iommu

variable {pageshift : ℕ}

/-! ## Cuts -/

def Consecutive : U64 → List IovaVec → Prop
  | _, [] => True
  | iova, v :: vs => v.iova = iova ∧ Consecutive (iova + v.len) vs

/-- The buffer is cut into segments, the first of which ends with a page, and the others
are whole pages. -/
structure PageCut (pagesize : ℕ) (iova len : U64) (first : IovaVec) (rest : List IovaVec) :
    Prop where
  consecutive : Consecutive iova (first :: rest)
  length_eq : vecLength (first :: rest) = len.toNat
  nonempty : ∀ v ∈ first :: rest, 0 < v.len.toNat
  ends : pagesize ∣ (first.iova + first.len).toNat
  pages : ∀ v ∈ rest, pagesize ∣ v.len.toNat

def PrpOutcome.slot (out : PrpOutcome) (held : ℕ → U64) (i : ℕ) : U64 :=
  (listMemory out.stores i).getD (held i)

def SameMapping (held : ℕ → U64) (out out' : PrpOutcome) : Prop :=
  (out.ret = .ok () ↔ out'.ret = .ok ()) ∧
    (out.ret = .ok () →
      out.cmd.dptr.prp1 = out'.cmd.dptr.prp1 ∧ out.cmd.dptr.prp2 = out'.cmd.dptr.prp2 ∧
        ∀ i, out.slot held i = out'.slot held i)

/-- The capacity, as an `int` holds it, tells the same of the pages of the first segment
as of all pages, or there is no room for all of them. -/
def CapacityTells (pageshift nprplists firstPages pages : ℕ) : Prop :=
  let capacity := (listRoom pageshift nprplists : ℤ).bmod (2 ^ 32)
  pages ≤ capacity ∨ capacity < firstPages ∨ listRoom pageshift nprplists < pages

theorem capacityTells_of_lt {nprplists firstPages pages : ℕ}
    (hcap : listRoom pageshift nprplists < 2 ^ 31) :
    CapacityTells pageshift nprplists firstPages pages := by
  rw [CapacityTells, Int.bmod_eq_of_le (by omega) (by omega)]
  omega

/-! ## The entries of a cut -/

theorem pageEntries_shift (iova : U64) (lastSegment : Bool) (start offset n : ℕ) :
    pageEntries (iova + BitVec.ofNat 64 (offset * 2 ^ pageshift)) pageshift lastSegment start n =
      pageEntries iova pageshift lastSegment (offset + start) n := by
  induction n generalizing start with
  | zero => rfl
  | succ n ih =>
      rw [pageEntries_succ, pageEntries_succ, ih, Nat.add_mul, BitVec.ofNat_add, ← Nat.add_assoc,
        BitVec.add_assoc]

/-- Pages in a row may be put in two parts, the first of which marks no entry unless the
second is empty. -/
theorem pageEntries_append (iova : U64) (start n m : ℕ) :
    pageEntries iova pageshift (m == 0) start n ++ pageEntries iova pageshift true (start + n) m =
      pageEntries iova pageshift true start (n + m) := by
  induction n generalizing start with
  | zero => simp [pageEntries]
  | succ n ih =>
      have hmark : (m == 0 && n == 0) = (true && n + m == 0) := by
        rw [Bool.eq_iff_iff]
        simp
        omega
      rw [pageEntries_succ, List.cons_append, hmark, Nat.add_right_comm n 1 m, pageEntries_succ,
        ← ih, Nat.add_assoc start 1 n, Nat.add_comm 1 n]

theorem vecLength_div_eq_zero_iff {vs : List IovaVec} (hpos : ∀ v ∈ vs, 0 < v.len.toNat)
    (hdvd : ∀ v ∈ vs, 2 ^ pageshift ∣ v.len.toNat) :
    vecLength vs / 2 ^ pageshift = 0 ↔ vs = [] := by
  constructor
  · intro hzero
    cases vs with
    | nil => rfl
    | cons v vs =>
        have hle := Nat.le_of_dvd (hpos v List.mem_cons_self) (hdvd v List.mem_cons_self)
        have hlt := (Nat.div_eq_zero_iff_lt (by positivity)).mp hzero
        rw [vecLength_cons] at hlt
        omega
  · rintro rfl
    exact Nat.zero_div _

theorem starts_of_consecutive (hk : pageshift ≤ 64) {rest : List IovaVec} {base : U64}
    (hcons : Consecutive base rest) (hbase : 2 ^ pageshift ∣ base.toNat)
    (hdvd : ∀ v ∈ rest, 2 ^ pageshift ∣ v.len.toNat) :
    ∀ v ∈ rest, 2 ^ pageshift ∣ v.iova.toNat := by
  induction rest generalizing base with
  | nil => simp
  | cons v vs ih =>
      obtain ⟨hv, hvs⟩ := hcons
      obtain ⟨hdvdv, hdvd⟩ := List.forall_mem_cons.mp hdvd
      have hnext : 2 ^ pageshift ∣ (base + v.len).toNat := by
        rw [BitVec.toNat_add]
        exact (Nat.dvd_mod_iff (Nat.pow_dvd_pow 2 hk)).mpr (Nat.dvd_add hbase hdvdv)
      exact List.forall_mem_cons.mpr ⟨hv ▸ hbase, ih hvs hnext hdvd⟩

/-- Segments of whole pages that follow each other have the entries of one buffer. -/
theorem restEntries_of_consecutive {rest : List IovaVec} {base : U64} {start : ℕ}
    (hcons : Consecutive (base + BitVec.ofNat 64 (start * 2 ^ pageshift)) rest)
    (hpos : ∀ v ∈ rest, 0 < v.len.toNat) (hlen : ∀ v ∈ rest, v.len.toNat < 2 ^ 31)
    (hdvd : ∀ v ∈ rest, 2 ^ pageshift ∣ v.len.toNat) :
    restEntries pageshift rest =
      pageEntries base pageshift true start (vecLength rest / 2 ^ pageshift) := by
  induction rest generalizing start with
  | nil => simp [restEntries, vecLength, pageEntries]
  | cons v vs ih =>
      obtain ⟨hv, hvs⟩ := hcons
      obtain ⟨hposv, hpos⟩ := List.forall_mem_cons.mp hpos
      obtain ⟨hlenv, hlen⟩ := List.forall_mem_cons.mp hlen
      obtain ⟨hdvdv, hdvd⟩ := List.forall_mem_cons.mp hdvd
      have hcount := prpcountAppend_of_dvd hposv hlenv hdvdv
      have hnext : base + BitVec.ofNat 64 (start * 2 ^ pageshift) + v.len =
          base + BitVec.ofNat 64
            ((start + (prpcountAppend v.len pageshift).toNat) * 2 ^ pageshift) := by
        rw [Nat.add_mul, hcount, BitVec.ofNat_add, BitVec.ofNat_toNat, BitVec.setWidth_eq,
          BitVec.add_assoc]
      rw [hnext] at hvs
      have hempty : vs.isEmpty = (vecLength vs / 2 ^ pageshift == 0) := by
        rw [Bool.eq_iff_iff, List.isEmpty_iff, beq_iff_eq, vecLength_div_eq_zero_iff hpos hdvd]
      have htotal : vecLength (v :: vs) / 2 ^ pageshift =
          (prpcountAppend v.len pageshift).toNat + vecLength vs / 2 ^ pageshift := by
        rw [vecLength_cons, ← hcount, Nat.mul_comm, Nat.mul_add_div (by positivity)]
      rw [restEntries, ih hvs hpos hlen hdvd, hv, pageEntries_shift, hempty, Nat.add_zero,
        pageEntries_append, htotal]

section Cut

variable {iova len : U64} {first : IovaVec} {rest : List IovaVec}
  (hcut : PageCut (2 ^ pageshift) iova len first rest)

include hcut

theorem PageCut.iova_eq : first.iova = iova := hcut.consecutive.1

theorem PageCut.rest_nonempty : ∀ v ∈ rest, 0 < v.len.toNat := fun v hv =>
  hcut.nonempty v (List.mem_cons_of_mem first hv)

theorem PageCut.len_le {v : IovaVec} (hv : v ∈ first :: rest) : v.len.toNat ≤ len.toNat :=
  (len_le_vecLength hv).trans_eq hcut.length_eq

theorem PageCut.dvd_vecLength : 2 ^ pageshift ∣ vecLength rest := by
  refine List.dvd_sum fun x hx => ?_
  obtain ⟨v, hv, rfl⟩ := List.mem_map.mp hx
  exact hcut.pages v hv

theorem PageCut.sub_firstChunk (hk : pageshift ≤ 64) :
    len.toNat - firstChunk (2 ^ pageshift) iova len.toNat =
      2 ^ pageshift *
        (pagesAfter pageshift iova first.len.toNat + vecLength rest / 2 ^ pageshift) := by
  have hsub := (vecLength_sub_firstChunk rest hk (hcut.nonempty first List.mem_cons_self)
    hcut.ends).2
  rw [hcut.length_eq, hcut.iova_eq] at hsub
  rw [hsub, Nat.mul_add, Nat.mul_div_cancel' hcut.dvd_vecLength, Nat.mul_comm]

theorem PageCut.pagesAfter_eq (hk : pageshift ≤ 64) :
    pagesAfter pageshift iova len.toNat =
      pagesAfter pageshift iova first.len.toNat + vecLength rest / 2 ^ pageshift := by
  have hpow : 0 < 2 ^ pageshift := by positivity
  have hlast : (2 ^ pageshift - 1) / 2 ^ pageshift = 0 := Nat.div_eq_of_lt (by omega)
  rw [pagesAfter, hcut.sub_firstChunk hk, Nat.add_sub_assoc Nat.one_le_two_pow,
    Nat.mul_add_div hpow, hlast, Nat.add_zero]

theorem PageCut.pagesAfter_lt (hk : pageshift < 31) (hlen : len.toNat < 2 ^ 31) :
    pagesAfter pageshift iova len.toNat < 2 ^ (31 - pageshift) := by
  have hsub := hcut.sub_firstChunk (by omega)
  have hword : 2 ^ pageshift * 2 ^ (31 - pageshift) = 2 ^ 31 := by
    rw [← Nat.pow_add]
    congr 1
    omega
  rw [← hcut.pagesAfter_eq (by omega)] at hsub
  refine Nat.lt_of_mul_lt_mul_left (a := 2 ^ pageshift) ?_
  omega

theorem PageCut.prpcountFirst_eq (hk : pageshift < 31) (hlen : len.toNat < 2 ^ 31) :
    prpcountFirst iova len pageshift = 1 + pagesAfter pageshift iova len.toNat :=
  prpcountFirst_of_lt hk (hcut.pagesAfter_lt hk hlen)

theorem PageCut.prpcountFirst_first_eq (hk : pageshift < 31) (hlen : len.toNat < 2 ^ 31) :
    prpcountFirst first.iova first.len pageshift =
      1 + pagesAfter pageshift iova first.len.toNat := by
  have hlt := hcut.pagesAfter_lt hk hlen
  rw [hcut.pagesAfter_eq (by omega)] at hlt
  rw [hcut.iova_eq, prpcountFirst_of_lt hk ((Nat.le_add_right _ _).trans_lt hlt)]

/-- The second segment starts where the pages of the first one end. -/
theorem PageCut.consecutive_rest (hk : pageshift ≤ 64) :
    Consecutive (iova - BitVec.ofNat 64 (iova.toNat % 2 ^ pageshift) +
      BitVec.ofNat 64 ((1 + pagesAfter pageshift iova first.len.toNat) * 2 ^ pageshift)) rest := by
  have hmod : iova.toNat % 2 ^ pageshift < 2 ^ pageshift := Nat.mod_lt _ (by positivity)
  have hends := pagesAfter_of_ends hk (hcut.nonempty first List.mem_cons_self) hcut.ends
  rw [hcut.iova_eq] at hends
  have hsum : (1 + pagesAfter pageshift iova first.len.toNat) * 2 ^ pageshift =
      iova.toNat % 2 ^ pageshift + first.len.toNat := by
    rw [Nat.add_mul]
    omega
  have hnext : iova - BitVec.ofNat 64 (iova.toNat % 2 ^ pageshift) +
      BitVec.ofNat 64 ((1 + pagesAfter pageshift iova first.len.toNat) * 2 ^ pageshift) =
        iova + first.len := by
    rw [hsum, BitVec.ofNat_add, BitVec.ofNat_toNat, BitVec.setWidth_eq]
    ring
  rw [hnext]
  exact hcut.consecutive.2

theorem vecEntries_of_pageCut (hk : pageshift < 31) (hlen : len.toNat < 2 ^ 31) :
    vecEntries pageshift first rest = firstEntries pageshift iova len true := by
  have hrest := restEntries_of_consecutive (hcut.consecutive_rest (by omega)) hcut.rest_nonempty
    (fun v hv => (hcut.len_le (List.mem_cons_of_mem first hv)).trans_lt hlen) hcut.pages
  have hempty : rest.isEmpty = (vecLength rest / 2 ^ pageshift == 0) := by
    rw [Bool.eq_iff_iff, List.isEmpty_iff, beq_iff_eq,
      vecLength_div_eq_zero_iff hcut.rest_nonempty hcut.pages]
  rw [vecEntries, hrest, firstEntries, hcut.prpcountFirst_first_eq hk hlen, hcut.iova_eq, hempty,
    add_sub_cancel_left, Int.toNat_natCast, pageEntries_append, firstEntries,
    hcut.prpcountFirst_eq hk hlen, add_sub_cancel_left, Int.toNat_natCast,
    hcut.pagesAfter_eq (by omega)]

theorem PageCut.restDescribable (hk : pageshift ≤ 64) :
    RestDescribable (2 ^ pageshift) rest := by
  have hends := hcut.ends
  rw [hcut.iova_eq] at hends
  exact ⟨starts_of_consecutive hk hcut.consecutive.2 hends hcut.pages,
    fun v hv => hcut.pages v (List.mem_of_mem_dropLast hv)⟩

theorem PageCut.whole (hk : pageshift ≤ 64) :
    PageCut (2 ^ pageshift) iova len ⟨iova, len⟩ [] := by
  have hword : 2 ^ pageshift ∣ 2 ^ 64 := Nat.pow_dvd_pow 2 hk
  have hends := hcut.ends
  rw [hcut.iova_eq, BitVec.toNat_add, Nat.dvd_mod_iff hword] at hends
  refine ⟨⟨rfl, trivial⟩, by simp [vecLength], ?_, ?_, by simp⟩
  · have hpos := hcut.nonempty first List.mem_cons_self
    have hle := hcut.len_le List.mem_cons_self
    simp only [List.mem_singleton, forall_eq]
    omega
  · rw [BitVec.toNat_add, Nat.dvd_mod_iff hword, ← hcut.length_eq, vecLength_cons, ← Nat.add_assoc]
    exact Nat.dvd_add hends hcut.dvd_vecLength

/-- What the checks ask of the segments of a cut. -/
theorem PageCut.accepted_iff (hk : pageshift < 31) (hk' : 4 ≤ pageshift)
    (hlen : len.toNat < 2 ^ 31) (base : U64) {nprplists : ℕ} (hn : 1 ≤ nprplists) :
    Accepted pageshift (prpCursorInit base nprplists) first rest ↔
      pagesAfter pageshift iova first.len.toNat ≤
          (listRoom pageshift nprplists : ℤ).bmod (2 ^ 32) ∧
        pagesAfter pageshift iova len.toNat ≤ listRoom pageshift nprplists := by
  have hfirst := hcut.prpcountFirst_first_eq hk hlen
  have hroom := putAll_iff_room (c := prpCursorInit base nprplists) hk' hn
    (.inr (.inl (maxPrpsOf_pos pageshift))) (lastMarked_vecEntries pageshift first rest)
  have hlength : (vecEntries pageshift first rest).length =
      pagesAfter pageshift iova len.toNat := by
    rw [vecEntries_of_pageCut hcut hk hlen,
      length_firstEntries (hcut.prpcountFirst_eq hk hlen)]
  have hcapacity : prplistCapacity (prpCursorInit base nprplists).nprplists
      (maxPrpsOf pageshift) = (listRoom pageshift nprplists : ℤ).bmod (2 ^ 32) :=
    prplistCapacity_eq hn
  rw [room_init, hlength] at hroom
  constructor
  · rintro ⟨-, hcap, -, -, hfits⟩
    rw [hfirst, hcapacity] at hcap
    exact ⟨by omega, hroom.mp hfits⟩
  · rintro ⟨hcap, hfits⟩
    refine ⟨?_, ?_, .inr (.inr hcut.ends), hcut.restDescribable (by omega), hroom.mpr hfits⟩
    · rw [hfirst]
      omega
    · rw [hfirst, hcapacity]
      omega

end Cut

/-! ## The two calls -/

section Call

variable {ctrl : NvmeCtrl} {prplists : U64} {held : ℕ → U64} {nprplists : ℕ} {cmd : NvmeCmd}
  {iova len : U64} {first : IovaVec} {rest : List IovaVec}

theorem nvmeMapPrp_eq_mapv :
    nvmeMapPrp ctrl prplists held nprplists cmd iova len =
      nvmeMapvIovaPrp ctrl prplists held nprplists cmd ⟨iova, len⟩ [] := by
  rw [nvmeMapPrp, nvmeMapvIovaPrp]
  simp only [mapvPrp, List.isEmpty_nil, Bool.or_true, Bool.true_or, Bool.not_true,
    Bool.false_eq_true, if_false, mapvSegments]

section Mapped

variable {prplistIova : U64}
  (hmapped : iommuTranslateVaddr ctrl.map prplists = some prplistIova) (hn : 1 ≤ nprplists)
  (hlen : len.toNat < 2 ^ 31) (hcut : PageCut (2 ^ ctrl.pageshift) iova len first rest)

include hmapped hn hlen hcut

/-- The calls leave the same behind when both succeed. -/
theorem nvmeMapvIovaPrp_eq_nvmeMapPrp
    (haccepted : Accepted ctrl.pageshift (prpCursorInit prplistIova nprplists) first rest)
    (hwhole : Accepted ctrl.pageshift (prpCursorInit prplistIova nprplists) ⟨iova, len⟩ []) :
    nvmeMapvIovaPrp ctrl prplists held nprplists cmd first rest =
      nvmeMapPrp ctrl prplists held nprplists cmd iova len := by
  have hk := ctrl.pageshift_lt
  have hfirst := (hcut.len_le List.mem_cons_self).trans_lt hlen
  have hentries : vecEntries ctrl.pageshift first rest =
      vecEntries ctrl.pageshift ⟨iova, len⟩ [] := by
    rw [vecEntries_of_pageCut hcut hk hlen,
      vecEntries_of_pageCut (hcut.whole (by omega)) hk hlen]
  rw [nvmeMapPrp_eq_mapv, nvmeMapvIovaPrp_eq hn hmapped, nvmeMapvIovaPrp_eq hn hmapped,
    mapvPrp_of_accepted hk haccepted, mapvPrp_of_accepted hk hwhole,
    prpcount_vec hk hfirst haccepted.nonneg, prpcount_vec hk hlen hwhole.nonneg, hentries,
    hcut.iova_eq]

/-- The calls agree exactly if the capacity tells the same to both. -/
theorem sameMapping_iff :
    SameMapping held (nvmeMapvIovaPrp ctrl prplists held nprplists cmd first rest)
        (nvmeMapPrp ctrl prplists held nprplists cmd iova len) ↔
      CapacityTells ctrl.pageshift nprplists (pagesAfter ctrl.pageshift iova first.len.toNat)
        (pagesAfter ctrl.pageshift iova len.toNat) := by
  have hk := ctrl.pageshift_lt
  have hk' := ctrl.le_pageshift
  have hle : pagesAfter ctrl.pageshift iova first.len.toNat ≤
      pagesAfter ctrl.pageshift iova len.toNat := by
    rw [hcut.pagesAfter_eq (by omega)]
    exact Nat.le_add_right _ _
  have hcutRet : (nvmeMapvIovaPrp ctrl prplists held nprplists cmd first rest).ret = .ok () ↔ _ :=
    (ret_ok_iff_accepted hmapped hn).trans
      (hcut.accepted_iff hk (by omega) hlen prplistIova hn)
  have hwholeRet :
      (nvmeMapvIovaPrp ctrl prplists held nprplists cmd ⟨iova, len⟩ []).ret = .ok () ↔ _ :=
    (ret_ok_iff_accepted hmapped hn).trans
      ((hcut.whole (by omega)).accepted_iff hk (by omega) hlen prplistIova hn)
  rw [← nvmeMapPrp_eq_mapv] at hwholeRet
  have hagree : ((nvmeMapvIovaPrp ctrl prplists held nprplists cmd first rest).ret = .ok () ↔
      (nvmeMapPrp ctrl prplists held nprplists cmd iova len).ret = .ok ()) ↔
        CapacityTells ctrl.pageshift nprplists (pagesAfter ctrl.pageshift iova first.len.toNat)
          (pagesAfter ctrl.pageshift iova len.toNat) := by
    rw [hcutRet, hwholeRet, CapacityTells]
    dsimp only
    omega
  refine ⟨fun h => hagree.mp h.1, fun htells => ⟨hagree.mpr htells, fun hok => ?_⟩⟩
  have hok' := (hagree.mpr htells).mp hok
  rw [nvmeMapPrp_eq_mapv] at hok'
  rw [nvmeMapvIovaPrp_eq_nvmeMapPrp hmapped hn hlen hcut
    ((ret_ok_iff_accepted hmapped hn).mp hok) ((ret_ok_iff_accepted hmapped hn).mp hok')]
  exact ⟨rfl, rfl, fun _ => rfl⟩

end Mapped

end Call

/-- A buffer below `2 ^ 31` bytes and its segments are mapped alike exactly if the list
pages are not mapped, or the capacity tells the same of the first segment and of the
buffer. That is so whenever the capacity fits an `int`. -/
theorem sameMapping_of_pageCut_iff (ctrl : NvmeCtrl) (prplists : U64) (held : ℕ → U64)
    (nprplists : ℕ) (cmd : NvmeCmd) (iova len : U64) (first : IovaVec) (rest : List IovaVec)
    (hn : 1 ≤ nprplists) (hlen : len.toNat < 2 ^ 31)
    (hcut : PageCut (2 ^ ctrl.pageshift) iova len first rest) :
    (SameMapping held (nvmeMapvIovaPrp ctrl prplists held nprplists cmd first rest)
        (nvmeMapPrp ctrl prplists held nprplists cmd iova len) ↔
      iommuTranslateVaddr ctrl.map prplists = none ∨
        CapacityTells ctrl.pageshift nprplists (pagesAfter ctrl.pageshift iova first.len.toNat)
          (pagesAfter ctrl.pageshift iova len.toNat)) ∧
      (listRoom ctrl.pageshift nprplists < 2 ^ 31 →
        SameMapping held (nvmeMapvIovaPrp ctrl prplists held nprplists cmd first rest)
          (nvmeMapPrp ctrl prplists held nprplists cmd iova len)) := by
  cases hmapped : iommuTranslateVaddr ctrl.map prplists with
  | none =>
      have hsame : SameMapping held
          (nvmeMapvIovaPrp ctrl prplists held nprplists cmd first rest)
          (nvmeMapPrp ctrl prplists held nprplists cmd iova len) := by
        rw [nvmeMapvIovaPrp, nvmeMapPrp, if_neg (by omega), if_neg (by omega), hmapped]
        simp [SameMapping]
      exact ⟨iff_of_true hsame (.inl rfl), fun _ => hsame⟩
  | some prplistIova =>
      have hiff : SameMapping held
          (nvmeMapvIovaPrp ctrl prplists held nprplists cmd first rest)
          (nvmeMapPrp ctrl prplists held nprplists cmd iova len) ↔ _ :=
        sameMapping_iff hmapped hn hlen hcut
      exact ⟨by rw [hiff]; simp, fun hcap => hiff.mpr (capacityTells_of_lt hcap)⟩

/-- Three pages, the first of which is a segment of its own. -/
theorem sameMapping_of_pageCut_iff_three_pages :
    PageCut (2 ^ twoPageCtrl.pageshift) 0x1000000 0x3000 ⟨0x1000000, 0x1000⟩
        [⟨0x1001000, 0x2000⟩] ∧
      SameMapping (fun _ => 0)
        (nvmeMapvIovaPrp twoPageCtrl 0x10000 (fun _ => 0) 1 ⟨0, ⟨0, 0⟩⟩ ⟨0x1000000, 0x1000⟩
          [⟨0x1001000, 0x2000⟩])
        (nvmeMapPrp twoPageCtrl 0x10000 (fun _ => 0) 1 ⟨0, ⟨0, 0⟩⟩ 0x1000000 0x3000) :=
  have hcut : PageCut (2 ^ twoPageCtrl.pageshift) 0x1000000 0x3000 ⟨0x1000000, 0x1000⟩
      [⟨0x1001000, 0x2000⟩] :=
    ⟨⟨rfl, rfl, trivial⟩, by decide, by decide, by decide, by decide⟩
  ⟨hcut, (sameMapping_of_pageCut_iff twoPageCtrl 0x10000 (fun _ => 0) 1 ⟨0, ⟨0, 0⟩⟩ 0x1000000
    0x3000 ⟨0x1000000, 0x1000⟩ [⟨0x1001000, 0x2000⟩] (by decide) (by decide) hcut).2 (by decide)⟩

def manyPagesCtrl : NvmeCtrl where
  map :=
    let empty := iovaMapInit (fun _ => false) ⟨0, 0, 0, 0⟩
    (iovaMapAdd empty 0x100000000 0x804021000 0x200000000 0).toOption.getD empty
  config := ⟨0, mpsToPageshift_zero_lt⟩
  flags := 0

/-- The capacity of 8405025 list pages is 480 as an `int`. So 482 pages are refused as one
buffer, and mapped if the first page is a segment of its own. -/
theorem nvmeMapPrp_refuses_mapped_cut :
    PageCut (2 ^ manyPagesCtrl.pageshift) 0x1000000 0x1e2000 ⟨0x1000000, 0x1000⟩
        [⟨0x1001000, 0x1e1000⟩] ∧
      (nvmeMapvIovaPrp manyPagesCtrl 0x100000000 (fun _ => 0) 8405025 ⟨0, ⟨0, 0⟩⟩
        ⟨0x1000000, 0x1000⟩ [⟨0x1001000, 0x1e1000⟩]).ret = .ok () ∧
      (nvmeMapPrp manyPagesCtrl 0x100000000 (fun _ => 0) 8405025 ⟨0, ⟨0, 0⟩⟩ 0x1000000
        0x1e2000).ret = .error .EINVAL := by
  refine ⟨⟨⟨rfl, rfl, trivial⟩, by decide, by decide, by decide, by decide⟩, ?_, ?_⟩
  · decide +kernel
  · decide +kernel

end Nvme

end Libvfn
