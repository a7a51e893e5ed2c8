import Libvfn.Nvme.Prp.Cursor

/-!
# One buffer

The encoding of a single buffer is read back by the controller as the buffer.

The count of entries is computed in an `int`: `prpcountFirst_eq` says what becomes
of it when the length does not fit one. For the lengths considered here that can
only be the one that rounds up to `2 ^ 31`, whose count is negative and refused.
-/

namespace Libvfn

namespace Nvme

open Word Support Iommu

variable {pageshift : ℕ}

theorem pagesizeOf_eq (hk : pageshift < 31) :
    pagesizeOf pageshift = BitVec.twoPow 64 pageshift := by
  have hpow : 2 ^ pageshift < 2 ^ 31 := Nat.pow_lt_pow_right (by omega) hk
  have htoNat : (1#32 <<< pageshift).toNat = 2 ^ pageshift := by
    rw [BitVec.toNat_shiftLeft, Nat.shiftLeft_eq, BitVec.toNat_ofNat, Nat.one_mod,
      Nat.one_mul, Nat.mod_eq_of_lt (by omega)]
  have hmsb : (1#32 <<< pageshift).msb = false := by
    rw [BitVec.msb_eq_decide, htoNat]
    simp only [decide_eq_false_iff_not]
    omega
  rw [pagesizeOf, BitVec.signExtend_eq_setWidth_of_msb_false hmsb]
  apply BitVec.eq_of_toNat_eq
  rw [BitVec.toNat_setWidth, htoNat, toNat_twoPow (by omega), Nat.mod_eq_of_lt (by omega)]

theorem aligned_pagesizeOf_iff (hk : pageshift < 31) (x : U64) :
    aligned x (pagesizeOf pageshift) = true ↔ 2 ^ pageshift ∣ x.toNat := by
  rw [pagesizeOf_eq hk]
  exact aligned_twoPow_iff x (by omega)

def pagesAfter (pageshift : ℕ) (iova : U64) (len : ℕ) : ℕ :=
  (len - firstChunk (2 ^ pageshift) iova len + 2 ^ pageshift - 1) / 2 ^ pageshift

theorem toNat_residual (hk : pageshift < 31) (iova len : U64) :
    (residual iova len (pagesizeOf pageshift)).toNat =
      len.toNat - firstChunk (2 ^ pageshift) iova len.toNat := by
  have hmod : iova.toNat % 2 ^ pageshift < 2 ^ pageshift := Nat.mod_lt _ (by positivity)
  have hcovered : (BitVec.twoPow 64 pageshift -
      (iova &&& (BitVec.twoPow 64 pageshift - 1))).toNat =
        2 ^ pageshift - iova.toNat % 2 ^ pageshift := by
    rw [BitVec.toNat_sub_of_le, toNat_twoPow (by omega), toNat_and_mask _ (by omega)]
    rw [BitVec.le_def, toNat_twoPow (by omega), toNat_and_mask _ (by omega)]
    omega
  simp only [residual, pagesizeOf_eq hk, firstChunk, BitVec.lt_def, hcovered]
  split_ifs with hlt
  · rw [Nat.min_eq_left (by omega), sub_self, Nat.sub_self]
    rfl
  · rw [Nat.min_eq_right (by omega), BitVec.toNat_sub_of_le, hcovered]
    rw [BitVec.le_def, hcovered]
    omega

/-- The count of entries, as far as an `int` holds it. -/
theorem prpcountFirst_eq (hk : pageshift < 31) (iova len : U64) :
    prpcountFirst iova len pageshift =
      1 + (pagesAfter pageshift iova len.toNat : ℤ).bmod (2 ^ (32 - pageshift)) := by
  have hpos : 0 < 2 ^ pageshift := by positivity
  have hres := toNat_residual hk iova len
  rw [prpcountFirst]
  split_ifs with hzero
  · have hpages : pagesAfter pageshift iova len.toNat = 0 := by
      rw [hzero] at hres
      rw [pagesAfter, ← hres]
      exact Nat.div_eq_of_lt (by simp)
    rw [hpages]
    simp
  · rw [toInt_setWidth_shiftRight (by omega)]
    rw [pagesizeOf_eq hk, toNat_alignUp_twoPow _ (by omega), ← pagesizeOf_eq hk, hres,
      Nat.mod_mod_of_dvd _ (Nat.pow_dvd_pow 2 (by omega)), pagesAfter]

/-! ## The entries of the first segment -/

def firstEntries (pageshift : ℕ) (iova len : U64) (lastSegment : Bool) :
    List (U64 × Bool) :=
  pageEntries (iova - BitVec.ofNat 64 (iova.toNat % 2 ^ pageshift)) pageshift lastSegment 1
    (prpcountFirst iova len pageshift - 1).toNat

theorem mapPrpFirst_eq (hk : pageshift < 31) (c : PrpCursor) (iova len : U64)
    (lastSegment : Bool) :
    mapPrpFirst c iova len pageshift lastSegment =
      if prplistCapacity c.nprplists (maxPrpsOf pageshift) <
          prpcountFirst iova len pageshift - 1 then (-1, c)
      else
        let r := prpCursorPutAll (maxPrpsOf pageshift) pageshift c
          (firstEntries pageshift iova len lastSegment)
        if r.1 then (prpcountFirst iova len pageshift, r.2) else (-1, r.2) := by
  have hentries : pageEntries
      (if 1 < prpcountFirst iova len pageshift ∧ !aligned iova (pagesizeOf pageshift) then
        alignDown iova (pagesizeOf pageshift) else iova) pageshift lastSegment 1
      (prpcountFirst iova len pageshift - 1).toNat =
        firstEntries pageshift iova len lastSegment := by
    by_cases hcount : 1 < prpcountFirst iova len pageshift
    · by_cases halign : aligned iova (pagesizeOf pageshift) = true
      · have hmod := Nat.mod_eq_zero_of_dvd ((aligned_pagesizeOf_iff hk iova).mp halign)
        rw [if_neg (by simp [halign]), firstEntries, hmod]
        simp
      · rw [if_pos ⟨hcount, by simpa using halign⟩, firstEntries, pagesizeOf_eq hk,
          alignDown_twoPow _ (by omega)]
    · have hzero : (prpcountFirst iova len pageshift - 1).toNat = 0 := by omega
      rw [firstEntries, hzero]
      rfl
  simp only [mapPrpFirst, hentries]

theorem pageEntries_succ (iova : U64) (lastSegment : Bool) (start n : ℕ) :
    pageEntries iova pageshift lastSegment start (n + 1) =
      (iova + BitVec.ofNat 64 (start * 2 ^ pageshift), lastSegment && n == 0) ::
        pageEntries iova pageshift lastSegment (start + 1) n := by
  have hlast : (start + 1 == start + (n + 1)) = (n == 0) := by
    rw [Bool.eq_iff_iff]
    simp
  rw [pageEntries, List.range'_succ, List.map_cons, ofNat_shiftLeft, hlast, pageEntries,
    Nat.add_right_comm, Nat.add_assoc start n 1]

theorem map_fst_pageEntries (iova : U64) (lastSegment : Bool) (start n : ℕ) :
    (pageEntries iova pageshift lastSegment start n).map Prod.fst =
      pagesFrom iova pageshift start n := by
  simp [pageEntries, pagesFrom, Function.comp_def, ofNat_shiftLeft]

@[simp] theorem length_pageEntries (iova : U64) (lastSegment : Bool) (start n : ℕ) :
    (pageEntries iova pageshift lastSegment start n).length = n := by
  simp [pageEntries]

theorem lastMarked_pageEntries (iova : U64) (start n : ℕ) :
    LastMarked (pageEntries iova pageshift true start n) := by
  induction n generalizing start with
  | zero => trivial
  | succ n ih =>
      rw [pageEntries_succ]
      refine ⟨?_, ih (start + 1)⟩
      cases n <;> simp [pageEntries]

theorem not_marked_pageEntries (iova : U64) (start n : ℕ) :
    ∀ e ∈ pageEntries iova pageshift false start n, e.2 = false := by
  intro e he
  obtain ⟨i, -, rfl⟩ := List.mem_map.mp he
  rfl

/-! ## What the controller reads back -/

theorem listRead_of_tidy {c : PrpCursor} (hc : c.Tidy pageshift) (base : U64)
    (hsmall : 8 * c.index pageshift < 2 ^ 64) :
    ∀ s ∈ c.stores,
      listRead base c.stores (base + BitVec.ofNat 64 (8 * s.1)) = some s.2 := by
  intro s hs
  have hlt := hc.behind s hs
  rw [listRead_slot base _ (by omega), listMemory_eq_some hc.sorted hs]

theorem setPrp2_single {base : U64} {nprplists : ℕ} {e : U64 × Bool} {c : PrpCursor}
    (held : ℕ → U64) (hmark : LastMarked [e])
    (hput : prpCursorPutAll (maxPrpsOf pageshift) pageshift (prpCursorInit base nprplists) [e] =
      (true, c)) :
    setPrp2 c held (1 + ([e] : List (U64 × Bool)).length) = e.1 := by
  obtain ⟨d, hfirst, hrest⟩ := prpCursorPutAll_cons_eq_true.mp hput
  obtain ⟨-, rfl⟩ := Prod.mk.inj hrest
  have hstores : d.stores = [(0, e.1)] := by
    rcases prpCursorPut_eq_true hfirst with ⟨hchain, -⟩ | ⟨-, -, -, rfl⟩
    · simpa [hmark.1] using hchain.2.2
    · simp [PrpCursor.putHere, prpCursorInit, PrpCursor.index]
  simp [setPrp2, hstores, listMemory]

theorem setPrp2_list {e e' : U64 × Bool} {es : List (U64 × Bool)} {c : PrpCursor}
    (held : ℕ → U64) : setPrp2 c held (1 + (e :: e' :: es).length) = c.prplistIova := by
  have hcount : (2 : ℤ) < 1 + (e :: e' :: es).length := by
    simp only [List.length_cons]
    omega
  rw [setPrp2, if_neg hcount.ne', if_pos hcount]

theorem address_init (base : U64) (nprplists : ℕ) :
    (prpCursorInit base nprplists).address pageshift = base := by
  simp [PrpCursor.address, PrpCursor.index, prpCursorInit]

section Built

variable {base : U64} {nprplists : ℕ} {es : List (U64 × Bool)} {c : PrpCursor}
  (hput : prpCursorPutAll (maxPrpsOf pageshift) pageshift (prpCursorInit base nprplists) es =
    (true, c))

include hput

theorem index_le_two_mul : c.index pageshift ≤ 2 * es.length := by
  have hle := (written_of_putAll (tidy_init pageshift base nprplists) hput).index_le
  simpa [PrpCursor.index, prpCursorInit] using hle

theorem listRead_of_outside (hk : 3 ≤ pageshift) (hn : 0 < nprplists) {addr : U64}
    (hout : nprplists * 2 ^ pageshift ≤ (addr - base).toNat) :
    listRead base c.stores addr = none := by
  have hwritten := written_of_putAll (tidy_init pageshift base nprplists) hput
  have hinside : c.index pageshift ≤ nprplists * maxPrpsOf pageshift :=
    index_le_of_putAll hn (Nat.zero_le _) hput
  rw [← eight_mul_maxPrpsOf hk, Nat.mul_left_comm] at hout
  rw [listRead]
  split_ifs with hword
  · refine listMemory_eq_none fun s hs => ?_
    have hlt := hwritten.tidy.behind s hs
    omega
  · rfl

end Built

/-- A command whose list was built by a successful sequence of entries, for as many
bytes as need that number of pages. -/
theorem prpWalk_of_putAll {base : U64} {nprplists : ℕ} {es : List (U64 × Bool)}
    {c : PrpCursor} (held : ℕ → U64) (iova : U64) (len : ℕ) (hk : 3 ≤ pageshift)
    (hk' : pageshift ≤ 64) (hbase : 2 ^ pageshift ∣ base.toNat) (hmark : LastMarked es)
    (hput : prpCursorPutAll (maxPrpsOf pageshift) pageshift (prpCursorInit base nprplists) es =
      (true, c))
    (hsmall : es.length < 2 ^ 60)
    (hlo : es.length * 2 ^ pageshift <
      len - firstChunk (2 ^ pageshift) iova len + 2 ^ pageshift)
    (hhi : len - firstChunk (2 ^ pageshift) iova len ≤ es.length * 2 ^ pageshift) :
    prpWalk (listRead base c.stores) (2 ^ pageshift)
        ⟨iova, setPrp2 c held (1 + es.length)⟩ len =
      some (byteRange iova (firstChunk (2 ^ pageshift) iova len) ++
        pageBytes (2 ^ pageshift) (es.map Prod.fst)
          (len - firstChunk (2 ^ pageshift) iova len)) := by
  have hinit := tidy_init pageshift base nprplists
  have hwritten := written_of_putAll hinit hput
  have hindex := index_le_two_mul hput
  have hread := listRead_of_tidy hwritten.tidy base (by omega)
  simp only [prpWalk]
  generalize firstChunk (2 ^ pageshift) iova len = first at *
  rcases es with _ | ⟨e, _ | ⟨e', es⟩⟩
  · have hzero : len - first = 0 := by simpa using hhi
    rw [if_pos hzero]
    simp [pageBytes]
  · simp only [List.length_singleton, Nat.one_mul] at hlo hhi
    rw [if_neg (by omega), if_pos hhi, setPrp2_single held hmark hput]
    simp [pageBytes, hhi]
  · have hmore : 2 ^ pageshift < len - first := by
      simp only [List.length_cons, Nat.add_mul] at hlo
      omega
    have hwalk := walkList_putAll hk hk' hbase hinit hmark hput hread hlo hhi le_rfl
    rw [address_init] at hwalk
    rw [if_neg (by omega), if_neg (by omega), setPrp2_list, hwritten.base_eq]
    exact congrArg _ hwalk

/-- A command whose list lacks pages, when the last page that is listed lies outside the list
pages. -/
theorem prpWalk_of_putAll_short {base : U64} {nprplists : ℕ} {es : List (U64 × Bool)}
    {c : PrpCursor} (held : ℕ → U64) (iova : U64) (len : ℕ) (hk : 3 ≤ pageshift)
    (hk' : pageshift ≤ 64) (hbase : 2 ^ pageshift ∣ base.toNat) (hmark : LastMarked es)
    (hput : prpCursorPutAll (maxPrpsOf pageshift) pageshift (prpCursorInit base nprplists) es =
      (true, c))
    (hn : 0 < nprplists) (hsmall : es.length < 2 ^ 59) (hne : es ≠ [])
    (hlast : ∀ e ∈ es.getLast?, nprplists * 2 ^ pageshift ≤ (e.1 - base).toNat)
    (hlo : es.length * 2 ^ pageshift < len - firstChunk (2 ^ pageshift) iova len) :
    prpWalk (listRead base c.stores) (2 ^ pageshift)
        ⟨iova, setPrp2 c held (1 + es.length)⟩ len = none := by
  have hinit := tidy_init pageshift base nprplists
  have hwritten := written_of_putAll hinit hput
  have hindex := index_le_two_mul hput
  have hread := listRead_of_tidy hwritten.tidy base (by omega)
  have hend : listRead base c.stores (c.address pageshift) = none := by
    rw [PrpCursor.address, hwritten.base_eq, prpCursorInit, listRead_slot _ _ (by omega)]
    exact listMemory_eq_none fun s hs => (hwritten.tidy.behind s hs).ne
  have hstray : ∀ e ∈ es.getLast?, listRead base c.stores e.1 = none := fun e he =>
    listRead_of_outside hput hk hn (hlast e he)
  simp only [prpWalk]
  generalize firstChunk (2 ^ pageshift) iova len = first at *
  have hpow : 0 < 2 ^ pageshift := by positivity
  have hlen := Nat.mul_le_mul_right (2 ^ pageshift) (List.length_pos_iff.mpr hne)
  rw [if_neg (by omega), if_neg (by omega)]
  rcases es with _ | ⟨e, _ | ⟨e', es⟩⟩
  · exact absurd rfl hne
  · rw [setPrp2_single held hmark hput, walkList_none (by omega) (hstray e (by simp))]
    rfl
  · have hwalk := walkList_putAll_short hk hk' hbase hinit hmark hput hread hend hstray hne hlo
      le_rfl
    rw [address_init] at hwalk
    rw [setPrp2_list, hwritten.base_eq]
    exact congrArg _ hwalk

/-- The pages behind the first one continue the buffer where its first page ends. -/
theorem byteRange_firstChunk (pageshift : ℕ) (iova : U64) (len : ℕ) :
    byteRange iova (firstChunk (2 ^ pageshift) iova len) ++
        byteRange (iova - BitVec.ofNat 64 (iova.toNat % 2 ^ pageshift) +
          BitVec.ofNat 64 (1 * 2 ^ pageshift)) (len - firstChunk (2 ^ pageshift) iova len) =
      byteRange iova len := by
  have hmod : iova.toNat % 2 ^ pageshift < 2 ^ pageshift := Nat.mod_lt _ (by positivity)
  by_cases hshort : len ≤ 2 ^ pageshift - iova.toNat % 2 ^ pageshift
  · rw [firstChunk, Nat.min_eq_left hshort, Nat.sub_self, byteRange_zero, List.append_nil]
  · have hchunk : firstChunk (2 ^ pageshift) iova len =
        2 ^ pageshift - iova.toNat % 2 ^ pageshift := Nat.min_eq_right (by omega)
    have hnext : iova - BitVec.ofNat 64 (iova.toNat % 2 ^ pageshift) +
        BitVec.ofNat 64 (1 * 2 ^ pageshift) =
          iova + BitVec.ofNat 64 (2 ^ pageshift - iova.toNat % 2 ^ pageshift) := by
      have hsum : BitVec.ofNat 64 (1 * 2 ^ pageshift) =
          BitVec.ofNat 64 (2 ^ pageshift - iova.toNat % 2 ^ pageshift) +
            BitVec.ofNat 64 (iova.toNat % 2 ^ pageshift) := by
        rw [← BitVec.ofNat_add, Nat.one_mul, Nat.sub_add_cancel hmod.le]
      rw [hsum]
      ring
    rw [hnext, ← hchunk, ← byteRange_add]
    congr 1
    omega

theorem pagesAfter_bounds (pageshift : ℕ) (iova : U64) (len : ℕ) :
    pagesAfter pageshift iova len * 2 ^ pageshift <
        len - firstChunk (2 ^ pageshift) iova len + 2 ^ pageshift ∧
      len - firstChunk (2 ^ pageshift) iova len ≤
        pagesAfter pageshift iova len * 2 ^ pageshift := by
  have hpos : 0 < 2 ^ pageshift := by positivity
  have hdiv := Nat.div_add_mod' (len - firstChunk (2 ^ pageshift) iova len + 2 ^ pageshift - 1)
    (2 ^ pageshift)
  have hmod := Nat.mod_lt (len - firstChunk (2 ^ pageshift) iova len + 2 ^ pageshift - 1) hpos
  rw [pagesAfter]
  omega

theorem two_pow_half (hk : pageshift < 32) :
    2 ^ (32 - pageshift) = 2 * 2 ^ (31 - pageshift) := by
  rw [← Nat.pow_succ']
  congr 1
  omega

/-- A count that is not negative is the number of pages, for lengths below
`2 ^ 31`. -/
theorem prpcountFirst_of_nonneg (hk : pageshift < 31) {iova len : U64}
    (hlen : len.toNat < 2 ^ 31) (hcount : 0 ≤ prpcountFirst iova len pageshift) :
    prpcountFirst iova len pageshift = 1 + pagesAfter pageshift iova len.toNat := by
  have hpos : 0 < 2 ^ pageshift := by positivity
  obtain ⟨hlo, -⟩ := pagesAfter_bounds pageshift iova len.toNat
  have hword : 2 ^ (31 - pageshift) * 2 ^ pageshift = 2 ^ 31 := by
    rw [← Nat.pow_add]
    congr 1
    omega
  have htwo : 2 ≤ 2 ^ (31 - pageshift) := Nat.le_self_pow (by omega) 2
  have hle : pagesAfter pageshift iova len.toNat ≤ 2 ^ (31 - pageshift) := by
    by_contra hgt
    have := Nat.mul_le_mul_right (2 ^ pageshift) (Nat.succ_le_of_lt (not_le.mp hgt))
    rw [Nat.succ_mul, hword] at this
    omega
  rw [prpcountFirst_eq hk, two_pow_half (by omega)] at hcount ⊢
  generalize 2 ^ (31 - pageshift) = half at *
  rw [Int.bmod_def, Int.emod_eq_of_lt (by omega) (by omega)] at hcount ⊢
  split_ifs at hcount ⊢ with hhalf
  · rfl
  · omega

theorem prpcountFirst_of_lt (hk : pageshift < 31) {iova len : U64}
    (hpages : pagesAfter pageshift iova len.toNat < 2 ^ (31 - pageshift)) :
    prpcountFirst iova len pageshift = 1 + pagesAfter pageshift iova len.toNat := by
  have hdouble := two_pow_half (by omega : pageshift < 32)
  rw [prpcountFirst_eq hk, Int.bmod_eq_of_le (by omega) (by omega)]

theorem map_fst_firstEntries {iova len : U64}
    (hcount : prpcountFirst iova len pageshift = 1 + pagesAfter pageshift iova len.toNat)
    (lastSegment : Bool) :
    (firstEntries pageshift iova len lastSegment).map Prod.fst =
      pagesFrom (iova - BitVec.ofNat 64 (iova.toNat % 2 ^ pageshift)) pageshift 1
        (pagesAfter pageshift iova len.toNat) := by
  rw [firstEntries, map_fst_pageEntries, hcount, add_sub_cancel_left, Int.toNat_natCast]

theorem length_firstEntries {iova len : U64}
    (hcount : prpcountFirst iova len pageshift = 1 + pagesAfter pageshift iova len.toNat)
    (lastSegment : Bool) :
    (firstEntries pageshift iova len lastSegment).length =
      pagesAfter pageshift iova len.toNat := by
  rw [← List.length_map Prod.fst, map_fst_firstEntries hcount, length_pagesFrom]

/-- A first segment that was mapped without failure. -/
theorem mapPrpFirst_nonneg (hk : pageshift < 31) {c c' : PrpCursor} {iova len : U64}
    {lastSegment : Bool} {count : ℤ} (hcount : ¬count < 0)
    (h : mapPrpFirst c iova len pageshift lastSegment = (count, c')) :
    count = prpcountFirst iova len pageshift ∧
      count - 1 ≤ prplistCapacity c.nprplists (maxPrpsOf pageshift) ∧
      prpCursorPutAll (maxPrpsOf pageshift) pageshift c
        (firstEntries pageshift iova len lastSegment) = (true, c') := by
  rw [mapPrpFirst_eq hk] at h
  dsimp only at h
  split_ifs at h with hcap hput
  · obtain ⟨rfl, -⟩ := Prod.mk.inj h
    omega
  · obtain ⟨rfl, rfl⟩ := Prod.mk.inj h
    exact ⟨rfl, not_lt.mp hcap, Prod.ext hput rfl⟩
  · obtain ⟨rfl, -⟩ := Prod.mk.inj h
    omega

/-- What a successful call leaves behind. -/
theorem nvmeMapPrp_ok {ctrl : NvmeCtrl} {prplists prplistIova : U64} {held : ℕ → U64}
    {nprplists : ℕ} {cmd : NvmeCmd} {iova len : U64}
    (hmapped : iommuTranslateVaddr ctrl.map prplists = some prplistIova)
    (hret : (nvmeMapPrp ctrl prplists held nprplists cmd iova len).ret = .ok ()) :
    ∃ c, prpCursorPutAll (maxPrpsOf ctrl.pageshift) ctrl.pageshift
          (prpCursorInit prplistIova nprplists)
          (firstEntries ctrl.pageshift iova len true) = (true, c) ∧
      0 ≤ prpcountFirst iova len ctrl.pageshift ∧
      nvmeMapPrp ctrl prplists held nprplists cmd iova len =
        ⟨.ok (),
          { cmd with dptr := ⟨iova, setPrp2 c held (prpcountFirst iova len ctrl.pageshift)⟩ },
          c.stores⟩ := by
  rw [nvmeMapPrp, hmapped] at hret ⊢
  dsimp only at hret ⊢
  rcases hfirst : mapPrpFirst (prpCursorInit prplistIova nprplists) iova len ctrl.pageshift true
    with ⟨count, c⟩
  rw [hfirst] at hret
  split_ifs at hret ⊢ with hn hneg
  obtain ⟨rfl, -, hput⟩ := mapPrpFirst_nonneg ctrl.pageshift_lt hneg hfirst
  exact ⟨c, hput, not_lt.mp hneg, rfl⟩

/-- A buffer whose pages were counted right is what the controller reads. -/
theorem prpWalk_of_count {ctrl : NvmeCtrl} {prplists prplistIova : U64} {held : ℕ → U64}
    {nprplists : ℕ} {cmd : NvmeCmd} {iova len : U64}
    (hmapped : iommuTranslateVaddr ctrl.map prplists = some prplistIova)
    (haligned : 2 ^ ctrl.pageshift ∣ prplistIova.toNat)
    (hcount : prpcountFirst iova len ctrl.pageshift =
      1 + pagesAfter ctrl.pageshift iova len.toNat)
    (hret : (nvmeMapPrp ctrl prplists held nprplists cmd iova len).ret = .ok ()) :
    prpWalk
        (listRead prplistIova (nvmeMapPrp ctrl prplists held nprplists cmd iova len).stores)
        (2 ^ ctrl.pageshift) (nvmeMapPrp ctrl prplists held nprplists cmd iova len).cmd.dptr
        len.toNat =
      some (byteRange iova len.toNat) := by
  have hk := ctrl.pageshift_lt
  have hk' := ctrl.le_pageshift
  obtain ⟨c, hput, -, hout⟩ := nvmeMapPrp_ok hmapped hret
  have hlength := length_firstEntries hcount true
  obtain ⟨hlo, hhi⟩ := pagesAfter_bounds ctrl.pageshift iova len.toNat
  have hsmall : pagesAfter ctrl.pageshift iova len.toNat < 2 ^ 60 := by
    have hpow : 2 ^ ctrl.pageshift < 2 ^ 31 := Nat.pow_lt_pow_right (by omega) hk
    have hpow' : 2 ^ 12 ≤ 2 ^ ctrl.pageshift := Nat.pow_le_pow_right (by omega) hk'
    have hle := Nat.mul_le_mul_left (pagesAfter ctrl.pageshift iova len.toNat) hpow'
    omega
  have hmark : LastMarked (firstEntries ctrl.pageshift iova len true) :=
    lastMarked_pageEntries _ _ _
  have hwalk := prpWalk_of_putAll held iova len.toNat (by omega) (by omega) haligned hmark hput
    (hlength ▸ hsmall) (hlength ▸ hlo) (hlength ▸ hhi)
  rw [map_fst_firstEntries hcount, pageBytes_pagesFrom, Nat.min_eq_left hhi,
    byteRange_firstChunk, hlength, ← hcount] at hwalk
  rw [hout]
  exact hwalk

/-- A mapped buffer is what the controller reads from the command: every byte of it
in order, without a look at a list slot that was not written. -/
theorem prpWalk_nvmeMapPrp (ctrl : NvmeCtrl) (prplists prplistIova : U64)
    (held : ℕ → U64) (nprplists : ℕ) (cmd : NvmeCmd) (iova len : U64)
    (hmapped : iommuTranslateVaddr ctrl.map prplists = some prplistIova)
    (haligned : 2 ^ ctrl.pageshift ∣ prplistIova.toNat) (hlen : len.toNat < 2 ^ 31)
    (hret : (nvmeMapPrp ctrl prplists held nprplists cmd iova len).ret = .ok ()) :
    prpWalk
        (listRead prplistIova (nvmeMapPrp ctrl prplists held nprplists cmd iova len).stores)
        (2 ^ ctrl.pageshift) (nvmeMapPrp ctrl prplists held nprplists cmd iova len).cmd.dptr
        len.toNat =
      some (byteRange iova len.toNat) := by
  obtain ⟨-, -, hnonneg, -⟩ := nvmeMapPrp_ok hmapped hret
  have hcount := prpcountFirst_of_nonneg ctrl.pageshift_lt hlen hnonneg
  exact prpWalk_of_count hmapped haligned hcount hret

def twoPageCtrl : NvmeCtrl where
  map :=
    let empty := iovaMapInit (fun _ => false) ⟨0, 0, 0, 0⟩
    (iovaMapAdd empty 0x10000 0x2000 0x20000 0).toOption.getD empty
  config := ⟨0, mpsToPageshift_zero_lt⟩
  flags := 0

/-- Three pages and a bit, from the middle of a page on. -/
theorem prpWalk_nvmeMapPrp_three_pages :
    prpWalk
        (listRead 0x20000
          (nvmeMapPrp twoPageCtrl 0x10000 (fun _ => 0) 2 ⟨0, ⟨0, 0⟩⟩ 0x1000100 0x3000).stores)
        (2 ^ twoPageCtrl.pageshift)
        (nvmeMapPrp twoPageCtrl 0x10000 (fun _ => 0) 2 ⟨0, ⟨0, 0⟩⟩ 0x1000100 0x3000).cmd.dptr
        0x3000 =
      some (byteRange 0x1000100 0x3000) :=
  prpWalk_nvmeMapPrp twoPageCtrl 0x10000 0x20000 (fun _ => 0) 2 ⟨0, ⟨0, 0⟩⟩ 0x1000100 0x3000
    (by decide) (by decide) (by decide) rfl

end Nvme

end Libvfn
