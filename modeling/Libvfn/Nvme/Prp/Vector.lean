import Libvfn.Nvme.Prp.RoundTrip

/-!
# Vectors of segments

Region pages can describe a vector whose segments meet at page boundaries. The
segments behind the first one are appended to the same list, each with a count of
entries of its own, and only the last entry of the last segment is marked.

A later segment gets as many entries as its length has whole pages, and at least
one. That covers the segment when it is no longer than a page or ends with a whole
page; otherwise the last page is missing, and the controller does not find what it
looks for.
-/

namespace Libvfn

namespace Nvme

open Word Support Iommu

variable {pageshift : ℕ}

/-- The segments behind the first start at a page boundary, and all but the last
end at one. -/
structure RestDescribable (pagesize : ℕ) (rest : List IovaVec) : Prop where
  starts : ∀ v ∈ rest, pagesize ∣ v.iova.toNat
  lengths : ∀ v ∈ rest.dropLast, pagesize ∣ v.len.toNat

def Describable (pagesize : ℕ) (first : IovaVec) (rest : List IovaVec) : Prop :=
  rest ≠ [] →
    pagesize ∣ (first.iova + first.len).toNat ∧ RestDescribable pagesize rest

/-- The last segment of several is no longer than a page or a number of whole
pages. -/
def LastFits (pagesize : ℕ) (rest : List IovaVec) : Prop :=
  ∀ v ∈ rest.getLast?, v.len.toNat ≤ pagesize ∨ pagesize ∣ v.len.toNat

def vecBytes (vs : List IovaVec) : List U64 :=
  vs.flatMap fun v => byteRange v.iova v.len.toNat

def vecLength (vs : List IovaVec) : ℕ :=
  (vs.map fun v => v.len.toNat).sum

theorem restDescribable_nil (pagesize : ℕ) : RestDescribable pagesize [] :=
  ⟨by simp, by simp⟩

theorem restDescribable_cons {pagesize : ℕ} {v : IovaVec} {vs : List IovaVec} :
    RestDescribable pagesize (v :: vs) ↔
      pagesize ∣ v.iova.toNat ∧ (vs ≠ [] → pagesize ∣ v.len.toNat) ∧
        RestDescribable pagesize vs := by
  constructor
  · rintro ⟨hstarts, hlengths⟩
    refine ⟨hstarts v List.mem_cons_self, ?_, ?_, ?_⟩
    · intro hne
      exact hlengths v (by simp [List.dropLast_cons_of_ne_nil hne])
    · exact fun w hw => hstarts w (List.mem_cons_of_mem v hw)
    · intro w hw
      have hne : vs ≠ [] := by
        rintro rfl
        simp at hw
      exact hlengths w (by simp [List.dropLast_cons_of_ne_nil hne, hw])
  · rintro ⟨hstart, hlength, hrest⟩
    refine ⟨List.forall_mem_cons.mpr ⟨hstart, hrest.starts⟩, ?_⟩
    intro w hw
    by_cases hne : vs = []
    · simp [hne] at hw
    · rw [List.dropLast_cons_of_ne_nil hne, List.mem_cons] at hw
      rcases hw with rfl | hw
      · exact hlength hne
      · exact hrest.lengths w hw

/-! ## The loop over the segments -/

theorem one_le_prpcountAppend (len : U64) (pageshift : ℕ) :
    1 ≤ prpcountAppend len pageshift := le_max_left _ _

def restEntries (pageshift : ℕ) : List IovaVec → List (U64 × Bool)
  | [] => []
  | v :: vs =>
      pageEntries v.iova pageshift vs.isEmpty 0 (prpcountAppend v.len pageshift).toNat ++
        restEntries pageshift vs

theorem mapPrpAppend_of_aligned (hk : pageshift < 31) {c : PrpCursor} {iova len : U64}
    {maxPrps : ℕ} {lastSegment : Bool} (halign : 2 ^ pageshift ∣ iova.toNat) :
    mapPrpAppend c iova len maxPrps pageshift lastSegment =
      let r := prpCursorPutAll maxPrps pageshift c
        (pageEntries iova pageshift lastSegment 0 (prpcountAppend len pageshift).toNat)
      if r.1 then (prpcountAppend len pageshift, r.2) else (-1, r.2) := by
  rw [mapPrpAppend, (aligned_pagesizeOf_iff hk iova).mpr halign]
  simp

theorem mapPrpAppend_of_not_aligned (hk : pageshift < 31) {c : PrpCursor} {iova len : U64}
    {maxPrps : ℕ} {lastSegment : Bool} (halign : ¬2 ^ pageshift ∣ iova.toNat) :
    mapPrpAppend c iova len maxPrps pageshift lastSegment = (-1, c) := by
  rw [← aligned_pagesizeOf_iff hk, Bool.not_eq_true] at halign
  rw [mapPrpAppend, halign]
  simp

/-- The loop succeeds exactly on segments that can be described and whose entries
fit, and it leaves the list that the entries of all of them make. -/
theorem mapvSegments_eq_ok_iff (hk : pageshift < 31) {c c' : PrpCursor} {n m : ℤ}
    {rest : List IovaVec} :
    mapvSegments (fun v => some v.iova) IovaVec.len pageshift c n rest = (.ok m, c') ↔
      RestDescribable (2 ^ pageshift) rest ∧
        prpCursorPutAll (maxPrpsOf pageshift) pageshift c (restEntries pageshift rest) =
          (true, c') ∧
        m = n + (restEntries pageshift rest).length := by
  induction rest generalizing c n with
  | nil =>
      simp [mapvSegments, restDescribable_nil, restEntries, prpCursorPutAll, and_comm, eq_comm]
  | cons v vs ih =>
      have hcount := one_le_prpcountAppend v.len pageshift
      have hcheck : (!vs.isEmpty && !aligned v.len (pagesizeOf pageshift)) = true ↔
          ¬(vs ≠ [] → 2 ^ pageshift ∣ v.len.toNat) := by
        rw [← aligned_pagesizeOf_iff hk]
        simp
      rw [restDescribable_cons, mapvSegments, restEntries, prpCursorPutAll_append]
      dsimp only
      by_cases hlen : vs ≠ [] → 2 ^ pageshift ∣ v.len.toNat
      · rw [if_neg (by rw [hcheck]; exact not_not.mpr hlen)]
        by_cases halign : 2 ^ pageshift ∣ v.iova.toNat
        · rw [mapPrpAppend_of_aligned hk halign]
          dsimp only
          split_ifs with hput hneg
          · omega
          · have hadd : n + ((prpcountAppend v.len pageshift).toNat +
                (restEntries pageshift vs).length : ℕ) =
                  n + prpcountAppend v.len pageshift + (restEntries pageshift vs).length := by
              omega
            rw [ih, List.length_append, length_pageEntries, hadd]
            constructor
            · rintro ⟨hrest, hput', hm⟩
              exact ⟨⟨halign, hlen, hrest⟩, hput', hm⟩
            · rintro ⟨⟨-, -, hrest⟩, hput', hm⟩
              exact ⟨hrest, hput', hm⟩
          · have hfail : ∀ d, prpCursorPutAll (maxPrpsOf pageshift) pageshift c
                (pageEntries v.iova pageshift vs.isEmpty 0
                  (prpcountAppend v.len pageshift).toNat) ≠ (true, d) := by
              intro d h
              exact hput (congrArg Prod.fst h)
            simp [hfail]
          · omega
        · rw [mapPrpAppend_of_not_aligned hk halign]
          simp [halign]
      · rw [if_pos (hcheck.mpr hlen)]
        simp [hlen]

theorem mapvSegments_error {c c' : PrpCursor} {n : ℤ} {rest : List IovaVec} {e : Errno}
    (h : mapvSegments (fun v => some v.iova) IovaVec.len pageshift c n rest = (.error e, c')) :
    e = .EINVAL := by
  induction rest generalizing c n with
  | nil => simp [mapvSegments] at h
  | cons v vs ih =>
      rw [mapvSegments] at h
      dsimp only at h
      split_ifs at h
      · exact (Except.error.inj (Prod.mk.inj h).1).symm
      · exact (Except.error.inj (Prod.mk.inj h).1).symm
      · exact ih h

def vecEntries (pageshift : ℕ) (first : IovaVec) (rest : List IovaVec) :
    List (U64 × Bool) :=
  firstEntries pageshift first.iova first.len rest.isEmpty ++ restEntries pageshift rest

/-- What the checks of the vector functions amount to. -/
structure Accepted (pageshift : ℕ) (c : PrpCursor) (first : IovaVec)
    (rest : List IovaVec) : Prop where
  nonneg : 0 ≤ prpcountFirst first.iova first.len pageshift
  capacity : prpcountFirst first.iova first.len pageshift - 1 ≤
    prplistCapacity c.nprplists (maxPrpsOf pageshift)
  ends : prpcountFirst first.iova first.len pageshift = 1 ∨ rest = [] ∨
    2 ^ pageshift ∣ (first.iova + first.len).toNat
  describable : RestDescribable (2 ^ pageshift) rest
  fits : (prpCursorPutAll (maxPrpsOf pageshift) pageshift c
    (vecEntries pageshift first rest)).1 = true

variable {held : ℕ → U64} {c : PrpCursor} {cmd : NvmeCmd} {first : IovaVec}
  {rest : List IovaVec}

theorem ends_check_iff (hk : pageshift < 31) (count : ℤ) :
    (!(decide (count = 1) || rest.isEmpty ||
        aligned (first.iova + first.len) (pagesizeOf pageshift))) = true ↔
      ¬(count = 1 ∨ rest = [] ∨ 2 ^ pageshift ∣ (first.iova + first.len).toNat) := by
  rw [← aligned_pagesizeOf_iff hk]
  simp [and_assoc]

/-- A vector that passes the checks. -/
theorem mapvPrp_of_accepted (hk : pageshift < 31) (h : Accepted pageshift c first rest) :
    mapvPrp (fun v => some v.iova) IovaVec.len pageshift held c cmd first.iova first.len rest =
      let c' := (prpCursorPutAll (maxPrpsOf pageshift) pageshift c
        (vecEntries pageshift first rest)).2
      ⟨.ok (),
        { cmd with
          dptr := ⟨first.iova, setPrp2 c' held
            (prpcountFirst first.iova first.len pageshift +
              (restEntries pageshift rest).length)⟩ },
        c'.stores⟩ := by
  obtain ⟨hnonneg, hcap, hends, hdesc, hfits⟩ := h
  rw [vecEntries, prpCursorPutAll_append] at hfits ⊢
  split_ifs at hfits ⊢ with hput
  · have hrest := (mapvSegments_eq_ok_iff hk
      (n := prpcountFirst first.iova first.len pageshift)).mpr ⟨hdesc, Prod.ext hfits rfl, rfl⟩
    rw [mapvPrp, mapPrpFirst_eq hk, if_neg (not_lt.mpr hcap)]
    dsimp only
    rw [if_pos hput, if_neg (not_lt.mpr hnonneg),
      if_neg (by rw [ends_check_iff hk]; exact not_not.mpr hends), hrest]
  · exact absurd hfits hput

/-- A vector that does not. -/
theorem mapvPrp_of_not_accepted (hk : pageshift < 31) (h : ¬Accepted pageshift c first rest) :
    (mapvPrp (fun v => some v.iova) IovaVec.len pageshift held c cmd first.iova first.len
      rest).ret = .error .EINVAL := by
  rcases hfirst : mapPrpFirst c first.iova first.len pageshift rest.isEmpty with ⟨count, d⟩
  rw [mapvPrp, hfirst]
  dsimp only
  split_ifs with hneg hcheck
  · rfl
  · rfl
  · rcases hrest : mapvSegments (fun v => some v.iova) IovaVec.len pageshift d count rest
      with ⟨e | m, d'⟩
    · rw [hrest]
      exact congrArg Except.error (mapvSegments_error hrest)
    · exfalso
      obtain ⟨rfl, hcap, hput⟩ := mapPrpFirst_nonneg hk hneg hfirst
      obtain ⟨hdesc, hput', -⟩ := (mapvSegments_eq_ok_iff hk).mp hrest
      rw [ends_check_iff hk, not_not] at hcheck
      refine h ⟨not_lt.mp hneg, hcap, hcheck, hdesc, ?_⟩
      rw [vecEntries, prpCursorPutAll_append, hput, if_pos rfl, hput']

/-! ## The pages of the later segments -/

theorem prpcountAppend_of_lt {len : U64} (hlen : len.toNat < 2 ^ 31) :
    (prpcountAppend len pageshift).toNat = max 1 (len.toNat / 2 ^ pageshift) := by
  have hint : (len.setWidth 32).toInt = len.toNat := by
    rw [BitVec.toInt_setWidth]
    exact Int.bmod_eq_of_le (by omega) (by omega)
  rw [prpcountAppend, hint, Int.shiftRight_eq_div_pow, ← Int.natCast_ediv]
  omega

theorem prpcountAppend_of_dvd {len : U64} (hpos : 0 < len.toNat) (hlen : len.toNat < 2 ^ 31)
    (hdvd : 2 ^ pageshift ∣ len.toNat) :
    (prpcountAppend len pageshift).toNat * 2 ^ pageshift = len.toNat := by
  rw [prpcountAppend_of_lt hlen, Nat.max_eq_right, Nat.div_mul_cancel hdvd]
  exact Nat.div_pos (Nat.le_of_dvd hpos hdvd) (by positivity)

@[simp]
theorem vecLength_cons (v : IovaVec) (vs : List IovaVec) :
    vecLength (v :: vs) = v.len.toNat + vecLength vs := by
  simp [vecLength]

theorem len_le_vecLength {v : IovaVec} {vs : List IovaVec} (hv : v ∈ vs) :
    v.len.toNat ≤ vecLength vs :=
  List.single_le_sum (by simp) _ (List.mem_map_of_mem hv)

@[simp]
theorem vecBytes_cons (v : IovaVec) (vs : List IovaVec) :
    vecBytes (v :: vs) = byteRange v.iova v.len.toNat ++ vecBytes vs := by
  simp [vecBytes]

theorem lastFits_cons {pagesize : ℕ} {v : IovaVec} {vs : List IovaVec} (hne : vs ≠ []) :
    LastFits pagesize (v :: vs) ↔ LastFits pagesize vs := by
  rw [LastFits, List.getLast?_cons_of_ne_nil hne, LastFits]

theorem lastFits_singleton {pagesize : ℕ} {v : IovaVec} :
    LastFits pagesize [v] ↔ v.len.toNat ≤ pagesize ∨ pagesize ∣ v.len.toNat := by
  simp [LastFits]

theorem length_restEntries_cons (v : IovaVec) (vs : List IovaVec) :
    (restEntries pageshift (v :: vs)).length =
      (prpcountAppend v.len pageshift).toNat + (restEntries pageshift vs).length := by
  rw [restEntries, List.length_append, length_pageEntries]

/-- Where the last segment fits, the entries cover the segments. -/
theorem restEntries_cover {rest : List IovaVec} (hdesc : RestDescribable (2 ^ pageshift) rest)
    (hpos : ∀ v ∈ rest, 0 < v.len.toNat) (hlen : ∀ v ∈ rest, v.len.toNat < 2 ^ 31)
    (hfits : LastFits (2 ^ pageshift) rest) :
    vecLength rest ≤ (restEntries pageshift rest).length * 2 ^ pageshift ∧
      (restEntries pageshift rest).length * 2 ^ pageshift < vecLength rest + 2 ^ pageshift ∧
      pageBytes (2 ^ pageshift) ((restEntries pageshift rest).map Prod.fst) (vecLength rest) =
        vecBytes rest := by
  have hpow : 0 < 2 ^ pageshift := by positivity
  induction rest with
  | nil => simp [vecLength, restEntries, pageBytes, vecBytes]
  | cons v vs ih =>
      have hv := hpos v List.mem_cons_self
      have hlt := hlen v List.mem_cons_self
      rw [length_restEntries_cons, vecLength_cons, vecBytes_cons, restEntries, List.map_append,
        map_fst_pageEntries, pageBytes_append, pageBytes_pagesFrom, length_pagesFrom, Nat.add_mul,
        Nat.zero_mul, BitVec.add_zero]
      by_cases hne : vs = []
      · subst hne
        have hcover : v.len.toNat ≤ (prpcountAppend v.len pageshift).toNat * 2 ^ pageshift ∧
            (prpcountAppend v.len pageshift).toNat * 2 ^ pageshift <
              v.len.toNat + 2 ^ pageshift := by
          rcases lastFits_singleton.mp hfits with hshort | hdvd
          · have hone : v.len.toNat / 2 ^ pageshift ≤ 1 := Nat.div_le_of_le_mul (by omega)
            rw [prpcountAppend_of_lt hlt, Nat.max_eq_left hone]
            omega
          · rw [prpcountAppend_of_dvd hv hlt hdvd]
            omega
        simp only [vecLength, List.map_nil, List.sum_nil, restEntries, List.length_nil,
          Nat.zero_mul, Nat.add_zero, vecBytes, List.flatMap_nil, pageBytes, List.append_nil,
          Nat.min_eq_left hcover.1]
        exact ⟨hcover.1, hcover.2, trivial⟩
      · obtain ⟨-, hdvd, hrest⟩ := restDescribable_cons.mp hdesc
        obtain ⟨hle, hle', hbytes⟩ := ih hrest
          (fun w hw => hpos w (List.mem_cons_of_mem v hw))
          (fun w hw => hlen w (List.mem_cons_of_mem v hw)) ((lastFits_cons hne).mp hfits)
        rw [prpcountAppend_of_dvd hv hlt (hdvd hne), Nat.min_eq_right (by omega),
          Nat.add_sub_cancel_left, hbytes]
        exact ⟨by omega, by omega, rfl⟩

/-- Where it does not, one page is missing. -/
theorem restEntries_short {rest : List IovaVec} (hdesc : RestDescribable (2 ^ pageshift) rest)
    (hpos : ∀ v ∈ rest, 0 < v.len.toNat) (hlen : ∀ v ∈ rest, v.len.toNat < 2 ^ 31)
    (hfits : ¬LastFits (2 ^ pageshift) rest) :
    (restEntries pageshift rest).length * 2 ^ pageshift < vecLength rest := by
  have hpow : 0 < 2 ^ pageshift := by positivity
  induction rest with
  | nil => simp [LastFits] at hfits
  | cons v vs ih =>
      have hv := hpos v List.mem_cons_self
      have hlt := hlen v List.mem_cons_self
      rw [length_restEntries_cons, vecLength_cons, Nat.add_mul]
      by_cases hne : vs = []
      · subst hne
        rw [lastFits_singleton, not_or, not_le] at hfits
        have hdiv := Nat.div_add_mod' v.len.toNat (2 ^ pageshift)
        have hne : v.len.toNat % 2 ^ pageshift ≠ 0 :=
          fun h => hfits.2 (Nat.dvd_of_mod_eq_zero h)
        rw [prpcountAppend_of_lt hlt, Nat.max_eq_right (Nat.div_pos hfits.1.le hpow)]
        simp only [vecLength, List.map_nil, List.sum_nil, restEntries, List.length_nil,
          Nat.zero_mul, Nat.add_zero]
        omega
      · obtain ⟨-, hdvd, hrest⟩ := restDescribable_cons.mp hdesc
        have := ih hrest (fun w hw => hpos w (List.mem_cons_of_mem v hw))
          (fun w hw => hlen w (List.mem_cons_of_mem v hw))
          (fun h => hfits ((lastFits_cons hne).mpr h))
        rw [prpcountAppend_of_dvd hv hlt (hdvd hne)]
        omega

/-! ## The whole vector -/

theorem restEntries_ne_nil {rest : List IovaVec} (hne : rest ≠ []) :
    restEntries pageshift rest ≠ [] := by
  cases rest with
  | nil => exact absurd rfl hne
  | cons v vs =>
      have hcount := one_le_prpcountAppend v.len pageshift
      rw [← List.length_pos_iff, length_restEntries_cons]
      omega

theorem lastMarked_restEntries (rest : List IovaVec) :
    LastMarked (restEntries pageshift rest) := by
  induction rest with
  | nil => trivial
  | cons v vs ih =>
      rw [restEntries]
      by_cases hne : vs = []
      · subst hne
        rw [restEntries, List.append_nil]
        exact lastMarked_pageEntries _ _ _
      · rw [List.isEmpty_eq_false_iff.mpr hne]
        exact LastMarked.append (not_marked_pageEntries _ _ _) ih (restEntries_ne_nil hne)

theorem lastMarked_vecEntries (pageshift : ℕ) (first : IovaVec) (rest : List IovaVec) :
    LastMarked (vecEntries pageshift first rest) := by
  rw [vecEntries]
  by_cases hne : rest = []
  · subst hne
    rw [restEntries, List.append_nil]
    exact lastMarked_pageEntries _ _ _
  · rw [List.isEmpty_eq_false_iff.mpr hne]
    exact LastMarked.append (not_marked_pageEntries _ _ _) (lastMarked_restEntries rest)
      (restEntries_ne_nil hne)

/-- A first segment that ends with a page fills its first page and whole pages
behind it. -/
theorem pagesAfter_of_ends (hk : pageshift ≤ 64) {iova len : U64} (hpos : 0 < len.toNat)
    (hends : 2 ^ pageshift ∣ (iova + len).toNat) :
    2 ^ pageshift - iova.toNat % 2 ^ pageshift +
        pagesAfter pageshift iova len.toNat * 2 ^ pageshift = len.toNat := by
  have hpow : 0 < 2 ^ pageshift := by positivity
  have hmod := Nat.mod_lt iova.toNat hpow
  have hsum : (iova.toNat % 2 ^ pageshift + len.toNat) % 2 ^ pageshift = 0 := by
    rw [Nat.mod_add_mod, ← Nat.mod_mod_of_dvd _ (Nat.pow_dvd_pow 2 hk), ← BitVec.toNat_add]
    exact Nat.mod_eq_zero_of_dvd hends
  obtain ⟨q, hq⟩ := Nat.dvd_of_mod_eq_zero hsum
  have hq0 : q ≠ 0 := by
    rintro rfl
    omega
  obtain ⟨q, rfl⟩ := Nat.exists_eq_succ_of_ne_zero hq0
  rw [Nat.mul_succ] at hq
  have hchunk : firstChunk (2 ^ pageshift) iova len.toNat =
      2 ^ pageshift - iova.toNat % 2 ^ pageshift := Nat.min_eq_right (by omega)
  have hpages : pagesAfter pageshift iova len.toNat = q := by
    have hnum : len.toNat - firstChunk (2 ^ pageshift) iova len.toNat + 2 ^ pageshift - 1 =
        2 ^ pageshift - 1 + 2 ^ pageshift * q := by omega
    rw [pagesAfter, hnum, Nat.add_mul_div_left _ _ hpow, Nat.div_eq_of_lt (by omega), Nat.zero_add]
  rw [hpages, Nat.mul_comm q]
  omega

/-- Behind a first segment that ends with a page the rest of the vector starts on a
page of its own. -/
theorem vecLength_sub_firstChunk (rest : List IovaVec) (hk : pageshift ≤ 64)
    (hpos : 0 < first.len.toNat) (hends : 2 ^ pageshift ∣ (first.iova + first.len).toNat) :
    firstChunk (2 ^ pageshift) first.iova (vecLength (first :: rest)) =
        firstChunk (2 ^ pageshift) first.iova first.len.toNat ∧
      vecLength (first :: rest) -
          firstChunk (2 ^ pageshift) first.iova (vecLength (first :: rest)) =
        pagesAfter pageshift first.iova first.len.toNat * 2 ^ pageshift + vecLength rest := by
  have hfull := pagesAfter_of_ends hk hpos hends
  rw [vecLength_cons, firstChunk, firstChunk]
  omega

/-- Where the last segment fits, the entries of a vector cover it. -/
theorem vecEntries_cover (hk : pageshift < 31)
    (hpos : ∀ v ∈ first :: rest, 0 < v.len.toNat) (hdesc : Describable (2 ^ pageshift) first rest)
    (hlen : ∀ v ∈ first :: rest, v.len.toNat < 2 ^ 31)
    (hcount : 0 ≤ prpcountFirst first.iova first.len pageshift)
    (hfits : LastFits (2 ^ pageshift) rest) :
    let len := vecLength (first :: rest)
    let chunk := firstChunk (2 ^ pageshift) first.iova len
    (vecEntries pageshift first rest).length * 2 ^ pageshift < len - chunk + 2 ^ pageshift ∧
      len - chunk ≤ (vecEntries pageshift first rest).length * 2 ^ pageshift ∧
      byteRange first.iova chunk ++
          pageBytes (2 ^ pageshift) ((vecEntries pageshift first rest).map Prod.fst)
            (len - chunk) =
        vecBytes (first :: rest) := by
  obtain ⟨hfirst, hlen'⟩ := List.forall_mem_cons.mp hlen
  intro len chunk
  rw [vecEntries, List.length_append, List.map_append, pageBytes_append, List.length_map,
    length_firstEntries (prpcountFirst_of_nonneg hk hfirst hcount),
    map_fst_firstEntries (prpcountFirst_of_nonneg hk hfirst hcount),
    pageBytes_pagesFrom, vecBytes_cons]
  by_cases hne : rest = []
  · subst hne
    have hall : len = first.len.toNat := by simp [len, vecLength]
    obtain ⟨hlo, hhi⟩ := pagesAfter_bounds pageshift first.iova first.len.toNat
    simp only [chunk, hall, restEntries, List.length_nil, Nat.add_zero, List.map_nil, pageBytes,
      List.append_nil, Nat.min_eq_left hhi, byteRange_firstChunk, vecBytes, List.flatMap_nil]
    exact ⟨hlo, hhi, trivial⟩
  · obtain ⟨hends, hrest⟩ := hdesc hne
    obtain ⟨hchunk, hsub⟩ := vecLength_sub_firstChunk rest (by omega)
      (hpos first List.mem_cons_self) hends
    obtain ⟨hle, hlt, hbytes⟩ := restEntries_cover hrest
      (fun v hv => hpos v (List.mem_cons_of_mem first hv)) hlen' hfits
    have hpages : pagesAfter pageshift first.iova first.len.toNat * 2 ^ pageshift =
        first.len.toNat - firstChunk (2 ^ pageshift) first.iova first.len.toNat := by
      have hfull := pagesAfter_of_ends (by omega) (hpos first List.mem_cons_self) hends
      rw [firstChunk]
      omega
    have hbytes' : byteRange first.iova (firstChunk (2 ^ pageshift) first.iova first.len.toNat) ++
        byteRange (first.iova - BitVec.ofNat 64 (first.iova.toNat % 2 ^ pageshift) +
          BitVec.ofNat 64 (1 * 2 ^ pageshift))
          (pagesAfter pageshift first.iova first.len.toNat * 2 ^ pageshift) =
        byteRange first.iova first.len.toNat := by
      rw [hpages, byteRange_firstChunk]
    simp only [len, chunk]
    rw [hsub, hchunk, Nat.min_eq_right (by omega), Nat.add_sub_cancel_left,
      hbytes, ← List.append_assoc, hbytes', Nat.add_mul]
    exact ⟨by omega, by omega, rfl⟩

/-- Where it does not, they leave out its last page. -/
theorem vecEntries_short (hk : pageshift < 31)
    (hpos : ∀ v ∈ first :: rest, 0 < v.len.toNat) (hdesc : Describable (2 ^ pageshift) first rest)
    (hlen : ∀ v ∈ first :: rest, v.len.toNat < 2 ^ 31)
    (hcount : 0 ≤ prpcountFirst first.iova first.len pageshift) (hne : rest ≠ [])
    (hfits : ¬LastFits (2 ^ pageshift) rest) :
    let len := vecLength (first :: rest)
    let chunk := firstChunk (2 ^ pageshift) first.iova len
    (vecEntries pageshift first rest).length * 2 ^ pageshift < len - chunk := by
  obtain ⟨hfirst, hlen'⟩ := List.forall_mem_cons.mp hlen
  obtain ⟨hends, hrest⟩ := hdesc hne
  obtain ⟨-, hsub⟩ := vecLength_sub_firstChunk rest (by omega)
    (hpos first List.mem_cons_self) hends
  have hshort := restEntries_short hrest
    (fun v hv => hpos v (List.mem_cons_of_mem first hv)) hlen' hfits
  intro len chunk
  simp only [len, chunk]
  rw [hsub, vecEntries, List.length_append,
    length_firstEntries (prpcountFirst_of_nonneg hk hfirst hcount), Nat.add_mul]
  omega

/-- The last entry lies in the last segment. -/
theorem getLast?_restEntries {rest : List IovaVec} (hpos : ∀ v ∈ rest, 0 < v.len.toNat)
    (hlen : ∀ v ∈ rest, v.len.toNat < 2 ^ 31) :
    ∀ e ∈ (restEntries pageshift rest).getLast?,
      ∃ v ∈ rest.getLast?, ∃ i < v.len.toNat, e.1 = v.iova + BitVec.ofNat 64 i := by
  induction rest with
  | nil => simp [restEntries]
  | cons v vs ih =>
      intro e he
      rw [restEntries] at he
      by_cases hne : vs = []
      · subst hne
        rw [restEntries, List.append_nil] at he
        obtain ⟨i, hi, rfl⟩ := List.mem_map.mp (List.mem_of_getLast? he)
        rw [prpcountAppend_of_lt (hlen v List.mem_cons_self), List.mem_range'_1] at hi
        refine ⟨v, rfl, i * 2 ^ pageshift, ?_, by rw [ofNat_shiftLeft]⟩
        have hv := hpos v List.mem_cons_self
        rcases Nat.eq_zero_or_pos i with rfl | hipos
        · simpa using hv
        · have hlt : i < v.len.toNat / 2 ^ pageshift := by omega
          have := Nat.mul_lt_mul_of_pos_right hlt (by positivity : 0 < 2 ^ pageshift)
          have := Nat.div_mul_le_self v.len.toNat (2 ^ pageshift)
          omega
      · rw [List.getLast?_append_of_ne_nil _ (restEntries_ne_nil hne)] at he
        rw [List.getLast?_cons_of_ne_nil hne]
        exact ih (fun w hw => hpos w (List.mem_cons_of_mem v hw))
          (fun w hw => hlen w (List.mem_cons_of_mem v hw)) e he

theorem rest_ne_nil_of_not_lastFits {pagesize : ℕ} (hfits : ¬LastFits pagesize rest) :
    rest ≠ [] := by
  rintro rfl
  simp [LastFits] at hfits

/-- The entries are few enough for their slots to have addresses of their own. -/
theorem length_vecEntries_lt (hk : pageshift < 31)
    (hpos : ∀ v ∈ first :: rest, 0 < v.len.toNat) (hdesc : Describable (2 ^ pageshift) first rest)
    (hlen : vecLength (first :: rest) < 2 ^ 31)
    (hcount : 0 ≤ prpcountFirst first.iova first.len pageshift) :
    (vecEntries pageshift first rest).length < 2 ^ 59 := by
  have hpow : 2 ^ pageshift < 2 ^ 31 := Nat.pow_lt_pow_right (by omega) hk
  have hle := Nat.le_mul_of_pos_right (vecEntries pageshift first rest).length
    (by positivity : 0 < 2 ^ pageshift)
  have hlen' : ∀ v ∈ first :: rest, v.len.toNat < 2 ^ 31 := fun v hv =>
    (len_le_vecLength hv).trans_lt hlen
  by_cases hfits : LastFits (2 ^ pageshift) rest
  · have hlo := (vecEntries_cover hk hpos hdesc hlen' hcount hfits).1
    omega
  · have hlo := vecEntries_short hk hpos hdesc hlen' hcount
      (rest_ne_nil_of_not_lastFits hfits) hfits
    omega

theorem nvmeMapvIovaPrp_eq {ctrl : NvmeCtrl} {prplists prplistIova : U64} {nprplists : ℕ}
    (hn : 1 ≤ nprplists) (hmapped : iommuTranslateVaddr ctrl.map prplists = some prplistIova) :
    nvmeMapvIovaPrp ctrl prplists held nprplists cmd first rest =
      mapvPrp (fun v => some v.iova) IovaVec.len ctrl.pageshift held
        (prpCursorInit prplistIova nprplists) cmd first.iova first.len rest := by
  rw [nvmeMapvIovaPrp, if_neg (by omega), hmapped]

/-- What a successful call leaves behind. -/
theorem nvmeMapvIovaPrp_ok {ctrl : NvmeCtrl} {prplists prplistIova : U64} {nprplists : ℕ}
    (hmapped : iommuTranslateVaddr ctrl.map prplists = some prplistIova)
    (hret : (nvmeMapvIovaPrp ctrl prplists held nprplists cmd first rest).ret = .ok ()) :
    1 ≤ nprplists ∧
      Accepted ctrl.pageshift (prpCursorInit prplistIova nprplists) first rest ∧
      ∃ c, prpCursorPutAll (maxPrpsOf ctrl.pageshift) ctrl.pageshift
          (prpCursorInit prplistIova nprplists) (vecEntries ctrl.pageshift first rest) =
            (true, c) ∧
        nvmeMapvIovaPrp ctrl prplists held nprplists cmd first rest =
          ⟨.ok (),
            { cmd with
              dptr := ⟨first.iova, setPrp2 c held
                (prpcountFirst first.iova first.len ctrl.pageshift +
                  (restEntries ctrl.pageshift rest).length)⟩ },
            c.stores⟩ := by
  have hn : 1 ≤ nprplists := by
    by_contra hlt
    rw [nvmeMapvIovaPrp, if_pos (by omega)] at hret
    simp at hret
  rw [nvmeMapvIovaPrp_eq hn hmapped] at hret ⊢
  have haccepted : Accepted ctrl.pageshift (prpCursorInit prplistIova nprplists) first rest := by
    by_contra hnot
    rw [mapvPrp_of_not_accepted ctrl.pageshift_lt hnot] at hret
    simp at hret
  exact ⟨hn, haccepted, _, Prod.ext haccepted.fits rfl,
    mapvPrp_of_accepted ctrl.pageshift_lt haccepted⟩

theorem prpcount_vec (hk : pageshift < 31) (hlen : first.len.toNat < 2 ^ 31)
    (hcount : 0 ≤ prpcountFirst first.iova first.len pageshift) :
    prpcountFirst first.iova first.len pageshift + (restEntries pageshift rest).length =
      1 + ((vecEntries pageshift first rest).length : ℤ) := by
  have hfirst := prpcountFirst_of_nonneg hk hlen hcount
  rw [vecEntries, List.length_append, length_firstEntries hfirst, hfirst]
  omega

section Walk

variable {ctrl : NvmeCtrl} {prplists prplistIova : U64} {nprplists : ℕ}
  (hmapped : iommuTranslateVaddr ctrl.map prplists = some prplistIova)
  (haligned : 2 ^ ctrl.pageshift ∣ prplistIova.toNat)
  (hpos : ∀ v ∈ first :: rest, 0 < v.len.toNat)
  (hdesc : Describable (2 ^ ctrl.pageshift) first rest)
  (hlen : ∀ v ∈ first :: rest, v.len.toNat < 2 ^ 31)
  (hsmall : (vecEntries ctrl.pageshift first rest).length < 2 ^ 59)
  (hret : (nvmeMapvIovaPrp ctrl prplists held nprplists cmd first rest).ret = .ok ())

include hmapped haligned hpos hdesc hlen hsmall hret

/-- When the last segment fits, the controller reads the vector. -/
theorem prpWalk_of_lastFits (hfits : LastFits (2 ^ ctrl.pageshift) rest) :
    prpWalk
        (listRead prplistIova
          (nvmeMapvIovaPrp ctrl prplists held nprplists cmd first rest).stores)
        (2 ^ ctrl.pageshift)
        (nvmeMapvIovaPrp ctrl prplists held nprplists cmd first rest).cmd.dptr
        (vecLength (first :: rest)) =
      some (vecBytes (first :: rest)) := by
  have hk := ctrl.pageshift_lt
  have hk' := ctrl.le_pageshift
  obtain ⟨-, haccepted, c, hput, hout⟩ := nvmeMapvIovaPrp_ok hmapped hret
  obtain ⟨hlo, hhi, hbytes⟩ := vecEntries_cover hk hpos hdesc hlen haccepted.nonneg hfits
  have hmark := lastMarked_vecEntries ctrl.pageshift first rest
  rw [hout, prpcount_vec hk (hlen first List.mem_cons_self) haccepted.nonneg, ← hbytes]
  exact prpWalk_of_putAll held first.iova _ (by omega) (by omega) haligned hmark hput (by omega)
    hlo hhi

/-- When it does not, and its pages are not list pages, the walk comes to no end. -/
theorem prpWalk_of_not_lastFits (hfits : ¬LastFits (2 ^ ctrl.pageshift) rest)
    (houtside : ∀ v ∈ rest.getLast?, ∀ i < v.len.toNat,
      nprplists * 2 ^ ctrl.pageshift ≤ (v.iova + BitVec.ofNat 64 i - prplistIova).toNat) :
    prpWalk
        (listRead prplistIova
          (nvmeMapvIovaPrp ctrl prplists held nprplists cmd first rest).stores)
        (2 ^ ctrl.pageshift)
        (nvmeMapvIovaPrp ctrl prplists held nprplists cmd first rest).cmd.dptr
        (vecLength (first :: rest)) = none := by
  have hk := ctrl.pageshift_lt
  have hk' := ctrl.le_pageshift
  obtain ⟨hn, haccepted, c, hput, hout⟩ := nvmeMapvIovaPrp_ok hmapped hret
  obtain ⟨hfirst, hlen'⟩ := List.forall_mem_cons.mp hlen
  have hne := rest_ne_nil_of_not_lastFits hfits
  have hlo := vecEntries_short hk hpos hdesc hlen haccepted.nonneg hne hfits
  have hmark := lastMarked_vecEntries ctrl.pageshift first rest
  have hlast : ∀ e ∈ (vecEntries ctrl.pageshift first rest).getLast?,
      nprplists * 2 ^ ctrl.pageshift ≤ (e.1 - prplistIova).toNat := by
    intro e he
    rw [vecEntries, List.getLast?_append_of_ne_nil _ (restEntries_ne_nil hne)] at he
    obtain ⟨v, hv, i, hi, hei⟩ := getLast?_restEntries
      (fun v hv => hpos v (List.mem_cons_of_mem first hv)) hlen' e he
    rw [hei]
    exact houtside v hv i hi
  have hnil : vecEntries ctrl.pageshift first rest ≠ [] :=
    List.append_ne_nil_of_right_ne_nil _ (restEntries_ne_nil hne)
  rw [hout, prpcount_vec hk hfirst haccepted.nonneg]
  exact prpWalk_of_putAll_short held first.iova _ (by omega) (by omega) haligned hmark hput hn
    hsmall hnil hlast hlo

end Walk

/-- A mapped vector is what the controller reads from the command when the last
segment fits, and, unless the last segment covers the list pages, only then. -/
theorem prpWalk_nvmeMapvIovaPrp (ctrl : NvmeCtrl) (prplists prplistIova : U64)
    (held : ℕ → U64) (nprplists : ℕ) (cmd : NvmeCmd) (first : IovaVec) (rest : List IovaVec)
    (hmapped : iommuTranslateVaddr ctrl.map prplists = some prplistIova)
    (haligned : 2 ^ ctrl.pageshift ∣ prplistIova.toNat)
    (hpos : ∀ v ∈ first :: rest, 0 < v.len.toNat)
    (hdesc : Describable (2 ^ ctrl.pageshift) first rest)
    (hlen : vecLength (first :: rest) < 2 ^ 31)
    (hret : (nvmeMapvIovaPrp ctrl prplists held nprplists cmd first rest).ret = .ok ()) :
    let out := nvmeMapvIovaPrp ctrl prplists held nprplists cmd first rest
    let walk := prpWalk (listRead prplistIova out.stores) (2 ^ ctrl.pageshift) out.cmd.dptr
      (vecLength (first :: rest))
    (LastFits (2 ^ ctrl.pageshift) rest → walk = some (vecBytes (first :: rest))) ∧
      ((∀ v ∈ rest.getLast?, ∀ i < v.len.toNat,
          nprplists * 2 ^ ctrl.pageshift ≤
            (v.iova + BitVec.ofNat 64 i - prplistIova).toNat) →
        walk = some (vecBytes (first :: rest)) → LastFits (2 ^ ctrl.pageshift) rest) := by
  have hlen' : ∀ v ∈ first :: rest, v.len.toNat < 2 ^ 31 := fun v hv =>
    (len_le_vecLength hv).trans_lt hlen
  have hsmall := length_vecEntries_lt ctrl.pageshift_lt hpos hdesc hlen
    (nvmeMapvIovaPrp_ok hmapped hret).2.1.nonneg
  refine ⟨prpWalk_of_lastFits hmapped haligned hpos hdesc hlen' hsmall hret, ?_⟩
  intro houtside hwalk
  by_contra hfits
  have hnone := prpWalk_of_not_lastFits hmapped haligned hpos hdesc hlen' hsmall hret hfits
    houtside
  exact Option.some_ne_none _ (hwalk.symm.trans hnone)

/-- Three pages in two segments. -/
theorem prpWalk_nvmeMapvIovaPrp_two_segments :
    let out := nvmeMapvIovaPrp twoPageCtrl 0x10000 (fun _ => 0) 1 ⟨0, ⟨0, 0⟩⟩
      ⟨0x1000004, 0xffc⟩ [⟨0x1004000, 0x2000⟩]
    prpWalk (listRead 0x20000 out.stores) (2 ^ twoPageCtrl.pageshift) out.cmd.dptr 0x2ffc =
      some (vecBytes [⟨0x1000004, 0xffc⟩, ⟨0x1004000, 0x2000⟩]) :=
  (prpWalk_nvmeMapvIovaPrp twoPageCtrl 0x10000 0x20000 (fun _ => 0) 1 ⟨0, ⟨0, 0⟩⟩
    ⟨0x1000004, 0xffc⟩ [⟨0x1004000, 0x2000⟩] (by decide) (by decide) (by decide)
    (fun _ => ⟨by decide, by decide, by decide⟩) (by decide) rfl).1
    (lastFits_singleton.mpr (.inr (by decide)))

/-- A last segment of a page and four bytes gets one entry, and the controller takes
the data page in `prp2` for a list. -/
theorem prpWalk_nvmeMapvIovaPrp_missing_page :
    let first : IovaVec := ⟨0x1000000, 0x1000⟩
    let last : IovaVec := ⟨0x1001000, 0x1004⟩
    let out := nvmeMapvIovaPrp twoPageCtrl 0x10000 (fun _ => 0) 1 ⟨0, ⟨0, 0⟩⟩ first [last]
    iommuTranslateVaddr twoPageCtrl.map 0x10000 = some 0x20000 ∧
      Describable (2 ^ twoPageCtrl.pageshift) first [last] ∧
      out.ret = .ok () ∧
      out.cmd.dptr = ⟨0x1000000, 0x1001000⟩ ∧
      prpWalk (listRead 0x20000 out.stores) (2 ^ twoPageCtrl.pageshift) out.cmd.dptr
        (vecLength [first, last]) = none :=
  ⟨by decide, fun _ => ⟨by decide, by decide, by decide⟩, rfl, by decide, by decide⟩

end Nvme

end Libvfn
