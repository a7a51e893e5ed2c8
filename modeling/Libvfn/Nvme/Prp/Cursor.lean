import Libvfn.Nvme.Prp.Walk

/-!
# The list cursor

What one `put` does, and from it what a sequence of them does: the slots written
increase, the entries fit exactly when there is room for them, and a walker that
starts where the cursor stood reads back the pages that were put.

The encoder decides about links by whether the entry is the last one, the walker
by whether more than a page is left. They agree as long as the number of bytes
left is the one that the entries still to come account for.
-/

namespace Libvfn

namespace Nvme

open Word

theorem maxPrpsOf_eq (pageshift : ℕ) : maxPrpsOf pageshift = 2 ^ (pageshift - 3) := by
  rw [maxPrpsOf, Nat.shiftLeft_eq, Nat.one_mul]

theorem maxPrpsOf_pos (pageshift : ℕ) : 0 < maxPrpsOf pageshift := by
  rw [maxPrpsOf_eq]
  positivity

theorem eight_mul_maxPrpsOf {pageshift : ℕ} (hk : 3 ≤ pageshift) :
    8 * maxPrpsOf pageshift = 2 ^ pageshift := by
  rw [maxPrpsOf_eq, ← Nat.pow_add' 2 (pageshift - 3) 3]
  congr 1
  omega

theorem two_le_maxPrpsOf {pageshift : ℕ} (hk : 4 ≤ pageshift) :
    2 ≤ maxPrpsOf pageshift := by
  rw [maxPrpsOf_eq]
  exact Nat.le_self_pow (by omega) 2

def PrpCursor.index (pageshift : ℕ) (c : PrpCursor) : ℕ :=
  c.page * maxPrpsOf pageshift + c.slot

def PrpCursor.Chains (pageshift : ℕ) (c : PrpCursor) (isLast : Bool) : Prop :=
  c.slot = maxPrpsOf pageshift - 1 ∧ c.page + 1 < c.nprplists ∧ isLast = false

def PrpCursor.putHere (pageshift : ℕ) (c : PrpCursor) (iova : U64) : PrpCursor :=
  { c with
    slot := c.slot + 1
    stores := c.stores ++ [(c.index pageshift, iova)] }

def PrpCursor.putNext (pageshift : ℕ) (c : PrpCursor) (iova : U64) : PrpCursor :=
  { c with
    page := c.page + 1
    slot := 1
    stores := c.stores ++
      [(c.index pageshift,
          c.prplistIova + BitVec.ofNat 64 ((c.page + 1) * 2 ^ pageshift)),
        ((c.page + 1) * maxPrpsOf pageshift, iova)] }

variable {pageshift : ℕ} {c c' : PrpCursor} {iova : U64} {isLast : Bool}

theorem shiftLeft_page (page pageshift : ℕ) :
    page <<< (pageshift - 3) = page * maxPrpsOf pageshift := by
  rw [Nat.shiftLeft_eq, maxPrpsOf_eq]

/-- At a link the entry always goes to the first slot of the next page. -/
theorem prpCursorPut_of_chains (h : c.Chains pageshift isLast) :
    prpCursorPut c iova (maxPrpsOf pageshift) pageshift isLast =
      (true, c.putNext pageshift iova) := by
  obtain ⟨hslot, hpage, rfl⟩ := h
  have hpos := maxPrpsOf_pos pageshift
  have hchain : prpCursorChain c (maxPrpsOf pageshift) pageshift false =
      { c with
        page := c.page + 1
        slot := 0
        stores := c.stores ++
          [(c.page * maxPrpsOf pageshift + (maxPrpsOf pageshift - 1),
            c.prplistIova + BitVec.ofNat 64 ((c.page + 1) * 2 ^ pageshift))] } := by
    rw [prpCursorChain, if_pos ⟨hslot, hpage, rfl⟩, shiftLeft_page, ofNat_shiftLeft]
  rw [prpCursorPut, hchain]
  dsimp only
  rw [if_neg (by omega), shiftLeft_page, PrpCursor.putNext, PrpCursor.index, hslot]
  simp

theorem prpCursorChain_of_not_chains (h : ¬c.Chains pageshift isLast) :
    prpCursorChain c (maxPrpsOf pageshift) pageshift isLast = c :=
  if_neg (by simpa [PrpCursor.Chains] using h)

theorem prpCursorPut_of_slot (h : ¬c.Chains pageshift isLast) (hpage : c.page < c.nprplists)
    (hslot : c.slot < maxPrpsOf pageshift) :
    prpCursorPut c iova (maxPrpsOf pageshift) pageshift isLast =
      (true, c.putHere pageshift iova) := by
  rw [prpCursorPut, prpCursorChain_of_not_chains h, if_neg (by omega), shiftLeft_page]
  rfl

theorem prpCursorPut_of_full (h : ¬c.Chains pageshift isLast)
    (hfull : c.nprplists ≤ c.page ∨ maxPrpsOf pageshift ≤ c.slot) :
    prpCursorPut c iova (maxPrpsOf pageshift) pageshift isLast = (false, c) := by
  rw [prpCursorPut, prpCursorChain_of_not_chains h]
  exact if_pos hfull

theorem prpCursorPut_eq_true
    (h : prpCursorPut c iova (maxPrpsOf pageshift) pageshift isLast = (true, c')) :
    (c.Chains pageshift isLast ∧ c' = c.putNext pageshift iova) ∨
      (¬c.Chains pageshift isLast ∧ c.page < c.nprplists ∧
        c.slot < maxPrpsOf pageshift ∧ c' = c.putHere pageshift iova) := by
  by_cases hchain : c.Chains pageshift isLast
  · rw [prpCursorPut_of_chains hchain] at h
    exact .inl ⟨hchain, (Prod.mk.inj h).2.symm⟩
  · by_cases hfull : c.nprplists ≤ c.page ∨ maxPrpsOf pageshift ≤ c.slot
    · rw [prpCursorPut_of_full hchain hfull] at h
      simp at h
    · rw [not_or, not_le, not_le] at hfull
      rw [prpCursorPut_of_slot hchain hfull.1 hfull.2] at h
      exact .inr ⟨hchain, hfull.1, hfull.2, (Prod.mk.inj h).2.symm⟩

/-! ## Sequences of entries -/

variable {es es' : List (U64 × Bool)}

theorem prpCursorPutAll_cons_eq_true {e : U64 × Bool} {maxPrps : ℕ} :
    prpCursorPutAll maxPrps pageshift c (e :: es) = (true, c') ↔
      ∃ d, prpCursorPut c e.1 maxPrps pageshift e.2 = (true, d) ∧
        prpCursorPutAll maxPrps pageshift d es = (true, c') := by
  rw [prpCursorPutAll]
  rcases hput : prpCursorPut c e.1 maxPrps pageshift e.2 with ⟨ok, d⟩
  cases ok <;> simp

theorem prpCursorPutAll_append (maxPrps : ℕ) :
    prpCursorPutAll maxPrps pageshift c (es ++ es') =
      if (prpCursorPutAll maxPrps pageshift c es).1 then
        prpCursorPutAll maxPrps pageshift (prpCursorPutAll maxPrps pageshift c es).2 es'
      else prpCursorPutAll maxPrps pageshift c es := by
  induction es generalizing c with
  | nil => simp [prpCursorPutAll]
  | cons e es ih =>
      rw [List.cons_append, prpCursorPutAll, prpCursorPutAll]
      by_cases hput : (prpCursorPut c e.1 maxPrps pageshift e.2).1 = true
      · simp only [hput, if_true, ih]
      · simp [hput]

def LastMarked : List (U64 × Bool) → Prop
  | [] => True
  | e :: es => e.2 = es.isEmpty ∧ LastMarked es

theorem LastMarked.append (hes : ∀ e ∈ es, e.2 = false) (hes' : LastMarked es')
    (hne : es' ≠ []) : LastMarked (es ++ es') := by
  induction es with
  | nil => exact hes'
  | cons e es ih =>
      refine ⟨?_, ih fun f hf => hes f (List.mem_cons_of_mem e hf)⟩
      rw [hes e List.mem_cons_self]
      simp [hne]

/-! ## The slots that are written -/

/-- The slots written so far increase, and they are behind the cursor. -/
structure PrpCursor.Tidy (pageshift : ℕ) (c : PrpCursor) : Prop where
  sorted : (c.stores.map Prod.fst).Pairwise (· < ·)
  behind : ∀ s ∈ c.stores, s.1 < c.index pageshift

theorem tidy_init (pageshift : ℕ) (prplistIova : U64) (nprplists : ℕ) :
    (prpCursorInit prplistIova nprplists).Tidy pageshift :=
  ⟨.nil, by simp [prpCursorInit]⟩

theorem index_putHere : (c.putHere pageshift iova).index pageshift = c.index pageshift + 1 :=
  rfl

theorem index_putNext (h : c.Chains pageshift isLast) :
    (c.putNext pageshift iova).index pageshift = c.index pageshift + 2 := by
  have hpos := maxPrpsOf_pos pageshift
  simp only [PrpCursor.index, PrpCursor.putNext, h.1, Nat.add_mul]
  omega

theorem PrpCursor.Tidy.putHere (hc : c.Tidy pageshift) :
    (c.putHere pageshift iova).Tidy pageshift := by
  refine ⟨?_, ?_⟩
  · rw [PrpCursor.putHere, List.map_append, List.pairwise_append]
    refine ⟨hc.sorted, List.pairwise_singleton _ _, ?_⟩
    intro i hi j hj
    obtain ⟨s, hs, rfl⟩ := List.mem_map.mp hi
    simp only [List.map_cons, List.map_nil, List.mem_singleton] at hj
    exact hj ▸ hc.behind s hs
  · intro s hs
    rw [index_putHere]
    rcases List.mem_append.mp hs with hs | hs
    · exact Nat.lt_succ_of_lt (hc.behind s hs)
    · rw [List.mem_singleton.mp hs]
      exact Nat.lt_succ_self _

theorem PrpCursor.Tidy.putNext (hc : c.Tidy pageshift) (h : c.Chains pageshift isLast) :
    (c.putNext pageshift iova).Tidy pageshift := by
  have hpos := maxPrpsOf_pos pageshift
  -- the link fills the last slot of the page, the entry follows it
  have hnext : (c.page + 1) * maxPrpsOf pageshift = c.index pageshift + 1 := by
    simp only [PrpCursor.index, h.1, Nat.add_mul]
    omega
  refine ⟨?_, ?_⟩
  · rw [PrpCursor.putNext, List.map_append, List.pairwise_append]
    refine ⟨hc.sorted, by simp [hnext], ?_⟩
    intro i hi j hj
    obtain ⟨s, hs, rfl⟩ := List.mem_map.mp hi
    have hlt := hc.behind s hs
    simp only [List.map_cons, List.map_nil, List.mem_cons, List.not_mem_nil, or_false] at hj
    omega
  · intro s hs
    rw [index_putNext h]
    rw [PrpCursor.putNext, hnext] at hs
    rcases List.mem_append.mp hs with hs | hs
    · exact Nat.lt_add_right 2 (hc.behind s hs)
    · simp only [List.mem_cons, List.not_mem_nil, or_false] at hs
      rcases hs with rfl | rfl <;> simp

theorem PrpCursor.Tidy.put (hc : c.Tidy pageshift)
    (h : prpCursorPut c iova (maxPrpsOf pageshift) pageshift isLast = (true, c')) :
    c'.Tidy pageshift ∧ c'.prplistIova = c.prplistIova := by
  rcases prpCursorPut_eq_true h with ⟨hchain, rfl⟩ | ⟨-, -, -, rfl⟩
  · exact ⟨hc.putNext hchain, rfl⟩
  · exact ⟨hc.putHere, rfl⟩

/-- What a successful sequence of `n` entries makes of a cursor. -/
structure Written (pageshift : ℕ) (c c' : PrpCursor) (n : ℕ) : Prop where
  base_eq : c'.prplistIova = c.prplistIova
  tidy : c'.Tidy pageshift
  index_le : c'.index pageshift ≤ c.index pageshift + 2 * n
  subset : c.stores ⊆ c'.stores

theorem written_of_putAll (hc : c.Tidy pageshift)
    (h : prpCursorPutAll (maxPrpsOf pageshift) pageshift c es = (true, c')) :
    Written pageshift c c' es.length := by
  induction es generalizing c with
  | nil =>
      obtain ⟨-, rfl⟩ := Prod.mk.inj h
      exact ⟨rfl, hc, by simp, List.Subset.refl _⟩
  | cons e es ih =>
      obtain ⟨d, hput, hrest⟩ := prpCursorPutAll_cons_eq_true.mp h
      obtain ⟨hd, hdbase⟩ := hc.put hput
      obtain ⟨hbase, htidy, hindex, hsub⟩ := ih hd hrest
      have hstep : d.index pageshift ≤ c.index pageshift + 2 ∧ c.stores ⊆ d.stores := by
        rcases prpCursorPut_eq_true hput with ⟨hchain, rfl⟩ | ⟨-, -, -, rfl⟩
        · exact ⟨(index_putNext hchain).le, List.subset_append_left _ _⟩
        · exact ⟨by simp [index_putHere], List.subset_append_left _ _⟩
      refine ⟨hbase.trans hdbase, htidy, ?_, List.Subset.trans hstep.2 hsub⟩
      rw [List.length_cons]
      omega

/-- The slots written lie in the list pages. -/
theorem index_le_of_putAll (hpage : c.page < c.nprplists)
    (hslot : c.slot ≤ maxPrpsOf pageshift)
    (h : prpCursorPutAll (maxPrpsOf pageshift) pageshift c es = (true, c')) :
    c'.index pageshift ≤ c.nprplists * maxPrpsOf pageshift := by
  have hpos := maxPrpsOf_pos pageshift
  induction es generalizing c with
  | nil =>
      obtain ⟨-, rfl⟩ := Prod.mk.inj h
      have hmul := Nat.mul_le_mul_right (maxPrpsOf pageshift) hpage
      rw [Nat.succ_mul] at hmul
      rw [PrpCursor.index]
      omega
  | cons e es ih =>
      obtain ⟨d, hput, hrest⟩ := prpCursorPutAll_cons_eq_true.mp h
      rcases prpCursorPut_eq_true hput with ⟨hchain, rfl⟩ | ⟨-, -, hlt, rfl⟩
      · exact ih (c := c.putNext pageshift e.1) hchain.2.1 hpos hrest
      · exact ih (c := c.putHere pageshift e.1) hpage hlt hrest

/-! ## Room for entries -/

def PrpCursor.room (pageshift : ℕ) (c : PrpCursor) : ℕ :=
  (c.nprplists - 1 - c.page) * (maxPrpsOf pageshift - 1) +
    (maxPrpsOf pageshift - c.slot)

/-- A sequence of entries succeeds exactly when there is room for it. A full page
that is not the last one is never left behind while entries are still to come. -/
theorem putAll_iff_room (hk : 4 ≤ pageshift) (hpage : c.page < c.nprplists)
    (hslot : es = [] ∨ c.slot < maxPrpsOf pageshift ∨ c.page + 1 = c.nprplists)
    (hmark : LastMarked es) :
    (prpCursorPutAll (maxPrpsOf pageshift) pageshift c es).1 = true ↔
      es.length ≤ c.room pageshift := by
  have htwo := two_le_maxPrpsOf hk
  induction es generalizing c with
  | nil => simp [prpCursorPutAll]
  | cons e es ih =>
      rw [prpCursorPutAll, List.length_cons]
      by_cases hchain : c.Chains pageshift e.2
      · obtain ⟨hs, hp, -⟩ := id hchain
        have hroom : c.room pageshift = (c.putNext pageshift e.1).room pageshift + 1 := by
          have hpages : c.nprplists - 1 - c.page = c.nprplists - 1 - (c.page + 1) + 1 := by
            omega
          simp only [PrpCursor.room, PrpCursor.putNext, hs, hpages, Nat.add_mul]
          omega
        rw [prpCursorPut_of_chains hchain, hroom, Nat.add_le_add_iff_right]
        exact ih hp (.inr (.inl htwo)) hmark.2
      · by_cases hlt : c.slot < maxPrpsOf pageshift
        · have hroom : c.room pageshift = (c.putHere pageshift e.1).room pageshift + 1 := by
            simp only [PrpCursor.room, PrpCursor.putHere]
            omega
          rw [prpCursorPut_of_slot hchain hpage hlt, hroom, Nat.add_le_add_iff_right]
          refine ih hpage ?_ hmark.2
          -- the page is full behind this entry only if nothing follows or no page does
          by_cases hnil : es = []
          · exact .inl hnil
          · have hlast : e.2 = false := hmark.1.trans (List.isEmpty_eq_false_iff.mpr hnil)
            have hnot : ¬(c.slot = maxPrpsOf pageshift - 1 ∧ c.page + 1 < c.nprplists) :=
              fun h => hchain ⟨h.1, h.2, hlast⟩
            simp only [PrpCursor.putHere]
            omega
        · have hend : c.page + 1 = c.nprplists := by simpa [hlt] using hslot
          have hroom : c.room pageshift = 0 := by
            have hpages : c.nprplists - 1 - c.page = 0 := by omega
            rw [PrpCursor.room, hpages]
            omega
          rw [prpCursorPut_of_full hchain (.inr (not_lt.mp hlt)), hroom]
          simp

/-! ## The walker reads what was put -/

def PrpCursor.address (pageshift : ℕ) (c : PrpCursor) : U64 :=
  c.prplistIova + BitVec.ofNat 64 (8 * c.index pageshift)

theorem address_putHere :
    (c.putHere pageshift iova).address pageshift = c.address pageshift + 8 := by
  simp only [PrpCursor.address, index_putHere, Nat.mul_add, BitVec.ofNat_add]
  rw [← add_assoc]
  rfl

/-- The walker recognises the last slot of a page. -/
theorem last_slot_iff (hk : 3 ≤ pageshift) (hk' : pageshift ≤ 64)
    (hbase : 2 ^ pageshift ∣ c.prplistIova.toNat) (hslot : c.slot < maxPrpsOf pageshift) :
    ((c.address pageshift).toNat + 8) % 2 ^ pageshift = 0 ↔
      c.slot = maxPrpsOf pageshift - 1 := by
  have hM := eight_mul_maxPrpsOf hk
  obtain ⟨b, hb⟩ := hbase
  have hword : (2 : ℕ) ^ pageshift ∣ 2 ^ 64 := Nat.pow_dvd_pow 2 hk'
  have hmod : ((c.address pageshift).toNat + 8) % 2 ^ pageshift =
      (8 * c.slot + 8) % 2 ^ pageshift := by
    have hindex : c.prplistIova.toNat + 8 * c.index pageshift + 8 =
        8 * c.slot + 8 + 2 ^ pageshift * (b + c.page) := by
      rw [hb, PrpCursor.index, ← hM]
      ring
    rw [PrpCursor.address, BitVec.toNat_add, BitVec.toNat_ofNat, Nat.add_mod_mod,
      ← Nat.mod_add_mod, Nat.mod_mod_of_dvd _ hword, Nat.mod_add_mod, hindex,
      Nat.add_mul_mod_self_left]
  rw [hmod, ← hM]
  constructor
  · intro h
    by_contra hne
    rw [Nat.mod_eq_of_lt (by omega)] at h
    omega
  · intro h
    have hfull : 8 * c.slot + 8 = 8 * maxPrpsOf pageshift := by omega
    rw [hfull, Nat.mod_self]

theorem address_putNext (hk : 3 ≤ pageshift) :
    (c.putNext pageshift iova).address pageshift =
      c.prplistIova + BitVec.ofNat 64 ((c.page + 1) * 2 ^ pageshift) + 8 := by
  have hindex : 8 * (c.putNext pageshift iova).index pageshift =
      (c.page + 1) * 2 ^ pageshift + 8 := by
    rw [← eight_mul_maxPrpsOf hk]
    simp only [PrpCursor.index, PrpCursor.putNext]
    ring
  rw [PrpCursor.address, hindex, BitVec.ofNat_add, ← add_assoc]
  rfl

theorem slot_lt_of_putAll (hne : es ≠ [])
    (hput : prpCursorPutAll (maxPrpsOf pageshift) pageshift c es = (true, c')) :
    c.slot < maxPrpsOf pageshift := by
  have hpos := maxPrpsOf_pos pageshift
  cases es with
  | nil => exact absurd rfl hne
  | cons e es =>
      obtain ⟨d, hput, -⟩ := prpCursorPutAll_cons_eq_true.mp hput
      rcases prpCursorPut_eq_true hput with ⟨⟨hlast, -, -⟩, -⟩ | ⟨-, -, hlt, -⟩ <;> omega

/-- One step of the walk: the walker takes the slot for a link exactly when the
encoder made it one, provided that both agree on whether the entry is the last. -/
theorem walkList_put {read : U64 → Option U64} {fuel rem : ℕ} (hk : 3 ≤ pageshift)
    (hk' : pageshift ≤ 64) (hbase : 2 ^ pageshift ∣ c.prplistIova.toNat)
    (hput : prpCursorPut c iova (maxPrpsOf pageshift) pageshift isLast = (true, c'))
    (hread : ∀ s ∈ c'.stores, read (c.prplistIova + BitVec.ofNat 64 (8 * s.1)) = some s.2)
    (hrem : 0 < rem) (hagree : isLast = false ↔ 2 ^ pageshift < rem)
    (hfull : isLast = false → c'.slot < maxPrpsOf pageshift) :
    walkList read (2 ^ pageshift) (fuel + 1) (c.address pageshift) rem =
      (walkList read (2 ^ pageshift) fuel (c'.address pageshift)
        (rem - min rem (2 ^ pageshift))).map (byteRange iova (min rem (2 ^ pageshift)) ++ ·) := by
  have hpos := maxPrpsOf_pos pageshift
  rcases prpCursorPut_eq_true hput with ⟨hchain, rfl⟩ | ⟨hchain, hpage, hslot, rfl⟩
  · have hlink := hread (c.index pageshift,
      c.prplistIova + BitVec.ofNat 64 ((c.page + 1) * 2 ^ pageshift))
      (by simp [PrpCursor.putNext])
    have hpage := hread ((c.page + 1) * maxPrpsOf pageshift, iova)
      (by simp [PrpCursor.putNext])
    have hfirst : 8 * ((c.page + 1) * maxPrpsOf pageshift) = (c.page + 1) * 2 ^ pageshift := by
      rw [← eight_mul_maxPrpsOf hk]
      ring
    rw [hfirst] at hpage
    have haligned : (c.prplistIova +
        BitVec.ofNat 64 ((c.page + 1) * 2 ^ pageshift)).toNat % 2 ^ pageshift = 0 := by
      obtain ⟨b, hb⟩ := hbase
      rw [BitVec.toNat_add, BitVec.toNat_ofNat, Nat.add_mod_mod,
        Nat.mod_mod_of_dvd _ (Nat.pow_dvd_pow 2 hk'), hb, Nat.mul_comm (2 ^ pageshift) b,
        ← Nat.add_mul, Nat.mul_mod_left]
    have hlast := (last_slot_iff hk hk' hbase (by have := hchain.1; omega)).mpr hchain.1
    rw [walkList_link ⟨hlast, hagree.mp hchain.2.2⟩ hlink haligned hpage, address_putNext hk]
  · have hdata := hread (c.index pageshift, iova) (by simp [PrpCursor.putHere])
    have hnotlink : ¬(((c.address pageshift).toNat + 8) % 2 ^ pageshift = 0 ∧
        2 ^ pageshift < rem) := by
      rintro ⟨hlast, hmore⟩
      rw [last_slot_iff hk hk' hbase hslot] at hlast
      have hlt := hfull (hagree.mpr hmore)
      simp only [PrpCursor.putHere] at hlt
      omega
    rw [walkList_data hrem hnotlink hdata, address_putHere]

/-- The walk over the entries of a successful sequence, from the slot at which the
cursor stood, with as many bytes left as need that number of pages. -/
theorem walkList_putAll {read : U64 → Option U64} {fuel rem : ℕ} (hk : 3 ≤ pageshift)
    (hk' : pageshift ≤ 64) (hbase : 2 ^ pageshift ∣ c.prplistIova.toNat)
    (hc : c.Tidy pageshift) (hmark : LastMarked es)
    (hput : prpCursorPutAll (maxPrpsOf pageshift) pageshift c es = (true, c'))
    (hread : ∀ s ∈ c'.stores, read (c.prplistIova + BitVec.ofNat 64 (8 * s.1)) = some s.2)
    (hlo : es.length * 2 ^ pageshift < rem + 2 ^ pageshift)
    (hhi : rem ≤ es.length * 2 ^ pageshift) (hfuel : rem ≤ fuel) :
    walkList read (2 ^ pageshift) fuel (c.address pageshift) rem =
      some (pageBytes (2 ^ pageshift) (es.map Prod.fst) rem) := by
  induction es generalizing c rem fuel with
  | nil =>
      obtain rfl : rem = 0 := by simpa using hhi
      rw [walkList_zero]
      rfl
  | cons e es ih =>
      obtain ⟨d, hput, hrest⟩ := prpCursorPutAll_cons_eq_true.mp hput
      obtain ⟨hd, hdbase⟩ := hc.put hput
      rw [List.length_cons, Nat.add_mul, Nat.one_mul] at hlo hhi
      obtain ⟨fuel, rfl⟩ : ∃ n, fuel = n + 1 := ⟨fuel - 1, by omega⟩
      have hpow : 0 < 2 ^ pageshift := by positivity
      -- more than a page is left exactly when this is not the last entry
      have hagree : e.2 = false ↔ 2 ^ pageshift < rem := by
        rw [hmark.1, List.isEmpty_eq_false_iff, ← List.length_pos_iff]
        constructor
        · intro hlen
          have := Nat.mul_le_mul_right (2 ^ pageshift) hlen
          omega
        · intro hmore
          exact Nat.pos_of_mul_pos_right (by omega : 0 < es.length * 2 ^ pageshift)
      have hfull : e.2 = false → d.slot < maxPrpsOf pageshift := by
        intro hlast
        have hne : es ≠ [] := List.isEmpty_eq_false_iff.mp (hmark.1.symm.trans hlast)
        exact slot_lt_of_putAll hne hrest
      have hsub := (written_of_putAll hd hrest).subset
      rw [walkList_put hk hk' hbase hput (fun s hs => hread s (hsub hs)) (by omega) hagree hfull,
        ih (hdbase ▸ hbase) hd hmark.2 hrest (hdbase ▸ hread) (by omega) (by omega) (by omega)]
      rfl

/-- With too few pages the walk does not come to an end: it stops at the slot behind the
last entry, or it takes the last entry for a link. -/
theorem walkList_putAll_short {read : U64 → Option U64} {fuel rem : ℕ} (hk : 3 ≤ pageshift)
    (hk' : pageshift ≤ 64) (hbase : 2 ^ pageshift ∣ c.prplistIova.toNat)
    (hc : c.Tidy pageshift) (hmark : LastMarked es)
    (hput : prpCursorPutAll (maxPrpsOf pageshift) pageshift c es = (true, c'))
    (hread : ∀ s ∈ c'.stores, read (c.prplistIova + BitVec.ofNat 64 (8 * s.1)) = some s.2)
    (hend : read (c'.address pageshift) = none) (hlast : ∀ e ∈ es.getLast?, read e.1 = none)
    (hne : es ≠ []) (hlo : es.length * 2 ^ pageshift < rem) (hfuel : rem ≤ fuel) :
    walkList read (2 ^ pageshift) fuel (c.address pageshift) rem = none := by
  induction es generalizing c rem fuel with
  | nil => exact absurd rfl hne
  | cons e es ih =>
      obtain ⟨d, hone, hrest⟩ := prpCursorPutAll_cons_eq_true.mp hput
      obtain ⟨hd, hdbase⟩ := hc.put hone
      rw [List.length_cons, Nat.add_mul, Nat.one_mul] at hlo
      obtain ⟨fuel, rfl⟩ : ∃ n, fuel = n + 1 := ⟨fuel - 1, by omega⟩
      have hpow : 0 < 2 ^ pageshift := by positivity
      by_cases hnil : es = []
      · subst hnil
        obtain ⟨-, rfl⟩ := Prod.mk.inj hrest
        rcases prpCursorPut_eq_true hone with ⟨hchain, -⟩ | ⟨-, -, -, rfl⟩
        · simp [hmark.1, PrpCursor.Chains] at hchain
        · have hdata := hread (c.index pageshift, e.1) (by simp [PrpCursor.putHere])
          have hstray : read e.1 = none := hlast e (by simp)
          by_cases hslot : ((c.address pageshift).toNat + 8) % 2 ^ pageshift = 0
          · exact walkList_stray_link ⟨hslot, by omega⟩ hdata hstray
          · rw [address_putHere] at hend
            rw [walkList_data (by omega) (fun h => hslot h.1) hdata,
              walkList_none (by omega) hend]
            rfl
      · have hlen := Nat.mul_le_mul_right (2 ^ pageshift) (List.length_pos_iff.mpr hnil)
        have hfalse : e.2 = false := hmark.1.trans (List.isEmpty_eq_false_iff.mpr hnil)
        have hagree : e.2 = false ↔ 2 ^ pageshift < rem :=
          ⟨fun _ => by omega, fun _ => hfalse⟩
        have hsub := (written_of_putAll hd hrest).subset
        have hlast' : ∀ f ∈ es.getLast?, read f.1 = none := by
          intro f hf
          refine hlast f ?_
          rwa [List.getLast?_cons_of_ne_nil hnil]
        rw [walkList_put hk hk' hbase hone (fun s hs => hread s (hsub hs)) (by omega) hagree
            (fun _ => slot_lt_of_putAll hnil hrest),
          ih (hdbase ▸ hbase) hd hmark.2 hrest (hdbase ▸ hread) hlast' hnil (by omega)
            (by omega)]
        rfl

end Nvme

end Libvfn
