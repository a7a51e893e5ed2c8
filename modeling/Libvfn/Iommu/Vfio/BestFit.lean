import Mathlib.Data.List.MinMax
import Libvfn.Iommu.Vfio.Conserve

/-!
# Best fit

A block with an alignment comes from the range in which the lowest aligned block leaves the
least space behind its start, and from the lowest of these ranges. The search walks the list
once, remembers the best range so far and stops at one that the block fills to its end; it
computes the first minimum of the list of ranges that have such a block.

Without an alignment the two searches agree, although they are written separately and take
the block out in different ways.
-/

namespace Libvfn

namespace Iommu

open Word Support Util Spans Linked

def FreeList.blocks (fl : FreeList) (len align : U64) (i : ℕ) : Set ℕ :=
  {a | align.toNat ∣ a ∧ fl.lo i ≤ a ∧ a + len.toNat ≤ fl.hi i}

def FreeRange.Offers (r : FreeRange) (len align : U64) : Prop :=
  r.start ≤ alignUp r.start align ∧ alignUp r.start align - r.start < r.len ∧
    len ≤ r.len - (alignUp r.start align - r.start)

instance (r : FreeRange) (len align : U64) : Decidable (r.Offers len align) :=
  inferInstanceAs (Decidable (_ ∧ _ ∧ _))

def FreeRange.room (r : FreeRange) (align : U64) : U64 :=
  r.len - (alignUp r.start align - r.start)

variable {fl : FreeList} {xs : List ℕ} {len align : U64}

/-! ## The search -/

def FreeList.offering (fl : FreeList) (len align : U64) (xs : List ℕ) : List ℕ :=
  xs.filter fun i => (fl.range (.entry i)).Offers len align

theorem foldl_argAux_of_le {α : Type*} {f : α → ℕ} {a : α} {l : List α} (h : ∀ b ∈ l, f a ≤ f b) :
    l.foldl (List.argAux fun b c => f b < f c) (some a) = some a := by
  induction l with
  | nil => rfl
  | cons b l ih =>
      obtain ⟨hb, hl⟩ := List.forall_mem_cons.mp h
      have hstep : List.argAux (fun b c => f b < f c) (some a) b = some a := if_neg hb.not_gt
      rw [List.foldl_cons, hstep]
      exact ih hl

/-- One step of the search. -/
theorem iovaBestFitAlign_cons (range : Node ℕ → FreeRange) (i : ℕ) (ns : List (Node ℕ))
    (best : Option (Node ℕ × U64)) (size : U64) :
    iovaBestFitAlign range len align (.entry i :: ns) best size =
      if (range (.entry i)).Offers len align ∧ (range (.entry i)).room align < size then
        if (range (.entry i)).room align = len then
          some (.entry i, alignUp (range (.entry i)).start align)
        else iovaBestFitAlign range len align ns
          (some (.entry i, alignUp (range (.entry i)).start align)) ((range (.entry i)).room align)
      else iovaBestFitAlign range len align ns best size := by
  have hoffers : (Node.entry i = .sentinel ∨
      alignUp (range (.entry i)).start align < (range (.entry i)).start ∨
      (range (.entry i)).len ≤
        alignUp (range (.entry i)).start align - (range (.entry i)).start ∨
      (range (.entry i)).len -
        (alignUp (range (.entry i)).start align - (range (.entry i)).start) < len) ↔
      ¬(range (.entry i)).Offers len align := by
    rw [FreeRange.Offers, not_and_or, not_and_or, BitVec.not_le, BitVec.not_lt, BitVec.not_le]
    simp
  rw [iovaBestFitAlign]
  simp only [hoffers, ite_not, ite_and]
  rfl

/-- The search from a candidate on takes the first minimum of what is left of the ranges. -/
theorem iovaBestFitAlign_eq_foldl
    (hroom : ∀ i ∈ xs, (fl.range (.entry i)).Offers len align →
      (fl.range (.entry i)).room align < -1) (best : Option ℕ) :
    iovaBestFitAlign fl.range len align (xs.map Node.entry)
        (best.map fun i => (.entry i, alignUp (fl.range (.entry i)).start align))
        (best.elim (-1) fun i => (fl.range (.entry i)).room align) =
      ((fl.offering len align xs).foldl
        (List.argAux fun i j => ((fl.range (.entry i)).room align).toNat <
          ((fl.range (.entry j)).room align).toNat) best).map
        fun i => (.entry i, alignUp (fl.range (.entry i)).start align) := by
  induction xs generalizing best with
  | nil => rfl
  | cons i xs ih =>
      obtain ⟨hroomi, hroom⟩ := List.forall_mem_cons.mp hroom
      have ih := ih hroom
      rw [List.map_cons, iovaBestFitAlign_cons, FreeList.offering, List.filter_cons]
      by_cases hoffers : (fl.range (.entry i)).Offers len align
      · have haux : List.argAux (fun i j => ((fl.range (.entry i)).room align).toNat <
            ((fl.range (.entry j)).room align).toNat) best i =
            if (fl.range (.entry i)).room align <
              best.elim (-1) (fun i => (fl.range (.entry i)).room align) then some i else best := by
          cases best with
          | none => exact (if_pos (hroomi hoffers)).symm
          | some j => simp [List.argAux, BitVec.lt_def]
        rw [if_pos (decide_eq_true hoffers), List.foldl_cons, haux]
        by_cases hbetter : (fl.range (.entry i)).room align <
            best.elim (-1) fun i => (fl.range (.entry i)).room align
        · rw [if_pos ⟨hoffers, hbetter⟩, if_pos hbetter]
          split_ifs with hfull
          · -- no range leaves less than the length of the block
            rw [foldl_argAux_of_le fun b hb => ?_]
            · rfl
            · rw [hfull]
              exact BitVec.le_def.mp (of_decide_eq_true (List.mem_filter.mp hb).2).2.2
          · exact ih (some i)
        · rw [if_neg fun h => hbetter h.2, if_neg hbetter]
          exact ih best
      · rw [if_neg (fun h => hoffers h.1), if_neg (by simpa using hoffers)]
        exact ih best

theorem iovaBestFitAlign_eq_argmin (hholds : Holds fl.list xs)
    (hroom : ∀ i ∈ xs, (fl.range (.entry i)).Offers len align →
      (fl.range (.entry i)).room align < -1) :
    iovaBestFitAlign fl.range len align (fl.list.heads 0) none (-1) =
      ((fl.offering len align xs).argmin fun i => ((fl.range (.entry i)).room align).toNat).map
        fun i => (.entry i, alignUp (fl.range (.entry i)).start align) := by
  rw [hholds.heads_zero, toHeads, iovaBestFitAlign, if_pos (.inl rfl)]
  exact iovaBestFitAlign_eq_foldl hroom none

/-! ## What a range offers -/

section Offers

variable {i j : ℕ} (hj : j < 64) (hsmall : fl.hi i < 2 ^ 64)

include hj hsmall

/-- A range that is considered has an aligned block, the lowest of which is found. -/
theorem isLeast_blocks (hoffers : (fl.range (.entry i)).Offers len (BitVec.twoPow 64 j)) :
    IsLeast (fl.blocks len (BitVec.twoPow 64 j) i)
        (alignUp (fl.range (.entry i)).start (BitVec.twoPow 64 j)).toNat ∧
      ((fl.range (.entry i)).room (BitVec.twoPow 64 j)).toNat =
        fl.hi i - (alignUp (fl.range (.entry i)).start (BitVec.twoPow 64 j)).toNat := by
  obtain ⟨hle, hpad, hfit⟩ := hoffers
  obtain ⟨hlo, hhi, hpadNat, -⟩ := toNat_cut hsmall hle hpad hfit
  refine ⟨⟨⟨?_, hlo, hhi⟩, ?_⟩, ?_⟩
  · rw [toNat_twoPow hj]
    exact twoPow_dvd_alignUp _ hj
  · rintro a ⟨hdvd, hloa, hhia⟩
    rw [toNat_twoPow hj] at hdvd
    exact (alignUp_twoPow_le _ hj hdvd hloa (by omega)).2
  · rw [FreeRange.room, BitVec.toNat_sub_of_le (BitVec.le_of_lt hpad), hpadNat, FreeList.hi]
    omega

/-- A range with an aligned block is considered. -/
theorem offers_of_mem_blocks {a : ℕ} (hlen : len ≠ 0)
    (ha : a ∈ fl.blocks len (BitVec.twoPow 64 j) i) :
    (fl.range (.entry i)).Offers len (BitVec.twoPow 64 j) := by
  obtain ⟨hdvd, hlo, hhi⟩ := ha
  rw [toNat_twoPow hj] at hdvd
  have hpos := BitVec.toNat_pos_of_ne_zero hlen
  obtain ⟨hle, hlea⟩ := alignUp_twoPow_le (fl.range (.entry i)).start hj hdvd hlo (by omega)
  have hpadNat := BitVec.toNat_sub_of_le (BitVec.le_def.mpr hle)
  rw [FreeList.hi] at hhi
  have hpad : alignUp (fl.range (.entry i)).start (BitVec.twoPow 64 j) -
      (fl.range (.entry i)).start < (fl.range (.entry i)).len := by
    rw [BitVec.lt_def, hpadNat]
    omega
  refine ⟨BitVec.le_def.mpr hle, hpad, ?_⟩
  rw [BitVec.le_def, BitVec.toNat_sub_of_le (BitVec.le_of_lt hpad), hpadNat]
  omega

end Offers

/-! ## Without an alignment -/

theorem FreeRange.room_one (r : FreeRange) : r.room 1 = r.len := by
  rw [FreeRange.room, alignUp_one, BitVec.sub_self, BitVec.sub_zero]

theorem FreeRange.offers_one (r : FreeRange) (hlen : len ≠ 0) : r.Offers len 1 ↔ len ≤ r.len := by
  have hpos := BitVec.toNat_pos_of_ne_zero hlen
  rw [FreeRange.Offers, alignUp_one, BitVec.sub_self, BitVec.sub_zero]
  constructor
  · rintro ⟨-, -, hfit⟩
    exact hfit
  · intro hfit
    refine ⟨BitVec.le_refl _, BitVec.lt_def.mpr ?_, hfit⟩
    exact hpos.trans_le (BitVec.le_def.mp hfit)

/-- Both searches walk the list alike. -/
theorem iovaBestFitAlign_one (range : Node ℕ → FreeRange) (hlen : len ≠ 0) (ns : List (Node ℕ))
    (best : Option (Node ℕ)) (size : U64) :
    iovaBestFitAlign range len 1 ns (best.map fun n => (n, (range n).start)) size =
      (iovaBestFit range len ns best size).map fun n => (n, (range n).start) := by
  induction ns generalizing best size with
  | nil => rfl
  | cons n ns ih =>
      cases n with
      | sentinel =>
          rw [iovaBestFitAlign, iovaBestFit, if_pos (.inl rfl), if_pos rfl]
          exact ih best size
      | entry i =>
          have hne : Node.entry i ≠ .sentinel := by simp
          rw [iovaBestFitAlign_cons, iovaBestFit, if_neg hne, FreeRange.room_one, alignUp_one]
          simp only [FreeRange.offers_one _ hlen]
          split_ifs
          · rfl
          · exact ih (some _) _
          · exact ih best size

theorem iovaGetFreeAlign_one_fst (fl : FreeList) (hlen : len ≠ 0) :
    (iovaGetFreeAlign fl len 1).map Prod.fst = (iovaGetFree fl len).map Prod.fst := by
  have hsearch := iovaBestFitAlign_one fl.range hlen (fl.list.heads 0) none (-1)
  rw [iovaGetFreeAlign, iovaGetFree, iovaGetFreeRange, Option.map_map, Option.map_map]
  rw [Option.map_none] at hsearch
  rw [hsearch, Option.map_map]
  refine congrArg (Option.map · _) (funext fun n => ?_)
  dsimp only [Function.comp]
  split_ifs <;> rfl

/-! ## The block that is found -/

theorem le_of_idxOf_le {α : Type*} [DecidableEq α] {f : α → ℕ} {l : List α} {a b : α}
    (hsorted : l.Pairwise fun a b => f a < f b) (ha : a ∈ l) (hb : b ∈ l)
    (hle : l.idxOf a ≤ l.idxOf b) : f a ≤ f b := by
  rcases hle.lt_or_eq with hlt | heq
  · have hrel := List.pairwise_iff_getElem.mp hsorted _ _ (List.idxOf_lt_length_of_mem ha)
      (List.idxOf_lt_length_of_mem hb) hlt
    rw [List.getElem_idxOf, List.getElem_idxOf] at hrel
    exact hrel.le
  · exact (congrArg f ((List.idxOf_inj ha).mp heq)).le

section Pages

variable {j k : ℕ} (h : Tidy fl xs) (hk : 0 < k) (hj : j < 64)
  (hpages : ∀ i ∈ xs, 2 ^ k ∣ (fl.range (.entry i)).len.toNat)

include h hk hj hpages

theorem room_lt_of_pages {i : ℕ} (hi : i ∈ xs)
    (hoffers : (fl.range (.entry i)).Offers len (BitVec.twoPow 64 j)) :
    (fl.range (.entry i)).room (BitVec.twoPow 64 j) < -1 := by
  obtain ⟨⟨⟨-, hlo, -⟩, -⟩, hroom⟩ := isLeast_blocks hj (h.small i hi) hoffers
  have htwo : 2 ∣ (fl.range (.entry i)).len.toNat :=
    (dvd_pow_self 2 hk.ne').trans (hpages i hi)
  have hlt := (fl.range (.entry i)).len.isLt
  have hmax : (-1 : U64).toNat = 2 ^ 64 - 1 := rfl
  rw [FreeList.lo] at hlo
  rw [FreeList.hi] at hroom
  rw [BitVec.lt_def, hmax, hroom]
  omega

theorem iovaGetFreeAlign_fst_eq_argmin (len : U64) :
    (iovaGetFreeAlign fl len (BitVec.twoPow 64 j)).map Prod.fst =
      ((fl.offering len (BitVec.twoPow 64 j) xs).argmin fun i =>
        ((fl.range (.entry i)).room (BitVec.twoPow 64 j)).toNat).map
        fun i => alignUp (fl.range (.entry i)).start (BitVec.twoPow 64 j) := by
  rw [iovaGetFreeAlign, iovaBestFitAlign_eq_argmin h.holds fun i hi =>
    room_lt_of_pages h hk hj hpages hi, Option.map_map, Option.map_map]
  rfl

omit hk hpages in
theorem mem_offering_iff {i : ℕ} (hlen : len ≠ 0) :
    i ∈ fl.offering len (BitVec.twoPow 64 j) xs ↔
      i ∈ xs ∧ (fl.blocks len (BitVec.twoPow 64 j) i).Nonempty := by
  rw [FreeList.offering, List.mem_filter, decide_eq_true_iff]
  refine and_congr_right fun hi => ⟨fun hoffers => ?_, fun ⟨a, ha⟩ => ?_⟩
  · exact ⟨_, (isLeast_blocks hj (h.small i hi) hoffers).1.1⟩
  · exact offers_of_mem_blocks hj (h.small i hi) hlen ha

theorem iovaGetFreeAlign_eq_none_iff (hlen : len ≠ 0) :
    iovaGetFreeAlign fl len (BitVec.twoPow 64 j) = none ↔
      ∀ i ∈ xs, fl.blocks len (BitVec.twoPow 64 j) i = ∅ := by
  rw [← Option.map_eq_none_iff (f := Prod.fst), iovaGetFreeAlign_fst_eq_argmin h hk hj hpages,
    Option.map_eq_none_iff, List.argmin_eq_none, List.eq_nil_iff_forall_not_mem]
  refine forall_congr' fun i => ?_
  rw [mem_offering_iff h hj hlen, not_and, Set.not_nonempty_iff_eq_empty]

/-- The block is the lowest of a range in which it leaves the least space. -/
theorem iovaGetFreeAlign_least {iova : U64} {fl' : FreeList} (hlen : len ≠ 0)
    (hget : iovaGetFreeAlign fl len (BitVec.twoPow 64 j) = some (iova, fl')) :
    ∃ i ∈ xs, IsLeast (fl.blocks len (BitVec.twoPow 64 j) i) iova.toNat ∧
      ∀ i' ∈ xs, ∀ a, IsLeast (fl.blocks len (BitVec.twoPow 64 j) i') a →
        fl.hi i - iova.toNat ≤ fl.hi i' - a ∧
          (fl.hi i' - a = fl.hi i - iova.toNat → fl.lo i ≤ fl.lo i') := by
  have hfst := iovaGetFreeAlign_fst_eq_argmin h hk hj hpages len
  rw [hget, Option.map_some, eq_comm, Option.map_eq_some_iff] at hfst
  obtain ⟨i, hi, rfl⟩ := hfst
  obtain ⟨hmem, hmin, hfirst⟩ := List.mem_argmin_iff.mp (Option.mem_def.mpr hi)
  have hoffering : ∀ i ∈ fl.offering len (BitVec.twoPow 64 j) xs, i ∈ xs ∧
      IsLeast (fl.blocks len (BitVec.twoPow 64 j) i)
        (alignUp (fl.range (.entry i)).start (BitVec.twoPow 64 j)).toNat ∧
      ((fl.range (.entry i)).room (BitVec.twoPow 64 j)).toNat =
        fl.hi i - (alignUp (fl.range (.entry i)).start (BitVec.twoPow 64 j)).toNat := by
    intro i hi
    rw [FreeList.offering, List.mem_filter, decide_eq_true_iff] at hi
    exact ⟨hi.1, isLeast_blocks hj (h.small i hi.1) hi.2⟩
  obtain ⟨hxs, hleast, hroom⟩ := hoffering i hmem
  refine ⟨i, hxs, hleast, fun i' hi' a ha => ?_⟩
  have hmem' := (mem_offering_iff h hj hlen).mpr ⟨hi', a, ha.1⟩
  obtain ⟨-, hleast', hroom'⟩ := hoffering i' hmem'
  obtain rfl := ha.unique hleast'
  rw [← hroom, ← hroom']
  refine ⟨hmin i' hmem', fun heq => ?_⟩
  exact le_of_idxOf_le (h.apart.sorted_lo.sublist List.filter_sublist) hmem hmem'
    (hfirst i' hmem' heq.le)

end Pages

/-- The search takes the lowest aligned block of a range in which it leaves the least space,
and fails if there is none; without an alignment it finds what the other search finds. -/
theorem iovaGetFreeAlign_best_fit {j k : ℕ} (h : Canonical fl xs)
    (hends : ∀ i ∈ xs, fl.hi i < 2 ^ 64) (hk : 0 < k)
    (hpages : ∀ i ∈ xs, 2 ^ k ∣ (fl.range (.entry i)).start.toNat ∧
      2 ^ k ∣ (fl.range (.entry i)).len.toNat) (hlen : len ≠ 0) (hj : j < 64) :
    (iovaGetFreeAlign fl len (BitVec.twoPow 64 j) = none ↔
        ∀ i ∈ xs, fl.blocks len (BitVec.twoPow 64 j) i = ∅) ∧
      (∀ iova fl', iovaGetFreeAlign fl len (BitVec.twoPow 64 j) = some (iova, fl') →
        ∃ i ∈ xs, IsLeast (fl.blocks len (BitVec.twoPow 64 j) i) iova.toNat ∧
          ∀ i' ∈ xs, ∀ a, IsLeast (fl.blocks len (BitVec.twoPow 64 j) i') a →
            fl.hi i - iova.toNat ≤ fl.hi i' - a ∧
              (fl.hi i' - a = fl.hi i - iova.toNat → fl.lo i ≤ fl.lo i')) ∧
      (iovaGetFreeAlign fl len 1).map Prod.fst = (iovaGetFree fl len).map Prod.fst ∧
      ∀ iova fl₁ iova' fl₂, iovaGetFreeAlign fl len 1 = some (iova, fl₁) →
        iovaGetFree fl len = some (iova', fl₂) →
          ∃ xs₁ xs₂, Canonical fl₁ xs₁ ∧ Canonical fl₂ xs₂ ∧
            ∀ x, fl₁.Has xs₁ x ↔ fl₂.Has xs₂ x := by
  have htidy := h.tidy hends
  have hlens : ∀ i ∈ xs, 2 ^ k ∣ (fl.range (.entry i)).len.toNat := fun i hi => (hpages i hi).2
  have hfst := iovaGetFreeAlign_one_fst fl hlen
  refine ⟨iovaGetFreeAlign_eq_none_iff htidy hk hj hlens hlen,
    fun iova fl' => iovaGetFreeAlign_least htidy hk hj hlens hlen, hfst, ?_⟩
  intro iova fl₁ iova' fl₂ hget₁ hget₂
  rw [hget₁, hget₂] at hfst
  obtain rfl : iova = iova' := Option.some.inj hfst
  obtain ⟨xs₁, htidy₁, hhas₁⟩ := iovaGetFreeAlign_tidy htidy hget₁
  obtain ⟨xs₂, htidy₂, hhas₂⟩ := iovaGetFree_tidy htidy hget₂
  exact ⟨xs₁, xs₂, htidy₁.canonical, htidy₂.canonical, fun x => (hhas₁ x).trans (hhas₂ x).symm⟩

/-- The second range is larger, but as much is left of both from their first aligned address
on: the block comes from the lower one. -/
theorem iovaGetFreeAlign_best_fit_tie :
    let fl := iovaPutFree (oneRange 0x2000 0x2000) 0x5000 0x3000
    (iovaGetFreeAlign fl 0x1000 (BitVec.twoPow 64 13)).map Prod.fst = some 0x2000 ∧
      ∃ xs, Canonical fl xs ∧
        ∃ i ∈ xs, IsLeast (fl.blocks 0x1000 (BitVec.twoPow 64 13) i) 0x2000 ∧
          ∀ i' ∈ xs, ∀ a, IsLeast (fl.blocks 0x1000 (BitVec.twoPow 64 13) i') a →
            fl.hi i - 0x2000 ≤ fl.hi i' - a ∧
              (fl.hi i' - a = fl.hi i - 0x2000 → fl.lo i ≤ fl.lo i') := by
  intro fl
  have hfst : (iovaGetFreeAlign fl 0x1000 (BitVec.twoPow 64 13)).map Prod.fst = some 0x2000 := by
    decide +kernel
  obtain ⟨xs₁, htidy₁, hhas₁⟩ := oneRange_tidy 0x2000 0x2000 (by decide) (by decide)
  obtain ⟨xs, htidy, hhas⟩ : ∃ xs, Tidy fl xs ∧ ∀ x, fl.Has xs x ↔
      (oneRange 0x2000 0x2000).Has xs₁ x ∨ (0x5000 ≤ x ∧ x < 0x8000) :=
    iovaPutFree_tidy htidy₁ (by decide) (by decide) fun x hle _ hin =>
      absurd (((hhas₁ x).mp hin).2.trans_le' hle) (by decide)
  have hpaged : Paged (2 ^ 12) {x | fl.Has xs x} := by
    have hset : {x | fl.Has xs x} = Set.Ico 0x2000 0x4000 ∪ Set.Ico 0x5000 0x8000 :=
      Set.ext fun x => (hhas x).trans (or_congr_left (hhas₁ x))
    rw [hset]
    exact (paged_Ico (by decide) (by decide) (by decide)).union
      (paged_Ico (by decide) (by decide) (by decide))
  obtain ⟨⟨iova, fl'⟩, hget, hiova⟩ := Option.map_eq_some_iff.mp hfst
  obtain rfl : iova = 0x2000 := hiova
  refine ⟨hfst, xs, htidy.canonical, ?_⟩
  refine (iovaGetFreeAlign_best_fit (k := 12) (j := 13) htidy.canonical htidy.small (by decide)
    (fun i hi => ?_) (by decide) (by decide)).2.1 0x2000 fl' hget
  obtain ⟨hlo, hhi⟩ := htidy.separate.dvd_ends htidy.apart (by decide) hpaged hi
  exact ⟨hlo, (Nat.dvd_add_right hlo).mp hhi⟩

end Iommu

end Libvfn
