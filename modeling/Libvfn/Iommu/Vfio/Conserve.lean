import Libvfn.Iommu.Vfio.Canonical

/-!
# The list of free addresses conserves addresses

A list is `Canonical` when its ranges are in order, not empty, and do not touch; nothing
is said about where the last one ends. What is put back is covered afterwards, together
with what was, and what is taken was covered and is not any more.

The last address is where this can fail. The length of a range is a word, so the range of
all addresses does not exist: the block that would complete it leaves the list with a range
of length zero. Every other block can be put back.
-/

namespace Libvfn

namespace Iommu

open Word Support Util Spans Linked

/-- The list holds the nodes `xs`, in the order of their ranges, which are not empty and do
not touch. -/
structure Canonical (fl : FreeList) (xs : List ℕ) : Prop where
  holds : Holds fl.list xs
  fresh : ∀ i ∈ xs, i < fl.fresh
  apart : Apart fl.lo fl.hi xs
  separate : Separate fl.lo fl.hi xs

/-- The list `fl'` is canonical and covers the block and what `fl` covers. -/
def Joins (fl : FreeList) (xs : List ℕ) (start len : U64) (fl' : FreeList) : Prop :=
  ∃ xs', Canonical fl' xs' ∧ ∀ x, fl'.Has xs' x ↔ fl.Has xs x ∨ x ∈ addresses start len

def FreeList.after (fl : FreeList) (got : Option (U64 × FreeList)) : FreeList :=
  (got.map Prod.snd).getD fl

/-- What a list is asked for: either it has no such block and stays as it is, or it covered
the block, and afterwards it is canonical and covers everything else. -/
structure Yields (fl : FreeList) (xs : List ℕ) (len : U64) (got : Option (U64 × FreeList)) :
    Prop where
  unchanged : got = none → fl.after got = fl
  taken : ∀ iova, got.map Prod.fst = some iova →
    (∀ x ∈ addresses iova len, fl.Has xs x) ∧
      ∃ xs', Canonical (fl.after got) xs' ∧
        ∀ x, (fl.after got).Has xs' x ↔ fl.Has xs x ∧ x ∉ addresses iova len

variable {fl : FreeList} {xs l r : List ℕ} {i : ℕ} {start len : U64}

theorem Tidy.canonical (h : Tidy fl xs) : Canonical fl xs :=
  ⟨h.holds, h.fresh, h.apart, h.separate⟩

theorem Canonical.tidy (h : Canonical fl xs) (hends : ∀ i ∈ xs, fl.hi i < 2 ^ 64) : Tidy fl xs :=
  ⟨⟨h.holds, h.fresh, h.apart, hends⟩, h.separate⟩

theorem Canonical.exists_not_has (h : Canonical fl xs) : ∃ x < 2 ^ 64, ¬fl.Has xs x := by
  by_contra hall
  push Not at hall
  obtain ⟨a, -, hlo, hhi⟩ := h.separate.exists_of_covers h.apart (s := 0) (t := 2 ^ 64) (by simp)
    fun x _ hlt => hall x hlt
  have hlen := (fl.range (.entry a)).len.isLt
  rw [FreeList.lo] at hlo
  rw [FreeList.hi] at hhi
  omega

/-! ## Blocks that end with the last address -/

section Top

variable (hpos : 0 < len.toNat) (htop : start.toNat + len.toNat = 2 ^ 64)

include htop

theorem Tidy.hi_le_of_top (h : Tidy fl xs) (hgap : ∀ x ∈ addresses start len, ¬fl.Has xs x) :
    ∀ a ∈ xs, fl.hi a ≤ start.toNat := by
  intro a ha
  have hne := h.apart.nonempty a ha
  have hsmall := h.small a ha
  by_contra hlt
  exact hgap (fl.hi a - 1) ⟨by omega, by omega⟩ ⟨a, ha, by omega, by omega⟩

include hpos

theorem Tidy.joins_link (h : Tidy fl xs) (hgap : ∀ x ∈ addresses start len, ¬fl.Has xs x)
    (hprev : ∀ a ∈ xs, fl.hi a ≠ start.toNat) :
    Joins fl xs start len (iovaLinkFree fl start len) := by
  obtain ⟨xs', hholds, hmem, hapart, hhas⟩ := iovaLinkFree_apart h.toFree hpos
    fun x hle hlt => hgap x ⟨hle, hlt⟩
  refine ⟨xs', ⟨hholds, fun i hi => ?_, hapart,
    h.separate_link hholds hapart hprev fun a ha => ?_⟩, hhas⟩
  · rcases hmem i hi with rfl | hi
    · exact Nat.lt_succ_self _
    · exact Nat.lt_succ_of_lt (h.fresh i hi)
  · have hlo := (fl.range (.entry a)).start.isLt
    rw [FreeList.lo, htop]
    exact hlo.ne

theorem Tidy.joins_extendNext (h : Tidy fl xs) (hgap : ∀ x ∈ addresses start len, ¬fl.Has xs x)
    (hprev : ∀ a ∈ xs, fl.hi a ≠ start.toNat) :
    Joins fl xs start len (iovaExtendNext fl start len) := by
  rw [iovaExtendNext]
  cases hfind : (skiplistFindGe fl.list (iovaFreeRangeCmp fl.range start)).1 with
  | none => exact h.joins_link hpos htop hgap hprev
  | some next =>
      obtain ⟨l, p, r, rfl, rfl, hp, -⟩ := h.toFree.findGe_split hfind
      have hle := h.hi_le_of_top htop hgap p (by simp)
      have hne := h.apart.nonempty p (by simp)
      omega

/-- The last range takes the block in, unless it starts with the first address. -/
theorem Tidy.joins_extendPrev (h : Tidy fl (l ++ [i])) (hprev : fl.hi i = start.toNat)
    (hfirst : 0 < fl.lo i) :
    Joins fl (l ++ [i]) start len (iovaExtendPrev fl (.entry i) len) := by
  have hne := h.apart.nonempty i (by simp)
  obtain ⟨hl, -, hfront, -⟩ := (separate_append_cons hne.le).mp h.separate
  have hlen : (fl.range (.entry i)).start.toNat + ((fl.range (.entry i)).len + len).toNat =
      2 ^ 64 := by
    rw [FreeList.hi] at hprev
    rw [FreeList.lo] at hfirst
    rw [BitVec.toNat_add_of_lt (by omega)]
    omega
  obtain ⟨hapart, hhas⟩ := h.toFree.apart_set (fl.range (.entry i)).start
    ((fl.range (.entry i)).len + len) (fun a ha => (hfront a ha).le)
    (by have := (fl.range (.entry i)).start.isLt; omega) (by simp)
  obtain ⟨hsetl, -⟩ := set_others h.holds
    ⟨(fl.range (.entry i)).start, (fl.range (.entry i)).len + len⟩
  rw [iovaExtendPrev_last fl h.toFree.next_eq]
  refine ⟨l ++ [i], ⟨h.holds, h.fresh, hapart, ?_⟩, fun x => ?_⟩
  · refine hapart.separate_of_ne ((separate_congr hsetl).mpr hl) .nil (fun b hb => ?_) (by simp)
    rw [(hsetl b hb).2, lo_set_self]
    exact (hfront b hb).ne
  · have hsplit : ((fl.range (.entry i)).start.toNat ≤ x ∧ x < 2 ^ 64) ↔
        (fl.lo i ≤ x ∧ x < fl.hi i) ∨ x ∈ addresses start len := by
      rw [addresses, Set.mem_Ico, htop, hprev]
      rw [FreeList.lo] at hne ⊢
      omega
    refine (hhas x).trans ?_
    rw [hlen, hsplit, FreeList.Has, FreeList.Has, FreeList.Has, covers_append_cons]
    simp only [or_left_comm, or_comm]

/-- The block can be put back unless it would complete the range of all addresses. -/
theorem Tidy.joins_put_top (h : Tidy fl xs) (hgap : ∀ x ∈ addresses start len, ¬fl.Has xs x)
    (hroom : ∃ x < 2 ^ 64, ¬fl.Has xs x ∧ x ∉ addresses start len) :
    Joins fl xs start len (iovaPutFree fl start len) := by
  have hbelow := h.hi_le_of_top htop hgap
  obtain ⟨l, p, r, rfl, hprev, heq⟩ | ⟨hprev, heq⟩ := h.putFree_cases start len
  · have hne := h.apart.nonempty p (by simp)
    -- the range that takes the block in is the last one
    obtain rfl : r = [] := by
      refine List.eq_nil_iff_forall_not_mem.mpr fun b hb => ?_
      have hlt := ((separate_append_cons hne.le).mp h.separate).2.2.2 b hb
      have hle := hbelow b (by simp [hb])
      have hneb := h.apart.nonempty b (by simp [hb])
      omega
    rw [heq]
    refine h.joins_extendPrev hpos htop hprev (Nat.pos_of_ne_zero fun hzero => ?_)
    obtain ⟨x, hx, hnot, hout⟩ := hroom
    rw [addresses, Set.mem_Ico, htop] at hout
    exact hnot ⟨p, by simp, by omega, by omega⟩
  · rw [heq]
    exact h.joins_extendNext hpos htop hgap hprev

end Top

/-! ## Every block -/

theorem Tidy.joins_put_iff (h : Tidy fl xs) (hpos : 0 < len.toNat)
    (hend : start.toNat + len.toNat ≤ 2 ^ 64) (hgap : ∀ x ∈ addresses start len, ¬fl.Has xs x) :
    Joins fl xs start len (iovaPutFree fl start len) ↔
      ∃ x < 2 ^ 64, ¬fl.Has xs x ∧ x ∉ addresses start len := by
  constructor
  · rintro ⟨xs', hcanonical, hhas⟩
    obtain ⟨x, hx, hnot⟩ := hcanonical.exists_not_has
    exact ⟨x, hx, not_or.mp (mt (hhas x).mpr hnot)⟩
  · intro hroom
    rcases hend.lt_or_eq with hsmall | htop
    · obtain ⟨xs', htidy, hhas⟩ := iovaPutFree_tidy h hpos hsmall fun x hle hlt =>
        hgap x ⟨hle, hlt⟩
      exact ⟨xs', htidy.canonical, hhas⟩
    · exact h.joins_put_top hpos htop hgap hroom

theorem yields_of_spec {got : Option (U64 × FreeList)}
    (hspec : ∀ iova fl', got = some (iova, fl') → Takes fl xs iova len fl')
    (htidy : ∀ iova fl', got = some (iova, fl') → ∃ xs', Tidy fl' xs' ∧ ∀ x, fl'.Has xs' x ↔
      fl.Has xs x ∧ ¬(iova.toNat ≤ x ∧ x < iova.toNat + len.toNat)) :
    Yields fl xs len got := by
  obtain _ | ⟨iova, fl'⟩ := got
  · exact ⟨fun _ => rfl, fun iova h => absurd h.symm (Option.some_ne_none _)⟩
  · refine ⟨fun h => absurd h (Option.some_ne_none _), fun iova' h => ?_⟩
    obtain rfl := Option.some.inj h
    obtain ⟨xs', htidy, hhas⟩ := htidy iova fl' rfl
    exact ⟨fun x hx => (hspec iova fl' rfl).1 x hx.1 hx.2, xs', htidy.canonical, hhas⟩

/-- Taking a block and putting one back leave the list canonical and conserve addresses,
except that no list has all of them. -/
theorem freeList_conserves (h : Canonical fl xs) (hends : ∀ i ∈ xs, fl.hi i < 2 ^ 64) :
    (∀ start len : U64, len ≠ 0 → start.toNat + len.toNat ≤ 2 ^ 64 →
      (∀ x ∈ addresses start len, ¬fl.Has xs x) →
        (Joins fl xs start len (iovaPutFree fl start len) ↔
          ∃ x < 2 ^ 64, ¬fl.Has xs x ∧ x ∉ addresses start len)) ∧
      (∀ len : U64, len ≠ 0 → Yields fl xs len (iovaGetFree fl len)) ∧
      ∀ len align : U64, len ≠ 0 → Yields fl xs len (iovaGetFreeAlign fl len align) := by
  have htidy := h.tidy hends
  refine ⟨fun start len hlen => ?_, fun len _ => ?_, fun len align _ => ?_⟩
  · exact htidy.joins_put_iff (BitVec.toNat_pos_of_ne_zero hlen)
  · exact yields_of_spec (fun _ _ => iovaGetFree_spec htidy.toFree)
      (fun _ _ => iovaGetFree_tidy htidy)
  · exact yields_of_spec (fun _ _ => iovaGetFreeAlign_spec htidy.toFree)
      (fun _ _ => iovaGetFreeAlign_tidy htidy)

def oneRange (start len : U64) : FreeList :=
  iovaPutFree (freeListInit (fun _ => true) ⟨0, 0⟩) start len

theorem oneRange_tidy (start len : U64) (hlen : len ≠ 0)
    (hsmall : start.toNat + len.toNat < 2 ^ 64) :
    ∃ xs, Tidy (oneRange start len) xs ∧
      ∀ x, (oneRange start len).Has xs x ↔ x ∈ addresses start len := by
  obtain ⟨xs, htidy, hhas⟩ := iovaPutFree_tidy (tidy_init (fun _ => true) ⟨0, 0⟩)
    (BitVec.toNat_pos_of_ne_zero hlen) hsmall fun x _ _ => not_covers_nil _ _ x
  exact ⟨xs, htidy, fun x => (hhas x).trans (or_iff_right (not_covers_nil _ _ x))⟩

/-- A block behind the only range is put back, and an aligned one is taken from it. -/
theorem freeList_conserves_oneRange :
    ∃ xs, Canonical (oneRange 0x1000 0x3000) xs ∧
      Joins (oneRange 0x1000 0x3000) xs 0x4000 0x1000
        (iovaPutFree (oneRange 0x1000 0x3000) 0x4000 0x1000) ∧
      (iovaGetFreeAlign (oneRange 0x1000 0x3000) 0x1000 0x2000).map Prod.fst = some 0x2000 ∧
      Yields (oneRange 0x1000 0x3000) xs 0x1000
        (iovaGetFreeAlign (oneRange 0x1000 0x3000) 0x1000 0x2000) := by
  obtain ⟨xs, htidy, hhas⟩ := oneRange_tidy 0x1000 0x3000 (by decide) (by decide)
  have hconserves := freeList_conserves htidy.canonical htidy.small
  refine ⟨xs, htidy.canonical, (hconserves.1 0x4000 0x1000 (by decide) (by decide) ?_).mpr ?_,
    by decide +kernel, hconserves.2.2 0x1000 0x2000 (by decide)⟩
  · intro x hx hin
    exact ((hhas x).mp hin).2.not_ge hx.1
  · refine ⟨0, by decide, fun hin => ?_, fun hin => ?_⟩
    · exact absurd ((hhas 0).mp hin).1 (by decide)
    · exact absurd hin.1 (by decide)

/-- The lower half of the addresses is free and the upper half is put back: a range of
length zero is left, which covers neither. -/
theorem freeList_loses_whole :
    ∃ xs, Canonical (oneRange 0 0x8000000000000000) xs ∧
      (∀ i ∈ xs, (oneRange 0 0x8000000000000000).hi i < 2 ^ 64) ∧
      (∀ x ∈ addresses 0x8000000000000000 0x8000000000000000,
        ¬(oneRange 0 0x8000000000000000).Has xs x) ∧
      (iovaPutFree (oneRange 0 0x8000000000000000) 0x8000000000000000
        0x8000000000000000).range (.entry 0) = ⟨0, 0⟩ ∧
      ¬Joins (oneRange 0 0x8000000000000000) xs 0x8000000000000000 0x8000000000000000
        (iovaPutFree (oneRange 0 0x8000000000000000) 0x8000000000000000 0x8000000000000000) := by
  obtain ⟨xs, htidy, hhas⟩ := oneRange_tidy 0 0x8000000000000000 (by decide) (by decide)
  refine ⟨xs, htidy.canonical, htidy.small, fun x hx hin => ?_, by decide +kernel, ?_⟩
  · exact ((hhas x).mp hin).2.not_ge hx.1
  · rintro ⟨xs', hcanonical, hhas'⟩
    obtain ⟨x, hx, hnot⟩ := hcanonical.exists_not_has
    refine hnot ((hhas' x).mpr ?_)
    rcases lt_or_ge x 0x8000000000000000 with hlt | hge
    · exact .inl ((hhas x).mpr ⟨Nat.zero_le x, hlt⟩)
    · exact .inr ⟨hge, hx⟩

end Iommu

end Libvfn
