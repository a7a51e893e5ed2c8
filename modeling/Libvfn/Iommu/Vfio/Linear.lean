import Mathlib.Data.Nat.Factorization.Basic
import Mathlib.Order.Bounds.Basic
import Libvfn.Iommu.Vfio.Canonical
import Libvfn.Iommu.Vfio.Container

/-!
# The cursor at the limits of a word

A block that is not in the list of free addresses is cut off at the cursor. In unbounded
numbers this is the lowest aligned block behind the cursor, in the first range that has one,
and the cursor goes behind it (`FirstBlock`). The size of a range and the new cursor are
computed in words, though: the size of the range of all addresses is zero, and the cursor
behind the last address is zero too. Apart from these two cases the reservation is exact.

The alignment of a block, which may also come from the list of free addresses, is honoured if
it is a power of two. Any other number of pages is accepted as well, and is not honoured.
-/

namespace Libvfn

namespace Iommu

open Word Support Util

/-- Where the aligned blocks of a range start that are not before the cursor. -/
def IovaRange.blocks (r : IovaRange) (next len align : ℕ) : Set ℕ :=
  {a | align ∣ a ∧ max next r.start.toNat ≤ a ∧ a + len ≤ r.last.toNat + 1}

def FirstBlock (ranges : List IovaRange) (next len align a : ℕ) : Prop :=
  ∃ l r rest, ranges = l ++ r :: rest ∧ (∀ q ∈ l, q.blocks next len align = ∅) ∧
    IsLeast (r.blocks next len align) a

/-- The ranges are not empty, disjoint and in order. -/
structure Ordered (ranges : List IovaRange) : Prop where
  nonempty : ∀ r ∈ ranges, r.start ≤ r.last
  sorted : ranges.Pairwise fun r q => r.last < q.start

/-- What a reservation returns is right in unbounded numbers: it fails if no range has a
block, and otherwise returns the first block and the cursor behind it, which has not moved
backwards. -/
def Exact (ranges : List IovaRange) (next len : U64) (align : ℕ) : Option (U64 × U64) → Prop
  | none => ∀ r ∈ ranges, r.blocks next.toNat len.toNat align = ∅
  | some (iova, next') =>
      FirstBlock ranges next.toNat len.toNat align iova.toNat ∧
        next'.toNat = iova.toNat + len.toNat ∧ next.toNat ≤ next'.toNat

/-- Words are enough: it is not the range of all addresses that has to be measured, and the
block does not end with the last address. -/
def Representable (ranges : List IovaRange) (next len : U64) (align : ℕ) : Prop :=
  ¬(next = 0 ∧ ⟨0, -1⟩ ∈ ranges) ∧
    ∀ a, FirstBlock ranges next.toNat len.toNat align a → a + len.toNat < 2 ^ 64

variable {r : IovaRange} {ranges : List IovaRange} {next next' len iova align : U64} {j : ℕ}

theorem Ordered.tail (h : Ordered (r :: ranges)) : Ordered ranges :=
  ⟨fun q hq => h.nonempty q (List.mem_cons_of_mem r hq), (List.pairwise_cons.mp h.sorted).2⟩

theorem firstBlock_cons {n m p a : ℕ} :
    FirstBlock (r :: ranges) n m p a ↔
      IsLeast (r.blocks n m p) a ∨ (r.blocks n m p = ∅ ∧ FirstBlock ranges n m p a) := by
  constructor
  · rintro ⟨_ | ⟨q, l⟩, r', rest, heq, hl, hleast⟩
    · obtain ⟨rfl, -⟩ := List.cons.inj heq
      exact .inl hleast
    · obtain ⟨rfl, rfl⟩ := List.cons.inj heq
      obtain ⟨hr, hl⟩ := List.forall_mem_cons.mp hl
      exact .inr ⟨hr, l, r', rest, rfl, hl, hleast⟩
  · rintro (hleast | ⟨hr, l, r', rest, rfl, hl, hleast⟩)
    · exact ⟨[], r, ranges, rfl, by simp, hleast⟩
    · exact ⟨r :: l, r', rest, rfl, List.forall_mem_cons.mpr ⟨hr, hl⟩, hleast⟩

theorem FirstBlock.unique {n m p a b : ℕ} (ha : FirstBlock ranges n m p a)
    (hb : FirstBlock ranges n m p b) : a = b := by
  induction ranges with
  | nil =>
      obtain ⟨l, r, rest, heq, -⟩ := ha
      simp at heq
  | cons r ranges ih =>
      rcases firstBlock_cons.mp ha with ha | ⟨hempty, ha⟩
      · rcases firstBlock_cons.mp hb with hb | ⟨hempty, -⟩
        · exact ha.unique hb
        · exact absurd (hempty ▸ ha.1) (Set.notMem_empty a)
      · rcases firstBlock_cons.mp hb with hb | ⟨-, hb⟩
        · exact absurd (hempty ▸ hb.1) (Set.notMem_empty b)
        · exact ih ha hb

theorem FirstBlock.exists_mem {n m p a : ℕ} (h : FirstBlock ranges n m p a) :
    ∃ r ∈ ranges, a ∈ r.blocks n m p := by
  obtain ⟨l, r, rest, rfl, -, hleast⟩ := h
  exact ⟨r, by simp, hleast.1⟩

/-! ## One range -/

/-- The loop tries one range and goes on with the others from where the cursor is then. -/
theorem iovaReserveFrom_cons (place : U64 → Option U64) (len : U64) (r : IovaRange)
    (ranges : List IovaRange) (next : U64) :
    iovaReserveFrom place len (r :: ranges) next =
      (iovaReserveFrom place len [r] next).or
        (iovaReserveFrom place len ranges
          (if r.last < next then next else if r.start < next then next else r.start)) := by
  rw [iovaReserveFrom, iovaReserveFrom]
  by_cases hskip : r.last < next
  · simp only [if_pos hskip]
    rfl
  · simp only [if_neg hskip]
    cases place (if r.start < next then next else r.start) with
    | none => rfl
    | some a =>
        dsimp only
        split_ifs <;> rfl

theorem toNat_moved (r : IovaRange) (next : U64) :
    (if r.start < next then next else r.start).toNat = max next.toNat r.start.toNat := by
  split_ifs with hlt
  · exact (max_eq_left (BitVec.lt_def.mp hlt).le).symm
  · exact (max_eq_right (BitVec.le_def.mp (BitVec.not_lt.mp hlt))).symm

theorem iovaReserve_eq_align (ranges : List IovaRange) (next len : U64) :
    iovaReserve ranges next len = iovaReserveAlign ranges next len 1 := by
  rw [iovaReserve, iovaReserveAlign]
  congr 1
  funext next
  rw [alignUp_one, if_neg (by rw [BitVec.lt_def]; exact lt_irrefl _)]

theorem iovaReserveFrom_singleton (place : U64 → Option U64) (len : U64) (r : IovaRange)
    (next : U64) :
    iovaReserveFrom place len [r] next =
      if r.last < next then none
      else (place (if r.start < next then next else r.start)).bind fun iova =>
        if r.last < iova ∨ r.last - iova + 1 < len then none else some (iova, iova + len) := by
  rw [iovaReserveFrom]
  by_cases hskip : r.last < next
  · simp only [if_pos hskip]
    rfl
  · simp only [if_neg hskip]
    cases place (if r.start < next then next else r.start) <;> rfl

theorem iovaReserveAlign_singleton (r : IovaRange) (next len align : U64) :
    let moved := if r.start < next then next else r.start
    iovaReserveAlign [r] next len align =
      if r.last < next ∨ alignUp moved align < moved ∨ r.last < alignUp moved align ∨
          r.last - alignUp moved align + 1 < len then none
      else some (alignUp moved align, alignUp moved align + len) := by
  intro moved
  rw [iovaReserveAlign, iovaReserveFrom_singleton]
  by_cases hskip : r.last < next
  · rw [if_pos hskip, if_pos (.inl hskip)]
  · rw [if_neg hskip]
    by_cases hwrap : alignUp moved align < moved
    · rw [if_pos hwrap, if_pos (.inr (.inl hwrap))]
      rfl
    · rw [if_neg hwrap, Option.bind_some]
      simp only [hskip, hwrap, false_or]
      rfl

section One

variable (hj : j < 64) (hlen : len ≠ 0)

include hlen

theorem toNat_lt_of_mem_blocks {a : ℕ} (ha : a ∈ r.blocks next.toNat len.toNat (2 ^ j)) :
    a < 2 ^ 64 := by
  have hpos := BitVec.toNat_pos_of_ne_zero hlen
  have hlast := r.last.isLt
  have hend := ha.2.2
  omega

include hj

/-- A block that one range gives is its lowest one. -/
theorem iovaReserveAlign_singleton_some
    (h : iovaReserveAlign [r] next len (BitVec.twoPow 64 j) = some (iova, next')) :
    IsLeast (r.blocks next.toNat len.toNat (2 ^ j)) iova.toNat ∧ next' = iova + len := by
  rw [iovaReserveAlign_singleton] at h
  have hmoved := toNat_moved r next
  generalize (if r.start < next then next else r.start) = moved at h hmoved
  split_ifs at h with hskip
  obtain ⟨rfl, rfl⟩ := Prod.mk.inj (Option.some.inj h)
  rw [not_or, not_or, not_or, BitVec.not_lt, BitVec.not_lt, BitVec.not_lt, BitVec.not_lt,
    BitVec.le_def, BitVec.le_def, BitVec.le_def, BitVec.le_def, BitVec.toNat_add] at hskip
  obtain ⟨-, hge, hle, hfits⟩ := hskip
  rw [BitVec.toNat_sub_of_le (BitVec.le_def.mpr hle)] at hfits
  have hsize := hfits.trans (Nat.mod_le _ _)
  have hone : (1 : U64).toNat = 1 := rfl
  refine ⟨⟨⟨twoPow_dvd_alignUp moved hj, hmoved ▸ hge, by omega⟩, fun a ha => ?_⟩, rfl⟩
  exact (alignUp_twoPow_le moved hj ha.1 (hmoved ▸ ha.2.1)
    (toNat_lt_of_mem_blocks hlen ha)).2

/-- A range that gives no block has none, or it is the range of all addresses. -/
theorem iovaReserveAlign_singleton_none
    (h : iovaReserveAlign [r] next len (BitVec.twoPow 64 j) = none) :
    r.blocks next.toNat len.toNat (2 ^ j) = ∅ ∨ (next = 0 ∧ r = ⟨0, -1⟩) := by
  rw [or_iff_not_imp_left, ← ne_eq, ← Set.nonempty_iff_ne_empty]
  rintro ⟨a, ha⟩
  rw [iovaReserveAlign_singleton] at h
  have hmoved := toNat_moved r next
  generalize (if r.start < next then next else r.start) = moved at h hmoved
  obtain ⟨hge, hle⟩ := alignUp_twoPow_le moved hj ha.1 (hmoved ▸ ha.2.1)
    (toNat_lt_of_mem_blocks hlen ha)
  obtain ⟨-, hcursor, hend⟩ := ha
  have hpos := BitVec.toNat_pos_of_ne_zero hlen
  have hone : (1 : U64).toNat = 1 := rfl
  have hin : (alignUp moved (BitVec.twoPow 64 j)).toNat ≤ r.last.toNat := by omega
  split_ifs at h with hskip
  rw [BitVec.lt_def, BitVec.lt_def, BitVec.lt_def, BitVec.lt_def, BitVec.toNat_add,
    BitVec.toNat_sub_of_le (BitVec.le_def.mpr hin), hone] at hskip
  -- only the size of the range can have been wrong
  have hlast := r.last.isLt
  have hmax : (-1 : U64).toNat = 2 ^ 64 - 1 := rfl
  have hzero : (0 : U64).toNat = 0 := rfl
  have hwhole : r.last.toNat = 2 ^ 64 - 1 ∧ (alignUp moved (BitVec.twoPow 64 j)).toNat = 0 := by
    by_contra hnot
    rw [Nat.mod_eq_of_lt (by omega)] at hskip
    omega
  have hmin : next.toNat = 0 ∧ r.start.toNat = 0 := by omega
  obtain ⟨start, last⟩ := r
  refine ⟨BitVec.eq_of_toNat_eq hmin.1, ?_⟩
  congr 1
  · exact BitVec.eq_of_toNat_eq hmin.2
  · exact BitVec.eq_of_toNat_eq (hwhole.1.trans hmax.symm)

end One

/-! ## All ranges -/

def Finds (ranges : List IovaRange) (next len : U64) (align : ℕ) : Option (U64 × U64) → Prop
  | none => ∀ r ∈ ranges, r.blocks next.toNat len.toNat align = ∅
  | some (iova, next') =>
      FirstBlock ranges next.toNat len.toNat align iova.toNat ∧ next' = iova + len

theorem blocks_moved {q : IovaRange} (hne : r.start ≤ r.last) (hlt : r.last < q.start) (m p : ℕ) :
    q.blocks (if r.last < next then next else if r.start < next then next else r.start).toNat m p =
      q.blocks next.toNat m p := by
  have hmax : max (if r.last < next then next else if r.start < next then next
      else r.start).toNat q.start.toNat = max next.toNat q.start.toNat := by
    rw [BitVec.le_def] at hne
    rw [BitVec.lt_def] at hlt
    split_ifs with _ hcursor
    · rfl
    · rfl
    · rw [BitVec.lt_def] at hcursor
      omega
  rw [IovaRange.blocks, IovaRange.blocks, hmax]

theorem Finds.cons {res : Option (U64 × U64)} {p : ℕ} (hordered : Ordered (r :: ranges))
    (hempty : r.blocks next.toNat len.toNat p = ∅)
    (h : Finds ranges (if r.last < next then next else if r.start < next then next
      else r.start) len p res) : Finds (r :: ranges) next len p res := by
  have hmoved : ∀ q ∈ ranges, q.blocks (if r.last < next then next else if r.start < next then
      next else r.start).toNat len.toNat p = q.blocks next.toNat len.toNat p := fun q hq =>
    blocks_moved (hordered.nonempty r List.mem_cons_self)
      ((List.pairwise_cons.mp hordered.sorted).1 q hq) _ _
  obtain _ | ⟨iova, next'⟩ := res
  · exact List.forall_mem_cons.mpr ⟨hempty, fun q hq => (hmoved q hq).symm.trans (h q hq)⟩
  · obtain ⟨⟨l, q, rest, rfl, hl, hleast⟩, hnext⟩ := h
    refine ⟨firstBlock_cons.mpr (.inr ⟨hempty, l, q, rest, rfl, fun q' hq' => ?_, ?_⟩), hnext⟩
    · exact (hmoved q' (by simp [hq'])).symm.trans (hl q' hq')
    · rw [← hmoved q (by simp)]
      exact hleast

theorem iovaReserveAlign_finds (hordered : Ordered ranges) (hlen : len ≠ 0) (hj : j < 64)
    (hwhole : ¬(next = 0 ∧ ⟨0, -1⟩ ∈ ranges)) :
    Finds ranges next len (2 ^ j) (iovaReserveAlign ranges next len (BitVec.twoPow 64 j)) := by
  induction ranges generalizing next with
  | nil => exact fun r hr => absurd hr List.not_mem_nil
  | cons r ranges ih =>
      rw [iovaReserveAlign, iovaReserveFrom_cons]
      change Finds _ _ _ _ ((iovaReserveAlign [r] next len (BitVec.twoPow 64 j)).or
        (iovaReserveAlign ranges _ len (BitVec.twoPow 64 j)))
      cases hone : iovaReserveAlign [r] next len (BitVec.twoPow 64 j) with
      | some res =>
          obtain ⟨hleast, hnext⟩ := iovaReserveAlign_singleton_some hj hlen hone
          exact ⟨firstBlock_cons.mpr (.inl hleast), hnext⟩
      | none =>
          rw [Option.none_or]
          refine Finds.cons hordered ?_ (ih hordered.tail fun h => ?_)
          · refine (iovaReserveAlign_singleton_none hj hlen hone).resolve_right fun h => ?_
            exact hwhole ⟨h.1, by rw [h.2]; exact List.mem_cons_self⟩
          · -- nothing precedes the range of all addresses
            exact absurd ((List.pairwise_cons.mp hordered.sorted).1 _ h.2) BitVec.not_lt_zero

/-- The range of all addresses is passed over. -/
theorem iovaReserveAlign_whole (hordered : Ordered ranges) (hmem : ⟨0, -1⟩ ∈ ranges)
    (hlen : len ≠ 0) (hj : j < 64) :
    ranges = [⟨0, -1⟩] ∧ iovaReserveAlign ranges 0 len (BitVec.twoPow 64 j) = none := by
  obtain ⟨l, rest, rfl⟩ := List.append_of_mem hmem
  obtain ⟨-, hsorted, hfront⟩ := List.pairwise_append.mp hordered.sorted
  obtain rfl : l = [] := List.eq_nil_iff_forall_not_mem.mpr fun q hq =>
    absurd (hfront q hq _ List.mem_cons_self) BitVec.not_lt_zero
  obtain rfl : rest = [] := by
    refine List.eq_nil_iff_forall_not_mem.mpr fun q hq => ?_
    have hlt := BitVec.lt_def.mp ((List.pairwise_cons.mp hsorted).1 q hq)
    have hmax : (-1 : U64).toNat = 2 ^ 64 - 1 := rfl
    have hstart := q.start.isLt
    rw [hmax] at hlt
    omega
  refine ⟨rfl, ?_⟩
  rw [List.nil_append, iovaReserveAlign_singleton]
  have hpos := BitVec.toNat_pos_of_ne_zero hlen
  have hzero : alignUp 0 (BitVec.twoPow 64 j) = 0 := by
    have hle := (alignUp_twoPow_le 0 hj (Nat.dvd_zero (2 ^ j)) le_rfl (by decide)).2
    exact BitVec.eq_of_toNat_eq (Nat.le_zero.mp hle)
  refine if_pos (.inr (.inr (.inr ?_)))
  dsimp only
  rw [ite_self, hzero]
  exact BitVec.lt_def.mpr hpos

theorem FirstBlock.end_le {p a : ℕ} (h : FirstBlock ranges next.toNat len.toNat p a) :
    next.toNat ≤ a ∧ a + len.toNat ≤ 2 ^ 64 := by
  obtain ⟨r, -, -, hle, hend⟩ := h.exists_mem
  have hlast := r.last.isLt
  omega

theorem reserveAlign_exact_iff (hordered : Ordered ranges) (hlen : len ≠ 0) (hj : j < 64) :
    Exact ranges next len (2 ^ j) (iovaReserveAlign ranges next len (BitVec.twoPow 64 j)) ↔
      Representable ranges next len (2 ^ j) := by
  by_cases hwhole : next = 0 ∧ ⟨0, -1⟩ ∈ ranges
  · obtain ⟨rfl, hmem⟩ := hwhole
    obtain ⟨rfl, hnone⟩ := iovaReserveAlign_whole hordered hmem hlen hj
    rw [hnone]
    refine ⟨fun h => ?_, fun h => absurd ⟨rfl, hmem⟩ h.1⟩
    have hin : 0 ∈ (⟨0, -1⟩ : IovaRange).blocks 0 len.toNat (2 ^ j) :=
      ⟨Nat.dvd_zero _, le_rfl, by rw [Nat.zero_add]; exact len.isLt.le⟩
    exact absurd (h _ List.mem_cons_self ▸ hin) (Set.notMem_empty 0)
  · have hfinds := iovaReserveAlign_finds hordered hlen hj hwhole
    generalize iovaReserveAlign ranges next len (BitVec.twoPow 64 j) = res at hfinds
    obtain _ | ⟨iova, next'⟩ := res
    · refine ⟨fun h => ⟨hwhole, fun a ha => ?_⟩, fun _ => hfinds⟩
      obtain ⟨r, hr, hin⟩ := ha.exists_mem
      exact absurd (hfinds r hr ▸ hin) (Set.notMem_empty a)
    · obtain ⟨hfirst, rfl⟩ := hfinds
      obtain ⟨hcursor, hend⟩ := hfirst.end_le
      constructor
      · rintro ⟨-, hnext, -⟩
        refine ⟨hwhole, fun a ha => ?_⟩
        rw [ha.unique hfirst, ← hnext]
        exact (iova + len).isLt
      · rintro ⟨-, hsmall⟩
        have hnext := BitVec.toNat_add_of_lt (hsmall _ hfirst)
        exact ⟨hfirst, hnext, by omega⟩

/-- The reservation is exact in unbounded numbers as far as words reach: the two cases that
are left out are the range of all addresses with the cursor at its start, and a block that
ends with the last address. -/
theorem linear_reservation_exact_iff (hordered : Ordered ranges) (hlen : len ≠ 0) (hj : j < 64) :
    (Exact ranges next len (2 ^ j) (iovaReserveAlign ranges next len (BitVec.twoPow 64 j)) ↔
        Representable ranges next len (2 ^ j)) ∧
      (Exact ranges next len 1 (iovaReserve ranges next len) ↔
        Representable ranges next len 1) := by
  refine ⟨reserveAlign_exact_iff hordered hlen hj, ?_⟩
  rw [iovaReserve_eq_align]
  exact reserveAlign_exact_iff hordered hlen (j := 0) (by decide)

/-- An aligned block of a range that ends long before the last address. -/
theorem linear_reservation_exact_iff_small :
    iovaReserveAlign [⟨0x1000, 0xffff⟩] 0 0x1000 (BitVec.twoPow 64 13) = some (0x2000, 0x3000) ∧
      Exact [⟨0x1000, 0xffff⟩] 0 0x1000 (2 ^ 13)
        (iovaReserveAlign [⟨0x1000, 0xffff⟩] 0 0x1000 (BitVec.twoPow 64 13)) := by
  have hordered : Ordered [⟨0x1000, 0xffff⟩] := ⟨by decide, List.pairwise_singleton _ _⟩
  refine ⟨by decide, (linear_reservation_exact_iff hordered (j := 13) (by decide)
    (by decide)).1.mpr ⟨by decide, fun a ha => ?_⟩⟩
  obtain ⟨r, hr, -, -, hend⟩ := ha.exists_mem
  obtain rfl := List.mem_singleton.mp hr
  exact hend.trans_lt (by decide)

/-- The range of all addresses has a block, but none is found; and the cursor is back at zero
behind a block that ends with the last address. -/
theorem linear_reservation_limits :
    (Ordered [⟨0, -1⟩] ∧ iovaReserve [⟨0, -1⟩] 0 0x1000 = none ∧
        ¬Exact [⟨0, -1⟩] 0 0x1000 1 (iovaReserve [⟨0, -1⟩] 0 0x1000)) ∧
      Ordered [⟨0xfffffffffffff000, -1⟩] ∧
        iovaReserve [⟨0xfffffffffffff000, -1⟩] 0x2000 0x1000 = some (0xfffffffffffff000, 0) ∧
        ¬Exact [⟨0xfffffffffffff000, -1⟩] 0x2000 0x1000 1
          (iovaReserve [⟨0xfffffffffffff000, -1⟩] 0x2000 0x1000) := by
  refine ⟨⟨⟨by decide, List.pairwise_singleton _ _⟩, by decide, fun h => ?_⟩,
    ⟨by decide, List.pairwise_singleton _ _⟩, by decide, fun h => ?_⟩
  · have hin : 0 ∈ (⟨0, -1⟩ : IovaRange).blocks 0 0x1000 1 :=
      ⟨Nat.dvd_zero 1, by decide, by decide⟩
    exact absurd (h _ List.mem_cons_self ▸ hin) (Set.notMem_empty 0)
  · exact absurd h.2.2 (by decide)

/-! ## The alignment of a block -/

theorem iovaReserveAlign_dvd {k : ℕ} (hk : k < 64) (halign : align ≠ 0)
    (hdvd : 2 ^ k ∣ align.toNat)
    (h : iovaReserveAlign ranges next len align = some (iova, next')) : 2 ^ k ∣ iova.toNat := by
  obtain ⟨-, -, moved, -, -, hplace, -⟩ := iovaReserveFrom_eq_some h
  split_ifs at hplace
  rw [← Option.some.inj hplace]
  exact dvd_alignUp moved hk halign hdvd

theorem exists_lowest_bit {n : ℕ} (hpos : n ≠ 0) (hnot : ¬∃ j, n = 2 ^ j) :
    ∃ t q, q ≠ 0 ∧ n = 2 ^ (t + 1) * q + 2 ^ t := by
  obtain ⟨t, m, ⟨q, rfl⟩, rfl⟩ := Nat.exists_eq_two_pow_mul_odd hpos
  refine ⟨t, q, fun hq => hnot ⟨t, by rw [hq, Nat.mul_zero, Nat.zero_add, Nat.mul_one]⟩, ?_⟩
  rw [Nat.pow_succ]
  ring

/-- A page that starts at the lowest bit of an alignment is taken for aligned. -/
theorem iovaReserveAlign_lowest_bit {k t q : ℕ} (hkt : k ≤ t) (ht : t + 1 < 64)
    (halign : align.toNat = 2 ^ (t + 1) * q + 2 ^ t) :
    iovaReserveAlign [⟨BitVec.twoPow 64 t, BitVec.twoPow 64 t + (BitVec.twoPow 64 k - 1)⟩] 0
        (BitVec.twoPow 64 k) align =
      some (BitVec.twoPow 64 t, BitVec.twoPow 64 t + BitVec.twoPow 64 k) := by
  have hpow : 2 ^ k ≤ 2 ^ t := Nat.pow_le_pow_right (by decide) hkt
  have hword : 2 * 2 ^ t < 2 ^ 64 := Nat.pow_succ' ▸ two_pow_lt ht
  have hk := toNat_twoPow_sub_one (by omega : k < 64)
  have htNat := toNat_twoPow (by omega : t < 64)
  have hlast : (BitVec.twoPow 64 t + (BitVec.twoPow 64 k - 1)).toNat = 2 ^ t + (2 ^ k - 1) := by
    rw [BitVec.toNat_add_of_lt (by rw [htNat, hk]; omega), htNat, hk]
  have hmoved : (if BitVec.twoPow 64 t < 0 then 0 else BitVec.twoPow 64 t) = BitVec.twoPow 64 t :=
    if_neg BitVec.not_lt_zero
  have hsize : BitVec.twoPow 64 t + (BitVec.twoPow 64 k - 1) - BitVec.twoPow 64 t + 1 =
      BitVec.twoPow 64 k := by ring
  rw [iovaReserveAlign_singleton]
  dsimp only
  rw [hmoved, alignUp_lowest_bit (by omega) halign, hsize]
  refine if_neg ?_
  rw [not_or, not_or, not_or, BitVec.not_lt, BitVec.not_lt, BitVec.not_lt, BitVec.not_lt]
  refine ⟨BitVec.le_def.mpr (Nat.zero_le _), BitVec.le_refl _, BitVec.le_def.mpr ?_,
    BitVec.le_refl _⟩
  rw [htNat, hlast]
  omega

theorem reserveAlign_lowest_bit {k t q : ℕ} (hk : k < 64) (hq : q ≠ 0) (hne : align ≠ 0)
    (halign : align.toNat = 2 ^ (t + 1) * q + 2 ^ t)
    (haligned : aligned align (BitVec.twoPow 64 k) = true) :
    ∃ vfio vfio', vfioIommuType1IovaReserveAlign (BitVec.twoPow 64 k) vfio
      (BitVec.twoPow 64 k) align = .ok (BitVec.twoPow 64 t, vfio') := by
  have hlt := align.isLt
  have hpos : 2 ^ (t + 1) ≤ 2 ^ (t + 1) * q := Nat.le_mul_of_pos_right _ (Nat.pos_of_ne_zero hq)
  have ht : t + 1 < 64 :=
    (Nat.pow_lt_pow_iff_right (by decide)).mp (by omega : 2 ^ (t + 1) < 2 ^ 64)
  have hkt : k ≤ t := by
    by_contra hgt
    have hdvd : 2 ^ (t + 1) ∣ align.toNat :=
      (pow_dvd_pow 2 (by omega)).trans ((aligned_twoPow_iff align hk).mp haligned)
    rw [halign, Nat.dvd_add_right (Nat.dvd_mul_right _ _), Nat.pow_dvd_pow_iff_le_right'] at hdvd
    omega
  have hlen : aligned (BitVec.twoPow 64 k) (BitVec.twoPow 64 k) = true :=
    (aligned_twoPow_iff _ hk).mpr (toNat_twoPow hk).symm.dvd
  let vfio := vfioInitContainer
    [⟨BitVec.twoPow 64 t, BitVec.twoPow 64 t + (BitVec.twoPow 64 k - 1)⟩] (fun _ => true) ⟨0, 0⟩
  refine ⟨vfio, { vfio with next := BitVec.twoPow 64 t + BitVec.twoPow 64 k }, ?_⟩
  rw [vfioIommuType1IovaReserveAlign_eq_supply, hlen, haligned, if_neg (by simp),
    if_neg (by simpa using hne)]
  change VfioContainer.supply _ none (iovaReserveAlign [_] 0 _ _) = _
  rw [iovaReserveAlign_lowest_bit hkt ht halign]
  rfl

/-- The alignments that are honoured are the powers of two. -/
theorem vfioIommuType1IovaReserveAlign_honours_iff {k : ℕ} (hk : k < 64) (hne : align ≠ 0)
    (haligned : aligned align (BitVec.twoPow 64 k) = true) :
    (∀ vfio len iova vfio',
        vfioIommuType1IovaReserveAlign (BitVec.twoPow 64 k) vfio len align = .ok (iova, vfio') →
          align.toNat ∣ iova.toNat) ↔
      ∃ j, align.toNat = 2 ^ j := by
  constructor
  · intro h
    by_contra hnot
    obtain ⟨t, q, hq, halign⟩ := exists_lowest_bit (BitVec.toNat_pos_of_ne_zero hne).ne' hnot
    obtain ⟨vfio, vfio', hres⟩ := reserveAlign_lowest_bit hk hq hne halign haligned
    have hdvd := h _ _ _ _ hres
    have hpos : 0 < 2 ^ (t + 1) * q := Nat.mul_pos (Nat.two_pow_pos _) (Nat.pos_of_ne_zero hq)
    have ht : t < 64 := by
      have hlt := align.isLt
      exact (Nat.pow_lt_pow_iff_right (by decide)).mp (by omega : 2 ^ t < 2 ^ 64)
    rw [toNat_twoPow ht] at hdvd
    have hle := Nat.le_of_dvd (Nat.two_pow_pos t) hdvd
    omega
  · rintro ⟨j, halign⟩ vfio len iova vfio' h
    have hj : j < 64 := (Nat.pow_lt_pow_iff_right (by decide)).mp (halign ▸ align.isLt)
    rw [vfioIommuType1IovaReserveAlign_eq_supply] at h
    split_ifs at h
    rw [halign]
    rcases supply_eq_ok h with ⟨fl, hget, -⟩ | ⟨next, hcut, -⟩
    · exact iovaGetFreeAlign_dvd hj hne halign.symm.dvd hget
    · exact iovaReserveAlign_dvd hj hne halign.symm.dvd hcut

/-- A block with an alignment of two pages. -/
theorem vfioIommuType1IovaReserveAlign_honours_two_pages :
    ∃ vfio', vfioIommuType1IovaReserveAlign (BitVec.twoPow 64 12)
        (vfioInitContainer [⟨0x1000, 0xffff⟩] (fun _ => true) ⟨0, 0⟩) 0x1000 0x2000 =
          .ok (0x2000, vfio') ∧ (0x2000 : U64).toNat ∣ (0x2000 : U64).toNat := by
  refine ⟨_, rfl, ?_⟩
  exact (vfioIommuType1IovaReserveAlign_honours_iff (k := 12) (by decide) (by decide)
    (by decide)).mpr ⟨13, rfl⟩ (vfioInitContainer [⟨0x1000, 0xffff⟩] (fun _ => true) ⟨0, 0⟩)
      0x1000 0x2000 _ rfl

/-- An alignment of three pages is accepted, but the block starts with the second page,
whether it comes from the cursor or from the list. -/
theorem vfioIommuType1IovaReserveAlign_three_pages :
    let vfio := vfioInitContainer [⟨0x1000, 0xffff⟩] (fun _ => true) ⟨0, 0⟩
    let vfio₁ := { vfio with next := 0x3000, freeIovas := iovaPutFree vfio.freeIovas 0x1000 0x1000 }
    (∃ vfio', vfioIommuType1IovaReserveAlign (BitVec.twoPow 64 12) vfio 0x1000 0x3000 =
        .ok (0x1000, vfio') ∧ vfio'.next = 0x2000) ∧
      (∃ vfio', vfioIommuType1IovaReserveAlign (BitVec.twoPow 64 12) vfio₁ 0x1000 0x3000 =
        .ok (0x1000, vfio') ∧ vfio'.next = 0x3000) ∧
      ¬(0x3000 : U64).toNat ∣ (0x1000 : U64).toNat :=
  ⟨⟨_, rfl, rfl⟩, ⟨_, rfl, rfl⟩, by decide⟩

end Iommu

end Libvfn
