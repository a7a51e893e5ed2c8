import Mathlib.Data.BitVec
import Mathlib.Order.CompletePartialOrder
import Mathlib.Order.Interval.Set.Basic
import Mathlib.Tactic.Ring
import Mathlib.Tactic.Positivity

/-!
# Words and power-of-two masks

`U64` is the type of 64-bit words with wrapping arithmetic. For a power of two
`2 ^ k` the mask `2 ^ k - 1` takes the remainder and its complement rounds down
to a multiple; both are stated on the values, where they are the operations of
`ℕ`.

`byteRange a n` are the `n` addresses from `a` on, which may wrap around. Cutting a
block of addresses in two is `byteRange_add`. `addresses start len` are those of a
block as a set of numbers, without wrapping.

Adding the same word over and over again may go up or down, and leads to the upper half of
the word in any case (`exists_iterate_add_high`).
-/

namespace Word

abbrev U64 := BitVec 64

theorem two_pow_lt {k : ℕ} (hk : k < 64) : 2 ^ k < 2 ^ 64 :=
  Nat.pow_lt_pow_right (by omega) hk

@[simp] theorem toNat_twoPow {k : ℕ} (hk : k < 64) :
    (BitVec.twoPow 64 k).toNat = 2 ^ k := by
  rw [BitVec.toNat_twoPow, Nat.mod_eq_of_lt (two_pow_lt hk)]

theorem toNat_twoPow_sub_one {k : ℕ} (hk : k < 64) :
    (BitVec.twoPow 64 k - 1).toNat = 2 ^ k - 1 := by
  have hpos : 0 < 2 ^ k := by positivity
  rw [BitVec.toNat_sub_of_le, toNat_twoPow hk]
  · rfl
  · rw [BitVec.le_def, toNat_twoPow hk]
    exact hpos

theorem toNat_and_mask (x : U64) {k : ℕ} (hk : k < 64) :
    (x &&& (BitVec.twoPow 64 k - 1)).toNat = x.toNat % 2 ^ k := by
  rw [BitVec.toNat_and, toNat_twoPow_sub_one hk, Nat.and_two_pow_sub_one_eq_mod]

theorem and_mask_eq_zero_iff (x : U64) {k : ℕ} (hk : k < 64) :
    x &&& (BitVec.twoPow 64 k - 1) = 0 ↔ 2 ^ k ∣ x.toNat := by
  rw [Nat.dvd_iff_mod_eq_zero, ← toNat_and_mask x hk]
  constructor
  · intro h
    rw [h]
    rfl
  · intro h
    exact BitVec.eq_of_toNat_eq h

/-- What the complement of the mask leaves is the word without the remainder. -/
theorem and_not_mask (x : U64) {k : ℕ} (hk : k < 64) :
    x &&& ~~~(BitVec.twoPow 64 k - 1) = x - BitVec.ofNat 64 (x.toNat % 2 ^ k) := by
  have hsplit : (x &&& ~~~(BitVec.twoPow 64 k - 1)) +
      (x &&& (BitVec.twoPow 64 k - 1)) = x := by
    rw [BitVec.add_eq_or_of_and_eq_zero]
    · ext i hi
      simp only [BitVec.getElem_or, BitVec.getElem_and, BitVec.getElem_not]
      cases x[i] <;> cases (BitVec.twoPow 64 k - 1)[i] <;> rfl
    · ext i hi
      simp only [BitVec.getElem_and, BitVec.getElem_not, BitVec.getElem_zero]
      cases x[i] <;> cases (BitVec.twoPow 64 k - 1)[i] <;> rfl
  have hmask : x &&& (BitVec.twoPow 64 k - 1) = BitVec.ofNat 64 (x.toNat % 2 ^ k) := by
    have hlt : x.toNat % 2 ^ k < 2 ^ 64 :=
      lt_of_lt_of_le (Nat.mod_lt _ (by positivity)) (two_pow_lt hk).le
    apply BitVec.eq_of_toNat_eq
    rw [toNat_and_mask x hk, BitVec.toNat_ofNat, Nat.mod_eq_of_lt hlt]
  rw [← hmask]
  exact eq_sub_of_add_eq hsplit

theorem toNat_and_not_mask (x : U64) {k : ℕ} (hk : k < 64) :
    (x &&& ~~~(BitVec.twoPow 64 k - 1)).toNat = x.toNat / 2 ^ k * 2 ^ k := by
  have hmod := Nat.mod_le x.toNat (2 ^ k)
  have hx := x.isLt
  have hdiv := Nat.div_add_mod' x.toNat (2 ^ k)
  rw [and_not_mask x hk, BitVec.toNat_sub, BitVec.toNat_ofNat,
    Nat.mod_eq_of_lt (lt_of_le_of_lt hmod hx)]
  omega

def byteRange (a : U64) (n : ℕ) : List U64 :=
  (List.range n).map fun i => a + BitVec.ofNat 64 i

@[simp] theorem byteRange_zero (a : U64) : byteRange a 0 = [] := rfl

theorem byteRange_add (a : U64) (m n : ℕ) :
    byteRange a (m + n) = byteRange a m ++ byteRange (a + BitVec.ofNat 64 m) n := by
  unfold byteRange
  rw [List.range_add, List.map_append, List.map_map]
  congr 1
  apply List.map_congr_left
  intro i _
  rw [Function.comp_apply, BitVec.ofNat_add, add_assoc]

theorem mem_byteRange_iff {a x : U64} {n : ℕ} (hn : n ≤ 2 ^ 64) :
    x ∈ byteRange a n ↔ (x - a).toNat < n := by
  simp only [byteRange, List.mem_map, List.mem_range]
  constructor
  · rintro ⟨i, hi, rfl⟩
    rw [add_sub_cancel_left, BitVec.toNat_ofNat, Nat.mod_eq_of_lt (by omega)]
    exact hi
  · intro h
    refine ⟨(x - a).toNat, h, ?_⟩
    rw [BitVec.ofNat_toNat, BitVec.setWidth_eq, add_sub_cancel]

/-- Blocks of `n` bytes that are a multiple of `n` apart overlap only if they are the same. -/
theorem disjoint_byteRange_iff {a b : U64} {n : ℕ} (hpos : 0 < n) (hn : n ∣ 2 ^ 64)
    (hab : n ∣ (b - a).toNat) : (byteRange a n).Disjoint (byteRange b n) ↔ a ≠ b := by
  have hle : n ≤ 2 ^ 64 := Nat.le_of_dvd (by positivity) hn
  constructor
  · rintro hdisjoint rfl
    have hmem : a ∈ byteRange a n := by
      rw [mem_byteRange_iff hle, sub_self]
      exact hpos
    exact hdisjoint hmem hmem
  · intro hne x ha hb
    rw [mem_byteRange_iff hle] at ha hb
    have hsplit : x - a = x - b + (b - a) := by ring
    have hmod : (x - a).toNat % n = (x - b).toNat % n := by
      rw [hsplit, BitVec.toNat_add, Nat.mod_mod_of_dvd _ hn, Nat.add_mod,
        Nat.mod_eq_zero_of_dvd hab, add_zero, Nat.mod_mod]
    rw [Nat.mod_eq_of_lt ha, Nat.mod_eq_of_lt hb] at hmod
    exact hne (sub_right_injective (BitVec.eq_of_toNat_eq hmod))

/-- A block at an offset into another one lies inside if it ends there. -/
theorem byteRange_subset_iff {a off : U64} {m n : ℕ} (hm : 0 < m)
    (hoff : off.toNat + m ≤ 2 ^ 64) (hn : n ≤ 2 ^ 64) :
    byteRange (a + off) m ⊆ byteRange a n ↔ off.toNat + m ≤ n := by
  constructor
  · intro hsub
    have hlast : a + off + BitVec.ofNat 64 (m - 1) ∈ byteRange (a + off) m :=
      List.mem_map.mpr ⟨m - 1, List.mem_range.mpr (by omega), rfl⟩
    have hmem := hsub hlast
    rw [mem_byteRange_iff hn, add_assoc, add_sub_cancel_left, BitVec.toNat_add,
      BitVec.toNat_ofNat] at hmem
    omega
  · intro hle x hx
    rw [mem_byteRange_iff (by omega)] at hx
    have hsplit : x - a = x - (a + off) + off := by ring
    rw [mem_byteRange_iff hn, hsplit, BitVec.toNat_add]
    omega

def addresses (start len : U64) : Set ℕ := Set.Ico start.toNat (start.toNat + len.toNat)

theorem start_mem_addresses {start len : U64} (hlen : len ≠ 0) :
    start.toNat ∈ addresses start len :=
  ⟨le_rfl, Nat.lt_add_of_pos_right (BitVec.toNat_pos_of_ne_zero hlen)⟩

theorem disjoint_addresses_of_le {a m b n : U64} (h : a.toNat + m.toNat ≤ b.toNat) :
    Disjoint (addresses a m) (addresses b n) :=
  Set.disjoint_left.mpr fun _ ha hb => (ha.2.trans_le h).not_ge hb.1

theorem ofNat_shiftLeft (i k : ℕ) :
    BitVec.ofNat 64 i <<< k = BitVec.ofNat 64 (i * 2 ^ k) := by
  apply BitVec.eq_of_toNat_eq
  rw [BitVec.toNat_shiftLeft, BitVec.toNat_ofNat, BitVec.toNat_ofNat, Nat.shiftLeft_eq,
    Nat.mod_mul_mod]

/-- A multiple of `2 ^ k`, cut down to a signed 32-bit integer and shifted right
by `k`. -/
theorem toInt_setWidth_shiftRight {x : U64} {a k : ℕ} (hk : k < 32)
    (hx : x.toNat % 2 ^ 32 = a * 2 ^ k % 2 ^ 32) :
    (x.setWidth 32).toInt >>> k = (a : ℤ).bmod (2 ^ (32 - k)) := by
  obtain ⟨h, hh⟩ : ∃ h : ℕ, (2 : ℕ) ^ (32 - k) = 2 * h := by
    refine ⟨2 ^ (31 - k), ?_⟩
    rw [← Nat.pow_succ']
    congr 1
    omega
  have hpos : (0 : ℤ) < 2 ^ k := by positivity
  have hword : (2 : ℕ) ^ 32 = 2 * h * 2 ^ k := by
    rw [← hh, ← Nat.pow_add]
    congr 1
    omega
  have hmod : (x.toNat : ℤ) % (2 * h * 2 ^ k : ℕ) = (a : ℤ) % (2 * h : ℕ) * 2 ^ k := by
    rw [← Int.natCast_emod, ← hword, hx, hword, Nat.mul_mod_mul_right]
    push_cast
    ring
  have hhalf : ((2 * h * 2 ^ k : ℕ) + 1 : ℤ) / 2 = (h : ℤ) * 2 ^ k := by
    push_cast
    rw [Int.mul_assoc]
    omega
  have hhalf' : ((2 * h : ℕ) + 1 : ℤ) / 2 = h := by omega
  rw [Int.shiftRight_eq_div_pow, BitVec.toInt_setWidth, hh, hword, Int.bmod_def, Int.bmod_def,
    hmod, hhalf, hhalf']
  push_cast
  simp only [Int.mul_lt_mul_right hpos]
  split_ifs
  · rw [Int.mul_ediv_cancel _ hpos.ne']
  · rw [← Int.sub_mul, Int.mul_ediv_cancel _ hpos.ne']

/-! ## Adding the same word again -/

section Orbit

variable {w : ℕ} {step : BitVec w}

theorem exists_iterate_add_high_of_le (hpos : 0 < step.toNat) (hle : 2 * step.toNat ≤ 2 ^ w)
    (x : BitVec w) : ∃ n, 2 ^ w ≤ 2 * ((· + step)^[n] x).toNat := by
  induction hx : 2 ^ w - x.toNat using Nat.strong_induction_on generalizing x with
  | _ m ih =>
      by_cases hhigh : 2 ^ w ≤ 2 * x.toNat
      · exact ⟨0, hhigh⟩
      · have hadd : (x + step).toNat = x.toNat + step.toNat := by
          rw [BitVec.toNat_add, Nat.mod_eq_of_lt (by omega)]
        obtain ⟨n, hn⟩ := ih (2 ^ w - (x + step).toNat) (by omega) (x + step) rfl
        exact ⟨n + 1, hn⟩

theorem exists_iterate_add_high_of_lt (hlt : 2 ^ w < 2 * step.toNat) (x : BitVec w) :
    ∃ n, 2 ^ w ≤ 2 * ((· + step)^[n] x).toNat := by
  have hstep := step.isLt
  induction hx : x.toNat using Nat.strong_induction_on generalizing x with
  | _ m ih =>
      by_cases hwrap : 2 ^ w ≤ x.toNat + step.toNat
      · have hx' := x.isLt
        have hadd : (x + step).toNat = x.toNat + step.toNat - 2 ^ w := by
          rw [BitVec.toNat_add, Nat.mod_eq_sub_mod hwrap, Nat.mod_eq_of_lt (by omega)]
        obtain ⟨n, hn⟩ := ih (x + step).toNat (by omega) (x + step) rfl
        exact ⟨n + 1, hn⟩
      · have hadd : (x + step).toNat = x.toNat + step.toNat := by
          rw [BitVec.toNat_add, Nat.mod_eq_of_lt (not_le.mp hwrap)]
        exact ⟨1, by change 2 ^ w ≤ 2 * (x + step).toNat; omega⟩

theorem exists_iterate_add_high (hstep : step ≠ 0) (x : BitVec w) :
    ∃ n, 2 ^ w ≤ 2 * ((· + step)^[n] x).toNat := by
  rcases Nat.lt_or_ge (2 ^ w) (2 * step.toNat) with hlt | hle
  · exact exists_iterate_add_high_of_lt hlt x
  · exact exists_iterate_add_high_of_le (BitVec.toNat_pos_of_ne_zero hstep) hle x

end Orbit

end Word
