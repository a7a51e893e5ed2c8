import Libvfn.Foundation.Word

/-!
# Alignment and error numbers

The alignment macros work on words with wrapping arithmetic and ask for an
alignment that is a power of two. The lemmas say what they compute then; for
other alignments the definitions are all there is.
-/

namespace Libvfn

namespace Support

open Word

inductive Errno where
  | EINVAL
  | EFAULT
  | ENOMEM
  | EEXIST
  | ENOENT
  | EOPNOTSUPP
  | EBUSY
  | ETIMEDOUT
  | EAGAIN
  | EIO
  | ENODEV
  | EINTR
  | EMSGSIZE
  deriving DecidableEq, Repr

def alignUp (x a : U64) : U64 := (x + a - 1) &&& ~~~(a - 1)

def alignDown (x a : U64) : U64 := x &&& ~~~(a - 1)

def aligned (x a : U64) : Bool := x &&& (a - 1) = 0

theorem aligned_twoPow_iff (x : U64) {k : ℕ} (hk : k < 64) :
    aligned x (BitVec.twoPow 64 k) = true ↔ 2 ^ k ∣ x.toNat := by
  rw [aligned, decide_eq_true_iff]
  exact and_mask_eq_zero_iff x hk

theorem alignDown_twoPow (x : U64) {k : ℕ} (hk : k < 64) :
    alignDown x (BitVec.twoPow 64 k) = x - BitVec.ofNat 64 (x.toNat % 2 ^ k) :=
  and_not_mask x hk

theorem toNat_alignUp_twoPow (x : U64) {k : ℕ} (hk : k < 64) :
    (alignUp x (BitVec.twoPow 64 k)).toNat =
      (x.toNat + 2 ^ k - 1) / 2 ^ k * 2 ^ k % 2 ^ 64 := by
  have hpos : 0 < 2 ^ k := by positivity
  have hsum : (x + BitVec.twoPow 64 k - 1).toNat = (x.toNat + 2 ^ k - 1) % 2 ^ 64 := by
    have hsub : x + BitVec.twoPow 64 k - 1 = x + (BitVec.twoPow 64 k - 1) := by ring
    rw [hsub, BitVec.toNat_add, toNat_twoPow_sub_one hk, Nat.add_sub_assoc hpos]
  have hword : 2 ^ 64 = 2 ^ k * 2 ^ (64 - k) := by
    rw [← Nat.pow_add]
    congr 1
    omega
  rw [alignUp, toNat_and_not_mask _ hk, hsum, hword, Nat.mod_mul_right_div_self,
    ← Nat.mul_mod_mul_right, Nat.mul_comm (2 ^ (64 - k))]

/-- Whatever `ALIGN_UP` computes for another alignment, it is a multiple of a power of two
that divides the alignment. -/
theorem dvd_alignUp (x : U64) {a : U64} {k : ℕ} (hk : k < 64) (ha : a ≠ 0)
    (hdvd : 2 ^ k ∣ a.toNat) : 2 ^ k ∣ (alignUp x a).toNat := by
  have hpos := BitVec.toNat_pos_of_ne_zero ha
  have hword : 2 ^ k ∣ 2 ^ 64 := pow_dvd_pow 2 hk.le
  have hone : (1 : U64).toNat = 1 := rfl
  have hle : (1 : U64) ≤ a := BitVec.le_def.mpr hpos
  have hmask : (~~~(a - 1)).toNat = 2 ^ 64 - a.toNat := by
    rw [BitVec.toNat_not, BitVec.toNat_sub_of_le hle, hone]
    omega
  rw [alignUp, BitVec.toNat_and, hmask, Nat.dvd_iff_mod_eq_zero, Nat.and_mod_two_pow,
    Nat.mod_eq_zero_of_dvd (Nat.dvd_sub hword hdvd), Nat.and_zero]

theorem twoPow_dvd_alignUp (x : U64) {k : ℕ} (hk : k < 64) :
    2 ^ k ∣ (alignUp x (BitVec.twoPow 64 k)).toNat := by
  have hword := toNat_twoPow hk
  have hne : BitVec.twoPow 64 k ≠ 0 := by
    intro hzero
    rw [hzero] at hword
    exact absurd hword.symm (Nat.two_pow_pos k).ne'
  exact dvd_alignUp x hk hne hword.symm.dvd

/-- If there is a multiple at or above the address, then `ALIGN_UP` does not wrap around, and
it is the lowest one. -/
theorem alignUp_twoPow_le (x : U64) {k y : ℕ} (hk : k < 64) (hdvd : 2 ^ k ∣ y)
    (hle : x.toNat ≤ y) (hy : y < 2 ^ 64) :
    x.toNat ≤ (alignUp x (BitVec.twoPow 64 k)).toNat ∧
      (alignUp x (BitVec.twoPow 64 k)).toNat ≤ y := by
  have hpos : 0 < 2 ^ k := Nat.two_pow_pos k
  obtain ⟨q, rfl⟩ := hdvd
  have hup : x.toNat ≤ (x.toNat + 2 ^ k - 1) / 2 ^ k * 2 ^ k := by
    have hlt := Nat.lt_div_mul_add hpos (a := x.toNat + 2 ^ k - 1)
    omega
  have hdown : (x.toNat + 2 ^ k - 1) / 2 ^ k * 2 ^ k ≤ 2 ^ k * q := by
    rw [Nat.mul_comm (2 ^ k)]
    refine Nat.mul_le_mul_right _ (Nat.lt_succ_iff.mp ?_)
    rw [Nat.div_lt_iff_lt_mul hpos, Nat.succ_mul, Nat.mul_comm q]
    omega
  rw [toNat_alignUp_twoPow x hk, Nat.mod_eq_of_lt (hdown.trans_lt hy)]
  exact ⟨hup, hdown⟩

theorem alignUp_one (x : U64) : alignUp x 1 = x := by
  rw [alignUp, add_sub_cancel_right]
  exact BitVec.and_allOnes

/-- `ALIGN_UP` takes the lowest bit of an alignment for aligned, whether the alignment is a
power of two or not. -/
theorem alignUp_lowest_bit {a : U64} {t q : ℕ} (ht : t < 64)
    (ha : a.toNat = 2 ^ (t + 1) * q + 2 ^ t) :
    alignUp (BitVec.twoPow 64 t) a = BitVec.twoPow 64 t := by
  have hpos := Nat.two_pow_pos t
  have hdouble : 2 ^ (t + 1) = 2 * 2 ^ t := Nat.pow_succ'
  have hlt := a.isLt
  have hone : (1 : U64).toNat = 1 := rfl
  have hpred : (a - 1).toNat = 2 ^ (t + 1) * q + (2 ^ t - 1) := by
    rw [BitVec.toNat_sub_of_le (BitVec.le_def.mpr (by rw [hone]; omega)), hone]
    omega
  have hsum : (BitVec.twoPow 64 t + a - 1).toNat = 2 ^ (t + 1) * q + (2 ^ (t + 1) - 1) := by
    -- both summands are multiples of the lowest bit, so there is room for one more
    have hroom : 2 ^ t + (a - 1).toNat < 2 ^ 64 := by
      have hword : 2 ^ 64 = 2 ^ (t + 1) * 2 ^ (63 - t) := by
        rw [← Nat.pow_add]
        congr 1
        omega
      have hq : 2 ^ (t + 1) * q < 2 ^ (t + 1) * 2 ^ (63 - t) := by omega
      have hq' : 2 ^ (t + 1) * (q + 1) ≤ 2 ^ (t + 1) * 2 ^ (63 - t) :=
        Nat.mul_le_mul_left _ (Nat.lt_of_mul_lt_mul_left hq)
      rw [Nat.mul_succ] at hq'
      omega
    have hassoc : BitVec.twoPow 64 t + a - 1 = BitVec.twoPow 64 t + (a - 1) := by ring
    rw [hassoc, BitVec.toNat_add_of_lt (by rwa [toNat_twoPow ht]), toNat_twoPow ht, hpred]
    omega
  refine BitVec.eq_of_getLsbD_eq fun i hi => ?_
  rw [alignUp, BitVec.getLsbD_and, BitVec.getLsbD_not, BitVec.getLsbD_twoPow, BitVec.getLsbD,
    BitVec.getLsbD, hsum, hpred, Nat.testBit_two_pow_mul_add _ (by omega),
    Nat.testBit_two_pow_mul_add _ (by omega), Nat.testBit_two_pow_sub_one,
    Nat.testBit_two_pow_sub_one]
  split_ifs with hlow
  · simp only [hlow, hi, ht, decide_true, Bool.true_and]
    rw [← decide_not]
    congr 1
    simp only [eq_iff_iff]
    omega
  · have hne : t ≠ i := by omega
    rw [decide_eq_false hne, Bool.and_false, decide_eq_true hi, Bool.true_and, Bool.and_not_self]

end Support

end Libvfn
