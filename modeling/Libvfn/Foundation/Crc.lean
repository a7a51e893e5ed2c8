import Mathlib.Data.BitVec
import Mathlib.Data.List.GetD

/-!
# Cyclic redundancy checks, bit by bit

The register of a reflected check takes one bit at a time: it moves down by one place, and
the polynomial is added if the bit that drops out differs from the bit that comes in.
`register poly r bits` is the register after a list of bits.

A step is linear in the register and the bit together. Two facts about whole runs rest on
this. A run over at most as many bits as the register is wide is a run over zeros from a
register that the bits were added to (`register_eq_zeros`), so that a byte can be taken in one
step if the runs over eight zeros are known. And if the polynomial has its highest bit, then a
step can be undone, so that two runs that differ within the width of the register only end in
different registers (`register_ne_of_burst`).
-/

namespace Crc

variable {w : ℕ} (poly : BitVec w)

def bitStep (r : BitVec w) (b : Bool) : BitVec w :=
  if r.getLsbD 0 ^^ b then r >>> 1 ^^^ poly else r >>> 1

def register (r : BitVec w) (bits : List Bool) : BitVec w := bits.foldl (bitStep poly) r

@[simp] theorem register_cons (r : BitVec w) (b : Bool) (bits : List Bool) :
    register poly r (b :: bits) = register poly (bitStep poly r b) bits := rfl

theorem register_append (r : BitVec w) (xs ys : List Bool) :
    register poly r (xs ++ ys) = register poly (register poly r xs) ys :=
  List.foldl_append

def zeros (n : ℕ) (r : BitVec w) : BitVec w := register poly r (List.replicate n false)

theorem zeros_succ (n : ℕ) (r : BitVec w) :
    zeros poly (n + 1) r = zeros poly n (bitStep poly r false) := rfl

/-! ## Linearity -/

theorem bitStep_xor (r s : BitVec w) (a b : Bool) :
    bitStep poly (r ^^^ s) (a ^^ b) = bitStep poly r a ^^^ bitStep poly s b := by
  have hbit : ((r ^^^ s).getLsbD 0 ^^ (a ^^ b)) =
      ((r.getLsbD 0 ^^ a) ^^ (s.getLsbD 0 ^^ b)) := by
    rw [BitVec.getLsbD_xor]
    cases r.getLsbD 0 <;> cases s.getLsbD 0 <;> cases a <;> cases b <;> rfl
  rw [bitStep, bitStep, bitStep, hbit, BitVec.ushiftRight_xor_distrib]
  generalize r >>> 1 = r'
  generalize s >>> 1 = s'
  cases r.getLsbD 0 ^^ a with
  | false =>
      cases s.getLsbD 0 ^^ b with
      | false => rfl
      | true => exact BitVec.xor_assoc r' s' poly
  | true =>
      cases s.getLsbD 0 ^^ b with
      | false =>
          change r' ^^^ s' ^^^ poly = r' ^^^ poly ^^^ s'
          rw [BitVec.xor_assoc, BitVec.xor_comm s', BitVec.xor_assoc]
      | true =>
          change r' ^^^ s' = r' ^^^ poly ^^^ (s' ^^^ poly)
          rw [BitVec.xor_comm s' poly, BitVec.xor_assoc, ← BitVec.xor_assoc poly poly,
            BitVec.xor_self, BitVec.zero_xor]

theorem zeros_xor (n : ℕ) (r s : BitVec w) :
    zeros poly n (r ^^^ s) = zeros poly n r ^^^ zeros poly n s := by
  induction n generalizing r s with
  | zero => rfl
  | succ n ih =>
      have hstep := bitStep_xor poly r s false false
      rw [Bool.false_xor] at hstep
      rw [zeros_succ, zeros_succ, zeros_succ, hstep, ih]

theorem zeros_eq_shift {n : ℕ} {r : BitVec w} (hlow : ∀ i < n, r.getLsbD i = false) :
    zeros poly n r = r >>> n := by
  induction n generalizing r with
  | zero => exact (BitVec.ushiftRight_zero r).symm
  | succ n ih =>
      have hstep : bitStep poly r false = r >>> 1 := by
        rw [bitStep, hlow 0 (Nat.succ_pos n)]
        rfl
      have hlow' : ∀ i < n, (r >>> 1).getLsbD i = false := by
        intro i hi
        rw [BitVec.getLsbD_ushiftRight]
        exact hlow (1 + i) (by omega)
      rw [zeros_succ, hstep, ih hlow', ← BitVec.shiftRight_add, Nat.add_comm 1 n]

/-! ## Bits as a word -/

def word (w : ℕ) (bits : List Bool) : BitVec w := (BitVec.ofBoolListLE bits).setWidth w

theorem getLsbD_word {bits : List Bool} (hlen : bits.length ≤ w) (i : ℕ) :
    (word w bits).getLsbD i = bits.getD i false := by
  rw [word, BitVec.getLsbD_setWidth, BitVec.getLsbD_ofBoolListLE]
  by_cases hi : i < w
  · rw [decide_eq_true hi, Bool.true_and]
  · rw [decide_eq_false hi, Bool.false_and, List.getD_eq_default _ _ (by omega)]

theorem word_injective {xs ys : List Bool} (hxs : xs.length ≤ w)
    (hlen : xs.length = ys.length) (h : word w xs = word w ys) : xs = ys := by
  refine List.ext_getElem hlen fun i hi hi' => ?_
  have hbit : (word w xs).getLsbD i = (word w ys).getLsbD i := by rw [h]
  rwa [getLsbD_word hxs, getLsbD_word (hlen ▸ hxs), List.getD_eq_getElem _ _ hi,
    List.getD_eq_getElem _ _ hi'] at hbit

theorem word_cons_shift {b : Bool} {bits : List Bool} (hlen : (b :: bits).length ≤ w) :
    word w (b :: bits) >>> 1 = word w bits := by
  refine BitVec.eq_of_getLsbD_eq fun i _ => ?_
  rw [List.length_cons] at hlen
  rw [BitVec.getLsbD_ushiftRight, getLsbD_word (by simpa using hlen),
    getLsbD_word (by omega), Nat.add_comm 1 i, List.getD_cons_succ]

/-- The bits of a run can be added to the register beforehand. -/
theorem register_eq_zeros {bits : List Bool} (hlen : bits.length ≤ w) (r : BitVec w) :
    register poly r bits = zeros poly bits.length (r ^^^ word w bits) := by
  induction bits generalizing r with
  | nil =>
      have hnil : word w [] = 0 := BitVec.eq_of_getLsbD_eq fun i _ => by
        rw [getLsbD_word (Nat.zero_le w)]
        simp
      rw [hnil]
      exact (BitVec.xor_zero).symm
  | cons b bits ih =>
      have hlow : (word w (b :: bits)).getLsbD 0 = b := by
        rw [getLsbD_word hlen]
        rfl
      have hword : bitStep poly (word w (b :: bits)) b = word w bits := by
        rw [bitStep, hlow, Bool.xor_self]
        exact word_cons_shift hlen
      have hstep := bitStep_xor poly r (word w (b :: bits)) b b
      rw [Bool.xor_self, hword] at hstep
      have hlen' : bits.length ≤ w := Nat.le_of_succ_le hlen
      rw [register_cons, ih hlen', List.length_cons, zeros_succ, hstep]

/-! ## Injectivity -/

variable {poly}

theorem bitStep_eq_zero (hpoly : poly.msb = true) {d : BitVec w}
    (h : bitStep poly d false = 0) : d = 0 := by
  rw [bitStep, Bool.xor_false] at h
  cases hlow : d.getLsbD 0 with
  | true =>
      -- the polynomial would be a word that was moved down
      rw [hlow] at h
      have hmsb : (d >>> 1).msb = poly.msb := congrArg BitVec.msb (BitVec.xor_eq_zero_iff.mp h)
      rw [BitVec.msb_ushiftRight, hpoly] at hmsb
      cases hmsb
  | false =>
      rw [hlow] at h
      change d >>> 1 = 0 at h
      refine BitVec.eq_of_getLsbD_eq fun i _ => ?_
      refine Eq.trans ?_ BitVec.getLsbD_zero.symm
      cases i with
      | zero => exact hlow
      | succ i =>
          have hbit : (d >>> 1).getLsbD i = false := by
            rw [h]
            exact BitVec.getLsbD_zero
          rwa [BitVec.getLsbD_ushiftRight, Nat.add_comm 1 i] at hbit

theorem bitStep_injective (hpoly : poly.msb = true) (b : Bool) :
    Function.Injective fun r => bitStep poly r b := by
  intro r s h
  have hxor := bitStep_xor poly r s b b
  rw [Bool.xor_self] at hxor
  have hzero : bitStep poly (r ^^^ s) false = 0 := by
    rw [hxor]
    exact BitVec.xor_eq_zero_iff.mpr h
  exact BitVec.xor_eq_zero_iff.mp (bitStep_eq_zero hpoly hzero)

theorem register_injective (hpoly : poly.msb = true) (bits : List Bool) :
    Function.Injective fun r => register poly r bits := by
  induction bits with
  | nil => exact fun r s h => h
  | cons b bits ih => exact fun r s h => bitStep_injective hpoly b (ih h)

theorem register_ne_of_short (hpoly : poly.msb = true) {xs ys : List Bool} (hxs : xs.length ≤ w)
    (hlen : xs.length = ys.length) (hne : xs ≠ ys) (r : BitVec w) :
    register poly r xs ≠ register poly r ys := by
  intro h
  rw [register_eq_zeros poly hxs, register_eq_zeros poly (hlen ▸ hxs), ← hlen] at h
  have hword := register_injective hpoly _ h
  exact hne (word_injective hxs hlen ((BitVec.xor_right_inj r).mp hword))

/-- Runs that differ within the width of the register only end in different registers. -/
theorem register_ne_of_burst (hpoly : poly.msb = true) {xs ys : List Bool}
    (hlen : xs.length = ys.length) (hne : xs ≠ ys) {k : ℕ}
    (hburst : ∀ i, xs[i]? ≠ ys[i]? → k ≤ i ∧ i < k + w) (r : BitVec w) :
    register poly r xs ≠ register poly r ys := by
  -- the bits before the burst, the burst, and the bits behind it
  have hsplit : ∀ zs : List Bool, zs = zs.take k ++ ((zs.drop k).take w ++ zs.drop (k + w)) := by
    intro zs
    rw [← List.drop_drop, List.take_append_drop, List.take_append_drop]
  have hbefore : xs.take k = ys.take k := by
    refine List.ext_getElem? fun i => ?_
    rw [List.getElem?_take, List.getElem?_take]
    split_ifs with hi
    · by_contra hdiff
      exact absurd (hburst i hdiff).1 (by omega)
    · rfl
  have hbehind : xs.drop (k + w) = ys.drop (k + w) := by
    refine List.ext_getElem? fun i => ?_
    rw [List.getElem?_drop, List.getElem?_drop]
    by_contra hdiff
    exact absurd (hburst _ hdiff).2 (by omega)
  have hmiddle : (xs.drop k).take w ≠ (ys.drop k).take w := by
    intro hsame
    apply hne
    rw [hsplit xs, hsplit ys, hbefore, hsame, hbehind]
  have hshort := register_ne_of_short hpoly (List.length_take_le w (xs.drop k))
    (by simp [hlen]) hmiddle (register poly r (ys.take k))
  rw [hsplit xs, hsplit ys, hbefore, hbehind]
  simp only [register_append]
  exact fun h => hshort (register_injective hpoly _ h)

end Crc
