import Mathlib.Data.BitVec

/-!
# Fields of a word

A field is some bits of a word, given by the place of its first bit and by its width. The
value of a field is read by a shift and a mask (`get`), and a word with a value in one field
is made by a mask and a shift (`set`). A word is put together from the values of several
fields with `or` (`word`): each of them is read back from it, as long as no two fields share a
bit (`get_word`).
-/

/-- Bits `shift` to `shift + width - 1`. -/
structure BitField where
  shift : ℕ
  width : ℕ
  deriving DecidableEq

namespace BitField

variable {w : ℕ}

def mask (f : BitField) (w : ℕ) : BitVec w := BitVec.ofNat w (2 ^ f.width - 1)

def get (f : BitField) (v : BitVec w) : BitVec w := v >>> f.shift &&& f.mask w

def set (f : BitField) (x : BitVec w) : BitVec w := (x &&& f.mask w) <<< f.shift

def Apart (f g : BitField) : Prop :=
  f.shift + f.width ≤ g.shift ∨ g.shift + g.width ≤ f.shift

instance (f g : BitField) : Decidable (f.Apart g) :=
  inferInstanceAs (Decidable (_ ∨ _))

def word : List (BitField × BitVec w) → BitVec w
  | [] => 0#w
  | (f, x) :: l => f.set x ||| word l

theorem Apart.symm {f g : BitField} (h : f.Apart g) : g.Apart f := Or.symm h

theorem getLsbD_mask (f : BitField) {i : ℕ} (hi : i < w) :
    (f.mask w).getLsbD i = decide (i < f.width) := by
  simp only [mask, BitVec.getLsbD_ofNat, hi, decide_true, Bool.true_and,
    Nat.testBit_two_pow_sub_one]

theorem getLsbD_get (f : BitField) (v : BitVec w) {i : ℕ} (hi : i < w) :
    (f.get v).getLsbD i = (v.getLsbD (f.shift + i) && decide (i < f.width)) := by
  rw [get, BitVec.getLsbD_and, BitVec.getLsbD_ushiftRight, getLsbD_mask f hi]

theorem getLsbD_set (f : BitField) (x : BitVec w) (i : ℕ) :
    (f.set x).getLsbD i =
      (decide (i < w) && decide (f.shift ≤ i) && decide (i - f.shift < f.width) &&
        x.getLsbD (i - f.shift)) := by
  rw [set, BitVec.getLsbD_shiftLeft, BitVec.getLsbD_and]
  by_cases hi : i < w
  · rw [getLsbD_mask f (by omega)]
    by_cases hs : i < f.shift
    · simp [hi, hs, Nat.not_le_of_lt hs]
    · simp [hi, hs, Nat.le_of_not_lt hs, Bool.and_comm]
  · simp [hi]

theorem get_or (f : BitField) (u v : BitVec w) : f.get (u ||| v) = f.get u ||| f.get v := by
  refine BitVec.eq_of_getLsbD_eq fun i hi => ?_
  rw [BitVec.getLsbD_or, getLsbD_get f _ hi, getLsbD_get f _ hi, getLsbD_get f _ hi,
    BitVec.getLsbD_or, Bool.and_or_distrib_right]

theorem get_set_of_apart {f g : BitField} (h : f.Apart g) (x : BitVec w) :
    f.get (g.set x) = 0#w := by
  refine BitVec.eq_of_getLsbD_eq fun i hi => ?_
  rw [getLsbD_get f _ hi, getLsbD_set, BitVec.getLsbD_zero]
  by_cases hf : i < f.width
  · have hout : ¬(g.shift ≤ f.shift + i ∧ f.shift + i - g.shift < g.width) := by
      rcases h with h | h <;> omega
    by_cases hg : g.shift ≤ f.shift + i
    · simp [not_lt.mp fun hlt => hout ⟨hg, hlt⟩]
    · simp [hg]
  · simp [hf]

theorem get_set {f : BitField} (hf : f.shift + f.width ≤ w) (x : BitVec w) :
    f.get (f.set x) = x &&& f.mask w := by
  refine BitVec.eq_of_getLsbD_eq fun i hi => ?_
  rw [getLsbD_get f _ hi, getLsbD_set, BitVec.getLsbD_and, getLsbD_mask f hi]
  by_cases hlt : i < f.width
  · simp [hlt, show f.shift + i < w by omega]
  · simp [hlt]

theorem toNat_and_mask (f : BitField) (hf : f.width ≤ w) (x : BitVec w) :
    (x &&& f.mask w).toNat = x.toNat % 2 ^ f.width := by
  have hle : 2 ^ f.width ≤ 2 ^ w := Nat.pow_le_pow_right Nat.zero_lt_two hf
  have hpos : 0 < 2 ^ f.width := Nat.two_pow_pos _
  rw [BitVec.toNat_and, mask, BitVec.toNat_ofNat, Nat.mod_eq_of_lt (by omega),
    Nat.and_two_pow_sub_one_eq_mod]

theorem toNat_get_lt (f : BitField) (hf : f.width ≤ w) (v : BitVec w) :
    (f.get v).toNat < 2 ^ f.width := by
  rw [get, toNat_and_mask f hf]
  exact Nat.mod_lt _ (Nat.two_pow_pos _)

theorem get_zero (f : BitField) : f.get 0#w = 0#w := by
  rw [get, BitVec.zero_ushiftRight, BitVec.zero_and]

theorem get_word_of_apart {f : BitField} {l : List (BitField × BitVec w)}
    (h : ∀ e ∈ l, f.Apart e.1) : f.get (word l) = 0#w := by
  induction l with
  | nil => exact get_zero f
  | cons e l ih =>
      rw [word, get_or, get_set_of_apart (h e List.mem_cons_self),
        ih fun e he => h e (List.mem_cons_of_mem _ he), BitVec.or_zero]

theorem get_word {f : BitField} {x : BitVec w} {l : List (BitField × BitVec w)}
    (hl : (l.map Prod.fst).Pairwise Apart) (hmem : (f, x) ∈ l) (hf : f.shift + f.width ≤ w)
    (hx : x.toNat < 2 ^ f.width) : f.get (word l) = x := by
  induction l with
  | nil => exact absurd hmem List.not_mem_nil
  | cons e l ih =>
      obtain ⟨happart, hl⟩ := List.pairwise_cons.mp hl
      rw [word, get_or]
      rcases List.mem_cons.mp hmem with rfl | hmem
      · rw [get_word_of_apart fun e he => happart _ (List.mem_map_of_mem he), BitVec.or_zero,
          get_set hf]
        exact BitVec.eq_of_toNat_eq (by rw [toNat_and_mask f (by omega), Nat.mod_eq_of_lt hx])
      · rw [get_set_of_apart (happart _ (List.mem_map_of_mem hmem)).symm, ih hl hmem,
          BitVec.zero_or]

theorem set_of_lt {f : BitField} (hf : f.width ≤ w) {x : BitVec w} (hx : x.toNat < 2 ^ f.width) :
    f.set x = x <<< f.shift := by
  rw [set, show x &&& f.mask w = x from
    BitVec.eq_of_toNat_eq (by rw [toNat_and_mask f hf, Nat.mod_eq_of_lt hx])]

end BitField
