import Mathlib.Data.BitVec
import Mathlib.Data.List.Basic
import Mathlib.Data.Nat.ModEq

/-!
# Rings that are written lap after lap

Entries go into the `q` slots of a ring one after the other and over and over
again: the entry at position `p` of the log goes into slot `p % q`, in lap `p / q`.
`Written mem log q` says that the slots hold the last `q` entries of the log. An
entry is read back as long as fewer than `q` came after it. The slot of the next entry
may be kept in a machine word that holds the indices of all slots but not the number of
them (`next_index`). The slots between two others, on the way forward, can be told from
differences of such words, which wrap around at another place (`sub_le_sub_iff_between`).
-/

namespace Ring

variable {α : Type*} {mem : ℕ → α} {log : List α} {p n q a b i : ℕ}

def Written (mem : ℕ → α) (log : List α) (q : ℕ) : Prop :=
  ∀ (p : ℕ) (hp : p < log.length), log.length ≤ p + q → mem (p % q) = log[p]

theorem mod_ne_mod (hp : p < n) (hn : n < p + q) : p % q ≠ n % q := by
  intro h
  have hdvd : q ∣ n - p := (Nat.modEq_iff_dvd' hp.le).mp h
  have hle := Nat.le_of_dvd (by omega) hdvd
  omega

theorem Written.push (h : Written mem log q) (a : α) :
    Written (Function.update mem (log.length % q) a) (log ++ [a]) q := by
  intro p hp hlap
  rw [List.length_append, List.length_singleton] at hp hlap
  rcases Nat.lt_succ_iff_lt_or_eq.mp hp with hlt | rfl
  · rw [Function.update_of_ne (mod_ne_mod hlt (by omega)), List.getElem_append_left hlt]
    exact h p hlt (by omega)
  · rw [Function.update_self, List.getElem_concat_length rfl]

/-- The next position is in the next slot of the same lap, or in the first slot of the
next lap. -/
theorem succ_mod_div (hq : 0 < q) (n : ℕ) :
    (n % q + 1 = q ∧ (n + 1) % q = 0 ∧ (n + 1) / q = n / q + 1) ∨
      (n % q + 1 < q ∧ (n + 1) % q = n % q + 1 ∧ (n + 1) / q = n / q) := by
  have hlt := Nat.mod_lt n hq
  have hsplit := Nat.div_add_mod n q
  rcases Nat.lt_or_ge (n % q + 1) q with hnext | hnext
  · have hsucc : n + 1 = n % q + 1 + q * (n / q) := by omega
    refine .inr ⟨hnext, ?_, ?_⟩
    · rw [hsucc, Nat.add_mul_mod_self_left, Nat.mod_eq_of_lt hnext]
    · rw [hsucc, Nat.add_mul_div_left _ _ hq, Nat.div_eq_of_lt hnext, Nat.zero_add]
  · have hsucc : n + 1 = q * (n / q + 1) := by
      rw [Nat.mul_add, Nat.mul_one]
      omega
    refine .inl ⟨by omega, ?_, ?_⟩
    · rw [hsucc, Nat.mul_mod_right]
    · rw [hsucc, Nat.mul_div_cancel_left _ hq]

/-- The index of the next slot, in a word that the number of slots need not fit. -/
theorem next_index {w : ℕ} {x : BitVec w} (hq : 0 < q) (hw : q ≤ 2 ^ w)
    (hx : x.toNat = n % q) :
    (if (x + 1).toNat = q then 0 else x + 1).toNat = (n + 1) % q := by
  have hnext : (x + 1).toNat = (n % q + 1) % 2 ^ w := by
    rw [BitVec.toNat_add, hx]
    exact Nat.add_mod_mod _ 1 _
  rw [apply_ite BitVec.toNat, hnext]
  rcases succ_mod_div hq n with ⟨hwrap, hmod, -⟩ | ⟨hstay, hmod, -⟩
  · rw [hmod, hwrap]
    split_ifs with hend
    · exact BitVec.toNat_zero
    · -- the index has wrapped around already
      have hfull : q = 2 ^ w := by
        by_contra hne
        exact hend (Nat.mod_eq_of_lt (by omega))
      rw [hfull, Nat.mod_self]
  · rw [hmod, Nat.mod_eq_of_lt (by omega), if_neg (by omega)]

theorem prefix_concat_getElem {read : List α} (h : read <+: log)
    (hmore : read.length < log.length) : read ++ [log[read.length]] <+: log := by
  have htake := List.prefix_iff_eq_take.mp h
  have hnext := List.take_append_getElem hmore
  rw [← htake] at hnext
  rw [hnext]
  exact List.take_prefix _ _

/-! ## Slots between two others -/

/-- The slots that are passed on the way from `a` to `b`, with `a` and without `b`. -/
def Between (q a b i : ℕ) : Prop := ∃ k < (b + q - a) % q, i = (a + k) % q

theorem between_iff (ha : a < q) (hb : b < q) (hi : i < q) :
    Between q a b i ↔ if a ≤ b then a ≤ i ∧ i < b else a ≤ i ∨ i < b := by
  have hlen : (b + q - a) % q = if a ≤ b then b - a else b + q - a := by
    split_ifs with hab
    · rw [Nat.sub_add_comm hab, Nat.add_mod_right, Nat.mod_eq_of_lt (by omega)]
    · exact Nat.mod_eq_of_lt (by omega)
  have hslot : ∀ k < q, (a + k) % q = if a + k < q then a + k else a + k - q := by
    intro k hk
    split_ifs with hlt
    · exact Nat.mod_eq_of_lt hlt
    · rw [Nat.mod_eq_sub_mod (not_lt.mp hlt), Nat.mod_eq_of_lt (by omega)]
  rw [Between, hlen]
  constructor
  · rintro ⟨k, hk, rfl⟩
    have hkq : k < q := by split_ifs at hk <;> omega
    rw [hslot k hkq]
    split_ifs at hk ⊢ <;> omega
  · intro hbetween
    -- the slot is as far from `a` as the index says, by way of the first slot if it is below
    have hk : ∃ k < q, k = if a ≤ i then i - a else i + q - a := ⟨_, by split_ifs <;> omega, rfl⟩
    obtain ⟨k, hkq, hk⟩ := hk
    refine ⟨k, ?_, ?_⟩
    · split_ifs at hbetween hk ⊢ <;> omega
    · rw [hslot k hkq]
      split_ifs at hk ⊢ <;> omega

theorem toNat_sub_eq_ite {w : ℕ} (x y : BitVec w) :
    (x - y).toNat = if y.toNat ≤ x.toNat then x.toNat - y.toNat else x.toNat + 2 ^ w - y.toNat := by
  have hx := x.isLt
  have hy := y.isLt
  rw [BitVec.toNat_sub]
  split_ifs with hle
  · rw [Nat.mod_eq_sub_mod (by omega), Nat.mod_eq_of_lt (by omega)]
    omega
  · rw [Nat.mod_eq_of_lt (by omega)]
    omega

theorem sub_le_sub_iff_between {w : ℕ} {i a b : BitVec w} (hi : i.toNat < q)
    (ha : a.toNat < q) (hb : b.toNat < q) (hab : a ≠ b) :
    b - i ≤ b - a ↔ Between q a.toNat b.toNat i.toNat ∨ i = b := by
  have hne : a.toNat ≠ b.toNat := fun heq => hab (BitVec.eq_of_toNat_eq heq)
  have heq : i = b ↔ i.toNat = b.toNat := BitVec.toNat_inj.symm
  rw [between_iff ha hb hi, heq, BitVec.le_def, toNat_sub_eq_ite, toNat_sub_eq_ite]
  split_ifs <;> omega

end Ring
