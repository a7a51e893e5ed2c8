import Mathlib.Data.BitVec

/-!
# Numbers in memory

A buffer is a list of bytes. `le n v` is the number `v` in `n` bytes, the low one first, and
`readLe n buf off` reads it back, from a place that has to be inside the buffer. `At buf off bs`
says that the bytes `bs` stand in the buffer from `off` on; what stands in it piece by piece is
read piece by piece (`At.left`, `At.right`, `At.readLe`).
-/

namespace Bytes

abbrev Buffer := List (BitVec 8)

def le : ℕ → ℕ → Buffer
  | 0, _ => []
  | n + 1, v => BitVec.ofNat 8 v :: le n (v / 256)

def value : Buffer → ℕ
  | [] => 0
  | b :: bs => b.toNat + 256 * value bs

def readLe (n : ℕ) (buf : Buffer) (off : ℕ) : Option ℕ :=
  if off + n ≤ buf.length then some (value ((buf.drop off).take n)) else none

/-- The bytes stand in the buffer from `off` on. -/
def At (buf : Buffer) (off : ℕ) (bs : Buffer) : Prop :=
  ∃ before after, buf = before ++ (bs ++ after) ∧ before.length = off

variable {n v off : ℕ} {buf bs x y : Buffer}

@[simp]
theorem length_le (n v : ℕ) : (le n v).length = n := by
  induction n generalizing v with
  | zero => rfl
  | succ n ih => rw [le, List.length_cons, ih]

theorem value_le (hv : v < 256 ^ n) : value (le n v) = v := by
  induction n generalizing v with
  | zero => exact (Nat.lt_one_iff.mp hv).symm
  | succ n ih =>
      have hdiv : v / 256 < 256 ^ n := Nat.div_lt_of_lt_mul (by rwa [← Nat.pow_succ'])
      rw [le, value, ih hdiv, BitVec.toNat_ofNat]
      exact Nat.mod_add_div v 256

theorem At.left (h : At buf off (x ++ y)) : At buf off x := by
  obtain ⟨before, after, rfl, hlen⟩ := h
  exact ⟨before, y ++ after, by rw [List.append_assoc x], hlen⟩

theorem At.right (h : At buf off (x ++ y)) : At buf (off + x.length) y := by
  obtain ⟨before, after, rfl, rfl⟩ := h
  exact ⟨before ++ x, after, by simp only [List.append_assoc], List.length_append⟩

theorem At.exists_readLe (h : At buf off bs) (hn : n ≤ bs.length) :
    ∃ v, Bytes.readLe n buf off = some v := by
  obtain ⟨before, after, rfl, rfl⟩ := h
  refine ⟨_, if_pos ?_⟩
  simp only [List.length_append]
  omega

theorem At.readLe (h : At buf off (le n v)) (hv : v < 256 ^ n) : readLe n buf off = some v := by
  obtain ⟨before, after, rfl, rfl⟩ := h
  have hinside : before.length + n ≤ (before ++ (le n v ++ after)).length := by
    simp only [List.length_append, length_le]
    omega
  have htake : (le n v ++ after).take n = le n v := List.take_left' (length_le n v)
  rw [Bytes.readLe, if_pos hinside, List.drop_left, htake, value_le hv]

end Bytes
