import Mathlib.Data.Set.Lattice
import Mathlib.Order.CompletePartialOrder
import Mathlib.Order.Interval.Set.Basic
import Libvfn.Foundation.Linked

/-!
# Sequences of intervals

The elements of a sequence have intervals of natural numbers, from `lo a` up to
`hi a`. The sequence is `Apart` when no interval is empty and each ends before the
next one begins; `Covers` says that a number lies in one of the intervals.

Changing one element of a sequence that is apart is a matter of what stands before
and behind it: `apart_append_cons` takes the sequence to pieces there and puts it
together again, and `covers_append_cons` does the same to what is covered. The ends
of the intervals may live in memory, so both only depend on their values at the
elements (`apart_congr`, `covers_congr`).

A sequence whose intervals do not even touch is `Separate`. What it covers determines
where its intervals are (`Separate.eq_of_covers_iff`). If it covers whole pages of `p`
numbers only (`Paged`), the intervals begin and end at multiples of `p`.
-/

namespace Spans

open Linked

variable {α : Type*} {lo hi lo' hi' : α → ℕ} {l r : List α} {a : α} {x : ℕ}

structure Apart (lo hi : α → ℕ) (l : List α) : Prop where
  nonempty : ∀ a ∈ l, lo a < hi a
  sorted : l.Pairwise fun a b => hi a ≤ lo b

def Covers (lo hi : α → ℕ) (l : List α) (x : ℕ) : Prop :=
  ∃ a ∈ l, lo a ≤ x ∧ x < hi a

theorem apart_nil (lo hi : α → ℕ) : Apart lo hi [] := ⟨by simp, .nil⟩

theorem not_covers_nil (lo hi : α → ℕ) (x : ℕ) : ¬Covers lo hi [] x := by
  simp [Covers]

theorem apart_append_cons :
    Apart lo hi (l ++ a :: r) ↔
      Apart lo hi l ∧ Apart lo hi r ∧ lo a < hi a ∧ (∀ b ∈ l, hi b ≤ lo a) ∧
        ∀ b ∈ r, hi a ≤ lo b := by
  constructor
  · rintro ⟨hne, hsorted⟩
    rw [List.pairwise_append, List.pairwise_cons] at hsorted
    obtain ⟨hl, ⟨har, hr⟩, hlr⟩ := hsorted
    exact ⟨⟨fun b hb => hne b (by simp [hb]), hl⟩, ⟨fun b hb => hne b (by simp [hb]), hr⟩,
      hne a (by simp), fun b hb => hlr b hb a (by simp), har⟩
  · rintro ⟨hl, hr, ha, hla, har⟩
    refine ⟨?_, ?_⟩
    · intro b hb
      rcases List.mem_append.mp hb with hb | hb
      · exact hl.nonempty b hb
      · rcases List.mem_cons.mp hb with rfl | hb
        · exact ha
        · exact hr.nonempty b hb
    · rw [List.pairwise_append, List.pairwise_cons]
      refine ⟨hl.sorted, ⟨har, hr.sorted⟩, ?_⟩
      intro b hb c hc
      rcases List.mem_cons.mp hc with rfl | hc
      · exact hla b hb
      · have hba := hla b hb
        have hac := har c hc
        omega

theorem covers_append_cons :
    Covers lo hi (l ++ a :: r) x ↔
      Covers lo hi l x ∨ (lo a ≤ x ∧ x < hi a) ∨ Covers lo hi r x := by
  simp only [Covers, List.mem_append, List.mem_cons, or_and_right, exists_or,
    exists_eq_left]

theorem apart_cons :
    Apart lo hi (a :: r) ↔ Apart lo hi r ∧ lo a < hi a ∧ ∀ b ∈ r, hi a ≤ lo b := by
  rw [← List.nil_append (a :: r), apart_append_cons]
  simp [apart_nil]

theorem covers_cons :
    Covers lo hi (a :: r) x ↔ (lo a ≤ x ∧ x < hi a) ∨ Covers lo hi r x := by
  simp only [Covers, List.mem_cons, or_and_right, exists_or, exists_eq_left]

theorem covers_append :
    Covers lo hi (l ++ r) x ↔ Covers lo hi l x ∨ Covers lo hi r x := by
  simp only [Covers, List.mem_append, or_and_right, exists_or]

theorem Apart.sublist (h : Apart lo hi l) (hs : r.Sublist l) : Apart lo hi r :=
  ⟨fun b hb => h.nonempty b (hs.subset hb), h.sorted.sublist hs⟩

theorem apart_congr (h : ∀ b ∈ l, lo' b = lo b ∧ hi' b = hi b) :
    Apart lo' hi' l ↔ Apart lo hi l := by
  constructor
  · rintro ⟨hne, hsorted⟩
    refine ⟨fun b hb => ?_, List.Pairwise.imp_of_mem ?_ hsorted⟩
    · rw [← (h b hb).1, ← (h b hb).2]
      exact hne b hb
    · intro b c hb hc hbc
      rw [← (h b hb).2, ← (h c hc).1]
      exact hbc
  · rintro ⟨hne, hsorted⟩
    refine ⟨fun b hb => ?_, List.Pairwise.imp_of_mem ?_ hsorted⟩
    · rw [(h b hb).1, (h b hb).2]
      exact hne b hb
    · intro b c hb hc hbc
      rw [(h b hb).2, (h c hc).1]
      exact hbc

theorem covers_congr (h : ∀ b ∈ l, lo' b = lo b ∧ hi' b = hi b) :
    Covers lo' hi' l x ↔ Covers lo hi l x := by
  constructor
  · rintro ⟨b, hb, hx⟩
    rw [(h b hb).1, (h b hb).2] at hx
    exact ⟨b, hb, hx⟩
  · rintro ⟨b, hb, hx⟩
    rw [← (h b hb).1, ← (h b hb).2] at hx
    exact ⟨b, hb, hx⟩

theorem Apart.sorted_lo (h : Apart lo hi l) : l.Pairwise fun a b => lo a < lo b := by
  refine List.Pairwise.imp_of_mem ?_ h.sorted
  intro a b ha _ hab
  have := h.nonempty a ha
  omega

theorem Apart.add_length_le (h : Apart lo hi l) {m n : ℕ} (hmn : m ≤ n)
    (hm : ∀ a ∈ l, m ≤ lo a) (hn : ∀ a ∈ l, hi a ≤ n) : m + l.length ≤ n := by
  induction l generalizing m with
  | nil => exact hmn
  | cons a r ih =>
      obtain ⟨hr, hne, hsorted⟩ := apart_cons.mp h
      have hrest := ih hr (hn a List.mem_cons_self) hsorted
        (fun b hb => hn b (List.mem_cons_of_mem a hb))
      have hle := hm a List.mem_cons_self
      rw [List.length_cons]
      omega

theorem Apart.eq_of_mem {b : α} (h : Apart lo hi l) (ha : a ∈ l) (hb : b ∈ l)
    (hxa : lo a ≤ x ∧ x < hi a) (hxb : lo b ≤ x ∧ x < hi b) : a = b := by
  obtain ⟨l, r, rfl⟩ := List.append_of_mem ha
  obtain ⟨-, -, -, hl, hr⟩ := apart_append_cons.mp h
  rcases List.mem_append.mp hb with hb | hb
  · have hba := hl b hb
    omega
  · rcases List.mem_cons.mp hb with rfl | hb
    · rfl
    · have hab := hr b hb
      omega

theorem Apart.pairwise_disjoint (h : Apart lo hi l) :
    (l.map fun a => Set.Ico (lo a) (hi a)).Pairwise Disjoint := by
  rw [List.pairwise_map]
  refine h.sorted.imp fun hab => Set.disjoint_left.mpr fun x hxa hxb => ?_
  exact (hxa.2.trans_le hab).not_ge hxb.1

theorem Apart.lt_of_covers_left (h : Apart lo hi (l ++ a :: r)) (hx : Covers lo hi l x) :
    x < lo a := by
  obtain ⟨b, hb, -, hlt⟩ := hx
  have := (apart_append_cons.mp h).2.2.2.1 b hb
  omega

theorem Apart.le_of_covers_right (h : Apart lo hi (l ++ a :: r)) (hx : Covers lo hi r x) :
    hi a ≤ x := by
  obtain ⟨b, hb, hle, -⟩ := hx
  have := (apart_append_cons.mp h).2.2.2.2 b hb
  omega

/-- Cutting the front off an element uncovers the numbers in it. -/
theorem Apart.covers_cut (h : Apart lo hi (l ++ a :: r)) {t : ℕ} (hlo : lo a ≤ t)
    (hhi : t ≤ hi a) :
    Covers lo hi l x ∨ (t ≤ x ∧ x < hi a) ∨ Covers lo hi r x ↔
      Covers lo hi (l ++ a :: r) x ∧ ¬(lo a ≤ x ∧ x < t) := by
  rw [covers_append_cons]
  constructor
  · rintro (hx | hx | hx)
    · have := h.lt_of_covers_left hx
      exact ⟨.inl hx, by omega⟩
    · exact ⟨.inr (.inl ⟨by omega, hx.2⟩), by omega⟩
    · have := h.le_of_covers_right hx
      exact ⟨.inr (.inr hx), by omega⟩
  · rintro ⟨hx | hx | hx, hnot⟩
    · exact .inl hx
    · exact .inr (.inl ⟨by omega, hx.2⟩)
    · exact .inr (.inr hx)

/-- Taking an interval out and putting back what is left on either side of a block in
it takes the block out. -/
theorem cut_middle_iff {p : Prop} {s a b t : ℕ} (hin : s ≤ x ∧ x < t → p) (hsa : s ≤ a)
    (hab : a ≤ b) (hbt : b ≤ t) :
    ((p ∧ ¬(s ≤ x ∧ x < t)) ∨ (s ≤ x ∧ x < a)) ∨ (b ≤ x ∧ x < t) ↔
      p ∧ ¬(a ≤ x ∧ x < b) := by
  by_cases hx : s ≤ x ∧ x < t
  · have hp := hin hx
    simp only [hp, true_and]
    omega
  · have hblock : ¬(a ≤ x ∧ x < b) := by omega
    have hfront : ¬(s ≤ x ∧ x < a) := by omega
    have hback : ¬(b ≤ x ∧ x < t) := by omega
    simp only [hx, hblock, hfront, hback, not_false_eq_true, and_true, or_false]

section Gap

variable {s t : ℕ} (hgap : ∀ x, s ≤ x → x < t → ¬Covers lo hi l x) (ha : a ∈ l)

include hgap ha

theorem hi_le_of_lo_le (hst : s < t) (hle : lo a ≤ s) : hi a ≤ s := by
  by_contra hlt
  exact hgap s (Nat.le_refl s) hst ⟨a, ha, hle, by omega⟩

theorem Apart.le_lo_of_le (h : Apart lo hi l) (hle : s ≤ lo a) : t ≤ lo a := by
  by_contra hlt
  exact hgap (lo a) hle (by omega) ⟨a, ha, Nat.le_refl _, h.nonempty a ha⟩

end Gap

/-- An interval that falls into a gap goes in behind those that begin before it. -/
theorem Apart.insert (h : Apart lo hi l) (go : α → Bool) (n : α) (hn : lo n < hi n)
    (hgap : ∀ x, lo n ≤ x → x < hi n → ¬Covers lo hi l x)
    (hgo : ∀ a ∈ l, go a = true ↔ lo a < lo n) :
    Apart lo hi (l.takeWhile go ++ n :: l.dropWhile go) ∧
      ∀ x, Covers lo hi (l.takeWhile go ++ n :: l.dropWhile go) x ↔
        Covers lo hi l x ∨ (lo n ≤ x ∧ x < hi n) := by
  have hinit : Initial go l := by
    refine List.Pairwise.imp_of_mem ?_ h.sorted_lo
    intro a b ha hb hab hgob
    rw [hgo a ha]
    rw [hgo b hb] at hgob
    omega
  have hsplit := List.takeWhile_append_dropWhile (p := go) (l := l)
  refine ⟨apart_append_cons.mpr ⟨h.sublist (List.takeWhile_sublist go),
    h.sublist (List.dropWhile_sublist go), hn, ?_, ?_⟩, ?_⟩
  · intro a ha
    rw [hinit.takeWhile_eq_filter, List.mem_filter] at ha
    exact hi_le_of_lo_le hgap ha.1 hn ((hgo a ha.1).mp ha.2).le
  · intro a ha
    rw [hinit.dropWhile_eq_filter, List.mem_filter, Bool.not_eq_true', ← Bool.not_eq_true] at ha
    obtain ⟨ha, hnot⟩ := ha
    rw [hgo a ha, Nat.not_lt] at hnot
    exact h.le_lo_of_le hgap ha hnot
  · intro x
    rw [covers_append_cons]
    conv_rhs => rw [← hsplit, covers_append]
    rw [or_assoc, or_comm (a := lo n ≤ x ∧ x < hi n)]

/-! ## Intervals that do not touch -/

def Separate (lo hi : α → ℕ) (l : List α) : Prop := l.Pairwise fun a b => hi a < lo b

theorem separate_append_cons (ha : lo a ≤ hi a) :
    Separate lo hi (l ++ a :: r) ↔
      Separate lo hi l ∧ Separate lo hi r ∧ (∀ b ∈ l, hi b < lo a) ∧ ∀ b ∈ r, hi a < lo b := by
  rw [Separate, List.pairwise_append, List.pairwise_cons]
  constructor
  · rintro ⟨hl, ⟨har, hr⟩, hlr⟩
    exact ⟨hl, hr, fun b hb => hlr b hb a List.mem_cons_self, har⟩
  · rintro ⟨hl, hr, hla, har⟩
    refine ⟨hl, ⟨har, hr⟩, fun b hb c hc => ?_⟩
    rcases List.mem_cons.mp hc with rfl | hc
    · exact hla b hb
    · have hba := hla b hb
      have hac := har c hc
      omega

theorem Apart.separate_of_ne (h : Apart lo hi (l ++ a :: r)) (hl : Separate lo hi l)
    (hr : Separate lo hi r) (hprev : ∀ b ∈ l, hi b ≠ lo a) (hnext : ∀ b ∈ r, lo b ≠ hi a) :
    Separate lo hi (l ++ a :: r) := by
  obtain ⟨-, -, hne, hla, har⟩ := apart_append_cons.mp h
  refine (separate_append_cons hne.le).mpr ⟨hl, hr, fun b hb => ?_, fun b hb => ?_⟩
  · exact lt_of_le_of_ne (hla b hb) (hprev b hb)
  · exact lt_of_le_of_ne (har b hb) (hnext b hb).symm

theorem Separate.sublist (h : Separate lo hi l) (hs : r.Sublist l) : Separate lo hi r :=
  List.Pairwise.sublist hs h

theorem separate_congr (h : ∀ b ∈ l, lo' b = lo b ∧ hi' b = hi b) :
    Separate lo' hi' l ↔ Separate lo hi l := by
  constructor
  · intro hs
    refine List.Pairwise.imp_of_mem ?_ hs
    intro b c hb hc hbc
    rw [← (h b hb).2, ← (h c hc).1]
    exact hbc
  · intro hs
    refine List.Pairwise.imp_of_mem ?_ hs
    intro b c hb hc hbc
    rw [(h b hb).2, (h c hc).1]
    exact hbc

/-- The first interval of a sequence begins where the sequence does, and it ends where
nothing is covered. -/
theorem Separate.end_le {β : Type*} {lo' hi' : β → ℕ} {b : β} {r' : List β}
    (h : Separate lo hi (a :: r)) (ha : Apart lo hi (a :: r))
    (hcov : ∀ x, Covers lo' hi' (b :: r') x → Covers lo hi (a :: r) x)
    (hlo : lo a = lo' b) : hi' b ≤ hi a := by
  by_contra hlt
  have hne := ha.nonempty a List.mem_cons_self
  obtain ⟨c, hc, hle, hltc⟩ := hcov (hi a) ⟨b, List.mem_cons_self, by omega, by omega⟩
  rcases List.mem_cons.mp hc with rfl | hc
  · omega
  · have := (List.pairwise_cons.mp h).1 c hc
    omega

theorem Apart.lo_le_of_covers (h : Apart lo hi (a :: r)) (hx : Covers lo hi (a :: r) x) :
    lo a ≤ x := by
  rcases covers_cons.mp hx with hx | ⟨b, hb, hle, -⟩
  · exact hx.1
  · obtain ⟨-, hne, hr⟩ := apart_cons.mp h
    have := hr b hb
    omega

theorem Apart.covers_tail_iff (h : Apart lo hi (a :: r)) :
    Covers lo hi r x ↔ Covers lo hi (a :: r) x ∧ hi a ≤ x := by
  obtain ⟨-, -, hr⟩ := apart_cons.mp h
  rw [covers_cons]
  constructor
  · rintro ⟨b, hb, hle, hlt⟩
    exact ⟨.inr ⟨b, hb, hle, hlt⟩, (hr b hb).trans hle⟩
  · rintro ⟨hx | hx, hge⟩
    · omega
    · exact hx

/-- Sequences whose intervals do not touch have the same intervals if they cover the same
numbers. -/
theorem Separate.eq_of_covers_iff {β : Type*} {lo' hi' : β → ℕ} {l' : List β}
    (h : Separate lo hi l) (ha : Apart lo hi l) (h' : Separate lo' hi' l')
    (ha' : Apart lo' hi' l') (hcov : ∀ x, Covers lo hi l x ↔ Covers lo' hi' l' x) :
    l.map (fun a => (lo a, hi a)) = l'.map fun b => (lo' b, hi' b) := by
  induction l generalizing l' with
  | nil =>
      cases l' with
      | nil => rfl
      | cons b r' =>
          have hne := ha'.nonempty b List.mem_cons_self
          have hx : Covers lo' hi' (b :: r') (lo' b) := ⟨b, List.mem_cons_self, le_rfl, hne⟩
          exact absurd ((hcov _).mpr hx) (not_covers_nil _ _ _)
  | cons a r ih =>
      have hne := ha.nonempty a List.mem_cons_self
      have hx : Covers lo hi (a :: r) (lo a) := ⟨a, List.mem_cons_self, le_rfl, hne⟩
      cases l' with
      | nil => exact absurd ((hcov _).mp hx) (not_covers_nil _ _ _)
      | cons b r' =>
          have hne' := ha'.nonempty b List.mem_cons_self
          have hy : Covers lo' hi' (b :: r') (lo' b) := ⟨b, List.mem_cons_self, le_rfl, hne'⟩
          have hlo : lo a = lo' b := le_antisymm (ha.lo_le_of_covers ((hcov _).mpr hy))
            (ha'.lo_le_of_covers ((hcov _).mp hx))
          have hhi : hi a = hi' b := le_antisymm
            (h'.end_le ha' (fun x => (hcov x).mp) hlo.symm)
            (h.end_le ha (fun x => (hcov x).mpr) hlo)
          have hrest := ih (List.pairwise_cons.mp h).2 (apart_cons.mp ha).1
            (List.pairwise_cons.mp h').2 (apart_cons.mp ha').1
            (fun x => by rw [ha.covers_tail_iff, ha'.covers_tail_iff, hcov, hhi])
          rw [List.map_cons, List.map_cons, hrest, hlo, hhi]

/-- An interval of numbers that are all covered lies in one of the intervals. -/
theorem Separate.exists_of_covers (h : Separate lo hi l) (ha : Apart lo hi l) {s t : ℕ}
    (hst : s < t) (hcov : ∀ x, s ≤ x → x < t → Covers lo hi l x) :
    ∃ a ∈ l, lo a ≤ s ∧ t ≤ hi a := by
  obtain ⟨a, hmem, hle, hlt⟩ := hcov s le_rfl hst
  refine ⟨a, hmem, hle, ?_⟩
  -- otherwise the number behind the interval would be covered, by one that touches it
  by_contra hend
  obtain ⟨b, hb, hleb, hltb⟩ := hcov (hi a) (by omega) (by omega)
  obtain ⟨l, r, rfl⟩ := List.append_of_mem hmem
  obtain ⟨-, -, hl, hr⟩ := (separate_append_cons (ha.nonempty a hmem).le).mp h
  rcases List.mem_append.mp hb with hb | hb
  · have hba := hl b hb
    omega
  · rcases List.mem_cons.mp hb with rfl | hb
    · omega
    · have hab := hr b hb
      omega

/-! ## Whole pages -/

/-- The set consists of whole pages of `p` numbers. -/
def Paged (p : ℕ) (s : Set ℕ) : Prop := ∀ x y, x / p = y / p → x ∈ s → y ∈ s

variable {p : ℕ} {s t : Set ℕ}

theorem Paged.union (hs : Paged p s) (ht : Paged p t) : Paged p (s ∪ t) :=
  fun x y hxy hx => hx.imp (hs x y hxy) (ht x y hxy)

theorem Paged.diff (hs : Paged p s) (ht : Paged p t) : Paged p (s \ t) :=
  fun x y hxy hx => ⟨hs x y hxy hx.1, fun hy => hx.2 (ht y x hxy.symm hy)⟩

theorem paged_Ico {m n : ℕ} (hp : 0 < p) (hm : p ∣ m) (hn : p ∣ n) : Paged p (Set.Ico m n) := by
  obtain ⟨i, rfl⟩ := hm
  obtain ⟨j, rfl⟩ := hn
  rintro x y hxy ⟨hle, hlt⟩
  rw [Nat.mul_comm, ← Nat.le_div_iff_mul_le hp, hxy] at hle
  rw [Nat.mul_comm, ← Nat.div_lt_iff_lt_mul hp, hxy] at hlt
  rw [Nat.le_div_iff_mul_le hp, Nat.mul_comm] at hle
  rw [Nat.div_lt_iff_lt_mul hp, Nat.mul_comm] at hlt
  exact ⟨hle, hlt⟩

theorem Separate.exists_page (h : Separate lo hi l) (ha : Apart lo hi l) (hp : 0 < p)
    (hpaged : Paged p {x | Covers lo hi l x}) (hx : Covers lo hi l x) :
    ∃ a ∈ l, lo a ≤ x / p * p ∧ x / p * p + p ≤ hi a := by
  refine h.exists_of_covers ha (Nat.lt_add_of_pos_right hp) fun y hle hlt => ?_
  refine hpaged x y ?_ hx
  rw [eq_comm, Nat.div_eq_iff hp]
  constructor
  · exact hle
  · omega

/-- Intervals that cover whole pages begin and end with one. -/
theorem Separate.dvd_ends (h : Separate lo hi l) (ha : Apart lo hi l) (hp : 0 < p)
    (hpaged : Paged p {x | Covers lo hi l x}) (hmem : a ∈ l) : p ∣ lo a ∧ p ∣ hi a := by
  have hne := ha.nonempty a hmem
  constructor
  · obtain ⟨b, hb, hle, hend⟩ := h.exists_page ha hp hpaged ⟨a, hmem, le_rfl, hne⟩
    have hdiv := Nat.div_mul_le_self (lo a) p
    have hmod := Nat.lt_div_mul_add hp (a := lo a)
    obtain rfl := ha.eq_of_mem hmem hb ⟨le_rfl, hne⟩ ⟨by omega, by omega⟩
    exact ⟨lo a / p, by rw [Nat.mul_comm]; omega⟩
  · obtain ⟨b, hb, hle, hend⟩ := h.exists_page ha hp hpaged
      (x := hi a - 1) ⟨a, hmem, by omega, by omega⟩
    have hdiv := Nat.div_mul_le_self (hi a - 1) p
    have hmod := Nat.lt_div_mul_add hp (a := hi a - 1)
    obtain rfl := ha.eq_of_mem hmem hb (x := hi a - 1) ⟨by omega, by omega⟩ ⟨by omega, by omega⟩
    exact ⟨(hi a - 1) / p + 1, by rw [Nat.mul_comm, Nat.add_mul]; omega⟩

end Spans
