import Mathlib.Data.Int.Order.Basic
import Libvfn.Util.SkipList.Descent

/-!
# Searching the skip list

The condition under which a search advances holds on an initial segment of the
elements. Every level is part of the level below, so the condition holds on an
initial segment of every level and cuts the level behind it. The node at which the
descent leaves a level is the last one of the segment, `before go (levels k)`. On
level zero this is the position in the whole sequence, so what the searches return
is described by the sequence alone.
-/

namespace Libvfn

namespace Util

open Linked

/-- The last node of the initial segment on which `go` holds, the sentinel if
there is none: the predecessor a descent with condition `go` records. -/
def before {ι : Type*} (go : Node ι → Bool) (ys : List ι) : Node ι :=
  lastTrue go .sentinel (ys.map .entry)

/-- The signs of the comparator along the elements are positive, then zero for at
most one element, then negative. -/
def SignMonotone {ι : Type*} (cmp : Node ι → ℤ) (xs : List ι) : Prop :=
  xs.Pairwise fun a b => 0 ≤ cmp (.entry b) → 0 < cmp (.entry a)

instance {ι : Type*} (cmp : Node ι → ℤ) (xs : List ι) : Decidable (SignMonotone cmp xs) :=
  inferInstanceAs (Decidable (xs.Pairwise _))

theorem SignMonotone.initial_pos {ι : Type*} {cmp : Node ι → ℤ} {xs : List ι}
    (h : SignMonotone cmp xs) :
    Initial (fun i => decide (0 < cmp (.entry i))) xs := by
  refine List.Pairwise.imp ?_ h
  intro a b hab hb
  have hb' : 0 < cmp (.entry b) := by simpa using hb
  simpa using hab hb'.le

theorem SignMonotone.initial_nonneg {ι : Type*} {cmp : Node ι → ℤ} {xs : List ι}
    (h : SignMonotone cmp xs) :
    Initial (fun i => decide (0 ≤ cmp (.entry i))) xs := by
  refine List.Pairwise.imp ?_ h
  intro a b hab hb
  have hb' : 0 ≤ cmp (.entry b) := by simpa using hb
  simpa using (hab hb').le

theorem initial_map_entry {ι : Type*} {go : Node ι → Bool} {ys : List ι} :
    Initial go (ys.map Node.entry) ↔ Initial (fun i => go (.entry i)) ys :=
  List.pairwise_map

theorem before_eq_lastNode {ι : Type*} (go : Node ι → Bool) (ys : List ι) :
    before go ys = lastNode (ys.takeWhile fun i => go (.entry i)) := by
  rw [before, lastTrue, List.takeWhile_map]
  rfl

section Descent

variable {ι : Type*} {list : SkipList ι} {levels : ℕ → List ι}

/-- The condition cuts every level where it fails first. -/
theorem Represents.cuts_of_initial (r : Represents list levels) (go : Node ι → Bool)
    (hgo : Initial (fun i => go (.entry i)) (levels 0)) :
    Cuts go levels (fun k => (levels k).takeWhile fun i => go (.entry i))
      fun k => (levels k).dropWhile fun i => go (.entry i) := by
  let go' : ι → Bool := fun i => go (.entry i)
  have hlevel : ∀ k, Initial go' (levels k) := fun k =>
    hgo.sublist (r.sublist_of_le (Nat.zero_le k))
  have hleft : ∀ k, ((levels (k + 1)).takeWhile go').Sublist ((levels k).takeWhile go') := by
    intro k
    rw [(hlevel (k + 1)).takeWhile_eq_filter, (hlevel k).takeWhile_eq_filter]
    exact (r.sublist k).filter _
  have hright : ∀ k, ((levels (k + 1)).dropWhile go').Sublist ((levels k).dropWhile go') := by
    intro k
    rw [(hlevel (k + 1)).dropWhile_eq_filter, (hlevel k).dropWhile_eq_filter]
    exact (r.sublist k).filter _
  have hstop : ∀ k, ∀ i ∈ ((levels k).dropWhile go').head?, go' i = false := fun k i hi =>
    head?_dropWhile_false hi
  refine ⟨fun k => List.takeWhile_append_dropWhile.symm, fun k => ?_, hstop, hleft, hright⟩
  have hcut : ((levels (k + 1)).takeWhile go' ++ []).Sublist ((levels k).takeWhile go') := by
    rw [List.append_nil]
    exact hleft k
  obtain ⟨A, s, hL, hA, -, -⟩ := exists_cut_below hcut
  have hgo' : ∀ i ∈ A ++ s, go' i = true := hL ▸ fun i hi => List.mem_takeWhile_imp hi
  exact ⟨A, s, hL, hA, fun i hi => hgo' i (List.mem_append_right A hi)⟩

theorem Represents.descend_eq [DecidableEq ι] (r : Represents list levels) (go : Node ι → Bool)
    (hgo : Initial (fun i => go (.entry i)) (levels 0)) :
    skiplistDescend list go list.height .sentinel (fun _ => none) =
      ⟨before go (levels 0), (((levels 0).map Node.entry).dropWhile go).head?,
        fun k => if k ≤ list.height then some (before go (levels k)) else none⟩ := by
  simp only [(r.cuts_of_initial go hgo).descend_eq r, before_eq_lastNode, List.dropWhile_map,
    List.head?_map]
  rfl

end Descent

/-! ## What the searches return -/

theorem head?_dropWhile_pos_filter {ι : Type*} {cmp : Node ι → ℤ} {xs : List ι}
    (h : SignMonotone cmp xs) :
    (((xs.map Node.entry).dropWhile fun n => decide (0 < cmp n)).head?).filter
        (fun n => decide (cmp n = 0)) =
      (xs.find? fun i => decide (cmp (.entry i) = 0)).map Node.entry := by
  induction xs with
  | nil => rfl
  | cons a xs ih =>
      obtain ⟨ha, hxs⟩ := List.pairwise_cons.mp h
      rcases lt_trichotomy (cmp (.entry a)) 0 with hlt | heq | hgt
      · have hnone : xs.find? (fun i => decide (cmp (.entry i) = 0)) = none := by
          rw [List.find?_eq_none]
          intro b hb hb0
          have hpos := ha b hb (by simpa using (of_decide_eq_true hb0).ge)
          omega
        simp [hlt.le, hlt.ne, hnone]
      · simp [heq]
      · simp [hgt, hgt.ne', ih hxs]

section Search

variable {ι : Type*} [DecidableEq ι] {list : SkipList ι} {xs : List ι}
  {cmp : Node ι → ℤ}

theorem Holds.find_spec (h : Holds list xs) (hcmp : SignMonotone cmp xs) :
    (skiplistFind list cmp).1 =
      (xs.find? fun i => decide (cmp (.entry i) = 0)).map Node.entry := by
  obtain ⟨levels, r, rfl⟩ := h
  rw [skiplistFind, r.descend_eq _ hcmp.initial_pos, head?_dropWhile_pos_filter hcmp]

/-- `skiplist_find_ge` returns the first element not below the key. -/
theorem Holds.findGe_spec (h : Holds list xs) (hcmp : SignMonotone cmp xs) :
    (skiplistFindGe list cmp).1 =
      (xs.find? fun i => decide (cmp (.entry i) ≤ 0)).map Node.entry := by
  obtain ⟨levels, r, rfl⟩ := h
  have hfind : ∀ ys : List ι,
      ((ys.map Node.entry).dropWhile fun n => decide (0 < cmp n)).head? =
        (ys.find? fun i => decide (cmp (.entry i) ≤ 0)).map Node.entry := by
    intro ys
    induction ys with
    | nil => rfl
    | cons a ys ih =>
        by_cases ha : 0 < cmp (.entry a)
        · simp [ha, ih]
        · simp [ha, not_lt.mp ha]
  rw [skiplistFindGe, r.descend_eq _ hcmp.initial_pos, hfind]

/-- `skiplist_find_le` returns the last element not above the key. -/
theorem Holds.findLe_spec (h : Holds list xs) (hcmp : SignMonotone cmp xs) :
    (skiplistFindLe list cmp).1 =
      (xs.filter fun i => decide (0 ≤ cmp (.entry i))).getLast?.map Node.entry := by
  obtain ⟨levels, r, rfl⟩ := h
  have hgo := hcmp.initial_nonneg
  have hlast : before (fun n => decide (0 ≤ cmp n)) (levels 0) =
      ((levels 0).filter fun i => decide (0 ≤ cmp (.entry i))).getLast?.elim
        .sentinel Node.entry := by
    rw [before, lastTrue, (initial_map_entry.mpr hgo).takeWhile_eq_filter,
      List.filter_map, List.getLast?_map]
    change (Option.map Node.entry
      ((levels 0).filter fun i => decide (0 ≤ cmp (.entry i))).getLast?).getD .sentinel = _
    cases ((levels 0).filter fun i => decide (0 ≤ cmp (.entry i))).getLast? with
    | none => rfl
    | some i => rfl
  unfold skiplistFindLe
  simp only [r.descend_eq (fun n => decide (0 ≤ cmp n)) hgo, hlast]
  cases ((levels 0).filter fun i => decide (0 ≤ cmp (.entry i))).getLast? with
  | none => rfl
  | some i => rfl

theorem Represents.find_path {levels : ℕ → List ι} (r : Represents list levels)
    (hcmp : SignMonotone cmp (levels 0)) {k : ℕ} (hk : k ≤ list.height) :
    (skiplistFind list cmp).2 k =
      some (before (fun n => decide (0 < cmp n)) (levels k)) := by
  rw [skiplistFind, r.descend_eq _ hcmp.initial_pos]
  exact if_pos hk

end Search

end Util

end Libvfn
