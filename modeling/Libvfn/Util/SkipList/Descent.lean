import Libvfn.Util.SkipList.Basic

/-!
# The descent

A search goes along every level and leaves it at some node. So it cuts each level in two, and
because a level is part of the level below, so are its parts. This is so for every condition
under which the search advances; nothing is said here about what the condition is. Where the
levels are cut is all there is to know about a search: the nodes that it records are the last
ones of the left parts, and the node it stops at is the first one of the lowest right part.
-/

namespace Libvfn

namespace Util

open Linked

def lastNode {ι : Type*} (ys : List ι) : Node ι := (ys.map Node.entry).getLast?.getD .sentinel

@[simp] theorem lastNode_append_singleton {ι : Type*} (ys : List ι) (i : ι) :
    lastNode (ys ++ [i]) = .entry i := by
  simp [lastNode]

theorem lastNode_append {ι : Type*} (ys zs : List ι) :
    lastNode (ys ++ zs) = (zs.map Node.entry).getLast?.getD (lastNode ys) := by
  rw [lastNode, List.map_append, List.getLast?_append, lastNode]
  cases (zs.map Node.entry).getLast? with
  | none => rfl
  | some n => rfl

theorem toHeads_eq_append_lastNode {ι : Type*} {ys : List ι} (hnd : ys.Nodup) :
    ∃ l, lastNode ys ∉ l ∧ toHeads ys = l ++ [lastNode ys] := by
  rcases List.eq_nil_or_concat ys with rfl | ⟨zs, i, rfl⟩
  · exact ⟨[], List.not_mem_nil, rfl⟩
  · rw [List.concat_eq_append] at hnd ⊢
    have hi : i ∉ zs := fun h => (List.nodup_append'.mp hnd).2.2 h (by simp)
    exact ⟨toHeads zs, by simp [toHeads, hi], by simp [toHeads]⟩

/-- A descent with the condition `go` leaves every level between `L k` and `R k`. It comes to
a level at the last node of the left part above, passes nodes on which `go` holds, and stops
before the right part. -/
structure Cuts {ι : Type*} (go : Node ι → Bool) (levels L R : ℕ → List ι) : Prop where
  split : ∀ k, levels k = L k ++ R k
  walk : ∀ k, ∃ A s, L k = A ++ s ∧ lastNode A = lastNode (L (k + 1)) ∧
    ∀ i ∈ s, go (.entry i) = true
  stop : ∀ k, ∀ i ∈ (R k).head?, go (.entry i) = false
  left : ∀ k, (L (k + 1)).Sublist (L k)
  right : ∀ k, (R (k + 1)).Sublist (R k)

/-! ## Every descent cuts the levels -/

section Exists

variable {ι : Type*}

theorem exists_cut_below {l r ys : List ι} (h : (l ++ r).Sublist ys) :
    ∃ A B, ys = A ++ B ∧ lastNode A = lastNode l ∧ l.Sublist A ∧ r.Sublist B := by
  rcases List.eq_nil_or_concat l with rfl | ⟨l, i, rfl⟩
  · exact ⟨[], ys, rfl, rfl, List.Sublist.refl _, h⟩
  · obtain ⟨A, B, rfl, hA, hB⟩ := List.append_sublist_iff.mp h
    rw [List.concat_eq_append] at hA ⊢
    obtain ⟨A, C, rfl, hl, hC⟩ := List.append_sublist_iff.mp hA
    obtain ⟨C, D, rfl⟩ := List.append_of_mem (List.singleton_sublist.mp hC)
    refine ⟨A ++ C ++ [i], D ++ B, by simp, ?_, ?_, hB.trans (List.sublist_append_right _ _)⟩
    · rw [lastNode_append_singleton, lastNode_append_singleton]
    · exact (hl.trans (List.sublist_append_left _ _)).append (List.Sublist.refl _)

theorem sublist_dropWhile {go : ι → Bool} {r B : List ι} (h : r.Sublist B)
    (hstop : ∀ i ∈ r.head?, go i = false) : r.Sublist (B.dropWhile go) := by
  induction h with
  | slnil => exact List.Sublist.refl _
  | @cons r B b h ih =>
      by_cases hb : go b
      · rw [List.dropWhile_cons_of_pos hb]
        exact ih hstop
      · rw [List.dropWhile_cons_of_neg hb]
        exact h.cons b
  | @cons_cons r B b h ih =>
      rw [List.dropWhile_cons_of_neg (by simp [hstop b rfl])]
      exact h.cons_cons b

theorem head?_dropWhile_false {go : ι → Bool} {B : List ι} {i : ι}
    (h : i ∈ (B.dropWhile go).head?) : go i = false := by
  have hhead := List.head?_dropWhile_not go B
  rw [Option.mem_def] at h
  rw [h] at hhead
  simpa using hhead

theorem exists_cut_step (go : Node ι → Bool) {l r ys : List ι} (h : (l ++ r).Sublist ys)
    (hstop : ∀ i ∈ r.head?, go (.entry i) = false) :
    ∃ l' r', ys = l' ++ r' ∧
      (∃ A s, l' = A ++ s ∧ lastNode A = lastNode l ∧ ∀ i ∈ s, go (.entry i) = true) ∧
      (∀ i ∈ r'.head?, go (.entry i) = false) ∧ l.Sublist l' ∧ r.Sublist r' := by
  obtain ⟨A, B, rfl, hA, hl, hr⟩ := exists_cut_below h
  let go' : ι → Bool := fun i => go (.entry i)
  have hgo : ∀ i ∈ B.takeWhile go', go' i = true := fun i hi => List.mem_takeWhile_imp hi
  have hno : ∀ i ∈ (B.dropWhile go').head?, go' i = false := fun i hi => head?_dropWhile_false hi
  refine ⟨A ++ B.takeWhile go', B.dropWhile go', ?_, ⟨A, _, rfl, hA, hgo⟩, hno,
    hl.trans (List.sublist_append_left _ _), sublist_dropWhile hr hstop⟩
  rw [List.append_assoc, List.takeWhile_append_dropWhile]

def consLevel (l : List ι) (L : ℕ → List ι) : ℕ → List ι
  | 0 => l
  | k + 1 => L k

/-- Levels that get longer towards the bottom, from some height on, are cut by any
condition. -/
theorem exists_cuts (go : Node ι → Bool) (h : ℕ) {levels : ℕ → List ι}
    (hsub : ∀ k, (levels (k + 1)).Sublist (levels k)) (habove : ∀ k, h ≤ k → levels k = []) :
    ∃ L R, Cuts go levels L R := by
  induction h generalizing levels with
  | zero =>
      refine ⟨fun _ => [], fun _ => [], fun k => habove k (Nat.zero_le k), fun k => ?_,
        fun k i hi => ?_, fun _ => List.Sublist.refl _, fun _ => List.Sublist.refl _⟩
      · exact ⟨[], [], rfl, rfl, fun i hi => absurd hi List.not_mem_nil⟩
      · cases hi
  | succ h ih =>
      obtain ⟨L, R, c⟩ := ih (fun k => hsub (k + 1)) fun k hk => habove (k + 1) (by omega)
      have hle : (L 0 ++ R 0).Sublist (levels 0) := c.split 0 ▸ hsub 0
      obtain ⟨l, r, hsplit, hwalk, hstop, hl, hr⟩ := exists_cut_step go hle (c.stop 0)
      refine ⟨consLevel l L, consLevel r R, fun k => ?_, fun k => ?_, fun k => ?_, fun k => ?_,
        fun k => ?_⟩
      · cases k with
        | zero => exact hsplit
        | succ k => exact c.split k
      · cases k with
        | zero => exact hwalk
        | succ k => exact c.walk k
      · cases k with
        | zero => exact hstop
        | succ k => exact c.stop k
      · cases k with
        | zero => exact hl
        | succ k => exact c.left k
      · cases k with
        | zero => exact hr
        | succ k => exact c.right k

theorem Represents.exists_cuts {list : SkipList ι} {levels : ℕ → List ι}
    (r : Represents list levels) (go : Node ι → Bool) : ∃ L R, Cuts go levels L R :=
  Util.exists_cuts go (list.height + 1) r.sublist fun k hk => r.above k hk

end Exists

/-! ## The cuts determine the descent -/

/-- A pass down the levels that changes every level by itself. -/
theorem down_apply {α : Type*} (f : ℕ → α → α) (down : ℕ → (ℕ → α) → ℕ → α)
    (hzero : ∀ g, down 0 g = Function.update g 0 (f 0 (g 0)))
    (hsucc : ∀ k g, down (k + 1) g = down k (Function.update g (k + 1) (f (k + 1) (g (k + 1)))))
    (k : ℕ) (g : ℕ → α) (j : ℕ) : down k g j = if j ≤ k then f j (g j) else g j := by
  induction k generalizing g with
  | zero =>
      rw [hzero]
      by_cases hj : j = 0
      · subst hj
        rw [if_pos le_rfl, Function.update_self]
      · rw [Function.update_of_ne hj, if_neg (by omega)]
  | succ k ih =>
      rw [hsucc, ih]
      by_cases hj : j = k + 1
      · subst hj
        rw [if_neg (by omega), if_pos le_rfl, Function.update_self]
      · rw [Function.update_of_ne hj]
        by_cases hle : j ≤ k
        · rw [if_pos hle, if_pos (by omega)]
        · rw [if_neg hle, if_neg (by omega)]

section Descent

variable {ι : Type*} {go : Node ι → Bool} {levels L R : ℕ → List ι}

theorem Cuts.left_subset (c : Cuts go levels L R) (k : ℕ) : L k ⊆ L 0 := by
  induction k with
  | zero => exact List.Subset.refl _
  | succ k ih => exact List.Subset.trans (c.left k).subset ih

theorem Cuts.right_subset (c : Cuts go levels L R) (k : ℕ) : R k ⊆ R 0 := by
  induction k with
  | zero => exact List.Subset.refl _
  | succ k ih => exact List.Subset.trans (c.right k).subset ih

variable [DecidableEq ι] {list : SkipList ι}

/-- One level of the descent. -/
theorem Cuts.advance_level (c : Cuts go levels L R) (r : Represents list levels) (k : ℕ) :
    advance go (lastNode (L (k + 1))) (after (lastNode (L (k + 1))) (list.heads k)) =
      (lastNode (L k), (R k).head?.map Node.entry) := by
  obtain ⟨A, s, hL, hA, hgo⟩ := c.walk k
  have hsplit : levels k = A ++ (s ++ R k) := by rw [c.split k, hL, List.append_assoc]
  have hnd : A.Nodup := by
    have hnd := r.nodup_level k
    rw [hsplit, List.nodup_append'] at hnd
    exact hnd.1
  obtain ⟨l, hl, hheads⟩ := toHeads_eq_append_lastNode hnd
  have hlevel : list.heads k =
      l ++ lastNode A :: (s.map Node.entry ++ (R k).map Node.entry) := by
    rw [r.heads_eq, hsplit, ← List.map_append, List.append_cons, ← hheads]
    simp [toHeads]
  have hs : ∀ n ∈ s.map Node.entry, go n = true := List.forall_mem_map.mpr hgo
  have ht : ∀ n ∈ ((R k).map Node.entry).head?, go n = false := by
    intro n hn
    rw [List.head?_map] at hn
    obtain ⟨i, hi, rfl⟩ := Option.map_eq_some_iff.mp hn
    exact c.stop k i hi
  rw [← hA, hlevel, after_append_cons hl, advance_append hs ht, List.head?_map, hL,
    lastNode_append]

/-- The descent records the last nodes of the left parts, and what it finds behind it on the
lowest level is the right part. -/
theorem Cuts.descend_from (c : Cuts go levels L R) (r : Represents list levels) (k : ℕ)
    (path : Path ι) :
    skiplistDescend list go k (lastNode (L (k + 1))) path =
      ⟨lastNode (L 0), (R 0).head?.map Node.entry,
        fun j => if j ≤ k then some (lastNode (L j)) else path j⟩ := by
  have hpath := down_apply (fun j _ => some (lastNode (L j)))
    (fun k path => (skiplistDescend list go k (lastNode (L (k + 1))) path).path)
    (fun path => by simp only [skiplistDescend, c.advance_level r])
    (fun k path => by simp only [skiplistDescend, c.advance_level r]) k path
  have hend : (skiplistDescend list go k (lastNode (L (k + 1))) path).pos = lastNode (L 0) ∧
      (skiplistDescend list go k (lastNode (L (k + 1))) path).next =
        (R 0).head?.map Node.entry := by
    clear hpath
    induction k generalizing path with
    | zero => simp only [skiplistDescend, c.advance_level r, and_self]
    | succ k ih =>
        simp only [skiplistDescend, c.advance_level r]
        exact ih _
  rw [← hend.1, ← hend.2, ← funext hpath]

omit [DecidableEq ι] in
theorem Cuts.left_above (c : Cuts go levels L R) (r : Represents list levels) {k : ℕ}
    (hk : list.height < k) : L k = [] := by
  have hsplit := c.split k
  rw [r.above k hk] at hsplit
  exact (List.append_eq_nil_iff.mp hsplit.symm).1

theorem Cuts.descend_eq (c : Cuts go levels L R) (r : Represents list levels) :
    skiplistDescend list go list.height .sentinel (fun _ => none) =
      ⟨lastNode (L 0), (R 0).head?.map Node.entry,
        fun k => if k ≤ list.height then some (lastNode (L k)) else none⟩ := by
  have hdescend := c.descend_from r list.height fun _ => none
  rwa [c.left_above r (Nat.lt_succ_self _)] at hdescend

theorem Cuts.find_eq {cmp : Node ι → ℤ} (c : Cuts (fun n => decide (0 < cmp n)) levels L R)
    (r : Represents list levels) :
    skiplistFind list cmp =
      (((R 0).head?.map Node.entry).filter fun n => cmp n = 0,
        fun k => if k ≤ list.height then some (lastNode (L k)) else none) := by
  rw [skiplistFind, c.descend_eq r]

end Descent

end Util

end Libvfn
