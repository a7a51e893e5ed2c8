import Libvfn.Util.SkipList.Update

/-!
# Searching with any comparator

Nothing makes the comparator of a caller fit the order of the nodes, and then what a search
returns depends on the levels. Still it cuts every level in two. A comparator that is positive
on the left and negative on the right directs the search the same way, so a search with any
comparator is a search with a monotone one, and linking and erasing keep the representation
whatever the comparator says.

A node that was linked behind the predecessors of a search is where the same search comes
by. So it is found again if it compares equal, and erasing it leaves the elements that there
were before.
-/

namespace Libvfn

namespace Util

open Linked

/-! ## A monotone comparator for every search -/

section Monotone

variable {ι : Type*} [DecidableEq ι] {list : SkipList ι} {levels L R : ℕ → List ι}
  {cmp : Node ι → ℤ}

/-- The comparator that is positive on the left part and negative on the right one, except
for its first element. -/
def sideCmp (cmp : Node ι → ℤ) (l r : List ι) : Node ι → ℤ
  | .sentinel => 0
  | .entry i => if i ∈ l then 1 else if r.head? = some i then cmp (.entry i) else -1

theorem sideCmp_pos {l r : List ι} {i : ι} (hi : i ∈ l) : sideCmp cmp l r (.entry i) = 1 :=
  if_pos hi

theorem sideCmp_head {l r : List ι} {i : ι} (hi : i ∉ l) (hr : r.head? = some i) :
    sideCmp cmp l r (.entry i) = cmp (.entry i) := by
  rw [sideCmp, if_neg hi, if_pos hr]

theorem sideCmp_neg {l r : List ι} {i : ι} (hi : i ∉ l) (hr : r.head? ≠ some i) :
    sideCmp cmp l r (.entry i) = -1 := by
  rw [sideCmp, if_neg hi, if_neg hr]

theorem sideCmp_nonpos {l r : List ι} {i : ι} (hhead : ∀ i ∈ r.head?, cmp (.entry i) ≤ 0)
    (hi : i ∉ l) : sideCmp cmp l r (.entry i) ≤ 0 := by
  by_cases hr : r.head? = some i
  · rw [sideCmp_head hi hr]
    exact hhead i hr
  · rw [sideCmp_neg hi hr]
    decide

theorem sideCmp_signMonotone {l r : List ι} (hnd : (l ++ r).Nodup) :
    SignMonotone (sideCmp cmp l r) (l ++ r) := by
  obtain ⟨-, hr, hdisj⟩ := List.nodup_append'.mp hnd
  refine List.pairwise_append.mpr ⟨?_, ?_, fun a ha b _ _ => by rw [sideCmp_pos ha]; decide⟩
  · exact List.pairwise_of_forall_mem_list fun a ha b _ _ => by rw [sideCmp_pos ha]; decide
  · cases r with
    | nil => exact List.Pairwise.nil
    | cons i r =>
        -- the first element of the right part has no other one before it
        have hneg : ∀ b ∈ r, sideCmp cmp l (i :: r) (.entry b) = -1 := fun b hb =>
          sideCmp_neg (fun h => hdisj h (List.mem_cons_of_mem _ hb)) fun h =>
            (List.nodup_cons.mp hr).1 (Option.some.inj h ▸ hb)
        have hno : ∀ b ∈ r, ¬0 ≤ sideCmp cmp l (i :: r) (.entry b) := by
          intro b hb
          rw [hneg b hb]
          decide
        exact List.pairwise_cons.mpr ⟨fun b hb h => absurd h (hno b hb),
          List.pairwise_of_forall_mem_list fun a _ b hb h => absurd h (hno b hb)⟩

/-- The comparator of the two sides cuts the levels at the same places. -/
theorem Cuts.side (c : Cuts (fun n => decide (0 < cmp n)) levels L R)
    (r : Represents list levels) :
    Cuts (fun n => decide (0 < sideCmp cmp (L 0) (R 0) n)) levels L R := by
  have hnd := r.nodup
  rw [c.split 0] at hnd
  have hdisj := (List.nodup_append'.mp hnd).2.2
  refine ⟨c.split, fun k => ?_, fun k i hi => ?_, c.left, c.right⟩
  · obtain ⟨A, s, hL, hA, -⟩ := c.walk k
    refine ⟨A, s, hL, hA, fun i hi => ?_⟩
    have hmem : i ∈ L 0 := c.left_subset k (hL ▸ List.mem_append_right A hi)
    rw [sideCmp_pos hmem]
    rfl
  · have hmem : i ∉ L 0 := fun h => hdisj h (c.right_subset k (List.mem_of_mem_head? hi))
    have hhead : ∀ i ∈ (R 0).head?, cmp (.entry i) ≤ 0 := fun i hi => by
      simpa using c.stop 0 i hi
    exact decide_eq_false (not_lt.mpr (sideCmp_nonpos hhead hmem))

theorem Represents.find_eq_monotone (r : Represents list levels) (cmp : Node ι → ℤ) :
    ∃ cmp', SignMonotone cmp' (levels 0) ∧ skiplistFind list cmp' = skiplistFind list cmp := by
  obtain ⟨L, R, c⟩ := r.exists_cuts fun n => decide (0 < cmp n)
  have hnd := r.nodup
  rw [c.split 0] at hnd
  have hdisj := (List.nodup_append'.mp hnd).2.2
  refine ⟨sideCmp cmp (L 0) (R 0), c.split 0 ▸ sideCmp_signMonotone hnd, ?_⟩
  rw [(c.side r).find_eq r, c.find_eq r]
  congr 1
  cases hhead : (R 0).head? with
  | none => rfl
  | some i =>
      have hi : i ∉ L 0 := fun h => hdisj h (List.mem_of_mem_head? hhead)
      rw [Option.map_some, Option.filter_some, Option.filter_some, sideCmp_head hi hhead]

end Monotone

section Any

variable {ι : Type*} [DecidableEq ι] {list : SkipList ι} {xs : List ι} {cmp : Node ι → ℤ}

theorem Holds.mem_of_find (h : Holds list xs) {n : Node ι}
    (hfind : (skiplistFind list cmp).1 = some n) : ∃ i ∈ xs, n = .entry i ∧ cmp n = 0 := by
  obtain ⟨levels, r, rfl⟩ := h
  have hzero : cmp n = 0 := of_decide_eq_true (Option.filter_eq_some_iff.mp hfind).2
  obtain ⟨cmp', hmono, hsame⟩ := r.find_eq_monotone cmp
  have hspec := Holds.find_spec ⟨levels, r, rfl⟩ hmono
  rw [hsame, hfind] at hspec
  obtain ⟨i, hi, rfl⟩ := Option.map_eq_some_iff.mp hspec.symm
  exact ⟨i, List.mem_of_find?_eq_some hi, rfl, hzero⟩

theorem Holds.link_any (h : Holds list xs) (cmp : Node ι → ℤ) {n : ι} (hn : n ∉ xs) :
    ∃ l r, xs = l ++ r ∧
      Holds (skiplistLink list (.entry n) (skiplistFind list cmp).2) (l ++ n :: r) := by
  obtain ⟨levels, r, rfl⟩ := h
  obtain ⟨cmp', hmono, hsame⟩ := r.find_eq_monotone cmp
  have hlink := Holds.link_spec ⟨levels, r, rfl⟩ hmono hn
  rw [hsame] at hlink
  exact ⟨_, _, List.takeWhile_append_dropWhile.symm, hlink⟩

theorem Holds.erase_any (h : Holds list xs) {i : ι}
    (hfind : (skiplistFind list cmp).1 = some (.entry i)) :
    Holds (skiplistErase list (.entry i) (skiplistFind list cmp).2) (xs.erase i) := by
  obtain ⟨levels, r, rfl⟩ := h
  obtain ⟨cmp', hmono, hsame⟩ := r.find_eq_monotone cmp
  rw [← hsame] at hfind ⊢
  have hzero : cmp' (.entry i) = 0 := of_decide_eq_true (Option.filter_eq_some_iff.mp hfind).2
  exact Holds.erase_spec ⟨levels, r, rfl⟩ hmono hzero

end Any

/-! ## Searching again -/

section Again

variable {ι : Type*} {go go' : Node ι → Bool} {levels L R : ℕ → List ι}

theorem Cuts.congr (c : Cuts go levels L R)
    (hgo : ∀ i ∈ levels 0, go' (.entry i) = go (.entry i)) : Cuts go' levels L R := by
  have hmem : ∀ i ∈ L 0 ++ R 0, go' (.entry i) = go (.entry i) := c.split 0 ▸ hgo
  refine ⟨c.split, fun k => ?_, fun k i hi => ?_, c.left, c.right⟩
  · obtain ⟨A, s, hL, hA, hs⟩ := c.walk k
    refine ⟨A, s, hL, hA, fun i hi => ?_⟩
    rw [hmem i (List.mem_append_left _ (c.left_subset k (hL ▸ List.mem_append_right A hi)))]
    exact hs i hi
  · rw [hmem i (List.mem_append_right _ (c.right_subset k (List.mem_of_mem_head? hi)))]
    exact c.stop k i hi

/-- The levels with a new element at the cuts, up to level `k`. -/
def cutLevels (levels L R : ℕ → List ι) (n : ι) (k j : ℕ) : List ι :=
  if j ≤ k then L j ++ n :: R j else levels j

theorem insertAt_append {go : ι → Bool} {l r : List ι} (hl : ∀ i ∈ l, go i = true)
    (hr : ∀ i ∈ r.head?, go i = false) (n : ι) : insertAt go n (l ++ r) = l ++ n :: r := by
  obtain ⟨htake, hdrop⟩ := takeWhile_dropWhile_append hl hr
  rw [insertAt, htake, hdrop]

/-- A new element at which the condition fails stops the descent where it went by. -/
theorem Cuts.link_stop (c : Cuts go levels L R) {n : ι} (hn : go (.entry n) = false) (k : ℕ) :
    Cuts go (cutLevels levels L R n k) L fun j => if j ≤ k then n :: R j else R j := by
  refine ⟨fun j => ?_, c.walk, fun j i hi => ?_, c.left, fun j => ?_⟩
  · rw [cutLevels, c.split j]
    split_ifs
    · rfl
    · rfl
  · split_ifs at hi with hj
    · rwa [← Option.some.inj hi]
    · exact c.stop j i hi
  · by_cases hj : j + 1 ≤ k
    · rw [if_pos hj, if_pos (by omega)]
      exact (c.right j).cons_cons n
    · rw [if_neg hj]
      split_ifs
      · exact (c.right j).cons n
      · exact c.right j

/-- The descent goes by the same nodes and passes a new element at which the condition
holds. -/
theorem Cuts.link_pass (c : Cuts go levels L R) {n : ι} (hn : go (.entry n) = true) (k : ℕ) :
    Cuts go (cutLevels levels L R n k) (fun j => if j ≤ k then L j ++ [n] else L j) R := by
  refine ⟨fun j => ?_, fun j => ?_, c.stop, fun j => ?_, c.right⟩
  · rw [cutLevels, c.split j]
    split_ifs
    · rw [List.append_assoc, List.singleton_append]
    · rfl
  · by_cases hj : j + 1 ≤ k
    · -- the level above was left at the new element already
      rw [if_pos hj, if_pos (by omega)]
      refine ⟨L j ++ [n], [], (List.append_nil _).symm, ?_, fun i hi => absurd hi List.not_mem_nil⟩
      rw [lastNode_append_singleton, lastNode_append_singleton]
    · rw [if_neg hj]
      obtain ⟨A, s, hL, hA, hs⟩ := c.walk j
      split_ifs
      · refine ⟨A, s ++ [n], by rw [hL, List.append_assoc], hA, fun i hi => ?_⟩
        rcases List.mem_append.mp hi with hi | hi
        · exact hs i hi
        · rwa [List.mem_singleton.mp hi]
      · exact ⟨A, s, hL, hA, hs⟩
  · by_cases hj : j + 1 ≤ k
    · rw [if_pos hj, if_pos (by omega)]
      exact (c.left j).append (List.Sublist.refl _)
    · rw [if_neg hj]
      split_ifs
      · exact (c.left j).trans (List.sublist_append_left _ _)
      · exact c.left j

variable [DecidableEq ι] {list : SkipList ι}

/-- Linking behind the predecessors of a search puts the element at its cuts. -/
theorem Cuts.link_spec {cmp : Node ι → ℤ} (c : Cuts (fun n => decide (0 < cmp n)) levels L R)
    (r : Represents list levels) {n : ι} (hn : n ∉ levels 0) :
    ∃ k, Represents (skiplistLink list (.entry n) (skiplistFind list cmp).2)
      (cutLevels levels L R n k) := by
  have hnd := r.nodup
  rw [c.split 0] at hnd
  have hside := c.side r
  have hpath : (skiplistFind list (sideCmp cmp (L 0) (R 0))).2 = (skiplistFind list cmp).2 := by
    rw [hside.find_eq r, c.find_eq r]
  have hmono : SignMonotone (sideCmp cmp (L 0) (R 0)) (levels 0) :=
    c.split 0 ▸ sideCmp_signMonotone hnd
  obtain ⟨k, r'⟩ := r.link_spec hmono hn
  rw [hpath] at r'
  refine ⟨k, ?_⟩
  have hlevels : linkLevels (fun i => decide (0 < sideCmp cmp (L 0) (R 0) (.entry i))) n k levels =
      cutLevels levels L R n k := by
    funext j
    rw [linkLevels, cutLevels]
    split_ifs
    · rw [c.split j]
      refine insertAt_append (fun i hi => ?_) (hside.stop j) n
      rw [sideCmp_pos (c.left_subset j hi)]
      rfl
    · rfl
  rwa [hlevels] at r'

/-- The search that an element was linked by finds the element if it compares equal. It goes
on to where it came to before if the element compares smaller. -/
theorem Holds.find_link {xs : List ι} (h : Holds list xs) {cmp cmp' : Node ι → ℤ} {n : ι}
    (hn : n ∉ xs) (hsame : ∀ i ∈ xs, cmp' (.entry i) = cmp (.entry i))
    (hmiss : (skiplistFind list cmp).1 = none) (hnonneg : 0 ≤ cmp' (.entry n)) :
    (skiplistFind (skiplistLink list (.entry n) (skiplistFind list cmp).2) cmp').1 =
      if cmp' (.entry n) = 0 then some (.entry n) else none := by
  obtain ⟨levels, r, rfl⟩ := h
  obtain ⟨L, R, c⟩ := r.exists_cuts fun n => decide (0 < cmp n)
  obtain ⟨k, r'⟩ := c.link_spec r hn
  have c' : Cuts (fun n => decide (0 < cmp' n)) levels L R :=
    c.congr fun i hi => by rw [hsame i hi]
  rcases hnonneg.eq_or_lt with hzero | hpos
  · have hstop := c'.link_stop (n := n) (decide_eq_false hzero.not_lt) k
    rw [hstop.find_eq r', if_pos hzero.symm, if_pos (Nat.zero_le k)]
    simp [← hzero]
  · have hpass := c'.link_pass (n := n) (decide_eq_true hpos) k
    rw [hpass.find_eq r', if_neg hpos.ne']
    rw [c.find_eq r] at hmiss
    cases hhead : (R 0).head? with
    | none => rfl
    | some i =>
        have hi : i ∈ levels 0 := by
          rw [c.split 0]
          exact List.mem_append_right _ (List.mem_of_mem_head? hhead)
        rw [hhead] at hmiss
        rw [Option.map_some, Option.filter_some, hsame i hi]
        exact hmiss

end Again

end Util

end Libvfn
