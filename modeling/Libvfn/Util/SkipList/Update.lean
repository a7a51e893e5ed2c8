import Libvfn.Util.SkipList.Find

/-!
# Updating the skip list

A link puts the new node behind the recorded predecessor on every level up to
its random one, an erase takes the node out of the levels that hold it, and a
clear leaves the sentinels. Each of the three is described by what it does to the
levels, and the representation is kept, so on the sequence of all elements they
are `insertAt`, `List.erase` and the empty list.
-/

namespace Libvfn

namespace Util

open Linked

def insertAt {ι : Type*} (go : ι → Bool) (n : ι) (ys : List ι) : List ι :=
  ys.takeWhile go ++ n :: ys.dropWhile go

theorem sublist_insertAt {ι : Type*} (go : ι → Bool) (n : ι) (ys : List ι) :
    ys.Sublist (insertAt go n ys) := by
  have h : (ys.takeWhile go ++ ys.dropWhile go).Sublist (insertAt go n ys) :=
    List.Sublist.append_left (List.sublist_cons_self n _) _
  rwa [List.takeWhile_append_dropWhile] at h

theorem insertAt_sublist_insertAt {ι : Type*} {go : ι → Bool} {ys zs : List ι}
    (hz : Initial go zs) (h : ys.Sublist zs) (n : ι) :
    (insertAt go n ys).Sublist (insertAt go n zs) := by
  have hy := hz.sublist h
  rw [insertAt, insertAt, hy.takeWhile_eq_filter, hz.takeWhile_eq_filter,
    hy.dropWhile_eq_filter, hz.dropWhile_eq_filter]
  exact (h.filter _).append ((h.filter _).cons_cons n)

theorem insertAt_perm {ι : Type*} (go : ι → Bool) (n : ι) (ys : List ι) :
    (insertAt go n ys).Perm (n :: ys) := by
  have h : (insertAt go n ys).Perm (n :: (ys.takeWhile go ++ ys.dropWhile go)) :=
    List.perm_middle
  rwa [List.takeWhile_append_dropWhile] at h

theorem mem_insertAt {ι : Type*} {go : ι → Bool} {n i : ι} {ys : List ι} :
    i ∈ insertAt go n ys ↔ i = n ∨ i ∈ ys := by
  rw [(insertAt_perm go n ys).mem_iff, List.mem_cons]

theorem nodup_insertAt {ι : Type*} {go : ι → Bool} {n : ι} {ys : List ι}
    (hn : n ∉ ys) (h : ys.Nodup) : (insertAt go n ys).Nodup := by
  rw [(insertAt_perm go n ys).nodup_iff]
  exact List.nodup_cons.mpr ⟨hn, h⟩

/-- The recorded predecessor splits the level into the initial segment and the
rest. -/
theorem toHeads_split {ι : Type*} {ys : List ι} (hnd : ys.Nodup) (go : Node ι → Bool) :
    ∃ l, before go ys ∉ l ∧
      toHeads ys = l ++ before go ys ::
        (ys.dropWhile fun i => go (.entry i)).map Node.entry ∧
      l ++ [before go ys] = toHeads (ys.takeWhile fun i => go (.entry i)) := by
  have hys := List.takeWhile_append_dropWhile (p := fun i => go (.entry i)) (l := ys)
  obtain ⟨l, hl, htake⟩ := toHeads_eq_append_lastNode
    (hnd.sublist (List.takeWhile_sublist fun i => go (.entry i)))
  rw [← before_eq_lastNode] at hl htake
  refine ⟨l, hl, ?_, htake.symm⟩
  rw [List.append_cons, ← htake, toHeads, toHeads, List.cons_append, ← List.map_append, hys]

section Predecessor

variable {ι : Type*} [DecidableEq ι] {ys : List ι}

theorem insertAfter_before (hnd : ys.Nodup) (go : Node ι → Bool) (n : ι) :
    insertAfter (before go ys) (.entry n) (toHeads ys) =
      toHeads (insertAt (fun i => go (.entry i)) n ys) := by
  obtain ⟨l, hl, hys, htake⟩ := toHeads_split hnd go
  rw [hys, insertAfter_append_cons hl, List.append_cons, htake]
  simp [toHeads, insertAt]

theorem next_before (hnd : ys.Nodup) (go : Node ι → Bool) :
    next (toHeads ys) (before go ys) =
      (ys.dropWhile fun i => go (.entry i)).head?.map Node.entry := by
  obtain ⟨l, hl, hys, -⟩ := toHeads_split hnd go
  rw [hys, next_append_cons hl, List.head?_map]

theorem next_sentinel_eq_none_iff : next (toHeads ys) .sentinel = none ↔ ys = [] := by
  cases ys with
  | nil => simp [toHeads, next, after]
  | cons a ys => simp [toHeads, next, after]

theorem toHeads_erase (n : ι) :
    (toHeads ys).erase (.entry n) = toHeads (ys.erase n) := by
  have hinj : Function.Injective (Node.entry (ι := ι)) := fun a b h => Node.entry.inj h
  rw [toHeads, toHeads, List.erase_cons_tail (by simp), List.map_erase hinj]

end Predecessor

/-! ## Linking a node -/

theorem skiplistClimb_le (fuel k : ℕ) (rand : ℕ → Bool) :
    (skiplistClimb fuel k rand).1 ≤ k + fuel := by
  induction fuel generalizing k rand with
  | zero => exact le_rfl
  | succ fuel ih =>
      rw [skiplistClimb]
      by_cases h : rand 0
      · rw [if_pos h]
        exact (ih _ _).trans (by omega)
      · rw [if_neg h]
        exact Nat.le_add_right k _

theorem skiplistRandomLevel_lt (rand : ℕ → Bool) :
    (skiplistRandomLevel rand).1 < skiplistLevels := by
  have h := skiplistClimb_le (skiplistLevels - 1) 0 rand
  have h8 : skiplistLevels = 8 := rfl
  unfold skiplistRandomLevel
  omega

section Link

variable {ι : Type*} [DecidableEq ι] {list : SkipList ι} {levels : ℕ → List ι}

theorem skiplistLinkDown_apply (n : Node ι) (update : Path ι) (p : ℕ → Node ι) (k : ℕ)
    (heads : ℕ → List (Node ι)) (hp : ∀ j ≤ k, update j = some (p j)) (j : ℕ) :
    skiplistLinkDown n update k heads j =
      if j ≤ k then insertAfter (p j) n (heads j) else heads j := by
  have hadd : ∀ (heads : ℕ → List (Node ι)) (k : ℕ), skiplistAddAfter heads (update k) n k =
      Function.update heads k ((update k).elim (heads k) fun q => insertAfter q n (heads k)) := by
    intro heads k
    cases update k with
    | none => exact (Function.update_eq_self k heads).symm
    | some q => rfl
  rw [down_apply (fun k ys => (update k).elim ys fun q => insertAfter q n ys)
    (skiplistLinkDown n update) (fun heads => hadd heads 0)
    (fun k heads => congrArg (skiplistLinkDown n update k) (hadd heads (k + 1)))]
  by_cases hj : j ≤ k
  · rw [if_pos hj, if_pos hj, hp j hj]
    rfl
  · rw [if_neg hj, if_neg hj]

/-- The levels after a link whose topmost level is `k`. -/
def linkLevels (go : ι → Bool) (n : ι) (k : ℕ) (levels : ℕ → List ι) (j : ℕ) : List ι :=
  if j ≤ k then insertAt go n (levels j) else levels j

omit [DecidableEq ι] in
theorem linkLevels_sublist {go : ι → Bool} {n : ι} {k : ℕ} (r : Represents list levels)
    (hgo : Initial go (levels 0)) (j : ℕ) :
    (linkLevels go n k levels (j + 1)).Sublist (linkLevels go n k levels j) := by
  have hj := r.sublist j
  have hgoj := hgo.sublist (r.sublist_of_le (Nat.zero_le j))
  unfold linkLevels
  by_cases h1 : j + 1 ≤ k
  · rw [if_pos h1, if_pos (by omega)]
    exact insertAt_sublist_insertAt hgoj hj n
  · rw [if_neg h1]
    by_cases h0 : j ≤ k
    · rw [if_pos h0]
      exact hj.trans (sublist_insertAt go n _)
    · rw [if_neg h0]
      exact hj

omit [DecidableEq ι] in
theorem sublist_linkLevels (go : ι → Bool) (n : ι) (k : ℕ) (levels : ℕ → List ι) (j : ℕ) :
    (levels j).Sublist (linkLevels go n k levels j) := by
  unfold linkLevels
  by_cases hj : j ≤ k
  · rw [if_pos hj]
    exact sublist_insertAt go n _
  · rw [if_neg hj]

theorem Represents.linkDown_eq (r : Represents list levels) {cmp : Node ι → ℤ} {update : Path ι}
    {k : ℕ} (hup : ∀ j ≤ k, update j = some (before (fun n => decide (0 < cmp n)) (levels j)))
    (n : ι) (j : ℕ) :
    skiplistLinkDown (.entry n) update k list.heads j =
      toHeads (linkLevels (fun i => decide (0 < cmp (.entry i))) n k levels j) := by
  rw [skiplistLinkDown_apply _ _ _ _ _ hup, r.heads_eq, linkLevels,
    insertAfter_before (r.nodup_level j)]
  by_cases hj : j ≤ k
  · rw [if_pos hj, if_pos hj]
  · rw [if_neg hj, if_neg hj]

/-- Linking behind the predecessors of a search keeps the representation. -/
theorem Represents.link_spec (r : Represents list levels) {cmp : Node ι → ℤ}
    (hcmp : SignMonotone cmp (levels 0)) {n : ι} (hn : n ∉ levels 0) :
    ∃ k, Represents (skiplistLink list (.entry n) (skiplistFind list cmp).2)
      (linkLevels (fun i => decide (0 < cmp (.entry i))) n k levels) := by
  have hgo := hcmp.initial_pos
  have hpath := fun j hj => r.find_path hcmp (k := j) hj
  have hlt := skiplistRandomLevel_lt list.rand
  have hzero : ∀ k, (linkLevels (fun i => decide (0 < cmp (.entry i))) n k levels 0).Nodup := by
    intro k
    rw [linkLevels, if_pos (Nat.zero_le k)]
    exact nodup_insertAt hn r.nodup
  unfold skiplistLink
  by_cases hgrow : list.height < (skiplistRandomLevel list.rand).1
  · -- the list grows by one level, whose only node is the new one
    have hup : ∀ j ≤ list.height + 1,
        Function.update (skiplistFind list cmp).2 (list.height + 1) (some .sentinel) j =
          some (before (fun n => decide (0 < cmp n)) (levels j)) := by
      intro j hj
      rcases Nat.lt_or_eq_of_le hj with hlt' | rfl
      · rw [Function.update_of_ne (by omega)]
        exact hpath j (by omega)
      · rw [Function.update_self, r.above _ (Nat.lt_succ_self _)]
        rfl
    refine ⟨list.height + 1, ?_⟩
    simp only [if_pos hgrow]
    refine ⟨r.linkDown_eq hup n, linkLevels_sublist r hgo, ?_, hzero _, by dsimp only; omega, ?_⟩
    · intro j hj
      rw [linkLevels, if_neg (by dsimp only at hj; omega)]
      exact r.above j (by dsimp only at hj; omega)
    · right
      simp [linkLevels, insertAt]
  · refine ⟨(skiplistRandomLevel list.rand).1, ?_⟩
    simp only [if_neg hgrow]
    refine ⟨r.linkDown_eq (fun j hj => hpath j (by omega)) n, linkLevels_sublist r hgo, ?_,
      hzero _, r.height_lt, ?_⟩
    · intro j hj
      rw [linkLevels, if_neg (by dsimp only at hj; omega)]
      exact r.above j hj
    · rcases r.tight with h0 | hne
      · exact Or.inl h0
      · right
        intro hnil
        have hsub := sublist_linkLevels (fun i => decide (0 < cmp (.entry i))) n
          (skiplistRandomLevel list.rand).1 levels list.height
        dsimp only at hnil
        rw [hnil] at hsub
        exact hne (List.sublist_nil.mp hsub)

theorem Holds.link_spec {xs : List ι} (h : Holds list xs) {cmp : Node ι → ℤ}
    (hcmp : SignMonotone cmp xs) {n : ι} (hn : n ∉ xs) :
    Holds (skiplistLink list (.entry n) (skiplistFind list cmp).2)
      (insertAt (fun i => decide (0 < cmp (.entry i))) n xs) := by
  obtain ⟨levels, r, rfl⟩ := h
  obtain ⟨k, hk⟩ := r.link_spec hcmp hn
  exact ⟨_, hk, by rw [linkLevels, if_pos (Nat.zero_le k)]⟩

end Link

/-! ## Erasing a node -/

section Erase

variable {ι : Type*} [DecidableEq ι] {list : SkipList ι} {levels : ℕ → List ι}

omit [DecidableEq ι] in
theorem head?_dropWhile_eq_some_iff {cmp : Node ι → ℤ} {ys : List ι} {n : ι}
    (hcmp : SignMonotone cmp ys) (hn : cmp (.entry n) = 0) :
    (ys.dropWhile fun i => decide (0 < cmp (.entry i))).head? = some n ↔ n ∈ ys := by
  constructor
  · intro h
    exact (List.dropWhile_sublist _).subset (List.mem_of_mem_head? h)
  · intro h
    induction ys with
    | nil => exact absurd h List.not_mem_nil
    | cons a ys ih =>
        obtain ⟨ha, hys⟩ := List.pairwise_cons.mp hcmp
        rcases List.mem_cons.mp h with rfl | hmem
        · rw [List.dropWhile_cons_of_neg (by simp [hn])]
          rfl
        · have hpos : 0 < cmp (.entry a) := ha n hmem hn.ge
          rw [List.dropWhile_cons_of_pos (by simpa using hpos)]
          exact ih hys hmem

/-- The first loop of an erase takes `n` out of every level. It may stop early:
the levels above the first one without `n` are parts of it. -/
theorem Represents.eraseUp_spec (r : Represents list levels) {n : ι} {update : Path ι}
    (hup : ∀ k ≤ list.height,
      (update k).bind (fun p => next (toHeads (levels k)) p) = some (.entry n) ↔
        n ∈ levels k)
    (fuel k : ℕ) (hfuel : k + fuel = list.height + 1) (heads : ℕ → List (Node ι))
    (hlow : ∀ j < k, heads j = toHeads ((levels j).erase n))
    (hhigh : ∀ j, k ≤ j → heads j = toHeads (levels j)) (j : ℕ) :
    skiplistEraseUp (.entry n) update fuel k heads j = toHeads ((levels j).erase n) := by
  have hstop : ∀ i, n ∉ levels i → ∀ j, i ≤ j → toHeads (levels j) =
      toHeads ((levels j).erase n) := by
    intro i hi j hij
    have hj : n ∉ levels j := fun h => hi ((r.sublist_of_le hij).subset h)
    rw [List.erase_of_not_mem hj]
  induction fuel generalizing k heads with
  | zero =>
      rw [skiplistEraseUp]
      by_cases hj : j < k
      · exact hlow j hj
      · rw [hhigh j (by omega), r.above j (by omega), List.erase_nil]
  | succ fuel ih =>
      have hk : k ≤ list.height := by omega
      rw [skiplistEraseUp]
      by_cases hmem : n ∈ levels k
      · have hcond : (update k).bind (fun p => skiplistNext heads p k) = some (.entry n) := by
          simp only [skiplistNext, hhigh k le_rfl]
          exact (hup k hk).mpr hmem
        rw [if_pos hcond]
        apply ih (k + 1) (by omega)
        · intro i hi
          by_cases hik : i = k
          · subst hik
            rw [Function.update_self, hhigh i le_rfl, toHeads_erase]
          · rw [Function.update_of_ne hik]
            exact hlow i (by omega)
        · intro i hi
          rw [Function.update_of_ne (by omega)]
          exact hhigh i (by omega)
      · have hcond :
            ¬ (update k).bind (fun p => skiplistNext heads p k) = some (.entry n) := by
          simp only [skiplistNext, hhigh k le_rfl]
          exact fun h => hmem ((hup k hk).mp h)
        rw [if_neg hcond]
        by_cases hj : j < k
        · exact hlow j hj
        · rw [hhigh j (by omega)]
          exact hstop k hmem j (by omega)

theorem skiplistShrink_spec {heads : ℕ → List (Node ι)}
    (hheads : ∀ k, heads k = toHeads (levels k)) (h : ℕ) :
    skiplistShrink heads h ≤ h ∧
      (∀ k, skiplistShrink heads h < k → k ≤ h → levels k = []) ∧
      (skiplistShrink heads h = 0 ∨ levels (skiplistShrink heads h) ≠ []) := by
  induction h with
  | zero => exact ⟨le_rfl, fun k hk hk' => by simp only [skiplistShrink] at hk; omega, Or.inl rfl⟩
  | succ h ih =>
      have hnext : skiplistNext heads .sentinel (h + 1) = none ↔ levels (h + 1) = [] := by
        rw [skiplistNext, hheads]
        exact next_sentinel_eq_none_iff
      rw [skiplistShrink]
      by_cases hnil : levels (h + 1) = []
      · rw [if_pos (hnext.mpr hnil)]
        obtain ⟨hle, habove, htight⟩ := ih
        refine ⟨by omega, ?_, htight⟩
        intro k hk hk'
        rcases Nat.lt_or_eq_of_le hk' with hlt | rfl
        · exact habove k hk (by omega)
        · exact hnil
      · rw [if_neg (fun h' => hnil (hnext.mp h'))]
        exact ⟨le_rfl, fun k hk hk' => by omega, Or.inr hnil⟩

/-- Erasing the node a search found keeps the representation. -/
theorem Represents.erase_spec (r : Represents list levels) {cmp : Node ι → ℤ}
    (hcmp : SignMonotone cmp (levels 0)) {n : ι} (hn : cmp (.entry n) = 0) :
    Represents (skiplistErase list (.entry n) (skiplistFind list cmp).2)
      (fun j => (levels j).erase n) := by
  have hup : ∀ k ≤ list.height,
      ((skiplistFind list cmp).2 k).bind (fun p => next (toHeads (levels k)) p) =
        some (.entry n) ↔ n ∈ levels k := by
    intro k hk
    have hcmpk : SignMonotone cmp (levels k) :=
      List.Pairwise.sublist (r.sublist_of_le (Nat.zero_le k)) hcmp
    rw [r.find_path hcmp hk, Option.bind_some, next_before (r.nodup_level k),
      ← head?_dropWhile_eq_some_iff hcmpk hn]
    simp [Option.map_eq_some_iff]
  have hheads := r.eraseUp_spec hup (list.height + 1) 0 (by omega) list.heads
    (fun j hj => absurd hj (Nat.not_lt_zero j)) (fun j _ => r.heads_eq j)
  obtain ⟨hle, habove, htight⟩ := skiplistShrink_spec hheads list.height
  refine ⟨hheads, fun k => (r.sublist k).erase n, ?_, r.nodup.erase n, ?_, htight⟩
  · intro k hk
    by_cases hkh : k ≤ list.height
    · exact habove k hk hkh
    · rw [r.above k (by omega), List.erase_nil]
  · exact lt_of_le_of_lt hle r.height_lt

theorem Holds.erase_spec {xs : List ι} (h : Holds list xs) {cmp : Node ι → ℤ}
    (hcmp : SignMonotone cmp xs) {n : ι} (hn : cmp (.entry n) = 0) :
    Holds (skiplistErase list (.entry n) (skiplistFind list cmp).2) (xs.erase n) := by
  obtain ⟨levels, r, rfl⟩ := h
  exact ⟨_, r.erase_spec hcmp hn, rfl⟩

theorem Holds.erase_split {l r : List ι} {n : ι} (h : Holds list (l ++ n :: r))
    {cmp : Node ι → ℤ} (hcmp : SignMonotone cmp (l ++ n :: r)) (hn : cmp (.entry n) = 0) :
    Holds (skiplistErase list (.entry n) (skiplistFind list cmp).2) (l ++ r) := by
  have herase := h.erase_spec hcmp hn
  rwa [List.erase_append_right _ h.not_mem_split.1, List.erase_cons_head] at herase

end Erase

/-! ## Clearing the list -/

section Clear

variable {ι : Type*} [DecidableEq ι] {list : SkipList ι}

theorem skiplistClearLevel_toHeads (ys : List ι) :
    skiplistClearLevel (toHeads ys) = [Node.sentinel] := by
  have hfold : ∀ zs : List ι,
      (zs.map Node.entry).foldl
        (fun rest n => if n = Node.sentinel then rest else rest.erase n) (toHeads zs) =
      [Node.sentinel] := by
    intro zs
    induction zs with
    | nil => rfl
    | cons a zs ih =>
        rw [List.map_cons, List.foldl_cons, if_neg (by simp), toHeads_erase,
          List.erase_cons_head]
        exact ih
  rw [skiplistClearLevel]
  conv_lhs => arg 3; rw [toHeads]
  rw [List.foldl_cons, if_pos rfl]
  exact hfold ys

theorem skiplistClearDown_apply (k : ℕ) (heads : ℕ → List (Node ι)) (j : ℕ) :
    skiplistClearDown k heads j =
      if j ≤ k then skiplistClearLevel (heads j) else heads j :=
  down_apply (fun _ => skiplistClearLevel) skiplistClearDown (fun _ => rfl) (fun _ _ => rfl)
    k heads j

/-- A clear leaves no element and calls back once for each of them, in order. -/
theorem Holds.clear_spec {xs : List ι} (h : Holds list xs) :
    Holds (skiplistClearWith list).1 [] ∧
      (skiplistClearWith list).2 = xs.map Node.entry := by
  obtain ⟨levels, r, rfl⟩ := h
  constructor
  · refine ⟨fun _ => [], ⟨?_, fun _ => List.Sublist.refl [], fun _ _ => rfl,
      List.nodup_nil, Nat.zero_lt_succ 7, Or.inl rfl⟩, rfl⟩
    intro k
    change skiplistClearDown list.height list.heads k = [Node.sentinel]
    rw [skiplistClearDown_apply]
    by_cases hk : k ≤ list.height
    · rw [if_pos hk, r.heads_eq, skiplistClearLevel_toHeads]
    · rw [if_neg hk, r.heads_eq, r.above k (by omega), toHeads_nil]
  · change (list.heads 0).filter (fun n => decide (n ≠ Node.sentinel)) = _
    rw [r.heads_eq, toHeads, List.filter_cons_of_neg (by simp), List.filter_eq_self]
    intro n hn
    obtain ⟨i, -, rfl⟩ := List.mem_map.mp hn
    simp

end Clear

end Util

end Libvfn
