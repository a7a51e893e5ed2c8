import Mathlib.Order.CompletePartialOrder
import Libvfn.Util.SkipList.Refine

/-!
# The skip list of an ordered set

Here every node has a key of its own in a linear order, and all calls search with
comparators that follow this order. Then no call has to be assumed admissible: the
elements stay strictly sorted by their keys, so the signs of every comparator fall
along them, and a node that was not found is not linked yet.

What the structure promises its callers is `WellFormed`, level by level and in terms
of the lists in memory. A search fills the path up to the height, and `PathSet` says
that this is all of the path a link or an erase reads.
-/

namespace Libvfn

namespace Util

open Linked Runs

/-- A call of a client that keeps an ordered set: a search for the node's own key and
a link, a search for a key and an erase of the node found, or a clear. -/
inductive KeyOp (ι κ : Type*) where
  | insert (n : ι)
  | remove (v : κ)
  | clear

def KeyOp.toOp {ι κ : Type*} (key : ι → κ) (cmp : κ → Node ι → ℤ) : KeyOp ι κ → Op ι
  | .insert n => .insert n (cmp (key n))
  | .remove v => .remove (cmp v)
  | .clear => .clear

/-- The comparator of a key tells on which side of the key a node's own key lies. What
it says of the sentinel is left open. -/
structure Follows {ι κ : Type*} [LinearOrder κ] (key : ι → κ) (cmp : κ → Node ι → ℤ) :
    Prop where
  pos_iff : ∀ v i, 0 < cmp v (.entry i) ↔ key i < v
  neg_iff : ∀ v i, cmp v (.entry i) < 0 ↔ v < key i

/-- What holds of the lists in memory: every level is the sentinel and then nodes with
ascending keys, a level holds part of the level below, the levels above the height
hold the sentinel only, and the height is the topmost level with a node on it. -/
structure WellFormed {ι κ : Type*} [LinearOrder κ] (key : ι → κ) (list : SkipList ι) :
    Prop where
  sorted : ∀ k, ∃ ys : List ι,
    list.heads k = toHeads ys ∧ ys.Pairwise fun a b => key a < key b
  sublist : ∀ k, (list.heads (k + 1)).Sublist (list.heads k)
  above : ∀ k, list.height < k → list.heads k = [.sentinel]
  height_lt : list.height < skiplistLevels
  height_tight : list.height = 0 ∨ ∃ i, Node.entry i ∈ list.heads list.height

/-- The search has set the path on the levels in use, and a link or an erase that
follows reads no other entry. -/
structure PathSet {ι : Type*} [DecidableEq ι] (list : SkipList ι) (path : Path ι) : Prop where
  set : ∀ k ≤ list.height, path k ≠ none
  link : ∀ n path', (∀ k ≤ list.height, path' k = path k) →
    skiplistLink list n path' = skiplistLink list n path
  erase : ∀ n path', (∀ k ≤ list.height, path' k = path k) →
    skiplistErase list n path' = skiplistErase list n path

/-! ## What a link and an erase touch -/

def skiplistLinkTop {ι : Type*} (list : SkipList ι) : ℕ :=
  let r := skiplistRandomLevel list.rand
  if list.height < r.1 then list.height + 1 else r.1

theorem skiplistLinkTop_lt {ι : Type*} (list : SkipList ι) :
    skiplistLinkTop list < skiplistLevels := by
  have hrand := skiplistRandomLevel_lt list.rand
  unfold skiplistLinkTop
  by_cases hgrow : list.height < (skiplistRandomLevel list.rand).1
  · simp only [if_pos hgrow]
    exact lt_of_le_of_lt hgrow hrand
  · simp only [if_neg hgrow]
    exact hrand

section Touch

variable {ι : Type*} [DecidableEq ι]

theorem skiplistLinkDown_congr (n : Node ι) {update update' : Path ι} {k : ℕ}
    (hup : ∀ j ≤ k, update' j = update j) (heads : ℕ → List (Node ι)) :
    skiplistLinkDown n update' k heads = skiplistLinkDown n update k heads := by
  induction k generalizing heads with
  | zero => rw [skiplistLinkDown, skiplistLinkDown, hup 0 le_rfl]
  | succ k ih =>
      rw [skiplistLinkDown, skiplistLinkDown, hup (k + 1) le_rfl]
      exact ih (fun j hj => hup j (Nat.le_succ_of_le hj)) _

theorem skiplistAddAfter_of_ne (heads : ℕ → List (Node ι)) (p : Option (Node ι)) (n : Node ι)
    {k j : ℕ} (hj : j ≠ k) : skiplistAddAfter heads p n k j = heads j := by
  cases p with
  | none => rfl
  | some p => exact Function.update_of_ne hj _ _

theorem skiplistLinkDown_of_lt (n : Node ι) (update : Path ι) {k j : ℕ} (hj : k < j)
    (heads : ℕ → List (Node ι)) : skiplistLinkDown n update k heads j = heads j := by
  induction k generalizing heads with
  | zero => exact skiplistAddAfter_of_ne heads (update 0) n hj.ne'
  | succ k ih =>
      rw [skiplistLinkDown, ih (Nat.lt_of_succ_lt hj)]
      exact skiplistAddAfter_of_ne heads _ n hj.ne'

/-- A link reads the path up to the height only: the entry of the level it adds, if it
adds one, it sets itself. -/
theorem skiplistLink_congr {list : SkipList ι} (n : Node ι) {path path' : Path ι}
    (h : ∀ k ≤ list.height, path' k = path k) :
    skiplistLink list n path' = skiplistLink list n path := by
  unfold skiplistLink
  by_cases hgrow : list.height < (skiplistRandomLevel list.rand).1
  · have hup : ∀ j ≤ list.height + 1,
        Function.update path' (list.height + 1) (some .sentinel) j =
          Function.update path (list.height + 1) (some .sentinel) j := by
      intro j hj
      rcases Nat.lt_or_eq_of_le hj with hlt | rfl
      · rw [Function.update_of_ne hlt.ne, Function.update_of_ne hlt.ne]
        exact h j (Nat.lt_succ_iff.mp hlt)
      · rw [Function.update_self, Function.update_self]
    simp only [if_pos hgrow, skiplistLinkDown_congr n hup]
  · have hup : ∀ j ≤ (skiplistRandomLevel list.rand).1, path' j = path j :=
      fun j hj => h j (hj.trans (not_lt.mp hgrow))
    simp only [if_neg hgrow, skiplistLinkDown_congr n hup]

theorem skiplistLink_heads_of_lt (list : SkipList ι) (n : Node ι) (path : Path ι) {k : ℕ}
    (hk : skiplistLinkTop list < k) : (skiplistLink list n path).heads k = list.heads k := by
  unfold skiplistLink
  unfold skiplistLinkTop at hk
  by_cases hgrow : list.height < (skiplistRandomLevel list.rand).1
  · simp only [if_pos hgrow] at hk ⊢
    exact skiplistLinkDown_of_lt n _ hk _
  · simp only [if_neg hgrow] at hk ⊢
    exact skiplistLinkDown_of_lt n _ hk _

theorem skiplistEraseUp_congr (n : Node ι) {update update' : Path ι} (fuel k : ℕ)
    (hup : ∀ j < k + fuel, update' j = update j) (heads : ℕ → List (Node ι)) :
    skiplistEraseUp n update' fuel k heads = skiplistEraseUp n update fuel k heads := by
  induction fuel generalizing k heads with
  | zero => rfl
  | succ fuel ih =>
      rw [skiplistEraseUp, skiplistEraseUp, hup k (by omega),
        ih (k + 1) (fun j hj => hup j (by omega))]

theorem skiplistErase_congr {list : SkipList ι} (n : Node ι) {path path' : Path ι}
    (h : ∀ k ≤ list.height, path' k = path k) :
    skiplistErase list n path' = skiplistErase list n path := by
  have hheads := skiplistEraseUp_congr n (list.height + 1) 0
    (fun j hj => h j (by omega)) list.heads
  unfold skiplistErase
  rw [hheads]

end Touch

/-! ## The invariant over runs -/

section Keys

variable {ι κ : Type*} [LinearOrder κ] {key : ι → κ} {cmp : κ → Node ι → ℤ} {xs : List ι}

theorem Follows.eq_zero_iff (hcmp : Follows key cmp) (v : κ) (i : ι) :
    cmp v (.entry i) = 0 ↔ key i = v := by
  have hpos := hcmp.pos_iff v i
  have hneg := hcmp.neg_iff v i
  constructor
  · intro h0
    rw [h0] at hpos hneg
    exact le_antisymm (not_lt.mp (hneg.not.mp (lt_irrefl 0)))
      (not_lt.mp (hpos.not.mp (lt_irrefl 0)))
  · rintro rfl
    exact le_antisymm (not_lt.mp (hpos.not.mpr (lt_irrefl _)))
      (not_lt.mp (hneg.not.mpr (lt_irrefl _)))

theorem Follows.signMonotone (hcmp : Follows key cmp)
    (hxs : xs.Pairwise fun a b => key a < key b) (v : κ) : SignMonotone (cmp v) xs := by
  refine hxs.imp ?_
  intro a b hab hb
  have hbv : key b ≤ v := not_lt.mp ((hcmp.neg_iff v b).not.mp (not_lt.mpr hb))
  exact (hcmp.pos_iff v a).mpr (lt_of_lt_of_le hab hbv)

theorem Follows.not_mem_of_seqFind (hcmp : Follows key cmp) {n : ι}
    (hnone : seqFind xs (cmp (key n)) = none) : n ∉ xs := by
  intro hn
  exact List.find?_eq_none.mp hnone n hn
    (decide_eq_true ((hcmp.eq_zero_iff (key n) n).mpr rfl))

theorem Follows.admissible (hcmp : Follows key cmp)
    (hxs : xs.Pairwise fun a b => key a < key b) (op : KeyOp ι κ) :
    Admissible xs (op.toOp key cmp) := by
  cases op with
  | insert n => exact ⟨hcmp.signMonotone hxs (key n), hcmp.not_mem_of_seqFind⟩
  | remove v => exact hcmp.signMonotone hxs v
  | clear => trivial

variable [DecidableEq ι]

/-- A call keeps the keys ascending. -/
theorem Follows.seqStep_sorted (hcmp : Follows key cmp)
    (hxs : xs.Pairwise fun a b => key a < key b) (op : KeyOp ι κ) :
    (seqStep xs (op.toOp key cmp)).1.Pairwise fun a b => key a < key b := by
  cases op with
  | insert n =>
      simp only [KeyOp.toOp, seqStep]
      cases hfind : seqFind xs (cmp (key n)) with
      | some m => exact hxs
      | none =>
          -- the new key lies between those of the two parts
          refine List.pairwise_append.mpr ⟨hxs.filter _, ?_, ?_⟩
          · refine List.pairwise_cons.mpr ⟨?_, hxs.filter _⟩
            intro b hb
            exact (hcmp.neg_iff _ _).mp (of_decide_eq_true (List.mem_filter.mp hb).2)
          · intro a ha b hb
            have hal : key a < key n :=
              (hcmp.pos_iff _ _).mp (of_decide_eq_true (List.mem_filter.mp ha).2)
            rcases List.mem_cons.mp hb with rfl | hb
            · exact hal
            · exact hal.trans
                ((hcmp.neg_iff _ _).mp (of_decide_eq_true (List.mem_filter.mp hb).2))
  | remove v =>
      simp only [KeyOp.toOp, seqStep]
      cases hfind : seqFind xs (cmp v) with
      | some m => exact hxs.sublist List.erase_sublist
      | none => exact hxs
  | clear => exact List.Pairwise.nil

/-- The list holds its elements in the order of their keys. -/
def HoldsSorted (key : ι → κ) (list : SkipList ι) : Prop :=
  ∃ xs : List ι, Holds list xs ∧ xs.Pairwise fun a b => key a < key b

theorem HoldsSorted.step {list : SkipList ι} (hcmp : Follows key cmp)
    (h : HoldsSorted key list) (op : KeyOp ι κ) :
    HoldsSorted key (skiplistStep list (op.toOp key cmp)).1 := by
  obtain ⟨xs, hholds, hxs⟩ := h
  exact ⟨_, (skiplistStep_seqStep _ hholds (hcmp.admissible hxs op)).2,
    hcmp.seqStep_sorted hxs op⟩

theorem HoldsSorted.run {list : SkipList ι} (hcmp : Follows key cmp)
    (h : HoldsSorted key list) (ops : List (KeyOp ι κ)) :
    HoldsSorted key (runOut skiplistStep list (ops.map (KeyOp.toOp key cmp))).1 := by
  induction ops generalizing list with
  | nil => exact h
  | cons op ops ih => exact ih (h.step hcmp op)

omit [DecidableEq ι] in
theorem HoldsSorted.wellFormed {list : SkipList ι} (h : HoldsSorted key list) :
    WellFormed key list := by
  obtain ⟨xs, ⟨levels, r, rfl⟩, hxs⟩ := h
  refine ⟨?_, ?_, ?_, r.height_lt, ?_⟩
  · intro k
    exact ⟨levels k, r.heads_eq k, hxs.sublist (r.sublist_of_le (Nat.zero_le k))⟩
  · intro k
    rw [r.heads_eq, r.heads_eq]
    exact ((r.sublist k).map _).cons_cons _
  · intro k hk
    rw [r.heads_eq, r.above k hk, toHeads_nil]
  · rcases r.tight with h0 | hne
    · exact .inl h0
    · obtain ⟨i, hi⟩ := List.exists_mem_of_ne_nil _ hne
      refine .inr ⟨i, ?_⟩
      rw [r.heads_eq]
      exact List.mem_cons_of_mem _ (List.mem_map_of_mem hi)

theorem HoldsSorted.pathSet {list : SkipList ι} (hcmp : Follows key cmp)
    (h : HoldsSorted key list) (v : κ) : PathSet list (skiplistFind list (cmp v)).2 := by
  obtain ⟨xs, ⟨levels, r, rfl⟩, hxs⟩ := h
  refine ⟨?_, fun n _ hpath => skiplistLink_congr n hpath,
    fun n _ hpath => skiplistErase_congr n hpath⟩
  intro k hk
  rw [r.find_path (hcmp.signMonotone hxs v) hk]
  exact Option.some_ne_none _

/-- From the empty list and over every run of inserts, removes and clears, whatever the
random levels and for every order of the keys, the list is well formed, every search
sets all of the path that the link or the erase behind it reads, and a link touches
the eight levels only. -/
theorem skiplist_wellFormed (hcmp : Follows key cmp) (rand : ℕ → Bool)
    (ops : List (KeyOp ι κ)) :
    let list := (runOut skiplistStep (skiplistInit rand) (ops.map (KeyOp.toOp key cmp))).1
    WellFormed key list ∧
      (∀ v, PathSet list (skiplistFind list (cmp v)).2) ∧
      skiplistLinkTop list < skiplistLevels ∧
      ∀ n path k, skiplistLevels ≤ k →
        (skiplistLink list n path).heads k = list.heads k := by
  intro list
  have hinit : HoldsSorted key (skiplistInit (ι := ι) rand) :=
    ⟨[], holds_init rand, List.Pairwise.nil⟩
  have hlist : HoldsSorted key list := hinit.run hcmp ops
  refine ⟨hlist.wellFormed, hlist.pathSet hcmp, skiplistLinkTop_lt list, ?_⟩
  intro n path k hk
  exact skiplistLink_heads_of_lt list n path (lt_of_lt_of_le (skiplistLinkTop_lt list) hk)

end Keys

theorem intCmp_follows : Follows id intCmp := by
  constructor
  · intro v i
    simp only [intCmp, id_eq]
    grind
  · intro v i
    simp only [intCmp, id_eq]
    grind

theorem skiplist_wellFormed_ints :
    WellFormed id (runOut skiplistStep (skiplistInit fun i => i % 3 = 0)
      ([.insert 1, .insert 3, .insert 2, .remove 3].map (KeyOp.toOp id intCmp))).1 :=
  (skiplist_wellFormed intCmp_follows (fun i => i % 3 = 0)
    [.insert 1, .insert 3, .insert 2, .remove 3]).1

end Util

end Libvfn
