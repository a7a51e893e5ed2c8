import Libvfn.Util.SkipList.Update

/-!
# What is never read of the sentinel

The sentinel stands in front of every level and nowhere else (`Fronted`). The searches start at
it and compare the nodes behind it, so that what a comparator says of the sentinel does not
matter, whether the elements are in order or not; and no search returns it. A link and an erase
of an element keep it where it is.
-/

namespace Libvfn

namespace Util

open Linked

variable {ι : Type*}

def Fronted (heads : ℕ → List (Node ι)) : Prop := ∀ k, ∃ ys, heads k = toHeads ys

variable [DecidableEq ι] {list : SkipList ι} {heads : ℕ → List (Node ι)}

theorem Fronted.ne_sentinel (h : Fronted heads) {p n : Node ι} {k : ℕ}
    (hn : n ∈ after p (heads k)) : n ≠ .sentinel := by
  obtain ⟨ys, hys⟩ := h k
  rw [hys, toHeads, after] at hn
  have hmem : n ∈ ys.map Node.entry := by
    split_ifs at hn
    · exact hn
    · exact after_subset _ _ hn
  obtain ⟨i, -, rfl⟩ := List.mem_map.mp hmem
  simp

theorem Fronted.next_eq_some (h : Fronted heads) {p n : Node ι} {k : ℕ}
    (hn : skiplistNext heads p k = some n) : ∃ i, n = .entry i := by
  have hne := h.ne_sentinel (List.mem_of_mem_head? (Option.mem_def.mpr hn))
  cases n with
  | sentinel => exact absurd rfl hne
  | entry i => exact ⟨i, rfl⟩

/-! ## Searches -/

theorem Fronted.descend_congr (h : Fronted list.heads) {go go' : Node ι → Bool}
    (hgo : ∀ i, go (.entry i) = go' (.entry i)) (k : ℕ) (p : Node ι) (path : Path ι) :
    skiplistDescend list go k p path = skiplistDescend list go' k p path := by
  have hlevel : ∀ k p, advance go p (after p (list.heads k)) =
      advance go' p (after p (list.heads k)) := by
    refine fun k p => advance_congr (fun n hn => ?_) p
    cases n with
    | sentinel => exact absurd rfl (h.ne_sentinel hn)
    | entry i => exact hgo i
  induction k generalizing p path with
  | zero => rw [skiplistDescend, skiplistDescend, hlevel]
  | succ k ih => rw [skiplistDescend, skiplistDescend, hlevel, ih]

theorem Fronted.descend_next (h : Fronted list.heads) {go : Node ι → Bool} {k : ℕ} {p n : Node ι}
    {path : Path ι} (hn : (skiplistDescend list go k p path).next = some n) :
    n ≠ .sentinel := by
  induction k generalizing p path with
  | zero => exact h.ne_sentinel (mem_of_advance_snd hn)
  | succ k ih => exact ih hn

section Congr

variable {cmp cmp' : Node ι → ℤ} (h : Fronted list.heads)
  (hcmp : ∀ i, cmp (.entry i) = cmp' (.entry i))

include h hcmp

theorem Fronted.find_congr : skiplistFind list cmp = skiplistFind list cmp' := by
  have hdescend : skiplistDescend list (fun n => 0 < cmp n) list.height .sentinel (fun _ => none) =
      skiplistDescend list (fun n => 0 < cmp' n) list.height .sentinel fun _ => none :=
    h.descend_congr (fun i => by rw [hcmp]) _ _ _
  rw [skiplistFind, skiplistFind, hdescend]
  refine Prod.ext ?_ rfl
  dsimp only
  cases hnext : (skiplistDescend list (fun n => 0 < cmp' n) list.height .sentinel
    fun _ => none).next with
  | none => rfl
  | some n =>
      cases n with
      | sentinel => exact absurd rfl (h.descend_next hnext)
      | entry i => rw [Option.filter_some, Option.filter_some, hcmp]

theorem Fronted.findLe_congr : skiplistFindLe list cmp = skiplistFindLe list cmp' := by
  have hdescend : skiplistDescend list (fun n => 0 ≤ cmp n) list.height .sentinel (fun _ => none) =
      skiplistDescend list (fun n => 0 ≤ cmp' n) list.height .sentinel fun _ => none :=
    h.descend_congr (fun i => by rw [hcmp]) _ _ _
  rw [skiplistFindLe, skiplistFindLe, hdescend]

theorem Fronted.findGe_congr : skiplistFindGe list cmp = skiplistFindGe list cmp' := by
  have hdescend : skiplistDescend list (fun n => 0 < cmp n) list.height .sentinel (fun _ => none) =
      skiplistDescend list (fun n => 0 < cmp' n) list.height .sentinel fun _ => none :=
    h.descend_congr (fun i => by rw [hcmp]) _ _ _
  rw [skiplistFindGe, skiplistFindGe, hdescend]

end Congr

theorem findLe_eq_some {cmp : Node ι → ℤ} {n : Node ι}
    (hn : (skiplistFindLe list cmp).1 = some n) : ∃ i, n = .entry i := by
  rw [skiplistFindLe] at hn
  dsimp only at hn
  split_ifs at hn with hpos
  obtain rfl := Option.some.inj hn
  cases hnode : (skiplistDescend list (fun n => 0 ≤ cmp n) list.height .sentinel
    fun _ => none).pos with
  | sentinel => exact absurd hnode hpos
  | entry i => exact ⟨i, rfl⟩

theorem Fronted.findGe_eq_some (h : Fronted list.heads) {cmp : Node ι → ℤ} {n : Node ι}
    (hn : (skiplistFindGe list cmp).1 = some n) : ∃ i, n = .entry i := by
  have hne := h.descend_next hn
  cases n with
  | sentinel => exact absurd rfl hne
  | entry i => exact ⟨i, rfl⟩

/-! ## Links and erases -/

theorem insertAfter_toHeads (p : Node ι) (n : ι) (ys : List ι) :
    ∃ zs, insertAfter p (.entry n) (toHeads ys) = toHeads zs := by
  have hmap : ∀ ys : List ι, ∃ zs : List ι, insertAfter p (.entry n) (ys.map Node.entry) =
      zs.map Node.entry := by
    intro ys
    induction ys with
    | nil => exact ⟨[], rfl⟩
    | cons y ys ih =>
        obtain ⟨zs, hzs⟩ := ih
        rw [List.map_cons, insertAfter]
        split_ifs
        · exact ⟨y :: n :: ys, rfl⟩
        · exact ⟨y :: zs, by rw [hzs, List.map_cons]⟩
  rw [toHeads, insertAfter]
  split_ifs
  · exact ⟨n :: ys, rfl⟩
  · obtain ⟨zs, hzs⟩ := hmap ys
    exact ⟨zs, by rw [hzs, toHeads]⟩

omit [DecidableEq ι] in
theorem Fronted.update (h : Fronted heads) (k : ℕ) (ys : List ι) :
    Fronted (Function.update heads k (toHeads ys)) := by
  intro j
  by_cases hj : j = k
  · exact ⟨ys, by rw [hj, Function.update_self]⟩
  · rw [Function.update_of_ne hj]
    exact h j

theorem Fronted.addAfter (h : Fronted heads) (p : Option (Node ι)) (n : ι) (k : ℕ) :
    Fronted (skiplistAddAfter heads p (.entry n) k) := by
  cases p with
  | none => exact h
  | some p =>
      obtain ⟨ys, hys⟩ := h k
      obtain ⟨zs, hzs⟩ := insertAfter_toHeads p n ys
      rw [skiplistAddAfter, hys, hzs]
      exact h.update k zs

theorem Fronted.linkDown (h : Fronted heads) (n : ι) (update : Path ι) (k : ℕ) :
    Fronted (skiplistLinkDown (.entry n) update k heads) := by
  induction k generalizing heads with
  | zero => exact h.addAfter _ n 0
  | succ k ih => exact ih (h.addAfter _ n (k + 1))

theorem Fronted.link (h : Fronted list.heads) (n : ι) (update : Path ι) :
    Fronted (skiplistLink list (.entry n) update).heads := by
  rw [skiplistLink]
  dsimp only
  split_ifs
  · exact h.linkDown n _ _
  · exact h.linkDown n _ _

theorem Fronted.eraseUp (h : Fronted heads) (n : ι) (update : Path ι) (fuel k : ℕ) :
    Fronted (skiplistEraseUp (.entry n) update fuel k heads) := by
  induction fuel generalizing k heads with
  | zero => exact h
  | succ fuel ih =>
      rw [skiplistEraseUp]
      split_ifs
      · obtain ⟨ys, hys⟩ := h k
        rw [hys, toHeads_erase]
        exact ih (h.update k _) (k + 1)
      · exact h

theorem Fronted.erase (h : Fronted list.heads) (n : ι) (update : Path ι) :
    Fronted (skiplistErase list (.entry n) update).heads :=
  h.eraseUp n update (list.height + 1) 0

end Util

end Libvfn
