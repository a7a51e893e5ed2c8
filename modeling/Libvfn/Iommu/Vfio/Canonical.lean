import Libvfn.Iommu.Vfio.Coalesce

/-!
# The list of free addresses is canonical

Ranges that touch are merged, so the list of free addresses is determined by the set of
addresses that it covers: two lists that cover the same addresses have the same ranges,
whatever was put into them and taken out of them, and in which order. What a
reservation takes from a list is determined by its ranges.
-/

namespace Libvfn

namespace Iommu

open Word Support Util Spans Linked

/-- The list is well formed, and its ranges do not touch. -/
structure Tidy (fl : FreeList) (xs : List ℕ) : Prop extends Free fl xs where
  separate : Separate fl.lo fl.hi xs

theorem tidy_init (rand : ℕ → Bool) (garbage : FreeRange) : Tidy (freeListInit rand garbage) [] :=
  ⟨free_init rand garbage, .nil⟩

variable {fl : FreeList} {xs l r : List ℕ} {i : ℕ} {start len : U64}

theorem Tidy.erase (h : Tidy fl (l ++ i :: r)) : Tidy (iovaErase fl (.entry i)) (l ++ r) :=
  ⟨h.toFree.erase.1,
    h.separate.sublist (List.Sublist.append_left (List.sublist_cons_self i r) l)⟩

/-- A range that changes in place touches no other one if it did not before and its new ends
do not. -/
theorem Free.tidy_set (h : Free (fl.set i ⟨start, len⟩) (l ++ i :: r))
    (hsep : Separate fl.lo fl.hi (l ++ i :: r)) (hprev : ∀ b ∈ l, fl.hi b ≠ start.toNat)
    (hnext : ∀ b ∈ r, fl.lo b ≠ start.toNat + len.toNat) :
    Tidy (fl.set i ⟨start, len⟩) (l ++ i :: r) := by
  have hholds : Holds fl.list (l ++ i :: r) := h.holds
  obtain ⟨hsetl, hsetr⟩ := set_others hholds ⟨start, len⟩
  have hsepl : Separate fl.lo fl.hi l := hsep.sublist (List.sublist_append_left l _)
  have hsepr : Separate fl.lo fl.hi r :=
    hsep.sublist ((List.sublist_cons_self i r).trans (List.sublist_append_right l _))
  refine ⟨h, h.apart.separate_of_ne ((separate_congr hsetl).mpr hsepl)
    ((separate_congr hsetr).mpr hsepr) ?_ ?_⟩
  · intro b hb
    rw [(hsetl b hb).2, lo_set_self]
    exact hprev b hb
  · intro b hb
    rw [(hsetr b hb).1, hi_set_self]
    exact hnext b hb

theorem Free.findLe_none (h : Free fl xs)
    (hfind : (skiplistFindLe fl.list (iovaFreeRangeCmp fl.range start)).1 = none) :
    ∀ a ∈ xs, start.toNat < fl.lo a := by
  intro a ha
  rw [h.holds.findLe_spec (signMonotone_cmp h start), Option.map_eq_none_iff,
    List.getLast?_eq_none_iff, List.filter_eq_nil_iff] at hfind
  have hneg := hfind a ha
  rw [decide_eq_true_iff, cmp_nonneg_iff, not_le] at hneg
  exact hneg

theorem Free.findGe_none (h : Free fl xs)
    (hfind : (skiplistFindGe fl.list (iovaFreeRangeCmp fl.range start)).1 = none) :
    ∀ a ∈ xs, fl.lo a < start.toNat := by
  intro a ha
  rw [h.holds.findGe_spec (signMonotone_cmp h start), Option.map_eq_none_iff,
    List.find?_eq_none] at hfind
  have hpos := hfind a ha
  rw [decide_eq_true_iff, not_le, cmp_pos_iff] at hpos
  exact hpos

/-- A range of its own touches no other one. -/
theorem Tidy.separate_link {xs' : List ℕ} (h : Tidy fl xs)
    (hholds : Holds (iovaLinkFree fl start len).list xs')
    (hapart : Apart (iovaLinkFree fl start len).lo (iovaLinkFree fl start len).hi xs')
    (hprev : ∀ a ∈ xs, fl.hi a ≠ start.toNat)
    (hnext : ∀ a ∈ xs, fl.lo a ≠ start.toNat + len.toNat) :
    Separate (iovaLinkFree fl start len).lo (iovaLinkFree fl start len).hi xs' := by
  have hnew : fl.fresh ∉ xs := fun hmem => (h.fresh _ hmem).false
  obtain ⟨h1, -⟩ := h.toFree.set_of_not_mem hnew ⟨start, len⟩
  obtain rfl := hholds.unique (h1.holds.link_spec (signMonotone_cmp h1 start) hnew)
  have hset : ∀ a ∈ xs, (iovaLinkFree fl start len).lo a = fl.lo a ∧
      (iovaLinkFree fl start len).hi a = fl.hi a :=
    fun a ha => set_of_ne fun heq => hnew (heq ▸ ha)
  have hsep := (separate_congr hset).mpr h.separate
  have hlo : (iovaLinkFree fl start len).lo fl.fresh = start.toNat := lo_set_self
  have hhi : (iovaLinkFree fl start len).hi fl.fresh = start.toNat + len.toNat := hi_set_self
  refine hapart.separate_of_ne (hsep.sublist (List.takeWhile_sublist _))
    (hsep.sublist (List.dropWhile_sublist _)) (fun b hb => ?_) (fun b hb => ?_)
  · have hmem := (List.takeWhile_sublist _).subset hb
    rw [(hset b hmem).2, hlo]
    exact hprev b hmem
  · have hmem := (List.dropWhile_sublist _).subset hb
    rw [(hset b hmem).1, hhi]
    exact hnext b hmem

section Put

variable (h : Tidy fl xs) (hpos : 0 < len.toNat) (hsmall : start.toNat + len.toNat < 2 ^ 64)
  (hgap : ∀ x, start.toNat ≤ x → x < start.toNat + len.toNat → ¬fl.Has xs x)

include h hpos hsmall hgap

theorem iovaLinkFree_tidy (hprev : ∀ a ∈ xs, fl.hi a ≠ start.toNat)
    (hnext : ∀ a ∈ xs, fl.lo a ≠ start.toNat + len.toNat) :
    ∃ xs', Tidy (iovaLinkFree fl start len) xs' := by
  obtain ⟨xs', hfree, -⟩ := iovaLinkFree_spec h.toFree hpos hsmall hgap
  exact ⟨xs', hfree, h.separate_link hfree.holds hfree.apart hprev hnext⟩

/-- If no range ends where the block starts, then the block is a range of its own or extends
the next one. -/
theorem iovaExtendNext_tidy (hprev : ∀ a ∈ xs, fl.hi a ≠ start.toNat) :
    ∃ xs', Tidy (iovaExtendNext fl start len) xs' := by
  obtain ⟨xs', hfree, -⟩ := iovaExtendNext_spec h.toFree hpos hsmall hgap
  rw [iovaExtendNext] at hfree ⊢
  cases hfind : (skiplistFindGe fl.list (iovaFreeRangeCmp fl.range start)).1 with
  | none =>
      refine iovaLinkFree_tidy h hpos hsmall hgap hprev fun a ha => ?_
      have hlt := h.toFree.findGe_none hfind a ha
      omega
  | some next =>
      rw [hfind] at hfree
      obtain ⟨l, p, r, rfl, rfl, hp, hl⟩ := h.toFree.findGe_split hfind
      dsimp only at hfree ⊢
      split_ifs at hfree ⊢ with htouch
      · obtain rfl := hfree.holds.unique h.holds
        have hne := h.apart.nonempty p (by simp)
        obtain ⟨-, hhi⟩ := FreeList.hi_extend_next hsmall (h.small p (by simp)) htouch
        refine ⟨_, Free.tidy_set hfree h.separate (fun b hb => hprev b (by simp [hb])) ?_⟩
        intro b hb
        rw [hhi]
        exact (((separate_append_cons hne.le).mp h.separate).2.2.2 b hb).ne'
      · refine iovaLinkFree_tidy h hpos hsmall hgap hprev fun a ha heq => ?_
        have hbehind := h.apart.le_lo_of_le hgap (by simp) hp
        rcases List.mem_append.mp ha with ha | ha
        · have hlt := hl a ha
          omega
        · rcases List.mem_cons.mp ha with rfl | ha
          · refine htouch (BitVec.eq_of_toNat_eq ?_)
            rw [BitVec.toNat_add_of_lt hsmall]
            exact heq.symm
          · have hne := h.apart.nonempty p (by simp)
            have hlt := ((separate_append_cons hne.le).mp h.separate).2.2.2 a ha
            omega

end Put

/-- A range that takes the next one in touches no other one if neither of the two did. -/
theorem Free.tidy_merge {q : ℕ} (h : Free fl (l ++ i :: q :: r))
    (hi : fl.range (.entry i) = ⟨start, len⟩)
    (htouch : start + len = (fl.range (.entry q)).start)
    (hsepl : Separate fl.lo fl.hi l) (hsepr : Separate fl.lo fl.hi (q :: r))
    (hfront : ∀ b ∈ l, fl.hi b ≠ start.toNat) :
    Tidy (iovaErase (fl.set i ⟨start, len + (fl.range (.entry q)).len⟩) (.entry q))
      (l ++ i :: r) := by
  obtain ⟨hhi, hfree, -⟩ := h.merge_next hi htouch
  obtain ⟨hqr, hsepr⟩ := List.pairwise_cons.mp hsepr
  obtain ⟨hsetl, hsetr⟩ := set_others h.holds ⟨start, len + (fl.range (.entry q)).len⟩
  have hsetr' := fun b (hb : b ∈ r) => hsetr b (List.mem_cons_of_mem q hb)
  refine ⟨hfree, hfree.apart.separate_of_ne ((separate_congr hsetl).mpr hsepl)
    ((separate_congr hsetr').mpr hsepr) (fun b hb heq => ?_) (fun b hb heq => ?_)⟩
  · exact hfront b hb ((hsetl b hb).2.symm.trans (heq.trans lo_set_self))
  · exact (hqr b hb).ne' ((hsetr' b hb).1.symm.trans (heq.trans hhi))

/-- If a range ends where the block starts, then it is extended, and may take the next one
in. -/
theorem iovaExtendPrev_tidy (h : Tidy fl (l ++ i :: r)) (hpos : 0 < len.toNat)
    (hsmall : start.toNat + len.toNat < 2 ^ 64)
    (hgap : ∀ x, start.toNat ≤ x → x < start.toNat + len.toNat → ¬fl.Has (l ++ i :: r) x)
    (hprev : fl.hi i = start.toNat) : ∃ xs', Tidy (iovaExtendPrev fl (.entry i) len) xs' := by
  obtain ⟨hhi, h1, -⟩ := h.toFree.extend hpos hsmall hgap hprev
  have hne := h.apart.nonempty i (by simp)
  obtain ⟨hsepl, hsepr, hl, hr⟩ := (separate_append_cons hne.le).mp h.separate
  have hfront : ∀ b ∈ l, fl.hi b ≠ (fl.range (.entry i)).start.toNat := fun b hb => (hl b hb).ne
  obtain ⟨hsetl, hsetr⟩ := set_others h.holds
    ⟨(fl.range (.entry i)).start, (fl.range (.entry i)).len + len⟩
  rw [hi_set_self] at hhi
  dsimp only at hhi
  cases r with
  | nil =>
      rw [iovaExtendPrev_last fl h.toFree.next_eq]
      exact ⟨_, Free.tidy_set h1 h.separate hfront (by simp)⟩
  | cons q r =>
      rw [iovaExtendPrev_next fl h.toFree.next_eq]
      dsimp only
      split_ifs with htouch
      · refine ⟨_, h1.tidy_merge (by simp [FreeList.set]) htouch
          ((separate_congr hsetl).mpr hsepl) ((separate_congr hsetr).mpr hsepr) fun b hb => ?_⟩
        rw [(hsetl b hb).2]
        exact hfront b hb
      · refine ⟨_, Free.tidy_set h1 h.separate hfront fun b hb heq => ?_⟩
        rw [hhi] at heq
        have hneq := h.apart.nonempty q (by simp)
        have hbehind : start.toNat + len.toNat ≤ fl.lo q :=
          h.apart.le_lo_of_le hgap (by simp) (hprev ▸ (hr q (by simp)).le)
        rcases List.mem_cons.mp hb with rfl | hb
        · refine htouch (BitVec.eq_of_toNat_eq ?_)
          rw [BitVec.toNat_add_of_lt (hhi ▸ hsmall), hhi]
          exact heq.symm.trans (hsetr b (by simp)).1.symm
        · have hlt := (List.pairwise_cons.mp hsepr).1 b hb
          omega

/-- The two ways to put a block back: the range that ends where the block starts takes it in,
or there is no such range. -/
theorem Tidy.putFree_cases (h : Tidy fl xs) (start len : U64) :
    (∃ l p r, xs = l ++ p :: r ∧ fl.hi p = start.toNat ∧
      iovaPutFree fl start len = iovaExtendPrev fl (.entry p) len) ∨
    ((∀ a ∈ xs, fl.hi a ≠ start.toNat) ∧
      iovaPutFree fl start len = iovaExtendNext fl start len) := by
  rw [iovaPutFree]
  cases hfind : (skiplistFindLe fl.list (iovaFreeRangeCmp fl.range start)).1 with
  | none =>
      refine .inr ⟨fun a ha heq => ?_, rfl⟩
      have hlt := h.toFree.findLe_none hfind a ha
      have hne := h.apart.nonempty a ha
      omega
  | some prev =>
      obtain ⟨l, p, r, rfl, rfl, hp, hr⟩ := h.toFree.findLe_split hfind
      have hend : ((fl.range (.entry p)).start + (fl.range (.entry p)).len).toNat = fl.hi p :=
        BitVec.toNat_add_of_lt (h.small p (by simp))
      dsimp only
      split_ifs with htouch
      · exact .inl ⟨l, p, r, rfl, hend.symm.trans (congrArg _ htouch), rfl⟩
      · refine .inr ⟨fun a ha heq => ?_, rfl⟩
        have hnep := h.apart.nonempty p (by simp)
        rcases List.mem_append.mp ha with ha | ha
        · have hlt := ((separate_append_cons hnep.le).mp h.separate).2.2.1 a ha
          omega
        · rcases List.mem_cons.mp ha with rfl | ha
          · exact htouch (BitVec.eq_of_toNat_eq (hend.trans heq))
          · have hlt := hr a ha
            have hne := h.apart.nonempty a (by simp [ha])
            omega

theorem iovaPutFree_tidy (h : Tidy fl xs) (hpos : 0 < len.toNat)
    (hsmall : start.toNat + len.toNat < 2 ^ 64)
    (hgap : ∀ x, start.toNat ≤ x → x < start.toNat + len.toNat → ¬fl.Has xs x) :
    ∃ xs', Tidy (iovaPutFree fl start len) xs' ∧ ∀ x, (iovaPutFree fl start len).Has xs' x ↔
      fl.Has xs x ∨ (start.toNat ≤ x ∧ x < start.toNat + len.toNat) := by
  obtain ⟨xs', hfree, hhas⟩ := iovaPutFree_spec h.toFree hpos hsmall hgap
  suffices htidy : ∃ ys, Tidy (iovaPutFree fl start len) ys by
    obtain ⟨ys, htidy⟩ := htidy
    obtain rfl := hfree.holds.unique htidy.holds
    exact ⟨_, htidy, hhas⟩
  obtain ⟨l, p, r, rfl, hprev, heq⟩ | ⟨hprev, heq⟩ := h.putFree_cases start len
  · rw [heq]
    exact iovaExtendPrev_tidy h hpos hsmall hgap hprev
  · rw [heq]
    exact iovaExtendNext_tidy h hpos hsmall hgap hprev

theorem iovaGetFree_tidy {iova : U64} {fl' : FreeList} (h : Tidy fl xs)
    (hget : iovaGetFree fl len = some (iova, fl')) :
    ∃ xs', Tidy fl' xs' ∧ ∀ x, fl'.Has xs' x ↔
      fl.Has xs x ∧ ¬(iova.toNat ≤ x ∧ x < iova.toNat + len.toNat) := by
  obtain ⟨-, xs', hfree, hhas⟩ := iovaGetFree_spec h.toFree hget
  suffices htidy : ∃ ys, Tidy fl' ys by
    obtain ⟨ys, htidy⟩ := htidy
    obtain rfl := hfree.holds.unique htidy.holds
    exact ⟨_, htidy, hhas⟩
  rw [iovaGetFree, Option.map_eq_some_iff] at hget
  obtain ⟨n, hbest, hfl'⟩ := hget
  rcases iovaBestFit_eq_some hbest with hnone | ⟨hmem, hsent, hfit⟩
  · simp at hnone
  obtain ⟨l, i, r, rfl, rfl⟩ := h.toFree.split_of_mem_heads hmem hsent
  have hne := h.apart.nonempty i (by simp)
  obtain ⟨-, -, hl, hr⟩ := (separate_append_cons hne.le).mp h.separate
  dsimp only at hfl'
  split_ifs at hfl' with hwhole
  · obtain ⟨-, rfl⟩ := Prod.mk.inj hfl'
    exact ⟨l ++ r, h.erase⟩
  · obtain ⟨-, rfl⟩ := Prod.mk.inj hfl'
    obtain ⟨-, hlo, hhi⟩ := FreeList.toNat_cut_front (h.small i (by simp)) hfit hwhole
    obtain rfl := hfree.holds.unique h.holds
    refine ⟨_, Free.tidy_set hfree h.separate (fun b hb => ?_) fun b hb => ?_⟩
    · have hlt := hl b hb
      omega
    · rw [hhi]
      exact (hr b hb).ne'

theorem iovaGetFreeAlign_tidy {align iova : U64} {fl' : FreeList} (h : Tidy fl xs)
    (hget : iovaGetFreeAlign fl len align = some (iova, fl')) :
    ∃ xs', Tidy fl' xs' ∧ ∀ x, fl'.Has xs' x ↔
      fl.Has xs x ∧ ¬(iova.toNat ≤ x ∧ x < iova.toNat + len.toNat) :=
  (iovaGetFreeAlign_keeps (fun _ _ h => h.toFree) (fun _ _ _ _ h => h.erase)
    (fun _ _ _ _ => iovaPutFree_tidy) h hget).2

/-! ## Lists that cover the same addresses -/

structure Alike (fl : FreeList) (xs : List ℕ) (fl' : FreeList) (xs' : List ℕ) : Prop where
  left : Tidy fl xs
  right : Tidy fl' xs'
  has_iff : ∀ x, fl.Has xs x ↔ fl'.Has xs' x

variable {fl' : FreeList} {xs' : List ℕ} {align : U64}

theorem Alike.ranges_eq (h : Alike fl xs fl' xs') :
    xs.map (fun i => fl.range (.entry i)) = xs'.map fun i => fl'.range (.entry i) := by
  have hends := h.left.separate.eq_of_covers_iff h.left.apart h.right.separate h.right.apart
    h.has_iff
  have hrange : ∀ (fl : FreeList) (xs : List ℕ), xs.map (fun i => fl.range (.entry i)) =
      (xs.map fun i => (fl.lo i, fl.hi i)).map fun ends =>
        ⟨BitVec.ofNat 64 ends.1, BitVec.ofNat 64 (ends.2 - ends.1)⟩ := by
    intro fl xs
    rw [List.map_map]
    refine List.map_congr_left fun i _ => ?_
    dsimp only [Function.comp]
    rw [FreeList.hi, FreeList.lo, Nat.add_sub_cancel_left, BitVec.ofNat_toNat, BitVec.ofNat_toNat]
    rfl
  rw [hrange fl, hrange fl', hends]

/-- The range of the best fit depends on the ranges only. -/
theorem iovaBestFit_congr {range range' : Node ℕ → FreeRange} {size : U64}
    {best best' : Option (Node ℕ)}
    (hranges : xs.map (fun i => range (.entry i)) = xs'.map fun i => range' (.entry i))
    (hbest : best.map range = best'.map range') :
    (iovaBestFit range len (xs.map Node.entry) best size).map range =
      (iovaBestFit range' len (xs'.map Node.entry) best' size).map range' := by
  induction xs generalizing xs' best best' size with
  | nil =>
      obtain rfl := List.map_eq_nil_iff.mp hranges.symm
      exact hbest
  | cons i xs ih =>
      obtain ⟨j, xs', rfl, hij, hrest⟩ := List.map_eq_cons_iff.mp hranges.symm
      simp only [List.map_cons, iovaBestFit, reduceCtorEq, if_false, hij]
      split_ifs
      · exact congrArg some hij.symm
      · exact ih hrest.symm (congrArg some hij.symm)
      · exact ih hrest.symm hbest

theorem iovaBestFitAlign_congr {range range' : Node ℕ → FreeRange} {size : U64}
    {best best' : Option (Node ℕ × U64)}
    (hranges : xs.map (fun i => range (.entry i)) = xs'.map fun i => range' (.entry i))
    (hbest : best.map (Prod.map range id) = best'.map (Prod.map range' id)) :
    (iovaBestFitAlign range len align (xs.map Node.entry) best size).map (Prod.map range id) =
      (iovaBestFitAlign range' len align (xs'.map Node.entry) best' size).map
        (Prod.map range' id) := by
  induction xs generalizing xs' best best' size with
  | nil =>
      obtain rfl := List.map_eq_nil_iff.mp hranges.symm
      exact hbest
  | cons i xs ih =>
      obtain ⟨j, xs', rfl, hij, hrest⟩ := List.map_eq_cons_iff.mp hranges.symm
      simp only [List.map_cons, iovaBestFitAlign, reduceCtorEq, false_or, hij]
      split_ifs
      · exact ih hrest.symm hbest
      · exact congrArg (fun r => some (r, _)) hij.symm
      · exact ih hrest.symm (congrArg (fun r => some (r, _)) hij.symm)
      · exact ih hrest.symm hbest

theorem Alike.iovaGetFree_fst (h : Alike fl xs fl' xs') (len : U64) :
    (iovaGetFree fl len).map Prod.fst = (iovaGetFree fl' len).map Prod.fst := by
  have hfst : ∀ fl : FreeList, (iovaGetFree fl len).map Prod.fst =
      ((iovaGetFreeRange fl len).map fl.range).map FreeRange.start := by
    intro fl
    rw [iovaGetFree, Option.map_map, Option.map_map]
    refine congrArg (Option.map · _) (funext fun n => ?_)
    dsimp only [Function.comp]
    split_ifs <;> rfl
  rw [hfst, hfst, iovaGetFreeRange, iovaGetFreeRange, h.left.holds.heads_zero,
    h.right.holds.heads_zero]
  simp only [toHeads, iovaBestFit, if_true]
  exact congrArg (Option.map FreeRange.start) (iovaBestFit_congr h.ranges_eq rfl)

theorem Alike.iovaGetFreeAlign_fst (h : Alike fl xs fl' xs') (len align : U64) :
    (iovaGetFreeAlign fl len align).map Prod.fst =
      (iovaGetFreeAlign fl' len align).map Prod.fst := by
  have hfst : ∀ fl : FreeList, (iovaGetFreeAlign fl len align).map Prod.fst =
      ((iovaBestFitAlign fl.range len align (fl.list.heads 0) none (-1)).map
        (Prod.map fl.range id)).map Prod.snd := by
    intro fl
    rw [iovaGetFreeAlign, Option.map_map, Option.map_map]
    rfl
  rw [hfst, hfst, h.left.holds.heads_zero, h.right.holds.heads_zero]
  simp only [toHeads, iovaBestFitAlign, true_or, if_true]
  exact congrArg (Option.map Prod.snd) (iovaBestFitAlign_congr h.ranges_eq rfl)

/-- What two lists that are alike offer, and what is left of them. -/
theorem Alike.taken {got got' : Option (U64 × FreeList)} (h : Alike fl xs fl' xs')
    (hfst : got.map Prod.fst = got'.map Prod.fst)
    (hgot : ∀ iova fl₁, got = some (iova, fl₁) → ∃ xs₁, Tidy fl₁ xs₁ ∧ ∀ x, fl₁.Has xs₁ x ↔
      fl.Has xs x ∧ ¬(iova.toNat ≤ x ∧ x < iova.toNat + len.toNat))
    (hgot' : ∀ iova fl₁, got' = some (iova, fl₁) → ∃ xs₁, Tidy fl₁ xs₁ ∧ ∀ x, fl₁.Has xs₁ x ↔
      fl'.Has xs' x ∧ ¬(iova.toNat ≤ x ∧ x < iova.toNat + len.toNat)) :
    (got = none ∧ got' = none) ∨ ∃ iova fl₁ fl₁' xs₁ xs₁', got = some (iova, fl₁) ∧
      got' = some (iova, fl₁') ∧ Alike fl₁ xs₁ fl₁' xs₁' := by
  obtain _ | ⟨iova, fl₁⟩ := got
  · exact .inl ⟨rfl, Option.map_eq_none_iff.mp hfst.symm⟩
  · obtain ⟨⟨iova, fl₁'⟩, rfl, rfl⟩ := Option.map_eq_some_iff.mp hfst.symm
    obtain ⟨xs₁, htidy, hhas⟩ := hgot iova fl₁ rfl
    obtain ⟨xs₁', htidy', hhas'⟩ := hgot' iova fl₁' rfl
    refine .inr ⟨iova, fl₁, fl₁', xs₁, xs₁', rfl, rfl, htidy, htidy', fun x => ?_⟩
    rw [hhas, hhas', h.has_iff]

/-! ## Whole pages -/

section Pages

variable {p k : ℕ} {iova : U64}

theorem iovaGetFree_dvd (h : Tidy fl xs) (hp : 0 < p) (hpaged : Paged p {x | fl.Has xs x})
    (hget : iovaGetFree fl len = some (iova, fl')) : p ∣ iova.toNat := by
  rw [iovaGetFree, Option.map_eq_some_iff] at hget
  obtain ⟨n, hbest, hfl'⟩ := hget
  rcases iovaBestFit_eq_some hbest with hnone | ⟨hmem, hsent, -⟩
  · simp at hnone
  obtain ⟨l, i, r, rfl, rfl⟩ := h.toFree.split_of_mem_heads hmem hsent
  have hlo := (h.separate.dvd_ends h.apart hp hpaged (a := i) (by simp)).1
  dsimp only at hfl'
  split_ifs at hfl' with hwhole
  · obtain ⟨rfl, -⟩ := Prod.mk.inj hfl'
    exact hlo
  · obtain ⟨rfl, -⟩ := Prod.mk.inj hfl'
    exact hlo

theorem iovaGetFreeAlign_dvd (hk : k < 64) (halign : align ≠ 0) (hdvd : 2 ^ k ∣ align.toNat)
    (hget : iovaGetFreeAlign fl len align = some (iova, fl')) : 2 ^ k ∣ iova.toNat := by
  rw [iovaGetFreeAlign, Option.map_eq_some_iff] at hget
  obtain ⟨⟨n, aligned⟩, hbest, hfl'⟩ := hget
  obtain ⟨rfl, -⟩ := Prod.mk.inj hfl'
  rcases iovaBestFitAlign_eq_some hbest with hnone | ⟨-, rfl, -⟩
  · simp at hnone
  · exact dvd_alignUp _ hk halign hdvd

theorem iovaBestFit_isSome_of_isSome {range : Node ℕ → FreeRange} {size : U64}
    {ns : List (Node ℕ)} {best : Option (Node ℕ)} (hbest : best.isSome) :
    (iovaBestFit range len ns best size).isSome := by
  induction ns generalizing best size with
  | nil => exact hbest
  | cons m ns ih =>
      rw [iovaBestFit]
      split_ifs
      · exact ih hbest
      · rfl
      · exact ih rfl
      · exact ih hbest

/-- A node that is large enough is found, or another one. -/
theorem iovaBestFit_isSome {range : Node ℕ → FreeRange} {size : U64} {ns : List (Node ℕ)}
    {best : Option (Node ℕ)} {n : Node ℕ} (hn : n ∈ ns) (hsent : n ≠ .sentinel)
    (hfit : len ≤ (range n).len) (hsize : (range n).len < size) :
    (iovaBestFit range len ns best size).isSome := by
  induction ns generalizing best with
  | nil => exact absurd hn List.not_mem_nil
  | cons m ns ih =>
      rw [iovaBestFit]
      split_ifs with hm hbetter
      · rcases List.mem_cons.mp hn with rfl | hn
        · exact absurd hm hsent
        · exact ih hn
      · rfl
      · exact iovaBestFit_isSome_of_isSome rfl
      · rcases List.mem_cons.mp hn with rfl | hn
        · exact absurd ⟨hfit, hsize⟩ hbetter
        · exact ih hn

/-- A list that covers whole pages offers one, unless it is empty. -/
theorem iovaGetFree_page_isSome (h : Tidy fl xs) (hk : k < 64) (hpos : 0 < k)
    (hpaged : Paged (2 ^ k) {x | fl.Has xs x}) (hne : xs ≠ []) :
    (iovaGetFree fl (BitVec.twoPow 64 k)).isSome := by
  obtain ⟨i, r, rfl⟩ := List.exists_cons_of_ne_nil hne
  have hi := h.apart.nonempty i List.mem_cons_self
  have hsmall := h.small i List.mem_cons_self
  obtain ⟨hlo, hhi⟩ := h.separate.dvd_ends h.apart (Nat.two_pow_pos k) hpaged
    (a := i) List.mem_cons_self
  rw [FreeList.hi] at hhi hi hsmall
  rw [FreeList.lo] at hlo hi
  have hdvd : 2 ^ k ∣ (fl.range (.entry i)).len.toNat := (Nat.dvd_add_right hlo).mp hhi
  -- the largest word is odd, so no range is that large
  have htwo : 2 ∣ (fl.range (.entry i)).len.toNat := (dvd_pow_self 2 hpos.ne').trans hdvd
  have hmax : (-1 : U64).toNat = 2 ^ 64 - 1 := rfl
  rw [iovaGetFree, Option.isSome_map, iovaGetFreeRange, h.holds.heads_zero]
  refine iovaBestFit_isSome (n := .entry i) (by simp [toHeads]) (by simp) ?_ ?_
  · rw [BitVec.le_def, toNat_twoPow hk]
    exact Nat.le_of_dvd (by omega) hdvd
  · rw [BitVec.lt_def, hmax]
    omega

theorem iovaGetFree_nil (h : Tidy fl []) (len : U64) : iovaGetFree fl len = none := by
  rw [iovaGetFree, iovaGetFreeRange, h.holds.heads_zero]
  rfl

end Pages

end Iommu

end Libvfn
