import Libvfn.Iommu.Translate
import Libvfn.Iommu.Vfio.Coalesce
import Libvfn.Util.SkipList.Sentinel

/-!
# Traversals and the sentinel

The lowest level of a skip list starts with the sentinel, which is not an element: what a
traversal would read as its payload is other memory. Here this memory is a parameter
(`withSentinel`). A traversal that tests for the sentinel first commutes with it, and so does
every operation on the list of free addresses, since a search never compares the sentinel. The
scan for an I/O virtual address does not test: what it returns is independent of the memory
behind the sentinel as long as that does not read as a mapping of the address.
-/

namespace Libvfn

namespace Iommu

open Word Support Util Linked

def FreeList.withSentinel (fl : FreeList) (r : FreeRange) : FreeList :=
  { fl with range := Function.update fl.range .sentinel r }

def IovaMap.withSentinel (map : IovaMap) (m : IovaMapping) : IovaMap :=
  { map with mapping := Function.update map.mapping .sentinel m }

section

variable (fl : FreeList) (r : FreeRange)

theorem range_withSentinel (n : Node ℕ) (hn : n ≠ .sentinel) :
    (fl.withSentinel r).range n = fl.range n :=
  Function.update_of_ne hn _ _

theorem set_withSentinel (i : ℕ) (range : FreeRange) :
    (fl.withSentinel r).set i range = (fl.set i range).withSentinel r := by
  rw [FreeList.set, FreeList.set, FreeList.withSentinel, FreeList.withSentinel]
  dsimp only
  rw [Function.update_comm (by simp)]

theorem cmp_withSentinel (start : U64) (i : ℕ) :
    iovaFreeRangeCmp (fl.withSentinel r).range start (.entry i) =
      iovaFreeRangeCmp fl.range start (.entry i) := by
  rw [iovaFreeRangeCmp, iovaFreeRangeCmp, range_withSentinel fl r _ (by simp)]

end

variable {fl : FreeList} {map : IovaMap} (r : FreeRange) (p : IovaMapping)

theorem mapping_withSentinel (n : Node ℕ) (hn : n ≠ .sentinel) :
    (map.withSentinel p).mapping n = map.mapping n :=
  Function.update_of_ne hn _ _

/-! ## The list of free addresses -/

section Free

variable (h : Fronted fl.list.heads)

include h

theorem iovaErase_withSentinel (i : ℕ) :
    iovaErase (fl.withSentinel r) (.entry i) = (iovaErase fl (.entry i)).withSentinel r := by
  have hfind := h.find_congr (cmp_withSentinel fl r (fl.range (.entry i)).start)
  rw [iovaErase, range_withSentinel _ r _ (by simp)]
  exact congrArg (fun found => FreeList.withSentinel
    { fl with list := skiplistErase fl.list (.entry i) found.2 } r) hfind

theorem iovaLinkFree_withSentinel (start len : U64) :
    iovaLinkFree (fl.withSentinel r) start len = (iovaLinkFree fl start len).withSentinel r := by
  have hset := set_withSentinel fl r fl.fresh ⟨start, len⟩
  have hfind : skiplistFind fl.list
      (iovaFreeRangeCmp ((fl.set fl.fresh ⟨start, len⟩).withSentinel r).range start) =
        skiplistFind fl.list (iovaFreeRangeCmp (fl.set fl.fresh ⟨start, len⟩).range start) :=
    h.find_congr (cmp_withSentinel _ r start)
  change (⟨skiplistLink fl.list (.entry fl.fresh) (skiplistFind fl.list
    (iovaFreeRangeCmp ((fl.withSentinel r).set fl.fresh ⟨start, len⟩).range start)).2,
    ((fl.withSentinel r).set fl.fresh ⟨start, len⟩).range, fl.fresh + 1⟩ : FreeList) = _
  rw [hset, hfind]
  rfl

theorem iovaExtendNext_withSentinel (start len : U64) :
    iovaExtendNext (fl.withSentinel r) start len =
      (iovaExtendNext fl start len).withSentinel r := by
  have hfind : skiplistFindGe (fl.withSentinel r).list
      (iovaFreeRangeCmp (fl.withSentinel r).range start) =
        skiplistFindGe fl.list (iovaFreeRangeCmp fl.range start) :=
    h.findGe_congr (cmp_withSentinel _ r start)
  rw [iovaExtendNext, iovaExtendNext, hfind]
  cases hge : (skiplistFindGe fl.list (iovaFreeRangeCmp fl.range start)).1 with
  | none => exact iovaLinkFree_withSentinel r h start len
  | some n =>
      obtain ⟨i, rfl⟩ := h.findGe_eq_some hge
      dsimp only
      rw [range_withSentinel _ r _ (by simp)]
      split_ifs
      · exact set_withSentinel _ r i _
      · exact iovaLinkFree_withSentinel r h start len

theorem iovaExtendPrev_withSentinel (i : ℕ) (len : U64) :
    iovaExtendPrev (fl.withSentinel r) (.entry i) len =
      (iovaExtendPrev fl (.entry i) len).withSentinel r := by
  have hi := range_withSentinel fl r (.entry i) (by simp)
  cases hnext : skiplistNext fl.list.heads (.entry i) 0 with
  | none =>
      rw [iovaExtendPrev_last fl hnext, iovaExtendPrev_last (fl.withSentinel r) hnext, hi,
        set_withSentinel]
  | some n =>
      obtain ⟨j, rfl⟩ := h.next_eq_some hnext
      rw [iovaExtendPrev_next fl hnext, iovaExtendPrev_next (fl.withSentinel r) hnext, hi]
      dsimp only
      rw [set_withSentinel, range_withSentinel _ r (.entry j) (by simp), set_withSentinel]
      split_ifs
      · exact iovaErase_withSentinel r (show Fronted ((fl.set i _).set i _).list.heads from h) j
      · rfl

theorem iovaPutFree_withSentinel (start len : U64) :
    iovaPutFree (fl.withSentinel r) start len = (iovaPutFree fl start len).withSentinel r := by
  have hfind : skiplistFindLe (fl.withSentinel r).list
      (iovaFreeRangeCmp (fl.withSentinel r).range start) =
        skiplistFindLe fl.list (iovaFreeRangeCmp fl.range start) :=
    h.findLe_congr (cmp_withSentinel _ r start)
  rw [iovaPutFree, iovaPutFree, hfind]
  cases hle : (skiplistFindLe fl.list (iovaFreeRangeCmp fl.range start)).1 with
  | none => exact iovaExtendNext_withSentinel r h start len
  | some n =>
      obtain ⟨i, rfl⟩ := findLe_eq_some hle
      dsimp only
      rw [range_withSentinel _ r _ (by simp)]
      split_ifs
      · exact iovaExtendPrev_withSentinel r h i len
      · exact iovaExtendNext_withSentinel r h start len

theorem put_withSentinel {c : Prop} [Decidable c] (start len : U64) :
    (if c then iovaPutFree (fl.withSentinel r) start len else fl.withSentinel r) =
      (if c then iovaPutFree fl start len else fl).withSentinel r := by
  split_ifs
  · exact iovaPutFree_withSentinel r h start len
  · rfl

theorem iovaPutFree_fronted (start len : U64) :
    Fronted (iovaPutFree fl start len).list.heads := by
  have hnext : Fronted (iovaExtendNext fl start len).list.heads := by
    rw [iovaExtendNext]
    cases (skiplistFindGe fl.list (iovaFreeRangeCmp fl.range start)).1 with
    | none => exact h.link _ _
    | some n =>
        dsimp only
        split_ifs
        · exact h
        · exact h.link _ _
  rw [iovaPutFree]
  cases hle : (skiplistFindLe fl.list (iovaFreeRangeCmp fl.range start)).1 with
  | none => exact hnext
  | some n =>
      obtain ⟨i, rfl⟩ := findLe_eq_some hle
      dsimp only
      split_ifs
      · cases hsucc : skiplistNext fl.list.heads (.entry i) 0 with
        | none =>
            rw [iovaExtendPrev_last fl hsucc]
            exact h
        | some n =>
            obtain ⟨j, rfl⟩ := h.next_eq_some hsucc
            rw [iovaExtendPrev_next fl hsucc]
            dsimp only
            split_ifs
            · exact h.erase _ _
            · exact h
      · exact hnext

theorem put_fronted {c : Prop} [Decidable c] (start len : U64) :
    Fronted (if c then iovaPutFree fl start len else fl).list.heads := by
  split_ifs
  · exact iovaPutFree_fronted h start len
  · exact h

end Free

theorem iovaBestFit_withSentinel (len : U64) (ns : List (Node ℕ)) (best : Option (Node ℕ))
    (size : U64) :
    iovaBestFit (fl.withSentinel r).range len ns best size =
      iovaBestFit fl.range len ns best size := by
  induction ns generalizing best size with
  | nil => rfl
  | cons n ns ih =>
      rw [iovaBestFit, iovaBestFit]
      by_cases hn : n = .sentinel
      · rw [if_pos hn, if_pos hn, ih]
      · rw [if_neg hn, if_neg hn, range_withSentinel _ r n hn, ih, ih]

theorem iovaBestFitAlign_withSentinel (len align : U64) (ns : List (Node ℕ))
    (best : Option (Node ℕ × U64)) (size : U64) :
    iovaBestFitAlign (fl.withSentinel r).range len align ns best size =
      iovaBestFitAlign fl.range len align ns best size := by
  induction ns generalizing best size with
  | nil => rfl
  | cons n ns ih =>
      rw [iovaBestFitAlign, iovaBestFitAlign]
      by_cases hn : n = .sentinel
      · rw [if_pos (Or.inl hn), if_pos (Or.inl hn), ih]
      · rw [range_withSentinel _ r n hn, ih, ih]

theorem iovaBestFitAlign_ne_sentinel {range : Node ℕ → FreeRange} {len align : U64}
    {ns : List (Node ℕ)} {best : Option (Node ℕ × U64)} {size : U64}
    (hbest : ∀ b ∈ best, b.1 ≠ .sentinel) :
    ∀ b ∈ iovaBestFitAlign range len align ns best size, b.1 ≠ .sentinel := by
  induction ns generalizing best size with
  | nil => exact hbest
  | cons n ns ih =>
      rw [iovaBestFitAlign]
      split_ifs with hskip
      · exact ih hbest
      · simp [not_or.mp hskip]
      · exact ih (by simp [not_or.mp hskip])
      · exact ih hbest

/-- The aligned block and the list it leaves are the same, apart from that memory. -/
theorem iovaGetFreeAlign_withSentinel (h : Fronted fl.list.heads) (len align : U64) :
    iovaGetFreeAlign (fl.withSentinel r) len align =
      (iovaGetFreeAlign fl len align).map fun got => (got.1, got.2.withSentinel r) := by
  have hlist : (fl.withSentinel r).list = fl.list := rfl
  rw [iovaGetFreeAlign, iovaGetFreeAlign, iovaBestFitAlign_withSentinel, hlist, Option.map_map]
  cases hbest : iovaBestFitAlign fl.range len align (fl.list.heads 0) none (-1) with
  | none => rfl
  | some best =>
      obtain ⟨n, aligned⟩ := best
      have hn : n ≠ .sentinel := iovaBestFitAlign_ne_sentinel (by simp) _ hbest
      cases n with
      | sentinel => exact absurd rfl hn
      | entry i =>
          have herase : Fronted (iovaErase fl (.entry i)).list.heads := h.erase i _
          rw [Option.map_some, Option.map_some, Function.comp_apply]
          dsimp only
          rw [range_withSentinel _ r _ (by simp), iovaErase_withSentinel r h,
            put_withSentinel r herase, put_withSentinel r (put_fronted herase _ _)]

/-! ## The traversals of the lowest level -/

theorem clearWith_payloads {α : Type*} (list : SkipList ℕ) (memory : Node ℕ → α) (a : α) :
    (skiplistClearWith list).2.map (Function.update memory .sentinel a) =
      (skiplistClearWith list).2.map memory := by
  refine List.map_congr_left fun n hn => Function.update_of_ne ?_ _ _
  exact of_decide_eq_true (List.mem_filter.mp hn).2

/-- The scan for an I/O virtual address looks at the sentinel first. -/
theorem translateIova_withSentinel (h : Fronted map.list.heads) (iova : U64) :
    iommuTranslateIova (map.withSentinel p) iova =
      if p.Hits iova then .ok (p.back iova)
      else translateIovaFrom map.mapping iova (map.list.heads 0).tail := by
  obtain ⟨ys, hys⟩ := h 0
  have hlist : (map.withSentinel p).list = map.list := rfl
  have hsent : (map.withSentinel p).mapping .sentinel = p := by simp [IovaMap.withSentinel]
  have htail : (ys.map Node.entry).map (map.withSentinel p).mapping =
      (ys.map Node.entry).map map.mapping :=
    List.map_congr_left fun n hn => mapping_withSentinel p n <| by
      obtain ⟨i, -, rfl⟩ := List.mem_map.mp hn
      simp
  rw [iommuTranslateIova, hlist, hys, toHeads, List.tail_cons, translateIovaFrom_eq,
    translateIovaFrom_eq, List.map_cons, hsent, htail, List.find?_cons]
  by_cases hhits : p.Hits iova
  · rw [if_pos hhits, decide_eq_true hhits]
    rfl
  · rw [if_neg hhits, decide_eq_false hhits]

theorem translateIova_sentinel_iff (q : IovaMapping) (iova : U64) :
    (∀ map : IovaMap, Fronted map.list.heads →
        iommuTranslateIova (map.withSentinel p) iova =
          iommuTranslateIova (map.withSentinel q) iova) ↔
      (p.Hits iova ↔ q.Hits iova) ∧ (p.Hits iova → p.back iova = q.back iova) := by
  constructor
  · intro hsame
    -- In an empty list the sentinel is all that is read.
    have hfront : Fronted (iovaMapInit (fun _ => false) p).list.heads := fun k => ⟨[], rfl⟩
    have hempty := hsame _ hfront
    rw [translateIova_withSentinel p hfront, translateIova_withSentinel q hfront] at hempty
    have hnone : ∀ m : U64 × ℤ, translateIovaFrom (iovaMapInit (fun _ => false) p).mapping iova
        ((iovaMapInit (fun _ => false) p).list.heads 0).tail ≠ .ok m := fun m => by
      simp [iovaMapInit, skiplistInit, translateIovaFrom]
    by_cases hp : p.Hits iova <;> by_cases hq : q.Hits iova
    · rw [if_pos hp, if_pos hq] at hempty
      exact ⟨iff_of_true hp hq, fun _ => Except.ok.inj hempty⟩
    · rw [if_pos hp, if_neg hq] at hempty
      exact absurd hempty.symm (hnone _)
    · rw [if_neg hp, if_pos hq] at hempty
      exact absurd hempty (hnone _)
    · exact ⟨iff_of_false hp hq, fun h => absurd h hp⟩
  · rintro ⟨hiff, hback⟩ map h
    rw [translateIova_withSentinel p h, translateIova_withSentinel q h]
    by_cases hp : p.Hits iova
    · rw [if_pos hp, if_pos (hiff.mp hp), hback hp]
    · rw [if_neg hp, if_neg (hiff.not.mp hp)]

/-- What the four traversals do with memory behind the sentinel: the first three do not depend
on it, and the scan for an I/O virtual address depends on whether it reads as a mapping of that
address. -/
theorem traversals_sentinel_iff {α : Type*} (p q : IovaMapping) (iova : U64) :
    (∀ (list : SkipList ℕ) (memory : Node ℕ → α) (a : α),
        (skiplistClearWith list).2.map (Function.update memory .sentinel a) =
          (skiplistClearWith list).2.map memory) ∧
      (∀ (fl : FreeList) (r : FreeRange) (len : U64), Fronted fl.list.heads →
        iovaGetFreeRange (fl.withSentinel r) len = iovaGetFreeRange fl len) ∧
      (∀ (fl : FreeList) (r : FreeRange) (len align : U64), Fronted fl.list.heads →
        iovaGetFreeAlign (fl.withSentinel r) len align =
          (iovaGetFreeAlign fl len align).map fun got => (got.1, got.2.withSentinel r)) ∧
      ((∀ map : IovaMap, Fronted map.list.heads →
          iommuTranslateIova (map.withSentinel p) iova =
            iommuTranslateIova (map.withSentinel q) iova) ↔
        (p.Hits iova ↔ q.Hits iova) ∧ (p.Hits iova → p.back iova = q.back iova)) :=
  ⟨clearWith_payloads, fun _ r len _ => iovaBestFit_withSentinel r len _ _ _,
    fun _ r len align h => iovaGetFreeAlign_withSentinel r h len align,
    translateIova_sentinel_iff p q iova⟩

/-- A list with one range, whose sentinel would fit the request exactly. -/
theorem traversals_sentinel_iff_one_range :
    let fl := iovaLinkFree (freeListInit (fun _ => false) ⟨0, 0⟩) 0x1000 0x2000
    Fronted fl.list.heads ∧
      iovaGetFreeRange (fl.withSentinel ⟨0x8000, 0x1000⟩) 0x1000 = some (.entry 0) ∧
      (iovaGetFreeAlign (fl.withSentinel ⟨0x8000, 0x1000⟩) 0x1000 0x2000).map Prod.fst =
        some 0x2000 := by
  intro fl
  have hinit : Fronted (freeListInit (fun _ => false) ⟨0, 0⟩).list.heads := fun k => ⟨[], rfl⟩
  have hfront : Fronted fl.list.heads := hinit.link 0 _
  obtain ⟨-, hget, halign, -⟩ :=
    traversals_sentinel_iff (α := FreeRange) ⟨0, 0, 0, 0⟩ ⟨0, 0, 0, 0⟩ 0
  refine ⟨hfront, ?_, ?_⟩
  · rw [hget fl _ _ hfront]
    decide +kernel
  · rw [halign fl _ _ _ hfront, Option.map_map]
    decide +kernel

/-- The sentinel of an empty list is taken for a mapping of `0x8000`, at which nothing is
mapped. -/
theorem translateIova_reads_sentinel :
    let map := iovaMapInit (fun _ => false) ⟨0, 0, 0, 0⟩
    Fronted map.list.heads ∧ iommuTranslateIova map 0x8000 = .error .EINVAL ∧
      iommuTranslateIova (map.withSentinel ⟨0x2000, 0x1000, 0x8000, 0⟩) 0x8000 =
        .ok (0x2000, 0x1000) := by
  exact ⟨fun k => ⟨[], rfl⟩, by decide, by decide⟩

end Iommu

end Libvfn
