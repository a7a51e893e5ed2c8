import Libvfn.Iommu.Vfio.FreeList

/-!
# Taking from the free list and putting back

Each operation on the list of free addresses is described by what it does to the
set of addresses that the list covers: taking a block takes its addresses out,
putting a block back brings them in, and the list stays well formed.
-/

namespace Libvfn

namespace Iommu

open Word Support Util Spans Linked

def FreeList.lo (fl : FreeList) (i : ℕ) : ℕ := (fl.range (.entry i)).start.toNat

def FreeList.hi (fl : FreeList) (i : ℕ) : ℕ :=
  (fl.range (.entry i)).start.toNat + (fl.range (.entry i)).len.toNat

/-- The list holds the nodes `xs`, in the order of their ranges, which do not meet
and do not wrap around. -/
structure Free (fl : FreeList) (xs : List ℕ) : Prop where
  holds : Holds fl.list xs
  fresh : ∀ i ∈ xs, i < fl.fresh
  apart : Apart fl.lo fl.hi xs
  small : ∀ i ∈ xs, fl.hi i < 2 ^ 64

def FreeList.Has (fl : FreeList) (xs : List ℕ) (x : ℕ) : Prop := Covers fl.lo fl.hi xs x

theorem free_init (rand : ℕ → Bool) (garbage : FreeRange) :
    Free (freeListInit rand garbage) [] :=
  ⟨holds_init rand, by simp, apart_nil _ _, by simp⟩

def FreeList.set (fl : FreeList) (i : ℕ) (r : FreeRange) : FreeList :=
  { fl with range := Function.update fl.range (.entry i) r }

variable {fl : FreeList} {xs l r : List ℕ} {i j x : ℕ} {range : FreeRange}

theorem lo_set_self : (fl.set i range).lo i = range.start.toNat := by
  simp [FreeList.lo, FreeList.set]

theorem hi_set_self : (fl.set i range).hi i = range.start.toNat + range.len.toNat := by
  simp [FreeList.hi, FreeList.set]

theorem set_of_ne (h : j ≠ i) :
    (fl.set i range).lo j = fl.lo j ∧ (fl.set i range).hi j = fl.hi j := by
  have hnode : Node.entry j ≠ Node.entry i := fun h' => h (Node.entry.inj h')
  simp [FreeList.lo, FreeList.hi, FreeList.set, Function.update_of_ne hnode]

theorem set_others (h : Holds fl.list (l ++ i :: r)) (range : FreeRange) :
    (∀ a ∈ l, (fl.set i range).lo a = fl.lo a ∧ (fl.set i range).hi a = fl.hi a) ∧
      ∀ a ∈ r, (fl.set i range).lo a = fl.lo a ∧ (fl.set i range).hi a = fl.hi a := by
  obtain ⟨hl, hr⟩ := h.not_mem_split
  refine ⟨fun a ha => set_of_ne ?_, fun a ha => set_of_ne ?_⟩
  · exact fun hai => hl (hai ▸ ha)
  · exact fun hai => hr (hai ▸ ha)

theorem signMonotone_cmp (h : Free fl xs) (start : U64) :
    SignMonotone (iovaFreeRangeCmp fl.range start) xs := by
  refine List.Pairwise.imp ?_ h.apart.sorted_lo
  intro a b hab hb
  simp only [FreeList.lo] at hab
  simp only [iovaFreeRangeCmp, BitVec.lt_def] at hb ⊢
  split_ifs at hb ⊢ <;> omega

section Set

variable (h : Free fl (l ++ i :: r)) (start len : U64) (hlo : ∀ a ∈ l, fl.hi a ≤ start.toNat)
  (hpos : 0 < len.toNat) (hhi : ∀ b ∈ r, start.toNat + len.toNat ≤ fl.lo b)

include h hlo hpos hhi

/-- The ranges stay apart when one of them changes between its neighbours. -/
theorem Free.apart_set :
    Apart (fl.set i ⟨start, len⟩).lo (fl.set i ⟨start, len⟩).hi (l ++ i :: r) ∧
      ∀ x, (fl.set i ⟨start, len⟩).Has (l ++ i :: r) x ↔
        fl.Has l x ∨ (start.toNat ≤ x ∧ x < start.toNat + len.toNat) ∨ fl.Has r x := by
  obtain ⟨hsetl, hsetr⟩ := set_others h.holds ⟨start, len⟩
  obtain ⟨hal, har, -, -, -⟩ := apart_append_cons.mp h.apart
  constructor
  · rw [apart_append_cons, apart_congr hsetl, apart_congr hsetr, lo_set_self, hi_set_self]
    refine ⟨hal, har, Nat.lt_add_of_pos_right hpos, ?_, ?_⟩
    · intro b hb
      rw [(hsetl b hb).2]
      exact hlo b hb
    · intro b hb
      rw [(hsetr b hb).1]
      exact hhi b hb
  · intro x
    rw [FreeList.Has, covers_append_cons, covers_congr hsetl, covers_congr hsetr, lo_set_self,
      hi_set_self]
    rfl

theorem Free.set (hsmall : start.toNat + len.toNat < 2 ^ 64) :
    Free (fl.set i ⟨start, len⟩) (l ++ i :: r) ∧
      ∀ x, (fl.set i ⟨start, len⟩).Has (l ++ i :: r) x ↔
        fl.Has l x ∨ (start.toNat ≤ x ∧ x < start.toNat + len.toNat) ∨ fl.Has r x := by
  obtain ⟨hapart, hhas⟩ := h.apart_set start len hlo hpos hhi
  refine ⟨⟨h.holds, h.fresh, hapart, fun a ha => ?_⟩, hhas⟩
  by_cases hai : a = i
  · rw [hai, hi_set_self]
    exact hsmall
  · rw [(set_of_ne hai).2]
    exact h.small a ha

end Set

/-- Taking a node out of the list takes its range out. -/
theorem Free.erase (h : Free fl (l ++ i :: r)) :
    Free (iovaErase fl (.entry i)) (l ++ r) ∧
      ∀ x, (iovaErase fl (.entry i)).Has (l ++ r) x ↔
        fl.Has (l ++ i :: r) x ∧ ¬(fl.lo i ≤ x ∧ x < fl.hi i) := by
  have hzero : iovaFreeRangeCmp fl.range (fl.range (.entry i)).start (.entry i) = 0 := by
    simp [iovaFreeRangeCmp]
  have hholds := h.holds.erase_split (signMonotone_cmp h _) hzero
  have hsub : (l ++ r).Sublist (l ++ i :: r) :=
    List.Sublist.append_left (List.sublist_cons_self i r) l
  refine ⟨⟨hholds, ?_, h.apart.sublist hsub, ?_⟩, ?_⟩
  · exact fun a ha => h.fresh a (hsub.subset ha)
  · exact fun a ha => h.small a (hsub.subset ha)
  · intro x
    have hne := h.apart.nonempty i (by simp)
    refine Iff.trans ?_ (h.apart.covers_cut hne.le le_rfl)
    change Covers fl.lo fl.hi (l ++ r) x ↔ _
    rw [covers_append]
    have hempty : ¬(fl.hi i ≤ x ∧ x < fl.hi i) := by omega
    simp only [hempty, false_or]

theorem Free.set_of_not_mem (h : Free fl xs) (hi : i ∉ xs) (range : FreeRange) :
    Free (fl.set i range) xs ∧ ∀ x, (fl.set i range).Has xs x ↔ fl.Has xs x := by
  have hset : ∀ a ∈ xs, (fl.set i range).lo a = fl.lo a ∧ (fl.set i range).hi a = fl.hi a :=
    fun a ha => set_of_ne fun hai => hi (hai ▸ ha)
  refine ⟨⟨h.holds, h.fresh, (apart_congr hset).mpr h.apart, ?_⟩, fun x => covers_congr hset⟩
  intro a ha
  rw [(hset a ha).2]
  exact h.small a ha

/-! ## Putting back -/

/-- The list `fl'` is `fl` with the block brought in. -/
def Brings (fl : FreeList) (xs : List ℕ) (start len : U64) (fl' : FreeList) : Prop :=
  ∃ xs', Free fl' xs' ∧
    ∀ x, fl'.Has xs' x ↔ fl.Has xs x ∨ (start.toNat ≤ x ∧ x < start.toNat + len.toNat)

theorem cmp_nonneg_iff {start : U64} :
    0 ≤ iovaFreeRangeCmp fl.range start (.entry i) ↔ fl.lo i ≤ start.toNat := by
  rw [FreeList.lo]
  simp only [iovaFreeRangeCmp, BitVec.lt_def]
  split_ifs <;> omega

theorem cmp_pos_iff {start : U64} :
    0 < iovaFreeRangeCmp fl.range start (.entry i) ↔ fl.lo i < start.toNat := by
  rw [FreeList.lo]
  simp only [iovaFreeRangeCmp, BitVec.lt_def]
  split_ifs <;> omega

/-- The node that `skiplist_find_le` returns, and what stands around it. -/
theorem Free.findLe_split (h : Free fl xs) {start : U64} {n : Node ℕ}
    (hfind : (skiplistFindLe fl.list (iovaFreeRangeCmp fl.range start)).1 = some n) :
    ∃ l p r, n = .entry p ∧ xs = l ++ p :: r ∧ fl.lo p ≤ start.toNat ∧
      ∀ b ∈ r, start.toNat < fl.lo b := by
  have hmono := signMonotone_cmp h start
  have hinit := hmono.initial_nonneg
  rw [h.holds.findLe_spec hmono, Option.map_eq_some_iff] at hfind
  obtain ⟨p, hp, rfl⟩ := hfind
  obtain ⟨l, hl⟩ := List.getLast?_eq_some_iff.mp hp
  have hsplit := List.takeWhile_append_dropWhile
    (p := fun i => decide (0 ≤ iovaFreeRangeCmp fl.range start (.entry i))) (l := xs)
  rw [hinit.takeWhile_eq_filter, hl, hinit.dropWhile_eq_filter] at hsplit
  refine ⟨l, p, _, rfl, by rw [← hsplit, List.append_assoc]; rfl, ?_, ?_⟩
  · have hmem : p ∈ xs.filter fun i =>
        decide (0 ≤ iovaFreeRangeCmp fl.range start (.entry i)) := by simp [hl]
    exact cmp_nonneg_iff.mp (by simpa using (List.mem_filter.mp hmem).2)
  · intro b hb
    have hneg := (List.mem_filter.mp hb).2
    rw [Bool.not_eq_true', decide_eq_false_iff_not, cmp_nonneg_iff, not_le] at hneg
    exact hneg

theorem Free.findGe_split (h : Free fl xs) {start : U64} {n : Node ℕ}
    (hfind : (skiplistFindGe fl.list (iovaFreeRangeCmp fl.range start)).1 = some n) :
    ∃ l p r, n = .entry p ∧ xs = l ++ p :: r ∧ start.toNat ≤ fl.lo p ∧
      ∀ a ∈ l, fl.lo a < start.toNat := by
  rw [h.holds.findGe_spec (signMonotone_cmp h start), Option.map_eq_some_iff] at hfind
  obtain ⟨p, hp, rfl⟩ := hfind
  obtain ⟨hle, l, r, hxs, hl⟩ := List.find?_eq_some_iff_append.mp hp
  refine ⟨l, p, r, rfl, hxs, ?_, ?_⟩
  · rw [decide_eq_true_iff, ← not_lt, cmp_pos_iff, not_lt] at hle
    exact hle
  · intro a ha
    have hpos := hl a ha
    rw [Bool.not_eq_true', decide_eq_false_iff_not, not_le, cmp_pos_iff] at hpos
    exact hpos

/-- Only the starts of the ranges are compared, so a node can be taken out before or
after another one changes its length. -/
theorem iovaErase_set_len (fl : FreeList) (i : ℕ) (n : Node ℕ) (len : U64) :
    iovaErase (fl.set i ⟨(fl.range (.entry i)).start, len⟩) n =
      (iovaErase fl n).set i ⟨(fl.range (.entry i)).start, len⟩ := by
  have hstart : ∀ m, ((fl.set i ⟨(fl.range (.entry i)).start, len⟩).range m).start =
      (fl.range m).start := by
    intro m
    by_cases hm : m = .entry i
    · rw [hm]
      simp [FreeList.set]
    · simp [FreeList.set, Function.update_of_ne hm]
  have hcmp : ∀ start, iovaFreeRangeCmp (fl.set i ⟨(fl.range (.entry i)).start, len⟩).range start =
      iovaFreeRangeCmp fl.range start := by
    intro start
    funext m
    rw [iovaFreeRangeCmp, iovaFreeRangeCmp, hstart]
  rw [iovaErase, iovaErase, hcmp, hstart]
  rfl

theorem Free.next_eq (h : Free fl (l ++ i :: r)) :
    skiplistNext fl.list.heads (.entry i) 0 = r.head?.map Node.entry := by
  have hnot : Node.entry i ∉ Node.sentinel :: l.map Node.entry := by
    simpa using h.holds.not_mem_split.1
  rw [skiplistNext, h.holds.heads_zero, toHeads, List.map_append, ← List.cons_append,
    List.map_cons, next_append_cons hnot, List.head?_map]

theorem iovaExtendPrev_last (fl : FreeList) {i : ℕ} {len : U64}
    (hnext : skiplistNext fl.list.heads (.entry i) 0 = none) :
    iovaExtendPrev fl (.entry i) len =
      fl.set i ⟨(fl.range (.entry i)).start, (fl.range (.entry i)).len + len⟩ := by
  rw [iovaExtendPrev]
  dsimp only
  rw [hnext]
  rfl

theorem iovaExtendPrev_next (fl : FreeList) {i j : ℕ} {len : U64}
    (hnext : skiplistNext fl.list.heads (.entry i) 0 = some (.entry j)) :
    iovaExtendPrev fl (.entry i) len =
      let r := fl.range (.entry i)
      let grown := fl.set i ⟨r.start, r.len + len⟩
      if r.start + (r.len + len) = (grown.range (.entry j)).start then
        iovaErase (grown.set i ⟨r.start, r.len + len + (grown.range (.entry j)).len⟩) (.entry j)
      else grown := by
  rw [iovaExtendPrev]
  dsimp only
  rw [hnext]
  rfl

theorem FreeList.hi_extend_next {p : ℕ} {start len : U64}
    (hsmall : start.toNat + len.toNat < 2 ^ 64) (hsmallp : fl.hi p < 2 ^ 64)
    (htouch : start + len = (fl.range (.entry p)).start) :
    start.toNat + len.toNat = fl.lo p ∧
      start.toNat + ((fl.range (.entry p)).len + len).toNat = fl.hi p := by
  have hend : start.toNat + len.toNat = fl.lo p := by
    rw [FreeList.lo, ← htouch, BitVec.toNat_add_of_lt hsmall]
  refine ⟨hend, ?_⟩
  rw [FreeList.hi, ← FreeList.lo] at hsmallp ⊢
  rw [BitVec.toNat_add_of_lt (by omega)]
  omega

section Put

variable {start len : U64} (h : Free fl xs) (hpos : 0 < len.toNat)
  (hsmall : start.toNat + len.toNat < 2 ^ 64)
  (hgap : ∀ x, start.toNat ≤ x → x < start.toNat + len.toNat → ¬fl.Has xs x)

include h hpos hgap

/-- A range of its own goes between the ranges before and behind it. -/
theorem iovaLinkFree_apart :
    ∃ xs', Holds (iovaLinkFree fl start len).list xs' ∧ (∀ i ∈ xs', i = fl.fresh ∨ i ∈ xs) ∧
      Apart (iovaLinkFree fl start len).lo (iovaLinkFree fl start len).hi xs' ∧
      ∀ x, (iovaLinkFree fl start len).Has xs' x ↔
        fl.Has xs x ∨ (start.toNat ≤ x ∧ x < start.toNat + len.toNat) := by
  have hnew : fl.fresh ∉ xs := fun hmem => (h.fresh _ hmem).false
  obtain ⟨h1, hhas⟩ := h.set_of_not_mem hnew ⟨start, len⟩
  have hmono := signMonotone_cmp h1 start
  have hlo : (fl.set fl.fresh ⟨start, len⟩).lo fl.fresh = start.toNat := lo_set_self
  have hhi : (fl.set fl.fresh ⟨start, len⟩).hi fl.fresh = start.toNat + len.toNat := hi_set_self
  obtain ⟨hapart, hcovers⟩ := h1.apart.insert
    (fun i => decide (0 < iovaFreeRangeCmp (fl.set fl.fresh ⟨start, len⟩).range start (.entry i)))
    fl.fresh (by omega)
    (fun x hle hlt hx => hgap x (by omega) (by omega) ((hhas x).mp hx))
    (fun a _ => by rw [decide_eq_true_iff, cmp_pos_iff, hlo])
  refine ⟨insertAt _ fl.fresh xs, h1.holds.link_spec hmono hnew, fun i => mem_insertAt.mp,
    hapart, fun x => ?_⟩
  rw [← hhas x, ← hhi, ← hlo]
  exact hcovers x

include hsmall

theorem iovaLinkFree_spec : Brings fl xs start len (iovaLinkFree fl start len) := by
  have hnew : fl.fresh ∉ xs := fun hmem => (h.fresh _ hmem).false
  obtain ⟨xs', hholds, hmem, hapart, hhas⟩ := iovaLinkFree_apart h hpos hgap
  refine ⟨xs', ⟨hholds, fun i hi => ?_, hapart, fun i hi => ?_⟩, hhas⟩
  · rcases hmem i hi with rfl | hi
    · exact Nat.lt_succ_self _
    · exact Nat.lt_succ_of_lt (h.fresh i hi)
  · rcases hmem i hi with rfl | hi
    · exact hi_set_self.trans_lt hsmall
    · exact (h.set_of_not_mem hnew ⟨start, len⟩).1.small i hi

theorem iovaExtendNext_spec : Brings fl xs start len (iovaExtendNext fl start len) := by
  rw [iovaExtendNext]
  cases hfind : (skiplistFindGe fl.list (iovaFreeRangeCmp fl.range start)).1 with
  | none => exact iovaLinkFree_spec h hpos hsmall hgap
  | some next =>
      obtain ⟨l, p, r, rfl, rfl, hp, hl⟩ := h.findGe_split hfind
      dsimp only
      split_ifs with htouch
      · have hsmallp := h.small p (by simp)
        obtain ⟨-, -, -, -, hr⟩ := apart_append_cons.mp h.apart
        obtain ⟨hend, hhi⟩ := FreeList.hi_extend_next hsmall hsmallp htouch
        obtain ⟨h', hhas⟩ := h.set start ((fl.range (.entry p)).len + len)
          (fun a ha => hi_le_of_lo_le hgap (by simp [ha]) (by omega) (hl a ha).le)
          (by have := h.apart.nonempty p (by simp); omega)
          (fun b hb => hhi ▸ hr b hb) (hhi ▸ hsmallp)
        refine ⟨l ++ p :: r, h', fun x => (hhas x).trans ?_⟩
        have hsplit : (start.toNat ≤ x ∧ x < fl.hi p) ↔
            (start.toNat ≤ x ∧ x < start.toNat + len.toNat) ∨ (fl.lo p ≤ x ∧ x < fl.hi p) := by
          have := h.apart.nonempty p (by simp)
          omega
        rw [hhi, hsplit, FreeList.Has, FreeList.Has, FreeList.Has, covers_append_cons]
        simp only [or_left_comm, or_comm]
      · exact iovaLinkFree_spec h hpos hsmall hgap

end Put

/-- A range that ends where the next one starts takes it in. -/
theorem Free.merge_next {q : ℕ} {start len : U64} (h : Free fl (l ++ i :: q :: r))
    (hi : fl.range (.entry i) = ⟨start, len⟩)
    (htouch : start + len = (fl.range (.entry q)).start) :
    let fl' := iovaErase (fl.set i ⟨start, len + (fl.range (.entry q)).len⟩) (.entry q)
    fl'.hi i = fl.hi q ∧ Free fl' (l ++ i :: r) ∧
      ∀ x, fl'.Has (l ++ i :: r) x ↔ fl.Has (l ++ i :: q :: r) x := by
  have hstart : (fl.range (.entry i)).start = start := by rw [hi]
  have hsmalli := h.small i (by simp)
  have hsmallq := h.small q (by simp)
  have hloi : fl.lo i = start.toNat := by rw [FreeList.lo, hi]
  have hhii : fl.hi i = start.toNat + len.toNat := by rw [FreeList.hi, hi]
  have hloq : fl.hi i = fl.lo q := by
    rw [hhii, FreeList.lo, ← htouch, BitVec.toNat_add_of_lt (hhii ▸ hsmalli)]
  have hhiq : start.toNat + (len + (fl.range (.entry q)).len).toNat = fl.hi q := by
    rw [FreeList.hi, ← FreeList.lo] at hsmallq ⊢
    rw [BitVec.toNat_add_of_lt (by omega)]
    omega
  obtain ⟨-, hapart, hne, hl, -⟩ := apart_append_cons.mp h.apart
  obtain ⟨-, hneq, hr⟩ := apart_cons.mp hapart
  have hq : Free fl (l ++ [i] ++ q :: r) := by
    rw [← List.append_cons]
    exact h
  obtain ⟨h2, -⟩ := hq.erase
  rw [← List.append_cons] at h2
  obtain ⟨h3, hhas⟩ := h2.set start (len + (fl.range (.entry q)).len)
    (fun a ha => hloi ▸ hl a ha) (by omega) (fun b hb => hhiq ▸ hr b hb) (hhiq ▸ hsmallq)
  intro fl'
  have hfl' : fl' = (iovaErase fl (.entry q)).set i ⟨start, len + (fl.range (.entry q)).len⟩ := by
    have := iovaErase_set_len fl i (.entry q) (len + (fl.range (.entry q)).len)
    rwa [hstart] at this
  rw [hfl']
  refine ⟨hi_set_self.trans hhiq, h3, fun x => (hhas x).trans ?_⟩
  have hsplit : (start.toNat ≤ x ∧ x < fl.hi q) ↔
      (fl.lo i ≤ x ∧ x < fl.hi i) ∨ (fl.lo q ≤ x ∧ x < fl.hi q) := by
    omega
  change fl.Has l x ∨ _ ∨ fl.Has r x ↔ Covers fl.lo fl.hi _ x
  rw [hhiq, hsplit, covers_append_cons, covers_cons, FreeList.Has, FreeList.Has]
  simp only [or_assoc]

section ExtendPrev

variable {start len : U64} (h : Free fl (l ++ i :: r)) (hpos : 0 < len.toNat)
  (hsmall : start.toNat + len.toNat < 2 ^ 64)
  (hgap : ∀ x, start.toNat ≤ x → x < start.toNat + len.toNat → ¬fl.Has (l ++ i :: r) x)
  (hprev : fl.hi i = start.toNat)

include h hpos hsmall hgap hprev

/-- A range that ends where the block starts is extended by the block. -/
theorem Free.extend :
    let fl' := fl.set i ⟨(fl.range (.entry i)).start, (fl.range (.entry i)).len + len⟩
    fl'.hi i = start.toNat + len.toNat ∧ Free fl' (l ++ i :: r) ∧
      ∀ x, fl'.Has (l ++ i :: r) x ↔
        fl.Has (l ++ i :: r) x ∨ (start.toNat ≤ x ∧ x < start.toNat + len.toNat) := by
  obtain ⟨-, -, hne, hl, hr⟩ := apart_append_cons.mp h.apart
  have hhi : (fl.range (.entry i)).start.toNat + ((fl.range (.entry i)).len + len).toNat =
      start.toNat + len.toNat := by
    rw [FreeList.hi] at hprev
    rw [BitVec.toNat_add_of_lt (by omega)]
    omega
  have hbehind : ∀ b ∈ r, start.toNat + len.toNat ≤ fl.lo b := fun b hb =>
    h.apart.le_lo_of_le hgap (by simp [hb]) (hprev ▸ hr b hb)
  obtain ⟨h1, hhas⟩ := h.set (fl.range (.entry i)).start ((fl.range (.entry i)).len + len) hl
    (by rw [FreeList.hi] at hprev; omega) (fun b hb => hhi ▸ hbehind b hb) (hhi ▸ hsmall)
  refine ⟨hi_set_self.trans hhi, h1, fun x => ?_⟩
  have hsplit : ((fl.range (.entry i)).start.toNat ≤ x ∧ x < start.toNat + len.toNat) ↔
      (fl.lo i ≤ x ∧ x < fl.hi i) ∨ (start.toNat ≤ x ∧ x < start.toNat + len.toNat) := by
    rw [FreeList.lo] at hne ⊢
    omega
  rw [hhas x, hhi, hsplit, FreeList.Has, FreeList.Has, FreeList.Has, covers_append_cons]
  simp only [or_left_comm, or_comm]

theorem iovaExtendPrev_spec :
    Brings fl (l ++ i :: r) start len (iovaExtendPrev fl (.entry i) len) := by
  obtain ⟨-, h1, hbrings⟩ := h.extend hpos hsmall hgap hprev
  cases r with
  | nil =>
      rw [iovaExtendPrev_last fl h.next_eq]
      exact ⟨_, h1, hbrings⟩
  | cons q r =>
      rw [iovaExtendPrev_next fl h.next_eq]
      dsimp only
      split_ifs with htouch
      · obtain ⟨-, h2, hhas2⟩ := h1.merge_next (by simp [FreeList.set]) htouch
        exact ⟨l ++ i :: r, h2, fun x => (hhas2 x).trans (hbrings x)⟩
      · exact ⟨_, h1, hbrings⟩

end ExtendPrev

theorem iovaPutFree_spec {start len : U64} (h : Free fl xs) (hpos : 0 < len.toNat)
    (hsmall : start.toNat + len.toNat < 2 ^ 64)
    (hgap : ∀ x, start.toNat ≤ x → x < start.toNat + len.toNat → ¬fl.Has xs x) :
    Brings fl xs start len (iovaPutFree fl start len) := by
  rw [iovaPutFree]
  cases hfind : (skiplistFindLe fl.list (iovaFreeRangeCmp fl.range start)).1 with
  | none => exact iovaExtendNext_spec h hpos hsmall hgap
  | some prev =>
      obtain ⟨l, p, r, rfl, rfl, hp, -⟩ := h.findLe_split hfind
      dsimp only
      split_ifs with htouch
      · have hsmallp := h.small p (by simp)
        refine iovaExtendPrev_spec h hpos hsmall hgap ?_
        rw [FreeList.hi] at hsmallp ⊢
        rw [← htouch, BitVec.toNat_add_of_lt hsmallp]
      · exact iovaExtendNext_spec h hpos hsmall hgap

/-! ## Taking -/

/-- The block is free in `fl`, and `fl'` is `fl` with the block taken out. -/
def Takes (fl : FreeList) (xs : List ℕ) (start len : U64) (fl' : FreeList) : Prop :=
  (∀ x, start.toNat ≤ x → x < start.toNat + len.toNat → fl.Has xs x) ∧
    ∃ xs', Free fl' xs' ∧
      ∀ x, fl'.Has xs' x ↔
        fl.Has xs x ∧ ¬(start.toNat ≤ x ∧ x < start.toNat + len.toNat)

theorem iovaBestFit_eq_some {range : Node ℕ → FreeRange} {len size : U64}
    {ns : List (Node ℕ)} {best : Option (Node ℕ)} {n : Node ℕ}
    (h : iovaBestFit range len ns best size = some n) :
    best = some n ∨ (n ∈ ns ∧ n ≠ .sentinel ∧ len ≤ (range n).len) := by
  induction ns generalizing best size with
  | nil => exact .inl h
  | cons m ns ih =>
      rw [iovaBestFit] at h
      split_ifs at h with hm hfit heq
      · exact (ih h).imp_right fun h => ⟨List.mem_cons_of_mem m h.1, h.2⟩
      · obtain rfl := Option.some.inj h
        exact .inr ⟨List.mem_cons_self, hm, hfit.1⟩
      · rcases ih h with hbest | hrest
        · obtain rfl := Option.some.inj hbest
          exact .inr ⟨List.mem_cons_self, hm, hfit.1⟩
        · exact .inr ⟨List.mem_cons_of_mem m hrest.1, hrest.2⟩
      · exact (ih h).imp_right fun h => ⟨List.mem_cons_of_mem m h.1, h.2⟩

theorem Free.split_of_mem_heads (h : Free fl xs) {n : Node ℕ} (hn : n ∈ fl.list.heads 0)
    (hsent : n ≠ .sentinel) : ∃ l i r, n = .entry i ∧ xs = l ++ i :: r := by
  rw [h.holds.heads_zero, toHeads, List.mem_cons, List.mem_map] at hn
  rcases hn with hn | ⟨i, hi, rfl⟩
  · exact absurd hn hsent
  · obtain ⟨l, r, hxs⟩ := List.append_of_mem hi
    exact ⟨l, i, r, rfl, hxs⟩

/-- Where a range starts and ends when a block is cut off its front. -/
theorem FreeList.toNat_cut_front {len : U64} (hsmall : fl.hi i < 2 ^ 64)
    (hfit : len ≤ (fl.range (.entry i)).len) (hrest : (fl.range (.entry i)).len ≠ len) :
    fl.lo i + len.toNat < fl.hi i ∧
      ((fl.range (.entry i)).start + len).toNat = fl.lo i + len.toNat ∧
      ((fl.range (.entry i)).start + len).toNat + ((fl.range (.entry i)).len - len).toNat =
        fl.hi i := by
  have hlen : ((fl.range (.entry i)).len - len).toNat =
      (fl.range (.entry i)).len.toNat - len.toNat := BitVec.toNat_sub_of_le hfit
  have hne : (fl.range (.entry i)).len.toNat ≠ len.toNat := fun heq =>
    hrest (BitVec.eq_of_toNat_eq heq)
  rw [BitVec.le_def] at hfit
  rw [FreeList.hi, ← FreeList.lo] at hsmall ⊢
  have hlo : ((fl.range (.entry i)).start + len).toNat = fl.lo i + len.toNat := by
    rw [BitVec.toNat_add_of_lt, ← FreeList.lo]
    rw [← FreeList.lo]
    omega
  refine ⟨by omega, hlo, ?_⟩
  rw [hlo, hlen]
  omega

theorem iovaGetFree_spec {len iova : U64} {fl' : FreeList} (h : Free fl xs)
    (hget : iovaGetFree fl len = some (iova, fl')) :
    Takes fl xs iova len fl' := by
  rw [iovaGetFree, Option.map_eq_some_iff] at hget
  obtain ⟨n, hbest, hfl'⟩ := hget
  rcases iovaBestFit_eq_some hbest with hnone | ⟨hmem, hsent, hfit⟩
  · simp at hnone
  obtain ⟨l, i, r, rfl, rfl⟩ := h.split_of_mem_heads hmem hsent
  obtain ⟨-, -, -, hl, hr⟩ := apart_append_cons.mp h.apart
  dsimp only at hfl'
  have hin : ∀ x, fl.lo i ≤ x → x < fl.hi i → fl.Has (l ++ i :: r) x := fun x hle hlt =>
    ⟨i, by simp, hle, hlt⟩
  split_ifs at hfl' with hwhole
  · obtain ⟨rfl, rfl⟩ := Prod.mk.inj hfl'
    subst hwhole
    exact ⟨hin, _, h.erase⟩
  · obtain ⟨rfl, rfl⟩ := Prod.mk.inj hfl'
    have hsmall := h.small i (by simp)
    obtain ⟨hcut, hlo, hhi⟩ := FreeList.toNat_cut_front hsmall hfit hwhole
    obtain ⟨h', hhas⟩ := h.set _ _ (fun a ha => by have := hl a ha; omega) (by omega)
      (fun b hb => hhi ▸ hr b hb) (hhi ▸ hsmall)
    refine ⟨fun x hle hlt => hin x hle (by rw [← FreeList.lo] at hlt; omega), _, h', ?_⟩
    intro x
    refine (hhas x).trans ?_
    rw [hhi, hlo, ← FreeList.lo]
    exact h.apart.covers_cut (Nat.le_add_right _ _) hcut.le

theorem iovaBestFitAlign_eq_some {range : Node ℕ → FreeRange} {len align size : U64}
    {ns : List (Node ℕ)} {best : Option (Node ℕ × U64)} {n : Node ℕ} {aligned : U64}
    (h : iovaBestFitAlign range len align ns best size = some (n, aligned)) :
    best = some (n, aligned) ∨
      (n ∈ ns ∧ aligned = alignUp (range n).start align ∧ n ≠ .sentinel ∧
        (range n).start ≤ aligned ∧ aligned - (range n).start < (range n).len ∧
        len ≤ (range n).len - (aligned - (range n).start)) := by
  induction ns generalizing best size with
  | nil => exact .inl h
  | cons m ns ih =>
      rw [iovaBestFitAlign] at h
      split_ifs at h with hskip hfit heq
      · exact (ih h).imp_right fun h => ⟨List.mem_cons_of_mem m h.1, h.2⟩
      · obtain ⟨rfl, rfl⟩ := Prod.mk.inj (Option.some.inj h)
        rw [not_or, not_or, not_or, BitVec.not_lt, BitVec.not_le, BitVec.not_lt] at hskip
        exact .inr ⟨List.mem_cons_self, rfl, hskip⟩
      · rcases ih h with hbest | hrest
        · obtain ⟨rfl, rfl⟩ := Prod.mk.inj (Option.some.inj hbest)
          rw [not_or, not_or, not_or, BitVec.not_lt, BitVec.not_le, BitVec.not_lt] at hskip
          exact .inr ⟨List.mem_cons_self, rfl, hskip⟩
        · exact .inr ⟨List.mem_cons_of_mem m hrest.1, hrest.2⟩
      · exact (ih h).imp_right fun h => ⟨List.mem_cons_of_mem m h.1, h.2⟩

/-- The sizes of what an aligned block leaves of a range. Nothing wraps around. -/
theorem toNat_cut {start size iova len : U64} (hsmall : start.toNat + size.toNat < 2 ^ 64)
    (hle : start ≤ iova) (hpad : iova - start < size) (hfit : len ≤ size - (iova - start)) :
    start.toNat ≤ iova.toNat ∧ iova.toNat + len.toNat ≤ start.toNat + size.toNat ∧
      (iova - start).toNat = iova.toNat - start.toNat ∧
      (iova + len).toNat = iova.toNat + len.toNat ∧
      (start + size).toNat = start.toNat + size.toNat ∧
      (start + size - (iova + len)).toNat =
        start.toNat + size.toNat - (iova.toNat + len.toNat) := by
  have hpadNat : (iova - start).toNat = iova.toNat - start.toNat := BitVec.toNat_sub_of_le hle
  rw [BitVec.lt_def, hpadNat] at hpad
  rw [BitVec.le_def, BitVec.toNat_sub_of_le (by rw [BitVec.le_def, hpadNat]; exact hpad.le),
    hpadNat] at hfit
  rw [BitVec.le_def] at hle
  have htop : (iova + len).toNat = iova.toNat + len.toNat := BitVec.toNat_add_of_lt (by omega)
  have hend : (start + size).toNat = start.toNat + size.toNat := BitVec.toNat_add_of_lt hsmall
  refine ⟨hle, by omega, hpadNat, htop, hend, ?_⟩
  rw [BitVec.toNat_sub_of_le, hend, htop]
  rw [BitVec.le_def, hend, htop]
  omega

section TakeAlign

variable {P : FreeList → List ℕ → Prop} (hP : ∀ fl xs, P fl xs → Free fl xs)
  (herase : ∀ fl l i r, P fl (l ++ i :: r) → P (iovaErase fl (.entry i)) (l ++ r))
  (hput : ∀ fl xs start len, P fl xs → 0 < len.toNat → start.toNat + len.toNat < 2 ^ 64 →
    (∀ x, start.toNat ≤ x → x < start.toNat + len.toNat → ¬fl.Has xs x) →
    ∃ xs', P (iovaPutFree fl start len) xs' ∧ ∀ x, (iovaPutFree fl start len).Has xs' x ↔
      fl.Has xs x ∨ (start.toNat ≤ x ∧ x < start.toNat + len.toNat))

include hput in
theorem brings_ite (start len : U64) {c : Prop} [Decidable c] (hc : c ↔ 0 < len.toNat)
    (h : P fl xs) (hsmall : start.toNat + len.toNat < 2 ^ 64)
    (hgap : ∀ x, start.toNat ≤ x → x < start.toNat + len.toNat → ¬fl.Has xs x) :
    ∃ xs', P (if c then iovaPutFree fl start len else fl) xs' ∧
      ∀ x, (if c then iovaPutFree fl start len else fl).Has xs' x ↔
        fl.Has xs x ∨ (start.toNat ≤ x ∧ x < start.toNat + len.toNat) := by
  by_cases hyes : c
  · rw [if_pos hyes]
    exact hput fl xs start len h (hc.mp hyes) hsmall hgap
  · rw [if_neg hyes]
    rw [hc] at hyes
    refine ⟨xs, h, fun x => ?_⟩
    have hempty : ¬(start.toNat ≤ x ∧ x < start.toNat + len.toNat) := by omega
    simp only [hempty, or_false]

include hP herase hput in
/-- A property of well-formed lists that is kept by taking a range out and by putting one
back is kept by taking an aligned block. -/
theorem iovaGetFreeAlign_keeps {len align iova : U64} {fl' : FreeList} (h : P fl xs)
    (hget : iovaGetFreeAlign fl len align = some (iova, fl')) :
    (∀ x, iova.toNat ≤ x → x < iova.toNat + len.toNat → fl.Has xs x) ∧
      ∃ xs', P fl' xs' ∧ ∀ x, fl'.Has xs' x ↔
        fl.Has xs x ∧ ¬(iova.toNat ≤ x ∧ x < iova.toNat + len.toNat) := by
  rw [iovaGetFreeAlign, Option.map_eq_some_iff] at hget
  obtain ⟨⟨n, aligned⟩, hbest, hfl'⟩ := hget
  rcases iovaBestFitAlign_eq_some hbest with hnone | ⟨hmem, -, hsent, hle, hpad, hfit⟩
  · simp at hnone
  have hfree := hP fl xs h
  obtain ⟨l, i, r, rfl, rfl⟩ := hfree.split_of_mem_heads hmem hsent
  have hsmall := hfree.small i (by simp)
  dsimp only at hfl'
  obtain ⟨rfl, rfl⟩ := Prod.mk.inj hfl'
  obtain ⟨hlo, hhi, hpadNat, htop, hend, hrest⟩ := toNat_cut hsmall hle hpad hfit
  rw [← FreeList.lo] at hlo hpadNat
  rw [← FreeList.hi] at hhi hend hrest
  have hin : ∀ x, fl.lo i ≤ x ∧ x < fl.hi i → fl.Has (l ++ i :: r) x := fun x hx =>
    ⟨i, by simp, hx⟩
  -- take the range out, then put back what is left on either side
  have h1 := herase fl l i r h
  obtain ⟨-, hhas1⟩ := hfree.erase
  have hpadne : aligned - (fl.range (.entry i)).start ≠ 0 ↔
      0 < (aligned - (fl.range (.entry i)).start).toNat := by
    rw [ne_eq, ← BitVec.toNat_inj, Nat.pos_iff_ne_zero]
    rfl
  obtain ⟨xs2, h2, hhas2⟩ := brings_ite hput (fl.range (.entry i)).start _ hpadne h1
    (by rw [hpadNat, ← FreeList.lo]; omega)
    (by
      rw [hpadNat, ← FreeList.lo]
      intro x hle hlt hx
      exact ((hhas1 x).mp hx).2 ⟨hle, by omega⟩)
  rw [hpadNat, ← FreeList.lo, Nat.add_sub_cancel' hlo] at hhas2
  have hleft : aligned + len < (fl.range (.entry i)).start + (fl.range (.entry i)).len ↔
      0 < ((fl.range (.entry i)).start + (fl.range (.entry i)).len - (aligned + len)).toNat := by
    rw [BitVec.lt_def, htop, hend, hrest]
    omega
  obtain ⟨xs3, h3, hhas3⟩ := brings_ite hput (aligned + len) _ hleft h2
    (by rw [htop, hrest]; omega)
    (by
      rw [htop, hrest]
      intro x hle hlt hx
      rcases (hhas2 x).mp hx with hx | hx
      · exact ((hhas1 x).mp hx).2 ⟨by omega, by omega⟩
      · omega)
  rw [htop, hrest, Nat.add_sub_cancel' hhi] at hhas3
  refine ⟨fun x hle hlt => hin x ⟨by omega, by omega⟩, xs3, h3, fun x => ?_⟩
  rw [hhas3, hhas2, hhas1]
  exact cut_middle_iff (hin x) hlo (Nat.le_add_right _ _) hhi

end TakeAlign

theorem iovaGetFreeAlign_spec {len align iova : U64} {fl' : FreeList} (h : Free fl xs)
    (hget : iovaGetFreeAlign fl len align = some (iova, fl')) :
    Takes fl xs iova len fl' :=
  iovaGetFreeAlign_keeps (fun _ _ h => h) (fun _ _ _ _ h => h.erase.1)
    (fun _ _ _ _ => iovaPutFree_spec) h hget

end Iommu

end Libvfn
