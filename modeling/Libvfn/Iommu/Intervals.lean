import Libvfn.Foundation.Run
import Libvfn.Foundation.Spans
import Libvfn.Iommu.Dma

/-!
# The map as a set of disjoint intervals

As long as the mappings of a map do not overlap and do not wrap around, the
comparator is monotone along the list, and a search for an address finds the mapping
that covers it. A mapping is added after a search for its first address only, so
that it is up to the caller that the rest of it is not mapped yet. A call that sees
to this keeps the map well formed, whatever the backend does.
-/

namespace Libvfn

namespace Iommu

open Word Support Util Spans Linked

def IovaMap.lo (map : IovaMap) (i : ℕ) : ℕ := (map.mapping (.entry i)).vaddr.toNat

def IovaMap.hi (map : IovaMap) (i : ℕ) : ℕ :=
  (map.mapping (.entry i)).vaddr.toNat + (map.mapping (.entry i)).len.toNat

def IovaMap.held (map : IovaMap) : List IovaMapping :=
  (map.list.heads 0).tail.map map.mapping

/-- The list holds the nodes `xs`, in the order of their mappings, which do not
overlap and do not wrap around. -/
structure Mapped (map : IovaMap) (xs : List ℕ) : Prop where
  holds : Holds map.list xs
  fresh : ∀ i ∈ xs, i < map.fresh
  apart : Apart map.lo map.hi xs
  small : ∀ i ∈ xs, map.hi i < 2 ^ 64

theorem mapped_init (rand : ℕ → Bool) (garbage : IovaMapping) :
    Mapped (iovaMapInit rand garbage) [] :=
  ⟨holds_init rand, by simp, apart_nil _ _, by simp⟩

variable {map map' : IovaMap} {xs l r : List ℕ} {i : ℕ} {vaddr len iova flags : U64}

theorem Mapped.held_eq (h : Mapped map xs) :
    map.held = xs.map fun i => map.mapping (.entry i) :=
  h.holds.map_tail map.mapping

/-! ## Searching -/

theorem Mapped.toNat_end (h : Mapped map xs) (hi : i ∈ xs) :
    ((map.mapping (.entry i)).vaddr + (map.mapping (.entry i)).len).toNat = map.hi i :=
  BitVec.toNat_add_of_lt (h.small i hi)

theorem Mapped.cmp_pos_iff (h : Mapped map xs) (hi : i ∈ xs) (vaddr : U64) :
    0 < iovaCmp map.mapping vaddr (.entry i) ↔ map.hi i ≤ vaddr.toNat := by
  have hne := h.apart.nonempty i hi
  rw [← h.toNat_end hi, IovaMap.lo] at hne
  rw [← h.toNat_end hi]
  simp only [iovaCmp, BitVec.lt_def, BitVec.le_def]
  split_ifs <;> omega

theorem Mapped.cmp_eq_zero_iff (h : Mapped map xs) (hi : i ∈ xs) (vaddr : U64) :
    iovaCmp map.mapping vaddr (.entry i) = 0 ↔
      map.lo i ≤ vaddr.toNat ∧ vaddr.toNat < map.hi i := by
  rw [← h.toNat_end hi, IovaMap.lo]
  simp only [iovaCmp, BitVec.lt_def, BitVec.le_def]
  split_ifs <;> grind

theorem Mapped.signMonotone (h : Mapped map xs) (vaddr : U64) :
    SignMonotone (iovaCmp map.mapping vaddr) xs := by
  refine List.Pairwise.imp_of_mem ?_ h.apart.sorted
  intro a b ha hb hab hnonneg
  rw [h.cmp_pos_iff ha]
  rcases hnonneg.lt_or_eq with hpos | hzero
  · have hb' := (h.cmp_pos_iff hb vaddr).mp hpos
    have hne := h.apart.nonempty b hb
    omega
  · exact hab.trans ((h.cmp_eq_zero_iff hb vaddr).mp hzero.symm).1

theorem Mapped.find_eq_some (h : Mapped map xs) {n : Node ℕ}
    (hfind : iovaMapFind map vaddr = some n) :
    ∃ l i r, xs = l ++ i :: r ∧ n = .entry i ∧
      map.lo i ≤ vaddr.toNat ∧ vaddr.toNat < map.hi i := by
  rw [iovaMapFind, h.holds.find_spec (h.signMonotone vaddr), Option.map_eq_some_iff] at hfind
  obtain ⟨i, hi, rfl⟩ := hfind
  have hmem := List.mem_of_find?_eq_some hi
  obtain ⟨l, r, rfl⟩ := List.append_of_mem hmem
  have hzero := List.find?_some hi
  rw [decide_eq_true_iff] at hzero
  exact ⟨l, i, r, rfl, rfl, (h.cmp_eq_zero_iff hmem vaddr).mp hzero⟩

theorem Mapped.find_eq_none_iff (h : Mapped map xs) :
    iovaMapFind map vaddr = none ↔ ¬Covers map.lo map.hi xs vaddr.toNat := by
  rw [iovaMapFind, h.holds.find_spec (h.signMonotone vaddr), Option.map_eq_none_iff,
    List.find?_eq_none, Covers]
  push Not
  refine forall₂_congr fun i hi => ?_
  rw [ne_eq, decide_eq_true_iff, h.cmp_eq_zero_iff hi, not_and, not_lt]

/-- An address is translated by the mapping that covers it, wherever the nodes of the
list are linked. -/
theorem Mapped.translate_eq_some_iff (h : Mapped map xs) :
    iommuTranslateVaddr map vaddr = some iova ↔
      ∃ m ∈ map.held, vaddr.toNat ∈ addresses m.vaddr m.len ∧
        m.iova + (vaddr - m.vaddr) = iova := by
  rw [iommuTranslateVaddr, Option.map_eq_some_iff, h.held_eq]
  constructor
  · rintro ⟨n, hn, hiova⟩
    obtain ⟨l, i, r, rfl, rfl, hin⟩ := h.find_eq_some hn
    exact ⟨_, List.mem_map_of_mem (by simp), hin, hiova⟩
  · rintro ⟨m, hm, hin, hiova⟩
    obtain ⟨i, hi, rfl⟩ := List.mem_map.mp hm
    cases hn : iovaMapFind map vaddr with
    | none => exact absurd ⟨i, hi, hin⟩ (h.find_eq_none_iff.mp hn)
    | some n =>
        obtain ⟨l, j, r, rfl, rfl, hj⟩ := h.find_eq_some hn
        obtain rfl := h.apart.eq_of_mem hi (by simp) hin hj
        exact ⟨_, rfl, hiova⟩

/-! ## Adding and removing -/

/-- The addresses can be mapped: no mapping covers one of them, and they do not wrap. -/
def Unmapped (map : IovaMap) (vaddr len : U64) : Prop :=
  vaddr.toNat + len.toNat < 2 ^ 64 ∧
    ∀ m ∈ map.held, Disjoint (addresses vaddr len) (addresses m.vaddr m.len)

theorem Mapped.not_covers (h : Mapped map xs) (hfree : Unmapped map vaddr len) {x : ℕ}
    (hx : x ∈ addresses vaddr len) : ¬Covers map.lo map.hi xs x := by
  rintro ⟨i, hi, hcov⟩
  refine Set.disjoint_left.mp (hfree.2 (map.mapping (.entry i)) ?_) hx hcov
  rw [h.held_eq]
  exact List.mem_map_of_mem hi

theorem mapping_link_self (m : IovaMapping) :
    (iovaMapLink map m).mapping (.entry map.fresh) = m := Function.update_self ..

theorem mapping_link_of_ne (m : IovaMapping) {a : ℕ} (ha : a ≠ map.fresh) :
    (iovaMapLink map m).mapping (.entry a) = map.mapping (.entry a) :=
  Function.update_of_ne (fun heq => ha (Node.entry.inj heq)) _ _

/-- A mapping of addresses that are not mapped is linked in. -/
theorem Mapped.link (h : Mapped map xs) {m : IovaMapping} (hlen : m.len ≠ 0)
    (hfree : Unmapped map m.vaddr m.len) :
    ∃ xs', Mapped (iovaMapLink map m) xs' ∧ (iovaMapLink map m).held.Perm (m :: map.held) := by
  have hpos := BitVec.toNat_pos_of_ne_zero hlen
  have hgap {x : ℕ} (hx : x ∈ addresses m.vaddr m.len) := h.not_covers hfree hx
  have hnew : map.fresh ∉ xs := fun hmem => (h.fresh _ hmem).false
  have hold : ∀ a ∈ xs, (iovaMapLink map m).mapping (.entry a) = map.mapping (.entry a) :=
    fun a ha => mapping_link_of_ne m fun heq => hnew (heq ▸ ha)
  have hsame : ∀ a ∈ xs, (iovaMapLink map m).lo a = map.lo a ∧
      (iovaMapLink map m).hi a = map.hi a := by
    intro a ha
    rw [IovaMap.lo, IovaMap.hi, hold a ha]
    exact ⟨rfl, rfl⟩
  have hlo : (iovaMapLink map m).lo map.fresh = m.vaddr.toNat := by
    rw [IovaMap.lo, mapping_link_self]
  have hhi : (iovaMapLink map m).hi map.fresh = m.vaddr.toNat + m.len.toNat := by
    rw [IovaMap.hi, mapping_link_self]
  obtain ⟨hapart, -⟩ := ((apart_congr hsame).mpr h.apart).insert
    (fun i => decide (0 < iovaCmp map.mapping m.vaddr (.entry i))) map.fresh (by omega)
    (fun x hle hlt hx => hgap ⟨by omega, by omega⟩ ((covers_congr hsame).mp hx))
    (by
      intro a ha
      rw [decide_eq_true_iff, h.cmp_pos_iff ha, (hsame a ha).1, hlo]
      have hne := h.apart.nonempty a ha
      have hmiss : ¬(map.lo a ≤ m.vaddr.toNat ∧ m.vaddr.toNat < map.hi a) := fun hin =>
        hgap (start_mem_addresses hlen) ⟨a, ha, hin⟩
      omega)
  have h' : Mapped (iovaMapLink map m)
      (insertAt (fun i => decide (0 < iovaCmp map.mapping m.vaddr (.entry i))) map.fresh xs) := by
    refine ⟨h.holds.link_spec (h.signMonotone m.vaddr) hnew, fun a ha => ?_, hapart,
      fun a ha => ?_⟩
    · rcases mem_insertAt.mp ha with rfl | ha
      · exact Nat.lt_succ_self _
      · exact Nat.lt_succ_of_lt (h.fresh a ha)
    · rcases mem_insertAt.mp ha with rfl | ha
      · exact hhi ▸ hfree.1
      · exact (hsame a ha).2 ▸ h.small a ha
  refine ⟨_, h', ?_⟩
  rw [h'.held_eq, h.held_eq]
  refine ((insertAt_perm _ _ _).map _).trans ?_
  rw [List.map_cons, mapping_link_self, List.map_congr_left hold]

theorem Mapped.add_eq (h : Mapped map xs) (hfree : Unmapped map vaddr len) :
    iovaMapAdd map vaddr len iova flags =
      if len = 0 then .error .EINVAL else .ok (iovaMapLink map ⟨vaddr, len, iova, flags⟩) := by
  rw [iovaMapAdd]
  by_cases hlen : len = 0
  · rw [if_pos hlen, if_pos hlen]
  · have hmiss : iovaMapFind map vaddr = none :=
      h.find_eq_none_iff.mpr (h.not_covers hfree (start_mem_addresses hlen))
    rw [if_neg hlen, if_neg hlen, ← iovaMapFind, hmiss, if_neg (by simp)]

theorem Mapped.cmp_self (h : Mapped map xs) (hi : i ∈ xs) :
    iovaCmp map.mapping (map.mapping (.entry i)).vaddr (.entry i) = 0 :=
  (h.cmp_eq_zero_iff hi _).mpr ⟨le_rfl, h.apart.nonempty i hi⟩

theorem Mapped.find_self (h : Mapped map xs) (hi : i ∈ xs) :
    iovaMapFind map (map.mapping (.entry i)).vaddr = some (.entry i) := by
  have hin := (h.cmp_eq_zero_iff hi _).mp (h.cmp_self hi)
  cases hn : iovaMapFind map (map.mapping (.entry i)).vaddr with
  | none => exact absurd ⟨i, hi, hin⟩ (h.find_eq_none_iff.mp hn)
  | some n =>
      obtain ⟨l, j, r, rfl, rfl, hj⟩ := h.find_eq_some hn
      rw [h.apart.eq_of_mem (by simp) hi hj hin]

/-- Removing takes the mapping of a node out. -/
theorem Mapped.remove (h : Mapped map (l ++ i :: r)) :
    Mapped (iovaMapRemove map (map.mapping (.entry i)).vaddr) (l ++ r) ∧
      map.held.Perm (map.mapping (.entry i) ::
        (iovaMapRemove map (map.mapping (.entry i)).vaddr).held) := by
  have hmem : i ∈ l ++ i :: r := by simp
  have hholds := h.holds.erase_split (h.signMonotone _) (h.cmp_self hmem)
  have hremove : iovaMapRemove map (map.mapping (.entry i)).vaddr =
      ⟨skiplistErase map.list (.entry i)
        (skiplistFind map.list (iovaCmp map.mapping (map.mapping (.entry i)).vaddr)).2,
        map.mapping, map.fresh⟩ := by
    rw [iovaMapRemove, ← iovaMapFind, h.find_self hmem]
  have hsub : (l ++ r).Sublist (l ++ i :: r) :=
    List.Sublist.append_left (List.sublist_cons_self i r) l
  have h' : Mapped (iovaMapRemove map (map.mapping (.entry i)).vaddr) (l ++ r) := by
    rw [hremove]
    exact ⟨hholds, fun a ha => h.fresh a (hsub.subset ha), h.apart.sublist hsub,
      fun a ha => h.small a (hsub.subset ha)⟩
  refine ⟨h', ?_⟩
  rw [h.held_eq, h'.held_eq, hremove]
  exact List.perm_middle.map _

theorem Mapped.clear (h : Mapped map xs) : Mapped (iovaMapClearWith map).1 [] :=
  ⟨h.holds.clear_spec.1, by simp, apart_nil _ _, by simp⟩

theorem Mapped.clear_held (h : Mapped map xs) :
    (iovaMapClearWith map).1.held = [] ∧ (iovaMapClearWith map).2.map map.mapping = map.held := by
  constructor
  · rw [h.clear.held_eq]
    rfl
  · rw [h.held_eq, iovaMapClearWith, h.holds.clear_spec.2, List.map_map]
    rfl

/-! ## Calls -/

section Calls

variable {σ : Type*} {ops : IommuCtxOps σ} {ctx ctx' : IommuCtx σ} {align : U64}

/-- What a call that maps can do to a context: change the backend only, or link a
mapping of addresses that were not mapped. -/
inductive Links (ctx : IommuCtx σ) (vaddr len flags : U64) : IommuCtx σ → Prop
  | same (backend : σ) : Links ctx vaddr len flags { ctx with backend := backend }
  | link (backend : σ) (iova : U64) (hlen : len ≠ 0) (hfree : Unmapped ctx.map vaddr len) :
      Links ctx vaddr len flags
        { ctx with map := iovaMapLink ctx.map ⟨vaddr, len, iova, flags⟩, backend := backend }

theorem iommuMapAt_links (h : Mapped ctx.map xs) (hfree : Unmapped ctx.map vaddr len) :
    Links ctx vaddr len flags (iommuMapAt ops ctx vaddr len iova flags).2 := by
  rw [iommuMapAt]
  obtain ⟨e | iova', backend⟩ := ops.dmaMap ctx.backend vaddr len iova flags
  · exact .same backend
  · dsimp only
    rw [h.add_eq hfree]
    by_cases hlen : len = 0
    · rw [if_pos hlen]
      exact .same backend
    · rw [if_neg hlen]
      exact .link backend iova' hlen hfree

theorem Links.of_backend {backend : σ}
    (hlinks : Links { ctx with backend := backend } vaddr len flags ctx') :
    Links ctx vaddr len flags ctx' := by
  cases hlinks with
  | same backend' => exact .same backend'
  | link backend' iova hlen hfree => exact .link backend' iova hlen hfree

theorem iommuMapReserved_links (h : Mapped ctx.map xs) (hfree : Unmapped ctx.map vaddr len)
    (res : Except Errno U64 × σ) :
    Links ctx vaddr len flags (iommuMapReserved ops ctx vaddr len flags res).2 := by
  obtain ⟨e | iova, backend⟩ := res
  · exact .same backend
  · exact Links.of_backend (iommuMapAt_links h hfree)

/-- The address is mapped, or the whole block is not. -/
def Clear (map : IovaMap) (vaddr len : U64) : Prop :=
  (∃ m ∈ map.held, vaddr.toNat ∈ addresses m.vaddr m.len) ∨ Unmapped map vaddr len

def DmaOp.Clear (ctx : IommuCtx σ) : DmaOp → Prop
  | .map vaddr len _ _ => Iommu.Clear ctx.map vaddr len
  | .mapAlign vaddr len _ _ => Iommu.Clear ctx.map vaddr len
  | .unmap _ => True
  | .unmapAll => True

theorem Clear.unmapped (h : Mapped map xs) (hclear : Clear map vaddr len)
    (hmiss : iommuTranslateVaddr map vaddr = none) : Unmapped map vaddr len := by
  rcases hclear with ⟨m, hm, hin⟩ | hfree
  · have hsome := h.translate_eq_some_iff.mpr ⟨m, hm, hin, rfl⟩
    rw [hmiss] at hsome
    cases hsome
  · exact hfree

theorem iommuMapVaddr_links (h : Mapped ctx.map xs) (hclear : Clear ctx.map vaddr len) :
    Links ctx vaddr len flags (iommuMapVaddr ops ctx vaddr len iova flags).2 := by
  have hmaps := iommuMapVaddr_maps ops ctx vaddr len iova flags
  generalize iommuMapVaddr ops ctx vaddr len iova flags = r at hmaps ⊢
  cases hmaps with
  | found => exact .same ctx.backend
  | fixed hmiss => exact iommuMapAt_links h (hclear.unmapped h hmiss)
  | chosen hmiss => exact iommuMapAt_links h (hclear.unmapped h hmiss)
  | reserved hmiss _ res => exact iommuMapReserved_links h (hclear.unmapped h hmiss) res

theorem iommuMapVaddrAlign_links (h : Mapped ctx.map xs) (hclear : Clear ctx.map vaddr len) :
    Links ctx vaddr len flags (iommuMapVaddrAlign ops ctx vaddr len align flags).2 := by
  have hmaps := iommuMapVaddrAlign_maps ops ctx vaddr len align flags
  generalize iommuMapVaddrAlign ops ctx vaddr len align flags = r at hmaps ⊢
  cases hmaps with
  | refused => exact .same ctx.backend
  | found => exact .same ctx.backend
  | unsupported => exact .same ctx.backend
  | reserved hmiss _ res => exact iommuMapReserved_links h (hclear.unmapped h hmiss) res

theorem Links.mapped (hlinks : Links ctx vaddr len flags ctx') (h : Mapped ctx.map xs) :
    ∃ xs', Mapped ctx'.map xs' := by
  cases hlinks with
  | same backend => exact ⟨xs, h⟩
  | link backend iova hlen hfree =>
      obtain ⟨xs', h', -⟩ := h.link (m := ⟨vaddr, len, iova, flags⟩) hlen hfree
      exact ⟨xs', h'⟩

inductive Unmaps (ops : IommuCtxOps σ) (ctx : IommuCtx σ) (xs : List ℕ) (vaddr : U64) :
    Except Errno U64 × IommuCtx σ → Prop
  | missing (hmiss : ¬Covers ctx.map.lo ctx.map.hi xs vaddr.toNat) :
      Unmaps ops ctx xs vaddr (.error .ENOENT, ctx)
  | refused (i : ℕ) (e : Errno) (backend : σ) (hi : i ∈ xs)
      (hin : ctx.map.lo i ≤ vaddr.toNat ∧ vaddr.toNat < ctx.map.hi i)
      (hunmap : ops.dmaUnmap ctx.backend (ctx.map.mapping (.entry i)).iova
        (ctx.map.mapping (.entry i)).len = (.error e, backend)) :
      Unmaps ops ctx xs vaddr (.error e, { ctx with backend := backend })
  | removed (l r : List ℕ) (i : ℕ) (backend : σ) (hxs : xs = l ++ i :: r)
      (hin : ctx.map.lo i ≤ vaddr.toNat ∧ vaddr.toNat < ctx.map.hi i)
      (hunmap : ops.dmaUnmap ctx.backend (ctx.map.mapping (.entry i)).iova
        (ctx.map.mapping (.entry i)).len = (.ok (), backend)) :
      Unmaps ops ctx xs vaddr (.ok (ctx.map.mapping (.entry i)).len,
        { ctx with
          map := iovaMapRemove ctx.map (ctx.map.mapping (.entry i)).vaddr
          backend := putEphemeral ops (ctx.map.mapping (.entry i)).flags backend })

theorem iommuUnmapVaddr_spec (h : Mapped ctx.map xs) :
    Unmaps ops ctx xs vaddr (iommuUnmapVaddr ops ctx vaddr) := by
  rw [iommuUnmapVaddr]
  cases hfind : iovaMapFind ctx.map vaddr with
  | none => exact .missing (h.find_eq_none_iff.mp hfind)
  | some n =>
      obtain ⟨l, i, r, hxs, rfl, hin⟩ := h.find_eq_some hfind
      dsimp only
      rcases hunmap : ops.dmaUnmap ctx.backend (ctx.map.mapping (.entry i)).iova
        (ctx.map.mapping (.entry i)).len with ⟨e | u, backend⟩
      · exact .refused i e backend (by simp [hxs]) hin hunmap
      · exact .removed l r i backend hxs hin hunmap

theorem Unmaps.mapped {res : Except Errno U64 × IommuCtx σ} (hunmaps : Unmaps ops ctx xs vaddr res)
    (h : Mapped ctx.map xs) : ∃ xs', Mapped res.2.map xs' := by
  cases hunmaps with
  | missing => exact ⟨xs, h⟩
  | refused => exact ⟨xs, h⟩
  | removed l r i backend hxs =>
      subst hxs
      exact ⟨l ++ r, h.remove.1⟩

inductive UnmapsAll (ops : IommuCtxOps σ) (ctx : IommuCtx σ) :
    Except Errno Unit × IommuCtx σ → Prop
  | refused (unmapAll : σ → Except Errno Unit × σ) (e : Errno) (backend : σ)
      (hops : ops.dmaUnmapAll = some unmapAll)
      (hunmap : unmapAll ctx.backend = (.error e, backend)) :
      UnmapsAll ops ctx (.error e, { ctx with backend := backend })
  | atOnce (unmapAll : σ → Except Errno Unit × σ) (backend : σ)
      (hops : ops.dmaUnmapAll = some unmapAll) (hunmap : unmapAll ctx.backend = (.ok (), backend)) :
      UnmapsAll ops ctx
        (.ok (), { ctx with map := (iovaMapClearWith ctx.map).1, backend := backend })
  | oneByOne (backend : σ) (hops : ops.dmaUnmapAll = none)
      (hunmap : unmapMappings ops ((iovaMapClearWith ctx.map).2.map ctx.map.mapping) ctx.backend =
        some backend) :
      UnmapsAll ops ctx
        (.ok (), { ctx with map := (iovaMapClearWith ctx.map).1, backend := backend })

theorem iommuUnmapAll_spec {res : Except Errno Unit × IommuCtx σ}
    (hres : iommuUnmapAll ops ctx = some res) : UnmapsAll ops ctx res := by
  rw [iommuUnmapAll] at hres
  cases hops : ops.dmaUnmapAll with
  | none =>
      rw [hops] at hres
      obtain ⟨backend, hunmap, rfl⟩ := Option.map_eq_some_iff.mp hres
      exact .oneByOne backend hops hunmap
  | some unmapAll =>
      rw [hops] at hres
      dsimp only at hres
      rcases hunmap : unmapAll ctx.backend with ⟨e | u, backend⟩
      · rw [hunmap] at hres
        obtain rfl := Option.some.inj hres
        exact .refused unmapAll e backend hops hunmap
      · rw [hunmap] at hres
        obtain rfl := Option.some.inj hres
        exact .atOnce unmapAll backend hops hunmap

theorem UnmapsAll.mapped {res : Except Errno Unit × IommuCtx σ} (hunmaps : UnmapsAll ops ctx res)
    (h : Mapped ctx.map xs) : ∃ xs', Mapped res.2.map xs' := by
  cases hunmaps with
  | refused => exact ⟨xs, h⟩
  | atOnce => exact ⟨[], h.clear⟩
  | oneByOne => exact ⟨[], h.clear⟩

/-- Every call whose block is clear keeps the map well formed. -/
theorem mapped_step (call : DmaOp) (h : ∃ xs, Mapped ctx.map xs) (hclear : call.Clear ctx)
    (hstep : dmaStep ops ctx call = some ctx') : ∃ xs, Mapped ctx'.map xs := by
  obtain ⟨xs, h⟩ := h
  cases call with
  | map vaddr len iova flags =>
      obtain rfl := Option.some.inj hstep
      exact (iommuMapVaddr_links h hclear).mapped h
  | mapAlign vaddr len align flags =>
      obtain rfl := Option.some.inj hstep
      exact (iommuMapVaddrAlign_links h hclear).mapped h
  | unmap vaddr =>
      obtain rfl := Option.some.inj hstep
      exact (iommuUnmapVaddr_spec h).mapped h
  | unmapAll =>
      obtain ⟨res, hres, rfl⟩ := Option.map_eq_some_iff.mp hstep
      exact (iommuUnmapAll_spec hres).mapped h

theorem Mapped.pairwise_disjoint (h : Mapped map xs) :
    (map.held.map fun m => addresses m.vaddr m.len).Pairwise Disjoint := by
  rw [h.held_eq, List.map_map]
  exact h.apart.pairwise_disjoint

/-- The map is a set of disjoint intervals: the comparator is monotone along the list,
and an address is translated by the mapping that covers it, wherever the nodes are
linked. -/
structure Intervals (map : IovaMap) : Prop where
  disjoint : (map.held.map fun m => addresses m.vaddr m.len).Pairwise Disjoint
  monotone : ∃ xs, map.list.heads 0 = toHeads xs ∧
    ∀ vaddr, SignMonotone (iovaCmp map.mapping vaddr) xs
  translate : ∀ vaddr iova, iommuTranslateVaddr map vaddr = some iova ↔
    ∃ m ∈ map.held, vaddr.toNat ∈ addresses m.vaddr m.len ∧ m.iova + (vaddr - m.vaddr) = iova

/-- In a run of calls whose blocks are clear, the map stays a set of disjoint
intervals, whatever the backend does. -/
theorem iommu_map_intervals (ops : IommuCtxOps σ) (rand : ℕ → Bool) (garbage : IovaMapping)
    (ctx : IommuCtx σ) (hmap : ctx.map = iovaMapInit rand garbage) (calls : List DmaOp)
    (ctx' : IommuCtx σ) (hclear : Runs.MeetsAlong (dmaStep ops) DmaOp.Clear ctx calls)
    (hrun : Runs.run (dmaStep ops) ctx calls = some ctx') : Intervals ctx'.map := by
  have hinit : ∃ xs, Mapped ctx.map xs := ⟨[], hmap ▸ mapped_init rand garbage⟩
  obtain ⟨xs, h⟩ : ∃ xs, Mapped ctx'.map xs :=
    Runs.run_invariant (fun _ call _ => mapped_step call) hinit hclear hrun
  exact ⟨h.pairwise_disjoint, ⟨xs, h.holds.heads_zero, h.signMonotone⟩,
    fun _ _ => h.translate_eq_some_iff⟩

end Calls

/-- A backend that accepts everything and maps an address to itself. -/
def identityOps : IommuCtxOps Unit where
  iovaReserve := none
  iovaReserveAlign := none
  iovaPutEphemeral := none
  dmaMap := fun _ vaddr _ _ _ => (.ok vaddr, ())
  dmaUnmap := fun _ _ _ => (.ok (), ())
  dmaUnmapAll := none

def identityCtx (rand : ℕ → Bool) : IommuCtx Unit := ⟨iovaMapInit rand ⟨0, 0, 0, 0⟩, 0, 0, ()⟩

/-- Two pages are mapped, the second one below the first. -/
theorem iommu_map_intervals_two_pages :
    let calls := [DmaOp.map 0x2000 0x1000 0 0, .map 0x1000 0x1000 0 0]
    let run := Runs.run (dmaStep identityOps) (identityCtx fun _ => true) calls
    run.map (fun ctx => ctx.map.held) =
        some [⟨0x1000, 0x1000, 0x1000, 0⟩, ⟨0x2000, 0x1000, 0x2000, 0⟩] ∧
      ∀ ctx, run = some ctx → Intervals ctx.map := by
  refine ⟨by decide +kernel, fun ctx hrun => ?_⟩
  refine iommu_map_intervals identityOps _ _ _ rfl _ ctx ?_ hrun
  refine Runs.meetsAlong_cons rfl (.inr ⟨by decide, ?_⟩)
    (Runs.meetsAlong_cons rfl (.inr ⟨by decide, ?_⟩) trivial)
  · exact fun m hm => absurd hm List.not_mem_nil
  · have hheld :
        (iommuMapVaddr identityOps (identityCtx fun _ => true) 0x2000 0x1000 0 0).2.map.held =
          [⟨0x2000, 0x1000, 0x2000, 0⟩] := by
      decide +kernel
    intro m hm
    rw [hheld, List.mem_singleton] at hm
    rw [hm]
    exact disjoint_addresses_of_le (by decide)

/-- A mapping that reaches over one further up is accepted. Then the two overlap, and
whether an address is found depends on the levels of the nodes. -/
theorem iommu_map_intervals_overlap :
    let calls := [DmaOp.map 0x2000 0x1000 0 0, .map 0x1000 0x4000 0 0]
    let run := fun rand => Runs.run (dmaStep identityOps) (identityCtx rand) calls
    (∃ ctx, run (fun i => decide (i = 0)) = some ctx ∧
      ctx.map.held = [⟨0x1000, 0x4000, 0x1000, 0⟩, ⟨0x2000, 0x1000, 0x2000, 0⟩] ∧
      ¬(ctx.map.held.map fun m => addresses m.vaddr m.len).Pairwise Disjoint ∧
      iommuTranslateVaddr ctx.map 0x4000 = none) ∧
    (run fun _ => false).map (fun ctx => iommuTranslateVaddr ctx.map 0x4000) =
      some (some 0x4000) := by
  refine ⟨?_, by decide +kernel⟩
  have hrun : (Runs.run (dmaStep identityOps) (identityCtx fun i => decide (i = 0))
      [DmaOp.map 0x2000 0x1000 0 0, .map 0x1000 0x4000 0 0]).map
        (fun ctx => (ctx.map.held, iommuTranslateVaddr ctx.map 0x4000)) =
      some ([⟨0x1000, 0x4000, 0x1000, 0⟩, ⟨0x2000, 0x1000, 0x2000, 0⟩], none) := by
    decide +kernel
  obtain ⟨ctx, hctx, hend⟩ := Option.map_eq_some_iff.mp hrun
  obtain ⟨hheld, hmiss⟩ := Prod.mk.inj hend
  refine ⟨ctx, hctx, hheld, fun hdisj => ?_, hmiss⟩
  rw [hheld, List.map_cons, List.map_cons, List.pairwise_cons] at hdisj
  have hlow : 0x2000 ∈ addresses 0x1000 0x4000 := ⟨by decide, by decide⟩
  have hhigh : 0x2000 ∈ addresses 0x2000 0x1000 := ⟨by decide, by decide⟩
  exact Set.disjoint_left.mp (hdisj.1 _ List.mem_cons_self) hlow hhigh

end Iommu

end Libvfn
