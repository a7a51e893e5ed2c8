import Libvfn.Iommu.Dmabuf
import Libvfn.Iommu.Request
import Mathlib.Data.Multiset.AddSub

/-!
# The memory of a context

Buffers for a device come from `mmap` and are mapped; when they are put, they are unmapped. We
keep the books on the mappings of a context: a buffer that is had is one more (`Obtains`), and a
buffer that is put is one less (`Releases`).

What `mmap` gives is not mapped when it is given. A function that takes several buffers is given
blocks that do not overlap either, and what is left of them is fresh still after it has tried to
take one (`Fresh.get`).
-/

namespace Libvfn

namespace Iommu

open Word Support Util Runs

variable {σ : Type*}

def IommuCtx.memory (ctx : IommuCtx σ) : Multiset IovaMapping := ctx.map.held

def IommuDmabuf.mapping (buffer : IommuDmabuf) (flags : U64) : IovaMapping :=
  ⟨buffer.vaddr, buffer.len, buffer.iova, flags⟩

def IommuDmabuf.BeginsIn (buffer : IommuDmabuf) (m : IovaMapping) : Prop :=
  buffer.len ≠ 0 ∧ buffer.vaddr.toNat ∈ addresses m.vaddr m.len

/-- A backend that does not refuse to unmap. -/
def Releasing (ops : IommuCtxOps σ) : Prop :=
  ∀ backend iova len, ∃ backend', ops.dmaUnmap backend iova len = (.ok (), backend')

def blocks (pagesize : U64) (requests : List (U64 × Except Errno U64)) : List (U64 × U64) :=
  requests.filterMap fun r => (pgmap pagesize r.1 r.2).toOption

/-- The blocks are not mapped and do not overlap. -/
structure Fresh (map : IovaMap) (bs : List (U64 × U64)) : Prop where
  unmapped : ∀ b ∈ bs, Unmapped map b.1 b.2
  apart : bs.Pairwise fun b c => Disjoint (addresses b.1 b.2) (addresses c.1 c.2)

def Beside (b c : U64 × U64) : Prop :=
  b.1.toNat + b.2.toNat ≤ c.1.toNat ∨ c.1.toNat + c.2.toNat ≤ b.1.toNat

instance (b c : U64 × U64) : Decidable (Beside b c) := inferInstanceAs (Decidable (_ ∨ _))

theorem Beside.disjoint {b c : U64 × U64} (h : Beside b c) :
    Disjoint (addresses b.1 b.2) (addresses c.1 c.2) := by
  rcases h with hle | hle
  · exact disjoint_addresses_of_le hle
  · exact (disjoint_addresses_of_le hle).symm

def standsClear (map : IovaMap) (bs : List (U64 × U64)) : Bool :=
  (bs.all fun b => b.1.toNat + b.2.toNat < 2 ^ 64 &&
    map.held.all fun m => Beside b (m.vaddr, m.len)) && bs.Pairwise Beside

/-- The context has the mapping of a buffer, and otherwise what it had. -/
structure Obtains (ctx : IommuCtx σ) (buffer : IommuDmabuf) (flags : U64) (ctx' : IommuCtx σ) :
    Prop where
  mapped : ∃ xs, Mapped ctx'.map xs
  memory : ctx'.memory = buffer.mapping flags ::ₘ ctx.memory
  vaddr_ne : buffer.vaddr ≠ 0
  len_ne : buffer.len ≠ 0

structure Releases (ctx : IommuCtx σ) (m : IovaMapping) (ctx' : IommuCtx σ) : Prop where
  mapped : ∃ xs, Mapped ctx'.map xs
  memory : ctx.memory = m ::ₘ ctx'.memory

section

variable {ops : IommuCtxOps σ} {pagesize sz flags : U64} {ctx ctx' : IommuCtx σ}
  {buffer buffer' : IommuDmabuf} {mmap : Except Errno U64} {res : Except Errno Unit}
  {xs : List ℕ} {bs : List (U64 × U64)} {rest : List (U64 × Except Errno U64)}

theorem Fresh.tail {b : U64 × U64} (h : Fresh ctx.map (b :: bs)) : Fresh ctx.map bs :=
  ⟨fun c hc => h.unmapped c (List.mem_cons_of_mem b hc), (List.pairwise_cons.mp h.apart).2⟩

theorem Fresh.of_held (h : Fresh ctx.map bs)
    (hheld : ∀ m ∈ ctx'.map.held, m ∈ ctx.map.held ∨
      ∀ b ∈ bs, Disjoint (addresses b.1 b.2) (addresses m.vaddr m.len)) :
    Fresh ctx'.map bs := by
  refine ⟨fun b hb => ⟨(h.unmapped b hb).1, fun m hm => ?_⟩, h.apart⟩
  rcases hheld m hm with hold | hbeside
  · exact (h.unmapped b hb).2 m hold
  · exact hbeside b hb

theorem fresh_of_standsClear {map : IovaMap} (h : standsClear map bs = true) : Fresh map bs := by
  rw [standsClear, Bool.and_eq_true, List.all_eq_true, decide_eq_true_eq] at h
  refine ⟨fun b hb => ?_, h.2.imp Beside.disjoint⟩
  have hb := h.1 b hb
  rw [Bool.and_eq_true, decide_eq_true_eq, List.all_eq_true] at hb
  exact ⟨hb.1, fun m hm => (of_decide_eq_true (hb.2 m hm)).disjoint⟩

theorem blocks_cons_ok {vaddr len : U64} (h : pgmap pagesize sz mmap = .ok (vaddr, len)) :
    blocks pagesize ((sz, mmap) :: rest) = (vaddr, len) :: blocks pagesize rest := by
  rw [blocks, List.filterMap_cons, h]
  rfl

theorem blocks_cons_error {e : Errno} (h : pgmap pagesize sz mmap = .error e) :
    blocks pagesize ((sz, mmap) :: rest) = blocks pagesize rest := by
  rw [blocks, List.filterMap_cons, h]
  rfl

theorem Fresh.skip {request : U64 × Except Errno U64}
    (h : Fresh ctx.map (blocks pagesize (request :: rest))) :
    Fresh ctx.map (blocks pagesize rest) := by
  obtain ⟨sz, mmap⟩ := request
  rcases hpgmap : pgmap pagesize sz mmap with e | ⟨vaddr, len⟩
  · rwa [blocks_cons_error hpgmap] at h
  · rw [blocks_cons_ok hpgmap] at h
    exact h.tail

theorem Mapped.translate_of_unmapped (h : Mapped ctx.map xs) {vaddr len : U64} (hlen : len ≠ 0)
    (hfree : Unmapped ctx.map vaddr len) : iommuTranslateVaddr ctx.map vaddr = none := by
  rw [iommuTranslateVaddr, Option.map_eq_none_iff, h.find_eq_none_iff]
  exact h.not_covers hfree (start_mem_addresses hlen)

theorem obtains_of_map (h : Mapped ctx.map xs) {vaddr len iova got : U64}
    (hpgmap : pgmap pagesize sz mmap = .ok (vaddr, len)) (hfree : Unmapped ctx.map vaddr len)
    (hmap : iommuMapVaddr ops ctx vaddr len iova flags = (.ok got, ctx')) :
    Obtains ctx ⟨vaddr, got, len⟩ flags ctx' := by
  obtain ⟨-, hvaddr, -, hlen⟩ := pgmap_eq_ok hpgmap
  have hmiss := h.translate_of_unmapped hlen hfree
  rcases iommuMapVaddr_eq_ok hmap with ⟨hfound, -⟩ | ⟨-, -, hlink⟩
  · rw [hmiss] at hfound
    cases hfound
  · obtain ⟨xs', h', hheld⟩ := h.link (m := ⟨vaddr, len, got, flags⟩) hlen hfree
    rw [← hlink] at h' hheld
    exact ⟨⟨xs', h'⟩, Multiset.coe_eq_coe.mpr hheld, hvaddr, hlen⟩

/-- What comes of a request: the buffer is had, or the map stays as it is. What is left of the
blocks is fresh either way. -/
theorem Fresh.get (h : ∃ xs, Mapped ctx.map xs)
    (hfresh : Fresh ctx.map (blocks pagesize ((sz, mmap) :: rest)))
    (hget : iommuGetDmabuf ops pagesize ctx buffer sz flags mmap = (res, buffer', ctx')) :
    Fresh ctx'.map (blocks pagesize rest) ∧
      (res = .ok () ∧ Obtains ctx buffer' flags ctx' ∨
        (∃ e, res = .error e) ∧ ctx'.map = ctx.map) := by
  obtain ⟨xs, h⟩ := h
  have hgets := iommuGetDmabuf_gets ops pagesize ctx buffer sz flags mmap
  rw [hget] at hgets
  cases hgets with
  | noMemory e hpgmap =>
      rw [blocks_cons_error hpgmap] at hfresh
      exact ⟨hfresh, .inr ⟨⟨e, rfl⟩, rfl⟩⟩
  | unmapped e vaddr len _ hpgmap hmap =>
      rw [blocks_cons_ok hpgmap] at hfresh
      have hsame := (iommuMapVaddr_error hmap).2
      exact ⟨hsame ▸ hfresh.tail, .inr ⟨⟨e, rfl⟩, hsame⟩⟩
  | mapped vaddr len iova _ hpgmap hmap =>
      rw [blocks_cons_ok hpgmap] at hfresh
      have hobtains := obtains_of_map h hpgmap (hfresh.unmapped _ List.mem_cons_self) hmap
      have hheld := Multiset.coe_eq_coe.mp hobtains.memory
      refine ⟨hfresh.tail.of_held fun m hm => ?_, .inl ⟨rfl, hobtains⟩⟩
      rcases List.mem_cons.mp (hheld.mem_iff.mp hm) with rfl | hold
      · exact .inr fun b hb => ((List.pairwise_cons.mp hfresh.apart).1 b hb).symm
      · exact .inl hold

/-- When a buffer is put that is mapped, its mapping goes, unless the backend refuses. -/
theorem returns_iommuPutDmabuf (h : ∃ xs, Mapped ctx.map xs) (hlen : buffer.len ≠ 0)
    (hmem : buffer.mapping flags ∈ ctx.memory) :
    Returns (Releasing ops) (fun r => r.1 = .zeroed ∧ Releases ctx (buffer.mapping flags) r.2)
      (iommuPutDmabuf ops ctx buffer) := by
  obtain ⟨xs, h⟩ := h
  have hm := Multiset.mem_coe.mp hmem
  rw [h.held_eq] at hm
  obtain ⟨i, hi, hmapping⟩ := List.mem_map.mp hm
  have hvaddr : (ctx.map.mapping (.entry i)).vaddr = buffer.vaddr :=
    congrArg IovaMapping.vaddr hmapping
  have hcovers : ctx.map.lo i ≤ buffer.vaddr.toNat ∧ buffer.vaddr.toNat < ctx.map.hi i := by
    rw [← hvaddr]
    exact ⟨le_rfl, h.apart.nonempty i hi⟩
  have hunmaps : Unmaps ops ctx xs buffer.vaddr (iommuUnmapVaddr ops ctx buffer.vaddr) :=
    iommuUnmapVaddr_spec h
  rw [iommuPutDmabuf, if_neg hlen]
  generalize iommuUnmapVaddr ops ctx buffer.vaddr = r at hunmaps ⊢
  cases hunmaps with
  | missing hmiss => exact absurd ⟨i, hi, hcovers⟩ hmiss
  | refused j e backend hj hin hunmap =>
      refine ⟨fun hops => ?_, fun r hr => by cases hr⟩
      obtain ⟨backend', hok⟩ := hops ctx.backend (ctx.map.mapping (.entry j)).iova
        (ctx.map.mapping (.entry j)).len
      rw [hok] at hunmap
      cases (Prod.mk.inj hunmap).1
  | removed l r j backend hxs hin hunmap =>
      subst hxs
      obtain rfl := h.apart.eq_of_mem hi (by simp) hcovers hin
      obtain ⟨h', hheld⟩ := h.remove
      rw [← hmapping]
      exact returns_some ⟨rfl, ⟨l ++ r, h'⟩, Multiset.coe_eq_coe.mpr hheld⟩

/-- A buffer that is put takes the mapping with it that it begins in, whosoever that is. -/
theorem mem_held_of_iommuPutDmabuf (h : ∃ xs, Mapped ctx.map xs)
    (hput : iommuPutDmabuf ops ctx buffer = some (buffer', ctx')) :
    (∃ xs, Mapped ctx'.map xs) ∧
      ∀ m, m ∈ ctx'.map.held ↔ m ∈ ctx.map.held ∧ ¬buffer.BeginsIn m := by
  obtain ⟨xs, h⟩ := h
  rcases iommuPutDmabuf_eq_some hput with ⟨hlen, -, rfl⟩ | ⟨hlen, -, len, hunmap⟩
  · exact ⟨⟨xs, h⟩, fun m => (and_iff_left fun hbegins => hbegins.1 hlen).symm⟩
  · have hunmaps : Unmaps ops ctx xs buffer.vaddr (iommuUnmapVaddr ops ctx buffer.vaddr) :=
      iommuUnmapVaddr_spec h
    rw [hunmap] at hunmaps
    cases hunmaps with
    | removed l r i backend hxs hin =>
        subst hxs
        obtain ⟨h', hheld⟩ := h.remove
        have hdisjoint := (hheld.map _).pairwise h.pairwise_disjoint fun hab => hab.symm
        rw [List.map_cons, List.pairwise_cons] at hdisjoint
        refine ⟨⟨l ++ r, h'⟩, fun m => ⟨fun hm => ⟨?_, fun hbegins => ?_⟩, ?_⟩⟩
        · exact hheld.mem_iff.mpr (List.mem_cons_of_mem _ hm)
        · exact Set.disjoint_left.mp (hdisjoint.1 _ (List.mem_map_of_mem hm)) hin hbegins.2
        · rintro ⟨hm, hbegins⟩
          rcases List.mem_cons.mp (hheld.mem_iff.mp hm) with rfl | hm
          · exact absurd ⟨hlen, hin⟩ hbegins
          · exact hm

end

end Iommu

end Libvfn
