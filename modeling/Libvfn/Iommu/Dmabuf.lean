import Libvfn.Iommu.Intervals

/-!
# Buffers for a device

`iommu_get_dmabuf` takes memory from the process and maps it for the device, and
`iommu_put_dmabuf` undoes both. The answer of `mmap` is an argument; what the IOMMU
answers is up to the backend.

A buffer that could not be had keeps the address and the length from the attempt. So it
is not taken for an empty one when it is put, and as nothing is mapped there, putting it
ends the process.
-/

namespace Libvfn

namespace Iommu

open Word Support Util

/-- `struct iommu_dmabuf`, but for the context. The length is a `ssize_t`. -/
structure IommuDmabuf where
  vaddr : U64
  iova : U64
  len : U64
  deriving DecidableEq

def IommuDmabuf.zeroed : IommuDmabuf := ⟨0, 0, 0⟩

def mapFailed : U64 := -1

/-- `pgmap`: the address and the length of the memory. `mmap` refuses a length of zero and
one that is negative as a `ssize_t`, and the memory that it gives is never at `NULL`. -/
def pgmap (pagesize sz : U64) (mmap : Except Errno U64) : Except Errno (U64 × U64) :=
  let len := alignUp sz pagesize
  if len = 0 then .error .EINVAL
  else if 2 ^ 63 ≤ len.toNat then .error .ENOMEM
  else
    match mmap with
    | .error e => .error e
    | .ok vaddr => if vaddr = 0 ∨ vaddr = mapFailed then .error .ENOMEM else .ok (vaddr, len)

variable {σ : Type*}

/-- `iommu_get_dmabuf`: the buffer is written whether the call fails or not. -/
def iommuGetDmabuf (ops : IommuCtxOps σ) (pagesize : U64) (ctx : IommuCtx σ)
    (buffer : IommuDmabuf) (sz flags : U64) (mmap : Except Errno U64) :
    Except Errno Unit × IommuDmabuf × IommuCtx σ :=
  match pgmap pagesize sz mmap with
  | .error e => (.error e, { buffer with vaddr := mapFailed, len := -1 }, ctx)
  | .ok (vaddr, len) =>
      match iommuMapVaddr ops ctx vaddr len buffer.iova flags with
      | (.error e, ctx) => (.error e, { buffer with vaddr := vaddr, len := len }, ctx)
      | (.ok iova, ctx) => (.ok (), ⟨vaddr, iova, len⟩, ctx)

/-- `iommu_put_dmabuf`. It is fatal if the memory cannot be unmapped. -/
def iommuPutDmabuf (ops : IommuCtxOps σ) (ctx : IommuCtx σ) (buffer : IommuDmabuf) :
    Option (IommuDmabuf × IommuCtx σ) :=
  if buffer.len = 0 then some (buffer, ctx)
  else
    match iommuUnmapVaddr ops ctx buffer.vaddr with
    | (.error _, _) => none
    | (.ok _, ctx) => some (.zeroed, ctx)

/-! ## Taking a buffer -/

section

variable {ops : IommuCtxOps σ} {pagesize sz flags vaddr len iova : U64} {ctx ctx' : IommuCtx σ}
  {buffer buffer' : IommuDmabuf} {mmap : Except Errno U64} {e : Errno}
  {res : Except Errno Unit} {xs : List ℕ}

theorem pgmap_eq_ok (h : pgmap pagesize sz mmap = .ok (vaddr, len)) :
    mmap = .ok vaddr ∧ vaddr ≠ 0 ∧ vaddr ≠ mapFailed ∧ len ≠ 0 := by
  simp only [pgmap] at h
  split_ifs at h with hzero hbig
  cases mmap with
  | error e => cases h
  | ok v =>
      dsimp only at h
      split_ifs at h with hbad
      obtain ⟨rfl, rfl⟩ := Prod.mk.inj (Except.ok.inj h)
      exact ⟨rfl, fun h => hbad (.inl h), fun h => hbad (.inr h), hzero⟩

inductive GetsDmabuf (ops : IommuCtxOps σ) (pagesize : U64) (ctx : IommuCtx σ)
    (buffer : IommuDmabuf) (sz flags : U64) (mmap : Except Errno U64) :
    Except Errno Unit × IommuDmabuf × IommuCtx σ → Prop
  | noMemory (e : Errno) (hpgmap : pgmap pagesize sz mmap = .error e) :
      GetsDmabuf ops pagesize ctx buffer sz flags mmap
        (.error e, { buffer with vaddr := mapFailed, len := -1 }, ctx)
  | unmapped (e : Errno) (vaddr len : U64) (ctx' : IommuCtx σ)
      (hpgmap : pgmap pagesize sz mmap = .ok (vaddr, len))
      (hmap : iommuMapVaddr ops ctx vaddr len buffer.iova flags = (.error e, ctx')) :
      GetsDmabuf ops pagesize ctx buffer sz flags mmap
        (.error e, { buffer with vaddr := vaddr, len := len }, ctx')
  | mapped (vaddr len iova : U64) (ctx' : IommuCtx σ)
      (hpgmap : pgmap pagesize sz mmap = .ok (vaddr, len))
      (hmap : iommuMapVaddr ops ctx vaddr len buffer.iova flags = (.ok iova, ctx')) :
      GetsDmabuf ops pagesize ctx buffer sz flags mmap (.ok (), ⟨vaddr, iova, len⟩, ctx')

theorem iommuGetDmabuf_gets (ops : IommuCtxOps σ) (pagesize : U64) (ctx : IommuCtx σ)
    (buffer : IommuDmabuf) (sz flags : U64) (mmap : Except Errno U64) :
    GetsDmabuf ops pagesize ctx buffer sz flags mmap
      (iommuGetDmabuf ops pagesize ctx buffer sz flags mmap) := by
  rw [iommuGetDmabuf]
  rcases hpgmap : pgmap pagesize sz mmap with e | ⟨vaddr, len⟩
  · exact .noMemory e hpgmap
  · dsimp only
    rcases hmap : iommuMapVaddr ops ctx vaddr len buffer.iova flags with ⟨e | iova, ctx'⟩
    · exact .unmapped e vaddr len ctx' hpgmap hmap
    · exact .mapped vaddr len iova ctx' hpgmap hmap

/-- A buffer has an address and a length after the call, whatever came of it. -/
theorem iommuGetDmabuf_ne_zero
    (h : iommuGetDmabuf ops pagesize ctx buffer sz flags mmap = (res, buffer', ctx')) :
    buffer'.vaddr ≠ 0 ∧ buffer'.len ≠ 0 := by
  have hgets := iommuGetDmabuf_gets ops pagesize ctx buffer sz flags mmap
  rw [h] at hgets
  cases hgets with
  | noMemory =>
      have hne : mapFailed ≠ 0 := by decide
      exact ⟨hne, hne⟩
  | unmapped _ vaddr len _ hpgmap =>
      obtain ⟨-, hne, -, hlen⟩ := pgmap_eq_ok hpgmap
      exact ⟨hne, hlen⟩
  | mapped vaddr len _ _ hpgmap =>
      obtain ⟨-, hne, -, hlen⟩ := pgmap_eq_ok hpgmap
      exact ⟨hne, hlen⟩

theorem iommuGetDmabuf_vaddr
    (h : iommuGetDmabuf ops pagesize ctx buffer sz flags mmap = (res, buffer', ctx')) :
    buffer'.vaddr = mapFailed ∨ mmap = .ok buffer'.vaddr := by
  have hgets := iommuGetDmabuf_gets ops pagesize ctx buffer sz flags mmap
  rw [h] at hgets
  cases hgets with
  | noMemory => exact .inl rfl
  | unmapped _ _ _ _ hpgmap => exact .inr (pgmap_eq_ok hpgmap).1
  | mapped _ _ _ _ hpgmap => exact .inr (pgmap_eq_ok hpgmap).1

/-! ## A mapping that fails -/

theorem iommuMapAt_error_map (h : iommuMapAt ops ctx vaddr len iova flags = (.error e, ctx')) :
    ctx'.map = ctx.map := by
  have hmaps := iommuMapAt_maps ops ctx vaddr len iova flags
  rw [h] at hmaps
  cases hmaps with
  | refused => rfl

theorem iommuMapReserved_error_map {r : Except Errno U64 × σ}
    (h : iommuMapReserved ops ctx vaddr len flags r = (.error e, ctx')) :
    ctx'.map = ctx.map := by
  obtain ⟨e | got, backend⟩ := r
  · obtain ⟨-, rfl⟩ := Prod.mk.inj h
    rfl
  · rw [iommuMapReserved] at h
    have hmap := iommuMapAt_error_map h
    exact hmap

theorem iommuMapVaddr_error (h : iommuMapVaddr ops ctx vaddr len iova flags = (.error e, ctx')) :
    iommuTranslateVaddr ctx.map vaddr = none ∧ ctx'.map = ctx.map := by
  have hmaps := iommuMapVaddr_maps ops ctx vaddr len iova flags
  generalize hr : iommuMapVaddr ops ctx vaddr len iova flags = r at hmaps
  cases hmaps with
  | found got => cases hr.symm.trans h
  | fixed hmiss => exact ⟨hmiss, iommuMapAt_error_map (hr.symm.trans h)⟩
  | chosen hmiss => exact ⟨hmiss, iommuMapAt_error_map (hr.symm.trans h)⟩
  | reserved hmiss _ res => exact ⟨hmiss, iommuMapReserved_error_map (hr.symm.trans h)⟩

theorem Mapped.translate_mapFailed (h : Mapped ctx.map xs) :
    iommuTranslateVaddr ctx.map mapFailed = none := by
  rw [iommuTranslateVaddr, Option.map_eq_none_iff, h.find_eq_none_iff]
  rintro ⟨i, hi, -, hhi⟩
  have hsmall := h.small i hi
  have hlast : mapFailed.toNat = 2 ^ 64 - 1 := by decide
  omega

theorem iommuGetDmabuf_error (h : Mapped ctx.map xs)
    (hget : iommuGetDmabuf ops pagesize ctx buffer sz flags mmap = (.error e, buffer', ctx')) :
    iommuTranslateVaddr ctx.map buffer'.vaddr = none ∧ ctx'.map = ctx.map := by
  have hgets := iommuGetDmabuf_gets ops pagesize ctx buffer sz flags mmap
  rw [hget] at hgets
  cases hgets with
  | noMemory => exact ⟨h.translate_mapFailed, rfl⟩
  | unmapped _ _ _ _ _ hmap => exact iommuMapVaddr_error hmap

def ClearMmap (pagesize : U64) (map : IovaMap) (sz : U64) (mmap : Except Errno U64) : Prop :=
  ∀ vaddr len, pgmap pagesize sz mmap = .ok (vaddr, len) → Clear map vaddr len

theorem iommuGetDmabuf_mapped (h : Mapped ctx.map xs) (hclear : ClearMmap pagesize ctx.map sz mmap)
    (hget : iommuGetDmabuf ops pagesize ctx buffer sz flags mmap = (res, buffer', ctx')) :
    ∃ xs', Mapped ctx'.map xs' := by
  have hgets := iommuGetDmabuf_gets ops pagesize ctx buffer sz flags mmap
  rw [hget] at hgets
  cases hgets with
  | noMemory => exact ⟨xs, h⟩
  | unmapped e _ _ _ _ hmap =>
      rw [(iommuMapVaddr_error hmap).2]
      exact ⟨xs, h⟩
  | mapped vaddr len iova _ hpgmap hmap =>
      have hlinks : Links ctx vaddr len flags
          (iommuMapVaddr ops ctx vaddr len buffer.iova flags).2 :=
        iommuMapVaddr_links h (hclear _ _ hpgmap)
      rw [hmap] at hlinks
      exact hlinks.mapped h

/-! ## Putting a buffer -/

theorem iommuPutDmabuf_of_translate_none (hlen : buffer.len ≠ 0)
    (hmiss : iommuTranslateVaddr ctx.map buffer.vaddr = none) :
    iommuPutDmabuf ops ctx buffer = none := by
  rw [iommuTranslateVaddr, Option.map_eq_none_iff] at hmiss
  rw [iommuPutDmabuf, if_neg hlen, iommuUnmapVaddr, hmiss]

theorem iommuPutDmabuf_of_get_error (h : Mapped ctx.map xs)
    (hget : iommuGetDmabuf ops pagesize ctx buffer sz flags mmap = (.error e, buffer', ctx')) :
    iommuPutDmabuf ops ctx' buffer' = none := by
  obtain ⟨hmiss, hmap⟩ := iommuGetDmabuf_error h hget
  exact iommuPutDmabuf_of_translate_none (iommuGetDmabuf_ne_zero hget).2 (hmap ▸ hmiss)

theorem iommuPutDmabuf_eq_some (hput : iommuPutDmabuf ops ctx buffer = some (buffer', ctx')) :
    buffer.len = 0 ∧ buffer' = buffer ∧ ctx' = ctx ∨
      buffer.len ≠ 0 ∧ buffer' = .zeroed ∧
        ∃ len, iommuUnmapVaddr ops ctx buffer.vaddr = (.ok len, ctx') := by
  rw [iommuPutDmabuf] at hput
  split_ifs at hput with hlen
  · obtain ⟨rfl, rfl⟩ := Prod.mk.inj (Option.some.inj hput)
    exact .inl ⟨hlen, rfl, rfl⟩
  · rcases hunmap : iommuUnmapVaddr ops ctx buffer.vaddr with ⟨e | len, ctx''⟩
    · rw [hunmap] at hput
      cases hput
    · rw [hunmap] at hput
      obtain ⟨rfl, rfl⟩ := Prod.mk.inj (Option.some.inj hput)
      exact .inr ⟨hlen, rfl, len, rfl⟩

/-- Unmapping maps nothing. -/
theorem Unmaps.translate_none {r : Except Errno U64 × IommuCtx σ}
    (hunmaps : Unmaps ops ctx xs vaddr r) (h : Mapped ctx.map xs) {w : U64}
    (hmiss : iommuTranslateVaddr ctx.map w = none) :
    iommuTranslateVaddr r.2.map w = none := by
  cases hunmaps with
  | missing => exact hmiss
  | refused => exact hmiss
  | removed l r i backend hxs =>
      subst hxs
      obtain ⟨h', hperm⟩ := h.remove
      refine Option.eq_none_iff_forall_ne_some.mpr fun iova hsome => ?_
      obtain ⟨m, hm, hin⟩ := h'.translate_eq_some_iff.mp hsome
      have hold := h.translate_eq_some_iff.mpr ⟨m, hperm.mem_iff.mpr (.tail _ hm), hin⟩
      rw [hmiss] at hold
      cases hold

def Missing (ctx : IommuCtx σ) (vaddr : U64) : Prop :=
  (∃ xs, Mapped ctx.map xs) ∧ iommuTranslateVaddr ctx.map vaddr = none

theorem Missing.put (h : Missing ctx vaddr)
    (hput : iommuPutDmabuf ops ctx buffer = some (buffer', ctx')) : Missing ctx' vaddr := by
  obtain ⟨⟨xs, h⟩, hmiss⟩ := h
  rcases iommuPutDmabuf_eq_some hput with ⟨-, -, rfl⟩ | ⟨-, -, len, hunmap⟩
  · exact ⟨⟨xs, h⟩, hmiss⟩
  · have hunmaps : Unmaps ops ctx xs buffer.vaddr _ := iommuUnmapVaddr_spec h
    rw [hunmap] at hunmaps
    exact ⟨hunmaps.mapped h, hunmaps.translate_none h hmiss⟩

end

end Iommu

end Libvfn
