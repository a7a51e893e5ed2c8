import Libvfn.Nvme.Ctrl

/-!
# Discarding after a failure

A queue that could not be configured is discarded like any other, by `nvme_discard_cq`,
`nvme_discard_sq` or `nvme_close`. These look at the address of the queue's memory, and so
does `iommu_put_dmabuf` at the length of a buffer; both are left behind by a failed
`iommu_get_dmabuf`.

So putting a buffer that could not be had ends the process. A failed queue can be discarded
exactly if the failure came early: the arguments were refused, which leaves the slot as it
was, or a submission queue got no pages for its trackers, so that there was no attempt at
its memory.
-/

namespace Libvfn

namespace Nvme

namespace Ctrl

open Word Support Iommu

variable {σ : Type*} {ops : IommuCtxOps σ} {pageshift qid : ℕ} {s s' : State σ}
  {ctx ctx' : IommuCtx σ} {mem : Iommu.IommuDmabuf} {preallocated : Bool} {vaddr : U64}

/-! ## Memory that could not be had -/

/-- The memory of a queue has an address and a length, but nothing is mapped there. -/
structure LostMem (ctx : IommuCtx σ) (mem : Iommu.IommuDmabuf) (preallocated : Bool) : Prop where
  vaddr : mem.vaddr ≠ 0
  len : mem.len ≠ 0
  own : preallocated = false
  missing : Missing ctx mem.vaddr

def LostCq (s : State σ) (qid : ℕ) : Prop :=
  LostMem s.ctx (s.cq qid).mem (s.cq qid).preallocated

def LostSq (s : State σ) (qid : ℕ) : Prop :=
  LostMem s.ctx (s.sq qid).mem (s.sq qid).preallocated

theorem LostMem.putMem (h : LostMem ctx mem preallocated) :
    putMem ops ctx mem preallocated = none := by
  rw [Ctrl.putMem, h.own, if_neg Bool.false_ne_true,
    iommuPutDmabuf_of_translate_none h.len h.missing.2]
  rfl

theorem LostMem.later (h : LostMem ctx mem preallocated) (hmiss : Missing ctx' mem.vaddr) :
    LostMem ctx' mem preallocated :=
  ⟨h.vaddr, h.len, h.own, hmiss⟩

theorem LostMem.of_get_error {pagesize sz flags : U64} {mmap : Except Errno U64} {e : Errno}
    {buffer : Iommu.IommuDmabuf} {xs : List ℕ} (h : Mapped ctx.map xs)
    (hget : Iommu.iommuGetDmabuf ops pagesize ctx buffer sz flags mmap = (.error e, mem, ctx')) :
    LostMem ctx' mem false := by
  obtain ⟨hvaddr, hlen⟩ := Iommu.iommuGetDmabuf_ne_zero hget
  obtain ⟨hmiss, hmap⟩ := Iommu.iommuGetDmabuf_error h hget
  exact ⟨hvaddr, hlen, rfl, ⟨xs, hmap ▸ h⟩, hmap ▸ hmiss⟩

theorem LostCq.discard (h : LostCq s qid) : nvmeDiscardCq ops s qid = none := by
  rw [nvmeDiscardCq, if_neg h.vaddr, h.putMem]
  rfl

theorem LostSq.discard (h : LostSq s qid) : nvmeDiscardSq ops s qid = none := by
  rw [nvmeDiscardSq, if_neg h.vaddr, h.putMem]
  rfl

/-! ## Closing the controller -/

theorem missing_putMem (h : Missing ctx vaddr)
    (hput : putMem ops ctx mem preallocated = some ctx') : Missing ctx' vaddr := by
  rw [Ctrl.putMem] at hput
  split_ifs at hput with hpre
  · exact Option.some.inj hput ▸ h
  · obtain ⟨r, hr, rfl⟩ := Option.map_eq_some_iff.mp hput
    exact h.put hr

theorem LostCq.discardSq {i : ℕ} (h : LostCq s qid) (hdisc : nvmeDiscardSq ops s i = some s') :
    LostCq s' qid ∧ s'.opts = s.opts := by
  cases nvmeDiscardSq_discards hdisc with
  | empty => exact ⟨h, rfl⟩
  | discarded ctx ctx' heap pages _ hput _ hpages =>
      exact ⟨h.later ((missing_putMem h.missing hput).put hpages), rfl⟩

theorem LostCq.discardCq {i : ℕ} (h : LostCq s qid) (hdisc : nvmeDiscardCq ops s i = some s') :
    LostCq s' qid := by
  cases nvmeDiscardCq_discards hdisc with
  | empty => exact h
  | discarded ctx _ hput =>
      have hne : qid ≠ i := by
        rintro rfl
        rw [h.discard] at hdisc
        cases hdisc
      dsimp only [LostCq]
      rw [State.withCq_cq_of_ne hne]
      exact h.later (missing_putMem h.missing hput)

theorem LostSq.discardSq {i : ℕ} (h : LostSq s qid) (hdisc : nvmeDiscardSq ops s i = some s') :
    LostSq s' qid := by
  cases nvmeDiscardSq_discards hdisc with
  | empty => exact h
  | discarded ctx ctx' heap pages _ hput _ hpages =>
      have hne : qid ≠ i := by
        rintro rfl
        rw [h.discard] at hdisc
        cases hdisc
      dsimp only [LostSq]
      rw [State.withSq_sq_of_ne hne]
      exact h.later ((missing_putMem h.missing hput).put hpages)

theorem LostCq.close (h : LostCq s qid) (hqid : qid < s.opts.ncqr + 2) :
    nvmeClose ops s = none := by
  rw [nvmeClose, Option.bind_eq_none_iff]
  intro t ht
  have hstep : ∀ u i u', LostCq u qid ∧ u.opts = s.opts → nvmeDiscardSq ops u i = some u' →
      LostCq u' qid ∧ u'.opts = s.opts := by
    rintro u i u' ⟨hu, hopts⟩ hdisc
    obtain ⟨hu', hopts'⟩ := hu.discardSq hdisc
    exact ⟨hu', hopts'.trans hopts⟩
  obtain ⟨hlost, hopts⟩ := Runs.run_invariant_of_step hstep ⟨h, rfl⟩ ht
  have hkeep : ∀ u i u', LostCq u qid → nvmeDiscardCq ops u i = some u' → LostCq u' qid :=
    fun _ _ _ => LostCq.discardCq
  rw [Runs.run_eq_none_of_mem hkeep (fun _ => LostCq.discard) hlost
    (List.mem_range.mpr (hopts ▸ hqid))]
  rfl

theorem LostSq.close (h : LostSq s qid) (hqid : qid < s.opts.nsqr + 2) :
    nvmeClose ops s = none := by
  have hkeep : ∀ u i u', LostSq u qid → nvmeDiscardSq ops u i = some u' → LostSq u' qid :=
    fun _ _ _ => LostSq.discardSq
  rw [nvmeClose, Runs.run_eq_none_of_mem hkeep (fun _ => LostSq.discard) h
    (List.mem_range.mpr hqid)]
  rfl

/-! ## A queue that could not be configured -/

section Failed

variable {qsize vector : ℤ} {cq : ℕ} {e : Errno} {xs : List ℕ}

theorem nvmeConfigureCq_lost {a : CqAnswers} (h : Mapped s.ctx.map xs)
    (hfail : nvmeConfigureCq ops pageshift s qid qsize vector a = (.error e, s'))
    (hcheck : configureCheck s.ncqa qid qsize a.cap = .ok ()) :
    LostCq s' qid ∧ s'.opts = s.opts := by
  have hcfg := nvmeConfigureCq_configures ops pageshift s qid qsize vector a
  rw [hfail] at hcfg
  cases hcfg with
  | refused _ hno => cases hno.symm.trans hcheck
  | tried _ mem ctx _ hmem =>
      refine ⟨?_, rfl⟩
      rw [LostCq, State.withCq_cq_self]
      exact .of_get_error h hmem

def HasPages (ops : IommuCtxOps σ) (pageshift : ℕ) (s : State σ) (qsize : ℤ)
    (pages : Except Errno U64) : Prop :=
  (Iommu.iommuGetDmabuf ops (vfnPagesize pageshift) s.ctx .zeroed (pagesSize qsize s.mps) 0
    pages).1 = .ok ()

/-- A submission queue that has got its trackers, but could not be configured. -/
theorem nvmeConfigureSq_lost {a : SqAnswers} (h : Mapped s.ctx.map xs)
    (hclear : ClearMmap (vfnPagesize pageshift) s.ctx.map (pagesSize qsize s.mps) a.pages)
    (hfail : nvmeConfigureSq ops pageshift s qid qsize cq a = some (.error e, s'))
    (hcheck : configureCheck s.nsqa qid qsize a.cap = .ok ())
    (hpages : HasPages ops pageshift s qsize a.pages) : LostSq s' qid ∧ s'.opts = s.opts := by
  cases nvmeConfigureSq_configures hfail with
  | refused _ hno => cases hno.symm.trans hcheck
  | noPages _ pages ctx _ hno =>
      rw [HasPages, hno] at hpages
      cases hpages
  | noMem _ pages mem pages' ctx ctx' ctx'' heap _ hgot hmem _ hput =>
      obtain ⟨ys, h'⟩ := Iommu.iommuGetDmabuf_mapped h hclear hgot
      have hlost : LostMem ctx' mem false := .of_get_error h' hmem
      refine ⟨?_, rfl⟩
      rw [LostSq, State.withSq_sq_self]
      exact hlost.later (hlost.missing.put hput)

/-- A submission queue without pages has not come to its memory. -/
theorem nvmeConfigureSq_discard_of_no_pages {a : SqAnswers}
    (hfail : nvmeConfigureSq ops pageshift s qid qsize cq a = some (.error e, s'))
    (hbefore : (nvmeDiscardSq ops s qid).isSome)
    (hearly : ¬(configureCheck s.nsqa qid qsize a.cap = .ok () ∧
      HasPages ops pageshift s qsize a.pages)) :
    (nvmeDiscardSq ops s' qid).isSome := by
  cases nvmeConfigureSq_configures hfail with
  | refused => exact hbefore
  | noPages _ pages ctx =>
      have hempty : ((s.withSq qid { s.newSq qid qsize cq a.cap with pages := pages } ctx
          s.heap).sq qid).mem.vaddr = 0 := by
        simp [State.newSq, Iommu.IommuDmabuf.zeroed]
      rw [nvmeDiscardSq, if_pos hempty]
      rfl
  | noMem _ pages mem pages' ctx ctx' ctx'' heap hcheck hgot =>
      exact absurd ⟨hcheck, by rw [HasPages, hgot]⟩ hearly

end Failed

/-- Putting a buffer that could not be had ends the process. A queue that could not be
configured can be discarded exactly if its arguments were refused or, for a submission queue,
there were no pages; otherwise `nvme_close` ends the process as well. -/
theorem discard_after_failure_iff (ops : IommuCtxOps σ) (pageshift : ℕ) (s : State σ)
    (hmap : ∃ xs, Mapped s.ctx.map xs) :
    (∀ sz flags mmap e buffer ctx,
      Iommu.iommuGetDmabuf ops (vfnPagesize pageshift) s.ctx .zeroed sz flags mmap =
          (.error e, buffer, ctx) →
        Iommu.iommuPutDmabuf ops ctx buffer = none) ∧
    (∀ qid qsize vector a e s',
      nvmeConfigureCq ops pageshift s qid qsize vector a = (.error e, s') →
      (nvmeDiscardCq ops s qid).isSome →
        ((nvmeDiscardCq ops s' qid).isSome ↔ configureCheck s.ncqa qid qsize a.cap ≠ .ok ()) ∧
        (configureCheck s.ncqa qid qsize a.cap = .ok () → qid < s.opts.ncqr + 2 →
          nvmeClose ops s' = none)) ∧
    (∀ qid qsize cq a e s',
      nvmeConfigureSq ops pageshift s qid qsize cq a = some (.error e, s') →
      ClearMmap (vfnPagesize pageshift) s.ctx.map (pagesSize qsize s.mps) a.pages →
      (nvmeDiscardSq ops s qid).isSome →
        ((nvmeDiscardSq ops s' qid).isSome ↔
          ¬(configureCheck s.nsqa qid qsize a.cap = .ok () ∧
            HasPages ops pageshift s qsize a.pages)) ∧
        (configureCheck s.nsqa qid qsize a.cap = .ok () →
          HasPages ops pageshift s qsize a.pages → qid < s.opts.nsqr + 2 →
            nvmeClose ops s' = none)) := by
  obtain ⟨xs, h⟩ := hmap
  refine ⟨?_, ?_, ?_⟩
  · intro sz flags mmap e buffer ctx hget
    exact Iommu.iommuPutDmabuf_of_get_error h hget
  · intro qid qsize vector a e s' hfail hbefore
    refine ⟨⟨?_, ?_⟩, ?_⟩
    · intro hafter hcheck
      rw [(nvmeConfigureCq_lost h hfail hcheck).1.discard] at hafter
      cases hafter
    · intro hrefused
      have hcfg := nvmeConfigureCq_configures ops pageshift s qid qsize vector a
      rw [hfail] at hcfg
      cases hcfg with
      | refused => exact hbefore
      | tried _ _ _ hcheck => exact absurd hcheck hrefused
    · intro hcheck hqid
      obtain ⟨hlost, hopts⟩ := nvmeConfigureCq_lost h hfail hcheck
      exact hlost.close (hopts ▸ hqid)
  · intro qid qsize cq a e s' hfail hclear hbefore
    refine ⟨⟨?_, nvmeConfigureSq_discard_of_no_pages hfail hbefore⟩, ?_⟩
    · rintro hafter ⟨hcheck, hpages⟩
      rw [(nvmeConfigureSq_lost h hclear hfail hcheck hpages).1.discard] at hafter
      cases hafter
    · intro hcheck hpages hqid
      obtain ⟨hlost, hopts⟩ := nvmeConfigureSq_lost h hclear hfail hcheck hpages
      exact hlost.close (hopts ▸ hqid)

def onePairCtrl : State Unit := State.init (identityCtx fun _ => true)

theorem discard_after_failure_iff_no_pages :
    ∃ s', nvmeConfigureSq identityOps 12 onePairCtrl 1 2 1 ⟨0, .error .ENOMEM, .ok 0x10000⟩ =
        some (.error .ENOMEM, s') ∧
      (nvmeDiscardSq identityOps s' 1).isSome := by
  have hmap : ∃ xs, Mapped onePairCtrl.ctx.map xs := ⟨[], mapped_init _ _⟩
  obtain ⟨-, -, hsq⟩ := discard_after_failure_iff identityOps 12 onePairCtrl hmap
  refine ⟨_, rfl, (hsq 1 2 1 ⟨0, .error .ENOMEM, .ok 0x10000⟩ .ENOMEM _ rfl ?_ rfl).1.mpr ?_⟩
  · intro vaddr len hpgmap
    cases (pgmap_eq_ok hpgmap).1
  · rintro ⟨-, hpages⟩
    cases hpages

def refusingOps : IommuCtxOps Unit :=
  { identityOps with dmaMap := fun _ _ _ _ _ => (.error .ENOMEM, ()) }

/-- A buffer cannot be mapped, and putting it ends the process. So does discarding a completion
queue, or closing the controller, when there was no memory for the queue, and discarding a
submission queue whose trackers are there and were freed. -/
theorem discard_after_failure_fatal :
    (∃ buffer ctx, Iommu.iommuGetDmabuf refusingOps 0x1000 (identityCtx fun _ => true) .zeroed
        0x1000 0 (.ok 0x10000) = (.error .ENOMEM, buffer, ctx) ∧
      Iommu.iommuPutDmabuf refusingOps ctx buffer = none) ∧
    (∃ s', nvmeConfigureCq refusingOps 12 onePairCtrl 1 2 (-1) ⟨0, .ok 0x10000⟩ =
        (.error .ENOMEM, s') ∧
      nvmeDiscardCq refusingOps s' 1 = none ∧ nvmeClose refusingOps s' = none) ∧
    ∃ s', nvmeConfigureSq identityOps 12 onePairCtrl 1 2 1 ⟨0, .ok 0x10000, .error .ENOMEM⟩ =
        some (.error .ENOMEM, s') ∧
      s'.heap.live = [] ∧ (s'.sq 1).rqs = some 0 ∧ nvmeDiscardSq identityOps s' 1 = none ∧
      nvmeClose identityOps s' = none := by
  refine ⟨⟨_, _, rfl, ?_⟩, ⟨_, rfl, ?_, ?_⟩, ⟨_, rfl, ?_, ?_, ?_, ?_⟩⟩ <;> decide +kernel

end Ctrl

end Nvme

end Libvfn
