import Libvfn.Nvme.Create

/-!
# The pointers to the shadow doorbells

When a queue is discarded, its shadow doorbells are cleared if the controller has the
buffers for them. The test is on the controller, the pointers belong to the queue: they
are set when the queue is configured after the buffers were had, and `nvme_init_dbconfig`
sets those of the admin queues, which were configured before.

There are two ways in which the buffer is there for the test and the admin queues have no
pointers. With `NVME_QUIRK_BROKEN_DBBUF` the pointers are left out on purpose, and if the
buffer of the doorbells cannot be had, its address is left behind. In every run of
`nvme_init`, the functions for I/O queues and `nvme_close`, all pointers are set exactly
if `nvme_init` comes to neither of the two.
-/

namespace Libvfn

namespace Nvme

namespace Ctrl

open Word Support Iommu

variable {σ : Type*}

def Dbbuf.Set (dbbuf : Dbbuf) : Prop := dbbuf.doorbell ≠ none ∧ dbbuf.eventidx ≠ none

/-- If the controller has the buffer of the doorbells, then every queue with memory has its
pointers, and there was no store through `NULL`. -/
structure PointersSet (s : State σ) : Prop where
  cq : s.doorbells.vaddr ≠ 0 → ∀ qid, (s.cq qid).mem.vaddr ≠ 0 → (s.cq qid).dbbuf.Set
  sq : s.doorbells.vaddr ≠ 0 → ∀ qid, (s.sq qid).mem.vaddr ≠ 0 → (s.sq qid).dbbuf.Set
  stores : ∀ p ∈ s.stores, p ≠ none

/-! ## Single queues -/

section Queues

variable {ops : IommuCtxOps σ} {pageshift qid cq : ℕ} {s s' : State σ} {qsize vector : ℤ}
  {cap : U64} {res : Except Errno Unit}

theorem PointersSet.withCq (h : PointersSet s) {new : Cq} {ctx : IommuCtx σ}
    (hnew : s.doorbells.vaddr ≠ 0 → new.mem.vaddr ≠ 0 → new.dbbuf.Set) :
    PointersSet (s.withCq qid new ctx) := by
  refine ⟨fun hdoorbells => ?_, h.sq, h.stores⟩
  exact (Function.forall_update_iff s.cq fun _ q => q.mem.vaddr ≠ 0 → q.dbbuf.Set).mpr
    ⟨hnew hdoorbells, fun i _ => h.cq hdoorbells i⟩

theorem PointersSet.withSq (h : PointersSet s) {new : Sq} {ctx : IommuCtx σ} {heap : Heap}
    (hnew : s.doorbells.vaddr ≠ 0 → new.mem.vaddr ≠ 0 → new.dbbuf.Set) :
    PointersSet (s.withSq qid new ctx heap) := by
  refine ⟨h.cq, fun hdoorbells => ?_, h.stores⟩
  exact (Function.forall_update_iff s.sq fun _ q => q.mem.vaddr ≠ 0 → q.dbbuf.Set).mpr
    ⟨hnew hdoorbells, fun i _ => h.sq hdoorbells i⟩

theorem newCq_dbbuf_set (qid : ℕ) (qsize vector : ℤ) (cap : U64) (h : s.doorbells.vaddr ≠ 0) :
    (s.newCq qid qsize vector cap).dbbuf.Set := by
  have hdbbuf : (s.newCq qid qsize vector cap).dbbuf = _ := if_neg h
  rw [hdbbuf]
  exact ⟨Option.some_ne_none _, Option.some_ne_none _⟩

theorem newSq_dbbuf_set (qid : ℕ) (qsize : ℤ) (cq : ℕ) (cap : U64) (h : s.doorbells.vaddr ≠ 0) :
    (s.newSq qid qsize cq cap).dbbuf.Set := by
  have hdbbuf : (s.newSq qid qsize cq cap).dbbuf = _ := if_neg h
  rw [hdbbuf]
  exact ⟨Option.some_ne_none _, Option.some_ne_none _⟩

theorem PointersSet.configureCq (h : PointersSet s) (ops : IommuCtxOps σ) (pageshift qid : ℕ)
    (qsize vector : ℤ) (a : CqAnswers) :
    PointersSet (nvmeConfigureCq ops pageshift s qid qsize vector a).2 := by
  have hcfg := nvmeConfigureCq_configures ops pageshift s qid qsize vector a
  generalize nvmeConfigureCq ops pageshift s qid qsize vector a = r at hcfg
  cases hcfg with
  | refused => exact h
  | tried => exact h.withCq fun hdoorbells _ => newCq_dbbuf_set qid qsize vector a.cap hdoorbells

theorem PointersSet.configureSq (h : PointersSet s) {a : SqAnswers}
    (hcfg : nvmeConfigureSq ops pageshift s qid qsize cq a = some (res, s')) :
    PointersSet s' := by
  have hset := newSq_dbbuf_set (s := s) qid qsize cq a.cap
  cases nvmeConfigureSq_configures hcfg with
  | refused => exact h
  | noPages => exact h.withSq fun hdoorbells _ => hset hdoorbells
  | noMem => exact h.withSq fun hdoorbells _ => hset hdoorbells
  | configured => exact h.withSq fun hdoorbells _ => hset hdoorbells

theorem clears_ne_none {dbbuf : Dbbuf} (hset : s.doorbells.vaddr ≠ 0 → dbbuf.Set) :
    ∀ p ∈ s.clears dbbuf, p ≠ none := by
  rw [State.clears]
  split_ifs with hzero
  · simp
  · obtain ⟨hdoorbell, heventidx⟩ := hset hzero
    simp [hdoorbell, heventidx]

theorem PointersSet.discardCq (h : PointersSet s) (hdisc : nvmeDiscardCq ops s qid = some s') :
    PointersSet s' := by
  cases nvmeDiscardCq_discards hdisc with
  | empty => exact h
  | discarded ctx hmem =>
      have hslots : PointersSet (s.withCq qid .zeroed ctx) := h.withCq fun _ hne => absurd rfl hne
      refine ⟨hslots.cq, hslots.sq, fun p hp => ?_⟩
      rcases List.mem_append.mp hp with hold | hnew
      · exact h.stores p hold
      · exact clears_ne_none (fun hdoorbells => h.cq hdoorbells qid hmem) p hnew

theorem PointersSet.discardSq (h : PointersSet s) (hdisc : nvmeDiscardSq ops s qid = some s') :
    PointersSet s' := by
  cases nvmeDiscardSq_discards hdisc with
  | empty => exact h
  | discarded ctx ctx' heap pages hmem =>
      have hslots : PointersSet (s.withSq qid .zeroed ctx' heap) :=
        h.withSq fun _ hne => absurd rfl hne
      refine ⟨hslots.cq, hslots.sq, fun p hp => ?_⟩
      rcases List.mem_append.mp hp with hold | hnew
      · exact h.stores p hold
      · exact clears_ne_none (fun hdoorbells => h.sq hdoorbells qid hmem) p hnew

/-! ## Creating and deleting -/

theorem PointersSet.createIocq (h : PointersSet s) (ops : IommuCtxOps σ) (pageshift qid : ℕ)
    (qsize vector : ℤ) (a : CqAnswers) (admin : Except Errno Unit) :
    PointersSet (nvmeCreateIocq ops pageshift s qid qsize vector a admin).2 := by
  have ht := h.configureCq ops pageshift qid qsize vector a
  rw [nvmeCreateIocq]
  generalize nvmeConfigureCq ops pageshift s qid qsize vector a = r at ht ⊢
  obtain ⟨e | u, t⟩ := r
  · exact ht
  · cases admin with
    | error e => exact ht
    | ok u => exact ⟨ht.cq, ht.sq, ht.stores⟩

theorem PointersSet.createIosq (h : PointersSet s) {a : SqAnswers} {admin : Except Errno Unit}
    (hcreate : nvmeCreateIosq ops pageshift s qid qsize cq a admin = some (res, s')) :
    PointersSet s' := by
  obtain ⟨⟨e | u, t⟩, hcfg, hs'⟩ := Option.map_eq_some_iff.mp hcreate
  · obtain ⟨-, rfl⟩ := Prod.mk.inj hs'
    exact h.configureSq hcfg
  · have ht := h.configureSq hcfg
    cases admin with
    | error e =>
        obtain ⟨-, rfl⟩ := Prod.mk.inj hs'
        exact ht
    | ok u =>
        obtain ⟨-, rfl⟩ := Prod.mk.inj hs'
        exact ⟨ht.cq, ht.sq, ht.stores⟩

theorem PointersSet.create (h : PointersSet s) {call : CreateCall}
    (hrun : call.run ops pageshift s = some (res, s')) : PointersSet s' := by
  cases call with
  | iocq qid qsize vector a admin =>
      have ht := h.createIocq ops pageshift qid qsize vector a admin
      rw [Option.some.inj hrun] at ht
      exact ht
  | iosq qid qsize cq a admin => exact h.createIosq hrun
  | ioqpair qid qsize vector acq createCq asq createSq =>
      have ht := h.createIocq ops pageshift qid qsize vector acq createCq
      rw [CreateCall.run, nvmeCreateIoqpair] at hrun
      generalize nvmeCreateIocq ops pageshift s qid qsize vector acq createCq = r at ht hrun
      obtain ⟨e | u, t⟩ := r
      · obtain ⟨-, rfl⟩ := Prod.mk.inj (Option.some.inj hrun)
        exact ht
      · exact ht.createIosq hrun

theorem PointersSet.deleteIocq (h : PointersSet s) {admin : Except Errno Unit}
    (hdelete : nvmeDeleteIocq ops s qid admin = some (res, s')) : PointersSet s' := by
  obtain ⟨t, hdisc, hs'⟩ := Option.map_eq_some_iff.mp hdelete
  have ht := h.discardCq hdisc
  cases admin with
  | error e =>
      obtain ⟨-, rfl⟩ := Prod.mk.inj hs'
      exact ht
  | ok u =>
      obtain ⟨-, rfl⟩ := Prod.mk.inj hs'
      exact ⟨ht.cq, ht.sq, ht.stores⟩

theorem PointersSet.deleteIosq (h : PointersSet s) {admin : Except Errno Unit}
    (hdelete : nvmeDeleteIosq ops s qid admin = some (res, s')) : PointersSet s' := by
  obtain ⟨t, hdisc, hs'⟩ := Option.map_eq_some_iff.mp hdelete
  have ht := h.discardSq hdisc
  cases admin with
  | error e =>
      obtain ⟨-, rfl⟩ := Prod.mk.inj hs'
      exact ht
  | ok u =>
      obtain ⟨-, rfl⟩ := Prod.mk.inj hs'
      exact ⟨ht.cq, ht.sq, ht.stores⟩

theorem PointersSet.deleteIoqpair (h : PointersSet s) {deleteSq deleteCq : Except Errno Unit}
    (hdelete : nvmeDeleteIoqpair ops s qid deleteSq deleteCq = some (res, s')) :
    PointersSet s' := by
  obtain ⟨⟨e | u, t⟩, hsq, hs'⟩ := Option.bind_eq_some_iff.mp hdelete
  · obtain ⟨-, rfl⟩ := Prod.mk.inj (Option.some.inj hs')
    exact h.deleteIosq hsq
  · exact (h.deleteIosq hsq).deleteIocq hs'

theorem putDoorbells_stores (h : putDoorbells ops s = some s') : s'.stores = s.stores := by
  obtain ⟨r, -, rfl⟩ := Option.map_eq_some_iff.mp h
  rfl

theorem putEventidxs_stores (h : putEventidxs ops s = some s') : s'.stores = s.stores := by
  obtain ⟨r, -, rfl⟩ := Option.map_eq_some_iff.mp h
  rfl

/-- After `memset` there is no queue and no buffer. -/
theorem PointersSet.close (h : PointersSet s) (hclose : nvmeClose ops s = some s') :
    PointersSet s' := by
  obtain ⟨t, hsqs, hclose⟩ := Option.bind_eq_some_iff.mp hclose
  obtain ⟨u, hcqs, hclose⟩ := Option.bind_eq_some_iff.mp hclose
  have ht : PointersSet t :=
    Runs.run_invariant_of_step (fun _ _ _ h => h.discardSq) h hsqs
  have hu : PointersSet u :=
    Runs.run_invariant_of_step (fun _ _ _ h => h.discardCq) ht hcqs
  obtain ⟨v, hput, rfl⟩ := Option.map_eq_some_iff.mp hclose
  have hstores : v.stores = u.stores := by
    split_ifs at hput with hzero
    · exact congrArg State.stores (Option.some.inj hput).symm
    · obtain ⟨w, hdoorbells, heventidxs⟩ := Option.bind_eq_some_iff.mp hput
      exact (putEventidxs_stores heventidxs).trans (putDoorbells_stores hdoorbells)
  refine ⟨fun hne => absurd rfl hne, fun hne => absurd rfl hne, fun p hp => ?_⟩
  exact hu.stores p (hstores ▸ hp)

end Queues

/-! ## Setting up the shadow doorbells -/

section Init

variable {ops : IommuCtxOps σ} {pageshift : ℕ} {s s' : State σ} {res : Except Errno Unit}

/-- `nvme_init_dbconfig` leaves an address for the doorbells, but no pointers to the admin
queues. -/
def DbconfigSpoils (ops : IommuCtxOps σ) (pageshift : ℕ) (s : State σ) (a : DbconfigAnswers) :
    Prop :=
  let page := vfnPagesize pageshift
  s.doorbells.vaddr = 0 ∧
    match Iommu.iommuGetDmabuf ops page s.ctx s.doorbells page 0 a.doorbells with
    | (.error _, _, _) => True
    | (.ok _, _, ctx) =>
        s.opts.brokenDbbuf ∧
          (Iommu.iommuGetDmabuf ops page ctx s.eventidxs page 0 a.eventidxs).1 = .ok () ∧
          a.admin = .ok ()

/-- Only the admin queues have memory, and they were configured with the pointers that there
were. -/
structure AdminQueues (s : State σ) : Prop where
  cqs : ∀ qid ≠ nvmeAq, (s.cq qid).mem.vaddr = 0
  sqs : ∀ qid ≠ nvmeAq, (s.sq qid).mem.vaddr = 0
  mem : (s.cq nvmeAq).mem.vaddr ≠ 0
  unset : s.doorbells.vaddr = 0 → ¬(s.cq nvmeAq).dbbuf.Set

/-- With the address of the doorbells, but without new pointers, it depends on whether there
were pointers before. -/
theorem pointersSet_iff_of_slots (h : PointersSet s) (hadmin : AdminQueues s)
    (hdoorbells : s'.doorbells.vaddr ≠ 0) (hcq : s'.cq = s.cq) (hsq : s'.sq = s.sq)
    (hstores : s'.stores = s.stores) : PointersSet s' ↔ s.doorbells.vaddr ≠ 0 := by
  constructor
  · intro h' hzero
    have hset := h'.cq hdoorbells nvmeAq
    rw [hcq] at hset
    exact hadmin.unset hzero (hset hadmin.mem)
  · intro hne
    refine ⟨fun _ => ?_, fun _ => ?_, ?_⟩
    · rw [hcq]
      exact h.cq hne
    · rw [hsq]
      exact h.sq hne
    · rw [hstores]
      exact h.stores

theorem pointersSet_of_zero (hdoorbells : s.doorbells.vaddr = 0)
    (hstores : ∀ p ∈ s.stores, p ≠ none) : PointersSet s :=
  ⟨fun hne => absurd hdoorbells hne, fun hne => absurd hdoorbells hne, hstores⟩

theorem putDoorbells_zeroed (hlen : s.doorbells.len ≠ 0) (h : putDoorbells ops s = some s') :
    s'.doorbells.vaddr = 0 := by
  obtain ⟨⟨buffer, ctx⟩, hput, rfl⟩ := Option.map_eq_some_iff.mp h
  rcases Iommu.iommuPutDmabuf_eq_some hput with ⟨hzero, -⟩ | ⟨-, rfl, -⟩
  · exact absurd hzero hlen
  · rfl

theorem putEventidxs_doorbells (h : putEventidxs ops s = some s') :
    s'.doorbells = s.doorbells := by
  obtain ⟨r, -, rfl⟩ := Option.map_eq_some_iff.mp h
  rfl

theorem PointersSet.setAdminDbbuf (hadmin : AdminQueues s) (hstores : ∀ p ∈ s.stores, p ≠ none)
    (hquirk : s.opts.brokenDbbuf = false) (dstrd : ℕ) : PointersSet (s.setAdminDbbuf dstrd) := by
  rw [State.setAdminDbbuf, if_neg (Bool.not_eq_true _ ▸ hquirk)]
  refine ⟨fun _ qid hmem => ?_, fun _ qid hmem => ?_, hstores⟩
  · by_cases hqid : qid = nvmeAq
    · subst hqid
      simp [Dbbuf.Set]
    · rw [State.setSq_cq, State.setCq_cq_of_ne hqid] at hmem
      exact absurd (hadmin.cqs qid hqid) hmem
  · by_cases hqid : qid = nvmeAq
    · subst hqid
      simp [Dbbuf.Set]
    · rw [State.setSq_sq_of_ne hqid] at hmem
      exact absurd (hadmin.sqs qid hqid) hmem

inductive InitsDbconfig (ops : IommuCtxOps σ) (pageshift : ℕ) (s : State σ)
    (a : DbconfigAnswers) : State σ → Prop
  | noDoorbells (e : Errno) (doorbells : Iommu.IommuDmabuf) (ctx : IommuCtx σ)
      (hdoorbells : Iommu.iommuGetDmabuf ops (vfnPagesize pageshift) s.ctx s.doorbells
        (vfnPagesize pageshift) 0 a.doorbells = (.error e, doorbells, ctx)) :
      InitsDbconfig ops pageshift s a (s.withDbbuf doorbells s.eventidxs ctx)
  | put (doorbells eventidxs : Iommu.IommuDmabuf) (ctx ctx' : IommuCtx σ)
      (res : Except Errno Unit) (t t' : State σ)
      (hdoorbells : Iommu.iommuGetDmabuf ops (vfnPagesize pageshift) s.ctx s.doorbells
        (vfnPagesize pageshift) 0 a.doorbells = (.ok (), doorbells, ctx))
      (heventidxs : Iommu.iommuGetDmabuf ops (vfnPagesize pageshift) ctx s.eventidxs
        (vfnPagesize pageshift) 0 a.eventidxs = (res, eventidxs, ctx'))
      (hfail : ¬(res = .ok () ∧ a.admin = .ok ()))
      (ht : t = s.withDbbuf doorbells eventidxs ctx' ∨
        putEventidxs ops (s.withDbbuf doorbells eventidxs ctx') = some t)
      (hput : putDoorbells ops t = some t') :
      InitsDbconfig ops pageshift s a t'
  | configured (doorbells eventidxs : Iommu.IommuDmabuf) (ctx ctx' : IommuCtx σ)
      (hdoorbells : Iommu.iommuGetDmabuf ops (vfnPagesize pageshift) s.ctx s.doorbells
        (vfnPagesize pageshift) 0 a.doorbells = (.ok (), doorbells, ctx))
      (heventidxs : Iommu.iommuGetDmabuf ops (vfnPagesize pageshift) ctx s.eventidxs
        (vfnPagesize pageshift) 0 a.eventidxs = (.ok (), eventidxs, ctx'))
      (hadmin : a.admin = .ok ()) :
      InitsDbconfig ops pageshift s a
        ((s.withDbbuf doorbells eventidxs ctx').setAdminDbbuf (capDstrd a.cap))

/-- A success is the last of these cases. -/
theorem nvmeInitDbconfig_inits {a : DbconfigAnswers}
    (h : nvmeInitDbconfig ops pageshift s a = some (res, s')) :
    InitsDbconfig ops pageshift s a s' ∧ (res = .ok () → ∃ doorbells eventidxs ctx ctx',
      Iommu.iommuGetDmabuf ops (vfnPagesize pageshift) s.ctx s.doorbells (vfnPagesize pageshift) 0
        a.doorbells = (.ok (), doorbells, ctx) ∧
      Iommu.iommuGetDmabuf ops (vfnPagesize pageshift) ctx s.eventidxs (vfnPagesize pageshift) 0
        a.eventidxs = (.ok (), eventidxs, ctx') ∧
      s' = (s.withDbbuf doorbells eventidxs ctx').setAdminDbbuf (capDstrd a.cap)) := by
  rw [nvmeInitDbconfig] at h
  dsimp only at h
  rcases hdoorbells : Iommu.iommuGetDmabuf ops (vfnPagesize pageshift) s.ctx s.doorbells
    (vfnPagesize pageshift) 0 a.doorbells with ⟨e | u, doorbells, ctx⟩
  · rw [hdoorbells] at h
    obtain ⟨rfl, rfl⟩ := Prod.mk.inj (Option.some.inj h)
    exact ⟨.noDoorbells e doorbells ctx hdoorbells, nofun⟩
  · rw [hdoorbells] at h
    dsimp only at h
    rcases heventidxs : Iommu.iommuGetDmabuf ops (vfnPagesize pageshift) ctx s.eventidxs
      (vfnPagesize pageshift) 0 a.eventidxs with ⟨e | u, eventidxs, ctx'⟩
    · rw [heventidxs] at h
      obtain ⟨t, hput, hs'⟩ := Option.map_eq_some_iff.mp h
      obtain ⟨rfl, rfl⟩ := Prod.mk.inj hs'
      exact ⟨.put doorbells eventidxs ctx ctx' _ _ t hdoorbells heventidxs
        (fun h => by cases h.1) (.inl rfl) hput, nofun⟩
    · rw [heventidxs] at h
      cases hcmd : a.admin with
      | error e =>
          rw [hcmd] at h
          obtain ⟨t, hputs, hs'⟩ := Option.map_eq_some_iff.mp h
          obtain ⟨rfl, rfl⟩ := Prod.mk.inj hs'
          obtain ⟨v, hput, hput'⟩ := Option.bind_eq_some_iff.mp hputs
          exact ⟨.put doorbells eventidxs ctx ctx' _ v t hdoorbells heventidxs
            (fun h => by cases hcmd.symm.trans h.2) (.inr hput) hput', nofun⟩
      | ok u =>
          rw [hcmd] at h
          obtain ⟨-, rfl⟩ := Prod.mk.inj (Option.some.inj h)
          exact ⟨.configured doorbells eventidxs ctx ctx' hdoorbells heventidxs hcmd,
            fun _ => ⟨doorbells, eventidxs, ctx, ctx', rfl, heventidxs, rfl⟩⟩

theorem nvmeInitDbconfig_iff {a : DbconfigAnswers} (h : PointersSet s) (hadmin : AdminQueues s)
    (hinit : nvmeInitDbconfig ops pageshift s a = some (res, s')) :
    PointersSet s' ↔ ¬DbconfigSpoils ops pageshift s a := by
  cases (nvmeInitDbconfig_inits hinit).1 with
  | noDoorbells e doorbells ctx hdoorbells =>
      have hne := (Iommu.iommuGetDmabuf_ne_zero hdoorbells).1
      have hiff : PointersSet (s.withDbbuf doorbells s.eventidxs ctx) ↔ s.doorbells.vaddr ≠ 0 :=
        pointersSet_iff_of_slots h hadmin hne rfl rfl rfl
      rw [hiff, DbconfigSpoils, hdoorbells]
      simp
  | put doorbells eventidxs ctx ctx' res t _ hdoorbells heventidxs hfail ht hput =>
      have hbuffer : t.doorbells = doorbells ∧ t.stores = s.stores := by
        rcases ht with rfl | ht
        · exact ⟨rfl, rfl⟩
        · have hstores := putEventidxs_stores ht
          exact ⟨putEventidxs_doorbells ht, hstores⟩
      have hlen := (Iommu.iommuGetDmabuf_ne_zero hdoorbells).2
      have hstores := (putDoorbells_stores hput).trans hbuffer.2
      have hset : PointersSet s' :=
        pointersSet_of_zero (putDoorbells_zeroed (hbuffer.1 ▸ hlen) hput) (hstores ▸ h.stores)
      refine iff_of_true hset ?_
      rw [DbconfigSpoils, hdoorbells]
      rintro ⟨-, -, hgot⟩
      rw [heventidxs] at hgot
      exact hfail hgot
  | configured doorbells eventidxs ctx ctx' hdoorbells heventidxs hcmd =>
      have hne := (Iommu.iommuGetDmabuf_ne_zero hdoorbells).1
      rw [DbconfigSpoils, hdoorbells]
      cases hquirk : s.opts.brokenDbbuf with
      | true =>
          have hkeep : (s.withDbbuf doorbells eventidxs ctx').setAdminDbbuf (capDstrd a.cap) =
              s.withDbbuf doorbells eventidxs ctx' := if_pos hquirk
          have hiff : PointersSet (s.withDbbuf doorbells eventidxs ctx') ↔
              s.doorbells.vaddr ≠ 0 :=
            pointersSet_iff_of_slots h hadmin hne rfl rfl rfl
          rw [hkeep, hiff]
          refine ⟨fun hset hspoils => hset hspoils.1, fun hno hzero => hno ⟨hzero, rfl, ?_, hcmd⟩⟩
          rw [heventidxs]
      | false =>
          have hadmin' : AdminQueues (s.withDbbuf doorbells eventidxs ctx') :=
            ⟨hadmin.cqs, hadmin.sqs, hadmin.mem, fun hzero => absurd hzero hne⟩
          refine iff_of_true (PointersSet.setAdminDbbuf hadmin' h.stores hquirk _) ?_
          rintro ⟨-, hbroken, -⟩
          cases hbroken

/-! ## Initializing the controller -/

theorem pointersSet_congr (hcq : s'.cq = s.cq) (hsq : s'.sq = s.sq)
    (hdoorbells : s'.doorbells = s.doorbells) (hstores : s'.stores = s.stores) :
    PointersSet s' ↔ PointersSet s := by
  constructor
  · rintro ⟨hcqs, hsqs, hall⟩
    rw [hcq, hdoorbells] at hcqs
    rw [hsq, hdoorbells] at hsqs
    rw [hstores] at hall
    exact ⟨hcqs, hsqs, hall⟩
  · rintro ⟨hcqs, hsqs, hall⟩
    exact ⟨by rwa [hcq, hdoorbells], by rwa [hsq, hdoorbells], by rwa [hstores]⟩

/-- `nvme_init` comes to spoil the pointers after the identify command. -/
def IdentifiedSpoils (ops : IommuCtxOps σ) (pageshift : ℕ) (s : State σ) (a : InitAnswers) :
    Prop :=
  match a.identify with
  | .error _ => False
  | .ok (oacs, _) => oacs &&& 1 <<< 8 ≠ 0 ∧ DbconfigSpoils ops pageshift s a.dbconfig

def QueuesSpoil (ops : IommuCtxOps σ) (pageshift : ℕ) (s : State σ) (a : InitAnswers) : Prop :=
  match a.features with
  | .error _ => False
  | .ok dw0 =>
      match Iommu.iommuGetDmabuf ops (vfnPagesize pageshift) s.ctx .zeroed 4096 iommuMapEphemeral
        a.buffer with
      | (.error _, _, _) => False
      | (.ok _, _, ctx) => IdentifiedSpoils ops pageshift { s.granted dw0 with ctx := ctx } a

/-- `nvme_init` comes to spoil the pointers: everything before `nvme_init_dbconfig` succeeds,
and the controller supports the command. -/
def InitSpoils (ops : IommuCtxOps σ) (pageshift : ℕ) (s : State σ) (opts : Option Opts)
    (a : InitAnswers) : Prop :=
  ∃ t u, nvmeCtrlInit pageshift s opts a.pci a.cap = (.ok (), t) ∧ a.reset = .ok () ∧
    nvmeConfigureAdminq ops pageshift t a.acq a.asq = some (.ok (), u) ∧ a.enable = .ok () ∧
    u.flags &&& 1 = 0 ∧ QueuesSpoil ops pageshift u a

theorem nvmeInitIdentified_iff {a : InitAnswers} (h : PointersSet s) (hadmin : AdminQueues s)
    (hinit : nvmeInitIdentified ops pageshift s a = some (res, s')) :
    PointersSet s' ↔ ¬IdentifiedSpoils ops pageshift s a := by
  rw [nvmeInitIdentified] at hinit
  rw [IdentifiedSpoils]
  rcases hidentify : a.identify with e | ⟨oacs, sgls⟩
  · rw [hidentify] at hinit
    obtain ⟨-, rfl⟩ := Prod.mk.inj (Option.some.inj hinit)
    exact iff_of_true h not_false
  · rw [hidentify] at hinit
    obtain ⟨⟨res', t⟩, hdbconfig, hs'⟩ := Option.map_eq_some_iff.mp hinit
    have hiff : PointersSet s' ↔ PointersSet t := by
      cases res' with
      | error e =>
          obtain ⟨-, rfl⟩ := Prod.mk.inj hs'
          exact .rfl
      | ok u =>
          obtain ⟨-, rfl⟩ := Prod.mk.inj hs'
          exact pointersSet_congr rfl rfl rfl rfl
    rw [hiff]
    split_ifs at hdbconfig with hoacs
    · obtain ⟨-, rfl⟩ := Prod.mk.inj (Option.some.inj hdbconfig)
      exact iff_of_true h fun hspoils => hspoils.1 hoacs
    · rw [nvmeInitDbconfig_iff h hadmin hdbconfig]
      exact not_congr (and_iff_right hoacs).symm

theorem nvmeInitQueues_iff {a : InitAnswers} (h : PointersSet s) (hadmin : AdminQueues s)
    (hinit : nvmeInitQueues ops pageshift s a = some (res, s')) :
    PointersSet s' ↔ ¬QueuesSpoil ops pageshift s a := by
  rw [nvmeInitQueues] at hinit
  rw [QueuesSpoil]
  rcases hfeatures : a.features with e | dw0
  · rw [hfeatures] at hinit
    obtain ⟨-, rfl⟩ := Prod.mk.inj (Option.some.inj hinit)
    exact iff_of_true h not_false
  · rw [hfeatures] at hinit
    dsimp only at hinit ⊢
    rcases hbuffer : Iommu.iommuGetDmabuf ops (vfnPagesize pageshift) s.ctx .zeroed 4096
      iommuMapEphemeral a.buffer with ⟨e | u, buffer, ctx⟩
    · rw [hbuffer] at hinit
      obtain ⟨p, -, hs'⟩ := Option.map_eq_some_iff.mp hinit
      obtain ⟨-, rfl⟩ := Prod.mk.inj hs'
      exact iff_of_true ⟨h.cq, h.sq, h.stores⟩ not_false
    · rw [hbuffer] at hinit
      obtain ⟨⟨res', t⟩, hidentified, hput⟩ := Option.bind_eq_some_iff.mp hinit
      obtain ⟨p, -, hs'⟩ := Option.map_eq_some_iff.mp hput
      obtain ⟨-, rfl⟩ := Prod.mk.inj hs'
      have hgranted : PointersSet { s.granted dw0 with ctx := ctx } := ⟨h.cq, h.sq, h.stores⟩
      have hadmin' : AdminQueues { s.granted dw0 with ctx := ctx } :=
        ⟨hadmin.cqs, hadmin.sqs, hadmin.mem, hadmin.unset⟩
      rw [← nvmeInitIdentified_iff hgranted hadmin' hidentified]
      exact pointersSet_congr rfl rfl rfl rfl

/-- `nvme_ctrl_init` fails with the queues that there were, or it makes empty slots. -/
theorem nvmeCtrlInit_slots {opts : Option Opts} {pci : Except Errno (BitVec 32)} {cap : U64}
    (h : PointersSet s) (hinit : nvmeCtrlInit pageshift s opts pci cap = (res, s')) :
    PointersSet s' ∧ (res = .ok () → s'.cq = (fun _ => .zeroed) ∧ s'.sq = fun _ => .zeroed) := by
  cases pci with
  | error e =>
      rw [nvmeCtrlInit] at hinit
      obtain ⟨rfl, rfl⟩ := Prod.mk.inj hinit
      exact ⟨h, fun hok => by cases hok⟩
  | ok classcode =>
      rw [nvmeCtrlInit] at hinit
      dsimp only at hinit
      by_cases hlarge : pageshift < mpsToPageshift (clampedMps pageshift cap)
      · rw [if_pos hlarge] at hinit
        obtain ⟨rfl, rfl⟩ := Prod.mk.inj hinit
        exact ⟨⟨h.cq, h.sq, h.stores⟩, fun hok => by cases hok⟩
      · rw [if_neg hlarge] at hinit
        obtain ⟨rfl, rfl⟩ := Prod.mk.inj hinit
        refine ⟨⟨?_, ?_, h.stores⟩, fun _ => ⟨rfl, rfl⟩⟩
        · exact fun _ _ hmem => absurd rfl hmem
        · exact fun _ _ hmem => absurd rfl hmem

theorem PointersSet.configureAdminq {acq : CqAnswers} {asq : SqAnswers} (h : PointersSet s)
    (hcfg : nvmeConfigureAdminq ops pageshift s acq asq = some (res, s')) : PointersSet s' := by
  have ht := h.configureCq ops pageshift nvmeAq nvmeAqQsize 0 acq
  rw [nvmeConfigureAdminq] at hcfg
  generalize nvmeConfigureCq ops pageshift s nvmeAq nvmeAqQsize 0 acq = r at ht hcfg
  obtain ⟨e | u, t⟩ := r
  · obtain ⟨-, rfl⟩ := Prod.mk.inj (Option.some.inj hcfg)
    exact ht
  · obtain ⟨⟨e | u, v⟩, hsq, hend⟩ := Option.bind_eq_some_iff.mp hcfg
    · obtain ⟨w, hdisc, hs'⟩ := Option.map_eq_some_iff.mp hend
      obtain ⟨-, rfl⟩ := Prod.mk.inj hs'
      exact (ht.configureSq hsq).discardCq hdisc
    · obtain ⟨-, rfl⟩ := Prod.mk.inj (Option.some.inj hend)
      have hv := ht.configureSq hsq
      exact ⟨hv.cq, hv.sq, hv.stores⟩

/-- The admin queues are configured in empty slots. -/
theorem nvmeConfigureAdminq_adminQueues {acq : CqAnswers} {asq : SqAnswers}
    (hcqs : s.cq = fun _ => .zeroed) (hsqs : s.sq = fun _ => .zeroed)
    (hcfg : nvmeConfigureAdminq ops pageshift s acq asq = some (.ok (), s')) :
    AdminQueues s' := by
  have hcq := nvmeConfigureCq_configures ops pageshift s nvmeAq nvmeAqQsize 0 acq
  rw [nvmeConfigureAdminq] at hcfg
  generalize nvmeConfigureCq ops pageshift s nvmeAq nvmeAqQsize 0 acq = r at hcq hcfg
  cases hcq with
  | refused e => cases hcfg
  | tried res mem ctx _ hmem =>
      cases res with
      | error e => cases hcfg
      | ok u =>
          obtain ⟨r', hsq, hend⟩ := Option.bind_eq_some_iff.mp hcfg
          obtain ⟨hok, rfl⟩ := nvmeConfigureAdminqEnd_ok hend
          cases nvmeConfigureSq_configures hsq with
          | refused e => cases hok
          | noPages e => cases hok
          | noMem e => cases hok
          | configured pages mem' ctx' ctx'' =>
              refine ⟨?_, ?_, ?_, ?_⟩
              all_goals dsimp only [nvmeConfigureAdminqRegs]
              · intro qid hqid
                rw [State.withSq_cq, State.withCq_cq_of_ne hqid, hcqs]
                rfl
              · intro qid hqid
                rw [State.withSq_sq_of_ne hqid, State.withCq_sq, hsqs]
                rfl
              · rw [State.withSq_cq, State.withCq_cq_self]
                exact (Iommu.iommuGetDmabuf_ne_zero hmem).1
              · intro hzero hset
                rw [State.withSq_cq, State.withCq_cq_self] at hset
                have hdbbuf : (s.newCq nvmeAq nvmeAqQsize 0 acq.cap).dbbuf = _ := if_pos hzero
                rw [hdbbuf] at hset
                exact hset.1 rfl

theorem nvmeInitEnabled_iff {a : InitAnswers} (h : PointersSet s) (hadmin : AdminQueues s)
    (hinit : nvmeInitEnabled ops pageshift s a = some (res, s')) :
    PointersSet s' ↔
      ¬(a.enable = .ok () ∧ s.flags &&& 1 = 0 ∧ QueuesSpoil ops pageshift s a) := by
  rw [nvmeInitEnabled] at hinit
  cases henable : a.enable with
  | error e =>
      rw [henable] at hinit
      obtain ⟨-, rfl⟩ := Prod.mk.inj (Option.some.inj hinit)
      exact iff_of_true h fun hspoils => by cases hspoils.1
  | ok u =>
      rw [henable] at hinit
      dsimp only at hinit
      split_ifs at hinit with hflags
      · obtain ⟨-, rfl⟩ := Prod.mk.inj (Option.some.inj hinit)
        exact iff_of_true h fun hspoils => hflags hspoils.2.1
      · rw [nvmeInitQueues_iff h hadmin hinit]
        exact not_congr ⟨fun hq => ⟨rfl, not_not.mp hflags, hq⟩, fun hspoils => hspoils.2.2⟩

/-- `nvme_init` leaves all pointers set exactly if it does not come to spoil them. -/
theorem nvmeInit_iff {opts : Option Opts} {a : InitAnswers} (h : PointersSet s)
    (hinit : nvmeInit ops pageshift s opts a = some (res, s')) :
    PointersSet s' ↔ ¬InitSpoils ops pageshift s opts a := by
  rw [nvmeInit] at hinit
  rcases hctrl : nvmeCtrlInit pageshift s opts a.pci a.cap with ⟨e | u, t⟩
  · rw [hctrl] at hinit
    obtain ⟨-, rfl⟩ := Prod.mk.inj (Option.some.inj hinit)
    refine iff_of_true (nvmeCtrlInit_slots h hctrl).1 ?_
    rintro ⟨t', u, hok, -⟩
    cases hctrl.symm.trans hok
  · rw [hctrl] at hinit
    obtain ⟨ht, hslots⟩ := nvmeCtrlInit_slots h hctrl
    cases hreset : a.reset with
    | error e =>
        rw [hreset] at hinit
        obtain ⟨-, rfl⟩ := Prod.mk.inj (Option.some.inj hinit)
        refine iff_of_true ht ?_
        rintro ⟨t', u, -, hok, -⟩
        cases hreset.symm.trans hok
    | ok u =>
        rw [hreset] at hinit
        obtain ⟨⟨e | u, v⟩, hadminq, hrest⟩ := Option.bind_eq_some_iff.mp hinit
        · obtain ⟨-, rfl⟩ := Prod.mk.inj (Option.some.inj hrest)
          refine iff_of_true (ht.configureAdminq hadminq) ?_
          rintro ⟨t', u, hok, -, hok', -⟩
          obtain ⟨-, rfl⟩ := Prod.mk.inj (hctrl.symm.trans hok)
          cases hadminq.symm.trans hok'
        · obtain ⟨hcqs, hsqs⟩ := hslots rfl
          have hadmin := nvmeConfigureAdminq_adminQueues hcqs hsqs hadminq
          rw [nvmeInitEnabled_iff (ht.configureAdminq hadminq) hadmin hrest]
          refine not_congr ⟨fun hspoils => ⟨t, v, hctrl, hreset, hadminq, hspoils⟩, ?_⟩
          rintro ⟨t', v', hok, -, hok', hspoils⟩
          obtain ⟨-, rfl⟩ := Prod.mk.inj (hctrl.symm.trans hok)
          obtain ⟨-, rfl⟩ := Prod.mk.inj (Option.some.inj (hadminq.symm.trans hok'))
          exact hspoils

end Init

/-! ## Runs -/

inductive LifeCall where
  | init (opts : Option Opts) (a : InitAnswers)
  | create (call : CreateCall)
  | deleteIocq (qid : ℕ) (admin : Except Errno Unit)
  | deleteIosq (qid : ℕ) (admin : Except Errno Unit)
  | deleteIoqpair (qid : ℕ) (deleteSq deleteCq : Except Errno Unit)
  | close

def lifeStep (ops : IommuCtxOps σ) (pageshift : ℕ) (s : State σ) : LifeCall → Option (State σ)
  | .init opts a => (nvmeInit ops pageshift s opts a).map Prod.snd
  | .create call => (call.run ops pageshift s).map Prod.snd
  | .deleteIocq qid admin => (nvmeDeleteIocq ops s qid admin).map Prod.snd
  | .deleteIosq qid admin => (nvmeDeleteIosq ops s qid admin).map Prod.snd
  | .deleteIoqpair qid deleteSq deleteCq =>
      (nvmeDeleteIoqpair ops s qid deleteSq deleteCq).map Prod.snd
  | .close => nvmeClose ops s

/-- If `nvme_init` returns, then it has not come to spoil the pointers. -/
def LifeCall.Sound (ops : IommuCtxOps σ) (pageshift : ℕ) (s : State σ) : LifeCall → Prop
  | .init opts a =>
      (nvmeInit ops pageshift s opts a).isSome → ¬InitSpoils ops pageshift s opts a
  | _ => True

theorem lifeStep_iff {ops : IommuCtxOps σ} {pageshift : ℕ} {s s' : State σ} {call : LifeCall}
    (h : PointersSet s) (hstep : lifeStep ops pageshift s call = some s') :
    PointersSet s' ↔ call.Sound ops pageshift s := by
  cases call with
  | init opts a =>
      obtain ⟨⟨res, _⟩, hinit, rfl⟩ := Option.map_eq_some_iff.mp hstep
      rw [nvmeInit_iff h hinit, LifeCall.Sound, hinit]
      exact ⟨fun hno _ => hno, fun hsound => hsound rfl⟩
  | create call =>
      obtain ⟨⟨res, _⟩, hrun, rfl⟩ := Option.map_eq_some_iff.mp hstep
      exact iff_of_true (h.create hrun) trivial
  | deleteIocq qid admin =>
      obtain ⟨⟨res, _⟩, hrun, rfl⟩ := Option.map_eq_some_iff.mp hstep
      exact iff_of_true (h.deleteIocq hrun) trivial
  | deleteIosq qid admin =>
      obtain ⟨⟨res, _⟩, hrun, rfl⟩ := Option.map_eq_some_iff.mp hstep
      exact iff_of_true (h.deleteIosq hrun) trivial
  | deleteIoqpair qid deleteSq deleteCq =>
      obtain ⟨⟨res, _⟩, hrun, rfl⟩ := Option.map_eq_some_iff.mp hstep
      exact iff_of_true (h.deleteIoqpair hrun) trivial
  | close => exact iff_of_true (h.close hstep) trivial

theorem sound_of_lifeStep_eq_none {ops : IommuCtxOps σ} {pageshift : ℕ} {s : State σ}
    {call : LifeCall} (hstep : lifeStep ops pageshift s call = none) :
    call.Sound ops pageshift s := by
  cases call with
  | init opts a =>
      have hnone := Option.map_eq_none_iff.mp hstep
      rw [LifeCall.Sound, hnone]
      intro hsome
      cases hsome
  | create | deleteIocq | deleteIosq | deleteIoqpair | close => trivial

/-- In every run, the pointers to the shadow doorbells are set whenever they are used exactly if
no `nvme_init` fails to get the buffer of the doorbells or sets them up with
`NVME_QUIRK_BROKEN_DBBUF`. -/
theorem shadow_pointers_set_iff (ops : IommuCtxOps σ) (pageshift : ℕ) (ctx : IommuCtx σ)
    (calls : List LifeCall) :
    (∀ pre s', pre <+: calls →
        Runs.run (lifeStep ops pageshift) (State.init ctx) pre = some s' → PointersSet s') ↔
      Runs.MeetsAlong (lifeStep ops pageshift) (LifeCall.Sound ops pageshift) (State.init ctx)
        calls := by
  have hinit : PointersSet (State.init ctx) := pointersSet_of_zero rfl fun p hp => by cases hp
  exact Runs.good_along_iff (fun _ _ _ (_ : True) _ _ _ => trivial)
    (fun _ _ _ _ h hstep => lifeStep_iff h hstep) (fun _ _ _ _ => sound_of_lifeStep_eq_none)
    trivial hinit

def dbbufAnswers : InitAnswers where
  pci := .ok 0x010802
  cap := 0
  reset := .ok ()
  acq := ⟨0, .ok 0x10000⟩
  asq := ⟨0, .ok 0x20000, .ok 0x60000⟩
  enable := .ok ()
  features := .ok 0
  buffer := .ok 0x70000
  identify := .ok (0x100, 0)
  dbconfig := ⟨.ok 0x80000, .ok 0x81000, .ok (), 0⟩

/-- With the quirk, `nvme_close` stores through the pointers of the admin queues, which are
`NULL`. If there is no memory for the doorbells, their address is left behind, and the admin
queues have no pointers either. -/
theorem shadow_store_through_null :
    let run := Runs.run (lifeStep identityOps 12) (State.init (identityCtx fun _ => true))
    let quirk := LifeCall.init (some ⟨0, 0, 1⟩) dbbufAnswers
    let noMemory := LifeCall.init (some ⟨0, 0, 0⟩)
      { dbbufAnswers with dbconfig := ⟨.error .ENOMEM, .ok 0x81000, .ok (), 0⟩ }
    (run [quirk, .close]).map State.stores = some [none, none, none, none] ∧
    (run [noMemory]).map (fun s => s.doorbells.vaddr) = some Iommu.mapFailed ∧
    (run [noMemory]).map (fun s => (s.cq nvmeAq).mem.vaddr) = some 0x10000 ∧
    (run [noMemory]).map (fun s => (s.cq nvmeAq).dbbuf) = some ⟨none, none⟩ := by
  decide +kernel

end Ctrl

end Nvme

end Libvfn
