import Libvfn.Nvme.Ctrl

/-!
# Creating queues and failing

A queue that cannot be created should leave nothing behind: not in its slot, not in the
IOMMU and not on the controller. The functions that create queues test their arguments and
then overwrite the slot. There is no way back from there: whatever was in the slot is lost,
memory that was mapped stays mapped, and the completion queue of a pair stays on the
controller when the submission queue fails.

So a failed creation is undone exactly if the arguments of the (first) queue are refused.
-/

namespace Libvfn

namespace Nvme

namespace Ctrl

open Word Support Iommu

variable {σ : Type*}

inductive CreateCall where
  | iocq (qid : ℕ) (qsize vector : ℤ) (a : CqAnswers) (admin : Except Errno Unit)
  | iosq (qid : ℕ) (qsize : ℤ) (cq : ℕ) (a : SqAnswers) (admin : Except Errno Unit)
  | ioqpair (qid : ℕ) (qsize vector : ℤ) (acq : CqAnswers) (createCq : Except Errno Unit)
      (asq : SqAnswers) (createSq : Except Errno Unit)

def CreateCall.qid : CreateCall → ℕ
  | .iocq qid .. => qid
  | .iosq qid .. => qid
  | .ioqpair qid .. => qid

def CreateCall.run (ops : IommuCtxOps σ) (pageshift : ℕ) (s : State σ) :
    CreateCall → Option (Except Errno Unit × State σ)
  | .iocq qid qsize vector a admin =>
      some (nvmeCreateIocq ops pageshift s qid qsize vector a admin)
  | .iosq qid qsize cq a admin => nvmeCreateIosq ops pageshift s qid qsize cq a admin
  | .ioqpair qid qsize vector acq createCq asq createSq =>
      nvmeCreateIoqpair ops pageshift s qid qsize vector acq createCq asq createSq

/-- The slots of an identifier, the mappings and the queues on the controller are as they
were. -/
structure AsBefore (s s' : State σ) (qid : ℕ) : Prop where
  cq : s'.cq qid = s.cq qid
  sq : s'.sq qid = s.sq qid
  held : ∀ m, m ∈ s'.ctx.map.held ↔ m ∈ s.ctx.map.held
  cqs : s'.cqs = s.cqs
  sqs : s'.sqs = s.sqs

theorem asBefore_refl (s : State σ) (qid : ℕ) : AsBefore s s qid :=
  ⟨rfl, rfl, fun _ => .rfl, rfl, rfl⟩

/-- The arguments of the queue that is created first are refused. -/
def CreateCall.Refused (s : State σ) : CreateCall → Prop
  | .iocq qid qsize _ a _ => configureCheck s.ncqa qid qsize a.cap ≠ .ok ()
  | .iosq qid qsize _ a _ => configureCheck s.nsqa qid qsize a.cap ≠ .ok ()
  | .ioqpair qid qsize _ acq _ _ _ => configureCheck s.ncqa qid qsize acq.cap ≠ .ok ()

def KeptFrom (buffer : Iommu.IommuDmabuf) (mmap : Except Errno U64) : Prop :=
  buffer.vaddr = 0 ∨ buffer.vaddr ≠ Iommu.mapFailed ∧ mmap ≠ .ok buffer.vaddr

def CreateCall.FreeOrUsed (s : State σ) : CreateCall → Prop
  | .iocq qid _ _ a _ => KeptFrom (s.cq qid).mem a.mem
  | .iosq qid _ _ a _ => KeptFrom (s.sq qid).mem a.mem ∧ KeptFrom (s.sq qid).pages a.pages
  | .ioqpair qid _ _ acq _ _ _ => KeptFrom (s.cq qid).mem acq.mem

section Slots

variable {ops : IommuCtxOps σ} {pageshift qid cq : ℕ} {s s' : State σ} {qsize vector : ℤ}
  {res : Except Errno Unit}

theorem KeptFrom.vaddr_ne {pagesize sz flags : U64} {ctx ctx' : IommuCtx σ}
    {buffer buffer' old : Iommu.IommuDmabuf} {mmap : Except Errno U64} (h : KeptFrom old mmap)
    (hget : Iommu.iommuGetDmabuf ops pagesize ctx buffer sz flags mmap = (res, buffer', ctx')) :
    buffer' ≠ old := by
  rintro rfl
  rcases h with hzero | ⟨hfailed, hmmap⟩
  · exact (Iommu.iommuGetDmabuf_ne_zero hget).1 hzero
  · exact (Iommu.iommuGetDmabuf_vaddr hget).elim hfailed hmmap

theorem nvmeConfigureCq_slot_ne (ops : IommuCtxOps σ) (pageshift : ℕ) (vector : ℤ)
    {a : CqAnswers} (hkept : KeptFrom (s.cq qid).mem a.mem)
    (hcheck : configureCheck s.ncqa qid qsize a.cap = .ok ()) :
    (nvmeConfigureCq ops pageshift s qid qsize vector a).2.cq qid ≠ s.cq qid := by
  have hcfg := nvmeConfigureCq_configures ops pageshift s qid qsize vector a
  generalize nvmeConfigureCq ops pageshift s qid qsize vector a = r at hcfg
  cases hcfg with
  | refused e hno => cases hno.symm.trans hcheck
  | tried res mem ctx _ hmem =>
      intro hslot
      rw [State.withCq_cq_self] at hslot
      exact hkept.vaddr_ne hmem (congrArg Cq.mem hslot)

theorem nvmeConfigureSq_slot_ne {a : SqAnswers} (hmemory : KeptFrom (s.sq qid).mem a.mem)
    (hpages : KeptFrom (s.sq qid).pages a.pages)
    (hcheck : configureCheck s.nsqa qid qsize a.cap = .ok ())
    (h : nvmeConfigureSq ops pageshift s qid qsize cq a = some (res, s')) :
    s'.sq qid ≠ s.sq qid := by
  intro hslot
  cases nvmeConfigureSq_configures h with
  | refused e hno => cases hno.symm.trans hcheck
  | noPages e pages ctx _ hget =>
      rw [State.withSq_sq_self] at hslot
      exact hpages.vaddr_ne hget (congrArg Sq.pages hslot)
  | noMem e pages mem pages' ctx ctx' ctx'' heap _ _ hget =>
      rw [State.withSq_sq_self] at hslot
      exact hmemory.vaddr_ne hget (congrArg Sq.mem hslot)
  | configured pages mem ctx ctx' _ _ hget =>
      rw [State.withSq_sq_self] at hslot
      exact hmemory.vaddr_ne hget (congrArg Sq.mem hslot)

theorem nvmeCreateIocq_cq (a : CqAnswers) (admin : Except Errno Unit) :
    (nvmeCreateIocq ops pageshift s qid qsize vector a admin).2.cq =
      (nvmeConfigureCq ops pageshift s qid qsize vector a).2.cq := by
  rw [nvmeCreateIocq]
  rcases nvmeConfigureCq ops pageshift s qid qsize vector a with ⟨e | u, t⟩
  · rfl
  · cases admin with
    | error e => rfl
    | ok u => rfl

theorem nvmeCreateIosq_slots {a : SqAnswers} {admin : Except Errno Unit}
    (h : nvmeCreateIosq ops pageshift s qid qsize cq a admin = some (res, s')) :
    ∃ res' t, nvmeConfigureSq ops pageshift s qid qsize cq a = some (res', t) ∧
      s'.sq = t.sq ∧ s'.cq = t.cq := by
  obtain ⟨⟨res' | u, t⟩, hcfg, h⟩ := Option.map_eq_some_iff.mp h
  · obtain ⟨-, rfl⟩ := Prod.mk.inj h
    exact ⟨_, _, hcfg, rfl, rfl⟩
  · cases admin with
    | error e =>
        obtain ⟨-, rfl⟩ := Prod.mk.inj h
        exact ⟨_, _, hcfg, rfl, rfl⟩
    | ok u =>
        obtain ⟨-, rfl⟩ := Prod.mk.inj h
        exact ⟨_, _, hcfg, rfl, rfl⟩

theorem nvmeConfigureSq_cq {a : SqAnswers}
    (h : nvmeConfigureSq ops pageshift s qid qsize cq a = some (res, s')) : s'.cq = s.cq := by
  cases nvmeConfigureSq_configures h with
  | refused => rfl
  | noPages => rfl
  | noMem => rfl
  | configured => rfl

theorem nvmeCreateIocq_refused {a : CqAnswers} {admin : Except Errno Unit}
    (h : configureCheck s.ncqa qid qsize a.cap ≠ .ok ()) :
    ∃ e, nvmeCreateIocq ops pageshift s qid qsize vector a admin = (.error e, s) := by
  rw [nvmeCreateIocq, nvmeConfigureCq]
  rcases hcheck : configureCheck s.ncqa qid qsize a.cap with e | u
  · exact ⟨e, rfl⟩
  · exact absurd hcheck h

theorem nvmeCreateIosq_refused {a : SqAnswers} {admin : Except Errno Unit}
    (h : configureCheck s.nsqa qid qsize a.cap ≠ .ok ()) :
    ∃ e, nvmeCreateIosq ops pageshift s qid qsize cq a admin = some (.error e, s) := by
  rw [nvmeCreateIosq, nvmeConfigureSq, nvmeConfigureSqPages]
  rcases hcheck : configureCheck s.nsqa qid qsize a.cap with e | u
  · exact ⟨e, rfl⟩
  · exact absurd hcheck h

theorem nvmeCreateIoqpair_cq {acq : CqAnswers} {asq : SqAnswers}
    {createCq createSq : Except Errno Unit}
    (h : nvmeCreateIoqpair ops pageshift s qid qsize vector acq createCq asq createSq =
      some (res, s')) :
    s'.cq = (nvmeCreateIocq ops pageshift s qid qsize vector acq createCq).2.cq := by
  rw [nvmeCreateIoqpair] at h
  rcases hcq : nvmeCreateIocq ops pageshift s qid qsize vector acq createCq with ⟨e | u, t⟩
  · rw [hcq] at h
    obtain ⟨-, rfl⟩ := Prod.mk.inj (Option.some.inj h)
    rfl
  · rw [hcq] at h
    obtain ⟨res', t', hcfg, -, hslots⟩ := nvmeCreateIosq_slots h
    exact hslots.trans (nvmeConfigureSq_cq hcfg)

end Slots

/-- A failed creation leaves everything as it was exactly if the arguments of the first queue
are refused. -/
theorem create_all_or_nothing_iff (ops : IommuCtxOps σ) (pageshift : ℕ) (s s' : State σ)
    (call : CreateCall) (e : Errno) (hslot : call.FreeOrUsed s)
    (hfail : call.run ops pageshift s = some (.error e, s')) :
    AsBefore s s' call.qid ↔ call.Refused s := by
  cases call with
  | iocq qid qsize vector a admin =>
      have hrun := Option.some.inj hfail
      constructor
      · intro hbefore hcheck
        refine nvmeConfigureCq_slot_ne ops pageshift vector hslot hcheck ?_
        rw [← nvmeCreateIocq_cq a admin, hrun]
        exact hbefore.cq
      · intro hrefused
        obtain ⟨e', hno⟩ := nvmeCreateIocq_refused hrefused
        obtain ⟨-, rfl⟩ := Prod.mk.inj (hno.symm.trans hrun)
        exact asBefore_refl s qid
  | iosq qid qsize cq a admin =>
      constructor
      · intro hbefore hcheck
        obtain ⟨res, t, hcfg, hsq, -⟩ := nvmeCreateIosq_slots hfail
        refine nvmeConfigureSq_slot_ne hslot.1 hslot.2 hcheck hcfg ?_
        rw [← hsq]
        exact hbefore.sq
      · intro hrefused
        obtain ⟨e', hno⟩ := nvmeCreateIosq_refused hrefused
        obtain ⟨-, rfl⟩ := Prod.mk.inj (Option.some.inj (hno.symm.trans hfail))
        exact asBefore_refl s qid
  | ioqpair qid qsize vector acq createCq asq createSq =>
      constructor
      · intro hbefore hcheck
        refine nvmeConfigureCq_slot_ne ops pageshift vector hslot hcheck ?_
        rw [← nvmeCreateIocq_cq acq createCq, ← nvmeCreateIoqpair_cq hfail]
        exact hbefore.cq
      · intro hrefused
        obtain ⟨e', hno⟩ := nvmeCreateIocq_refused hrefused
        rw [CreateCall.run, nvmeCreateIoqpair, hno] at hfail
        obtain ⟨-, rfl⟩ := Prod.mk.inj (Option.some.inj hfail)
        exact asBefore_refl s qid

theorem create_all_or_nothing_iff_one_entry :
    let s := State.init (identityCtx fun _ => true)
    let call := CreateCall.ioqpair 1 1 (-1) ⟨0, .ok 0x10000⟩ (.ok ()) ⟨0, .ok 0x20000, .ok 0x30000⟩
      (.ok ())
    ∃ s', call.run identityOps 12 s = some (.error .EINVAL, s') ∧ AsBefore s s' 1 := by
  intro s call
  have hslot : call.FreeOrUsed s := .inl rfl
  have hrefused : call.Refused s := by
    change configureCheck 0 1 1 0 ≠ .ok ()
    decide
  exact ⟨_, rfl, (create_all_or_nothing_iff identityOps 12 s _ call _ hslot rfl).mpr hrefused⟩

/-- The controller rejects the submission queue of a pair: the completion queue stays on the
controller, and three mappings stay. Then there is no memory for a second completion queue in
the slot of the first one, whose memory stays mapped while the slot forgets it. -/
theorem create_ioqpair_leaves_queue :
    ∃ s s', (CreateCall.ioqpair 1 2 (-1) ⟨0, .ok 0x10000⟩ (.ok ()) ⟨0, .ok 0x20000, .ok 0x30000⟩
        (.error Errno.EIO)).run identityOps 12 (State.init (identityCtx fun _ => true)) =
          some (.error Errno.EIO, s) ∧
      s.cqs.map CreateCq.qid = [1] ∧ s.sqs = [] ∧
      s.ctx.map.held.map IovaMapping.vaddr = [0x10000, 0x20000, 0x30000] ∧
      (CreateCall.iocq 1 2 (-1) ⟨0, .error .ENOMEM⟩ (.ok ())).run identityOps 12 s =
        some (.error .ENOMEM, s') ∧
      (s.cq 1).mem.vaddr = 0x10000 ∧ (s'.cq 1).mem.vaddr = Iommu.mapFailed ∧
      s'.ctx.map.held.map IovaMapping.vaddr = [0x10000, 0x20000, 0x30000] := by
  refine ⟨_, _, rfl, ?_, ?_, ?_, rfl, ?_, ?_, ?_⟩ <;> decide +kernel

end Ctrl

end Nvme

end Libvfn
