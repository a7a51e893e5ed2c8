import Libvfn.Nvme.Release
import Libvfn.Nvme.Served

/-!
# Deleting queues

A delete function discards the queue in its slot first and sends its command afterwards. If the
books of the controller are right, then what is in the slot of a queue that exists is the memory
of this queue, and of no other. So the memory of a queue is gone while it is deleted, and it is
gone for good exactly if the delete command fails.

The books are right after `nvme_init`, and they stay so if queues are created in free slots, with
all the memory that they need. Without this, all that can be said is where the addresses in the
slot lie.
-/

namespace Libvfn

namespace Nvme

namespace Ctrl

open Word Support Iommu Ledger Runs

variable {σ : Type*}

/-! ## Slots that are in order -/

def Served.HasQueue (t : Served σ) (type : QueueType) (qid : ℕ) : Prop :=
  ∃ q ∈ t.live, q.type = type ∧ q.qid = qid

/-- A delete function is called for no queue that exists on the controller. -/
def LifeCall.DeletesNone (t : Served σ) : LifeCall → Prop
  | .deleteIocq qid _ => ¬t.HasQueue .cq qid
  | .deleteIosq qid _ => ¬t.HasQueue .sq qid
  | .deleteIoqpair qid deleteSq _ =>
      ¬t.HasQueue .sq qid ∧ (deleteSq = .ok () → ¬t.HasQueue .cq qid)
  | _ => True

/-- A delete command for a queue that exists on the controller succeeds. -/
def LifeCall.DeletesSucceed (t : Served σ) : LifeCall → Prop
  | .deleteIocq qid admin => t.HasQueue .cq qid → admin = .ok ()
  | .deleteIosq qid admin => t.HasQueue .sq qid → admin = .ok ()
  | .deleteIoqpair qid deleteSq deleteCq =>
      (t.HasQueue .sq qid → deleteSq = .ok ()) ∧
        (deleteSq = .ok () → t.HasQueue .cq qid → deleteCq = .ok ())
  | _ => True

/-- The books of the controller are right, and every queue on it is in its slot. -/
structure Tidy (loose : Multiset IovaMapping) (spare : Multiset ℕ) (t : Served σ) : Prop where
  accounts : Accounts loose spare t.ctrl
  slots : ∀ q ∈ t.live, q.mem ∈ t.ctrl.gives q.type q.qid

section Tidy

variable {ops : IommuCtxOps σ} {pageshift qid cq i : ℕ} {s s' : State σ} {t u : Served σ}
  {type type' : QueueType} {qsize vector : ℤ} {res admin : Except Errno Unit}
  {loose : Multiset IovaMapping} {spare : Multiset ℕ} {rest : List (U64 × Except Errno U64)}

theorem beginsIn_self {buffer : Iommu.IommuDmabuf} (hlen : buffer.len ≠ 0) :
    buffer.BeginsIn (buffer.mapping 0) :=
  ⟨hlen, start_mem_addresses hlen⟩

/-- What a slot gives back is mapped. -/
theorem Accounts.mem_gives (h : Accounts loose spare s) {b : Iommu.IommuDmabuf}
    (hb : b ∈ s.gives type qid) : b.len ≠ 0 ∧ b.mapping 0 ∈ s.ctx.map.held := by
  rw [← Multiset.mem_coe, ← IommuCtx.memory, h.memory, Multiset.mem_add, Multiset.mem_add,
    Multiset.mem_add]
  cases type with
  | cq =>
      rw [State.gives] at hb
      split_ifs at hb with hmem hpre
      · cases hb
      · cases hb
      · obtain rfl := List.mem_singleton.mp hb
        obtain ⟨hqid, hlen⟩ := h.cq qid hmem
        have hholds : (s.cq qid).mem.mapping 0 ∈ (s.cq qid).holds := by
          rw [Cq.holds, if_neg hmem, memHolds, if_neg hpre]
          exact Multiset.mem_singleton_self _
        have htotal := mem_total hqid hholds
        exact ⟨hlen, .inr (.inl (.inl htotal))⟩
  | sq =>
      have hmem : (s.sq qid).mem.vaddr ≠ 0 := by
        intro hzero
        rw [State.gives, if_pos hzero] at hb
        cases hb
      obtain ⟨hqid, hlen, hpages⟩ := h.sq qid hmem
      rw [State.gives, if_neg hmem] at hb
      have hholds : b.len ≠ 0 ∧ b.mapping 0 ∈ (s.sq qid).holds := by
        rw [Sq.holds, if_neg hmem, memHolds]
        split_ifs at hb ⊢ with hpre
        · obtain rfl := List.mem_singleton.mp hb
          exact ⟨hpages, Multiset.mem_cons_self _ _⟩
        · rcases List.mem_pair.mp hb with rfl | rfl
          · exact ⟨hlen, Multiset.mem_cons_of_mem (Multiset.mem_singleton_self _)⟩
          · exact ⟨hpages, Multiset.mem_cons_self _ _⟩
      have htotal := mem_total hqid hholds.2
      exact ⟨hholds.1, .inr (.inl (.inr htotal))⟩

theorem Tidy.kept (h : Tidy loose spare t) : Kept t :=
  ⟨h.accounts.mapped, fun q hq => (h.accounts.mem_gives (h.slots q hq)).2⟩

theorem Accounts.discard (h : Accounts loose spare s)
    (hdisc : s.discard ops type qid = some s') : Accounts loose spare s' := by
  cases type with
  | cq => exact (h.discardCq ops qid).of_eq_some s' hdisc
  | sq => exact (h.discardSq ops qid).of_eq_some s' hdisc

theorem gives_withCq_of_ne (s : State σ) (new : Cq) (ctx : IommuCtx σ)
    (hne : ¬(type = .cq ∧ i = qid)) :
    (s.withCq qid new ctx).gives type i = s.gives type i := by
  cases type with
  | cq =>
      dsimp only [State.gives]
      rw [State.withCq_cq_of_ne fun hi => hne ⟨rfl, hi⟩]
  | sq => rfl

theorem gives_withSq_of_ne (s : State σ) (new : Sq) (ctx : IommuCtx σ) (heap : Heap)
    (hne : ¬(type = .sq ∧ i = qid)) :
    (s.withSq qid new ctx heap).gives type i = s.gives type i := by
  cases type with
  | cq => rfl
  | sq =>
      dsimp only [State.gives]
      rw [State.withSq_sq_of_ne fun hi => hne ⟨rfl, hi⟩]

theorem gives_of_discard (hdisc : s.discard ops type qid = some s')
    (hne : ¬(type' = type ∧ i = qid)) : s'.gives type' i = s.gives type' i := by
  cases type with
  | cq =>
      cases nvmeDiscardCq_discards hdisc with
      | empty => rfl
      | discarded ctx => exact gives_withCq_of_ne s .zeroed ctx hne
  | sq =>
      cases nvmeDiscardSq_discards hdisc with
      | empty => rfl
      | discarded _ ctx heap => exact gives_withSq_of_ne s .zeroed ctx heap hne

theorem Tidy.discard (h : Tidy loose spare t) (hdisc : t.ctrl.discard ops type qid = some s)
    {live : List LiveQueue} (hlive : ∀ q ∈ live, q ∈ t.live)
    (hne : ∀ q ∈ live, ¬(q.type = type ∧ q.qid = qid)) : Tidy loose spare ⟨s, live⟩ := by
  refine ⟨h.accounts.discard hdisc, fun q hq => ?_⟩
  rw [gives_of_discard hdisc (hne q hq)]
  exact h.slots q (hlive q hq)

theorem Tidy.discard_iff (h : Tidy loose spare t) (hdisc : t.ctrl.discard ops type qid = some s)
    {live : List LiveQueue} (hlive : ∀ q ∈ live, q ∈ t.live) :
    MemoryKept ⟨s, live⟩ ↔ ∀ q ∈ live, ¬(q.type = type ∧ q.qid = qid) := by
  constructor
  · rintro hkept q hq ⟨rfl, rfl⟩
    have hgives := h.slots q (hlive q hq)
    exact (h.kept.discard_iff hdisc hlive).mp hkept q hq q.mem hgives
      (beginsIn_self (h.accounts.mem_gives hgives).1)
  · exact fun hne => (h.discard hdisc hlive hne).kept.memory

/-! ### Deleting -/

theorem not_hasQueue_iff : ¬t.HasQueue type qid ↔ ∀ q ∈ t.live, ¬(q.type = type ∧ q.qid = qid) := by
  simp [Served.HasQueue]

theorem named_of_slot {q : LiveQueue} (h : q.type = type ∧ q.qid = qid) :
    q.named type qid = true := by
  rw [LiveQueue.named, h.1, h.2]
  simp

theorem Tidy.delete_iff (h : Tidy loose spare t)
    (hdelete : t.delete ops type qid admin = some (res, u)) :
    MemoryKept u ↔ (t.HasQueue type qid → admin = .ok ()) := by
  obtain ⟨s, cqs, sqs, hdisc, hctrl, -, hlive⟩ := t.delete_eq_some hdelete
  have hkept : MemoryKept u ↔ MemoryKept ⟨s, u.live⟩ := by
    rw [MemoryKept, hctrl]
    exact Iff.rfl
  rw [hkept, h.discard_iff hdisc (Served.delete_live hdelete)]
  rcases hlive with ⟨⟨e, rfl⟩, hlive⟩ | ⟨rfl, hlive⟩
  · rw [hlive, ← not_hasQueue_iff]
    exact imp_congr_right fun _ => by simp
  · refine iff_of_true (fun q hq hslot => ?_) fun _ => rfl
    rw [hlive, List.mem_filter, named_of_slot hslot] at hq
    exact Bool.false_ne_true hq.2

theorem Tidy.delete (h : Tidy loose spare t)
    (hdelete : t.delete ops type qid admin = some (res, u))
    (hok : t.HasQueue type qid → admin = .ok ()) : Tidy loose spare u := by
  have hkept := (h.delete_iff hdelete).mpr hok
  obtain ⟨s, cqs, sqs, hdisc, hctrl, -⟩ := t.delete_eq_some hdelete
  rw [MemoryKept, hctrl] at hkept
  have hsub := Served.delete_live hdelete
  have htidy := h.discard hdisc hsub ((h.discard_iff hdisc hsub).mp hkept)
  have hs := htidy.accounts
  refine ⟨?_, ?_⟩
  · rw [hctrl]
    exact ⟨hs.mapped, hs.memory, hs.heap, hs.ncqa_le, hs.nsqa_le, hs.cq, hs.sq, hs.dbbuf⟩
  · rw [hctrl]
    exact fun q hq => htidy.slots q hq

theorem hasQueue_delete_of_ne (hne : type' ≠ type)
    (hdelete : t.delete ops type qid admin = some (res, u)) :
    u.HasQueue type' i ↔ t.HasQueue type' i := by
  obtain ⟨s, cqs, sqs, -, -, -, ⟨-, hlive⟩ | ⟨-, hlive⟩⟩ := t.delete_eq_some hdelete
  · rw [Served.HasQueue, hlive]
    exact Iff.rfl
  · refine ⟨fun ⟨q, hq, hslot⟩ => ⟨q, Served.delete_live hdelete q hq, hslot⟩, ?_⟩
    rintro ⟨q, hq, htype, hqid⟩
    refine ⟨q, hlive ▸ List.mem_filter.mpr ⟨hq, ?_⟩, htype, hqid⟩
    simp [LiveQueue.named, htype, hne]

theorem Tidy.spares_iff (hops : Releasing ops) (h : Tidy loose spare t) (type : QueueType)
    (qid : ℕ) :
    ((t.ctrl.discard ops type qid).isSome → t.Spares type qid) ↔ ¬t.HasQueue type qid := by
  have hsome : ∃ s, t.ctrl.discard ops type qid = some s := by
    cases type with
    | cq => exact (h.accounts.discardCq ops qid).exists_eq_some hops
    | sq => exact (h.accounts.discardSq ops qid).exists_eq_some hops
  obtain ⟨s, hdisc⟩ := hsome
  rw [← h.kept.keeps_iff, not_hasQueue_iff, ← h.discard_iff hdisc fun q hq => hq]
  refine ⟨fun hkept => hkept s hdisc, fun hkept s' hdisc' => ?_⟩
  obtain rfl := Option.some.inj (hdisc.symm.trans hdisc')
  exact hkept

theorem Tidy.exists_delete (hops : Releasing ops) (h : Tidy loose spare t) (qid : ℕ)
    (admin : Except Errno Unit) : ∃ u, t.delete ops .sq qid admin = some (admin, u) := by
  obtain ⟨r, hr⟩ := (h.accounts.deleteIosq ops qid admin).exists_eq_some hops
  have hdelete : t.delete ops .sq qid admin = some (t.deleted .sq qid r) :=
    Option.map_eq_some_iff.mpr ⟨r, hr, rfl⟩
  generalize t.deleted .sq qid r = r' at hdelete
  obtain ⟨res, u⟩ := r'
  obtain ⟨s, cqs, sqs, -, -, rfl, -⟩ := t.delete_eq_some hdelete
  exact ⟨u, hdelete⟩

theorem Tidy.spares_call_iff (hops : Releasing ops) (h : Tidy loose spare t) (call : LifeCall) :
    call.Spares ops t ↔ call.DeletesNone t := by
  cases call with
  | init => exact Iff.rfl
  | close => exact Iff.rfl
  | create => exact Iff.rfl
  | deleteIocq qid admin => exact h.spares_iff hops .cq qid
  | deleteIosq qid admin => exact h.spares_iff hops .sq qid
  | deleteIoqpair qid deleteSq deleteCq =>
      rw [LifeCall.Spares, LifeCall.DeletesNone, h.spares_iff hops .sq qid]
      refine and_congr_right fun hnone => ⟨?_, ?_⟩
      · rintro hspares rfl
        obtain ⟨u, hdelete⟩ := h.exists_delete hops qid (.ok ())
        have hu := h.delete hdelete fun _ => rfl
        rw [← hasQueue_delete_of_ne (by decide) hdelete, ← hu.spares_iff hops]
        exact hspares u hdelete
      · intro hno u hdelete
        obtain ⟨s, cqs, sqs, -, -, hres, -⟩ := t.delete_eq_some hdelete
        have hu := h.delete hdelete fun _ => hres.symm
        rw [hu.spares_iff hops, hasQueue_delete_of_ne (by decide) hdelete]
        exact hno hres.symm

/-! ### Creating -/

theorem gives_of_free (hfree : (s.slotMem type qid).vaddr = 0) : s.gives type qid = [] := by
  cases type with
  | cq => exact if_pos hfree
  | sq => exact if_pos hfree

/-- A queue that is configured is in its slot, and the others are in theirs. -/
theorem configureCq_gives {a : CqAnswers}
    (hcfg : nvmeConfigureCq ops pageshift s qid qsize vector a = (res, s')) :
    (∀ type i, ¬(type = .cq ∧ i = qid) → s'.gives type i = s.gives type i) ∧
      (res = .ok () → s'.slotMem .cq qid ∈ s'.gives .cq qid) := by
  have hconfigures := nvmeConfigureCq_configures ops pageshift s qid qsize vector a
  rw [hcfg] at hconfigures
  cases hconfigures with
  | refused e => exact ⟨fun _ _ _ => rfl, nofun⟩
  | tried _ mem ctx hcheck hmem =>
      refine ⟨fun _ _ => gives_withCq_of_ne s _ ctx, fun _ => ?_⟩
      dsimp only [State.gives, State.slotMem]
      rw [State.withCq_cq_self, if_neg (Iommu.iommuGetDmabuf_ne_zero hmem).1]
      exact List.mem_singleton_self _

theorem configureSq_gives {a : SqAnswers}
    (hcfg : nvmeConfigureSq ops pageshift s qid qsize cq a = some (res, s')) :
    (∀ type i, ¬(type = .sq ∧ i = qid) → s'.gives type i = s.gives type i) ∧
      (res = .ok () → s'.slotMem .sq qid ∈ s'.gives .sq qid) := by
  cases nvmeConfigureSq_configures hcfg with
  | refused e => exact ⟨fun _ _ _ => rfl, nofun⟩
  | noPages => exact ⟨fun _ _ => gives_withSq_of_ne s _ _ _, nofun⟩
  | noMem => exact ⟨fun _ _ => gives_withSq_of_ne s _ _ _, nofun⟩
  | configured pages mem ctx ctx' hcheck hpages hmem =>
      refine ⟨fun _ _ => gives_withSq_of_ne s _ _ _, fun _ => ?_⟩
      dsimp only [State.gives, State.slotMem]
      rw [State.withSq_sq_self, if_neg (Iommu.iommuGetDmabuf_ne_zero hmem).1]
      exact List.mem_cons_self

theorem Tidy.fill (h : Tidy loose spare t) (hs : Accounts loose spare s)
    (hfree : (t.ctrl.slotMem type qid).vaddr = 0)
    (hgives : ∀ type' i, ¬(type' = type ∧ i = qid) → s.gives type' i = t.ctrl.gives type' i) :
    Tidy loose spare ⟨s, t.live⟩ := by
  refine ⟨hs, fun q hq => ?_⟩
  have hslot := h.slots q hq
  have hne : ¬(q.type = type ∧ q.qid = qid) := by
    rintro ⟨rfl, rfl⟩
    rw [gives_of_free hfree] at hslot
    cases hslot
  rw [hgives q.type q.qid hne]
  exact hslot

theorem Tidy.created (h : Tidy loose spare t) {r : Except Errno Unit × State σ}
    (hs : Accounts loose spare r.2) (hfree : (t.ctrl.slotMem type qid).vaddr = 0)
    (hgives : ∀ type' i, ¬(type' = type ∧ i = qid) → r.2.gives type' i = t.ctrl.gives type' i)
    (hown : r.1 = .ok () → r.2.slotMem type qid ∈ r.2.gives type qid) :
    Tidy loose spare (t.created type qid r).2 := by
  have hfill := h.fill hs hfree hgives
  obtain ⟨e | v, s⟩ := r
  · exact hfill
  · exact ⟨hs, List.forall_mem_cons.mpr ⟨hown rfl, hfill.slots⟩⟩

theorem createIocq_gives (ops : IommuCtxOps σ) (pageshift : ℕ) (s : State σ) (qid : ℕ)
    (qsize vector : ℤ) (a : CqAnswers) (admin : Except Errno Unit) :
    let r := nvmeCreateIocq ops pageshift s qid qsize vector a admin
    (∀ type i, ¬(type = .cq ∧ i = qid) → r.2.gives type i = s.gives type i) ∧
      (r.1 = .ok () → r.2.slotMem .cq qid ∈ r.2.gives .cq qid) := by
  rw [nvmeCreateIocq]
  rcases hcfg : nvmeConfigureCq ops pageshift s qid qsize vector a with ⟨e | v, s'⟩
  · exact ⟨(configureCq_gives hcfg).1, fun hok => by cases hok⟩
  · obtain ⟨hothers, hown⟩ := configureCq_gives hcfg
    cases admin with
    | error e => exact ⟨hothers, fun hok => by cases hok⟩
    | ok v => exact ⟨hothers, fun _ => hown rfl⟩

theorem createIosq_gives {a : SqAnswers} {r : Except Errno Unit × State σ}
    (hcreate : nvmeCreateIosq ops pageshift s qid qsize cq a admin = some r) :
    (∀ type i, ¬(type = .sq ∧ i = qid) → r.2.gives type i = s.gives type i) ∧
      (r.1 = .ok () → r.2.slotMem .sq qid ∈ r.2.gives .sq qid) := by
  obtain ⟨⟨e | v, s'⟩, hcfg, rfl⟩ := Option.map_eq_some_iff.mp hcreate
  · exact ⟨(configureSq_gives hcfg).1, fun hok => by cases hok⟩
  · obtain ⟨hothers, hown⟩ := configureSq_gives hcfg
    cases admin with
    | error e => exact ⟨hothers, fun hok => by cases hok⟩
    | ok v => exact ⟨hothers, fun _ => hown rfl⟩

theorem Tidy.createIocq (h : Tidy loose spare t) (hfree : (t.ctrl.cq qid).mem.vaddr = 0)
    {a : CqAnswers} (hfresh : Fresh t.ctrl.ctx.map (blocks (vfnPagesize pageshift)
      ((shiftedSize qsize 4, a.mem) :: rest)))
    (hsupplied : configureCheck t.ctrl.ncqa qid qsize a.cap = .ok () →
      CqSupplied ops pageshift t.ctrl qsize a) :
    Tidy loose spare (t.createIocq ops pageshift qid qsize vector a admin).2 := by
  obtain ⟨hothers, hown⟩ := createIocq_gives ops pageshift t.ctrl qid qsize vector a admin
  exact h.created (h.accounts.createIocq hfree hfresh hsupplied rfl).1 hfree hothers hown

theorem Tidy.createIosq (h : Tidy loose spare t) (hfree : (t.ctrl.sq qid).mem.vaddr = 0)
    {a : SqAnswers} (hfresh : Fresh t.ctrl.ctx.map (blocks (vfnPagesize pageshift)
      ((pagesSize qsize t.ctrl.mps, a.pages) :: (shiftedSize qsize 6, a.mem) :: rest)))
    (hsupplied : SqSupplied ops pageshift t.ctrl qsize a)
    (hcreate : t.createIosq ops pageshift qid qsize cq a admin = some (res, u)) :
    Tidy loose spare u := by
  obtain ⟨r, hr, hu⟩ := Option.map_eq_some_iff.mp hcreate
  obtain ⟨hothers, hown⟩ := createIosq_gives hr
  have hreturns : Returns True (fun r => Accounts loose spare r.2)
      (nvmeCreateIosq ops pageshift t.ctrl qid qsize cq a admin) :=
    h.accounts.createIosq hfree admin hfresh hsupplied
  have htidy : Tidy loose spare (t.created .sq qid r).2 :=
    h.created (hreturns.of_eq_some r hr) hfree hothers hown
  rw [hu] at htidy
  exact htidy

theorem Tidy.create (h : Tidy loose spare t) {call : CreateCall}
    (horderly : call.Orderly ops pageshift t.ctrl)
    (hstep : servedStep ops pageshift t (.create call) = some u) : Tidy loose spare u := by
  obtain ⟨hfree, hfresh, hsupplied⟩ := horderly
  cases call with
  | iocq qid qsize vector a admin =>
      obtain rfl := Option.some.inj hstep
      exact h.createIocq hfree hfresh hsupplied
  | iosq qid qsize cq a admin =>
      obtain ⟨r, hcreate, rfl⟩ := Option.map_eq_some_iff.mp hstep
      exact h.createIosq hfree hfresh hsupplied hcreate
  | ioqpair qid qsize vector acq createCq asq createSq =>
      rw [servedStep] at hstep
      have hv : Tidy loose spare (t.createIocq ops pageshift qid qsize vector acq createCq).2 :=
        h.createIocq hfree.1 hfresh hsupplied.1
      rcases hcreate : t.createIocq ops pageshift qid qsize vector acq createCq with ⟨e | w, v⟩
      · rw [hcreate] at hstep hv
        obtain rfl := Option.some.inj hstep
        exact hv
      · rw [hcreate] at hstep hv
        have hctrl : nvmeCreateIocq ops pageshift t.ctrl qid qsize vector acq createCq =
            (.ok (), v.ctrl) := by
          refine Prod.ext ?_ ?_
          · rw [← created_fst t .cq qid, ← Served.createIocq, hcreate]
          · rw [← created_ctrl t .cq qid, ← Served.createIocq, hcreate]
        obtain ⟨-, hrest, hsq, hmps⟩ := h.accounts.createIocq hfree.1 hfresh hsupplied.1 hctrl
        rw [← hmps] at hrest
        obtain ⟨r, hcreate', rfl⟩ := Option.map_eq_some_iff.mp hstep
        exact hv.createIosq (hsq ▸ hfree.2) hrest (hsupplied.2 v.ctrl hctrl) hcreate'

end Tidy

/-! ## Runs -/

section Runs

variable {ops : IommuCtxOps σ} {pageshift : ℕ} {t u : Served σ} {call : LifeCall}
  {loose : Multiset IovaMapping} {spare : Multiset ℕ}

theorem LifeCall.Orderly.given (h : call.Orderly ops pageshift t.ctrl) :
    call.Given pageshift t := by
  cases call with
  | init => exact h
  | close => exact h
  | create => exact h.fresh
  | deleteIocq | deleteIosq | deleteIoqpair => trivial

theorem LifeCall.DeletesNone.succeed (h : call.DeletesNone t) : call.DeletesSucceed t := by
  cases call with
  | init | close | create => trivial
  | deleteIocq qid admin => exact fun hq => absurd hq h
  | deleteIosq qid admin => exact fun hq => absurd hq h
  | deleteIoqpair qid deleteSq deleteCq =>
      exact ⟨fun hq => absurd hq h.1, fun hok hq => absurd hq (h.2 hok)⟩

/-- A call leaves the slots in order, and the queues with their memory, exactly if delete commands
for queues that exist succeed. -/
theorem Tidy.step (h : Tidy loose spare t) (horderly : call.Orderly ops pageshift t.ctrl)
    (hstep : servedStep ops pageshift t call = some u) :
    (MemoryKept u ↔ call.DeletesSucceed t) ∧ (call.DeletesSucceed t → Tidy loose spare u) := by
  cases call with
  | init => exact horderly.elim
  | close => exact horderly.elim
  | create call =>
      have hu := h.create horderly hstep
      exact ⟨iff_of_true hu.kept.memory trivial, fun _ => hu⟩
  | deleteIocq qid admin =>
      obtain ⟨r, hdelete, rfl⟩ := Option.map_eq_some_iff.mp hstep
      exact ⟨h.delete_iff hdelete, h.delete hdelete⟩
  | deleteIosq qid admin =>
      obtain ⟨r, hdelete, rfl⟩ := Option.map_eq_some_iff.mp hstep
      exact ⟨h.delete_iff hdelete, h.delete hdelete⟩
  | deleteIoqpair qid deleteSq deleteCq =>
      obtain ⟨⟨e | w, v⟩, hdelete, hrest⟩ := Option.bind_eq_some_iff.mp hstep
      · obtain rfl := Option.some.inj hrest
        obtain ⟨s, cqs, sqs, -, -, hres, -⟩ := t.delete_eq_some hdelete
        subst hres
        refine ⟨?_, fun hok => h.delete hdelete hok.1⟩
        rw [h.delete_iff hdelete, LifeCall.DeletesSucceed]
        exact (and_iff_left nofun).symm
      · obtain ⟨r, hdelete', rfl⟩ := Option.map_eq_some_iff.mp hrest
        obtain ⟨s, cqs, sqs, -, -, hres, -⟩ := t.delete_eq_some hdelete
        subst hres
        have hv := h.delete hdelete fun _ => rfl
        have hcq := hasQueue_delete_of_ne (i := qid) (show QueueType.cq ≠ .sq by decide) hdelete
        rw [hv.delete_iff hdelete', hcq, LifeCall.DeletesSucceed]
        refine ⟨⟨fun hok => ⟨fun _ => rfl, fun _ => hok⟩, fun hok => hok.2 rfl⟩, fun hok => ?_⟩
        exact hv.delete hdelete' fun hq => hok.2 rfl (hcq.mp hq)

theorem Tidy.servedStep_isSome (hops : Releasing ops) (h : Tidy loose spare t)
    (horderly : call.Orderly ops pageshift t.ctrl) : servedStep ops pageshift t call ≠ none := by
  obtain ⟨s, hs⟩ := (h.accounts.step horderly).exists_eq_some hops
  rw [← servedStep_ctrl] at hs
  intro hnone
  rw [hnone] at hs
  cases hs

end Runs

/-- From `nvme_init` on, in runs of the functions for I/O queues in which `mmap` gives fresh memory,
the memory of every queue on the controller is mapped whenever a command is under way or a call
returns, exactly if no delete function finds an address in its slot that lies in the memory of a
queue on the controller.

If queues are created in free slots only, with all the memory that they need, this says that no
delete function is called for a queue that exists; and the memory is mapped whenever a call
returns exactly if no delete command for a queue that exists fails. -/
theorem queue_memory_kept_iff {ops : IommuCtxOps σ} {pageshift : ℕ} {ctx : IommuCtx σ}
    {opts : Option Opts} {a : InitAnswers} {s : State σ} {calls : List LifeCall}
    (hmapped : ∃ xs, Mapped ctx.map xs)
    (hfresh : Fresh ctx.map (blocks (vfnPagesize pageshift) (initRequests pageshift a)))
    (hinit : nvmeInit ops pageshift (State.init ctx) opts a = some (.ok (), s))
    (hgiven : MeetsAlong (servedStep ops pageshift) (fun t call => call.Given pageshift t)
      ⟨s, []⟩ calls) :
    (MeetsAlong (servedStep ops pageshift) (KeepsMemory ops pageshift) ⟨s, []⟩ calls ↔
      MeetsAlong (servedStep ops pageshift) (fun t call => call.Spares ops t) ⟨s, []⟩ calls) ∧
    (Releasing ops →
      MeetsAlong (servedStep ops pageshift) (fun t call => call.Orderly ops pageshift t.ctrl)
        ⟨s, []⟩ calls →
      (MeetsAlong (servedStep ops pageshift) (KeepsMemory ops pageshift) ⟨s, []⟩ calls ↔
        MeetsAlong (servedStep ops pageshift) (fun t call => call.DeletesNone t) ⟨s, []⟩ calls) ∧
      ((∀ pre t, pre <+: calls → run (servedStep ops pageshift) ⟨s, []⟩ pre = some t →
          MemoryKept t) ↔
        MeetsAlong (servedStep ops pageshift) (fun t call => call.DeletesSucceed t)
          ⟨s, []⟩ calls)) := by
  have htidy : Tidy ctx.memory 0 (⟨s, []⟩ : Served σ) :=
    ⟨accounts_of_nvmeInit hmapped hfresh hinit, fun q hq => by cases hq⟩
  have hspares : MeetsAlong (servedStep ops pageshift) (KeepsMemory ops pageshift) ⟨s, []⟩ calls ↔
      MeetsAlong (servedStep ops pageshift) (fun t call => call.Spares ops t) ⟨s, []⟩ calls := by
    refine meetsAlong_iff_of_meets (fun t call u (h : Kept t) hcall hkeeps hstep => ?_)
      (fun t call h hcall => h.step_iff hcall) htidy.kept hgiven
    exact h.passes hcall ((h.step_iff hcall).mp hkeeps) (.returned call u hstep)
  refine ⟨hspares, fun hops horderly => ⟨?_, ?_⟩⟩
  · rw [hspares]
    refine meetsAlong_iff_of_meets (fun t call u h hcall hsp hstep => ?_)
      (fun t call h _ => Tidy.spares_call_iff hops h call) htidy horderly
    exact (h.step hcall hstep).2 ((h.spares_call_iff hops call).mp hsp).succeed
  · refine good_along_iff_of_meets
      (fun t call u (h : Tidy ctx.memory 0 t) _ hcall hstep hkept => ?_)
      (fun t call u h _ hcall hstep => ?_)
      (fun t call h _ hcall hnone => ?_) htidy htidy.kept.memory horderly
    · exact (h.step hcall hstep).2 ((h.step hcall hstep).1.mp hkept)
    · exact (h.step hcall hstep).1
    · exact absurd hnone (h.servedStep_isSome hops hcall)

instance (t : Served σ) : Decidable (MemoryKept t) := List.decidableBAll _ _

def twoPairsInit (ops : IommuCtxOps Unit) : Option (Except Errno Unit × State Unit) :=
  nvmeInit ops 12 (State.init sharedCtx) (some ⟨1, 1, 0⟩)
    { dbbufAnswers with features := .ok 0x10001 }

def createFirst : LifeCall := .create (.iocq 1 64 0 ⟨0, .ok 0x90000⟩ (.ok ()))

def createSecond : LifeCall := .create (.iocq 2 64 0 ⟨0, .ok 0xa0000⟩ (.error Errno.EIO))

def readyForCq (s : State Unit) (qid : ℕ) (mem : U64) : Bool :=
  (s.cq qid).mem.vaddr = 0 &&
    standsClear s.ctx.map (blocks (vfnPagesize 12) [(shiftedSize 64 4, .ok mem)]) &&
    (Iommu.iommuGetDmabuf identityOps (vfnPagesize 12) s.ctx .zeroed (shiftedSize 64 4) 0
      (.ok mem)).1 = .ok ()

theorem orderly_of_readyForCq {s : State Unit} {qid : ℕ} {mem : U64}
    (h : readyForCq s qid mem = true) (vector : ℤ) (cap : U64) (admin : Except Errno Unit) :
    (CreateCall.iocq qid 64 vector ⟨cap, .ok mem⟩ admin).Orderly identityOps 12 s := by
  rw [readyForCq, Bool.and_eq_true, Bool.and_eq_true, decide_eq_true_eq, decide_eq_true_eq] at h
  exact ⟨h.1.1, fresh_of_standsClear h.1.2, fun _ => h.2⟩

/-- A second completion queue cannot be created, and it is deleted all the same. -/
theorem queue_memory_kept_after_failure :
    let calls := [createFirst, createSecond, .deleteIocq 2 (.ok ())]
    (twoPairsInit identityOps).map Prod.fst = some (.ok ()) ∧
      ∀ s, twoPairsInit identityOps = some (.ok (), s) →
        (run (servedStep identityOps 12) ⟨s, []⟩ calls).map (fun t => t.live.map LiveQueue.qid) =
            some [1] ∧
          MeetsAlong (servedStep identityOps 12) (KeepsMemory identityOps 12) ⟨s, []⟩ calls := by
  intro calls
  refine ⟨by decide +kernel, fun s hinit => ?_⟩
  have hfirst : (twoPairsInit identityOps).all (fun r => readyForCq r.2 1 0x90000) = true := by
    decide +kernel
  have hsecond : (twoPairsInit identityOps).all (fun r =>
      (servedStep identityOps 12 ⟨r.2, []⟩ createFirst).all fun t =>
        readyForCq t.ctrl 2 0xa0000) = true := by
    decide +kernel
  have hthird : (twoPairsInit identityOps).all (fun r =>
      (run (servedStep identityOps 12) ⟨r.2, []⟩ [createFirst, createSecond]).all fun t =>
        t.live.all fun q => q.qid ≠ 2) = true := by
    decide +kernel
  have hlive : (twoPairsInit identityOps).all (fun r =>
      (run (servedStep identityOps 12) ⟨r.2, []⟩ calls).map (fun t => t.live.map LiveQueue.qid) =
        some [1]) = true := by
    decide +kernel
  rw [hinit] at hfirst hsecond hthird hlive
  have hones := of_decide_eq_true hlive
  have horderly : MeetsAlong (servedStep identityOps 12)
      (fun t call => call.Orderly identityOps 12 t.ctrl) ⟨s, []⟩ calls := by
    refine ⟨orderly_of_readyForCq hfirst 0 0 (.ok ()), fun t ht => ?_⟩
    obtain rfl := Option.some.inj ht
    exact ⟨orderly_of_readyForCq hsecond 0 0 (.error Errno.EIO),
      fun _ _ => ⟨trivial, fun _ _ => trivial⟩⟩
  have hnone : MeetsAlong (servedStep identityOps 12) (fun t call => call.DeletesNone t)
      ⟨s, []⟩ calls := by
    refine ⟨trivial, fun t ht => ⟨trivial, fun u hu => ⟨?_, fun _ _ => trivial⟩⟩⟩
    obtain rfl := Option.some.inj ht
    obtain rfl := Option.some.inj hu
    rintro ⟨q, hq, -, hqid⟩
    exact of_decide_eq_true (List.all_eq_true.mp hthird q hq) hqid
  have hgiven := horderly.imp (fun _ _ _ (_ : True) _ _ => trivial)
    (fun _ _ _ h => LifeCall.Orderly.given h) trivial
  have hkept := queue_memory_kept_iff sharedCtx_mapped (fresh_of_standsClear (by decide +kernel))
    hinit hgiven
  exact ⟨hones, ((hkept.2 (fun _ _ _ => ⟨(), rfl⟩) horderly).1).mpr hnone⟩

def refusingPageOps : IommuCtxOps Unit :=
  { identityOps with
    dmaMap := fun _ vaddr _ _ _ =>
      if vaddr = 0xa7000 then (.error .ENOMEM, ()) else (.ok vaddr, ()) }

/-- A completion queue is created and deleted. Its memory is unmapped when the delete command is
sent, and it stays unmapped when the command fails. If the memory of a first completion queue
cannot be mapped, and that of a second one is given where the first would have been, then deleting
the first unmaps the second. -/
theorem queue_memory_unmapped_early :
    (∃ s, twoPairsInit identityOps = some (.ok (), s) ∧
      (∃ t u, run (servedStep identityOps 12) ⟨s, []⟩ [createFirst] = some t ∧
        Passes identityOps 12 t (.deleteIocq 1 (.ok ())) u ∧ ¬MemoryKept u) ∧
      ∃ t, run (servedStep identityOps 12) ⟨s, []⟩
          [createFirst, .deleteIocq 1 (.error Errno.EIO)] = some t ∧ ¬MemoryKept t) ∧
    ∃ s, twoPairsInit refusingPageOps = some (.ok (), s) ∧
      ∃ t, run (servedStep refusingPageOps 12) ⟨s, []⟩
          [.create (.iocq 1 64 0 ⟨0, .ok 0xa7000⟩ (.ok ())),
            .create (.iocq 2 512 0 ⟨0, .ok 0xa6000⟩ (.ok ())), .deleteIocq 1 (.ok ())] = some t ∧
        ¬MemoryKept t := by
  have hinit : (twoPairsInit identityOps).any (fun r => r.1 = .ok () ∧
      (run (servedStep identityOps 12) ⟨r.2, []⟩ [createFirst]).any (fun t =>
        (nvmeDiscardCq identityOps t.ctrl 1).any fun s => ¬MemoryKept ⟨s, t.live⟩) ∧
      (run (servedStep identityOps 12) ⟨r.2, []⟩
        [createFirst, .deleteIocq 1 (.error Errno.EIO)]).any fun t => ¬MemoryKept t) = true := by
    decide +kernel
  have hrefused : (twoPairsInit refusingPageOps).any (fun r => r.1 = .ok () ∧
      (run (servedStep refusingPageOps 12) ⟨r.2, []⟩
          [.create (.iocq 1 64 0 ⟨0, .ok 0xa7000⟩ (.ok ())),
            .create (.iocq 2 512 0 ⟨0, .ok 0xa6000⟩ (.ok ())), .deleteIocq 1 (.ok ())]).any
        fun t => ¬MemoryKept t) = true := by
    decide +kernel
  obtain ⟨⟨_, s⟩, hs, hfacts⟩ := (Option.any_eq_true _ _).mp hinit
  obtain ⟨⟨_, s'⟩, hs', hfacts'⟩ := (Option.any_eq_true _ _).mp hrefused
  obtain ⟨rfl, hmoment, hafter⟩ := of_decide_eq_true hfacts
  obtain ⟨rfl, hother⟩ := of_decide_eq_true hfacts'
  obtain ⟨t, ht, hdisc⟩ := (Option.any_eq_true _ _).mp hmoment
  obtain ⟨v, hv, hlost⟩ := (Option.any_eq_true _ _).mp hdisc
  obtain ⟨w, hw, hlost'⟩ := (Option.any_eq_true _ _).mp hafter
  obtain ⟨x, hx, hlost''⟩ := (Option.any_eq_true _ _).mp hother
  exact ⟨⟨s, hs, ⟨t, ⟨v, t.live⟩, ht, .discardedCq 1 (.ok ()) v hv, of_decide_eq_true hlost⟩,
    w, hw, of_decide_eq_true hlost'⟩, s', hs', x, hx, of_decide_eq_true hlost''⟩

end Ctrl

end Nvme

end Libvfn
