import Libvfn.Foundation.Ledger
import Libvfn.Iommu.Memory
import Libvfn.Nvme.Shadow
import Mathlib.Tactic.Abel

/-!
# The books of a controller

A controller takes memory for its queues, for the pages of their trackers and for the shadow
doorbells, and blocks of the heap for the trackers. Each of these is in a slot from which it is
given back. `Accounts` says that the memory that is mapped, and the blocks that are in use, are
those in the slots, and what is in the hands of a function at the moment. A function that gets a
buffer has it loose until it puts it into a slot, and one that discards a queue has its memory
loose until it gives it back; the exchange in the slot is the same both ways (`Accounts.setCq`,
`Accounts.setSq`).

So when `nvme_close` has emptied all slots, everything was given back, once. This needs that no
queue is configured over one that is there, and that no configuration of a queue breaks off for
lack of memory behind the point where the slot has been filled.
-/

namespace Libvfn

namespace Nvme

namespace Ctrl

open Word Support Iommu Ledger Runs

variable {σ : Type*}

/-! ## Slots -/

def memHolds (mem : Iommu.IommuDmabuf) (preallocated : Bool) : Multiset IovaMapping :=
  if preallocated then 0 else {mem.mapping 0}

def Cq.holds (q : Cq) : Multiset IovaMapping :=
  if q.mem.vaddr = 0 then 0 else memHolds q.mem q.preallocated

def Sq.holds (q : Sq) : Multiset IovaMapping :=
  if q.mem.vaddr = 0 then 0 else q.pages.mapping 0 ::ₘ memHolds q.mem q.preallocated

def Sq.trackers (q : Sq) : Multiset ℕ :=
  if q.mem.vaddr = 0 then 0 else q.rqs.elim 0 fun block => {block}

theorem Cq.holds_of_empty {q : Cq} (h : q.mem.vaddr = 0) : q.holds = 0 := if_pos h

theorem Sq.holds_of_empty {q : Sq} (h : q.mem.vaddr = 0) : q.holds = 0 := if_pos h

theorem Sq.trackers_of_empty {q : Sq} (h : q.mem.vaddr = 0) : q.trackers = 0 := if_pos h

def State.shadow (s : State σ) : Multiset IovaMapping :=
  if s.doorbells.vaddr = 0 then 0 else {s.doorbells.mapping 0, s.eventidxs.mapping 0}

/-- What is mapped and what is in use on the heap is in the slots, but for what is loose. -/
structure Accounts (loose : Multiset IovaMapping) (spare : Multiset ℕ) (s : State σ) : Prop where
  mapped : ∃ xs, Mapped s.ctx.map xs
  memory : s.ctx.memory = loose + (total Cq.holds (s.opts.ncqr + 2) s.cq +
    total Sq.holds (s.opts.nsqr + 2) s.sq + s.shadow)
  heap : (s.heap.live : Multiset ℕ) = spare + total Sq.trackers (s.opts.nsqr + 2) s.sq
  ncqa_le : s.ncqa ≤ s.opts.ncqr
  nsqa_le : s.nsqa ≤ s.opts.nsqr
  cq : ∀ qid, (s.cq qid).mem.vaddr ≠ 0 → qid < s.opts.ncqr + 2 ∧ (s.cq qid).mem.len ≠ 0
  sq : ∀ qid, (s.sq qid).mem.vaddr ≠ 0 →
    qid < s.opts.nsqr + 2 ∧ (s.sq qid).mem.len ≠ 0 ∧ (s.sq qid).pages.len ≠ 0
  dbbuf : s.doorbells.vaddr ≠ 0 → s.doorbells.len ≠ 0 ∧ s.eventidxs.len ≠ 0

section Books

variable {ops : IommuCtxOps σ} {s s' : State σ} {loose : Multiset IovaMapping} {spare : Multiset ℕ}
  {qid : ℕ} {ctx : IommuCtx σ}

theorem Accounts.take (h : Accounts loose spare s) {buffer : Iommu.IommuDmabuf} {flags : U64}
    (hobtains : Obtains s.ctx buffer flags ctx) :
    Accounts (buffer.mapping flags ::ₘ loose) spare { s with ctx := ctx } := by
  refine ⟨hobtains.mapped, ?_, h.heap, h.ncqa_le, h.nsqa_le, h.cq, h.sq, h.dbbuf⟩
  dsimp only
  rw [hobtains.memory, h.memory, Multiset.cons_add]
  rfl

theorem Accounts.release {m : IovaMapping} (h : Accounts (m ::ₘ loose) spare s)
    (hreleases : Releases s.ctx m ctx) : Accounts loose spare { s with ctx := ctx } := by
  refine ⟨hreleases.mapped, ?_, h.heap, h.ncqa_le, h.nsqa_le, h.cq, h.sq, h.dbbuf⟩
  have hmemory := h.memory
  rw [hreleases.memory, Multiset.cons_add, Multiset.cons_inj_right] at hmemory
  exact hmemory

theorem Accounts.znew (h : Accounts loose spare s) :
    Accounts loose (s.heap.znew.1 ::ₘ spare) { s with heap := s.heap.znew.2 } := by
  refine ⟨h.mapped, h.memory, ?_, h.ncqa_le, h.nsqa_le, h.cq, h.sq, h.dbbuf⟩
  rw [Multiset.cons_add, ← h.heap]
  rfl

theorem Accounts.of_map (h : Accounts loose spare s) (hmap : ctx.map = s.ctx.map) :
    Accounts loose spare { s with ctx := ctx } := by
  refine ⟨hmap ▸ h.mapped, ?_, h.heap, h.ncqa_le, h.nsqa_le, h.cq, h.sq, h.dbbuf⟩
  have hmemory : ctx.memory = s.ctx.memory := by rw [IommuCtx.memory, hmap, ← IommuCtx.memory]
  exact hmemory.trans h.memory

/-- The memory of the slot of a completion queue is exchanged. -/
theorem Accounts.setCq {new : Cq} (h : Accounts (new.holds + loose) spare s)
    (hqid : qid < s.opts.ncqr + 2) (hnew : new.mem.vaddr ≠ 0 → new.mem.len ≠ 0) :
    Accounts ((s.cq qid).holds + loose) spare (s.setCq qid new) := by
  refine ⟨h.mapped, ?_, h.heap, h.ncqa_le, h.nsqa_le, ?_, h.sq, h.dbbuf⟩
  · have hswap : (s.cq qid).holds + total Cq.holds (s.opts.ncqr + 2) (s.setCq qid new).cq =
        new.holds + total Cq.holds (s.opts.ncqr + 2) s.cq := total_update hqid s.cq new
    calc s.ctx.memory
        = (new.holds + total Cq.holds (s.opts.ncqr + 2) s.cq) + (loose +
            (total Sq.holds (s.opts.nsqr + 2) s.sq + s.shadow)) := by
          rw [h.memory]
          abel
      _ = (s.cq qid).holds + loose + (total Cq.holds (s.opts.ncqr + 2) (s.setCq qid new).cq +
            total Sq.holds (s.opts.nsqr + 2) s.sq + s.shadow) := by
          rw [← hswap]
          abel
  · exact (Function.forall_update_iff s.cq fun i q => q.mem.vaddr ≠ 0 →
      i < s.opts.ncqr + 2 ∧ q.mem.len ≠ 0).mpr ⟨fun hne => ⟨hqid, hnew hne⟩, fun i _ => h.cq i⟩

/-- The memory and the trackers of the slot of a submission queue are exchanged. -/
theorem Accounts.setSq {new : Sq} (h : Accounts (new.holds + loose) (new.trackers + spare) s)
    (hqid : qid < s.opts.nsqr + 2)
    (hnew : new.mem.vaddr ≠ 0 → new.mem.len ≠ 0 ∧ new.pages.len ≠ 0) :
    Accounts ((s.sq qid).holds + loose) ((s.sq qid).trackers + spare) (s.setSq qid new) := by
  refine ⟨h.mapped, ?_, ?_, h.ncqa_le, h.nsqa_le, h.cq, ?_, h.dbbuf⟩
  · have hswap : (s.sq qid).holds + total Sq.holds (s.opts.nsqr + 2) (s.setSq qid new).sq =
        new.holds + total Sq.holds (s.opts.nsqr + 2) s.sq := total_update hqid s.sq new
    calc s.ctx.memory
        = (new.holds + total Sq.holds (s.opts.nsqr + 2) s.sq) + (loose +
            (total Cq.holds (s.opts.ncqr + 2) s.cq + s.shadow)) := by
          rw [h.memory]
          abel
      _ = (s.sq qid).holds + loose + (total Cq.holds (s.opts.ncqr + 2) s.cq +
            total Sq.holds (s.opts.nsqr + 2) (s.setSq qid new).sq + s.shadow) := by
          rw [← hswap]
          abel
  · have hswap : (s.sq qid).trackers + total Sq.trackers (s.opts.nsqr + 2) (s.setSq qid new).sq =
        new.trackers + total Sq.trackers (s.opts.nsqr + 2) s.sq := total_update hqid s.sq new
    calc (s.heap.live : Multiset ℕ)
        = (new.trackers + total Sq.trackers (s.opts.nsqr + 2) s.sq) + spare := by
          rw [h.heap]
          abel
      _ = (s.sq qid).trackers + spare +
            total Sq.trackers (s.opts.nsqr + 2) (s.setSq qid new).sq := by
          rw [← hswap]
          abel
  · exact (Function.forall_update_iff s.sq fun i q => q.mem.vaddr ≠ 0 →
      i < s.opts.nsqr + 2 ∧ q.mem.len ≠ 0 ∧ q.pages.len ≠ 0).mpr
      ⟨fun hne => ⟨hqid, hnew hne⟩, fun i _ => h.sq i⟩

theorem Accounts.put (ops : IommuCtxOps σ) {buffer : Iommu.IommuDmabuf} {flags : U64}
    (h : Accounts (buffer.mapping flags ::ₘ loose) spare s) (hlen : buffer.len ≠ 0) :
    Returns (Releasing ops) (fun r => Accounts loose spare { s with ctx := r.2 })
      (Iommu.iommuPutDmabuf ops s.ctx buffer) := by
  have hmem : buffer.mapping flags ∈ s.ctx.memory := by
    rw [h.memory, Multiset.cons_add]
    exact Multiset.mem_cons_self _ _
  exact (returns_iommuPutDmabuf h.mapped hlen hmem).imp fun r hr => h.release hr.2

theorem Accounts.putMem (ops : IommuCtxOps σ) {mem : Iommu.IommuDmabuf} {preallocated : Bool}
    (h : Accounts (memHolds mem preallocated + loose) spare s) (hlen : mem.len ≠ 0) :
    Returns (Releasing ops) (fun ctx => Accounts loose spare { s with ctx := ctx })
      (Ctrl.putMem ops s.ctx mem preallocated) := by
  cases preallocated with
  | true =>
      rw [memHolds, if_pos rfl, zero_add] at h
      exact returns_some h
  | false =>
      rw [memHolds, if_neg Bool.false_ne_true, Multiset.singleton_add] at h
      rw [Ctrl.putMem, if_neg Bool.false_ne_true]
      exact (h.put ops hlen).map fun _ hr => hr

/-- A block that is counted is not free. -/
theorem Accounts.free {rqs : Option ℕ} {total : Prop}
    (h : Accounts loose ((rqs.elim 0 fun block => {block}) + spare) s) :
    Returns total (fun heap => Accounts loose spare { s with heap := heap }) (s.heap.free rqs) := by
  cases rqs with
  | none =>
      rw [Option.elim_none, zero_add] at h
      exact returns_some h
  | some block =>
      have hheap : (s.heap.live : Multiset ℕ) =
          block ::ₘ (spare + Ledger.total Sq.trackers (s.opts.nsqr + 2) s.sq) := by
        rw [h.heap, Option.elim_some, Multiset.singleton_add, Multiset.cons_add]
      have hmem : block ∈ s.heap.live := by
        rw [← Multiset.mem_coe, hheap]
        exact Multiset.mem_cons_self _ _
      rw [Heap.free, if_pos hmem]
      refine returns_some
        ⟨h.mapped, h.memory, ?_, h.ncqa_le, h.nsqa_le, h.cq, h.sq, h.dbbuf⟩
      dsimp only
      rw [← Multiset.coe_erase, hheap, Multiset.erase_cons_head]

end Books

/-! ## Discarding -/

section Discard

variable {ops : IommuCtxOps σ} {s s' : State σ} {loose : Multiset IovaMapping} {spare : Multiset ℕ}

theorem Accounts.discardCq (ops : IommuCtxOps σ) (h : Accounts loose spare s) (qid : ℕ) :
    Returns (Releasing ops) (Accounts loose spare) (nvmeDiscardCq ops s qid) := by
  simp only [nvmeDiscardCq]
  split_ifs with hmem
  · exact returns_some h
  · obtain ⟨hqid, hlen⟩ := h.cq qid hmem
    have hloose : Accounts (Cq.zeroed.holds + loose) spare s := by
      rwa [Cq.holds_of_empty rfl, zero_add]
    have hset := hloose.setCq hqid fun hne => absurd rfl hne
    rw [Cq.holds, if_neg hmem] at hset
    exact (hset.putMem ops hlen).map fun _ hdone => ⟨hdone.mapped, hdone.memory, hdone.heap,
      hdone.ncqa_le, hdone.nsqa_le, hdone.cq, hdone.sq, hdone.dbbuf⟩

/-- A submission queue is discarded, and its memory, its pages and its trackers are given
back. -/
theorem Accounts.discardSq (ops : IommuCtxOps σ) (h : Accounts loose spare s) (qid : ℕ) :
    Returns (Releasing ops) (Accounts loose spare) (nvmeDiscardSq ops s qid) := by
  simp only [nvmeDiscardSq]
  split_ifs with hmem
  · exact returns_some h
  · obtain ⟨hqid, hlen, hpages⟩ := h.sq qid hmem
    have hloose : Accounts (Sq.zeroed.holds + loose) (Sq.zeroed.trackers + spare) s := by
      rwa [Sq.holds_of_empty rfl, Sq.trackers_of_empty rfl, zero_add, zero_add]
    have hset := hloose.setSq hqid fun hne => absurd rfl hne
    rw [Sq.holds, Sq.trackers, if_neg hmem, if_neg hmem, Multiset.cons_add,
      ← Multiset.add_cons] at hset
    refine (hset.putMem ops hlen).bind fun ctx hset => ?_
    refine hset.free.bind fun heap hset => ?_
    exact (hset.put ops hpages).map fun _ hdone => ⟨hdone.mapped, hdone.memory, hdone.heap,
      hdone.ncqa_le, hdone.nsqa_le, hdone.cq, hdone.sq, hdone.dbbuf⟩

end Discard

/-! ## Configuring -/

section Configure

variable {ops : IommuCtxOps σ} {pageshift qid cq : ℕ} {s s' : State σ} {qsize vector : ℤ}
  {res : Except Errno Unit} {loose : Multiset IovaMapping} {spare : Multiset ℕ}
  {rest : List (U64 × Except Errno U64)}

def CqSupplied (ops : IommuCtxOps σ) (pageshift : ℕ) (s : State σ) (qsize : ℤ) (a : CqAnswers) :
    Prop :=
  (Iommu.iommuGetDmabuf ops (vfnPagesize pageshift) s.ctx .zeroed (shiftedSize qsize 4) 0
    a.mem).1 = .ok ()

def SqSupplied (ops : IommuCtxOps σ) (pageshift : ℕ) (s : State σ) (qsize : ℤ) (a : SqAnswers) :
    Prop :=
  ∀ pages ctx, Iommu.iommuGetDmabuf ops (vfnPagesize pageshift) s.ctx .zeroed
    (pagesSize qsize s.mps) 0 a.pages = (.ok (), pages, ctx) →
      (Iommu.iommuGetDmabuf ops (vfnPagesize pageshift) ctx .zeroed (shiftedSize qsize 6) 0
        a.mem).1 = .ok ()

theorem qid_lt_of_configureCheck {max : ℕ} {cap : U64}
    (h : configureCheck max qid qsize cap = .ok ()) : qid < max + 2 := by
  rw [configureCheck] at h
  split_ifs at h with hcap hqid hsize
  omega

/-- A completion queue that is configured in a free slot has its memory in the slot. -/
theorem Accounts.configureCq (h : Accounts loose spare s) (hfree : (s.cq qid).mem.vaddr = 0)
    {a : CqAnswers} (hfresh : Fresh s.ctx.map (blocks (vfnPagesize pageshift)
      ((shiftedSize qsize 4, a.mem) :: rest)))
    (hsupplied : configureCheck s.ncqa qid qsize a.cap = .ok () →
      CqSupplied ops pageshift s qsize a)
    (hcfg : nvmeConfigureCq ops pageshift s qid qsize vector a = (res, s')) :
    Accounts loose spare s' ∧ Fresh s'.ctx.map (blocks (vfnPagesize pageshift) rest) ∧
      s'.sq = s.sq ∧ s'.mps = s.mps ∧ s'.doorbells = s.doorbells := by
  have hconfigures := nvmeConfigureCq_configures ops pageshift s qid qsize vector a
  rw [hcfg] at hconfigures
  cases hconfigures with
  | refused e => exact ⟨h, hfresh.skip, rfl, rfl, rfl⟩
  | tried _ mem ctx hcheck hmem =>
      obtain ⟨hrest, hgot⟩ := hfresh.get h.mapped hmem
      have hok : res = .ok () := by
        have hsupplied := hsupplied hcheck
        rwa [CqSupplied, hmem] at hsupplied
      rcases hgot with ⟨-, hobtains⟩ | ⟨⟨e, he⟩, -⟩
      · have hqid : qid < s.opts.ncqr + 2 :=
          (qid_lt_of_configureCheck hcheck).trans_le (Nat.add_le_add_right h.ncqa_le 2)
        have hholds : Cq.holds { s.newCq qid qsize vector a.cap with mem := mem } =
            {mem.mapping 0} :=
          if_neg hobtains.vaddr_ne
        have htaken := h.take hobtains
        rw [← Multiset.singleton_add, ← hholds] at htaken
        have hset := htaken.setCq hqid fun _ => hobtains.len_ne
        rw [Cq.holds_of_empty hfree, zero_add] at hset
        exact ⟨hset, hrest, rfl, rfl, rfl⟩
      · rw [hok] at he
        cases he

/-- With the memory that it needs, `nvme_configure_sq` returns. -/
theorem exists_nvmeConfigureSq {a : SqAnswers} (hsupplied : SqSupplied ops pageshift s qsize a) :
    ∃ r, nvmeConfigureSq ops pageshift s qid qsize cq a = some r := by
  rw [nvmeConfigureSq, nvmeConfigureSqPages]
  rcases hcheck : configureCheck s.nsqa qid qsize a.cap with e | u
  · exact ⟨_, rfl⟩
  · dsimp only
    rcases hpages : Iommu.iommuGetDmabuf ops (vfnPagesize pageshift) s.ctx .zeroed
      (pagesSize qsize s.mps) 0 a.pages with ⟨e | u, pages, ctx⟩
    · rw [State.newSq, hpages]
      exact ⟨_, rfl⟩
    · have hok := hsupplied pages ctx hpages
      rw [State.newSq, hpages]
      dsimp only
      rw [State.setSq_sq_self]
      dsimp only
      rcases hmem : Iommu.iommuGetDmabuf ops (vfnPagesize pageshift) ctx .zeroed
        (shiftedSize qsize 6) 0 a.mem with ⟨e | u, mem, ctx'⟩
      · rw [hmem] at hok
        cases hok
      · exact ⟨_, rfl⟩

/-- A submission queue is put in a free slot, with what it holds. -/
theorem Accounts.fillSq {new : Sq} {cap : U64}
    (h : Accounts (new.holds + loose) (new.trackers + spare) s)
    (hfree : (s.sq qid).mem.vaddr = 0) (hcheck : configureCheck s.nsqa qid qsize cap = .ok ())
    (hnew : new.mem.vaddr ≠ 0 → new.mem.len ≠ 0 ∧ new.pages.len ≠ 0) :
    Accounts loose spare (s.setSq qid new) := by
  have hqid := (qid_lt_of_configureCheck hcheck).trans_le (Nat.add_le_add_right h.nsqa_le 2)
  have hset := h.setSq hqid hnew
  rwa [Sq.holds_of_empty hfree, Sq.trackers_of_empty hfree, zero_add, zero_add] at hset

/-- A submission queue that is configured in a free slot has its memory, its pages and its
trackers in the slot. -/
theorem Accounts.configureSq (h : Accounts loose spare s) (hfree : (s.sq qid).mem.vaddr = 0)
    {a : SqAnswers} (hfresh : Fresh s.ctx.map (blocks (vfnPagesize pageshift)
      ((pagesSize qsize s.mps, a.pages) :: (shiftedSize qsize 6, a.mem) :: rest)))
    (hsupplied : SqSupplied ops pageshift s qsize a)
    (hcfg : nvmeConfigureSq ops pageshift s qid qsize cq a = some (res, s')) :
    Accounts loose spare s' ∧ Fresh s'.ctx.map (blocks (vfnPagesize pageshift) rest) ∧
      s'.doorbells = s.doorbells := by
  cases nvmeConfigureSq_configures hcfg with
  | refused e => exact ⟨h, hfresh.skip.skip, rfl⟩
  | noPages e pages ctx hcheck hpages =>
      obtain ⟨hrest, ⟨hok, -⟩ | ⟨-, hmap⟩⟩ := hfresh.get h.mapped hpages
      · cases hok
      · -- without memory for the entries the slot counts as empty, whatever the pages are
        have hloose : Accounts
            (Sq.holds { s.newSq qid qsize cq a.cap with pages := pages } + loose)
            (Sq.trackers { s.newSq qid qsize cq a.cap with pages := pages } + spare)
            { s with ctx := ctx } := by
          rw [Sq.holds_of_empty rfl, Sq.trackers_of_empty rfl, zero_add, zero_add]
          exact h.of_map hmap
        exact ⟨hloose.fillSq hfree hcheck fun hne => absurd rfl hne, hrest.skip, rfl⟩
  | noMem e pages mem pages' ctx ctx' ctx'' heap hcheck hpages hmem =>
      have hok := hsupplied pages ctx hpages
      rw [hmem] at hok
      cases hok
  | configured pages mem ctx ctx' hcheck hpages hmem =>
      obtain ⟨hrest, ⟨-, hobtains⟩ | ⟨⟨e, he⟩, -⟩⟩ := hfresh.get h.mapped hpages
      · obtain ⟨hrest', ⟨-, hobtains'⟩ | ⟨⟨e, he⟩, -⟩⟩ := hrest.get hobtains.mapped hmem
        · have htaken := ((h.take hobtains).take hobtains').znew
          have hholds : Sq.holds { s.newSq qid qsize cq a.cap with
              pages := pages, rqs := some s.heap.znew.1, mem := mem } =
                pages.mapping 0 ::ₘ {mem.mapping 0} := if_neg hobtains'.vaddr_ne
          have htrackers : Sq.trackers { s.newSq qid qsize cq a.cap with
              pages := pages, rqs := some s.heap.znew.1, mem := mem } = {s.heap.znew.1} :=
            if_neg hobtains'.vaddr_ne
          rw [Multiset.cons_swap, ← Multiset.singleton_add (mem.mapping 0),
            ← Multiset.cons_add,
            ← hholds, ← Multiset.singleton_add s.heap.znew.1, ← htrackers] at htaken
          have hfilled := htaken.fillSq hfree hcheck fun _ => ⟨hobtains'.len_ne, hobtains.len_ne⟩
          exact ⟨hfilled, hrest', rfl⟩
        · cases he
      · cases he

end Configure

/-! ## Creating and deleting -/

def CreateCall.SlotsFree (s : State σ) : CreateCall → Prop
  | .iocq qid .. => (s.cq qid).mem.vaddr = 0
  | .iosq qid .. => (s.sq qid).mem.vaddr = 0
  | .ioqpair qid .. => (s.cq qid).mem.vaddr = 0 ∧ (s.sq qid).mem.vaddr = 0

def CreateCall.requests (s : State σ) : CreateCall → List (U64 × Except Errno U64)
  | .iocq _ qsize _ a _ => [(shiftedSize qsize 4, a.mem)]
  | .iosq _ qsize _ a _ => [(pagesSize qsize s.mps, a.pages), (shiftedSize qsize 6, a.mem)]
  | .ioqpair _ qsize _ acq _ asq _ =>
      [(shiftedSize qsize 4, acq.mem), (pagesSize qsize s.mps, asq.pages),
        (shiftedSize qsize 6, asq.mem)]

/-- The call does not break off for lack of memory for the entries. -/
def CreateCall.Supplied (ops : IommuCtxOps σ) (pageshift : ℕ) (s : State σ) : CreateCall → Prop
  | .iocq qid qsize _ a _ =>
      configureCheck s.ncqa qid qsize a.cap = .ok () → CqSupplied ops pageshift s qsize a
  | .iosq _ qsize _ a _ => SqSupplied ops pageshift s qsize a
  | .ioqpair qid qsize vector acq createCq asq _ =>
      (configureCheck s.ncqa qid qsize acq.cap = .ok () → CqSupplied ops pageshift s qsize acq) ∧
        ∀ t, nvmeCreateIocq ops pageshift s qid qsize vector acq createCq = (.ok (), t) →
          SqSupplied ops pageshift t qsize asq

/-- A call that fills free slots, is given fresh memory and does not run out of it. -/
structure CreateCall.Orderly (ops : IommuCtxOps σ) (pageshift : ℕ) (s : State σ)
    (call : CreateCall) : Prop where
  free : call.SlotsFree s
  fresh : Fresh s.ctx.map (blocks (vfnPagesize pageshift) (call.requests s))
  supplied : call.Supplied ops pageshift s

/-- A call on queues that is in order. Queues may be deleted in any order, and more than once. -/
def LifeCall.Orderly (ops : IommuCtxOps σ) (pageshift : ℕ) (s : State σ) : LifeCall → Prop
  | .create call => call.Orderly ops pageshift s
  | .deleteIocq .. => True
  | .deleteIosq .. => True
  | .deleteIoqpair .. => True
  | .init .. => False
  | .close => False

section Calls

variable {ops : IommuCtxOps σ} {pageshift qid cq : ℕ} {s s' : State σ} {qsize vector : ℤ}
  {res : Except Errno Unit} {loose : Multiset IovaMapping} {spare : Multiset ℕ}
  {rest : List (U64 × Except Errno U64)}

theorem Accounts.createIocq (h : Accounts loose spare s) (hfree : (s.cq qid).mem.vaddr = 0)
    {a : CqAnswers} {admin : Except Errno Unit}
    (hfresh : Fresh s.ctx.map (blocks (vfnPagesize pageshift)
      ((shiftedSize qsize 4, a.mem) :: rest)))
    (hsupplied : configureCheck s.ncqa qid qsize a.cap = .ok () →
      CqSupplied ops pageshift s qsize a)
    (hcreate : nvmeCreateIocq ops pageshift s qid qsize vector a admin = (res, s')) :
    Accounts loose spare s' ∧ Fresh s'.ctx.map (blocks (vfnPagesize pageshift) rest) ∧
      s'.sq = s.sq ∧ s'.mps = s.mps := by
  rw [nvmeCreateIocq] at hcreate
  rcases hcfg : nvmeConfigureCq ops pageshift s qid qsize vector a with ⟨e | u, t⟩
  · obtain ⟨ht, hrest, hsq, hmps, -⟩ := h.configureCq hfree hfresh hsupplied hcfg
    rw [hcfg] at hcreate
    obtain ⟨-, rfl⟩ := Prod.mk.inj hcreate
    exact ⟨ht, hrest, hsq, hmps⟩
  · obtain ⟨ht, hrest, hsq, hmps, -⟩ := h.configureCq hfree hfresh hsupplied hcfg
    rw [hcfg] at hcreate
    cases admin with
    | error e =>
        obtain ⟨-, rfl⟩ := Prod.mk.inj hcreate
        exact ⟨ht, hrest, hsq, hmps⟩
    | ok u =>
        obtain ⟨-, rfl⟩ := Prod.mk.inj hcreate
        exact ⟨⟨ht.mapped, ht.memory, ht.heap, ht.ncqa_le, ht.nsqa_le, ht.cq, ht.sq, ht.dbbuf⟩,
          hrest, hsq, hmps⟩

theorem Accounts.createIosq (h : Accounts loose spare s) (hfree : (s.sq qid).mem.vaddr = 0)
    {a : SqAnswers} (admin : Except Errno Unit)
    (hfresh : Fresh s.ctx.map (blocks (vfnPagesize pageshift)
      ((pagesSize qsize s.mps, a.pages) :: (shiftedSize qsize 6, a.mem) :: rest)))
    (hsupplied : SqSupplied ops pageshift s qsize a) {total : Prop} :
    Returns total (fun r => Accounts loose spare r.2)
      (nvmeCreateIosq ops pageshift s qid qsize cq a admin) := by
  have hcfg : Returns total (fun r => Accounts loose spare r.2)
      (nvmeConfigureSq ops pageshift s qid qsize cq a) :=
    ⟨fun _ => exists_nvmeConfigureSq hsupplied,
      fun r hr => (h.configureSq hfree hfresh hsupplied hr).1⟩
  refine hcfg.map ?_
  rintro ⟨e | u, t⟩ ht
  · exact ht
  · cases admin with
    | error e => exact ht
    | ok u =>
        exact ⟨ht.mapped, ht.memory, ht.heap, ht.ncqa_le, ht.nsqa_le, ht.cq, ht.sq, ht.dbbuf⟩

/-- An orderly creation returns, and the books are right whether it has failed or not. -/
theorem Accounts.create (h : Accounts loose spare s) {call : CreateCall}
    (horderly : call.Orderly ops pageshift s) {total : Prop} :
    Returns total (fun r => Accounts loose spare r.2) (call.run ops pageshift s) := by
  obtain ⟨hfree, hfresh, hsupplied⟩ := horderly
  cases call with
  | iocq qid qsize vector a admin =>
      exact returns_some (h.createIocq hfree hfresh hsupplied rfl).1
  | iosq qid qsize cq a admin => exact h.createIosq hfree admin hfresh hsupplied
  | ioqpair qid qsize vector acq createCq asq createSq =>
      rw [CreateCall.run, nvmeCreateIoqpair]
      rcases hcreate : nvmeCreateIocq ops pageshift s qid qsize vector acq createCq with ⟨e | u, t⟩
      · exact returns_some (h.createIocq hfree.1 hfresh hsupplied.1 hcreate).1
      · obtain ⟨ht, hrest, hsq, hmps⟩ := h.createIocq hfree.1 hfresh hsupplied.1 hcreate
        rw [← hmps] at hrest
        exact ht.createIosq (hsq ▸ hfree.2) createSq hrest (hsupplied.2 t hcreate)

theorem Accounts.deleteIocq (ops : IommuCtxOps σ) (h : Accounts loose spare s) (qid : ℕ)
    (admin : Except Errno Unit) :
    Returns (Releasing ops) (fun r => Accounts loose spare r.2)
      (nvmeDeleteIocq ops s qid admin) := by
  refine (h.discardCq ops qid).map fun t ht => ?_
  cases admin with
  | error e => exact ht
  | ok u => exact ⟨ht.mapped, ht.memory, ht.heap, ht.ncqa_le, ht.nsqa_le, ht.cq, ht.sq, ht.dbbuf⟩

theorem Accounts.deleteIosq (ops : IommuCtxOps σ) (h : Accounts loose spare s) (qid : ℕ)
    (admin : Except Errno Unit) :
    Returns (Releasing ops) (fun r => Accounts loose spare r.2)
      (nvmeDeleteIosq ops s qid admin) := by
  refine (h.discardSq ops qid).map fun t ht => ?_
  cases admin with
  | error e => exact ht
  | ok u => exact ⟨ht.mapped, ht.memory, ht.heap, ht.ncqa_le, ht.nsqa_le, ht.cq, ht.sq, ht.dbbuf⟩

theorem Accounts.deleteIoqpair (ops : IommuCtxOps σ) (h : Accounts loose spare s) (qid : ℕ)
    (deleteSq deleteCq : Except Errno Unit) :
    Returns (Releasing ops) (fun r => Accounts loose spare r.2)
      (nvmeDeleteIoqpair ops s qid deleteSq deleteCq) := by
  refine (h.deleteIosq ops qid deleteSq).bind ?_
  rintro ⟨e | u, t⟩ ht
  · exact returns_some ht
  · exact Accounts.deleteIocq ops ht qid deleteCq

theorem Accounts.step (h : Accounts loose spare s) {call : LifeCall}
    (horderly : call.Orderly ops pageshift s) :
    Returns (Releasing ops) (Accounts loose spare) (lifeStep ops pageshift s call) := by
  cases call with
  | init opts a => exact horderly.elim
  | create call => exact (h.create horderly).map fun _ hr => hr
  | deleteIocq qid admin => exact (h.deleteIocq ops qid admin).map fun _ hr => hr
  | deleteIosq qid admin => exact (h.deleteIosq ops qid admin).map fun _ hr => hr
  | deleteIoqpair qid deleteSq deleteCq =>
      exact (h.deleteIoqpair ops qid deleteSq deleteCq).map fun _ hr => hr
  | close => exact horderly.elim

end Calls

end Ctrl

end Nvme

end Libvfn
