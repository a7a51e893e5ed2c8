import Libvfn.Nvme.Accounts
import Libvfn.Nvme.Slots

/-!
# The memory of the queues on the controller

The memory of a queue is mapped before the command that creates the queue on the controller, and
it should stay mapped until the queue is deleted there. Beside the state of the controller we keep
a list of the queues that exist there, with the memory that their create commands were given
(`Served`), and look at it whenever a command is under way and whenever a call returns (`Passes`).

What a delete function unmaps is what the addresses in its slot lie in, whosoever that is. So the
memory of the queues is kept exactly if no delete function finds an address in its slot that lies
in the memory of a queue on the controller (`Kept.step_iff`).
-/

namespace Libvfn

namespace Nvme

namespace Ctrl

open Word Support Iommu Ledger Runs

variable {σ : Type*}

/-! ## Queues on the controller -/

/-- A queue on the controller: its slot, and the memory that its create command was given. -/
structure LiveQueue where
  type : QueueType
  qid : ℕ
  mem : Iommu.IommuDmabuf

/-- A controller, and the queues whose create command succeeded without a delete command that
succeeded since. -/
structure Served (σ : Type*) where
  ctrl : State σ
  live : List LiveQueue

def State.slotMem (s : State σ) : QueueType → ℕ → Iommu.IommuDmabuf
  | .cq, qid => (s.cq qid).mem
  | .sq, qid => (s.sq qid).mem

def LiveQueue.named (q : LiveQueue) (type : QueueType) (qid : ℕ) : Bool :=
  q.type = type ∧ BitVec.ofNat 16 q.qid = BitVec.ofNat 16 qid

def Served.created (t : Served σ) (type : QueueType) (qid : ℕ) :
    Except Errno Unit × State σ → Except Errno Unit × Served σ
  | (.error e, s) => (.error e, ⟨s, t.live⟩)
  | (.ok _, s) => (.ok (), ⟨s, ⟨type, qid, s.slotMem type qid⟩ :: t.live⟩)

def Served.deleted (t : Served σ) (type : QueueType) (qid : ℕ) :
    Except Errno Unit × State σ → Except Errno Unit × Served σ
  | (.error e, s) => (.error e, ⟨s, t.live⟩)
  | (.ok _, s) => (.ok (), ⟨s, t.live.filter fun q => !q.named type qid⟩)

def Served.createIocq (ops : IommuCtxOps σ) (pageshift : ℕ) (t : Served σ) (qid : ℕ)
    (qsize vector : ℤ) (a : CqAnswers) (admin : Except Errno Unit) :
    Except Errno Unit × Served σ :=
  t.created .cq qid (nvmeCreateIocq ops pageshift t.ctrl qid qsize vector a admin)

def Served.createIosq (ops : IommuCtxOps σ) (pageshift : ℕ) (t : Served σ) (qid : ℕ) (qsize : ℤ)
    (cq : ℕ) (a : SqAnswers) (admin : Except Errno Unit) :
    Option (Except Errno Unit × Served σ) :=
  (nvmeCreateIosq ops pageshift t.ctrl qid qsize cq a admin).map (t.created .sq qid)

def Served.delete (ops : IommuCtxOps σ) (t : Served σ) (type : QueueType) (qid : ℕ)
    (admin : Except Errno Unit) : Option (Except Errno Unit × Served σ) :=
  match type with
  | .cq => (nvmeDeleteIocq ops t.ctrl qid admin).map (t.deleted .cq qid)
  | .sq => (nvmeDeleteIosq ops t.ctrl qid admin).map (t.deleted .sq qid)

/-- A call in the life of a controller. The functions for a pair are the two functions for a
queue. -/
def servedStep (ops : IommuCtxOps σ) (pageshift : ℕ) (t : Served σ) :
    LifeCall → Option (Served σ)
  | .create (.iocq qid qsize vector a admin) =>
      some (t.createIocq ops pageshift qid qsize vector a admin).2
  | .create (.iosq qid qsize cq a admin) =>
      (t.createIosq ops pageshift qid qsize cq a admin).map Prod.snd
  | .create (.ioqpair qid qsize vector acq createCq asq createSq) =>
      match t.createIocq ops pageshift qid qsize vector acq createCq with
      | (.error _, u) => some u
      | (.ok _, u) => (u.createIosq ops pageshift qid qsize qid asq createSq).map Prod.snd
  | .deleteIocq qid admin => (t.delete ops .cq qid admin).map Prod.snd
  | .deleteIosq qid admin => (t.delete ops .sq qid admin).map Prod.snd
  | .deleteIoqpair qid deleteSq deleteCq =>
      (t.delete ops .sq qid deleteSq).bind fun
        | (.error _, u) => some u
        | (.ok _, u) => (u.delete ops .cq qid deleteCq).map Prod.snd
  | .init opts a => (lifeStep ops pageshift t.ctrl (.init opts a)).map fun s => ⟨s, t.live⟩
  | .close => (lifeStep ops pageshift t.ctrl .close).map fun s => ⟨s, t.live⟩

@[simp]
theorem created_fst (t : Served σ) (type : QueueType) (qid : ℕ)
    (r : Except Errno Unit × State σ) : (t.created type qid r).1 = r.1 := by
  obtain ⟨e | u, s⟩ := r <;> rfl

@[simp]
theorem created_ctrl (t : Served σ) (type : QueueType) (qid : ℕ)
    (r : Except Errno Unit × State σ) : (t.created type qid r).2.ctrl = r.2 := by
  obtain ⟨e | u, s⟩ := r <;> rfl

@[simp]
theorem deleted_ctrl (t : Served σ) (type : QueueType) (qid : ℕ)
    (r : Except Errno Unit × State σ) : (t.deleted type qid r).2.ctrl = r.2 := by
  obtain ⟨e | u, s⟩ := r <;> rfl

theorem map_snd_ctrl {f : Except Errno Unit × State σ → Except Errno Unit × Served σ}
    (hf : ∀ r, (f r).2.ctrl = r.2) (r : Option (Except Errno Unit × State σ)) :
    ((r.map f).map Prod.snd).map Served.ctrl = r.map Prod.snd := by
  rw [Option.map_map, Option.map_map]
  exact Option.map_congr fun r _ => hf r

/-- The list is kept beside the life of the controller and does not change it. -/
theorem servedStep_ctrl (ops : IommuCtxOps σ) (pageshift : ℕ) (t : Served σ) (call : LifeCall) :
    (servedStep ops pageshift t call).map Served.ctrl = lifeStep ops pageshift t.ctrl call := by
  cases call with
  | init opts a =>
      rw [servedStep, Option.map_map]
      exact Option.map_id_apply
  | close =>
      rw [servedStep, Option.map_map]
      exact Option.map_id_apply
  | deleteIocq qid admin => exact map_snd_ctrl (deleted_ctrl t .cq qid) _
  | deleteIosq qid admin => exact map_snd_ctrl (deleted_ctrl t .sq qid) _
  | deleteIoqpair qid deleteSq deleteCq =>
      rw [servedStep, lifeStep, nvmeDeleteIoqpair, Served.delete]
      rcases nvmeDeleteIosq ops t.ctrl qid deleteSq with _ | ⟨e | u, s⟩
      · rfl
      · rfl
      · exact map_snd_ctrl (deleted_ctrl ⟨s, t.live.filter fun q => !q.named .sq qid⟩ .cq qid) _
  | create call =>
      cases call with
      | iocq qid qsize vector a admin => exact congrArg some (created_ctrl t .cq qid _)
      | iosq qid qsize cq a admin => exact map_snd_ctrl (created_ctrl t .sq qid) _
      | ioqpair qid qsize vector acq createCq asq createSq =>
          rw [servedStep, lifeStep, CreateCall.run, nvmeCreateIoqpair, Served.createIocq]
          rcases nvmeCreateIocq ops pageshift t.ctrl qid qsize vector acq createCq with ⟨e | u, s⟩
          · rfl
          · exact map_snd_ctrl
              (created_ctrl ⟨s, ⟨.cq, qid, s.slotMem .cq qid⟩ :: t.live⟩ .sq qid) _

/-- The memory of every queue on the controller is mapped. -/
def MemoryKept (t : Served σ) : Prop :=
  ∀ q ∈ t.live, q.mem.mapping 0 ∈ t.ctrl.ctx.map.held

/-- The states in which a call has an admin command under way, and the one in which it
returns. -/
inductive Passes (ops : IommuCtxOps σ) (pageshift : ℕ) (t : Served σ) :
    LifeCall → Served σ → Prop
  | configuredCq (qid : ℕ) (qsize vector : ℤ) (a : CqAnswers) (admin : Except Errno Unit)
      (s : State σ) (hcfg : nvmeConfigureCq ops pageshift t.ctrl qid qsize vector a = (.ok (), s)) :
      Passes ops pageshift t (.create (.iocq qid qsize vector a admin)) ⟨s, t.live⟩
  | configuredSq (qid : ℕ) (qsize : ℤ) (cq : ℕ) (a : SqAnswers) (admin : Except Errno Unit)
      (s : State σ)
      (hcfg : nvmeConfigureSq ops pageshift t.ctrl qid qsize cq a = some (.ok (), s)) :
      Passes ops pageshift t (.create (.iosq qid qsize cq a admin)) ⟨s, t.live⟩
  | pairConfiguredCq (qid : ℕ) (qsize vector : ℤ) (acq : CqAnswers) (createCq : Except Errno Unit)
      (asq : SqAnswers) (createSq : Except Errno Unit) (s : State σ)
      (hcfg : nvmeConfigureCq ops pageshift t.ctrl qid qsize vector acq = (.ok (), s)) :
      Passes ops pageshift t (.create (.ioqpair qid qsize vector acq createCq asq createSq))
        ⟨s, t.live⟩
  | pairConfiguredSq (qid : ℕ) (qsize vector : ℤ) (acq : CqAnswers) (createCq : Except Errno Unit)
      (asq : SqAnswers) (createSq : Except Errno Unit) (u : Served σ) (s : State σ)
      (hcreate : t.createIocq ops pageshift qid qsize vector acq createCq = (.ok (), u))
      (hcfg : nvmeConfigureSq ops pageshift u.ctrl qid qsize qid asq = some (.ok (), s)) :
      Passes ops pageshift t (.create (.ioqpair qid qsize vector acq createCq asq createSq))
        ⟨s, u.live⟩
  | discardedCq (qid : ℕ) (admin : Except Errno Unit) (s : State σ)
      (hdisc : nvmeDiscardCq ops t.ctrl qid = some s) :
      Passes ops pageshift t (.deleteIocq qid admin) ⟨s, t.live⟩
  | discardedSq (qid : ℕ) (admin : Except Errno Unit) (s : State σ)
      (hdisc : nvmeDiscardSq ops t.ctrl qid = some s) :
      Passes ops pageshift t (.deleteIosq qid admin) ⟨s, t.live⟩
  | pairDiscardedSq (qid : ℕ) (deleteSq deleteCq : Except Errno Unit) (s : State σ)
      (hdisc : nvmeDiscardSq ops t.ctrl qid = some s) :
      Passes ops pageshift t (.deleteIoqpair qid deleteSq deleteCq) ⟨s, t.live⟩
  | pairDiscardedCq (qid : ℕ) (deleteSq deleteCq : Except Errno Unit) (u : Served σ) (s : State σ)
      (hdelete : t.delete ops .sq qid deleteSq = some (.ok (), u))
      (hdisc : nvmeDiscardCq ops u.ctrl qid = some s) :
      Passes ops pageshift t (.deleteIoqpair qid deleteSq deleteCq) ⟨s, u.live⟩
  | returned (call : LifeCall) (u : Served σ) (hstep : servedStep ops pageshift t call = some u) :
      Passes ops pageshift t call u

/-- The memory of the queues is there as long as the call takes. -/
def KeepsMemory (ops : IommuCtxOps σ) (pageshift : ℕ) (t : Served σ) (call : LifeCall) : Prop :=
  ∀ u, Passes ops pageshift t call u → MemoryKept u

/-! ## What is unmapped, and when -/

def State.discard (ops : IommuCtxOps σ) (s : State σ) : QueueType → ℕ → Option (State σ)
  | .cq, qid => nvmeDiscardCq ops s qid
  | .sq, qid => nvmeDiscardSq ops s qid

/-- The buffers that are put when the queue in a slot is discarded. -/
def State.gives (s : State σ) : QueueType → ℕ → List Iommu.IommuDmabuf
  | .cq, qid =>
      if (s.cq qid).mem.vaddr = 0 then []
      else if (s.cq qid).preallocated then [] else [(s.cq qid).mem]
  | .sq, qid =>
      if (s.sq qid).mem.vaddr = 0 then []
      else if (s.sq qid).preallocated then [(s.sq qid).pages]
      else [(s.sq qid).mem, (s.sq qid).pages]

/-- No buffer in the slot begins in the memory of a queue on the controller. -/
def Served.Spares (t : Served σ) (type : QueueType) (qid : ℕ) : Prop :=
  ∀ q ∈ t.live, ∀ b ∈ t.ctrl.gives type qid, ¬b.BeginsIn (q.mem.mapping 0)

/-- Unless it ends the process, a delete function finds nothing in its slot that begins in the
memory of a queue on the controller. -/
def LifeCall.Spares (ops : IommuCtxOps σ) (t : Served σ) : LifeCall → Prop
  | .deleteIocq qid _ => (t.ctrl.discard ops .cq qid).isSome → t.Spares .cq qid
  | .deleteIosq qid _ => (t.ctrl.discard ops .sq qid).isSome → t.Spares .sq qid
  | .deleteIoqpair qid deleteSq _ =>
      ((t.ctrl.discard ops .sq qid).isSome → t.Spares .sq qid) ∧
        ∀ u, t.delete ops .sq qid deleteSq = some (.ok (), u) →
          (u.ctrl.discard ops .cq qid).isSome → u.Spares .cq qid
  | _ => True

/-- A call for I/O queues, to which `mmap` gives fresh memory. -/
def LifeCall.Given (pageshift : ℕ) (t : Served σ) : LifeCall → Prop
  | .create call =>
      Fresh t.ctrl.ctx.map (blocks (vfnPagesize pageshift) (call.requests t.ctrl))
  | .deleteIocq .. => True
  | .deleteIosq .. => True
  | .deleteIoqpair .. => True
  | .init .. => False
  | .close => False

structure Kept (t : Served σ) : Prop where
  mapped : ∃ xs, Mapped t.ctrl.ctx.map xs
  memory : MemoryKept t

section Discard

variable {ops : IommuCtxOps σ} {s s' : State σ} {t u : Served σ} {type : QueueType} {qid : ℕ}
  {res admin : Except Errno Unit}

theorem mem_held_of_putMem {ctx ctx' : IommuCtx σ} {mem : Iommu.IommuDmabuf}
    {preallocated : Bool} (h : ∃ xs, Mapped ctx.map xs)
    (hput : putMem ops ctx mem preallocated = some ctx') :
    (∃ xs, Mapped ctx'.map xs) ∧ ∀ m, m ∈ ctx'.map.held ↔
      m ∈ ctx.map.held ∧ (preallocated = false → ¬mem.BeginsIn m) := by
  cases preallocated with
  | true =>
      obtain rfl := Option.some.inj hput
      exact ⟨h, fun m => (and_iff_left nofun).symm⟩
  | false =>
      obtain ⟨⟨buffer, ctx''⟩, hbuffer, rfl⟩ := Option.map_eq_some_iff.mp hput
      obtain ⟨h', hheld⟩ := mem_held_of_iommuPutDmabuf h hbuffer
      refine ⟨h', fun m => (hheld m).trans (and_congr_right fun _ => ?_)⟩
      exact ⟨fun hno _ => hno, fun hno => hno rfl⟩

/-- Discarding a queue takes the mappings with it that its buffers begin in. -/
theorem mem_held_of_discard (h : ∃ xs, Mapped s.ctx.map xs)
    (hdisc : s.discard ops type qid = some s') :
    (∃ xs, Mapped s'.ctx.map xs) ∧ ∀ m, m ∈ s'.ctx.map.held ↔
      m ∈ s.ctx.map.held ∧ ∀ b ∈ s.gives type qid, ¬b.BeginsIn m := by
  cases type with
  | cq =>
      cases nvmeDiscardCq_discards hdisc with
      | empty hmem =>
          rw [State.gives, if_pos hmem]
          exact ⟨h, fun m => (and_iff_left (by simp)).symm⟩
      | discarded ctx hmem hput =>
          obtain ⟨h', hheld⟩ := mem_held_of_putMem h hput
          refine ⟨h', fun m => (hheld m).trans (and_congr_right fun _ => ?_)⟩
          rw [State.gives, if_neg hmem]
          cases (s.cq qid).preallocated <;> simp
  | sq =>
      cases nvmeDiscardSq_discards hdisc with
      | empty hmem =>
          rw [State.gives, if_pos hmem]
          exact ⟨h, fun m => (and_iff_left (by simp)).symm⟩
      | discarded ctx ctx' heap pages hmem hput hfree hpages =>
          obtain ⟨h', hheld⟩ := mem_held_of_putMem h hput
          obtain ⟨h'', hheld'⟩ := mem_held_of_iommuPutDmabuf h' hpages
          refine ⟨h'', fun m => (hheld' m).trans ?_⟩
          rw [hheld m, and_assoc, State.gives, if_neg hmem]
          cases (s.sq qid).preallocated <;> simp

theorem Kept.discard_iff (h : Kept t) (hdisc : t.ctrl.discard ops type qid = some s)
    {live : List LiveQueue} (hlive : ∀ q ∈ live, q ∈ t.live) :
    MemoryKept ⟨s, live⟩ ↔
      ∀ q ∈ live, ∀ b ∈ t.ctrl.gives type qid, ¬b.BeginsIn (q.mem.mapping 0) := by
  have hheld := (mem_held_of_discard h.mapped hdisc).2
  refine forall₂_congr fun q hq => ?_
  exact (hheld _).trans (and_iff_right (h.memory q (hlive q hq)))

/-- A delete function sends its command, and has discarded the queue before. -/
theorem Served.delete_eq_some (h : t.delete ops type qid admin = some (res, u)) :
    ∃ s cqs sqs, t.ctrl.discard ops type qid = some s ∧
      u.ctrl = { s with cqs := cqs, sqs := sqs } ∧ res = admin ∧
        ((∃ e, admin = .error e) ∧ u.live = t.live ∨
          admin = .ok () ∧ u.live = t.live.filter fun q => !q.named type qid) := by
  cases type with
  | cq =>
      obtain ⟨_, hdelete, hr⟩ := Option.map_eq_some_iff.mp h
      obtain ⟨s, hdisc, rfl⟩ := Option.map_eq_some_iff.mp hdelete
      cases admin with
      | error e =>
          obtain ⟨rfl, rfl⟩ := Prod.mk.inj hr
          exact ⟨s, s.cqs, s.sqs, hdisc, rfl, rfl, .inl ⟨⟨e, rfl⟩, rfl⟩⟩
      | ok v =>
          obtain ⟨rfl, rfl⟩ := Prod.mk.inj hr
          exact ⟨s, _, s.sqs, hdisc, rfl, rfl, .inr ⟨rfl, rfl⟩⟩
  | sq =>
      obtain ⟨_, hdelete, hr⟩ := Option.map_eq_some_iff.mp h
      obtain ⟨s, hdisc, rfl⟩ := Option.map_eq_some_iff.mp hdelete
      cases admin with
      | error e =>
          obtain ⟨rfl, rfl⟩ := Prod.mk.inj hr
          exact ⟨s, s.cqs, s.sqs, hdisc, rfl, rfl, .inl ⟨⟨e, rfl⟩, rfl⟩⟩
      | ok v =>
          obtain ⟨rfl, rfl⟩ := Prod.mk.inj hr
          exact ⟨s, s.cqs, _, hdisc, rfl, rfl, .inr ⟨rfl, rfl⟩⟩

theorem Served.delete_live (h : t.delete ops type qid admin = some (res, u)) :
    ∀ q ∈ u.live, q ∈ t.live := by
  obtain ⟨s, cqs, sqs, -, -, -, ⟨-, hlive⟩ | ⟨-, hlive⟩⟩ := t.delete_eq_some h
  · rw [hlive]
    exact fun q hq => hq
  · rw [hlive]
    exact fun q hq => List.mem_of_mem_filter hq

/-- The memory is there while the delete command is under way exactly if the slot spares it, and
then it is there afterwards. -/
theorem Kept.keeps_iff (h : Kept t) :
    (∀ s, t.ctrl.discard ops type qid = some s → MemoryKept ⟨s, t.live⟩) ↔
      ((t.ctrl.discard ops type qid).isSome → t.Spares type qid) := by
  constructor
  · intro hkept hsome
    obtain ⟨s, hdisc⟩ := Option.isSome_iff_exists.mp hsome
    exact (h.discard_iff hdisc fun q hq => hq).mp (hkept s hdisc)
  · intro hspares s hdisc
    exact (h.discard_iff hdisc fun q hq => hq).mpr (hspares (hdisc ▸ rfl))

theorem Kept.discard (h : Kept t)
    (hspares : (t.ctrl.discard ops type qid).isSome → t.Spares type qid)
    (hdisc : t.ctrl.discard ops type qid = some s) : Kept ⟨s, t.live⟩ :=
  ⟨(mem_held_of_discard h.mapped hdisc).1, h.keeps_iff.mpr hspares s hdisc⟩

theorem Kept.delete (h : Kept t)
    (hspares : (t.ctrl.discard ops type qid).isSome → t.Spares type qid)
    (hdelete : t.delete ops type qid admin = some (res, u)) : Kept u := by
  obtain ⟨s, cqs, sqs, hdisc, hctrl, -⟩ := t.delete_eq_some hdelete
  have hkept := h.discard hspares hdisc
  refine ⟨?_, fun q hq => ?_⟩
  · rw [hctrl]
    exact hkept.mapped
  · rw [hctrl]
    exact hkept.memory q (Served.delete_live hdelete q hq)

end Discard

structure Adds (ctx ctx' : IommuCtx σ) : Prop where
  mapped : ∃ xs, Mapped ctx'.map xs
  held : ∀ m ∈ ctx.map.held, m ∈ ctx'.map.held

section Create

variable {ops : IommuCtxOps σ} {pageshift qid cq : ℕ} {s s' : State σ} {t u : Served σ}
  {qsize vector : ℤ} {res admin : Except Errno Unit} {rest : List (U64 × Except Errno U64)}
  {ctx ctx' : IommuCtx σ}

theorem adds_of_obtains {buffer : Iommu.IommuDmabuf} {flags : U64}
    (h : Obtains ctx buffer flags ctx') : Adds ctx ctx' := by
  have hheld := Multiset.coe_eq_coe.mp h.memory
  exact ⟨h.mapped, fun m hm => hheld.mem_iff.mpr (List.mem_cons_of_mem _ hm)⟩

theorem adds_of_map (h : ∃ xs, Mapped ctx.map xs) (hmap : ctx'.map = ctx.map) : Adds ctx ctx' :=
  ⟨hmap ▸ h, fun _ hm => hmap ▸ hm⟩

theorem mapping_mem_of_obtains {buffer : Iommu.IommuDmabuf} {flags : U64}
    (h : Obtains ctx buffer flags ctx') : buffer.mapping flags ∈ ctx'.map.held :=
  (Multiset.coe_eq_coe.mp h.memory).mem_iff.mpr List.mem_cons_self

theorem configureCq_adds {a : CqAnswers} (h : ∃ xs, Mapped s.ctx.map xs)
    (hfresh : Fresh s.ctx.map (blocks (vfnPagesize pageshift)
      ((shiftedSize qsize 4, a.mem) :: rest)))
    (hcfg : nvmeConfigureCq ops pageshift s qid qsize vector a = (res, s')) :
    Adds s.ctx s'.ctx ∧ Fresh s'.ctx.map (blocks (vfnPagesize pageshift) rest) ∧
      s'.mps = s.mps ∧ (res = .ok () → (s'.cq qid).mem.mapping 0 ∈ s'.ctx.map.held) := by
  have hconfigures := nvmeConfigureCq_configures ops pageshift s qid qsize vector a
  rw [hcfg] at hconfigures
  cases hconfigures with
  | refused e => exact ⟨⟨h, fun _ hm => hm⟩, hfresh.skip, rfl, nofun⟩
  | tried _ mem ctx hcheck hmem =>
      rw [State.withCq_cq_self]
      obtain ⟨hrest, ⟨-, hobtains⟩ | ⟨⟨e, rfl⟩, hmap⟩⟩ := hfresh.get h hmem
      · exact ⟨adds_of_obtains hobtains, hrest, rfl, fun _ => mapping_mem_of_obtains hobtains⟩
      · exact ⟨adds_of_map h hmap, hrest, rfl, nofun⟩

/-- If there is no memory for the entries, then the pages that are given back are those that were
just had. -/
theorem configureSq_adds {a : SqAnswers} (h : ∃ xs, Mapped s.ctx.map xs)
    (hfresh : Fresh s.ctx.map (blocks (vfnPagesize pageshift)
      ((pagesSize qsize s.mps, a.pages) :: (shiftedSize qsize 6, a.mem) :: rest)))
    (hcfg : nvmeConfigureSq ops pageshift s qid qsize cq a = some (res, s')) :
    Adds s.ctx s'.ctx ∧ (res = .ok () → (s'.sq qid).mem.mapping 0 ∈ s'.ctx.map.held) := by
  cases nvmeConfigureSq_configures hcfg with
  | refused e => exact ⟨⟨h, fun _ hm => hm⟩, nofun⟩
  | noPages e pages ctx hcheck hpages =>
      obtain ⟨-, ⟨hok, -⟩ | ⟨-, hmap⟩⟩ := hfresh.get h hpages
      · cases hok
      · exact ⟨adds_of_map h hmap, nofun⟩
  | noMem e pages mem pages' ctx ctx' ctx'' heap hcheck hpages hmem hfree hput =>
      refine ⟨?_, nofun⟩
      obtain ⟨hrest, ⟨-, hobtains⟩ | ⟨⟨e, he⟩, -⟩⟩ := hfresh.get h hpages
      · obtain ⟨-, ⟨hok, -⟩ | ⟨-, hmap⟩⟩ := hrest.get hobtains.mapped hmem
        · cases hok
        · have hsame : ctx'.memory = ctx.memory := by rw [IommuCtx.memory, hmap, ← IommuCtx.memory]
          have hin : pages.mapping 0 ∈ ctx'.memory := by
            rw [hsame, hobtains.memory]
            exact Multiset.mem_cons_self _ _
          obtain ⟨-, hreleases⟩ := (returns_iommuPutDmabuf (hmap ▸ hobtains.mapped)
            hobtains.len_ne hin).of_eq_some (pages', ctx'') hput
          have hmemory := hreleases.memory
          rw [hsame, hobtains.memory, Multiset.cons_inj_right] at hmemory
          exact ⟨hreleases.mapped, fun m => (Multiset.coe_eq_coe.mp hmemory).mem_iff.mp⟩
      · cases he
  | configured pages mem ctx ctx' hcheck hpages hmem =>
      rw [State.withSq_sq_self]
      obtain ⟨hrest, ⟨-, hobtains⟩ | ⟨⟨e, he⟩, -⟩⟩ := hfresh.get h hpages
      · obtain ⟨-, ⟨-, hobtains'⟩ | ⟨⟨e, he⟩, -⟩⟩ := hrest.get hobtains.mapped hmem
        · refine ⟨⟨hobtains'.mapped, fun m hm => ?_⟩, fun _ => mapping_mem_of_obtains hobtains'⟩
          exact (adds_of_obtains hobtains').held m ((adds_of_obtains hobtains).held m hm)
        · cases he
      · cases he

theorem Kept.adds (h : Kept t) (hadds : Adds t.ctrl.ctx s.ctx) : Kept ⟨s, t.live⟩ :=
  ⟨hadds.mapped, fun q hq => hadds.held _ (h.memory q hq)⟩

theorem Kept.add (h : Kept t) {q : LiveQueue} (hq : q.mem.mapping 0 ∈ t.ctrl.ctx.map.held) :
    Kept ⟨t.ctrl, q :: t.live⟩ :=
  ⟨h.mapped, List.forall_mem_cons.mpr ⟨hq, h.memory⟩⟩

theorem Kept.createIocq {a : CqAnswers} (h : Kept t)
    (hfresh : Fresh t.ctrl.ctx.map (blocks (vfnPagesize pageshift)
      ((shiftedSize qsize 4, a.mem) :: rest)))
    (hcreate : t.createIocq ops pageshift qid qsize vector a admin = (res, u)) :
    Kept u ∧ Fresh u.ctrl.ctx.map (blocks (vfnPagesize pageshift) rest) ∧
      u.ctrl.mps = t.ctrl.mps := by
  rw [Served.createIocq, nvmeCreateIocq] at hcreate
  rcases hcfg : nvmeConfigureCq ops pageshift t.ctrl qid qsize vector a with ⟨e | v, s⟩
  · obtain ⟨hadds, hrest, hmps, -⟩ := configureCq_adds h.mapped hfresh hcfg
    rw [hcfg] at hcreate
    obtain ⟨-, rfl⟩ := Prod.mk.inj hcreate
    exact ⟨h.adds hadds, hrest, hmps⟩
  · obtain ⟨hadds, hrest, hmps, hmem⟩ := configureCq_adds h.mapped hfresh hcfg
    rw [hcfg] at hcreate
    cases admin with
    | error e =>
        obtain ⟨-, rfl⟩ := Prod.mk.inj hcreate
        exact ⟨h.adds hadds, hrest, hmps⟩
    | ok v =>
        obtain ⟨-, rfl⟩ := Prod.mk.inj hcreate
        have hkept := (h.adds hadds).add (q := ⟨.cq, qid, (s.cq qid).mem⟩) (hmem rfl)
        exact ⟨⟨hkept.mapped, hkept.memory⟩, hrest, hmps⟩

theorem Kept.createIosq {a : SqAnswers} (h : Kept t)
    (hfresh : Fresh t.ctrl.ctx.map (blocks (vfnPagesize pageshift)
      ((pagesSize qsize t.ctrl.mps, a.pages) :: (shiftedSize qsize 6, a.mem) :: rest)))
    (hcreate : t.createIosq ops pageshift qid qsize cq a admin = some (res, u)) : Kept u := by
  obtain ⟨_, hcreate, hr⟩ := Option.map_eq_some_iff.mp hcreate
  obtain ⟨⟨e | v, s⟩, hcfg, rfl⟩ := Option.map_eq_some_iff.mp hcreate
  · obtain ⟨hadds, -⟩ := configureSq_adds h.mapped hfresh hcfg
    obtain ⟨-, rfl⟩ := Prod.mk.inj hr
    exact h.adds hadds
  · obtain ⟨hadds, hmem⟩ := configureSq_adds h.mapped hfresh hcfg
    cases admin with
    | error e =>
        obtain ⟨-, rfl⟩ := Prod.mk.inj hr
        exact h.adds hadds
    | ok v =>
        obtain ⟨-, rfl⟩ := Prod.mk.inj hr
        have hkept := (h.adds hadds).add (q := ⟨.sq, qid, (s.sq qid).mem⟩) (hmem rfl)
        exact ⟨hkept.mapped, hkept.memory⟩

/-- The functions that create queues unmap nothing that was mapped before. -/
theorem Kept.create (h : Kept t) {call : CreateCall}
    (hfresh : Fresh t.ctrl.ctx.map (blocks (vfnPagesize pageshift) (call.requests t.ctrl)))
    (hpasses : Passes ops pageshift t (.create call) u) : Kept u := by
  cases hpasses with
  | configuredCq qid qsize vector a admin s hcfg =>
      exact h.adds (configureCq_adds h.mapped hfresh hcfg).1
  | configuredSq qid qsize cq a admin s hcfg =>
      exact h.adds (configureSq_adds h.mapped hfresh hcfg).1
  | pairConfiguredCq qid qsize vector acq createCq asq createSq s hcfg =>
      exact h.adds (configureCq_adds h.mapped hfresh hcfg).1
  | pairConfiguredSq qid qsize vector acq createCq asq createSq v s hcreate hcfg =>
      obtain ⟨hv, hrest, hmps⟩ := h.createIocq hfresh hcreate
      rw [← hmps] at hrest
      exact hv.adds (configureSq_adds hv.mapped hrest hcfg).1
  | returned _ _ hstep =>
      cases call with
      | iocq qid qsize vector a admin =>
          obtain rfl := Option.some.inj hstep
          exact (h.createIocq hfresh rfl).1
      | iosq qid qsize cq a admin =>
          obtain ⟨r, hcreate, rfl⟩ := Option.map_eq_some_iff.mp hstep
          exact h.createIosq hfresh hcreate
      | ioqpair qid qsize vector acq createCq asq createSq =>
          rw [servedStep] at hstep
          rcases hcreate : t.createIocq ops pageshift qid qsize vector acq createCq with ⟨e | w, v⟩
          · rw [hcreate] at hstep
            obtain rfl := Option.some.inj hstep
            exact (h.createIocq hfresh hcreate).1
          · rw [hcreate] at hstep
            obtain ⟨hv, hrest, hmps⟩ := h.createIocq hfresh hcreate
            rw [← hmps] at hrest
            obtain ⟨r, hcreate', rfl⟩ := Option.map_eq_some_iff.mp hstep
            exact hv.createIosq hrest hcreate'

/-- A call that spares the memory of the queues keeps it all the time. -/
theorem Kept.passes (h : Kept t) {call : LifeCall} (hgiven : call.Given pageshift t)
    (hspares : call.Spares ops t) (hpasses : Passes ops pageshift t call u) : Kept u := by
  cases call with
  | init => exact hgiven.elim
  | close => exact hgiven.elim
  | create call => exact h.create hgiven hpasses
  | deleteIocq qid admin =>
      cases hpasses with
      | discardedCq _ _ s hdisc => exact h.discard hspares hdisc
      | returned _ _ hstep =>
          obtain ⟨r, hdelete, rfl⟩ := Option.map_eq_some_iff.mp hstep
          exact h.delete hspares hdelete
  | deleteIosq qid admin =>
      cases hpasses with
      | discardedSq _ _ s hdisc => exact h.discard hspares hdisc
      | returned _ _ hstep =>
          obtain ⟨r, hdelete, rfl⟩ := Option.map_eq_some_iff.mp hstep
          exact h.delete hspares hdelete
  | deleteIoqpair qid deleteSq deleteCq =>
      obtain ⟨hspares, hspares'⟩ := hspares
      cases hpasses with
      | pairDiscardedSq _ _ _ s hdisc => exact h.discard hspares hdisc
      | pairDiscardedCq _ _ _ v s hdelete hdisc =>
          exact (h.delete hspares hdelete).discard (hspares' v hdelete) hdisc
      | returned _ _ hstep =>
          obtain ⟨⟨e | w, v⟩, hdelete, hstep⟩ := Option.bind_eq_some_iff.mp hstep
          · obtain rfl := Option.some.inj hstep
            exact h.delete hspares hdelete
          · obtain ⟨r, hdelete', rfl⟩ := Option.map_eq_some_iff.mp hstep
            exact (h.delete hspares hdelete).delete (hspares' v hdelete) hdelete'

/-- A call keeps the memory of the queues exactly if it spares it. -/
theorem Kept.step_iff (h : Kept t) {call : LifeCall} (hgiven : call.Given pageshift t) :
    KeepsMemory ops pageshift t call ↔ call.Spares ops t := by
  refine ⟨fun hkeeps => ?_, fun hspares u hu => (h.passes hgiven hspares hu).memory⟩
  cases call with
  | init => trivial
  | close => trivial
  | create call => trivial
  | deleteIocq qid admin =>
      exact h.keeps_iff.mp fun s hdisc => hkeeps _ (.discardedCq qid admin s hdisc)
  | deleteIosq qid admin =>
      exact h.keeps_iff.mp fun s hdisc => hkeeps _ (.discardedSq qid admin s hdisc)
  | deleteIoqpair qid deleteSq deleteCq =>
      have hspares : (t.ctrl.discard ops .sq qid).isSome → t.Spares .sq qid :=
        h.keeps_iff.mp fun s hdisc => hkeeps _ (.pairDiscardedSq qid deleteSq deleteCq s hdisc)
      refine ⟨hspares, fun u hdelete => (h.delete hspares hdelete).keeps_iff.mp fun s hdisc => ?_⟩
      exact hkeeps _ (.pairDiscardedCq qid deleteSq deleteCq u s hdelete hdisc)

end Create

end Ctrl

end Nvme

end Libvfn
