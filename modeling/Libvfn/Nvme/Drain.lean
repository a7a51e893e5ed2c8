import Libvfn.Nvme.Exchange
import Mathlib.Algebra.BigOperators.Group.Finset.Basic
import Mathlib.Algebra.Order.BigOperators.Group.Finset
import Mathlib.Data.FinEnum

/-!
# Every command can be answered

Neither side of the queues can run into a state from which a command in flight is never
answered. The controller does not complete a command while the completion queue is full
as far as it knows, and it may know an old head; but then the host finds an entry, or it
writes the head again and the controller sees room. A command that was posted without
the doorbell is told with the next one.

A command that waits in the ring has three stages before it, one in execution two, and a
completion one. The stages of all queues together are the distance to the end.
-/

namespace Libvfn

namespace Nvme

open Runs

section Drain

variable {β : Type*} {q q' : SqState β} {l : List ℕ} {c : CqState} {vs : List ℕ}
  {setup : QueueSetup β} {s s' : Exchange β} {sqid : BitVec 16}

def ExchangeOp.drains : ExchangeOp β → Bool
  | .submit _ .updateTail => true
  | .submit _ .fetch => true
  | .submit _ _ => false
  | _ => true

def SqState.stages (q : SqState β) : ℕ :=
  3 * (q.posted.length - q.fetched.length) + 2 * q.executing.length + q.completions.length

def Exchange.stages (s : Exchange β) : ℕ := ∑ sqid, (s.sqs sqid).stages

/-- The state is closer to the end, and nothing was submitted. -/
structure Closer (s s' : Exchange β) : Prop where
  posted : ∀ sqid, (s'.sqs sqid).posted = (s.sqs sqid).posted
  stages : s'.stages < s.stages

/-- It is enough that one submission queue is closer. -/
theorem closer_of_setSq (hsqs : s'.sqs = (s.setSq sqid q).sqs)
    (hposted : q.posted = (s.sqs sqid).posted) (h : q.stages < (s.sqs sqid).stages) :
    Closer s s' where
  posted := fun i => by
    rw [hsqs]
    by_cases hi : i = sqid
    · rw [hi, setSq_sqs_self, hposted]
    · rw [setSq_sqs_of_ne hi]
  stages := by
    rw [Exchange.stages, hsqs]
    refine Finset.sum_lt_sum (fun i _ => ?_) ⟨sqid, Finset.mem_univ _, ?_⟩
    · by_cases hi : i = sqid
      · rw [hi, setSq_sqs_self]
        exact h.le
      · rw [setSq_sqs_of_ne hi]
    · rwa [setSq_sqs_self]

/-! ## The submission queue -/

theorem SqInv.told_updateTail (h : SqInv q l) :
    (nvmeSqUpdateTail q.sq).told = BitVec.ofNat 16 (q.posted.length % q.sq.qsize) := by
  by_cases hsame : q.sq.tail = q.sq.ptail
  · rw [nvmeSqUpdateTail, if_pos hsame, h.told, ← h.ptail, ← hsame, h.tail]
  · rw [nvmeSqUpdateTail_told hsame, h.tail]

theorem SqInv.exists_fetch (h : SqInv q l) (hlt : q.fetched.length < q.posted.length) :
    ∃ t q', sqStep q .updateTail = some t ∧ sqStep t .fetch = some q' ∧
      q'.posted = q.posted ∧ q'.stages < q.stages := by
  have hlap := h.unfetched_lt
  have hne : q.head ≠ (nvmeSqUpdateTail q.sq).told := by
    rw [h.told_updateTail, h.head]
    exact ofNat_mod_ne h.qsize_pos h.qsize_le hlt (by omega)
  refine ⟨_, _, rfl, if_neg hne, rfl, ?_⟩
  simp only [SqState.stages, List.length_append, List.length_cons]
  omega

theorem exists_complete {cid : BitVec 16} (h : cid ∈ q.executing) :
    ∃ q', sqStep q (.complete cid) = some q' ∧ q'.posted = q.posted ∧ q'.stages < q.stages := by
  refine ⟨_, if_pos h, rfl, ?_⟩
  have hpos := List.length_pos_of_mem h
  simp only [SqState.stages, List.length_erase_of_mem h, List.length_cons]
  omega

theorem stages_answer {cid : BitVec 16} (h : cid ∈ q.completions) (rq : Option ℕ) :
    (q.answer cid rq).stages < q.stages := by
  have hpos := List.length_pos_of_mem h
  simp only [SqState.stages, SqState.answer, List.length_erase_of_mem h]
  omega

/-! ## The completion queue -/

/-- If the host has returned every entry and writes the head, the controller sees room. -/
theorem CqInv.exists_room (h : CqInv c vs) (hall : c.returned.length = c.posted.length)
    (cqe : NvmeCqe) :
    ∃ c₁ k c₂ c₃, cqStep c .updateHead = some c₁ ∧ cqStep c₁ (.see k) = some c₂ ∧
      cqStep c₂ (.post cqe) = some c₃ := by
  obtain ⟨v, hv, -⟩ := h.window
  have hseen : c.seen ≤ c.doorbells.length := by
    rw [h.doorbells, List.length_map]
    exact (List.getElem?_eq_some_iff.mp hv).1.le
  have hroom : full { c with
      cq := nvmeCqUpdateHead c.cq
      doorbells := c.doorbells ++ [(nvmeCqUpdateHead c.cq).told]
      seen := c.doorbells.length } = false := by
    have htwo := h.two_le
    have hne : BitVec.ofNat 16 (c.posted.length % c.cq.qsize) ≠
        BitVec.ofNat 16 ((c.posted.length + 1) % c.cq.qsize) :=
      ofNat_mod_ne (by omega) h.qsize_lt.le (Nat.lt_succ_self _) (by omega)
    rw [nvmeCqUpdateHead_told]
    simp [full, nvmeCqUpdateHead, h.head, hall, hne]
  have hsee : c.seen ≤ c.doorbells.length ∧
      c.doorbells.length < (c.doorbells ++ [(nvmeCqUpdateHead c.cq).told]).length :=
    ⟨hseen, by simp⟩
  exact ⟨_, c.doorbells.length, _, _, rfl, if_pos hsee, if_neg (Bool.eq_false_iff.mp hroom)⟩

/-! ## Progress -/

def CanAdvance (setup : QueueSetup β) (s : Exchange β) : Prop :=
  ∃ ops s', (∀ op ∈ ops, ExchangeOp.drains op) ∧ run (exchangeStep setup) s ops = some s' ∧
    Closer s s'

theorem ExchangeInv.canAdvance_take (h : ExchangeInv setup s) {cqid : BitVec 16}
    (hlt : (s.cqs cqid).returned.length < (s.cqs cqid).posted.length) : CanAdvance setup s := by
  obtain ⟨vs, hcq⟩ := h.cqInv cqid
  obtain ⟨cqe, hget⟩ : ∃ cqe, (nvmeCqGetCqe (s.cqs cqid).cq).1 = some cqe :=
    ⟨_, congrArg Prod.fst (hcq.getCqe_some hlt)⟩
  obtain ⟨-, -, hmem, -⟩ := h.getCqe_spec hget
  refine ⟨[.getCqe cqid], s.take cqid cqe, by simp [ExchangeOp.drains], ?_, ?_⟩
  · exact run_cons_eq_some.mpr ⟨_, exchangeStep_getCqe hget, rfl⟩
  · exact closer_of_setSq rfl rfl (stages_answer hmem _)

/-- A command in execution can be completed, after the head was written, if there is no
entry to take. -/
theorem ExchangeInv.canAdvance_complete (h : ExchangeInv setup s) {cid : BitVec 16}
    (hmem : cid ∈ (s.sqs sqid).executing) : CanAdvance setup s := by
  obtain ⟨vs, hcq⟩ := h.cqInv (setup.cqOf sqid)
  rcases hcq.inOrder.length_le.lt_or_eq with hlt | hall
  · exact h.canAdvance_take hlt
  · obtain ⟨c₁, k, c₂, c₃, hhead, hsee, hpost⟩ := hcq.exists_room hall ⟨0, 0, sqid, cid, 0⟩
    obtain ⟨q, hq, hposted, hstages⟩ := exists_complete hmem
    let cqid := setup.cqOf sqid
    let s₁ := s.setCq cqid c₁
    let s₂ := s₁.setCq cqid c₂
    have hstep₁ : exchangeStep setup s (.updateHead cqid) = some s₁ := by
      rw [exchangeStep, hhead]
      rfl
    have hstep₂ : exchangeStep setup s₁ (.see cqid k) = some s₂ := by
      rw [exchangeStep, setCq_cqs_self, hsee]
      rfl
    have hstep₃ : exchangeStep setup s₂ (.complete sqid ⟨0, 0, sqid, cid, 0⟩) =
        some ((s₂.setSq sqid q).setCq cqid c₃) := by
      simp only [exchangeStep, s₂, s₁, cqid, setCq_sqs, setCq_cqs_self, hq, hpost,
        Option.bind_some, Option.map_some]
    refine ⟨[.updateHead cqid, .see cqid k, .complete sqid ⟨0, 0, sqid, cid, 0⟩],
      (s₂.setSq sqid q).setCq cqid c₃, by simp [ExchangeOp.drains], ?_,
      closer_of_setSq rfl hposted hstages⟩
    rw [run, hstep₁, Option.bind_some, run, hstep₂, Option.bind_some, run, hstep₃]
    rfl

theorem setSq_setSq (t : SqState β) : (s.setSq sqid t).setSq sqid q = s.setSq sqid q := by
  rw [Exchange.setSq, Exchange.setSq, Exchange.setSq, Function.update_idem]

theorem ExchangeInv.canAdvance_fetch (h : ExchangeInv setup s)
    (hlt : (s.sqs sqid).fetched.length < (s.sqs sqid).posted.length) : CanAdvance setup s := by
  obtain ⟨l, hsq⟩ := h.sqInv sqid
  obtain ⟨t, q, htail, hfetch, hposted, hstages⟩ := hsq.exists_fetch hlt
  refine ⟨[.submit sqid .updateTail, .submit sqid .fetch], s.setSq sqid q,
    by simp [ExchangeOp.drains], ?_, closer_of_setSq rfl hposted hstages⟩
  simp only [run, exchangeStep, SqOp.alone, htail, hfetch, setSq_sqs_self, if_true,
    Option.map_some, Option.bind_some, setSq_setSq]

theorem ExchangeInv.canAdvance (h : ExchangeInv setup s) {cid : BitVec 16}
    (hcid : cid ∈ (s.sqs sqid).inFlight) : CanAdvance setup s := by
  rcases List.mem_append.mp hcid with hring | hcid
  · obtain ⟨e, he, -⟩ := List.mem_map.mp hring
    have hpos := List.length_pos_of_mem he
    rw [List.length_drop] at hpos
    exact h.canAdvance_fetch (Nat.lt_of_sub_pos hpos)
  rcases List.mem_append.mp hcid with hexec | hcompletion
  · exact h.canAdvance_complete hexec
  · have hpending := (h.linked sqid).completions.mem_iff.mp hcompletion
    obtain ⟨cqe, hcqe, -⟩ := List.mem_map.mp hpending
    have hpos := List.length_pos_of_mem (List.mem_of_mem_filter hcqe)
    rw [List.length_drop] at hpos
    exact h.canAdvance_take (Nat.lt_of_sub_pos hpos)

/-- Every state that the host and the controller can get into can be left again without
new commands, such that every command that was submitted has been answered. -/
theorem exchange_drains (setup : QueueSetup β) (ops : List (ExchangeOp β)) (s : Exchange β)
    (hrun : run (exchangeStep setup) setup.init ops = some s) :
    ∃ more s', (∀ op ∈ more, ExchangeOp.drains op) ∧
      run (exchangeStep setup) s more = some s' ∧
      ∀ sqid cid, (s'.cqs (setup.cqOf sqid)).answered sqid cid = (s.sqs sqid).submitted cid := by
  have h : ExchangeInv setup s :=
    run_invariant_of_step (fun _ _ _ => exchangeInv_step) (exchangeInv_init setup) hrun
  -- nothing is submitted on the way
  let inv (t : Exchange β) := ExchangeInv setup t ∧ ∀ i, (t.sqs i).posted = (s.sqs i).posted
  let done (t : Exchange β) := ∀ i, (t.sqs i).inFlight = []
  have hcloser : ∀ t, inv t → ¬done t → ∃ os t', (∀ op ∈ os, ExchangeOp.drains op) ∧
      run (exchangeStep setup) t os = some t' ∧ inv t' ∧ t'.stages < t.stages := by
    rintro t ⟨ht, hsame⟩ hnot
    obtain ⟨sqid, hsome⟩ := not_forall.mp hnot
    obtain ⟨cid, hcid⟩ := List.exists_mem_of_ne_nil _ hsome
    obtain ⟨os, t', hos, hsteps, hcloser⟩ := ht.canAdvance hcid
    have ht' : ExchangeInv setup t' :=
      run_invariant_of_step (fun _ _ _ => exchangeInv_step) ht hsteps
    exact ⟨os, t', hos, hsteps, ⟨ht', fun i => (hcloser.posted i).trans (hsame i)⟩,
      hcloser.stages⟩
  obtain ⟨more, s', hmore, hrun', ⟨h', hposted⟩, hdone⟩ :=
    exists_run_of_measure Exchange.stages hcloser ⟨h, fun _ => rfl⟩
  refine ⟨more, s', hmore, hrun', fun sqid cid => ?_⟩
  have hbooks := (h'.linked sqid).books cid
  rw [hdone sqid, List.count_nil, Nat.add_zero] at hbooks
  rw [← hbooks, SqState.submitted, SqState.submitted, hposted sqid]

end Drain

/-- One of the two commands is answered, and the other one can be. -/
theorem exchange_drains_shared :
    (run (exchangeStep sharedSetup) sharedSetup.init sharedOps).map (fun s =>
      ((s.cqs 1).answered 2 1, (s.cqs 1).answered 1 1, (s.sqs 1).submitted 1)) = some (1, 0, 1) ∧
    ∀ s, run (exchangeStep sharedSetup) sharedSetup.init sharedOps = some s →
      ∃ more s', (∀ op ∈ more, ExchangeOp.drains op) ∧
        run (exchangeStep sharedSetup) s more = some s' ∧
        (s'.cqs 1).answered 1 1 = (s.sqs 1).submitted 1 := by
  refine ⟨by decide +kernel, fun s hs => ?_⟩
  obtain ⟨more, s', hmore, hrun, hall⟩ := exchange_drains sharedSetup sharedOps s hs
  exact ⟨more, s', hmore, hrun, hall 1 1⟩

end Nvme

end Libvfn
