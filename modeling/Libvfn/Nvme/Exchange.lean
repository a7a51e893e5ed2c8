import Libvfn.Nvme.Completion
import Libvfn.Nvme.Trackers

/-!
# Every command is answered once

A controller serves many submission queues, and several of them may share a completion
queue. The host reads the entries of a completion queue in the order in which they were
posted, and the identifier of the submission queue and that of the command lead from an
entry to the tracker. Here the rings are put together: the controller fetches from any
of the submission queues, completes what it has fetched in any order, and knows the
heads of the completion queues with a delay.

The invariant joins those of the single rings. The entries that were posted and not
returned are the completions that are under way, queue by queue, and every command is in
flight or answered. As the trackers in flight are all different, at most one command with
an identifier is in flight, and every completion that the host finds leads to its tracker.
-/

namespace Libvfn

namespace Nvme

open Runs

section System

variable {β : Type*}

/-- The queues of a controller as they are set up. Every submission queue has a completion
queue, and memory for completions is cleared. -/
structure QueueSetup (β : Type*) where
  cqOf : BitVec 16 → BitVec 16
  sqsize : BitVec 16 → ℕ
  sqmem : BitVec 16 → ℕ → NvmeSqe β
  eventidx : BitVec 16 → Option (BitVec 32)
  cqsize : BitVec 16 → ℕ
  cqmem : BitVec 16 → ℕ → NvmeCqe
  dbbuf : BitVec 16 → Option NvmeDbbuf
  two_le_sqsize : ∀ sqid, 2 ≤ sqsize sqid
  sqsize_le : ∀ sqid, sqsize sqid ≤ 2 ^ 16
  two_le_cqsize : ∀ cqid, 2 ≤ cqsize cqid
  cqsize_lt : ∀ cqid, cqsize cqid < 2 ^ 16
  blank : ∀ cqid, ∀ i < cqsize cqid, (cqmem cqid i).sfp &&& 1 = 0

structure Exchange (β : Type*) where
  sqs : BitVec 16 → SqState β
  cqs : BitVec 16 → CqState

def QueueSetup.init (setup : QueueSetup β) : Exchange β where
  sqs := fun sqid => sqInit (setup.sqsize sqid) (setup.sqmem sqid) (setup.eventidx sqid)
  cqs := fun cqid =>
    cqInit (nvmeConfigureCq (setup.cqsize cqid) (setup.cqmem cqid) (setup.dbbuf cqid))

def SqOp.alone : SqOp β → Bool
  | .complete _ => false
  | .consume _ => false
  | _ => true

inductive ExchangeOp (β : Type*) where
  | submit (sqid : BitVec 16) (op : SqOp β)
  /-- The controller posts the completion of a command that it has fetched. -/
  | complete (sqid : BitVec 16) (cqe : NvmeCqe)
  /-- The controller reads the doorbell of a completion queue. -/
  | see (cqid : BitVec 16) (k : ℕ)
  /-- The host takes an entry, if there is a new one, and looks up its tracker. -/
  | getCqe (cqid : BitVec 16)
  | updateHead (cqid : BitVec 16)

/-- The submission queues, as `nvme_rq_from_cqe` finds them in the controller. -/
def Exchange.ctrlSqs (s : Exchange β) : ℕ → NvmeSq β := fun n => (s.sqs (BitVec.ofNat 16 n)).sq

def Exchange.setSq (s : Exchange β) (sqid : BitVec 16) (q : SqState β) : Exchange β :=
  { s with sqs := Function.update s.sqs sqid q }

def Exchange.setCq (s : Exchange β) (cqid : BitVec 16) (c : CqState) : Exchange β :=
  { s with cqs := Function.update s.cqs cqid c }

/-- The host knows of a completion of a tracker's command. -/
def SqState.answer (q : SqState β) (cid : BitVec 16) (rq : Option ℕ) : SqState β :=
  { q with completions := q.completions.erase cid, consumed := rq.toList ++ q.consumed }

def CqState.taken (c : CqState) : CqState :=
  { c with
    cq := (nvmeCqGetCqe c.cq).2
    returned := c.returned ++ (nvmeCqGetCqe c.cq).1.toList }

def exchangeStep (setup : QueueSetup β) (s : Exchange β) : ExchangeOp β → Option (Exchange β)
  | .submit sqid op =>
      if op.alone then (sqStep (s.sqs sqid) op).map (s.setSq sqid) else none
  | .complete sqid cqe =>
      let cqid := setup.cqOf sqid
      (sqStep (s.sqs sqid) (.complete cqe.cid)).bind fun q =>
        (cqStep (s.cqs cqid) (.post { cqe with sqid := sqid })).map fun c =>
          (s.setSq sqid q).setCq cqid c
  | .see cqid k => (cqStep (s.cqs cqid) (.see k)).map (s.setCq cqid)
  | .getCqe cqid =>
      let s' := s.setCq cqid (s.cqs cqid).taken
      match (nvmeCqGetCqe (s.cqs cqid).cq).1 with
      | none => some s'
      | some cqe =>
          let rq := nvmeCtrlRqFromCqe s.ctrlSqs cqe
          some (s'.setSq cqe.sqid ((s.sqs cqe.sqid).answer cqe.cid rq))
  | .updateHead cqid => (cqStep (s.cqs cqid) .updateHead).map (s.setCq cqid)

/-! ## What was submitted, what is in flight, what was answered -/

def SqState.submitted (q : SqState β) (cid : BitVec 16) : ℕ :=
  (q.posted.map fun e => e.2.cid).count cid

def isFor (sqid cid : BitVec 16) (cqe : NvmeCqe) : Bool := cqe.sqid = sqid && cqe.cid = cid

def CqState.answered (c : CqState) (sqid cid : BitVec 16) : ℕ := c.returned.countP (isFor sqid cid)

def CqState.pending (c : CqState) (sqid : BitVec 16) : List (BitVec 16) :=
  ((c.posted.drop c.returned.length).filter fun cqe => cqe.sqid = sqid).map NvmeCqe.cid

/-- The two queues agree on what is under way between them. -/
structure Linked (sqid : BitVec 16) (q : SqState β) (c : CqState) : Prop where
  completions : q.completions.Perm (c.pending sqid)
  books : ∀ cid, q.submitted cid = c.answered sqid cid + q.inFlight.count cid

structure ExchangeInv (setup : QueueSetup β) (s : Exchange β) : Prop where
  sqInv : ∀ sqid, ∃ l, SqInv (s.sqs sqid) l
  cqInv : ∀ cqid, ∃ vs, CqInv (s.cqs cqid) vs
  routed : ∀ cqid, ∀ cqe ∈ (s.cqs cqid).posted, setup.cqOf cqe.sqid = cqid
  linked : ∀ sqid, Linked sqid (s.sqs sqid) (s.cqs (setup.cqOf sqid))

/-! ## One submission queue -/

structure Submits (q q' : SqState β) (new : List (BitVec 16)) : Prop where
  posted : (q'.posted.map fun e => e.2.cid) = (q.posted.map fun e => e.2.cid) ++ new
  inFlight : q'.inFlight.Perm (q.inFlight ++ new)

theorem Submits.of_perm {q q' : SqState β} (hposted : q'.posted = q.posted)
    (hperm : q'.inFlight.Perm q.inFlight) : Submits q q' [] where
  posted := by rw [hposted, List.append_nil]
  inFlight := by rwa [List.append_nil]

variable {q q' : SqState β} {l : List ℕ}

theorem SqInv.submits_post (h : SqInv q l) {rq : ℕ} {cmd : NvmeSqe β}
    (hstep : sqStep q (.post rq cmd) = some q') :
    Submits q q' [(nvmeRqPrepCmd rq cmd).cid] := by
  obtain ⟨-, ⟨⟩⟩ := Option.ite_none_right_eq_some.mp hstep
  have hle : q.fetched.length ≤ q.posted.length := h.fetched_le.trans h.rung_le
  refine ⟨List.map_append, ?_⟩
  simp only [SqState.inFlight, List.drop_append_of_le_length hle, List.map_append, List.map_cons,
    List.map_nil, List.append_assoc]
  rw [← List.append_assoc q.executing]
  exact List.perm_append_comm.append_left _

theorem SqInv.submits_fetch (h : SqInv q l) (hstep : sqStep q .fetch = some q') :
    Submits q q' [] := by
  by_cases hne : q.head = q.sq.told
  · simp [sqStep, hne] at hstep
  · simp only [sqStep, if_neg hne, Option.some.injEq] at hstep
    subst hstep
    obtain ⟨hlt, -, hsqe⟩ := h.fetch_eq hne
    refine .of_perm rfl ?_
    simp only [SqState.inFlight, List.length_append, List.length_singleton, hsqe]
    rw [List.drop_eq_getElem_cons hlt, List.map_cons]
    exact List.perm_middle

/-- Whatever the two sides do with a submission queue alone, the completions stay the same,
and a command is in flight as soon as it is posted. -/
theorem SqInv.submits (h : SqInv q l) {op : SqOp β} (halone : op.alone)
    (hstep : sqStep q op = some q') :
    q'.completions = q.completions ∧ ∃ new, Submits q q' new := by
  cases op with
  | acquire =>
      obtain rfl := Option.some.inj hstep
      exact ⟨rfl, [], .of_perm rfl (List.Perm.refl _)⟩
  | post rq cmd =>
      refine ⟨?_, _, h.submits_post hstep⟩
      obtain ⟨-, ⟨⟩⟩ := Option.ite_none_right_eq_some.mp hstep
      rfl
  | updateTail =>
      obtain rfl := Option.some.inj hstep
      exact ⟨rfl, [], .of_perm rfl (List.Perm.refl _)⟩
  | release rq =>
      obtain ⟨-, ⟨⟩⟩ := Option.ite_none_right_eq_some.mp hstep
      exact ⟨rfl, [], .of_perm rfl (List.Perm.refl _)⟩
  | fetch =>
      refine ⟨?_, _, h.submits_fetch hstep⟩
      by_cases hne : q.head = q.sq.told
      · simp [sqStep, hne] at hstep
      · simp only [sqStep, if_neg hne, Option.some.injEq] at hstep
        subst hstep
        rfl
  | storeEventidx eventidx =>
      obtain rfl := Option.some.inj hstep
      exact ⟨rfl, [], .of_perm rfl (List.Perm.refl _)⟩
  | complete cid => cases halone
  | consume cid => cases halone

theorem submits_complete {cid : BitVec 16} (hstep : sqStep q (.complete cid) = some q') :
    q'.completions = cid :: q.completions ∧ Submits q q' [] := by
  obtain ⟨hmem, ⟨⟩⟩ := Option.ite_none_right_eq_some.mp hstep
  refine ⟨rfl, .of_perm rfl ?_⟩
  exact (erase_append_cons_perm hmem q.completions).append_left _

theorem SqInv.count_inFlight_le (h : SqInv q l) (cid : BitVec 16) :
    q.inFlight.count cid ≤ 1 := by
  have hnodup : (l ++ q.out).Nodup := h.trackers.nodup_iff.mpr List.nodup_range
  rw [SqState.out] at hnodup
  have hflight := hnodup.of_append_right.of_append_right.of_append_left
  exact List.nodup_iff_count_le_one.mp hflight.of_map cid

theorem SqInv.toNat_lt_of_inFlight (h : SqInv q l) {cid : BitVec 16} (hcid : cid ∈ q.inFlight) :
    cid.toNat < q.sq.qsize - 1 :=
  h.lt_of_mem (by simp [SqState.out, List.mem_map_of_mem hcid])

theorem SqState.mem_inFlight_of_completions {cid : BitVec 16} (h : cid ∈ q.completions) :
    cid ∈ q.inFlight := by
  simp [SqState.inFlight, h]

theorem SqState.answer_inFlight {cid : BitVec 16} (h : cid ∈ q.completions) (rq : Option ℕ) :
    q.inFlight.Perm (cid :: (q.answer cid rq).inFlight) := by
  have hcons := List.perm_cons_erase h
  refine List.Perm.trans ?_ List.perm_middle
  refine List.Perm.append_left _ ?_
  exact (hcons.append_left _).trans List.perm_middle

/-! ## The links -/

variable {c c' : CqState} {sqid : BitVec 16}

theorem Linked.submits (h : Linked sqid q c) {new : List (BitVec 16)}
    (hcompletions : q'.completions = q.completions) (hnew : Submits q q' new) :
    Linked sqid q' c where
  completions := hcompletions ▸ h.completions
  books := fun cid => by
    rw [SqState.submitted, hnew.posted, List.count_append, hnew.inFlight.count_eq,
      List.count_append, ← SqState.submitted, h.books cid, Nat.add_assoc]

theorem Linked.congr (h : Linked sqid q c) (hposted : c'.posted = c.posted)
    (hreturned : c'.returned = c.returned) : Linked sqid q c' where
  completions := by
    rw [CqState.pending, hposted, hreturned]
    exact h.completions
  books := by
    simp only [CqState.answered, hreturned]
    exact h.books

theorem pending_post (hle : c.returned.length ≤ c.posted.length) {cqe : NvmeCqe}
    (hposted : c'.posted = c.posted ++ [cqe]) (hreturned : c'.returned = c.returned) :
    c'.pending sqid = c.pending sqid ++ if cqe.sqid = sqid then [cqe.cid] else [] := by
  rw [CqState.pending, CqState.pending, hposted, hreturned, List.drop_append_of_le_length hle,
    List.filter_append, List.map_append]
  split_ifs with hsqid
  · simp [hsqid]
  · simp [hsqid]

theorem Linked.post_of_ne (h : Linked sqid q c) (hle : c.returned.length ≤ c.posted.length)
    {cqe : NvmeCqe} (hposted : c'.posted = c.posted ++ [cqe])
    (hreturned : c'.returned = c.returned) (hne : cqe.sqid ≠ sqid) : Linked sqid q c' where
  completions := by
    rw [pending_post hle hposted hreturned, if_neg hne, List.append_nil]
    exact h.completions
  books := by
    simp only [CqState.answered, hreturned]
    exact h.books

theorem Linked.post (h : Linked sqid q c) (hle : c.returned.length ≤ c.posted.length)
    {cqe : NvmeCqe} (hposted : c'.posted = c.posted ++ [cqe])
    (hreturned : c'.returned = c.returned) (heq : cqe.sqid = sqid)
    (hcompletions : q'.completions = cqe.cid :: q.completions) (hsub : Submits q q' []) :
    Linked sqid q' c' where
  completions := by
    rw [pending_post hle hposted hreturned, if_pos heq, hcompletions]
    exact (h.completions.cons _).trans (List.perm_append_singleton _ _).symm
  books := fun cid => by
    rw [SqState.submitted, hsub.posted, List.append_nil, ← SqState.submitted, h.books cid,
      hsub.inFlight.count_eq, List.append_nil, CqState.answered, CqState.answered, hreturned]

structure Takes (c c' : CqState) (cqe : NvmeCqe) : Prop where
  posted : c'.posted = c.posted
  returned : c'.returned = c.returned ++ [cqe]
  next : c.posted.drop c.returned.length = cqe :: c.posted.drop (c.returned.length + 1)

theorem Takes.pending {cqe : NvmeCqe} (h : Takes c c' cqe) :
    c.pending sqid = (if cqe.sqid = sqid then [cqe.cid] else []) ++ c'.pending sqid := by
  rw [CqState.pending, CqState.pending, h.next, h.posted, h.returned, List.length_append,
    List.length_singleton]
  by_cases hsqid : cqe.sqid = sqid
  · simp [hsqid]
  · simp [hsqid]

theorem Takes.answered {cqe : NvmeCqe} (h : Takes c c' cqe) (cid : BitVec 16) :
    c'.answered sqid cid =
      c.answered sqid cid + if isFor sqid cid cqe then 1 else 0 := by
  rw [CqState.answered, CqState.answered, h.returned, List.countP_append, List.countP_singleton]

theorem Linked.take_of_ne (h : Linked sqid q c) {cqe : NvmeCqe} (htake : Takes c c' cqe)
    (hne : cqe.sqid ≠ sqid) : Linked sqid q c' where
  completions := by
    have hpending := h.completions
    rwa [htake.pending, if_neg hne, List.nil_append] at hpending
  books := fun cid => by
    have hother : isFor sqid cid cqe = false := by simp [isFor, hne]
    rw [htake.answered, hother, if_neg Bool.false_ne_true, Nat.add_zero]
    exact h.books cid

theorem Linked.mem_completions {cqe : NvmeCqe} (h : Linked cqe.sqid q c)
    (htake : Takes c c' cqe) : cqe.cid ∈ q.completions := by
  refine h.completions.mem_iff.mpr ?_
  rw [htake.pending, if_pos rfl]
  exact List.mem_cons_self

theorem Linked.take {cqe : NvmeCqe} (h : Linked cqe.sqid q c) (htake : Takes c c' cqe)
    (rq : Option ℕ) : Linked cqe.sqid (q.answer cqe.cid rq) c' where
  completions := by
    have hpending := h.completions
    rw [htake.pending, if_pos rfl] at hpending
    have herase := hpending.erase cqe.cid
    rwa [List.singleton_append, List.erase_cons_head] at herase
  books := fun cid => by
    have hflight := (SqState.answer_inFlight (h.mem_completions htake) rq).count_eq cid
    have hbooks : (q.answer cqe.cid rq).submitted cid = q.submitted cid := rfl
    rw [hbooks, h.books cid, hflight, List.count_cons, htake.answered]
    have hfor : isFor cqe.sqid cid cqe = (cqe.cid == cid) := by
      simp [isFor, beq_eq_decide]
    rw [hfor]
    omega

/-! ## Runs -/

theorem CqInv.takes {vs : List ℕ} (h : CqInv c vs) {cqe : NvmeCqe}
    (hget : (nvmeCqGetCqe c.cq).1 = some cqe) : Takes c c.taken cqe := by
  rcases Nat.lt_or_ge c.returned.length c.posted.length with hmore | hall
  · have hsome := h.getCqe_some hmore
    rw [hsome] at hget
    obtain rfl := Option.some.inj hget
    refine ⟨rfl, ?_, List.drop_eq_getElem_cons hmore⟩
    rw [CqState.taken, hsome]
    rfl
  · rw [h.getCqe_none (Nat.le_antisymm h.inOrder.length_le hall)] at hget
    cases hget

theorem cqStep_see {k : ℕ} (hstep : cqStep c (.see k) = some c') :
    c'.posted = c.posted ∧ c'.returned = c.returned := by
  obtain ⟨-, ⟨⟩⟩ := Option.ite_none_right_eq_some.mp hstep
  exact ⟨rfl, rfl⟩

theorem cqStep_post {cqe : NvmeCqe} (hstep : cqStep c (.post cqe) = some c') :
    c'.posted = c.posted ++ [tagged cqe (c.posted.length / c.cq.qsize)] ∧
      c'.returned = c.returned := by
  obtain ⟨-, ⟨⟩⟩ := Option.ite_none_left_eq_some.mp hstep
  exact ⟨rfl, rfl⟩

variable {setup : QueueSetup β} {s s' : Exchange β}

@[simp]
theorem setSq_sqs_self (q : SqState β) : (s.setSq sqid q).sqs sqid = q :=
  Function.update_self ..

@[simp]
theorem setSq_sqs_of_ne {sqid' : BitVec 16} (hne : sqid' ≠ sqid) (q : SqState β) :
    (s.setSq sqid q).sqs sqid' = s.sqs sqid' :=
  Function.update_of_ne hne ..

@[simp]
theorem setSq_cqs (q : SqState β) : (s.setSq sqid q).cqs = s.cqs := rfl

@[simp]
theorem setCq_sqs {cqid : BitVec 16} (c : CqState) : (s.setCq cqid c).sqs = s.sqs := rfl

@[simp]
theorem setCq_cqs_self {cqid : BitVec 16} (c : CqState) : (s.setCq cqid c).cqs cqid = c :=
  Function.update_self ..

@[simp]
theorem setCq_cqs_of_ne {cqid cqid' : BitVec 16} (hne : cqid' ≠ cqid) (c : CqState) :
    (s.setCq cqid c).cqs cqid' = s.cqs cqid' :=
  Function.update_of_ne hne ..

/-- A step at one completion queue and the submission queues that use it. -/
theorem ExchangeInv.at (h : ExchangeInv setup s) (cqid : BitVec 16)
    (hsq : ∀ i, ∃ l, SqInv (s'.sqs i) l) (hcq : ∃ vs, CqInv (s'.cqs cqid) vs)
    (hrouted : ∀ cqe ∈ (s'.cqs cqid).posted, setup.cqOf cqe.sqid = cqid)
    (hlinked : ∀ i, setup.cqOf i = cqid → Linked i (s'.sqs i) (s'.cqs cqid))
    (hsqs : ∀ i, setup.cqOf i ≠ cqid → s'.sqs i = s.sqs i)
    (hcqs : ∀ j, j ≠ cqid → s'.cqs j = s.cqs j) : ExchangeInv setup s' where
  sqInv := hsq
  cqInv := fun j => by
    by_cases hj : j = cqid
    · rwa [hj]
    · rw [hcqs j hj]
      exact h.cqInv j
  routed := fun j => by
    by_cases hj : j = cqid
    · rwa [hj]
    · rw [hcqs j hj]
      exact h.routed j
  linked := fun i => by
    by_cases hi : setup.cqOf i = cqid
    · rw [hi]
      exact hlinked i hi
    · rw [hsqs i hi, hcqs _ hi]
      exact h.linked i

theorem ExchangeInv.sqInv_setSq (h : ExchangeInv setup s) (hq : ∃ l, SqInv q l) (i : BitVec 16) :
    ∃ l, SqInv ((s.setSq sqid q).sqs i) l := by
  by_cases hi : i = sqid
  · rwa [hi, setSq_sqs_self]
  · rw [setSq_sqs_of_ne hi]
    exact h.sqInv i

theorem ExchangeInv.submit (h : ExchangeInv setup s) {op : SqOp β}
    (hstep : exchangeStep setup s (.submit sqid op) = some s') : ExchangeInv setup s' := by
  obtain ⟨halone, hstep⟩ := Option.ite_none_right_eq_some.mp hstep
  obtain ⟨q, hq, rfl⟩ := Option.map_eq_some_iff.mp hstep
  obtain ⟨l, hinv⟩ := h.sqInv sqid
  obtain ⟨hcompletions, new, hsub⟩ := hinv.submits halone hq
  refine h.at (setup.cqOf sqid) (h.sqInv_setSq (sqInv_step ⟨l, hinv⟩ hq))
    (h.cqInv _) (h.routed _) ?_ ?_ (fun _ _ => rfl)
  · intro i hi
    by_cases heq : i = sqid
    · rw [heq, setSq_sqs_self]
      exact (h.linked sqid).submits hcompletions hsub
    · rw [setSq_sqs_of_ne heq, ← hi]
      exact h.linked i
  · intro i hi
    exact setSq_sqs_of_ne (fun heq => hi (congrArg setup.cqOf heq)) q

theorem ExchangeInv.setCq (h : ExchangeInv setup s) {cqid : BitVec 16}
    (hc : ∃ vs, CqInv c vs) (hposted : c.posted = (s.cqs cqid).posted)
    (hreturned : c.returned = (s.cqs cqid).returned) : ExchangeInv setup (s.setCq cqid c) := by
  refine h.at cqid h.sqInv ?_ ?_ ?_ (fun _ _ => rfl) (fun j hj => setCq_cqs_of_ne hj c)
  · rwa [setCq_cqs_self]
  · rw [setCq_cqs_self, hposted]
    exact h.routed cqid
  · intro i hi
    rw [setCq_cqs_self]
    exact (hi ▸ h.linked i).congr hposted hreturned

theorem ExchangeInv.complete (h : ExchangeInv setup s) {cqe : NvmeCqe}
    (hstep : exchangeStep setup s (.complete sqid cqe) = some s') : ExchangeInv setup s' := by
  obtain ⟨q, hq, hstep⟩ := Option.bind_eq_some_iff.mp hstep
  obtain ⟨c, hc, rfl⟩ := Option.map_eq_some_iff.mp hstep
  obtain ⟨hcompletions, hsub⟩ := submits_complete hq
  obtain ⟨hposted, hreturned⟩ := cqStep_post hc
  obtain ⟨vs, hcq⟩ := h.cqInv (setup.cqOf sqid)
  have hle := hcq.inOrder.length_le
  refine h.at (setup.cqOf sqid) (h.sqInv_setSq (sqInv_step (h.sqInv sqid) hq)) ?_ ?_ ?_ ?_
    (fun j hj => setCq_cqs_of_ne hj c)
  · rw [setCq_cqs_self]
    exact CqInv.step _ ⟨vs, hcq⟩ hc
  · rw [setCq_cqs_self, hposted]
    intro e he
    rcases List.mem_append.mp he with he | he
    · exact h.routed _ e he
    · rw [List.mem_singleton.mp he]
      rfl
  · intro i hi
    rw [setCq_cqs_self]
    by_cases heq : i = sqid
    · subst heq
      rw [setCq_sqs, setSq_sqs_self]
      exact (h.linked i).post hle hposted hreturned rfl hcompletions hsub
    · rw [setCq_sqs, setSq_sqs_of_ne heq]
      exact (hi ▸ h.linked i).post_of_ne hle hposted hreturned (Ne.symm heq)
  · intro i hi
    exact setSq_sqs_of_ne (fun heq => hi (congrArg setup.cqOf heq)) q

/-- What the host finds in a completion queue belongs to a command in flight, and leads to
the tracker of the command. -/
theorem ExchangeInv.getCqe_spec (h : ExchangeInv setup s) {cqid : BitVec 16} {cqe : NvmeCqe}
    (hget : (nvmeCqGetCqe (s.cqs cqid).cq).1 = some cqe) :
    setup.cqOf cqe.sqid = cqid ∧ Takes (s.cqs cqid) (s.cqs cqid).taken cqe ∧
      cqe.cid ∈ (s.sqs cqe.sqid).completions ∧
      nvmeCtrlRqFromCqe s.ctrlSqs cqe = some cqe.cid.toNat := by
  obtain ⟨vs, hcq⟩ := h.cqInv cqid
  obtain ⟨l, hsq⟩ := h.sqInv cqe.sqid
  have htakes := hcq.takes hget
  have hposted : cqe ∈ (s.cqs cqid).posted :=
    List.mem_of_mem_drop (htakes.next ▸ List.mem_cons_self)
  have hroute := h.routed cqid cqe hposted
  have hmem : cqe.cid ∈ (s.sqs cqe.sqid).completions :=
    (hroute ▸ h.linked cqe.sqid).mem_completions htakes
  have hlt := hsq.toNat_lt_of_inFlight (SqState.mem_inFlight_of_completions hmem)
  have hctrl : s.ctrlSqs cqe.sqid.toNat = (s.sqs cqe.sqid).sq := by
    rw [Exchange.ctrlSqs, BitVec.ofNat_toNat, BitVec.setWidth_eq]
  refine ⟨hroute, htakes, hmem, ?_⟩
  rw [nvmeCtrlRqFromCqe, hctrl, nvmeRqFromCqe, if_neg (by omega)]

def Exchange.take (s : Exchange β) (cqid : BitVec 16) (cqe : NvmeCqe) : Exchange β :=
  (s.setCq cqid (s.cqs cqid).taken).setSq cqe.sqid
    ((s.sqs cqe.sqid).answer cqe.cid (nvmeCtrlRqFromCqe s.ctrlSqs cqe))

theorem exchangeStep_getCqe {cqid : BitVec 16} {cqe : NvmeCqe}
    (hget : (nvmeCqGetCqe (s.cqs cqid).cq).1 = some cqe) :
    exchangeStep setup s (.getCqe cqid) = some (s.take cqid cqe) := by
  rw [exchangeStep, hget]
  rfl

theorem ExchangeInv.getCqe (h : ExchangeInv setup s) {cqid : BitVec 16}
    (hstep : exchangeStep setup s (.getCqe cqid) = some s') : ExchangeInv setup s' := by
  obtain ⟨vs, hcq⟩ := h.cqInv cqid
  have htaken : CqInv (s.cqs cqid).taken vs := hcq.getCqe
  cases hget : (nvmeCqGetCqe (s.cqs cqid).cq).1 with
  | none =>
      rw [exchangeStep, hget] at hstep
      obtain rfl := Option.some.inj hstep
      refine h.setCq ⟨vs, htaken⟩ rfl ?_
      rw [CqState.taken, hget, Option.toList_none, List.append_nil]
  | some cqe =>
      rw [exchangeStep_getCqe hget] at hstep
      obtain rfl := Option.some.inj hstep
      obtain ⟨hroute, htakes, hmem, hrq⟩ := h.getCqe_spec hget
      rw [Exchange.take, hrq]
      have hconsume : sqStep (s.sqs cqe.sqid) (.consume cqe.cid) =
          some ((s.sqs cqe.sqid).answer cqe.cid (some cqe.cid.toNat)) := by
        obtain ⟨l, hsq⟩ := h.sqInv cqe.sqid
        have hlt := hsq.toNat_lt_of_inFlight (SqState.mem_inFlight_of_completions hmem)
        rw [sqStep, if_pos hmem, nvmeRqFromCqe, if_neg (by omega)]
        rfl
      refine h.at cqid (h.sqInv_setSq (sqInv_step (h.sqInv _) hconsume)) ?_ ?_ ?_ ?_
        (fun j hj => setCq_cqs_of_ne hj _)
      · rw [setSq_cqs, setCq_cqs_self]
        exact ⟨vs, htaken⟩
      · rw [setSq_cqs, setCq_cqs_self]
        exact h.routed cqid
      · intro i hi
        rw [setSq_cqs, setCq_cqs_self]
        by_cases heq : i = cqe.sqid
        · rw [heq, setSq_sqs_self]
          exact (hroute ▸ h.linked cqe.sqid).take htakes _
        · rw [setSq_sqs_of_ne heq, setCq_sqs]
          exact (hi ▸ h.linked i).take_of_ne htakes (Ne.symm heq)
      · intro i hi
        have hne : i ≠ cqe.sqid := by
          rintro rfl
          exact hi hroute
        rw [setSq_sqs_of_ne hne, setCq_sqs]

theorem exchangeInv_step {op : ExchangeOp β} (h : ExchangeInv setup s)
    (hstep : exchangeStep setup s op = some s') : ExchangeInv setup s' := by
  cases op with
  | submit sqid op => exact h.submit hstep
  | complete sqid cqe => exact h.complete hstep
  | see cqid k =>
      obtain ⟨c, hc, rfl⟩ := Option.map_eq_some_iff.mp hstep
      obtain ⟨hposted, hreturned⟩ := cqStep_see hc
      exact h.setCq (CqInv.step _ (h.cqInv cqid) hc) hposted hreturned
  | getCqe cqid => exact h.getCqe hstep
  | updateHead cqid =>
      rw [exchangeStep] at hstep
      obtain ⟨c, hc, rfl⟩ := Option.map_eq_some_iff.mp hstep
      have hinv := CqInv.step _ (h.cqInv cqid) hc
      obtain rfl := Option.some.inj hc
      exact h.setCq hinv rfl rfl

theorem exchangeInv_init (setup : QueueSetup β) : ExchangeInv setup setup.init where
  sqInv := fun sqid => ⟨_, sqInv_init (setup.two_le_sqsize sqid) (setup.sqsize_le sqid) _ _⟩
  cqInv := fun cqid =>
    ⟨_, cqInv_init (setup.two_le_cqsize cqid) (setup.cqsize_lt cqid) (setup.blank cqid) _⟩
  routed := fun _ _ he => absurd he List.not_mem_nil
  linked := fun _ => ⟨List.Perm.refl _, fun _ => rfl⟩

/-- In every run of the host and the controller over any number of queues: the host has got
as many completions for an identifier as commands with it were submitted, except for one
that is in flight; and every completion that it finds belongs to a command in flight of
the queue that it names, and leads to the tracker of that command. -/
theorem exchange_exactly_once (setup : QueueSetup β) (ops : List (ExchangeOp β)) (s : Exchange β)
    (hrun : run (exchangeStep setup) setup.init ops = some s) :
    (∀ sqid cid,
      (s.sqs sqid).submitted cid =
        (s.cqs (setup.cqOf sqid)).answered sqid cid +
          if cid ∈ (s.sqs sqid).inFlight then 1 else 0) ∧
    ∀ cqid cqe, (nvmeCqGetCqe (s.cqs cqid).cq).1 = some cqe →
      setup.cqOf cqe.sqid = cqid ∧ cqe.cid ∈ (s.sqs cqe.sqid).inFlight ∧
        nvmeCtrlRqFromCqe s.ctrlSqs cqe = some cqe.cid.toNat := by
  have h : ExchangeInv setup s :=
    run_invariant_of_step (fun _ _ _ => exchangeInv_step) (exchangeInv_init setup) hrun
  constructor
  · intro sqid cid
    obtain ⟨l, hsq⟩ := h.sqInv sqid
    have hone := hsq.count_inFlight_le cid
    rw [(h.linked sqid).books cid]
    congr 1
    split_ifs with hmem
    · exact Nat.le_antisymm hone (List.one_le_count_iff.mpr hmem)
    · exact List.count_eq_zero.mpr hmem
  · intro cqid cqe hget
    obtain ⟨hroute, -, hmem, hrq⟩ := h.getCqe_spec hget
    exact ⟨hroute, SqState.mem_inFlight_of_completions hmem, hrq⟩

end System

def sharedSetup : QueueSetup Unit where
  cqOf := fun _ => 1
  sqsize := fun _ => 3
  sqmem := fun _ _ => ⟨0, ()⟩
  eventidx := fun _ => none
  cqsize := fun _ => 2
  cqmem := fun _ _ => ⟨0, 0, 0, 0, 0⟩
  dbbuf := fun _ => none
  two_le_sqsize := fun _ => Nat.le_succ 2
  sqsize_le := fun _ => Nat.le_of_ble_eq_true rfl
  two_le_cqsize := fun _ => le_rfl
  cqsize_lt := fun _ => Nat.le_of_ble_eq_true rfl
  blank := fun _ _ _ => rfl

/-- Two queues submit a command each, with the same identifier, and the second one is
completed and returned. -/
def sharedOps : List (ExchangeOp Unit) :=
  [.submit 1 .acquire, .submit 1 (.post 1 ⟨0, ()⟩), .submit 1 .updateTail,
    .submit 2 .acquire, .submit 2 (.post 1 ⟨0, ()⟩), .submit 2 .updateTail,
    .submit 2 .fetch, .submit 1 .fetch, .complete 2 ⟨0, 0, 0, 1, 0⟩, .getCqe 1]

/-- There is room for one completion. The other one has to wait until the head was seen,
and it is found then. -/
theorem exchange_exactly_once_shared :
    let full : List (ExchangeOp Unit) := sharedOps ++ [.complete 1 ⟨0, 0, 0, 1, 0⟩]
    let seen : List (ExchangeOp Unit) :=
      sharedOps ++ [.updateHead 1, .see 1 1, .complete 1 ⟨0, 0, 0, 1, 0⟩]
    (run (exchangeStep sharedSetup) sharedSetup.init full).isNone ∧
    (run (exchangeStep sharedSetup) sharedSetup.init seen).map (fun s =>
      ((s.cqs 1).returned.map NvmeCqe.sqid, (s.sqs 1).inFlight, (s.sqs 2).consumed,
        (nvmeCqGetCqe (s.cqs 1).cq).1.map NvmeCqe.sqid)) = some ([2], [1], [1], some 1) ∧
    ∀ s, run (exchangeStep sharedSetup) sharedSetup.init seen = some s →
      (∀ sqid cid, (s.sqs sqid).submitted cid =
        (s.cqs 1).answered sqid cid + if cid ∈ (s.sqs sqid).inFlight then 1 else 0) := by
  refine ⟨by decide +kernel, by decide +kernel, fun s hs => ?_⟩
  exact (exchange_exactly_once sharedSetup _ s hs).1

end Nvme

end Libvfn
