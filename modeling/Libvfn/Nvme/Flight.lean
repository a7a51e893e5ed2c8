import Libvfn.Nvme.Exchange
import Libvfn.Nvme.RqMap

/-!
# The data of commands in flight

The host builds a command with a tracker: it acquires the tracker, maps the data, which puts
a list into the page of the tracker, and posts the command. The controller fetches the
command and reads the list at any time until it completes it. In the meantime the host
builds and posts other commands, and anyone writes to memory outside the pages.

A tracker is acquired by one user at a time, and its page is written only when it is
acquired and nothing was posted with it yet. So at every moment the data pointer of every
command in flight names the bytes that it was built for. The map that virtual addresses are
translated with is the one of the moment when the command was built; the pages themselves
stay where they were mapped when the queue was configured.
-/

namespace Libvfn

namespace Nvme

open Word Support Iommu Runs

inductive RqCall where
  | mapPrp (iova len : U64)
  | mapvPrp (first : Iovec) (rest : List Iovec)
  | mapvIovaPrp (first : IovaVec) (rest : List IovaVec)
  | mapvSgl (iov : List Iovec)
  | mapvIovaSgl (iov : List IovaVec)
  | mapv (first : Iovec) (rest : List Iovec)

def RqCall.run (p : RqPages) (mem : U64 → U64) (rq : ℕ) (cmd : NvmeCmd) : RqCall → RqOutcome
  | .mapPrp iova len => p.nvmeRqMapPrp mem rq cmd iova len
  | .mapvPrp first rest => p.nvmeRqMapvPrp mem rq cmd first rest
  | .mapvIovaPrp first rest => p.nvmeRqMapvIovaPrp mem rq cmd first rest
  | .mapvSgl iov => p.nvmeRqMapvSgl mem rq cmd iov
  | .mapvIovaSgl iov => p.nvmeRqMapvIovaSgl mem rq cmd iov
  | .mapv first rest => p.nvmeRqMapv mem rq cmd first rest

/-- The vector can be mapped with descriptors that the controller takes for such. -/
structure SglVector (iov : List IovaVec) : Prop where
  two_le : 2 ≤ iov.length
  len_lt : ∀ v ∈ iov, v.len.toNat < 2 ^ 32

/-- What a call asks for: so many bytes, at these addresses. Virtual addresses are meant to
be the addresses that the first byte of each segment translates to. -/
inductive RqCall.Asks (p : RqPages) : RqCall → ℕ → List U64 → Prop
  | mapPrp (iova len : U64) (hlen : len.toNat < 2 ^ 31) :
      Asks p (.mapPrp iova len) len.toNat (byteRange iova len.toNat)
  | mapvPrp (first : Iovec) (rest : List Iovec) (w : IovaVec) (ws : List IovaVec)
      (hall : List.Forall₂ (Translates p.ctrl.map) (first :: rest) (w :: ws))
      (hvec : PrpVector (2 ^ p.ctrl.pageshift) w ws) :
      Asks p (.mapvPrp first rest) (vecLength (w :: ws)) (vecBytes (w :: ws))
  | mapvIovaPrp (first : IovaVec) (rest : List IovaVec)
      (hvec : PrpVector (2 ^ p.ctrl.pageshift) first rest) :
      Asks p (.mapvIovaPrp first rest) (vecLength (first :: rest)) (vecBytes (first :: rest))
  | mapvSgl (iov : List Iovec) (ws : List IovaVec)
      (hall : List.Forall₂ (Translates p.ctrl.map) iov ws) (hvec : SglVector ws) :
      Asks p (.mapvSgl iov) (vecLength ws) (vecBytes ws)
  | mapvIovaSgl (iov : List IovaVec) (hvec : SglVector iov) :
      Asks p (.mapvIovaSgl iov) (vecLength iov) (vecBytes iov)
  | mapv (first : Iovec) (rest : List Iovec) (w : IovaVec) (ws : List IovaVec)
      (hall : List.Forall₂ (Translates p.ctrl.map) (first :: rest) (w :: ws))
      (hprp : PrpVector (2 ^ p.ctrl.pageshift) w ws) (hsgl : SglVector (w :: ws)) :
      Asks p (.mapv first rest) (vecLength (w :: ws)) (vecBytes (w :: ws))

section Call

variable {p : RqPages} {mem mem' : U64 → U64} {rq n : ℕ} {cmd : NvmeCmd} {call : RqCall}
  {bytes : List U64} {addr : U64}

theorem RqCall.run_outside (call : RqCall)
    (haddr : ∀ i < maxPrpsOf p.ctrl.pageshift, addr ≠ p.slot rq i) :
    (call.run p mem rq cmd).mem addr = mem addr := by
  cases call with
  | mapPrp iova len => exact rqPrp_outside _ haddr
  | mapvPrp first rest => exact rqPrp_outside _ haddr
  | mapvIovaPrp first rest => exact rqPrp_outside _ haddr
  | mapvSgl iov => exact rqSgl_outside _ _ _ haddr
  | mapvIovaSgl iov => exact rqSgl_outside _ _ _ haddr
  | mapv first rest =>
      rw [RqCall.run, RqPages.nvmeRqMapv]
      split_ifs
      · exact rqPrp_outside _ haddr
      · exact rqSgl_outside _ _ _ haddr

/-- A call that succeeds leaves a command that names what was asked for. -/
theorem RqCall.run_names (hrq : rq < p.qsize - 1) (hpsdt : psdt cmd = Psdt.prp.code)
    (hasks : call.Asks p n bytes) (hret : (call.run p mem rq cmd).ret = .ok ()) :
    Names p rq (call.run p mem rq cmd).mem (call.run p mem rq cmd).cmd n bytes := by
  cases hasks with
  | mapPrp iova len hlen => exact nvmeRqMapPrp_names hrq hpsdt hlen hret
  | mapvPrp first rest w ws hall hvec => exact nvmeRqMapvPrp_names hrq hpsdt hall hvec hret
  | mapvIovaPrp first rest hvec => exact nvmeRqMapvIovaPrp_names hrq hpsdt hvec hret
  | mapvSgl iov ws hall hvec =>
      exact nvmeRqMapvSgl_names hpsdt hall hvec.two_le hvec.len_lt hret _
  | mapvIovaSgl iov hvec => exact nvmeRqMapvIovaSgl_names hpsdt hvec.two_le hvec.len_lt hret _
  | mapv first rest w ws hall hprp hsgl =>
      rw [RqCall.run, RqPages.nvmeRqMapv] at hret ⊢
      split_ifs at hret ⊢
      · exact nvmeRqMapvPrp_names hrq hpsdt hall hprp hret
      · exact nvmeRqMapvSgl_names hpsdt hall hsgl.two_le hsgl.len_lt hret _

theorem Names.of_samePage (h : Names p rq mem cmd n bytes) (hsame : SamePage p rq mem mem') :
    Names p rq mem' cmd n bytes := by
  intro mem'' hsame'
  exact h mem'' fun i hi => (hsame' i hi).trans (hsame i hi)

theorem RqCall.run_samePage {rq' : ℕ} (hrq : rq < p.qsize - 1) (hrq' : rq' < p.qsize - 1)
    (hne : rq' ≠ rq) (call : RqCall) : SamePage p rq' mem (call.run p mem rq cmd).mem :=
  fun _ hi => call.run_outside fun _ hj => p.slot_ne hrq' hrq hi hj hne

end Call

/-! ## The system -/

def RqPages.Maps (p : RqPages) : Type :=
  {map : IovaMap //
    TranslatesAll map p.vaddr (BitVec.ofNat 64 (p.qsize * 2 ^ p.ctrl.pageshift)) p.iova}

def RqPages.under (p : RqPages) (m : p.Maps) : RqPages :=
  { p with
    ctrl := { p.ctrl with map := m.1 }
    mapped := m.2 }

/-- A command in memory, the call that it was built by, and the map at that time. -/
structure RqCmd (p : RqPages) where
  cmd : NvmeCmd
  call : RqCall
  map : p.Maps

/-- The queue, the memory, and the command that was built last with each tracker, if the call
has succeeded and the command was not answered yet. -/
structure Flight (p : RqPages) where
  q : SqState (RqCmd p)
  mem : U64 → U64
  built : ℕ → Option (RqCmd p)

def SqOp.isPost {β : Type*} : SqOp β → Bool
  | .post _ _ => true
  | _ => false

def SqOp.forget {β γ : Type*} (built : ℕ → Option γ) : SqOp β → ℕ → Option γ
  | .consume cid => Function.update built cid.toNat none
  | _ => built

inductive FlightOp (p : RqPages) where
  /-- A step of the queue, other than posting a command. -/
  | queue (op : SqOp (RqCmd p))
  /-- The host maps data with a tracker that it has acquired. -/
  | map (m : p.Maps) (rq : ℕ) (cmd : NvmeCmd) (call : RqCall)
  /-- The host posts the command that it has built with a tracker. -/
  | post (rq : ℕ)
  /-- Anyone writes to memory outside the pages of the trackers. -/
  | write (addr v : U64)

def RqOutcome.built {p : RqPages} (out : RqOutcome) (call : RqCall) (m : p.Maps) :
    Option (RqCmd p) :=
  match out.ret with
  | .ok _ => some ⟨out.cmd, call, m⟩
  | .error _ => none

def flightStep (p : RqPages) (s : Flight p) : FlightOp p → Option (Flight p)
  | .queue op =>
      if op.isPost then none
      else (sqStep s.q op).map fun q => { s with q := q, built := op.forget s.built }
  | .map m rq cmd call =>
      if rq ∈ s.q.acquired ∧ psdt cmd = Psdt.prp.code then
        let out := call.run (p.under m) s.mem rq cmd
        some { s with
          mem := out.mem
          built := Function.update s.built rq (out.built call m) }
      else none
  | .post rq =>
      (s.built rq).bind fun b =>
        (sqStep s.q (.post rq ⟨0, b⟩)).map fun q => { s with q := q }
  | .write addr v =>
      if p.qsize * 2 ^ p.ctrl.pageshift ≤ (addr - p.iova).toNat then
        some { s with mem := Function.update s.mem addr v }
      else none

/-- The command with the identifier that was posted last. -/
def SqState.current {β : Type*} (q : SqState β) (cid : BitVec 16) : Option (NvmeSqe β) :=
  (q.posted.map Prod.snd).reverse.find? fun sqe => sqe.cid = cid

section Queue

variable {β : Type*} {q q' : SqState β} {l : List ℕ}

/-- Without a new command, the posted ones are the same, and no more are in flight. -/
theorem SqInv.step_of_not_post (h : SqInv q l) {op : SqOp β} (hpost : op.isPost = false)
    (hstep : sqStep q op = some q') :
    q'.posted = q.posted ∧ q'.sq.qsize = q.sq.qsize ∧ ∀ cid ∈ q'.inFlight, cid ∈ q.inFlight := by
  cases op with
  | acquire =>
      obtain rfl := Option.some.inj hstep
      exact ⟨rfl, rfl, fun _ hcid => hcid⟩
  | post rq cmd => cases hpost
  | updateTail =>
      obtain rfl := Option.some.inj hstep
      refine ⟨rfl, ?_, fun _ hcid => hcid⟩
      rw [nvmeSqUpdateTail]
      split_ifs
      · rfl
      · rfl
  | consume cid =>
      obtain ⟨hmem, ⟨⟩⟩ := Option.ite_none_right_eq_some.mp hstep
      refine ⟨rfl, rfl, fun cid' hcid' => ?_⟩
      exact (SqState.answer_inFlight hmem (nvmeRqFromCqe q.sq cid)).mem_iff.mpr
        (List.mem_cons_of_mem cid hcid')
  | release rq =>
      obtain ⟨-, ⟨⟩⟩ := Option.ite_none_right_eq_some.mp hstep
      exact ⟨rfl, rfl, fun _ hcid => hcid⟩
  | fetch =>
      have hperm := (h.submits_fetch hstep).inFlight
      rw [List.append_nil] at hperm
      by_cases hne : q.head = q.sq.told
      · simp [sqStep, hne] at hstep
      · simp only [sqStep, if_neg hne, Option.some.injEq] at hstep
        subst hstep
        exact ⟨rfl, rfl, fun _ hcid => hperm.mem_iff.mp hcid⟩
  | complete cid =>
      have hperm := (submits_complete hstep).2.inFlight
      rw [List.append_nil] at hperm
      obtain ⟨-, ⟨⟩⟩ := Option.ite_none_right_eq_some.mp hstep
      exact ⟨rfl, rfl, fun _ hcid => hperm.mem_iff.mp hcid⟩
  | storeEventidx eventidx =>
      obtain rfl := Option.some.inj hstep
      exact ⟨rfl, rfl, fun _ hcid => hcid⟩

theorem SqOp.of_forget {γ : Type*} (op : SqOp β) {built : ℕ → Option γ} {rq : ℕ} {b : γ}
    (h : op.forget built rq = some b) : built rq = some b := by
  cases op with
  | consume cid =>
      by_cases heq : rq = cid.toNat
      · rw [SqOp.forget, heq, Function.update_self] at h
        cases h
      · rwa [SqOp.forget, Function.update_of_ne heq] at h
  | _ => exact h

theorem SqInv.nodup_inFlight (h : SqInv q l) : q.inFlight.Nodup :=
  List.nodup_iff_count_le_one.mpr h.count_inFlight_le

theorem SqInv.forget_of_inFlight (h : SqInv q l) {γ : Type*} {op : SqOp β}
    {built : ℕ → Option γ} (hstep : sqStep q op = some q') {cid : BitVec 16}
    (hcid : cid ∈ q'.inFlight) : op.forget built cid.toNat = built cid.toNat := by
  cases op with
  | consume cid' =>
      obtain ⟨hmem, ⟨⟩⟩ := Option.ite_none_right_eq_some.mp hstep
      have hperm := SqState.answer_inFlight hmem (nvmeRqFromCqe q.sq cid')
      have hnodup := List.nodup_cons.mp (hperm.nodup_iff.mp h.nodup_inFlight)
      refine Function.update_of_ne (fun heq => ?_) ..
      exact hnodup.1 (BitVec.eq_of_toNat_eq heq ▸ hcid)
  | _ => rfl

theorem current_of_posted_append {slot : ℕ} {sqe : NvmeSqe β}
    (hposted : q'.posted = q.posted ++ [(slot, sqe)]) (cid : BitVec 16) :
    q'.current cid = if sqe.cid = cid then some sqe else q.current cid := by
  rw [SqState.current, hposted, List.map_append, List.reverse_append]
  split_ifs with hcid
  · exact List.find?_cons_of_pos (decide_eq_true hcid)
  · exact List.find?_cons_of_neg (by simpa using hcid)

/-- A command in the ring is the last one with its identifier. -/
theorem SqInv.current_of_ring (h : SqInv q l) {p : ℕ} (hp : p < q.posted.length)
    (hring : q.fetched.length ≤ p) : q.current q.posted[p].2.cid = some q.posted[p].2 := by
  have hlater : q.posted[p].2.cid ∉ (q.posted.drop (p + 1)).map fun e => e.2.cid := by
    have hnodup := h.nodup_inFlight.of_append_left
    rw [← Nat.add_sub_cancel' hring] at hp
    have hdrop : (q.posted.drop q.fetched.length).drop (p - q.fetched.length) =
        q.posted.drop p := by
      rw [List.drop_drop, Nat.add_sub_cancel' hring]
    have htail := hnodup.sublist ((List.drop_sublist (p - q.fetched.length) _).map _)
    rw [hdrop, List.drop_eq_getElem_cons (Nat.add_sub_cancel' hring ▸ hp), List.map_cons] at htail
    exact (List.nodup_cons.mp htail).1
  have hsplit : q.posted = q.posted.take p ++ q.posted[p] :: q.posted.drop (p + 1) := by
    rw [← List.drop_eq_getElem_cons hp, List.take_append_drop]
  refine List.find?_eq_some_iff_append.mpr ⟨by simp, ((q.posted.drop (p + 1)).map Prod.snd).reverse,
    ((q.posted.take p).map Prod.snd).reverse, ?_, fun sqe hsqe => ?_⟩
  · have hmap := congrArg (fun l => (l.map Prod.snd).reverse) hsplit
    rwa [List.map_append, List.map_cons, List.reverse_append, List.reverse_cons,
      List.append_assoc, List.singleton_append] at hmap
  · have hne : sqe.cid ≠ q.posted[p].2.cid := by
      intro heq
      rw [List.mem_reverse] at hsqe
      obtain ⟨e, he, rfl⟩ := List.mem_map.mp hsqe
      exact hlater (heq ▸ List.mem_map_of_mem he)
    simpa using hne

end Queue

/-! ## The invariant -/

section Invariant

variable {p : RqPages} {s s' : Flight p} {l : List ℕ}

/-- What holds between the steps. Whatever was built with a tracker is in its page, and it is
what was posted last with the tracker, as long as that is in flight. -/
structure FlightInv (p : RqPages) (s : Flight p) (l : List ℕ) : Prop where
  sq : SqInv s.q l
  qsize : s.q.sq.qsize = p.qsize
  named : ∀ rq < p.qsize - 1, ∀ b, s.built rq = some b → ∀ n bytes,
    b.call.Asks (p.under b.map) n bytes → Names p rq s.mem b.cmd n bytes
  current : ∀ cid ∈ s.q.inFlight, ∃ sqe, s.q.current cid = some sqe ∧
    s.built cid.toNat = some sqe.body

theorem FlightInv.lt_of_acquired (h : FlightInv p s l) {rq : ℕ} (hrq : rq ∈ s.q.acquired) :
    rq < p.qsize - 1 := by
  have hout : rq ∈ l ++ s.q.out := by simp [SqState.out, hrq]
  have hlt := h.sq.lt_of_mem hout
  rwa [h.qsize] at hlt

theorem FlightInv.not_acquired (h : FlightInv p s l) {cid : BitVec 16} (hcid : cid ∈ s.q.inFlight) :
    cid.toNat ∉ s.q.acquired := by
  intro hacq
  have hnodup : (l ++ s.q.out).Nodup := h.sq.trackers.nodup_iff.mpr List.nodup_range
  have hout := hnodup.of_append_right
  exact (List.nodup_append'.mp hout).2.2 hacq
    (List.mem_append_left _ (List.mem_map_of_mem hcid))

theorem FlightInv.queue (h : FlightInv p s l) {op : SqOp (RqCmd p)}
    (hstep : flightStep p s (.queue op) = some s') : ∃ l', FlightInv p s' l' := by
  rw [flightStep] at hstep
  obtain ⟨hpost, hstep⟩ := Option.ite_none_left_eq_some.mp hstep
  obtain ⟨q, hq, rfl⟩ := Option.map_eq_some_iff.mp hstep
  obtain ⟨hposted, hqsize, hflight⟩ := h.sq.step_of_not_post (Bool.eq_false_iff.mpr hpost) hq
  obtain ⟨l', hsq⟩ := sqInv_step ⟨l, h.sq⟩ hq
  refine ⟨l', hsq, hqsize.trans h.qsize, ?_, fun cid hcid => ?_⟩
  · exact fun rq hrq b hb => h.named rq hrq b (op.of_forget hb)
  · obtain ⟨sqe, hsqe, hbuilt⟩ := h.current cid (hflight cid hcid)
    refine ⟨sqe, ?_, (h.sq.forget_of_inFlight hq hcid).trans hbuilt⟩
    rw [SqState.current, hposted]
    exact hsqe

theorem FlightInv.map (h : FlightInv p s l) {m : p.Maps} {rq : ℕ} {cmd : NvmeCmd}
    {call : RqCall} (hstep : flightStep p s (.map m rq cmd call) = some s') :
    FlightInv p s' l := by
  obtain ⟨⟨hacq, hpsdt⟩, ⟨⟩⟩ := Option.ite_none_right_eq_some.mp hstep
  have hrq := h.lt_of_acquired hacq
  refine ⟨h.sq, h.qsize, ?_, ?_⟩
  · intro rq' hrq' b hb n bytes hasks
    dsimp only at hb ⊢
    by_cases heq : rq' = rq
    · subst heq
      rw [Function.update_self, RqOutcome.built] at hb
      cases hret : (call.run (p.under m) s.mem rq' cmd).ret with
      | error e =>
          rw [hret] at hb
          cases hb
      | ok u =>
          rw [hret] at hb
          obtain rfl := Option.some.inj hb
          exact RqCall.run_names (p := p.under m) hrq' hpsdt hasks hret
    · rw [Function.update_of_ne heq] at hb
      exact (h.named rq' hrq' b hb n bytes hasks).of_samePage
        (call.run_samePage (p := p.under m) hrq hrq' heq)
  · intro cid hcid
    have hne : cid.toNat ≠ rq := fun heq => h.not_acquired hcid (heq ▸ hacq)
    dsimp only
    rw [Function.update_of_ne hne]
    exact h.current cid hcid

theorem FlightInv.post (h : FlightInv p s l) {rq : ℕ}
    (hstep : flightStep p s (.post rq) = some s') : ∃ l', FlightInv p s' l' := by
  obtain ⟨b, hb, hstep⟩ := Option.bind_eq_some_iff.mp hstep
  obtain ⟨q, hq, rfl⟩ := Option.map_eq_some_iff.mp hstep
  obtain ⟨l', hsq⟩ := sqInv_step ⟨l, h.sq⟩ hq
  have hperm := (h.sq.submits_post hq).inFlight
  obtain ⟨hacq, hpost⟩ := Option.ite_none_right_eq_some.mp hq
  have hcid := h.sq.toNat_cid hacq ⟨0, b⟩
  obtain rfl := Option.some.inj hpost
  refine ⟨l', hsq, ?_, h.named, fun cid hmem => ?_⟩
  · exact (nvmeSqPost_frame s.q.sq _).1.trans h.qsize
  · dsimp only
    rw [current_of_posted_append rfl]
    split_ifs with heq
    · exact ⟨_, rfl, by rw [← heq, hcid]; exact hb⟩
    · refine h.current cid ?_
      rcases List.mem_append.mp (hperm.mem_iff.mp hmem) with hold | hnew
      · exact hold
      · exact absurd (List.mem_singleton.mp hnew).symm heq

theorem FlightInv.write (h : FlightInv p s l) {addr v : U64}
    (hstep : flightStep p s (.write addr v) = some s') : FlightInv p s' l := by
  obtain ⟨houtside, ⟨⟩⟩ := Option.ite_none_right_eq_some.mp hstep
  refine ⟨h.sq, h.qsize, fun rq hrq b hb n bytes hasks => ?_, h.current⟩
  refine (h.named rq hrq b hb n bytes hasks).of_samePage fun i hi => ?_
  refine Function.update_of_ne (fun heq => ?_) ..
  -- the slots of all pages are less than the size of the buffer away from its start
  have hle := p.page_mul_le hrq
  have hslot := p.eight_mul_lt hi
  have hoffset : (p.slot rq i - p.iova).toNat = rq * 2 ^ p.ctrl.pageshift + 8 * i := by
    have hsub := p.toNat_slot hrq hi
    rw [BitVec.toNat_sub_of_le (BitVec.le_def.mpr (by omega))]
    omega
  rw [← heq, hoffset] at houtside
  omega

theorem flightInv_step {op : FlightOp p} (h : ∃ l, FlightInv p s l)
    (hstep : flightStep p s op = some s') : ∃ l, FlightInv p s' l := by
  obtain ⟨l, h⟩ := h
  cases op with
  | queue op => exact h.queue hstep
  | map m rq cmd call => exact ⟨l, h.map hstep⟩
  | post rq => exact h.post hstep
  | write addr v => exact ⟨l, h.write hstep⟩

/-- The command that the controller fetches is the last one with its identifier. -/
theorem FlightInv.fetch (h : FlightInv p s l)
    (hstep : flightStep p s (.queue .fetch) = some s') :
    ∃ sqe, s'.q.fetched = s.q.fetched ++ [sqe] ∧ sqe.cid ∈ s.q.inFlight ∧
      s.q.current sqe.cid = some sqe := by
  obtain ⟨q, hq, rfl⟩ := Option.map_eq_some_iff.mp hstep
  by_cases hne : s.q.head = s.q.sq.told
  · simp [sqStep, hne] at hq
  · simp only [sqStep, if_neg hne, Option.some.injEq] at hq
    subst hq
    obtain ⟨hlt, -, hsqe⟩ := h.sq.fetch_eq hne
    refine ⟨_, rfl, ?_⟩
    rw [hsqe]
    refine ⟨?_, h.sq.current_of_ring hlt le_rfl⟩
    refine List.mem_append_left _ (List.mem_map.mpr ⟨s.q.posted[s.q.fetched.length], ?_, rfl⟩)
    rw [List.drop_eq_getElem_cons hlt]
    exact List.mem_cons_self

end Invariant

end Nvme

end Libvfn
