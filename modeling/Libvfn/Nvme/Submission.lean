import Libvfn.Foundation.Ring
import Libvfn.Nvme.Queue
import Libvfn.Nvme.RqStack

/-!
# No command is overwritten before it was fetched

Nothing in the submission path asks whether the ring is full. A command is posted with
a tracker, though, the tracker is put back only after its completion was consumed, and
there is one tracker less than there are slots. So the commands that were posted and
not fetched are always fewer than the slots.

The invariant follows every tracker. It is on the stack, it was acquired and nothing
was posted with it, its command is in the ring, or executed by the controller, or its
completion is on the way or was consumed. The slots are counted in positions that do
not wrap around, as for completions.
-/

namespace Libvfn

namespace Nvme

open Pointers Runs

def nvmeRqPrepCmd {β : Type*} (rq : ℕ) (cmd : NvmeSqe β) : NvmeSqe β :=
  { cmd with cid := BitVec.ofNat 16 rq }

def nvmeRqPost {β : Type*} (sq : NvmeSq β) (rq : ℕ) (cmd : NvmeSqe β) : NvmeSq β :=
  nvmeSqPost sq (nvmeRqPrepCmd rq cmd)

def nvmeRqFromCqe {β : Type*} (sq : NvmeSq β) (cid : BitVec 16) : Option ℕ :=
  if sq.qsize - 1 < cid.toNat then none else some cid.toNat

/-- The tail that the host has told the controller. -/
def NvmeSq.told {β : Type*} (sq : NvmeSq β) : BitVec 16 := doorbellIndex sq.doorbell sq.dbbuf

/-- The queue and its trackers; what the host has done with the trackers it acquired;
and the controller, which has the index of the next slot to fetch. All commands that
were posted are recorded with their slot, and `rung` of them had been posted when the
doorbell was written last. -/
structure SqState (β : Type*) where
  sq : NvmeSq β
  rqs : Rqs
  acquired : List ℕ
  posted : List (ℕ × NvmeSqe β)
  rung : ℕ
  head : BitVec 16
  fetched : List (NvmeSqe β)
  executing : List (BitVec 16)
  completions : List (BitVec 16)
  consumed : List ℕ

inductive SqOp (β : Type*) where
  | acquire
  | post (rq : ℕ) (cmd : NvmeSqe β)
  | updateTail
  /-- The host consumes a completion. -/
  | consume (cid : BitVec 16)
  | release (rq : ℕ)
  | fetch
  /-- The controller completes a command that it has fetched. -/
  | complete (cid : BitVec 16)
  | storeEventidx (eventidx : BitVec 32)

section Step

variable {β : Type*}

def sqStep (s : SqState β) : SqOp β → Option (SqState β)
  | .acquire =>
      let r := nvmeRqAcquire s.rqs
      some { s with rqs := r.2, acquired := r.1.toList ++ s.acquired }
  | .post rq cmd =>
      if rq ∈ s.acquired then
        some { s with
          sq := nvmeRqPost s.sq rq cmd
          acquired := s.acquired.erase rq
          posted := s.posted ++ [(s.sq.tail.toNat, nvmeRqPrepCmd rq cmd)] }
      else none
  | .updateTail =>
      some { s with
        sq := nvmeSqUpdateTail s.sq
        rung := if s.sq.tail = s.sq.ptail then s.rung else s.posted.length }
  | .consume cid =>
      if cid ∈ s.completions then
        some { s with
          completions := s.completions.erase cid
          consumed := (nvmeRqFromCqe s.sq cid).toList ++ s.consumed }
      else none
  | .release rq =>
      if rq ∈ s.consumed then
        some { s with rqs := nvmeRqRelease s.rqs rq, consumed := s.consumed.erase rq }
      else none
  | .fetch =>
      if s.head = s.sq.told then none
      else
        let sqe := s.sq.mem s.head.toNat
        some { s with
          head := BitVec.ofNat 16 ((s.head.toNat + 1) % s.sq.qsize)
          fetched := s.fetched ++ [sqe]
          executing := sqe.cid :: s.executing }
  | .complete cid =>
      if cid ∈ s.executing then
        some { s with
          executing := s.executing.erase cid
          completions := cid :: s.completions }
      else none
  | .storeEventidx eventidx =>
      some { s with
        sq := { s.sq with
          dbbuf := s.sq.dbbuf.map fun db => { db with eventidx := eventidx } } }

def sqInit (qsize : ℕ) (mem : ℕ → NvmeSqe β) (eventidx : Option (BitVec 32)) : SqState β where
  sq := nvmeConfigureSq qsize mem (eventidx.map fun e => ⟨0, e⟩)
  rqs := nvmeConfigureSqRqs qsize
  acquired := []
  posted := []
  rung := 0
  head := 0
  fetched := []
  executing := []
  completions := []
  consumed := []

end Step

/-! ## Where the trackers are -/

section Invariant

variable {β : Type*} {s s' : SqState β} {l : List ℕ}

/-- The identifiers of the commands in the ring, in execution, and completed. -/
def SqState.inFlight (s : SqState β) : List (BitVec 16) :=
  (s.posted.drop s.fetched.length).map (fun e => e.2.cid) ++ (s.executing ++ s.completions)

def SqState.out (s : SqState β) : List ℕ :=
  s.acquired ++ (s.inFlight.map BitVec.toNat ++ s.consumed)

/-- What holds between the steps, with the trackers `l` on the stack. -/
structure SqInv (s : SqState β) (l : List ℕ) : Prop where
  two_le : 2 ≤ s.sq.qsize
  qsize_le : s.sq.qsize ≤ 2 ^ 16
  chained : Chained s.rqs.rqNext s.rqs.rqTop l
  trackers : (l ++ s.out).Perm (List.range (s.sq.qsize - 1))
  written : Ring.Written s.sq.mem (s.posted.map Prod.snd) s.sq.qsize
  slots : ∀ (p : ℕ) (hp : p < s.posted.length), s.posted[p].1 = p % s.sq.qsize
  tail : s.sq.tail = BitVec.ofNat 16 (s.posted.length % s.sq.qsize)
  ptail : s.sq.ptail = BitVec.ofNat 16 (s.rung % s.sq.qsize)
  told : s.sq.told = BitVec.ofNat 16 (s.rung % s.sq.qsize)
  head : s.head = BitVec.ofNat 16 (s.fetched.length % s.sq.qsize)
  fetched_le : s.fetched.length ≤ s.rung
  rung_le : s.rung ≤ s.posted.length
  inOrder : s.fetched <+: s.posted.map Prod.snd

theorem SqInv.qsize_pos (h : SqInv s l) : 0 < s.sq.qsize :=
  Nat.lt_of_lt_of_le Nat.zero_lt_two h.two_le

theorem SqInv.lt_of_mem (h : SqInv s l) {rq : ℕ} (hrq : rq ∈ l ++ s.out) :
    rq < s.sq.qsize - 1 :=
  List.mem_range.mp (h.trackers.mem_iff.mp hrq)

theorem SqInv.unfetched_lt (h : SqInv s l) :
    s.acquired.length + s.posted.length < s.fetched.length + s.sq.qsize := by
  have hlen := h.trackers.length_eq
  have htwo := h.two_le
  simp only [SqState.out, SqState.inFlight, List.length_append, List.length_map,
    List.length_drop, List.length_range] at hlen
  omega

theorem toNat_ofNat_mod {q : ℕ} (hpos : 0 < q) (hq : q ≤ 2 ^ 16) (n : ℕ) :
    (BitVec.ofNat 16 (n % q)).toNat = n % q := by
  have hlt := Nat.mod_lt n hpos
  rw [BitVec.toNat_ofNat, Nat.mod_eq_of_lt (by omega)]

theorem ofNat_mod_ne {q p n : ℕ} (hpos : 0 < q) (hq : q ≤ 2 ^ 16) (hp : p < n)
    (hn : n < p + q) : BitVec.ofNat 16 (p % q) ≠ BitVec.ofNat 16 (n % q) := by
  intro heq
  have hnat := congrArg BitVec.toNat heq
  rw [toNat_ofNat_mod hpos hq, toNat_ofNat_mod hpos hq] at hnat
  exact Ring.mod_ne_mod hp hn hnat

/-! ## The host -/

/-- Posting moves the tail to the next slot, also in a queue whose size has no sixteen
bits. -/
theorem nvmeSqPost_tail {sq : NvmeSq β} {n : ℕ} (hpos : 0 < sq.qsize)
    (hq : sq.qsize ≤ 2 ^ 16) (htail : sq.tail = BitVec.ofNat 16 (n % sq.qsize))
    (sqe : NvmeSqe β) :
    (nvmeSqPost sq sqe).tail = BitVec.ofNat 16 ((n + 1) % sq.qsize) := by
  have hnat := Ring.next_index (x := sq.tail) hpos hq
    (by rw [htail, toNat_ofNat_mod hpos hq])
  rw [nvmeSqPost_eq]
  dsimp only
  rw [← hnat, BitVec.ofNat_toNat, BitVec.setWidth_eq]

theorem nvmeSqPost_mem (sq : NvmeSq β) (sqe : NvmeSqe β) :
    (nvmeSqPost sq sqe).mem = Function.update sq.mem sq.tail.toNat sqe := by
  rw [nvmeSqPost_eq]

theorem nvmeSqPost_frame (sq : NvmeSq β) (sqe : NvmeSqe β) :
    (nvmeSqPost sq sqe).qsize = sq.qsize ∧ (nvmeSqPost sq sqe).ptail = sq.ptail ∧
      (nvmeSqPost sq sqe).told = sq.told := by
  rw [nvmeSqPost_eq]
  exact ⟨rfl, rfl, rfl⟩

theorem nvmeSqUpdateTail_told {sq : NvmeSq β} (h : sq.tail ≠ sq.ptail) :
    (nvmeSqUpdateTail sq).told = sq.tail := by
  rw [nvmeSqUpdateTail, if_neg h]
  exact doorbellIndex_nvmeTryDbbuf sq.tail sq.doorbell sq.dbbuf

theorem SqInv.toNat_tail (h : SqInv s l) :
    s.sq.tail.toNat = s.posted.length % s.sq.qsize := by
  rw [h.tail, toNat_ofNat_mod h.qsize_pos h.qsize_le]

theorem erase_append_cons_perm {α : Type*} [DecidableEq α] {a : α} {xs : List α} (ha : a ∈ xs)
    (ys : List α) : (xs.erase a ++ a :: ys).Perm (xs ++ ys) :=
  List.perm_middle.trans ((List.perm_cons_erase ha).symm.append_right ys)

theorem SqInv.acquire (h : SqInv s l) (hstep : sqStep s .acquire = some s') :
    ∃ l', SqInv s' l' := by
  obtain rfl := Option.some.inj hstep
  cases l with
  | nil =>
      have hacq := nvmeRqAcquire_of_nil h.chained
      refine ⟨[], { h with chained := ?_, trackers := ?_ }⟩
      · rw [hacq]
        exact h.chained
      · rw [hacq]
        exact h.trackers
  | cons rq l =>
      obtain ⟨hacq, hrest⟩ := nvmeRqAcquire_of_cons h.chained
      refine ⟨l, { h with chained := ?_, trackers := ?_ }⟩
      · rw [hacq]
        exact hrest
      · rw [hacq]
        exact List.perm_middle.trans h.trackers

theorem SqInv.release (h : SqInv s l) {rq : ℕ} (hstep : sqStep s (.release rq) = some s') :
    ∃ l', SqInv s' l' := by
  obtain ⟨hmem, ⟨⟩⟩ := Option.ite_none_right_eq_some.mp hstep
  have hnd : (l ++ s.out).Nodup := h.trackers.nodup_iff.mpr List.nodup_range
  have hout : rq ∈ s.out := by simp [SqState.out, hmem]
  have hrq : rq ∉ l := fun hl => (List.nodup_append'.mp hnd).2.2 hl hout
  refine ⟨rq :: l, { h with chained := ?_, trackers := ?_ }⟩
  · exact chained_nvmeRqRelease h.chained hrq
  · refine List.Perm.trans ?_ h.trackers
    have hcons := (List.perm_cons_erase hmem).symm
    have hmove : (rq :: (l ++ (s.acquired ++ (s.inFlight.map BitVec.toNat ++
        s.consumed.erase rq)))).Perm
        (l ++ (s.acquired ++ (s.inFlight.map BitVec.toNat ++ rq :: s.consumed.erase rq))) := by
      simp only [← List.append_assoc]
      exact List.perm_middle.symm
    refine hmove.trans ?_
    exact ((hcons.append_left _).append_left _).append_left _

theorem SqInv.consume (h : SqInv s l) {cid : BitVec 16}
    (hstep : sqStep s (.consume cid) = some s') : ∃ l', SqInv s' l' := by
  obtain ⟨hmem, ⟨⟩⟩ := Option.ite_none_right_eq_some.mp hstep
  have hflight : cid ∈ s.inFlight := by simp [SqState.inFlight, hmem]
  have hlt : cid.toNat < s.sq.qsize - 1 :=
    h.lt_of_mem (by simp [SqState.out, List.mem_map_of_mem hflight])
  have hrq : nvmeRqFromCqe s.sq cid = some cid.toNat := if_neg (by omega)
  refine ⟨l, { h with trackers := ?_ }⟩
  refine List.Perm.trans ((List.Perm.append_left _ ?_).append_left _) h.trackers
  have hperm := ((erase_append_cons_perm hmem []).append_left
    ((s.posted.drop s.fetched.length).map (fun e => e.2.cid) ++ s.executing)).map BitVec.toNat
  rw [hrq]
  simpa [SqState.inFlight] using hperm.append_right s.consumed

theorem SqInv.complete (h : SqInv s l) {cid : BitVec 16}
    (hstep : sqStep s (.complete cid) = some s') : ∃ l', SqInv s' l' := by
  obtain ⟨hmem, ⟨⟩⟩ := Option.ite_none_right_eq_some.mp hstep
  refine ⟨l, { h with trackers := ?_ }⟩
  have hperm := erase_append_cons_perm hmem s.completions
  exact ((((hperm.append_left _).map _).append_right _).append_left _).append_left _ |>.trans
    h.trackers

theorem SqInv.toNat_cid (h : SqInv s l) {rq : ℕ} (hmem : rq ∈ s.acquired) (cmd : NvmeSqe β) :
    (nvmeRqPrepCmd rq cmd).cid.toNat = rq := by
  have hlt : rq < s.sq.qsize - 1 := h.lt_of_mem (by simp [SqState.out, hmem])
  have hle := h.qsize_le
  rw [nvmeRqPrepCmd, BitVec.toNat_ofNat, Nat.mod_eq_of_lt (by omega)]

/-- A tracker that is posted with goes from the host's hands into the ring. -/
theorem SqInv.out_of_post (h : SqInv s l) {rq : ℕ} {cmd : NvmeSqe β}
    (hstep : sqStep s (.post rq cmd) = some s') : s'.out.Perm s.out := by
  obtain ⟨hmem, ⟨⟩⟩ := Option.ite_none_right_eq_some.mp hstep
  have hdrop : s.fetched.length ≤ s.posted.length := h.fetched_le.trans h.rung_le
  simp only [SqState.out, SqState.inFlight, List.drop_append_of_le_length hdrop,
    List.map_append, List.map_cons, List.map_nil, h.toNat_cid hmem, List.append_assoc]
  rw [← List.append_assoc (s.acquired.erase rq), List.singleton_append]
  refine List.perm_middle.trans ?_
  rw [← List.cons_append, ← List.append_assoc s.acquired]
  exact ((List.perm_cons_erase hmem).symm.append_right _).append_right _

theorem SqInv.post (h : SqInv s l) {rq : ℕ} {cmd : NvmeSqe β}
    (hstep : sqStep s (.post rq cmd) = some s') : ∃ l', SqInv s' l' := by
  have hout := h.out_of_post hstep
  obtain ⟨hmem, ⟨⟩⟩ := Option.ite_none_right_eq_some.mp hstep
  obtain ⟨hqsize, hptail, htold⟩ := nvmeSqPost_frame s.sq (nvmeRqPrepCmd rq cmd)
  refine ⟨l, ?_⟩
  constructor
  case two_le => exact hqsize.symm ▸ h.two_le
  case qsize_le => exact hqsize.symm ▸ h.qsize_le
  case chained => exact h.chained
  case trackers =>
    dsimp only [nvmeRqPost]
    rw [hqsize]
    exact (hout.append_left l).trans h.trackers
  case written =>
    dsimp only [nvmeRqPost]
    rw [hqsize, nvmeSqPost_mem, h.toNat_tail, List.map_append, ← s.posted.length_map]
    exact h.written.push _
  case slots =>
    intro p hp
    dsimp only [nvmeRqPost] at hp ⊢
    rw [hqsize]
    rw [List.length_append, List.length_singleton] at hp
    rcases Nat.lt_succ_iff_lt_or_eq.mp hp with hlt | rfl
    · rw [List.getElem_append_left hlt]
      exact h.slots p hlt
    · rw [List.getElem_concat_length rfl]
      exact h.toNat_tail
  case tail =>
    dsimp only [nvmeRqPost]
    rw [hqsize, List.length_append, List.length_singleton]
    exact nvmeSqPost_tail h.qsize_pos h.qsize_le h.tail _
  case ptail =>
    dsimp only [nvmeRqPost]
    rw [hqsize, hptail]
    exact h.ptail
  case told =>
    dsimp only [nvmeRqPost]
    rw [hqsize, htold]
    exact h.told
  case head =>
    dsimp only [nvmeRqPost]
    rw [hqsize]
    exact h.head
  case fetched_le => exact h.fetched_le
  case rung_le =>
    dsimp only
    rw [List.length_append]
    exact h.rung_le.trans (Nat.le_add_right _ _)
  case inOrder =>
    dsimp only
    rw [List.map_append]
    exact h.inOrder.trans (List.prefix_append _ _)

theorem SqInv.updateTail (h : SqInv s l) (hstep : sqStep s .updateTail = some s') :
    ∃ l', SqInv s' l' := by
  obtain rfl := Option.some.inj hstep
  by_cases hsame : s.sq.tail = s.sq.ptail
  · simp only [nvmeSqUpdateTail, if_pos hsame]
    exact ⟨l, h⟩
  · have htold := nvmeSqUpdateTail_told hsame
    simp only [nvmeSqUpdateTail, if_neg hsame] at htold ⊢
    exact ⟨l, { h with
      ptail := h.tail
      told := htold.trans h.tail
      fetched_le := h.fetched_le.trans h.rung_le
      rung_le := le_rfl }⟩

/-! ## The controller -/

theorem SqInv.fetch_eq (h : SqInv s l) (hne : s.head ≠ s.sq.told) :
    ∃ hlt : s.fetched.length < s.posted.length,
      s.fetched.length < s.rung ∧ s.sq.mem s.head.toNat = s.posted[s.fetched.length].2 := by
  have hrung : s.fetched.length < s.rung := by
    refine lt_of_le_of_ne h.fetched_le fun heq => hne ?_
    rw [h.head, h.told, heq]
  have hlt := lt_of_lt_of_le hrung h.rung_le
  refine ⟨hlt, hrung, ?_⟩
  have hlap := h.unfetched_lt
  have hmem := h.written s.fetched.length (by rwa [List.length_map])
    (by rw [List.length_map]; omega)
  rw [h.head, toNat_ofNat_mod h.qsize_pos h.qsize_le, hmem, List.getElem_map]

theorem SqInv.fetch (h : SqInv s l) (hstep : sqStep s .fetch = some s') :
    ∃ l', SqInv s' l' := by
  by_cases hne : s.head = s.sq.told
  · simp [sqStep, hne] at hstep
  · simp only [sqStep, if_neg hne, Option.some.injEq] at hstep
    subst hstep
    obtain ⟨hlt, hrung, hsqe⟩ := h.fetch_eq hne
    have hdrop := List.drop_eq_getElem_cons hlt
    refine ⟨l, { h with trackers := ?_, head := ?_, fetched_le := ?_, inOrder := ?_ }⟩
    · refine List.Perm.trans (List.Perm.append_left _ ?_) h.trackers
      simp only [SqState.out, SqState.inFlight, List.length_append, List.length_singleton, hsqe]
      rw [hdrop, List.map_cons]
      refine ((List.Perm.map _ ?_).append_right _).append_left _
      exact List.perm_middle
    · dsimp only
      rw [List.length_append, List.length_singleton, h.head,
        toNat_ofNat_mod h.qsize_pos h.qsize_le, Nat.mod_add_mod]
    · dsimp only
      rw [List.length_append, List.length_singleton]
      exact hrung
    · dsimp only
      have hlen : s.fetched.length < (s.posted.map Prod.snd).length := by rwa [List.length_map]
      rw [hsqe, ← List.getElem_map Prod.snd]
      exact Ring.prefix_concat_getElem h.inOrder hlen

theorem SqInv.storeEventidx (h : SqInv s l) {eventidx : BitVec 32}
    (hstep : sqStep s (.storeEventidx eventidx) = some s') : ∃ l', SqInv s' l' := by
  obtain rfl := Option.some.inj hstep
  refine ⟨l, { h with told := ?_ }⟩
  have htold := h.told
  unfold NvmeSq.told doorbellIndex at htold ⊢
  cases hdb : s.sq.dbbuf with
  | none =>
      rw [hdb] at htold
      exact htold
  | some db =>
      rw [hdb] at htold
      exact htold

theorem sqInv_step {op : SqOp β} (h : ∃ l, SqInv s l) (hstep : sqStep s op = some s') :
    ∃ l, SqInv s' l := by
  obtain ⟨l, h⟩ := h
  cases op with
  | acquire => exact h.acquire hstep
  | post rq cmd => exact h.post hstep
  | updateTail => exact h.updateTail hstep
  | consume cid => exact h.consume hstep
  | release rq => exact h.release hstep
  | fetch => exact h.fetch hstep
  | complete cid => exact h.complete hstep
  | storeEventidx eventidx => exact h.storeEventidx hstep

theorem sqInv_init {qsize : ℕ} (htwo : 2 ≤ qsize) (hqsize : qsize ≤ 2 ^ 16)
    (mem : ℕ → NvmeSqe β) (eventidx : Option (BitVec 32)) :
    SqInv (sqInit qsize mem eventidx) (List.range (qsize - 1)).reverse := by
  constructor
  case two_le => exact htwo
  case qsize_le => exact hqsize
  case chained => exact chained_nvmeConfigureSqRqs htwo
  case trackers =>
    rw [show (sqInit qsize mem eventidx).out = [] from rfl, List.append_nil]
    exact List.reverse_perm _
  case written => exact fun p hp => absurd hp (Nat.not_lt_zero p)
  case slots => exact fun p hp => absurd hp (Nat.not_lt_zero p)
  case tail => exact (congrArg (BitVec.ofNat 16) (Nat.zero_mod qsize)).symm
  case ptail => exact (congrArg (BitVec.ofNat 16) (Nat.zero_mod qsize)).symm
  case told =>
    rw [show (sqInit qsize mem eventidx).rung = 0 from rfl, Nat.zero_mod]
    cases eventidx with
    | none => rfl
    | some e => rfl
  case head => exact (congrArg (BitVec.ofNat 16) (Nat.zero_mod qsize)).symm
  case fetched_le => exact le_rfl
  case rung_le => exact le_rfl
  case inOrder => exact List.nil_prefix

/-- In every queue that `__nvme_configure_sq` sets up, and over every run of the host and
the controller: when a command is posted, every command that was posted to the same slot
has been fetched; the tail differs from the one that was told last if anything was
posted since; and what the controller fetches is what was posted, in order. -/
theorem sq_slot_fetched {qsize : ℕ} (htwo : 2 ≤ qsize) (hqsize : qsize ≤ 65536)
    (mem : ℕ → NvmeSqe β) (eventidx : Option (BitVec 32)) (ops : List (SqOp β))
    (hrun : run sqStep (sqInit qsize mem eventidx) ops = some s) :
    (∀ rq cmd s', sqStep s (.post rq cmd) = some s' →
      ∀ (p : ℕ) (hp : p < s.posted.length),
        s.posted[p].1 = s.sq.tail.toNat → p < s.fetched.length) ∧
      (s.rung < s.posted.length → s.sq.tail ≠ s.sq.ptail) ∧
      s.fetched <+: s.posted.map Prod.snd := by
  obtain ⟨l, h⟩ := run_invariant_of_step (fun _ _ _ => sqInv_step)
    ⟨_, sqInv_init htwo hqsize mem eventidx⟩ hrun
  have hlap := h.unfetched_lt
  refine ⟨?_, ?_, h.inOrder⟩
  · intro rq cmd s' hstep p hp hslot
    obtain ⟨hmem, -⟩ := Option.ite_none_right_eq_some.mp hstep
    have hacq := List.length_pos_of_mem hmem
    rw [h.slots p hp, h.toNat_tail] at hslot
    by_contra hnot
    exact Ring.mod_ne_mod hp (by omega) hslot
  · intro hrung
    have hfetched := h.fetched_le
    rw [h.tail, h.ptail]
    exact (ofNat_mod_ne h.qsize_pos h.qsize_le hrung (by omega)).symm

end Invariant

/-- In a queue of two slots the third command goes where the first one was. -/
theorem sq_slot_fetched_two_slots :
    let once : List (SqOp Unit) :=
      [.acquire, .post 0 ⟨0, ()⟩, .updateTail, .fetch, .complete 0, .consume 0, .release 0]
    let next : SqOp Unit := .post 0 ⟨0, ()⟩
    ∃ s s', run sqStep (sqInit 2 (fun _ => ⟨0, ()⟩) none) (once ++ once ++ [.acquire]) = some s ∧
      sqStep s next = some s' ∧ s.sq.tail = 0 ∧ s.posted[0]?.map Prod.fst = some 0 ∧
      0 < s.fetched.length := by
  intro once next
  have htwo : 2 ≤ 2 := le_rfl
  refine ⟨_, _, rfl, rfl, rfl, rfl, ?_⟩
  exact (sq_slot_fetched htwo (by decide) (fun _ => ⟨0, ()⟩) none
    (once ++ once ++ [.acquire]) rfl).1 0 ⟨0, ()⟩ _ rfl 0 (by decide) rfl

end Nvme

end Libvfn
