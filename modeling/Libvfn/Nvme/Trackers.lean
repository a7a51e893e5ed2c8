import Libvfn.Nvme.Submission
import Libvfn.Support.Align

/-!
# The trackers of a queue

`__nvme_configure_sq` allocates one tracker less than the queue has entries and puts them
on the stack. As long as one thread uses the queue, the trackers on the stack and those
that were acquired are all trackers, and none is in both places or twice in one. This is
so for any mix of the plain and the atomic functions: without another thread an exchange
succeeds, and the atomic functions do what the plain ones do.

A completion names its tracker by the command identifier, which the device has sent.
`nvme_rq_from_cqe` compares it with the number of entries instead of the number of
trackers, so that one identifier too many is accepted.
-/

namespace Libvfn

namespace Nvme

open Pointers Runs Support

/-! ## The atomic functions -/

/-- `atomic_cmpxchg` on the top of the stack: whether it has succeeded, the value it has
found, and the stack. -/
def atomicCmpxchg (rqs : Rqs) (expected desired : Option ℕ) : Bool × Option ℕ × Rqs :=
  if rqs.rqTop = expected then (true, expected, { rqs with rqTop := desired })
  else (false, rqs.rqTop, rqs)

/-- The loop of `nvme_rq_acquire_atomic`, with the value that the top is expected to have.
It has no result when its turns are used up. -/
def acquireLoop : ℕ → Option ℕ → Rqs → Option (Option ℕ × Rqs)
  | 0, _, _ => none
  | _ + 1, none, rqs => some (none, rqs)
  | fuel + 1, some rq, rqs =>
      let r := atomicCmpxchg rqs (some rq) (rqs.rqNext rq)
      if r.1 then some (some rq, r.2.2) else acquireLoop fuel r.2.1 r.2.2

def nvmeRqAcquireAtomic (fuel : ℕ) (rqs : Rqs) : Option (Option ℕ × Rqs) :=
  acquireLoop fuel rqs.rqTop rqs

/-- The loop of `nvme_rq_release_atomic`. The value that the top is expected to have is
kept in `rq_next` of the tracker. -/
def releaseLoop : ℕ → Rqs → ℕ → Option Rqs
  | 0, _, _ => none
  | fuel + 1, rqs, rq =>
      let r := atomicCmpxchg rqs (rqs.rqNext rq) (some rq)
      if r.1 then some r.2.2
      else releaseLoop fuel { rqs with rqNext := Function.update rqs.rqNext rq r.2.1 } rq

def nvmeRqReleaseAtomic (fuel : ℕ) (rqs : Rqs) (rq : ℕ) : Option Rqs :=
  releaseLoop fuel { rqs with rqNext := Function.update rqs.rqNext rq rqs.rqTop } rq

theorem nvmeRqAcquireAtomic_eq (fuel : ℕ) (rqs : Rqs) :
    nvmeRqAcquireAtomic (fuel + 1) rqs = some (nvmeRqAcquire rqs) := by
  rw [nvmeRqAcquireAtomic, nvmeRqAcquire]
  cases htop : rqs.rqTop with
  | none => rfl
  | some rq => simp [acquireLoop, atomicCmpxchg, htop]

theorem nvmeRqReleaseAtomic_eq (fuel : ℕ) (rqs : Rqs) (rq : ℕ) :
    nvmeRqReleaseAtomic (fuel + 1) rqs rq = some (nvmeRqRelease rqs rq) := by
  simp [nvmeRqReleaseAtomic, releaseLoop, atomicCmpxchg, nvmeRqRelease]

/-! ## Runs of one thread -/

/-- What the functions that acquire a tracker return: without one, `NULL` with an error. -/
def orBusy : Option ℕ → Except Errno ℕ
  | none => .error .EBUSY
  | some rq => .ok rq

structure Trackers where
  rqs : Rqs
  held : List ℕ

inductive TrackerCall where
  | acquire
  | acquireAtomic
  | release (rq : ℕ)
  | releaseAtomic (rq : ℕ)

def Trackers.take (s : Trackers) (r : Option ℕ × Rqs) : Trackers := ⟨r.2, r.1.toList ++ s.held⟩

def trackerStep (fuel : ℕ) (s : Trackers) : TrackerCall → Option Trackers
  | .acquire => some (s.take (nvmeRqAcquire s.rqs))
  | .acquireAtomic => (nvmeRqAcquireAtomic fuel s.rqs).map s.take
  | .release rq =>
      if rq ∈ s.held then some ⟨nvmeRqRelease s.rqs rq, s.held.erase rq⟩ else none
  | .releaseAtomic rq =>
      if rq ∈ s.held then
        (nvmeRqReleaseAtomic fuel s.rqs rq).map fun rqs => ⟨rqs, s.held.erase rq⟩
      else none

def trackersInit (qsize : ℕ) : Trackers := ⟨nvmeConfigureSqRqs qsize, []⟩

def rqCid (rq : ℕ) : BitVec 16 := BitVec.ofNat 16 rq

/-- The trackers on the stack and those that are held are all trackers, each once. Those
that are held have different identifiers, and a tracker is acquired unless all are held. -/
structure TrackersExact (qsize : ℕ) (s : Trackers) : Prop where
  partition : ∃ l, Chained s.rqs.rqNext s.rqs.rqTop l ∧ l.Nodup ∧
    (l ++ s.held).Perm (List.range (qsize - 1))
  cids : (s.held.map rqCid).Nodup
  busy : orBusy (nvmeRqAcquire s.rqs).1 = .error .EBUSY ↔ ∀ rq < qsize - 1, rq ∈ s.held
  busyAtomic : ∀ fuel, (nvmeRqAcquireAtomic (fuel + 1) s.rqs).map (fun r => orBusy r.1) =
    some (.error .EBUSY) ↔ ∀ rq < qsize - 1, rq ∈ s.held

inductive TrackerMoves (s : Trackers) : Trackers → Prop
  | take : TrackerMoves s (s.take (nvmeRqAcquire s.rqs))
  | put (rq : ℕ) (hheld : rq ∈ s.held) :
      TrackerMoves s ⟨nvmeRqRelease s.rqs rq, s.held.erase rq⟩

section Runs

variable {s s' : Trackers} {l : List ℕ} {n fuel : ℕ}

theorem trackerStep_moves {call : TrackerCall} (h : trackerStep (fuel + 1) s call = some s') :
    TrackerMoves s s' := by
  cases call with
  | acquire =>
      obtain rfl := Option.some.inj h
      exact .take
  | acquireAtomic =>
      rw [trackerStep, nvmeRqAcquireAtomic_eq] at h
      obtain rfl := Option.some.inj h
      exact .take
  | release rq =>
      obtain ⟨hheld, ⟨⟩⟩ := Option.ite_none_right_eq_some.mp h
      exact .put rq hheld
  | releaseAtomic rq =>
      rw [trackerStep, nvmeRqReleaseAtomic_eq] at h
      obtain ⟨hheld, ⟨⟩⟩ := Option.ite_none_right_eq_some.mp h
      exact .put rq hheld

/-- A call that acquires a tracker returns, and so does one that releases a tracker that is
held. -/
theorem trackerStep_isSome (s : Trackers) (call : TrackerCall)
    (hheld : ∀ rq, call = .release rq ∨ call = .releaseAtomic rq → rq ∈ s.held) :
    (trackerStep (fuel + 1) s call).isSome := by
  cases call with
  | acquire => rfl
  | acquireAtomic =>
      rw [trackerStep, nvmeRqAcquireAtomic_eq]
      rfl
  | release rq =>
      rw [trackerStep, if_pos (hheld rq (.inl rfl))]
      rfl
  | releaseAtomic rq =>
      rw [trackerStep, if_pos (hheld rq (.inr rfl)), nvmeRqReleaseAtomic_eq]
      rfl

/-- The stack is `l`, and with the trackers that are held it makes up all of them. -/
structure TrackersInv (n : ℕ) (s : Trackers) (l : List ℕ) : Prop where
  chained : Chained s.rqs.rqNext s.rqs.rqTop l
  perm : (l ++ s.held).Perm (List.range n)

theorem TrackersInv.nodup (h : TrackersInv n s l) : (l ++ s.held).Nodup :=
  h.perm.nodup_iff.mpr List.nodup_range

theorem TrackersInv.move (h : TrackersInv n s l) (hmove : TrackerMoves s s') :
    ∃ l', TrackersInv n s' l' := by
  cases hmove with
  | take =>
      cases l with
      | nil =>
          refine ⟨[], ?_, ?_⟩
          · rw [nvmeRqAcquire_of_nil h.chained]
            exact h.chained
          · rw [nvmeRqAcquire_of_nil h.chained]
            exact h.perm
      | cons rq l =>
          obtain ⟨hacq, hrest⟩ := nvmeRqAcquire_of_cons h.chained
          refine ⟨l, ?_, ?_⟩
          · rw [hacq]
            exact hrest
          · rw [hacq]
            exact List.perm_middle.trans h.perm
  | put rq hheld =>
      have hrq : rq ∉ l := fun hl => (List.nodup_append'.mp h.nodup).2.2 hl hheld
      refine ⟨rq :: l, chained_nvmeRqRelease h.chained hrq, ?_⟩
      have hback : (rq :: (l ++ s.held.erase rq)).Perm (l ++ s.held) :=
        List.perm_middle.symm.trans ((List.perm_cons_erase hheld).symm.append_left l)
      exact hback.trans h.perm

theorem trackersInv_step {call : TrackerCall} (h : ∃ l, TrackersInv n s l)
    (hstep : trackerStep (fuel + 1) s call = some s') : ∃ l, TrackersInv n s' l := by
  obtain ⟨l, h⟩ := h
  exact h.move (trackerStep_moves hstep)

theorem TrackersInv.lt_of_mem (h : TrackersInv n s l) {rq : ℕ} (hrq : rq ∈ l ++ s.held) :
    rq < n :=
  List.mem_range.mp (h.perm.mem_iff.mp hrq)

theorem TrackersInv.acquire_eq_none_iff (h : TrackersInv n s l) :
    (nvmeRqAcquire s.rqs).1 = none ↔ ∀ rq < n, rq ∈ s.held := by
  cases l with
  | nil =>
      rw [nvmeRqAcquire_of_nil h.chained]
      exact iff_of_true rfl fun rq hrq => h.perm.mem_iff.mpr (List.mem_range.mpr hrq)
  | cons rq l =>
      rw [(nvmeRqAcquire_of_cons h.chained).1]
      refine iff_of_false (Option.some_ne_none rq) fun hall => ?_
      have hheld := hall rq (h.lt_of_mem (by simp))
      exact (List.nodup_append'.mp h.nodup).2.2 List.mem_cons_self hheld

theorem orBusy_eq_error_iff (rq : Option ℕ) : orBusy rq = .error .EBUSY ↔ rq = none := by
  cases rq <;> simp [orBusy]

theorem rqCid_inj {a b : ℕ} (ha : a < 2 ^ 16) (hb : b < 2 ^ 16) (h : rqCid a = rqCid b) :
    a = b := by
  have hnat := congrArg BitVec.toNat h
  rwa [rqCid, rqCid, BitVec.toNat_ofNat, BitVec.toNat_ofNat, Nat.mod_eq_of_lt ha,
    Nat.mod_eq_of_lt hb] at hnat

theorem TrackersInv.exact {qsize : ℕ} (hqsize : qsize ≤ 2 ^ 16)
    (h : TrackersInv (qsize - 1) s l) : TrackersExact qsize s := by
  have hnodup := List.nodup_append.mp h.nodup
  have hlt : ∀ rq ∈ s.held, rq < 2 ^ 16 := by
    intro rq hrq
    have := h.lt_of_mem (List.mem_append_right l hrq)
    omega
  constructor
  case partition => exact ⟨l, h.chained, hnodup.1, h.perm⟩
  case cids =>
    exact List.Nodup.map_on (fun a ha b hb => rqCid_inj (hlt a ha) (hlt b hb)) hnodup.2.1
  case busy => rw [orBusy_eq_error_iff, h.acquire_eq_none_iff]
  case busyAtomic =>
    intro fuel
    rw [nvmeRqAcquireAtomic_eq, Option.map_some, Option.some.injEq, orBusy_eq_error_iff,
      h.acquire_eq_none_iff]

theorem trackersInv_init {qsize : ℕ} (htwo : 2 ≤ qsize) :
    TrackersInv (qsize - 1) (trackersInit qsize) (List.range (qsize - 1)).reverse := by
  refine ⟨chained_nvmeConfigureSqRqs htwo, ?_⟩
  rw [trackersInit, List.append_nil]
  exact List.reverse_perm _

end Runs

/-- In every run of one thread no tracker is lost or given away twice. -/
theorem trackers_exact (fuel qsize : ℕ) (htwo : 2 ≤ qsize) (hqsize : qsize ≤ 2 ^ 16)
    (calls : List TrackerCall) (s : Trackers)
    (hrun : run (trackerStep (fuel + 1)) (trackersInit qsize) calls = some s) :
    TrackersExact qsize s := by
  have hinit : ∃ l, TrackersInv (qsize - 1) (trackersInit qsize) l := ⟨_, trackersInv_init htwo⟩
  obtain ⟨l, h⟩ : ∃ l, TrackersInv (qsize - 1) s l :=
    run_invariant_of_step (fun _ _ _ => trackersInv_step) hinit hrun
  exact h.exact hqsize

/-- All three trackers of a queue of four are acquired, and the second one is released. -/
theorem trackers_exact_four :
    ∃ s, run (trackerStep 1) (trackersInit 4)
        [.acquire, .acquireAtomic, .acquire, .acquire, .releaseAtomic 1] = some s ∧
      s.held = [0, 2] ∧ TrackersExact 4 s :=
  ⟨_, rfl, rfl, trackers_exact 0 4 (by decide) (by decide)
    [.acquire, .acquireAtomic, .acquire, .acquire, .releaseAtomic 1] _ rfl⟩

/-! ## From a completion to its tracker -/

section Completion

variable {β : Type*}

/-- `nvme_rq_from_cqe`, with the submission queues of the controller. -/
def nvmeCtrlRqFromCqe (sqs : ℕ → NvmeSq β) (cqe : NvmeCqe) : Option ℕ :=
  nvmeRqFromCqe (sqs cqe.sqid.toNat) cqe.cid

/-- The result is a tracker of the queue with the identifier, if it has one, and `NULL`
otherwise. -/
def ResolvesTo (qsize : ℕ) (cid : BitVec 16) (r : Option ℕ) : Prop :=
  (∀ rq, r = some rq → rq < qsize - 1 ∧ rqCid rq = cid) ∧
    ((∀ rq < qsize - 1, rqCid rq ≠ cid) → r = none)

theorem rqCid_toNat (cid : BitVec 16) : rqCid cid.toNat = cid := by
  rw [rqCid, BitVec.ofNat_toNat, BitVec.setWidth_eq]

/-- A completion leads to its tracker exactly if its identifier is not the one behind the
last tracker. -/
theorem nvmeCtrlRqFromCqe_resolves_iff (sqs : ℕ → NvmeSq β) (cqe : NvmeCqe) :
    ResolvesTo (sqs cqe.sqid.toNat).qsize cqe.cid (nvmeCtrlRqFromCqe sqs cqe) ↔
      cqe.cid.toNat ≠ (sqs cqe.sqid.toNat).qsize - 1 := by
  rw [nvmeCtrlRqFromCqe, nvmeRqFromCqe]
  generalize (sqs cqe.sqid.toNat).qsize = qsize
  rcases lt_trichotomy cqe.cid.toNat (qsize - 1) with hlt | heq | hgt
  · rw [if_neg (by omega)]
    refine iff_of_true ⟨?_, ?_⟩ hlt.ne
    · rintro rq ⟨⟩
      exact ⟨hlt, rqCid_toNat cqe.cid⟩
    · intro hnone
      exact absurd (rqCid_toNat cqe.cid) (hnone _ hlt)
  · rw [if_neg (by omega)]
    refine iff_of_false ?_ (not_not.mpr heq)
    rintro ⟨hsome, -⟩
    have hlt := (hsome _ rfl).1
    omega
  · rw [if_pos hgt]
    refine iff_of_true ⟨?_, fun _ => rfl⟩ hgt.ne'
    rintro rq ⟨⟩

/-- A queue of two has one tracker, with identifier zero. Identifier one leads behind it. -/
theorem nvmeCtrlRqFromCqe_behind_trackers :
    nvmeCtrlRqFromCqe (fun _ => nvmeConfigureSq 2 (fun _ => ⟨0, ()⟩) none) ⟨0, 0, 0, 1, 0⟩ =
        some 1 ∧
      ∀ rq < 2 - 1, rqCid rq ≠ 1 := by
  refine ⟨rfl, ?_⟩
  decide

end Completion

end Nvme

end Libvfn
