import Libvfn.Nvme.Completion
import Libvfn.Nvme.Submission

/-!
# Indices and phase

A queue has at most one entry more than the controller's `CAP.MQES` says, so its size
may be `2 ^ 16`, which the sixteen bits of an index do not hold. The index is still right
after any number of entries, as it wraps around by itself. But the phase of a completion
queue is inverted only when the index equals the size after it was incremented, and an
index of sixteen bits never does.
-/

namespace Libvfn

namespace Nvme

open Runs

/-- `nvme_cq_get_cqe`, at a moment at which the memory of the queue is `mem`. The
controller may have written to it since the call before. -/
def pollStep (cq : NvmeCq) (mem : ℕ → NvmeCqe) : NvmeCq × Option NvmeCqe :=
  let r := nvmeCqGetCqe { cq with mem := mem }
  (r.2, r.1)

def polled (cq : NvmeCq) (mems : List (ℕ → NvmeCqe)) : NvmeCq := (runOut pollStep cq mems).1

def reaped (cq : NvmeCq) (mems : List (ℕ → NvmeCqe)) : ℕ :=
  (runOut pollStep cq mems).2.countP Option.isSome

section Poll

variable {cq : NvmeCq} {mem : ℕ → NvmeCqe}

theorem pollStep_of_old (h : (mem cq.head.toNat).tag = cq.phase) :
    pollStep cq mem = ({ cq with mem := mem }, none) := by
  have hold : (nvmeCqHead { cq with mem := mem }).tag = cq.phase := h
  rw [pollStep, nvmeCqGetCqe_eq, if_pos hold]

theorem pollStep_of_new (h : (mem cq.head.toNat).tag ≠ cq.phase) :
    pollStep cq mem = (advanced { cq with mem := mem }, some (mem cq.head.toNat)) := by
  have hnew : (nvmeCqHead { cq with mem := mem }).tag ≠ cq.phase := h
  rw [pollStep, nvmeCqGetCqe_eq, if_neg hnew]
  rfl

end Poll

@[simp]
theorem polled_cons (cq : NvmeCq) (mem : ℕ → NvmeCqe) (mems : List (ℕ → NvmeCqe)) :
    polled cq (mem :: mems) = polled (pollStep cq mem).1 mems := rfl

@[simp]
theorem reaped_cons (cq : NvmeCq) (mem : ℕ → NvmeCqe) (mems : List (ℕ → NvmeCqe)) :
    reaped cq (mem :: mems) =
      reaped (pollStep cq mem).1 mems + if (pollStep cq mem).2.isSome then 1 else 0 :=
  List.countP_cons

/-- What holds of the queue and the number of entries it has moved past, whatever is in
the memory, holds after any number of calls. -/
theorem polled_invariant (inv : NvmeCq → ℕ → Prop)
    (hmem : ∀ cq n mem, inv cq n → inv { cq with mem := mem } n)
    (hadvanced : ∀ cq n, inv cq n → inv (advanced cq) (n + 1)) {cq : NvmeCq} {n : ℕ}
    (h : inv cq n) (mems : List (ℕ → NvmeCqe)) :
    inv (polled cq mems) (n + reaped cq mems) := by
  induction mems generalizing cq n with
  | nil => exact h
  | cons mem mems ih =>
      by_cases hold : (mem cq.head.toNat).tag = cq.phase
      · rw [polled_cons, reaped_cons, pollStep_of_old hold]
        exact ih (hmem cq n mem h)
      · rw [polled_cons, reaped_cons, pollStep_of_new hold, Option.isSome_some, if_pos rfl,
          Nat.add_comm _ 1, ← Nat.add_assoc]
        exact ih (hadvanced _ n (hmem cq n mem h))

/-! ## The indices -/

structure NvmeCq.AtSlot (cq : NvmeCq) (n : ℕ) : Prop where
  pos : 0 < cq.qsize
  le : cq.qsize ≤ 2 ^ 16
  head : cq.head.toNat = n % cq.qsize

theorem NvmeCq.AtSlot.advanced {cq : NvmeCq} {n : ℕ} (h : cq.AtSlot n) :
    (advanced cq).AtSlot (n + 1) := by
  refine ⟨(advanced_mem cq).2 ▸ h.pos, (advanced_mem cq).2 ▸ h.le, ?_⟩
  rw [advanced_head, (advanced_mem cq).2]
  exact Ring.next_index h.pos h.le h.head

theorem qsize_polled (cq : NvmeCq) (mems : List (ℕ → NvmeCqe)) :
    (polled cq mems).qsize = cq.qsize :=
  polled_invariant (fun cq' _ => cq'.qsize = cq.qsize) (n := 0) (fun _ _ _ h => h)
    (fun cq' _ h => (advanced_mem cq').2.trans h) rfl mems

theorem atSlot_polled {cq : NvmeCq} {n : ℕ} (h : cq.AtSlot n) (mems : List (ℕ → NvmeCqe)) :
    (polled cq mems).AtSlot (n + reaped cq mems) :=
  polled_invariant NvmeCq.AtSlot (fun _ _ _ h => ⟨h.pos, h.le, h.head⟩) (fun _ _ h => h.advanced)
    h mems

/-! ## The phase -/

theorem passed_polled {cq : NvmeCq} {n : ℕ} (h : cq.Passed n) (hpos : 0 < cq.qsize)
    (hlt : cq.qsize < 2 ^ 16) (mems : List (ℕ → NvmeCqe)) :
    (polled cq mems).Passed (n + reaped cq mems) := by
  refine (polled_invariant (fun cq' n => cq'.qsize = cq.qsize ∧ cq'.Passed n) ?_ ?_
    ⟨rfl, h⟩ mems).2
  · rintro cq' n mem ⟨hqsize, h⟩
    exact ⟨hqsize, h.head, h.phase⟩
  · rintro cq' n ⟨hqsize, h⟩
    exact ⟨(advanced_mem cq').2.trans hqsize, h.advanced (hqsize ▸ hpos) (hqsize ▸ hlt)⟩

theorem advanced_phase {cq : NvmeCq} (hle : 2 ^ 16 ≤ cq.qsize) :
    (advanced cq).phase = cq.phase := by
  have hlt := (cq.head + 1).isLt
  rw [advanced, if_neg (by omega)]

theorem phase_polled {cq : NvmeCq} (hle : 2 ^ 16 ≤ cq.qsize) (mems : List (ℕ → NvmeCqe)) :
    (polled cq mems).phase = cq.phase := by
  refine (polled_invariant (fun cq' _ => 2 ^ 16 ≤ cq'.qsize ∧ cq'.phase = cq.phase) (n := 0)
    ?_ ?_ ⟨hle, rfl⟩ mems).2
  · rintro cq' _ mem ⟨hle, hphase⟩
    exact ⟨hle, hphase⟩
  · rintro cq' _ ⟨hle, hphase⟩
    exact ⟨(advanced_mem cq').2 ▸ hle, (advanced_phase hle).trans hphase⟩

theorem reaped_replicate {cq : NvmeCq} (hle : 2 ^ 16 ≤ cq.qsize) {cqe : NvmeCqe}
    (hnew : cqe.tag ≠ cq.phase) (n : ℕ) :
    reaped cq (List.replicate n fun _ => cqe) = n := by
  induction n generalizing cq with
  | zero => rfl
  | succ n ih =>
      have hqsize : (advanced { cq with mem := fun _ => cqe }).qsize = cq.qsize :=
        (advanced_mem _).2
      have hphase : (advanced { cq with mem := fun _ => cqe }).phase = cq.phase :=
        advanced_phase hle
      rw [List.replicate_succ, reaped_cons, pollStep_of_new hnew]
      exact congrArg (· + 1) (ih (hle.trans_eq hqsize.symm) fun h => hnew (h.trans hphase))

/-! ## The law -/

def firstPassCqe : NvmeCqe := ⟨0, 0, 0, 0, 1⟩

theorem tail_foldl_nvmeSqPost {β : Type*} {sq : NvmeSq β} {n : ℕ} (hpos : 0 < sq.qsize)
    (hle : sq.qsize ≤ 2 ^ 16) (htail : sq.tail = BitVec.ofNat 16 (n % sq.qsize))
    (sqes : List (NvmeSqe β)) :
    (sqes.foldl nvmeSqPost sq).tail = BitVec.ofNat 16 ((n + sqes.length) % sq.qsize) := by
  induction sqes generalizing sq n with
  | nil => exact htail
  | cons sqe sqes ih =>
      have hqsize := (nvmeSqPost_frame sq sqe).1
      have hnext := nvmeSqPost_tail hpos hle htail sqe
      rw [← hqsize] at hnext hpos hle
      rw [List.foldl_cons, ih hpos hle hnext, hqsize, List.length_cons, Nat.add_assoc,
        Nat.add_comm 1]

/-- In a queue of any legal size the tail and the head are right after any number of
entries. The phase is right after any number of entries exactly if the size is not
`2 ^ 16`. -/
theorem ring_index_iff {β : Type*} (mqes : BitVec 16) (qsize : ℕ) (htwo : 2 ≤ qsize)
    (hmqes : qsize ≤ mqes.toNat + 1) :
    (∀ (mem : ℕ → NvmeSqe β) (dbbuf : Option NvmeDbbuf) (sqes : List (NvmeSqe β)),
        (sqes.foldl nvmeSqPost (nvmeConfigureSq qsize mem dbbuf)).tail.toNat =
          sqes.length % qsize) ∧
      (∀ (mem : ℕ → NvmeCqe) (dbbuf : Option NvmeDbbuf) (mems : List (ℕ → NvmeCqe)),
        (polled (nvmeConfigureCq qsize mem dbbuf) mems).head.toNat =
          reaped (nvmeConfigureCq qsize mem dbbuf) mems % qsize) ∧
      ((∀ (mem : ℕ → NvmeCqe) (dbbuf : Option NvmeDbbuf) (mems : List (ℕ → NvmeCqe)),
        (polled (nvmeConfigureCq qsize mem dbbuf) mems).phase =
          reaped (nvmeConfigureCq qsize mem dbbuf) mems / qsize % 2) ↔ qsize ≠ 2 ^ 16) := by
  have hle : qsize ≤ 2 ^ 16 := hmqes.trans mqes.isLt
  have hpos : 0 < qsize := Nat.zero_lt_of_lt htwo
  refine ⟨?_, ?_, ?_, ?_⟩
  · intro mem dbbuf sqes
    have htail : (sqes.foldl nvmeSqPost (nvmeConfigureSq qsize mem dbbuf)).tail =
        BitVec.ofNat 16 ((0 + sqes.length) % qsize) :=
      tail_foldl_nvmeSqPost hpos hle (congrArg (BitVec.ofNat 16) (Nat.zero_mod qsize).symm) sqes
    rw [htail, Nat.zero_add, toNat_ofNat_mod hpos hle]
  · intro mem dbbuf mems
    have hinit : (nvmeConfigureCq qsize mem dbbuf).AtSlot 0 :=
      ⟨hpos, hle, (Nat.zero_mod qsize).symm⟩
    have hhead := (atSlot_polled hinit mems).head
    rw [Nat.zero_add, qsize_polled] at hhead
    exact hhead
  · rintro hphase rfl
    have hfull := hphase (fun _ => firstPassCqe) none
      (List.replicate (2 ^ 16) fun _ => firstPassCqe)
    rw [phase_polled le_rfl, reaped_replicate le_rfl (by decide)] at hfull
    exact absurd hfull (by decide)
  · intro hne mem dbbuf mems
    have hinit : (nvmeConfigureCq qsize mem dbbuf).Passed 0 :=
      ⟨(Nat.zero_mod qsize).symm, by simp [nvmeConfigureCq]⟩
    have hphase := (passed_polled hinit hpos (lt_of_le_of_ne hle hne) mems).phase
    rw [Nat.zero_add, qsize_polled] at hphase
    exact hphase

/-- Three entries in queues of two. -/
theorem ring_index_iff_three_entries :
    (([⟨0, ()⟩, ⟨1, ()⟩, ⟨2, ()⟩].foldl nvmeSqPost
        (nvmeConfigureSq 2 (fun _ => ⟨0, ()⟩) none)).tail.toNat = 3 % 2) ∧
      ∀ (mem : ℕ → NvmeCqe) (dbbuf : Option NvmeDbbuf) (mems : List (ℕ → NvmeCqe)),
        (polled (nvmeConfigureCq 2 mem dbbuf) mems).phase =
          reaped (nvmeConfigureCq 2 mem dbbuf) mems / 2 % 2 :=
  have h := ring_index_iff (β := Unit) 1 2 (by decide) (by decide)
  ⟨h.1 (fun _ => ⟨0, ()⟩) none [⟨0, ()⟩, ⟨1, ()⟩, ⟨2, ()⟩], h.2.2.mpr (by decide)⟩

/-- After all entries of a queue of `2 ^ 16` the head is back at the first slot, but the
phase is still that of the first pass. -/
theorem phase_after_largest_pass :
    let cq := nvmeConfigureCq (2 ^ 16) (fun _ => firstPassCqe) none
    let mems := List.replicate (2 ^ 16) fun _ => firstPassCqe
    reaped cq mems = 2 ^ 16 ∧ (polled cq mems).head = 0 ∧ (polled cq mems).phase = 0 := by
  intro cq mems
  have hreaped : reaped cq mems = 2 ^ 16 := reaped_replicate le_rfl (by decide) _
  have hinit : cq.AtSlot 0 := ⟨by decide, by decide, rfl⟩
  have hhead := (atSlot_polled hinit mems).head
  rw [hreaped, qsize_polled, Nat.zero_add] at hhead
  exact ⟨hreaped, BitVec.eq_of_toNat_eq (hhead.trans (Nat.mod_self _)), phase_polled le_rfl mems⟩

end Nvme

end Libvfn
