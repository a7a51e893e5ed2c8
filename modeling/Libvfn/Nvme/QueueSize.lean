import Libvfn.Nvme.Ctrl

/-!
# The size of a queue on both sides

The host keeps the size of a queue in an `int`. The controller gets it in a field of the
command that creates the queue, which has sixteen bits, or in a field of the register
`AQA`, which has twelve; both are zero-based. We compare the two for the functions that
create an I/O queue or configure the admin queue.

A size beyond what the controller supports is logged but not refused, and the size of an
admin queue in given memory is not checked against its field. So the sides agree exactly
if an I/O queue has at most as many entries as `CAP.MQES` allows, and if the admin queues
have at most 4096.
-/

namespace Libvfn

namespace Nvme

namespace Ctrl

open Word Support Iommu

def CreateCq.entries (cmd : CreateCq) : ℕ := cmd.qsize.toNat + 1

def CreateSq.entries (cmd : CreateSq) : ℕ := cmd.qsize.toNat + 1

def asqEntries (aqa : BitVec 32) : ℕ := (aqa &&& 0xfff).toNat + 1

def acqEntries (aqa : BitVec 32) : ℕ := (aqa >>> 16 &&& 0xfff).toNat + 1

inductive SizedCall where
  | createIocq (qid : ℕ) (qsize vector : ℤ) (a : CqAnswers) (admin : Except Errno Unit)
  | createIosq (qid : ℕ) (qsize : ℤ) (cq : ℕ) (a : SqAnswers) (admin : Except Errno Unit)
  | configureAdminq (acq : CqAnswers) (asq : SqAnswers)
  | configureAdminqMem (cqMem sqMem : Iommu.IommuDmabuf) (cqCap sqCap : U64)
      (pages : Except Errno U64)

variable {σ : Type*}

def SizedCall.run (ops : IommuCtxOps σ) (pageshift : ℕ) (s : State σ) :
    SizedCall → Option (Except Errno Unit × State σ)
  | .createIocq qid qsize vector a admin =>
      some (nvmeCreateIocq ops pageshift s qid qsize vector a admin)
  | .createIosq qid qsize cq a admin => nvmeCreateIosq ops pageshift s qid qsize cq a admin
  | .configureAdminq acq asq => nvmeConfigureAdminq ops pageshift s acq asq
  | .configureAdminqMem cqMem sqMem cqCap sqCap pages =>
      nvmeConfigureAdminqMem ops pageshift s cqMem sqMem cqCap sqCap pages

/-- After the call, the size that the controller has read is the one in the slot, and the
size of an I/O queue is at most what the controller supports. The command of a call comes
first in the list of queues. -/
def SizedCall.Agrees (s : State σ) : SizedCall → Prop
  | .createIocq qid _ _ _ _ =>
      ∃ cmd ∈ s.cqs.head?, (cmd.entries : ℤ) = (s.cq qid).qsize ∧ cmd.entries ≤ s.mqes.toNat + 1
  | .createIosq qid _ _ _ _ =>
      ∃ cmd ∈ s.sqs.head?, (cmd.entries : ℤ) = (s.sq qid).qsize ∧ cmd.entries ≤ s.mqes.toNat + 1
  | .configureAdminq _ _ | .configureAdminqMem _ _ _ _ _ =>
      (asqEntries s.aqa : ℤ) = (s.sq nvmeAq).qsize ∧ (acqEntries s.aqa : ℤ) = (s.cq nvmeAq).qsize

/-- The size fits: an I/O queue is not larger than the controller supports, and an admin
queue not larger than its field can tell. -/
def SizedCall.Fits (s : State σ) : SizedCall → Prop
  | .createIocq _ qsize _ _ _ => qsize ≤ s.mqes.toNat + 1
  | .createIosq _ qsize _ _ _ => qsize ≤ s.mqes.toNat + 1
  | .configureAdminq _ _ => True
  | .configureAdminqMem cqMem sqMem _ _ _ => memEntries sqMem 64 ≤ 4096 ∧ memEntries cqMem 16 ≤ 4096

/-! ## Fields -/

theorem entries_eq_iff {qsize : ℤ} (hsize : 2 ≤ qsize) (mqes : BitVec 16) :
    (((BitVec.ofInt 16 (qsize - 1)).toNat + 1 : ℕ) : ℤ) = qsize ∧
        (BitVec.ofInt 16 (qsize - 1)).toNat + 1 ≤ mqes.toNat + 1 ↔
      qsize ≤ mqes.toNat + 1 := by
  have hlt := mqes.isLt
  rw [BitVec.toNat_ofInt]
  omega

theorem toNat_and_fff (x : BitVec 32) : (x &&& 0xfff).toNat = x.toNat % 2 ^ 12 := by
  have hmask : (0xfff : BitVec 32).toNat = 2 ^ 12 - 1 := rfl
  rw [BitVec.toNat_and, hmask, Nat.and_two_pow_sub_one_eq_mod]

theorem asqEntries_or (x y : BitVec 32) : asqEntries (x ||| y <<< 16) = x.toNat % 2 ^ 12 + 1 := by
  have hlow : y.toNat <<< 16 % 2 ^ 32 % 2 ^ 12 = 0 := by
    rw [Nat.shiftLeft_eq]
    omega
  rw [asqEntries, toNat_and_fff, BitVec.toNat_or, BitVec.toNat_shiftLeft, Nat.or_mod_two_pow, hlow,
    Nat.or_zero]

theorem acqEntries_or {x : BitVec 32} (y : BitVec 32) (hx : x.toNat < 2 ^ 16) :
    acqEntries (x ||| y <<< 16) = y.toNat % 2 ^ 12 + 1 := by
  have hhigh : (x ||| y <<< 16).toNat >>> 16 % 2 ^ 12 = y.toNat % 2 ^ 12 := by
    rw [BitVec.toNat_or, BitVec.toNat_shiftLeft, Nat.shiftRight_or_distrib,
      Nat.shiftRight_eq_div_pow, Nat.shiftRight_eq_div_pow, Nat.div_eq_of_lt hx, Nat.zero_or,
      Nat.shiftLeft_eq]
    omega
  rw [acqEntries, toNat_and_fff, BitVec.toNat_ushiftRight, hhigh]

/-- The register tells both sizes exactly if they are at most 4096. A larger submission queue
is cut off; it may reach into the field of the completion queue then. -/
theorem aqaValue_iff {sqSize cqSize : ℤ} (hsq : 2 ≤ sqSize) (hcq : 2 ≤ cqSize)
    (hsq' : sqSize < 2 ^ 31) (hcq' : cqSize < 2 ^ 31) :
    (asqEntries (aqaValue sqSize cqSize) : ℤ) = sqSize ∧
        (acqEntries (aqaValue sqSize cqSize) : ℤ) = cqSize ↔
      sqSize ≤ 4096 ∧ cqSize ≤ 4096 := by
  have hx : ((BitVec.ofInt 32 (sqSize - 1)).toNat : ℤ) = sqSize - 1 := by
    rw [BitVec.toNat_ofInt]
    omega
  have hy : ((BitVec.ofInt 32 (cqSize - 1)).toNat : ℤ) = cqSize - 1 := by
    rw [BitVec.toNat_ofInt]
    omega
  have hsqIff : (asqEntries (aqaValue sqSize cqSize) : ℤ) = sqSize ↔ sqSize ≤ 4096 := by
    rw [aqaValue, asqEntries_or]
    omega
  rw [hsqIff]
  refine and_congr_right fun hle => ?_
  rw [aqaValue, acqEntries_or _ (by omega)]
  omega

theorem memEntries_lt (mem : Iommu.IommuDmabuf) (size : U64) : memEntries mem size < 2 ^ 31 :=
  BitVec.toInt_lt

/-! ## The functions -/

section Calls

variable {ops : IommuCtxOps σ} {pageshift qid cq : ℕ} {s s' : State σ} {qsize vector : ℤ}

theorem nvmeCreateIocq_agrees_iff {a : CqAnswers} {admin : Except Errno Unit}
    (h : nvmeCreateIocq ops pageshift s qid qsize vector a admin = (.ok (), s')) :
    (SizedCall.createIocq qid qsize vector a admin).Agrees s' ↔ qsize ≤ s.mqes.toNat + 1 := by
  have hcfg := nvmeConfigureCq_configures ops pageshift s qid qsize vector a
  rw [nvmeCreateIocq] at h
  generalize nvmeConfigureCq ops pageshift s qid qsize vector a = r at h hcfg
  cases hcfg with
  | refused e => cases h
  | tried res mem ctx hcheck hmem =>
      cases res with
      | error e => cases h
      | ok u =>
          cases admin with
          | error e => cases h
          | ok u =>
              obtain ⟨-, rfl⟩ := Prod.mk.inj h
              have hiff := entries_eq_iff (configureCheck_eq_ok hcheck) s.mqes
              simpa [SizedCall.Agrees, CreateCq.entries, createCqCmd, State.withCq, State.setCq,
                State.newCq] using hiff

theorem nvmeCreateIosq_agrees_iff {a : SqAnswers} {admin : Except Errno Unit}
    (h : nvmeCreateIosq ops pageshift s qid qsize cq a admin = some (.ok (), s')) :
    (SizedCall.createIosq qid qsize cq a admin).Agrees s' ↔ qsize ≤ s.mqes.toNat + 1 := by
  obtain ⟨r, hcfg, h⟩ := Option.map_eq_some_iff.mp h
  cases nvmeConfigureSq_configures hcfg with
  | refused e => cases h
  | noPages e => cases h
  | noMem e => cases h
  | configured pages mem ctx ctx' hcheck =>
      cases admin with
      | error e => cases h
      | ok u =>
          obtain ⟨-, rfl⟩ := Prod.mk.inj h
          have hiff := entries_eq_iff (configureCheck_eq_ok hcheck) s.mqes
          simpa [SizedCall.Agrees, CreateSq.entries, createSqCmd, State.withSq, State.setSq,
            State.newSq] using hiff

theorem nvmeConfigureAdminq_agrees {acq : CqAnswers} {asq : SqAnswers}
    (h : nvmeConfigureAdminq ops pageshift s acq asq = some (.ok (), s')) :
    (SizedCall.configureAdminq acq asq).Agrees s' := by
  have hcfg := nvmeConfigureCq_configures ops pageshift s nvmeAq nvmeAqQsize 0 acq
  rw [nvmeConfigureAdminq] at h
  generalize nvmeConfigureCq ops pageshift s nvmeAq nvmeAqQsize 0 acq = r at h hcfg
  cases hcfg with
  | refused e => cases h
  | tried res mem ctx =>
      cases res with
      | error e => cases h
      | ok u =>
          obtain ⟨r', hsq, h⟩ := Option.bind_eq_some_iff.mp h
          obtain ⟨hok, rfl⟩ := nvmeConfigureAdminqEnd_ok h
          have hfields : (asqEntries (aqaValue nvmeAqQsize nvmeAqQsize) : ℤ) = nvmeAqQsize ∧
              (acqEntries (aqaValue nvmeAqQsize nvmeAqQsize) : ℤ) = nvmeAqQsize := by
            decide
          cases nvmeConfigureSq_configures hsq with
          | refused e => cases hok
          | noPages e => cases hok
          | noMem e => cases hok
          | configured =>
              simpa [SizedCall.Agrees, nvmeConfigureAdminqRegs, State.withSq, State.setSq,
                State.newSq, State.withCq, State.setCq, State.newCq] using hfields

theorem nvmeConfigureSqPages_ok {cap : U64} {pages : Except Errno U64}
    (h : nvmeConfigureSqPages ops pageshift s qid qsize cq cap pages = (.ok (), s')) :
    2 ≤ qsize ∧ (s'.sq qid).qsize = qsize ∧ s'.cq = s.cq := by
  rw [nvmeConfigureSqPages] at h
  rcases hcheck : configureCheck s.nsqa qid qsize cap with e | u
  · rw [hcheck] at h
    cases h
  · rw [hcheck] at h
    dsimp only at h
    rcases hpages : Iommu.iommuGetDmabuf ops (vfnPagesize pageshift) s.ctx
      (s.newSq qid qsize cq cap).pages (pagesSize qsize s.mps) 0 pages with ⟨e | u, pages, ctx⟩
    · rw [hpages] at h
      cases h
    · rw [hpages] at h
      obtain ⟨-, rfl⟩ := Prod.mk.inj h
      refine ⟨configureCheck_eq_ok hcheck, ?_, rfl⟩
      simp [State.newSq]

theorem nvmeConfigureAdminqMem_agrees_iff {cqMem sqMem : Iommu.IommuDmabuf} {cqCap sqCap : U64}
    {pages : Except Errno U64}
    (h : nvmeConfigureAdminqMem ops pageshift s cqMem sqMem cqCap sqCap pages =
      some (.ok (), s')) :
    (SizedCall.configureAdminqMem cqMem sqMem cqCap sqCap pages).Agrees s' ↔
      memEntries sqMem 64 ≤ 4096 ∧ memEntries cqMem 16 ≤ 4096 := by
  rw [nvmeConfigureAdminqMem, nvmeConfigureCqMem] at h
  rcases hcheck : configureCheck s.ncqa nvmeAq (memEntries cqMem 16) cqCap with e | u
  · rw [hcheck] at h
    cases h
  · rw [hcheck] at h
    obtain ⟨hok, rfl⟩ := nvmeConfigureAdminqEnd_ok h
    rw [nvmeConfigureSqMem] at hok ⊢
    rcases hsq : nvmeConfigureSqPages ops pageshift _ nvmeAq (memEntries sqMem 64) nvmeAq sqCap
      pages with ⟨e | u, s₁⟩
    · rw [hsq] at hok
      cases hok
    · obtain ⟨hsize, hqsize, hcq⟩ := nvmeConfigureSqPages_ok hsq
      have hiff := aqaValue_iff hsize (configureCheck_eq_ok hcheck) (memEntries_lt sqMem 64)
        (memEntries_lt cqMem 16)
      simpa [SizedCall.Agrees, nvmeConfigureAdminqRegs, State.setSq, hqsize, hcq, State.setCq,
        State.newCq] using hiff

end Calls

/-- The host and the controller agree on the size of a queue exactly if the size fits. -/
theorem queue_sizes_agree_iff (ops : IommuCtxOps σ) (pageshift : ℕ) (s s' : State σ)
    (call : SizedCall) (hrun : call.run ops pageshift s = some (.ok (), s')) :
    call.Agrees s' ↔ call.Fits s := by
  cases call with
  | createIocq qid qsize vector a admin => exact nvmeCreateIocq_agrees_iff (Option.some.inj hrun)
  | createIosq qid qsize cq a admin => exact nvmeCreateIosq_agrees_iff hrun
  | configureAdminq acq asq => exact ⟨fun _ => trivial, fun _ => nvmeConfigureAdminq_agrees hrun⟩
  | configureAdminqMem cqMem sqMem cqCap sqCap pages =>
      exact nvmeConfigureAdminqMem_agrees_iff hrun

def largeQueueCtrl : State Unit :=
  { State.init (identityCtx fun _ => true) with nsqa := 63, ncqa := 63, mqes := 0xffff }

theorem queue_sizes_agree_iff_thousand_entries :
    let call := SizedCall.createIocq 1 1024 (-1) ⟨0, .ok 0x10000⟩ (.ok ())
    ∃ s', call.run identityOps 12 largeQueueCtrl = some (.ok (), s') ∧ call.Agrees s' := by
  have hfits : (1024 : ℤ) ≤ largeQueueCtrl.mqes.toNat + 1 := by decide
  exact ⟨_, rfl, (queue_sizes_agree_iff identityOps 12 largeQueueCtrl _ _ rfl).mpr hfits⟩

/-- A completion queue of 65538 entries is created as one of two. An admin submission queue of
4194304 entries is taken for one of 4096, and its completion queue of 32 entries for one of
64. A controller with eight entries at most is asked for sixteen. -/
theorem queue_sizes_cut_off :
    (∃ s', (SizedCall.createIocq 1 65538 (-1) ⟨0, .ok 0x10000⟩ (.ok ())).run identityOps 12
        largeQueueCtrl = some (.ok (), s') ∧
      s'.cqs.head?.map CreateCq.entries = some 2 ∧ (s'.cq 1).qsize = 65538) ∧
    (∃ s', (SizedCall.configureAdminqMem ⟨0x10000, 0, 0x200⟩ ⟨0x20000000, 0, 0x10000000⟩ 0 0
        (.ok 0x100000000)).run identityOps 12 largeQueueCtrl = some (.ok (), s') ∧
      asqEntries s'.aqa = 4096 ∧ (s'.sq nvmeAq).qsize = 4194304 ∧
      acqEntries s'.aqa = 64 ∧ (s'.cq nvmeAq).qsize = 32) ∧
    ∃ s', (SizedCall.createIocq 1 16 (-1) ⟨0, .ok 0x10000⟩ (.ok ())).run identityOps 12
        { largeQueueCtrl with mqes := 7 } = some (.ok (), s') ∧
      s'.cqs.head?.map CreateCq.entries = some 16 := by
  refine ⟨⟨_, rfl, ?_, ?_⟩, ⟨_, rfl, ?_, ?_, ?_, ?_⟩, ⟨_, rfl, ?_⟩⟩ <;> decide +kernel

end Ctrl

end Nvme

end Libvfn
