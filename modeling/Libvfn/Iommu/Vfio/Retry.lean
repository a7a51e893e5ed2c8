import Libvfn.Foundation.Run
import Libvfn.Iommu.Vfio.Group

/-!
# Setting the IOMMU up again

The first group that is attached to a container makes it set the type of the IOMMU, ask for
the ranges of addresses and reserve a block for ephemeral mappings. If one of these fails, the
group is detached again, and the kernel forgets the type with the last group. The container
remembers that the type was set before it goes on, and does not forget it when it fails
afterwards. So the next attempt has nothing to do, and succeeds without a type.

An attempt takes place on both sides, and we follow the container together with what the
kernel has for it.
-/

namespace Libvfn

namespace Iommu

open Runs

structure KernelContainer where
  groups : ℕ
  iommuType : Bool

def KernelContainer.setContainer (kernel : KernelContainer) : KernelContainer :=
  { kernel with groups := kernel.groups + 1 }

def KernelContainer.setIommu (kernel : KernelContainer) : KernelContainer :=
  { kernel with iommuType := true }

def KernelContainer.unsetContainer (kernel : KernelContainer) : KernelContainer where
  groups := kernel.groups - 1
  iommuType := kernel.iommuType && kernel.groups - 1 ≠ 0

/-- A container on both sides. With it goes what there was when its type was set last: the
answers of the kernel, and the addresses that the container had. -/
structure SetupState (π : Type*) where
  vfio : GroupContainer π
  kernel : KernelContainer
  setup : Option (VfioAnswers × VfioContainer)

section Attempt

variable {π : Type*} (pagesize : Word.U64)

/-- `vfio_group_set_container`, with what it does to the kernel's side. -/
def attempt (s : SetupState π) (k : VfioAnswers) : Bool × SetupState π :=
  let r := vfioGroupSetContainer pagesize k s.vfio
  if !k.setContainer then (r.1, { s with vfio := r.2 })
  else if s.vfio.iommuSet || !k.setIommu then
    let kernel := s.kernel.setContainer
    (r.1, { s with vfio := r.2, kernel := if r.1 then kernel else kernel.unsetContainer })
  else
    let kernel := s.kernel.setContainer.setIommu
    (r.1,
      { vfio := r.2
        kernel := if r.1 then kernel else kernel.unsetContainer
        setup := some (k, s.vfio.iovas) })

def SetupState.init (vfio : GroupContainer π) : SetupState π := ⟨vfio, ⟨0, false⟩, none⟩

/-- The kernel tells the ranges, and the block for ephemeral mappings is reserved in them. -/
def SetsAside (k : VfioAnswers) (iovas : VfioContainer) (iova : Word.U64)
    (iovas' : VfioContainer) : Prop :=
  ∃ ranges, k.iovaRanges = some ranges ∧
    vfioIommuType1IovaReserve pagesize { iovas with iovaRanges := ranges }
      vfioIommuType1IovaReserved 0 = .ok (iova, iovas')

/-- The IOMMU is set up: the type is set, and the block for ephemeral mappings was reserved
meanwhile. -/
structure IommuSetUp (s : SetupState π) : Prop where
  iommuType : s.kernel.iommuType = true
  ephemerals : ∃ k iovas iova iovas', s.setup = some (k, iovas) ∧
    SetsAside pagesize k iovas iova iovas' ∧ s.vfio.iovas =
      { iovas' with ephemerals := ⟨iova, iova + vfioIommuType1IovaReserved - 1⟩ }

/-- The first time that the type is set, the rest succeeds too, or else no group can be attached
any more. -/
def Retryable (iovas : VfioContainer) : List VfioAnswers → Prop
  | [] => True
  | k :: ks =>
      if k.setContainer && k.setIommu then
        grants pagesize k iovas = true ∨ ∀ k' ∈ ks, k'.setContainer = false
      else Retryable iovas ks

/-! ## What an attempt can do -/

variable {pagesize}

theorem grants_iff {k : VfioAnswers} {iovas : VfioContainer} :
    grants pagesize k iovas = true ↔ ∃ iova iovas', SetsAside pagesize k iovas iova iovas' := by
  rw [grants, Option.any_eq_true]
  constructor
  · rintro ⟨ranges, hranges, hok⟩
    cases hreserve : vfioIommuType1IovaReserve pagesize { iovas with iovaRanges := ranges }
        vfioIommuType1IovaReserved 0 with
    | error e =>
        rw [hreserve] at hok
        cases hok
    | ok r => exact ⟨r.1, r.2, ranges, hranges, hreserve⟩
  · rintro ⟨iova, iovas', ranges, hranges, hreserve⟩
    refine ⟨ranges, hranges, ?_⟩
    rw [hreserve]
    rfl

/-- Once the type is set, the container remembers it, whether it gets a block or not. -/
theorem vfioIommuType1Setup_new {k : VfioAnswers} {vfio : GroupContainer π}
    (hset : vfio.iommuSet = false) (hiommu : k.setIommu = true) :
    (∃ vfio', vfioIommuType1Setup pagesize k vfio = (false, vfio') ∧ vfio'.iommuSet = true ∧
        grants pagesize k vfio.iovas = false) ∨
      ∃ vfio' iova iovas', vfioIommuType1Setup pagesize k vfio = (true, vfio') ∧
        vfio'.iommuSet = true ∧ SetsAside pagesize k vfio.iovas iova iovas' ∧ vfio'.iovas =
          { iovas' with ephemerals := ⟨iova, iova + vfioIommuType1IovaReserved - 1⟩ } := by
  rw [vfioIommuType1Setup, grants, hset, hiommu]
  cases hranges : k.iovaRanges with
  | none => exact .inl ⟨_, rfl, rfl, rfl⟩
  | some ranges =>
      dsimp only [Option.any_some]
      rw [vfioIommuType1Init]
      cases hreserve : vfioIommuType1IovaReserve pagesize { vfio.iovas with iovaRanges := ranges }
        vfioIommuType1IovaReserved 0 with
      | error e => exact .inl ⟨_, rfl, rfl, rfl⟩
      | ok r => exact .inr ⟨_, r.1, r.2, rfl, rfl, ⟨ranges, hranges, hreserve⟩, rfl⟩

variable (pagesize)

inductive Attempts (s : SetupState π) (k : VfioAnswers) : Bool → SetupState π → Prop
  /-- The group cannot be attached. -/
  | refused (hcont : k.setContainer = false) : Attempts s k false s
  /-- The container takes the type for set. -/
  | known (hcont : k.setContainer = true) (hset : s.vfio.iommuSet = true) :
      Attempts s k true { s with kernel := s.kernel.setContainer }
  /-- The type cannot be set. -/
  | unset (hcont : k.setContainer = true) (hset : s.vfio.iommuSet = false)
      (hiommu : k.setIommu = false) :
      Attempts s k false { s with kernel := s.kernel.setContainer.unsetContainer }
  /-- There are no ranges, or no block. -/
  | failed (hcont : k.setContainer = true) (hset : s.vfio.iommuSet = false)
      (hiommu : k.setIommu = true) (vfio : GroupContainer π) (hset' : vfio.iommuSet = true)
      (hgrants : grants pagesize k s.vfio.iovas = false) :
      Attempts s k false
        ⟨vfio, s.kernel.setContainer.setIommu.unsetContainer, some (k, s.vfio.iovas)⟩
  | done (hcont : k.setContainer = true) (hset : s.vfio.iommuSet = false)
      (hiommu : k.setIommu = true) (vfio : GroupContainer π) (iova : Word.U64)
      (iovas : VfioContainer) (hset' : vfio.iommuSet = true)
      (hblock : SetsAside pagesize k s.vfio.iovas iova iovas)
      (hiovas : vfio.iovas =
        { iovas with ephemerals := ⟨iova, iova + vfioIommuType1IovaReserved - 1⟩ }) :
      Attempts s k true ⟨vfio, s.kernel.setContainer.setIommu, some (k, s.vfio.iovas)⟩

theorem attempt_attempts (s : SetupState π) (k : VfioAnswers) :
    Attempts pagesize s k (attempt pagesize s k).1 (attempt pagesize s k).2 := by
  rw [attempt, vfioGroupSetContainer]
  cases hcont : k.setContainer with
  | false => exact .refused hcont
  | true =>
      cases hset : s.vfio.iommuSet with
      | true =>
          rw [vfioIommuType1Setup, hset]
          exact .known hcont hset
      | false =>
          cases hiommu : k.setIommu with
          | false =>
              rw [vfioIommuType1Setup, hset, hiommu]
              exact .unset hcont hset hiommu
          | true =>
              rcases vfioIommuType1Setup_new hset hiommu with
                ⟨vfio', hfail, hset', hgrants⟩ | ⟨vfio', iova, iovas, hok, hset', hblock, hiovas⟩
              · rw [hfail]
                exact .failed hcont hset hiommu vfio' hset' hgrants
              · rw [hok]
                exact .done hcont hset hiommu vfio' iova iovas hset' hblock hiovas

/-! ## Runs of attempts -/

def SetsUp (s : SetupState π) (k : VfioAnswers) : Prop :=
  (attempt pagesize s k).1 = true → IommuSetUp pagesize (attempt pagesize s k).2

def AllSetUp (s : SetupState π) (ks : List VfioAnswers) : Prop :=
  MeetsAlong (fun s k => some (attempt pagesize s k).2) (SetsUp pagesize) s ks

variable {pagesize} {s : SetupState π} {ks : List VfioAnswers}

theorem allSetUp_cons (k : VfioAnswers) :
    AllSetUp pagesize s (k :: ks) ↔
      SetsUp pagesize s k ∧ AllSetUp pagesize (attempt pagesize s k).2 ks :=
  ⟨fun h => ⟨h.1, h.2 _ rfl⟩, fun h => meetsAlong_cons rfl h.1 h.2⟩

/-- An IOMMU that is set up stays so. -/
theorem allSetUp_of_setUp (hset : s.vfio.iommuSet = true) (hs : IommuSetUp pagesize s)
    (ks : List VfioAnswers) : AllSetUp pagesize s ks := by
  induction ks generalizing s with
  | nil => trivial
  | cons k ks ih =>
      rw [allSetUp_cons, SetsUp]
      have h := attempt_attempts pagesize s k
      generalize attempt pagesize s k = r at h ⊢
      obtain ⟨ok, s'⟩ := r
      cases h with
      | refused => exact ⟨nofun, ih hset hs⟩
      | known =>
          have hkeep : IommuSetUp pagesize { s with kernel := s.kernel.setContainer } :=
            ⟨hs.iommuType, hs.ephemerals⟩
          exact ⟨fun _ => hkeep, ih hset hkeep⟩
      | unset _ hset' => rw [hset] at hset'; cases hset'
      | failed _ hset' => rw [hset] at hset'; cases hset'
      | done _ hset' => rw [hset] at hset'; cases hset'

/-- A container that takes the type for set without it cannot have a group attached. -/
theorem allSetUp_iff_of_left (hset : s.vfio.iommuSet = true) (htype : s.kernel.iommuType = false)
    (ks : List VfioAnswers) :
    AllSetUp pagesize s ks ↔ ∀ k ∈ ks, k.setContainer = false := by
  induction ks with
  | nil => exact iff_of_true trivial nofun
  | cons k ks ih =>
      rw [allSetUp_cons, List.forall_mem_cons, SetsUp]
      have h := attempt_attempts pagesize s k
      generalize attempt pagesize s k = r at h ⊢
      obtain ⟨ok, s'⟩ := r
      cases h with
      | refused hcont => exact and_congr (iff_of_true nofun hcont) ih
      | known hcont =>
          refine iff_of_false (fun hall => ?_) fun hall => ?_
          · have hset' := (hall.1 rfl).iommuType
            rw [KernelContainer.setContainer, htype] at hset'
            cases hset'
          · rw [hcont] at hall
            cases hall.1
      | unset _ hset' => rw [hset] at hset'; cases hset'
      | failed _ hset' => rw [hset] at hset'; cases hset'
      | done _ hset' => rw [hset] at hset'; cases hset'

/-- The IOMMU is set up after every attempt that succeeds exactly when the first attempt that
sets the type has ranges and a block too, or no group can be attached after it. -/
theorem iommu_set_up_iff (pagesize : Word.U64) {vfio : GroupContainer π}
    (hset : vfio.iommuSet = false) (ks : List VfioAnswers) :
    AllSetUp pagesize (SetupState.init vfio) ks ↔ Retryable pagesize vfio.iovas ks := by
  -- as long as the type was not set, nothing is attached, and the container is as it was
  suffices hfresh : ∀ s : SetupState π, s.vfio = vfio → s.kernel = ⟨0, false⟩ →
      (AllSetUp pagesize s ks ↔ Retryable pagesize vfio.iovas ks) from hfresh _ rfl rfl
  induction ks with
  | nil => exact fun _ _ _ => Iff.rfl
  | cons k ks ih =>
      rintro s rfl hkernel
      rw [allSetUp_cons, Retryable, SetsUp]
      have h := attempt_attempts pagesize s k
      generalize attempt pagesize s k = r at h ⊢
      obtain ⟨ok, s'⟩ := r
      cases h with
      | refused hcont =>
          rw [hcont, and_iff_right nofun]
          exact ih _ rfl hkernel
      | known _ hset' => rw [hset] at hset'; cases hset'
      | unset hcont _ hiommu =>
          rw [hcont, hiommu, and_iff_right nofun]
          refine ih _ rfl ?_
          rw [hkernel]
          rfl
      | failed hcont _ hiommu vfio' hset' hgrants =>
          rw [hcont, hiommu, hgrants, and_iff_right nofun, hkernel]
          exact (allSetUp_iff_of_left hset' rfl ks).trans (or_iff_right nofun).symm
      | done hcont _ hiommu vfio' iova iovas hset' hblock hiovas =>
          have hdone : IommuSetUp pagesize
              ⟨vfio', s.kernel.setContainer.setIommu, some (k, s.vfio.iovas)⟩ :=
            ⟨rfl, k, _, iova, iovas, rfl, hblock, hiovas⟩
          rw [hcont, hiommu]
          exact iff_of_true ⟨fun _ => hdone, allSetUp_of_setUp hset' hdone ks⟩
            (.inl (grants_iff.mpr ⟨iova, iovas, hblock⟩))

def noRanges : VfioAnswers := { agrees with iovaRanges := none }

def noIommu : VfioAnswers := { agrees with setIommu := false }

/-- The type cannot be set at first. -/
theorem iommu_set_up_iff_no_type :
    AllSetUp 0x1000 (SetupState.init (newContainer 0 3 (fun _ => false) ⟨0, 0⟩))
      [noIommu, agrees, agrees] :=
  (iommu_set_up_iff 0x1000 rfl _).mpr (.inl (by decide +kernel))

/-- The ranges cannot be had at first. The second attempt succeeds, although no type is set and
no block was reserved. -/
theorem iommu_set_up_without_type :
    let r := attempt 0x1000 (SetupState.init (newContainer 0 3 (fun _ => false) ⟨0, 0⟩)) noRanges
    r.1 = false ∧ (attempt 0x1000 r.2 agrees).1 = true ∧
      (attempt 0x1000 r.2 agrees).2.kernel.iommuType = false ∧
      (attempt 0x1000 r.2 agrees).2.setup.map (fun setup => grants 0x1000 setup.1 setup.2) =
        some false ∧
      (attempt 0x1000 r.2 agrees).2.vfio.iovas.ephemerals = ⟨0, 0⟩ := by
  decide +kernel

end Attempt

end Iommu

end Libvfn
