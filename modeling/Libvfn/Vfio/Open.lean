import Libvfn.Iommu.Vfio.Bookkeeping
import Libvfn.Vfio.Pci

/-!
# A device that cannot be opened

`vfio_pci_open` takes a reference to the context and one to the device, and has about ten
steps that can fail afterwards. None of them gives anything back. We compare what is recorded
before and after a call that fails: the references, groups and devices of the containers, and
the open descriptors.
-/

namespace Libvfn

namespace Vfio

open Word Support Iommu

structure Recorded where
  refcount : ℤ
  nrGroups : ℤ
  nrDevs : ℤ
  deriving DecidableEq

section Records

variable {π : Type*}

def slotDevs (group : VfioGroup π) : ℤ := if group.attached then group.nrDevs else 0

def containerRecord (vfio : GroupContainer π) : Recorded where
  refcount := vfio.refcount
  nrGroups := vfio.nrGroups
  nrDevs := ∑ i ∈ Finset.range vfnMaxVfioGroups, slotDevs (vfio.groups i)

def recordedAt (containers : Containers π) (id : ℕ) : Recorded :=
  (containers.heap id).elim ⟨0, 0, 0⟩ containerRecord

structure SameRecords (s s' : Devices π) : Prop where
  containers : ∀ id, recordedAt s'.containers id = recordedAt s.containers id
  fds : s'.fds = s.fds

/-- The call neither attaches the group nor opens the device: there is no slot for the group, the
group cannot be attached, or it is attached already and the device is refused. -/
def denied [DecidableEq π] (pagesize : U64) (k : VfioAnswers) (vfio : GroupContainer π)
    (path : π) : Bool :=
  match vfioGetGroup vfio path true with
  | (none, _) => true
  | (some i, vfio) =>
      if (vfio.groups i).fd = -1 then !attachable pagesize k vfio else k.deviceFd.isNone

theorem containerRecord_update {vfio vfio' : GroupContainer π} {i : ℕ} {new : VfioGroup π}
    (hsame : SameFile vfio vfio') (hnr : vfio'.nrGroups = vfio.nrGroups)
    (hgroups : vfio'.groups = Function.update vfio.groups i new)
    (hdevs : slotDevs new = slotDevs (vfio.groups i)) :
    containerRecord vfio' = containerRecord vfio := by
  have hslots : ∀ j, slotDevs (vfio'.groups j) = slotDevs (vfio.groups j) := by
    intro j
    rw [hgroups]
    by_cases hj : j = i
    · rw [hj, Function.update_self, hdevs]
    · rw [Function.update_of_ne hj]
  rw [containerRecord, containerRecord, hsame.refcount, hnr,
    Finset.sum_congr rfl fun j _ => hslots j]

variable [DecidableEq π]

theorem denied_iff (pagesize : U64) (k : VfioAnswers) (vfio : GroupContainer π) (path : π) :
    denied pagesize k vfio path = true ↔ (vfioGetDeviceFd pagesize k vfio path).1 = none ∧
      (vfioGetDeviceFd pagesize k vfio path).2.nrGroups = vfio.nrGroups := by
  unfold vfioGetDeviceFd denied
  rcases vfioGetGroup_spec vfio path with hnone | ⟨i, group, hget, -⟩
  · rw [hnone]
    exact iff_of_true rfl ⟨rfl, rfl⟩
  · rw [hget]
    dsimp only
    have hsome := vfioGetGroupFd_isSome pagesize k (vfio.setGroup i group) i
    have hspec := vfioGetGroupFd_spec pagesize k (vfio.setGroup i group) i
    generalize vfioGetGroupFd pagesize k (vfio.setGroup i group) i = r at hsome hspec ⊢
    obtain ⟨gfd, vfio'⟩ := r
    cases hspec with
    | known hfd =>
        rw [if_neg hfd]
        cases k.deviceFd with
        | none => exact iff_of_true rfl ⟨rfl, rfl⟩
        | some fd => exact iff_of_false Bool.false_ne_true (fun h => Option.some_ne_none _ h.1)
    | attached _ fd hfd _ _ hnr =>
        -- the group is attached, so it is counted
        rw [decide_eq_false (not_not.mpr hfd), Bool.false_or] at hsome
        have hmore : vfio'.nrGroups = vfio.nrGroups + 1 := hnr
        have hcount : vfio'.nrGroups ≠ vfio.nrGroups := by omega
        rw [if_pos hfd, ← hsome]
        cases k.deviceFd with
        | none => exact iff_of_false Bool.false_ne_true fun h => hcount h.2
        | some fd => exact iff_of_false Bool.false_ne_true fun h => hcount h.2
    | refused _ hfd _ _ hnr =>
        rw [decide_eq_false (not_not.mpr hfd), Bool.false_or] at hsome
        rw [if_pos hfd, ← hsome]
        exact iff_of_true rfl ⟨rfl, hnr⟩

theorem containerRecord_vfioGetDeviceFd {pagesize : U64} {k : VfioAnswers}
    {vfio : GroupContainer π} {path : π} (hdenied : denied pagesize k vfio path = true) :
    containerRecord (vfioGetDeviceFd pagesize k vfio path).2 = containerRecord vfio := by
  obtain ⟨hdev, hnr⟩ := (denied_iff pagesize k vfio path).mp hdenied
  have hopens := vfioGetDeviceFd_spec pagesize k vfio path
  rw [hdev] at hopens
  generalize (vfioGetDeviceFd pagesize k vfio path).2 = vfio' at hnr hopens ⊢
  generalize attaches pagesize k vfio path = attached at hopens
  cases hopens with
  | full => rfl
  | refused _ i group hslot hfd hsame hgroups _ =>
      refine containerRecord_update hsame hnr hgroups ?_
      have hnot : (vfio.groups i).attached = false :=
        Bool.eq_false_iff.mpr fun h => hslot.attached_iff.mp h hfd
      rw [slotDevs, slotDevs, hnot]
      rfl
  | opened _ i group fd _ hslot hfd hsame hgroups hcount =>
      -- the group was attached before, so it has its slot
      have hgroup : group.fd ≠ -1 := by
        intro hclosed
        rw [if_pos hclosed] at hcount
        omega
      refine containerRecord_update hsame hnr hgroups ?_
      cases hslot with
      | empty => exact absurd rfl hgroup
      | found hfound =>
          have hbefore := (IsSlot.found hfound).attached_iff.mpr hgroup
          have hafter : (VfioGroup.mk fd (some path) (vfio.groups i).nrDevs).attached := by
            simp [VfioGroup.attached, hfd]
          rw [slotDevs, slotDevs, hbefore]
          exact if_pos hafter

def afterDeviceFd (pagesize : U64) (k : VfioAnswers) (containers : Containers π) (id : ℕ)
    (vfio : GroupContainer π) (path : π) : Containers π :=
  { containers with
    heap := Function.update containers.heap id (some (vfioGetDeviceFd pagesize k vfio path).2) }

theorem recordedAt_afterDeviceFd (pagesize : U64) (k : VfioAnswers) (containers : Containers π)
    (id : ℕ) (vfio : GroupContainer π) (path : π) :
    recordedAt (afterDeviceFd pagesize k containers id vfio path) id =
      containerRecord (vfioGetDeviceFd pagesize k vfio path).2 := by
  dsimp only [recordedAt, afterDeviceFd]
  rw [Function.update_self]
  rfl

theorem recordedAt_afterDeviceFd_of_ne (pagesize : U64) (k : VfioAnswers)
    (containers : Containers π) {id j : ℕ} (vfio : GroupContainer π) (path : π) (hj : j ≠ id) :
    recordedAt (afterDeviceFd pagesize k containers id vfio path) j = recordedAt containers j := by
  dsimp only [recordedAt, afterDeviceFd]
  rw [Function.update_of_ne hj]

end Records

/-! ## The exits -/

section Exits

variable {δ π : Type*} [DecidableEq π] {pagesize : U64} {group : δ → π} {s s' : Devices π}
  {pci pci' : VfioPciDevice δ} {bdf : δ} {a : PciAnswers}

inductive PciOpens (pagesize : U64) (group : δ → π) (s : Devices π) (pci : VfioPciDevice δ)
    (bdf : δ) (a : PciAnswers) : Except OpenError Unit → Devices π → Prop
  | already : PciOpens pagesize group s pci bdf a (.error .already) s
  | classcode (e : Errno) (hclass : a.classcode = .error e) :
      PciOpens pagesize group s pci bdf a (.error .classcode) s
  /-- There is a context, and it has no descriptor for the device. -/
  | deviceFd (classcode : U64) (hclass : a.classcode = .ok classcode) (id : ℕ) (s₁ : Devices π)
      (vfio : GroupContainer π) (hctx : pciContext s pci (group bdf) a.new = some (id, s₁))
      (hheap : s₁.containers.heap id = some vfio)
      (hdev : (vfioGetDeviceFd pagesize a.kernel vfio (group bdf)).1 = none) :
      PciOpens pagesize group s pci bdf a (.error .deviceFd)
        ⟨afterDeviceFd pagesize a.kernel s₁.containers id vfio (group bdf), s₁.fds⟩
  /-- There is a descriptor, whatever comes after. -/
  | device (classcode : U64) (hclass : a.classcode = .ok classcode) (id : ℕ) (s₁ : Devices π)
      (vfio : GroupContainer π) (fd : ℕ) (r : Except OpenError Unit)
      (hctx : pciContext s pci (group bdf) a.new = some (id, s₁))
      (hheap : s₁.containers.heap id = some vfio)
      (hdev : (vfioGetDeviceFd pagesize a.kernel vfio (group bdf)).1 = some fd) :
      PciOpens pagesize group s pci bdf a r
        ⟨afterDeviceFd pagesize a.kernel s₁.containers id vfio (group bdf), fd :: s₁.fds⟩

theorem vfioPciOpen_opens {r : Except OpenError Unit}
    (h : vfioPciOpen pagesize group s pci bdf a = some (r, pci', s')) :
    PciOpens pagesize group s pci bdf a r s' := by
  unfold vfioPciOpen at h
  split_ifs at h
  · cases h
    exact .already
  · cases hclass : a.classcode with
    | error e =>
        rw [hclass] at h
        cases h
        exact .classcode e hclass
    | ok classcode =>
        rw [hclass] at h
        obtain ⟨⟨id, s₁⟩, hctx, h⟩ := Option.bind_eq_some_iff.mp h
        obtain ⟨⟨dev, containers⟩, hopen, h⟩ := Option.bind_eq_some_iff.mp h
        obtain ⟨vfio, hheap, hfd⟩ := Option.map_eq_some_iff.mp hopen
        obtain ⟨hdev, rfl⟩ := Prod.mk.inj hfd
        cases dev with
        | none =>
            cases h
            exact .deviceFd classcode hclass id s₁ vfio hctx hheap hdev
        | some fd =>
            obtain ⟨⟨r', pci₁⟩, -, h⟩ := Option.map_eq_some_iff.mp h
            cases h
            exact .device classcode hclass id s₁ vfio fd _ hctx hheap hdev

/-- A context that the device did not have yet has one reference more. -/
theorem pciContext_refcount {id : ℕ} {s₁ : Devices π} {vfio : GroupContainer π}
    (hfresh : s.containers.heap s.containers.fresh = none) (hnone : pci.ctx = none)
    (hctx : pciContext s pci (group bdf) a.new = some (id, s₁))
    (hheap : s₁.containers.heap id = some vfio) :
    vfio.refcount = (recordedAt s.containers id).refcount + 1 := by
  unfold pciContext at hctx
  rw [hnone] at hctx
  obtain ⟨id', hid, hpair⟩ := Option.map_eq_some_iff.mp hctx
  obtain ⟨rfl, rfl⟩ := Prod.mk.inj hpair
  dsimp only at hheap
  unfold vfioGetIommuContext at hid hheap
  cases hfind : vfioFindContainerByGroup s.containers (group bdf) with
  | some id =>
      rw [hfind] at hid hheap
      obtain rfl := Option.some.inj hid
      dsimp only at hheap
      rw [Function.update_self] at hheap
      obtain ⟨vfio₀, hbefore, rfl⟩ := Option.map_eq_some_iff.mp hheap
      rw [recordedAt, hbefore]
      rfl
  | none =>
      rw [hfind] at hid hheap
      cases hfd : a.new.fd with
      | none =>
          rw [hfd] at hid
          cases hid
      | some fd =>
          rw [hfd] at hid hheap
          obtain rfl := Option.some.inj hid
          dsimp only at hheap
          rw [Function.update_self] at hheap
          obtain rfl := Option.some.inj hheap
          rw [recordedAt, hfresh]
          rfl

theorem pciContext_of_ctx {id id' : ℕ} {s₁ : Devices π} (hpci : pci.ctx = some id')
    (hctx : pciContext s pci (group bdf) a.new = some (id, s₁)) : id = id' ∧ s₁ = s := by
  unfold pciContext at hctx
  rw [hpci] at hctx
  obtain ⟨hid, hs⟩ := Prod.mk.inj (Option.some.inj hctx)
  exact ⟨hid.symm, hs.symm⟩

theorem pciContext_fds {id : ℕ} {s₁ : Devices π}
    (hctx : pciContext s pci (group bdf) a.new = some (id, s₁)) : s₁.fds = s.fds := by
  cases hpci : pci.ctx with
  | some id' => rw [(pciContext_of_ctx hpci hctx).2]
  | none =>
      unfold pciContext at hctx
      rw [hpci] at hctx
      obtain ⟨id', -, hpair⟩ := Option.map_eq_some_iff.mp hctx
      obtain ⟨-, rfl⟩ := Prod.mk.inj hpair
      rfl

/-- Without a descriptor for the device, the records are as they were if no reference was
taken and no group attached. -/
theorem sameRecords_deviceFd_iff {id : ℕ} {s₁ : Devices π} {vfio : GroupContainer π}
    (hfresh : s.containers.heap s.containers.fresh = none)
    (hctx : pciContext s pci (group bdf) a.new = some (id, s₁))
    (hheap : s₁.containers.heap id = some vfio)
    (hdev : (vfioGetDeviceFd pagesize a.kernel vfio (group bdf)).1 = none) :
    SameRecords s ⟨afterDeviceFd pagesize a.kernel s₁.containers id vfio (group bdf), s₁.fds⟩ ↔
      pci.ctx = some id ∧ denied pagesize a.kernel vfio (group bdf) = true := by
  cases hpci : pci.ctx with
  | none =>
      refine iff_of_false (fun hsame => ?_) (fun h => by cases h.1)
      have hrecord := hsame.containers id
      rw [recordedAt_afterDeviceFd] at hrecord
      have hcount := pciContext_refcount hfresh hpci hctx hheap
      have hkept := (vfioGetDeviceFd_spec pagesize a.kernel vfio (group bdf)).sameFile.refcount
      rw [← hrecord] at hcount
      change vfio.refcount = (vfioGetDeviceFd pagesize a.kernel vfio (group bdf)).2.refcount + 1
        at hcount
      omega
  | some id' =>
      obtain ⟨rfl, rfl⟩ := pciContext_of_ctx hpci hctx
      have hbefore : recordedAt s₁.containers id = containerRecord vfio := by
        rw [recordedAt, hheap]
        rfl
      constructor
      · intro hsame
        have hrecord := hsame.containers id
        rw [recordedAt_afterDeviceFd, hbefore] at hrecord
        exact ⟨rfl, (denied_iff _ _ _ _).mpr ⟨hdev, congrArg Recorded.nrGroups hrecord⟩⟩
      · rintro ⟨-, hdenied⟩
        refine ⟨fun j => ?_, rfl⟩
        by_cases hj : j = id
        · rw [hj, recordedAt_afterDeviceFd, hbefore]
          exact containerRecord_vfioGetDeviceFd hdenied
        · exact recordedAt_afterDeviceFd_of_ne pagesize a.kernel _ vfio (group bdf) hj

/-- With a class code, it comes down to the context that was used. -/
theorem exists_denied_iff {classcode : U64} {id : ℕ} {s₁ : Devices π} {vfio : GroupContainer π}
    (hclass : a.classcode = .ok classcode)
    (hctx : pciContext s pci (group bdf) a.new = some (id, s₁))
    (hheap : s₁.containers.heap id = some vfio) :
    ((∃ err, a.classcode = .error err) ∨ ∃ id vfio, pci.ctx = some id ∧
      s.containers.heap id = some vfio ∧ denied pagesize a.kernel vfio (group bdf) = true) ↔
      pci.ctx = some id ∧ denied pagesize a.kernel vfio (group bdf) = true := by
  constructor
  · rintro (⟨err, herr⟩ | ⟨id', vfio', hpci, hheap', hdenied⟩)
    · rw [hclass] at herr
      cases herr
    · obtain ⟨rfl, rfl⟩ := pciContext_of_ctx hpci hctx
      obtain rfl := Option.some.inj (hheap.symm.trans hheap')
      exact ⟨hpci, hdenied⟩
  · rintro ⟨hpci, hdenied⟩
    obtain ⟨-, rfl⟩ := pciContext_of_ctx hpci hctx
    exact .inr ⟨id, vfio, hpci, hheap, hdenied⟩

/-- A call that fails leaves the records as they were if and only if it has no class code, or else
the device had a context and the call neither attaches its group nor opens it. -/
theorem vfioPciOpen_sameRecords_iff {e : OpenError}
    (hfresh : s.containers.heap s.containers.fresh = none)
    (h : vfioPciOpen pagesize group s pci bdf a = some (.error e, pci', s'))
    (he : e ≠ .already) :
    SameRecords s s' ↔ (∃ err, a.classcode = .error err) ∨ ∃ id vfio, pci.ctx = some id ∧
      s.containers.heap id = some vfio ∧ denied pagesize a.kernel vfio (group bdf) = true := by
  cases vfioPciOpen_opens h with
  | already => exact absurd rfl he
  | classcode err hclass => exact iff_of_true ⟨fun _ => rfl, rfl⟩ (.inl ⟨err, hclass⟩)
  | deviceFd classcode hclass id s₁ vfio hctx hheap hdev =>
      rw [exists_denied_iff hclass hctx hheap]
      exact sameRecords_deviceFd_iff hfresh hctx hheap hdev
  | device classcode hclass id s₁ vfio fd _ hctx hheap hdev =>
      rw [exists_denied_iff hclass hctx hheap]
      refine iff_of_false (fun hsame => ?_) fun hdenied => ?_
      · have hfds : fd :: s₁.fds = s.fds := hsame.fds
        rw [pciContext_fds hctx] at hfds
        exact List.cons_ne_self fd s.fds hfds
      · have hnone := ((denied_iff _ _ _ _).mp hdenied.2).1
        exact Option.some_ne_none fd (hdev.symm.trans hnone)

end Exits

def noIrqs : PciAnswers where
  classcode := .ok 0x010802
  new := someContainer
  kernel := agrees
  deviceInfo := .ok vfioDeviceFlagsPci
  configRegion := .ok ⟨0x1000, 0⟩
  bars := fun _ => .ok ⟨0x4000, 0⟩
  readCommand := .ok 0
  writeCommand := fun _ => .ok ()
  irqs := fun _ => .error .EINVAL

def noDevices : Devices ℕ := ⟨noContainers ℕ, []⟩

def oneContext : Devices ℕ := ⟨(vfioGetIommuContext (noContainers ℕ) 0 someContainer).2, []⟩

theorem vfioPciOpen_sameRecords_iff_no_group :
    ∃ pci' s', vfioPciOpen 0x1000 id oneContext { VfioPciDevice.zeroed ℕ with ctx := some 0 } 0
        { noIrqs with kernel := refuses } = some (.error .deviceFd, pci', s') ∧
      SameRecords oneContext s' := by
  have h : vfioPciOpen 0x1000 id oneContext { VfioPciDevice.zeroed ℕ with ctx := some 0 } 0
      { noIrqs with kernel := refuses } = some (.error .deviceFd, _, _) := rfl
  exact ⟨_, _, h, (vfioPciOpen_sameRecords_iff rfl h nofun).mpr
    (.inr ⟨0, _, rfl, rfl, rfl⟩)⟩

/-- The interrupts cannot be asked for, and the reference to the container, the group, the
device and its descriptor stay. `vfio_pci_close` cannot be used to give them back. -/
theorem vfioPciOpen_leaves_device :
    ∃ pci' s', vfioPciOpen 0x1000 id noDevices (.zeroed ℕ) 0 noIrqs =
        some (.error .irq, pci', s') ∧
      recordedAt noDevices.containers 0 = ⟨0, 0, 0⟩ ∧ noDevices.fds = [] ∧
      recordedAt s'.containers 0 = ⟨1, 1, 1⟩ ∧ s'.fds = [5] ∧ ¬ SameRecords noDevices s' ∧
      vfioPciClose id s' pci' = none :=
  ⟨_, _, rfl, rfl, rfl, by decide +kernel, rfl, fun h => List.cons_ne_nil 5 [] h.fds, rfl⟩

end Vfio

end Libvfn
