import Libvfn.Iommu.Vfio.Container

/-!
# Groups and containers

A device belongs to an IOMMU group and is opened through the group, which is attached
to a container. The containers in use are on a list. A context for a device is looked
up by the group's path, which is kept in a slot of the container, and made anew if no
container on the list has such a slot. Closing the last device of a group empties its
slot and, if it was the last group, closes the container's descriptor; dropping the
last reference takes the container off the list and frees it.

What the kernel says to a call is an argument of the function that makes the call. The
path of a device's group is known beforehand, so that a device is given by it.
-/

namespace Libvfn

namespace Iommu

def vfnMaxVfioGroups : ℕ := 256

structure VfioGroup (π : Type*) where
  fd : ℤ
  path : Option π
  nrDevs : ℤ

/-- `struct vfio_container`, with what it knows about addresses in `iovas`. -/
structure GroupContainer (π : Type*) where
  name : π
  fd : ℤ
  groups : ℕ → VfioGroup π
  nrGroups : ℤ
  iovas : VfioContainer
  iommuSet : Bool
  refcount : ℤ

/-- What the kernel says while a device is opened: the descriptor of the group, if the
group can be opened and is viable, whether it can be attached and the type of the IOMMU
be set, the ranges of addresses, and the descriptor of the device. -/
structure VfioAnswers where
  openGroup : Option ℕ
  setContainer : Bool
  setIommu : Bool
  iovaRanges : Option (List IovaRange)
  deviceFd : Option ℕ

section Container

variable {π : Type*}

def GroupContainer.setGroup (vfio : GroupContainer π) (i : ℕ) (group : VfioGroup π) :
    GroupContainer π :=
  { vfio with groups := Function.update vfio.groups i group }

/-- `vfio_iommu_type1_init`. What it has done stays done when it fails. -/
def vfioIommuType1Setup (pagesize : Word.U64) (k : VfioAnswers) (vfio : GroupContainer π) :
    Bool × GroupContainer π :=
  if vfio.iommuSet then (true, vfio)
  else if !k.setIommu then (false, vfio)
  else
    let vfio := { vfio with iommuSet := true }
    match k.iovaRanges with
    | none => (false, vfio)
    | some ranges =>
        let vfio := { vfio with iovas := { vfio.iovas with iovaRanges := ranges } }
        match vfioIommuType1Init pagesize vfio.iovas with
        | .error _ => (false, vfio)
        | .ok iovas => (true, { vfio with iovas := iovas })

def vfioGroupSetContainer (pagesize : Word.U64) (k : VfioAnswers) (vfio : GroupContainer π) :
    Bool × GroupContainer π :=
  if !k.setContainer then (false, vfio) else vfioIommuType1Setup pagesize k vfio

def vfioGetGroupFd (pagesize : Word.U64) (k : VfioAnswers) (vfio : GroupContainer π) (i : ℕ) :
    Option ℤ × GroupContainer π :=
  let group := vfio.groups i
  if group.fd ≠ -1 then (some group.fd, vfio)
  else
    match k.openGroup with
    | none => (none, vfio.setGroup i { group with path := none, fd := -1 })
    | some fd =>
        match vfioGroupSetContainer pagesize k vfio with
        | (false, vfio) => (none, vfio.setGroup i { group with path := none, fd := -1 })
        | (true, vfio) =>
            (some fd,
              { vfio.setGroup i { group with fd := fd } with nrGroups := vfio.nrGroups + 1 })

variable [DecidableEq π]

def slotOf (vfio : GroupContainer π) (path : Option π) : Option ℕ :=
  (List.range vfnMaxVfioGroups).find? fun i => (vfio.groups i).path = path

def vfioGetGroup (vfio : GroupContainer π) (path : π) (alloc : Bool) :
    Option ℕ × GroupContainer π :=
  match slotOf vfio (some path) with
  | some i => (some i, vfio)
  | none =>
      if !alloc then (none, vfio)
      else
        match slotOf vfio none with
        | none => (none, vfio)
        | some i => (some i, vfio.setGroup i ⟨-1, some path, 0⟩)

def vfioGetDeviceFd (pagesize : Word.U64) (k : VfioAnswers) (vfio : GroupContainer π) (path : π) :
    Option ℕ × GroupContainer π :=
  match vfioGetGroup vfio path true with
  | (none, vfio) => (none, vfio)
  | (some i, vfio) =>
      match vfioGetGroupFd pagesize k vfio i with
      | (none, vfio) => (none, vfio)
      | (some _, vfio) =>
          match k.deviceFd with
          | none => (none, vfio)
          | some fd =>
              let group := vfio.groups i
              (some fd, vfio.setGroup i { group with nrDevs := group.nrDevs + 1 })

/-- What `vfio_put_device_fd` does when the last group is gone. -/
def GroupContainer.reset (vfio : GroupContainer π) : GroupContainer π :=
  let fl := vfio.iovas.freeIovas
  { vfio with
    fd := -1
    iommuSet := false
    iovas := { vfio.iovas with
      next := 0
      nextEphemeral := 0
      nephemerals := 0
      freeIovas := { fl with list := (Util.skiplistClearWith fl.list).1 } } }

/-- What `vfio_put_device_fd` does to the group in a slot and, with the last device of
the last group, to the container. -/
def GroupContainer.closeDevice (vfio : GroupContainer π) (i : ℕ) : GroupContainer π :=
  let group := vfio.groups i
  if group.nrDevs - 1 = 0 then
    let vfio := vfio.setGroup i ⟨-1, none, group.nrDevs - 1⟩
    let vfio := { vfio with nrGroups := vfio.nrGroups - 1 }
    if vfio.nrGroups = 0 then vfio.reset else vfio
  else vfio.setGroup i { group with nrDevs := group.nrDevs - 1 }

/-- `vfio_put_device_fd`: nothing if the container does not know the group, otherwise
the container with one reference less. It is to be freed if no reference is left. -/
def vfioPutDeviceFd (vfio : GroupContainer π) (path : π) : Option (GroupContainer π) :=
  match vfioGetGroup vfio path false with
  | (none, _) => none
  | (some i, vfio) =>
      let vfio := vfio.closeDevice i
      some { vfio with refcount := vfio.refcount - 1 }

end Container

/-! ## The list of containers -/

/-- What is left to chance when a container is made: its descriptor, or none if it cannot
be opened, the random levels of its free list, and what is in the memory of the list's
sentinel. -/
structure NewContainer where
  fd : Option ℕ
  rand : ℕ → Bool
  garbage : FreeRange

/-- The containers in memory, and those on the list `active_containers`. A container has
the address that was unused when it was made. -/
structure Containers (π : Type*) where
  heap : ℕ → Option (GroupContainer π)
  active : List ℕ
  fresh : ℕ

def noContainers (π : Type*) : Containers π where
  heap := fun _ => none
  active := []
  fresh := 0

def iommuCtxInitRanges : List IovaRange := [⟨0x10000, 0x7fffffffff⟩]

section Contexts

variable {π : Type*} [DecidableEq π]

def Containers.knows (s : Containers π) (path : π) (id : ℕ) : Bool :=
  (s.heap id).any fun vfio => (slotOf vfio (some path)).isSome

def vfioFindContainerByGroup (s : Containers π) (path : π) : Option ℕ :=
  s.active.find? (s.knows path)

def newContainer (path : π) (fd : ℕ) (rand : ℕ → Bool) (garbage : FreeRange) :
    GroupContainer π where
  name := path
  fd := fd
  groups := fun i => if i = 0 then ⟨-1, some path, 0⟩ else ⟨0, none, 0⟩
  nrGroups := 0
  iovas := vfioInitContainer iommuCtxInitRanges rand garbage
  iommuSet := false
  refcount := 1

def vfioGetIommuContext (s : Containers π) (path : π) (new : NewContainer) :
    Option ℕ × Containers π :=
  match vfioFindContainerByGroup s path with
  | some id =>
      (some id, { s with
        heap := Function.update s.heap id
          ((s.heap id).map fun vfio => { vfio with refcount := vfio.refcount + 1 }) })
  | none =>
      match new.fd with
      | none => (none, s)
      | some fd =>
          (some s.fresh,
            { heap := Function.update s.heap s.fresh
                (some (newContainer path fd new.rand new.garbage))
              active := s.fresh :: s.active
              fresh := s.fresh + 1 })

def Containers.openDevice (pagesize : Word.U64) (s : Containers π) (id : ℕ) (path : π)
    (k : VfioAnswers) : Option (Option ℕ × Containers π) :=
  (s.heap id).map fun vfio =>
    let r := vfioGetDeviceFd pagesize k vfio path
    (r.1, { s with heap := Function.update s.heap id (some r.2) })

/-- `vfio_put_device_fd` on a container in memory, with the removal from the list when
the last reference is gone, and whether the device was known. -/
def Containers.closeDevice (s : Containers π) (id : ℕ) (path : π) :
    Option (Bool × Containers π) :=
  (s.heap id).map fun vfio =>
    match vfioPutDeviceFd vfio path with
    | none => (false, s)
    | some vfio =>
        if vfio.refcount = 0 then
          (true, { s with heap := Function.update s.heap id none, active := s.active.erase id })
        else (true, { s with heap := Function.update s.heap id (some vfio) })

end Contexts

/-! ## What the functions do to a container -/

section Spec

variable {π : Type*}

structure SameFile (vfio vfio' : GroupContainer π) : Prop where
  name : vfio'.name = vfio.name
  fd : vfio'.fd = vfio.fd
  refcount : vfio'.refcount = vfio.refcount

theorem SameFile.refl (vfio : GroupContainer π) : SameFile vfio vfio := ⟨rfl, rfl, rfl⟩

theorem SameFile.trans {a b c : GroupContainer π} (h : SameFile a b) (h' : SameFile b c) :
    SameFile a c :=
  ⟨h'.name.trans h.name, h'.fd.trans h.fd, h'.refcount.trans h.refcount⟩

theorem sameFile_setGroup (vfio : GroupContainer π) (i : ℕ) (group : VfioGroup π) :
    SameFile vfio (vfio.setGroup i group) := ⟨rfl, rfl, rfl⟩

/-- Attaching a group sets the IOMMU up and touches no slot. -/
theorem vfioGroupSetContainer_frame {pagesize : Word.U64} {k : VfioAnswers}
    {vfio vfio' : GroupContainer π} {ok : Bool}
    (h : vfioGroupSetContainer pagesize k vfio = (ok, vfio')) :
    SameFile vfio vfio' ∧ vfio'.groups = vfio.groups ∧ vfio'.nrGroups = vfio.nrGroups := by
  unfold vfioGroupSetContainer vfioIommuType1Setup at h
  dsimp only at h
  split_ifs at h
  · cases h
    exact ⟨.refl vfio, rfl, rfl⟩
  · cases h
    exact ⟨.refl vfio, rfl, rfl⟩
  · cases h
    exact ⟨.refl vfio, rfl, rfl⟩
  · cases hranges : k.iovaRanges with
    | none =>
        rw [hranges] at h
        cases h
        exact ⟨⟨rfl, rfl, rfl⟩, rfl, rfl⟩
    | some ranges =>
        simp only [hranges] at h
        cases hinit : vfioIommuType1Init pagesize { vfio.iovas with iovaRanges := ranges } with
        | error e =>
            rw [hinit] at h
            cases h
            exact ⟨⟨rfl, rfl, rfl⟩, rfl, rfl⟩
        | ok iovas =>
            rw [hinit] at h
            cases h
            exact ⟨⟨rfl, rfl, rfl⟩, rfl, rfl⟩

/-- The kernel tells the ranges, and there is a block for ephemeral mappings in them. -/
def grants (pagesize : Word.U64) (k : VfioAnswers) (iovas : VfioContainer) : Bool :=
  k.iovaRanges.any fun ranges =>
    (vfioIommuType1IovaReserve pagesize { iovas with iovaRanges := ranges }
      vfioIommuType1IovaReserved 0).isOk

/-- A group can be opened and attached, and the IOMMU is set up or can be. -/
def attachable (pagesize : Word.U64) (k : VfioAnswers) (vfio : GroupContainer π) : Bool :=
  k.openGroup.isSome && k.setContainer &&
    (vfio.iommuSet || k.setIommu && grants pagesize k vfio.iovas)

theorem vfioIommuType1Setup_fst (pagesize : Word.U64) (k : VfioAnswers)
    (vfio : GroupContainer π) :
    (vfioIommuType1Setup pagesize k vfio).1 =
      (vfio.iommuSet || k.setIommu && grants pagesize k vfio.iovas) := by
  rw [vfioIommuType1Setup, grants]
  cases vfio.iommuSet with
  | true => rfl
  | false =>
      cases k.setIommu with
      | false => rfl
      | true =>
          cases k.iovaRanges with
          | none => rfl
          | some ranges =>
              dsimp only [Option.any_some]
              rw [vfioIommuType1Init]
              cases vfioIommuType1IovaReserve pagesize { vfio.iovas with iovaRanges := ranges }
                vfioIommuType1IovaReserved 0 <;> rfl

theorem vfioGetGroupFd_isSome (pagesize : Word.U64) (k : VfioAnswers) (vfio : GroupContainer π)
    (i : ℕ) :
    (vfioGetGroupFd pagesize k vfio i).1.isSome =
      ((vfio.groups i).fd ≠ -1 || attachable pagesize k vfio) := by
  rw [vfioGetGroupFd, attachable, ← vfioIommuType1Setup_fst, vfioGroupSetContainer]
  by_cases hfd : (vfio.groups i).fd = -1
  · rw [if_neg (not_not.mpr hfd), decide_eq_false (not_not.mpr hfd)]
    cases k.openGroup with
    | none => rfl
    | some fd =>
        cases k.setContainer with
        | false => rfl
        | true =>
            dsimp only
            generalize vfioIommuType1Setup pagesize k vfio = r
            obtain ⟨_ | _, vfio'⟩ := r <;> rfl
  · rw [if_pos hfd, decide_eq_true hfd]
    rfl

inductive GroupFd (vfio : GroupContainer π) (i : ℕ) : Option ℤ → GroupContainer π → Prop
  /-- It is open already. -/
  | known (hfd : (vfio.groups i).fd ≠ -1) : GroupFd vfio i (some (vfio.groups i).fd) vfio
  /-- The group is opened and attached. -/
  | attached (vfio' : GroupContainer π) (fd : ℕ) (hfd : (vfio.groups i).fd = -1)
      (hsame : SameFile vfio vfio')
      (hgroups : vfio'.groups = Function.update vfio.groups i { vfio.groups i with fd := fd })
      (hnr : vfio'.nrGroups = vfio.nrGroups + 1) : GroupFd vfio i (some fd) vfio'
  /-- The group cannot be opened or attached, and loses its slot. -/
  | refused (vfio' : GroupContainer π) (hfd : (vfio.groups i).fd = -1)
      (hsame : SameFile vfio vfio')
      (hgroups : vfio'.groups =
        Function.update vfio.groups i { vfio.groups i with path := none, fd := -1 })
      (hnr : vfio'.nrGroups = vfio.nrGroups) : GroupFd vfio i none vfio'

theorem vfioGetGroupFd_spec (pagesize : Word.U64) (k : VfioAnswers) (vfio : GroupContainer π)
    (i : ℕ) :
    GroupFd vfio i (vfioGetGroupFd pagesize k vfio i).1 (vfioGetGroupFd pagesize k vfio i).2 := by
  unfold vfioGetGroupFd
  dsimp only
  by_cases hfd : (vfio.groups i).fd = -1
  · rw [if_neg (not_not.mpr hfd)]
    cases k.openGroup with
    | none => exact .refused _ hfd (sameFile_setGroup vfio i _) rfl rfl
    | some fd =>
        dsimp only
        cases hset : vfioGroupSetContainer pagesize k vfio with
        | mk ok vfio' =>
            obtain ⟨hsame, hgroups, hnr⟩ := vfioGroupSetContainer_frame hset
            cases ok with
            | false =>
                refine .refused _ hfd (hsame.trans (sameFile_setGroup vfio' i _)) ?_ hnr
                rw [← hgroups]
                rfl
            | true =>
                refine .attached _ fd hfd ⟨hsame.name, hsame.fd, hsame.refcount⟩ ?_ ?_
                · rw [← hgroups]
                  rfl
                · exact congrArg (· + 1) hnr
  · rw [if_pos hfd]
    exact .known hfd

variable [DecidableEq π]

theorem slotOf_eq_some {vfio : GroupContainer π} {path : Option π} {i : ℕ}
    (h : slotOf vfio path = some i) :
    i < vfnMaxVfioGroups ∧ (vfio.groups i).path = path := by
  have hmem := List.mem_of_find?_eq_some h
  have hpath := List.find?_some h
  exact ⟨List.mem_range.mp hmem, of_decide_eq_true hpath⟩

theorem slotOf_isSome_iff {vfio : GroupContainer π} {path : Option π} :
    (slotOf vfio path).isSome ↔ ∃ i < vfnMaxVfioGroups, (vfio.groups i).path = path := by
  rw [slotOf, List.find?_isSome]
  simp only [List.mem_range, decide_eq_true_eq]

theorem slotOf_newContainer (path : π) (fd : ℕ) (rand : ℕ → Bool) (garbage : FreeRange) :
    slotOf (newContainer path fd rand garbage) (some path) = some 0 := by
  have hrange : List.range vfnMaxVfioGroups = 0 :: (List.range 255).map Nat.succ :=
    List.range_succ_eq_map
  rw [slotOf, hrange]
  exact List.find?_cons_of_pos (decide_eq_true rfl)

/-- The slot that a device of the group uses and the group in it: the one that is there,
or else a new one in an empty slot. -/
inductive IsSlot (vfio : GroupContainer π) (path : π) (i : ℕ) : VfioGroup π → Prop
  | found (h : slotOf vfio (some path) = some i) : IsSlot vfio path i (vfio.groups i)
  | empty (h : slotOf vfio (some path) = none) (hempty : slotOf vfio none = some i) :
      IsSlot vfio path i ⟨-1, some path, 0⟩

theorem IsSlot.lt {vfio : GroupContainer π} {path : π} {i : ℕ} {group : VfioGroup π}
    (h : IsSlot vfio path i group) : i < vfnMaxVfioGroups := by
  cases h with
  | found h => exact (slotOf_eq_some h).1
  | empty _ h => exact (slotOf_eq_some h).1

theorem IsSlot.path_eq {vfio : GroupContainer π} {path : π} {i : ℕ} {group : VfioGroup π}
    (h : IsSlot vfio path i group) : group.path = some path := by
  cases h with
  | found h => exact (slotOf_eq_some h).2
  | empty _ _ => rfl

theorem vfioGetGroup_spec (vfio : GroupContainer π) (path : π) :
    vfioGetGroup vfio path true = (none, vfio) ∨
      ∃ i group, vfioGetGroup vfio path true = (some i, vfio.setGroup i group) ∧
        IsSlot vfio path i group := by
  unfold vfioGetGroup
  cases hslot : slotOf vfio (some path) with
  | some i =>
      refine .inr ⟨i, vfio.groups i, ?_, .found hslot⟩
      rw [GroupContainer.setGroup, Function.update_eq_self]
  | none =>
      cases hempty : slotOf vfio none with
      | none => exact .inl rfl
      | some i => exact .inr ⟨i, ⟨-1, some path, 0⟩, rfl, .empty hslot hempty⟩

def attaches (pagesize : Word.U64) (k : VfioAnswers) (vfio : GroupContainer π) (path : π) :
    Bool :=
  match vfioGetGroup vfio path true with
  | (none, _) => true
  | (some i, vfio) => (vfio.groups i).fd ≠ -1 || attachable pagesize k vfio

inductive Opens (vfio : GroupContainer π) (path : π) :
    Bool → Option ℕ → GroupContainer π → Prop
  /-- There is no slot left. -/
  | full : Opens vfio path true none vfio
  /-- The group cannot be opened or attached, and loses its slot. -/
  | refused (vfio' : GroupContainer π) (i : ℕ) (group : VfioGroup π)
      (hslot : IsSlot vfio path i group) (hfd : group.fd = -1) (hsame : SameFile vfio vfio')
      (hgroups : vfio'.groups =
        Function.update vfio.groups i { group with path := none, fd := -1 })
      (hnr : vfio'.nrGroups = vfio.nrGroups) : Opens vfio path false none vfio'
  /-- The group is attached, and the device can be opened or not. -/
  | opened (vfio' : GroupContainer π) (i : ℕ) (group : VfioGroup π) (fd : ℤ) (dev : Option ℕ)
      (hslot : IsSlot vfio path i group) (hfd : fd ≠ -1) (hsame : SameFile vfio vfio')
      (hgroups : vfio'.groups =
        Function.update vfio.groups i
          ⟨fd, some path, if dev.isSome then group.nrDevs + 1 else group.nrDevs⟩)
      (hnr : vfio'.nrGroups = if group.fd = -1 then vfio.nrGroups + 1 else vfio.nrGroups) :
      Opens vfio path true dev vfio'

theorem Opens.sameFile {vfio vfio' : GroupContainer π} {path : π} {attached : Bool}
    {dev : Option ℕ} (h : Opens vfio path attached dev vfio') : SameFile vfio vfio' := by
  cases h with
  | full => exact .refl _
  | refused _ _ _ _ _ hsame => exact hsame
  | opened _ _ _ _ _ _ _ hsame => exact hsame

/-- A device of an attached group is opened or not. -/
theorem opens_device {vfio : GroupContainer π} (vfio' : GroupContainer π) {path : π} {i : ℕ}
    {group : VfioGroup π} (fd : ℤ) (k : VfioAnswers) (hslot : IsSlot vfio path i group)
    (hfd : fd ≠ -1) (hsame : SameFile vfio vfio')
    (hgroups : vfio'.groups = Function.update vfio.groups i { group with fd := fd })
    (hnr : vfio'.nrGroups = if group.fd = -1 then vfio.nrGroups + 1 else vfio.nrGroups) :
    Opens vfio path true k.deviceFd
      (match k.deviceFd with
        | none => vfio'
        | some _ => vfio'.setGroup i
            { vfio'.groups i with nrDevs := (vfio'.groups i).nrDevs + 1 }) := by
  have hpath := hslot.path_eq
  cases k.deviceFd with
  | none =>
      refine .opened vfio' i group fd none hslot hfd hsame ?_ hnr
      rw [hgroups, ← hpath]
      rfl
  | some dfd =>
      refine .opened _ i group fd (some dfd) hslot hfd
        (hsame.trans (sameFile_setGroup vfio' i _)) ?_ hnr
      dsimp only [GroupContainer.setGroup]
      rw [hgroups, Function.update_self, Function.update_idem, ← hpath]
      rfl

theorem vfioGetDeviceFd_spec (pagesize : Word.U64) (k : VfioAnswers) (vfio : GroupContainer π)
    (path : π) :
    Opens vfio path (attaches pagesize k vfio path) (vfioGetDeviceFd pagesize k vfio path).1
      (vfioGetDeviceFd pagesize k vfio path).2 := by
  unfold vfioGetDeviceFd attaches
  rcases vfioGetGroup_spec vfio path with hnone | ⟨i, group, hget, hslot⟩
  · rw [hnone]
    exact .full
  · rw [hget]
    dsimp only
    rw [← vfioGetGroupFd_isSome]
    have hspec := vfioGetGroupFd_spec pagesize k (vfio.setGroup i group) i
    generalize vfioGetGroupFd pagesize k (vfio.setGroup i group) i = r at hspec ⊢
    have hself : (vfio.setGroup i group).groups i = group := Function.update_self ..
    have hidem : ∀ g, Function.update (vfio.setGroup i group).groups i g =
        Function.update vfio.groups i g := fun g => Function.update_idem ..
    obtain ⟨gfd, vfio'⟩ := r
    cases hspec with
    | known hfd =>
        rw [hself] at hfd
        have hopen := opens_device (vfio.setGroup i group) _ k hslot hfd
          (sameFile_setGroup vfio i group) rfl (if_neg hfd).symm
        cases hdev : k.deviceFd with
        | none => rwa [hdev] at hopen
        | some dfd => rwa [hdev] at hopen
    | attached _ fd hfd hsame hgroups hnr =>
        rw [hself] at hfd
        rw [hself, hidem] at hgroups
        have hopen := opens_device vfio' fd k hslot (by omega)
          ⟨hsame.name, hsame.fd, hsame.refcount⟩ hgroups (hnr.trans (if_pos hfd).symm)
        cases hdev : k.deviceFd with
        | none => rwa [hdev] at hopen
        | some dfd => rwa [hdev] at hopen
    | refused _ hfd hsame hgroups hnr =>
        rw [hself] at hfd
        rw [hself, hidem] at hgroups
        exact .refused vfio' i group hslot hfd ⟨hsame.name, hsame.fd, hsame.refcount⟩ hgroups hnr

inductive Closes (vfio : GroupContainer π) (path : π) (vfio' : GroupContainer π) : Prop
  /-- The last device of the group: the slot is emptied, and without another group the
  descriptor of the container is closed. -/
  | last (i : ℕ) (hslot : slotOf vfio (some path) = some i) (hdevs : (vfio.groups i).nrDevs = 1)
      (hname : vfio'.name = vfio.name) (href : vfio'.refcount = vfio.refcount - 1)
      (hgroups : vfio'.groups = Function.update vfio.groups i ⟨-1, none, 0⟩)
      (hnr : vfio'.nrGroups = vfio.nrGroups - 1)
      (hfd : vfio'.fd = if vfio.nrGroups = 1 then -1 else vfio.fd)
  /-- Another device of the group. -/
  | more (i : ℕ) (hslot : slotOf vfio (some path) = some i) (hdevs : (vfio.groups i).nrDevs ≠ 1)
      (hname : vfio'.name = vfio.name) (href : vfio'.refcount = vfio.refcount - 1)
      (hgroups : vfio'.groups =
        Function.update vfio.groups i { vfio.groups i with nrDevs := (vfio.groups i).nrDevs - 1 })
      (hnr : vfio'.nrGroups = vfio.nrGroups) (hfd : vfio'.fd = vfio.fd)

theorem vfioPutDeviceFd_spec {vfio vfio' : GroupContainer π} {path : π}
    (h : vfioPutDeviceFd vfio path = some vfio') : Closes vfio path vfio' := by
  unfold vfioPutDeviceFd vfioGetGroup at h
  cases hslot : slotOf vfio (some path) with
  | none => simp [hslot] at h
  | some i =>
      simp only [hslot, Option.some.injEq] at h
      subst h
      unfold GroupContainer.closeDevice
      dsimp only
      by_cases hlast : (vfio.groups i).nrDevs = 1
      · rw [if_pos (by omega), hlast]
        by_cases hgroups : vfio.nrGroups = 1
        · rw [if_pos (by dsimp only [GroupContainer.setGroup]; omega)]
          exact .last i hslot hlast rfl rfl rfl rfl (if_pos hgroups).symm
        · rw [if_neg (by dsimp only [GroupContainer.setGroup]; omega)]
          exact .last i hslot hlast rfl rfl rfl rfl (if_neg hgroups).symm
      · rw [if_neg (by omega)]
        exact .more i hslot hlast rfl rfl rfl rfl rfl

theorem vfioPutDeviceFd_isSome {vfio : GroupContainer π} {path : π}
    (h : (slotOf vfio (some path)).isSome) : (vfioPutDeviceFd vfio path).isSome := by
  obtain ⟨i, hi⟩ := Option.isSome_iff_exists.mp h
  simp [vfioPutDeviceFd, vfioGetGroup, hi]

/-- What closing a device does to the containers: nothing if the group is not known, and
otherwise the container is freed with its last reference, or changed. -/
theorem Containers.closeDevice_spec {s s' : Containers π} {id : ℕ} {path : π} {ok : Bool}
    {vfio : GroupContainer π} (hheap : s.heap id = some vfio)
    (h : s.closeDevice id path = some (ok, s')) :
    vfioPutDeviceFd vfio path = none ∧ s' = s ∨
      ∃ vfio', vfioPutDeviceFd vfio path = some vfio' ∧
        (vfio'.refcount = 0 ∧
            s' = { s with
              heap := Function.update s.heap id none
              active := s.active.erase id } ∨
          vfio'.refcount ≠ 0 ∧ s' = { s with heap := Function.update s.heap id (some vfio') }) := by
  rw [Containers.closeDevice, hheap, Option.map_some, Option.some.injEq] at h
  cases hput : vfioPutDeviceFd vfio path with
  | none =>
      rw [hput] at h
      exact .inl ⟨rfl, (congrArg Prod.snd h).symm⟩
  | some vfio' =>
      simp only [hput] at h
      refine .inr ⟨vfio', rfl, ?_⟩
      by_cases hzero : vfio'.refcount = 0
      · rw [if_pos hzero] at h
        exact .inl ⟨hzero, (congrArg Prod.snd h).symm⟩
      · rw [if_neg hzero] at h
        exact .inr ⟨hzero, (congrArg Prod.snd h).symm⟩

end Spec

/-! ## Kernels for examples -/

def someContainer : NewContainer := ⟨some 3, fun _ => false, ⟨0, 0⟩⟩

def agrees : VfioAnswers := ⟨some 4, true, true, some iommuCtxInitRanges, some 5⟩

def refuses : VfioAnswers := { agrees with openGroup := none }

end Iommu

end Libvfn
