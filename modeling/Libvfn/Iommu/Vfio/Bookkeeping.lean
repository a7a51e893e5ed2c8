import Mathlib.Algebra.BigOperators.Group.Finset.Piecewise
import Libvfn.Foundation.Run
import Libvfn.Iommu.Vfio.Group

/-!
# What a container knows about its groups

A container counts the groups that are attached to it, and every group counts its open
devices. A slot is empty at first, then it has the path of a group, and then the descriptor
of the group, too; a failure on the way empties it again, and so does the last device that is
closed. We follow one container through all calls for devices of any groups, with any answers
of the kernel, and compare the counters with the slots and with a list of the devices that
are open.
-/

namespace Libvfn

namespace Iommu

open Runs

def VfioGroup.attached {π : Type*} (group : VfioGroup π) : Bool :=
  group.path.isSome && group.fd ≠ -1

def attachedSlots {π : Type*} (vfio : GroupContainer π) : Finset ℕ :=
  (Finset.range vfnMaxVfioGroups).filter fun i => (vfio.groups i).attached

structure BookState (δ π : Type*) where
  vfio : GroupContainer π
  opened : List δ

inductive BookOp (δ : Type*) where
  | context (d : δ)
  | getDevice (d : δ) (k : VfioAnswers)
  | putDevice (d : δ)

def BookOp.isPut {δ : Type*} : BookOp δ → Bool
  | .putDevice _ => true
  | _ => false

section Step

variable {δ π : Type*} [DecidableEq δ] [DecidableEq π]

/-- One call, `group` being the path of the group of a device. There is none once the
container is freed with its last reference, and a device is put only if it is open. -/
def bookStep (pagesize : Word.U64) (group : δ → π) (s : BookState δ π) (o : BookOp δ) :
    Option (BookState δ π) :=
  if s.vfio.refcount = 0 then none
  else
    match o with
    | .context d =>
        if (slotOf s.vfio (some (group d))).isSome then
          some { s with vfio := { s.vfio with refcount := s.vfio.refcount + 1 } }
        else some s
    | .getDevice d k =>
        let r := vfioGetDeviceFd pagesize k s.vfio (group d)
        some ⟨r.2, if r.1.isSome then d :: s.opened else s.opened⟩
    | .putDevice d =>
        if d ∈ s.opened then
          match vfioPutDeviceFd s.vfio (group d) with
          | none => some s
          | some vfio => some ⟨vfio, s.opened.erase d⟩
        else none

def bookInit (path : π) (fd : ℕ) (rand : ℕ → Bool) (garbage : FreeRange) : BookState δ π :=
  ⟨newContainer path fd rand garbage, []⟩

def BookState.nrOpened (group : δ → π) (s : BookState δ π) (path : π) : ℕ :=
  s.opened.countP fun d => group d = path

/-- The counters agree with the slots and the open devices. -/
structure Booked (group : δ → π) (s : BookState δ π) : Prop where
  /-- No two slots have the same path. -/
  distinct : ∀ i < vfnMaxVfioGroups, ∀ j < vfnMaxVfioGroups, ∀ path,
    (s.vfio.groups i).path = some path → (s.vfio.groups j).path = some path → i = j
  nrGroups : s.vfio.nrGroups = (attachedSlots s.vfio).card
  nrDevs : ∀ i < vfnMaxVfioGroups, ∀ path, (s.vfio.groups i).path = some path →
    (s.vfio.groups i).nrDevs = s.nrOpened group path
  /-- A group without a descriptor has no open device. -/
  closed : ∀ i < vfnMaxVfioGroups, ∀ path, (s.vfio.groups i).path = some path →
    (s.vfio.groups i).fd = -1 → s.nrOpened group path = 0
  /-- The group of an open device has a slot. -/
  slot : ∀ d ∈ s.opened, ∃ i < vfnMaxVfioGroups, (s.vfio.groups i).path = some (group d)

end Step

def noDevice : VfioAnswers := { agrees with deviceFd := none }

/-! ## Counting slots -/

section Count

variable {π : Type*}

/-- A slot with another group counts as the group does. -/
theorem card_attachedSlots_update {vfio vfio' : GroupContainer π} {i : ℕ} {new : VfioGroup π}
    (hi : i < vfnMaxVfioGroups) (hgroups : vfio'.groups = Function.update vfio.groups i new) :
    (attachedSlots vfio').card + (if (vfio.groups i).attached then 1 else 0) =
      (attachedSlots vfio).card + (if new.attached then 1 else 0) := by
  let count : VfioGroup π → ℕ := fun group => if group.attached then 1 else 0
  have hcard : ∀ v : GroupContainer π, (attachedSlots v).card =
      ∑ j ∈ Finset.range vfnMaxVfioGroups, count (v.groups j) := fun v =>
    Finset.card_filter _ _
  have hcount : (fun j => count (vfio'.groups j)) =
      Function.update (fun j => count (vfio.groups j)) i (count new) := by
    funext j
    rw [hgroups]
    exact Function.apply_update (fun _ => count) vfio.groups i new j
  have hmem : i ∈ Finset.range vfnMaxVfioGroups := Finset.mem_range.mpr hi
  rw [hcard, hcard, hcount, Finset.sum_update_of_mem hmem,
    ← Finset.sum_sdiff (Finset.singleton_subset_iff.mpr hmem), Finset.sum_singleton]
  change count new + _ + count (vfio.groups i) = _ + count (vfio.groups i) + count new
  ring

end Count

/-! ## One call -/

section Invariant

variable {δ π : Type*} [DecidableEq π] {group : δ → π} {s s' : BookState δ π}

/-- A slot gets another group and the devices change with it, those of other groups aside. -/
theorem Booked.update (h : Booked group s) {i : ℕ} {new : VfioGroup π} {vfio' : GroupContainer π}
    {opened' : List δ} (hi : i < vfnMaxVfioGroups)
    (hgroups : vfio'.groups = Function.update s.vfio.groups i new)
    (hnr : vfio'.nrGroups + (if (s.vfio.groups i).attached then 1 else 0) =
      s.vfio.nrGroups + (if new.attached then 1 else 0))
    (hother : ∀ j < vfnMaxVfioGroups, j ≠ i → ∀ path, (s.vfio.groups j).path = some path →
      new.path ≠ some path ∧
        (BookState.mk vfio' opened').nrOpened group path = s.nrOpened group path)
    (hnew : ∀ path, new.path = some path →
      new.nrDevs = (BookState.mk vfio' opened').nrOpened group path ∧
        (new.fd = -1 → (BookState.mk vfio' opened').nrOpened group path = 0))
    (hslot : ∀ d ∈ opened', new.path = some (group d) ∨
      ∃ j < vfnMaxVfioGroups, j ≠ i ∧ (s.vfio.groups j).path = some (group d)) :
    Booked group ⟨vfio', opened'⟩ := by
  have hself : vfio'.groups i = new := by rw [hgroups, Function.update_self]
  have hne : ∀ j, j ≠ i → vfio'.groups j = s.vfio.groups j := fun j hj => by
    rw [hgroups, Function.update_of_ne hj]
  constructor
  · intro j hj j' hj' path hpath hpath'
    dsimp only at hpath hpath'
    by_cases hji : j = i
    · by_cases hji' : j' = i
      · rw [hji, hji']
      · rw [hji, hself] at hpath
        rw [hne j' hji'] at hpath'
        exact absurd hpath (hother j' hj' hji' path hpath').1
    · rw [hne j hji] at hpath
      by_cases hji' : j' = i
      · rw [hji', hself] at hpath'
        exact absurd hpath' (hother j hj hji path hpath).1
      · rw [hne j' hji'] at hpath'
        exact h.distinct j hj j' hj' path hpath hpath'
  · have hcard := card_attachedSlots_update hi hgroups
    have hbefore := h.nrGroups
    dsimp only
    split_ifs at hnr hcard <;> omega
  · intro j hj path hpath
    dsimp only at hpath ⊢
    by_cases hji : j = i
    · rw [hji, hself] at hpath ⊢
      exact (hnew path hpath).1
    · rw [hne j hji] at hpath ⊢
      rw [(hother j hj hji path hpath).2]
      exact h.nrDevs j hj path hpath
  · intro j hj path hpath hfd
    dsimp only at hpath hfd
    by_cases hji : j = i
    · rw [hji, hself] at hpath hfd
      exact (hnew path hpath).2 hfd
    · rw [hne j hji] at hpath hfd
      rw [(hother j hj hji path hpath).2]
      exact h.closed j hj path hpath hfd
  · intro d hd
    dsimp only
    rcases hslot d hd with hpath | ⟨j, hj, hji, hpath⟩
    · exact ⟨i, hi, by rw [hself, hpath]⟩
    · exact ⟨j, hj, by rw [hne j hji, hpath]⟩

theorem slotOf_eq_none {vfio : GroupContainer π} {path : Option π}
    (h : slotOf vfio path = none) {i : ℕ} (hi : i < vfnMaxVfioGroups) :
    (vfio.groups i).path ≠ path := by
  have hnot := List.find?_eq_none.mp h i (List.mem_range.mpr hi)
  simpa using hnot

theorem Booked.path_ne (h : Booked group s) {path path' : π} {i : ℕ} {g : VfioGroup π}
    (hg : IsSlot s.vfio path i g) {j : ℕ} (hj : j < vfnMaxVfioGroups) (hji : j ≠ i)
    (hpath' : (s.vfio.groups j).path = some path') : path ≠ path' := by
  rintro rfl
  cases hg with
  | found hfound =>
      obtain ⟨hi, hpath⟩ := slotOf_eq_some hfound
      exact hji (h.distinct j hj i hi path hpath' hpath)
  | empty hnone _ => exact slotOf_eq_none hnone hj hpath'

theorem nrOpened_eq_zero_iff {path : π} :
    s.nrOpened group path = 0 ↔ ∀ d ∈ s.opened, group d ≠ path := by
  simp [BookState.nrOpened, List.countP_eq_zero]

theorem Booked.nrDevs_eq (h : Booked group s) {path : π} {i : ℕ} {g : VfioGroup π}
    (hg : IsSlot s.vfio path i g) :
    g.nrDevs = s.nrOpened group path ∧ (g.fd = -1 → s.nrOpened group path = 0) := by
  cases hg with
  | found hfound =>
      obtain ⟨hi, hpath⟩ := slotOf_eq_some hfound
      exact ⟨h.nrDevs i hi path hpath, h.closed i hi path hpath⟩
  | empty hnone _ =>
      have hzero : s.nrOpened group path = 0 := by
        rw [nrOpened_eq_zero_iff]
        rintro d hd rfl
        obtain ⟨j, hj, hslot⟩ := h.slot d hd
        exact slotOf_eq_none hnone hj hslot
      rw [hzero]
      exact ⟨rfl, fun _ => rfl⟩

theorem IsSlot.attached_iff {vfio : GroupContainer π} {path : π} {i : ℕ} {g : VfioGroup π}
    (hg : IsSlot vfio path i g) : (vfio.groups i).attached ↔ g.fd ≠ -1 := by
  cases hg with
  | found hfound => simp [VfioGroup.attached, (slotOf_eq_some hfound).2]
  | empty _ hempty => simp [VfioGroup.attached, (slotOf_eq_some hempty).2]

theorem Booked.slot_ne (h : Booked group s) {path : π} {i : ℕ} {g : VfioGroup π}
    (hg : IsSlot s.vfio path i g) {d : δ} (hd : d ∈ s.opened) (hne : group d ≠ path) :
    ∃ j < vfnMaxVfioGroups, j ≠ i ∧ (s.vfio.groups j).path = some (group d) := by
  obtain ⟨j, hj, hslot⟩ := h.slot d hd
  refine ⟨j, hj, ?_, hslot⟩
  rintro rfl
  cases hg with
  | found hfound =>
      rw [(slotOf_eq_some hfound).2] at hslot
      exact hne (Option.some.inj hslot).symm
  | empty _ hempty =>
      rw [(slotOf_eq_some hempty).2] at hslot
      cases hslot

/-- A device is opened, or not. -/
theorem Booked.getDevice (h : Booked group s) (d : δ) {attached : Bool} {dev : Option ℕ}
    {vfio' : GroupContainer π} (hopens : Opens s.vfio (group d) attached dev vfio') :
    Booked group ⟨vfio', if dev.isSome then d :: s.opened else s.opened⟩ := by
  cases hopens with
  | full => exact h
  | refused _ i g hg hfd _ hgroups hnr =>
      have hzero := (h.nrDevs_eq hg).2 hfd
      refine h.update hg.lt hgroups ?_ (fun j hj hji path hpath => ⟨nofun, rfl⟩) nofun ?_
      · rw [if_neg (by rw [hg.attached_iff]; exact not_not.mpr hfd), hnr]
        rfl
      · exact fun d' hd' => .inr (h.slot_ne hg hd' (nrOpened_eq_zero_iff.mp hzero d' hd'))
  | opened _ i g fd _ hg hfd _ hgroups hnr =>
      have hnew : (VfioGroup.mk fd (some (group d))
          (if dev.isSome then g.nrDevs + 1 else g.nrDevs)).attached := by
        simp [VfioGroup.attached, hfd]
      refine h.update hg.lt hgroups ?_ ?_ ?_ ?_
      · rw [hnr, if_pos hnew]
        by_cases hgfd : g.fd = -1
        · rw [if_pos hgfd, if_neg (by rw [hg.attached_iff]; exact not_not.mpr hgfd)]
          omega
        · rw [if_neg hgfd, if_pos (hg.attached_iff.mpr hgfd)]
      · intro j hj hji path hpath
        have hne := h.path_ne hg hj hji hpath
        refine ⟨fun heq => hne (Option.some.inj heq), ?_⟩
        cases dev with
        | none => rfl
        | some dfd => exact List.countP_cons_of_neg (by simpa using hne)
      · intro path hpath
        obtain rfl := Option.some.inj hpath
        have hdevs := (h.nrDevs_eq hg).1
        refine ⟨?_, fun hneg => absurd hneg hfd⟩
        cases dev with
        | none => exact hdevs
        | some dfd =>
            have hcount : (BookState.mk vfio' (d :: s.opened)).nrOpened group (group d) =
                s.nrOpened group (group d) + 1 :=
              List.countP_cons_of_pos (by simp)
            simp only [Option.isSome_some, if_true]
            rw [hcount, hdevs]
            push_cast
            rfl
      · intro d' hd'
        by_cases hpath : group d' = group d
        · exact .inl (by rw [hpath])
        · refine .inr (h.slot_ne hg ?_ hpath)
          cases dev with
          | none => exact hd'
          | some dfd =>
              rcases List.mem_cons.mp hd' with rfl | hmem
              · exact absurd rfl hpath
              · exact hmem

variable [DecidableEq δ]

theorem nrOpened_erase (vfio' : GroupContainer π) {d : δ} (hd : d ∈ s.opened) (path : π) :
    (BookState.mk vfio' (s.opened.erase d)).nrOpened group path =
      s.nrOpened group path - if group d = path then 1 else 0 := by
  rw [BookState.nrOpened, List.countP_erase, BookState.nrOpened]
  simp [hd]

/-- An open device is put. -/
theorem Booked.putDevice (h : Booked group s) {d : δ} (hd : d ∈ s.opened)
    {vfio' : GroupContainer π} (hcloses : Closes s.vfio (group d) vfio') :
    Booked group ⟨vfio', s.opened.erase d⟩ := by
  have hpos : 0 < s.nrOpened group (group d) :=
    List.countP_pos_iff.mpr ⟨d, hd, decide_eq_true rfl⟩
  -- the group has a descriptor, as it has an open device
  have hopen : ∀ {i : ℕ}, IsSlot s.vfio (group d) i (s.vfio.groups i) →
      (s.vfio.groups i).fd ≠ -1 := fun hg hfd => hpos.ne' ((h.nrDevs_eq hg).2 hfd)
  have hother : ∀ {i : ℕ}, IsSlot s.vfio (group d) i (s.vfio.groups i) →
      ∀ j < vfnMaxVfioGroups, j ≠ i → ∀ path, (s.vfio.groups j).path = some path →
        group d ≠ path ∧ (BookState.mk vfio' (s.opened.erase d)).nrOpened group path =
          s.nrOpened group path := by
    intro i hg j hj hji path hpath
    have hne := h.path_ne hg hj hji hpath
    rw [nrOpened_erase vfio' hd, if_neg hne]
    exact ⟨hne, rfl⟩
  cases hcloses with
  | last i hslot hdevs _ _ hgroups hnr _ =>
      have hg := IsSlot.found hslot
      have hone : s.nrOpened group (group d) = 1 := by
        have hcount := (h.nrDevs_eq hg).1
        omega
      refine h.update hg.lt hgroups ?_ (fun j hj hji path hpath =>
        ⟨nofun, (hother hg j hj hji path hpath).2⟩) nofun ?_
      · rw [if_pos (hg.attached_iff.mpr (hopen hg)), hnr]
        change s.vfio.nrGroups - 1 + 1 = s.vfio.nrGroups + 0
        omega
      · intro d' hd'
        have hzero : (BookState.mk vfio' (s.opened.erase d)).nrOpened group (group d) = 0 := by
          rw [nrOpened_erase vfio' hd, hone, if_pos rfl]
        exact .inr (h.slot_ne hg (List.mem_of_mem_erase hd')
          (nrOpened_eq_zero_iff.mp hzero d' hd'))
  | more i hslot hdevs _ _ hgroups hnr _ =>
      have hg := IsSlot.found hslot
      have hpath := hg.path_eq
      refine h.update hg.lt hgroups ?_ ?_ ?_ ?_
      · rw [hnr]
        rfl
      · intro j hj hji path hpath'
        obtain ⟨hne, hcount⟩ := hother hg j hj hji path hpath'
        refine ⟨fun heq => hne ?_, hcount⟩
        exact Option.some.inj (hpath.symm.trans heq)
      · intro path hpath'
        obtain rfl : group d = path := Option.some.inj (hpath.symm.trans hpath')
        refine ⟨?_, fun hfd => absurd hfd (hopen hg)⟩
        have hcount := (h.nrDevs_eq hg).1
        rw [nrOpened_erase vfio' hd, if_pos rfl]
        dsimp only
        omega
      · intro d' hd'
        by_cases heq : group d' = group d
        · exact .inl (by rw [heq]; exact hpath)
        · exact .inr (h.slot_ne hg (List.mem_of_mem_erase hd') heq)

inductive Books (group : δ → π) (s : BookState δ π) : BookOp δ → BookState δ π → Prop
  /-- A reference is added, or another container is meant. -/
  | context (d : δ) (vfio' : GroupContainer π) (hgroups : vfio'.groups = s.vfio.groups)
      (hnr : vfio'.nrGroups = s.vfio.nrGroups) (hfd : vfio'.fd = s.vfio.fd) :
      Books group s (.context d) { s with vfio := vfio' }
  | getDevice (d : δ) (k : VfioAnswers) (attached : Bool) (dev : Option ℕ)
      (vfio' : GroupContainer π) (hopens : Opens s.vfio (group d) attached dev vfio') :
      Books group s (.getDevice d k) ⟨vfio', if dev.isSome then d :: s.opened else s.opened⟩
  /-- The group of the device is not known. -/
  | unknown (d : δ) (hd : d ∈ s.opened) (hnone : slotOf s.vfio (some (group d)) = none) :
      Books group s (.putDevice d) s
  | putDevice (d : δ) (hd : d ∈ s.opened) (vfio' : GroupContainer π)
      (hcloses : Closes s.vfio (group d) vfio') :
      Books group s (.putDevice d) ⟨vfio', s.opened.erase d⟩

theorem bookStep_books {pagesize : Word.U64} {o : BookOp δ}
    (h : bookStep pagesize group s o = some s') : Books group s o s' := by
  unfold bookStep at h
  split_ifs at h
  cases o with
  | context d =>
      dsimp only at h
      split_ifs at h
      · obtain rfl := Option.some.inj h
        exact .context d _ rfl rfl rfl
      · obtain rfl := Option.some.inj h
        exact .context d s.vfio rfl rfl rfl
  | getDevice d k =>
      obtain rfl := Option.some.inj h
      exact .getDevice d k _ _ _ (vfioGetDeviceFd_spec pagesize k s.vfio (group d))
  | putDevice d =>
      dsimp only at h
      split_ifs at h with hd
      cases hput : vfioPutDeviceFd s.vfio (group d) with
      | none =>
          rw [hput] at h
          obtain rfl := Option.some.inj h
          refine .unknown d hd (Option.not_isSome_iff_eq_none.mp fun hslot => ?_)
          have hsome := vfioPutDeviceFd_isSome hslot
          rw [hput] at hsome
          cases hsome
      | some vfio' =>
          rw [hput] at h
          obtain rfl := Option.some.inj h
          exact .putDevice d hd vfio' (vfioPutDeviceFd_spec hput)

theorem Booked.step (h : Booked group s) {o : BookOp δ} (hstep : Books group s o s') :
    Booked group s' := by
  cases hstep with
  | context d vfio' hgroups hnr _ =>
      have hslots : attachedSlots vfio' = attachedSlots s.vfio := by
        rw [attachedSlots, hgroups, attachedSlots]
      refine ⟨?_, ?_, ?_, ?_, ?_⟩ <;> dsimp only
      · rw [hgroups]
        exact h.distinct
      · rw [hnr, hslots]
        exact h.nrGroups
      · rw [hgroups]
        exact h.nrDevs
      · rw [hgroups]
        exact h.closed
      · rw [hgroups]
        exact h.slot
  | getDevice d k attached dev vfio' hopens => exact h.getDevice d hopens
  | unknown d hd hnone => exact h
  | putDevice d hd vfio' hcloses => exact h.putDevice hd hcloses

/-- The descriptor of the container is closed by the put of the last device of the last
group. -/
theorem Booked.fd_eq (h : Booked group s) {o : BookOp δ} (hstep : Books group s o s') :
    s'.vfio.fd =
      if o.isPut ∧ s.vfio.nrGroups ≠ 0 ∧ s'.vfio.nrGroups = 0 then -1 else s.vfio.fd := by
  cases hstep with
  | context d vfio' _ _ hfd =>
      exact hfd.trans (if_neg fun hmakes => Bool.false_ne_true hmakes.1).symm
  | getDevice d k attached dev vfio' hopens =>
      exact hopens.sameFile.fd.trans (if_neg fun hmakes => Bool.false_ne_true hmakes.1).symm
  | unknown d hd hnone =>
      obtain ⟨i, hi, hpath⟩ := h.slot d hd
      exact absurd hpath (slotOf_eq_none hnone hi)
  | putDevice d hd vfio' hcloses =>
      cases hcloses with
      | last i hslot hdevs _ _ hgroups hnr hfd =>
          rw [hfd]
          dsimp only
          rw [hnr]
          refine if_congr ?_ rfl rfl
          constructor
          · intro hone
            exact ⟨rfl, by omega, by omega⟩
          · rintro ⟨-, -, hzero⟩
            omega
      | more i hslot hdevs _ _ hgroups hnr hfd =>
          rw [if_neg fun hmakes => hmakes.2.1 (hnr.symm.trans hmakes.2.2)]
          exact hfd

end Invariant

/-! ## Whole runs -/

section Run

variable {δ π : Type*} [DecidableEq π]

theorem booked_init (group : δ → π) (path : π) (fd : ℕ) (rand : ℕ → Bool) (garbage : FreeRange) :
    Booked group (bookInit path fd rand garbage) := by
  have hpath : ∀ i path', ((newContainer path fd rand garbage).groups i).path = some path' →
      i = 0 ∧ path' = path := by
    intro i path' h
    dsimp only [newContainer] at h
    split_ifs at h with hi
    exact ⟨hi, (Option.some.inj h).symm⟩
  refine ⟨?_, ?_, ?_, fun _ _ _ _ _ => rfl, nofun⟩
  · intro i _ j _ p hi hj
    rw [(hpath i p hi).1, (hpath j p hj).1]
  · have hnone : attachedSlots (newContainer path fd rand garbage) = ∅ := by
      refine Finset.filter_eq_empty_iff.mpr fun i _ => ?_
      dsimp only [newContainer]
      split_ifs <;> simp [VfioGroup.attached]
    change (0 : ℤ) = (attachedSlots (newContainer path fd rand garbage)).card
    rw [hnone]
    rfl
  · intro i _ p hi
    obtain ⟨rfl, -⟩ := hpath i p hi
    rfl

variable [DecidableEq δ]

/-- In every state of a container the counters agree with the slots and the open devices, and
its descriptor is closed exactly when the last device of the last group is put. -/
theorem groups_booked (pagesize : Word.U64) (group : δ → π) (path : π) (fd : ℕ) (rand : ℕ → Bool)
    (garbage : FreeRange) (os : List (BookOp δ)) {s : BookState δ π}
    (hrun : run (bookStep pagesize group) (bookInit path fd rand garbage) os = some s) :
    Booked group s ∧ ∀ o s', bookStep pagesize group s o = some s' →
      s'.vfio.fd =
        if o.isPut ∧ s.vfio.nrGroups ≠ 0 ∧ s'.vfio.nrGroups = 0 then -1 else s.vfio.fd := by
  have hbooked : Booked group s :=
    run_invariant_of_step (fun s o s' h hstep => h.step (bookStep_books hstep))
      (booked_init group path fd rand garbage) hrun
  exact ⟨hbooked, fun o s' hstep => hbooked.fd_eq (bookStep_books hstep)⟩

/-- Two groups of two devices each. A device that cannot be opened leaves its group attached. -/
theorem groups_booked_two_groups :
    ∃ s, run (bookStep 0x1000 fun d : ℕ => d / 2) (bookInit 0 3 (fun _ => false) ⟨0, 0⟩)
        [.getDevice 0 agrees, .context 1, .getDevice 1 agrees, .getDevice 2 noDevice,
          .putDevice 0] = some s ∧
      s.vfio.nrGroups = 2 ∧ s.opened = [1] ∧ Booked (fun d : ℕ => d / 2) s :=
  ⟨_, rfl, rfl, rfl, (groups_booked 0x1000 (fun d : ℕ => d / 2) 0 3 (fun _ => false) ⟨0, 0⟩
    [.getDevice 0 agrees, .context 1, .getDevice 1 agrees, .getDevice 2 noDevice, .putDevice 0]
    rfl).1⟩

end Run

end Iommu

end Libvfn
