import Libvfn.Foundation.Run
import Libvfn.Iommu.Vfio.Group

/-!
# How long a context can be used

A user of a device gets a context, opens the device through it and closes the device in
the end. It may also take the context of another user. All devices are in one group.
The question is whether a context can be used as long as a user has it: whether the
container is in memory and its descriptor open.

Closing a device drops a reference, also if the user has taken none, and frees the
container with the last one; and closing the last device closes the descriptor, also if
another user is about to open a device. A run keeps every context usable exactly when
the users do without both: a close that drops the last reference or closes the last
device happens only when no other user has the context.
-/

namespace Libvfn

namespace Iommu

open Runs

inductive DeviceUser where
  | idle
  | holds (id : ℕ)
  | opened (id : ℕ)
  deriving DecidableEq

def DeviceUser.ctx : DeviceUser → Option ℕ
  | .idle => none
  | .holds id => some id
  | .opened id => some id

def DeviceUser.device : DeviceUser → Option ℕ
  | .opened id => some id
  | _ => none

theorem DeviceUser.ctx_of_device {user : DeviceUser} {id : ℕ} (h : user.device = some id) :
    user.ctx = some id := by
  cases user with
  | opened id' => exact h
  | idle => cases h
  | holds id' => cases h

structure LifeState (υ π : Type*) where
  containers : Containers π
  user : υ → DeviceUser

/-- What a user does: the parts of `vfio_pci_open`, and `vfio_pci_close`. -/
inductive LifeOp (υ : Type*) where
  | get (u : υ) (new : NewContainer)
  /-- Set `dev.ctx` to the context of another user beforehand. -/
  | preset (u v : υ)
  | openDevice (u : υ) (k : VfioAnswers)
  | closeDevice (u : υ)

section Step

variable {υ π : Type*} [DecidableEq υ] [DecidableEq π]

def LifeState.setUser (s : LifeState υ π) (u : υ) (user : DeviceUser) : LifeState υ π :=
  { s with user := Function.update s.user u user }

/-- One step of a user, all devices being in the group with the path. A device that could
not be opened leaves its user with the context. -/
def lifeStep (pagesize : Word.U64) (path : π) (s : LifeState υ π) :
    LifeOp υ → Option (LifeState υ π)
  | .get u new =>
      match s.user u with
      | .idle =>
          let r := vfioGetIommuContext s.containers path new
          some ({ s with containers := r.2 }.setUser u (r.1.elim .idle .holds))
      | _ => none
  | .preset u v =>
      match s.user u with
      | .idle => (s.user v).ctx.map fun id => s.setUser u (.holds id)
      | _ => none
  | .openDevice u k =>
      match s.user u with
      | .holds id =>
          (s.containers.openDevice pagesize id path k).map fun r =>
            { s with containers := r.2 }.setUser u (if r.1.isSome then .opened id else .holds id)
      | _ => none
  | .closeDevice u =>
      match s.user u with
      | .opened id =>
          (s.containers.closeDevice id path).map fun r =>
            { s with containers := r.2 }.setUser u .idle
      | _ => none

def lifeInit (υ π : Type*) : LifeState υ π := ⟨noContainers π, fun _ => .idle⟩

/-- Every context that a user has is in memory and its descriptor open. -/
def Usable (s : LifeState υ π) : Prop :=
  ∀ u id, (s.user u).ctx = some id → ∃ vfio, s.containers.heap id = some vfio ∧ vfio.fd ≠ -1

/-- A device is closed with the last reference, or as the last one of the group, only
when no other user has the context. -/
def Spares (path : π) (s : LifeState υ π) : LifeOp υ → Prop
  | .closeDevice u =>
      ∀ id ∈ (s.user u).device, ∀ vfio ∈ s.containers.heap id,
        ∀ i ∈ slotOf vfio (some path), vfio.refcount = 1 ∨ (vfio.groups i).nrDevs = 1 →
          ∀ v, v ≠ u → (s.user v).ctx ≠ some id
  | _ => True

instance [Fintype υ] (path : π) (s : LifeState υ π) : DecidablePred (Spares path s)
  | .get _ _ => .isTrue trivial
  | .preset _ _ => .isTrue trivial
  | .openDevice _ _ => .isTrue trivial
  | .closeDevice u => inferInstanceAs (Decidable (∀ id ∈ (s.user u).device,
      ∀ vfio ∈ s.containers.heap id, ∀ i ∈ slotOf vfio (some path),
        vfio.refcount = 1 ∨ (vfio.groups i).nrDevs = 1 → ∀ v, v ≠ u → (s.user v).ctx ≠ some id))

end Step

/-! ## The slot of the group -/

section Slot

variable {π : Type*} [DecidableEq π] {path : π} {vfio vfio' : GroupContainer π}

/-- The group of the path has a slot or none, and no other slot is taken. A group without
a descriptor has no devices, and the number of groups is the number of descriptors. -/
inductive OneSlot (path : π) (vfio : GroupContainer π) : Prop
  | free (hfree : ∀ j < vfnMaxVfioGroups, (vfio.groups j).path = none) (hnr : vfio.nrGroups = 0)
  | taken (i : ℕ) (hslot : slotOf vfio (some path) = some i)
      (hfree : ∀ j < vfnMaxVfioGroups, j ≠ i → (vfio.groups j).path = none)
      (hgroup : (vfio.groups i).fd = -1 ∧ (vfio.groups i).nrDevs = 0 ∧ vfio.nrGroups = 0 ∨
        (vfio.groups i).fd ≠ -1 ∧ vfio.nrGroups = 1)

theorem OneSlot.congr (h : OneSlot path vfio) (hgroups : vfio'.groups = vfio.groups)
    (hnr : vfio'.nrGroups = vfio.nrGroups) : OneSlot path vfio' := by
  have hslots : slotOf vfio' (some path) = slotOf vfio (some path) := by
    rw [slotOf, slotOf, hgroups]
  cases h with
  | free hfree hzero => exact .free (by rwa [hgroups]) (hnr.trans hzero)
  | taken i hslot hfree hgroup =>
      refine .taken i (hslots.trans hslot) (by rwa [hgroups]) ?_
      rwa [hgroups, hnr]

def Attached (path : π) (vfio : GroupContainer π) : Prop :=
  ∃ i, slotOf vfio (some path) = some i ∧ (vfio.groups i).fd ≠ -1

theorem slotOf_update {i : ℕ} {group : VfioGroup π} (hi : i < vfnMaxVfioGroups)
    (hgroups : vfio'.groups = Function.update vfio.groups i group)
    (hpath : group.path = some path)
    (hfree : ∀ j < vfnMaxVfioGroups, j ≠ i → (vfio.groups j).path = none) :
    slotOf vfio' (some path) = some i := by
  have hsome : (slotOf vfio' (some path)).isSome :=
    slotOf_isSome_iff.mpr ⟨i, hi, by rw [hgroups, Function.update_self, hpath]⟩
  obtain ⟨j, hj⟩ := Option.isSome_iff_exists.mp hsome
  obtain ⟨hlt, hjpath⟩ := slotOf_eq_some hj
  by_cases hji : j = i
  · rw [hj, hji]
  · rw [hgroups, Function.update_of_ne hji, hfree j hlt hji] at hjpath
    cases hjpath

omit [DecidableEq π] in
theorem free_update {i : ℕ} {group : VfioGroup π}
    (hgroups : vfio'.groups = Function.update vfio.groups i group)
    (hfree : ∀ j < vfnMaxVfioGroups, j ≠ i → (vfio.groups j).path = none) :
    ∀ j < vfnMaxVfioGroups, j ≠ i → (vfio'.groups j).path = none := by
  intro j hj hji
  rw [hgroups, Function.update_of_ne hji]
  exact hfree j hj hji

theorem OneSlot.free_of_isSlot (h : OneSlot path vfio) {i : ℕ} {group : VfioGroup π}
    (hslot : IsSlot vfio path i group) :
    ∀ j < vfnMaxVfioGroups, j ≠ i → (vfio.groups j).path = none := by
  intro j hj hji
  cases h with
  | free hfree => exact hfree j hj
  | taken i' hslot' hfree =>
      cases hslot with
      | found hfound =>
          obtain rfl : i' = i := Option.some.inj (hslot'.symm.trans hfound)
          exact hfree j hj hji
      | empty hnone =>
          rw [hnone] at hslot'
          cases hslot'

theorem OneSlot.opens (h : OneSlot path vfio) {attached : Bool} {dev : Option ℕ}
    (hopens : Opens vfio path attached dev vfio') : OneSlot path vfio' := by
  cases hopens with
  | full => exact h
  | refused _ i group hslot hfd hsame hgroups hnr =>
      have hfree := h.free_of_isSlot hslot
      refine .free (fun j hj => ?_) ?_
      · by_cases hji : j = i
        · rw [hji, hgroups, Function.update_self]
        · exact free_update hgroups hfree j hj hji
      · rw [hnr]
        cases h with
        | free _ hzero => exact hzero
        | taken i' hslot' _ hgroup =>
            cases hslot with
            | found hfound =>
                obtain rfl : i' = i := Option.some.inj (hslot'.symm.trans hfound)
                exact (hgroup.resolve_right fun hopen => hopen.1 hfd).2.2
            | empty hnone =>
                rw [hnone] at hslot'
                cases hslot'
  | opened _ i group fd dev hslot hfd hsame hgroups hnr =>
      have hfree := h.free_of_isSlot hslot
      refine .taken i (slotOf_update hslot.lt hgroups rfl hfree) (free_update hgroups hfree) ?_
      rw [hgroups, Function.update_self]
      refine .inr ⟨hfd, ?_⟩
      rw [hnr]
      cases h with
      | free hall hzero =>
          cases hslot with
          | found hfound =>
              obtain ⟨hlt, hpath⟩ := slotOf_eq_some hfound
              rw [hall i hlt] at hpath
              cases hpath
          | empty => simp [hzero]
      | taken i' hslot' _ hgroup =>
          cases hslot with
          | found hfound =>
              obtain rfl : i' = i := Option.some.inj (hslot'.symm.trans hfound)
              rcases hgroup with ⟨hclosed, -, hzero⟩ | ⟨hopen, hone⟩
              · rw [if_pos hclosed, hzero]
                rfl
              · rw [if_neg hopen, hone]
          | empty hnone =>
              rw [hnone] at hslot'
              cases hslot'

/-- A group stays attached when another device is opened. -/
theorem Attached.opens (h : Attached path vfio) (hone : OneSlot path vfio) {attached : Bool}
    {dev : Option ℕ} (hopens : Opens vfio path attached dev vfio') : Attached path vfio' := by
  obtain ⟨i, hi, hopen⟩ := h
  cases hopens with
  | full => exact ⟨i, hi, hopen⟩
  | refused _ j group hslot hfd hsame hgroups hnr =>
      cases hslot with
      | found hfound =>
          obtain rfl : i = j := Option.some.inj (hi.symm.trans hfound)
          exact absurd hfd hopen
      | empty hnone =>
          rw [hnone] at hi
          cases hi
  | opened _ j group fd dev hslot hfd hsame hgroups hnr =>
      have hslot' := slotOf_update hslot.lt hgroups rfl (hone.free_of_isSlot hslot)
      refine ⟨j, hslot', ?_⟩
      rw [hgroups, Function.update_self]
      exact hfd

theorem attached_of_opens {dev : Option ℕ} {attached : Bool} (hone : OneSlot path vfio)
    (hopens : Opens vfio path attached dev vfio') (hdev : dev.isSome) : Attached path vfio' := by
  cases hopens with
  | full => cases hdev
  | refused => cases hdev
  | opened _ i group fd dev hslot hfd hsame hgroups hnr =>
      refine ⟨i, slotOf_update hslot.lt hgroups rfl (hone.free_of_isSlot hslot), ?_⟩
      rw [hgroups, Function.update_self]
      exact hfd

/-- Closing the last device of an attached group empties its slot and closes the
descriptor. Closing another one leaves both. -/
theorem OneSlot.closes (h : OneSlot path vfio) (hatt : Attached path vfio)
    (hcloses : Closes vfio path vfio') :
    OneSlot path vfio' ∧ vfio'.refcount = vfio.refcount - 1 ∧
      ∃ i, slotOf vfio (some path) = some i ∧
        ((vfio.groups i).nrDevs = 1 ∧ slotOf vfio' (some path) = none ∧ vfio'.fd = -1 ∨
          (vfio.groups i).nrDevs ≠ 1 ∧ Attached path vfio' ∧ vfio'.fd = vfio.fd) := by
  obtain ⟨i, hi, hopen⟩ := hatt
  obtain ⟨hlt, hpath⟩ := slotOf_eq_some hi
  have hfree := h.free_of_isSlot (.found hi)
  have hnr1 : vfio.nrGroups = 1 := by
    cases h with
    | free hall =>
        rw [hall i hlt] at hpath
        cases hpath
    | taken i' hslot' _ hgroup =>
        obtain rfl : i = i' := Option.some.inj (hi.symm.trans hslot')
        exact (hgroup.resolve_left fun hclosed => hopen hclosed.1).2
  cases hcloses with
  | last j hslot hdevs hname href hgroups hnr hfd =>
      obtain rfl : i = j := Option.some.inj (hi.symm.trans hslot)
      have hfree' : ∀ j < vfnMaxVfioGroups, (vfio'.groups j).path = none := by
        intro j hj
        by_cases hji : j = i
        · rw [hji, hgroups, Function.update_self]
        · exact free_update hgroups hfree j hj hji
      refine ⟨.free hfree' (by omega), href, i, hi, .inl ⟨hdevs, ?_, by rw [hfd, if_pos hnr1]⟩⟩
      cases hslot' : slotOf vfio' (some path) with
      | none => rfl
      | some j =>
          obtain ⟨hj, hjpath⟩ := slotOf_eq_some hslot'
          rw [hfree' j hj] at hjpath
          cases hjpath
  | more j hslot hdevs hname href hgroups hnr hfd =>
      obtain rfl : i = j := Option.some.inj (hi.symm.trans hslot)
      have hslot' : slotOf vfio' (some path) = some i := slotOf_update hlt hgroups hpath hfree
      have hfd' : (vfio'.groups i).fd ≠ -1 := by
        rw [hgroups, Function.update_self]
        exact hopen
      refine ⟨.taken i hslot' (free_update hgroups hfree) (.inr ⟨hfd', hnr.trans hnr1⟩), href, i,
        hi,
        .inr ⟨hdevs, ⟨i, hslot', hfd'⟩, hfd⟩⟩

end Slot

/-! ## The users -/

section Users

variable {υ π : Type*} [DecidableEq υ] [DecidableEq π] {path : π} {s s' : LifeState υ π}
  {u : υ} {id fresh : ℕ} {active : List ℕ} {user : DeviceUser} {vfio vfio' : GroupContainer π}

/-- What holds between the steps: a container that can be found can be used, and a device
that was opened belongs to an attached group. -/
structure LifeInv (path : π) (s : LifeState υ π) : Prop where
  slots : ∀ id vfio, s.containers.heap id = some vfio → OneSlot path vfio
  live : ∀ id vfio, s.containers.heap id = some vfio →
    (slotOf vfio (some path)).isSome → vfio.fd ≠ -1
  attached : ∀ u id vfio, (s.user u).device = some id → s.containers.heap id = some vfio →
    Attached path vfio
  unused : ∀ id, s.containers.fresh ≤ id → s.containers.heap id = none

def LifeState.update (s : LifeState υ π) (id : ℕ) (vfio : GroupContainer π) (active : List ℕ)
    (fresh : ℕ) (u : υ) (user : DeviceUser) : LifeState υ π where
  containers := ⟨Function.update s.containers.heap id (some vfio), active, fresh⟩
  user := Function.update s.user u user

omit [DecidableEq π] in
@[simp]
theorem LifeState.update_user_self :
    (s.update id vfio' active fresh u user).user u = user := Function.update_self ..

omit [DecidableEq π] in
@[simp]
theorem LifeState.update_user_of_ne {v : υ} (hv : v ≠ u) :
    (s.update id vfio' active fresh u user).user v = s.user v := Function.update_of_ne hv ..

omit [DecidableEq π] in
@[simp]
theorem LifeState.setUser_self : (s.setUser u user).user u = user := Function.update_self ..

omit [DecidableEq π] in
@[simp]
theorem LifeState.setUser_of_ne {v : υ} (hv : v ≠ u) :
    (s.setUser u user).user v = s.user v := Function.update_of_ne hv ..

omit [DecidableEq π] in
theorem Usable.update (h : Usable s) (hfd : vfio'.fd ≠ -1)
    (huser : ∀ j, user.ctx = some j → j = id) :
    Usable (s.update id vfio' active fresh u user) := by
  intro v j hv
  by_cases hj : j = id
  · subst hj
    exact ⟨vfio', Function.update_self .., hfd⟩
  · have hvu : v ≠ u := by
      rintro rfl
      rw [LifeState.update_user_self] at hv
      exact hj (huser j hv)
    rw [LifeState.update_user_of_ne hvu] at hv
    obtain ⟨w, hw, hwfd⟩ := h v j hv
    exact ⟨w, (Function.update_of_ne hj _ _).trans hw, hwfd⟩

theorem LifeInv.update (h : LifeInv path s) (hslot : OneSlot path vfio')
    (hlive : (slotOf vfio' (some path)).isSome → vfio'.fd ≠ -1)
    (hatt : ∀ v, v ≠ u → (s.user v).device = some id → Attached path vfio')
    (huser : ∀ j, user.device = some j → j = id ∧ Attached path vfio')
    (hfresh : s.containers.fresh ≤ fresh) (hid : id < fresh) :
    LifeInv path (s.update id vfio' active fresh u user) := by
  have hheap : ∀ j w, Function.update s.containers.heap id (some vfio') j = some w →
      j = id ∧ w = vfio' ∨ j ≠ id ∧ s.containers.heap j = some w := by
    intro j w hw
    by_cases hj : j = id
    · subst hj
      rw [Function.update_self, Option.some.injEq] at hw
      exact .inl ⟨rfl, hw.symm⟩
    · rw [Function.update_of_ne hj] at hw
      exact .inr ⟨hj, hw⟩
  refine ⟨?_, ?_, ?_, ?_⟩
  · intro j w hw
    rcases hheap j w hw with ⟨-, rfl⟩ | ⟨-, hw⟩
    · exact hslot
    · exact h.slots j w hw
  · intro j w hw
    rcases hheap j w hw with ⟨-, rfl⟩ | ⟨-, hw⟩
    · exact hlive
    · exact h.live j w hw
  · intro v j w hv hw
    by_cases hvu : v = u
    · rw [hvu, LifeState.update_user_self] at hv
      obtain ⟨rfl, hatt'⟩ := huser j hv
      rcases hheap j w hw with ⟨-, rfl⟩ | ⟨hne, -⟩
      · exact hatt'
      · exact absurd rfl hne
    · rw [LifeState.update_user_of_ne hvu] at hv
      rcases hheap j w hw with ⟨rfl, rfl⟩ | ⟨-, hw⟩
      · exact hatt v hvu hv
      · exact h.attached v j w hv hw
  · intro j hj
    dsimp only [LifeState.update] at hj ⊢
    rw [Function.update_of_ne (by omega)]
    exact h.unused j (by omega)

omit [DecidableEq υ] in
theorem LifeInv.lt_fresh (h : LifeInv path s) (hheap : s.containers.heap id = some vfio) :
    id < s.containers.fresh := by
  by_contra hge
  rw [h.unused id (by omega)] at hheap
  cases hheap

/-- A context is found or made, or there is none. -/
theorem LifeInv.get (h : LifeInv path s) (hgood : Usable s) {pagesize : Word.U64}
    {new : NewContainer} (hstep : lifeStep pagesize path s (.get u new) = some s') :
    LifeInv path s' ∧ Usable s' := by
  cases huser : s.user u with
  | holds | opened => simp [lifeStep, huser] at hstep
  | idle =>
      simp only [lifeStep, huser, Option.some.injEq] at hstep
      unfold vfioGetIommuContext at hstep
      cases hfind : vfioFindContainerByGroup s.containers path with
      | some id =>
          have hknows := List.find?_some hfind
          rw [Containers.knows, Option.any_eq_true] at hknows
          obtain ⟨vfio, hheap, hslot⟩ := hknows
          simp only [hfind, hheap, Option.map_some, Option.elim_some] at hstep
          subst hstep
          exact ⟨h.update ((h.slots id vfio hheap).congr rfl rfl) (h.live id vfio hheap)
              (fun v _ hv => h.attached v id vfio hv hheap) (fun _ hj => (nomatch hj)) le_rfl
              (h.lt_fresh hheap),
            hgood.update (h.live id vfio hheap hslot) (fun j hj => (Option.some.inj hj).symm)⟩
      | none =>
          simp only [hfind] at hstep
          cases hfd : new.fd with
          | none =>
              rw [hfd] at hstep
              have hsame : s' = s := by
                rw [← hstep, LifeState.setUser]
                dsimp only [Option.elim]
                rw [← huser, Function.update_eq_self]
              rw [hsame]
              exact ⟨h, hgood⟩
          | some fd =>
              rw [hfd] at hstep
              subst hstep
              have hslot := slotOf_newContainer path fd new.rand new.garbage
              refine ⟨h.update (.taken 0 hslot ?_ (.inl ⟨rfl, rfl, rfl⟩)) (fun _ => ?_) ?_
                (fun _ hj => (nomatch hj)) (Nat.le_succ _) (Nat.lt_succ_self _),
                hgood.update ?_ (fun j hj => (Option.some.inj hj).symm)⟩
              · intro j _ hj
                simp [newContainer, hj]
              · simp only [newContainer]
                omega
              · intro v _ hv
                obtain ⟨w, hw, -⟩ := hgood v _ (DeviceUser.ctx_of_device hv)
                rw [h.unused _ le_rfl] at hw
                cases hw
              · simp only [newContainer]
                omega

theorem LifeInv.preset (h : LifeInv path s) (hgood : Usable s) {pagesize : Word.U64} {v : υ}
    (hstep : lifeStep pagesize path s (.preset u v) = some s') : LifeInv path s' ∧ Usable s' := by
  cases huser : s.user u with
  | holds | opened => simp [lifeStep, huser] at hstep
  | idle =>
      simp only [lifeStep, huser, Option.map_eq_some_iff] at hstep
      obtain ⟨id, hid, rfl⟩ := hstep
      refine ⟨⟨h.slots, h.live, ?_, h.unused⟩, ?_⟩
      · intro w j vfio hw
        by_cases hwu : w = u
        · rw [hwu, LifeState.setUser_self] at hw
          cases hw
        · rw [LifeState.setUser_of_ne hwu] at hw
          exact h.attached w j vfio hw
      · intro w j hw
        by_cases hwu : w = u
        · rw [hwu, LifeState.setUser_self] at hw
          obtain rfl := Option.some.inj hw
          exact hgood v id hid
        · rw [LifeState.setUser_of_ne hwu] at hw
          exact hgood w j hw

theorem LifeInv.openDevice (h : LifeInv path s) (hgood : Usable s) {pagesize : Word.U64}
    {k : VfioAnswers} (hstep : lifeStep pagesize path s (.openDevice u k) = some s') :
    LifeInv path s' ∧ Usable s' := by
  cases huser : s.user u with
  | idle | opened => simp [lifeStep, huser] at hstep
  | holds id =>
      simp only [lifeStep, huser] at hstep
      obtain ⟨vfio, hheap, hfd⟩ := hgood u id (by rw [huser]; rfl)
      simp only [Containers.openDevice, hheap, Option.map_some, Option.some.injEq] at hstep
      subst hstep
      have hspec := vfioGetDeviceFd_spec pagesize k vfio path
      generalize vfioGetDeviceFd pagesize k vfio path = r at hspec ⊢
      obtain ⟨dev, vfio'⟩ := r
      have hone := h.slots id vfio hheap
      have hfd' : vfio'.fd ≠ -1 := by rwa [hspec.sameFile.fd]
      refine ⟨h.update (hone.opens hspec) (fun _ => hfd')
        (fun v _ hv => (h.attached v id vfio hv hheap).opens hone hspec) ?_ le_rfl
        (h.lt_fresh hheap), hgood.update hfd' ?_⟩
      · intro j hj
        cases dev with
        | none => cases hj
        | some fd =>
            exact ⟨(Option.some.inj hj).symm, attached_of_opens hone hspec rfl⟩
      · intro j hj
        cases dev with
        | none => exact (Option.some.inj hj).symm
        | some fd => exact (Option.some.inj hj).symm

omit [DecidableEq υ] in
theorem spares_closeDevice_iff {i : ℕ} (huser : s.user u = .opened id)
    (hheap : s.containers.heap id = some vfio) (hslot : slotOf vfio (some path) = some i) :
    Spares path s (.closeDevice u) ↔
      (vfio.refcount = 1 ∨ (vfio.groups i).nrDevs = 1 →
        ∀ v, v ≠ u → (s.user v).ctx ≠ some id) := by
  simp [Spares, huser, DeviceUser.device, hheap, hslot]

def LifeState.free (s : LifeState υ π) (id : ℕ) (u : υ) : LifeState υ π :=
  { s with
    containers := { s.containers with
      heap := Function.update s.containers.heap id none
      active := s.containers.active.erase id } }.setUser u .idle

theorem LifeInv.free (h : LifeInv path s) (id : ℕ) (u : υ) : LifeInv path (s.free id u) := by
  have hheap : ∀ j w, Function.update s.containers.heap id none j = some w →
      s.containers.heap j = some w := by
    intro j w hw
    by_cases hj : j = id
    · rw [hj, Function.update_self] at hw
      cases hw
    · rwa [Function.update_of_ne hj] at hw
  refine ⟨fun j w hw => h.slots j w (hheap j w hw), fun j w hw => h.live j w (hheap j w hw), ?_, ?_⟩
  · intro v j w hv hw
    by_cases hvu : v = u
    · rw [hvu, LifeState.free, LifeState.setUser_self] at hv
      cases hv
    · rw [LifeState.free, LifeState.setUser_of_ne hvu] at hv
      exact h.attached v j w hv (hheap j w hw)
  · intro j hj
    change Function.update s.containers.heap id none j = none
    by_cases hji : j = id
    · rw [hji, Function.update_self]
    · rw [Function.update_of_ne hji]
      exact h.unused j hj

omit [DecidableEq π] in
variable (s' id) in
/-- If a container is lost to its users, all users can go on exactly when no other user
had it. -/
theorem usable_iff_of_lost (hgood : Usable s) (huser : s'.user = Function.update s.user u .idle)
    (hlost : ∀ vfio, s'.containers.heap id = some vfio → vfio.fd = -1)
    (hheap : ∀ j, j ≠ id → s'.containers.heap j = s.containers.heap j) :
    Usable s' ↔ ∀ v, v ≠ u → (s.user v).ctx ≠ some id := by
  have hother : ∀ v, v ≠ u → s'.user v = s.user v := fun v hv => by
    rw [huser, Function.update_of_ne hv]
  constructor
  · intro h v hv hctx
    obtain ⟨w, hw, hfd⟩ := h v id (by rw [hother v hv, hctx])
    exact hfd (hlost w hw)
  · intro h v j hctx
    by_cases hvu : v = u
    · rw [hvu, huser, Function.update_self] at hctx
      cases hctx
    · rw [hother v hvu] at hctx
      have hj : j ≠ id := fun hj => h v hvu (hj ▸ hctx)
      rw [hheap j hj]
      exact hgood v j hctx

theorem LifeInv.closeDevice (h : LifeInv path s) (hgood : Usable s) {pagesize : Word.U64}
    (hstep : lifeStep pagesize path s (.closeDevice u) = some s') :
    (Usable s' → LifeInv path s') ∧ (Usable s' ↔ Spares path s (.closeDevice u)) := by
  cases huser : s.user u with
  | idle | holds => simp [lifeStep, huser] at hstep
  | opened id =>
      simp only [lifeStep, huser, Option.map_eq_some_iff] at hstep
      obtain ⟨⟨ok, t⟩, hclose, rfl⟩ := hstep
      obtain ⟨vfio, hheap, hfd⟩ := hgood u id (by rw [huser]; rfl)
      have hatt := h.attached u id vfio (by rw [huser]; rfl) hheap
      have hsome := vfioPutDeviceFd_isSome (Option.isSome_of_eq_some hatt.choose_spec.1)
      rcases Containers.closeDevice_spec hheap hclose with ⟨hnone, -⟩ | ⟨vfio', hput, hres⟩
      · rw [hnone] at hsome
        cases hsome
      obtain ⟨hone, href, i, hslot, hdevs⟩ :=
        (h.slots id vfio hheap).closes hatt (vfioPutDeviceFd_spec hput)
      rw [spares_closeDevice_iff huser hheap hslot]
      rcases hres with ⟨hzero, rfl⟩ | ⟨hleft, rfl⟩
      · -- the last reference is gone
        have hlost := usable_iff_of_lost (s.free id u) id hgood rfl
          (fun w hw => by
            change Function.update s.containers.heap id none id = some w at hw
            rw [Function.update_self] at hw
            cases hw)
          (fun j hj => Function.update_of_ne hj ..)
        refine ⟨fun _ => h.free id u, hlost.trans ⟨fun hP _ => hP, fun hP => hP (.inl ?_)⟩⟩
        omega
      · rcases hdevs with ⟨hlast, hgone, hfd'⟩ | ⟨hmore, hatt', hfd'⟩
        · -- the last device is gone
          have hlost := usable_iff_of_lost
            (s.update id vfio' s.containers.active s.containers.fresh u .idle) id hgood rfl
            (fun w hw => by
              change Function.update s.containers.heap id (some vfio') id = some w at hw
              rw [Function.update_self, Option.some.injEq] at hw
              rw [← hw, hfd'])
            (fun j hj => Function.update_of_ne hj ..)
          refine ⟨fun husable => ?_, hlost.trans ⟨fun hP _ => hP, fun hP => hP (.inr hlast)⟩⟩
          refine h.update hone (fun hknown => ?_) (fun v hv hdev => ?_) (fun _ hj => (nomatch hj))
            le_rfl (h.lt_fresh hheap)
          · rw [hgone] at hknown
            cases hknown
          · exact absurd (DeviceUser.ctx_of_device hdev) (hlost.mp husable v hv)
        · have husable : Usable
              (s.update id vfio' s.containers.active s.containers.fresh u .idle) :=
            hgood.update (hfd' ▸ hfd) (fun _ hj => (nomatch hj))
          refine ⟨fun _ => ?_, fun _ hone => ?_, fun _ => husable⟩
          · exact h.update hone (fun _ => hfd' ▸ hfd) (fun _ _ _ => hatt')
              (fun _ hj => (nomatch hj)) le_rfl (h.lt_fresh hheap)
          · exact absurd hone (by omega)

/-- A user does something: if the contexts can be used in the end, the invariant is kept,
and whether they can depends on the closes only. -/
theorem lifeInv_step {pagesize : Word.U64} {op : LifeOp υ} (h : LifeInv path s)
    (hgood : Usable s) (hstep : lifeStep pagesize path s op = some s') :
    (Usable s' → LifeInv path s') ∧ (Usable s' ↔ Spares path s op) := by
  cases op with
  | get u new =>
      obtain ⟨hinv, husable⟩ := h.get hgood hstep
      exact ⟨fun _ => hinv, fun _ => trivial, fun _ => husable⟩
  | preset u v =>
      obtain ⟨hinv, husable⟩ := h.preset hgood hstep
      exact ⟨fun _ => hinv, fun _ => trivial, fun _ => husable⟩
  | openDevice u k =>
      obtain ⟨hinv, husable⟩ := h.openDevice hgood hstep
      exact ⟨fun _ => hinv, fun _ => trivial, fun _ => husable⟩
  | closeDevice u => exact h.closeDevice hgood hstep

theorem spares_of_lifeStep_eq_none {pagesize : Word.U64} {op : LifeOp υ}
    (hstep : lifeStep pagesize path s op = none) : Spares path s op := by
  cases op with
  | closeDevice u =>
      intro id hid vfio hvfio
      cases huser : s.user u with
      | idle | holds =>
          rw [huser] at hid
          cases hid
      | opened id' =>
          rw [huser] at hid
          obtain rfl := Option.some.inj hid
          simp [lifeStep, huser, Containers.closeDevice, Option.mem_def.mp hvfio] at hstep
  | _ => trivial

/-- For all users of devices in one group: every context that a user has can be used in
every state of a run exactly when no user closes its device with the last reference, or
as the last device of the group, while another user has the context. -/
theorem context_usable_iff (pagesize : Word.U64) (path : π) (ops : List (LifeOp υ)) :
    (∀ pre s, pre <+: ops →
        run (lifeStep pagesize path) (lifeInit υ π) pre = some s → Usable s) ↔
      MeetsAlong (lifeStep pagesize path) (Spares path) (lifeInit υ π) ops := by
  have hinit : LifeInv path (lifeInit υ π) :=
    ⟨fun _ _ h => (nomatch h), fun _ _ h => (nomatch h), fun _ _ _ h => (nomatch h),
      fun _ _ => rfl⟩
  exact good_along_iff (fun _ _ _ hs hg hstep => (lifeInv_step hs hg hstep).1)
    (fun _ _ _ hs hg hstep => (lifeInv_step hs hg hstep).2)
    (fun _ _ _ _ hstep => spares_of_lifeStep_eq_none hstep) hinit (fun _ _ h => (nomatch h))

end Users

/-- A user closes its device while another one has got the context: the descriptor is
closed. A user closes its device while another one has opened a device through the same
context: the container is freed. -/
theorem context_usable_fails :
    (∃ s : LifeState Bool ℕ, run (lifeStep 0x1000 7) (lifeInit Bool ℕ)
        [.get false someContainer, .openDevice false agrees, .get true someContainer,
          .closeDevice false] = some s ∧
      s.user true = .holds 0 ∧ (s.containers.heap 0).map (·.fd) = some (-1) ∧ ¬ Usable s) ∧
    ∃ s : LifeState Bool ℕ, run (lifeStep 0x1000 7) (lifeInit Bool ℕ)
        [.get false someContainer, .openDevice false agrees, .preset true false,
          .openDevice true agrees, .closeDevice false] = some s ∧
      s.user true = .opened 0 ∧ s.containers.heap 0 = none ∧ ¬ Usable s := by
  constructor
  · refine ⟨_, rfl, rfl, rfl, fun h => ?_⟩
    obtain ⟨vfio, hheap, hfd⟩ := h true 0 rfl
    cases hheap
    exact hfd rfl
  · refine ⟨_, rfl, rfl, rfl, fun h => ?_⟩
    obtain ⟨vfio, hheap, -⟩ := h true 0 rfl
    cases hheap

/-- Two users that share a container, each with a context of its own. -/
theorem context_usable_two_users :
    ∃ s : LifeState Bool ℕ, run (lifeStep 0x1000 7) (lifeInit Bool ℕ)
        [.get false someContainer, .openDevice false agrees, .get true someContainer,
          .openDevice true agrees, .closeDevice false] = some s ∧
      s.user true = .opened 0 ∧ Usable s := by
  refine ⟨_, rfl, rfl, ?_⟩
  refine (context_usable_iff 0x1000 7
    [.get false someContainer, .openDevice false agrees, .get true someContainer,
      .openDevice true agrees, .closeDevice false]).mpr ?_ _ _ (List.prefix_refl _) rfl
  decide +kernel

end Iommu

end Libvfn
