import Libvfn.Foundation.Run
import Libvfn.Iommu.Vfio.Group

/-!
# One container per group

Devices of one group are to share a container, since a group can be attached to one
container only. A context is looked up by the path in a slot of the container, and the
path is there from the start. It does not stay, however: it is gone when the group
cannot be attached, and when the last device is closed although another context was
handed out in the meantime. The next request then finds nothing and makes a second
container, while the first one is still referred to.

As long as neither happens, every container on the list has the path it was requested
for in a slot, and no two were requested for the same path.
-/

namespace Libvfn

namespace Iommu

open Runs

variable {π : Type*} [DecidableEq π]

/-- A call: a context for a device of a group, or a device of the group that a container
was requested for to be opened or closed. -/
inductive ShareOp (π : Type*) where
  | get (path : π) (new : NewContainer)
  | openDevice (id : ℕ) (k : VfioAnswers)
  | closeDevice (id : ℕ)

def shareStep (pagesize : Word.U64) (s : Containers π) : ShareOp π → Option (Containers π)
  | .get path new => some (vfioGetIommuContext s path new).2
  | .openDevice id k =>
      (s.heap id).bind fun vfio => (s.openDevice pagesize id vfio.name k).map Prod.snd
  | .closeDevice id =>
      (s.heap id).bind fun vfio => (s.closeDevice id vfio.name).map Prod.snd

/-- No two containers in use were requested for the same group. -/
def OnePerGroup (s : Containers π) : Prop :=
  ∀ id ∈ s.active, ∀ id' ∈ s.active, ∀ vfio vfio',
    s.heap id = some vfio → s.heap id' = some vfio' → vfio.refcount ≠ 0 → vfio'.refcount ≠ 0 →
      vfio.name = vfio'.name → id = id'

/-- The call does not make a container forget its group while it is referred to: a group
that is opened can be attached, and the last device of a group is closed with the last
reference to the container. -/
def keepsPath (pagesize : Word.U64) (s : Containers π) : ShareOp π → Bool
  | .get _ _ => true
  | .openDevice id k => (s.heap id).all fun vfio => attaches pagesize k vfio vfio.name
  | .closeDevice id =>
      (s.heap id).all fun vfio =>
        (slotOf vfio (some vfio.name)).all fun i =>
          (vfio.groups i).nrDevs = 1 → vfio.refcount = 1

structure ShareInv (s : Containers π) : Prop where
  nodup : s.active.Nodup
  lt_fresh : ∀ id ∈ s.active, id < s.fresh
  known : ∀ id ∈ s.active, ∃ vfio, s.heap id = some vfio ∧ (slotOf vfio (some vfio.name)).isSome
  unique : ∀ id ∈ s.active, ∀ id' ∈ s.active, ∀ vfio vfio',
    s.heap id = some vfio → s.heap id' = some vfio' → vfio.name = vfio'.name → id = id'

variable {s s' : Containers π} {id : ℕ} {vfio vfio' : GroupContainer π}

theorem ShareInv.slot_isSome (h : ShareInv s) (hheap : s.heap id = some vfio)
    (hid : id ∈ s.active) : (slotOf vfio (some vfio.name)).isSome := by
  obtain ⟨w, hw, hslot⟩ := h.known id hid
  obtain rfl : vfio = w := Option.some.inj (hheap.symm.trans hw)
  exact hslot

/-- A container is changed, and keeps its name and a slot for it. -/
theorem ShareInv.update (h : ShareInv s) (hid : s.heap id = some vfio)
    (hname : vfio'.name = vfio.name)
    (hslot : id ∈ s.active → (slotOf vfio' (some vfio'.name)).isSome) :
    ShareInv { s with heap := Function.update s.heap id (some vfio') } := by
  have hnames : ∀ j w, Function.update s.heap id (some vfio') j = some w →
      ∃ w', s.heap j = some w' ∧ w'.name = w.name := by
    intro j w hj
    by_cases hji : j = id
    · subst hji
      rw [Function.update_self, Option.some.injEq] at hj
      exact ⟨vfio, hid, hj ▸ hname.symm⟩
    · rw [Function.update_of_ne hji] at hj
      exact ⟨w, hj, rfl⟩
  refine ⟨h.nodup, h.lt_fresh, ?_, ?_⟩
  · intro j hj
    by_cases hji : j = id
    · subst hji
      exact ⟨vfio', Function.update_self .., hslot hj⟩
    · obtain ⟨w, hw, hwslot⟩ := h.known j hj
      exact ⟨w, (Function.update_of_ne hji _ _).trans hw, hwslot⟩
  · intro j hj j' hj' w w' hw hw' hname'
    obtain ⟨v, hv, hvname⟩ := hnames j w hw
    obtain ⟨v', hv', hvname'⟩ := hnames j' w' hw'
    exact h.unique j hj j' hj' v v' hv hv' (hvname.trans (hname'.trans hvname'.symm))

/-- A container leaves the list. -/
theorem ShareInv.remove (h : ShareInv s) (id : ℕ) :
    ShareInv { s with heap := Function.update s.heap id none, active := s.active.erase id } := by
  have hother : ∀ j ∈ s.active.erase id, j ∈ s.active ∧ j ≠ id := by
    intro j hj
    obtain ⟨hne, hmem⟩ := h.nodup.mem_erase_iff.mp hj
    exact ⟨hmem, hne⟩
  refine ⟨h.nodup.erase id, fun j hj => h.lt_fresh j (hother j hj).1, ?_, ?_⟩
  · intro j hj
    obtain ⟨hmem, hne⟩ := hother j hj
    obtain ⟨w, hw, hwslot⟩ := h.known j hmem
    exact ⟨w, (Function.update_of_ne hne _ _).trans hw, hwslot⟩
  · intro j hj j' hj' w w' hw hw'
    obtain ⟨hmem, hne⟩ := hother j hj
    obtain ⟨hmem', hne'⟩ := hother j' hj'
    dsimp only at hw hw'
    rw [Function.update_of_ne hne] at hw
    rw [Function.update_of_ne hne'] at hw'
    exact h.unique j hmem j' hmem' w w' hw hw'

theorem ShareInv.name_ne_of_find (h : ShareInv s) {path : π}
    (hfind : vfioFindContainerByGroup s path = none) (hid : id ∈ s.active)
    (hheap : s.heap id = some vfio) : vfio.name ≠ path := by
  rintro rfl
  have hslot := h.slot_isSome hheap hid
  have hnot := List.find?_eq_none.mp hfind id hid
  simp [Containers.knows, hheap, hslot] at hnot

theorem ShareInv.get (h : ShareInv s) (path : π) (new : NewContainer) :
    ShareInv (vfioGetIommuContext s path new).2 := by
  unfold vfioGetIommuContext
  cases hfind : vfioFindContainerByGroup s path with
  | some id =>
      have hknows := List.find?_some hfind
      rw [Containers.knows, Option.any_eq_true] at hknows
      obtain ⟨vfio, hheap, -⟩ := hknows
      have hknown := h.slot_isSome hheap
      dsimp only
      rw [hheap]
      exact h.update hheap rfl hknown
  | none =>
      dsimp only
      cases new.fd with
      | none => exact h
      | some fd =>
          have hne : ∀ j ∈ s.active, j ≠ s.fresh := fun j hj => (h.lt_fresh j hj).ne
          have hold : ∀ j ∈ s.active, ∀ w,
              Function.update s.heap s.fresh (some (newContainer path fd new.rand new.garbage)) j
                = some w → s.heap j = some w := by
            intro j hj w hw
            rwa [Function.update_of_ne (hne j hj)] at hw
          refine ⟨List.nodup_cons.mpr ⟨fun hmem => hne _ hmem rfl, h.nodup⟩, ?_, ?_, ?_⟩
          · intro j hj
            rcases List.mem_cons.mp hj with rfl | hj
            · exact Nat.lt_succ_self _
            · exact (h.lt_fresh j hj).trans (Nat.lt_succ_self _)
          · intro j hj
            rcases List.mem_cons.mp hj with rfl | hj
            · refine ⟨_, Function.update_self .., ?_⟩
              exact Option.isSome_of_eq_some (slotOf_newContainer path fd _ _)
            · obtain ⟨w, hw, hslot⟩ := h.known j hj
              exact ⟨w, (Function.update_of_ne (hne j hj) _ _).trans hw, hslot⟩
          · intro j hj j' hj' w w' hw hw' hname
            rcases List.mem_cons.mp hj with rfl | hj
            · rcases List.mem_cons.mp hj' with rfl | hj'
              · rfl
              · dsimp only at hw
                rw [Function.update_self, Option.some.injEq] at hw
                subst hw
                exact absurd hname.symm (h.name_ne_of_find hfind hj' (hold j' hj' w' hw'))
            · rcases List.mem_cons.mp hj' with rfl | hj'
              · dsimp only at hw'
                rw [Function.update_self, Option.some.injEq] at hw'
                subst hw'
                exact absurd hname (h.name_ne_of_find hfind hj (hold j hj w hw))
              · exact h.unique j hj j' hj' w w' (hold j hj w hw) (hold j' hj' w' hw') hname

theorem ShareInv.openDevice (h : ShareInv s) {pagesize : Word.U64} {k : VfioAnswers}
    (hheap : s.heap id = some vfio) (hkeep : attaches pagesize k vfio vfio.name = true) :
    ShareInv { s with
      heap := Function.update s.heap id
        (some (vfioGetDeviceFd pagesize k vfio vfio.name).2) } := by
  have hspec := vfioGetDeviceFd_spec pagesize k vfio vfio.name
  rw [hkeep] at hspec
  have hknown := h.slot_isSome hheap
  generalize vfioGetDeviceFd pagesize k vfio vfio.name = r at hspec ⊢
  obtain ⟨dev, vfio'⟩ := r
  cases hspec with
  | full => exact h.update hheap rfl hknown
  | opened _ i group fd dev hslot hfd hsame hgroups hnr =>
      refine h.update hheap hsame.name fun _ => slotOf_isSome_iff.mpr ⟨i, hslot.lt, ?_⟩
      rw [hgroups, Function.update_self, hsame.name]

theorem ShareInv.closeDevice (h : ShareInv s) (hheap : s.heap id = some vfio)
    (hput : vfioPutDeviceFd vfio vfio.name = some vfio')
    (hkeep : ∀ i, slotOf vfio (some vfio.name) = some i →
      (vfio.groups i).nrDevs = 1 → vfio.refcount = 1) (hleft : vfio'.refcount ≠ 0) :
    ShareInv { s with heap := Function.update s.heap id (some vfio') } := by
  cases vfioPutDeviceFd_spec hput with
  | last i hslot hdevs hname href hgroups hnr hfd =>
      have hone := hkeep i hslot hdevs
      rw [hone] at href
      exact absurd href hleft
  | more i hslot hdevs hname href hgroups hnr hfd =>
      obtain ⟨hlt, hpath⟩ := slotOf_eq_some hslot
      refine h.update hheap hname fun _ => slotOf_isSome_iff.mpr ⟨i, hlt, ?_⟩
      rw [hgroups, Function.update_self, hname]
      exact hpath

theorem shareInv_step {pagesize : Word.U64} {op : ShareOp π} (h : ShareInv s)
    (hkeep : keepsPath pagesize s op = true) (hstep : shareStep pagesize s op = some s') :
    ShareInv s' := by
  cases op with
  | get path new =>
      obtain rfl := Option.some.inj hstep
      exact h.get path new
  | openDevice id k =>
      obtain ⟨vfio, hheap, hopen⟩ := Option.bind_eq_some_iff.mp hstep
      rw [keepsPath, hheap] at hkeep
      rw [Containers.openDevice, hheap] at hopen
      obtain rfl := Option.some.inj hopen
      exact h.openDevice hheap hkeep
  | closeDevice id =>
      obtain ⟨vfio, hheap, hclose⟩ := Option.bind_eq_some_iff.mp hstep
      rw [keepsPath, hheap] at hkeep
      have hkeep' : ∀ i, slotOf vfio (some vfio.name) = some i →
          (vfio.groups i).nrDevs = 1 → vfio.refcount = 1 := by
        intro i hi
        rw [Option.all_some, hi] at hkeep
        exact of_decide_eq_true hkeep
      obtain ⟨⟨ok, t⟩, hres, rfl⟩ := Option.map_eq_some_iff.mp hclose
      rcases Containers.closeDevice_spec hheap hres with
        ⟨-, rfl⟩ | ⟨vfio', hput, ⟨-, rfl⟩ | ⟨hleft, rfl⟩⟩
      · exact h
      · exact h.remove id
      · exact h.closeDevice hheap hput hkeep' hleft

theorem shareInv_init : ShareInv (noContainers π) :=
  ⟨List.nodup_nil, fun _ h => (nomatch h), fun _ h => (nomatch h), fun _ h => (nomatch h)⟩

/-- As long as groups can be attached and the last device of a group is closed with the
last reference to its container, no two containers in use were requested for the same
group. -/
theorem one_container_per_group (pagesize : Word.U64) (ops : List (ShareOp π))
    (hkeep : MeetsAlong (shareStep pagesize) (fun s op => keepsPath pagesize s op = true)
      (noContainers π) ops)
    (hrun : run (shareStep pagesize) (noContainers π) ops = some s) : OnePerGroup s := by
  have h : ShareInv s :=
    run_invariant (fun _ _ _ hs hc hstep => shareInv_step hs hc hstep) shareInv_init hkeep hrun
  intro id hid id' hid' vfio vfio' hheap hheap' _ _ hname
  exact h.unique id hid id' hid' vfio vfio' hheap hheap' hname

/-- A group that cannot be opened is forgotten, and so is a group whose last device is
closed while a second context is held. -/
theorem one_container_per_group_fails :
    (∃ s, run (shareStep 0x1000) (noContainers ℕ)
        [.get 7 someContainer, .openDevice 0 refuses, .get 7 someContainer] = some s ∧
      ¬ OnePerGroup s) ∧
    ∃ s, run (shareStep 0x1000) (noContainers ℕ)
        [.get 7 someContainer, .openDevice 0 agrees, .get 7 someContainer, .closeDevice 0,
          .get 7 someContainer] = some s ∧
      ¬ OnePerGroup s := by
  constructor
  · refine ⟨_, rfl, fun h => ?_⟩
    exact absurd (h 0 (by decide) 1 (by decide) _ _ rfl rfl (by decide) (by decide) rfl) (by decide)
  · refine ⟨_, rfl, fun h => ?_⟩
    exact absurd (h 0 (by decide) 1 (by decide) _ _ rfl rfl (by decide) (by decide) rfl) (by decide)

/-- Two contexts for a group, a device opened and closed through each, and a third
context. -/
theorem one_container_per_group_twice :
    ∃ s, run (shareStep 0x1000) (noContainers ℕ)
        [.get 7 someContainer, .openDevice 0 agrees, .get 7 someContainer, .openDevice 0 agrees,
          .closeDevice 0, .closeDevice 0, .get 7 someContainer] = some s ∧
      s.active = [1] ∧ OnePerGroup s := by
  refine ⟨_, rfl, rfl, ?_⟩
  refine one_container_per_group 0x1000
    [.get 7 someContainer, .openDevice 0 agrees, .get 7 someContainer, .openDevice 0 agrees,
      .closeDevice 0, .closeDevice 0, .get 7 someContainer] ?_ rfl
  decide +kernel

end Iommu

end Libvfn
