import Mathlib.Data.Multiset.AddSub
import Libvfn.Foundation.Run
import Libvfn.Iommu.SameIova
import Libvfn.Iommu.Vfio.Group

/-!
# Address spaces of iommufd

With iommufd, every context has an address space of its own, and all devices of all address
spaces are in one list. An address space has no counter: `iommufd_put_device_fd` goes through the
list once, takes out the first entry of the device and looks, at the same time, whether there is
another entry of the address space. If there is none, the address space is freed.

A device may be opened more than once, and the address of a freed address space may be given to a
new one. We follow the list through all calls with all answers of the kernel, next to a record of
what was opened in which address space, which takes note of the return values only.
-/

namespace Libvfn

namespace Iommu

open Runs Support

structure IommufdDeviceInfo (δ : Type*) where
  bdf : δ
  devFd : ℕ
  devId : ℕ
  hwptId : ℤ
  ioas : ℕ
  deriving DecidableEq

structure IommuIoas (σ : Type*) where
  ctx : IommuCtx σ
  iovaRanges : List IovaRange
  id : ℕ

structure Iommufd (σ δ : Type*) where
  devices : List (IommufdDeviceInfo δ)
  heap : ℕ → Option (IommuIoas σ)

/-- How `iommu_ioas_update_iova_ranges` fares: the two calls, and what is in the new array after
the second one. -/
structure RangesAnswers where
  first : Except Errno Unit
  ranges : List IovaRange
  second : Except Errno Unit

structure IommufdAnswers where
  vfioId : Bool
  path : Bool
  devFd : Option ℕ
  devId : Option ℕ
  attached : Bool
  ranges : RangesAnswers

inductive DeviceFd where
  | notOpened
  | closed (devFd : ℕ)
  | returned (devFd : ℕ)
  deriving DecidableEq

section Model

variable {σ δ : Type*}

/-- `iommu_ioas_update_iova_ranges`, and whether it succeeds. The ranges are gone as soon as there
is a new array for them. -/
def iommuIoasUpdateIovaRanges (k : RangesAnswers) (ioas : IommuIoas σ) : Bool × IommuIoas σ :=
  match k.first with
  | .ok () => (true, { ioas with ctx := updateIovaRanges ioas.iovaRanges ioas.ctx })
  | .error e =>
      if e ≠ .EMSGSIZE then (false, ioas)
      else
        match k.second with
        | .error _ => (false, { ioas with iovaRanges := k.ranges })
        | .ok () =>
            (true, { ioas with
              iovaRanges := k.ranges
              ctx := updateIovaRanges k.ranges ioas.ctx })

def iommufdGetDeviceFd (k : IommufdAnswers) (addr : ℕ) (bdf : δ) (ioas : IommuIoas σ)
    (devices : List (IommufdDeviceInfo δ)) :
    DeviceFd × IommuIoas σ × List (IommufdDeviceInfo δ) :=
  if !k.vfioId then (.notOpened, ioas, devices)
  else if !k.path then (.notOpened, ioas, devices)
  else
    match k.devFd with
    | none => (.notOpened, ioas, devices)
    | some devFd =>
        match k.devId with
        | none => (.closed devFd, ioas, devices)
        | some devId =>
            if !k.attached then (.closed devFd, ioas, devices)
            else
              let r := iommuIoasUpdateIovaRanges k.ranges ioas
              if !r.1 then (.closed devFd, r.2, devices)
              else (.returned devFd, r.2, ⟨bdf, devFd, devId, -1, addr⟩ :: devices)

def putDeviceLoop [DecidableEq δ] (addr : ℕ) (bdf : δ) :
    List (IommufdDeviceInfo δ) → Bool → Bool → List (IommufdDeviceInfo δ) × Bool × Bool
  | [], found, ioasInUse => ([], found, ioasInUse)
  | info :: devices, found, ioasInUse =>
      -- only the first match goes; a second one counts as a use of the address space
      if !found && info.ioas = addr && info.bdf = bdf then
        putDeviceLoop addr bdf devices true ioasInUse
      else
        let r := putDeviceLoop addr bdf devices found (ioasInUse || info.ioas = addr)
        (info :: r.1, r.2)

/-- `iommufd_put_device_fd`. The address space is only compared with those of the entries, until
`iommu_ioas_destroy` frees it. -/
def iommufdPutDeviceFd [DecidableEq δ] (addr : ℕ) (bdf : δ) (s : Iommufd σ δ) :
    Except Errno Unit × Iommufd σ δ :=
  let r := putDeviceLoop addr bdf s.devices false false
  if !r.2.1 then (.error .ENOENT, { s with devices := r.1 })
  else if !r.2.2 then (.ok (), ⟨r.1, Function.update s.heap addr none⟩)
  else (.ok (), { s with devices := r.1 })

structure NewIoas (σ : Type*) where
  addr : ℕ
  rand : ℕ → Bool
  garbage : IovaMapping
  backend : σ
  id : Option ℕ

def iommuCtxInit (new : NewIoas σ) : IommuCtx σ :=
  iommuInitNextSame
    { map := iovaMapInit new.rand new.garbage
      iovaMax := 0x7fffffffff
      iovaNextSame := 0
      backend := new.backend }

/-- `iommufd_get_iommu_context`. If `/dev/iommu` cannot be opened, the process ends. -/
def iommufdGetIommuContext (new : NewIoas σ) (s : Iommufd σ δ) : Option ℕ × Iommufd σ δ :=
  match new.id with
  | none => (none, s)
  | some id =>
      (some new.addr, { s with
        heap := Function.update s.heap new.addr (some ⟨iommuCtxInit new, iommuCtxInitRanges, id⟩) })

end Model

/-! ## Runs -/

inductive IommufdOp (σ δ : Type*) where
  | context (new : NewIoas σ)
  | getDevice (addr : ℕ) (bdf : δ) (k : IommufdAnswers)
  | putDevice (addr : ℕ) (bdf : δ)

/-- The state of the library, and the devices that were opened in an address space and not put
since, as the return values tell. -/
structure OpenedState (σ δ : Type*) where
  lib : Iommufd σ δ
  opened : ℕ → Multiset δ

section Run

variable {σ δ : Type*} [DecidableEq δ]

/-- One call. `malloc` gives memory that is free, and devices are opened in address spaces that
are not freed. -/
def iommufdStep (s : OpenedState σ δ) : IommufdOp σ δ → Option (OpenedState σ δ)
  | .context new =>
      if (s.lib.heap new.addr).isSome then none
      else some { s with lib := (iommufdGetIommuContext new s.lib).2 }
  | .getDevice addr bdf k =>
      match s.lib.heap addr with
      | none => none
      | some ioas =>
          let r := iommufdGetDeviceFd k addr bdf ioas s.lib.devices
          some
            { lib := ⟨r.2.2, Function.update s.lib.heap addr (some r.2.1)⟩
              opened :=
                match r.1 with
                | .returned _ => Function.update s.opened addr (bdf ::ₘ s.opened addr)
                | _ => s.opened }
  | .putDevice addr bdf =>
      let r := iommufdPutDeviceFd addr bdf s.lib
      some
        { lib := r.2
          opened :=
            match r.1 with
            | .ok () => Function.update s.opened addr ((s.opened addr).erase bdf)
            | .error _ => s.opened }

def iommufdInit : OpenedState σ δ := ⟨⟨[], fun _ => none⟩, fun _ => 0⟩

def Iommufd.devicesOf (s : Iommufd σ δ) (addr : ℕ) : List (IommufdDeviceInfo δ) :=
  s.devices.filter (·.ioas = addr)

def Iommufd.openedIn (s : Iommufd σ δ) (addr : ℕ) : Multiset δ :=
  ((s.devicesOf addr).map (·.bdf) : List δ)

structure PutLifetime (s : Iommufd σ δ) (addr : ℕ) (bdf : δ) (ret : Except Errno Unit)
    (s' : Iommufd σ δ) : Prop where
  /-- One entry that matches is removed, or there is none and all is as before. -/
  removed : (ret = .ok () ∧ ∃ before info after, s.devices = before ++ info :: after ∧
      info.ioas = addr ∧ info.bdf = bdf ∧ s'.devices = before ++ after) ∨
    ret = .error .ENOENT ∧ (∀ info ∈ s.devices, ¬(info.ioas = addr ∧ info.bdf = bdf)) ∧ s' = s
  destroyed : (s.heap addr).isSome ∧ s'.heap addr = none ↔
    ret = .ok () ∧ ∀ info ∈ s'.devices, info.ioas ≠ addr
  others : ∀ addr' ≠ addr, s'.heap addr' = s.heap addr' ∧ s'.devicesOf addr' = s.devicesOf addr'

end Run

/-! ## One call -/

section Put

variable {σ δ : Type*} {s : Iommufd σ δ} {addr : ℕ} {bdf : δ}

theorem devicesOf_of_removed {s' : Iommufd σ δ} {before after : List (IommufdDeviceInfo δ)}
    {info : IommufdDeviceInfo δ} (hdevices : s.devices = before ++ info :: after)
    (hdevices' : s'.devices = before ++ after) {addr' : ℕ} (hne : info.ioas ≠ addr') :
    s'.devicesOf addr' = s.devicesOf addr' := by
  rw [Iommufd.devicesOf, Iommufd.devicesOf, hdevices, hdevices', List.filter_append,
    List.filter_append, List.filter_cons_of_neg (by simpa using hne)]

theorem openedIn_of_removed {s' : Iommufd σ δ} {before after : List (IommufdDeviceInfo δ)}
    {info : IommufdDeviceInfo δ} (hdevices : s.devices = before ++ info :: after)
    (hdevices' : s'.devices = before ++ after) :
    s.openedIn info.ioas = info.bdf ::ₘ s'.openedIn info.ioas := by
  rw [Iommufd.openedIn, Iommufd.openedIn, Iommufd.devicesOf, Iommufd.devicesOf, hdevices,
    hdevices', List.filter_append, List.filter_append, List.filter_cons_of_pos (by simp),
    List.map_append, List.map_append, List.map_cons, Multiset.cons_coe, Multiset.coe_eq_coe]
  exact List.perm_middle

theorem mem_openedIn : bdf ∈ s.openedIn addr ↔
    ∃ info ∈ s.devices, info.ioas = addr ∧ info.bdf = bdf := by
  simp [Iommufd.openedIn, Iommufd.devicesOf, and_assoc]

theorem openedIn_eq_zero : s.openedIn addr = 0 ↔ ∀ info ∈ s.devices, info.ioas ≠ addr := by
  simp [Iommufd.openedIn, Iommufd.devicesOf]

inductive Puts (s : Iommufd σ δ) (addr : ℕ) (bdf : δ) :
    Except Errno Unit × Iommufd σ δ → Prop
  | unknown (hnone : ∀ info ∈ s.devices, ¬(info.ioas = addr ∧ info.bdf = bdf)) :
      Puts s addr bdf (.error .ENOENT, s)
  | removed (before : List (IommufdDeviceInfo δ)) (info : IommufdDeviceInfo δ)
      (after : List (IommufdDeviceInfo δ)) (hdevices : s.devices = before ++ info :: after)
      (hioas : info.ioas = addr) (hbdf : info.bdf = bdf) (ioasInUse : Bool)
      (hinUse : ioasInUse = true ↔ ∃ other ∈ before ++ after, other.ioas = addr) :
      Puts s addr bdf
        (.ok (), ⟨before ++ after, if ioasInUse then s.heap else Function.update s.heap addr none⟩)

theorem Puts.heap_eq {r : Except Errno Unit × Iommufd σ δ} (h : Puts s addr bdf r) {addr' : ℕ}
    (hne : addr' ≠ addr) : r.2.heap addr' = s.heap addr' := by
  cases h with
  | unknown => rfl
  | removed before info after hdevices hioas hbdf ioasInUse =>
      cases ioasInUse with
      | true => rfl
      | false => exact Function.update_of_ne hne _ _

theorem Puts.devicesOf_eq {r : Except Errno Unit × Iommufd σ δ} (h : Puts s addr bdf r)
    {addr' : ℕ} (hne : addr' ≠ addr) : r.2.devicesOf addr' = s.devicesOf addr' := by
  cases h with
  | unknown => rfl
  | removed before info after hdevices hioas =>
      exact devicesOf_of_removed hdevices rfl (hioas.trans_ne hne.symm)

theorem Puts.openedIn_eq {s' : Iommufd σ δ} (h : Puts s addr bdf (.ok (), s')) :
    s.openedIn addr = bdf ::ₘ s'.openedIn addr := by
  cases h with
  | removed before info after hdevices hioas hbdf =>
      rw [← hioas, ← hbdf]
      exact openedIn_of_removed hdevices rfl

theorem Puts.freed_iff {s' : Iommufd σ δ} (h : Puts s addr bdf (.ok (), s'))
    (hsome : (s.heap addr).isSome) : s'.heap addr = none ↔ s'.openedIn addr = 0 := by
  rw [openedIn_eq_zero]
  cases h with
  | removed before info after hdevices hioas hbdf ioasInUse hinUse =>
      cases ioasInUse with
      | true =>
          obtain ⟨other, hother, heq⟩ := hinUse.mp rfl
          exact iff_of_false (Option.isSome_iff_ne_none.mp hsome) fun hnone =>
            hnone other hother heq
      | false =>
          refine iff_of_true (Function.update_self ..) fun other hother heq => ?_
          exact Bool.false_ne_true (hinUse.mpr ⟨other, hother, heq⟩)

theorem Puts.isSome {s' : Iommufd σ δ} (h : Puts s addr bdf (.ok (), s'))
    (hlive : ∀ info ∈ s.devices, (s.heap info.ioas).isSome) : (s.heap addr).isSome := by
  have hopen : bdf ∈ s.openedIn addr := h.openedIn_eq ▸ Multiset.mem_cons_self ..
  obtain ⟨info, hinfo, hioas, -⟩ := mem_openedIn.mp hopen
  exact hioas ▸ hlive info hinfo

theorem Puts.live {s' : Iommufd σ δ} (h : Puts s addr bdf (.ok (), s'))
    (hlive : ∀ info ∈ s.devices, (s.heap info.ioas).isSome) :
    ∀ info ∈ s'.devices, (s'.heap info.ioas).isSome := by
  intro other hother
  by_cases haddr : other.ioas = addr
  · rw [Option.isSome_iff_ne_none, haddr, Ne, h.freed_iff (h.isSome hlive), openedIn_eq_zero]
    exact fun hnone => hnone other hother haddr
  · rw [h.heap_eq haddr]
    refine hlive other ?_
    cases h with
    | removed before info after hdevices =>
        rw [hdevices]
        exact ((List.sublist_cons_self info after).append_left before).subset hother

theorem Puts.putLifetime {r : Except Errno Unit × Iommufd σ δ} (h : Puts s addr bdf r)
    (hlive : ∀ info ∈ s.devices, (s.heap info.ioas).isSome) : PutLifetime s addr bdf r.1 r.2 := by
  have hothers : ∀ addr' ≠ addr, r.2.heap addr' = s.heap addr' ∧
      r.2.devicesOf addr' = s.devicesOf addr' := fun addr' hne =>
    ⟨h.heap_eq hne, h.devicesOf_eq hne⟩
  obtain ⟨ret, s'⟩ := r
  cases ret with
  | error e =>
      cases h with
      | unknown hnone =>
          refine ⟨.inr ⟨rfl, hnone, rfl⟩, iff_of_false ?_ nofun, hothers⟩
          exact fun hfreed => Option.isSome_iff_ne_none.mp hfreed.1 hfreed.2
  | ok _ =>
      have hsome := h.isSome hlive
      have hfreed := h.freed_iff hsome
      rw [openedIn_eq_zero] at hfreed
      refine ⟨.inl ⟨rfl, ?_⟩, ?_, hothers⟩
      · cases h with
        | removed before info after hdevices hioas hbdf =>
            exact ⟨before, info, after, hdevices, hioas, hbdf, rfl⟩
      · rw [hfreed]
        exact ⟨fun hlast => ⟨rfl, hlast.2⟩, fun hlast => ⟨hsome, hlast.2⟩⟩

variable [DecidableEq δ]

theorem putDeviceLoop_found (devices : List (IommufdDeviceInfo δ)) (ioasInUse : Bool) :
    putDeviceLoop addr bdf devices true ioasInUse =
      (devices, true, ioasInUse || devices.any (·.ioas = addr)) := by
  induction devices generalizing ioasInUse with
  | nil => simp [putDeviceLoop]
  | cons info devices ih => simp [putDeviceLoop, ih, Bool.or_assoc]

theorem putDeviceLoop_append {before : List (IommufdDeviceInfo δ)}
    (hbefore : ∀ info ∈ before, ¬(info.ioas = addr ∧ info.bdf = bdf))
    (devices : List (IommufdDeviceInfo δ)) (ioasInUse : Bool) :
    putDeviceLoop addr bdf (before ++ devices) false ioasInUse =
      let r := putDeviceLoop addr bdf devices false (ioasInUse || before.any (·.ioas = addr))
      (before ++ r.1, r.2) := by
  induction before generalizing ioasInUse with
  | nil => simp
  | cons info before ih =>
      obtain ⟨hinfo, hbefore⟩ := List.forall_mem_cons.mp hbefore
      rw [List.cons_append, putDeviceLoop, if_neg (by simpa using hinfo)]
      simp [ih hbefore, Bool.or_assoc]

theorem iommufdPutDeviceFd_puts (s : Iommufd σ δ) (addr : ℕ) (bdf : δ) :
    Puts s addr bdf (iommufdPutDeviceFd addr bdf s) := by
  by_cases hmatch : ∃ info ∈ s.devices, info.ioas = addr ∧ info.bdf = bdf
  · obtain ⟨info, hmem, hinfo⟩ := hmatch
    obtain ⟨info, before, after, hbefore, hmatch, hdevices, -⟩ :=
      List.exists_of_eraseP (p := fun i => decide (i.ioas = addr ∧ i.bdf = bdf)) hmem
        (decide_eq_true hinfo)
    obtain ⟨hioas, hbdf⟩ := of_decide_eq_true hmatch
    have hloop : putDeviceLoop addr bdf s.devices false false =
        (before ++ after, true, (before ++ after).any (·.ioas = addr)) := by
      rw [hdevices, putDeviceLoop_append (fun i hi => by simpa using hbefore i hi), putDeviceLoop,
        if_pos (by simp [hioas, hbdf]), putDeviceLoop_found, Bool.false_or, List.any_append]
    have hinUse : (before ++ after).any (·.ioas = addr) = true ↔
        ∃ other ∈ before ++ after, other.ioas = addr := by
      simp only [List.any_eq_true, decide_eq_true_iff]
    rw [iommufdPutDeviceFd, hloop]
    have hputs := Puts.removed before info after hdevices hioas hbdf _ hinUse
    generalize (before ++ after).any (·.ioas = addr) = ioasInUse at hputs ⊢
    cases ioasInUse with
    | true => exact hputs
    | false => exact hputs
  · have hnone : ∀ info ∈ s.devices, ¬(info.ioas = addr ∧ info.bdf = bdf) :=
      fun info hinfo h => hmatch ⟨info, hinfo, h⟩
    have hloop := putDeviceLoop_append hnone [] false
    simp only [List.append_nil, putDeviceLoop] at hloop
    rw [iommufdPutDeviceFd, hloop]
    exact .unknown hnone

end Put

section Get

variable {σ δ : Type*}

inductive Gets (addr : ℕ) (bdf : δ) (devices : List (IommufdDeviceInfo δ)) :
    DeviceFd × IommuIoas σ × List (IommufdDeviceInfo δ) → Prop
  | notOpened (ioas' : IommuIoas σ) : Gets addr bdf devices (.notOpened, ioas', devices)
  | closed (devFd : ℕ) (ioas' : IommuIoas σ) : Gets addr bdf devices (.closed devFd, ioas', devices)
  | returned (devFd devId : ℕ) (ioas' : IommuIoas σ) :
      Gets addr bdf devices (.returned devFd, ioas', ⟨bdf, devFd, devId, -1, addr⟩ :: devices)

theorem iommufdGetDeviceFd_gets (k : IommufdAnswers) (addr : ℕ) (bdf : δ) (ioas : IommuIoas σ)
    (devices : List (IommufdDeviceInfo δ)) :
    Gets addr bdf devices (iommufdGetDeviceFd k addr bdf ioas devices) := by
  unfold iommufdGetDeviceFd
  by_cases hid : (!k.vfioId) = true
  · rw [if_pos hid]
    exact .notOpened ioas
  by_cases hpath : (!k.path) = true
  · rw [if_neg hid, if_pos hpath]
    exact .notOpened ioas
  rw [if_neg hid, if_neg hpath]
  cases k.devFd with
  | none => exact .notOpened ioas
  | some devFd =>
      cases k.devId with
      | none => exact .closed devFd ioas
      | some devId =>
          dsimp only
          split_ifs with hattached hranges
          · exact .closed devFd ioas
          · exact .closed devFd _
          · exact .returned devFd devId _

end Get

/-! ## All calls -/

section Steps

variable {σ δ : Type*}

/-- The entries belong to address spaces that are not freed, and they are what was opened. -/
structure Tracked (s : OpenedState σ δ) : Prop where
  live : ∀ info ∈ s.lib.devices, (s.lib.heap info.ioas).isSome
  opened_eq : ∀ addr, s.opened addr = s.lib.openedIn addr

theorem tracked_init : Tracked (iommufdInit : OpenedState σ δ) := ⟨nofun, fun _ => rfl⟩

variable [DecidableEq δ] {s s' : OpenedState σ δ}

inductive IommufdSteps (s : OpenedState σ δ) : IommufdOp σ δ → OpenedState σ δ → Prop
  | context (new : NewIoas σ) (heap' : ℕ → Option (IommuIoas σ))
      (hheap : ∀ addr, (s.lib.heap addr).isSome → (heap' addr).isSome) :
      IommufdSteps s (.context new) { s with lib := ⟨s.lib.devices, heap'⟩ }
  | getFailed (addr : ℕ) (bdf : δ) (k : IommufdAnswers) (heap' : ℕ → Option (IommuIoas σ))
      (hheap : ∀ addr, (s.lib.heap addr).isSome → (heap' addr).isSome) :
      IommufdSteps s (.getDevice addr bdf k) { s with lib := ⟨s.lib.devices, heap'⟩ }
  | getDevice (addr : ℕ) (bdf : δ) (k : IommufdAnswers) (heap' : ℕ → Option (IommuIoas σ))
      (hheap : ∀ addr, (s.lib.heap addr).isSome → (heap' addr).isSome)
      (hlive : (heap' addr).isSome) (devFd devId : ℕ) :
      IommufdSteps s (.getDevice addr bdf k)
        ⟨⟨⟨bdf, devFd, devId, -1, addr⟩ :: s.lib.devices, heap'⟩,
          Function.update s.opened addr (bdf ::ₘ s.opened addr)⟩
  | unknown (addr : ℕ) (bdf : δ)
      (hnone : ∀ info ∈ s.lib.devices, ¬(info.ioas = addr ∧ info.bdf = bdf)) :
      IommufdSteps s (.putDevice addr bdf) s
  | putDevice (addr : ℕ) (bdf : δ) (lib' : Iommufd σ δ)
      (hputs : Puts s.lib addr bdf (.ok (), lib')) :
      IommufdSteps s (.putDevice addr bdf)
        ⟨lib', Function.update s.opened addr ((s.opened addr).erase bdf)⟩

theorem iommufdStep_steps {o : IommufdOp σ δ} (h : iommufdStep s o = some s') :
    IommufdSteps s o s' := by
  have hupdate : ∀ (addr : ℕ) (ioas : IommuIoas σ) (addr' : ℕ), (s.lib.heap addr').isSome →
      (Function.update s.lib.heap addr (some ioas) addr').isSome := by
    intro addr ioas addr' hsome
    rw [Function.update_apply]
    split_ifs
    · rfl
    · exact hsome
  cases o with
  | context new =>
      rw [iommufdStep] at h
      split_ifs at h
      obtain rfl := Option.some.inj h
      rw [iommufdGetIommuContext]
      cases new.id with
      | none => exact .context new s.lib.heap fun _ => id
      | some id => exact .context new _ (hupdate _ _)
  | getDevice addr bdf k =>
      rw [iommufdStep] at h
      cases hioas : s.lib.heap addr with
      | none =>
          rw [hioas] at h
          cases h
      | some ioas =>
          rw [hioas] at h
          obtain rfl := Option.some.inj h
          have hgets := iommufdGetDeviceFd_gets k addr bdf ioas s.lib.devices
          generalize iommufdGetDeviceFd k addr bdf ioas s.lib.devices = r at hgets ⊢
          cases hgets with
          | notOpened ioas' => exact .getFailed addr bdf k _ (hupdate addr ioas')
          | closed devFd ioas' => exact .getFailed addr bdf k _ (hupdate addr ioas')
          | returned devFd devId ioas' =>
              exact .getDevice addr bdf k _ (hupdate addr ioas')
                (by rw [Function.update_self]; rfl) devFd devId
  | putDevice addr bdf =>
      obtain rfl := Option.some.inj h
      have hputs := iommufdPutDeviceFd_puts s.lib addr bdf
      generalize iommufdPutDeviceFd addr bdf s.lib = r at hputs ⊢
      obtain ⟨e | _, lib'⟩ := r
      · cases hputs with
        | unknown hnone => exact .unknown addr bdf hnone
      · exact .putDevice addr bdf lib' hputs

theorem Tracked.step (h : Tracked s) {o : IommufdOp σ δ} (hstep : IommufdSteps s o s') :
    Tracked s' := by
  cases hstep with
  | context new heap' hheap => exact ⟨fun info hinfo => hheap _ (h.live info hinfo), h.opened_eq⟩
  | getFailed addr bdf k heap' hheap =>
      exact ⟨fun info hinfo => hheap _ (h.live info hinfo), h.opened_eq⟩
  | getDevice addr bdf k heap' hheap hlive devFd devId =>
      refine ⟨fun info hinfo => ?_, fun addr' => ?_⟩
      · rcases List.mem_cons.mp hinfo with rfl | hinfo
        · exact hlive
        · exact hheap _ (h.live info hinfo)
      · dsimp only
        rw [Function.update_apply, Iommufd.openedIn, Iommufd.devicesOf]
        split_ifs with haddr
        · rw [List.filter_cons_of_pos (by simp [haddr]), List.map_cons, h.opened_eq, haddr]
          rfl
        · rw [List.filter_cons_of_neg (by simpa using Ne.symm haddr), h.opened_eq]
          rfl
  | unknown => exact h
  | putDevice addr bdf lib' hputs =>
      refine ⟨hputs.live h.live, fun addr' => ?_⟩
      dsimp only
      rw [Function.update_apply]
      split_ifs with haddr
      · rw [h.opened_eq, hputs.openedIn_eq, Multiset.erase_cons_head, haddr]
      · rw [h.opened_eq, Iommufd.openedIn, ← hputs.devicesOf_eq haddr]
        rfl

/-- An address space is freed by a call exactly if the call puts the last device in it. -/
theorem Tracked.freed_iff (h : Tracked s) {o : IommufdOp σ δ} (hstep : IommufdSteps s o s')
    {addr : ℕ} (hsome : (s.lib.heap addr).isSome) :
    s'.lib.heap addr = none ↔ ∃ bdf, o = .putDevice addr bdf ∧ s.opened addr = {bdf} := by
  cases hstep with
  | context new heap' hheap =>
      exact iff_of_false (Option.isSome_iff_ne_none.mp (hheap addr hsome)) nofun
  | getFailed addr' bdf k heap' hheap =>
      exact iff_of_false (Option.isSome_iff_ne_none.mp (hheap addr hsome)) nofun
  | getDevice addr' bdf k heap' hheap hlive devFd devId =>
      exact iff_of_false (Option.isSome_iff_ne_none.mp (hheap addr hsome)) nofun
  | unknown addr' bdf hnone =>
      refine iff_of_false (Option.isSome_iff_ne_none.mp hsome) ?_
      rintro ⟨bdf', ho, hopened⟩
      obtain ⟨rfl, rfl⟩ := IommufdOp.putDevice.inj ho
      rw [h.opened_eq] at hopened
      obtain ⟨info, hinfo, hmatch⟩ :=
        mem_openedIn.mp (hopened ▸ Multiset.mem_singleton_self bdf)
      exact hnone info hinfo hmatch
  | putDevice addr' bdf lib' hputs =>
      -- an address space other than the one of the device keeps its place
      by_cases haddr : addr = addr'
      · subst haddr
        have hopened := hputs.openedIn_eq
        rw [← h.opened_eq] at hopened
        rw [hputs.freed_iff hsome]
        constructor
        · intro hzero
          exact ⟨bdf, rfl, by rw [hopened, hzero]; rfl⟩
        · rintro ⟨bdf', ho, hlast⟩
          obtain ⟨-, rfl⟩ := IommufdOp.putDevice.inj ho
          rw [hlast] at hopened
          exact ((Multiset.cons_inj_right bdf).mp hopened).symm
      · refine iff_of_false ?_ ?_
        · rw [hputs.heap_eq haddr]
          exact Option.isSome_iff_ne_none.mp hsome
        · rintro ⟨bdf', ho, -⟩
          exact haddr (IommufdOp.putDevice.inj ho).1.symm

end Steps

/-- After every run, the list has what was opened and not put since, in each address space. A put
removes one entry of the device in the address space, or fails and changes nothing; entries of
other address spaces are not met. Of all calls, only a put frees an address space, and it does so
exactly if it puts the last device there. -/
theorem iommufd_lifetime {σ δ : Type*} [DecidableEq δ] (os : List (IommufdOp σ δ))
    (s : OpenedState σ δ) (hrun : run iommufdStep iommufdInit os = some s) :
    (∀ addr, s.opened addr = s.lib.openedIn addr) ∧
      (∀ addr bdf, PutLifetime s.lib addr bdf (iommufdPutDeviceFd addr bdf s.lib).1
        (iommufdPutDeviceFd addr bdf s.lib).2) ∧
      ∀ o s', iommufdStep s o = some s' → ∀ addr, (s.lib.heap addr).isSome →
        (s'.lib.heap addr = none ↔ ∃ bdf, o = .putDevice addr bdf ∧ s.opened addr = {bdf}) := by
  have htracked : Tracked s :=
    run_invariant_of_step (fun _ _ _ h hstep => h.step (iommufdStep_steps hstep)) tracked_init hrun
  refine ⟨htracked.opened_eq, fun addr bdf => ?_, fun o s' hstep addr hsome => ?_⟩
  · exact (iommufdPutDeviceFd_puts s.lib addr bdf).putLifetime htracked.live
  · exact htracked.freed_iff (iommufdStep_steps hstep) hsome

def newIoasAt (addr : ℕ) : NewIoas Unit := ⟨addr, fun _ => false, ⟨0, 0, 0, 0⟩, (), some 1⟩

def opensDevice : IommufdAnswers := ⟨true, true, some 7, some 1, true, ⟨.ok (), [], .ok ()⟩⟩

def openedTwice : List (IommufdOp Unit ℕ) :=
  [.context (newIoasAt 16), .context (newIoasAt 32), .getDevice 16 0 opensDevice,
    .getDevice 16 0 opensDevice, .getDevice 32 0 opensDevice, .putDevice 16 0]

/-- Putting the device again frees the first address space, and leaves the other one. -/
theorem iommufd_lifetime_opened_twice :
    ∃ s s', run iommufdStep iommufdInit openedTwice = some s ∧
      iommufdStep s (.putDevice 16 0) = some s' ∧
      s'.lib.heap 16 = none ∧ (s'.lib.heap 32).isSome := by
  refine ⟨_, _, rfl, rfl, ?_, rfl⟩
  exact ((iommufd_lifetime openedTwice _ rfl).2.2 _ _ rfl 16 rfl).mpr ⟨0, rfl, rfl⟩

end Iommu

end Libvfn
