import Libvfn.Iommu.Vfio.Group

/-!
# PCI devices

A device is opened through the context of its group: the context is looked up or made, the
device's descriptor is asked for, and then the device is asked what it has, namely its regions
and its interrupts. The regions of the device are mapped into memory later.

The containers and the open descriptors of devices are the state that a call changes, besides
the device itself. What the system says is an argument of the call. `none` is the end of the
process, by `assert` or by a `NULL` pointer.
-/

namespace Libvfn

namespace Vfio

open Word Support Iommu

structure RegionInfo where
  size : U64
  offset : U64
  deriving DecidableEq

structure IrqInfo where
  index : ℕ
  count : BitVec 32
  deriving DecidableEq

/-- `struct vfio_pci_device`. The context is given by the address of its container. -/
structure VfioPciDevice (δ : Type*) where
  fd : ℤ
  ctx : Option ℕ
  irqInfo : IrqInfo
  classcode : U64
  bdf : Option δ
  configRegionInfo : RegionInfo
  barRegionInfo : ℕ → RegionInfo

def VfioPciDevice.zeroed (δ : Type*) : VfioPciDevice δ :=
  ⟨0, none, ⟨0, 0⟩, 0, none, ⟨0, 0⟩, fun _ => ⟨0, 0⟩⟩

def pciStdNumBars : ℕ := 6

def vfioDeviceFlagsPci : BitVec 32 := 2

def vfioPciMsixIrqIndex : ℕ := 2

structure Devices (π : Type*) where
  containers : Containers π
  fds : List ℕ

inductive OpenError where
  /-- It is open already; `errno` is `EALREADY`. -/
  | already
  | classcode
  | deviceFd
  | deviceInfo
  | configRegion
  | bar (idx : ℕ)
  | busMaster
  | irq
  deriving DecidableEq

structure PciAnswers where
  classcode : Except Errno U64
  new : NewContainer
  kernel : VfioAnswers
  /-- The flags of the device. -/
  deviceInfo : Except Errno (BitVec 32)
  configRegion : Except Errno RegionInfo
  bars : ℕ → Except Errno RegionInfo
  readCommand : Except Errno (BitVec 16)
  writeCommand : BitVec 16 → Except Errno Unit
  /-- The numbers of interrupts. -/
  irqs : ℕ → Except Errno (BitVec 32)

section Device

variable {δ : Type*}

def vfioPciInitBar (pci : VfioPciDevice δ) (idx : ℕ) (info : Except Errno RegionInfo) :
    Except Errno Unit × VfioPciDevice δ :=
  match info with
  | .error e =>
      (.error e, { pci with barRegionInfo := Function.update pci.barRegionInfo idx ⟨0, 0⟩ })
  | .ok info => (.ok (), { pci with barRegionInfo := Function.update pci.barRegionInfo idx info })

def vfioPciInitBars (infos : ℕ → Except Errno RegionInfo) :
    List ℕ → VfioPciDevice δ → Except OpenError Unit × VfioPciDevice δ
  | [], pci => (.ok (), pci)
  | i :: is, pci =>
      match vfioPciInitBar pci i (infos i) with
      | (.error _, pci) => (.error (.bar i), pci)
      | (.ok _, pci) => vfioPciInitBars infos is pci

def pciSetBusMaster (readCommand : Except Errno (BitVec 16))
    (writeCommand : BitVec 16 → Except Errno Unit) : Except Errno Unit :=
  match readCommand with
  | .error e => .error e
  | .ok cmd => writeCommand (cmd ||| 0x4)

def vfioPciInitIrqFrom (irqs : ℕ → Except Errno (BitVec 32)) :
    ℕ → IrqInfo → Except Errno Unit × IrqInfo
  | 0, info => (.error .EINVAL, info)
  | index + 1, info =>
      match irqs index with
      | .error e => (.error e, { info with index := index })
      | .ok count =>
          if count = 0 then vfioPciInitIrqFrom irqs index ⟨index, count⟩
          else (.ok (), ⟨index, count⟩)

def vfioPciInitIrq (irqs : ℕ → Except Errno (BitVec 32)) : Except Errno Unit × IrqInfo :=
  vfioPciInitIrqFrom irqs (vfioPciMsixIrqIndex + 1) ⟨0, 0⟩

/-- `vfio_pci_open` from the regions on. -/
def vfioPciOpenBars (pci : VfioPciDevice δ) (bdf : δ) (a : PciAnswers) :
    Except OpenError Unit × VfioPciDevice δ :=
  match vfioPciInitBars a.bars (List.range pciStdNumBars) pci with
  | (.error e, pci) => (.error e, pci)
  | (.ok _, pci) =>
      match pciSetBusMaster a.readCommand a.writeCommand with
      | .error _ => (.error .busMaster, pci)
      | .ok _ =>
          let irq := vfioPciInitIrq a.irqs
          match irq.1 with
          | .error _ => (.error .irq, { pci with irqInfo := irq.2 })
          | .ok _ => (.ok (), { pci with irqInfo := irq.2, bdf := some bdf })

/-- `vfio_pci_open` once there is a descriptor. -/
def vfioPciOpenDevice (pci : VfioPciDevice δ) (bdf : δ) (a : PciAnswers) :
    Option (Except OpenError Unit × VfioPciDevice δ) :=
  match a.deviceInfo with
  | .error _ => some (.error .deviceInfo, pci)
  | .ok flags =>
      if flags &&& vfioDeviceFlagsPci = 0 then none
      else
        match a.configRegion with
        | .error _ => some (.error .configRegion, { pci with configRegionInfo := ⟨0, 0⟩ })
        | .ok info => some (vfioPciOpenBars { pci with configRegionInfo := info } bdf a)

end Device

section Open

variable {δ π : Type*} [DecidableEq π]

/-- The context of a device: the one it has, or else that of `iommu_get_context`. -/
def pciContext (s : Devices π) (pci : VfioPciDevice δ) (path : π) (new : NewContainer) :
    Option (ℕ × Devices π) :=
  match pci.ctx with
  | some id => some (id, s)
  | none =>
      let r := vfioGetIommuContext s.containers path new
      r.1.map fun id => (id, { s with containers := r.2 })

/-- `vfio_pci_open`, `group` being the path of the group of a device. -/
def vfioPciOpen (pagesize : U64) (group : δ → π) (s : Devices π) (pci : VfioPciDevice δ) (bdf : δ)
    (a : PciAnswers) : Option (Except OpenError Unit × VfioPciDevice δ × Devices π) :=
  if pci.bdf.isSome then some (.error .already, pci, s)
  else
    match a.classcode with
    | .error _ => some (.error .classcode, pci, s)
    | .ok classcode =>
        (pciContext s pci (group bdf) a.new).bind fun (id, s) =>
          let pci := { pci with classcode := classcode, ctx := some id }
          (s.containers.openDevice pagesize id (group bdf) a.kernel).bind fun
            | (none, containers) =>
                some (.error .deviceFd, { pci with fd := -1 }, { s with containers := containers })
            | (some fd, containers) =>
                (vfioPciOpenDevice { pci with fd := fd } bdf a).map fun r =>
                  (r.1, r.2, ⟨containers, fd :: s.fds⟩)

def vfioPciClose (group : δ → π) (s : Devices π) (pci : VfioPciDevice δ) :
    Option (Except Errno Unit × VfioPciDevice δ × Devices π) :=
  pci.ctx.bind fun id =>
    pci.bdf.bind fun bdf =>
      (s.containers.closeDevice id (group bdf)).map fun r =>
        let s := { containers := r.2, fds := s.fds.erase pci.fd.toNat }
        if r.1 then (.ok (), .zeroed δ, s) else (.error .ENODEV, pci, s)

end Open

/-! ## Regions in memory -/

section Regions

variable {δ : Type*}

structure MmapCall where
  len : U64
  offset : U64
  deriving DecidableEq

def barLen (pci : VfioPciDevice δ) (idx : ℕ) (len offset : U64) : U64 :=
  let rest := (pci.barRegionInfo idx).size - offset
  if len < rest then len else rest

/-- `vfio_pci_map_bar`: the call of `mmap`, and the address that comes of it. -/
def vfioPciMapBar (pci : VfioPciDevice δ) (idx : ℕ) (len offset : U64) (mmap : Option U64) :
    Option (MmapCall × Option U64) :=
  if idx < pciStdNumBars then
    some (⟨barLen pci idx len offset, (pci.barRegionInfo idx).offset + offset⟩, mmap)
  else none

def vfioPciUnmapBar (pci : VfioPciDevice δ) (idx : ℕ) (len offset : U64) : Option U64 :=
  if idx < pciStdNumBars then some (barLen pci idx len offset) else none

end Regions

end Vfio

end Libvfn
