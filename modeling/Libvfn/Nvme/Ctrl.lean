import Libvfn.Foundation.Run
import Libvfn.Iommu.Dmabuf
import Libvfn.Nvme.Prp.Encode

/-!
# The queues of a controller

A controller has a slot for each queue. A queue is configured in its slot, with memory
that is mapped for the device, and discarded again; between the two a command creates it
on the controller and another one deletes it there. We follow the slots, the memory and
the queues on the controller through `nvme_init`, the functions that create and delete
queues, and `nvme_close`.

What the host and the device answer is an argument of a call: the value that is read
from `CAP`, what `mmap` returns, and what comes of an admin command. `none` is the end of
the process, by `log_fatal_if` or by `free` of a block that is free already. A store
through a pointer to a shadow doorbell is recorded with its pointer.
-/

namespace Libvfn

namespace Nvme

namespace Ctrl

open Word Support Iommu

/-! ## Queues -/

def nvmeAq : ℕ := 0

/-- `NVME_AQ_QSIZE`, as the build sets it unless told otherwise. -/
def nvmeAqQsize : ℤ := 32

def capDstrd (cap : U64) : ℕ := (cap >>> 32 &&& 0xf).toNat

/-- A product of `int`s that is added to a pointer. -/
def intOffset (a b : ℤ) : U64 := (BitVec.ofInt 32 (a * b)).signExtend 64

def cqhdbl (doorbells : U64) (qid : ℤ) (dstrd : ℕ) : U64 :=
  doorbells + intOffset (2 * qid + 1) (4 <<< dstrd : ℕ)

def sqtdbl (doorbells : U64) (qid : ℤ) (dstrd : ℕ) : U64 :=
  doorbells + intOffset (2 * qid) (4 <<< dstrd : ℕ)

/-- `struct nvme_dbbuf`; `none` is `NULL`. -/
structure Dbbuf where
  doorbell : Option U64
  eventidx : Option U64
  deriving DecidableEq

/-- `struct nvme_cq`, without the place that the host has reached. -/
structure Cq where
  mem : Iommu.IommuDmabuf
  id : ℕ
  qsize : ℤ
  doorbell : U64
  dbbuf : Dbbuf
  vector : ℤ
  /-- The flag `NVME_Q_MEM_PREALLOCATED`. -/
  preallocated : Bool
  deriving DecidableEq

/-- `struct nvme_sq`, without the place that the host has reached and the stack of
trackers. The completion queue is given by the number of its slot, the block of the
trackers by its number in the heap. -/
structure Sq where
  cq : ℕ
  mem : Iommu.IommuDmabuf
  pages : Iommu.IommuDmabuf
  id : ℕ
  qsize : ℤ
  doorbell : U64
  dbbuf : Dbbuf
  rqs : Option ℕ
  preallocated : Bool
  deriving DecidableEq

def Cq.zeroed : Cq := ⟨.zeroed, 0, 0, 0, ⟨none, none⟩, 0, false⟩

def Sq.zeroed : Sq := ⟨0, .zeroed, .zeroed, 0, 0, 0, ⟨none, none⟩, none, false⟩

structure Heap where
  live : List ℕ
  fresh : ℕ

/-- `znew_t`, which does not fail. -/
def Heap.znew (heap : Heap) : ℕ × Heap := (heap.fresh, ⟨heap.fresh :: heap.live, heap.fresh + 1⟩)

def Heap.free (heap : Heap) : Option ℕ → Option Heap
  | none => some heap
  | some block =>
      if block ∈ heap.live then some { heap with live := heap.live.erase block } else none

structure CreateCq where
  prp1 : U64
  qid : BitVec 16
  qsize : BitVec 16
  qflags : BitVec 16
  iv : BitVec 16
  deriving DecidableEq

structure CreateSq where
  prp1 : U64
  qid : BitVec 16
  qsize : BitVec 16
  qflags : BitVec 16
  cqid : BitVec 16
  deriving DecidableEq

structure Opts where
  nsqr : ℕ
  ncqr : ℕ
  quirks : BitVec 32

def Opts.default : Opts := ⟨63, 63, 0⟩

def Opts.brokenDbbuf (opts : Opts) : Bool := opts.quirks &&& 1 ≠ 0

/-- `struct nvme_ctrl` with its context and the heap, the queues and the registers on the
controller, and the pointers that were stored through when queues were discarded. -/
structure State (σ : Type*) where
  ctx : IommuCtx σ
  heap : Heap
  sq : ℕ → Sq
  cq : ℕ → Cq
  /-- The mapped doorbell registers. -/
  regDoorbells : U64
  /-- The buffers of `dbbuf`. -/
  doorbells : Iommu.IommuDmabuf
  eventidxs : Iommu.IommuDmabuf
  opts : Opts
  nsqa : ℕ
  ncqa : ℕ
  mqes : BitVec 16
  mps : ℕ
  flags : U64
  aqa : BitVec 32
  asq : U64
  acq : U64
  sqs : List CreateSq
  cqs : List CreateCq
  stores : List (Option U64)

variable {σ : Type*}

def State.init (ctx : IommuCtx σ) : State σ where
  ctx := ctx
  heap := ⟨[], 0⟩
  sq := fun _ => .zeroed
  cq := fun _ => .zeroed
  regDoorbells := 0
  doorbells := .zeroed
  eventidxs := .zeroed
  opts := ⟨0, 0, 0⟩
  nsqa := 0
  ncqa := 0
  mqes := 0
  mps := 0
  flags := 0
  aqa := 0
  asq := 0
  acq := 0
  sqs := []
  cqs := []
  stores := []

def State.setCq (s : State σ) (qid : ℕ) (cq : Cq) : State σ :=
  { s with cq := Function.update s.cq qid cq }

def State.setSq (s : State σ) (qid : ℕ) (sq : Sq) : State σ :=
  { s with sq := Function.update s.sq qid sq }

def State.withCq (s : State σ) (qid : ℕ) (cq : Cq) (ctx : IommuCtx σ) : State σ :=
  { s.setCq qid cq with ctx := ctx }

def State.withSq (s : State σ) (qid : ℕ) (sq : Sq) (ctx : IommuCtx σ) (heap : Heap) : State σ :=
  { s.setSq qid sq with ctx := ctx, heap := heap }

section Slots

variable {s : State σ} {qid i : ℕ} {cq : Cq} {sq : Sq} {ctx : IommuCtx σ} {heap : Heap}

@[simp]
theorem State.setCq_cq_self : (s.setCq qid cq).cq qid = cq := Function.update_self ..

@[simp]
theorem State.setCq_cq_of_ne (h : i ≠ qid) : (s.setCq qid cq).cq i = s.cq i :=
  Function.update_of_ne h ..

@[simp]
theorem State.setSq_sq_self : (s.setSq qid sq).sq qid = sq := Function.update_self ..

@[simp]
theorem State.setSq_sq_of_ne (h : i ≠ qid) : (s.setSq qid sq).sq i = s.sq i :=
  Function.update_of_ne h ..

@[simp]
theorem State.setCq_sq : (s.setCq qid cq).sq = s.sq := rfl

@[simp]
theorem State.setSq_cq : (s.setSq qid sq).cq = s.cq := rfl

@[simp]
theorem State.withCq_cq_self : (s.withCq qid cq ctx).cq qid = cq := setCq_cq_self

@[simp]
theorem State.withCq_cq_of_ne (h : i ≠ qid) : (s.withCq qid cq ctx).cq i = s.cq i :=
  setCq_cq_of_ne h

@[simp]
theorem State.withSq_sq_self : (s.withSq qid sq ctx heap).sq qid = sq := setSq_sq_self

@[simp]
theorem State.withSq_sq_of_ne (h : i ≠ qid) : (s.withSq qid sq ctx heap).sq i = s.sq i :=
  setSq_sq_of_ne h

@[simp]
theorem State.withCq_sq : (s.withCq qid cq ctx).sq = s.sq := rfl

@[simp]
theorem State.withSq_cq : (s.withSq qid sq ctx heap).cq = s.cq := rfl

end Slots

def vfnPagesize (pageshift : ℕ) : U64 := BitVec.twoPow 64 pageshift

def shiftedSize (qsize : ℤ) (shift : ℕ) : U64 := (BitVec.ofInt 32 qsize <<< shift).signExtend 64

/-- `__abort_on_overflow(qsize, pagesize)`; no page size of a controller makes the product
of an `unsigned int` overflow. -/
def pagesSize (qsize : ℤ) (mps : ℕ) : U64 :=
  (BitVec.ofInt 32 qsize).zeroExtend 64 * BitVec.twoPow 64 (mpsToPageshift mps)

/-- The tests at the start of `__nvme_configure_cq` and `__nvme_configure_sq`. A size beyond
`CAP.MQES` is only logged. -/
def configureCheck (max qid qsize : ℤ) (cap : U64) : Except Errno Unit :=
  if cap = -1 then .error .ENODEV
  else if qid ≠ 0 ∧ max + 1 < qid then .error .EINVAL
  else if qsize < 2 then .error .EINVAL
  else .ok ()

/-! ## Completion queues -/

structure CqAnswers where
  cap : U64
  mem : Except Errno U64

def State.newCq (s : State σ) (qid : ℕ) (qsize vector : ℤ) (cap : U64) : Cq where
  mem := .zeroed
  id := qid
  qsize := qsize
  doorbell := cqhdbl s.regDoorbells qid (capDstrd cap)
  dbbuf :=
    if s.doorbells.vaddr = 0 then ⟨none, none⟩
    else ⟨some (cqhdbl s.doorbells.vaddr qid (capDstrd cap)),
      some (cqhdbl s.eventidxs.vaddr qid (capDstrd cap))⟩
  vector := vector
  preallocated := false

def nvmeConfigureCq (ops : IommuCtxOps σ) (pageshift : ℕ) (s : State σ) (qid : ℕ)
    (qsize vector : ℤ) (a : CqAnswers) : Except Errno Unit × State σ :=
  match configureCheck s.ncqa qid qsize a.cap with
  | .error e => (.error e, s)
  | .ok _ =>
      let cq := s.newCq qid qsize vector a.cap
      let r := Iommu.iommuGetDmabuf ops (vfnPagesize pageshift) s.ctx cq.mem
        (shiftedSize qsize 4) 0 a.mem
      (r.1, { s.setCq qid { cq with mem := r.2.1 } with ctx := r.2.2 })

def nvmeConfigureCqMem (s : State σ) (qid : ℕ) (qsize vector : ℤ) (cap : U64) :
    Option Iommu.IommuDmabuf → Except Errno Unit × State σ
  | none => (.error .EINVAL, s)
  | some mem =>
      match configureCheck s.ncqa qid qsize cap with
      | .error e => (.error e, s)
      | .ok _ =>
          let cq := s.newCq qid qsize vector cap
          (.ok (), s.setCq qid { cq with mem := mem, preallocated := true })

/-- The pointers that the shadow doorbells of a discarded queue are cleared through. -/
def State.clears (s : State σ) (dbbuf : Dbbuf) : List (Option U64) :=
  if s.doorbells.vaddr = 0 then [] else [dbbuf.doorbell, dbbuf.eventidx]

/-- `iommu_put_dmabuf`, unless the memory is not the queue's own. -/
def putMem (ops : IommuCtxOps σ) (ctx : IommuCtx σ) (mem : Iommu.IommuDmabuf)
    (preallocated : Bool) : Option (IommuCtx σ) :=
  if preallocated then some ctx else (Iommu.iommuPutDmabuf ops ctx mem).map Prod.snd

def nvmeDiscardCq (ops : IommuCtxOps σ) (s : State σ) (qid : ℕ) : Option (State σ) :=
  let cq := s.cq qid
  if cq.mem.vaddr = 0 then some s
  else
    (putMem ops s.ctx cq.mem cq.preallocated).map fun ctx =>
      { s.setCq qid .zeroed with ctx := ctx, stores := s.stores ++ s.clears cq.dbbuf }

/-! ## Submission queues -/

structure SqAnswers where
  cap : U64
  pages : Except Errno U64
  mem : Except Errno U64

def State.newSq (s : State σ) (qid : ℕ) (qsize : ℤ) (cq : ℕ) (cap : U64) : Sq where
  cq := cq
  mem := .zeroed
  pages := .zeroed
  id := qid
  qsize := qsize
  doorbell := sqtdbl s.regDoorbells qid (capDstrd cap)
  dbbuf :=
    if s.doorbells.vaddr = 0 then ⟨none, none⟩
    else ⟨some (sqtdbl s.doorbells.vaddr qid (capDstrd cap)),
      some (sqtdbl s.eventidxs.vaddr qid (capDstrd cap))⟩
  rqs := none
  preallocated := false

/-- `__nvme_configure_sq`. The trackers are there once their pages are. -/
def nvmeConfigureSqPages (ops : IommuCtxOps σ) (pageshift : ℕ) (s : State σ) (qid : ℕ)
    (qsize : ℤ) (cq : ℕ) (cap : U64) (pages : Except Errno U64) :
    Except Errno Unit × State σ :=
  match configureCheck s.nsqa qid qsize cap with
  | .error e => (.error e, s)
  | .ok _ =>
      let sq := s.newSq qid qsize cq cap
      match Iommu.iommuGetDmabuf ops (vfnPagesize pageshift) s.ctx sq.pages
        (pagesSize qsize s.mps) 0 pages with
      | (.error e, buffer, ctx) =>
          (.error e, { s.setSq qid { sq with pages := buffer } with ctx := ctx })
      | (.ok _, buffer, ctx) =>
          (.ok (),
            { s.setSq qid { sq with pages := buffer, rqs := some s.heap.znew.1 } with
              ctx := ctx
              heap := s.heap.znew.2 })

/-- `nvme_configure_sq`. If there is no memory for the entries, then the trackers and their
pages are given back, but the slot keeps the pointer to the trackers. -/
def nvmeConfigureSq (ops : IommuCtxOps σ) (pageshift : ℕ) (s : State σ) (qid : ℕ) (qsize : ℤ)
    (cq : ℕ) (a : SqAnswers) : Option (Except Errno Unit × State σ) :=
  match nvmeConfigureSqPages ops pageshift s qid qsize cq a.cap a.pages with
  | (.error e, s) => some (.error e, s)
  | (.ok _, s) =>
      let sq := s.sq qid
      match Iommu.iommuGetDmabuf ops (vfnPagesize pageshift) s.ctx sq.mem
        (shiftedSize qsize 6) 0 a.mem with
      | (.ok _, buffer, ctx) =>
          some (.ok (), { s.setSq qid { sq with mem := buffer } with ctx := ctx })
      | (.error e, buffer, ctx) =>
          (s.heap.free sq.rqs).bind fun heap =>
            (Iommu.iommuPutDmabuf ops ctx sq.pages).map fun r =>
              (.error e,
                { s.setSq qid { sq with mem := buffer, pages := r.1 } with
                  ctx := r.2
                  heap := heap })

def nvmeConfigureSqMem (ops : IommuCtxOps σ) (pageshift : ℕ) (s : State σ) (qid : ℕ)
    (qsize : ℤ) (cq : ℕ) (cap : U64) (pages : Except Errno U64) :
    Option Iommu.IommuDmabuf → Except Errno Unit × State σ
  | none => (.error .EINVAL, s)
  | some mem =>
      match nvmeConfigureSqPages ops pageshift s qid qsize cq cap pages with
      | (.error e, s) => (.error e, s)
      | (.ok _, s) => (.ok (), s.setSq qid { s.sq qid with mem := mem, preallocated := true })

def nvmeDiscardSq (ops : IommuCtxOps σ) (s : State σ) (qid : ℕ) : Option (State σ) :=
  let sq := s.sq qid
  if sq.mem.vaddr = 0 then some s
  else
    (putMem ops s.ctx sq.mem sq.preallocated).bind fun ctx =>
      (s.heap.free sq.rqs).bind fun heap =>
        (Iommu.iommuPutDmabuf ops ctx sq.pages).map fun r =>
          { s.setSq qid .zeroed with
            ctx := r.2
            heap := heap
            stores := s.stores ++ s.clears sq.dbbuf }

/-! ## The admin queue -/

def aqaValue (sqSize cqSize : ℤ) : BitVec 32 :=
  BitVec.ofInt 32 (sqSize - 1) ||| BitVec.ofInt 32 (cqSize - 1) <<< 16

/-- `__nvme_configure_adminq`. -/
def nvmeConfigureAdminqRegs (s : State σ) (sqSize cqSize : ℤ) : State σ :=
  { s with
    aqa := aqaValue sqSize cqSize
    asq := (s.sq nvmeAq).mem.iova
    acq := (s.cq nvmeAq).mem.iova }

/-- What follows on the configuration of the admin submission queue. -/
def nvmeConfigureAdminqEnd (ops : IommuCtxOps σ) (sqSize cqSize : ℤ) :
    Except Errno Unit × State σ → Option (Except Errno Unit × State σ)
  | (.error e, s) => (nvmeDiscardCq ops s nvmeAq).map fun s => (.error e, s)
  | (.ok _, s) => some (.ok (), nvmeConfigureAdminqRegs s sqSize cqSize)

def nvmeConfigureAdminq (ops : IommuCtxOps σ) (pageshift : ℕ) (s : State σ) (acq : CqAnswers)
    (asq : SqAnswers) : Option (Except Errno Unit × State σ) :=
  match nvmeConfigureCq ops pageshift s nvmeAq nvmeAqQsize 0 acq with
  | (.error e, s) => some (.error e, s)
  | (.ok _, s) =>
      (nvmeConfigureSq ops pageshift s nvmeAq nvmeAqQsize nvmeAq asq).bind
        (nvmeConfigureAdminqEnd ops nvmeAqQsize nvmeAqQsize)

def memEntries (mem : Iommu.IommuDmabuf) (size : U64) : ℤ := ((mem.len / size).setWidth 32).toInt

def nvmeConfigureAdminqMem (ops : IommuCtxOps σ) (pageshift : ℕ) (s : State σ)
    (cqMem sqMem : Iommu.IommuDmabuf) (cqCap sqCap : U64) (pages : Except Errno U64) :
    Option (Except Errno Unit × State σ) :=
  let cqSize := memEntries cqMem 16
  let sqSize := memEntries sqMem 64
  match nvmeConfigureCqMem s nvmeAq cqSize 0 cqCap (some cqMem) with
  | (.error e, s) => some (.error e, s)
  | (.ok _, s) =>
      nvmeConfigureAdminqEnd ops sqSize cqSize
        (nvmeConfigureSqMem ops pageshift s nvmeAq sqSize nvmeAq sqCap pages (some sqMem))

/-! ## I/O queues -/

def createCqCmd (cq : Cq) (qid : ℕ) (qsize vector : ℤ) : CreateCq where
  prp1 := cq.mem.iova
  qid := BitVec.ofNat 16 qid
  qsize := BitVec.ofInt 16 (qsize - 1)
  qflags := if vector = -1 then 1 else 1 ||| 1 <<< 1
  iv := if vector = -1 then 0 else BitVec.ofInt 16 vector

def nvmeCreateIocq (ops : IommuCtxOps σ) (pageshift : ℕ) (s : State σ) (qid : ℕ)
    (qsize vector : ℤ) (a : CqAnswers) (admin : Except Errno Unit) :
    Except Errno Unit × State σ :=
  match nvmeConfigureCq ops pageshift s qid qsize vector a with
  | (.error e, s) => (.error e, s)
  | (.ok _, s) =>
      match admin with
      | .error e => (.error e, s)
      | .ok _ => (.ok (), { s with cqs := createCqCmd (s.cq qid) qid qsize vector :: s.cqs })

def nvmeDeleteIocq (ops : IommuCtxOps σ) (s : State σ) (qid : ℕ) (admin : Except Errno Unit) :
    Option (Except Errno Unit × State σ) :=
  (nvmeDiscardCq ops s qid).map fun s =>
    match admin with
    | .error e => (.error e, s)
    | .ok _ => (.ok (), { s with cqs := s.cqs.filter fun q => q.qid ≠ BitVec.ofNat 16 qid })

def createSqCmd (sq : Sq) (qid : ℕ) (qsize : ℤ) (cq : Cq) : CreateSq where
  prp1 := sq.mem.iova
  qid := BitVec.ofNat 16 qid
  qsize := BitVec.ofInt 16 (qsize - 1)
  qflags := 1
  cqid := BitVec.ofNat 16 cq.id

def nvmeCreateIosq (ops : IommuCtxOps σ) (pageshift : ℕ) (s : State σ) (qid : ℕ) (qsize : ℤ)
    (cq : ℕ) (a : SqAnswers) (admin : Except Errno Unit) :
    Option (Except Errno Unit × State σ) :=
  (nvmeConfigureSq ops pageshift s qid qsize cq a).map fun
    | (.error e, s) => (.error e, s)
    | (.ok _, s) =>
        match admin with
        | .error e => (.error e, s)
        | .ok _ => (.ok (), { s with sqs := createSqCmd (s.sq qid) qid qsize (s.cq cq) :: s.sqs })

def nvmeDeleteIosq (ops : IommuCtxOps σ) (s : State σ) (qid : ℕ) (admin : Except Errno Unit) :
    Option (Except Errno Unit × State σ) :=
  (nvmeDiscardSq ops s qid).map fun s =>
    match admin with
    | .error e => (.error e, s)
    | .ok _ => (.ok (), { s with sqs := s.sqs.filter fun q => q.qid ≠ BitVec.ofNat 16 qid })

def nvmeCreateIoqpair (ops : IommuCtxOps σ) (pageshift : ℕ) (s : State σ) (qid : ℕ)
    (qsize vector : ℤ) (acq : CqAnswers) (createCq : Except Errno Unit) (asq : SqAnswers)
    (createSq : Except Errno Unit) : Option (Except Errno Unit × State σ) :=
  match nvmeCreateIocq ops pageshift s qid qsize vector acq createCq with
  | (.error e, s) => some (.error e, s)
  | (.ok _, s) => nvmeCreateIosq ops pageshift s qid qsize qid asq createSq

def nvmeDeleteIoqpair (ops : IommuCtxOps σ) (s : State σ) (qid : ℕ)
    (deleteSq deleteCq : Except Errno Unit) : Option (Except Errno Unit × State σ) :=
  (nvmeDeleteIosq ops s qid deleteSq).bind fun
    | (.error e, s) => some (.error e, s)
    | (.ok _, s) => nvmeDeleteIocq ops s qid deleteCq

/-! ## The life of a controller -/

def clampedMps (pageshift : ℕ) (cap : U64) : ℕ :=
  (clamp (pageshift - 12) (cap >>> 48 &&& 0xf).toNat (cap >>> 52 &&& 0xf).toNat).toNat

/-- `nvme_ctrl_init`, from the class code of the PCI device and `CAP` on. -/
def nvmeCtrlInit (pageshift : ℕ) (s : State σ) (opts : Option Opts)
    (pci : Except Errno (BitVec 32)) (cap : U64) : Except Errno Unit × State σ :=
  match pci with
  | .error e => (.error e, s)
  | .ok classcode =>
      let s := { s with
        opts := opts.getD .default
        flags := if classcode &&& 0xff = 0x03 then 1 else s.flags
        mps := clampedMps pageshift cap }
      if pageshift < mpsToPageshift s.mps then (.error .EINVAL, s)
      else
        (.ok (), { s with mqes := cap.setWidth 16, sq := fun _ => .zeroed, cq := fun _ => .zeroed })

structure DbconfigAnswers where
  doorbells : Except Errno U64
  eventidxs : Except Errno U64
  admin : Except Errno Unit
  cap : U64

/-- The pointers that `nvme_init_dbconfig` gives to the admin queues, unless a quirk says
that they do not work there. -/
def State.setAdminDbbuf (s : State σ) (dstrd : ℕ) : State σ :=
  if s.opts.brokenDbbuf then s
  else
    (s.setCq nvmeAq { s.cq nvmeAq with
      dbbuf := ⟨some (cqhdbl s.doorbells.vaddr nvmeAq dstrd),
        some (cqhdbl s.eventidxs.vaddr nvmeAq dstrd)⟩ }).setSq nvmeAq { s.sq nvmeAq with
      dbbuf := ⟨some (sqtdbl s.doorbells.vaddr nvmeAq dstrd),
        some (sqtdbl s.eventidxs.vaddr nvmeAq dstrd)⟩ }

def putDoorbells (ops : IommuCtxOps σ) (s : State σ) : Option (State σ) :=
  (Iommu.iommuPutDmabuf ops s.ctx s.doorbells).map fun r =>
    { s with doorbells := r.1, ctx := r.2 }

def putEventidxs (ops : IommuCtxOps σ) (s : State σ) : Option (State σ) :=
  (Iommu.iommuPutDmabuf ops s.ctx s.eventidxs).map fun r =>
    { s with eventidxs := r.1, ctx := r.2 }

def State.withDbbuf (s : State σ) (doorbells eventidxs : Iommu.IommuDmabuf) (ctx : IommuCtx σ) :
    State σ :=
  { s with doorbells := doorbells, eventidxs := eventidxs, ctx := ctx }

def nvmeInitDbconfig (ops : IommuCtxOps σ) (pageshift : ℕ) (s : State σ) (a : DbconfigAnswers) :
    Option (Except Errno Unit × State σ) :=
  let page := vfnPagesize pageshift
  match Iommu.iommuGetDmabuf ops page s.ctx s.doorbells page 0 a.doorbells with
  | (.error e, doorbells, ctx) => some (.error e, s.withDbbuf doorbells s.eventidxs ctx)
  | (.ok _, doorbells, ctx) =>
      match Iommu.iommuGetDmabuf ops page ctx s.eventidxs page 0 a.eventidxs with
      | (.error e, eventidxs, ctx) =>
          (putDoorbells ops (s.withDbbuf doorbells eventidxs ctx)).map fun s => (.error e, s)
      | (.ok _, eventidxs, ctx) =>
          let s := s.withDbbuf doorbells eventidxs ctx
          match a.admin with
          | .error e =>
              ((putEventidxs ops s).bind (putDoorbells ops)).map fun s => (.error e, s)
          | .ok _ => some (.ok (), s.setAdminDbbuf (capDstrd a.cap))

/-- The answers to `nvme_init`: the class code, `CAP`, the outcomes of `nvme_reset` and
`nvme_enable`, the first word of the completion for the number of queues, and the fields
`OACS` and `SGLS` of the identify data. -/
structure InitAnswers where
  pci : Except Errno (BitVec 32)
  cap : U64
  reset : Except Errno Unit
  acq : CqAnswers
  asq : SqAnswers
  enable : Except Errno Unit
  features : Except Errno (BitVec 32)
  buffer : Except Errno U64
  identify : Except Errno (BitVec 16 × BitVec 32)
  dbconfig : DbconfigAnswers

def sglsFlags (sgls : BitVec 32) (flags : U64) : U64 :=
  if sgls = 0 then flags
  else if sgls &&& 0x3 = 0x2 then flags ||| 1 <<< 1 ||| 1 <<< 2
  else flags ||| 1 <<< 1

/-- `nvme_init` from the identify command on. -/
def nvmeInitIdentified (ops : IommuCtxOps σ) (pageshift : ℕ) (s : State σ) (a : InitAnswers) :
    Option (Except Errno Unit × State σ) :=
  match a.identify with
  | .error e => some (.error e, s)
  | .ok (oacs, sgls) =>
      let dbconfig :=
        if oacs &&& 1 <<< 8 = 0 then some (.ok (), s)
        else nvmeInitDbconfig ops pageshift s a.dbconfig
      dbconfig.map fun
        | (.error e, s) => (.error e, s)
        | (.ok _, s) => (.ok (), { s with flags := sglsFlags sgls s.flags })

def State.granted (s : State σ) (dw0 : BitVec 32) : State σ :=
  { s with
    nsqa := min s.opts.nsqr (dw0 &&& 0xffff).toNat
    ncqa := min s.opts.ncqr (dw0 >>> 16 &&& 0xffff).toNat }

/-- `nvme_init` from the number of queues on. The identify buffer is put at the end of its
scope, also if there is none. -/
def nvmeInitQueues (ops : IommuCtxOps σ) (pageshift : ℕ) (s : State σ) (a : InitAnswers) :
    Option (Except Errno Unit × State σ) :=
  match a.features with
  | .error e => some (.error e, s)
  | .ok dw0 =>
      match Iommu.iommuGetDmabuf ops (vfnPagesize pageshift) s.ctx .zeroed 4096 iommuMapEphemeral
        a.buffer with
      | (.error e, buffer, ctx) =>
          (Iommu.iommuPutDmabuf ops ctx buffer).map fun p =>
            (.error e, { s.granted dw0 with ctx := p.2 })
      | (.ok _, buffer, ctx) =>
          (nvmeInitIdentified ops pageshift { s.granted dw0 with ctx := ctx } a).bind fun r =>
            (Iommu.iommuPutDmabuf ops r.2.ctx buffer).map fun p => (r.1, { r.2 with ctx := p.2 })

/-- `nvme_init` once the admin queue is configured. -/
def nvmeInitEnabled (ops : IommuCtxOps σ) (pageshift : ℕ) (s : State σ) (a : InitAnswers) :
    Option (Except Errno Unit × State σ) :=
  match a.enable with
  | .error e => some (.error e, s)
  | .ok _ => if s.flags &&& 1 ≠ 0 then some (.ok (), s) else nvmeInitQueues ops pageshift s a

def nvmeInit (ops : IommuCtxOps σ) (pageshift : ℕ) (s : State σ) (opts : Option Opts)
    (a : InitAnswers) : Option (Except Errno Unit × State σ) :=
  match nvmeCtrlInit pageshift s opts a.pci a.cap with
  | (.error e, s) => some (.error e, s)
  | (.ok _, s) =>
      match a.reset with
      | .error e => some (.error e, s)
      | .ok _ =>
          (nvmeConfigureAdminq ops pageshift s a.acq a.asq).bind fun
            | (.error e, s) => some (.error e, s)
            | (.ok _, s) => nvmeInitEnabled ops pageshift s a

def State.cleared (s : State σ) : State σ :=
  { s with
    sq := fun _ => .zeroed
    cq := fun _ => .zeroed
    regDoorbells := 0
    doorbells := .zeroed
    eventidxs := .zeroed
    opts := ⟨0, 0, 0⟩
    nsqa := 0
    ncqa := 0
    mqes := 0
    mps := 0
    flags := 0 }

/-- `nvme_close`, but for the controller memory buffer and the PCI device. -/
def nvmeClose (ops : IommuCtxOps σ) (s : State σ) : Option (State σ) :=
  (Runs.run (nvmeDiscardSq ops) s (List.range (s.opts.nsqr + 2))).bind fun s =>
    (Runs.run (nvmeDiscardCq ops) s (List.range (s.opts.ncqr + 2))).bind fun s =>
      (if s.doorbells.vaddr = 0 then some s
        else (putDoorbells ops s).bind (putEventidxs ops)).map State.cleared

/-! ## What configuring a queue can do -/

section Configure

variable {ops : IommuCtxOps σ} {pageshift qid : ℕ} {s s' : State σ} {qsize vector : ℤ} {cq : ℕ}
  {res : Except Errno Unit}

theorem configureCheck_eq_ok {max id : ℤ} {cap : U64}
    (h : configureCheck max id qsize cap = .ok ()) : 2 ≤ qsize := by
  rw [configureCheck] at h
  split_ifs at h with hcap hqid hsize
  omega

inductive ConfiguresCq (ops : IommuCtxOps σ) (pageshift : ℕ) (s : State σ) (qid : ℕ)
    (qsize vector : ℤ) (a : CqAnswers) : Except Errno Unit × State σ → Prop
  | refused (e : Errno) (hcheck : configureCheck s.ncqa qid qsize a.cap = .error e) :
      ConfiguresCq ops pageshift s qid qsize vector a (.error e, s)
  | tried (res : Except Errno Unit) (mem : Iommu.IommuDmabuf) (ctx : IommuCtx σ)
      (hcheck : configureCheck s.ncqa qid qsize a.cap = .ok ())
      (hmem : Iommu.iommuGetDmabuf ops (vfnPagesize pageshift) s.ctx .zeroed
        (shiftedSize qsize 4) 0 a.mem = (res, mem, ctx)) :
      ConfiguresCq ops pageshift s qid qsize vector a
        (res, s.withCq qid { s.newCq qid qsize vector a.cap with mem := mem } ctx)

theorem nvmeConfigureCq_configures (ops : IommuCtxOps σ) (pageshift : ℕ) (s : State σ) (qid : ℕ)
    (qsize vector : ℤ) (a : CqAnswers) :
    ConfiguresCq ops pageshift s qid qsize vector a
      (nvmeConfigureCq ops pageshift s qid qsize vector a) := by
  rw [nvmeConfigureCq]
  rcases hcheck : configureCheck s.ncqa qid qsize a.cap with e | u
  · exact .refused e hcheck
  · exact .tried _ _ _ hcheck rfl

inductive ConfiguresSq (ops : IommuCtxOps σ) (pageshift : ℕ) (s : State σ) (qid : ℕ)
    (qsize : ℤ) (cq : ℕ) (a : SqAnswers) : Except Errno Unit × State σ → Prop
  | refused (e : Errno) (hcheck : configureCheck s.nsqa qid qsize a.cap = .error e) :
      ConfiguresSq ops pageshift s qid qsize cq a (.error e, s)
  | noPages (e : Errno) (pages : Iommu.IommuDmabuf) (ctx : IommuCtx σ)
      (hcheck : configureCheck s.nsqa qid qsize a.cap = .ok ())
      (hpages : Iommu.iommuGetDmabuf ops (vfnPagesize pageshift) s.ctx .zeroed
        (pagesSize qsize s.mps) 0 a.pages = (.error e, pages, ctx)) :
      ConfiguresSq ops pageshift s qid qsize cq a
        (.error e, s.withSq qid { s.newSq qid qsize cq a.cap with pages := pages } ctx s.heap)
  | noMem (e : Errno) (pages mem pages' : Iommu.IommuDmabuf) (ctx ctx' ctx'' : IommuCtx σ)
      (heap : Heap) (hcheck : configureCheck s.nsqa qid qsize a.cap = .ok ())
      (hpages : Iommu.iommuGetDmabuf ops (vfnPagesize pageshift) s.ctx .zeroed
        (pagesSize qsize s.mps) 0 a.pages = (.ok (), pages, ctx))
      (hmem : Iommu.iommuGetDmabuf ops (vfnPagesize pageshift) ctx .zeroed
        (shiftedSize qsize 6) 0 a.mem = (.error e, mem, ctx'))
      (hfree : s.heap.znew.2.free (some s.heap.znew.1) = some heap)
      (hput : Iommu.iommuPutDmabuf ops ctx' pages = some (pages', ctx'')) :
      ConfiguresSq ops pageshift s qid qsize cq a
        (.error e, s.withSq qid { s.newSq qid qsize cq a.cap with
          pages := pages', rqs := some s.heap.znew.1, mem := mem } ctx'' heap)
  | configured (pages mem : Iommu.IommuDmabuf) (ctx ctx' : IommuCtx σ)
      (hcheck : configureCheck s.nsqa qid qsize a.cap = .ok ())
      (hpages : Iommu.iommuGetDmabuf ops (vfnPagesize pageshift) s.ctx .zeroed
        (pagesSize qsize s.mps) 0 a.pages = (.ok (), pages, ctx))
      (hmem : Iommu.iommuGetDmabuf ops (vfnPagesize pageshift) ctx .zeroed
        (shiftedSize qsize 6) 0 a.mem = (.ok (), mem, ctx')) :
      ConfiguresSq ops pageshift s qid qsize cq a
        (.ok (), s.withSq qid { s.newSq qid qsize cq a.cap with
          pages := pages, rqs := some s.heap.znew.1, mem := mem } ctx' s.heap.znew.2)

theorem nvmeConfigureSq_configures {a : SqAnswers} {r : Except Errno Unit × State σ}
    (h : nvmeConfigureSq ops pageshift s qid qsize cq a = some r) :
    ConfiguresSq ops pageshift s qid qsize cq a r := by
  rw [nvmeConfigureSq, nvmeConfigureSqPages] at h
  rcases hcheck : configureCheck s.nsqa qid qsize a.cap with e | u
  · rw [hcheck] at h
    obtain rfl := Option.some.inj h
    exact .refused e hcheck
  · rw [hcheck] at h
    dsimp only at h
    rcases hpages : Iommu.iommuGetDmabuf ops (vfnPagesize pageshift) s.ctx .zeroed
      (pagesSize qsize s.mps) 0 a.pages with ⟨e | u, pages, ctx⟩
    · rw [State.newSq, hpages] at h
      obtain rfl := Option.some.inj h
      exact .noPages e pages ctx hcheck hpages
    · rw [State.newSq, hpages] at h
      dsimp only [State.setSq] at h
      rw [Function.update_self] at h
      dsimp only at h
      rcases hmem : Iommu.iommuGetDmabuf ops (vfnPagesize pageshift) ctx .zeroed
        (shiftedSize qsize 6) 0 a.mem with ⟨e | u, mem, ctx'⟩
      · rw [hmem] at h
        obtain ⟨heap, hfree, h⟩ := Option.bind_eq_some_iff.mp h
        obtain ⟨⟨pages', ctx''⟩, hput, rfl⟩ := Option.map_eq_some_iff.mp h
        rw [Function.update_idem]
        exact .noMem e pages mem pages' ctx ctx' ctx'' heap hcheck hpages hmem hfree hput
      · rw [hmem] at h
        obtain rfl := Option.some.inj h
        rw [Function.update_idem]
        exact .configured pages mem ctx ctx' hcheck hpages hmem

end Configure

/-! ## What discarding a queue can do -/

section Discard

variable {ops : IommuCtxOps σ} {qid : ℕ} {s s' : State σ}

inductive DiscardsCq (ops : IommuCtxOps σ) (s : State σ) (qid : ℕ) : State σ → Prop
  | empty (hmem : (s.cq qid).mem.vaddr = 0) : DiscardsCq ops s qid s
  | discarded (ctx : IommuCtx σ) (hmem : (s.cq qid).mem.vaddr ≠ 0)
      (hput : putMem ops s.ctx (s.cq qid).mem (s.cq qid).preallocated = some ctx) :
      DiscardsCq ops s qid
        { s.withCq qid .zeroed ctx with stores := s.stores ++ s.clears (s.cq qid).dbbuf }

theorem nvmeDiscardCq_discards (h : nvmeDiscardCq ops s qid = some s') :
    DiscardsCq ops s qid s' := by
  simp only [nvmeDiscardCq] at h
  split_ifs at h with hmem
  · obtain rfl := Option.some.inj h
    exact .empty hmem
  · obtain ⟨ctx, hput, rfl⟩ := Option.map_eq_some_iff.mp h
    exact .discarded ctx hmem hput

inductive DiscardsSq (ops : IommuCtxOps σ) (s : State σ) (qid : ℕ) : State σ → Prop
  | empty (hmem : (s.sq qid).mem.vaddr = 0) : DiscardsSq ops s qid s
  | discarded (ctx ctx' : IommuCtx σ) (heap : Heap) (pages : Iommu.IommuDmabuf)
      (hmem : (s.sq qid).mem.vaddr ≠ 0)
      (hput : putMem ops s.ctx (s.sq qid).mem (s.sq qid).preallocated = some ctx)
      (hfree : s.heap.free (s.sq qid).rqs = some heap)
      (hpages : Iommu.iommuPutDmabuf ops ctx (s.sq qid).pages = some (pages, ctx')) :
      DiscardsSq ops s qid
        { s.withSq qid .zeroed ctx' heap with stores := s.stores ++ s.clears (s.sq qid).dbbuf }

theorem nvmeDiscardSq_discards (h : nvmeDiscardSq ops s qid = some s') :
    DiscardsSq ops s qid s' := by
  simp only [nvmeDiscardSq] at h
  split_ifs at h with hmem
  · obtain rfl := Option.some.inj h
    exact .empty hmem
  · obtain ⟨ctx, hput, h⟩ := Option.bind_eq_some_iff.mp h
    obtain ⟨heap, hfree, h⟩ := Option.bind_eq_some_iff.mp h
    obtain ⟨⟨pages, ctx'⟩, hpages, rfl⟩ := Option.map_eq_some_iff.mp h
    exact .discarded ctx ctx' heap pages hmem hput hfree hpages

theorem nvmeConfigureAdminqEnd_ok {sqSize cqSize : ℤ} {r : Except Errno Unit × State σ}
    (h : nvmeConfigureAdminqEnd ops sqSize cqSize r = some (.ok (), s')) :
    r.1 = .ok () ∧ s' = nvmeConfigureAdminqRegs r.2 sqSize cqSize := by
  obtain ⟨e | u, s⟩ := r
  · obtain ⟨t, -, h⟩ := Option.map_eq_some_iff.mp h
    cases h
  · obtain ⟨-, rfl⟩ := Prod.mk.inj (Option.some.inj h)
    exact ⟨rfl, rfl⟩

end Discard

end Ctrl

end Nvme

end Libvfn
