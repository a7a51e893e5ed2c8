import Libvfn.Foundation.Word

/-!
# Queues

A completion queue is a ring of entries in memory that the controller writes and the
host reads. The host keeps the index of the next entry to read and a phase; an entry
whose phase tag differs from the host's phase is new. When the host has read an entry
it moves on, and its phase changes whenever it starts over. It tells the controller
how far it has read through a doorbell, a register that may be shadowed in memory.

A submission queue is a ring that the host writes and the controller reads. The host
keeps the index of the next entry to write, the tail, and the tail that it told the
controller last.
-/

namespace Libvfn

namespace Nvme

open Word

/-- `struct nvme_cqe`. The phase tag is the lowest bit of `sfp`. -/
structure NvmeCqe where
  qw0 : U64
  sqhd : BitVec 16
  sqid : BitVec 16
  cid : BitVec 16
  sfp : BitVec 16
  deriving DecidableEq

/-- `struct nvme_dbbuf`, with the two values in memory that it points to. -/
structure NvmeDbbuf where
  doorbell : BitVec 32
  eventidx : BitVec 32
  deriving DecidableEq

/-- `struct nvme_cq`, with the memory of its entries and the value of its doorbell
register. -/
structure NvmeCq where
  mem : ℕ → NvmeCqe
  head : BitVec 16
  qsize : ℕ
  phase : ℕ
  doorbell : BitVec 32
  dbbuf : Option NvmeDbbuf

def nvmeNeedMmio (eventidx val old : BitVec 16) : Bool := val - eventidx ≤ val - old

/-- `nvme_try_dbbuf`: whether the register has to be written after all, and the shadow
doorbell with the new value. -/
def nvmeTryDbbuf (v : BitVec 16) : Option NvmeDbbuf → Bool × Option NvmeDbbuf
  | none => (true, none)
  | some dbbuf =>
      (nvmeNeedMmio (dbbuf.eventidx.setWidth 16) v (dbbuf.doorbell.setWidth 16),
        some { dbbuf with doorbell := v.setWidth 32 })

/-- The index that a controller reads: in the shadow doorbell, if there is one. -/
def doorbellIndex (doorbell : BitVec 32) (dbbuf : Option NvmeDbbuf) : BitVec 16 :=
  match dbbuf with
  | none => doorbell.setWidth 16
  | some db => db.doorbell.setWidth 16

theorem doorbellIndex_nvmeTryDbbuf (v : BitVec 16) (doorbell : BitVec 32)
    (dbbuf : Option NvmeDbbuf) :
    doorbellIndex (if (nvmeTryDbbuf v dbbuf).1 then v.setWidth 32 else doorbell)
      (nvmeTryDbbuf v dbbuf).2 = v := by
  have hwidth : (v.setWidth 32).setWidth 16 = v := by
    rw [BitVec.setWidth_setWidth_of_le v (by decide), BitVec.setWidth_eq]
  cases dbbuf with
  | none => exact hwidth
  | some db => exact hwidth

def nvmeCqHead (cq : NvmeCq) : NvmeCqe := cq.mem cq.head.toNat

def nvmeCqUpdateHead (cq : NvmeCq) : NvmeCq :=
  let r := nvmeTryDbbuf cq.head cq.dbbuf
  { cq with
    dbbuf := r.2
    doorbell := if r.1 then cq.head.setWidth 32 else cq.doorbell }

def nvmeCqGetCqe (cq : NvmeCq) : Option NvmeCqe × NvmeCq :=
  let cqe := nvmeCqHead cq
  if (cqe.sfp &&& 1).toNat = cq.phase then (none, cq)
  else
    let head := cq.head + 1
    if head.toNat = cq.qsize then
      (some cqe, { cq with head := 0, phase := cq.phase ^^^ 1 })
    else (some cqe, { cq with head := head })

/-- The completion queue that `__nvme_configure_cq` sets up, on the memory it is given. -/
def nvmeConfigureCq (qsize : ℕ) (mem : ℕ → NvmeCqe) (dbbuf : Option NvmeDbbuf) : NvmeCq where
  mem := mem
  head := 0
  qsize := qsize
  phase := 0
  doorbell := 0
  dbbuf := dbbuf

/-- `union nvme_cmd`: the identifier of the command, and what the host leaves alone when
it submits the command. -/
structure NvmeSqe (β : Type*) where
  cid : BitVec 16
  body : β
  deriving DecidableEq

/-- `struct nvme_sq`, with the memory of its entries and the value of its doorbell
register. -/
structure NvmeSq (β : Type*) where
  mem : ℕ → NvmeSqe β
  tail : BitVec 16
  ptail : BitVec 16
  qsize : ℕ
  doorbell : BitVec 32
  dbbuf : Option NvmeDbbuf

section Submission

variable {β : Type*}

def nvmeSqPost (sq : NvmeSq β) (sqe : NvmeSqe β) : NvmeSq β :=
  let mem := Function.update sq.mem sq.tail.toNat sqe
  let tail := sq.tail + 1
  if tail.toNat = sq.qsize then { sq with mem := mem, tail := 0 }
  else { sq with mem := mem, tail := tail }

theorem nvmeSqPost_eq (sq : NvmeSq β) (sqe : NvmeSqe β) :
    nvmeSqPost sq sqe = { sq with
      mem := Function.update sq.mem sq.tail.toNat sqe
      tail := if (sq.tail + 1).toNat = sq.qsize then 0 else sq.tail + 1 } := by
  unfold nvmeSqPost
  dsimp only
  split_ifs
  · rfl
  · rfl

def nvmeSqUpdateTail (sq : NvmeSq β) : NvmeSq β :=
  if sq.tail = sq.ptail then sq
  else
    let r := nvmeTryDbbuf sq.tail sq.dbbuf
    { sq with
      dbbuf := r.2
      doorbell := if r.1 then sq.tail.setWidth 32 else sq.doorbell
      ptail := sq.tail }

def nvmeConfigureSq (qsize : ℕ) (mem : ℕ → NvmeSqe β) (dbbuf : Option NvmeDbbuf) :
    NvmeSq β where
  mem := mem
  tail := 0
  ptail := 0
  qsize := qsize
  doorbell := 0
  dbbuf := dbbuf

end Submission

end Nvme

end Libvfn
