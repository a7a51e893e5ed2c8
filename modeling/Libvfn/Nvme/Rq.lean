import Mathlib.Data.List.Basic

/-!
# Request trackers

A submission queue has a tracker for every command that can be in flight. The
trackers that are not in use are on a stack, linked through `rq_next`. Threads take
trackers from the stack and put them back with compare-and-swap; what a thread does
in one atomic step is one step of the model, and everything between two steps is in
its program counter. A queue that belongs to one thread has its stack for itself, and
taking and putting back are one step each.
-/

namespace Libvfn

namespace Nvme

/-- Where a thread is in `nvme_rq_acquire_atomic` or `nvme_rq_release_atomic`, and the
values of its variables. -/
inductive RqPc where
  | idle
  /-- The top was loaded, or observed by a failed exchange. -/
  | loaded (rq : ℕ)
  /-- The tracker's `rq_next` was read, too. -/
  | read (rq : ℕ) (next : Option ℕ)
  /-- The value of the top is to be stored in the tracker's `rq_next`. -/
  | store (rq : ℕ) (top : Option ℕ)
  /-- The tracker is to be exchanged for the value of its `rq_next`. -/
  | push (rq : ℕ)
  deriving DecidableEq

/-- The stack. A tracker is given by its index in `rqs`. -/
structure Rqs where
  rqTop : Option ℕ
  rqNext : ℕ → Option ℕ

/-- The stack that `__nvme_configure_sq` builds. -/
def nvmeConfigureSqRqs (qsize : ℕ) : Rqs where
  rqTop := some (qsize - 2)
  rqNext := fun i => if 0 < i then some (i - 1) else none

structure RqState (τ : Type*) extends Rqs where
  pc : τ → RqPc
  held : List (τ × ℕ)

def nvmeConfigureRqs (τ : Type*) (qsize : ℕ) : RqState τ where
  toRqs := nvmeConfigureSqRqs qsize
  pc := fun _ => .idle
  held := []

inductive RqOp (τ : Type*) where
  /-- Load the top in order to acquire a tracker. -/
  | load (t : τ)
  /-- Read `rq_next` of the tracker that was loaded. -/
  | readNext (t : τ)
  /-- Exchange the top for the value that was read. -/
  | popCas (t : τ)
  /-- Load the top in order to release a tracker. -/
  | release (t : τ) (rq : ℕ)
  /-- Store the value in `rq_next`. -/
  | storeNext (t : τ)
  /-- Exchange the value in `rq_next` for the tracker. -/
  | pushCas (t : τ)

variable {τ : Type*} [DecidableEq τ]

def RqState.setPc (s : RqState τ) (t : τ) (pc : RqPc) : RqState τ :=
  { s with pc := Function.update s.pc t pc }

@[simp]
theorem setPc_pc_self {s : RqState τ} {t : τ} {pc : RqPc} : (s.setPc t pc).pc t = pc :=
  Function.update_self ..

@[simp]
theorem setPc_pc_of_ne {s : RqState τ} {t u : τ} {pc : RqPc} (h : u ≠ t) :
    (s.setPc t pc).pc u = s.pc u :=
  Function.update_of_ne h ..

/-- What a thread that wants a tracker does with a value of the top. Without a tracker
it gives up. -/
def acquiring : Option ℕ → RqPc
  | none => .idle
  | some rq => .loaded rq

/-- One atomic step. A failed exchange leaves the value it has observed in place of the
expected one: in a variable when acquiring, in `rq_next` when releasing. -/
def rqStep (s : RqState τ) : RqOp τ → Option (RqState τ)
  | .load t =>
      match s.pc t with
      | .idle => some (s.setPc t (acquiring s.rqTop))
      | _ => none
  | .readNext t =>
      match s.pc t with
      | .loaded rq => some (s.setPc t (.read rq (s.rqNext rq)))
      | _ => none
  | .popCas t =>
      match s.pc t with
      | .read rq next =>
          if s.rqTop = some rq then
            some { s.setPc t .idle with rqTop := next, held := (t, rq) :: s.held }
          else some (s.setPc t (acquiring s.rqTop))
      | _ => none
  | .release t rq =>
      match s.pc t with
      | .idle =>
          if (t, rq) ∈ s.held then
            some { s.setPc t (.store rq s.rqTop) with held := s.held.erase (t, rq) }
          else none
      | _ => none
  | .storeNext t =>
      match s.pc t with
      | .store rq top =>
          some { s.setPc t (.push rq) with rqNext := Function.update s.rqNext rq top }
      | _ => none
  | .pushCas t =>
      match s.pc t with
      | .push rq =>
          if s.rqTop = s.rqNext rq then some { s.setPc t .idle with rqTop := some rq }
          else some (s.setPc t (.store rq s.rqTop))
      | _ => none

/-! ## One thread -/

def nvmeRqAcquire (rqs : Rqs) : Option ℕ × Rqs :=
  match rqs.rqTop with
  | none => (none, rqs)
  | some rq => (some rq, { rqs with rqTop := rqs.rqNext rq })

def nvmeRqRelease (rqs : Rqs) (rq : ℕ) : Rqs where
  rqTop := some rq
  rqNext := Function.update rqs.rqNext rq rqs.rqTop

end Nvme

end Libvfn
