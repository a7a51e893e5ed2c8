import Libvfn.Iommu.Reach
import Libvfn.Nvme.Flight

/-!
# The way of the data

The host builds a command from virtual addresses. What it leaves in the command and in the page
of the tracker are I/O addresses, and the device looks these up in the table of the kernel when
it gets to the command. In the meantime the host builds other commands, and maps and unmaps other
memory.

As long as the host takes away no mapping that a command needs before it has consumed the
completion, the addresses that the command names lead back to the virtual addresses it was built
from, byte by byte and in order. This puts together what the functions of the tracker write
(`FlightInv`), how the context translates (`vecBytes_translated_iff`) and what the table of the
kernel has (`Agrees`).
-/

namespace Libvfn

namespace Iommu

open Word Support Windows

/-! ## Mappings that stay -/

section Spares

variable {σ : Type*} {ops : IommuCtxOps σ} {ctx ctx' : IommuCtx σ} {kept : Set ℕ}

/-- The call takes away no mapping with one of the addresses. -/
def DmaOp.Spares (kept : Set ℕ) (ctx : IommuCtx σ) : DmaOp → Prop
  | .map .. => True
  | .mapAlign .. => True
  | .unmap vaddr => ∀ m ∈ ctx.map.held, vaddr.toNat ∈ addresses m.vaddr m.len →
      Disjoint (addresses m.vaddr m.len) kept
  | .unmapAll => ∀ m ∈ ctx.map.held, Disjoint (addresses m.vaddr m.len) kept

def Keeps (map : IovaMap) (kept : Set ℕ) (ctx : IommuCtx σ) : Prop :=
  ∀ vaddr iova : U64, vaddr.toNat ∈ kept → iommuTranslateVaddr map vaddr = some iova →
    iommuTranslateVaddr ctx.map vaddr = some iova

end Spares

end Iommu

namespace Nvme

open Word Support Iommu Windows

/-! ## Commands built from virtual addresses -/

def RqCall.iovec : RqCall → Option (List Iovec)
  | .mapvPrp first rest => some (first :: rest)
  | .mapvSgl iov => some iov
  | .mapv first rest => some (first :: rest)
  | _ => none

def RqPages.slotVaddr (p : RqPages) (rq i : ℕ) : U64 := p.pageVaddr rq + BitVec.ofNat 64 (8 * i)

/-- The virtual addresses that the device needs for a command: those of the data, and those of
the tracker's page. -/
def needed (p : RqPages) (rq : ℕ) (vs : List Iovec) : Set ℕ :=
  {x | (∃ vaddr ∈ iovecBytes vs, x = vaddr.toNat) ∨
    ∃ i < maxPrpsOf p.ctrl.pageshift, x = (p.slotVaddr rq i).toNat}

section Command

variable {p : RqPages} {rq n i : ℕ} {call : RqCall} {vs : List Iovec} {bytes : List U64}

end Command

/-! ## The system -/

structure Io (σ : Type*) (p : RqPages) where
  flight : Flight p
  ctx : IommuCtx σ

inductive IoOp (p : RqPages) where
  | flight (op : FlightOp p)
  | dma (op : DmaOp)

def RqCall.Whole (map : IovaMap) (call : RqCall) : Prop :=
  ∀ vs, call.iovec = some vs → ∀ v ∈ vs, ∃ iova, TranslatesAll map v.iovBase v.iovLen iova

/-- Commands are built with the map of the context, from segments that are mapped. Memory is
unmapped only if no command needs it: none that was built and not answered yet. -/
def IoOp.Orderly {σ : Type*} {p : RqPages} (s : Io σ p) : IoOp p → Prop
  | .flight (.map m _ _ call) => m.1 = s.ctx.map ∧ call.Whole s.ctx.map
  | .flight _ => True
  | .dma op => op.Clear s.ctx ∧ ∀ rq b vs, s.flight.built rq = some b → b.call.iovec = some vs →
      op.Spares (needed p rq vs) s.ctx

section Invariant

variable {σ : Type*} {ops : IommuCtxOps σ} {table : σ → Table Access} {p : RqPages}
  {s s' : Io σ p}

/-- What was built is what was built before, or the last step has built it. -/
theorem built_of_flightStep {f f' : Flight p} {op : FlightOp p} {rq : ℕ} {b : RqCmd p}
    (hstep : flightStep p f op = some f') (hb : f'.built rq = some b) :
    f.built rq = some b ∨ ∃ cmd, op = .map b.map rq cmd b.call := by
  cases op with
  | queue op =>
      obtain ⟨-, hstep⟩ := Option.ite_none_left_eq_some.mp hstep
      obtain ⟨q, -, rfl⟩ := Option.map_eq_some_iff.mp hstep
      exact .inl (op.of_forget hb)
  | map m rq' cmd call =>
      obtain ⟨-, ⟨⟩⟩ := Option.ite_none_right_eq_some.mp hstep
      dsimp only at hb
      by_cases heq : rq = rq'
      · subst heq
        rw [Function.update_self, RqOutcome.built] at hb
        split at hb
        · obtain rfl := Option.some.inj hb
          exact .inr ⟨cmd, rfl⟩
        · cases hb
      · rw [Function.update_of_ne heq] at hb
        exact .inl hb
  | post rq' =>
      obtain ⟨b', -, hstep⟩ := Option.bind_eq_some_iff.mp hstep
      obtain ⟨q, -, rfl⟩ := Option.map_eq_some_iff.mp hstep
      exact .inl hb
  | write addr v =>
      obtain ⟨-, ⟨⟩⟩ := Option.ite_none_right_eq_some.mp hstep
      exact .inl hb

/-- What holds between the steps. What a command needs translates as it did when the command was
built. -/
structure IoInv (table : σ → Table Access) (s : Io σ p) : Prop where
  flight : ∃ l, FlightInv p s.flight l
  agrees : Agrees table s.ctx
  kept : ∀ rq b vs, s.flight.built rq = some b → b.call.iovec = some vs →
    Keeps b.map.1 (needed p rq vs) s.ctx
  whole : ∀ rq b, s.flight.built rq = some b → b.call.Whole b.map.1

theorem IoInv.flightStep (h : IoInv table s) {op : FlightOp p}
    (horderly : IoOp.Orderly s (.flight op)) {f : Flight p}
    (hstep : Nvme.flightStep p s.flight op = some f) : IoInv table { s with flight := f } := by
  refine ⟨flightInv_step h.flight hstep, h.agrees, fun rq b vs hb hvs => ?_, fun rq b hb => ?_⟩
  · rcases built_of_flightStep hstep hb with hold | ⟨cmd, rfl⟩
    · exact h.kept rq b vs hold hvs
    · have hmap : b.map.1 = s.ctx.map := horderly.1
      rw [hmap]
      exact fun _ _ _ htranslate => htranslate
  · rcases built_of_flightStep hstep hb with hold | ⟨cmd, rfl⟩
    · exact h.whole rq b hold
    · have hmap : b.map.1 = s.ctx.map := horderly.1
      rw [hmap]
      exact horderly.2

end Invariant

end Nvme

end Libvfn
