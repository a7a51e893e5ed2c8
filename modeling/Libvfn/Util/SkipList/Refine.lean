import Libvfn.Foundation.Run
import Libvfn.Util.SkipList.Update

/-!
# The skip list refines a sequence

A client inserts by a search and a link, removes by a search and an erase of the
node found, clears the list, and looks nodes up; each call brings a comparator of
its own. `skiplistStep` is such a call on the skip list and `seqStep` what it
means on the sequence of the elements. A call is admissible when the signs of its
comparator fall along the sequence and a node that is to be linked is not linked
already.

Over every admissible run the two return the same values, and level zero of the
skip list is the sequence. The random levels appear on one side only.
-/

namespace Libvfn

namespace Util

open Linked Runs

inductive Op (ι : Type*) where
  | insert (n : ι) (cmp : Node ι → ℤ)
  | remove (cmp : Node ι → ℤ)
  | find (cmp : Node ι → ℤ)
  | findLe (cmp : Node ι → ℤ)
  | findGe (cmp : Node ι → ℤ)
  | clear

inductive Output (ι : Type*) where
  | found (n : Option (Node ι))
  | cleared (ns : List (Node ι))
  deriving DecidableEq

section Step

variable {ι : Type*} [DecidableEq ι]

def skiplistStep (list : SkipList ι) : Op ι → SkipList ι × Output ι
  | .insert n cmp =>
      match (skiplistFind list cmp).1 with
      | some m => (list, .found (some m))
      | none => (skiplistLink list (.entry n) (skiplistFind list cmp).2, .found none)
  | .remove cmp =>
      match (skiplistFind list cmp).1 with
      | some m => (skiplistErase list m (skiplistFind list cmp).2, .found (some m))
      | none => (list, .found none)
  | .find cmp => (list, .found (skiplistFind list cmp).1)
  | .findLe cmp => (list, .found (skiplistFindLe list cmp).1)
  | .findGe cmp => (list, .found (skiplistFindGe list cmp).1)
  | .clear => ((skiplistClearWith list).1, .cleared (skiplistClearWith list).2)

def seqFind (xs : List ι) (cmp : Node ι → ℤ) : Option ι :=
  xs.find? fun i => cmp (.entry i) = 0

def seqStep (xs : List ι) : Op ι → List ι × Output ι
  | .insert n cmp =>
      match seqFind xs cmp with
      | some m => (xs, .found (some (.entry m)))
      | none =>
          (xs.filter (fun i => 0 < cmp (.entry i)) ++
            n :: xs.filter (fun i => cmp (.entry i) < 0), .found none)
  | .remove cmp =>
      match seqFind xs cmp with
      | some m => (xs.erase m, .found (some (.entry m)))
      | none => (xs, .found none)
  | .find cmp => (xs, .found ((seqFind xs cmp).map .entry))
  | .findLe cmp =>
      (xs, .found ((xs.filter fun i => 0 ≤ cmp (.entry i)).getLast?.map .entry))
  | .findGe cmp => (xs, .found ((xs.find? fun i => cmp (.entry i) ≤ 0).map .entry))
  | .clear => ([], .cleared (xs.map .entry))

/-- The signs of the comparator fall along the elements, and a node that a call
links is not an element already. -/
def Admissible (xs : List ι) : Op ι → Prop
  | .insert n cmp => SignMonotone cmp xs ∧ (seqFind xs cmp = none → n ∉ xs)
  | .remove cmp | .find cmp | .findLe cmp | .findGe cmp => SignMonotone cmp xs
  | .clear => True

end Step

/-- When no element compares equal, the elements behind the position of the key
are the smaller ones. -/
theorem insertAt_of_seqFind_eq_none {ι : Type*} {xs : List ι} {cmp : Node ι → ℤ}
    (hcmp : SignMonotone cmp xs) (hnone : seqFind xs cmp = none) (n : ι) :
    insertAt (fun i => decide (0 < cmp (.entry i))) n xs =
      xs.filter (fun i => 0 < cmp (.entry i)) ++
        n :: xs.filter (fun i => cmp (.entry i) < 0) := by
  have hne : ∀ i ∈ xs, cmp (.entry i) ≠ 0 := by
    intro i hi h0
    exact List.find?_eq_none.mp hnone i hi (by simpa using h0)
  rw [insertAt, hcmp.initial_pos.takeWhile_eq_filter,
    hcmp.initial_pos.dropWhile_eq_filter]
  congr 2
  apply List.filter_congr
  intro i hi
  have hi0 := hne i hi
  by_cases hpos : 0 < cmp (.entry i)
  · simp [hpos, hpos.le]
  · have hneg : cmp (.entry i) < 0 := by omega
    simp [hneg, hneg.le]

section Refinement

variable {ι : Type*} [DecidableEq ι]

/-- One admissible call: the same value is returned, and the sequence stays the
one the list holds. -/
theorem skiplistStep_seqStep {list : SkipList ι} {xs : List ι} (op : Op ι)
    (h : Holds list xs) (hop : Admissible xs op) :
    (skiplistStep list op).2 = (seqStep xs op).2 ∧
      Holds (skiplistStep list op).1 (seqStep xs op).1 := by
  cases op with
  | insert n cmp =>
      obtain ⟨hcmp, hfresh⟩ := hop
      have hfind : (skiplistFind list cmp).1 = (seqFind xs cmp).map .entry :=
        h.find_spec hcmp
      cases hseq : seqFind xs cmp with
      | none =>
          rw [hseq] at hfind
          simp only [skiplistStep, seqStep, hfind, hseq, Option.map_none]
          rw [← insertAt_of_seqFind_eq_none hcmp hseq]
          exact ⟨trivial, h.link_spec hcmp (hfresh hseq)⟩
      | some i =>
          rw [hseq] at hfind
          simp only [skiplistStep, seqStep, hfind, hseq, Option.map_some]
          exact ⟨trivial, h⟩
  | remove cmp =>
      have hfind : (skiplistFind list cmp).1 = (seqFind xs cmp).map .entry :=
        h.find_spec hop
      cases hseq : seqFind xs cmp with
      | none =>
          rw [hseq] at hfind
          simp only [skiplistStep, seqStep, hfind, hseq, Option.map_none]
          exact ⟨trivial, h⟩
      | some i =>
          have hi0 : cmp (.entry i) = 0 := by simpa using List.find?_some hseq
          rw [hseq] at hfind
          simp only [skiplistStep, seqStep, hfind, hseq, Option.map_some]
          exact ⟨trivial, h.erase_spec hop hi0⟩
  | find cmp => exact ⟨congrArg Output.found (h.find_spec hop), h⟩
  | findLe cmp => exact ⟨congrArg Output.found (h.findLe_spec hop), h⟩
  | findGe cmp => exact ⟨congrArg Output.found (h.findGe_spec hop), h⟩
  | clear => exact ⟨congrArg Output.cleared h.clear_spec.2, h.clear_spec.1⟩

/-- Over every admissible run from the empty list, whatever the random levels, the
calls return what they return on the sequence, level zero is the sequence, and no
element stands in it twice. -/
theorem skiplist_refines_seq (rand rand' : ℕ → Bool) (ops : List (Op ι))
    (hops : AdmissibleAlong seqStep Admissible [] ops) :
    (runOut skiplistStep (skiplistInit rand) ops).2 = (runOut seqStep [] ops).2 ∧
      (runOut skiplistStep (skiplistInit rand) ops).1.heads 0 =
        toHeads (runOut seqStep [] ops).1 ∧
      (runOut seqStep [] ops).1.Nodup ∧
      (runOut skiplistStep (skiplistInit rand') ops).2 =
        (runOut skiplistStep (skiplistInit rand) ops).2 := by
  have hsim : ∀ rand, (runOut skiplistStep (skiplistInit rand) ops).2 =
        (runOut seqStep [] ops).2 ∧
      Holds (runOut skiplistStep (skiplistInit rand) ops).1 (runOut seqStep [] ops).1 :=
    fun rand => runOut_simulation
      (fun _ _ op hrel hcond => skiplistStep_seqStep op hrel hcond)
      (holds_init rand) hops
  obtain ⟨hout, hholds⟩ := hsim rand
  exact ⟨hout, hholds.heads_zero, hholds.nodup, (hsim rand').1.trans hout.symm⟩

end Refinement

/-- The comparator of the list's own test, whose elements are integers. -/
def intCmp (v : ℤ) : Node ℤ → ℤ
  | .sentinel => 0
  | .entry e => if v < e then -1 else if e < v then 1 else 0

theorem skiplist_refines_seq_ints :
    AdmissibleAlong seqStep Admissible []
        [.insert 1 (intCmp 1), .insert 3 (intCmp 3), .insert 2 (intCmp 2),
          .findLe (intCmp 4), .remove (intCmp 3), .clear] ∧
      (runOut skiplistStep (skiplistInit fun i => i % 3 = 0)
        [.insert 1 (intCmp 1), .insert 3 (intCmp 3), .insert 2 (intCmp 2),
          .findLe (intCmp 4), .remove (intCmp 3), .clear]).2 =
        [.found none, .found none, .found none, .found (some (.entry 3)),
          .found (some (.entry 3)), .cleared [.entry 1, .entry 2]] := by
  have hops : AdmissibleAlong seqStep Admissible ([] : List ℤ)
        [.insert 1 (intCmp 1), .insert 3 (intCmp 3), .insert 2 (intCmp 2),
          .findLe (intCmp 4), .remove (intCmp 3), .clear] := by
    refine ⟨⟨by decide, by decide⟩, ⟨by decide, by decide⟩, ⟨by decide, by decide⟩,
      ?_, ?_, trivial, trivial⟩
    · change SignMonotone _ _
      decide
    · change SignMonotone _ _
      decide
  refine ⟨hops, ?_⟩
  rw [(skiplist_refines_seq (fun i => i % 3 = 0) (fun _ => false) _ hops).1]
  decide

end Util

end Libvfn
