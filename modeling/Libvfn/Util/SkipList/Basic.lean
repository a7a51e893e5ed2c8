import Mathlib.Data.List.Nodup
import Mathlib.Logic.Function.Basic
import Libvfn.Foundation.Linked

/-!
# The skip list

A `SkipList` is eight linked lists over the same nodes. Every level's list
starts with the sentinel that is embedded in the list structure; `height` is the
topmost level in use. A node is the sentinel or an element with an identity in
`ι`, and comparators see nodes, the sentinel included, because the C code reads
the payload of whatever node it stands at.

The three searches are one descent, `skiplistDescend`, with different conditions
for advancing. It starts at the sentinel of the topmost level, walks as long as
the condition allows, and drops a level, recording in `path` the node at which it
dropped. `skiplistLink` and `skiplistErase` use a recorded path.

The level of a new node comes from `rand`. The field `rand` holds the outcomes
of the comparisons `rand() > RAND_MAX / 2` still to come, so a statement about
every list is a statement about every outcome.
-/

namespace Libvfn

namespace Util

open Linked

def skiplistLevels : ℕ := 8

/-- A `struct skiplist_node`: the embedded sentinel or the node of an element. -/
inductive Node (ι : Type*) where
  | sentinel
  | entry (i : ι)
  deriving DecidableEq

/-- `struct skiplist`. The lists are indexed by all levels; those from
`skiplistLevels` on are never touched. -/
structure SkipList (ι : Type*) where
  height : ℕ
  heads : ℕ → List (Node ι)
  rand : ℕ → Bool

def skiplistInit {ι : Type*} (rand : ℕ → Bool) : SkipList ι where
  height := 0
  heads := fun _ => [.sentinel]
  rand := rand

/-- The update vector: the predecessor recorded for each level, `none` where the
array still holds the null pointer. -/
abbrev Path (ι : Type*) := ℕ → Option (Node ι)

section Operations

variable {ι : Type*} [DecidableEq ι]

def skiplistNext (heads : ℕ → List (Node ι)) (p : Node ι) (k : ℕ) : Option (Node ι) :=
  next (heads k) p

/-- What a descent returns: the node it stands at on level zero, the node behind
it, and the nodes at which it dropped a level. -/
structure Descent (ι : Type*) where
  pos : Node ι
  next : Option (Node ι)
  path : Path ι

/-- The descent shared by the three searches, from level `k` and node `p`. -/
def skiplistDescend (list : SkipList ι) (go : Node ι → Bool) :
    ℕ → Node ι → Path ι → Descent ι
  | 0, p, path =>
      let r := advance go p (after p (list.heads 0))
      ⟨r.1, r.2, Function.update path 0 (some r.1)⟩
  | k + 1, p, path =>
      let r := advance go p (after p (list.heads (k + 1)))
      skiplistDescend list go k r.1 (Function.update path (k + 1) (some r.1))

def skiplistFind (list : SkipList ι) (cmp : Node ι → ℤ) : Option (Node ι) × Path ι :=
  let d := skiplistDescend list (fun n => 0 < cmp n) list.height .sentinel fun _ => none
  (d.next.filter fun n => cmp n = 0, d.path)

/-- `skiplist_find_le`: advance while the key is larger than or equal to the next
node, and return the node the descent stands at. -/
def skiplistFindLe (list : SkipList ι) (cmp : Node ι → ℤ) : Option (Node ι) × Path ι :=
  let d := skiplistDescend list (fun n => 0 ≤ cmp n) list.height .sentinel fun _ => none
  (if d.pos = .sentinel then none else some d.pos, d.path)

/-- `skiplist_find_ge`: advance as `skiplist_find` does, and return the node
behind whatever it compares to. -/
def skiplistFindGe (list : SkipList ι) (cmp : Node ι → ℤ) : Option (Node ι) × Path ι :=
  let d := skiplistDescend list (fun n => 0 < cmp n) list.height .sentinel fun _ => none
  (d.next, d.path)

def skiplistClimb : ℕ → ℕ → (ℕ → Bool) → ℕ × (ℕ → Bool)
  | 0, k, rand => (k, rand)
  | fuel + 1, k, rand =>
      if rand 0 then skiplistClimb fuel (k + 1) (fun i => rand (i + 1))
      else (k, fun i => rand (i + 1))

def skiplistRandomLevel (rand : ℕ → Bool) : ℕ × (ℕ → Bool) :=
  skiplistClimb (skiplistLevels - 1) 0 rand

/-- `skiplist_add_after`, leaving the lists alone at a null predecessor. -/
def skiplistAddAfter (heads : ℕ → List (Node ι)) (p : Option (Node ι)) (n : Node ι)
    (k : ℕ) : ℕ → List (Node ι) :=
  match p with
  | none => heads
  | some p => Function.update heads k (insertAfter p n (heads k))

def skiplistLinkDown (n : Node ι) (update : Path ι) :
    ℕ → (ℕ → List (Node ι)) → ℕ → List (Node ι)
  | 0, heads => skiplistAddAfter heads (update 0) n 0
  | k + 1, heads =>
      skiplistLinkDown n update k (skiplistAddAfter heads (update (k + 1)) n (k + 1))

/-- `skiplist_link`. A random level above the height grows the list by one level
only, and the new level's predecessor is the sentinel. -/
def skiplistLink (list : SkipList ι) (n : Node ι) (update : Path ι) : SkipList ι :=
  let r := skiplistRandomLevel list.rand
  if list.height < r.1 then
    let k := list.height + 1
    { height := k
      heads := skiplistLinkDown n (Function.update update k (some .sentinel)) k list.heads
      rand := r.2 }
  else
    { list with heads := skiplistLinkDown n update r.1 list.heads, rand := r.2 }

/-- The first loop of `skiplist_erase`, from level `k` with `fuel` levels left. It
stops at the first level where the recorded predecessor does not precede `n`. -/
def skiplistEraseUp (n : Node ι) (update : Path ι) :
    ℕ → ℕ → (ℕ → List (Node ι)) → ℕ → List (Node ι)
  | 0, _, heads => heads
  | fuel + 1, k, heads =>
      if (update k).bind (fun p => skiplistNext heads p k) = some n then
        skiplistEraseUp n update fuel (k + 1)
          (Function.update heads k ((heads k).erase n))
      else heads

/-- The second loop of `skiplist_erase`: give up levels that hold only the
sentinel. -/
def skiplistShrink (heads : ℕ → List (Node ι)) : ℕ → ℕ
  | 0 => 0
  | h + 1 =>
      if skiplistNext heads .sentinel (h + 1) = none then skiplistShrink heads h
      else h + 1

def skiplistErase (list : SkipList ι) (n : Node ι) (update : Path ι) : SkipList ι :=
  let heads := skiplistEraseUp n update (list.height + 1) 0 list.heads
  { list with heads := heads, height := skiplistShrink heads list.height }

/-- One level of `skiplist_clear_with`: the traversal visits the nodes the level
held when it started and deletes all but the sentinel. -/
def skiplistClearLevel (l : List (Node ι)) : List (Node ι) :=
  l.foldl (fun rest n => if n = .sentinel then rest else rest.erase n) l

def skiplistClearDown : ℕ → (ℕ → List (Node ι)) → ℕ → List (Node ι)
  | 0, heads => Function.update heads 0 (skiplistClearLevel (heads 0))
  | k + 1, heads =>
      skiplistClearDown k
        (Function.update heads (k + 1) (skiplistClearLevel (heads (k + 1))))

/-- `skiplist_clear_with`, and the nodes on which it calls its callback: those of
level zero, in order. -/
def skiplistClearWith (list : SkipList ι) : SkipList ι × List (Node ι) :=
  ({ list with heads := skiplistClearDown list.height list.heads, height := 0 },
    (list.heads 0).filter fun n => n ≠ .sentinel)

end Operations

/-! ## The representation -/

def toHeads {ι : Type*} (ys : List ι) : List (Node ι) := .sentinel :: ys.map .entry

@[simp] theorem toHeads_nil {ι : Type*} : toHeads ([] : List ι) = [.sentinel] := rfl

theorem toHeads_injective {ι : Type*} : Function.Injective (toHeads (ι := ι)) := by
  intro ys zs h
  have hmap : ys.map Node.entry = zs.map Node.entry := (List.cons.inj h).2
  exact List.map_injective_iff.mpr (fun a b hab => Node.entry.inj hab) hmap

/-- The list represents the elements `levels k` on each level `k`: a level holds
part of the level below, nothing lies above the height, and the topmost level in
use is not empty. -/
structure Represents {ι : Type*} (list : SkipList ι) (levels : ℕ → List ι) : Prop where
  heads_eq : ∀ k, list.heads k = toHeads (levels k)
  sublist : ∀ k, (levels (k + 1)).Sublist (levels k)
  above : ∀ k, list.height < k → levels k = []
  nodup : (levels 0).Nodup
  height_lt : list.height < skiplistLevels
  tight : list.height = 0 ∨ levels list.height ≠ []

/-- The list holds the elements `xs`, in this order. -/
def Holds {ι : Type*} (list : SkipList ι) (xs : List ι) : Prop :=
  ∃ levels, Represents list levels ∧ levels 0 = xs

theorem holds_init {ι : Type*} (rand : ℕ → Bool) :
    Holds (skiplistInit (ι := ι) rand) [] := by
  refine ⟨fun _ => [], ⟨?_, ?_, ?_, ?_, ?_, ?_⟩, rfl⟩
  · intro k
    rfl
  · intro k
    exact List.Sublist.refl []
  · intro k _
    rfl
  · exact List.nodup_nil
  · exact Nat.zero_lt_succ 7
  · exact Or.inl rfl

theorem Holds.unique {ι : Type*} {list : SkipList ι} {xs ys : List ι}
    (hx : Holds list xs) (hy : Holds list ys) : xs = ys := by
  obtain ⟨lx, rx, rfl⟩ := hx
  obtain ⟨ly, ry, rfl⟩ := hy
  exact toHeads_injective ((rx.heads_eq 0).symm.trans (ry.heads_eq 0))

theorem Holds.heads_zero {ι : Type*} {list : SkipList ι} {xs : List ι}
    (h : Holds list xs) : list.heads 0 = toHeads xs := by
  obtain ⟨levels, r, rfl⟩ := h
  exact r.heads_eq 0

theorem Holds.nodup {ι : Type*} {list : SkipList ι} {xs : List ι}
    (h : Holds list xs) : xs.Nodup := by
  obtain ⟨levels, r, rfl⟩ := h
  exact r.nodup

theorem Holds.not_mem_split {ι : Type*} {list : SkipList ι} {l r : List ι} {n : ι}
    (h : Holds list (l ++ n :: r)) : n ∉ l ∧ n ∉ r := by
  have hnd := List.nodup_middle.mp h.nodup
  rw [List.nodup_cons, List.mem_append, not_or] at hnd
  exact hnd.1

theorem Holds.map_tail {ι α : Type*} {list : SkipList ι} {xs : List ι}
    (h : Holds list xs) (f : Node ι → α) :
    (list.heads 0).tail.map f = xs.map fun i => f (.entry i) := by
  rw [h.heads_zero, toHeads, List.tail_cons, List.map_map]
  rfl

namespace Represents

variable {ι : Type*} {list : SkipList ι} {levels : ℕ → List ι}

theorem sublist_of_le (r : Represents list levels) {j k : ℕ} (h : j ≤ k) :
    (levels k).Sublist (levels j) := by
  induction h with
  | refl => exact List.Sublist.refl _
  | step _ ih => exact (r.sublist _).trans ih

theorem nodup_level (r : Represents list levels) (k : ℕ) : (levels k).Nodup :=
  r.nodup.sublist (r.sublist_of_le (Nat.zero_le k))

end Represents

end Util

end Libvfn
