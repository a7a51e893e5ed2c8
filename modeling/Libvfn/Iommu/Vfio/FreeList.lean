import Libvfn.Foundation.Spans
import Libvfn.Support.Align
import Libvfn.Util.SkipList.Update

/-!
# The list of free I/O virtual addresses

Addresses that were handed out and given back are kept in a skip list of ranges,
ordered by where they start. A range that is put back is merged with the ranges it
touches; a range that is taken is cut from the smallest one that is large enough.

`Free fl xs` says that the list is well formed, with the nodes `xs` in order. The
ranges may change in place while the skip list holds them, which is sound because
they keep their order.
-/

namespace Libvfn

namespace Iommu

open Word Support Util Spans Linked

structure FreeRange where
  start : U64
  len : U64
  deriving DecidableEq

/-- The skip list `free_iovas`, with the memory of its nodes and the next node to
be allocated. -/
structure FreeList where
  list : SkipList ℕ
  range : Node ℕ → FreeRange
  fresh : ℕ

def freeListInit (rand : ℕ → Bool) (garbage : FreeRange) : FreeList where
  list := skiplistInit rand
  range := fun _ => garbage
  fresh := 0

def iovaFreeRangeCmp (range : Node ℕ → FreeRange) (start : U64) (n : Node ℕ) : ℤ :=
  if start < (range n).start then -1
  else if (range n).start < start then 1
  else 0

/-- The loop of `__iova_get_free_range`, over the nodes still to come, with the best
fit so far and its size. -/
def iovaBestFit (range : Node ℕ → FreeRange) (len : U64) :
    List (Node ℕ) → Option (Node ℕ) → U64 → Option (Node ℕ)
  | [], best, _ => best
  | n :: ns, best, size =>
      if n = .sentinel then iovaBestFit range len ns best size
      else if len ≤ (range n).len ∧ (range n).len < size then
        if (range n).len = len then some n
        else iovaBestFit range len ns (some n) (range n).len
      else iovaBestFit range len ns best size

def iovaGetFreeRange (fl : FreeList) (len : U64) : Option (Node ℕ) :=
  iovaBestFit fl.range len (fl.list.heads 0) none (-1)

def iovaErase (fl : FreeList) (n : Node ℕ) : FreeList :=
  let update := (skiplistFind fl.list (iovaFreeRangeCmp fl.range (fl.range n).start)).2
  { fl with list := skiplistErase fl.list n update }

def iovaGetFree (fl : FreeList) (len : U64) : Option (U64 × FreeList) :=
  (iovaGetFreeRange fl len).map fun n =>
    let r := fl.range n
    if r.len = len then (r.start, iovaErase fl n)
    else (r.start, { fl with range := Function.update fl.range n ⟨r.start + len, r.len - len⟩ })

/-- The part of `__iova_put_free` that extends the previous range, and takes the
next one in if that closes the gap. -/
def iovaExtendPrev (fl : FreeList) (prev : Node ℕ) (len : U64) : FreeList :=
  let r := fl.range prev
  let fl := { fl with range := Function.update fl.range prev ⟨r.start, r.len + len⟩ }
  match skiplistNext fl.list.heads prev 0 with
  | none => fl
  | some next =>
      if r.start + (r.len + len) = (fl.range next).start then
        iovaErase
          { fl with
            range := Function.update fl.range prev
              ⟨r.start, r.len + len + (fl.range next).len⟩ } next
      else fl

def iovaLinkFree (fl : FreeList) (start len : U64) : FreeList :=
  let n := Node.entry fl.fresh
  let range := Function.update fl.range n ⟨start, len⟩
  { list := skiplistLink fl.list n (skiplistFind fl.list (iovaFreeRangeCmp range start)).2
    range := range
    fresh := fl.fresh + 1 }

/-- The part of `__iova_put_free` behind the check of the previous range. -/
def iovaExtendNext (fl : FreeList) (start len : U64) : FreeList :=
  match (skiplistFindGe fl.list (iovaFreeRangeCmp fl.range start)).1 with
  | none => iovaLinkFree fl start len
  | some next =>
      let r := fl.range next
      if start + len = r.start then
        { fl with range := Function.update fl.range next ⟨start, r.len + len⟩ }
      else iovaLinkFree fl start len

def iovaPutFree (fl : FreeList) (start len : U64) : FreeList :=
  match (skiplistFindLe fl.list (iovaFreeRangeCmp fl.range start)).1 with
  | none => iovaExtendNext fl start len
  | some prev =>
      if (fl.range prev).start + (fl.range prev).len = start then iovaExtendPrev fl prev len
      else iovaExtendNext fl start len

/-- The loop of `__iova_get_free_align`, over the nodes still to come, with the best
fit so far, what it offers, and its aligned address. -/
def iovaBestFitAlign (range : Node ℕ → FreeRange) (len align : U64) :
    List (Node ℕ) → Option (Node ℕ × U64) → U64 → Option (Node ℕ × U64)
  | [], best, _ => best
  | n :: ns, best, size =>
      let r := range n
      let aligned := alignUp r.start align
      let pad := aligned - r.start
      let avail := r.len - pad
      if n = .sentinel ∨ aligned < r.start ∨ r.len ≤ pad ∨ avail < len then
        iovaBestFitAlign range len align ns best size
      else if avail < size then
        if avail = len then some (n, aligned)
        else iovaBestFitAlign range len align ns (some (n, aligned)) avail
      else iovaBestFitAlign range len align ns best size

def iovaGetFreeAlign (fl : FreeList) (len align : U64) : Option (U64 × FreeList) :=
  (iovaBestFitAlign fl.range len align (fl.list.heads 0) none (-1)).map fun best =>
    let r := fl.range best.1
    let aligned := best.2
    let origEnd := r.start + r.len
    let padLen := aligned - r.start
    let fl := iovaErase fl best.1
    let fl := if padLen ≠ 0 then iovaPutFree fl r.start padLen else fl
    let fl :=
      if aligned + len < origEnd then iovaPutFree fl (aligned + len) (origEnd - (aligned + len))
      else fl
    (aligned, fl)

end Iommu

end Libvfn
