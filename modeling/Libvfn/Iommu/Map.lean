import Libvfn.Support.Align
import Libvfn.Util.SkipList.Update

/-!
# The map of virtual addresses

An address space keeps its mappings in a skip list. A mapping covers the virtual
addresses from `vaddr` up to `vaddr + len`, the sum taken modulo the word size as
pointer arithmetic takes it, and a search compares an address with the two ends.
The nodes of the list are numbered in the order of their allocation, and
`mapping` is the memory behind them; it has a value at the sentinel too, since
the sentinel has a payload as far as the pointer arithmetic is concerned.
-/

namespace Libvfn

namespace Iommu

open Word Support Util

structure IovaMapping where
  vaddr : U64
  len : U64
  iova : U64
  flags : U64
  deriving DecidableEq

/-- `struct iova_map`, with the memory of its nodes and the next node to be
allocated. -/
structure IovaMap where
  list : SkipList ℕ
  mapping : Node ℕ → IovaMapping
  fresh : ℕ

def iovaMapInit (rand : ℕ → Bool) (garbage : IovaMapping) : IovaMap where
  list := skiplistInit rand
  mapping := fun _ => garbage
  fresh := 0

def iovaCmp (mapping : Node ℕ → IovaMapping) (vaddr : U64) (n : Node ℕ) : ℤ :=
  let m := mapping n
  if vaddr < m.vaddr then -1
  else if m.vaddr + m.len ≤ vaddr then 1
  else 0

/-- Allocate a node for the mapping and link it at the place that a search for its
first address has found. -/
def iovaMapLink (map : IovaMap) (m : IovaMapping) : IovaMap :=
  let n := Node.entry map.fresh
  { list := skiplistLink map.list n (skiplistFind map.list (iovaCmp map.mapping m.vaddr)).2
    mapping := Function.update map.mapping n m
    fresh := map.fresh + 1 }

def iovaMapAdd (map : IovaMap) (vaddr len iova flags : U64) : Except Errno IovaMap :=
  if len = 0 then .error .EINVAL
  else if (skiplistFind map.list (iovaCmp map.mapping vaddr)).1.isSome then .error .EEXIST
  else .ok (iovaMapLink map ⟨vaddr, len, iova, flags⟩)

def iovaMapFind (map : IovaMap) (vaddr : U64) : Option (Node ℕ) :=
  (skiplistFind map.list (iovaCmp map.mapping vaddr)).1

theorem iovaMapAdd_eq_ok {map map' : IovaMap} {vaddr len iova flags : U64}
    (hadd : iovaMapAdd map vaddr len iova flags = .ok map') :
    len ≠ 0 ∧ iovaMapFind map vaddr = none ∧
      map' = iovaMapLink map ⟨vaddr, len, iova, flags⟩ := by
  rw [iovaMapAdd, ← iovaMapFind] at hadd
  split_ifs at hadd with hlen hfind
  exact ⟨hlen, Option.not_isSome_iff_eq_none.mp hfind, (Except.ok.inj hadd).symm⟩

def iovaMapRemove (map : IovaMap) (vaddr : U64) : IovaMap :=
  let r := skiplistFind map.list (iovaCmp map.mapping vaddr)
  match r.1 with
  | none => map
  | some n => { map with list := skiplistErase map.list n r.2 }

/-- `iova_map_clear_with`, and the nodes its callback sees. -/
def iovaMapClearWith (map : IovaMap) : IovaMap × List (Node ℕ) :=
  let r := skiplistClearWith map.list
  ({ map with list := r.1 }, r.2)

def iommuTranslateVaddr (map : IovaMap) (vaddr : U64) : Option U64 :=
  (iovaMapFind map vaddr).map fun n =>
    (map.mapping n).iova + (vaddr - (map.mapping n).vaddr)

/-- The loop of `iommu_translate_iova`, over the nodes still to come. It reads the payload of
every node, the sentinel included, and returns the address with what is left of the mapping
behind it, as a signed word. -/
def translateIovaFrom (mapping : Node ℕ → IovaMapping) (iova : U64) :
    List (Node ℕ) → Except Errno (U64 × ℤ)
  | [] => .error .EINVAL
  | n :: ns =>
      let m := mapping n
      if m.iova ≤ iova ∧ iova < m.iova + m.len then
        .ok (m.vaddr + (iova - m.iova), (m.len - (iova - m.iova)).toInt)
      else translateIovaFrom mapping iova ns

def iommuTranslateIova (map : IovaMap) (iova : U64) : Except Errno (U64 × ℤ) :=
  translateIovaFrom map.mapping iova (map.list.heads 0)

end Iommu

end Libvfn
