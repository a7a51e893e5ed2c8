import Libvfn.Iommu.Map

/-!
# Building physical region pages

A command names its data by two words, `prp1` and `prp2`. The first is the
address of the buffer, the second is zero, the second page of the buffer, or the
address of a list of pages. The list is written through a cursor into `nprplists`
contiguous pages of `maxPrps` slots; the last slot of a page is spent on the
address of the next page when an entry would fall there that is not the last one.

The stores made through the cursor are kept in the order in which they were made,
as pairs of a slot number, counted from the start of the list pages, and the
value stored. `listMemory` is the memory they leave behind.
-/

namespace Libvfn

namespace Nvme

open Word Support Iommu

def mpsToPageshift (mps : ℕ) : ℕ := 12 + mps

/-- The cached memory page size of a controller. The page size is computed in an
`int`, so its shift stays below 31. -/
structure NvmeConfig where
  mps : ℕ
  shift_lt : mpsToPageshift mps < 31

theorem mpsToPageshift_zero_lt : mpsToPageshift 0 < 31 := by decide

def clamp (v lo hi : ℤ) : ℤ := if hi < v then hi else if v < lo then lo else v

/-- The part of `nvme_ctrl_init` that chooses the memory page size: the host page
size, clamped to the two four-bit fields of `CAP`, and refused when it exceeds the
host page size. -/
def nvmeCtrlInitConfig (vfnPageshift : ℕ) (cap : U64) : Except Errno NvmeConfig :=
  let mpsmin := (cap >>> 48 &&& 0xf).toNat
  let mpsmax := (cap >>> 52 &&& 0xf).toNat
  let mps := clamp (vfnPageshift - 12) mpsmin mpsmax
  if vfnPageshift < 12 + mps then .error .EINVAL
  else
    .ok ⟨mps.toNat, by
      have hmin : (cap >>> 48 &&& 0xf).toNat ≤ 15 := by
        rw [BitVec.toNat_and]
        exact Nat.and_le_right
      have hmax : (cap >>> 52 &&& 0xf).toNat ≤ 15 := by
        rw [BitVec.toNat_and]
        exact Nat.and_le_right
      simp only [mps, clamp, mpsmin, mpsmax, mpsToPageshift]
      split_ifs <;> omega⟩

/-- `union nvme_dptr`: sixteen bytes, read here as the two region pages. -/
structure Dptr where
  prp1 : U64
  prp2 : U64
  deriving DecidableEq

/-- The part of `union nvme_cmd` that the mapping functions write. -/
structure NvmeCmd where
  flags : BitVec 8
  dptr : Dptr
  deriving DecidableEq

/-- The part of `struct nvme_ctrl` that the mapping functions read: the map of the
controller's address space, the page size and the feature flags. -/
structure NvmeCtrl where
  map : IovaMap
  config : NvmeConfig
  flags : U64

def NvmeCtrl.pageshift (ctrl : NvmeCtrl) : ℕ := mpsToPageshift ctrl.config.mps

theorem NvmeCtrl.pageshift_lt (ctrl : NvmeCtrl) : ctrl.pageshift < 31 :=
  ctrl.config.shift_lt

theorem NvmeCtrl.le_pageshift (ctrl : NvmeCtrl) : 12 ≤ ctrl.pageshift :=
  Nat.le_add_right 12 _

/-- `size_t pagesize = 1 << pageshift`, an `int` converted to a word. -/
def pagesizeOf (pageshift : ℕ) : U64 := (1#32 <<< pageshift).signExtend 64

def maxPrpsOf (pageshift : ℕ) : ℕ := 1 <<< (pageshift - 3)

/-! ## The cursor -/

/-- `struct __prp_cursor`. The pointer to the list pages is replaced by the stores
made through it. -/
structure PrpCursor where
  prplistIova : U64
  nprplists : ℕ
  page : ℕ
  slot : ℕ
  stores : List (ℕ × U64)
  deriving DecidableEq

def prpCursorInit (prplistIova : U64) (nprplists : ℕ) : PrpCursor :=
  ⟨prplistIova, nprplists, 0, 0, []⟩

def prplistCapacity (nprplists maxPrps : ℕ) : ℤ :=
  (((nprplists : ℤ) - 1) * ((maxPrps : ℤ) - 1) + maxPrps).bmod (2 ^ 32)

/-- The first half of `__prp_cursor_put`: where the entry would take the last slot
of a page that has a successor and more is to come, the slot gets the link. -/
def prpCursorChain (c : PrpCursor) (maxPrps pageshift : ℕ) (isLast : Bool) : PrpCursor :=
  if c.slot = maxPrps - 1 ∧ c.page + 1 < c.nprplists ∧ !isLast then
    { c with
      page := c.page + 1
      slot := 0
      stores := c.stores ++
        [((c.page <<< (pageshift - 3)) + (maxPrps - 1),
          c.prplistIova + (BitVec.ofNat 64 (c.page + 1) <<< pageshift))] }
  else c

def prpCursorPut (c : PrpCursor) (iova : U64) (maxPrps pageshift : ℕ) (isLast : Bool) :
    Bool × PrpCursor :=
  let c := prpCursorChain c maxPrps pageshift isLast
  if c.nprplists ≤ c.page ∨ maxPrps ≤ c.slot then (false, c)
  else
    (true,
      { c with
        slot := c.slot + 1
        stores := c.stores ++ [((c.page <<< (pageshift - 3)) + c.slot, iova)] })

/-- The loops of `__map_prp_first` and `__map_prp_append`: put one entry after the
other until one of them fails. -/
def prpCursorPutAll (maxPrps pageshift : ℕ) :
    PrpCursor → List (U64 × Bool) → Bool × PrpCursor
  | c, [] => (true, c)
  | c, e :: es =>
      let r := prpCursorPut c e.1 maxPrps pageshift e.2
      if r.1 then prpCursorPutAll maxPrps pageshift r.2 es else r

/-- The entries `iova + (i << pageshift)` for `n` values of `i` from `start` on. The
last of them is marked when the segment is the last one. -/
def pageEntries (iova : U64) (pageshift : ℕ) (lastSegment : Bool) (start n : ℕ) :
    List (U64 × Bool) :=
  (List.range' start n).map fun i =>
    (iova + (BitVec.ofNat 64 i <<< pageshift), lastSegment && i + 1 == start + n)

/-! ## The mapping functions -/

def residual (iova len pagesize : U64) : U64 :=
  let covered := pagesize - (iova &&& (pagesize - 1))
  len - (if len < covered then len else covered)

/-- The entries a buffer needs according to `__map_prp_first`, the first one
included. The rounded length is cut down to an `int` before the shift. -/
def prpcountFirst (iova len : U64) (pageshift : ℕ) : ℤ :=
  let len := residual iova len (pagesizeOf pageshift)
  if len = 0 then 1
  else 1 + (((alignUp len (pagesizeOf pageshift)).setWidth 32).toInt >>> pageshift)

/-- `__map_prp_first`: the number of entries, negative on failure. The caller
stores the address itself in `prp1`. -/
def mapPrpFirst (c : PrpCursor) (iova len : U64) (pageshift : ℕ) (lastSegment : Bool) :
    ℤ × PrpCursor :=
  let pagesize := pagesizeOf pageshift
  let maxPrps := maxPrpsOf pageshift
  let prpcount := prpcountFirst iova len pageshift
  if prplistCapacity c.nprplists maxPrps < prpcount - 1 then (-1, c)
  else
    let iova :=
      if 1 < prpcount ∧ !aligned iova pagesize then alignDown iova pagesize else iova
    let r := prpCursorPutAll maxPrps pageshift c
      (pageEntries iova pageshift lastSegment 1 (prpcount - 1).toNat)
    if r.1 then (prpcount, r.2) else (-1, r.2)

def prpcountAppend (len : U64) (pageshift : ℕ) : ℤ :=
  max 1 ((len.setWidth 32).toInt >>> pageshift)

/-- `__map_prp_append`: the number of entries, negative on failure. -/
def mapPrpAppend (c : PrpCursor) (iova len : U64) (maxPrps pageshift : ℕ)
    (lastSegment : Bool) : ℤ × PrpCursor :=
  let prpcount := prpcountAppend len pageshift
  if !aligned iova (pagesizeOf pageshift) then (-1, c)
  else
    let r := prpCursorPutAll maxPrps pageshift c
      (pageEntries iova pageshift lastSegment 0 prpcount.toNat)
    if r.1 then (prpcount, r.2) else (-1, r.2)

/-- The memory that a sequence of stores leaves behind, `none` where nothing was
stored. -/
def listMemory (stores : List (ℕ × U64)) : ℕ → Option U64 :=
  stores.foldl (fun mem s => Function.update mem s.1 (some s.2)) fun _ => none

/-- `__set_prp2`, where `prplists` is what the list pages held before the call. -/
def setPrp2 (c : PrpCursor) (prplists : ℕ → U64) (prpcount : ℤ) : U64 :=
  if prpcount = 2 then (listMemory c.stores 0).getD (prplists 0)
  else if 2 < prpcount then c.prplistIova
  else 0

structure PrpOutcome where
  ret : Except Errno Unit
  cmd : NvmeCmd
  stores : List (ℕ × U64)

/-- `nvme_map_prp`. The list pages are given by their address and by what they
hold. -/
def nvmeMapPrp (ctrl : NvmeCtrl) (prplists : U64) (held : ℕ → U64) (nprplists : ℕ)
    (cmd : NvmeCmd) (iova len : U64) : PrpOutcome :=
  if nprplists < 1 then ⟨.error .EINVAL, cmd, []⟩
  else
    match iommuTranslateVaddr ctrl.map prplists with
    | none => ⟨.error .EFAULT, cmd, []⟩
    | some prplistIova =>
        let c := prpCursorInit prplistIova nprplists
        let r := mapPrpFirst c iova len ctrl.pageshift true
        if r.1 < 0 then
          ⟨.error .EINVAL, { cmd with dptr := ⟨iova, cmd.dptr.prp2⟩ }, r.2.stores⟩
        else
          ⟨.ok (), { cmd with dptr := ⟨iova, setPrp2 r.2 held r.1⟩ }, r.2.stores⟩

structure IovaVec where
  iova : U64
  len : U64
  deriving DecidableEq

structure Iovec where
  iovBase : U64
  iovLen : U64
  deriving DecidableEq

/-- The loop over the segments behind the first one, shared by `nvme_mapv_prp` and
`nvme_mapv_iova_prp`. The first resolves the base of a segment when it gets to it;
for the second every segment is resolved already. -/
def mapvSegments {α : Type*} (resolve : α → Option U64) (length : α → U64)
    (pageshift : ℕ) : PrpCursor → ℤ → List α → Except Errno ℤ × PrpCursor
  | c, prpcount, [] => (.ok prpcount, c)
  | c, prpcount, v :: vs =>
      match resolve v with
      | none => (.error .EFAULT, c)
      | some iova =>
          if !vs.isEmpty && !aligned (length v) (pagesizeOf pageshift) then
            (.error .EINVAL, c)
          else
            let r := mapPrpAppend c iova (length v) (maxPrpsOf pageshift) pageshift
              vs.isEmpty
            if r.1 < 0 then (.error .EINVAL, r.2)
            else mapvSegments resolve length pageshift r.2 (prpcount + r.1) vs

/-- The common part of `nvme_mapv_prp` and `nvme_mapv_iova_prp`, from the cursor
on, for a first segment at `iova` and the segments behind it. -/
def mapvPrp {α : Type*} (resolve : α → Option U64) (length : α → U64) (pageshift : ℕ)
    (held : ℕ → U64) (c : PrpCursor) (cmd : NvmeCmd) (iova len : U64) (rest : List α) :
    PrpOutcome :=
  let cmd := { cmd with dptr := ⟨iova, cmd.dptr.prp2⟩ }
  let r := mapPrpFirst c iova len pageshift rest.isEmpty
  if r.1 < 0 then ⟨.error .EINVAL, cmd, r.2.stores⟩
  else if !(r.1 = 1 || rest.isEmpty || aligned (iova + len) (pagesizeOf pageshift)) then
    ⟨.error .EINVAL, cmd, r.2.stores⟩
  else
    match mapvSegments resolve length pageshift r.2 r.1 rest with
    | (.error e, c) => ⟨.error e, cmd, c.stores⟩
    | (.ok prpcount, c) =>
        ⟨.ok (), { cmd with dptr := ⟨iova, setPrp2 c held prpcount⟩ }, c.stores⟩

def nvmeMapvIovaPrp (ctrl : NvmeCtrl) (prplists : U64) (held : ℕ → U64) (nprplists : ℕ)
    (cmd : NvmeCmd) (first : IovaVec) (rest : List IovaVec) : PrpOutcome :=
  if nprplists < 1 then ⟨.error .EINVAL, cmd, []⟩
  else
    match iommuTranslateVaddr ctrl.map prplists with
    | none => ⟨.error .EFAULT, cmd, []⟩
    | some prplistIova =>
        mapvPrp (fun v => some v.iova) IovaVec.len ctrl.pageshift held
          (prpCursorInit prplistIova nprplists) cmd first.iova first.len rest

def nvmeMapvPrp (ctrl : NvmeCtrl) (prplists : U64) (held : ℕ → U64) (nprplists : ℕ)
    (cmd : NvmeCmd) (first : Iovec) (rest : List Iovec) : PrpOutcome :=
  if nprplists < 1 then ⟨.error .EINVAL, cmd, []⟩
  else
    match iommuTranslateVaddr ctrl.map first.iovBase with
    | none => ⟨.error .EFAULT, cmd, []⟩
    | some iova =>
        match iommuTranslateVaddr ctrl.map prplists with
        | none => ⟨.error .EFAULT, cmd, []⟩
        | some prplistIova =>
            mapvPrp (fun v => iommuTranslateVaddr ctrl.map v.iovBase) Iovec.iovLen
              ctrl.pageshift held (prpCursorInit prplistIova nprplists) cmd iova
              first.iovLen rest

end Nvme

end Libvfn
