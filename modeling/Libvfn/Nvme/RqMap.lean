import Libvfn.Nvme.Prp.Frame
import Libvfn.Nvme.Translated

/-!
# The page of a tracker

Every tracker of a submission queue has a page, for the list of region pages or of
descriptors of the command that is built with it. `__nvme_configure_sq` cuts the pages out
of one buffer. Here the functions that map data with the page of a tracker are put on top
of the memory that the controller reads: words of eight bytes, by their addresses.

A call changes words of the tracker's own page only (`outside`), and what the controller
reads through a data pointer afterwards are the bytes that were asked for, whichever of the
two kinds of lists the call has made.
-/

namespace Libvfn

namespace Nvme

open Word Support Iommu

/-- `i << __mps_to_pageshift(mps)`, an `int` that is added to an address. -/
def rqPageOffset (pageshift rq : ℕ) : U64 := (BitVec.ofNat 32 rq <<< pageshift).signExtend 64

/-- A submission queue with the buffer for the pages of its trackers. The buffer is mapped,
starts with a page, and the offsets of its pages fit an `int`. -/
structure RqPages where
  ctrl : NvmeCtrl
  sqid : ℕ
  qsize : ℕ
  vaddr : U64
  iova : U64
  two_le : 2 ≤ qsize
  qsize_le : qsize ≤ 2 ^ 16
  offset_le : (qsize - 1) * 2 ^ ctrl.pageshift ≤ 2 ^ 31
  inside : iova.toNat + qsize * 2 ^ ctrl.pageshift ≤ 2 ^ 64
  aligned : 2 ^ ctrl.pageshift ∣ iova.toNat
  mapped : TranslatesAll ctrl.map vaddr (BitVec.ofNat 64 (qsize * 2 ^ ctrl.pageshift)) iova

def RqPages.pageVaddr (p : RqPages) (rq : ℕ) : U64 := p.vaddr + rqPageOffset p.ctrl.pageshift rq

def RqPages.pageIova (p : RqPages) (rq : ℕ) : U64 := p.iova + rqPageOffset p.ctrl.pageshift rq

def RqPages.slot (p : RqPages) (rq i : ℕ) : U64 := p.pageIova rq + BitVec.ofNat 64 (8 * i)

section Pages

variable {p : RqPages} {rq rq' i j : ℕ}

theorem toNat_rqPageOffset {pageshift : ℕ} (h : rq * 2 ^ pageshift < 2 ^ 31) :
    (rqPageOffset pageshift rq).toNat = rq * 2 ^ pageshift := by
  have hrq : rq < 2 ^ 31 := (Nat.le_mul_of_pos_right rq (Nat.two_pow_pos _)).trans_lt h
  have htoNat : (BitVec.ofNat 32 rq <<< pageshift).toNat = rq * 2 ^ pageshift := by
    rw [BitVec.toNat_shiftLeft, Nat.shiftLeft_eq, BitVec.toNat_ofNat,
      Nat.mod_eq_of_lt (by omega : rq < 2 ^ 32), Nat.mod_eq_of_lt (by omega)]
  have hmsb : (BitVec.ofNat 32 rq <<< pageshift).msb = false := by
    rw [BitVec.msb_eq_decide, htoNat, decide_eq_false_iff_not]
    omega
  rw [rqPageOffset, BitVec.signExtend_eq_setWidth_of_msb_false hmsb, BitVec.toNat_setWidth,
    htoNat, Nat.mod_eq_of_lt (by omega)]

theorem RqPages.page_mul_lt (p : RqPages) (hrq : rq < p.qsize - 1) :
    rq * 2 ^ p.ctrl.pageshift + 2 ^ p.ctrl.pageshift ≤ 2 ^ 31 := by
  have hmul := Nat.mul_le_mul_right (2 ^ p.ctrl.pageshift) (Nat.succ_le_of_lt hrq)
  rw [Nat.succ_mul] at hmul
  exact hmul.trans p.offset_le

theorem RqPages.toNat_offset (p : RqPages) (hrq : rq < p.qsize - 1) :
    (rqPageOffset p.ctrl.pageshift rq).toNat = rq * 2 ^ p.ctrl.pageshift := by
  have hlt := p.page_mul_lt hrq
  have hpos := Nat.two_pow_pos p.ctrl.pageshift
  exact toNat_rqPageOffset (by omega)

theorem RqPages.page_mul_le (p : RqPages) (hrq : rq < p.qsize - 1) :
    rq * 2 ^ p.ctrl.pageshift + 2 ^ p.ctrl.pageshift ≤ p.qsize * 2 ^ p.ctrl.pageshift := by
  rw [← Nat.succ_mul]
  exact Nat.mul_le_mul_right _ (by omega)

theorem RqPages.toNat_pageIova (p : RqPages) (hrq : rq < p.qsize - 1) :
    (p.pageIova rq).toNat = p.iova.toNat + rq * 2 ^ p.ctrl.pageshift := by
  have hle := p.page_mul_le hrq
  have hpos := Nat.two_pow_pos p.ctrl.pageshift
  have hinside := p.inside
  rw [RqPages.pageIova, BitVec.toNat_add, p.toNat_offset hrq, Nat.mod_eq_of_lt (by omega)]

theorem RqPages.pageIova_aligned (p : RqPages) (hrq : rq < p.qsize - 1) :
    2 ^ p.ctrl.pageshift ∣ (p.pageIova rq).toNat := by
  rw [p.toNat_pageIova hrq]
  exact p.aligned.add (Nat.dvd_mul_left _ _)

theorem RqPages.page_mapped (p : RqPages) (hrq : rq < p.qsize - 1) :
    iommuTranslateVaddr p.ctrl.map (p.pageVaddr rq) = some (p.pageIova rq) := by
  refine p.mapped _ (BitVec.lt_def.mpr ?_)
  have hle := p.page_mul_le hrq
  have hpos := Nat.two_pow_pos p.ctrl.pageshift
  have hpow : 2 ^ p.ctrl.pageshift < 2 ^ 31 := Nat.pow_lt_pow_right (by omega) p.ctrl.pageshift_lt
  have hsize := Nat.mul_le_mul p.qsize_le hpow.le
  rw [p.toNat_offset hrq, BitVec.toNat_ofNat, Nat.mod_eq_of_lt (by omega)]
  omega

theorem RqPages.eight_mul_lt (p : RqPages) (hi : i < maxPrpsOf p.ctrl.pageshift) :
    8 * i + 8 ≤ 2 ^ p.ctrl.pageshift := by
  have hk := p.ctrl.le_pageshift
  have hmul := eight_mul_maxPrpsOf (by omega : 3 ≤ p.ctrl.pageshift)
  omega

theorem RqPages.toNat_slot (p : RqPages) (hrq : rq < p.qsize - 1)
    (hi : i < maxPrpsOf p.ctrl.pageshift) :
    (p.slot rq i).toNat = p.iova.toNat + (rq * 2 ^ p.ctrl.pageshift + 8 * i) := by
  have hle := p.page_mul_le hrq
  have hinside := p.inside
  have hslot := p.eight_mul_lt hi
  have hpow : 2 ^ p.ctrl.pageshift < 2 ^ 31 := Nat.pow_lt_pow_right (by omega) p.ctrl.pageshift_lt
  rw [RqPages.slot, BitVec.toNat_add, p.toNat_pageIova hrq, BitVec.toNat_ofNat,
    Nat.mod_eq_of_lt (by omega : 8 * i < 2 ^ 64), Nat.mod_eq_of_lt (by omega), Nat.add_assoc]

/-- Words of different pages have different addresses. -/
theorem RqPages.slot_ne (p : RqPages) (hrq : rq < p.qsize - 1) (hrq' : rq' < p.qsize - 1)
    (hi : i < maxPrpsOf p.ctrl.pageshift) (hj : j < maxPrpsOf p.ctrl.pageshift) (hne : rq ≠ rq') :
    p.slot rq i ≠ p.slot rq' j := by
  intro heq
  have hnat := congrArg BitVec.toNat heq
  rw [p.toNat_slot hrq hi, p.toNat_slot hrq' hj] at hnat
  have hpos := Nat.two_pow_pos p.ctrl.pageshift
  have hslot := p.eight_mul_lt hi
  have hslot' := p.eight_mul_lt hj
  have hpage : ∀ n m, m < 2 ^ p.ctrl.pageshift →
      (n * 2 ^ p.ctrl.pageshift + m) / 2 ^ p.ctrl.pageshift = n := by
    intro n m hm
    rw [Nat.mul_comm, Nat.mul_add_div hpos, Nat.div_eq_of_lt hm, Nat.add_zero]
  have hsame := congrArg (· / 2 ^ p.ctrl.pageshift) (Nat.add_left_cancel hnat)
  rw [hpage rq _ (by omega), hpage rq' _ (by omega)] at hsame
  exact hne hsame

end Pages

/-! ## Memory -/

def storeList (mem : U64 → U64) (base : U64) (stores : List (ℕ × U64)) : U64 → U64 :=
  stores.foldl (fun mem s => Function.update mem (base + BitVec.ofNat 64 (8 * s.1)) s.2) mem

def readSgld (mem : U64 → U64) (addr : U64) : NvmeSgld := Dptr.sgl ⟨mem addr, mem (addr + 8)⟩

def storeSeg (mem : U64 → U64) (base : U64) (bytes : ℕ) (seg : ℕ → NvmeSgld) (addr : U64) : U64 :=
  let offset := (addr - base).toNat
  if offset < bytes ∧ offset % 8 = 0 then
    let dptr := (seg (offset / 16)).toDptr
    if offset % 16 = 0 then dptr.prp1 else dptr.prp2
  else mem addr

section Memory

variable {mem : U64 → U64} {base addr v : U64} {stores : List (ℕ × U64)}

theorem eq_slot_of_mod {offset : ℕ} (hoffset : (addr - base).toNat = offset)
    (hmod : offset % 8 = 0) : addr = base + BitVec.ofNat 64 (8 * (offset / 8)) := by
  rw [Nat.mul_div_cancel' (Nat.dvd_of_mod_eq_zero hmod), ← hoffset, BitVec.ofNat_toNat,
    BitVec.setWidth_eq, add_sub_cancel]

theorem listRead_eq_some (h : listRead base stores addr = some v) :
    ∃ s ∈ stores, addr = base + BitVec.ofNat 64 (8 * s.1) := by
  rw [listRead] at h
  obtain ⟨hmod, hmem⟩ := Option.ite_none_right_eq_some.mp h
  by_contra hnone
  rw [listMemory_eq_none] at hmem
  · cases hmem
  · intro s hs heq
    exact hnone ⟨s, hs, heq ▸ eq_slot_of_mod rfl hmod⟩

theorem listRead_append_singleton (s : ℕ × U64) (hs : 8 * s.1 < 2 ^ 64) :
    listRead base (stores ++ [s]) addr =
      if addr = base + BitVec.ofNat 64 (8 * s.1) then some s.2 else listRead base stores addr := by
  split_ifs with haddr
  · rw [haddr, listRead_slot base _ hs, listMemory_append_singleton, Function.update_self]
  · rw [listRead, listRead]
    split_ifs with hmod
    · have hne : (addr - base).toNat / 8 ≠ s.1 :=
        fun heq => haddr (heq ▸ eq_slot_of_mod rfl hmod)
      rw [listMemory_append_singleton, Function.update_of_ne hne]
    · rfl

theorem storeList_eq (hsmall : ∀ s ∈ stores, 8 * s.1 < 2 ^ 64) :
    storeList mem base stores addr = (listRead base stores addr).getD (mem addr) := by
  induction stores using List.reverseRecOn with
  | nil => simp [storeList, listRead, listMemory]
  | append_singleton ss s ih =>
      rw [listRead_append_singleton s (hsmall s (by simp)), storeList, List.foldl_append]
      have hrest := ih fun t ht => hsmall t (by simp [ht])
      split_ifs with haddr
      · rw [haddr]
        exact Function.update_self ..
      · rw [← hrest]
        exact Function.update_of_ne haddr ..

end Memory

/-! ## The functions -/

structure RqOutcome where
  ret : Except Errno Unit
  cmd : NvmeCmd
  mem : U64 → U64

/-- A list of region pages in the page of a tracker: `nvme_map_prp`, `nvme_mapv_prp` or
`nvme_mapv_iova_prp`, called with one list page. -/
def rqPrp (p : RqPages) (mem : U64 → U64) (rq : ℕ) (cmd : NvmeCmd) (call : PrpCall) :
    RqOutcome :=
  let out := call.run p.ctrl (p.pageVaddr rq) (fun i => mem (p.slot rq i)) 1 cmd
  ⟨out.ret, out.cmd, storeList mem (p.pageIova rq) out.stores⟩

/-- A list of descriptors in the page of a tracker, for segments that are resolved. -/
def rqSgl {α : Type*} (resolve : α → Option U64) (length : α → U64) (p : RqPages)
    (mem : U64 → U64) (rq : ℕ) (cmd : NvmeCmd) (iov : List α) : RqOutcome :=
  let base := p.pageIova rq
  let seg := fun i => readSgld mem (base + BitVec.ofNat 64 (16 * i))
  let out := mapvSgl resolve length p.ctrl seg base cmd iov
  ⟨out.ret, out.cmd, storeSeg mem base (2 ^ p.ctrl.pageshift) out.seg⟩

def RqPages.nvmeRqMapPrp (p : RqPages) (mem : U64 → U64) (rq : ℕ) (cmd : NvmeCmd)
    (iova len : U64) : RqOutcome :=
  rqPrp p mem rq cmd (.mapPrp iova len)

def RqPages.nvmeRqMapvPrp (p : RqPages) (mem : U64 → U64) (rq : ℕ) (cmd : NvmeCmd)
    (first : Iovec) (rest : List Iovec) : RqOutcome :=
  rqPrp p mem rq cmd (.mapvPrp first rest)

def RqPages.nvmeRqMapvIovaPrp (p : RqPages) (mem : U64 → U64) (rq : ℕ) (cmd : NvmeCmd)
    (first : IovaVec) (rest : List IovaVec) : RqOutcome :=
  rqPrp p mem rq cmd (.mapvIovaPrp first rest)

def RqPages.nvmeRqMapvSgl (p : RqPages) (mem : U64 → U64) (rq : ℕ) (cmd : NvmeCmd)
    (iov : List Iovec) : RqOutcome :=
  rqSgl (fun v => iommuTranslateVaddr p.ctrl.map v.iovBase) Iovec.iovLen p mem rq cmd iov

def RqPages.nvmeRqMapvIovaSgl (p : RqPages) (mem : U64 → U64) (rq : ℕ) (cmd : NvmeCmd)
    (iov : List IovaVec) : RqOutcome :=
  rqSgl (fun v => some v.iova) IovaVec.len p mem rq cmd iov

/-- `nvme_rq_mapv`: region pages without `NVME_CTRL_F_SGLS_SUPPORTED` or on the admin queue,
and descriptors otherwise. -/
def RqPages.nvmeRqMapv (p : RqPages) (mem : U64 → U64) (rq : ℕ) (cmd : NvmeCmd)
    (first : Iovec) (rest : List Iovec) : RqOutcome :=
  if p.ctrl.flags &&& (1 <<< 1) = 0 ∨ p.sqid = 0 then p.nvmeRqMapvPrp mem rq cmd first rest
  else p.nvmeRqMapvSgl mem rq cmd (first :: rest)

/-- The addresses of the `n` bytes that the controller transfers for a command. -/
def dataBytes (pagesize : ℕ) (mem : U64 → U64) (cmd : NvmeCmd) (n : ℕ) : Option (List U64) :=
  if psdt cmd = Psdt.prp.code then prpWalk (fun addr => some (mem addr)) pagesize cmd.dptr n
  else
    (sglDecode (readSgld mem) cmd).map fun blocks => blocks.flatMap fun b => byteRange b.1 b.2

/-! ## Other pages -/

section Frame

variable {p : RqPages} {mem : U64 → U64} {rq : ℕ} {cmd : NvmeCmd} {addr : U64}

theorem rqPrp_inside (call : PrpCall) :
    ∀ s ∈ (call.run p.ctrl (p.pageVaddr rq) (fun i => mem (p.slot rq i)) 1 cmd).stores,
      s.1 < maxPrpsOf p.ctrl.pageshift := by
  intro s hs
  have hone : 1 ≤ 1 := le_rfl
  obtain ⟨c, hframed, hstores⟩ := call.exists_framed p.ctrl (fun i => mem (p.slot rq i))
    hone cmd (p.pageVaddr rq)
  have hlt := (hframed.prpFrame (fun i => mem (p.slot rq i)) hstores).inside s hs
  rwa [Nat.one_mul] at hlt

theorem RqPages.eight_mul_lt_two_pow (p : RqPages) {i : ℕ} (hi : i < maxPrpsOf p.ctrl.pageshift) :
    8 * i < 2 ^ 64 := by
  have hslot := p.eight_mul_lt hi
  have hpow : 2 ^ p.ctrl.pageshift < 2 ^ 31 := Nat.pow_lt_pow_right (by omega) p.ctrl.pageshift_lt
  omega

theorem rqPrp_mem (call : PrpCall) :
    (rqPrp p mem rq cmd call).mem addr =
      (listRead (p.pageIova rq)
        (call.run p.ctrl (p.pageVaddr rq) (fun i => mem (p.slot rq i)) 1 cmd).stores addr).getD
          (mem addr) :=
  storeList_eq fun s hs => p.eight_mul_lt_two_pow (rqPrp_inside call s hs)

theorem rqPrp_outside (call : PrpCall)
    (haddr : ∀ i < maxPrpsOf p.ctrl.pageshift, addr ≠ p.slot rq i) :
    (rqPrp p mem rq cmd call).mem addr = mem addr := by
  rw [rqPrp_mem]
  cases hread : listRead (p.pageIova rq)
      (call.run p.ctrl (p.pageVaddr rq) (fun i => mem (p.slot rq i)) 1 cmd).stores addr with
  | none => rfl
  | some v =>
      obtain ⟨s, hs, heq⟩ := listRead_eq_some hread
      exact absurd heq (haddr s.1 (rqPrp_inside call s hs))

theorem rqSgl_outside {α : Type*} (resolve : α → Option U64) (length : α → U64) (iov : List α)
    (haddr : ∀ i < maxPrpsOf p.ctrl.pageshift, addr ≠ p.slot rq i) :
    (rqSgl resolve length p mem rq cmd iov).mem addr = mem addr := by
  refine if_neg ?_
  rintro ⟨hlt, hmod⟩
  have hk := p.ctrl.le_pageshift
  have hmul := eight_mul_maxPrpsOf (by omega : 3 ≤ p.ctrl.pageshift)
  exact haddr _ (by omega) (eq_slot_of_mod rfl hmod)

end Frame

/-! ## What the controller reads -/

section Walk

variable {read read' : U64 → Option U64} {pagesize : ℕ}

/-- A walk that comes to an end does the same where more can be read. -/
theorem walkList_mono (hmono : ∀ addr v, read addr = some v → read' addr = some v) {fuel rem : ℕ}
    {addr : U64} {bytes : List U64} (h : walkList read pagesize fuel addr rem = some bytes) :
    walkList read' pagesize fuel addr rem = some bytes := by
  induction fuel generalizing addr rem bytes with
  | zero =>
      rw [walkList] at h ⊢
      exact h
  | succ fuel ih =>
      rw [walkList] at h ⊢
      split_ifs at h ⊢ with hrem hlink
      · exact h
      · obtain ⟨slot, hslot, h⟩ := Option.bind_eq_some_iff.mp h
        obtain ⟨link, hread, halign⟩ := Option.bind_eq_some_iff.mp hslot
        obtain ⟨page, hpage, h⟩ := Option.bind_eq_some_iff.mp h
        obtain ⟨tail, htail, rfl⟩ := Option.map_eq_some_iff.mp h
        rw [hmono _ _ hread, Option.bind_some, halign, Option.bind_some, hmono _ _ hpage,
          Option.bind_some, ih htail, Option.map_some]
      · obtain ⟨slot, hslot, h⟩ := Option.bind_eq_some_iff.mp h
        obtain ⟨page, hpage, h⟩ := Option.bind_eq_some_iff.mp h
        obtain ⟨tail, htail, rfl⟩ := Option.map_eq_some_iff.mp h
        rw [hslot, Option.bind_some, hmono _ _ hpage, Option.bind_some, ih htail, Option.map_some]

theorem prpWalk_mono (hmono : ∀ addr v, read addr = some v → read' addr = some v) {dptr : Dptr}
    {n : ℕ} {bytes : List U64} (h : prpWalk read pagesize dptr n = some bytes) :
    prpWalk read' pagesize dptr n = some bytes := by
  rw [prpWalk] at h ⊢
  split_ifs at h ⊢ with hfirst hsecond
  · exact h
  · exact h
  · obtain ⟨tail, htail, rfl⟩ := Option.map_eq_some_iff.mp h
    rw [walkList_mono hmono htail, Option.map_some]

end Walk

def SamePage (p : RqPages) (rq : ℕ) (mem mem' : U64 → U64) : Prop :=
  ∀ i < maxPrpsOf p.ctrl.pageshift, mem' (p.slot rq i) = mem (p.slot rq i)

/-- The command names the bytes, whatever the memory outside the page of the tracker is. -/
def Names (p : RqPages) (rq : ℕ) (mem : U64 → U64) (cmd : NvmeCmd) (n : ℕ) (bytes : List U64) :
    Prop :=
  ∀ mem', SamePage p rq mem mem' → dataBytes (2 ^ p.ctrl.pageshift) mem' cmd n = some bytes

section Prp

variable {p : RqPages} {mem : U64 → U64} {rq : ℕ} {cmd : NvmeCmd}

theorem mapvPrp_flags {α : Type*} (resolve : α → Option U64) (length : α → U64) (pageshift : ℕ)
    (held : ℕ → U64) (c : PrpCursor) (iova len : U64) (rest : List α) :
    (mapvPrp resolve length pageshift held c cmd iova len rest).cmd.flags = cmd.flags := by
  rw [mapvPrp]
  dsimp only
  split_ifs
  · rfl
  · rfl
  · generalize mapvSegments resolve length pageshift _ _ rest = r
    obtain ⟨e | count, c⟩ := r
    · rfl
    · rfl

/-- Region pages leave the flags of a command alone. -/
theorem PrpCall.run_flags (ctrl : NvmeCtrl) (prplists : U64) (held : ℕ → U64) (n : ℕ)
    (call : PrpCall) : (call.run ctrl prplists held n cmd).cmd.flags = cmd.flags := by
  cases call with
  | mapPrp iova len =>
      rw [PrpCall.run, nvmeMapPrp_eq_mapv, nvmeMapvIovaPrp]
      split_ifs
      · rfl
      · cases iommuTranslateVaddr ctrl.map prplists with
        | none => rfl
        | some prplistIova => exact mapvPrp_flags ..
  | mapvPrp first rest =>
      rw [PrpCall.run, nvmeMapvPrp]
      split_ifs
      · rfl
      · cases iommuTranslateVaddr ctrl.map first.iovBase with
        | none => rfl
        | some iova =>
            cases iommuTranslateVaddr ctrl.map prplists with
            | none => rfl
            | some prplistIova => exact mapvPrp_flags ..
  | mapvIovaPrp first rest =>
      rw [PrpCall.run, nvmeMapvIovaPrp]
      split_ifs
      · rfl
      · cases iommuTranslateVaddr ctrl.map prplists with
        | none => rfl
        | some prplistIova => exact mapvPrp_flags ..

/-- What can be walked with the stores of a call can be walked in memory. -/
theorem names_of_prpWalk (hpsdt : psdt cmd = Psdt.prp.code) (call : PrpCall) {n : ℕ}
    {bytes : List U64}
    (hwalk :
      let out := call.run p.ctrl (p.pageVaddr rq) (fun i => mem (p.slot rq i)) 1 cmd
      prpWalk (listRead (p.pageIova rq) out.stores) (2 ^ p.ctrl.pageshift) out.cmd.dptr n =
        some bytes) :
    Names p rq (rqPrp p mem rq cmd call).mem (rqPrp p mem rq cmd call).cmd n bytes := by
  intro mem' hsame
  have hflags : psdt (rqPrp p mem rq cmd call).cmd = Psdt.prp.code := by
    rw [← hpsdt, psdt, psdt, rqPrp, call.run_flags]
  rw [dataBytes, if_pos hflags]
  refine prpWalk_mono (fun addr v hread => ?_) hwalk
  obtain ⟨s, hs, haddr⟩ := listRead_eq_some hread
  have hword := hsame s.1 (rqPrp_inside call s hs)
  rw [RqPages.slot, ← haddr, rqPrp_mem, hread, Option.getD_some] at hword
  rw [hword]

end Prp

/-! ## Region pages -/

/-- A vector that region pages can describe, whose length fits an `int`. -/
structure PrpVector (pagesize : ℕ) (first : IovaVec) (rest : List IovaVec) : Prop where
  nonempty : ∀ v ∈ first :: rest, 0 < v.len.toNat
  describable : Describable pagesize first rest
  length_lt : vecLength (first :: rest) < 2 ^ 31
  lastFits : LastFits pagesize rest

section RegionPages

variable {p : RqPages} {mem : U64 → U64} {rq : ℕ} {cmd : NvmeCmd} (hrq : rq < p.qsize - 1)
  (hpsdt : psdt cmd = Psdt.prp.code)

include hrq hpsdt

theorem nvmeRqMapPrp_names {iova len : U64} (hlen : len.toNat < 2 ^ 31)
    (hret : (p.nvmeRqMapPrp mem rq cmd iova len).ret = .ok ()) :
    Names p rq (p.nvmeRqMapPrp mem rq cmd iova len).mem (p.nvmeRqMapPrp mem rq cmd iova len).cmd
      len.toNat (byteRange iova len.toNat) := by
  obtain ⟨-, -, hnonneg, -⟩ := nvmeMapPrp_ok (p.page_mapped hrq) hret
  exact names_of_prpWalk hpsdt _ (prpWalk_of_count (p.page_mapped hrq) (p.pageIova_aligned hrq)
    (prpcountFirst_of_nonneg p.ctrl.pageshift_lt hlen hnonneg) hret)

theorem nvmeRqMapvIovaPrp_names {first : IovaVec} {rest : List IovaVec}
    (hvec : PrpVector (2 ^ p.ctrl.pageshift) first rest)
    (hret : (p.nvmeRqMapvIovaPrp mem rq cmd first rest).ret = .ok ()) :
    Names p rq (p.nvmeRqMapvIovaPrp mem rq cmd first rest).mem
      (p.nvmeRqMapvIovaPrp mem rq cmd first rest).cmd (vecLength (first :: rest))
      (vecBytes (first :: rest)) := by
  have hlen : ∀ v ∈ first :: rest, v.len.toNat < 2 ^ 31 := fun v hv =>
    (len_le_vecLength hv).trans_lt hvec.length_lt
  have hsmall := length_vecEntries_lt p.ctrl.pageshift_lt hvec.nonempty hvec.describable
    hvec.length_lt (nvmeMapvIovaPrp_ok (p.page_mapped hrq) hret).2.1.nonneg
  exact names_of_prpWalk hpsdt _ (prpWalk_of_lastFits (p.page_mapped hrq) (p.pageIova_aligned hrq)
    hvec.nonempty hvec.describable hlen hsmall hret hvec.lastFits)

theorem nvmeRqMapvPrp_names {first : Iovec} {rest : List Iovec} {w : IovaVec} {ws : List IovaVec}
    (hall : List.Forall₂ (Translates p.ctrl.map) (first :: rest) (w :: ws))
    (hvec : PrpVector (2 ^ p.ctrl.pageshift) w ws)
    (hret : (p.nvmeRqMapvPrp mem rq cmd first rest).ret = .ok ()) :
    Names p rq (p.nvmeRqMapvPrp mem rq cmd first rest).mem
      (p.nvmeRqMapvPrp mem rq cmd first rest).cmd (vecLength (w :: ws)) (vecBytes (w :: ws)) := by
  have heq : p.nvmeRqMapvPrp mem rq cmd first rest = p.nvmeRqMapvIovaPrp mem rq cmd w ws := by
    rw [RqPages.nvmeRqMapvPrp, RqPages.nvmeRqMapvIovaPrp, rqPrp, rqPrp, PrpCall.run, PrpCall.run,
      nvmeMapvPrp_eq (p.page_mapped hrq) hall]
  rw [heq] at hret ⊢
  exact nvmeRqMapvIovaPrp_names hrq hpsdt hvec hret

end RegionPages

/-! ## Descriptors -/

/-- Data blocks are the same where their descriptors are. -/
theorem dataBlocks_congr {read read' : U64 → NvmeSgld} {addr : U64} {n : ℕ}
    (h : ∀ i < n, read (addr + BitVec.ofNat 64 (16 * i)) =
      read' (addr + BitVec.ofNat 64 (16 * i))) :
    dataBlocks read addr n = dataBlocks read' addr n := by
  induction n generalizing addr with
  | zero => rfl
  | succ n ih =>
      have hhere := h 0 (Nat.succ_pos n)
      rw [Nat.mul_zero, BitVec.add_zero] at hhere
      have hrest : dataBlocks read (addr + 16) n = dataBlocks read' (addr + 16) n := by
        refine ih fun i hi => ?_
        have hnext : addr + 16 + BitVec.ofNat 64 (16 * i) =
            addr + BitVec.ofNat 64 (16 * (i + 1)) := by
          rw [Nat.mul_add, Nat.add_comm, BitVec.ofNat_add, ← add_assoc]
          rfl
        rw [hnext]
        exact h (i + 1) (by omega)
      rw [dataBlocks, dataBlocks, hhere, hrest]

theorem two_mul_maxSgldsOf {pageshift : ℕ} (hk : 4 ≤ pageshift) :
    2 * maxSgldsOf pageshift = maxPrpsOf pageshift := by
  obtain ⟨k, rfl⟩ := Nat.exists_eq_add_of_le hk
  rw [maxSgldsOf, maxPrpsOf, Nat.shiftLeft_eq, Nat.shiftLeft_eq, Nat.one_mul, Nat.one_mul,
    show 4 + k - 3 = (4 + k - 4) + 1 by omega, Nat.pow_succ, Nat.mul_comm]

theorem mapvSgl_length_le {α : Type*} {resolve : α → Option U64} {length : α → U64}
    {ctrl : NvmeCtrl} {seg : ℕ → NvmeSgld} {segIova : U64} {cmd : NvmeCmd} {iov : List α}
    (hone : iov.length ≠ 1)
    (hret : (mapvSgl resolve length ctrl seg segIova cmd iov).ret = .ok ()) :
    iov.length ≤ maxSgldsOf ctrl.pageshift := by
  rw [mapvSgl_of_length _ _ _ _ _ _ hone] at hret
  by_contra hmany
  rw [if_pos (not_le.mp hmany)] at hret
  cases hret

section Descriptors

variable {p : RqPages} {mem mem' : U64 → U64} {rq i : ℕ} {cmd : NvmeCmd} {seg : ℕ → NvmeSgld}

theorem storeSeg_slot (hi : i < maxPrpsOf p.ctrl.pageshift) :
    storeSeg mem (p.pageIova rq) (2 ^ p.ctrl.pageshift) seg (p.slot rq i) =
      if i % 2 = 0 then (seg (i / 2)).toDptr.prp1 else (seg (i / 2)).toDptr.prp2 := by
  have hoffset : (p.slot rq i - p.pageIova rq).toNat = 8 * i := by
    rw [RqPages.slot, add_sub_cancel_left, BitVec.toNat_ofNat,
      Nat.mod_eq_of_lt (p.eight_mul_lt_two_pow hi)]
  have hlt := p.eight_mul_lt hi
  have hhalf : 8 * i / 16 = i / 2 := by omega
  have hodd : 8 * i % 16 = 0 ↔ i % 2 = 0 := by omega
  rw [storeSeg, hoffset, if_pos ⟨by omega, Nat.mul_mod_right 8 i⟩, hhalf]
  simp only [hodd]

/-- The descriptors are read back, as far as the page goes. -/
theorem readSgld_storeSeg
    (hsame : SamePage p rq (storeSeg mem (p.pageIova rq) (2 ^ p.ctrl.pageshift) seg) mem')
    (hi : i < maxSgldsOf p.ctrl.pageshift) :
    readSgld mem' (p.pageIova rq + BitVec.ofNat 64 (16 * i)) = seg i := by
  have hk := p.ctrl.le_pageshift
  have htwo := two_mul_maxSgldsOf (by omega : 4 ≤ p.ctrl.pageshift)
  have hlow : p.pageIova rq + BitVec.ofNat 64 (16 * i) = p.slot rq (2 * i) := by
    rw [RqPages.slot, ← Nat.mul_assoc]
  have hhigh : p.slot rq (2 * i) + 8 = p.slot rq (2 * i + 1) := by
    rw [RqPages.slot, RqPages.slot, Nat.mul_add, BitVec.ofNat_add, ← add_assoc]
    rfl
  rw [readSgld, hlow, hhigh, hsame _ (by omega), hsame _ (by omega), storeSeg_slot (by omega),
    storeSeg_slot (by omega), if_pos (by omega), if_neg (by omega), show 2 * i / 2 = i by omega,
    show (2 * i + 1) / 2 = i by omega]
  exact sgl_toDptr (seg i)

/-- A vector of translated segments. -/
theorem nvmeRqMapvIovaSgl_names (hpsdt : psdt cmd = Psdt.prp.code) {iov : List IovaVec}
    (htwo : 2 ≤ iov.length) (hlen : ∀ v ∈ iov, v.len.toNat < 2 ^ 32)
    (hret : (p.nvmeRqMapvIovaSgl mem rq cmd iov).ret = .ok ()) (n : ℕ) :
    Names p rq (p.nvmeRqMapvIovaSgl mem rq cmd iov).mem (p.nvmeRqMapvIovaSgl mem rq cmd iov).cmd n
      (vecBytes iov) := by
  intro mem' hsame
  let segs := fun i => readSgld mem (p.pageIova rq + BitVec.ofNat 64 (16 * i))
  have hret' : (nvmeMapvIovaSgl p.ctrl segs (p.pageIova rq) cmd iov).ret = .ok () := hret
  have hone : iov.length ≠ 1 := by omega
  have hmax := mapvSgl_length_le hone hret'
  obtain ⟨hn, seg', -, hout⟩ := mapvSgl_ok hone hret'
  have hblocks := (sglBlocks_of_length_ne_one hone hlen hret').1
  have hdecode := sglDecode_of_length_ne_one hpsdt hone hret' (readSgld mem')
  have hcmd : (p.nvmeRqMapvIovaSgl mem rq cmd iov).cmd =
      (nvmeMapvIovaSgl p.ctrl segs (p.pageIova rq) cmd iov).cmd := rfl
  have hkind : psdt (nvmeMapvIovaSgl p.ctrl segs (p.pageIova rq) cmd iov).cmd ≠
      Psdt.prp.code := by
    rw [nvmeMapvIovaSgl, hout, psdt, psdt_or hpsdt]
    decide
  -- both readers follow the descriptor of the list to the same data blocks
  have hsame' : sglBlocks (readSgld mem')
      (nvmeMapvIovaSgl p.ctrl segs (p.pageIova rq) cmd iov).cmd.dptr =
        sglBlocks (segRead (p.pageIova rq)
          (nvmeMapvIovaSgl p.ctrl segs (p.pageIova rq) cmd iov).seg)
          (nvmeMapvIovaSgl p.ctrl segs (p.pageIova rq) cmd iov).cmd.dptr := by
    have hdptr : (nvmeMapvIovaSgl p.ctrl segs (p.pageIova rq) cmd iov).cmd.dptr =
        (sglSegment cmd.dptr.sgl (p.pageIova rq) iov.length).toDptr := by
      rw [nvmeMapvIovaSgl, hout]
    rw [hdptr, sglBlocks_list _ _ _ hn, sglBlocks_list _ _ _ hn]
    refine dataBlocks_congr fun i hi => ?_
    rw [readSgld_storeSeg hsame (by omega), segRead_index _ _ (by omega)]
    rfl
  rw [dataBytes, hcmd, if_neg hkind, hdecode, hsame', hblocks, Option.map_some, List.flatMap_map]
  rfl

theorem nvmeRqMapvSgl_names (hpsdt : psdt cmd = Psdt.prp.code) {iov : List Iovec}
    {ws : List IovaVec} (hall : List.Forall₂ (Translates p.ctrl.map) iov ws)
    (htwo : 2 ≤ ws.length) (hlen : ∀ w ∈ ws, w.len.toNat < 2 ^ 32)
    (hret : (p.nvmeRqMapvSgl mem rq cmd iov).ret = .ok ()) (n : ℕ) :
    Names p rq (p.nvmeRqMapvSgl mem rq cmd iov).mem (p.nvmeRqMapvSgl mem rq cmd iov).cmd n
      (vecBytes ws) := by
  have hlength := hall.length_eq
  have heq : p.nvmeRqMapvSgl mem rq cmd iov = p.nvmeRqMapvIovaSgl mem rq cmd ws := by
    rw [RqPages.nvmeRqMapvSgl, RqPages.nvmeRqMapvIovaSgl, rqSgl, rqSgl,
      mapvSgl_of_length _ _ _ _ _ _ (by omega : iov.length ≠ 1),
      mapvSgl_of_length _ _ _ _ _ _ (by omega : ws.length ≠ 1), hlength, sglFill_translate hall]
  rw [heq] at hret ⊢
  exact nvmeRqMapvIovaSgl_names hpsdt htwo hlen hret n

end Descriptors

end Nvme

end Libvfn
