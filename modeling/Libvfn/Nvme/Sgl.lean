import Libvfn.Nvme.Prp.Encode

/-!
# Scatter gather lists

The data pointer of a command can hold a descriptor instead of two region pages.
One segment is described in place; several are described in a list, and the
command has a descriptor of the list. Which of the two meanings the data pointer
has is said by the PSDT field of the flags, and that field is only set on the way
through the list: a command for one segment keeps the flags it came with.

The check for dword alignment is on the same way.
-/

namespace Libvfn

namespace Nvme

open Word Support Iommu

inductive SgldType where
  | dataBlock
  | bitBucket
  | segment
  | lastSegment
  deriving DecidableEq

def SgldType.code : SgldType → BitVec 8
  | .dataBlock => 0x0
  | .bitBucket => 0x1
  | .segment => 0x2
  | .lastSegment => 0x3

inductive Psdt where
  | prp
  | sglMptrContig
  | sglMptrSgl
  deriving DecidableEq

def Psdt.code : Psdt → BitVec 8
  | .prp => 0x0
  | .sglMptrContig => 0x1
  | .sglMptrSgl => 0x2

structure NvmeSgld where
  addr : U64
  len : BitVec 32
  rsvd12 : BitVec 24
  type : BitVec 8
  deriving DecidableEq

/-- The descriptor that overlays the two region pages of a data pointer. -/
def Dptr.sgl (dptr : Dptr) : NvmeSgld where
  addr := dptr.prp1
  len := dptr.prp2.extractLsb' 0 32
  rsvd12 := dptr.prp2.extractLsb' 32 24
  type := dptr.prp2.extractLsb' 56 8

def NvmeSgld.toDptr (sgld : NvmeSgld) : Dptr where
  prp1 := sgld.addr
  prp2 := sgld.type ++ sgld.rsvd12 ++ sgld.len

def sglData (sgld : NvmeSgld) (iova len : U64) : NvmeSgld :=
  { sgld with
    addr := iova
    len := len.setWidth 32
    type := SgldType.dataBlock.code <<< 4 }

def sglSegment (sgld : NvmeSgld) (iova : U64) (n : ℕ) : NvmeSgld :=
  { sgld with
    addr := iova
    len := BitVec.ofNat 32 (n <<< 4)
    type := SgldType.lastSegment.code <<< 4 }

def maxSgldsOf (pageshift : ℕ) : ℕ := 1 <<< (pageshift - 4)

def NvmeCtrl.dwordAlign (ctrl : NvmeCtrl) : Bool := ctrl.flags &&& (1 <<< 2) ≠ 0

structure SglOutcome where
  ret : Except Errno Unit
  cmd : NvmeCmd
  seg : ℕ → NvmeSgld

section Mapping

variable {α : Type*} (resolve : α → Option U64) (length : α → U64)

def sglFill (dwordAlign : Bool) :
    (ℕ → NvmeSgld) → ℕ → List α → Except Errno Unit × (ℕ → NvmeSgld)
  | seg, _, [] => (.ok (), seg)
  | seg, i, v :: vs =>
      match resolve v with
      | none => (.error .EFAULT, seg)
      | some iova =>
          if dwordAlign && iova &&& 0x3 ≠ 0 then (.error .EINVAL, seg)
          else
            sglFill dwordAlign (Function.update seg i (sglData (seg i) iova (length v))) (i + 1) vs

/-- The common part of `nvme_mapv_sgl` and `nvme_mapv_iova_sgl`. The first resolves
the base of a segment when it gets to it; for the second every segment is resolved
already. -/
def mapvSgl (ctrl : NvmeCtrl) (seg : ℕ → NvmeSgld) (segIova : U64) (cmd : NvmeCmd)
    (iov : List α) : SglOutcome :=
  match iov with
  | [v] =>
      match resolve v with
      | none => ⟨.error .EFAULT, cmd, seg⟩
      | some iova =>
          ⟨.ok (), { cmd with dptr := (sglData cmd.dptr.sgl iova (length v)).toDptr }, seg⟩
  | iov =>
      if maxSgldsOf ctrl.pageshift < iov.length then ⟨.error .EINVAL, cmd, seg⟩
      else
        let cmd :=
          { cmd with dptr := (sglSegment cmd.dptr.sgl segIova iov.length).toDptr }
        match sglFill resolve length ctrl.dwordAlign seg 0 iov with
        | (.error e, seg) => ⟨.error e, cmd, seg⟩
        | (.ok (), seg) =>
            ⟨.ok (), { cmd with flags := cmd.flags ||| ((Psdt.sglMptrContig.code &&& 0x3) <<< 6) },
              seg⟩

end Mapping

def nvmeMapvIovaSgl (ctrl : NvmeCtrl) (seg : ℕ → NvmeSgld) (segIova : U64) (cmd : NvmeCmd)
    (iov : List IovaVec) : SglOutcome :=
  mapvSgl (fun v => some v.iova) IovaVec.len ctrl seg segIova cmd iov

def nvmeMapvSgl (ctrl : NvmeCtrl) (seg : ℕ → NvmeSgld) (segIova : U64) (cmd : NvmeCmd)
    (iov : List Iovec) : SglOutcome :=
  mapvSgl (fun v => iommuTranslateVaddr ctrl.map v.iovBase) Iovec.iovLen ctrl seg segIova cmd iov

/-! ## What the controller reads -/

def psdt (cmd : NvmeCmd) : BitVec 8 := cmd.flags >>> 6 &&& 0x3

def NvmeSgld.typeField (sgld : NvmeSgld) : BitVec 8 := sgld.type >>> 4 &&& 0xf

def dataBlock (sgld : NvmeSgld) : Option (U64 × ℕ) :=
  if sgld.typeField = SgldType.dataBlock.code then some (sgld.addr, sgld.len.toNat) else none

def dataBlocks (read : U64 → NvmeSgld) : U64 → ℕ → Option (List (U64 × ℕ))
  | _, 0 => some []
  | addr, n + 1 =>
      (dataBlock (read addr)).bind fun v =>
        (dataBlocks read (addr + 16) n).map fun vs => v :: vs

/-- The segments that the descriptors of a data pointer name: a data block is one segment, a last
segment names a list of data blocks. -/
def sglBlocks (read : U64 → NvmeSgld) (dptr : Dptr) : Option (List (U64 × ℕ)) :=
  let sgld := dptr.sgl
  if sgld.typeField = SgldType.lastSegment.code then
    dataBlocks read sgld.addr (sgld.len.toNat / 16)
  else (dataBlock sgld).map fun v => [v]

/-- The segments of a command, if it says that it has a descriptor. -/
def sglDecode (read : U64 → NvmeSgld) (cmd : NvmeCmd) : Option (List (U64 × ℕ)) :=
  if psdt cmd = Psdt.sglMptrContig.code ∨ psdt cmd = Psdt.sglMptrSgl.code then
    sglBlocks read cmd.dptr
  else none

/-- The list of descriptors at `segIova`, as the controller addresses it. -/
def segRead (segIova : U64) (seg : ℕ → NvmeSgld) (addr : U64) : NvmeSgld :=
  seg ((addr - segIova).toNat / 16)

@[simp] theorem sgl_toDptr (sgld : NvmeSgld) : sgld.toDptr.sgl = sgld := by
  have hrsvd : (sgld.type ++ sgld.rsvd12 ++ sgld.len).extractLsb' 32 24 = sgld.rsvd12 := by
    rw [BitVec.extractLsb'_append_eq_of_le (by omega)]
    exact BitVec.extractLsb'_append_eq_right
  have htype : (sgld.type ++ sgld.rsvd12 ++ sgld.len).extractLsb' 56 8 = sgld.type := by
    rw [BitVec.extractLsb'_append_eq_of_le (by omega)]
    exact BitVec.extractLsb'_append_eq_left
  rw [NvmeSgld.toDptr, Dptr.sgl]
  dsimp only
  rw [hrsvd, htype, BitVec.extractLsb'_append_eq_right]

theorem dataBlock_sglData (sgld : NvmeSgld) {iova len : U64} (hlen : len.toNat < 2 ^ 32) :
    dataBlock (sglData sgld iova len) = some (iova, len.toNat) := by
  have htype : (sglData sgld iova len).typeField = SgldType.dataBlock.code := by
    simp [sglData, NvmeSgld.typeField, SgldType.code]
  rw [dataBlock, if_pos htype, sglData, BitVec.toNat_setWidth, Nat.mod_eq_of_lt hlen]

theorem segRead_index (segIova : U64) (seg : ℕ → NvmeSgld) {i : ℕ} (hi : 16 * i < 2 ^ 64) :
    segRead segIova seg (segIova + BitVec.ofNat 64 (16 * i)) = seg i := by
  rw [segRead, add_sub_cancel_left, BitVec.toNat_ofNat, Nat.mod_eq_of_lt hi,
    Nat.mul_div_cancel_left i (by omega)]

/-! ## The list -/

/-- The loop leaves data blocks that are read back as the segments, and it has seen
that they are aligned. -/
theorem sglFill_ok {dwordAlign : Bool} {seg seg' : ℕ → NvmeSgld} {i : ℕ} {iov : List IovaVec}
    (segIova : U64) (hlen : ∀ v ∈ iov, v.len.toNat < 2 ^ 32)
    (hsmall : 16 * (i + iov.length) < 2 ^ 64)
    (h : sglFill (fun v => some v.iova) IovaVec.len dwordAlign seg i iov = (.ok (), seg')) :
    (∀ j < i, seg' j = seg j) ∧
      dataBlocks (segRead segIova seg') (segIova + BitVec.ofNat 64 (16 * i)) iov.length =
        some (iov.map fun v => (v.iova, v.len.toNat)) ∧
      (dwordAlign = true → ∀ v ∈ iov, 4 ∣ v.iova.toNat) := by
  induction iov generalizing seg i with
  | nil =>
      obtain ⟨-, rfl⟩ := Prod.mk.inj h
      simp [dataBlocks]
  | cons v vs ih =>
      rw [sglFill] at h
      dsimp only at h
      by_cases halign : (dwordAlign && v.iova &&& 0x3 ≠ 0) = true
      · rw [if_pos halign] at h
        simp at h
      rw [if_neg halign] at h
      rw [List.length_cons] at hsmall
      obtain ⟨hframe, hblocks, haligned⟩ :=
        ih (fun w hw => hlen w (List.mem_cons_of_mem v hw)) (by omega) h
      refine ⟨?_, ?_, ?_⟩
      · intro j hj
        rw [hframe j (by omega), Function.update_of_ne (by omega)]
      · have hread : dataBlock (segRead segIova seg' (segIova + BitVec.ofNat 64 (16 * i))) =
            some (v.iova, v.len.toNat) := by
          rw [segRead_index _ _ (by omega), hframe i (by omega), Function.update_self,
            dataBlock_sglData _ (hlen v List.mem_cons_self)]
        have hnext : segIova + BitVec.ofNat 64 (16 * (i + 1)) =
            segIova + BitVec.ofNat 64 (16 * i) + 16 := by
          rw [Nat.mul_add, BitVec.ofNat_add, ← add_assoc]
          rfl
        rw [hnext] at hblocks
        rw [List.length_cons, dataBlocks, hread, hblocks]
        rfl
      · intro hdword
        rw [hdword, Bool.true_and, decide_eq_true_eq, not_not] at halign
        have hmask := (and_mask_eq_zero_iff v.iova (by omega : 2 < 64)).mp halign
        exact List.forall_mem_cons.mpr ⟨hmask, haligned hdword⟩

theorem psdt_or {flags : BitVec 8} (h : flags >>> 6 &&& 0x3 = 0) :
    (flags ||| (Psdt.sglMptrContig.code &&& 0x3) <<< 6) >>> 6 &&& 0x3 =
      Psdt.sglMptrContig.code := by
  rw [BitVec.ushiftRight_or_distrib, BitVec.and_or_distrib_right, h]
  decide

theorem mapvSgl_of_length {α : Type*} (resolve : α → Option U64) (length : α → U64)
    (ctrl : NvmeCtrl) (seg : ℕ → NvmeSgld) (segIova : U64) (cmd : NvmeCmd) {iov : List α}
    (hone : iov.length ≠ 1) :
    mapvSgl resolve length ctrl seg segIova cmd iov =
      if maxSgldsOf ctrl.pageshift < iov.length then ⟨.error .EINVAL, cmd, seg⟩
      else
        let cmd :=
          { cmd with dptr := (sglSegment cmd.dptr.sgl segIova iov.length).toDptr }
        match sglFill resolve length ctrl.dwordAlign seg 0 iov with
        | (.error e, seg) => ⟨.error e, cmd, seg⟩
        | (.ok (), seg) =>
            ⟨.ok (), { cmd with flags := cmd.flags ||| ((Psdt.sglMptrContig.code &&& 0x3) <<< 6) },
              seg⟩ := by
  match iov with
  | [] => rfl
  | [v] => exact absurd rfl hone
  | v :: w :: vs => rfl

theorem maxSgldsOf_lt {pageshift : ℕ} (hk : pageshift < 31) : maxSgldsOf pageshift < 2 ^ 27 := by
  rw [maxSgldsOf, Nat.shiftLeft_eq, Nat.one_mul]
  exact Nat.pow_lt_pow_right (by omega) (by omega)

theorem sglSegment_fields (sgld : NvmeSgld) (iova : U64) {n : ℕ} (hn : n < 2 ^ 27) :
    (sglSegment sgld iova n).typeField = SgldType.lastSegment.code ∧
      (sglSegment sgld iova n).len.toNat / 16 = n := by
  refine ⟨by simp [sglSegment, NvmeSgld.typeField, SgldType.code], ?_⟩
  rw [sglSegment, BitVec.toNat_ofNat, Nat.shiftLeft_eq, Nat.mod_eq_of_lt (by omega)]
  omega

/-- What a successful call leaves behind for several segments. -/
theorem mapvSgl_ok {α : Type*} {resolve : α → Option U64} {length : α → U64} {ctrl : NvmeCtrl}
    {seg : ℕ → NvmeSgld} {segIova : U64} {cmd : NvmeCmd} {iov : List α} (hone : iov.length ≠ 1)
    (hret : (mapvSgl resolve length ctrl seg segIova cmd iov).ret = .ok ()) :
    iov.length < 2 ^ 27 ∧
      ∃ seg', sglFill resolve length ctrl.dwordAlign seg 0 iov = (.ok (), seg') ∧
        mapvSgl resolve length ctrl seg segIova cmd iov =
          ⟨.ok (), ⟨cmd.flags ||| ((Psdt.sglMptrContig.code &&& 0x3) <<< 6),
            (sglSegment cmd.dptr.sgl segIova iov.length).toDptr⟩, seg'⟩ := by
  have hmax := maxSgldsOf_lt ctrl.pageshift_lt
  rw [mapvSgl_of_length _ _ _ _ _ _ hone] at hret ⊢
  by_cases hmany : maxSgldsOf ctrl.pageshift < iov.length
  · rw [if_pos hmany] at hret
    simp at hret
  rw [if_neg hmany] at hret ⊢
  rcases hfill : sglFill resolve length ctrl.dwordAlign seg 0 iov with ⟨e | ok, seg'⟩
  · rw [hfill] at hret
    simp at hret
  · exact ⟨by omega, seg', rfl, rfl⟩

section Decode

variable {ctrl : NvmeCtrl} {seg : ℕ → NvmeSgld} {segIova : U64} {cmd : NvmeCmd}
  {iov : List IovaVec}

theorem sglBlocks_list {n : ℕ} (read : U64 → NvmeSgld) (sgld : NvmeSgld) (segIova : U64)
    (hn : n < 2 ^ 27) :
    sglBlocks read (sglSegment sgld segIova n).toDptr = dataBlocks read segIova n := by
  obtain ⟨htype, hcount⟩ := sglSegment_fields sgld segIova hn
  have haddr : (sglSegment sgld segIova n).addr = segIova := rfl
  simp only [sglBlocks, if_true, sgl_toDptr, htype, hcount, haddr]

theorem sglBlocks_of_length_ne_one (hone : iov.length ≠ 1)
    (hlen : ∀ v ∈ iov, v.len.toNat < 2 ^ 32)
    (hret : (nvmeMapvIovaSgl ctrl seg segIova cmd iov).ret = .ok ()) :
    sglBlocks (segRead segIova (nvmeMapvIovaSgl ctrl seg segIova cmd iov).seg)
        (nvmeMapvIovaSgl ctrl seg segIova cmd iov).cmd.dptr =
        some (iov.map fun v => (v.iova, v.len.toNat)) ∧
      (ctrl.dwordAlign = true → ∀ v ∈ iov, 4 ∣ v.iova.toNat) := by
  obtain ⟨hn, seg', hfill, hout⟩ := mapvSgl_ok hone hret
  obtain ⟨-, hblocks, haligned⟩ := sglFill_ok segIova hlen (by omega) hfill
  rw [Nat.mul_zero, BitVec.add_zero] at hblocks
  refine ⟨?_, haligned⟩
  rw [nvmeMapvIovaSgl, hout, sglBlocks_list _ _ _ hn]
  exact hblocks

variable (hpsdt : psdt cmd = Psdt.prp.code)

include hpsdt

theorem sglDecode_of_length_eq_one (hone : iov.length = 1) :
    (nvmeMapvIovaSgl ctrl seg segIova cmd iov).ret = .ok () ∧
      ∀ read, sglDecode read (nvmeMapvIovaSgl ctrl seg segIova cmd iov).cmd = none := by
  obtain ⟨v, rfl⟩ := List.length_eq_one_iff.mp hone
  refine ⟨rfl, fun read => if_neg ?_⟩
  change ¬(psdt cmd = _ ∨ psdt cmd = _)
  rw [hpsdt]
  decide

theorem sglDecode_of_length_ne_one (hone : iov.length ≠ 1)
    (hret : (nvmeMapvIovaSgl ctrl seg segIova cmd iov).ret = .ok ()) (read : U64 → NvmeSgld) :
    sglDecode read (nvmeMapvIovaSgl ctrl seg segIova cmd iov).cmd =
      sglBlocks read (nvmeMapvIovaSgl ctrl seg segIova cmd iov).cmd.dptr := by
  obtain ⟨-, seg', -, hout⟩ := mapvSgl_ok hone hret
  rw [sglDecode, if_pos]
  rw [nvmeMapvIovaSgl, hout]
  exact .inl (psdt_or hpsdt)

end Decode

/-- A command that was mapped without error is decoded as the segments, with the
alignment that the controller asks for, exactly when there is more than one. -/
theorem sglDecode_nvmeMapvIovaSgl_iff (ctrl : NvmeCtrl) (seg : ℕ → NvmeSgld) (segIova : U64)
    (cmd : NvmeCmd) (iov : List IovaVec) (hne : iov ≠ []) (hpsdt : psdt cmd = Psdt.prp.code)
    (hlen : ∀ v ∈ iov, v.len.toNat < 2 ^ 32) :
    let out := nvmeMapvIovaSgl ctrl seg segIova cmd iov
    let segments := iov.map fun v => (v.iova, v.len.toNat)
    (out.ret = .ok () →
        sglDecode (segRead segIova out.seg) out.cmd = some segments ∧
          (ctrl.dwordAlign = true → ∀ v ∈ segments, 4 ∣ v.1.toNat)) ↔
      2 ≤ iov.length := by
  have hpos := List.length_pos_iff.mpr hne
  constructor
  · intro h
    by_contra hfew
    obtain ⟨hret, hnone⟩ := sglDecode_of_length_eq_one hpsdt (by omega : iov.length = 1)
    exact Option.some_ne_none _ ((h hret).1.symm.trans (hnone _))
  · intro htwo hret
    obtain ⟨hblocks, haligned⟩ := sglBlocks_of_length_ne_one (by omega) hlen hret
    refine ⟨(sglDecode_of_length_ne_one hpsdt (by omega) hret _).trans hblocks,
      fun hdword v hv => ?_⟩
    obtain ⟨w, hw, rfl⟩ := List.mem_map.mp hv
    exact haligned hdword w hw

def dwordCtrl : NvmeCtrl where
  map := iovaMapInit (fun _ => false) ⟨0, 0, 0, 0⟩
  config := ⟨0, mpsToPageshift_zero_lt⟩
  flags := 0x4

/-- Two segments. -/
theorem sglDecode_nvmeMapvIovaSgl_two_segments :
    let out := nvmeMapvIovaSgl dwordCtrl (fun _ => ⟨0, 0, 0, 0⟩) 0x20000 ⟨0, ⟨0, 0⟩⟩
      [⟨0x1000004, 0x200⟩, ⟨0x2000000, 0x30⟩]
    out.ret = .ok () ∧
      sglDecode (segRead 0x20000 out.seg) out.cmd =
        some [(0x1000004, 0x200), (0x2000000, 0x30)] :=
  ⟨rfl,
    ((sglDecode_nvmeMapvIovaSgl_iff dwordCtrl (fun _ => ⟨0, 0, 0, 0⟩) 0x20000 ⟨0, ⟨0, 0⟩⟩
      [⟨0x1000004, 0x200⟩, ⟨0x2000000, 0x30⟩] (by simp) (by decide) (by decide)).mpr
      (by decide) rfl).1⟩

/-- One segment that is not dword aligned is mapped without error, and the command
still says that it has region pages. -/
theorem nvmeMapvIovaSgl_one_segment :
    let out := nvmeMapvIovaSgl dwordCtrl (fun _ => ⟨0, 0, 0, 0⟩) 0x20000 ⟨0, ⟨0, 0⟩⟩
      [⟨0x1000001, 0x200⟩]
    dwordCtrl.dwordAlign = true ∧ out.ret = .ok () ∧ psdt out.cmd = Psdt.prp.code ∧
      sglDecode (segRead 0x20000 out.seg) out.cmd = none :=
  ⟨by decide, rfl, by decide, by decide⟩

end Nvme

end Libvfn
