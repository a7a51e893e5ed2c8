import Libvfn.Foundation.Bytes
import Libvfn.Iommu.SameIova

/-!
# The ranges that the kernel reports

The kernel describes an IOMMU by a record with a chain of capabilities behind it. The record
says how much memory the whole takes, and it is asked for a second time with that much. Each
capability has a header with an identifier and the offset of the next one, and one of them
lists the ranges of addresses that the device can use.

The functions read the memory of the process: a number that is not inside the block that was
allocated is `none`, and so is a chain that is not through after a number of turns. The kernel
is described from the other side, by what it writes (`Reports`): any number of capabilities, in
any order and at any place, some of them unknown, with any padding. The ranges arrive.
-/

namespace Libvfn

namespace Iommu

open Word Support Bytes

variable {σ : Type}

/-! ## Reading the chain -/

def infoSize : ℕ := 24

def infoPgsizes : ℕ := 1

def infoCaps : ℕ := 2

def capIovaRange : ℕ := 1

structure Reported (σ : Type) where
  ranges : List IovaRange
  ctx : IommuCtx σ

def readRanges (buf : Buffer) : ℕ → ℕ → Option (List IovaRange)
  | 0, _ => some []
  | nr + 1, off => do
      let start ← readLe 8 buf off
      let last ← readLe 8 buf (off + 8)
      let ranges ← readRanges buf nr (off + 16)
      return ⟨BitVec.ofNat 64 start, BitVec.ofNat 64 last⟩ :: ranges

def vfioIommuType1GetCapIovaRanges (buf : Buffer) (cap : ℕ) (c : Reported σ) :
    Option (Reported σ) := do
  let nrIovas ← readLe 4 buf (cap + 8)
  let ranges ← readRanges buf nrIovas (cap + 16)
  return ⟨ranges, updateIovaRanges ranges c.ctx⟩

def vfioIommuType1GetCapDmaAvail (buf : Buffer) (cap : ℕ) : Option ℕ := readLe 4 buf (cap + 8)

/-- The `switch` on the identifier. `dmaAvail` is the other one that it knows, if the headers
have it. -/
def capSwitch (dmaAvail : Option ℕ) (buf : Buffer) (cap : ℕ) (c : Reported σ) :
    Option (Reported σ) := do
  let id ← readLe 2 buf cap
  if id = capIovaRange then vfioIommuType1GetCapIovaRanges buf cap c
  else if some id = dmaAvail then
    let _ ← vfioIommuType1GetCapDmaAvail buf cap
    return c
  else return c

def capLoop (dmaAvail : Option ℕ) (buf : Buffer) : ℕ → ℕ → Reported σ → Option (Reported σ)
  | 0, _, _ => none
  | turns + 1, cap, c => do
      let c ← capSwitch dmaAvail buf cap c
      let next ← readLe 4 buf (cap + 4)
      if next = 0 then return c else capLoop dmaAvail buf turns next c

def freshInfo (argsz : ℕ) : Buffer := le 4 argsz ++ List.replicate (argsz - 4) 0

/-- `vfio_iommu_type1_get_iommu_info`; `ioctl` is what the kernel makes of the block, in the
first and in the second call. -/
def vfioIommuType1GetIommuInfo (ioctl : ℕ → Buffer → Except Errno Buffer) :
    Option (Except Errno Buffer) :=
  match ioctl 0 (freshInfo infoSize) with
  | .error e => some (.error e)
  | .ok info =>
      (readLe 4 info 0).map fun argsz =>
        if infoSize < argsz then ioctl 1 (freshInfo argsz) else .ok info

def readInfo (dmaAvail : Option ℕ) (turns : ℕ) (c : Reported σ) (info : Buffer) :
    Option (Except Errno Unit × Reported σ) := do
  let flags ← readLe 4 info 4
  if flags &&& infoCaps = 0 then return (.ok (), c)
  else
    let capOffset ← readLe 4 info 16
    let c ← capLoop dmaAvail info turns capOffset c
    return (.ok (), c)

def vfioIommuType1GetCapabilities (dmaAvail : Option ℕ)
    (ioctl : ℕ → Buffer → Except Errno Buffer) (turns : ℕ) (c : Reported σ) :
    Option (Except Errno Unit × Reported σ) :=
  (vfioIommuType1GetIommuInfo ioctl).bind fun answer =>
    match answer with
    | .error e => some (.error e, c)
    | .ok info => readInfo dmaAvail turns c info

/-! ## Writing it -/

inductive Cap where
  | iovaRange (version reserved : ℕ) (ranges : List IovaRange) (padding : Buffer)
      (lt : ranges.length < 2 ^ 32)
  | other (id version : ℕ) (body : Buffer) (lt : id < 2 ^ 16) (ne : id ≠ capIovaRange)

def Cap.id : Cap → ℕ
  | .iovaRange .. => capIovaRange
  | .other id .. => id

def Cap.version : Cap → ℕ
  | .iovaRange version .. => version
  | .other _ version .. => version

def rangesBytes (ranges : List IovaRange) : Buffer :=
  ranges.flatMap fun r => le 8 r.start.toNat ++ le 8 r.last.toNat

def Cap.body : Cap → Buffer
  | .iovaRange _ reserved ranges padding _ =>
      le 4 ranges.length ++ (le 4 reserved ++ (rangesBytes ranges ++ padding))
  | .other _ _ body .. => body

def Cap.bytes (cap : Cap) (next : ℕ) : Buffer :=
  le 2 cap.id ++ (le 2 cap.version ++ (le 4 next ++ cap.body))

inductive ChainAt (buf : Buffer) : ℕ → List Cap → Prop
  | last {off : ℕ} {cap : Cap} : At buf off (cap.bytes 0) → ChainAt buf off [cap]
  | link {off next : ℕ} {cap : Cap} {caps : List Cap} : At buf off (cap.bytes next) →
      next ≠ 0 → next < 2 ^ 32 → ChainAt buf next caps → ChainAt buf off (cap :: caps)

inductive HoldsChain (info : Buffer) : List Cap → Prop
  | nothing {flags : ℕ} : readLe 4 info 4 = some flags → flags &&& infoCaps = 0 → HoldsChain info []
  | chain {flags off : ℕ} {caps : List Cap} : readLe 4 info 4 = some flags →
      flags &&& infoCaps ≠ 0 → readLe 4 info 16 = some off → ChainAt info off caps →
      HoldsChain info caps

/-- What is assumed of `VFIO_IOMMU_GET_INFO`: the kernel fills in the record, or it says how much
memory it takes and fills in one of that size. -/
inductive Reports (ioctl : ℕ → Buffer → Except Errno Buffer) (caps : List Cap) : Prop
  | atOnce {info : Buffer} {argsz : ℕ} : ioctl 0 (freshInfo infoSize) = .ok info →
      readLe 4 info 0 = some argsz → argsz ≤ infoSize → HoldsChain info caps → Reports ioctl caps
  | secondTime {info info' : Buffer} {argsz : ℕ} : ioctl 0 (freshInfo infoSize) = .ok info →
      readLe 4 info 0 = some argsz → infoSize < argsz →
      ioctl 1 (freshInfo argsz) = .ok info' → HoldsChain info' caps → Reports ioctl caps

/-! ## The ranges arrive -/

section Chain

variable {buf : Buffer} {off turns : ℕ} {dmaAvail : Option ℕ} {c : Reported σ}

theorem readRanges_at {ranges : List IovaRange} {padding : Buffer}
    (h : At buf off (rangesBytes ranges ++ padding)) :
    readRanges buf ranges.length off = some ranges := by
  induction ranges generalizing off with
  | nil => rfl
  | cons r ranges ih =>
      rw [rangesBytes, List.flatMap_cons, List.append_assoc, List.append_assoc] at h
      have hstart := h.left.readLe r.start.isLt
      have hlast := h.right.left.readLe r.last.isLt
      have hrest := h.right.right
      rw [length_le] at hlast
      rw [length_le, length_le, Nat.add_assoc] at hrest
      rw [List.length_cons, readRanges, hstart, hlast, ih hrest]
      simp

def Cap.apply (c : Reported σ) : Cap → Reported σ
  | .iovaRange _ _ ranges .. => ⟨ranges, updateIovaRanges ranges c.ctx⟩
  | .other .. => c

theorem Cap.id_lt : ∀ cap : Cap, cap.id < 256 ^ 2
  | .iovaRange .. => by simp [Cap.id, capIovaRange]
  | .other _ _ _ hlt _ => hlt

theorem Cap.header_at {cap : Cap} {next : ℕ} (h : At buf off (cap.bytes next))
    (hnext : next < 2 ^ 32) :
    readLe 2 buf off = some cap.id ∧ readLe 4 buf (off + 4) = some next ∧
      At buf (off + 8) cap.body := by
  have hnextAt := h.right.right.left.readLe hnext
  have hbody := h.right.right.right
  simp only [length_le, Nat.add_assoc, Nat.reduceAdd] at hnextAt hbody
  exact ⟨h.left.readLe cap.id_lt, hnextAt, hbody⟩

/-- A capability is understood where it stands. -/
theorem capSwitch_at {cap : Cap} (hid : readLe 2 buf off = some cap.id)
    (hbody : At buf (off + 8) cap.body)
    (hdma : some cap.id = dmaAvail → 4 ≤ cap.body.length) :
    capSwitch dmaAvail buf off c = some (cap.apply c) := by
  rw [capSwitch, hid]
  cases cap with
  | iovaRange version reserved ranges padding hlt =>
      have hnrAt := hbody.left.readLe hlt
      have hranges := readRanges_at hbody.right.right
      simp only [length_le, Nat.add_assoc, Nat.reduceAdd] at hnrAt hranges
      simp [Cap.id, Cap.apply, vfioIommuType1GetCapIovaRanges, hnrAt, hranges]
  | other id version body hlt hne =>
      rw [Option.bind_eq_bind, Option.bind_some]
      change (if id = capIovaRange then _ else _) = _
      rw [if_neg hne]
      split_ifs with havail
      · obtain ⟨avail, hread⟩ := hbody.exists_readLe (hdma havail)
        rw [vfioIommuType1GetCapDmaAvail, hread]
        rfl
      · rfl

theorem capLoop_turn {cap : Cap} {next : ℕ} (hat : At buf off (cap.bytes next))
    (hnext : next < 2 ^ 32) (hdma : some cap.id = dmaAvail → 4 ≤ cap.body.length) :
    capLoop dmaAvail buf (turns + 1) off c =
      if next = 0 then some (cap.apply c) else capLoop dmaAvail buf turns next (cap.apply c) := by
  obtain ⟨hid, hnextAt, hbody⟩ := Cap.header_at hat hnext
  rw [capLoop, capSwitch_at hid hbody hdma, hnextAt]
  rfl

theorem ChainAt.capLoop {caps : List Cap} (hat : ChainAt buf off caps)
    (hdma : ∀ cap ∈ caps, some cap.id = dmaAvail → 4 ≤ cap.body.length)
    (hturns : caps.length ≤ turns) :
    Iommu.capLoop dmaAvail buf turns off c = some (caps.foldl Cap.apply c) := by
  induction hat generalizing turns c with
  | last hcap =>
      obtain ⟨turns, rfl⟩ := Nat.exists_eq_add_of_le' hturns
      exact capLoop_turn hcap (by decide) (hdma _ List.mem_cons_self)
  | link hcap hne hnext _ ih =>
      obtain ⟨turns, rfl⟩ := Nat.exists_eq_add_of_le' hturns
      rw [List.length_cons, ← Nat.add_assoc, capLoop_turn hcap hnext (hdma _ List.mem_cons_self),
        if_neg hne]
      exact ih (fun cap hcap => hdma cap (List.mem_cons_of_mem _ hcap)) (Nat.le_add_left _ _)

end Chain

def Cap.ranges? : Cap → Option (List IovaRange)
  | .iovaRange _ _ ranges .. => some ranges
  | .other .. => none

/-- The context once it has the ranges that come last. -/
def Reported.after (c : Reported σ) (caps : List Cap) : Reported σ :=
  (caps.filterMap Cap.ranges?).getLast?.elim c fun ranges =>
    ⟨ranges, updateIovaRanges ranges c.ctx⟩

theorem updateIovaRanges_updateIovaRanges (ranges ranges' : List IovaRange) (ctx : IommuCtx σ) :
    updateIovaRanges ranges (updateIovaRanges ranges' ctx) = updateIovaRanges ranges ctx := rfl

theorem foldl_apply_eq_after (caps : List Cap) (c : Reported σ) :
    caps.foldl Cap.apply c = c.after caps := by
  induction caps using List.reverseRecOn with
  | nil => rfl
  | append_singleton caps cap ih =>
      rw [List.foldl_concat, ih, Reported.after, Reported.after, List.filterMap_append]
      cases cap with
      | other => simp [Cap.apply, Cap.ranges?]
      | iovaRange version reserved ranges padding =>
          cases hlast : (caps.filterMap Cap.ranges?).getLast? with
          | none => simp [Cap.apply, Cap.ranges?]
          | some ranges' =>
              simp [Cap.apply, Cap.ranges?, updateIovaRanges_updateIovaRanges]

theorem Reports.info {ioctl : ℕ → Buffer → Except Errno Buffer} {caps : List Cap}
    (h : Reports ioctl caps) :
    ∃ info, vfioIommuType1GetIommuInfo ioctl = some (.ok info) ∧ HoldsChain info caps := by
  cases h with
  | atOnce hioctl hargsz hle hholds =>
      refine ⟨_, ?_, hholds⟩
      rw [vfioIommuType1GetIommuInfo, hioctl]
      dsimp only
      rw [hargsz, Option.map_some, if_neg (Nat.not_lt.mpr hle)]
  | secondTime hioctl hargsz hlt hioctl' hholds =>
      refine ⟨_, ?_, hholds⟩
      rw [vfioIommuType1GetIommuInfo, hioctl]
      dsimp only
      rw [hargsz, Option.map_some, if_pos hlt, hioctl']

theorem HoldsChain.readInfo {info : Buffer} {caps : List Cap} {dmaAvail : Option ℕ} {turns : ℕ}
    (h : HoldsChain info caps) (hdma : ∀ cap ∈ caps, some cap.id = dmaAvail → 4 ≤ cap.body.length)
    (hturns : caps.length ≤ turns) (c : Reported σ) :
    Iommu.readInfo dmaAvail turns c info = some (.ok (), c.after caps) := by
  cases h with
  | nothing hflags hnone =>
      rw [Iommu.readInfo, hflags, Option.bind_eq_bind, Option.bind_some, if_pos hnone]
      rfl
  | chain hflags hcaps hoff hat =>
      rw [Iommu.readInfo, hflags, Option.bind_eq_bind, Option.bind_some, if_neg hcaps, hoff]
      rw [Option.bind_some, hat.capLoop hdma hturns, foldl_apply_eq_after]
      rfl

/-! ## A kernel that reports -/

def Cap.size (cap : Cap) : ℕ := 8 + cap.body.length

def chainBytes : ℕ → List Cap → Buffer
  | _, [] => []
  | _, [cap] => cap.bytes 0
  | off, cap :: cap' :: caps =>
      cap.bytes (off + cap.size) ++ chainBytes (off + cap.size) (cap' :: caps)

def chainSize (caps : List Cap) : ℕ := (caps.map Cap.size).sum

structure KernelInfo where
  pgsizes : ℕ
  caps : List Cap
  fits : infoSize + chainSize caps < 2 ^ 32

namespace KernelInfo

variable (k : KernelInfo)

def header (argsz flags capOffset : ℕ) : Buffer :=
  le 4 argsz ++ (le 4 flags ++ (le 8 k.pgsizes ++ (le 4 capOffset ++ le 4 0)))

def getInfo (buf : Buffer) : Except Errno Buffer :=
  match readLe 4 buf 0 with
  | none => .error .EFAULT
  | some argsz =>
      let total := infoSize + chainSize k.caps
      if k.caps = [] then .ok (k.header argsz infoPgsizes 0 ++ buf.drop infoSize)
      else if argsz < total then
        .ok (k.header total (infoPgsizes ||| infoCaps) 0 ++ buf.drop infoSize)
      else
        .ok (k.header argsz (infoPgsizes ||| infoCaps) infoSize ++
          (chainBytes infoSize k.caps ++ buf.drop total))

end KernelInfo

section Kernel

variable {k : KernelInfo} {argsz flags capOffset : ℕ}

@[simp]
theorem length_bytes (cap : Cap) (next : ℕ) : (cap.bytes next).length = cap.size := by
  simp only [Cap.bytes, Cap.size, List.length_append, length_le]
  omega

@[simp]
theorem chainSize_cons (cap : Cap) (caps : List Cap) :
    chainSize (cap :: caps) = cap.size + chainSize caps := by
  rw [chainSize, List.map_cons, List.sum_cons, ← chainSize]

theorem chainSize_pos {caps : List Cap} (hne : caps ≠ []) : 0 < chainSize caps := by
  obtain ⟨cap, caps, rfl⟩ := List.exists_cons_of_ne_nil hne
  rw [chainSize_cons, Cap.size]
  omega

theorem chainAt_chainBytes {buf : Buffer} {off : ℕ} {caps : List Cap} (hne : caps ≠ [])
    (hat : At buf off (chainBytes off caps)) (hpos : 0 < off)
    (hend : off + chainSize caps < 2 ^ 32) : ChainAt buf off caps := by
  induction caps generalizing off with
  | nil => exact absurd rfl hne
  | cons cap caps ih =>
      cases caps with
      | nil => exact .last hat
      | cons cap' caps =>
          rw [chainSize_cons, ← Nat.add_assoc] at hend
          have hright := hat.right
          rw [length_bytes] at hright
          exact .link hat.left (by omega) (by omega)
            (ih (List.cons_ne_nil _ _) hright (by omega) hend)

theorem readLe_freshInfo (hsz : argsz < 2 ^ 32) : readLe 4 (freshInfo argsz) 0 = some argsz :=
  At.readLe ⟨[], _, rfl, rfl⟩ hsz

@[simp]
theorem KernelInfo.length_header (k : KernelInfo) (argsz flags capOffset : ℕ) :
    (k.header argsz flags capOffset).length = infoSize := by
  simp only [header, List.length_append, length_le, infoSize]

theorem KernelInfo.header_at (k : KernelInfo) (rest : Buffer) (hargsz : argsz < 2 ^ 32)
    (hflags : flags < 2 ^ 32) (hcap : capOffset < 2 ^ 32) :
    readLe 4 (k.header argsz flags capOffset ++ rest) 0 = some argsz ∧
      readLe 4 (k.header argsz flags capOffset ++ rest) 4 = some flags ∧
      readLe 4 (k.header argsz flags capOffset ++ rest) 16 = some capOffset ∧
      At (k.header argsz flags capOffset ++ rest) infoSize rest := by
  have hat : At (k.header argsz flags capOffset ++ rest) 0 (k.header argsz flags capOffset) :=
    ⟨[], rest, rfl, rfl⟩
  have hflagsAt := hat.right.left.readLe hflags
  have hcapAt := hat.right.right.right.left.readLe hcap
  simp only [length_le, Nat.reduceAdd] at hflagsAt hcapAt
  refine ⟨hat.left.readLe hargsz, hflagsAt, hcapAt, k.header argsz flags capOffset, [], ?_, ?_⟩
  · rw [List.append_nil]
  · exact k.length_header _ _ _

theorem KernelInfo.reports_of_nil (hnil : k.caps = []) : Reports (fun _ => k.getInfo) k.caps := by
  let rest := (freshInfo infoSize).drop infoSize
  have hanswer : k.getInfo (freshInfo infoSize) =
      .ok (k.header infoSize infoPgsizes 0 ++ rest) := by
    rw [KernelInfo.getInfo, readLe_freshInfo (by decide)]
    exact if_pos hnil
  obtain ⟨hargsz, hflags, -⟩ := k.header_at rest (by decide : infoSize < 2 ^ 32)
    (by decide : infoPgsizes < 2 ^ 32) (by decide : 0 < 2 ^ 32)
  exact .atOnce hanswer hargsz (le_refl _) (hnil ▸ .nothing hflags (by decide))

theorem KernelInfo.reports_of_ne_nil (hne : k.caps ≠ []) :
    Reports (fun _ => k.getInfo) k.caps := by
  let total := infoSize + chainSize k.caps
  have htotal : infoSize < total := Nat.lt_add_of_pos_right (chainSize_pos hne)
  have hfirst : k.getInfo (freshInfo infoSize) =
      .ok (k.header total (infoPgsizes ||| infoCaps) 0 ++ (freshInfo infoSize).drop infoSize) := by
    rw [KernelInfo.getInfo, readLe_freshInfo (by decide)]
    dsimp only
    rw [if_neg hne, if_pos htotal]
  have hsecond : k.getInfo (freshInfo total) =
      .ok (k.header total (infoPgsizes ||| infoCaps) infoSize ++
        (chainBytes infoSize k.caps ++ (freshInfo total).drop total)) := by
    rw [KernelInfo.getInfo, readLe_freshInfo k.fits]
    dsimp only
    rw [if_neg hne, if_neg (lt_irrefl _)]
  obtain ⟨hargsz, -⟩ := k.header_at ((freshInfo infoSize).drop infoSize) k.fits
    (by decide : infoPgsizes ||| infoCaps < 2 ^ 32) (by decide : 0 < 2 ^ 32)
  obtain ⟨-, hflags, hoffset, hat⟩ := k.header_at
    (chainBytes infoSize k.caps ++ (freshInfo total).drop total) k.fits
    (by decide : infoPgsizes ||| infoCaps < 2 ^ 32) (by decide : infoSize < 2 ^ 32)
  have hchain := chainAt_chainBytes hne hat.left (by decide) k.fits
  exact .secondTime hfirst hargsz htotal hsecond (.chain hflags (by decide) hoffset hchain)

theorem KernelInfo.reports (k : KernelInfo) : Reports (fun _ => k.getInfo) k.caps := by
  by_cases hnil : k.caps = []
  · exact reports_of_nil hnil
  · exact reports_of_ne_nil hnil

end Kernel

/-- The context gets the ranges that the kernel reports, from a chain of any capabilities: those
of the last capability that has ranges, and the old ones if there is none. No number is read
outside the memory that was allocated. -/
theorem vfioIommuType1GetCapabilities_reports (ioctl : ℕ → Buffer → Except Errno Buffer)
    (caps : List Cap) (hioctl : Reports ioctl caps) (dmaAvail : Option ℕ) (c : Reported σ)
    (turns : ℕ) (hturns : caps.length ≤ turns)
    (hdma : ∀ cap ∈ caps, some cap.id = dmaAvail → 4 ≤ cap.body.length) :
    vfioIommuType1GetCapabilities dmaAvail ioctl turns c = some (.ok (), c.after caps) := by
  obtain ⟨info, hinfo, hholds⟩ := hioctl.info
  rw [vfioIommuType1GetCapabilities, hinfo, Option.bind_some]
  exact hholds.readInfo hdma hturns c

def twoListsCaps : List Cap :=
  [.iovaRange 1 0 [⟨0, 0xfff⟩] [] (by decide), .other 2 1 [0xff, 0xff] (by decide) (by decide),
    .iovaRange 1 0 [⟨0x1000, 0xfedfffff⟩, ⟨0xfef00000, 0x7fffffffff⟩] [0, 0, 0, 0] (by decide)]

def twoLists : KernelInfo := ⟨0x1000, twoListsCaps, by decide⟩

/-- The second list arrives, with the largest address. -/
theorem vfioIommuType1GetCapabilities_reports_twoLists :
    let ctx : IommuCtx Unit := ⟨iovaMapInit (fun _ => false) ⟨0, 0, 0, 0⟩, 0, 0, ()⟩
    (Reported.after ⟨[], ctx⟩ twoLists.caps).ranges =
        [⟨0x1000, 0xfedfffff⟩, ⟨0xfef00000, 0x7fffffffff⟩] ∧
      (Reported.after ⟨[], ctx⟩ twoLists.caps).ctx.iovaMax = 0x7fffffffff ∧
      vfioIommuType1GetCapabilities (some 3) (fun _ => twoLists.getInfo) 3 ⟨[], ctx⟩ =
        some (.ok (), Reported.after ⟨[], ctx⟩ twoLists.caps) := by
  intro ctx
  refine ⟨by decide, by decide, ?_⟩
  exact vfioIommuType1GetCapabilities_reports _ _ twoLists.reports (some 3) ⟨[], ctx⟩ 3
    (by decide) (by decide)

end Iommu

end Libvfn
