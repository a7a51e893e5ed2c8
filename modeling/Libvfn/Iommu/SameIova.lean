import Libvfn.Foundation.Run
import Libvfn.Iommu.Intervals
import Libvfn.Iommu.Vfio.Container

/-!
# Memory at the address that the device uses

`iommu_alloc_same_iova` takes memory of the process at an address that is good for the device,
too. It has a cursor, which starts at a quarter of the largest address of the device, moves past
memory that is in use, and past every block that was handed out. The ranges of addresses that
the device may use are not looked at.

We list the addresses that `mmap` is asked for and the blocks that are mapped, over all
allocations with all answers. What `mmap` can answer is limited: it does not give memory, nor
say that it is in use, for a length of zero or for a block that is longer than the address space.
Memory that it gives is where it was asked for.

Whatever `mmap` answers, an allocation comes to an end. The cursor may wrap around on the way, and
go down as well as up.
-/

namespace Libvfn

namespace Iommu

open Word Support

variable {σ : Type*}

def iommuInitNextSame (ctx : IommuCtx σ) : IommuCtx σ :=
  let max := if iommuMaxSameIova < ctx.iovaMax then iommuMaxSameIova else ctx.iovaMax
  { ctx with iovaNextSame := max / 4 + 1 }

def largestIova (ranges : List IovaRange) : U64 :=
  ranges.foldl (fun max r => if max < r.last then r.last else max) 0

/-- What `vfio_iommu_type1_get_cap_iova_ranges` and `iommu_ioas_update_iova_ranges` make of the
ranges that the kernel reports. -/
def updateIovaRanges (ranges : List IovaRange) (ctx : IommuCtx σ) : IommuCtx σ :=
  iommuInitNextSame { ctx with iovaMax := largestIova ranges }

/-- What `iommu_alloc_same_iova` asks for: memory at an address, or a block to be mapped with
`IOMMU_MAP_FIXED_IOVA`. -/
inductive SameCall where
  | mmap (addr : U64)
  | mapVaddr (vaddr len : U64)
  deriving DecidableEq

def iommuAllocSameCalls (len : U64) (mapped : Bool) (busy : ℕ) (ctx : IommuCtx σ) :
    List SameCall :=
  sameIovaLoop len id (fun _ => []) (fun _ ctx calls => .mmap ctx.iovaNextSame :: calls)
    (fun _ ctx =>
      .mmap ctx.iovaNextSame :: if mapped then [.mapVaddr ctx.iovaNextSame len] else [])
    busy () ctx

theorem iommuAllocSameCalls_zero (len : U64) (mapped : Bool) (ctx : IommuCtx σ) :
    iommuAllocSameCalls len mapped 0 ctx =
      if sameIovaFull ctx len then []
      else
        .mmap ctx.iovaNextSame :: if mapped then [.mapVaddr ctx.iovaNextSame len] else [] := rfl

theorem iommuAllocSameCalls_succ (len : U64) (mapped : Bool) (busy : ℕ) (ctx : IommuCtx σ) :
    iommuAllocSameCalls len mapped (busy + 1) ctx =
      if sameIovaFull ctx len then []
      else
        .mmap ctx.iovaNextSame ::
          iommuAllocSameCalls len mapped busy
            { ctx with iovaNextSame := ctx.iovaNextSame + len } := rfl

/-- An allocation: the length, how often `mmap` answers `EEXIST`, and its last answer. -/
structure SameOp where
  len : U64
  busy : ℕ
  outcome : Except Errno Unit

namespace SameOp

variable (o : SameOp) (pagesize : U64) (ctx : IommuCtx σ)

def blocks : ℕ := o.busy + o.outcome.isOk.toNat

def possible : Bool :=
  let len := (alignUp o.len pagesize).toNat
  o.blocks = 0 ∨ len ≠ 0 ∧ ctx.iovaNextSame.toNat + o.blocks * len < 2 ^ 64

def answer : Except Errno U64 :=
  o.outcome.map fun _ => ctx.iovaNextSame + BitVec.ofNat 64 o.busy * alignUp o.len pagesize

def calls : List SameCall :=
  iommuAllocSameCalls (alignUp o.len pagesize) o.outcome.isOk o.busy ctx

end SameOp

def sameStep (ops : IommuCtxOps σ) (pagesize : U64) (ctx : IommuCtx σ) (o : SameOp) :
    Option (IommuCtx σ) :=
  if o.possible pagesize ctx then
    some (iommuAllocSameIova ops pagesize ctx o.len o.busy (o.answer pagesize ctx)).2
  else none

/-- The address is aligned; the block lies in one of the ranges, and below the limits. -/
def SameCall.Usable (pageshift : ℕ) (ranges : List IovaRange) (iovaMax : U64) : SameCall → Prop
  | .mmap addr => 2 ^ pageshift ∣ addr.toNat
  | .mapVaddr vaddr len =>
      (∃ r ∈ ranges, r.start.toNat ≤ vaddr.toNat ∧ vaddr.toNat + len.toNat ≤ r.last.toNat + 1) ∧
        vaddr.toNat + len.toNat ≤ min iovaMax.toNat (2 ^ 47)

/-! ## One allocation -/

section Step

variable {ops : IommuCtxOps σ} {ctx ctx' : IommuCtx σ} {len : U64}

theorem iommuMapVaddr_cursor (ops : IommuCtxOps σ) (ctx : IommuCtx σ)
    (vaddr len iova flags : U64) :
    (iommuMapVaddr ops ctx vaddr len iova flags).2.iovaMax = ctx.iovaMax ∧
      (iommuMapVaddr ops ctx vaddr len iova flags).2.iovaNextSame = ctx.iovaNextSame := by
  have hat : ∀ (ctx : IommuCtx σ) (iova : U64),
      (iommuMapAt ops ctx vaddr len iova flags).2.iovaMax = ctx.iovaMax ∧
        (iommuMapAt ops ctx vaddr len iova flags).2.iovaNextSame = ctx.iovaNextSame := by
    intro ctx iova
    have hmaps := iommuMapAt_maps ops ctx vaddr len iova flags
    generalize iommuMapAt ops ctx vaddr len iova flags = r at hmaps ⊢
    cases hmaps <;> exact ⟨rfl, rfl⟩
  have hmaps := iommuMapVaddr_maps ops ctx vaddr len iova flags
  generalize iommuMapVaddr ops ctx vaddr len iova flags = r at hmaps ⊢
  cases hmaps with
  | found => exact ⟨rfl, rfl⟩
  | fixed => exact hat ctx iova
  | chosen => exact hat ctx 0
  | reserved _ _ res =>
      obtain ⟨e | got, backend⟩ := res
      · exact ⟨rfl, rfl⟩
      · exact hat { ctx with backend := backend } got

theorem add_blocks_succ (next len : U64) (n : ℕ) :
    next + BitVec.ofNat 64 (n + 1) * len = next + len + BitVec.ofNat 64 n * len := by
  rw [BitVec.ofNat_add, add_mul]
  change next + (BitVec.ofNat 64 n * len + 1 * len) = _
  ring

theorem add_blocks_zero (next len : U64) : next + BitVec.ofNat 64 0 * len = next := by
  rw [BitVec.zero_mul, BitVec.add_zero]

/-- The cursor moves by whole blocks, by no more than were in use or had. -/
theorem iommuAllocSameLoop_cursor (ops : IommuCtxOps σ) (len : U64) (mmap : Except Errno U64)
    (busy : ℕ) (ctx : IommuCtx σ) :
    (iommuAllocSameLoop ops len mmap busy ctx).2.iovaMax = ctx.iovaMax ∧
      ∃ n ≤ busy + mmap.isOk.toNat,
        (iommuAllocSameLoop ops len mmap busy ctx).2.iovaNextSame =
          ctx.iovaNextSame + BitVec.ofNat 64 n * len := by
  induction busy generalizing ctx with
  | zero =>
      rw [iommuAllocSameLoop_zero]
      split_ifs
      · exact ⟨rfl, 0, Nat.zero_le _, (add_blocks_zero ..).symm⟩
      · cases mmap with
        | error e => exact ⟨rfl, 0, Nat.zero_le _, (add_blocks_zero ..).symm⟩
        | ok vaddr =>
            rw [iommuAllocSameAt]
            obtain ⟨hmax, hnext⟩ := iommuMapVaddr_cursor ops ctx vaddr len vaddr iommuMapFixedIova
            generalize iommuMapVaddr ops ctx vaddr len vaddr iommuMapFixedIova = r at hmax hnext ⊢
            obtain ⟨e | got, ctx'⟩ := r
            · exact ⟨hmax, 0, Nat.zero_le _, hnext.trans (add_blocks_zero ..).symm⟩
            · refine ⟨hmax, 1, le_rfl, ?_⟩
              rw [add_blocks_succ, add_blocks_zero]
              exact congrArg (· + len) hnext
  | succ busy ih =>
      rw [iommuAllocSameLoop_succ]
      split_ifs
      · exact ⟨rfl, 0, Nat.zero_le _, (add_blocks_zero ..).symm⟩
      · obtain ⟨hmax, n, hn, hnext⟩ := ih { ctx with iovaNextSame := ctx.iovaNextSame + len }
        refine ⟨hmax, n + 1, by omega, ?_⟩
        rw [hnext, add_blocks_succ]

/-- The calls are made at the cursor, and while there is room. -/
theorem mem_iommuAllocSameCalls {mapped : Bool} {busy : ℕ} {call : SameCall}
    (h : call ∈ iommuAllocSameCalls len mapped busy ctx) :
    ∃ n ≤ busy, ∃ next, next = ctx.iovaNextSame + BitVec.ofNat 64 n * len ∧
      sameIovaFull { ctx with iovaNextSame := next } len = false ∧
        (call = .mmap next ∨ call = .mapVaddr next len ∧ mapped ∧ n = busy) := by
  induction busy generalizing ctx with
  | zero =>
      rw [iommuAllocSameCalls_zero] at h
      split_ifs at h with hfull hmapped
      · cases h
      · refine ⟨0, le_rfl, ctx.iovaNextSame, (add_blocks_zero ..).symm,
          Bool.eq_false_iff.mpr hfull, ?_⟩
        rcases List.mem_cons.mp h with rfl | h
        · exact .inl rfl
        · exact .inr ⟨List.mem_singleton.mp h, hmapped, rfl⟩
      · exact ⟨0, le_rfl, ctx.iovaNextSame, (add_blocks_zero ..).symm,
          Bool.eq_false_iff.mpr hfull, .inl (List.mem_singleton.mp h)⟩
  | succ busy ih =>
      rw [iommuAllocSameCalls_succ] at h
      split_ifs at h with hfull
      · cases h
      · rcases List.mem_cons.mp h with rfl | h
        · exact ⟨0, Nat.zero_le _, ctx.iovaNextSame, (add_blocks_zero ..).symm,
            Bool.eq_false_iff.mpr hfull, .inl rfl⟩
        · obtain ⟨n, hn, next, hnext, hroom, hcall⟩ := ih h
          refine ⟨n + 1, by omega, next, by rw [hnext, add_blocks_succ], hroom, ?_⟩
          exact hcall.imp_right fun ⟨hmap, hmapped, hbusy⟩ => ⟨hmap, hmapped, by omega⟩

theorem sameIovaFull_eq_false_iff :
    sameIovaFull ctx len = false ↔
      (ctx.iovaNextSame + len).toNat < min ctx.iovaMax.toNat (2 ^ 47 - 1) := by
  have hmax : iommuMaxSameIova.toNat = 2 ^ 47 - 1 := rfl
  rw [sameIovaFull, decide_eq_false_iff_not, not_or, BitVec.not_le, BitVec.not_le, BitVec.lt_def,
    BitVec.lt_def, hmax, lt_min_iff]

theorem toNat_add_blocks {next : U64} {n : ℕ} (h : next.toNat + n * len.toNat < 2 ^ 64) :
    (next + BitVec.ofNat 64 n * len).toNat = next.toNat + n * len.toNat := by
  rw [BitVec.toNat_add, BitVec.toNat_mul, BitVec.toNat_ofNat, Nat.mod_mul_mod, Nat.add_mod_mod,
    Nat.mod_eq_of_lt h]

theorem SameOp.add_blocks_lt {o : SameOp} {pagesize : U64} (h : o.possible pagesize ctx) {n : ℕ}
    (hn : n ≤ o.blocks) :
    ctx.iovaNextSame.toNat + n * (alignUp o.len pagesize).toNat < 2 ^ 64 := by
  rcases of_decide_eq_true h with hzero | ⟨-, hlt⟩
  · have hnext := ctx.iovaNextSame.isLt
    obtain rfl : n = 0 := by omega
    omega
  · have hmul := Nat.mul_le_mul_right (alignUp o.len pagesize).toNat hn
    omega

end Step

/-! ## Where the cursor starts -/

section Start

variable {pageshift : ℕ} {ranges : List IovaRange}

def sameLimit (ranges : List IovaRange) : ℕ := min (largestIova ranges).toNat (2 ^ 47 - 1)

def PageAligned (pageshift : ℕ) (ranges : List IovaRange) : Prop :=
  ∀ r ∈ ranges, 2 ^ pageshift ∣ r.start.toNat ∧ 2 ^ pageshift ∣ r.last.toNat + 1

theorem updateIovaRanges_cursor (ranges : List IovaRange) (ctx : IommuCtx σ) :
    (updateIovaRanges ranges ctx).iovaMax = largestIova ranges ∧
      (updateIovaRanges ranges ctx).iovaNextSame.toNat = sameLimit ranges / 4 + 1 := by
  refine ⟨rfl, ?_⟩
  have hmax : iommuMaxSameIova.toNat = 2 ^ 47 - 1 := rfl
  have hlimit : (if iommuMaxSameIova < largestIova ranges then iommuMaxSameIova
      else largestIova ranges).toNat = sameLimit ranges := by
    unfold sameLimit
    split_ifs with hlt
    · rw [BitVec.lt_def, hmax] at hlt
      rw [hmax, min_eq_right hlt.le]
    · rw [BitVec.lt_def, hmax] at hlt
      rw [min_eq_left (not_lt.mp hlt)]
  have hsmall : sameLimit ranges ≤ 2 ^ 47 - 1 := min_le_right ..
  change ((if iommuMaxSameIova < largestIova ranges then iommuMaxSameIova
    else largestIova ranges) / 4 + 1).toNat = _
  rw [BitVec.toNat_add, BitVec.toNat_udiv, hlimit]
  change (sameLimit ranges / 4 + 1) % 2 ^ 64 = _
  omega

theorem foldl_last (ranges : List IovaRange) (max : U64) :
    let largest := ranges.foldl (fun max r => if max < r.last then r.last else max) max
    max ≤ largest ∧ (∀ r ∈ ranges, r.last ≤ largest) ∧
      (largest = max ∨ ∃ r ∈ ranges, largest = r.last) := by
  induction ranges generalizing max with
  | nil => exact ⟨BitVec.le_refl _, nofun, .inl rfl⟩
  | cons r ranges ih =>
      have hnext : ∀ next, next = (if max < r.last then r.last else max) →
          max ≤ next ∧ r.last ≤ next ∧ (next = max ∨ next = r.last) := by
        rintro next rfl
        split_ifs with hlt
        · exact ⟨BitVec.le_of_lt hlt, BitVec.le_refl _, .inr rfl⟩
        · exact ⟨BitVec.le_refl _, BitVec.not_lt.mp hlt, .inl rfl⟩
      obtain ⟨hmax, hlast, hone⟩ := hnext _ rfl
      obtain ⟨hle, hall, heq⟩ := ih (if max < r.last then r.last else max)
      refine ⟨BitVec.le_trans hmax hle, fun r' hr' => ?_, ?_⟩
      · rcases List.mem_cons.mp hr' with rfl | hr'
        · exact BitVec.le_trans hlast hle
        · exact hall r' hr'
      · rcases heq with heq | ⟨r', hr', heq⟩
        · exact hone.imp heq.trans fun hr => ⟨r, List.mem_cons_self, heq.trans hr⟩
        · exact .inr ⟨r', List.mem_cons_of_mem r hr', heq⟩

/-- With at least one range, the limit is the last address of a page. -/
theorem sameLimit_pages (hlo : 2 ≤ pageshift) (hhi : pageshift ≤ 47)
    (haligned : PageAligned pageshift ranges) (hne : ranges ≠ []) :
    2 ^ pageshift ∣ sameLimit ranges + 1 ∧ 3 ≤ sameLimit ranges := by
  have hfour : 2 ^ 2 ≤ 2 ^ pageshift := Nat.pow_le_pow_right (by decide) hlo
  have hlast : ∀ r ∈ ranges, 3 ≤ r.last.toNat := fun r hr => by
    have hle := Nat.le_of_dvd (Nat.succ_pos _) (haligned r hr).2
    omega
  obtain ⟨-, hall, hone⟩ := foldl_last ranges 0
  obtain ⟨r, hr⟩ := List.exists_mem_of_ne_nil ranges hne
  have hthree : 3 ≤ (largestIova ranges).toNat := (hlast r hr).trans (BitVec.le_def.mp (hall r hr))
  have hdvd : 2 ^ pageshift ∣ (largestIova ranges).toNat + 1 := by
    rcases hone with hzero | ⟨r', hr', heq⟩
    · have hlargest : (largestIova ranges).toNat = 0 := congrArg BitVec.toNat hzero
      omega
    · have hlargest : largestIova ranges = r'.last := heq
      rw [hlargest]
      exact (haligned r' hr').2
  refine ⟨?_, le_min hthree (by decide)⟩
  rcases min_choice (largestIova ranges).toNat (2 ^ 47 - 1) with hmin | hmin
  · rw [sameLimit, hmin]
    exact hdvd
  · rw [sameLimit, hmin]
    exact pow_dvd_pow 2 hhi

theorem four_mul_start (hlo : 2 ≤ pageshift) (hdvd : 2 ^ pageshift ∣ sameLimit ranges + 1) :
    4 * (sameLimit ranges / 4 + 1) = sameLimit ranges + 1 := by
  have hfour : 4 ∣ sameLimit ranges + 1 := (pow_dvd_pow 2 hlo).trans hdvd
  omega

end Start

/-! ## Runs -/

section Run

variable {ops : IommuCtxOps σ} {pageshift : ℕ} {ranges : List IovaRange} {ctx ctx' : IommuCtx σ}
  {o : SameOp}

structure SameInv (pageshift : ℕ) (ranges : List IovaRange) (ctx : IommuCtx σ) : Prop where
  iovaMax : ctx.iovaMax = largestIova ranges
  aligned : 2 ^ pageshift ∣ ctx.iovaNextSame.toNat
  start : sameLimit ranges / 4 + 1 ≤ ctx.iovaNextSame.toNat

theorem sameStep_cursor {pagesize : U64} (h : sameStep ops pagesize ctx o = some ctx') :
    ctx'.iovaMax = ctx.iovaMax ∧
      ∃ n, ctx'.iovaNextSame.toNat =
        ctx.iovaNextSame.toNat + n * (alignUp o.len pagesize).toNat := by
  unfold sameStep at h
  split_ifs at h with hpossible
  obtain rfl := Option.some.inj h
  obtain ⟨hmax, n, hn, hnext⟩ := iommuAllocSameLoop_cursor ops (alignUp o.len pagesize)
    (o.answer pagesize ctx) o.busy ctx
  have hok : (o.answer pagesize ctx).isOk = o.outcome.isOk := by
    cases hout : o.outcome <;> simp [SameOp.answer, hout, Except.map, Except.isOk, Except.toBool]
  refine ⟨hmax, n, ?_⟩
  rw [iommuAllocSameIova, hnext,
    toNat_add_blocks (SameOp.add_blocks_lt hpossible (hn.trans_eq (by rw [hok, SameOp.blocks])))]

theorem SameInv.step (hshift : pageshift < 64) (h : SameInv pageshift ranges ctx)
    (hstep : sameStep ops (BitVec.twoPow 64 pageshift) ctx o = some ctx') :
    SameInv pageshift ranges ctx' := by
  obtain ⟨hmax, n, hnext⟩ := sameStep_cursor hstep
  refine ⟨hmax.trans h.iovaMax, ?_, ?_⟩
  · rw [hnext]
    exact Nat.dvd_add h.aligned (Dvd.dvd.mul_left (twoPow_dvd_alignUp o.len hshift) n)
  · rw [hnext]
    exact h.start.trans (Nat.le_add_right _ _)

/-- If one of the ranges has everything from the start of the cursor up to the last page, then
all calls are usable. -/
theorem SameInv.usable (hshift : pageshift < 64)
    (h : SameInv pageshift ranges ctx) (hdvd : 2 ^ pageshift ∣ sameLimit ranges + 1)
    {r : IovaRange} (hr : r ∈ ranges) (hstart : r.start.toNat ≤ sameLimit ranges / 4 + 1)
    (hlast : sameLimit ranges ≤ r.last.toNat + 2 ^ pageshift)
    (hpossible : o.possible (BitVec.twoPow 64 pageshift) ctx) {call : SameCall}
    (hcall : call ∈ o.calls (BitVec.twoPow 64 pageshift) ctx) :
    call.Usable pageshift ranges ctx.iovaMax := by
  obtain ⟨n, hn, next, hnext, hroom, hcall⟩ := mem_iommuAllocSameCalls hcall
  have hlen := twoPow_dvd_alignUp o.len hshift
  generalize hl : alignUp o.len (BitVec.twoPow 64 pageshift) = len at *
  have hlt := SameOp.add_blocks_lt hpossible (n := n) (by rw [SameOp.blocks]; omega)
  rw [hl] at hlt
  have htoNat := toNat_add_blocks hlt
  rw [← hnext] at htoNat
  have haligned : 2 ^ pageshift ∣ next.toNat := by
    rw [htoNat]
    exact Nat.dvd_add h.aligned (Dvd.dvd.mul_left hlen n)
  rcases hcall with rfl | ⟨rfl, hmapped, rfl⟩
  · exact haligned
  · have hend := SameOp.add_blocks_lt hpossible (n := o.busy + 1)
      (by rw [SameOp.blocks, hmapped, Bool.toNat_true])
    rw [hl, Nat.succ_mul] at hend
    rw [sameIovaFull_eq_false_iff, h.iovaMax] at hroom
    change (next + len).toNat < sameLimit ranges at hroom
    rw [BitVec.toNat_add, Nat.mod_eq_of_lt (by omega)] at hroom
    have hpages : 2 ^ pageshift ∣ sameLimit ranges + 1 - (next.toNat + len.toNat) :=
      Nat.dvd_sub hdvd (Nat.dvd_add haligned hlen)
    have hbound := Nat.le_of_dvd (by omega) hpages
    have hstart' := h.start
    refine ⟨⟨r, hr, by omega, by omega⟩, ?_⟩
    rw [h.iovaMax]
    have hsmall : sameLimit ranges ≤ min (largestIova ranges).toNat (2 ^ 47) :=
      min_le_min_left _ (by decide)
    omega

theorem SameOp.calls_of_room {pagesize : U64} (hbusy : o.busy = 0)
    (hroom : sameIovaFull ctx (alignUp o.len pagesize) = false) :
    o.calls pagesize ctx = .mmap ctx.iovaNextSame ::
      if o.outcome.isOk then [.mapVaddr ctx.iovaNextSame (alignUp o.len pagesize)] else [] := by
  rw [SameOp.calls, hbusy, iommuAllocSameCalls_zero, hroom, if_neg Bool.false_ne_true]

theorem SameOp.calls_of_iovaMax_eq_zero {pagesize : U64} (hmax : ctx.iovaMax = 0) :
    o.calls pagesize ctx = [] := by
  have hfull : ∀ (ctx : IommuCtx σ) (len : U64), ctx.iovaMax = 0 → sameIovaFull ctx len := by
    intro ctx len hmax
    rw [← Bool.not_eq_false, sameIovaFull_eq_false_iff, hmax]
    exact fun hlt => Nat.not_lt_zero _ (hlt.trans_le (min_le_left _ _))
  rw [SameOp.calls]
  cases o.busy with
  | zero => rw [iommuAllocSameCalls_zero, if_pos (hfull ctx _ hmax)]
  | succ busy => rw [iommuAllocSameCalls_succ, if_pos (hfull ctx _ hmax)]

theorem sameIovaFull_updateIovaRanges {len : U64} (ctx : IommuCtx σ)
    (hroom : sameLimit ranges / 4 + 1 + len.toNat < sameLimit ranges) :
    sameIovaFull (updateIovaRanges ranges ctx) len = false := by
  obtain ⟨hmax, hstart⟩ := updateIovaRanges_cursor ranges ctx
  have hsmall : sameLimit ranges ≤ 2 ^ 47 - 1 := min_le_right _ _
  rw [sameIovaFull_eq_false_iff, hmax, BitVec.toNat_add, hstart, Nat.mod_eq_of_lt (by omega)]
  exact hroom

def UsableFirst (pageshift : ℕ) (ranges : List IovaRange) (ctx : IommuCtx σ) (o : SameOp) : Prop :=
  o.possible (BitVec.twoPow 64 pageshift) (updateIovaRanges ranges ctx) →
    ∀ call ∈ o.calls (BitVec.twoPow 64 pageshift) (updateIovaRanges ranges ctx),
      call.Usable pageshift ranges (updateIovaRanges ranges ctx).iovaMax

/-- The first memory is asked for at the start of the cursor. -/
theorem dvd_start_of_usable (hlo : 2 ≤ pageshift) (hshift : pageshift < 64)
    (hdvd : 2 ^ pageshift ∣ sameLimit ranges + 1) (hthree : 3 ≤ sameLimit ranges)
    (h : UsableFirst pageshift ranges ctx ⟨0, 0, .error .ENOMEM⟩) :
    2 ^ pageshift ∣ sameLimit ranges / 4 + 1 := by
  obtain ⟨-, hstart⟩ := updateIovaRanges_cursor ranges ctx
  have hfour := four_mul_start hlo hdvd
  have hlen : (alignUp 0 (BitVec.twoPow 64 pageshift)).toNat = 0 :=
    Nat.le_zero.mp (alignUp_twoPow_le 0 hshift (Nat.dvd_zero _) le_rfl (by decide)).2
  have hroom : sameIovaFull (updateIovaRanges ranges ctx)
      (alignUp 0 (BitVec.twoPow 64 pageshift)) = false :=
    sameIovaFull_updateIovaRanges ctx (by omega)
  have hcalls := SameOp.calls_of_room (o := ⟨0, 0, .error .ENOMEM⟩) rfl hroom
  have husable := h rfl (.mmap (updateIovaRanges ranges ctx).iovaNextSame)
    (hcalls ▸ List.mem_cons_self)
  rw [← hstart]
  exact husable

/-- All pages from the start of the cursor on, up to the last, can be had at once. -/
theorem exists_range_of_usable (hlo : 2 ≤ pageshift) (hshift : pageshift < 64)
    (hdvd : 2 ^ pageshift ∣ sameLimit ranges + 1)
    (hstart : 2 ^ pageshift ∣ sameLimit ranges / 4 + 1)
    (h : ∀ len, UsableFirst pageshift ranges ctx ⟨len, 0, .ok ()⟩) :
    ∃ r ∈ ranges, r.start.toNat ≤ sameLimit ranges / 4 + 1 ∧
      sameLimit ranges ≤ r.last.toNat + 2 ^ pageshift := by
  obtain ⟨-, hcursor⟩ := updateIovaRanges_cursor ranges ctx
  have hsmall : sameLimit ranges ≤ 2 ^ 47 - 1 := min_le_right _ _
  have hfour := four_mul_start hlo hdvd
  have hpage : 2 ^ 2 ≤ 2 ^ pageshift := Nat.pow_le_pow_right (by decide) hlo
  have hle := Nat.le_of_dvd (Nat.succ_pos _) hstart
  obtain ⟨n, hn⟩ : ∃ n, n = sameLimit ranges + 1 - 2 ^ pageshift - (sameLimit ranges / 4 + 1) :=
    ⟨_, rfl⟩
  have hdvdn : 2 ^ pageshift ∣ n := hn ▸ Nat.dvd_sub (Nat.dvd_sub hdvd dvd_rfl) hstart
  have hlen : (alignUp (BitVec.ofNat 64 n) (BitVec.twoPow 64 pageshift)).toNat = n := by
    have hword : (BitVec.ofNat 64 n).toNat = n := by
      rw [BitVec.toNat_ofNat, Nat.mod_eq_of_lt (by omega)]
    obtain ⟨hge, hup⟩ :=
      alignUp_twoPow_le (BitVec.ofNat 64 n) hshift hdvdn hword.le (by omega)
    omega
  have hroom : sameIovaFull (updateIovaRanges ranges ctx)
      (alignUp (BitVec.ofNat 64 n) (BitVec.twoPow 64 pageshift)) = false :=
    sameIovaFull_updateIovaRanges ctx (by omega)
  have hcalls := SameOp.calls_of_room (o := ⟨BitVec.ofNat 64 n, 0, .ok ()⟩) rfl hroom
  have hpossible : SameOp.possible ⟨BitVec.ofNat 64 n, 0, .ok ()⟩ (BitVec.twoPow 64 pageshift)
      (updateIovaRanges ranges ctx) := by
    refine decide_eq_true (.inr ?_)
    change (alignUp (BitVec.ofNat 64 n) (BitVec.twoPow 64 pageshift)).toNat ≠ 0 ∧
      (updateIovaRanges ranges ctx).iovaNextSame.toNat +
        1 * (alignUp (BitVec.ofNat 64 n) (BitVec.twoPow 64 pageshift)).toNat < 2 ^ 64
    rw [hlen, hcursor]
    omega
  obtain ⟨⟨r, hr, hlow, hhigh⟩, -⟩ := h (BitVec.ofNat 64 n) hpossible
    (.mapVaddr _ _) (hcalls ▸ List.mem_cons_of_mem _ List.mem_cons_self)
  rw [hcursor] at hlow hhigh
  change _ + (alignUp (BitVec.ofNat 64 n) (BitVec.twoPow 64 pageshift)).toNat ≤ _ at hhigh
  rw [hlen] at hhigh
  exact ⟨r, hr, by omega, by omega⟩

/-- All addresses that are tried are usable exactly if there is no range at all, or if a quarter
of the addresses is a number of pages and one of the ranges has everything from there on, except
perhaps the last page. -/
theorem iommuAllocSameIova_usable_iff (ops : IommuCtxOps σ) (ctx : IommuCtx σ)
    (hlo : 2 ≤ pageshift) (hhi : pageshift ≤ 47) (haligned : PageAligned pageshift ranges) :
    (∀ (os : List SameOp) (o : SameOp) (ctx' : IommuCtx σ),
        Runs.run (sameStep ops (BitVec.twoPow 64 pageshift)) (updateIovaRanges ranges ctx) os =
          some ctx' →
        o.possible (BitVec.twoPow 64 pageshift) ctx' →
        ∀ call ∈ o.calls (BitVec.twoPow 64 pageshift) ctx',
          call.Usable pageshift ranges ctx'.iovaMax) ↔
      ranges = [] ∨
        4 * 2 ^ pageshift ∣ sameLimit ranges + 1 ∧
          ∃ r ∈ ranges, r.start.toNat ≤ (sameLimit ranges + 1) / 4 ∧
            sameLimit ranges ≤ r.last.toNat + 2 ^ pageshift := by
  have hshift : pageshift < 64 := by omega
  obtain ⟨hmax, hnext⟩ := updateIovaRanges_cursor ranges ctx
  constructor
  · intro h
    rw [or_iff_not_imp_left]
    intro hne
    obtain ⟨hdvd, hthree⟩ := sameLimit_pages hlo hhi haligned hne
    have hfour := four_mul_start hlo hdvd
    have hfirst : ∀ o, UsableFirst pageshift ranges ctx o := fun o => h [] o _ rfl
    have hstart := dvd_start_of_usable hlo hshift hdvd hthree (hfirst _)
    refine ⟨?_, ?_⟩
    · rw [← hfour]
      exact Nat.mul_dvd_mul_left 4 hstart
    · rw [← hfour, Nat.mul_div_cancel_left _ (by decide)]
      exact exists_range_of_usable hlo hshift hdvd hstart fun len => hfirst _
  · rintro (rfl | ⟨hdvd, r, hr, hlow, hlast⟩) os o ctx' hrun hpossible call hcall
    · have hstep : ∀ (ctx : IommuCtx σ) (o : SameOp) (ctx' : IommuCtx σ), ctx.iovaMax = 0 →
          sameStep ops (BitVec.twoPow 64 pageshift) ctx o = some ctx' → ctx'.iovaMax = 0 :=
        fun _ _ _ hzero hstep => (sameStep_cursor hstep).1.trans hzero
      have hzero := Runs.run_invariant_of_step hstep hmax hrun
      rw [SameOp.calls_of_iovaMax_eq_zero hzero] at hcall
      cases hcall
    · have hdvd' : 2 ^ pageshift ∣ sameLimit ranges + 1 := (Nat.dvd_mul_left _ 4).trans hdvd
      have hfour := four_mul_start hlo hdvd'
      have hinit : SameInv pageshift ranges (updateIovaRanges ranges ctx) := by
        refine ⟨hmax, ?_, hnext.ge⟩
        rw [hnext]
        exact Nat.dvd_of_mul_dvd_mul_left (by decide) (hfour ▸ hdvd)
      have hinv := Runs.run_invariant_of_step (fun _ _ _ h => h.step hshift) hinit hrun
      exact hinv.usable hshift hdvd' hr (by omega) hlast hpossible hcall

/-- The addresses of messages are left out by the ranges, which is no harm. -/
theorem iommuAllocSameIova_usable_iff_messages :
    let page := BitVec.twoPow 64 12
    let ranges : List IovaRange := [⟨0, 0xfedfffff⟩, ⟨0xfef00000, 0x7fffffffff⟩]
    let o : SameOp := ⟨0x1800, 1, .ok ()⟩
    ∃ ctx, Runs.run (sameStep identityOps page)
        (updateIovaRanges ranges (identityCtx fun _ => true)) [o] = some ctx ∧
      o.calls page ctx =
        [.mmap 0x2000004000, .mmap 0x2000006000, .mapVaddr 0x2000006000 0x2000] ∧
      ∀ call ∈ o.calls page ctx, call.Usable 12 ranges ctx.iovaMax := by
  intro page ranges o
  have haligned : PageAligned 12 ranges := by
    unfold PageAligned
    decide
  have hiff := iommuAllocSameIova_usable_iff identityOps (identityCtx fun _ => true) (by decide)
    (by decide) haligned
  have hcalls : (Runs.run (sameStep identityOps page)
      (updateIovaRanges ranges (identityCtx fun _ => true)) [o]).map
        (fun ctx => (o.possible page ctx, o.calls page ctx)) =
      some (true, [.mmap 0x2000004000, .mmap 0x2000006000, .mapVaddr 0x2000006000 0x2000]) := by
    decide +kernel
  obtain ⟨ctx, hrun, hctx⟩ := Option.map_eq_some_iff.mp hcalls
  obtain ⟨hpossible, hcalls⟩ := Prod.mk.inj hctx
  have husable := hiff.mpr (.inr ⟨by decide, ⟨0xfef00000, 0x7fffffffff⟩, by decide, by decide,
    by decide⟩)
  exact ⟨ctx, hrun, hcalls, husable [o] o ctx hrun hpossible⟩

/-- With five pages, the first address is not that of a page. With two ranges, the first address
may be between them. -/
theorem iommuAllocSameIova_not_usable :
    let page := BitVec.twoPow 64 12
    let ctx := identityCtx fun _ => true
    let pages : List IovaRange := [⟨0, 0x4fff⟩]
    let hole : List IovaRange := [⟨0, 0xfffffff⟩, ⟨0x80000000, 0xffffffff⟩]
    let refused : SameOp := ⟨0x1000, 0, .error .EINVAL⟩
    let had : SameOp := ⟨0x1000, 0, .ok ()⟩
    (PageAligned 12 pages ∧ refused.possible page (updateIovaRanges pages ctx) ∧
      refused.calls page (updateIovaRanges pages ctx) = [.mmap 0x1400] ∧
        ¬ (SameCall.mmap 0x1400).Usable 12 pages 0x4fff) ∧
      PageAligned 12 hole ∧ had.possible page (updateIovaRanges hole ctx) ∧
        had.calls page (updateIovaRanges hole ctx) =
          [.mmap 0x40000000, .mapVaddr 0x40000000 0x1000] ∧
          ¬ (SameCall.mapVaddr 0x40000000 0x1000).Usable 12 hole 0xffffffff := by
  unfold PageAligned SameCall.Usable
  decide +kernel

end Run

/-! ## The loop ends -/

section Turns

variable {ops : IommuCtxOps σ} {ctx : IommuCtx σ} {len : U64}

/-- The loop of `iommu_alloc_same_iova` with at most so many turns, and with an answer of `mmap`
for every turn. There is no result if the turns are used up. -/
def iommuAllocSameTurns (ops : IommuCtxOps σ) (len : U64) :
    ℕ → (ℕ → Except Errno U64) → IommuCtx σ → Option (Except Errno U64 × IommuCtx σ)
  | 0 => fun _ _ => none
  | turns + 1 =>
      sameIovaLoop len (fun mmap i => mmap (i + 1)) (fun ctx => some (.error .ENOMEM, ctx))
        (fun mmap ctx result =>
          if mmap 0 = .error .EEXIST then result
          else some (iommuAllocSameAt ops ctx len (mmap 0)))
        (fun mmap ctx =>
          if mmap 0 = .error .EEXIST then none
          else some (iommuAllocSameAt ops ctx len (mmap 0)))
        turns

theorem iommuAllocSameTurns_succ (ops : IommuCtxOps σ) (len : U64) (turns : ℕ)
    (mmap : ℕ → Except Errno U64) (ctx : IommuCtx σ) :
    iommuAllocSameTurns ops len (turns + 1) mmap ctx =
      if sameIovaFull ctx len then some (.error .ENOMEM, ctx)
      else if mmap 0 = .error .EEXIST then
        iommuAllocSameTurns ops len turns (fun i => mmap (i + 1))
          { ctx with iovaNextSame := ctx.iovaNextSame + len }
      else some (iommuAllocSameAt ops ctx len (mmap 0)) := by
  cases turns <;> rfl

theorem sameIovaFull_of_high (h : 2 ^ 64 ≤ 2 * (ctx.iovaNextSame + len).toNat) :
    sameIovaFull ctx len := by
  rw [← Bool.not_eq_false, sameIovaFull_eq_false_iff]
  omega

/-- If the cursor comes to a place that is too high, then the loop has ended before. It has done
what `mmap` let it do. -/
theorem iommuAllocSameTurns_of_high (n : ℕ) (mmap : ℕ → Except Errno U64) (ctx : IommuCtx σ)
    (hhigh : 2 ^ 64 ≤ 2 * ((· + len)^[n] (ctx.iovaNextSame + len)).toNat) :
    ∃ busy ≤ n, (∀ i < busy, mmap i = .error .EEXIST) ∧
      iommuAllocSameTurns ops len (n + 1) mmap ctx =
        some (iommuAllocSameLoop ops len (mmap busy) busy ctx) := by
  induction n generalizing ctx mmap with
  | zero =>
      refine ⟨0, le_rfl, nofun, ?_⟩
      have hfull := sameIovaFull_of_high hhigh
      rw [iommuAllocSameTurns_succ, iommuAllocSameLoop_zero, if_pos hfull, if_pos hfull]
  | succ n ih =>
      rw [iommuAllocSameTurns_succ]
      split_ifs with hnow hbusy
      · refine ⟨0, Nat.zero_le _, nofun, ?_⟩
        rw [iommuAllocSameLoop_zero, if_pos hnow]
      · obtain ⟨busy, hle, hall, hturns⟩ := ih (fun i => mmap (i + 1))
          { ctx with iovaNextSame := ctx.iovaNextSame + len } hhigh
        refine ⟨busy + 1, by omega, ?_, ?_⟩
        · intro i hi
          cases i with
          | zero => exact hbusy
          | succ i => exact hall i (by omega)
        · rw [hturns, iommuAllocSameLoop_succ, if_neg hnow]
      · refine ⟨0, Nat.zero_le _, nofun, ?_⟩
        rw [iommuAllocSameLoop_zero, if_neg hnow]

/-- The loop ends after a number of turns that does not depend on `mmap`, unless the length is
rounded up to zero. It has met memory in use in all turns but the last. -/
theorem iommuAllocSameIova_ends (pagesize len : U64) (ctx : IommuCtx σ)
    (hlen : alignUp len pagesize ≠ 0) :
    ∃ turns, ∀ (ops : IommuCtxOps σ) (mmap : ℕ → Except Errno U64), ∃ busy < turns,
      (∀ i < busy, mmap i = .error .EEXIST) ∧
        iommuAllocSameTurns ops (alignUp len pagesize) turns mmap ctx =
          some (iommuAllocSameIova ops pagesize ctx len busy (mmap busy)) := by
  obtain ⟨n, hhigh⟩ := exists_iterate_add_high hlen
    (ctx.iovaNextSame + alignUp len pagesize)
  refine ⟨n + 1, fun ops mmap => ?_⟩
  obtain ⟨busy, hle, hall, hturns⟩ := iommuAllocSameTurns_of_high n mmap ctx hhigh
  exact ⟨busy, Nat.lt_succ_of_le hle, hall, hturns⟩

/-- The length is almost the whole word, so that the cursor goes down, and all memory is in
use. -/
theorem iommuAllocSameIova_ends_downwards :
    let ctx : IommuCtx Unit :=
      { identityCtx fun _ => true with iovaMax := 0x7fffffffff, iovaNextSame := 0x3000 }
    ∃ turns res, iommuAllocSameTurns identityOps 0xfffffffffffff000 turns
      (fun _ => .error .EEXIST) ctx = some res := by
  intro ctx
  obtain ⟨turns, hends⟩ := iommuAllocSameIova_ends 0x1000 0xfffffffffffff000 ctx
    (by decide)
  obtain ⟨busy, -, -, hres⟩ := hends identityOps fun _ => .error .EEXIST
  exact ⟨turns, _, hres⟩

end Turns

end Iommu

end Libvfn
