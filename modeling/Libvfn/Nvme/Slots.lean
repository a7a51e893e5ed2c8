import Mathlib.Data.Int.ModEq
import Libvfn.Nvme.Shadow

/-!
# The slots of the doorbells

The doorbells of all queues lie in one row, and so do the shadow doorbells and the event
indices: first the submission queue with identifier `0`, then the completion queue with this
identifier, then the two with identifier `1`, and so on. The distance between two neighbours
is what the controller says, from 4 bytes to 128 KiB. The place of a queue is computed in
`int`s, for every identifier that is not beyond what was granted, while each shadow buffer has
one page.
-/

namespace Libvfn

namespace Nvme

namespace Ctrl

open Word Support Iommu

inductive QueueType where
  | sq
  | cq
  deriving DecidableEq

/-- A queue. The identifier is an `int`. -/
structure QueueId where
  type : QueueType
  qid : ℤ
  deriving DecidableEq

def QueueId.slot (q : QueueId) (doorbells : U64) (dstrd : ℕ) : U64 :=
  match q.type with
  | .sq => sqtdbl doorbells q.qid dstrd
  | .cq => cqhdbl doorbells q.qid dstrd

def QueueId.index (q : QueueId) : ℤ :=
  match q.type with
  | .sq => 2 * q.qid
  | .cq => 2 * q.qid + 1

def QueueId.offset (q : QueueId) (dstrd : ℕ) : ℤ := (q.index * 2 ^ (dstrd + 2)).bmod (2 ^ 32)

def QueueId.bytes (q : QueueId) (doorbells : U64) (dstrd : ℕ) : List U64 :=
  byteRange (q.slot doorbells dstrd) 4

variable {σ : Type*}

def State.granteds (s : State σ) : QueueType → ℕ
  | .sq => s.nsqa
  | .cq => s.ncqa

/-- `__nvme_configure_sq` or `__nvme_configure_cq` accepts the identifier, for some size. -/
def QueueId.Accepted (q : QueueId) (s : State σ) (cap : U64) : Prop :=
  ∃ qsize, configureCheck (s.granteds q.type) q.qid qsize cap = .ok ()

/-- The slots in the buffers of the shadow doorbells and the event indices lie inside. -/
def QueueId.Inside (q : QueueId) (s : State σ) (dstrd : ℕ) : Prop :=
  q.bytes s.doorbells.vaddr dstrd ⊆ byteRange s.doorbells.vaddr s.doorbells.len.toNat ∧
    q.bytes s.eventidxs.vaddr dstrd ⊆ byteRange s.eventidxs.vaddr s.eventidxs.len.toNat

/-! ## Two slots -/

section Slot

variable (q q' : QueueId) (doorbells : U64) {dstrd : ℕ}

theorem stride_eq (dstrd : ℕ) : ((4 <<< dstrd : ℕ) : ℤ) = 2 ^ (dstrd + 2) := by
  rw [Nat.shiftLeft_eq]
  push_cast
  ring

theorem intOffset_eq (a b : ℤ) : intOffset a b = BitVec.ofInt 64 ((a * b).bmod (2 ^ 32)) := by
  rw [intOffset, BitVec.signExtend, BitVec.toInt_ofInt]

theorem slot_eq (dstrd : ℕ) :
    q.slot doorbells dstrd = doorbells + BitVec.ofInt 64 (q.offset dstrd) := by
  obtain ⟨type, qid⟩ := q
  cases type with
  | sq =>
      change doorbells + intOffset (2 * qid) (4 <<< dstrd : ℕ) = _
      rw [intOffset_eq, stride_eq]
      rfl
  | cq =>
      change doorbells + intOffset (2 * qid + 1) (4 <<< dstrd : ℕ) = _
      rw [intOffset_eq, stride_eq]
      rfl

theorem offset_bounds (dstrd : ℕ) : -2 ^ 31 ≤ q.offset dstrd ∧ q.offset dstrd < 2 ^ 31 :=
  ⟨Int.le_bmod (by decide), Int.bmod_lt (by decide)⟩

theorem four_dvd_offset (dstrd : ℕ) : 4 ∣ q.offset dstrd := by
  have hstride : q.index * 2 ^ (dstrd + 2) = 4 * (q.index * 2 ^ dstrd) := by ring
  rw [QueueId.offset, hstride, Int.bmod_def]
  generalize q.index * 2 ^ dstrd = i
  split_ifs <;> omega

theorem offset_eq_iff (hdstrd : dstrd ≤ 15) :
    q.offset dstrd = q'.offset dstrd ↔ q.index ≡ q'.index [ZMOD 2 ^ (30 - dstrd)] := by
  have hword : (2 : ℤ) ^ 32 = 2 ^ (30 - dstrd) * 2 ^ (dstrd + 2) := by
    rw [← pow_add]
    congr 1
    omega
  have hpos : (2 : ℤ) ^ (dstrd + 2) ≠ 0 := by positivity
  constructor
  · intro h
    have hmod : q.index * 2 ^ (dstrd + 2) ≡ q'.index * 2 ^ (dstrd + 2) [ZMOD 2 ^ 32] := by
      have hemod := congrArg (· % ((2 ^ 32 : ℕ) : ℤ)) h
      dsimp only [QueueId.offset] at hemod
      rw [Int.bmod_emod, Int.bmod_emod] at hemod
      exact hemod
    rw [hword] at hmod
    exact Int.ModEq.mul_right_cancel' hpos hmod
  · intro h
    have hmod : q.index * 2 ^ (dstrd + 2) ≡ q'.index * 2 ^ (dstrd + 2) [ZMOD 2 ^ 32] := by
      rw [hword]
      exact h.mul_right'
    rw [QueueId.offset, QueueId.offset, ← Int.emod_bmod, ← Int.emod_bmod (q'.index * _)]
    exact congrArg (Int.bmod · (2 ^ 32)) hmod

theorem slot_eq_iff (dstrd : ℕ) :
    q.slot doorbells dstrd = q'.slot doorbells dstrd ↔ q.offset dstrd = q'.offset dstrd := by
  rw [slot_eq, slot_eq, add_right_inj]
  refine ⟨fun h => ?_, fun h => by rw [h]⟩
  obtain ⟨hle, hlt⟩ := offset_bounds q dstrd
  obtain ⟨hle', hlt'⟩ := offset_bounds q' dstrd
  have hint := congrArg BitVec.toInt h
  rw [BitVec.toInt_ofInt, BitVec.toInt_ofInt, Int.bmod_eq_of_le (by omega) (by omega),
    Int.bmod_eq_of_le (by omega) (by omega)] at hint
  exact hint

theorem disjoint_bytes_iff (hdstrd : dstrd ≤ 15) :
    (q.bytes doorbells dstrd).Disjoint (q'.bytes doorbells dstrd) ↔
      ¬q.index ≡ q'.index [ZMOD 2 ^ (30 - dstrd)] := by
  have hdvd := four_dvd_offset q dstrd
  have hdvd' := four_dvd_offset q' dstrd
  have hapart : 4 ∣ (q'.slot doorbells dstrd - q.slot doorbells dstrd).toNat := by
    rw [slot_eq, slot_eq, add_sub_add_left_eq_sub, BitVec.toNat_sub, BitVec.toNat_ofInt,
      BitVec.toNat_ofInt]
    omega
  rw [QueueId.bytes, QueueId.bytes, disjoint_byteRange_iff (by decide) (by decide) hapart, ne_eq,
    slot_eq_iff, offset_eq_iff q q' hdstrd]

theorem bytes_subset_iff {pageshift : ℕ} (hshift : pageshift < 64) (dstrd : ℕ) :
    q.bytes doorbells dstrd ⊆ byteRange doorbells (2 ^ pageshift) ↔
      0 ≤ q.offset dstrd ∧ q.offset dstrd + 4 ≤ 2 ^ pageshift := by
  have hdvd := four_dvd_offset q dstrd
  obtain ⟨hle, hlt⟩ := offset_bounds q dstrd
  have hpage : 2 ^ pageshift ≤ 2 ^ 63 := Nat.pow_le_pow_right (by decide) (by omega)
  have hoff : (BitVec.ofInt 64 (q.offset dstrd)).toNat = (q.offset dstrd % 2 ^ 64).toNat :=
    BitVec.toNat_ofInt ..
  have hcast : ((2 ^ pageshift : ℕ) : ℤ) = 2 ^ pageshift := by push_cast; rfl
  rw [QueueId.bytes, slot_eq, byteRange_subset_iff (by decide) (by omega) (by omega), hoff, ← hcast]
  generalize 2 ^ pageshift = page at hpage ⊢
  omega

end Slot

/-! ## All slots -/

section All

variable {s s' : State σ} {cap : U64} {dstrd pageshift : ℕ}

theorem capDstrd_le (cap : U64) : capDstrd cap ≤ 15 := by
  rw [capDstrd, BitVec.toNat_and]
  exact Nat.and_le_right

theorem accepted_iff (hcap : cap ≠ -1) {q : QueueId} :
    q.Accepted s cap ↔ q.qid ≤ s.granteds q.type + 1 := by
  unfold QueueId.Accepted configureCheck
  constructor
  · rintro ⟨qsize, h⟩
    rw [if_neg hcap] at h
    split_ifs at h with hqid
    omega
  · intro h
    refine ⟨2, ?_⟩
    rw [if_neg hcap, if_neg (by omega), if_neg (by decide)]

theorem granteds_le (s : State σ) (type : QueueType) : s.granteds type ≤ max s.nsqa s.ncqa := by
  cases type with
  | sq => exact le_max_left ..
  | cq => exact le_max_right ..

theorem exists_granteds_eq (s : State σ) : ∃ type, s.granteds type = max s.nsqa s.ncqa := by
  rcases le_total s.nsqa s.ncqa with hle | hle
  · exact ⟨.cq, (max_eq_right hle).symm⟩
  · exact ⟨.sq, (max_eq_left hle).symm⟩

theorem index_inj {q q' : QueueId} (h : q.index = q'.index) : q = q' := by
  obtain ⟨type, qid⟩ := q
  obtain ⟨type', qid'⟩ := q'
  cases type <;> cases type' <;> simp only [QueueId.index] at h
  · rw [show qid = qid' by omega]
  · omega
  · omega
  · rw [show qid = qid' by omega]

theorem index_bounds (q : QueueId) : 2 * q.qid ≤ q.index ∧ q.index ≤ 2 * q.qid + 1 := by
  obtain ⟨type, qid⟩ := q
  cases type <;> simp only [QueueId.index] <;> omega

theorem index_add (type : QueueType) (qid n : ℤ) :
    (QueueId.mk type (qid + n)).index = (QueueId.mk type qid).index + 2 * n := by
  cases type <;> simp only [QueueId.index] <;> ring

/-- No two slots of queues with identifiers from `lo` on overlap if and only if the offsets
take less than `2 ^ 32` bytes. -/
theorem disjoint_slots_iff (hcap : cap ≠ -1) {lo : ℤ} (hlo : lo ≤ 0) :
    (∀ (doorbells : U64) (q q' : QueueId), q.Accepted s cap → q'.Accepted s cap → lo ≤ q.qid →
        lo ≤ q'.qid → q ≠ q' →
        (q.bytes doorbells (capDstrd cap)).Disjoint (q'.bytes doorbells (capDstrd cap))) ↔
      max s.nsqa s.ncqa + 1 - lo < 2 ^ (29 - capDstrd cap) := by
  have hdstrd := capDstrd_le cap
  generalize capDstrd cap = dstrd at hdstrd ⊢
  have hmodulus : (2 : ℤ) ^ (30 - dstrd) = 2 * 2 ^ (29 - dstrd) := by
    rw [← pow_succ']
    congr 1
    omega
  have hpos : (0 : ℤ) < 2 ^ (29 - dstrd) := by positivity
  generalize (2 : ℤ) ^ (29 - dstrd) = half at hmodulus hpos ⊢
  constructor
  · intro h
    by_contra hmax
    obtain ⟨type, htype⟩ := exists_granteds_eq s
    -- this identifier has the offset of the first queue again
    have hne : QueueId.mk type lo ≠ ⟨type, lo + half⟩ := by
      intro heq
      have hqid := congrArg QueueId.qid heq
      dsimp only at hqid
      omega
    have hdisjoint := h 0 ⟨type, lo⟩ ⟨type, lo + half⟩
      ((accepted_iff hcap).mpr (hlo.trans (Int.natCast_nonneg _)))
      ((accepted_iff hcap).mpr (by dsimp only; rw [htype]; omega)) le_rfl
      (by dsimp only; omega) hne
    rw [disjoint_bytes_iff _ _ _ hdstrd, hmodulus, Int.modEq_iff_dvd, index_add] at hdisjoint
    exact hdisjoint ⟨1, by ring⟩
  · intro hmax doorbells q q' hq hq' hle hle' hne
    rw [disjoint_bytes_iff _ _ _ hdstrd, hmodulus, Int.modEq_iff_dvd]
    intro hdvd
    rw [accepted_iff hcap] at hq hq'
    have hgranted := granteds_le s q.type
    have hgranted' := granteds_le s q'.type
    have hindex := index_bounds q
    have hindex' := index_bounds q'
    have hsmall : |q'.index - q.index| < 2 * half := by
      rw [abs_lt]
      omega
    have hzero := Int.eq_zero_of_abs_lt_dvd hdvd hsmall
    exact hne (index_inj (sub_eq_zero.mp hzero).symm)

/-- An offset below `2 ^ 32` is inside if it is neither too large for the buffer nor for an
`int`. -/
theorem offset_inside_iff {q : QueueId} (hle : 0 ≤ q.index * 2 ^ (dstrd + 2))
    (hlt : q.index * 2 ^ (dstrd + 2) < 2 ^ 32) :
    0 ≤ q.offset dstrd ∧ q.offset dstrd + 4 ≤ 2 ^ pageshift ↔
      q.index * 2 ^ (dstrd + 2) + 4 ≤ min (2 ^ pageshift) (2 ^ 31) := by
  have hdvd := four_dvd_offset q dstrd
  rw [QueueId.offset] at hdvd ⊢
  generalize q.index * 2 ^ (dstrd + 2) = offset at *
  generalize (2 : ℤ) ^ pageshift = page
  have hmod : offset % ((2 ^ 32 : ℕ) : ℤ) = offset := Int.emod_eq_of_lt hle hlt
  rw [Int.bmod_def, hmod] at hdvd ⊢
  split_ifs at hdvd ⊢ <;> omega

/-- The slots of all queues of a type, up to an identifier, are inside if and only if the last
one is. -/
theorem inside_upTo_iff (type : QueueType) (last : ℕ) (hdstrd : dstrd ≤ 15) :
    (∀ qid : ℤ, 0 ≤ qid → qid ≤ last → 0 ≤ (QueueId.mk type qid).offset dstrd ∧
        (QueueId.mk type qid).offset dstrd + 4 ≤ 2 ^ pageshift) ↔
      (QueueId.mk type last).index * 2 ^ (dstrd + 2) + 4 ≤ min (2 ^ pageshift) (2 ^ 31) := by
  have hstride : (0 : ℤ) < 2 ^ (dstrd + 2) := by positivity
  have hlarge : (2 : ℤ) ^ (dstrd + 2) ≤ 2 ^ 17 := pow_le_pow_right₀ (by decide) (by omega)
  have hnonneg : ∀ qid : ℤ, 0 ≤ qid → 0 ≤ (QueueId.mk type qid).index * 2 ^ (dstrd + 2) := by
    intro qid hqid
    have hindex := (index_bounds ⟨type, qid⟩).1
    exact mul_nonneg (by dsimp only at hindex; omega) hstride.le
  constructor
  · induction last with
    | zero =>
        intro h
        have hlt : (QueueId.mk type 0).index * 2 ^ (dstrd + 2) < 2 ^ 32 := by
          cases type <;> simp only [QueueId.index] <;> omega
        exact (offset_inside_iff (hnonneg 0 le_rfl) hlt).mp (h 0 le_rfl le_rfl)
    | succ last ih =>
        intro h
        have hbefore := ih fun qid hpos hle => h qid hpos (by push_cast; omega)
        have hnext : (QueueId.mk type (last + 1 : ℕ)).index * 2 ^ (dstrd + 2) =
            (QueueId.mk type last).index * 2 ^ (dstrd + 2) + 2 * 2 ^ (dstrd + 2) := by
          push_cast
          rw [index_add]
          ring
        refine (offset_inside_iff (hnonneg _ (by omega)) ?_).mp (h _ (by omega) le_rfl)
        rw [hnext]
        omega
  · intro h qid hpos hle
    have hindex : (QueueId.mk type qid).index ≤ (QueueId.mk type last).index := by
      cases type <;> simp only [QueueId.index] <;> omega
    have hmul := mul_le_mul_of_nonneg_right hindex hstride.le
    exact (offset_inside_iff (hnonneg qid hpos) (by omega)).mpr (by omega)

end All

/-! ## The buffers -/

section Buffers

variable {ops : IommuCtxOps σ} {s s' : State σ} {cap : U64} {pageshift : ℕ}

/-- The memory for a page has the size of a page. -/
theorem pgmap_page {mmap : Except Errno U64} {vaddr len : U64}
    (h : pgmap (vfnPagesize pageshift) (vfnPagesize pageshift) mmap = .ok (vaddr, len)) :
    pageshift < 64 ∧ len.toNat = 2 ^ pageshift := by
  have hshift : pageshift < 64 := by
    by_contra hlarge
    have hzero : vfnPagesize pageshift = 0 := by
      apply BitVec.eq_of_toNat_eq
      rw [vfnPagesize, BitVec.toNat_twoPow]
      exact Nat.mod_eq_zero_of_dvd (pow_dvd_pow 2 (not_lt.mp hlarge))
    rw [hzero] at h
    cases h
  have hpage : alignUp (vfnPagesize pageshift) (vfnPagesize pageshift) = vfnPagesize pageshift :=
    alignUp_lowest_bit (q := 0) hshift (by rw [vfnPagesize, toNat_twoPow hshift]; omega)
  simp only [pgmap, hpage] at h
  split_ifs at h
  cases mmap with
  | error e => cases h
  | ok v =>
      dsimp only at h
      split_ifs at h
      obtain ⟨-, rfl⟩ := Prod.mk.inj (Except.ok.inj h)
      exact ⟨hshift, toNat_twoPow hshift⟩

theorem iommuGetDmabuf_page {ctx ctx' : IommuCtx σ} {buffer buffer' : Iommu.IommuDmabuf}
    {mmap : Except Errno U64}
    (h : Iommu.iommuGetDmabuf ops (vfnPagesize pageshift) ctx buffer (vfnPagesize pageshift) 0
      mmap = (.ok (), buffer', ctx')) : pageshift < 64 ∧ buffer'.len.toNat = 2 ^ pageshift := by
  have hgets := Iommu.iommuGetDmabuf_gets ops (vfnPagesize pageshift) ctx buffer
    (vfnPagesize pageshift) 0 mmap
  rw [h] at hgets
  cases hgets with
  | mapped _ _ _ _ hpgmap => exact pgmap_page hpgmap

/-- `nvme_init_dbconfig` makes two buffers of one page. -/
theorem nvmeInitDbconfig_pages {a : DbconfigAnswers}
    (h : nvmeInitDbconfig ops pageshift s a = some (.ok (), s')) :
    pageshift < 64 ∧ s'.doorbells.len.toNat = 2 ^ pageshift ∧
      s'.eventidxs.len.toNat = 2 ^ pageshift ∧ s'.nsqa = s.nsqa ∧ s'.ncqa = s.ncqa := by
  obtain ⟨doorbells, eventidxs, ctx, ctx', hdoorbells, heventidxs, rfl⟩ :=
    (nvmeInitDbconfig_inits h).2 rfl
  obtain ⟨hshift, hlen⟩ := iommuGetDmabuf_page hdoorbells
  have hlen' := (iommuGetDmabuf_page heventidxs).2
  have hkept : ∀ t : State σ, (t.setAdminDbbuf (capDstrd a.cap)).doorbells = t.doorbells ∧
      (t.setAdminDbbuf (capDstrd a.cap)).eventidxs = t.eventidxs ∧
      (t.setAdminDbbuf (capDstrd a.cap)).nsqa = t.nsqa ∧
      (t.setAdminDbbuf (capDstrd a.cap)).ncqa = t.ncqa := by
    intro t
    unfold State.setAdminDbbuf
    split_ifs <;> exact ⟨rfl, rfl, rfl, rfl⟩
  obtain ⟨hdb, hev, hnsqa, hncqa⟩ := hkept (s.withDbbuf doorbells eventidxs ctx')
  rw [hdb, hev]
  exact ⟨hshift, hlen, hlen', hnsqa, hncqa⟩

def State.slotsEnd (s : State σ) (dstrd : ℕ) : ℕ :=
  max (2 * (s.nsqa + 1)) (2 * (s.ncqa + 1) + 1) * 2 ^ (dstrd + 2) + 4

theorem inside_iff {a : DbconfigAnswers}
    (h : nvmeInitDbconfig ops pageshift s a = some (.ok (), s')) (q : QueueId) (dstrd : ℕ) :
    q.Inside s' dstrd ↔ 0 ≤ q.offset dstrd ∧ q.offset dstrd + 4 ≤ 2 ^ pageshift := by
  obtain ⟨hshift, hlen, hlen', -⟩ := nvmeInitDbconfig_pages h
  rw [QueueId.Inside, hlen, hlen', bytes_subset_iff q _ hshift, bytes_subset_iff q _ hshift,
    and_self_iff]

theorem slotsEnd_le_iff (s : State σ) (dstrd : ℕ) (size : ℕ) :
    (∀ type, (QueueId.mk type (s.granteds type + 1 : ℕ)).index * 2 ^ (dstrd + 2) + 4 ≤ (size : ℤ)) ↔
      s.slotsEnd dstrd ≤ size := by
  have hmul := Nat.mul_max_mul_right (2 * (s.nsqa + 1)) (2 * (s.ncqa + 1) + 1) (2 ^ (dstrd + 2))
  have hboth : s.slotsEnd dstrd ≤ size ↔ 2 * (s.nsqa + 1) * 2 ^ (dstrd + 2) + 4 ≤ size ∧
      (2 * (s.ncqa + 1) + 1) * 2 ^ (dstrd + 2) + 4 ≤ size := by
    rw [State.slotsEnd]
    omega
  rw [hboth]
  constructor
  · intro h
    have hsq := h .sq
    have hcq := h .cq
    simp only [QueueId.index, State.granteds] at hsq hcq
    exact ⟨by exact_mod_cast hsq, by exact_mod_cast hcq⟩
  · rintro ⟨hsq, hcq⟩ type
    cases type <;> simp only [QueueId.index, State.granteds]
    · exact_mod_cast hsq
    · exact_mod_cast hcq

theorem offset_neg {dstrd : ℕ} (hdstrd : dstrd ≤ 15) : (QueueId.mk .sq (-1)).offset dstrd < 0 := by
  have hstride : (0 : ℤ) < 2 ^ (dstrd + 2) := by positivity
  have hlarge : (2 : ℤ) ^ (dstrd + 2) ≤ 2 ^ 17 := pow_le_pow_right₀ (by decide) (by omega)
  rw [QueueId.offset, QueueId.index]
  dsimp only
  rw [Int.bmod_eq_of_le (by omega) (by omega)]
  omega

/-- With identifiers from `lo` on, the slots of different queues do not overlap if and only if
the offsets take less than `2 ^ 32` bytes, and they lie inside the buffers of the shadow
doorbells if and only if there are no negative identifiers and all offsets are below the size of
a page, and that of an `int`. -/
theorem doorbell_slots_iff (s : State σ) {cap : U64} (hcap : cap ≠ -1) {lo : ℤ} (hlo : lo ≤ 0) :
    ((∀ (doorbells : U64) (q q' : QueueId), q.Accepted s cap → q'.Accepted s cap → lo ≤ q.qid →
        lo ≤ q'.qid → q ≠ q' →
        (q.bytes doorbells (capDstrd cap)).Disjoint (q'.bytes doorbells (capDstrd cap))) ↔
      max s.nsqa s.ncqa + 1 - lo < 2 ^ (29 - capDstrd cap)) ∧
    ∀ (ops : IommuCtxOps σ) (pageshift : ℕ) (a : DbconfigAnswers) (s' : State σ),
      nvmeInitDbconfig ops pageshift s a = some (.ok (), s') →
      ((∀ q : QueueId, q.Accepted s' cap → lo ≤ q.qid → q.Inside s' (capDstrd cap)) ↔
        lo = 0 ∧ s'.slotsEnd (capDstrd cap) ≤ min (2 ^ pageshift) (2 ^ 31)) := by
  refine ⟨disjoint_slots_iff hcap hlo, fun ops pageshift a s' h => ?_⟩
  have hdstrd := capDstrd_le cap
  generalize capDstrd cap = dstrd at hdstrd ⊢
  have hall : (∀ q : QueueId, q.Accepted s' cap → lo ≤ q.qid → q.Inside s' dstrd) ↔
      ∀ type, ∀ qid : ℤ, lo ≤ qid → qid ≤ (s'.granteds type + 1 : ℕ) →
        0 ≤ (QueueId.mk type qid).offset dstrd ∧
          (QueueId.mk type qid).offset dstrd + 4 ≤ 2 ^ pageshift := by
    constructor
    · intro hinside type qid hle hqid
      rw [← inside_iff h]
      exact hinside ⟨type, qid⟩ ((accepted_iff hcap).mpr (by exact_mod_cast hqid)) hle
    · intro hinside q hq hle
      rw [inside_iff h]
      exact hinside q.type q.qid hle (by rw [accepted_iff hcap] at hq; exact_mod_cast hq)
  rw [hall]
  rcases hlo.lt_or_eq with hneg | rfl
  · refine iff_of_false (fun hinside => ?_) fun hzero => hneg.ne hzero.1
    have hoffset := (hinside .sq (-1) (by omega) (by omega)).1
    exact absurd hoffset (not_le.mpr (offset_neg hdstrd))
  · have hsize : (min (2 ^ pageshift) (2 ^ 31) : ℤ) = (min (2 ^ pageshift) (2 ^ 31) : ℕ) := by
      push_cast
      rfl
    simp only [inside_upTo_iff _ _ hdstrd, true_and, hsize]
    exact slotsEnd_le_iff s' dstrd _

end Buffers

def manyQueues : State Unit :=
  { State.init (identityCtx fun _ => true) with nsqa := 63, ncqa := 63 }

theorem doorbell_slots_iff_largest_stride :
    let sq : QueueId := ⟨.sq, 64⟩
    let cq : QueueId := ⟨.cq, 64⟩
    sq.Accepted manyQueues 0xf00000000 ∧ cq.Accepted manyQueues 0xf00000000 ∧
      (sq.bytes 0x80000 15).Disjoint (cq.bytes 0x80000 15) := by
  have hsq : (QueueId.mk .sq 64).Accepted manyQueues 0xf00000000 := ⟨2, by decide⟩
  have hcq : (QueueId.mk .cq 64).Accepted manyQueues 0xf00000000 := ⟨2, by decide⟩
  have hiff := (doorbell_slots_iff manyQueues (by decide : (0xf00000000 : U64) ≠ -1) le_rfl).1
  exact ⟨hsq, hcq, hiff.mpr (by decide) 0x80000 _ _ hsq hcq (by decide) (by decide) nofun⟩

/-- With the default options, 64 queues of each type and 32 bytes between neighbours, the slot of
the last completion queue lies behind the buffer. With the largest stride, the offset of the
submission queue 16384 is that of the first one, and the identifier `-1` is accepted. -/
theorem doorbell_slot_outside :
    let run := Runs.run (lifeStep identityOps 12) (State.init (identityCtx fun _ => true))
    let cap : U64 := 0x300000000
    let init := LifeCall.init none { dbbufAnswers with
      cap := cap, features := .ok 0x3f003f, dbconfig := ⟨.ok 0x80000, .ok 0x81000, .ok (), cap⟩ }
    let create := LifeCall.create (.iocq 64 2 (-1) ⟨cap, .ok 0x90000⟩ (.ok ()))
    (run [init, create]).map (fun s => (s.doorbells.vaddr, s.doorbells.len)) =
        some (0x80000, 0x1000) ∧
      (run [init, create]).map (fun s => (s.cq 64).dbbuf.doorbell) = some (some 0x81020) ∧
      configureCheck 16383 16384 2 0xf00000000 = .ok () ∧
      sqtdbl 0x80000 16384 15 = sqtdbl 0x80000 0 15 ∧
      configureCheck 0 (-1) 2 0 = .ok () ∧ sqtdbl 0x80000 (-1) 0 = 0x7fff8 := by
  decide +kernel

end Ctrl

end Nvme

end Libvfn
