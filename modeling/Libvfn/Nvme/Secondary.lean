import Libvfn.Nvme.Ctrl

/-!
# The secondary controllers

`nvme_get_vf_cntlid` asks the controller for the list of its secondary controllers and looks
up the one of a virtual function. The list has a byte with the number of entries, and room for
127 of them. What the device has written is arbitrary, and so is the memory behind it.

With the result goes the list of the bytes that were read, as offsets into the buffer.
-/

namespace Libvfn

namespace Nvme

open Word Support Iommu

def nvmeIdentifyDataSize : ℕ := 4096

def nvmeIdSecondaryCtrlMax : ℕ := 127

abbrev Bytes := ℕ → BitVec 8

def le16 (mem : Bytes) (offset : ℕ) : BitVec 16 := mem (offset + 1) ++ mem offset

def le16Bytes (offset : ℕ) : List ℕ := [offset, offset + 1]

/-- The offset of an entry of `struct nvme_secondary_ctrl_list`, an array of 32-byte entries
behind a header of the same size. -/
def scEntry (i : ℕ) : ℕ := 32 + 32 * i

def scid (mem : Bytes) (i : ℕ) : BitVec 16 := le16 mem (scEntry i)

def vfn (mem : Bytes) (i : ℕ) : BitVec 16 := le16 mem (scEntry i + 8)

/-- The loop of `nvme_get_vf_cntlid`, over the indices that are left. The number of entries is
read before each round. -/
def scanEntries (mem : Bytes) (vfnum : ℤ) : List ℕ → Except Errno (BitVec 16) × List ℕ
  | [] => (.error .ENOENT, [0])
  | i :: is =>
      let reads := 0 :: le16Bytes (scEntry i + 8)
      if (vfn mem i).toNat = vfnum then (.ok (scid mem i), reads ++ le16Bytes (scEntry i))
      else
        let r := scanEntries mem vfnum is
        (r.1, reads ++ r.2)

/-- `nvme_get_vf_cntlid`. The command is rejected, or there is a list in the buffer; the buffer
is put at the end of its scope. -/
def nvmeGetVfCntlid {σ : Type*} (ops : IommuCtxOps σ) (pageshift : ℕ) (ctx : IommuCtx σ)
    (vfnum : ℤ) (mmap : Except Errno U64) (admin : Except Errno Bytes) :
    Option ((Except Errno (BitVec 16) × List ℕ) × IommuCtx σ) :=
  match Iommu.iommuGetDmabuf ops (Ctrl.vfnPagesize pageshift) ctx .zeroed
    (BitVec.ofNat 64 nvmeIdentifyDataSize) iommuMapEphemeral mmap with
  | (.error e, buffer, ctx) =>
      (Iommu.iommuPutDmabuf ops ctx buffer).map fun p => ((.error e, []), p.2)
  | (.ok _, buffer, ctx) =>
      let r :=
        match admin with
        | .error e => (.error e, [])
        | .ok mem => scanEntries mem vfnum (List.range (mem 0).toNat)
      (Iommu.iommuPutDmabuf ops ctx buffer).map fun p => (r, p.2)

def listedScid (mem : Bytes) (vfnum : ℤ) : Except Errno (BitVec 16) :=
  match (List.range (min (mem 0).toNat nvmeIdSecondaryCtrlMax)).find? fun i =>
    (vfn mem i).toNat = vfnum with
  | none => .error .ENOENT
  | some i => .ok (scid mem i)

section Scan

variable {mem : Bytes} {vfnum : ℤ}

theorem scanEntries_fst (mem : Bytes) (vfnum : ℤ) (is : List ℕ) :
    (scanEntries mem vfnum is).1 =
      match is.find? fun i => (vfn mem i).toNat = vfnum with
      | none => .error .ENOENT
      | some i => .ok (scid mem i) := by
  induction is with
  | nil => rfl
  | cons i is ih =>
      rw [scanEntries]
      split_ifs with hi
      · rw [List.find?_cons_of_pos (by simpa using hi)]
      · rw [List.find?_cons_of_neg (by simpa using hi)]
        exact ih

/-- The entries of the list lie inside the data. -/
theorem scanEntries_inside {is : List ℕ} (his : ∀ i ∈ is, i < nvmeIdSecondaryCtrlMax) :
    ∀ b ∈ (scanEntries mem vfnum is).2, b < nvmeIdentifyDataSize := by
  induction is with
  | nil => simp [scanEntries, nvmeIdentifyDataSize]
  | cons i is ih =>
      have hi : i < 127 := his i List.mem_cons_self
      have hrest := ih fun j hj => his j (List.mem_cons_of_mem i hj)
      intro b hb
      rw [scanEntries] at hb
      simp only [nvmeIdentifyDataSize] at hrest ⊢
      split_ifs at hb
      · simp only [le16Bytes, scEntry, List.cons_append, List.nil_append, List.mem_cons,
          List.not_mem_nil, or_false] at hb
        omega
      · simp only [le16Bytes, scEntry, List.cons_append, List.nil_append, List.mem_cons] at hb
        rcases hb with rfl | rfl | rfl | hb
        · omega
        · omega
        · omega
        · exact hrest b hb

theorem scanEntries_append {is js : List ℕ} (h : ∃ i ∈ is, (vfn mem i).toNat = vfnum) :
    scanEntries mem vfnum (is ++ js) = scanEntries mem vfnum is := by
  induction is with
  | nil => simp at h
  | cons i is ih =>
      rw [List.cons_append, scanEntries, scanEntries]
      split_ifs with hi
      · rfl
      · obtain ⟨j, hj, hmatch⟩ := h
        rcases List.mem_cons.mp hj with rfl | hj
        · exact absurd hmatch hi
        · rw [ih ⟨j, hj, hmatch⟩]

theorem mem_scanEntries {is js : List ℕ} {j : ℕ} (h : ∀ i ∈ is, ¬(vfn mem i).toNat = vfnum) :
    scEntry j + 8 ∈ (scanEntries mem vfnum (is ++ j :: js)).2 := by
  induction is with
  | nil =>
      rw [List.nil_append, scanEntries]
      split_ifs <;> simp [le16Bytes]
  | cons i is ih =>
      rw [List.cons_append, scanEntries, if_neg (h i List.mem_cons_self)]
      exact List.mem_append_right _ (ih fun k hk => h k (List.mem_cons_of_mem i hk))

/-- The loop stays inside the data and finds what the list has if and only if the number of
entries is not too large, or there is a match before the end of the data. -/
theorem scanEntries_exact_iff (mem : Bytes) (vfnum : ℤ) :
    (∀ b ∈ (scanEntries mem vfnum (List.range (mem 0).toNat)).2, b < nvmeIdentifyDataSize) ∧
        (scanEntries mem vfnum (List.range (mem 0).toNat)).1 = listedScid mem vfnum ↔
      (mem 0).toNat ≤ nvmeIdSecondaryCtrlMax ∨
        ∃ i < nvmeIdSecondaryCtrlMax, (vfn mem i).toNat = vfnum := by
  rcases le_or_gt (mem 0).toNat nvmeIdSecondaryCtrlMax with hnum | hnum
  · refine iff_of_true ⟨scanEntries_inside fun i hi => ?_, ?_⟩ (.inl hnum)
    · exact (List.mem_range.mp hi).trans_le hnum
    · rw [scanEntries_fst, listedScid, min_eq_left hnum]
  · obtain ⟨k, hk⟩ := Nat.exists_eq_add_of_lt hnum
    obtain ⟨js, hsplit⟩ : ∃ js, List.range (mem 0).toNat =
        List.range nvmeIdSecondaryCtrlMax ++ nvmeIdSecondaryCtrlMax :: js := by
      rw [hk, add_assoc, List.range_add, List.range_succ_eq_map]
      exact ⟨_, rfl⟩
    rw [hsplit]
    constructor
    · rintro ⟨hinside, -⟩
      by_contra hno
      rw [not_or, not_exists] at hno
      have hread := hinside _ (mem_scanEntries fun i hi hmatch =>
        hno.2 i ⟨List.mem_range.mp hi, hmatch⟩)
      simp [scEntry, nvmeIdSecondaryCtrlMax, nvmeIdentifyDataSize] at hread
    · rintro (hle | ⟨i, hi, hmatch⟩)
      · exact absurd hle (not_le.mpr hnum)
      · rw [scanEntries_append ⟨i, List.mem_range.mpr hi, hmatch⟩]
        refine ⟨scanEntries_inside fun j hj => List.mem_range.mp hj, ?_⟩
        rw [scanEntries_fst, listedScid, min_eq_right hnum.le]

end Scan

/-- For every list that the controller returns, only bytes of it are read and the result is the
one that the list has, if and only if the number of entries is at most 127 or one of the first
127 entries is that of the virtual function. -/
theorem nvmeGetVfCntlid_exact_iff {σ : Type*} {ops : IommuCtxOps σ} {pageshift : ℕ}
    {ctx ctx₁ ctx' : IommuCtx σ} {vfnum : ℤ} {mmap : Except Errno U64} {buffer : Iommu.IommuDmabuf}
    {mem : Bytes} {res : Except Errno (BitVec 16)} {reads : List ℕ}
    (hbuffer : Iommu.iommuGetDmabuf ops (Ctrl.vfnPagesize pageshift) ctx .zeroed
      (BitVec.ofNat 64 nvmeIdentifyDataSize) iommuMapEphemeral mmap = (.ok (), buffer, ctx₁))
    (h : nvmeGetVfCntlid ops pageshift ctx vfnum mmap (.ok mem) = some ((res, reads), ctx')) :
    (∀ b ∈ reads, b < nvmeIdentifyDataSize) ∧ res = listedScid mem vfnum ↔
      (mem 0).toNat ≤ nvmeIdSecondaryCtrlMax ∨
        ∃ i < nvmeIdSecondaryCtrlMax, (vfn mem i).toNat = vfnum := by
  rw [nvmeGetVfCntlid, hbuffer] at h
  obtain ⟨p, -, hpair⟩ := Option.map_eq_some_iff.mp h
  obtain ⟨hscan, -⟩ := Prod.mk.inj hpair
  have hexact := scanEntries_exact_iff mem vfnum
  rw [hscan] at hexact
  exact hexact

def threeControllers : Bytes := fun b =>
  if b = 0 then 3 else if b = scEntry 2 then 7 else if b = scEntry 2 + 8 then 2 else 0

theorem nvmeGetVfCntlid_exact_iff_three :
    ∃ reads ctx', nvmeGetVfCntlid identityOps 12 (identityCtx fun _ => true) 2 (.ok 0x10000)
        (.ok threeControllers) = some ((.ok 7, reads), ctx') ∧
      (∀ b ∈ reads, b < nvmeIdentifyDataSize) ∧ .ok 7 = listedScid threeControllers 2 := by
  have h : nvmeGetVfCntlid identityOps 12 (identityCtx fun _ => true) 2 (.ok 0x10000)
      (.ok threeControllers) = some ((.ok 7, _), _) := rfl
  exact ⟨_, _, h, (nvmeGetVfCntlid_exact_iff rfl h).mpr (.inl (by decide))⟩

/-- The device says that there are 128 entries. The last one is behind the data, and what is
there passes for the controller of the virtual function. -/
theorem nvmeGetVfCntlid_reads_behind :
    let mem : Bytes := fun b => if b = 0 then 128 else if b = 4096 + 8 then 1 else 0
    (nvmeGetVfCntlid identityOps 12 (identityCtx fun _ => true) 1 (.ok 0x10000) (.ok mem)).map
        (fun r => (r.1.1, r.1.2.getLast?)) = some (.ok 0, some 4097) ∧
      listedScid mem 1 = .error .ENOENT := by
  decide +kernel

end Nvme

end Libvfn
