import Libvfn.Iommu.Intervals

/-!
# Translating there and back

One direction of the translation searches the skip list for a virtual address, the other
scans its lowest level for an I/O virtual address. If the mappings are disjoint on both sides
and do not wrap around, they are inverse to each other, and each fails on the addresses that
no mapping covers. The scan reads the payload of the sentinel too, which has to be read as an
empty mapping for this.
-/

namespace Libvfn

namespace Iommu

open Word Support Util Spans Linked

/-- The mapping covers the I/O virtual address, as the scan tests it. -/
def IovaMapping.Hits (m : IovaMapping) (iova : U64) : Prop :=
  m.iova ≤ iova ∧ iova < m.iova + m.len

instance (m : IovaMapping) (iova : U64) : Decidable (m.Hits iova) :=
  inferInstanceAs (Decidable (_ ∧ _))

def IovaMapping.back (m : IovaMapping) (iova : U64) : U64 × ℤ :=
  (m.vaddr + (iova - m.iova), (m.len - (iova - m.iova)).toInt)

variable {map : IovaMap} {xs : List ℕ} {m : IovaMapping} {vaddr iova : U64}

theorem translateIovaFrom_eq (mapping : Node ℕ → IovaMapping) (iova : U64) (ns : List (Node ℕ)) :
    translateIovaFrom mapping iova ns =
      ((ns.map mapping).find? fun m => m.Hits iova).elim (.error .EINVAL)
        fun m => .ok (m.back iova) := by
  induction ns with
  | nil => rfl
  | cons n ns ih =>
      have hstep : translateIovaFrom mapping iova (n :: ns) =
          if (mapping n).Hits iova then .ok ((mapping n).back iova)
          else translateIovaFrom mapping iova ns := rfl
      rw [hstep, List.map_cons, List.find?_cons]
      by_cases hhits : (mapping n).Hits iova
      · rw [if_pos hhits, decide_eq_true hhits]
        rfl
      · rw [if_neg hhits, decide_eq_false hhits]
        exact ih

theorem not_hits_of_len (hlen : m.len = 0) (iova : U64) : ¬m.Hits iova := by
  rintro ⟨hle, hlt⟩
  rw [hlen, add_zero] at hlt
  exact (BitVec.le_def.mp hle).not_gt (BitVec.lt_def.mp hlt)

theorem Mapped.translateIova_eq (h : Mapped map xs) (hsent : (map.mapping .sentinel).len = 0)
    (iova : U64) :
    iommuTranslateIova map iova =
      (map.held.find? fun m => m.Hits iova).elim (.error .EINVAL) fun m => .ok (m.back iova) := by
  rw [iommuTranslateIova, translateIovaFrom_eq, IovaMap.held, h.holds.heads_zero, toHeads,
    List.map_cons, List.find?_cons, decide_eq_false (not_hits_of_len hsent iova), List.tail_cons]

theorem hits_iff (hsmall : m.iova.toNat + m.len.toNat < 2 ^ 64) :
    m.Hits iova ↔ iova.toNat ∈ addresses m.iova m.len := by
  rw [IovaMapping.Hits, BitVec.le_def, BitVec.lt_def, BitVec.toNat_add_of_lt hsmall]
  rfl

/-- The mappings can be told apart by their I/O virtual addresses, none of which wrap around. -/
structure Invertible (map : IovaMap) : Prop where
  disjoint : (map.held.map fun m => addresses m.iova m.len).Pairwise Disjoint
  small : ∀ m ∈ map.held, m.iova.toNat + m.len.toNat < 2 ^ 64

/-- The scan finds the mapping that covers an address. -/
theorem Invertible.find_eq (h : Invertible map) (hm : m ∈ map.held)
    (hin : iova.toNat ∈ addresses m.iova m.len) :
    map.held.find? (fun m => m.Hits iova) = some m := by
  cases hfind : map.held.find? fun m => m.Hits iova with
  | none =>
      have hnot := List.find?_eq_none.mp hfind m hm
      rw [decide_eq_true_iff] at hnot
      exact absurd ((hits_iff (h.small m hm)).mpr hin) hnot
  | some m' =>
      have hm' := List.mem_of_find?_eq_some hfind
      have hhits := List.find?_some hfind
      rw [decide_eq_true_iff, hits_iff (h.small m' hm')] at hhits
      by_contra hne
      have hsymm : Std.Symm fun m m' : IovaMapping =>
          Disjoint (addresses m.iova m.len) (addresses m'.iova m'.len) := ⟨fun _ _ hd => hd.symm⟩
      have hdisjoint := (List.pairwise_map.mp h.disjoint).forall hm' hm
        fun heq => hne (congrArg some heq)
      exact Set.disjoint_left.mp hdisjoint hhits hin

theorem Invertible.find_eq_none_iff (h : Invertible map) :
    map.held.find? (fun m => m.Hits iova) = none ↔
      ∀ m ∈ map.held, iova.toNat ∉ addresses m.iova m.len := by
  rw [List.find?_eq_none]
  refine forall₂_congr fun m hm => ?_
  rw [decide_eq_true_iff, hits_iff (h.small m hm)]

theorem toInt_rest {len off : U64} (hoff : off.toNat < len.toNat) (hlen : len.toNat < 2 ^ 63) :
    (len - off).toInt = (len.toNat - off.toNat : ℕ) := by
  have hsub := BitVec.toNat_sub_of_le (BitVec.le_def.mpr hoff.le)
  rw [BitVec.toInt_eq_toNat_of_lt (by omega), hsub]

theorem toNat_offset {base other len x : U64} (hin : x.toNat ∈ addresses base len)
    (hsmall : other.toNat + len.toNat < 2 ^ 64) :
    (x - base).toNat = x.toNat - base.toNat ∧ (x - base).toNat < len.toNat ∧
      (other + (x - base)).toNat ∈ addresses other len := by
  obtain ⟨hle, hlt⟩ := hin
  have hsub := BitVec.toNat_sub_of_le (BitVec.le_def.mpr hle)
  have hadd : (other + (x - base)).toNat = other.toNat + (x - base).toNat :=
    BitVec.toNat_add_of_lt (by omega)
  exact ⟨hsub, by omega, by rw [hadd]; exact ⟨by omega, by omega⟩⟩

/-- The two translations are inverse to each other, and fail on the addresses that no mapping
covers. -/
theorem translate_round_trip (h : Mapped map xs) (hsent : (map.mapping .sentinel).len = 0)
    (hlen : ∀ m ∈ map.held, m.len.toNat < 2 ^ 63)
    (hdisjoint : (map.held.map fun m => addresses m.iova m.len).Pairwise Disjoint)
    (hsmall : ∀ m ∈ map.held, m.iova.toNat + m.len.toNat < 2 ^ 64) :
    (∀ m ∈ map.held, ∀ vaddr : U64, vaddr.toNat ∈ addresses m.vaddr m.len →
        ∃ iova, iommuTranslateVaddr map vaddr = some iova ∧
          iommuTranslateIova map iova =
            .ok (vaddr, (m.len.toNat - (vaddr.toNat - m.vaddr.toNat) : ℕ)) ∧
          0 < m.len.toNat - (vaddr.toNat - m.vaddr.toNat)) ∧
      (∀ m ∈ map.held, ∀ iova : U64, iova.toNat ∈ addresses m.iova m.len →
        ∃ vaddr size, iommuTranslateIova map iova = .ok (vaddr, size) ∧
          iommuTranslateVaddr map vaddr = some iova) ∧
      (∀ vaddr : U64, iommuTranslateVaddr map vaddr = none ↔
        ∀ m ∈ map.held, vaddr.toNat ∉ addresses m.vaddr m.len) ∧
      ∀ iova : U64, iommuTranslateIova map iova = .error .EINVAL ↔
        ∀ m ∈ map.held, iova.toNat ∉ addresses m.iova m.len := by
  have hinv : Invertible map := ⟨hdisjoint, hsmall⟩
  refine ⟨fun m hm vaddr hin => ?_, fun m hm iova hin => ?_, fun vaddr => ?_, fun iova => ?_⟩
  · obtain ⟨hoff, hlt, hin'⟩ := toNat_offset hin (hsmall m hm)
    refine ⟨_, h.translate_eq_some_iff.mpr ⟨m, hm, hin, rfl⟩, ?_, by omega⟩
    rw [h.translateIova_eq hsent, hinv.find_eq hm hin', Option.elim_some, IovaMapping.back,
      add_sub_cancel_left, add_sub_cancel, toInt_rest hlt (hlen m hm), hoff]
  · have hend : m.vaddr.toNat + m.len.toNat < 2 ^ 64 := by
      rw [h.held_eq] at hm
      obtain ⟨i, hi, rfl⟩ := List.mem_map.mp hm
      exact h.small i hi
    obtain ⟨-, -, hin'⟩ := toNat_offset hin hend
    refine ⟨_, _, by rw [h.translateIova_eq hsent, hinv.find_eq hm hin]; rfl, ?_⟩
    refine h.translate_eq_some_iff.mpr ⟨m, hm, hin', ?_⟩
    rw [add_sub_cancel_left, add_sub_cancel]
  · rw [Option.eq_none_iff_forall_ne_some]
    constructor
    · intro hnone m hm hin
      exact hnone _ (h.translate_eq_some_iff.mpr ⟨m, hm, hin, rfl⟩)
    · intro hout iova hsome
      obtain ⟨m, hm, hin, -⟩ := h.translate_eq_some_iff.mp hsome
      exact hout m hm hin
  · rw [h.translateIova_eq hsent, ← hinv.find_eq_none_iff]
    cases map.held.find? fun m => m.Hits iova with
    | none => exact iff_of_true rfl rfl
    | some m => exact iff_of_false (by simp) (Option.some_ne_none m)

/-- One mapping, an address in it, and the way there and back. -/
theorem translate_round_trip_one_page :
    let map := iovaMapLink (iovaMapInit (fun _ => true) ⟨0, 0, 0, 0⟩) ⟨0x2000, 0x1000, 0x8000, 0⟩
    iommuTranslateVaddr map 0x2800 = some 0x8800 ∧
      ∃ iova, iommuTranslateVaddr map 0x2800 = some iova ∧
        iommuTranslateIova map iova = .ok (0x2800, 0x800) := by
  intro map
  obtain ⟨xs, h, -⟩ : ∃ xs, Mapped map xs ∧ _ :=
    (mapped_init (fun _ => true) ⟨0, 0, 0, 0⟩).link (m := ⟨0x2000, 0x1000, 0x8000, 0⟩)
      (by decide) ⟨by decide, fun m hm => absurd hm List.not_mem_nil⟩
  have hheld : map.held = [⟨0x2000, 0x1000, 0x8000, 0⟩] := by decide +kernel
  obtain ⟨hthere, -⟩ := translate_round_trip h rfl (by rw [hheld]; decide)
    (by rw [hheld]; exact List.pairwise_singleton _ _) (by rw [hheld]; decide)
  obtain ⟨iova, hvaddr, hiova, -⟩ := hthere ⟨0x2000, 0x1000, 0x8000, 0⟩ (by rw [hheld]; simp)
    0x2800 ⟨by decide, by decide⟩
  exact ⟨by decide +kernel, iova, hvaddr, hiova⟩

end Iommu

end Libvfn
