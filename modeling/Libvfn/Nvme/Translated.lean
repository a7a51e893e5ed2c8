import Libvfn.Iommu.Request
import Libvfn.Nvme.Prp.Validate
import Libvfn.Nvme.Sgl

/-!
# Data pointers built from virtual addresses

The vector functions look up the first byte of each segment and take the segment to continue
from there. So the controller reads the segments at the addresses of their first bytes
(`nvmeMapvPrp_resolved`, `nvmeMapvSgl_resolved`), and these are the translations of all bytes if
and only if each segment translates as a whole.
-/

namespace Libvfn

namespace Nvme

open Word Support Iommu

def iovecBytes (vs : List Iovec) : List U64 :=
  vs.flatMap fun v => byteRange v.iovBase v.iovLen.toNat

def iovecLength (vs : List Iovec) : ℕ := (vs.map fun v => v.iovLen.toNat).sum

def sglBytes (read : U64 → NvmeSgld) (dptr : Dptr) : Option (List U64) :=
  (sglBlocks read dptr).map fun blocks => blocks.flatMap fun b => byteRange b.1 b.2

/-- What is read are the translations of the bytes of the vector, in order. -/
def ReadsTranslated (map : IovaMap) (vs : List Iovec) (read : Option (List U64)) : Prop :=
  ∃ bytes, read = some bytes ∧ bytes.map some = (iovecBytes vs).map (iommuTranslateVaddr map)

variable {map : IovaMap} {vs : List Iovec} {ws : List IovaVec}

/-! ## Bytes -/

theorem translatesAll_iff {vaddr len iova : U64} :
    TranslatesAll map vaddr len iova ↔
      (byteRange iova len.toNat).map some =
        (byteRange vaddr len.toNat).map (iommuTranslateVaddr map) := by
  rw [byteRange, byteRange, List.map_map, List.map_map, List.map_inj_left]
  constructor
  · intro hall i hi
    have hlt := List.mem_range.mp hi
    refine (hall (BitVec.ofNat 64 i) (BitVec.lt_def.mpr ?_)).symm
    rwa [BitVec.toNat_ofNat, Nat.mod_eq_of_lt (by omega)]
  · intro hall o ho
    have heq := hall o.toNat (List.mem_range.mpr (BitVec.lt_def.mp ho))
    rw [Function.comp_apply, Function.comp_apply, BitVec.ofNat_toNat, BitVec.setWidth_eq] at heq
    exact heq.symm

theorem exists_translatesAll_iff {vaddr len iova : U64}
    (hfirst : iommuTranslateVaddr map vaddr = some iova) :
    (∃ iova, TranslatesAll map vaddr len iova) ↔ TranslatesAll map vaddr len iova := by
  refine ⟨?_, fun hall => ⟨iova, hall⟩⟩
  rintro ⟨got, hall⟩
  by_cases hlen : len = 0
  · intro o ho
    rw [hlen] at ho
    exact absurd ho BitVec.not_lt_zero
  · rwa [Option.some.inj (hfirst.symm.trans (hall.first hlen))]

theorem iovecLength_eq (h : List.Forall₂ (Translates map) vs ws) :
    iovecLength vs = vecLength ws := by
  induction h with
  | nil => rfl
  | cons hvw _ ih =>
      rw [iovecLength, vecLength] at ih ⊢
      rw [List.map_cons, List.map_cons, List.sum_cons, List.sum_cons, ih, hvw.2]

/-- The bytes behind the first bytes of the segments are the translations if and only if each
segment translates as a whole. -/
theorem vecBytes_translated_iff (h : List.Forall₂ (Translates map) vs ws) :
    (vecBytes ws).map some = (iovecBytes vs).map (iommuTranslateVaddr map) ↔
      ∀ v ∈ vs, ∃ iova, TranslatesAll map v.iovBase v.iovLen iova := by
  induction h with
  | nil => exact iff_of_true rfl (by simp)
  | @cons v w vs ws hvw _ ih =>
      have hlength : ((byteRange w.iova w.len.toNat).map some).length =
          ((byteRange v.iovBase w.len.toNat).map (iommuTranslateVaddr map)).length := by
        simp [byteRange]
      rw [List.forall_mem_cons, ← ih, exists_translatesAll_iff hvw.1, translatesAll_iff,
        vecBytes_cons, iovecBytes, List.flatMap_cons, ← iovecBytes, List.map_append,
        List.map_append, hvw.2]
      exact ⟨fun heq => List.append_inj heq hlength, fun heq => by rw [heq.1, heq.2]⟩

theorem readsTranslated_iff (h : List.Forall₂ (Translates map) vs ws) {read : Option (List U64)}
    (hread : read = some (vecBytes ws)) :
    ReadsTranslated map vs read ↔ ∀ v ∈ vs, ∃ iova, TranslatesAll map v.iovBase v.iovLen iova := by
  rw [← vecBytes_translated_iff h, ReadsTranslated, hread]
  constructor
  · rintro ⟨bytes, hbytes, heq⟩
    rwa [Option.some.inj hbytes]
  · exact fun heq => ⟨_, rfl, heq⟩

theorem forall_len_of_translates (h : List.Forall₂ (Translates map) vs ws) (P : U64 → Prop)
    (hlen : ∀ v ∈ vs, P v.iovLen) : ∀ w ∈ ws, P w.len := by
  induction h with
  | nil => simp
  | cons hvw _ ih =>
      obtain ⟨hv, hvs⟩ := List.forall_mem_cons.mp hlen
      exact List.forall_mem_cons.mpr ⟨hvw.2 ▸ hv, ih hvs⟩

/-! ## Region pages -/

theorem mapvSegments_resolved {pageshift : ℕ} {c c' : PrpCursor} {n m : ℤ}
    (hok : mapvSegments (fun v : Iovec => iommuTranslateVaddr map v.iovBase) Iovec.iovLen pageshift
      c n vs = (.ok m, c')) :
    ∃ ws, List.Forall₂ (Translates map) vs ws := by
  induction vs generalizing c n with
  | nil => exact ⟨[], .nil⟩
  | cons v vs ih =>
      rw [mapvSegments] at hok
      cases hv : iommuTranslateVaddr map v.iovBase with
      | none =>
          rw [hv] at hok
          cases (Prod.mk.inj hok).1
      | some iova =>
          rw [hv] at hok
          dsimp only at hok
          split_ifs at hok
          · cases (Prod.mk.inj hok).1
          · cases (Prod.mk.inj hok).1
          · obtain ⟨ws, hws⟩ := ih hok
            exact ⟨⟨iova, v.iovLen⟩ :: ws, .cons ⟨hv, rfl⟩ hws⟩

theorem mapvPrp_ok {α : Type*} {resolve : α → Option U64} {length : α → U64} {pageshift : ℕ}
    {held : ℕ → U64} {c : PrpCursor} {cmd : NvmeCmd} {iova len : U64} {rest : List α}
    (hret : (mapvPrp resolve length pageshift held c cmd iova len rest).ret = .ok ()) :
    ∃ d n m d', mapvSegments resolve length pageshift d n rest = (.ok m, d') := by
  rw [mapvPrp] at hret
  dsimp only at hret
  split_ifs at hret
  generalize mapPrpFirst c iova len pageshift rest.isEmpty = got at hret
  rcases hsegments : mapvSegments resolve length pageshift got.2 got.1 rest with ⟨e | m, d'⟩
  · rw [hsegments] at hret
    cases hret
  · exact ⟨_, _, m, d', hsegments⟩

/-- A call that succeeds has translated the first byte of each segment, and leaves what the
function for translated segments does. -/
theorem nvmeMapvPrp_resolved {ctrl : NvmeCtrl} {prplists : U64} {held : ℕ → U64} {nprplists : ℕ}
    {cmd : NvmeCmd} {first : Iovec} {rest : List Iovec}
    (hret : (nvmeMapvPrp ctrl prplists held nprplists cmd first rest).ret = .ok ()) :
    ∃ w ws prplistIova, List.Forall₂ (Translates ctrl.map) (first :: rest) (w :: ws) ∧
      iommuTranslateVaddr ctrl.map prplists = some prplistIova ∧
      nvmeMapvPrp ctrl prplists held nprplists cmd first rest =
        nvmeMapvIovaPrp ctrl prplists held nprplists cmd w ws := by
  have hparts := hret
  rw [nvmeMapvPrp] at hparts
  split_ifs at hparts
  cases hfirst : iommuTranslateVaddr ctrl.map first.iovBase with
  | none =>
      rw [hfirst] at hparts
      cases hparts
  | some iova =>
      rw [hfirst] at hparts
      cases hlists : iommuTranslateVaddr ctrl.map prplists with
      | none =>
          rw [hlists] at hparts
          cases hparts
      | some prplistIova =>
          rw [hlists] at hparts
          obtain ⟨_, _, _, _, hsegments⟩ := mapvPrp_ok hparts
          obtain ⟨ws, hws⟩ := mapvSegments_resolved hsegments
          have hall : List.Forall₂ (Translates ctrl.map) (first :: rest)
              (⟨iova, first.iovLen⟩ :: ws) := .cons ⟨hfirst, rfl⟩ hws
          exact ⟨⟨iova, first.iovLen⟩, ws, prplistIova, hall, rfl, nvmeMapvPrp_eq hlists hall⟩

theorem Accepted.length_le_listRoom {ctrl : NvmeCtrl} {base : U64} {nprplists : ℕ}
    {first : IovaVec} {rest : List IovaVec} (hn : 1 ≤ nprplists)
    (h : Accepted ctrl.pageshift (prpCursorInit base nprplists) first rest) :
    (vecEntries ctrl.pageshift first rest).length ≤ listRoom ctrl.pageshift nprplists := by
  have hk := ctrl.le_pageshift
  have hroom := putAll_iff_room (c := prpCursorInit base nprplists) (by omega) hn
    (.inr (.inl (maxPrpsOf_pos ctrl.pageshift)))
    (lastMarked_vecEntries ctrl.pageshift first rest)
  rw [← room_init base]
  exact hroom.mp h.fits

/-- Of a vector that region pages can describe, the controller reads the translations if and
only if each segment translates as a whole. -/
theorem nvmeMapvPrp_translated_iff {ctrl : NvmeCtrl} {prplists prplistIova : U64}
    {held : ℕ → U64} {nprplists : ℕ} {cmd : NvmeCmd} {first : Iovec} {rest : List Iovec}
    (hmapped : iommuTranslateVaddr ctrl.map prplists = some prplistIova)
    (haligned : 2 ^ ctrl.pageshift ∣ prplistIova.toNat)
    (hroom : listRoom ctrl.pageshift nprplists < 2 ^ 31)
    (hpos : ∀ v ∈ first :: rest, 0 < v.iovLen.toNat)
    (hlen : ∀ v ∈ first :: rest, v.iovLen.toNat < 2 ^ 31)
    (hdesc : ∀ w ws, List.Forall₂ (Translates ctrl.map) (first :: rest) (w :: ws) →
      Describable (2 ^ ctrl.pageshift) w ws ∧ LastFits (2 ^ ctrl.pageshift) ws)
    (hret : (nvmeMapvPrp ctrl prplists held nprplists cmd first rest).ret = .ok ()) :
    ReadsTranslated ctrl.map (first :: rest)
        (prpWalk
          (listRead prplistIova (nvmeMapvPrp ctrl prplists held nprplists cmd first rest).stores)
          (2 ^ ctrl.pageshift) (nvmeMapvPrp ctrl prplists held nprplists cmd first rest).cmd.dptr
          (iovecLength (first :: rest))) ↔
      ∀ v ∈ first :: rest, ∃ iova, TranslatesAll ctrl.map v.iovBase v.iovLen iova := by
  obtain ⟨w, ws, _, hall, -, heq⟩ := nvmeMapvPrp_resolved hret
  obtain ⟨hdesc, hfits⟩ := hdesc w ws hall
  rw [heq] at hret ⊢
  obtain ⟨hn, haccepted, -⟩ := nvmeMapvIovaPrp_ok hmapped hret
  have hsmall := haccepted.length_le_listRoom hn
  rw [iovecLength_eq hall]
  refine readsTranslated_iff hall ?_
  exact prpWalk_of_lastFits hmapped haligned
    (forall_len_of_translates hall (fun len => 0 < len.toNat) hpos) hdesc
    (forall_len_of_translates hall (fun len => len.toNat < 2 ^ 31) hlen) (by omega) hret hfits

/-! ## Descriptors -/

theorem sglFill_translate (h : List.Forall₂ (Translates map) vs ws) (dwordAlign : Bool)
    (seg : ℕ → NvmeSgld) (i : ℕ) :
    sglFill (fun v => iommuTranslateVaddr map v.iovBase) Iovec.iovLen dwordAlign seg i vs =
      sglFill (fun w => some w.iova) IovaVec.len dwordAlign seg i ws := by
  induction h generalizing seg i with
  | nil => rfl
  | cons hvw _ ih =>
      rw [sglFill, sglFill, hvw.1, hvw.2]
      simp only [ih]

theorem sglFill_resolved {dwordAlign : Bool} {seg seg' : ℕ → NvmeSgld} {i : ℕ}
    (hok : sglFill (fun v => iommuTranslateVaddr map v.iovBase) Iovec.iovLen dwordAlign seg i vs =
      (.ok (), seg')) :
    ∃ ws, List.Forall₂ (Translates map) vs ws := by
  induction vs generalizing seg i with
  | nil => exact ⟨[], .nil⟩
  | cons v vs ih =>
      rw [sglFill] at hok
      cases hv : iommuTranslateVaddr map v.iovBase with
      | none =>
          rw [hv] at hok
          cases (Prod.mk.inj hok).1
      | some iova =>
          rw [hv] at hok
          dsimp only at hok
          split_ifs at hok
          · cases (Prod.mk.inj hok).1
          · obtain ⟨ws, hws⟩ := ih hok
            exact ⟨⟨iova, v.iovLen⟩ :: ws, .cons ⟨hv, rfl⟩ hws⟩

/-- A call that succeeds has translated the first byte of each segment, and leaves what the
function for translated segments does. -/
theorem nvmeMapvSgl_resolved {ctrl : NvmeCtrl} {seg : ℕ → NvmeSgld} {segIova : U64}
    {cmd : NvmeCmd} (hret : (nvmeMapvSgl ctrl seg segIova cmd vs).ret = .ok ()) :
    ∃ ws, List.Forall₂ (Translates ctrl.map) vs ws ∧
      nvmeMapvSgl ctrl seg segIova cmd vs = nvmeMapvIovaSgl ctrl seg segIova cmd ws := by
  by_cases hone : vs.length = 1
  · obtain ⟨v, rfl⟩ := List.length_eq_one_iff.mp hone
    cases hv : iommuTranslateVaddr ctrl.map v.iovBase with
    | none =>
        rw [nvmeMapvSgl, mapvSgl, hv] at hret
        cases hret
    | some iova =>
        refine ⟨[⟨iova, v.iovLen⟩], .cons ⟨hv, rfl⟩ .nil, ?_⟩
        rw [nvmeMapvSgl, mapvSgl, hv]
        rfl
  · obtain ⟨-, seg', hfill, hout⟩ := mapvSgl_ok hone hret
    obtain ⟨ws, hws⟩ := sglFill_resolved hfill
    refine ⟨ws, hws, ?_⟩
    have hlength := hws.length_eq
    rw [nvmeMapvSgl, nvmeMapvIovaSgl, mapvSgl_of_length _ _ _ _ _ _ hone,
      mapvSgl_of_length _ _ _ _ _ _ (hlength ▸ hone), hlength, sglFill_translate hws]

theorem sglBlocks_of_length_eq_one {read : U64 → NvmeSgld} (sgld : NvmeSgld) {iova len : U64}
    (hlen : len.toNat < 2 ^ 32) :
    sglBlocks read (sglData sgld iova len).toDptr = some [(iova, len.toNat)] := by
  have htype : (sglData sgld iova len).typeField ≠ SgldType.lastSegment.code := by
    simp [sglData, NvmeSgld.typeField, SgldType.code]
  rw [sglBlocks, sgl_toDptr, if_neg htype, dataBlock_sglData sgld hlen, Option.map_some]

theorem sglBytes_of_ret_ok {ctrl : NvmeCtrl} {seg : ℕ → NvmeSgld} {segIova : U64}
    {cmd : NvmeCmd} (hlen : ∀ w ∈ ws, w.len.toNat < 2 ^ 32)
    (hret : (nvmeMapvIovaSgl ctrl seg segIova cmd ws).ret = .ok ()) :
    sglBytes (segRead segIova (nvmeMapvIovaSgl ctrl seg segIova cmd ws).seg)
      (nvmeMapvIovaSgl ctrl seg segIova cmd ws).cmd.dptr = some (vecBytes ws) := by
  have hblocks : sglBlocks (segRead segIova (nvmeMapvIovaSgl ctrl seg segIova cmd ws).seg)
      (nvmeMapvIovaSgl ctrl seg segIova cmd ws).cmd.dptr =
        some (ws.map fun w => (w.iova, w.len.toNat)) := by
    by_cases hone : ws.length = 1
    · obtain ⟨w, rfl⟩ := List.length_eq_one_iff.mp hone
      exact sglBlocks_of_length_eq_one _ (hlen w List.mem_cons_self)
    · exact (sglBlocks_of_length_ne_one hone hlen hret).1
  rw [sglBytes, hblocks, Option.map_some, List.flatMap_map]
  rfl

theorem nvmeMapvSgl_translated_iff {ctrl : NvmeCtrl} {seg : ℕ → NvmeSgld} {segIova : U64}
    {cmd : NvmeCmd} (hlen : ∀ v ∈ vs, v.iovLen.toNat < 2 ^ 31)
    (hret : (nvmeMapvSgl ctrl seg segIova cmd vs).ret = .ok ()) :
    ReadsTranslated ctrl.map vs
        (sglBytes (segRead segIova (nvmeMapvSgl ctrl seg segIova cmd vs).seg)
          (nvmeMapvSgl ctrl seg segIova cmd vs).cmd.dptr) ↔
      ∀ v ∈ vs, ∃ iova, TranslatesAll ctrl.map v.iovBase v.iovLen iova := by
  obtain ⟨ws, hall, heq⟩ := nvmeMapvSgl_resolved hret
  rw [heq] at hret ⊢
  refine readsTranslated_iff hall (sglBytes_of_ret_ok (fun w hw => ?_) hret)
  have hlt := forall_len_of_translates hall (fun len => len.toNat < 2 ^ 31) hlen w hw
  omega

/-- A data pointer that was built without error names the translations of the bytes, through
region pages or through descriptors, if and only if each segment translates as a whole. -/
theorem data_pointer_translated_iff (ctrl : NvmeCtrl) :
    (∀ (prplists prplistIova : U64) (held : ℕ → U64) (nprplists : ℕ) (cmd : NvmeCmd)
        (first : Iovec) (rest : List Iovec),
      iommuTranslateVaddr ctrl.map prplists = some prplistIova →
      2 ^ ctrl.pageshift ∣ prplistIova.toNat → listRoom ctrl.pageshift nprplists < 2 ^ 31 →
      (∀ v ∈ first :: rest, 0 < v.iovLen.toNat) →
      (∀ v ∈ first :: rest, v.iovLen.toNat < 2 ^ 31) →
      (∀ w ws, List.Forall₂ (Translates ctrl.map) (first :: rest) (w :: ws) →
        Describable (2 ^ ctrl.pageshift) w ws ∧ LastFits (2 ^ ctrl.pageshift) ws) →
      let out := nvmeMapvPrp ctrl prplists held nprplists cmd first rest
      out.ret = .ok () →
        (ReadsTranslated ctrl.map (first :: rest)
            (prpWalk (listRead prplistIova out.stores) (2 ^ ctrl.pageshift) out.cmd.dptr
              (iovecLength (first :: rest))) ↔
          ∀ v ∈ first :: rest, ∃ iova, TranslatesAll ctrl.map v.iovBase v.iovLen iova)) ∧
      ∀ (seg : ℕ → NvmeSgld) (segIova : U64) (cmd : NvmeCmd) (iov : List Iovec),
        (∀ v ∈ iov, v.iovLen.toNat < 2 ^ 31) →
        let out := nvmeMapvSgl ctrl seg segIova cmd iov
        out.ret = .ok () →
          (ReadsTranslated ctrl.map iov (sglBytes (segRead segIova out.seg) out.cmd.dptr) ↔
            ∀ v ∈ iov, ∃ iova, TranslatesAll ctrl.map v.iovBase v.iovLen iova) :=
  ⟨fun _ _ _ _ _ _ _ hmapped haligned hroom hpos hlen hdesc hret =>
      nvmeMapvPrp_translated_iff hmapped haligned hroom hpos hlen hdesc hret,
    fun _ _ _ _ hlen hret => nvmeMapvSgl_translated_iff hlen hret⟩

theorem describable_of_one {pagesize : ℕ} {v : Iovec} {w : IovaVec}
    (h : List.Forall₂ (Translates map) [v] (w :: ws)) :
    Describable pagesize w ws ∧ LastFits pagesize ws := by
  obtain ⟨-, hnil⟩ := List.forall₂_cons.mp h
  obtain rfl := List.forall₂_nil_left_iff.mp hnil
  exact ⟨fun hne => absurd rfl hne, by simp [LastFits]⟩

theorem twoPageCtrl_translatesAll :
    TranslatesAll twoPageCtrl.map 0x11000 0x1000 0x21000 := by
  obtain ⟨xs, h, hperm⟩ := (mapped_init (fun _ => false) ⟨0, 0, 0, 0⟩).link
    (m := ⟨0x10000, 0x2000, 0x20000, 0⟩) (by decide)
    ⟨by decide, fun m hm => absurd hm List.not_mem_nil⟩
  refine h.translatesAll_of_shift 0x10000 fun o ho => ?_
  have hlt : o.toNat < 0x1000 := BitVec.lt_def.mp ho
  have hsum : ((0x11000 : U64) + o).toNat = 0x11000 + o.toNat :=
    BitVec.toNat_add_of_lt (Nat.add_lt_add_left hlt 0x11000 |>.trans (by decide))
  refine ⟨_, hperm.mem_iff.mpr List.mem_cons_self, ?_, by decide⟩
  rw [hsum]
  exact ⟨show 0x10000 ≤ 0x11000 + o.toNat by omega, show 0x11000 + o.toNat < 0x12000 by omega⟩

/-- The page behind the list pages, which is part of the same mapping. -/
theorem data_pointer_translated_iff_one_page :
    let out := nvmeMapvPrp twoPageCtrl 0x10000 (fun _ => 0) 1 ⟨0, ⟨0, 0⟩⟩ ⟨0x11000, 0x1000⟩ []
    out.ret = .ok () ∧ ReadsTranslated twoPageCtrl.map [⟨0x11000, 0x1000⟩]
      (prpWalk (listRead 0x20000 out.stores) (2 ^ twoPageCtrl.pageshift) out.cmd.dptr
        (iovecLength [⟨0x11000, 0x1000⟩])) := by
  have hsegment : ∀ v ∈ [(⟨0x11000, 0x1000⟩ : Iovec)],
      ∃ iova, TranslatesAll twoPageCtrl.map v.iovBase v.iovLen iova := by
    intro v hv
    rw [List.mem_singleton.mp hv]
    exact ⟨_, twoPageCtrl_translatesAll⟩
  exact ⟨rfl, ((data_pointer_translated_iff twoPageCtrl).1 0x10000 0x20000 (fun _ => 0) 1
    ⟨0, ⟨0, 0⟩⟩ ⟨0x11000, 0x1000⟩ [] (by decide) (by decide) (by decide) (by simp) (by simp)
    (fun w ws => describable_of_one) rfl).mpr hsegment⟩

/-- A controller with 4 KiB pages. Of two pages next to each other, the second is mapped far
from the first, and nothing is mapped behind it. -/
def splitCtrl : NvmeCtrl where
  map :=
    let empty := iovaMapInit (fun _ => false) ⟨0, 0, 0, 0⟩
    let lists := iovaMapLink empty ⟨0x8000, 0x1000, 0x20000, 0⟩
    iovaMapLink (iovaMapLink lists ⟨0x1000, 0x1000, 0x10000, 0⟩) ⟨0x2000, 0x1000, 0x50000, 0⟩
  config := ⟨0, mpsToPageshift_zero_lt⟩
  flags := 0

theorem not_translatesAll_of_second {v : Iovec} (iova : U64)
    (hfirst : iommuTranslateVaddr map v.iovBase = some iova) (hlen : 0x1000 < v.iovLen)
    (hsecond : iommuTranslateVaddr map (v.iovBase + 0x1000) ≠ some (iova + 0x1000)) :
    ¬∀ w ∈ [v], ∃ iova, TranslatesAll map w.iovBase w.iovLen iova := by
  intro hall
  have hone := (exists_translatesAll_iff hfirst).mp (hall v List.mem_cons_self)
  exact hsecond (hone 0x1000 hlen)

/-- Two pages are described as if they were mapped next to each other, and a page that is not
mapped as if it followed the one before it. -/
theorem data_pointer_names_untranslated :
    (let out := nvmeMapvPrp splitCtrl 0x8000 (fun _ => 0) 1 ⟨0, ⟨0, 0⟩⟩ ⟨0x1000, 0x2000⟩ []
     out.ret = .ok () ∧ out.cmd.dptr = ⟨0x10000, 0x11000⟩ ∧
      iommuTranslateVaddr splitCtrl.map 0x2000 = some 0x50000 ∧
      ¬ReadsTranslated splitCtrl.map [⟨0x1000, 0x2000⟩]
        (prpWalk (listRead 0x20000 out.stores) (2 ^ splitCtrl.pageshift) out.cmd.dptr
          (iovecLength [⟨0x1000, 0x2000⟩]))) ∧
    let out := nvmeMapvSgl splitCtrl (fun _ => ⟨0, 0, 0, 0⟩) 0x20000 ⟨0, ⟨0, 0⟩⟩ [⟨0x2000, 0x2000⟩]
    out.ret = .ok () ∧ iommuTranslateVaddr splitCtrl.map 0x3000 = none ∧
      ¬ReadsTranslated splitCtrl.map [⟨0x2000, 0x2000⟩]
        (sglBytes (segRead 0x20000 out.seg) out.cmd.dptr) := by
  refine ⟨⟨rfl, by decide +kernel, by decide +kernel, fun hreads => ?_⟩, rfl, by decide +kernel,
    fun hreads => ?_⟩
  · exact not_translatesAll_of_second 0x10000 (by decide +kernel) (by decide)
      (by decide +kernel) ((nvmeMapvPrp_translated_iff (by decide +kernel) (by decide) (by decide)
        (by simp) (by simp) (fun w ws => describable_of_one) rfl).mp hreads)
  · exact not_translatesAll_of_second 0x50000 (by decide +kernel) (by decide)
      (by decide +kernel) ((nvmeMapvSgl_translated_iff (by simp) rfl).mp hreads)

end Nvme

end Libvfn
