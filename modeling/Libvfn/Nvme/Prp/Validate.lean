import Libvfn.Nvme.Prp.Vector

/-!
# What the vector functions accept

Of several segments the first has to end with a page. The check that asks for it is
skipped when the first segment got a single entry, so a first segment that stops
short of the end of its page is let through, unless something else is wrong with
the vector. `StrayCaught` lists what can be wrong.

`nvme_mapv_prp` differs from `nvme_mapv_iova_prp` only in that it looks the
segments up first.
-/

namespace Libvfn

namespace Nvme

open Word Support Iommu

variable {pageshift : ℕ} {held : ℕ → U64} {c : PrpCursor} {cmd : NvmeCmd}
  {first : IovaVec} {rest : List IovaVec}

def listRoom (pageshift nprplists : ℕ) : ℕ :=
  (nprplists - 1) * (2 ^ (pageshift - 3) - 1) + 2 ^ (pageshift - 3)

/-- The entries a later segment asks for, its length cut down to an `int`. -/
def laterEntries (pageshift : ℕ) (len : U64) : ℕ :=
  if len.toNat % 2 ^ 32 < 2 ^ 31 then max 1 (len.toNat % 2 ^ 32 / 2 ^ pageshift) else 1

/-- The inputs on which a vector that cannot be described is not let through. The
first segment ends with a page, or needs further pages as far as an `int` can tell;
or the later segments are at fault, or the list pages are too many to be counted in
an `int` or too few for the entries. -/
def StrayCaught (pageshift nprplists : ℕ) (first : IovaVec) (rest : List IovaVec) : Prop :=
  2 ^ pageshift ∣ (first.iova + first.len).toNat ∨
    ¬2 ^ (32 - pageshift) ∣ pagesAfter pageshift first.iova first.len.toNat ∨
    ¬RestDescribable (2 ^ pageshift) rest ∨
    2 ^ 31 ≤ listRoom pageshift nprplists % 2 ^ 32 ∨
    listRoom pageshift nprplists < (rest.map fun v => laterEntries pageshift v.len).sum

theorem prpcountFirst_eq_one_iff (hk : pageshift < 31) (iova len : U64) :
    prpcountFirst iova len pageshift = 1 ↔
      2 ^ (32 - pageshift) ∣ pagesAfter pageshift iova len.toNat := by
  rw [prpcountFirst_eq hk, add_eq_left, ← Int.dvd_iff_bmod_eq_zero, Int.natCast_dvd_natCast]

theorem toNat_prpcountAppend (len : U64) (pageshift : ℕ) :
    (prpcountAppend len pageshift).toNat = laterEntries pageshift len := by
  have hpow : (0 : ℤ) < 2 ^ pageshift := by positivity
  have hmod : (len.toNat : ℤ) % (2 ^ 32 : ℕ) = (len.toNat % 2 ^ 32 : ℕ) := by omega
  rw [prpcountAppend, laterEntries, BitVec.toInt_setWidth, Int.shiftRight_eq_div_pow,
    Int.bmod_def, hmod]
  generalize hrem : len.toNat % 2 ^ 32 = r
  have hlt : r < 2 ^ 32 := by omega
  by_cases hr : r < 2 ^ 31
  · rw [if_pos (by omega), if_pos hr, ← Int.natCast_ediv]
    omega
  · rw [if_neg (by omega), if_neg hr]
    have hneg : ((r : ℤ) - (2 ^ 32 : ℕ)) / (2 ^ pageshift : ℕ) < 0 :=
      Int.ediv_neg_of_neg_of_pos (by omega) (by exact_mod_cast hpow)
    omega

theorem length_restEntries (rest : List IovaVec) :
    (restEntries pageshift rest).length =
      (rest.map fun v => laterEntries pageshift v.len).sum := by
  induction rest with
  | nil => rfl
  | cons v vs ih =>
      rw [length_restEntries_cons, toNat_prpcountAppend, ih, List.map_cons, List.sum_cons]

theorem prplistCapacity_eq {nprplists : ℕ} (hn : 1 ≤ nprplists) :
    prplistCapacity nprplists (maxPrpsOf pageshift) =
      (listRoom pageshift nprplists : ℤ).bmod (2 ^ 32) := by
  have hpos := maxPrpsOf_pos pageshift
  rw [maxPrpsOf_eq] at hpos
  rw [prplistCapacity, maxPrpsOf_eq, listRoom]
  push_cast [Nat.cast_sub hn, Nat.cast_sub (Nat.succ_le_of_lt hpos)]
  rfl

theorem prplistCapacity_nonneg_iff {nprplists : ℕ} (hn : 1 ≤ nprplists) :
    0 ≤ prplistCapacity nprplists (maxPrpsOf pageshift) ↔
      listRoom pageshift nprplists % 2 ^ 32 < 2 ^ 31 := by
  rw [prplistCapacity_eq hn, Int.bmod_def]
  split_ifs <;> omega

theorem room_init (base : U64) (nprplists : ℕ) :
    (prpCursorInit base nprplists).room pageshift = listRoom pageshift nprplists := by
  rw [PrpCursor.room, listRoom, maxPrpsOf_eq]
  rfl

/-- A first segment that does not end with a page is let through exactly when
nothing catches it. -/
theorem accepted_iff_of_not_ends (base : U64) (hk : pageshift < 31) (hk' : 4 ≤ pageshift)
    {nprplists : ℕ} (hn : 1 ≤ nprplists) (hne : rest ≠ [])
    (hends : ¬2 ^ pageshift ∣ (first.iova + first.len).toNat) :
    Accepted pageshift (prpCursorInit base nprplists) first rest ↔
      ¬StrayCaught pageshift nprplists first rest := by
  have hroom := putAll_iff_room (c := prpCursorInit base nprplists) hk' hn
    (.inr (.inl (maxPrpsOf_pos pageshift))) (lastMarked_vecEntries pageshift first rest)
  rw [room_init] at hroom
  -- with a single entry for the first segment only the later ones are in the list
  have hentries : prpcountFirst first.iova first.len pageshift = 1 →
      (vecEntries pageshift first rest).length =
        (rest.map fun v => laterEntries pageshift v.len).sum := by
    intro hone
    rw [vecEntries, List.length_append, firstEntries, length_pageEntries, hone,
      length_restEntries]
    simp
  simp only [StrayCaught, not_or, not_not, not_le, not_lt]
  rw [← prpcountFirst_eq_one_iff hk]
  constructor
  · rintro ⟨-, hcap, hcheck, hdesc, hfits⟩
    have hone : prpcountFirst first.iova first.len pageshift = 1 := by
      rcases hcheck with hone | hnil | hdvd
      · exact hone
      · exact absurd hnil hne
      · exact absurd hdvd hends
    refine ⟨hends, hone, hdesc, ?_, ?_⟩
    · rw [← prplistCapacity_nonneg_iff hn]
      rw [hone] at hcap
      exact hcap
    · rw [← hentries hone]
      exact hroom.mp hfits
  · rintro ⟨-, hone, hdesc, hcap, hfits⟩
    refine ⟨by omega, ?_, .inl hone, hdesc, ?_⟩
    · rw [hone]
      exact (prplistCapacity_nonneg_iff hn).mpr hcap
    · rw [hroom, hentries hone]
      exact hfits

/-! ## Looking segments up first -/

def Translates (map : IovaMap) (v : Iovec) (w : IovaVec) : Prop :=
  iommuTranslateVaddr map v.iovBase = some w.iova ∧ v.iovLen = w.len

theorem isEmpty_of_translates {map : IovaMap} {vs : List Iovec} {ws : List IovaVec}
    (h : List.Forall₂ (Translates map) vs ws) : vs.isEmpty = ws.isEmpty := by
  cases h <;> rfl

theorem mapvSegments_translate {map : IovaMap} {vs : List Iovec} {ws : List IovaVec}
    (h : List.Forall₂ (Translates map) vs ws) (c : PrpCursor) (n : ℤ) :
    mapvSegments (fun v => iommuTranslateVaddr map v.iovBase) Iovec.iovLen pageshift c n vs =
      mapvSegments (fun v => some v.iova) IovaVec.len pageshift c n ws := by
  induction h generalizing c n with
  | nil => rfl
  | cons hvw hrest ih =>
      rw [mapvSegments, mapvSegments, hvw.1, hvw.2, isEmpty_of_translates hrest]
      simp only [ih]

theorem nvmeMapvPrp_eq {ctrl : NvmeCtrl} {prplists prplistIova : U64} {nprplists : ℕ}
    {vfirst : Iovec} {vrest : List Iovec}
    (hmapped : iommuTranslateVaddr ctrl.map prplists = some prplistIova)
    (h : List.Forall₂ (Translates ctrl.map) (vfirst :: vrest) (first :: rest)) :
    nvmeMapvPrp ctrl prplists held nprplists cmd vfirst vrest =
      nvmeMapvIovaPrp ctrl prplists held nprplists cmd first rest := by
  obtain ⟨hfirst, hrest⟩ := List.forall₂_cons.mp h
  rw [nvmeMapvPrp, nvmeMapvIovaPrp, hfirst.1, hmapped]
  simp only [mapvPrp, hfirst.2, isEmpty_of_translates hrest, mapvSegments_translate hrest]

/-! ## Validation -/

section Validation

variable {ctrl : NvmeCtrl} {prplists prplistIova : U64} {nprplists : ℕ}
  (hmapped : iommuTranslateVaddr ctrl.map prplists = some prplistIova)
  (hn : 1 ≤ nprplists)

include hmapped hn

theorem ret_of_accepted
    (h : Accepted ctrl.pageshift (prpCursorInit prplistIova nprplists) first rest) :
    (nvmeMapvIovaPrp ctrl prplists held nprplists cmd first rest).ret = .ok () := by
  rw [nvmeMapvIovaPrp_eq hn hmapped, mapvPrp_of_accepted ctrl.pageshift_lt h]

theorem ret_of_not_accepted
    (h : ¬Accepted ctrl.pageshift (prpCursorInit prplistIova nprplists) first rest) :
    (nvmeMapvIovaPrp ctrl prplists held nprplists cmd first rest).ret = .error .EINVAL := by
  rw [nvmeMapvIovaPrp_eq hn hmapped, mapvPrp_of_not_accepted ctrl.pageshift_lt h]

theorem ret_ok_iff_accepted :
    (nvmeMapvIovaPrp ctrl prplists held nprplists cmd first rest).ret = .ok () ↔
      Accepted ctrl.pageshift (prpCursorInit prplistIova nprplists) first rest :=
  ⟨fun h => (nvmeMapvIovaPrp_ok hmapped h).2.1, ret_of_accepted hmapped hn⟩

theorem describable_of_ret_ok (hcaught : StrayCaught ctrl.pageshift nprplists first rest)
    (hne : rest ≠ [])
    (hret : (nvmeMapvIovaPrp ctrl prplists held nprplists cmd first rest).ret = .ok ()) :
    Describable (2 ^ ctrl.pageshift) first rest := by
  obtain ⟨-, haccepted, -⟩ := nvmeMapvIovaPrp_ok hmapped hret
  intro _
  by_cases hends : 2 ^ ctrl.pageshift ∣ (first.iova + first.len).toNat
  · exact ⟨hends, haccepted.describable⟩
  · have hk' := ctrl.le_pageshift
    rw [accepted_iff_of_not_ends _ ctrl.pageshift_lt (by omega) hn hne hends] at haccepted
    exact absurd hcaught haccepted

theorem ret_of_not_describable (hcaught : StrayCaught ctrl.pageshift nprplists first rest)
    (hne : rest ≠ []) (hdesc : ¬Describable (2 ^ ctrl.pageshift) first rest) :
    (nvmeMapvIovaPrp ctrl prplists held nprplists cmd first rest).ret = .error .EINVAL := by
  refine ret_of_not_accepted hmapped hn fun haccepted => hdesc ?_
  have hret : (nvmeMapvIovaPrp ctrl prplists held nprplists cmd first rest).ret = .ok () :=
    ret_of_accepted hmapped hn haccepted
  exact describable_of_ret_ok hmapped hn hcaught hne hret

end Validation

/-- Exactly the vectors that can be described are accepted, of those for which a
stray first segment is caught. On them, if the last segment fits, the controller
transfers the bytes of the segments and no others. Looking the segments up first
makes no difference. -/
theorem nvmeMapvIovaPrp_validates (ctrl : NvmeCtrl) (prplists prplistIova : U64)
    (held : ℕ → U64) (nprplists : ℕ) (cmd : NvmeCmd) (first : IovaVec) (rest : List IovaVec)
    (hmapped : iommuTranslateVaddr ctrl.map prplists = some prplistIova)
    (hn : 1 ≤ nprplists) (hne : rest ≠ []) :
    let out := nvmeMapvIovaPrp ctrl prplists held nprplists cmd first rest
    let describable := Describable (2 ^ ctrl.pageshift) first rest
    (((out.ret = .ok () → describable) ∧ (¬describable → out.ret = .error .EINVAL)) ↔
        StrayCaught ctrl.pageshift nprplists first rest) ∧
      (∀ vfirst vrest,
        List.Forall₂ (Translates ctrl.map) (vfirst :: vrest) (first :: rest) →
          nvmeMapvPrp ctrl prplists held nprplists cmd vfirst vrest = out) ∧
      (StrayCaught ctrl.pageshift nprplists first rest → out.ret = .ok () →
        (∀ v ∈ first :: rest, 0 < v.len.toNat) → 2 ^ ctrl.pageshift ∣ prplistIova.toNat →
        vecLength (first :: rest) < 2 ^ 31 → LastFits (2 ^ ctrl.pageshift) rest →
          prpWalk (listRead prplistIova out.stores) (2 ^ ctrl.pageshift) out.cmd.dptr
            (vecLength (first :: rest)) = some (vecBytes (first :: rest))) := by
  have hk' := ctrl.le_pageshift
  refine ⟨⟨?_, ?_⟩, fun vfirst vrest => nvmeMapvPrp_eq hmapped, ?_⟩
  · rintro ⟨hok, -⟩
    by_contra hstray
    have hends : ¬2 ^ ctrl.pageshift ∣ (first.iova + first.len).toNat :=
      fun h => hstray (.inl h)
    have haccepted := (accepted_iff_of_not_ends prplistIova ctrl.pageshift_lt (by omega) hn hne
      hends).mpr hstray
    exact hends (hok (ret_of_accepted hmapped hn haccepted) hne).1
  · intro hcaught
    exact ⟨describable_of_ret_ok hmapped hn hcaught hne,
      ret_of_not_describable hmapped hn hcaught hne⟩
  · intro hcaught hret hpos haligned hlen hfits
    have hdesc := describable_of_ret_ok hmapped hn hcaught hne hret
    have hsmall := length_vecEntries_lt ctrl.pageshift_lt hpos hdesc hlen
      (nvmeMapvIovaPrp_ok hmapped hret).2.1.nonneg
    exact prpWalk_of_lastFits hmapped haligned hpos hdesc
      (fun v hv => (len_le_vecLength hv).trans_lt hlen) hsmall hret hfits

/-- A first segment that ends with its page, and a page behind it. -/
theorem nvmeMapvIovaPrp_validates_two_segments :
    let out := nvmeMapvIovaPrp twoPageCtrl 0x10000 (fun _ => 0) 1 ⟨0, ⟨0, 0⟩⟩
      ⟨0x1000004, 0xffc⟩ [⟨0x2000000, 0x1000⟩]
    StrayCaught twoPageCtrl.pageshift 1 ⟨0x1000004, 0xffc⟩ [⟨0x2000000, 0x1000⟩] ∧
      out.ret = .ok () ∧
      (out.ret = .ok () →
        Describable (2 ^ twoPageCtrl.pageshift) ⟨0x1000004, 0xffc⟩ [⟨0x2000000, 0x1000⟩]) :=
  have hcaught : StrayCaught twoPageCtrl.pageshift 1 ⟨0x1000004, 0xffc⟩
      [⟨0x2000000, 0x1000⟩] := .inl (by decide)
  ⟨hcaught, rfl,
    ((nvmeMapvIovaPrp_validates twoPageCtrl 0x10000 0x20000 (fun _ => 0) 1 ⟨0, ⟨0, 0⟩⟩
      ⟨0x1000004, 0xffc⟩ [⟨0x2000000, 0x1000⟩] (by decide) (by decide) (by simp)).1.mpr
      hcaught).1⟩

/-- A first segment that stops in the middle of its page is let through, and the
controller transfers the byte behind its end, which is in neither segment. -/
theorem nvmeMapvIovaPrp_accepts_stray :
    let first : IovaVec := ⟨0x1000004, 0x100⟩
    let last : IovaVec := ⟨0x2000000, 0x1000⟩
    let out := nvmeMapvIovaPrp twoPageCtrl 0x10000 (fun _ => 0) 1 ⟨0, ⟨0, 0⟩⟩ first [last]
    out.ret = .ok () ∧
      ¬Describable (2 ^ twoPageCtrl.pageshift) first [last] ∧
      ∃ bytes,
        prpWalk (listRead 0x20000 out.stores) (2 ^ twoPageCtrl.pageshift) out.cmd.dptr
          (vecLength [first, last]) = some bytes ∧
        0x1000104 ∈ bytes ∧ 0x1000104 ∉ vecBytes [first, last] := by
  refine ⟨rfl, fun h => absurd (h (by simp)).1 (by decide),
    byteRange 0x1000004 0xffc ++ byteRange 0x2000000 0x104, rfl, ?_, ?_⟩
  · rw [List.mem_append, mem_byteRange_iff (by decide)]
    exact .inl (by decide)
  · rw [vecBytes_cons, vecBytes_cons, List.mem_append, List.mem_append,
      mem_byteRange_iff (by decide), mem_byteRange_iff (by decide)]
    decide

end Nvme

end Libvfn
