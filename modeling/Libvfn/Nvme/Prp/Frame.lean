import Libvfn.Nvme.Prp.Split

/-!
# Where the list is written

The list of a buffer or a vector goes to the list pages through a cursor. The functions put one
entry after the other, and stop where something is wrong, which may be anywhere: the entries
that were put before stay in the list pages.

We say for each store what it is for, an entry or the link to the next page, and follow the
cursor through all calls, whether they succeed or not. The slots are taken one after the other,
from the first on. A link is in the last slot of its page and comes together with the entry that
did not find a place there, so that no page is begun without an entry.
-/

namespace Libvfn

namespace Nvme

open Word Support Iommu

inductive ListStore where
  | link (page : ℕ)
  | entry (page slot : ℕ) (iova : U64)
  deriving DecidableEq

def ListStore.index (pageshift : ℕ) : ListStore → ℕ
  | .link page => (page <<< (pageshift - 3)) + (maxPrpsOf pageshift - 1)
  | .entry page slot _ => (page <<< (pageshift - 3)) + slot

def ListStore.value (pageshift : ℕ) (prplistIova : U64) : ListStore → U64
  | .link page => prplistIova + (BitVec.ofNat 64 (page + 1) <<< pageshift)
  | .entry _ _ iova => iova

def putLog (pageshift : ℕ) (c : PrpCursor) (iova : U64) (isLast : Bool) : List ListStore :=
  let maxPrps := maxPrpsOf pageshift
  let link :=
    if c.slot = maxPrps - 1 ∧ c.page + 1 < c.nprplists ∧ !isLast then [.link c.page] else []
  let c := prpCursorChain c maxPrps pageshift isLast
  if c.nprplists ≤ c.page ∨ maxPrps ≤ c.slot then link else link ++ [.entry c.page c.slot iova]

def putAllLog (pageshift : ℕ) : PrpCursor → List (U64 × Bool) → List ListStore
  | _, [] => []
  | c, e :: es =>
      let r := prpCursorPut c e.1 (maxPrpsOf pageshift) pageshift e.2
      putLog pageshift c e.1 e.2 ++ if r.1 then putAllLog pageshift r.2 es else []

inductive PrpCall where
  | mapPrp (iova len : U64)
  | mapvPrp (first : Iovec) (rest : List Iovec)
  | mapvIovaPrp (first : IovaVec) (rest : List IovaVec)

def PrpCall.run (ctrl : NvmeCtrl) (prplists : U64) (held : ℕ → U64) (nprplists : ℕ)
    (cmd : NvmeCmd) : PrpCall → PrpOutcome
  | .mapPrp iova len => nvmeMapPrp ctrl prplists held nprplists cmd iova len
  | .mapvPrp first rest => nvmeMapvPrp ctrl prplists held nprplists cmd first rest
  | .mapvIovaPrp first rest => nvmeMapvIovaPrp ctrl prplists held nprplists cmd first rest

def segmentEntries {α : Type*} (resolve : α → Option U64) (length : α → U64) (pageshift : ℕ) :
    List α → List (U64 × Bool)
  | [] => []
  | v :: vs =>
      match resolve v with
      | none => []
      | some iova =>
          if !vs.isEmpty && !aligned (length v) (pagesizeOf pageshift) then []
          else if !aligned iova (pagesizeOf pageshift) then []
          else
            pageEntries iova pageshift vs.isEmpty 0 (prpcountAppend (length v) pageshift).toNat ++
              segmentEntries resolve length pageshift vs

def mapvEntries {α : Type*} (resolve : α → Option U64) (length : α → U64)
    (pageshift nprplists : ℕ) (iova len : U64) (rest : List α) : List (U64 × Bool) :=
  let prpcount := prpcountFirst iova len pageshift
  if prplistCapacity nprplists (maxPrpsOf pageshift) < prpcount - 1 then []
  else
    firstEntries pageshift iova len rest.isEmpty ++
      if prpcount < 0 then []
      else if !(prpcount = 1 || rest.isEmpty || aligned (iova + len) (pagesizeOf pageshift)) then []
      else segmentEntries resolve length pageshift rest

def PrpCall.entries (ctrl : NvmeCtrl) (nprplists : ℕ) : PrpCall → List (U64 × Bool)
  | .mapPrp iova len =>
      mapvEntries (fun v : IovaVec => some v.iova) IovaVec.len ctrl.pageshift nprplists iova len []
  | .mapvPrp first rest =>
      match iommuTranslateVaddr ctrl.map first.iovBase with
      | none => []
      | some iova =>
          mapvEntries (fun v => iommuTranslateVaddr ctrl.map v.iovBase) Iovec.iovLen
            ctrl.pageshift nprplists iova first.iovLen rest
  | .mapvIovaPrp first rest =>
      mapvEntries (fun v => some v.iova) IovaVec.len ctrl.pageshift nprplists first.iova first.len
        rest

def PrpCall.log (ctrl : NvmeCtrl) (prplists : U64) (nprplists : ℕ) (call : PrpCall) :
    List ListStore :=
  match iommuTranslateVaddr ctrl.map prplists with
  | none => []
  | some prplistIova =>
      putAllLog ctrl.pageshift (prpCursorInit prplistIova nprplists) (call.entries ctrl nprplists)

/-- A link is stored on pages other than the last one, in the last slot, and the entry for the
first slot of the next page is stored right after it. -/
def LinksFollowed (pageshift nprplists : ℕ) (log : List ListStore) : Prop :=
  ∀ i page, log[i]? = some (.link page) →
    page + 1 < nprplists ∧
      (ListStore.link page).index pageshift + 1 = (page + 1) * maxPrpsOf pageshift ∧
      ∃ iova, log[i + 1]? = some (.entry (page + 1) 0 iova)

/-- What is left in the list pages, by stores for the purposes given. -/
structure PrpFrame (pageshift nprplists : ℕ) (held : ℕ → U64) (log : List ListStore)
    (out : PrpOutcome) : Prop where
  inside : ∀ s ∈ out.stores, s.1 < nprplists * maxPrpsOf pageshift
  increasing : (out.stores.map Prod.fst).Pairwise (· < ·)
  /-- No slot is left out. -/
  consecutive : out.stores.map Prod.fst = List.range out.stores.length
  links : LinksFollowed pageshift nprplists log
  /-- The pages behind the last one that was used have what they had. -/
  untouched : ∀ i, (∀ s ∈ out.stores,
    s.1 / maxPrpsOf pageshift < i / maxPrpsOf pageshift) → out.slot held i = held i

/-! ## One entry -/

section Put

variable {pageshift nprplists : ℕ} {c : PrpCursor} {iova prplistIova : U64} {isLast : Bool}
  {log log' : List ListStore}

theorem index_link (page : ℕ) :
    (ListStore.link page).index pageshift + 1 = (page + 1) * maxPrpsOf pageshift := by
  have hpos := maxPrpsOf_pos pageshift
  rw [ListStore.index, shiftLeft_page, Nat.succ_mul]
  omega

theorem index_entry (page slot : ℕ) :
    (ListStore.entry page slot iova).index pageshift = page * maxPrpsOf pageshift + slot := by
  rw [ListStore.index, shiftLeft_page]

theorem putLog_of_chains (h : c.Chains pageshift isLast) :
    putLog pageshift c iova isLast = [.link c.page, .entry (c.page + 1) 0 iova] := by
  obtain ⟨hslot, hpage, rfl⟩ := h
  have hpos := maxPrpsOf_pos pageshift
  rw [putLog, prpCursorChain]
  simp [hslot, hpage, hpos.ne']

theorem putLog_of_not_chains (h : ¬c.Chains pageshift isLast) :
    putLog pageshift c iova isLast =
      if c.nprplists ≤ c.page ∨ maxPrpsOf pageshift ≤ c.slot then []
      else [.entry c.page c.slot iova] := by
  have hlink : ¬(c.slot = maxPrpsOf pageshift - 1 ∧ c.page + 1 < c.nprplists ∧ !isLast) := by
    simpa [PrpCursor.Chains] using h
  simp only [putLog, prpCursorChain_of_not_chains h, if_neg hlink, List.nil_append]

theorem LinksFollowed.append (h : LinksFollowed pageshift nprplists log)
    (h' : LinksFollowed pageshift nprplists log') :
    LinksFollowed pageshift nprplists (log ++ log') := by
  intro i page hi
  rcases Nat.lt_or_ge i log.length with hlt | hge
  · rw [List.getElem?_append_left hlt] at hi
    obtain ⟨hpage, hslot, iova, hnext⟩ := h i page hi
    have hlt' := (List.getElem?_eq_some_iff.mp hnext).1
    exact ⟨hpage, hslot, iova, by rw [List.getElem?_append_left hlt', hnext]⟩
  · rw [List.getElem?_append_right hge] at hi
    obtain ⟨hpage, hslot, iova, hnext⟩ := h' _ page hi
    refine ⟨hpage, hslot, iova, ?_⟩
    rw [List.getElem?_append_right (Nat.le_succ_of_le hge), Nat.succ_sub hge, hnext]

structure Framed (pageshift : ℕ) (prplistIova : U64) (nprplists : ℕ) (c : PrpCursor)
    (log : List ListStore) : Prop where
  base_eq : c.prplistIova = prplistIova
  pages_eq : c.nprplists = nprplists
  page_lt : c.page < nprplists
  slot_le : c.slot ≤ maxPrpsOf pageshift
  stores : c.stores = log.map fun s => (s.index pageshift, s.value pageshift prplistIova)
  consecutive : log.map (ListStore.index pageshift) = List.range (c.index pageshift)
  links : LinksFollowed pageshift nprplists log

theorem Framed.putHere (h : Framed pageshift prplistIova nprplists c log)
    (hslot : c.slot < maxPrpsOf pageshift) :
    Framed pageshift prplistIova nprplists (c.putHere pageshift iova)
      (log ++ [.entry c.page c.slot iova]) := by
  have hlinks : LinksFollowed pageshift nprplists [.entry c.page c.slot iova] := by
    intro i page hi
    cases i <;> simp at hi
  refine ⟨h.base_eq, h.pages_eq, h.page_lt, hslot, ?_, ?_, h.links.append hlinks⟩
  · simp [PrpCursor.putHere, PrpCursor.index, h.stores, index_entry, ListStore.value]
  · rw [List.map_append, h.consecutive, index_putHere, List.range_succ]
    simp [index_entry, PrpCursor.index]

theorem Framed.putNext (h : Framed pageshift prplistIova nprplists c log)
    (hchain : c.Chains pageshift isLast) :
    Framed pageshift prplistIova nprplists (c.putNext pageshift iova)
      (log ++ [.link c.page, .entry (c.page + 1) 0 iova]) := by
  have hpos := maxPrpsOf_pos pageshift
  have hlink : (ListStore.link c.page).index pageshift + 1 =
      (c.page + 1) * maxPrpsOf pageshift := index_link c.page
  have hindex : (ListStore.link c.page).index pageshift = c.index pageshift := by
    rw [PrpCursor.index, hchain.1, ListStore.index, shiftLeft_page]
  have hpage : c.page + 1 < nprplists := h.pages_eq ▸ hchain.2.1
  have hlinks : LinksFollowed pageshift nprplists [.link c.page, .entry (c.page + 1) 0 iova] := by
    intro i page hi
    rcases i with _ | _ | i
    · obtain rfl : c.page = page := by simpa using hi
      exact ⟨hpage, hlink, iova, rfl⟩
    · simp at hi
    · simp at hi
  refine ⟨h.base_eq, h.pages_eq, hpage, hpos, ?_, ?_, h.links.append hlinks⟩
  · simp [PrpCursor.putNext, h.stores, h.base_eq, hindex, index_entry, ListStore.value,
      ofNat_shiftLeft]
  · rw [List.map_append, h.consecutive, index_putNext hchain, List.range_succ, List.range_succ,
      List.append_assoc]
    simp only [List.map_cons, List.map_nil, index_entry, hindex, Nat.add_zero, ← hlink]
    rfl

/-- One entry, whether there is a slot for it or not. -/
theorem Framed.put (h : Framed pageshift prplistIova nprplists c log) (iova : U64)
    (isLast : Bool) :
    Framed pageshift prplistIova nprplists
      (prpCursorPut c iova (maxPrpsOf pageshift) pageshift isLast).2
      (log ++ putLog pageshift c iova isLast) := by
  by_cases hchain : c.Chains pageshift isLast
  · rw [prpCursorPut_of_chains hchain, putLog_of_chains hchain]
    exact h.putNext hchain
  · rw [putLog_of_not_chains hchain]
    split_ifs with hfull
    · rw [prpCursorPut_of_full hchain hfull, List.append_nil]
      exact h
    · rw [not_or, not_le, not_le] at hfull
      rw [prpCursorPut_of_slot hchain hfull.1 hfull.2]
      exact h.putHere hfull.2

theorem Framed.putAll (h : Framed pageshift prplistIova nprplists c log)
    (es : List (U64 × Bool)) :
    Framed pageshift prplistIova nprplists
      (prpCursorPutAll (maxPrpsOf pageshift) pageshift c es).2
      (log ++ putAllLog pageshift c es) := by
  induction es generalizing c log with
  | nil => simpa [prpCursorPutAll, putAllLog] using h
  | cons e es ih =>
      have hput := h.put e.1 e.2
      rw [prpCursorPutAll, putAllLog]
      split_ifs with hok
      · rw [← List.append_assoc]
        exact ih hput
      · rw [List.append_nil]
        exact hput

theorem framed_init (pageshift : ℕ) (prplistIova : U64) (hn : 1 ≤ nprplists) :
    Framed pageshift prplistIova nprplists (prpCursorInit prplistIova nprplists) [] := by
  refine ⟨rfl, rfl, hn, Nat.zero_le _, rfl, ?_, nofun⟩
  simp [PrpCursor.index, prpCursorInit]

end Put

/-! ## The functions -/

section Calls

variable {pageshift : ℕ} {c : PrpCursor}

/-- A segment is left with what its entries made of the cursor, and fails if one of them did. -/
theorem mapPrpAppend_eq_putAll (c : PrpCursor) {iova : U64} (len : U64) (lastSegment : Bool)
    (halign : aligned iova (pagesizeOf pageshift) = true) :
    let es := pageEntries iova pageshift lastSegment 0 (prpcountAppend len pageshift).toNat
    let r := prpCursorPutAll (maxPrpsOf pageshift) pageshift c es
    let ret := mapPrpAppend c iova len (maxPrpsOf pageshift) pageshift lastSegment
    ret.2 = r.2 ∧ (ret.1 < 0 ↔ ¬r.1 = true) := by
  intro es r ret
  have hcount : 1 ≤ prpcountAppend len pageshift := le_max_left _ _
  have hret : ret = if r.1 then (prpcountAppend len pageshift, r.2) else (-1, r.2) := by
    dsimp only [ret]
    rw [mapPrpAppend, halign]
    rfl
  rw [hret]
  by_cases hok : r.1 = true
  · rw [if_pos hok]
    exact ⟨rfl, iff_of_false (by dsimp only; omega) (not_not_intro hok)⟩
  · rw [if_neg hok]
    exact ⟨rfl, iff_of_true neg_one_lt_zero hok⟩

theorem mapvSegments_snd {α : Type*} (resolve : α → Option U64) (length : α → U64)
    (prpcount : ℤ) (vs : List α) :
    (mapvSegments resolve length pageshift c prpcount vs).2 =
      (prpCursorPutAll (maxPrpsOf pageshift) pageshift c
        (segmentEntries resolve length pageshift vs)).2 := by
  induction vs generalizing c prpcount with
  | nil => rfl
  | cons v vs ih =>
      rw [mapvSegments, segmentEntries]
      cases resolve v with
      | none => rfl
      | some iova =>
          dsimp only
          split_ifs with hlen hfail halign halign
          · rfl
          · rw [mapPrpAppend, if_pos halign]
            rfl
          · obtain ⟨hsnd, hneg⟩ := mapPrpAppend_eq_putAll c (length v) vs.isEmpty
              (by simpa using halign)
            rw [prpCursorPutAll_append, if_neg (hneg.mp hfail), hsnd]
          · rw [mapPrpAppend, if_pos halign] at hfail
            exact absurd neg_one_lt_zero hfail
          · obtain ⟨hsnd, hneg⟩ := mapPrpAppend_eq_putAll c (length v) vs.isEmpty
              (by simpa using halign)
            rw [prpCursorPutAll_append, if_pos (not_not.mp (mt hneg.mpr hfail)), ih, hsnd]

/-- Wherever the function ends, it has stored what its entries make the cursor store. -/
theorem mapvPrp_stores {α : Type*} (hk : pageshift < 31) (resolve : α → Option U64)
    (length : α → U64) (held : ℕ → U64) (cmd : NvmeCmd) (iova len : U64) (rest : List α) :
    (mapvPrp resolve length pageshift held c cmd iova len rest).stores =
      (prpCursorPutAll (maxPrpsOf pageshift) pageshift c
        (mapvEntries resolve length pageshift c.nprplists iova len rest)).2.stores := by
  unfold mapvPrp mapvEntries
  rw [mapPrpFirst_eq hk]
  dsimp only
  by_cases hcapacity : prplistCapacity c.nprplists (maxPrpsOf pageshift) <
      prpcountFirst iova len pageshift - 1
  · rw [if_pos hcapacity, if_pos hcapacity, if_pos neg_one_lt_zero]
    rfl
  rw [if_neg hcapacity, if_neg hcapacity, prpCursorPutAll_append]
  generalize prpCursorPutAll (maxPrpsOf pageshift) pageshift c
    (firstEntries pageshift iova len rest.isEmpty) = r
  by_cases hok : r.1 = true
  · rw [if_pos hok, if_pos hok]
    dsimp only
    split_ifs with hneg hends
    · rfl
    · rfl
    · rw [← mapvSegments_snd resolve length (prpcountFirst iova len pageshift)]
      generalize mapvSegments resolve length pageshift _ _ rest = segments
      obtain ⟨e | prpcount, c'⟩ := segments
      · rfl
      · rfl
  · rw [if_neg hok, if_neg hok, if_pos neg_one_lt_zero]

section Run

variable (ctrl : NvmeCtrl) {prplists prplistIova : U64} (held : ℕ → U64) {nprplists : ℕ}
  (hn : 1 ≤ nprplists) (cmd : NvmeCmd) (call : PrpCall)

include hn

theorem PrpCall.stores_of_none (hmapped : iommuTranslateVaddr ctrl.map prplists = none) :
    (call.run ctrl prplists held nprplists cmd).stores = [] := by
  cases call with
  | mapPrp iova len => rw [PrpCall.run, nvmeMapPrp, if_neg (by omega), hmapped]
  | mapvPrp first rest =>
      rw [PrpCall.run, nvmeMapvPrp, if_neg (by omega), hmapped]
      cases iommuTranslateVaddr ctrl.map first.iovBase with
      | none => rfl
      | some iova => rfl
  | mapvIovaPrp first rest => rw [PrpCall.run, nvmeMapvIovaPrp, if_neg (by omega), hmapped]

theorem PrpCall.stores_of_some
    (hmapped : iommuTranslateVaddr ctrl.map prplists = some prplistIova) :
    (call.run ctrl prplists held nprplists cmd).stores =
      (prpCursorPutAll (maxPrpsOf ctrl.pageshift) ctrl.pageshift
        (prpCursorInit prplistIova nprplists) (call.entries ctrl nprplists)).2.stores := by
  have hk := ctrl.pageshift_lt
  cases call with
  | mapPrp iova len =>
      rw [PrpCall.run, nvmeMapPrp_eq_mapv, nvmeMapvIovaPrp_eq hn hmapped]
      exact mapvPrp_stores hk _ _ held cmd iova len []
  | mapvPrp first rest =>
      rw [PrpCall.run, PrpCall.entries, nvmeMapvPrp, if_neg (by omega), hmapped]
      cases iommuTranslateVaddr ctrl.map first.iovBase with
      | none => rfl
      | some iova => exact mapvPrp_stores hk _ _ held cmd iova first.iovLen rest
  | mapvIovaPrp first rest =>
      rw [PrpCall.run, nvmeMapvIovaPrp_eq hn hmapped]
      exact mapvPrp_stores hk _ _ held cmd first.iova first.len rest

theorem PrpCall.exists_framed (prplists : U64) :
    ∃ c, Framed ctrl.pageshift ((iommuTranslateVaddr ctrl.map prplists).getD 0) nprplists c
        (call.log ctrl prplists nprplists) ∧
      (call.run ctrl prplists held nprplists cmd).stores = c.stores := by
  rw [PrpCall.log]
  cases hmapped : iommuTranslateVaddr ctrl.map prplists with
  | none =>
      exact ⟨_, framed_init ctrl.pageshift 0 hn, call.stores_of_none ctrl held hn cmd hmapped⟩
  | some prplistIova =>
      exact ⟨_, (framed_init ctrl.pageshift prplistIova hn).putAll _,
        call.stores_of_some ctrl held hn cmd hmapped⟩

end Run

end Calls

section Frame

variable {pageshift nprplists : ℕ} {c : PrpCursor} {prplistIova : U64} {log : List ListStore}

theorem Framed.map_fst_stores (h : Framed pageshift prplistIova nprplists c log) :
    c.stores.map Prod.fst = List.range (c.index pageshift) := by
  rw [h.stores, List.map_map, ← h.consecutive]
  rfl

theorem Framed.index_le (h : Framed pageshift prplistIova nprplists c log) :
    c.index pageshift ≤ nprplists * maxPrpsOf pageshift := by
  have hpages : (c.page + 1) * maxPrpsOf pageshift ≤ nprplists * maxPrpsOf pageshift :=
    Nat.mul_le_mul_right _ h.page_lt
  have hslot := h.slot_le
  rw [Nat.succ_mul] at hpages
  rw [PrpCursor.index]
  omega

theorem Framed.prpFrame (h : Framed pageshift prplistIova nprplists c log) (held : ℕ → U64)
    {out : PrpOutcome} (hout : out.stores = c.stores) :
    PrpFrame pageshift nprplists held log out := by
  have hfst : out.stores.map Prod.fst = List.range (c.index pageshift) := by
    rw [hout, h.map_fst_stores]
  refine ⟨fun s hs => ?_, ?_, ?_, h.links, fun i hi => ?_⟩
  · have hmem : s.1 ∈ List.range (c.index pageshift) := hfst ▸ List.mem_map_of_mem hs
    exact (List.mem_range.mp hmem).trans_le h.index_le
  · rw [hfst]
    exact List.pairwise_lt_range
  · have hlength := congrArg List.length hfst
    rw [List.length_map, List.length_range] at hlength
    rw [hfst, hlength]
  · have hnone : listMemory out.stores i = none := by
      refine listMemory_eq_none fun s hs heq => ?_
      exact (hi s hs).ne (congrArg (· / maxPrpsOf pageshift) heq)
    rw [PrpOutcome.slot, hnone, Option.getD_none]

end Frame

/-- Whatever is mapped and whether it succeeds or not, a call stores to slots of the list pages
only, to each at most once and from the first one on. The links are those of `LinksFollowed`, and
the pages behind the last one that was used are as before. As the slots can be counted in an
`int`, the index does not wrap. -/
theorem prpCall_frame (ctrl : NvmeCtrl) (prplists : U64) (held : ℕ → U64) (nprplists : ℕ)
    (hn : 1 ≤ nprplists) (hint : nprplists * maxPrpsOf ctrl.pageshift < 2 ^ 31) (cmd : NvmeCmd)
    (call : PrpCall) :
    let out := call.run ctrl prplists held nprplists cmd
    let log := call.log ctrl prplists nprplists
    let prplistIova := (iommuTranslateVaddr ctrl.map prplists).getD 0
    (out.stores = log.map fun s => (s.index ctrl.pageshift, s.value ctrl.pageshift prplistIova)) ∧
      PrpFrame ctrl.pageshift nprplists held log out ∧
      ∀ s ∈ out.stores, (s.1 : ℤ).bmod (2 ^ 32) = s.1 := by
  intro out log prplistIova
  obtain ⟨c, hframed, hstores⟩ := call.exists_framed ctrl held hn cmd prplists
  have hframe : PrpFrame ctrl.pageshift nprplists held log out := hframed.prpFrame held hstores
  refine ⟨hstores.trans hframed.stores, hframe, fun s hs => ?_⟩
  have hlt := (hframe.inside s hs).trans hint
  exact Int.bmod_eq_of_le (by omega) (by omega)

/-- A buffer of 514 pages takes the first page but for the link, and two slots of the second. -/
theorem prpCall_frame_two_pages :
    let call := PrpCall.mapPrp 0x1000000 (514 <<< 12)
    let out := call.run twoPageCtrl 0x10000 (fun _ => 0) 2 ⟨0, ⟨0, 0⟩⟩
    out.stores.length = 514 ∧
      PrpFrame twoPageCtrl.pageshift 2 (fun _ => 0) (call.log twoPageCtrl 0x10000 2) out := by
  intro call out
  have hframe := prpCall_frame twoPageCtrl 0x10000 (fun _ => 0) 2 (by decide) (by decide)
    ⟨0, ⟨0, 0⟩⟩ call
  have hlength : (call.log twoPageCtrl 0x10000 2).length = 514 := by decide +kernel
  exact ⟨by rw [hframe.1, List.length_map, hlength], hframe.2.1⟩

end Nvme

end Libvfn
