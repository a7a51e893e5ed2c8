import Libvfn.Foundation.Windows
import Libvfn.Iommu.Intervals
import Libvfn.Iommu.Vfio.Backend

/-!
# What the device reaches

A context keeps a map of the memory that it has mapped for the device. The kernel has a table
of its own, and it is this table that the device looks through. The library and the kernel
change their tables one after the other, either side can refuse, and with iommufd it is the
kernel that chooses the addresses. We compare the two after every run of calls.

`Faithful ops table` says how a backend treats the table of the kernel, and nothing else is used
of it. It holds of both backends, for every kernel that keeps its table as `IoasOps.Keeps` or
`KernelOps.Keeps` say: it may refuse any call for any reason and choose any address that is free.
Then the device reaches the memory that the context translates, at the addresses that it says,
and no other memory.
-/

namespace Libvfn

namespace Iommu

open Word Support Windows

/-! ## Backends -/

structure Access where
  read : Bool
  write : Bool
  deriving DecidableEq

def accessOf (flags : U64) : Access :=
  ⟨flags &&& iommuMapNoread = 0, flags &&& iommuMapNowrite = 0⟩

def IovaMapping.window (m : IovaMapping) : Window Access :=
  ⟨m.iova.toNat, m.vaddr.toNat, m.len.toNat, accessOf m.flags⟩

variable {σ : Type*}

/-- How a backend treats the table of the kernel: it puts in a window for each mapping that it
accepts, takes it out again, and leaves the table alone otherwise. -/
structure Faithful (ops : IommuCtxOps σ) (table : σ → Table Access) : Prop where
  map_ok : ∀ {s s' : σ} {vaddr len iova flags got : U64},
    ops.dmaMap s vaddr len iova flags = (.ok got, s') →
      len ≠ 0 ∧ got.toNat + len.toNat ≤ 2 ^ 64 ∧
        (table s').windows.Perm (IovaMapping.window ⟨vaddr, len, got, flags⟩ :: (table s).windows)
  map_error : ∀ {s s' : σ} {vaddr len iova flags : U64} {e : Errno},
    ops.dmaMap s vaddr len iova flags = (.error e, s') → table s' = table s
  unmap_ok : ∀ {s s' : σ} {m : IovaMapping}, m.window ∈ (table s).windows →
    ops.dmaUnmap s m.iova m.len = (.ok (), s') →
      (table s).windows.Perm (m.window :: (table s').windows)
  unmap_error : ∀ {s s' : σ} {iova len : U64} {e : Errno},
    ops.dmaUnmap s iova len = (.error e, s') → table s' = table s
  unmapAll_ok : ∀ {f : σ → Except Errno Unit × σ} {s s' : σ}, ops.dmaUnmapAll = some f →
    f s = (.ok (), s') → (table s').windows = []
  unmapAll_error : ∀ {f : σ → Except Errno Unit × σ} {s s' : σ} {e : Errno},
    ops.dmaUnmapAll = some f → f s = (.error e, s') → table s' = table s
  reserve : ∀ {s : σ} {len flags : U64} {res : Except Errno U64 × σ},
    ops.iovaReserve.map (fun f => f s len flags) = some res → table res.2 = table s
  reserveAlign : ∀ {s : σ} {len align flags : U64} {res : Except Errno U64 × σ},
    ops.iovaReserveAlign.map (fun f => f s len align flags) = some res → table res.2 = table s
  putEphemeral : ∀ (s : σ) (flags : U64), table (putEphemeral ops flags s) = table s

/-! ## The map and the table -/

/-- The windows of the table are those of the map. -/
structure Agrees (table : σ → Table Access) (ctx : IommuCtx σ) : Prop where
  mapped : ∃ xs, Mapped ctx.map xs
  small : ∀ m ∈ ctx.map.held, m.iova.toNat + m.len.toNat ≤ 2 ^ 64
  windows : (table ctx.backend).windows.Perm (ctx.map.held.map IovaMapping.window)

section Agreement

variable {ops : IommuCtxOps σ} {table : σ → Table Access} {ctx ctx' : IommuCtx σ}
  {vaddr len iova align flags : U64}

theorem Agrees.of_table {backend : σ} (h : Agrees table ctx)
    (hsame : table backend = table ctx.backend) : Agrees table { ctx with backend := backend } :=
  ⟨h.mapped, h.small, hsame ▸ h.windows⟩

theorem Agrees.mapAt (hf : Faithful ops table) (h : Agrees table ctx)
    (hfree : Unmapped ctx.map vaddr len) :
    Agrees table (iommuMapAt ops ctx vaddr len iova flags).2 := by
  obtain ⟨xs, hmapped⟩ := h.mapped
  rw [iommuMapAt]
  rcases hmap : ops.dmaMap ctx.backend vaddr len iova flags with ⟨e | got, backend⟩
  · exact h.of_table (hf.map_error hmap)
  · obtain ⟨hlen, hsmall, hperm⟩ := hf.map_ok hmap
    dsimp only
    rw [hmapped.add_eq hfree, if_neg hlen]
    obtain ⟨xs', hmapped', hheld⟩ := hmapped.link (m := ⟨vaddr, len, got, flags⟩) hlen hfree
    refine ⟨⟨xs', hmapped'⟩, fun m hm => ?_, ?_⟩
    · rcases List.mem_cons.mp (hheld.mem_iff.mp hm) with rfl | hm
      · exact hsmall
      · exact h.small m hm
    · exact (hperm.trans (h.windows.cons _)).trans (hheld.map IovaMapping.window).symm

theorem Agrees.mapReserved (hf : Faithful ops table) (h : Agrees table ctx)
    (hfree : Unmapped ctx.map vaddr len) {res : Except Errno U64 × σ}
    (hres : table res.2 = table ctx.backend) :
    Agrees table (iommuMapReserved ops ctx vaddr len flags res).2 := by
  obtain ⟨e | iova, backend⟩ := res
  · exact h.of_table hres
  · exact (h.of_table hres).mapAt hf hfree

theorem Agrees.mapVaddr (hf : Faithful ops table) (h : Agrees table ctx)
    (hclear : Clear ctx.map vaddr len) :
    Agrees table (iommuMapVaddr ops ctx vaddr len iova flags).2 := by
  obtain ⟨xs, hmapped⟩ := h.mapped
  have hmaps := iommuMapVaddr_maps ops ctx vaddr len iova flags
  generalize iommuMapVaddr ops ctx vaddr len iova flags = r at hmaps ⊢
  cases hmaps with
  | found => exact h
  | fixed hmiss => exact h.mapAt hf (hclear.unmapped hmapped hmiss)
  | chosen hmiss => exact h.mapAt hf (hclear.unmapped hmapped hmiss)
  | reserved hmiss _ res hres =>
      exact h.mapReserved hf (hclear.unmapped hmapped hmiss) (hf.reserve hres)

theorem Agrees.mapVaddrAlign (hf : Faithful ops table) (h : Agrees table ctx)
    (hclear : Clear ctx.map vaddr len) :
    Agrees table (iommuMapVaddrAlign ops ctx vaddr len align flags).2 := by
  obtain ⟨xs, hmapped⟩ := h.mapped
  have hmaps := iommuMapVaddrAlign_maps ops ctx vaddr len align flags
  generalize iommuMapVaddrAlign ops ctx vaddr len align flags = r at hmaps ⊢
  cases hmaps with
  | refused => exact h
  | found => exact h
  | unsupported => exact h
  | reserved hmiss _ res hres =>
      exact h.mapReserved hf (hclear.unmapped hmapped hmiss) (hf.reserveAlign hres)

theorem Agrees.unmapVaddr (hf : Faithful ops table) (h : Agrees table ctx) :
    Agrees table (iommuUnmapVaddr ops ctx vaddr).2 := by
  obtain ⟨xs, hmapped⟩ := h.mapped
  have hunmaps : Unmaps ops ctx xs vaddr (iommuUnmapVaddr ops ctx vaddr) :=
    iommuUnmapVaddr_spec hmapped
  generalize iommuUnmapVaddr ops ctx vaddr = r at hunmaps ⊢
  cases hunmaps with
  | missing => exact h
  | refused i e backend hi hin hunmap => exact h.of_table (hf.unmap_error hunmap)
  | removed l r i backend hxs hin hunmap =>
      subst hxs
      obtain ⟨hmapped', hheld⟩ := hmapped.remove
      have hwindows := h.windows.trans (hheld.map IovaMapping.window)
      have hmem := hwindows.mem_iff.mpr List.mem_cons_self
      refine ⟨⟨l ++ r, hmapped'⟩, fun m hm => ?_, ?_⟩
      · exact h.small m (hheld.mem_iff.mpr (List.mem_cons_of_mem _ hm))
      · rw [hf.putEphemeral]
        exact List.Perm.cons_inv ((hf.unmap_ok hmem hunmap).symm.trans hwindows)

/-- Unmapping the mappings one after the other empties the table. -/
theorem unmapMappings_windows (hf : Faithful ops table) {ms : List IovaMapping} {s s' : σ}
    (hs : (table s).windows.Perm (ms.map IovaMapping.window))
    (hunmap : unmapMappings ops ms s = some s') : (table s').windows = [] := by
  induction ms generalizing s with
  | nil =>
      obtain rfl := Option.some.inj hunmap
      exact hs.eq_nil
  | cons m ms ih =>
      have hmem := hs.mem_iff.mpr List.mem_cons_self
      rw [unmapMappings] at hunmap
      rcases hone : ops.dmaUnmap s m.iova m.len with ⟨e | u, backend⟩
      · rw [hone] at hunmap
        cases hunmap
      · rw [hone] at hunmap
        exact ih (List.Perm.cons_inv ((hf.unmap_ok hmem hone).symm.trans hs)) hunmap

theorem Agrees.unmapAll (hf : Faithful ops table) (h : Agrees table ctx)
    {res : Except Errno Unit × IommuCtx σ} (hres : iommuUnmapAll ops ctx = some res) :
    Agrees table res.2 := by
  obtain ⟨xs, hmapped⟩ := h.mapped
  obtain ⟨hempty, hheld⟩ := hmapped.clear_held
  have hcleared : ∀ backend : σ, (table backend).windows = [] →
      Agrees table { ctx with map := (iovaMapClearWith ctx.map).1, backend := backend } := by
    intro backend hnone
    refine ⟨⟨[], hmapped.clear⟩, fun m hm => ?_, ?_⟩
    · exact absurd (hempty ▸ hm) List.not_mem_nil
    · rw [hnone, hempty]
      exact .refl _
  cases iommuUnmapAll_spec hres with
  | refused unmapAll e backend hops hunmap => exact h.of_table (hf.unmapAll_error hops hunmap)
  | atOnce unmapAll backend hops hunmap => exact hcleared backend (hf.unmapAll_ok hops hunmap)
  | oneByOne backend hops hunmap =>
      rw [hheld] at hunmap
      exact hcleared backend (unmapMappings_windows hf h.windows hunmap)

/-- Every call whose block is clear keeps the map and the table in agreement. -/
theorem agrees_step (hf : Faithful ops table) (call : DmaOp) (h : Agrees table ctx)
    (hclear : call.Clear ctx) (hstep : dmaStep ops ctx call = some ctx') : Agrees table ctx' := by
  cases call with
  | map vaddr len iova flags =>
      obtain rfl := Option.some.inj hstep
      exact h.mapVaddr hf hclear
  | mapAlign vaddr len align flags =>
      obtain rfl := Option.some.inj hstep
      exact h.mapVaddrAlign hf hclear
  | unmap vaddr =>
      obtain rfl := Option.some.inj hstep
      exact h.unmapVaddr hf
  | unmapAll =>
      obtain ⟨res, hres, rfl⟩ := Option.map_eq_some_iff.mp hstep
      exact h.unmapAll hf hres

theorem agrees_init (table : σ → Table Access) (rand : ℕ → Bool) (garbage : IovaMapping)
    (iovaMax iovaNextSame : U64) {backend : σ} (hempty : (table backend).windows = []) :
    Agrees table ⟨iovaMapInit rand garbage, iovaMax, iovaNextSame, backend⟩ := by
  have hheld : (iovaMapInit rand garbage).held = [] := (mapped_init rand garbage).held_eq
  refine ⟨⟨[], mapped_init rand garbage⟩, fun m hm => ?_, ?_⟩
  · exact absurd (hheld ▸ hm) List.not_mem_nil
  · rw [hempty, hheld]
    exact .refl _

/-- The context translates an address to where the device reaches it. -/
theorem Agrees.translate_iff_reaches (h : Agrees table ctx) (vaddr iova : U64) :
    iommuTranslateVaddr ctx.map vaddr = some iova ↔
      (table ctx.backend).Reaches iova.toNat vaddr.toNat := by
  obtain ⟨xs, hmapped⟩ := h.mapped
  rw [hmapped.translate_eq_some_iff]
  constructor
  · rintro ⟨m, hm, ⟨hlo, hhi⟩, rfl⟩
    have hsmall := h.small m hm
    have hoff : (vaddr - m.vaddr).toNat = vaddr.toNat - m.vaddr.toNat :=
      BitVec.toNat_sub_of_le hlo
    have hiova : (m.iova + (vaddr - m.vaddr)).toNat =
        m.iova.toNat + (vaddr.toNat - m.vaddr.toNat) := by
      rw [BitVec.toNat_add, hoff, Nat.mod_eq_of_lt (by omega)]
    refine ⟨m.window, h.windows.mem_iff.mpr (List.mem_map_of_mem hm),
      vaddr.toNat - m.vaddr.toNat, ?_, hiova.symm, Nat.add_sub_cancel' hlo⟩
    exact Nat.sub_lt_left_of_lt_add hlo hhi
  · rintro ⟨w, hw, o, ho, hstart, htarget⟩
    obtain ⟨m, hm, rfl⟩ := List.mem_map.mp (h.windows.mem_iff.mp hw)
    have hsmall := h.small m hm
    change o < m.len.toNat at ho
    change m.iova.toNat + o = iova.toNat at hstart
    change m.vaddr.toNat + o = vaddr.toNat at htarget
    have hlo : m.vaddr ≤ vaddr := BitVec.le_def.mpr (by omega)
    refine ⟨m, hm, ⟨hlo, by omega⟩, BitVec.eq_of_toNat_eq ?_⟩
    rw [BitVec.toNat_add, BitVec.toNat_sub_of_le hlo, Nat.mod_eq_of_lt (by omega)]
    omega

end Agreement

/-! ## What is assumed of the kernel -/

/-- `struct iommu_ioas_map`, without the fields that do not vary. -/
structure IoasMap where
  flags : BitVec 32
  userVa : U64
  length : U64
  iova : U64

def ioasMapFixedIova : BitVec 32 := 1

def ioasMapWriteable : BitVec 32 := 2

def ioasMapReadable : BitVec 32 := 4

def IoasMap.access (map : IoasMap) : Access :=
  ⟨map.flags &&& ioasMapReadable ≠ 0, map.flags &&& ioasMapWriteable ≠ 0⟩

def IoasMap.window (map : IoasMap) (iova : U64) : Window Access :=
  ⟨iova.toNat, map.userVa.toNat, map.length.toNat, map.access⟩

def DmaMap.access (m : DmaMap) : Access :=
  ⟨m.flags &&& vfioDmaMapFlagRead ≠ 0, m.flags &&& vfioDmaMapFlagWrite ≠ 0⟩

def DmaMap.window (m : DmaMap) : Window Access :=
  ⟨m.iova.toNat, m.vaddr.toNat, m.size.toNat, m.access⟩

/-- How iommufd answers, on a state of its own: `IOMMU_IOAS_MAP`, with the address that the
mapping has got, and `IOMMU_IOAS_UNMAP` for an address and a length. -/
structure IoasOps (κ : Type*) where
  map : κ → IoasMap → Except Errno U64 × κ
  unmap : κ → U64 → U64 → Option Errno × κ

section Assumptions

variable {κ : Type*}

/-- What iommufd does with its table. The whole address space is everything. -/
structure IoasOps.Keeps (kernel : IoasOps κ) (table : κ → Table Access) : Prop where
  map_ok : ∀ {k k' : κ} {map : IoasMap} {got : U64}, kernel.map k map = (.ok got, k') →
    (map.flags &&& ioasMapFixedIova ≠ 0 → got = map.iova) ∧
      map.length ≠ 0 ∧ got.toNat + map.length.toNat ≤ 2 ^ 64 ∧
      (table k').windows.Perm (map.window got :: (table k).windows)
  map_error : ∀ {k k' : κ} {map : IoasMap} {e : Errno}, kernel.map k map = (.error e, k') →
    table k' = table k
  unmap_none : ∀ {k k' : κ} {w : Window Access} {iova len : U64}, w ∈ (table k).windows →
    w.start = iova.toNat → w.len = len.toNat → kernel.unmap k iova len = (none, k') →
      (table k).windows.Perm (w :: (table k').windows)
  unmap_all : ∀ {k k' : κ}, kernel.unmap k 0 (BitVec.allOnes 64) = (none, k') →
    (table k').windows = []
  unmap_some : ∀ {k k' : κ} {iova len : U64} {e : Errno},
    kernel.unmap k iova len = (some e, k') → table k' = table k

structure KernelOps.Keeps (kernel : KernelOps κ) (table : κ → Table Access) : Prop where
  map_none : ∀ {k k' : κ} {m : DmaMap}, kernel.map k m = (none, k') →
    m.size ≠ 0 ∧ m.iova.toNat + m.size.toNat ≤ 2 ^ 64 ∧
      (table k').windows.Perm (m.window :: (table k).windows)
  map_some : ∀ {k k' : κ} {m : DmaMap} {e : Errno}, kernel.map k m = (some e, k') →
    table k' = table k
  unmap_none : ∀ {k k' : κ} {w : Window Access} {iova len : U64}, w ∈ (table k).windows →
    w.start = iova.toNat → w.len = len.toNat → kernel.unmap k iova len = (none, k') →
      (table k).windows.Perm (w :: (table k').windows)
  unmap_some : ∀ {k k' : κ} {iova len : U64} {e : Errno},
    kernel.unmap k iova len = (some e, k') → table k' = table k
  unmapAll_none : ∀ {k k' : κ}, kernel.unmapAll k = (none, k') → (table k').windows = []
  unmapAll_some : ∀ {k k' : κ} {e : Errno}, kernel.unmapAll k = (some e, k') →
    table k' = table k

end Assumptions

/-! ## A kernel that meets it -/

/-- The kernel refuses a call, or it agrees and has an address to offer. -/
inductive Answer where
  | refuse (e : Errno)
  | agree (choice : U64)

/-- The table of the kernel, with whole pages only, and how it is going to answer. -/
structure Kernel where
  table : Table Access
  paged : ∀ w ∈ table.windows, 0x1000 ∣ w.len
  answers : ℕ → Answer
  calls : ℕ

namespace Kernel

def start (answers : ℕ → Answer) : Kernel := ⟨.empty, nofun, answers, 0⟩

def next (k : Kernel) : Kernel := { k with calls := k.calls + 1 }

def ask {β : Type} (k : Kernel) (refused : Errno → β) (act : U64 → β × Kernel) : β × Kernel :=
  match k.answers k.calls with
  | .refuse e => (refused e, k.next)
  | .agree choice => act choice

def Fits (k : Kernel) (w : Window Access) : Prop :=
  0 < w.len ∧ 0x1000 ∣ w.len ∧ w.start + w.len ≤ 2 ^ 64 ∧ ∀ v ∈ k.table.windows, w.Apart v

instance (k : Kernel) (w : Window Access) : Decidable (k.Fits w) :=
  inferInstanceAs (Decidable (_ ∧ _ ∧ _ ∧ _))

def mapAt (k : Kernel) (w : Window Access) : Option Errno × Kernel :=
  if h : k.Fits w then
    (none,
      { k.next with
        table := k.table.insert w h.1 h.2.2.2
        paged := List.forall_mem_cons.mpr ⟨h.2.1, k.paged⟩ })
  else (some .EEXIST, k.next)

def unmapIn (k : Kernel) (start len : ℕ) : Option Errno × Kernel :=
  if k.table.Whole start len then
    (none,
      { k.next with
        table := k.table.drop start len
        paged := fun w hw => k.paged w (List.mem_of_mem_filter hw) })
  else (some .EINVAL, k.next)

def clear (k : Kernel) : Kernel := { k.next with table := .empty, paged := nofun }

/-- iommufd: there has to be something in a block that is unmapped. -/
def ioas : IoasOps Kernel where
  map := fun k map =>
    k.ask .error fun choice =>
      let iova := if map.flags &&& ioasMapFixedIova ≠ 0 then map.iova else choice
      match k.mapAt (map.window iova) with
      | (some e, k) => (.error e, k)
      | (none, k) => (.ok iova, k)
  unmap := fun k iova len =>
    k.ask some fun _ =>
      if iova = 0 ∧ len = BitVec.allOnes 64 then (none, k.clear)
      else if ∀ w ∈ k.table.windows, ¬w.Within iova.toNat len.toNat then (some .ENOENT, k.next)
      else k.unmapIn iova.toNat len.toNat

def vfio : KernelOps Kernel where
  map := fun k m => k.ask some fun _ => k.mapAt m.window
  unmap := fun k iova size => k.ask some fun _ => k.unmapIn iova.toNat size.toNat
  unmapAll := fun k => k.ask some fun _ => (none, k.clear)

variable {k k' : Kernel} {w : Window Access} {iova len : U64} {e : Errno}

theorem ask_cases {β : Type} {refused : Errno → β} {act : U64 → β × Kernel} {b : β}
    (h : k.ask refused act = (b, k')) :
    (∃ e, b = refused e ∧ k'.table = k.table) ∨ ∃ choice, act choice = (b, k') := by
  rw [ask] at h
  cases hanswer : k.answers k.calls with
  | refuse e =>
      rw [hanswer] at h
      obtain ⟨rfl, rfl⟩ := Prod.mk.inj h
      exact .inl ⟨e, rfl, rfl⟩
  | agree choice =>
      rw [hanswer] at h
      exact .inr ⟨choice, h⟩

theorem mapAt_none (h : k.mapAt w = (none, k')) :
    0 < w.len ∧ w.start + w.len ≤ 2 ^ 64 ∧ k'.table.windows = w :: k.table.windows := by
  rw [mapAt] at h
  split_ifs at h with hfits
  · obtain ⟨-, rfl⟩ := Prod.mk.inj h
    exact ⟨hfits.1, hfits.2.2.1, rfl⟩
  · cases (Prod.mk.inj h).1

theorem mapAt_some (h : k.mapAt w = (some e, k')) : k'.table = k.table := by
  rw [mapAt] at h
  split_ifs at h
  · cases (Prod.mk.inj h).1
  · obtain ⟨-, rfl⟩ := Prod.mk.inj h
    rfl

theorem unmapIn_none (hmem : w ∈ k.table.windows) (hstart : w.start = iova.toNat)
    (hlen : w.len = len.toNat) (h : k.unmapIn iova.toNat len.toNat = (none, k')) :
    k.table.windows.Perm (w :: k'.table.windows) := by
  rw [unmapIn, ← hstart, ← hlen] at h
  split_ifs at h
  · obtain ⟨-, rfl⟩ := Prod.mk.inj h
    exact k.table.perm_drop hmem
  · cases (Prod.mk.inj h).1

theorem unmapIn_some {start len : ℕ} (h : k.unmapIn start len = (some e, k')) :
    k'.table = k.table := by
  rw [unmapIn] at h
  split_ifs at h
  · cases (Prod.mk.inj h).1
  · obtain ⟨-, rfl⟩ := Prod.mk.inj h
    rfl

theorem ne_zero_of_toNat_pos {len : U64} (h : 0 < len.toNat) : len ≠ 0 := by
  rintro rfl
  exact absurd h (by decide)

theorem ioas_map_ok {map : IoasMap} {got : U64} (h : ioas.map k map = (.ok got, k')) :
    (map.flags &&& ioasMapFixedIova ≠ 0 → got = map.iova) ∧
      map.length ≠ 0 ∧ got.toNat + map.length.toNat ≤ 2 ^ 64 ∧
      k'.table.windows.Perm (map.window got :: k.table.windows) := by
  rcases ask_cases h with ⟨e, he, -⟩ | ⟨choice, hact⟩
  · cases he
  · dsimp only at hact
    generalize hiova :
      (if map.flags &&& ioasMapFixedIova ≠ 0 then map.iova else choice) = place at hact
    rcases hmap : k.mapAt (map.window place) with ⟨_ | e, k''⟩
    · rw [hmap] at hact
      obtain ⟨hgot, rfl⟩ := Prod.mk.inj hact
      obtain rfl := Except.ok.inj hgot
      obtain ⟨hpos, hend, hwindows⟩ := mapAt_none hmap
      refine ⟨fun hfixed => ?_, ne_zero_of_toNat_pos hpos, hend, .of_eq hwindows⟩
      rw [← hiova, if_pos hfixed]
    · rw [hmap] at hact
      cases (Prod.mk.inj hact).1

theorem ioas_map_error {map : IoasMap} (h : ioas.map k map = (.error e, k')) :
    k'.table = k.table := by
  rcases ask_cases h with ⟨-, -, htable⟩ | ⟨choice, hact⟩
  · exact htable
  · dsimp only at hact
    generalize (if map.flags &&& ioasMapFixedIova ≠ 0 then map.iova else choice) = place at hact
    rcases hmap : k.mapAt (map.window place) with ⟨_ | e, k''⟩
    · rw [hmap] at hact
      cases (Prod.mk.inj hact).1
    · rw [hmap] at hact
      obtain ⟨-, rfl⟩ := Prod.mk.inj hact
      exact mapAt_some hmap

theorem ioas_unmap_none (hmem : w ∈ k.table.windows) (hstart : w.start = iova.toNat)
    (hlen : w.len = len.toNat) (h : ioas.unmap k iova len = (none, k')) :
    k.table.windows.Perm (w :: k'.table.windows) := by
  -- the length of a window is that of pages, so the call is not taken for all windows
  have hpaged : len ≠ BitVec.allOnes 64 := by
    rintro rfl
    have hdvd := k.paged w hmem
    rw [hlen] at hdvd
    exact absurd hdvd (by decide)
  rcases ask_cases h with ⟨e, he, -⟩ | ⟨choice, hact⟩
  · cases he
  · rw [if_neg fun hboth => hpaged hboth.2] at hact
    split_ifs at hact
    · cases (Prod.mk.inj hact).1
    · exact unmapIn_none hmem hstart hlen hact

theorem ioas_unmap_all (h : ioas.unmap k 0 (BitVec.allOnes 64) = (none, k')) :
    k'.table.windows = [] := by
  rcases ask_cases h with ⟨e, he, -⟩ | ⟨choice, hact⟩
  · cases he
  · rw [if_pos ⟨rfl, rfl⟩] at hact
    obtain ⟨-, rfl⟩ := Prod.mk.inj hact
    rfl

theorem ioas_unmap_some (h : ioas.unmap k iova len = (some e, k')) : k'.table = k.table := by
  rcases ask_cases h with ⟨-, -, htable⟩ | ⟨choice, hact⟩
  · exact htable
  · split_ifs at hact
    · cases (Prod.mk.inj hact).1
    · obtain ⟨-, rfl⟩ := Prod.mk.inj hact
      rfl
    · exact unmapIn_some hact

theorem ioas_keeps : ioas.Keeps table :=
  ⟨ioas_map_ok, ioas_map_error, ioas_unmap_none, ioas_unmap_all, ioas_unmap_some⟩

theorem vfio_map_none {m : DmaMap} (h : vfio.map k m = (none, k')) :
    m.size ≠ 0 ∧ m.iova.toNat + m.size.toNat ≤ 2 ^ 64 ∧
      k'.table.windows.Perm (m.window :: k.table.windows) := by
  rcases ask_cases h with ⟨e, he, -⟩ | ⟨choice, hact⟩
  · cases he
  · obtain ⟨hpos, hend, hwindows⟩ := mapAt_none hact
    exact ⟨ne_zero_of_toNat_pos hpos, hend, .of_eq hwindows⟩

theorem vfio_map_some {m : DmaMap} (h : vfio.map k m = (some e, k')) : k'.table = k.table := by
  rcases ask_cases h with ⟨-, -, htable⟩ | ⟨choice, hact⟩
  · exact htable
  · exact mapAt_some hact

theorem vfio_unmap_none (hmem : w ∈ k.table.windows) (hstart : w.start = iova.toNat)
    (hlen : w.len = len.toNat) (h : vfio.unmap k iova len = (none, k')) :
    k.table.windows.Perm (w :: k'.table.windows) := by
  rcases ask_cases h with ⟨e, he, -⟩ | ⟨choice, hact⟩
  · cases he
  · exact unmapIn_none hmem hstart hlen hact

theorem vfio_unmap_some (h : vfio.unmap k iova len = (some e, k')) : k'.table = k.table := by
  rcases ask_cases h with ⟨-, -, htable⟩ | ⟨choice, hact⟩
  · exact htable
  · exact unmapIn_some hact

theorem vfio_unmapAll_none (h : vfio.unmapAll k = (none, k')) : k'.table.windows = [] := by
  rcases ask_cases h with ⟨e, he, -⟩ | ⟨choice, hact⟩
  · cases he
  · obtain ⟨-, rfl⟩ := Prod.mk.inj hact
    rfl

theorem vfio_unmapAll_some (h : vfio.unmapAll k = (some e, k')) : k'.table = k.table := by
  rcases ask_cases h with ⟨-, -, htable⟩ | ⟨choice, hact⟩
  · exact htable
  · cases (Prod.mk.inj hact).1

theorem vfio_keeps : vfio.Keeps table :=
  ⟨vfio_map_none, vfio_map_some, vfio_unmap_none, vfio_unmap_some, vfio_unmapAll_none,
    vfio_unmapAll_some⟩

end Kernel

/-! ## iommufd -/

def ioasMapOf (vaddr len iova flags : U64) : IoasMap :=
  let map : IoasMap := ⟨ioasMapReadable ||| ioasMapWriteable, vaddr, len, 0⟩
  let map :=
    if flags &&& iommuMapFixedIova ≠ 0 then
      { map with flags := map.flags ||| ioasMapFixedIova, iova := iova }
    else map
  let map :=
    if flags &&& iommuMapNowrite ≠ 0 then { map with flags := map.flags &&& ~~~ioasMapWriteable }
    else map
  if flags &&& iommuMapNoread ≠ 0 then { map with flags := map.flags &&& ~~~ioasMapReadable }
  else map

theorem ioasMapOf_spec (vaddr len iova flags : U64) :
    (ioasMapOf vaddr len iova flags).userVa = vaddr ∧
      (ioasMapOf vaddr len iova flags).length = len ∧
      ((ioasMapOf vaddr len iova flags).flags &&& ioasMapFixedIova ≠ 0 ↔
        flags &&& iommuMapFixedIova ≠ 0) ∧
      (flags &&& iommuMapFixedIova ≠ 0 → (ioasMapOf vaddr len iova flags).iova = iova) ∧
      (ioasMapOf vaddr len iova flags).access = accessOf flags := by
  by_cases hfixed : flags &&& iommuMapFixedIova = 0#64 <;>
    by_cases hwrite : flags &&& iommuMapNowrite = 0#64 <;>
      by_cases hread : flags &&& iommuMapNoread = 0#64 <;>
        simp [ioasMapOf, IoasMap.access, accessOf, hfixed, hwrite, hread, ioasMapReadable,
          ioasMapWriteable, ioasMapFixedIova]

theorem ioasMapOf_window (vaddr len iova flags got : U64) :
    (ioasMapOf vaddr len iova flags).window got = IovaMapping.window ⟨vaddr, len, got, flags⟩ := by
  obtain ⟨hva, hlen, -, -, haccess⟩ := ioasMapOf_spec vaddr len iova flags
  rw [IoasMap.window, hva, hlen, haccess]
  rfl

section Iommufd

variable {κ : Type*} (kernel : IoasOps κ)

def iommuIoasDoDmaMap (k : κ) (vaddr len iova flags : U64) : Except Errno U64 × κ :=
  match kernel.map k (ioasMapOf vaddr len iova flags) with
  | (.error e, k) => (.error e, k)
  | (.ok got, k) =>
      if flags &&& iommuMapFixedIova ≠ 0 then (.ok iova, k) else (.ok got, k)

def iommuIoasDoDmaUnmap (k : κ) (iova len : U64) : Except Errno Unit × κ :=
  match kernel.unmap k iova len with
  | (some e, k) => (.error e, k)
  | (none, k) => (.ok (), k)

def iommuIoasDoDmaUnmapAll (k : κ) : Except Errno Unit × κ :=
  iommuIoasDoDmaUnmap kernel k 0 (BitVec.allOnes 64)

def iommufdOps : IommuCtxOps κ where
  iovaReserve := none
  iovaReserveAlign := none
  iovaPutEphemeral := none
  dmaMap := iommuIoasDoDmaMap kernel
  dmaUnmap := iommuIoasDoDmaUnmap kernel
  dmaUnmapAll := some (iommuIoasDoDmaUnmapAll kernel)

variable {kernel} {table : κ → Table Access} {k k' : κ} {vaddr len iova flags got : U64}
  {e : Errno}

theorem iommuIoasDoDmaMap_ok (hk : kernel.Keeps table)
    (h : iommuIoasDoDmaMap kernel k vaddr len iova flags = (.ok got, k')) :
    len ≠ 0 ∧ got.toNat + len.toNat ≤ 2 ^ 64 ∧ (table k').windows.Perm
      (IovaMapping.window ⟨vaddr, len, got, flags⟩ :: (table k).windows) := by
  obtain ⟨-, hlen, hfixed, hiova, -⟩ := ioasMapOf_spec vaddr len iova flags
  rw [iommuIoasDoDmaMap] at h
  rcases hmap : kernel.map k (ioasMapOf vaddr len iova flags) with ⟨e | place, k''⟩
  · rw [hmap] at h
    cases (Prod.mk.inj h).1
  · obtain ⟨hplace, hspec⟩ := hk.map_ok hmap
    rw [hlen, ioasMapOf_window] at hspec
    rw [hmap] at h
    dsimp only at h
    split_ifs at h with hflag
    · obtain ⟨hgot, rfl⟩ := Prod.mk.inj h
      obtain rfl := Except.ok.inj hgot
      rw [hplace (hfixed.mpr hflag), hiova hflag] at hspec
      exact hspec
    · obtain ⟨hgot, rfl⟩ := Prod.mk.inj h
      obtain rfl := Except.ok.inj hgot
      exact hspec

theorem iommuIoasDoDmaMap_error (hk : kernel.Keeps table)
    (h : iommuIoasDoDmaMap kernel k vaddr len iova flags = (.error e, k')) :
    table k' = table k := by
  rw [iommuIoasDoDmaMap] at h
  rcases hmap : kernel.map k (ioasMapOf vaddr len iova flags) with ⟨e | place, k''⟩
  · rw [hmap] at h
    obtain ⟨-, rfl⟩ := Prod.mk.inj h
    exact hk.map_error hmap
  · rw [hmap] at h
    dsimp only at h
    split_ifs at h
    · cases (Prod.mk.inj h).1
    · cases (Prod.mk.inj h).1

theorem iommuIoasDoDmaUnmap_ok (h : iommuIoasDoDmaUnmap kernel k iova len = (.ok (), k')) :
    kernel.unmap k iova len = (none, k') := by
  rw [iommuIoasDoDmaUnmap] at h
  rcases hunmap : kernel.unmap k iova len with ⟨_ | e, k''⟩
  · rw [hunmap] at h
    rw [(Prod.mk.inj h).2]
  · rw [hunmap] at h
    cases (Prod.mk.inj h).1

theorem iommuIoasDoDmaUnmap_error (hk : kernel.Keeps table)
    (h : iommuIoasDoDmaUnmap kernel k iova len = (.error e, k')) : table k' = table k := by
  rw [iommuIoasDoDmaUnmap] at h
  rcases hunmap : kernel.unmap k iova len with ⟨_ | e, k''⟩
  · rw [hunmap] at h
    cases (Prod.mk.inj h).1
  · rw [hunmap] at h
    obtain ⟨-, rfl⟩ := Prod.mk.inj h
    exact hk.unmap_some hunmap

theorem iommufdOps_faithful (hk : kernel.Keeps table) : Faithful (iommufdOps kernel) table where
  map_ok := iommuIoasDoDmaMap_ok hk
  map_error := iommuIoasDoDmaMap_error hk
  unmap_ok := fun hmem h => hk.unmap_none hmem rfl rfl (iommuIoasDoDmaUnmap_ok h)
  unmap_error := iommuIoasDoDmaUnmap_error hk
  unmapAll_ok := fun hops h => by
    obtain rfl := Option.some.inj hops
    exact hk.unmap_all (iommuIoasDoDmaUnmap_ok h)
  unmapAll_error := fun hops h => by
    obtain rfl := Option.some.inj hops
    exact iommuIoasDoDmaUnmap_error hk h
  reserve := nofun
  reserveAlign := nofun
  putEphemeral := fun _ _ => rfl

end Iommufd

/-- With iommufd: after every run of calls, whatever the kernel refuses and wherever it puts the
mappings, the context translates an address exactly to where the device reaches it, and each
mapping is open to the device as its flags say. -/
theorem iommufd_reaches {κ : Type*} (kernel : IoasOps κ) (table : κ → Table Access)
    (hk : kernel.Keeps table) (k : κ) (hempty : (table k).windows = []) (rand : ℕ → Bool)
    (garbage : IovaMapping) (iovaMax iovaNextSame : U64) (calls : List DmaOp) (ctx : IommuCtx κ)
    (hclear : Runs.MeetsAlong (dmaStep (iommufdOps kernel)) DmaOp.Clear
      ⟨iovaMapInit rand garbage, iovaMax, iovaNextSame, k⟩ calls)
    (hrun : Runs.run (dmaStep (iommufdOps kernel))
      ⟨iovaMapInit rand garbage, iovaMax, iovaNextSame, k⟩ calls = some ctx) :
    (∀ vaddr iova, iommuTranslateVaddr ctx.map vaddr = some iova ↔
      (table ctx.backend).Reaches iova.toNat vaddr.toNat) ∧
    (table ctx.backend).windows.Perm (ctx.map.held.map IovaMapping.window) := by
  have h : Agrees table ctx :=
    Runs.run_invariant (fun _ call _ => agrees_step (iommufdOps_faithful hk) call)
      (agrees_init _ rand garbage iovaMax iovaNextSame hempty) hclear hrun
  exact ⟨h.translate_iff_reaches, h.windows⟩

theorem clear_of_beside {map : IovaMap} {vaddr len : U64}
    (h : vaddr.toNat + len.toNat < 2 ^ 64 ∧ ∀ m ∈ map.held,
      vaddr.toNat + len.toNat ≤ m.vaddr.toNat ∨ m.vaddr.toNat + m.len.toNat ≤ vaddr.toNat) :
    Clear map vaddr len := by
  refine .inr ⟨h.1, fun m hm => ?_⟩
  rcases h.2 m hm with hle | hle
  · exact disjoint_addresses_of_le hle
  · exact (disjoint_addresses_of_le hle).symm

def fickleAnswers (n : ℕ) : Answer :=
  if n = 1 then .refuse .ENOMEM else .agree (BitVec.ofNat 64 (0xffff0000 - n * 0x10000))

def fickleCtx : IommuCtx Kernel :=
  ⟨iovaMapInit (fun _ => true) ⟨0, 0, 0, 0⟩, 0, 0, .start fickleAnswers⟩

/-- Of three pages the second one is refused. The third one has a fixed address and is read
only, and it is the one that is left when the first one is unmapped. -/
theorem iommufd_reaches_fickle :
    let calls := [DmaOp.map 0x1000 0x1000 0 0, .map 0x2000 0x1000 0 0, .map 0x3000 0x1000 0x8000 5,
      .unmap 0x1000]
    let run := Runs.run (dmaStep (iommufdOps Kernel.ioas)) fickleCtx calls
    run.map (fun ctx => ctx.backend.table.windows) =
        some [⟨0x8000, 0x3000, 0x1000, ⟨true, false⟩⟩] ∧
      ∀ ctx, run = some ctx →
        (∀ vaddr iova, iommuTranslateVaddr ctx.map vaddr = some iova ↔
          ctx.backend.table.Reaches iova.toNat vaddr.toNat) ∧
        ctx.backend.table.windows.Perm (ctx.map.held.map IovaMapping.window) := by
  refine ⟨by decide +kernel, fun ctx hrun => ?_⟩
  refine iommufd_reaches _ _ Kernel.ioas_keeps (.start fickleAnswers) rfl _ _ _ _ _ ctx ?_ hrun
  refine Runs.meetsAlong_cons rfl (clear_of_beside (by decide +kernel)) ?_
  refine Runs.meetsAlong_cons rfl (clear_of_beside (by decide +kernel)) ?_
  refine Runs.meetsAlong_cons rfl (clear_of_beside (by decide +kernel)) ?_
  exact Runs.meetsAlong_cons rfl trivial trivial

/-! ## vfio -/

theorem dmaMapFlags_window (vaddr len iova flags : U64) :
    DmaMap.window ⟨vaddr, len, iova, dmaMapFlags flags⟩ =
      IovaMapping.window ⟨vaddr, len, iova, flags⟩ := by
  have haccess : DmaMap.access ⟨vaddr, len, iova, dmaMapFlags flags⟩ = accessOf flags := by
    by_cases hwrite : flags &&& iommuMapNowrite = 0#64 <;>
      by_cases hread : flags &&& iommuMapNoread = 0#64 <;>
        simp [DmaMap.access, dmaMapFlags, accessOf, hwrite, hread, vfioDmaMapFlagRead,
          vfioDmaMapFlagWrite]
  rw [DmaMap.window, haccess]
  rfl

section Vfio

variable {κ : Type*} {kernel : KernelOps κ} {table : κ → Table Access} {s s' : KernelVfio κ}
  {pagesize vaddr len iova flags got : U64} {e : Errno}

theorem vfioIommuType1DoDmaMap_reaches (hk : kernel.Keeps table)
    (h : vfioIommuType1DoDmaMap kernel pagesize s vaddr len iova flags = (.ok got, s')) :
    len ≠ 0 ∧ got.toNat + len.toNat ≤ 2 ^ 64 ∧ (table s'.kernel).windows.Perm
      (IovaMapping.window ⟨vaddr, len, got, flags⟩ :: (table s.kernel).windows) := by
  rw [vfioIommuType1DoDmaMap] at h
  split_ifs at h
  · cases (Prod.mk.inj h).1
  · rcases hmap : kernel.map s.kernel ⟨vaddr, len, iova, dmaMapFlags flags⟩ with ⟨_ | e, k⟩
    · rw [hmap] at h
      obtain ⟨hgot, rfl⟩ := Prod.mk.inj h
      obtain rfl := Except.ok.inj hgot
      rw [← dmaMapFlags_window]
      exact hk.map_none hmap
    · rw [hmap] at h
      cases (Prod.mk.inj h).1

theorem vfioIommuType1DoDmaMap_table (hk : kernel.Keeps table)
    (h : vfioIommuType1DoDmaMap kernel pagesize s vaddr len iova flags = (.error e, s')) :
    table s'.kernel = table s.kernel := by
  rw [vfioIommuType1DoDmaMap] at h
  split_ifs at h
  · obtain ⟨-, rfl⟩ := Prod.mk.inj h
    rfl
  · rcases hmap : kernel.map s.kernel ⟨vaddr, len, iova, dmaMapFlags flags⟩ with ⟨_ | e, k⟩
    · rw [hmap] at h
      cases (Prod.mk.inj h).1
    · rw [hmap] at h
      obtain ⟨-, rfl⟩ := Prod.mk.inj h
      exact hk.map_some hmap

theorem vfioIommuType1DoDmaUnmap_reaches (hk : kernel.Keeps table) {m : IovaMapping}
    (hmem : m.window ∈ (table s.kernel).windows)
    (h : vfioIommuType1DoDmaUnmap kernel s m.iova m.len = (.ok (), s')) :
    (table s.kernel).windows.Perm (m.window :: (table s'.kernel).windows) := by
  rw [vfioIommuType1DoDmaUnmap] at h
  rcases hunmap : kernel.unmap s.kernel m.iova m.len with ⟨_ | e, k⟩
  · rw [hunmap] at h
    obtain ⟨-, rfl⟩ := Prod.mk.inj h
    exact hk.unmap_none hmem rfl rfl hunmap
  · rw [hunmap] at h
    cases (Prod.mk.inj h).1

theorem vfioIommuType1DoDmaUnmap_table (hk : kernel.Keeps table)
    (h : vfioIommuType1DoDmaUnmap kernel s iova len = (.error e, s')) :
    table s'.kernel = table s.kernel := by
  rw [vfioIommuType1DoDmaUnmap] at h
  rcases hunmap : kernel.unmap s.kernel iova len with ⟨_ | e, k⟩
  · rw [hunmap] at h
    cases (Prod.mk.inj h).1
  · rw [hunmap] at h
    obtain ⟨-, rfl⟩ := Prod.mk.inj h
    exact hk.unmap_some hunmap

theorem vfioIommuType1DoDmaUnmapAll_table (hk : kernel.Keeps table) {answer : Except Errno Unit}
    (h : vfioIommuType1DoDmaUnmapAll kernel s = (answer, s')) :
    if answer.isOk then (table s'.kernel).windows = [] else table s'.kernel = table s.kernel := by
  rw [vfioIommuType1DoDmaUnmapAll] at h
  rcases hunmap : kernel.unmapAll s.kernel with ⟨_ | e, k⟩
  · rw [hunmap] at h
    obtain ⟨rfl, rfl⟩ := Prod.mk.inj h
    exact hk.unmapAll_none hunmap
  · rw [hunmap] at h
    obtain ⟨rfl, rfl⟩ := Prod.mk.inj h
    exact hk.unmapAll_some hunmap

theorem reserved_kernel (s : KernelVfio κ) (res : Except Errno (U64 × VfioContainer)) :
    (s.reserved res).2.kernel = s.kernel := by
  cases res <;> rfl

/-- The vfio backend does with the table what it should. -/
theorem kernelVfioOps_faithful (hk : kernel.Keeps table) (pagesize : U64) (hasUnmapAll : Bool) :
    Faithful (kernelVfioOps kernel pagesize hasUnmapAll) fun s => table s.kernel where
  map_ok := vfioIommuType1DoDmaMap_reaches hk
  map_error := vfioIommuType1DoDmaMap_table hk
  unmap_ok := vfioIommuType1DoDmaUnmap_reaches hk
  unmap_error := vfioIommuType1DoDmaUnmap_table hk
  unmapAll_ok := fun hops h => by
    rw [(kernelVfioOps_dmaUnmapAll hops).2] at h
    exact vfioIommuType1DoDmaUnmapAll_table hk h
  unmapAll_error := fun hops h => by
    rw [(kernelVfioOps_dmaUnmapAll hops).2] at h
    exact vfioIommuType1DoDmaUnmapAll_table hk h
  reserve := fun hres => by
    obtain rfl := Option.some.inj hres
    exact congrArg table (reserved_kernel _ _)
  reserveAlign := fun hres => by
    obtain rfl := Option.some.inj hres
    exact congrArg table (reserved_kernel _ _)
  putEphemeral := fun s flags => by
    change table (if flags &&& iommuMapEphemeral ≠ 0 then _ else _ : KernelVfio κ).kernel = _
    split_ifs <;> rfl

end Vfio

/-- With vfio, in the same way: the addresses come from the container here. -/
theorem vfio_reaches {κ : Type*} (kernel : KernelOps κ) (table : κ → Table Access)
    (hk : kernel.Keeps table) (k : κ) (hempty : (table k).windows = []) (pagesize : U64)
    (hasUnmapAll : Bool) (vfio : VfioContainer) (rand : ℕ → Bool) (garbage : IovaMapping)
    (iovaMax iovaNextSame : U64) (calls : List DmaOp) (ctx : IommuCtx (KernelVfio κ))
    (hclear : Runs.MeetsAlong (dmaStep (kernelVfioOps kernel pagesize hasUnmapAll))
      DmaOp.Clear ⟨iovaMapInit rand garbage, iovaMax, iovaNextSame, ⟨vfio, k⟩⟩ calls)
    (hrun : Runs.run (dmaStep (kernelVfioOps kernel pagesize hasUnmapAll))
      ⟨iovaMapInit rand garbage, iovaMax, iovaNextSame, ⟨vfio, k⟩⟩ calls = some ctx) :
    (∀ vaddr iova, iommuTranslateVaddr ctx.map vaddr = some iova ↔
      (table ctx.backend.kernel).Reaches iova.toNat vaddr.toNat) ∧
    (table ctx.backend.kernel).windows.Perm (ctx.map.held.map IovaMapping.window) := by
  have h : Agrees (fun s : KernelVfio κ => table s.kernel) ctx :=
    Runs.run_invariant
      (fun _ call _ => agrees_step (kernelVfioOps_faithful hk pagesize hasUnmapAll) call)
      (agrees_init _ rand garbage iovaMax iovaNextSame hempty) hclear hrun
  exact ⟨h.translate_iff_reaches, h.windows⟩

def fickleVfioCtx : IommuCtx (KernelVfio Kernel) :=
  ⟨iovaMapInit (fun _ => true) ⟨0, 0, 0, 0⟩, 0, 0,
    ⟨⟨[⟨0x10000, 0x1ffff⟩], 0x10000, 0, 0, ⟨0, 0⟩, freeListInit (fun _ => true) ⟨0, 0⟩⟩,
      .start fickleAnswers⟩⟩

/-- The same with vfio, where the page that is refused leaves a gap. -/
theorem vfio_reaches_fickle :
    let calls := [DmaOp.map 0x1000 0x1000 0 0, .map 0x2000 0x1000 0 0, .map 0x3000 0x1000 0 4,
      .unmap 0x1000]
    let run := Runs.run (dmaStep (kernelVfioOps Kernel.vfio 0x1000 true)) fickleVfioCtx calls
    run.map (fun ctx => ctx.backend.kernel.table.windows) =
        some [⟨0x12000, 0x3000, 0x1000, ⟨true, false⟩⟩] ∧
      ∀ ctx, run = some ctx →
        (∀ vaddr iova, iommuTranslateVaddr ctx.map vaddr = some iova ↔
          ctx.backend.kernel.table.Reaches iova.toNat vaddr.toNat) ∧
        ctx.backend.kernel.table.windows.Perm (ctx.map.held.map IovaMapping.window) := by
  refine ⟨by decide +kernel, fun ctx hrun => ?_⟩
  refine vfio_reaches _ _ Kernel.vfio_keeps (.start fickleAnswers) rfl _ _ _ _ _ _ _ _ ctx ?_ hrun
  refine Runs.meetsAlong_cons rfl (clear_of_beside (by decide +kernel)) ?_
  refine Runs.meetsAlong_cons rfl (clear_of_beside (by decide +kernel)) ?_
  refine Runs.meetsAlong_cons rfl (clear_of_beside (by decide +kernel)) ?_
  exact Runs.meetsAlong_cons rfl trivial trivial

end Iommu

end Libvfn
