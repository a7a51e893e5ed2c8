import Libvfn.Iommu.Vfio.Collision
import Mathlib.Data.Fintype.Card

/-!
# Recycling the ephemeral range

When the last ephemeral mapping is gone, the cursor of the range set aside for such
mappings goes back to the start. `vfio_iommu_type1_iova_put_ephemeral` does this in two
steps: it decrements the number of mappings, and if there are none left, it takes the
lock and resets the cursor. Another thread may reserve a block in between.

The blocks that the threads have are apart as long as the cursor is reset only when no
thread has one. This is so if no thread reserves a block while another one is between
the two steps. Otherwise a block may be handed out a second time.
-/

namespace Libvfn

namespace Iommu

open Word Support Util Runs

inductive EphThread where
  | idle
  | holds (b : Block)
  | rewinds
  deriving DecidableEq

def EphThread.block : EphThread → Option Block
  | .holds b => some b
  | _ => none

structure EphState (τ : Type*) where
  vfio : VfioContainer
  thread : τ → EphThread

/-- The steps of a thread. The last two make up `vfio_iommu_type1_iova_put_ephemeral`. -/
inductive EphOp (τ : Type*) where
  | reserve (t : τ) (len flags : U64)
  | decrement (t : τ)
  | rewind (t : τ)

section Step

variable {τ : Type*} [DecidableEq τ]

def EphState.set (s : EphState τ) (t : τ) (vfio : VfioContainer) (th : EphThread) : EphState τ :=
  ⟨vfio, Function.update s.thread t th⟩

def ephStep (pagesize : U64) (s : EphState τ) : EphOp τ → Option (EphState τ)
  | .reserve t len flags =>
      if s.thread t = .idle ∧ flags &&& iommuMapEphemeral ≠ 0 then
        match vfioIommuType1IovaReserve pagesize s.vfio len flags with
        | .ok (iova, vfio) => some (s.set t vfio (.holds ⟨iova, len⟩))
        | .error _ => some s
      else none
  | .decrement t =>
      match s.thread t with
      | .holds _ =>
          let vfio := { s.vfio with nephemerals := s.vfio.nephemerals - 1 }
          some (s.set t vfio (if vfio.nephemerals = 0 then .rewinds else .idle))
      | _ => none
  | .rewind t =>
      if s.thread t = .rewinds then
        some (s.set t { s.vfio with nextEphemeral := s.vfio.ephemerals.start } .idle)
      else none

def ephInit (τ : Type*) (vfio : VfioContainer) : EphState τ := ⟨vfio, fun _ => .idle⟩

def EphDisjoint (s : EphState τ) : Prop :=
  ∀ t t', t ≠ t' → ∀ b ∈ (s.thread t).block, ∀ b' ∈ (s.thread t').block,
    Disjoint b.addresses b'.addresses

/-- The cursor is reset only when no thread has a block, unless an empty one. -/
def RewindsClear (s : EphState τ) : EphOp τ → Prop
  | .rewind t => s.thread t = .rewinds → ∀ u, ∀ b ∈ (s.thread u).block, b.len = 0
  | _ => True

instance [Fintype τ] (s : EphState τ) : DecidablePred (RewindsClear s)
  | .rewind t => inferInstanceAs (Decidable (s.thread t = .rewinds →
      ∀ u, ∀ b ∈ (s.thread u).block, b.len = 0))
  | .reserve .. => .isTrue trivial
  | .decrement _ => .isTrue trivial

/-- No block is reserved while a thread is about to reset the cursor. -/
def ReservesSettled (s : EphState τ) : EphOp τ → Prop
  | .reserve _ _ _ => ∀ t, s.thread t ≠ .rewinds
  | _ => True

/-- The steps of a thread that nobody interrupts are
`vfio_iommu_type1_iova_put_ephemeral`. -/
theorem putEphemeral_run (pagesize : U64) (s : EphState τ) {t : τ} {b : Block}
    (ht : s.thread t = .holds b) :
    ∃ ops, (ops = [.decrement t] ∨ ops = [.decrement t, .rewind t]) ∧
      run (ephStep pagesize) s ops =
        some (s.set t (vfioIommuType1IovaPutEphemeral s.vfio) .idle) := by
  have hput := vfioIommuType1IovaPutEphemeral.eq_1 s.vfio
  by_cases hlast : s.vfio.nephemerals - 1 = 0
  · refine ⟨_, .inr rfl, ?_⟩
    rw [hput, if_pos hlast]
    simp only [run, ephStep, ht, Option.bind_some, EphState.set, if_pos hlast,
      Function.update_self, Function.update_idem, if_true]
  · refine ⟨_, .inl rfl, ?_⟩
    rw [hput, if_neg hlast]
    simp only [run, ephStep, ht, Option.bind_some, EphState.set, if_neg hlast]

end Step

section Blocks

variable {τ : Type*} [DecidableEq τ] {pagesize : U64} {s s' : EphState τ} {t t' : τ}
  {vfio : VfioContainer} {th : EphThread} {b : Block} {op : EphOp τ}

@[simp]
theorem EphState.set_thread_self : (s.set t vfio th).thread t = th := Function.update_self ..

@[simp]
theorem EphState.set_thread_of_ne (ht : t' ≠ t) : (s.set t vfio th).thread t' = s.thread t' :=
  Function.update_of_ne ht ..

theorem EphState.mem_block_set (h : b ∈ ((s.set t vfio th).thread t').block) :
    t' = t ∧ b ∈ th.block ∨ t' ≠ t ∧ b ∈ (s.thread t').block := by
  by_cases ht : t' = t
  · subst ht
    rw [EphState.set_thread_self] at h
    exact .inl ⟨rfl, h⟩
  · rw [EphState.set_thread_of_ne ht] at h
    exact .inr ⟨ht, h⟩

structure EphInv (s : EphState τ) : Prop where
  bounded : Bounded [s.vfio.ephemerals]
  disjoint : EphDisjoint s
  below : ∀ t, ∀ b ∈ (s.thread t).block, b.len ≠ 0 →
    b.iova.toNat + b.len.toNat ≤ s.vfio.nextEphemeral.toNat

/-- A thread that has no block any more does no harm. -/
theorem EphInv.drop (h : EphInv s) (hth : th.block = none)
    (hbounded : Bounded [vfio.ephemerals])
    (hbelow : ∀ t, ∀ b ∈ (s.thread t).block, b.len ≠ 0 →
      b.iova.toNat + b.len.toNat ≤ vfio.nextEphemeral.toNat) :
    EphInv (s.set t vfio th) := by
  have hold : ∀ u, ∀ c ∈ ((s.set t vfio th).thread u).block, c ∈ (s.thread u).block := by
    intro u c hc
    rcases EphState.mem_block_set hc with ⟨-, hc⟩ | ⟨-, hc⟩
    · rw [hth] at hc
      cases hc
    · exact hc
  refine ⟨hbounded, ?_, ?_⟩
  · intro u u' hne c hc c' hc'
    exact h.disjoint u u' hne c (hold u c hc) c' (hold u' c' hc')
  · intro u c hc
    exact hbelow u c (hold u c hc)

omit [DecidableEq τ] in
theorem EphInv.disjoint_of_le (h : EphInv s) {iova len : U64}
    (hle : s.vfio.nextEphemeral.toNat ≤ iova.toNat) (hb : b ∈ (s.thread t).block) :
    Disjoint (addresses iova len) b.addresses := by
  refine Set.disjoint_left.mpr fun x hx hxb => ?_
  have hge := hx.1
  have hlt := hxb.2
  by_cases hlen : b.len = 0
  · have hstart := hxb.1
    simp only [hlen, BitVec.ofNat_eq_ofNat, BitVec.toNat_zero] at hlt
    omega
  · have hend := h.below t b hb hlen
    omega

theorem EphInv.reserve (h : EphInv s) {len flags iova : U64}
    (hflags : flags &&& iommuMapEphemeral ≠ 0)
    (hres : vfioIommuType1IovaReserve pagesize s.vfio len flags = .ok (iova, vfio)) :
    EphInv (s.set t vfio (.holds ⟨iova, len⟩)) := by
  obtain ⟨next, ⟨hcur, hnext, -⟩, rfl⟩ :=
    vfioIommuType1IovaReserve_ephemeral h.bounded hflags hres
  refine ⟨h.bounded, ?_, ?_⟩
  · intro u u' hne c hc c' hc'
    rcases EphState.mem_block_set hc with ⟨hu, hc⟩ | ⟨-, hc⟩ <;>
      rcases EphState.mem_block_set hc' with ⟨hu', hc'⟩ | ⟨-, hc'⟩
    · exact absurd (hu.trans hu'.symm) hne
    · cases hc
      exact h.disjoint_of_le hcur hc'
    · cases hc'
      exact (h.disjoint_of_le hcur hc).symm
    · exact h.disjoint u u' hne c hc c' hc'
  · intro u c hc hlen
    dsimp only [EphState.set]
    rcases EphState.mem_block_set hc with ⟨-, hc⟩ | ⟨-, hc⟩
    · cases hc
      exact hnext.ge
    · have hend := h.below u c hc hlen
      omega

/-- Every step keeps the blocks apart if the cursor is reset in time. -/
theorem EphInv.step (h : EphInv s) (hclear : RewindsClear s op)
    (hstep : ephStep pagesize s op = some s') : EphInv s' := by
  cases op with
  | reserve t len flags =>
      obtain ⟨⟨-, hflags⟩, hstep⟩ := Option.ite_none_right_eq_some.mp hstep
      split at hstep
      · next iova vfio hres =>
          obtain rfl := Option.some.inj hstep
          exact h.reserve hflags hres
      · obtain rfl := Option.some.inj hstep
        exact h
  | decrement t =>
      rw [ephStep] at hstep
      split at hstep
      · obtain rfl := Option.some.inj hstep
        refine h.drop ?_ h.bounded h.below
        split_ifs <;> rfl
      · cases hstep
  | rewind t =>
      obtain ⟨ht, hstep⟩ := Option.ite_none_right_eq_some.mp hstep
      obtain rfl := Option.some.inj hstep
      refine h.drop rfl h.bounded ?_
      intro u c hc hlen
      exact absurd (hclear ht u c hc) hlen

end Blocks

/-- In every interleaving in which the cursor is reset only when no thread has a block, the
blocks that the threads have do not overlap. -/
theorem ephemeral_blocks_disjoint {τ : Type*} [DecidableEq τ] (pagesize : U64)
    (vfio : VfioContainer) (hbound : vfio.ephemerals.last.toNat < 2 ^ 64 - 1)
    (ops : List (EphOp τ)) (s : EphState τ)
    (hclear : MeetsAlong (ephStep pagesize) RewindsClear (ephInit τ vfio) ops)
    (hrun : run (ephStep pagesize) (ephInit τ vfio) ops = some s) : EphDisjoint s := by
  have hbounded : Bounded [vfio.ephemerals] := List.forall_mem_singleton.mpr hbound
  have hinit : EphInv (ephInit τ vfio) :=
    ⟨hbounded, fun _ _ _ _ h => (nomatch h), fun _ _ h => (nomatch h)⟩
  exact (run_invariant (fun _ _ _ h hop hstep => h.step hop hstep) hinit hclear hrun).disjoint

/-- The first thread has put its block and is about to reset the cursor when the second
one reserves a block. The third one gets a block that covers it. -/
theorem ephemeral_blocks_overlap :
    ∃ s : EphState (Fin 3), run (ephStep 0x1000) (ephInit (Fin 3) pageContainer)
        [.reserve 0 0x1000 iommuMapEphemeral, .decrement 0, .reserve 1 0x1000 iommuMapEphemeral,
          .rewind 0, .reserve 2 0x2000 iommuMapEphemeral] = some s ∧
      s.thread 1 = .holds ⟨0x2000, 0x1000⟩ ∧ s.thread 2 = .holds ⟨0x1000, 0x2000⟩ ∧
      ¬ EphDisjoint s := by
  refine ⟨_, rfl, rfl, rfl, fun h => ?_⟩
  have hdisj := h 1 2 (by decide) ⟨0x2000, 0x1000⟩ rfl ⟨0x1000, 0x2000⟩ rfl
  have hmem : 0x2000 ∈ addresses 0x2000 0x1000 ∧ 0x2000 ∈ addresses 0x1000 0x2000 := by
    refine ⟨⟨?_, ?_⟩, ⟨?_, ?_⟩⟩ <;> decide
  exact Set.disjoint_left.mp hdisj hmem.1 hmem.2

/-- The cursor is reset by the last of two threads, and both reserve again. -/
theorem ephemeral_blocks_disjoint_two :
    ∃ s : EphState Bool, run (ephStep 0x1000) (ephInit Bool pageContainer)
        [.reserve true 0x1000 iommuMapEphemeral, .reserve false 0x1000 iommuMapEphemeral,
          .decrement true, .decrement false, .rewind false,
          .reserve true 0x2000 iommuMapEphemeral, .reserve false 0x1000 iommuMapEphemeral] =
        some s ∧
      s.thread true = .holds ⟨0x1000, 0x2000⟩ ∧ s.thread false = .holds ⟨0x3000, 0x1000⟩ ∧
      EphDisjoint s := by
  refine ⟨_, rfl, rfl, rfl, ?_⟩
  refine ephemeral_blocks_disjoint 0x1000 pageContainer (by decide)
    [.reserve true 0x1000 iommuMapEphemeral, .reserve false 0x1000 iommuMapEphemeral,
      .decrement true, .decrement false, .rewind false,
      .reserve true 0x2000 iommuMapEphemeral, .reserve false 0x1000 iommuMapEphemeral] _ ?_ rfl
  decide +kernel

/-! ## What the counter is good for -/

section Count

variable {τ : Type*} [DecidableEq τ] [Fintype τ] {pagesize : U64} {s s' : EphState τ} {t : τ}
  {vfio : VfioContainer} {th : EphThread} {op : EphOp τ}

def EphState.holders (s : EphState τ) : Finset τ :=
  Finset.univ.filter fun t => (s.thread t).block.isSome

omit [DecidableEq τ] in
theorem EphState.mem_holders : t ∈ s.holders ↔ (s.thread t).block.isSome := by
  simp [EphState.holders]

theorem EphState.holders_set_some (hth : th.block.isSome) :
    (s.set t vfio th).holders = insert t s.holders := by
  ext u
  rw [Finset.mem_insert, EphState.mem_holders, EphState.mem_holders]
  by_cases hu : u = t
  · simp [hu, hth]
  · simp [hu]

theorem EphState.holders_set_none (hth : th.block = none) :
    (s.set t vfio th).holders = s.holders.erase t := by
  ext u
  rw [Finset.mem_erase, EphState.mem_holders, EphState.mem_holders]
  by_cases hu : u = t
  · simp [hu, hth]
  · simp [hu]

/-- The blocks are counted, and there are none when the cursor is about to be reset. -/
structure CountInv (s : EphState τ) : Prop where
  count : s.vfio.nephemerals.toNat = s.holders.card
  settled : ∀ t, s.thread t = .rewinds → s.holders = ∅

theorem CountInv.reserve (h : CountInv s) (hcard : Fintype.card τ < 2 ^ 64)
    (hsettled : ∀ t, s.thread t ≠ .rewinds) (hidle : s.thread t = .idle) {b : Block}
    (hcount : vfio.nephemerals = s.vfio.nephemerals + 1) :
    CountInv (s.set t vfio (.holds b)) := by
  have hnot : t ∉ s.holders := by
    rw [EphState.mem_holders, hidle]
    exact Bool.false_ne_true
  have hlt : s.holders.card < Fintype.card τ := Finset.card_lt_univ_of_notMem hnot
  have hone : (1 : U64).toNat = 1 := rfl
  refine ⟨?_, ?_⟩
  · rw [EphState.holders_set_some rfl, Finset.card_insert_of_notMem hnot, ← h.count]
    dsimp only [EphState.set]
    rw [hcount]
    exact BitVec.toNat_add_of_lt (by rw [h.count]; omega)
  · intro u hu
    by_cases hut : u = t
    · rw [hut, EphState.set_thread_self] at hu
      cases hu
    · rw [EphState.set_thread_of_ne hut] at hu
      exact absurd hu (hsettled u)

theorem CountInv.decrement (h : CountInv s) {b : Block} (ht : s.thread t = .holds b) :
    let vfio := { s.vfio with nephemerals := s.vfio.nephemerals - 1 }
    CountInv (s.set t vfio (if vfio.nephemerals = 0 then .rewinds else .idle)) := by
  intro vfio
  have hmem : t ∈ s.holders := by
    rw [EphState.mem_holders, ht]
    rfl
  have hpos : 0 < s.holders.card := Finset.card_pos.mpr ⟨t, hmem⟩
  have hcount : vfio.nephemerals.toNat = (s.holders.erase t).card := by
    rw [Finset.card_erase_of_mem hmem, ← h.count]
    have hone : (1 : U64).toNat = 1 := rfl
    exact BitVec.toNat_sub_of_le (BitVec.le_def.mpr (by rw [hone, h.count]; omega))
  have hnone : (if vfio.nephemerals = 0 then EphThread.rewinds else .idle).block = none := by
    split_ifs <;> rfl
  refine ⟨?_, ?_⟩
  · rw [EphState.holders_set_none hnone]
    exact hcount
  · intro u hu
    rw [EphState.holders_set_none hnone]
    by_cases hut : u = t
    · rw [hut, EphState.set_thread_self] at hu
      split_ifs at hu with hzero
      rw [hzero] at hcount
      exact Finset.card_eq_zero.mp hcount.symm
    · rw [EphState.set_thread_of_ne hut] at hu
      rw [h.settled u hu] at hmem
      cases hmem

theorem CountInv.step (hcard : Fintype.card τ < 2 ^ 64) (h : CountInv s)
    (hsettled : ReservesSettled s op) (hstep : ephStep pagesize s op = some s') :
    CountInv s' := by
  cases op with
  | reserve t len flags =>
      obtain ⟨⟨hidle, hflags⟩, hstep⟩ := Option.ite_none_right_eq_some.mp hstep
      split at hstep
      · next iova vfio hres =>
          obtain rfl := Option.some.inj hstep
          obtain ⟨next, -, rfl⟩ := iovaReserve_of_ephemeral hflags hres
          exact h.reserve hcard hsettled hidle rfl
      · obtain rfl := Option.some.inj hstep
        exact h
  | decrement t =>
      rw [ephStep] at hstep
      split at hstep
      · next b ht =>
          obtain rfl := Option.some.inj hstep
          exact h.decrement ht
      · cases hstep
  | rewind t =>
      obtain ⟨ht, hstep⟩ := Option.ite_none_right_eq_some.mp hstep
      obtain rfl := Option.some.inj hstep
      have hempty := h.settled t ht
      have hholders : (s.set t { s.vfio with nextEphemeral := s.vfio.ephemerals.start }
          .idle).holders = ∅ := by
        rw [EphState.holders_set_none rfl, hempty, Finset.erase_empty]
      refine ⟨?_, fun _ _ => hholders⟩
      rw [hholders, ← hempty]
      exact h.count

/-- If no block is reserved while a thread is about to reset the cursor, then the cursor is
reset only when no thread has a block. -/
theorem rewindsClear_of_reservesSettled (hcard : Fintype.card τ < 2 ^ 64)
    (hzero : vfio.nephemerals = 0) (ops : List (EphOp τ))
    (h : MeetsAlong (ephStep pagesize) ReservesSettled (ephInit τ vfio) ops) :
    MeetsAlong (ephStep pagesize) RewindsClear (ephInit τ vfio) ops := by
  have hinit : CountInv (ephInit τ vfio) := by
    refine ⟨?_, fun _ h => (nomatch h)⟩
    have hholders : (ephInit τ vfio).holders = ∅ :=
      Finset.filter_eq_empty_iff.mpr fun _ _ => Bool.false_ne_true
    rw [hholders]
    exact congrArg BitVec.toNat hzero
  refine h.imp (fun _ _ _ hinv hop hstep => hinv.step hcard hop hstep) ?_ hinit
  rintro s (⟨_⟩ | ⟨_⟩ | ⟨t⟩) hinv -
  · trivial
  · trivial
  · intro ht u b hb
    have hmem : u ∈ s.holders := EphState.mem_holders.mpr (Option.isSome_of_mem hb)
    rw [hinv.settled t ht] at hmem
    cases hmem

end Count

end Iommu

end Libvfn
