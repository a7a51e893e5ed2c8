import Libvfn.Foundation.Ring
import Libvfn.Foundation.Run
import Libvfn.Nvme.Queue

/-!
# No completion is lost or seen twice

The controller posts completions into the ring in order, with a phase tag that it
inverts on every pass. It has seen some of the values that the host wrote to the
doorbell, perhaps not the last one, and it posts only if the ring is not full as far
as it can tell. Whatever the interleaving, the host returns the posted entries in
order, each once, and stops only when there are no more.

The invariant counts in positions that do not wrap around. The host has returned
`c` entries, so that its head is `c % qsize` and its phase the parity of `c / qsize`,
and the controller is less than a lap ahead.
-/

namespace Libvfn

namespace Nvme

/-- The queue, the entries that were posted and returned so far, the values written to
the doorbell, starting with its reset value, and which of them the controller has
seen last. -/
structure CqState where
  cq : NvmeCq
  posted : List NvmeCqe
  returned : List NvmeCqe
  doorbells : List (BitVec 16)
  seen : ℕ

def NvmeCq.told (cq : NvmeCq) : BitVec 16 := doorbellIndex cq.doorbell cq.dbbuf

inductive CqOp where
  | post (cqe : NvmeCqe)
  | see (k : ℕ)
  | getCqe
  | updateHead

def tagged (cqe : NvmeCqe) (pass : ℕ) : NvmeCqe :=
  { cqe with sfp := cqe.sfp &&& ~~~1 ||| BitVec.ofNat 16 ((pass + 1) % 2) }

/-- The ring is full for a controller that has seen the value of the doorbell. -/
def full (s : CqState) : Bool :=
  s.doorbells[s.seen]? = some (BitVec.ofNat 16 ((s.posted.length + 1) % s.cq.qsize))

def cqStep (s : CqState) : CqOp → Option CqState
  | .post cqe =>
      if full s then none
      else
        let n := s.posted.length
        let cqe := tagged cqe (n / s.cq.qsize)
        some { s with
          cq := { s.cq with mem := Function.update s.cq.mem (n % s.cq.qsize) cqe }
          posted := s.posted ++ [cqe] }
  | .see k => if s.seen ≤ k ∧ k < s.doorbells.length then some { s with seen := k } else none
  | .getCqe =>
      let r := nvmeCqGetCqe s.cq
      some { s with cq := r.2, returned := s.returned ++ r.1.toList }
  | .updateHead =>
      let cq := nvmeCqUpdateHead s.cq
      some { s with cq := cq, doorbells := s.doorbells ++ [cq.told] }

def cqInit (cq : NvmeCq) : CqState := ⟨cq, [], [], [0], 0⟩

def NvmeCqe.tag (cqe : NvmeCqe) : ℕ := (cqe.sfp &&& 1).toNat

theorem tag_tagged (cqe : NvmeCqe) (pass : ℕ) : (tagged cqe pass).tag = (pass + 1) % 2 := by
  have hclear : ∀ b : BitVec 16, (cqe.sfp &&& ~~~1 ||| b) &&& 1 = b &&& 1 := by
    intro b
    have hzero : cqe.sfp &&& ~~~1 &&& 1 = 0#16 := by
      rw [BitVec.and_assoc, show (~~~1 : BitVec 16) &&& 1 = 0#16 from rfl, BitVec.and_zero]
    rw [BitVec.and_or_distrib_right, hzero, BitVec.zero_or]
  rw [NvmeCqe.tag, tagged, hclear]
  rcases Nat.mod_two_eq_zero_or_one (pass + 1) with h | h <;> rw [h] <;> rfl

/-- What holds between the steps. The host has returned the first of the entries that
were posted, the doorbell values stand for positions `vs` that the host has reached,
and the controller is less than a lap ahead of the one it has seen. -/
structure CqInv (s : CqState) (vs : List ℕ) : Prop where
  two_le : 2 ≤ s.cq.qsize
  qsize_lt : s.cq.qsize < 2 ^ 16
  written : Ring.Written s.cq.mem s.posted s.cq.qsize
  blank : ∀ j, j < s.cq.qsize → s.posted.length ≤ j → (s.cq.mem j).tag = 0
  tags : ∀ (p : ℕ) (hp : p < s.posted.length), s.posted[p].tag = (p / s.cq.qsize + 1) % 2
  head : s.cq.head = BitVec.ofNat 16 (s.returned.length % s.cq.qsize)
  phase : s.cq.phase = s.returned.length / s.cq.qsize % 2
  inOrder : s.returned <+: s.posted
  doorbells : s.doorbells = vs.map fun v => BitVec.ofNat 16 (v % s.cq.qsize)
  sorted : vs.Pairwise (· ≤ ·)
  reached : ∀ v ∈ vs, v ≤ s.returned.length
  window : ∃ v, vs[s.seen]? = some v ∧ s.posted.length < v + s.cq.qsize

variable {s : CqState} {vs : List ℕ}

theorem CqInv.window_returned (h : CqInv s vs) :
    s.posted.length < s.returned.length + s.cq.qsize := by
  obtain ⟨v, hv, hwin⟩ := h.window
  have hle := h.reached v (List.mem_of_getElem? hv)
  omega

theorem CqInv.toNat_head (h : CqInv s vs) :
    s.cq.head.toNat = s.returned.length % s.cq.qsize := by
  have hlt := Nat.mod_lt s.returned.length (Nat.lt_of_lt_of_le Nat.zero_lt_two h.two_le)
  have hq := h.qsize_lt
  rw [h.head, BitVec.toNat_ofNat, Nat.mod_eq_of_lt (by omega)]

/-! ## The host -/

/-- If every entry was returned, the entry at the head is an old one. -/
theorem CqInv.getCqe_none (h : CqInv s vs) (hall : s.returned.length = s.posted.length) :
    nvmeCqGetCqe s.cq = (none, s.cq) := by
  have hpos : 0 < s.cq.qsize := Nat.lt_of_lt_of_le Nat.zero_lt_two h.two_le
  have hold : (nvmeCqHead s.cq).tag = s.cq.phase := by
    rw [nvmeCqHead, h.toNat_head, h.phase, hall]
    rcases Nat.lt_or_ge s.posted.length s.cq.qsize with hfirst | hlap
    · -- nothing was written to the slot yet
      rw [Nat.mod_eq_of_lt hfirst, h.blank _ hfirst le_rfl, Nat.div_eq_of_lt hfirst]
    · -- the slot holds the entry of the pass before
      have hback : s.posted.length - s.cq.qsize + s.cq.qsize = s.posted.length :=
        Nat.sub_add_cancel hlap
      have hslot : s.posted.length % s.cq.qsize = (s.posted.length - s.cq.qsize) % s.cq.qsize := by
        rw [← Nat.mod_eq_sub_mod hlap]
      have hlap' : s.posted.length / s.cq.qsize =
          (s.posted.length - s.cq.qsize) / s.cq.qsize + 1 := Nat.div_eq_sub_div hpos hlap
      have hlt : s.posted.length - s.cq.qsize < s.posted.length := by omega
      rw [hslot, h.written _ hlt hback.ge, h.tags _ hlt, hlap']
  rw [nvmeCqGetCqe]
  exact if_pos hold

theorem CqInv.tag_ne_phase (h : CqInv s vs) (hmore : s.returned.length < s.posted.length) :
    nvmeCqHead s.cq = s.posted[s.returned.length] ∧ (nvmeCqHead s.cq).tag ≠ s.cq.phase := by
  have hhead : nvmeCqHead s.cq = s.posted[s.returned.length] := by
    rw [nvmeCqHead, h.toNat_head]
    exact h.written _ hmore h.window_returned.le
  refine ⟨hhead, ?_⟩
  rw [hhead, h.tags _ hmore, h.phase]
  omega

def advanced (cq : NvmeCq) : NvmeCq :=
  if (cq.head + 1).toNat = cq.qsize then { cq with head := 0, phase := cq.phase ^^^ 1 }
  else { cq with head := cq.head + 1 }

theorem nvmeCqGetCqe_eq (cq : NvmeCq) :
    nvmeCqGetCqe cq =
      if (nvmeCqHead cq).tag = cq.phase then (none, cq)
      else (some (nvmeCqHead cq), advanced cq) := by
  rw [nvmeCqGetCqe, advanced, NvmeCqe.tag]
  dsimp only
  split_ifs <;> rfl

theorem CqInv.getCqe_some (h : CqInv s vs) (hmore : s.returned.length < s.posted.length) :
    nvmeCqGetCqe s.cq = (some s.posted[s.returned.length], advanced s.cq) := by
  obtain ⟨hhead, hnew⟩ := h.tag_ne_phase hmore
  rw [nvmeCqGetCqe_eq, if_neg hnew, hhead]

theorem advanced_head (cq : NvmeCq) :
    (advanced cq).head = if (cq.head + 1).toNat = cq.qsize then 0 else cq.head + 1 := by
  rw [advanced]
  split_ifs <;> rfl

theorem advanced_mem (cq : NvmeCq) :
    (advanced cq).mem = cq.mem ∧ (advanced cq).qsize = cq.qsize := by
  rw [advanced]
  split_ifs <;> exact ⟨rfl, rfl⟩

/-- The host has moved past `n` entries since the queue was set up. -/
structure NvmeCq.Passed (cq : NvmeCq) (n : ℕ) : Prop where
  head : cq.head.toNat = n % cq.qsize
  phase : cq.phase = n / cq.qsize % 2

/-- The host moves on as it should if the index it increments still fits sixteen bits. -/
theorem NvmeCq.Passed.advanced_of_fits {cq : NvmeCq} {n : ℕ} (h : cq.Passed n)
    (hpos : 0 < cq.qsize) (hle : cq.qsize ≤ 2 ^ 16) (hfits : cq.head.toNat + 1 < 2 ^ 16) :
    (advanced cq).Passed (n + 1) := by
  have hnext : (cq.head + 1).toNat = n % cq.qsize + 1 := by
    rw [BitVec.toNat_add, ← h.head]
    exact Nat.mod_eq_of_lt hfits
  refine ⟨?_, ?_⟩
  · rw [advanced_head, (advanced_mem cq).2]
    exact Ring.next_index hpos hle h.head
  · rw [(advanced_mem cq).2, Nvme.advanced, hnext]
    rcases Ring.succ_mod_div hpos n with ⟨hwrap, -, hdiv⟩ | ⟨hstay, -, hdiv⟩
    · rw [if_pos hwrap, hdiv]
      dsimp only
      rw [h.phase]
      rcases Nat.mod_two_eq_zero_or_one (n / cq.qsize) with hp | hp
      · rw [hp, Nat.succ_mod_two_eq_one_iff.mpr hp]
        rfl
      · rw [hp, Nat.succ_mod_two_eq_zero_iff.mpr hp]
        rfl
    · rw [if_neg (by omega), hdiv]
      exact h.phase

theorem NvmeCq.Passed.advanced {cq : NvmeCq} {n : ℕ} (h : cq.Passed n) (hpos : 0 < cq.qsize)
    (hlt : cq.qsize < 2 ^ 16) : (advanced cq).Passed (n + 1) := by
  have hmod := Nat.mod_lt n hpos
  have hhead := h.head
  exact h.advanced_of_fits hpos hlt.le (by omega)

theorem CqInv.advanced_head (h : CqInv s vs) :
    (advanced s.cq).head = BitVec.ofNat 16 ((s.returned.length + 1) % s.cq.qsize) ∧
      (advanced s.cq).phase = (s.returned.length + 1) / s.cq.qsize % 2 := by
  have hpassed : s.cq.Passed s.returned.length := ⟨h.toNat_head, h.phase⟩
  obtain ⟨hhead, hphase⟩ :=
    hpassed.advanced (Nat.lt_of_lt_of_le Nat.zero_lt_two h.two_le) h.qsize_lt
  rw [(advanced_mem s.cq).2] at hhead hphase
  refine ⟨?_, hphase⟩
  rw [← hhead, BitVec.ofNat_toNat, BitVec.setWidth_eq]

theorem CqInv.getCqe (h : CqInv s vs) :
    CqInv { s with
      cq := (nvmeCqGetCqe s.cq).2
      returned := s.returned ++ (nvmeCqGetCqe s.cq).1.toList } vs := by
  rcases Nat.lt_or_ge s.returned.length s.posted.length with hmore | hall
  · rw [h.getCqe_some hmore]
    obtain ⟨hmem, hqsize⟩ := advanced_mem s.cq
    obtain ⟨hhead, hphase⟩ := h.advanced_head
    have hlen : (s.returned ++ [s.posted[s.returned.length]]).length = s.returned.length + 1 :=
      List.length_append
    have horder : s.returned ++ [s.posted[s.returned.length]] <+: s.posted :=
      Ring.prefix_concat_getElem h.inOrder hmore
    have hgrow : s.returned.length ≤ (s.returned ++ [s.posted[s.returned.length]]).length :=
      hlen ▸ Nat.le_succ _
    exact
      { two_le := hqsize ▸ h.two_le
        qsize_lt := hqsize ▸ h.qsize_lt
        written := by rw [hmem, hqsize]; exact h.written
        blank := by rw [hmem, hqsize]; exact h.blank
        tags := by rw [hqsize]; exact h.tags
        head := by rw [hqsize]; exact hlen ▸ hhead
        phase := by rw [hqsize]; exact hlen ▸ hphase
        inOrder := horder
        doorbells := by rw [hqsize]; exact h.doorbells
        sorted := h.sorted
        reached := fun v hv => (h.reached v hv).trans hgrow
        window := by rw [hqsize]; exact h.window }
  · have hlen : s.returned.length = s.posted.length :=
      Nat.le_antisymm h.inOrder.length_le hall
    rw [h.getCqe_none hlen]
    simpa using h

theorem nvmeCqUpdateHead_told (cq : NvmeCq) : (nvmeCqUpdateHead cq).told = cq.head :=
  doorbellIndex_nvmeTryDbbuf cq.head cq.doorbell cq.dbbuf

theorem CqInv.updateHead (h : CqInv s vs) :
    CqInv { s with
      cq := nvmeCqUpdateHead s.cq
      doorbells := s.doorbells ++ [(nvmeCqUpdateHead s.cq).told] }
      (vs ++ [s.returned.length]) := by
  rw [nvmeCqUpdateHead_told]
  obtain ⟨v, hv, hwin⟩ := h.window
  exact
    { h with
      doorbells := by rw [List.map_append, h.doorbells, h.head]; rfl
      sorted := List.pairwise_append.mpr ⟨h.sorted, List.pairwise_singleton _ _, fun a ha b hb =>
        List.mem_singleton.mp hb ▸ h.reached a ha⟩
      reached := fun a ha => (List.mem_append.mp ha).elim (h.reached a) fun ha =>
        (List.mem_singleton.mp ha).le
      window := ⟨v, List.getElem?_append_left (List.getElem?_eq_some_iff.mp hv).1 ▸ hv, hwin⟩ }

/-! ## The controller -/

theorem CqInv.room (h : CqInv s vs) (hroom : full s = false) :
    ∃ v, vs[s.seen]? = some v ∧ s.posted.length + 1 < v + s.cq.qsize := by
  obtain ⟨v, hv, hwin⟩ := h.window
  refine ⟨v, hv, ?_⟩
  by_contra hge
  have hlap : s.posted.length + 1 = v + s.cq.qsize := by omega
  rw [full, decide_eq_false_iff_not, h.doorbells, List.getElem?_map, hv, hlap,
    Nat.add_mod_right] at hroom
  exact hroom rfl

theorem CqInv.post (h : CqInv s vs) (hroom : full s = false) {cqe : NvmeCqe}
    (htag : cqe.tag = (s.posted.length / s.cq.qsize + 1) % 2) :
    CqInv { s with
      cq := { s.cq with
        mem := Function.update s.cq.mem (s.posted.length % s.cq.qsize) cqe }
      posted := s.posted ++ [cqe] } vs := by
  have hlen : (s.posted ++ [cqe]).length = s.posted.length + 1 := List.length_append
  refine
    { h with
      written := h.written.push cqe
      blank := fun j hj hle => ?_
      tags := fun p hp => ?_
      inOrder := h.inOrder.trans (List.prefix_append _ _)
      window := hlen.symm ▸ h.room hroom }
  · dsimp only at hj hle ⊢
    rw [hlen] at hle
    have hslot : j ≠ s.posted.length % s.cq.qsize := by
      rw [Nat.mod_eq_of_lt (by omega)]
      omega
    rw [Function.update_of_ne hslot]
    exact h.blank j hj (by omega)
  · dsimp only at hp ⊢
    rw [hlen] at hp
    rcases Nat.lt_succ_iff_lt_or_eq.mp hp with hlt | rfl
    · rw [List.getElem_append_left hlt]
      exact h.tags p hlt
    · rw [List.getElem_concat_length rfl]
      exact htag

theorem CqInv.see (h : CqInv s vs) {k : ℕ} (hle : s.seen ≤ k) (hk : k < s.doorbells.length) :
    CqInv { s with seen := k } vs := by
  obtain ⟨v, hv, hwin⟩ := h.window
  rw [h.doorbells, List.length_map] at hk
  obtain ⟨hseen, rfl⟩ := List.getElem?_eq_some_iff.mp hv
  have hmono : vs[s.seen] ≤ vs[k] := by
    rcases hle.lt_or_eq with hlt | rfl
    · exact List.pairwise_iff_getElem.mp h.sorted _ _ hseen hk hlt
    · exact le_rfl
  exact { h with window := ⟨vs[k], List.getElem?_eq_getElem hk,
    hwin.trans_le (Nat.add_le_add_right hmono _)⟩ }

/-! ## Runs -/

/-- Every step keeps the invariant. -/
theorem CqInv.step {s' : CqState} (op : CqOp) (h : ∃ vs, CqInv s vs)
    (hstep : cqStep s op = some s') : ∃ vs, CqInv s' vs := by
  obtain ⟨vs, h⟩ := h
  cases op with
  | post cqe =>
      rw [cqStep] at hstep
      split_ifs at hstep with hfull
      obtain rfl := Option.some.inj hstep
      exact ⟨vs, h.post (Bool.not_eq_true _ ▸ hfull) (tag_tagged _ _)⟩
  | see k =>
      rw [cqStep] at hstep
      split_ifs at hstep with hk
      obtain rfl := Option.some.inj hstep
      exact ⟨vs, h.see hk.1 hk.2⟩
  | getCqe =>
      obtain rfl := Option.some.inj hstep
      exact ⟨vs, h.getCqe⟩
  | updateHead =>
      obtain rfl := Option.some.inj hstep
      exact ⟨_, h.updateHead⟩

theorem cqInv_init {qsize : ℕ} (htwo : 2 ≤ qsize) (hlt : qsize < 2 ^ 16) {mem : ℕ → NvmeCqe}
    (hblank : ∀ i < qsize, (mem i).sfp &&& 1 = 0) (dbbuf : Option NvmeDbbuf) :
    CqInv (cqInit (nvmeConfigureCq qsize mem dbbuf)) [0] where
  two_le := htwo
  qsize_lt := hlt
  written := fun p hp => absurd hp (Nat.not_lt_zero p)
  blank := fun j hj _ => congrArg BitVec.toNat (hblank j hj)
  tags := fun p hp => absurd hp (Nat.not_lt_zero p)
  head := by
    change (0 : BitVec 16) = BitVec.ofNat 16 (0 % qsize)
    rw [Nat.zero_mod]
    rfl
  phase := by
    change 0 = 0 / qsize % 2
    rw [Nat.zero_div]
  inOrder := List.prefix_refl []
  doorbells := by
    change [0] = [BitVec.ofNat 16 (0 % qsize)]
    rw [Nat.zero_mod]
    rfl
  sorted := List.pairwise_singleton _ _
  reached := by simp
  window := ⟨0, rfl, by change 0 < 0 + qsize; omega⟩

/-- The host returns what the controller has posted, in order and without gaps, and it
finds no entry only if it has returned them all. -/
theorem cq_returns_posted (qsize : ℕ) (htwo : 2 ≤ qsize) (hqsize : qsize ≤ 65535)
    (mem : ℕ → NvmeCqe) (hblank : ∀ i < qsize, (mem i).sfp &&& 1 = 0) (dbbuf : Option NvmeDbbuf)
    (ops : List CqOp) (s : CqState)
    (hrun : Runs.run cqStep (cqInit (nvmeConfigureCq qsize mem dbbuf)) ops = some s) :
    s.returned <+: s.posted ∧ ((nvmeCqGetCqe s.cq).1 = none → s.returned = s.posted) := by
  have hinit : ∃ vs, CqInv (cqInit (nvmeConfigureCq qsize mem dbbuf)) vs :=
    ⟨[0], cqInv_init htwo (by omega) hblank dbbuf⟩
  obtain ⟨vs, h⟩ := Runs.run_invariant_of_step (fun _ op _ => CqInv.step op) hinit hrun
  refine ⟨h.inOrder, fun hnone => ?_⟩
  rcases Nat.lt_or_ge s.returned.length s.posted.length with hmore | hall
  · rw [h.getCqe_some hmore] at hnone
    cases hnone
  · exact h.inOrder.eq_of_length_le hall

/-- In a ring of two slots the second entry waits until the host has told that it has
read the first, and it is found in the next pass. -/
theorem cq_returns_posted_two_slots :
    let e (cid : BitVec 16) : NvmeCqe := ⟨0, 0, 0, cid, 0⟩
    let run (ops : List CqOp) :=
      Runs.run cqStep (cqInit (nvmeConfigureCq 2 (fun _ => e 0) none)) ops
    run [.post (e 1), .post (e 2)] = none ∧
    (run [.post (e 1), .getCqe, .updateHead, .see 1, .post (e 2), .getCqe, .updateHead, .see 2,
        .post (e 3), .getCqe]).map (fun s => s.returned.map NvmeCqe.cid) = some [1, 2, 3] ∧
    ∀ s, run [.post (e 1), .getCqe, .updateHead, .see 1, .post (e 2), .getCqe, .updateHead, .see 2,
        .post (e 3), .getCqe] = some s →
      s.returned <+: s.posted ∧ ((nvmeCqGetCqe s.cq).1 = none → s.returned = s.posted) :=
  ⟨rfl, by decide +kernel, fun s hs => cq_returns_posted 2 le_rfl (by decide) _ (fun _ _ => rfl)
    none _ s hs⟩

end Nvme

end Libvfn
