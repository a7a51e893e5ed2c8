import Libvfn.Nvme.RingIndex
import Libvfn.Support.Align

/-!
# Reaping a number of entries

`nvme_cq_wait_cqes` takes entries off a completion queue until it has as many as it was
asked for, or until a deadline. The controller adds entries at any moment, so we give the
memory of the queue at every look that the host takes at it, and the clock at every
reading. A call that has not come to its end after a number of looks has no result.

The loops look at the queue before they test whether there is anything left to do, so a
call for no entries at all takes one if there is one. And a queue of `2 ^ 16` entries is not
started over with the other phase. `nvmeCqWaitCqes_exact_iff` says that the count is wrong
in these two cases only. Whether a call comes to the end of such a queue depends on the
entries that arrive in time, and not on how it is done (`MissesWrap`).
-/

namespace Libvfn

namespace Nvme

open Word Support

/-! ## The loops -/

/-- The queue, the array that the entries are copied to, unless that is `NULL`, how far
the pointer into it has moved, and the number of entries still wanted. The looks at which
entries were taken are recorded. -/
structure Reaping where
  cq : NvmeCq
  cqes : Option (ℕ → NvmeCqe)
  cursor : ℕ
  m : ℤ
  looks : List ℕ

def reapOnce (mem : ℕ → ℕ → NvmeCqe) (i : ℕ) (s : Reaping) : Reaping :=
  match nvmeCqGetCqe { s.cq with mem := mem i } with
  | (none, cq) => { s with cq := cq }
  | (some cqe, cq) =>
      { cq := cq
        cqes := s.cqes.map fun cqes => Function.update cqes s.cursor cqe
        cursor := s.cursor + 1
        m := s.m - 1
        looks := s.looks ++ [i] }

/-- The loops, from look number `i` on. After it they go on as long as entries are wanted
and `goOn i` holds. -/
def reapLoop (mem : ℕ → ℕ → NvmeCqe) (goOn : ℕ → Bool) : ℕ → ℕ → Reaping → Option Reaping
  | 0, _, _ => none
  | fuel + 1, i, s =>
      let s := reapOnce mem i s
      if 0 < s.m && goOn i then reapLoop mem goOn fuel (i + 1) s else some s

def nvmeCqGetCqes (fuel : ℕ) (mem : ℕ → ℕ → NvmeCqe) (cq : NvmeCq)
    (cqes : Option (ℕ → NvmeCqe)) (n : ℤ) : Option Reaping :=
  reapLoop mem (fun _ => true) fuel 0 ⟨cq, cqes, 0, n, []⟩

structure Timespec where
  tvSec : U64
  tvNsec : U64

def timeToUsec (ts : Timespec) : U64 := ts.tvNsec.sdiv 1000 + ts.tvSec * 1000000

structure WaitOutcome where
  ret : ℤ
  errno : Option Errno
  cq : NvmeCq
  cqes : Option (ℕ → NvmeCqe)
  looks : List ℕ

def inTime (ticks : ℕ → U64) (freq : U64) : Option Timespec → ℕ → Bool
  | none, _ => true
  | some ts, i => ticks (i + 1) < ticks 0 + timeToUsec ts * (freq / 1000000)

/-- `nvme_cq_wait_cqes`, with the readings of the clock and its frequency. -/
def nvmeCqWaitCqes (fuel : ℕ) (mem : ℕ → ℕ → NvmeCqe) (ticks : ℕ → U64) (freq : U64)
    (cq : NvmeCq) (cqes : Option (ℕ → NvmeCqe)) (n : ℤ) :
    Option Timespec → Option WaitOutcome
  | none => (nvmeCqGetCqes fuel mem cq cqes n).map fun s => ⟨n, none, s.cq, s.cqes, s.looks⟩
  | some ts =>
      (reapLoop mem (inTime ticks freq (some ts)) fuel 0 ⟨cq, cqes, 0, n, []⟩).map fun s =>
        ⟨n - s.m, if 0 < s.m then some .ETIMEDOUT else none, s.cq, s.cqes, s.looks⟩

/-! ## What the count promises -/

/-- The entry that was at slot `k` behind the head when it was taken, for the looks at
which entries were taken. -/
def takenEntry (mem : ℕ → ℕ → NvmeCqe) (cq : NvmeCq) (looks : List ℕ) (k : ℕ) :
    Option NvmeCqe :=
  looks[k]?.map fun i => mem i ((cq.head.toNat + k) % cq.qsize)

/-- A call for `n` entries has returned as many as it took from the head of the queue, in
order and each of them new, and copied them to the start of the array. It has returned fewer
than `n` only when the time was over. -/
structure CountExact (mem : ℕ → ℕ → NvmeCqe) (cq : NvmeCq) (cqes : Option (ℕ → NvmeCqe))
    (n : ℤ) (ts : Option Timespec) (out : WaitOutcome) : Prop where
  nonneg : 0 ≤ out.ret
  le : out.ret ≤ n
  head : out.cq.head.toNat = (cq.head.toNat + out.ret.toNat) % cq.qsize
  phase : out.cq.phase = (cq.phase + (cq.head.toNat + out.ret.toNat) / cq.qsize) % 2
  sorted : out.looks.Pairwise (· < ·)
  length : out.looks.length = out.ret.toNat
  fresh : ∀ k cqe, takenEntry mem cq out.looks k = some cqe →
    cqe.tag ≠ (cq.phase + (cq.head.toNat + k) / cq.qsize) % 2
  cqes : out.cqes = cqes.map fun cqes k => (takenEntry mem cq out.looks k).getD (cqes k)
  short : out.ret < n → ts.isSome ∧ out.errno = some .ETIMEDOUT

/-! ## Where the wrap is missed -/

/-- The number of entries that a host which looks again and again has found before look
`i`, up to the end of the ring. -/
def arrived (mem : ℕ → ℕ → NvmeCqe) (cq : NvmeCq) : ℕ → ℕ
  | 0 => 0
  | i + 1 =>
      let k := arrived mem cq i
      if (mem i (cq.head.toNat + k)).tag = cq.phase then k else k + 1

/-- The last slot of a ring of `2 ^ 16` entries is found filled at some look, at which the
time is not over and entries are still wanted. -/
def MissesWrap (mem : ℕ → ℕ → NvmeCqe) (cq : NvmeCq) (n : ℤ) (goOn : ℕ → Bool) : Prop :=
  cq.qsize = 2 ^ 16 ∧ ∃ i, (∀ j < i, goOn j = true) ∧ arrived mem cq i < n ∧
    cq.head.toNat + arrived mem cq (i + 1) = 2 ^ 16

section Arrived

variable {mem : ℕ → ℕ → NvmeCqe} {cq : NvmeCq} {n : ℤ} {goOn : ℕ → Bool} {i : ℕ}

theorem arrived_succ_of_old (h : (mem i (cq.head.toNat + arrived mem cq i)).tag = cq.phase) :
    arrived mem cq (i + 1) = arrived mem cq i := if_pos h

theorem arrived_succ_of_new (h : (mem i (cq.head.toNat + arrived mem cq i)).tag ≠ cq.phase) :
    arrived mem cq (i + 1) = arrived mem cq i + 1 := if_neg h

theorem arrived_le_succ (i : ℕ) : arrived mem cq i ≤ arrived mem cq (i + 1) ∧
    arrived mem cq (i + 1) ≤ arrived mem cq i + 1 := by
  rw [arrived]
  split_ifs <;> omega

theorem arrived_mono : Monotone (arrived mem cq) :=
  monotone_nat_of_le_succ fun i => (arrived_le_succ i).1

theorem not_missesWrap (hroom : cq.qsize = 2 ^ 16 → cq.head.toNat + arrived mem cq (i + 1) < 2 ^ 16)
    (hend : cq.qsize = 2 ^ 16 → goOn i = true → n ≤ arrived mem cq (i + 1)) :
    ¬MissesWrap mem cq n goOn := by
  rintro ⟨hqsize, j, hbefore, hn, hreach⟩
  have hlt := hroom hqsize
  rcases Nat.lt_or_ge i j with hij | hji
  · have hle : arrived mem cq (i + 1) ≤ arrived mem cq j := arrived_mono hij
    have hdone := hend hqsize (hbefore i hij)
    omega
  · have hle : arrived mem cq (j + 1) ≤ arrived mem cq (i + 1) :=
      arrived_mono (Nat.succ_le_succ hji)
    omega

end Arrived

/-! ## Positions -/

/-- The position of the host, counted from a pass with phase zero. -/
def NvmeCq.position (cq : NvmeCq) : ℕ := cq.qsize * cq.phase + cq.head.toNat

section Position

variable {cq : NvmeCq} (hhead : cq.head.toNat < cq.qsize)

theorem NvmeCq.position_add_mod (n : ℕ) :
    (cq.position + n) % cq.qsize = (cq.head.toNat + n) % cq.qsize := by
  rw [position, Nat.add_assoc, Nat.mul_add_mod]

include hhead

theorem NvmeCq.position_add_div (n : ℕ) :
    (cq.position + n) / cq.qsize = cq.phase + (cq.head.toNat + n) / cq.qsize := by
  rw [position, Nat.add_assoc, Nat.mul_add_div (Nat.zero_lt_of_lt hhead)]

theorem NvmeCq.passed_position (hphase : cq.phase < 2) : cq.Passed cq.position := by
  have hmod := cq.position_add_mod 0
  have hdiv := position_add_div hhead 0
  rw [Nat.add_zero, Nat.add_zero] at hmod hdiv
  rw [Nat.mod_eq_of_lt hhead] at hmod
  rw [Nat.div_eq_of_lt hhead, Nat.add_zero] at hdiv
  exact ⟨hmod.symm, by rw [hdiv, Nat.mod_eq_of_lt hphase]⟩

end Position

/-! ## One turn of the loops -/

section Once

variable {s : Reaping} {mem : ℕ → ℕ → NvmeCqe} {i : ℕ}

theorem reapOnce_of_old (h : (mem i s.cq.head.toNat).tag = s.cq.phase) :
    reapOnce mem i s = { s with cq := { s.cq with mem := mem i } } := by
  have hold : (nvmeCqHead { s.cq with mem := mem i }).tag = s.cq.phase := h
  rw [reapOnce, nvmeCqGetCqe_eq, if_pos hold]

theorem reapOnce_of_new (h : (mem i s.cq.head.toNat).tag ≠ s.cq.phase) :
    reapOnce mem i s =
      { cq := advanced { s.cq with mem := mem i }
        cqes := s.cqes.map fun cqes => Function.update cqes s.cursor (mem i s.cq.head.toNat)
        cursor := s.cursor + 1
        m := s.m - 1
        looks := s.looks ++ [i] } := by
  have hnew : (nvmeCqHead { s.cq with mem := mem i }).tag ≠ s.cq.phase := h
  rw [reapOnce, nvmeCqGetCqe_eq, if_neg hnew]
  rfl

end Once

/-- Nothing has gone wrong before look `i`: the entries that were taken are those that the
count promises, and the last slot of a ring of `2 ^ 16` entries is not among them. -/
structure Reaping.Exact (mem : ℕ → ℕ → NvmeCqe) (cq : NvmeCq) (cqes : Option (ℕ → NvmeCqe))
    (n : ℤ) (i : ℕ) (s : Reaping) : Prop where
  sorted : s.looks.Pairwise (· < ·)
  before : ∀ j ∈ s.looks, j < i
  cursor : s.cursor = s.looks.length
  m : s.m = n - s.looks.length
  qsize : s.cq.qsize = cq.qsize
  passed : s.cq.Passed (cq.position + s.looks.length)
  fresh : ∀ k cqe, takenEntry mem cq s.looks k = some cqe →
    cqe.tag ≠ (cq.phase + (cq.head.toNat + k) / cq.qsize) % 2
  cqes : s.cqes = cqes.map fun cqes k => (takenEntry mem cq s.looks k).getD (cqes k)
  found : cq.qsize = 2 ^ 16 → s.looks.length = arrived mem cq i ∧
    cq.head.toNat + s.looks.length < 2 ^ 16

/-- The loop has gone beyond the last slot of a ring of `2 ^ 16` entries with the old phase. If
it went further, then the first entry that it took there was none. -/
structure Reaping.Spoiled (mem : ℕ → ℕ → NvmeCqe) (cq : NvmeCq) (s : Reaping) : Prop where
  qsize : s.cq.qsize = 2 ^ 16
  phase : s.cq.phase = cq.phase
  beyond : s.cq.head = 0 ∧ cq.head.toNat + s.looks.length = 2 ^ 16 ∨
    ∃ cqe, takenEntry mem cq s.looks (2 ^ 16 - cq.head.toNat) = some cqe ∧ cqe.tag ≠ cq.phase

section Exact

variable {mem : ℕ → ℕ → NvmeCqe} {cq : NvmeCq} {cqes : Option (ℕ → NvmeCqe)} {n : ℤ}
  {looks : List ℕ} {i : ℕ} {s : Reaping} {goOn : ℕ → Bool} {fuel : ℕ} {s' : Reaping}

theorem takenEntry_concat (k : ℕ) :
    takenEntry mem cq (looks ++ [i]) k =
      if k = looks.length then some (mem i ((cq.head.toNat + looks.length) % cq.qsize))
      else takenEntry mem cq looks k := by
  rw [takenEntry, takenEntry]
  rcases lt_trichotomy k looks.length with hlt | rfl | hgt
  · rw [List.getElem?_append_left hlt, if_neg hlt.ne]
  · rw [List.getElem?_concat_length, if_pos rfl, Option.map_some]
  · rw [if_neg hgt.ne', List.getElem?_eq_none (by simp; omega),
      List.getElem?_eq_none hgt.le]

theorem Reaping.Exact.slot (h : s.Exact mem cq cqes n i) :
    s.cq.head.toNat = (cq.head.toNat + s.looks.length) % cq.qsize := by
  rw [h.passed.head, h.qsize, NvmeCq.position_add_mod]

theorem Reaping.Exact.phase (h : s.Exact mem cq cqes n i) (hhead : cq.head.toNat < cq.qsize) :
    s.cq.phase = (cq.phase + (cq.head.toNat + s.looks.length) / cq.qsize) % 2 := by
  rw [h.passed.phase, h.qsize, NvmeCq.position_add_div hhead]

/-- In a ring of `2 ^ 16` entries the loop is where it should be after the entries that have
arrived, in the first pass. -/
theorem Reaping.Exact.front (h : s.Exact mem cq cqes n i) (hphase : cq.phase < 2)
    (hqsize : cq.qsize = 2 ^ 16) :
    s.cq.head.toNat = cq.head.toNat + arrived mem cq i ∧ s.cq.phase = cq.phase := by
  obtain ⟨harrived, hlt⟩ := h.found hqsize
  rw [← hqsize] at hlt
  have hslot := h.slot
  have hphase' := h.phase (by omega)
  rw [Nat.mod_eq_of_lt hlt, harrived] at hslot
  rw [Nat.div_eq_of_lt hlt, Nat.add_zero, Nat.mod_eq_of_lt hphase] at hphase'
  exact ⟨hslot, hphase'⟩

theorem Reaping.Exact.once_of_old (h : s.Exact mem cq cqes n i) (hphase : cq.phase < 2)
    (hold : (mem i s.cq.head.toNat).tag = s.cq.phase) :
    (reapOnce mem i s).Exact mem cq cqes n (i + 1) := by
  have harrived : cq.qsize = 2 ^ 16 → arrived mem cq (i + 1) = arrived mem cq i := by
    intro hqsize
    obtain ⟨hhead, hsame⟩ := h.front hphase hqsize
    exact arrived_succ_of_old (hhead ▸ hsame ▸ hold)
  rw [reapOnce_of_old hold]
  exact { h with
    before := fun j hj => Nat.lt_succ_of_lt (h.before j hj)
    passed := ⟨h.passed.head, h.passed.phase⟩
    found := fun hqsize => harrived hqsize ▸ h.found hqsize }

theorem Reaping.Exact.once_of_new (h : s.Exact mem cq cqes n i)
    (hhead : cq.head.toNat < cq.qsize) (hphase : cq.phase < 2) (hle : cq.qsize ≤ 2 ^ 16)
    (hnew : (mem i s.cq.head.toNat).tag ≠ s.cq.phase) (hfits : s.cq.head.toNat + 1 < 2 ^ 16) :
    (reapOnce mem i s).Exact mem cq cqes n (i + 1) := by
  have hpassed : ({ s.cq with mem := mem i } : NvmeCq).Passed (cq.position + s.looks.length) :=
    ⟨h.passed.head, h.passed.phase⟩
  have hlength : (s.looks ++ [i]).length = s.looks.length + 1 := List.length_append
  rw [reapOnce_of_new hnew]
  constructor
  case sorted =>
    refine List.pairwise_append.mpr
      ⟨h.sorted, List.pairwise_singleton _ _, fun j hj j' hj' => ?_⟩
    rw [List.mem_singleton.mp hj']
    exact h.before j hj
  case before =>
    intro j hj
    rcases List.mem_append.mp hj with hj | hj
    · exact Nat.lt_succ_of_lt (h.before j hj)
    · rw [List.mem_singleton.mp hj]
      exact Nat.lt_succ_self i
  case cursor => rw [hlength, h.cursor]
  case m =>
    rw [hlength, h.m]
    push_cast
    ring
  case qsize => exact (advanced_mem _).2.trans h.qsize
  case passed =>
    rw [hlength, ← Nat.add_assoc]
    exact hpassed.advanced_of_fits (h.qsize ▸ Nat.zero_lt_of_lt hhead) (h.qsize ▸ hle) hfits
  case fresh =>
    intro k cqe hk
    rw [takenEntry_concat] at hk
    split_ifs at hk with hlast
    · rw [← Option.some.inj hk, hlast, ← h.slot, ← h.phase hhead]
      exact hnew
    · exact h.fresh k cqe hk
  case cqes =>
    dsimp only
    rw [h.cqes, h.cursor, Option.map_map, h.slot]
    congr 1
    funext cqes k
    rw [Function.comp_apply, takenEntry_concat, Function.update_apply]
    split_ifs <;> rfl
  case found =>
    intro hqsize
    obtain ⟨hslot, hsame⟩ := h.front hphase hqsize
    obtain ⟨hcount, -⟩ := h.found hqsize
    rw [hlength, arrived_succ_of_new (hslot ▸ hsame ▸ hnew)]
    omega

/-- The index fits sixteen bits after it was incremented, but for the last slot of a ring of
`2 ^ 16` entries. -/
theorem Reaping.Exact.fits_or_last (h : s.Exact mem cq cqes n i)
    (hhead : cq.head.toNat < cq.qsize) (hphase : cq.phase < 2) (hle : cq.qsize ≤ 2 ^ 16) :
    s.cq.head.toNat + 1 < 2 ^ 16 ∨
      cq.qsize = 2 ^ 16 ∧ cq.head.toNat + arrived mem cq i + 1 = 2 ^ 16 := by
  have hlt : s.cq.head.toNat < cq.qsize := h.slot ▸ Nat.mod_lt _ (Nat.zero_lt_of_lt hhead)
  rcases hle.lt_or_eq with hsmall | hqsize
  · exact .inl (by omega)
  · obtain ⟨hslot, -⟩ := h.front hphase hqsize
    rcases Nat.lt_or_ge (s.cq.head.toNat + 1) (2 ^ 16) with hfits | hlast
    · exact .inl hfits
    · exact .inr ⟨hqsize, by omega⟩

/-- The entry of the last slot is taken, and the phase is not inverted. -/
theorem Reaping.Exact.spoiled (h : s.Exact mem cq cqes n i) (hphase : cq.phase < 2)
    (hqsize : cq.qsize = 2 ^ 16) (hlast : cq.head.toNat + arrived mem cq i + 1 = 2 ^ 16)
    (hnew : (mem i s.cq.head.toNat).tag ≠ s.cq.phase) :
    (reapOnce mem i s).Spoiled mem cq ∧ cq.head.toNat + arrived mem cq (i + 1) = 2 ^ 16 := by
  obtain ⟨hslot, hsame⟩ := h.front hphase hqsize
  obtain ⟨hcount, -⟩ := h.found hqsize
  have hfull : ({ s.cq with mem := mem i } : NvmeCq).qsize = 2 ^ 16 := h.qsize.trans hqsize
  rw [reapOnce_of_new hnew, arrived_succ_of_new (hslot ▸ hsame ▸ hnew)]
  refine ⟨⟨(advanced_mem _).2.trans hfull, (advanced_phase hfull.ge).trans hsame, .inl ⟨?_, ?_⟩⟩,
    hlast⟩
  · have hzero : (s.cq.head + 1).toNat = 0 := by
      have hone : (1 : BitVec 16).toNat = 1 := rfl
      rw [BitVec.toNat_add, hslot, hone]
      omega
    rw [advanced_head]
    split_ifs
    · rfl
    · exact BitVec.eq_of_toNat_eq hzero
  · rw [List.length_append, List.length_singleton]
    omega

theorem Reaping.Spoiled.once (h : s.Spoiled mem cq) (hqsize : cq.qsize = 2 ^ 16) (i : ℕ) :
    (reapOnce mem i s).Spoiled mem cq := by
  by_cases hold : (mem i s.cq.head.toNat).tag = s.cq.phase
  · rw [reapOnce_of_old hold]
    exact ⟨h.qsize, h.phase, h.beyond⟩
  · have hfull : ({ s.cq with mem := mem i } : NvmeCq).qsize = 2 ^ 16 := h.qsize
    have hhead := cq.head.isLt
    rw [reapOnce_of_new hold]
    refine ⟨(advanced_mem _).2.trans hfull, (advanced_phase hfull.ge).trans h.phase, .inr ?_⟩
    dsimp only
    rw [takenEntry_concat]
    rcases h.beyond with ⟨hzero, hlength⟩ | ⟨cqe, hcqe, htag⟩
    · refine ⟨mem i 0, ?_, ?_⟩
      · rw [if_pos (by omega), hlength, ← hqsize, Nat.mod_self]
      · rw [hzero, h.phase] at hold
        exact hold
    · have hne : 2 ^ 16 - cq.head.toNat ≠ s.looks.length := by
        intro heq
        rw [heq, takenEntry, List.getElem?_eq_none le_rfl] at hcqe
        cases hcqe
      exact ⟨cqe, by rw [if_neg hne, hcqe], htag⟩

theorem Reaping.Spoiled.loop (h : s.Spoiled mem cq) (hqsize : cq.qsize = 2 ^ 16)
    (hend : reapLoop mem goOn fuel i s = some s') : s'.Spoiled mem cq := by
  induction fuel generalizing i s with
  | zero => cases hend
  | succ fuel ih =>
      rw [reapLoop] at hend
      split_ifs at hend
      · exact ih (h.once hqsize i) hend
      · exact Option.some.inj hend ▸ h.once hqsize i

/-- What a loop that was asked for entries leaves: it took as many, or fewer when it was told
to end, unless it has missed the wrap. -/
inductive Reaping.Ends (mem : ℕ → ℕ → NvmeCqe) (cq : NvmeCq) (cqes : Option (ℕ → NvmeCqe)) (n : ℤ)
    (goOn : ℕ → Bool) (s : Reaping) : Prop
  | exact (i : ℕ) (hexact : s.Exact mem cq cqes n i) (hm : 0 ≤ s.m)
      (hshort : 0 < s.m → ∃ j, goOn j = false) (hwrap : ¬MissesWrap mem cq n goOn)
  | spoiled (hspoiled : s.Spoiled mem cq) (hwrap : MissesWrap mem cq n goOn)

/-- The loop ends after look `i`, and nothing has gone wrong. -/
theorem Reaping.Exact.ends (h : s.Exact mem cq cqes n (i + 1)) (hm : 0 ≤ s.m)
    (hstop : ¬(0 < s.m ∧ goOn i = true)) : s.Ends mem cq cqes n goOn := by
  have hm' := h.m
  have hfalse : 0 < s.m → goOn i = false := fun hpos =>
    Bool.eq_false_iff.mpr fun hgo => hstop ⟨hpos, hgo⟩
  refine .exact (i + 1) h hm (fun hpos => ⟨i, hfalse hpos⟩)
    (not_missesWrap (i := i) (fun hqsize => ?_) fun hqsize hgo => ?_)
  · obtain ⟨hcount, hlt⟩ := h.found hqsize
    omega
  · obtain ⟨hcount, -⟩ := h.found hqsize
    by_contra hwanted
    exact hstop ⟨by omega, hgo⟩

/-- The loop goes on from a state in which nothing has gone wrong. The induction is on the
number of looks, and the last slot is where the two outcomes part. -/
theorem Reaping.Exact.loop (h : s.Exact mem cq cqes n i) (hhead : cq.head.toNat < cq.qsize)
    (hphase : cq.phase < 2) (hle : cq.qsize ≤ 2 ^ 16) (hm : 0 < s.m)
    (hbefore : ∀ j < i, goOn j = true) (hend : reapLoop mem goOn fuel i s = some s') :
    s'.Ends mem cq cqes n goOn := by
  induction fuel generalizing i s with
  | zero => cases hend
  | succ fuel ih =>
      have hm' := h.m
      rw [reapLoop] at hend
      -- a turn after which nothing has gone wrong, and which took at most one entry
      have hgood : (reapOnce mem i s).Exact mem cq cqes n (i + 1) →
          (reapOnce mem i s).looks.length ≤ s.looks.length + 1 →
            s'.Ends mem cq cqes n goOn := by
        intro hnext hone
        have hnextm := hnext.m
        split_ifs at hend with hmore
        · rw [Bool.and_eq_true, decide_eq_true_iff] at hmore
          refine ih hnext hmore.1 (fun j hj => ?_) hend
          rcases Nat.lt_succ_iff_lt_or_eq.mp hj with hj | rfl
          · exact hbefore j hj
          · exact hmore.2
        · obtain rfl := Option.some.inj hend
          rw [Bool.and_eq_true, decide_eq_true_iff] at hmore
          exact hnext.ends (by omega) hmore
      by_cases hold : (mem i s.cq.head.toNat).tag = s.cq.phase
      · refine hgood (h.once_of_old hphase hold) ?_
        rw [reapOnce_of_old hold]
        exact Nat.le_succ _
      · rcases h.fits_or_last hhead hphase hle with hfits | ⟨hqsize, hlast⟩
        · refine hgood (h.once_of_new hhead hphase hle hold hfits) ?_
          rw [reapOnce_of_new hold]
          exact List.length_append.le
        · obtain ⟨hspoiled, hreach⟩ := h.spoiled hphase hqsize hlast hold
          obtain ⟨hcount, -⟩ := h.found hqsize
          refine .spoiled ?_ ⟨hqsize, i, hbefore, by omega, hreach⟩
          split_ifs at hend
          · exact hspoiled.loop hqsize hend
          · exact Option.some.inj hend ▸ hspoiled

theorem Reaping.Exact.init (hhead : cq.head.toNat < cq.qsize) (hphase : cq.phase < 2) :
    Reaping.Exact mem cq cqes n 0 ⟨cq, cqes, 0, n, []⟩ where
  sorted := .nil
  before := by simp
  cursor := rfl
  m := by simp
  qsize := rfl
  passed := NvmeCq.passed_position hhead hphase
  fresh := by simp [takenEntry]
  cqes := by simp [takenEntry]
  found := fun hqsize => ⟨rfl, hqsize ▸ hhead⟩

end Exact

/-! ## The count -/

section Count

variable {mem : ℕ → ℕ → NvmeCqe} {cq : NvmeCq} {cqes : Option (ℕ → NvmeCqe)} {n : ℤ} {i : ℕ}
  {s : Reaping} {ts : Option Timespec} {errno : Option Errno}

/-- What the loop leaves is what the count promises, for the number of entries taken. -/
theorem Reaping.Exact.countExact (h : s.Exact mem cq cqes n i)
    (hhead : cq.head.toNat < cq.qsize) {r : ℤ} (hr : r = s.looks.length) (hm : 0 ≤ s.m)
    (hshort : 0 < s.m → ts.isSome ∧ errno = some .ETIMEDOUT) :
    CountExact mem cq cqes n ts ⟨r, errno, s.cq, s.cqes, s.looks⟩ := by
  have hm' := h.m
  subst hr
  constructor
  case nonneg => exact Int.natCast_nonneg _
  case le => dsimp only; omega
  case head => exact h.slot
  case phase => exact h.phase hhead
  case sorted => exact h.sorted
  case length => exact (Int.toNat_natCast _).symm
  case fresh => exact h.fresh
  case cqes => exact h.cqes
  case short =>
    intro hlt
    dsimp only at hlt
    exact hshort (by omega)

theorem tag_lt_two (cqe : NvmeCqe) : cqe.tag < 2 := by
  rw [NvmeCqe.tag, BitVec.toNat_and]
  exact Nat.lt_succ_of_le Nat.and_le_right

/-- Behind the last slot the phase is wrong, or an old entry was taken for a new one. -/
theorem Reaping.Spoiled.not_countExact (h : s.Spoiled mem cq) (hphase : cq.phase < 2)
    (hqsize : cq.qsize = 2 ^ 16) {r : ℤ} :
    ¬CountExact mem cq cqes n ts ⟨r, errno, s.cq, s.cqes, s.looks⟩ := by
  intro hcount
  have hlength : s.looks.length = r.toNat := hcount.length
  have hlap : 2 ^ 16 / cq.qsize = 1 := by rw [hqsize]; rfl
  rcases h.beyond with ⟨-, hend⟩ | ⟨cqe, hcqe, htag⟩
  · have hinverted : s.cq.phase = (cq.phase + (cq.head.toNat + r.toNat) / cq.qsize) % 2 :=
      hcount.phase
    rw [h.phase, ← hlength, hend, hlap] at hinverted
    omega
  · have hhead := cq.head.isLt
    have hfresh := hcount.fresh _ cqe hcqe
    rw [Nat.add_sub_of_le hhead.le, hlap] at hfresh
    have hlt := tag_lt_two cqe
    omega

theorem reapLoop_zero {goOn : ℕ → Bool} {fuel : ℕ} {s' : Reaping}
    (hend : reapLoop mem goOn fuel 0 ⟨cq, cqes, 0, 0, []⟩ = some s') :
    s' = reapOnce mem 0 ⟨cq, cqes, 0, 0, []⟩ := by
  have hdone : ¬0 < (reapOnce mem 0 ⟨cq, cqes, 0, 0, []⟩).m := by
    by_cases hold : (mem 0 cq.head.toNat).tag = cq.phase
    · rw [reapOnce_of_old (s := ⟨cq, cqes, 0, 0, []⟩) hold]
      exact lt_irrefl 0
    · rw [reapOnce_of_new (s := ⟨cq, cqes, 0, 0, []⟩) hold]
      exact (Int.negSucc_lt_zero 0).not_gt
  cases fuel with
  | zero => cases hend
  | succ fuel =>
      rw [reapLoop, decide_eq_false hdone, Bool.false_and, if_neg Bool.false_ne_true] at hend
      exact (Option.some.inj hend).symm

end Count

theorem nvmeCqWaitCqes_eq_some {fuel : ℕ} {mem : ℕ → ℕ → NvmeCqe} {ticks : ℕ → U64} {freq : U64}
    {cq : NvmeCq} {cqes : Option (ℕ → NvmeCqe)} {n : ℤ} {ts : Option Timespec}
    {out : WaitOutcome} (hret : nvmeCqWaitCqes fuel mem ticks freq cq cqes n ts = some out) :
    ∃ s, reapLoop mem (inTime ticks freq ts) fuel 0 ⟨cq, cqes, 0, n, []⟩ = some s ∧
      (ts = none ∧ out = ⟨n, none, s.cq, s.cqes, s.looks⟩ ∨
        ts.isSome ∧ out =
          ⟨n - s.m, if 0 < s.m then some .ETIMEDOUT else none, s.cq, s.cqes, s.looks⟩) := by
  cases ts with
  | none =>
      obtain ⟨s, hs, rfl⟩ := Option.map_eq_some_iff.mp hret
      exact ⟨s, hs, .inl ⟨rfl, rfl⟩⟩
  | some ts =>
      obtain ⟨s, hs, rfl⟩ := Option.map_eq_some_iff.mp hret
      exact ⟨s, hs, .inr ⟨rfl, rfl⟩⟩

/-- When a call for entries returns, then its count is exact if and only if entries were asked
for or there was nothing new at its first look, and the call does not miss the wrap of a queue
of `2 ^ 16` entries. -/
theorem nvmeCqWaitCqes_exact_iff (fuel : ℕ) (mem : ℕ → ℕ → NvmeCqe) (ticks : ℕ → U64)
    (freq : U64) (cq : NvmeCq) (cqes : Option (ℕ → NvmeCqe)) (n : ℤ) (ts : Option Timespec)
    (out : WaitOutcome) (hn : 0 ≤ n) (hhead : cq.head.toNat < cq.qsize) (hphase : cq.phase < 2)
    (hle : cq.qsize ≤ 2 ^ 16)
    (hret : nvmeCqWaitCqes fuel mem ticks freq cq cqes n ts = some out) :
    CountExact mem cq cqes n ts out ↔
      (0 < n ∨ (mem 0 cq.head.toNat).tag = cq.phase) ∧
        ¬MissesWrap mem cq n (inTime ticks freq ts) := by
  have hinit : Reaping.Exact mem cq cqes n 0 ⟨cq, cqes, 0, n, []⟩ := .init hhead hphase
  obtain ⟨s, hs, hout⟩ := nvmeCqWaitCqes_eq_some hret
  rcases hn.lt_or_eq with hpos | rfl
  · cases hinit.loop hhead hphase hle hpos (fun j hj => absurd hj (Nat.not_lt_zero j)) hs with
    | exact i hexact hm hshort hwrap =>
        refine iff_of_true ?_ ⟨.inl hpos, hwrap⟩
        have htaken := hexact.m
        rcases hout with ⟨rfl, rfl⟩ | ⟨hts, rfl⟩
        · have hdone : ¬0 < s.m := by
            intro hmore
            obtain ⟨j, hj⟩ := hshort hmore
            cases hj
          exact hexact.countExact hhead (by omega) hm fun h => absurd h hdone
        · exact hexact.countExact hhead (by omega) hm fun h => ⟨hts, if_pos h⟩
    | spoiled hspoiled hwrap =>
        refine iff_of_false ?_ fun h => h.2 hwrap
        rcases hout with ⟨-, rfl⟩ | ⟨-, rfl⟩
        · exact hspoiled.not_countExact hphase hwrap.1
        · exact hspoiled.not_countExact hphase hwrap.1
  · have hwrap : ¬MissesWrap mem cq 0 (inTime ticks freq ts) := by
      rintro ⟨-, i, -, hlt, -⟩
      omega
    obtain rfl := reapLoop_zero hs
    by_cases hold : (mem 0 cq.head.toNat).tag = cq.phase
    · refine iff_of_true ?_ ⟨.inr hold, hwrap⟩
      have hexact := hinit.once_of_old hphase hold
      rw [reapOnce_of_old (s := ⟨cq, cqes, 0, 0, []⟩) hold] at hexact hout
      rcases hout with ⟨-, rfl⟩ | ⟨-, rfl⟩
      · exact hexact.countExact hhead rfl le_rfl fun h => absurd h (lt_irrefl 0)
      · exact hexact.countExact hhead rfl le_rfl fun h => absurd h (lt_irrefl 0)
    · refine iff_of_false ?_ fun h => h.1.elim (lt_irrefl 0) hold
      rw [reapOnce_of_new (s := ⟨cq, cqes, 0, 0, []⟩) hold] at hout
      rcases hout with ⟨-, rfl⟩ | ⟨-, rfl⟩
      · exact fun hcount => Nat.one_ne_zero hcount.length
      · exact fun hcount => zero_lt_one.not_ge hcount.le

/-- Three entries are asked for at the last slot of a ring of four, one of them comes, and
then the time is over. One is asked for in a ring of `2 ^ 16`, and it is the first one. -/
theorem nvmeCqWaitCqes_exact_iff_timeout :
    (∃ out, nvmeCqWaitCqes 3 (fun _ _ => firstPassCqe) (fun i => BitVec.ofNat 64 (2 * i)) 1000000
        ⟨fun _ => firstPassCqe, 3, 4, 0, 0, none⟩ none 3 (some ⟨0, 3000⟩) = some out ∧
      out.ret = 1 ∧ out.errno = some .ETIMEDOUT ∧
      CountExact (fun _ _ => firstPassCqe) ⟨fun _ => firstPassCqe, 3, 4, 0, 0, none⟩ none 3
        (some ⟨0, 3000⟩) out) ∧
    ∃ out, nvmeCqWaitCqes 1 (fun _ _ => firstPassCqe) (fun _ => 0) 1000000
        ⟨fun _ => firstPassCqe, 0, 2 ^ 16, 0, 0, none⟩ none 1 none = some out ∧
      out.ret = 1 ∧
      CountExact (fun _ _ => firstPassCqe) ⟨fun _ => firstPassCqe, 0, 2 ^ 16, 0, 0, none⟩ none 1
        none out := by
  refine ⟨⟨_, rfl, rfl, rfl, (nvmeCqWaitCqes_exact_iff 3 (fun _ _ => firstPassCqe)
    (fun i => BitVec.ofNat 64 (2 * i)) 1000000 ⟨fun _ => firstPassCqe, 3, 4, 0, 0, none⟩ none 3
    (some ⟨0, 3000⟩) _ (by decide) (by decide) (by decide) (by decide) rfl).mpr
      ⟨.inl (by decide), fun h => absurd h.1 (by decide)⟩⟩, _, rfl, rfl,
    (nvmeCqWaitCqes_exact_iff 1 (fun _ _ => firstPassCqe) (fun _ => 0) 1000000
      ⟨fun _ => firstPassCqe, 0, 2 ^ 16, 0, 0, none⟩ none 1 none _ (by decide) (by decide)
      (by decide) le_rfl rfl).mpr ⟨.inl (by decide), ?_⟩⟩
  -- a single entry does not lead from the first slot to the end
  rintro ⟨-, i, -, hlt, hreach⟩
  have hle : arrived (fun _ _ => firstPassCqe) ⟨fun _ => firstPassCqe, 0, 2 ^ 16, 0, 0, none⟩
      (i + 1) ≤ _ := (arrived_le_succ i).2
  change 0 + _ = _ at hreach
  omega

/-- A call for no entry takes one that is there and returns zero, or one if it was given a
time limit. In a queue of `2 ^ 16` the phase is wrong after the last slot. -/
theorem nvmeCqWaitCqes_takes_unwanted :
    (∃ out, nvmeCqWaitCqes 1 (fun _ _ => firstPassCqe) (fun _ => 0) 1000000
        ⟨fun _ => firstPassCqe, 0, 4, 0, 0, none⟩ (some fun _ => ⟨0, 0, 0, 0, 0⟩) 0 none =
          some out ∧
        out.ret = 0 ∧ out.cq.head = 1 ∧ out.cqes.map (· 0) = some firstPassCqe) ∧
      (∃ out, nvmeCqWaitCqes 1 (fun _ _ => firstPassCqe) (fun _ => 0) 1000000
        ⟨fun _ => firstPassCqe, 0, 4, 0, 0, none⟩ none 0 (some ⟨1, 0⟩) = some out ∧
        out.ret = 1) ∧
      (∃ out, nvmeCqWaitCqes 1 (fun _ _ => firstPassCqe) (fun _ => 0) 1000000
        ⟨fun _ => firstPassCqe, 65535, 2 ^ 16, 0, 0, none⟩ none 1 none = some out ∧
        out.ret = 1 ∧ out.cq.head = 0 ∧ out.cq.phase = 0) :=
  ⟨⟨_, rfl, rfl, rfl, rfl⟩, ⟨_, rfl, rfl⟩, ⟨_, rfl, rfl, rfl, rfl⟩⟩

theorem reapLoop_isSome {mem : ℕ → ℕ → NvmeCqe} {goOn : ℕ → Bool} {i k : ℕ}
    (hgo : goOn (i + k) = false) (s : Reaping) : (reapLoop mem goOn (k + 1) i s).isSome := by
  induction k generalizing i s with
  | zero =>
      rw [Nat.add_zero] at hgo
      rw [reapLoop, hgo, Bool.and_false, if_neg Bool.false_ne_true]
      rfl
  | succ k ih =>
      rw [reapLoop]
      split_ifs
      · exact ih (by rwa [Nat.add_assoc, Nat.add_comm 1]) _
      · rfl

theorem nvmeCqWaitCqes_returns (mem : ℕ → ℕ → NvmeCqe) (ticks : ℕ → U64) (freq : U64)
    (cq : NvmeCq) (cqes : Option (ℕ → NvmeCqe)) (n : ℤ) (ts : Timespec) (i : ℕ)
    (hclock : ticks 0 + timeToUsec ts * (freq / 1000000) ≤ ticks (i + 1)) :
    (nvmeCqWaitCqes (i + 1) mem ticks freq cq cqes n (some ts)).isSome := by
  rw [nvmeCqWaitCqes, Option.isSome_map]
  refine reapLoop_isSome ?_ _
  rw [Nat.zero_add]
  exact decide_eq_false (BitVec.not_lt.mpr hclock)

end Nvme

end Libvfn
