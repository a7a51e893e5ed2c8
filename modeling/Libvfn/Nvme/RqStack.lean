import Libvfn.Foundation.Pointers
import Libvfn.Foundation.Run
import Libvfn.Nvme.Rq
import Mathlib.Data.List.Nodup

/-!
# The stack of free trackers

A thread that acquires a tracker reads its `rq_next` and then exchanges the top for
the value, provided that the top is still the tracker. The top may be the same tracker
and its `rq_next` a different one by then: it was acquired, others after it, and it
was released again. The exchange succeeds all the same and puts a tracker on the stack
that a thread holds.

If the exchange finds `rq_next` as it was read, every step moves a tracker between
three places: the stack, the threads that hold one, and those that are about to
release one. A release does not have the problem, since it compares the top with a
value that only itself can change.
-/

namespace Libvfn

namespace Nvme

open Pointers

def RqPc.releasing : RqPc → Option ℕ
  | .store rq _ => some rq
  | .push rq => some rq
  | _ => none

variable {τ : Type*} {s s' : RqState τ} {l : List ℕ} {n rq : ℕ} {t : τ}

def RqState.trackers (s : RqState τ) : List ℕ := s.held.map Prod.snd

/-! ## The invariant -/

/-- A tracker is on the stack `l`, or a thread holds it or is about to release it, and
it is in one of these places only. -/
structure RqInv (s : RqState τ) (n : ℕ) (l : List ℕ) : Prop where
  chained : Chained s.rqNext s.rqTop l
  nodup : (l ++ s.trackers).Nodup
  apart : ∀ t rq, (s.pc t).releasing = some rq → rq ∉ l ++ s.trackers
  unique : ∀ t t' rq, (s.pc t).releasing = some rq → (s.pc t').releasing = some rq → t = t'
  complete : ∀ rq < n, rq ∈ l ++ s.trackers ∨ ∃ t, (s.pc t).releasing = some rq

theorem RqInv.congr {l' : List ℕ} (h : RqInv s n l) (hchain : Chained s'.rqNext s'.rqTop l')
    (hperm : (l' ++ s'.trackers).Perm (l ++ s.trackers))
    (hpc : ∀ t, (s'.pc t).releasing = (s.pc t).releasing) : RqInv s' n l' where
  chained := hchain
  nodup := hperm.nodup_iff.mpr h.nodup
  apart := fun t rq ht hmem => h.apart t rq (hpc t ▸ ht) (hperm.mem_iff.mp hmem)
  unique := fun t t' rq ht ht' => h.unique t t' rq (hpc t ▸ ht) (hpc t' ▸ ht')
  complete := fun rq hrq => by
    rcases h.complete rq hrq with hmem | ⟨t, ht⟩
    · exact .inl (hperm.mem_iff.mpr hmem)
    · exact .inr ⟨t, (hpc t).trans ht⟩

/-- No two threads hold one tracker, no tracker that is held is on the stack, and none
of the `n` trackers is lost. -/
structure TrackersSafe (s : RqState τ) (n : ℕ) : Prop where
  exclusive : ∀ t t' rq, (t, rq) ∈ s.held → (t', rq) ∈ s.held → t = t'
  offStack : ∀ t rq, (t, rq) ∈ s.held → ¬Reaches s.rqNext s.rqTop rq
  complete : ∀ rq < n, (∃ t, (t, rq) ∈ s.held) ∨ (∃ t, (s.pc t).releasing = some rq) ∨
    Reaches s.rqNext s.rqTop rq

theorem RqInv.safe (h : RqInv s n l) : TrackersSafe s n := by
  obtain ⟨-, hheld, hdisj⟩ := List.nodup_append.mp h.nodup
  have hmem {t : τ} {rq : ℕ} (ht : (t, rq) ∈ s.held) : rq ∈ s.trackers :=
    List.mem_map_of_mem ht
  refine ⟨fun t t' rq ht ht' => ?_, fun t rq ht hreach => ?_, fun rq hrq => ?_⟩
  · exact congrArg Prod.fst (List.inj_on_of_nodup_map hheld ht ht' rfl)
  · exact hdisj rq (h.chained.reaches_iff.mp hreach) rq (hmem ht) rfl
  · rcases h.complete rq hrq with hin | hrel
    · rcases List.mem_append.mp hin with hin | hin
      · exact .inr (.inr (h.chained.reaches_iff.mpr hin))
      · obtain ⟨⟨t, rq⟩, ht, rfl⟩ := List.mem_map.mp hin
        exact .inl ⟨t, ht⟩
    · exact .inr (.inl hrel)

theorem chained_nvmeConfigureSqRqs {qsize : ℕ} (htwo : 2 ≤ qsize) :
    Chained (nvmeConfigureSqRqs qsize).rqNext (nvmeConfigureSqRqs qsize).rqTop
      (List.range (qsize - 1)).reverse := by
  obtain ⟨n, rfl⟩ := Nat.exists_eq_add_of_le' htwo
  induction n with
  | zero => exact ⟨rfl, rfl⟩
  | succ n ih =>
      change Chained _ _ (List.range (n + 2)).reverse
      rw [List.range_succ, List.reverse_append]
      exact ⟨rfl, ih (Nat.le_add_left 2 n)⟩

theorem rqInv_init {qsize : ℕ} (hqsize : 2 ≤ qsize) :
    RqInv (nvmeConfigureRqs τ qsize) (qsize - 1) (List.range (qsize - 1)).reverse := by
  refine ⟨chained_nvmeConfigureSqRqs hqsize, ?_, fun t rq ht => ?_, fun t t' rq ht => ?_,
    fun rq hrq => .inl ?_⟩
  · rw [RqState.trackers, nvmeConfigureRqs, List.map_nil, List.append_nil, List.nodup_reverse]
    exact List.nodup_range
  · cases ht
  · cases ht
  · exact List.mem_append_left _ (List.mem_reverse.mpr (List.mem_range.mpr hrq))

/-! ## What a step can do -/

/-- If an exchange finds the tracker that was loaded at the top, then its `rq_next` is as
it was read. -/
def fresh (s : RqState τ) : RqOp τ → Bool
  | .popCas t =>
      match s.pc t with
      | .read rq next => s.rqTop ≠ some rq ∨ s.rqNext rq = next
      | _ => true
  | _ => true

variable [DecidableEq τ]

/-- The effect of a step: none but on program counters, or one of the four ways to move
a tracker. -/
inductive Moves (s : RqState τ) : RqState τ → Prop
  | quiet (t : τ) (pc : RqPc) (hpc : pc.releasing = (s.pc t).releasing) : Moves s (s.setPc t pc)
  | pop (t : τ) (rq : ℕ) (hpc : (s.pc t).releasing = none) (htop : s.rqTop = some rq) :
      Moves s { s.setPc t .idle with rqTop := s.rqNext rq, held := (t, rq) :: s.held }
  | release (t : τ) (rq : ℕ) (hpc : (s.pc t).releasing = none) (hheld : (t, rq) ∈ s.held) :
      Moves s { s.setPc t (.store rq s.rqTop) with held := s.held.erase (t, rq) }
  | store (t : τ) (rq : ℕ) (top : Option ℕ) (hpc : (s.pc t).releasing = some rq) :
      Moves s { s.setPc t (.push rq) with rqNext := Function.update s.rqNext rq top }
  | push (t : τ) (rq : ℕ) (hpc : (s.pc t).releasing = some rq) (htop : s.rqTop = s.rqNext rq) :
      Moves s { s.setPc t .idle with rqTop := some rq }

theorem releasing_acquiring (top : Option ℕ) : (acquiring top).releasing = none := by
  cases top <;> rfl

theorem rqStep_moves {op : RqOp τ} (hfresh : fresh s op) (h : rqStep s op = some s') :
    Moves s s' := by
  cases op with
  | load t =>
      rw [rqStep] at h
      split at h
      case h_1 hpc =>
        obtain rfl := Option.some.inj h
        exact .quiet t _ (by rw [hpc, releasing_acquiring]; rfl)
      case h_2 => cases h
  | readNext t =>
      rw [rqStep] at h
      split at h
      case h_1 rq hpc =>
        obtain rfl := Option.some.inj h
        exact .quiet t _ (by rw [hpc]; rfl)
      case h_2 => cases h
  | popCas t =>
      rw [rqStep] at h
      split at h
      case h_1 rq next hpc =>
        split_ifs at h with htop
        · obtain rfl := Option.some.inj h
          rw [fresh, hpc] at hfresh
          obtain rfl := (of_decide_eq_true hfresh).resolve_left (not_not.mpr htop)
          exact .pop t rq (by rw [hpc]; rfl) htop
        · obtain rfl := Option.some.inj h
          exact .quiet t _ (by rw [hpc, releasing_acquiring]; rfl)
      case h_2 => cases h
  | release t rq =>
      rw [rqStep] at h
      split at h
      case h_1 hpc =>
        split_ifs at h with hheld
        obtain rfl := Option.some.inj h
        exact .release t rq (by rw [hpc]; rfl) hheld
      case h_2 => cases h
  | storeNext t =>
      rw [rqStep] at h
      split at h
      case h_1 rq top hpc =>
        obtain rfl := Option.some.inj h
        exact .store t rq top (by rw [hpc]; rfl)
      case h_2 => cases h
  | pushCas t =>
      rw [rqStep] at h
      split at h
      case h_1 rq hpc =>
        split_ifs at h with htop
        · obtain rfl := Option.some.inj h
          exact .push t rq (by rw [hpc]; rfl) htop
        · obtain rfl := Option.some.inj h
          exact .quiet t _ (by rw [hpc]; rfl)
      case h_2 => cases h

/-! ## What a step keeps -/

theorem releasing_setPc {pc : RqPc} (h : pc.releasing = (s.pc t).releasing) (u : τ) :
    ((s.setPc t pc).pc u).releasing = (s.pc u).releasing := by
  by_cases hu : u = t
  · rw [hu, setPc_pc_self, h]
  · rw [setPc_pc_of_ne hu]

theorem RqInv.pop (h : RqInv s n l) (hpc : (s.pc t).releasing = none)
    (htop : s.rqTop = some rq) :
    ∃ l', RqInv { s.setPc t .idle with rqTop := s.rqNext rq, held := (t, rq) :: s.held } n l' := by
  have hchain := h.chained
  cases l with
  | nil =>
      rw [Chained, htop] at hchain
      cases hchain
  | cons a l =>
      obtain ⟨ha, hrest⟩ := hchain
      obtain rfl : rq = a := Option.some.inj (htop.symm.trans ha)
      have hpc' : RqPc.idle.releasing = (s.pc t).releasing := hpc.symm
      exact ⟨l, h.congr hrest List.perm_middle fun u => releasing_setPc hpc' u⟩

theorem RqInv.store (h : RqInv s n l) (hpc : (s.pc t).releasing = some rq) (top : Option ℕ) :
    RqInv { s.setPc t (.push rq) with rqNext := Function.update s.rqNext rq top } n l := by
  have hoff : rq ∉ l := fun hmem => h.apart t rq hpc (List.mem_append_left _ hmem)
  have hpc' : (RqPc.push rq).releasing = (s.pc t).releasing := hpc.symm
  exact h.congr (h.chained.update hoff top) (.refl _) fun u => releasing_setPc hpc' u

theorem RqInv.release (h : RqInv s n l) (hpc : (s.pc t).releasing = none)
    (hheld : (t, rq) ∈ s.held) (top : Option ℕ) :
    RqInv { s.setPc t (.store rq top) with held := s.held.erase (t, rq) } n l := by
  have hperm : (l ++ s.trackers).Perm (rq :: (l ++ (s.held.erase (t, rq)).map Prod.snd)) := by
    have hmove := ((List.perm_cons_erase hheld).map Prod.snd).append_left l
    exact hmove.trans List.perm_middle
  obtain ⟨hrq, hnodup⟩ := List.nodup_cons.mp (hperm.nodup_iff.mp h.nodup)
  have hout : rq ∈ l ++ s.trackers := hperm.mem_iff.mpr List.mem_cons_self
  have hother {u : τ} {r : ℕ} (hu : u ≠ t)
      (hr : ((s.setPc t (.store rq top)).pc u).releasing = some r) :
      (s.pc u).releasing = some r := by
    rwa [setPc_pc_of_ne hu] at hr
  have hself {r : ℕ} (hr : ((s.setPc t (.store rq top)).pc t).releasing = some r) : rq = r := by
    rw [setPc_pc_self] at hr
    exact Option.some.inj hr
  refine ⟨h.chained, hnodup, fun u r hr hmem => ?_, fun u u' r hr hr' => ?_, fun r hr => ?_⟩
  · by_cases hu : u = t
    · subst hu
      exact hrq (hself hr ▸ hmem)
    · exact h.apart u r (hother hu hr) (hperm.mem_iff.mpr (List.mem_cons_of_mem rq hmem))
  · by_cases hu : u = t
    · by_cases hu' : u' = t
      · rw [hu, hu']
      · subst hu
        exact absurd (hself hr ▸ hout) (h.apart u' r (hother hu' hr'))
    · by_cases hu' : u' = t
      · subst hu'
        exact absurd (hself hr' ▸ hout) (h.apart u r (hother hu hr))
      · exact h.unique u u' r (hother hu hr) (hother hu' hr')
  · rcases h.complete r hr with hmem | ⟨u, hu⟩
    · rcases List.mem_cons.mp (hperm.mem_iff.mp hmem) with rfl | hmem
      · exact .inr ⟨t, by dsimp only; rw [setPc_pc_self]; rfl⟩
      · exact .inl hmem
    · have hne : u ≠ t := by
        rintro rfl
        rw [hpc] at hu
        cases hu
      exact .inr ⟨u, by dsimp only; rwa [setPc_pc_of_ne hne]⟩

theorem RqInv.push (h : RqInv s n l) (hpc : (s.pc t).releasing = some rq)
    (htop : s.rqTop = s.rqNext rq) :
    RqInv { s.setPc t .idle with rqTop := some rq } n (rq :: l) := by
  have hother {u : τ} {r : ℕ} (hr : ((s.setPc t .idle).pc u).releasing = some r) :
      u ≠ t ∧ (s.pc u).releasing = some r := by
    by_cases hu : u = t
    · rw [hu, setPc_pc_self] at hr
      cases hr
    · rw [setPc_pc_of_ne hu] at hr
      exact ⟨hu, hr⟩
  refine ⟨⟨rfl, htop ▸ h.chained⟩, List.nodup_cons.mpr ⟨h.apart t rq hpc, h.nodup⟩,
    fun u r hr hmem => ?_, fun u u' r hr hr' => h.unique u u' r (hother hr).2 (hother hr').2,
    fun r hr => ?_⟩
  · obtain ⟨hu, hur⟩ := hother hr
    rcases List.mem_cons.mp hmem with rfl | hmem
    · exact hu (h.unique u t r hur hpc)
    · exact h.apart u r hur hmem
  · rcases h.complete r hr with hmem | ⟨u, hu⟩
    · exact .inl (List.mem_cons_of_mem rq hmem)
    · by_cases hut : u = t
      · rw [hut, hpc] at hu
        exact .inl (Option.some.inj hu ▸ List.mem_cons_self)
      · exact .inr ⟨u, by dsimp only; rwa [setPc_pc_of_ne hut]⟩

theorem rqInv_step {op : RqOp τ} (h : ∃ l, RqInv s n l) (hfresh : fresh s op)
    (hstep : rqStep s op = some s') : ∃ l, RqInv s' n l := by
  obtain ⟨l, h⟩ := h
  cases rqStep_moves hfresh hstep with
  | quiet t pc hpc => exact ⟨l, h.congr h.chained (.refl _) fun u => releasing_setPc hpc u⟩
  | pop t rq hpc htop => exact h.pop hpc htop
  | release t rq hpc hheld => exact ⟨l, h.release hpc hheld s.rqTop⟩
  | store t rq top hpc => exact ⟨l, h.store hpc top⟩
  | push t rq hpc htop => exact ⟨rq :: l, h.push hpc htop⟩

/-! ## Runs -/

/-- In a run whose exchanges find `rq_next` as it was read, a tracker is never given to
two threads and never lost. -/
theorem rq_trackers_safe (qsize : ℕ) (hqsize : 2 ≤ qsize) (ops : List (RqOp τ)) (s : RqState τ)
    (hfresh : Runs.MeetsAlong rqStep (fun s op => fresh s op) (nvmeConfigureRqs τ qsize) ops)
    (hrun : Runs.run rqStep (nvmeConfigureRqs τ qsize) ops = some s) :
    TrackersSafe s (qsize - 1) := by
  have hinit : ∃ l, RqInv (nvmeConfigureRqs τ qsize) (qsize - 1) l := ⟨_, rqInv_init hqsize⟩
  obtain ⟨l, h⟩ : ∃ l, RqInv s (qsize - 1) l :=
    Runs.run_invariant (fun _ _ _ => rqInv_step) hinit hfresh hrun
  exact h.safe

/-- Two threads race for the top. The second one finds it gone, takes the next tracker,
and the first one releases its own. -/
theorem rq_trackers_safe_race :
    let ops : List (RqOp Bool) := [.load false, .readNext false, .load true, .readNext true,
      .popCas false, .popCas true, .readNext true, .popCas true, .release false 2,
      .storeNext false, .pushCas false]
    let run := Runs.run rqStep (nvmeConfigureRqs Bool 4) ops
    run.map (fun s => (s.rqTop, s.held)) = some (some 2, [(true, 1)]) ∧
      ∀ s, run = some s → TrackersSafe s 3 :=
  ⟨by decide +kernel, fun s hs => rq_trackers_safe 4 (by decide) _ s (by decide +kernel) hs⟩

/-- A thread reads that `1` comes after `2`. Before its exchange another thread takes
both and releases `2`. The exchange makes `1` the top, which the other thread holds, and
then `1` is acquired a second time. -/
theorem rq_trackers_safe_reused :
    let ops : List (RqOp Bool) := [.load false, .readNext false, .load true, .readNext true,
      .popCas true, .load true, .readNext true, .popCas true, .release true 2, .storeNext true,
      .pushCas true, .popCas false, .load false, .readNext false, .popCas false]
    ∃ s, Runs.run rqStep (nvmeConfigureRqs Bool 4) ops = some s ∧
      s.held = [(false, 1), (false, 2), (true, 1)] ∧ ¬TrackersSafe s 3 := by
  have hrun : (Runs.run rqStep (nvmeConfigureRqs Bool 4) [.load false, .readNext false,
      .load true, .readNext true, .popCas true, .load true, .readNext true, .popCas true,
      .release true 2, .storeNext true, .pushCas true, .popCas false, .load false,
      .readNext false, .popCas false]).map RqState.held =
        some [(false, 1), (false, 2), (true, 1)] := by
    decide +kernel
  obtain ⟨s, hs, hheld⟩ := Option.map_eq_some_iff.mp hrun
  refine ⟨s, hs, hheld, fun h => ?_⟩
  have heq := h.exclusive false true 1 (by rw [hheld]; decide) (by rw [hheld]; decide)
  cases heq

/-! ## One thread -/

section OneThread

variable {rqs : Rqs}

theorem nvmeRqAcquire_of_nil (h : Chained rqs.rqNext rqs.rqTop []) :
    nvmeRqAcquire rqs = (none, rqs) := by
  rw [nvmeRqAcquire, show rqs.rqTop = none from h]

theorem nvmeRqAcquire_of_cons (h : Chained rqs.rqNext rqs.rqTop (rq :: l)) :
    nvmeRqAcquire rqs = (some rq, { rqs with rqTop := rqs.rqNext rq }) ∧
      Chained rqs.rqNext (rqs.rqNext rq) l := by
  obtain ⟨htop, hrest⟩ := h
  rw [nvmeRqAcquire, htop]
  exact ⟨rfl, hrest⟩

theorem chained_nvmeRqRelease (h : Chained rqs.rqNext rqs.rqTop l) (hrq : rq ∉ l) :
    Chained (nvmeRqRelease rqs rq).rqNext (nvmeRqRelease rqs rq).rqTop (rq :: l) := by
  refine ⟨rfl, ?_⟩
  dsimp only [nvmeRqRelease]
  rw [Function.update_self]
  exact h.update hrq _

end OneThread

end Nvme

end Libvfn
