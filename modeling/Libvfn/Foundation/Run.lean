import Mathlib.Data.List.Basic

/-!
# Runs of a state machine

A machine is a step function on states and operations. `run step s os` is the
state after the operations `os`, or `none` as soon as one of them is not enabled;
`runOut` is the total case in which every operation also returns a value.

A condition on steps need not hold everywhere: `MeetsAlong step cond s os` says
that it holds of every operation of the run, in the state in which the operation
is taken. An invariant that is kept by the steps that meet the condition holds
after every run that meets it along the way (`run_invariant`). If a step leads to a
good state exactly when it meets the condition, a run passes through good states only
exactly when it meets the condition along the way (`good_along_iff`). A state can be led to
an end if there is always a run that brings it closer (`exists_run_of_measure`). Two machines
whose steps agree run alike (`runOut_simulation`).

`Returns total post o` says of a computation that may end without a result what it returns, and
that it returns something if `total` holds. It is kept by sequencing and along runs.
-/

namespace Runs

section Partial

variable {σ ο : Type*}

/-- The state after the operations, `none` as soon as one is not enabled. -/
def run (step : σ → ο → Option σ) : σ → List ο → Option σ
  | s, [] => some s
  | s, o :: os => (step s o).bind fun s' => run step s' os

/-- Every operation of the run meets the condition in the state it is taken in. -/
def MeetsAlong (step : σ → ο → Option σ) (cond : σ → ο → Prop) : σ → List ο → Prop
  | _, [] => True
  | s, o :: os => cond s o ∧ ∀ s', step s o = some s' → MeetsAlong step cond s' os

theorem run_cons_eq_some {step : σ → ο → Option σ} {s s'' : σ} {o : ο} {os : List ο} :
    run step s (o :: os) = some s'' ↔
      ∃ s', step s o = some s' ∧ run step s' os = some s'' := by
  rw [run, Option.bind_eq_some_iff]

theorem run_append {step : σ → ο → Option σ} {s s' s'' : σ} {os os' : List ο}
    (h : run step s os = some s') (h' : run step s' os' = some s'') :
    run step s (os ++ os') = some s'' := by
  induction os generalizing s with
  | nil =>
      obtain rfl := Option.some.inj h
      exact h'
  | cons o os ih =>
      obtain ⟨t, ht, hrun⟩ := run_cons_eq_some.mp h
      exact run_cons_eq_some.mpr ⟨t, ht, ih hrun⟩

/-- If there is always a run of allowed operations that brings a state closer to the end,
there is one that leads there. -/
theorem exists_run_of_measure {step : σ → ο → Option σ} {inv done : σ → Prop}
    {allowed : ο → Prop} (μ : σ → ℕ)
    (hcloser : ∀ s, inv s → ¬done s → ∃ os s', (∀ o ∈ os, allowed o) ∧
      run step s os = some s' ∧ inv s' ∧ μ s' < μ s) {s : σ} (hs : inv s) :
    ∃ os s', (∀ o ∈ os, allowed o) ∧ run step s os = some s' ∧ inv s' ∧ done s' := by
  induction hn : μ s using Nat.strongRecOn generalizing s with
  | ind n ih =>
      subst hn
      by_cases hdone : done s
      · exact ⟨[], s, by simp, rfl, hs, hdone⟩
      · obtain ⟨os, t, hos, hrun, ht, hlt⟩ := hcloser s hs hdone
        obtain ⟨os', u, hos', hrun', hu, hdone⟩ := ih (μ t) hlt ht rfl
        refine ⟨os ++ os', u, fun o ho => ?_, run_append hrun hrun', hu, hdone⟩
        exact (List.mem_append.mp ho).elim (hos o) (hos' o)

theorem meetsAlong_cons {step : σ → ο → Option σ} {cond : σ → ο → Prop} {s s' : σ} {o : ο}
    {os : List ο} (hstep : step s o = some s') (ho : cond s o)
    (hos : MeetsAlong step cond s' os) : MeetsAlong step cond s (o :: os) := by
  refine ⟨ho, fun t ht => ?_⟩
  rw [hstep] at ht
  exact Option.some.inj ht ▸ hos

instance decidableMeetsAlong (step : σ → ο → Option σ) (cond : σ → ο → Prop)
    [∀ s o, Decidable (cond s o)] : ∀ s os, Decidable (MeetsAlong step cond s os)
  | _, [] => .isTrue trivial
  | s, o :: os =>
      match hstep : step s o with
      | none =>
          decidable_of_iff (cond s o)
            ⟨fun ho => ⟨ho, fun _ ht => by rw [hstep] at ht; cases ht⟩, fun h => h.1⟩
      | some s' =>
          have := decidableMeetsAlong step cond s' os
          decidable_of_iff (cond s o ∧ MeetsAlong step cond s' os)
            ⟨fun h => meetsAlong_cons hstep h.1 h.2, fun h => ⟨h.1, h.2 s' hstep⟩⟩

/-- Along a run that keeps an invariant, a condition may be replaced by what follows from
it and the invariant. -/
theorem MeetsAlong.imp {step : σ → ο → Option σ} {cond cond' : σ → ο → Prop} {inv : σ → Prop}
    (hstep : ∀ s o s', inv s → cond s o → step s o = some s' → inv s')
    (himp : ∀ s o, inv s → cond s o → cond' s o) {s : σ} {os : List ο} (hs : inv s)
    (h : MeetsAlong step cond s os) : MeetsAlong step cond' s os := by
  induction os generalizing s with
  | nil => trivial
  | cons o os ih =>
      refine ⟨himp s o hs h.1, fun s' hs' => ?_⟩
      exact ih (hstep s o s' hs h.1 hs') (h.2 s' hs')

theorem MeetsAlong.and {step : σ → ο → Option σ} {cond cond' : σ → ο → Prop} {s : σ}
    {os : List ο} (h : MeetsAlong step cond s os) (h' : MeetsAlong step cond' s os) :
    MeetsAlong step (fun s o => cond s o ∧ cond' s o) s os := by
  induction os generalizing s with
  | nil => trivial
  | cons o os ih => exact ⟨⟨h.1, h'.1⟩, fun s' hs' => ih (h.2 s' hs') (h'.2 s' hs')⟩

/-- Conditions that agree where an invariant holds agree along the runs that keep it. -/
theorem meetsAlong_iff_of_meets {step : σ → ο → Option σ} {side cond cond' : σ → ο → Prop}
    {inv : σ → Prop}
    (hstep : ∀ s o s', inv s → side s o → cond s o → step s o = some s' → inv s')
    (hiff : ∀ s o, inv s → side s o → (cond s o ↔ cond' s o)) {s : σ} {os : List ο} (hs : inv s)
    (hside : MeetsAlong step side s os) :
    MeetsAlong step cond s os ↔ MeetsAlong step cond' s os := by
  constructor
  · intro h
    exact (hside.and h).imp (fun s o s' hi ho => hstep s o s' hi ho.1 ho.2)
      (fun s o hi ho => (hiff s o hi ho.1).mp ho.2) hs
  · intro h
    exact (hside.and h).imp
      (fun s o s' hi ho => hstep s o s' hi ho.1 ((hiff s o hi ho.1).mpr ho.2))
      (fun s o hi ho => (hiff s o hi ho.1).mpr ho.2) hs

/-- An invariant kept by the steps that meet the condition holds at the end of a
run all of whose steps meet it. -/
theorem run_invariant {step : σ → ο → Option σ} {cond : σ → ο → Prop} {inv : σ → Prop}
    (hstep : ∀ s o s', inv s → cond s o → step s o = some s' → inv s')
    {s s' : σ} {os : List ο} (hs : inv s) (hcond : MeetsAlong step cond s os)
    (hrun : run step s os = some s') : inv s' := by
  induction os generalizing s with
  | nil =>
      obtain rfl := Option.some.inj hrun
      exact hs
  | cons o os ih =>
      obtain ⟨t, hst, htr⟩ := run_cons_eq_some.mp hrun
      exact ih (hstep s o t hs hcond.1 hst) (hcond.2 t hst) htr

theorem meetsAlong_of_forall {step : σ → ο → Option σ} {cond : σ → ο → Prop}
    (h : ∀ s o, cond s o) (s : σ) (os : List ο) : MeetsAlong step cond s os := by
  induction os generalizing s with
  | nil => trivial
  | cons o os ih => exact ⟨h s o, fun s' _ => ih s'⟩

/-- The unconditional case of `run_invariant`. -/
theorem run_invariant_of_step {step : σ → ο → Option σ} {inv : σ → Prop}
    (hstep : ∀ s o s', inv s → step s o = some s' → inv s')
    {s s' : σ} {os : List ο} (hs : inv s) (hrun : run step s os = some s') : inv s' :=
  run_invariant (fun s o s' h (_ : True) => hstep s o s' h) hs
    (meetsAlong_of_forall (fun _ _ => trivial) s os) hrun

/-- A run is not enabled if one of its operations is not enabled in any state that the run
can be in. -/
theorem run_eq_none_of_mem {step : σ → ο → Option σ} {inv : σ → Prop} {o : ο}
    (hinv : ∀ s o' s', inv s → step s o' = some s' → inv s')
    (hnone : ∀ s, inv s → step s o = none) {s : σ} {os : List ο} (hs : inv s) (ho : o ∈ os) :
    run step s os = none := by
  induction os generalizing s with
  | nil => cases ho
  | cons o' os ih =>
      rw [run, Option.bind_eq_none_iff]
      intro t ht
      rcases List.mem_cons.mp ho with rfl | ho
      · rw [hnone s hs] at ht
        cases ht
      · exact ih (hinv s o' t hs ht) ho

/-- If a step that does not meet the condition leads to a state from which there is no way
back, then a run meets the condition along the way or ends in such a state. -/
theorem meetsAlong_or_lost {step : σ → ο → Option σ} {cond : σ → ο → Prop} {inv lost : σ → Prop}
    (hinv : ∀ s o s', inv s → cond s o → step s o = some s' → inv s')
    (hlost : ∀ s o s', inv s → ¬cond s o → step s o = some s' → lost s')
    (hkeep : ∀ s o s', lost s → step s o = some s' → lost s')
    {s s' : σ} {os : List ο} (hs : inv s) (hrun : run step s os = some s') :
    MeetsAlong step cond s os ∨ lost s' := by
  induction os generalizing s with
  | nil => exact .inl trivial
  | cons o os ih =>
      obtain ⟨t, ht, hrun⟩ := run_cons_eq_some.mp hrun
      by_cases hcond : cond s o
      · exact (ih (hinv s o t hs hcond ht) hrun).imp_left (meetsAlong_cons ht hcond)
      · exact .inr (run_invariant_of_step hkeep (hlost s o t hs hcond ht) hrun)

/-- The states along a run are good exactly when its steps meet the condition, if this is
so for every step between good states. The steps may be known to meet a side condition. -/
theorem good_along_iff_of_meets {step : σ → ο → Option σ} {side cond : σ → ο → Prop}
    {inv good : σ → Prop}
    (hinv : ∀ s o s', inv s → good s → side s o → step s o = some s' → good s' → inv s')
    (hgood : ∀ s o s', inv s → good s → side s o → step s o = some s' → (good s' ↔ cond s o))
    (hidle : ∀ s o, inv s → good s → side s o → step s o = none → cond s o)
    {s : σ} {os : List ο} (hs : inv s) (hgs : good s) (hside : MeetsAlong step side s os) :
    (∀ pre s', pre <+: os → run step s pre = some s' → good s') ↔
      MeetsAlong step cond s os := by
  induction os generalizing s with
  | nil =>
      refine ⟨fun _ => trivial, fun _ pre s' hpre hrun => ?_⟩
      obtain rfl := List.prefix_nil.mp hpre
      obtain rfl := Option.some.inj hrun
      exact hgs
  | cons o os ih =>
      obtain ⟨ho, hside⟩ := hside
      constructor
      · intro h
        have hnext : ∀ t, step s o = some t → good t := fun t ht =>
          h [o] t (List.prefix_append [o] os) (run_cons_eq_some.mpr ⟨t, ht, rfl⟩)
        constructor
        · cases hst : step s o with
          | none => exact hidle s o hs hgs ho hst
          | some t => exact (hgood s o t hs hgs ho hst).mp (hnext t hst)
        · intro t ht
          have hgt := hnext t ht
          refine (ih (hinv s o t hs hgs ho ht hgt) hgt (hside t ht)).mp fun pre s' hpre hrun => ?_
          exact h (o :: pre) s' (List.cons_prefix_cons.mpr ⟨rfl, hpre⟩)
            (run_cons_eq_some.mpr ⟨t, ht, hrun⟩)
      · rintro ⟨hcond, hrest⟩ pre s' hpre hrun
        cases pre with
        | nil =>
            obtain rfl := Option.some.inj hrun
            exact hgs
        | cons o' pre =>
            obtain ⟨rfl, hrestpre⟩ := List.cons_prefix_cons.mp hpre
            obtain ⟨t, ht, hrun⟩ := run_cons_eq_some.mp hrun
            have hgt := (hgood s o' t hs hgs ho ht).mpr hcond
            exact (ih (hinv s o' t hs hgs ho ht hgt) hgt (hside t ht)).mpr (hrest t ht) pre s'
              hrestpre hrun

/-- The case of `good_along_iff_of_meets` without a side condition. -/
theorem good_along_iff {step : σ → ο → Option σ} {cond : σ → ο → Prop} {inv good : σ → Prop}
    (hinv : ∀ s o s', inv s → good s → step s o = some s' → good s' → inv s')
    (hgood : ∀ s o s', inv s → good s → step s o = some s' → (good s' ↔ cond s o))
    (hidle : ∀ s o, inv s → good s → step s o = none → cond s o)
    {s : σ} {os : List ο} (hs : inv s) (hgs : good s) :
    (∀ pre s', pre <+: os → run step s pre = some s' → good s') ↔
      MeetsAlong step cond s os :=
  good_along_iff_of_meets (fun s o s' h hg (_ : True) => hinv s o s' h hg)
    (fun s o s' h hg _ => hgood s o s' h hg) (fun s o h hg _ => hidle s o h hg) hs hgs
    (meetsAlong_of_forall (fun _ _ => trivial) s os)

end Partial

section Returns

variable {α β : Type*} {total : Prop} {post : α → Prop} {post' : β → Prop} {o : Option α}

/-- What is returned satisfies `post`, and something is returned if `total` holds. -/
structure Returns (total : Prop) (post : α → Prop) (o : Option α) : Prop where
  exists_eq_some : total → ∃ a, o = some a
  of_eq_some : ∀ a, o = some a → post a

theorem returns_some {a : α} (h : post a) : Returns total post (some a) :=
  ⟨fun _ => ⟨a, rfl⟩, fun _ ha => Option.some.inj ha ▸ h⟩

theorem Returns.exists_post (h : Returns total post o) (ht : total) : ∃ a, o = some a ∧ post a := by
  obtain ⟨a, ha⟩ := h.exists_eq_some ht
  exact ⟨a, ha, h.of_eq_some a ha⟩

theorem Returns.imp {post' : α → Prop} (h : Returns total post o)
    (himp : ∀ a, post a → post' a) : Returns total post' o :=
  ⟨h.exists_eq_some, fun a ha => himp a (h.of_eq_some a ha)⟩

theorem Returns.bind {f : α → Option β} (h : Returns total post o)
    (hf : ∀ a, post a → Returns total post' (f a)) : Returns total post' (o.bind f) := by
  constructor
  · intro ht
    obtain ⟨a, ha, hpost⟩ := h.exists_post ht
    rw [ha]
    exact (hf a hpost).exists_eq_some ht
  · intro b hb
    obtain ⟨a, ha, hb⟩ := Option.bind_eq_some_iff.mp hb
    exact (hf a (h.of_eq_some a ha)).of_eq_some b hb

theorem Returns.map {f : α → β} (h : Returns total post o) (hf : ∀ a, post a → post' (f a)) :
    Returns total post' (o.map f) := by
  rw [Option.map_eq_bind]
  exact h.bind fun a ha => returns_some (hf a ha)

/-- If the steps that meet the condition keep an invariant, then so do runs all of whose steps
meet it. -/
theorem returns_run {σ ο : Type*} {step : σ → ο → Option σ} {cond : σ → ο → Prop}
    {inv : σ → Prop} (hstep : ∀ s o, inv s → cond s o → Returns total inv (step s o)) {s : σ}
    {os : List ο} (hs : inv s) (hcond : MeetsAlong step cond s os) :
    Returns total inv (run step s os) := by
  induction os generalizing s with
  | nil => exact returns_some hs
  | cons o os ih =>
      have hnext := hstep s o hs hcond.1
      constructor
      · intro ht
        obtain ⟨t, hst, hinv⟩ := hnext.exists_post ht
        obtain ⟨u, hrun⟩ := (ih hinv (hcond.2 t hst)).exists_eq_some ht
        exact ⟨u, run_cons_eq_some.mpr ⟨t, hst, hrun⟩⟩
      · intro u hrun
        obtain ⟨t, hst, hrun⟩ := run_cons_eq_some.mp hrun
        exact (ih (hnext.of_eq_some t hst) (hcond.2 t hst)).of_eq_some u hrun

end Returns

section Output

variable {σ α ο ρ : Type*}

def runOut (step : σ → ο → σ × ρ) : σ → List ο → σ × List ρ
  | s, [] => (s, [])
  | s, o :: os =>
      let r := runOut step (step s o).1 os
      (r.1, (step s o).2 :: r.2)

def AdmissibleAlong (step : α → ο → α × ρ) (cond : α → ο → Prop) : α → List ο → Prop
  | _, [] => True
  | a, o :: os => cond a o ∧ AdmissibleAlong step cond (step a o).1 os

theorem admissibleAlong_of_forall {step : α → ο → α × ρ} {cond : α → ο → Prop}
    (h : ∀ a o, cond a o) (a : α) (os : List ο) : AdmissibleAlong step cond a os := by
  induction os generalizing a with
  | nil => trivial
  | cons o os ih => exact ⟨h a o, ih _⟩

/-- Two machines related by `rel`, whose admissible steps return the same values
and keep the relation, return the same values along admissible runs. -/
theorem runOut_simulation {cstep : σ → ο → σ × ρ} {astep : α → ο → α × ρ}
    {cond : α → ο → Prop} {rel : σ → α → Prop}
    (hstep : ∀ s a o, rel s a → cond a o →
      (cstep s o).2 = (astep a o).2 ∧ rel (cstep s o).1 (astep a o).1)
    {s : σ} {a : α} {os : List ο} (hs : rel s a)
    (hcond : AdmissibleAlong astep cond a os) :
    (runOut cstep s os).2 = (runOut astep a os).2 ∧
      rel (runOut cstep s os).1 (runOut astep a os).1 := by
  induction os generalizing s a with
  | nil => exact ⟨rfl, hs⟩
  | cons o os ih =>
      obtain ⟨hout, hrel⟩ := hstep s a o hs hcond.1
      obtain ⟨houts, hend⟩ := ih hrel hcond.2
      refine ⟨?_, hend⟩
      simp only [runOut]
      rw [hout, houts]

end Output

end Runs
