import Mathlib.Logic.Function.Iterate

/-!
# Programs beside a device that moves by itself

A program reads and writes the registers of a device. The device makes moves of its own
between two accesses, any number of them, and the program looks at a clock in between. What
the surroundings do is given: the moves before each access and the readings of the clock.
`none` is a program that has not returned within the turns it was given.

There are triples for such programs: `Ensures P prog Q` if the device meets `P` and the
program returns, the device meets `Q`; `Achieves P prog Q` says in addition that it returns.
A condition survives the moves of the device if it is `Stable`, and the rules for the accesses
ask for no more than that. A program that waits depends on moves that are bound to come
(`reaches_of_within`).
-/

namespace Device

universe u

/-- The moves of the device before each access, and the readings of the clock. -/
structure Surroundings (μ : Type*) where
  moves : ℕ → List μ
  clock : ℕ → ℕ

structure World (δ : Type u) where
  dev : δ
  accesses : ℕ
  readings : ℕ

abbrev Program (δ α : Type u) := StateT (World δ) Option α

section Programs

variable {δ α β : Type u} {μ : Type*} (move : δ → μ → δ) (env : Surroundings μ)

def World.settle (w : World δ) : World δ :=
  { w with dev := (env.moves w.accesses).foldl move w.dev, accesses := w.accesses + 1 }

def World.tick (w : World δ) : World δ := { w with readings := w.readings + 1 }

def read (f : δ → α) : Program δ α := fun w => some (f (w.settle move env).dev, w.settle move env)

def write (f : δ → δ) : Program δ PUnit := fun w =>
  some (⟨⟩, { w.settle move env with dev := f (w.settle move env).dev })

variable {move env}

theorem read_bind (f : δ → α) (k : α → Program δ β) (w : World δ) :
    (read move env f >>= k) w = k (f (w.settle move env).dev) (w.settle move env) := rfl

end Programs

section Clock

variable {δ β : Type} {μ : Type*} (env : Surroundings μ)

def now : Program δ ℕ := fun w => some (env.clock w.readings, w.tick)

variable {env}

theorem now_bind (k : ℕ → Program δ β) (w : World δ) :
    (now env >>= k) w = k (env.clock w.readings) w.tick := rfl

end Clock

/-! ## Triples -/

section Triples

variable {δ α β : Type u} {μ : Type*}

/-- A condition that no move of the device breaks. -/
def Stable (move : δ → μ → δ) (P : δ → Prop) : Prop := ∀ d m, P d → P (move d m)

/-- If the device meets `P`, the program returns and the device meets `Q`. -/
def Achieves (P : δ → Prop) (prog : Program δ α) (Q : α → δ → Prop) : Prop :=
  ∀ w, P w.dev → ∃ a w', prog w = some (a, w') ∧ Q a w'.dev

/-- If the device meets `P` and the program returns, the device meets `Q`. -/
def Ensures (P : δ → Prop) (prog : Program δ α) (Q : α → δ → Prop) : Prop :=
  ∀ w a w', P w.dev → prog w = some (a, w') → Q a w'.dev

variable {move : δ → μ → δ} {env : Surroundings μ} {P P' : δ → Prop} {Q Q' : α → δ → Prop}

theorem Stable.foldl (h : Stable move P) (ms : List μ) {d : δ} (hd : P d) :
    P (ms.foldl move d) := by
  induction ms generalizing d with
  | nil => exact hd
  | cons m ms ih => exact ih (h d m hd)

theorem Stable.settle (h : Stable move P) {w : World δ} (hw : P w.dev) :
    P (w.settle move env).dev :=
  h.foldl _ hw

theorem achieves_read (h : Stable move P) (f : δ → α) :
    Achieves P (read move env f) fun a d => P d ∧ a = f d :=
  fun _ hw => ⟨_, _, rfl, h.settle hw, rfl⟩

theorem achieves_write (h : Stable move P) (f : δ → δ) (hf : ∀ d, P d → P' (f d)) :
    Achieves P (write move env f) fun _ d => P' d :=
  fun _ hw => ⟨_, _, rfl, hf _ (h.settle hw)⟩

theorem achieves_pure (a : α) (hQ : ∀ d, P d → Q a d) : Achieves P (pure a : Program δ α) Q :=
  fun _ hw => ⟨_, _, rfl, hQ _ hw⟩

theorem Achieves.bind {prog : Program δ α} {k : α → Program δ β} {R : β → δ → Prop}
    (h : Achieves P prog Q) (hk : ∀ a, Achieves (Q a) (k a) R) : Achieves P (prog >>= k) R := by
  intro w hw
  obtain ⟨a, v, hprog, hQ⟩ := h w hw
  obtain ⟨b, w', hcont, hR⟩ := hk a v hQ
  exact ⟨b, w', Option.bind_eq_some_iff.mpr ⟨(a, v), hprog, hcont⟩, hR⟩

theorem Achieves.mono {prog : Program δ α} (h : Achieves P prog Q) (hP : ∀ d, P' d → P d)
    (hQ : ∀ a d, Q a d → Q' a d) : Achieves P' prog Q' := by
  intro w hw
  obtain ⟨a, w', hprog, hres⟩ := h w (hP _ hw)
  exact ⟨a, w', hprog, hQ a _ hres⟩

theorem achieves_of_fact {φ : Prop} {prog : Program δ α} (h : φ → Achieves P prog Q) :
    Achieves (fun d => P d ∧ φ) prog Q :=
  fun w hw => h hw.2 w hw.1

theorem Achieves.ensures {prog : Program δ α} (h : Achieves P prog Q) : Ensures P prog Q := by
  intro w a w' hw heq
  obtain ⟨b, v, hprog, hQ⟩ := h w hw
  obtain ⟨rfl, rfl⟩ := Prod.mk.inj (Option.some.inj (hprog.symm.trans heq))
  exact hQ

theorem Ensures.bind {prog : Program δ α} {k : α → Program δ β} {R : β → δ → Prop}
    (h : Ensures P prog Q) (hk : ∀ a, Ensures (Q a) (k a) R) : Ensures P (prog >>= k) R := by
  intro w b w' hw heq
  obtain ⟨⟨a, v⟩, hprog, hcont⟩ := Option.bind_eq_some_iff.mp heq
  exact hk a v b w' (h w a v hw hprog) hcont

theorem Ensures.mono {prog : Program δ α} (h : Ensures P prog Q) (hP : ∀ d, P' d → P d)
    (hQ : ∀ a d, Q a d → Q' a d) : Ensures P' prog Q' :=
  fun w a w' hw heq => hQ a _ (h w a w' (hP _ hw) heq)

theorem ensures_of_fact {φ : Prop} {prog : Program δ α} (h : φ → Ensures P prog Q) :
    Ensures (fun d => P d ∧ φ) prog Q :=
  fun w a w' hw heq => h hw.2 w a w' hw.1 heq

theorem ensures_none : Ensures P (fun _ => none : Program δ α) Q := by
  intro w a w' _ heq
  exact absurd heq (by simp)

end Triples

theorem achieves_now {δ : Type} {μ : Type*} {env : Surroundings μ} {P : δ → Prop} :
    Achieves P (now env) fun _ => P :=
  fun _ hw => ⟨_, _, rfl, hw⟩

/-! ## Waiting -/

section Waiting

variable {δ : Type u} {μ : Type*} {move : δ → μ → δ} {env : Surroundings μ} {P P' : δ → Prop}

def World.poll (move : δ → μ → δ) (env : Surroundings μ) (w : World δ) : World δ :=
  w.tick.settle move env

/-- Among any `n` accesses there is one before which the device makes the move. -/
def Within (env : Surroundings μ) (n : ℕ) (m : μ) : Prop := ∀ i, ∃ k < n, m ∈ env.moves (i + k)

theorem Stable.poll (h : Stable move P) {w : World δ} (hw : P w.dev) :
    P (w.poll move env).dev :=
  Stable.settle (w := w.tick) h hw

theorem Stable.poll_iterate (h : Stable move P) (n : ℕ) {w : World δ} (hw : P w.dev) :
    P ((World.poll move env)^[n] w).dev := by
  induction n generalizing w with
  | zero => exact hw
  | succ n ih => exact ih (h.poll hw)

theorem accesses_poll_iterate (n : ℕ) (w : World δ) :
    ((World.poll move env)^[n] w).accesses = w.accesses + n := by
  induction n generalizing w with
  | zero => rfl
  | succ n ih =>
      rw [Function.iterate_succ_apply, ih]
      exact Nat.succ_add_eq_add_succ w.accesses n

theorem foldl_of_mem (hP : Stable move P) (hP' : Stable move P') {m : μ}
    (hm : ∀ d, P d → P' (move d m)) {ms : List μ} (hmem : m ∈ ms) {d : δ} (hd : P d) :
    P' (ms.foldl move d) := by
  obtain ⟨before, after, rfl⟩ := List.append_of_mem hmem
  rw [List.foldl_append, List.foldl_cons]
  exact hP'.foldl after (hm _ (hP.foldl before hd))

/-- A move that is bound to come, and that leads from one stable condition to another one, has
done so after as many turns as it may take. -/
theorem reaches_of_within (hP : Stable move P) (hP' : Stable move P') {m : μ} {n : ℕ}
    (hm : ∀ d, P d → P' (move d m)) (hwithin : Within env n m) {w : World δ} (hw : P w.dev) :
    P' ((World.poll move env)^[n] w).dev := by
  obtain ⟨k, hk, hmem⟩ := hwithin w.accesses
  have hsplit : n = (n - (k + 1)) + (k + 1) := by omega
  rw [hsplit, Function.iterate_add_apply, Function.iterate_succ_apply']
  refine hP'.poll_iterate _ ?_
  have haccesses : ((World.poll move env)^[k] w).accesses = w.accesses + k :=
    accesses_poll_iterate k w
  rw [← haccesses] at hmem
  exact foldl_of_mem hP hP' hm hmem (hP.poll_iterate k hw)

end Waiting

end Device
