import Mathlib.Data.List.Basic
import Mathlib.Data.List.Perm.Basic

/-!
# Windows into memory

A window makes a block of memory visible at another address, with some kind of access. A table
of windows is what a translation unit works with: its windows are not empty and do not overlap
where they are looked through. A window is put in where nothing is yet, and dropping a block
takes out the windows inside it. If the block is just that of a window, no other one goes with it
(`Table.perm_drop`).
-/

namespace Windows

variable {α : Type*}

/-- The `len` bytes from `start` on show the memory from `target` on. -/
structure Window (α : Type*) where
  start : ℕ
  target : ℕ
  len : ℕ
  access : α
  deriving DecidableEq

def Window.Apart (v w : Window α) : Prop :=
  v.start + v.len ≤ w.start ∨ w.start + w.len ≤ v.start

instance (v w : Window α) : Decidable (v.Apart w) := inferInstanceAs (Decidable (_ ∨ _))

def Window.Within (w : Window α) (start len : ℕ) : Prop :=
  start ≤ w.start ∧ w.start + w.len ≤ start + len

instance (w : Window α) (start len : ℕ) : Decidable (w.Within start len) :=
  inferInstanceAs (Decidable (_ ∧ _))

def Window.Outside (w : Window α) (start len : ℕ) : Prop :=
  start + len ≤ w.start ∨ w.start + w.len ≤ start

instance (w : Window α) (start len : ℕ) : Decidable (w.Outside start len) :=
  inferInstanceAs (Decidable (_ ∨ _))

/-- Windows that are not empty and do not overlap. -/
structure Table (α : Type*) where
  windows : List (Window α)
  nonempty : ∀ w ∈ windows, 0 < w.len
  apart : windows.Pairwise Window.Apart

namespace Table

variable (t : Table α) {w : Window α} {a b start len : ℕ}

def empty : Table α := ⟨[], nofun, .nil⟩

def insert (w : Window α) (hlen : 0 < w.len) (hapart : ∀ v ∈ t.windows, w.Apart v) : Table α where
  windows := w :: t.windows
  nonempty := List.forall_mem_cons.mpr ⟨hlen, t.nonempty⟩
  apart := t.apart.cons hapart

def drop (start len : ℕ) : Table α where
  windows := t.windows.filter fun w => !decide (w.Within start len)
  nonempty := fun w hw => t.nonempty w (List.mem_of_mem_filter hw)
  apart := t.apart.filter _

def Whole (start len : ℕ) : Prop := ∀ w ∈ t.windows, w.Within start len ∨ w.Outside start len

instance : Decidable (t.Whole start len) := inferInstanceAs (Decidable (∀ _ ∈ _, _))

/-- The address `a` shows the memory at `b`. -/
def Reaches (a b : ℕ) : Prop :=
  ∃ w ∈ t.windows, ∃ o < w.len, w.start + o = a ∧ w.target + o = b

theorem exists_split (hw : w ∈ t.windows) :
    ∃ l r, t.windows = l ++ w :: r ∧ ∀ v ∈ l ++ r, v ∈ t.windows ∧ v.Apart w := by
  obtain ⟨l, r, hsplit⟩ := List.append_of_mem hw
  have hpair := t.apart
  rw [hsplit, List.pairwise_append, List.pairwise_cons] at hpair
  obtain ⟨-, ⟨hright, -⟩, hleft⟩ := hpair
  refine ⟨l, r, hsplit, fun v hv => ?_⟩
  rw [hsplit]
  rcases List.mem_append.mp hv with hv | hv
  · exact ⟨List.mem_append_left _ hv, hleft v hv w List.mem_cons_self⟩
  · exact ⟨List.mem_append_right _ (List.mem_cons_of_mem _ hv), Or.symm (hright v hv)⟩

/-- Dropping the block of a window takes that window out, and no other one. -/
theorem perm_drop (hw : w ∈ t.windows) :
    t.windows.Perm (w :: (t.drop w.start w.len).windows) := by
  obtain ⟨l, r, hsplit, hothers⟩ := t.exists_split hw
  have hself : w.Within w.start w.len := ⟨Nat.le_refl _, Nat.le_refl _⟩
  have hkeep : ∀ v ∈ l ++ r, (!decide (v.Within w.start w.len)) = true := by
    intro v hv
    obtain ⟨hmem, happart⟩ := hothers v hv
    have hpos := t.nonempty v hmem
    rw [Bool.not_eq_true', decide_eq_false_iff_not]
    rintro ⟨hlo, hhi⟩
    rcases happart with h | h <;> omega
  have hdrop : (t.drop w.start w.len).windows = l ++ r := by
    change t.windows.filter _ = _
    rw [hsplit, List.filter_append, List.filter_cons_of_neg (by simp [hself]),
      ← List.filter_append]
    exact List.filter_eq_self.mpr hkeep
  rw [hdrop, hsplit]
  exact List.perm_middle

end Table

end Windows
