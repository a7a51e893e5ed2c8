import Libvfn.Foundation.Run
import Mathlib.Algebra.BigOperators.Group.Finset.Piecewise
import Mathlib.Algebra.Order.Group.Multiset

/-!
# What the slots of a table hold

The slots of a table hold things, and `total` is what all of them hold together. When a slot is
overwritten, its old things are exchanged for the new ones (`total_update`). So the books of
whoever hands the things out can be kept slot by slot. A table is emptied by a step for each slot
(`run_empties`).
-/

namespace Ledger

variable {α β : Type*} {holds : β → Multiset α} {n i : ℕ}

def total (holds : β → Multiset α) (n : ℕ) (slots : ℕ → β) : Multiset α :=
  ∑ i ∈ Finset.range n, holds (slots i)

theorem total_congr {slots slots' : ℕ → β} (h : ∀ i, holds (slots' i) = holds (slots i)) :
    total holds n slots' = total holds n slots :=
  Finset.sum_congr rfl fun i _ => h i

theorem total_eq_zero {slots : ℕ → β} (h : ∀ i < n, holds (slots i) = 0) :
    total holds n slots = 0 :=
  Finset.sum_eq_zero fun i hi => h i (Finset.mem_range.mp hi)

theorem mem_total {slots : ℕ → β} {a : α} (hi : i < n) (ha : a ∈ holds (slots i)) :
    a ∈ total holds n slots :=
  Multiset.mem_sum.mpr ⟨i, Finset.mem_range.mpr hi, ha⟩

theorem total_update (hi : i < n) (slots : ℕ → β) (b : β) :
    holds (slots i) + total holds n (Function.update slots i b) =
      holds b + total holds n slots := by
  have hmem := Finset.mem_range.mpr hi
  have hupdate : ∀ j, holds (Function.update slots i b j) =
      Function.update (fun j => holds (slots j)) i (holds b) j :=
    fun j => Function.apply_update (fun _ => holds) slots i b j
  rw [total, Finset.sum_congr rfl fun j _ => hupdate j, Finset.sum_update_of_mem hmem,
    Finset.sdiff_singleton_eq_erase, total,
    ← Finset.add_sum_erase _ (fun j => holds (slots j)) hmem, add_left_comm]

theorem run_empties {σ : Type*} {step : σ → ℕ → Option σ} {inv : σ → Prop} {used : σ → ℕ → Prop}
    (hstep : ∀ s i, inv s → ∃ s', step s i = some s' ∧ inv s' ∧ ∀ j, used s' j → j ≠ i ∧ used s j)
    {s : σ} (hs : inv s) (slots : List ℕ) :
    ∃ s', Runs.run step s slots = some s' ∧ inv s' ∧ ∀ j, used s' j → j ∉ slots ∧ used s j := by
  induction slots generalizing s with
  | nil => exact ⟨s, rfl, hs, fun j hj => ⟨List.not_mem_nil, hj⟩⟩
  | cons i slots ih =>
      obtain ⟨t, ht, hinv, hempties⟩ := hstep s i hs
      obtain ⟨s', hrun, hinv', hempties'⟩ := ih hinv
      refine ⟨s', Runs.run_cons_eq_some.mpr ⟨t, ht, hrun⟩, hinv', fun j hj => ?_⟩
      obtain ⟨hnot, hused⟩ := hempties' j hj
      obtain ⟨hne, hold⟩ := hempties j hused
      exact ⟨List.not_mem_cons_of_ne_of_not_mem hne hnot, hold⟩

end Ledger
