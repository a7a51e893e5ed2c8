import Mathlib.Data.List.Basic

/-!
# Lists in memory

A list in memory is a pointer to its first node and, in every node, a pointer to the
next one. `Chained next top l` says that the nodes from `top` on are those of `l`, in
this order and up to a null pointer; `Reaches next top a` that following the pointers
from `top` on leads to `a`. The latter makes sense for pointers that lead in circles,
too.
-/

namespace Pointers

variable {α : Type*} {next : α → Option α} {top : Option α} {l : List α} {a b : α}

def Chained (next : α → Option α) : Option α → List α → Prop
  | top, [] => top = none
  | top, a :: l => top = some a ∧ Chained next (next a) l

/-- Following the pointers from `top` on leads to a node. -/
inductive Reaches (next : α → Option α) : Option α → α → Prop
  | here (a : α) : Reaches next (some a) a
  | there {a b : α} (h : Reaches next (next a) b) : Reaches next (some a) b

theorem Chained.reaches_iff (h : Chained next top l) : Reaches next top b ↔ b ∈ l := by
  induction l generalizing top with
  | nil =>
      rw [Chained] at h
      subst h
      exact ⟨fun hr => (nomatch hr), fun hb => (nomatch hb)⟩
  | cons a l ih =>
      obtain ⟨rfl, hrest⟩ := h
      rw [List.mem_cons, ← ih hrest]
      constructor
      · intro hr
        cases hr with
        | here => exact .inl rfl
        | there hr => exact .inr hr
      · rintro (rfl | hr)
        · exact .here _
        · exact .there hr

theorem Chained.update [DecidableEq α] (h : Chained next top l) (ha : a ∉ l) (p : Option α) :
    Chained (Function.update next a p) top l := by
  induction l generalizing top with
  | nil => exact h
  | cons b l ih =>
      rw [List.mem_cons, not_or] at ha
      refine ⟨h.1, ?_⟩
      rw [Function.update_of_ne (Ne.symm ha.1)]
      exact ih h.2 ha.2

end Pointers
