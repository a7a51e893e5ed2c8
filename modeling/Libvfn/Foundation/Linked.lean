import Mathlib.Data.List.Basic
import Mathlib.Data.List.TakeWhile

/-!
# Sequences with a cursor

A doubly linked list is read here as the sequence of its nodes. `after p l` is
what stands behind the node `p`, so `next l p` is the successor of `p` and
`insertAfter p n l` links `n` in behind `p`. `advance go p l` walks a cursor
`p` along the nodes `l` behind it as long as the nodes satisfy `go`; it returns
the last node reached and the node the walk stopped at.

A walk ends at the last node of the segment that satisfies `go`, `lastTrue go p l`,
and stops at the first node behind it. A predicate that holds on an initial segment
of the sequence and nowhere behind it is `Initial`, and it is so on every
subsequence. This is what lets a search through several lists of different density
end at the same place as a search through the densest one.
-/

namespace Linked

section Cursor

variable {α : Type*} [DecidableEq α]

def after (p : α) : List α → List α
  | [] => []
  | a :: l => if a = p then l else after p l

def next (l : List α) (p : α) : Option α := (after p l).head?

def insertAfter (p n : α) : List α → List α
  | [] => []
  | a :: l => if a = p then a :: n :: l else a :: insertAfter p n l

theorem after_append_cons {l₁ : List α} {p : α} (hp : p ∉ l₁) (l₂ : List α) :
    after p (l₁ ++ p :: l₂) = l₂ := by
  induction l₁ with
  | nil => simp [after]
  | cons a l₁ ih =>
      have ha : a ≠ p := fun h => hp (by simp [h])
      have hl : p ∉ l₁ := fun h => hp (by simp [h])
      rw [List.cons_append, after, if_neg ha, ih hl]

theorem next_append_cons {l₁ : List α} {p : α} (hp : p ∉ l₁) (l₂ : List α) :
    next (l₁ ++ p :: l₂) p = l₂.head? := by
  rw [next, after_append_cons hp]

theorem insertAfter_append_cons {l₁ : List α} {p : α} (hp : p ∉ l₁) (n : α)
    (l₂ : List α) :
    insertAfter p n (l₁ ++ p :: l₂) = l₁ ++ p :: n :: l₂ := by
  induction l₁ with
  | nil => simp [insertAfter]
  | cons a l₁ ih =>
      have ha : a ≠ p := fun h => hp (by simp [h])
      have hl : p ∉ l₁ := fun h => hp (by simp [h])
      rw [List.cons_append, insertAfter, if_neg ha, ih hl, List.cons_append]

theorem after_subset (p : α) (l : List α) : after p l ⊆ l := by
  induction l with
  | nil => exact List.Subset.refl []
  | cons a l ih =>
      rw [after]
      split_ifs
      · exact List.subset_cons_self a l
      · exact List.Subset.trans ih (List.subset_cons_self a l)

end Cursor

section Walk

variable {α : Type*}

/-- Walk the cursor `p` along the nodes behind it while they satisfy `go`. The
result is the last node reached and the node the walk stopped at. -/
def advance (go : α → Bool) : α → List α → α × Option α
  | p, [] => (p, none)
  | p, n :: l => if go n then advance go n l else (p, some n)

/-- The last node of the initial segment on which `go` holds, `d` if the segment
is empty. -/
def lastTrue (go : α → Bool) (d : α) (l : List α) : α :=
  (l.takeWhile go).getLast?.getD d

theorem lastTrue_cons (go : α → Bool) (d a : α) (l : List α) :
    lastTrue go d (a :: l) = if go a then lastTrue go a l else d := by
  by_cases h : go a
  · simp [lastTrue, h, List.getLast?_cons]
  · simp [lastTrue, h]

theorem advance_eq (go : α → Bool) (p : α) (l : List α) :
    advance go p l = (lastTrue go p l, (l.dropWhile go).head?) := by
  induction l generalizing p with
  | nil => rfl
  | cons a l ih =>
      by_cases h : go a
      · rw [advance, if_pos h, ih, lastTrue_cons, if_pos h, List.dropWhile_cons_of_pos h]
      · rw [advance, if_neg h, lastTrue_cons, if_neg h, List.dropWhile_cons_of_neg h]
        rfl

theorem takeWhile_dropWhile_append {go : α → Bool} {s t : List α} (hs : ∀ a ∈ s, go a = true)
    (ht : ∀ a ∈ t.head?, go a = false) :
    (s ++ t).takeWhile go = s ∧ (s ++ t).dropWhile go = t := by
  rw [List.takeWhile_append_of_pos hs, List.dropWhile_append_of_pos hs]
  cases t with
  | nil => simp
  | cons a t => simp [ht a rfl]

theorem advance_append {go : α → Bool} {s t : List α} (hs : ∀ a ∈ s, go a = true)
    (ht : ∀ a ∈ t.head?, go a = false) (p : α) :
    advance go p (s ++ t) = (s.getLast?.getD p, t.head?) := by
  obtain ⟨htake, hdrop⟩ := takeWhile_dropWhile_append hs ht
  rw [advance_eq, lastTrue, htake, hdrop]

theorem advance_congr {go go' : α → Bool} {l : List α} (h : ∀ a ∈ l, go a = go' a) (p : α) :
    advance go p l = advance go' p l := by
  induction l generalizing p with
  | nil => rfl
  | cons a l ih =>
      obtain ⟨ha, hl⟩ := List.forall_mem_cons.mp h
      rw [advance, advance, ha, ih hl]

theorem mem_of_advance_snd {go : α → Bool} {p a : α} {l : List α}
    (h : (advance go p l).2 = some a) : a ∈ l := by
  rw [advance_eq] at h
  exact (List.dropWhile_sublist go).subset (List.mem_of_mem_head? h)

/-- The predicate holds on an initial segment and fails behind it. -/
def Initial (go : α → Bool) (l : List α) : Prop :=
  l.Pairwise fun a b => go b = true → go a = true

theorem Initial.sublist {go : α → Bool} {l₁ l₂ : List α}
    (h : Initial go l₂) (hs : l₁.Sublist l₂) : Initial go l₁ :=
  List.Pairwise.sublist hs h

theorem Initial.takeWhile_eq_filter {go : α → Bool} {l : List α}
    (h : Initial go l) : l.takeWhile go = l.filter go := by
  induction l with
  | nil => rfl
  | cons a l ih =>
      obtain ⟨ha, hl⟩ := List.pairwise_cons.mp h
      by_cases hg : go a
      · rw [List.takeWhile_cons_of_pos hg, List.filter_cons_of_pos hg, ih hl]
      · have hnil : l.filter go = [] := by
          rw [List.filter_eq_nil_iff]
          intro b hb hgb
          exact hg (ha b hb hgb)
        rw [List.takeWhile_cons_of_neg hg, List.filter_cons_of_neg hg, hnil]

theorem Initial.dropWhile_eq_filter {go : α → Bool} {l : List α}
    (h : Initial go l) : l.dropWhile go = l.filter fun a => !go a := by
  induction l with
  | nil => rfl
  | cons a l ih =>
      obtain ⟨ha, hl⟩ := List.pairwise_cons.mp h
      by_cases hg : go a
      · rw [List.dropWhile_cons_of_pos hg, List.filter_cons_of_neg (by simp [hg]), ih hl]
      · have hall : l.filter (fun a => !go a) = l := by
          rw [List.filter_eq_self]
          intro b hb
          have hgb : go b = false := by
            by_contra hgb
            exact hg (ha b hb (by simpa using hgb))
          simp [hgb]
        rw [List.dropWhile_cons_of_neg hg, List.filter_cons_of_pos (by simp [hg]), hall]

end Walk

end Linked
