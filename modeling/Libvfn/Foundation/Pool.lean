import Mathlib.Data.Set.Lattice
import Mathlib.Order.CompletePartialOrder

/-!
# A pool and what was handed out of it

`Parted pool out` says that the sets `out`, which were handed out, meet neither
each other nor the pool they came from. Handing a part of the pool out keeps this,
as long as the pool gives it up (`Parted.take`), and so does giving a part back
(`Parted.put`). The pool may lose elements at any time (`Parted.mono`).
-/

namespace Pool

variable {α : Type*} {pool pool' b : Set α} {out out' : List (Set α)}

/-- What was handed out and what is left are apart. -/
def Parted (pool : Set α) (out : List (Set α)) : Prop := (pool :: out).Pairwise Disjoint

theorem parted_nil (pool : Set α) : Parted pool [] := List.pairwise_singleton _ _

theorem parted_cons :
    Parted pool (b :: out) ↔
      Disjoint pool b ∧ (∀ c ∈ out, Disjoint b c) ∧ Parted pool out := by
  simp only [Parted, List.pairwise_cons, List.forall_mem_cons]
  exact ⟨fun h => ⟨h.1.1, h.2.1, h.1.2, h.2.2⟩, fun h => ⟨⟨h.1, h.2.2.1⟩, h.2.1, h.2.2.2⟩⟩

theorem Parted.disjoint (h : Parted pool out) (hb : b ∈ out) : Disjoint pool b :=
  (List.pairwise_cons.mp h).1 b hb

theorem Parted.perm (h : Parted pool out) (hp : out.Perm out') : Parted pool out' :=
  (hp.cons pool).pairwise h fun h => h.symm

theorem Parted.mono (h : Parted pool out) (hp : pool' ⊆ pool) : Parted pool' out := by
  obtain ⟨hpool, hout⟩ := List.pairwise_cons.mp h
  exact List.pairwise_cons.mpr ⟨fun b hb => (hpool b hb).mono_left hp, hout⟩

theorem Parted.take (h : Parted pool out) (hb : b ⊆ pool) (hp : pool' ⊆ pool \ b) :
    Parted pool' (b :: out) := by
  refine parted_cons.mpr ⟨?_, ?_, h.mono (hp.trans Set.sdiff_subset)⟩
  · exact Set.disjoint_sdiff_left.mono_left hp
  · exact fun c hc => (h.disjoint hc).mono_left hb

theorem Parted.put (h : Parted pool (b :: out)) (hp : pool' ⊆ pool ∪ b) : Parted pool' out := by
  obtain ⟨-, hb, hout⟩ := parted_cons.mp h
  refine List.pairwise_cons.mpr ⟨fun c hc => ?_, (List.pairwise_cons.mp hout).2⟩
  exact (Set.disjoint_union_left.mpr ⟨hout.disjoint hc, hb c hc⟩).mono_left hp

end Pool
