import Libvfn.Iommu.Vfio.Allocator
import Libvfn.Iommu.Vfio.Canonical

/-!
# Containers with the same future

What reservations return is determined by the free addresses and the cursors of a
container, whatever its list of free addresses looks like. Two containers that agree on
these are twins: every reservation succeeds on both or on neither, and leaves twins.

A container with nothing in the list and one with at least a page there, but the same
cursor, are told apart by reserving single pages until the cursor is at the end.
-/

namespace Libvfn

namespace Iommu

open Word Support Util Spans Runs

inductive IovaRequest where
  | plain (len flags : U64)
  | aligned (len align : U64)

def IovaRequest.reserve (pagesize : U64) (vfio : VfioContainer) :
    IovaRequest → Except Errno (U64 × VfioContainer)
  | .plain len flags => vfioIommuType1IovaReserve pagesize vfio len flags
  | .aligned len align => vfioIommuType1IovaReserveAlign pagesize vfio len align

def reserveStep (pagesize : U64) (vfio : VfioContainer) (req : IovaRequest) :
    VfioContainer × Bool :=
  let res := req.reserve pagesize vfio
  (vfio.after res, res.isOk)

def reserveAll (pagesize : U64) (vfio : VfioContainer) (reqs : List IovaRequest) : List Bool :=
  (runOut (reserveStep pagesize) vfio reqs).2

/-! ## Twins -/

/-- The containers agree on the free addresses and on the cursors. -/
structure Twins (vfio vfio' : VfioContainer) : Prop where
  alike : ∃ xs xs', Alike vfio.freeIovas xs vfio'.freeIovas xs'
  iovaRanges : vfio'.iovaRanges = vfio.iovaRanges
  next : vfio'.next = vfio.next
  ephemerals : vfio'.ephemerals = vfio.ephemerals
  nextEphemeral : vfio'.nextEphemeral = vfio.nextEphemeral

/-- Both reservations fail, or both return the same address and leave twins. -/
inductive Agree : Except Errno (U64 × VfioContainer) → Except Errno (U64 × VfioContainer) → Prop
  | refused (e e' : Errno) : Agree (.error e) (.error e')
  | reserved (iova : U64) {vfio vfio' : VfioContainer} (h : Twins vfio vfio') :
      Agree (.ok (iova, vfio)) (.ok (iova, vfio'))

variable {vfio vfio' : VfioContainer} {pagesize : U64}

theorem Agree.after {res res' : Except Errno (U64 × VfioContainer)} (hagree : Agree res res')
    (h : Twins vfio vfio') : Twins (vfio.after res) (vfio'.after res') ∧ res.isOk = res'.isOk := by
  cases hagree with
  | refused e e' => exact ⟨h, rfl⟩
  | reserved iova htwins => exact ⟨htwins, rfl⟩

/-- Reservations agree if they look for the same block in the list and then move the same
cursor. -/
theorem Twins.supply (h : Twins vfio vfio')
    {got got' : Option (U64 × FreeList)} (cut : Option (U64 × U64))
    (hgot : (got = none ∧ got' = none) ∨ ∃ iova fl fl' xs xs', got = some (iova, fl) ∧
      got' = some (iova, fl') ∧ Alike fl xs fl' xs') :
    Agree (vfio.supply got cut) (vfio'.supply got' cut) := by
  rcases hgot with ⟨rfl, rfl⟩ | ⟨iova, fl, fl', xs, xs', rfl, rfl, halike⟩
  · obtain _ | ⟨iova, next⟩ := cut
    · exact .refused _ _
    · exact .reserved iova { h with next := rfl }
  · exact .reserved iova { h with alike := ⟨xs, xs', halike⟩ }

theorem Twins.reserve (h : Twins vfio vfio') (len flags : U64) :
    Agree (vfioIommuType1IovaReserve pagesize vfio len flags)
      (vfioIommuType1IovaReserve pagesize vfio' len flags) := by
  have hcut : iovaReserve vfio'.iovaRanges vfio'.next len =
      iovaReserve vfio.iovaRanges vfio.next len := by rw [h.iovaRanges, h.next]
  have haside : iovaReserve [vfio'.ephemerals] vfio'.nextEphemeral len =
      iovaReserve [vfio.ephemerals] vfio.nextEphemeral len := by
    rw [h.ephemerals, h.nextEphemeral]
  rw [vfioIommuType1IovaReserve, vfioIommuType1IovaReserve, hcut, haside]
  split_ifs
  · exact .refused _ _
  · obtain _ | ⟨iova, next⟩ := iovaReserve [vfio.ephemerals] vfio.nextEphemeral len
    · exact .refused _ _
    · exact .reserved iova { h with nextEphemeral := rfl }
  · obtain ⟨xs, xs', halike⟩ := h.alike
    exact h.supply _ (halike.taken (halike.iovaGetFree_fst len)
      (fun _ _ => iovaGetFree_tidy halike.left) fun _ _ => iovaGetFree_tidy halike.right)

theorem Twins.reserveAlign (h : Twins vfio vfio') (len align : U64) :
    Agree (vfioIommuType1IovaReserveAlign pagesize vfio len align)
      (vfioIommuType1IovaReserveAlign pagesize vfio' len align) := by
  have hcut : iovaReserveAlign vfio'.iovaRanges vfio'.next len align =
      iovaReserveAlign vfio.iovaRanges vfio.next len align := by rw [h.iovaRanges, h.next]
  rw [vfioIommuType1IovaReserveAlign, vfioIommuType1IovaReserveAlign, hcut]
  split_ifs
  · exact .refused _ _
  · exact .refused _ _
  · obtain ⟨xs, xs', halike⟩ := h.alike
    exact h.supply _ (halike.taken (halike.iovaGetFreeAlign_fst len align)
      (fun _ _ => iovaGetFreeAlign_tidy halike.left) fun _ _ => iovaGetFreeAlign_tidy halike.right)

theorem Twins.reserveAll (h : Twins vfio vfio') (pagesize : U64) (reqs : List IovaRequest) :
    reserveAll pagesize vfio reqs = reserveAll pagesize vfio' reqs := by
  have hstep : ∀ s s' req, Twins s s' → True →
      (reserveStep pagesize s req).2 = (reserveStep pagesize s' req).2 ∧
        Twins (reserveStep pagesize s req).1 (reserveStep pagesize s' req).1 := by
    intro s s' req hs _
    have hagree : Agree (req.reserve pagesize s) (req.reserve pagesize s') := by
      cases req with
      | plain len flags => exact hs.reserve len flags
      | aligned len align => exact hs.reserveAlign len align
    exact (hagree.after hs).symm
  exact (runOut_simulation hstep h (admissibleAlong_of_forall (fun _ _ => trivial) _ _)).1

/-! ## Counting pages -/

def ReservesPages (pagesize : U64) : VfioContainer → ℕ → Prop
  | _, 0 => True
  | vfio, n + 1 => ∃ iova vfio',
      vfioIommuType1IovaReserve pagesize vfio pagesize 0 = .ok (iova, vfio') ∧
        ReservesPages pagesize vfio' n

theorem reservesPages_iff {n : ℕ} :
    ReservesPages pagesize vfio n ↔
      reserveAll pagesize vfio (List.replicate n (.plain pagesize 0)) = List.replicate n true := by
  induction n generalizing vfio with
  | zero => exact iff_of_true trivial rfl
  | succ n ih =>
      have hcons : reserveAll pagesize vfio (List.replicate (n + 1) (.plain pagesize 0)) =
          (vfioIommuType1IovaReserve pagesize vfio pagesize 0).isOk ::
            reserveAll pagesize
              (vfio.after (vfioIommuType1IovaReserve pagesize vfio pagesize 0))
              (List.replicate n (.plain pagesize 0)) := rfl
      rw [ReservesPages, hcons, List.replicate_succ, List.cons_eq_cons]
      rcases vfioIommuType1IovaReserve pagesize vfio pagesize 0 with e | ⟨iova, vfio'⟩
      · exact iff_of_false (fun ⟨_, _, hres, _⟩ => (nomatch hres)) fun h => (nomatch h.1)
      · rw [← ih]
        constructor
        · rintro ⟨_, _, hres, hrest⟩
          obtain ⟨rfl, rfl⟩ := Prod.mk.inj (Except.ok.inj hres)
          exact ⟨rfl, hrest⟩
        · exact fun h => ⟨iova, vfio', rfl, h.2⟩

theorem ReservesPages.pred {n : ℕ} (h : ReservesPages pagesize vfio (n + 1)) :
    ReservesPages pagesize vfio n := by
  induction n generalizing vfio with
  | zero => trivial
  | succ n ih =>
      obtain ⟨iova, vfio', hres, hrest⟩ := h
      exact ⟨iova, vfio', hres, ih hrest⟩

section Pages

variable {k : ℕ} (hk : k < 64)

include hk

theorem reserve_page_of_free {iova : U64} {fl : FreeList}
    (hget : iovaGetFree vfio.freeIovas (BitVec.twoPow 64 k) = some (iova, fl)) :
    vfioIommuType1IovaReserve (BitVec.twoPow 64 k) vfio (BitVec.twoPow 64 k) 0 =
      .ok (iova, { vfio with freeIovas := fl }) := by
  have haligned := (aligned_twoPow_iff (BitVec.twoPow 64 k) hk).mpr (by rw [toNat_twoPow hk])
  rw [vfioIommuType1IovaReserve, haligned, hget]
  rfl

theorem reserve_page_of_not_free
    (hget : iovaGetFree vfio.freeIovas (BitVec.twoPow 64 k) = none) :
    vfioIommuType1IovaReserve (BitVec.twoPow 64 k) vfio (BitVec.twoPow 64 k) 0 =
      match iovaReserve vfio.iovaRanges vfio.next (BitVec.twoPow 64 k) with
      | some (iova, next) => .ok (iova, { vfio with next := next })
      | none => .error .ENOMEM := by
  have haligned := (aligned_twoPow_iff (BitVec.twoPow 64 k) hk).mpr (by rw [toNat_twoPow hk])
  rw [vfioIommuType1IovaReserve, haligned, hget]
  rfl

/-- Without a page in the list, reserving one moves the cursor. -/
theorem ReservesPages.cursor {n : ℕ}
    (hget : iovaGetFree vfio.freeIovas (BitVec.twoPow 64 k) = none)
    (h : ReservesPages (BitVec.twoPow 64 k) vfio (n + 1)) :
    ∃ iova next, iovaReserve vfio.iovaRanges vfio.next (BitVec.twoPow 64 k) = some (iova, next) ∧
      ReservesPages (BitVec.twoPow 64 k) { vfio with next := next } n := by
  obtain ⟨iova, vfio', hres, hrest⟩ := h
  rw [reserve_page_of_not_free hk hget] at hres
  cases hcut : iovaReserve vfio.iovaRanges vfio.next (BitVec.twoPow 64 k) with
  | none =>
      rw [hcut] at hres
      cases hres
  | some cut =>
      rw [hcut] at hres
      obtain ⟨rfl, rfl⟩ := Prod.mk.inj (Except.ok.inj hres)
      exact ⟨_, _, rfl, hrest⟩

theorem ReservesPages.of_not_free {n : ℕ} (h : ReservesPages (BitVec.twoPow 64 k) vfio n)
    (hget : iovaGetFree vfio.freeIovas (BitVec.twoPow 64 k) = none)
    (hranges : vfio'.iovaRanges = vfio.iovaRanges) (hnext : vfio'.next = vfio.next) :
    ReservesPages (BitVec.twoPow 64 k) vfio' n := by
  induction n generalizing vfio vfio' with
  | zero => trivial
  | succ n ih =>
      cases hget' : iovaGetFree vfio'.freeIovas (BitVec.twoPow 64 k) with
      | some taken =>
          exact ⟨taken.1, _, reserve_page_of_free hk hget', ih h.pred hget hranges hnext⟩
      | none =>
          obtain ⟨iova, next, hcut, hrest⟩ := h.cursor hk hget
          refine ⟨iova, { vfio' with next := next }, ?_, ih hrest hget hranges rfl⟩
          rw [reserve_page_of_not_free hk hget', hranges, hnext, hcut]

theorem ReservesPages.lt {n : ℕ} (h : ReservesPages (BitVec.twoPow 64 k) vfio n)
    (hget : iovaGetFree vfio.freeIovas (BitVec.twoPow 64 k) = none)
    (hbound : Bounded vfio.iovaRanges) : vfio.next.toNat + n < 2 ^ 64 := by
  induction n generalizing vfio with
  | zero => exact vfio.next.isLt
  | succ n ih =>
      obtain ⟨iova, next, hcut, hrest⟩ := h.cursor hk hget
      obtain ⟨hle, hnext, -⟩ := iovaReserve_spec hbound hcut
      have hlt := ih hrest hget hbound
      have hpos := Nat.two_pow_pos k
      rw [toNat_twoPow hk] at hnext
      dsimp only at hlt
      omega

/-- Containers with the same cursor on which the same calls succeed both have a page in the
list, or neither does. -/
theorem iovaGetFree_eq_none_of_reserveAll (hbound : Bounded vfio.iovaRanges)
    (hranges : vfio'.iovaRanges = vfio.iovaRanges) (hnext : vfio'.next = vfio.next)
    (hget : iovaGetFree vfio.freeIovas (BitVec.twoPow 64 k) = none)
    (hsame : ∀ reqs, reserveAll (BitVec.twoPow 64 k) vfio reqs =
      reserveAll (BitVec.twoPow 64 k) vfio' reqs) :
    iovaGetFree vfio'.freeIovas (BitVec.twoPow 64 k) = none := by
  by_contra hsome
  obtain ⟨⟨iova, fl⟩, hget'⟩ := Option.ne_none_iff_exists'.mp hsome
  -- the page in the list always allows one more
  have hall : ∀ n, ReservesPages (BitVec.twoPow 64 k) vfio n := by
    intro n
    induction n with
    | zero => trivial
    | succ n ih =>
        rw [reservesPages_iff, hsame, ← reservesPages_iff]
        exact ⟨iova, _, reserve_page_of_free hk hget', ih.of_not_free hk hget hranges hnext⟩
  have hlt := (hall (2 ^ 64)).lt hk hget hbound
  omega

end Pages

end Iommu

end Libvfn
