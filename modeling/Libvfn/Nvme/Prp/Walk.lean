import Libvfn.Nvme.Prp.Encode

/-!
# Reading physical region pages

The controller's side. It takes the first chunk from `prp1`, up to the end of the
page. If more than a page is left then `prp2` points to a list, and the walker
decides from the number of bytes left whether the last slot of a list page is a
data page or a link to the next list page.

The list pages are read through a partial function. `listRead` is the one that
knows only what was stored through the cursor, so a walk over it that yields
something has read no slot that was not written.
-/

namespace Libvfn

namespace Nvme

open Word

/-- Walk a list from the slot at `addr` on, with `rem` bytes left. A link has to
point to the start of a page. Every step consumes data, so `rem` is fuel enough. -/
def walkList (read : U64 → Option U64) (pagesize : ℕ) :
    ℕ → U64 → ℕ → Option (List U64)
  | fuel, addr, rem =>
      if rem = 0 then some []
      else
        match fuel with
        | 0 => none
        | fuel + 1 =>
            let slot :=
              if (addr.toNat + 8) % pagesize = 0 ∧ pagesize < rem then
                (read addr).bind fun link =>
                  if link.toNat % pagesize = 0 then some link else none
              else some addr
            slot.bind fun slot =>
              (read slot).bind fun page =>
                (walkList read pagesize fuel (slot + 8) (rem - min rem pagesize)).map
                  (byteRange page (min rem pagesize) ++ ·)

def firstChunk (pagesize : ℕ) (iova : U64) (len : ℕ) : ℕ :=
  min len (pagesize - iova.toNat % pagesize)

/-- The addresses of the bytes that a controller transfers for a command. -/
def prpWalk (read : U64 → Option U64) (pagesize : ℕ) (dptr : Dptr) (len : ℕ) :
    Option (List U64) :=
  let first := firstChunk pagesize dptr.prp1 len
  let rest := len - first
  if rest = 0 then some (byteRange dptr.prp1 first)
  else if rest ≤ pagesize then
    some (byteRange dptr.prp1 first ++ byteRange dptr.prp2 rest)
  else
    (walkList read pagesize rest dptr.prp2 rest).map (byteRange dptr.prp1 first ++ ·)

def listRead (base : U64) (stores : List (ℕ × U64)) (addr : U64) : Option U64 :=
  let offset := (addr - base).toNat
  if offset % 8 = 0 then listMemory stores (offset / 8) else none

theorem walkList_zero (read : U64 → Option U64) (pagesize fuel : ℕ) (addr : U64) :
    walkList read pagesize fuel addr 0 = some [] := by
  cases fuel <;> simp [walkList]

theorem walkList_none {read : U64 → Option U64} {pagesize fuel rem : ℕ} {addr : U64}
    (hrem : 0 < rem) (hread : read addr = none) :
    walkList read pagesize fuel addr rem = none := by
  cases fuel with
  | zero => rw [walkList, if_neg (by omega)]
  | succ fuel =>
      rw [walkList, if_neg (by omega)]
      split_ifs <;> simp [hread]

theorem walkList_data {read : U64 → Option U64} {pagesize fuel rem : ℕ} {addr page : U64}
    (hrem : 0 < rem) (hslot : ¬((addr.toNat + 8) % pagesize = 0 ∧ pagesize < rem))
    (hread : read addr = some page) :
    walkList read pagesize (fuel + 1) addr rem =
      (walkList read pagesize fuel (addr + 8) (rem - min rem pagesize)).map
        (byteRange page (min rem pagesize) ++ ·) := by
  rw [walkList, if_neg (by omega), if_neg hslot]
  simp [hread]

theorem walkList_link {read : U64 → Option U64} {pagesize fuel rem : ℕ}
    {addr link page : U64} (hslot : (addr.toNat + 8) % pagesize = 0 ∧ pagesize < rem)
    (hread : read addr = some link) (hlink : link.toNat % pagesize = 0)
    (hpage : read link = some page) :
    walkList read pagesize (fuel + 1) addr rem =
      (walkList read pagesize fuel (link + 8) (rem - min rem pagesize)).map
        (byteRange page (min rem pagesize) ++ ·) := by
  rw [walkList, if_neg (by omega), if_pos hslot]
  simp [hread, hlink, hpage]

theorem walkList_stray_link {read : U64 → Option U64} {pagesize fuel rem : ℕ}
    {addr link : U64} (hslot : (addr.toNat + 8) % pagesize = 0 ∧ pagesize < rem)
    (hread : read addr = some link) (hlink : read link = none) :
    walkList read pagesize (fuel + 1) addr rem = none := by
  rw [walkList, if_neg (by omega), if_pos hslot, hread]
  by_cases halign : link.toNat % pagesize = 0 <;> simp [halign, hlink]

/-! ## The list memory -/

theorem listMemory_append_singleton (stores : List (ℕ × U64)) (s : ℕ × U64) :
    listMemory (stores ++ [s]) = Function.update (listMemory stores) s.1 (some s.2) := by
  rw [listMemory, List.foldl_append]
  rfl

theorem listMemory_eq_none {stores : List (ℕ × U64)} {i : ℕ}
    (h : ∀ s ∈ stores, s.1 ≠ i) : listMemory stores i = none := by
  induction stores using List.reverseRecOn with
  | nil => rfl
  | append_singleton ss s ih =>
      have hs : s.1 ≠ i := h s (by simp)
      rw [listMemory_append_singleton, Function.update_of_ne hs.symm]
      exact ih fun t ht => h t (by simp [ht])

theorem listMemory_eq_some {stores : List (ℕ × U64)}
    (hsorted : (stores.map Prod.fst).Pairwise (· < ·)) {s : ℕ × U64} (hs : s ∈ stores) :
    listMemory stores s.1 = some s.2 := by
  induction stores using List.reverseRecOn with
  | nil => simp at hs
  | append_singleton ss t ih =>
      rw [List.map_append, List.pairwise_append] at hsorted
      rw [listMemory_append_singleton]
      rcases List.mem_append.mp hs with hss | ht
      · have hlt : s.1 < t.1 := hsorted.2.2 s.1 (List.mem_map_of_mem hss) t.1 (by simp)
        rw [Function.update_of_ne hlt.ne]
        exact ih hsorted.1 hss
      · rw [List.mem_singleton.mp ht, Function.update_self]

theorem listRead_slot (base : U64) (stores : List (ℕ × U64)) {i : ℕ}
    (hi : 8 * i < 2 ^ 64) :
    listRead base stores (base + BitVec.ofNat 64 (8 * i)) = listMemory stores i := by
  have hoff : (base + BitVec.ofNat 64 (8 * i) - base).toNat = 8 * i := by
    rw [add_sub_cancel_left, BitVec.toNat_ofNat, Nat.mod_eq_of_lt hi]
  simp only [listRead, hoff]
  rw [if_pos (by omega), Nat.mul_div_cancel_left i (by omega)]

/-! ## The data behind a list of pages -/

/-- The first `rem` bytes of the pages that are listed. -/
def pageBytes (pagesize : ℕ) : List U64 → ℕ → List U64
  | [], _ => []
  | page :: pages, rem =>
      byteRange page (min rem pagesize) ++ pageBytes pagesize pages (rem - min rem pagesize)

theorem pageBytes_append (pagesize : ℕ) (pages pages' : List U64) (rem : ℕ) :
    pageBytes pagesize (pages ++ pages') rem =
      pageBytes pagesize pages rem ++
        pageBytes pagesize pages' (rem - pages.length * pagesize) := by
  induction pages generalizing rem with
  | nil => simp [pageBytes]
  | cons page pages ih =>
      have hrem : rem - min rem pagesize - pages.length * pagesize =
          rem - (pages.length + 1) * pagesize := by
        rw [Nat.add_mul]
        omega
      rw [List.cons_append, pageBytes, pageBytes, ih, List.append_assoc, List.length_cons,
        hrem]

def pagesFrom (iova : U64) (pageshift start n : ℕ) : List U64 :=
  (List.range' start n).map fun i => iova + BitVec.ofNat 64 (i * 2 ^ pageshift)

@[simp] theorem length_pagesFrom (iova : U64) (pageshift start n : ℕ) :
    (pagesFrom iova pageshift start n).length = n := by
  simp [pagesFrom]

/-- Consecutive pages hold consecutive bytes. -/
theorem pageBytes_pagesFrom (iova : U64) (pageshift start n rem : ℕ) :
    pageBytes (2 ^ pageshift) (pagesFrom iova pageshift start n) rem =
      byteRange (iova + BitVec.ofNat 64 (start * 2 ^ pageshift))
        (min rem (n * 2 ^ pageshift)) := by
  induction n generalizing start rem with
  | zero => simp [pagesFrom, pageBytes]
  | succ n ih =>
      have hcons : pagesFrom iova pageshift start (n + 1) =
          (iova + BitVec.ofNat 64 (start * 2 ^ pageshift)) ::
            pagesFrom iova pageshift (start + 1) n := by
        simp [pagesFrom, List.range'_succ]
      rw [hcons, pageBytes, ih, Nat.add_mul n]
      by_cases hrem : rem ≤ 2 ^ pageshift
      · have hzero : rem - min rem (2 ^ pageshift) = 0 := by omega
        rw [hzero, Nat.min_eq_left hrem, Nat.zero_min, byteRange_zero, List.append_nil,
          Nat.min_eq_left (by omega)]
      · have hsplit : min rem (n * 2 ^ pageshift + 1 * 2 ^ pageshift) =
            2 ^ pageshift + min (rem - 2 ^ pageshift) (n * 2 ^ pageshift) := by omega
        rw [hsplit, byteRange_add, Nat.min_eq_right (by omega), add_assoc, ← BitVec.ofNat_add,
          Nat.add_mul start, Nat.one_mul]

end Nvme

end Libvfn
