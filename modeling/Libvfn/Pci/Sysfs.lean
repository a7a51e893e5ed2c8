import Libvfn.Support.Align
import Mathlib.Data.List.Range

/-!
# Reading a number from sysfs

`pci_device_info_get_ull` reads a file of a PCI device into an array of 32 bytes, puts a zero
behind what it has read and takes the text for a number. The reading is done by `readmaxfd`,
which asks for what is left of the array until it is full or the file ends. How much `read`
gives, and how often it is interrupted, is up to the kernel.

The loop stays inside the array that it is given, for all files and all answers of the kernel.
The zero has its place in the array only as long as the array was not filled: a file of 32 bytes
or more has it stored behind the end.
-/

namespace Libvfn

namespace Pci

open Word Support

inductive ReadAnswer where
  | failed (e : Errno)
  | transfers (n : ℕ)
  deriving DecidableEq

def ReadAnswer.interrupted : ReadAnswer → Bool
  | .failed e => e = .EINTR ∨ e = .EAGAIN
  | .transfers _ => false

/-- What a function has stored, each byte with its place in the array, and what it returns unless
it still waits for the kernel. -/
structure ReadOutcome where
  ret : Option (Except Errno ℕ)
  stores : List (BitVec 8 × ℕ)
  deriving DecidableEq

/-- The loop of `readmaxfd`, from `pos` bytes on. The kernel transfers the next bytes of the file,
and never more than it is asked for. -/
def readmaxfdFrom (content : List (BitVec 8)) (count : ℕ) :
    ℕ → List (BitVec 8 × ℕ) → List ReadAnswer → ReadOutcome
  | _, stores, [] => ⟨none, stores⟩
  | pos, stores, .failed e :: answers =>
      if e = .EINTR ∨ e = .EAGAIN then
        -- the `continue` of a `do` loop still has its condition tested
        if pos < count then readmaxfdFrom content count pos stores answers
        else ⟨some (.ok pos), stores⟩
      else ⟨some (.error e), stores⟩
  | pos, stores, .transfers n :: answers =>
      let data := (content.drop pos).take (min n (count - pos))
      if data.length = 0 then ⟨some (.ok pos), stores⟩
      else if pos + data.length < count then
        readmaxfdFrom content count (pos + data.length) (stores ++ data.zipIdx pos) answers
      else ⟨some (.ok (pos + data.length)), stores ++ data.zipIdx pos⟩

/-- `readmaxfd`, on a file that has `content` from its position on. -/
def readmaxfd (content : List (BitVec 8)) (count : ℕ) (answers : List ReadAnswer) : ReadOutcome :=
  readmaxfdFrom content count 0 [] answers

structure ReadmaxAnswers where
  opened : Except Errno Unit
  reads : List ReadAnswer
  closed : Bool

/-- `readmax`. If the file cannot be closed, the process ends. -/
def readmax (content : List (BitVec 8)) (count : ℕ) (sys : ReadmaxAnswers) : ReadOutcome :=
  match sys.opened with
  | .error e => ⟨some (.error e), []⟩
  | .ok () =>
      let out := readmaxfd content count sys.reads
      ⟨if sys.closed then out.ret else none, out.stores⟩

/-- What `strtoull` makes of a text: the value, the number of characters it has used, and what it
leaves in `errno`. -/
structure Strtoull where
  value : U64
  endptr : ℕ
  errno : Option Errno

structure InfoOutcome where
  ret : Option (Except Errno Unit)
  v : Option U64
  stores : List (BitVec 8 × ℕ)

/-- The text in an array that was filled from the start on. -/
def textOf (stores : List (BitVec 8 × ℕ)) : List (BitVec 8) :=
  (stores.map Prod.fst).takeWhile (· ≠ 0)

/-- `pci_device_info_get_ull`, where `path` is what becomes of `asprintf`. -/
def pciDeviceInfoGetUll (strtoull : List (BitVec 8) → Strtoull) (path : Except Errno Unit)
    (content : List (BitVec 8)) (sys : ReadmaxAnswers) : InfoOutcome :=
  match path with
  | .error e => ⟨some (.error e), none, []⟩
  | .ok () =>
      let out := readmax content 32 sys
      match out.ret with
      | none => ⟨none, none, out.stores⟩
      | some (.error e) => ⟨some (.error e), none, out.stores⟩
      | some (.ok ret) =>
          let stores := out.stores ++ [(0, ret)]
          let number := strtoull (textOf stores)
          let errno := if number.endptr = 0 then some .EINVAL else number.errno
          ⟨some (errno.elim (.ok ()) .error), some number.value, stores⟩

/-! ## The loop -/

section Loop

variable {content : List (BitVec 8)} {count pos : ℕ} {stores : List (BitVec 8 × ℕ)}

/-- The bytes that were stored are the first ones of the file, from the start of the array on and
inside of it, and their number is returned. -/
structure ReadInside (content : List (BitVec 8)) (count : ℕ) (out : ReadOutcome) : Prop where
  stores_eq : out.stores = (content.take out.stores.length).zipIdx
  length_le : out.stores.length ≤ count
  inside : ∀ s ∈ out.stores, s.2 < count
  ret_eq : ∀ n, out.ret = some (.ok n) → n = out.stores.length

structure ReadUpTo (content : List (BitVec 8)) (count pos : ℕ)
    (stores : List (BitVec 8 × ℕ)) : Prop where
  le_count : pos ≤ count
  le_length : pos ≤ content.length
  stores_eq : stores = (content.take pos).zipIdx

theorem ReadUpTo.length_eq (h : ReadUpTo content count pos stores) : stores.length = pos := by
  rw [h.stores_eq, List.length_zipIdx, List.length_take, min_eq_left h.le_length]

theorem ReadUpTo.readInside (h : ReadUpTo content count pos stores)
    {ret : Option (Except Errno ℕ)} (hret : ∀ n, ret = some (.ok n) → n = pos) :
    ReadInside content count ⟨ret, stores⟩ := by
  refine ⟨?_, h.length_eq.trans_le h.le_count, fun s hs => ?_, fun n hn => ?_⟩
  · rw [h.length_eq, ← h.stores_eq]
  · rw [h.stores_eq] at hs
    have hlt := List.snd_lt_of_mem_zipIdx hs
    rw [List.length_take] at hlt
    have hle := h.le_count
    omega
  · rw [hret n hn, h.length_eq]

theorem ReadUpTo.transfer (h : ReadUpTo content count pos stores) (n : ℕ) :
    let data := (content.drop pos).take (min n (count - pos))
    ReadUpTo content count (pos + data.length) (stores ++ data.zipIdx pos) := by
  intro data
  have hlength : data.length = min (min n (count - pos)) (content.length - pos) := by
    rw [List.length_take, List.length_drop]
  have hdata : (content.drop pos).take data.length = data := by
    rw [hlength, ← List.length_drop, ← List.take_take, List.take_length]
  have hcount := h.le_count
  have hle := h.le_length
  refine ⟨by omega, by omega, ?_⟩
  rw [List.take_add, hdata, List.zipIdx_append, List.length_take, min_eq_left hle, Nat.zero_add,
    h.stores_eq]

theorem readInside_readmaxfdFrom (h : ReadUpTo content count pos stores)
    (answers : List ReadAnswer) :
    ReadInside content count (readmaxfdFrom content count pos stores answers) := by
  induction answers generalizing pos stores with
  | nil => exact h.readInside nofun
  | cons answer answers ih =>
      cases answer with
      | failed e =>
          rw [readmaxfdFrom]
          split_ifs with hagain hpos
          · exact ih h
          · exact h.readInside (by simp [eq_comm])
          · exact h.readInside nofun
      | transfers n =>
          have hnext := h.transfer n
          rw [readmaxfdFrom]
          dsimp only at hnext ⊢
          split_ifs with hend hpos
          · exact h.readInside (by simp [eq_comm])
          · exact ih hnext
          · exact hnext.readInside (by simp [eq_comm])

/-- A call that is not interrupted ends the loop or gets a byte, so that `count` of them are
enough. -/
theorem readmaxfdFrom_returns (stores : List (BitVec 8 × ℕ)) (answers : List ReadAnswer)
    (hanswers : max 1 (count - pos) ≤ answers.countP (!·.interrupted)) :
    ∃ ret, (readmaxfdFrom content count pos stores answers).ret = some ret := by
  induction answers generalizing pos stores with
  | nil => simp at hanswers
  | cons answer answers ih =>
      cases answer with
      | failed e =>
          rw [readmaxfdFrom]
          split_ifs with hagain hpos
          · have hint : (ReadAnswer.failed e).interrupted = true := decide_eq_true hagain
            rw [List.countP_cons_of_neg (by simp [hint])] at hanswers
            exact ih stores hanswers
          · exact ⟨_, rfl⟩
          · exact ⟨_, rfl⟩
      | transfers n =>
          rw [readmaxfdFrom]
          split_ifs with hend hpos
          · exact ⟨_, rfl⟩
          · rw [List.countP_cons_of_pos (by rfl)] at hanswers
            exact ih _ (by omega)
          · exact ⟨_, rfl⟩

end Loop

/-! ## The array of the number -/

section Number

variable {content : List (BitVec 8)}

theorem readInside_readmaxfd (content : List (BitVec 8)) (count : ℕ) (answers : List ReadAnswer) :
    ReadInside content count (readmaxfd content count answers) :=
  readInside_readmaxfdFrom ⟨Nat.zero_le _, Nat.zero_le _, rfl⟩ answers

theorem readmaxfd_returns (content : List (BitVec 8)) {count : ℕ} {answers : List ReadAnswer}
    (hanswers : max 1 count ≤ answers.countP (!·.interrupted)) :
    ∃ ret, (readmaxfd content count answers).ret = some ret :=
  readmaxfdFrom_returns [] answers (by rwa [Nat.sub_zero])

theorem readInside_readmax (content : List (BitVec 8)) (count : ℕ) (sys : ReadmaxAnswers) :
    ReadInside content count (readmax content count sys) := by
  rw [readmax]
  cases sys.opened with
  | error e => exact ⟨rfl, Nat.zero_le _, nofun, nofun⟩
  | ok _ =>
      have hread := readInside_readmaxfd content count sys.reads
      refine ⟨hread.stores_eq, hread.length_le, hread.inside, fun n hn => hread.ret_eq n ?_⟩
      dsimp only at hn
      split_ifs at hn
      exact hn

/-- The array takes what is read and the zero behind it unless 32 bytes are read. -/
theorem stores_lt_iff (strtoull : List (BitVec 8) → Strtoull) (content : List (BitVec 8))
    (sys : ReadmaxAnswers) :
    (∀ s ∈ (pciDeviceInfoGetUll strtoull (.ok ()) content sys).stores, s.2 < 32) ↔
      (readmax content 32 sys).ret ≠ some (.ok 32) := by
  have hread := readInside_readmax content 32 sys
  rw [pciDeviceInfoGetUll]
  dsimp only
  generalize readmax content 32 sys = out at hread ⊢
  obtain ⟨_ | e | ret, stores⟩ := out
  · exact iff_of_true hread.inside nofun
  · exact iff_of_true hread.inside nofun
  · have hret : ret = stores.length := hread.ret_eq ret rfl
    have hle : stores.length ≤ 32 := hread.length_le
    constructor
    · intro hinside hfull
      obtain rfl : ret = 32 := Except.ok.inj (Option.some.inj hfull)
      exact absurd (hinside (0, 32) (List.mem_append_right _ List.mem_cons_self)) (by decide)
    · intro hne s hs
      have hret32 : ret ≠ 32 := fun h => hne (by rw [h])
      rcases List.mem_append.mp hs with hread' | hzero
      · exact hread.inside s hread'
      · rw [List.mem_singleton.mp hzero]
        omega

theorem readmax_ret_ne (hlength : content.length < 32) (sys : ReadmaxAnswers) :
    (readmax content 32 sys).ret ≠ some (.ok 32) := by
  intro hret
  have hread := readInside_readmax content 32 sys
  have hstores := congrArg List.length hread.stores_eq
  rw [List.length_zipIdx, List.length_take, ← hread.ret_eq 32 hret] at hstores
  omega

theorem readmax_ret_eq (hlength : 32 ≤ content.length) :
    (readmax content 32 ⟨.ok (), [.transfers 32], true⟩).ret = some (.ok 32) := by
  have hdata : ((content.drop 0).take (min 32 (32 - 0))).length = 32 := by
    rw [List.length_take, List.drop_zero]
    omega
  rw [readmax, readmaxfd, readmaxfdFrom]
  dsimp only
  rw [hdata]
  rfl

end Number

/-- `readmaxfd` stores inside of its array and returns the number of bytes, for every file and all
answers of the kernel, and it returns if the kernel does not interrupt it forever. What
`pci_device_info_get_ull` stores is inside of its array exactly if less than 32 bytes are read,
which is sure for the files that are shorter, and for no others. -/
theorem sysfs_number_inside_iff (content : List (BitVec 8))
    (strtoull : List (BitVec 8) → Strtoull) :
    (∀ count answers, ReadInside content count (readmaxfd content count answers) ∧
        (max 1 count ≤ answers.countP (!·.interrupted) →
          ∃ ret, (readmaxfd content count answers).ret = some ret)) ∧
      (∀ sys, (∀ s ∈ (pciDeviceInfoGetUll strtoull (.ok ()) content sys).stores, s.2 < 32) ↔
        (readmax content 32 sys).ret ≠ some (.ok 32)) ∧
      ((∀ path sys, ∀ s ∈ (pciDeviceInfoGetUll strtoull path content sys).stores, s.2 < 32) ↔
        content.length < 32) := by
  refine ⟨fun count answers => ⟨readInside_readmaxfd content count answers,
    readmaxfd_returns content⟩, stores_lt_iff strtoull content, ?_, ?_⟩
  · intro hinside
    by_contra hlength
    exact (stores_lt_iff strtoull content _).mp (hinside (.ok ()) _)
      (readmax_ret_eq (not_lt.mp hlength))
  · intro hlength path sys
    cases path with
    | error e => exact nofun
    | ok _ => exact (stores_lt_iff strtoull content sys).mpr (readmax_ret_ne hlength sys)

/-- A number of 32 digits has its zero stored behind the array, also if it comes in two pieces
with an interruption between them. -/
theorem sysfs_number_outside :
    (0, 32) ∈ (pciDeviceInfoGetUll (fun text => ⟨0, text.length, none⟩) (.ok ())
      (List.replicate 32 0x30)
      ⟨.ok (), [.transfers 20, .failed .EINTR, .transfers 4096], true⟩).stores := by
  decide

end Pci

end Libvfn
