import Libvfn.Foundation.Ring
import Libvfn.Foundation.Run
import Libvfn.Nvme.Queue

/-!
# Shadow doorbells lose no wakeup

With shadow doorbells the host writes the new tail to memory and skips the write of
the doorbell register if the controller does not wait for it. The controller, for its
part, goes to sleep only after it has stored the tail it has seen in `eventidx` and
has found that the shadow doorbell still has this value.

Each load and each store of either side is a step of its own here. The host is between
two steps of `nvme_sq_update_tail` most of the time, and `updateTail_run` says that
these steps compute what `nvmeSqUpdateTail` does. What is shown is that the controller
does not sleep over a new tail: it sleeps only as long as the shadow doorbell has the
value it has seen, the host is still about to write the register, or the register was
written and the write has not arrived yet.
-/

namespace Libvfn

namespace Nvme

open Runs

/-- Where the host is in `nvme_sq_update_tail`, and the values of its variables. -/
inductive HostPc where
  | idle
  /-- The old value of the shadow doorbell was loaded. -/
  | loaded (old : BitVec 32)
  /-- The new tail was stored in the shadow doorbell. -/
  | stored (old : BitVec 32)
  /-- The register is to be written. -/
  | mmio
  deriving DecidableEq

/-- How far the controller is on its way to sleep. -/
inductive CtrlPc where
  | running
  /-- The tail it has seen was stored in `eventidx`. -/
  | told
  /-- The shadow doorbell was read again and has not changed. -/
  | checked
  | asleep
  deriving DecidableEq

structure DbState (β : Type*) where
  sq : NvmeSq β
  host : HostPc
  pending : Bool
  seen : BitVec 16
  ctrl : CtrlPc

inductive HostOp (β : Type*) where
  | post (sqe : NvmeSqe β)
  /-- An update starts, and the old value of the shadow doorbell is loaded. -/
  | loadOld
  | storeTail
  /-- Load `eventidx` and decide on the register. -/
  | loadEventidx
  | writeMmio

inductive CtrlOp where
  /-- Take the tail from the shadow doorbell. -/
  | see
  | storeEventidx
  /-- Read the shadow doorbell again. -/
  | recheck
  | sleep
  /-- The write of the register arrives and makes the controller run. It may take the
  tail from the register. -/
  | wake (take : Bool)
  /-- The write of the register arrives before the shadow doorbell is read again, and
  changes nothing. -/
  | ignore

inductive DbOp (β : Type*) where
  | host (op : HostOp β)
  | ctrl (op : CtrlOp)

section Step

variable {β : Type*}

/-- One step of the host. An update of a tail that was told already returns at once, and
is no step. -/
def hostStep (s : DbState β) (db : NvmeDbbuf) : HostOp β → Option (DbState β)
  | .post sqe => if s.host = .idle then some { s with sq := nvmeSqPost s.sq sqe } else none
  | .loadOld =>
      if s.host = .idle ∧ s.sq.tail ≠ s.sq.ptail then
        some { s with host := .loaded db.doorbell }
      else none
  | .storeTail =>
      match s.host with
      | .loaded old =>
          some { s with
            host := .stored old
            sq := { s.sq with dbbuf := some { db with doorbell := s.sq.tail.setWidth 32 } } }
      | _ => none
  | .loadEventidx =>
      match s.host with
      | .stored old =>
          if nvmeNeedMmio (db.eventidx.setWidth 16) s.sq.tail (old.setWidth 16) then
            some { s with host := .mmio }
          else some { s with host := .idle, sq := { s.sq with ptail := s.sq.tail } }
      | _ => none
  | .writeMmio =>
      if s.host = .mmio then
        some { s with
          host := .idle
          pending := true
          sq := { s.sq with doorbell := s.sq.tail.setWidth 32, ptail := s.sq.tail } }
      else none

def ctrlStep (s : DbState β) (db : NvmeDbbuf) : CtrlOp → Option (DbState β)
  | .see => if s.ctrl = .running then some { s with seen := db.doorbell.setWidth 16 } else none
  | .storeEventidx =>
      if s.ctrl = .running then
        some { s with
          ctrl := .told
          sq := { s.sq with dbbuf := some { db with eventidx := s.seen.setWidth 32 } } }
      else none
  | .recheck =>
      if s.ctrl = .told then
        some { s with ctrl := if db.doorbell = s.seen.setWidth 32 then .checked else .running }
      else none
  | .sleep => if s.ctrl = .checked then some { s with ctrl := .asleep } else none
  | .wake take =>
      if s.pending then
        some { s with
          pending := false
          ctrl := .running
          seen := if take then s.sq.doorbell.setWidth 16 else s.seen }
      else none
  | .ignore =>
      if s.pending ∧ (s.ctrl = .running ∨ s.ctrl = .told) then some { s with pending := false }
      else none

def dbStep (s : DbState β) (op : DbOp β) : Option (DbState β) :=
  s.sq.dbbuf.bind fun db =>
    match op with
    | .host op => hostStep s db op
    | .ctrl op => ctrlStep s db op

def dbInit (qsize : ℕ) (mem : ℕ → NvmeSqe β) (ctrl : CtrlPc) : DbState β where
  sq := nvmeConfigureSq qsize mem (some ⟨0, 0⟩)
  host := .idle
  pending := false
  seen := 0
  ctrl := ctrl

/-- The controller sleeps over a tail it has not seen, and nothing is under way to wake
it. -/
def Lost (s : DbState β) : Prop :=
  s.ctrl = .asleep ∧ s.pending = false ∧ s.host = .idle ∧
    ∃ db, s.sq.dbbuf = some db ∧ db.doorbell ≠ s.seen.setWidth 32

end Step

/-! ## The steps of an update -/

section Update

variable {β : Type*}

/-- The steps of an update: the register is written if it has to be. -/
def updateTailOps (sq : NvmeSq β) : List (DbOp β) :=
  [.host .loadOld, .host .storeTail, .host .loadEventidx] ++
    if (nvmeTryDbbuf sq.tail sq.dbbuf).1 then [.host .writeMmio] else []

/-- Without a step of the controller in between, the steps of an update are
`nvme_sq_update_tail`. -/
theorem updateTail_run {s : DbState β} {db : NvmeDbbuf} (hdb : s.sq.dbbuf = some db)
    (hidle : s.host = .idle) (htail : s.sq.tail ≠ s.sq.ptail) :
    run dbStep s (updateTailOps s.sq) =
      some { s with
        sq := nvmeSqUpdateTail s.sq
        pending := s.pending || (nvmeTryDbbuf s.sq.tail s.sq.dbbuf).1 } := by
  obtain ⟨sq, host, pending, seen, ctrl⟩ := s
  dsimp only at hdb hidle htail
  subst hidle
  rw [updateTailOps, nvmeSqUpdateTail, if_neg htail, hdb, nvmeTryDbbuf]
  cases hneed : nvmeNeedMmio (db.eventidx.setWidth 16) sq.tail (db.doorbell.setWidth 16) with
  | true => simp [run, dbStep, hostStep, hdb, htail, hneed]
  | false => simp [run, dbStep, hostStep, hdb, htail, hneed]

end Update

/-! ## The window -/

/-- The register is written if the controller waits for one of the values that the doorbell
goes through, the new one included. The values wrap around at the size of the queue, the
difference of two of them at sixteen bits. -/
theorem nvmeNeedMmio_iff_between {qsize : ℕ} {eventidx val old : BitVec 16}
    (heventidx : eventidx.toNat < qsize) (hval : val.toNat < qsize) (hold : old.toNat < qsize)
    (hne : old ≠ val) :
    nvmeNeedMmio eventidx val old = true ↔
      Ring.Between qsize old.toNat val.toNat eventidx.toNat ∨ eventidx = val := by
  rw [nvmeNeedMmio, decide_eq_true_iff]
  exact Ring.sub_le_sub_iff_between heventidx hold hval hne

/-- The doorbell goes from the last value of a queue of 1000 entries to the second one. -/
theorem nvmeNeedMmio_iff_between_wrapped :
    nvmeNeedMmio 0 1 999 = true ∧ Ring.Between 1000 999 1 0 := by
  have hiff : nvmeNeedMmio 0 1 999 = true ↔ Ring.Between 1000 999 1 0 ∨ (0 : BitVec 16) = 1 :=
    nvmeNeedMmio_iff_between (by decide) (by decide) (by decide) (by decide)
  have hneed : nvmeNeedMmio 0 1 999 = true := by decide
  exact ⟨hneed, (hiff.mp hneed).resolve_right (by decide)⟩

/-! ## The handshake -/

section Handshake

variable {β : Type*} {s s' : DbState β} {db : NvmeDbbuf}

/-- What holds between the steps. Once the controller has found the shadow doorbell
unchanged, the first update that changes it has loaded the value the controller has
seen. -/
structure DbInv (s : DbState β) (db : NvmeDbbuf) : Prop where
  dbbuf : s.sq.dbbuf = some db
  told : s.ctrl ≠ .running → db.eventidx = s.seen.setWidth 32
  old : ∀ old, s.host = .loaded old → old = db.doorbell
  wakes : s.ctrl = .checked ∨ s.ctrl = .asleep → s.pending = false →
    db.doorbell = s.seen.setWidth 32 ∨ s.host = .stored (s.seen.setWidth 32) ∨ s.host = .mmio

@[simp]
theorem nvmeNeedMmio_self (v t : BitVec 16) : nvmeNeedMmio t v t = true :=
  decide_eq_true (BitVec.le_refl _)

theorem setWidth_setWidth_tail (v : BitVec 16) : (v.setWidth 32).setWidth 16 = v := by
  rw [BitVec.setWidth_setWidth_of_le _ (by decide), BitVec.setWidth_eq]

theorem DbInv.hostStep (h : DbInv s db) {op : HostOp β} (hstep : hostStep s db op = some s') :
    ∃ db', DbInv s' db' := by
  cases op with
  | post sqe =>
      obtain ⟨-, ⟨⟩⟩ := Option.ite_none_right_eq_some.mp hstep
      refine ⟨db, ?_, h.told, h.old, h.wakes⟩
      rw [nvmeSqPost_eq]
      exact h.dbbuf
  | loadOld =>
      obtain ⟨⟨hidle, -⟩, ⟨⟩⟩ := Option.ite_none_right_eq_some.mp hstep
      refine ⟨db, h.dbbuf, h.told, ?_, ?_⟩
      · rintro old ⟨⟩
        rfl
      · intro hctrl hpending
        have hsafe := h.wakes hctrl hpending
        rw [hidle] at hsafe
        simpa using hsafe
  | storeTail =>
      cases hhost : s.host with
      | loaded old =>
          simp only [Nvme.hostStep, hhost, Option.some.injEq] at hstep
          subst hstep
          have hold : old = db.doorbell := h.old old hhost
          refine ⟨_, rfl, h.told, fun _ hl => (nomatch hl), ?_⟩
          intro hctrl hpending
          have hsafe := h.wakes hctrl hpending
          simp only [hhost, reduceCtorEq, or_false] at hsafe
          exact .inr (.inl (congrArg HostPc.stored (hold.trans hsafe)))
      | _ => simp [Nvme.hostStep, hhost] at hstep
  | loadEventidx =>
      cases hhost : s.host with
      | stored old =>
          simp only [Nvme.hostStep, hhost] at hstep
          have hring : s.ctrl = .checked ∨ s.ctrl = .asleep → s.pending = false →
              db.doorbell ≠ s.seen.setWidth 32 →
                nvmeNeedMmio (db.eventidx.setWidth 16) s.sq.tail (old.setWidth 16) = true := by
            intro hctrl hpending hne
            have hsafe := h.wakes hctrl hpending
            simp only [hne, hhost, reduceCtorEq, false_or, or_false, HostPc.stored.injEq] at hsafe
            have hrun : s.ctrl ≠ .running := by
              rcases hctrl with hc | hc <;> simp [hc]
            rw [hsafe, h.told hrun, setWidth_setWidth_tail]
            exact nvmeNeedMmio_self _ _
          by_cases hneed :
              nvmeNeedMmio (db.eventidx.setWidth 16) s.sq.tail (old.setWidth 16) = true
          · rw [if_pos hneed, Option.some.injEq] at hstep
            subst hstep
            exact ⟨db, h.dbbuf, h.told, fun _ hl => (nomatch hl), fun _ _ => .inr (.inr rfl)⟩
          · rw [if_neg hneed, Option.some.injEq] at hstep
            subst hstep
            refine ⟨db, h.dbbuf, h.told, fun _ hl => (nomatch hl), fun hctrl hpending => .inl ?_⟩
            by_contra hne
            exact hneed (hring hctrl hpending hne)
      | _ => simp [Nvme.hostStep, hhost] at hstep
  | writeMmio =>
      obtain ⟨-, ⟨⟩⟩ := Option.ite_none_right_eq_some.mp hstep
      exact ⟨db, h.dbbuf, h.told, fun _ hl => (nomatch hl), fun _ hpending => nomatch hpending⟩

theorem DbInv.ctrlStep (h : DbInv s db) {op : CtrlOp} (hstep : ctrlStep s db op = some s') :
    ∃ db', DbInv s' db' := by
  cases op with
  | see =>
      obtain ⟨hrun, ⟨⟩⟩ := Option.ite_none_right_eq_some.mp hstep
      refine ⟨db, h.dbbuf, fun hne => absurd hrun hne, h.old, ?_⟩
      intro hctrl
      simp [hrun] at hctrl
  | storeEventidx =>
      obtain ⟨-, ⟨⟩⟩ := Option.ite_none_right_eq_some.mp hstep
      refine ⟨_, rfl, fun _ => rfl, h.old, ?_⟩
      intro hctrl
      simp at hctrl
  | recheck =>
      obtain ⟨htold, ⟨⟩⟩ := Option.ite_none_right_eq_some.mp hstep
      refine ⟨db, h.dbbuf, fun _ => h.told (by simp [htold]), h.old, ?_⟩
      intro hctrl _
      by_cases hsame : db.doorbell = s.seen.setWidth 32
      · exact .inl hsame
      · simp [hsame] at hctrl
  | sleep =>
      obtain ⟨hchecked, ⟨⟩⟩ := Option.ite_none_right_eq_some.mp hstep
      exact ⟨db, h.dbbuf, fun _ => h.told (by simp [hchecked]), h.old,
        fun _ => h.wakes (.inl hchecked)⟩
  | wake take =>
      obtain ⟨-, ⟨⟩⟩ := Option.ite_none_right_eq_some.mp hstep
      refine ⟨db, h.dbbuf, fun hne => absurd rfl hne, h.old, ?_⟩
      intro hctrl
      simp at hctrl
  | ignore =>
      obtain ⟨⟨-, hawake⟩, ⟨⟩⟩ := Option.ite_none_right_eq_some.mp hstep
      refine ⟨db, h.dbbuf, h.told, h.old, ?_⟩
      intro hctrl
      rcases hawake with ha | ha <;> simp [ha] at hctrl

theorem dbInv_step {op : DbOp β} (h : ∃ db, DbInv s db) (hstep : dbStep s op = some s') :
    ∃ db, DbInv s' db := by
  obtain ⟨db, h⟩ := h
  rw [dbStep, h.dbbuf, Option.bind_some] at hstep
  cases op with
  | host op => exact h.hostStep hstep
  | ctrl op => exact h.ctrlStep hstep

/-- Whatever the size of the queue and however the steps of the two sides interleave, the
controller does not sleep over a tail it has not seen. -/
theorem doorbell_not_lost (qsize : ℕ) (mem : ℕ → NvmeSqe β) (ctrl : CtrlPc)
    (ops : List (DbOp β)) (hrun : run dbStep (dbInit qsize mem ctrl) ops = some s) :
    ¬ Lost s := by
  have hinit : ∃ db, DbInv (dbInit qsize mem ctrl) db :=
    ⟨⟨0, 0⟩, rfl, fun _ => rfl, fun _ hl => (nomatch hl), fun _ _ => .inl rfl⟩
  obtain ⟨db, h⟩ := run_invariant_of_step (fun _ _ _ => dbInv_step) hinit hrun
  rintro ⟨hasleep, hpending, hidle, db', hdb', hne⟩
  obtain rfl : db = db' := Option.some.inj (h.dbbuf.symm.trans hdb')
  have hsafe := h.wakes (.inr hasleep) hpending
  simp [hidle, hne] at hsafe

end Handshake

/-- The host changes the shadow doorbell between the controller's second look and its
sleep, and writes the register. -/
theorem doorbell_not_lost_late :
    ∃ s : DbState Unit,
      run dbStep (dbInit 4 (fun _ => ⟨0, ()⟩) .running)
        [.ctrl .storeEventidx, .host (.post ⟨0, ()⟩), .host .loadOld, .ctrl .recheck,
          .host .storeTail, .ctrl .sleep, .host .loadEventidx, .host .writeMmio] = some s ∧
      s.ctrl = .asleep ∧ s.pending = true ∧ ¬ Lost s := by
  refine ⟨_, rfl, rfl, rfl, ?_⟩
  exact doorbell_not_lost 4 (fun _ => ⟨0, ()⟩) .running
    [.ctrl .storeEventidx, .host (.post ⟨0, ()⟩), .host .loadOld, .ctrl .recheck,
      .host .storeTail, .ctrl .sleep, .host .loadEventidx, .host .writeMmio] rfl

end Nvme

end Libvfn
