import Libvfn.Iommu.Temporary
import Libvfn.Nvme.Prp.Encode
import Libvfn.Nvme.Reap
import Libvfn.Nvme.Trackers

/-!
# Synchronous commands

`nvme_sync` submits one command and waits for its completion. It may be given a buffer that
is not mapped; it then maps the buffer for the time of the command. After that it takes a
tracker, sets the data pointer of the command up, posts the command, and spins until the
completion with the identifier of the tracker arrives. On the way out it releases the tracker
and unmaps the buffer.

There is one way out that does not come by there: without a free tracker the function returns
at once, and a buffer that it has mapped stays mapped. On all others the mappings and the
trackers are as they were, whatever the map, the buffer, the backend and the device are. The
counter of the backend has another way to go wrong, as a block that was reserved stays counted
when the buffer cannot be mapped.
-/

namespace Libvfn

namespace Nvme

open Word Support Iommu

/-! ## Waiting for a completion -/

def nvmeCqeOk (cqe : NvmeCqe) : Bool := cqe.sfp >>> 1 = 0

def nvmeSetErrnoFromCqe (cqe : NvmeCqe) : Except Errno Unit :=
  if cqe.sfp >>> 1 ≠ 0 then .error Errno.EIO else .ok ()

/-- `nvme_rq_wait`, with the memory of the queue at every look and the clock. The result has
what the entry of the caller holds afterwards, which was `copy` before. -/
def nvmeRqWait (fuel : ℕ) (mem : ℕ → ℕ → NvmeCqe) (ticks : ℕ → U64) (freq : U64)
    (cq : NvmeCq) (rq : ℕ) (copy : NvmeCqe) (ts : Option Timespec) :
    Option (Except Errno Unit × NvmeCqe × NvmeCq) :=
  (nvmeCqWaitCqes fuel mem ticks freq cq (some fun _ => copy) 1 ts).map fun out =>
    if out.ret ≠ 1 then (.error (out.errno.getD .ETIMEDOUT), copy, out.cq)
    else
      let cq := nvmeCqUpdateHead out.cq
      let cqe := (out.cqes.getD fun _ => copy) 0
      if cqe.cid ≠ BitVec.ofNat 16 rq then (.error .EAGAIN, cqe, cq)
      else if !nvmeCqeOk cqe then (nvmeSetErrnoFromCqe cqe, cqe, cq)
      else (.ok (), cqe, cq)

def nvmeRqSpin (fuel : ℕ) (mem : ℕ → ℕ → NvmeCqe) (cq : NvmeCq) (rq : ℕ) (copy : NvmeCqe) :
    Option (Except Errno Unit × NvmeCqe × NvmeCq) :=
  nvmeRqWait fuel mem (fun _ => 0) 0 cq rq copy none

/-! ## The function -/

/-- What a call finds: the page size and features of the controller, the pages of the
trackers, the completion queue at every look of every spin, and the number of turns that its
loops may take. -/
structure SyncEnv where
  config : NvmeConfig
  flags : U64
  rqPage : ℕ → U64
  mem : ℕ → ℕ → ℕ → NvmeCqe
  fuel : ℕ

structure SyncState (σ : Type*) where
  ctx : IommuCtx σ
  sq : NvmeSq NvmeCmd
  cq : NvmeCq
  rqs : Rqs
  pages : ℕ → ℕ → U64

structure SyncOutcome (σ : Type*) where
  ret : Except Errno Unit
  sqe : NvmeSqe NvmeCmd
  cqe : Option NvmeCqe
  state : SyncState σ

section Sync

variable {σ : Type*}

/-- The loop, from spin number `i` on. An entry for another command is skipped. -/
def syncSpin (env : SyncEnv) (rq : ℕ) :
    ℕ → ℕ → NvmeCqe → NvmeCq → Option (Except Errno Unit × NvmeCqe × NvmeCq)
  | 0, _, _, _ => none
  | turns + 1, i, cqe, cq =>
      match nvmeRqSpin env.fuel (env.mem i) cq rq cqe with
      | some (.error .EAGAIN, cqe, cq) => syncSpin env rq turns (i + 1) cqe cq
      | r => r

/-- The first part: the address of the buffer, and whether it has to be unmapped later. The
address that `iommu_map_vaddr` is given is not read, since it is not a fixed one. -/
def syncMap (ops : IommuCtxOps σ) (ctx : IommuCtx σ) (len : U64) :
    Option U64 → Except Errno (Option U64 × Bool) × IommuCtx σ
  | none => (.ok (none, false), ctx)
  | some buf =>
      match iommuTranslateVaddr ctx.map buf with
      | some iova => (.ok (some iova, false), ctx)
      | none =>
          match iommuMapVaddr ops ctx buf len 0 iommuMapEphemeral with
          | (.error e, ctx) => (.error e, ctx)
          | (.ok iova, ctx) => (.ok (some iova, true), ctx)

def syncExec (env : SyncEnv) (s : SyncState σ) (rq : ℕ) (sqe : NvmeSqe NvmeCmd)
    (garbage : NvmeCqe) : Option (SyncOutcome σ) :=
  let sq := nvmeSqUpdateTail (nvmeRqPost s.sq rq sqe)
  (syncSpin env rq env.fuel 0 garbage s.cq).map fun r =>
    ⟨r.1, nvmeRqPrepCmd rq sqe, some r.2.1, { s with sq := sq, cq := r.2.2 }⟩

def nvmeRqMapPrp (env : SyncEnv) (s : SyncState σ) (rq : ℕ) (sqe : NvmeSqe NvmeCmd)
    (iova len : U64) : PrpOutcome :=
  nvmeMapPrp ⟨s.ctx.map, env.config, env.flags⟩ (env.rqPage rq) (s.pages rq) 1 sqe.body iova len

def SyncState.stored (s : SyncState σ) (rq : ℕ) (stores : List (ℕ × U64)) : SyncState σ :=
  { s with
    pages := Function.update s.pages rq fun i => (listMemory stores i).getD (s.pages rq i) }

def syncCommand (env : SyncEnv) (s : SyncState σ) (rq : ℕ) (sqe : NvmeSqe NvmeCmd) (len : U64)
    (garbage : NvmeCqe) : Option U64 → Option (SyncOutcome σ)
  | none => syncExec env s rq sqe garbage
  | some iova =>
      let out := nvmeRqMapPrp env s rq sqe iova len
      let s := s.stored rq out.stores
      let sqe := { sqe with body := out.cmd }
      match out.ret with
      | .error e => some ⟨.error e, sqe, none, s⟩
      | .ok _ => syncExec env s rq sqe garbage

/-- The way out. It is the end of the process if the buffer cannot be unmapped. -/
def syncRelease (ops : IommuCtxOps σ) (env : SyncEnv) (s : SyncState σ) (rq : ℕ) (buf : Option U64)
    (doUnmap : Bool) : Option (SyncState σ) :=
  (nvmeRqReleaseAtomic env.fuel s.rqs rq).bind fun rqs =>
    match buf, doUnmap with
    | some buf, true =>
        match iommuUnmapVaddr ops s.ctx buf with
        | (.error _, _) => none
        | (.ok _, ctx) => some { s with ctx := ctx, rqs := rqs }
    | _, _ => some { s with rqs := rqs }

/-- The part behind the mapping: take a tracker, use it, and take the way out. Without a
tracker the function returns at once. -/
def syncTracked (ops : IommuCtxOps σ) (env : SyncEnv) (s : SyncState σ) (sqe : NvmeSqe NvmeCmd)
    (buf : Option U64) (len : U64) (garbage : NvmeCqe) (iova : Option U64) (doUnmap : Bool) :
    Option (SyncOutcome σ) :=
  (nvmeRqAcquireAtomic env.fuel s.rqs).bind fun r =>
    match r.1 with
    | none => some ⟨.error .EBUSY, sqe, none, { s with rqs := r.2 }⟩
    | some rq =>
        (syncCommand env { s with rqs := r.2 } rq sqe len garbage iova).bind fun out =>
          (syncRelease ops env out.state rq buf doUnmap).map fun s => { out with state := s }

/-- `nvme_sync`, with what its completion entry holds at first. -/
def nvmeSync (ops : IommuCtxOps σ) (env : SyncEnv) (s : SyncState σ) (sqe : NvmeSqe NvmeCmd)
    (buf : Option U64) (len : U64) (garbage : NvmeCqe) : Option (SyncOutcome σ) :=
  match syncMap ops s.ctx len buf with
  | (.error e, ctx) => some ⟨.error e, sqe, none, { s with ctx := ctx }⟩
  | (.ok (iova, doUnmap), ctx) =>
      syncTracked ops env { s with ctx := ctx } sqe buf len garbage iova doUnmap

/-! ## What a call can do -/

variable {ops : IommuCtxOps σ} {env : SyncEnv} {s s' : SyncState σ} {sqe : NvmeSqe NvmeCmd}
  {buf iova : Option U64} {len : U64} {garbage : NvmeCqe} {rq : ℕ} {out : SyncOutcome σ}

theorem syncExec_keeps (h : syncExec env s rq sqe garbage = some out) :
    out.state.ctx = s.ctx ∧ out.state.rqs = s.rqs := by
  obtain ⟨r, -, rfl⟩ := Option.map_eq_some_iff.mp h
  exact ⟨rfl, rfl⟩

theorem syncCommand_keeps (h : syncCommand env s rq sqe len garbage iova = some out) :
    out.state.ctx = s.ctx ∧ out.state.rqs = s.rqs := by
  cases iova with
  | none => exact syncExec_keeps h
  | some iova =>
      rw [syncCommand] at h
      cases hret : (nvmeRqMapPrp env s rq sqe iova len).ret with
      | error e =>
          rw [hret] at h
          obtain rfl := Option.some.inj h
          exact ⟨rfl, rfl⟩
      | ok u =>
          rw [hret] at h
          exact syncExec_keeps (s := s.stored rq _) h

inductive SyncsCtx (ops : IommuCtxOps σ) (s : SyncState σ) (buf : Option U64) (len : U64) :
    IommuCtx σ → Prop
  | needless (hmapped : ∀ b ∈ buf, iommuTranslateVaddr s.ctx.map b ≠ none) :
      SyncsCtx ops s buf len s.ctx
  | refused (b : U64) (e : Errno) (ctx : IommuCtx σ) (hbuf : buf = some b)
      (hmiss : iommuTranslateVaddr s.ctx.map b = none)
      (hmap : iommuMapVaddr ops s.ctx b len 0 iommuMapEphemeral = (.error e, ctx)) :
      SyncsCtx ops s buf len ctx
  | busy (b got : U64) (ctx : IommuCtx σ) (hbuf : buf = some b)
      (hmiss : iommuTranslateVaddr s.ctx.map b = none)
      (hmap : iommuMapVaddr ops s.ctx b len 0 iommuMapEphemeral = (.ok got, ctx))
      (htop : s.rqs.rqTop = none) : SyncsCtx ops s buf len ctx
  | undone (b got n : U64) (ctx ctx' : IommuCtx σ) (hbuf : buf = some b)
      (hmiss : iommuTranslateVaddr s.ctx.map b = none)
      (hmap : iommuMapVaddr ops s.ctx b len 0 iommuMapEphemeral = (.ok got, ctx))
      (htop : s.rqs.rqTop ≠ none) (hunmap : iommuUnmapVaddr ops ctx b = (.ok n, ctx')) :
      SyncsCtx ops s buf len ctx'

inductive SyncsMap (ops : IommuCtxOps σ) (ctx : IommuCtx σ) (len : U64) (buf : Option U64) :
    Except Errno (Option U64 × Bool) × IommuCtx σ → Prop
  | needless (iova : Option U64) (hmapped : ∀ b ∈ buf, iommuTranslateVaddr ctx.map b ≠ none) :
      SyncsMap ops ctx len buf (.ok (iova, false), ctx)
  | refused (b : U64) (e : Errno) (ctx' : IommuCtx σ) (hbuf : buf = some b)
      (hmiss : iommuTranslateVaddr ctx.map b = none)
      (hmap : iommuMapVaddr ops ctx b len 0 iommuMapEphemeral = (.error e, ctx')) :
      SyncsMap ops ctx len buf (.error e, ctx')
  | made (b got : U64) (ctx' : IommuCtx σ) (hbuf : buf = some b)
      (hmiss : iommuTranslateVaddr ctx.map b = none)
      (hmap : iommuMapVaddr ops ctx b len 0 iommuMapEphemeral = (.ok got, ctx')) :
      SyncsMap ops ctx len buf (.ok (some got, true), ctx')

theorem syncMap_maps (ops : IommuCtxOps σ) (ctx : IommuCtx σ) (len : U64) (buf : Option U64) :
    SyncsMap ops ctx len buf (syncMap ops ctx len buf) := by
  cases buf with
  | none => exact .needless none (by rintro b ⟨⟩)
  | some b =>
      rw [syncMap]
      cases hmiss : iommuTranslateVaddr ctx.map b with
      | some iova =>
          refine .needless (some iova) fun b' hb' => ?_
          rw [← Option.some.inj hb', hmiss]
          exact Option.some_ne_none iova
      | none =>
          dsimp only
          rcases hmap : iommuMapVaddr ops ctx b len 0 iommuMapEphemeral with ⟨e | got, ctx'⟩
          · exact .refused b e ctx' rfl hmiss hmap
          · exact .made b got ctx' rfl hmiss hmap

theorem nvmeRqRelease_acquire {rqs : Rqs} (htop : rqs.rqTop = some rq) :
    nvmeRqRelease { rqs with rqTop := rqs.rqNext rq } rq = rqs := by
  rw [nvmeRqRelease, ← htop, Function.update_eq_self]

theorem nvmeRqReleaseAtomic_eq_some {fuel : ℕ} {rqs rqs' : Rqs}
    (h : nvmeRqReleaseAtomic fuel rqs rq = some rqs') : rqs' = nvmeRqRelease rqs rq := by
  cases fuel with
  | zero => cases h
  | succ fuel =>
      rw [nvmeRqReleaseAtomic_eq] at h
      exact (Option.some.inj h).symm

theorem nvmeRqAcquireAtomic_eq_some {fuel : ℕ} {rqs : Rqs} {r : Option ℕ × Rqs}
    (h : nvmeRqAcquireAtomic fuel rqs = some r) : r = nvmeRqAcquire rqs := by
  cases fuel with
  | zero => cases h
  | succ fuel =>
      rw [nvmeRqAcquireAtomic_eq] at h
      exact (Option.some.inj h).symm

/-- What the part behind the mapping can do: there is no tracker, or one is taken and
released. -/
theorem syncTracked_cases {doUnmap : Bool}
    (h : syncTracked ops env s sqe buf len garbage iova doUnmap = some out) :
    (s.rqs.rqTop = none ∧ out.state = s) ∨
      ∃ rq s', s.rqs.rqTop = some rq ∧ s'.ctx = s.ctx ∧ nvmeRqRelease s'.rqs rq = s.rqs ∧
        syncRelease ops env s' rq buf doUnmap = some out.state := by
  obtain ⟨r, hacquire, h⟩ := Option.bind_eq_some_iff.mp h
  obtain rfl := nvmeRqAcquireAtomic_eq_some hacquire
  cases htop : s.rqs.rqTop with
  | none =>
      rw [nvmeRqAcquire, htop] at h
      obtain rfl := Option.some.inj h
      exact .inl ⟨rfl, rfl⟩
  | some rq =>
      rw [nvmeRqAcquire, htop] at h
      obtain ⟨out', hcommand, h⟩ := Option.bind_eq_some_iff.mp h
      obtain ⟨s', hrelease, rfl⟩ := Option.map_eq_some_iff.mp h
      obtain ⟨hctx, hrqs⟩ := syncCommand_keeps hcommand
      refine .inr ⟨rq, out'.state, rfl, hctx, ?_, hrelease⟩
      rw [hrqs]
      exact nvmeRqRelease_acquire htop

theorem syncRelease_plain (h : syncRelease ops env s rq buf false = some s') :
    s'.ctx = s.ctx ∧ s'.rqs = nvmeRqRelease s.rqs rq := by
  obtain ⟨rqs, hrqs, h⟩ := Option.bind_eq_some_iff.mp h
  obtain rfl := nvmeRqReleaseAtomic_eq_some hrqs
  cases buf with
  | none =>
      obtain rfl := Option.some.inj h
      exact ⟨rfl, rfl⟩
  | some b =>
      obtain rfl := Option.some.inj h
      exact ⟨rfl, rfl⟩

theorem syncRelease_unmap {b : U64} (h : syncRelease ops env s rq (some b) true = some s') :
    (∃ n, iommuUnmapVaddr ops s.ctx b = (.ok n, s'.ctx)) ∧
      s'.rqs = nvmeRqRelease s.rqs rq := by
  obtain ⟨rqs, hrqs, h⟩ := Option.bind_eq_some_iff.mp h
  obtain rfl := nvmeRqReleaseAtomic_eq_some hrqs
  dsimp only at h
  rcases hunmap : iommuUnmapVaddr ops s.ctx b with ⟨e | n, ctx⟩
  · rw [hunmap] at h
    cases h
  · rw [hunmap] at h
    obtain rfl := Option.some.inj h
    exact ⟨⟨n, rfl⟩, rfl⟩

/-- A call that returns leaves the stack of trackers as it was. -/
theorem nvmeSync_cases (h : nvmeSync ops env s sqe buf len garbage = some out) :
    out.state.rqs = s.rqs ∧ SyncsCtx ops s buf len out.state.ctx := by
  have hmaps := syncMap_maps ops s.ctx len buf
  rw [nvmeSync] at h
  generalize syncMap ops s.ctx len buf = r at hmaps h
  cases hmaps with
  | refused b e ctx hbuf hmiss hmap =>
      obtain rfl := Option.some.inj h
      exact ⟨rfl, .refused b e ctx hbuf hmiss hmap⟩
  | needless iova hmapped =>
      rcases syncTracked_cases h with ⟨-, hout⟩ | ⟨rq, s', -, hctx, hrqs, hrelease⟩
      · rw [hout]
        exact ⟨rfl, .needless hmapped⟩
      · obtain ⟨hctx', hrqs'⟩ := syncRelease_plain hrelease
        rw [hctx', hrqs', hctx, hrqs]
        exact ⟨rfl, .needless hmapped⟩
  | made b got ctx hbuf hmiss hmap =>
      subst hbuf
      rcases syncTracked_cases h with ⟨htop, hout⟩ | ⟨rq, s', htop, hctx, hrqs, hrelease⟩
      · rw [hout]
        exact ⟨rfl, .busy b got ctx rfl hmiss hmap htop⟩
      · obtain ⟨⟨n, hunmap⟩, hrqs'⟩ := syncRelease_unmap hrelease
        rw [hctx] at hunmap
        rw [hrqs', hrqs]
        have hne : s.rqs.rqTop ≠ none := fun hnone => Option.some_ne_none rq (htop.symm.trans hnone)
        exact ⟨rfl, .undone b got n ctx out.state.ctx rfl hmiss hmap hne hunmap⟩

/-! ## What a call leaves behind -/

/-- The same mappings are held, as many of them are ephemeral, and the same trackers are on
the stack, in the same order. -/
structure NoTrace (s s' : SyncState σ) : Prop where
  mappings : ∀ m, m ∈ s'.ctx.map.held ↔ m ∈ s.ctx.map.held
  ephemerals : s'.ctx.map.ephemerals = s.ctx.map.ephemerals
  trackers : s'.rqs = s.rqs

def NeedsMapping (s : SyncState σ) (buf : Option U64) : Prop :=
  ∃ b ∈ buf, iommuTranslateVaddr s.ctx.map b = none

def mapsBuffer (ops : IommuCtxOps σ) (s : SyncState σ) (buf : Option U64) (len : U64) : Bool :=
  buf.any fun b => (iommuMapVaddr ops s.ctx b len 0 iommuMapEphemeral).1.isOk

theorem mapsBuffer_some {b : U64} {r : Except Errno U64 × IommuCtx σ}
    (hmap : iommuMapVaddr ops s.ctx b len 0 iommuMapEphemeral = r) :
    mapsBuffer ops s (some b) len = r.1.isOk := by
  rw [← hmap]
  rfl

theorem noTrace_of_held (hheld : s'.ctx.map.held = s.ctx.map.held) (hrqs : s'.rqs = s.rqs) :
    NoTrace s s' where
  mappings m := by rw [hheld]
  ephemerals := by rw [IovaMap.ephemerals, hheld, IovaMap.ephemerals]
  trackers := hrqs

theorem add_counted_eq_iff (n : U64) (counted : Bool) :
    n + (if counted then 1 else 0) = n ↔ counted = false := by
  cases counted with
  | false => simp
  | true => simp

/-- A call of `nvme_sync` that returns leaves no trace, unless it has mapped the buffer and no
tracker is free. The counter of the backend is as it was unless this happens, or the buffer
cannot be mapped at the block that was reserved for it. -/
theorem nvme_sync_no_trace_iff {σ : Type*} (ops : IommuCtxOps σ) (counter : σ → U64)
    (hcounts : CountsEphemerals ops counter) (env : SyncEnv) (s : SyncState σ) (xs : List ℕ)
    (hlisted : Listed s.ctx.map xs) (sqe : NvmeSqe NvmeCmd) (buf : Option U64) (len : U64)
    (garbage : NvmeCqe) (out : SyncOutcome σ)
    (hsync : nvmeSync ops env s sqe buf len garbage = some out) :
    (NoTrace s out.state ↔
      ¬(NeedsMapping s buf ∧ mapsBuffer ops s buf len = true ∧ s.rqs.rqTop = none)) ∧
    (counter out.state.ctx.backend = counter s.ctx.backend ↔
      ¬(NeedsMapping s buf ∧ (mapsBuffer ops s buf len = true ∧ s.rqs.rqTop = none ∧
          ops.iovaReserve.isSome = true ∨
        mapsBuffer ops s buf len = false ∧ reservesEphemeral ops s.ctx.backend len = true))) := by
  obtain ⟨hrqs, hctx⟩ := nvmeSync_cases hsync
  generalize out.state = s' at hrqs hctx ⊢
  generalize hs' : s'.ctx = ctx' at hctx ⊢
  cases hctx with
  | needless hmapped =>
      have hneeds : ¬NeedsMapping s buf := fun ⟨b, hb, hmiss⟩ => hmapped b hb hmiss
      have hsame : NoTrace s s' := noTrace_of_held (by rw [hs']) hrqs
      exact ⟨iff_of_true hsame fun h => hneeds h.1, iff_of_true rfl fun h => hneeds h.1⟩
  | refused b e _ hbuf hmiss hmap =>
      subst hbuf
      have hneeds : NeedsMapping s (some b) := ⟨b, rfl, hmiss⟩
      have hmaps := iommuMapVaddr_ephemeral hcounts hmiss hmap
      have hno : mapsBuffer ops s (some b) len = false := mapsBuffer_some hmap
      cases hmaps with
      | failed _ _ hsame hcounter =>
          have hkept : NoTrace s s' := noTrace_of_held (by rw [hs', hsame]) hrqs
          rw [hcounter, add_counted_eq_iff]
          simp [hkept, hneeds, hno]
  | busy b got _ hbuf hmiss hmap htop =>
      subst hbuf
      have hneeds : NeedsMapping s (some b) := ⟨b, rfl, hmiss⟩
      have hmaps := iommuMapVaddr_ephemeral hcounts hmiss hmap
      have hyes : mapsBuffer ops s (some b) len = true := mapsBuffer_some hmap
      have hleft : ¬NoTrace s s' := by
        intro h
        have hmore := (temporary_left hlisted hmaps).2
        rw [← hs', h.ephemerals] at hmore
        omega
      cases hmaps with
      | made _ _ _ _ hcounter =>
          rw [hcounter, add_counted_eq_iff]
          simp [hleft, hneeds, hyes, htop]
  | undone b got n ctx _ hbuf hmiss hmap htop hunmap =>
      subst hbuf
      have hmaps := iommuMapVaddr_ephemeral hcounts hmiss hmap
      have hyes : mapsBuffer ops s (some b) len = true := mapsBuffer_some hmap
      obtain ⟨hheld, hcounter⟩ := temporary_undone hcounts hlisted hmaps hunmap
      have hkept : NoTrace s s' := noTrace_of_held (by rw [hs', hheld]) hrqs
      simp [hkept, hcounter, hyes, htop]

end Sync

/-! ## Runs -/

def goodCqe (cid : BitVec 16) : NvmeCqe := ⟨0, 0, 0, cid, 1⟩

/-- A controller with pages of 0x1000 and a queue whose trackers have the page at 0x8000. The
first completion is for another command. -/
def syncEnv : SyncEnv where
  config := ⟨0, mpsToPageshift_zero_lt⟩
  flags := 0
  rqPage := fun _ => 0x8000
  mem := fun i _ _ => if i = 0 then goodCqe 7 else goodCqe 0
  fuel := 4

def syncStart {σ : Type*} (ctx : IommuCtx σ) : SyncState σ where
  ctx := ctx
  sq := nvmeConfigureSq 2 (fun _ => ⟨0, 0, 0, 0⟩) none
  cq := nvmeConfigureCq 2 (fun _ => ⟨0, 0, 0, 0, 0⟩) none
  rqs := nvmeConfigureSqRqs 2
  pages := fun _ _ => 0

def syncBusy {σ : Type*} (ctx : IommuCtx σ) : SyncState σ :=
  { syncStart ctx with rqs := (nvmeRqAcquire (nvmeConfigureSqRqs 2)).2 }

/-- The context of a container in which the page of the trackers is mapped, and the answers of
the kernel to what follows. -/
def pageCtx (answers : List (Option Errno)) : IommuCtx (KernelVfio (List (Option Errno))) :=
  (iommuMapVaddr (kernelVfioOps scriptedKernel 0x1000 true) (scriptedCtx (none :: answers)) 0x8000
    0x1000 0 0).2

def syncRead (s : SyncState (KernelVfio (List (Option Errno)))) :
    Option (SyncOutcome (KernelVfio (List (Option Errno)))) :=
  nvmeSync (kernelVfioOps scriptedKernel 0x1000 true) syncEnv s ⟨0, ⟨0, ⟨0, 0⟩⟩⟩ (some 0x100000)
    0x1000 (goodCqe 0)

theorem listed_pageCtx (answers : List (Option Errno)) :
    ∃ xs, Listed (pageCtx answers).map xs := by
  have hinit : Listed (scriptedCtx (none :: answers)).map [] :=
    listed_init (fun _ => true) ⟨0, 0, 0, 0⟩
  rw [pageCtx]
  exact iommuMapVaddr_listed hinit

/-- The buffer is mapped for the command and unmapped again, with an entry for another command
on the way. -/
theorem nvme_sync_no_trace_iff_read :
    ∃ out, syncRead (syncStart (pageCtx [])) = some out ∧ out.ret.isOk = true ∧
      NoTrace (syncStart (pageCtx [])) out.state ∧
      out.state.ctx.backend.vfio.nephemerals = (pageCtx []).backend.vfio.nephemerals := by
  obtain ⟨xs, hlisted⟩ := listed_pageCtx []
  have hrun : (syncRead (syncStart (pageCtx []))).map (fun out => out.ret.isOk) = some true := by
    decide +kernel
  obtain ⟨out, hout, hok⟩ := Option.map_eq_some_iff.mp hrun
  have hmaps : mapsBuffer (kernelVfioOps scriptedKernel 0x1000 true) (syncStart (pageCtx []))
      (some 0x100000) 0x1000 = true := by
    decide +kernel
  have htop : (syncStart (pageCtx [])).rqs.rqTop ≠ none := Option.some_ne_none 0
  obtain ⟨htrace, hcounter⟩ := nvme_sync_no_trace_iff (kernelVfioOps scriptedKernel 0x1000 true)
    (·.vfio.nephemerals) (kernelVfioOps_counts scriptedKernel 0x1000 true) syncEnv
    (syncStart (pageCtx [])) xs hlisted ⟨0, ⟨0, ⟨0, 0⟩⟩⟩ (some 0x100000) 0x1000 (goodCqe 0) out hout
  refine ⟨out, hout, hok, htrace.mpr fun h => htop h.2.2, hcounter.mpr ?_⟩
  rintro ⟨-, ⟨-, hnone, -⟩ | ⟨hno, -⟩⟩
  · exact htop hnone
  · rw [hmaps] at hno
    cases hno

/-- The only tracker is in use: the buffer stays mapped, and counts. The kernel refuses the
mapping: the block that was reserved for it counts. -/
theorem nvme_sync_leaves_mapping :
    (∃ out, syncRead (syncBusy (pageCtx [])) = some out ∧ out.ret = .error .EBUSY ∧
      (pageCtx []).map.held = [⟨0x8000, 0x1000, 0x11000, 0⟩] ∧
      out.state.ctx.map.held =
        [⟨0x8000, 0x1000, 0x11000, 0⟩, ⟨0x100000, 0x1000, 0x1000, iommuMapEphemeral⟩] ∧
      ¬NoTrace (syncBusy (pageCtx [])) out.state) ∧
    ∃ out, syncRead (syncStart (pageCtx [some .EINVAL])) = some out ∧
      out.ret = .error .EINVAL ∧ out.state.ctx.backend.vfio.nephemerals = 1 ∧
      (pageCtx [some .EINVAL]).backend.vfio.nephemerals = 0 := by
  refine ⟨⟨_, rfl, rfl, by decide +kernel, by decide +kernel, fun h => ?_⟩, _, rfl, rfl,
    by decide +kernel, by decide +kernel⟩
  exact absurd h.ephemerals (by decide +kernel)

end Nvme

end Libvfn
