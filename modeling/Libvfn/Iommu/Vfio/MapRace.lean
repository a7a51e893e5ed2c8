import Libvfn.Iommu.Vfio.Collision

/-!
# Two threads that map one buffer

`iommu_map_vaddr` looks the buffer up, reserves a block, maps the block in the kernel and
records the mapping, and each of these is a step of its own under a lock of its own. We
run two threads that map one buffer, in any interleaving, on a kernel that accepts every
mapping.

If both threads look the buffer up before one of them has recorded it, then both reserve
and map a block, and the one that comes second to record it fails and leaves its block
and its mapping behind. In a run that comes to an end, this is the only way to go wrong,
apart from reservations that fail and an empty buffer.
-/

namespace Libvfn

namespace Iommu

open Word Support Util Runs

def recordingKernel : KernelOps (List DmaMap) where
  map := fun live m => (none, m :: live)
  unmap := fun live iova len => (none, live.filter fun m =>
    m.iova.toNat < iova.toNat ∨ iova.toNat + len.toNat < m.iova.toNat + m.size.toNat)
  unmapAll := fun _ => (none, [])

structure MapCall where
  flags : U64
  iova : U64

inductive MapPc where
  | start
  /-- The buffer was not found. -/
  | missed
  | reserved (iova : U64)
  /-- The block was mapped in the kernel. -/
  | mapped (iova : U64)
  | done (res : Except Errno U64)

def MapPc.busy : MapPc → Bool
  | .missed => true
  | .reserved _ => true
  | .mapped _ => true
  | _ => false

structure RaceState where
  ctx : IommuCtx (KernelVfio (List DmaMap))
  blocks : List Block
  thread : Bool → MapPc

def RaceState.goto (s : RaceState) (t : Bool) (pc : MapPc) : RaceState :=
  { s with thread := Function.update s.thread t pc }

inductive RaceOp where
  | lookup (t : Bool)
  | reserve (t : Bool)
  | kernelMap (t : Bool)
  | insert (t : Bool)

def RaceOp.thread : RaceOp → Bool
  | .lookup t => t
  | .reserve t => t
  | .kernelMap t => t
  | .insert t => t

section Step

variable (pagesize vaddr len : U64) (call : Bool → MapCall)

/-- One step of a thread. The kernel accepts the mapping. -/
def raceStep (s : RaceState) : RaceOp → Option RaceState
  | .lookup t =>
      match s.thread t with
      | .start =>
          some (s.goto t (match iommuTranslateVaddr s.ctx.map vaddr with
            | some iova => .done (.ok iova)
            | none => .missed))
      | _ => none
  | .reserve t =>
      match s.thread t with
      | .missed =>
          if (call t).flags &&& iommuMapFixedIova ≠ 0 then
            some (s.goto t (.reserved (call t).iova))
          else
            match vfioIommuType1IovaReserve pagesize s.ctx.backend.vfio len (call t).flags with
            | .error e => some (s.goto t (.done (.error e)))
            | .ok (iova, vfio) =>
                some (RaceState.goto
                  { s with
                    ctx := { s.ctx with backend := { s.ctx.backend with vfio := vfio } }
                    blocks := ⟨iova, len⟩ :: s.blocks } t (.reserved iova))
      | _ => none
  | .kernelMap t =>
      match s.thread t with
      | .reserved iova =>
          match vfioIommuType1DoDmaMap recordingKernel pagesize s.ctx.backend vaddr len iova
            (call t).flags with
          | (.error _, _) => none
          | (.ok iova, backend) =>
              some (RaceState.goto { s with ctx := { s.ctx with backend := backend } } t
                (.mapped iova))
      | _ => none
  | .insert t =>
      match s.thread t with
      | .mapped iova =>
          match iovaMapAdd s.ctx.map vaddr len iova (call t).flags with
          | .error e => some (s.goto t (.done (.error e)))
          | .ok map =>
              some (RaceState.goto { s with ctx := { s.ctx with map := map } } t
                (.done (.ok iova)))
      | _ => none

def MapCall.mapping (c : MapCall) (iova : U64) : IovaMapping := ⟨vaddr, len, iova, c.flags⟩

def MapCall.dmaMap (c : MapCall) (iova : U64) : DmaMap := ⟨vaddr, len, iova, dmaMapFlags c.flags⟩

def MapCall.blocks (c : MapCall) (iova : U64) : List Block :=
  if c.flags &&& iommuMapFixedIova ≠ 0 then [] else [⟨iova, len⟩]

/-- Both calls have succeeded with one address. Either the buffer was mapped there before,
and nothing has changed, or there is one mapping more, which is one mapping of the kernel
and one block. -/
inductive MappedOnce (s₀ s : RaceState) : Prop
  | found (iova : U64) (hfound : iommuTranslateVaddr s₀.ctx.map vaddr = some iova)
      (hdone : ∀ u, s.thread u = .done (.ok iova)) (hctx : s.ctx = s₀.ctx)
      (hblocks : s.blocks = s₀.blocks)
  | made (t : Bool) (iova : U64) (hdone : ∀ u, s.thread u = .done (.ok iova))
      (hmap : s.ctx.map.held.Perm ((call t).mapping vaddr len iova :: s₀.ctx.map.held))
      (hkernel : s.ctx.backend.kernel = (call t).dmaMap vaddr len iova :: s₀.ctx.backend.kernel)
      (hblocks : s.blocks = (call t).blocks len iova ++ s₀.blocks)

/-- A thread looks the buffer up before the other one has done so or after it has come to an
end; reservations succeed; and the buffer is not empty. -/
def TakesTurns (s : RaceState) : RaceOp → Prop
  | .lookup t => (s.thread (!t)).busy = false
  | .reserve t =>
      (call t).flags &&& iommuMapFixedIova = 0 →
        (vfioIommuType1IovaReserve pagesize s.ctx.backend.vfio len (call t).flags).isOk
  | .kernelMap _ => True
  | .insert _ => len ≠ 0

instance (s : RaceState) : DecidablePred (TakesTurns pagesize len call s)
  | .lookup t => inferInstanceAs (Decidable ((s.thread (!t)).busy = false))
  | .reserve t => inferInstanceAs (Decidable ((call t).flags &&& iommuMapFixedIova = 0 →
      (vfioIommuType1IovaReserve pagesize s.ctx.backend.vfio len (call t).flags).isOk))
  | .kernelMap _ => .isTrue trivial
  | .insert _ => inferInstanceAs (Decidable (len ≠ 0))

end Step

/-! ## What a step does -/

section Inversion

variable {pagesize vaddr len : U64} {call : Bool → MapCall} {s s' : RaceState}

inductive Races (pagesize vaddr len : U64) (call : Bool → MapCall) (s : RaceState) :
    RaceOp → RaceState → Prop
  | hit (t : Bool) (iova : U64) (ht : s.thread t = .start)
      (hfind : iommuTranslateVaddr s.ctx.map vaddr = some iova) :
      Races pagesize vaddr len call s (.lookup t) (s.goto t (.done (.ok iova)))
  | miss (t : Bool) (ht : s.thread t = .start)
      (hfind : iommuTranslateVaddr s.ctx.map vaddr = none) :
      Races pagesize vaddr len call s (.lookup t) (s.goto t .missed)
  | fixed (t : Bool) (ht : s.thread t = .missed)
      (hflags : (call t).flags &&& iommuMapFixedIova ≠ 0) :
      Races pagesize vaddr len call s (.reserve t) (s.goto t (.reserved (call t).iova))
  | block (t : Bool) (iova : U64) (vfio : VfioContainer) (ht : s.thread t = .missed)
      (hflags : (call t).flags &&& iommuMapFixedIova = 0)
      (hres : vfioIommuType1IovaReserve pagesize s.ctx.backend.vfio len (call t).flags =
        .ok (iova, vfio)) :
      Races pagesize vaddr len call s (.reserve t) (RaceState.goto
        { s with
          ctx := { s.ctx with backend := { s.ctx.backend with vfio := vfio } }
          blocks := ⟨iova, len⟩ :: s.blocks } t (.reserved iova))
  | full (t : Bool) (e : Errno) (ht : s.thread t = .missed)
      (hflags : (call t).flags &&& iommuMapFixedIova = 0)
      (hres : vfioIommuType1IovaReserve pagesize s.ctx.backend.vfio len (call t).flags =
        .error e) :
      Races pagesize vaddr len call s (.reserve t) (s.goto t (.done (.error e)))
  | kernel (t : Bool) (iova : U64) (ht : s.thread t = .reserved iova) :
      Races pagesize vaddr len call s (.kernelMap t) (RaceState.goto
        { s with
          ctx := { s.ctx with
            backend := { s.ctx.backend with
              kernel := (call t).dmaMap vaddr len iova :: s.ctx.backend.kernel } } } t
        (.mapped iova))
  | recorded (t : Bool) (iova : U64) (map : IovaMap) (ht : s.thread t = .mapped iova)
      (hadd : iovaMapAdd s.ctx.map vaddr len iova (call t).flags = .ok map) :
      Races pagesize vaddr len call s (.insert t)
        (RaceState.goto { s with ctx := { s.ctx with map := map } } t (.done (.ok iova)))
  | refused (t : Bool) (iova : U64) (e : Errno) (ht : s.thread t = .mapped iova)
      (hadd : iovaMapAdd s.ctx.map vaddr len iova (call t).flags = .error e) :
      Races pagesize vaddr len call s (.insert t) (s.goto t (.done (.error e)))

theorem races_of_raceStep {op : RaceOp} (hstep : raceStep pagesize vaddr len call s op = some s') :
    Races pagesize vaddr len call s op s' := by
  cases op with
  | lookup t =>
      rw [raceStep] at hstep
      split at hstep
      · next ht =>
          obtain rfl := Option.some.inj hstep
          cases hfind : iommuTranslateVaddr s.ctx.map vaddr with
          | none => exact .miss t ht hfind
          | some iova => exact .hit t iova ht hfind
      · cases hstep
  | reserve t =>
      rw [raceStep] at hstep
      split at hstep
      · next ht =>
          split_ifs at hstep with hflags
          · obtain rfl := Option.some.inj hstep
            exact .fixed t ht hflags
          · rw [not_not] at hflags
            split at hstep
            · next e hres =>
                obtain rfl := Option.some.inj hstep
                exact .full t e ht hflags hres
            · next iova vfio hres =>
                obtain rfl := Option.some.inj hstep
                exact .block t iova vfio ht hflags hres
      · cases hstep
  | kernelMap t =>
      rw [raceStep] at hstep
      split at hstep
      · next iova ht =>
          dsimp only [vfioIommuType1DoDmaMap, recordingKernel] at hstep
          split_ifs at hstep
          obtain rfl := Option.some.inj hstep
          exact .kernel t iova ht
      · cases hstep
  | insert t =>
      rw [raceStep] at hstep
      split at hstep
      · next iova ht =>
          split at hstep
          · next e hadd =>
              obtain rfl := Option.some.inj hstep
              exact .refused t iova e ht hadd
          · next map hadd =>
              obtain rfl := Option.some.inj hstep
              exact .recorded t iova map ht hadd
      · cases hstep

@[simp]
theorem RaceState.goto_self (t : Bool) (pc : MapPc) : (s.goto t pc).thread t = pc :=
  Function.update_self ..

@[simp]
theorem RaceState.goto_of_ne {t u : Bool} (hne : u ≠ t) (pc : MapPc) :
    (s.goto t pc).thread u = s.thread u :=
  Function.update_of_ne hne ..

theorem Races.thread_of_ne {op : RaceOp} (h : Races pagesize vaddr len call s op s') {u : Bool}
    (hu : u ≠ op.thread) : s'.thread u = s.thread u := by
  cases h <;> exact RaceState.goto_of_ne hu _

theorem Races.not_done {op : RaceOp} (h : Races pagesize vaddr len call s op s')
    (res : Except Errno U64) : s.thread op.thread ≠ .done res := by
  cases h with
  | hit t _ ht | miss t ht | fixed t ht | block t _ _ ht | full t _ ht | kernel t _ ht
  | recorded t _ _ ht | refused t _ _ ht =>
      intro hdone
      cases ht.symm.trans hdone

/-- A thread that is busy stays so, or it fails, or it records the mapping. -/
theorem Races.of_busy {op : RaceOp} (h : Races pagesize vaddr len call s op s')
    (hbusy : (s.thread op.thread).busy = true) :
    ((s'.thread op.thread).busy = true ∧ s'.ctx.map = s.ctx.map) ∨
      (∃ e, s'.thread op.thread = .done (.error e)) ∨
      ∃ iova, iovaMapAdd s.ctx.map vaddr len iova (call op.thread).flags = .ok s'.ctx.map ∧
        s'.thread op.thread = .done (.ok iova) := by
  cases h with
  | hit t _ ht | miss t ht =>
      rw [RaceOp.thread, ht] at hbusy
      cases hbusy
  | fixed t ht | block t _ _ ht | kernel t _ ht =>
      rw [RaceOp.thread, RaceState.goto_self]
      exact .inl ⟨rfl, rfl⟩
  | full t e ht => exact .inr (.inl ⟨e, RaceState.goto_self t _⟩)
  | recorded t iova map ht hadd => exact .inr (.inr ⟨iova, hadd, RaceState.goto_self t _⟩)
  | refused t iova e ht => exact .inr (.inl ⟨e, RaceState.goto_self t _⟩)

/-- The last two steps of a thread are the part from the call of `dma_map` on. -/
theorem mapAt_run {hasUnmapAll : Bool} {t : Bool} {reserved iova : U64}
    {ctx' : IommuCtx (KernelVfio (List DmaMap))} (ht : s.thread t = .reserved reserved)
    (hmap : iommuMapAt (kernelVfioOps recordingKernel pagesize hasUnmapAll) s.ctx vaddr len reserved
      (call t).flags = (.ok iova, ctx')) :
    ∃ s', run (raceStep pagesize vaddr len call) s [.kernelMap t, .insert t] = some s' ∧
      s'.ctx = ctx' ∧ s'.thread t = .done (.ok iova) := by
  rw [iommuMapAt] at hmap
  dsimp only [kernelVfioOps] at hmap
  rcases hk : vfioIommuType1DoDmaMap recordingKernel pagesize s.ctx.backend vaddr len reserved
    (call t).flags with ⟨e | iova', backend⟩
  · rw [hk] at hmap
    cases hmap
  · rw [hk] at hmap
    dsimp only at hmap
    rcases hadd : iovaMapAdd s.ctx.map vaddr len iova' (call t).flags with e | map
    · rw [hadd] at hmap
      cases hmap
    · rw [hadd] at hmap
      obtain ⟨hiova, hctx⟩ := Prod.mk.inj hmap
      obtain rfl := Except.ok.inj hiova
      have hkernel : raceStep pagesize vaddr len call s (.kernelMap t) = some (RaceState.goto
          { s with ctx := { s.ctx with backend := backend } } t (.mapped iova')) := by
        simp only [raceStep, ht, hk]
      refine ⟨RaceState.goto ⟨ctx', s.blocks, Function.update s.thread t (.mapped iova')⟩ t
        (.done (.ok iova')), run_cons_eq_some.mpr ⟨_, hkernel, ?_⟩, rfl, RaceState.goto_self t _⟩
      simp only [run, raceStep, RaceState.goto_self]
      simp only [RaceState.goto, hadd, Option.bind_some, ← hctx]

/-- The steps of a thread that nobody interrupts are `iommu_map_vaddr`. -/
theorem mapVaddr_run {hasUnmapAll : Bool} {t : Bool} {iova : U64}
    {ctx' : IommuCtx (KernelVfio (List DmaMap))} (ht : s.thread t = .start)
    (hmap : iommuMapVaddr (kernelVfioOps recordingKernel pagesize hasUnmapAll) s.ctx vaddr len
      (call t).iova (call t).flags = (.ok iova, ctx')) :
    ∃ ops s', run (raceStep pagesize vaddr len call) s ops = some s' ∧ s'.ctx = ctx' ∧
      s'.thread t = .done (.ok iova) := by
  rw [iommuMapVaddr] at hmap
  cases hfind : iommuTranslateVaddr s.ctx.map vaddr with
  | some iova' =>
      rw [hfind] at hmap
      obtain ⟨hiova, hctx⟩ := Prod.mk.inj hmap
      obtain rfl := Except.ok.inj hiova
      refine ⟨[.lookup t], s.goto t (.done (.ok iova')), ?_, hctx, RaceState.goto_self t _⟩
      simp only [run, raceStep, ht, hfind, Option.bind_some]
  | none =>
      rw [hfind] at hmap
      dsimp only at hmap
      have hlookup : raceStep pagesize vaddr len call s (.lookup t) = some (s.goto t .missed) := by
        simp only [raceStep, ht, hfind]
      by_cases hflags : (call t).flags &&& iommuMapFixedIova = 0
      · rw [if_neg (not_not.mpr hflags)] at hmap
        change iommuMapReserved (kernelVfioOps recordingKernel pagesize hasUnmapAll) s.ctx vaddr len
          (call t).flags (s.ctx.backend.reserved
            (vfioIommuType1IovaReserve pagesize s.ctx.backend.vfio len (call t).flags)) = _ at hmap
        rcases hres : vfioIommuType1IovaReserve pagesize s.ctx.backend.vfio len (call t).flags with
          e | ⟨reserved, vfio⟩
        · rw [hres] at hmap
          cases hmap
        · rw [hres] at hmap
          let s₂ := RaceState.goto
            { s.goto t .missed with
              ctx := { s.ctx with backend := { s.ctx.backend with vfio := vfio } }
              blocks := ⟨reserved, len⟩ :: s.blocks } t (.reserved reserved)
          have hreserve :
              raceStep pagesize vaddr len call (s.goto t .missed) (.reserve t) = some s₂ := by
            simp only [raceStep, RaceState.goto_self, if_neg (not_not.mpr hflags)]
            simp only [RaceState.goto, hres, s₂]
          obtain ⟨s', hrun, hend⟩ := mapAt_run (s := s₂) (RaceState.goto_self t _) hmap
          exact ⟨.lookup t :: .reserve t :: [.kernelMap t, .insert t], s', run_cons_eq_some.mpr
            ⟨_, hlookup, run_cons_eq_some.mpr ⟨s₂, hreserve, hrun⟩⟩, hend⟩
      · rw [if_pos hflags] at hmap
        let s₂ := (s.goto t .missed).goto t (.reserved (call t).iova)
        have hreserve :
            raceStep pagesize vaddr len call (s.goto t .missed) (.reserve t) = some s₂ := by
          simp only [raceStep, RaceState.goto_self, if_pos hflags, s₂]
        obtain ⟨s', hrun, hend⟩ := mapAt_run (s := s₂) (RaceState.goto_self t _) hmap
        exact ⟨.lookup t :: .reserve t :: [.kernelMap t, .insert t], s', run_cons_eq_some.mpr
          ⟨_, hlookup, run_cons_eq_some.mpr ⟨s₂, hreserve, hrun⟩⟩, hend⟩

end Inversion

/-! ## The way to the end -/

section Phases

variable {pagesize vaddr len : U64} {call : Bool → MapCall} {s₀ s s' : RaceState} {op : RaceOp}
  {xs : List ℕ}

/-- What a thread has done so far that is the only one at work. -/
def Progress (vaddr len : U64) (c : MapCall) (s₀ s : RaceState) : MapPc → Prop
  | .missed => s.ctx.backend.kernel = s₀.ctx.backend.kernel ∧ s.blocks = s₀.blocks
  | .reserved iova =>
      s.ctx.backend.kernel = s₀.ctx.backend.kernel ∧ s.blocks = c.blocks len iova ++ s₀.blocks
  | .mapped iova =>
      s.ctx.backend.kernel = c.dmaMap vaddr len iova :: s₀.ctx.backend.kernel ∧
        s.blocks = c.blocks len iova ++ s₀.blocks
  | _ => False

/-- The states of a run in which the threads take turns: nothing has happened, a thread is
at work, it has recorded the mapping, or the other one has found it. -/
inductive TurnInv (vaddr len : U64) (call : Bool → MapCall) (s₀ s : RaceState) : Prop
  | before (hs : s = s₀)
  | atWork (t : Bool) (hother : s.thread (!t) = .start) (hmap : s.ctx.map = s₀.ctx.map)
      (hprogress : Progress vaddr len (call t) s₀ s (s.thread t))
  | entered (t : Bool) (iova : U64) (hlen : len ≠ 0) (ht : s.thread t = .done (.ok iova))
      (hother : s.thread (!t) = .start)
      (hmap : s.ctx.map = iovaMapLink s₀.ctx.map ((call t).mapping vaddr len iova))
      (hkernel : s.ctx.backend.kernel = (call t).dmaMap vaddr len iova :: s₀.ctx.backend.kernel)
      (hblocks : s.blocks = (call t).blocks len iova ++ s₀.blocks)
  | after (t : Bool) (iova : U64) (hlen : len ≠ 0) (hdone : ∀ u, s.thread u = .done (.ok iova))
      (hmap : s.ctx.map = iovaMapLink s₀.ctx.map ((call t).mapping vaddr len iova))
      (hkernel : s.ctx.backend.kernel = (call t).dmaMap vaddr len iova :: s₀.ctx.backend.kernel)
      (hblocks : s.blocks = (call t).blocks len iova ++ s₀.blocks)

/-- The states from which one of the calls fails: it has failed, or both threads have not
found the buffer, or one of them has not found it and the other one has recorded it. -/
inductive Lost (vaddr : U64) (s₀ s : RaceState) : Prop
  | failed (t : Bool) (e : Errno) (ht : s.thread t = .done (.error e))
  | both (hbusy : ∀ u, (s.thread u).busy = true) (hmap : s.ctx.map = s₀.ctx.map)
  | late (t : Bool) (res : Except Errno U64) (hbusy : (s.thread t).busy = true)
      (hdone : s.thread (!t) = .done res) (hfind : (iovaMapFind s.ctx.map vaddr).isSome)

theorem Progress.busy {c : MapCall} {pc : MapPc} (h : Progress vaddr len c s₀ s pc) :
    pc.busy = true := by
  cases pc with
  | missed | reserved | mapped => rfl
  | start | done => exact h.elim

theorem translate_link (h : Mapped s₀.ctx.map xs) (hlen : len ≠ 0)
    (hfree : Unmapped s₀.ctx.map vaddr len) (c : MapCall) (iova : U64) :
    iommuTranslateVaddr (iovaMapLink s₀.ctx.map (c.mapping vaddr len iova)) vaddr =
      some iova := by
  obtain ⟨xs', h', hperm⟩ := h.link (m := c.mapping vaddr len iova) hlen hfree
  refine h'.translate_eq_some_iff.mpr ⟨c.mapping vaddr len iova, ?_, ?_, ?_⟩
  · exact hperm.mem_iff.mpr List.mem_cons_self
  · exact start_mem_addresses hlen
  · dsimp only [MapCall.mapping]
    rw [BitVec.sub_self]
    exact BitVec.add_zero iova

/-- There is no way back from a state in which a call fails. -/
theorem Lost.step (h : Mapped s₀.ctx.map xs) (hfree : Unmapped s₀.ctx.map vaddr len)
    (hlost : Lost vaddr s₀ s) (hraces : Races pagesize vaddr len call s op s') :
    Lost vaddr s₀ s' := by
  cases hlost with
  | failed t e ht =>
      have hne : t ≠ op.thread := by
        rintro rfl
        exact hraces.not_done _ ht
      exact .failed t e ((hraces.thread_of_ne hne).trans ht)
  | both hbusy hmap =>
      rcases hraces.of_busy (hbusy op.thread) with ⟨hstay, hmap'⟩ | ⟨e, he⟩ | ⟨iova, hadd, hdone⟩
      · refine .both (fun u => ?_) (hmap'.trans hmap)
        by_cases hu : u = op.thread
        · rw [hu]
          exact hstay
        · rw [hraces.thread_of_ne hu]
          exact hbusy u
      · exact .failed _ e he
      · obtain ⟨hlen, -, hlink⟩ := iovaMapAdd_eq_ok hadd
        refine .late (!op.thread) (.ok iova) ?_ (by rwa [Bool.not_not]) ?_
        · rw [hraces.thread_of_ne (Bool.not_ne_self _)]
          exact hbusy _
        · have hfound := translate_link h hlen hfree (call op.thread) iova
          rw [hmap] at hlink
          rw [hlink]
          exact Option.isSome_map.symm.trans (Option.isSome_iff_exists.mpr ⟨iova, hfound⟩)
  | late t res hbusy hdone hfind =>
      have ht : op.thread = t := by
        by_contra hne
        rw [← Bool.eq_not.mpr hne] at hdone
        exact hraces.not_done _ hdone
      subst ht
      have hother := (hraces.thread_of_ne (Bool.not_ne_self _)).trans hdone
      rcases hraces.of_busy hbusy with ⟨hstay, hmap⟩ | ⟨e, he⟩ | ⟨iova, hadd, -⟩
      · exact .late _ res hstay hother (by rwa [hmap])
      · exact .failed _ e he
      · rw [(iovaMapAdd_eq_ok hadd).2.1] at hfind
        cases hfind

theorem turnInv_goto {t : Bool} {pc : MapPc} (hother : s.thread (!t) = .start)
    (hmap : s.ctx.map = s₀.ctx.map) (hprogress : Progress vaddr len (call t) s₀ s pc) :
    TurnInv vaddr len call s₀ (s.goto t pc) := by
  refine .atWork t ?_ hmap ?_
  · rw [RaceState.goto_of_ne (Bool.not_ne_self t)]
    exact hother
  · rw [RaceState.goto_self]
    exact hprogress

theorem lost_of_miss {u : Bool} (hbusy : (s.thread (!u)).busy = true)
    (hmap : s.ctx.map = s₀.ctx.map) : Lost vaddr s₀ (s.goto u .missed) := by
  refine .both (fun v => ?_) hmap
  by_cases hv : v = u
  · rw [hv, RaceState.goto_self]
    rfl
  · rw [RaceState.goto_of_ne hv, Bool.eq_not.mpr hv]
    exact hbusy

/-- The thread at work takes a step, or the other one looks the buffer up in vain. -/
theorem TurnInv.step_atWork (h : Mapped s₀.ctx.map xs) (hfree : Unmapped s₀.ctx.map vaddr len)
    (hmiss : iommuTranslateVaddr s₀.ctx.map vaddr = none) {t : Bool}
    (hother : s.thread (!t) = .start) (hmap : s.ctx.map = s₀.ctx.map)
    (hprogress : Progress vaddr len (call t) s₀ s (s.thread t))
    (hraces : Races pagesize vaddr len call s op s') :
    TakesTurns pagesize len call s op ∧ TurnInv vaddr len call s₀ s' ∨
      ¬TakesTurns pagesize len call s op ∧ Lost vaddr s₀ s' := by
  -- only the thread at work can take a step other than the first one
  have hturn : ∀ u pc, s.thread u = pc → pc ≠ .start → u = t := by
    intro u pc hu hpc
    by_contra hne
    rw [← Bool.eq_not.mpr hne] at hother
    exact hpc (hu.symm.trans hother)
  cases hraces with
  | hit u iova hu hfind =>
      rw [hmap, hmiss] at hfind
      cases hfind
  | miss u hu =>
      have hbusy := hprogress.busy
      have hne : u ≠ t := by
        rintro rfl
        rw [hu] at hbusy
        cases hbusy
      have ht : t = !u := Bool.eq_not.mpr hne.symm
      rw [ht] at hbusy
      refine .inr ⟨?_, lost_of_miss hbusy hmap⟩
      rw [TakesTurns, hbusy]
      exact Bool.noConfusion
  | fixed u hu hflags =>
      obtain rfl := hturn u _ hu (fun heq => (nomatch heq))
      rw [hu] at hprogress
      refine .inl ⟨fun hzero => absurd hzero hflags, turnInv_goto hother hmap ?_⟩
      refine ⟨hprogress.1, hprogress.2.trans ?_⟩
      rw [MapCall.blocks, if_pos hflags]
      rfl
  | block u iova vfio hu hflags hres =>
      obtain rfl := hturn u _ hu (fun heq => (nomatch heq))
      rw [hu] at hprogress
      refine .inl ⟨fun _ => by rw [hres]; rfl, turnInv_goto hother hmap ?_⟩
      refine ⟨hprogress.1, ?_⟩
      rw [MapCall.blocks, if_neg (not_not.mpr hflags)]
      exact congrArg (List.cons _) hprogress.2
  | full u e hu hflags hres =>
      refine .inr ⟨fun hok => ?_, .failed u e (RaceState.goto_self u _)⟩
      have hok := hok hflags
      rw [hres] at hok
      cases hok
  | kernel u iova hu =>
      obtain rfl := hturn u _ hu (fun heq => (nomatch heq))
      rw [hu] at hprogress
      exact .inl ⟨trivial, turnInv_goto hother hmap
        ⟨congrArg (List.cons _) hprogress.1, hprogress.2⟩⟩
  | recorded u iova map hu hadd =>
      obtain rfl := hturn u _ hu (fun heq => (nomatch heq))
      rw [hu] at hprogress
      obtain ⟨hlen, -, rfl⟩ := iovaMapAdd_eq_ok hadd
      refine .inl ⟨hlen, .entered u iova hlen (RaceState.goto_self u _) ?_ ?_ hprogress.1
        hprogress.2⟩
      · exact (RaceState.goto_of_ne (Bool.not_ne_self u) _).trans hother
      · exact congrArg (iovaMapLink · _) hmap
  | refused u iova e hu hadd =>
      refine .inr ⟨fun hlen => ?_, .failed u e (RaceState.goto_self u _)⟩
      rw [hmap, h.add_eq hfree, if_neg hlen] at hadd
      cases hadd

/-- The other thread finds the mapping. -/
theorem TurnInv.step_entered (h : Mapped s₀.ctx.map xs) (hfree : Unmapped s₀.ctx.map vaddr len)
    {t : Bool} {iova : U64} (hlen : len ≠ 0) (ht : s.thread t = .done (.ok iova))
    (hother : s.thread (!t) = .start)
    (hmap : s.ctx.map = iovaMapLink s₀.ctx.map ((call t).mapping vaddr len iova))
    (hkernel : s.ctx.backend.kernel = (call t).dmaMap vaddr len iova :: s₀.ctx.backend.kernel)
    (hblocks : s.blocks = (call t).blocks len iova ++ s₀.blocks)
    (hraces : Races pagesize vaddr len call s op s') :
    TakesTurns pagesize len call s op ∧ TurnInv vaddr len call s₀ s' := by
  have hfound := translate_link h hlen hfree (call t) iova
  have hthread : op.thread = !t := by
    refine Bool.eq_not.mpr fun heq => ?_
    rw [← heq] at ht
    exact hraces.not_done _ ht
  have hstart : s.thread op.thread = .start := hthread ▸ hother
  cases hraces with
  | hit u iova' hu hfind =>
      obtain rfl : u = !t := hthread
      rw [hmap, hfound] at hfind
      obtain rfl := Option.some.inj hfind
      refine ⟨?_, .after t iova hlen (fun v => ?_) hmap hkernel hblocks⟩
      · rw [TakesTurns, Bool.not_not, ht]
        rfl
      · by_cases hv : v = !t
        · rw [hv, RaceState.goto_self]
        · rw [RaceState.goto_of_ne hv, Bool.eq_not.mpr hv, Bool.not_not]
          exact ht
  | miss u hu hfind =>
      rw [hmap, hfound] at hfind
      cases hfind
  | fixed u hu | block u _ _ hu | full u _ hu | kernel u _ hu | recorded u _ _ hu
  | refused u _ _ hu => cases hu.symm.trans hstart

/-- In a run in which the threads take turns, a step is one that takes turns, or a call
fails. -/
theorem TurnInv.step (h : Mapped s₀.ctx.map xs) (hfree : Unmapped s₀.ctx.map vaddr len)
    (hmiss : iommuTranslateVaddr s₀.ctx.map vaddr = none) (hstart : ∀ u, s₀.thread u = .start)
    (hinv : TurnInv vaddr len call s₀ s) (hraces : Races pagesize vaddr len call s op s') :
    TakesTurns pagesize len call s op ∧ TurnInv vaddr len call s₀ s' ∨
      ¬TakesTurns pagesize len call s op ∧ Lost vaddr s₀ s' := by
  cases hinv with
  | before hs =>
      subst hs
      cases hraces with
      | hit u iova hu hfind =>
          rw [hmiss] at hfind
          cases hfind
      | miss u hu =>
          refine .inl ⟨?_, turnInv_goto (hstart _) rfl ⟨rfl, rfl⟩⟩
          rw [TakesTurns, hstart]
          rfl
      | fixed u hu | block u _ _ hu | full u _ hu | kernel u _ hu | recorded u _ _ hu
      | refused u _ _ hu => cases (hstart u).symm.trans hu
  | atWork t hother hmap hprogress =>
      exact TurnInv.step_atWork h hfree hmiss hother hmap hprogress hraces
  | entered t iova hlen ht hother hmap hkernel hblocks =>
      exact .inl (TurnInv.step_entered h hfree hlen ht hother hmap hkernel hblocks hraces)
  | after t iova _ hdone => exact absurd (hdone op.thread) (hraces.not_done _)

structure FoundInv (iova : U64) (s₀ s : RaceState) : Prop where
  ctx_eq : s.ctx = s₀.ctx
  blocks_eq : s.blocks = s₀.blocks
  thread : ∀ u, s.thread u = .start ∨ s.thread u = .done (.ok iova)

theorem FoundInv.step {iova : U64} (hfound : iommuTranslateVaddr s₀.ctx.map vaddr = some iova)
    (hinv : FoundInv iova s₀ s) (hraces : Races pagesize vaddr len call s op s') :
    TakesTurns pagesize len call s op ∧ FoundInv iova s₀ s' := by
  have hstart : s.thread op.thread = .start :=
    (hinv.thread op.thread).resolve_right (hraces.not_done _)
  cases hraces with
  | hit u iova' hu hfind =>
      rw [hinv.ctx_eq, hfound] at hfind
      obtain rfl := Option.some.inj hfind
      refine ⟨?_, hinv.ctx_eq, hinv.blocks_eq, fun v => ?_⟩
      · rcases hinv.thread (!u) with hother | hother <;>
          · rw [TakesTurns, hother]
            rfl
      · by_cases hv : v = u
        · rw [hv, RaceState.goto_self]
          exact .inr rfl
        · rw [RaceState.goto_of_ne hv]
          exact hinv.thread v
  | miss u hu hfind =>
      rw [hinv.ctx_eq, hfound] at hfind
      cases hfind
  | fixed u hu | block u _ _ hu | full u _ hu | kernel u _ hu | recorded u _ _ hu
  | refused u _ _ hu => cases hu.symm.trans hstart

theorem TurnInv.mappedOnce (h : Mapped s₀.ctx.map xs) (hfree : Unmapped s₀.ctx.map vaddr len)
    (hstart : ∀ u, s₀.thread u = .start) (hinv : TurnInv vaddr len call s₀ s)
    (hend : ∀ u, ∃ res, s.thread u = .done res) : MappedOnce vaddr len call s₀ s := by
  have hnot : ∀ u, s.thread u ≠ .start := by
    intro u hu
    obtain ⟨res, hres⟩ := hend u
    cases hu.symm.trans hres
  cases hinv with
  | before hs => exact absurd (hs ▸ hstart true) (hnot true)
  | atWork t hother => exact absurd hother (hnot _)
  | entered t iova _ _ hother => exact absurd hother (hnot _)
  | after t iova hlen hdone hmap hkernel hblocks =>
      obtain ⟨-, -, hperm⟩ := h.link (m := (call t).mapping vaddr len iova) hlen hfree
      exact .made t iova hdone (hmap ▸ hperm) hkernel hblocks

theorem Lost.not_mappedOnce (hlost : Lost vaddr s₀ s)
    (hend : ∀ u, ∃ res, s.thread u = .done res) : ¬MappedOnce vaddr len call s₀ s := by
  have hidle : ∀ u, (s.thread u).busy ≠ true := by
    intro u hbusy
    obtain ⟨res, hres⟩ := hend u
    rw [hres] at hbusy
    cases hbusy
  cases hlost with
  | failed t e ht =>
      rintro (⟨iova, -, hdone⟩ | ⟨u, iova, hdone⟩) <;> cases ht.symm.trans (hdone t)
  | both hbusy => exact absurd (hbusy true) (hidle true)
  | late t _ hbusy => exact absurd hbusy (hidle t)

end Phases

/-- Two threads map one buffer and come to an end, on a kernel that accepts every mapping.
The buffer is mapped once, for both of them, if and only if the threads take turns,
reservations succeed and the buffer is not empty. -/
theorem mapped_once_iff (pagesize vaddr len : U64) (call : Bool → MapCall) (s₀ s : RaceState)
    (hmapped : ∃ xs, Mapped s₀.ctx.map xs) (hclear : Clear s₀.ctx.map vaddr len)
    (hstart : ∀ u, s₀.thread u = .start) (ops : List RaceOp)
    (hrun : run (raceStep pagesize vaddr len call) s₀ ops = some s)
    (hend : ∀ u, ∃ res, s.thread u = .done res) :
    MappedOnce vaddr len call s₀ s ↔
      MeetsAlong (raceStep pagesize vaddr len call) (TakesTurns pagesize len call) s₀ ops := by
  obtain ⟨xs, h⟩ := hmapped
  cases hmiss : iommuTranslateVaddr s₀.ctx.map vaddr with
  | some iova =>
      have hstep : ∀ s op s', FoundInv iova s₀ s → raceStep pagesize vaddr len call s op = some s' →
          TakesTurns pagesize len call s op ∧ FoundInv iova s₀ s' := fun _ _ _ hs hstep =>
        hs.step hmiss (races_of_raceStep hstep)
      have hinit : FoundInv iova s₀ s₀ := ⟨rfl, rfl, fun u => .inl (hstart u)⟩
      have hinv := run_invariant_of_step (fun s op s' hs h => (hstep s op s' hs h).2) hinit hrun
      refine iff_of_true ?_ ?_
      · refine .found iova hmiss (fun u => ?_) hinv.ctx_eq hinv.blocks_eq
        obtain ⟨res, hres⟩ := hend u
        refine (hinv.thread u).resolve_left fun hu => ?_
        cases hu.symm.trans hres
      · refine (meetsAlong_or_lost (fun s op s' hs _ h => (hstep s op s' hs h).2)
          (fun s op s' hs hnot h => hnot (hstep s op s' hs h).1)
          (fun _ _ _ (hfalse : False) _ => hfalse) hinit hrun).resolve_right id
  | none =>
      have hfree := hclear.unmapped h hmiss
      have hstep : ∀ s op s', TurnInv vaddr len call s₀ s →
          raceStep pagesize vaddr len call s op = some s' →
            TakesTurns pagesize len call s op ∧ TurnInv vaddr len call s₀ s' ∨
              ¬TakesTurns pagesize len call s op ∧ Lost vaddr s₀ s' := fun _ _ _ hs hstep =>
        hs.step h hfree hmiss hstart (races_of_raceStep hstep)
      have hinv : ∀ s op s', TurnInv vaddr len call s₀ s → TakesTurns pagesize len call s op →
          raceStep pagesize vaddr len call s op = some s' → TurnInv vaddr len call s₀ s' := by
        intro s op s' hs hturn hs'
        exact ((hstep s op s' hs hs').resolve_right fun hnot => hnot.1 hturn).2
      constructor
      · intro honce
        have hlost : ∀ s op s', TurnInv vaddr len call s₀ s → ¬TakesTurns pagesize len call s op →
            raceStep pagesize vaddr len call s op = some s' → Lost vaddr s₀ s' := by
          intro s op s' hs hnot hs'
          exact ((hstep s op s' hs hs').resolve_left fun hturn => hnot hturn.1).2
        rcases meetsAlong_or_lost hinv hlost
          (fun s op s' hl hs' => hl.step h hfree (races_of_raceStep hs')) (.before rfl) hrun with
          hturns | hl
        · exact hturns
        · exact absurd honce (hl.not_mappedOnce hend)
      · intro hturns
        exact (run_invariant hinv (.before rfl) hturns hrun).mappedOnce h hfree hstart hend

/-- The state of two threads that are about to map a buffer on a container with nothing
mapped. -/
def raceInit : RaceState :=
  ⟨⟨iovaMapInit (fun _ => true) ⟨0, 0, 0, 0⟩, 0, 0, ⟨pageContainer, []⟩⟩, [], fun _ => .start⟩

/-- Both threads look the buffer up before one of them has recorded it. The second one to
record it fails, and its block and its mapping in the kernel stay. -/
theorem mapped_twice :
    ∃ s, run (raceStep 0x1000 0x100000 0x1000 fun _ => ⟨0, 0⟩) raceInit
        [.lookup true, .lookup false, .reserve true, .reserve false, .kernelMap true,
          .kernelMap false, .insert true, .insert false] = some s ∧
      s.thread true = .done (.ok 0x11000) ∧ s.thread false = .done (.error .EEXIST) ∧
      s.ctx.map.held = [⟨0x100000, 0x1000, 0x11000, 0⟩] ∧
      s.ctx.backend.kernel = [⟨0x100000, 0x1000, 0x12000, 3⟩, ⟨0x100000, 0x1000, 0x11000, 3⟩] ∧
      s.blocks = [⟨0x12000, 0x1000⟩, ⟨0x11000, 0x1000⟩] ∧
      ¬MappedOnce 0x100000 0x1000 (fun _ => ⟨0, 0⟩) raceInit s := by
  refine ⟨_, rfl, rfl, rfl, by decide +kernel, by decide +kernel, by decide +kernel, ?_⟩
  rintro (⟨iova, hfound, -⟩ | ⟨t, iova, hdone⟩)
  · cases hfound
  · cases hdone false

/-- One thread maps the buffer, and the other one finds it. -/
theorem mapped_once_in_turn :
    ∃ s, run (raceStep 0x1000 0x100000 0x1000 fun _ => ⟨0, 0⟩) raceInit
        [.lookup true, .reserve true, .kernelMap true, .insert true, .lookup false] = some s ∧
      s.thread false = .done (.ok 0x11000) ∧
      MappedOnce 0x100000 0x1000 (fun _ => ⟨0, 0⟩) raceInit s := by
  refine ⟨_, rfl, rfl, ?_⟩
  refine (mapped_once_iff 0x1000 0x100000 0x1000 (fun _ => ⟨0, 0⟩) raceInit _
    ⟨[], mapped_init _ _⟩ (.inr ⟨by decide, fun m hm => absurd hm List.not_mem_nil⟩) (fun _ => rfl)
    [.lookup true, .reserve true, .kernelMap true, .insert true, .lookup false] rfl ?_).mpr ?_
  · rintro (_ | _) <;> exact ⟨_, rfl⟩
  · decide +kernel

end Iommu

end Libvfn
