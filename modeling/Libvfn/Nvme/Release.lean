import Libvfn.Nvme.Accounts

/-!
# What is left after `nvme_close`

`nvme_init` takes the memory of the admin queues, of the identify data and of the shadow
doorbells, and gives that of the identify data back. From then on the books of the controller are
right. The calls for I/O queues keep them, and `nvme_close` discards whatever queues there are
left. So what is mapped in the end is what was mapped before `nvme_init`.

Nothing is given back twice either: a second `free` of the trackers has no result in the model,
and neither has an `iommu_put_dmabuf` of memory that is no longer mapped. The shadow doorbells of
the queues are cleared on the way, through pointers that are not `NULL`, unless the quirk
`NVME_QUIRK_BROKEN_DBBUF` has left out those of the admin queues.
-/

namespace Libvfn

namespace Nvme

namespace Ctrl

open Word Support Iommu Ledger Runs

variable {σ : Type*}

/-! ## Closing -/

section Close

variable {ops : IommuCtxOps σ} {s s' : State σ} {qid : ℕ} {loose : Multiset IovaMapping}
  {spare : Multiset ℕ}

theorem sqUsed_of_discardSq (h : nvmeDiscardSq ops s qid = some s') :
    s'.opts = s.opts ∧
      ∀ j, (s'.sq j).mem.vaddr ≠ 0 → j ≠ qid ∧ (s.sq j).mem.vaddr ≠ 0 := by
  cases nvmeDiscardSq_discards h with
  | empty hmem => exact ⟨rfl, fun j hj => ⟨fun heq => hj (heq ▸ hmem), hj⟩⟩
  | discarded ctx ctx' heap pages hmem =>
      exact ⟨rfl, (Function.forall_update_iff s.sq fun j q => q.mem.vaddr ≠ 0 →
        j ≠ qid ∧ (s.sq j).mem.vaddr ≠ 0).mpr
        ⟨fun hne => absurd rfl hne, fun j hj hne => ⟨hj, hne⟩⟩⟩

theorem cqUsed_of_discardCq (h : nvmeDiscardCq ops s qid = some s') :
    s'.opts = s.opts ∧ s'.sq = s.sq ∧
      ∀ j, (s'.cq j).mem.vaddr ≠ 0 → j ≠ qid ∧ (s.cq j).mem.vaddr ≠ 0 := by
  cases nvmeDiscardCq_discards h with
  | empty hmem => exact ⟨rfl, rfl, fun j hj => ⟨fun heq => hj (heq ▸ hmem), hj⟩⟩
  | discarded ctx hmem =>
      exact ⟨rfl, rfl, (Function.forall_update_iff s.cq fun j q => q.mem.vaddr ≠ 0 →
        j ≠ qid ∧ (s.cq j).mem.vaddr ≠ 0).mpr
        ⟨fun hne => absurd rfl hne, fun j hj hne => ⟨hj, hne⟩⟩⟩

theorem Accounts.discardSqs (hops : Releasing ops) (h : Accounts loose spare s) :
    ∃ s', Runs.run (nvmeDiscardSq ops) s (List.range (s.opts.nsqr + 2)) = some s' ∧
      Accounts loose spare s' ∧ ∀ j, (s'.sq j).mem.vaddr = 0 := by
  have hstep : ∀ t i, Accounts loose spare t ∧ t.opts = s.opts →
      ∃ t', nvmeDiscardSq ops t i = some t' ∧ (Accounts loose spare t' ∧ t'.opts = s.opts) ∧
        ∀ j, (t'.sq j).mem.vaddr ≠ 0 → j ≠ i ∧ (t.sq j).mem.vaddr ≠ 0 := by
    rintro t i ⟨ht, hopts⟩
    obtain ⟨t', hdisc, ht'⟩ := (ht.discardSq ops i).exists_post hops
    obtain ⟨hopts', hused⟩ := sqUsed_of_discardSq hdisc
    exact ⟨t', hdisc, ⟨ht', hopts'.trans hopts⟩, hused⟩
  obtain ⟨s', hrun, ⟨h', hopts⟩, hused⟩ :=
    run_empties hstep ⟨h, rfl⟩ (List.range (s.opts.nsqr + 2))
  refine ⟨s', hrun, h', fun j => by_contra fun hj => ?_⟩
  exact (hused j hj).1 (List.mem_range.mpr (hopts ▸ (h'.sq j hj).1))

/-- The second loop of `nvme_close` leaves no completion queue. -/
theorem Accounts.discardCqs (hops : Releasing ops) (h : Accounts loose spare s) :
    ∃ s', Runs.run (nvmeDiscardCq ops) s (List.range (s.opts.ncqr + 2)) = some s' ∧
      Accounts loose spare s' ∧ s'.sq = s.sq ∧ ∀ j, (s'.cq j).mem.vaddr = 0 := by
  have hstep : ∀ t i, Accounts loose spare t ∧ t.opts = s.opts ∧ t.sq = s.sq →
      ∃ t', nvmeDiscardCq ops t i = some t' ∧
        (Accounts loose spare t' ∧ t'.opts = s.opts ∧ t'.sq = s.sq) ∧
        ∀ j, (t'.cq j).mem.vaddr ≠ 0 → j ≠ i ∧ (t.cq j).mem.vaddr ≠ 0 := by
    rintro t i ⟨ht, hopts, hsq⟩
    obtain ⟨t', hdisc, ht'⟩ := (ht.discardCq ops i).exists_post hops
    obtain ⟨hopts', hsq', hused⟩ := cqUsed_of_discardCq hdisc
    exact ⟨t', hdisc, ⟨ht', hopts'.trans hopts, hsq'.trans hsq⟩, hused⟩
  obtain ⟨s', hrun, ⟨h', hopts, hsq⟩, hused⟩ :=
    run_empties hstep ⟨h, rfl, rfl⟩ (List.range (s.opts.ncqr + 2))
  refine ⟨s', hrun, h', hsq, fun j => by_contra fun hj => ?_⟩
  exact (hused j hj).1 (List.mem_range.mpr (hopts ▸ (h'.cq j hj).1))

theorem Accounts.memory_of_empty (h : Accounts loose spare s)
    (hcq : ∀ j, (s.cq j).mem.vaddr = 0) (hsq : ∀ j, (s.sq j).mem.vaddr = 0) :
    s.ctx.memory = loose + s.shadow ∧ (s.heap.live : Multiset ℕ) = spare := by
  have hcqs : total Cq.holds (s.opts.ncqr + 2) s.cq = 0 :=
    total_eq_zero fun j _ => Cq.holds_of_empty (hcq j)
  have hsqs : total Sq.holds (s.opts.nsqr + 2) s.sq = 0 :=
    total_eq_zero fun j _ => Sq.holds_of_empty (hsq j)
  have htrackers : total Sq.trackers (s.opts.nsqr + 2) s.sq = 0 :=
    total_eq_zero fun j _ => Sq.trackers_of_empty (hsq j)
  have hmemory := h.memory
  have hheap := h.heap
  rw [hcqs, hsqs, zero_add, zero_add] at hmemory
  rw [htrackers, add_zero] at hheap
  exact ⟨hmemory, hheap⟩

/-- The end of `nvme_close` puts the shadow doorbells. -/
theorem Accounts.putShadow (hops : Releasing ops) (h : Accounts loose spare s)
    (hmemory : s.ctx.memory = loose + s.shadow) :
    ∃ s', (if s.doorbells.vaddr = 0 then some s
        else (putDoorbells ops s).bind (putEventidxs ops)) = some s' ∧
      s'.ctx.memory = loose ∧ s'.heap = s.heap := by
  by_cases hzero : s.doorbells.vaddr = 0
  · rw [State.shadow, if_pos hzero, add_zero] at hmemory
    exact ⟨s, if_pos hzero, hmemory, rfl⟩
  · obtain ⟨hdoorbells, heventidxs⟩ := h.dbbuf hzero
    have hboth : s.ctx.memory = s.doorbells.mapping 0 ::ₘ s.eventidxs.mapping 0 ::ₘ loose := by
      rw [hmemory, State.shadow, if_neg hzero, add_comm, Multiset.insert_eq_cons,
        Multiset.cons_add, Multiset.singleton_add]
    have hmem : s.doorbells.mapping 0 ∈ s.ctx.memory := hboth ▸ Multiset.mem_cons_self _ _
    obtain ⟨⟨_, ctx⟩, hput, -, hreleases⟩ :=
      (returns_iommuPutDmabuf h.mapped hdoorbells hmem).exists_post hops
    have hone : ctx.memory = s.eventidxs.mapping 0 ::ₘ loose := by
      rw [hreleases.memory, Multiset.cons_inj_right] at hboth
      exact hboth
    have hmem' : s.eventidxs.mapping 0 ∈ ctx.memory := hone ▸ Multiset.mem_cons_self _ _
    obtain ⟨⟨_, ctx'⟩, hput', -, hreleases'⟩ :=
      (returns_iommuPutDmabuf hreleases.mapped heventidxs hmem').exists_post hops
    rw [hreleases'.memory, Multiset.cons_inj_right] at hone
    refine ⟨_, (if_neg hzero).trans (Option.bind_eq_some_iff.mpr
      ⟨_, Option.map_eq_some_iff.mpr ⟨_, hput, rfl⟩, Option.map_eq_some_iff.mpr ⟨_, hput', rfl⟩⟩),
      hone, rfl⟩

theorem Accounts.close (hops : Releasing ops) (h : Accounts loose spare s) :
    ∃ s', nvmeClose ops s = some s' ∧ s'.ctx.memory = loose ∧
      (s'.heap.live : Multiset ℕ) = spare := by
  obtain ⟨t, hsqs, ht, hsq⟩ := h.discardSqs hops
  obtain ⟨u, hcqs, hu, hkeep, hcq⟩ := ht.discardCqs hops
  obtain ⟨hmemory, hheap⟩ := hu.memory_of_empty hcq (hkeep ▸ hsq)
  obtain ⟨v, hput, hdone, hlive⟩ := hu.putShadow hops hmemory
  refine ⟨v.cleared, ?_, hdone, ?_⟩
  · exact Option.bind_eq_some_iff.mpr ⟨t, hsqs, Option.bind_eq_some_iff.mpr
      ⟨u, hcqs, Option.map_eq_some_iff.mpr ⟨v, hput, rfl⟩⟩⟩
  · rw [← hheap, ← hlive]
    rfl

end Close

/-! ## Initializing -/

section Init

variable {ops : IommuCtxOps σ} {pageshift qid cq : ℕ} {s s' : State σ} {qsize vector : ℤ}
  {loose : Multiset IovaMapping} {spare : Multiset ℕ} {rest : List (U64 × Except Errno U64)}

def initRequests (pageshift : ℕ) (a : InitAnswers) : List (U64 × Except Errno U64) :=
  [(shiftedSize nvmeAqQsize 4, a.acq.mem),
    (pagesSize nvmeAqQsize (clampedMps pageshift a.cap), a.asq.pages),
    (shiftedSize nvmeAqQsize 6, a.asq.mem), (4096, a.buffer),
    (vfnPagesize pageshift, a.dbconfig.doorbells), (vfnPagesize pageshift, a.dbconfig.eventidxs)]

theorem cqSupplied_of_ok {a : CqAnswers}
    (h : nvmeConfigureCq ops pageshift s qid qsize vector a = (.ok (), s')) :
    CqSupplied ops pageshift s qsize a := by
  have hcfg := nvmeConfigureCq_configures ops pageshift s qid qsize vector a
  rw [h] at hcfg
  cases hcfg with
  | tried _ mem ctx hcheck hmem => rw [CqSupplied, hmem]

theorem sqSupplied_of_ok {a : SqAnswers}
    (h : nvmeConfigureSq ops pageshift s qid qsize cq a = some (.ok (), s')) :
    SqSupplied ops pageshift s qsize a := by
  cases nvmeConfigureSq_configures h with
  | configured pages mem ctx ctx' hcheck hpages hmem =>
      intro pages' ctx'' hpages'
      rw [hpages] at hpages'
      obtain ⟨-, -, rfl⟩ := hpages'
      rw [hmem]

/-- With empty slots, all memory that there is belongs to others. -/
theorem accounts_of_empty {ctx : IommuCtx σ} (hctx : s.ctx = ctx) (hheap : s.heap.live = [])
    (hmapped : ∃ xs, Mapped ctx.map xs) (hcq : s.cq = fun _ => .zeroed)
    (hsq : s.sq = fun _ => .zeroed) (hdoorbells : s.doorbells.vaddr = 0)
    (hncqa : s.ncqa ≤ s.opts.ncqr) (hnsqa : s.nsqa ≤ s.opts.nsqr) :
    Accounts ctx.memory 0 s := by
  have hcqs : total Cq.holds (s.opts.ncqr + 2) s.cq = 0 :=
    total_eq_zero fun j _ => Cq.holds_of_empty (hcq ▸ rfl)
  have hsqs : total Sq.holds (s.opts.nsqr + 2) s.sq = 0 :=
    total_eq_zero fun j _ => Sq.holds_of_empty (hsq ▸ rfl)
  have htrackers : total Sq.trackers (s.opts.nsqr + 2) s.sq = 0 :=
    total_eq_zero fun j _ => Sq.trackers_of_empty (hsq ▸ rfl)
  refine ⟨hctx ▸ hmapped, ?_, ?_, hncqa, hnsqa, ?_, ?_, fun hne => absurd hdoorbells hne⟩
  · rw [hctx, hcqs, hsqs, State.shadow, if_pos hdoorbells, add_zero, add_zero, add_zero]
  · rw [htrackers, hheap, add_zero, Multiset.coe_nil]
  · exact fun qid hne => absurd (hcq ▸ rfl) hne
  · exact fun qid hne => absurd (hsq ▸ rfl) hne

/-- `nvme_configure_adminq` puts its memory into empty slots. -/
theorem Accounts.configureAdminq {acq : CqAnswers} {asq : SqAnswers} (h : Accounts loose spare s)
    (hcq : (s.cq nvmeAq).mem.vaddr = 0) (hsq : (s.sq nvmeAq).mem.vaddr = 0)
    (hfresh : Fresh s.ctx.map (blocks (vfnPagesize pageshift)
      ((shiftedSize nvmeAqQsize 4, acq.mem) :: (pagesSize nvmeAqQsize s.mps, asq.pages) ::
        (shiftedSize nvmeAqQsize 6, asq.mem) :: rest)))
    (hcfg : nvmeConfigureAdminq ops pageshift s acq asq = some (.ok (), s')) :
    Accounts loose spare s' ∧ Fresh s'.ctx.map (blocks (vfnPagesize pageshift) rest) ∧
      s'.doorbells = s.doorbells := by
  rw [nvmeConfigureAdminq] at hcfg
  rcases hcqs : nvmeConfigureCq ops pageshift s nvmeAq nvmeAqQsize 0 acq with ⟨e | u, t⟩
  · rw [hcqs] at hcfg
    cases hcfg
  · rw [hcqs] at hcfg
    obtain ⟨ht, hrest, hkeep, hmps, hdoorbells⟩ :=
      h.configureCq hcq hfresh (fun _ => cqSupplied_of_ok hcqs) hcqs
    obtain ⟨⟨res, v⟩, hsqs, hend⟩ := Option.bind_eq_some_iff.mp hcfg
    obtain ⟨rfl, rfl⟩ := nvmeConfigureAdminqEnd_ok hend
    rw [← hmps] at hrest
    obtain ⟨hv, hrest', hdoorbells'⟩ :=
      ht.configureSq (hkeep ▸ hsq) hrest (sqSupplied_of_ok hsqs) hsqs
    exact ⟨⟨hv.mapped, hv.memory, hv.heap, hv.ncqa_le, hv.nsqa_le, hv.cq, hv.sq, hv.dbbuf⟩,
      hrest', hdoorbells'.trans hdoorbells⟩

/-- The pointers of a queue do not count. -/
theorem Accounts.setCqDbbuf (h : Accounts loose spare s) (qid : ℕ) (dbbuf : Dbbuf) :
    Accounts loose spare (s.setCq qid { s.cq qid with dbbuf := dbbuf }) := by
  have hslots : ∀ i, ∃ d, (s.setCq qid { s.cq qid with dbbuf := dbbuf }).cq i =
      { s.cq i with dbbuf := d } :=
    (Function.forall_update_iff s.cq fun i q => ∃ d, q = { s.cq i with dbbuf := d }).mpr
      ⟨⟨dbbuf, rfl⟩, fun i _ => ⟨(s.cq i).dbbuf, rfl⟩⟩
  have htotal : total Cq.holds (s.opts.ncqr + 2)
      (s.setCq qid { s.cq qid with dbbuf := dbbuf }).cq =
        total Cq.holds (s.opts.ncqr + 2) s.cq := by
    refine total_congr fun i => ?_
    obtain ⟨d, hd⟩ := hslots i
    rw [hd]
    rfl
  refine ⟨h.mapped, h.memory.trans ?_, h.heap, h.ncqa_le, h.nsqa_le, fun i => ?_, h.sq, h.dbbuf⟩
  · rw [← htotal]
    rfl
  · obtain ⟨d, hd⟩ := hslots i
    rw [hd]
    exact h.cq i

theorem Accounts.setSqDbbuf (h : Accounts loose spare s) (qid : ℕ) (dbbuf : Dbbuf) :
    Accounts loose spare (s.setSq qid { s.sq qid with dbbuf := dbbuf }) := by
  have hslots : ∀ i, ∃ d, (s.setSq qid { s.sq qid with dbbuf := dbbuf }).sq i =
      { s.sq i with dbbuf := d } :=
    (Function.forall_update_iff s.sq fun i q => ∃ d, q = { s.sq i with dbbuf := d }).mpr
      ⟨⟨dbbuf, rfl⟩, fun i _ => ⟨(s.sq i).dbbuf, rfl⟩⟩
  have htotal : total Sq.holds (s.opts.nsqr + 2)
      (s.setSq qid { s.sq qid with dbbuf := dbbuf }).sq =
        total Sq.holds (s.opts.nsqr + 2) s.sq := by
    refine total_congr fun i => ?_
    obtain ⟨d, hd⟩ := hslots i
    rw [hd]
    rfl
  have htrackers : total Sq.trackers (s.opts.nsqr + 2)
      (s.setSq qid { s.sq qid with dbbuf := dbbuf }).sq =
        total Sq.trackers (s.opts.nsqr + 2) s.sq := by
    refine total_congr fun i => ?_
    obtain ⟨d, hd⟩ := hslots i
    rw [hd]
    rfl
  refine ⟨h.mapped, h.memory.trans ?_, h.heap.trans ?_, h.ncqa_le, h.nsqa_le, h.cq, fun i => ?_,
    h.dbbuf⟩
  · rw [← htotal]
    rfl
  · rw [← htrackers]
    rfl
  · obtain ⟨d, hd⟩ := hslots i
    rw [hd]
    exact h.sq i

theorem Accounts.setAdminDbbuf (h : Accounts loose spare s) (dstrd : ℕ) :
    Accounts loose spare (s.setAdminDbbuf dstrd) := by
  rw [State.setAdminDbbuf]
  split_ifs
  · exact h
  · exact (h.setCqDbbuf nvmeAq _).setSqDbbuf nvmeAq _

/-- The buffers of the doorbells are taken into the controller. -/
theorem Accounts.withDbbuf {doorbells eventidxs : Iommu.IommuDmabuf} {ctx : IommuCtx σ}
    (h : Accounts (eventidxs.mapping 0 ::ₘ doorbells.mapping 0 ::ₘ loose) spare
      { s with ctx := ctx })
    (hnone : s.doorbells.vaddr = 0) (hdoorbells : doorbells.vaddr ≠ 0)
    (hlen : doorbells.len ≠ 0 ∧ eventidxs.len ≠ 0) :
    Accounts loose spare (s.withDbbuf doorbells eventidxs ctx) := by
  refine ⟨h.mapped, ?_, h.heap, h.ncqa_le, h.nsqa_le, h.cq, h.sq, fun _ => hlen⟩
  have hold : State.shadow { s with ctx := ctx } = 0 := if_pos hnone
  have hnew : (s.withDbbuf doorbells eventidxs ctx).shadow =
      {doorbells.mapping 0, eventidxs.mapping 0} := if_neg hdoorbells
  refine h.memory.trans ?_
  rw [hold, hnew, Multiset.insert_eq_cons, ← Multiset.singleton_add (eventidxs.mapping 0),
    ← Multiset.singleton_add (doorbells.mapping 0), ← Multiset.singleton_add (doorbells.mapping 0)]
  dsimp only [State.withDbbuf]
  abel

theorem Accounts.initDbconfig {a : DbconfigAnswers} (h : Accounts loose spare s)
    (hnone : s.doorbells.vaddr = 0)
    (hfresh : Fresh s.ctx.map (blocks (vfnPagesize pageshift)
      [(vfnPagesize pageshift, a.doorbells), (vfnPagesize pageshift, a.eventidxs)]))
    (hinit : nvmeInitDbconfig ops pageshift s a = some (.ok (), s')) :
    Accounts loose spare s' := by
  obtain ⟨doorbells, eventidxs, ctx, ctx', hget, hget', rfl⟩ := (nvmeInitDbconfig_inits hinit).2 rfl
  obtain ⟨hrest, ⟨-, hobtains⟩ | ⟨⟨e, he⟩, -⟩⟩ := hfresh.get h.mapped hget
  · obtain ⟨-, ⟨-, hobtains'⟩ | ⟨⟨e, he⟩, -⟩⟩ := hrest.get hobtains.mapped hget'
    · exact (((h.take hobtains).take hobtains').withDbbuf hnone hobtains.vaddr_ne
        ⟨hobtains.len_ne, hobtains'.len_ne⟩).setAdminDbbuf _
    · cases he
  · cases he

theorem Accounts.initIdentified {a : InitAnswers} (h : Accounts loose spare s)
    (hnone : s.doorbells.vaddr = 0)
    (hfresh : Fresh s.ctx.map (blocks (vfnPagesize pageshift)
      [(vfnPagesize pageshift, a.dbconfig.doorbells),
        (vfnPagesize pageshift, a.dbconfig.eventidxs)]))
    (hinit : nvmeInitIdentified ops pageshift s a = some (.ok (), s')) :
    Accounts loose spare s' := by
  rw [nvmeInitIdentified] at hinit
  rcases hidentify : a.identify with e | ⟨oacs, sgls⟩
  · rw [hidentify] at hinit
    cases hinit
  · rw [hidentify] at hinit
    obtain ⟨⟨e | u, t⟩, hdbconfig, hs'⟩ := Option.map_eq_some_iff.mp hinit
    · cases hs'
    · obtain ⟨-, rfl⟩ := Prod.mk.inj hs'
      have ht : Accounts loose spare t := by
        split_ifs at hdbconfig with hoacs
        · obtain ⟨-, rfl⟩ := Prod.mk.inj (Option.some.inj hdbconfig)
          exact h
        · exact h.initDbconfig hnone hfresh hdbconfig
      exact ⟨ht.mapped, ht.memory, ht.heap, ht.ncqa_le, ht.nsqa_le, ht.cq, ht.sq, ht.dbbuf⟩

/-- The buffer of the identify data is loose while it is used. -/
theorem Accounts.initQueues {a : InitAnswers} (h : Accounts loose spare s)
    (hnone : s.doorbells.vaddr = 0)
    (hfresh : Fresh s.ctx.map (blocks (vfnPagesize pageshift)
      [(4096, a.buffer), (vfnPagesize pageshift, a.dbconfig.doorbells),
        (vfnPagesize pageshift, a.dbconfig.eventidxs)]))
    (hinit : nvmeInitQueues ops pageshift s a = some (.ok (), s')) :
    Accounts loose spare s' := by
  rw [nvmeInitQueues] at hinit
  rcases hfeatures : a.features with e | dw0
  · rw [hfeatures] at hinit
    cases hinit
  · rw [hfeatures] at hinit
    dsimp only at hinit
    rcases hbuffer : Iommu.iommuGetDmabuf ops (vfnPagesize pageshift) s.ctx .zeroed 4096
      iommuMapEphemeral a.buffer with ⟨e | u, buffer, ctx⟩
    · rw [hbuffer] at hinit
      obtain ⟨p, -, hs'⟩ := Option.map_eq_some_iff.mp hinit
      cases hs'
    · rw [hbuffer] at hinit
      obtain ⟨⟨res, t⟩, hidentified, hend⟩ := Option.bind_eq_some_iff.mp hinit
      obtain ⟨p, hput, hs'⟩ := Option.map_eq_some_iff.mp hend
      obtain ⟨rfl, rfl⟩ := Prod.mk.inj hs'
      have hgranted : Accounts loose spare (s.granted dw0) :=
        ⟨h.mapped, h.memory, h.heap, min_le_left _ _, min_le_left _ _, h.cq, h.sq, h.dbbuf⟩
      obtain ⟨hrest, ⟨-, hobtains⟩ | ⟨⟨e, he⟩, -⟩⟩ := hfresh.get h.mapped hbuffer
      · have ht := (hgranted.take hobtains).initIdentified hnone hrest hidentified
        exact (ht.put ops hobtains.len_ne).of_eq_some p hput
      · cases he

theorem Accounts.initEnabled {a : InitAnswers} (h : Accounts loose spare s)
    (hnone : s.doorbells.vaddr = 0)
    (hfresh : Fresh s.ctx.map (blocks (vfnPagesize pageshift)
      [(4096, a.buffer), (vfnPagesize pageshift, a.dbconfig.doorbells),
        (vfnPagesize pageshift, a.dbconfig.eventidxs)]))
    (hinit : nvmeInitEnabled ops pageshift s a = some (.ok (), s')) :
    Accounts loose spare s' := by
  rw [nvmeInitEnabled] at hinit
  cases henable : a.enable with
  | error e =>
      rw [henable] at hinit
      cases hinit
  | ok u =>
      rw [henable] at hinit
      dsimp only at hinit
      split_ifs at hinit with hflags
      · obtain ⟨-, rfl⟩ := Prod.mk.inj (Option.some.inj hinit)
        exact h
      · exact h.initQueues hnone hfresh hinit

theorem accounts_of_nvmeCtrlInit {ctx : IommuCtx σ} {opts : Option Opts}
    {pci : Except Errno (BitVec 32)} {cap : U64} (hmapped : ∃ xs, Mapped ctx.map xs)
    (hinit : nvmeCtrlInit pageshift (State.init ctx) opts pci cap = (.ok (), s)) :
    Accounts ctx.memory 0 s ∧ s.ctx = ctx ∧ s.mps = clampedMps pageshift cap ∧
      s.doorbells.vaddr = 0 ∧ (s.cq nvmeAq).mem.vaddr = 0 ∧ (s.sq nvmeAq).mem.vaddr = 0 := by
  cases pci with
  | error e => cases (Prod.mk.inj hinit).1
  | ok classcode =>
      rw [nvmeCtrlInit] at hinit
      dsimp only at hinit
      by_cases hlarge : pageshift < mpsToPageshift (clampedMps pageshift cap)
      · rw [if_pos hlarge] at hinit
        cases (Prod.mk.inj hinit).1
      · rw [if_neg hlarge] at hinit
        obtain ⟨-, rfl⟩ := Prod.mk.inj hinit
        refine ⟨?_, rfl, rfl, rfl, rfl, rfl⟩
        exact accounts_of_empty rfl rfl hmapped rfl rfl rfl (Nat.zero_le _) (Nat.zero_le _)

/-- After `nvme_init` the books are right, with the memory that was there before. -/
theorem accounts_of_nvmeInit {ctx : IommuCtx σ} {opts : Option Opts} {a : InitAnswers}
    (hmapped : ∃ xs, Mapped ctx.map xs)
    (hfresh : Fresh ctx.map (blocks (vfnPagesize pageshift) (initRequests pageshift a)))
    (hinit : nvmeInit ops pageshift (State.init ctx) opts a = some (.ok (), s')) :
    Accounts ctx.memory 0 s' := by
  rw [nvmeInit] at hinit
  rcases hctrl : nvmeCtrlInit pageshift (State.init ctx) opts a.pci a.cap with ⟨e | u, t⟩
  · rw [hctrl] at hinit
    cases hinit
  · rw [hctrl] at hinit
    obtain ⟨ht, rfl, hmps, hnone, hcq, hsq⟩ := accounts_of_nvmeCtrlInit hmapped hctrl
    rw [initRequests, ← hmps] at hfresh
    cases hreset : a.reset with
    | error e =>
        rw [hreset] at hinit
        cases hinit
    | ok u =>
        rw [hreset] at hinit
        obtain ⟨⟨e | u, v⟩, hadminq, henabled⟩ := Option.bind_eq_some_iff.mp hinit
        · cases henabled
        · obtain ⟨hv, hrest, hdoorbells⟩ := ht.configureAdminq hcq hsq hfresh hadminq
          exact hv.initEnabled (hdoorbells ▸ hnone) hrest henabled

/-! Without the quirk, an `nvme_init` that succeeds has given their pointers to the admin queues. -/

theorem not_dbconfigSpoils_of_ok {a : DbconfigAnswers} (hquirk : s.opts.brokenDbbuf = false)
    (hinit : nvmeInitDbconfig ops pageshift s a = some (.ok (), s')) :
    ¬DbconfigSpoils ops pageshift s a := by
  obtain ⟨doorbells, eventidxs, ctx, ctx', hget, -⟩ := (nvmeInitDbconfig_inits hinit).2 rfl
  rw [DbconfigSpoils, hget]
  rintro ⟨-, hbroken, -⟩
  rw [hquirk] at hbroken
  cases hbroken

theorem not_identifiedSpoils_of_ok {a : InitAnswers} (hquirk : s.opts.brokenDbbuf = false)
    (hinit : nvmeInitIdentified ops pageshift s a = some (.ok (), s')) :
    ¬IdentifiedSpoils ops pageshift s a := by
  rw [nvmeInitIdentified] at hinit
  rw [IdentifiedSpoils]
  rcases hidentify : a.identify with e | ⟨oacs, sgls⟩
  · exact not_false
  · rw [hidentify] at hinit
    rintro ⟨hoacs, hspoils⟩
    obtain ⟨⟨e | u, t⟩, hdbconfig, hs'⟩ := Option.map_eq_some_iff.mp hinit
    · cases hs'
    · rw [if_neg hoacs] at hdbconfig
      exact not_dbconfigSpoils_of_ok hquirk hdbconfig hspoils

theorem not_queuesSpoil_of_ok {a : InitAnswers} (hquirk : s.opts.brokenDbbuf = false)
    (hinit : nvmeInitQueues ops pageshift s a = some (.ok (), s')) :
    ¬QueuesSpoil ops pageshift s a := by
  rw [nvmeInitQueues] at hinit
  rw [QueuesSpoil]
  rcases hfeatures : a.features with e | dw0
  · exact not_false
  · rw [hfeatures] at hinit
    dsimp only at hinit ⊢
    rcases hbuffer : Iommu.iommuGetDmabuf ops (vfnPagesize pageshift) s.ctx .zeroed 4096
      iommuMapEphemeral a.buffer with ⟨e | u, buffer, ctx⟩
    · exact not_false
    · rw [hbuffer] at hinit
      obtain ⟨⟨res, t⟩, hidentified, hput⟩ := Option.bind_eq_some_iff.mp hinit
      obtain ⟨p, -, hs'⟩ := Option.map_eq_some_iff.mp hput
      obtain ⟨rfl, -⟩ := Prod.mk.inj hs'
      exact not_identifiedSpoils_of_ok hquirk hidentified

theorem nvmeCtrlInit_opts {opts : Option Opts} {pci : Except Errno (BitVec 32)} {cap : U64}
    (hinit : nvmeCtrlInit pageshift s opts pci cap = (.ok (), s')) :
    s'.opts = opts.getD .default := by
  cases pci with
  | error e => cases (Prod.mk.inj hinit).1
  | ok classcode =>
      rw [nvmeCtrlInit] at hinit
      dsimp only at hinit
      by_cases hlarge : pageshift < mpsToPageshift (clampedMps pageshift cap)
      · rw [if_pos hlarge] at hinit
        cases (Prod.mk.inj hinit).1
      · rw [if_neg hlarge] at hinit
        rw [← (Prod.mk.inj hinit).2]

theorem nvmeConfigureAdminq_opts {acq : CqAnswers} {asq : SqAnswers}
    (hcfg : nvmeConfigureAdminq ops pageshift s acq asq = some (.ok (), s')) :
    s'.opts = s.opts := by
  have hcq := nvmeConfigureCq_configures ops pageshift s nvmeAq nvmeAqQsize 0 acq
  rw [nvmeConfigureAdminq] at hcfg
  generalize nvmeConfigureCq ops pageshift s nvmeAq nvmeAqQsize 0 acq = r at hcq hcfg
  obtain ⟨e | u, t⟩ := r
  · cases hcfg
  · have ht : t.opts = s.opts := by
      cases hcq with
      | tried => rfl
    obtain ⟨⟨res, v⟩, hsq, hend⟩ := Option.bind_eq_some_iff.mp hcfg
    obtain ⟨-, rfl⟩ := nvmeConfigureAdminqEnd_ok hend
    have hv : v.opts = t.opts := by
      cases nvmeConfigureSq_configures hsq with
      | refused | noPages | noMem | configured => rfl
    exact hv.trans ht

theorem not_initSpoils_of_ok {opts : Option Opts} {a : InitAnswers}
    (hquirk : (opts.getD .default).brokenDbbuf = false)
    (hinit : nvmeInit ops pageshift s opts a = some (.ok (), s')) :
    ¬InitSpoils ops pageshift s opts a := by
  rintro ⟨t, u, hctrl, hreset, hadminq, henable, hflags, hspoil⟩
  rw [nvmeInit, hctrl, hreset] at hinit
  dsimp only at hinit
  rw [hadminq, Option.bind_some] at hinit
  dsimp only at hinit
  rw [nvmeInitEnabled, henable] at hinit
  dsimp only at hinit
  rw [if_neg (not_not.mpr hflags)] at hinit
  have hopts : u.opts = opts.getD .default :=
    (nvmeConfigureAdminq_opts hadminq).trans (nvmeCtrlInit_opts hctrl)
  exact not_queuesSpoil_of_ok (hopts ▸ hquirk) hinit hspoil

end Init

/-! ## Whole lives -/

theorem LifeCall.Orderly.sound {ops : IommuCtxOps σ} {pageshift : ℕ} {s : State σ}
    {call : LifeCall} (h : call.Orderly ops pageshift s) : call.Sound ops pageshift s := by
  cases call with
  | init => exact h.elim
  | create | deleteIocq | deleteIosq | deleteIoqpair | close => trivial

/-- After `nvme_init`, any calls for I/O queues that are in order and `nvme_close`, exactly those
mappings are there that were there before, and no trackers are left. All of these return, and they
store nothing through `NULL`. -/
theorem nvmeClose_gives_all_back {ops : IommuCtxOps σ} {pageshift : ℕ} {ctx : IommuCtx σ}
    {opts : Option Opts} {a : InitAnswers} {s : State σ} {calls : List LifeCall}
    (hops : Releasing ops) (hquirk : (opts.getD .default).brokenDbbuf = false)
    (hmapped : ∃ xs, Mapped ctx.map xs)
    (hfresh : Fresh ctx.map (blocks (vfnPagesize pageshift) (initRequests pageshift a)))
    (hinit : nvmeInit ops pageshift (State.init ctx) opts a = some (.ok (), s))
    (hcalls : Runs.MeetsAlong (lifeStep ops pageshift) (LifeCall.Orderly ops pageshift) s calls) :
    ∃ s' t, Runs.run (lifeStep ops pageshift) s calls = some s' ∧ nvmeClose ops s' = some t ∧
      t.ctx.map.held.Perm ctx.map.held ∧ t.heap.live = [] ∧ ∀ p ∈ t.stores, p ≠ none := by
  have hstep : ∀ s call, Accounts ctx.memory 0 s ∧ PointersSet s →
      LifeCall.Orderly ops pageshift s call → Returns (Releasing ops)
        (fun s => Accounts ctx.memory 0 s ∧ PointersSet s) (lifeStep ops pageshift s call) := by
    rintro s call ⟨h, hset⟩ horderly
    have hnext := h.step horderly
    exact ⟨hnext.exists_eq_some, fun t ht =>
      ⟨hnext.of_eq_some t ht, (lifeStep_iff hset ht).mpr horderly.sound⟩⟩
  have hstart : PointersSet (State.init ctx) := pointersSet_of_zero rfl fun p hp => by cases hp
  have hset : PointersSet s := (nvmeInit_iff hstart hinit).mpr (not_initSpoils_of_ok hquirk hinit)
  obtain ⟨s', hrun, hs', hset'⟩ :=
    (returns_run hstep ⟨accounts_of_nvmeInit hmapped hfresh hinit, hset⟩ hcalls).exists_post hops
  obtain ⟨t, hclose, hmemory, hheap⟩ := hs'.close hops
  exact ⟨s', t, hrun, hclose, Multiset.coe_eq_coe.mp hmemory, Multiset.coe_eq_zero _ |>.mp hheap,
    (hset'.close hclose).stores⟩

def sharedCtx : IommuCtx Unit :=
  (iommuMapVaddr identityOps (identityCtx fun _ => true) 0x5000 0x1000 0 0).2

theorem sharedCtx_mapped : ∃ xs, Mapped sharedCtx.map xs := by
  have hfresh : Fresh (identityCtx fun _ => true).map [(0x5000, 0x1000)] :=
    fresh_of_standsClear (by decide +kernel)
  exact mapped_step (.map 0x5000 0x1000 0 0) ⟨[], mapped_init _ _⟩
    (.inr (hfresh.unmapped _ List.mem_cons_self)) rfl

def sharedInit : Option (Except Errno Unit × State Unit) :=
  nvmeInit identityOps 12 (State.init sharedCtx) (some ⟨0, 0, 0⟩) dbbufAnswers

def pairCall : CreateCall :=
  .ioqpair 1 4 0 ⟨0, .ok 0x90000⟩ (.ok ()) ⟨0, .ok 0xa0000, .ok 0xb0000⟩ (.ok ())

def pairCq (s : State Unit) : State Unit :=
  (nvmeCreateIocq identityOps 12 s 1 4 0 ⟨0, .ok 0x90000⟩ (.ok ())).2

theorem pairCall_fresh {s : State Unit} (hinit : sharedInit = some (.ok (), s)) :
    pairCall.SlotsFree s ∧ Fresh s.ctx.map (blocks (vfnPagesize 12) (pairCall.requests s)) := by
  have hslots : sharedInit.all (fun r =>
      (r.2.cq 1).mem.vaddr = 0 ∧ (r.2.sq 1).mem.vaddr = 0) = true := by
    decide +kernel
  have hclear : sharedInit.all (fun r =>
      standsClear r.2.ctx.map (blocks (vfnPagesize 12) (pairCall.requests r.2))) = true := by
    decide +kernel
  rw [hinit] at hslots hclear
  have hfree := of_decide_eq_true hslots
  exact ⟨hfree, fresh_of_standsClear hclear⟩

theorem pairCall_supplied {s : State Unit} (hinit : sharedInit = some (.ok (), s)) :
    pairCall.Supplied identityOps 12 s := by
  have hcq : sharedInit.all (fun r => (Iommu.iommuGetDmabuf identityOps (vfnPagesize 12) r.2.ctx
      .zeroed (shiftedSize 4 4) 0 (.ok 0x90000)).1 = .ok ()) = true := by
    decide +kernel
  have hsq : sharedInit.all (fun r => (Iommu.iommuGetDmabuf identityOps (vfnPagesize 12)
      (Iommu.iommuGetDmabuf identityOps (vfnPagesize 12) (pairCq r.2).ctx .zeroed
        (pagesSize 4 (pairCq r.2).mps) 0 (.ok 0xa0000)).2.2
      .zeroed (shiftedSize 4 6) 0 (.ok 0xb0000)).1 = .ok ()) = true := by
    decide +kernel
  rw [hinit] at hcq hsq
  have hmem := of_decide_eq_true hcq
  have hmem' := of_decide_eq_true hsq
  refine ⟨fun _ => hmem, fun t ht pages ctx hpages => ?_⟩
  have hpair : pairCq s = t := congrArg Prod.snd ht
  rw [hpair, hpages] at hmem'
  exact hmem'

/-- A pair of I/O queues is created, its submission queue is deleted, and the completion queue is
left to `nvme_close`. -/
theorem nvmeClose_gives_all_back_shared :
    let calls := [LifeCall.create pairCall, .deleteIosq 1 (.ok ())]
    sharedInit.map (fun r => r.2.ctx.map.held.map IovaMapping.vaddr) =
        some [0x5000, 0x10000, 0x20000, 0x60000, 0x80000, 0x81000] ∧
      ∀ s, sharedInit = some (.ok (), s) → ∃ s' t,
        Runs.run (lifeStep identityOps 12) s calls = some s' ∧ nvmeClose identityOps s' = some t ∧
          t.ctx.map.held.Perm sharedCtx.map.held ∧ t.heap.live = [] ∧
            ∀ p ∈ t.stores, p ≠ none := by
  refine ⟨by decide +kernel, fun s hinit => ?_⟩
  obtain ⟨hfree, hfresh⟩ := pairCall_fresh hinit
  refine nvmeClose_gives_all_back (fun _ _ _ => ⟨(), rfl⟩) rfl sharedCtx_mapped
    (fresh_of_standsClear (by decide +kernel)) hinit ?_
  exact ⟨⟨hfree, hfresh, pairCall_supplied hinit⟩, fun _ _ => ⟨trivial, fun _ _ => trivial⟩⟩

end Ctrl

end Nvme

end Libvfn
