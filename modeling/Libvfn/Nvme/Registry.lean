import Libvfn.Foundation.Run
import Libvfn.Vfio.Pci

/-!
# The registry of controllers

Controllers can be added to a list of handles, looked up there by the address of their PCI
device, and deleted again. A handle has no address of its own: each lookup compares with the
`bdf` of the controller that the handle points to, and `nvme_close` clears this field without
a look at the list.

We follow the list through all calls, together with what it is for: for every address, the
controller that was added under it and neither deleted nor closed since. A comparison with
`NULL` ends the process.
-/

namespace Libvfn

namespace Nvme

open Support Vfio

/-- The PCI devices of the controllers, which are given by their addresses, and the list
`nvme_ctrl_handles`. A handle is given by the controller that it points to. -/
structure Registry (δ : Type*) where
  pci : ℕ → VfioPciDevice δ
  handles : List ℕ

section Functions

variable {δ : Type*}

def Registry.bdf (r : Registry δ) (ctrl : ℕ) : Option δ := (r.pci ctrl).bdf

variable [DecidableEq δ]

/-- `nvme_get_ctrl_handle`, over the rest of the list; `none` if `NULL` is compared with. -/
def nvmeGetCtrlHandle (r : Registry δ) (bdf : Option δ) : List ℕ → Option (Option ℕ)
  | [] => some none
  | handle :: handles =>
      match r.bdf handle, bdf with
      | some a, some b => if a = b then some (some handle) else nvmeGetCtrlHandle r bdf handles
      | _, _ => none

def nvmeGetCtrl (r : Registry δ) (bdf : Option δ) : Option (Option ℕ) :=
  nvmeGetCtrlHandle r bdf r.handles

def nvmeAddCtrl (r : Registry δ) (ctrl : ℕ) : Option (Except Errno Unit × Registry δ) :=
  (nvmeGetCtrl r (r.bdf ctrl)).map fun
    | some _ => (.error .EEXIST, r)
    | none => (.ok (), { r with handles := r.handles ++ [ctrl] })

/-- `nvme_del_ctrl`. The handle that is found is the first one of its controller. -/
def nvmeDelCtrl (r : Registry δ) (ctrl : ℕ) : Option (Except Errno Unit × Registry δ) :=
  (nvmeGetCtrlHandle r (r.bdf ctrl) r.handles).map fun
    | none => (.error .ENODEV, r)
    | some handle => (.ok (), { r with handles := r.handles.erase handle })

def Registry.closeCtrl (r : Registry δ) (ctrl : ℕ) : Registry δ :=
  { r with pci := Function.update r.pci ctrl (.zeroed δ) }

end Functions

/-- A call. `nvme_init` leaves the PCI device of the controller open. -/
inductive RegistryOp (δ : Type*) where
  | init (ctrl : ℕ) (pci : VfioPciDevice δ)
  | add (ctrl : ℕ)
  | del (ctrl : ℕ)
  | get (bdf : δ)
  | close (ctrl : ℕ)

/-- The registry, the controller that was added under an address and neither deleted nor
closed since, and whether the process has ended. -/
structure Tracked (δ : Type*) where
  registry : Registry δ
  added : δ → Option ℕ
  ended : Bool

section Runs

variable {δ : Type*} [DecidableEq δ]

def nextAdded (bdf : ℕ → Option δ) (added : δ → Option ℕ) : RegistryOp δ → δ → Option ℕ
  | .add ctrl => fun b => if bdf ctrl = some b ∧ added b = none then some ctrl else added b
  | .del ctrl => fun b => if bdf ctrl = some b then none else added b
  | .close ctrl => fun b => if added b = some ctrl then none else added b
  | _ => added

def Registry.next (r : Registry δ) : RegistryOp δ → Option (Registry δ)
  | .init ctrl pci => some { r with pci := Function.update r.pci ctrl pci }
  | .add ctrl => (nvmeAddCtrl r ctrl).map Prod.snd
  | .del ctrl => (nvmeDelCtrl r ctrl).map Prod.snd
  | .get bdf => (nvmeGetCtrl r (some bdf)).map fun _ => r
  | .close ctrl => some (r.closeCtrl ctrl)

/-- The call can be made: a controller is initialized once it is closed, and closed once it is
initialized. -/
def RegistryOp.enabled (r : Registry δ) : RegistryOp δ → Bool
  | .init ctrl pci => r.bdf ctrl = none && pci.bdf.isSome
  | .close ctrl => (r.bdf ctrl).isSome
  | _ => true

def registryStep (t : Tracked δ) (o : RegistryOp δ) : Option (Tracked δ) :=
  if t.ended || !o.enabled t.registry then none
  else
    match t.registry.next o with
    | none => some { t with ended := true }
    | some r => some ⟨r, nextAdded t.registry.bdf t.added o, false⟩

/-- The registry refers to open controllers, has one handle for an address, and says what was
added. -/
structure Tracks (t : Tracked δ) : Prop where
  running : t.ended = false
  nonNull : ∀ ctrl ∈ t.registry.handles, t.registry.bdf ctrl ≠ none
  distinct : t.registry.handles.Pairwise fun c c' => t.registry.bdf c ≠ t.registry.bdf c'
  get : ∀ bdf, nvmeGetCtrl t.registry (some bdf) = some (t.added bdf)
  /-- `nvme_del_ctrl` finds no handle. -/
  unknown : ∀ ctrl bdf, t.registry.bdf ctrl = some bdf → t.added bdf = none →
    nvmeDelCtrl t.registry ctrl = some (.error .ENODEV, t.registry)
  /-- `nvme_del_ctrl` removes the handle of the controller that was added, and no other. -/
  del : ∀ ctrl bdf c, t.registry.bdf ctrl = some bdf → t.added bdf = some c →
    ∃ before after, t.registry.handles = before ++ c :: after ∧
      nvmeDelCtrl t.registry ctrl = some (.ok (), { t.registry with handles := before ++ after })

/-- The condition on the calls: a controller is not closed while it is registered, and not
added or looked for when it is closed. -/
def RegistryOp.Orderly (t : Tracked δ) : RegistryOp δ → Prop
  | .add ctrl => t.registry.bdf ctrl ≠ none
  | .del ctrl => t.registry.bdf ctrl ≠ none ∨ t.registry.handles = []
  | .close ctrl => ctrl ∉ t.registry.handles
  | _ => True

@[simp] theorem nextAdded_add (bdf : ℕ → Option δ) (added : δ → Option ℕ) (c : ℕ) (b : δ) :
    nextAdded bdf added (.add c) b =
      if bdf c = some b ∧ added b = none then some c else added b := rfl

@[simp] theorem nextAdded_del (bdf : ℕ → Option δ) (added : δ → Option ℕ) (c : ℕ) (b : δ) :
    nextAdded bdf added (.del c) b = if bdf c = some b then none else added b := rfl

/-! ## Lookups -/

section Lookup

variable {r r' : Registry δ} {handles : List ℕ}

theorem nvmeGetCtrlHandle_eq (h : ∀ ctrl ∈ handles, r.bdf ctrl ≠ none) (b : δ) :
    nvmeGetCtrlHandle r (some b) handles = some (handles.find? fun c => r.bdf c = some b) := by
  induction handles with
  | nil => rfl
  | cons c cs ih =>
      obtain ⟨a, ha⟩ := Option.ne_none_iff_exists'.mp (h c List.mem_cons_self)
      simp only [nvmeGetCtrlHandle, ha]
      split_ifs with hab
      · rw [List.find?_cons_of_pos (by simp [ha, hab])]
      · rw [List.find?_cons_of_neg (by simp [ha, hab])]
        exact ih fun c' hc' => h c' (List.mem_cons_of_mem c hc')

theorem nvmeGetCtrlHandle_none (r : Registry δ) (handles : List ℕ) :
    nvmeGetCtrlHandle r none handles = if handles = [] then some none else none := by
  cases handles with
  | nil => rfl
  | cons c cs =>
      rw [if_neg (List.cons_ne_nil c cs)]
      cases hc : r.bdf c <;> simp only [nvmeGetCtrlHandle, hc]

theorem find?_bdf_congr (h : ∀ ctrl ∈ handles, r'.bdf ctrl = r.bdf ctrl) (b : δ) :
    (handles.find? fun c => r'.bdf c = some b) = handles.find? fun c => r.bdf c = some b := by
  induction handles with
  | nil => rfl
  | cons c cs ih =>
      rw [List.find?_cons, List.find?_cons, h c List.mem_cons_self,
        ih fun c' hc' => h c' (List.mem_cons_of_mem c hc')]

end Lookup

/-! ## One call -/

section Step

variable {t t' : Tracked δ}

theorem Tracks.find?_eq (h : Tracks t) (b : δ) :
    (t.registry.handles.find? fun c => t.registry.bdf c = some b) = t.added b := by
  have hget := h.get b
  rw [nvmeGetCtrl, nvmeGetCtrlHandle_eq h.nonNull] at hget
  exact Option.some.inj hget

/-- It is enough to know what a lookup finds. -/
theorem tracks_of_find? (hrunning : t.ended = false)
    (hnull : ∀ ctrl ∈ t.registry.handles, t.registry.bdf ctrl ≠ none)
    (hdistinct : t.registry.handles.Pairwise fun c c' => t.registry.bdf c ≠ t.registry.bdf c')
    (hfind : ∀ b, (t.registry.handles.find? fun c => t.registry.bdf c = some b) = t.added b) :
    Tracks t := by
  have hget : ∀ b, nvmeGetCtrlHandle t.registry (some b) t.registry.handles =
      some (t.added b) := fun b => by
    rw [nvmeGetCtrlHandle_eq hnull, hfind]
  refine ⟨hrunning, hnull, hdistinct, hget, fun ctrl b hb hnone => ?_, fun ctrl b c hb hc => ?_⟩
  · rw [nvmeDelCtrl, hb, hget b, hnone]
    rfl
  · have hfound := (hfind b).trans hc
    obtain ⟨before, after, -, hsplit, herase⟩ :=
      List.exists_erase_eq (List.mem_of_find?_eq_some hfound)
    refine ⟨before, after, hsplit, ?_⟩
    rw [nvmeDelCtrl, hb, hget b, hc, ← herase]
    rfl

theorem Tracks.congr (h : Tracks t) {r : Registry δ} {added : δ → Option ℕ}
    (hhandles : r.handles = t.registry.handles)
    (hbdf : ∀ ctrl ∈ t.registry.handles, r.bdf ctrl = t.registry.bdf ctrl)
    (hadded : ∀ b, added b = t.added b) : Tracks ⟨r, added, false⟩ := by
  apply tracks_of_find? rfl <;> dsimp only <;> rw [hhandles]
  · intro ctrl hctrl
    rw [hbdf ctrl hctrl]
    exact h.nonNull ctrl hctrl
  · refine h.distinct.imp_of_mem fun hc hc' hne => ?_
    rwa [hbdf _ hc, hbdf _ hc']
  · intro b
    rw [find?_bdf_congr hbdf, h.find?_eq, hadded]

theorem Tracks.bdf_eq (h : Tracks t) {c : ℕ} {b : δ} (hc : t.added b = some c) :
    c ∈ t.registry.handles ∧ t.registry.bdf c = some b := by
  have hfound := (h.find?_eq b).trans hc
  have hbdf := List.find?_some hfound
  exact ⟨List.mem_of_find?_eq_some hfound, of_decide_eq_true hbdf⟩

/-- An open controller is added. -/
theorem Tracks.append (h : Tracks t) {c : ℕ} {b : δ} (hb : t.registry.bdf c = some b)
    (hnone : t.added b = none) :
    Tracks ⟨{ t.registry with handles := t.registry.handles ++ [c] },
      nextAdded t.registry.bdf t.added (.add c), false⟩ := by
  have hfind := h.find?_eq b
  rw [hnone, List.find?_eq_none] at hfind
  apply tracks_of_find? rfl
  · intro ctrl hctrl
    rcases List.mem_append.mp hctrl with hctrl | hctrl
    · exact h.nonNull ctrl hctrl
    · obtain rfl := List.mem_singleton.mp hctrl
      exact fun hnull => Option.some_ne_none b (hb.symm.trans hnull)
  · refine List.pairwise_append.mpr ⟨h.distinct, List.pairwise_singleton .., ?_⟩
    intro ctrl hctrl c' hc' heq
    obtain rfl := List.mem_singleton.mp hc'
    exact hfind ctrl hctrl (decide_eq_true (heq.trans hb))
  · intro b'
    change ((t.registry.handles ++ [c]).find? fun c' => t.registry.bdf c' = some b') =
      nextAdded t.registry.bdf t.added (.add c) b'
    rw [List.find?_append, h.find?_eq, nextAdded_add]
    by_cases hbb : b = b'
    · subst hbb
      rw [hnone, Option.none_or, List.find?_cons_of_pos (by simpa using hb), if_pos ⟨hb, rfl⟩]
    · have hne : ¬t.registry.bdf c = some b' := fun heq =>
        hbb (Option.some.inj (hb.symm.trans heq))
      rw [List.find?_cons_of_neg (by simpa using hne), List.find?_nil, Option.or_none,
        if_neg fun hboth => hne hboth.1]

/-- The handle of a controller is removed. -/
theorem Tracks.remove (h : Tracks t) {ctrl c : ℕ} {b : δ} {before after : List ℕ}
    (hb : t.registry.bdf ctrl = some b) (hc : t.added b = some c)
    (hsplit : t.registry.handles = before ++ c :: after) :
    Tracks ⟨{ t.registry with handles := before ++ after },
      nextAdded t.registry.bdf t.added (.del ctrl), false⟩ := by
  have hsub : (before ++ after).Sublist t.registry.handles := by
    rw [hsplit]
    exact (List.Sublist.refl before).append (List.sublist_cons_self c after)
  have hbc := (h.bdf_eq hc).2
  apply tracks_of_find? rfl
  · exact fun c' hc' => h.nonNull c' (hsub.subset hc')
  · exact h.distinct.sublist hsub
  · intro b'
    have hbefore := h.find?_eq b'
    rw [hsplit, List.find?_append] at hbefore
    change ((before ++ after).find? fun c' => t.registry.bdf c' = some b') =
      nextAdded t.registry.bdf t.added (.del ctrl) b'
    rw [List.find?_append, nextAdded_del]
    by_cases hbb : b = b'
    · subst hbb
      have hdistinct := h.distinct
      rw [hsplit] at hdistinct
      obtain ⟨-, hcons, hcross⟩ := List.pairwise_append.mp hdistinct
      rw [if_pos hb, Option.or_eq_none_iff, List.find?_eq_none, List.find?_eq_none]
      constructor
      · intro x hx heq
        exact hcross x hx c List.mem_cons_self ((of_decide_eq_true heq).trans hbc.symm)
      · intro x hx heq
        exact (List.pairwise_cons.mp hcons).1 x hx (hbc.trans (of_decide_eq_true heq).symm)
    · have hne : ∀ c', t.registry.bdf c' = some b → ¬t.registry.bdf c' = some b' :=
        fun c' hc' heq => hbb (Option.some.inj (hc'.symm.trans heq))
      rw [if_neg (hne ctrl hb), ← hbefore, List.find?_cons_of_neg (by simpa using hne c hbc)]

theorem enabled_of_registryStep {o : RegistryOp δ} (hstep : registryStep t o = some t') :
    o.enabled t.registry := by
  unfold registryStep at hstep
  split_ifs at hstep with hoff
  simp only [Bool.or_eq_true, Bool.not_eq_true', not_or, Bool.not_eq_false] at hoff
  exact hoff.2

theorem registryStep_next {o : RegistryOp δ} (hstep : registryStep t o = some t')
    {r : Registry δ} (hnext : t.registry.next o = some r) :
    t' = ⟨r, nextAdded t.registry.bdf t.added o, false⟩ := by
  unfold registryStep at hstep
  split_ifs at hstep
  rw [hnext] at hstep
  exact (Option.some.inj hstep).symm

theorem not_tracks_of_next {o : RegistryOp δ} (hstep : registryStep t o = some t')
    (hnext : t.registry.next o = none) : ¬Tracks t' := by
  unfold registryStep at hstep
  split_ifs at hstep
  rw [hnext] at hstep
  obtain rfl := Option.some.inj hstep
  intro h
  cases h.running

theorem Tracks.add_iff (h : Tracks t) {c : ℕ} (hstep : registryStep t (.add c) = some t') :
    Tracks t' ↔ t.registry.bdf c ≠ none := by
  cases hb : t.registry.bdf c with
  | none =>
      refine iff_of_false ?_ (fun hne => hne rfl)
      have hget := nvmeGetCtrlHandle_none t.registry t.registry.handles
      split_ifs at hget with hempty
      · obtain rfl := registryStep_next hstep (r := { t.registry with handles := _ })
          (by rw [Registry.next, nvmeAddCtrl, nvmeGetCtrl, hb, hget]; rfl)
        intro h'
        exact h'.nonNull c (List.mem_append_right _ (List.mem_singleton_self c)) hb
      · exact not_tracks_of_next hstep
          (by rw [Registry.next, nvmeAddCtrl, nvmeGetCtrl, hb, hget]; rfl)
  | some b =>
      refine iff_of_true ?_ nofun
      cases hadded : t.added b with
      | none =>
          obtain rfl := registryStep_next hstep (r := { t.registry with handles := _ })
            (by rw [Registry.next, nvmeAddCtrl, hb, h.get b, hadded]; rfl)
          exact h.append hb hadded
      | some c' =>
          obtain rfl := registryStep_next hstep (r := t.registry)
            (by rw [Registry.next, nvmeAddCtrl, hb, h.get b, hadded]; rfl)
          refine h.congr rfl (fun _ _ => rfl) fun b' => if_neg ?_
          rintro ⟨heq, hnone⟩
          rw [Option.some.inj (hb.symm.trans heq), hnone] at hadded
          cases hadded

theorem Tracks.del_iff (h : Tracks t) {c : ℕ} (hstep : registryStep t (.del c) = some t') :
    Tracks t' ↔ t.registry.bdf c ≠ none ∨ t.registry.handles = [] := by
  cases hb : t.registry.bdf c with
  | none =>
      have hget := nvmeGetCtrlHandle_none t.registry t.registry.handles
      split_ifs at hget with hempty
      · obtain rfl := registryStep_next hstep (r := t.registry)
          (by rw [Registry.next, nvmeDelCtrl, hb, hget]; rfl)
        refine iff_of_true (h.congr rfl (fun _ _ => rfl) fun b => if_neg ?_) (.inr hempty)
        rw [hb]
        exact nofun
      · have hended := not_tracks_of_next hstep
          (by rw [Registry.next, nvmeDelCtrl, hb, hget]; rfl)
        exact iff_of_false hended fun hor => hor.elim (fun hne => hne rfl) hempty
  | some b =>
      refine iff_of_true ?_ (.inl nofun)
      cases hadded : t.added b with
      | none =>
          obtain rfl := registryStep_next hstep (r := t.registry)
            (by rw [Registry.next, h.unknown c b hb hadded]; rfl)
          refine h.congr rfl (fun _ _ => rfl) fun b' => ?_
          rw [nextAdded_del, hb]
          split_ifs with heq
          · rw [← Option.some.inj heq, hadded]
          · rfl
      | some c' =>
          obtain ⟨before, after, hsplit, hdel⟩ := h.del c b c' hb hadded
          obtain rfl := registryStep_next hstep (r := { t.registry with handles := _ })
            (by rw [Registry.next, hdel]; rfl)
          exact h.remove hb hadded hsplit

theorem Tracks.close_iff (h : Tracks t) {c : ℕ} (hstep : registryStep t (.close c) = some t') :
    Tracks t' ↔ c ∉ t.registry.handles := by
  obtain rfl := registryStep_next hstep rfl
  constructor
  · intro h' hc
    refine h'.nonNull c hc ?_
    change (Function.update t.registry.pci c (.zeroed δ) c).bdf = none
    rw [Function.update_self]
    rfl
  · intro hc
    refine h.congr rfl (fun ctrl hctrl => ?_) fun b => if_neg fun heq => hc (h.bdf_eq heq).1
    change (Function.update t.registry.pci c (.zeroed δ) ctrl).bdf = _
    rw [Function.update_of_ne (ne_of_mem_of_not_mem hctrl hc)]
    rfl

/-- The registry is as it should be after a call if and only if the call is orderly. -/
theorem registryStep_iff (h : Tracks t) {o : RegistryOp δ} (hstep : registryStep t o = some t') :
    Tracks t' ↔ o.Orderly t := by
  cases o with
  | init c pci =>
      have hclosed : t.registry.bdf c = none := by
        have henabled := enabled_of_registryStep hstep
        simp only [RegistryOp.enabled, Bool.and_eq_true, decide_eq_true_eq] at henabled
        exact henabled.1
      obtain rfl := registryStep_next hstep rfl
      refine iff_of_true (h.congr rfl (fun ctrl hctrl => ?_) fun _ => rfl) trivial
      have hne : ctrl ≠ c := by
        rintro rfl
        exact h.nonNull ctrl hctrl hclosed
      change (Function.update t.registry.pci c pci ctrl).bdf = _
      rw [Function.update_of_ne hne]
      rfl
  | add c => exact h.add_iff hstep
  | del c => exact h.del_iff hstep
  | get b =>
      obtain rfl := registryStep_next hstep (by rw [Registry.next, h.get b]; rfl)
      exact iff_of_true (h.congr rfl (fun _ _ => rfl) fun _ => rfl) trivial
  | close c => exact h.close_iff hstep

/-- A call that cannot be made is one to a controller that is closed, or open already. -/
theorem orderly_of_registryStep_eq_none (h : Tracks t) {o : RegistryOp δ}
    (hstep : registryStep t o = none) : o.Orderly t := by
  have hoff : o.enabled t.registry = false := by
    by_contra hon
    unfold registryStep at hstep
    rw [h.running, Bool.eq_true_of_not_eq_false hon, if_neg (by decide)] at hstep
    cases hnext : t.registry.next o <;> rw [hnext] at hstep <;> cases hstep
  cases o with
  | init c pci => trivial
  | get b => trivial
  | add c => cases hoff
  | del c => cases hoff
  | close c =>
      intro hc
      refine h.nonNull c hc ?_
      exact Option.not_isSome_iff_eq_none.mp (Bool.eq_false_iff.mp hoff)

end Step

def trackedInit (pci : ℕ → VfioPciDevice δ) : Tracked δ := ⟨⟨pci, []⟩, fun _ => none, false⟩

theorem tracks_init (pci : ℕ → VfioPciDevice δ) : Tracks (trackedInit pci) :=
  tracks_of_find? rfl nofun .nil fun _ => rfl

/-- In every run, the registry refers to open controllers only, has one handle for an address,
and finds and deletes the controller that was added, exactly if no controller is closed while it
is registered, none is added when it is closed, and none is deleted when it is closed and there
are handles. -/
theorem registry_tracks_iff (pci : ℕ → VfioPciDevice δ) (os : List (RegistryOp δ)) :
    (∀ pre t, pre <+: os → Runs.run registryStep (trackedInit pci) pre = some t → Tracks t) ↔
      Runs.MeetsAlong registryStep RegistryOp.Orderly (trackedInit pci) os :=
  Runs.good_along_iff (fun _ _ _ (_ : True) _ _ _ => trivial)
    (fun _ _ _ _ h hstep => registryStep_iff h hstep)
    (fun _ _ _ h hstep => orderly_of_registryStep_eq_none h hstep) trivial (tracks_init pci)

def twoDevices : ℕ → VfioPciDevice ℕ := fun ctrl => { VfioPciDevice.zeroed ℕ with bdf := some ctrl }

/-- A registered controller is closed. Its handle stays with a `bdf` that is `NULL`, and the next
lookup, of whatever address, compares with it. -/
theorem registry_compares_null :
    ∃ t t', Runs.run registryStep (trackedInit twoDevices) [.add 0, .close 0] = some t ∧
      t.registry.handles = [0] ∧ t.registry.bdf 0 = none ∧
      nvmeGetCtrl t.registry (some 1) = none ∧ registryStep t (.get 1) = some t' ∧ t'.ended :=
  ⟨_, _, rfl, rfl, rfl, rfl, rfl, rfl⟩

end Runs

end Nvme

end Libvfn
