import Libvfn.Foundation.BitField
import Libvfn.Foundation.Device
import Libvfn.Nvme.Ctrl

/-!
# Resetting and enabling a controller

`nvme_init` disables the controller, tells it where the admin queues are, and enables it
again. The host and the controller talk through registers: the host writes `CC`, `AQA`,
`ASQ` and `ACQ`, the last two of them in halves, and polls the bit `RDY` of `CSTS`. The
controller notices a change of `CC.EN` when it likes. It takes the configuration over at some
moment after it was enabled, and says that it is ready at a later one; a controller that was
disabled keeps `RDY` set for a while. We follow it between the accesses of the host in all
orders.

A controller that says that it is ready could still be the one from before the reset, with an
old configuration. It is not: if `nvme_init` gets through, what the controller runs with is
what the host has written.
-/

namespace Libvfn

namespace Nvme

namespace Handshake

open Word Support Device

/-! ## Registers -/

def capTo : BitField := ⟨24, 8⟩

def capCss : BitField := ⟨37, 8⟩

def capMpsmin : BitField := ⟨48, 4⟩

def capMpsmax : BitField := ⟨52, 4⟩

def ccEn : BitField := ⟨0, 1⟩

def ccCss : BitField := ⟨4, 3⟩

def ccMps : BitField := ⟨7, 4⟩

def ccAms : BitField := ⟨11, 3⟩

def ccShn : BitField := ⟨14, 2⟩

def ccIosqes : BitField := ⟨16, 4⟩

def ccIocqes : BitField := ⟨20, 4⟩

def cstsRdy : BitField := ⟨0, 1⟩

structure Regs where
  cc : BitVec 32
  aqa : BitVec 32
  asq : U64
  acq : U64
  deriving DecidableEq

/-- Where the controller is. It has taken over a configuration when it starts. -/
inductive Phase where
  | off
  | starting (taken : Regs)
  | ready (taken : Regs)
  deriving DecidableEq

structure Controller where
  cap : U64
  regs : Regs
  phase : Phase
  status : BitVec 32
  deriving DecidableEq

inductive Move where
  | start
  | finish
  | stop
  | status (v : BitVec 32)

def Controller.enabled (d : Controller) : Bool := ccEn.get d.regs.cc == 1

def Phase.rdy : Phase → BitVec 32
  | .ready _ => 1
  | _ => 0

def Controller.csts (d : Controller) : BitVec 32 := d.status &&& ~~~1 ||| d.phase.rdy

/-- A move of the controller; one that is not possible does nothing. -/
def Controller.move (d : Controller) : Move → Controller
  | .start =>
      match d.phase with
      | .off => if d.enabled then { d with phase := .starting d.regs } else d
      | _ => d
  | .finish =>
      match d.phase with
      | .starting taken => if d.enabled then { d with phase := .ready taken } else d
      | _ => d
  | .stop => if d.enabled then d else { d with phase := .off }
  | .status v => { d with status := v }

/-! ## The host -/

section Host

variable (env : Surroundings Move)

/-- `mmio_read64` of `CAP`, the low half first. -/
def readCap : Program Controller U64 := do
  let lo ← read Controller.move env fun d => d.cap.setWidth 32
  let hi ← read Controller.move env fun d => (d.cap >>> 32).setWidth 32
  return hi.setWidth 64 <<< 32 ||| lo.setWidth 64

def writeCc (v : BitVec 32) : Program Controller Unit :=
  write Controller.move env fun d => { d with regs.cc := v }

def writeAqa (v : BitVec 32) : Program Controller Unit :=
  write Controller.move env fun d => { d with regs.aqa := v }

def setHigh (old v : U64) : U64 := old &&& (0xffffffff : U64) ||| v >>> 32 <<< 32

def setLow (old v : U64) : U64 := old >>> 32 <<< 32 ||| v &&& (0xffffffff : U64)

def writeAsq (v : U64) : Program Controller Unit := do
  write Controller.move env fun d => { d with regs.asq := setHigh d.regs.asq v }
  write Controller.move env fun d => { d with regs.asq := setLow d.regs.asq v }

def writeAcq (v : U64) : Program Controller Unit := do
  write Controller.move env fun d => { d with regs.acq := setHigh d.regs.acq v }
  write Controller.move env fun d => { d with regs.acq := setLow d.regs.acq v }

def waitRdyTurns (rdy : BitVec 32) (deadline : ℕ) : ℕ → Program Controller (Except Errno Unit)
  | 0 => fun _ => none
  | turns + 1 => do
      let t ← now env
      if deadline < t then return .error .ETIMEDOUT
      else
        let csts ← read Controller.move env Controller.csts
        if cstsRdy.get csts ≠ rdy then waitRdyTurns rdy deadline turns
        else return .ok ()

/-- `timeout_ms` in nanoseconds, which are the units of the clock. -/
def waitTime (cap : U64) : ℕ := 500 * ((capTo.get cap).toNat + 1) * 1000000

def nvmeWaitRdy (turns : ℕ) (rdy : BitVec 32) : Program Controller (Except Errno Unit) := do
  let cap ← readCap env
  let t ← now env
  waitRdyTurns env rdy (t + waitTime cap) turns

def cssValue (cap : U64) : BitVec 32 :=
  if capCss.get cap &&& 0x40 ≠ 0 then 6 else if capCss.get cap &&& 0x80 ≠ 0 then 7 else 0

def ccValue (mps : ℕ) (cap : U64) : BitVec 32 :=
  ccMps.set (BitVec.ofNat 32 mps) ||| ccAms.set 0 ||| ccShn.set 0 ||| ccIosqes.set 6 |||
    ccIocqes.set 4 ||| ccEn.set 1 ||| ccCss.set (cssValue cap)

def nvmeEnable (turns mps : ℕ) : Program Controller (Except Errno Unit) := do
  let cap ← readCap env
  writeCc env (ccValue mps cap)
  nvmeWaitRdy env turns 1

def nvmeReset (turns : ℕ) : Program Controller (Except Errno Unit) := do
  let cc ← read Controller.move env fun d => d.regs.cc
  writeCc env (cc &&& 0xfe)
  nvmeWaitRdy env turns 0

def nvmeConfigureAdminq (sqSize cqSize : ℤ) (asq acq : U64) : Program Controller Unit := do
  writeAqa env (Ctrl.aqaValue sqSize cqSize)
  writeAsq env asq
  writeAcq env acq

/-- The part of `nvme_init` that brings the controller up: `nvme_reset`, the registers of the
admin queues, `nvme_enable`. -/
def bringUp (turns mps : ℕ) (sqSize cqSize : ℤ) (asq acq : U64) :
    Program Controller (Except Errno Unit) := do
  match ← nvmeReset env turns with
  | .error e => return .error e
  | .ok () =>
      nvmeConfigureAdminq env sqSize cqSize asq acq
      nvmeEnable env turns mps

end Host

/-! ## What the controller makes of the registers -/

def aqaAsqs : BitField := ⟨0, 12⟩

def aqaAcqs : BitField := ⟨16, 12⟩

structure Running where
  pageshift : ℕ
  sqEntry : ℕ
  cqEntry : ℕ
  css : ℕ
  sqSize : ℕ
  cqSize : ℕ
  asq : U64
  acq : U64
  deriving DecidableEq

def Regs.running (r : Regs) : Running where
  pageshift := mpsToPageshift (ccMps.get r.cc).toNat
  sqEntry := 2 ^ (ccIosqes.get r.cc).toNat
  cqEntry := 2 ^ (ccIocqes.get r.cc).toNat
  css := (ccCss.get r.cc).toNat
  sqSize := (aqaAsqs.get r.aqa).toNat + 1
  cqSize := (aqaAcqs.get r.aqa).toNat + 1
  asq := r.asq
  acq := r.acq

section Decode

variable {mps : ℕ} {cap : U64}

open BitField

theorem cssValue_lt (cap : U64) : (cssValue cap).toNat < 2 ^ ccCss.width := by
  rw [cssValue]
  split_ifs <;> decide

def ccFields (mps : ℕ) (cap : U64) : List (BitField × BitVec 32) :=
  [(ccMps, BitVec.ofNat 32 mps), (ccAms, 0), (ccShn, 0), (ccIosqes, 6), (ccIocqes, 4), (ccEn, 1),
    (ccCss, cssValue cap)]

theorem get_ccValue {f : BitField} {x : BitVec 32} (hmem : (f, x) ∈ ccFields mps cap)
    (hf : f.shift + f.width ≤ 32) (hx : x.toNat < 2 ^ f.width) : f.get (ccValue mps cap) = x := by
  have hword : ccValue mps cap = word (ccFields mps cap) := by
    simp only [ccValue, ccFields, word, BitVec.or_assoc, BitVec.or_zero]
  rw [hword]
  exact get_word (show List.Pairwise Apart
    [ccMps, ccAms, ccShn, ccIosqes, ccIocqes, ccEn, ccCss] by decide) hmem hf hx

/-- The fields of `AQA`, for sizes that they have room for. -/
theorem get_aqaValue {sqSize cqSize : ℕ} (hsq : 1 ≤ sqSize ∧ sqSize ≤ 4096)
    (hcq : 1 ≤ cqSize ∧ cqSize ≤ 4096) :
    (aqaAsqs.get (Ctrl.aqaValue sqSize cqSize)).toNat + 1 = sqSize ∧
      (aqaAcqs.get (Ctrl.aqaValue sqSize cqSize)).toNat + 1 = cqSize := by
  have hcast (n : ℕ) (hn : 1 ≤ n) : BitVec.ofInt 32 ((n : ℤ) - 1) = BitVec.ofNat 32 (n - 1) := by
    rw [← Int.natCast_pred_of_pos hn, BitVec.ofInt_natCast]
  have hval (n : ℕ) (hn : n ≤ 4096) : (BitVec.ofNat 32 (n - 1)).toNat = n - 1 := by
    rw [BitVec.toNat_ofNat, Nat.mod_eq_of_lt (by omega)]
  have hlt (n : ℕ) (hn : n ≤ 4096) : (BitVec.ofNat 32 (n - 1)).toNat < 2 ^ 12 := by
    rw [hval n hn]
    omega
  have hword : Ctrl.aqaValue sqSize cqSize = word [(aqaAsqs, BitVec.ofNat 32 (sqSize - 1)),
      (aqaAcqs, BitVec.ofNat 32 (cqSize - 1))] := by
    rw [Ctrl.aqaValue, hcast sqSize hsq.1, hcast cqSize hcq.1, word, word, word,
      set_of_lt (by decide) (hlt sqSize hsq.2), set_of_lt (by decide) (hlt cqSize hcq.2),
      BitVec.or_zero]
    simp only [aqaAsqs, aqaAcqs, BitVec.shiftLeft_zero]
  have hsqGet : aqaAsqs.get (Ctrl.aqaValue sqSize cqSize) = BitVec.ofNat 32 (sqSize - 1) := by
    rw [hword]
    exact get_word (show List.Pairwise Apart [aqaAsqs, aqaAcqs] by decide) List.mem_cons_self
      (by decide) (hlt sqSize hsq.2)
  have hcqGet : aqaAcqs.get (Ctrl.aqaValue sqSize cqSize) = BitVec.ofNat 32 (cqSize - 1) := by
    rw [hword]
    exact get_word (show List.Pairwise Apart [aqaAsqs, aqaAcqs] by decide)
      (List.mem_cons_of_mem _ List.mem_cons_self) (by decide) (hlt cqSize hcq.2)
  rw [hsqGet, hcqGet, hval sqSize hsq.2, hval cqSize hcq.2]
  exact ⟨Nat.sub_add_cancel hsq.1, Nat.sub_add_cancel hcq.1⟩

/-- The registers that the host writes say what it means. -/
theorem running_written {sqSize cqSize : ℕ} (hmps : mps < 16)
    (hsq : 1 ≤ sqSize ∧ sqSize ≤ 4096) (hcq : 1 ≤ cqSize ∧ cqSize ≤ 4096) (asq acq : U64) :
    Regs.running ⟨ccValue mps cap, Ctrl.aqaValue sqSize cqSize, asq, acq⟩ =
      ⟨mpsToPageshift mps, 64, 16, (cssValue cap).toNat, sqSize, cqSize, asq, acq⟩ := by
  have hval : (BitVec.ofNat 32 mps).toNat = mps := by
    rw [BitVec.toNat_ofNat, Nat.mod_eq_of_lt (by omega)]
  have hmpsGet : ccMps.get (ccValue mps cap) = BitVec.ofNat 32 mps :=
    get_ccValue (by simp [ccFields]) (by decide) (hval.trans_lt hmps)
  have hiosqes : ccIosqes.get (ccValue mps cap) = 6 :=
    get_ccValue (by simp [ccFields]) (by decide) (by decide)
  have hiocqes : ccIocqes.get (ccValue mps cap) = 4 :=
    get_ccValue (by simp [ccFields]) (by decide) (by decide)
  have hcss : ccCss.get (ccValue mps cap) = cssValue cap :=
    get_ccValue (by simp [ccFields]) (by decide) (cssValue_lt cap)
  obtain ⟨hasqs, hacqs⟩ := get_aqaValue hsq hcq
  simp only [Regs.running, hmpsGet, hval, hiosqes, hiocqes, hcss, hasqs, hacqs]
  rfl

end Decode

/-! ## All orders -/

inductive PhaseStep (d : Controller) : Phase → Prop where
  | stay : PhaseStep d d.phase
  | start (hen : d.enabled) (hoff : d.phase = .off) : PhaseStep d (.starting d.regs)
  | finish (hen : d.enabled) {taken : Regs} (hstarting : d.phase = .starting taken) :
      PhaseStep d (.ready taken)
  | stop (hdis : d.enabled = false) : PhaseStep d .off

/-- A move leaves the registers alone. -/
theorem move_spec (d : Controller) (m : Move) :
    (d.move m).cap = d.cap ∧ (d.move m).regs = d.regs ∧ PhaseStep d (d.move m).phase := by
  cases m with
  | start =>
      rw [Controller.move]
      split
      · split_ifs with hen
        · exact ⟨rfl, rfl, .start hen ‹_›⟩
        · exact ⟨rfl, rfl, .stay⟩
      · exact ⟨rfl, rfl, .stay⟩
  | finish =>
      rw [Controller.move]
      split
      · split_ifs with hen
        · exact ⟨rfl, rfl, .finish hen ‹_›⟩
        · exact ⟨rfl, rfl, .stay⟩
      · exact ⟨rfl, rfl, .stay⟩
  | stop =>
      rw [Controller.move]
      split_ifs with hen
      · exact ⟨rfl, rfl, .stay⟩
      · exact ⟨rfl, rfl, .stop (Bool.eq_false_iff.mpr hen)⟩
  | status v => exact ⟨rfl, rfl, .stay⟩

section Orders

variable {cap : U64} {env : Surroundings Move} {d : Controller}

theorem enabled_congr {d d' : Controller} (h : d'.regs = d.regs) : d'.enabled = d.enabled := by
  rw [Controller.enabled, Controller.enabled, h]

/-- Nobody is in the middle of enabling the controller: the host is not to clear `CC.EN` before
a controller that it has enabled is ready. -/
structure Settled (cap : U64) (d : Controller) : Prop where
  cap_eq : d.cap = cap
  notStarting : ∀ taken, d.phase ≠ .starting taken
  ready : d.enabled → d.phase ≠ .off

structure Stopping (cap : U64) (d : Controller) : Prop where
  cap_eq : d.cap = cap
  disabled : d.enabled = false
  notStarting : ∀ taken, d.phase ≠ .starting taken

structure Idle (cap : U64) (P : Regs → Prop) (d : Controller) : Prop where
  cap_eq : d.cap = cap
  disabled : d.enabled = false
  off : d.phase = .off
  regs : P d.regs

/-- The controller can take over no other configuration than `r`. -/
structure Coming (cap : U64) (r : Regs) (d : Controller) : Prop where
  cap_eq : d.cap = cap
  regs_eq : d.regs = r
  phase : d.phase = .off ∨ d.phase = .starting r ∨ d.phase = .ready r

theorem settled_stable : Stable Controller.move (Settled cap) := by
  intro d m h
  obtain ⟨hcap, hregs, hstep⟩ := move_spec d m
  refine ⟨hcap.trans h.cap_eq, fun taken htaken => ?_, fun hen hoff => ?_⟩
  · generalize (d.move m).phase = p at hstep htaken
    cases hstep with
    | stay => exact h.notStarting taken htaken
    | start hen hoff => exact h.ready hen hoff
    | finish hen hstarting => exact absurd htaken nofun
    | stop hdis => exact absurd htaken nofun
  · rw [enabled_congr hregs] at hen
    generalize (d.move m).phase = p at hstep hoff
    cases hstep with
    | stay => exact h.ready hen hoff
    | start => exact absurd hoff nofun
    | finish => exact absurd hoff nofun
    | stop hdis => exact absurd hen (by simp [hdis])

theorem stopping_stable : Stable Controller.move (Stopping cap) := by
  intro d m h
  obtain ⟨hcap, hregs, hstep⟩ := move_spec d m
  refine ⟨hcap.trans h.cap_eq, (enabled_congr hregs).trans h.disabled, fun taken htaken => ?_⟩
  generalize (d.move m).phase = p at hstep htaken
  cases hstep with
  | stay => exact h.notStarting taken htaken
  | start hen _ => exact absurd hen (by simp [h.disabled])
  | finish hen _ => exact absurd hen (by simp [h.disabled])
  | stop => exact absurd htaken nofun

theorem idle_stable (P : Regs → Prop) : Stable Controller.move (Idle cap P) := by
  intro d m h
  obtain ⟨hcap, hregs, hstep⟩ := move_spec d m
  refine ⟨hcap.trans h.cap_eq, (enabled_congr hregs).trans h.disabled, ?_, hregs ▸ h.regs⟩
  generalize (d.move m).phase = p at hstep
  cases hstep with
  | stay => exact h.off
  | start hen _ => exact absurd hen (by simp [h.disabled])
  | finish hen _ => exact absurd hen (by simp [h.disabled])
  | stop => rfl

theorem coming_stable (r : Regs) : Stable Controller.move (Coming cap r) := by
  intro d m h
  obtain ⟨hcap, hregs, hstep⟩ := move_spec d m
  refine ⟨hcap.trans h.cap_eq, hregs.trans h.regs_eq, ?_⟩
  generalize (d.move m).phase = p at hstep
  cases hstep with
  | stay => exact h.phase
  | start => exact .inr (.inl (congrArg _ h.regs_eq))
  | finish _ hstarting =>
      rcases h.phase with hoff | hother | hready
      · exact absurd (hstarting.symm.trans hoff) nofun
      · exact .inr (.inr (congrArg _ (Phase.starting.inj (hstarting.symm.trans hother))))
      · exact absurd (hstarting.symm.trans hready) nofun
  | stop => exact .inl rfl

theorem cstsRdy_get_csts (d : Controller) : cstsRdy.get d.csts = d.phase.rdy := by
  have hrest : cstsRdy.get (d.status &&& ~~~1) = 0#32 := by
    refine BitVec.eq_of_getLsbD_eq fun i hi => ?_
    rw [BitField.getLsbD_get _ _ hi, BitVec.getLsbD_and, BitVec.getLsbD_zero]
    by_cases hzero : i < 1
    · obtain rfl := Nat.lt_one_iff.mp hzero
      simp [cstsRdy]
    · simp [cstsRdy, hzero]
  have hone : cstsRdy.get (1 : BitVec 32) = 1 := by decide
  rw [Controller.csts, BitField.get_or, hrest, BitVec.zero_or]
  cases d.phase with
  | ready taken => exact hone
  | _ => exact BitField.get_zero _

theorem achieves_readCap {P : Controller → Prop} (hP : Stable Controller.move P)
    (hcap : ∀ d, P d → d.cap = cap) :
    Achieves P (readCap env) fun v d => P d ∧ v = cap := by
  refine (achieves_read hP _).bind fun lo => ?_
  refine Achieves.mono (P := fun d => P d ∧ lo = cap.setWidth 32) ?_
    (fun d h => ⟨h.1, h.2.trans (by rw [hcap d h.1])⟩) fun _ _ h => h
  refine achieves_of_fact fun hlo => ?_
  refine (achieves_read hP _).bind fun hi => achieves_pure _ fun d h => ⟨h.1, ?_⟩
  rw [hlo, h.2, hcap d h.1]
  refine BitVec.eq_of_getLsbD_eq fun i hi => ?_
  by_cases hlow : i < 32
  · simp [hlow, hi]
  · simp [hlow, hi, show i - 32 < 32 by omega, show 32 + (i - 32) = i by omega]

/-- A condition that is stable survives the loop, which returns zero only once it has seen
`RDY` as it should be. -/
theorem ensures_waitRdyTurns {P : Controller → Prop} (hP : Stable Controller.move P)
    (rdy : BitVec 32) (deadline turns : ℕ) :
    Ensures P (waitRdyTurns env rdy deadline turns)
      fun r d => P d ∧ (r = .ok () → d.phase.rdy = rdy) := by
  induction turns with
  | zero => exact ensures_none
  | succ turns ih =>
      rw [waitRdyTurns]
      refine achieves_now.ensures.bind fun t => ?_
      split_ifs
      · exact (achieves_pure _ fun d h => ⟨h, nofun⟩).ensures
      · refine (achieves_read hP _).ensures.bind fun csts => ?_
        split_ifs with hrdy
        · exact ih.mono (fun d h => h.1) fun _ _ h => h
        · refine (achieves_pure _ fun d h => ⟨h.1, fun _ => ?_⟩).ensures
          rw [← cstsRdy_get_csts, ← h.2]
          exact not_not.mp hrdy

theorem ensures_nvmeWaitRdy {P : Controller → Prop} (hP : Stable Controller.move P)
    (hcap : ∀ d, P d → d.cap = cap) (turns : ℕ) (rdy : BitVec 32) :
    Ensures P (nvmeWaitRdy env turns rdy)
      fun r d => P d ∧ (r = .ok () → d.phase.rdy = rdy) := by
  refine (achieves_readCap hP hcap).ensures.bind fun v => ?_
  refine achieves_now.ensures.bind fun t => ?_
  exact (ensures_waitRdyTurns hP rdy _ turns).mono (fun d h => h.1) fun _ _ h => h

theorem Stopping.idle (h : Stopping cap d) (hrdy : d.phase.rdy = 0) :
    Idle cap (fun _ => True) d := by
  refine ⟨h.cap_eq, h.disabled, ?_, trivial⟩
  cases hphase : d.phase with
  | off => rfl
  | starting taken => exact absurd hphase (h.notStarting taken)
  | ready taken =>
      rw [hphase] at hrdy
      exact absurd hrdy (by simp [Phase.rdy])

theorem ccEn_get_cleared (cc : BitVec 32) : ccEn.get (cc &&& 0xfe) = 0 := by
  refine BitVec.eq_of_getLsbD_eq fun i hi => ?_
  rw [BitField.getLsbD_get _ _ hi, BitVec.getLsbD_and]
  by_cases hzero : i < 1
  · obtain rfl := Nat.lt_one_iff.mp hzero
    simp [ccEn]
  · simp [ccEn, hzero]

theorem Settled.stopping (h : Settled cap d) (cc : BitVec 32) :
    Stopping cap { d with regs.cc := cc &&& 0xfe } := by
  refine ⟨h.cap_eq, ?_, h.notStarting⟩
  rw [Controller.enabled, ccEn_get_cleared]
  rfl

theorem achieves_disable (cc : BitVec 32) :
    Achieves (fun d => Settled cap d ∧ cc = d.regs.cc) (writeCc env (cc &&& 0xfe))
      fun _ => Stopping cap :=
  (achieves_write settled_stable _ fun _ h => h.stopping cc).mono (fun _ h => h.1) fun _ _ h => h

theorem ensures_nvmeReset (turns : ℕ) :
    Ensures (Settled cap) (nvmeReset env turns)
      fun r d => r = .ok () → Idle cap (fun _ => True) d := by
  refine (achieves_read settled_stable _).ensures.bind fun cc => ?_
  refine (achieves_disable cc).ensures.bind fun _ => ?_
  exact (ensures_nvmeWaitRdy stopping_stable (fun d h => h.cap_eq) turns 0).mono (fun d h => h)
    fun r d h hr => h.1.idle (h.2 hr)

theorem getLsbD_lowMask {i : ℕ} (hi : i < 64) :
    (0xffffffff : U64).getLsbD i = decide (i < 32) :=
  BitField.getLsbD_mask ⟨0, 32⟩ hi

theorem setHigh_high (old v : U64) : setHigh old v >>> 32 = v >>> 32 := by
  refine BitVec.eq_of_getLsbD_eq fun i _ => ?_
  by_cases hi : 32 + i < 64
  · rw [setHigh, BitVec.getLsbD_ushiftRight, BitVec.getLsbD_or, BitVec.getLsbD_and,
      getLsbD_lowMask hi]
    simp [hi]
  · simp [setHigh, BitVec.getLsbD_of_ge _ _ (not_lt.mp hi)]

theorem setLow_of_high {old v : U64} (h : old >>> 32 = v >>> 32) : setLow old v = v := by
  refine BitVec.eq_of_getLsbD_eq fun i hi => ?_
  rw [setLow, h, BitVec.getLsbD_or, BitVec.getLsbD_and, getLsbD_lowMask hi]
  by_cases hlow : i < 32
  · simp [hlow]
  · simp [hlow, hi, show 32 + (i - 32) = i by omega]

theorem achieves_writeIdle {P Q : Regs → Prop} (f : Regs → Regs) (hcc : ∀ r, (f r).cc = r.cc)
    (hf : ∀ r, P r → Q (f r)) :
    Achieves (Idle cap P) (write Controller.move env fun d => { d with regs := f d.regs })
      fun _ => Idle cap Q := by
  refine achieves_write (idle_stable P) _ fun d h => ⟨h.cap_eq, ?_, h.off, hf _ h.regs⟩
  rw [Controller.enabled, hcc]
  exact h.disabled

/-- The registers of the admin queues, as the host leaves them. -/
theorem achieves_nvmeConfigureAdminq (sqSize cqSize : ℤ) (asq acq : U64) :
    Achieves (Idle cap fun _ => True) (nvmeConfigureAdminq env sqSize cqSize asq acq)
      fun _ => Idle cap fun r =>
        r.aqa = Ctrl.aqaValue sqSize cqSize ∧ r.asq = asq ∧ r.acq = acq := by
  let aqa := Ctrl.aqaValue sqSize cqSize
  refine (achieves_writeIdle (Q := fun r => r.aqa = aqa) (fun r => { r with aqa := aqa })
    (fun _ => rfl) fun _ _ => rfl).bind fun _ => ?_
  refine Achieves.bind (Q := fun _ => Idle cap fun r => r.aqa = aqa ∧ r.asq = asq) ?_ fun _ => ?_
  · refine (achieves_writeIdle (Q := fun r => r.aqa = aqa ∧ r.asq >>> 32 = asq >>> 32)
      (fun r => { r with asq := setHigh r.asq asq }) (fun _ => rfl)
      fun r h => ⟨h, setHigh_high r.asq asq⟩).bind fun _ => ?_
    exact achieves_writeIdle (fun r => { r with asq := setLow r.asq asq }) (fun _ => rfl)
      fun r h => ⟨h.1, setLow_of_high h.2⟩
  · refine (achieves_writeIdle
      (Q := fun r => r.aqa = aqa ∧ r.asq = asq ∧ r.acq >>> 32 = acq >>> 32)
      (fun r => { r with acq := setHigh r.acq acq }) (fun _ => rfl)
      fun r h => ⟨h.1, h.2, setHigh_high r.acq acq⟩).bind fun _ => ?_
    exact achieves_writeIdle (fun r => { r with acq := setLow r.acq acq }) (fun _ => rfl)
      fun r h => ⟨h.1, h.2.1, setLow_of_high h.2.2⟩

theorem achieves_enable (cc : BitVec 32) {aqa : BitVec 32} {asq acq : U64} :
    Achieves (Idle cap fun r => r.aqa = aqa ∧ r.asq = asq ∧ r.acq = acq) (writeCc env cc)
      fun _ => Coming cap ⟨cc, aqa, asq, acq⟩ := by
  refine achieves_write (idle_stable _) _ fun d h => ⟨h.cap_eq, ?_, .inl h.off⟩
  obtain ⟨rfl, rfl, rfl⟩ := h.regs
  rfl

theorem Coming.ready {r : Regs} (h : Coming cap r d) (hrdy : d.phase.rdy = 1) :
    d.phase = .ready r := by
  rcases h.phase with hoff | hstarting | hready
  · rw [hoff] at hrdy
    exact absurd hrdy (by simp [Phase.rdy])
  · rw [hstarting] at hrdy
    exact absurd hrdy (by simp [Phase.rdy])
  · exact hready

theorem ensures_nvmeEnable (turns mps : ℕ) {aqa : BitVec 32} {asq acq : U64} :
    Ensures (Idle cap fun r => r.aqa = aqa ∧ r.asq = asq ∧ r.acq = acq) (nvmeEnable env turns mps)
      fun r d => r = .ok () → d.phase = .ready ⟨ccValue mps cap, aqa, asq, acq⟩ := by
  refine (achieves_readCap (idle_stable _) fun d h => h.cap_eq).ensures.bind fun v => ?_
  refine ensures_of_fact fun hv => ?_
  subst hv
  refine (achieves_enable (ccValue mps v)).ensures.bind fun _ => ?_
  exact (ensures_nvmeWaitRdy (coming_stable _) (fun d h => h.cap_eq) turns 1).mono
    (fun d h => h) fun r d h hr => h.1.ready (h.2 hr)

theorem ensures_bringUp (turns mps : ℕ) (sqSize cqSize : ℤ) (asq acq : U64) :
    Ensures (Settled cap) (bringUp env turns mps sqSize cqSize asq acq)
      fun r d => r = .ok () →
        d.phase = .ready ⟨ccValue mps cap, Ctrl.aqaValue sqSize cqSize, asq, acq⟩ := by
  refine (ensures_nvmeReset turns).bind fun r => ?_
  cases r with
  | error e => exact (achieves_pure _ fun d _ => nofun).ensures
  | ok u =>
      refine Ensures.mono ?_ (fun d h => h rfl) fun _ _ h => h
      exact (achieves_nvmeConfigureAdminq sqSize cqSize asq acq).ensures.bind fun _ =>
        ensures_nvmeEnable turns mps

end Orders

theorem nvmeCtrlInitConfig_supported {vfnPageshift : ℕ} {cap : U64} {config : NvmeConfig}
    (hconfig : nvmeCtrlInitConfig vfnPageshift cap = .ok config)
    (hmps : (capMpsmin.get cap).toNat ≤ (capMpsmax.get cap).toNat) :
    (capMpsmin.get cap).toNat ≤ config.mps ∧ config.mps ≤ (capMpsmax.get cap).toNat ∧
      mpsToPageshift config.mps ≤ vfnPageshift := by
  have hmin : capMpsmin.get cap = cap >>> 48 &&& 0xf := rfl
  have hmax : capMpsmax.get cap = cap >>> 52 &&& 0xf := rfl
  rw [hmin, hmax] at hmps ⊢
  rw [nvmeCtrlInitConfig] at hconfig
  split_ifs at hconfig with htoo
  obtain rfl := Except.ok.inj hconfig
  simp only [clamp, mpsToPageshift] at htoo ⊢
  split_ifs at htoo ⊢ <;> omega

/-- If nobody was in the middle of enabling the controller and the host gets through, then,
whenever the controller makes its moves, it is ready and runs with what the host meant: pages of
the size that the region pages are made for, entries of the sizes that the queues have, and the
admin queues in their places. -/
theorem bringUp_configures (env : Surroundings Move) (turns vfnPageshift : ℕ) (config : NvmeConfig)
    (sqSize cqSize : ℕ) (asq acq : U64) (w w' : World Controller)
    (hsettled : Settled w.dev.cap w.dev)
    (hmps : (capMpsmin.get w.dev.cap).toNat ≤ (capMpsmax.get w.dev.cap).toNat)
    (hconfig : nvmeCtrlInitConfig vfnPageshift w.dev.cap = .ok config)
    (hsq : 1 ≤ sqSize ∧ sqSize ≤ 4096) (hcq : 1 ≤ cqSize ∧ cqSize ≤ 4096)
    (hrun : bringUp env turns config.mps sqSize cqSize asq acq w = some (.ok (), w')) :
    ∃ taken, w'.dev.phase = .ready taken ∧
      taken.running = ⟨mpsToPageshift config.mps, 64, 16, (cssValue w.dev.cap).toNat, sqSize,
        cqSize, asq, acq⟩ ∧
      (capMpsmin.get w.dev.cap).toNat ≤ config.mps ∧
      config.mps ≤ (capMpsmax.get w.dev.cap).toNat ∧ mpsToPageshift config.mps ≤ vfnPageshift := by
  have hready := ensures_bringUp turns config.mps sqSize cqSize asq acq w _ w' hsettled hrun rfl
  have hsupported := nvmeCtrlInitConfig_supported hconfig hmps
  have hlt : (capMpsmax.get w.dev.cap).toNat < 16 := BitField.toNat_get_lt _ (by decide) _
  exact ⟨_, hready, running_written (hsupported.2.1.trans_lt hlt) hsq hcq asq acq, hsupported⟩

def leftRunning : Controller where
  cap := 0x0040082001000000
  regs := ⟨0x00460081, 0x00070007, 0x1000, 0x2000⟩
  phase := .ready ⟨0x00460081, 0x00070007, 0x1000, 0x2000⟩
  status := 0

/-- What the controller starts before one access, it finishes before the next one. -/
def unhurried : Surroundings Move where
  moves := fun i => if i % 2 = 0 then [.finish, .stop] else [.start, .status 4]
  clock := fun i => 1000 * i

theorem leftRunning_settled : Settled leftRunning.cap leftRunning :=
  ⟨rfl, nofun, fun _ => nofun⟩

/-- The controller ends up with pages of 4 KiB and with the new queues. -/
theorem bringUp_configures_leftRunning :
    let up := bringUp unhurried 4 0 32 32 0xabcd00001000 0xabcd00002000 ⟨leftRunning, 0, 0⟩
    up.map (fun p => p.1.toBool) = some true ∧
    ∀ w', up = some (.ok (), w') → ∃ taken, w'.dev.phase = .ready taken ∧
      taken.running = ⟨12, 64, 16, 6, 32, 32, 0xabcd00001000, 0xabcd00002000⟩ := by
  refine ⟨by decide +kernel, fun w' hup => ?_⟩
  obtain ⟨taken, htaken, hrunning, -⟩ := bringUp_configures unhurried 4 12
    ⟨0, mpsToPageshift_zero_lt⟩ 32 32 0xabcd00001000 0xabcd00002000 ⟨leftRunning, 0, 0⟩ w'
    leftRunning_settled (by decide) rfl (by decide) (by decide) hup
  exact ⟨taken, htaken, hrunning.trans (by decide)⟩

/-- Somebody else has just enabled the controller, and it takes notice of `CC.EN` only at the
end: it is ready with the configuration of the other one. -/
example :
    let env : Surroundings Move := ⟨fun i => if i = 15 then [.finish] else [], fun i => i⟩
    let old : Regs := ⟨0x00460081, 0x00070007, 0x1000, 0x2000⟩
    let d : Controller := { leftRunning with regs := old, phase := .starting old }
    (bringUp env 4 0 32 32 0x8000 0x9000 ⟨d, 0, 0⟩).map
      (fun p => (p.1.toBool, p.2.dev.phase)) = some (true, .ready old) := by
  decide +kernel

/-! ## A controller that reacts in time -/

section InTime

variable {cap : U64} {env : Surroundings Move} {n : ℕ}

/-- The controller makes each of its moves within `n` accesses of the host, and the host polls
`2 * n` times before the time that the controller has claimed for itself is over. -/
structure InTime (env : Surroundings Move) (cap : U64) (n : ℕ) : Prop where
  stop : Within env n .stop
  start : Within env n .start
  finish : Within env n .finish
  clock : ∀ i j, j ≤ 2 * n → env.clock (i + j) ≤ env.clock i + waitTime cap

/-- The loop returns zero if `RDY` comes before the deadline. -/
theorem waitRdyTurns_of_rdy {rdy : BitVec 32} {deadline k turns : ℕ} (hk : k < turns)
    {w : World Controller} (hclock : ∀ j ≤ k, env.clock (w.readings + j) ≤ deadline)
    (hrdy : ((World.poll Controller.move env)^[k + 1] w).dev.phase.rdy = rdy) :
    ∃ w', waitRdyTurns env rdy deadline turns w = some (.ok (), w') := by
  induction turns generalizing k w with
  | zero => exact absurd hk (Nat.not_lt_zero k)
  | succ turns ih =>
      have hearly : ¬deadline < env.clock w.readings := not_lt.mpr (hclock 0 (Nat.zero_le k))
      rw [waitRdyTurns, now_bind, if_neg hearly, read_bind, cstsRdy_get_csts]
      split_ifs with hnow
      · -- the bit comes later
        cases k with
        | zero => exact absurd hrdy hnow
        | succ k =>
            refine ih (w := w.poll Controller.move env) (Nat.lt_of_succ_lt_succ hk)
              (fun j hj => ?_) hrdy
            have hlater := hclock (j + 1) (Nat.succ_le_succ hj)
            rwa [← Nat.add_assoc, Nat.add_right_comm] at hlater
      · exact ⟨_, rfl⟩

/-- `nvme_wait_rdy` returns zero if the bit comes in time. -/
theorem achieves_nvmeWaitRdy {P : Controller → Prop} (hP : Stable Controller.move P)
    (hcap : ∀ d, P d → d.cap = cap) {rdy : BitVec 32} {turns k : ℕ} (hk : k < turns)
    (hclock : ∀ i, ∀ j ≤ k, env.clock (i + (j + 1)) ≤ env.clock i + waitTime cap)
    (hrdy : ∀ w : World Controller, P w.dev →
      ((World.poll Controller.move env)^[k + 1] w).dev.phase.rdy = rdy) :
    Achieves P (nvmeWaitRdy env turns rdy)
      fun r d => r = .ok () ∧ P d ∧ d.phase.rdy = rdy := by
  refine (achieves_readCap hP hcap).bind fun v => achieves_of_fact fun hv => ?_
  subst hv
  intro w hw
  have hearly : ∀ j ≤ k, env.clock (w.tick.readings + j) ≤ env.clock w.readings + waitTime v := by
    intro j hj
    have hclock := hclock w.readings j hj
    rwa [← Nat.add_assoc, Nat.add_right_comm] at hclock
  obtain ⟨w', hloop⟩ := waitRdyTurns_of_rdy hk hearly (hrdy w.tick hw)
  have hres := ensures_waitRdyTurns hP rdy _ turns w.tick _ w' hw hloop
  refine ⟨.ok (), w', ?_, rfl, hres.1, hres.2 rfl⟩
  rw [now_bind]
  exact hloop

theorem InTime.pos (h : InTime env cap n) : 0 < n := by
  obtain ⟨k, hk, -⟩ := h.stop 0
  exact Nat.zero_lt_of_lt hk

theorem Stopping.move_stop {d : Controller} (h : Stopping cap d) :
    Idle cap (fun _ => True) (d.move .stop) := by
  rw [Controller.move, if_neg (by simp [h.disabled])]
  exact ⟨h.cap_eq, h.disabled, rfl, trivial⟩

theorem achieves_nvmeReset (h : InTime env cap n) {turns : ℕ} (hturns : 2 * n ≤ turns) :
    Achieves (Settled cap) (nvmeReset env turns)
      fun r d => r = .ok () ∧ Idle cap (fun _ => True) d := by
  have hpos := h.pos
  refine (achieves_read settled_stable _).bind fun cc => ?_
  refine (achieves_disable cc).bind fun _ => ?_
  refine (achieves_nvmeWaitRdy (k := n - 1) stopping_stable (fun d h => h.cap_eq) (by omega)
    (fun i j hj => h.clock i (j + 1) (by omega)) fun w hw => ?_).mono (fun _ h => h)
    fun r d h => ⟨h.1, h.2.1.idle h.2.2⟩
  have hidle := reaches_of_within stopping_stable (idle_stable _) (fun _ => Stopping.move_stop)
    h.stop hw
  rw [Nat.sub_add_cancel hpos, hidle.off]
  rfl

structure Begun (cap : U64) (r : Regs) (d : Controller) : Prop extends Coming cap r d where
  begun : d.phase ≠ .off

variable {r : Regs}

theorem Coming.enabled {d : Controller} (h : Coming cap r d) (hen : ccEn.get r.cc = 1) :
    d.enabled = true := by
  rw [Controller.enabled, h.regs_eq, hen]
  rfl

theorem begun_stable (hen : ccEn.get r.cc = 1) : Stable Controller.move (Begun cap r) := by
  intro d m h
  obtain ⟨-, -, hstep⟩ := move_spec d m
  refine ⟨coming_stable r d m h.toComing, ?_⟩
  generalize (d.move m).phase = p at hstep
  cases hstep with
  | stay => exact h.begun
  | start => exact nofun
  | finish => exact nofun
  | stop hdis => exact absurd (h.toComing.enabled hen) (by simp [hdis])

theorem Coming.move_start (hen : ccEn.get r.cc = 1) {d : Controller} (h : Coming cap r d) :
    Begun cap r (d.move .start) := by
  refine ⟨coming_stable r d _ h, ?_⟩
  rcases h.phase with hoff | hstarting | hready
  · simp [Controller.move, hoff, h.enabled hen]
  · simp [Controller.move, hstarting]
  · simp [Controller.move, hready]

structure Done (cap : U64) (r : Regs) (d : Controller) : Prop extends Coming cap r d where
  done : d.phase = .ready r

theorem done_stable (hen : ccEn.get r.cc = 1) : Stable Controller.move (Done cap r) := by
  intro d m h
  obtain ⟨-, -, hstep⟩ := move_spec d m
  refine ⟨coming_stable r d m h.toComing, ?_⟩
  generalize (d.move m).phase = p at hstep
  cases hstep with
  | stay => exact h.done
  | start _ hoff => exact absurd (h.done.symm.trans hoff) nofun
  | finish _ hstarting => exact absurd (h.done.symm.trans hstarting) nofun
  | stop hdis => exact absurd (h.toComing.enabled hen) (by simp [hdis])

theorem Begun.move_finish (hen : ccEn.get r.cc = 1) {d : Controller} (h : Begun cap r d) :
    Done cap r (d.move .finish) := by
  refine ⟨coming_stable r d _ h.toComing, ?_⟩
  rcases h.phase with hoff | hstarting | hready
  · exact absurd hoff h.begun
  · simp [Controller.move, hstarting, h.toComing.enabled hen]
  · simp [Controller.move, hready]

theorem Coming.done_of_inTime (hen : ccEn.get r.cc = 1) (h : InTime env cap n)
    {w : World Controller} (hw : Coming cap r w.dev) :
    Done cap r ((World.poll Controller.move env)^[n + n] w).dev := by
  rw [Function.iterate_add_apply]
  refine reaches_of_within (begun_stable hen) (done_stable hen) (fun _ => Begun.move_finish hen)
    h.finish ?_
  exact reaches_of_within (coming_stable r) (begun_stable hen) (fun _ => Coming.move_start hen)
    h.start hw

theorem achieves_nvmeEnable (h : InTime env cap n) {turns : ℕ} (hturns : 2 * n ≤ turns) (mps : ℕ)
    {aqa : BitVec 32} {asq acq : U64} :
    Achieves (Idle cap fun r => r.aqa = aqa ∧ r.asq = asq ∧ r.acq = acq)
      (nvmeEnable env turns mps)
      fun r d => r = .ok () ∧ d.phase = .ready ⟨ccValue mps cap, aqa, asq, acq⟩ := by
  have hpos := h.pos
  have hen : ccEn.get (ccValue mps cap) = 1 :=
    get_ccValue (by simp [ccFields]) (by decide) (by decide)
  refine (achieves_readCap (idle_stable _) fun d h => h.cap_eq).bind fun v => ?_
  refine achieves_of_fact fun hv => ?_
  subst hv
  refine (achieves_enable (ccValue mps v)).bind fun _ => ?_
  refine (achieves_nvmeWaitRdy (k := 2 * n - 1) (coming_stable _) (fun d h => h.cap_eq)
    (by omega) (fun i j hj => h.clock i (j + 1) (by omega)) fun w hw => ?_).mono (fun _ h => h)
    fun r d h => ⟨h.1, h.2.1.ready h.2.2⟩
  have hdone := hw.done_of_inTime hen h
  rw [show 2 * n - 1 + 1 = n + n by omega, hdone.done]
  rfl

end InTime

/-- A controller that reacts within the time it claims for itself is brought up, in whatever
state it is found, unless somebody is in the middle of enabling it. -/
theorem bringUp_succeeds (env : Surroundings Move) (n turns mps : ℕ) (sqSize cqSize : ℤ)
    (asq acq : U64) (w : World Controller) (hsettled : Settled w.dev.cap w.dev)
    (hinTime : InTime env w.dev.cap n) (hturns : 2 * n ≤ turns) :
    ∃ w', bringUp env turns mps sqSize cqSize asq acq w = some (.ok (), w') ∧
      w'.dev.phase =
        .ready ⟨ccValue mps w.dev.cap, Ctrl.aqaValue sqSize cqSize, asq, acq⟩ := by
  have hall : Achieves (Settled w.dev.cap) (bringUp env turns mps sqSize cqSize asq acq)
      fun r d => r = .ok () ∧ d.phase =
        .ready ⟨ccValue mps w.dev.cap, Ctrl.aqaValue sqSize cqSize, asq, acq⟩ := by
    refine (achieves_nvmeReset hinTime hturns).bind fun r => ?_
    cases r with
    | error e => exact fun _ h => absurd h.1 nofun
    | ok u =>
        refine Achieves.mono ?_ (fun d h => h.2) fun _ _ h => h
        exact (achieves_nvmeConfigureAdminq sqSize cqSize asq acq).bind fun _ =>
          achieves_nvmeEnable hinTime hturns mps
  obtain ⟨r, w', hrun, rfl, hready⟩ := hall w hsettled
  exact ⟨w', hrun, hready⟩

theorem unhurried_inTime : InTime unhurried leftRunning.cap 2 where
  stop := fun i => ⟨i % 2, by omega, by simp [unhurried, show (i + i % 2) % 2 = 0 by omega]⟩
  start := fun i =>
    ⟨1 - i % 2, by omega, by simp [unhurried, show (i + (1 - i % 2)) % 2 ≠ 0 by omega]⟩
  finish := fun i => ⟨i % 2, by omega, by simp [unhurried, show (i + i % 2) % 2 = 0 by omega]⟩
  clock := fun i j hj => by
    have htime : waitTime leftRunning.cap = 1000000000 := by decide
    rw [htime]
    simp only [unhurried]
    omega

theorem bringUp_succeeds_leftRunning :
    ∃ w', bringUp unhurried 4 0 32 32 0x8000 0x9000 ⟨leftRunning, 0, 0⟩ = some (.ok (), w') ∧
      w'.dev.phase = .ready ⟨0x00460061, 0x001f001f, 0x8000, 0x9000⟩ := by
  obtain ⟨w', hup, hready⟩ := bringUp_succeeds unhurried 2 4 0 32 32 0x8000 0x9000
    ⟨leftRunning, 0, 0⟩ leftRunning_settled unhurried_inTime le_rfl
  exact ⟨w', hup, hready.trans (by decide)⟩

end Handshake

end Nvme

end Libvfn
