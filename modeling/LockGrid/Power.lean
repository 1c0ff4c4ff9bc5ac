import LockGrid.Driver

/-!
# Radio energy accounting

`lg_power.c`, and what the driver charges to it. The accounts balance, and the air time in them has
passed: no two charges are for the same time.
-/
namespace LockGrid

/-! ## What a phase costs -/

/-- Currents in microamps and times in microseconds; the sleep current is in nanoamps. -/
structure PwrConfig where
  txUa : ℕ := 5000
  rxUa : ℕ := 3200
  preUa : ℕ := 2200
  preUs : ℕ := 13
  xtalUa : ℕ := 1000
  xtalUs : ℕ := 380
  hfxoAlwaysOn : Bool := false
  settleUa : ℕ := 600
  settleUs : ℕ := 500
  startUa : ℕ := 2400
  startUs : ℕ := 100
  switchUa : ℕ := 1200
  switchUs : ℕ := 143
  standbyUa : ℕ := 2900
  standbyUs : ℕ := 58
  sleepNa : ℕ := 1500

/-- Charge of a phase, in nanocoulombs. -/
def phaseNc (ua us : ℕ) : ℕ := ua * us / 1000

namespace PwrConfig

def eventStartNc (k : PwrConfig) : ℕ :=
  if k.hfxoAlwaysOn then phaseNc k.preUa k.preUs + phaseNc k.startUa k.startUs
  else phaseNc k.preUa k.preUs + phaseNc k.xtalUa k.xtalUs + phaseNc k.settleUa k.settleUs +
    phaseNc k.startUa k.startUs

def eventStartUs (k : PwrConfig) : ℕ :=
  if k.hfxoAlwaysOn then k.preUs + k.startUs
  else k.preUs + k.xtalUs + k.settleUs + k.startUs

def turnaroundNc (k : PwrConfig) : ℕ :=
  phaseNc k.switchUa k.switchUs + phaseNc k.standbyUa k.standbyUs

def turnaroundUs (k : PwrConfig) : ℕ := k.switchUs + k.standbyUs

end PwrConfig

/-! ## The accounts -/

/-- `enum lg_pwr_act`. -/
inductive PwrAct
  | scan
  | link
  | join
  | beacon
  | chanEval
  deriving DecidableEq, Repr

/-- `enum lg_phy_state`. -/
inductive PhyState
  | off
  | ramp
  | tx
  | rx
  deriving DecidableEq, Repr

structure Pw where
  startUs : ℕ := 0
  act : PwrAct := .scan
  totalNc : ℕ := 0
  rxUs : PwrAct → ℕ := fun _ => 0
  txUs : PwrAct → ℕ := fun _ => 0
  fixedNc : ℕ := 0
  fixedUs : ℕ := 0
  starts : ℕ := 0
  turnarounds : ℕ := 0
  radioOnUs : ℕ := 0

def lgPowerInit (nowUs : ℕ) : Pw := { startUs := nowUs, act := .link }

def lgPowerActivity (act : PwrAct) (w : Pw) : Pw := { w with act := act }

def lgPowerEventStart (k : PwrConfig) (w : Pw) : Pw :=
  { w with
    starts := (w.starts + 1) % 2 ^ 32
    fixedNc := w.fixedNc + k.eventStartNc
    fixedUs := w.fixedUs + k.eventStartUs
    totalNc := w.totalNc + k.eventStartNc
    radioOnUs := w.radioOnUs + k.eventStartUs }

def lgPowerTurnaround (k : PwrConfig) (w : Pw) : Pw :=
  { w with
    turnarounds := (w.turnarounds + 1) % 2 ^ 32
    fixedNc := w.fixedNc + k.turnaroundNc
    fixedUs := w.fixedUs + k.turnaroundUs
    totalNc := w.totalNc + k.turnaroundNc
    radioOnUs := w.radioOnUs + k.turnaroundUs }

/-- Ramp and settle are part of the cost of an event start, and charged nowhere else. -/
def lgPowerCharge (k : PwrConfig) (state : PhyState) (us : ℕ) (w : Pw) : Pw :=
  match state with
  | .tx => { w with
      txUs := Function.update w.txUs w.act (w.txUs w.act + us)
      radioOnUs := w.radioOnUs + us
      totalNc := w.totalNc + k.txUa * us / 1000 }
  | .rx => { w with
      rxUs := Function.update w.rxUs w.act (w.rxUs w.act + us)
      radioOnUs := w.radioOnUs + us
      totalNc := w.totalNc + k.rxUa * us / 1000 }
  | .off | .ramp => w

structure PowerReport where
  elapsedUs : ℕ
  radioOnUs : ℕ
  totalNc : ℕ
  rxUsScan : ℕ
  rxUsLink : ℕ
  rxUsJoin : ℕ
  rxUsChanEval : ℕ
  txUsBeacon : ℕ
  txUsLink : ℕ
  txUsJoin : ℕ
  fixedUs : ℕ
  fixedNc : ℕ
  radioStarts : ℕ
  turnarounds : ℕ
  rampUs : ℕ
  avgNa : ℕ := 0
  steadyNa : ℕ := 0
  dutyPermille : ℕ := 0

/-- The sleep current is charged for the time the radio was off. -/
def lgPowerReportGet (k : PwrConfig) (w : Pw) (nowUs : ℕ) : PowerReport :=
  let elapsed := nowUs - w.startUs
  let sleepNc :=
    if w.radioOnUs < elapsed then (elapsed - w.radioOnUs) * k.sleepNa % 2 ^ 64 / 1000000 else 0
  let totalNc := w.totalNc + sleepNc
  { elapsedUs := elapsed
    radioOnUs := w.radioOnUs
    totalNc := totalNc
    rxUsScan := w.rxUs .scan
    rxUsLink := w.rxUs .link
    rxUsJoin := w.rxUs .join
    rxUsChanEval := w.rxUs .chanEval
    txUsBeacon := w.txUs .beacon
    txUsLink := w.txUs .link
    txUsJoin := w.txUs .join
    fixedUs := w.fixedUs
    fixedNc := w.fixedNc
    radioStarts := w.starts
    turnarounds := w.turnarounds
    rampUs := w.fixedUs
    avgNa := if elapsed ≠ 0 then totalNc * 1000000 % 2 ^ 64 / elapsed else 0
    dutyPermille :=
      if elapsed ≠ 0 then w.radioOnUs * 1000 % 2 ^ 64 / elapsed % 2 ^ 32 else 0 }

/-- Scanning and joining are paid at power-on, not forever. -/
def lgPowerReportGetSteady (k : PwrConfig) (w : Pw) (nowUs : ℕ) : PowerReport :=
  let r := lgPowerReportGet k w nowUs
  let oneOffNc := r.rxUsScan * k.rxUa % 2 ^ 64 / 1000 + r.rxUsJoin * k.rxUa % 2 ^ 64 / 1000 +
    r.txUsJoin * k.txUa % 2 ^ 64 / 1000
  { r with
    steadyNa :=
      if r.elapsedUs ≠ 0 ∧ oneOffNc < r.totalNc then
        (r.totalNc - oneOffNc) * 1000000 % 2 ^ 64 / r.elapsedUs
      else r.avgNa }

/-- What the driver's call does to the accounts. -/
def Charge.apply (k : PwrConfig) : Charge → Pw → Pw
  | .eventStart => lgPowerEventStart k
  | .turnaround => lgPowerTurnaround k
  | .tx us => lgPowerCharge k .tx us
  | .rx us => lgPowerCharge k .rx us

def Charge.airUs : Charge → ℕ
  | .tx us | .rx us => us
  | _ => 0

/-! ## The accounts balance -/

/-- Sleep adds no more than its current over the whole time. -/
theorem lgPowerReportGet_totalNc (k : PwrConfig) (w : Pw) (nowUs : ℕ) :
    1000000 * (lgPowerReportGet k w nowUs).totalNc ≤
      1000000 * w.totalNc + k.sleepNa * (nowUs - w.startUs) := by
  unfold lgPowerReportGet
  dsimp only
  split
  · have hfloor : 1000000 * ((nowUs - w.startUs - w.radioOnUs) * k.sleepNa % 2 ^ 64 / 1000000) ≤
        (nowUs - w.startUs - w.radioOnUs) * k.sleepNa :=
      (Nat.mul_div_le _ _).trans (Nat.mod_le _ _)
    have hoff : (nowUs - w.startUs - w.radioOnUs) * k.sleepNa ≤
        k.sleepNa * (nowUs - w.startUs) := by
      rw [Nat.mul_comm]
      exact Nat.mul_le_mul_left _ (Nat.sub_le _ _)
    omega
  · omega

/-- All activities together. -/
def actSum (us : PwrAct → ℕ) : ℕ := us .scan + us .link + us .join + us .beacon + us .chanEval

theorem actSum_update (us : PwrAct → ℕ) (a : PwrAct) (n : ℕ) :
    actSum (Function.update us a (us a + n)) = actSum us + n := by
  cases a <;> simp [actSum] <;> omega

/-- After the calls `l`: the two counters have 32 bits, the fixed time and charge are those of
every start and turnaround; the time the radio was on is its air time and the fixed time, and the
charge is no more than what the currents make of them. -/
structure Pw.Balanced (k : PwrConfig) (l : List Charge) (w : Pw) : Prop where
  starts : w.starts = l.count .eventStart % 2 ^ 32
  turnarounds : w.turnarounds = l.count .turnaround % 2 ^ 32
  radioOn : w.radioOnUs = w.fixedUs + (actSum w.rxUs + actSum w.txUs)
  fixedUs : w.fixedUs =
    l.count .eventStart * k.eventStartUs + l.count .turnaround * k.turnaroundUs
  fixedNc : w.fixedNc =
    l.count .eventStart * k.eventStartNc + l.count .turnaround * k.turnaroundNc
  charge : 1000 * w.totalNc ≤
    1000 * w.fixedNc + k.rxUa * actSum w.rxUs + k.txUa * actSum w.txUs

theorem Pw.Balanced.init (k : PwrConfig) (nowUs : ℕ) : (lgPowerInit nowUs).Balanced k [] := by
  constructor <;> simp [lgPowerInit, actSum]

theorem Pw.Balanced.activity {k : PwrConfig} {l : List Charge} {w : Pw} (h : w.Balanced k l)
    (act : PwrAct) : (lgPowerActivity act w).Balanced k l :=
  ⟨h.starts, h.turnarounds, h.radioOn, h.fixedUs, h.fixedNc, h.charge⟩

theorem Charge.balanced {k : PwrConfig} {l : List Charge} {w : Pw} (x : Charge)
    (h : w.Balanced k l) : (x.apply k w).Balanced k (x :: l) := by
  obtain ⟨hstarts, hturns, hon, hus, hnc, hcharge⟩ := h
  cases x with
  | eventStart =>
    have hone : (Charge.eventStart :: l).count .eventStart = l.count .eventStart + 1 :=
      List.count_cons_self
    have hsame : (Charge.eventStart :: l).count .turnaround = l.count .turnaround :=
      List.count_cons_of_ne (by decide)
    simp only [Charge.apply, lgPowerEventStart]
    constructor <;> simp only [hone, hsame, Nat.add_mul, Nat.one_mul] <;> omega
  | turnaround =>
    have hsame : (Charge.turnaround :: l).count .eventStart = l.count .eventStart :=
      List.count_cons_of_ne (by decide)
    have hone : (Charge.turnaround :: l).count .turnaround = l.count .turnaround + 1 :=
      List.count_cons_self
    simp only [Charge.apply, lgPowerTurnaround]
    constructor <;> simp only [hone, hsame, Nat.add_mul, Nat.one_mul] <;> omega
  | tx us =>
    have hfloor : 1000 * (k.txUa * us / 1000) ≤ k.txUa * us := Nat.mul_div_le _ _
    have hfixed : (Charge.tx us :: l).count .eventStart = l.count .eventStart ∧
        (Charge.tx us :: l).count .turnaround = l.count .turnaround :=
      ⟨List.count_cons_of_ne (by simp), List.count_cons_of_ne (by simp)⟩
    simp only [Charge.apply, lgPowerCharge]
    rw [← hfixed.1] at hstarts hus hnc
    rw [← hfixed.2] at hturns hus hnc
    refine ⟨hstarts, hturns, ?_, hus, hnc, ?_⟩
    · simp only [actSum_update]
      omega
    · simp only [actSum_update, Nat.mul_add]
      omega
  | rx us =>
    have hfloor : 1000 * (k.rxUa * us / 1000) ≤ k.rxUa * us := Nat.mul_div_le _ _
    have hfixed : (Charge.rx us :: l).count .eventStart = l.count .eventStart ∧
        (Charge.rx us :: l).count .turnaround = l.count .turnaround :=
      ⟨List.count_cons_of_ne (by simp), List.count_cons_of_ne (by simp)⟩
    simp only [Charge.apply, lgPowerCharge]
    rw [← hfixed.1] at hstarts hus hnc
    rw [← hfixed.2] at hturns hus hnc
    refine ⟨hstarts, hturns, ?_, hus, hnc, ?_⟩
    · simp only [actSum_update]
      omega
    · simp only [actSum_update, Nat.mul_add]
      omega

/-- The accounts after some more charges, the newest first. -/
def Pw.charged (k : PwrConfig) (l : List Charge) (w : Pw) : Pw := l.foldr (Charge.apply k) w

theorem Pw.Balanced.charged {k : PwrConfig} {l : List Charge} {w : Pw} (h : w.Balanced k l)
    (new : List Charge) : (w.charged k new).Balanced k (new ++ l) := by
  induction new with
  | nil => exact h
  | cons x new ih => exact x.balanced ih

theorem Charge.apply_act (k : PwrConfig) (x : Charge) (w : Pw) : (x.apply k w).act = w.act := by
  cases x <;> rfl

theorem Pw.charged_act (k : PwrConfig) (l : List Charge) (w : Pw) :
    (w.charged k l).act = w.act := by
  induction l with
  | nil => rfl
  | cons x l ih => exact (x.apply_act k _).trans ih

theorem Pw.charged_startUs (k : PwrConfig) (l : List Charge) (w : Pw) :
    (w.charged k l).startUs = w.startUs := by
  induction l with
  | nil => rfl
  | cons x l ih => cases x <;> exact ih

/-- The air time of another activity, and that of the other direction, are as before. -/
theorem Pw.charged_other {k : PwrConfig} {l : List Charge} {w : Pw} {a : PwrAct} :
    (w.act ≠ a ∨ (∀ us, .rx us ∉ l) → (w.charged k l).rxUs a = w.rxUs a) ∧
      (w.act ≠ a ∨ (∀ us, .tx us ∉ l) → (w.charged k l).txUs a = w.txUs a) := by
  induction l with
  | nil => exact ⟨fun _ => rfl, fun _ => rfl⟩
  | cons x l ih =>
    have hact := Pw.charged_act k l w
    constructor
    · intro h
      have hrest := ih.1 (h.imp_right fun hno us hmem => hno us (List.mem_cons_of_mem _ hmem))
      change (x.apply k (w.charged k l)).rxUs a = _
      cases x with
      | rx us =>
        have hne : w.act ≠ a := h.resolve_right fun hno => hno us List.mem_cons_self
        simpa [Charge.apply, lgPowerCharge, hact, Function.update_apply, hne.symm] using hrest
      | _ => exact hrest
    · intro h
      have hrest := ih.2 (h.imp_right fun hno us hmem => hno us (List.mem_cons_of_mem _ hmem))
      change (x.apply k (w.charged k l)).txUs a = _
      cases x with
      | tx us =>
        have hne : w.act ≠ a := h.resolve_right fun hno => hno us List.mem_cons_self
        simpa [Charge.apply, lgPowerCharge, hact, Function.update_apply, hne.symm] using hrest
      | _ => exact hrest

theorem Pw.charged_airUs (k : PwrConfig) (l : List Charge) (w : Pw) :
    actSum (w.charged k l).rxUs + actSum (w.charged k l).txUs =
      actSum w.rxUs + actSum w.txUs + (l.map Charge.airUs).sum := by
  induction l with
  | nil => rfl
  | cons x l ih =>
    change actSum (x.apply k (w.charged k l)).rxUs + actSum (x.apply k (w.charged k l)).txUs = _
    cases x <;>
      simp only [Charge.apply, lgPowerEventStart, lgPowerTurnaround, lgPowerCharge, actSum_update,
        List.map_cons, List.sum_cons, Charge.airUs] <;>
      omega

/-! ## What the driver charges -/

namespace Nrf

variable {s s' : Nrf} {t₀ n : ℕ}

/-- Air time charged so far. -/
def spentUs (s : Nrf) : ℕ := (s.charges.map Charge.airUs).sum

/-- Event starts that may still be charged before the driver is stopped. -/
def due (s : Nrf) : ℕ := if s.inEvent then 0 else 1

/-- The charges of one piece of work, the newest first: of what is on, and no more starts than may
still be charged. -/
structure Pays (s s' : Nrf) (new : List Charge) : Prop where
  charges : s'.charges = new ++ s.charges
  tx : ∀ us, .tx us ∈ new → s.op.phase = .tx
  rx : ∀ us, .rx us ∈ new → s.op.phase = .rx
  starts : new.count .eventStart + s'.due ≤ s.due

/-- The air time charged since `t₀` has passed, and there is room for what is on to be charged. -/
structure Metered (t₀ : ℕ) (s : Nrf) : Prop where
  past : t₀ + s.spentUs ≤ s.nowUs
  tx : s.op.phase = .tx → t₀ + s.spentUs + airtimeUs s.txLen ≤ s.txAirEndUs
  rx : s.op = .rx → t₀ + s.spentUs ≤ s.rxOnUs ∧ ∀ t ∈ s.timer, s.rxCloseUs ≤ t.1

theorem Pays.refl (s : Nrf) : Pays s s [] := ⟨rfl, by simp, by simp, by simp⟩

theorem Pays.of_same (hcharges : s'.charges = s.charges) (hin : s'.inEvent = s.inEvent) :
    Pays s s' [] := ⟨hcharges, by simp, by simp, by simp [due, hin]⟩

/-- Work that charges what it does, and goes on from there. -/
theorem Pays.trans {d : Nrf} {new new' : List Charge} (h : Pays s d new) (h' : Pays d s' new')
    (hphase : d.op.phase = s.op.phase) : Pays s s' (new' ++ new) where
  charges := by rw [h'.charges, h.charges, List.append_assoc]
  tx us hmem := (List.mem_append.mp hmem).elim (fun hm => hphase ▸ h'.tx us hm) (h.tx us)
  rx us hmem := (List.mem_append.mp hmem).elim (fun hm => hphase ▸ h'.rx us hm) (h.rx us)
  starts := by
    have h₁ := h.starts
    have h₂ := h'.starts
    rw [List.count_append]
    omega

theorem Metered.idle (hop : s.op = .idle) (hpast : t₀ + s.spentUs ≤ s.nowUs) : s.Metered t₀ :=
  ⟨hpast, by simp [hop, PhyOp.phase], by simp [hop]⟩

theorem Metered.atTime (h : s.Metered t₀) {nowUs : ℕ} (hlate : s.nowUs ≤ nowUs) :
    (s.atTime nowUs).Metered t₀ := ⟨h.past.trans hlate, h.tx, h.rx⟩

theorem chargeFixed_pays (s : Nrf) : ∃ new, Pays s s.chargeFixed new ∧
    s.chargeFixed.spentUs = s.spentUs := by
  unfold chargeFixed
  split
  · next hin =>
    refine ⟨[.turnaround], ⟨rfl, by simp, by simp, ?_⟩, by simp [spentUs, charge, Charge.airUs]⟩
    simp only [due, charge, List.count_singleton, hin]
    decide
  · next hin =>
    refine ⟨[.eventStart], ⟨rfl, by simp, by simp, ?_⟩, by simp [spentUs, charge, Charge.airUs]⟩
    simp [due, charge, hin]

theorem chargeFixed_tx (s : Nrf) :
    s.chargeFixed.txLen = s.txLen ∧ s.chargeFixed.txAirEndUs = s.txAirEndUs := by
  unfold chargeFixed
  split <;> exact ⟨rfl, rfl⟩

theorem chargeRxUntil_nowUs (s : Nrf) (endUs : ℕ) : (s.chargeRxUntil endUs).nowUs = s.nowUs := by
  have hc := chargeRxUntil_core s endUs
  simp only [core, Prod.mk.injEq] at hc
  exact hc.2.2.2.2.2.2.2

/-- Receive time is charged from when the receiver was on. -/
theorem chargeRxUntil_pays (endUs : ℕ) (hop : s.op.phase = .rx) :
    ∃ new, Pays s (s.chargeRxUntil endUs) new ∧ (∀ x ∈ new, ∃ us, x = .rx us) ∧
      (s.rxOnUs + (s.chargeRxUntil endUs).spentUs ≤ s.spentUs + endUs ∨
        (s.chargeRxUntil endUs).spentUs = s.spentUs) := by
  unfold chargeRxUntil
  split
  · exact ⟨[], .refl s, by simp, .inr rfl⟩
  · dsimp only
    split
    · next hlt =>
      have hle : (endUs - s.rxOnUs) % 2 ^ 32 ≤ endUs - s.rxOnUs := Nat.mod_le _ _
      refine ⟨[.rx ((endUs - s.rxOnUs) % 2 ^ 32)], ⟨rfl, by simp, ?_, ?_⟩, by simp, .inl ?_⟩
      · exact fun _ _ => hop
      · exact (Nat.zero_add _).le
      · simp only [spentUs, charge, List.map_cons, List.sum_cons, Charge.airUs]
        omega
    · exact ⟨[], .of_same rfl rfl, by simp, .inr rfl⟩

theorem chargeRxUntil_past {endUs : ℕ} (hop : s.op = .rx) (h : s.Metered t₀)
    (hend : endUs ≤ s.nowUs) :
    ∃ new, Pays s (s.chargeRxUntil endUs) new ∧ (∀ x ∈ new, ∃ us, x = .rx us) ∧
      t₀ + (s.chargeRxUntil endUs).spentUs ≤ (s.chargeRxUntil endUs).nowUs := by
  obtain ⟨new, hpays, hrx, hspent⟩ := chargeRxUntil_pays endUs (by rw [hop]; rfl)
  refine ⟨new, hpays, hrx, ?_⟩
  have hon := (h.rx hop).1
  have hpast := h.past
  rw [chargeRxUntil_nowUs]
  omega

theorem runCb_rxClose_pays (h : runCb n .rxClose s = some s') (hop : s.op = .rx)
    (hm : s.Metered t₀) (hclose : s.rxCloseUs ≤ s.nowUs) :
    ∃ new, Pays s s' new ∧ s'.Metered t₀ := by
  induction n generalizing s with
  | zero => cases h
  | succ n ih =>
    change rxClose (runCb n) s = some s' at h
    unfold rxClose at h
    rw [if_neg (not_not.mpr hop)] at h
    split at h
    · simp only [lgTsTimerAt] at h
      split at h
      · cases h
        refine ⟨[], .of_same rfl rfl, hm.past, hm.tx, fun _ => ⟨(hm.rx hop).1, ?_⟩⟩
        intro t ht
        cases ht
        exact Nat.le_add_right _ _
      · obtain ⟨new, hpays, hlast⟩ := ih h hop ⟨hm.past, hm.tx, fun _ =>
          ⟨(hm.rx hop).1, by simp⟩⟩ hclose
        exact ⟨new, ⟨hpays.charges, hpays.tx, hpays.rx, hpays.starts⟩, hlast⟩
    · cases h
      obtain ⟨new, hpays, -, hpast⟩ := chargeRxUntil_past hop hm hclose
      exact ⟨new, ⟨hpays.charges, hpays.tx, hpays.rx, hpays.starts⟩, .idle rfl hpast⟩

theorem runCb_rxFire_pays (h : runCb n .rxFire s = some s') (hop : s.op = .rxArmed)
    (hm : s.Metered t₀) : ∃ new, Pays s s' new ∧ s'.Metered t₀ := by
  cases n with
  | zero => cases h
  | succ n =>
    change rxFire (runCb n) s = some s' at h
    unfold rxFire at h
    have hsame := chargeFixed_op { s with op := .rx }
    obtain ⟨new, hpays, hspent⟩ := chargeFixed_pays { s with op := .rx }
    generalize ({ s with op := .rx } : Nrf).chargeFixed = d at h hsame hpays hspent
    obtain ⟨hon, -, -, hnow⟩ := hsame
    have hfixed : Pays s d new := by
      refine ⟨hpays.charges, fun us hmem => ?_, fun us hmem => ?_, hpays.starts⟩
      · have htx := hpays.tx us hmem
        cases htx
      · rw [hop]
        rfl
    have hpast : t₀ + d.spentUs ≤ d.nowUs := by
      rw [hspent, hnow]
      exact hm.past
    have hopened : ∀ timer, Metered t₀ { d with
        rxOnUs := d.nowUs + rampupUs, charged := false, address := false, rearms := [],
        timer := timer } ∨ ∃ t ∈ timer, t.1 < d.rxCloseUs := by
      intro timer
      by_cases ht : ∀ t ∈ timer, d.rxCloseUs ≤ t.1
      · left
        refine ⟨hpast, fun hphase => ?_, fun _ => ⟨Nat.le_add_right_of_le hpast, ht⟩⟩
        rw [show d.op = .rx from hon] at hphase
        cases hphase
      · right
        simpa using ht
    simp only [lgTsTimerAt] at h
    split at h
    · cases h
      refine ⟨new, ⟨hfixed.charges, hfixed.tx, hfixed.rx, hfixed.starts⟩, ?_⟩
      exact (hopened _).resolve_right (by simp)
    · next hlate =>
      have hready := (hopened none).resolve_right (by simp)
      obtain ⟨new', hpays', hlast⟩ := runCb_rxClose_pays h hon hready (not_lt.mp hlate)
      have hclosed : Pays d s' new' := ⟨hpays'.charges, hpays'.tx, hpays'.rx, hpays'.starts⟩
      have hphase : d.op.phase = s.op.phase := by
        rw [hon, hop]
        rfl
      exact ⟨new' ++ new, hfixed.trans hclosed hphase, hlast⟩

theorem handleBcmatch_pays (hop : s.op = .rx) (hm : s.Metered t₀) :
    ∃ new, Pays s s.handleBcmatch new ∧ s.handleBcmatch.Metered t₀ := by
  unfold handleBcmatch
  split
  · exact ⟨[], .refl s, hm⟩
  · split
    · exact ⟨[], .refl s, hm⟩
    · obtain ⟨new, hpays, -, hpast⟩ := chargeRxUntil_past hop hm le_rfl
      exact ⟨new, ⟨hpays.charges, hpays.tx, hpays.rx, hpays.starts⟩, .idle rfl hpast⟩

theorem handleTxEnd_pays (hop : s.op = .tx) (hm : s.Metered t₀) (hsent : s.txAirEndUs ≤ s.nowUs) :
    ∃ new, Pays s s.handleTxEnd new ∧ s.handleTxEnd.Metered t₀ := by
  have hphase : s.op.phase = .tx := by
    rw [hop]
    rfl
  refine ⟨[.tx (airtimeUs s.txLen)], ⟨rfl, fun _ _ => hphase, by simp, ?_⟩, .idle rfl ?_⟩
  · exact (Nat.zero_add _).le
  · have hroom := hm.tx hphase
    change t₀ + (airtimeUs s.txLen + s.spentUs) ≤ s.nowUs
    omega

theorem handleRxEnd_pays (hop : s.op = .rx) (hm : s.Metered t₀) :
    ∃ new, Pays s s.handleRxEnd new ∧ s.handleRxEnd.Metered t₀ := by
  unfold handleRxEnd
  split
  · exact ⟨[], .refl s, hm⟩
  · have hcancel : s.lgTsTimerCancel.Metered t₀ :=
      ⟨hm.past, hm.tx, fun _ => ⟨(hm.rx hop).1, by simp [lgTsTimerCancel]⟩⟩
    obtain ⟨new, hpays, -, hpast⟩ := chargeRxUntil_past (s := s.lgTsTimerCancel) hop hcancel le_rfl
    exact ⟨new, ⟨hpays.charges, hpays.tx, hpays.rx, hpays.starts⟩, .idle rfl hpast⟩

theorem lgPhyIsr_pays {bcmatch ended : Bool} (hen : s.Enabled (.isr bcmatch ended))
    (hm : s.Metered t₀) :
    ∃ new, Pays s (s.lgPhyIsr bcmatch ended) new ∧ (s.lgPhyIsr bcmatch ended).Metered t₀ := by
  obtain ⟨hmatch, hended⟩ := hen
  obtain ⟨new, hpays, hfirst, hkeep⟩ : ∃ new, Pays s (if bcmatch then s.handleBcmatch else s) new ∧
      (if bcmatch then s.handleBcmatch else s).Metered t₀ ∧
      ((if bcmatch then s.handleBcmatch else s) = s ∨
        bcmatch = true ∧ (if bcmatch then s.handleBcmatch else s).op = .idle) := by
    cases bcmatch with
    | false => exact ⟨[], .refl s, hm, .inl rfl⟩
    | true =>
      obtain ⟨new, hpays, hfirst⟩ := handleBcmatch_pays (hmatch rfl).2.1 hm
      refine ⟨new, hpays, hfirst, ?_⟩
      simp only [if_true, true_and]
      unfold handleBcmatch
      split
      · exact .inl rfl
      · split
        · exact .inl rfl
        · exact .inr rfl
  unfold lgPhyIsr
  generalize (if bcmatch then s.handleBcmatch else s) = d at hpays hfirst hkeep
  dsimp only
  split
  · exact ⟨new, hpays, hfirst⟩
  · next hon =>
    have hsame : d = s := hkeep.resolve_right hon
    subst hsame
    split
    · next hend =>
      split
      · next htx =>
        refine handleTxEnd_pays htx hm ?_
        rcases hended hend with ⟨-, hsent⟩ | ⟨hrx, -⟩
        · exact hsent
        · rw [htx] at hrx
          cases hrx
      · split
        · next hrx => exact handleRxEnd_pays hrx hm
        · exact ⟨[], .refl d, hm⟩
    · exact ⟨[], .refl d, hm⟩

/-- An interrupt of the radio or of its timer. -/
theorem perform_pays {inp : Input} (hi : inp.isRadio = true) (hen : s.Enabled inp)
    (hp : s.perform n inp = some s') (ht : s.Timed) (hm : s.Metered t₀) :
    ∃ new, Pays s s' new ∧ s'.Metered t₀ := by
  cases inp with
  | fire =>
    obtain ⟨⟨⟨t, cb⟩, htimer, hdue⟩, -⟩ := hen
    have htimer : s.timer = some (t, cb) := htimer
    have hnone : Metered t₀ { s with timer := none } :=
      ⟨hm.past, hm.tx, fun hop => ⟨(hm.rx hop).1, by simp⟩⟩
    unfold Nrf.perform at hp
    rw [htimer] at hp
    dsimp only at hp
    have hsame : ∀ {new}, Pays { s with timer := none } s' new → Pays s s' new :=
      fun h => ⟨h.charges, h.tx, h.rx, h.starts⟩
    unfold Timed at ht
    cases hop : s.op with
    | idle | tx =>
      rw [hop] at ht
      rw [htimer] at ht
      cases ht
    | txArmed =>
      rw [hop, htimer] at ht
      obtain ⟨t', ht⟩ := ht
      cases ht
      cases n with
      | zero => cases hp
      | succ n =>
        cases hp
        unfold txFire
        have hfixed := chargeFixed_op { s with timer := none, op := .tx }
        have hlens := chargeFixed_tx { s with timer := none, op := .tx }
        obtain ⟨new, hpays, hspent⟩ := chargeFixed_pays { s with timer := none, op := .tx }
        generalize ({ s with timer := none, op := .tx } : Nrf).chargeFixed = d at *
        have hphase : s.op.phase = .tx := by
          rw [hop]
          rfl
        refine ⟨new, ⟨hpays.charges, fun _ _ => hphase, fun us hmem => ?_, hpays.starts⟩, ?_⟩
        · have hrx := hpays.rx us hmem
          cases hrx
        · refine ⟨?_, fun _ => ?_, fun hrx => ?_⟩
          · rw [hspent, hfixed.2.2.2]
            exact hm.past
          · rw [hspent, hlens.1, hlens.2]
            exact hm.tx hphase
          · rw [hfixed.1] at hrx
            cases hrx
    | rxArmed =>
      rw [hop, htimer] at ht
      obtain ⟨t', ht, -⟩ := ht
      cases ht
      obtain ⟨new, hpays, hlast⟩ := runCb_rxFire_pays hp hop hnone
      exact ⟨new, hsame hpays, hlast⟩
    | rx =>
      rw [hop, htimer] at ht
      obtain ⟨t', ht, -⟩ := ht
      cases ht
      have hclose : s.rxCloseUs ≤ s.nowUs := ((hm.rx hop).2 _ htimer).trans hdue
      obtain ⟨new, hpays, hlast⟩ := runCb_rxClose_pays hp hop hnone hclose
      exact ⟨new, hsame hpays, hlast⟩
  | address f =>
    cases hp
    exact ⟨[], .of_same rfl rfl, hm.past, hm.tx, hm.rx⟩
  | isr bcmatch ended =>
    cases hp
    exact lgPhyIsr_pays hen hm
  | _ => cases hi

/-- Stopping charges what is being received, and nothing else. -/
theorem lgPhyStop_pays (hm : s.Metered t₀) :
    ∃ new, s.lgPhyStop.charges = new ++ s.charges ∧ (∀ x ∈ new, ∃ us, x = .rx us) ∧
      (new ≠ [] → s.op = .rx) ∧ s.lgPhyStop.Metered t₀ := by
  unfold lgPhyStop
  by_cases hop : s.op = .rx
  · rw [if_pos hop]
    obtain ⟨new, hpays, hrx, hpast⟩ := chargeRxUntil_past hop hm le_rfl
    exact ⟨new, hpays.charges, hrx, fun _ => hop, .idle rfl hpast⟩
  · rw [if_neg hop]
    exact ⟨[], rfl, by simp, by simp, .idle rfl hm.past⟩

/-- A frame that is taken ends its air time after all that has been charged. -/
theorem lgPhyTxAt_metered (hop : s.op = .idle) (hm : s.Metered t₀) (airStartUs : ℕ) (chan : UInt8)
    (pdu : Bytes) : (s.lgPhyTxAt airStartUs chan pdu).2.charges = s.charges ∧
      (s.lgPhyTxAt airStartUs chan pdu).2.inEvent = s.inEvent ∧
      (s.lgPhyTxAt airStartUs chan pdu).2.Metered t₀ := by
  unfold lgPhyTxAt
  split
  · exact ⟨rfl, rfl, hm⟩
  · dsimp only
    split
    · exact ⟨rfl, rfl, .idle hop hm.past⟩
    · next hlate =>
      have hpast := hm.past
      refine ⟨rfl, rfl, hpast, fun _ => ?_, by simp⟩
      change t₀ + s.spentUs + airtimeUs pdu.length ≤ airStartUs + airtimeUs pdu.length
      omega

theorem lgPhyRxWindow_metered (hop : s.op = .idle) (hm : s.Metered t₀) (openUs closeUs : ℕ)
    (chan : UInt8) : (s.lgPhyRxWindow openUs closeUs chan).2.charges = s.charges ∧
      (s.lgPhyRxWindow openUs closeUs chan).2.inEvent = s.inEvent ∧
      (s.lgPhyRxWindow openUs closeUs chan).2.Metered t₀ := by
  unfold lgPhyRxWindow
  split
  · exact ⟨rfl, rfl, hm⟩
  · dsimp only
    split
    · exact ⟨rfl, rfl, .idle hop hm.past⟩
    · exact ⟨rfl, rfl, hm.past, by simp [PhyOp.phase], by simp⟩

theorem lgPhyTxAt_idle (hop : s.op = .idle) (airStartUs : ℕ) (chan : UInt8) (pdu : Bytes)
    (hno : (s.lgPhyTxAt airStartUs chan pdu).1.toBool = false) :
    (s.lgPhyTxAt airStartUs chan pdu).2.op = .idle := by
  unfold lgPhyTxAt at hno ⊢
  split
  · exact hop
  · next hlen =>
    rw [if_neg hlen] at hno
    dsimp only at hno ⊢
    split
    · exact hop
    · next hlate =>
      rw [if_neg hlate] at hno
      cases hno

theorem lgPhyRxWindow_idle (hop : s.op = .idle) (openUs closeUs : ℕ) (chan : UInt8)
    (hno : (s.lgPhyRxWindow openUs closeUs chan).1.toBool = false) :
    (s.lgPhyRxWindow openUs closeUs chan).2.op = .idle := by
  unfold lgPhyRxWindow at hno ⊢
  split
  · exact hop
  · next hlen =>
    rw [if_neg hlen] at hno
    dsimp only at hno ⊢
    split
    · exact hop
    · next hlate =>
      rw [if_neg hlate] at hno
      cases hno

/-- `LG_ED_LOOP_US`. -/
def edLoopUs : ℕ := 128

/-- What `lg_phy_noise_floor` charges, the newest first. -/
def noiseFloorCharges (s : Nrf) (periodUs : ℕ) : List Charge :=
  [.rx (max (periodUs / edLoopUs) 1 * edLoopUs), if s.inEvent then .turnaround else .eventStart]

end Nrf

end LockGrid
