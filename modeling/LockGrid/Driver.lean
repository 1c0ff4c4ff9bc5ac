import LockGrid.Nrf

/-!
# One operation at a time

The fine timer is set for the operation that is on and for nothing else, and an operation that the
driver has taken ends in one report.
-/
namespace LockGrid

/-- What the scheduler knows of an operation. -/
def PhyOp.phase : PhyOp → Phy
  | .idle => .idle
  | .txArmed | .tx => .tx
  | .rxArmed | .rx => .rx

def PhyReport.phase : PhyReport → Phy
  | .txDone _ => .tx
  | .rxDone _ | .rxFailed _ => .rx

namespace Nrf

variable {s s' : Nrf}

/-- What the fine timer is set for. A window that is put off waits for one frame at most. -/
def Timed (s : Nrf) : Prop :=
  match s.op with
  | .idle | .tx => s.timer = none
  | .txArmed => ∃ t, s.timer = some (t, .txFire)
  | .rxArmed => ∃ t, s.timer = some (t, .rxFire) ∧ t ≤ s.rxCloseUs
  | .rx => ∃ t, s.timer = some (t, .rxClose) ∧ t ≤ s.rxCloseUs + airtimeUs (pduMax + crcLen)

theorem Timed.idle (hop : s.op = .idle) (ht : s.timer = none) : s.Timed := by
  unfold Timed
  rw [hop]
  exact ht

theorem Timed.tx (hop : s.op = .tx) (ht : s.timer = none) : s.Timed := by
  unfold Timed
  rw [hop]
  exact ht

theorem Timed.rx {t : ℕ} (hop : s.op = .rx) (ht : s.timer = some (t, .rxClose))
    (hle : t ≤ s.rxCloseUs + airtimeUs (pduMax + crcLen)) : s.Timed := by
  unfold Timed
  rw [hop]
  exact ⟨t, ht, hle⟩

theorem Timed.timer_of_idle (h : s.Timed) (hop : s.op = .idle) : s.timer = none := by
  unfold Timed at h
  rwa [hop] at h

theorem Timed.timer_of_tx (h : s.Timed) (hop : s.op = .tx) : s.timer = none := by
  unfold Timed at h
  rwa [hop] at h

theorem Timed.armed (h : s.Timed) (hop : s.op ≠ .idle ∧ s.op ≠ .tx) :
    ∃ t cb, s.timer = some (t, cb) := by
  unfold Timed at h
  cases hkind : s.op with
  | idle => exact absurd hkind hop.1
  | tx => exact absurd hkind hop.2
  | txArmed =>
    rw [hkind] at h
    obtain ⟨t, ht⟩ := h
    exact ⟨t, _, ht⟩
  | _ =>
    rw [hkind] at h
    obtain ⟨t, ht, -⟩ := h
    exact ⟨t, _, ht⟩

theorem Timed.congr (h : s.Timed) (hop : s'.op = s.op) (ht : s'.timer = s.timer)
    (hclose : s'.rxCloseUs = s.rxCloseUs) : s'.Timed := by
  unfold Timed
  rw [hop, ht, hclose]
  exact h

theorem remainingUs_le (s : Nrf) : s.remainingUs ≤ airtimeUs (pduMax + crcLen) := by
  unfold remainingUs
  dsimp only
  split <;> simp only [airtimeUs, pduMax, crcLen] at * <;> omega

/-- When the operation is to end. -/
def plan (s : Nrf) : ℕ × ℕ := (s.rxCloseUs, s.txAirEndUs)

/-- An interrupt leaves the operation on, or ends it and reports. -/
inductive Moves (s s' : Nrf) : Prop
  | on (hreports : s'.reports = s.reports) (hphase : s'.op.phase = s.op.phase)
    (hplan : s'.plan = s.plan)
  | ends (r : PhyReport) (hreports : s'.reports = r :: s.reports) (hop : s'.op = .idle)
    (hphase : r.phase = s.op.phase) (hsent : ∀ t, r = .txDone t → t = s.txAirEndUs)

theorem Moves.of_same {d : Nrf} (h : Moves d s') (hreports : d.reports = s.reports)
    (hphase : d.op.phase = s.op.phase) (hplan : d.plan = s.plan) : Moves s s' := by
  cases h with
  | on hr hp hl => exact .on (hr.trans hreports) (hp.trans hphase) (hl.trans hplan)
  | ends r hr hop hp hs =>
    refine .ends r (hr.trans (congrArg _ hreports)) hop (hp.trans hphase) fun t ht => ?_
    exact (hs t ht).trans (congrArg Prod.snd hplan)

theorem chargeFixed_op (s : Nrf) : s.chargeFixed.op = s.op ∧ s.chargeFixed.timer = s.timer ∧
    s.chargeFixed.reports = s.reports ∧ s.chargeFixed.nowUs = s.nowUs := by
  have hc := chargeFixed_core s
  simp only [core, Prod.mk.injEq] at hc
  exact ⟨hc.1, hc.2.1, hc.2.2.2.2.2.2.1, hc.2.2.2.2.2.2.2⟩

theorem chargeFixed_plan (s : Nrf) : s.chargeFixed.plan = s.plan := by
  unfold chargeFixed
  split <;> rfl

theorem chargeRxUntil_op (s : Nrf) (endUs : ℕ) :
    (s.chargeRxUntil endUs).op = s.op ∧ (s.chargeRxUntil endUs).timer = s.timer ∧
      (s.chargeRxUntil endUs).reports = s.reports := by
  have hc := chargeRxUntil_core s endUs
  simp only [core, Prod.mk.injEq] at hc
  exact ⟨hc.1, hc.2.1, hc.2.2.2.2.2.2.1⟩

theorem runCb_rxClose {n : ℕ} (h : runCb n .rxClose s = some s') (hop : s.op = .rx)
    (ht : s.timer = none) : Moves s s' ∧ s'.Timed := by
  induction n generalizing s with
  | zero => cases h
  | succ n ih =>
    change rxClose (runCb n) s = some s' at h
    unfold rxClose at h
    rw [if_neg (not_not.mpr hop)] at h
    split at h
    · have hlate := remainingUs_le s
      simp only [lgTsTimerAt] at h
      split at h
      · cases h
        exact ⟨.on rfl rfl rfl, .rx hop rfl (Nat.add_le_add_left hlate _)⟩
      · obtain ⟨hmoves, htimed⟩ := ih h hop rfl
        exact ⟨hmoves.of_same rfl rfl rfl, htimed⟩
    · cases h
      obtain ⟨-, htimer, hreports⟩ := chargeRxUntil_op s s.rxCloseUs
      refine ⟨.ends (.rxFailed .timeout) ?_ rfl (by rw [hop]; rfl) (by simp), .idle rfl ?_⟩
      · exact congrArg _ hreports
      · exact htimer.trans ht

theorem runCb_rxFire {n : ℕ} (h : runCb n .rxFire s = some s') (hop : s.op = .rxArmed) :
    Moves s s' ∧ s'.Timed := by
  cases n with
  | zero => cases h
  | succ n =>
    change rxFire (runCb n) s = some s' at h
    obtain ⟨hop', -, hreports, -⟩ := chargeFixed_op { s with op := .rx }
    have hplan := chargeFixed_plan { s with op := .rx }
    unfold rxFire at h
    generalize ({ s with op := PhyOp.rx } : Nrf).chargeFixed = d at hop' hreports hplan h
    have hphase : d.op.phase = s.op.phase := by
      rw [hop', hop]
      rfl
    simp only [lgTsTimerAt] at h
    split at h
    · cases h
      exact ⟨.on hreports hphase hplan, .rx hop' rfl (Nat.le_add_right _ _)⟩
    · obtain ⟨hmoves, htimed⟩ := runCb_rxClose h hop' rfl
      exact ⟨hmoves.of_same hreports hphase hplan, htimed⟩

theorem handleBcmatch_moves (h : s.Timed) (hop : s.op = .rx) :
    Moves s s.handleBcmatch ∧ s.handleBcmatch.Timed ∧
      (s.handleBcmatch = s ∨ s.handleBcmatch.op = .idle) := by
  unfold handleBcmatch
  split
  · exact ⟨.on rfl rfl rfl, h, .inl rfl⟩
  · split
    · exact ⟨.on rfl rfl rfl, h, .inl rfl⟩
    · obtain ⟨-, -, hreports⟩ := chargeRxUntil_op s s.nowUs
      refine ⟨.ends (.rxFailed .filtered) ?_ rfl (by rw [hop]; rfl) (by simp), .idle rfl rfl,
        .inr rfl⟩
      exact congrArg _ hreports

theorem received_phase (f : Incoming) (nowUs : ℕ) : (received f nowUs).phase = .rx := by
  unfold received
  dsimp only
  split <;> split <;> rfl

theorem handleRxEnd_moves (h : s.Timed) (hop : s.op = .rx) :
    Moves s s.handleRxEnd ∧ s.handleRxEnd.Timed := by
  unfold handleRxEnd
  split
  · exact ⟨.on rfl rfl rfl, h⟩
  · next f _ =>
    obtain ⟨-, htimer, hreports⟩ := chargeRxUntil_op s.lgTsTimerCancel s.nowUs
    have hphase := received_phase f (s.lgTsTimerCancel.chargeRxUntil s.nowUs).radioDisable.nowUs
    refine ⟨.ends (received f (s.lgTsTimerCancel.chargeRxUntil s.nowUs).radioDisable.nowUs) ?_ rfl
      ?_ fun t ht => ?_, .idle rfl ?_⟩
    · exact congrArg _ hreports
    · rw [hphase, hop]
      rfl
    · rw [ht] at hphase
      cases hphase
    · exact htimer

theorem handleTxEnd_moves (h : s.Timed) (hop : s.op = .tx) :
    Moves s s.handleTxEnd ∧ s.handleTxEnd.Timed := by
  refine ⟨.ends (.txDone s.txAirEndUs) rfl rfl (by rw [hop]; rfl) ?_, .idle rfl ?_⟩
  · intro t ht
    cases ht
    rfl
  · exact h.timer_of_tx hop

/-- The interrupts of the radio and of its timer. -/
def Input.isRadio : Input → Bool
  | .fire | .address _ | .isr .. => true
  | _ => false

/-- What an interrupt does. -/
theorem perform_moves {n : ℕ} {inp : Input} (h : s.Timed) (hi : inp.isRadio = true)
    (hen : s.Enabled inp) (hp : s.perform n inp = some s') : Moves s s' ∧ s'.Timed := by
  cases inp with
  | fire =>
    obtain ⟨⟨⟨t, cb⟩, ht, -⟩, -⟩ := hen
    have htimer : s.timer = some (t, cb) := ht
    simp only [perform, htimer] at hp
    have hkind := h
    unfold Timed at hkind
    cases hop : s.op with
    | idle =>
      rw [hop] at hkind
      simp [htimer] at hkind
    | tx =>
      rw [hop] at hkind
      simp [htimer] at hkind
    | txArmed =>
      rw [hop] at hkind
      obtain ⟨t', ht'⟩ := hkind
      rw [htimer] at ht'
      cases ht'
      cases n with
      | zero => cases hp
      | succ n =>
        cases hp
        obtain ⟨hop', htimer', hreports, -⟩ :=
          chargeFixed_op { { s with timer := none } with op := .tx }
        have hplan := chargeFixed_plan { { s with timer := none } with op := .tx }
        refine ⟨.on hreports ?_ hplan, .tx hop' htimer'⟩
        change (chargeFixed _).op.phase = _
        rw [hop', hop]
        rfl
    | rxArmed =>
      rw [hop] at hkind
      obtain ⟨t', ht', -⟩ := hkind
      rw [htimer] at ht'
      cases ht'
      obtain ⟨hmoves, htimed⟩ := runCb_rxFire hp hop
      exact ⟨hmoves.of_same rfl rfl rfl, htimed⟩
    | rx =>
      rw [hop] at hkind
      obtain ⟨t', ht', -⟩ := hkind
      rw [htimer] at ht'
      cases ht'
      obtain ⟨hmoves, htimed⟩ := runCb_rxClose hp hop rfl
      exact ⟨hmoves.of_same rfl rfl rfl, htimed⟩
  | address f =>
    cases hp
    exact ⟨.on rfl rfl rfl, h.congr rfl rfl rfl⟩
  | isr bcmatch ended =>
    cases hp
    obtain ⟨hbc, hend⟩ := hen
    unfold lgPhyIsr
    have hfirst : Moves s (if bcmatch then s.handleBcmatch else s) ∧
        (if bcmatch then s.handleBcmatch else s).Timed ∧
        ((if bcmatch then s.handleBcmatch else s) = s ∨
          bcmatch = true ∧ (if bcmatch then s.handleBcmatch else s).op = .idle) := by
      cases bcmatch with
      | false => exact ⟨.on rfl rfl rfl, h, .inl rfl⟩
      | true =>
        obtain ⟨hm, ht, hs⟩ := handleBcmatch_moves h (hbc rfl).2.1
        exact ⟨hm, ht, hs.imp_right fun hidle => ⟨rfl, hidle⟩⟩
    generalize (if bcmatch then s.handleBcmatch else s) = d at hfirst
    obtain ⟨hm, ht, hs⟩ := hfirst
    dsimp only
    split
    · exact ⟨hm, ht⟩
    · next hgo =>
      rcases hs with rfl | ⟨hb, hidle⟩
      · split
        · split
          · next hop => exact handleTxEnd_moves h hop
          · split
            · next hop => exact handleRxEnd_moves h hop
            · exact ⟨.on rfl rfl rfl, h⟩
        · exact ⟨.on rfl rfl rfl, h⟩
      · exact absurd ⟨hb, hidle⟩ hgo
  | _ => cases hi

/-! ## Commands -/

theorem lgPhyStop_idle (s : Nrf) : s.lgPhyStop.op = .idle ∧ s.lgPhyStop.timer = none ∧
    s.lgPhyStop.reports = s.reports ∧ s.lgPhyStop.nowUs = s.nowUs := by
  have hc := chargeRxUntil_core s s.nowUs
  simp only [core, Prod.mk.injEq] at hc
  obtain ⟨-, -, -, -, -, -, hreports, hnow⟩ := hc
  unfold lgPhyStop
  refine ⟨rfl, rfl, ?_, ?_⟩
  · split
    · exact hreports
    · rfl
  · split
    · exact hnow
    · rfl

theorem lgPhyStop_timed (s : Nrf) : s.lgPhyStop.Timed :=
  .idle (lgPhyStop_idle s).1 (lgPhyStop_idle s).2.1

/-- A send is taken and waits for its time, or nothing is on. -/
theorem lgPhyTxAt_taken (airStartUs : ℕ) (chan : UInt8) (pdu : Bytes)
    (h : (s.lgPhyTxAt airStartUs chan pdu).1.toBool = true) :
    (s.lgPhyTxAt airStartUs chan pdu).2.op = .txArmed ∧
      (s.lgPhyTxAt airStartUs chan pdu).2.Timed := by
  unfold lgPhyTxAt at h ⊢
  split at h
  · cases h
  · dsimp only at h ⊢
    split at h
    · cases h
    · next hlen htime =>
      rw [if_neg hlen, if_neg htime]
      exact ⟨rfl, ⟨_, rfl⟩⟩

theorem lgPhyRxWindow_taken (openUs closeUs : ℕ) (chan : UInt8)
    (h : (s.lgPhyRxWindow openUs closeUs chan).1.toBool = true) :
    (s.lgPhyRxWindow openUs closeUs chan).2.op = .rxArmed ∧
      (s.lgPhyRxWindow openUs closeUs chan).2.Timed := by
  unfold lgPhyRxWindow at h ⊢
  split at h
  · cases h
  · dsimp only at h ⊢
    split at h
    · cases h
    · next hwin htime =>
      rw [if_neg hwin, if_neg htime]
      refine ⟨rfl, _, rfl, ?_⟩
      change openUs - rampupUs ≤ closeUs
      omega

theorem runCb_nowUs {n : ℕ} {cb : FineCb} (h : runCb n cb s = some s') : s'.nowUs = s.nowUs := by
  induction n generalizing s cb with
  | zero => cases h
  | succ n ih =>
    cases cb with
    | txFire =>
      cases h
      exact (chargeFixed_op { s with op := .tx }).2.2.2
    | rxFire =>
      change rxFire (runCb n) s = some s' at h
      have hnow := (chargeFixed_op { s with op := .rx }).2.2.2
      unfold rxFire at h
      generalize ({ s with op := PhyOp.rx } : Nrf).chargeFixed = d at hnow h
      simp only [lgTsTimerAt] at h
      split at h
      · cases h
        exact hnow
      · exact (ih h).trans hnow
    | rxClose =>
      change rxClose (runCb n) s = some s' at h
      unfold rxClose at h
      split at h
      · cases h
        rfl
      · split at h
        · simp only [lgTsTimerAt] at h
          split at h
          · cases h
            rfl
          · exact (ih h).trans rfl
        · cases h
          have hc := chargeRxUntil_core s s.rxCloseUs
          simp only [core, Prod.mk.injEq] at hc
          exact hc.2.2.2.2.2.2.2

/-- The clock moves between interrupts. -/
theorem perform_nowUs {n : ℕ} {inp : Input} (hi : inp.isRadio = true)
    (h : s.perform n inp = some s') : s'.nowUs = s.nowUs := by
  have hrx : ∀ (d : Nrf) (t : ℕ), (d.chargeRxUntil t).nowUs = d.nowUs := by
    intro d t
    have hc := chargeRxUntil_core d t
    simp only [core, Prod.mk.injEq] at hc
    exact hc.2.2.2.2.2.2.2
  cases inp with
  | fire =>
    unfold perform at h
    dsimp only at h
    split at h
    · cases h
      rfl
    · next cb _ => exact runCb_nowUs (s := { s with timer := none }) h
  | address f =>
    cases h
    rfl
  | isr bcmatch ended =>
    cases h
    have hbc : s.handleBcmatch.nowUs = s.nowUs := by
      unfold handleBcmatch
      split
      · rfl
      · split
        · rfl
        · exact hrx s _
    have hend : ∀ d : Nrf, d.handleRxEnd.nowUs = d.nowUs := by
      intro d
      unfold handleRxEnd
      split
      · rfl
      · exact hrx d.lgTsTimerCancel _
    have hfirst : (if bcmatch then s.handleBcmatch else s).nowUs = s.nowUs := by
      split
      · exact hbc
      · rfl
    unfold lgPhyIsr
    generalize (if bcmatch then s.handleBcmatch else s) = d at hfirst ⊢
    dsimp only
    split_ifs
    · exact hfirst
    · exact hfirst
    · exact (hend d).trans hfirst
    · exact hfirst
    · exact hfirst
  | _ => cases hi

end Nrf

end LockGrid
