import LockGrid.Ending

/-!
# What the radio is set to do ends with the grant

`event_plan` asks for the radio for the whole of an event, and the handlers of the event then ask
the driver for one operation after another, at times of their own.
-/
namespace LockGrid

variable {cfg : Config} {psa : Psa} {c c' : Node cfg} {o : Oracle}

/-- When the grant of the event ends. -/
def Event.endUs (ev : Event cfg) : ℕ := ev.atUs + min ev.lenUs tsMaxGrantUs

/-- A scan window that the longest grant has room for. -/
def Event.ScanFits (ev : Event cfg) : Prop :=
  ev.kind = .scan → ev.closeUs + schedLeadUs ≤ ev.anchorUs + tsMaxGrantUs

instance (ev : Event cfg) : Decidable ev.ScanFits := by
  unfold Event.ScanFits
  infer_instance

/-- When a receive window of the event may close. -/
def Event.Closes (ev : Event cfg) (closeUs : ℕ) : Prop :=
  if ev.kind = .scan then closeUs = ev.closeUs else closeUs ≤ ev.endUs

theorem Event.Closes.of_le {ev : Event cfg} {closeUs : ℕ} (hk : ev.kind ≠ .scan)
    (h : closeUs ≤ ev.endUs) : ev.Closes closeUs := by
  unfold Event.Closes
  rwa [if_neg hk]

/-- The grant has room for what the handlers of the event ask for: both windows of a link event,
the second after the longest frame, all copies of a beacon, and the window of an event that only
listens; that of a scan if it is not too long. -/
structure Event.Roomy (ev : Event cfg) : Prop where
  exchange : ev.kind = .link →
    ev.anchorUs + airtimeUs pduMax + ifsUs + cfg.rxWindowMinUs / 2 + syncWindowUs ≤ ev.endUs
  window : ev.kind = .link → ev.anchorUs + ev.windowUs + syncWindowUs ≤ ev.endUs
  copies : ev.kind = .beacon → ev.anchorUs + (rdvSlots - 1) * copyStrideUs + beaconAirUs ≤ ev.endUs
  listens : ev.kind = .track ∨ ev.kind = .joinRx → ev.closeUs ≤ ev.endUs
  scans : ev.kind = .scan → (ev.closeUs ≤ ev.endUs ↔ ev.ScanFits)

theorem lgLinkWindowUs_le (cfg : Config) (now : ℕ) (s : Schedule) :
    lgLinkWindowUs cfg now s ≤ 30000 := by
  have hmin := cfg.rxWindowMinUs_range.2
  have hmax := cfg.rxWindowMaxUs_range.2
  unfold lgLinkWindowUs
  split <;> omega

theorem linkPlan_roomy (c : Node cfg) (i : Fin cfg.maxNeighbors) (anchorUs no : ℕ)
    (hsoon : schedMinHorizonUs ≤ (linkPlan c i anchorUs).atUs) :
    ({ linkPlan c i anchorUs with histNo := no } : Event cfg).Roomy := by
  have hwin := lgLinkWindowUs_le cfg c.nowUs (c.neigh i).sched
  have hmin := cfg.rxWindowMinUs_range.2
  have hend : anchorUs + airtimeUs pduMax + ifsUs + cfg.rxWindowMinUs / 2 + syncWindowUs ≤
        Event.endUs { linkPlan c i anchorUs with histNo := no } ∧
      anchorUs + lgLinkWindowUs cfg c.nowUs (c.neigh i).sched + syncWindowUs ≤
        Event.endUs { linkPlan c i anchorUs with histNo := no } := by
    unfold linkPlan at hsoon ⊢
    unfold Event.endUs
    simp only [lgFrameEventBudgetUs, tsMaxGrantUs, schedMinHorizonUs, schedLeadUs, rampupUs,
      airtimeUs, pduMax, ifsUs, syncWindowUs] at hsoon ⊢
    generalize lgLinkWindowUs cfg c.nowUs (c.neigh i).sched = win at hwin hsoon ⊢
    split at hsoon <;> simp only [*, if_true, if_false, Bool.false_eq_true] <;> omega
  refine ⟨fun _ => hend.1, fun _ => hend.2, ?_, ?_, ?_⟩
  · intro hk
    cases hk
  · intro hk
    rcases hk with hk | hk <;> cases hk
  · intro hk
    cases hk

/-- What is planned in good time has room. -/
theorem eventPlan_roomy (c : Node cfg) (cand : Candidate cfg) (no : ℕ)
    (hn : (eventPlan c cand).1.kind = .link → ∃ i, (eventPlan c cand).1.neigh = some i)
    (hsoon : schedMinHorizonUs ≤ (eventPlan c cand).1.atUs) :
    ({ (eventPlan c cand).1 with histNo := no } : Event cfg).Roomy := by
  cases hk : cand.kind with
  | link =>
    cases hi : cand.neigh with
    | none =>
      obtain ⟨i, hsome⟩ := hn (by rw [eventPlan_kind, hk])
      unfold eventPlan at hsome
      simp [hk, hi] at hsome
    | some i =>
      have hplan : (eventPlan c cand).1 = linkPlan c i cand.anchorUs := by
        unfold eventPlan
        simp only [hk, hi]
      rw [hplan] at hsoon ⊢
      exact linkPlan_roomy c i cand.anchorUs no hsoon
  | beacon =>
    refine ⟨?_, ?_, fun _ => ?_, ?_, ?_⟩
    · simp [eventPlan, hk]
    · simp [eventPlan, hk]
    · unfold eventPlan at hsoon ⊢
      simp only [hk] at hsoon ⊢
      simp only [Event.endUs, copyStrideUs, beaconAirUs, beaconCopyGapUs, rdvSlots, airtimeUs,
        hdrLen, beaconLen, beaconMicLen, beaconLenUs, tsMaxGrantUs, schedMinHorizonUs,
        schedLeadUs, rampupUs] at hsoon ⊢
      omega
    · simp [eventPlan, hk]
    · simp [eventPlan, hk]
  | scan =>
    refine ⟨?_, ?_, ?_, ?_, fun _ => ?_⟩
    · simp [eventPlan, hk]
    · simp [eventPlan, hk]
    · simp [eventPlan, hk]
    · simp [eventPlan, hk]
    · unfold Event.ScanFits
      unfold eventPlan at hsoon ⊢
      simp only [hk, forall_const] at hsoon ⊢
      simp only [Event.endUs, tsMaxGrantUs, schedMinHorizonUs, schedLeadUs,
        rampupUs] at hsoon ⊢
      constructor <;> intro <;> omega
  | track =>
    refine ⟨?_, ?_, ?_, fun _ => ?_, ?_⟩
    · simp [eventPlan, hk]
    · simp [eventPlan, hk]
    · simp [eventPlan, hk]
    · unfold eventPlan at hsoon ⊢
      simp only [hk] at hsoon ⊢
      simp only [Event.endUs, trackMarginUs, tsMaxGrantUs, schedMinHorizonUs, schedLeadUs,
        rampupUs] at hsoon ⊢
      omega
    · simp [eventPlan, hk]
  | joinRx =>
    refine ⟨?_, ?_, ?_, fun _ => ?_, ?_⟩
    · simp [eventPlan, hk]
    · simp [eventPlan, hk]
    · simp [eventPlan, hk]
    · unfold eventPlan at hsoon ⊢
      simp only [hk] at hsoon ⊢
      simp only [Event.endUs, joinSlotLenUs, joinWindowLenUs, tsMaxGrantUs, schedMinHorizonUs,
        schedLeadUs, rampupUs] at hsoon ⊢
      split <;> omega
    · simp [eventPlan, hk]
  | _ =>
    constructor <;> simp [eventPlan, hk]

/-- The window of an event that only listens. -/
theorem Event.Roomy.closes {ev : Event cfg} (h : ev.Roomy)
    (hk : ev.kind = .scan ∨ ev.kind = .track ∨ ev.kind = .joinRx) : ev.Closes ev.closeUs := by
  unfold Event.Closes
  split
  · rfl
  · next hnot => exact h.listens (hk.resolve_left hnot)

/-! ## Commands -/

theorem airtimeUs_mono {n m : ℕ} (h : n ≤ m) : airtimeUs n ≤ airtimeUs m := by
  unfold airtimeUs
  omega

namespace Nrf

variable {p : Nrf}

/-- A send that is taken is as long as its frame. -/
theorem obey_tx {airStartUs chan : ℕ} {pdu : Bytes}
    (h : (p.obey (some (.tx airStartUs chan pdu))).1 = true) :
    (p.obey (some (.tx airStartUs chan pdu))).2.txAirEndUs = airStartUs + airtimeUs pdu.length ∧
      pdu.length ≤ pduMax := by
  unfold obey at h ⊢
  dsimp only at h ⊢
  split at h
  · next hok =>
    rw [if_pos hok]
    unfold lgPhyTxAt at hok ⊢
    split at hok
    · cases hok
    · next hlen =>
      rw [if_neg hlen]
      dsimp only
      split <;> exact ⟨rfl, by omega⟩
  · cases h

theorem obey_rx {openUs closeUs chan : ℕ}
    (h : (p.obey (some (.rx openUs closeUs chan))).1 = true) :
    (p.obey (some (.rx openUs closeUs chan))).2.rxCloseUs = closeUs := by
  unfold obey at h ⊢
  dsimp only at h ⊢
  split at h
  · next hok =>
    rw [if_pos hok]
    unfold lgPhyRxWindow at hok ⊢
    split at hok
    · cases hok
    · next hwin =>
      rw [if_neg hwin]
      dsimp only
      split <;> rfl
  · cases h

end Nrf

namespace Stack

variable {s s' s₀ : Stack cfg} {p : Nrf} {ident : Identity} {x : Option Cmd} {ts : Direct}

/-! ## What the radio is set to do -/

/-- The operation that is on ends as the event has planned it. -/
structure Planned (ev : Event cfg) (pace : Bool × ℕ) (p : Nrf) : Prop where
  rx : p.op.phase = .rx → ev.Closes p.rxCloseUs
  copy : p.op.phase = .tx → ev.kind = .beacon →
    pace.2 < rdvSlots ∧ p.txAirEndUs ≤ ev.anchorUs + pace.2 * copyStrideUs + beaconAirUs
  first : p.op.phase = .tx → ev.kind = .link → pace.1 = true →
    p.txAirEndUs ≤ ev.anchorUs + airtimeUs pduMax

/-- A command that keeps to the plan of the event. -/
structure Keeps (ev : Event cfg) (pace : Bool × ℕ) (x : Cmd) : Prop where
  rx : ∀ openUs closeUs chan, x = .rx openUs closeUs chan → ev.Closes closeUs
  copy : ∀ airStartUs chan pdu, x = .tx airStartUs chan pdu → ev.kind = .beacon →
    pace.2 < rdvSlots ∧ airStartUs ≤ ev.anchorUs + pace.2 * copyStrideUs ∧
      airtimeUs pdu.length ≤ beaconAirUs
  first : ∀ airStartUs chan pdu, x = .tx airStartUs chan pdu → ev.kind = .link → pace.1 = true →
    airStartUs ≤ ev.anchorUs

/-- A radio that is at rest keeps to any plan. -/
theorem Planned.rests {ev : Event cfg} {pace : Bool × ℕ} (h : p.op = .idle) :
    Planned ev pace p := by
  constructor <;> simp [h, PhyOp.phase]

theorem Planned.obeys {ev : Event cfg} {pace : Bool × ℕ} {y : Cmd} (hrest : p.Rests)
    (h : Keeps ev pace y) (htaken : (p.obey (some y)).1 = true) :
    Planned ev pace (p.obey (some y)).2 := by
  have hphase := (Nrf.obey_taken hrest htaken).1
  cases y with
  | tx airStartUs chan pdu =>
    obtain ⟨hend, hlen⟩ := Nrf.obey_tx htaken
    refine ⟨fun hrx => ?_, fun _ hk => ?_, fun _ hk hfirst => ?_⟩
    · rw [hphase] at hrx
      cases hrx
    · obtain ⟨hidx, hstart, hair⟩ := h.copy _ _ _ rfl hk
      rw [hend]
      exact ⟨hidx, by omega⟩
    · have hstart := h.first _ _ _ rfl hk hfirst
      have hair := airtimeUs_mono hlen
      rw [hend]
      omega
  | rx openUs closeUs chan =>
    refine ⟨fun _ => ?_, fun htx => ?_, fun htx => ?_⟩
    · rw [Nrf.obey_rx htaken]
      exact h.rx _ _ _ rfl
    · rw [hphase] at htx
      cases htx
    · rw [hphase] at htx
      cases htx

/-! ## The handlers keep to the plan -/

theorem Keeps.of_rx {ev : Event cfg} {pace : Bool × ℕ} {openUs closeUs chan : ℕ}
    (h : ev.Closes closeUs) : Keeps ev pace (.rx openUs closeUs chan) := by
  refine ⟨?_, by simp, by simp⟩
  intro o' c' ch' heq
  cases heq
  exact h

/-- A send of an event of another kind. -/
theorem Keeps.of_other {ev : Event cfg} {pace : Bool × ℕ} {airStartUs chan : ℕ} {pdu : Bytes}
    (hb : ev.kind ≠ .beacon) (hl : ev.kind ≠ .link) : Keeps ev pace (.tx airStartUs chan pdu) :=
  ⟨by simp, fun _ _ _ _ hk => absurd hk hb, fun _ _ _ _ hk => absurd hk hl⟩

theorem Keeps.of_copy {ev : Event cfg} {pace : Bool × ℕ} {airStartUs k : ℕ} {y : Cmd}
    (hterse : c.Terse) (hk : ev.kind = .beacon) (hidx : pace.2 = k)
    (hstart : airStartUs ≤ ev.anchorUs + k * copyStrideUs)
    (hx : copyCmd c airStartUs k = some y) : Keeps ev pace y := by
  unfold copyCmd at hx
  split at hx
  · next hlt =>
    dsimp only at hx
    split at hx
    · cases hx
    · cases hx
      have hlen := hterse ⟨k, hlt⟩
      refine ⟨by simp, ?_, ?_⟩
      · intro t ch pdu heq _
        cases heq
        exact ⟨hidx ▸ hlt, by rwa [hidx], airtimeUs_mono hlen⟩
      · intro t ch pdu _ hl
        rw [hk] at hl
        cases hl
  · cases hx

theorem fragCmd_tx {airStartUs k : ℕ} {y : Cmd} (hx : fragCmd psa o c airStartUs k = some y) :
    ∃ pdu, y = .tx airStartUs c.ev.chan pdu := by
  unfold fragCmd at hx
  dsimp only at hx
  split at hx
  · cases hx
  · cases hx
    exact ⟨_, rfl⟩

theorem listenOnCmd_keeps {ev : Event cfg} {pace : Bool × ℕ} {y : Cmd}
    (h : ev.Closes c.ev.closeUs) (hx : listenOnCmd c = some y) : Keeps ev pace y := by
  unfold listenOnCmd at hx
  split at hx
  · cases hx
    exact .of_rx h
  · cases hx

theorem beaconStart_idx (o : Oracle) (c : Node cfg) :
    (beaconStart o c).net.beaconCopyIdx = 0 := by
  unfold beaconStart sendCopy
  dsimp only
  split_ifs <;> rfl

theorem beaconTxDone_idx (o : Oracle) (c : Node cfg) (airEndUs : ℕ) :
    (beaconTxDone o c airEndUs).net.beaconCopyIdx = c.net.beaconCopyIdx + 1 := by
  unfold beaconTxDone sendCopy
  dsimp only
  split_ifs <;> rfl

theorem grantCmd_keeps {y : Cmd} (hroom : c.ev.Roomy) (hterse : c.Terse)
    (hx : grantCmd psa o c = some y) : Keeps c.ev (tsGranted psa o c).pace y := by
  unfold grantCmd at hx
  dsimp only at hx
  split at hx
  · next i hk hi =>
    split at hx
    · cases hx
      refine ⟨by simp, ?_, ?_⟩
      · intro t ch pdu _ hb
        rw [hk] at hb
        cases hb
      · intro t ch pdu heq _ _
        cases heq
        exact le_rfl
    · cases hx
      exact .of_rx (.of_le (by simp [hk]) (hroom.window hk))
  · next hk =>
    split at hx
    · cases hx
    · have hgo : tsGranted psa o c = beaconStart o { c with granted := true } := by
        unfold tsGranted
        simp only [hk]
      refine .of_copy hterse hk ?_ (by omega) hx
      rw [hgo]
      exact beaconStart_idx o _
  · next hk =>
    cases hx
    exact .of_rx (hroom.closes (.inl hk))
  · next hk =>
    cases hx
    exact .of_rx (hroom.closes (.inr (.inl hk)))
  · next hk =>
    split at hx
    · cases hx
    · obtain ⟨pdu, rfl⟩ := fragCmd_tx hx
      exact .of_other (by simp [hk]) (by simp [hk])
  · next hk =>
    cases hx
    exact .of_rx (hroom.closes (.inr (.inr hk)))
  · cases hx

theorem txDoneCmd_keeps {y : Cmd} (hroom : c.ev.Roomy) (hterse : c.Terse)
    (hplan : Planned c.ev c.pace p) (hphase : p.op.phase = .tx)
    (hx : txDoneCmd psa o c p.txAirEndUs = some y) :
    Keeps c.ev (phyTxDone psa o c p.txAirEndUs).pace y := by
  unfold txDoneCmd at hx
  split at hx
  · next i hk hi =>
    dsimp only at hx
    split at hx
    · cases hx
    · next hfirst =>
      cases hx
      have hend := hplan.first hphase hk (by simpa [Node.pace] using hfirst)
      have hroom' := hroom.exchange hk
      exact .of_rx (.of_le (by simp [hk]) (by omega))
  · next hk =>
    obtain ⟨-, hend⟩ := hplan.copy hphase hk
    have hgo : phyTxDone psa o c p.txAirEndUs = beaconTxDone o c p.txAirEndUs := by
      unfold phyTxDone
      simp only [hk]
    refine .of_copy hterse hk ?_ ?_ hx
    · rw [hgo]
      exact beaconTxDone_idx o c _
    · have hstride : copyStrideUs = beaconAirUs + beaconCopyGapUs := rfl
      have hnext : (c.net.beaconCopyIdx + 1) * copyStrideUs =
          c.net.beaconCopyIdx * copyStrideUs + copyStrideUs := Nat.succ_mul _ _
      change p.txAirEndUs ≤ c.ev.anchorUs + c.net.beaconCopyIdx * copyStrideUs + beaconAirUs at hend
      omega
  · next hk =>
    split at hx
    · obtain ⟨pdu, rfl⟩ := fragCmd_tx hx
      exact .of_other (by simp [hk]) (by simp [hk])
    · cases hx
  · cases hx

theorem rxDoneCmd_keeps {rx : RxRec} {y : Cmd} (hroom : c.ev.Roomy)
    (hx : rxDoneCmd c rx = some y) : Keeps c.ev (phyRxDone o c rx).pace y := by
  unfold rxDoneCmd at hx
  split at hx
  · next i hk hi =>
    split at hx
    · cases hx
    · next hfirst =>
      split at hx
      · cases hx
        have hgo : phyRxDone o c rx = linkRxDone o c i rx := by
          unfold phyRxDone
          simp only [hk, hi]
        have hsame : (phyRxDone o c rx).evst.txFirst = c.evst.txFirst := by
          rw [hgo]
          exact congrArg Prod.fst (linkRxDone_airing o c i rx)
        refine ⟨by simp, ?_, ?_⟩
        · intro t ch pdu _ hb
          rw [hk] at hb
          cases hb
        · intro t ch pdu _ _ hyes
          have hyes' : (phyRxDone o c rx).evst.txFirst = true := hyes
          rw [hsame] at hyes'
          exact absurd hyes' hfirst
      · cases hx
  · next hk =>
    split at hx
    · cases hx
    · exact listenOnCmd_keeps (hroom.closes (.inl hk)) hx
  · next hk => exact listenOnCmd_keeps (hroom.closes (.inr (.inr hk))) hx
  · cases hx

theorem rxFailedCmd_keeps {reason : RxFail} {pace : Bool × ℕ} {y : Cmd} (hroom : c.ev.Roomy)
    (hx : rxFailedCmd c reason = some y) : Keeps c.ev pace y := by
  unfold rxFailedCmd at hx
  split at hx
  · next hk =>
    split at hx
    · exact listenOnCmd_keeps (hroom.closes (.inl hk)) hx
    · cases hx
  · next hk =>
    split at hx
    · exact listenOnCmd_keeps (hroom.closes (.inr (.inr hk))) hx
    · cases hx
  · cases hx

theorem reportCmd_keeps {r : PhyReport} {y : Cmd} (hroom : c.ev.Roomy) (hterse : c.Terse)
    (hplan : Planned c.ev c.pace p) (hphase : r.phase = p.op.phase)
    (hsent : ∀ t, r = .txDone t → t = p.txAirEndUs) (hx : reportCmd psa o c r = some y)
    (hc : perform psa o c r.input = some c') : Keeps c.ev c'.pace y := by
  cases r with
  | txDone t =>
    cases hc
    have ht := hsent t rfl
    subst ht
    exact txDoneCmd_keeps hroom hterse hplan hphase.symm hx
  | rxDone rx =>
    cases hc
    exact rxDoneCmd_keeps hroom hx
  | rxFailed reason => exact rxFailedCmd_keeps hroom hx

/-! ## Runs -/

/-- The event that is on was planned in good time, and the radio keeps to its plan. -/
structure Reserved (s : Stack cfg) : Prop where
  roomy : s.node.ev.kind ≠ .none → s.node.ev.Roomy
  planned : Planned s.node.ev s.node.pace s.phy

theorem Reserved.of_free (hev : s.node.ev.kind = .none) (hop : s.phy.op = .idle) : s.Reserved :=
  ⟨fun hne => absurd hev hne, .rests hop⟩

theorem handled_reserved (hb : Bids o c x c') (ho : ∀ y ∈ x, o.phyOk = (p.obey (some y)).1)
    (hrest : p.Rests) (hroom : c.ev.Roomy) (hkeeps : ∀ y ∈ x, Keeps c.ev c'.pace y) :
    (handled c' ts p x).Reserved := by
  cases hb with
  | taken hok hev hgo =>
    next d y =>
    have htaken : (p.obey (some y)).1 = true := (ho y rfl).symm.trans hok
    refine ⟨fun _ => ?_, ?_⟩
    · change d.ev.Roomy
      rw [hev]
      exact hroom
    · change Planned d.ev _ _
      rw [hev]
      exact .obeys hrest (hkeeps y rfl) htaken
  | ended hno hev =>
    have hrefused : (p.obey x).1 = false := by
      cases x with
      | none => rfl
      | some y =>
        have hok : o.phyOk = false := hno.resolve_left (by simp)
        rw [← ho y rfl, hok]
    exact .of_free rfl (Nrf.obey_refused hrefused).op

theorem Planned.of_plan {ev : Event cfg} {pace : Bool × ℕ} {q : Nrf} (h : Planned ev pace q)
    (hphase : p.op.phase = q.op.phase) (hplan : p.plan = q.plan) : Planned ev pace p := by
  have hclose : p.rxCloseUs = q.rxCloseUs := congrArg Prod.fst hplan
  have hend : p.txAirEndUs = q.txAirEndUs := congrArg Prod.snd hplan
  constructor
  · rw [hphase, hclose]
    exact h.rx
  · rw [hphase, hend]
    exact h.copy
  · rw [hphase, hend]
    exact h.first

theorem worked_reserved {inp : Input} (refuse : Bool) (h : s.Reserved) (hs : s.Coherent)
    (hi : inp.isInterrupt = false) (hst : inp ≠ .start) (hp : perform psa o s.node inp = some c) :
    (s.worked inp c refuse).Reserved := by
  have hpace := perform_pace hi hst hp
  have hidle := (Nrf.lgPhyStop_idle s.drv).1
  have haffects := perform_affects hi hst hp
  have hkeep : c.ev = s.node.ev → ({ s with node := c } : Stack cfg).Reserved := by
    intro hev
    constructor
    · change c.ev.kind ≠ .none → c.ev.Roomy
      rw [hev]
      exact h.roomy
    · change Planned c.ev c.pace s.phy
      rw [hev, hpace]
      exact h.planned
  unfold worked
  split
  · next hstop =>
    obtain ⟨hinp, hstarted⟩ := hstop
    have hstop : inp = .stop := by
      cases inp <;> first | rfl | cases hinp
    subst hstop
    cases hp
    exact .of_free (lgStop_free o hstarted).1 hidle
  · split
    · next hends => exact .of_free hends.2 hidle
    · next hends =>
      split
      · next hnew =>
        cases haffects with
        | same hev _ _ => exact absurd (hev ▸ hnew.1) hnew.2
        | given hev _ _ => exact absurd hev hnew.2
        | asks hfree _ hno _ _ hkind hsoon hpartner hplan =>
          have hrest := hs.rests hno
          refine ⟨fun _ => ?_, .rests hrest.op⟩
          obtain ⟨d, cand, no, hev⟩ := hplan
          change c.ev.Roomy
          rw [hev] at hsoon hpartner ⊢
          have hlead : schedMinHorizonUs ≤ (eventPlan d cand).1.atUs :=
            (Nat.le_add_left _ _).trans hsoon
          exact eventPlan_roomy d cand no hpartner hlead
      · next hnew =>
        cases haffects with
        | same hev _ _ => exact hkeep hev
        | given hev _ _ =>
          have hfree : s.node.ev.kind = .none := by
            by_contra hne
            exact hends ⟨hne, hev⟩
          exact .of_free hev (hs.rests (hs.ungranted hfree)).op
        | asks hfree _ _ _ _ hkind _ _ _ => exact absurd ⟨hfree, hkind⟩ hnew

theorem Interrupt.reserved (hint : Interrupt psa s s') (h : s.Reserved) (hs : s.Coherent)
    (hterse : s.node.Terse) : s'.Reserved := by
  cases hint with
  | granted hdue hgo hev ho hp =>
    cases hp
    exact handled_reserved (tsGranted_bids hev hs.partner) ho
      (drv_rests (hs.rests (hs.unanswered hdue))) (h.roomy hev)
      fun y hy => grantCmd_keeps (h.roomy hev) hterse hy
  | stale hdue hgo hev => exact ⟨h.roomy, h.planned⟩
  | refused hdue hno hev hp =>
    cases hp
    exact .of_free (tsFailed_free _ hev).1 (Nrf.lgPhyStop_idle _).1
  | ignored hdue hgo hno => exact ⟨h.roomy, h.planned⟩
  | radio hi hen hp hr =>
    obtain ⟨hmoves, -, -, -⟩ := radio_moves hs hi hen hp
    cases hmoves with
    | on _ hphase hplan => exact ⟨h.roomy, h.planned.of_plan hphase hplan⟩
    | ends r hr' _ _ _ =>
      have hlen := congrArg List.length (hr'.symm.trans hr)
      simp at hlen
  | reported hi hen hp hr ho hcall =>
    next r o c =>
    obtain ⟨hrest, -, -, hgo⟩ := reported_ends hs hi hen hp hr
    obtain ⟨hmoves, -, -, -⟩ := radio_moves hs hi hen hp
    have hkind := hs.event hgo
    cases hmoves with
    | on hsame _ _ =>
      have hlen := congrArg List.length (hr.symm.trans hsame)
      simp at hlen
    | ends r' hr' _ hphase hsent =>
      have hsame : r' = r := (List.cons.inj (hr'.symm.trans hr)).1
      subst hsame
      exact handled_reserved (reportCmd_bids hgo hcall) ho hrest (h.roomy hkind)
        fun y hy => reportCmd_keeps (h.roomy hkind) hterse h.planned hphase hsent hy hcall

theorem Step.reserved (hstep : Step psa s s') (h : s.Reserved) (hs : s.Coherent)
    (hterse : s.node.Terse) : s'.Reserved := by
  cases hstep with
  | work refuse hi hst hp => exact worked_reserved refuse h hs hi hst hp
  | lapse atUs lenUs refuse hfree => exact ⟨h.roomy, h.planned⟩
  | interrupt hint => exact hint.reserved h hs hterse

theorem Begins.reserved (hb : s₀.Begins psa ident)
    (hrun : Relation.ReflTransGen (Step psa) s₀ s) : s.Reserved := by
  induction hrun with
  | refl =>
    obtain ⟨earlyAbort, frame0, hphy⟩ := hb.phy
    refine .of_free hb.free.1 ?_
    rw [hphy]
    rfl
  | tail hrun hstep ih =>
    have hfollows := hb.follows hrun
    exact hstep.reserved ih hfollows.coherent hfollows.reach.terse

/-- **What the radio is set to do ends with the grant.** Whatever operation is on or armed in a run,
and however late its interrupts come: a receive window closes before the grant ends, but for the
window of a scan that is longer than the longest grant, which always overruns it; a frame that has
started in the window puts its close off by no more than the air time of the longest one with its
CRC counted twice, as `rx_close` counts it; and a copy of the beacon, or the frame of the side that
sends first in a link event, has ended before the grant does. -/
theorem radio_reserved (hb : s₀.Begins psa ident)
    (hrun : Relation.ReflTransGen (Step psa) s₀ s) :
    (s.phy.op.phase = .rx → (s.phy.rxCloseUs ≤ s.ts.lgTsGrantEndUs ↔ s.node.ev.ScanFits) ∧
      ∀ t ∈ s.phy.timer, t.1 ≤ s.phy.rxCloseUs + airtimeUs (pduMax + crcLen)) ∧
    (s.phy.op.phase = .tx → s.node.ev.kind = .beacon ∨
        s.node.ev.kind = .link ∧ s.node.evst.txFirst = true →
      s.phy.txAirEndUs ≤ s.ts.lgTsGrantEndUs) := by
  have hreserved := hb.reserved hrun
  have h := (hb.follows hrun).coherent
  have hend : s.phy.op ≠ .idle →
      s.ts.lgTsGrantEndUs = s.node.ev.endUs ∧ s.node.ev.Roomy := by
    intro hop
    have hgo := h.op_ne_idle.mp hop
    have hnode : s.node.granted = true := h.grant.symm.trans hgo
    refine ⟨?_, hreserved.roomy (h.event hnode)⟩
    unfold Direct.lgTsGrantEndUs
    rw [if_pos hgo]
    exact (h.holds hnode).endUs
  refine ⟨fun hrx => ?_, fun htx hkind => ?_⟩
  · have hop : s.phy.op ≠ .idle := by
      intro hidle
      rw [hidle] at hrx
      cases hrx
    obtain ⟨hgrant, hroom⟩ := hend hop
    have hclose := hreserved.planned.rx hrx
    unfold Event.Closes at hclose
    refine ⟨?_, fun t ht => ?_⟩
    · rw [hgrant]
      split at hclose
      · next hk =>
        rw [hclose]
        exact hroom.scans hk
      · next hk => exact iff_of_true hclose fun hscan => absurd hscan hk
    · have htimer : s.phy.timer = some t := ht
      have htimed := h.timed
      unfold Nrf.Timed at htimed
      cases hkind : s.phy.op with
      | rxArmed =>
        rw [hkind] at htimed
        obtain ⟨t', ht', hle⟩ := htimed
        rw [htimer] at ht'
        cases ht'
        exact hle.trans (Nat.le_add_right _ _)
      | rx =>
        rw [hkind] at htimed
        obtain ⟨t', ht', hle⟩ := htimed
        rw [htimer] at ht'
        cases ht'
        exact hle
      | _ =>
        rw [hkind] at hrx
        cases hrx
  · have hop : s.phy.op ≠ .idle := by
      intro hidle
      rw [hidle] at htx
      cases htx
    obtain ⟨hgrant, hroom⟩ := hend hop
    rw [hgrant]
    rcases hkind with hk | ⟨hk, hfirst⟩
    · obtain ⟨hidx, hair⟩ := hreserved.planned.copy htx hk
      have hlast : s.node.pace.2 * copyStrideUs ≤ (rdvSlots - 1) * copyStrideUs :=
        Nat.mul_le_mul_right _ (by omega)
      have hcopies := hroom.copies hk
      omega
    · have hair := hreserved.planned.first htx hk hfirst
      have hexchange := hroom.exchange hk
      omega

theorem radio_reserved_scan :
    ∃ s₀ s : Stack .default, s₀.Begins Psa.plain (plainIdent 1 1) ∧
      Relation.ReflTransGen (Step Psa.plain) s₀ s ∧ s.phy.op = .rx ∧
      s.phy.rxCloseUs ≤ s.ts.lgTsGrantEndUs := by
  obtain ⟨s₀, s, hb, -, hrun, hop, -, -, -, -, hanchor, hclose⟩ := scan_run
  obtain ⟨hfits, -⟩ := (radio_reserved hb hrun).1 (by rw [hop]; rfl)
  refine ⟨s₀, s, hb, hrun, hop, hfits.mpr fun _ => ?_⟩
  rw [hanchor, hclose]
  decide

end Stack

end LockGrid
