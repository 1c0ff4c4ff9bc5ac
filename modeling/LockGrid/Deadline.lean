import LockGrid.Budget
import LockGrid.Entries
import LockGrid.Nonces

/-!
# The deadline of a handshake

Every call of `lg_join_event_finish` that returns ends the handshake or moves `hs.slot` on, and
nothing else moves it. So the slots of a handshake, finished or dropped, are fewer than
`hs.slot_limit`. The call that brings the router's link up looks for the first event from the
fragment it last sent, and does not return if that is too long ago.
-/
namespace LockGrid

variable {cfg : Config} {psa : Psa} {ident : Identity} {c c' d : Node cfg} {o : Oracle}
  {i : Fin cfg.maxNeighbors}

/-! ## The end of a slot -/

/-- The handshake is before its deadline. -/
def Hs.OnTime (hs : Hs cfg) : Prop :=
  hs.n ≠ none → hs.slot < hs.slotLimit ∧ hs.slotLimit = LockGrid.slotLimit hs.resuming

/-- What a call of `lg_join_event_finish` that returns makes of a handshake about entry `i`. -/
inductive SlotOutcome (o : Oracle) (c : Node cfg) (i : Fin cfg.maxNeighbors) : Prop
  /-- The link is established. -/
  | linked (d : Node cfg) (h : lgJoinEventFinish o c = some d)
      (up : (d.neigh i).state = .linked ∧ d.hs.n = none)
  /-- `join_fail`. -/
  | failed (d : Node cfg) (h : lgJoinEventFinish o c = some (joinFail d i))
      (ends : (joinFail d i).hs.n = none ∧ ((joinFail d i).neigh i).state ≠ .joining)
  /-- The entry is in no handshake any more. -/
  | cleared (h : lgJoinEventFinish o c = some (c.setHs {})) (idle : (c.neigh i).state ≠ .joining)
  | advanced (d : Node cfg) (h : lgJoinEventFinish o c = some d) (about : d.hs.n = some i)
      (later : c.hs.slot < d.hs.slot) (soon : d.hs.slot < d.hs.slotLimit)

/-- The slot that ran was to send the link parameters. -/
def Node.SentParams (c : Node cfg) (i : Fin cfg.maxNeighbors) : Prop :=
  (c.neigh i).state = .joining ∧ c.hs.joiner = false ∧ c.hs.wasTx = true ∧
    (c.hs.txType = .joinAck ∨ c.hs.txType = .resumeRsp)

instance (c : Node cfg) (i : Fin cfg.maxNeighbors) : Decidable (c.SentParams i) :=
  inferInstanceAs (Decidable (_ ∧ _))

/-- An event of the new link can still be planned: one of those that 16 bits number and 64 bits
time, from the fragment that was last sent on. -/
def Node.InReach (c : Node cfg) : Prop :=
  let pp := LinkParams.decode c.hs.tx
  let anchorUs := c.hs.lastTxAirStartUs + pp.anchorOffsetUs.toNat
  let intervalUs := cfg.clampInterval pp.intervalUs.toNat
  (c.nowUs + schedLeadUs + cfg.rxWindowMinUs / 2 + 200) % 2 ^ 64 ≤
    anchorUs + min (2 ^ 16 - 1) ((2 ^ 64 - 1 - anchorUs) / intervalUs) * intervalUs

instance (c : Node cfg) : Decidable c.InReach := inferInstanceAs (Decidable (_ ≤ _))

theorem slotLimit_le (resuming : Bool) : 0 < slotLimit resuming ∧ slotLimit resuming ≤ 48 := by
  cases resuming <;> decide

/-- Neither the successor in 8 bits nor the clock takes `hs.slot` back. -/
theorem nextSlot_later (now : ℕ) {hs : Hs cfg} (h : hs.slot < hs.slotLimit)
    (hlimit : hs.slotLimit = slotLimit hs.resuming) : hs.slot < (nextSlot now hs).slot := by
  have hle := (slotLimit_le hs.resuming).2
  have hmod : (hs.slot + 1) % 256 = hs.slot + 1 := by omega
  change hs.slot < max ((hs.slot + 1) % 256) (slotNextFromClock now hs)
  rw [hmod]
  omega

theorem finishRouter_links (h : finishRouter o c i = some d) :
    (d.neigh i).state = .linked ∧ d.hs.n = none := by
  obtain ⟨e, he, rfl⟩ := Option.map_eq_some_iff.mp h
  rcases (lgLinkEstablish_entry he i).2 with ⟨-, hl⟩ | ⟨hne, -⟩
  · exact ⟨hl, rfl⟩
  · exact absurd rfl hne

/-- The router's link comes up exactly while an event of it is in reach. -/
theorem finishRouter_iff (o : Oracle) (c : Node cfg) (i : Fin cfg.maxNeighbors) :
    (∃ d, finishRouter o c i = some d) ↔ c.InReach := by
  set pp := LinkParams.decode c.hs.tx with hpp
  set s : Schedule := { (c.neigh i).sched with
    anchorUs := c.hs.lastTxAirStartUs + pp.anchorOffsetUs.toNat } with hs
  have hpos := clampInterval_pos cfg pp.intervalUs.toNat
  have hmax := clampInterval_le cfg pp.intervalUs.toNat
  have hone : step (startSchedule c pp true s) = 1 := by simp [step, startSchedule]
  have hcatch : (∃ s', anchorCatchUp cfg c.nowUs catchUpFuel (startSchedule c pp true s) =
      some s') ↔ _ :=
    anchorCatchUp_start_iff (show 0 < cfg.clampInterval _ by omega)
      (show cfg.clampInterval _ < 2 ^ 32 by omega) rfl hone
  have hlast : lastHeld (startSchedule c pp true s) = min (2 ^ 16 - 1)
      ((2 ^ 64 - 1 - s.anchorUs) / cfg.clampInterval pp.intervalUs.toNat) := by
    rw [lastHeld, lastActive, hone]
    simp only [Nat.div_one, Nat.mul_one]
    rfl
  have hgoal : catchUpGoal cfg c.nowUs (startSchedule c pp true s) =
      (c.nowUs + schedLeadUs + cfg.rxWindowMinUs / 2 + 200) % 2 ^ 64 := by
    simp only [catchUpGoal, lgLinkWindowUs, startSchedule, if_true, Nat.add_assoc]
  rw [hlast, hgoal] at hcatch
  refine Iff.trans ⟨?_, ?_⟩ hcatch
  · rintro ⟨d, h⟩
    obtain ⟨e, he, -⟩ := Option.map_eq_some_iff.mp h
    obtain ⟨s', hs', -⟩ := Option.map_eq_some_iff.mp he
    simp only [Node.setNeigh_neigh, Function.update_self] at hs'
    exact ⟨s', hs'⟩
  · rintro ⟨s', hs'⟩
    unfold finishRouter lgLinkEstablish
    simp only [Node.setNeigh_neigh, Function.update_self]
    exact ⟨_, by
      rw [Option.map_map, Option.map_eq_some_iff]
      exact ⟨s', hs', rfl⟩⟩

/-- A call after the link parameters were sent. -/
theorem lgJoinEventFinish_sent (o : Oracle) (hn : c.hs.n = some i) (h : c.SentParams i) :
    lgJoinEventFinish o c = finishRouter o c i := by
  obtain ⟨hjoin, hjoiner, hwas, htype⟩ := h
  have hlast : (!c.hs.joiner && c.hs.wasTx &&
      (c.hs.txType = .joinAck || c.hs.txType = .resumeRsp)) = true := by
    simpa [hjoiner, hwas] using htype
  simp only [lgJoinEventFinish, hn, hjoin, ne_eq, not_true_eq_false, if_false, if_pos hlast]

/-- Any other call before the deadline returns. -/
theorem lgJoinEventFinish_unsent (o : Oracle) (hn : c.hs.n = some i) (hc : c.hs.OnTime)
    (h : ¬ c.SentParams i) : SlotOutcome o c i := by
  obtain ⟨hslot, hlimit⟩ := hc (by rw [hn]; exact nofun)
  by_cases hjoin : (c.neigh i).state = .joining
  · have hlast : (!c.hs.joiner && c.hs.wasTx &&
        (c.hs.txType = .joinAck || c.hs.txType = .resumeRsp)) = false := by
      rw [Bool.eq_false_iff]
      intro hlast
      exact h ⟨hjoin, by simpa [and_assoc] using hlast⟩
    let e := c.setHs (nextSlot c.nowUs c.hs)
    have hend : lgJoinEventFinish o c =
        if idleLimit e.hs.resuming ≤ e.hs.idleSlots ∨ e.hs.slotLimit ≤ e.hs.slot ∨
            (e.hs.oweTx ∧ e.hs.tx = []) then some (joinFail e i) else some e := by
      simp only [lgJoinEventFinish, hn, hjoin, ne_eq, not_true_eq_false, if_false, hlast,
        Bool.false_eq_true]
      rfl
    by_cases hover : idleLimit e.hs.resuming ≤ e.hs.idleSlots ∨ e.hs.slotLimit ≤ e.hs.slot ∨
        (e.hs.oweTx ∧ e.hs.tx = [])
    · rw [if_pos hover] at hend
      exact .failed e hend (joinFail_ends e i)
    · rw [if_neg hover] at hend
      rw [not_or, not_or] at hover
      exact .advanced e hend hn (nextSlot_later c.nowUs hslot hlimit) (not_le.mp hover.2.1)
  · refine .cleared ?_ hjoin
    simp only [lgJoinEventFinish, hn, ne_eq, hjoin, not_false_eq_true, if_true]

/-- A call that returns has one of the four outcomes. -/
theorem lgJoinEventFinish_outcome (hn : c.hs.n = some i) (hc : c.hs.OnTime)
    (h : lgJoinEventFinish o c = some d) : SlotOutcome o c i := by
  by_cases hsent : c.SentParams i
  · exact .linked d h (finishRouter_links ((lgJoinEventFinish_sent o hn hsent).symm.trans h))
  · exact lgJoinEventFinish_unsent o hn hc hsent

theorem SlotOutcome.returns (h : SlotOutcome o c i) : ∃ d, lgJoinEventFinish o c = some d := by
  cases h with
  | linked d h => exact ⟨d, h⟩
  | failed d h => exact ⟨_, h⟩
  | cleared h => exact ⟨_, h⟩
  | advanced d h => exact ⟨d, h⟩

/-- Before the deadline a call has an outcome unless it is to bring up a link none of whose events
is in reach. -/
theorem slotOutcome_iff (o : Oracle) (hn : c.hs.n = some i) (hc : c.hs.OnTime) :
    SlotOutcome o c i ↔ (c.SentParams i → c.InReach) := by
  constructor
  · intro h hsent
    obtain ⟨d, hd⟩ := h.returns
    exact (finishRouter_iff o c i).mp ⟨d, (lgJoinEventFinish_sent o hn hsent).symm.trans hd⟩
  · intro h
    by_cases hsent : c.SentParams i
    · obtain ⟨d, hd⟩ := (finishRouter_iff o c i).mpr (h hsent)
      exact lgJoinEventFinish_outcome hn hc ((lgJoinEventFinish_sent o hn hsent).trans hd)
    · exact lgJoinEventFinish_unsent o hn hc hsent

/-- What the handshake is after it. -/
theorem lgJoinEventFinish_onTime (hc : c.hs.OnTime) (h : lgJoinEventFinish o c = some d) :
    d.hs.OnTime ∧ (d.hs.n ≠ none → c.hs.slot < d.hs.slot) := by
  have hslot : d.hs.n ≠ none → c.hs.slot < d.hs.slot ∧ d.hs.slot < d.hs.slotLimit := by
    intro hn
    have habout := lgJoinEventFinish_about h hn
    obtain ⟨i, hi⟩ := Option.ne_none_iff_exists'.mp (habout ▸ hn)
    cases lgJoinEventFinish_outcome hi hc h with
    | linked e hr up =>
      cases hr.symm.trans h
      exact absurd up.2 hn
    | failed e hr ends =>
      cases hr.symm.trans h
      exact absurd ends.1 hn
    | cleared hr =>
      cases hr.symm.trans h
      exact absurd rfl hn
    | advanced e hr _ hlater hsoon =>
      cases hr.symm.trans h
      exact ⟨hlater, hsoon⟩
  refine ⟨fun hn => ⟨(hslot hn).2, ?_⟩, fun hn => (hslot hn).1⟩
  have hn' : c.hs.n ≠ none := lgJoinEventFinish_about h hn ▸ hn
  rw [(lgJoinEventFinish_next h hn).2]
  exact (hc hn').2

/-! ## Frames -/

/-- How far the handshake is, and how far it may go. -/
def Hs.pace (hs : Hs cfg) : ℕ × ℕ × Bool := (hs.slot, hs.slotLimit, hs.resuming)

/-- The handshake is over, or where it was. -/
def OnPace (hs hs' : Hs cfg) : Prop := hs'.n = none ∨ hs'.n = hs.n ∧ hs'.pace = hs.pace

theorem OnPace.of_eq {hs hs' : Hs cfg} (h : hs' = hs) : OnPace hs hs' := by
  rw [h]
  exact .inr ⟨rfl, rfl⟩

theorem OnPace.of_core {hs hs' : Hs cfg} (h : hs'.core = hs.core) : OnPace hs hs' := by
  have hn : hs'.core.n = hs.core.n := by rw [h]
  have hpace : hs'.core.pace = hs.core.pace := by rw [h]
  exact .inr ⟨hn, hpace⟩

theorem OnPace.trans {hs hs' hs'' : Hs cfg} (h : OnPace hs hs') (h' : OnPace hs' hs'') :
    OnPace hs hs'' := by
  rcases h' with hn | ⟨hn', hpace'⟩
  · exact .inl hn
  · rcases h with hn | ⟨hn, hpace⟩
    · exact .inl (hn'.trans hn)
    · exact .inr ⟨hn'.trans hn, hpace'.trans hpace⟩

theorem OnPace.onTime {hs hs' : Hs cfg} (h : OnPace hs hs') (hs_on : hs.OnTime) : hs'.OnTime := by
  intro hn
  rcases h with hnone | ⟨habout, hpace⟩
  · exact absurd hnone hn
  · simp only [Hs.pace, Prod.mk.injEq] at hpace
    obtain ⟨hslot, hlimit, hresuming⟩ := hpace
    rw [hslot, hlimit, hresuming]
    exact hs_on (habout ▸ hn)

section

variable {msg : Bytes} {t : FrameType} {sec : Bool} {airStartUs : ℕ}

theorem settleStep_onPace {hs : Hs cfg} {r : Except Err Unit × Node cfg}
    (hcore : r.2.hs.core = hs.core) : OnPace hs (settleStep r i).hs := by
  obtain ⟨e | ⟨⟩, d⟩ := r
  · exact .inl rfl
  · have hd : OnPace hs d.hs := .of_core hcore
    exact hd.trans (.inr ⟨rfl, rfl⟩)

theorem handleMessage_onPace (h : handleMessage psa o c i t sec airStartUs = some d) :
    OnPace c.hs d.hs := by
  unfold handleMessage at h
  dsimp only at h
  cases t with
  | joinReq =>
    cases h
    exact settleStep_onPace (handleJoinReq_core psa o c i _)
  | joinRsp =>
    cases h
    exact settleStep_onPace (handleJoinRsp_core psa o c i _)
  | joinCfm =>
    cases h
    exact settleStep_onPace (handleJoinCfm_core psa o c i _)
  | joinAck | resumeRsp =>
    refine .inl ?_
    rw [finishJoiner_over h]
  | resumeReq =>
    have hcore := handleResumeReq_core psa o c i c.hs.rx.msg
    dsimp only at h
    split at h
    · cases h
      exact .inl rfl
    · next he =>
      rw [he] at hcore
      cases h
      exact settleStep_onPace hcore
  | beacon | linkReq | linkRsp | data | ack | ctrl =>
    cases h
    exact .of_eq rfl

end

theorem reassemble_onPace (psa : Psa) (o : Oracle) (c : Node cfg) (i : Fin cfg.maxNeighbors)
    (t : FrameType) (pdu : Bytes) : OnPace c.hs (reassemble psa o c i t pdu).2.hs := by
  have hadd : ∀ (e : Node cfg) (sec : Bool) (key : Option Bytes) (pdu : Bytes),
      OnPace e.hs (addFragment e t sec key pdu).2.hs := by
    intro e sec key pdu
    unfold addFragment
    dsimp only
    split_ifs <;> exact .inr ⟨rfl, rfl⟩
  have hdec := lgSecDecrypt_hs psa (o.ok .decrypt) c i pdu
  unfold reassemble
  split
  · rcases hr : lgSecDecrypt psa (o.ok .decrypt) c i pdu with ⟨e | out, d⟩
    · rw [hr] at hdec
      exact .of_eq hdec
    · rw [hr] at hdec
      exact (OnPace.of_eq hdec).trans (hadd d true _ _)
  · exact hadd c false none pdu

/-- The first slot of a handshake is yet to come. -/
structure Hs.AtStart (hs : Hs cfg) : Prop where
  slot : hs.slot = 0
  limit : hs.slotLimit = LockGrid.slotLimit hs.resuming

theorem Hs.AtStart.onTime {hs : Hs cfg} (h : hs.AtStart) : hs.OnTime := by
  intro _
  rw [h.slot, h.limit]
  exact ⟨(slotLimit_le _).1, rfl⟩

theorem Hs.AtStart.onPace {hs hs' : Hs cfg} (hf : hs.AtStart) (h : OnPace hs hs') :
    hs'.n = none ∨ hs'.AtStart := by
  rcases h with hn | ⟨-, hpace⟩
  · exact .inl hn
  · simp only [Hs.pace, Prod.mk.injEq] at hpace
    obtain ⟨hslot, hlimit, hresuming⟩ := hpace
    refine .inr ⟨hslot.trans hf.slot, ?_⟩
    rw [hlimit, hresuming]
    exact hf.limit

/-- What handling a frame makes of the deadline: it is as near as before, or is none any more, or
another handshake begins. -/
inductive Paces (c c' : Node cfg) : Prop
  | on (paced : OnPace c.hs c'.hs)
  | begun (start : c'.hs.AtStart) (other : ∀ p, c'.party = some p → c.party ≠ some p)

theorem Paces.onTime (h : Paces c c') (hc : c.hs.OnTime) : c'.hs.OnTime := by
  cases h with
  | on hpaced => exact hpaced.onTime hc
  | begun hstart => exact hstart.onTime

theorem lgJoinRxPdu_paces {t : FrameType} {rx : RxRec} (h : lgJoinRxPdu psa o c t rx = some d) :
    Paces c d := by
  have hcontext : (contextFor o c t (getLe16 rx.pdu offSrc) rx.airStartUs).2.hs = c.hs ∨
      c.hs.n = none ∧ (contextFor o c t (getLe16 rx.pdu offSrc) rx.airStartUs).2.hs.AtStart := by
    have hadmit := (admitJoiner_rest psa o c (getLe16 rx.pdu offSrc)).1
    unfold contextFor
    split
    · exact .inl rfl
    · next hnone =>
      split
      · split
        · next he =>
          rw [he] at hadmit
          exact .inl hadmit
        · next he =>
          rw [he] at hadmit
          split
          · exact .inl hadmit
          · exact .inr ⟨hnone, rfl, rfl⟩
      · exact .inl rfl
  have hpaced : OnPace (contextFor o c t (getLe16 rx.pdu offSrc) rx.airStartUs).2.hs d.hs := by
    unfold lgJoinRxPdu at h
    split at h
    · next e he =>
      rw [he]
      cases h
      exact .of_eq rfl
    · next j e he =>
      rw [he]
      have hre := reassemble_onPace psa o (lgNeighRxRssi e j rx.rssi) j t rx.pdu
      rw [(lgNeighRxRssi_quiet e j rx.rssi).hs] at hre
      split at h
      · next hr =>
        rw [hr] at hre
        cases h
        exact hre
      · next hr =>
        rw [hr] at hre
        exact hre.trans (handleMessage_onPace h)
  rcases hcontext with hsame | ⟨hnone, hstart⟩
  · rw [hsame] at hpaced
    exact .on hpaced
  · rcases hstart.onPace hpaced with hn | hstart
    · exact .on (.inl hn)
    · refine .begun hstart fun p _ => ?_
      rw [Node.party_none hnone]
      exact nofun

theorem lgJoinStart_start (o : Oracle) (c : Node cfg) (i : Fin cfg.maxNeighbors) :
    OnPace c.hs (lgJoinStart o c i).2.hs ∨
      (lgJoinStart o c i).2.hs.n = some i ∧ (lgJoinStart o c i).2.hs.AtStart := by
  unfold lgJoinStart
  dsimp only
  split
  · exact .inl (.of_eq rfl)
  split
  · exact .inl (.of_eq rfl)
  split
  · exact .inl (.of_eq rfl)
  split
  · exact .inl (.of_eq rfl)
  split
  · exact .inl (.of_eq rfl)
  split
  · exact .inl (.inl rfl)
  · next e he =>
    right
    change e.hs.n = some i ∧ e.hs.AtStart
    split at he
    · unfold buildResumeReq at he
      split at he <;> cases he
      exact ⟨rfl, rfl, rfl⟩
    · unfold buildJoinReq at he
      dsimp only at he
      split at he
      · cases he
      · split at he <;> cases he
        exact ⟨rfl, rfl, rfl⟩

theorem acceptBeacon_paces (psa : Psa) (o : Oracle) (c : Node cfg) (b : Beacon) {src : Addr}
    (rssi : ℤ) (airStartUs : ℕ) (hsrc : src ≠ addrInvalid) :
    Paces c (acceptBeacon o c b src rssi airStartUs) := by
  have hq := noteBeacon_quiet o c b src
  have hhs := (beaconEntry_hs psa o (noteBeacon o c b src) b src rssi).trans hq.hs
  unfold acceptBeacon
  dsimp only
  split
  · next d he =>
    rw [he] at hhs
    exact .on (.of_eq hhs)
  · next i d he =>
    rw [he] at hhs
    have hs := noteSender_quiet d i b rssi airStartUs
    have hon : OnPace c.hs (noteSender d i b rssi airStartUs).hs := .of_eq (hs.hs.trans hhs)
    split
    · exact .on hon
    · next hstate =>
      rw [not_or] at hstate
      split
      · exact .on hon
      · rcases lgJoinStart_start o (aimed o (noteSender d i b rssi airStartUs) i b airStartUs) i
          with hpaced | ⟨hn, hstart⟩
        · rw [← (aimAt_done _ _ _ _ _).1] at hpaced
          exact .on (hon.trans hpaced)
        · rw [← (aimAt_done _ _ _ _ _).1] at hn hstart
          have haddr := aimAt_addr o b airStartUs (by rw [hs.neigh]; exact beaconEntry_occupied he)
            hstate.1
          rw [hs.neigh] at haddr hstate
          exact .begun hstart (beaconEntry_other hsrc he hstate.2 hn haddr)

theorem rxHandler_paces (h : rxHandler psa o c = some d) : Paces c d := by
  unfold rxHandler at h
  split at h
  · cases h
    exact .on (.of_eq rfl)
  · next rx rest _ =>
    suffices hrest : Paces { c with rxRing := rest } d by
      cases hrest with
      | on hpaced => exact .on hpaced
      | begun hstart hother => exact .begun hstart hother
    generalize { c with rxRing := rest } = e at h
    have hlink : ∀ hdr, Paces e (dispatchLink psa o e hdr rx.pdu) := fun hdr =>
      .on (.of_eq (dispatchLink_hs psa o e hdr rx.pdu))
    unfold dispatch at h
    split at h
    · cases h
      exact .on (.of_eq rfl)
    split at h
    · cases h
      exact .on (.of_eq rfl)
    split at h
    · cases h
      unfold lgDiscBeaconRx
      split
      · exact .on (.of_eq rfl)
      split
      · exact .on (.of_eq rfl)
      dsimp only
      split
      · exact .on (.of_eq rfl)
      · next hvalid =>
        rw [not_or, not_or] at hvalid
        exact acceptBeacon_paces psa o e _ _ _ hvalid.2.1
    · split at h
      · exact lgJoinRxPdu_paces h
      · cases h
        exact hlink _
    · cases h
      exact hlink _

/-! ## The calls of a step -/

/-- The calls of `lg_join_event_finish` in a run of `sched_pick`, which drops a slot. -/
def pickEnds (psa : Psa) (o : Oracle) (c : Node cfg) : List (Oracle × Node cfg) :=
  match planned psa o c with
  | none => []
  | some (cand, d) =>
    if cand.kind.isJoin && decide ((eventPlan d cand).1.atUs < d.nowUs + schedMinHorizonUs) then
      [(o, (eventPlan d cand).2)]
    else []

/-- The calls of `lg_join_event_finish` in a step, in their order. -/
def slotEnds (psa : Psa) (o : Oracle) (c : Node cfg) : Input → List (Oracle × Node cfg)
  | .schedWork => pickEnds psa o c
  | .finishWork o' => (if c.finishKind.isJoin then [(o, c)] else []) ++
      match settledNode psa o c with
      | none => []
      | some d => pickEnds psa o' d
  | _ => []

theorem pickEnds_length (psa : Psa) (o : Oracle) (c : Node cfg) :
    (pickEnds psa o c).length = if dropsSlot psa o c then 1 else 0 := by
  unfold pickEnds dropsSlot
  rcases planned psa o c with _ | ⟨cand, d⟩
  · rfl
  · simp only [Option.any_some]
    split <;> rfl

theorem planned_hs {cand : Candidate cfg} (h : planned psa o c = some (cand, d)) :
    d.hs = c.hs := by
  unfold planned at h
  split at h
  · cases h
  split at h
  · cases h
  next l e he =>
  split at h
  · cases h
  next cand' hsel =>
  dsimp only at h
  split at h
  · cases h
    exact (stageFor_hs psa o e cand).trans (candidates_hs he)
  · cases h

theorem pickEnds_hs {call : Oracle × Node cfg} (h : call ∈ pickEnds psa o c) :
    call.2.hs = c.hs := by
  unfold pickEnds at h
  split at h
  · cases h
  · next cand d hplan =>
    split at h
    · rw [List.mem_singleton.mp h]
      exact (eventPlan_quiet d cand).hs.trans (planned_hs hplan)
    · cases h

/-- What settling an event makes of the deadline. -/
theorem settledNode_onTime (hc : c.hs.OnTime) (h : settledNode psa o c = some d) :
    d.hs.OnTime ∧ (d.hs.n ≠ none →
      c.hs.slot + (if c.finishKind.isJoin then 1 else 0) ≤ d.hs.slot) := by
  obtain ⟨e, he, rfl⟩ := Option.map_eq_some_iff.mp h
  have hhs := settle_hs he
  change e.hs.OnTime ∧ (e.hs.n ≠ none → _ ≤ e.hs.slot)
  split at hhs
  · next hk =>
    rw [if_pos hk]
    exact lgJoinEventFinish_onTime hc hhs
  · next hk =>
    rw [if_neg hk, hhs]
    exact ⟨hc, fun _ => le_rfl⟩

/-- What a run of `sched_pick` makes of the deadline. -/
theorem schedPick_onTime (hc : c.hs.OnTime) (h : schedPick psa o c = some d) :
    d.hs.OnTime ∧ (d.hs.n ≠ none → c.hs.slot + (pickEnds psa o c).length ≤ d.hs.slot) := by
  have hhs := schedPick_hs h
  rw [pickEnds_length]
  split at hhs
  · next hdrop =>
    obtain ⟨e, he, hend⟩ := hhs
    rw [if_pos hdrop, ← he]
    exact lgJoinEventFinish_onTime (he ▸ hc) hend
  · next hdrop =>
    rw [if_neg hdrop, hhs]
    exact ⟨hc, fun _ => le_rfl⟩

theorem SlotStep.pace {inp : Input} (h : SlotStep psa o c inp d) : OnPace c.hs d.hs := by
  cases h with
  | sends hk =>
    by_cases hn : c.hs.n = none
    · refine .of_eq ?_
      unfold joinTxStart
      rw [if_pos (by rw [hn]; rfl)]
      rfl
    · obtain ⟨len, hhs⟩ := joinTxStart_hs (c := { c with granted := true }) psa o hn
      rw [hhs]
      exact .inr ⟨rfl, rfl⟩
  | listens hk =>
    rw [joinRxStart_hs]
    exact .inr ⟨rfl, rfl⟩
  | refused hk => exact .inr ⟨rfl, rfl⟩
  | sent hk airEndUs =>
    obtain ⟨len, hhs⟩ := joinTxDone_hs psa o c airEndUs
    rw [hhs]
    exact .inr ⟨rfl, rfl⟩
  | aside hhs => exact .of_eq hhs

/-- A step that handles no frame keeps the deadline, and each of its calls moves the slot on. -/
theorem perform_onTime {inp : Input} (hinp : inp ≠ .rxWork) (hc : c.hs.OnTime)
    (h : perform psa o c inp = some d) :
    d.hs.OnTime ∧ (d.hs.n ≠ none → c.hs.slot + (slotEnds psa o c inp).length ≤ d.hs.slot) := by
  have hpaced : OnPace c.hs d.hs → slotEnds psa o c inp = [] →
      d.hs.OnTime ∧ (d.hs.n ≠ none → c.hs.slot + (slotEnds psa o c inp).length ≤ d.hs.slot) := by
    intro hs hnil
    refine ⟨hs.onTime hc, fun hn => ?_⟩
    rcases hs with hnone | ⟨-, hpace⟩
    · exact absurd hnone hn
    · have hslot : d.hs.slot = c.hs.slot := congrArg Prod.fst hpace
      rw [hnil, hslot]
      exact le_rfl
  cases inp with
  | rxWork => exact absurd rfl hinp
  | schedWork => exact schedPick_onTime hc h
  | finishWork o' =>
    change schedFinish psa o o' c = some d at h
    rw [schedFinish_eq] at h
    obtain ⟨e, he, hpick⟩ := Option.bind_eq_some_iff.mp h
    obtain ⟨heon, hsettled⟩ := settledNode_onTime hc he
    obtain ⟨hdon, hpicked⟩ := schedPick_onTime heon hpick
    refine ⟨hdon, fun hn => ?_⟩
    have hn' : e.hs.n ≠ none := schedPick_about hpick hn ▸ hn
    have hlen : (slotEnds psa o c (.finishWork o')).length =
        (if c.finishKind.isJoin then 1 else 0) + (pickEnds psa o' e).length := by
      simp only [slotEnds, he, List.length_append]
      split <;> rfl
    have hfirst := hsettled hn'
    have hsecond := hpicked hn
    omega
  | start =>
    cases h
    refine hpaced ?_ rfl
    rcases lgStart_entries psa o c with heq | ⟨-, hnone⟩
    · exact .of_eq (congrArg Node.hs heq)
    · exact .inl hnone
  | stop =>
    cases h
    exact hpaced (.of_eq (lgStop_hs o c)) rfl
  | tick | send | backhaulSet | tuningSet =>
    exact hpaced (.of_eq (perform_call_hs (.inl rfl) h)) rfl
  | granted | refused | txDone | rxDone | rxFailed =>
    exact hpaced (perform_slotStep rfl h).pace rfl

/-- In every run a handshake is before its deadline. -/
theorem Reachable.onTime (h : Reachable psa ident c) : c.hs.OnTime := by
  induction h with
  | refl => exact fun hn => absurd rfl hn
  | tail _ hs ih =>
    obtain ⟨inp, o, -, hp⟩ := hs
    by_cases hrx : inp = .rxWork
    · subst hrx
      exact (rxHandler_paces hp).onTime ih
    · exact (perform_onTime hrx ih hp).1

/-! ## Runs -/

/-- The log has a slot for every call, as long as the handshake goes on. -/
theorem after_slots {g : SlotLog} {inp : Input} (h : perform psa o c inp = some c') :
    (g.after psa o c inp c').slots.length =
      if c'.party = c.party then g.slots.length + (slotEnds psa o c inp).length else 0 := by
  have hclose : ∀ (g : SlotLog) (granted : Bool), (g.close granted).slots.length =
      g.slots.length + 1 := fun _ _ => rfl
  have hpicked : ∀ (g : SlotLog) (o : Oracle) (c : Node cfg),
      (g.picked psa o c).slots.length = g.slots.length + (pickEnds psa o c).length := by
    intro g o c
    rw [pickEnds_length, SlotLog.picked]
    split <;> rfl
  have hnoted : (g.noted psa o c inp c').slots.length =
      g.slots.length + (slotEnds psa o c inp).length := by
    cases inp with
    | schedWork => exact hpicked g o c
    | finishWork o' =>
      change schedFinish psa o o' c = some c' at h
      rw [schedFinish_eq] at h
      obtain ⟨e, he, -⟩ := Option.bind_eq_some_iff.mp h
      simp only [SlotLog.noted, slotEnds, he, hpicked, List.length_append, SlotLog.settled]
      split
      · rw [hclose, List.length_singleton]
        omega
      · rw [List.length_nil]
        omega
    | granted | refused | txDone | rxDone | rxFailed =>
      change (g.heard psa o c _ c').slots.length = _
      rw [SlotLog.heard_slots]
      rfl
    | _ => rfl
  unfold SlotLog.after
  dsimp only
  split
  · exact hnoted
  · rfl

/-- The slots of the log are behind the handshake the node is in. -/
def Node.Behind (c : Node cfg) (g : SlotLog) : Prop :=
  c.party ≠ none → g.slots.length ≤ c.hs.slot

theorem Node.Behind.after {g : SlotLog} {inp : Input} (hc : Reachable psa ident c)
    (h : c.Behind g) (hp : perform psa o c inp = some c') :
    c'.Behind (g.after psa o c inp c') := by
  intro hparty
  have hn : c'.hs.n ≠ none := fun hn => hparty (Node.party_none hn)
  obtain ⟨p, hsome⟩ := Option.ne_none_iff_exists'.mp hparty
  rw [after_slots hp]
  by_cases hrx : inp = .rxWork
  · subst hrx
    have hnone : (slotEnds psa o c .rxWork).length = 0 := rfl
    cases rxHandler_paces hp with
    | on hpaced =>
      rcases (rxHandler_conduct hc.hsUnlinked hp).party hsome with ⟨hsame, -, -⟩ | ⟨hother, -⟩
      · rcases hpaced with hnone' | ⟨-, hpace⟩
        · exact absurd hnone' hn
        · have hslot : c'.hs.slot = c.hs.slot := congrArg Prod.fst hpace
          have hbehind := h (by rw [hsame]; exact nofun)
          rw [if_pos (hsome.trans hsame.symm), hnone, hslot]
          exact hbehind
      · rw [if_neg (by rw [hsome]; exact hother.symm)]
        exact Nat.zero_le _
    | begun hstart hother =>
      rw [if_neg (by rw [hsome]; exact (hother p hsome).symm)]
      exact Nat.zero_le _
  · have hsame := perform_party hc.hsUnlinked hrx hp hsome
    have hbehind := h (by rw [hsame]; exact nofun)
    have hlater := (perform_onTime hrx hc.onTime hp).2 hn
    rw [if_pos (hsome.trans hsame.symm)]
    omega

/-- The calls of a step find the handshake before its deadline. -/
theorem slotEnds_onTime {inp : Input} (hc : c.hs.OnTime) {call : Oracle × Node cfg}
    (h : call ∈ slotEnds psa o c inp) : call.2.hs.OnTime := by
  have hpick : ∀ {o : Oracle} {e : Node cfg}, e.hs.OnTime → call ∈ pickEnds psa o e →
      call.2.hs.OnTime := by
    intro o e he hmem
    rw [pickEnds_hs hmem]
    exact he
  cases inp with
  | schedWork => exact hpick hc h
  | finishWork o' =>
    rcases List.mem_append.mp h with hmem | hmem
    · split at hmem
      · rw [List.mem_singleton.mp hmem]
        exact hc
      · cases hmem
    · split at hmem
      · cases hmem
      · next e he => exact hpick (settledNode_onTime hc he).1 hmem
  | _ => cases h

/-- In every run a call of `lg_join_event_finish` ends the handshake or moves its slot on, unless it
is to bring up a link none of whose events is in reach; an entry that is joining is that of the
handshake, and the handshake has had fewer slots, finished or dropped, than it may have. -/
theorem handshake_ends_iff {g : SlotLog} (h : RunLogged psa ident (fun _ _ _ _ _ => True) c g) :
    (∀ inp o, ∀ call ∈ slotEnds psa o c inp, ∀ i, call.2.hs.n = some i →
      (SlotOutcome call.1 call.2 i ↔ (call.2.SentParams i → call.2.InReach))) ∧
    (∀ i, (c.neigh i).state = .joining →
      c.party = some (i, (c.neigh i).addr) ∧ g.slots.length ≤ c.hs.slot ∧
        c.hs.slot < c.hs.slotLimit ∧ c.hs.slotLimit = slotLimit c.hs.resuming) ∧
    ∀ inp o c', perform psa o c inp = some c' → (g.after psa o c inp c').slots.length =
      if c'.party = c.party then g.slots.length + (slotEnds psa o c inp).length else 0 := by
  have hc := h.reachable
  have hbehind : c.Behind g := by
    apply h.keeps (Q := Node.Behind)
    · exact fun hparty => absurd rfl hparty
    · exact fun hc hb _ hp _ => hb.after hc hp
  refine ⟨fun inp o call hmem i hn => ?_, fun i hi => ?_, fun inp o c' hp => after_slots hp⟩
  · exact slotOutcome_iff call.1 hn (slotEnds_onTime hc.onTime hmem)
  · have hn := hc.joinsAbout i hi
    have hparty : c.party = some (i, (c.neigh i).addr) := Node.party_eq_some.mpr ⟨hn, hi, rfl⟩
    have hslots := hbehind (by rw [hparty]; exact nofun)
    obtain ⟨hbefore, hlimit⟩ := hc.onTime (by rw [hn]; exact nofun)
    exact ⟨hparty, hslots, hbefore, hlimit⟩

/-- A frame that a router which started after four hours hears in its first scan. -/
def heardLate (rx : RxRec) : RxRec := { rx with airStartUs := 14400004000 }

/-- Node 1 starts as a router after four hours, and node 2 resumes as in `resumedRun`; at the end
the slot of the `RESUME_RSP` begins, with the PHY answering by `phyOk`. -/
def lateRun (phyOk : Bool) : List (Oracle × Input) :=
  [(calm 1, .tick 14400000000), (calm 1, .start), (calm 2, .schedWork), (calm 3, .tick 16000),
    (calm 3, .granted), (calm 3, .tick 5000),
    (calm 4, .rxDone (heardLate (plainFrag .joinReq 1 2 replayedReq 0))),
    (calm 4, .rxDone (heardLate (plainFrag .joinReq 1 2 replayedReq 1))),
    (calm 4, .rxDone (heardLate badCfm)), (calm 4, .rxDone (heardLate resumeReq)),
    (calm 5, .rxWork), (calm 6, .rxWork), (calm 7, .rxWork), (calm 8, .rxWork),
    (calm 8, .tick 9000), (calm 8, .rxFailed .timeout), (calm 9, .finishWork (calm 10)),
    (calm 10, .schedWork), (calm 11, .tick 13500), ({ calm 11 with phyOk := phyOk }, .granted)]

/-- The call that ends the slot finds node 1 with the link parameters sent. -/
def endsOnParams (p : Node .default → Bool) (c : Node .default) (_ : SlotLog) : Bool :=
  decide (c.finishKind.isJoin = true ∧ c.hs.n = some firstNeigh ∧ c.SentParams firstNeigh) && p c

theorem endsOnParams_call {p : Node .default → Bool} {c : Node .default} {g : SlotLog}
    (h : endsOnParams p c g = true) :
    (calm 13, c) ∈ slotEnds Psa.plain (calm 13) c (.finishWork (calm 14)) ∧
      c.hs.n = some firstNeigh ∧ c.SentParams firstNeigh ∧ p c = true := by
  obtain ⟨h, hp⟩ := Bool.and_eq_true_iff.mp h
  obtain ⟨hkind, hn, hsent⟩ := of_decide_eq_true h
  refine ⟨List.mem_append_left _ ?_, hn, hsent, hp⟩
  rw [if_pos hkind]
  exact List.mem_singleton_self _

/-- The PHY refuses the `RESUME_RSP`, the first frame of the handshake: the call that ends the slot
anchors the link at the origin of the clock, and never gets to an event that is still to come. -/
theorem not_handshake_ends_refused :
    ¬ ∀ (psa : Psa) (ident : Identity) (c : Node .default) (g : SlotLog),
      RunLogged psa ident (fun _ _ _ _ _ => True) c g → ∀ inp o,
        ∀ call ∈ slotEnds psa o c inp, ∀ i, call.2.hs.n = some i →
          SlotOutcome call.1 call.2 i := by
  intro hclaim
  obtain ⟨c, g, h, hp⟩ := exists_runLogged (P := fun _ _ _ _ _ => True) Psa.plain
    (plainIdent 1 1) (lateRun false) (endsOnParams fun c => !decide c.InReach) (by decide +kernel)
  obtain ⟨hcall, hn, hsent, hfar⟩ := endsOnParams_call hp
  have hreach := (slotOutcome_iff _ hn h.reachable.onTime).mp
    (hclaim Psa.plain _ c g h _ _ _ hcall _ hn) hsent
  simp [hreach] at hfar

/-- Node 1 has had two of its 48 slots, one of them refused, and is in slot 2. After four hours it
sends a `RESUME_RSP`, and the call that ends the slot brings the link up. -/
theorem handshake_ends_courted :
    (∃ (c : Node .default) (g : SlotLog),
      RunLogged Psa.plain (plainIdent 1 1) (fun _ _ _ _ _ => True) c g ∧
        (c.neigh firstNeigh).state = .joining ∧ g.slots.length = 2 ∧
        g.slots.length ≤ c.hs.slot ∧ c.hs.slot < c.hs.slotLimit) ∧
    ∃ (c : Node .default) (g : SlotLog),
      RunLogged Psa.plain (plainIdent 1 1) (fun _ _ _ _ _ => True) c g ∧
        c.SentParams firstNeigh ∧ c.InReach ∧ SlotOutcome (calm 13) c firstNeigh := by
  constructor
  · obtain ⟨c, g, h, hp⟩ := exists_runLogged (P := fun _ _ _ _ _ => True) Psa.plain
      (plainIdent 1 1) courtedRun (fun c : Node .default => fun g : SlotLog =>
        decide ((c.neigh firstNeigh).state = .joining ∧ g.slots.length = 2)) (by decide +kernel)
    obtain ⟨hjoin, hlen⟩ := of_decide_eq_true hp
    obtain ⟨-, hslots, hbefore, -⟩ := (handshake_ends_iff h).2.1 firstNeigh hjoin
    exact ⟨c, g, h, hjoin, hlen, hslots, hbefore⟩
  · obtain ⟨c, g, h, hp⟩ := exists_runLogged (P := fun _ _ _ _ _ => True) Psa.plain
      (plainIdent 1 1)
      (lateRun true ++ [(calm 12, Input.tick 2500), (calm 12, .txDone 14400046000)])
      (endsOnParams fun c => decide c.InReach) (by decide +kernel)
    obtain ⟨hcall, hn, hsent, hnear⟩ := endsOnParams_call hp
    have hreach := of_decide_eq_true hnear
    exact ⟨c, g, h, hsent, hreach,
      ((handshake_ends_iff h).1 _ _ _ hcall _ hn).mpr fun _ => hreach⟩

end LockGrid
