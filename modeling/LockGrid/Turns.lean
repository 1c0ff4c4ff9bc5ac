import LockGrid.Exchange

/-!
# Turn-taking

Two ends that play the slots of one handshake. Frames get lost, slots are refused, dropped as late
or passed over, at either end alone. Which end transmits in a slot is for each end to say.
-/
namespace LockGrid

variable {cfg : Config} {psa : Psa}

/-! ## Frames that leave the handshake alone -/

theorem lgSecDecrypt_hs (psa : Psa) (ok : Bool) (c : Node cfg) (i : Fin cfg.maxNeighbors)
    (pdu : Bytes) : (lgSecDecrypt psa ok c i pdu).2.hs = c.hs := by
  rcases lgSecDecrypt_cases psa ok c i pdu with h | ⟨r, m, h⟩
  · rw [h]
  · rw [h]
    rfl

theorem Node.Quiet.hs {c d : Node cfg} (h : Node.Quiet c d) : d.hs = c.hs := by
  obtain ⟨net, view, rfl⟩ := h
  rfl

theorem lgSchedExpedite_hs (c : Node cfg) (i : Fin cfg.maxNeighbors) :
    (lgSchedExpedite c i).hs = c.hs := by
  obtain ⟨s, h⟩ := lgSchedExpedite_eq c i
  rw [h]
  rfl

theorem sendCopies_hs (m : TxMsg) (l : List (Fin cfg.maxNeighbors)) (st : ℕ × Node cfg) :
    (sendCopies m l st).2.hs = st.2.hs := by
  induction l generalizing st with
  | nil => rfl
  | cons i rest ih =>
    obtain ⟨sent, c⟩ := st
    rw [sendCopies]
    split
    · exact ih (sent, c)
    · split
      · rfl
      · exact (ih (sent + 1, _)).trans (lgSchedExpedite_hs _ i)

theorem lgSendForward_hs (c : Node cfg) (m : TxMsg) : (lgSendForward c m).2.hs = c.hs := by
  have hq := (lgRouteNextHop_quiet c m.finalDst m.flags).hs
  unfold lgSendForward
  dsimp only
  split
  · rfl
  · split
    · rfl
    · split
      · exact sendCopies_hs m _ (0, c)
      · split
        · exact hq
        · split
          · exact hq
          · exact hq

theorem forwardData_hs (c : Node cfg) (m : TxMsg) : (forwardData c m).hs = c.hs := by
  have hq := (lgRouteNextHop_quiet c m.finalDst 0).hs
  unfold forwardData
  dsimp only
  split
  · rfl
  · split
    · split
      · exact hq
      · exact (lgSendForward_hs _ _).trans hq
    · exact lgSendForward_hs c _

theorem handleData_hs (c : Node cfg) (body : Bytes) : (handleData c body).hs = c.hs := by
  have hq := (lgRouteIsDuplicate_quiet c (getLe16 body 1) (getLe16 body 7)).hs
  unfold handleData
  split
  · rfl
  · dsimp only
    split
    · exact hq
    · split
      · exact hq
      · exact (forwardData_hs _ _).trans hq

theorem handleCtrl_hs (o : Oracle) (c : Node cfg) (i : Fin cfg.maxNeighbors) (body : Bytes) :
    (handleCtrl o c i body).hs = c.hs := by
  rcases handleCtrl_cases o c i body with h | ⟨s, h, -, -⟩ | ⟨-, h⟩ | ⟨-, h⟩ | ⟨-, h⟩ <;> rw [h]
  · rfl
  · exact (lgRouteHandleAdv_quiet o c i body).hs
  · exact (lgRouteHandleReg_quiet c i body).hs
  · exact lgLinkDown_hs o c i

/-- A frame that arrives on a link does nothing to the handshake. -/
theorem dispatchLink_hs (psa : Psa) (o : Oracle) (c : Node cfg) (h : FrameHdr) (pdu : Bytes) :
    (dispatchLink psa o c h pdu).hs = c.hs := by
  have hframe : ∀ (d : Node cfg) (i : Fin cfg.maxNeighbors) (body : Bytes),
      (lgLinkRxFrame o d i h.fcf body).hs = d.hs := by
    intro d i body
    obtain ⟨e, he, hmd⟩ := lgLinkRxFrame_cases o d i h.fcf body
    have hhandled : e.hs = d.hs := by
      rcases he with ⟨-, rfl⟩ | ⟨-, rfl⟩ | ⟨-, rfl⟩
      · exact handleData_hs d body
      · exact handleCtrl_hs o d i body
      · rfl
    rcases hmd with hmd | hmd
    · rw [hmd]
      exact (lgSchedExpedite_hs e i).trans hhandled
    · rwa [hmd]
  unfold dispatchLink
  split
  · rfl
  · next i _ =>
    have hd := lgSecDecrypt_hs psa (o.ok .decrypt) c i pdu
    split
    · rfl
    · split <;> next he =>
        rw [he] at hd
        first
          | exact hd
          | exact (hframe _ i _).trans hd

/-! ## Progress makes a debt -/

/-- A handshake that has made progress in this slot owes the answer. -/
def Node.Prompt (c : Node cfg) : Prop :=
  c.hs.n ≠ none → c.hs.progressed = true → c.hs.oweTx = true

theorem Node.Prompt.congr {c d : Node cfg} (h : c.Prompt) (hhs : d.hs = c.hs) : d.Prompt := by
  unfold Node.Prompt
  rw [hhs]
  exact h

theorem Node.Prompt.over {c : Node cfg} (h : c.hs.n = none) : c.Prompt :=
  fun hn => absurd h hn

theorem Node.Prompt.idle {c : Node cfg} (h : c.hs.progressed = false) : c.Prompt := by
  intro _ hp
  cases h.symm.trans hp

theorem deriveKeys_hs (psa : Psa) (o : Oracle) (c : Node cfg) (i : Fin cfg.maxNeighbors)
    (secret transcript : Bytes) : (deriveKeys psa o c i secret transcript).2.hs = c.hs := by
  unfold deriveKeys lgSecInstallKey
  split
  · rfl
  · split
    · rfl
    · split <;> rfl

/-- A handler that succeeds has staged the answer. -/
theorem handleJoinReq_owes {o : Oracle} {c d : Node cfg} {i : Fin cfg.maxNeighbors} {msg : Bytes}
    (h : handleJoinReq psa o c i msg = (.ok (), d)) : d.hs.oweTx = true := by
  unfold handleJoinReq at h
  split at h
  · cases h
  · dsimp only at h
    split at h
    · cases h
    · split at h
      · cases h
      · cases h
        rfl

theorem handleJoinRsp_owes {o : Oracle} {c d : Node cfg} {i : Fin cfg.maxNeighbors} {msg : Bytes}
    (h : handleJoinRsp psa o c i msg = (.ok (), d)) : d.hs.oweTx = true := by
  unfold handleJoinRsp at h
  split at h
  · cases h
  · dsimp only at h
    split at h
    · cases h
    · split at h
      · cases h
      · cases h
        rfl

theorem handleJoinCfm_owes {o : Oracle} {c d : Node cfg} {i : Fin cfg.maxNeighbors} {msg : Bytes}
    (h : handleJoinCfm psa o c i msg = (.ok (), d)) : d.hs.oweTx = true := by
  unfold handleJoinCfm at h
  split at h
  · cases h
  · dsimp only at h
    split at h
    · cases h
    · cases h
      rfl

theorem handleResumeReq_owes {o : Oracle} {c d : Node cfg} {i : Fin cfg.maxNeighbors}
    {msg : Bytes} (h : handleResumeReq psa o c i msg = (.ok (), d)) : d.hs.oweTx = true := by
  unfold handleResumeReq at h
  split at h
  · cases h
  · dsimp only at h
    split at h
    · cases h
    · cases h
      rfl

theorem settleStep_prompt {r : Except Err Unit × Node cfg} {i : Fin cfg.maxNeighbors}
    (h : r.1 = .ok () → r.2.hs.oweTx = true) : (settleStep r i).Prompt := by
  obtain ⟨e | ⟨⟩, d⟩ := r
  · exact .over rfl
  · exact fun _ _ => h rfl

theorem finishJoiner_over {o : Oracle} {c d : Node cfg} {i : Fin cfg.maxNeighbors} {t : FrameType}
    {sec : Bool} {airStartUs : ℕ} (h : finishJoiner o c i t sec airStartUs = some d) :
    d.hs = {} := by
  unfold finishJoiner at h
  split at h
  · cases h
    rfl
  · obtain ⟨e, -, rfl⟩ := Option.map_eq_some_iff.mp h
    rfl

theorem handleMessage_prompt {o : Oracle} {c d : Node cfg} {i : Fin cfg.maxNeighbors}
    {t : FrameType} {sec : Bool} {airStartUs : ℕ} (hc : c.Prompt)
    (h : handleMessage psa o c i t sec airStartUs = some d) : d.Prompt := by
  unfold handleMessage at h
  dsimp only at h
  split at h
  · cases h
    exact settleStep_prompt fun hok => handleJoinReq_owes (Prod.ext hok rfl)
  · cases h
    exact settleStep_prompt fun hok => handleJoinRsp_owes (Prod.ext hok rfl)
  · cases h
    exact settleStep_prompt fun hok => handleJoinCfm_owes (Prod.ext hok rfl)
  · exact .over (congrArg Hs.n (finishJoiner_over h))
  · exact .over (congrArg Hs.n (finishJoiner_over h))
  · split at h
    · cases h
      exact .over rfl
    · next he =>
      cases h
      exact settleStep_prompt fun _ => handleResumeReq_owes he
  · cases h
    exact hc

theorem addFragment_prompt {c : Node cfg} (t : FrameType) (sec : Bool) (key : Option Bytes)
    (pdu : Bytes) (hc : c.Prompt) : (addFragment c t sec key pdu).2.Prompt := by
  unfold addFragment
  dsimp only
  split_ifs <;> exact hc

theorem reassemble_prompt (psa : Psa) (o : Oracle) {c : Node cfg} (i : Fin cfg.maxNeighbors)
    (t : FrameType) (pdu : Bytes) (hc : c.Prompt) : (reassemble psa o c i t pdu).2.Prompt := by
  unfold reassemble
  split
  · have hd := lgSecDecrypt_hs psa (o.ok .decrypt) c i pdu
    split <;> next he =>
      rw [he] at hd
      first
        | exact hc.congr hd
        | exact addFragment_prompt t true _ _ (hc.congr hd)
  · exact addFragment_prompt t false none pdu hc

theorem contextFor_prompt (psa : Psa) (o : Oracle) {c : Node cfg} (t : FrameType) (src : Addr)
    (airStartUs : ℕ) (hc : c.Prompt) : (contextFor o c t src airStartUs).2.Prompt := by
  have hadmit := (admitJoiner_rest psa o c src).1
  unfold contextFor
  split
  · exact hc
  · split
    · split <;> next he =>
        rw [he] at hadmit
        first
          | exact hc.congr hadmit
          | split
            · exact hc.congr hadmit
            · exact .idle rfl
    · exact hc

theorem lgJoinRxPdu_prompt {o : Oracle} {c d : Node cfg} {t : FrameType} {rx : RxRec}
    (hc : c.Prompt) (h : lgJoinRxPdu psa o c t rx = some d) : d.Prompt := by
  have hctx := contextFor_prompt psa o t (getLe16 rx.pdu offSrc) rx.airStartUs hc
  unfold lgJoinRxPdu at h
  split at h
  · next e he =>
    rw [he] at hctx
    cases h
    exact hctx
  · next i e he =>
    rw [he] at hctx
    have hrx : (lgNeighRxRssi e i rx.rssi).Prompt :=
      hctx.congr (lgNeighRxRssi_quiet e i rx.rssi).hs
    have hre := reassemble_prompt psa o i t rx.pdu hrx
    split at h
    · next f hf =>
      rw [hf] at hre
      cases h
      exact hre
    · next f hf =>
      rw [hf] at hre
      exact handleMessage_prompt hre h

/-- A handshake begins with no progress made. -/
theorem lgJoinStart_idle (o : Oracle) (c : Node cfg) (i : Fin cfg.maxNeighbors) :
    (∃ e, (lgJoinStart o c i).1 = .error e ∧ (lgJoinStart o c i).2.hs = c.hs) ∨
      (lgJoinStart o c i).2.hs.progressed = false := by
  have hbuild : ∀ {d : Node cfg} {r : Except Err Unit × Node cfg}, d.hs.progressed = false →
      (r = buildResumeReq o d i ∨ r = buildJoinReq o d i) → r.2.hs.progressed = false := by
    rintro d r hd (rfl | rfl)
    · unfold buildResumeReq
      split <;> exact hd
    · unfold buildJoinReq
      split
      · exact hd
      · dsimp only
        split <;> exact hd
  unfold lgJoinStart
  dsimp only
  split
  · exact .inl ⟨_, rfl, rfl⟩
  · split
    · exact .inl ⟨_, rfl, rfl⟩
    · split
      · exact .inl ⟨_, rfl, rfl⟩
      · next j _ =>
        split
        · exact .inl ⟨_, rfl, rfl⟩
        · split
          · exact .inl ⟨_, rfl, rfl⟩
          · right
            split
            · rfl
            · next e he =>
              refine (congrArg (fun r => r.2.hs.progressed) he.symm).trans ?_
              split
              · exact hbuild rfl (.inl rfl)
              · exact hbuild rfl (.inr rfl)

theorem lgJoinStart_ok_prompt {o : Oracle} {c d : Node cfg} {i : Fin cfg.maxNeighbors}
    (h : lgJoinStart o c i = (.ok (), d)) : d.Prompt := by
  have hstart := lgJoinStart_idle o c i
  rw [h] at hstart
  rcases hstart with ⟨e, he, -⟩ | hidle
  · cases he
  · exact .idle hidle

theorem lgJoinStart_prompt {o : Oracle} {c : Node cfg} (i : Fin cfg.maxNeighbors) (hc : c.Prompt) :
    (lgJoinStart o c i).2.Prompt := by
  rcases lgJoinStart_idle o c i with ⟨e, -, h⟩ | h
  · exact hc.congr h
  · exact .idle h

theorem aimAt_prompt {o : Oracle} {c : Node cfg} (i : Fin cfg.maxNeighbors) (b : Beacon)
    (airStartUs : ℕ) (hc : c.Prompt) : (aimAt o c i b airStartUs).Prompt := by
  unfold aimAt
  dsimp only
  generalize ({ (c.neigh i).join with joinNextUs := _, joinSpreadUs := _ } : JoinInfo) = join
  have hstart : (lgJoinStart o (c.setJoin i join) i).2.Prompt := lgJoinStart_prompt i hc
  split
  · next d he =>
    rw [he] at hstart
    unfold lgSchedAbort
    split <;> exact hstart
  · next d he =>
    rw [he] at hstart
    exact hstart

theorem beaconEntry_hs (psa : Psa) (o : Oracle) (c : Node cfg) (b : Beacon) (src : Addr)
    (rssi : ℤ) : (beaconEntry o c b src rssi).2.hs = c.hs := by
  unfold beaconEntry
  split
  · rfl
  · split
    · exact (admitJoiner_rest psa o c src).1
    · rfl

theorem lgDiscBeaconRx_prompt {o : Oracle} {c : Node cfg} {rx : RxRec} (hc : c.Prompt) :
    (lgDiscBeaconRx psa o c rx).Prompt := by
  unfold lgDiscBeaconRx
  split
  · exact hc
  · split
    · exact hc
    · next body _ =>
      dsimp only
      generalize Beacon.decode (body.drop hdrLen) = b
      generalize getLe16 body offSrc = src
      split
      · exact hc
      · have hnoted := (noteBeacon_quiet o c b src).hs
        have he := beaconEntry_hs psa o (noteBeacon o c b src) b src rx.rssi
        unfold acceptBeacon
        dsimp only
        split
        · next d hd =>
          rw [hd] at he
          exact hc.congr (he.trans hnoted)
        · next i d hd =>
          rw [hd] at he
          have hs : (noteSender d i b rx.rssi rx.airStartUs).Prompt :=
            hc.congr ((noteSender_quiet d i b rx.rssi rx.airStartUs).hs.trans (he.trans hnoted))
          split
          · exact hs
          · split
            · exact hs
            · exact aimAt_prompt i b rx.airStartUs hs

/-- Whatever frame is received, progress makes a debt. -/
theorem dispatch_prompt {o : Oracle} {c d : Node cfg} {rx : RxRec} (hc : c.Prompt)
    (h : dispatch psa o c rx = some d) : d.Prompt := by
  unfold dispatch at h
  split at h
  · cases h
    exact hc
  · next hdr _ =>
    split at h
    · cases h
      exact hc
    · split at h
      · cases h
        exact lgDiscBeaconRx_prompt hc
      · split at h
        · exact lgJoinRxPdu_prompt hc h
        · cases h
          exact hc.congr (dispatchLink_hs psa o c hdr rx.pdu)
      · cases h
        exact hc.congr (dispatchLink_hs psa o c hdr rx.pdu)

/-! ## One slot at one end -/

/-- What became of the slot at one end. -/
inductive Outcome where
  /-- It was granted, and the node transmitted or listened. -/
  | ran
  /-- The arbiter refused it. -/
  | refused
  /-- `sched_pick` came to it too late and dropped it. -/
  | late
  /-- Another event had the radio. -/
  | skipped
deriving DecidableEq

/-- Whatever else the node does leaves its context as it is, or ends the handshake. -/
def Beside (c d : Node cfg) : Prop := d.hs = c.hs ∨ d.hs = {}

theorem Beside.refl (c : Node cfg) : Beside c c := .inl rfl

theorem Beside.hs {c d : Node cfg} (h : Beside c d) (hn : d.hs.n ≠ none) : d.hs = c.hs := by
  rcases h with h | h
  · exact h
  · rw [h] at hn
    exact absurd rfl hn

theorem Beside.trans {c d e : Node cfg} (h : Beside c d) (h' : Beside d e) : Beside c e := by
  rcases h' with h' | h'
  · rcases h with h | h
    · exact .inl (h'.trans h)
    · exact .inr (h'.trans h)
  · exact .inr h'

theorem Node.Prompt.beside {c d : Node cfg} (hc : c.Prompt) (h : Beside c d) : d.Prompt := by
  intro hn
  have hhs := h.hs hn
  rw [hhs] at hn ⊢
  exact hc hn

section

variable (psa : Psa)

/-- Fragment `idx`, if it goes on air. -/
def onAir (o : Oracle) (c : Node cfg) (idx : ℕ) : Option Bytes :=
  let pdu := (buildFragment psa o c idx).1
  if pdu = [] ∨ !o.phyOk then none else some pdu

/-- From `c`, with this fragment on air, through the rest of its transmit event. -/
inductive Sends : Node cfg → Option Bytes → List RxRec → Node cfg → Prop
  | done {c d : Node cfg} (h : Beside c d) : Sends c none [] d
  | aired {c d e : Node cfg} {pdu : Bytes} {sent : List RxRec} (o : Oracle) (airEndUs : ℕ)
    (rssi : ℤ) (h : Beside c d)
    (hmore : Sends (joinTxDone psa o d airEndUs)
      (if d.hs.fragIdx + 1 < d.hs.fragTotal then
        onAir psa o (d.fragDone airEndUs) (d.hs.fragIdx + 1) else none) sent e) :
    Sends c (some pdu) (⟨pdu, rssi, airEndUs - airtimeUs pdu.length⟩ :: sent) e

/-- The frames a node hears are dispatched in turn; nothing comes after work that hangs. -/
inductive Catches : Option (Node cfg) → List RxRec → Option (Node cfg) → Prop
  | hung (heard : List RxRec) : Catches none heard none
  | rest {c d : Node cfg} (h : Beside c d) : Catches (some c) [] (some d)
  | frame {c d : Node cfg} {r : Option (Node cfg)} {rx : RxRec} {heard : List RxRec} (o : Oracle)
    (h : Beside c d) (hmore : Catches (dispatch psa o d rx) heard r) :
    Catches (some c) (rx :: heard) r

/-- The end of an event of the handshake. -/
def Finishes : Option (Node cfg) → Option (Node cfg) → Prop
  | none, r => r = none
  | some c, r => ∃ o d, Beside c d ∧ lgJoinEventFinish o d = r

/-- One slot at one end. After it, or instead of it, the node may overhear the peer in an event of
another kind. -/
inductive Turn (c : Node cfg) : Outcome → List RxRec → List RxRec → Option (Node cfg) → Prop
  | tx {d : Node cfg} {s r : Option (Node cfg)} {sent heard : List RxRec} (o : Oracle)
    (howe : lgJoinSlotIsTx c = true) (hsend : Sends psa (joinTxStart psa o c)
      (onAir psa o (c.setHs { c.hs with wasTx := true, fragIdx := 0 }) 0) sent d)
    (hend : Finishes (some d) s) (hrest : Catches psa s heard r) : Turn c .ran sent heard r
  | rx {d s r : Option (Node cfg)} {heard rest : List RxRec} (o : Oracle)
    (howe : lgJoinSlotIsTx c = false) (hcatch : Catches psa (some (joinRxStart o c)) heard d)
    (hend : Finishes d s) (hrest : Catches psa s rest r) : Turn c .ran [] (heard ++ rest) r
  | refused {s r : Option (Node cfg)} {heard : List RxRec}
    (hend : Finishes (some (joinAborted c)) s) (hrest : Catches psa s heard r) :
    Turn c .refused [] heard r
  | late {s r : Option (Node cfg)} {heard : List RxRec} (hend : Finishes (some c) s)
    (hrest : Catches psa s heard r) : Turn c .late [] heard r
  | skipped {r : Option (Node cfg)} {heard : List RxRec} (hrest : Catches psa (some c) heard r) :
    Turn c .skipped [] heard r

end

/-- The node comes out of the slot owing a message that it has not sent in it. -/
def Node.Insists (c : Node cfg) (a : Outcome) : Prop :=
  c.hs.n ≠ none ∧ match a with
    | .ran => c.hs.oweTx = false ∧ c.hs.tx ≠ []
    | .refused => c.hs.tx ≠ []
    | .late => c.hs.wasTx = false ∧ c.hs.tx ≠ []
    | .skipped => c.hs.oweTx = true

/-- One slot at both ends. -/
structure Shared (cfg : Config) where
  joiner : Node cfg
  router : Node cfg
  atJoiner : Outcome
  atRouter : Outcome

namespace Shared

variable (s : Shared cfg)

/-- Both ends owe a message and transmit. -/
def Collides : Prop :=
  (s.atJoiner = .ran ∧ lgJoinSlotIsTx s.joiner = true) ∧
    s.atRouter = .ran ∧ lgJoinSlotIsTx s.router = true

/-- Both ends come out of the slot owing. -/
def Insisted : Prop := s.joiner.Insists s.atJoiner ∧ s.router.Insists s.atRouter

/-- Both ends are in the handshake, and have the slot. -/
def Met : Prop :=
  (s.joiner.hs.n ≠ none ∧ s.atJoiner = .ran) ∧ s.router.hs.n ≠ none ∧ s.atRouter = .ran

/-- The two ends do not meet in the slot after one that both came out of owing. -/
def Yields (later earlier : Shared cfg) : Prop := earlier.Insisted → ¬ later.Met

end Shared

/-- The slots of a handshake between `j` and `r`, the latest first. What either end hears is some
of what the other sends. -/
inductive Turns (psa : Psa) (j r : Node cfg) :
    List (Shared cfg) → Option (Node cfg) → Option (Node cfg) → Prop
  | start : Turns psa j r [] (some j) (some r)
  | slot {ss : List (Shared cfg)} {j₁ j₂ r₁ r₂ : Node cfg} {j' r' : Option (Node cfg)}
    {a b : Outcome} {sentJ sentR heardJ heardR : List RxRec}
    (h : Turns psa j r ss (some j₁) (some r₁)) (hbj : Beside j₁ j₂) (hbr : Beside r₁ r₂)
    (hj : Turn psa j₂ a sentJ heardJ j') (hr : Turn psa r₂ b sentR heardR r')
    (hheardJ : heardJ.Sublist sentR) (hheardR : heardR.Sublist sentJ) :
    Turns psa j r (⟨j₂, r₂, a, b⟩ :: ss) j' r'

/-! ## Who owes after a slot -/

theorem lgJoinSlotIsTx_iff (c : Node cfg) :
    lgJoinSlotIsTx c = true ↔ c.hs.n ≠ none ∧ c.hs.oweTx = true := by
  unfold lgJoinSlotIsTx
  rw [Bool.and_eq_true, Option.isSome_iff_ne_none]

/-- What turn-taking depends on. -/
def Hs.turn (hs : Hs cfg) := (hs.n, hs.oweTx, hs.wasTx, hs.progressed, hs.tx)

theorem sendFragment_turn (psa : Psa) (o : Oracle) (c : Node cfg) (idx : ℕ) :
    (sendFragment psa o c idx).hs.turn = c.hs.turn := by
  have hturn : (buildFragment psa o c idx).2.hs.turn = c.hs.turn :=
    congrArg Hs.turn (buildFragment_hs psa o c idx)
  unfold sendFragment command lgSchedEventDone
  dsimp only
  split_ifs <;> exact hturn

theorem joinTxStart_turn (psa : Psa) (o : Oracle) {c : Node cfg} (hn : c.hs.n ≠ none) :
    (joinTxStart psa o c).hs.turn = ({ c.hs with wasTx := true } : Hs cfg).turn := by
  unfold joinTxStart
  rw [if_neg (by simpa using hn)]
  exact sendFragment_turn psa o _ 0

theorem joinTxDone_turn (psa : Psa) (o : Oracle) (c : Node cfg) (airEndUs : ℕ) :
    (joinTxDone psa o c airEndUs).hs.turn = c.hs.turn := by
  rw [joinTxDone_eq]
  split
  · exact sendFragment_turn psa o _ _
  · rfl

theorem Sends.turn {c d : Node cfg} {pdu : Option Bytes} {sent : List RxRec}
    (h : Sends psa c pdu sent d) (hn : d.hs.n ≠ none) : d.hs.turn = c.hs.turn := by
  induction h with
  | done hap => rw [hap.hs hn]
  | @aired c d e pdu sent o airEndUs rssi hap _ ih =>
    have he := (ih hn).trans (joinTxDone_turn psa o d airEndUs)
    have hd : d.hs.n ≠ none := by
      have hne : e.hs.n = d.hs.n := congrArg Prod.fst he
      rwa [← hne]
    rw [he, hap.hs hd]

/-- A node that goes on with its handshake after a slot. -/
theorem lgJoinEventFinish_owes {o : Oracle} {c d : Node cfg} (h : lgJoinEventFinish o c = some d)
    (hn : d.hs.n ≠ none) : c.hs.n ≠ none ∧ d.hs.oweTx = oweAfter c.hs ∧
      (oweAfter c.hs = true → c.hs.tx ≠ []) := by
  unfold lgJoinEventFinish at h
  split at h
  · next hc =>
    cases h
    exact absurd hc hn
  · next i hc =>
    split at h
    · cases h
      exact absurd rfl hn
    · split at h
      · obtain ⟨e, -, rfl⟩ := Option.map_eq_some_iff.mp h
        exact absurd rfl hn
      · dsimp only at h
        split at h
        · cases h
          exact absurd rfl hn
        · next hlimit =>
          cases h
          refine ⟨by rw [hc]; nofun, rfl, fun howe htx => hlimit ?_⟩
          exact .inr (.inr ⟨howe, htx⟩)

theorem lgJoinEventFinish_prompt {o : Oracle} {c d : Node cfg}
    (h : lgJoinEventFinish o c = some d) : d.Prompt := by
  unfold lgJoinEventFinish at h
  split at h
  · next hc =>
    cases h
    exact .over hc
  · split at h
    · cases h
      exact .over rfl
    · split at h
      · obtain ⟨e, -, rfl⟩ := Option.map_eq_some_iff.mp h
        exact .over rfl
      · dsimp only at h
        split at h <;> cases h
        · exact .over rfl
        · exact .idle rfl

theorem Catches.nothing {s : Option (Node cfg)} {d : Node cfg} (h : Catches psa s [] (some d)) :
    ∃ c, s = some c ∧ Beside c d := by
  cases h with
  | rest h => exact ⟨_, rfl, h⟩

/-- After an event and a slot in which nothing more was heard. -/
theorem Finishes.owes {c d : Node cfg} {s : Option (Node cfg)} (h : Finishes (some c) s)
    (hrest : Catches psa s [] (some d)) (hn : d.hs.n ≠ none) :
    c.hs.n ≠ none ∧ d.hs.oweTx = oweAfter c.hs ∧ (oweAfter c.hs = true → c.hs.tx ≠ []) := by
  obtain ⟨e, rfl, hbeside⟩ := hrest.nothing
  obtain ⟨o, c', hbeside', hfin⟩ := h
  have hed := hbeside.hs hn
  rw [hed] at hn ⊢
  obtain ⟨hn', howe, htx⟩ := lgJoinEventFinish_owes hfin hn
  have hcc := hbeside'.hs hn'
  rw [hcc] at hn' howe htx
  exact ⟨hn', howe, htx⟩

/-- An end that has heard nothing in a slot owes a message after it just when it insists. -/
theorem Turn.owes_iff {c d : Node cfg} {a : Outcome} {sent : List RxRec} (hc : c.Prompt)
    (h : Turn psa c a sent [] (some d)) (hn : d.hs.n ≠ none) :
    d.hs.oweTx = true ↔ c.Insists a := by
  generalize hheard : ([] : List RxRec) = heard at h
  generalize hr : some d = r at h
  cases h with
  | @tx e s r sent heard o howe hsend hend hrest =>
    subst hheard hr
    obtain ⟨he, howes, -⟩ := hend.owes hrest hn
    have hc' := ((lgJoinSlotIsTx_iff c).mp howe)
    have hwas : e.hs.wasTx = true := by
      have hturn := (hsend.turn he).trans (joinTxStart_turn psa o hc'.1)
      exact congrArg (fun t => t.2.2.1) hturn
    rw [howes, oweAfter, if_pos hwas]
    refine ⟨by simp, fun hi => ?_⟩
    cases hi.2.1.symm.trans hc'.2
  | @rx e s r heard rest o howe hcatch hend hrest =>
    obtain ⟨rfl, rfl⟩ := List.append_eq_nil_iff.mp hheard.symm
    subst hr
    cases e with
    | none =>
      cases hend
      cases hrest
    | some e =>
      obtain ⟨he, howes, htx⟩ := hend.owes hrest hn
      obtain ⟨c', hc', hbeside⟩ := hcatch.nothing
      cases hc'
      have hehs := (hbeside.hs he).trans (joinRxStart_rest o c).1
      have hcn : c.hs.n ≠ none := by rwa [hehs] at he
      have hquiet : c.hs.oweTx = false := by
        rw [Bool.eq_false_iff]
        exact fun hq => Bool.false_ne_true (howe.symm.trans ((lgJoinSlotIsTx_iff c).mpr ⟨hcn, hq⟩))
      have hprog : c.hs.progressed = false := by
        rw [Bool.eq_false_iff]
        exact fun hp => Bool.false_ne_true (hquiet.symm.trans (hc hcn hp))
      rw [howes, hehs]
      simp [oweAfter, hprog, Node.Insists, hcn, hquiet]
  | @refused s r heard hend hrest =>
    subst hheard hr
    obtain ⟨hcn, howes, -⟩ := hend.owes hrest hn
    have hcn' : c.hs.n ≠ none := hcn
    have hafter : oweAfter (joinAborted c).hs = decide (c.hs.tx ≠ []) := rfl
    rw [howes, hafter, decide_eq_true_iff]
    exact ⟨fun htx => ⟨hcn', htx⟩, fun hi => hi.2⟩
  | @late s r heard hend hrest =>
    subst hheard hr
    obtain ⟨hcn, howes, htx⟩ := hend.owes hrest hn
    rw [howes]
    refine ⟨fun howe => ⟨hcn, ?_, htx howe⟩, fun hi => ?_⟩
    · rw [Bool.eq_false_iff]
      intro hw
      rw [oweAfter, if_pos hw] at howe
      cases howe
    · rw [oweAfter, hi.2.1, if_neg Bool.false_ne_true]
      split
      · simpa using hi.2.2
      · next hp => exact hc hcn (by simpa using hp)
  | @skipped r heard hrest =>
    subst hheard hr
    obtain ⟨c', hc', hbeside⟩ := hrest.nothing
    cases hc'
    have hhs := hbeside.hs hn
    rw [hhs] at hn ⊢
    exact ⟨fun howe => ⟨hn, howe⟩, fun hi => hi.2⟩

/-- Only an end that owes a message puts anything on air. -/
theorem Turn.quiet {c : Node cfg} {a : Outcome} {sent heard : List RxRec} {r : Option (Node cfg)}
    (h : Turn psa c a sent heard r) (hq : ¬ (a = .ran ∧ lgJoinSlotIsTx c = true)) : sent = [] := by
  cases h with
  | tx o howe => exact absurd ⟨rfl, howe⟩ hq
  | rx | refused | late | skipped => rfl

theorem Turn.quiet_of_insists {c : Node cfg} {a : Outcome} {sent heard : List RxRec}
    {r : Option (Node cfg)} (h : Turn psa c a sent heard r) (hi : c.Insists a) : sent = [] := by
  refine h.quiet ?_
  rintro ⟨rfl, howe⟩
  cases hi.2.1.symm.trans ((lgJoinSlotIsTx_iff c).mp howe).2

theorem Catches.prompt {s r : Option (Node cfg)} {heard : List RxRec} (h : Catches psa s heard r)
    (hs : ∀ c, s = some c → c.Prompt) : ∀ d, r = some d → d.Prompt := by
  induction h with
  | hung =>
    intro d hd
    cases hd
  | @rest c d h =>
    intro e he
    cases he
    exact (hs c rfl).beside h
  | @frame c d r rx heard o h _ ih =>
    have hd : d.Prompt := (hs c rfl).beside h
    exact ih fun e he => dispatch_prompt hd he

theorem Finishes.prompt {s r : Option (Node cfg)} (h : Finishes s r) :
    ∀ d, r = some d → d.Prompt := by
  rintro d rfl
  cases s with
  | none => cases h
  | some c =>
    obtain ⟨o, c', -, hfin⟩ := h
    exact lgJoinEventFinish_prompt hfin

theorem Turn.prompt {c : Node cfg} {a : Outcome} {sent heard : List RxRec} {r : Option (Node cfg)}
    (hc : c.Prompt) (h : Turn psa c a sent heard r) : ∀ d, r = some d → d.Prompt := by
  cases h with
  | tx _ _ _ hend hrest => exact hrest.prompt hend.prompt
  | rx _ _ _ hend hrest => exact hrest.prompt hend.prompt
  | refused hend hrest => exact hrest.prompt hend.prompt
  | late hend hrest => exact hrest.prompt hend.prompt
  | skipped hrest =>
    refine hrest.prompt fun d hd => ?_
    cases hd
    exact hc

/-! ## Runs -/

section

variable {j r : Node cfg} {ss : List (Shared cfg)} {j' r' : Option (Node cfg)}

theorem Turns.prompt (hj : j.Prompt) (hr : r.Prompt) (h : Turns psa j r ss j' r') :
    (∀ d, j' = some d → d.Prompt) ∧ ∀ d, r' = some d → d.Prompt := by
  induction h with
  | start =>
    refine ⟨fun d hd => ?_, fun d hd => ?_⟩ <;> cases hd
    · exact hj
    · exact hr
  | slot _ hbj hbr hpj hpr _ _ ih =>
    exact ⟨hpj.prompt ((ih.1 _ rfl).beside hbj), hpr.prompt ((ih.2 _ rfl).beside hbr)⟩

/-- After a slot in which the two ends have not transmitted both, both owe a message just when
both have insisted. -/
theorem Turns.insisted_iff {s : Shared cfg} {d e : Node cfg} (hj : j.Prompt) (hr : r.Prompt)
    (h : Turns psa j r (s :: ss) (some d) (some e)) (hs : ¬ s.Collides) (hd : d.hs.n ≠ none)
    (he : e.hs.n ≠ none) : (d.hs.oweTx = true ∧ e.hs.oweTx = true) ↔ s.Insisted := by
  cases h with
  | @slot _ j₁ j₂ r₁ r₂ _ _ a b sentJ sentR heardJ heardR h hbj hbr hpj hpr hheardJ hheardR =>
    have hprompt := h.prompt hj hr
    have hpj₂ := (hprompt.1 _ rfl).beside hbj
    have hpr₂ := (hprompt.2 _ rfl).beside hbr
    -- What one end owes, it knows for itself, unless it has heard the other; then the other has
    -- sent its message, and heard nothing itself.
    have hknowsJ : sentR = [] → (d.hs.oweTx = true ↔ j₂.Insists a) := by
      rintro rfl
      rw [List.sublist_nil.mp hheardJ] at hpj
      exact hpj.owes_iff hpj₂ hd
    have hknowsR : sentJ = [] → (e.hs.oweTx = true ↔ r₂.Insists b) := by
      rintro rfl
      rw [List.sublist_nil.mp hheardR] at hpr
      exact hpr.owes_iff hpr₂ he
    have hone : sentJ = [] ∨ sentR = [] := by
      by_contra hboth
      rw [not_or] at hboth
      refine hs ⟨?_, ?_⟩
      · by_contra hq
        exact hboth.1 (hpj.quiet hq)
      · by_contra hq
        exact hboth.2 (hpr.quiet hq)
    constructor
    · rintro ⟨howeJ, howeR⟩
      rcases hone with hquiet | hquiet
      · have hi := (hknowsR hquiet).mp howeR
        exact ⟨(hknowsJ (hpr.quiet_of_insists hi)).mp howeJ, hi⟩
      · have hi := (hknowsJ hquiet).mp howeJ
        exact ⟨hi, (hknowsR (hpj.quiet_of_insists hi)).mp howeR⟩
    · rintro ⟨hiJ, hiR⟩
      exact ⟨(hknowsJ (hpr.quiet_of_insists hiR)).mpr hiJ,
        (hknowsR (hpj.quiet_of_insists hiJ)).mpr hiR⟩

/-- The next slot is one in which both ends transmit just when both have it and insisted in the
one before. -/
theorem Turns.collides_iff {s : Shared cfg} {j₁ r₁ j₂ r₂ : Node cfg} {a b : Outcome}
    (hj : j.Prompt) (hr : r.Prompt) (h : Turns psa j r (s :: ss) (some j₁) (some r₁))
    (hs : ¬ s.Collides) (hbj : Beside j₁ j₂) (hbr : Beside r₁ r₂) :
    (⟨j₂, r₂, a, b⟩ : Shared cfg).Collides ↔
      ¬ Shared.Yields (⟨j₂, r₂, a, b⟩ : Shared cfg) s := by
  have hmet : (⟨j₂, r₂, a, b⟩ : Shared cfg).Met →
      ((j₂.hs.oweTx = true ∧ r₂.hs.oweTx = true) ↔ s.Insisted) := by
    rintro ⟨⟨hnj, -⟩, hnr, -⟩
    have hnj' : j₁.hs.n ≠ none := by rwa [← hbj.hs hnj]
    have hnr' : r₁.hs.n ≠ none := by rwa [← hbr.hs hnr]
    rw [hbj.hs hnj, hbr.hs hnr]
    exact h.insisted_iff hj hr hs hnj' hnr'
  unfold Shared.Yields Shared.Collides
  rw [Classical.not_imp, not_not, lgJoinSlotIsTx_iff, lgJoinSlotIsTx_iff]
  constructor
  · rintro ⟨⟨ha, hnj, howeJ⟩, hb, hnr, howeR⟩
    have hm : (⟨j₂, r₂, a, b⟩ : Shared cfg).Met := ⟨⟨hnj, ha⟩, hnr, hb⟩
    exact ⟨(hmet hm).mp ⟨howeJ, howeR⟩, hm⟩
  · rintro ⟨hi, hm⟩
    obtain ⟨howeJ, howeR⟩ := (hmet hm).mpr hi
    exact ⟨⟨hm.1.2, hm.1.1, howeJ⟩, hm.2.2, hm.2.1, howeR⟩

end

/-! ## Slots without loss are slots -/

theorem Apart.beside {c d : Node cfg} (h : Apart c d) : Beside c d := .inl h.hs

theorem Settles.finishes {Q : Oracle → Prop} {c : Node cfg} {r : Option (Node cfg)}
    (h : Settles Q c r) : Finishes (some c) r := by
  unfold Settles at h
  split at h
  · next hn =>
    subst h
    refine ⟨calm 0, c, .refl c, ?_⟩
    unfold lgJoinEventFinish
    rw [hn]
  · obtain ⟨o, d, -, hap, -, hfin⟩ := h
    exact ⟨o, d, hap.beside, hfin⟩

theorem Catches.refl (s : Option (Node cfg)) : Catches psa s [] s := by
  cases s with
  | none => exact .hung []
  | some c => exact .rest (.refl c)

theorem onAir_some {o : Oracle} (ho : o.Willing) {c : Node cfg} {idx : ℕ}
    (h : (buildFragment psa o c idx).1 ≠ []) :
    onAir psa o c idx = some (buildFragment psa o c idx).1 := by
  unfold onAir
  rw [if_neg]
  rintro (hpdu | hphy)
  · exact h hpdu
  · rw [ho.phy] at hphy
    cases hphy

theorem Airs.sends {Q : Oracle → Prop} (hQ : ∀ o, Q o → o.Willing) {c d : Node cfg} {pdu : Bytes}
    {sent : List RxRec} (h : Airs psa Q c pdu sent d) (hsent : ∀ rx ∈ sent, rx.pdu ≠ []) :
    Sends psa c (some pdu) sent d := by
  induction h with
  | last o airEndUs rssi _ hap _ hlast hap' =>
    refine .aired o airEndUs rssi hap.beside ?_
    rw [if_neg hlast]
    exact .done hap'.beside
  | @more c d e pdu sent o airEndUs rssi ho hap _ hmore h ih =>
    have hrest : ∀ rx ∈ sent, rx.pdu ≠ [] := fun rx hrx => hsent rx (List.mem_cons_of_mem _ hrx)
    have hpdu : (buildFragment psa o (d.fragDone airEndUs) (d.hs.fragIdx + 1)).1 ≠ [] := by
      cases h with
      | last => exact hrest _ List.mem_cons_self
      | more => exact hrest _ List.mem_cons_self
    refine .aired o airEndUs rssi hap.beside ?_
    rw [if_pos hmore, onAir_some (hQ o ho) hpdu]
    exact ih hrest

theorem Transmits.turn {Q : Oracle → Prop} (hQ : ∀ o, Q o → o.Willing) {c : Node cfg}
    {sent : List RxRec} {r : Option (Node cfg)} (h : Transmits psa Q c sent r)
    (howe : lgJoinSlotIsTx c = true) (hsent : ∀ rx ∈ sent, rx.pdu ≠ []) :
    Turn psa c .ran sent [] r := by
  obtain ⟨o, d, ho, hsettles, hairs⟩ := h
  have hpdu :
      (buildFragment psa o (c.setHs { c.hs with wasTx := true, fragIdx := 0 }) 0).1 ≠ [] := by
    cases hairs with
    | last => exact hsent _ List.mem_cons_self
    | more => exact hsent _ List.mem_cons_self
  refine .tx o howe ?_ hsettles.finishes (.refl r)
  rw [onAir_some (hQ o ho) hpdu]
  exact hairs.sends hQ hsent

theorem Catches.of_receives {Q : Oracle → Prop} {c : Node cfg} {r : Option (Node cfg)}
    {heard : List RxRec} (h : Receives psa Q c heard r) : Catches psa (some c) heard r := by
  induction h with
  | nil c => exact .refl (some c)
  | hang o _ hap _ hd => exact .frame o hap.beside (by rw [hd]; exact .hung _)
  | cons o _ hap _ hd _ ih => exact .frame o hap.beside (by rw [hd]; exact ih)

theorem Catches.beside {c d : Node cfg} {r : Option (Node cfg)} {heard : List RxRec}
    (hap : Beside c d) (h : Catches psa (some d) heard r) : Catches psa (some c) heard r := by
  cases h with
  | rest h => exact .rest (hap.trans h)
  | frame o h hmore => exact .frame o (hap.trans h) hmore

theorem Listens.turn {Q : Oracle → Prop} {c : Node cfg} {heard : List RxRec}
    {r : Option (Node cfg)} (h : Listens psa Q c heard r) (howe : lgJoinSlotIsTx c = false) :
    Turn psa c .ran [] heard r := by
  obtain ⟨o, d, s, hap, hreceives, hend⟩ := h
  have hcatch : Catches psa (some (joinRxStart o c)) heard s :=
    (Catches.of_receives hreceives).beside hap.beside
  have hfin : Finishes s r := by
    cases s with
    | none => exact hend
    | some e => exact hend.finishes
  have hturn := Turn.rx o howe hcatch hfin (.refl r)
  rwa [List.append_nil] at hturn

theorem Mail.Train.nonempty (hpsa : psa.Opens) {m : Mail} {k : ℕ} {sent : List RxRec}
    (h : m.Train cfg psa k sent) : ∀ rx ∈ sent, rx.pdu ≠ [] := by
  induction sent generalizing k with
  | nil => exact nofun
  | cons rx rest ih =>
    obtain ⟨-, hfrag, hrest⟩ := h
    intro rx' hrx
    rcases List.mem_cons.mp hrx with rfl | hrx
    · intro hnil
      obtain ⟨seq, hget⟩ := (hfrag.header hpsa).1
      rw [hnil] at hget
      cases hget
    · exact ih hrest rx' hrx


/-! ## A refused slot -/

/-- A node that listens in a slot for nothing, and whose own message is still staged. -/
theorem Node.Engaged.waits (psa : Psa) {Q : Oracle → Prop} {o : Oracle} (ho : Q o) {c : Node cfg}
    {id : Identity} {i : Fin cfg.maxNeighbors} {peer : Addr} {startUs k : ℕ}
    (hc : c.Engaged id i peer startUs k) (hk : k < 7) (htx : c.hs.tx ≠ [])
    (howe : lgJoinSlotIsTx c = false) : ∃ d, Turn psa c .ran [] [] (some d) ∧
      d.Engaged id i peer startUs (k + 1) ∧ Settled i (joinRxStart o c) d := by
  obtain ⟨hhs, hident, hneigh, -, -⟩ := joinRxStart_rest o c
  have hc' : (joinRxStart o c).Engaged id i peer startUs k := by
    refine hc.congr hident ?_ (by rw [hneigh]) (by rw [hneigh])
    rw [hhs]
    rfl
  obtain ⟨r, hr⟩ := exists_settles ho (joinRxStart o c)
  obtain ⟨d, rfl, hd, hset⟩ := hr.next hc' hk
    (by
      rintro ⟨-, hw, -⟩
      rw [hhs] at hw
      cases hw)
    (fun _ => by
      rw [hhs]
      exact htx)
  exact ⟨d, .rx o howe (.refl _) hr.finishes (.refl _), hd, hset⟩

/-- A node whose slot is refused. -/
theorem Node.Engaged.refused (psa : Psa) {Q : Oracle → Prop} {o : Oracle} (ho : Q o) {c : Node cfg}
    {id : Identity} {i : Fin cfg.maxNeighbors} {peer : Addr} {startUs k : ℕ}
    (hc : c.Engaged id i peer startUs k) (hk : k < 7) (htx : c.hs.tx ≠ []) :
    ∃ d, Turn psa c .refused [] [] (some d) ∧ d.Engaged id i peer startUs (k + 1) ∧
      Settled i (joinAborted c) d := by
  have hc' : (joinAborted c).Engaged id i peer startUs k := hc.congr rfl rfl rfl rfl
  obtain ⟨r, hr⟩ := exists_settles ho (joinAborted c)
  obtain ⟨d, rfl, hd, hset⟩ := hr.next hc' hk (fun hfinal => nomatch hfinal.2.1) (fun _ => htx)
  exact ⟨d, .refused hr.finishes (.refl _), hd, hset⟩

/-- A message in the clear is still staged once it has been sent. -/
theorem Node.Stages.sent {c e : Node cfg} {i : Fin cfg.maxNeighbors} {m : Mail}
    (h : c.Stages i m) (hclear : m.under = none) (he : Sent i c e) (hident : e.ident = c.ident) :
    e.Stages i m := by
  obtain ⟨idx, len, air, idle, slot, hhs⟩ := he.hs
  obtain ⟨tx, ctr, hentry, hctr⟩ := he.entry
  have hsec : c.hs.txSecured = false := by rw [h.sec, hclear]; rfl
  refine h.congr hident ?_ (by rw [hentry]) ?_
  · rw [hhs]
    rfl
  · rw [hentry, hctr hsec]

theorem Transmits.sentTurn {Q : Oracle → Prop} (hQ : ∀ o, Q o → o.Willing) (hpsa : psa.Opens)
    {c : Node cfg} {i : Fin cfg.maxNeighbors} {m : Mail} {sent : List RxRec}
    {r : Option (Node cfg)} (h : Transmits psa Q c sent r) (hs : c.Stages i m)
    (hfits : m.Fits cfg) (howe : lgJoinSlotIsTx c = true) : Turn psa c .ran sent [] r :=
  h.turn hQ howe (Mail.Train.nonempty hpsa (h.train hQ hs hfits).1)

/-- Where the slot of the router's answer is refused, the joiner, which has heard nothing, repeats
itself in the slot in which the router answers. -/
theorem Requesting.collides {pairs : Bytes × Bytes → Prop} (hpsa : psa.Sound pairs)
    {pubJ pubR : Bytes} {t : Talk} (hkin : Kin psa t.idJ t.idR pubJ pubR) {oJ oR : Oracle}
    (hoJ : oJ.Honest psa pairs pubJ) (hoR : oR.Honest psa pairs pubR) {i : Fin cfg.maxNeighbors}
    {startUs : ℕ} {j r : Node cfg} (hprompt : j.Prompt) (h : Requesting pairs t i startUs j r) :
    ∃ s₀ s₁ s₂ j' r', Turns psa j r [s₂, s₁, s₀] j' r' ∧ s₁.atRouter = .refused ∧
      s₂.Collides := by
  have hwillJ : ∀ o : Oracle, o.Honest psa pairs pubJ → o.Willing := fun _ ho => ho.toWilling
  have hwillR : ∀ o : Oracle, o.Honest psa pairs pubR → o.Willing := fun _ ho => ho.toWilling
  have htxJ : lgJoinSlotIsTx j = true := h.joiner.slotIsTx.trans h.owes
  have htxR : lgJoinSlotIsTx r = false := by
    rw [lgJoinSlotIsTx, h.window.idle]
    rfl
  have hreq : t.req.msg.length = joinReqLen := by
    simp only [Talk.req, List.length_append, h.opened.nonce, h.opened.pub, hkin.joiner.1]
    rfl
  have hfits : t.req.Fits cfg := by
    refine Mail.fits_clear ?_ (hreq.trans_le (by decide)) rfl
    rw [← List.length_pos_iff, hreq]
    decide
  -- Slot 0: `JOIN_REQ` arrives.
  obtain ⟨sent, sentR, j', r', hj, hr⟩ := exists_plays psa hoJ hoR j r
  obtain ⟨-, -, j₁, rfl, -, hsent⟩ := (hj.transmits htxJ).goes hwillJ h.joiner h.stages hfits
    (by decide) fun hfin => by cases h.asks.joiner.symm.trans hfin.1
  obtain ⟨t', sig, i', startUs', e, r₁, hj₁, rfl, hidJ, hidR, hresp⟩ := h.slot hpsa hkin hj hr
  cases hj₁
  have hturnJ := (hj.transmits htxJ).sentTurn hwillJ hpsa.toOpens h.stages hfits htxJ
  have hturnR := (hr.listens htxR).turn htxR
  have hrun₀ : Turns psa j r [⟨j, r, .ran, .ran⟩] (some j₁) (some r₁) :=
    .slot .start (.refl j) (.refl r) hturnJ hturnR (List.nil_sublist _) (.refl sent)
  obtain ⟨hpj, hpr⟩ := hrun₀.prompt hprompt (.over h.window.idle)
  -- Slot 1: the router's is refused, the joiner listens.
  have hrsp : (t'.rsp sig).msg.length = joinRspLen := by
    have hcert : t'.idR.cert.length = certLen := by rw [hidR]; exact hkin.router.1
    simp only [Talk.rsp, List.length_append, hresp.answered.nonce, hresp.answered.pub, hcert,
      hresp.answered.sigLen]
    rfl
  have hfits' : (t'.rsp sig).Fits cfg := by
    refine Mail.fits_clear ?_ (hrsp.trans_le (by decide)) rfl
    rw [← List.length_pos_iff, hrsp]
    decide
  have htx₁ : r₁.hs.tx ≠ [] := by
    rw [hresp.stages.msg]
    exact hfits'.nonempty
  obtain ⟨j₂, hwaits, hj₂, hsetJ⟩ := hresp.joiner.waits psa hoJ (by decide) hresp.asks.tx
    (hresp.joiner.slotIsTx.trans hresp.waits)
  obtain ⟨r₂, hrefused, hr₂, hsetR⟩ := hresp.router.refused psa hoR (by decide) htx₁
  have hrun₁ : Turns psa j r [⟨j₁, r₁, .ran, .refused⟩, ⟨j, r, .ran, .ran⟩] (some j₂) (some r₂) :=
    .slot hrun₀ (.refl j₁) (.refl r₁) hwaits hrefused (List.nil_sublist _) (List.nil_sublist _)
  have howeJ : j₂.hs.oweTx = true := (hwaits.owes_iff (hpj j₁ rfl) (by simp [hj₂.about])).mpr
    ⟨by simp [hresp.joiner.about], hresp.waits, hresp.asks.tx⟩
  have howeR : r₂.hs.oweTx = true := (hrefused.owes_iff (hpr r₁ rfl) (by simp [hr₂.about])).mpr
    ⟨by simp [hresp.router.about], htx₁⟩
  -- Slot 2: both transmit.
  have hstages₁ : j₁.Stages i t.req := h.stages.sent rfl hsent (by
    rw [hresp.joiner.ident, h.joiner.ident, hidJ])
  have hstages₂ : j₂.Stages i t.req := by
    obtain ⟨hhs, hident, hneigh, -, -⟩ := joinRxStart_rest oJ j₁
    refine .settled ?_ hsetJ
    refine hstages₁.congr hident ?_ (by rw [hneigh]) (by rw [hneigh])
    rw [hhs]
    rfl
  have hstagesR : r₂.Stages i' (t'.rsp sig) := by
    have haborted : (joinAborted r₁).Stages i' (t'.rsp sig) :=
      hresp.stages.congr rfl rfl rfl rfl
    exact haborted.settled hsetR
  have htxJ₂ : lgJoinSlotIsTx j₂ = true := hj₂.slotIsTx.trans howeJ
  have htxR₂ : lgJoinSlotIsTx r₂ = true := hr₂.slotIsTx.trans howeR
  obtain ⟨sentJ₂, j₃, hsendJ⟩ := exists_transmits psa hoJ j₂
  obtain ⟨sentR₂, r₃, hsendR⟩ := exists_transmits psa hoR r₂
  exact ⟨_, _, _, j₃, r₃, .slot hrun₁ (.refl j₂) (.refl r₂)
    (hsendJ.sentTurn hwillJ hpsa.toOpens hstages₂ hfits htxJ₂)
    (hsendR.sentTurn hwillR hpsa.toOpens hstagesR hfits' htxR₂) (List.nil_sublist _)
    (List.nil_sublist _), rfl, ⟨rfl, htxJ₂⟩, rfl, htxR₂⟩

theorem plainJoiner_starts : lgJoinStart (calm 1) plainJoiner firstNeigh =
    (.ok (), (lgJoinStart (calm 1) plainJoiner firstNeigh).2) := by
  have hok : (lgJoinStart (calm 1) plainJoiner firstNeigh).1 = .ok () := by decide +kernel
  rw [← hok]

theorem exists_collision : ∃ s₀ s₁ s₂ j' r', Turns Psa.plain
    (lgJoinStart (calm 1) plainJoiner firstNeigh).2 plainRouter [s₂, s₁, s₀] j' r' ∧
    s₁.atRouter = .refused ∧ s₂.Collides := by
  have hmap : plainRouter.Mapped := by
    unfold Node.Mapped
    decide +kernel
  have hstart := plainJoiner_starts
  generalize (lgJoinStart (calm 1) plainJoiner firstNeigh).2 = j at hstart
  obtain ⟨t, startUs, hidJ, hidR, hopened, hengaged, howes, hstages, hasks⟩ :=
    lgJoinStart_asks (calm_honest 1) (show plainJoiner.ident = plainIdent 1 1 from rfl)
      (show (plainJoiner.neigh firstNeigh).addr = (plainIdent 2 2).addr from rfl) rfl hstart
  have hkin : Kin Psa.plain t.idJ t.idR (plainPub 1) (plainPub 2) := by
    rw [hidJ, hidR]
    exact plain_kin
  have hreq : Requesting plainPairs t firstNeigh startUs j plainRouter := by
    refine ⟨hopened, ?_, howes, hstages, hasks, by rw [hidR]; rfl, ?_, hmap⟩
    · rw [hidJ, hidR]
      exact hengaged
    · rw [hidJ]
      exact plainRouter_open
  exact hreq.collides plain_sound hkin (calm_honest 1) (calm_honest 2)
    (lgJoinStart_ok_prompt hstart)

/-- A handshake with an end that has not heard of it: in no slot do both ends owe a message and
transmit, if and only if no slot that both come out of owing is followed by one that both have. -/
theorem turns_taken_iff {o : Oracle} {c j r : Node cfg} {i : Fin cfg.maxNeighbors}
    (hj : lgJoinStart o c i = (.ok (), j)) (hr : r.hs.n = none) {ss : List (Shared cfg)}
    {j' r' : Option (Node cfg)} (h : Turns psa j r ss j' r') :
    (∀ s ∈ ss, ¬ s.Collides) ↔ ss.IsChain Shared.Yields := by
  have hpj : j.Prompt := lgJoinStart_ok_prompt hj
  have hpr : r.Prompt := .over hr
  induction h with
  | start => simp
  | @slot ss j₁ j₂ r₁ r₂ j' r' a b sentJ sentR heardJ heardR h hbj hbr _ _ _ _ ih =>
    cases ss with
    | nil =>
      cases h with
      | start =>
        have hr₂ : r₂.hs.n = none := by
          by_contra hn
          rw [hbr.hs hn] at hn
          exact hn hr
        refine ⟨fun _ => .singleton _, fun _ s hs => ?_⟩
        rw [List.mem_singleton.mp hs]
        rintro ⟨-, -, hr₂'⟩
        exact ((lgJoinSlotIsTx_iff r₂).mp hr₂').1 hr₂
    | cons s ss =>
      have hbefore : (∀ s' ∈ s :: ss, ¬ s'.Collides) ↔ (s :: ss).IsChain Shared.Yields := ih
      rw [List.isChain_cons_cons, ← hbefore, List.forall_mem_cons]
      refine and_congr_left fun hss => ?_
      have hs := hss s List.mem_cons_self
      exact not_iff_comm.mp (h.collides_iff hpj hpr hs hbj hbr).symm

theorem turns_taken_iff_refused : ∃ ss j' r', Turns Psa.plain
    (lgJoinStart (calm 1) plainJoiner firstNeigh).2 plainRouter ss j' r' ∧
    ((∀ s ∈ ss, ¬ s.Collides) ↔ ss.IsChain Shared.Yields) := by
  obtain ⟨s₀, s₁, s₂, j', r', h, -, -⟩ := exists_collision
  exact ⟨_, j', r', h, turns_taken_iff plainJoiner_starts rfl h⟩

/-- One refused slot is enough. -/
theorem not_turns_taken_refused : ¬ ∀ ss j' r', Turns Psa.plain
    (lgJoinStart (calm 1) plainJoiner firstNeigh).2 plainRouter ss j' r' →
    ∀ s ∈ ss, ¬ s.Collides := by
  intro hall
  obtain ⟨s₀, s₁, s₂, j', r', h, -, hcollides⟩ := exists_collision
  exact hall _ j' r' h s₂ List.mem_cons_self hcollides

end LockGrid
