import LockGrid.Sendoff

/-!
# What the handlers ask of the radio

Each handler of a radio event asks the radio for one send or one receive window, at a time of its
own, or the event is over. It is over as well when the radio refuses.
-/
namespace LockGrid

variable {cfg : Config} {psa : Psa} {c d : Node cfg} {o : Oracle}

/-- A call of `lg_phy_tx_at` or of `lg_phy_rx_window`. -/
inductive Cmd
  | tx (airStartUs chan : ℕ) (pdu : Bytes)
  | rx (openUs closeUs chan : ℕ)
  deriving DecidableEq, Repr

def Cmd.phy : Cmd → Phy
  | .tx .. => .tx
  | .rx .. => .rx

def RxRec.airEndUs (rx : RxRec) : ℕ := rx.airStartUs + airtimeUs rx.pdu.length

/-! ## The calls -/

/-- Copy `k` of the beacon, if it is staged. -/
def copyCmd (c : Node cfg) (airStartUs k : ℕ) : Option Cmd :=
  if h : k < rdvSlots then
    let copy := c.net.beaconCopy ⟨k, h⟩
    if copy.pdu = [] then none else some (.tx airStartUs copy.chan copy.pdu)
  else none

/-- Fragment `k` of the staged message, if it can be built. -/
def fragCmd (psa : Psa) (o : Oracle) (c : Node cfg) (airStartUs k : ℕ) : Option Cmd :=
  let pdu := (buildFragment psa o c k).1
  if pdu = [] then none else some (.tx airStartUs c.ev.chan pdu)

/-- The window is opened again for the rest of its time. -/
def listenOnCmd (c : Node cfg) : Option Cmd :=
  if c.nowUs + syncWindowUs < c.ev.closeUs then
    some (.rx (c.nowUs + rampupUs + 20) c.ev.closeUs c.ev.chan)
  else none

/-- What the start handlers ask for. -/
def grantCmd (psa : Psa) (o : Oracle) (c : Node cfg) : Option Cmd :=
  let at₀ := c.ev.anchorUs
  match c.ev.kind, c.ev.neigh with
  | .link, some i =>
    if (c.neigh i).sched.initiator then some (.tx at₀ c.ev.chan (c.neigh i).tx.txbuf)
    else some (.rx (at₀ - c.ev.windowUs) (at₀ + c.ev.windowUs + syncWindowUs) c.ev.chan)
  | .beacon, _ =>
    if cfg.beaconSuppressThreshold ≤ c.net.beaconsHeardThisWindow then none else copyCmd c at₀ 0
  | .scan, _ => some (.rx at₀ c.ev.closeUs c.ev.chan)
  | .track, _ => some (.rx (at₀ - trackMarginUs) c.ev.closeUs c.ev.chan)
  | .joinTx, _ =>
    if c.hs.n.isNone then none
    else fragCmd psa o (c.setHs { c.hs with wasTx := true, fragIdx := 0 }) at₀ 0
  | .joinRx, _ => some (.rx (at₀ - joinRxMarginUs) c.ev.closeUs c.ev.chan)
  | _, _ => none

/-- What the handlers ask for once a frame has gone. -/
def txDoneCmd (psa : Psa) (o : Oracle) (c : Node cfg) (airEndUs : ℕ) : Option Cmd :=
  match c.ev.kind, c.ev.neigh with
  | .link, some _ =>
    let expect := airEndUs + ifsUs
    let win := cfg.rxWindowMinUs / 2
    if !c.evst.txFirst then none
    else some (.rx (expect - win) (expect + win + syncWindowUs) c.ev.chan)
  | .beacon, _ => copyCmd c (airEndUs + beaconCopyGapUs) (c.net.beaconCopyIdx + 1)
  | .joinTx, _ =>
    if c.hs.fragIdx + 1 < c.hs.fragTotal then
      fragCmd psa o (c.fragDone airEndUs) (airEndUs + fragGapUs) (c.hs.fragIdx + 1)
    else none
  | _, _ => none

/-- What the handlers ask for once a frame has come. -/
def rxDoneCmd (c : Node cfg) (rx : RxRec) : Option Cmd :=
  match c.ev.kind, c.ev.neigh with
  | .link, some i =>
    if c.evst.txFirst then none
    else if (c.neigh i).tx.txPending then
      some (.tx (rx.airEndUs + ifsUs) c.ev.chan (c.neigh i).tx.txbuf)
    else none
  | .scan, _ =>
    if c.net.wantAddr ≠ addrInvalid ∧ getLe16 rx.pdu offSrc = c.net.wantAddr then none
    else listenOnCmd c
  | .joinRx, _ => listenOnCmd c
  | _, _ => none

/-- What the handlers ask for when nothing usable has come. -/
def rxFailedCmd (c : Node cfg) (reason : RxFail) : Option Cmd :=
  match c.ev.kind with
  | .scan | .joinRx => if reason ≠ .timeout then listenOnCmd c else none
  | _ => none

/-! ## The handlers make these calls -/

/-- A handler has asked for `x` on behalf of the event that is on: the radio has taken it, or the
event is over. -/
inductive Bids (o : Oracle) (c : Node cfg) : Option Cmd → Node cfg → Prop
  | taken {d : Node cfg} {x : Cmd} (hok : o.phyOk = true) (hev : d.ev = c.ev)
    (hgo : d.granted = true) : Bids o c (some x) { d with phy := x.phy }
  | ended {d : Node cfg} {x : Option Cmd} (hno : x = none ∨ o.phyOk = false) (hev : d.ev = c.ev) :
    Bids o c x (lgSchedEventDone d)

theorem Bids.done {d : Node cfg} (h : d.ev = c.ev) : Bids o c none (lgSchedEventDone d) :=
  .ended (.inl rfl) h

theorem Bids.ev {x : Option Cmd} (h : Bids o c x d) (hon : d.ev.kind ≠ .none) : d.ev = c.ev := by
  cases h with
  | taken _ hev _ => exact hev
  | ended _ _ => exact absurd rfl hon

theorem Bids.granted {x : Option Cmd} (h : Bids o c x d) (hon : d.ev.kind ≠ .none) :
    d.granted = true := by
  cases h with
  | taken _ _ hgo => exact hgo
  | ended _ _ => exact absurd rfl hon

theorem command_bids (x : Cmd) (hev : d.ev = c.ev) (hgo : d.granted = true) :
    Bids o c (some x) (command o d x.phy) := by
  unfold command
  split
  · next hok => exact .taken hok hev hgo
  · next hok => exact .ended (.inr (by simpa using hok)) hev

theorem listenOn_bids (hev : d.ev = c.ev) (hnow : d.nowUs = c.nowUs) (hgo : d.granted = true) :
    Bids o c (listenOnCmd c) (listenOn o d) := by
  unfold listenOn listenOnCmd
  rw [hev, hnow]
  split
  · exact command_bids (.rx _ _ _) hev hgo
  · exact .done hev

theorem sendCopy_bids {e : Node cfg} (k t : ℕ) (hev : d.ev = c.ev) (hgo : d.granted = true)
    (hcopy : d.net.beaconCopy = c.net.beaconCopy) (he : e.ev = c.ev) :
    Bids o c (copyCmd c t k) (sendCopy o d k (lgSchedEventDone e)) := by
  unfold sendCopy copyCmd
  rw [hcopy]
  by_cases hk : k < rdvSlots
  · simp only [hk, dif_pos]
    by_cases hnil : (c.net.beaconCopy ⟨k, hk⟩).pdu = []
    · simp only [hnil, true_or, if_true]
      exact .done he
    · simp only [hnil, false_or, if_false]
      cases hok : o.phyOk with
      | true =>
        simp only [Bool.not_true, Bool.false_eq_true, if_false]
        exact Bids.taken (x := .tx t _ _) hok hev hgo
      | false => exact .ended (.inr hok) he
  · simp only [hk, dif_neg, not_false_eq_true]
    exact .done he

theorem sendFragment_bids (t k : ℕ) (hev : d.ev = c.ev) (hgo : d.granted = true) :
    Bids o c (fragCmd psa o d t k) (sendFragment psa o d k) := by
  have hradio := (buildFragment_aside psa o d k).radio
  simp only [Node.radio, Prod.mk.injEq] at hradio
  obtain ⟨-, hev', -, -, -, -, -, -, -, hgo'⟩ := hradio
  unfold sendFragment fragCmd
  dsimp only
  split
  · exact .done (hev'.trans hev)
  · exact command_bids (.tx _ _ _) (hev'.trans hev) (hgo'.trans hgo)

theorem tsGranted_bids (hk : c.ev.kind ≠ .none)
    (hn : c.ev.kind = .link → ∃ i, c.ev.neigh = some i) :
    Bids o c (grantCmd psa o c) (tsGranted psa o c) := by
  unfold tsGranted grantCmd
  dsimp only
  cases hkind : c.ev.kind with
  | none => exact absurd hkind hk
  | link =>
    obtain ⟨i, hi⟩ := hn hkind
    simp only [hi]
    unfold linkStart
    dsimp only
    by_cases hinit : (c.neigh i).sched.initiator = true
    · simp only [hinit, if_true]
      exact command_bids (.tx _ _ _) rfl rfl
    · simp only [hinit]
      exact command_bids (.rx _ _ _) rfl rfl
  | beacon =>
    dsimp only
    unfold beaconStart
    dsimp only
    split
    · exact .done rfl
    · exact sendCopy_bids 0 _ rfl rfl rfl rfl
  | scan => exact command_bids (.rx _ _ _) rfl rfl
  | track => exact command_bids (.rx _ _ _) rfl rfl
  | joinTx =>
    dsimp only
    unfold joinTxStart
    split
    · exact .done rfl
    · have hcmd : ∀ t, fragCmd psa o (c.setHs { c.hs with wasTx := true, fragIdx := 0 }) t 0 =
          fragCmd psa o ({ c with granted := true }.setHs
            { c.hs with wasTx := true, fragIdx := 0 }) t 0 := by
        intro t
        unfold fragCmd
        rw [← buildFragment_granted o (c.setHs _) true 0]
        rfl
      rw [hcmd]
      exact sendFragment_bids _ 0 rfl rfl
  | joinRx => exact command_bids (.rx _ _ _) rfl rfl
  | chanEval => exact .done (congrArg Prod.fst (Aside.of_quiet (lgChanNoise_quiet _ _ _)).slot)

theorem phyTxDone_bids (airEndUs : ℕ) (hgo : c.granted = true) :
    Bids o c (txDoneCmd psa o c airEndUs) (phyTxDone psa o c airEndUs) := by
  unfold phyTxDone txDoneCmd
  cases hkind : c.ev.kind with
  | link =>
    cases hn : c.ev.neigh with
    | none => exact .done rfl
    | some i =>
      dsimp only
      unfold linkTxDone
      dsimp only
      split
      · exact .done rfl
      · exact command_bids (.rx _ _ _) rfl hgo
  | beacon =>
    dsimp only
    unfold beaconTxDone
    dsimp only
    refine sendCopy_bids _ _ rfl hgo rfl ?_
    split <;> rfl
  | joinTx =>
    dsimp only
    change Bids o c _ (if c.hs.fragIdx + 1 < c.hs.fragTotal then
      sendFragment psa o (c.fragDone airEndUs) (c.hs.fragIdx + 1)
      else lgSchedEventDone (c.fragDone airEndUs))
    split
    · exact sendFragment_bids _ _ rfl hgo
    · exact .done rfl
  | _ => exact .done rfl

theorem noteLinkFrame_tx (c : Node cfg) (i : Fin cfg.maxNeighbors) (rx : RxRec) :
    ((noteLinkFrame c i rx).neigh i).tx = (c.neigh i).tx := by
  unfold noteLinkFrame
  dsimp only
  rw [(lgNeighTxResult_quiet _ i true).neigh]
  have hpost : ∀ d : Node cfg, (lgRxPost d rx).neigh = d.neigh := by
    intro d
    unfold lgRxPost
    split <;> rfl
  have hres : ∀ d : Node cfg, (noteResult d i true).neigh = d.neigh := fun _ => rfl
  rw [hres, hpost, (lgChanResult_quiet _ _ true).neigh, Node.setNeigh_neigh, Function.update_self,
    (lgNeighRxRssi_quiet _ i rx.rssi).neigh]

theorem linkRxDone_bids {i : Fin cfg.maxNeighbors} {rx : RxRec} (hk : c.ev.kind = .link)
    (hn : c.ev.neigh = some i) (hgo : c.granted = true) :
    Bids o c (rxDoneCmd c rx) (linkRxDone o c i rx) := by
  have hnote := (noteLinkFrame_aside c i rx).radio
  simp only [Node.radio, Prod.mk.injEq] at hnote
  obtain ⟨hevst, hev, -, -, -, -, -, -, -, hgo'⟩ := hnote
  have hfirst := noteLinkFrame_txFirst c i rx
  have htx := noteLinkFrame_tx c i rx
  unfold linkRxDone rxDoneCmd
  simp only [hk, hn, hfirst, htx]
  split
  · exact .done hev
  · split
    · exact command_bids (.tx _ _ _) hev (hgo'.trans hgo)
    · exact .done hev

theorem phyRxDone_bids (rx : RxRec) (hgo : c.granted = true) :
    Bids o c (rxDoneCmd c rx) (phyRxDone o c rx) := by
  have hpost := (lgRxPost_aside c rx).radio
  simp only [Node.radio, Prod.mk.injEq] at hpost
  obtain ⟨-, hev, -, -, -, -, -, -, -, hgo'⟩ := hpost
  have hnow : (lgRxPost c rx).nowUs = c.nowUs ∧ (lgRxPost c rx).net = c.net := by
    unfold lgRxPost
    split <;> exact ⟨rfl, rfl⟩
  cases hkind : c.ev.kind with
  | link =>
    cases hn : c.ev.neigh with
    | none =>
      unfold phyRxDone rxDoneCmd
      simp only [hkind, hn]
      exact .done rfl
    | some i =>
      have h : Bids o c (rxDoneCmd c rx) (linkRxDone o c i rx) := linkRxDone_bids hkind hn hgo
      unfold phyRxDone
      simpa only [hkind, hn] using h
  | scan =>
    unfold phyRxDone rxDoneCmd scanRxDone
    simp only [hkind, hnow.2]
    split
    · exact .done hev
    · exact listenOn_bids hev hnow.1 (hgo'.trans hgo)
  | track =>
    unfold phyRxDone rxDoneCmd
    simp only [hkind]
    exact .done ((congrArg Prod.fst (trackResult_aside _ true).slot).trans hev)
  | joinRx =>
    unfold phyRxDone rxDoneCmd
    simp only [hkind]
    exact listenOn_bids hev hnow.1 (hgo'.trans hgo)
  | _ =>
    unfold phyRxDone rxDoneCmd
    simp only [hkind]
    exact .done rfl

theorem phyRxFailed_bids (reason : RxFail) (hgo : c.granted = true) :
    Bids o c (rxFailedCmd c reason) (phyRxFailed o c reason) := by
  have hfail : Bids o c (if reason ≠ .timeout then listenOnCmd c else none)
      (joinRxFail o c reason) := by
    unfold joinRxFail
    split
    · exact listenOn_bids rfl rfl hgo
    · exact .done rfl
  cases hkind : c.ev.kind with
  | link =>
    cases hn : c.ev.neigh with
    | none =>
      unfold phyRxFailed rxFailedCmd
      simp only [hkind, hn]
      exact .done rfl
    | some i =>
      unfold phyRxFailed rxFailedCmd
      simp only [hkind, hn]
      have hchan : (lgChanResult c c.ev.chan false).ev = c.ev :=
        congrArg Prod.fst (Aside.of_quiet (lgChanResult_quiet c _ _)).slot
      have hres : ∀ d : Node cfg, (lgNeighTxResult d i false).ev = d.ev := fun _ => rfl
      unfold linkRxFail
      apply Bids.done
      split_ifs
      · exact (hres _).trans hchan
      · exact hchan
      · exact hres c
      · rfl
  | scan =>
    unfold phyRxFailed rxFailedCmd
    simpa only [hkind] using hfail
  | joinRx =>
    unfold phyRxFailed rxFailedCmd
    simpa only [hkind] using hfail
  | track =>
    unfold phyRxFailed rxFailedCmd
    simp only [hkind]
    exact .done (congrArg Prod.fst (trackResult_aside c false).slot)
  | _ =>
    unfold phyRxFailed rxFailedCmd
    simp only [hkind]
    exact .done rfl

end LockGrid
