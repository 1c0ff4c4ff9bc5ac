import LockGrid.Aside

/-!
# The bookkeeping of link events

What an event leaves for its settlement, in a run in which nothing comes between the two and no
refused event is taken for the one before it: the frame that went out is the one that is staged.
-/
namespace LockGrid

variable {cfg : Config} {psa : Psa}

/-- The bookkeeping agrees with what has been on air. -/
structure Accounted (c : Node cfg) : Prop where
  evst : c.evst.histNo ≤ c.hist.events
  ev : c.ev.histNo ≤ c.hist.events
  started : c.phy ≠ .idle → c.ev.kind = .link → c.evst.histNo = c.ev.histNo
  running : ∀ i, c.ev.kind = .link → c.ev.neigh = some i → c.evst.histNo = c.ev.histNo →
    c.evst.sentTx = true → (c.neigh i).tx.txNeedsAck = true →
    c.hist.aired.head? = some (i.val, (c.neigh i).tx.histStaged)
  ended : ∀ i, c.finishKind = .link → c.finishNeigh = some i → c.evst.gotRx = true →
    c.evst.sentTx = true → (c.neigh i).tx.txNeedsAck = true →
    c.evst.histNo = c.histFinishNo ∧
      c.hist.aired.head? = some (i.val, (c.neigh i).tx.histStaged)
  alone : c.finishKind = .link → c.ev.kind = .none

theorem Accounted.aside {c c' : Node cfg} (h : Accounted c) (ha : Aside c c') : Accounted c' := by
  have hr := ha.radio
  simp only [Node.radio, Prod.mk.injEq] at hr
  obtain ⟨hevst, hev, hfk, hfn, hno, hphy, haired, hevents, -⟩ := hr
  refine ⟨?_, ?_, ?_, fun i hk hn hs htx hack => ?_, fun i hk hn hrx htx hack => ?_, ?_⟩
  · rw [hevst, hevents]
    exact h.evst
  · rw [hev, hevents]
    exact h.ev
  · rw [hevst, hev, hphy]
    exact h.started
  · rw [hev] at hk hn hs
    rw [hevst] at hs htx
    obtain ⟨hack, hst⟩ := ha.owed i hack
    rw [haired, hst]
    exact h.running i hk hn hs htx hack
  · rw [hfk] at hk
    rw [hfn] at hn
    rw [hevst] at hrx htx
    obtain ⟨hack, hst⟩ := ha.owed i hack
    rw [hevst, hno, haired, hst]
    exact h.ended i hk hn hrx htx hack
  · rw [hfk, hev]
    exact h.alone

theorem Accounted.noteResult {c : Node cfg} (h : Accounted c) (i : Fin cfg.maxNeighbors)
    (acked : Bool) : Accounted (noteResult c i acked) :=
  ⟨h.evst, h.ev, h.started, h.running, h.ended, h.alone⟩

/-- The end of an event, when a link event that was never started leaves nothing to release. -/
theorem Accounted.done {c : Node cfg} (h : Accounted c)
    (hfresh : ∀ i, c.ev.kind = .link → c.ev.neigh = some i → c.evst.gotRx = true →
      c.evst.sentTx = true → (c.neigh i).tx.txNeedsAck = true →
      c.evst.histNo = c.ev.histNo) : Accounted (lgSchedEventDone c) := by
  refine ⟨h.evst, h.ev, nofun, nofun, fun i hk hn hrx htx hack => ?_, fun _ => rfl⟩
  have hno := hfresh i hk hn hrx htx hack
  exact ⟨hno, h.running i hk hn hno htx hack⟩

/-- The event at hand, if it is a link event, is the one the bookkeeping is about. -/
structure Underway (c : Node cfg) : Prop extends Accounted c where
  now : c.ev.kind = .link → c.evst.histNo = c.ev.histNo

theorem Accounted.underway {c : Node cfg} (h : Accounted c) (hphy : c.phy ≠ .idle) :
    Underway c := ⟨h, h.started hphy⟩

namespace Underway

variable {c c' : Node cfg}

theorem aside (h : Underway c) (ha : Aside c c') : Underway c' := by
  have hevst := congrArg (fun r => r.1.histNo) ha.radio
  have hev := congrArg (fun r => r.2.1) ha.radio
  simp only [Node.radio] at hevst hev
  exact ⟨h.toAccounted.aside ha, by rw [hevst, hev]; exact h.now⟩

theorem noteResult (h : Underway c) (i : Fin cfg.maxNeighbors) (acked : Bool) :
    Underway (noteResult c i acked) := ⟨h.toAccounted.noteResult i acked, h.now⟩

theorem done (h : Underway c) : Accounted (lgSchedEventDone c) :=
  h.toAccounted.done fun _ hk _ _ _ _ => h.now hk

theorem tune (h : Underway c) (p : Phy) : Accounted { c with phy := p } :=
  ⟨h.evst, h.ev, fun _ => h.now, h.running, h.ended, h.alone⟩

theorem command (h : Underway c) (o : Oracle) (p : Phy) : Accounted (command o c p) := by
  unfold LockGrid.command
  split
  · exact h.tune p
  · exact h.done

end Underway

/-! ## Other events -/

/-- How the handlers of the other events end: some work, and then the radio is told what to do
next or the event is over. -/
inductive Winds (c : Node cfg) : Node cfg → Prop
  | on {d} (h : Aside c d) : Winds c d
  | tuned {d} (h : Aside c d) (p : Phy) : Winds c { d with phy := p }
  | done {d} (h : Aside c d) : Winds c (lgSchedEventDone d)

theorem Winds.accounted {c c' : Node cfg} (hw : Winds c c') (h : Accounted c)
    (hk : c.ev.kind ≠ .link) : Accounted c' := by
  have hu : Underway c := ⟨h, fun hl => absurd hl hk⟩
  cases hw with
  | on ha => exact h.aside ha
  | tuned ha p => exact (hu.aside ha).tune p
  | done ha => exact (hu.aside ha).done

theorem Winds.command {c d : Node cfg} (ha : Aside c d) (o : Oracle) (p : Phy) :
    Winds c (command o d p) := by
  unfold LockGrid.command
  split
  · exact .tuned ha p
  · exact .done ha

theorem Aside.winds {c d d' : Node cfg} (ha : Aside c d) (hw : Winds d d') : Winds c d' := by
  cases hw with
  | on h => exact .on (ha.trans h)
  | tuned h p => exact .tuned (ha.trans h) p
  | done h => exact .done (ha.trans h)

theorem sendCopy_winds (o : Oracle) (c : Node cfg) (k : ℕ) {d : Node cfg} (h : Winds c d) :
    Winds c (sendCopy o c k d) := by
  unfold sendCopy
  split
  · split
    · exact h
    · exact .tuned (.refl c) _
  · exact h

theorem beaconStart_winds (o : Oracle) (c : Node cfg) : Winds c (beaconStart o c) := by
  have ha : Aside c { c with net := { c.net with beaconCopyIdx := 0 } } := .of_neigh_eq rfl rfl
  unfold beaconStart
  dsimp only
  split
  · exact .done (.of_neigh_eq rfl rfl)
  · exact ha.winds (sendCopy_winds o _ 0 (.done (.refl _)))

theorem beaconTxDone_winds (o : Oracle) (c : Node cfg) (airEndUs : ℕ) :
    Winds c (beaconTxDone o c airEndUs) := by
  have ha : Aside c { c with net := { c.net with beaconCopyIdx := c.net.beaconCopyIdx + 1 } } :=
    .of_neigh_eq rfl rfl
  unfold beaconTxDone
  refine ha.winds (sendCopy_winds o _ _ (.done ?_))
  split
  · exact .of_neigh_eq rfl rfl
  · exact .refl _

theorem buildFragment_aside (psa : Psa) (o : Oracle) (c : Node cfg) (idx : ℕ) :
    Aside c (buildFragment psa o c idx).2 := by
  unfold buildFragment
  split
  · exact .refl c
  · next i _ =>
    dsimp only
    have ht : Aside c (c.setTx i
        { (c.neigh i).tx with txSeq := (c.neigh i).tx.txSeq + 1 }) :=
      .setNeigh c i _ fun h => ⟨h, rfl⟩
    split
    · split <;> next he =>
        exact ht.trans (congrArg Prod.snd he ▸ lgSecEncrypt_aside psa (o.ok .encrypt) _ i _ _)
    · exact ht

theorem sendFragment_winds (psa : Psa) (o : Oracle) (c : Node cfg) (idx : ℕ) :
    Winds c (sendFragment psa o c idx) := by
  have ha := (buildFragment_aside psa o c idx).trans (setHs_aside _
    { (buildFragment psa o c idx).2.hs with lastTxLen := (buildFragment psa o c idx).1.length })
  unfold sendFragment
  dsimp only
  split
  · exact .done ha
  · exact .command ha o .tx

theorem joinTxStart_winds (psa : Psa) (o : Oracle) (c : Node cfg) :
    Winds c (joinTxStart psa o c) := by
  unfold joinTxStart
  split
  · exact .done (.refl c)
  · exact (setHs_aside c _).winds (sendFragment_winds psa o _ 0)

theorem joinTxDone_winds (psa : Psa) (o : Oracle) (c : Node cfg) (airEndUs : ℕ) :
    Winds c (joinTxDone psa o c airEndUs) := by
  unfold joinTxDone
  dsimp only
  split
  · exact (setHs_aside c _).winds (sendFragment_winds psa o _ _)
  · exact .done (setHs_aside c _)

theorem joinRxStart_winds (o : Oracle) (c : Node cfg) : Winds c (joinRxStart o c) :=
  .command (setHs_aside c _) o .rx

theorem listenOn_winds (o : Oracle) (c : Node cfg) : Winds c (listenOn o c) := by
  unfold listenOn
  split
  · exact .command (.refl c) o .rx
  · exact .done (.refl c)

theorem joinRxDone_winds (o : Oracle) (c : Node cfg) (rx : RxRec) :
    Winds c (joinRxDone o c rx) := (lgRxPost_aside c rx).winds (listenOn_winds o _)

theorem joinRxFail_winds (o : Oracle) (c : Node cfg) (reason : RxFail) :
    Winds c (joinRxFail o c reason) := by
  unfold joinRxFail
  split
  · exact listenOn_winds o c
  · exact .done (.refl c)

theorem scanRxDone_winds (o : Oracle) (c : Node cfg) (rx : RxRec) :
    Winds c (scanRxDone o c rx) := by
  have ha := lgRxPost_aside c rx
  unfold scanRxDone
  dsimp only
  split
  · exact .done (ha.trans (.of_neigh_eq rfl rfl))
  · exact ha.winds (listenOn_winds o _)

theorem trackResult_aside (c : Node cfg) (heard : Bool) : Aside c (trackResult c heard) := by
  unfold trackResult
  split
  · exact .of_quiet (lgDiscTrackResult_quiet c _ heard)
  · exact .refl c

/-! ## Link events -/

theorem linkStart_accounted {c : Node cfg} (h : Accounted c) (hk : c.ev.kind = .link)
    (o : Oracle) (i : Fin cfg.maxNeighbors) : Accounted (linkStart o c i) := by
  have hfin : c.finishKind ≠ .link := by
    intro hf
    rw [h.alone hf] at hk
    cases hk
  let d : Node cfg := { c with evst := {
    txFirst := (c.neigh i).sched.initiator, gotRx := false, sentTx := false,
    histNo := c.ev.histNo } }
  have hd : Accounted d :=
    ⟨h.ev, h.ev, fun _ _ => rfl, fun _ _ _ _ htx => Bool.noConfusion htx,
      fun _ hf => absurd hf hfin, h.alone⟩
  have hu : Underway d := ⟨hd, fun _ => rfl⟩
  exact hu.command o _

/-- A frame of the link event with neighbour `i` has gone out. -/
theorem Underway.sent {c : Node cfg} {i : Fin cfg.maxNeighbors} (h : Underway c)
    (hk : c.ev.kind = .link) (hn : c.ev.neigh = some i) :
    Underway { c with
      evst := { c.evst with sentTx := true }
      hist := { c.hist with aired := (i.val, (c.neigh i).tx.histStaged) :: c.hist.aired } } := by
  refine ⟨⟨h.evst, h.ev, fun _ _ => h.now hk, fun j _ hj _ _ _ => ?_, fun j hf => ?_, h.alone⟩,
    fun _ => h.now hk⟩
  · rw [hn] at hj
    cases hj
    rfl
  · rw [h.alone hf] at hk
    cases hk

/-- A frame has come in during the link event. -/
theorem Underway.got {c : Node cfg} (h : Underway c) (hk : c.ev.kind = .link) :
    Underway { c with evst := { c.evst with gotRx := true } } := by
  refine ⟨⟨h.evst, h.ev, h.started, h.running, fun j hf => ?_, h.alone⟩, h.now⟩
  rw [h.alone hf] at hk
  cases hk

theorem linkTxDone_accounted {c : Node cfg} {i : Fin cfg.maxNeighbors} (h : Underway c)
    (hk : c.ev.kind = .link) (hn : c.ev.neigh = some i) (o : Oracle) :
    Accounted (linkTxDone o c i) := by
  have hsent := h.sent hk hn
  unfold linkTxDone
  dsimp only
  split
  · exact hsent.done
  · exact hsent.command o _

/-- What is folded into a metric leaves the rest of the bookkeeping alone. -/
theorem noteResult_aside {c d : Node cfg} (h : Aside c d) (i : Fin cfg.maxNeighbors)
    (acked : Bool) : Aside (noteResult c i acked) (noteResult d i acked) := by
  have hr := h.radio
  simp only [Node.radio, Prod.mk.injEq] at hr
  exact ⟨by simp [Node.radio, noteResult, hr], h.owed⟩

theorem noteLinkFrame_aside (c : Node cfg) (i : Fin cfg.maxNeighbors) (rx : RxRec) :
    Aside (noteResult { c with evst := { c.evst with gotRx := true } } i true)
      (noteLinkFrame c i rx) := by
  refine .trans (noteResult_aside ?_ i true) (.of_quiet (lgNeighTxResult_quiet _ i true))
  refine .trans ?_ (lgRxPost_aside _ rx)
  refine .trans ?_ (.of_quiet (lgChanResult_quiet _ _ true))
  refine .trans (.of_quiet (lgNeighRxRssi_quiet _ i rx.rssi)) ?_
  exact .keep _ i _ rfl

theorem linkRxDone_accounted {c : Node cfg} (h : Underway c) (hk : c.ev.kind = .link)
    (o : Oracle) (i : Fin cfg.maxNeighbors) (rx : RxRec) :
    Accounted (linkRxDone o c i rx) := by
  have hnote := ((h.got hk).noteResult i true).aside (noteLinkFrame_aside c i rx)
  have hsched : ∀ s, Underway ((noteLinkFrame c i rx).setNeigh i
      { (noteLinkFrame c i rx).neigh i with sched := s }) :=
    fun s => hnote.aside (.keep _ i _ rfl)
  unfold linkRxDone
  dsimp only
  split
  · exact (hsched _).done
  · split
    · exact (hsched _).command o _
    · exact (hsched _).done

theorem linkRxFail_accounted {c : Node cfg} (h : Underway c) (i : Fin cfg.maxNeighbors)
    (reason : RxFail) : Accounted (linkRxFail c i reason) := by
  have hres : ∀ {d}, Underway d → Underway (lgNeighTxResult d i false) :=
    fun hd => (hd.noteResult i false).aside (.of_quiet (lgNeighTxResult_quiet _ i false))
  have hq : Underway (lgChanResult c c.ev.chan false) :=
    h.aside (.of_quiet (lgChanResult_quiet c _ _))
  unfold linkRxFail
  refine Underway.done ?_
  split_ifs
  · exact hres hq
  · exact hq
  · exact hres h
  · exact h

/-! ## The scheduler -/

theorem lgLinkStageTx_radio (psa : Psa) (ok : Bool) (c : Node cfg) (i : Fin cfg.maxNeighbors) :
    (lgLinkStageTx psa ok c i).2.radio = c.radio := by
  have hseal : ∀ (c : Node cfg) t more body staged,
      (stageSeal psa ok c i t more body staged).2.radio = c.radio := by
    intro c t more body staged
    unfold stageSeal
    dsimp only
    split <;> next he =>
      have hr := congrArg Prod.snd he ▸ (lgSecEncrypt_aside psa ok _ i _ _).radio
      exact hr
  rcases lgLinkStageTx_cases psa ok c i with h | ⟨t, staged, d, ft, more, body, -, hq, h⟩ <;>
    rw [h]
  rw [hseal]
  exact (Aside.of_quiet hq).radio

theorem settleOutcome_radio (o : Oracle) (c : Node cfg) (i : Fin cfg.maxNeighbors) :
    (settleOutcome o c i).radio =
      (if c.evst.gotRx then c else noteResult c i false).radio := by
  have hq := (Aside.of_quiet (lgTxqPeek_quiet c (c.neigh i).addr)).radio
  unfold settleOutcome
  dsimp only
  cases hrx : c.evst.gotRx with
  | false => exact (lgLinkEventMiss_aside o c i).radio
  | true =>
    rw [if_neg (by simp), if_pos rfl]
    split
    · split <;> exact hq
    · rfl

theorem subrateUpdateLink_radio (c : Node cfg) (i : Fin cfg.maxNeighbors) :
    (subrateUpdateLink c i).radio = c.radio := by
  unfold subrateUpdateLink
  dsimp only
  split
  · rfl
  · exact (Aside.of_quiet (lgTxqPeek_quiet c (c.neigh i).addr)).radio

theorem lgLinkEventFinish_radio (psa : Psa) (o : Oracle) (c : Node cfg)
    (i : Fin cfg.maxNeighbors) : (lgLinkEventFinish psa o c i).radio =
      (if c.evst.gotRx then c else noteResult c i false).radio := by
  unfold lgLinkEventFinish
  dsimp only
  split
  · exact settleOutcome_radio o c i
  · rw [lgLinkStageTx_radio, subrateUpdateLink_radio]
    exact settleOutcome_radio o c i

theorem neighCandidates_aside {c : Node cfg} {r : List (Candidate cfg) × Node cfg}
    (h : neighCandidates c = some r) : Aside c r.2 := by
  have hone : ∀ (c : Node cfg) l i r, neighCandidate c l i = some r → Aside c r.2 := by
    intro c l i r h
    unfold neighCandidate at h
    dsimp only at h
    split at h
    · obtain ⟨⟨n, t⟩, hn, rfl⟩ := Option.map_eq_some_iff.mp h
      unfold lgLinkNextEventUs at hn
      split at hn
      · cases hn
        exact .keep c i _ rfl
      · obtain ⟨s, -, hs⟩ := Option.map_eq_some_iff.mp hn
        cases hs
        exact .keep c i _ rfl
    · cases h
      exact .refl c
    · cases h
      exact .refl c
  have hfold : ∀ (l : List (Fin cfg.maxNeighbors)) (st r : List (Candidate cfg) × Node cfg),
      l.foldlM (fun st i => neighCandidate st.2 st.1 i) st = some r → Aside st.2 r.2 := by
    intro l
    induction l with
    | nil =>
      intro st r h
      cases h
      exact .refl _
    | cons i l ih =>
      intro st r h
      rw [List.foldlM_cons] at h
      obtain ⟨st', hst, h⟩ := Option.bind_eq_some_iff.mp h
      exact (hone _ _ _ _ hst).trans (ih st' r h)
  exact hfold _ ([], c) r h

theorem candidates_aside {c : Node cfg} {r : List (Candidate cfg) × Node cfg}
    (h : candidates c = some r) : Aside c r.2 := by
  obtain ⟨⟨l, d⟩, hd, rfl⟩ := Option.map_eq_some_iff.mp h
  exact (neighCandidates_aside hd).trans (.of_quiet (dropStaleTracks_quiet d))

theorem dropLate_aside {o : Oracle} {c c' : Node cfg} {cand : Candidate cfg}
    (h : dropLate psa o c cand = some c') : Aside c c' := by
  unfold dropLate at h
  split at h
  · cases h
    exact .keep c _ _ rfl
  · cases h
    exact .of_quiet (lgDiscBeaconFinish_quiet psa o c)
  · cases h
    exact .of_quiet (lgDiscScanFinish_quiet o c)
  · cases h
    exact .of_quiet (lgDiscTrackResult_quiet c _ false)
  · cases h
    exact .of_neigh_eq rfl rfl
  · exact lgJoinEventFinish_aside h
  · exact lgJoinEventFinish_aside h
  · cases h
    exact .refl c

theorem stageFor_radio (psa : Psa) (o : Oracle) (c : Node cfg) (cand : Candidate cfg) :
    (stageFor psa o c cand).2.radio = c.radio := by
  unfold stageFor
  split
  · split
    · rfl
    · dsimp only
      split <;> exact lgLinkStageTx_radio psa (o.ok .encrypt) c _
  · rfl

/-- No event is on, and none is waiting to be settled that could release a message. -/
structure Parked (c : Node cfg) : Prop where
  ev : c.ev.kind = .none
  phy : c.phy = .idle
  finish : c.finishKind ≠ .link
  bounds : c.evst.histNo ≤ c.hist.events ∧ c.ev.histNo ≤ c.hist.events

theorem Parked.of_radio {c c' : Node cfg} (h : Parked c) (hr : c'.radio = c.radio) :
    Parked c' := by
  simp only [Node.radio, Prod.mk.injEq] at hr
  obtain ⟨hevst, hev, hfk, -, -, hphy, -, hevents, -⟩ := hr
  exact ⟨by rw [hev]; exact h.ev, by rw [hphy]; exact h.phy, by rw [hfk]; exact h.finish,
    by rw [hevst, hev, hevents]; exact h.bounds⟩

theorem Parked.accounted {c : Node cfg} (h : Parked c) : Accounted c := by
  refine ⟨h.bounds.1, h.bounds.2, fun hp => absurd h.phy hp, fun i hk => ?_,
    fun i hf => absurd hf h.finish, fun hf => absurd hf h.finish⟩
  rw [h.ev] at hk
  cases hk

/-- A request names an event that nothing in the bookkeeping is about yet. -/
theorem requestEvent_accounted {o : Oracle} {c c' : Node cfg} {cand : Candidate cfg}
    (h : Parked c) (hr : requestEvent psa o c cand = some c') : Accounted c' := by
  have hp := h.of_radio (Aside.of_quiet (eventPlan_quiet c cand)).radio
  unfold requestEvent at hr
  dsimp only at hr
  split at hr
  · exact (hp.of_radio (dropLate_aside hr).radio).accounted
  · split at hr <;> cases hr
    · exact hp.accounted
    · have hb := hp.bounds.1
      refine ⟨Nat.le_succ_of_le hb, le_refl _, fun hphy => absurd hp.phy hphy,
        fun i _ _ hno => ?_, fun i hf => absurd hf hp.finish, fun hf => absurd hf hp.finish⟩
      exact absurd hno (Nat.ne_of_lt (Nat.lt_succ_of_le hb))

theorem schedPick_accounted {o : Oracle} {c c' : Node cfg} (h : Accounted c)
    (hf : c.finishKind ≠ .link) (hp : schedPick psa o c = some c') : Accounted c' := by
  unfold schedPick at hp
  split at hp
  · cases hp
    exact h
  · next hguard =>
    simp only [Bool.or_eq_true, decide_eq_true_eq, not_or, not_not] at hguard
    have hpark : Parked c := ⟨hguard.1.1.2, hguard.2, hf, h.evst, h.ev⟩
    split at hp
    · cases hp
    · next l d hc =>
      have hr : d.radio = c.radio := (candidates_aside hc).radio
      split at hp
      · cases hp
        exact (hpark.of_radio hr).accounted
      · next cand _ =>
        have hs := hpark.of_radio ((stageFor_radio psa o d cand).trans hr)
        dsimp only at hp
        split at hp
        · exact requestEvent_accounted hs hp
        · cases hp
          exact hs.accounted

/-- What settling an event that is over leaves accounted for. -/
theorem Accounted.settled {c c' : Node cfg} (h : Accounted c) (hr : c'.radio = c.radio)
    (hown : c.finishKind ≠ .link → Aside c c') :
    Accounted { c' with finishKind := .none, finishNeigh := none } := by
  by_cases hf : c.finishKind = .link
  · have hev : c'.ev.kind = .none := (congrArg (fun r => r.2.1.kind) hr).trans (h.alone hf)
    have hb := h.evst
    have hb' := h.ev
    simp only [Node.radio, Prod.mk.injEq] at hr
    obtain ⟨hevst, he, -, -, -, -, -, hevents, -⟩ := hr
    refine ⟨by rw [hevst, hevents]; exact hb, by rw [he, hevents]; exact hb', fun _ hk => ?_,
      fun i hk => ?_, nofun, nofun⟩
    all_goals
      rw [hev] at hk
      cases hk
  · have ha := h.aside (hown hf)
    exact ⟨ha.evst, ha.ev, ha.started, ha.running, nofun, nofun⟩

theorem announceMap_aside (c : Node cfg) : Aside c (announceMap c) := by
  refine .keep_map c _ fun i => ?_
  dsimp only
  split <;> rfl

theorem finishChanEval_aside (c : Node cfg) : Aside c (finishChanEval c) := by
  have hq := Aside.of_quiet (lgChanReevaluate_quiet c)
  unfold finishChanEval
  dsimp only
  split
  · exact (hq.trans (announceMap_aside _)).trans (.of_neigh_eq rfl rfl)
  · exact hq.trans (.of_neigh_eq rfl rfl)

/-- The settlement of a link event in which no frame came in folds a failure into the metric. -/
def missNoted (c : Node cfg) : Node cfg :=
  match c.finishKind, c.finishNeigh with
  | .link, some i => if c.evst.gotRx then c else noteResult c i false
  | _, _ => c

theorem missNoted_cases (c : Node cfg) :
    missNoted c = c ∨ ∃ i, missNoted c = noteResult c i false := by
  unfold missNoted
  split
  · split
    · exact .inl rfl
    · exact .inr ⟨_, rfl⟩
  · exact .inl rfl

theorem Accounted.missNoted {c : Node cfg} (h : Accounted c) : Accounted (missNoted c) := by
  rcases missNoted_cases c with hc | ⟨i, hc⟩ <;> rw [hc]
  · exact h
  · exact h.noteResult i false

theorem settle_radio {o : Oracle} {c c' : Node cfg} (h : settle psa o c = some c') :
    c'.radio = (missNoted c).radio ∧
      ((missNoted c).finishKind ≠ .link → Aside (missNoted c) c') := by
  have hside : ∀ {d}, missNoted c = c → Aside c d →
      d.radio = (missNoted c).radio ∧
        ((missNoted c).finishKind ≠ .link → Aside (missNoted c) d) :=
    fun hm ha => hm.symm ▸ ⟨ha.radio, fun _ => ha⟩
  unfold settle at h
  split at h
  · next hk =>
    split at h <;> cases h
    · next i hi =>
      have hm : missNoted c = if c.evst.gotRx then c else noteResult c i false := by
        simp only [missNoted, hk, hi]
      refine ⟨hm ▸ lgLinkEventFinish_radio psa o c i, fun hne => absurd ?_ hne⟩
      rw [hm]
      split <;> exact hk
    · next hi => exact hside (by simp only [missNoted, hk, hi]) (.refl c)
  all_goals
    next hk =>
    refine hside (by simp only [missNoted, hk]) ?_
    first
      | exact lgJoinEventFinish_aside h
      | cases h
        first
          | exact .of_quiet ((lgDiscBeaconFinish_quiet psa o c).trans (lgRoleEvaluate_quiet o _))
          | exact .of_quiet ((lgDiscScanFinish_quiet o c).trans (lgRoleEvaluate_quiet o _))
          | exact finishChanEval_aside c
          | exact .refl c

/-! ## Runs -/

/-- When a step is orderly: the scheduler does not pick between the end of a link event and its
settlement, and a link event is not refused while the bookkeeping of the one before says that
frames went both ways and its link is owed an acknowledgement. -/
def Orderly (c : Node cfg) : Input → Prop
  | .schedWork => c.finishKind ≠ .link
  | .refused => c.ev.kind = .link → ∀ i ∈ c.ev.neigh,
      ¬ (c.evst.gotRx = true ∧ c.evst.sentTx = true ∧ (c.neigh i).tx.txNeedsAck = true)
  | _ => True

theorem tsGranted_accounted {c : Node cfg} (h : Accounted c) (o : Oracle) :
    Accounted (tsGranted psa o c) := by
  have hg : ∀ g, Accounted { c with granted := g } :=
    fun g => ⟨h.evst, h.ev, h.started, h.running, h.ended, h.alone⟩
  have hw : ∀ {d}, c.ev.kind ≠ .link → Winds { c with granted := true } d → Accounted d :=
    fun hk hd => hd.accounted (hg true) hk
  unfold tsGranted
  dsimp only
  split
  · next hk _ => exact linkStart_accounted (hg true) hk o _
  · next hk => exact hw (by simp [hk]) (beaconStart_winds o _)
  · next hk => exact hw (by simp [hk]) (.command (.refl _) o .rx)
  · next hk => exact hw (by simp [hk]) (.command (.refl _) o .rx)
  · next hk => exact hw (by simp [hk]) (joinTxStart_winds psa o _)
  · next hk => exact hw (by simp [hk]) (joinRxStart_winds o _)
  · next hk => exact hw (by simp [hk]) (.done (.of_quiet (lgChanNoise_quiet _ _ _)))
  · exact hg false

theorem tsFailed_accounted {c : Node cfg} (h : Accounted c) (ho : Orderly c .refused)
    (o : Oracle) : Accounted (tsFailed o c) := by
  unfold tsFailed
  split
  · exact h
  · next i hk hn =>
    have ha := lgLinkEventMiss_aside o c i
    have hr := ha.radio
    simp only [Node.radio, Prod.mk.injEq] at hr
    obtain ⟨hevst, hev, -⟩ := hr
    refine ((h.noteResult i false).aside ha).done fun j _ hj hrx htx hack => ?_
    -- the event was never started, and what the last one left releases nothing
    have hij : i = j := by
      change (lgLinkEventMiss o c i).ev.neigh = some j at hj
      rw [hev] at hj
      exact Option.some.inj (hn.symm.trans hj)
    subst hij
    change (lgLinkEventMiss o c i).evst.gotRx = true at hrx
    change (lgLinkEventMiss o c i).evst.sentTx = true at htx
    rw [hevst] at hrx htx
    exact absurd ⟨hrx, htx, (ha.owed i hack).1⟩ (ho hk i hn)
  · next hk => exact (Winds.done (trackResult_aside c false)).accounted h (by simp [hk])
  · next hk => exact (Winds.done (setHs_aside c _)).accounted h (by simp [hk])
  · next hk => exact (Winds.done (setHs_aside c _)).accounted h (by simp [hk])
  · next hk =>
    refine h.done fun i hl hn => ?_
    exact absurd hn (hk i hl)

theorem phyTxDone_accounted {c : Node cfg} (h : Underway c) (o : Oracle) (airEndUs : ℕ) :
    Accounted (phyTxDone psa o c airEndUs) := by
  unfold phyTxDone
  split
  · next hk hn => exact linkTxDone_accounted h hk hn o
  · next hk => exact (beaconTxDone_winds o c airEndUs).accounted h.toAccounted (by simp [hk])
  · next hk => exact (joinTxDone_winds psa o c airEndUs).accounted h.toAccounted (by simp [hk])
  · exact h.done

theorem phyRxDone_accounted {c : Node cfg} (h : Underway c) (o : Oracle) (rx : RxRec) :
    Accounted (phyRxDone o c rx) := by
  unfold phyRxDone
  split
  · next hk _ => exact linkRxDone_accounted h hk o _ rx
  · next hk => exact (scanRxDone_winds o c rx).accounted h.toAccounted (by simp [hk])
  · exact (h.aside ((lgRxPost_aside c rx).trans (trackResult_aside _ true))).done
  · next hk => exact (joinRxDone_winds o c rx).accounted h.toAccounted (by simp [hk])
  · exact h.done

theorem phyRxFailed_accounted {c : Node cfg} (h : Underway c) (o : Oracle) (reason : RxFail) :
    Accounted (phyRxFailed o c reason) := by
  unfold phyRxFailed
  split
  · exact linkRxFail_accounted h _ reason
  · next hk => exact (joinRxFail_winds o c reason).accounted h.toAccounted (by simp [hk])
  · next hk => exact (joinRxFail_winds o c reason).accounted h.toAccounted (by simp [hk])
  · exact (h.aside (trackResult_aside c false)).done
  · exact h.done

/-- What handling a received frame may do to the event at hand: no more than end a scan. -/
inductive Spares (c : Node cfg) : Node cfg → Prop
  | on {d} (h : Aside c d) : Spares c d
  | abort {d} (hk : c.ev.kind = .scan) (h : Aside c d) : Spares c (lgSchedEventDone d)

theorem Spares.accounted {c c' : Node cfg} (hs : Spares c c') (h : Accounted c) :
    Accounted c' := by
  cases hs with
  | on ha => exact h.aside ha
  | abort hk ha => exact (Winds.done ha).accounted h (by simp [hk])

theorem Aside.spares {c d d' : Node cfg} (ha : Aside c d) (hs : Spares d d') : Spares c d' := by
  cases hs with
  | on h => exact .on (ha.trans h)
  | abort hk h =>
    have hev := congrArg (fun r => r.2.1.kind) ha.radio
    simp only [Node.radio] at hev
    exact .abort (hev ▸ hk) (ha.trans h)

/-- Aiming at a join window may end a scan. -/
theorem aimAt_spares (o : Oracle) (c : Node cfg) (i : Fin cfg.maxNeighbors) (b : Beacon)
    (airStartUs : ℕ) : Spares c (aimAt o c i b airStartUs) := by
  unfold aimAt
  dsimp only
  split <;> next he =>
    have ha := (setJoin_aside c i _).trans (congrArg Prod.snd he ▸ lgJoinStart_aside o _ i)
    first
      | exact .on ha
      | refine ha.spares ?_
        unfold lgSchedAbort
        split
        · next hab => exact .abort hab.1 (.refl _)
        · exact .on (.refl _)

theorem beaconEntry_aside (o : Oracle) (c : Node cfg) (b : Beacon) (src : Addr) (rssi : ℤ) :
    Aside c (beaconEntry o c b src rssi).2 := by
  unfold beaconEntry
  split
  · exact .refl c
  · split
    · exact admitJoiner_aside o c src
    · exact .refl c

theorem acceptBeacon_spares (o : Oracle) (c : Node cfg) (b : Beacon) (src : Addr) (rssi : ℤ)
    (airStartUs : ℕ) : Spares c (acceptBeacon o c b src rssi airStartUs) := by
  have hentry := (Aside.of_quiet (noteBeacon_quiet o c b src)).trans
    (beaconEntry_aside o (noteBeacon o c b src) b src rssi)
  unfold acceptBeacon
  dsimp only
  split
  · next d he =>
    rw [he] at hentry
    exact .on hentry
  · next i d he =>
    rw [he] at hentry
    have hs := hentry.trans (.of_quiet (noteSender_quiet d i b rssi airStartUs))
    split
    · exact .on hs
    · split
      · exact .on hs
      · exact hs.spares (aimAt_spares o _ i b airStartUs)

theorem dispatch_spares {o : Oracle} {c c' : Node cfg} {rx : RxRec}
    (h : dispatch psa o c rx = some c') : Spares c c' := by
  unfold dispatch at h
  split at h
  · cases h
    exact .on (.refl c)
  · split at h
    · cases h
      exact .on (.refl c)
    · split at h
      · cases h
        unfold lgDiscBeaconRx
        split
        · exact .on (.refl c)
        · split
          · exact .on (.refl c)
          · dsimp only
            split
            · exact .on (.refl c)
            · exact acceptBeacon_spares o c _ _ _ _
      · split at h
        · exact .on (lgJoinRxPdu_aside h)
        · cases h
          exact .on (dispatchLink_aside psa o c _ _)
      · cases h
        exact .on (dispatchLink_aside psa o c _ _)

theorem rxHandler_spares {o : Oracle} {c c' : Node cfg} (h : rxHandler psa o c = some c') :
    Spares c c' := by
  unfold rxHandler at h
  split at h
  · cases h
    exact .on (.refl c)
  · next rx rest _ =>
    have hrest : Aside c { c with rxRing := rest } := .of_neigh_eq rfl rfl
    exact hrest.spares (dispatch_spares h)

theorem lgStart_accounted {c : Node cfg} (h : Accounted c) (o : Oracle) :
    Accounted (lgStart psa o c) := by
  unfold lgStart
  split
  · exact h
  · split
    · exact h
    · refine Accounted.aside ?_ (.of_quiet (lgDiscBeaconFinish_quiet psa o _))
      refine Accounted.aside ?_ (.of_quiet (lgRoleEvaluate_quiet o _))
      refine Accounted.aside ?_ (.of_quiet ⟨_, _, rfl⟩)
      exact ⟨h.evst, h.ev, nofun, nofun, h.ended, fun _ => rfl⟩

theorem stopLinks_aside (o : Oracle) (l : List (Fin cfg.maxNeighbors)) (c : Node cfg) :
    Aside c (stopLinks o l c) := by
  induction l generalizing c with
  | nil => exact .refl c
  | cons i l ih => exact (lgLinkDown_aside _ c i).trans (ih _)

theorem lgStop_accounted {c : Node cfg} (h : Accounted c) (o : Oracle) :
    Accounted (lgStop o c) := by
  unfold lgStop
  split
  · exact h
  · have hd := h.aside (stopLinks_aside o (List.finRange cfg.maxNeighbors) c)
    exact ⟨hd.evst, hd.ev, nofun, nofun, hd.ended, fun _ => rfl⟩

/-- Every orderly step keeps the bookkeeping in agreement with what has been on air. -/
theorem StepWhen.accounted {c c' : Node cfg} (h : StepWhen psa Orderly c c')
    (ha : Accounted c) : Accounted c' := by
  obtain ⟨inp, o, he, ho, hp⟩ := h
  cases inp with
  | schedWork => exact schedPick_accounted ha ho hp
  | finishWork o' =>
    simp only [perform, schedFinish] at hp
    split at hp
    · cases hp
    · next d hd =>
      obtain ⟨hr, hside⟩ := settle_radio hd
      exact schedPick_accounted (ha.missNoted.settled hr hside) nofun hp
  | rxWork => exact (rxHandler_spares hp).accounted ha
  | tick us =>
    cases hp
    exact ha.aside (.of_neigh_eq rfl rfl)
  | granted =>
    cases hp
    exact tsGranted_accounted ha o
  | refused =>
    cases hp
    exact tsFailed_accounted ha ho o
  | txDone airEndUs =>
    cases hp
    have hphy : c.phy = .tx := he
    exact phyTxDone_accounted (ha.underway (by simp [hphy])) o airEndUs
  | rxDone rx =>
    cases hp
    have hphy : c.phy = .rx := he
    exact phyRxDone_accounted (ha.underway (by simp [hphy])) o rx
  | rxFailed reason =>
    cases hp
    have hphy : c.phy = .rx := he
    exact phyRxFailed_accounted (ha.underway (by simp [hphy])) o reason
  | send dst port payload flags =>
    cases hp
    exact ha.aside (lgSend_aside c dst port payload flags)
  | backhaulSet up =>
    cases hp
    exact ha.aside (.of_quiet (lgBackhaulSet_quiet o c up))
  | tuningSet t =>
    cases hp
    exact ha.aside (.of_quiet (.trans ⟨_, _, rfl⟩ (lgDiscRetune_quiet o 0 _)))
  | start =>
    cases hp
    exact lgStart_accounted ha o
  | stop =>
    cases hp
    exact lgStop_accounted ha o

theorem Node.boot_accounted (ident : Identity) : Accounted (Node.boot cfg ident) :=
  ⟨le_refl _, le_refl _, fun h => absurd rfl h, nofun, nofun, nofun⟩

theorem ReachableWhen.accounted {ident : Identity} {c : Node cfg}
    (h : ReachableWhen psa ident Orderly c) : Accounted c := by
  induction h with
  | refl => exact Node.boot_accounted ident
  | tail _ hs ih => exact hs.accounted ih

end LockGrid
