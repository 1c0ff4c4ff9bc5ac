import LockGrid.Handshake

/-!
# Every step of a node is steps of its key store

The slots of a handshake, the scheduler, the beacons and the application's calls. Whatever a step
is, it comes down to work beside the handshake, the start of a handshake, the end of one of its
slots or a frame of one; and so to steps of the key store.
-/
namespace LockGrid

variable {cfg : Config} {psa : Psa}

/-- A piece of a step in which no frame is received. -/
inductive Piece (psa : Psa) : Node cfg → Node cfg → Prop
  | work {c c'} (h : Works psa c c') : Piece psa c c'
  | begin (o : Oracle) {c} (i : Fin cfg.maxNeighbors) (h : (c.neigh i).state ≠ .free) :
    Piece psa c (lgJoinStart o c i).2
  | slot (o : Oracle) {c c'} (h : lgJoinEventFinish o c = some c') : Piece psa c c'

abbrev Pieces (psa : Psa) : Node cfg → Node cfg → Prop := Relation.ReflTransGen (Piece psa)

theorem Works.pieces {c c' : Node cfg} (h : Works psa c c') : Pieces psa c c' := .single (.work h)

/-! ## Slots -/

theorem buildFragment_works (psa : Psa) (o : Oracle) (c : Node cfg) (idx : ℕ) :
    Works psa c (buildFragment psa o c idx).2 := by
  unfold buildFragment
  split
  · exact .refl c
  · next i _ =>
    dsimp only
    have ht := setTx_works psa c i { (c.neigh i).tx with txSeq := (c.neigh i).tx.txSeq + 1 }
    split
    · split <;> next he =>
        have hs := congrArg Prod.snd he ▸ lgSecEncrypt_works psa (o.ok .encrypt) _ i _ _
        exact ht.trans hs
    · exact ht

theorem sendFragment_works (psa : Psa) (o : Oracle) (c : Node cfg) (idx : ℕ) :
    Works psa c (sendFragment psa o c idx) := by
  have hlen : Works psa (buildFragment psa o c idx).2
      ((buildFragment psa o c idx).2.setHs { (buildFragment psa o c idx).2.hs with
        lastTxLen := (buildFragment psa o c idx).1.length }) := .of_vault_eq rfl rfl rfl rfl
  have hb := (buildFragment_works psa o c idx).trans hlen
  unfold sendFragment
  dsimp only
  split
  · exact hb.trans (lgSchedEventDone_works psa _)
  · exact hb.trans (command_works psa o _ .tx)

theorem joinTxStart_works (psa : Psa) (o : Oracle) (c : Node cfg) :
    Works psa c (joinTxStart psa o c) := by
  unfold joinTxStart
  split
  · exact lgSchedEventDone_works psa c
  · refine .trans ?_ (sendFragment_works psa o _ 0)
    exact .of_vault_eq rfl rfl rfl rfl

theorem joinTxDone_works (psa : Psa) (o : Oracle) (c : Node cfg) (airEndUs : ℕ) :
    Works psa c (joinTxDone psa o c airEndUs) := by
  unfold joinTxDone
  dsimp only
  split
  · refine .trans ?_ (sendFragment_works psa o _ _)
    exact .of_vault_eq rfl rfl rfl rfl
  · refine .trans ?_ (lgSchedEventDone_works psa _)
    exact .of_vault_eq rfl rfl rfl rfl

theorem joinRxStart_works (psa : Psa) (o : Oracle) (c : Node cfg) :
    Works psa c (joinRxStart o c) := by
  refine .trans ?_ (command_works psa o _ .rx)
  exact .of_vault_eq rfl rfl rfl rfl

theorem listenOn_works (psa : Psa) (o : Oracle) (c : Node cfg) : Works psa c (listenOn o c) := by
  unfold listenOn
  split
  · exact command_works psa o c .rx
  · exact lgSchedEventDone_works psa c

theorem joinRxDone_works (psa : Psa) (o : Oracle) (c : Node cfg) (rx : RxRec) :
    Works psa c (joinRxDone o c rx) := (lgRxPost_works psa c rx).trans (listenOn_works psa o _)

theorem joinRxFail_works (psa : Psa) (o : Oracle) (c : Node cfg) (reason : RxFail) :
    Works psa c (joinRxFail o c reason) := by
  unfold joinRxFail
  split
  · exact listenOn_works psa o c
  · exact lgSchedEventDone_works psa c

theorem joinAborted_works (psa : Psa) (c : Node cfg) : Works psa c (joinAborted c) :=
  .of_vault_eq rfl rfl rfl rfl

/-! ## Arbiter and PHY callbacks -/

theorem sendCopy_works (psa : Psa) (o : Oracle) (c : Node cfg) (k : ℕ) {d : Node cfg}
    (h : Works psa c d) : Works psa c (sendCopy o c k d) := by
  unfold sendCopy
  split
  · split
    · exact h
    · exact .of_vault_eq rfl rfl rfl rfl
  · exact h

theorem beaconStart_works (psa : Psa) (o : Oracle) (c : Node cfg) :
    Works psa c (beaconStart o c) := by
  have h : Works psa c { c with net := { c.net with beaconCopyIdx := 0 } } :=
    .of_vault_eq rfl rfl rfl rfl
  unfold beaconStart
  dsimp only
  split
  · exact .of_vault_eq rfl rfl rfl rfl
  · exact h.trans (sendCopy_works psa o _ 0 (lgSchedEventDone_works psa _))

theorem beaconTxDone_works (psa : Psa) (o : Oracle) (c : Node cfg) (airEndUs : ℕ) :
    Works psa c (beaconTxDone o c airEndUs) := by
  let d : Node cfg := { c with net := { c.net with beaconCopyIdx := c.net.beaconCopyIdx + 1 } }
  have h : Works psa c d := .of_vault_eq rfl rfl rfl rfl
  unfold beaconTxDone
  refine h.trans (sendCopy_works psa o d _ ?_)
  split
  · exact .of_vault_eq rfl rfl rfl rfl
  · exact lgSchedEventDone_works psa d

theorem scanRxDone_works (psa : Psa) (o : Oracle) (c : Node cfg) (rx : RxRec) :
    Works psa c (scanRxDone o c rx) := by
  have h := lgRxPost_works psa c rx
  unfold scanRxDone
  dsimp only
  split
  · exact h.trans (.of_vault_eq rfl rfl rfl rfl)
  · exact h.trans (listenOn_works psa o _)

theorem trackResult_works (psa : Psa) (c : Node cfg) (heard : Bool) :
    Works psa c (trackResult c heard) := by
  unfold trackResult
  split
  · exact .of_quiet (lgDiscTrackResult_quiet c _ heard)
  · exact .refl c

theorem tsGranted_works (psa : Psa) (o : Oracle) (c : Node cfg) :
    Works psa c (tsGranted psa o c) := by
  have h : Works psa c { c with granted := true } := .of_vault_eq rfl rfl rfl rfl
  unfold tsGranted
  dsimp only
  split
  · exact h.trans (linkStart_works psa o _ _)
  · exact h.trans (beaconStart_works psa o _)
  · exact h.trans (command_works psa o _ .rx)
  · exact h.trans (command_works psa o _ .rx)
  · exact h.trans (joinTxStart_works psa o _)
  · exact h.trans (joinRxStart_works psa o _)
  · exact h.trans ((Works.of_quiet (lgChanNoise_quiet _ _ _)).trans (lgSchedEventDone_works psa _))
  · exact .of_vault_eq rfl rfl rfl rfl

theorem tsFailed_works (psa : Psa) (o : Oracle) (c : Node cfg) : Works psa c (tsFailed o c) := by
  unfold tsFailed
  split
  · exact .refl c
  · exact (lgLinkEventMiss_works psa o c _).trans (lgSchedEventDone_works psa _)
  · exact (trackResult_works psa c false).trans (lgSchedEventDone_works psa _)
  · exact (joinAborted_works psa c).trans (lgSchedEventDone_works psa _)
  · exact (joinAborted_works psa c).trans (lgSchedEventDone_works psa _)
  · exact lgSchedEventDone_works psa c

theorem phyTxDone_works (psa : Psa) (o : Oracle) (c : Node cfg) (airEndUs : ℕ) :
    Works psa c (phyTxDone psa o c airEndUs) := by
  unfold phyTxDone
  split
  · exact linkTxDone_works psa o c _
  · exact beaconTxDone_works psa o c airEndUs
  · exact joinTxDone_works psa o c airEndUs
  · exact lgSchedEventDone_works psa c

theorem phyRxDone_works (psa : Psa) (o : Oracle) (c : Node cfg) (rx : RxRec) :
    Works psa c (phyRxDone o c rx) := by
  unfold phyRxDone
  split
  · exact linkRxDone_works psa o c _ rx
  · exact scanRxDone_works psa o c rx
  · exact ((lgRxPost_works psa c rx).trans (trackResult_works psa _ true)).trans
      (lgSchedEventDone_works psa _)
  · exact joinRxDone_works psa o c rx
  · exact lgSchedEventDone_works psa c

theorem phyRxFailed_works (psa : Psa) (o : Oracle) (c : Node cfg) (reason : RxFail) :
    Works psa c (phyRxFailed o c reason) := by
  unfold phyRxFailed
  split
  · exact linkRxFail_works psa c _ reason
  · exact joinRxFail_works psa o c reason
  · exact joinRxFail_works psa o c reason
  · exact (trackResult_works psa c false).trans (lgSchedEventDone_works psa _)
  · exact lgSchedEventDone_works psa c

/-! ## Beacons -/

theorem beaconEntry_works (psa : Psa) (o : Oracle) (c : Node cfg) (b : Beacon) (src : Addr)
    (rssi : ℤ) : Works psa c (beaconEntry o c b src rssi).2 := by
  unfold beaconEntry
  split
  · exact .refl c
  · split
    · exact admitJoiner_works psa o c src
    · exact .refl c

theorem lgSchedAbort_works (psa : Psa) (c : Node cfg) (kind : EvKind) :
    Works psa c (lgSchedAbort c kind) := by
  unfold lgSchedAbort
  split
  · exact lgSchedEventDone_works psa c
  · exact .refl c

theorem lgNeighAlloc_occupied {c d : Node cfg} {src : Addr} {i : Fin cfg.maxNeighbors}
    (h : lgNeighAlloc c src = (some i, d)) : (d.neigh i).state ≠ .free := by
  rcases lgNeighAlloc_cases c src with ⟨hc, -⟩ | ⟨j, -, -, hc⟩ <;> rw [hc] at h
  · obtain ⟨hfind, rfl⟩ := Prod.mk.inj h
    exact (lgNeighFind_spec hfind).1
  · cases h
    simp [Node.setView, Neigh.fresh]

theorem admitJoiner_occupied {o : Oracle} {c d : Node cfg} {src : Addr}
    {i : Fin cfg.maxNeighbors} (h : admitJoiner o c src = (some i, d)) :
    (d.neigh i).state ≠ .free := by
  unfold admitJoiner at h
  split at h
  · next halloc =>
    cases h
    exact lgNeighAlloc_occupied halloc
  · dsimp only at h
    split at h
    · exact lgNeighAlloc_occupied h
    · cases h

theorem beaconEntry_occupied {o : Oracle} {c d : Node cfg} {b : Beacon} {src : Addr} {rssi : ℤ}
    {i : Fin cfg.maxNeighbors} (h : beaconEntry o c b src rssi = (some i, d)) :
    (d.neigh i).state ≠ .free := by
  unfold beaconEntry at h
  split at h
  · next hfind =>
    cases h
    exact (lgNeighFind_spec hfind).1
  · split at h
    · exact admitJoiner_occupied h
    · cases h

theorem aimAt_pieces (o : Oracle) {c : Node cfg} {i : Fin cfg.maxNeighbors} (b : Beacon)
    (airStartUs : ℕ) (hi : (c.neigh i).state ≠ .free) :
    Pieces psa c (aimAt o c i b airStartUs) := by
  unfold aimAt
  dsimp only
  generalize ({ (c.neigh i).join with joinNextUs := _, joinSpreadUs := _ } : JoinInfo) = join
  have hbegin : Pieces psa c (lgJoinStart o (c.setJoin i join) i).2 :=
    (setJoin_works psa c i join).pieces.tail (.begin o i (by simpa [Node.setJoin] using hi))
  split <;> next he =>
    rw [he] at hbegin
    first
      | exact hbegin.trans (lgSchedAbort_works psa _ .scan).pieces
      | exact hbegin

theorem acceptBeacon_pieces (o : Oracle) (c : Node cfg) (b : Beacon) (src : Addr) (rssi : ℤ)
    (airStartUs : ℕ) : Pieces psa c (acceptBeacon o c b src rssi airStartUs) := by
  have hn : Works psa c (noteBeacon o c b src) := .of_quiet (noteBeacon_quiet o c b src)
  have he := hn.trans (beaconEntry_works psa o (noteBeacon o c b src) b src rssi)
  unfold acceptBeacon
  dsimp only
  split
  · next d hb =>
    rw [hb] at he
    exact he.pieces
  · next i d hb =>
    rw [hb] at he
    have hq := noteSender_quiet d i b rssi airStartUs
    have hs : Works psa c _ := he.trans (.of_quiet hq)
    split
    · exact hs.pieces
    · split
      · exact hs.pieces
      · refine hs.pieces.trans (aimAt_pieces o b airStartUs ?_)
        rw [hq.neigh]
        exact beaconEntry_occupied hb

theorem lgDiscBeaconRx_pieces (o : Oracle) (c : Node cfg) (rx : RxRec) :
    Pieces psa c (lgDiscBeaconRx psa o c rx) := by
  unfold lgDiscBeaconRx
  split
  · exact .refl
  · split
    · exact .refl
    · dsimp only
      split
      · exact .refl
      · exact acceptBeacon_pieces o c _ _ _ _

/-! ## Received frames -/

/-- What a frame is to the dispatcher when it belongs to a handshake. -/
structure Handed (c : Node cfg) (t : FrameType) (rx : RxRec) : Prop where
  type : t.isJoin = true
  frame : lgFrameType rx.pdu = some t
  foreign : getLe16 rx.pdu offSrc ≠ c.ident.addr
  header : (lgFrameHdrGet cfg rx.pdu c.ident.netid16).isSome = true

theorem dispatch_cases {o : Oracle} {c c' : Node cfg} {rx : RxRec}
    (h : dispatch psa o c rx = some c') :
    Pieces psa c c' ∨ ∃ t, Handed c t rx ∧ lgJoinRxPdu psa o c t rx = some c' := by
  unfold dispatch at h
  split at h
  · cases h
    exact .inl .refl
  · next hdr hget =>
    split at h
    · cases h
      exact .inl .refl
    · next haddr =>
      split at h
      · cases h
        exact .inl (lgDiscBeaconRx_pieces o c rx)
      · next t _ ht =>
        split at h
        · next hjoin =>
          have hsrc : hdr.src = getLe16 rx.pdu offSrc := by
            unfold lgFrameHdrGet at hget
            split_ifs at hget
            dsimp only at hget
            split_ifs at hget <;> cases hget <;> rfl
          have hforeign := fun he => haddr (.inl he)
          rw [hsrc] at hforeign
          exact .inr ⟨t, ⟨hjoin, ht, hforeign, by rw [hget]; rfl⟩, h⟩
        · cases h
          exact .inl (dispatchLink_works psa o c hdr rx.pdu).pieces
      · cases h
        exact .inl (dispatchLink_works psa o c hdr rx.pdu).pieces

theorem rxHandler_cases {o : Oracle} {c c' : Node cfg} (h : rxHandler psa o c = some c') :
    Pieces psa c c' ∨ ∃ t rx rest, c.rxRing = rx :: rest ∧ Handed c t rx ∧
      lgJoinRxPdu psa o { c with rxRing := rest } t rx = some c' := by
  unfold rxHandler at h
  split at h
  · cases h
    exact .inl .refl
  · next rx rest hring =>
    have hr : Works psa c { c with rxRing := rest } := .of_vault_eq rfl rfl rfl rfl
    rcases dispatch_cases h with hpieces | ⟨t, hh, hj⟩
    · exact .inl (hr.pieces.trans hpieces)
    · exact .inr ⟨t, rx, rest, hring, ⟨hh.type, hh.frame, hh.foreign, hh.header⟩, hj⟩

/-! ## The scheduler -/

theorem neighCandidate_works {c : Node cfg} {l : List (Candidate cfg)} {i : Fin cfg.maxNeighbors}
    {r : List (Candidate cfg) × Node cfg} (h : neighCandidate c l i = some r) :
    Works psa c r.2 := by
  unfold neighCandidate at h
  dsimp only at h
  split at h
  · obtain ⟨⟨n, t⟩, hn, rfl⟩ := Option.map_eq_some_iff.mp h
    unfold lgLinkNextEventUs at hn
    split at hn
    · cases hn
      exact works_setNeigh c i _ ⟨rfl, rfl⟩ rfl rfl
    · obtain ⟨s, -, hs⟩ := Option.map_eq_some_iff.mp hn
      cases hs
      exact works_setNeigh c i _ ⟨rfl, rfl⟩ rfl rfl
  · cases h
    exact .refl c
  · cases h
    exact .refl c

theorem neighCandidates_works {c : Node cfg} {r : List (Candidate cfg) × Node cfg}
    (h : neighCandidates c = some r) : Works psa c r.2 := by
  have hfold : ∀ (l : List (Fin cfg.maxNeighbors)) (st r : List (Candidate cfg) × Node cfg),
      l.foldlM (fun st i => neighCandidate st.2 st.1 i) st = some r → Works psa st.2 r.2 := by
    intro l
    induction l with
    | nil =>
      intro st r h
      cases h
      exact .refl _
    | cons i l ih =>
      intro st r h
      rw [List.foldlM_cons] at h
      obtain ⟨st', hst, h⟩ := Option.bind_eq_some_iff.mp h
      exact (neighCandidate_works hst).trans (ih st' r h)
  exact hfold _ ([], c) r h

theorem candidates_works {c : Node cfg} {r : List (Candidate cfg) × Node cfg}
    (h : candidates c = some r) : Works psa c r.2 := by
  obtain ⟨⟨l, d⟩, hd, rfl⟩ := Option.map_eq_some_iff.mp h
  exact (neighCandidates_works hd).trans (.of_quiet (dropStaleTracks_quiet d))

theorem dropLate_pieces {o : Oracle} {c c' : Node cfg} {cand : Candidate cfg}
    (h : dropLate psa o c cand = some c') : Pieces psa c c' := by
  unfold dropLate at h
  split at h
  · cases h
    exact Works.pieces (works_setNeigh c _ _ ⟨rfl, rfl⟩ rfl rfl)
  · cases h
    exact (Works.of_quiet (lgDiscBeaconFinish_quiet psa o c)).pieces
  · cases h
    exact (Works.of_quiet (lgDiscScanFinish_quiet o c)).pieces
  · cases h
    exact (Works.of_quiet (lgDiscTrackResult_quiet c _ false)).pieces
  · cases h
    exact Works.pieces (.of_vault_eq rfl rfl rfl rfl)
  · exact .single (.slot o h)
  · exact .single (.slot o h)
  · cases h
    exact .refl

theorem requestEvent_pieces {o : Oracle} {c c' : Node cfg} {cand : Candidate cfg}
    (h : requestEvent psa o c cand = some c') : Pieces psa c c' := by
  have hp : Works psa c (eventPlan c cand).2 := .of_quiet (eventPlan_quiet c cand)
  unfold requestEvent at h
  dsimp only at h
  split at h
  · exact hp.pieces.trans (dropLate_pieces h)
  · split at h <;> cases h
    · exact hp.pieces
    · exact Works.pieces (hp.trans (.of_vault_eq rfl rfl rfl rfl))

theorem stageFor_works (psa : Psa) (o : Oracle) (c : Node cfg) (cand : Candidate cfg) :
    Works psa c (stageFor psa o c cand).2 := by
  unfold stageFor
  split
  · next i _ _ =>
    split
    · exact .refl c
    · have hs := lgLinkStageTx_works psa (o.ok .encrypt) c i
      dsimp only
      split
      · exact hs
      · exact hs.trans (works_setNeigh _ i _ ⟨rfl, rfl⟩ rfl rfl)
  · exact .refl c

theorem schedPick_pieces {o : Oracle} {c c' : Node cfg} (h : schedPick psa o c = some c') :
    Pieces psa c c' := by
  unfold schedPick at h
  split at h
  · cases h
    exact .refl
  · split at h
    · cases h
    · next l d hc =>
      have hw : Works psa c d := candidates_works hc
      split at h
      · cases h
        exact hw.pieces
      · next cand _ =>
        have hs := hw.trans (stageFor_works psa o d cand)
        dsimp only at h
        split at h
        · exact hs.pieces.trans (requestEvent_pieces h)
        · cases h
          exact hs.pieces

theorem announceMap_works (psa : Psa) (c : Node cfg) : Works psa c (announceMap c) := by
  have hn : ∀ i, ((announceMap c).neigh i).keys = (c.neigh i).keys ∧
      ((announceMap c).neigh i).addr = (c.neigh i).addr ∧
      ((announceMap c).neigh i).state = (c.neigh i).state ∧
      ((announceMap c).neigh i).histUp = (c.neigh i).histUp := by
    intro i
    simp only [announceMap]
    split <;> exact ⟨rfl, rfl, rfl, rfl⟩
  have hv : (announceMap c).vault = c.vault := by
    simp only [Node.vault, hn]
    rfl
  refine ⟨hv ▸ .refl, rfl, fun i hi => ?_, rfl,
    .of_same List.suffix_rfl (fun i => by rw [(hn i).2.2.1]) (fun i => (hn i).2.1) fun hc =>
      ⟨fun i hi => ?_, rfl⟩,
    fun i hi => .inl ⟨(hn i).2.2.1.trans hi, (hn i).2.1, by rw [(hn i).1]⟩⟩
  · rw [(hn i).2.2.1] at hi
    exact ⟨hi, (hn i).2.2.2⟩
  · rw [(hn i).2.2.1] at hi
    rw [(hn i).1]
    exact hc i hi

theorem finishChanEval_works (psa : Psa) (c : Node cfg) : Works psa c (finishChanEval c) := by
  have hr : Works psa c (lgChanReevaluate c).2 := .of_quiet (lgChanReevaluate_quiet c)
  unfold finishChanEval
  dsimp only
  split
  · refine (hr.trans (announceMap_works psa _)).trans ?_
    exact .of_vault_eq rfl rfl rfl rfl
  · exact hr.trans (.of_vault_eq rfl rfl rfl rfl)

theorem settle_pieces {o : Oracle} {c c' : Node cfg} (h : settle psa o c = some c') :
    Pieces psa c c' := by
  unfold settle at h
  split at h
  · split at h <;> cases h
    · exact (lgLinkEventFinish_works psa o c _).pieces
    · exact .refl
  · cases h
    exact (Works.of_quiet ((lgDiscBeaconFinish_quiet psa o c).trans
      (lgRoleEvaluate_quiet o _))).pieces
  · cases h
    exact (Works.of_quiet ((lgDiscScanFinish_quiet o c).trans (lgRoleEvaluate_quiet o _))).pieces
  · exact .single (.slot o h)
  · exact .single (.slot o h)
  · cases h
    exact (finishChanEval_works psa c).pieces
  · cases h
    exact .refl
  · cases h
    exact .refl

theorem schedFinish_pieces {o o' : Oracle} {c c' : Node cfg}
    (h : schedFinish psa o o' c = some c') : Pieces psa c c' := by
  unfold schedFinish at h
  split at h
  · cases h
  · next d hd =>
    have hf : Works psa d { d with finishKind := .none, finishNeigh := none } :=
      .of_vault_eq rfl rfl rfl rfl
    exact ((settle_pieces hd).trans hf.pieces).trans (schedPick_pieces h)

/-! ## Steps -/

/-- The tables as `lg_start` finds them: every entry is free and there is no handshake. -/
structure Restarted (c c' : Node cfg) : Prop where
  idle : c.started = false
  vault : c'.vault = c.vault
  ident : c'.ident = c.ident
  free : ∀ i, (c'.neigh i).state = .free
  hs : c'.hs = {}

theorem lgStart_cases (psa : Psa) (o : Oracle) (c : Node cfg) :
    lgStart psa o c = c ∨ ∃ d, Restarted c d ∧ Works psa d (lgStart psa o c) := by
  unfold lgStart
  split
  · exact .inl rfl
  · next hgo =>
    split
    · exact .inl rfl
    · have hidle : c.started = false := by
        simpa using fun hstarted => hgo (.inl hstarted)
      refine .inr ⟨{ c with
        neigh := fun i => { c.neigh i with state := .free }
        txq := fun _ => {}
        msgIdNext := 1
        net := netInit cfg c.nowUs c.net
        hs := {}
        ev := { c.ev with kind := .none }
        running := true
        started := true }, ⟨hidle, rfl, rfl, fun _ => rfl, rfl⟩, ?_⟩
      refine .trans ?_ (.of_quiet (lgDiscBeaconFinish_quiet psa o _))
      exact .trans (.of_quiet ⟨_, _, rfl⟩) (.of_quiet (lgRoleEvaluate_quiet o _))

theorem lgStop_works (psa : Psa) (o : Oracle) (c : Node cfg) : Works psa c (lgStop o c) := by
  have hfold : ∀ (l : List (Fin cfg.maxNeighbors)) (c : Node cfg),
      Works psa c (stopLinks o l c) := by
    intro l
    induction l with
    | nil => exact fun c => .refl c
    | cons i l ih => exact fun c => (lgLinkDown_works psa _ c i).trans (ih _)
  unfold lgStop
  split
  · exact .refl c
  · exact (hfold _ c).trans (.of_vault_eq rfl rfl rfl rfl)

/-- What a step comes down to. -/
theorem perform_cases {o : Oracle} {c c' : Node cfg} {inp : Input}
    (h : perform psa o c inp = some c') :
    Pieces psa c c' ∨
    (inp = .rxWork ∧ ∃ t rx rest, c.rxRing = rx :: rest ∧ Handed c t rx ∧
      lgJoinRxPdu psa o { c with rxRing := rest } t rx = some c') ∨
    inp = .start ∧ ∃ d, Restarted c d ∧ Works psa d c' := by
  cases inp with
  | schedWork => exact .inl (schedPick_pieces h)
  | finishWork o' => exact .inl (schedFinish_pieces h)
  | rxWork => exact (rxHandler_cases h).imp_right fun hrx => .inl ⟨rfl, hrx⟩
  | tick us =>
    cases h
    exact .inl (Works.pieces (.of_vault_eq rfl rfl rfl rfl))
  | granted =>
    cases h
    exact .inl (tsGranted_works psa o c).pieces
  | refused =>
    cases h
    exact .inl (tsFailed_works psa o c).pieces
  | txDone airEndUs =>
    cases h
    exact .inl (phyTxDone_works psa o c airEndUs).pieces
  | rxDone rx =>
    cases h
    exact .inl (phyRxDone_works psa o c rx).pieces
  | rxFailed reason =>
    cases h
    exact .inl (phyRxFailed_works psa o c reason).pieces
  | send dst port payload flags =>
    cases h
    exact .inl (lgSend_works psa c dst port payload flags).pieces
  | backhaulSet up =>
    cases h
    exact .inl (Works.of_quiet (lgBackhaulSet_quiet o c up)).pieces
  | tuningSet t =>
    cases h
    exact .inl (Works.pieces (.of_quiet (.trans ⟨_, _, rfl⟩ (lgDiscRetune_quiet o 0 _))))
  | start =>
    cases h
    rcases lgStart_cases psa o c with heq | hd
    · rw [heq]
      exact .inl .refl
    · exact .inr (.inr ⟨rfl, hd⟩)
  | stop =>
    cases h
    exact .inl (lgStop_works psa o c).pieces

theorem Pieces.advances {c c' : Node cfg} (h : Pieces psa c c') : Advances psa c c' := by
  induction h with
  | refl => exact .refl c
  | tail _ hpiece ih =>
    cases hpiece with
    | work h => exact ih.trans (.of_works h)
    | begin o i _ => exact ih.trans (lgJoinStart_advances psa o _ i)
    | slot o h => exact ih.trans (lgJoinEventFinish_advances h)

theorem Restarted.advances {c c' : Node cfg} (h : Restarted c c') : Advances psa c c' := by
  have hlinks : NoNewLink c c' := fun i hi => by simp [h.free i] at hi
  exact .of_handled (.of_links h.vault hlinks h.ident) fun _ => h.hs ▸ Hs.sound_empty

/-- A step of a node is a sequence of steps of its key store, and keeps what the links and the
handshake rest on. -/
theorem Step.advances {c c' : Node cfg} (h : Step psa c c') : Advances psa c c' := by
  obtain ⟨inp, o, -, hp⟩ := h
  rcases perform_cases hp with hpieces | ⟨-, t, rx, rest, -, hh, hj⟩ | ⟨-, d, hd, hw⟩
  · exact hpieces.advances
  · have hr : Works psa c { c with rxRing := rest } := .of_vault_eq rfl rfl rfl rfl
    exact (Advances.of_works hr).trans (lgJoinRxPdu_advances hh.foreign hh.type hj)
  · exact hd.advances.trans (.of_works hw)

theorem Node.boot_trusted (ident : Identity) : (Node.boot cfg ident).Trusted :=
  ⟨Hs.sound_empty, fun i hi => by simp [Node.boot] at hi⟩

/-- A run of a node is a run of its key store, through states that can be trusted. -/
theorem Reachable.advances {ident : Identity} {c : Node cfg} (h : Reachable psa ident c) :
    Advances psa (Node.boot cfg ident) c := by
  induction h with
  | refl => exact .refl _
  | tail _ hs ih => exact ih.trans hs.advances

end LockGrid
