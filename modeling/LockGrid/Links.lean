import LockGrid.Exchange
import LockGrid.Upkeep

/-!
# What a link is left to

Routing reads and writes a few fields of the neighbours that are linked, of their schedules and
of the node. Most of the code leaves these alone: the queue, the radio, the channel statistics,
downward routes, beacons and handshakes, which are about neighbours that are not linked.
-/
namespace LockGrid

variable {cfg : Config} {psa : Psa}

/-- What routing and advertisements keep of a neighbour. -/
def View.flags (v : View) : Bool × ℕ × Bool := (v.isParent, v.routeAdvUs, v.advUrgentDone)

/-- The state of routing itself. -/
def Node.posture (c : Node cfg) : Bool × ℕ × Role × ℕ × Bool × Bool × ℕ :=
  (c.started, c.nowUs, c.net.role, c.net.rank, c.net.advUrgent, c.net.backhaulActive,
    c.net.roleChangedUs)

def Node.stance (c : Node cfg) :
    (Bool × ℕ × Role × ℕ × Bool × Bool × ℕ) × (Fin cfg.maxNeighbors → Bool × ℕ × Bool) :=
  (c.posture, fun i => (c.view i).flags)

/-- The terms of a link, but for the subrate in force. -/
def Schedule.terms (s : Schedule) : Bool × ℕ × UInt8 × ℕ × UInt8 × Bool :=
  (s.initiator, s.intervalUs, s.subrateMax, s.supTimeoutUs, s.pendingSubrate,
    s.pendingCtrl.subrate)

/-- The stance, the downward routes and the queue. -/
def Node.rest (c : Node cfg) :
    ((Bool × ℕ × Role × ℕ × Bool × Bool × ℕ) × (Fin cfg.maxNeighbors → Bool × ℕ × Bool)) ×
      (Fin cfg.maxRoutes → Route) × (Fin cfg.txQueueSize → TxMsg) :=
  (c.stance, c.net.routes, c.txq)

variable {c c' c'' d : Node cfg} {i : Fin cfg.maxNeighbors}

/-! ## The stance of routing -/

theorem setHs_posture (c : Node cfg) (hs : Hs cfg) : (c.setHs hs).posture = c.posture := rfl

theorem setView_rest {v : View} (h : v.flags = (c.view i).flags) :
    (c.setView i v).rest = c.rest := by
  have hv : ∀ j, ((c.setView i v).view j).flags = (c.view j).flags := by
    intro j
    by_cases hj : j = i
    · subst hj
      simp [Node.setView, h]
    · simp [Node.setView, hj]
  simp only [Node.rest, Node.stance, hv]
  rfl

theorem foldl_stance {β : Type*} (f : Node cfg → β → Node cfg)
    (hf : ∀ c b, (f c b).stance = c.stance) (l : List β) (c : Node cfg) :
    (l.foldl f c).stance = c.stance := by
  induction l generalizing c with
  | nil => rfl
  | cons b l ih => exact (ih (f c b)).trans (hf c b)

theorem updateCost_flags (v : View) : v.updateCost.flags = v.flags := rfl

theorem txResult_flags (v : View) (acked : Bool) : (v.txResult acked).flags = v.flags := rfl

theorem lgNeighTxResult_rest (c : Node cfg) (i : Fin cfg.maxNeighbors) (acked : Bool) :
    (lgNeighTxResult c i acked).rest = c.rest :=
  setView_rest (c := noteResult c i acked) (txResult_flags _ acked)

theorem lgNeighRxRssi_rest (c : Node cfg) (i : Fin cfg.maxNeighbors) (rssi : ℤ) :
    (lgNeighRxRssi c i rssi).rest = c.rest := setView_rest rfl

theorem lgNeighUpdateCost_rest (c : Node cfg) (i : Fin cfg.maxNeighbors) :
    (lgNeighUpdateCost c i).rest = c.rest := setView_rest (updateCost_flags _)

theorem lgChanResult_rest (c : Node cfg) (chan : ℕ) (ok : Bool) :
    (lgChanResult c chan ok).rest = c.rest := by
  unfold lgChanResult
  split <;> rfl

theorem lgChanNoise_rest (c : Node cfg) (chan : ℕ) (dbm : ℤ) :
    (lgChanNoise c chan dbm).rest = c.rest := by
  unfold lgChanNoise
  split
  · rfl
  · split <;> rfl

theorem lgRouteAdd_stance (c : Node cfg) (dst via : Addr) (hops : UInt8) :
    (lgRouteAdd c dst via hops).stance = c.stance := by
  unfold lgRouteAdd
  split
  · rfl
  · split
    · rfl
    · dsimp only
      split <;> rfl

theorem dropDeadRoute_stance (c : Node cfg) (final : Addr) (flags : UInt8) :
    (dropDeadRoute c final flags).stance = c.stance := by
  unfold dropDeadRoute
  split
  · rfl
  · split
    · dsimp only
      split <;> rfl
    · rfl

theorem lgRouteNextHop_stance (c : Node cfg) (final : Addr) (flags : UInt8) :
    (lgRouteNextHop c final flags).2.stance = c.stance := dropDeadRoute_stance c final flags

theorem gossipRecord_stance (c : Node cfg) (addr : Addr) (rank : ℕ) :
    (gossipRecord c addr rank).stance = c.stance := by
  unfold gossipRecord
  split
  · rfl
  · split <;> rfl

theorem gossipConsiderSeeking_stance (o : Oracle) (c : Node cfg) :
    (gossipConsiderSeeking o c).stance = c.stance := by
  unfold gossipConsiderSeeking
  split
  · rfl
  · dsimp only
    split <;> rfl

theorem advEntry_stance (peerRank : ℕ) (via : Addr) (c : Node cfg) (addr : Addr) (cost : ℕ) :
    (advEntry peerRank via c addr cost).stance = c.stance := by
  have hg : (if peerRank ≠ rankInfinite then
      gossipRecord c addr (min (peerRank + cost) (rankInfinite - 1)) else c).stance =
      c.stance := by
    split
    · exact gossipRecord_stance c _ _
    · rfl
  have hadd : ∀ d : Node cfg, d.stance = c.stance →
      (if d.net.rank < peerRank ∧ d.net.rank ≠ rankInfinite then lgRouteAdd d addr via 2
        else d).stance = c.stance := by
    intro d hd
    split
    · exact (lgRouteAdd_stance d _ _ _).trans hd
    · exact hd
  exact hadd _ hg

theorem lgRouteHandleReg_stance (c : Node cfg) (i : Fin cfg.maxNeighbors) (buf : Bytes) :
    (lgRouteHandleReg c i buf).stance = c.stance := by
  unfold lgRouteHandleReg
  split
  · rfl
  · exact foldl_stance _ (fun c k => lgRouteAdd_stance c _ _ _) _ _

theorem lgRouteIsDuplicate_rest (c : Node cfg) (origin : Addr) (msgId : UInt16) :
    (lgRouteIsDuplicate c origin msgId).2.rest = c.rest := by
  unfold lgRouteIsDuplicate
  split <;> rfl

theorem lgDiscBeaconFinish_stance (psa : Psa) (o : Oracle) (c : Node cfg) :
    (lgDiscBeaconFinish psa o c).stance = c.stance := rfl

theorem lgDiscTrackResult_rest (c : Node cfg) (i : Fin cfg.maxNeighbors) (heard : Bool) :
    (lgDiscTrackResult c i heard).rest = c.rest := by
  unfold lgDiscTrackResult
  dsimp only
  split
  · exact setView_rest rfl
  · split <;> exact setView_rest rfl

theorem dropStaleTracks_rest (c : Node cfg) : (dropStaleTracks c).rest = c.rest := by
  have hv : ∀ i, ((dropStaleTracks c).view i).flags = (c.view i).flags := by
    intro i
    simp only [dropStaleTracks]
    split <;> rfl
  simp only [Node.rest, Node.stance, hv]
  rfl

theorem eventPlan_rest (c : Node cfg) (cand : Candidate cfg) :
    (eventPlan c cand).2.rest = c.rest := by
  unfold eventPlan
  dsimp only
  split
  · split <;> rfl
  all_goals rfl

theorem noteSender_rest (c : Node cfg) (i : Fin cfg.maxNeighbors) (b : Beacon) (rssi : ℤ)
    (airStartUs : ℕ) : (noteSender c i b rssi airStartUs).rest = c.rest := by
  unfold noteSender
  refine (lgNeighUpdateCost_rest _ i).trans ((lgNeighRxRssi_rest _ i rssi).trans ?_)
  refine setView_rest ?_
  dsimp only
  split <;> rfl

/-! ## The stance during a handshake -/

theorem lgSecDecrypt_rest (psa : Psa) (ok : Bool) (c : Node cfg) (i : Fin cfg.maxNeighbors)
    (pdu : Bytes) : (lgSecDecrypt psa ok c i pdu).2.rest = c.rest := by
  rcases lgSecDecrypt_cases psa ok c i pdu with h | ⟨r, m, h⟩ <;> rw [h]
  rfl

theorem deriveKeys_rest (psa : Psa) (o : Oracle) (c : Node cfg) (i : Fin cfg.maxNeighbors)
    (secret transcript : Bytes) :
    (deriveKeys psa o c i secret transcript).2.rest = c.rest := by
  obtain ⟨k, ins, ds, live, -, h⟩ := deriveKeys_cases psa o c i secret transcript
  rw [h]
  rfl

theorem deriveResumeKey_rest (psa : Psa) (o : Oracle) (c : Node cfg) (i : Fin cfg.maxNeighbors)
    (nonceJ : Bytes) : (deriveResumeKey psa o c i nonceJ).2.rest = c.rest := by
  rcases deriveResumeKey_cases psa o c i nonceJ with h | ⟨k, ins, live, -, h⟩ <;> rw [h]
  rfl

theorem rememberPeer_rest (c : Node cfg) (i : Fin cfg.maxNeighbors) (msg : Bytes)
    (info : CertInfo) : (rememberPeer c i msg info).rest = c.rest :=
  setView_rest (c := c.setJoin i { (c.neigh i).join with
    noncePeer := slice msg 0 nonceLen
    ephPubPeer := slice msg nonceLen ecPubLen
    peerStaticPub := info.pub }) rfl

theorem agreeJoinReq_rest (psa : Psa) (o : Oracle) (c : Node cfg) (i : Fin cfg.maxNeighbors)
    (msg : Bytes) : (agreeJoinReq psa o c i msg).2.rest = c.rest := by
  unfold agreeJoinReq
  split
  · rfl
  · split
    · rfl
    · next info _ =>
      have hr := rememberPeer_rest c i msg info
      generalize rememberPeer c i msg info = d at hr ⊢
      split
      · rfl
      · dsimp only
        split
        · exact hr
        · split
          · exact hr
          · split
            · exact hr
            · split <;> exact hr

theorem handleJoinReq_rest (psa : Psa) (o : Oracle) (c : Node cfg) (i : Fin cfg.maxNeighbors)
    (msg : Bytes) : (handleJoinReq psa o c i msg).2.rest = c.rest := by
  have ha := agreeJoinReq_rest psa o c i msg
  unfold handleJoinReq
  split
  · next he =>
    rw [he] at ha
    exact ha
  · next t secret d he =>
    rw [he] at ha
    let e : Node cfg := { d with hist := { d.hist with reqDerived := d.hist.reqDerived + 1 } }
    have hd := (deriveKeys_rest psa o e i secret t).trans ha
    dsimp only
    split <;> next hk =>
      rw [hk] at hd
      first
        | exact hd
        | split <;> exact hd

theorem agreeJoinRsp_rest (psa : Psa) (o : Oracle) (c : Node cfg) (i : Fin cfg.maxNeighbors)
    (msg : Bytes) : (agreeJoinRsp psa o c i msg).2.rest = c.rest := by
  unfold agreeJoinRsp
  split
  · rfl
  · split
    · rfl
    · next info _ =>
      have hr := rememberPeer_rest c i msg info
      generalize rememberPeer c i msg info = d at hr ⊢
      split
      · rfl
      · dsimp only
        split
        · exact hr
        · split
          · exact hr
          · split <;> exact hr

theorem handleJoinRsp_rest (psa : Psa) (o : Oracle) (c : Node cfg) (i : Fin cfg.maxNeighbors)
    (msg : Bytes) : (handleJoinRsp psa o c i msg).2.rest = c.rest := by
  have ha := agreeJoinRsp_rest psa o c i msg
  unfold handleJoinRsp
  split
  · next he =>
    rw [he] at ha
    exact ha
  · next t secret d he =>
    rw [he] at ha
    let e : Node cfg := { d with hist := { d.hist with rspDerived := t :: d.hist.rspDerived } }
    have hd := (deriveKeys_rest psa o e i secret t).trans ha
    dsimp only
    split <;> next hk =>
      rw [hk] at hd
      first
        | exact hd
        | split <;> exact hd

theorem handleJoinCfm_rest (psa : Psa) (o : Oracle) (c : Node cfg) (i : Fin cfg.maxNeighbors)
    (msg : Bytes) : (handleJoinCfm psa o c i msg).2.rest = c.rest := by
  unfold handleJoinCfm
  split
  · rfl
  · dsimp only
    split <;> rfl

theorem handleResumeReq_rest (psa : Psa) (o : Oracle) (c : Node cfg) (i : Fin cfg.maxNeighbors)
    (msg : Bytes) : (handleResumeReq psa o c i msg).2.rest = c.rest := by
  unfold handleResumeReq
  split
  · rfl
  · dsimp only
    have hd := deriveResumeKey_rest psa o
      (c.setJoin i { (c.neigh i).join with noncePeer := msg }) i msg
    split <;> next he =>
      rw [he] at hd
      exact hd

theorem buildJoinReq_rest (o : Oracle) (c : Node cfg) (i : Fin cfg.maxNeighbors) :
    (buildJoinReq o c i).2.rest = c.rest := by
  unfold buildJoinReq
  split
  · rfl
  · dsimp only
    split <;> rfl

theorem buildResumeReq_rest (o : Oracle) (c : Node cfg) (i : Fin cfg.maxNeighbors) :
    (buildResumeReq o c i).2.rest = c.rest := by
  unfold buildResumeReq
  split <;> rfl

theorem addFragment_rest (c : Node cfg) (t : FrameType) (sec : Bool) (key : Option Bytes)
    (pdu : Bytes) : (addFragment c t sec key pdu).2.rest = c.rest := by
  unfold addFragment
  dsimp only
  generalize (if sec then hdrLenSec else hdrLen) = hdr
  split
  · rfl
  · split
    · rfl
    · split <;> rfl

theorem reassemble_rest (psa : Psa) (o : Oracle) (c : Node cfg) (i : Fin cfg.maxNeighbors)
    (t : FrameType) (pdu : Bytes) : (reassemble psa o c i t pdu).2.rest = c.rest := by
  have hd := lgSecDecrypt_rest psa (o.ok .decrypt) c i pdu
  unfold reassemble
  split
  · split <;> next he =>
      rw [he] at hd
      first
        | exact hd
        | exact (addFragment_rest _ t true _ _).trans hd
  · exact addFragment_rest c t false none pdu

theorem joinFail_rest (c : Node cfg) (i : Fin cfg.maxNeighbors) :
    (joinFail c i).rest = c.rest := by
  obtain ⟨_, _, _, h⟩ := joinFail_table c i
  rw [h]
  rfl

/-! ## Steady work -/

/-- The entry keeps its place, and its link the terms it is on; a link may be called back to
every event. -/
structure Unmoved (n n' : Neigh) : Prop where
  state : n'.state = n.state
  addr : n'.addr = n.addr
  terms : n.state = .linked → n'.sched.terms = n.sched.terms
  subrate : n.state = .linked → n'.sched.subrate = n.sched.subrate ∨ n'.sched.subrate = 1

namespace Unmoved

variable {n n' n'' : Neigh}

theorem refl (n : Neigh) : Unmoved n n := ⟨rfl, rfl, fun _ => rfl, fun _ => .inl rfl⟩

theorem trans (h : Unmoved n n') (h' : Unmoved n' n'') : Unmoved n n'' := by
  refine ⟨h'.state.trans h.state, h'.addr.trans h.addr, fun hl => ?_, fun hl => ?_⟩
  · exact (h'.terms (h.state ▸ hl)).trans (h.terms hl)
  · rcases h'.subrate (h.state ▸ hl) with heq | hone
    · rw [heq]
      exact h.subrate hl
    · exact .inr hone

theorem of_eq (hstate : n'.state = n.state) (haddr : n'.addr = n.addr)
    (hsched : n'.sched = n.sched) : Unmoved n n' := by
  refine ⟨hstate, haddr, fun _ => by rw [hsched], fun _ => .inl ?_⟩
  rw [hsched]

/-- An update of the schedule. -/
theorem of_sched {s : Schedule} (hterms : s.terms = n.sched.terms)
    (hsub : s.subrate = n.sched.subrate ∨ s.subrate = 1) : Unmoved n { n with sched := s } :=
  ⟨rfl, rfl, fun _ => hterms, fun _ => hsub⟩

/-- An entry that is not linked. -/
theorem of_unlinked (hl : n.state ≠ .linked) (hstate : n'.state = n.state)
    (haddr : n'.addr = n.addr) : Unmoved n n' :=
  ⟨hstate, haddr, fun h => absurd h hl, fun h => absurd h hl⟩

end Unmoved

/-- A copy of a broadcast, which is pinned to one neighbour. -/
def TxMsg.Pinned (m : TxMsg) : Prop := m.used = true ∧ m.flags &&& dataBroadcast ≠ 0

/-- Downward routes are kept or forgotten, and new copies of a broadcast are addressed to
neighbours that are linked. -/
structure Stocked (c c' : Node cfg) : Prop where
  routes : ∀ k, c'.net.routes k = c.net.routes k ∨ c'.net.routes k = {}
  copies : ∀ k, (c'.txq k).Pinned → c'.txq k = c.txq k ∨
    ∃ i, (c.neigh i).state = .linked ∧ (c.neigh i).addr = (c'.txq k).finalDst

namespace Stocked

theorem of_rest (h : c'.rest = c.rest) : Stocked c c' := by
  have hroutes : c'.net.routes = c.net.routes := congrArg (fun p => p.2.1) h
  have hqueue : c'.txq = c.txq := congrArg (fun p => p.2.2) h
  exact ⟨fun k => .inl (congrFun hroutes k), fun k _ => .inl (congrFun hqueue k)⟩

theorem trans (h : Stocked c c') (h' : Stocked c' c'')
    (hentry : ∀ i, Unmoved (c.neigh i) (c'.neigh i)) : Stocked c c'' := by
  refine ⟨fun k => ?_, fun k hk => ?_⟩
  · rcases h'.routes k with heq | hblank
    · rw [heq]
      exact h.routes k
    · exact .inr hblank
  · rcases h'.copies k hk with heq | ⟨i, hl, haddr⟩
    · rw [heq] at hk ⊢
      exact h.copies k hk
    · exact .inr ⟨i, (hentry i).state ▸ hl, (hentry i).addr ▸ haddr⟩

theorem of_setRoute (c : Node cfg) (k : Fin cfg.maxRoutes) : Stocked c (setRoute c k {}) := by
  refine ⟨fun j => ?_, fun _ _ => .inl rfl⟩
  by_cases hj : j = k
  · subst hj
    exact .inr (by simp [setRoute])
  · exact .inl (by simp [setRoute, hj])

theorem of_enqueue (c : Node cfg) (k : Fin cfg.txQueueSize) {m : TxMsg}
    (h : m.flags &&& dataBroadcast ≠ 0 →
      ∃ i, (c.neigh i).state = .linked ∧ (c.neigh i).addr = m.finalDst) :
    Stocked c (enqueue c k m) := by
  refine ⟨fun _ => .inl rfl, fun j hj => ?_⟩
  by_cases hjk : j = k
  · subst hjk
    simp only [enqueue, Function.update_self] at hj ⊢
    exact .inr (h hj.2)
  · simp [enqueue, hjk]

/-- A slot that is freed holds no copy. -/
theorem of_free (c : Node cfg) (k : Fin cfg.txQueueSize) : Stocked c (lgTxqFree c k) := by
  refine ⟨fun _ => .inl rfl, fun j hj => ?_⟩
  by_cases hjk : j = k
  · subst hjk
    simp [lgTxqFree, TxMsg.Pinned] at hj
  · simp [lgTxqFree, hjk]

end Stocked

/-- Work that leaves routing, the table, the links and their terms as they are. -/
structure Steady (c c' : Node cfg) : Prop where
  stance : c'.stance = c.stance
  about : c'.hs.n = c.hs.n
  entry : ∀ i, Unmoved (c.neigh i) (c'.neigh i)
  stock : Stocked c c'

namespace Steady

theorem posture (h : Steady c c') : c'.posture = c.posture := congrArg Prod.fst h.stance

theorem flags (h : Steady c c') (i : Fin cfg.maxNeighbors) :
    (c'.view i).flags = (c.view i).flags := congrFun (congrArg Prod.snd h.stance) i

theorem of_stocked (hs : c'.stance = c.stance) (hn : c'.neigh = c.neigh)
    (hab : c'.hs.n = c.hs.n) (hst : Stocked c c') : Steady c c' :=
  ⟨hs, hab, fun i => by rw [hn]; exact .refl _, hst⟩

theorem of_neigh (hs : c'.rest = c.rest) (hn : c'.neigh = c.neigh)
    (hab : c'.hs.n = c.hs.n) : Steady c c' :=
  of_stocked (congrArg Prod.fst hs) hn hab (.of_rest hs)

theorem refl (c : Node cfg) : Steady c c := of_neigh rfl rfl rfl

theorem of_quiet (h : Node.Quiet c c') (hs : c'.rest = c.rest) : Steady c c' := by
  obtain ⟨net, view, rfl⟩ := h
  exact of_neigh hs rfl rfl

theorem trans (h : Steady c c') (h' : Steady c' c'') : Steady c c'' :=
  ⟨h'.stance.trans h.stance, h'.about.trans h.about, fun i => (h.entry i).trans (h'.entry i),
    h.stock.trans h'.stock h.entry⟩

theorem setNeigh (c : Node cfg) (i : Fin cfg.maxNeighbors) {n : Neigh}
    (h : Unmoved (c.neigh i) n) : Steady c (c.setNeigh i n) := by
  refine ⟨rfl, rfl, fun j => ?_, .of_rest rfl⟩
  by_cases hj : j = i
  · subst hj
    simpa using h
  · simpa [hj] using .refl _

/-- Work on one entry that is not linked. -/
theorem of_tends (h : Tends i c c') (hs : c'.rest = c.rest)
    (hl : (c.neigh i).state ≠ .linked) : Steady c c' := by
  refine ⟨congrArg Prod.fst hs, h.about, fun j => ?_, .of_rest hs⟩
  by_cases hj : j = i
  · subst hj
    exact .of_unlinked hl h.state h.addr
  · rw [h.others j hj]
    exact .refl _

theorem state (h : Steady c c') (i : Fin cfg.maxNeighbors) :
    (c'.neigh i).state = (c.neigh i).state := (h.entry i).state

theorem addr (h : Steady c c') (i : Fin cfg.maxNeighbors) :
    (c'.neigh i).addr = (c.neigh i).addr := (h.entry i).addr

end Steady

/-- What the control frame of a link is built from. -/
def Schedule.change (s : Schedule) : Bool × PendingCtrl × UInt16 × UInt8 × ℕ :=
  (s.initiator, s.pendingCtrl, s.pendingChanMap, s.pendingSubrate, s.instant)

/-- The link keeps its key, the frame that is staged and a change that is pending. A control frame
is acknowledged only if `r`, and an acknowledgement is no longer there for another change. -/
structure Unstirred (r : Prop) (n n' : Neigh) : Prop where
  hasKey : n'.keys.hasKey = n.keys.hasKey
  staged : n'.tx.txPending = n.tx.txPending
  wasCtrl : n'.tx.txWasCtrl = n.tx.txWasCtrl
  change : n.sched.pendingCtrl.any = true → n'.sched.change = n.sched.change
  acked : n'.sched.ctrlAcked = true → r ∧ n.tx.txWasCtrl = true ∨
    n.sched.ctrlAcked = true ∧ n'.sched.change = n.sched.change

namespace Unstirred

variable {r : Prop} {n n' n'' : Neigh}

theorem of_eq (hkey : n'.keys.hasKey = n.keys.hasKey) (hstaged : n'.tx.txPending = n.tx.txPending)
    (hctrl : n'.tx.txWasCtrl = n.tx.txWasCtrl) (hchange : n'.sched.change = n.sched.change)
    (hacked : n'.sched.ctrlAcked = n.sched.ctrlAcked) : Unstirred r n n' :=
  ⟨hkey, hstaged, hctrl, fun _ => hchange, fun h => .inr ⟨hacked ▸ h, hchange⟩⟩

theorem refl (n : Neigh) : Unstirred r n n := of_eq rfl rfl rfl rfl rfl

theorem any_eq {s s' : Schedule} (h : s'.change = s.change) :
    s'.pendingCtrl.any = s.pendingCtrl.any := by
  have hctrl : s'.pendingCtrl = s.pendingCtrl := congrArg (fun p => p.2.1) h
  rw [hctrl]

theorem trans (h : Unstirred r n n') (h' : Unstirred r n' n'') : Unstirred r n n'' where
  hasKey := h'.hasKey.trans h.hasKey
  staged := h'.staged.trans h.staged
  wasCtrl := h'.wasCtrl.trans h.wasCtrl
  change := by
    intro hany
    have hchange := h.change hany
    exact (h'.change ((any_eq hchange).trans hany)).trans hchange
  acked := by
    intro hack
    rcases h'.acked hack with ⟨hr, hctrl⟩ | ⟨hack', hchange'⟩
    · exact .inl ⟨hr, h.wasCtrl ▸ hctrl⟩
    · rcases h.acked hack' with hnew | ⟨hold, hchange⟩
      · exact .inl hnew
      · exact .inr ⟨hold, hchange'.trans hchange⟩

end Unstirred

/-- Steady work that leaves alone what the links have staged and pending; it may take a reply from
the links in `r`. -/
structure Still (r : Fin cfg.maxNeighbors → Prop) (c c' : Node cfg) : Prop extends Steady c c' where
  link : ∀ i, (c.neigh i).state = .linked → Unstirred (r i) (c.neigh i) (c'.neigh i)

namespace Still

variable {r : Fin cfg.maxNeighbors → Prop}

theorem of_stocked (hs : c'.stance = c.stance) (hn : c'.neigh = c.neigh)
    (hab : c'.hs.n = c.hs.n) (hst : Stocked c c') : Still r c c' :=
  ⟨.of_stocked hs hn hab hst, fun i _ => by rw [hn]; exact .refl _⟩

theorem of_neigh (hs : c'.rest = c.rest) (hn : c'.neigh = c.neigh)
    (hab : c'.hs.n = c.hs.n) : Still r c c' :=
  of_stocked (congrArg Prod.fst hs) hn hab (.of_rest hs)

theorem refl (c : Node cfg) : Still r c c := of_neigh rfl rfl rfl

theorem of_quiet (h : Node.Quiet c c') (hs : c'.rest = c.rest) : Still r c c' := by
  obtain ⟨net, view, rfl⟩ := h
  exact of_neigh hs rfl rfl

theorem trans (h : Still r c c') (h' : Still r c' c'') : Still r c c'' :=
  ⟨h.toSteady.trans h'.toSteady, fun i hl =>
    (h.link i hl).trans (h'.link i ((h.toSteady.state i).trans hl))⟩

theorem setNeigh (c : Node cfg) (i : Fin cfg.maxNeighbors) {n : Neigh}
    (h : Unmoved (c.neigh i) n)
    (hlink : (c.neigh i).state = .linked → Unstirred (r i) (c.neigh i) n) :
    Still r c (c.setNeigh i n) := by
  refine ⟨.setNeigh c i h, fun j hj => ?_⟩
  by_cases hji : j = i
  · subst hji
    simpa using hlink hj
  · simpa [hji] using .refl _

theorem setUnlinked (c : Node cfg) (i : Fin cfg.maxNeighbors) {n : Neigh}
    (hl : (c.neigh i).state ≠ .linked) (hstate : n.state = (c.neigh i).state)
    (haddr : n.addr = (c.neigh i).addr) : Still r c (c.setNeigh i n) :=
  .setNeigh c i (.of_unlinked hl hstate haddr) fun h => absurd h hl

/-- Work on one entry that is not linked. -/
theorem of_tends (h : Tends i c c') (hs : c'.rest = c.rest)
    (hl : (c.neigh i).state ≠ .linked) : Still r c c' := by
  refine ⟨.of_tends h hs hl, fun j hj => ?_⟩
  have hji : j ≠ i := by
    rintro rfl
    exact hl hj
  rw [h.others j hji]
  exact .refl _

end Still

variable {r : Fin cfg.maxNeighbors → Prop}

/-- Any frame at all may be staged. -/
theorem setTx_steady (c : Node cfg) (i : Fin cfg.maxNeighbors) (t : TxStage) :
    Steady c (c.setTx i t) := .setNeigh c i (.of_eq rfl rfl rfl)

/-! ## The table, the queue and received data -/

theorem setKeys_still (c : Node cfg) (i : Fin cfg.maxNeighbors) (k : Keys)
    (h : k.hasKey = (c.neigh i).keys.hasKey) : Still r c (c.setKeys i k) :=
  .setNeigh c i (.of_eq rfl rfl rfl) fun _ => .of_eq h rfl rfl rfl rfl

theorem setTx_still (c : Node cfg) (i : Fin cfg.maxNeighbors) (t : TxStage)
    (hstaged : t.txPending = (c.neigh i).tx.txPending)
    (hctrl : t.txWasCtrl = (c.neigh i).tx.txWasCtrl) : Still r c (c.setTx i t) :=
  .setNeigh c i (.of_eq rfl rfl rfl) fun _ => .of_eq rfl hstaged hctrl rfl rfl

theorem setSched_still (c : Node cfg) (i : Fin cfg.maxNeighbors) (s : Schedule)
    (hterms : s.terms = (c.neigh i).sched.terms)
    (hsub : s.subrate = (c.neigh i).sched.subrate ∨ s.subrate = 1)
    (hchange : s.change = (c.neigh i).sched.change)
    (hacked : s.ctrlAcked = true → r i ∧ (c.neigh i).tx.txWasCtrl = true ∨
      (c.neigh i).sched.ctrlAcked = true) :
    Still r c (c.setNeigh i { c.neigh i with sched := s }) :=
  .setNeigh c i (.of_sched hterms hsub) fun _ =>
    ⟨rfl, rfl, rfl, fun _ => hchange, fun h => (hacked h).imp_right fun h => ⟨h, hchange⟩⟩

theorem lgSecEncrypt_still (psa : Psa) (ok : Bool) (c : Node cfg) (i : Fin cfg.maxNeighbors)
    (pdu : Bytes) (hdr : ℕ) : Still r c (lgSecEncrypt psa ok c i pdu hdr).2 := by
  rcases lgSecEncrypt_cases psa ok c i pdu hdr with h | ⟨-, h⟩ | ⟨key, aad, plain, -, -, h⟩ <;>
    rw [h]
  · exact .refl c
  · exact setKeys_still c i _ rfl
  · have hk : Still r c (c.setKeys i { (c.neigh i).keys with
        txCtr := (c.neigh i).keys.txCtr + 1 }) := setKeys_still c i _ rfl
    exact hk.trans (.of_neigh rfl rfl rfl)

theorem lgSecDecrypt_still (psa : Psa) (ok : Bool) (c : Node cfg) (i : Fin cfg.maxNeighbors)
    (pdu : Bytes) : Still r c (lgSecDecrypt psa ok c i pdu).2 := by
  rcases lgSecDecrypt_cases psa ok c i pdu with h | ⟨r, m, h⟩ <;> rw [h]
  · exact .refl c
  · exact setKeys_still c i _ rfl

theorem expedite_terms (now : ℕ) (s : Schedule) : (expedite now s).terms = s.terms := by
  unfold expedite
  split <;> rfl

theorem expedite_subrate (now : ℕ) (s : Schedule) :
    (expedite now s).subrate = s.subrate ∨ (expedite now s).subrate = 1 := by
  unfold expedite
  split
  · exact .inr rfl
  · exact .inl rfl

theorem expedite_change (now : ℕ) (s : Schedule) :
    (expedite now s).change = s.change ∧ (expedite now s).ctrlAcked = s.ctrlAcked := by
  unfold expedite
  split <;> exact ⟨rfl, rfl⟩

theorem lgSchedExpedite_still (c : Node cfg) (i : Fin cfg.maxNeighbors) :
    Still r c (lgSchedExpedite c i) := by
  unfold lgSchedExpedite
  dsimp only
  split
  · exact .refl c
  · obtain ⟨hchange, hacked⟩ := expedite_change c.nowUs (c.neigh i).sched
    exact setSched_still c i _ (expedite_terms _ _) (expedite_subrate _ _) hchange
      fun h => .inr (hacked ▸ h)

theorem lgRouteNextHop_still (c : Node cfg) (final : Addr) (flags : UInt8) :
    Still r c (lgRouteNextHop c final flags).2 := by
  have hdead : Stocked c (dropDeadRoute c final flags) := by
    unfold dropDeadRoute
    split
    · exact .of_rest rfl
    · split
      · dsimp only
        split
        · exact .of_setRoute c _
        · exact .of_rest rfl
      · exact .of_rest rfl
  obtain ⟨net, view, h⟩ := lgRouteNextHop_quiet c final flags
  refine .of_stocked (lgRouteNextHop_stance c final flags) ?_ ?_ hdead
  · rw [h]
  · rw [h]

theorem lgTxqPeek_still (c : Node cfg) (peer : Addr) : Still r c (lgTxqPeek c peer).2 := by
  have hhop : ∀ (c : Node cfg) (m : TxMsg), Still r c (msgNextHop c m).2 := by
    intro c m
    unfold msgNextHop
    split
    · exact .refl c
    · exact lgRouteNextHop_still c _ _
  have hone : ∀ (st : Option (Fin cfg.txQueueSize) × Node cfg) k,
      Still r st.2 (peekSlot peer st k).2 := by
    intro st k
    have h := hhop st.2 (st.2.txq k)
    unfold peekSlot
    dsimp only
    split
    · exact .refl _
    · split
      · exact h
      · split
        · exact h
        · split <;> exact h
  have hall : ∀ (l : List (Fin cfg.txQueueSize)) (st : Option (Fin cfg.txQueueSize) × Node cfg),
      Still r st.2 (l.foldl (peekSlot peer) st).2 := by
    intro l
    induction l with
    | nil => exact fun st => .refl _
    | cons k l ih => exact fun st => (hone st k).trans (ih _)
  exact hall _ (none, c)

theorem lgTxqPeek_steady (c : Node cfg) (peer : Addr) : Steady c (lgTxqPeek c peer).2 :=
  (lgTxqPeek_still (r := fun _ => True) c peer).toSteady

theorem sendCopies_still (m : TxMsg) (l : List (Fin cfg.maxNeighbors)) (st : ℕ × Node cfg) :
    Still r st.2 (sendCopies m l st).2 := by
  induction l generalizing st with
  | nil => exact .refl _
  | cons i rest ih =>
    obtain ⟨sent, c⟩ := st
    rw [sendCopies]
    split
    · exact ih (sent, c)
    · next hl =>
      split
      · exact .refl c
      · next k _ =>
        have henq : Still r c (enqueue c k { m with finalDst := (c.neigh i).addr }) :=
          .of_stocked rfl rfl rfl (.of_enqueue c k fun _ => ⟨i, by simpa using hl, rfl⟩)
        exact (henq.trans (lgSchedExpedite_still _ i)).trans (ih (sent + 1, _))

theorem lgSendForward_still (c : Node cfg) (m : TxMsg) : Still r c (lgSendForward c m).2 := by
  have hq : Still r c _ := lgRouteNextHop_still c m.finalDst m.flags
  unfold lgSendForward
  dsimp only
  split
  · exact .refl c
  · split
    · exact .refl c
    · split
      · exact sendCopies_still m _ (0, c)
      · next hcopy =>
        split
        · exact hq
        · split
          · exact hq
          · refine hq.trans (.of_stocked rfl rfl rfl (.of_enqueue _ _ fun h => ?_))
            exact absurd h hcopy

theorem lgSend_still (c : Node cfg) (dst : Addr) (port : UInt8) (payload : Bytes)
    (flags : UInt8) : Still r c (lgSend c dst port payload flags).2 := by
  have h0 : Still r c { c with msgIdNext := c.msgIdNext + 1 } := .of_neigh rfl rfl rfl
  unfold lgSend
  dsimp only
  split <;> next hs =>
    have h1 := h0.trans (congrArg Prod.snd hs ▸ lgSendForward_still _ _)
    first
      | exact h1
      | split
        · split
          · exact h1.trans (lgSchedExpedite_still _ _)
          · exact h1
        · exact h1

theorem forwardData_still (c : Node cfg) (m : TxMsg) : Still r c (forwardData c m) := by
  have hq : Still r c _ := lgRouteNextHop_still c m.finalDst 0
  unfold forwardData
  dsimp only
  split
  · exact .refl c
  · split
    · split
      · exact hq
      · exact hq.trans (lgSendForward_still _ _)
    · exact lgSendForward_still c _

theorem handleData_still (c : Node cfg) (body : Bytes) : Still r c (handleData c body) := by
  unfold handleData
  split
  · exact .refl c
  · dsimp only
    have hq : Still r c (lgRouteIsDuplicate c (getLe16 body 1) (getLe16 body 7)).2 :=
      .of_quiet (lgRouteIsDuplicate_quiet c _ _) (lgRouteIsDuplicate_rest c _ _)
    split
    · exact hq
    · split
      · exact hq
      · exact hq.trans (forwardData_still _ _)

theorem lgRxPost_still (c : Node cfg) (rx : RxRec) : Still r c (lgRxPost c rx) := by
  unfold lgRxPost
  split
  · exact .refl c
  · exact .of_neigh rfl rfl rfl

/-! ## The radio -/

theorem lgSchedEventDone_still (c : Node cfg) : Still r c (lgSchedEventDone c) :=
  .of_neigh rfl rfl rfl

theorem command_still (o : Oracle) (c : Node cfg) (p : Phy) : Still r c (command o c p) := by
  unfold command
  split
  · exact .of_neigh rfl rfl rfl
  · exact lgSchedEventDone_still c

theorem linkStart_still (o : Oracle) (c : Node cfg) (i : Fin cfg.maxNeighbors) :
    Still r c (linkStart o c i) := by
  refine .trans ?_ (command_still o _ _)
  exact .of_neigh rfl rfl rfl

theorem linkTxDone_still (o : Oracle) (c : Node cfg) (i : Fin cfg.maxNeighbors) :
    Still r c (linkTxDone o c i) := by
  have haired : ∀ e h, Still r c { c with evst := e, hist := h } := fun _ _ => .of_neigh rfl rfl rfl
  unfold linkTxDone
  dsimp only
  split
  · exact (haired _ _).trans (lgSchedEventDone_still _)
  · exact (haired _ _).trans (command_still o _ .rx)

theorem lgNeighTxResult_still (c : Node cfg) (i : Fin cfg.maxNeighbors) (acked : Bool) :
    Still r c (lgNeighTxResult c i acked) :=
  .of_neigh (lgNeighTxResult_rest c i acked) rfl rfl

theorem lgChanResult_still (c : Node cfg) (chan : ℕ) (ok : Bool) :
    Still r c (lgChanResult c chan ok) :=
  .of_quiet (lgChanResult_quiet c chan ok) (lgChanResult_rest c chan ok)

theorem noteLinkFrame_still (c : Node cfg) (i : Fin cfg.maxNeighbors) (rx : RxRec) :
    Still r c (noteLinkFrame c i rx) := by
  unfold noteLinkFrame
  dsimp only
  refine .trans ?_ (lgNeighTxResult_still _ i true)
  refine .trans ?_ (lgRxPost_still _ rx)
  refine .trans ?_ (lgChanResult_still _ _ true)
  have hrssi :
      Still r c (lgNeighRxRssi { c with evst := { c.evst with gotRx := true } } i rx.rssi) :=
    .of_neigh (lgNeighRxRssi_rest { c with evst := { c.evst with gotRx := true } } i rx.rssi) rfl
      rfl
  exact hrssi.trans (setSched_still _ i _ rfl (.inl rfl) rfl .inr)

theorem noteLinkFrame_txFirst (c : Node cfg) (i : Fin cfg.maxNeighbors) (rx : RxRec) :
    (noteLinkFrame c i rx).evst.txFirst = c.evst.txFirst := by
  have hpost : ∀ d : Node cfg, (lgRxPost d rx).evst = d.evst := by
    intro d
    unfold lgRxPost
    split <;> rfl
  have hchan : ∀ (d : Node cfg) chan, (lgChanResult d chan true).evst = d.evst := by
    intro d chan
    unfold lgChanResult
    split <;> rfl
  change (lgRxPost _ rx).evst.txFirst = _
  rw [hpost, hchan]
  rfl

/-- A reply to a control frame acknowledges it. -/
theorem linkRxDone_still (o : Oracle) (c : Node cfg) (i : Fin cfg.maxNeighbors) (rx : RxRec)
    (hr : c.evst.txFirst = true → r i) : Still r c (linkRxDone o c i rx) := by
  have hn : Still r c _ := noteLinkFrame_still c i rx
  have hfirst := noteLinkFrame_txFirst c i rx
  unfold linkRxDone
  dsimp only
  split
  · next hf =>
    refine .trans ?_ (lgSchedEventDone_still _)
    refine hn.trans (setSched_still _ i _ rfl (.inl rfl) rfl fun hack => ?_)
    rcases (Bool.or_eq_true _ _).mp hack with hold | hctrl
    · exact .inr hold
    · exact .inl ⟨hr (hfirst ▸ hf), hctrl⟩
  · split
    · refine .trans ?_ (command_still o _ .tx)
      exact hn.trans (setSched_still _ i _ rfl (.inl rfl) rfl .inr)
    · refine .trans ?_ (lgSchedEventDone_still _)
      exact hn.trans (setSched_still _ i _ rfl (.inl rfl) rfl .inr)

theorem linkRxFail_still (c : Node cfg) (i : Fin cfg.maxNeighbors) (reason : RxFail) :
    Still r c (linkRxFail c i reason) := by
  have hc : Still r c (if reason = .crc ∨ reason = .timeout then lgChanResult c c.ev.chan false
      else c) := by
    split
    · exact lgChanResult_still c _ false
    · exact .refl c
  unfold linkRxFail
  refine .trans ?_ (lgSchedEventDone_still _)
  generalize (if reason = .crc ∨ reason = .timeout then lgChanResult c c.ev.chan false
    else c) = d at hc
  split
  · exact hc.trans (lgNeighTxResult_still d i false)
  · exact hc

theorem sendCopy_still (o : Oracle) (c : Node cfg) (k : ℕ) (h : Still r c d) :
    Still r c (sendCopy o c k d) := by
  unfold sendCopy
  split
  · split
    · exact h
    · exact .of_neigh rfl rfl rfl
  · exact h

theorem beaconStart_still (o : Oracle) (c : Node cfg) : Still r c (beaconStart o c) := by
  have h : Still r c { c with net := { c.net with beaconCopyIdx := 0 } } := .of_neigh rfl rfl rfl
  unfold beaconStart
  dsimp only
  split
  · exact .of_neigh rfl rfl rfl
  · exact h.trans (sendCopy_still o _ 0 (lgSchedEventDone_still _))

theorem beaconTxDone_still (o : Oracle) (c : Node cfg) (airEndUs : ℕ) :
    Still r c (beaconTxDone o c airEndUs) := by
  let e : Node cfg := { c with net := { c.net with beaconCopyIdx := c.net.beaconCopyIdx + 1 } }
  have h : Still r c e := .of_neigh rfl rfl rfl
  unfold beaconTxDone
  refine h.trans (sendCopy_still o e _ ?_)
  split
  · exact .of_neigh rfl rfl rfl
  · exact lgSchedEventDone_still e

theorem listenOn_still (o : Oracle) (c : Node cfg) : Still r c (listenOn o c) := by
  unfold listenOn
  split
  · exact command_still o c .rx
  · exact lgSchedEventDone_still c

theorem scanRxDone_still (o : Oracle) (c : Node cfg) (rx : RxRec) :
    Still r c (scanRxDone o c rx) := by
  have h : Still r c _ := lgRxPost_still c rx
  unfold scanRxDone
  dsimp only
  split
  · exact h.trans (.of_neigh rfl rfl rfl)
  · exact h.trans (listenOn_still o _)

theorem trackResult_still (c : Node cfg) (heard : Bool) : Still r c (trackResult c heard) := by
  unfold trackResult
  split
  · exact .of_quiet (lgDiscTrackResult_quiet c _ heard) (lgDiscTrackResult_rest c _ heard)
  · exact .refl c

theorem setHs_still (c : Node cfg) (hs : Hs cfg) (h : hs.n = c.hs.n) :
    Still r c (c.setHs hs) := .of_neigh rfl rfl h

theorem buildFragment_still (psa : Psa) (o : Oracle) (c : Node cfg) (idx : ℕ) :
    Still r c (buildFragment psa o c idx).2 := by
  unfold buildFragment
  split
  · exact .refl c
  · next i _ =>
    dsimp only
    have ht : Still r c _ := setTx_still c i
      { (c.neigh i).tx with txSeq := (c.neigh i).tx.txSeq + 1 } rfl rfl
    split
    · split <;> next he =>
        have hs := congrArg Prod.snd he ▸ lgSecEncrypt_still (r := r) psa (o.ok .encrypt) _ i _ _
        exact ht.trans hs
    · exact ht

theorem sendFragment_still (psa : Psa) (o : Oracle) (c : Node cfg) (idx : ℕ) :
    Still r c (sendFragment psa o c idx) := by
  have hb : Still r c _ := (buildFragment_still psa o c idx).trans
    (setHs_still _ { (buildFragment psa o c idx).2.hs with
      lastTxLen := (buildFragment psa o c idx).1.length } rfl)
  unfold sendFragment
  dsimp only
  split
  · exact hb.trans (lgSchedEventDone_still _)
  · exact hb.trans (command_still o _ .tx)

theorem joinTxStart_still (psa : Psa) (o : Oracle) (c : Node cfg) :
    Still r c (joinTxStart psa o c) := by
  unfold joinTxStart
  split
  · exact lgSchedEventDone_still c
  · exact (setHs_still c _ (by rfl)).trans (sendFragment_still psa o _ 0)

theorem joinTxDone_still (psa : Psa) (o : Oracle) (c : Node cfg) (airEndUs : ℕ) :
    Still r c (joinTxDone psa o c airEndUs) := by
  unfold joinTxDone
  dsimp only
  split
  · exact (setHs_still c _ (by rfl)).trans (sendFragment_still psa o _ _)
  · exact (setHs_still c _ (by rfl)).trans (lgSchedEventDone_still _)

theorem joinRxFail_still (o : Oracle) (c : Node cfg) (reason : RxFail) :
    Still r c (joinRxFail o c reason) := by
  unfold joinRxFail
  split
  · exact listenOn_still o c
  · exact lgSchedEventDone_still c

theorem tsGranted_still (psa : Psa) (o : Oracle) (c : Node cfg) :
    Still r c (tsGranted psa o c) := by
  have hg : Still r c { c with granted := true } := .of_neigh rfl rfl rfl
  refine hg.trans ?_
  unfold tsGranted
  dsimp only
  split
  · exact linkStart_still o _ _
  · exact beaconStart_still o _
  · exact command_still o _ .rx
  · exact command_still o _ .rx
  · exact joinTxStart_still psa o _
  · exact (setHs_still _ _ (by rfl)).trans (command_still o _ .rx)
  · exact Still.trans (.of_quiet (lgChanNoise_quiet _ _ _) (lgChanNoise_rest _ _ _))
      (lgSchedEventDone_still _)
  · exact .of_neigh rfl rfl rfl

theorem phyTxDone_still (psa : Psa) (o : Oracle) (c : Node cfg) (airEndUs : ℕ) :
    Still r c (phyTxDone psa o c airEndUs) := by
  unfold phyTxDone
  split
  · exact linkTxDone_still o c _
  · exact beaconTxDone_still o c airEndUs
  · exact joinTxDone_still psa o c airEndUs
  · exact lgSchedEventDone_still c

theorem phyRxDone_still (o : Oracle) (c : Node cfg) (rx : RxRec)
    (hr : ∀ i, c.ev.kind = .link → c.ev.neigh = some i → c.evst.txFirst = true → r i) :
    Still r c (phyRxDone o c rx) := by
  unfold phyRxDone
  split
  · next hk hn => exact linkRxDone_still o c _ rx (hr _ hk hn)
  · exact scanRxDone_still o c rx
  · exact ((lgRxPost_still c rx).trans (trackResult_still _ true)).trans
      (lgSchedEventDone_still _)
  · exact (lgRxPost_still c rx).trans (listenOn_still o _)
  · exact lgSchedEventDone_still c

theorem phyRxFailed_still (o : Oracle) (c : Node cfg) (reason : RxFail) :
    Still r c (phyRxFailed o c reason) := by
  unfold phyRxFailed
  split
  · exact linkRxFail_still c _ reason
  · exact joinRxFail_still o c reason
  · exact joinRxFail_still o c reason
  · exact (trackResult_still c false).trans (lgSchedEventDone_still _)
  · exact lgSchedEventDone_still c

/-! ## The scheduler -/

theorem lgLinkNextEventUs_unmoved {now fuel : ℕ} {n n' : Neigh} {t : Option ℕ}
    (h : lgLinkNextEventUs cfg now fuel n = some (n', t)) :
    Unmoved n n' ∧ ∀ p, Unstirred p n n' := by
  unfold lgLinkNextEventUs at h
  split at h
  · cases h
    exact ⟨.refl n, fun _ => .refl n⟩
  · obtain ⟨s, hs, he⟩ := Option.map_eq_some_iff.mp h
    cases he
    rcases anchorCatchUp_anchorSet hs with rfl | ⟨k, rfl⟩
    · exact ⟨.refl n, fun _ => .refl n⟩
    · exact ⟨.of_sched rfl (.inl rfl), fun _ => .of_eq rfl rfl rfl rfl rfl⟩

theorem neighCandidate_still {l : List (Candidate cfg)} {p : List (Candidate cfg) × Node cfg}
    (h : neighCandidate c l i = some p) : Still r c p.2 := by
  unfold neighCandidate at h
  dsimp only at h
  split at h
  · obtain ⟨⟨n, t⟩, hn, rfl⟩ := Option.map_eq_some_iff.mp h
    obtain ⟨hmoved, hstirred⟩ := lgLinkNextEventUs_unmoved hn
    exact .setNeigh c i hmoved fun _ => hstirred _
  · cases h
    exact .refl c
  · cases h
    exact .refl c

theorem candidates_still {p : List (Candidate cfg) × Node cfg} (h : candidates c = some p) :
    Still r c p.2 := by
  have hfold : ∀ (l : List (Fin cfg.maxNeighbors)) (st p : List (Candidate cfg) × Node cfg),
      l.foldlM (fun st i => neighCandidate st.2 st.1 i) st = some p → Still r st.2 p.2 := by
    intro l
    induction l with
    | nil =>
      intro st p h
      cases h
      exact .refl _
    | cons i l ih =>
      intro st p h
      rw [List.foldlM_cons] at h
      obtain ⟨st', hst, h⟩ := Option.bind_eq_some_iff.mp h
      exact (neighCandidate_still hst).trans (ih st' p h)
  obtain ⟨⟨l, e⟩, he, rfl⟩ := Option.map_eq_some_iff.mp h
  exact (hfold _ ([], c) _ he).trans
    (.of_quiet (dropStaleTracks_quiet e) (dropStaleTracks_rest e))

theorem eventPlan_still (c : Node cfg) (cand : Candidate cfg) : Still r c (eventPlan c cand).2 :=
  .of_quiet (eventPlan_quiet c cand) (eventPlan_rest c cand)

theorem announceChanMap_terms (map : UInt16) (s : Schedule) :
    (announceChanMap map s).terms = s.terms ∧ (announceChanMap map s).subrate = s.subrate := by
  unfold announceChanMap
  split <;> exact ⟨rfl, rfl⟩

/-- A new channel map is announced where no change is pending. -/
theorem announceChanMap_unstirred (p : Prop) (map : UInt16) (n : Neigh) :
    Unstirred p n { n with sched := announceChanMap map n.sched } := by
  unfold announceChanMap
  split
  · next hidle =>
    simp only [Bool.and_eq_true, Bool.not_eq_true'] at hidle
    refine ⟨rfl, rfl, rfl, fun hany => ?_, nofun⟩
    rw [hidle.2] at hany
    cases hany
  · exact .refl n

theorem announceMap_still (c : Node cfg) : Still r c (announceMap c) := by
  refine ⟨⟨rfl, rfl, fun i => ?_, .of_rest rfl⟩, fun i hl => ?_⟩
  · simp only [announceMap]
    split
    · obtain ⟨hterms, hsub⟩ := announceChanMap_terms c.net.chanMap (c.neigh i).sched
      exact .of_sched hterms (.inl hsub)
    · exact .refl _
  · simp only [announceMap]
    rw [if_pos hl]
    exact announceChanMap_unstirred (r i) c.net.chanMap (c.neigh i)

theorem finishChanEval_still (c : Node cfg) : Still r c (finishChanEval c) := by
  have hr : Still r c (lgChanReevaluate c).2 := .of_quiet (lgChanReevaluate_quiet c) rfl
  unfold finishChanEval
  dsimp only
  split
  · exact (hr.trans (announceMap_still _)).trans (.of_neigh rfl rfl rfl)
  · exact hr.trans (.of_neigh rfl rfl rfl)

end LockGrid
