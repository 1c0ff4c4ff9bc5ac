import LockGrid.Advert
import LockGrid.Release

/-!
# Overheard frames

A link event with a frame in it that is not the peer's or not for this node, beside the same event
without it. The handler of a received frame looks at no header, so the link's times, metrics and
queue tell the two apart.
-/
namespace LockGrid

variable {cfg : Config}

/-! ## An event with a frame, and without -/

def Node.at (c : Node cfg) (t : ℕ) : Node cfg := { c with nowUs := t }

/-- The event of link `i` up to where the radio listens. -/
def linkListens (o : Oracle) (c : Node cfg) (i : Fin cfg.maxNeighbors) : Node cfg :=
  let c := linkStart o c i
  if c.evst.txFirst then linkTxDone o c i else c

/-- The rest of it with the frame `rx`: a responder's reply may go out. -/
def linkHears (o : Oracle) (c : Node cfg) (i : Fin cfg.maxNeighbors) (rx : RxRec) : Node cfg :=
  let c := linkRxDone o c i rx
  if c.phy = .tx then linkTxDone o c i else c

/-- The frame is heard at time `t` and the event settled at time `t'`. -/
def eventWith (psa : Psa) (o o₁ o₂ : Oracle) (c : Node cfg) (i : Fin cfg.maxNeighbors)
    (rx : RxRec) (t t' : ℕ) : Node cfg :=
  lgLinkEventFinish psa o₂ ((linkHears o₁ ((linkListens o c i).at t) i rx).at t') i

/-- Nothing is heard, and the event is settled at time `t'`. -/
def eventWithout (psa : Psa) (o o₂ : Oracle) (c : Node cfg) (i : Fin cfg.maxNeighbors)
    (t' : ℕ) : Node cfg :=
  lgLinkEventFinish psa o₂ ((linkRxFail (linkListens o c i) i .timeout).at t') i

/-- The frame is not from the peer, or not for this node. -/
def Foreign (c : Node cfg) (i : Fin cfg.maxNeighbors) (rx : RxRec) : Prop :=
  getLe16 rx.pdu offSrc ≠ (c.neigh i).addr ∨ getLe16 rx.pdu offDst ≠ c.ident.addr

/-- Times, acknowledgement, delivery counters and queue are the same. -/
structure EndsAlike (c d : Node cfg) (i : Fin cfg.maxNeighbors) : Prop where
  epochUs : (c.neigh i).sched.epochUs = (d.neigh i).sched.epochUs
  anchorUs : (c.neigh i).sched.anchorUs = (d.neigh i).sched.anchorUs
  lastSyncUs : (c.neigh i).sched.lastSyncUs = (d.neigh i).sched.lastSyncUs
  lastRxUs : (c.neigh i).sched.lastRxUs = (d.neigh i).sched.lastRxUs
  ctrlAcked : (c.neigh i).sched.ctrlAcked = (d.neigh i).sched.ctrlAcked
  txAttempts : (c.view i).txAttempts = (d.view i).txAttempts
  txAcked : (c.view i).txAcked = (d.view i).txAcked
  consecMisses : (c.view i).consecMisses = (d.view i).consecMisses
  txq : c.txq = d.txq

/-! ## What settling an event leaves of the metrics -/

/-- The delivery counters of every neighbour are the same. -/
def SameTally (c c' : Node cfg) : Prop :=
  ∀ j, (c'.view j).txAttempts = (c.view j).txAttempts ∧ (c'.view j).txAcked = (c.view j).txAcked ∧
    (c'.view j).consecMisses = (c.view j).consecMisses

theorem SameTally.of_view {c c' : Node cfg} (h : c'.view = c.view) : SameTally c c' := by
  intro j
  rw [h]
  exact ⟨rfl, rfl, rfl⟩

theorem SameTally.trans {c c' c'' : Node cfg} (h : SameTally c c') (h' : SameTally c' c'') :
    SameTally c c'' := by
  intro j
  obtain ⟨ha, hk, hm⟩ := h j
  obtain ⟨ha', hk', hm'⟩ := h' j
  exact ⟨ha'.trans ha, hk'.trans hk, hm'.trans hm⟩

theorem SameTable.view {c c' : Node cfg} (h : SameTable c c') : c'.view = c.view := by
  obtain ⟨net, rfl, -⟩ := h
  rfl

theorem SameTable.tally {c c' : Node cfg} (h : SameTable c c') : SameTally c c' :=
  .of_view h.view

/-- An update of one entry that leaves its counters. -/
theorem setView_tally (c : Node cfg) (i : Fin cfg.maxNeighbors) {v : View}
    (ha : v.txAttempts = (c.view i).txAttempts) (hk : v.txAcked = (c.view i).txAcked)
    (hm : v.consecMisses = (c.view i).consecMisses) : SameTally c (c.setView i v) := by
  intro j
  by_cases hj : j = i
  · subst hj
    simp [Node.setView, ha, hk, hm]
  · simp [Node.setView, hj]

theorem lgRouteRecompute_tally (c : Node cfg) : SameTally c (lgRouteRecompute c).2 := by
  unfold lgRouteRecompute
  split_ifs <;> exact fun j => ⟨rfl, rfl, rfl⟩

theorem applyRole_tally (o : Oracle) (c : Node cfg) (want : Role) :
    SameTally c (applyRole o c want) := by
  unfold applyRole
  split_ifs
  · exact .of_view rfl
  · have hrec := lgRouteRecompute_tally
      { c with net := { c.net with role := want, roleChangedUs := c.nowUs } }
    exact SameTally.trans hrec (lgDiscRetune_sameTable o 2 _).tally

theorem lgRoleEvaluate_tally (o : Oracle) (c : Node cfg) : SameTally c (lgRoleEvaluate o c) := by
  rcases lgRoleEvaluate_cases o c with h | ⟨-, want, h⟩ <;> rw [h]
  · exact .of_view rfl
  · exact applyRole_tally o c want

theorem linksChanged_tally (o : Oracle) (c : Node cfg) : SameTally c (linksChanged o c) := by
  have hrole := lgRoleEvaluate_tally o { (lgRouteRecompute c).2 with
    net := { (lgRouteRecompute c).2.net with linkChangeUs := (lgRouteRecompute c).2.nowUs } }
  have hretune := (lgDiscRetune_sameTable o 7 (lgRoleEvaluate o { (lgRouteRecompute c).2 with
    net := { (lgRouteRecompute c).2.net with
      linkChangeUs := (lgRouteRecompute c).2.nowUs } })).tally
  exact (lgRouteRecompute_tally c).trans (SameTally.trans hrole hretune)

theorem lgLinkDown_tally (o : Oracle) (c : Node cfg) (i : Fin cfg.maxNeighbors) :
    SameTally c (lgLinkDown o c i) := by
  rw [lgLinkDown_eq]
  dsimp only
  split
  · exact .of_view rfl
  · refine .trans ?_ (linksChanged_tally o _)
    intro j
    by_cases hj : j = i
    · subst hj
      simp [lgRouteFlushVia, Node.setView, Node.note, Node.setNeigh]
    · simp [lgRouteFlushVia, Node.setView, Node.note, Node.setNeigh, hj]

theorem msgNextHop_sameTable (c : Node cfg) (m : TxMsg) : SameTable c (msgNextHop c m).2 := by
  unfold msgNextHop lgRouteNextHop dropDeadRoute
  split_ifs
  · exact .refl c
  · exact .refl c
  · cases routeFind c m.finalDst with
    | none => exact .refl c
    | some k =>
      dsimp only
      split_ifs
      · exact ⟨_, rfl, rfl, rfl, rfl⟩
      · exact .refl c

theorem peekSlot_sameTable (peer : Addr) (st : Option (Fin cfg.txQueueSize) × Node cfg)
    (k : Fin cfg.txQueueSize) : SameTable st.2 (peekSlot peer st k).2 := by
  have h := msgNextHop_sameTable st.2 (st.2.txq k)
  unfold peekSlot
  dsimp only
  split_ifs
  · exact .refl _
  · exact h
  · split
    · exact h
    · split_ifs <;> exact h

theorem lgTxqPeek_sameTable (c : Node cfg) (peer : Addr) : SameTable c (lgTxqPeek c peer).2 := by
  have h : ∀ (l : List (Fin cfg.txQueueSize)) (st : Option (Fin cfg.txQueueSize) × Node cfg),
      SameTable st.2 (l.foldl (peekSlot peer) st).2 := by
    intro l
    induction l with
    | nil => exact fun st => .refl _
    | cons k l ih => exact fun st => (peekSlot_sameTable peer st k).trans (ih _)
  exact h _ (none, c)

theorem lgSecEncrypt_view (psa : Psa) (ok : Bool) (c : Node cfg) (i : Fin cfg.maxNeighbors)
    (pdu : Bytes) (hdr : ℕ) : (lgSecEncrypt psa ok c i pdu hdr).2.view = c.view := by
  rcases lgSecEncrypt_cases psa ok c i pdu hdr with h | ⟨-, h⟩ | ⟨key, aad, plain, -, -, h⟩ <;>
    rw [h]
  all_goals rfl

theorem lgSecEncrypt_sched (psa : Psa) (ok : Bool) (c : Node cfg) (i j : Fin cfg.maxNeighbors)
    (pdu : Bytes) (hdr : ℕ) :
    ((lgSecEncrypt psa ok c i pdu hdr).2.neigh j).sched = (c.neigh j).sched := by
  rcases lgSecEncrypt_cases psa ok c i pdu hdr with h | ⟨-, h⟩ | ⟨key, aad, plain, -, -, h⟩ <;>
    rw [h]
  all_goals
    by_cases hj : j = i
    · subst hj
      simp [useCtr, Node.setKeys]
    · simp [useCtr, Node.setKeys, hj]

theorem stageSeal_view (psa : Psa) (ok : Bool) (c : Node cfg) (i : Fin cfg.maxNeighbors)
    (t : FrameType) (more : Bool) (body : Bytes) (staged : Staged) :
    (stageSeal psa ok c i t more body staged).2.view = c.view := by
  unfold stageSeal
  dsimp only
  split <;> next he =>
    have hs := congrArg Prod.snd he ▸ lgSecEncrypt_view psa ok _ i _ _
    exact hs

theorem stageSeal_sched (psa : Psa) (ok : Bool) (c : Node cfg) (i j : Fin cfg.maxNeighbors)
    (t : FrameType) (more : Bool) (body : Bytes) (staged : Staged) :
    ((stageSeal psa ok c i t more body staged).2.neigh j).sched = (c.neigh j).sched := by
  have hset : ∀ (d : Node cfg) (tx : TxStage), ((d.setNeigh i { d.neigh i with tx := tx }).neigh
      j).sched = (d.neigh j).sched := by
    intro d tx
    by_cases hj : j = i
    · subst hj
      simp
    · simp [hj]
  unfold stageSeal
  dsimp only
  split <;> next he =>
    have hs := congrArg Prod.snd he ▸ lgSecEncrypt_sched psa ok _ i j _ _
    exact (hset _ _).trans (hs.trans (hset _ _))

theorem noteAdvertised_tally (c : Node cfg) (i : Fin cfg.maxNeighbors) :
    SameTally c (noteAdvertised c i) :=
  setView_tally c i rfl rfl rfl

theorem lgLinkStageTx_tally (psa : Psa) (ok : Bool) (c : Node cfg) (i : Fin cfg.maxNeighbors) :
    SameTally c (lgLinkStageTx psa ok c i).2 := by
  have hseal : ∀ (d : Node cfg) t more body staged, SameTally c d →
      SameTally c (stageSeal psa ok d i t more body staged).2 := by
    intro d t more body staged hd
    exact hd.trans (.of_view (stageSeal_view psa ok d i t more body staged))
  unfold lgLinkStageTx
  dsimp only
  split_ifs
  · exact .of_view rfl
  · exact hseal _ _ _ _ _ (.of_view rfl)
  · exact hseal _ _ _ _ _ (noteAdvertised_tally _ i)
  · have hpeek := (lgTxqPeek_sameTable (c.setTx i { (c.neigh i).tx with txWasCtrl := false })
      (c.neigh i).addr).view
    split
    · next k d hp =>
      have hd : d.view = c.view := congrArg (fun r => r.2.view) hp ▸ hpeek
      have hmore := (lgTxqPeek_sameTable d (c.neigh i).addr).view
      exact hseal _ _ _ _ _ (.of_view (hmore.trans hd))
    · next d hp =>
      have hd : d.view = c.view := congrArg (fun r => r.2.view) hp ▸ hpeek
      exact hseal _ _ _ _ _ (.of_view hd)

theorem lgLinkStageTx_sched (psa : Psa) (ok : Bool) (c : Node cfg) (i j : Fin cfg.maxNeighbors) :
    ((lgLinkStageTx psa ok c i).2.neigh j).sched = (c.neigh j).sched := by
  rcases lgLinkStageTx_cases psa ok c i with h | ⟨t, staged, d, ft, more, body, -, hq, h⟩ <;>
    rw [h]
  rw [stageSeal_sched, hq.neigh]
  by_cases hj : j = i
  · subst hj
    simp [Node.setTx]
  · simp [Node.setTx, hj]

/-! ## What settling an event makes of link and metrics -/

theorem subrateUpdateLink_responder (c : Node cfg) {i : Fin cfg.maxNeighbors}
    (h : (c.neigh i).sched.initiator = false) : subrateUpdateLink c i = c := by
  simp [subrateUpdateLink, h]

theorem subrateUpdateLink_tally (c : Node cfg) (i : Fin cfg.maxNeighbors) :
    SameTally c (subrateUpdateLink c i) := by
  unfold subrateUpdateLink
  dsimp only
  split
  · exact .of_view rfl
  · exact (lgTxqPeek_sameTable c (c.neigh i).addr).tally

theorem lgLinkEventFinish_tally (psa : Psa) (o : Oracle) (c : Node cfg)
    (i : Fin cfg.maxNeighbors) :
    SameTally (settleOutcome o c i) (lgLinkEventFinish psa o c i) := by
  unfold lgLinkEventFinish
  dsimp only
  split
  · exact .of_view rfl
  · have hset : SameTally (settleOutcome o c i) ((settleOutcome o c i).setNeigh i
        { (settleOutcome o c i).neigh i with
          sched := lgLinkAdvance ((settleOutcome o c i).neigh i).sched }) := .of_view rfl
    exact hset.trans ((subrateUpdateLink_tally _ i).trans (lgLinkStageTx_tally psa _ _ i))

theorem applyPending_initiator (s : Schedule) : (applyPending s).initiator = s.initiator := by
  unfold applyPending
  split_ifs <;> rfl

/-- A responder's schedule after the event: a link that is still up has advanced. -/
theorem lgLinkEventFinish_sched (psa : Psa) (o : Oracle) {c : Node cfg}
    {i : Fin cfg.maxNeighbors} (h : ((settleOutcome o c i).neigh i).sched.initiator = false) :
    ((lgLinkEventFinish psa o c i).neigh i).sched =
      if ((settleOutcome o c i).neigh i).state = .linked then
        lgLinkAdvance ((settleOutcome o c i).neigh i).sched
      else ((settleOutcome o c i).neigh i).sched := by
  have hadv : (lgLinkAdvance ((settleOutcome o c i).neigh i).sched).initiator = false := by
    rw [lgLinkAdvance, applyPending_initiator]
    exact h
  unfold lgLinkEventFinish
  dsimp only
  split
  · simp
  · next hs =>
    rw [lgLinkStageTx_sched, subrateUpdateLink_responder _ (by simpa using hadv)]
    simp [not_not.mp hs]

/-- The settlement after a frame: the entry keeps its schedule and its counters. -/
theorem settleOutcome_heard (o : Oracle) {c : Node cfg} (i : Fin cfg.maxNeighbors)
    (h : c.evst.gotRx = true) :
    ((settleOutcome o c i).neigh i).sched = (c.neigh i).sched ∧
      ((settleOutcome o c i).neigh i).state = (c.neigh i).state ∧
      SameTally c (settleOutcome o c i) := by
  unfold settleOutcome
  dsimp only
  rw [if_neg (by simp [h])]
  split_ifs
  · have hpeek := lgTxqPeek_sameTable c (c.neigh i).addr
    have hn := (lgTxqPeek_quiet c (c.neigh i).addr).neigh
    split
    · refine ⟨?_, ?_, .of_view hpeek.view⟩ <;> simp [Node.setTx, lgTxqFree, hn]
    · refine ⟨?_, ?_, .of_view hpeek.view⟩ <;> simp [Node.setTx, hn]
  · exact ⟨rfl, rfl, .of_view rfl⟩

/-- Supervision ends the link when the event is a miss. -/
def Expired (s : Schedule) (t : ℕ) : Prop := s.lastRxUs ≠ 0 ∧ s.supTimeoutUs < t - s.lastRxUs

instance (s : Schedule) (t : ℕ) : Decidable (Expired s t) := instDecidableAnd

/-- The settlement after nothing: the entry is as it was or its link has gone down, and its
counters have one failure more. -/
theorem settleOutcome_missed (o : Oracle) {c : Node cfg} {i : Fin cfg.maxNeighbors}
    (h : c.evst.gotRx = false) (hl : (c.neigh i).state = .linked) :
    ((settleOutcome o c i).neigh i =
      if Expired (c.neigh i).sched c.nowUs then (c.neigh i).down else c.neigh i) ∧
      SameTally (lgNeighTxResult c i false) (settleOutcome o c i) := by
  let d := lgChanResult (lgNeighTxResult c i false) (lgLinkNextChan (c.neigh i).sched) false
  have hd : Node.Quiet (noteResult c i false) d :=
    (lgNeighTxResult_quiet c i false).trans (lgChanResult_quiet _ _ false)
  have hn : d.neigh = c.neigh := hd.neigh
  have hnow : d.nowUs = c.nowUs := by
    obtain ⟨net, view, he⟩ := hd
    rw [he]
    rfl
  have hview : d.view = (lgNeighTxResult c i false).view := by
    simp only [d, lgChanResult]
    split <;> rfl
  have hmiss : settleOutcome o c i = lgLinkEventMiss o c i := by
    simp [settleOutcome, h]
  have heq : lgLinkEventMiss o c i =
      if Expired (c.neigh i).sched d.nowUs then lgLinkDown o d i else d := rfl
  rw [hmiss, heq, hnow]
  split_ifs
  · refine ⟨?_, (SameTally.of_view hview).trans (lgLinkDown_tally o d i)⟩
    rw [lgLinkDown_self o (by rw [hn]; exact hl), hn]
  · exact ⟨by rw [hn], .of_view hview⟩

/-! ## Where the queue sends its messages -/

/-- The two nodes choose the same next hop for every message. -/
structure SameHops (c d : Node cfg) : Prop where
  now : d.nowUs = c.nowUs
  txq : d.txq = c.txq
  neigh : ∀ j, (d.neigh j).state = (c.neigh j).state ∧ (d.neigh j).addr = (c.neigh j).addr
  parent : ∀ j, (d.view j).isParent = (c.view j).isParent
  routes : d.net.routes = c.net.routes

section

variable {c d : Node cfg}

theorem SameHops.find (h : SameHops c d) (addr : Addr) :
    lgNeighFind d addr = lgNeighFind c addr := by
  have hp : (fun j => decide ((d.neigh j).state ≠ .free) && decide ((d.neigh j).addr = addr)) =
      fun j => decide ((c.neigh j).state ≠ .free) && decide ((c.neigh j).addr = addr) := by
    funext j
    rw [(h.neigh j).1, (h.neigh j).2]
  simp only [lgNeighFind, hp]

theorem SameHops.isLinkedTo (h : SameHops c d) (addr : Addr) :
    isLinkedTo d addr = isLinkedTo c addr := by
  unfold LockGrid.isLinkedTo
  rw [h.find]
  cases lgNeighFind c addr with
  | none => rfl
  | some j => simp only [(h.neigh j).1]

theorem SameHops.lgParent (h : SameHops c d) : lgParent d = lgParent c := by
  have hp : (fun j => (d.view j).isParent && decide ((d.neigh j).state = .linked)) =
      fun j => (c.view j).isParent && decide ((c.neigh j).state = .linked) := by
    funext j
    rw [h.parent, (h.neigh j).1]
  have hi : lgParentIdx d = lgParentIdx c := by
    simp only [lgParentIdx, hp]
  unfold LockGrid.lgParent
  rw [hi]
  cases lgParentIdx c with
  | none => rfl
  | some j => exact (h.neigh j).2

theorem SameHops.routeFind (h : SameHops c d) (dst : Addr) : routeFind d dst = routeFind c dst := by
  simp only [LockGrid.routeFind, h.routes]

theorem SameHops.nextHop (h : SameHops c d) (final : Addr) (flags : UInt8) :
    nextHop d final flags = nextHop c final flags := by
  simp only [LockGrid.nextHop, h.isLinkedTo, h.lgParent, h.routeFind, h.routes, h.now]

theorem SameHops.dropDeadRoute (h : SameHops c d) (final : Addr) (flags : UInt8) :
    SameHops (dropDeadRoute c final flags) (dropDeadRoute d final flags) := by
  unfold LockGrid.dropDeadRoute
  rw [h.isLinkedTo, h.routeFind]
  split_ifs
  · exact h
  · cases LockGrid.routeFind c final with
    | none => exact h
    | some k =>
      simp only [h.routes, h.now, h.isLinkedTo]
      split_ifs
      · exact ⟨h.now, h.txq, h.neigh, h.parent, by simp [setRoute, h.routes]⟩
      · exact h

theorem SameHops.msgNextHop (h : SameHops c d) (m : TxMsg) :
    (msgNextHop d m).1 = (msgNextHop c m).1 ∧
      SameHops (msgNextHop c m).2 (msgNextHop d m).2 := by
  unfold LockGrid.msgNextHop lgRouteNextHop
  split_ifs
  · exact ⟨rfl, h⟩
  · exact ⟨h.nextHop _ _, h.dropDeadRoute _ _⟩

theorem SameHops.peekSlot (h : SameHops c d) (peer : Addr)
    (best : Option (Fin cfg.txQueueSize)) (k : Fin cfg.txQueueSize) :
    (peekSlot peer (best, d) k).1 = (peekSlot peer (best, c) k).1 ∧
      SameHops (peekSlot peer (best, c) k).2 (peekSlot peer (best, d) k).2 := by
  obtain ⟨hhop, hnext⟩ := h.msgNextHop (c.txq k)
  unfold LockGrid.peekSlot
  simp only [h.txq, hhop]
  split_ifs
  · exact ⟨rfl, h⟩
  · exact ⟨rfl, hnext⟩
  · cases best with
    | none => exact ⟨rfl, hnext⟩
    | some b =>
      dsimp only
      split_ifs <;> exact ⟨rfl, hnext⟩

theorem SameHops.peek (h : SameHops c d) (peer : Addr) :
    (lgTxqPeek d peer).1 = (lgTxqPeek c peer).1 := by
  have hfold : ∀ (l : List (Fin cfg.txQueueSize)) (best : Option (Fin cfg.txQueueSize))
      (c d : Node cfg), SameHops c d →
      (l.foldl (LockGrid.peekSlot peer) (best, d)).1 =
        (l.foldl (LockGrid.peekSlot peer) (best, c)).1 := by
    intro l
    induction l with
    | nil => exact fun _ _ _ _ => rfl
    | cons k l ih =>
      intro best c d h
      obtain ⟨hbest, hnext⟩ := h.peekSlot peer best k
      have hrest := ih (LockGrid.peekSlot peer (best, c) k).1 _ _ hnext
      simp only [List.foldl_cons]
      rw [← hrest, ← hbest]
  exact hfold _ none c d h

end

/-! ## The two events -/

section

variable {o o₁ o₂ o₃ : Oracle} {c : Node cfg} {i : Fin cfg.maxNeighbors} {rx : RxRec} {t : ℕ}

/-- The event has come to where the radio listens; nothing but the event has changed. -/
structure Listening (c d : Node cfg) (i : Fin cfg.maxNeighbors) : Prop where
  neigh : d.neigh = c.neigh
  view : d.view = c.view
  net : d.net = c.net
  txq : d.txq = c.txq
  ev : d.ev = c.ev
  evst : d.evst.txFirst = (c.neigh i).sched.initiator ∧ d.evst.gotRx = false ∧
    d.evst.sentTx = (c.neigh i).sched.initiator

theorem linkListens_listening (i : Fin cfg.maxNeighbors) (ho : o.phyOk = true) :
    Listening c (linkListens o c i) i := by
  unfold linkListens linkStart
  cases hi : (c.neigh i).sched.initiator <;>
    simp only [command, ho, linkTxDone, if_true, Bool.not_true, Bool.false_eq_true, if_false]
  all_goals exact ⟨rfl, rfl, rfl, rfl, rfl, hi.symm, rfl, hi.symm⟩

/-- The counters after one more outcome. -/
theorem txResult_tally {v w : View} (acked : Bool) (ha : v.txAttempts = w.txAttempts)
    (hk : v.txAcked = w.txAcked) (hm : v.consecMisses = w.consecMisses) :
    (v.txResult acked).txAttempts = (w.txResult acked).txAttempts ∧
      (v.txResult acked).txAcked = (w.txResult acked).txAcked ∧
      (v.txResult acked).consecMisses = (w.txResult acked).consecMisses := by
  simp [View.txResult, View.updateCost, ha, hk, hm]

theorem lgChanResult_routes (c : Node cfg) (chan : ℕ) (ok : Bool) :
    ∃ net, lgChanResult c chan ok = { c with net := net } ∧ net.routes = c.net.routes := by
  unfold lgChanResult
  cases chanIdx chan with
  | none => exact ⟨c.net, rfl, rfl⟩
  | some k => exact ⟨_, rfl, rfl⟩

theorem lgRxPost_eq (c : Node cfg) (rx : RxRec) :
    ∃ ring, lgRxPost c rx = { c with rxRing := ring } := by
  unfold lgRxPost
  split_ifs
  · exact ⟨c.rxRing, rfl⟩
  · exact ⟨_, rfl⟩

/-- What both ends note of a frame: its time, and one success. -/
structure Noted (c d : Node cfg) (i : Fin cfg.maxNeighbors) : Prop where
  neigh : d.neigh = Function.update c.neigh i
    { c.neigh i with sched := { (c.neigh i).sched with lastRxUs := c.nowUs } }
  tally : SameTally (lgNeighTxResult c i true) d
  parent : ∀ j, (d.view j).isParent = (c.view j).isParent
  routes : d.net.routes = c.net.routes
  txq : d.txq = c.txq
  now : d.nowUs = c.nowUs
  ev : d.ev = c.ev
  evst : d.evst = { c.evst with gotRx := true }

theorem noteLinkFrame_noted (c : Node cfg) (i : Fin cfg.maxNeighbors) (rx : RxRec) :
    Noted c (noteLinkFrame c i rx) i := by
  let c₁ : Node cfg := lgNeighRxRssi { c with evst := { c.evst with gotRx := true } } i rx.rssi
  let c₂ : Node cfg := c₁.setNeigh i
    { c₁.neigh i with sched := { (c₁.neigh i).sched with lastRxUs := c₁.nowUs } }
  let c₃ : Node cfg := lgRxPost (lgChanResult c₂ c₂.ev.chan true) rx
  have hout : noteLinkFrame c i rx = lgNeighTxResult c₃ i true := rfl
  -- the channel's statistics and the ring are all that comes between
  obtain ⟨net, ring, hc₃, hroutes⟩ : ∃ net ring,
      c₃ = { c₂ with net := net, rxRing := ring } ∧ net.routes = c.net.routes := by
    obtain ⟨net, hnet, hroutes⟩ := lgChanResult_routes c₂ c₂.ev.chan true
    obtain ⟨ring, hring⟩ := lgRxPost_eq (lgChanResult c₂ c₂.ev.chan true) rx
    refine ⟨net, ring, ?_, hroutes⟩
    rw [show c₃ = _ from hring, hnet]
  have hview : c₃.view = c₁.view := by rw [hc₃]; rfl
  rw [hout, lgNeighTxResult]
  constructor
  · rw [hc₃]
    rfl
  · intro j
    by_cases hj : j = i
    · subst hj
      simp only [Node.setView, lgNeighTxResult, Function.update_self]
      apply txResult_tally <;> rw [hview] <;> simp [c₁, lgNeighRxRssi, Node.setView]
    · simp only [Node.setView, lgNeighTxResult, noteResult, ne_eq, hj, not_false_eq_true,
        Function.update_of_ne]
      rw [hview]
      simp [c₁, lgNeighRxRssi, Node.setView, hj]
  · intro j
    by_cases hj : j = i
    · subst hj
      simp only [Node.setView, Function.update_self, View.txResult, View.updateCost]
      rw [hview]
      simp [c₁, lgNeighRxRssi, Node.setView]
    · simp only [Node.setView, noteResult, ne_eq, hj, not_false_eq_true, Function.update_of_ne]
      rw [hview]
      simp [c₁, lgNeighRxRssi, Node.setView, hj]
  · rw [hc₃]
    exact hroutes
  all_goals
    rw [hc₃]
    rfl

theorem command_keeps (o : Oracle) (c : Node cfg) (p : Phy) :
    (command o c p).evst = c.evst ∧ (command o c p).view = c.view := by
  unfold command
  split_ifs <;> exact ⟨rfl, rfl⟩

theorem linkTxDone_keeps (o : Oracle) (c : Node cfg) (i : Fin cfg.maxNeighbors) :
    (linkTxDone o c i).evst.gotRx = c.evst.gotRx ∧ (linkTxDone o c i).view = c.view := by
  unfold linkTxDone
  dsimp only
  split
  · exact ⟨rfl, rfl⟩
  · obtain ⟨he, hv⟩ := command_keeps o ({ c with
      evst := { c.evst with sentTx := true }
      hist := { c.hist with
        aired := (i.val, (c.neigh i).tx.histStaged) :: c.hist.aired } } : Node cfg) .rx
    exact ⟨by rw [he], hv⟩

theorem linkRxDone_keeps (o : Oracle) (c : Node cfg) (i : Fin cfg.maxNeighbors) (rx : RxRec) :
    (linkRxDone o c i rx).evst.gotRx = true ∧
      (linkRxDone o c i rx).view = (noteLinkFrame c i rx).view := by
  have h := noteLinkFrame_noted c i rx
  have hgot : (noteLinkFrame c i rx).evst.gotRx = true := by rw [h.evst]
  unfold linkRxDone
  dsimp only
  split
  · exact ⟨hgot, rfl⟩
  · split
    · obtain ⟨he, hv⟩ := command_keeps o ((noteLinkFrame c i rx).setNeigh i
        { (noteLinkFrame c i rx).neigh i with
          sched := reanchor (noteLinkFrame c i rx).nowUs (noteLinkFrame c i rx).ev.anchorUs
            rx.airStartUs ((noteLinkFrame c i rx).neigh i).sched }) .tx
      exact ⟨by rw [he]; exact hgot, hv⟩
    · exact ⟨hgot, rfl⟩

/-- After the frame the counters have one success more, whatever the role. -/
theorem linkHears_tally (o : Oracle) (c : Node cfg) (i : Fin cfg.maxNeighbors) (rx : RxRec) :
    (linkHears o c i rx).evst.gotRx = true ∧
      SameTally (lgNeighTxResult c i true) (linkHears o c i rx) := by
  have h := noteLinkFrame_noted c i rx
  obtain ⟨hgot, hview⟩ := linkRxDone_keeps o c i rx
  have htally := h.tally.trans (.of_view hview)
  unfold linkHears
  dsimp only
  split
  · obtain ⟨hgot', hview'⟩ := linkTxDone_keeps o (linkRxDone o c i rx) i
    exact ⟨hgot'.trans hgot, htally.trans (.of_view hview')⟩
  · exact ⟨hgot, htally⟩

/-- A responder after the frame: the anchor is taken from it. -/
structure Responded (c d : Node cfg) (i : Fin cfg.maxNeighbors) (rx : RxRec) : Prop where
  entry : d.neigh i = { c.neigh i with
    sched := reanchor c.nowUs c.ev.anchorUs rx.airStartUs
      { (c.neigh i).sched with lastRxUs := c.nowUs } }
  others : ∀ j, j ≠ i → d.neigh j = c.neigh j
  parent : ∀ j, (d.view j).isParent = (c.view j).isParent
  routes : d.net.routes = c.net.routes
  txq : d.txq = c.txq

/-- Its reply goes out if there is one and the radio takes it. -/
theorem linkHears_responded (o : Oracle) (rx : RxRec) (hf : c.evst.txFirst = false) :
    Responded c (linkHears o c i rx) i rx ∧ (linkHears o c i rx).evst.sentTx =
      (c.evst.sentTx || (c.neigh i).tx.txPending && o.phyOk) := by
  have h := noteLinkFrame_noted c i rx
  have hfirst : (noteLinkFrame c i rx).evst.txFirst = false := by rw [h.evst]; exact hf
  have hsent : (noteLinkFrame c i rx).evst.sentTx = c.evst.sentTx := by rw [h.evst]
  have hn : (noteLinkFrame c i rx).neigh i =
      { c.neigh i with sched := { (c.neigh i).sched with lastRxUs := c.nowUs } } := by
    rw [h.neigh, Function.update_self]
  have ho : ∀ j, j ≠ i → (noteLinkFrame c i rx).neigh j = c.neigh j := by
    intro j hj
    rw [h.neigh, Function.update_of_ne hj]
  unfold linkHears linkRxDone command linkTxDone lgSchedEventDone
  simp only [hfirst, Bool.false_eq_true, if_false, hn, h.now, h.ev]
  cases hp : (c.neigh i).tx.txPending <;> cases hphy : o.phyOk <;>
    simp only [hfirst, Node.setNeigh, if_true, if_false, Bool.false_eq_true, Bool.not_false,
      reduceCtorEq]
  all_goals
    refine ⟨⟨?_, ?_, h.parent, h.routes, h.txq⟩, ?_⟩
    · simp
    · intro j hj
      simpa [hj] using ho j hj
    · simp [hsent]

theorem lgNeighTxResult_view_congr {d : Node cfg} (h : d.view = c.view) (acked : Bool) :
    (lgNeighTxResult d i acked).view = (lgNeighTxResult c i acked).view := by
  simp [lgNeighTxResult, noteResult, Node.setView, h]

theorem eventWith_tally (psa : Psa) (o₁ o₂ : Oracle) (c : Node cfg) (i : Fin cfg.maxNeighbors)
    (rx : RxRec) (t t' : ℕ) (ho : o.phyOk = true) :
    SameTally (lgNeighTxResult c i true) (eventWith psa o o₁ o₂ c i rx t t') := by
  have hlisten := linkListens_listening (c := c) i ho
  obtain ⟨hgot, hhear⟩ := linkHears_tally o₁ ((linkListens o c i).at t) i rx
  have hview := lgNeighTxResult_view_congr (c := c) (d := (linkListens o c i).at t) (i := i)
    hlisten.view true
  have hsettle := (settleOutcome_heard o₂
    (c := (linkHears o₁ ((linkListens o c i).at t) i rx).at t')
    i hgot).2.2
  have hfinish := lgLinkEventFinish_tally psa o₂
    ((linkHears o₁ ((linkListens o c i).at t) i rx).at t')
    i
  intro j
  rw [← hview]
  exact (hhear.trans (hsettle.trans hfinish)) j

/-- Nothing was heard: the links are as they were, and an initiator has noted a failure. -/
structure Unheard (c d : Node cfg) (i : Fin cfg.maxNeighbors) : Prop where
  neigh : d.neigh = c.neigh
  txq : d.txq = c.txq
  evst : d.evst.gotRx = false
  view : d.view = if (c.neigh i).sched.initiator then (lgNeighTxResult c i false).view else c.view

theorem linkRxFail_unheard (i : Fin cfg.maxNeighbors) (ho : o.phyOk = true) :
    Unheard c (linkRxFail (linkListens o c i) i .timeout) i := by
  have h := linkListens_listening (c := c) i ho
  obtain ⟨net, hnet, -⟩ :=
    lgChanResult_routes (linkListens o c i) (linkListens o c i).ev.chan false
  have hfirst := h.evst.1
  unfold linkRxFail lgSchedEventDone
  simp only [reduceCtorEq, false_or, if_true, hnet, hfirst]
  split_ifs with hi
  · refine ⟨h.neigh, h.txq, h.evst.2.1, ?_⟩
    rw [if_pos hi]
    exact lgNeighTxResult_view_congr h.view false
  · refine ⟨h.neigh, h.txq, h.evst.2.1, ?_⟩
    rw [if_neg hi]
    exact h.view

theorem eventWithout_tally (psa : Psa) (o₂ : Oracle) (t' : ℕ) (ho : o.phyOk = true)
    (hl : (c.neigh i).state = .linked) :
    SameTally (lgNeighTxResult (if (c.neigh i).sched.initiator then lgNeighTxResult c i false
      else c) i false) (eventWithout psa o o₂ c i t') := by
  have h := linkRxFail_unheard (c := c) i ho
  have hl' : (((linkRxFail (linkListens o c i) i .timeout).at t').neigh i).state = .linked := by
    show ((linkRxFail (linkListens o c i) i .timeout).neigh i).state = .linked
    rw [h.neigh]
    exact hl
  have hgot : ((linkRxFail (linkListens o c i) i .timeout).at t').evst.gotRx = false := h.evst
  have hsettle := (settleOutcome_missed o₂ hgot hl').2
  have hfinish := lgLinkEventFinish_tally psa o₂
    ((linkRxFail (linkListens o c i) i .timeout).at t') i
  have hview : (linkRxFail (linkListens o c i) i .timeout).view =
      (if (c.neigh i).sched.initiator then lgNeighTxResult c i false else c).view := by
    rw [h.view]
    split_ifs <;> rfl
  have hcongr := lgNeighTxResult_view_congr (i := i)
    (d := (linkRxFail (linkListens o c i) i .timeout).at t')
    (c := if (c.neigh i).sched.initiator then lgNeighTxResult c i false else c) hview false
  intro j
  rw [← hcongr]
  exact (hsettle.trans hfinish) j

theorem eventWithout_sched (psa : Psa) (o₂ : Oracle) (t' : ℕ) (ho : o.phyOk = true)
    (hl : (c.neigh i).state = .linked) (hi : (c.neigh i).sched.initiator = false) :
    ((eventWithout psa o o₂ c i t').neigh i).sched =
      if Expired (c.neigh i).sched t' then (c.neigh i).down.sched
      else lgLinkAdvance (c.neigh i).sched := by
  have h := linkRxFail_unheard (c := c) i ho
  have hn : ((linkRxFail (linkListens o c i) i .timeout).at t').neigh i = c.neigh i := by
    show (linkRxFail (linkListens o c i) i .timeout).neigh i = c.neigh i
    rw [h.neigh]
  have hgot : ((linkRxFail (linkListens o c i) i .timeout).at t').evst.gotRx = false := h.evst
  have hnow : ((linkRxFail (linkListens o c i) i .timeout).at t').nowUs = t' := rfl
  have hsettle := (settleOutcome_missed o₂ hgot (by rw [hn]; exact hl)).1
  rw [hn, hnow] at hsettle
  unfold eventWithout
  rw [lgLinkEventFinish_sched psa o₂ (by rw [hsettle]; split_ifs <;> exact hi), hsettle]
  by_cases he : Expired (c.neigh i).sched t'
  · simp [he, Neigh.down]
  · simp [he, hl]

theorem eventWithout_txq (psa : Psa) (o₂ : Oracle) (c : Node cfg) (i : Fin cfg.maxNeighbors)
    (t' : ℕ) (ho : o.phyOk = true) :
    (eventWithout psa o o₂ c i t').txq = c.txq := by
  have h := linkRxFail_unheard (c := c) i ho
  have hgot : ((linkRxFail (linkListens o c i) i .timeout).at t').evst.gotRx = false := h.evst
  unfold eventWithout
  rw [lgLinkEventFinish_txq, if_neg (by simp [hgot])]
  exact h.txq

/-- A responder's node when the event with the frame is settled. -/
theorem eventWith_responded (o₁ : Oracle) (rx : RxRec) (t t' : ℕ) (ho : o.phyOk = true)
    (hi : (c.neigh i).sched.initiator = false) :
    Responded (c.at t) ((linkHears o₁ ((linkListens o c i).at t) i rx).at t') i rx ∧
      ((linkHears o₁ ((linkListens o c i).at t) i rx).at t').evst.sentTx =
        ((c.neigh i).tx.txPending && o₁.phyOk) := by
  have h := linkListens_listening (c := c) i ho
  have hfirst : ((linkListens o c i).at t).evst.txFirst = false := h.evst.1.trans hi
  obtain ⟨hr, hs⟩ := linkHears_responded (i := i) o₁ rx hfirst
  have hn : ∀ j, ((linkListens o c i).at t).neigh j = c.neigh j := fun j => congrFun h.neigh j
  have hv : ∀ j, ((linkListens o c i).at t).view j = c.view j := fun j => congrFun h.view j
  have hsent : ((linkListens o c i).at t).evst.sentTx = false := h.evst.2.2.trans hi
  rw [hsent, hn, Bool.false_or] at hs
  refine ⟨⟨?_, ?_, ?_, ?_, ?_⟩, hs⟩
  · have he := hr.entry
    rw [hn] at he
    show (linkHears o₁ ((linkListens o c i).at t) i rx).neigh i = _
    rw [he]
    simp [Node.at, h.ev]
  · intro j hj
    exact (hr.others j hj).trans (hn j)
  · intro j
    exact (hr.parent j).trans (congrArg View.isParent (hv j))
  · exact hr.routes.trans (congrArg Net.routes h.net)
  · exact hr.txq.trans h.txq

theorem eventWith_sched (psa : Psa) (o₁ o₂ : Oracle) (rx : RxRec) (t t' : ℕ) (ho : o.phyOk = true)
    (hl : (c.neigh i).state = .linked) (hi : (c.neigh i).sched.initiator = false) :
    ((eventWith psa o o₁ o₂ c i rx t t').neigh i).sched =
      lgLinkAdvance (reanchor t c.ev.anchorUs rx.airStartUs
        { (c.neigh i).sched with lastRxUs := t }) := by
  obtain ⟨hr, -⟩ := eventWith_responded o₁ rx t t' ho hi
  obtain ⟨hgot, -⟩ := linkHears_tally o₁ ((linkListens o c i).at t) i rx
  obtain ⟨hsched, hstate, -⟩ := settleOutcome_heard o₂
    (c := (linkHears o₁ ((linkListens o c i).at t) i rx).at t') i hgot
  rw [hr.entry] at hsched hstate
  have hstate' : ((settleOutcome o₂ ((linkHears o₁ ((linkListens o c i).at t) i rx).at t') i).neigh
      i).state = .linked := hstate.trans hl
  unfold eventWith
  rw [lgLinkEventFinish_sched psa o₂ (by rw [hsched]; exact hi), if_pos hstate', hsched]
  rfl

/-- The queue as the event with the frame sees it when it is settled. -/
theorem Responded.sameHops {d : Node cfg} {t' : ℕ} (h : Responded (c.at t) (d.at t') i rx) :
    SameHops (c.at t') (d.at t') where
  now := rfl
  txq := h.txq
  neigh j := by
    by_cases hj : j = i
    · subst hj
      rw [h.entry]
      exact ⟨rfl, rfl⟩
    · rw [h.others j hj]
      exact ⟨rfl, rfl⟩
  parent := h.parent
  routes := h.routes

theorem eventWith_txq (psa : Psa) (o₁ o₂ : Oracle) (rx : RxRec) (t t' : ℕ) (ho : o.phyOk = true)
    (hi : (c.neigh i).sched.initiator = false) :
    (eventWith psa o o₁ o₂ c i rx t t').txq =
      if (c.neigh i).tx.txPending = true ∧ o₁.phyOk = true ∧
          (c.neigh i).tx.txNeedsAck = true then
        match (lgTxqPeek (c.at t') (c.neigh i).addr).1 with
        | some k => Function.update c.txq k {}
        | none => c.txq
      else c.txq := by
  obtain ⟨hr, hsent⟩ := eventWith_responded o₁ rx t t' ho hi
  obtain ⟨hgot, -⟩ := linkHears_tally o₁ ((linkListens o c i).at t) i rx
  have hgot' : ((linkHears o₁ ((linkListens o c i).at t) i rx).at t').evst.gotRx = true := hgot
  have haddr : (((linkHears o₁ ((linkListens o c i).at t) i rx).at t').neigh i).addr =
      (c.neigh i).addr := by
    rw [hr.entry]
    rfl
  have hneeds : (((linkHears o₁ ((linkListens o c i).at t) i rx).at t').neigh i).tx.txNeedsAck =
      (c.neigh i).tx.txNeedsAck := by
    rw [hr.entry]
    rfl
  have htxq : ((linkHears o₁ ((linkListens o c i).at t) i rx).at t').txq = c.txq := hr.txq
  unfold eventWith
  rw [lgLinkEventFinish_txq, hr.sameHops.peek, haddr, hneeds, hsent, htxq]
  apply if_congr _ rfl rfl
  simp only [hgot', true_and, Bool.and_eq_true, and_assoc]

end

/-! ## When the two events end alike -/

/-- Different events have different times. -/
theorem anchorSet_anchorUs_inj {s : Schedule} (hs : s.Typed) (hi : 0 < s.intervalUs) {t t' : ℕ}
    (ht : t < 2 ^ 16) (ht' : t' < 2 ^ 16)
    (h : (anchorSet s t).anchorUs = (anchorSet s t').anchorUs) : t = t' := by
  have hspan := hs.span ht
  have hspan' := hs.span ht'
  change (s.epochUs + t * s.intervalUs) % 2 ^ 64 = (s.epochUs + t' * s.intervalUs) % 2 ^ 64 at h
  have hmul : t * s.intervalUs = t' * s.intervalUs := by omega
  exact Nat.eq_of_mul_eq_mul_right hi hmul

theorem lgLinkAdvance_ctrlAcked (s : Schedule) : (lgLinkAdvance s).ctrlAcked =
    if s.pendingCtrl.any = true ∧ s.instant ≤ nextActive s (counterOf s) then false
    else s.ctrlAcked := by
  have hdue : ∀ x : Schedule, (applyPending x).ctrlAcked =
      if x.pendingCtrl.any = true ∧ x.instant ≤ x.counter then false else x.ctrlAcked := by
    intro x
    unfold applyPending
    split_ifs <;> rfl
  exact hdue (toNextActive s)

theorem lgLinkAdvance_keeps (s : Schedule) : (lgLinkAdvance s).epochUs = s.epochUs ∧
    (lgLinkAdvance s).lastSyncUs = s.lastSyncUs ∧ (lgLinkAdvance s).lastRxUs = s.lastRxUs := by
  have h : ∀ s : Schedule, (applyPending s).epochUs = s.epochUs ∧
      (applyPending s).lastSyncUs = s.lastSyncUs ∧ (applyPending s).lastRxUs = s.lastRxUs := by
    intro s
    unfold applyPending
    split_ifs <;> exact ⟨rfl, rfl, rfl⟩
  exact h (toNextActive s)

/-- From a frame that starts at `airStartUs` the link comes to where the event without it leaves
the anchor: to the next event, or, once supervision has ended the link, to where it is. -/
def ComesBack (s : Schedule) (airStartUs t : ℕ) : Prop :=
  let next := nextActive s (counterOf { s with anchorUs := airStartUs })
  if Expired s t then (anchorSet s next).anchorUs = s.anchorUs ∧
    (s.pendingCtrl.any = true ∧ s.instant ≤ next → s.ctrlAcked = false)
  else next = nextActive s (counterOf s)

/-- The responder had already heard a frame at this very moment, this one starts at the very
anchor for all that 32 bits tell and for the event that follows, and the metrics are at one of the
points where success and failure count alike; nothing is released. -/
structure LeavesNoTrace (o : Oracle) (c : Node cfg) (i : Fin cfg.maxNeighbors) (rx : RxRec)
    (t t₁ t₂ : ℕ) : Prop where
  responder : (c.neigh i).sched.initiator = false
  heard : (c.neigh i).sched.lastRxUs = t ∧ (c.neigh i).sched.lastSyncUs = t
  start : syncErrUs c.ev.anchorUs rx.airStartUs = 0
  back : ComesBack (c.neigh i).sched rx.airStartUs t₂
  attempts : 127 ≤ (c.view i).txAttempts ∧ (c.view i).txAcked % 2 = 0
  misses : (c.view i).consecMisses % 256 = 255
  holds : (c.neigh i).tx.txPending = true → o.phyOk = true → (c.neigh i).tx.txNeedsAck = true →
    (lgTxqPeek (c.at t₁) (c.neigh i).addr).1 = none

theorem txResult_txAttempts (v : View) (acked : Bool) : (v.txResult acked).txAttempts =
    if 128 ≤ v.txAttempts + 1 then (v.txAttempts + 1) / 2 else v.txAttempts + 1 := rfl

theorem txResult_txAcked (v : View) (acked : Bool) : (v.txResult acked).txAcked =
    if 128 ≤ v.txAttempts + 1 then (v.txAcked + acked.toNat) / 2 else v.txAcked + acked.toNat := by
  cases acked <;> rfl

theorem txResult_consecMisses (v : View) (acked : Bool) : (v.txResult acked).consecMisses =
    if acked then 0 else (v.consecMisses + 1) % 256 := rfl

/-- The planned event of a link: the anchor is the link's. -/
structure Planned (c : Node cfg) (i : Fin cfg.maxNeighbors) : Prop where
  linked : (c.neigh i).state = .linked
  interval : 0 < (c.neigh i).sched.intervalUs
  anchor : c.ev.anchorUs = (c.neigh i).sched.anchorUs
  typed : (c.neigh i).sched.Typed

section

variable {psa : Psa} {o o₁ o₂ o₃ : Oracle} {c : Node cfg} {i : Fin cfg.maxNeighbors} {rx : RxRec}
  {t t₁ t₂ : ℕ}

theorem syncErrUs_bounds (evAnchorUs airStartUs : ℕ) :
    -2 ^ 31 ≤ syncErrUs evAnchorUs airStartUs ∧ syncErrUs evAnchorUs airStartUs < 2 ^ 31 := by
  unfold syncErrUs
  generalize (airStartUs : ℤ) - evAnchorUs = x
  have hlow := Int.le_bmod (x := x) (m := 2 ^ 32) (by norm_num)
  have hhigh := Int.bmod_lt (x := x) (m := 2 ^ 32) (by norm_num)
  norm_num at hlow hhigh ⊢
  exact ⟨hlow, hhigh⟩

/-- The epoch stays exactly without an error. -/
theorem reanchor_epochUs_eq_iff {s : Schedule} {now evAnchorUs airStartUs : ℕ}
    (he : s.epochUs < 2 ^ 64) :
    (reanchor now evAnchorUs airStartUs s).epochUs = s.epochUs ↔
      syncErrUs evAnchorUs airStartUs = 0 := by
  obtain ⟨hlow, hhigh⟩ := syncErrUs_bounds evAnchorUs airStartUs
  simp only [reanchor]
  omega

/-- An initiator has counted one attempt with the frame and two without it. -/
theorem not_endsAlike_initiator (ho : o.phyOk = true) (hl : (c.neigh i).state = .linked)
    (hi : (c.neigh i).sched.initiator = true) :
    ¬ EndsAlike (eventWith psa o o₁ o₂ c i rx t t₁) (eventWithout psa o o₃ c i t₂) i := by
  intro h
  have hwith := (eventWith_tally psa o₁ o₂ c i rx t t₁ ho i).1
  have hout := (eventWithout_tally psa o₃ t₂ ho hl i).1
  rw [if_pos hi] at hout
  have heq := h.txAttempts
  rw [hwith, hout] at heq
  simp only [lgNeighTxResult, noteResult, Node.setView, Function.update_self,
    txResult_txAttempts] at heq
  split_ifs at heq <;> omega

/-- A responder whose times the frame leaves as they are keeps all but its anchor. -/
theorem reanchor_heard (hc : Planned c i) (hrx : (c.neigh i).sched.lastRxUs = t)
    (hsync : (c.neigh i).sched.lastSyncUs = t)
    (hstart : syncErrUs c.ev.anchorUs rx.airStartUs = 0) :
    reanchor t c.ev.anchorUs rx.airStartUs { (c.neigh i).sched with lastRxUs := t } =
      { (c.neigh i).sched with anchorUs := rx.airStartUs } := by
  have hepoch : (((c.neigh i).sched.epochUs : ℤ) % 2 ^ 64).toNat = (c.neigh i).sched.epochUs := by
    have := hc.typed.epoch
    omega
  unfold reanchor
  simp only [hstart, add_zero, hepoch]
  rw [← hrx, ← hrx.trans hsync.symm]

/-- Where the two events leave the link. -/
theorem lgLinkAdvance_back_iff {s : Schedule} (hs : s.Typed) (hi : 0 < s.intervalUs)
    (airStartUs t : ℕ) :
    let with' := lgLinkAdvance { s with anchorUs := airStartUs }
    let without := if Expired s t then { s with intervalUs := 0 } else lgLinkAdvance s
    with'.anchorUs = without.anchorUs ∧ with'.ctrlAcked = without.ctrlAcked ↔
      ComesBack s airStartUs t := by
  have hanchor : (lgLinkAdvance { s with anchorUs := airStartUs }).anchorUs =
      (anchorSet s (nextActive s (counterOf { s with anchorUs := airStartUs }))).anchorUs :=
    lgLinkAdvance_anchorUs _
  have hacked : (lgLinkAdvance { s with anchorUs := airStartUs }).ctrlAcked = _ :=
    lgLinkAdvance_ctrlAcked _
  dsimp only
  unfold ComesBack
  dsimp only
  split_ifs with hexp
  · rw [hanchor, hacked]
    refine and_congr_right' ?_
    change ((if s.pendingCtrl.any = true ∧ s.instant ≤
      nextActive s (counterOf { s with anchorUs := airStartUs }) then false else s.ctrlAcked) =
        s.ctrlAcked) ↔ _
    split_ifs with hdue
    · exact ⟨fun h _ => h.symm, fun h => (h hdue).symm⟩
    · exact iff_of_true rfl fun h => absurd h hdue
  · constructor
    · rintro ⟨h, -⟩
      rw [hanchor, lgLinkAdvance_anchorUs] at h
      exact anchorSet_anchorUs_inj hs hi (nextActive_lt s _) (nextActive_lt s _) h
    · intro h
      have hsame : toNextActive { s with anchorUs := airStartUs } = toNextActive s := by
        change anchorSet s (nextActive s (counterOf { s with anchorUs := airStartUs })) = _
        rw [h]
        rfl
      have hadv : lgLinkAdvance { s with anchorUs := airStartUs } = lgLinkAdvance s := by
        rw [lgLinkAdvance, hsame, lgLinkAdvance]
      rw [hadv]
      exact ⟨rfl, rfl⟩

/-- A frame of another pair, heard in a link event, leaves the link as an event without it would
exactly where every field that `link_rx_done` writes has that value already. -/
theorem overheard_inert_iff (ho : o.phyOk = true) (hc : Planned c i)
    (_hforeign : Foreign c i rx) :
    EndsAlike (eventWith psa o o₁ o₂ c i rx t t₁) (eventWithout psa o o₃ c i t₂) i ↔
      LeavesNoTrace o₁ c i rx t t₁ t₂ := by
  have hl := hc.linked
  cases hi : (c.neigh i).sched.initiator with
  | true =>
    constructor
    · exact fun h => absurd h (not_endsAlike_initiator ho hl hi)
    · exact fun h => absurd (hi.symm.trans h.responder) (by decide)
  | false =>
    have hwith := eventWith_sched psa o₁ o₂ rx t t₁ ho hl hi
    have hout := eventWithout_sched psa o₃ t₂ ho hl hi
    have htally := eventWith_tally psa o₁ o₂ c i rx t t₁ ho i
    have htally' := eventWithout_tally psa o₃ t₂ ho hl i
    have hq := eventWith_txq psa o₁ o₂ rx t t₁ ho hi
    have hq' := eventWithout_txq psa o₃ c i t₂ ho
    rw [if_neg (by simp [hi])] at htally'
    simp only [lgNeighTxResult, noteResult, Node.setView, Function.update_self,
      txResult_txAttempts, txResult_txAcked, txResult_consecMisses, Bool.toNat_true,
      Bool.toNat_false, if_true, Bool.false_eq_true, if_false] at htally htally'
    -- the link of the event without the frame keeps its times, whether it has gone down or not
    have hkeep : ((eventWithout psa o o₃ c i t₂).neigh i).sched.epochUs =
          (c.neigh i).sched.epochUs ∧
        ((eventWithout psa o o₃ c i t₂).neigh i).sched.lastSyncUs =
          (c.neigh i).sched.lastSyncUs ∧
        ((eventWithout psa o o₃ c i t₂).neigh i).sched.lastRxUs =
          (c.neigh i).sched.lastRxUs := by
      rw [hout]
      split_ifs
      · exact ⟨rfl, rfl, rfl⟩
      · exact lgLinkAdvance_keeps _
    constructor
    · intro h
      obtain ⟨hepoch, hsync, hrx⟩ := lgLinkAdvance_keeps (reanchor t c.ev.anchorUs rx.airStartUs
        { (c.neigh i).sched with lastRxUs := t })
      rw [← hwith, h.epochUs, hkeep.1] at hepoch
      rw [← hwith, h.lastSyncUs, hkeep.2.1] at hsync
      rw [← hwith, h.lastRxUs, hkeep.2.2] at hrx
      have hsync : (c.neigh i).sched.lastSyncUs = t := hsync
      have hrx : (c.neigh i).sched.lastRxUs = t := hrx
      have hstart : syncErrUs c.ev.anchorUs rx.airStartUs = 0 :=
        (reanchor_epochUs_eq_iff (s := { (c.neigh i).sched with lastRxUs := t })
          hc.typed.epoch).mp hepoch.symm
      have hback := (lgLinkAdvance_back_iff hc.typed hc.interval rx.airStartUs t₂).mp
      rw [reanchor_heard hc hrx hsync hstart] at hwith
      have hacked := h.txAcked
      have hmisses := h.consecMisses
      rw [htally.2.1, htally'.2.1] at hacked
      rw [htally.2.2, htally'.2.2] at hmisses
      refine ⟨hi, ⟨hrx, hsync⟩, hstart, hback ⟨?_, ?_⟩, ?_, by omega, ?_⟩
      · have hanchor := h.anchorUs
        rwa [hwith, hout] at hanchor
      · have hctrl := h.ctrlAcked
        rwa [hwith, hout] at hctrl
      · split_ifs at hacked <;> omega
      · intro hp hphy hneeds
        have htxq := h.txq
        rw [hq, hq', if_pos ⟨hp, hphy, hneeds⟩] at htxq
        cases hpeek : (lgTxqPeek (c.at t₁) (c.neigh i).addr).1 with
        | none => rfl
        | some k =>
          -- a message that is freed was in use
          have hused := lgTxqPeek_used hpeek
          rw [hpeek] at htxq
          have hk : ({} : TxMsg) = c.txq k := by simpa using congrFun htxq k
          have hfree : (c.txq k).used = false := by rw [← hk]
          exact absurd (hused.symm.trans hfree) (by decide)
    · intro h
      rw [reanchor_heard hc h.heard.1 h.heard.2 h.start] at hwith
      obtain ⟨hepoch, hsync, hrx⟩ :=
        lgLinkAdvance_keeps { (c.neigh i).sched with anchorUs := rx.airStartUs }
      obtain ⟨hanchor, hctrl⟩ :=
        (lgLinkAdvance_back_iff hc.typed hc.interval rx.airStartUs t₂).mpr h.back
      have hattempts := h.attempts
      have hmisses := h.misses
      refine ⟨?_, ?_, ?_, ?_, ?_, ?_, ?_, ?_, ?_⟩
      · rw [hwith, hepoch, hkeep.1]
      · rw [hwith, hout]
        exact hanchor
      · rw [hwith, hsync, hkeep.2.1]
      · rw [hwith, hrx, hkeep.2.2]
      · rw [hwith, hout]
        exact hctrl
      · rw [htally.1, htally'.1]
      · rw [htally.2.1, htally'.2.1]
        split_ifs <;> omega
      · rw [htally.2.2, htally'.2.2]
        omega
      · rw [hq, hq']
        split_ifs with hr
        · rw [h.holds hr.1 hr.2.1 hr.2.2]
        · rfl

end

/-- A responder, linked with node 2, at the third event of the link. -/
def thirdEvent : Node .default :=
  { Node.boot .default (plainIdent 1 1) with
    neigh := fun i => if i.val = 0 then
        { state := .linked
          addr := 2
          sched := {
            intervalUs := 200000
            epochUs := 1000000
            anchorUs := 1400000
            counter := 2
            subrate := 1
            lastSyncUs := 1200000
            lastRxUs := 1200000
            supTimeoutUs := 20000000 } }
      else {}
    ev := {
      kind := .link
      anchorUs := 1400000
      neigh := some ⟨0, Config.default_neighbors⟩ } }

/-- A data frame that node 7 sends to node 8, 90 µs late against the anchor. -/
def strangersFrame : RxRec where
  pdu := lgFrameHdrPut 7 (fcfOf .data true) 0 8 7 ++ zeros 8
  rssi := -50
  airStartUs := 1400090

theorem thirdEvent_planned : Planned thirdEvent ⟨0, by decide⟩ :=
  ⟨rfl, by decide, rfl, ⟨by decide, by decide, by decide⟩⟩

theorem strangersFrame_foreign : Foreign thirdEvent ⟨0, by decide⟩ strangersFrame :=
  .inl (by decide)

theorem overheard_inert_iff_strangers :
    EndsAlike (eventWith Psa.plain (calm 0) (calm 0) (calm 0) thirdEvent ⟨0, by decide⟩
        strangersFrame 1401000 1402000)
      (eventWithout Psa.plain (calm 0) (calm 0) thirdEvent ⟨0, by decide⟩ 1402000)
      ⟨0, by decide⟩ ↔
    LeavesNoTrace (calm 0) thirdEvent ⟨0, by decide⟩ strangersFrame 1401000 1402000 1402000 :=
  overheard_inert_iff rfl thirdEvent_planned strangersFrame_foreign

/-- The responder moves its epoch by the error of the strangers' frame. -/
theorem not_overheard_inert :
    ¬ ∀ (psa : Psa) (o : Oracle) (c : Node .default) (i : Fin Config.default.maxNeighbors)
      (rx : RxRec) (t t' : ℕ), o.phyOk = true → Planned c i → rx.airStartUs < 2 ^ 64 →
      Foreign c i rx →
      EndsAlike (eventWith psa o o o c i rx t t') (eventWithout psa o o c i t') i := by
  intro h
  have hl : (thirdEvent.neigh ⟨0, by decide⟩).state = .linked := rfl
  have hi : (thirdEvent.neigh ⟨0, by decide⟩).sched.initiator = false := rfl
  have hepoch := (h Psa.plain (calm 0) thirdEvent ⟨0, by decide⟩ strangersFrame 1401000 1402000 rfl
    thirdEvent_planned (by decide) strangersFrame_foreign).epochUs
  rw [eventWith_sched _ _ _ _ _ _ rfl hl hi, eventWithout_sched _ _ _ rfl hl hi] at hepoch
  revert hepoch
  decide

end LockGrid
