import LockGrid.Instants
import LockGrid.Calls
import LockGrid.Overheard
import LockGrid.Provenance

/-!
# Changes on air

A control frame is staged an event ahead of the one that puts it on air. What it carries is the
change that was pending when it was staged; the settlement of an event moves the counter, and may
give up a change, before the next frame is staged.
-/
namespace LockGrid

variable {cfg : Config} {psa : Psa} {ok : Bool} {c d : Node cfg} {i : Fin cfg.maxNeighbors}

/-! ## What a staged frame carries -/

/-- The body of the control frame of the change that is pending. -/
def changeBody (n : Neigh) : Option Bytes :=
  if n.sched.pendingCtrl.any then some (ctrlBody n.sched) else none

/-- The change in the buffer of link `i` once `lg_link_stage_tx` has returned, if `frame` was in it
before. -/
def frameAfter (psa : Psa) (ok : Bool) (c : Node cfg) (i : Fin cfg.maxNeighbors)
    (frame : Option Bytes) : Option Bytes :=
  let n := c.neigh i
  if n.state ≠ .linked ∨ !n.keys.hasKey then frame
  else if (lgLinkStageTx psa ok c i).1 then changeBody n else none

/-- The link is up and has its key. -/
def Neigh.Ready (n : Neigh) : Prop := n.state = .linked ∧ n.keys.hasKey = true

theorem Neigh.Ready.not_refused {n : Neigh} (h : n.Ready) :
    ¬ (n.state ≠ .linked ∨ !n.keys.hasKey) := by
  simp [h.1, h.2]

/-- A pending change is what `lg_link_stage_tx` seals. -/
theorem lgLinkStageTx_change (psa : Psa) (ok : Bool) (hr : (c.neigh i).Ready) {body : Bytes}
    (h : changeBody (c.neigh i) = some body) :
    lgLinkStageTx psa ok c i =
      stageSeal psa ok (c.setTx i { (c.neigh i).tx with txWasCtrl := true }) i .ctrl false body
        .ctrl := by
  unfold changeBody at h
  split at h
  · next hany =>
    cases h
    unfold lgLinkStageTx
    dsimp only
    rw [if_neg hr.not_refused, if_pos hany]
  · cases h

theorem stageSeal_txPending (psa : Psa) (ok : Bool) (c : Node cfg) (i : Fin cfg.maxNeighbors)
    (t : FrameType) (more : Bool) (body : Bytes) (staged : Staged) :
    ((stageSeal psa ok c i t more body staged).2.neigh i).tx.txPending =
      (stageSeal psa ok c i t more body staged).1 := by
  unfold stageSeal
  dsimp only
  split <;> simp

/-- A frame is staged exactly if `lg_link_stage_tx` says so, for a link with a key. -/
theorem lgLinkStageTx_txPending (psa : Psa) (ok : Bool) (hr : (c.neigh i).Ready) :
    ((lgLinkStageTx psa ok c i).2.neigh i).tx.txPending = (lgLinkStageTx psa ok c i).1 := by
  unfold lgLinkStageTx
  dsimp only
  rw [if_neg hr.not_refused]
  split
  · exact stageSeal_txPending psa ok _ i _ _ _ _
  · split
    · exact stageSeal_txPending psa ok _ i _ _ _ _
    · split
      · exact stageSeal_txPending psa ok _ i _ _ _ _
      · exact stageSeal_txPending psa ok _ i _ _ _ _

theorem lgSecEncrypt_ready (psa : Psa) (ok : Bool) (pdu : Bytes) (hdr : ℕ)
    (h : (c.neigh i).Ready) : ((lgSecEncrypt psa ok c i pdu hdr).2.neigh i).Ready := by
  rcases lgSecEncrypt_cases psa ok c i pdu hdr with he | ⟨-, he⟩ | ⟨key, aad, plain, -, -, he⟩
  all_goals rw [he]
  · exact h
  · simpa [Neigh.Ready, Node.setKeys] using h
  · simpa [Neigh.Ready, useCtr, Node.setKeys] using h

theorem stageSeal_ready (psa : Psa) (ok : Bool) (t : FrameType) (more : Bool) (body : Bytes)
    (staged : Staged) (h : (c.neigh i).Ready) :
    ((stageSeal psa ok c i t more body staged).2.neigh i).Ready := by
  have hset : ∀ (d : Node cfg) (tx : TxStage), (d.neigh i).Ready →
      ((d.setNeigh i { d.neigh i with tx := tx }).neigh i).Ready := by
    intro d tx hd
    simpa [Neigh.Ready] using hd
  unfold stageSeal
  dsimp only
  split <;> next he =>
    have hs := congrArg Prod.snd he ▸ lgSecEncrypt_ready psa ok _ _ (hset c _ h)
    exact hset _ _ hs

theorem lgLinkStageTx_ready (psa : Psa) (ok : Bool) (h : (c.neigh i).Ready) :
    ((lgLinkStageTx psa ok c i).2.neigh i).Ready := by
  rcases lgLinkStageTx_cases psa ok c i with he | ⟨t, staged, d, ft, more, body, -, hq, he⟩ <;>
    rw [he]
  · exact h
  · apply stageSeal_ready
    rw [hq.neigh]
    simpa [Neigh.Ready, Node.setTx] using h

/-! ## Links that keep a change -/

/-- The link is still up, with the same frame staged and the same change pending. -/
structure Holds (n n' : Neigh) : Prop where
  state : n'.state = n.state
  hasKey : n'.keys.hasKey = n.keys.hasKey
  staged : n'.tx.txPending = n.tx.txPending
  change : n'.sched.change = n.sched.change

namespace Holds

variable {n n' n'' : Neigh}

theorem refl (n : Neigh) : Holds n n := ⟨rfl, rfl, rfl, rfl⟩

theorem trans (h : Holds n n') (h' : Holds n' n'') : Holds n n'' :=
  ⟨h'.state.trans h.state, h'.hasKey.trans h.hasKey, h'.staged.trans h.staged,
    h'.change.trans h.change⟩

end Holds

theorem changeBody_congr {n n' : Neigh} (h : n'.sched.change = n.sched.change) :
    changeBody n' = changeBody n := by
  simp only [Schedule.change, Prod.mk.injEq] at h
  obtain ⟨-, hctrl, hmap, hsub, hinst⟩ := h
  simp only [changeBody, ctrlBody, hctrl, hmap, hsub, hinst]

/-- The outcome of an event bears on a link that it leaves up in its acknowledgement only. -/
theorem settleOutcome_holds {o : Oracle} (h : ((settleOutcome o c i).neigh i).state = .linked) :
    Holds (c.neigh i) ((settleOutcome o c i).neigh i) ∧
      ((settleOutcome o c i).neigh i).sched = (c.neigh i).sched := by
  cases hrx : c.evst.gotRx with
  | true =>
    unfold settleOutcome
    dsimp only
    rw [if_neg (by simp [hrx])]
    split
    · have hn := (lgTxqPeek_quiet c (c.neigh i).addr).neigh
      split
      · refine ⟨⟨?_, ?_, ?_, ?_⟩, ?_⟩ <;> simp [Node.setTx, lgTxqFree, hn]
      · refine ⟨⟨?_, ?_, ?_, ?_⟩, ?_⟩ <;> simp [Node.setTx, hn]
    · exact ⟨.refl _, rfl⟩
  | false =>
    have hmiss : settleOutcome o c i = lgLinkEventMiss o c i := by simp [settleOutcome, hrx]
    by_cases hl : (c.neigh i).state = .linked
    · have hn := (settleOutcome_missed o hrx hl).1
      split at hn
      · rw [hn] at h
        cases h
      · rw [hn]
        exact ⟨.refl _, rfl⟩
    · rw [hmiss] at h ⊢
      have hn : (lgLinkEventMiss o c i).neigh i = c.neigh i := by
        have hq : (lgChanResult (lgNeighTxResult c i false)
            (lgLinkNextChan (c.neigh i).sched) false).neigh = c.neigh :=
          ((lgNeighTxResult_quiet c i false).trans (lgChanResult_quiet _ _ false)).neigh
        unfold lgLinkEventMiss
        dsimp only
        split
        · rw [lgLinkDown_eq, if_pos (by rw [hq]; exact hl), hq]
        · rw [hq]
      rw [hn]
      exact ⟨.refl _, rfl⟩

/-- `subrate_update` leaves a pending change alone. -/
theorem subrateUpdateLink_pending (h : (c.neigh i).sched.pendingCtrl.any = true) :
    (subrateUpdateLink c i).neigh i = c.neigh i := by
  have hn := (lgTxqPeek_quiet c (c.neigh i).addr).neigh
  have hs : ∀ pending misses, subrateUpdate pending misses (c.neigh i).sched =
      (c.neigh i).sched := by
    intro pending misses
    unfold subrateUpdate
    dsimp only
    split
    · rfl
    · rw [if_pos (.inr h)]
  unfold subrateUpdateLink
  dsimp only
  split
  · rfl
  · rw [hs]
    simp

/-! ## The events of a link -/

/-- The candidate of link `i`, whose anchor has caught up. -/
def linkCandidate (c : Node cfg) (i : Fin cfg.maxNeighbors) : Candidate cfg :=
  ⟨.link, (c.neigh i).sched.anchorUs, some i,
    if (c.view i).isParent then prioParent else prioNormal⟩

/-- A granted event of link `i`, from the pick that chooses it to its settlement. -/
structure LinkEvent (psa : Psa) (i : Fin cfg.maxNeighbors) where
  /-- The node when `sched_pick` comes to the link. -/
  found : Node cfg
  caught : Schedule
  o : Oracle
  /-- The node when `finish_work` settles the event. -/
  ended : Node cfg
  o' : Oracle
  catchUp : anchorCatchUp cfg found.nowUs catchUpFuel (found.neigh i).sched = some caught

namespace LinkEvent

/-- The node as the link is chosen. -/
def chosen (e : LinkEvent psa i) : Node cfg :=
  e.found.setNeigh i { e.found.neigh i with sched := e.caught }

/-- The node as the event is planned. -/
def staged (e : LinkEvent psa i) : Bool × Node cfg :=
  stageFor psa e.o e.chosen (linkCandidate e.chosen i)

/-- The event is planned and granted, and the link is up at its end. -/
structure Granted (e : LinkEvent psa i) : Prop where
  staged : e.staged.1 = true
  runs : Holds (e.staged.2.neigh i) (e.ended.neigh i)
  up : ((settleOutcome e.o' e.ended i).neigh i).state = .linked

/-- The change that goes on air if `frame` is in the buffer when the link is chosen. -/
def aired (e : LinkEvent psa i) (frame : Option Bytes) : Option Bytes :=
  if (e.chosen.neigh i).tx.txPending then frame
  else frameAfter psa (e.o.ok .encrypt) e.chosen i frame

/-- The node as `lg_link_advance` has moved the link on. -/
def advanced (e : LinkEvent psa i) : Node cfg :=
  let c := settleOutcome e.o' e.ended i
  c.setNeigh i { c.neigh i with sched := lgLinkAdvance (c.neigh i).sched }

def settled (e : LinkEvent psa i) : Node cfg := lgLinkEventFinish psa e.o' e.ended i

/-- The change in the buffer after the event. -/
def after (e : LinkEvent psa i) (frame : Option Bytes) : Option Bytes :=
  frameAfter psa (e.o'.ok .encrypt) (subrateUpdateLink e.advanced i) i (e.aired frame)

theorem settled_eq {e : LinkEvent psa i} (h : e.Granted) : e.settled =
    (lgLinkStageTx psa (e.o'.ok .encrypt) (subrateUpdateLink e.advanced i) i).2 := by
  rw [settled, lgLinkEventFinish]
  dsimp only
  rw [if_neg (not_not.mpr h.up)]
  rfl

end LinkEvent

/-- The events of link `i` from `c` on, one after the other; none is dropped. -/
def Succeed (c : Node cfg) : List (LinkEvent psa i) → Prop
  | [] => True
  | e :: l => Holds (c.neigh i) (e.found.neigh i) ∧ e.Granted ∧ Succeed e.settled l

/-- The link is ready to put the change with the body `body` on air: it is pending, and a frame
that is staged carries it. -/
structure Bears (body : Bytes) (frame : Option Bytes) (n : Neigh) : Prop where
  ready : n.Ready
  pending : changeBody n = some body
  staged : n.tx.txPending = true → frame = some body

/-- The change with the body `body` goes on air before it is applied or given up. -/
def Carried (body : Bytes) (frame : Option Bytes) : List (LinkEvent psa i) → Prop
  | [] => True
  | e :: l => e.aired frame = some body ∨
      changeBody (e.advanced.neigh i) = some body ∧ Carried body (e.after frame) l

theorem any_of_changeBody {n : Neigh} {body : Bytes} (h : changeBody n = some body) :
    n.sched.pendingCtrl.any = true := by
  unfold changeBody at h
  split at h
  · assumption
  · cases h

section

variable {body : Bytes} {frame : Option Bytes} {n n' : Neigh} {e : LinkEvent psa i}

theorem Holds.ready (h : Holds n n') (hr : n.Ready) : n'.Ready :=
  ⟨h.state.trans hr.1, h.hasKey.trans hr.2⟩

theorem Holds.bears (h : Holds n n') (hb : Bears body frame n) : Bears body frame n' where
  ready := h.ready hb.ready
  pending := (changeBody_congr h.change).trans hb.pending
  staged := fun ht => hb.staged (h.staged.symm.trans ht)

/-- What `lg_link_stage_tx` makes of a link with a change pending. -/
theorem frameAfter_bears (psa : Psa) (ok : Bool) (hr : (c.neigh i).Ready)
    (h : changeBody (c.neigh i) = some body) (frame : Option Bytes) :
    Bears body (frameAfter psa ok c i frame) ((lgLinkStageTx psa ok c i).2.neigh i) where
  ready := lgLinkStageTx_ready psa ok hr
  pending := by
    rw [changeBody_congr (n := c.neigh i) (by rw [lgLinkStageTx_sched])]
    exact h
  staged := by
    intro ht
    rw [lgLinkStageTx_txPending psa ok hr] at ht
    unfold frameAfter
    dsimp only
    rw [if_neg hr.not_refused, if_pos ht]
    exact h

theorem LinkEvent.chosen_holds (e : LinkEvent psa i) :
    Holds (e.found.neigh i) (e.chosen.neigh i) := by
  obtain ⟨anchor, counter, h⟩ := anchorCatchUp_moved e.catchUp
  refine ⟨?_, ?_, ?_, ?_⟩ <;> simp [chosen, h, Schedule.change]

/-- An event that is planned has a frame: the one in the buffer, or one staged now. -/
theorem LinkEvent.staged_cases (hs : e.staged.1 = true) :
    (e.chosen.neigh i).tx.txPending = true ∧ e.staged.2 = e.chosen ∨
      (e.chosen.neigh i).tx.txPending = false ∧
        (lgLinkStageTx psa (e.o.ok .encrypt) e.chosen i).1 = true ∧
        e.staged.2 = (lgLinkStageTx psa (e.o.ok .encrypt) e.chosen i).2 := by
  unfold LinkEvent.staged stageFor linkCandidate at hs ⊢
  dsimp only at hs ⊢
  cases ht : (e.chosen.neigh i).tx.txPending with
  | true => exact .inl ⟨rfl, rfl⟩
  | false =>
    cases hok : (lgLinkStageTx psa (e.o.ok .encrypt) e.chosen i).1 with
    | true => exact .inr ⟨rfl, rfl, by simp⟩
    | false => simp [ht, hok] at hs

/-- A frame that is staged as its link is chosen goes on air. -/
theorem LinkEvent.aired_bears (hg : e.Granted) (hb : Bears body frame (e.found.neigh i)) :
    e.aired frame = some body := by
  have hc := e.chosen_holds.bears hb
  unfold aired
  rcases staged_cases hg.staged with ⟨ht, -⟩ | ⟨ht, hok, -⟩
  · rw [if_pos ht]
    exact hc.staged ht
  · rw [ht, if_neg Bool.false_ne_true]
    unfold frameAfter
    dsimp only
    rw [if_neg hc.ready.not_refused, if_pos hok]
    exact hc.pending

/-- The link as the event ends. -/
theorem LinkEvent.ended_pending (hg : e.Granted) (hr : (e.found.neigh i).Ready)
    (h : changeBody (e.found.neigh i) = some body) :
    (e.ended.neigh i).Ready ∧ changeBody (e.ended.neigh i) = some body := by
  have hc := e.chosen_holds
  have hcr := hc.ready hr
  have hcb := (changeBody_congr hc.change).trans h
  have hs : (e.staged.2.neigh i).Ready ∧ changeBody (e.staged.2.neigh i) = some body := by
    rcases staged_cases hg.staged with ⟨-, heq⟩ | ⟨-, -, heq⟩
    · rw [heq]
      exact ⟨hcr, hcb⟩
    · have hb := frameAfter_bears psa (e.o.ok .encrypt) hcr hcb none
      rw [heq]
      exact ⟨hb.ready, hb.pending⟩
  exact ⟨hg.runs.ready hs.1, (changeBody_congr hg.runs.change).trans hs.2⟩

/-- `lg_link_advance` clears the change when it comes to the instant, and only then. -/
theorem lgLinkAdvance_pending {s : Schedule} (h : s.pendingCtrl.any = true) :
    nextActive s (counterOf s) < s.instant ∧ (lgLinkAdvance s).change = s.change ∨
      s.instant ≤ nextActive s (counterOf s) ∧ (lgLinkAdvance s).pendingCtrl = {} := by
  rcases Nat.lt_or_ge (nextActive s (counterOf s)) s.instant with hlt | hge
  · have hearly : ¬ ((toNextActive s).pendingCtrl.any = true ∧
        (toNextActive s).instant ≤ (toNextActive s).counter) :=
      fun hdue => absurd hdue.2 (Nat.not_le.mpr hlt)
    refine .inl ⟨hlt, ?_⟩
    rw [lgLinkAdvance, applyPending_early hearly]
    rfl
  · have hdue : (toNextActive s).pendingCtrl.any = true ∧
        (toNextActive s).instant ≤ (toNextActive s).counter := ⟨h, hge⟩
    refine .inr ⟨hge, ?_⟩
    rw [lgLinkAdvance, applyPending, if_pos hdue]

/-- The change is still pending after the event exactly if the link has not come to the instant. -/
theorem LinkEvent.advanced_pending (hg : e.Granted) (hr : (e.ended.neigh i).Ready)
    (h : changeBody (e.ended.neigh i) = some body) :
    (e.advanced.neigh i).Ready ∧ (changeBody (e.advanced.neigh i) = some body ↔
      nextActive (e.ended.neigh i).sched (counterOf (e.ended.neigh i).sched) <
        (e.ended.neigh i).sched.instant) := by
  obtain ⟨hholds, hsched⟩ := settleOutcome_holds hg.up
  have hready := hholds.ready hr
  have hadv : (e.advanced.neigh i).sched = lgLinkAdvance (e.ended.neigh i).sched := by
    simp [advanced, hsched]
  refine ⟨by simpa [Neigh.Ready, advanced] using hready, ?_⟩
  rcases lgLinkAdvance_pending (any_of_changeBody h) with ⟨hlt, hchange⟩ | ⟨hge, hnone⟩
  · have hsame : changeBody (e.advanced.neigh i) = changeBody (e.ended.neigh i) :=
      changeBody_congr (by rw [hadv, hchange])
    exact iff_of_true (hsame.trans h) hlt
  · have hcleared : changeBody (e.advanced.neigh i) = none := by
      rw [changeBody, hadv, hnone]
      rfl
    rw [hcleared]
    exact iff_of_false nofun (Nat.not_lt.mpr hge)

/-- A change that is pending when the next frame is staged goes on air. -/
theorem carried_after (hg : e.Granted) (hr : (e.advanced.neigh i).Ready)
    (h : changeBody (e.advanced.neigh i) = some body) {l : List (LinkEvent psa i)}
    (hl : Succeed e.settled l) : Carried body (e.after frame) l := by
  cases l with
  | nil => exact trivial
  | cons e' l =>
    have hn := subrateUpdateLink_pending (any_of_changeBody h)
    have hready : ((subrateUpdateLink e.advanced i).neigh i).Ready := by
      rw [hn]
      exact hr
    have hbody : changeBody ((subrateUpdateLink e.advanced i).neigh i) = some body := by
      rw [hn]
      exact h
    have hb := frameAfter_bears psa (e.o'.ok .encrypt) hready hbody (e.aired frame)
    rw [← LinkEvent.settled_eq hg] at hb
    exact .inl (LinkEvent.aired_bears hl.2.1 (hl.1.bears hb))

/-! ## A new channel map -/

/-- The change that `sched_finish` makes pending. -/
theorem finishChanEval_announces (hl : (c.neigh i).state = .linked)
    (hini : (c.neigh i).sched.initiator = true)
    (hidle : (c.neigh i).sched.pendingCtrl.any = false) (hmap : (lgChanReevaluate c).1 = true) :
    (finishChanEval c).neigh i =
      { c.neigh i with
        sched := announceChanMap (lgChanReevaluate c).2.net.chanMap (c.neigh i).sched } ∧
    changeBody ((finishChanEval c).neigh i) =
      some (ctrlBody ((finishChanEval c).neigh i).sched) := by
  have hn : (lgChanReevaluate c).2.neigh i = c.neigh i := by rw [(lgChanReevaluate_quiet c).neigh]
  have heq : (finishChanEval c).neigh i =
      { c.neigh i with
        sched := announceChanMap (lgChanReevaluate c).2.net.chanMap (c.neigh i).sched } := by
    simp [finishChanEval, hmap, announceMap, hn, hl]
  have hany : ((finishChanEval c).neigh i).sched.pendingCtrl.any = true := by
    rw [heq, announceChanMap, if_pos (by simp [hini, hidle])]
    rfl
  exact ⟨heq, if_pos hany⟩

/-- A channel map that `sched_finish` makes pending on an initiator's link goes on air before
`lg_link_advance` applies it or gives it up, whatever events of the link are granted, exactly if no
frame is staged when it is made pending, or the first of the events does not lead to the instant. -/
theorem announced_carried_iff (hr : (c.neigh i).Ready)
    (hini : (c.neigh i).sched.initiator = true)
    (hidle : (c.neigh i).sched.pendingCtrl.any = false) (hmap : (lgChanReevaluate c).1 = true)
    (e : LinkEvent psa i) (l : List (LinkEvent psa i))
    (h : Succeed (finishChanEval c) (e :: l)) :
    Carried (ctrlBody ((finishChanEval c).neigh i).sched) none (e :: l) ↔
      (c.neigh i).tx.txPending = false ∨
        nextActive (e.ended.neigh i).sched (counterOf (e.ended.neigh i).sched) <
          (e.ended.neigh i).sched.instant := by
  obtain ⟨hann, hbody⟩ := finishChanEval_announces hr.1 hini hidle hmap
  have hready : ((finishChanEval c).neigh i).Ready := by
    rw [hann]
    exact hr
  have htx : ((finishChanEval c).neigh i).tx = (c.neigh i).tx := by rw [hann]
  obtain ⟨hfound, hg, hl⟩ := h
  cases ht : (c.neigh i).tx.txPending with
  | false =>
    have hb : Bears (ctrlBody ((finishChanEval c).neigh i).sched) none
        ((finishChanEval c).neigh i) :=
      ⟨hready, hbody, fun ht' => by rw [htx, ht] at ht'; cases ht'⟩
    exact iff_of_true (.inl (LinkEvent.aired_bears hg (hfound.bears hb))) (.inl rfl)
  | true =>
    have hstale : e.aired none = none := by
      have hpending : (e.chosen.neigh i).tx.txPending = true := by
        rw [e.chosen_holds.staged, hfound.staged, htx, ht]
      rw [LinkEvent.aired, if_pos hpending]
    obtain ⟨hend, hendBody⟩ := LinkEvent.ended_pending hg (hfound.ready hready)
      ((changeBody_congr hfound.change).trans hbody)
    obtain ⟨hadv, hiff⟩ := LinkEvent.advanced_pending hg hend hendBody
    rw [Carried, hstale, or_iff_right nofun, or_iff_right nofun, ← hiff]
    exact ⟨And.left, fun hp => ⟨hp, carried_after hg hadv hp hl⟩⟩

end

/-- A link at event 8 with a keepalive staged, which uses every `subrate`-th event. -/
def pausingLink (subrate : UInt8) : Neigh where
  state := .linked
  addr := 2
  sched := {
    initiator := true, intervalUs := 200000, anchorUs := 1600000, counter := 8, subrate := subrate,
    subrateMax := 8, chanMap := 0xFFFF, supTimeoutUs := 6000000 }
  keys := { hasKey := true, keyId := some (zeros keyLen) }
  tx := { txPending := true, histStaged := .keepalive }

/-- A node with such a link, which hears noise on a channel. -/
def noisyNode (subrate : UInt8) : Node .default :=
  let c := (Node.boot .default (plainIdent 1 1)).setNeigh firstNeigh (pausingLink subrate)
  { c with net := { c.net with
    chanMap := 0xFFFF
    chan := fun k => if k.val = 0 then { noiseDbm := -40 } else {} } }

/-- The node when the noise has been taken into account. -/
def announcedNode (subrate : UInt8) : Node .default := finishChanEval (noisyNode subrate)

/-- The next event of the link, which is in time as it stands, and in which a frame comes in. -/
def pausingEvent (subrate : UInt8)
    (h : anchorCatchUp .default (announcedNode subrate).nowUs catchUpFuel
      ((announcedNode subrate).neigh firstNeigh).sched =
        some ((announcedNode subrate).neigh firstNeigh).sched) :
    LinkEvent Psa.plain firstNeigh where
  found := announcedNode subrate
  caught := ((announcedNode subrate).neigh firstNeigh).sched
  o := calm 1
  ended := { announcedNode subrate with evst := { gotRx := true, sentTx := true, txFirst := true } }
  o' := calm 2
  catchUp := h

theorem noisyNode_map (subrate : UInt8) : (lgChanReevaluate (noisyNode subrate)).1 = true := by
  change (lgChanReevaluate (noisyNode 1)).1 = true
  decide +kernel

theorem announcedNode_neigh (subrate : UInt8) : (announcedNode subrate).neigh firstNeigh =
    { pausingLink subrate with
      sched := announceChanMap (lgChanReevaluate (noisyNode subrate)).2.net.chanMap
        (pausingLink subrate).sched } :=
  (finishChanEval_announces (c := noisyNode subrate) rfl rfl rfl (noisyNode_map subrate)).1

theorem pausingEvent_succeeds {subrate : UInt8} (h) :
    Succeed (announcedNode subrate) [pausingEvent subrate h] := by
  have hchosen : (pausingEvent subrate h).chosen = announcedNode subrate := by
    simp [LinkEvent.chosen, pausingEvent, Node.setNeigh]
  have hstaged : (pausingEvent subrate h).staged = (true, announcedNode subrate) := by
    rw [LinkEvent.staged, hchosen]
    simp [stageFor, linkCandidate, announcedNode_neigh, pausingLink]
  refine ⟨.refl _, ⟨by rw [hstaged], ?_, ?_⟩, trivial⟩
  · rw [hstaged]
    exact .refl _
  · have hstate := (settleOutcome_heard (pausingEvent subrate h).o'
      (c := (pausingEvent subrate h).ended) firstNeigh rfl).2.1
    rw [hstate]
    change ((announcedNode subrate).neigh firstNeigh).state = .linked
    rw [announcedNode_neigh]
    rfl

theorem pausingEvent_pending {subrate : UInt8} (h) :
    changeBody ((pausingEvent subrate h).advanced.neigh firstNeigh) =
        some (ctrlBody ((announcedNode subrate).neigh firstNeigh).sched) ↔
      nextActive ((announcedNode subrate).neigh firstNeigh).sched
        (counterOf ((announcedNode subrate).neigh firstNeigh).sched) <
          ((announcedNode subrate).neigh firstNeigh).sched.instant := by
  have hready : ((announcedNode subrate).neigh firstNeigh).Ready := by
    rw [announcedNode_neigh]
    exact ⟨rfl, rfl⟩
  have hann := (finishChanEval_announces (c := noisyNode subrate) (i := firstNeigh) rfl rfl rfl
    (noisyNode_map subrate)).2
  exact (LinkEvent.advanced_pending (pausingEvent_succeeds h).2.1 hready hann).2

theorem pausing_caught : ∀ subrate ∈ [(1 : UInt8), 8],
    anchorCatchUp .default (announcedNode subrate).nowUs catchUpFuel
      ((announcedNode subrate).neigh firstNeigh).sched =
        some ((announcedNode subrate).neigh firstNeigh).sched := by
  decide +kernel

theorem announced_carried_iff_pausing :
    ∃ h, Carried (ctrlBody ((announcedNode 1).neigh firstNeigh).sched) none [pausingEvent 1 h] ↔
        ((noisyNode 1).neigh firstNeigh).tx.txPending = false ∨
          nextActive ((pausingEvent 1 h).ended.neigh firstNeigh).sched
            (counterOf ((pausingEvent 1 h).ended.neigh firstNeigh).sched) <
              ((pausingEvent 1 h).ended.neigh firstNeigh).sched.instant := by
  have h := pausing_caught 1 (by simp)
  exact ⟨h, announced_carried_iff (c := noisyNode 1) ⟨rfl, rfl⟩ rfl rfl (noisyNode_map 1) _ _
    (pausingEvent_succeeds h)⟩

/-- A keepalive is staged and the link uses every eighth event: the map is given up before it is
sent. -/
theorem not_announced_carried :
    ¬ ∀ (cfg : Config) (psa : Psa) (i : Fin cfg.maxNeighbors) (c : Node cfg),
      (c.neigh i).Ready → (c.neigh i).sched.initiator = true →
      (c.neigh i).sched.pendingCtrl.any = false → (lgChanReevaluate c).1 = true →
      ∀ l : List (LinkEvent psa i), Succeed (finishChanEval c) l →
        Carried (ctrlBody ((finishChanEval c).neigh i).sched) none l := by
  intro h
  have hcaught := pausing_caught 8 (by simp)
  have hcarried := h .default Psa.plain firstNeigh (noisyNode 8) ⟨rfl, rfl⟩ rfl rfl
    (noisyNode_map 8) [pausingEvent 8 hcaught] (pausingEvent_succeeds hcaught)
  have hlate : ¬ nextActive ((announcedNode 8).neigh firstNeigh).sched
      (counterOf ((announcedNode 8).neigh firstNeigh).sched) <
        ((announcedNode 8).neigh firstNeigh).sched.instant := by
    decide +kernel
  rcases hcarried with haired | ⟨hpending, -⟩
  · have hchosen : (pausingEvent 8 hcaught).aired none = none := by
      simp [LinkEvent.aired, LinkEvent.chosen, pausingEvent, announcedNode_neigh, pausingLink]
    rw [hchosen] at haired
    cases haired
  · exact hlate ((pausingEvent_pending hcaught).mp hpending)

end LockGrid
