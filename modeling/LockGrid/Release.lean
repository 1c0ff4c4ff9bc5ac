import LockGrid.Accounts
import LockGrid.Nonces

/-!
# Messages leave the queue

The settlement of a link event frees a message when a frame came in, one went out and an
acknowledgement is owed. In an orderly run the right message is freed exactly when the queue
still offers the message the staged frame was built from.
-/
namespace LockGrid

variable {cfg : Config} {psa : Psa}

theorem lgTxqPeek_used {c : Node cfg} {peer : Addr} {k : Fin cfg.txQueueSize}
    (h : (lgTxqPeek c peer).1 = some k) : (c.txq k).used = true := by
  have hfold : ∀ (l : List (Fin cfg.txQueueSize)) (st : Option (Fin cfg.txQueueSize) × Node cfg),
      (∀ k, st.1 = some k → (st.2.txq k).used = true) →
      ∀ k, (l.foldl (peekSlot peer) st).1 = some k →
        ((l.foldl (peekSlot peer) st).2.txq k).used = true := by
    intro l
    induction l with
    | nil => exact fun st hst => hst
    | cons j l ih =>
      intro st hst
      refine ih _ fun k hk => ?_
      rw [(peekSlot_quiet peer st j).txq]
      unfold peekSlot at hk
      dsimp only at hk
      split at hk
      · exact hst k hk
      · next hused =>
        have hj : (st.2.txq j).used = true := by simpa using hused
        split_ifs at hk
        · exact hst k hk
        · split at hk
          · cases hk
            exact hj
          · split_ifs at hk
            · cases hk
              exact hj
            · exact hst k hk
  have hk := hfold _ (none, c) nofun k h
  exact (lgTxqPeek_quiet c peer).txq ▸ hk

theorem lgLinkDown_txq (o : Oracle) (c : Node cfg) (i : Fin cfg.maxNeighbors) :
    (lgLinkDown o c i).txq = c.txq := by
  rw [lgLinkDown_eq]
  dsimp only
  split
  · rfl
  · rw [(linksChanged_quiet o _).txq, (lgRouteFlushVia_quiet _ _).txq]
    rfl

theorem lgLinkEventMiss_txq (o : Oracle) (c : Node cfg) (i : Fin cfg.maxNeighbors) :
    (lgLinkEventMiss o c i).txq = c.txq := by
  have hq : (lgChanResult (lgNeighTxResult c i false) (lgLinkNextChan (c.neigh i).sched)
      false).txq = c.txq :=
    ((lgNeighTxResult_quiet c i false).trans (lgChanResult_quiet _ _ false)).txq
  unfold lgLinkEventMiss
  dsimp only
  split
  · rw [lgLinkDown_txq, hq]
  · exact hq

theorem lgSecEncrypt_txq (psa : Psa) (ok : Bool) (c : Node cfg) (i : Fin cfg.maxNeighbors)
    (pdu : Bytes) (hdr : ℕ) : (lgSecEncrypt psa ok c i pdu hdr).2.txq = c.txq := by
  rcases lgSecEncrypt_cases psa ok c i pdu hdr with h | ⟨-, h⟩ | ⟨key, aad, plain, -, -, h⟩ <;>
    rw [h]
  all_goals rfl

theorem lgLinkStageTx_txq (psa : Psa) (ok : Bool) (c : Node cfg) (i : Fin cfg.maxNeighbors) :
    (lgLinkStageTx psa ok c i).2.txq = c.txq := by
  have hseal : ∀ (c : Node cfg) t more body staged,
      (stageSeal psa ok c i t more body staged).2.txq = c.txq := by
    intro c t more body staged
    unfold stageSeal
    dsimp only
    split <;> next he =>
      have hs := congrArg Prod.snd he ▸ lgSecEncrypt_txq psa ok _ i _ _
      exact hs
  rcases lgLinkStageTx_cases psa ok c i with h | ⟨t, staged, d, ft, more, body, -, hq, h⟩ <;>
    rw [h]
  rw [hseal, hq.txq]
  rfl

/-- What the settlement of a link event does to the queue. -/
theorem lgLinkEventFinish_txq (psa : Psa) (o : Oracle) (c : Node cfg)
    (i : Fin cfg.maxNeighbors) :
    (lgLinkEventFinish psa o c i).txq =
      if c.evst.gotRx = true ∧ c.evst.sentTx = true ∧ (c.neigh i).tx.txNeedsAck = true then
        match (lgTxqPeek c (c.neigh i).addr).1 with
        | some k => Function.update c.txq k {}
        | none => c.txq
      else c.txq := by
  have hq := (lgTxqPeek_quiet c (c.neigh i).addr).txq
  have hrest : (lgLinkEventFinish psa o c i).txq = (settleOutcome o c i).txq := by
    unfold lgLinkEventFinish
    dsimp only
    split
    · rfl
    · rw [lgLinkStageTx_txq]
      unfold subrateUpdateLink
      dsimp only
      split
      · rfl
      · exact (lgTxqPeek_quiet _ _).txq
  rw [hrest]
  unfold settleOutcome
  dsimp only
  by_cases hrx : c.evst.gotRx = true
  · rw [if_neg (by simp [hrx])]
    by_cases hack : (c.neigh i).tx.txNeedsAck = true ∧ c.evst.sentTx = true
    · rw [if_pos (by simp [hack]), if_pos ⟨hrx, hack.2, hack.1⟩]
      cases (lgTxqPeek c (c.neigh i).addr).1 <;>
        simp only [Node.setTx, Node.setNeigh, lgTxqFree, hq]
    · rw [if_neg (by simpa using hack), if_neg fun h => hack ⟨h.2.2, h.2.1⟩]
  · rw [if_pos (by simp [hrx]), if_neg fun h => hrx h.1, lgLinkEventMiss_txq]

/-- What is to hold of the settlement of a link event: a message leaves the queue only if it is
what was transmitted in that event. -/
def ReleasesAired (psa : Psa) (o : Oracle) (c : Node cfg) (i : Fin cfg.maxNeighbors) : Prop :=
  ∀ k, (lgLinkEventFinish psa o c i).txq k ≠ c.txq k →
    c.evst.histNo = c.histFinishNo ∧ c.evst.sentTx = true ∧
      c.hist.aired.head? = some (i.val, .data (c.txq k).histUid)

/-- In every orderly run, a link event is settled right exactly when the message the queue
offers, if one is released, is the one that was staged. -/
theorem releasesAired_iff {ident : Identity} {c : Node cfg}
    (h : ReachableWhen psa ident Orderly c) (hk : c.finishKind = .link)
    {i : Fin cfg.maxNeighbors} (hn : c.finishNeigh = some i) (o : Oracle) :
    ReleasesAired psa o c i ↔
      (c.evst.gotRx = true → c.evst.sentTx = true → (c.neigh i).tx.txNeedsAck = true →
        ∀ k, (lgTxqPeek c (c.neigh i).addr).1 = some k →
          (c.neigh i).tx.histStaged = .data (c.txq k).histUid) := by
  have hended := h.accounted.ended i hk hn
  have htxq := lgLinkEventFinish_txq psa o c i
  constructor
  · intro hrel hrx htx hack k hpeek
    rw [if_pos ⟨hrx, htx, hack⟩, hpeek] at htxq
    have hchanged : (lgLinkEventFinish psa o c i).txq k ≠ c.txq k := by
      intro heq
      have hused := lgTxqPeek_used hpeek
      rw [← heq, htxq] at hused
      simp at hused
    have haired := (hrel k hchanged).2.2
    rw [(hended hrx htx hack).2, Option.some.injEq, Prod.mk.injEq] at haired
    exact haired.2
  · intro hstaged k hchanged
    by_cases hcond : c.evst.gotRx = true ∧ c.evst.sentTx = true ∧
        (c.neigh i).tx.txNeedsAck = true
    · obtain ⟨hrx, htx, hack⟩ := hcond
      rw [if_pos ⟨hrx, htx, hack⟩] at htxq
      obtain ⟨hno, haired⟩ := hended hrx htx hack
      split at htxq
      · next k' hpeek =>
        have hkk : k = k' := by
          by_contra hne
          rw [htxq, Function.update_of_ne hne] at hchanged
          exact hchanged rfl
        subst hkk
        rw [hstaged hrx htx hack k hpeek] at haired
        exact ⟨hno, htx, haired⟩
      · rw [htxq] at hchanged
        exact absurd rfl hchanged
    · rw [htxq, if_neg hcond] at hchanged
      exact absurd rfl hchanged

/-! ## Two runs -/

def patient : Tuning :=
  { tuningInit .default with
    scanUnattachedUs := 10000000, scanSeekingUs := 10000000, beaconIntervalUs := 10000000 }

/-- Node 1 links up as in `resumedRun`, without much else to do for its radio. -/
def linkedRun : List (Oracle × Input) :=
  resumedRun.take 1 ++ (calm 1, .tuningSet patient) :: resumedRun.drop 1

def linkReply : RxRec := sealedFrag .ack 1 2 [] 1 []

/-- A keepalive is exchanged; a message that was queued meanwhile is staged for the next event. -/
def stagedRun : List (Oracle × Input) :=
  linkedRun ++
    [(calm 14, Input.tick 313500), (calm 14, .refused), (calm 14, .finishWork (calm 14)),
      (calm 14, .tick 84500), (calm 14, .granted), (calm 14, .tick 3000),
      (calm 14, .txDone 463000), (calm 14, .rxDone linkReply), (calm 14, .send 2 1 [42] 0),
      (calm 14, .finishWork (calm 14))]

/-- The message goes out and a reply comes in. -/
def repliedRun : List (Oracle × Input) :=
  stagedRun ++
    [(calm 14, Input.tick 196000), (calm 14, .granted), (calm 14, .tick 4000),
      (calm 14, .txDone 663000), (calm 14, .rxDone linkReply)]

instance (c : Node cfg) (inp : Input) : Decidable (Orderly c inp) := by
  rcases inp <;> unfold Orderly <;> infer_instance

def firstSlot : Fin Config.default.txQueueSize := ⟨0, Config.default_queue⟩

/-- The first message of the queue leaves it when the link event is settled. -/
def releasesFirst (c : Node .default) : Bool :=
  decide (c.finishKind = .link ∧ c.finishNeigh = some firstNeigh ∧
    (c.txq firstSlot).used = true ∧
    ((lgLinkEventFinish Psa.plain (calm 15) c firstNeigh).txq firstSlot).used = false)

theorem releasesAired_replied :
    ∃ c : Node .default, ReachableWhen Psa.plain (plainIdent 1 1) Orderly c ∧
      releasesFirst c = true ∧ ReleasesAired Psa.plain (calm 15) c firstNeigh := by
  obtain ⟨c, hc, hp⟩ := exists_reachableWhen (P := Orderly) Psa.plain (plainIdent 1 1) repliedRun
    (fun c : Node .default => releasesFirst c &&
      decide ((c.neigh firstNeigh).tx.histStaged = .data (c.txq firstSlot).histUid ∧
        (lgTxqPeek c (c.neigh firstNeigh).addr).1 = some firstSlot)) (by decide +kernel)
  simp only [Bool.and_eq_true, decide_eq_true_eq] at hp
  obtain ⟨hrel, hstaged, hpeek⟩ := hp
  obtain ⟨hk, hn, -⟩ := of_decide_eq_true hrel
  refine ⟨c, hc, hrel, (releasesAired_iff hc hk hn _).mpr fun _ _ _ k hk' => ?_⟩
  rw [hpeek] at hk'
  cases hk'
  exact hstaged

/-- The arbiter refuses the event the message was to go out in. -/
def refusedRun : List (Oracle × Input) := stagedRun ++ [(calm 14, Input.refused)]

/-- The message is released although nothing was sent: the bookkeeping is that of the event
before. -/
theorem not_releasesAired_refused :
    ¬ ∀ (psa : Psa) (ident : Identity) (o : Oracle) (c : Node .default)
      (i : Fin Config.default.maxNeighbors), Reachable psa ident c → c.finishKind = .link →
      c.finishNeigh = some i → ReleasesAired psa o c i := by
  intro h
  obtain ⟨c, hc, hp⟩ := exists_reachable Psa.plain (plainIdent 1 1) refusedRun
    (fun c : Node .default => releasesFirst c && decide (c.evst.histNo ≠ c.histFinishNo))
    (by decide +kernel)
  simp only [Bool.and_eq_true, decide_eq_true_eq] at hp
  obtain ⟨hk, hn, hused, hfreed⟩ := of_decide_eq_true hp.1
  refine hp.2 (h _ _ (calm 15) c firstNeigh hc hk hn firstSlot ?_).1
  intro heq
  rw [heq, hused] at hfreed
  cases hfreed

end LockGrid
