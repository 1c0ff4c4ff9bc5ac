import LockGrid.Disc
import LockGrid.Schedule

/-!
# Transmit queue

The queue of `lg_core.c`, with `lg_send`, `lg_send_forward` and `lg_sched_expedite`.
-/
namespace LockGrid

variable {cfg : Config}

def payloadMax : ℕ := 64
def txUrgent : UInt8 := 2

/-- Next hop of a queued message, recomputed each time so it follows the tree. -/
def msgNextHop (c : Node cfg) (m : TxMsg) : Addr × Node cfg :=
  if m.flags &&& dataBroadcast ≠ 0 then (m.finalDst, c) else lgRouteNextHop c m.finalDst m.flags

/-- One round of the loop of `lg_txq_peek`: slot `k` against the oldest message so far. -/
def peekSlot (peer : Addr) (st : Option (Fin cfg.txQueueSize) × Node cfg)
    (k : Fin cfg.txQueueSize) : Option (Fin cfg.txQueueSize) × Node cfg :=
  let m := st.2.txq k
  if !m.used then st
  else
    let hop := msgNextHop st.2 m
    if hop.1 ≠ peer then (st.1, hop.2)
    else match st.1 with
      | none => (some k, hop.2)
      | some b =>
        if m.enqueuedUs < (st.2.txq b).enqueuedUs then (some k, hop.2) else (st.1, hop.2)

/-- The oldest message whose next hop is `peer`. -/
def lgTxqPeek (c : Node cfg) (peer : Addr) : Option (Fin cfg.txQueueSize) × Node cfg :=
  (List.finRange cfg.txQueueSize).foldl (peekSlot peer) (none, c)

def lgTxqPending (c : Node cfg) (peer : Addr) : Bool × Node cfg :=
  ((lgTxqPeek c peer).1.isSome, (lgTxqPeek c peer).2)

def lgTxqFree (c : Node cfg) (k : Fin cfg.txQueueSize) : Node cfg :=
  { c with txq := Function.update c.txq k {} }

def txqAlloc (c : Node cfg) : Option (Fin cfg.txQueueSize) :=
  (List.finRange cfg.txQueueSize).find? fun k => !(c.txq k).used

/-- Put a message into slot `k`, numbered apart from all before it. -/
def enqueue (c : Node cfg) (k : Fin cfg.txQueueSize) (m : TxMsg) : Node cfg :=
  { c with
    txq := Function.update c.txq k
      { m with used := true, enqueuedUs := c.nowUs, histUid := c.hist.uids }
    hist := { c.hist with uids := c.hist.uids + 1 } }

/-- Bring a link's next event forward because traffic is waiting. -/
def lgSchedExpedite (c : Node cfg) (i : Fin cfg.maxNeighbors) : Node cfg :=
  let n := c.neigh i
  if n.state ≠ .linked then c else c.setNeigh i { n with sched := expedite c.nowUs n.sched }

/-- One copy of a broadcast per linked neighbour, while there is room. -/
def sendCopies (m : TxMsg) :
    List (Fin cfg.maxNeighbors) → ℕ × Node cfg → ℕ × Node cfg
  | [], st => st
  | i :: rest, (sent, c) =>
    if (c.neigh i).state ≠ .linked then sendCopies m rest (sent, c)
    else match txqAlloc c with
      | none => (sent, c)
      | some k =>
        sendCopies m rest
          (sent + 1, lgSchedExpedite (enqueue c k { m with finalDst := (c.neigh i).addr }) i)

/-- Queue a message that originated elsewhere; `m` carries the arguments. -/
def lgSendForward (c : Node cfg) (m : TxMsg) : Except Err Unit × Node cfg :=
  if payloadMax < m.payload.length then (.error .msgSize, c)
  else if !c.started then (.error .again, c)
  else if m.flags &&& dataBroadcast ≠ 0 then
    let st := sendCopies m (List.finRange cfg.maxNeighbors) (0, c)
    (if st.1 = 0 then .error .notConn else .ok (), st.2)
  else
    let hop := lgRouteNextHop c m.finalDst m.flags
    if hop.1 = addrInvalid then (.error .notConn, hop.2)
    else match txqAlloc hop.2 with
      | none => (.error .noMem, hop.2)
      | some k => (.ok (), enqueue hop.2 k m)

def lgSend (c : Node cfg) (dst : Addr) (port : UInt8) (payload : Bytes) (flags : UInt8) :
    Except Err Unit × Node cfg :=
  let dflags := if dst = addrBackhaul then dataUpward
    else if dst = addrBroadcast then dataBroadcast else 0
  let c := { c with msgIdNext := c.msgIdNext + 1 }
  let m : TxMsg :=
    { finalDst := dst, origin := c.ident.addr, flags := dflags, port := port,
      msgId := c.msgIdNext - 1, payload := payload }
  match lgSendForward c m with
  | (.error e, c) => (.error e, c)
  | (.ok (), c) =>
    if flags &&& txUrgent ≠ 0 then
      let nh := if dflags &&& dataUpward ≠ 0 then lgParent c else dst
      match lgNeighFind c nh with
      | some i => (.ok (), lgSchedExpedite c i)
      | none => (.ok (), c)
    else (.ok (), c)

/-! ## What the queue functions leave alone -/

theorem msgNextHop_quiet (c : Node cfg) (m : TxMsg) : Node.Quiet c (msgNextHop c m).2 := by
  unfold msgNextHop
  split_ifs
  · exact .refl c
  · exact lgRouteNextHop_quiet c _ _

theorem peekSlot_quiet (peer : Addr) (st : Option (Fin cfg.txQueueSize) × Node cfg)
    (k : Fin cfg.txQueueSize) : Node.Quiet st.2 (peekSlot peer st k).2 := by
  have h := msgNextHop_quiet st.2 (st.2.txq k)
  unfold peekSlot
  dsimp only
  split_ifs
  · exact .refl _
  · exact h
  · split
    · exact h
    · split_ifs <;> exact h

theorem lgTxqPeek_quiet (c : Node cfg) (peer : Addr) : Node.Quiet c (lgTxqPeek c peer).2 := by
  have h : ∀ (l : List (Fin cfg.txQueueSize)) (st : Option (Fin cfg.txQueueSize) × Node cfg),
      Node.Quiet st.2 (l.foldl (peekSlot peer) st).2 := by
    intro l
    induction l with
    | nil => exact fun st => .refl _
    | cons k l ih => exact fun st => (peekSlot_quiet peer st k).trans (ih _)
  exact h _ (none, c)

/-- `lg_sched_expedite` changes at most the schedule of one entry. -/
theorem lgSchedExpedite_eq (c : Node cfg) (i : Fin cfg.maxNeighbors) :
    ∃ s, lgSchedExpedite c i = c.setNeigh i { c.neigh i with sched := s } := by
  unfold lgSchedExpedite
  dsimp only
  split_ifs
  · exact ⟨(c.neigh i).sched, by simp [Node.setNeigh]⟩
  · exact ⟨_, rfl⟩

end LockGrid
