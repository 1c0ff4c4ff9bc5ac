import LockGrid.Stores
import LockGrid.Ring
import LockGrid.Provenance

/-!
# Messages that come twice

The cache of `lg_route_is_duplicate` is a ring of the messages it has not known. What
`handle_data` hands to the application has gone through it.
-/
namespace LockGrid

variable {cfg : Config} {psa : Psa} {c d : Node cfg} {o : Oracle} {inp : Input}

/-! ## The cache -/

/-- `lg_route_init`. -/
def lgRouteInit (c : Node cfg) : Node cfg :=
  { c with net := { c.net with
      routes := fun _ => {}
      dupCache := fun _ => (0, 0)
      dupNext := 0
      gossip := fun _ => {}
      wantAddr := addrInvalid
      rank := if c.net.role = .backhaul then 0 else rankInfinite } }

/-- `lg_start` initialises the cache so. -/
theorem netInit_dup (c : Node cfg) :
    (netInit cfg c.nowUs c.net).dupCache = (lgRouteInit c).net.dupCache ∧
      (netInit cfg c.nowUs c.net).dupNext = (lgRouteInit c).net.dupNext := ⟨rfl, rfl⟩

/-- The cache is a ring. -/
theorem lgRouteIsDuplicate_ask (c : Node cfg) (origin : Addr) (msgId : UInt16) :
    let r := lgRouteIsDuplicate c origin msgId
    (r.1, r.2.net.dupCache, r.2.net.dupNext) =
      Ring.ask c.net.dupCache c.net.dupNext (origin, msgId) := by
  intro r
  simp only [r, lgRouteIsDuplicate, Ring.ask]
  split
  · rfl
  · rfl

theorem Minds.cache (h : Minds c d) :
    d.net.dupCache = c.net.dupCache ∧ d.net.dupNext = c.net.dupNext := by
  have hmail := h.mail
  simp only [Node.mail, Prod.mk.injEq] at hmail
  exact ⟨hmail.2.2.2.1, hmail.2.2.2.2⟩

/-- What asks about one message leaves the cache as the question does. -/
theorem Asks.cache {msg : Addr × UInt16} (h : Asks (some msg) c d) :
    d.net.dupCache = (lgRouteIsDuplicate c msg.1 msg.2).2.net.dupCache ∧
      d.net.dupNext = (lgRouteIsDuplicate c msg.1 msg.2).2.net.dupNext := by
  obtain ⟨e, he, hd⟩ := h
  obtain ⟨hcache, hnext⟩ := he.cache
  have hc := lgRouteIsDuplicate_ask c msg.1 msg.2
  have he' := lgRouteIsDuplicate_ask e msg.1 msg.2
  rw [hcache, hnext, ← hc] at he'
  simp only [Prod.mk.injEq] at he'
  exact ⟨hd.cache.1.trans he'.2.1, hd.cache.2.trans he'.2.2⟩

/-! ## What the application gets -/

/-- The `lg_rx_info` of a message. -/
structure RxInfo where
  src : Addr
  prevHop : Addr
  port : UInt8
  rssi : ℤ
  hops : UInt8
  deriving DecidableEq, Repr

/-- What `handle_data` calls the application with, if it does, for a frame of neighbour `i`. -/
def handleDataRx (c : Node cfg) (i : Fin cfg.maxNeighbors) (body : Bytes) (rssi : ℤ) :
    Option (RxInfo × Bytes) :=
  if body.length < dataHdrLen ∨ payloadMax < body.length - dataHdrLen then none
  else
    let flags := getByte body 0
    let origin := getLe16 body 1
    let final := getLe16 body 3
    let forUs : Bool := final = c.ident.addr ||
      (flags &&& dataUpward ≠ 0 && c.net.role = .backhaul) || flags &&& dataBroadcast ≠ 0
    if (lgRouteIsDuplicate c origin (getLe16 body 7)).1 then none
    else if forUs then
      some (⟨origin, (c.neigh i).addr, getByte body 6, rssi, getByte body 5⟩, body.drop dataHdrLen)
    else none

/-- The application gets a message only if the cache did not know it. -/
theorem handleDataRx_fresh {i : Fin cfg.maxNeighbors} {body : Bytes} {rssi : ℤ}
    {msg : Addr × UInt16} (hmsg : dataAsked body = some msg)
    (h : handleDataRx c i body rssi ≠ none) : (lgRouteIsDuplicate c msg.1 msg.2).1 = false := by
  unfold dataAsked at hmsg
  unfold handleDataRx at h
  split at hmsg
  · cases hmsg
  · next hlen =>
    cases hmsg
    rw [if_neg hlen] at h
    dsimp only at h
    split at h
    · exact absurd rfl h
    · next hknown => simpa using hknown

/-- A data message that `handle_data` has looked at. -/
structure Arrival where
  msg : Addr × UInt16
  known : Bool
  toApp : Option (RxInfo × Bytes)

def Arrival.answer (a : Arrival) : (Addr × UInt16) × Bool := (a.msg, a.known)

/-- `handle_data` on a message, or whatever else leaves the cache alone. -/
inductive Arrives : Node cfg × List Arrival → Node cfg × List Arrival → Prop
  | data {c : Node cfg} {log : List Arrival} (i : Fin cfg.maxNeighbors) (body : Bytes) (rssi : ℤ)
      {msg : Addr × UInt16} (hmsg : dataAsked body = some msg) :
      Arrives (c, log) (handleData c body,
        ⟨msg, (lgRouteIsDuplicate c msg.1 msg.2).1, handleDataRx c i body rssi⟩ :: log)
  | other {c d : Node cfg} {log : List Arrival} (hcache : d.net.dupCache = c.net.dupCache)
      (hnext : d.net.dupNext = c.net.dupNext) : Arrives (c, log) (d, log)

/-! ## The last messages -/

/-- The messages that were not known, the newest first. -/
def newMessages (log : List Arrival) : List (Addr × UInt16) := Ring.missed (log.map Arrival.answer)

/-- The cache holds the last new messages, and so far has told them from the others. -/
structure Suppressed (c : Node cfg) (log : List Arrival) : Prop where
  holds : Ring.Holds c.net.dupCache c.net.dupNext (0, 0) (newMessages log)
  faithful : Ring.Faithful dupCacheSize (log.map Arrival.answer)
  fresh : ∀ a ∈ log, a.toApp ≠ none → a.known = false

theorem Arrives.suppressed {x y : Node cfg × List Arrival} (h : Arrives x y)
    (hx : Suppressed x.1 x.2) (horigin : ∀ a ∈ y.2, a.msg.1 ≠ addrInvalid) :
    Suppressed y.1 y.2 := by
  cases h with
  | @data c log i body rssi msg hmsg =>
    have hne : msg ≠ (0, 0) := by
      intro he
      exact horigin _ List.mem_cons_self (congrArg Prod.fst he)
    have hasks : Asks (some msg) c (handleData c body) := hmsg ▸ handleData_asks c body
    obtain ⟨hcache, hnext⟩ := hasks.cache
    obtain ⟨hanswer, hholds⟩ := hx.holds.ask hne
    rw [← lgRouteIsDuplicate_ask c msg.1 msg.2] at hanswer hholds
    refine ⟨?_, hx.faithful.cons hanswer, ?_⟩
    · rw [hcache, hnext]
      exact hholds
    · intro a ha
      rcases List.mem_cons.mp ha with rfl | hmem
      · exact handleDataRx_fresh hmsg
      · exact hx.fresh a hmem
  | other hcache hnext =>
    refine ⟨?_, hx.faithful, hx.fresh⟩
    rw [hcache, hnext]
    exact hx.holds

theorem Suppressed.init (c : Node cfg) : Suppressed (lgRouteInit c) [] where
  holds := Ring.holds_blank (by decide) (0, 0)
  faithful := Ring.faithful_nil
  fresh := nofun

theorem arrives_log {x y : Node cfg × List Arrival} (h : Arrives x y) : ∀ a ∈ x.2, a ∈ y.2 := by
  cases h with
  | data => exact fun _ => List.mem_cons_of_mem _
  | other => exact fun _ => id

/-- Since `lg_route_init`, a message is taken for known just when it is among the last new ones.
So the application gets it again only after as many others as the cache has places. -/
theorem duplicates_suppressed {c₀ : Node cfg} {log : List Arrival}
    (h : Relation.ReflTransGen Arrives (lgRouteInit c₀, []) (c, log))
    (horigin : ∀ a ∈ log, a.msg.1 ≠ addrInvalid) :
    (∀ later a earlier, log = later ++ a :: earlier →
      (a.known = true ↔ a.msg ∈ (newMessages earlier).take dupCacheSize)) ∧
    ∀ later a between b earlier, log = later ++ a :: (between ++ b :: earlier) →
      a.toApp ≠ none → b.toApp ≠ none → a.msg = b.msg →
      dupCacheSize ≤ (newMessages between).length := by
  have hsup : ∀ x : Node cfg × List Arrival, Relation.ReflTransGen Arrives (lgRouteInit c₀, []) x →
      (∀ a ∈ x.2, a.msg.1 ≠ addrInvalid) → Suppressed x.1 x.2 := by
    intro x hx
    induction hx with
    | refl => exact fun _ => Suppressed.init c₀
    | tail _ hstep ih =>
      intro hall
      exact hstep.suppressed (ih fun a ha => hall a (arrives_log hstep a ha)) hall
  obtain ⟨-, hfaithful, hfresh⟩ := hsup _ h horigin
  refine ⟨?_, ?_⟩
  · intro later a earlier hlog
    exact hfaithful (later.map Arrival.answer) a.msg a.known (earlier.map Arrival.answer)
      (by rw [hlog]; simp [Arrival.answer])
  · intro later a between b earlier hlog ha hb hmsg
    have hka := hfresh a (by rw [hlog]; simp) ha
    have hkb := hfresh b (by rw [hlog]; simp) hb
    have hsplit : log.map Arrival.answer = later.map Arrival.answer ++ (b.msg, false) ::
        (between.map Arrival.answer ++ (b.msg, false) :: earlier.map Arrival.answer) := by
      rw [hlog]
      simp [Arrival.answer, hka, hkb, hmsg]
    exact hfaithful.apart hsplit

/-! ## Two copies -/

/-- A message for node 1. -/
def smallMessage : Bytes := [0, 3, 0, 1, 0, 0, 5, 9, 0, 42]

/-- The message has come over two neighbours. -/
def twoCopies : Node .default × List Arrival :=
  let c₀ := lgRouteInit (Node.boot .default (plainIdent 1 1))
  let c₁ := handleData c₀ smallMessage
  (handleData c₁ smallMessage,
    [⟨(3, 9), (lgRouteIsDuplicate c₁ 3 9).1, handleDataRx c₁ firstNeigh smallMessage 0⟩,
      ⟨(3, 9), (lgRouteIsDuplicate c₀ 3 9).1, handleDataRx c₀ firstNeigh smallMessage 0⟩])

theorem duplicates_suppressed_twice :
    (twoCopies.2.map fun a => (a.known, a.toApp.isSome)) = [(true, false), (false, true)] ∧
      (∀ later a earlier, twoCopies.2 = later ++ a :: earlier →
        (a.known = true ↔ a.msg ∈ (newMessages earlier).take dupCacheSize)) ∧
      ∀ later a between b earlier, twoCopies.2 = later ++ a :: (between ++ b :: earlier) →
        a.toApp ≠ none → b.toApp ≠ none → a.msg = b.msg →
        dupCacheSize ≤ (newMessages between).length := by
  have hmsg : dataAsked smallMessage = some (3, 9) := by decide
  have hrun : Relation.ReflTransGen Arrives
      (lgRouteInit (Node.boot .default (plainIdent 1 1)), []) (twoCopies.1, twoCopies.2) :=
    (Relation.ReflTransGen.single (.data firstNeigh smallMessage 0 hmsg)).tail
      (.data firstNeigh smallMessage 0 hmsg)
  refine ⟨by decide, duplicates_suppressed hrun ?_⟩
  intro a ha
  have hmsgs : twoCopies.2.map Arrival.msg = [(3, 9), (3, 9)] := rfl
  have hmem : a.msg ∈ [((3 : Addr), (9 : UInt16)), (3, 9)] :=
    hmsgs ▸ List.mem_map_of_mem ha
  have heq : a.msg = (3, 9) := by simpa using hmem
  rw [heq]
  decide

/-! ## Steps of a node -/

theorem Minds.arrives (h : Minds c d) (log : List Arrival) : Arrives (c, log) (d, log) :=
  .other h.cache.1 h.cache.2

/-- A frame handled in a link comes down to `handle_data` on a message, or to nothing. -/
theorem lgLinkRxFrame_arrives (o : Oracle) (c : Node cfg) (i : Fin cfg.maxNeighbors)
    (fcf : UInt8) (payload : Bytes) (rssi : ℤ) (log : List Arrival) :
    ∃ log', Relation.ReflTransGen Arrives (c, log) (lgLinkRxFrame o c i fcf payload, log') := by
  have hasks := lgLinkRxFrame_asks o c i fcf payload
  by_cases ht : FrameType.ofCode (fcf &&& fcfTypeMask) = some .data
  · rw [if_pos ht] at hasks
    cases hmsg : dataAsked payload with
    | none =>
      rw [hmsg] at hasks
      exact ⟨log, .single (Minds.arrives hasks log)⟩
    | some msg =>
      have hexpedite : ∀ d, Minds d (if fcf &&& fcfMd ≠ 0 then lgSchedExpedite d i else d) := by
        intro d
        split
        · exact lgSchedExpedite_minds d i
        · exact .refl d
      have hframe : lgLinkRxFrame o c i fcf payload =
          if fcf &&& fcfMd ≠ 0 then lgSchedExpedite (handleData c payload) i
          else handleData c payload := by
        unfold lgLinkRxFrame
        rw [ht]
      rw [hframe]
      exact ⟨_, (Relation.ReflTransGen.single (.data i payload rssi hmsg)).tail
        ((hexpedite _).arrives _)⟩
  · rw [if_neg ht] at hasks
    exact ⟨log, .single (Minds.arrives hasks log)⟩

theorem dispatchLink_arrives (psa : Psa) (o : Oracle) (c : Node cfg) (h : FrameHdr) (pdu : Bytes)
    (rssi : ℤ) (log : List Arrival) :
    ∃ log', Relation.ReflTransGen Arrives (c, log) (dispatchLink psa o c h pdu, log') := by
  unfold dispatchLink
  cases lgNeighFind c h.src with
  | none => exact ⟨log, .refl⟩
  | some i =>
    dsimp only
    split
    · exact ⟨log, .refl⟩
    · have hd := lgSecDecrypt_stores psa (o.ok .decrypt) c i pdu
      rcases hdec : lgSecDecrypt psa (o.ok .decrypt) c i pdu with ⟨r, e⟩
      rw [hdec] at hd
      have hopened : Arrives (c, log) (e, log) := (Minds.of_stores hd).arrives log
      cases r with
      | error err => exact ⟨log, .single hopened⟩
      | ok plain =>
        obtain ⟨log', hrun⟩ := lgLinkRxFrame_arrives o e i h.fcf (plain.drop hdrLenSec) rssi log
        exact ⟨log', .head hopened hrun⟩

/-- A received frame that is about a message goes through its link. -/
theorem rxHandler_arrives {msg : Addr × UInt16} (h : rxHandler psa o c = some d)
    (hq : asked psa o c .rxWork = some msg) (log : List Arrival) :
    ∃ log', Relation.ReflTransGen Arrives (c, log) (d, log') := by
  unfold asked at hq
  unfold rxHandler at h
  cases hring : c.rxRing with
  | nil =>
    rw [hring] at hq
    cases hq
  | cons rx rest =>
    rw [hring] at h hq
    dsimp only at h hq
    have hpopped : Arrives (c, log) ({ c with rxRing := rest }, log) := .other rfl rfl
    suffices hrest : ∃ log', Relation.ReflTransGen Arrives ({ c with rxRing := rest }, log)
        (d, log') by
      obtain ⟨log', hrun⟩ := hrest
      exact ⟨log', .head hpopped hrun⟩
    generalize ({ c with rxRing := rest } : Node cfg) = e at h hq ⊢
    unfold dispatch at h
    unfold dispatchAsked at hq
    cases hget : lgFrameHdrGet cfg rx.pdu e.ident.netid16 with
    | none =>
      rw [hget] at hq
      cases hq
    | some hdr =>
      rw [hget] at h hq
      dsimp only at h hq
      by_cases hdst : hdr.src = e.ident.addr ∨
          (hdr.dst ≠ e.ident.addr ∧ hdr.dst ≠ addrBroadcast)
      · rw [if_pos hdst] at hq
        cases hq
      · rw [if_neg hdst] at h hq
        cases ht : lgFrameType rx.pdu with
        | none =>
          rw [ht] at h
          cases h
          exact dispatchLink_arrives psa o e hdr rx.pdu rx.rssi log
        | some t =>
          rw [ht] at h hq
          cases t with
          | beacon | joinReq | joinRsp | joinCfm | joinAck | resumeReq | resumeRsp => cases hq
          | linkReq | linkRsp | data | ack | ctrl =>
            cases h
            exact dispatchLink_arrives psa o e hdr rx.pdu rx.rssi log

/-- What a step of a running node does to the cache, it does in `handle_data`. -/
theorem perform_arrives (h : perform psa o c inp = some d) (hstart : inp ≠ .start)
    (log : List Arrival) : ∃ log', Relation.ReflTransGen Arrives (c, log) (d, log') := by
  by_cases hstop : inp = .stop
  · subst hstop
    cases h
    have hmail := (lgStop_minds o c).cache
    exact ⟨log, .single (.other hmail.1 hmail.2)⟩
  · by_cases hsend : ∃ dst port payload flags, inp = .send dst port payload flags
    · obtain ⟨dst, port, payload, flags, rfl⟩ := hsend
      cases h
      have hmail := (lgSend_minds c dst port payload flags).cache
      exact ⟨log, .single (.other hmail.1 hmail.2)⟩
    · have hasks := perform_asks h (fun dst port payload flags he =>
        hsend ⟨dst, port, payload, flags, he⟩) hstart hstop
      cases hq : asked psa o c inp with
      | none =>
        rw [hq] at hasks
        exact ⟨log, .single (Minds.arrives hasks log)⟩
      | some msg =>
        cases inp with
        | rxWork => exact rxHandler_arrives h hq log
        | _ => cases hq

end LockGrid
