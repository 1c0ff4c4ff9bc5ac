import LockGrid.Letters
import LockGrid.Numbering

/-!
# Messages in a network

Any number of nodes, each in a run of its own, and what their applications have sent and got.
Frames may be lost, repeated and made up by anyone, as long as nobody makes one that opens.
-/
namespace LockGrid

variable {ι : Type} {cfg : ι → Config} {cfg' : Config} {psa : Psa}

/-! ## Messages on their way -/

/-- A message that an application has given to `lg_send`. -/
structure Letter where
  origin : Addr
  msgId : UInt16
  dst : Addr
  port : UInt8
  payload : Bytes
  deriving DecidableEq, Repr

/-- The form the message may have anywhere on its way. -/
structure Letter.Fits (t : Letter) (m : TxMsg) : Prop where
  origin : m.origin = t.origin
  msgId : m.msgId = t.msgId
  port : m.port = t.port
  payload : m.payload = t.payload
  short : t.payload.length ≤ payloadMax
  hops : m.hops ≤ hopsMax
  upward : m.flags &&& dataUpward ≠ 0 → t.dst = addrBackhaul
  bcast : m.flags &&& dataBroadcast ≠ 0 → t.dst = addrBroadcast
  final : m.flags &&& dataBroadcast = 0 → m.finalDst = t.dst

/-- The message of a call of `lg_send`. -/
def letterOf (c : Node cfg') (dst : Addr) (port : UInt8) (payload : Bytes) : Letter where
  origin := c.ident.addr
  msgId := c.msgIdNext
  dst := dst
  port := port
  payload := payload

theorem dstFlags_upward {dst : Addr} (h : dstFlags dst &&& dataUpward ≠ 0) :
    dst = addrBackhaul := by
  unfold dstFlags at h
  split at h
  · assumption
  · split at h
    · exact absurd rfl h
    · exact absurd rfl h

theorem dstFlags_broadcast {dst : Addr} (h : dstFlags dst &&& dataBroadcast ≠ 0) :
    dst = addrBroadcast := by
  unfold dstFlags at h
  split at h
  · exact absurd rfl h
  · split at h
    · assumption
    · exact absurd rfl h

/-- What `lg_send` queues fits what it was given. -/
theorem letterOf_fits {c : Node cfg'} {dst : Addr} {port : UInt8} {payload : Bytes} {m : TxMsg}
    (h : (sentMsg c dst port payload).Copies m) : (letterOf c dst port payload).Fits m := by
  have hsame := h.same
  have hflags : m.flags = dstFlags dst := congrArg TxMsg.flags hsame
  have hhops : m.hops = 0 := congrArg TxMsg.hops hsame
  constructor
  · exact congrArg TxMsg.origin hsame
  · exact congrArg TxMsg.msgId hsame
  · exact congrArg TxMsg.port hsame
  · exact congrArg TxMsg.payload hsame
  · exact h.fits
  · rw [hhops]
    decide
  · rw [hflags]
    exact dstFlags_upward
  · rw [hflags]
    exact dstFlags_broadcast
  · intro hbcast
    rcases h.final with hfinal | hother
    · exact hfinal
    · rw [hflags] at hbcast
      exact absurd hbcast hother

/-- What `handle_data` passes on of it still does. -/
theorem Letter.Fits.relays {t : Letter} {m m' : TxMsg} (h : t.Fits m) (hm : m.Relays m') :
    t.Fits m' := by
  have hsame := hm.same
  have hkept : ∀ mask : UInt8, dataDownward &&& mask = 0 →
      m'.flags &&& mask = m.flags &&& mask := by
    intro mask hmask
    rcases hm.flags with hflags | hflags
    · rw [hflags]
    · rw [hflags]
      exact flags_or_and hmask m.flags
  have hupward := hkept dataUpward rfl
  have hbcast := hkept dataBroadcast rfl
  constructor
  · exact (congrArg TxMsg.origin hsame).trans h.origin
  · exact (congrArg TxMsg.msgId hsame).trans h.msgId
  · exact (congrArg TxMsg.port hsame).trans h.port
  · exact (congrArg TxMsg.payload hsame).trans h.payload
  · exact h.short
  · have hnear := hm.near
    rw [hm.hops]
    rw [UInt8.lt_iff_toNat_lt] at hnear
    rw [UInt8.le_iff_toNat_le, UInt8.toNat_add]
    simp only [hopsMax, UInt8.reduceToNat] at hnear ⊢
    omega
  · rw [hupward]
    exact h.upward
  · rw [hbcast]
    exact h.bcast
  · rw [hbcast]
    intro hnone
    rcases hm.final with hfinal | hother
    · exact hfinal.trans (h.final hnone)
    · exact absurd hnone hother

/-! ## The network -/

/-- What an application has got: with what role of its node, and as what. -/
structure Receipt (ι : Type) where
  receiver : ι
  role : Role
  info : RxInfo
  payload : Bytes
  deriving DecidableEq

/-- The nodes, the messages that their applications have sent and those that they have got. -/
structure Traffic (cfg : ι → Config) where
  node : (a : ι) → Node (cfg a)
  sent : List (ι × Letter)
  got : List (Receipt ι)

/-- The message that a step sends. -/
def letters (c : Node cfg') : Input → List Letter
  | .send dst port payload flags =>
    match (lgSend c dst port payload flags).1 with
    | .ok () => [letterOf c dst port payload]
    | .error _ => []
  | _ => []

theorem letters_origin {c : Node cfg'} {inp : Input} {t : Letter} (h : t ∈ letters c inp) :
    t.origin = c.ident.addr := by
  unfold letters at h
  split at h
  · split at h
    · rw [List.mem_singleton.mp h]
      rfl
    · cases h
  · cases h

/-- What the application is called with in a step of node `a`. -/
def arrivals (psa : Psa) (o : Oracle) (c : Node cfg') (a : ι) (inp : Input) : List (Receipt ι) :=
  match handed psa o c inp, c.rxRing with
  | some (d, i, out), rx :: _ =>
    (handleDataRx d i (out.drop hdrLenSec) rx.rssi).toList.map fun r => ⟨a, d.net.role, r.1, r.2⟩
  | _, _ => []

/-- What node `a` opens in a step on its way to `handle_data`, some node has sealed. -/
def Traffic.Authentic (psa : Psa) (s : Traffic cfg) (a : ι) (o : Oracle) (inp : Input) : Prop :=
  ∀ r ∈ handed psa o (s.node a) inp, ∃ b, ∃ x ∈ (s.node b).hist.calls,
    x.aad = r.2.2.take hdrLenSec ∧ x.plain = r.2.2.drop hdrLenSec

/-- The application of a node may have got `g` of what was sent as `t`. -/
structure Letter.Reaches (t : Letter) (addr : Addr) (g : Receipt ι) : Prop where
  src : g.info.src = t.origin
  port : g.info.port = t.port
  payload : g.payload = t.payload
  short : t.payload.length ≤ payloadMax
  hops : g.info.hops ≤ hopsMax
  addressed : t.dst = addr ∨ t.dst = addrBroadcast ∨ t.dst = addrBackhaul ∧ g.role = .backhaul

/-- Everything that is queued, sealed or handed to an application comes from `lg_send`. -/
structure Traffic.Genuine (s : Traffic cfg) : Prop where
  holds : ∀ a, (s.node a).Holds fun m => ∃ p ∈ s.sent, p.2.Fits m
  origin : ∀ p ∈ s.sent, p.2.origin = (s.node p.1).ident.addr
  got : ∀ g ∈ s.got, ∃ p ∈ s.sent, p.2.Reaches (s.node g.receiver).ident.addr g

def Traffic.boot (cfg : ι → Config) (ident : ι → Identity) : Traffic cfg where
  node a := Node.boot (cfg a) (ident a)
  sent := []
  got := []

theorem Traffic.genuine_boot (ident : ι → Identity) : (Traffic.boot cfg ident).Genuine := by
  refine ⟨fun a => Node.Holds.boot (cfg a) (ident a), ?_, ?_⟩
  · simp [Traffic.boot]
  · simp [Traffic.boot]

/-! ## Deliveries -/

theorem handleDataRx_eq (c : Node cfg') (i : Fin cfg'.maxNeighbors) (body : Bytes) (rssi : ℤ) :
    handleDataRx c i body rssi = (readData body).bind fun m =>
      if (lgRouteIsDuplicate c m.origin m.msgId).1 then none
      else if (m.finalDst = c.ident.addr || (m.flags &&& dataUpward ≠ 0 &&
          c.net.role = .backhaul) || m.flags &&& dataBroadcast ≠ 0) then
        some (⟨m.origin, (c.neigh i).addr, m.port, rssi, m.hops⟩, m.payload)
      else none := by
  unfold handleDataRx readData
  split
  · rfl
  · rfl

/-- What `handle_data` gives to the application of a message. -/
theorem handleDataRx_reaches {c : Node cfg'} {i : Fin cfg'.maxNeighbors} {m : TxMsg} {rssi : ℤ}
    {r : RxInfo × Bytes} {t : Letter} (hm : t.Fits m.wire) (a : ι)
    (h : handleDataRx c i (dataBody m) rssi = some r) :
    t.Reaches c.ident.addr (⟨a, c.net.role, r.1, r.2⟩ : Receipt ι) := by
  have hshort : m.payload.length ≤ payloadMax := hm.payload ▸ hm.short
  rw [handleDataRx_eq, readData_dataBody hshort, Option.bind_some] at h
  split at h
  · cases h
  split at h
  · next hfor =>
    cases h
    refine ⟨hm.origin, hm.port, hm.payload, hm.short, hm.hops, ?_⟩
    simp only [Bool.or_eq_true, Bool.and_eq_true, decide_eq_true_eq] at hfor
    by_cases hbcast : m.flags &&& dataBroadcast = 0
    · rcases hfor with (hown | ⟨hup, hrole⟩) | hb
      · exact .inl ((hm.final hbcast).symm.trans hown)
      · exact .inr (.inr ⟨hm.upward hup, hrole⟩)
      · exact absurd hbcast hb
    · exact .inr (.inl (hm.bcast hbcast))
  · cases h

/-! ## Frames -/

theorem lgFrameType_take (pdu : Bytes) : lgFrameType (pdu.take hdrLenSec) = lgFrameType pdu := by
  have hfcf : offFcf < hdrLenSec := by decide
  simp only [lgFrameType, getByte, List.getD_eq_getElem?_getD, List.getElem?_take_of_lt hfcf]

/-- What comes to `handle_data` is a message that was sent. -/
theorem Traffic.Genuine.handed {s : Traffic cfg} (h : s.Genuine) {a : ι} {o : Oracle}
    {inp : Input} (hauth : s.Authentic psa a o inp) {d : Node (cfg a)}
    {i : Fin (cfg a).maxNeighbors} {out : Bytes}
    (hh : LockGrid.handed psa o (s.node a) inp = some (d, i, out)) :
    ∃ m : TxMsg, (∃ p ∈ s.sent, p.2.Fits m.wire) ∧ out.drop hdrLenSec = dataBody m := by
  obtain ⟨b, x, hx, haad, hplain⟩ := hauth _ hh
  have hdata := rxHanded_type (rxHanded_of_handed hh)
  have htype : lgFrameType x.aad = some .data := by
    rw [haad, lgFrameType_take, hdata]
  obtain ⟨m, hm, hbody⟩ := (h.holds b).seals x hx htype
  exact ⟨m, hm, hplain.symm.trans hbody⟩

/-- What the application is called with was sent. -/
theorem Traffic.Genuine.arrived {s : Traffic cfg} (h : s.Genuine) {a : ι} {o : Oracle}
    {inp : Input} (hauth : s.Authentic psa a o inp) {g : Receipt ι}
    (hg : g ∈ arrivals psa o (s.node a) a inp) :
    g.receiver = a ∧ ∃ p ∈ s.sent, p.2.Reaches (s.node a).ident.addr g := by
  unfold arrivals at hg
  split at hg
  · next d i out rx _ hh _ =>
    obtain ⟨r, hr, rfl⟩ := List.mem_map.mp hg
    obtain ⟨m, ⟨p, hp, hfits⟩, hbody⟩ := h.handed hauth hh
    rw [hbody, Option.mem_toList] at hr
    have hreaches := handleDataRx_reaches hfits a hr
    rw [rxHanded_ident (rxHanded_of_handed hh)] at hreaches
    exact ⟨rfl, p, hp, hreaches⟩
  · cases hg

/-- What it passes on of the message is still that. -/
theorem Traffic.Genuine.relayed {s : Traffic cfg} (h : s.Genuine) {a : ι} {o : Oracle}
    {inp : Input} (hauth : s.Authentic psa a o inp) {d : Node (cfg a)}
    {i : Fin (cfg a).maxNeighbors} {out : Bytes}
    (hh : LockGrid.handed psa o (s.node a) inp = some (d, i, out)) {m m' : TxMsg}
    (hread : readData (out.drop hdrLenSec) = some m) (hm : m.Relays m') :
    ∃ p ∈ s.sent, p.2.Fits m' := by
  obtain ⟨n, ⟨p, hp, hfits⟩, hbody⟩ := h.handed hauth hh
  have hshort : n.payload.length ≤ payloadMax := hfits.payload ▸ hfits.short
  rw [hbody, readData_dataBody hshort] at hread
  cases hread
  exact ⟨p, hp, hfits.relays hm⟩

/-! ## Runs -/

section

variable [DecidableEq ι]

def Traffic.after (psa : Psa) (s : Traffic cfg) (a : ι) (o : Oracle) (inp : Input)
    (c : Node (cfg a)) : Traffic cfg where
  node := Function.update s.node a c
  sent := (letters (s.node a) inp).map (Prod.mk a) ++ s.sent
  got := arrivals psa o (s.node a) a inp ++ s.got

/-- A step of one of the nodes. -/
inductive Traffic.Step (psa : Psa) (s : Traffic cfg) : Traffic cfg → Prop
  | node (a : ι) (o : Oracle) (inp : Input) {c : Node (cfg a)} (henabled : Enabled (s.node a) inp)
      (hp : perform psa o (s.node a) inp = some c) (hauth : s.Authentic psa a o inp) :
      Step psa s (s.after psa a o inp c)

theorem Traffic.after_ident (psa : Psa) {s : Traffic cfg} {a : ι} {o : Oracle} {inp : Input}
    {c : Node (cfg a)} (hp : perform psa o (s.node a) inp = some c) (b : ι) :
    ((s.after psa a o inp c).node b).ident = (s.node b).ident := by
  by_cases hb : b = a
  · subst hb
    simp only [Traffic.after, Function.update_self]
    exact perform_ident hp
  · simp only [Traffic.after, ne_eq, hb, not_false_eq_true, Function.update_of_ne]

theorem Traffic.Genuine.step {s s' : Traffic cfg} (h : s.Genuine) (hs : Traffic.Step psa s s') :
    s'.Genuine := by
  cases hs with
  | @node a o inp c henabled hp hauth =>
    have hident := Traffic.after_ident psa hp
    have hold : ∀ p ∈ s.sent, p ∈ (s.after psa a o inp c).sent :=
      fun p hp => List.mem_append_right _ hp
    have hkept : ∀ b, (s.node b).Holds fun m => ∃ p ∈ (s.after psa a o inp c).sent, p.2.Fits m := by
      intro b
      refine (h.holds b).mono fun m => ?_
      rintro ⟨p, hp, hfits⟩
      exact ⟨p, hold p hp, hfits⟩
    have hc : c.Holds fun m => ∃ p ∈ (s.after psa a o inp c).sent, p.2.Fits m := by
      refine perform_holds (hkept a) hp ?_ ?_
      · intro dst port payload flags hinp hok m hm
        refine ⟨(a, letterOf (s.node a) dst port payload), ?_, letterOf_fits hm⟩
        apply List.mem_append_left
        simp only [hinp, letters, hok, List.map_cons, List.map_nil, List.mem_singleton]
      · intro d i out hh m hread m' hm
        obtain ⟨p, hp, hfits⟩ := h.relayed hauth hh hread hm
        exact ⟨p, hold p hp, hfits⟩
    refine ⟨?_, ?_, ?_⟩
    · intro b
      by_cases hb : b = a
      · subst hb
        simpa only [Traffic.after, Function.update_self] using hc
      · simpa only [Traffic.after, ne_eq, hb, not_false_eq_true, Function.update_of_ne] using
          hkept b
    · intro p hp
      rw [hident]
      rcases List.mem_append.mp hp with hnew | hpast
      · obtain ⟨t, ht, rfl⟩ := List.mem_map.mp hnew
        exact letters_origin ht
      · exact h.origin p hpast
    · intro g hg
      rw [hident]
      rcases List.mem_append.mp hg with hnew | hpast
      · obtain ⟨rfl, p, hp, hreaches⟩ := h.arrived hauth hnew
        exact ⟨p, hold p hp, hreaches⟩
      · obtain ⟨p, hp, hreaches⟩ := h.got g hpast
        exact ⟨p, hold p hp, hreaches⟩

/-- In every run the network is genuine, and the nodes are who they were. -/
theorem Traffic.genuine {ident : ι → Identity} {s : Traffic cfg}
    (h : Relation.ReflTransGen (Traffic.Step psa) (Traffic.boot cfg ident) s) :
    s.Genuine ∧ ∀ a, (s.node a).ident = ident a := by
  induction h with
  | refl => exact ⟨Traffic.genuine_boot ident, fun _ => rfl⟩
  | tail _ hs ih =>
    refine ⟨ih.1.step hs, fun b => ?_⟩
    cases hs with
    | node a o inp henabled hp hauth => exact (Traffic.after_ident psa hp b).trans (ih.2 b)

/-- In every run of a network, whatever an application gets has been given to `lg_send` at the
node it is said to come from, with that port and that payload, and for this node, the backhaul that
this node is, or all. On its way it has been passed on 12 times at most. -/
theorem messages_genuine {ident : ι → Identity} {s : Traffic cfg}
    (h : Relation.ReflTransGen (Traffic.Step psa) (Traffic.boot cfg ident) s) {g : Receipt ι}
    (hg : g ∈ s.got) :
    ∃ a t, (a, t) ∈ s.sent ∧ g.info.src = (ident a).addr ∧ g.info.port = t.port ∧
      g.payload = t.payload ∧ t.payload.length ≤ payloadMax ∧ g.info.hops ≤ hopsMax ∧
      (t.dst = (ident g.receiver).addr ∨ t.dst = addrBroadcast ∨
        t.dst = addrBackhaul ∧ g.role = .backhaul) := by
  obtain ⟨hgenuine, hident⟩ := Traffic.genuine h
  obtain ⟨⟨a, t⟩, hp, hreaches⟩ := hgenuine.got g hg
  have horigin := hgenuine.origin _ hp
  have haddressed := hreaches.addressed
  rw [hident] at horigin haddressed
  exact ⟨a, t, hp, hreaches.src.trans horigin, hreaches.port, hreaches.payload, hreaches.short,
    hreaches.hops, haddressed⟩

/-! ## A run -/

instance [Fintype ι] (s : Traffic cfg) (a : ι) (o : Oracle) (inp : Input) :
    Decidable (s.Authentic psa a o inp) :=
  inferInstanceAs (Decidable (∀ r ∈ handed psa o (s.node a) inp, ∃ b,
    ∃ x ∈ (s.node b).hist.calls, x.aad = r.2.2.take hdrLenSec ∧ x.plain = r.2.2.drop hdrLenSec))

def Traffic.next [Fintype ι] (psa : Psa) (s : Traffic cfg) (m : ι × Oracle × Input) :
    Option (Traffic cfg) :=
  if Enabled (s.node m.1) m.2.2 ∧ s.Authentic psa m.1 m.2.1 m.2.2 then
    (perform psa m.2.1 (s.node m.1) m.2.2).map (s.after psa m.1 m.2.1 m.2.2)
  else none

theorem Traffic.next_step [Fintype ι] (psa : Psa) (s : Traffic cfg) (m : ι × Oracle × Input)
    (s' : Traffic cfg) (h : s.next psa m = some s') : Traffic.Step psa s s' := by
  obtain ⟨a, o, inp⟩ := m
  unfold Traffic.next at h
  split at h
  · next hgo =>
    obtain ⟨c, hc, rfl⟩ := Option.map_eq_some_iff.mp h
    exact .node a o inp hgo.1 hc hgo.2
  · cases h

/-- Node 2 joins node 4 and seals a message for it. -/
def letterRun : List (Oracle × Input) :=
  lifeRun 2 4 [] ++ [(calm 6, Input.send 4 5 [42] 0), (calm 6, .finishWork (calm 6)),
    (calm 6, .refused), (calm 6, .finishWork (calm 6))]

/-- The second frame of node 2. -/
def letterFrame : RxRec where
  pdu := Sealed.frame Psa.plain Config.default.micLen {
    key := joinKey 2 4
    nonce := nonceBuild 2 2
    aad := frameFields 7 (fcfOf .data true ||| fcfMd) 1 4 2 ++ putLe32 2
    plain := dataBody { origin := 2, finalDst := 4, port := 5, msgId := 1, payload := [42] } }
  rssi := -60
  airStartUs := 20000

/-- Node 4 joins node 2, and the frame comes. -/
def letterMoves : List (Bool × Oracle × Input) :=
  letterRun.map (Prod.mk false) ++ (lifeRun 4 2 [letterFrame]).map (Prod.mk true)

theorem messages_genuine_one :
    ∃ (s : Traffic fun _ : Bool => .default) (g : Receipt Bool),
      Relation.ReflTransGen (Traffic.Step Psa.plain)
        (Traffic.boot _ fun a => plainIdent (if a then 4 else 2) 1) s ∧ g ∈ s.got ∧
      ∃ a t, (a, t) ∈ s.sent ∧ g.info.src = (plainIdent (if a then 4 else 2) 1).addr ∧
        g.info.port = t.port ∧ g.payload = t.payload ∧ t.payload.length ≤ payloadMax ∧
        g.info.hops ≤ hopsMax ∧ (t.dst = (plainIdent (if g.receiver then 4 else 2) 1).addr ∨
          t.dst = addrBroadcast ∨ t.dst = addrBackhaul ∧ g.role = .backhaul) := by
  obtain ⟨s, hrun, hend⟩ := Traces.exists_run (Traffic.next_step Psa.plain) letterMoves
    (Traffic.boot (fun _ => .default) fun a => plainIdent (if a then 4 else 2) 1)
    (fun s => decide (s.got = [⟨true, .router, ⟨2, 2, 5, -60, 0⟩, [42]⟩])) (by decide +kernel)
  have hgot := of_decide_eq_true hend
  have hmem : ⟨true, .router, ⟨2, 2, 5, -60, 0⟩, [42]⟩ ∈ s.got := by
    rw [hgot]
    exact List.mem_singleton.mpr rfl
  exact ⟨s, _, hrun, hmem, messages_genuine hrun hmem⟩

end

end LockGrid
