import LockGrid.Fragments

/-!
# The slots of a handshake

What a node does in a slot of its own and in one of its peer's, as far as the handshake goes.
Whatever else happens at the node in between leaves the handshake alone. The fragments that go on
air in a slot carry the message that was staged, and whoever hears them all has that message.
-/
namespace LockGrid

variable {cfg : Config} {psa : Psa}

/-- The calls that can fail for want of resources do not. -/
structure Oracle.Willing (o : Oracle) : Prop where
  calls : ∀ call, o.ok call = true
  phy : o.phyOk = true

/-! ## The open window -/

section

variable {c d : Node cfg}

theorem lgNeighFind_congr (h : d.neigh = c.neigh) (src : Addr) :
    lgNeighFind d src = lgNeighFind c src := by
  unfold lgNeighFind
  rw [h]

theorem lgNeighAlloc_congr (h : d.neigh = c.neigh) (src : Addr) :
    (lgNeighAlloc d src).1 = (lgNeighAlloc c src).1 ∧
      (lgNeighAlloc d src).2.neigh = (lgNeighAlloc c src).2.neigh := by
  unfold lgNeighAlloc
  rw [lgNeighFind_congr h]
  cases lgNeighFind c src with
  | some i => exact ⟨rfl, h⟩
  | none =>
    dsimp only
    rw [h]
    cases (List.finRange cfg.maxNeighbors).find? fun i => (c.neigh i).state = .free with
    | some i =>
      refine ⟨rfl, ?_⟩
      change Function.update d.neigh i _ = Function.update c.neigh i _
      rw [h]
    | none => exact ⟨rfl, h⟩

theorem lgLinkDown_congr (o : Oracle) (i : Fin cfg.maxNeighbors) (h : d.neigh = c.neigh) :
    (lgLinkDown o d i).neigh = (lgLinkDown o c i).neigh := by
  funext j
  by_cases hj : j = i
  · subst hj
    by_cases hl : (c.neigh j).state = .linked
    · rw [lgLinkDown_self o hl, lgLinkDown_self o (by rw [h]; exact hl), h]
    · rw [lgLinkDown_eq o d, lgLinkDown_eq o c]
      dsimp only
      rw [if_pos hl, if_pos (by rw [h]; exact hl), h]
  · rw [lgLinkDown_others o c hj, lgLinkDown_others o d hj, h]

theorem lgNeighMakeRoom_congr (o : Oracle) (cost : ℕ) (h : d.neigh = c.neigh)
    (hv : d.view = c.view) : (lgNeighMakeRoom o d cost).1 = (lgNeighMakeRoom o c cost).1 ∧
      (lgNeighMakeRoom o d cost).2.neigh = (lgNeighMakeRoom o c cost).2.neigh := by
  have hfree : ∀ {c' d' : Node cfg} (i : Fin cfg.maxNeighbors), d'.neigh = c'.neigh →
      (lgNeighFree d' i).neigh = (lgNeighFree c' i).neigh := by
    intro c' d' i hn
    rw [lgNeighFree_eq, lgNeighFree_eq]
    change Function.update d'.neigh i {} = Function.update c'.neigh i {}
    rw [hn]
  unfold lgNeighMakeRoom
  rw [h, hv]
  dsimp only
  split
  · exact ⟨rfl, h⟩
  · split
    · next i _ => exact ⟨rfl, hfree i h⟩
    · split
      · next i _ => exact ⟨rfl, hfree i (lgLinkDown_congr o i h)⟩
      · exact ⟨rfl, h⟩

/-- Who is admitted depends on the neighbour table alone. -/
theorem admitJoiner_congr (o : Oracle) (src : Addr) (h : d.neigh = c.neigh)
    (hv : d.view = c.view) : (admitJoiner o d src).1 = (admitJoiner o c src).1 ∧
      (admitJoiner o d src).2.neigh = (admitJoiner o c src).2.neigh := by
  obtain ⟨hfst, hsnd⟩ := lgNeighAlloc_congr h src
  unfold admitJoiner
  cases hc : lgNeighAlloc c src with
  | mk i c₁ =>
    cases hd : lgNeighAlloc d src with
    | mk i' d₁ =>
      rw [hc, hd] at hfst hsnd
      cases hfst
      cases i with
      | some i => exact ⟨rfl, hsnd⟩
      | none =>
        obtain ⟨rfl, -⟩ := lgNeighAlloc_none hc
        obtain ⟨rfl, -⟩ := lgNeighAlloc_none hd
        obtain ⟨hroom, hneigh⟩ := lgNeighMakeRoom_congr o etxOne h hv
        dsimp only
        rw [hroom]
        split
        · exact lgNeighAlloc_congr hneigh src
        · exact ⟨rfl, hneigh⟩

end

/-! What becoming a parent, a router or a leaf does to the channel map: nothing. -/

theorem lgRouteRecompute_chanMap (c : Node cfg) :
    (lgRouteRecompute c).2.net.chanMap = c.net.chanMap := by
  unfold lgRouteRecompute
  split <;> rfl

theorem applyRole_chanMap (o : Oracle) (c : Node cfg) (want : Role) :
    (applyRole o c want).net.chanMap = c.net.chanMap := by
  unfold applyRole
  split
  · rfl
  · exact lgRouteRecompute_chanMap _

theorem lgRoleEvaluate_chanMap (o : Oracle) (c : Node cfg) :
    (lgRoleEvaluate o c).net.chanMap = c.net.chanMap := by
  rcases lgRoleEvaluate_cases o c with h | ⟨-, want, h⟩ <;> rw [h]
  exact applyRole_chanMap o c want

theorem linksChanged_chanMap (o : Oracle) (c : Node cfg) :
    (linksChanged o c).net.chanMap = c.net.chanMap :=
  (lgRoleEvaluate_chanMap o _).trans (lgRouteRecompute_chanMap c)

theorem lgLinkDown_chanMap (o : Oracle) (c : Node cfg) (i : Fin cfg.maxNeighbors) :
    (lgLinkDown o c i).net.chanMap = c.net.chanMap := by
  rw [lgLinkDown_eq]
  dsimp only
  split
  · rfl
  · exact linksChanged_chanMap o _

theorem lgNeighAlloc_rest (c : Node cfg) (src : Addr) :
    (lgNeighAlloc c src).2.hs = c.hs ∧ (lgNeighAlloc c src).2.net = c.net := by
  obtain ⟨_, _, _, _, h⟩ := lgNeighAlloc_table c src
  rw [h]
  exact ⟨rfl, rfl⟩

/-- Admitting a joiner leaves the handshake and the channel map alone. -/
theorem admitJoiner_rest (psa : Psa) (o : Oracle) (c : Node cfg) (src : Addr) :
    (admitJoiner o c src).2.hs = c.hs ∧ (admitJoiner o c src).2.ident = c.ident ∧
      (admitJoiner o c src).2.net.chanMap = c.net.chanMap := by
  suffices h : (admitJoiner o c src).2.hs = c.hs ∧
      (admitJoiner o c src).2.net.chanMap = c.net.chanMap from
    ⟨h.1, (admitJoiner_works psa o c src).ident, h.2⟩
  obtain ⟨hhs, hnet⟩ := lgNeighAlloc_rest c src
  unfold admitJoiner
  split
  · next i d he =>
    rw [he] at hhs hnet
    exact ⟨hhs, congrArg Net.chanMap hnet⟩
  · next d he =>
    obtain ⟨rfl, -, -⟩ := lgNeighAlloc_none he
    dsimp only
    have hroom : (lgNeighMakeRoom o d etxOne).2.hs = d.hs ∧
        (lgNeighMakeRoom o d etxOne).2.net.chanMap = d.net.chanMap := by
      rcases lgNeighMakeRoom_cases o d etxOne with ⟨h, -⟩ | h | ⟨i, e, ⟨-, rfl⟩ | rfl, h⟩ <;> rw [h]
      · exact ⟨rfl, rfl⟩
      · exact ⟨rfl, rfl⟩
      · obtain ⟨hhs', hnet'⟩ := lgNeighFree_rest e i
        exact ⟨hhs', congrArg Net.chanMap hnet'⟩
      · obtain ⟨hhs', hnet'⟩ := lgNeighFree_rest (lgLinkDown o d i) i
        exact ⟨hhs'.trans (lgLinkDown_hs o d i),
          (congrArg Net.chanMap hnet').trans (lgLinkDown_chanMap o d i)⟩
    split
    · obtain ⟨hhs', hnet'⟩ := lgNeighAlloc_rest (lgNeighMakeRoom o d etxOne).2 src
      exact ⟨hhs'.trans hroom.1, (congrArg Net.chanMap hnet').trans hroom.2⟩
    · exact hroom

/-- The join window is open to `src`: `lg_join_rx_pdu` finds or makes an entry, and a link to
spare. -/
structure Node.OpenTo (c : Node cfg) (src : Addr) : Prop where
  idle : c.hs.n = none
  room : ∀ o : Oracle, o.Willing → ∃ i, (admitJoiner o c src).1 = some i ∧
    lgNeighLinkedCount (admitJoiner o c src).2 < cfg.maxLinks

theorem Node.OpenTo.congr {c d : Node cfg} {src : Addr} (h : c.OpenTo src) (hhs : d.hs.n = none)
    (hneigh : d.neigh = c.neigh) (hview : d.view = c.view) : d.OpenTo src := by
  refine ⟨hhs, fun o ho => ?_⟩
  obtain ⟨i, hi, hcount⟩ := h.room o ho
  obtain ⟨hfst, hsnd⟩ := admitJoiner_congr o src hneigh hview
  refine ⟨i, hfst.trans hi, ?_⟩
  rwa [lgNeighLinkedCount, hsnd]

/-- In an open window a first message makes a context. -/
theorem Node.OpenTo.opens {c : Node cfg} {src : Addr} (h : c.OpenTo src) {o : Oracle}
    (ho : o.Willing) (psa : Psa) (air : ℕ) :
    ∃ i d, contextFor o c .joinReq src air = (some i, d) ∧
      d.hs = { n := some i, t0Us := air, slotLimit := slotLimit false } ∧ d.ident = c.ident ∧
      (d.neigh i).addr = src ∧ (d.neigh i).state = .joining ∧
      d.net.chanMap = c.net.chanMap := by
  obtain ⟨i, hi, hcount⟩ := h.room o ho
  obtain ⟨-, hident, hmap⟩ := admitJoiner_rest psa o c src
  cases hjoin : admitJoiner o c src with
  | mk i' d =>
    rw [hjoin] at hi hcount hident hmap
    cases hi
    refine ⟨i, openContext d i false air, ?_, rfl, hident, ?_, ?_, hmap⟩
    · unfold contextFor
      rw [h.idle]
      dsimp only
      rw [if_pos (.inl rfl), hjoin]
      dsimp only
      rw [if_neg (not_le.mpr hcount)]
      rfl
    · simpa [openContext, Node.setHs] using admitJoiner_addr hjoin
    · simp [openContext]

/-- There is a channel to offer. -/
def Node.Mapped (c : Node cfg) : Prop := c.net.chanMap ≠ 0

/-- What else a node does leaves its handshake and an open join window alone. -/
structure Apart (c c' : Node cfg) : Prop where
  hs : c'.hs = c.hs
  ident : c'.ident = c.ident
  entry : ∀ i, c.hs.n = some i → c'.neigh i = c.neigh i
  window : ∀ src, c.OpenTo src → c'.OpenTo src
  mapped : c.Mapped → c'.Mapped

/-- The slot of the handshake has not ended, and the clock of 64 bits has an hour left. -/
def Node.InSlot (c : Node cfg) : Prop :=
  c.hs.n ≠ none → c.nowUs < slotTime c.hs (c.hs.slot + 1) ∧ c.nowUs + 2 ^ 32 ≤ 2 ^ 64

/-- The context as `join_tx_done` leaves it to the next fragment. -/
def Node.fragDone (c : Node cfg) (airEndUs : ℕ) : Node cfg :=
  c.setHs { c.hs with
    lastTxAirStartUs := airEndUs - airtimeUs c.hs.lastTxLen, fragIdx := c.hs.fragIdx + 1 }

section

variable (psa : Psa) (Q : Oracle → Prop)

/-- From `c`, which is on air with `pdu`, through the rest of its transmit event. Every oracle
meets `Q`, and nothing goes on air before the slot begins. -/
inductive Airs : Node cfg → Bytes → List RxRec → Node cfg → Prop
  | last {c d c' : Node cfg} {pdu : Bytes} (o : Oracle) (airEndUs : ℕ) (rssi : ℤ) (ho : Q o)
    (hap : Apart c d) (hair : slotTime d.hs d.hs.slot ≤ airEndUs - airtimeUs pdu.length)
    (hlast : ¬ d.hs.fragIdx + 1 < d.hs.fragTotal)
    (hap' : Apart (joinTxDone psa o d airEndUs) c') :
    Airs c pdu [⟨pdu, rssi, airEndUs - airtimeUs pdu.length⟩] c'
  | more {c d c' : Node cfg} {pdu : Bytes} {sent : List RxRec} (o : Oracle) (airEndUs : ℕ)
    (rssi : ℤ) (ho : Q o) (hap : Apart c d)
    (hair : slotTime d.hs d.hs.slot ≤ airEndUs - airtimeUs pdu.length)
    (hmore : d.hs.fragIdx + 1 < d.hs.fragTotal)
    (h : Airs (joinTxDone psa o d airEndUs)
      (buildFragment psa o (d.fragDone airEndUs) (d.hs.fragIdx + 1)).1 sent c') :
    Airs c pdu (⟨pdu, rssi, airEndUs - airtimeUs pdu.length⟩ :: sent) c'

/-- The end of a slot, before the next one begins. The result is `none` where the work hangs. -/
def Settles (c : Node cfg) (r : Option (Node cfg)) : Prop :=
  if c.hs.n = none then r = some { c with net := { c.net with joinWinUs := 0 } }
  else ∃ o d, Q o ∧ Apart c d ∧ d.InSlot ∧ lgJoinEventFinish o d = r

/-- A slot in which the node transmits. -/
def Transmits (c : Node cfg) (sent : List RxRec) (r : Option (Node cfg)) : Prop :=
  ∃ o d, Q o ∧ Settles Q d r ∧ Airs psa Q (joinTxStart psa o c)
    (buildFragment psa o (c.setHs { c.hs with wasTx := true, fragIdx := 0 }) 0).1 sent d

/-- The frames it hears are dispatched in turn. -/
inductive Receives : Node cfg → List RxRec → Option (Node cfg) → Prop
  | nil (c) : Receives c [] (some c)
  | hang {c d : Node cfg} {rx : RxRec} {heard : List RxRec} (o : Oracle) (ho : Q o)
    (hap : Apart c d) (hnow : d.InSlot) (hd : dispatch psa o d rx = none) :
    Receives c (rx :: heard) none
  | cons {c d e : Node cfg} {r : Option (Node cfg)} {rx : RxRec} {heard : List RxRec} (o : Oracle)
    (ho : Q o) (hap : Apart c d) (hnow : d.InSlot) (hd : dispatch psa o d rx = some e)
    (h : Receives e heard r) : Receives c (rx :: heard) r

/-- The end of a slot in which the node has heard all there was to hear. -/
def Concludes : Option (Node cfg) → Option (Node cfg) → Prop
  | none, r => r = none
  | some c, r => Settles Q c r

/-- A slot in which the node listens. -/
def Listens (c : Node cfg) (heard : List RxRec) (r : Option (Node cfg)) : Prop :=
  ∃ o d s, Apart (joinRxStart o c) d ∧ Receives psa Q d heard s ∧ Concludes Q s r

/-- A slot of a handshake as one end plays it: it transmits if it owes a message, and listens to
what the other end sends if not. -/
def Plays (c : Node cfg) (sent heard : List RxRec) (r : Option (Node cfg)) : Prop :=
  if lgJoinSlotIsTx c then Transmits psa Q c sent r else sent = [] ∧ Listens psa Q c heard r

end

/-- `k` slots of a handshake between two ends, with nothing lost, refused or dropped: each hears
all that the other sends. -/
inductive Slots (psa : Psa) (QJ QR : Oracle → Prop) (j r : Node cfg) :
    ℕ → Option (Node cfg) → Option (Node cfg) → Prop
  | none : Slots psa QJ QR j r 0 (some j) (some r)
  | slot {k : ℕ} {j₁ j₂ r₁ r₂ : Node cfg} {j' r' : Option (Node cfg)} {sentJ sentR : List RxRec}
    (h : Slots psa QJ QR j r k (some j₁) (some r₁)) (hapJ : Apart j₁ j₂) (hapR : Apart r₁ r₂)
    (hj : Plays psa QJ j₂ sentJ sentR j') (hr : Plays psa QR r₂ sentR sentJ r') :
    Slots psa QJ QR j r (k + 1) j' r'

namespace Apart

theorem refl (c : Node cfg) : Apart c c := ⟨rfl, rfl, fun _ _ => rfl, fun _ => id, id⟩

theorem trans {c c' c'' : Node cfg} (h : Apart c c') (h' : Apart c' c'') : Apart c c'' :=
  ⟨h'.hs.trans h.hs, h'.ident.trans h.ident,
    fun i hi => (h'.entry i (by rw [h.hs, hi])).trans (h.entry i hi),
    fun src hsrc => h'.window src (h.window src hsrc), fun hm => h'.mapped (h.mapped hm)⟩

end Apart

/-! ## Messages on air -/

/-- A message from one node to another; `under` is the key and the counter its one fragment is
sealed under, if it is. -/
structure Mail where
  netid : UInt16
  dst : Addr
  src : Addr
  type : FrameType
  msg : Bytes
  under : Option (Bytes × UInt32) := none

namespace Mail

variable (m : Mail)

def cap (cfg : Config) : ℕ := fragCap cfg m.under.isSome

def total (cfg : Config) : ℕ := fragCount (m.cap cfg) m.msg

def payload (cfg : Config) (k : ℕ) : Bytes :=
  fragHdr k (m.total cfg) ++ slice m.msg (k * m.cap cfg) (m.cap cfg)

def fields (seq : UInt8) : Bytes :=
  frameFields m.netid (fcfOf m.type m.under.isSome) seq m.dst m.src

/-- `pdu` is fragment `k` of the message. -/
def Fragment (cfg : Config) (psa : Psa) (k : ℕ) (pdu : Bytes) : Prop :=
  ∃ seq, match m.under with
    | none => pdu = m.fields seq ++ m.payload cfg k
    | some (key, ctr) => pdu = m.fields seq ++ putLe32 ctr ++ psa.aeadEncrypt cfg.micLen key
        (nonceBuild m.src ctr) (m.fields seq ++ putLe32 ctr) (m.payload cfg k)

/-- The fragments of the message from `k` on, in order. -/
def Train (cfg : Config) (psa : Psa) : ℕ → List RxRec → Prop
  | k, [] => k = m.total cfg
  | k, rx :: rest => k < m.total cfg ∧ m.Fragment cfg psa k rx.pdu ∧ Train cfg psa (k + 1) rest

/-- A message that can be sent: it fits the receiver's buffer, and in one fragment if sealed. -/
structure Fits (cfg : Config) : Prop where
  nonempty : m.msg ≠ []
  short : m.msg.length ≤ xferMax
  few : m.total cfg ≤ 8
  sealed : m.under.isSome = true → m.total cfg = 1

end Mail

/-- The message `c` has staged for its neighbour `i`. -/
structure Node.Stages (c : Node cfg) (i : Fin cfg.maxNeighbors) (m : Mail) : Prop where
  about : c.hs.n = some i
  netid : c.ident.netid16 = m.netid
  dst : (c.neigh i).addr = m.dst
  src : c.ident.addr = m.src
  type : c.hs.txType = m.type
  msg : c.hs.tx = m.msg
  sec : c.hs.txSecured = m.under.isSome
  total : c.hs.fragTotal = m.total cfg
  keyed : ∀ key ctr, m.under = some (key, ctr) → (c.neigh i).keys.hasKey = true ∧
    (c.neigh i).keys.keyId = some key ∧ (c.neigh i).keys.txCtr + 1 = ctr

/-! ## Sending -/

/-- What sending has changed since `c₀`. -/
structure Sending (i : Fin cfg.maxNeighbors) (c₀ c : Node cfg) : Prop where
  hs : ∃ idx len air, c.hs = { c₀.hs with
    wasTx := true, fragIdx := idx, lastTxLen := len, lastTxAirStartUs := air }
  ident : c.ident = c₀.ident
  entry : ∃ tx ctr, c.neigh i = { c₀.neigh i with
    tx := tx, keys := { (c₀.neigh i).keys with txCtr := ctr } } ∧
    (c₀.hs.txSecured = false → ctr = (c₀.neigh i).keys.txCtr)
  mapped : c₀.Mapped → c.Mapped

namespace Sending

variable {i : Fin cfg.maxNeighbors} {c₀ c d : Node cfg} {m : Mail}

theorem apart (h : Sending i c₀ c) (hn : c₀.hs.n = some i) (hap : Apart c d) : Sending i c₀ d := by
  obtain ⟨idx, len, air, hhs⟩ := h.hs
  have hc : c.hs.n = some i := by rw [hhs, hn]
  refine ⟨⟨idx, len, air, hap.hs.trans hhs⟩, hap.ident.trans h.ident, ?_,
    fun hm => hap.mapped (h.mapped hm)⟩
  rw [hap.entry i hc]
  exact h.entry

/-- A message in the clear stays staged for the fragments that are left. -/
theorem stages (h : Sending i c₀ c) (hs : c₀.Stages i m) (hclear : m.under = none) :
    c.Stages i m := by
  obtain ⟨idx, len, air, hhs⟩ := h.hs
  obtain ⟨tx, ctr, hentry, -⟩ := h.entry
  refine ⟨?_, ?_, ?_, ?_, ?_, ?_, ?_, ?_, fun key ctr hkey => ?_⟩
  · rw [hhs]
    exact hs.about
  · rw [h.ident]
    exact hs.netid
  · rw [hentry]
    exact hs.dst
  · rw [h.ident]
    exact hs.src
  · rw [hhs]
    exact hs.type
  · rw [hhs]
    exact hs.msg
  · rw [hhs]
    exact hs.sec
  · rw [hhs]
    exact hs.total
  · rw [hclear] at hkey
    cases hkey

end Sending

/-- `build_fragment` builds the fragments of the staged message. -/
theorem buildFragment_mail (psa : Psa) {o : Oracle} {c : Node cfg} {i : Fin cfg.maxNeighbors}
    {m : Mail}
    (hs : c.Stages i m) (ho : o.Willing) (k : ℕ) :
    m.Fragment cfg psa k (buildFragment psa o c k).1 ∧ (buildFragment psa o c k).2.hs = c.hs ∧
      (buildFragment psa o c k).2.ident = c.ident ∧
      (buildFragment psa o c k).2.net = c.net ∧
      ∃ tx ctr, (buildFragment psa o c k).2.neigh i = { c.neigh i with
        tx := tx, keys := { (c.neigh i).keys with txCtr := ctr } } ∧
        (c.hs.txSecured = false → ctr = (c.neigh i).keys.txCtr) := by
  have hfields : c.fragFields i = m.fields (c.neigh i).tx.txSeq := by
    rw [Node.fragFields, hs.netid, hs.type, hs.sec, hs.dst, hs.src]
    rfl
  have hpayload : c.hs.fragment k = m.payload cfg k := by
    rw [Hs.fragment, hs.total, hs.msg, hs.sec]
    rfl
  cases hu : m.under with
  | none =>
    have hsec : c.hs.txSecured = false := by rw [hs.sec, hu]; rfl
    rw [buildFragment_clear hs.about hsec]
    refine ⟨⟨(c.neigh i).tx.txSeq, ?_⟩, rfl, rfl, rfl,
      { (c.neigh i).tx with txSeq := (c.neigh i).tx.txSeq + 1 }, (c.neigh i).keys.txCtr, ?_,
      fun _ => rfl⟩
    · rw [hu, hfields, hpayload]
    · simp [Node.setTx]
  | some e =>
    obtain ⟨key, ctr⟩ := e
    obtain ⟨hhas, hkey, hctr⟩ := hs.keyed key ctr hu
    have hsec : c.hs.txSecured = true := by rw [hs.sec, hu]; rfl
    obtain ⟨hframe, hhs, hident, hnet, hentry⟩ :=
      buildFragment_sealed psa k hs.about hsec hhas hkey (ho.calls .encrypt)
    refine ⟨⟨(c.neigh i).tx.txSeq, ?_⟩, hhs, hident, hnet, _, _, hentry, fun hclear => ?_⟩
    rotate_left
    · rw [hclear] at hsec
      cases hsec
    rw [hframe, hu, Node.sealedHdr, hfields, hpayload, hctr, hs.src]

/-- Sending a fragment. -/
theorem sendFragment_mail (psa : Psa) {o : Oracle} {c : Node cfg} {i : Fin cfg.maxNeighbors}
    {m : Mail}
    (hs : c.Stages i m) (ho : o.Willing) (k : ℕ) :
    (sendFragment psa o c k).hs =
        { c.hs with lastTxLen := (buildFragment psa o c k).1.length } ∧
      (sendFragment psa o c k).ident = c.ident ∧ (sendFragment psa o c k).net = c.net ∧
      ∃ tx ctr, (sendFragment psa o c k).neigh i = { c.neigh i with
        tx := tx, keys := { (c.neigh i).keys with txCtr := ctr } } ∧
        (c.hs.txSecured = false → ctr = (c.neigh i).keys.txCtr) := by
  obtain ⟨-, hhs, hident, hnet, hentry⟩ := buildFragment_mail psa hs ho k
  unfold sendFragment command
  dsimp only
  rw [ho.phy, if_pos rfl]
  split
  · exact ⟨by simp [lgSchedEventDone, Node.setHs, hhs], hident, hnet, hentry⟩
  · exact ⟨by simp [Node.setHs, hhs], hident, hnet, hentry⟩

/-- On air with fragment `k` of the message staged at `c₀`. -/
structure OnAir (psa : Psa) (i : Fin cfg.maxNeighbors) (m : Mail) (c₀ c : Node cfg) (k : ℕ)
    (pdu : Bytes) : Prop where
  sending : Sending i c₀ c
  idx : c.hs.fragIdx = k
  len : c.hs.lastTxLen = pdu.length
  pdu : m.Fragment cfg psa k pdu
  last : k < m.total cfg

theorem OnAir.of_send {o : Oracle} {i : Fin cfg.maxNeighbors} {m : Mail}
    {c₀ c : Node cfg} {k : ℕ} (h : Sending i c₀ c) (hs : c.Stages i m) (hidx : c.hs.fragIdx = k)
    (ho : o.Willing) (hk : k < m.total cfg) :
    OnAir psa i m c₀ (sendFragment psa o c k) k (buildFragment psa o c k).1 := by
  obtain ⟨hhs, hident, hnet, tx, ctr, hentry, hctr⟩ := sendFragment_mail psa hs ho k
  obtain ⟨idx, len, air, hhs₀⟩ := h.hs
  obtain ⟨tx₀, ctr₀, hentry₀, hctr₀⟩ := h.entry
  refine ⟨⟨⟨idx, (buildFragment psa o c k).1.length, air, ?_⟩, hident.trans h.ident,
    ⟨tx, ctr, ?_, fun hclear => ?_⟩, fun hm => ?_⟩, ?_, ?_, (buildFragment_mail psa hs ho k).1, hk⟩
  · rw [hhs, hhs₀]
  · rw [hentry, hentry₀]
  · have hclear' : c.hs.txSecured = false := by rw [hhs₀, hclear]
    rw [hctr hclear', hentry₀]
    exact hctr₀ hclear
  · have hmapped := h.mapped hm
    rwa [Node.Mapped, ← hnet] at hmapped
  · rw [hhs]
    exact hidx
  · rw [hhs]

theorem Sending.fragDone {i : Fin cfg.maxNeighbors} {c₀ c : Node cfg} (h : Sending i c₀ c)
    (airEndUs : ℕ) : Sending i c₀ (c.fragDone airEndUs) := by
  obtain ⟨idx, len, air, hhs⟩ := h.hs
  exact ⟨⟨idx + 1, len, airEndUs - airtimeUs len, by rw [Node.fragDone, hhs]; rfl⟩, h.ident,
    h.entry, h.mapped⟩

theorem joinTxDone_eq (o : Oracle) (c : Node cfg) (airEndUs : ℕ) :
    joinTxDone psa o c airEndUs = if c.hs.fragIdx + 1 < c.hs.fragTotal then
        sendFragment psa o (c.fragDone airEndUs) (c.hs.fragIdx + 1)
      else lgSchedEventDone (c.fragDone airEndUs) := rfl

/-- The rest of a transmit event brings the rest of the fragments, and no other change than that
they are sent. -/
theorem Airs.train {Q : Oracle → Prop} (hQ : ∀ o, Q o → o.Willing) {i : Fin cfg.maxNeighbors}
    {m : Mail} {c₀ c c' : Node cfg} {k : ℕ} {pdu : Bytes} {sent : List RxRec}
    (hs : c₀.Stages i m) (hfits : m.Fits cfg) (h : Airs psa Q c pdu sent c')
    (hair : OnAir psa i m c₀ c k pdu) :
    m.Train cfg psa k sent ∧ Sending i c₀ c' ∧
      (∀ rx ∈ sent, slotTime c₀.hs c₀.hs.slot ≤ rx.airStartUs) ∧
      ∃ rx, sent.getLast? = some rx ∧ rx.airStartUs = c'.hs.lastTxAirStartUs := by
  have hslot : ∀ {d : Node cfg}, Sending i c₀ d →
      slotTime d.hs d.hs.slot = slotTime c₀.hs c₀.hs.slot := by
    intro d hd
    obtain ⟨idx, len, air, hhs⟩ := hd.hs
    rw [hhs]
    rfl
  induction h generalizing k with
  | @last c d c' pdu o airEndUs rssi ho hap hstart hlast hap' =>
    have hd := hair.sending.apart hs.about hap
    rw [joinTxDone_eq, if_neg hlast] at hap'
    have hsend : Sending i c₀ (lgSchedEventDone (d.fragDone airEndUs)) :=
      ⟨(hd.fragDone airEndUs).hs, (hd.fragDone airEndUs).ident, (hd.fragDone airEndUs).entry,
        (hd.fragDone airEndUs).mapped⟩
    have htotal : d.hs.fragTotal = m.total cfg := by
      obtain ⟨idx, len, air, hhs⟩ := hd.hs
      rw [hhs]
      exact hs.total
    have hidx : d.hs.fragIdx = k := by rw [hap.hs, hair.idx]
    refine ⟨⟨hair.last, hair.pdu, ?_⟩, hsend.apart hs.about hap', fun rx hrx => ?_, _, rfl, ?_⟩
    rotate_left
    · rw [List.mem_singleton.mp hrx, ← hslot hd]
      exact hstart
    rotate_left
    · have hlt := hair.last
      rw [htotal, hidx] at hlast
      simp only [Mail.Train]
      omega
    · have hlen : d.hs.lastTxLen = pdu.length := by rw [hap.hs, hair.len]
      rw [hap'.hs, ← hlen]
      rfl
  | @more c d c' pdu sent o airEndUs rssi ho hap hstart hmore h ih =>
    have hd := hair.sending.apart hs.about hap
    have htotal : d.hs.fragTotal = m.total cfg := by
      obtain ⟨idx, len, air, hhs⟩ := hd.hs
      rw [hhs]
      exact hs.total
    have hidx : d.hs.fragIdx = k := by rw [hap.hs, hair.idx]
    have hclear : m.under = none := by
      by_contra hne
      have hone := hfits.sealed (Option.isSome_iff_ne_none.mpr hne)
      rw [htotal, hone] at hmore
      omega
    have hdone : joinTxDone psa o d airEndUs =
        sendFragment psa o (d.fragDone airEndUs) (d.hs.fragIdx + 1) := by
      rw [joinTxDone_eq, if_pos hmore]
    have hsend := hd.fragDone airEndUs
    rw [htotal, hidx] at hmore
    have hnext : OnAir psa i m c₀ (joinTxDone psa o d airEndUs) (k + 1)
        (buildFragment psa o (d.fragDone airEndUs) (d.hs.fragIdx + 1)).1 := by
      rw [hdone, hidx]
      refine OnAir.of_send hsend (hsend.stages hs hclear) ?_ (hQ o ho) hmore
      exact congrArg (· + 1) hidx
    obtain ⟨htrain, hsent, hearly, rx, hlast, hend⟩ := ih hnext
    refine ⟨⟨hair.last, hair.pdu, htrain⟩, hsent, fun rx hrx => ?_, rx, ?_, hend⟩
    · rcases List.mem_cons.mp hrx with rfl | hrx
      · rw [← hslot hd]
        exact hstart
      · exact hearly rx hrx
    cases sent with
    | nil => cases hlast
    | cons rx' rest => rw [List.getLast?_cons_cons, hlast]

theorem Transmits.train {Q : Oracle → Prop} (hQ : ∀ o, Q o → o.Willing)
    {i : Fin cfg.maxNeighbors} {m : Mail} {c : Node cfg} {r : Option (Node cfg)}
    {sent : List RxRec} (hs : c.Stages i m) (hfits : m.Fits cfg) (h : Transmits psa Q c sent r) :
    m.Train cfg psa 0 sent ∧ (∀ rx ∈ sent, slotTime c.hs c.hs.slot ≤ rx.airStartUs) ∧
      ∃ d, Sending i c d ∧ Settles Q d r ∧
        ∃ rx, sent.getLast? = some rx ∧ rx.airStartUs = d.hs.lastTxAirStartUs := by
  obtain ⟨o, d, ho, hsettles, hairs⟩ := h
  let c₁ := c.setHs { c.hs with wasTx := true, fragIdx := 0 }
  have hstart : joinTxStart psa o c = sendFragment psa o c₁ 0 := by
    unfold joinTxStart
    rw [hs.about, if_neg (by simp)]
  have hstages : c₁.Stages i m :=
    ⟨hs.about, hs.netid, hs.dst, hs.src, hs.type, hs.msg, hs.sec, hs.total, hs.keyed⟩
  have hsend : Sending i c c₁ := ⟨⟨0, c.hs.lastTxLen, c.hs.lastTxAirStartUs, rfl⟩, rfl,
    ⟨(c.neigh i).tx, (c.neigh i).keys.txCtr, rfl, fun _ => rfl⟩, id⟩
  have hpos : 0 < m.total cfg := (fragCount_spec (fragCap_pos cfg _) hfits.nonempty).2.2
  rw [hstart] at hairs
  obtain ⟨htrain, hsent, hearly, hlast⟩ :=
    hairs.train hQ hs hfits (.of_send hsend hstages rfl (hQ o ho) hpos)
  exact ⟨htrain, hearly, d, hsent, hsettles, hlast⟩

/-! ## Hearing -/

/-- A node that is in a handshake with the sender of `m`, and can open it. -/
structure Node.Awaits (c : Node cfg) (j : Fin cfg.maxNeighbors) (m : Mail) : Prop where
  about : c.hs.n = some j
  src : (c.neigh j).addr = m.src
  keyed : ∀ key ctr, m.under = some (key, ctr) → (c.neigh j).keys.hasKey = true ∧
    (c.neigh j).keys.keyId = some key ∧ (c.neigh j).keys.rxCtr < ctr

theorem Mail.Fragment.header {m : Mail} {k : ℕ} {pdu : Bytes} (hpsa : psa.Opens)
    (h : m.Fragment cfg psa k pdu) :
    (∃ seq, lgFrameHdrGet cfg pdu m.netid =
      some ⟨fcfOf m.type m.under.isSome, seq, m.dst, m.src⟩) ∧
    lgFrameType pdu = some m.type ∧ getByte pdu offFcf = fcfOf m.type m.under.isSome ∧
    getLe16 pdu offSrc = m.src := by
  obtain ⟨seq, h⟩ := h
  obtain ⟨rest, hrest, hlen⟩ : ∃ rest, pdu = m.fields seq ++ rest ∧
      (m.under.isSome = true → fctrLen + cfg.micLen ≤ rest.length) := by
    cases hu : m.under with
    | none =>
      rw [hu] at h
      exact ⟨_, h, nofun⟩
    | some e =>
      rw [hu] at h
      refine ⟨_, h.trans (List.append_assoc _ _ _), fun _ => ?_⟩
      have hctr : (putLe32 e.2).length = fctrLen := rfl
      rw [List.length_append, hpsa.length, hctr]
      omega
  subst hrest
  refine ⟨⟨seq, lgFrameHdrGet_fields _ _ _ _ _ rest cfg fun hsec => hlen ?_⟩, ?_,
    getByte_fields_fcf .., getLe16_fields_src ..⟩
  · rwa [secured_fcfOf] at hsec
  · exact fcfOf_type m.type m.under.isSome

/-- Opening a fragment moves the replay filter at most. -/
theorem Mail.Fragment.opened {m : Mail} {k : ℕ} {pdu : Bytes} {d : Node cfg}
    {j : Fin cfg.maxNeighbors} {o : Oracle} (hpsa : psa.Opens) (ho : o.Willing)
    (h : m.Fragment cfg psa k pdu) (hd : d.Awaits j m) :
    ∃ ctr mask hdr key, hdr.length = (if m.under.isSome then hdrLenSec else hdrLen) ∧
      reassemble psa o d j m.type pdu =
        addFragment (d.setKeys j { (d.neigh j).keys with rxCtr := ctr, replayMask := mask }) m.type
          m.under.isSome key (hdr ++ fragHdr k (m.total cfg) ++
            slice m.msg (k * m.cap cfg) (m.cap cfg)) := by
  have hfcf := (h.header hpsa).2.2.1
  obtain ⟨seq, h⟩ := h
  cases hu : m.under with
  | none =>
    rw [hu] at h hfcf
    have hsame : d.setKeys j { (d.neigh j).keys with
        rxCtr := (d.neigh j).keys.rxCtr, replayMask := (d.neigh j).keys.replayMask } = d :=
      setKeys_hist_self d j
    refine ⟨(d.neigh j).keys.rxCtr, (d.neigh j).keys.replayMask, m.fields seq, none, rfl, ?_⟩
    rw [hsame, reassemble_clear psa o d j m.type (by rw [hfcf, secured_fcfOf]; rfl), h,
      Mail.payload, List.append_assoc]
    rfl
  | some e =>
    obtain ⟨key, ctr⟩ := e
    obtain ⟨hhas, hkey, hctr⟩ := hd.keyed key ctr hu
    rw [hu] at h
    have hfields : m.fields seq = frameFields m.netid (fcfOf m.type true) seq m.dst m.src := by
      rw [Mail.fields, hu]
      rfl
    dsimp only at h
    rw [hfields] at h
    obtain ⟨mask, hopen⟩ := reassemble_sealed m.type m.netid seq m.dst m.src (m.payload cfg k) hpsa
      (ho.calls .decrypt) hhas hkey hctr
    refine ⟨ctr, mask, frameFields m.netid (fcfOf m.type true) seq m.dst m.src ++ putLe32 ctr,
      some key, rfl, ?_⟩
    · rw [h, hopen, Mail.payload, ← List.append_assoc]
      rfl

/-- What hearing the first `k` fragments of `m` has changed since `d`. -/
structure Heard (j : Fin cfg.maxNeighbors) (m : Mail) (d e : Node cfg) (k : ℕ) : Prop where
  hs : ∃ rx, e.hs = { d.hs with rxType := m.type, rx := rx }
  holds : e.hs.Holds m.type m.msg (m.cap cfg) k
  ident : e.ident = d.ident
  entry : ∃ ctr mask, e.neigh j = { d.neigh j with
    keys := { (d.neigh j).keys with rxCtr := ctr, replayMask := mask } }
  mapped : d.Mapped → e.Mapped

/-- A fragment heard in the context of the handshake it belongs to: the message is handled once
it is complete. -/
theorem lgJoinRxPdu_fragment {m : Mail} {k : ℕ} {c d : Node cfg} {r : Option (Node cfg)}
    {j : Fin cfg.maxNeighbors} {o : Oracle} {rx : RxRec} (hpsa : psa.Opens) (ho : o.Willing)
    (hfits : m.Fits cfg)
    (hfrag : m.Fragment cfg psa k rx.pdu) (hk : k < m.total cfg) (hd : d.Awaits j m)
    (hholds : k ≠ 0 → d.hs.Holds m.type m.msg (m.cap cfg) k)
    (hctx : contextFor o c m.type m.src rx.airStartUs = (some j, d))
    (h : lgJoinRxPdu psa o c m.type rx = r) :
    ∃ e, Heard j m d e (k + 1) ∧ e.nowUs = d.nowUs ∧
      if k + 1 = m.total cfg then
        handleMessage psa o e j m.type m.under.isSome rx.airStartUs = r
      else r = some e := by
  obtain ⟨-, -, hfcf, hsrc⟩ := hfrag.header hpsa
  let d₁ := lgNeighRxRssi d j rx.rssi
  obtain ⟨net, view, hq⟩ := lgNeighRxRssi_quiet d j rx.rssi
  have hneigh : (d₁.neigh j) = d.neigh j := by simp only [d₁, hq]
  have hhs : d₁.hs = d.hs := by simp only [d₁, hq]
  have hd₁ : d₁.Awaits j m := by
    refine ⟨by rw [hhs]; exact hd.about, by rw [hneigh]; exact hd.src, ?_⟩
    rw [hneigh]
    exact hd.keyed
  obtain ⟨ctr, mask, hdr, key, hlen, hre⟩ := hfrag.opened hpsa ho hd₁
  obtain ⟨rx', hadd, hholds'⟩ := addFragment_next
    (d₁.setKeys j { (d₁.neigh j).keys with rxCtr := ctr, replayMask := mask }) m.type key
    hfits.nonempty hfits.short hfits.few hk hlen
    (fun hk0 => by
      have hold := hholds hk0
      rw [← hhs] at hold
      exact hold)
  have hre' := hre.trans hadd
  let d₂ := d₁.setKeys j { (d₁.neigh j).keys with rxCtr := ctr, replayMask := mask }
  refine ⟨d₂.setHs { d₂.hs with rxType := m.type, rx := rx' },
    ⟨⟨rx', ?_⟩, hholds', ?_, ⟨ctr, mask, ?_⟩, fun hm => ?_⟩, rfl, ?_⟩
  · rw [← hhs]
    rfl
  · simp only [d₂, d₁, hq]
    rfl
  · rw [← hneigh]
    simp [d₂, Node.setKeys, Node.setHs]
  · exact hm
  · unfold lgJoinRxPdu at h
    rw [hsrc, hctx] at h
    dsimp only at h
    rw [hre', hfcf, secured_fcfOf] at h
    split_ifs with hlast
    · rw [decide_eq_true (p := _ = fragCount (fragCap cfg m.under.isSome) m.msg) hlast] at h
      exact h
    · rw [decide_eq_false (p := _ = fragCount (fragCap cfg m.under.isSome) m.msg) hlast] at h
      exact h.symm

theorem Heard.about {j : Fin cfg.maxNeighbors} {m : Mail} {d e : Node cfg} {k : ℕ}
    (h : Heard j m d e k) (hd : d.hs.n = some j) : e.hs.n = some j := by
  obtain ⟨rx, hhs⟩ := h.hs
  rw [hhs]
  exact hd

theorem Heard.apart {j : Fin cfg.maxNeighbors} {m : Mail} {d e e' : Node cfg} {k : ℕ}
    (h : Heard j m d e k) (hd : d.hs.n = some j) (hap : Apart e e') : Heard j m d e' k := by
  refine ⟨?_, ?_, hap.ident.trans h.ident, ?_, fun hm => hap.mapped (h.mapped hm)⟩
  · rw [hap.hs]
    exact h.hs
  · rw [hap.hs]
    exact h.holds
  · rw [hap.entry j (h.about hd)]
    exact h.entry

theorem Heard.trans {j : Fin cfg.maxNeighbors} {m : Mail} {d e e' : Node cfg} {k k' : ℕ}
    (h : Heard j m d e k) (h' : Heard j m e e' k') : Heard j m d e' k' := by
  obtain ⟨rx, hhs⟩ := h.hs
  obtain ⟨rx', hhs'⟩ := h'.hs
  obtain ⟨ctr, mask, hentry⟩ := h.entry
  obtain ⟨ctr', mask', hentry'⟩ := h'.entry
  refine ⟨⟨rx', ?_⟩, h'.holds, h'.ident.trans h.ident, ⟨ctr', mask', ?_⟩,
    fun hm => h'.mapped (h.mapped hm)⟩
  · rw [hhs', hhs]
  · rw [hentry', hentry]

theorem Heard.inSlot {j : Fin cfg.maxNeighbors} {m : Mail} {d e : Node cfg} {k : ℕ}
    (h : Heard j m d e k) (hnow : e.nowUs = d.nowUs) (hd : d.InSlot) : e.InSlot := by
  obtain ⟨rx, hhs⟩ := h.hs
  rw [Node.InSlot, hnow, hhs]
  exact hd

/-- The whole message is there. -/
theorem Heard.msg {j : Fin cfg.maxNeighbors} {m : Mail} {d e : Node cfg}
    (h : Heard j m d e (m.total cfg)) (hfits : m.Fits cfg) :
    e.hs.rx.msg = m.msg ∧ e.hs.rx.len = m.msg.length := by
  have hlen : e.hs.rx.len = m.msg.length := h.holds.len.trans (if_pos rfl)
  have hend := (fragCount_spec (fragCap_pos cfg m.under.isSome) hfits.nonempty).1
  exact ⟨h.holds.rx.msg hend hlen, hlen⟩

/-- `c` takes the fragments of `m`: it is their destination. -/
structure Node.Takes (c : Node cfg) (m : Mail) : Prop where
  netid : c.ident.netid16 = m.netid
  dst : c.ident.addr = m.dst
  foreign : m.src ≠ m.dst
  join : m.type.isJoin = true

theorem Mail.Fragment.dispatch {m : Mail} {k : ℕ} {rx : RxRec} {o : Oracle} {c : Node cfg}
    (hpsa : psa.Opens) (h : m.Fragment cfg psa k rx.pdu) (hc : c.Takes m) :
    LockGrid.dispatch psa o c rx = lgJoinRxPdu psa o c m.type rx := by
  obtain ⟨⟨seq, hget⟩, htype, -, -⟩ := h.header hpsa
  have haddr : ¬ (m.src = c.ident.addr ∨ m.dst ≠ c.ident.addr ∧ m.dst ≠ addrBroadcast) := by
    rw [hc.dst]
    rintro (he | ⟨hne, -⟩)
    · exact hc.foreign he
    · exact hne rfl
  unfold LockGrid.dispatch
  rw [hc.netid, hget]
  dsimp only
  rw [if_neg haddr, htype]
  have hjoin := hc.join
  cases ht : m.type <;> rw [ht] at hjoin <;> first | rfl | cases hjoin

theorem contextFor_self {o : Oracle} {c : Node cfg} {j : Fin cfg.maxNeighbors} {t : FrameType}
    {src : Addr} {air : ℕ} (hn : c.hs.n = some j) (haddr : (c.neigh j).addr = src) :
    contextFor o c t src air = (some j, c) := by
  unfold contextFor
  rw [hn]
  dsimp only
  rw [if_pos haddr]

theorem Mail.Train.last {m : Mail} {rest : List RxRec}
    (h : m.Train cfg psa (m.total cfg) rest) : rest = [] := by
  cases rest with
  | nil => rfl
  | cons rx rest => exact absurd h.1 (lt_irrefl _)

/-- The fragments that are left are heard: with the last of them the message is handled. -/
theorem Receives.rest {Q : Oracle → Prop} (hQ : ∀ o, Q o → o.Willing) (hpsa : psa.Opens)
    {j : Fin cfg.maxNeighbors} {m : Mail} {d e : Node cfg} {r : Option (Node cfg)} {k : ℕ}
    {heard : List RxRec} (hfits : m.Fits cfg) (htakes : d.Takes m) (hd : d.Awaits j m)
    (h : Receives psa Q e heard r) (htrain : m.Train cfg psa k heard) (hheard : Heard j m d e k)
    (hpos : 0 < k) (hmore : k < m.total cfg) :
    ∃ o e' rx, Q o ∧ Heard j m d e' (m.total cfg) ∧ e'.InSlot ∧ heard.getLast? = some rx ∧
      handleMessage psa o e' j m.type m.under.isSome rx.airStartUs = r := by
  have hclear : m.under = none := by
    by_contra hne
    have hone := hfits.sealed (Option.isSome_iff_ne_none.mpr hne)
    omega
  -- what the next of them does, whether it returns or not
  have hnext : ∀ {e e₁ : Node cfg} {rx : RxRec} {rest : List RxRec} {o : Oracle} {k : ℕ}
      {s : Option (Node cfg)}, Q o → Apart e e₁ → e₁.InSlot → Heard j m d e k →
      k < m.total cfg → m.Fragment cfg psa k rx.pdu → m.Train cfg psa (k + 1) rest →
      dispatch psa o e₁ rx = s → ∃ e', Heard j m d e' (k + 1) ∧ e'.InSlot ∧
        if k + 1 = m.total cfg then
          handleMessage psa o e' j m.type m.under.isSome rx.airStartUs = s
        else s = some e' := by
    intro e e₁ rx rest o k s ho hap hin hheard hmore hfrag htrain hdisp
    have hheard₁ := hheard.apart hd.about hap
    have htakes₁ : e₁.Takes m := by
      refine ⟨?_, ?_, htakes.foreign, htakes.join⟩
      · rw [hheard₁.ident, htakes.netid]
      · rw [hheard₁.ident, htakes.dst]
    have hn₁ := hheard₁.about hd.about
    have hsrc₁ : (e₁.neigh j).addr = m.src := by
      obtain ⟨ctr, mask, hentry⟩ := hheard₁.entry
      rw [hentry]
      exact hd.src
    have hawaits₁ : e₁.Awaits j m := by
      refine ⟨hn₁, hsrc₁, fun key ctr hkey => ?_⟩
      rw [hclear] at hkey
      cases hkey
    rw [hfrag.dispatch hpsa htakes₁] at hdisp
    obtain ⟨e', hheard', hnow, hrest⟩ := lgJoinRxPdu_fragment hpsa (hQ o ho) hfits hfrag hmore
      hawaits₁ (fun _ => hheard₁.holds) (contextFor_self hn₁ hsrc₁) hdisp
    exact ⟨e', hheard₁.trans hheard', hheard'.inSlot hnow hin, hrest⟩
  induction h generalizing k with
  | nil e =>
    have hend : k = m.total cfg := htrain
    omega
  | @hang e e₁ rx heard o ho hap hin hdisp =>
    obtain ⟨-, hfrag, htrain⟩ := htrain
    obtain ⟨e', hall, hin', hrest⟩ := hnext ho hap hin hheard hmore hfrag htrain hdisp
    split_ifs at hrest with hlast
    rw [hlast] at hall htrain
    exact ⟨o, e', rx, ho, hall, hin', by rw [htrain.last]; rfl, hrest⟩
  | @cons e e₁ e₂ r rx heard o ho hap hin hdisp hears ih =>
    obtain ⟨-, hfrag, htrain⟩ := htrain
    obtain ⟨e', hall, hin', hrest⟩ := hnext ho hap hin hheard hmore hfrag htrain hdisp
    split_ifs at hrest with hlast
    · rw [hlast] at hall htrain
      have hnil := htrain.last
      subst hnil
      cases hears
      exact ⟨o, e', rx, ho, hall, hin', rfl, hrest⟩
    · cases hrest
      obtain ⟨o', e'', rx', ho', hheard'', hin'', hlast', hmsg⟩ :=
        ih htrain hall (Nat.succ_pos k) (by omega)
      refine ⟨o', e'', rx', ho', hheard'', hin'', ?_, hmsg⟩
      cases heard with
      | nil => cases hlast'
      | cons rx'' rest => rw [List.getLast?_cons_cons, hlast']

/-- A message that is heard whole is handled whole, in the context that its first fragment
finds. -/
theorem Receives.delivers {Q : Oracle → Prop} (hQ : ∀ o, Q o → o.Willing) (hpsa : psa.Opens)
    {m : Mail} {c : Node cfg} {r : Option (Node cfg)} {heard : List RxRec} (hfits : m.Fits cfg)
    (htakes : c.Takes m) (h : Receives psa Q c heard r) (htrain : m.Train cfg psa 0 heard)
    {P : Fin cfg.maxNeighbors → Node cfg → Prop}
    (hctx : ∀ o c₁ rx, Q o → Apart c c₁ → c₁.InSlot → rx ∈ heard →
      ∃ j d, contextFor o c₁ m.type m.src rx.airStartUs = (some j, d) ∧ d.Awaits j m ∧
        d.ident = c.ident ∧ P j d) :
    ∃ j d o e rx, P j d ∧ d.Awaits j m ∧ Q o ∧ Heard j m d e (m.total cfg) ∧
      (d.InSlot → e.InSlot) ∧ heard.getLast? = some rx ∧
      handleMessage psa o e j m.type m.under.isSome rx.airStartUs = r := by
  have hpos : 0 < m.total cfg := (fragCount_spec (fragCap_pos cfg _) hfits.nonempty).2.2
  have hnext : ∀ {c₁ : Node cfg} {rx : RxRec} {o : Oracle} {s : Option (Node cfg)}, Q o →
      Apart c c₁ → c₁.InSlot → rx ∈ heard → m.Fragment cfg psa 0 rx.pdu →
      dispatch psa o c₁ rx = s →
      ∃ j d e', P j d ∧ d.Awaits j m ∧ d.Takes m ∧ Heard j m d e' 1 ∧ (d.InSlot → e'.InSlot) ∧
        if 1 = m.total cfg then
          handleMessage psa o e' j m.type m.under.isSome rx.airStartUs = s
        else s = some e' := by
    intro c₁ rx o s ho hap hin hrx hfrag hdisp
    have htakes₁ : c₁.Takes m := by
      refine ⟨?_, ?_, htakes.foreign, htakes.join⟩
      · rw [hap.ident, htakes.netid]
      · rw [hap.ident, htakes.dst]
    obtain ⟨j, d, hcontext, hawaits, hident, hP⟩ := hctx o c₁ rx ho hap hin hrx
    have htakes' : d.Takes m := by
      refine ⟨?_, ?_, htakes.foreign, htakes.join⟩
      · rw [hident, htakes.netid]
      · rw [hident, htakes.dst]
    rw [hfrag.dispatch hpsa htakes₁] at hdisp
    obtain ⟨e', hheard', hnow, hrest⟩ := lgJoinRxPdu_fragment hpsa (hQ o ho) hfits hfrag hpos
      hawaits (fun hk => absurd rfl hk) hcontext hdisp
    exact ⟨j, d, e', hP, hawaits, htakes', hheard', hheard'.inSlot hnow, hrest⟩
  cases h with
  | nil =>
    have hend : 0 = m.total cfg := htrain
    omega
  | @hang _ c₁ rx heard o ho hap hin hdisp =>
    obtain ⟨-, hfrag, htrain⟩ := htrain
    obtain ⟨j, d, e', hP, hawaits, -, hall, hin', hrest⟩ :=
      hnext ho hap hin List.mem_cons_self hfrag hdisp
    split_ifs at hrest with hlast
    rw [hlast] at hall
    rw [Nat.zero_add, hlast] at htrain
    exact ⟨j, d, o, e', rx, hP, hawaits, ho, hall, hin', by rw [htrain.last]; rfl, hrest⟩
  | @cons _ c₁ e _ rx heard o ho hap hin hdisp hears =>
    obtain ⟨-, hfrag, htrain⟩ := htrain
    obtain ⟨j, d, e', hP, hawaits, htakes', hall, hin', hrest⟩ :=
      hnext ho hap hin List.mem_cons_self hfrag hdisp
    split_ifs at hrest with hlast
    · rw [hlast] at hall
      rw [Nat.zero_add, hlast] at htrain
      have hnil := htrain.last
      subst hnil
      cases hears
      exact ⟨j, d, o, e', rx, hP, hawaits, ho, hall, hin', rfl, hrest⟩
    · cases hrest
      obtain ⟨o', e'', rx', ho', hheard'', hin'', hlast', hmsg⟩ :=
        hears.rest hQ hpsa hfits htakes' hawaits htrain hall Nat.one_pos (by omega)
      refine ⟨j, d, o', e'', rx', hP, hawaits, ho', hheard'', fun _ => hin'', ?_, hmsg⟩
      cases heard with
      | nil => cases hlast'
      | cons rx'' rest => rw [List.getLast?_cons_cons, hlast']

theorem joinRxStart_rest (o : Oracle) (c : Node cfg) :
    (joinRxStart o c).hs = { c.hs with wasTx := false } ∧ (joinRxStart o c).ident = c.ident ∧
      (joinRxStart o c).neigh = c.neigh ∧ (joinRxStart o c).view = c.view ∧
      (joinRxStart o c).net = c.net := by
  unfold joinRxStart command lgSchedEventDone
  split <;> exact ⟨rfl, rfl, rfl, rfl, rfl⟩

/-- `e` has heard `m` in the context that `c` holds. -/
structure Got (i : Fin cfg.maxNeighbors) (m : Mail) (c e : Node cfg) : Prop where
  hs : ∃ rx, e.hs = { c.hs with wasTx := false, rxType := m.type, rx := rx }
  msg : e.hs.rx.msg = m.msg
  len : e.hs.rx.len = m.msg.length
  ident : e.ident = c.ident
  entry : ∃ ctr mask, e.neigh i = { c.neigh i with
    keys := { (c.neigh i).keys with rxCtr := ctr, replayMask := mask } }
  mapped : c.Mapped → e.Mapped
  inSlot : e.InSlot

/-- In a slot in which a whole message from the peer is heard, that message is handled. -/
theorem Listens.got {Q : Oracle → Prop} (hQ : ∀ o, Q o → o.Willing) (hpsa : psa.Opens)
    {m : Mail} {i : Fin cfg.maxNeighbors} {c : Node cfg} {r : Option (Node cfg)}
    {heard : List RxRec} (hfits : m.Fits cfg) (htakes : c.Takes m) (hc : c.Awaits i m)
    (h : Listens psa Q c heard r) (htrain : m.Train cfg psa 0 heard) :
    ∃ o e rx s, Q o ∧ Got i m c e ∧ heard.getLast? = some rx ∧
      handleMessage psa o e i m.type m.under.isSome rx.airStartUs = s ∧ Concludes Q s r := by
  obtain ⟨o₀, d, s, hap, hears, hend⟩ := h
  obtain ⟨hhs, hident, hneigh, -, hnet⟩ := joinRxStart_rest o₀ c
  have hn₀ : (joinRxStart o₀ c).hs.n = some i := by
    rw [hhs]
    exact hc.about
  have htakes' : d.Takes m := by
    refine ⟨?_, ?_, htakes.foreign, htakes.join⟩
    · rw [hap.ident, hident, htakes.netid]
    · rw [hap.ident, hident, htakes.dst]
  obtain ⟨j, d₁, o, e, rx, ⟨rfl, hap₁, hin⟩, hawaits, ho, hheard, hslot, hlast, hmsg⟩ :=
    hears.delivers (P := fun j d₁ => j = i ∧ Apart (joinRxStart o₀ c) d₁ ∧ d₁.InSlot) hQ hpsa
      hfits htakes' htrain fun o c₁ rx ho hap' hin _ => by
        have hall := hap.trans hap'
        have hn : c₁.hs.n = some i := by rw [hall.hs, hn₀]
        have hentry : c₁.neigh i = c.neigh i := by rw [hall.entry i hn₀, hneigh]
        have haddr : (c₁.neigh i).addr = m.src := by rw [hentry, hc.src]
        refine ⟨i, c₁, contextFor_self hn haddr, ⟨hn, haddr, ?_⟩, hap'.ident, rfl, hall, hin⟩
        rw [hentry]
        exact hc.keyed
  refine ⟨o, e, rx, s, ho, ⟨?_, (hheard.msg hfits).1, (hheard.msg hfits).2, ?_, ?_, fun hm => ?_,
    hslot hin⟩, hlast, hmsg, hend⟩
  · obtain ⟨buf, he⟩ := hheard.hs
    exact ⟨buf, by rw [he, hap₁.hs, hhs]⟩
  · rw [hheard.ident, hap₁.ident, hident]
  · obtain ⟨ctr, mask, he⟩ := hheard.entry
    exact ⟨ctr, mask, by rw [he, hap₁.entry _ hn₀, hneigh]⟩
  · refine hheard.mapped (hap₁.mapped ?_)
    rw [Node.Mapped, hnet]
    exact hm

/-! ## Slots can be played -/

/-- The clock may stand anywhere in a slot. -/
def Node.rewind (c : Node cfg) : Node cfg := { c with nowUs := 0 }

theorem Apart.rewind (c : Node cfg) : Apart c c.rewind :=
  ⟨rfl, rfl, fun _ _ => rfl, fun _ h => h.congr h.idle rfl rfl, id⟩

theorem Node.rewind_inSlot (c : Node cfg) : c.rewind.InSlot := by
  intro _
  simp only [Node.rewind, slotTime, joinSlotUs]
  omega

section

variable {Q : Oracle → Prop} {o : Oracle}

theorem exists_settles (ho : Q o) (c : Node cfg) : ∃ r, Settles Q c r := by
  unfold Settles
  split
  · exact ⟨_, rfl⟩
  · exact ⟨_, o, c.rewind, ho, .rewind c, c.rewind_inSlot, rfl⟩

theorem exists_receives (psa : Psa) (ho : Q o) (heard : List RxRec) (c : Node cfg) :
    ∃ r, Receives psa Q c heard r := by
  induction heard generalizing c with
  | nil => exact ⟨some c, .nil c⟩
  | cons rx heard ih =>
    cases hd : dispatch psa o c.rewind rx with
    | none => exact ⟨none, .hang o ho (.rewind c) c.rewind_inSlot hd⟩
    | some e =>
      obtain ⟨r, hr⟩ := ih e
      exact ⟨r, .cons o ho (.rewind c) c.rewind_inSlot hd hr⟩

theorem exists_listens (psa : Psa) (ho : Q o) (heard : List RxRec) (c : Node cfg) :
    ∃ r, Listens psa Q c heard r := by
  obtain ⟨s, hs⟩ := exists_receives psa ho heard (joinRxStart o c)
  cases s with
  | none => exact ⟨none, o, _, none, .refl _, hs, rfl⟩
  | some e =>
    obtain ⟨r, hr⟩ := exists_settles ho e
    exact ⟨r, o, _, some e, .refl _, hs, hr⟩

theorem lgSecEncrypt_hs (psa : Psa) (ok : Bool) (c : Node cfg) (i : Fin cfg.maxNeighbors)
    (pdu : Bytes) (len : ℕ) : (lgSecEncrypt psa ok c i pdu len).2.hs = c.hs := by
  rcases lgSecEncrypt_cases psa ok c i pdu len with h | ⟨-, h⟩ | ⟨_, _, _, -, -, h⟩ <;>
    rw [h] <;> rfl

theorem buildFragment_hs (psa : Psa) (o : Oracle) (c : Node cfg) (idx : ℕ) :
    (buildFragment psa o c idx).2.hs = c.hs := by
  unfold buildFragment
  split
  · rfl
  · next i _ =>
    have henc := lgSecEncrypt_hs psa (o.ok .encrypt)
      (c.setTx i { (c.neigh i).tx with txSeq := (c.neigh i).tx.txSeq + 1 }) i
      (lgFrameHdrPut c.ident.netid16 (fcfOf c.hs.txType c.hs.txSecured) (c.neigh i).tx.txSeq
          (c.neigh i).addr c.ident.addr ++ [UInt8.ofNat idx, UInt8.ofNat c.hs.fragTotal] ++
        slice c.hs.tx (idx * fragCap cfg c.hs.txSecured) (fragCap cfg c.hs.txSecured)) hdrLenSec
    dsimp only
    split
    · split <;> next he =>
        rw [he] at henc
        exact henc
    · rfl

theorem exists_airs (psa : Psa) (ho : Q o) (n : ℕ) (c : Node cfg) (pdu : Bytes)
    (hn : c.hs.fragTotal - c.hs.fragIdx ≤ n) : ∃ sent d, Airs psa Q c pdu sent d := by
  let airEndUs := slotTime c.hs c.hs.slot + airtimeUs pdu.length
  have hair : slotTime c.hs c.hs.slot ≤ airEndUs - airtimeUs pdu.length :=
    (Nat.add_sub_cancel ..).ge
  induction n generalizing c pdu with
  | zero => exact ⟨_, _, .last o airEndUs 0 ho (.refl c) hair (by omega) (.refl _)⟩
  | succ n ih =>
    by_cases hmore : c.hs.fragIdx + 1 < c.hs.fragTotal
    · have hhs : (joinTxDone psa o c airEndUs).hs.fragTotal = c.hs.fragTotal ∧
          (joinTxDone psa o c airEndUs).hs.fragIdx = c.hs.fragIdx + 1 := by
        rw [joinTxDone_eq, if_pos hmore]
        have hb := buildFragment_hs psa o (c.fragDone airEndUs) (c.hs.fragIdx + 1)
        have htotal := congrArg Hs.fragTotal hb
        have hidx := congrArg Hs.fragIdx hb
        unfold sendFragment command lgSchedEventDone
        dsimp only
        split_ifs <;> exact ⟨htotal, hidx⟩
      obtain ⟨sent, d, h⟩ := ih (joinTxDone psa o c airEndUs)
        (buildFragment psa o (c.fragDone airEndUs) (c.hs.fragIdx + 1)).1 (by omega)
        (Nat.add_sub_cancel ..).ge
      exact ⟨_, d, .more o airEndUs 0 ho (.refl c) hair hmore h⟩
    · exact ⟨_, _, .last o airEndUs 0 ho (.refl c) hair hmore (.refl _)⟩

theorem exists_transmits (psa : Psa) (ho : Q o) (c : Node cfg) :
    ∃ sent r, Transmits psa Q c sent r := by
  obtain ⟨sent, d, h⟩ := exists_airs psa ho _ (joinTxStart psa o c) _ (le_refl _)
  obtain ⟨r, hr⟩ := exists_settles ho d
  exact ⟨sent, r, o, d, ho, hr, h⟩

/-- Whoever owes a message, the slot can be played. -/
theorem exists_plays {QJ QR : Oracle → Prop} {oJ oR : Oracle} (psa : Psa) (hJ : QJ oJ) (hR : QR oR)
    (j r : Node cfg) : ∃ sentJ sentR j' r', Plays psa QJ j sentJ sentR j' ∧
      Plays psa QR r sentR sentJ r' := by
  unfold Plays
  split_ifs with htJ htR htR
  · obtain ⟨sentJ, j', hj⟩ := exists_transmits psa hJ j
    obtain ⟨sentR, r', hr⟩ := exists_transmits psa hR r
    exact ⟨sentJ, sentR, j', r', hj, hr⟩
  · obtain ⟨sentJ, j', hj⟩ := exists_transmits psa hJ j
    obtain ⟨r', hr⟩ := exists_listens psa hR sentJ r
    exact ⟨sentJ, [], j', r', hj, rfl, hr⟩
  · obtain ⟨sentR, r', hr⟩ := exists_transmits psa hR r
    obtain ⟨j', hj⟩ := exists_listens psa hJ sentR j
    exact ⟨[], sentR, j', r', ⟨rfl, hj⟩, hr⟩
  · obtain ⟨j', hj⟩ := exists_listens psa hJ [] j
    obtain ⟨r', hr⟩ := exists_listens psa hR [] r
    exact ⟨[], [], j', r', ⟨rfl, hj⟩, rfl, hr⟩

/-- Slots follow one another as long as nothing hangs. -/
theorem exists_slots {QJ QR : Oracle → Prop} {oJ oR : Oracle} (psa : Psa) (hJ : QJ oJ) (hR : QR oR)
    {j r : Node cfg} {n : ℕ} (h : ∀ k < n, ∀ j' r', Slots psa QJ QR j r k j' r' →
      ∃ d e, j' = some d ∧ r' = some e) : ∃ j' r', Slots psa QJ QR j r n j' r' := by
  induction n with
  | zero => exact ⟨some j, some r, .none⟩
  | succ n ih =>
    obtain ⟨j', r', hn⟩ := ih fun k hk => h k (Nat.lt_succ_of_lt hk)
    obtain ⟨d, e, rfl, rfl⟩ := h n (Nat.lt_succ_self n) j' r' hn
    obtain ⟨sentJ, sentR, j', r', hj, hr⟩ := exists_plays psa hJ hR d e
    exact ⟨j', r', hn.slot (.refl d) (.refl e) hj hr⟩

end

end LockGrid
