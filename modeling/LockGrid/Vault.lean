import LockGrid.Table

/-!
# The key store

An abstract model of what a node does to its keys: the keys of every neighbour, the logs of
how they came about, and one step for each way they change. Every step of a node is a
sequence of steps of its key store, so what holds of every run of the store holds of every
run of a node.
-/
namespace LockGrid

structure Vault (ι : Type) where
  own : Addr
  networkId : UInt32
  caPub : Bytes
  addr : ι → Addr
  keys : ι → Keys
  calls : List Sealed
  installs : List Bytes
  live : List ℕ
  lost : List ℕ
  nonces : List Bytes
  reqDerived : ℕ
  rspDerived : List Bytes
  resumeDerived : List (Bytes × Bytes × Addr)
  verified : List Verified
  keylessDowns : ℕ
  dealings : List (ι × Addr × Dealing)

namespace Vault

variable {ι : Type} [DecidableEq ι]

def set (V : Vault ι) (i : ι) (k : Keys) : Vault ι := { V with keys := Function.update V.keys i k }

omit [DecidableEq ι] in
def note (V : Vault ι) (i : ι) (d : Dealing) : Vault ι :=
  { V with dealings := (i, V.addr i, d) :: V.dealings }

/-- Store a long term key, if one was derived. -/
def saveLtk (k : Keys) : Option Bytes → Keys
  | none => k
  | some ltk => { k with ltk := ltk, hasLtk := true }

/-- How far a derivation of `key` gets, with `no` as the next identifier: the keys it leaves, the
keys it installs, the dealings it is noted as and the identifiers there are then. -/
inductive Derived (live : List ℕ) (no : ℕ) (ltk : Option Bytes) (key : Bytes) (k : Keys) :
    Keys → List Bytes → List Dealing → List ℕ → Prop
  | nothing : Derived live no ltk key k k [] [] live
  | failed : Derived live no ltk key k ((saveLtk k ltk).installFailed key) []
      (ltk.map .derived).toList (destroyed live k)
  | installed : Derived live no ltk key k ((saveLtk k ltk).installed key no) [key]
      (ltk.map .derived).toList (no :: destroyed live k)

/-- A transcript hash of this node, as the router, with neighbour `i`. -/
structure RouterTranscript (psa : Psa) (V : Vault ι) (i : ι) (nonce t : Bytes) : Prop where
  peer : V.addr i ≠ V.own
  hash : ∃ nonceJ pubJ pubR, nonceJ.length = nonceLen ∧
    t = psa.sha256 (transcriptMsg V.networkId (V.addr i) V.own nonceJ nonce pubJ pubR)
  length : nonce.length = nonceLen

/-- A transcript hash of this node, as the joiner, with neighbour `i`. -/
structure JoinerTranscript (psa : Psa) (V : Vault ι) (i : ι) (t : Bytes) : Prop where
  peer : V.addr i ≠ V.own
  hash : ∃ nonceJ nonceR pubJ pubR,
    t = psa.sha256 (transcriptMsg V.networkId V.own (V.addr i) nonceJ nonceR pubJ pubR)

/-- `pub` is in a certificate that the authority signed for the address `peer`. -/
def Certified (psa : Psa) (caPub : Bytes) (peer : Addr) (pub : Bytes) : Prop :=
  ∃ cert, psa.verify caPub (psa.sha256 (slice cert 0 certBodyLen))
      (slice cert certOffSig sigLen) = true ∧
    getLe16 cert certOffAddr = peer ∧ pub = slice cert certOffPub ecPubLen

/-- The exchange behind `v` came to the shared secret `secret`, and its peer is certified. -/
structure Agreed (psa : Psa) (caPub : Bytes) (peer : Addr) (v : Verified) (secret : Bytes) :
    Prop where
  certified : Certified psa caPub peer v.pub
  signed : ∃ sig, psa.verify v.pub v.transcript sig = true
  secret : psa.ecdh v.ephPriv v.ephPubPeer = some secret

inductive Step (psa : Psa) : Vault ι → Vault ι → Prop
  /-- An entry is made or freed. -/
  | wipe (V i addr live lost)
    (h : (live = destroyed V.live (V.keys i) ∧ lost = V.lost) ∨
      (live = V.live ∧ lost = overwritten V.lost (V.keys i))) :
    Step psa V { V.set i {} with
      addr := Function.update V.addr i addr, dealings := (i, addr, .wiped) :: V.dealings
      live := live, lost := lost }
  | forget (V i) :
    Step psa V { V.set i (V.keys i).forget with live := destroyed V.live (V.keys i) }
  /-- A link goes down and its key becomes the long term key. -/
  | down (V i) :
    Step psa V { V.set i
        { V.keys i with ltk := (V.keys i).linkKey, hasLtk := true }.forget with
      live := destroyed V.live (V.keys i)
      keylessDowns := V.keylessDowns + if (V.keys i).hasKey then 0 else 1
      dealings := (i, V.addr i, .down (V.keys i).linkKey) :: V.dealings }
  | dropLtk (V i) : Step psa V ((V.set i { V.keys i with hasLtk := false }).note i .dropped)
  /-- A handshake starts, with a resumption if there is a long term key. -/
  | begin (V i) :
    Step psa V (V.note i (.began (if (V.keys i).hasLtk then .resumeReq else .joinReq)))
  /-- A handshake of this node as the joiner has failed. -/
  | fail (V i resuming) : Step psa V
      ({ V.set i (V.keys i).forget with live := destroyed V.live (V.keys i) }.note i
        (.failed resuming))
  /-- A frame passed the replay filter. -/
  | recount (V i rxCtr replayMask) :
    Step psa V (V.set i { V.keys i with rxCtr := rxCtr, replayMask := replayMask })
  /-- A frame was counted but there is no key behind the identifier. -/
  | stall (V i) (h : (V.keys i).keyId = none) :
    Step psa V (V.set i { V.keys i with txCtr := (V.keys i).txCtr + 1 })
  | use (V i key aad plain) (hk : (V.keys i).hasKey = true) (h : (V.keys i).keyId = some key) :
    Step psa V { V.set i { V.keys i with txCtr := (V.keys i).txCtr + 1 } with
      calls := ⟨key, nonceBuild V.own ((V.keys i).txCtr + 1), aad, plain⟩ :: V.calls }
  | draw (V nonce) : Step psa V { V with nonces := nonce :: V.nonces }
  | verify (V v sig) (h : psa.verify v.pub v.transcript sig = true) :
    Step psa V { V with verified := v :: V.verified }
  /-- The router derives keys from a `JOIN_REQ` and a nonce it draws for it. -/
  | fromReq (V i nonce t secret k ins ds live) (ht : RouterTranscript psa V i nonce t)
      (hd : Derived V.live (V.installs.length + 1) (some (psa.hkdf secret t infoLtk))
        (psa.hkdf secret t infoLink) (V.keys i) k ins ds live) :
    Step psa V { V.set i k with
      live := live
      nonces := nonce :: V.nonces
      reqDerived := V.reqDerived + 1
      installs := ins ++ V.installs
      dealings := ds.map (fun d => (i, V.addr i, d)) ++ V.dealings }
  /-- The joiner derives keys from a `JOIN_RSP` whose signature it has verified. -/
  | fromRsp (V i v secret k ins ds live) (ht : JoinerTranscript psa V i v.transcript)
      (hv : v ∈ V.verified) (ha : Agreed psa V.caPub (V.addr i) v secret)
      (hd : Derived V.live (V.installs.length + 1) (some (psa.hkdf secret v.transcript infoLtk))
        (psa.hkdf secret v.transcript infoLink) (V.keys i) k ins ds live) :
    Step psa V { V.set i k with
      live := live
      rspDerived := v.transcript :: V.rspDerived
      installs := ins ++ V.installs
      dealings := ds.map (fun d => (i, V.addr i, d)) ++ V.dealings }
  /-- The router derives a session key from the long term key it holds. -/
  | resume (V i nonceJ k ins live) (hl : (V.keys i).hasLtk = true)
      (hn : nonceJ.length = nonceLen)
      (hd : Derived V.live (V.installs.length + 1) none
        (psa.hkdf (V.keys i).ltk (resumeSalt V.own (V.addr i) nonceJ) infoResume)
        (V.keys i) k ins [] live) :
    Step psa V { V.set i k with
      live := live
      resumeDerived := ((V.keys i).ltk, nonceJ, V.addr i) :: V.resumeDerived
      installs := ins ++ V.installs }

abbrev Steps (psa : Psa) : Vault ι → Vault ι → Prop := Relation.ReflTransGen (Step psa)

end Vault

variable {cfg : Config}

def Node.vault (c : Node cfg) : Vault (Fin cfg.maxNeighbors) where
  own := c.ident.addr
  networkId := c.ident.networkId
  caPub := c.ident.caPub
  addr := fun i => (c.neigh i).addr
  keys := fun i => (c.neigh i).keys
  calls := c.hist.calls
  installs := c.hist.installs
  live := c.hist.live
  lost := c.hist.lost
  nonces := c.hist.nonces
  reqDerived := c.hist.reqDerived
  rspDerived := c.hist.rspDerived
  resumeDerived := c.hist.resumeDerived
  verified := c.hist.verified
  keylessDowns := c.hist.keylessDowns
  dealings := c.hist.dealings

/-- What the handshake context says about how far the exchange has got: all of it but the key pair
and the bookkeeping of its slots. -/
def Hs.credit (hs : Hs cfg) : Hs cfg :=
  { hs with
    slot := 0
    ephPriv := []
    ephPub := []
    fragIdx := 0
    lastTxAirStartUs := 0
    lastTxLen := 0
    progressed := false
    oweTx := false
    idleSlots := 0
    wasTx := false
    slotRefused := false }

/-- No link has come up between `c` and `c'`. -/
def NoNewLink (c c' : Node cfg) : Prop :=
  ∀ i, (c'.neigh i).state = .linked →
    (c.neigh i).state = .linked ∧ (c'.neigh i).histUp = (c.neigh i).histUp

theorem NoNewLink.of_neigh_eq {c c' : Node cfg} (h : c'.neigh = c.neigh) : NoNewLink c c' := by
  intro i hi
  rw [h] at hi ⊢
  exact ⟨hi, rfl⟩

theorem NoNewLink.trans {c c' c'' : Node cfg} (h : NoNewLink c c') (h' : NoNewLink c' c'') :
    NoNewLink c c'' := by
  intro i hi
  obtain ⟨h₁, h₂⟩ := h' i hi
  obtain ⟨h₃, h₄⟩ := h i h₁
  exact ⟨h₃, h₂.trans h₄⟩

theorem NoNewLink.setNeigh (c : Node cfg) (i : Fin cfg.maxNeighbors) (n : Neigh)
    (h : n.state = .linked → (c.neigh i).state = .linked ∧ n.histUp = (c.neigh i).histUp) :
    NoNewLink c (c.setNeigh i n) := by
  intro j hj
  by_cases hji : j = i
  · subst hji
    simp only [Node.setNeigh_neigh, Function.update_self] at hj ⊢
    exact h hj
  · rw [Node.setNeigh_neigh, Function.update_of_ne hji] at hj ⊢
    exact ⟨hj, rfl⟩

/-- Work that changes keys only as the key store allows, brings up no link, keeps the table and
the links that are up, and leaves the credit of the handshake and the node's identity alone. -/
structure Works (psa : Psa) (c c' : Node cfg) : Prop where
  steps : Vault.Steps psa c.vault c'.vault
  credit : c'.hs.credit = c.hs.credit
  links : NoNewLink c c'
  ident : c'.ident = c.ident
  table : TableKept c c'
  kept : LinksKept c c'

namespace Works

variable {psa : Psa} {c c' c'' : Node cfg}

theorem refl (c : Node cfg) : Works psa c c :=
  ⟨.refl, rfl, .of_neigh_eq rfl, rfl, .refl c, .refl c⟩

theorem trans (h : Works psa c c') (h' : Works psa c' c'') : Works psa c c'' :=
  ⟨h.steps.trans h'.steps, h'.credit.trans h.credit, h.links.trans h'.links,
    h'.ident.trans h.ident, h.table.trans h'.table, h.kept.trans h'.kept h.table.log h'.table.log⟩

theorem of_vault_eq (h : c'.vault = c.vault) (hcr : c'.hs.credit = c.hs.credit)
    (hn : c'.neigh = c.neigh) (hid : c'.ident = c.ident) : Works psa c c' := by
  have hlog : c'.hist.dealings = c.hist.dealings := congrArg Vault.dealings h
  have hlost : c'.hist.lost = c.hist.lost := congrArg Vault.lost h
  exact ⟨h ▸ .refl, hcr, .of_neigh_eq hn, hid, .of_eq (hlog ▸ List.suffix_rfl) hn hlost,
    .of_eq hn⟩

theorem of_step {V : Vault (Fin cfg.maxNeighbors)} (h : Vault.Step psa c.vault V)
    (hv : c'.vault = V) (hcr : c'.hs.credit = c.hs.credit) (hl : NoNewLink c c')
    (hid : c'.ident = c.ident) (ht : TableKept c c') (hk : LinksKept c c') : Works psa c c' :=
  ⟨.single (hv ▸ h), hcr, hl, hid, ht, hk⟩

theorem of_quiet (h : Node.Quiet c c') : Works psa c c' := by
  obtain ⟨net, view, rfl⟩ := h
  exact .of_vault_eq rfl rfl rfl rfl

end Works

theorem keys_update (c : Node cfg) (i : Fin cfg.maxNeighbors) (n : Neigh) :
    (fun j => (Function.update c.neigh i n j).keys) =
      Function.update (fun j => (c.neigh j).keys) i n.keys := by
  funext j
  by_cases h : j = i
  · subst h
    simp
  · simp [h]

theorem addr_update (c : Node cfg) (i : Fin cfg.maxNeighbors) (n : Neigh) :
    (fun j => (Function.update c.neigh i n j).addr) =
      Function.update (fun j => (c.neigh j).addr) i n.addr := by
  funext j
  by_cases h : j = i
  · subst h
    simp
  · simp [h]

/-- Storing an entry stores its keys. -/
theorem vault_setNeigh (c : Node cfg) (i : Fin cfg.maxNeighbors) (n : Neigh)
    (h : n.addr = (c.neigh i).addr) : (c.setNeigh i n).vault = c.vault.set i n.keys := by
  simp only [Node.vault, Vault.set, Node.setNeigh, keys_update, addr_update, h,
    Function.update_eq_self]

theorem vault_setNeigh_eq (c : Node cfg) (i : Fin cfg.maxNeighbors) (n : Neigh)
    (h : n.keys = (c.neigh i).keys ∧ n.addr = (c.neigh i).addr) :
    (c.setNeigh i n).vault = c.vault := by
  rw [vault_setNeigh c i n h.2, h.1]
  simp [Vault.set, Node.vault]

/-- An update of an entry that is not about its keys or its link. -/
theorem works_setNeigh {psa : Psa} (c : Node cfg) (i : Fin cfg.maxNeighbors) (n : Neigh)
    (h : n.keys = (c.neigh i).keys ∧ n.addr = (c.neigh i).addr)
    (hs : n.state = (c.neigh i).state) (hu : n.histUp = (c.neigh i).histUp) :
    Works psa c (c.setNeigh i n) :=
  ⟨vault_setNeigh_eq c i n h ▸ .refl, rfl, .setNeigh c i n fun hl => ⟨hs ▸ hl, hu⟩, rfl,
    .setNeigh c i n (by rw [hs]) h.2 (fun _ hno => by rw [h.1, hno]),
    .setNeigh c i n fun hl => ⟨hs ▸ hl, h.2, by rw [h.1]⟩⟩

theorem vault_setKeys (c : Node cfg) (i : Fin cfg.maxNeighbors) (k : Keys) :
    (c.setKeys i k).vault = c.vault.set i k := vault_setNeigh c i _ rfl

theorem setKeys_table (c : Node cfg) (i : Fin cfg.maxNeighbors) (k : Keys)
    (hno : k.keyNo = (c.neigh i).keys.keyNo) : TableKept c (c.setKeys i k) :=
  .setNeigh c i _ Iff.rfl rfl fun _ h => hno.trans h

/-- Keys with the same link key. -/
theorem works_setKeys {psa : Psa} {c : Node cfg} {i : Fin cfg.maxNeighbors} {k : Keys}
    (h : Vault.Step psa c.vault (c.vault.set i k)) (hk : k.link = (c.neigh i).keys.link)
    (hno : k.keyNo = (c.neigh i).keys.keyNo) : Works psa c (c.setKeys i k) :=
  .of_step h (vault_setKeys c i k) rfl (.setNeigh c i _ fun hl => ⟨hl, rfl⟩) rfl
    (setKeys_table c i k hno) (.setNeigh c i _ fun hl => ⟨hl, rfl, hk⟩)

/-! ## Keys and frames -/

theorem useCtr_vault (c : Node cfg) (i : Fin cfg.maxNeighbors) (key nonce aad plain : Bytes) :
    (useCtr c i key nonce aad plain).vault =
      { c.vault.set i { c.vault.keys i with txCtr := (c.vault.keys i).txCtr + 1 } with
        calls := ⟨key, nonce, aad, plain⟩ :: c.vault.calls } := by
  have h := vault_setKeys c i { (c.neigh i).keys with txCtr := (c.neigh i).keys.txCtr + 1 }
  exact congrArg (fun V : Vault _ => { V with calls := ⟨key, nonce, aad, plain⟩ :: c.hist.calls }) h

theorem lgSecEncrypt_works (psa : Psa) (ok : Bool) (c : Node cfg) (i : Fin cfg.maxNeighbors)
    (pdu : Bytes) (hdr : ℕ) : Works psa c (lgSecEncrypt psa ok c i pdu hdr).2 := by
  rcases lgSecEncrypt_cases psa ok c i pdu hdr with h | ⟨hid, h⟩ | ⟨key, aad, plain, hk, hid, h⟩ <;>
    rw [h]
  · exact .refl c
  · exact works_setKeys (.stall _ i hid) rfl rfl
  · let n : Neigh := { c.neigh i with
      keys := { (c.neigh i).keys with txCtr := (c.neigh i).keys.txCtr + 1 } }
    have htable := TableKept.setNeigh c i n Iff.rfl rfl fun _ h => h
    have hkept := LinksKept.setNeigh c i n fun hl => ⟨hl, rfl, rfl⟩
    exact .of_step (.use c.vault i key aad plain hk hid) (useCtr_vault c i key _ aad plain)
      rfl (NoNewLink.setNeigh c i n fun hl => ⟨hl, rfl⟩) rfl
      (htable.trans (.of_eq List.suffix_rfl rfl rfl)) hkept

theorem lgSecDecrypt_works (psa : Psa) (ok : Bool) (c : Node cfg) (i : Fin cfg.maxNeighbors)
    (pdu : Bytes) : Works psa c (lgSecDecrypt psa ok c i pdu).2 := by
  rcases lgSecDecrypt_cases psa ok c i pdu with h | ⟨r, m, h⟩ <;> rw [h]
  · exact .refl c
  · exact works_setKeys (.recount _ i r m) rfl rfl

/-! ## The neighbour table and the links -/

theorem wipe_vault (c : Node cfg) (i : Fin cfg.maxNeighbors) (n : Neigh) (v : View)
    (h : n.keys = {}) : (((c.setNeigh i n).setView i v).note i .wiped).vault =
      { c.vault.set i {} with
        addr := Function.update c.vault.addr i n.addr
        dealings := (i, n.addr, .wiped) :: c.vault.dealings
        live := c.vault.live, lost := c.vault.lost } := by
  simp only [Node.vault, Node.note, Node.setView, Vault.set, Node.setNeigh, keys_update,
    addr_update, h, Function.update_self]

/-- A free entry is made one for an address that no entry has. -/
theorem fresh_table {c : Node cfg} {i : Fin cfg.maxNeighbors} {addr : Addr}
    (hfree : (c.neigh i).state = .free) (hfind : lgNeighFind c addr = none) :
    TableKept c ((((c.overwrite i).setNeigh i (.fresh addr)).setView i .fresh).note i .wiped) := by
  refine .renew i (List.suffix_cons _ _) (fun j hj => ?_) ?_ ?_ (fun ha j hj hused => ?_)
    fun htidy => ?_
  · simp [Node.setView, hj]
  · simp [Node.setView, Neigh.fresh]
  · have h := times_note (((c.overwrite i).setNeigh i (.fresh addr)).setView i .fresh)
      Dealing.isWiped i i .wiped
    simp only [Dealing.isWiped, decide_true, Bool.and_self, if_true] at h
    exact Nat.lt_of_succ_le h.ge
  · have hi : (((((c.overwrite i).setNeigh i (.fresh addr)).setView i .fresh).note i
        .wiped).neigh i).addr = addr := by simp [Node.setView, Neigh.fresh]
    rw [hi] at ha ⊢
    exact lgNeighFind_none hfind ha j hused
  · exact if_pos (htidy i hfree)

theorem lgNeighAlloc_works (psa : Psa) (c : Node cfg) (addr : Addr) :
    Works psa c (lgNeighAlloc c addr).2 := by
  rcases lgNeighAlloc_cases c addr with ⟨h, -⟩ | ⟨i, hfree, hfind, h⟩ <;> rw [h]
  · exact .refl c
  · refine .of_step (.wipe c.vault i addr _ _ (.inr ⟨rfl, rfl⟩))
      (wipe_vault (c.overwrite i) i _ _ rfl) rfl
      (.setNeigh c i _ fun hl => by simp [Neigh.fresh] at hl) rfl (fresh_table hfree hfind)
      (.of_others i (fun j hj => ?_) fun hl => ?_)
    · simp [Node.setView, hj]
    · rw [hfree] at hl
      cases hl

/-- The state of a link that goes down, before anything else learns of it. -/
theorem down_works (psa : Psa) (c : Node cfg) (i : Fin cfg.maxNeighbors)
    (hi : (c.neigh i).state = .linked) :
    Works psa c (Node.note { c.setNeigh i (c.neigh i).down with hist := { c.hist with
      live := destroyed c.hist.live (c.neigh i).keys
      keylessDowns := c.hist.keylessDowns + if (c.neigh i).keys.hasKey then 0 else 1 } } i
      (.down (c.neigh i).keys.linkKey)) := by
  have hv := congrArg (fun V : Vault _ => Vault.note { V with
      live := destroyed c.hist.live (c.neigh i).keys
      keylessDowns := c.hist.keylessDowns + if (c.neigh i).keys.hasKey then 0 else 1 } i
      (.down (c.neigh i).keys.linkKey)) (vault_setNeigh c i (c.neigh i).down rfl)
  have htable := TableKept.setNeigh c i (c.neigh i).down (by simp [Neigh.down, hi]) rfl
    fun _ _ => rfl
  refine .of_step (.down c.vault i) hv rfl
    (NoNewLink.setNeigh c i _ fun hl => by simp [Neigh.down] at hl) rfl
    (htable.trans (.of_eq (List.suffix_cons _ _) rfl rfl))
    (.of_others i (fun j hj => ?_) fun _ => ?_)
  · simp [hj]
  · have h := times_note (c.setNeigh i (c.neigh i).down) Dealing.isDown i i
      (.down (c.neigh i).keys.linkKey)
    simp only [Dealing.isDown, decide_true, Bool.and_self, if_true] at h
    exact Nat.lt_of_succ_le h.ge

theorem lgLinkDown_works (psa : Psa) (o : Oracle) (c : Node cfg) (i : Fin cfg.maxNeighbors) :
    Works psa c (lgLinkDown o c i) := by
  rw [lgLinkDown_eq]
  by_cases hl : (c.neigh i).state ≠ .linked
  · rw [if_pos hl]
    exact .refl c
  · rw [if_neg hl]
    exact (down_works psa c i (not_ne_iff.mp hl)).trans (.of_quiet ((setView_quiet _ i _).trans
      ((lgRouteFlushVia_quiet _ _).trans (linksChanged_quiet o _))))

theorem lgNeighTxResult_works (psa : Psa) (c : Node cfg) (i : Fin cfg.maxNeighbors)
    (acked : Bool) : Works psa c (lgNeighTxResult c i acked) := by
  have h : Works psa c (noteResult c i acked) := .of_vault_eq rfl rfl rfl rfl
  exact h.trans (.of_quiet (lgNeighTxResult_quiet c i acked))

theorem lgLinkEventMiss_works (psa : Psa) (o : Oracle) (c : Node cfg) (i : Fin cfg.maxNeighbors) :
    Works psa c (lgLinkEventMiss o c i) := by
  have hq : Works psa c
      (lgChanResult (lgNeighTxResult c i false) (lgLinkNextChan (c.neigh i).sched) false) :=
    (lgNeighTxResult_works psa c i false).trans (.of_quiet (lgChanResult_quiet _ _ _))
  unfold lgLinkEventMiss
  dsimp only
  split
  · exact hq.trans (lgLinkDown_works psa o _ i)
  · exact hq

theorem setTx_works (psa : Psa) (c : Node cfg) (i : Fin cfg.maxNeighbors) (t : TxStage) :
    Works psa c (c.setTx i t) := works_setNeigh c i _ ⟨rfl, rfl⟩ rfl rfl

theorem stageSeal_works (psa : Psa) (ok : Bool) (c : Node cfg) (i : Fin cfg.maxNeighbors)
    (t : FrameType) (more : Bool) (body : Bytes) (staged : Staged) :
    Works psa c (stageSeal psa ok c i t more body staged).2 := by
  unfold stageSeal
  dsimp only
  split <;> next he =>
    have hw := congrArg Prod.snd he ▸ lgSecEncrypt_works psa ok _ i _ _
    exact (works_setNeigh c i _ ⟨by rfl, by rfl⟩ (by rfl) (by rfl)).trans
      (hw.trans (works_setNeigh _ i _ ⟨by rfl, by rfl⟩ (by rfl) (by rfl)))

theorem lgLinkStageTx_works (psa : Psa) (ok : Bool) (c : Node cfg) (i : Fin cfg.maxNeighbors) :
    Works psa c (lgLinkStageTx psa ok c i).2 := by
  rcases lgLinkStageTx_cases psa ok c i with h | ⟨t, staged, c', ft, more, body, -, hq, h⟩ <;>
    rw [h]
  · exact .refl c
  · exact (setTx_works psa c i t).trans ((Works.of_quiet hq).trans
      (stageSeal_works psa ok c' i ft more body staged))

/-! ## Traffic -/

theorem lgSchedExpedite_works (psa : Psa) (c : Node cfg) (i : Fin cfg.maxNeighbors) :
    Works psa c (lgSchedExpedite c i) := by
  obtain ⟨s, h⟩ := lgSchedExpedite_eq c i
  rw [h]
  exact works_setNeigh c i _ ⟨rfl, rfl⟩ rfl rfl

theorem enqueue_works (psa : Psa) (c : Node cfg) (k : Fin cfg.txQueueSize) (m : TxMsg) :
    Works psa c (enqueue c k m) := .of_vault_eq rfl rfl rfl rfl

theorem sendCopies_works (psa : Psa) (m : TxMsg) (l : List (Fin cfg.maxNeighbors))
    (st : ℕ × Node cfg) : Works psa st.2 (sendCopies m l st).2 := by
  induction l generalizing st with
  | nil => exact .refl _
  | cons i rest ih =>
    obtain ⟨sent, c⟩ := st
    rw [sendCopies]
    split
    · exact ih (sent, c)
    · split
      · exact .refl c
      · refine .trans ?_ (ih (sent + 1, _))
        exact (enqueue_works psa c _ _).trans (lgSchedExpedite_works psa _ i)

theorem lgSendForward_works (psa : Psa) (c : Node cfg) (m : TxMsg) :
    Works psa c (lgSendForward c m).2 := by
  have hq := lgRouteNextHop_quiet c m.finalDst m.flags
  unfold lgSendForward
  dsimp only
  split
  · exact .refl c
  · split
    · exact .refl c
    · split
      · exact sendCopies_works psa m _ (0, c)
      · split
        · exact .of_quiet hq
        · split
          · exact .of_quiet hq
          · exact (Works.of_quiet hq).trans (enqueue_works psa _ _ m)

theorem lgSend_works (psa : Psa) (c : Node cfg) (dst : Addr) (port : UInt8) (payload : Bytes)
    (flags : UInt8) : Works psa c (lgSend c dst port payload flags).2 := by
  have h0 : Works psa c { c with msgIdNext := c.msgIdNext + 1 } := .of_vault_eq rfl rfl rfl rfl
  unfold lgSend
  dsimp only
  split <;> next hs =>
    have h1 := h0.trans (congrArg Prod.snd hs ▸ lgSendForward_works psa _ _)
    first
      | exact h1
      | split
        · split
          · exact h1.trans (lgSchedExpedite_works psa _ _)
          · exact h1
        · exact h1

theorem handleCtrl_works (psa : Psa) (o : Oracle) (c : Node cfg) (i : Fin cfg.maxNeighbors)
    (body : Bytes) : Works psa c (handleCtrl o c i body) := by
  rcases handleCtrl_cases o c i body with h | ⟨s, h, -, -⟩ | ⟨-, h⟩ | ⟨-, h⟩ | ⟨-, h⟩ <;> rw [h]
  · exact .refl c
  · exact works_setNeigh c i _ ⟨rfl, rfl⟩ rfl rfl
  · exact .of_quiet (lgRouteHandleAdv_quiet o c i body)
  · exact .of_quiet (lgRouteHandleReg_quiet c i body)
  · exact lgLinkDown_works psa o c i

theorem forwardData_works (psa : Psa) (c : Node cfg) (m : TxMsg) :
    Works psa c (forwardData c m) := by
  have hq := lgRouteNextHop_quiet c m.finalDst 0
  unfold forwardData
  dsimp only
  split
  · exact .refl c
  · split
    · split
      · exact .of_quiet hq
      · exact (Works.of_quiet hq).trans (lgSendForward_works psa _ _)
    · exact lgSendForward_works psa c _

theorem handleData_works (psa : Psa) (c : Node cfg) (body : Bytes) :
    Works psa c (handleData c body) := by
  unfold handleData
  split
  · exact .refl c
  · dsimp only
    have hq : Works psa c (lgRouteIsDuplicate c (getLe16 body 1) (getLe16 body 7)).2 :=
      .of_quiet (lgRouteIsDuplicate_quiet c _ _)
    split
    · exact hq
    · split
      · exact hq
      · exact hq.trans (forwardData_works psa _ _)

theorem lgLinkRxFrame_works (psa : Psa) (o : Oracle) (c : Node cfg) (i : Fin cfg.maxNeighbors)
    (fcf : UInt8) (payload : Bytes) : Works psa c (lgLinkRxFrame o c i fcf payload) := by
  obtain ⟨d, hd, hmd⟩ := lgLinkRxFrame_cases o c i fcf payload
  have h : Works psa c d := by
    rcases hd with ⟨-, rfl⟩ | ⟨-, rfl⟩ | ⟨-, rfl⟩
    · exact handleData_works psa c payload
    · exact handleCtrl_works psa o c i payload
    · exact .refl d
  rcases hmd with hmd | hmd
  · rw [hmd]
    exact h.trans (lgSchedExpedite_works psa d i)
  · rwa [hmd]

theorem dispatchLink_works (psa : Psa) (o : Oracle) (c : Node cfg) (h : FrameHdr) (pdu : Bytes) :
    Works psa c (dispatchLink psa o c h pdu) := by
  unfold dispatchLink
  split
  · exact .refl c
  · next i _ =>
    have hd := lgSecDecrypt_works psa (o.ok .decrypt) c i pdu
    split
    · exact .refl c
    · split <;> next he =>
        rw [he] at hd
        first
          | exact hd
          | exact hd.trans (lgLinkRxFrame_works psa o _ i _ _)

/-! ## Link events -/

theorem lgSchedEventDone_works (psa : Psa) (c : Node cfg) : Works psa c (lgSchedEventDone c) :=
  .of_vault_eq rfl rfl rfl rfl

theorem command_works (psa : Psa) (o : Oracle) (c : Node cfg) (p : Phy) :
    Works psa c (command o c p) := by
  unfold command
  split
  · exact .of_vault_eq rfl rfl rfl rfl
  · exact lgSchedEventDone_works psa c

theorem linkStart_works (psa : Psa) (o : Oracle) (c : Node cfg) (i : Fin cfg.maxNeighbors) :
    Works psa c (linkStart o c i) := by
  refine .trans ?_ (command_works psa o _ _)
  exact .of_vault_eq rfl rfl rfl rfl

theorem linkTxDone_works (psa : Psa) (o : Oracle) (c : Node cfg) (i : Fin cfg.maxNeighbors) :
    Works psa c (linkTxDone o c i) := by
  have h : Works psa c { c with
      evst := { c.evst with sentTx := true }
      hist := { c.hist with aired := (i.val, (c.neigh i).tx.histStaged) :: c.hist.aired } } :=
    .of_vault_eq rfl rfl rfl rfl
  unfold linkTxDone
  dsimp only
  split
  · exact h.trans (lgSchedEventDone_works psa _)
  · exact h.trans (command_works psa o _ _)

theorem lgRxPost_works (psa : Psa) (c : Node cfg) (rx : RxRec) : Works psa c (lgRxPost c rx) := by
  unfold lgRxPost
  split
  · exact .refl c
  · exact .of_vault_eq rfl rfl rfl rfl

theorem noteLinkFrame_works (psa : Psa) (c : Node cfg) (i : Fin cfg.maxNeighbors) (rx : RxRec) :
    Works psa c (noteLinkFrame c i rx) := by
  refine .trans ?_ (lgNeighTxResult_works psa _ i true)
  refine .trans ?_ (lgRxPost_works psa _ rx)
  refine .trans ?_ (.of_quiet (lgChanResult_quiet _ _ true))
  refine .trans ?_ (works_setNeigh _ i _ ⟨rfl, rfl⟩ rfl rfl)
  refine .trans ?_ (.of_quiet (lgNeighRxRssi_quiet _ i _))
  exact .of_vault_eq rfl rfl rfl rfl

theorem linkRxDone_works (psa : Psa) (o : Oracle) (c : Node cfg) (i : Fin cfg.maxNeighbors)
    (rx : RxRec) : Works psa c (linkRxDone o c i rx) := by
  have h := noteLinkFrame_works psa c i rx
  unfold linkRxDone
  dsimp only
  split
  · refine .trans ?_ (lgSchedEventDone_works psa _)
    exact h.trans (works_setNeigh _ i _ ⟨rfl, rfl⟩ rfl rfl)
  · split
    · refine .trans ?_ (command_works psa o _ _)
      exact h.trans (works_setNeigh _ i _ ⟨rfl, rfl⟩ rfl rfl)
    · refine .trans ?_ (lgSchedEventDone_works psa _)
      exact h.trans (works_setNeigh _ i _ ⟨rfl, rfl⟩ rfl rfl)

theorem linkRxFail_works (psa : Psa) (c : Node cfg) (i : Fin cfg.maxNeighbors) (reason : RxFail) :
    Works psa c (linkRxFail c i reason) := by
  unfold linkRxFail
  dsimp only
  refine .trans ?_ (lgSchedEventDone_works psa _)
  have hq : Works psa c (lgChanResult c c.ev.chan false) := .of_quiet (lgChanResult_quiet c _ _)
  split_ifs
  · exact hq.trans (lgNeighTxResult_works psa _ i _)
  · exact hq
  · exact lgNeighTxResult_works psa _ i _
  · exact .refl c

theorem subrateUpdateLink_works (psa : Psa) (c : Node cfg) (i : Fin cfg.maxNeighbors) :
    Works psa c (subrateUpdateLink c i) := by
  have hq := lgTxqPeek_quiet c (c.neigh i).addr
  unfold subrateUpdateLink
  dsimp only
  split
  · exact .refl c
  · refine (Works.of_quiet hq).trans (works_setNeigh _ i _ ?_ ?_ ?_)
    · rw [hq.neigh]
      exact ⟨rfl, rfl⟩
    all_goals rw [hq.neigh]

theorem settleOutcome_works (psa : Psa) (o : Oracle) (c : Node cfg) (i : Fin cfg.maxNeighbors) :
    Works psa c (settleOutcome o c i) := by
  have hq := lgTxqPeek_quiet c (c.neigh i).addr
  unfold settleOutcome
  dsimp only
  split
  · exact lgLinkEventMiss_works psa o c i
  · split
    · refine .trans ?_ (setTx_works psa _ i _)
      split
      · exact (Works.of_quiet hq).trans (.of_vault_eq rfl rfl rfl rfl)
      · exact .of_quiet hq
    · exact .refl c

theorem lgLinkEventFinish_works (psa : Psa) (o : Oracle) (c : Node cfg)
    (i : Fin cfg.maxNeighbors) : Works psa c (lgLinkEventFinish psa o c i) := by
  have h := settleOutcome_works psa o c i
  unfold lgLinkEventFinish
  dsimp only
  split
  · exact h
  · refine .trans ?_ (lgLinkStageTx_works psa _ _ i)
    refine .trans ?_ (subrateUpdateLink_works psa _ i)
    exact h.trans (works_setNeigh _ i _ ⟨rfl, rfl⟩ rfl rfl)

end LockGrid
