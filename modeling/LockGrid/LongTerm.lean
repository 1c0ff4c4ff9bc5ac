import LockGrid.Fallback
import LockGrid.Upkeep
import LockGrid.Traces

/-!
# The long term keys of two ends

Two nodes that have completed a full handshake hold the same long term key for each other. Each
then goes its own way, and `lg_link_down` puts the link key of an end in the place of its long
term key at a time of its own. So the keys agree as long as no end takes the link down while the
other holds a long term key for it, and the first time one does, they no longer do.
-/
namespace LockGrid

variable {cfg : Config} {psa : Psa} {ι : Type} [DecidableEq ι]

/-- The newest dealing about the long term key of entry `i`: with whom, and what it left. -/
def lastLtk (i : ι) (l : List (ι × Addr × Dealing)) : Option (Addr × Option Bytes) :=
  l.findSome? fun e => if e.1 = i then e.2.2.ltk?.map (e.2.1, ·) else none

/-- What has been entered into the dealings between `c` and `c'`. -/
def newDealings (c c' : Node cfg) : List (Fin cfg.maxNeighbors × Addr × Dealing) :=
  c'.hist.dealings.take (c'.hist.dealings.length - c.hist.dealings.length)

/-- `c` holds the long term key `key` for `peer`. -/
def Node.HoldsLtk (c : Node cfg) (peer : Addr) (key : Bytes) : Prop :=
  ∃ i, (c.neigh i).state ≠ .free ∧ (c.neigh i).addr = peer ∧ (c.neigh i).keys.ltk? = some key

/-- `c` holds no long term key for `peer`. -/
def Node.Unkeyed (c : Node cfg) (peer : Addr) : Prop :=
  ∀ i, (c.neigh i).state ≠ .free → (c.neigh i).addr = peer → (c.neigh i).keys.ltk? = none

instance (c : Node cfg) (peer : Addr) : Decidable (c.Unkeyed peer) :=
  inferInstanceAs (Decidable (∀ _, _ → _ → _))

structure Peers (cfg : Config) where
  a : Node cfg
  b : Node cfg

namespace Peers

def swap (p : Peers cfg) : Peers cfg := ⟨p.b, p.a⟩

/-- Whenever both ends have a long term key for each other, it is the same. -/
def Agree (p : Peers cfg) : Prop :=
  ∀ k k', p.a.HoldsLtk p.b.ident.addr k → p.b.HoldsLtk p.a.ident.addr k' → k = k'

/-- Both ends have a long term key for each other. -/
def Keyed (p : Peers cfg) : Prop :=
  (∃ k, p.a.HoldsLtk p.b.ident.addr k) ∧ ∃ k, p.b.HoldsLtk p.a.ident.addr k

/-- In a step of the first end its link with the other goes down, and leaves the entry with a long
term key. -/
def GoesDown (p q : Peers cfg) : Prop :=
  ∃ i k, (q.a.neigh i).state ≠ .free ∧
    (i, p.b.ident.addr, Dealing.down k) ∈ newDealings p.a q.a ∧
    lastLtk i (newDealings p.a q.a) = some (p.b.ident.addr, some k)

/-- The first end takes a step in which it derives no keys from a full handshake with the other.
If the step takes their link down, `P` holds of the other end. -/
structure Turn (psa : Psa) (P : Node cfg → Addr → Prop) (p q : Peers cfg) : Prop where
  other : q.b = p.b
  step : LockGrid.Step psa p.a q.a
  noFull : ∀ i k, (i, p.b.ident.addr, Dealing.derived k) ∉ newDealings p.a q.a
  down : p.GoesDown q → P p.b p.a.ident.addr

/-- A step of either end. -/
def Step (psa : Psa) (P : Node cfg → Addr → Prop) (p q : Peers cfg) : Prop :=
  Turn psa P p q ∨ Turn psa P p.swap q.swap

/-- An end of a full handshake with `peer` that came to the given secret and transcript. -/
structure Linked (psa : Psa) (c : Node cfg) (peer : Addr) (secret transcript : Bytes) : Prop where
  reachable : ∃ ident, Reachable psa ident c
  valid : c.ident.addr ≠ addrInvalid
  entry : ∃ i, (c.neigh i).state = .linked ∧ (c.neigh i).addr = peer ∧
    (c.neigh i).keys.linkKey = psa.hkdf secret transcript infoLink ∧
    (c.neigh i).keys.ltk? = some (psa.hkdf secret transcript infoLtk)

/-- Two nodes that have completed a full handshake with each other. -/
def Completed (psa : Psa) (p : Peers cfg) : Prop :=
  ∃ secret transcript, Linked psa p.a p.b.ident.addr secret transcript ∧
    Linked psa p.b p.a.ident.addr secret transcript

end Peers

/-! ## The newest dealing -/

theorem lastLtk_cons (i j : ι) (a : Addr) (d : Dealing) (l : List (ι × Addr × Dealing)) :
    lastLtk i ((j, a, d) :: l) =
      if j = i then (d.ltk?.map (a, ·)).or (lastLtk i l) else lastLtk i l := by
  by_cases hj : j = i
  · cases hd : d.ltk? <;> simp [lastLtk, hj, hd]
  · simp [lastLtk, hj]

theorem lastLtk_append (i : ι) (l l' : List (ι × Addr × Dealing)) :
    lastLtk i (l ++ l') = (lastLtk i l).or (lastLtk i l') := by
  simp [lastLtk, List.findSome?_append]

theorem lastLtk_mem {i : ι} {a : Addr} {k : Option Bytes} {l : List (ι × Addr × Dealing)}
    (h : lastLtk i l = some (a, k)) : ∃ d, (i, a, d) ∈ l ∧ d.ltk? = some k := by
  obtain ⟨⟨j, b, d⟩, hmem, he⟩ := List.exists_of_findSome?_eq_some h
  dsimp only at he
  split_ifs at he with hj
  obtain ⟨k', hk, heq⟩ := Option.map_eq_some_iff.mp he
  cases heq
  exact ⟨d, hj ▸ hmem, hk⟩

theorem heldLtk_eq (i : ι) (l : List (ι × Addr × Dealing)) :
    heldLtk i l = (lastLtk i l).bind Prod.snd := by
  induction l with
  | nil => rfl
  | cons e l ih =>
    obtain ⟨j, a, d⟩ := e
    rw [lastLtk_cons]
    by_cases hj : j = i
    · subst hj
      rw [heldLtk_cons_self, if_pos rfl, ih]
      cases d.ltk? <;> rfl
    · rw [heldLtk_cons_ne hj, if_neg hj, ih]

namespace Vault

/-- The dealings about a long term key were with the present owner of the entry. -/
def Attributed (V : Vault ι) : Prop := ∀ i a k, lastLtk i V.dealings = some (a, k) → a = V.addr i

variable {V V' : Vault ι}

theorem Attributed.deal (h : V.Attributed) {i : ι} {d : Dealing} (haddr : V'.addr = V.addr)
    (hdeal : V'.dealings = (i, V.addr i, d) :: V.dealings) : V'.Attributed := by
  intro j a k hlast
  rw [hdeal, lastLtk_cons] at hlast
  rw [haddr]
  split_ifs at hlast with hij
  · cases hd : d.ltk? with
    | none =>
      rw [hd] at hlast
      exact h j a k hlast
    | some k' =>
      rw [hd] at hlast
      cases hlast
      rw [hij]
  · exact h j a k hlast

theorem Attributed.derived (h : V.Attributed) {i : ι} {ltk : Option Bytes} {key : Bytes}
    {k : Keys} {ins : List Bytes} {ds : List Dealing} {live live' : List ℕ} {no : ℕ}
    (hd : Derived live no ltk key (V.keys i) k ins ds live')
    (haddr : V'.addr = V.addr)
    (hdeal : V'.dealings = ds.map (fun d => (i, V.addr i, d)) ++ V.dealings) : V'.Attributed := by
  have hsame : V'.dealings = V.dealings → V'.Attributed := by
    intro heq j a k hlast
    rw [heq] at hlast
    rw [haddr]
    exact h j a k hlast
  cases hd with
  | nothing => exact hsame hdeal
  | failed | installed =>
    cases ltk with
    | none => exact hsame hdeal
    | some l => exact h.deal haddr hdeal

theorem Step.attributed (h : Step psa V V') (ha : V.Attributed) : V'.Attributed := by
  cases h with
  | wipe i addr =>
    intro j a k hlast
    dsimp only at hlast ⊢
    rw [lastLtk_cons] at hlast
    split_ifs at hlast with hij
    · cases hlast
      rw [hij, Function.update_self]
    · rw [Function.update_of_ne (Ne.symm hij)]
      exact ha j a k hlast
  | down i => exact ha.deal rfl rfl
  | dropLtk i => exact ha.deal rfl rfl
  | begin i => exact ha.deal rfl rfl
  | fail i resuming => exact ha.deal rfl rfl
  | fromReq i nonce t secret k ins ds live _ hd => exact ha.derived hd rfl rfl
  | fromRsp i v secret k ins ds live _ _ _ hd => exact ha.derived hd rfl rfl
  | forget | recount | stall | use | draw | verify | resume => exact ha

end Vault

theorem Vault.Steps.attributed {V V' : Vault ι} (h : Vault.Steps psa V V') (ha : V.Attributed) :
    V'.Attributed := by
  induction h with
  | refl => exact ha
  | tail _ hstep ih => exact hstep.attributed ih

theorem Node.boot_attributed (ident : Identity) : (Node.boot cfg ident).vault.Attributed :=
  fun _ _ _ hlast => by simp [Node.vault, Node.boot, lastLtk] at hlast

theorem Reachable.attributed {ident : Identity} {c : Node cfg} (h : Reachable psa ident c) :
    c.vault.Attributed := h.advances.steps.attributed (Node.boot_attributed ident)

/-! ## One step -/

theorem newDealings_append {c c' : Node cfg} (h : c.hist.dealings <:+ c'.hist.dealings) :
    c'.hist.dealings = newDealings c c' ++ c.hist.dealings := by
  obtain ⟨l, hl⟩ := h
  simp [newDealings, ← hl]

/-- An entry that was made or freed has a dealing about its long term key. -/
theorem lastLtk_of_wiped {c c' : Node cfg} {i : Fin cfg.maxNeighbors}
    (h : c.hist.dealings <:+ c'.hist.dealings) (hw : c.wipes i < c'.wipes i) :
    lastLtk i (newDealings c c') ≠ none := by
  have hcount : 0 < (newDealings c c').countP fun e => e.1 = i && e.2.2.isWiped := by
    simp only [Node.wipes, Node.times] at hw
    rw [newDealings_append h, List.countP_append] at hw
    omega
  obtain ⟨⟨j, a, d⟩, hmem, hd⟩ := List.countP_pos_iff.mp hcount
  simp only [Bool.and_eq_true, decide_eq_true_eq] at hd
  obtain ⟨rfl, hwiped⟩ := hd
  intro hnone
  have hskip := List.findSome?_eq_none_iff.mp hnone _ hmem
  cases d <;> simp [Dealing.isWiped, Dealing.ltk?] at hwiped hskip

/-- What a step leaves as the long term key for `peer` was there before, or has replaced it. -/
theorem Node.HoldsLtk.origin {ident : Identity} {c c' : Node cfg} {peer : Addr} {key : Bytes}
    (hc : Reachable psa ident c) (h : Step psa c c') (hkey : c'.HoldsLtk peer key) :
    (∃ i, (c'.neigh i).state ≠ .free ∧
      lastLtk i (newDealings c c') = some (peer, some key)) ∨ c.HoldsLtk peer key := by
  obtain ⟨i, hfree, haddr, hkey⟩ := hkey
  have hc' : Reachable psa ident c' := hc.tail h
  obtain ⟨inp, o, -, hp⟩ := h
  have howned := (perform_stretch hc.hsUnlinked hp).owned
  have hheld : heldLtk i c'.hist.dealings = some key := (hc'.logged.held i).trans hkey
  rw [heldLtk_eq, Option.bind_eq_some_iff] at hheld
  obtain ⟨⟨a, k⟩, hlast, hk⟩ := hheld
  dsimp only at hk
  subst hk
  have ha : a = peer := (hc'.attributed i a _ hlast).trans haddr
  subst ha
  rw [newDealings_append howned.log, lastLtk_append] at hlast
  cases hnew : lastLtk i (newDealings c c') with
  | some e =>
    rw [hnew] at hlast
    exact .inl ⟨i, hfree, hnew.trans hlast⟩
  | none =>
    rw [hnew] at hlast
    have hlast : lastLtk i c.hist.dealings = some (a, some key) := hlast
    refine .inr ⟨i, ?_, (hc.attributed i a _ hlast).symm, ?_⟩
    · rcases howned.entry i hfree with ⟨hold, -⟩ | hw
      · exact hold
      · exact absurd hnew (lastLtk_of_wiped howned.log hw)
    · have hheld : heldLtk i c.hist.dealings = some key := by
        rw [heldLtk_eq, hlast]
        rfl
      exact (hc.logged.held i).symm.trans hheld

/-! ## Link keys -/

/-- Nothing, or derived as a link key. -/
def IsLinkKey (psa : Psa) (k : Bytes) : Prop :=
  k = zeros keyLen ∨ ∃ s t, k = psa.hkdf s t infoLink ∨ k = psa.hkdf s t infoResume

/-- Every entry has a link key in the place of it, and so had those whose link went down. -/
structure Vault.LinkKeyed (psa : Psa) (V : Vault ι) : Prop where
  keys : ∀ i, IsLinkKey psa (V.keys i).linkKey
  downs : ∀ i a k, (i, a, .down k) ∈ V.dealings → IsLinkKey psa k

namespace Vault

variable {V V' : Vault ι}

theorem LinkKeyed.set (h : V.LinkKeyed psa) {i : ι} {k : Keys}
    (hkeys : V'.keys = Function.update V.keys i k) (hk : IsLinkKey psa k.linkKey)
    (hlog : ∀ j a k, (j, a, .down k) ∈ V'.dealings → IsLinkKey psa k) : V'.LinkKeyed psa := by
  refine ⟨fun j => ?_, hlog⟩
  rw [hkeys, Function.update_apply]
  split_ifs
  · exact hk
  · exact h.keys j

theorem LinkKeyed.derived (h : V.LinkKeyed psa) {i : ι} {ltk : Option Bytes} {key : Bytes}
    {k : Keys} {ins : List Bytes} {ds : List Dealing} {live live' : List ℕ} {no : ℕ}
    (hkey : IsLinkKey psa key) (hd : Derived live no ltk key (V.keys i) k ins ds live')
    (hkeys : V'.keys = Function.update V.keys i k)
    (hdeal : V'.dealings = ds.map (fun d => (i, V.addr i, d)) ++ V.dealings) :
    V'.LinkKeyed psa := by
  have hk : IsLinkKey psa k.linkKey := by
    cases hd with
    | nothing => exact h.keys i
    | failed | installed => exact hkey
  have hds : ∀ d ∈ ds, ∀ k, d ≠ .down k := by
    intro d hmem k hdown
    subst hdown
    cases hd with
    | nothing => cases hmem
    | failed | installed => simp at hmem
  refine h.set hkeys hk fun j a k hmem => ?_
  rw [hdeal] at hmem
  rcases List.mem_append.mp hmem with hmem | hmem
  · obtain ⟨d, hd, he⟩ := List.mem_map.mp hmem
    cases he
    exact absurd rfl (hds _ hd k)
  · exact h.downs j a k hmem

theorem Step.linkKeyed (h : Step psa V V') (hl : V.LinkKeyed psa) : V'.LinkKeyed psa := by
  have hnote : ∀ (i : ι) (addr : Addr) (d : Dealing), (∀ k, d = .down k → IsLinkKey psa k) →
      ∀ j a k, (j, a, Dealing.down k) ∈ (i, addr, d) :: V.dealings → IsLinkKey psa k := by
    intro i addr d hd j a k hmem
    rcases List.mem_cons.mp hmem with he | hmem
    · cases he
      exact hd k rfl
    · exact hl.downs j a k hmem
  cases h with
  | wipe i addr => exact hl.set rfl (.inl rfl) (hnote _ _ _ nofun)
  | forget i => exact hl.set rfl (.inl rfl) hl.downs
  | down i =>
    refine hl.set rfl (.inl rfl) (hnote _ _ _ fun k hk => ?_)
    cases hk
    exact hl.keys i
  | dropLtk i => exact hl.set rfl (hl.keys i) (hnote _ _ _ nofun)
  | begin i => exact ⟨hl.keys, hnote _ _ _ nofun⟩
  | fail i => exact hl.set rfl (.inl rfl) (hnote _ _ _ nofun)
  | recount i => exact hl.set rfl (hl.keys i) hl.downs
  | stall i => exact hl.set rfl (hl.keys i) hl.downs
  | use i => exact hl.set rfl (hl.keys i) hl.downs
  | draw | verify => exact ⟨hl.keys, hl.downs⟩
  | fromReq i nonce t secret k ins ds live _ hd =>
    exact hl.derived (.inr ⟨_, _, .inl rfl⟩) hd rfl rfl
  | fromRsp i v secret k ins ds live _ _ _ hd =>
    exact hl.derived (.inr ⟨_, _, .inl rfl⟩) hd rfl rfl
  | resume i nonceJ k ins live _ _ hd => exact hl.derived (.inr ⟨_, _, .inr rfl⟩) hd rfl rfl

theorem Steps.linkKeyed (h : Steps psa V V') (hl : V.LinkKeyed psa) : V'.LinkKeyed psa := by
  induction h with
  | refl => exact hl
  | tail _ hstep ih => exact hstep.linkKeyed ih

end Vault

theorem Reachable.linkKeyed {ident : Identity} {c : Node cfg} (h : Reachable psa ident c) :
    c.vault.LinkKeyed psa :=
  h.advances.steps.linkKeyed
    ⟨fun _ => .inl rfl, fun _ _ _ hmem => by simp [Node.vault, Node.boot] at hmem⟩

/-- No link key is the long term key of an exchange. -/
theorem IsLinkKey.ne_ltk (hpsa : psa.Ideal)
    (hzero : ∀ s t, psa.hkdf s t infoLtk ≠ zeros keyLen) {k : Bytes} (h : IsLinkKey psa k)
    (s t : Bytes) : k ≠ psa.hkdf s t infoLtk := by
  rintro rfl
  rcases h with h | ⟨s', t', h | h⟩
  · exact hzero s t h
  · exact absurd (hpsa.hkdf h).2.2 (by decide)
  · exact absurd (hpsa.hkdf h).2.2 (by decide)

/-! ## Two ends -/

theorem Node.Unkeyed.not_holds {c : Node cfg} {peer : Addr} (h : c.Unkeyed peer) (k : Bytes) :
    ¬ c.HoldsLtk peer k := by
  rintro ⟨i, hfree, haddr, hk⟩
  rw [h i hfree haddr] at hk
  cases hk

namespace Peers

variable {P : Node cfg → Addr → Prop} {p q r : Peers cfg} {ident : Identity} {key : Bytes}

theorem Agree.swap (h : p.Agree) : p.swap.Agree := fun k k' hk hk' => (h k' k hk' hk).symm

theorem Keyed.swap (h : p.Keyed) : p.swap.Keyed := ⟨h.2, h.1⟩

/-- A key of the first end after its turn is that of a link that went down, or an old one. -/
theorem Turn.origin (h : Turn psa P p q) (ha : Reachable psa ident p.a) {k : Bytes}
    (hk : q.a.HoldsLtk p.b.ident.addr k) : p.GoesDown q ∨ p.a.HoldsLtk p.b.ident.addr k := by
  rcases hk.origin ha h.step with ⟨i, hfree, hlast⟩ | hold
  · left
    obtain ⟨d, hmem, hd⟩ := lastLtk_mem hlast
    cases d with
    | derived k' =>
      cases hd
      exact absurd hmem (h.noFull i k)
    | down k' =>
      cases hd
      exact ⟨i, k, hfree, hmem, hlast⟩
    | wiped | dropped | began | failed => cases hd
  · exact .inr hold

/-- A link that goes down leaves its key. -/
theorem GoesDown.leaves (h : p.GoesDown q) (ha : Reachable psa ident p.a)
    (hstep : LockGrid.Step psa p.a q.a) :
    ∃ k, q.a.HoldsLtk p.b.ident.addr k ∧ IsLinkKey psa k := by
  obtain ⟨i, k, hfree, hmem, hlast⟩ := h
  have hq : Reachable psa ident q.a := ha.tail hstep
  obtain ⟨inp, o, -, hp⟩ := hstep
  have hlog := newDealings_append (perform_stretch ha.hsUnlinked hp).owned.log
  have hall : lastLtk i q.a.hist.dealings = some (p.b.ident.addr, some k) := by
    rw [hlog, lastLtk_append, hlast]
    rfl
  refine ⟨k, ⟨i, hfree, (hq.attributed i _ _ hall).symm, ?_⟩,
    hq.linkKeyed.downs i p.b.ident.addr k ?_⟩
  · have hheld : heldLtk i q.a.hist.dealings = some k := by
      rw [heldLtk_eq, hall]
      rfl
    exact (hq.logged.held i).symm.trans hheld
  · change (i, p.b.ident.addr, Dealing.down k) ∈ q.a.hist.dealings
    rw [hlog]
    exact List.mem_append_left _ hmem

/-- While both ends have a long term key for each other, it is `key`. -/
def Bound (key : Bytes) (p : Peers cfg) : Prop :=
  ∀ k k', p.a.HoldsLtk p.b.ident.addr k → p.b.HoldsLtk p.a.ident.addr k' → k = key ∧ k' = key

theorem Bound.swap (h : p.Bound key) : p.swap.Bound key := fun k k' hk hk' => (h k' k hk' hk).symm

theorem Bound.agree (h : p.Bound key) : p.Agree := by
  intro k k' hk hk'
  obtain ⟨rfl, rfl⟩ := h k k' hk hk'
  rfl

theorem Bound.turn (hb : p.Bound key) (ha : Reachable psa ident p.a)
    (h : Turn psa Node.Unkeyed p q) : q.Bound key := by
  intro k k' hk hk'
  rw [h.other] at hk hk'
  rw [h.step.advances.ident] at hk'
  rcases h.origin ha hk with hdown | hold
  · exact absurd hk' ((h.down hdown).not_holds k')
  · exact hb k k' hold hk'

/-- While both ends hold the key they derived, a turn keeps the agreement exactly if it does not
take their link down. -/
theorem Bound.turn_iff (hpsa : psa.Ideal) (hzero : ∀ s t, psa.hkdf s t infoLtk ≠ zeros keyLen)
    {s t : Bytes} (hb : p.Bound (psa.hkdf s t infoLtk)) (ha : Reachable psa ident p.a)
    (hkeyed : p.Keyed) (h : Turn psa (fun _ _ => True) p q) : q.Agree ↔ ¬ p.GoesDown q := by
  constructor
  · intro hagree hdown
    obtain ⟨k, hk, hlink⟩ := hdown.leaves ha h.step
    obtain ⟨⟨k₀, hk₀⟩, k', hk'⟩ := hkeyed
    have hold := (hb k₀ k' hk₀ hk').2
    have hsame : k = k' := by
      refine hagree k k' ?_ ?_
      · rw [h.other]
        exact hk
      · rw [h.other, h.step.advances.ident]
        exact hk'
    exact hlink.ne_ltk hpsa hzero s t (hsame.trans hold)
  · intro hup
    exact (hb.turn ha ⟨h.other, h.step, h.noFull, fun hdown => absurd hdown hup⟩).agree

/-- Both ends are honest. -/
def Honest (psa : Psa) (p : Peers cfg) : Prop :=
  (∃ ident, Reachable psa ident p.a) ∧ ∃ ident, Reachable psa ident p.b

theorem Honest.swap (h : Honest psa p) : Honest psa p.swap := ⟨h.2, h.1⟩

theorem Step.honest (h : Step psa P p q) (hp : Honest psa p) : Honest psa q := by
  obtain ⟨⟨ia, ha⟩, ib, hb⟩ := hp
  rcases h with hturn | hturn
  · exact ⟨⟨ia, ha.tail hturn.step⟩, ib, hturn.other ▸ hb⟩
  · have hsame : q.a = p.a := hturn.other
    exact ⟨⟨ia, hsame ▸ ha⟩, ib, hb.tail hturn.step⟩

theorem Step.bound (h : Step psa Node.Unkeyed p q) (hh : Honest psa p) (hp : p.Bound key) :
    q.Bound key := by
  obtain ⟨⟨ia, ha⟩, ib, hb⟩ := hh
  rcases h with hturn | hturn
  · exact hp.turn ha hturn
  · exact (hp.swap.turn hb hturn).swap

/-- The entry of an end of a handshake is its only one for the other. -/
theorem Linked.only {c : Node cfg} {peer : Addr} {secret transcript k : Bytes}
    (h : Linked psa c peer secret transcript) (hpeer : peer ≠ addrInvalid)
    (hk : c.HoldsLtk peer k) : k = psa.hkdf secret transcript infoLtk := by
  obtain ⟨⟨_, hc⟩, -, i, hl, haddr, -, hltk⟩ := h
  obtain ⟨j, hfree, haddr', hk⟩ := hk
  have hsame : j = i := by
    refine hc.distinct j i hfree (by rw [hl]; simp) (haddr'.trans haddr.symm) ?_
    rw [haddr']
    exact hpeer
  subst hsame
  rw [hltk] at hk
  exact (Option.some.inj hk).symm

theorem Linked.holds {c : Node cfg} {peer : Addr} {secret transcript : Bytes}
    (h : Linked psa c peer secret transcript) :
    c.HoldsLtk peer (psa.hkdf secret transcript infoLtk) := by
  obtain ⟨-, -, i, hl, haddr, -, hltk⟩ := h
  exact ⟨i, by rw [hl]; simp, haddr, hltk⟩

/-- Both ends derived their long term keys from one exchange. -/
theorem Completed.bound (h : Completed psa p) : ∃ s t, p.Bound (psa.hkdf s t infoLtk) := by
  obtain ⟨secret, transcript, ha, hb⟩ := h
  exact ⟨secret, transcript, fun k k' hk hk' => ⟨ha.only hb.valid hk, hb.only ha.valid hk'⟩⟩

theorem Completed.keyed (h : Completed psa p) : p.Keyed := by
  obtain ⟨secret, transcript, ha, hb⟩ := h
  exact ⟨⟨_, ha.holds⟩, _, hb.holds⟩

theorem Completed.honest (h : Completed psa p) : Honest psa p := by
  obtain ⟨_, _, ha, hb⟩ := h
  exact ⟨ha.reachable, hb.reachable⟩

end Peers

/-- Through any later run of two nodes that have completed a full handshake, in which an end takes
their link down only while the other holds no long term key for it, the long term keys of the two
agree. And where link keys are not long term keys, that is the only way: while both hold one, the
next turn of an end keeps the agreement exactly if it does not take their link down. -/
theorem ltks_agree {p q : Peers cfg} (hp : p.Completed psa)
    (h : Relation.ReflTransGen (Peers.Step psa Node.Unkeyed) p q) :
    q.Agree ∧ (psa.Ideal → (∀ s t, psa.hkdf s t infoLtk ≠ zeros keyLen) →
      ∀ q', q' = q ∨ q' = q.swap → q'.Keyed → ∀ r, Peers.Turn psa (fun _ _ => True) q' r →
        (r.Agree ↔ ¬ q'.GoesDown r)) := by
  obtain ⟨s, t, hbound⟩ := hp.bound
  have hrun : q.Honest psa ∧ q.Bound (psa.hkdf s t infoLtk) := by
    induction h with
    | refl => exact ⟨hp.honest, hbound⟩
    | tail _ hs ih => exact ⟨hs.honest ih.1, hs.bound ih.1 ih.2⟩
  obtain ⟨⟨⟨ia, ha⟩, ib, hb⟩, hkept⟩ := hrun
  refine ⟨hkept.agree, ?_⟩
  rintro hpsa hzero q' (rfl | rfl) hkeyed r hturn
  · exact hkept.turn_iff hpsa hzero ha hkeyed hturn
  · exact hkept.swap.turn_iff hpsa hzero hb hkeyed hturn

/-! ## Two nodes over the plain library -/

/-- The `JOIN_REQ` that node 1 sends in `joiningRun`. -/
def ownReq : Bytes :=
  List.replicate nonceLen 5 ++ List.replicate ecPubLen 5 ++ plainCert 1 (plainPub 1)

/-- Node 2 as the router that node 1 joins in `joiningRun`. -/
def routerRun : List (Oracle × Input) :=
  [(calm 1, .start), (calm 2, .schedWork), (calm 3, .tick 16000), (calm 3, .granted),
    (calm 3, .tick 5000),
    (calm 4, .rxDone (plainFrag .joinReq 2 1 ownReq 0)),
    (calm 4, .rxDone (plainFrag .joinReq 2 1 ownReq 1)),
    (calm 4, .rxDone (sealedFrag .joinCfm 2 1 rspKey 1 (plainSign (plainPub 1) rspTranscript))),
    (calm 6, .rxWork), (calm 6, .rxWork), (calm 6, .rxWork),
    (calm 8, .tick 9000), (calm 8, .rxFailed .timeout), (calm 9, .finishWork (calm 10)),
    (calm 10, .schedWork), (calm 11, .tick 29500), (calm 11, .granted), (calm 12, .tick 2500),
    (calm 12, .txDone 62000), (calm 13, .finishWork (calm 14))]

/-- The long term key both ends derive. -/
def rspLtk : Bytes := Psa.plain.hkdf (List.replicate ecPrivLen 3) rspTranscript infoLtk

/-- The first neighbour is `peer`, and the link with it came of the exchange. -/
def linkedTo (c : Node .default) (peer : Addr) : Bool :=
  decide ((c.neigh firstNeigh).state = .linked ∧ (c.neigh firstNeigh).addr = peer ∧
    (c.neigh firstNeigh).keys.linkKey = rspKey ∧ (c.neigh firstNeigh).keys.ltk? = some rspLtk)

theorem linked_of_linkedTo {c : Node .default} {ident : Identity} {peer : Addr}
    (hc : Reachable Psa.plain ident c) (hvalid : ident.addr ≠ addrInvalid)
    (h : linkedTo c peer = true) :
    Peers.Linked Psa.plain c peer (List.replicate ecPrivLen 3) rspTranscript := by
  obtain ⟨hl, ha, hk, hltk⟩ := of_decide_eq_true h
  refine ⟨⟨ident, hc⟩, ?_, firstNeigh, hl, ha, hk, hltk⟩
  rw [hc.advances.ident]
  exact hvalid

theorem completed_of_linkedTo {c d : Node .default} (hc : Reachable Psa.plain (plainIdent 1 1) c)
    (hd : Reachable Psa.plain (plainIdent 2 2) d) (hjoiner : linkedTo c 2 = true)
    (hrouter : linkedTo d 1 = true) : Peers.Completed Psa.plain ⟨c, d⟩ := by
  refine ⟨List.replicate ecPrivLen 3, rspTranscript, ?_, ?_⟩
  · rw [show d.ident.addr = 2 from congrArg Identity.addr hd.advances.ident]
    exact linked_of_linkedTo hc (by decide) hjoiner
  · rw [show c.ident.addr = 1 from congrArg Identity.addr hc.advances.ident]
    exact linked_of_linkedTo hd (by decide) hrouter

/-- The router of the exchange. -/
theorem exists_router : ∃ c : Node .default, Reachable Psa.plain (plainIdent 2 2) c ∧
    linkedTo c 1 = true :=
  exists_reachable Psa.plain (plainIdent 2 2) routerRun (linkedTo · 1) (by decide +kernel)

theorem plain_hkdf_ne_zeros (s t : Bytes) : Psa.plain.hkdf s t infoLtk ≠ zeros keyLen := by
  intro h
  have hmem : (76 : UInt8) ∈ zeros keyLen := by
    rw [← h]
    simp [Psa.plain, infoLtk]
  exact absurd (List.eq_of_mem_replicate hmem) (by decide)

/-- After the handshake the joiner stops. -/
theorem exists_stopped : ∃ p q : Peers .default, p.Completed Psa.plain ∧
    Peers.Turn Psa.plain (fun _ _ => True) p q ∧ p.GoesDown q := by
  obtain ⟨c, hc, hjoined⟩ := exists_reachable Psa.plain (plainIdent 1 1) joiningRun
    (fun c => linkedTo c 2 &&
      decide (((lgStop (calm 7) c).neigh firstNeigh).state ≠ .free ∧
        (firstNeigh, 2, .down rspKey) ∈ newDealings c (lgStop (calm 7) c) ∧
        lastLtk firstNeigh (newDealings c (lgStop (calm 7) c)) = some (2, some rspKey)) &&
      (newDealings c (lgStop (calm 7) c)).all fun e =>
        match e.2.2 with
        | .derived _ => false
        | _ => true) (by decide +kernel)
  obtain ⟨c', hstop⟩ : ∃ c', perform Psa.plain (calm 7) c .stop = some c' ∧
      c' = lgStop (calm 7) c := ⟨_, rfl, rfl⟩
  rw [← hstop.2] at hjoined
  simp only [Bool.and_eq_true, decide_eq_true_eq] at hjoined
  obtain ⟨⟨hjoined, hfree, hdown, hlast⟩, hdealings⟩ := hjoined
  have hnoFull : ∀ i peer k, (i, peer, Dealing.derived k) ∉ newDealings c c' := by
    intro i peer k hmem
    cases List.all_eq_true.mp hdealings _ hmem
  obtain ⟨d, hd, hrouter⟩ := exists_router
  have hpeer : d.ident.addr = 2 := congrArg Identity.addr hd.advances.ident
  refine ⟨⟨c, d⟩, ⟨c', d⟩, completed_of_linkedTo hc hd hjoined hrouter,
    ⟨rfl, ⟨.stop, calm 7, trivial, hstop.1⟩, fun i k => hnoFull i _ k, fun _ => trivial⟩,
    firstNeigh, rspKey, hfree, ?_, ?_⟩
  · rw [hpeer]
    exact hdown
  · rw [hpeer]
    exact hlast

/-- When one end alone takes the link down, the two hold different long term keys. -/
theorem not_ltks_agree_down : ¬ ∀ (psa : Psa) (p q : Peers .default), p.Completed psa →
    Relation.ReflTransGen (Peers.Step psa fun _ _ => True) p q → q.Agree := by
  intro h
  obtain ⟨p, q, hp, hturn, hdown⟩ := exists_stopped
  obtain ⟨s, t, hbound⟩ := hp.bound
  obtain ⟨⟨_, ha⟩, -⟩ := hp.honest
  have hbreaks := hbound.turn_iff plain_ideal plain_hkdf_ne_zeros ha hp.keyed hturn
  exact hbreaks.mp (h Psa.plain p q hp (.single (.inl hturn))) hdown

/-! ## Computed runs of two ends -/

namespace Peers

variable {p q : Peers cfg}

/-- The turn of the first end on an input, unless it derives keys from a full handshake or takes
down the link with an end that holds a long term key. -/
def turned (psa : Psa) (p : Peers cfg) (s : Oracle × Input) : Option (Peers cfg) :=
  if Enabled p.a s.2 then
    (perform psa s.1 p.a s.2).bind fun c =>
      if (newDealings p.a c).all fun e =>
          match e.2.2 with
          | .derived _ => false
          | .down _ => decide (p.b.Unkeyed p.a.ident.addr)
          | _ => true then
        some ⟨c, p.b⟩
      else none
  else none

theorem turned_turn {s : Oracle × Input} (h : turned psa p s = some q) :
    Turn psa Node.Unkeyed p q := by
  unfold turned at h
  split at h
  · next hen =>
    obtain ⟨c, hc, h⟩ := Option.bind_eq_some_iff.mp h
    split at h
    · next hall =>
      cases h
      refine ⟨rfl, ⟨s.2, s.1, hen, hc⟩, fun i k hmem => ?_, ?_⟩
      · have hno := List.all_eq_true.mp hall _ hmem
        cases hno
      · rintro ⟨i, k, -, hmem, -⟩
        exact of_decide_eq_true (List.all_eq_true.mp hall _ hmem)
    · cases h
  · cases h

/-- A move of the first end, or of the other. -/
def next (psa : Psa) (p : Peers cfg) : Bool × Oracle × Input → Option (Peers cfg)
  | (true, s) => turned psa p s
  | (false, s) => (turned psa p.swap s).map swap

theorem next_step (p : Peers cfg) (m : Bool × Oracle × Input) (q : Peers cfg)
    (h : next psa p m = some q) : Step psa Node.Unkeyed p q := by
  obtain ⟨_ | _, s⟩ := m
  · obtain ⟨q', hq', rfl⟩ := Option.map_eq_some_iff.mp h
    exact .inr (turned_turn hq')
  · exact .inl (turned_turn h)

end Peers

/-- The router hears a `RESUME_REQ` of the joiner and brings the link up under a new key. -/
def resumedMoves : List (Bool × Oracle × Input) :=
  [(false, calm 14, .tick 6000), (false, calm 15, .granted), (false, calm 15, .tick 3000),
    (false, calm 15, .rxDone { plainFrag .resumeReq 2 1 (List.replicate nonceLen 8) 0 with
      airStartUs := 70000 }),
    (false, calm 15, .rxWork), (false, calm 15, .tick 9000), (false, calm 16, .rxFailed .timeout),
    (false, calm 17, .finishWork (calm 18)), (false, calm 18, .schedWork),
    (false, calm 18, .tick 29000), (false, calm 19, .granted), (false, calm 20, .tick 2500),
    (false, calm 21, .txDone 112000), (false, calm 22, .finishWork (calm 23))]

/-- The joiner gives its long term key up on a `RESUME_REQ` that is too short, and then the router
stops. -/
def givenUpMoves : List (Bool × Oracle × Input) :=
  [(true, calm 7, .finishWork (calm 7)), (true, calm 7, .tick 48700), (true, calm 7, .granted),
    (true, calm 7, .tick 2000),
    (true, calm 7, .rxDone { plainFrag .resumeReq 1 2 [0] 0 with airStartUs := 70000 }),
    (true, calm 7, .rxWork), (false, calm 24, .stop)]

/-- The router's link has been resumed, and both ends hold their long term keys. -/
def hasResumed (p : Peers .default) : Bool :=
  decide (p.b.hist.resumeDerived.length = 1 ∧ (p.b.neigh firstNeigh).state = .linked ∧
    (p.b.neigh firstNeigh).keys.linkKey ≠ rspKey ∧
    (p.b.neigh firstNeigh).addr = p.a.ident.addr ∧
    (p.b.neigh firstNeigh).keys.ltk? = some rspLtk ∧
    (p.a.neigh firstNeigh).state ≠ .free ∧ (p.a.neigh firstNeigh).addr = p.b.ident.addr ∧
    (p.a.neigh firstNeigh).keys.ltk? = some rspLtk)

/-- The router's link has gone down and left its key. -/
def hasStopped (p : Peers .default) : Bool :=
  decide ((p.b.neigh firstNeigh).state = .lost ∧
    (firstNeigh, p.a.ident.addr, .down (p.b.neigh firstNeigh).keys.ltk) ∈ p.b.hist.dealings)

/-- A run in which the link is resumed while both ends hold their keys, and then goes down; and a
turn after which the keys differ. -/
theorem ltks_agree_resumed :
    (∃ p q q' : Peers .default, p.Completed Psa.plain ∧
      Relation.ReflTransGen (Peers.Step Psa.plain Node.Unkeyed) p q ∧ hasResumed q = true ∧
        q.Keyed ∧ q.Agree ∧
      Relation.ReflTransGen (Peers.Step Psa.plain Node.Unkeyed) q q' ∧ hasStopped q' = true ∧
        q'.Agree) ∧
    ∃ p r : Peers .default, p.Completed Psa.plain ∧
      Peers.Turn Psa.plain (fun _ _ => True) p r ∧ ¬ r.Agree := by
  constructor
  · obtain ⟨c, hc, hrun⟩ := exists_reachable Psa.plain (plainIdent 1 1) joiningRun
      (fun c => (run Psa.plain (Node.boot .default (plainIdent 2 2)) routerRun).any fun d =>
        linkedTo c 2 && linkedTo d 1 &&
          (resumedMoves.foldlM (Peers.next Psa.plain) ⟨c, d⟩).any fun q =>
            hasResumed q && (givenUpMoves.foldlM (Peers.next Psa.plain) q).any hasStopped)
      (by decide +kernel)
    obtain ⟨d, hd, hrun⟩ := exists_reachable Psa.plain (plainIdent 2 2) routerRun _ hrun
    simp only [Bool.and_eq_true] at hrun
    obtain ⟨⟨hjoined, hrouter⟩, hmoves⟩ := hrun
    have hp := completed_of_linkedTo hc hd hjoined hrouter
    obtain ⟨q, hq, hmid⟩ := Traces.exists_run Peers.next_step resumedMoves ⟨c, d⟩ _ hmoves
    obtain ⟨hresumed, hmoves⟩ := Bool.and_eq_true_iff.mp hmid
    obtain ⟨q', hq', hend⟩ := Traces.exists_run Peers.next_step givenUpMoves q _ hmoves
    obtain ⟨-, hlinked, -, haddr, hltk, hfree, haddr', hltk'⟩ := of_decide_eq_true hresumed
    have hkeyed : q.Keyed := ⟨⟨_, firstNeigh, hfree, haddr', hltk'⟩, _, firstNeigh,
      by rw [hlinked]; simp, haddr, hltk⟩
    exact ⟨⟨c, d⟩, q, q', hp, hq, hresumed, hkeyed, (ltks_agree hp hq).1, hq', hend,
      (ltks_agree hp (hq.trans hq')).1⟩
  · obtain ⟨p, r, hp, hturn, hdown⟩ := exists_stopped
    have hbreaks := (ltks_agree hp .refl).2 plain_ideal plain_hkdf_ne_zeros p (.inl rfl) hp.keyed r
      hturn
    exact ⟨p, r, hp, hturn, fun hagree => hbreaks.mp hagree hdown⟩

end LockGrid
