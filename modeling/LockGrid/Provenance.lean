import LockGrid.Plain
import LockGrid.Refine

/-!
# Where long term keys come from, and what links come up on

A long term key is authentic when it goes back to an exchange in which this node verified the
transcript signature of a certified peer. Keys derived from a `JOIN_REQ` are not, until the
`JOIN_CFM`, nor is what a link without a key leaves behind; without these, every key is.
-/
namespace LockGrid

variable {cfg : Config} {psa : Psa} {ι : Type} [DecidableEq ι]

/-- Keys that go back to an exchange with the certified peer whose signature is in `vs`. -/
inductive Authentic (psa : Psa) (caPub : Bytes) (peer : Addr) (vs : List Verified) : Bytes → Prop
  | ltk {v secret} (hv : v ∈ vs) (ha : Vault.Agreed psa caPub peer v secret) :
    Authentic psa caPub peer vs (psa.hkdf secret v.transcript infoLtk)
  | link {v secret} (hv : v ∈ vs) (ha : Vault.Agreed psa caPub peer v secret) :
    Authentic psa caPub peer vs (psa.hkdf secret v.transcript infoLink)
  | resumed {key salt} (hk : Authentic psa caPub peer vs key) :
    Authentic psa caPub peer vs (psa.hkdf key salt infoResume)

theorem Authentic.mono {caPub : Bytes} {peer : Addr} {vs vs' : List Verified} {key : Bytes}
    (hsub : vs ⊆ vs') (h : Authentic psa caPub peer vs key) : Authentic psa caPub peer vs' key := by
  induction h with
  | ltk hv ha => exact .ltk (hsub hv) ha
  | link hv ha => exact .link (hsub hv) ha
  | resumed _ ih => exact .resumed ih

theorem not_authentic_nil {caPub : Bytes} {peer : Addr} {key : Bytes} :
    ¬ Authentic psa caPub peer [] key := by
  intro h
  induction h with
  | ltk hv => exact absurd hv List.not_mem_nil
  | link hv => exact absurd hv List.not_mem_nil
  | resumed _ ih => exact ih

namespace Vault

/-- Every key held, and every long term key resumed from, is authentic. -/
structure Authenticated (psa : Psa) (V : Vault ι) : Prop where
  ltk : ∀ i, (V.keys i).hasLtk = true →
    Authentic psa V.caPub (V.addr i) V.verified (V.keys i).ltk
  key : ∀ i, (V.keys i).hasKey = true →
    Authentic psa V.caPub (V.addr i) V.verified (V.keys i).linkKey
  resumed : ∀ r ∈ V.resumeDerived, Authentic psa V.caPub r.2.2 V.verified r.1

variable {V V' : Vault ι}

theorem Authenticated.set (h : V.Authenticated psa) (i : ι) (k : Keys)
    (hltk : k.hasLtk = true → Authentic psa V.caPub (V.addr i) V.verified k.ltk)
    (hkey : k.hasKey = true → Authentic psa V.caPub (V.addr i) V.verified k.linkKey) :
    (V.set i k).Authenticated psa := by
  refine ⟨fun j => ?_, fun j => ?_, h.resumed⟩
  all_goals
    by_cases hj : j = i
    · subst hj
      simpa [Vault.set] using by assumption
  · simpa [Vault.set, hj] using h.ltk j
  · simpa [Vault.set, hj] using h.key j

/-- A derivation leaves authentic keys when what it derives is authentic. -/
theorem Authenticated.derived (h : V.Authenticated psa) {i : ι} {ltk : Option Bytes}
    {key : Bytes} {k : Keys} {ins : List Bytes} {ds : List Dealing} {live live' : List ℕ} {no : ℕ}
    (hd : Derived live no ltk key (V.keys i) k ins ds live')
    (hltk : ∀ l ∈ ltk, Authentic psa V.caPub (V.addr i) V.verified l)
    (hkey : Authentic psa V.caPub (V.addr i) V.verified key) :
    (V.set i k).Authenticated psa := by
  have hsave : (saveLtk (V.keys i) ltk).hasLtk = true →
      Authentic psa V.caPub (V.addr i) V.verified (saveLtk (V.keys i) ltk).ltk := by
    cases ltk with
    | none => exact h.ltk i
    | some l => exact fun _ => hltk l rfl
  cases hd with
  | nothing => exact h.set i _ (h.ltk i) (h.key i)
  | failed => exact h.set i _ hsave nofun
  | installed => exact h.set i _ hsave fun _ => hkey

/-- The two ways in which keys that are not authentic come about are counted. -/
theorem Step.counts_le (h : Step psa V V') :
    V.reqDerived ≤ V'.reqDerived ∧ V.keylessDowns ≤ V'.keylessDowns := by
  cases h <;> simp [Vault.set, Vault.note]

theorem Step.authenticated (h : Step psa V V') (hreq : V'.reqDerived = V.reqDerived)
    (hdown : V'.keylessDowns = V.keylessDowns) (ha : V.Authenticated psa) :
    V'.Authenticated psa := by
  cases h with
  | wipe i addr =>
    refine ⟨fun j hj => ?_, fun j hj => ?_, ha.resumed⟩
    all_goals
      have hne : j ≠ i := by
        rintro rfl
        simp [Vault.set] at hj
      simp only [Vault.set, Function.update_of_ne hne] at hj ⊢
    · exact ha.ltk j hj
    · exact ha.key j hj
  | forget i =>
    have hs := ha.set i (V.keys i).forget (ha.ltk i) (by simp [Keys.forget])
    exact ⟨hs.ltk, hs.key, hs.resumed⟩
  | down i =>
    have hk : (V.keys i).hasKey = true := by
      by_contra hk
      simp [hk] at hdown
    have hs := ha.set i { V.keys i with ltk := (V.keys i).linkKey, hasLtk := true }.forget
      (fun _ => ha.key i hk) (by simp [Keys.forget])
    exact ⟨hs.ltk, hs.key, hs.resumed⟩
  | dropLtk i =>
    have hs := ha.set i { V.keys i with hasLtk := false } (by simp) (ha.key i)
    exact ⟨hs.ltk, hs.key, hs.resumed⟩
  | begin => exact ⟨ha.ltk, ha.key, ha.resumed⟩
  | fail i =>
    have hs := ha.set i (V.keys i).forget (ha.ltk i) (by simp [Keys.forget])
    exact ⟨hs.ltk, hs.key, hs.resumed⟩
  | recount i => exact ha.set i _ (ha.ltk i) (ha.key i)
  | stall i => exact ha.set i _ (ha.ltk i) (ha.key i)
  | use i =>
    have hs := ha.set i { V.keys i with txCtr := (V.keys i).txCtr + 1 } (ha.ltk i) (ha.key i)
    exact ⟨hs.ltk, hs.key, hs.resumed⟩
  | draw => exact ⟨ha.ltk, ha.key, ha.resumed⟩
  | verify v sig hv =>
    have hsub : V.verified ⊆ v :: V.verified := List.subset_cons_self v _
    exact ⟨fun i hi => (ha.ltk i hi).mono hsub, fun i hi => (ha.key i hi).mono hsub,
      fun r hr => (ha.resumed r hr).mono hsub⟩
  | fromReq => simp at hreq
  | fromRsp i v secret k ins ds live ht hv hagreed hd =>
    have hs := ha.derived hd (fun l hl => by cases hl; exact .ltk hv hagreed) (.link hv hagreed)
    exact ⟨hs.ltk, hs.key, hs.resumed⟩
  | resume i nonceJ k ins live hl hn hd =>
    have hs := ha.derived hd (fun l h => by cases h) (.resumed (ha.ltk i hl))
    refine ⟨hs.ltk, hs.key, fun r hr => ?_⟩
    rcases List.mem_cons.mp hr with rfl | hr
    · exact ha.ltk i hl
    · exact hs.resumed r hr

/-- Along a run without the two, every key stays authentic. -/
theorem Steps.authenticated (h : Steps psa V V') (ha : V.Authenticated psa)
    (hreq : V'.reqDerived = 0) (hdown : V'.keylessDowns = 0) : V'.Authenticated psa := by
  induction h with
  | refl => exact ha
  | tail _ hs ih =>
    have hle := hs.counts_le
    exact hs.authenticated (by omega) (by omega) (ih (by omega) (by omega))

end Vault

/-! ## Long term keys -/

/-- What is to hold of the long term keys of a node: each held, and each resumed from, goes back
to a signature of its certified peer that this node has verified. -/
def LtksAuthentic (psa : Psa) (caPub : Bytes) (c : Node cfg) : Prop :=
  (∀ i, (c.neigh i).keys.hasLtk = true →
    Authentic psa caPub (c.neigh i).addr c.hist.verified (c.neigh i).keys.ltk) ∧
  ∀ r ∈ c.hist.resumeDerived, Authentic psa caPub r.2.2 c.hist.verified r.1

theorem Node.boot_authenticated (ident : Identity) :
    (Node.boot cfg ident).vault.Authenticated psa :=
  ⟨fun _ h => by simp [Node.boot, Node.vault] at h, fun _ h => by simp [Node.boot, Node.vault] at h,
    fun _ h => by simp [Node.boot, Node.vault] at h⟩

/-- In every run in which no `JOIN_REQ` gets as far as `derive_keys` and no link goes down
without a key, every long term key is authentic. -/
theorem ltks_authentic {ident : Identity} {c : Node cfg} (h : Reachable psa ident c)
    (hreq : c.hist.reqDerived = 0) (hdown : c.hist.keylessDowns = 0) :
    LtksAuthentic psa ident.caPub c := by
  have hadv := h.advances
  have ha := hadv.steps.authenticated (Node.boot_authenticated ident) hreq hdown
  have hca : c.ident.caPub = ident.caPub := congrArg Identity.caPub hadv.ident
  have hltk := ha.ltk
  have hres := ha.resumed
  simp only [Node.vault, hca] at hltk hres
  exact ⟨hltk, hres⟩

/-- The first neighbour of the default build. -/
def firstNeigh : Fin Config.default.maxNeighbors := ⟨0, Config.default_neighbors⟩

/-- What node 2 answers to the `JOIN_REQ` of node 1, which drew 5 throughout. -/
def rspTranscript : Bytes :=
  transcriptMsg 7 1 2 (List.replicate nonceLen 5) (List.replicate nonceLen 6)
    (List.replicate ecPubLen 5) (List.replicate ecPubLen 6)

def rspMsg : Bytes :=
  List.replicate nonceLen 6 ++ List.replicate ecPubLen 6 ++ plainCert 2 (plainPub 2) ++
    plainSign (plainPub 2) rspTranscript

/-- The key both ends derive. -/
def rspKey : Bytes :=
  Psa.plain.hkdf (List.replicate ecPrivLen 3) rspTranscript infoLink

/-- Node 1 hears a beacon of node 2 during a scan and joins it, on frames that come in the same
window. -/
def joiningRun : List (Oracle × Input) :=
  [(calm 1, .start), (calm 2, .schedWork), (calm 3, .tick 16000), (calm 3, .granted),
    (calm 3, .tick 5000),
    (calm 4, .rxDone (plainBeacon 2)), (calm 4, .rxDone (plainFrag .joinRsp 1 2 rspMsg 0)),
    (calm 4, .rxDone (plainFrag .joinRsp 1 2 rspMsg 1)),
    (calm 4, .rxDone (plainFrag .joinRsp 1 2 rspMsg 2)),
    (calm 4, .rxDone (sealedFrag .joinAck 1 2 rspKey 1
      (linkParamsFill (calm 2) (Node.boot .default (plainIdent 2 2))).encode)),
    (calm 5, .rxWork), (calm 6, .rxWork), (calm 6, .rxWork), (calm 6, .rxWork),
    (calm 6, .rxWork)]

theorem ltks_authentic_joining :
    ∃ c : Node .default, Reachable Psa.plain (plainIdent 1 1) c ∧
      (c.neigh firstNeigh).keys.hasLtk = true ∧ LtksAuthentic Psa.plain plainCa c := by
  obtain ⟨c, hc, hp⟩ := exists_reachable Psa.plain (plainIdent 1 1) joiningRun
    (fun c : Node .default => (c.neigh firstNeigh).keys.hasLtk &&
      decide (c.hist.reqDerived = 0 ∧ c.hist.keylessDowns = 0)) (by decide +kernel)
  simp only [Bool.and_eq_true, decide_eq_true_eq] at hp
  exact ⟨c, hc, hp.1, ltks_authentic hc hp.2.1 hp.2.2⟩

/-- A `JOIN_REQ` with the certificate of node 2, made by anyone who has seen that. -/
def replayedReq : Bytes :=
  List.replicate nonceLen 8 ++ List.replicate ecPubLen 8 ++ plainCert 2 (plainPub 2)

def replayedRun : List (Oracle × Input) :=
  [(calm 1, .start), (calm 2, .schedWork), (calm 3, .tick 16000), (calm 3, .granted),
    (calm 3, .tick 5000),
    (calm 4, .rxDone (plainFrag .joinReq 1 2 replayedReq 0)),
    (calm 4, .rxDone (plainFrag .joinReq 1 2 replayedReq 1)),
    (calm 5, .rxWork), (calm 6, .rxWork)]

/-- A replayed certificate is enough for a long term key to be stored: no signature has been
verified. -/
theorem not_ltks_authentic_replayed :
    ¬ ∀ (psa : Psa) (ident : Identity) (c : Node .default), Reachable psa ident c →
      LtksAuthentic psa ident.caPub c := by
  intro h
  obtain ⟨c, hc, hp⟩ := exists_reachable Psa.plain (plainIdent 1 1) replayedRun
    (fun c : Node .default => (c.neigh firstNeigh).keys.hasLtk &&
      c.hist.verified.isEmpty) (by decide +kernel)
  simp only [Bool.and_eq_true, List.isEmpty_iff] at hp
  have hauth := (h _ _ c hc).1 firstNeigh hp.1
  rw [hp.2] at hauth
  exact not_authentic_nil hauth

/-! ## Links -/

/-- In every run, a link that came up in a guarded way has been authenticated: at the joiner by a
frame that decrypted under the key it has, after the router's signature; at the router after the
joiner's signature or its resumption. -/
theorem link_authentic {ident : Identity} {c : Node cfg} (h : Reachable psa ident c)
    {i : Fin cfg.maxNeighbors} (hl : (c.neigh i).state = .linked) :
    ∃ u, (c.neigh i).histUp = some u ∧ (u.Guarded → u.Authentic) :=
  (h.advances.trusted (Node.boot_trusted ident)).2 i hl

/-- How the link of the first neighbour came up, in the cases of interest. -/
def firstUp (c : Node .default) (p : LinkUp → Bool) : Bool :=
  decide ((c.neigh firstNeigh).state = .linked) && (c.neigh firstNeigh).histUp.any p

theorem firstUp_spec {c : Node .default} {p : LinkUp → Bool} (h : firstUp c p = true) :
    (c.neigh firstNeigh).state = .linked ∧
      ∃ u, (c.neigh firstNeigh).histUp = some u ∧ p u = true := by
  simp only [firstUp, Bool.and_eq_true, decide_eq_true_eq] at h
  cases hu : (c.neigh firstNeigh).histUp with
  | none => simp [hu] at h
  | some u => exact ⟨h.1, u, rfl, by simpa [hu] using h.2⟩

theorem link_authentic_joining :
    ∃ (c : Node .default) (u : LinkUp), (c.neigh firstNeigh).state = .linked ∧
      (c.neigh firstNeigh).histUp = some u ∧ u.viaFrame = true ∧ u.Authentic := by
  obtain ⟨c, hc, hp⟩ := exists_reachable Psa.plain (plainIdent 1 1) joiningRun
    (fun c : Node .default => firstUp c fun u =>
      u.viaFrame && u.secured && u.joiner && decide (u.txType = .joinCfm)) (by decide +kernel)
  obtain ⟨hl, u, hu, hp⟩ := firstUp_spec hp
  simp only [Bool.and_eq_true, decide_eq_true_eq] at hp
  obtain ⟨u', hu', hauth⟩ := link_authentic hc hl
  rw [hu] at hu'
  cases hu'
  exact ⟨c, u, hl, hu, hp.1.1.1, hauth fun _ => ⟨hp.1.1.2, hp.1.2, fun _ => hp.2⟩⟩

/-- A `JOIN_REQ` that is never completed, then a `JOIN_ACK` in the clear. -/
def unsecuredRun : List (Oracle × Input) :=
  [(calm 1, .start), (calm 2, .schedWork), (calm 3, .tick 16000), (calm 3, .granted),
    (calm 3, .tick 5000),
    (calm 4, .rxDone (plainFrag .joinReq 1 2 replayedReq 0)),
    (calm 4, .rxDone (plainFrag .joinAck 1 2
      (linkParamsFill (calm 2) (Node.boot .default (plainIdent 2 2))).encode 0)),
    (calm 5, .rxWork), (calm 6, .rxWork)]

/-- A router's link comes up on a `JOIN_ACK` in the clear, with no key at all. -/
theorem not_link_authentic_unsecured :
    ¬ ∀ (psa : Psa) (ident : Identity) (c : Node .default), Reachable psa ident c →
      ∀ i, (c.neigh i).state = .linked → ∃ u, (c.neigh i).histUp = some u ∧ u.Authentic := by
  intro h
  obtain ⟨c, hc, hp⟩ := exists_reachable Psa.plain (plainIdent 1 1) unsecuredRun
    (fun c : Node .default => firstUp c fun u =>
      u.viaFrame && !u.hasKey) (by decide +kernel)
  obtain ⟨hl, u, hu, hp⟩ := firstUp_spec hp
  simp only [Bool.and_eq_true, Bool.not_eq_true'] at hp
  obtain ⟨u', hu', hauth⟩ := h _ _ c hc firstNeigh hl
  rw [hu] at hu'
  cases hu'
  rw [LinkUp.Authentic, if_pos hp.1] at hauth
  exact absurd hauth.2.1 (by simp [hp.2])

end LockGrid
