import LockGrid.Freight
import LockGrid.Subrates

/-!
# Downward routes as leases

Who claimed what is in the table of routes, and when. A route is a lease that its next hop took
out, and renews; the table has one for each destination.
-/
namespace LockGrid

variable {cfg : Config} {psa : Psa} {ident : Identity} {c c' d : Node cfg} {o : Oracle}

/-! ## One route for each destination -/

/-- No destination has two routes, and a route to nowhere is blank. -/
structure Node.Tidy (c : Node cfg) : Prop where
  single : ∀ j k, (c.net.routes j).dst ≠ addrInvalid →
    (c.net.routes j).dst = (c.net.routes k).dst → j = k
  blank : ∀ k, (c.net.routes k).dst = addrInvalid → c.net.routes k = {}

theorem Node.boot_tidy (ident : Identity) : (Node.boot cfg ident).Tidy :=
  ⟨fun _ _ hj => absurd rfl hj, fun _ _ => rfl⟩

theorem Stocked.tidy (h : Stocked c c') (hc : c.Tidy) : c'.Tidy := by
  have hkept : ∀ k, (c'.net.routes k).dst ≠ addrInvalid → c'.net.routes k = c.net.routes k := by
    intro k hk
    rcases h.routes k with heq | hblank
    · exact heq
    · rw [hblank] at hk
      exact absurd rfl hk
  constructor
  · intro j k hj hjk
    have hk : (c'.net.routes k).dst ≠ addrInvalid := by rwa [← hjk]
    have hjsame := hkept j hj
    have hksame := hkept k hk
    rw [hjsame] at hj hjk
    rw [hksame] at hjk
    exact hc.single j k hj hjk
  · intro k hk
    rcases h.routes k with heq | hblank
    · rw [heq] at hk ⊢
      exact hc.blank k hk
    · exact hblank

theorem routeFind_some {k : Fin cfg.maxRoutes} {dst : Addr} (h : routeFind c dst = some k) :
    (c.net.routes k).dst = dst := by
  have hk := List.find?_some h
  simpa using hk

theorem routeFind_none {dst : Addr} (h : routeFind c dst = none) (k : Fin cfg.maxRoutes) :
    (c.net.routes k).dst ≠ dst := by
  have hk := List.find?_eq_none.mp h k (List.mem_finRange k)
  simpa using hk

/-- What `lg_route_add` does to the table: nothing, or it writes the one route to `dst`. -/
theorem lgRouteAdd_cases (hc : c.Tidy) (dst via : Addr) (hops : UInt8) :
    lgRouteAdd c dst via hops = c ∨
      ∃ k, dst ≠ addrInvalid ∧ dst ≠ c.ident.addr ∧
        (∀ j, (c.net.routes j).dst = dst → j = k) ∧
        ((c.net.routes k).dst = dst ∧ c.nowUs < (c.net.routes k).expiryUs ∧
            (c.net.routes k).hops < hops ∧
            lgRouteAdd c dst via hops = setRoute c k
              { c.net.routes k with expiryUs := c.nowUs + routeLifetimeUs } ∨
          lgRouteAdd c dst via hops =
            setRoute c k ⟨dst, via, hops, c.nowUs + routeLifetimeUs⟩) := by
  unfold lgRouteAdd
  split
  · exact .inl rfl
  · next hdst =>
    simp only [not_or] at hdst
    have honly : ∀ k, (routeFind c dst).or (routeVictim c) = some k →
        ∀ j, (c.net.routes j).dst = dst → j = k := by
      intro k hk j hj
      cases hfind : routeFind c dst with
      | some f =>
        rw [hfind, Option.some_or] at hk
        cases hk
        refine hc.single j k ?_ ?_
        · rw [hj]
          exact hdst.1
        · rw [hj, routeFind_some hfind]
      | none => exact absurd hj (routeFind_none hfind j)
    split
    · exact .inl rfl
    · next k hk =>
      refine .inr ⟨k, hdst.1, hdst.2, honly k hk, ?_⟩
      dsimp only
      split
      · next hshorter => exact .inl ⟨hshorter.1, hshorter.2.1, hshorter.2.2, rfl⟩
      · exact .inr rfl

theorem setRoute_self (c : Node cfg) (k : Fin cfg.maxRoutes) (r : Route) :
    (setRoute c k r).net.routes k = r := by
  simp [setRoute]

theorem setRoute_others {j k : Fin cfg.maxRoutes} (hj : j ≠ k) (c : Node cfg) (r : Route) :
    (setRoute c k r).net.routes j = c.net.routes j := by
  simp [setRoute, hj]

theorem setRoute_tidy {k : Fin cfg.maxRoutes} {r : Route} (hc : c.Tidy)
    (hr : r.dst ≠ addrInvalid) (honly : ∀ j, (c.net.routes j).dst = r.dst → j = k) :
    (setRoute c k r).Tidy := by
  constructor
  · intro j j' hj hjj
    by_cases hjk : j = k <;> by_cases hjk' : j' = k
    · rw [hjk, hjk']
    · rw [hjk, setRoute_self, setRoute_others hjk'] at hjj
      exact absurd (honly j' hjj.symm) hjk'
    · rw [hjk', setRoute_self, setRoute_others hjk] at hjj
      exact absurd (honly j hjj) hjk
    · rw [setRoute_others hjk] at hj hjj
      rw [setRoute_others hjk'] at hjj
      exact hc.single j j' hj hjj
  · intro j hj
    by_cases hjk : j = k
    · rw [hjk, setRoute_self] at hj
      exact absurd hj hr
    · rw [setRoute_others hjk] at hj ⊢
      exact hc.blank j hj

theorem lgRouteAdd_tidy (hc : c.Tidy) (dst via : Addr) (hops : UInt8) :
    (lgRouteAdd c dst via hops).Tidy := by
  rcases lgRouteAdd_cases hc dst via hops with h | ⟨k, hdst, -, honly, ⟨hk, -, -, h⟩ | h⟩ <;> rw [h]
  · exact hc
  · refine setRoute_tidy hc ?_ ?_
    · dsimp only
      rwa [hk]
    · dsimp only
      rwa [hk]
  · exact setRoute_tidy hc hdst honly

theorem register_tidy (via : Addr) (hops : UInt8) (dests : List Addr) :
    ∀ c : Node cfg, c.Tidy → (c.register via hops dests).Tidy := by
  induction dests with
  | nil => exact fun c hc => hc
  | cons a dests ih => exact fun c hc => ih _ (lgRouteAdd_tidy hc a via hops)

theorem Call.registered_tidy (k : Call cfg) (hc : k.node.Tidy) : k.registered.Tidy := by
  unfold Call.registered
  split
  · exact register_tidy _ _ _ _ hc
  · exact hc

/-- In every run no destination has two routes. -/
theorem ReachableMeeting.tidy {K : Call cfg → Prop} (h : ReachableMeeting psa ident K c) :
    c.Tidy :=
  h.keeps (Node.boot_tidy ident) (fun hs hc => hs.stock.tidy hc)
    fun k _ _ hf hr hc => (Call.result_stocked hf hr).tidy (k.registered_tidy hc)

/-! ## Who vouches for a route -/

/-- At some time the node at `via` claimed to reach `dst`. -/
structure Claim where
  via : Addr
  dst : Addr
  atUs : ℕ
  deriving DecidableEq

/-- What a call hears claimed. -/
def Call.claims (k : Call cfg) : List Claim :=
  k.listing.elim [] fun l => l.dests.map fun a => ⟨l.via, a, k.node.nowUs⟩

/-- A route is blank, or runs from a claim of its next hop. -/
def Route.Vouched (log : List Claim) (r : Route) : Prop :=
  r = {} ∨ ∃ cl ∈ log, cl.via = r.nextHop ∧ cl.dst = r.dst ∧
    r.expiryUs = cl.atUs + routeLifetimeUs

def Node.Vouched (log : List Claim) (c : Node cfg) : Prop :=
  ∀ k, (c.net.routes k).Vouched log

theorem Node.Vouched.mono {log log' : List Claim} (hc : c.Vouched log)
    (h : ∀ cl ∈ log, cl ∈ log') : c.Vouched log' := by
  intro k
  rcases hc k with hblank | ⟨cl, hmem, hcl⟩
  · exact .inl hblank
  · exact .inr ⟨cl, h cl hmem, hcl⟩

theorem Stocked.vouched {log : List Claim} (h : Stocked c c') (hc : c.Vouched log) :
    c'.Vouched log := by
  intro k
  rcases h.routes k with heq | hblank
  · rw [heq]
    exact hc k
  · exact .inl hblank

/-- The table has a route to `dst` that is in force, shorter, and over another neighbour. -/
def Node.disputed (c : Node cfg) (dst via : Addr) (hops : UInt8) : Bool :=
  dst ≠ addrInvalid ∧ dst ≠ c.ident.addr ∧
    ∃ k, (c.net.routes k).dst = dst ∧ c.nowUs < (c.net.routes k).expiryUs ∧
      (c.net.routes k).hops < hops ∧ (c.net.routes k).nextHop ≠ via

/-- None of `dests` is disputed as it comes to be registered. -/
def Node.undisputed (via : Addr) (hops : UInt8) : Node cfg → List Addr → Bool
  | _, [] => true
  | c, a :: dests =>
    !c.disputed a via hops && Node.undisputed via hops (lgRouteAdd c a via hops) dests

/-- No neighbour claims a destination to which a shorter route over another is in force. -/
def Call.Undisputed (k : Call cfg) : Prop :=
  match k.listing, k.registersOver with
  | some l, some hops => Node.undisputed l.via hops k.node l.dests = true
  | _, _ => True

instance (k : Call cfg) : Decidable k.Undisputed := by
  unfold Call.Undisputed
  rcases k.listing with _ | l <;> rcases k.registersOver with _ | hops <;> infer_instance

section Registration

variable {log : List Claim} {via : Addr} {hops : UInt8} {dst : Addr}

theorem setRoute_vouched {k : Fin cfg.maxRoutes} {r : Route} (hc : c.Vouched log)
    (hr : r.Vouched log) : (setRoute c k r).Vouched log := by
  intro j
  by_cases hj : j = k
  · rw [hj, setRoute_self]
    exact hr
  · rw [setRoute_others hj]
    exact hc j

theorem lgRouteAdd_vouched (ht : c.Tidy) (hc : c.Vouched log)
    (hclaim : Claim.mk via dst c.nowUs ∈ log) (hd : c.disputed dst via hops = false) :
    (lgRouteAdd c dst via hops).Vouched log := by
  rcases lgRouteAdd_cases ht dst via hops with h | ⟨k, hdst, hself, -, hcase⟩
  · rw [h]
    exact hc
  · rcases hcase with ⟨hk, hlive, hshort, h⟩ | h
    · have hvia : (c.net.routes k).nextHop = via := by
        by_contra hvia
        have hdisputed : c.disputed dst via hops = true :=
          decide_eq_true ⟨hdst, hself, k, hk, hlive, hshort, hvia⟩
        rw [hd] at hdisputed
        cases hdisputed
      rw [h]
      exact setRoute_vouched hc (.inr ⟨_, hclaim, hvia.symm, hk.symm, rfl⟩)
    · rw [h]
      exact setRoute_vouched hc (.inr ⟨_, hclaim, rfl, rfl, rfl⟩)

theorem lgRouteAdd_nowUs (c : Node cfg) (dst via : Addr) (hops : UInt8) :
    (lgRouteAdd c dst via hops).nowUs = c.nowUs :=
  congrArg (fun p => p.1.2.1) (lgRouteAdd_stance c dst via hops)

theorem register_vouched (dests : List Addr) :
    ∀ c : Node cfg, c.Tidy → c.Vouched log → (∀ a ∈ dests, Claim.mk via a c.nowUs ∈ log) →
      Node.undisputed via hops c dests = true → (c.register via hops dests).Vouched log := by
  induction dests with
  | nil => exact fun c _ hc _ _ => hc
  | cons a dests ih =>
    intro c ht hc hclaims hu
    simp only [Node.undisputed, Bool.and_eq_true, Bool.not_eq_true'] at hu
    have hone := lgRouteAdd_vouched ht hc (hclaims a (by simp)) hu.1
    refine ih _ (lgRouteAdd_tidy ht a via hops) hone (fun b hb => ?_) hu.2
    rw [lgRouteAdd_nowUs]
    exact hclaims b (by simp [hb])

end Registration

theorem Call.registered_vouched {log : List Claim} (k : Call cfg) (ht : k.node.Tidy)
    (hc : k.node.Vouched log) (hclaims : ∀ cl ∈ k.claims, cl ∈ log) (hu : k.Undisputed) :
    k.registered.Vouched log := by
  unfold Call.Undisputed at hu
  unfold Call.claims at hclaims
  unfold Call.registered
  cases hl : k.listing with
  | none => exact hc
  | some l =>
    rw [hl] at hu hclaims
    cases hr : k.registersOver with
    | none => exact hc
    | some hops =>
      rw [hr] at hu
      refine register_vouched l.dests k.node ht hc (fun a ha => hclaims _ ?_) hu
      exact List.mem_map.mpr ⟨a, ha, rfl⟩

/-! ## Runs -/

/-- The states of the runs whose calls meet `K`, with all that was claimed in the run. -/
inductive RunClaiming (psa : Psa) (ident : Identity) (K : Call cfg → Prop) :
    List Claim → Node cfg → Prop
  | boot : RunClaiming psa ident K [] (Node.boot cfg ident)
  | step {log : List Claim} {c c' : Node cfg} {inp : Input} {o : Oracle}
    (h : RunClaiming psa ident K log c) (he : Enabled c inp)
    (hk : ∀ k ∈ calls psa o c inp, K k) (hp : perform psa o c inp = some c') :
    RunClaiming psa ident K (log ++ (calls psa o c inp).flatMap Call.claims) c'

theorem RunClaiming.reachable {K : Call cfg → Prop} {log : List Claim}
    (h : RunClaiming psa ident K log c) : ReachableMeeting psa ident K c := by
  induction h with
  | boot => exact .refl
  | step _ he hk hp ih => exact ih.tail ⟨_, _, he, hk, hp⟩

theorem RunClaiming.vouched {log : List Claim} (h : RunClaiming psa ident Call.Undisputed log c) :
    c.Vouched log := by
  induction h with
  | boot => exact fun _ => .inl rfl
  | @step log c c' inp o h he hk hp ih =>
    have hreach := h.reachable
    have hdoes := perform_does hreach.reachable.hsUnlinked hp
    have hboth := hdoes.keeps
      (P := fun d => d.Tidy ∧ d.Vouched (log ++ (calls psa o c inp).flatMap Call.claims))
      ⟨hreach.tidy, ih.mono fun cl hcl => List.mem_append_left _ hcl⟩
      (fun hs hd => ⟨hs.stock.tidy hd.1, hs.stock.vouched hd.2⟩)
      fun k hmem d hf hr hd => by
        have hst := Call.result_stocked hf hr
        have hclaims : ∀ cl ∈ k.claims, cl ∈ log ++ (calls psa o c inp).flatMap Call.claims := by
          intro cl hcl
          exact List.mem_append_right _ (List.mem_flatMap.mpr ⟨k, hmem, hcl⟩)
        exact ⟨hst.tidy (k.registered_tidy hd.1),
          hst.vouched (k.registered_vouched hd.1 hd.2 hclaims (hk k hmem))⟩
    exact hboth.2

/-- In every run in which no claim is disputed: the next hop of each route in force claimed its
destination within the lifetime of a route, and no destination has two routes. -/
theorem routes_fresh {log : List Claim} (h : RunClaiming psa ident Call.Undisputed log c) :
    (∀ k, c.nowUs < (c.net.routes k).expiryUs →
      ∃ cl ∈ log, cl.via = (c.net.routes k).nextHop ∧ cl.dst = (c.net.routes k).dst ∧
        c.nowUs < cl.atUs + routeLifetimeUs) ∧
    ∀ j k, (c.net.routes j).dst ≠ addrInvalid →
      (c.net.routes j).dst = (c.net.routes k).dst → j = k := by
  refine ⟨fun k hlive => ?_, h.reachable.tidy.single⟩
  rcases h.vouched k with hblank | ⟨cl, hmem, hvia, hdst, hexpiry⟩
  · rw [hblank] at hlive
    exact absurd hlive (Nat.not_lt_zero _)
  · exact ⟨cl, hmem, hvia, hdst, by omega⟩

/-! ## Two runs -/

section

variable (psa : Psa) (K : Call cfg → Prop) [DecidablePred K]

/-- Take the given steps while all their calls meet `K`, and note what is claimed in them. -/
def runClaiming (st : List Claim × Node cfg) :
    List (Oracle × Input) → Option (List Claim × Node cfg)
  | [] => some st
  | (o, inp) :: rest =>
    if Enabled st.2 inp ∧ ∀ k ∈ calls psa o st.2 inp, K k then
      (perform psa o st.2 inp).bind fun c' =>
        runClaiming (st.1 ++ (calls psa o st.2 inp).flatMap Call.claims, c') rest
    else none

variable {psa K}

theorem runClaiming_steps {st st' : List Claim × Node cfg} {inputs : List (Oracle × Input)}
    (h : RunClaiming psa ident K st.1 st.2) (hr : runClaiming psa K st inputs = some st') :
    RunClaiming psa ident K st'.1 st'.2 := by
  induction inputs generalizing st with
  | nil =>
    cases hr
    exact h
  | cons oi rest ih =>
    obtain ⟨o, inp⟩ := oi
    rw [runClaiming] at hr
    split at hr
    · next he =>
      obtain ⟨d, hd, hr⟩ := Option.bind_eq_some_iff.mp hr
      exact ih (.step h he.1 he.2 hd) hr
    · cases hr

theorem exists_runClaiming (psa : Psa) (ident : Identity) (inputs : List (Oracle × Input))
    (p : List Claim × Node cfg → Bool)
    (h : (runClaiming psa K ([], Node.boot cfg ident) inputs).any p = true) :
    ∃ log c, RunClaiming psa ident K log c ∧ p (log, c) = true := by
  cases hr : runClaiming psa K ([], Node.boot cfg ident) inputs with
  | none => simp [hr] at h
  | some st => exact ⟨st.1, st.2, runClaiming_steps .boot hr, by simpa [hr] using h⟩

end

/-- What node 3 answers to a `JOIN_REQ` of node 1, as in `rspTranscript`. -/
def rspTranscript3 : Bytes :=
  transcriptMsg 7 1 3 (List.replicate nonceLen 5) (List.replicate nonceLen 6)
    (List.replicate ecPubLen 5) (List.replicate ecPubLen 6)

def rspMsg3 : Bytes :=
  List.replicate nonceLen 6 ++ List.replicate ecPubLen 6 ++ plainCert 3 (plainPub 3) ++
    plainSign (plainPub 3) rspTranscript3

def rspKey3 : Bytes :=
  Psa.plain.hkdf (List.replicate ecPrivLen 3) rspTranscript3 infoLink

/-- Scanning again and again while attached. -/
def watchful : Tuning :=
  { tuningInit .default with
    beaconIntervalUs := 10000000, scanAttachedUs := 30000, scanUnattachedUs := 10000
    scanSeekingUs := 10000 }

/-- Node 1 joins node 2 in one scan and node 3 in the next, in which two control frames arrive
besides; it has taken neither of these out of the ring. -/
def bothJoined (ctrl2 ctrl3 : Bytes) : List (Oracle × Input) :=
  [(calm 1, Input.start), (calm 1, .tuningSet watchful), (calm 2, .schedWork),
    (calm 3, .tick 16000), (calm 3, .granted), (calm 3, .tick 5000)] ++
    ((joiningRun.drop 5).take 4) ++
    (calm 4, Input.rxDone (sealedFrag .joinAck 1 2 rspKey 1 pacedParams.encode)) ::
    (calm 5, .rxWork) :: List.replicate 4 (calm 6, Input.rxWork) ++
    [(calm 6, Input.finishWork (calm 6)), (calm 6, .tick 24000), (calm 6, .granted),
      (calm 6, .tick 5000), (calm 4, .rxDone (rankedBeacon 8 8000 3)),
      (calm 4, .rxDone (plainFrag .joinRsp 1 3 rspMsg3 0)),
      (calm 4, .rxDone (plainFrag .joinRsp 1 3 rspMsg3 1)),
      (calm 4, .rxDone (plainFrag .joinRsp 1 3 rspMsg3 2)),
      (calm 4, .rxDone (sealedFrag .joinAck 1 3 rspKey3 1 pacedParams.encode)),
      (calm 6, .rxDone (sealedFrame .ctrl 1 2 rspKey 2 ctrl2)),
      (calm 6, .rxDone (sealedFrame .ctrl 1 3 rspKey3 2 ctrl3)), (calm 5, .rxWork)] ++
    List.replicate 4 (calm 6, Input.rxWork)

/-- Node 1 has the uplink. Node 2 registers node 9; 1 ms later node 3 advertises a link with
`dst`, and 120 s go by, less half a millisecond. -/
def claimsRun (dst : UInt8) : List (Oracle × Input) :=
  bothJoined [ctrlRouteReg, 1, 9, 0] [ctrlRouteAdv, 16, 0, 1, 1, dst, 0, 16, 0] ++
    [(calm 6, Input.backhaulSet true), (calm 6, .rxWork), (calm 6, .tick 1000), (calm 6, .rxWork),
      (calm 6, .tick 119999500)]

/-- Node 8, which only node 3 has claimed, is reached over node 3. -/
theorem routes_fresh_two :
    ∃ log, ∃ c : Node .default, RunClaiming Psa.plain (plainIdent 1 1) Call.Undisputed log c ∧
      ∃ k, (c.net.routes k).dst = 8 ∧ (c.net.routes k).nextHop = 3 ∧
        c.nowUs < (c.net.routes k).expiryUs ∧
        ∃ cl ∈ log, cl.via = 3 ∧ cl.dst = 8 ∧ c.nowUs < cl.atUs + routeLifetimeUs := by
  obtain ⟨log, c, hc, hp⟩ := exists_runClaiming (K := Call.Undisputed) Psa.plain (plainIdent 1 1)
    (claimsRun 8) (fun st : List Claim × Node .default => decide (∃ k,
      (st.2.net.routes k).dst = 8 ∧ (st.2.net.routes k).nextHop = 3 ∧
        st.2.nowUs < (st.2.net.routes k).expiryUs)) (by decide +kernel)
  obtain ⟨k, hdst, hvia, hlive⟩ := of_decide_eq_true hp
  obtain ⟨cl, hmem, hv, hd, hat⟩ := (routes_fresh hc).1 k hlive
  exact ⟨log, c, hc, k, hdst, hvia, hlive, cl, hmem, hv.trans hvia, hd.trans hdst, hat⟩

/-- Node 3 renews the lease of node 2, which has not claimed node 9 for more than 120 s. -/
theorem not_routes_fresh_disputed :
    ¬ ∀ (psa : Psa) (ident : Identity) (log : List Claim) (c : Node .default),
      RunClaiming psa ident (fun _ => True) log c →
      (∀ k, c.nowUs < (c.net.routes k).expiryUs →
        ∃ cl ∈ log, cl.via = (c.net.routes k).nextHop ∧ cl.dst = (c.net.routes k).dst ∧
          c.nowUs < cl.atUs + routeLifetimeUs) ∧
      ∀ j k, (c.net.routes j).dst ≠ addrInvalid →
        (c.net.routes j).dst = (c.net.routes k).dst → j = k := by
  intro h
  obtain ⟨log, c, hc, hp⟩ := exists_runClaiming (K := fun _ => True) Psa.plain (plainIdent 1 1)
    (claimsRun 9) (fun st : List Claim × Node .default => decide (∃ k,
      st.2.nowUs < (st.2.net.routes k).expiryUs ∧ ∀ cl ∈ st.1,
        cl.via = (st.2.net.routes k).nextHop → cl.dst = (st.2.net.routes k).dst →
          cl.atUs + routeLifetimeUs < st.2.nowUs)) (by decide +kernel)
  obtain ⟨k, hlive, hold⟩ := of_decide_eq_true hp
  obtain ⟨cl, hmem, hvia, hdst, hat⟩ := (h _ _ log c hc).1 k hlive
  have hpast : cl.atUs + routeLifetimeUs < c.nowUs := hold cl hmem hvia hdst
  omega

end LockGrid
