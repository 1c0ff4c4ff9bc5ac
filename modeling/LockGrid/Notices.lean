import LockGrid.Entries
import LockGrid.Uplinks

/-!
# What the application is told about its route

What the functions that write to routing hand to `lg_notify`, in order, and what the application
sees of its route before and after each call of a step.
-/
namespace LockGrid

variable {cfg : Config}

/-- `enum lg_evt`, but for what a handshake reports. -/
inductive Evt
  | linkUp
  | linkDown
  | parentChanged
  | routeLost
  | roleChanged
  deriving DecidableEq, Repr

structure Notice where
  evt : Evt
  peer : Addr
  deriving DecidableEq, Repr

/-- Of `lg_route_recompute` itself. -/
def recomputeNotices (c : Node cfg) : List Notice :=
  if c.net.role = .backhaul then []
  else if c.net.rank ≠ rankInfinite ∧ (lgRouteRecompute c).2.net.rank = rankInfinite then
    [⟨.routeLost, addrInvalid⟩]
  else []

/-- Of a recomputation whose caller looks at the result. -/
def changedNotices (c : Node cfg) : List Notice :=
  recomputeNotices c ++
    if (lgRouteRecompute c).1 then [⟨.parentChanged, lgParent (lgRouteRecompute c).2⟩] else []

/-- The node as `apply` of `lg_role.c` has the routes recomputed. -/
def inRole (c : Node cfg) (want : Role) : Node cfg :=
  { c with net := { c.net with role := want, roleChangedUs := c.nowUs } }

/-- Of `apply` of `lg_role.c`, which discards the result of the recomputation. -/
def applyNotices (c : Node cfg) (want : Role) : List Notice :=
  if want = c.net.role then []
  else recomputeNotices (inRole c want) ++ [⟨.roleChanged, c.ident.addr⟩]

/-- The role `lg_role_evaluate` applies, if any. -/
def roleWanted (c : Node cfg) : Option Role :=
  if !c.started then none
  else if c.net.backhaulActive then some .backhaul
  else if c.net.role = .backhaul then some .router
  else if c.net.roleChangedUs ≠ 0 ∧ c.nowUs - c.net.roleChangedUs < roleDwellUs then none
  else if c.net.role = .leaf then
    if !lgHasRoute c then none
    else if unroutedNearby c || routersHeard c < cfg.routerDensityTarget then some .router
    else none
  else if hasChildren c || unroutedNearby c then none
  else if cfg.routerDensityTarget < routersHeard c then some .leaf
  else none

def roleNotices (c : Node cfg) : List Notice :=
  match roleWanted c with
  | none => []
  | some want => applyNotices c want

/-- The node as `lg_role_evaluate` finds it after a link came up or went down. -/
def linksRecomputed (c : Node cfg) : Node cfg :=
  { (lgRouteRecompute c).2 with net :=
    { (lgRouteRecompute c).2.net with linkChangeUs := (lgRouteRecompute c).2.nowUs } }

def linksChangedNotices (c : Node cfg) (evt : Evt) (peer : Addr) : List Notice :=
  changedNotices c ++ [⟨evt, peer⟩] ++ roleNotices (linksRecomputed c)

/-- The node as `lg_link_establish` has the routes recomputed. -/
def comeUp (c : Node cfg) (i : Fin cfg.maxNeighbors) (pp : LinkParams) (s : Schedule) : Node cfg :=
  let n := c.neigh i
  let c := c.setNeigh i
    { n with state := .linked, sched := s, tx := { n.tx with txPending := false } }
  let c := c.setView i
    { c.view i with peerRank := pp.rank.toNat, role := pp.role, consecMisses := 0 }
  lgNeighUpdateCost c i

def establishNotices (c : Node cfg) (i : Fin cfg.maxNeighbors) (pp : LinkParams)
    (initiator : Bool) : List Notice :=
  match anchorCatchUp cfg c.nowUs catchUpFuel
      (startSchedule c pp initiator (c.neigh i).sched) with
  | none => []
  | some s => linksChangedNotices (comeUp c i pp s) .linkUp (c.neigh i).addr

/-- The node as `lg_link_down` has the routes recomputed. -/
def goneDown (c : Node cfg) (i : Fin cfg.maxNeighbors) : Node cfg :=
  let n := c.neigh i
  let hist := { c.hist with
    live := destroyed c.hist.live n.keys
    keylessDowns := c.hist.keylessDowns + if n.keys.hasKey then 0 else 1 }
  let c := { c.setNeigh i n.down with hist := hist }.note i (.down n.keys.linkKey)
  let c := c.setView i { c.view i with isParent := false }
  lgRouteFlushVia c n.addr

def downNotices (c : Node cfg) (i : Fin cfg.maxNeighbors) : List Notice :=
  if (c.neigh i).state ≠ .linked then []
  else linksChangedNotices (goneDown c i) .linkDown (c.neigh i).addr

/-- The node as `lg_route_handle_adv` has the routes recomputed. -/
def advHeard (c : Node cfg) (i : Fin cfg.maxNeighbors) (buf : Bytes) : Node cfg :=
  let peerRank := (getLe16 buf 1).toNat
  let c := c.setView i { c.view i with
    role := getByte buf 3, peerRank := peerRank, routeAdvUs := c.nowUs }
  let count := min (getByte buf 4).toNat ((buf.length - 5) / 4)
  (List.range count).foldl (fun c k =>
    advEntry peerRank (c.neigh i).addr c (getLe16 buf (5 + 4 * k))
      (getLe16 buf (7 + 4 * k)).toNat) c

def advNotices (c : Node cfg) (i : Fin cfg.maxNeighbors) (buf : Bytes) : List Notice :=
  if buf.length < 5 then [] else changedNotices (advHeard c i buf)

/-- The node as `lg_backhaul_set` has its role evaluated. -/
def uplinkSet (c : Node cfg) (up : Bool) : Node cfg :=
  { c with net := { c.net with backhaulActive := up, roleChangedUs := 0 } }

def uplinkNotices (c : Node cfg) (up : Bool) : List Notice :=
  if c.net.backhaulActive = up then []
  else if c.started then roleNotices (uplinkSet c up) else []

/-- The node as `lg_start` has its role evaluated. -/
def started (o : Oracle) (c : Node cfg) : Node cfg :=
  discInit o { c with
    neigh := fun i => { c.neigh i with state := .free }
    txq := fun _ => {}
    msgIdNext := 1
    net := netInit cfg c.nowUs c.net
    hs := {}
    ev := { c.ev with kind := .none }
    running := true
    started := true }

def startNotices (psa : Psa) (o : Oracle) (c : Node cfg) : List Notice :=
  if c.started ∨ c.ident.addr = addrInvalid then []
  else match lgSecCertVerify psa o c.ident c.ident.cert with
  | .error _ => []
  | .ok _ => roleNotices (started o c)

/-- How often the loss of the route is reported. -/
def lost (l : List Notice) : ℕ := l.countP fun n => n.evt = .routeLost

/-- The valid addresses that are reported as the new parent. -/
def adopted (l : List Notice) : List Addr :=
  (l.filter fun n => n.evt = .parentChanged ∧ n.peer ≠ addrInvalid).map Notice.peer

/-- What a call hands to `lg_notify`. -/
def Call.notices (psa : Psa) (k : Call cfg) : List Notice :=
  match k.deed with
  | .establish i pp initiator => establishNotices k.node i pp initiator
  | .down i => downNotices k.node i
  | .adv i buf => advNotices k.node i buf
  | .role => roleNotices k.node
  | .uplink up => uplinkNotices k.node up
  | .start => startNotices psa k.o k.node
  | _ => []

/-- A piece of a step, and what the application is told during it. -/
structure Moment (cfg : Config) where
  before : Node cfg
  after : Node cfg
  notices : List Notice

/-- A step with the given calls, piece by piece: each call, and the steady work before it and
after the last. -/
def moments (psa : Psa) (c : Node cfg) : List (Call cfg) → Node cfg → List (Moment cfg)
  | [], c' => [⟨c, c', []⟩]
  | k :: l, c' =>
    let d := (k.result psa).getD k.node
    ⟨c, k.node, []⟩ :: ⟨k.node, d, k.notices psa⟩ :: moments psa d l c'

/-- The loss of a route that was there. -/
def fall (before after : Bool) : ℕ := if before && !after then 1 else 0

/-- The turn to a parent that is another. -/
def turn (before after : Addr) : List Addr :=
  if after ≠ before ∧ after ≠ addrInvalid then [after] else []

/-! ## The notices follow the code -/

variable {psa : Psa} {ident : Identity} {c c' d : Node cfg} {i : Fin cfg.maxNeighbors} {o : Oracle}

theorem applyRole_eq (o : Oracle) (c : Node cfg) (want : Role) :
    applyRole o c want = if want = c.net.role then c
      else lgDiscRetune o 2 (lgRouteRecompute (inRole c want)).2 := rfl

theorem lgRoleEvaluate_eq (o : Oracle) (c : Node cfg) :
    lgRoleEvaluate o c = match roleWanted c with
      | none => c
      | some want => applyRole o c want := by
  have hpush := apply_ite fun w : Option Role => match w with
    | none => c
    | some want => applyRole o c want
  unfold roleWanted
  simp only [hpush]
  rfl

theorem linksChanged_eq (o : Oracle) (c : Node cfg) :
    linksChanged o c = lgDiscRetune o 7 (lgRoleEvaluate o (linksRecomputed c)) := rfl

theorem lgLinkEstablish_eq_comeUp (o : Oracle) (c : Node cfg) (i : Fin cfg.maxNeighbors)
    (pp : LinkParams) (initiator : Bool) :
    lgLinkEstablish o c i pp initiator =
      (anchorCatchUp cfg c.nowUs catchUpFuel
        (startSchedule c pp initiator (c.neigh i).sched)).map fun s =>
          linksChanged o (comeUp c i pp s) := rfl

theorem lgLinkDown_eq_goneDown (o : Oracle) (c : Node cfg) (i : Fin cfg.maxNeighbors) :
    lgLinkDown o c i = if (c.neigh i).state ≠ .linked then c
      else linksChanged o (goneDown c i) := lgLinkDown_eq o c i

theorem lgRouteHandleAdv_eq (o : Oracle) (c : Node cfg) (i : Fin cfg.maxNeighbors) (buf : Bytes) :
    lgRouteHandleAdv o c i buf = if buf.length < 5 then c
      else gossipConsiderSeeking o (lgRouteRecompute (advHeard c i buf)).2 := rfl

theorem lgBackhaulSet_eq (o : Oracle) (c : Node cfg) (up : Bool) :
    lgBackhaulSet o c up = if c.net.backhaulActive = up then c
      else if c.started then lgRoleEvaluate o (uplinkSet c up)
      else { c with net := { c.net with backhaulActive := up } } := rfl

theorem lgStart_eq (psa : Psa) (o : Oracle) (c : Node cfg) :
    lgStart psa o c = if c.started ∨ c.ident.addr = addrInvalid then c
      else match lgSecCertVerify psa o c.ident c.ident.cert with
      | .error _ => c
      | .ok _ => lgDiscBeaconFinish psa o (lgRoleEvaluate o (started o c)) := rfl

/-! ## The role and the uplink -/

/-- A backhaul has rank 0, and the started node is one exactly if its uplink is up. -/
@[mk_iff]
structure Node.Seated (c : Node cfg) : Prop where
  top : c.net.role = .backhaul → c.net.rank = 0
  settled : c.started = true → (c.net.role = .backhaul ↔ c.net.backhaulActive = true)

/-- Role, rank and uplink are as they were, and the node was started if it is. -/
structure Sits (c c' : Node cfg) : Prop where
  role : c'.net.role = c.net.role
  rank : c'.net.rank = c.net.rank
  active : c'.net.backhaulActive = c.net.backhaulActive
  started : c'.started = true → c.started = true

theorem Sits.of_posture (h : c'.posture = c.posture) : Sits c c' := by
  obtain ⟨hstarted, -, hrole, hrank, -, hactive, -⟩ := posture_eq h
  exact ⟨hrole, hrank, hactive, fun hs => hstarted ▸ hs⟩

theorem Sits.of_stance (h : c'.stance = c.stance) : Sits c c' := .of_posture (congrArg Prod.fst h)

theorem Sits.trans {c'' : Node cfg} (h : Sits c c') (h' : Sits c' c'') : Sits c c'' :=
  ⟨h'.role.trans h.role, h'.rank.trans h.rank, h'.active.trans h.active,
    fun hs => h.started (h'.started hs)⟩

/-- Nor has the time of the last change of role been set, and time has not gone back. -/
structure Abides (c c' : Node cfg) : Prop extends Sits c c' where
  changedUs : c'.net.roleChangedUs = c.net.roleChangedUs
  now : c.nowUs ≤ c'.nowUs

theorem Abides.of_posture (h : c'.posture = c.posture) : Abides c c' := by
  obtain ⟨-, hnow, -, -, -, -, hchanged⟩ := posture_eq h
  exact ⟨.of_posture h, hchanged, hnow.ge⟩

theorem Abides.of_stance (h : c'.stance = c.stance) : Abides c c' :=
  .of_posture (congrArg Prod.fst h)

theorem Abides.trans {c'' : Node cfg} (h : Abides c c') (h' : Abides c' c'') : Abides c c'' :=
  ⟨h.toSits.trans h'.toSits, h'.changedUs.trans h.changedUs, h.now.trans h'.now⟩

theorem Node.Seated.sits (hc : c.Seated) (h : Sits c c') : c'.Seated := by
  refine ⟨fun hr => ?_, fun hs => ?_⟩
  · rw [h.rank]
    exact hc.top (h.role ▸ hr)
  · rw [h.role, h.active]
    exact hc.settled (h.started hs)

theorem Sits.hasRoute (h : Sits c c') : lgHasRoute c' = lgHasRoute c := by
  rw [lgHasRoute, lgHasRoute, h.role, h.rank]

theorem setHs_hasRoute (c : Node cfg) (hs : Hs cfg) : lgHasRoute (c.setHs hs) = lgHasRoute c :=
  rfl

theorem lgRouteRecompute_net (c : Node cfg) :
    (lgRouteRecompute c).2.net.role = c.net.role ∧
      (lgRouteRecompute c).2.net.backhaulActive = c.net.backhaulActive ∧
      (lgRouteRecompute c).2.started = c.started := by
  unfold lgRouteRecompute
  split
  · exact ⟨rfl, rfl, rfl⟩
  · exact ⟨rfl, rfl, rfl⟩

theorem lgRouteRecompute_backhaul (h : c.net.role = .backhaul) :
    (lgRouteRecompute c).1 = false ∧ (lgRouteRecompute c).2.net.rank = 0 ∧
      ∀ i, ((lgRouteRecompute c).2.view i).isParent = false := by
  rw [lgRouteRecompute, if_pos h]
  exact ⟨rfl, rfl, fun _ => rfl⟩

theorem lgRouteRecompute_seated (h : c.Seated) : (lgRouteRecompute c).2.Seated := by
  obtain ⟨hrole, hactive, hstarted⟩ := lgRouteRecompute_net c
  refine ⟨fun hr => (lgRouteRecompute_backhaul (hrole ▸ hr)).2.1, fun hs => ?_⟩
  rw [hrole, hactive]
  exact h.settled (hstarted ▸ hs)

/-- The uplink decides on the role of a backhaul; the others are chosen after the dwell time, a
leaf's only with a route. -/
theorem roleWanted_cases (c : Node cfg) :
    (roleWanted c = none ∧ (c.started = false ∨
      c.net.backhaulActive = false ∧ c.net.role ≠ .backhaul)) ∨
    c.started = true ∧
      (roleWanted c = some .backhaul ∧ c.net.backhaulActive = true ∨
        roleWanted c = some .router ∧ c.net.backhaulActive = false ∧ c.net.role = .backhaul ∨
        ∃ want, roleWanted c = some want ∧ want ≠ .backhaul ∧ c.net.backhaulActive = false ∧
          c.net.role ≠ .backhaul ∧
          ¬ (c.net.roleChangedUs ≠ 0 ∧ c.nowUs - c.net.roleChangedUs < roleDwellUs) ∧
          (c.net.role = .leaf → lgHasRoute c = true)) := by
  generalize hw : roleWanted c = w
  unfold roleWanted at hw
  split_ifs at hw <;> subst hw <;> simp_all

theorem roleWanted_some {want : Role} (h : roleWanted c = some want) :
    c.started = true ∧ (want = .backhaul ↔ c.net.backhaulActive = true) := by
  rcases roleWanted_cases c with ⟨hw, -⟩ | ⟨hs, ⟨hw, hup⟩ | ⟨hw, hup, -⟩ | ⟨_, hw, hne, hup, -⟩⟩ <;>
    rw [hw] at h <;> cases h
  · exact ⟨hs, by simp [hup]⟩
  · exact ⟨hs, by simp [hup]⟩
  · exact ⟨hs, by simp [hup, hne]⟩

theorem roleWanted_none (hs : c.started = true) (h : roleWanted c = none) :
    c.net.backhaulActive = false ∧ c.net.role ≠ .backhaul := by
  rcases roleWanted_cases c with ⟨-, hoff | hquiet⟩ | ⟨-, ⟨hw, -⟩ | ⟨hw, -⟩ | ⟨_, hw, -⟩⟩
  · rw [hs] at hoff
    cases hoff
  · exact hquiet
  all_goals
    rw [hw] at h
    cases h

/-- After its evaluation the role of a started node is what the uplink says. -/
theorem lgRoleEvaluate_role (o : Oracle) (hs : c.started = true) :
    (lgRoleEvaluate o c).net.role = .backhaul ↔
      (lgRoleEvaluate o c).net.backhaulActive = true := by
  rw [lgRoleEvaluate_eq]
  cases hw : roleWanted c with
  | none =>
    obtain ⟨hoff, hrole⟩ := roleWanted_none hs hw
    exact iff_of_false hrole (by simp [hoff])
  | some want =>
    have hwant := (roleWanted_some hw).2
    dsimp only
    rw [applyRole_eq]
    split
    · next heq =>
      rw [← heq]
      exact hwant
    · obtain ⟨hrole, hactive, -⟩ := lgRouteRecompute_net (inRole c want)
      change (lgRouteRecompute (inRole c want)).2.net.role = .backhaul ↔
        (lgRouteRecompute (inRole c want)).2.net.backhaulActive = true
      rw [hrole, hactive]
      exact hwant

theorem lgRoleEvaluate_top (o : Oracle) (ht : c.net.role = .backhaul → c.net.rank = 0) :
    (lgRoleEvaluate o c).net.role = .backhaul → (lgRoleEvaluate o c).net.rank = 0 := by
  rw [lgRoleEvaluate_eq]
  cases roleWanted c with
  | none => exact ht
  | some want =>
    dsimp only
    rw [applyRole_eq]
    split
    · exact ht
    · intro hr
      have hin := (lgRouteRecompute_net (inRole c want)).1
      exact (lgRouteRecompute_backhaul (hin.symm.trans hr)).2.1

/-- Whatever the uplink was before, after the evaluation the node is where it puts it. -/
theorem lgRoleEvaluate_seated (o : Oracle) (hs : c.started = true)
    (ht : c.net.role = .backhaul → c.net.rank = 0) : (lgRoleEvaluate o c).Seated :=
  ⟨lgRoleEvaluate_top o ht, fun _ => lgRoleEvaluate_role o hs⟩

theorem lgRoleEvaluate_stopped (o : Oracle) (hs : c.started = false) : lgRoleEvaluate o c = c := by
  rw [lgRoleEvaluate, if_pos (by rw [hs]; rfl)]

theorem Node.Seated.evaluate (o : Oracle) (h : c.Seated) : (lgRoleEvaluate o c).Seated := by
  cases hs : c.started with
  | false =>
    rw [lgRoleEvaluate_stopped o hs]
    exact h
  | true => exact lgRoleEvaluate_seated o hs h.top

theorem linksChanged_seated (o : Oracle) (h : c.Seated) : (linksChanged o c).Seated := by
  have hd : (linksRecomputed c).Seated := (lgRouteRecompute_seated h).sits (.of_posture rfl)
  exact (hd.evaluate o).sits (.of_posture rfl)

/-! ## Calls and the seat -/

theorem comeUp_rest (c : Node cfg) (i : Fin cfg.maxNeighbors) (pp : LinkParams) (s : Schedule) :
    (comeUp c i pp s).rest = c.rest :=
  (lgNeighUpdateCost_rest _ i).trans (setView_rest rfl)

theorem comeUp_stance (c : Node cfg) (i : Fin cfg.maxNeighbors) (pp : LinkParams) (s : Schedule) :
    (comeUp c i pp s).stance = c.stance := congrArg Prod.fst (comeUp_rest c i pp s)

theorem goneDown_posture (c : Node cfg) (i : Fin cfg.maxNeighbors) :
    (goneDown c i).posture = c.posture := rfl

theorem advHeard_abides (c : Node cfg) (i : Fin cfg.maxNeighbors) (buf : Bytes) :
    Abides c (advHeard c i buf) := by
  have hview : Abides c (c.setView i { c.view i with
      role := getByte buf 3, peerRank := (getLe16 buf 1).toNat, routeAdvUs := c.nowUs }) :=
    .of_posture rfl
  exact hview.trans (.of_stance (foldl_stance _ (fun d k => advEntry_stance _ _ d _ _) _ _))

theorem advHeard_sits (c : Node cfg) (i : Fin cfg.maxNeighbors) (buf : Bytes) :
    Sits c (advHeard c i buf) := (advHeard_abides c i buf).toSits

/-- Whether the call is one of a function that has the routes recomputed or sets the role. -/
def Deed.Routes : Deed cfg → Prop
  | .establish .. | .down _ | .adv .. | .role | .uplink _ | .start => True
  | _ => False

theorem Call.result_abides {k : Call cfg} (hr : ¬ k.deed.Routes) (hf : k.Fits)
    (h : k.result psa = some d) : Abides k.node d := by
  obtain ⟨o, c, deed⟩ := k
  cases deed with
  | establish | down | adv | role | uplink | start => exact absurd trivial hr
  | alloc src =>
    cases h
    obtain ⟨_, _, _, _, heq⟩ := lgNeighAlloc_table c src
    rw [heq]
    exact .of_posture rfl
  | free i =>
    cases h
    obtain ⟨_, _, _, _, heq⟩ := lgNeighFree_table c i
    rw [heq]
    exact .of_posture rfl
  | close =>
    cases h
    exact .of_posture rfl
  | begin i =>
    cases h
    exact .of_stance (lgJoinStart_embarks o hf.1 hf.2.1).stance
  | fail i =>
    cases h
    exact .of_stance (joinFail_engages c i).stance
  | openContext i resuming airStartUs =>
    cases h
    exact .of_stance (openContext_engages c i resuming airStartUs).stance
  | ctrl i body =>
    cases h
    exact .of_stance (handleCtrl_placed o c i hf.2.1 hf.2.2).2
  | advance i =>
    cases h
    exact .of_posture rfl
  | subrate i =>
    cases h
    exact .of_stance (subrateUpdateLink_placed c i).2
  | stage i =>
    cases h
    have hnote : Abides c (noteAdvertised c i) := ⟨⟨rfl, rfl, rfl, id⟩, rfl, le_rfl⟩
    rcases lgLinkStageTx_steady psa (o.ok .encrypt) c i with ⟨-, hs⟩ | ⟨-, hs⟩
    · exact hnote.trans (.of_stance hs.stance)
    · exact .of_stance hs.stance
  | tick us =>
    cases h
    exact ⟨⟨rfl, rfl, rfl, id⟩, rfl, Nat.le_add_right c.nowUs us⟩
  | halt =>
    cases h
    exact ⟨⟨rfl, rfl, rfl, nofun⟩, rfl, le_rfl⟩

theorem Call.result_sits {k : Call cfg} (hr : ¬ k.deed.Routes) (hf : k.Fits)
    (h : k.result psa = some d) : Sits k.node d := (Call.result_abides hr hf h).toSits

theorem netInit_seated (h : c.net = netInit cfg d.nowUs d.net) : c.Seated := by
  have hrole : c.net.role = if c.net.backhaulActive then .backhaul else .leaf := by
    rw [h]
    rfl
  have hrank : c.net.rank = if c.net.backhaulActive then 0 else rankInfinite := by
    rw [h]
    rfl
  rw [Node.seated_iff, hrole, hrank]
  cases c.net.backhaulActive <;> simp

theorem started_seated (o : Oracle) (c : Node cfg) : (started o c).Seated := by
  have hinit := netInit_seated (c := { c with
    neigh := fun i => { c.neigh i with state := .free }
    txq := fun _ => {}
    msgIdNext := 1
    net := netInit cfg c.nowUs c.net
    hs := {}
    ev := { c.ev with kind := .none }
    running := true
    started := true }) (d := c) rfl
  exact hinit.sits (.of_posture rfl)

theorem Call.result_seated {k : Call cfg} (hf : k.Fits) (h : k.result psa = some d)
    (hc : k.node.Seated) : d.Seated := by
  by_cases hr : k.deed.Routes
  · obtain ⟨o, c, deed⟩ := k
    cases deed with
    | establish i pp initiator =>
      obtain ⟨e, he, rfl⟩ := Option.map_eq_some_iff.mp h
      rw [lgLinkEstablish_eq_comeUp] at he
      obtain ⟨s, -, rfl⟩ := Option.map_eq_some_iff.mp he
      have hup := hc.sits (.of_stance (comeUp_stance c i pp s))
      exact (linksChanged_seated o hup).sits (.of_posture (setHs_posture _ _))
    | down i =>
      cases h
      rw [lgLinkDown_eq_goneDown]
      split
      · exact hc
      · exact linksChanged_seated o (hc.sits (.of_posture (goneDown_posture c i)))
    | adv i buf =>
      cases h
      rw [lgRouteHandleAdv_eq]
      split
      · exact hc
      · have hadv := lgRouteRecompute_seated (hc.sits (advHeard_sits c i buf))
        exact hadv.sits (.of_stance (gossipConsiderSeeking_stance o _))
    | role =>
      cases h
      exact hc.evaluate o
    | uplink up =>
      cases h
      rw [lgBackhaulSet_eq]
      split
      · exact hc
      · split
        · next hs => exact lgRoleEvaluate_seated (c := uplinkSet c up) o hs hc.top
        · next hs => exact ⟨hc.top, fun hon => absurd hon hs⟩
    | start =>
      cases h
      rw [lgStart_eq]
      split
      · exact hc
      · split
        · exact hc
        · exact ((started_seated o c).evaluate o).sits
            (.of_stance (lgDiscBeaconFinish_stance psa o _))
    | _ => exact absurd hr id
  · exact hc.sits (Call.result_sits hr hf h)

/-! ## A recomputation -/

theorem lost_append (l l' : List Notice) : lost (l ++ l') = lost l + lost l' := List.countP_append

theorem adopted_append (l l' : List Notice) : adopted (l ++ l') = adopted l ++ adopted l' := by
  simp [adopted]

theorem fall_self (b : Bool) : fall b b = 0 := by cases b <;> rfl

theorem turn_self (addr : Addr) : turn addr addr = [] := by simp [turn]

theorem turn_invalid (addr : Addr) : turn addr addrInvalid = [] := by simp [turn]

theorem lgHasRoute_backhaul (h : c.net.role = .backhaul) : lgHasRoute c = true := by
  simp [lgHasRoute, h]

theorem lgHasRoute_iff (h : c.net.role ≠ .backhaul) :
    lgHasRoute c = true ↔ c.net.rank ≠ rankInfinite := by
  simp [lgHasRoute, h]

theorem recomputeNotices_lost (c : Node cfg) :
    lost (recomputeNotices c) = fall (lgHasRoute c) (lgHasRoute (lgRouteRecompute c).2) := by
  have hrole := (lgRouteRecompute_net c).1
  unfold recomputeNotices
  by_cases hb : c.net.role = .backhaul
  · rw [if_pos hb, lgHasRoute_backhaul (hrole.trans hb)]
    simp [lost, fall]
  · have hbefore := lgHasRoute_iff hb
    have hafter := lgHasRoute_iff (c := (lgRouteRecompute c).2) (by rwa [hrole])
    rw [if_neg hb]
    split
    · next h =>
      rw [hbefore.mpr h.1, Bool.eq_false_iff.mpr (mt hafter.mp (not_not.mpr h.2))]
      rfl
    · next h =>
      cases hroute : lgHasRoute c with
      | false => rfl
      | true =>
        rw [hafter.mpr fun hinf => h ⟨hbefore.mp hroute, hinf⟩]
        rfl

theorem recomputeNotices_adopted (c : Node cfg) : adopted (recomputeNotices c) = [] := by
  unfold recomputeNotices
  split_ifs
  · rfl
  · rfl
  · rfl

instance (c : Node cfg) : DecidablePred (IsUplink c) := fun _ => instDecidableAnd

theorem lgParentIdx_congr (h : ∀ i, IsUplink c' i ↔ IsUplink c i) :
    lgParentIdx c' = lgParentIdx c := by
  have hup : ∀ (d : Node cfg) i, ((d.view i).isParent && (d.neigh i).state = .linked) =
      decide (IsUplink d i) := by
    intro d i
    rw [Bool.eq_iff_iff, decide_eq_true_eq, Bool.and_eq_true, decide_eq_true_eq, IsUplink]
  simp only [lgParentIdx, hup, h]

theorem lgParent_congr (h : ∀ i, IsUplink c' i ↔ IsUplink c i)
    (ha : ∀ i, IsUplink c i → (c'.neigh i).addr = (c.neigh i).addr) :
    lgParent c' = lgParent c := by
  rw [lgParent, lgParent, lgParentIdx_congr h]
  cases hidx : lgParentIdx c with
  | none => rfl
  | some i => exact ha i (lgParentIdx_uplink hidx)

theorem lgParent_eq_invalid (h : ∀ i, ¬ IsUplink c i) : lgParent c = addrInvalid := by
  have hidx : lgParentIdx c = none := by
    cases hidx : lgParentIdx c with
    | none => rfl
    | some i => exact absurd (lgParentIdx_uplink hidx) (h i)
  rw [lgParent, hidx]

theorem recompute_backhaul_parent (h : c.net.role = .backhaul) :
    lgParent (lgRouteRecompute c).2 = addrInvalid := by
  refine lgParent_eq_invalid fun i hi => ?_
  rw [IsUplink, (lgRouteRecompute_backhaul h).2.2 i] at hi
  cases hi.1

theorem changedNotices_lost (c : Node cfg) :
    lost (changedNotices c) = fall (lgHasRoute c) (lgHasRoute (lgRouteRecompute c).2) := by
  rw [changedNotices, lost_append, recomputeNotices_lost]
  split
  · rfl
  · rfl

theorem changedNotices_adopted (c : Node cfg) :
    adopted (changedNotices c) = turn (lgParent c) (lgParent (lgRouteRecompute c).2) := by
  rw [changedNotices, adopted_append, recomputeNotices_adopted, List.nil_append]
  by_cases hb : c.net.role = .backhaul
  · rw [(lgRouteRecompute_backhaul hb).1, recompute_backhaul_parent hb, turn_invalid]
    rfl
  · have hchanged : (lgRouteRecompute c).1 = true ↔
        lgParent (lgRouteRecompute c).2 ≠ lgParent c := by
      simp [lgRouteRecompute, hb]
    by_cases h : (lgRouteRecompute c).1 = true
    · rw [if_pos h, turn]
      simp [adopted, hchanged.mp h, List.filter_cons, apply_ite]
    · rw [if_neg h, not_ne_iff.mp (mt hchanged.mpr h), turn_self]
      rfl

/-! ## What a recomputation settles -/

section

variable (hn : c'.neigh = c.neigh) (hp : ∀ i, (c'.view i).peerRank = (c.view i).peerRank)
  (hl : ∀ i, (c'.view i).linkCost = (c.view i).linkCost)
include hn hp hl

theorem kept_congr (i : Fin cfg.maxNeighbors) : Kept c' i ↔ Kept c i := by
  have hrank : ∀ j, rankThrough c' j = rankThrough c j := by
    intro j
    simp only [rankThrough, hn, hp, hl]
  have helig : ∀ j, Eligible c' j ↔ Eligible c j := by
    intro j
    rw [Eligible, Eligible, hrank, hp]
  have hbefore : ∀ j, Before c' j i ↔ Before c j i := by
    intro j
    rw [Before, Before, hrank, hrank]
  simp only [Kept, helig, hbefore]

theorem first_congr (i : Fin cfg.maxNeighbors) : First c' i ↔ First c i := by
  simp only [First, kept_congr hn hp hl]

end

theorem lgRouteRecompute_hasRoute (hrole : c.net.role ≠ .backhaul) :
    lgHasRoute (lgRouteRecompute c).2 = true ↔ ∃ i, Kept c i := by
  rw [lgHasRoute_iff (by rwa [(lgRouteRecompute_net c).1])]
  rcases lgRouteRecompute_rank hrole with ⟨i, hi, hrank⟩ | ⟨hnone, hrank⟩
  · refine iff_of_true ?_ ⟨i, hi.kept⟩
    rw [hrank]
    exact ne_of_lt hi.kept.1.1
  · refine iff_of_false (not_not.mpr hrank) ?_
    rintro ⟨i, hi⟩
    exact hnone i hi

/-- A second recomputation of the same table changes neither the parent nor whether there is a
route. -/
theorem lgRouteRecompute_again (hrole : c.net.role ≠ .backhaul) (hrole' : d.net.role ≠ .backhaul)
    (hn : d.neigh = c.neigh) (hp : ∀ i, (d.view i).peerRank = (c.view i).peerRank)
    (hl : ∀ i, (d.view i).linkCost = (c.view i).linkCost) :
    lgParent (lgRouteRecompute d).2 = lgParent (lgRouteRecompute c).2 ∧
      lgHasRoute (lgRouteRecompute d).2 = lgHasRoute (lgRouteRecompute c).2 := by
  have hidx : lgParentIdx (lgRouteRecompute d).2 = lgParentIdx (lgRouteRecompute c).2 := by
    refine Option.ext fun i => ?_
    rw [lgParentIdx_recompute hrole', lgParentIdx_recompute hrole,
      first_congr hn hp hl]
  refine ⟨?_, ?_⟩
  · rw [lgParent, lgParent, hidx, (lgRouteRecompute_quiet d).neigh,
      (lgRouteRecompute_quiet c).neigh, hn]
  · rw [Bool.eq_iff_iff, lgRouteRecompute_hasRoute hrole', lgRouteRecompute_hasRoute hrole]
    simp only [kept_congr hn hp hl]

/-! ## The evaluation of the role -/

theorem roleNotices_adopted (c : Node cfg) : adopted (roleNotices c) = [] := by
  unfold roleNotices
  cases roleWanted c with
  | none => rfl
  | some want =>
    dsimp only
    unfold applyNotices
    split
    · rfl
    · rw [adopted_append, recomputeNotices_adopted]
      rfl

theorem applyNotices_lost (o : Oracle) (want : Role)
    (ht : c.net.role = .backhaul → c.net.rank = 0) :
    lost (applyNotices c want) = fall (lgHasRoute c) (lgHasRoute (applyRole o c want)) := by
  rw [applyRole_eq, applyNotices]
  split
  · exact (fall_self _).symm
  · have hretune : lgHasRoute (lgDiscRetune o 2 (lgRouteRecompute (inRole c want)).2) =
        lgHasRoute (lgRouteRecompute (inRole c want)).2 := rfl
    rw [hretune, lost_append, recomputeNotices_lost]
    change fall (lgHasRoute (inRole c want)) (lgHasRoute (lgRouteRecompute (inRole c want)).2) =
      _
    by_cases hw : want = .backhaul
    · have hrole := (lgRouteRecompute_net (inRole c want)).1
      rw [lgHasRoute_backhaul (hrole.trans hw)]
      simp [fall]
    · -- a backhaul that is demoted still has the rank of one
      have hroute : lgHasRoute (inRole c want) = lgHasRoute c := by
        by_cases hb : c.net.role = .backhaul
        · have hrank : (inRole c want).net.rank ≠ rankInfinite := by
            change c.net.rank ≠ rankInfinite
            rw [ht hb]
            decide
          rw [lgHasRoute_backhaul hb, (lgHasRoute_iff (c := inRole c want) hw).mpr hrank]
        · rw [Bool.eq_iff_iff, lgHasRoute_iff hb, lgHasRoute_iff (c := inRole c want) hw]
          rfl
      rw [hroute]

theorem roleNotices_lost (o : Oracle) (ht : c.net.role = .backhaul → c.net.rank = 0) :
    lost (roleNotices c) = fall (lgHasRoute c) (lgHasRoute (lgRoleEvaluate o c)) := by
  rw [lgRoleEvaluate_eq, roleNotices]
  cases roleWanted c with
  | none => exact (fall_self _).symm
  | some want => exact applyNotices_lost o want ht

/-- After the links changed, the evaluation of the role changes neither the parent nor whether
there is a route. -/
theorem linksChanged_outlook (o : Oracle) (hc : c.Seated) :
    lgParent (linksChanged o c) = lgParent (lgRouteRecompute c).2 ∧
      lgHasRoute (linksChanged o c) = lgHasRoute (lgRouteRecompute c).2 := by
  have hretune : ∀ e : Node cfg, lgParent (lgDiscRetune o 7 e) = lgParent e ∧
      lgHasRoute (lgDiscRetune o 7 e) = lgHasRoute e := fun _ => ⟨rfl, rfl⟩
  rw [linksChanged_eq, (hretune _).1, (hretune _).2, lgRoleEvaluate_eq]
  cases hw : roleWanted (linksRecomputed c) with
  | none => exact ⟨rfl, rfl⟩
  | some want =>
    obtain ⟨hs, hwant⟩ := roleWanted_some hw
    obtain ⟨hrole, hactive, hstarted⟩ := lgRouteRecompute_net c
    have hsettled := hc.settled (hstarted.symm.trans hs)
    have hup : want = .backhaul ↔ c.net.role = .backhaul := by
      rw [hwant, hsettled, ← hactive]
      rfl
    dsimp only
    rw [applyRole_eq]
    split
    · exact ⟨rfl, rfl⟩
    · next hne =>
      have hb : c.net.role ≠ .backhaul := by
        intro hb
        refine hne ?_
        rw [hup.mpr hb, ← hb, ← hrole]
        rfl
      exact lgRouteRecompute_again (d := inRole (linksRecomputed c) want) hb (mt hup.mp hb)
        (lgRouteRecompute_quiet c).neigh (fun i => (lgRouteRecompute_view c i).1)
        fun i => (lgRouteRecompute_view c i).2

theorem linksChangedNotices_lost (o : Oracle) (evt : Evt) (peer : Addr) (hc : c.Seated)
    (hevt : evt ≠ .routeLost) :
    lost (linksChangedNotices c evt peer) =
      fall (lgHasRoute c) (lgHasRoute (linksChanged o c)) := by
  have hlinks := (linksChanged_outlook o hc).2
  have hevaluate : lgHasRoute (lgRoleEvaluate o (linksRecomputed c)) =
      lgHasRoute (lgRouteRecompute c).2 := hlinks
  have hseated : (linksRecomputed c).Seated := (lgRouteRecompute_seated hc).sits (.of_posture rfl)
  have hrole := roleNotices_lost o hseated.top
  have hroute : lgHasRoute (linksRecomputed c) = lgHasRoute (lgRouteRecompute c).2 := rfl
  have hone : lost [⟨evt, peer⟩] = 0 := by simp [lost, hevt]
  rw [linksChangedNotices, lost_append, lost_append, changedNotices_lost, hone, hrole, hevaluate,
    hroute, fall_self, hlinks, Nat.add_zero]

theorem linksChangedNotices_adopted (o : Oracle) (evt : Evt) (peer : Addr) (hc : c.Seated)
    (hevt : evt ≠ .parentChanged) :
    adopted (linksChangedNotices c evt peer) =
      turn (lgParent c) (lgParent (linksChanged o c)) := by
  have hone : adopted [⟨evt, peer⟩] = [] := by simp [adopted, hevt]
  rw [linksChangedNotices, adopted_append, adopted_append, changedNotices_adopted, hone,
    roleNotices_adopted, (linksChanged_outlook o hc).1, List.append_nil, List.append_nil]

/-! ## Route-lost notices -/

theorem Call.notices_lost {k : Call cfg} (hf : k.Fits) (h : k.result psa = some d)
    (hc : k.node.Seated) (hs : k.node.started = true) :
    lost (k.notices psa) = fall (lgHasRoute k.node) (lgHasRoute d) := by
  by_cases hr : k.deed.Routes
  · obtain ⟨o, c, deed⟩ := k
    cases deed with
    | establish i pp initiator =>
      obtain ⟨e, he, rfl⟩ := Option.map_eq_some_iff.mp h
      rw [lgLinkEstablish_eq_comeUp] at he
      obtain ⟨s, hs, rfl⟩ := Option.map_eq_some_iff.mp he
      have hup : Sits c (comeUp c i pp s) := .of_stance (comeUp_stance c i pp s)
      change lost (establishNotices c i pp initiator) =
        fall (lgHasRoute c) (lgHasRoute ((linksChanged o (comeUp c i pp s)).setHs {}))
      rw [setHs_hasRoute, establishNotices, hs, ← hup.hasRoute]
      exact linksChangedNotices_lost o _ _ (hc.sits hup) nofun
    | down i =>
      cases h
      change lost (downNotices c i) = fall (lgHasRoute c) (lgHasRoute (lgLinkDown o c i))
      rw [downNotices, lgLinkDown_eq_goneDown]
      split
      · exact (fall_self _).symm
      · have hdown : Sits c (goneDown c i) := .of_posture (goneDown_posture c i)
        rw [← hdown.hasRoute]
        exact linksChangedNotices_lost o _ _ (hc.sits hdown) nofun
    | adv i buf =>
      cases h
      change lost (advNotices c i buf) =
        fall (lgHasRoute c) (lgHasRoute (lgRouteHandleAdv o c i buf))
      rw [advNotices, lgRouteHandleAdv_eq]
      split
      · exact (fall_self _).symm
      · have hseek := (Sits.of_stance
          (gossipConsiderSeeking_stance o (lgRouteRecompute (advHeard c i buf)).2)).hasRoute
        rw [hseek, ← (advHeard_sits c i buf).hasRoute]
        exact changedNotices_lost _
    | role =>
      cases h
      exact roleNotices_lost o hc.top
    | uplink up =>
      cases h
      change lost (uplinkNotices c up) = fall (lgHasRoute c) (lgHasRoute (lgBackhaulSet o c up))
      rw [uplinkNotices, lgBackhaulSet_eq]
      by_cases hup : c.net.backhaulActive = up
      · rw [if_pos hup, if_pos hup]
        exact (fall_self _).symm
      · have hon : c.started = true := hs
        rw [if_neg hup, if_neg hup, if_pos hon, if_pos hon]
        have htop : (uplinkSet c up).net.role = .backhaul → (uplinkSet c up).net.rank = 0 := hc.top
        exact roleNotices_lost o htop
    | start =>
      cases h
      change lost (startNotices psa o c) = fall (lgHasRoute c) (lgHasRoute (lgStart psa o c))
      rw [startNotices, lgStart_eq, if_pos (.inl hs), if_pos (.inl hs)]
      exact (fall_self _).symm
    | _ => exact absurd hr id
  · have hnone : k.notices psa = [] := by
      obtain ⟨o, c, deed⟩ := k
      cases deed with
      | establish | down | adv | role | uplink | start => exact absurd trivial hr
      | _ => rfl
    rw [hnone, (Call.result_sits hr hf h).hasRoute, fall_self]
    rfl

/-! ## The moments of a step -/

/-- What calls and steady work keep holds at the begin of every moment of a step, and so does what
follows from it. -/
theorem Does.moments {r : Fin cfg.maxNeighbors → Prop} {I : Node cfg → Prop}
    {Q : Moment cfg → Prop} {l : List (Call cfg)} (h : Does r psa c l c') (hc : I c)
    (hsteady : ∀ {a b}, Steady a b → I a → I b ∧ Q ⟨a, b, []⟩)
    (hcall : ∀ k ∈ l, ∀ d, k.Fits → k.result psa = some d → I k.node →
      I d ∧ Q ⟨k.node, d, k.notices psa⟩) :
    ∀ m ∈ moments psa c l c', Q m := by
  induction h with
  | rest hs =>
    intro m hm
    rw [LockGrid.moments, List.mem_singleton] at hm
    rw [hm]
    exact (hsteady hs.toSteady hc).2
  | @call a b e k l hs hk hr _ ih =>
    intro m hm
    obtain ⟨hnode, hbefore⟩ := hsteady hs.toSteady hc
    obtain ⟨hresult, hduring⟩ := hcall k List.mem_cons_self e hk hr hnode
    simp only [LockGrid.moments, hr, Option.getD_some, List.mem_cons] at hm
    rcases hm with rfl | rfl | hm
    · exact hbefore
    · exact hduring
    · exact ih hresult (fun k hk => hcall k (List.mem_cons_of_mem _ hk)) m hm

theorem Node.boot_seated (ident : Identity) : (Node.boot cfg ident).Seated := ⟨nofun, nofun⟩

theorem Reachable.seated (h : Reachable psa ident c) : c.Seated := by
  exact h.meeting.keeps (Node.boot_seated ident) (fun hs hc => hc.sits (.of_stance hs.stance))
    fun k d _ hf hr hc => Call.result_seated hf hr hc

/-- In every run, while the node is started, the loss of the route is reported exactly where
`lg_has_route` turns false. -/
theorem route_lost_exactly (h : Reachable psa ident c) {inp : Input}
    (hp : perform psa o c inp = some c') :
    ∀ m ∈ moments psa c (calls psa o c inp) c', m.before.started = true →
      lost m.notices = fall (lgHasRoute m.before) (lgHasRoute m.after) := by
  refine (perform_does h.hsUnlinked hp).moments h.seated (fun hs hc => ?_) fun k _ d hf hr hc => ?_
  · have hsits : Sits _ _ := .of_stance hs.stance
    refine ⟨hc.sits hsits, fun _ => ?_⟩
    rw [hsits.hasRoute, fall_self]
    rfl
  · exact ⟨Call.result_seated hf hr hc, Call.notices_lost hf hr hc⟩

/-- A node without neighbours is started and its uplink comes up; then it goes down. -/
theorem route_lost_exactly_demoted :
    ∃ c c' : Node .default, Reachable Psa.plain (plainIdent 1 1) c ∧ c.started = true ∧
      lgHasRoute c = true ∧ lgHasRoute c' = false ∧
      ∀ m ∈ moments Psa.plain c (calls Psa.plain (calm 2) c (.backhaulSet false)) c',
        m.before.started = true →
          lost m.notices = fall (lgHasRoute m.before) (lgHasRoute m.after) := by
  obtain ⟨c, hc, hp⟩ := exists_reachable Psa.plain (plainIdent 1 1)
    [(calm 0, .start), (calm 1, .backhaulSet true)]
    (fun c : Node .default => decide (c.started = true ∧ lgHasRoute c = true ∧
      lgHasRoute (lgBackhaulSet (calm 2) c false) = false)) (by decide +kernel)
  obtain ⟨hs, hroute, hlost⟩ := of_decide_eq_true hp
  exact ⟨c, _, hc, hs, hroute, hlost, route_lost_exactly hc rfl⟩

end LockGrid
