import LockGrid.Advert
import LockGrid.Channel

/-!
# Two neighbours and their uplinks

Two linked nodes that tell each other their rank. Whatever happens at either of them in between,
neither takes the other for its uplink while the other does the same, once each has the other's
latest advertisement, as long as each takes its rank from the neighbour it forwards to.
-/
namespace LockGrid

variable {cfg : Config}

/-- The one link of a node to `addr` is entry `i`. -/
structure LinkedTo (c : Node cfg) (i : Fin cfg.maxNeighbors) (addr : Addr) : Prop where
  valid : addr ≠ addrInvalid
  linked : (c.neigh i).state = .linked
  named : (c.neigh i).addr = addr
  alone : ∀ j, (c.neigh j).state = .linked → (c.neigh j).addr = addr → j = i

/-- One of the two: its entry for the other, whether it has recomputed its rank since its table
changed, and the advertisements on their way to it. -/
structure End (cfg : Config) where
  node : Node cfg
  peer : Fin cfg.maxNeighbors
  fresh : Bool := false
  inbox : Channel Bytes := {}

structure Pair (cfg : Config) where
  a : End cfg
  b : End cfg

def Pair.swap (p : Pair cfg) : Pair cfg := ⟨p.b, p.a⟩

inductive Move
  | recompute
  /-- An advertisement is built for the other end, as `lg_link_stage_tx` does. -/
  | advertise
  | deliver (o : Oracle)
  | lose

/-- What a move of the first end does. -/
def Pair.perform (p : Pair cfg) : Move → Pair cfg
  | .recompute => { p with a := { p.a with node := (lgRouteRecompute p.a.node).2, fresh := true } }
  | .advertise =>
    { a := { p.a with node := noteAdvertised p.a.node p.a.peer }
      b := { p.b with inbox := p.b.inbox.send (lgRouteBuildAdv p.a.node advCap) } }
  | .deliver o =>
    match p.a.inbox.deliver with
    | none => p
    | some (buf, inbox) => { p with a := { p.a with
        node := lgRouteHandleAdv o p.a.node p.a.peer buf, fresh := true, inbox := inbox } }
  | .lose => { p with a := { p.a with inbox := p.a.inbox.lose } }

/-- Every table a move recomputes the rank from meets `P`. -/
def Pair.Meets (P : Node cfg → Prop) (p : Pair cfg) : Move → Prop
  | .recompute => P p.a.node
  | .deliver _ => ∀ r ∈ p.a.inbox.deliver, P (noteAdv p.a.node p.a.peer r.1)
  | .advertise | .lose => True

/-- Whatever else a node does between two recomputations: its other links, what other neighbours
tell it, the costs it measures and its role may all change. -/
structure Elsewhere (c c' : Node cfg) (i : Fin cfg.maxNeighbors) : Prop where
  ident : c'.ident = c.ident
  linked : ∀ addr, LinkedTo c i addr → LinkedTo c' i addr
  peerRank : (c'.view i).peerRank = (c.view i).peerRank
  rank : c'.net.rank = c.net.rank
  owed : AdvOwed c i = true → AdvOwed c' i = true

inductive Pair.Turn (P : Node cfg → Prop) : Pair cfg → Pair cfg → Prop
  | move (p : Pair cfg) (m : Move) (h : p.Meets P m) : Turn P p (p.perform m)
  | change (p : Pair cfg) (c : Node cfg) (h : Elsewhere p.a.node c p.a.peer) :
    Turn P p { p with a := { p.a with node := c, fresh := false } }

/-- A turn of either end. -/
def Pair.Step (P : Node cfg → Prop) (p q : Pair cfg) : Prop :=
  Turn P p q ∨ Turn P p.swap q.swap

/-- Two linked nodes that have not told each other anything yet. -/
structure Pair.Start (p : Pair cfg) : Prop where
  linkedA : LinkedTo p.a.node p.a.peer p.b.node.ident.addr
  linkedB : LinkedTo p.b.node p.b.peer p.a.node.ident.addr
  quietA : p.a.inbox = {} ∧ p.a.fresh = false
  quietB : p.b.inbox = {} ∧ p.b.fresh = false
  rankA : p.a.node.net.rank ≤ rankInfinite
  rankB : p.b.node.net.rank ≤ rankInfinite

/-- An end that is no backhaul, has recomputed, owes no news and has handled what it was told. -/
def End.Settled (x : End cfg) : Prop :=
  x.node.net.role ≠ .backhaul ∧ x.fresh = true ∧ AdvOwed x.node x.peer = false ∧
    x.inbox.UpToDate

instance (x : End cfg) : Decidable x.Settled := instDecidableAnd

def Pair.Mutual (p : Pair cfg) : Prop :=
  lgParent p.a.node = p.b.node.ident.addr ∧ lgParent p.b.node = p.a.node.ident.addr

instance (p : Pair cfg) : Decidable p.Mutual := instDecidableAnd

/-! ## What each end knows of the other -/

/-- The table a node recomputes from gives it the rank of its uplink. -/
def Consistent (c : Node cfg) : Prop := c.net.role ≠ .backhaul → FirstCostsChosen c

instance (c : Node cfg) : Decidable (Consistent c) := by
  unfold Consistent
  infer_instance

/-- What `x` has been told of `y`, and the rank of `y` behind it. -/
structure Hears (x y : End cfg) : Prop where
  sound : x.inbox.Sound
  linked : LinkedTo x.node x.peer y.node.ident.addr
  long : ∀ e ∈ x.inbox.flight, 5 ≤ e.2.length
  knows : ∀ buf, x.inbox.got = some buf → (x.node.view x.peer).peerRank = advRank buf
  rank : y.node.net.rank ≤ rankInfinite
  told : AdvOwed y.node y.peer = true ∨ y.node.net.rank = 0 ∨
    ∀ buf, x.inbox.last = some buf → advRank buf = y.node.net.rank
  agrees : y.fresh = true → y.node.net.role ≠ .backhaul → RankAgrees y.node

/-- The entries of a table that decide about rank and uplink. -/
structure SameView (c c' : Node cfg) : Prop where
  neigh : c'.neigh = c.neigh
  isParent : ∀ i, (c'.view i).isParent = (c.view i).isParent
  peerRank : ∀ i, (c'.view i).peerRank = (c.view i).peerRank
  linkCost : ∀ i, (c'.view i).linkCost = (c.view i).linkCost
  rank : c'.net.rank = c.net.rank

theorem SameView.rankAgrees {c c' : Node cfg} (h : SameView c c') (ha : RankAgrees c) :
    RankAgrees c' := by
  have hidx : lgParentIdx c' = lgParentIdx c := by simp only [lgParentIdx, h.neigh, h.isParent]
  have hparent : lgParent c' = lgParent c := by simp only [lgParent, hidx, h.neigh]
  unfold RankAgrees at ha ⊢
  rw [hidx, hparent, h.rank]
  rcases ha with hinf | ⟨i, hi, hsum, hlt⟩
  · exact .inl hinf
  · exact .inr ⟨i, hi, by rw [h.peerRank, h.linkCost]; exact hsum, by rw [h.peerRank]; exact hlt⟩

theorem SameTable.sameView {c c' : Node cfg} (h : SameTable c c') : SameView c c' := by
  obtain ⟨net, rfl, hrank, -, -⟩ := h
  exact ⟨rfl, fun _ => rfl, fun _ => rfl, fun _ => rfl, hrank⟩

theorem noteAdvertised_sameView (c : Node cfg) (i : Fin cfg.maxNeighbors) :
    SameView c (noteAdvertised c i) := by
  have hview : ∀ j, ((noteAdvertised c i).view j).isParent = (c.view j).isParent ∧
      ((noteAdvertised c i).view j).peerRank = (c.view j).peerRank ∧
      ((noteAdvertised c i).view j).linkCost = (c.view j).linkCost := by
    intro j
    simp only [noteAdvertised, Node.setView]
    by_cases hj : j = i
    · subst hj
      simp
    · simp [Function.update_of_ne hj]
  exact ⟨rfl, fun j => (hview j).1, fun j => (hview j).2.1, fun j => (hview j).2.2, rfl⟩

theorem SameTable.consistent {c c' : Node cfg} (h : SameTable c c') (hc : Consistent c) :
    Consistent c' := by
  obtain ⟨net, rfl, -, hrole, -⟩ := h
  intro hr
  exact hc (hrole ▸ hr)

theorem LinkedTo.congr {c c' : Node cfg} {i : Fin cfg.maxNeighbors} {addr : Addr}
    (h : LinkedTo c i addr) (hn : c'.neigh = c.neigh) : LinkedTo c' i addr :=
  ⟨h.valid, by rw [hn]; exact h.linked, by rw [hn]; exact h.named, by rw [hn]; exact h.alone⟩

theorem recompute_rankAgrees {c : Node cfg} (hc : Consistent c)
    (hrole : (lgRouteRecompute c).2.net.role ≠ .backhaul) : RankAgrees (lgRouteRecompute c).2 := by
  have hr : c.net.role ≠ .backhaul := by
    intro hb
    simp [lgRouteRecompute, hb] at hrole
  exact (rankAgrees_iff c hr).mpr (hc hr)

section

variable {x y : End cfg} {c : Node cfg} {fresh : Bool}

/-- The hearing end changes, but neither its link nor what it has noted of the other's rank. -/
theorem Hears.hearer (h : Hears x y) (hl : ∀ addr, LinkedTo x.node x.peer addr →
    LinkedTo c x.peer addr) (hp : (c.view x.peer).peerRank = (x.node.view x.peer).peerRank) :
    Hears { x with node := c, fresh := fresh } y where
  sound := h.sound
  linked := hl _ h.linked
  long := h.long
  knows := fun buf hbuf => hp.trans (h.knows buf hbuf)
  rank := h.rank
  told := h.told
  agrees := h.agrees

/-- The other end changes, keeping its rank unless it owes the news or the rank is zero. -/
theorem Hears.speaker (h : Hears x y) (hi : c.ident = y.node.ident)
    (hr : c.net.rank ≤ rankInfinite)
    (ht : AdvOwed c y.peer = true ∨ c.net.rank = 0 ∨ c.net.rank = y.node.net.rank ∧
      (AdvOwed y.node y.peer = true → AdvOwed c y.peer = true))
    (ha : fresh = true → c.net.role ≠ .backhaul → RankAgrees c) :
    Hears x { y with node := c, fresh := fresh } where
  sound := h.sound
  linked := by
    have hl := h.linked
    rw [← hi] at hl
    exact hl
  long := h.long
  knows := h.knows
  rank := hr
  told := by
    rcases ht with howed | hzero | ⟨hrank, howed⟩
    · exact .inl howed
    · exact .inr (.inl hzero)
    · rw [hrank]
      exact h.told.imp_left howed
  agrees := ha

/-- The other end advertises: what is on its way last is its rank. -/
theorem Hears.advertise (h : Hears x y) : Hears
    { x with inbox := x.inbox.send (lgRouteBuildAdv y.node advCap) }
    { y with node := noteAdvertised y.node y.peer } where
  sound := h.sound.send _
  linked := h.linked
  long := by
    intro e he
    rcases List.mem_append.mp he with he | he
    · exact h.long e he
    · obtain rfl := List.mem_singleton.mp he
      exact lgRouteBuildAdv_length _
  knows := h.knows
  rank := h.rank
  told := by
    right; right
    intro buf hbuf
    obtain rfl : lgRouteBuildAdv y.node advCap = buf := Option.some.inj hbuf
    exact advRank_build _ h.rank
  agrees := fun hf hrole => (noteAdvertised_sameView _ _).rankAgrees (h.agrees hf hrole)

theorem Hears.lose (h : Hears x y) : Hears { x with inbox := x.inbox.lose } y where
  sound := h.sound.lose
  linked := h.linked
  long := fun e he => h.long e (List.mem_of_mem_tail he)
  knows := h.knows
  rank := h.rank
  told := h.told
  agrees := h.agrees

/-- What handling an advertisement of the peer does to a node. -/
theorem handleAdv_facts (o : Oracle) (c : Node cfg) (i : Fin cfg.maxNeighbors) (buf : Bytes)
    (h : 5 ≤ buf.length) (hc : Consistent (noteAdv c i buf)) :
    Node.Quiet c (lgRouteHandleAdv o c i buf) ∧
      ((lgRouteHandleAdv o c i buf).view i).peerRank = advRank buf ∧
      (lgRouteHandleAdv o c i buf).net.rank ≤ rankInfinite ∧
      (AdvOwed (lgRouteHandleAdv o c i buf) i = true ∨ (lgRouteHandleAdv o c i buf).net.rank = 0 ∨
        (lgRouteHandleAdv o c i buf).net.rank = c.net.rank ∧
          AdvOwed (lgRouteHandleAdv o c i buf) i = AdvOwed c i) ∧
      ((lgRouteHandleAdv o c i buf).net.role ≠ .backhaul →
        RankAgrees (lgRouteHandleAdv o c i buf)) := by
  obtain ⟨d, hd, hout⟩ := lgRouteHandleAdv_spec o c i buf h
  have hview := hout.sameView
  have hagrees := recompute_rankAgrees (hd.consistent hc)
  refine ⟨lgRouteHandleAdv_quiet o c i buf, ?_, ?_, ?_, ?_⟩
  · rw [hview.peerRank, (lgRouteRecompute_view d i).1, hd.sameView.peerRank]
    simp [noteAdv, Node.setView]
  · rw [hview.rank]
    exact lgRouteRecompute_rank_le d
  · have hdowed : AdvOwed d i = AdvOwed c i := by
      rw [hd.advOwed]
      simp [AdvOwed, noteAdv, Node.setView]
    rw [hout.advOwed, hview.rank, ← hdowed,
      show c.net.rank = d.net.rank from hd.sameView.rank.symm]
    exact lgRouteRecompute_advOwed d i
  · intro hrole
    obtain ⟨net, hnet, -, hr, -⟩ := hout
    rw [hnet] at hrole
    exact hview.rankAgrees (hagrees (hr ▸ hrole))

theorem Node.Quiet.linkedTo {c c' : Node cfg} (h : Node.Quiet c c') {i : Fin cfg.maxNeighbors}
    (addr : Addr) (hl : LinkedTo c i addr) : LinkedTo c' i addr := hl.congr h.neigh

theorem Node.Quiet.ident {c c' : Node cfg} (h : Node.Quiet c c') : c'.ident = c.ident := by
  obtain ⟨net, view, rfl⟩ := h
  rfl

theorem Hears.inbox (h : Hears x y) (ch : Channel Bytes) : Hears x { y with inbox := ch } :=
  ⟨h.sound, h.linked, h.long, h.knows, h.rank, h.told, h.agrees⟩

/-- The hearing end handles the oldest advertisement. -/
theorem Hears.deliver (h : Hears x y) {o : Oracle} {buf : Bytes} {inbox : Channel Bytes}
    (hd : x.inbox.deliver = some (buf, inbox)) (hc : Consistent (noteAdv x.node x.peer buf))
    (hlen : 5 ≤ buf.length) :
    Hears { x with
      node := lgRouteHandleAdv o x.node x.peer buf, fresh := fresh, inbox := inbox } y := by
  obtain ⟨hgot, hlast⟩ := Channel.deliver_got hd
  obtain ⟨hq, hpeer, -⟩ := handleAdv_facts o x.node x.peer buf hlen hc
  refine ⟨h.sound.deliver hd, hq.linkedTo _ h.linked, ?_, ?_, h.rank, ?_, h.agrees⟩
  · exact fun e he => h.long e (Channel.flight_of_deliver hd e he)
  · intro buf' hbuf'
    obtain rfl : buf = buf' := Option.some.inj (hgot.symm.trans hbuf')
    exact hpeer
  · simp only [hlast]
    exact h.told

end

/-! ## No mutual adoption -/

/-- What holds of the pair in every state of a run. -/
def Pair.Sound (p : Pair cfg) : Prop := Hears p.a p.b ∧ Hears p.b p.a

theorem Pair.Turn.sound {p q : Pair cfg} (h : Turn Consistent p q) (hp : p.Sound) : q.Sound := by
  obtain ⟨hab, hba⟩ := hp
  cases h with
  | change c hc =>
    exact ⟨hab.hearer hc.linked hc.peerRank,
      hba.speaker hc.ident (hc.rank ▸ hba.rank) (.inr (.inr ⟨hc.rank, hc.owed⟩)) nofun⟩
  | move m hm =>
    cases m with
    | recompute =>
      have hq := lgRouteRecompute_quiet p.a.node
      refine ⟨hab.hearer hq.linkedTo (lgRouteRecompute_view _ _).1,
        hba.speaker hq.ident (lgRouteRecompute_rank_le _) ?_ fun _ => recompute_rankAgrees hm⟩
      rcases lgRouteRecompute_advOwed p.a.node p.a.peer with howed | hzero | ⟨hrank, howed⟩
      · exact .inl howed
      · exact .inr (.inl hzero)
      · exact .inr (.inr ⟨hrank, fun h => howed.trans h⟩)
    | advertise =>
      have hview := noteAdvertised_sameView p.a.node p.a.peer
      have hq := noteAdvertised_quiet p.a.node p.a.peer
      exact ⟨(hab.hearer hq.linkedTo (hview.peerRank _)).inbox _, hba.advertise⟩
    | lose => exact ⟨hab.lose, hba.inbox _⟩
    | deliver o =>
      unfold Pair.perform
      unfold Pair.Meets at hm
      cases hd : p.a.inbox.deliver with
      | none => exact ⟨hab, hba⟩
      | some r =>
        obtain ⟨buf, inbox⟩ := r
        replace hm := hm _ hd
        obtain ⟨k, hmem⟩ := Channel.mem_of_deliver hd
        have hlen := hab.long _ hmem
        obtain ⟨hq, -, hrank, howed, hagrees⟩ := handleAdv_facts o p.a.node p.a.peer buf hlen hm
        refine ⟨hab.deliver hd hm hlen, (hba.speaker hq.ident hrank ?_ fun _ => hagrees).inbox _⟩
        rcases howed with howed | hzero | ⟨hsame, howed⟩
        · exact .inl howed
        · exact .inr (.inl hzero)
        · exact .inr (.inr ⟨hsame, fun h => howed.trans h⟩)

theorem Pair.Start.sound {p : Pair cfg} (h : p.Start) : p.Sound := by
  have hnil : ∀ x y : End cfg, x.inbox = {} → y.fresh = false →
      LinkedTo x.node x.peer y.node.ident.addr → y.node.net.rank ≤ rankInfinite → Hears x y := by
    intro x y hx hy hl hr
    constructor
    · rw [hx]
      exact Channel.sound_empty
    · exact hl
    · rw [hx]
      nofun
    · rw [hx]
      nofun
    · exact hr
    · rw [hx]
      exact .inr (.inr nofun)
    · rw [hy]
      nofun
  exact ⟨hnil _ _ h.quietA.1 h.quietB.2 h.linkedA h.rankB,
    hnil _ _ h.quietB.1 h.quietA.2 h.linkedB h.rankA⟩

theorem Pair.sound {p q : Pair cfg} (hp : p.Start)
    (h : Relation.ReflTransGen (Step Consistent) p q) : q.Sound := by
  induction h with
  | refl => exact hp.sound
  | tail _ hstep ih =>
    rcases hstep with hstep | hstep
    · exact hstep.sound ih
    · exact (hstep.sound ih.symm).symm

theorem lgParentIdx_of_lgParent {c : Node cfg} {i : Fin cfg.maxNeighbors} {addr : Addr}
    (hl : LinkedTo c i addr) (h : lgParent c = addr) : lgParentIdx c = some i := by
  unfold lgParent at h
  cases hidx : lgParentIdx c with
  | none =>
    rw [hidx] at h
    exact absurd h.symm hl.valid
  | some j =>
    rw [hidx] at h
    have hj := List.find?_some hidx
    simp only [Bool.and_eq_true, decide_eq_true_eq] at hj
    rw [hl.alone j hj.2 h]

/-- A settled end that forwards to the other has a rank above the one the other was last told
to have. -/
theorem Hears.rank_lt {x y : End cfg} (hxy : Hears x y) (hyx : Hears y x) (hx : x.Settled)
    (hy : y.Settled) (hparent : lgParent x.node = y.node.ident.addr) :
    y.node.net.rank < x.node.net.rank := by
  obtain ⟨hxrole, hxfresh, -, hxinbox⟩ := hx
  obtain ⟨hyrole, hyfresh, hyowed, -⟩ := hy
  have hidx := lgParentIdx_of_lgParent hxy.linked hparent
  have hbelow : (x.node.view x.peer).peerRank < x.node.net.rank := by
    rcases hyx.agrees hxfresh hxrole with ⟨-, hinvalid⟩ | ⟨i, hi, -, hlt⟩
    · exact absurd (hparent.symm.trans hinvalid) hxy.linked.valid
    · obtain rfl := Option.some.inj (hidx.symm.trans hi)
      exact hlt
  obtain ⟨buf, hgot, hlast⟩ := hxy.sound.got_of_upToDate hxinbox
  have hknown := hxy.knows buf hgot
  rcases hxy.told with howed | hzero | htold
  · rw [hyowed] at howed
    cases howed
  · omega
  · have hrank := htold buf hlast
    omega

/-- In every run in which each recomputation starts from a table whose first kept neighbour costs
what the chosen one costs, two settled nodes do not have each other for their uplinks. -/
theorem no_mutual_adoption {p q : Pair cfg} (hp : p.Start)
    (h : Relation.ReflTransGen (Pair.Step Consistent) p q) (ha : q.a.Settled) (hb : q.b.Settled) :
    ¬ q.Mutual := by
  rintro ⟨hab, hba⟩
  obtain ⟨hsa, hsb⟩ := Pair.sound hp h
  have hlt := hsa.rank_lt hsb ha hb hab
  have hlt' := hsb.rank_lt hsa hb ha hba
  omega

/-! ## Two runs -/

section

variable (P : Node cfg → Prop) [DecidablePred P]

instance (p : Pair cfg) (m : Move) : Decidable (p.Meets P m) := by
  rcases m <;> unfold Pair.Meets <;> infer_instance

/-- Let the first end (`true`) or the other make the given moves, while they meet `P`. -/
def Pair.run (p : Pair cfg) : List (Bool × Move) → Option (Pair cfg)
  | [] => some p
  | (true, m) :: rest => if p.Meets P m then (p.perform m).run rest else none
  | (false, m) :: rest => if p.swap.Meets P m then (p.swap.perform m).swap.run rest else none

variable {P}

theorem Pair.run_steps {p q : Pair cfg} {moves : List (Bool × Move)}
    (h : p.run P moves = some q) : Relation.ReflTransGen (Step P) p q := by
  induction moves generalizing p with
  | nil =>
    cases h
    exact .refl
  | cons e rest ih =>
    obtain ⟨first, m⟩ := e
    cases first with
    | true =>
      rw [Pair.run] at h
      split_ifs at h with hm
      exact .head (.inl (.move p m hm)) (ih h)
    | false =>
      rw [Pair.run] at h
      split_ifs at h with hm
      have hstep : Step P p (p.swap.perform m).swap := .inr (.move p.swap m hm)
      exact .head hstep (ih h)

theorem Pair.exists_run {p : Pair cfg} (moves : List (Bool × Move)) (f : Pair cfg → Bool)
    (h : (p.run P moves).any f = true) :
    ∃ q, Relation.ReflTransGen (Step P) p q ∧ f q = true := by
  cases hr : p.run P moves with
  | none => simp [hr] at h
  | some q => exact ⟨q, run_steps hr, by simpa [hr] using h⟩

end

/-- A leaf with a link to a peer at entry `k` and one to a router of rank 16 at the other of the
first two entries. -/
def pairEnd (own peer : Addr) (k : Fin Config.default.maxNeighbors) : End .default where
  node := { Node.boot .default (plainIdent own 1) with
    net := { (Node.boot .default (plainIdent own 1)).net with rank := rankInfinite }
    neigh := fun i => if i = k then { state := .linked, addr := peer }
      else if i.val < 2 then { state := .linked, addr := 9 } else {}
    view := fun i => { peerRank := if i = k then rankInfinite else 16, linkCost := 16 } }
  peer := k

def pairOf (k : Fin Config.default.maxNeighbors) : Pair .default := ⟨pairEnd 1 2 k, pairEnd 2 1 k⟩

/-- Both recompute, and each advertises to the other. -/
def exchange : List (Bool × Move) :=
  [(true, .recompute), (false, .recompute), (true, .advertise), (false, .advertise),
    (true, .deliver (calm 1)), (false, .deliver (calm 1))]

theorem pairEnd_linkedTo {own peer : Addr} (k : Fin Config.default.maxNeighbors)
    (hvalid : peer ≠ addrInvalid) (hother : peer ≠ 9) :
    LinkedTo (pairEnd own peer k).node (pairEnd own peer k).peer peer := by
  refine ⟨hvalid, by simp [pairEnd], by simp [pairEnd], ?_⟩
  intro j hlinked hnamed
  by_contra hj
  have hjk : j ≠ k := hj
  simp only [pairEnd, hjk, if_false] at hlinked hnamed
  split_ifs at hlinked hnamed
  exact hother hnamed.symm

theorem pairOf_start (k : Fin Config.default.maxNeighbors) : (pairOf k).Start where
  linkedA := pairEnd_linkedTo k (by decide) (by decide)
  linkedB := pairEnd_linkedTo k (by decide) (by decide)
  quietA := ⟨rfl, rfl⟩
  quietB := ⟨rfl, rfl⟩
  rankA := le_refl _
  rankB := le_refl _

/-- With the router first in either table, both forward to the router. -/
theorem no_mutual_adoption_router_first :
    ∃ q, Relation.ReflTransGen (Pair.Step Consistent) (pairOf ⟨1, by decide⟩) q ∧ q.a.Settled ∧
      q.b.Settled ∧ ¬ q.Mutual := by
  obtain ⟨q, hq, hsettled⟩ := Pair.exists_run (P := Consistent) (p := pairOf ⟨1, by decide⟩)
    exchange (fun q => decide (q.a.Settled ∧ q.b.Settled)) (by decide +kernel)
  obtain ⟨ha, hb⟩ := of_decide_eq_true hsettled
  exact ⟨q, hq, ha, hb, no_mutual_adoption (pairOf_start _) hq ha hb⟩

/-- With the other end first in either table, both take their rank from the router and forward to
each other. -/
theorem not_no_mutual_adoption_peer_first :
    ¬ ∀ p q : Pair .default, p.Start → Relation.ReflTransGen (Pair.Step fun _ => True) p q →
      q.a.Settled → q.b.Settled → ¬ q.Mutual := by
  intro h
  obtain ⟨q, hq, hsettled⟩ := Pair.exists_run (P := fun _ => True) (p := pairOf ⟨0, by decide⟩)
    exchange (fun q => decide (q.a.Settled ∧ q.b.Settled ∧ q.Mutual)) (by decide +kernel)
  obtain ⟨ha, hb, hmutual⟩ := of_decide_eq_true hsettled
  exact h _ q (pairOf_start _) hq ha hb hmutual

end LockGrid
