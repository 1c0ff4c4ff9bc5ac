import LockGrid.Arbiter
import LockGrid.Driver
import LockGrid.Plain
import LockGrid.Requests

/-!
# A node with its arbiter and its radio

The scheduler, `lg_ts_direct.c` and `lg_phy_nrf.c` on one clock, from the end of `lg_start` on. The
arbiter grants what the scheduler asked for, the driver carries out what the handlers command, and
both call back. The energy detection of a channel evaluation is over before its handler returns,
and is left out.
-/
namespace LockGrid

variable {cfg : Config} {psa : Psa}

/-- Carry out what a handler asks for. A driver that refuses is stopped, as is one that is asked for
nothing more: the event is over. -/
def Nrf.obey (p : Nrf) : Option Cmd → Bool × Nrf
  | none => (false, p.lgPhyStop)
  | some (.tx airStartUs chan pdu) =>
    let r := p.lgPhyTxAt airStartUs (.ofNat chan) pdu
    if r.1.toBool then (true, r.2) else (false, r.2.lgPhyStop)
  | some (.rx openUs closeUs chan) =>
    let r := p.lgPhyRxWindow openUs closeUs (.ofNat chan)
    if r.1.toBool then (true, r.2) else (false, r.2.lgPhyStop)

def PhyReport.input : PhyReport → Input
  | .txDone airEndUs => .txDone airEndUs
  | .rxDone rx => .rxDone rx
  | .rxFailed reason => .rxFailed reason

/-- What the handler of a report asks for. -/
def reportCmd (psa : Psa) (o : Oracle) (c : Node cfg) : PhyReport → Option Cmd
  | .txDone airEndUs => txDoneCmd psa o c airEndUs
  | .rxDone rx => rxDoneCmd c rx
  | .rxFailed reason => rxFailedCmd c reason

def Input.isStop : Input → Bool
  | .stop => true
  | _ => false

def Input.isStart : Input → Bool
  | .start => true
  | _ => false

structure Stack (cfg : Config) where
  node : Node cfg
  ts : Direct := {}
  phy : Nrf

namespace Stack

/-- The driver, at the time of the node. -/
def drv (s : Stack cfg) : Nrf := s.phy.atTime s.node.nowUs

/-- A work item or a call has run: what it gave up is over in the driver and the arbiter as well,
and what it chose is asked for. -/
def worked (s : Stack cfg) (inp : Input) (c : Node cfg) (refuse : Bool) : Stack cfg :=
  if inp.isStop ∧ s.node.started then
    { node := c, ts := s.ts.lgTsRelease.lgTsUninit, phy := s.drv.lgPhyStop }
  else if Ends s.node c then
    { node := c, ts := s.ts.lgTsRelease, phy := s.drv.lgPhyStop }
  else if s.node.ev.kind = .none ∧ c.ev.kind ≠ .none then
    { node := c, ts := (s.ts.lgTsRequest c.nowUs c.ev.atUs c.ev.lenUs true refuse).2, phy := s.phy }
  else { s with node := c }

/-- A handler of the radio has run, and `x` is what it asked for. -/
def handled (c : Node cfg) (ts : Direct) (p : Nrf) (x : Option Cmd) : Stack cfg :=
  { node := c, ts := if (p.obey x).1 then ts else ts.lgTsRelease, phy := (p.obey x).2 }

/-- An interrupt of the arbiter or of the radio, and all that it calls. -/
inductive Interrupt (psa : Psa) (s : Stack cfg) : Stack cfg → Prop
  /-- The compare channel fires, and the event starts. -/
  | granted {o : Oracle} {c : Node cfg} (hdue : ∃ t ∈ s.ts.compare, t ≤ s.node.nowUs)
    (hgo : s.ts.grantHandler.1 = some .granted) (hev : s.node.ev.kind ≠ .none)
    (ho : ∀ x ∈ grantCmd psa o s.node, o.phyOk = (s.drv.obey (some x)).1)
    (hp : perform psa o s.node .granted = some c) :
    Interrupt psa s (handled c s.ts.grantHandler.2 s.drv (grantCmd psa o s.node))
  /-- The event has been given up meanwhile. -/
  | stale (hdue : ∃ t ∈ s.ts.compare, t ≤ s.node.nowUs)
    (hgo : s.ts.grantHandler.1 = some .granted) (hev : s.node.ev.kind = .none) :
    Interrupt psa s { s with ts := s.ts.grantHandler.2.lgTsRelease }
  /-- The event is refused. -/
  | refused {o : Oracle} {c : Node cfg} (hdue : ∃ t ∈ s.ts.compare, t ≤ s.node.nowUs)
    (hno : s.ts.grantHandler.1 = some .failed) (hev : s.node.ev.kind ≠ .none)
    (hp : perform psa o s.node .refused = some c) :
    Interrupt psa s (handled c s.ts.grantHandler.2 s.drv none)
  /-- There is nothing to answer, or nobody to be refused. -/
  | ignored (hdue : ∃ t ∈ s.ts.compare, t ≤ s.node.nowUs)
    (hgo : s.ts.grantHandler.1 ≠ some .granted)
    (hno : s.ts.grantHandler.1 = some .failed → s.node.ev.kind = .none) :
    Interrupt psa s { s with ts := s.ts.grantHandler.2 }
  /-- An interrupt of the radio or of its timer that the scheduler does not hear of. -/
  | radio {n : ℕ} {inp : Nrf.Input} {p : Nrf} (hi : inp.isRadio = true) (hen : s.drv.Enabled inp)
    (hp : s.drv.perform n inp = some p) (hr : p.reports = s.phy.reports) :
    Interrupt psa s { s with phy := p }
  /-- One that is reported. -/
  | reported {n : ℕ} {inp : Nrf.Input} {p : Nrf} {r : PhyReport} {o : Oracle} {c : Node cfg}
    (hi : inp.isRadio = true) (hen : s.drv.Enabled inp) (hp : s.drv.perform n inp = some p)
    (hr : p.reports = r :: s.phy.reports)
    (ho : ∀ x ∈ reportCmd psa o s.node r, o.phyOk = (p.obey (some x)).1)
    (hc : perform psa o s.node r.input = some c) :
    Interrupt psa s (handled c s.ts p (reportCmd psa o s.node r))

inductive Step (psa : Psa) (s : Stack cfg) : Stack cfg → Prop
  /-- A work item, a call of the application, or time. -/
  | work {o : Oracle} {inp : Input} {c : Node cfg} (refuse : Bool) (hi : inp.isInterrupt = false)
    (hs : inp ≠ .start) (hp : perform psa o s.node inp = some c) :
    Step psa s (s.worked inp c refuse)
  /-- The compare channel does not take a request, and the scheduler takes it back. -/
  | lapse (atUs lenUs : ℕ) (refuse : Bool) (hfree : s.node.ev.kind = .none) :
    Step psa s { s with ts := (s.ts.lgTsRequest s.node.nowUs atUs lenUs false refuse).2 }
  | interrupt {s' : Stack cfg} (h : Interrupt psa s s') : Step psa s s'

/-- `lg_start` has just come back. -/
structure Begins (psa : Psa) (ident : Identity) (s : Stack cfg) : Prop where
  reach : Reachable psa ident s.node
  started : s.node.started = true
  free : s.node.ev.kind = .none ∧ s.node.granted = false ∧ s.node.phy = .idle
  ts : s.ts = {}
  phy : ∃ earlyAbort frame0, s.phy = { Nrf.boot earlyAbort frame0 with
    netid16 := ident.networkId.toUInt16, promiscuous := true }

/-! ## What the driver makes of a command -/

end Stack

namespace Nrf

variable {p : Nrf} {x : Option Cmd} {y : Cmd}

/-- Nothing is on, and nothing will come of what was. -/
structure Rests (p : Nrf) : Prop where
  op : p.op = .idle
  timed : p.Timed
  watched : p.Watched

theorem Rests.stopped (p : Nrf) : p.lgPhyStop.Rests :=
  ⟨(lgPhyStop_idle p).1, lgPhyStop_timed p, .lgPhyStop p⟩

theorem obey_nowUs (p : Nrf) (x : Option Cmd) : (p.obey x).2.nowUs = p.nowUs := by
  have hstop : ∀ d : Nrf, d.lgPhyStop.nowUs = d.nowUs := fun d => (lgPhyStop_idle d).2.2.2
  have htx : ∀ t ch pdu, (p.lgPhyTxAt t ch pdu).2.nowUs = p.nowUs := by
    intro t ch pdu
    unfold lgPhyTxAt
    split
    · rfl
    · dsimp only
      split <;> rfl
  have hrx : ∀ t u ch, (p.lgPhyRxWindow t u ch).2.nowUs = p.nowUs := by
    intro t u ch
    unfold lgPhyRxWindow
    split
    · rfl
    · dsimp only
      split <;> rfl
  unfold obey
  split
  · exact hstop p
  · dsimp only
    split
    · exact htx _ _ _
    · exact (hstop _).trans (htx _ _ _)
  · dsimp only
    split
    · exact hrx _ _ _
    · exact (hstop _).trans (hrx _ _ _)

theorem obey_incoming (h : p.incoming = none) : (p.obey x).2.incoming = none := by
  unfold obey
  split
  · rfl
  · dsimp only
    split
    · unfold lgPhyTxAt
      split
      · exact h
      · dsimp only
        split <;> exact h
    · rfl
  · dsimp only
    split
    · unfold lgPhyRxWindow
      split
      · exact h
      · dsimp only
        split <;> exact h
    · rfl

/-- A command that is refused, and the end of the event, leave the radio at rest. -/
theorem obey_refused (h : (p.obey x).1 = false) : (p.obey x).2.Rests := by
  unfold obey at h ⊢
  split
  · exact .stopped p
  · dsimp only at h ⊢
    split at h
    · cases h
    · next hno =>
      rw [if_neg hno]
      exact .stopped _
  · dsimp only at h ⊢
    split at h
    · cases h
    · next hno =>
      rw [if_neg hno]
      exact .stopped _

/-- A command that is taken is the operation that is on. -/
theorem obey_taken (hrest : p.Rests) (h : (p.obey (some y)).1 = true) :
    (p.obey (some y)).2.op.phase = y.phy ∧ (p.obey (some y)).2.Timed ∧
      (p.obey (some y)).2.Watched := by
  have hair : p.incoming = none := hrest.watched.away (by rw [hrest.op]; simp)
  cases y with
  | tx t ch pdu =>
    unfold obey at h ⊢
    dsimp only at h ⊢
    split at h
    · next hok =>
      rw [if_pos hok]
      obtain ⟨hop, htimed⟩ := lgPhyTxAt_taken t (.ofNat ch) pdu hok
      refine ⟨by rw [hop]; rfl, htimed, .off (by rw [hop]; simp) ?_⟩
      unfold lgPhyTxAt
      split
      · exact hair
      · dsimp only
        split <;> exact hair
    · cases h
  | rx t u ch =>
    unfold obey at h ⊢
    dsimp only at h ⊢
    split at h
    · next hok =>
      rw [if_pos hok]
      obtain ⟨hop, htimed⟩ := lgPhyRxWindow_taken t u (.ofNat ch) hok
      refine ⟨by rw [hop]; rfl, htimed, .off (by rw [hop]; simp) ?_⟩
      unfold lgPhyRxWindow
      split
      · exact hair
      · dsimp only
        split <;> exact hair
    · cases h

end Nrf

namespace Stack

variable {s s' : Stack cfg} {c c' : Node cfg} {ts : Direct} {p : Nrf} {x : Option Cmd} {o : Oracle}

/-! ## The invariant -/

/-- The request of the event that waits is with the arbiter. -/
structure Waits (ts : Direct) (c : Node cfg) : Prop where
  pending : ts.reqPending = true
  compare : ts.compare = some c.ev.atUs
  atUs : ts.reqAtUs = c.ev.atUs
  lenUs : ts.reqLenUs = min c.ev.lenUs tsMaxGrantUs

/-- The arbiter has given the radio to the event that is on. -/
structure Holds (ts : Direct) (c : Node cfg) : Prop where
  pending : ts.reqPending = false
  compare : ts.compare = none
  endUs : ts.grantEndUs = c.ev.atUs + min c.ev.lenUs tsMaxGrantUs
  due : c.ev.atUs ≤ c.nowUs

/-- The three agree. -/
structure Coherent (s : Stack cfg) : Prop where
  clock : s.phy.nowUs ≤ s.node.nowUs
  partner : s.node.ev.kind = .link → ∃ i, s.node.ev.neigh = some i
  grant : s.ts.granted = s.node.granted
  busy : s.node.granted = true ↔ s.node.phy ≠ .idle
  event : s.node.granted = true → s.node.ev.kind ≠ .none
  phase : s.node.phy = s.phy.op.phase
  timed : s.phy.Timed
  watched : s.phy.Watched
  waits : s.node.ev.kind ≠ .none → s.node.granted = false → Waits s.ts s.node
  holds : s.node.granted = true → Holds s.ts s.node

theorem Coherent.rests (h : s.Coherent) (hgo : s.node.granted = false) : s.phy.Rests := by
  refine ⟨?_, h.timed, h.watched⟩
  have hidle : s.node.phy = .idle := by
    by_contra hne
    have hbusy := h.busy.mpr hne
    rw [hgo] at hbusy
    cases hbusy
  rw [h.phase] at hidle
  cases hop : s.phy.op <;> rw [hop] at hidle <;> first | rfl | cases hidle

/-- With no event on, nothing else is asked of the three. -/
theorem Coherent.of_free (hclock : s.phy.nowUs ≤ s.node.nowUs) (hev : s.node.ev.kind = .none)
    (hgo : s.node.granted = false) (hidle : s.node.phy = .idle) (hts : s.ts.granted = false)
    (hrest : s.phy.Rests) : s.Coherent := by
  refine ⟨hclock, ?_, hts.trans hgo.symm, ?_, ?_, ?_, hrest.timed, hrest.watched, ?_, ?_⟩
  · intro hl
    rw [hev] at hl
    cases hl
  · simp [hgo, hidle]
  · simp [hgo]
  · rw [hidle, hrest.op]
    rfl
  · intro hne
    exact absurd hev hne
  · simp [hgo]

/-- A handler has run: the driver is on what it asked for, or the event is over. -/
theorem handled_coherent (hb : Bids o c x c') (ho : ∀ y ∈ x, o.phyOk = (p.obey (some y)).1)
    (hrest : p.Rests)
    (hclock : p.nowUs ≤ c'.nowUs) (hnow : c.nowUs ≤ c'.nowUs) (hts : ts.granted = true)
    (hkind : c.ev.kind ≠ .none) (hn : c.ev.kind = .link → ∃ i, c.ev.neigh = some i)
    (hheld : Holds ts c) : (handled c' ts p x).Coherent := by
  have hclock' : (p.obey x).2.nowUs ≤ c'.nowUs := (p.obey_nowUs x).le.trans hclock
  cases hb with
  | taken hok hev hgo =>
    next d y =>
    have htaken : (p.obey (some y)).1 = true := (ho y rfl).symm.trans hok
    obtain ⟨hphase, htimed, hwatched⟩ := Nrf.obey_taken hrest htaken
    have hsame : (handled { d with phy := y.phy } ts p (some y)).ts = ts := if_pos htaken
    have hbusy : y.phy ≠ .idle := by cases y <;> simp [Cmd.phy]
    refine ⟨hclock', ?_, ?_, ?_, ?_, hphase.symm, htimed, hwatched, ?_, ?_⟩
    · intro hl
      change ∃ i, d.ev.neigh = some i
      change d.ev.kind = .link at hl
      rw [hev] at hl ⊢
      exact hn hl
    · rw [hsame, hts]
      exact hgo.symm
    · exact ⟨fun _ => hbusy, fun _ => hgo⟩
    · intro _
      change d.ev.kind ≠ .none
      rwa [hev]
    · intro _ hno
      have hgo' : d.granted = false := hno
      rw [hgo] at hgo'
      cases hgo'
    · intro _
      rw [hsame]
      refine ⟨hheld.pending, hheld.compare, ?_, ?_⟩
      · change ts.grantEndUs = d.ev.atUs + min d.ev.lenUs tsMaxGrantUs
        rw [hev]
        exact hheld.endUs
      · change d.ev.atUs ≤ d.nowUs
        rw [hev]
        exact hheld.due.trans hnow
  | ended hno hev =>
    next d =>
    have hrefused : (p.obey x).1 = false := by
      cases x with
      | none => rfl
      | some y =>
        have hok : o.phyOk = false := hno.resolve_left (by simp)
        rw [← ho y rfl, hok]
    refine .of_free hclock' rfl rfl rfl ?_ (Nrf.obey_refused hrefused)
    change (if (p.obey x).1 then ts else ts.lgTsRelease).granted = false
    rw [hrefused]
    rfl

/-! ## Steps -/

theorem Coherent.ungranted (h : s.Coherent) (hev : s.node.ev.kind = .none) :
    s.node.granted = false := by
  cases hgo : s.node.granted with
  | false => rfl
  | true => exact absurd hev (h.event hgo)

theorem Coherent.unbusy (h : s.Coherent) (hgo : s.node.granted = false) : s.node.phy = .idle := by
  by_contra hne
  have hbusy := h.busy.mpr hne
  rw [hgo] at hbusy
  cases hbusy

/-- The driver is as it was, but for the time. -/
theorem drv_rests (h : s.phy.Rests) : s.drv.Rests :=
  ⟨h.op, h.timed.congr rfl rfl rfl, ⟨h.watched.armed, h.watched.heard, h.watched.away⟩⟩

theorem lgStop_free (o : Oracle) (hs : c.started = true) :
    (lgStop o c).ev.kind = .none ∧ (lgStop o c).granted = false ∧ (lgStop o c).phy = .idle := by
  unfold lgStop
  rw [hs]
  exact ⟨rfl, rfl, rfl⟩

theorem worked_same {inp : Input} (refuse : Bool) (hstop : inp.isStop = false)
    (hev : c.ev = s.node.ev) : s.worked inp c refuse = { s with node := c } := by
  have hnot : ¬ (inp.isStop = true ∧ s.node.started = true) := by simp [hstop]
  have hends : ¬ Ends s.node c := fun h => h.1 (hev ▸ h.2)
  have hnew : ¬ (s.node.ev.kind = .none ∧ c.ev.kind ≠ .none) := fun h => h.2 (hev.symm ▸ h.1)
  unfold worked
  rw [if_neg hnot, if_neg hends, if_neg hnew]

theorem worked_coherent {inp : Input} (refuse : Bool) (h : s.Coherent) (hc : s.node.HsUnlinked)
    (hi : inp.isInterrupt = false) (hs : inp ≠ .start) (hp : perform psa o s.node inp = some c) :
    (s.worked inp c refuse).Coherent := by
  have hnow := perform_now hc hp
  have haffects := perform_affects hi hs hp
  have hstop : s.drv.lgPhyStop.nowUs ≤ c.nowUs := by
    rw [(Nrf.lgPhyStop_idle s.drv).2.2.2]
    exact hnow
  unfold worked
  split
  · next hst =>
    obtain ⟨hst, hstarted⟩ := hst
    have hinp : inp = .stop := by
      cases inp <;> first | rfl | cases hst
    subst hinp
    cases hp
    obtain ⟨hev, hgo, hidle⟩ := lgStop_free o hstarted
    exact .of_free hstop hev hgo hidle rfl (.stopped _)
  · split
    · next hends =>
      cases haffects with
      | same hev _ _ =>
        have hnone := hends.2
        rw [hev] at hnone
        exact absurd hnone hends.1
      | given hev hphy hgo => exact .of_free hstop hev hgo hphy rfl (.stopped _)
      | asks _ _ _ _ _ hkind _ _ _ => exact absurd hends.2 hkind
    · next hends =>
      split
      · next hnew =>
        cases haffects with
        | same hev _ _ => exact absurd (hev ▸ hnew.1) hnew.2
        | given hev _ _ => exact absurd hev hnew.2
        | asks hfree _ hno hphy hgo hkind hsoon hpartner _ =>
          have hrest := h.rests hno
          have htime : ¬ c.ev.atUs < c.nowUs + tsMinLeadUs := by
            have hlead : tsMinLeadUs ≤ schedMinHorizonUs := by decide
            omega
          have hts : (s.ts.lgTsRequest c.nowUs c.ev.atUs c.ev.lenUs true refuse).2 =
              { s.ts with
                reqAtUs := c.ev.atUs
                reqLenUs := min c.ev.lenUs tsMaxGrantUs
                reqPending := true
                reqRefuse := refuse
                compare := some c.ev.atUs } := by
            unfold Direct.lgTsRequest
            rw [if_neg htime]
            rfl
          rw [hts]
          refine ⟨h.clock.trans hnow, hpartner, h.grant.trans (hno.trans hgo.symm), ?_, ?_, ?_,
            hrest.timed, hrest.watched, fun _ _ => ⟨rfl, rfl, rfl, rfl⟩, ?_⟩
          · simp [hgo, hphy]
          · simp [hgo]
          · exact hphy.trans (by rw [hrest.op]; rfl)
          · simp [hgo]
      · next hnew =>
        cases haffects with
        | same hev hphy hgo =>
          refine ⟨h.clock.trans hnow, ?_, h.grant.trans hgo.symm, ?_, ?_, hphy.trans h.phase,
            h.timed, h.watched, ?_, ?_⟩
          · change c.ev.kind = .link → ∃ i, c.ev.neigh = some i
            rw [hev]
            exact h.partner
          · change c.granted = true ↔ c.phy ≠ .idle
            rw [hgo, hphy]
            exact h.busy
          · change c.granted = true → c.ev.kind ≠ .none
            rw [hgo, hev]
            exact h.event
          · intro hk hno
            change c.ev.kind ≠ .none at hk
            change c.granted = false at hno
            rw [hev] at hk
            rw [hgo] at hno
            obtain ⟨hpending, hcompare, hat, hlen⟩ := h.waits hk hno
            exact ⟨hpending, by rw [hcompare, ← hev], by rw [hat, ← hev], by rw [hlen, ← hev]⟩
          · intro hyes
            change c.granted = true at hyes
            rw [hgo] at hyes
            obtain ⟨hpending, hcompare, hend, hdue⟩ := h.holds hyes
            refine ⟨hpending, hcompare, by rw [hend, ← hev], ?_⟩
            rw [← hev] at hdue
            exact hdue.trans hnow
        | given hev hphy hgo =>
          have hfree : s.node.ev.kind = .none := by
            by_contra hne
            exact hends ⟨hne, hev⟩
          have hno := h.ungranted hfree
          exact .of_free (h.clock.trans hnow) hev hgo hphy (h.grant.trans hno) (h.rests hno)
        | asks hfree _ _ _ _ hkind _ _ _ => exact absurd ⟨hfree, hkind⟩ hnew

theorem grantHandler_granted {t : Direct} (h : t.grantHandler.1 = some .granted) :
    t.reqPending = true ∧ t.grantHandler.2 = { t with
      compare := none, reqPending := false, granted := true,
      grantEndUs := t.reqAtUs + t.reqLenUs } := by
  unfold Direct.grantHandler at h ⊢
  cases hp : t.reqPending with
  | false => simp [hp] at h
  | true =>
    cases hr : t.reqRefuse with
    | true => simp [hp, hr] at h
    | false => simp

theorem grantHandler_other {t : Direct} (h : t.grantHandler.1 ≠ some .granted) :
    t.grantHandler.2.granted = t.granted := by
  unfold Direct.grantHandler at h ⊢
  cases hp : t.reqPending with
  | false => simp
  | true =>
    cases hr : t.reqRefuse with
    | true => simp
    | false => simp [hp, hr] at h

theorem grantHandler_none {t : Direct} (h : t.grantHandler.1 = none) : t.reqPending = false := by
  unfold Direct.grantHandler at h
  cases hp : t.reqPending with
  | false => rfl
  | true =>
    cases hr : t.reqRefuse <;> simp [hp, hr] at h

/-- A request that comes to nothing changes nothing of the grant. -/
theorem lgTsRequest_granted (t : Direct) (nowUs atUs lenUs : ℕ) (armed refuse : Bool) :
    (t.lgTsRequest nowUs atUs lenUs armed refuse).2.granted = t.granted := by
  unfold Direct.lgTsRequest
  split
  · rfl
  · dsimp only
    split <;> rfl

theorem Coherent.retimed (h : s.Coherent) (hev : s.node.ev.kind = .none) {t : Direct}
    (ht : t.granted = false) : ({ s with ts := t } : Stack cfg).Coherent := by
  have hgo := h.ungranted hev
  exact .of_free h.clock hev hgo (h.unbusy hgo) ht (h.rests hgo)

theorem reportInput_enabled {r : PhyReport} (h : c.phy = r.phase) : Enabled c r.input := by
  cases r <;> exact h

theorem reportCmd_bids {r : PhyReport} (hgo : c.granted = true)
    (h : perform psa o c r.input = some c') : Bids o c (reportCmd psa o c r) c' := by
  cases r with
  | txDone airEndUs =>
    cases h
    exact phyTxDone_bids airEndUs hgo
  | rxDone rx =>
    cases h
    exact phyRxDone_bids rx hgo
  | rxFailed reason =>
    cases h
    exact phyRxFailed_bids reason hgo

theorem drv_step {n : ℕ} {inp : Nrf.Input} (hclock : s.phy.nowUs ≤ s.node.nowUs)
    (hen : s.drv.Enabled inp) (hp : s.drv.perform n inp = some p) : Nrf.Step s.phy p :=
  .mk hclock hen hp

theorem reportPhase_ne_idle (r : PhyReport) : r.phase ≠ .idle := by
  cases r <;> simp [PhyReport.phase]

theorem tsFailed_free (o : Oracle) (hev : c.ev.kind ≠ .none) :
    (tsFailed o c).ev.kind = .none ∧ (tsFailed o c).granted = false ∧
      (tsFailed o c).phy = .idle := by
  unfold tsFailed
  split
  · next hk => exact absurd hk hev
  all_goals exact ⟨rfl, rfl, rfl⟩

/-- An interrupt of the radio that the scheduler does not hear of, or hears of once. -/
theorem radio_moves {n : ℕ} {inp : Nrf.Input} (h : s.Coherent) (hi : inp.isRadio = true)
    (hen : s.drv.Enabled inp) (hp : s.drv.perform n inp = some p) :
    Nrf.Moves s.phy p ∧ p.Timed ∧ p.Watched ∧ p.nowUs = s.node.nowUs := by
  have htimed : s.drv.Timed := h.timed.congr rfl rfl rfl
  obtain ⟨hmoves, htimed'⟩ := Nrf.perform_moves htimed hi hen hp
  exact ⟨hmoves.of_same rfl rfl rfl, htimed', (drv_step h.clock hen hp).watched h.watched,
    Nrf.perform_nowUs hi hp⟩

/-- What is reported is the end of the operation that was on. -/
theorem reported_ends {n : ℕ} {inp : Nrf.Input} {r : PhyReport} (h : s.Coherent)
    (hi : inp.isRadio = true) (hen : s.drv.Enabled inp) (hp : s.drv.perform n inp = some p)
    (hr : p.reports = r :: s.phy.reports) :
    p.Rests ∧ p.nowUs = s.node.nowUs ∧ s.node.phy = r.phase ∧ s.node.granted = true := by
  obtain ⟨hmoves, htimed, hwatched, hnow⟩ := radio_moves h hi hen hp
  cases hmoves with
  | on hsame _ _ =>
    have hlen := congrArg List.length (hr.symm.trans hsame)
    simp at hlen
  | ends r' hr' hop hphase _ =>
    have hsame : r' = r := (List.cons.inj (hr'.symm.trans hr)).1
    subst hsame
    have hphy : s.node.phy = r'.phase := h.phase.trans hphase.symm
    refine ⟨⟨hop, htimed, hwatched⟩, hnow, hphy, h.busy.mpr ?_⟩
    rw [hphy]
    exact reportPhase_ne_idle r'

/-- The compare channel is set for an event that waits, if for any. -/
theorem Coherent.unanswered (h : s.Coherent) (hdue : ∃ t ∈ s.ts.compare, t ≤ s.node.nowUs) :
    s.node.granted = false := by
  cases hg : s.node.granted with
  | false => rfl
  | true =>
    obtain ⟨t, ht, -⟩ := hdue
    simp [(h.holds hg).compare] at ht

/-- A call of the compare channel that starts nothing and refuses nothing finds no event. -/
theorem Coherent.nobody (h : s.Coherent) (hdue : ∃ t ∈ s.ts.compare, t ≤ s.node.nowUs)
    (hgo : s.ts.grantHandler.1 ≠ some .granted)
    (hno : s.ts.grantHandler.1 = some .failed → s.node.ev.kind = .none) :
    s.node.ev.kind = .none := by
  by_contra hev
  have hnone : s.ts.grantHandler.1 = none := by
    cases hcall : s.ts.grantHandler.1 with
    | none => rfl
    | some call =>
      cases call with
      | granted => exact absurd hcall hgo
      | failed => exact absurd (hno hcall) hev
  have hpending := grantHandler_none hnone
  simp [(h.waits hev (h.unanswered hdue)).pending] at hpending

/-- An interrupt keeps the three together. -/
theorem Interrupt.coherent (hint : Interrupt psa s s') (h : s.Coherent) (hc : s.node.HsUnlinked) :
    s'.Coherent := by
  cases hint with
  | granted hdue hgo hev ho hp =>
    have hno := h.unanswered hdue
    obtain ⟨hpending, hts⟩ := grantHandler_granted hgo
    obtain ⟨-, hcompare, hat, hlen⟩ := h.waits hev hno
    obtain ⟨t, ht, hle⟩ := hdue
    have hdue : s.node.ev.atUs ≤ s.node.nowUs := by
      rw [hcompare] at ht
      cases ht
      exact hle
    have hnow := perform_now hc hp
    cases hp
    refine handled_coherent (tsGranted_bids hev h.partner) ho (drv_rests (h.rests hno)) hnow hnow
      ?_ hev h.partner ?_
    · rw [hts]
    · rw [hts]
      refine ⟨rfl, rfl, ?_, hdue⟩
      change s.ts.reqAtUs + s.ts.reqLenUs = _
      rw [hat, hlen]
  | stale hdue hgo hev => exact h.retimed hev rfl
  | refused hdue hno hev hp =>
    have hnow := perform_now hc hp
    cases hp
    obtain ⟨hev', hgo', hidle'⟩ := tsFailed_free _ hev
    refine .of_free ?_ hev' hgo' hidle' rfl (.stopped _)
    change s.drv.lgPhyStop.nowUs ≤ _
    rw [(Nrf.lgPhyStop_idle s.drv).2.2.2]
    exact hnow
  | ignored hdue hgo hno =>
    have hfree := h.nobody hdue hgo hno
    refine h.retimed hfree ?_
    rw [grantHandler_other hgo, h.grant]
    exact h.ungranted hfree
  | radio hi hen hp hr =>
    obtain ⟨hmoves, htimed, hwatched, hnow⟩ := radio_moves h hi hen hp
    cases hmoves with
    | on _ hphase _ =>
      exact ⟨hnow.le, h.partner, h.grant, h.busy, h.event, h.phase.trans hphase.symm, htimed,
        hwatched, h.waits, h.holds⟩
    | ends r hr' _ _ _ =>
      have hlen := congrArg List.length (hr'.symm.trans hr)
      simp at hlen
  | reported hi hen hp hr ho hcall =>
    obtain ⟨hrest, hnow, hphy, hgo⟩ := reported_ends h hi hen hp hr
    have htime := perform_now hc hcall
    exact handled_coherent (reportCmd_bids hgo hcall) ho hrest (hnow.le.trans htime) htime
      (h.grant.trans hgo) (h.event hgo) h.partner (h.holds hgo)

/-- So does every step. -/
theorem Step.coherent (hstep : Step psa s s') (h : s.Coherent) (hc : s.node.HsUnlinked) :
    s'.Coherent := by
  cases hstep with
  | work refuse hi hs hp => exact worked_coherent refuse h hc hi hs hp
  | lapse atUs lenUs refuse hfree =>
    refine h.retimed hfree ?_
    rw [lgTsRequest_granted, h.grant]
    exact h.ungranted hfree
  | interrupt hint => exact hint.coherent h hc

/-! ## What a step is to the node and to the driver -/

theorem Interrupt.node (hint : Interrupt psa s s') (h : s.Coherent) :
    s'.node = s.node ∨ ∃ inp o, inp.isInterrupt = true ∧ Enabled s.node inp ∧
      perform psa o s.node inp = some s'.node := by
  cases hint with
  | granted hdue hgo hev ho hp =>
    have hno := h.unanswered hdue
    exact .inr ⟨.granted, _, rfl, ⟨hev, hno⟩, hp⟩
  | refused hdue hno hev hp =>
    have hno := h.unanswered hdue
    exact .inr ⟨.refused, _, rfl, ⟨hev, hno⟩, hp⟩
  | reported hi hen hp hr ho hcall =>
    next r o c =>
    obtain ⟨-, -, hphy, -⟩ := reported_ends h hi hen hp hr
    exact .inr ⟨r.input, o, by cases r <;> rfl, reportInput_enabled hphy, hcall⟩
  | _ => exact .inl rfl

theorem Step.node (hstep : Step psa s s') (h : s.Coherent) :
    s'.node = s.node ∨ LockGrid.Step psa s.node s'.node := by
  cases hstep with
  | work refuse hi hs hp =>
    next o inp c =>
    have hen : Enabled s.node inp := by
      cases inp <;> trivial
    have hnode : (s.worked inp c refuse).node = c := by
      unfold worked
      split_ifs <;> rfl
    rw [hnode]
    exact .inr ⟨inp, o, hen, hp⟩
  | lapse atUs lenUs refuse hfree => exact .inl rfl
  | interrupt hint =>
    rcases hint.node h with hsame | ⟨inp, o, -, hen, hp⟩
    · exact .inl hsame
    · exact .inr ⟨inp, o, hen, hp⟩

theorem stop_step {q : Nrf} {t : ℕ} (hlate : q.nowUs ≤ t) :
    Nrf.Step q (q.atTime t).lgPhyStop := by
  have hen : (q.atTime t).Enabled .stop := trivial
  have hp : (q.atTime t).perform 0 .stop = some (q.atTime t).lgPhyStop := rfl
  exact .mk hlate hen hp

theorem obey_run {q : Nrf} {t : ℕ} (hlate : q.nowUs ≤ t) (hidle : q.op = .idle)
    (x : Option Cmd) : Relation.ReflTransGen Nrf.Step q ((q.atTime t).obey x).2 := by
  have hstop : ∀ d : Nrf, Nrf.Step d d.lgPhyStop := fun d => stop_step (le_refl d.nowUs)
  cases x with
  | none => exact .single (stop_step hlate)
  | some y =>
    cases y with
    | tx airStartUs chan pdu =>
      have hen : (q.atTime t).Enabled (.txAt airStartUs (.ofNat chan) pdu) := hidle
      have hp : (q.atTime t).perform 0 (.txAt airStartUs (.ofNat chan) pdu) =
          some ((q.atTime t).lgPhyTxAt airStartUs (.ofNat chan) pdu).2 := rfl
      unfold Nrf.obey
      dsimp only
      split
      · exact .single (.mk hlate hen hp)
      · exact .tail (.single (.mk hlate hen hp)) (hstop _)
    | rx openUs closeUs chan =>
      have hen : (q.atTime t).Enabled (.rxWindow openUs closeUs (.ofNat chan)) := hidle
      have hp : (q.atTime t).perform 0 (.rxWindow openUs closeUs (.ofNat chan)) =
          some ((q.atTime t).lgPhyRxWindow openUs closeUs (.ofNat chan)).2 := rfl
      unfold Nrf.obey
      dsimp only
      split
      · exact .single (.mk hlate hen hp)
      · exact .tail (.single (.mk hlate hen hp)) (hstop _)

theorem Interrupt.driver (hint : Interrupt psa s s') (h : s.Coherent) :
    Relation.ReflTransGen Nrf.Step s.phy s'.phy := by
  cases hint with
  | granted hdue hgo hev ho hp =>
    have hno := h.unanswered hdue
    exact obey_run h.clock (h.rests hno).op _
  | refused hdue hno hev hp => exact .single (stop_step h.clock)
  | radio hi hen hp hr => exact .single (drv_step h.clock hen hp)
  | reported hi hen hp hr ho hcall =>
    obtain ⟨hrest, -, -, -⟩ := reported_ends h hi hen hp hr
    exact .head (drv_step h.clock hen hp) (obey_run le_rfl hrest.op _)
  | _ => exact .refl

theorem Step.driver (hstep : Step psa s s') (h : s.Coherent) :
    Relation.ReflTransGen Nrf.Step s.phy s'.phy := by
  cases hstep with
  | work refuse hi hs hp =>
    have hstop : Nrf.Step s.phy s.drv.lgPhyStop := stop_step h.clock
    unfold worked
    split_ifs
    · exact .single hstop
    · exact .single hstop
    · exact .refl
    · exact .refl
  | lapse atUs lenUs refuse hfree => exact .refl
  | interrupt hint => exact hint.driver h

/-! ## Runs -/

variable {ident : Identity} {s₀ : Stack cfg}

theorem Begins.coherent (h : s.Begins psa ident) : s.Coherent := by
  obtain ⟨hev, hgo, hidle⟩ := h.free
  obtain ⟨earlyAbort, frame0, hphy⟩ := h.phy
  refine .of_free ?_ hev hgo hidle ?_ ?_
  · rw [hphy]
    exact Nat.zero_le _
  · rw [h.ts]
  · rw [hphy]
    exact ⟨rfl, .idle rfl rfl, .off (by simp [Nrf.boot]) rfl⟩

/-- What runs keep. -/
structure Follows (psa : Psa) (ident : Identity) (s₀ s : Stack cfg) : Prop where
  coherent : s.Coherent
  reach : Reachable psa ident s.node
  node : Relation.ReflTransGen (LockGrid.Step psa) s₀.node s.node
  driver : Relation.ReflTransGen Nrf.Step s₀.phy s.phy

theorem Begins.follows (h : s₀.Begins psa ident)
    (hrun : Relation.ReflTransGen (Step psa) s₀ s) : Follows psa ident s₀ s := by
  induction hrun with
  | refl => exact ⟨h.coherent, h.reach, .refl, .refl⟩
  | tail _ hstep ih =>
    have hcoherent := hstep.coherent ih.coherent ih.reach.hsUnlinked
    have hdriver := ih.driver.trans (hstep.driver ih.coherent)
    rcases hstep.node ih.coherent with hsame | hnode
    · exact ⟨hcoherent, hsame.symm ▸ ih.reach, hsame.symm ▸ ih.node, hdriver⟩
    · exact ⟨hcoherent, ih.reach.tail hnode, ih.node.tail hnode, hdriver⟩

theorem Coherent.op_ne_idle (h : s.Coherent) : s.phy.op ≠ .idle ↔ s.ts.granted = true := by
  rw [h.grant, h.busy, h.phase]
  cases s.phy.op <;> simp [PhyOp.phase]

/-- **The radio is used as granted.** In every run of the scheduler with its arbiter and its driver,
whatever the order of interrupts, work items and calls, the node sees a grant or a refusal only
while it waits for one, and a report only of the operation it commanded, and the driver is commanded
only at rest. The radio is on exactly while the arbiter has given it to the event that is on, from
the time asked for and for the length asked for; and while an event waits, the arbiter has its
request. -/
theorem stack_refines (hb : s₀.Begins psa ident)
    (hrun : Relation.ReflTransGen (Step psa) s₀ s) :
    Relation.ReflTransGen (LockGrid.Step psa) s₀.node s.node ∧
    Relation.ReflTransGen Nrf.Step s₀.phy s.phy ∧
    (s.phy.op ≠ .idle ↔ s.ts.granted = true) ∧
    (s.ts.granted = true → s.node.ev.kind ≠ .none ∧ s.node.ev.atUs ≤ s.node.nowUs ∧
      s.ts.lgTsGrantEndUs = s.node.ev.atUs + min s.node.ev.lenUs tsMaxGrantUs ∧
      s.phy.op.phase = s.node.phy) ∧
    (s.node.ev.kind ≠ .none → s.ts.granted = false → s.ts.reqPending = true ∧
      s.ts.compare = some s.node.ev.atUs ∧ s.phy.timer = none) := by
  have hfollows := hb.follows hrun
  have h := hfollows.coherent
  refine ⟨hfollows.node, hfollows.driver, h.op_ne_idle, fun hgo => ?_, fun hev hno => ?_⟩
  · have hnode : s.node.granted = true := h.grant.symm.trans hgo
    obtain ⟨-, -, hend, hdue⟩ := h.holds hnode
    refine ⟨h.event hnode, hdue, ?_, h.phase.symm⟩
    unfold Direct.lgTsGrantEndUs
    rw [if_pos hgo, hend]
  · have hnode : s.node.granted = false := h.grant.symm.trans hno
    obtain ⟨hpending, hcompare, -, -⟩ := h.waits hev hnode
    have hrest := h.rests hnode
    exact ⟨hpending, hcompare, hrest.timed.timer_of_idle hrest.op⟩

/-! ## Runs as computations -/

inductive Move
  | work (o : Oracle) (inp : Input)
  | compare (o : Oracle)
  | radio (o : Oracle) (inp : Nrf.Input)

/-- A step, when it can be made and no request is refused. -/
def next (psa : Psa) (s : Stack cfg) : Move → Option (Stack cfg)
  | .work o inp =>
    if inp.isInterrupt ∨ inp.isStart then none
    else (perform psa o s.node inp).map fun c => s.worked inp c false
  | .compare o =>
    if (∃ t ∈ s.ts.compare, t ≤ s.node.nowUs) ∧ s.ts.grantHandler.1 = some .granted ∧
        s.node.ev.kind ≠ .none ∧
        ∀ x ∈ grantCmd psa o s.node, o.phyOk = (s.drv.obey (some x)).1 then
      (perform psa o s.node .granted).map fun c =>
        handled c s.ts.grantHandler.2 s.drv (grantCmd psa o s.node)
    else none
  | .radio o inp =>
    if inp.isRadio ∧ s.drv.Enabled inp then
      (s.drv.perform 2 inp).bind fun p =>
        if p.reports = s.phy.reports then some { s with phy := p }
        else match p.reports with
        | [] => none
        | r :: earlier =>
          if earlier = s.phy.reports ∧
              ∀ x ∈ reportCmd psa o s.node r, o.phyOk = (p.obey (some x)).1 then
            (perform psa o s.node r.input).map fun c =>
              handled c s.ts p (reportCmd psa o s.node r)
          else none
    else none

theorem next_step (psa : Psa) (s : Stack cfg) (m : Move) (s' : Stack cfg)
    (h : next psa s m = some s') : Step psa s s' := by
  cases m with
  | work o inp =>
    unfold next at h
    dsimp only at h
    split at h
    · cases h
    · next hinp =>
      obtain ⟨c, hc, rfl⟩ := Option.map_eq_some_iff.mp h
      rw [not_or, Bool.not_eq_true] at hinp
      refine .work false hinp.1 ?_ hc
      rintro rfl
      exact hinp.2 rfl
  | compare o =>
    unfold next at h
    dsimp only at h
    split at h
    · next hgo =>
      obtain ⟨hdue, hgo, hev, ho⟩ := hgo
      obtain ⟨c, hc, rfl⟩ := Option.map_eq_some_iff.mp h
      exact .interrupt (.granted hdue hgo hev ho hc)
    · cases h
  | radio o inp =>
    unfold next at h
    dsimp only at h
    split at h
    · next hinp =>
      obtain ⟨hi, hen⟩ := hinp
      obtain ⟨p, hp, h⟩ := Option.bind_eq_some_iff.mp h
      split at h
      · next hsame =>
        cases h
        exact .interrupt (.radio hi hen hp hsame)
      · split at h
        · cases h
        · next r earlier hreports =>
          split at h
          · next hgo =>
            obtain ⟨c, hc, rfl⟩ := Option.map_eq_some_iff.mp h
            exact .interrupt (.reported hi hen hp (hreports.trans (congrArg _ hgo.1)) hgo.2 hc)
          · cases h
    · cases h

/-- The driver as `lg_start` leaves it for node 1. -/
def startedPhy : Nrf := { Nrf.boot true 0 with netid16 := 7, promiscuous := true }

/-- Node 1 scans: the grant comes, and the receiver goes on. -/
def scanMoves : List Move :=
  [.work (calm 2) .schedWork, .work (calm 2) (.tick 15900), .compare (calm 2),
    .work (calm 2) (.tick 61), .radio (calm 2) .fire]

theorem scan_run :
    ∃ s₀ s : Stack .default, s₀.Begins Psa.plain (plainIdent 1 1) ∧ s₀.phy = startedPhy ∧
      Relation.ReflTransGen (Step Psa.plain) s₀ s ∧ s.phy.op = .rx ∧ s.phy.incoming = none ∧
      s.node.ev.kind = .scan ∧ s.node.ev.atUs = 16900 ∧ s.node.ev.lenUs = 31100 ∧
      s.node.ev.anchorUs = 17000 ∧ s.node.ev.closeUs = 47000 := by
  obtain ⟨c, hreach, hbefore⟩ := exists_reachable Psa.plain (plainIdent 1 1)
    [(calm 1, .tick 1000), (calm 1, .start)]
    (fun c : Node .default => decide (c.started = true ∧ c.ev.kind = .none ∧ c.granted = false ∧
        c.phy = .idle) &&
      (scanMoves.foldlM (next Psa.plain) { node := c, phy := startedPhy }).any
        fun s : Stack .default => decide (s.phy.op = .rx ∧ s.phy.incoming = none ∧
          s.node.ev.kind = .scan ∧ s.node.ev.atUs = 16900 ∧ s.node.ev.lenUs = 31100 ∧
          s.node.ev.anchorUs = 17000 ∧ s.node.ev.closeUs = 47000))
    (by decide +kernel)
  obtain ⟨hstate, hafter⟩ := Bool.and_eq_true_iff.mp hbefore
  obtain ⟨hstarted, hfree⟩ := of_decide_eq_true hstate
  obtain ⟨s, hrun, hend⟩ := Traces.exists_run (next_step Psa.plain) scanMoves
    { node := c, phy := startedPhy } _ hafter
  exact ⟨_, s, ⟨hreach, hstarted, hfree, rfl, true, 0, rfl⟩, rfl, hrun, of_decide_eq_true hend⟩

theorem stack_refines_scan :
    ∃ s₀ s : Stack .default, s₀.Begins Psa.plain (plainIdent 1 1) ∧ s.phy.op = .rx ∧
      Relation.ReflTransGen (LockGrid.Step Psa.plain) s₀.node s.node ∧
      Relation.ReflTransGen Nrf.Step startedPhy s.phy ∧ s.ts.lgTsGrantEndUs = 16900 + 31100 := by
  obtain ⟨s₀, s, hb, hphy, hrun, hop, -, -, hat, hlen, -, -⟩ := scan_run
  obtain ⟨hnode, hdriver, hbusy, hgrant, -⟩ := stack_refines hb hrun
  have hgo := hbusy.mp (by rw [hop]; simp)
  refine ⟨s₀, s, hb, hop, hnode, hphy ▸ hdriver, ?_⟩
  rw [(hgrant hgo).2.2.1, hat, hlen]
  rfl

end Stack

end LockGrid
