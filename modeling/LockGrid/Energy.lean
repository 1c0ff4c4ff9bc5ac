import LockGrid.Power
import LockGrid.Stack

/-!
# What the energy report shows

The accounts kept beside a node with its arbiter and its radio. Start handlers say what the radio
time of their event is for, and no event uses the radio in a way the report has no line for.
-/
namespace LockGrid

variable {cfg : Config} {psa : Psa}

/-- What the start handler of an event puts its radio time down to. -/
def EvKind.act : EvKind → PwrAct
  | .beacon => .beacon
  | .scan | .track => .scan
  | .joinTx | .joinRx => .join
  | .chanEval => .chanEval
  | .link | .none => .link

/-- Whether an event of this kind sends, or listens. -/
def EvKind.Suits (kind : EvKind) : Phy → Prop
  | .idle => True
  | .tx => kind = .beacon ∨ kind = .link ∨ kind = .joinTx
  | .rx => kind = .scan ∨ kind = .track ∨ kind = .link ∨ kind = .joinRx

/-! ## What the handlers ask for -/

section

variable {c : Node cfg} {o : Oracle} {y : Cmd}

theorem copyCmd_phy {t k : ℕ} (h : y ∈ copyCmd c t k) : y.phy = .tx := by
  unfold copyCmd at h
  split at h
  · dsimp only at h
    split at h
    · cases h
    · cases h
      rfl
  · cases h

theorem fragCmd_phy {t k : ℕ} (h : y ∈ fragCmd psa o c t k) : y.phy = .tx := by
  unfold fragCmd at h
  dsimp only at h
  split at h
  · cases h
  · cases h
    rfl

theorem listenOnCmd_phy (h : y ∈ listenOnCmd c) : y.phy = .rx := by
  unfold listenOnCmd at h
  split at h
  · cases h
    rfl
  · cases h

theorem grantCmd_suits (h : y ∈ grantCmd psa o c) : c.ev.kind.Suits y.phy := by
  unfold grantCmd at h
  dsimp only at h
  split at h
  · next hk _ =>
    rw [hk]
    split at h <;> cases h <;> simp [EvKind.Suits, Cmd.phy]
  · next hk =>
    split at h
    · cases h
    · rw [hk, copyCmd_phy h]
      exact .inl rfl
  · next hk =>
    cases h
    exact .inl hk
  · next hk =>
    cases h
    exact .inr (.inl hk)
  · next hk =>
    split at h
    · cases h
    · rw [hk, fragCmd_phy h]
      exact .inr (.inr rfl)
  · next hk =>
    cases h
    exact .inr (.inr (.inr hk))
  · cases h

theorem txDoneCmd_suits {t : ℕ} (h : y ∈ txDoneCmd psa o c t) : c.ev.kind.Suits y.phy := by
  unfold txDoneCmd at h
  split at h
  · next hk _ =>
    dsimp only at h
    split at h
    · cases h
    · cases h
      exact .inr (.inr (.inl hk))
  · next hk =>
    rw [hk, copyCmd_phy h]
    exact .inl rfl
  · next hk =>
    split at h
    · rw [hk, fragCmd_phy h]
      exact .inr (.inr rfl)
    · cases h
  · cases h

theorem rxDoneCmd_suits {rx : RxRec} (h : y ∈ rxDoneCmd c rx) : c.ev.kind.Suits y.phy := by
  unfold rxDoneCmd at h
  split at h
  · next hk _ =>
    split at h
    · cases h
    · split at h
      · cases h
        exact .inr (.inl hk)
      · cases h
  · next hk =>
    split at h
    · cases h
    · rw [hk, listenOnCmd_phy h]
      exact .inl rfl
  · next hk =>
    rw [hk, listenOnCmd_phy h]
    exact .inr (.inr (.inr rfl))
  · cases h

theorem rxFailedCmd_suits {reason : RxFail} (h : y ∈ rxFailedCmd c reason) :
    c.ev.kind.Suits y.phy := by
  unfold rxFailedCmd at h
  split at h
  · next hk =>
    split at h
    · rw [hk, listenOnCmd_phy h]
      exact .inl rfl
    · cases h
  · next hk =>
    split at h
    · rw [hk, listenOnCmd_phy h]
      exact .inr (.inr (.inr rfl))
    · cases h
  · cases h

theorem reportCmd_suits {r : PhyReport} (h : y ∈ reportCmd psa o c r) :
    c.ev.kind.Suits y.phy := by
  cases r with
  | txDone t => exact txDoneCmd_suits h
  | rxDone rx => exact rxDoneCmd_suits h
  | rxFailed reason => exact rxFailedCmd_suits h

end

/-! ## The accounts of a run -/

/-- A node with its arbiter, its radio and its accounts, how often it was granted the radio and
what it was charged, the newest first. -/
structure Powered (cfg : Config) where
  stack : Stack cfg
  pw : Pw
  grants : ℕ := 0
  charges : List Charge := []

namespace Powered

/-- How often the radio was started. -/
def starts (x : Powered cfg) : ℕ := x.charges.count .eventStart

/-- How often it was turned round. -/
def turnarounds (x : Powered cfg) : ℕ := x.charges.count .turnaround

/-- The compare channel fires, and the event starts. -/
def Grants (psa : Psa) (s s' : Stack cfg) : Prop :=
  ∃ (o : Oracle) (c : Node cfg), (∃ t ∈ s.ts.compare, t ≤ s.node.nowUs) ∧
    s.ts.grantHandler.1 = some .granted ∧ s.node.ev.kind ≠ .none ∧
    (∀ x ∈ grantCmd psa o s.node, o.phyOk = (s.drv.obey (some x)).1) ∧
    perform psa o s.node .granted = some c ∧
    s' = Stack.handled c s.ts.grantHandler.2 s.drv (grantCmd psa o s.node)

/-- What the start handler of an event charges by itself. -/
def startCharges (s : Stack cfg) : List Charge :=
  if s.node.ev.kind = .chanEval then s.drv.noiseFloorCharges 512 else []

inductive Step (psa : Psa) (k : PwrConfig) (x : Powered cfg) : Powered cfg → Prop
  /-- An event starts: first its handler says what the radio time is for. -/
  | start {s' : Stack cfg} {new : List Charge} (h : Grants psa x.stack s')
    (hnew : s'.phy.charges = new ++ x.stack.phy.charges) :
    Step psa k x {
      stack := s'
      pw := (lgPowerActivity x.stack.node.ev.kind.act x.pw).charged k
        (new ++ startCharges x.stack)
      grants := x.grants + 1
      charges := (new ++ startCharges x.stack) ++ x.charges }
  | other {s' : Stack cfg} {new : List Charge} (h : Stack.Step psa x.stack s')
    (hno : ¬ Grants psa x.stack s') (hnew : s'.phy.charges = new ++ x.stack.phy.charges) :
    Step psa k x
      { x with stack := s', pw := x.pw.charged k new, charges := new ++ x.charges }

/-! ## What every step keeps -/

/-- Event starts that the event that is on may still be charged. -/
def owing (s : Stack cfg) : ℕ := if s.node.granted then s.phy.due else 0

/-- Nothing is put down to what the report does not show, and air time to nothing but its own. -/
structure Shown (w : Pw) (spentUs : ℕ) : Prop where
  rxBeacon : w.rxUs .beacon = 0
  txScan : w.txUs .scan = 0
  txChanEval : w.txUs .chanEval = 0
  air : actSum w.rxUs + actSum w.txUs = spentUs + w.rxUs .chanEval

/-- The driver's clock is past what it was charged, its operation is one the event makes use of,
and its time is put down to that event. -/
structure Attributed (t₀ : ℕ) (k : PwrConfig) (x : Powered cfg) : Prop where
  metered : x.stack.drv.Metered t₀
  suits : x.stack.node.ev.kind.Suits x.stack.phy.op.phase
  act : x.stack.phy.op ≠ .idle → x.pw.act = x.stack.node.ev.kind.act
  shown : Shown x.pw x.stack.phy.spentUs
  balanced : x.pw.Balanced k x.charges
  starts : x.starts + owing x.stack ≤ x.grants
  since : x.pw.startUs = t₀

variable {t₀ n : ℕ} {k : PwrConfig} {x : Powered cfg} {s' : Stack cfg} {p : Nrf}
  {new : List Charge} {c : Node cfg} {o : Oracle} {w : Pw}

/-- Charges of the operation that is on go to the lines of the report. -/
theorem Shown.charged {kind : EvKind} {phase : Phy} {spent : ℕ} (h : Shown w spent)
    (hact : phase ≠ .idle → w.act = kind.act) (hsuits : kind.Suits phase)
    (htx : ∀ us, .tx us ∈ new → phase = .tx) (hrx : ∀ us, .rx us ∈ new → phase = .rx) :
    Shown (w.charged k new) (spent + (new.map Charge.airUs).sum) := by
  have hrx' : ∀ a, (phase = .rx → w.act ≠ a) → (w.charged k new).rxUs a = w.rxUs a := by
    intro a hne
    by_cases hp : phase = .rx
    · exact Pw.charged_other.1 (.inl (hne hp))
    · exact Pw.charged_other.1 (.inr fun us hmem => hp (hrx us hmem))
  have htx' : ∀ a, (phase = .tx → w.act ≠ a) → (w.charged k new).txUs a = w.txUs a := by
    intro a hne
    by_cases hp : phase = .tx
    · exact Pw.charged_other.2 (.inl (hne hp))
    · exact Pw.charged_other.2 (.inr fun us hmem => hp (htx us hmem))
  have hlisten : phase = .rx → w.act ≠ .beacon ∧ w.act ≠ .chanEval := by
    rintro rfl
    rw [hact (by simp)]
    rcases hsuits with rfl | rfl | rfl | rfl <;> simp [EvKind.act]
  have hsend : phase = .tx → w.act ≠ .scan ∧ w.act ≠ .chanEval := by
    rintro rfl
    rw [hact (by simp)]
    rcases hsuits with rfl | rfl | rfl <;> simp [EvKind.act]
  constructor
  · rw [hrx' .beacon fun hp => (hlisten hp).1]
    exact h.rxBeacon
  · rw [htx' .scan fun hp => (hsend hp).1]
    exact h.txScan
  · rw [htx' .chanEval fun hp => (hsend hp).2]
    exact h.txChanEval
  · rw [Pw.charged_airUs, hrx' .chanEval fun hp => (hlisten hp).2, h.air]
    omega

/-- A command is taken or refused without a charge. -/
theorem obey_metered (hrest : p.Rests) (hm : p.Metered t₀) (x : Option Cmd) :
    (p.obey x).2.charges = p.charges ∧ (p.obey x).2.Metered t₀ ∧
      ((p.obey x).1 = true → (p.obey x).2.inEvent = p.inEvent) := by
  have hstop : ∀ q : Nrf, q.op = .idle → q.Metered t₀ →
      q.lgPhyStop.charges = q.charges ∧ q.lgPhyStop.Metered t₀ := by
    intro q hop hq
    obtain ⟨new, hcharges, -, hnew, hlast⟩ := Nrf.lgPhyStop_pays hq
    have hnone : new = [] := by
      by_contra hne
      have hrx := hnew hne
      rw [hop] at hrx
      cases hrx
    exact ⟨by rw [hcharges, hnone, List.nil_append], hlast⟩
  have hrefused : ∀ q : Nrf, q.charges = p.charges → q.op = .idle → q.Metered t₀ →
      q.lgPhyStop.charges = p.charges ∧ q.lgPhyStop.Metered t₀ := by
    intro q hcharges hop hq
    obtain ⟨hc, hlast⟩ := hstop q hop hq
    exact ⟨hc.trans hcharges, hlast⟩
  unfold Nrf.obey
  split
  · obtain ⟨hc, hlast⟩ := hstop p hrest.op hm
    exact ⟨hc, hlast, by simp⟩
  · next t ch pdu =>
    obtain ⟨hc, hin, hlast⟩ := Nrf.lgPhyTxAt_metered hrest.op hm t (.ofNat ch) pdu
    have hidle := Nrf.lgPhyTxAt_idle hrest.op t (.ofNat ch) pdu
    dsimp only
    split
    · exact ⟨hc, hlast, fun _ => hin⟩
    · next hno =>
      obtain ⟨hc', hlast'⟩ := hrefused _ hc (hidle (by simpa using hno)) hlast
      exact ⟨hc', hlast', by simp⟩
  · next t u ch =>
    obtain ⟨hc, hin, hlast⟩ := Nrf.lgPhyRxWindow_metered hrest.op hm t u (.ofNat ch)
    have hidle := Nrf.lgPhyRxWindow_idle hrest.op t u (.ofNat ch)
    dsimp only
    split
    · exact ⟨hc, hlast, fun _ => hin⟩
    · next hno =>
      obtain ⟨hc', hlast'⟩ := hrefused _ hc (hidle (by simpa using hno)) hlast
      exact ⟨hc', hlast', by simp⟩

theorem spentUs_congr {q : Nrf} (h : q.charges = p.charges) : q.spentUs = p.spentUs := by
  rw [Nrf.spentUs, Nrf.spentUs, h]

theorem spentUs_append {q : Nrf} (h : q.charges = new ++ p.charges) :
    q.spentUs = p.spentUs + (new.map Charge.airUs).sum := by
  rw [Nrf.spentUs, Nrf.spentUs, h, List.map_append, List.sum_append, Nat.add_comm]

/-- A handler has run: what it asks for is a use the event makes of the radio. -/
theorem handled_attributed {c' : Node cfg} {ts : Direct} {y : Option Cmd} {g : ℕ}
    {l : List Charge}
    (hb : Bids o c y c') (ho : ∀ a ∈ y, o.phyOk = (p.obey (some a)).1) (hrest : p.Rests)
    (hm : p.Metered t₀) (hclock : p.nowUs ≤ c'.nowUs)
    (hsuits : ∀ a ∈ y, c.ev.kind.Suits a.phy) (hact : w.act = c.ev.kind.act)
    (hshown : Shown w p.spentUs) (hbal : w.Balanced k l) (hstarts : l.count .eventStart ≤ g)
    (howed : y ≠ none → l.count .eventStart + p.due ≤ g) (hsince : w.startUs = t₀) :
    Attributed t₀ k ⟨Stack.handled c' ts p y, w, g, l⟩ := by
  obtain ⟨hcharges, hlast, hin⟩ := obey_metered hrest hm y
  have hmetered : ((p.obey y).2.atTime c'.nowUs).Metered t₀ :=
    hlast.atTime ((p.obey_nowUs y).le.trans hclock)
  have hshown' : Shown w (p.obey y).2.spentUs := by
    rw [spentUs_congr hcharges]
    exact hshown
  cases hb with
  | taken hok hev hgo =>
    next d a =>
    have htaken : (p.obey (some a)).1 = true := (ho a rfl).symm.trans hok
    obtain ⟨hphase, -, -⟩ := Nrf.obey_taken hrest htaken
    refine ⟨hmetered, ?_, fun _ => ?_, hshown', hbal, ?_, hsince⟩
    · change d.ev.kind.Suits (p.obey (some a)).2.op.phase
      rw [hphase, hev]
      exact hsuits a rfl
    · change w.act = d.ev.kind.act
      rw [hact, hev]
    · have hsame : (p.obey (some a)).2.due = p.due := by
        unfold Nrf.due
        rw [hin htaken]
      change l.count .eventStart + (if d.granted then (p.obey (some a)).2.due else 0) ≤ g
      rw [if_pos hgo, hsame]
      exact howed (by simp)
  | ended hno _ =>
    next d =>
    have hrefused : (p.obey y).1 = false := by
      cases y with
      | none => rfl
      | some a =>
        have hok : o.phyOk = false := hno.resolve_left (by simp)
        rw [← ho a rfl, hok]
    have hidle := (Nrf.obey_refused hrefused).op
    refine ⟨hmetered, ?_, fun hne => absurd hidle hne, hshown', hbal, ?_, hsince⟩
    · change EvKind.none.Suits (p.obey y).2.op.phase
      rw [hidle]
      trivial
    · exact hstarts

/-! ## Steps -/

/-- The radio has been stopped, and the event is over. -/
theorem stopped_attributed {ts : Direct} (h : Attributed t₀ k x) (hgo : c.granted = false)
    (hnow : x.stack.node.nowUs ≤ c.nowUs)
    (hnew : x.stack.drv.lgPhyStop.charges = new ++ x.stack.phy.charges) :
    Attributed t₀ k { x with
      stack := ⟨c, ts, x.stack.drv.lgPhyStop⟩, pw := x.pw.charged k new
      charges := new ++ x.charges } := by
  obtain ⟨new', hcharges, hall, hrx, hlast⟩ := Nrf.lgPhyStop_pays h.metered
  obtain rfl : new = new' := List.append_cancel_right (hnew.symm.trans hcharges)
  have hno : ∀ us, .tx us ∉ new := by
    intro us hmem
    obtain ⟨us', he⟩ := hall _ hmem
    cases he
  have hcount : new.count .eventStart = 0 := by
    rw [List.count_eq_zero]
    intro hmem
    obtain ⟨us, he⟩ := hall _ hmem
    cases he
  have hshown : Shown (x.pw.charged k new)
      (x.stack.phy.spentUs + (new.map Charge.airUs).sum) := by
    refine h.shown.charged (fun hne => h.act ?_) h.suits (fun us hmem => absurd hmem (hno us))
      fun us hmem => ?_
    · intro hop
      rw [hop] at hne
      exact hne rfl
    · have hop : x.stack.phy.op = .rx := hrx (List.ne_nil_of_mem hmem)
      rw [hop]
      rfl
  refine ⟨?_, ?_, fun hne => absurd rfl hne, ?_, h.balanced.charged new, ?_, ?_⟩
  · exact hlast.atTime ((Nrf.lgPhyStop_idle x.stack.drv).2.2.2.le.trans hnow)
  · exact trivial
  · change Shown _ x.stack.drv.lgPhyStop.spentUs
    rw [spentUs_append hcharges]
    exact hshown
  · change (new ++ x.charges).count .eventStart + (if c.granted then _ else 0) ≤ x.grants
    rw [List.count_append, hcount, hgo, Nat.zero_add]
    exact (Nat.le_add_right _ _).trans h.starts
  · exact (Pw.charged_startUs k new x.pw).trans h.since

/-- Nothing of the radio has changed. -/
theorem unmoved_attributed (h : Attributed t₀ k x) (hphy : s'.phy = x.stack.phy)
    (hsame : x.stack.phy.op = .idle ∧ s'.node.granted = false ∨
      s'.node.ev = x.stack.node.ev ∧ s'.node.granted = x.stack.node.granted)
    (hnow : x.stack.node.nowUs ≤ s'.node.nowUs)
    (hnew : s'.phy.charges = new ++ x.stack.phy.charges) :
    Attributed t₀ k
      { x with stack := s', pw := x.pw.charged k new, charges := new ++ x.charges } := by
  have hnone : new = [] := by
    rw [hphy] at hnew
    exact List.self_eq_append_left.mp hnew
  subst hnone
  have hmetered : s'.drv.Metered t₀ := by
    unfold Stack.drv
    rw [hphy]
    exact h.metered.atTime hnow
  have hshown : Shown x.pw s'.phy.spentUs := by
    rw [hphy]
    exact h.shown
  rcases hsame with ⟨hidle, hgo⟩ | ⟨hev, hgo⟩
  · refine ⟨hmetered, ?_, fun hne => absurd ?_ hne, hshown, h.balanced, ?_, h.since⟩
    · change s'.node.ev.kind.Suits s'.phy.op.phase
      rw [hphy, hidle]
      trivial
    · change s'.phy.op = .idle
      rw [hphy, hidle]
    · change x.starts + (if s'.node.granted then _ else 0) ≤ x.grants
      rw [hgo]
      exact (Nat.le_add_right _ _).trans h.starts
  · refine ⟨hmetered, ?_, fun hne => ?_, hshown, h.balanced, ?_, h.since⟩
    · change s'.node.ev.kind.Suits s'.phy.op.phase
      rw [hphy, hev]
      exact h.suits
    · change x.pw.act = s'.node.ev.kind.act
      rw [hev]
      apply h.act
      rw [← hphy]
      exact hne
    · change x.starts + (if s'.node.granted then s'.phy.due else 0) ≤ x.grants
      rw [hgo, hphy]
      exact h.starts

theorem worked_attributed {inp : Input} (refuse : Bool) (h : Attributed t₀ k x)
    (hs : x.stack.Coherent) (hc : x.stack.node.HsUnlinked) (hi : inp.isInterrupt = false)
    (hst : inp ≠ .start) (hp : perform psa o x.stack.node inp = some c)
    (hnew : (x.stack.worked inp c refuse).phy.charges = new ++ x.stack.phy.charges) :
    Attributed t₀ k { x with
      stack := x.stack.worked inp c refuse, pw := x.pw.charged k new
      charges := new ++ x.charges } := by
  have hnow := perform_now hc hp
  have haffects := perform_affects hi hst hp
  have hidle : x.stack.node.granted = false → x.stack.phy.op = .idle := fun hgo => (hs.rests hgo).op
  unfold Stack.worked at hnew ⊢
  split at hnew
  · next hstop =>
    rw [if_pos hstop]
    obtain ⟨hstop, hstarted⟩ := hstop
    have hinp : inp = .stop := by
      cases inp <;> first | rfl | cases hstop
    subst hinp
    cases hp
    obtain ⟨-, hgo, -⟩ := Stack.lgStop_free o hstarted
    exact stopped_attributed h hgo hnow hnew
  · next hstop =>
    rw [if_neg hstop]
    split at hnew
    · next hends =>
      rw [if_pos hends]
      cases haffects with
      | same hev _ _ => exact absurd (hev ▸ hends.2) hends.1
      | given _ _ hgo => exact stopped_attributed h hgo hnow hnew
      | asks _ _ _ _ _ hkind _ _ _ => exact absurd hends.2 hkind
    · next hends =>
      rw [if_neg hends]
      split at hnew
      · next hask =>
        rw [if_pos hask]
        cases haffects with
        | same hev _ _ => exact absurd (hev ▸ hask.1) hask.2
        | given hev _ _ => exact absurd hev hask.2
        | asks _ _ hno _ hgo _ _ _ _ =>
          exact unmoved_attributed h rfl (.inl ⟨hidle hno, hgo⟩) hnow hnew
      · next hask =>
        rw [if_neg hask]
        cases haffects with
        | same hev _ hgo => exact unmoved_attributed h rfl (.inr ⟨hev, hgo⟩) hnow hnew
        | given hev _ hgo =>
          have hfree : x.stack.node.ev.kind = .none := by
            by_contra hne
            exact hends ⟨hne, hev⟩
          exact unmoved_attributed h rfl (.inl ⟨hidle (hs.ungranted hfree), hgo⟩) hnow hnew
        | asks hfree _ _ _ _ hkind _ _ _ => exact absurd ⟨hfree, hkind⟩ hask

/-- The receiver of a channel evaluation is charged, and shown on a line of its own. -/
theorem Shown.evaluated {spent : ℕ} (h : Shown w spent) (hact : w.act = .chanEval) (us : ℕ) :
    Shown (w.charged k (p.noiseFloorCharges us)) spent := by
  unfold Nrf.noiseFloorCharges
  generalize max (us / Nrf.edLoopUs) 1 * Nrf.edLoopUs = loops
  have hair := h.air
  have hrx := actSum_update w.rxUs .chanEval loops
  cases p.inEvent
  all_goals
    constructor
    · simpa [Pw.charged, Charge.apply, lgPowerCharge, lgPowerEventStart, lgPowerTurnaround, hact]
        using h.rxBeacon
    · exact h.txScan
    · exact h.txChanEval
    · simp only [Pw.charged, Charge.apply, lgPowerCharge, lgPowerEventStart, lgPowerTurnaround,
        hact, List.foldr_cons, List.foldr_nil, Bool.false_eq_true, if_true, if_false,
        Function.update_self]
      omega

/-- The event starts. -/
theorem started_attributed (h : Attributed t₀ k x) (hs : x.stack.Coherent)
    (hc : x.stack.node.HsUnlinked) (hgo : Grants psa x.stack s')
    (hnew : s'.phy.charges = new ++ x.stack.phy.charges) :
    Attributed t₀ k {
      stack := s'
      pw := (lgPowerActivity x.stack.node.ev.kind.act x.pw).charged k
        (new ++ startCharges x.stack)
      grants := x.grants + 1
      charges := (new ++ startCharges x.stack) ++ x.charges } := by
  obtain ⟨o, c, hdue, -, hev, ho, hp, rfl⟩ := hgo
  have hno := hs.unanswered hdue
  have hrest := Stack.drv_rests (hs.rests hno)
  have hnow : x.stack.drv.nowUs ≤ c.nowUs := perform_now hc hp
  have hnone : new = [] := by
    obtain ⟨hcharges, -, -⟩ := obey_metered hrest h.metered (grantCmd psa o x.stack.node)
    have hsame : x.stack.phy.charges = new ++ x.stack.phy.charges := hcharges.symm.trans hnew
    exact List.self_eq_append_left.mp hsame
  subst hnone
  have hpaid : x.charges.count .eventStart ≤ x.grants := (Nat.le_add_right _ _).trans h.starts
  have hactive : Shown (lgPowerActivity x.stack.node.ev.kind.act x.pw) x.stack.drv.spentUs :=
    ⟨h.shown.rxBeacon, h.shown.txScan, h.shown.txChanEval, h.shown.air⟩
  have hcount : (startCharges x.stack).count .eventStart ≤ 1 := by
    unfold startCharges Nrf.noiseFloorCharges
    split
    · split <;> simp
    · simp
  have hdue : x.stack.drv.due ≤ 1 := by
    unfold Nrf.due
    split <;> omega
  cases hp
  rw [List.nil_append]
  refine handled_attributed (tsGranted_bids hev hs.partner) ho hrest h.metered hnow
    (fun a ha => grantCmd_suits ha) ?_ ?_ ?_ ?_ (fun hne => ?_) ?_
  · rw [Pw.charged_act]
    rfl
  · unfold startCharges
    split
    · next heval => exact hactive.evaluated (by simp [lgPowerActivity, heval, EvKind.act]) 512
    · exact hactive
  · exact (h.balanced.activity _).charged _
  · rw [List.count_append]
    omega
  · have hsweep : x.stack.node.ev.kind ≠ .chanEval := by
      intro heval
      apply hne
      unfold grantCmd
      simp [heval]
    unfold startCharges
    rw [if_neg hsweep, List.nil_append]
    omega
  · rw [Pw.charged_startUs]
    exact h.since

/-- An interrupt of a radio that is at rest does nothing. -/
theorem perform_charges_idle {q : Nrf} {inp : Nrf.Input} (hop : p.op = .idle) (ht : p.Timed)
    (hi : inp.isRadio = true) (hen : p.Enabled inp) (hp : p.perform n inp = some q) :
    q.charges = p.charges := by
  cases inp with
  | fire =>
    obtain ⟨⟨t, htimer, -⟩, -⟩ := hen
    rw [ht.timer_of_idle hop] at htimer
    cases htimer
  | address f =>
    obtain ⟨hrx, -⟩ := hen
    rw [hop] at hrx
    cases hrx
  | isr bcmatch ended =>
    obtain ⟨hmatch, -⟩ := hen
    have hno : bcmatch = false := by
      cases bcmatch with
      | false => rfl
      | true =>
        have hrx := (hmatch rfl).2.1
        rw [hop] at hrx
        cases hrx
    cases hp
    subst hno
    simp [Nrf.lgPhyIsr, hop]
  | _ => cases hi

/-- An interrupt of the radio pays for what is on. -/
theorem moved_attributed {inp : Nrf.Input} (h : Attributed t₀ k x) (hs : x.stack.Coherent)
    (hi : inp.isRadio = true) (hen : x.stack.drv.Enabled inp)
    (hp : x.stack.drv.perform n inp = some p) (hnew : p.charges = new ++ x.stack.phy.charges) :
    Shown (x.pw.charged k new) p.spentUs ∧
      ((x.stack.node.granted = true →
          (new ++ x.charges).count .eventStart + p.due ≤ x.grants) ∧
        (new ++ x.charges).count .eventStart ≤ x.grants) ∧ p.Metered t₀ := by
  have htimed : x.stack.drv.Timed := hs.timed.congr rfl rfl rfl
  obtain ⟨new', hpays, hlast⟩ := Nrf.perform_pays hi hen hp htimed h.metered
  obtain rfl : new = new' := List.append_cancel_right (hnew.symm.trans hpays.charges)
  have hstarts := h.starts
  have hpaid := hpays.starts
  refine ⟨?_, ⟨fun hgo => ?_, ?_⟩, hlast⟩
  · rw [spentUs_append hpays.charges]
    refine h.shown.charged (fun hne => h.act ?_) h.suits hpays.tx hpays.rx
    intro hop
    rw [hop] at hne
    exact hne rfl
  · unfold owing starts at hstarts
    rw [if_pos hgo] at hstarts
    rw [List.count_append]
    change _ + _ ≤ x.stack.phy.due at hpaid
    omega
  · rw [List.count_append]
    cases hgo : x.stack.node.granted with
    | true =>
      unfold owing starts at hstarts
      rw [if_pos hgo] at hstarts
      change _ + _ ≤ x.stack.phy.due at hpaid
      omega
    | false =>
      have hsame := perform_charges_idle (p := x.stack.drv) (hs.rests hgo).op htimed hi hen hp
      have hnone : new = [] := List.self_eq_append_left.mp (hsame.symm.trans hnew)
      rw [hnone, List.count_nil, Nat.zero_add]
      exact (Nat.le_add_right _ _).trans hstarts

/-- An interrupt that starts nothing. -/
theorem interrupt_attributed (h : Attributed t₀ k x) (hs : x.stack.Coherent)
    (hc : x.stack.node.HsUnlinked) (hint : Stack.Interrupt psa x.stack s')
    (hno : ¬ Grants psa x.stack s') (hnew : s'.phy.charges = new ++ x.stack.phy.charges) :
    Attributed t₀ k
      { x with stack := s', pw := x.pw.charged k new, charges := new ++ x.charges } := by
  cases hint with
  | granted hdue hgo hev ho hp => exact absurd ⟨_, _, hdue, hgo, hev, ho, hp, rfl⟩ hno
  | stale hdue hgo hev => exact unmoved_attributed h rfl (.inr ⟨rfl, rfl⟩) le_rfl hnew
  | ignored hdue hgo hnone => exact unmoved_attributed h rfl (.inr ⟨rfl, rfl⟩) le_rfl hnew
  | refused hdue hno hev hp =>
    have hnow := perform_now hc hp
    cases hp
    obtain ⟨-, hgo', -⟩ := Stack.tsFailed_free _ hev
    exact stopped_attributed h hgo' hnow hnew
  | radio hi hen hp hr =>
    next p =>
    obtain ⟨hmoves, -, -, hnow⟩ := Stack.radio_moves hs hi hen hp
    obtain ⟨hshown, hstarts, hlast⟩ := moved_attributed h hs hi hen hp hnew
    cases hmoves with
    | on _ hphase _ =>
      refine ⟨hlast.atTime hnow.le, ?_, fun hne => ?_, hshown, h.balanced.charged new, ?_, ?_⟩
      · change x.stack.node.ev.kind.Suits p.op.phase
        rw [hphase]
        exact h.suits
      · refine (Pw.charged_act k new x.pw).trans (h.act ?_)
        intro hidle
        apply hne
        change p.op = .idle
        rw [hidle] at hphase
        cases hop : p.op <;> rw [hop] at hphase <;> first | rfl | cases hphase
      · change (new ++ x.charges).count .eventStart +
          (if x.stack.node.granted then p.due else 0) ≤ x.grants
        cases hgo : x.stack.node.granted with
        | true => exact hstarts.1 hgo
        | false => exact hstarts.2
      · exact (Pw.charged_startUs k new x.pw).trans h.since
    | ends r hr' _ _ _ =>
      have hlen := congrArg List.length (hr'.symm.trans hr)
      simp at hlen
  | reported hi hen hp hr ho hcall =>
    next p r o c =>
    obtain ⟨hrest, hnow, -, hgo⟩ := Stack.reported_ends hs hi hen hp hr
    have htime := perform_now hc hcall
    obtain ⟨-, -, hmetered⟩ := Nrf.perform_pays hi hen hp (hs.timed.congr rfl rfl rfl) h.metered
    obtain ⟨hcharges, -, -⟩ := obey_metered hrest hmetered (reportCmd psa o x.stack.node r)
    obtain ⟨hshown, hstarts, hlast⟩ :=
      moved_attributed h hs hi hen hp (hcharges.symm.trans hnew)
    refine handled_attributed (Stack.reportCmd_bids hgo hcall) ho hrest hlast
      (hnow.le.trans htime) (fun a ha => reportCmd_suits ha) ?_ hshown (h.balanced.charged new)
      hstarts.2 (fun _ => hstarts.1 hgo) ?_
    · rw [Pw.charged_act]
      exact h.act (hs.op_ne_idle.mpr (hs.grant.trans hgo))
    · exact (Pw.charged_startUs k new x.pw).trans h.since

/-! ## Runs -/

variable {ident : Identity} {x₀ x' : Powered cfg} {s s₀ : Stack cfg}

theorem Step.stack (hstep : Step psa k x x') : Stack.Step psa x.stack x'.stack := by
  cases hstep with
  | start hgo _ =>
    obtain ⟨o, c, hdue, hcall, hev, ho, hp, rfl⟩ := hgo
    exact .interrupt (.granted hdue hcall hev ho hp)
  | other h _ _ => exact h

/-- Every step keeps the accounts. -/
theorem Step.attributed (hstep : Step psa k x x') (h : Attributed t₀ k x)
    (hs : x.stack.Coherent) (hc : x.stack.node.HsUnlinked) : Attributed t₀ k x' := by
  cases hstep with
  | start hgo hnew => exact started_attributed h hs hc hgo hnew
  | other hstep hno hnew =>
    cases hstep with
    | work refuse hi hst hp => exact worked_attributed refuse h hs hc hi hst hp hnew
    | lapse atUs lenUs refuse _ => exact unmoved_attributed h rfl (.inr ⟨rfl, rfl⟩) le_rfl hnew
    | interrupt hint => exact interrupt_attributed h hs hc hint hno hnew

/-- `lg_start` has just come back, and has cleared the accounts. -/
structure Begins (psa : Psa) (ident : Identity) (x : Powered cfg) : Prop where
  stack : x.stack.Begins psa ident
  pw : x.pw = lgPowerInit x.stack.node.nowUs
  grants : x.grants = 0
  charges : x.charges = []

theorem Begins.attributed (hb : x.Begins psa ident) (k : PwrConfig) :
    Attributed x.stack.node.nowUs k x := by
  obtain ⟨earlyAbort, frame0, hphy⟩ := hb.stack.phy
  have hop : x.stack.phy.op = .idle := by
    rw [hphy]
    rfl
  have hspent : x.stack.phy.spentUs = 0 := by
    rw [hphy]
    rfl
  obtain ⟨-, hgo, -⟩ := hb.stack.free
  refine ⟨.idle hop ?_, ?_, fun hne => absurd hop hne, ?_, ?_, ?_, ?_⟩
  · change _ + x.stack.phy.spentUs ≤ x.stack.node.nowUs
    rw [hspent]
    exact le_rfl
  · rw [hop]
    trivial
  · rw [hspent, hb.pw]
    exact ⟨rfl, rfl, rfl, rfl⟩
  · rw [hb.pw, hb.charges]
    exact .init k _
  · unfold owing starts
    rw [hgo, hb.charges]
    exact Nat.zero_le _
  · rw [hb.pw]
    rfl

theorem Begins.follows (hb : x₀.Begins psa ident)
    (hrun : Relation.ReflTransGen (Step psa k) x₀ x) :
    Relation.ReflTransGen (Stack.Step psa) x₀.stack x.stack ∧
      Attributed x₀.stack.node.nowUs k x := by
  induction hrun with
  | refl => exact ⟨.refl, hb.attributed k⟩
  | tail _ hstep ih =>
    obtain ⟨hstack, hattr⟩ := ih
    have hfollows := hb.stack.follows hstack
    exact ⟨hstack.tail hstep.stack,
      hstep.attributed hattr hfollows.coherent hfollows.reach.hsUnlinked⟩

/-- What has been charged stays charged. -/
theorem Attributed.grows (h : Attributed t₀ k x) (hs : x.stack.Coherent)
    (hstep : Stack.Step psa x.stack s') : ∃ new, s'.phy.charges = new ++ x.stack.phy.charges := by
  have hstop : ∃ new, x.stack.drv.lgPhyStop.charges = new ++ x.stack.phy.charges := by
    obtain ⟨new, hcharges, -⟩ := Nrf.lgPhyStop_pays h.metered
    exact ⟨new, hcharges⟩
  have htimed : x.stack.drv.Timed := hs.timed.congr rfl rfl rfl
  cases hstep with
  | work refuse hi hst hp =>
    unfold Stack.worked
    split_ifs
    · exact hstop
    · exact hstop
    · exact ⟨[], rfl⟩
    · exact ⟨[], rfl⟩
  | lapse atUs lenUs refuse _ => exact ⟨[], rfl⟩
  | interrupt hint =>
    cases hint with
    | granted hdue hgo hev ho hp =>
      have hrest := Stack.drv_rests (hs.rests (hs.unanswered hdue))
      obtain ⟨hcharges, -, -⟩ := obey_metered hrest h.metered (grantCmd psa _ x.stack.node)
      exact ⟨[], hcharges⟩
    | stale hdue hgo hev => exact ⟨[], rfl⟩
    | refused hdue hno hev hp => exact hstop
    | ignored hdue hgo hno => exact ⟨[], rfl⟩
    | radio hi hen hp hr =>
      obtain ⟨new, hpays, -⟩ := Nrf.perform_pays hi hen hp htimed h.metered
      exact ⟨new, hpays.charges⟩
    | reported hi hen hp hr ho hcall =>
      obtain ⟨hrest, -⟩ := Stack.reported_ends hs hi hen hp hr
      obtain ⟨new, hpays, hmetered⟩ := Nrf.perform_pays hi hen hp htimed h.metered
      obtain ⟨hcharges, -, -⟩ := obey_metered hrest hmetered (reportCmd psa _ x.stack.node _)
      exact ⟨new, hcharges.trans hpays.charges⟩

/-- Accounts can be kept of every run. -/
theorem exists_powered (k : PwrConfig) (hb : s₀.Begins psa ident)
    (hrun : Relation.ReflTransGen (Stack.Step psa) s₀ s) :
    ∃ x₀ x : Powered cfg, x₀.Begins psa ident ∧ x₀.stack = s₀ ∧
      Relation.ReflTransGen (Step psa k) x₀ x ∧ x.stack = s := by
  induction hrun with
  | refl => exact ⟨⟨s₀, lgPowerInit s₀.node.nowUs, 0, []⟩, _, ⟨hb, rfl, rfl, rfl⟩, rfl, .refl, rfl⟩
  | tail hrun hstep ih =>
    next s s' =>
    obtain ⟨x₀, x, hbegins, hfirst, hpowered, rfl⟩ := ih
    obtain ⟨-, hattr⟩ := hbegins.follows hpowered
    obtain ⟨new, hnew⟩ := hattr.grows (hb.follows hrun).coherent hstep
    by_cases hgo : Grants psa x.stack s'
    · exact ⟨x₀, _, hbegins, hfirst, hpowered.tail (.start hgo hnew), rfl⟩
    · exact ⟨x₀, _, hbegins, hfirst, hpowered.tail (.other hstep hgo hnew), rfl⟩

/-- **The report adds up.** In every run of the scheduler with its arbiter and its driver, the time
the radio was on is the sum of the lines of the report: nothing is charged to an activity the
report does not show. What it shows as sent and received in events has passed since the accounts
were cleared, so no time is charged twice. The radio was started no more than once for each event
it was granted for; the report shows the starts and the turnarounds modulo `2 ^ 32`, and the fixed
time of all of them; and the charge is within what the currents make of them and of the time. -/
theorem energy_accounted (hb : x₀.Begins psa ident)
    (hrun : Relation.ReflTransGen (Step psa k) x₀ x) (r : PowerReport)
    (hr : r = lgPowerReportGetSteady k x.pw x.stack.node.nowUs) :
    r.radioOnUs = r.fixedUs + (r.rxUsScan + r.rxUsLink + r.rxUsJoin + r.rxUsChanEval) +
      (r.txUsBeacon + r.txUsLink + r.txUsJoin) ∧
    r.rxUsScan + r.rxUsLink + r.rxUsJoin + (r.txUsBeacon + r.txUsLink + r.txUsJoin) ≤
      r.elapsedUs ∧
    x.starts ≤ x.grants ∧
    r.radioStarts = x.starts % 2 ^ 32 ∧ r.turnarounds = x.turnarounds % 2 ^ 32 ∧
    r.fixedUs = x.starts * k.eventStartUs + x.turnarounds * k.turnaroundUs ∧
    1000000 * r.totalNc ≤ 1000000 * (x.starts * k.eventStartNc +
      x.turnarounds * k.turnaroundNc) +
      1000 * k.rxUa * (r.rxUsScan + r.rxUsLink + r.rxUsJoin + r.rxUsChanEval) +
      1000 * k.txUa * (r.txUsBeacon + r.txUsLink + r.txUsJoin) + k.sleepNa * r.elapsedUs := by
  obtain ⟨-, h⟩ := hb.follows hrun
  obtain ⟨hbeacon, hscan, heval, hair⟩ := h.shown
  obtain ⟨hstarts, hturns, hon, hus, hnc, hcharge⟩ := h.balanced
  have hpast : x₀.stack.node.nowUs + x.stack.phy.spentUs ≤ x.stack.node.nowUs := h.metered.past
  have hsince := h.since
  unfold actSum at hair hon hcharge
  subst hr
  refine ⟨?_, ?_, (Nat.le_add_right _ _).trans h.starts, hstarts, hturns, hus, ?_⟩
  · change x.pw.radioOnUs = x.pw.fixedUs + _ + _
    dsimp only [lgPowerReportGetSteady, lgPowerReportGet]
    omega
  · dsimp only [lgPowerReportGetSteady, lgPowerReportGet]
    omega
  · have hsleep := lgPowerReportGet_totalNc k x.pw x.stack.node.nowUs
    rw [hbeacon, Nat.add_zero, Nat.mul_add] at hcharge
    rw [hscan, heval] at hcharge
    rw [hnc] at hcharge
    change 1000000 * (lgPowerReportGet k x.pw x.stack.node.nowUs).totalNc ≤ _
    dsimp only [lgPowerReportGetSteady, lgPowerReportGet] at hsleep ⊢
    unfold starts turnarounds
    linarith

theorem energy_accounted_scan :
    ∃ x₀ x : Powered .default, x₀.Begins Psa.plain (plainIdent 1 1) ∧ x.stack.phy.op = .rx ∧
      Relation.ReflTransGen (Step Psa.plain {}) x₀ x ∧
      (lgPowerReportGetSteady {} x.pw x.stack.node.nowUs).radioStarts = x.starts % 2 ^ 32 ∧
      x.starts ≤ x.grants := by
  obtain ⟨s₀, s, hb, -, hrun, hop, -⟩ := Stack.scan_run
  obtain ⟨x₀, x, hbegins, -, hpowered, rfl⟩ := exists_powered {} hb hrun
  obtain ⟨-, -, hgrants, hstarts, -⟩ := energy_accounted hbegins hpowered _ rfl
  exact ⟨x₀, x, hbegins, hop, hpowered, hstarts, hgrants⟩

end Powered

end LockGrid
