import LockGrid.Conduct
import LockGrid.Inevitable
import LockGrid.Stack

/-!
# No event lasts for ever

As long as nothing is received, the interrupts of the arbiter and of the radio alone bring every
event to its end: one of them is always to come, and each takes it nearer to the end.
-/
namespace LockGrid

variable {cfg : Config} {psa : Psa} {c c' : Node cfg} {o : Oracle}

/-! ## The driver, when nothing is received -/

namespace Nrf

variable {s p : Nrf} {n : ℕ} {inp : Input}

/-- What an interrupt that does anything does. -/
inductive Advances (s p : Nrf) : Prop
  | tx (hop : s.op = .txArmed) (hop' : p.op = .tx) (hr : p.reports = s.reports)
  | rx (hop : s.op = .rxArmed) (hop' : p.op = .rx) (hr : p.reports = s.reports)
  | sent (hop : s.op = .tx) (hr : p.reports = .txDone s.txAirEndUs :: s.reports)
  | timeout (hop : s.op = .rxArmed ∨ s.op = .rx)
    (hr : p.reports = .rxFailed .timeout :: s.reports)

theorem rxClose_silent (hop : s.op = .rx) (haddress : s.address = false) :
    ∃ p, runCb (n + 1) .rxClose s = some p ∧ p.op = .idle ∧ p.incoming = none ∧
      p.reports = .rxFailed .timeout :: s.reports := by
  obtain ⟨-, -, hreports⟩ := chargeRxUntil_op s s.rxCloseUs
  have hp : runCb (n + 1) .rxClose s = some ({ (s.chargeRxUntil s.rxCloseUs).radioDisable with
      op := .idle }.report (.rxFailed .timeout)) := by
    change rxClose (runCb n) s = _
    unfold rxClose
    rw [if_neg (by simp [hop]), haddress]
    rfl
  exact ⟨_, hp, rfl, rfl, congrArg _ hreports⟩

theorem rxFire_silent (hincoming : s.incoming = none) :
    ∃ p, runCb (n + 2) .rxFire s = some p ∧ p.incoming = none ∧
      (p.op = .rx ∧ p.reports = s.reports ∨
        p.op = .idle ∧ p.reports = .rxFailed .timeout :: s.reports) := by
  have hc := chargeFixed_core { s with op := .rx }
  simp only [core, Prod.mk.injEq] at hc
  obtain ⟨hop, -, -, hair, -, -, hreports, -⟩ := hc
  change ∃ p, rxFire (runCb (n + 1)) s = some p ∧ _
  unfold rxFire
  generalize ({ s with op := PhyOp.rx } : Nrf).chargeFixed = d at hop hair hreports ⊢
  simp only [lgTsTimerAt]
  split
  · exact ⟨_, rfl, hair.trans hincoming, .inl ⟨hop, hreports⟩⟩
  · next hlate =>
    obtain ⟨p, hp, hidle, hnone, hr⟩ := rxClose_silent (n := n)
      (s := { d with
        rxOnUs := d.nowUs + rampupUs, charged := false, address := false, rearms := []
        timer := none }) hop rfl
    exact ⟨p, hp, hnone, .inr ⟨hidle, hr.trans (congrArg _ hreports)⟩⟩

theorem handleTxEnd_reports (s : Nrf) :
    s.handleTxEnd.reports = .txDone s.txAirEndUs :: s.reports := rfl

/-- A timer that fires makes the operation go on. -/
theorem fire_advances (ht : s.Timed) (hw : s.Watched) (hsilent : s.incoming = none)
    {t : ℕ} {cb : FineCb} (htimer : s.timer = some (t, cb)) :
    (∃ p, s.perform 2 .fire = some p ∧ p.incoming = none ∧ Advances s p) ∧
      ∀ n p, s.perform n .fire = some p → p.incoming = none → Advances s p := by
  have hfire : ∀ n, s.perform n .fire = runCb n cb { s with timer := none } := by
    intro n
    unfold perform
    simp only [htimer]
  have hkind := ht
  unfold Timed at hkind
  cases hop : s.op with
  | idle => simp [hop, htimer] at hkind
  | tx => simp [hop, htimer] at hkind
  | txArmed =>
    simp only [hop, htimer, Option.some.injEq, Prod.mk.injEq] at hkind
    obtain ⟨t', -, rfl⟩ := hkind
    have hc := chargeFixed_core { { s with timer := none } with op := .tx }
    simp only [core, Prod.mk.injEq] at hc
    obtain ⟨hop', -, -, hair, -, -, hreports, -⟩ := hc
    refine ⟨⟨_, hfire 2, hair.trans hsilent, .tx hop hop' hreports⟩, fun n p hp _ => ?_⟩
    rw [hfire] at hp
    cases n with
    | zero => cases hp
    | succ n =>
      cases hp
      exact .tx hop hop' hreports
  | rxArmed =>
    simp only [hop, htimer, Option.some.injEq, Prod.mk.injEq] at hkind
    obtain ⟨t', ⟨-, rfl⟩, -⟩ := hkind
    have hgo : ∀ n, ∃ p, s.perform (n + 2) .fire = some p ∧ p.incoming = none ∧
        Advances s p := by
      intro n
      obtain ⟨p, hp, hair, hend⟩ := rxFire_silent (n := n) (s := { s with timer := none }) hsilent
      refine ⟨p, (hfire _).trans hp, hair, ?_⟩
      rcases hend with ⟨hrx, hr⟩ | ⟨-, hr⟩
      · exact .rx hop hrx hr
      · exact .timeout (.inl hop) hr
    refine ⟨hgo 0, fun n p hp _ => ?_⟩
    cases n with
    | zero =>
      rw [hfire] at hp
      cases hp
    | succ n =>
      cases n with
      | zero =>
        rw [hfire] at hp
        change rxFire (runCb 0) _ = some p at hp
        have hc := chargeFixed_core { { s with timer := none } with op := .rx }
        simp only [core, Prod.mk.injEq] at hc
        obtain ⟨hop', -, -, -, -, -, hreports, -⟩ := hc
        unfold rxFire at hp
        generalize chargeFixed { { s with timer := none } with op := PhyOp.rx } = d
          at hop' hreports hp
        simp only [lgTsTimerAt] at hp
        split at hp
        · cases hp
          exact .rx hop hop' hreports
        · cases hp
      | succ n =>
        obtain ⟨q, hq, -, hadv⟩ := hgo n
        rw [hq] at hp
        cases hp
        exact hadv
  | rx =>
    simp only [hop, htimer, Option.some.injEq, Prod.mk.injEq] at hkind
    obtain ⟨t', ⟨-, rfl⟩, -⟩ := hkind
    have hquiet : s.address = false := by
      rw [hw.heard hop, hsilent]
      rfl
    have hgo : ∀ n, ∃ p, s.perform (n + 1) .fire = some p ∧ p.incoming = none ∧
        Advances s p := by
      intro n
      obtain ⟨p, hp, -, hair, hr⟩ := rxClose_silent (n := n) (s := { s with timer := none })
        hop hquiet
      exact ⟨p, (hfire _).trans hp, hair, .timeout (.inr hop) hr⟩
    refine ⟨hgo 1, fun n p hp _ => ?_⟩
    cases n with
    | zero =>
      rw [hfire] at hp
      cases hp
    | succ n =>
      obtain ⟨q, hq, -, hadv⟩ := hgo n
      rw [hq] at hp
      cases hp
      exact hadv

/-- An interrupt that does anything. -/
theorem silent_advances (ht : s.Timed) (hw : s.Watched) (hsilent : s.incoming = none)
    (hi : inp.isRadio = true) (hen : s.Enabled inp) (hp : s.perform n inp = some p)
    (hair : p.incoming = none) (hne : p ≠ s) : Advances s p := by
  cases inp with
  | fire =>
    obtain ⟨⟨⟨t, cb⟩, htimer, -⟩, -⟩ := hen
    exact (fire_advances ht hw hsilent htimer).2 n p hp hair
  | address f =>
    cases hp
    cases hair
  | isr bcmatch ended =>
    obtain ⟨hbc, hend⟩ := hen
    have hno : bcmatch = false := by
      cases bcmatch with
      | false => rfl
      | true =>
        obtain ⟨-, -, f, hf, -⟩ := hbc rfl
        rw [hsilent] at hf
        cases hf
    subst hno
    cases hp
    cases ended with
    | false => exact absurd rfl hne
    | true =>
      rcases hend rfl with ⟨hop, -⟩ | ⟨-, f, hf, -⟩
      · have hisr : s.lgPhyIsr false true = s.handleTxEnd := by
          unfold lgPhyIsr
          simp [hop]
        rw [hisr]
        exact .sent hop (handleTxEnd_reports s)
      · rw [hsilent] at hf
        cases hf
  | _ => cases hi

end Nrf

/-! ## The commands of an event -/

/-- At most so many commands make up the event. -/
def Node.opening (c : Node cfg) : ℕ :=
  match c.ev.kind with
  | .link => 2
  | .beacon => rdvSlots
  | .joinTx => c.hs.fragTotal + 1
  | _ => 1

/-- At most so many commands follow the one that the radio is on. -/
def Node.more (c : Node cfg) : ℕ :=
  match c.ev.kind with
  | .link => if c.phy = .tx ∧ c.evst.txFirst then 1 else 0
  | .beacon => rdvSlots - (c.net.beaconCopyIdx + 1)
  | .joinTx => c.hs.fragTotal - (c.hs.fragIdx + 1)
  | _ => 0

theorem sendCopy_more {d : Node cfg} {k : ℕ}
    (hon : (sendCopy o d k (lgSchedEventDone c)).ev.kind ≠ .none)
    (hidx : d.net.beaconCopyIdx = k) (hkind : d.ev.kind = .beacon) :
    k < rdvSlots ∧ (sendCopy o d k (lgSchedEventDone c)).more = rdvSlots - (k + 1) := by
  unfold sendCopy at hon ⊢
  split
  · next hk =>
    rw [dif_pos hk] at hon
    split at hon
    · exact absurd rfl hon
    · next hgo =>
      rw [if_neg hgo]
      refine ⟨hk, ?_⟩
      unfold Node.more
      simp only [hkind, hidx]
  · next hk =>
    rw [dif_neg hk] at hon
    exact absurd rfl hon

theorem tsGranted_more (hk : c.ev.kind ≠ .none)
    (hn : c.ev.kind = .link → ∃ i, c.ev.neigh = some i)
    (hon : (tsGranted psa o c).ev.kind ≠ .none) : (tsGranted psa o c).more + 1 ≤ c.opening := by
  have hev : (tsGranted psa o c).ev = c.ev := (tsGranted_bids hk hn).ev hon
  cases hkind : c.ev.kind with
  | none => exact absurd hkind hk
  | link =>
    unfold Node.more Node.opening
    simp only [hev, hkind]
    split <;> omega
  | beacon =>
    have hgo : tsGranted psa o c = beaconStart o { c with granted := true } := by
      unfold tsGranted
      simp only [hkind]
    rw [hgo] at hon ⊢
    unfold beaconStart at hon ⊢
    dsimp only at hon ⊢
    split at hon
    · exact absurd rfl hon
    · next hnot =>
      rw [if_neg hnot]
      have hmore := sendCopy_more hon rfl hkind
      unfold Node.opening
      simp only [hkind]
      rw [hmore.2]
      omega
  | joinTx =>
    have hgo : tsGranted psa o c = joinTxStart psa o { c with granted := true } := by
      unfold tsGranted
      simp only [hkind]
    have hmore : (tsGranted psa o c).more =
        (tsGranted psa o c).hs.fragTotal - ((tsGranted psa o c).hs.fragIdx + 1) := by
      unfold Node.more
      simp only [hev, hkind]
    have hopen : c.opening = c.hs.fragTotal + 1 := by
      unfold Node.opening
      simp only [hkind]
    rw [hmore, hopen, hgo]
    by_cases hnone : c.hs.n = none
    · rw [hgo] at hon
      unfold joinTxStart at hon
      rw [if_pos (by simp [hnone])] at hon
      exact absurd rfl hon
    · obtain ⟨len, hhs⟩ := joinTxStart_hs (c := { c with granted := true }) psa o hnone
      rw [hhs]
      change c.hs.fragTotal - (0 + 1) + 1 ≤ c.hs.fragTotal + 1
      omega
  | _ =>
    unfold Node.more Node.opening
    simp only [hev, hkind, le_refl]

theorem phyTxDone_more {airEndUs : ℕ} (hgo : c.granted = true) (hphy : c.phy = .tx)
    (hon : (phyTxDone psa o c airEndUs).ev.kind ≠ .none) :
    (phyTxDone psa o c airEndUs).more + 1 ≤ c.more := by
  have hsame : (phyTxDone psa o c airEndUs).ev = c.ev := (phyTxDone_bids airEndUs hgo).ev hon
  unfold phyTxDone at hon ⊢
  split at hon
  · next i hkind _ =>
    unfold linkTxDone at hon ⊢
    dsimp only at hon ⊢
    split at hon
    · exact absurd rfl hon
    · next hfirst =>
      rw [if_neg hfirst]
      unfold command at hon ⊢
      split at hon
      · next hok =>
        rw [if_pos hok]
        unfold Node.more
        simp only [hkind, hphy]
        simp at hfirst
        simp [hfirst]
      · exact absurd rfl hon
  · next hkind =>
    unfold beaconTxDone at hon ⊢
    have hmore := sendCopy_more hon rfl hkind
    rw [hmore.2]
    unfold Node.more
    simp only [hkind]
    omega
  · next hkind =>
    obtain ⟨len, hhs⟩ := joinTxDone_hs psa o c airEndUs
    have hidx : c.hs.fragIdx + 1 < c.hs.fragTotal := by
      by_contra hlast
      unfold joinTxDone at hon
      dsimp only at hon
      split at hon
      · next hmore => exact hlast hmore
      · exact absurd rfl hon
    have hdone : phyTxDone psa o c airEndUs = joinTxDone psa o c airEndUs := by
      unfold phyTxDone
      simp only [hkind]
    rw [hdone] at hsame
    unfold Node.more
    simp only [hsame, hkind, hhs]
    omega
  · exact absurd rfl hon

def PhyOp.isArmed : PhyOp → Bool
  | .txArmed | .rxArmed => true
  | _ => false

namespace Stack

variable {s s' s₀ : Stack cfg} {p : Nrf} {ident : Identity}

/-! ## Interrupts without frames -/

def later (s : Stack cfg) (us : ℕ) : Stack cfg :=
  { s with node := { s.node with nowUs := s.node.nowUs + us } }

/-- Some time later comes the next interrupt that does anything. Nothing is received, and nothing
else runs. -/
def Serves (psa : Psa) (s s' : Stack cfg) : Prop :=
  ∃ us, Interrupt psa (s.later us) s' ∧ s'.phy.incoming = none ∧
    s' ≠ { s.later us with phy := (s.later us).drv }

/-- At most so many interrupts end the event. A command takes two of them. -/
def left (s : Stack cfg) : ℕ :=
  if s.node.ev.kind = .none then 0
  else if s.node.granted then 2 * s.node.more + if s.phy.op.isArmed then 2 else 1
  else 2 * s.node.opening + 1

/-- The event is over, the grant is given back and the radio is off. -/
structure Over (s : Stack cfg) : Prop where
  ev : s.node.ev.kind = .none
  grant : s.ts.granted = false
  op : s.phy.op = .idle

theorem later_step (psa : Psa) (s : Stack cfg) (us : ℕ) : Step psa s (s.later us) := by
  have hstep : Step psa s (s.worked (.tick us) (s.later us).node false) :=
    .work (o := calm 0) false rfl (by simp) rfl
  have hsame : s.worked (.tick us) (s.later us).node false = s.later us :=
    worked_same false rfl rfl
  rwa [hsame] at hstep

theorem left_le (hon : c.ev.kind ≠ .none) (hgo : c.granted = true) (ts : Direct)
    (x : Option Cmd) : left (handled c ts p x) ≤ 2 * c.more + 2 := by
  unfold left handled
  simp only [hon, hgo, if_true, if_false]
  split <;> omega

theorem left_of_none (hoff : c.ev.kind = .none) (ts : Direct) (x : Option Cmd) :
    left (handled c ts p x) = 0 := by
  unfold left handled
  simp only [hoff, if_true]

/-- What a report that is not of a frame leads to. -/
theorem report_less {r : PhyReport} (hgo : c.granted = true) (hphy : c.phy = r.phase)
    (hkind : (∃ airEndUs, r = .txDone airEndUs) ∨ r = .rxFailed .timeout)
    (hc : perform psa o c r.input = some c') :
    c'.ev.kind = .none ∨ c'.granted = true ∧ c'.more + 1 ≤ c.more := by
  have hb := reportCmd_bids hgo hc
  by_cases hon : c'.ev.kind = .none
  · exact .inl hon
  · refine .inr ⟨hb.granted hon, ?_⟩
    rcases hkind with ⟨airEndUs, rfl⟩ | rfl
    · cases hc
      exact phyTxDone_more hgo hphy hon
    · have hnone : reportCmd psa o c (.rxFailed .timeout) = none := by
        unfold reportCmd rxFailedCmd
        dsimp only
        split <;> simp
      rw [hnone] at hb
      cases hb with
      | ended _ _ => exact absurd rfl hon

/-- Every interrupt that does anything takes the event nearer to its end. -/
theorem Interrupt.less (hint : Interrupt psa s s') (h : s.Coherent)
    (hsilent : s.phy.incoming = none) (hev : s.node.ev.kind ≠ .none)
    (hair : s'.phy.incoming = none) (hne : s' ≠ { s with phy := s.drv }) : left s' < left s := by
  have hwait : s.node.granted = false → left s = 2 * s.node.opening + 1 := by
    intro hno
    unfold left
    simp [hev, hno]
  have hbusy : s.node.granted = true →
      left s = 2 * s.node.more + if s.phy.op.isArmed then 2 else 1 := by
    intro hgo
    unfold left
    simp [hev, hgo]
  have hdrv : s.drv.Timed := h.timed.congr rfl rfl rfl
  have hdrv' : s.drv.Watched := ⟨h.watched.armed, h.watched.heard, h.watched.away⟩
  cases hint with
  | granted hdue hgo hev' ho hp =>
    next o c =>
    rw [hwait (h.unanswered hdue)]
    cases hp
    by_cases hon : (tsGranted psa o s.node).ev.kind = .none
    · rw [left_of_none hon]
      omega
    · have hgranted := (tsGranted_bids hev h.partner).granted hon
      have hle := left_le (p := s.drv) hon hgranted s.ts.grantHandler.2 (grantCmd psa o s.node)
      have hmore := tsGranted_more hev h.partner hon
      omega
  | stale _ _ hfree => exact absurd hfree hev
  | refused hdue hno _ hp =>
    rw [hwait (h.unanswered hdue)]
    cases hp
    rw [left_of_none (tsFailed_free _ hev).1]
    omega
  | ignored hdue hgo hno => exact absurd (h.nobody hdue hgo hno) hev
  | radio hi hen hp hr =>
    next n inp p =>
    have hmoved : p ≠ s.drv := by
      rintro rfl
      exact hne rfl
    have hsame : left ({ s with phy := p } : Stack cfg) =
        if s.node.granted then 2 * s.node.more + if p.op.isArmed then 2 else 1
        else 2 * s.node.opening + 1 := by
      unfold left
      simp [hev]
    have hgo : s.phy.op ≠ .idle → s.node.granted = true := by
      intro hop
      rw [← h.grant]
      exact h.op_ne_idle.mp hop
    rw [hsame]
    cases Nrf.silent_advances hdrv hdrv' hsilent hi hen hp hair hmoved with
    | tx hop hop' _ =>
      have hop'' : s.phy.op = .txArmed := hop
      have hgranted := hgo (by rw [hop'']; simp)
      rw [hbusy hgranted]
      simp [hgranted, hop', hop'', PhyOp.isArmed]
    | rx hop hop' _ =>
      have hop'' : s.phy.op = .rxArmed := hop
      have hgranted := hgo (by rw [hop'']; simp)
      rw [hbusy hgranted]
      simp [hgranted, hop', hop'', PhyOp.isArmed]
    | sent _ hr' =>
      have hlen := congrArg List.length (hr'.symm.trans hr)
      simp [drv, Nrf.atTime] at hlen
    | timeout _ hr' =>
      have hlen := congrArg List.length (hr'.symm.trans hr)
      simp [drv, Nrf.atTime] at hlen
  | reported hi hen hp hr ho hcall =>
    next n inp p r o c =>
    obtain ⟨hrest, -, hphy, hgo⟩ := reported_ends h hi hen hp hr
    have hmoved : p ≠ s.drv := by
      rintro rfl
      have hlen := congrArg List.length hr
      simp [drv, Nrf.atTime] at hlen
    have hnone : p.incoming = none := hrest.watched.away (by rw [hrest.op]; simp)
    have hkind : (∃ airEndUs, r = .txDone airEndUs) ∨ r = .rxFailed .timeout := by
      cases Nrf.silent_advances hdrv hdrv' hsilent hi hen hp hnone hmoved with
      | tx _ _ hr' =>
        have hlen := congrArg List.length (hr.symm.trans hr')
        simp [drv, Nrf.atTime] at hlen
      | rx _ _ hr' =>
        have hlen := congrArg List.length (hr.symm.trans hr')
        simp [drv, Nrf.atTime] at hlen
      | sent _ hr' => exact .inl ⟨_, (List.cons.inj (hr.symm.trans hr')).1⟩
      | timeout _ hr' => exact .inr (List.cons.inj (hr.symm.trans hr')).1
    rw [hbusy hgo]
    have hpos : (1 : ℕ) ≤ if s.phy.op.isArmed then 2 else 1 := by
      split <;> omega
    rcases report_less hgo hphy hkind hcall with hoff | ⟨hgranted, hmore⟩
    · rw [left_of_none hoff]
      omega
    · by_cases hon : c.ev.kind = .none
      · rw [left_of_none hon]
        omega
      · have hle := left_le (p := p) hon hgranted s.ts (reportCmd psa o s.node r)
        omega

/-! ## There is always an interrupt to come -/

/-- Whatever the driver answers, there is a world in which it answers that. -/
theorem grantCmd_answer (psa : Psa) (c : Node cfg) (p : Nrf) :
    ∃ o, ∀ x ∈ grantCmd psa o c, o.phyOk = (p.obey (some x)).1 := by
  cases hx : grantCmd psa (calm 0) c with
  | none =>
    refine ⟨calm 0, fun x hmem => ?_⟩
    rw [hx] at hmem
    cases hmem
  | some y =>
    refine ⟨{ calm 0 with phyOk := (p.obey (some y)).1 }, fun x hmem => ?_⟩
    have hsame : grantCmd psa { calm 0 with phyOk := (p.obey (some y)).1 } c = some y := hx
    rw [hsame] at hmem
    cases hmem
    rfl

theorem reportCmd_answer (psa : Psa) (c : Node cfg) (r : PhyReport) (p : Nrf) :
    ∃ o, ∀ x ∈ reportCmd psa o c r, o.phyOk = (p.obey (some x)).1 := by
  cases hx : reportCmd psa (calm 0) c r with
  | none =>
    refine ⟨calm 0, fun x hmem => ?_⟩
    rw [hx] at hmem
    cases hmem
  | some y =>
    refine ⟨{ calm 0 with phyOk := (p.obey (some y)).1 }, fun x hmem => ?_⟩
    have hsame : reportCmd psa { calm 0 with phyOk := (p.obey (some y)).1 } c r = some y := hx
    rw [hsame] at hmem
    cases hmem
    rfl

/-- An interrupt of the radio that takes its operation further. -/
theorem radio_serves (psa : Psa) {n : ℕ} {inp : Nrf.Input} (h : s.Coherent)
    (hi : inp.isRadio = true)
    (hen : s.drv.Enabled inp) (hp : s.drv.perform n inp = some p) (hair : p.incoming = none)
    (hadv : Nrf.Advances s.drv p) :
    ∃ s', Interrupt psa s s' ∧ s'.phy.incoming = none ∧ s' ≠ { s with phy := s.drv } := by
  have hstep : p.reports = s.phy.reports → p.op ≠ s.phy.op →
      ∃ s', Interrupt psa s s' ∧ s'.phy.incoming = none ∧ s' ≠ { s with phy := s.drv } := by
    intro hr hop
    refine ⟨_, .radio hi hen hp hr, hair, fun heq => hop ?_⟩
    exact congrArg (fun t : Stack cfg => t.phy.op) heq
  have hend : ∀ r, p.reports = r :: s.phy.reports →
      ((∃ airEndUs, r = .txDone airEndUs) ∨ r = .rxFailed .timeout) →
      ∃ s', Interrupt psa s s' ∧ s'.phy.incoming = none ∧ s' ≠ { s with phy := s.drv } := by
    intro r hr hkind
    obtain ⟨-, -, hphy, hgo⟩ := reported_ends h hi hen hp hr
    obtain ⟨o, ho⟩ := reportCmd_answer psa s.node r p
    obtain ⟨c, hc⟩ : ∃ c, perform psa o s.node r.input = some c := by
      cases r <;> exact ⟨_, rfl⟩
    refine ⟨_, .reported hi hen hp hr ho hc, Nrf.obey_incoming hair, fun heq => ?_⟩
    have hsame : c = s.node := congrArg Stack.node heq
    rcases report_less hgo hphy hkind hc with hoff | ⟨-, hmore⟩
    · rw [hsame] at hoff
      exact h.event hgo hoff
    · rw [hsame] at hmore
      omega
  cases hadv with
  | tx hop hop' hr =>
    have hwas : s.phy.op = .txArmed := hop
    exact hstep hr (by rw [hop', hwas]; simp)
  | rx hop hop' hr =>
    have hwas : s.phy.op = .rxArmed := hop
    exact hstep hr (by rw [hop', hwas]; simp)
  | sent _ hr => exact hend _ hr (.inl ⟨_, rfl⟩)
  | timeout _ hr => exact hend _ hr (.inr rfl)

/-- Once its time has come, the next interrupt can be served. -/
theorem Coherent.serves (h : s.Coherent) (hreach : Reachable psa ident s.node)
    (hsilent : s.phy.incoming = none) (hev : s.node.ev.kind ≠ .none) :
    ∃ s', Serves psa s s' := by
  have hlater : ∀ us, (s.later us).Coherent := fun us =>
    (later_step psa s us).coherent h hreach.hsUnlinked
  have htimed : s.drv.Timed := h.timed.congr rfl rfl rfl
  cases hgo : s.node.granted with
  | false =>
    obtain ⟨hpending, hcompare, -, -⟩ := h.waits hev hgo
    let t := s.later (s.node.ev.atUs - s.node.nowUs)
    have ht : t.Coherent := hlater _
    have hdue : ∃ at' ∈ t.ts.compare, at' ≤ t.node.nowUs := by
      refine ⟨s.node.ev.atUs, hcompare, ?_⟩
      change s.node.ev.atUs ≤ s.node.nowUs + (s.node.ev.atUs - s.node.nowUs)
      omega
    have hair : t.drv.incoming = none := hsilent
    cases hrefuse : s.ts.reqRefuse with
    | true =>
      have hcall : t.ts.grantHandler.1 = some .failed := by
        change s.ts.grantHandler.1 = _
        unfold Direct.grantHandler
        simp [hpending, hrefuse]
      have hstep : Interrupt psa t _ := .refused (o := calm 0) hdue hcall hev rfl
      refine ⟨_, _, hstep, Nrf.obey_incoming hair, fun heq => ?_⟩
      have hsame : tsFailed (calm 0) t.node = t.node := congrArg Stack.node heq
      have hoff := (tsFailed_free (calm 0) (c := t.node) hev).1
      rw [hsame] at hoff
      exact hev hoff
    | false =>
      have hcall : t.ts.grantHandler.1 = some .granted := by
        change s.ts.grantHandler.1 = _
        unfold Direct.grantHandler
        simp [hpending, hrefuse]
      obtain ⟨o, ho⟩ := grantCmd_answer psa t.node t.drv
      have hstep : Interrupt psa t _ := .granted hdue hcall hev ho rfl
      refine ⟨_, _, hstep, Nrf.obey_incoming hair, fun heq => ?_⟩
      have hsame : tsGranted psa o t.node = t.node := congrArg Stack.node heq
      have hb : Bids o t.node (grantCmd psa o t.node) (tsGranted psa o t.node) :=
        tsGranted_bids hev ht.partner
      rw [hsame] at hb
      have hgranted : s.node.granted = true := hb.granted hev
      rw [hgo] at hgranted
      cases hgranted
  | true =>
    have hop : s.phy.op ≠ .idle := h.op_ne_idle.mpr (h.grant.trans hgo)
    cases hkind : s.phy.op with
    | idle => exact absurd hkind hop
    | tx =>
      let t := s.later (s.phy.txAirEndUs - s.node.nowUs)
      have ht : t.Coherent := hlater _
      have hen : t.drv.Enabled (.isr false true) := by
        refine ⟨nofun, fun _ => .inl ⟨hkind, ?_⟩⟩
        change s.phy.txAirEndUs ≤ s.node.nowUs + (s.phy.txAirEndUs - s.node.nowUs)
        omega
      have hisr : t.drv.perform 0 (.isr false true) = some t.drv.handleTxEnd := by
        have hkind' : t.drv.op = .tx := hkind
        unfold Nrf.perform Nrf.lgPhyIsr
        simp [hkind']
      obtain ⟨s', hstep, hair, hne⟩ := radio_serves psa ht rfl hen hisr rfl
        (.sent hkind (Nrf.handleTxEnd_reports _))
      exact ⟨s', _, hstep, hair, hne⟩
    | _ =>
      obtain ⟨at', cb, htimer⟩ := h.timed.armed (by simp [hkind])
      let t := s.later (at' - s.node.nowUs)
      have ht : t.Coherent := hlater _
      have hdrv : t.drv.Watched := ⟨h.watched.armed, h.watched.heard, h.watched.away⟩
      have hen : t.drv.Enabled .fire := by
        refine ⟨⟨_, htimer, ?_⟩, fun f hf => ?_⟩
        · change at' ≤ s.node.nowUs + (at' - s.node.nowUs)
          omega
        · have hf' : s.phy.incoming = some f := hf
          rw [hsilent] at hf'
          cases hf'
      have htimed' : t.drv.Timed := h.timed.congr rfl rfl rfl
      obtain ⟨⟨p, hp, hair, hadv⟩, -⟩ := Nrf.fire_advances htimed' hdrv hsilent htimer
      obtain ⟨s', hstep, hair, hne⟩ := radio_serves psa ht rfl hen hp hair hadv
      exact ⟨s', _, hstep, hair, hne⟩

/-! ## The end -/

theorem Coherent.isOver (h : s.Coherent) (hev : s.node.ev.kind = .none) : s.Over := by
  have hgo := h.ungranted hev
  exact ⟨hev, h.grant.trans hgo, (h.rests hgo).op⟩

/-- What is served keeps the three together. -/
theorem Serves.keeps (hserve : Serves psa s s') (h : s.Coherent)
    (hreach : Reachable psa ident s.node) :
    Relation.ReflTransGen (Step psa) s s' ∧ s'.Coherent ∧ Reachable psa ident s'.node := by
  obtain ⟨us, hint, -, -⟩ := hserve
  have hlater : Step psa s (s.later us) := later_step psa s us
  have hcoherent := hlater.coherent h hreach.hsUnlinked
  have htick : Reachable psa ident (s.later us).node :=
    hreach.tail ⟨.tick us, calm 0, trivial, rfl⟩
  refine ⟨.tail (.single hlater) (.interrupt hint),
    hint.coherent hcoherent htick.hsUnlinked, ?_⟩
  rcases hint.node hcoherent with hsame | ⟨inp, o, -, hen, hp⟩
  · rw [hsame]
    exact htick
  · exact htick.tail ⟨inp, o, hen, hp⟩

/-- **No event lasts for ever where nothing is received.** Whatever event is on in a run, and
wherever it is: if no frame arrives from here on, and no work item or call comes in between, then an
interrupt of the arbiter or of the radio is always to come, and at most `left` of them, two for each
command and one for the grant, bring the event to its end, with the grant given back and the radio
off. -/
theorem event_ends (hb : s₀.Begins psa ident) (hrun : Relation.ReflTransGen (Step psa) s₀ s)
    (hsilent : s.phy.incoming = none) :
    Within (Serves psa) Over (left s) s ∧
      ∃ s', Relation.ReflTransGen (Step psa) s s' ∧ s'.Over := by
  have hfollows := hb.follows hrun
  have hwithin : Within (Serves psa) Over (left s) s := by
    refine Within.of_measure (I := fun s =>
      s.Coherent ∧ Reachable psa ident s.node ∧ s.phy.incoming = none) left ?_ ?_
      ⟨hfollows.coherent, hfollows.reach, hsilent⟩
    · rintro t ⟨ht, hreach, hair⟩ hnot
      exact ht.serves hreach hair fun hev => hnot (ht.isOver hev)
    · rintro t t' ⟨ht, hreach, hair⟩ hnot hserve
      obtain ⟨-, ht', hreach'⟩ := hserve.keeps ht hreach
      obtain ⟨us, hint, hair', hne⟩ := hserve
      have hlater := (later_step psa t us).coherent ht hreach.hsUnlinked
      have hless := hint.less hlater hair (fun hev => hnot (ht.isOver hev)) hair' hne
      exact ⟨⟨ht', hreach', hair'⟩, hless⟩
  refine ⟨hwithin, ?_⟩
  have hkeep : ∀ t, Relation.ReflTransGen (Serves psa) s t →
      Relation.ReflTransGen (Step psa) s t ∧ t.Coherent ∧ Reachable psa ident t.node := by
    intro t ht
    induction ht with
    | refl => exact ⟨.refl, hfollows.coherent, hfollows.reach⟩
    | tail _ hserve ih =>
      obtain ⟨hsteps, hcoherent, hreach⟩ := ih
      obtain ⟨hmore, hcoherent', hreach'⟩ := hserve.keeps hcoherent hreach
      exact ⟨hsteps.trans hmore, hcoherent', hreach'⟩
  obtain ⟨t, ht, hover⟩ := hwithin.exists_run
  exact ⟨t, (hkeep t ht).1, hover⟩

theorem event_ends_scan :
    ∃ s₀ s : Stack .default, s₀.Begins Psa.plain (plainIdent 1 1) ∧ s.node.ev.kind = .scan ∧
      s.phy.op = .rx ∧ Within (Serves Psa.plain) Over 1 s := by
  obtain ⟨s₀, s, hb, -, hrun, hop, hsilent, hkind, -, -, -, -⟩ := scan_run
  obtain ⟨hwithin, -⟩ := event_ends hb hrun hsilent
  refine ⟨s₀, s, hb, hkind, hop, hwithin.mono ?_⟩
  have hfollows := hb.follows hrun
  have hgo : s.node.granted = true := by
    rw [← hfollows.coherent.grant]
    exact hfollows.coherent.op_ne_idle.mp (by rw [hop]; simp)
  unfold left Node.more
  simp [hkind, hgo, hop, PhyOp.isArmed]

end Stack

end LockGrid
