import LockGrid.Subrates
import LockGrid.Exchange

/-!
# What a tuning comes to

The values of `lg_tuning_set` on their way to both ends of a link and to the beacons. They are
bounded from below, and some of them not from above; the supervision timeout travels in 16 bits
and the beacon interval is multiplied in 32.
-/
namespace LockGrid

variable {cfg : Config} {psa : Psa} {c d d' : Node cfg} {i : Fin cfg.maxNeighbors} {o : Oracle}

/-! ## Link parameters -/

/-- What is sent is what is read. -/
theorem LinkParams.decode_encode (pp : LinkParams) : LinkParams.decode pp.encode = pp := by
  simp only [LinkParams.decode, LinkParams.encode, getLe32, getLe16, getByte, putLe32, putLe16,
    List.cons_append, List.nil_append, List.getD_cons_zero, List.getD_cons_succ, le32_join,
    le16_join]

/-- The interval and the supervision timeout that `lg_tuning_set` makes of `t`. -/
def Tuning.interval (cfg : Config) (t : Tuning) : ℕ := cfg.clampInterval t.connIntervalUs

def Tuning.timeout (cfg : Config) (t : Tuning) : ℕ := max t.supTimeoutUs (t.interval cfg * 4)

theorem Tuning.interval_range (cfg : Config) (t : Tuning) :
    10000 ≤ t.interval cfg ∧ t.interval cfg ≤ 32000000 := by
  have hmin := cfg.connIntervalMinMs_range
  have hmax := cfg.connIntervalMaxMs_range
  simp only [Tuning.interval, Config.clampInterval, clamp]
  split_ifs <;> omega

theorem lgTuningSet_tune (o : Oracle) (c : Node cfg) (t : Tuning) :
    let tune := (lgTuningSet o c t).net.tune
    tune.connIntervalUs = t.interval cfg ∧ tune.supTimeoutUs = t.timeout cfg ∧
      tune.subrateMax = max 1 (min t.subrateMax (lgSubrateCeiling (t.interval cfg)
        (t.timeout cfg))) := ⟨rfl, rfl, rfl⟩

/-- The link keeps what `lg_link_establish` starts it on. -/
theorem lgLinkEstablish_terms {pp : LinkParams} {initiator : Bool}
    (h : lgLinkEstablish o d i pp initiator = some d') :
    let s := (d'.neigh i).sched
    let s₀ := startSchedule d pp initiator (d.neigh i).sched
    s.intervalUs = s₀.intervalUs ∧ s.supTimeoutUs = s₀.supTimeoutUs ∧
      s.subrateMax = s₀.subrateMax := by
  obtain ⟨s, hs, rfl⟩ := Option.map_eq_some_iff.mp h
  let d₀ := d.setNeigh i { d.neigh i with
    state := .linked, sched := s, tx := { (d.neigh i).tx with txPending := false } }
  let d₁ := lgNeighUpdateCost (d₀.setView i
    { d₀.view i with peerRank := pp.rank.toNat, role := pp.role, consecMisses := 0 }) i
  have hq : Node.Quiet d₀ (linksChanged o d₁) :=
    (setView_quiet d₀ i _).trans ((lgNeighUpdateCost_quiet _ i).trans (linksChanged_quiet o _))
  have hsched : ((linksChanged o d₁).neigh i).sched = s := by
    rw [hq.neigh]
    simp only [d₀, Node.setNeigh, Function.update_self]
  change ((linksChanged o d₁).neigh i).sched.intervalUs = _ ∧ _
  rw [hsched]
  rcases anchorCatchUp_anchorSet hs with rfl | ⟨t, rfl⟩
  · exact ⟨rfl, rfl, rfl⟩
  · exact ⟨rfl, rfl, rfl⟩

/-- `t` reaches a link unharmed: whichever node fills the link parameters under it, whichever end
takes them, they say what was tuned, and so do the terms of the link. -/
def ReachesLink (cfg : Config) (t : Tuning) : Prop :=
  ∀ (c₀ c d d' : Node cfg) (o o₁ o₂ : Oracle) (i : Fin cfg.maxNeighbors) (initiator : Bool),
    c.net.tune = (lgTuningSet o c₀ t).net.tune →
    let pp := linkParamsFill o₁ c
    lgLinkEstablish o₂ d i (LinkParams.decode pp.encode) initiator = some d' →
    let s := (d'.neigh i).sched
    s.intervalUs = t.interval cfg ∧ s.supTimeoutUs = t.timeout cfg / 10000 * 10000 ∧
      3 * s.subrateMax.toNat * s.intervalUs ≤ s.supTimeoutUs ∧
      pp.intervalUs.toNat = c.net.tune.connIntervalUs ∧
      pp.anchorOffsetUs.toNat = c.net.tune.connIntervalUs * 2 ∧
      pp.supTimeoutCs.toNat = c.net.tune.supTimeoutUs / 10000 ∧
      pp.subrateMax.toNat = c.net.tune.subrateMax

/-- The shortest interval to negotiate is no longer than the longest one, or `t` asks for no more
than the shortest. -/
def Tuning.Ordered (cfg : Config) (t : Tuning) : Prop :=
  cfg.connIntervalMinMs ≤ cfg.connIntervalMaxMs ∨
    t.connIntervalUs ≤ cfg.connIntervalMinMs * 1000

/-- Both ends clamp the interval again; this changes nothing just when the bounds are in order. -/
theorem Tuning.ordered_iff (t : Tuning) :
    t.Ordered cfg ↔ cfg.clampInterval (t.interval cfg) = t.interval cfg := by
  have hmax := cfg.connIntervalMaxMs_range
  simp only [Tuning.Ordered, Tuning.interval, Config.clampInterval, clamp]
  split_ifs <;> omega

/-- The terms of any link that comes up on parameters filled under the tuning `t`. -/
theorem terms_of_tuning {c₀ c : Node cfg} {t : Tuning} {o₁ o₂ : Oracle} {initiator : Bool}
    (htune : c.net.tune = (lgTuningSet o c₀ t).net.tune)
    (hup : lgLinkEstablish o₂ d i (.decode (linkParamsFill o₁ c).encode) initiator = some d') :
    (d'.neigh i).sched.intervalUs = cfg.clampInterval (t.interval cfg) ∧
      (d'.neigh i).sched.supTimeoutUs = t.timeout cfg / 10000 % 65536 * 10000 := by
  obtain ⟨hconn, hsup, -⟩ := lgTuningSet_tune o c₀ t
  rw [← htune] at hconn hsup
  obtain ⟨hlow, hhigh⟩ := t.interval_range cfg
  rw [LinkParams.decode_encode] at hup
  obtain ⟨hinterval, htimeout, -⟩ := lgLinkEstablish_terms hup
  constructor
  · have hfit : t.interval cfg % 2 ^ 32 = t.interval cfg := by omega
    rw [hinterval]
    simp only [startSchedule, linkParamsFill, hconn, UInt32.toNat_ofNat', hfit]
  · rw [htimeout]
    simp only [startSchedule, linkParamsFill, hsup, UInt16.toNat_ofNat', Nat.reducePow]

/-- No value wraps on its way into the link parameters, when the timeout fits. -/
theorem linkParamsFill_fits {c₀ c : Node cfg} {t : Tuning} (o₁ : Oracle)
    (hfits : t.timeout cfg < 655360000)
    (htune : c.net.tune = (lgTuningSet o c₀ t).net.tune) :
    let pp := linkParamsFill o₁ c
    pp.intervalUs.toNat = c.net.tune.connIntervalUs ∧
      pp.anchorOffsetUs.toNat = c.net.tune.connIntervalUs * 2 ∧
      pp.supTimeoutCs.toNat = c.net.tune.supTimeoutUs / 10000 ∧
      pp.subrateMax.toNat = c.net.tune.subrateMax := by
  obtain ⟨hconn, hsup, hsub⟩ := lgTuningSet_tune o c₀ t
  rw [← htune] at hconn hsup hsub
  obtain ⟨hlow, hhigh⟩ := t.interval_range cfg
  have hceiling : lgSubrateCeiling (t.interval cfg) (t.timeout cfg) ≤ 32 := by
    unfold lgSubrateCeiling
    split <;> omega
  simp only [linkParamsFill, UInt32.toNat_ofNat', UInt16.toNat_ofNat', UInt8.toNat_ofNat']
  refine ⟨?_, ?_, ?_, ?_⟩ <;> omega

/-- The factor a link may reach leaves room for two misses, when what was tuned has come through. -/
theorem room_of_tuning {t : Tuning} {pp : LinkParams} {initiator : Bool}
    (hup : lgLinkEstablish o d i pp initiator = some d')
    (hinterval : (d'.neigh i).sched.intervalUs = t.interval cfg)
    (htimeout : (d'.neigh i).sched.supTimeoutUs = t.timeout cfg / 10000 * 10000) :
    let s := (d'.neigh i).sched
    3 * s.subrateMax.toNat * s.intervalUs ≤ s.supTimeoutUs := by
  intro s
  obtain ⟨hs₁, hs₂, hs₃⟩ := lgLinkEstablish_terms hup
  have hceiling : s.subrateMax.toNat ≤ lgSubrateCeiling s.intervalUs s.supTimeoutUs := by
    rw [hs₁, hs₂, hs₃]
    simp only [startSchedule, UInt8.toNat_ofNat']
    exact (Nat.mod_le _ _).trans ((min_le_right _ _).trans (min_le_right _ _))
  by_cases hone : 1 < s.subrateMax.toNat
  · exact lgSubrateCeiling_room hceiling hone
  · -- a factor of one takes three intervals, and the timeout was tuned to four
    have hfour : t.interval cfg * 4 ≤ t.timeout cfg := le_max_right _ _
    have hlow := (t.interval_range cfg).1
    calc 3 * s.subrateMax.toNat * s.intervalUs ≤ 3 * s.intervalUs :=
          Nat.mul_le_mul_right _ (by omega)
      _ = 3 * t.interval cfg := by rw [hinterval]
      _ ≤ t.timeout cfg / 10000 * 10000 := by omega
      _ = s.supTimeoutUs := htimeout.symm

/-- The terms a link starts on under a tuning whose timeout fits. -/
theorem reachesLink_of_fits {t : Tuning} (hfits : t.timeout cfg < 655360000)
    (hordered : t.Ordered cfg) : ReachesLink cfg t := by
  intro c₀ c d d' o o₁ o₂ i initiator htune pp hup s
  obtain ⟨hinterval, htimeout⟩ := terms_of_tuning htune hup
  rw [t.ordered_iff.mp hordered] at hinterval
  rw [Nat.mod_eq_of_lt (by omega)] at htimeout
  exact ⟨hinterval, htimeout, room_of_tuning hup hinterval htimeout,
    linkParamsFill_fits o₁ hfits htune⟩

/-- Some link does come up under `t`. -/
theorem exists_link_of_tuning (cfg : Config) (t : Tuning) :
    ∃ (c₀ c d d' : Node cfg) (o : Oracle) (i : Fin cfg.maxNeighbors),
      c.net.tune = (lgTuningSet o c₀ t).net.tune ∧
      lgLinkEstablish o d i (.decode (linkParamsFill o c).encode) true = some d' := by
  let c₀ : Node cfg := Node.boot cfg (plainIdent 1 1)
  let c := { c₀ with net := { c₀.net with
    tune := (lgTuningSet (calm 0) c₀ t).net.tune, chanMap := 0xFFFF } }
  have hpos : 0 < cfg.maxNeighbors := by
    have hrange := cfg.maxNeighbors_range
    omega
  have hmap : (0xFFFF : UInt16) ≠ 0 := by decide
  have hearly : 0 < 0 + joinSlotUs := by decide
  have hclock : 0 + 2 ^ 32 ≤ 2 ^ 64 := by decide
  obtain ⟨d', -, hup, -⟩ := lgLinkEstablish_on (calm 0) (c := c₀) (i := ⟨0, hpos⟩)
    (.decode (linkParamsFill (calm 0) c).encode) true
    (by rw [decode_encode_chanMap]; exact hmap) hearly hclock
  exact ⟨c₀, c, c₀, d', calm 0, ⟨0, hpos⟩, rfl, hup⟩

/-- A timeout of `65536` times 10 ms or more comes out shorter than it was tuned. -/
theorem not_reachesLink {t : Tuning} (h : 655360000 ≤ t.timeout cfg ∨ ¬t.Ordered cfg) :
    ¬ReachesLink cfg t := by
  intro hreach
  obtain ⟨c₀, c, d, d', o, i, htune, hup⟩ := exists_link_of_tuning cfg t
  obtain ⟨hinterval, htimeout, -⟩ := hreach c₀ c d d' o o o i true htune hup
  obtain ⟨hinterval', htimeout'⟩ := terms_of_tuning htune hup
  rcases h with hlong | hmixed
  · omega
  · exact hmixed (t.ordered_iff.mpr (hinterval'.symm.trans hinterval))

/-- A tuning reaches its links unharmed exactly when its supervision timeout fits into 16 bits of
10 ms, and the bounds of the interval are in order. -/
theorem reachesLink_iff (t : Tuning) :
    ReachesLink cfg t ↔ t.timeout cfg < 655360000 ∧ t.Ordered cfg := by
  constructor
  · intro hreach
    by_contra hnot
    refine not_reachesLink ?_ hreach
    by_cases hfits : t.timeout cfg < 655360000
    · exact .inr fun hordered => hnot ⟨hfits, hordered⟩
    · exact .inl (by omega)
  · rintro ⟨hfits, hordered⟩
    exact reachesLink_of_fits hfits hordered

/-- A supervision timeout of 700 seconds comes out as 44640 ms. -/
theorem not_reachesLink_long :
    ¬ReachesLink {} { tuningInit {} with supTimeoutUs := 700000000 } := by
  refine not_reachesLink (.inl ?_)
  decide

/-! ## Beacon intervals -/

/-- The interval between the beacons of `c`, were it not computed in 32 bits. -/
def Node.beaconNominal (c : Node cfg) : ℕ :=
  c.net.tune.beaconIntervalUs * if beaconUrgent c then 1 else c.net.tune.beaconIdleFactor

/-- `jitter`, were it not computed in 32 bits. -/
def jitterExact (o : Oracle) (k nominal : ℕ) : ℕ :=
  let span := nominal / 2
  if span = 0 then nominal else nominal - span / 2 + o.rand32 k % span

/-- Whatever is drawn, a fresh beacon time lies within a quarter of the interval, and nothing
overflows. -/
def Node.BeaconsInTime (psa : Psa) (c : Node cfg) : Prop :=
  ∀ o : Oracle, (∀ k, o.rand32 k < 2 ^ 32) →
    beaconIntervalUs c = c.beaconNominal ∧
    (∀ k, jitter o k c.beaconNominal = jitterExact o k c.beaconNominal) ∧
    (c.net.beaconPlannedUs ≤ c.nowUs + 2000 →
      ∃ delay, (lgDiscBeaconFinish psa o c).net.nextBeaconUs = some (c.nowUs + delay) ∧
        3 * c.beaconNominal ≤ 4 * delay ∧ 4 * delay ≤ 5 * c.beaconNominal)

/-- A quarter less to a quarter more. -/
theorem jitterExact_range (o : Oracle) (k nominal : ℕ) :
    3 * nominal ≤ 4 * jitterExact o k nominal ∧ 4 * jitterExact o k nominal ≤ 5 * nominal := by
  unfold jitterExact
  dsimp only
  split
  · omega
  · next hspan =>
    have hdraw := Nat.mod_lt (o.rand32 k) (by omega : 0 < nominal / 2)
    omega

/-- The longest interval a quarter can be added to in 32 bits. -/
def jitterLimit : ℕ := 3435973837

theorem jitter_exact {nominal : ℕ} (o : Oracle) (k : ℕ) (h : nominal ≤ jitterLimit) :
    jitter o k nominal = jitterExact o k nominal := by
  unfold jitter jitterExact
  dsimp only
  split
  · rfl
  · next hspan =>
    have hdraw := Nat.mod_lt (o.rand32 k) (by omega : 0 < nominal / 2)
    simp only [jitterLimit] at h
    exact Nat.mod_eq_of_lt (by omega)

/-- Beyond the limit, the highest draw overflows. -/
theorem jitter_wraps {nominal : ℕ} (h : jitterLimit < nominal) :
    ∃ o : Oracle, (∀ k, o.rand32 k < 2 ^ 32) ∧
      ∀ k, jitter o k nominal < 2 ^ 32 ∧ 2 ^ 32 ≤ jitterExact o k nominal := by
  simp only [jitterLimit] at h
  have hspan : nominal / 2 ≠ 0 := by omega
  refine ⟨{ calm 0 with rand32 := fun _ => min (nominal / 2 - 1) (2 ^ 32 - 1) }, fun k => ?_,
    fun k => ⟨?_, ?_⟩⟩
  · exact (min_le_right _ _).trans_lt (by decide)
  · simp only [jitter, if_neg hspan]
    exact Nat.mod_lt _ (by decide)
  · have hdraw : min (nominal / 2 - 1) (2 ^ 32 - 1) % (nominal / 2) =
        min (nominal / 2 - 1) (2 ^ 32 - 1) := Nat.mod_eq_of_lt (by omega)
    simp only [jitterExact, if_neg hspan, hdraw]
    omega

theorem beaconIntervalUs_exact {c : Node cfg} (h : c.beaconNominal ≤ jitterLimit) :
    beaconIntervalUs c = c.beaconNominal := by
  simp only [Node.beaconNominal, beaconIntervalUs, jitterLimit] at h ⊢
  split
  · exact (Nat.mul_one _).symm
  · next hidle =>
    rw [if_neg hidle] at h
    exact Nat.mod_eq_of_lt (by omega)

/-- Beacons come in time exactly while a quarter more than their interval fits into 32 bits. -/
theorem beaconsInTime_iff (psa : Psa) (c : Node cfg) :
    c.BeaconsInTime psa ↔ c.beaconNominal ≤ jitterLimit := by
  constructor
  · intro hintime
    by_contra hlong
    obtain ⟨o, hdraws, hwraps⟩ := jitter_wraps (Nat.lt_of_not_le hlong)
    obtain ⟨-, hjitter, -⟩ := hintime o hdraws
    obtain ⟨hlow, hhigh⟩ := hwraps 0
    rw [hjitter 0] at hlow
    omega
  · intro hfits o hdraws
    have hinterval := beaconIntervalUs_exact hfits
    refine ⟨hinterval, fun k => jitter_exact o k hfits, fun hgone => ?_⟩
    refine ⟨jitterExact o 4 c.beaconNominal, ?_, jitterExact_range o 4 _⟩
    have hnot : ¬c.nowUs + 2000 < c.net.beaconPlannedUs := by omega
    rw [← jitter_exact o 4 hfits, ← hinterval]
    change some (if _ then _ else _) = _
    rw [if_neg hnot]

/-- A node with the slowest beacons there are to configure: one a minute, 64 times that when nobody
needs it. -/
def slowest : Config :=
  { Config.default with
    beaconIntervalMs := 60000
    beaconIdleFactor := 64
    beaconIntervalMs_range := by decide
    beaconIdleFactor_range := by decide }

/-- Its fresh beacon times wrap, when the draw is high. -/
theorem not_beaconsInTime_slowest :
    ¬∀ c : Node slowest, c.net.tune = tuningInit slowest → c.BeaconsInTime Psa.plain := by
  intro hall
  let id := plainIdent 1 1
  let link : Neigh := { (Node.boot slowest id).neigh ⟨0, by decide⟩ with state := .linked }
  let c : Node slowest := { Node.boot slowest id with
    neigh := fun _ => link
    net := { (Node.boot slowest id).net with
      role := .backhaul, rank := 0, tune := tuningInit slowest } }
  have hidle : beaconUrgent c = false := by decide
  have hlong : jitterLimit < c.beaconNominal := by
    simp only [Node.beaconNominal, hidle]
    decide
  obtain ⟨o, hdraws, hwraps⟩ := jitter_wraps hlong
  obtain ⟨-, hjitter, -⟩ := hall c rfl o hdraws
  obtain ⟨hlow, hhigh⟩ := hwraps 0
  rw [hjitter 0] at hlow
  omega

end LockGrid
