import LockGrid.Provenance
import Mathlib.Algebra.Order.Ring.Rat
import Mathlib.Tactic.Positivity

/-!
# Receive windows and clock drift

A responder plans its window from the drift since it last synchronised up to the moment of
planning, and opens it as planned. What drifts between then and the event has to fit into the
jitter allowance and the floor of the window.
-/
namespace LockGrid

variable {cfg : Config}

/-- Where the initiator's frame starts on the responder's clock, when both clocks run at a
constant rate that is off by `own` and `peer` parts per million. -/
def frameStart (s : Schedule) (anchorUs : ℕ) (own peer : ℚ) : ℚ :=
  anchorUs + (anchorUs - s.lastSyncUs) * (own + peer) / 1000000

/-- The window `link_start` opens for `ev` holds every start the accuracies allow. -/
def Covers (cfg : Config) (s : Schedule) (ev : Event cfg) : Prop :=
  ∀ own peer : ℚ, |own| ≤ cfg.clockAccuracyPpm → |peer| ≤ s.peerScaPpm →
    (ev.anchorUs : ℚ) - ev.windowUs ≤ frameStart s ev.anchorUs own peer ∧
      frameStart s ev.anchorUs own peer ≤ ev.anchorUs + ev.windowUs + syncWindowUs

/-- The drift to be covered, in millionths of a microsecond. -/
def driftAt (cfg : Config) (s : Schedule) (us : ℕ) : ℕ := (us - s.lastSyncUs) * combinedPpm cfg s

theorem frameStart_sub (s : Schedule) (a : ℕ) (own peer : ℚ) :
    frameStart s a own peer - a = (a - s.lastSyncUs) * (own + peer) / 1000000 := by
  unfold frameStart
  ring

/-- A frame start is off by no more than the drift up to the event. -/
theorem abs_frameStart_sub_le (cfg : Config) (s : Schedule) (a : ℕ) (hs : s.lastSyncUs ≤ a)
    {own peer : ℚ} (ho : |own| ≤ cfg.clockAccuracyPpm) (hp : |peer| ≤ s.peerScaPpm) :
    |frameStart s a own peer - a| ≤ driftAt cfg s a / 1000000 := by
  have hd : (0 : ℚ) ≤ a - s.lastSyncUs := sub_nonneg.mpr (Nat.cast_le.mpr hs)
  have hsum : |own + peer| ≤ combinedPpm cfg s := by
    unfold combinedPpm
    push_cast
    exact (abs_add_le own peer).trans (add_le_add ho hp)
  have hmul := mul_le_mul_of_nonneg_left hsum hd
  have hpos : (0 : ℚ) < 1000000 := by norm_num
  rw [frameStart_sub, abs_div, abs_mul, abs_of_nonneg hd, abs_of_pos hpos]
  unfold driftAt
  push_cast [Nat.cast_sub hs]
  linarith

/-- With both clocks as slow as they may be, the frame is early by the whole drift. -/
theorem frameStart_slow (cfg : Config) (s : Schedule) (a : ℕ) (hs : s.lastSyncUs ≤ a) :
    frameStart s a (-cfg.clockAccuracyPpm) (-s.peerScaPpm) = a - driftAt cfg s a / 1000000 := by
  unfold frameStart driftAt combinedPpm
  push_cast [Nat.cast_sub hs]
  ring

/-- A window covers the drift exactly when it is as wide as that. -/
theorem covers_iff_le (cfg : Config) (s : Schedule) (ev : Event cfg)
    (hs : s.lastSyncUs ≤ ev.anchorUs) :
    Covers cfg s ev ↔ driftAt cfg s ev.anchorUs ≤ ev.windowUs * 1000000 := by
  have hcast : driftAt cfg s ev.anchorUs ≤ ev.windowUs * 1000000 ↔
      (driftAt cfg s ev.anchorUs : ℚ) ≤ ev.windowUs * 1000000 := by
    exact_mod_cast Iff.rfl
  rw [hcast]
  constructor
  · intro h
    have hslow := (h (-cfg.clockAccuracyPpm) (-s.peerScaPpm) (by simp) (by simp)).1
    rw [frameStart_slow cfg s ev.anchorUs hs] at hslow
    linarith
  · intro hle own peer ho hp
    have habs := abs_frameStart_sub_le cfg s ev.anchorUs hs ho hp
    obtain ⟨hlo, hhi⟩ := abs_le.mp habs
    have hsync : (0 : ℚ) ≤ syncWindowUs := Nat.cast_nonneg _
    constructor <;> linarith

/-! ## The planned window -/

/-- The half-width `event_plan` fixes, while it is neither capped nor overflows. -/
theorem linkPlan_windowUs (c : Node cfg) (i : Fin cfg.maxNeighbors) (a : ℕ)
    (hr : (c.neigh i).sched.initiator = false)
    (hsmall : driftAt cfg (c.neigh i).sched c.nowUs < 2 ^ 64) :
    (linkPlan c i a).windowUs =
      min ((if (c.neigh i).sched.lastSyncUs = 0 then 0
          else driftAt cfg (c.neigh i).sched c.nowUs / 1000000) +
        windowJitterUs + cfg.rxWindowMinUs / 2) (cfg.rxWindowMaxUs / 2) := by
  have helapsed : driftUs cfg c.nowUs (c.neigh i).sched =
      if (c.neigh i).sched.lastSyncUs = 0 then 0
      else driftAt cfg (c.neigh i).sched c.nowUs / 1000000 := by
    unfold driftUs elapsedUs
    split_ifs with h hz hz
    · exact absurd hz h.1
    · exact congrArg (· / 1000000) (Nat.mod_eq_of_lt hsmall)
    · simp
    · have hle : c.nowUs - (c.neigh i).sched.lastSyncUs = 0 := by omega
      simp [driftAt, hle]
  simp only [linkPlan, lgLinkWindowUs, hr, helapsed, Bool.false_eq_true, if_false]

/-- The window of a responder covers the drift exactly when what drifts after the planning fits
into the jitter allowance and the floor of the window. -/
theorem linkPlan_covers_iff (c : Node cfg) (i : Fin cfg.maxNeighbors) (a prio : ℕ)
    (hr : (c.neigh i).sched.initiator = false)
    (hsync : (c.neigh i).sched.lastSyncUs ≤ c.nowUs)
    (hat : c.nowUs ≤ (eventPlan c ⟨.link, a, some i, prio⟩).1.atUs)
    (hneed : driftAt cfg (c.neigh i).sched a ≤ cfg.rxWindowMaxUs / 2 * 1000000) :
    Covers cfg (c.neigh i).sched (eventPlan c ⟨.link, a, some i, prio⟩).1 ↔
      driftAt cfg (c.neigh i).sched a ≤
        ((if (c.neigh i).sched.lastSyncUs = 0 then 0
            else driftAt cfg (c.neigh i).sched c.nowUs / 1000000) +
          windowJitterUs + cfg.rxWindowMinUs / 2) * 1000000 := by
  have hplan : (eventPlan c ⟨.link, a, some i, prio⟩).1 = linkPlan c i a := rfl
  rw [hplan] at hat ⊢
  have hnow : c.nowUs ≤ a := by
    refine hat.trans ?_
    simp only [linkPlan, hr, Bool.false_eq_true, if_false]
    omega
  have hmono : driftAt cfg (c.neigh i).sched c.nowUs ≤ driftAt cfg (c.neigh i).sched a :=
    Nat.mul_le_mul_right _ (Nat.sub_le_sub_right hnow _)
  have hmax := cfg.rxWindowMaxUs_range.2
  rw [covers_iff_le cfg _ _ (hsync.trans hnow), linkPlan_windowUs c i a hr (by omega),
    show (linkPlan c i a).anchorUs = a from rfl]
  generalize (if (c.neigh i).sched.lastSyncUs = 0 then 0
    else driftAt cfg (c.neigh i).sched c.nowUs / 1000000) + windowJitterUs +
    cfg.rxWindowMinUs / 2 = w
  omega

/-- A responder of the default build that synchronised after one second and plans its next
event 10 ms later. -/
def syncedResponder : Node .default :=
  { Node.boot .default (plainIdent 2 2) with
    nowUs := 1010000
    neigh := fun _ => {
      state := .linked
      addr := 1
      sched := {
        intervalUs := 200000
        epochUs := 1000000
        anchorUs := 1000000
        subrate := 16
        subrateMax := 16
        lastSyncUs := 1000000
        peerScaPpm := 250
        chanMap := 0xFFFF } } }

/-- 200 ms after the synchronisation 100 µs have drifted, which the window covers. -/
theorem linkPlan_covers_next :
    Covers .default (syncedResponder.neigh firstNeigh).sched
      (eventPlan syncedResponder ⟨.link, 1200000, some firstNeigh, prioNormal⟩).1 :=
  (linkPlan_covers_iff syncedResponder firstNeigh 1200000 prioNormal (by decide) (by decide)
    (by decide) (by decide)).mpr (by decide)

/-- Over one event at subrate 16 the drift is 1.6 ms and the window 145 µs. -/
theorem not_linkPlan_covers_subrate :
    ¬ ∀ (cfg : Config) (c : Node cfg) (i : Fin cfg.maxNeighbors) (a prio : ℕ),
      (c.neigh i).sched.initiator = false → (c.neigh i).sched.lastSyncUs ≤ c.nowUs →
      c.nowUs ≤ (eventPlan c ⟨.link, a, some i, prio⟩).1.atUs →
      driftAt cfg (c.neigh i).sched a ≤ cfg.rxWindowMaxUs / 2 * 1000000 →
      Covers cfg (c.neigh i).sched (eventPlan c ⟨.link, a, some i, prio⟩).1 := by
  intro h
  have hcovers := h .default syncedResponder firstNeigh 4200000 prioNormal (by decide)
    (by decide) (by decide) (by decide)
  rw [covers_iff_le .default _ _ (by decide)] at hcovers
  exact absurd hcovers (by decide)

end LockGrid
