import LockGrid.Chan
import LockGrid.Loops
import Mathlib.Tactic.Ring

/-!
# Schedule arithmetic of a link

The receive window, the event number behind an anchor, and the functions that move the anchor
from one active event to a later one.
-/
namespace LockGrid

def windowJitterUs : ℕ := 40
def expediteLeadUs : ℕ := 3000

/-! ## Receive window -/

/-- Time since the last synchronisation; none counts as no time at all. -/
def elapsedUs (now : ℕ) (s : Schedule) : ℕ :=
  if s.lastSyncUs ≠ 0 ∧ s.lastSyncUs < now then now - s.lastSyncUs else 0

def combinedPpm (cfg : Config) (s : Schedule) : ℕ := cfg.clockAccuracyPpm + s.peerScaPpm

/-- The product is a 64-bit one. -/
def driftUs (cfg : Config) (now : ℕ) (s : Schedule) : ℕ :=
  elapsedUs now s * combinedPpm cfg s % 2 ^ 64 / 1000000

/-- Half-width of the receive window the link needs at time `now`. -/
def lgLinkWindowUs (cfg : Config) (now : ℕ) (s : Schedule) : ℕ :=
  if s.initiator then cfg.rxWindowMinUs / 2
  else min (driftUs cfg now s + windowJitterUs + cfg.rxWindowMinUs / 2) (cfg.rxWindowMaxUs / 2)

/-! ## Event numbers -/

/-- Number of the event nearest to the anchor, however many bits it takes. -/
def eventNumber (s : Schedule) : ℕ :=
  (s.anchorUs - s.epochUs + s.intervalUs / 2) / s.intervalUs

/-- The sum has 64 bits and the number 16. -/
def counterOf (s : Schedule) : ℕ :=
  if s.intervalUs = 0 ∨ s.anchorUs < s.epochUs then 0
  else (s.anchorUs - s.epochUs + s.intervalUs / 2) % 2 ^ 64 / s.intervalUs % 2 ^ 16

/-- The time has 64 bits, so an epoch that a correction took below zero wraps back. -/
def anchorSet (s : Schedule) (target : ℕ) : Schedule :=
  { s with anchorUs := (s.epochUs + target * s.intervalUs) % 2 ^ 64, counter := target }

def step (s : Schedule) : ℕ := max s.subrate.toNat 1

def nextActive (s : Schedule) (after : ℕ) : ℕ := ((after / step s + 1) * step s) % 2 ^ 16

/-- The step that both `anchor_catch_up` and `lg_link_advance` take. -/
def toNextActive (s : Schedule) : Schedule := anchorSet s (nextActive s (counterOf s))

/-- Earliest anchor `anchor_catch_up` leaves alone, a 64-bit time. -/
def catchUpGoal (cfg : Config) (now : ℕ) (s : Schedule) : ℕ :=
  (now + (schedLeadUs + lgLinkWindowUs cfg now s + 200)) % 2 ^ 64

/-- Land on an active event even if the current anchor is not one. -/
def ontoActive (s : Schedule) : Schedule :=
  if counterOf s % step s ≠ 0 then toNextActive s else s

/-- `none` when the loop has not ended after `fuel` tests. -/
def anchorCatchUp (cfg : Config) (now fuel : ℕ) (s : Schedule) : Option Schedule :=
  if s.intervalUs = 0 then some s
  else
    Loops.whileLoop (fun t => decide (t.anchorUs < catchUpGoal cfg now s)) toNextActive fuel
      (ontoActive s)

/-- The time is `none` for `UINT64_MAX`. -/
def lgLinkNextEventUs (cfg : Config) (now fuel : ℕ) (n : Neigh) : Option (Neigh × Option ℕ) :=
  if n.state ≠ .linked ∨ n.sched.intervalUs = 0 then some (n, none)
  else
    (anchorCatchUp cfg now fuel n.sched).map fun s => ({ n with sched := s }, some s.anchorUs)

def lgLinkNextChan (s : Schedule) : ℕ :=
  lgChanHop s.chanMap s.hopSeed (UInt16.ofNat (counterOf s))

/-- Apply a parameter change at the counter both ends agreed on. -/
def applyPending (s : Schedule) : Schedule :=
  if s.pendingCtrl.any ∧ s.instant ≤ s.counter then
    let s := if !s.initiator || s.ctrlAcked then
        { s with
          chanMap := if s.pendingCtrl.chanMap then s.pendingChanMap else s.chanMap
          subrate := if s.pendingCtrl.subrate then max s.pendingSubrate 1 else s.subrate }
      else s
    { s with pendingCtrl := {}, ctrlAcked := false }
  else s

def lgLinkAdvance (s : Schedule) : Schedule := applyPending (toNextActive s)

/-- Raise or lower the subrate factor when the link's traffic changes. -/
def subrateUpdate (pending : Bool) (consecMisses : ℕ) (s : Schedule) : Schedule :=
  if !s.initiator || s.subrateMax ≤ 1 then s
  else
    let want : UInt8 := if pending || s.pendingCtrl.any then 1
      else if consecMisses ≠ 0 then 1
      else UInt8.ofNat (min (s.subrate.toNat * 2) s.subrateMax.toNat)
    if want = s.subrate ∨ s.pendingCtrl.any then s
    else { s with
      pendingSubrate := want
      instant := (counterOf s + 6) % 2 ^ 16
      ctrlAcked := false
      pendingCtrl := { s.pendingCtrl with subrate := true } }

/-- `sched_finish` tells a link about a new channel map. -/
def announceChanMap (map : UInt16) (s : Schedule) : Schedule :=
  if s.initiator && !s.pendingCtrl.any then
    { s with
      pendingChanMap := map
      instant := (s.counter + 6) % 2 ^ 16
      ctrlAcked := false
      pendingCtrl := { s.pendingCtrl with chanMap := true } }
  else s

/-- The part of `lg_sched_expedite` that moves the anchor. -/
def expedite (now : ℕ) (s : Schedule) : Schedule :=
  if s.initiator ∧ now + expediteLeadUs < s.anchorUs then
    { s with anchorUs := now + expediteLeadUs, subrate := 1 }
  else s

/-! ## Basic facts -/

/-- The highest event number `next_active` ever yields at the subrate `k`. -/
def lastActive (k : ℕ) : ℕ := (2 ^ 16 - 1) / k * k

@[simp] theorem step_pos (s : Schedule) : 0 < step s := by simp [step]

theorem step_lt (s : Schedule) : step s < 2 ^ 8 := by
  have := s.subrate.toNat_lt
  simp only [step]
  omega

@[simp] theorem step_anchorSet (s : Schedule) (t : ℕ) : step (anchorSet s t) = step s := rfl

@[simp] theorem anchorSet_epochUs (s : Schedule) (t : ℕ) :
    (anchorSet s t).epochUs = s.epochUs := rfl

@[simp] theorem anchorSet_intervalUs (s : Schedule) (t : ℕ) :
    (anchorSet s t).intervalUs = s.intervalUs := rfl

theorem counterOf_lt (s : Schedule) : counterOf s < 2 ^ 16 := by
  unfold counterOf
  split_ifs
  · norm_num
  · exact Nat.mod_lt _ (by norm_num)

theorem nextActive_lt (s : Schedule) (a : ℕ) : nextActive s a < 2 ^ 16 :=
  Nat.mod_lt _ (by norm_num)

/-- The anchor lies within half an interval of the event it is numbered after. -/
theorem eventNumber_bounds (s : Schedule) (hi : 0 < s.intervalUs) :
    eventNumber s * s.intervalUs ≤ s.anchorUs - s.epochUs + s.intervalUs / 2 ∧
      s.anchorUs - s.epochUs + s.intervalUs / 2 < (eventNumber s + 1) * s.intervalUs := by
  constructor
  · exact Nat.div_mul_le_self _ _
  · have h := Nat.lt_mul_div_succ (s.anchorUs - s.epochUs + s.intervalUs / 2) hi
    calc _ < s.intervalUs * (eventNumber s + 1) := h
      _ = _ := Nat.mul_comm _ _

theorem eventNumber_of_lt (s : Schedule) (hi : 0 < s.intervalUs) (h : s.anchorUs < s.epochUs) :
    eventNumber s = 0 := by
  have hz : s.anchorUs - s.epochUs = 0 := by omega
  rw [eventNumber, hz, Nat.zero_add]
  exact Nat.div_eq_of_lt (by omega)

theorem counterOf_of_lt {s : Schedule} (h : s.anchorUs < s.epochUs) : counterOf s = 0 := by
  rw [counterOf, if_pos (.inr h)]

theorem counterOf_le (s : Schedule) : counterOf s ≤ eventNumber s := by
  unfold counterOf
  split_ifs
  · exact Nat.zero_le _
  · exact (Nat.mod_le _ _).trans (Nat.div_le_div_right (Nat.mod_le _ _))

/-! ## Sixty-four bits of time -/

/-- The epoch and the anchor have 64 bits, the interval 32. -/
structure Schedule.Typed (s : Schedule) : Prop where
  epoch : s.epochUs < 2 ^ 64
  anchor : s.anchorUs < 2 ^ 64
  interval : s.intervalUs < 2 ^ 32

/-- The time of event `t` fits 64 bits. -/
def Held (s : Schedule) (t : ℕ) : Prop := s.epochUs + t * s.intervalUs < 2 ^ 64

instance (s : Schedule) (t : ℕ) : Decidable (Held s t) := inferInstanceAs (Decidable (_ < _))

/-- The number that is read back of an anchor set to event `t`. -/
def landed (s : Schedule) (t : ℕ) : ℕ := if Held s t then t else 0

theorem landed_le (s : Schedule) (t : ℕ) : landed s t ≤ t := by
  unfold landed
  split_ifs <;> omega

section

variable {s : Schedule} {t t' : ℕ}

theorem Held.mono (h : Held s t) (hle : t' ≤ t) : Held s t' := by
  have hm := Nat.mul_le_mul_right s.intervalUs hle
  unfold Held at h ⊢
  omega

theorem Held.anchorUs (h : Held s t) :
    (anchorSet s t).anchorUs = s.epochUs + t * s.intervalUs := Nat.mod_eq_of_lt h

/-- The events that 16 bits name span far less than 64 bits of time. -/
theorem Schedule.Typed.span (hs : s.Typed) (ht : t < 2 ^ 16) : t * s.intervalUs < 2 ^ 48 := by
  have hi := hs.interval
  calc t * s.intervalUs ≤ (2 ^ 16 - 1) * (2 ^ 32 - 1) := Nat.mul_le_mul (by omega) (by omega)
    _ < 2 ^ 48 := by norm_num

theorem wrapped_anchorUs (hs : s.Typed) (ht : t < 2 ^ 16) (h : ¬ Held s t) :
    (anchorSet s t).anchorUs + 2 ^ 64 = s.epochUs + t * s.intervalUs := by
  have hspan := hs.span ht
  have hepoch := hs.epoch
  show (s.epochUs + t * s.intervalUs) % 2 ^ 64 + 2 ^ 64 = s.epochUs + t * s.intervalUs
  unfold Held at h
  omega

/-- An anchor that wraps is before the epoch. -/
theorem wrapped_lt (hs : s.Typed) (ht : t < 2 ^ 16) (h : ¬ Held s t) :
    (anchorSet s t).anchorUs < (anchorSet s t).epochUs := by
  have hw := wrapped_anchorUs hs ht h
  have hspan := hs.span ht
  show _ < s.epochUs
  omega

theorem Schedule.Typed.anchorSet (hs : s.Typed) (t : ℕ) : (anchorSet s t).Typed :=
  ⟨hs.epoch, Nat.mod_lt _ (by norm_num), hs.interval⟩

theorem eventNumber_anchorSet (hs : s.Typed) (hi : 0 < s.intervalUs) (ht : t < 2 ^ 16) :
    eventNumber (anchorSet s t) = landed s t := by
  unfold landed
  split_ifs with h
  · have hsub : (anchorSet s t).anchorUs - (anchorSet s t).epochUs = t * s.intervalUs := by
      rw [h.anchorUs]
      exact Nat.add_sub_cancel_left ..
    have hhalf : s.intervalUs / 2 / s.intervalUs = 0 := Nat.div_eq_of_lt (by omega)
    rw [eventNumber, hsub]
    show (t * s.intervalUs + s.intervalUs / 2) / s.intervalUs = t
    rw [Nat.add_comm, Nat.add_mul_div_right _ _ hi, hhalf, Nat.zero_add]
  · exact eventNumber_of_lt _ hi (wrapped_lt hs ht h)

/-- A number of 16 bits is read in full. -/
theorem counterOf_of_eventNumber (hs : s.Typed) (hi : 0 < s.intervalUs)
    (h : eventNumber s < 2 ^ 16) : counterOf s = eventNumber s := by
  by_cases hlt : s.anchorUs < s.epochUs
  · rw [counterOf_of_lt hlt, eventNumber_of_lt s hi hlt]
  · have hspan := hs.span h
    have hbound := (eventNumber_bounds s hi).2
    rw [Nat.add_mul, Nat.one_mul] at hbound
    have hinterval := hs.interval
    have hsmall : s.anchorUs - s.epochUs + s.intervalUs / 2 < 2 ^ 64 := by omega
    rw [counterOf, if_neg (by omega), Nat.mod_eq_of_lt hsmall]
    exact Nat.mod_eq_of_lt h

theorem counterOf_anchorSet (hs : s.Typed) (hi : 0 < s.intervalUs) (ht : t < 2 ^ 16) :
    counterOf (anchorSet s t) = landed s t := by
  have hnum := eventNumber_anchorSet hs hi ht
  have hle := landed_le s t
  rw [counterOf_of_eventNumber (hs.anchorSet t) hi (by omega), hnum]

end

/-! ## Active events -/

theorem lastActive_lt (k : ℕ) : lastActive k < 2 ^ 16 := by
  have := Nat.div_mul_le_self (2 ^ 16 - 1) k
  unfold lastActive
  omega

theorem le_lastActive {k m : ℕ} (hk : 0 < k) (h : m * k < 2 ^ 16) : m * k ≤ lastActive k := by
  have : m ≤ (2 ^ 16 - 1) / k := (Nat.le_div_iff_mul_le hk).mpr (by omega)
  exact Nat.mul_le_mul_right k this

theorem lastActive_add_step (k : ℕ) (hk : 0 < k) : 2 ^ 16 ≤ lastActive k + k := by
  have := Nat.lt_mul_div_succ (2 ^ 16 - 1) hk
  have he : k * ((2 ^ 16 - 1) / k + 1) = lastActive k + k := by
    unfold lastActive
    ring
  omega

/-- Below the last active event, the next one is the next multiple of the step. -/
theorem nextActive_of_lt (s : Schedule) (a : ℕ) (h : a < lastActive (step s)) :
    nextActive s a = (a / step s + 1) * step s := by
  apply Nat.mod_eq_of_lt
  have hq : a / step s < (2 ^ 16 - 1) / step s := by
    by_contra hge
    have := Nat.mul_le_mul_right (step s) (Nat.not_lt.mp hge)
    have := Nat.div_mul_le_self a (step s)
    unfold lastActive at h
    omega
  have := Nat.mul_le_mul_right (step s) (Nat.succ_le_of_lt hq)
  have hl := lastActive_lt (step s)
  unfold lastActive at hl
  simp only [Nat.succ_eq_add_one] at this
  omega

/-- From the last active event on, the 16-bit product wraps to below one step. -/
theorem nextActive_of_ge (s : Schedule) (a : ℕ) (ha : a < 2 ^ 16)
    (h : lastActive (step s) ≤ a) : nextActive s a < step s := by
  have hk := step_lt s
  have hq : a / step s = (2 ^ 16 - 1) / step s := by
    apply Nat.le_antisymm
    · exact Nat.div_le_div_right (by omega)
    · exact (Nat.le_div_iff_mul_le (step_pos s)).mpr h
  have hge := lastActive_add_step (step s) (step_pos s)
  have hlt := lastActive_lt (step s)
  have he : (a / step s + 1) * step s = lastActive (step s) + step s := by
    rw [hq]
    unfold lastActive
    ring
  rw [nextActive, he]
  have hw : lastActive (step s) + step s = 2 ^ 16 + (lastActive (step s) + step s - 2 ^ 16) := by
    omega
  rw [hw, Nat.add_mod_left, Nat.mod_eq_of_lt (by omega)]
  omega

theorem step_le_lastActive (s : Schedule) : step s ≤ lastActive (step s) := by
  have hk := step_lt s
  have := le_lastActive (k := step s) (m := 1) (step_pos s) (by omega)
  omega

/-- The 16-bit numbers reach far beyond the second active event. -/
theorem two_step_le_lastActive (s : Schedule) : 2 * step s ≤ lastActive (step s) := by
  have hk := step_lt s
  exact le_lastActive (step_pos s) (by omega)

/-- Below the last active event, the next one is the least active event beyond. -/
theorem nextActive_next {s : Schedule} {a : ℕ} (h : a < lastActive (step s)) :
    a < nextActive s a ∧ step s ∣ nextActive s a ∧
      ∀ t, step s ∣ t → a < t → nextActive s a ≤ t := by
  rw [nextActive_of_lt s a h]
  refine ⟨?_, Dvd.intro_left _ rfl, ?_⟩
  · have := Nat.lt_mul_div_succ a (step_pos s)
    calc a < step s * (a / step s + 1) := this
      _ = _ := Nat.mul_comm _ _
  · rintro t ⟨q, rfl⟩ hlt
    have hq : a / step s < q := by
      rw [Nat.div_lt_iff_lt_mul (step_pos s), Nat.mul_comm]
      exact hlt
    rw [Nat.mul_comm (step s) q]
    exact Nat.mul_le_mul_right _ hq

theorem nextActive_zero (s : Schedule) : nextActive s 0 = step s := by
  have hk := step_lt s
  rw [nextActive, Nat.zero_div, Nat.zero_add, Nat.one_mul, Nat.mod_eq_of_lt (by omega)]

/-- Number of the last active event that 16 bits name and whose time 64 bits hold. -/
def lastHeld (s : Schedule) : ℕ :=
  min (lastActive (step s)) ((2 ^ 64 - 1 - s.epochUs) / s.intervalUs / step s * step s)

section

variable {s : Schedule} {t : ℕ}

theorem held_iff (hs : s.Typed) (hi : 0 < s.intervalUs) :
    Held s t ↔ t ≤ (2 ^ 64 - 1 - s.epochUs) / s.intervalUs := by
  have hepoch := hs.epoch
  rw [Nat.le_div_iff_mul_le hi]
  unfold Held
  omega

theorem held_lastHeld (hs : s.Typed) (hi : 0 < s.intervalUs) : Held s (lastHeld s) :=
  (held_iff hs hi).mpr ((min_le_right _ _).trans (Nat.div_mul_le_self _ _))

theorem le_lastHeld (hs : s.Typed) (hi : 0 < s.intervalUs) (hdvd : step s ∣ t) (ht : t < 2 ^ 16)
    (h : Held s t) : t ≤ lastHeld s := by
  have hle := (held_iff hs hi).mp h
  obtain ⟨q, rfl⟩ := hdvd
  rw [Nat.mul_comm] at ht hle ⊢
  have hq := (Nat.le_div_iff_mul_le (step_pos s)).mpr hle
  exact le_min (le_lastActive (step_pos s) ht) (Nat.mul_le_mul_right _ hq)

theorem step_dvd_lastHeld (s : Schedule) : step s ∣ lastHeld s := by
  unfold lastHeld lastActive
  rcases min_cases ((2 ^ 16 - 1) / step s * step s)
    ((2 ^ 64 - 1 - s.epochUs) / s.intervalUs / step s * step s) with ⟨h, -⟩ | ⟨h, -⟩ <;> rw [h]
  · exact Dvd.intro_left _ rfl
  · exact Dvd.intro_left _ rfl

theorem lastHeld_lt (s : Schedule) : lastHeld s < 2 ^ 16 :=
  (min_le_left _ _).trans_lt (lastActive_lt _)

theorem step_le_lastHeld (hs : s.Typed) (hi : 0 < s.intervalUs) (h : Held s (step s)) :
    step s ≤ lastHeld s :=
  le_lastHeld hs hi dvd_rfl ((step_lt s).trans (by norm_num)) h

end

/-! ## Where the anchor moves -/

theorem toNextActive_anchorUs (s : Schedule) : (toNextActive s).anchorUs =
    (anchorSet s (nextActive s (counterOf s))).anchorUs := rfl

@[simp] theorem applyPending_anchorUs (s : Schedule) :
    (applyPending s).anchorUs = s.anchorUs := by
  unfold applyPending
  split_ifs <;> rfl

theorem lgLinkAdvance_anchorUs (s : Schedule) : (lgLinkAdvance s).anchorUs =
    (anchorSet s (nextActive s (counterOf s))).anchorUs := by
  rw [lgLinkAdvance, applyPending_anchorUs, toNextActive_anchorUs]

section

variable {s : Schedule}

/-- While the first active event fits, no event that is stepped to is later than the last one
that does. -/
theorem toNextActive_anchorUs_le (hs : s.Typed) (hi : 0 < s.intervalUs) (h : Held s (step s))
    {a : ℕ} (ha : a < 2 ^ 16) :
    (anchorSet s (nextActive s a)).anchorUs ≤ s.epochUs + lastHeld s * s.intervalUs := by
  have hfirst := step_le_lastHeld hs hi h
  by_cases hheld : Held s (nextActive s a)
  · have hle : nextActive s a ≤ lastHeld s := by
      by_cases hlast : a < lastActive (step s)
      · exact le_lastHeld hs hi (nextActive_next hlast).2.1 (nextActive_lt s a) hheld
      · exact (nextActive_of_ge s a ha (Nat.not_lt.mp hlast)).le.trans hfirst
    have hmul := Nat.mul_le_mul_right s.intervalUs hle
    rw [hheld.anchorUs]
    omega
  · have hlt := wrapped_lt hs (nextActive_lt s a) hheld
    have hepoch : (anchorSet s (nextActive s a)).epochUs = s.epochUs := rfl
    omega

/-- While the first active event fits, `lg_link_advance` moves the anchor forward exactly before
the last one that does. -/
theorem lgLinkAdvance_forward_iff (hs : s.Typed) (hi : 0 < s.intervalUs) (h : Held s (step s)) :
    s.anchorUs < (lgLinkAdvance s).anchorUs ↔ eventNumber s < lastHeld s := by
  obtain ⟨hlo, hhi⟩ := eventNumber_bounds s hi
  have hlast := lastHeld_lt s
  rw [lgLinkAdvance_anchorUs]
  constructor
  · intro hforward
    by_contra hge
    have hle := toNextActive_anchorUs_le hs hi h (counterOf_lt s)
    have hpos := step_le_lastHeld hs hi h
    have hstep := step_pos s
    have hmul := Nat.mul_le_mul_right s.intervalUs (Nat.not_lt.mp hge)
    have hsub : s.epochUs ≤ s.anchorUs := by
      by_contra hlt
      have := eventNumber_of_lt s hi (Nat.not_le.mp hlt)
      omega
    -- the anchor is at most half an interval before the last event, and so is no event after it
    by_cases hheld : Held s (nextActive s (counterOf s))
    · have hnext : nextActive s (counterOf s) + 1 ≤ eventNumber s := by
        by_cases hq : eventNumber s < 2 ^ 16
        · have hc := counterOf_of_eventNumber hs hi hq
          by_cases hwrap : counterOf s < lastActive (step s)
          · have hgt := (nextActive_next hwrap).1
            have := le_lastHeld hs hi (nextActive_next hwrap).2.1 (nextActive_lt s _) hheld
            omega
          · have := nextActive_of_ge s (counterOf s) (counterOf_lt s) (Nat.not_lt.mp hwrap)
            omega
        · have := nextActive_lt s (counterOf s)
          omega
      have := Nat.mul_le_mul_right s.intervalUs hnext
      rw [Nat.add_mul, Nat.one_mul] at this
      rw [hheld.anchorUs] at hforward
      omega
    · have hlt := wrapped_lt hs (nextActive_lt s _) hheld
      have hepoch : (anchorSet s (nextActive s (counterOf s))).epochUs = s.epochUs := rfl
      omega
  · intro hlt
    have hc := counterOf_of_eventNumber hs hi (hlt.trans hlast)
    have hbelow : counterOf s < lastActive (step s) := by
      have := min_le_left (lastActive (step s))
        ((2 ^ 64 - 1 - s.epochUs) / s.intervalUs / step s * step s)
      have : lastHeld s ≤ lastActive (step s) := this
      omega
    obtain ⟨hgt, -, hleast⟩ := nextActive_next hbelow
    have hheld := (held_lastHeld hs hi).mono
      (hleast _ (step_dvd_lastHeld s) (by omega))
    have := Nat.mul_le_mul_right s.intervalUs (Nat.succ_le_of_lt hgt)
    rw [hc] at this
    rw [hheld.anchorUs, hc]
    simp only [Nat.succ_eq_add_one] at this
    omega

end

end LockGrid
