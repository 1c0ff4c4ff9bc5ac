import LockGrid.Link
import Mathlib.Algebra.Order.Ring.Abs

/-!
# The grid of events

A link's events lie on a grid that starts at the epoch, one interval apart. Whatever order the
anchor is advanced, caught up and re-measured in, it stays on that grid, so two ends that stand at
the same event agree on its number and its channel.
-/
namespace LockGrid

variable {cfg : Config}

/-- The anchor is the event that the counter names. -/
structure OnLattice (s : Schedule) : Prop where
  typed : s.Typed
  interval : 0 < s.intervalUs
  counter_lt : s.counter < 2 ^ 16
  anchor : s.anchorUs = s.epochUs + s.counter * s.intervalUs

theorem OnLattice.held {s : Schedule} (h : OnLattice s) : Held s s.counter := by
  unfold Held
  rw [← h.anchor]
  exact h.typed.anchor

theorem OnLattice.eq_anchorSet {s : Schedule} (h : OnLattice s) : s = anchorSet s s.counter := by
  have ha := h.held.anchorUs
  rw [← h.anchor] at ha
  cases s
  simp only [anchorSet] at ha ⊢
  rw [ha]

theorem OnLattice.counterOf {s : Schedule} (h : OnLattice s) : counterOf s = s.counter := by
  have he := counterOf_anchorSet h.typed h.interval h.counter_lt
  rwa [← h.eq_anchorSet, landed, if_pos h.held] at he

theorem anchorSet_onLattice {s : Schedule} {t : ℕ} (hs : s.Typed) (hi : 0 < s.intervalUs)
    (ht : t < 2 ^ 16) (h : Held s t) : OnLattice (anchorSet s t) :=
  ⟨hs.anchorSet t, hi, ht, h.anchorUs⟩

/-- Only what has no part in the grid has changed: the parameters of the link, pending or in
force, and its supervision. -/
structure SameGrid (s s' : Schedule) : Prop where
  interval : s'.intervalUs = s.intervalUs
  epoch : s'.epochUs = s.epochUs
  anchor : s'.anchorUs = s.anchorUs
  counter : s'.counter = s.counter

theorem SameGrid.onLattice {s s' : Schedule} (h : SameGrid s s') (hs : OnLattice s) :
    OnLattice s' where
  typed := ⟨h.epoch ▸ hs.typed.epoch, h.anchor ▸ hs.typed.anchor, h.interval ▸ hs.typed.interval⟩
  interval := h.interval ▸ hs.interval
  counter_lt := h.counter ▸ hs.counter_lt
  anchor := by rw [h.anchor, h.epoch, h.counter, h.interval, hs.anchor]

theorem applyPending_sameGrid (s : Schedule) : SameGrid s (applyPending s) := by
  unfold applyPending
  split_ifs <;> exact ⟨rfl, rfl, rfl, rfl⟩

/-! ## One step on the grid -/

/-- The next two active events fit 64 bits. -/
def RoomAhead (s : Schedule) : Prop := Held s (s.counter + 2 * step s)

theorem nextActive_le_add_step (s : Schedule) (a : ℕ) : nextActive s a ≤ a + step s := by
  have := Nat.div_mul_le_self a (step s)
  refine (Nat.mod_le _ _).trans ?_
  rw [Nat.add_mul, Nat.one_mul]
  omega

theorem toNextActive_onLattice {s : Schedule} (h : OnLattice s) (hroom : RoomAhead s) :
    OnLattice (toNextActive s) := by
  have hle := nextActive_le_add_step s s.counter
  have hheld : Held s (nextActive s (counterOf s)) := by
    rw [h.counterOf]
    exact hroom.mono (by omega)
  exact anchorSet_onLattice h.typed h.interval (nextActive_lt s _) hheld

theorem lgLinkAdvance_onLattice {s : Schedule} (h : OnLattice s) (hroom : RoomAhead s) :
    OnLattice (lgLinkAdvance s) :=
  (applyPending_sameGrid _).onLattice (toNextActive_onLattice h hroom)

theorem ontoActive_onLattice {s : Schedule} (h : OnLattice s) (hroom : RoomAhead s) :
    OnLattice (ontoActive s) := by
  unfold ontoActive
  split_ifs
  · exact toNextActive_onLattice h hroom
  · exact h

/-- The error by which the measured frame start differs from the planned anchor. -/
def syncErr (s : Schedule) (airStartUs : ℕ) : ℤ := (airStartUs : ℤ) - s.anchorUs

/-- The error is less than half an interval. -/
def Near (s : Schedule) (airStartUs : ℕ) : Prop := 2 * |syncErr s airStartUs| < s.intervalUs

/-- The error fits the 32 bits it is kept in. -/
def Measured (s : Schedule) (airStartUs : ℕ) : Prop :=
  -2 ^ 31 ≤ syncErr s airStartUs ∧ syncErr s airStartUs < 2 ^ 31

/-- The frame start is a 64-bit time, and the correction does not take the epoch below zero. -/
structure Fits (s : Schedule) (airStartUs : ℕ) : Prop where
  time : airStartUs < 2 ^ 64
  positive : 0 ≤ (s.epochUs : ℤ) + syncErr s airStartUs

section

variable {s : Schedule} {now airStartUs : ℕ}

/-- An interval has 32 bits, and half of it 31. -/
theorem Near.measured (h : Near s airStartUs) (hs : s.Typed) : Measured s airStartUs := by
  have hi := hs.interval
  have habs := abs_lt.mp (show |syncErr s airStartUs| < 2 ^ 31 by unfold Near at h; omega)
  exact ⟨habs.1.le, habs.2⟩

theorem Measured.syncErrUs_eq (h : Measured s airStartUs) :
    syncErrUs s.anchorUs airStartUs = syncErr s airStartUs := by
  obtain ⟨hlow, hhigh⟩ := h
  unfold syncErr at hlow hhigh ⊢
  refine Int.bmod_eq_of_le ?_ ?_ <;> norm_num <;> omega

theorem reanchor_epochUs (hs : OnLattice s) (herr : Measured s airStartUs) (h : Fits s airStartUs) :
    ((reanchor now s.anchorUs airStartUs s).epochUs : ℤ) = s.epochUs + syncErr s airStartUs := by
  have hpos := h.positive
  have htime := h.time
  have ha := hs.anchor
  have hlt : (s.epochUs : ℤ) + syncErr s airStartUs < 2 ^ 64 := by
    unfold syncErr
    omega
  simp only [reanchor, herr.syncErrUs_eq]
  rw [Int.emod_eq_of_lt hpos hlt, Int.toNat_of_nonneg hpos]

/-- Corrected to below zero, an epoch wraps. -/
theorem reanchor_epochUs_wrapped (hs : OnLattice s) (herr : Measured s airStartUs)
    (hneg : (s.epochUs : ℤ) + syncErr s airStartUs < 0) :
    ((reanchor now s.anchorUs airStartUs s).epochUs : ℤ) =
      s.epochUs + syncErr s airStartUs + 2 ^ 64 := by
  have hanchor := hs.typed.anchor
  have hlow : 0 ≤ (s.epochUs : ℤ) + syncErr s airStartUs + 2 ^ 64 := by
    unfold syncErr
    omega
  simp only [reanchor, herr.syncErrUs_eq]
  rw [← Int.add_emod_right, Int.emod_eq_of_lt hlow (by omega), Int.toNat_of_nonneg hlow]

/-- A re-anchor keeps to the grid exactly if it does not take the epoch below zero. -/
theorem reanchor_onLattice_iff (hs : OnLattice s) (herr : Measured s airStartUs)
    (htime : airStartUs < 2 ^ 64) : OnLattice (reanchor now s.anchorUs airStartUs s) ↔
      0 ≤ (s.epochUs : ℤ) + syncErr s airStartUs := by
  have ha := hs.anchor
  constructor
  · intro h
    by_contra hneg
    have he : ((reanchor now s.anchorUs airStartUs s).epochUs : ℤ) = _ :=
      reanchor_epochUs_wrapped hs herr (not_le.mp hneg)
    have ha' : airStartUs = (reanchor now s.anchorUs airStartUs s).epochUs +
      s.counter * s.intervalUs := h.anchor
    unfold syncErr at he
    omega
  · intro hpos
    have he : ((reanchor now s.anchorUs airStartUs s).epochUs : ℤ) = _ :=
      reanchor_epochUs hs herr ⟨htime, hpos⟩
    unfold syncErr at he
    refine ⟨⟨Int.ofNat_lt.mp (by rw [he]; omega), htime, hs.typed.interval⟩, hs.interval,
      hs.counter_lt, ?_⟩
    change airStartUs = (reanchor now s.anchorUs airStartUs s).epochUs + s.counter * s.intervalUs
    omega

theorem reanchor_onLattice (hs : OnLattice s) (herr : Measured s airStartUs)
    (h : Fits s airStartUs) : OnLattice (reanchor now s.anchorUs airStartUs s) :=
  (reanchor_onLattice_iff hs herr h.time).mpr h.positive

/-- The anchor and the epoch move together. -/
theorem counterOf_reanchor (hs : OnLattice s) (herr : Measured s airStartUs)
    (h : Fits s airStartUs) :
    LockGrid.counterOf (reanchor now s.anchorUs airStartUs s) = LockGrid.counterOf s := by
  rw [(reanchor_onLattice hs herr h).counterOf, hs.counterOf]
  rfl

end

/-! ## Catching up -/

/-- The 16 bits still name an active event from the anchor on, or the first active event after the
epoch is too early to stay at. -/
def InRange (cfg : Config) (now : ℕ) (s : Schedule) : Prop :=
  s.counter ≤ lastActive (step s) ∨ s.epochUs + step s * s.intervalUs ≤ catchUpGoal cfg now s

section

variable {now fuel : ℕ} {s s' : Schedule}

theorem anchorCatchUp_onLattice (hs : OnLattice s) (hroom : RoomAhead s)
    (h : anchorCatchUp cfg now fuel s = some s') : OnLattice s' := by
  have honto := ontoActive_onLattice hs hroom
  rcases anchorCatchUp_cases hs.typed hs.interval h with
    ⟨-, rfl⟩ | ⟨-, -, rfl⟩ | ⟨-, -, m, rfl, -, hm, -⟩
  · exact honto
  · have hle : (ontoActive s).counter ≤ s.counter + step s := by
      unfold ontoActive
      split_ifs
      · show nextActive s (LockGrid.counterOf s) ≤ s.counter + step s
        rw [hs.counterOf]
        exact nextActive_le_add_step s _
      · omega
    have hle' := nextActive_le_add_step s (ontoActive s).counter
    rw [toNextActive_ontoActive, honto.counterOf]
    exact anchorSet_onLattice hs.typed hs.interval (nextActive_lt s _) (hroom.mono (by omega))
  · exact anchorSet_onLattice hs.typed hs.interval hm.lt hm.held

/-- An event that the 16 bits wrap to is earlier than the first active one. -/
theorem wrapped_early {c : ℕ} (hs : OnLattice s) (hc : c < 2 ^ 16)
    (hlast : lastActive (step s) ≤ c) :
    (anchorSet s (nextActive s c)).anchorUs < s.epochUs + step s * s.intervalUs := by
  have hw := nextActive_of_ge s c hc hlast
  have hm := Nat.mul_lt_mul_of_pos_right hw hs.interval
  refine (Nat.mod_le _ _).trans_lt ?_
  omega

/-- `lg_link_next_event_us` leaves the anchor at an active event. -/
theorem anchorCatchUp_active (hs : OnLattice s) (hroom : RoomAhead s) (hr : InRange cfg now s)
    (h : anchorCatchUp cfg now fuel s = some s') : s'.counter % step s' = 0 := by
  have honto := ontoActive_onLattice hs hroom
  obtain ⟨hint, hepoch, hstep⟩ := ontoActive_terms s
  rcases anchorCatchUp_cases hs.typed hs.interval h with
    ⟨hlate, rfl⟩ | ⟨hearly, hlate, rfl⟩ | ⟨-, -, m, rfl, -, hm, -⟩
  · by_cases hmod : LockGrid.counterOf s % step s = 0
    · have hself : ontoActive s = s := by rw [ontoActive, if_neg (by simpa using hmod)]
      rwa [hself, ← hs.counterOf]
    · have hmove : ontoActive s = anchorSet s (nextActive s s.counter) := by
        rw [ontoActive, if_pos hmod, toNextActive, hs.counterOf]
      rw [hmove] at hlate ⊢
      by_cases hlast : s.counter < lastActive (step s)
      · exact Nat.mod_eq_zero_of_dvd (nextActive_next hlast).2.1
      · -- past the last active event, the first one is too early
        have hne : s.counter ≠ lastActive (step s) := by
          intro he
          rw [hs.counterOf, he] at hmod
          exact hmod (Nat.mul_mod_left _ _)
        have hw := wrapped_early hs hs.counter_lt (Nat.not_lt.mp hlast)
        rcases hr with hr | hr <;> omega
  · rw [toNextActive_ontoActive, honto.counterOf] at hlate ⊢
    by_cases hlast : (ontoActive s).counter < lastActive (step s)
    · exact Nat.mod_eq_zero_of_dvd (nextActive_next hlast).2.1
    · have hlast := Nat.not_lt.mp hlast
      have hw := wrapped_early hs honto.counter_lt hlast
      have hm := Nat.mul_le_mul_right s.intervalUs ((step_le_lastActive s).trans hlast)
      have ha := honto.anchor
      rw [hint, hepoch] at ha
      omega
  · exact Nat.mod_eq_zero_of_dvd hm.active

end

/-! ## Runs on the grid -/

/-- One step of a link's schedule that neither expedites an event nor changes the interval. Events
to come fit 64 bits, and a frame that is measured against the anchor does not take the epoch below
zero. -/
inductive GridStep (cfg : Config) : Schedule → Schedule → Prop
  | advance {s : Schedule} (hroom : RoomAhead s) : GridStep cfg s (lgLinkAdvance s)
  | catchUp {s s' : Schedule} (now fuel : ℕ) (hroom : RoomAhead s)
    (h : anchorCatchUp cfg now fuel s = some s') : GridStep cfg s s'
  | reanchor {s : Schedule} (now airStartUs : ℕ) (hfits : Fits s airStartUs)
    (herr : Measured s airStartUs) : GridStep cfg s (reanchor now s.anchorUs airStartUs s)
  | params {s s' : Schedule} (h : SameGrid s s') : GridStep cfg s s'

def GridRun (cfg : Config) : Schedule → Schedule → Prop := Relation.ReflTransGen (GridStep cfg)

theorem GridStep.onLattice {s s' : Schedule} (h : GridStep cfg s s') (hs : OnLattice s) :
    OnLattice s' := by
  cases h with
  | advance hroom => exact lgLinkAdvance_onLattice hs hroom
  | catchUp now fuel hroom h => exact anchorCatchUp_onLattice hs hroom h
  | reanchor now air hfits herr => exact reanchor_onLattice hs herr hfits
  | params h => exact h.onLattice hs

theorem GridRun.onLattice {s s' : Schedule} (h : GridRun cfg s s') (hs : OnLattice s) :
    OnLattice s' := by
  induction h with
  | refl => exact hs
  | tail _ hstep ih => exact hstep.onLattice ih

/-- A link starts on its grid. -/
theorem startSchedule_onLattice (c : Node cfg) (pp : LinkParams) (initiator : Bool)
    (s : Schedule) (hs : (startSchedule c pp initiator s).Typed)
    (hi : 0 < cfg.clampInterval pp.intervalUs.toNat) :
    OnLattice (startSchedule c pp initiator s) where
  typed := hs
  interval := hi
  counter_lt := by simp [startSchedule]
  anchor := by simp [startSchedule]

/-! ## Two ends of a link -/

/-- The ends `a` and `b` stand at one physical event: with the clock of `b` ahead by `offset`,
their epochs and their anchors are apart by less than an interval in all. -/
def SameEvent (offset : ℤ) (a b : Schedule) : Prop :=
  |(b.epochUs : ℤ) - (a.epochUs + offset)| + |(b.anchorUs : ℤ) - (a.anchorUs + offset)| <
    a.intervalUs

theorem SameEvent.counter_eq {offset : ℤ} {a b : Schedule} (h : SameEvent offset a b)
    (ha : OnLattice a) (hb : OnLattice b) (hi : b.intervalUs = a.intervalUs) :
    b.counter = a.counter := by
  have haa : (a.anchorUs : ℤ) = a.epochUs + a.counter * a.intervalUs := by exact_mod_cast ha.anchor
  have hba : (b.anchorUs : ℤ) = b.epochUs + b.counter * a.intervalUs := by
    have := hb.anchor
    rw [hi] at this
    exact_mod_cast this
  have hpos : (0 : ℤ) < a.intervalUs := by exact_mod_cast ha.interval
  -- the counters differ by less than one interval over an interval
  have hdiff : |((b.counter : ℤ) - a.counter) * a.intervalUs| < a.intervalUs := by
    have he : ((b.counter : ℤ) - a.counter) * a.intervalUs =
        ((b.anchorUs : ℤ) - (a.anchorUs + offset)) - ((b.epochUs : ℤ) - (a.epochUs + offset)) := by
      rw [haa, hba]
      ring
    rw [he]
    have := abs_sub ((b.anchorUs : ℤ) - (a.anchorUs + offset))
      ((b.epochUs : ℤ) - (a.epochUs + offset))
    unfold SameEvent at h
    omega
  rw [abs_mul, abs_of_pos hpos] at hdiff
  have hone : |(b.counter : ℤ) - a.counter| < 1 := by
    by_contra hge
    have := mul_le_mul_of_nonneg_right (not_lt.mp hge) hpos.le
    omega
  have := abs_lt.mp hone
  omega

theorem lgLinkNextChan_eq {a b : Schedule} (ha : OnLattice a) (hb : OnLattice b)
    (hc : b.counter = a.counter) (hmap : b.chanMap = a.chanMap) (hseed : b.hopSeed = a.hopSeed) :
    lgLinkNextChan b = lgLinkNextChan a := by
  simp only [lgLinkNextChan, ha.counterOf, hb.counterOf, hc, hmap, hseed]

/-- Every run of a schedule that neither expedites an event nor changes the interval, and in which
no correction takes the epoch below zero, keeps the anchor on the grid under the number that the
counter says. `lg_link_next_event_us` leaves it at an active event, a measured frame start does not
change the number, and two ends at one physical event agree on it and on the channel, whatever each
of them has skipped. -/
theorem lattice_kept {s s' : Schedule} (hs : OnLattice s) (hrun : GridRun cfg s s') :
    (s'.anchorUs = s'.epochUs + s'.counter * s'.intervalUs ∧ counterOf s' = s'.counter) ∧
      (∀ (n n' : Neigh) (now fuel t : ℕ), n.sched = s' → RoomAhead s' → InRange cfg now s' →
        lgLinkNextEventUs cfg now fuel n = some (n', some t) →
        OnLattice n'.sched ∧ n'.sched.counter % step n'.sched = 0) ∧
      (∀ now airStartUs : ℕ, Measured s' airStartUs → Fits s' airStartUs →
        counterOf (reanchor now s'.anchorUs airStartUs s') = counterOf s') ∧
      (∀ (cfg' : Config) (r r' : Schedule) (offset : ℤ), OnLattice r → GridRun cfg' r r' →
        r'.intervalUs = s'.intervalUs → r'.hopSeed = s'.hopSeed → r'.chanMap = s'.chanMap →
        SameEvent offset s' r' →
        r'.counter = s'.counter ∧ lgLinkNextChan r' = lgLinkNextChan s') := by
  have hs' := hrun.onLattice hs
  refine ⟨⟨hs'.anchor, hs'.counterOf⟩, ?_, ?_, ?_⟩
  · intro n n' now fuel t hn hroom hr h
    subst hn
    obtain ⟨hcatch, -⟩ := lgLinkNextEventUs_some h
    exact ⟨anchorCatchUp_onLattice hs' hroom hcatch, anchorCatchUp_active hs' hroom hr hcatch⟩
  · intro now air herr hfits
    exact counterOf_reanchor hs' herr hfits
  · intro cfg' r r' offset hr hrunr hi hseed hmap hsame
    have hr' := hrunr.onLattice hr
    have hc := hsame.counter_eq hs' hr' hi
    exact ⟨hc, lgLinkNextChan_eq hs' hr' hc hmap hseed⟩

/-- A responder's schedule five events after its epoch. -/
def fifthEvent : Schedule :=
  { initiator := false, intervalUs := 200000, epochUs := 0, anchorUs := 1000000, counter := 5 }

theorem fifthEvent_onLattice : OnLattice fifthEvent :=
  ⟨⟨by decide, by decide, by decide⟩, by decide, by decide, by decide⟩

/-- A frame 90 µs late, and the next event. -/
theorem lattice_kept_fifthEvent :
    let s := reanchor 1001000 1000000 1000090 fifthEvent
    (OnLattice fifthEvent ∧ GridRun .default fifthEvent (lgLinkAdvance s)) ∧
      (lgLinkAdvance s).anchorUs = (lgLinkAdvance s).epochUs +
        (lgLinkAdvance s).counter * (lgLinkAdvance s).intervalUs :=
  have hmeasured : GridStep .default fifthEvent (reanchor 1001000 1000000 1000090 fifthEvent) :=
    .reanchor 1001000 1000090 ⟨by decide, by decide⟩
      (Near.measured (by unfold Near; decide) fifthEvent_onLattice.typed)
  have hroom : RoomAhead (reanchor 1001000 1000000 1000090 fifthEvent) := by
    unfold RoomAhead
    decide
  have hrun := Relation.ReflTransGen.tail (.single hmeasured) (.advance hroom)
  ⟨⟨fifthEvent_onLattice, hrun⟩, (lattice_kept fifthEvent_onLattice hrun).1.1⟩

/-- The same schedule at the last event that 16 bits name, at a subrate that does not divide it. -/
def lastEvent : Schedule :=
  { fifthEvent with anchorUs := 65535 * 200000, counter := 65535, subrate := 7 }

/-- An early frame takes the epoch below time zero and with it the event number; a frame measured
against an anchor that is not loaded any more leaves the counter behind; and past the last active
event that 16 bits name, the next one is none. -/
theorem not_lattice_kept :
    (¬ ∀ (s : Schedule) (now airStartUs : ℕ), OnLattice s → airStartUs < 2 ^ 64 →
      Near s airStartUs → counterOf (reanchor now s.anchorUs airStartUs s) = s.counter) ∧
    (¬ ∀ (s : Schedule) (now evAnchorUs airStartUs : ℕ), OnLattice s →
      2 * |(airStartUs : ℤ) - evAnchorUs| < s.intervalUs →
      0 ≤ (s.epochUs : ℤ) + ((airStartUs : ℤ) - evAnchorUs) →
      OnLattice (reanchor now evAnchorUs airStartUs s)) ∧
    ¬ ∀ (s s' : Schedule) (now fuel : ℕ), OnLattice s →
      anchorCatchUp .default now fuel s = some s' → s'.counter % step s' = 0 := by
  refine ⟨?_, ?_, ?_⟩
  · intro h
    have := h fifthEvent 960000 950000 fifthEvent_onLattice (by decide) (by unfold Near; decide)
    revert this
    decide
  · intro h
    have := (h fifthEvent 960000 800000 800000 fifthEvent_onLattice (by decide) (by decide)).anchor
    revert this
    decide
  · intro h
    have := h lastEvent (anchorSet lastEvent 5) 0 1
      ⟨⟨by decide, by decide, by decide⟩, by decide, by decide, by decide⟩ (by decide)
    revert this
    decide

end LockGrid
