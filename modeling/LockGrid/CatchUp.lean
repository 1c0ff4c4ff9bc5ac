import LockGrid.Schedule

/-!
# Catching up with the clock

When the loop of `anchor_catch_up` ends and where it leaves the anchor. The event number has 16
bits and the times have 64, so everything turns on the last event that both of them can name.
-/
namespace LockGrid

/-- The most tests the loop of `anchor_catch_up` makes when it ends at all. -/
def catchUpFuel : ℕ := 2 ^ 16 + 2

theorem nextActive_anchorSet (s : Schedule) (t a : ℕ) :
    nextActive (anchorSet s t) a = nextActive s a := rfl

theorem ontoActive_eq (s : Schedule) :
    ontoActive s = s ∨ ∃ t, t < 2 ^ 16 ∧ ontoActive s = anchorSet s t := by
  unfold ontoActive
  split_ifs
  · exact .inr ⟨_, nextActive_lt _ _, rfl⟩
  · exact .inl rfl

theorem toNextActive_ontoActive (s : Schedule) :
    toNextActive (ontoActive s) = anchorSet s (nextActive s (counterOf (ontoActive s))) := by
  rcases ontoActive_eq s with h | ⟨t, -, h⟩ <;> rw [h] <;> rfl

/-- Landing on an active event changes nothing else. -/
theorem ontoActive_terms (s : Schedule) : (ontoActive s).intervalUs = s.intervalUs ∧
    (ontoActive s).epochUs = s.epochUs ∧ step (ontoActive s) = step s := by
  rcases ontoActive_eq s with h | ⟨t, -, h⟩ <;> rw [h]
  · exact ⟨rfl, rfl, rfl⟩
  · exact ⟨rfl, rfl, rfl⟩

/-! ## Where the loop goes -/

/-- The loop of `anchor_catch_up`. -/
def catchUpLoop (goal fuel : ℕ) (s : Schedule) : Option Schedule :=
  Loops.whileLoop (fun t => decide (t.anchorUs < goal)) toNextActive fuel s

theorem anchorCatchUp_eq (cfg : Config) (now fuel : ℕ) {s : Schedule} (hi : 0 < s.intervalUs) :
    anchorCatchUp cfg now fuel s = catchUpLoop (catchUpGoal cfg now s) fuel (ontoActive s) := by
  rw [anchorCatchUp, if_neg (by omega), catchUpLoop]

section

variable {s s' : Schedule} {goal fuel t r : ℕ}

theorem catchUpLoop_late (h : goal ≤ s.anchorUs) : catchUpLoop goal (fuel + 1) s = some s := by
  rw [catchUpLoop, Loops.whileLoop, decide_eq_false (Nat.not_lt.mpr h)]
  rfl

theorem catchUpLoop_early (h : s.anchorUs < goal) :
    catchUpLoop goal (fuel + 1) s = catchUpLoop goal fuel (toNextActive s) := by
  rw [catchUpLoop, Loops.whileLoop, decide_eq_true h, if_pos rfl]
  rfl

theorem catchUpLoop_unique {fuel' : ℕ} {s₁ s₂ : Schedule} (h : catchUpLoop goal fuel s = some s₁)
    (h' : catchUpLoop goal fuel' s = some s₂) : s₁ = s₂ := by
  have hmax := Loops.whileLoop_mono (le_max_left fuel fuel') h
  rw [Loops.whileLoop_mono (le_max_right fuel fuel') h'] at hmax
  exact (Option.some.inj hmax).symm

theorem toNextActive_anchorSet (hs : s.Typed) (hi : 0 < s.intervalUs) (ht : t < 2 ^ 16) :
    toNextActive (anchorSet s t) = anchorSet s (nextActive s (landed s t)) := by
  rw [toNextActive, counterOf_anchorSet hs hi ht, nextActive_anchorSet]
  rfl

/-- Active event `t` fits, and is not before the goal. -/
structure Late (s : Schedule) (goal t : ℕ) : Prop where
  lt : t < 2 ^ 16
  active : step s ∣ t
  held : Held s t
  late : goal ≤ s.epochUs + t * s.intervalUs

/-- With a late event ahead, the loop stops at the first one. -/
theorem catchUpLoop_lands (hs : s.Typed) (hi : 0 < s.intervalUs) (hr : Late s goal r)
    (hlt : t < r) : ∃ m, t < m ∧ Late s goal m ∧ (∀ r', t < r' → Late s goal r' → m ≤ r') ∧
      catchUpLoop goal (r - t) (anchorSet s (nextActive s t)) = some (anchorSet s m) := by
  induction hd : r - t using Nat.strong_induction_on generalizing t with
  | _ d ih =>
    have hlast : t < lastActive (step s) := by
      obtain ⟨q, hq⟩ := hr.active
      rw [Nat.mul_comm] at hq
      have := le_lastActive (step_pos s) (hq ▸ hr.lt)
      omega
    obtain ⟨hgt, hdvd, hleast⟩ := nextActive_next hlast
    have hle := hleast r hr.active hlt
    have hheld := hr.held.mono hle
    obtain ⟨fuel, hfuel⟩ : ∃ fuel, d = fuel + 1 := ⟨d - 1, by omega⟩
    by_cases hlate : goal ≤ s.epochUs + nextActive s t * s.intervalUs
    · refine ⟨_, hgt, ⟨nextActive_lt s t, hdvd, hheld, hlate⟩, fun r' h hr' =>
        hleast r' hr'.active h, ?_⟩
      rw [hfuel, catchUpLoop_late (by rw [hheld.anchorUs]; exact hlate)]
    · have hne : nextActive s t ≠ r := fun he => hlate (he ▸ hr.late)
      obtain ⟨m, hm, hmlate, hmleast, hloop⟩ := ih _ (by omega) (t := nextActive s t) (by omega) rfl
      refine ⟨m, by omega, hmlate, fun r' h hr' => hmleast r' ?_ hr', ?_⟩
      · have hge := hleast r' hr'.active h
        have : nextActive s t ≠ r' := fun he => hlate (he ▸ hr'.late)
        omega
      · rw [hfuel, catchUpLoop_early (by rw [hheld.anchorUs]; omega),
          toNextActive_anchorSet hs hi (nextActive_lt s t), landed, if_pos hheld]
        exact Loops.whileLoop_mono (by omega) hloop

/-- Where the first active event does not fit, the event number is below the last active one. -/
theorem counterOf_lt_lastActive (hs : s.Typed) (hi : 0 < s.intervalUs) (h : ¬ Held s (step s)) :
    counterOf s < lastActive (step s) := by
  by_contra hge
  have hle := counterOf_le s
  have hlo := (eventNumber_bounds s hi).1
  have htwo := two_step_le_lastActive s
  have hanchor := hs.anchor
  have hm := Nat.mul_le_mul_right s.intervalUs (show 2 * step s ≤ eventNumber s by omega)
  have hone := Nat.mul_le_mul_right s.intervalUs (step_pos s)
  rw [Nat.mul_assoc] at hm
  simp only [Nat.succ_eq_add_one, Nat.zero_add, Nat.one_mul] at hone
  unfold Held at h
  omega

/-- With no late event to come to, the loop goes round for ever. -/
theorem catchUpLoop_diverges (hs : s.Typed) (hi : 0 < s.intervalUs) {a : ℕ}
    (hfirst : Held s (step s) ∨ step s ≤ nextActive s a)
    (hearly : (anchorSet s (nextActive s a)).anchorUs < goal)
    (hnone : ∀ r, landed s (nextActive s a) < r → ¬ Late s goal r) (fuel : ℕ) :
    catchUpLoop goal fuel (anchorSet s (nextActive s a)) = none := by
  have hall : ∀ r, 0 < r → ¬ Late s goal r := by
    intro r hpos hr
    rcases Nat.lt_or_ge (landed s (nextActive s a)) r with hlt | hge
    · exact hnone r hlt hr
    · -- the loop has already passed this event
      have hheld : Held s (nextActive s a) := by
        by_contra hwrap
        rw [landed, if_neg hwrap] at hge
        omega
      rw [landed, if_pos hheld] at hge
      rw [hheld.anchorUs] at hearly
      have := Nat.mul_le_mul_right s.intervalUs hge
      have := hr.late
      omega
  have hnot : ¬ Loops.Terminates (fun t => decide (t.anchorUs < goal)) toNextActive
      (anchorSet s (nextActive s a)) := by
    refine Loops.not_terminates_of_invariant
      (fun x => ∃ n < 2 ^ 16, x = anchorSet s n ∧ x.anchorUs < goal)
      ⟨_, nextActive_lt s a, rfl, hearly⟩ ?_ ?_
    · rintro x ⟨n, -, -, hx⟩
      exact decide_eq_true hx
    · rintro x ⟨n, hn, rfl, hx⟩
      refine ⟨_, nextActive_lt s (landed s n), toNextActive_anchorSet hs hi hn, ?_⟩
      rw [toNextActive_anchorSet hs hi hn]
      have hland := landed_le s n
      have hle := step_le_lastActive s
      by_cases hheld : Held s (nextActive s (landed s n))
      · rw [hheld.anchorUs]
        by_cases hlast : landed s n < lastActive (step s)
        · obtain ⟨hgt, hdvd, -⟩ := nextActive_next hlast
          by_contra hge
          exact hall _ (Nat.zero_lt_of_lt hgt)
            ⟨nextActive_lt s _, hdvd, hheld, Nat.not_lt.mp hge⟩
        · -- the 16 bits wrap to an event before this one
          have hwrap := nextActive_of_ge s (landed s n) (by omega) (Nat.not_lt.mp hlast)
          have hpos := step_pos s
          have hheldn : Held s n := by
            by_contra h
            rw [landed, if_neg h] at hlast
            omega
          rw [landed, if_pos hheldn] at hlast hwrap ⊢
          rw [hheldn.anchorUs] at hx
          have := Nat.mul_le_mul_right s.intervalUs (show nextActive s n ≤ n by omega)
          omega
      · by_cases hk : Held s (step s)
        · -- an anchor that wraps is before the first active event
          have hlt := wrapped_lt hs (nextActive_lt s _) hheld
          have hsmall := (step_lt s).trans (by norm_num : 2 ^ 8 < 2 ^ 16)
          have hstep : s.epochUs + step s * s.intervalUs < goal := by
            by_contra hge
            exact hall _ (step_pos s) ⟨hsmall, dvd_rfl, hk, Nat.not_lt.mp hge⟩
          have hepoch : (anchorSet s (nextActive s (landed s n))).epochUs = s.epochUs := rfl
          omega
        · -- it is the first active event, and no later than the one the loop began with
          have hge := hfirst.resolve_left hk
          have hbelow : landed s n < step s := by
            unfold landed
            split_ifs with hheldn
            · by_contra hle
              exact hk (hheldn.mono (Nat.not_lt.mp hle))
            · exact step_pos s
          have hnext : nextActive s (landed s n) = step s := by
            rw [nextActive_of_lt s _ (by omega), Nat.div_eq_of_lt hbelow, Nat.zero_add, Nat.one_mul]
          have hw := wrapped_anchorUs hs (nextActive_lt s _) hheld
          have hw' := wrapped_anchorUs hs (nextActive_lt s a) fun h => hk (h.mono hge)
          have hm := Nat.mul_le_mul_right s.intervalUs hge
          rw [hnext] at hw ⊢
          omega
  cases hloop : catchUpLoop goal fuel (anchorSet s (nextActive s a)) with
  | none => rfl
  | some b => exact absurd ⟨fuel, b, hloop⟩ hnot

end

/-! ## Where it ends -/

/-- `anchor_catch_up` returns: no step or one step is enough, or some active event after that is
late enough. -/
def CatchesUp (cfg : Config) (now : ℕ) (s : Schedule) : Prop :=
  catchUpGoal cfg now s ≤ (ontoActive s).anchorUs ∨
    catchUpGoal cfg now s ≤ (toNextActive (ontoActive s)).anchorUs ∨
    ∃ t, eventNumber (toNextActive (ontoActive s)) < t ∧ Late s (catchUpGoal cfg now s) t

section

variable {cfg : Config} {now fuel : ℕ} {s s' : Schedule}

theorem Schedule.Typed.ontoActive (hs : s.Typed) : (ontoActive s).Typed := by
  rcases ontoActive_eq s with h | ⟨t, -, h⟩ <;> rw [h]
  · exact hs
  · exact hs.anchorSet t

theorem eventNumber_toNextActive_ontoActive (hs : s.Typed) (hi : 0 < s.intervalUs) :
    eventNumber (toNextActive (ontoActive s)) =
      landed s (nextActive s (counterOf (ontoActive s))) := by
  rw [toNextActive_ontoActive]
  exact eventNumber_anchorSet hs hi (nextActive_lt s _)

theorem CatchesUp.isSome (hs : s.Typed) (hi : 0 < s.intervalUs) (h : CatchesUp cfg now s) :
    ∃ s', anchorCatchUp cfg now catchUpFuel s = some s' := by
  rw [anchorCatchUp_eq cfg now _ hi]
  by_cases hstart : catchUpGoal cfg now s ≤ (ontoActive s).anchorUs
  · exact ⟨_, catchUpLoop_late hstart⟩
  · rw [catchUpFuel, catchUpLoop_early (Nat.not_le.mp hstart)]
    by_cases hone : catchUpGoal cfg now s ≤ (toNextActive (ontoActive s)).anchorUs
    · exact ⟨_, catchUpLoop_late hone⟩
    · obtain ⟨t, hlt, ht⟩ := (h.resolve_left hstart).resolve_left hone
      have hsmall := ht.lt
      rw [eventNumber_toNextActive_ontoActive hs hi] at hlt
      obtain ⟨m, -, -, -, hloop⟩ := catchUpLoop_lands hs hi ht hlt
      refine ⟨anchorSet s m, ?_⟩
      rw [catchUpLoop_early (Nat.not_le.mp hone), toNextActive_ontoActive,
        toNextActive_anchorSet hs hi (nextActive_lt s _)]
      exact Loops.whileLoop_mono (by omega) hloop

/-- What a call that returns leaves: the anchor as it was or an active event, the first that is
late enough. -/
theorem anchorCatchUp_cases (hs : s.Typed) (hi : 0 < s.intervalUs)
    (h : anchorCatchUp cfg now fuel s = some s') :
    catchUpGoal cfg now s ≤ (ontoActive s).anchorUs ∧ s' = ontoActive s ∨
    (ontoActive s).anchorUs < catchUpGoal cfg now s ∧
      catchUpGoal cfg now s ≤ (toNextActive (ontoActive s)).anchorUs ∧
      s' = toNextActive (ontoActive s) ∨
    (ontoActive s).anchorUs < catchUpGoal cfg now s ∧
      (toNextActive (ontoActive s)).anchorUs < catchUpGoal cfg now s ∧
      ∃ m, s' = anchorSet s m ∧ eventNumber (toNextActive (ontoActive s)) < m ∧
        Late s (catchUpGoal cfg now s) m ∧
        ∀ r, eventNumber (toNextActive (ontoActive s)) < r → Late s (catchUpGoal cfg now s) r →
          m ≤ r := by
  rw [anchorCatchUp_eq cfg now _ hi] at h
  obtain _ | fuel := fuel
  · cases h
  by_cases hstart : catchUpGoal cfg now s ≤ (ontoActive s).anchorUs
  · rw [catchUpLoop_late hstart] at h
    exact .inl ⟨hstart, (Option.some.inj h).symm⟩
  rw [catchUpLoop_early (Nat.not_le.mp hstart)] at h
  obtain _ | fuel := fuel
  · cases h
  by_cases hone : catchUpGoal cfg now s ≤ (toNextActive (ontoActive s)).anchorUs
  · rw [catchUpLoop_late hone] at h
    exact .inr (.inl ⟨Nat.not_le.mp hstart, hone, (Option.some.inj h).symm⟩)
  refine .inr (.inr ⟨Nat.not_le.mp hstart, Nat.not_le.mp hone, ?_⟩)
  have hnum := eventNumber_toNextActive_ontoActive hs hi
  by_cases hlate : ∃ t, eventNumber (toNextActive (ontoActive s)) < t ∧
      Late s (catchUpGoal cfg now s) t
  · obtain ⟨t, hlt, ht⟩ := hlate
    rw [hnum] at hlt ⊢
    obtain ⟨m, hm, hmlate, hleast, hloop⟩ := catchUpLoop_lands hs hi ht hlt
    rw [catchUpLoop_early (Nat.not_le.mp hone), toNextActive_ontoActive,
      toNextActive_anchorSet hs hi (nextActive_lt s _)] at h
    exact ⟨m, catchUpLoop_unique h hloop, hm, hmlate, hleast⟩
  · -- nothing is late, and the loop would never have ended
    obtain ⟨hint, hepoch, hstep⟩ := ontoActive_terms s
    have hfirst : Held s (step s) ∨ step s ≤ nextActive s (counterOf (ontoActive s)) := by
      by_cases hk : Held s (step s)
      · exact .inl hk
      · right
        have hkonto : ¬ Held (ontoActive s) (step (ontoActive s)) := by
          unfold Held
          rwa [hint, hepoch, hstep]
        have hbelow := counterOf_lt_lastActive hs.ontoActive (by omega) hkonto
        rw [hstep] at hbelow
        obtain ⟨hgt, hdvd, -⟩ := nextActive_next hbelow
        exact Nat.le_of_dvd (by omega) hdvd
    rw [toNextActive_ontoActive] at h hone
    have hnone := catchUpLoop_diverges hs hi hfirst (Nat.not_le.mp hone)
      (fun r hlt hr => hlate ⟨r, by rw [hnum]; exact hlt, hr⟩) (fuel + 1)
    rw [h] at hnone
    cases hnone

theorem anchorCatchUp_catchesUp (hs : s.Typed) (hi : 0 < s.intervalUs)
    (h : anchorCatchUp cfg now fuel s = some s') : CatchesUp cfg now s := by
  rcases anchorCatchUp_cases hs hi h with ⟨hlate, -⟩ | ⟨-, hlate, -⟩ | ⟨-, -, m, -, hlt, hm, -⟩
  · exact .inl hlate
  · exact .inr (.inl hlate)
  · exact .inr (.inr ⟨m, hlt, hm⟩)

theorem anchorCatchUp_reaches (hi : 0 < s.intervalUs)
    (h : anchorCatchUp cfg now fuel s = some s') : catchUpGoal cfg now s ≤ s'.anchorUs := by
  rw [anchorCatchUp_eq cfg now fuel hi, catchUpLoop] at h
  simpa using Loops.whileLoop_exit h

/-- The schedule a call leaves is the one it was given or that one set to an event. -/
theorem anchorCatchUp_anchorSet (h : anchorCatchUp cfg now fuel s = some s') :
    s' = s ∨ ∃ t, s' = anchorSet s t := by
  unfold anchorCatchUp at h
  split_ifs at h
  · cases h
    exact .inl rfl
  · refine Loops.whileLoop_induct (fun x => x = s ∨ ∃ t, x = anchorSet s t) ?_ ?_ h
    · rcases ontoActive_eq s with hs | ⟨t, -, hs⟩
      · exact .inl hs
      · exact .inr ⟨t, hs⟩
    · rintro x (rfl | ⟨t, rfl⟩) -
      · exact .inr ⟨_, rfl⟩
      · exact .inr ⟨_, rfl⟩

end

/-! ## Keeping up -/

/-- The earliest start of an event that can still be planned at time `now`. -/
def dueUs (cfg : Config) (now : ℕ) (s : Schedule) : ℕ :=
  now + schedLeadUs + lgLinkWindowUs cfg now s + 200

/-- What a link asks of its schedule at time `now`: that the next event is found, far enough
ahead to be planned, and that advancing leads forward. -/
def KeepsUp (cfg : Config) (now : ℕ) (n : Neigh) : Prop :=
  (∃ fuel n' t, lgLinkNextEventUs cfg now fuel n = some (n', some t) ∧
    dueUs cfg now n.sched ≤ t) ∧
    n.sched.anchorUs < (lgLinkAdvance n.sched).anchorUs

theorem lgLinkNextEventUs_linked (cfg : Config) (now fuel : ℕ) (n : Neigh)
    (hl : n.state = .linked) (hi : 0 < n.sched.intervalUs) :
    lgLinkNextEventUs cfg now fuel n =
      (anchorCatchUp cfg now fuel n.sched).map
        fun s => ({ n with sched := s }, some s.anchorUs) := by
  rw [lgLinkNextEventUs, if_neg]
  simp only [hl, ne_eq, not_true_eq_false, false_or]
  omega

theorem lgLinkNextEventUs_some {cfg : Config} {now fuel t : ℕ} {n n' : Neigh}
    (h : lgLinkNextEventUs cfg now fuel n = some (n', some t)) :
    anchorCatchUp cfg now fuel n.sched = some n'.sched ∧ n'.sched.anchorUs = t := by
  unfold lgLinkNextEventUs at h
  split_ifs at h with hn
  · simp at h
  · obtain ⟨s, hs, he⟩ := Option.map_eq_some_iff.mp h
    simp only [Prod.mk.injEq, Option.some.injEq] at he
    obtain ⟨rfl, rfl⟩ := he
    exact ⟨hs, rfl⟩

section

variable {cfg : Config} {now fuel : ℕ} {s s' : Schedule}

theorem catchUpGoal_of_lt (h : dueUs cfg now s < 2 ^ 64) :
    catchUpGoal cfg now s = dueUs cfg now s := by
  have hsum : now + (schedLeadUs + lgLinkWindowUs cfg now s + 200) = dueUs cfg now s := by
    unfold dueUs
    omega
  rw [catchUpGoal, hsum, Nat.mod_eq_of_lt h]

theorem catchUpGoal_le (cfg : Config) (now : ℕ) (s : Schedule) :
    catchUpGoal cfg now s ≤ dueUs cfg now s := by
  have hsum : now + (schedLeadUs + lgLinkWindowUs cfg now s + 200) = dueUs cfg now s := by
    unfold dueUs
    omega
  rw [catchUpGoal, hsum]
  exact Nat.mod_le _ _

theorem anchorCatchUp_typed (hs : s.Typed) (h : anchorCatchUp cfg now fuel s = some s') :
    s'.Typed := by
  rcases anchorCatchUp_anchorSet h with rfl | ⟨t, rfl⟩
  · exact hs
  · exact hs.anchorSet t

/-- The room a link has: while its first active event fits 64 bits, the anchor is numbered before
the last one that does, which is not too early; and if an epoch below zero takes it past them, the
anchor and the time due are still before that first event. -/
def HasRoom (cfg : Config) (now : ℕ) (s : Schedule) : Prop :=
  if Held s (step s) then
    eventNumber s < lastHeld s ∧ dueUs cfg now s ≤ s.epochUs + lastHeld s * s.intervalUs
  else
    s.anchorUs + 2 ^ 64 < s.epochUs + step s * s.intervalUs ∧
      dueUs cfg now s + 2 ^ 64 ≤ s.epochUs + step s * s.intervalUs

/-- An anchor before the epoch is numbered 0, which every step divides. -/
theorem ontoActive_of_lt (h : s.anchorUs < s.epochUs) : ontoActive s = s := by
  rw [ontoActive, counterOf_of_lt h, Nat.zero_mod, if_neg (by simp)]

/-- Before the last event that fits, a call never goes past it. -/
theorem anchorCatchUp_anchorUs_le (hs : s.Typed) (hi : 0 < s.intervalUs) (hk : Held s (step s))
    (hq : eventNumber s < lastHeld s) (h : anchorCatchUp cfg now fuel s = some s') :
    s'.anchorUs ≤ s.epochUs + lastHeld s * s.intervalUs := by
  have hself : s.anchorUs ≤ s.epochUs + lastHeld s * s.intervalUs := by
    have hb := (eventNumber_bounds s hi).2
    have := Nat.mul_le_mul_right s.intervalUs (Nat.succ_le_of_lt hq)
    simp only [Nat.succ_eq_add_one] at this
    omega
  rcases anchorCatchUp_cases hs hi h with ⟨-, rfl⟩ | ⟨-, -, rfl⟩ | ⟨-, -, m, rfl, -, hm, -⟩
  · unfold ontoActive
    split_ifs
    · exact toNextActive_anchorUs_le hs hi hk (counterOf_lt s)
    · exact hself
  · rw [toNextActive_ontoActive]
    exact toNextActive_anchorUs_le hs hi hk (counterOf_lt _)
  · have := Nat.mul_le_mul_right s.intervalUs (le_lastHeld hs hi hm.active hm.lt hm.held)
    rw [hm.held.anchorUs]
    omega

/-- Up to the last event that fits, there is an event for every time that is due. -/
theorem catchesUp_of_lastHeld (hs : s.Typed) (hi : 0 < s.intervalUs) (hk : Held s (step s))
    (h : catchUpGoal cfg now s ≤ s.epochUs + lastHeld s * s.intervalUs) : CatchesUp cfg now s := by
  have hlast : Late s (catchUpGoal cfg now s) (lastHeld s) :=
    ⟨lastHeld_lt s, step_dvd_lastHeld s, held_lastHeld hs hi, h⟩
  have hnum := eventNumber_toNextActive_ontoActive hs hi
  rcases Nat.lt_or_ge (eventNumber (toNextActive (ontoActive s))) (lastHeld s) with hlt | hge
  · exact .inr (.inr ⟨_, hlt, hlast⟩)
  · -- the first step already comes to that event or to a later one
    refine .inr (.inl ?_)
    have hpos := (step_pos s).trans_le (step_le_lastHeld hs hi hk)
    have hheld : Held s (nextActive s (counterOf (ontoActive s))) := by
      by_contra hwrap
      rw [hnum, landed, if_neg hwrap] at hge
      omega
    rw [hnum, landed, if_pos hheld] at hge
    have := Nat.mul_le_mul_right s.intervalUs hge
    rw [toNextActive_ontoActive, hheld.anchorUs]
    omega

theorem eventNumber_of_start (hi : 0 < s.intervalUs) (hepoch : s.epochUs = s.anchorUs) :
    eventNumber s = 0 := by
  rw [eventNumber, hepoch, Nat.sub_self, Nat.zero_add]
  exact Nat.div_eq_of_lt (by omega)

/-- A schedule that starts at its anchor finds an event exactly if the last one it can come to is
late enough. -/
theorem anchorCatchUp_start_iff (hi : 0 < s.intervalUs) (hsmall : s.intervalUs < 2 ^ 32)
    (hepoch : s.epochUs = s.anchorUs) (hone : step s = 1) :
    (∃ s', anchorCatchUp cfg now catchUpFuel s = some s') ↔
      catchUpGoal cfg now s ≤ s.anchorUs + lastHeld s * s.intervalUs := by
  have honto : ontoActive s = s := by rw [ontoActive, hone, Nat.mod_one, if_neg (by simp)]
  rcases Nat.lt_or_ge s.anchorUs (catchUpGoal cfg now s) with hlt | hge
  · have hgoal : catchUpGoal cfg now s < 2 ^ 64 := Nat.mod_lt _ (by norm_num)
    have hs : s.Typed := ⟨by omega, by omega, hsmall⟩
    by_cases hk : Held s (step s)
    · have hnum := eventNumber_of_start hi hepoch
      have hfirst := step_le_lastHeld hs hi hk
      constructor
      · rintro ⟨s', hs'⟩
        have hle := anchorCatchUp_anchorUs_le hs hi hk (by omega) hs'
        exact (anchorCatchUp_reaches hi hs').trans (hepoch ▸ hle)
      · intro hle
        exact (catchesUp_of_lastHeld hs hi hk (by rw [hepoch]; exact hle)).isSome hs hi
    · -- the first event wraps to a time before the anchor, and so does every later one
      have hnone : lastHeld s = 0 := by
        by_contra hne
        exact hk ((held_lastHeld hs hi).mono (by omega))
      refine iff_of_false ?_ (by rw [hnone]; omega)
      rintro ⟨s', hs'⟩
      have hw := wrapped_anchorUs hs (t := step s) (by rw [hone]; norm_num) hk
      have hzero : counterOf s = 0 := by
        have hle := counterOf_le s
        rw [eventNumber_of_start hi hepoch] at hle
        omega
      rcases anchorCatchUp_catchesUp hs hi hs' with h | h | ⟨t, hgt, ht⟩
      · rw [honto] at h
        omega
      · rw [toNextActive_ontoActive, honto, hzero, nextActive_zero] at h
        rw [hone, Nat.one_mul] at hw
        rw [hone] at h
        omega
      · exact hk (ht.held.mono (by rw [hone]; omega))
  · refine iff_of_true ?_ (by omega)
    rw [anchorCatchUp_eq cfg now _ hi, honto]
    exact ⟨s, catchUpLoop_late hge⟩

/-- Where the first active event does not fit, advancing leads forward only from before the epoch,
and then to that event. -/
theorem lgLinkAdvance_forward_wrapped (hs : s.Typed) (hi : 0 < s.intervalUs)
    (hk : ¬ Held s (step s)) :
    s.anchorUs < (lgLinkAdvance s).anchorUs ↔
      s.anchorUs + 2 ^ 64 < s.epochUs + step s * s.intervalUs := by
  have hsmall : step s < 2 ^ 16 := (step_lt s).trans (by norm_num)
  have hspan := hs.span hsmall
  have hw := wrapped_anchorUs hs hsmall hk
  have hepoch := hs.epoch
  have hfar : 2 ^ 64 ≤ s.epochUs + step s * s.intervalUs := Nat.not_lt.mp hk
  rw [lgLinkAdvance_anchorUs]
  rcases Nat.lt_or_ge s.anchorUs s.epochUs with hlt | hge
  · rw [counterOf_of_lt hlt, nextActive_zero]
    omega
  · refine iff_of_false ?_ (by omega)
    have hanchor := hs.anchor
    have hnext := nextActive_lt s (counterOf s)
    have hspan' := hs.span hnext
    by_cases hheld : Held s (nextActive s (counterOf s))
    · -- an event that fits is before the first active one, so it is not a next one
      obtain ⟨hgt, hdvd, -⟩ := nextActive_next (counterOf_lt_lastActive hs hi hk)
      exact absurd (hheld.mono (Nat.le_of_dvd (Nat.zero_lt_of_lt hgt) hdvd)) hk
    · have := wrapped_anchorUs hs hnext hheld
      omega

/-- A link keeps up exactly while it has room. -/
theorem keepsUp_iff (cfg : Config) (now : ℕ) (n : Neigh) (hl : n.state = .linked)
    (hi : 0 < n.sched.intervalUs) (hs : n.sched.Typed) :
    KeepsUp cfg now n ↔ HasRoom cfg now n.sched := by
  have hfound : CatchesUp cfg now n.sched → dueUs cfg now n.sched < 2 ^ 64 →
      ∃ fuel n' t, lgLinkNextEventUs cfg now fuel n = some (n', some t) ∧
        dueUs cfg now n.sched ≤ t := by
    intro hends hdue
    obtain ⟨s', hs'⟩ := hends.isSome hs hi
    refine ⟨catchUpFuel, { n with sched := s' }, s'.anchorUs, ?_, ?_⟩
    · rw [lgLinkNextEventUs_linked cfg now catchUpFuel n hl hi, hs']
      rfl
    · rw [← catchUpGoal_of_lt hdue]
      exact anchorCatchUp_reaches hi hs'
  unfold HasRoom
  by_cases hk : Held n.sched (step n.sched)
  · rw [if_pos hk, KeepsUp, lgLinkAdvance_forward_iff hs hi hk]
    constructor
    · rintro ⟨⟨fuel, n', t, h, hdue⟩, hq⟩
      obtain ⟨hs', rfl⟩ := lgLinkNextEventUs_some h
      exact ⟨hq, hdue.trans (anchorCatchUp_anchorUs_le hs hi hk hq hs')⟩
    · rintro ⟨hq, hdue⟩
      have hlt := hdue.trans_lt (held_lastHeld hs hi)
      have hgoal := (catchUpGoal_le cfg now n.sched).trans hdue
      exact ⟨hfound (catchesUp_of_lastHeld hs hi hk hgoal) hlt, hq⟩
  · have hsmall : step n.sched < 2 ^ 16 := (step_lt n.sched).trans (by norm_num)
    have hspan := hs.span hsmall
    have hw := wrapped_anchorUs hs hsmall hk
    have hepoch := hs.epoch
    rw [if_neg hk, KeepsUp, lgLinkAdvance_forward_wrapped hs hi hk]
    -- before the epoch the one event the loop comes to is the first active one
    have hfirst : n.sched.anchorUs + 2 ^ 64 < n.sched.epochUs + step n.sched * n.sched.intervalUs →
        ontoActive n.sched = n.sched ∧
          toNextActive (ontoActive n.sched) = anchorSet n.sched (step n.sched) := by
      intro hbefore
      have hlt : n.sched.anchorUs < n.sched.epochUs := by omega
      refine ⟨ontoActive_of_lt hlt, ?_⟩
      rw [toNextActive_ontoActive, ontoActive_of_lt hlt, counterOf_of_lt hlt, nextActive_zero]
    constructor
    · rintro ⟨⟨fuel, n', t, h, hdue⟩, hbefore⟩
      obtain ⟨honto, hnext⟩ := hfirst hbefore
      obtain ⟨hs', rfl⟩ := lgLinkNextEventUs_some h
      refine ⟨hbefore, ?_⟩
      rcases anchorCatchUp_cases hs hi hs' with ⟨-, he⟩ | ⟨-, -, he⟩ | ⟨-, -, m, -, hgt, hm, -⟩
      · rw [he, honto] at hdue
        omega
      · rw [he, hnext] at hdue
        omega
      · exact absurd (hm.held.mono (Nat.le_of_dvd (Nat.zero_lt_of_lt hgt) hm.active)) hk
    · rintro ⟨hbefore, hdue⟩
      obtain ⟨-, hnext⟩ := hfirst hbefore
      have hgoal := (catchUpGoal_le cfg now n.sched)
      exact ⟨hfound (.inr (.inl (by rw [hnext]; omega))) (by omega), hbefore⟩

end

/-- A link 200 ms apart that has just been set up. -/
def freshLink : Neigh :=
  { state := .linked, addr := 2,
    sched := { initiator := true, intervalUs := 200000, subrate := 1 } }

theorem keepsUp_iff_freshLink :
    (freshLink.state = .linked ∧ 0 < freshLink.sched.intervalUs ∧ freshLink.sched.Typed) ∧
      (KeepsUp .default 1000000 freshLink ↔ HasRoom .default 1000000 freshLink.sched) :=
  have htyped : freshLink.sched.Typed := ⟨by decide, by decide, by decide⟩
  ⟨⟨by decide, by decide, htyped⟩,
    keepsUp_iff .default 1000000 freshLink (by decide) (by decide) htyped⟩

/-- The same link after 3.6 hours, at the last event that 16 bits can number. -/
def wornLink : Neigh :=
  { freshLink with sched := { freshLink.sched with
    anchorUs := 65535 * 200000, counter := 65535 } }

/-- A link whose epoch a correction took 50 ms below zero, at its fifth event. -/
def earlyLink : Neigh :=
  { freshLink with sched := { freshLink.sched with
    initiator := false, epochUs := 2 ^ 64 - 50000, anchorUs := 950000, counter := 5 } }

theorem not_keepsUp_of_not_catchesUp {cfg : Config} {now : ℕ} {n : Neigh} (hs : n.sched.Typed)
    (hi : 0 < n.sched.intervalUs) (h : ¬ CatchesUp cfg now n.sched) : ¬ KeepsUp cfg now n := by
  rintro ⟨⟨fuel, n', t, hfound, -⟩, -⟩
  exact h (anchorCatchUp_catchesUp hs hi (lgLinkNextEventUs_some hfound).1)

/-- Once the last event that 16 bits name has come, the link never finds its next one; and neither
does a link whose epoch is below zero, once its first event has come. -/
theorem not_keepsUp :
    ((wornLink.state = .linked ∧ 0 < wornLink.sched.intervalUs ∧ wornLink.sched.Typed) ∧
      ¬ KeepsUp .default (65535 * 200000 + 5000) wornLink) ∧
    (earlyLink.state = .linked ∧ 0 < earlyLink.sched.intervalUs ∧ earlyLink.sched.Typed) ∧
      ¬ KeepsUp .default 960000 earlyLink := by
  have hworn : wornLink.sched.Typed := ⟨by decide, by decide, by decide⟩
  have hearly : earlyLink.sched.Typed := ⟨by decide, by decide, by decide⟩
  refine ⟨⟨⟨rfl, by decide, hworn⟩, not_keepsUp_of_not_catchesUp hworn (by decide) ?_⟩,
    ⟨rfl, by decide, hearly⟩, not_keepsUp_of_not_catchesUp hearly (by decide) ?_⟩
  · rintro (h | h | ⟨t, -, ht⟩)
    · exact absurd h (by decide)
    · exact absurd h (by decide)
    · have hgoal : 65535 * 200000 <
          catchUpGoal .default (65535 * 200000 + 5000) wornLink.sched := by decide
      have hlate := ht.late
      have hlt := ht.lt
      change _ ≤ 0 + t * 200000 at hlate
      omega
  · rintro (h | h | ⟨t, hgt, ht⟩)
    · exact absurd h (by decide)
    · exact absurd h (by decide)
    · have hheld := ht.held
      change 2 ^ 64 - 50000 + t * 200000 < 2 ^ 64 at hheld
      omega

end LockGrid
