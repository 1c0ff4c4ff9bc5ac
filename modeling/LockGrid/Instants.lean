import LockGrid.CatchUp

/-!
# Changes that take effect at an instant

Two functions move the anchor of a link, and only `lg_link_advance` applies a pending change, when
the event number has come to the instant. Both numbers have 16 bits.
-/
namespace LockGrid

/-! ## Where catching up ends -/

/-- `anchor_catch_up` ends before event `k`: no step or one step is needed and leads to an event
before it, or after that an active event before it is late enough. -/
def LandsBefore (cfg : Config) (now : ℕ) (s : Schedule) (k : ℕ) : Prop :=
  if catchUpGoal cfg now s ≤ (ontoActive s).anchorUs then eventNumber (ontoActive s) < k
  else if catchUpGoal cfg now s ≤ (toNextActive (ontoActive s)).anchorUs then
    eventNumber (toNextActive (ontoActive s)) < k
  else ∃ t, eventNumber (toNextActive (ontoActive s)) < t ∧ t < k ∧
    Late s (catchUpGoal cfg now s) t

/-- `anchor_catch_up` comes to rest before event `k` exactly if it lands before it. -/
theorem anchorCatchUp_lands {cfg : Config} {now fuel : ℕ} {s s' : Schedule} (hs : s.Typed)
    (hi : 0 < s.intervalUs) (h : anchorCatchUp cfg now fuel s = some s') (k : ℕ) :
    eventNumber s' < k ↔ LandsBefore cfg now s k := by
  unfold LandsBefore
  rcases anchorCatchUp_cases hs hi h with
    ⟨hlate, rfl⟩ | ⟨hearly, hlate, rfl⟩ | ⟨hearly, hnext, m, rfl, hgt, hm, hleast⟩
  · rw [if_pos hlate]
  · rw [if_neg (Nat.not_le.mpr hearly), if_pos hlate]
  · rw [if_neg (Nat.not_le.mpr hearly), if_neg (Nat.not_le.mpr hnext),
      eventNumber_anchorSet hs hi hm.lt, landed, if_pos hm.held]
    constructor
    · exact fun hk => ⟨m, hgt, hk, hm⟩
    · rintro ⟨t, ht, htk, hlate⟩
      exact (hleast t ht hlate).trans_lt htk

/-! ## A pending change -/

/-- What moves a link from one event to another. -/
inductive Motion
  | advance
  | catchUp (nowUs : ℕ)

def Motion.result (cfg : Config) (s : Schedule) : Motion → Option Schedule
  | .advance => some (lgLinkAdvance s)
  | .catchUp nowUs => anchorCatchUp cfg nowUs catchUpFuel s

/-- A change is pending, and an initiator has had a reply to it. -/
def Licensed (s : Schedule) : Prop :=
  s.pendingCtrl.any = true ∧ (s.initiator = true → s.ctrlAcked = true)

instance (s : Schedule) : Decidable (Licensed s) := instDecidableAnd

def Schedule.newChanMap (s : Schedule) : UInt16 :=
  if s.pendingCtrl.chanMap then s.pendingChanMap else s.chanMap

def Schedule.newSubrate (s : Schedule) : UInt8 :=
  if s.pendingCtrl.subrate then max s.pendingSubrate 1 else s.subrate

/-- The link uses the parameters it had before the instant, and those pending from it on. -/
def InForce (s₀ : Schedule) (instant : ℕ) (s : Schedule) : Prop :=
  (s.chanMap, s.subrate) =
    if eventNumber s < instant then (s₀.chanMap, s₀.subrate) else (s₀.newChanMap, s₀.newSubrate)

/-- At every event the moves come to, the right parameters are in force. -/
def Timely (cfg : Config) (s₀ : Schedule) (instant : ℕ) : Schedule → List Motion → Prop
  | s, [] => InForce s₀ instant s
  | s, m :: l => InForce s₀ instant s ∧ ∀ s' ∈ m.result cfg s, Timely cfg s₀ instant s' l

/-- The move takes the link over the instant in full and by `lg_link_advance`, or does not take it
over the instant. -/
def Motion.Minds (cfg : Config) (instant : ℕ) (s : Schedule) : Motion → Prop
  | .advance => landed s (nextActive s (counterOf s)) < instant ↔
      eventNumber s < instant ∧ nextActive s (counterOf s) < instant % 2 ^ 16
  | .catchUp nowUs => CatchesUp cfg nowUs s → (LandsBefore cfg nowUs s instant ↔
      eventNumber s < instant)

def Clear (cfg : Config) (instant : ℕ) : Schedule → List Motion → Prop
  | _, [] => True
  | s, m :: l => m.Minds cfg instant s ∧ ∀ s' ∈ m.result cfg s, Clear cfg instant s' l

/-- The schedule with the change applied. -/
def Schedule.changed (s : Schedule) : Schedule :=
  { s with
    chanMap := s.newChanMap, subrate := s.newSubrate, pendingCtrl := {}, ctrlAcked := false }

/-- The schedule `s₀` at another event. -/
def Moved (s₀ s : Schedule) : Prop :=
  ∃ anchorUs counter, s = { s₀ with anchorUs := anchorUs, counter := counter }

theorem Moved.trans {s₀ s s' : Schedule} (h : Moved s₀ s) (h' : Moved s s') : Moved s₀ s' := by
  obtain ⟨a, n, rfl⟩ := h
  obtain ⟨a', n', rfl⟩ := h'
  exact ⟨a', n', rfl⟩

theorem Moved.intervalUs {s₀ s : Schedule} (h : Moved s₀ s) : s.intervalUs = s₀.intervalUs := by
  obtain ⟨a, n, rfl⟩ := h
  rfl

theorem Moved.inForce {s₀ s : Schedule} (h : Moved s₀ s) :
    (s.chanMap, s.subrate) = (s₀.chanMap, s₀.subrate) := by
  obtain ⟨a, n, rfl⟩ := h
  rfl

theorem toNextActive_moved (s : Schedule) : Moved s (toNextActive s) := ⟨_, _, rfl⟩

theorem anchorCatchUp_moved {cfg : Config} {now fuel : ℕ} {s s' : Schedule}
    (h : anchorCatchUp cfg now fuel s = some s') : Moved s s' := by
  unfold anchorCatchUp at h
  split at h
  · cases h
    exact ⟨_, _, rfl⟩
  · refine Loops.whileLoop_induct (Moved s) ?_ (fun x hx _ => hx.trans (toNextActive_moved x)) h
    rcases ontoActive_eq s with heq | ⟨t, -, heq⟩ <;> rw [heq]
    · exact ⟨_, _, rfl⟩
    · exact ⟨_, _, rfl⟩

theorem eventNumber_lgLinkAdvance {s : Schedule} (hs : s.Typed) (hi : 0 < s.intervalUs) :
    eventNumber (lgLinkAdvance s) = landed s (nextActive s (counterOf s)) := by
  have hnext : eventNumber (toNextActive s) = landed s (nextActive s (counterOf s)) :=
    eventNumber_anchorSet hs hi (nextActive_lt s _)
  rw [← hnext, lgLinkAdvance, applyPending]
  split
  · split <;> rfl
  · rfl

theorem Schedule.Typed.lgLinkAdvance {s : Schedule} (hs : s.Typed) : (lgLinkAdvance s).Typed := by
  have hnext : (toNextActive s).Typed := hs.anchorSet _
  rw [LockGrid.lgLinkAdvance, applyPending]
  split
  · split <;> exact ⟨hnext.epoch, hnext.anchor, hnext.interval⟩
  · exact hnext

theorem Schedule.Typed.result {cfg : Config} {s s' : Schedule} (hs : s.Typed) {m : Motion}
    (hr : s' ∈ m.result cfg s) : s'.Typed := by
  cases m with
  | advance =>
    cases hr
    exact hs.lgLinkAdvance
  | catchUp nowUs => exact anchorCatchUp_typed hs hr

/-- A licensed change that is due is applied. -/
theorem applyPending_due {s : Schedule} (hl : Licensed s) (hdue : s.instant ≤ s.counter) :
    applyPending s = s.changed := by
  have hlicence : (!s.initiator || s.ctrlAcked) = true := by
    cases hinit : s.initiator with
    | false => rfl
    | true => exact hl.2 hinit
  rw [applyPending, if_pos ⟨hl.1, hdue⟩]
  dsimp only
  rw [if_pos hlicence]
  rfl

theorem applyPending_early {s : Schedule} (h : ¬ (s.pendingCtrl.any = true ∧
    s.instant ≤ s.counter)) : applyPending s = s := by
  rw [applyPending, if_neg h]

section

variable {cfg : Config} {s₀ s s' : Schedule} {instant : ℕ}

theorem Moved.changed (h : Moved s₀ s) : Moved s₀.changed s.changed := by
  obtain ⟨a, n, rfl⟩ := h
  exact ⟨a, n, rfl⟩

theorem Moved.licensed (h : Moved s₀ s) (hl : Licensed s₀) : Licensed s := by
  obtain ⟨a, n, rfl⟩ := h
  exact hl

theorem Moved.instant_eq (h : Moved s₀ s) : s.instant = s₀.instant := by
  obtain ⟨a, n, rfl⟩ := h
  rfl

theorem Moved.advance_due (hl : Licensed s₀) (h : Moved s₀ s)
    (hdue : s₀.instant ≤ nextActive s (counterOf s)) : Moved s₀.changed (lgLinkAdvance s) := by
  have hm := h.trans (toNextActive_moved s)
  rw [← hm.instant_eq] at hdue
  rw [lgLinkAdvance, applyPending_due (hm.licensed hl) hdue]
  exact hm.changed

theorem Moved.advance_early (h : Moved s₀ s)
    (hearly : nextActive s (counterOf s) < s₀.instant) : Moved s₀ (lgLinkAdvance s) := by
  have hm := h.trans (toNextActive_moved s)
  rw [← hm.instant_eq] at hearly
  rw [lgLinkAdvance, applyPending_early fun hdue => absurd hdue.2 (Nat.not_le.mpr hearly)]
  exact hm

theorem Moved.advance_changed (h : Moved s₀.changed s) : Moved s₀.changed (lgLinkAdvance s) := by
  have hm := h.trans (toNextActive_moved s)
  have hidle : (toNextActive s).pendingCtrl.any = false := by
    obtain ⟨a, n, heq⟩ := hm
    rw [heq]
    rfl
  rw [lgLinkAdvance, applyPending_early fun hdue => by rw [hidle] at hdue; cases hdue.1]
  exact hm

/-- A change is pending or it is not. -/
theorem Moved.not_changed (hl : Licensed s₀) (h : Moved s₀ s) : ¬ Moved s₀.changed s := by
  obtain ⟨a, n, rfl⟩ := h
  rintro ⟨a', n', heq⟩
  have hpending : s₀.pendingCtrl = {} := congrArg Schedule.pendingCtrl heq
  have hany := hl.1
  rw [hpending] at hany
  cases hany

/-- The change is pending exactly before the instant. -/
def OnTime (s₀ : Schedule) (instant : ℕ) (s : Schedule) : Prop :=
  if eventNumber s < instant then Moved s₀ s else Moved s₀.changed s

theorem onTime_pending (hl : Licensed s₀) (h : Moved s₀ s) :
    OnTime s₀ instant s ↔ eventNumber s < instant := by
  unfold OnTime
  split
  · next hlt => exact iff_of_true h hlt
  · next hge => exact iff_of_false (h.not_changed hl) hge

theorem onTime_changed (hl : Licensed s₀) (h : Moved s₀.changed s) :
    OnTime s₀ instant s ↔ ¬ eventNumber s < instant := by
  unfold OnTime
  split
  · next hlt => exact iff_of_false (fun hm => hm.not_changed hl h) (not_not.mpr hlt)
  · next hge => exact iff_of_true h hge

theorem OnTime.inForce (h : OnTime s₀ instant s) : InForce s₀ instant s := by
  unfold OnTime at h
  unfold InForce
  split at h
  · next hlt =>
    rw [if_pos hlt]
    exact h.inForce
  · next hge =>
    rw [if_neg hge]
    exact h.inForce

theorem OnTime.intervalUs (h : OnTime s₀ instant s) : s.intervalUs = s₀.intervalUs := by
  unfold OnTime at h
  split at h
  · exact h.intervalUs
  · exact h.intervalUs

/-- The change is pending or applied. -/
def Afoot (s₀ s : Schedule) : Prop := Moved s₀ s ∨ Moved s₀.changed s

theorem OnTime.afoot (h : OnTime s₀ instant s) : Afoot s₀ s := by
  unfold OnTime at h
  split at h
  · exact .inl h
  · exact .inr h

theorem Afoot.result (hl : Licensed s₀) (h : Afoot s₀ s) {m : Motion}
    (hr : s' ∈ m.result cfg s) : Afoot s₀ s' := by
  cases m with
  | advance =>
    cases hr
    rcases h with h | h
    · rcases Nat.lt_or_ge (nextActive s (counterOf s)) s₀.instant with hearly | hdue
      · exact .inl (h.advance_early hearly)
      · exact .inr (h.advance_due hl hdue)
    · exact .inr h.advance_changed
  | catchUp nowUs =>
    have hm := anchorCatchUp_moved hr
    exact h.imp (·.trans hm) (·.trans hm)

/-- A change that makes no difference is in force at all times. -/
theorem Afoot.inForce_idle (h : Afoot s₀ s)
    (hidle : s₀.newChanMap = s₀.chanMap ∧ s₀.newSubrate = s₀.subrate) :
    InForce s₀ instant s := by
  have hsame : (s.chanMap, s.subrate) = (s₀.chanMap, s₀.subrate) := by
    rcases h with h | h
    · exact h.inForce
    · rw [h.inForce]
      exact Prod.ext hidle.1 hidle.2
  rw [InForce, hsame, hidle.1, hidle.2, ite_self]

/-- A change that makes one is in force exactly if it is on time. -/
theorem Afoot.inForce_iff (hl : Licensed s₀) (h : Afoot s₀ s)
    (hreal : ¬ (s₀.newChanMap = s₀.chanMap ∧ s₀.newSubrate = s₀.subrate)) :
    InForce s₀ instant s ↔ OnTime s₀ instant s := by
  refine ⟨fun hin => ?_, OnTime.inForce⟩
  have hne : (s₀.newChanMap, s₀.newSubrate) ≠ (s₀.chanMap, s₀.subrate) := by
    rw [ne_eq, Prod.mk.injEq]
    exact hreal
  rcases h with h | h
  · rw [onTime_pending hl h]
    by_contra hge
    rw [InForce, if_neg hge, h.inForce] at hin
    exact hne hin.symm
  · rw [onTime_changed hl h]
    intro hlt
    rw [InForce, if_pos hlt, h.inForce] at hin
    exact hne hin

/-- A move keeps the change on time exactly if it minds the instant. -/
theorem Motion.minds_iff (hi : 0 < s₀.intervalUs) (hl : Licensed s₀)
    (hfield : s₀.instant = instant % 2 ^ 16) (hs : s.Typed) (h : OnTime s₀ instant s)
    (m : Motion) : m.Minds cfg instant s ↔ ∀ s' ∈ m.result cfg s, OnTime s₀ instant s' := by
  have hint : 0 < s.intervalUs := by
    rw [h.intervalUs]
    exact hi
  cases m with
  | advance =>
    have hnumber := eventNumber_lgLinkAdvance hs hint
    have hresult : (∀ s' ∈ Motion.advance.result cfg s, OnTime s₀ instant s') ↔
        OnTime s₀ instant (lgLinkAdvance s) := by
      simp [Motion.result]
    rw [hresult]
    change (_ ↔ _ ∧ _) ↔ _
    rw [← hfield]
    by_cases hlt : eventNumber s < instant
    · have hm : Moved s₀ s := by
        rw [OnTime, if_pos hlt] at h
        exact h
      rcases Nat.lt_or_ge (nextActive s (counterOf s)) s₀.instant with hearly | hdue
      · rw [onTime_pending hl (hm.advance_early hearly), hnumber]
        exact ⟨fun hk => hk.mpr ⟨hlt, hearly⟩, fun hk => iff_of_true hk ⟨hlt, hearly⟩⟩
      · rw [onTime_changed hl (hm.advance_due hl hdue), hnumber]
        exact ⟨fun hk hbefore => absurd (hk.mp hbefore).2 (Nat.not_lt.mpr hdue),
          fun hk => iff_of_false hk fun hboth => absurd hboth.2 (Nat.not_lt.mpr hdue)⟩
    · have hm : Moved s₀.changed s := by
        rw [OnTime, if_neg hlt] at h
        exact h
      rw [onTime_changed hl hm.advance_changed, hnumber]
      exact ⟨fun hk hbefore => hlt (hk.mp hbefore).1,
        fun hk => iff_of_false hk fun hboth => hlt hboth.1⟩
  | catchUp nowUs =>
    constructor
    · intro hminds s' hr
      have hlands := hminds (anchorCatchUp_catchesUp hs hint hr)
      rw [← anchorCatchUp_lands hs hint hr] at hlands
      have hm := anchorCatchUp_moved hr
      unfold OnTime at h ⊢
      split at h
      · next hlt =>
        rw [if_pos (hlands.mpr hlt)]
        exact h.trans hm
      · next hge =>
        rw [if_neg fun hlt => hge (hlands.mp hlt)]
        exact h.trans hm
    · intro hall hends
      obtain ⟨s', hr⟩ := hends.isSome hs hint
      have hon := hall s' hr
      have hm := anchorCatchUp_moved hr
      rw [← anchorCatchUp_lands hs hint hr]
      by_cases hlt : eventNumber s < instant
      · rw [OnTime, if_pos hlt] at h
        exact iff_of_true ((onTime_pending hl (h.trans hm)).mp hon) hlt
      · rw [OnTime, if_neg hlt] at h
        exact iff_of_false ((onTime_changed hl (h.trans hm)).mp hon) hlt

/-! ## Paths -/

theorem Afoot.timely_idle (hl : Licensed s₀) (h : Afoot s₀ s)
    (hidle : s₀.newChanMap = s₀.chanMap ∧ s₀.newSubrate = s₀.subrate) (path : List Motion) :
    Timely cfg s₀ instant s path := by
  induction path generalizing s with
  | nil => exact h.inForce_idle hidle
  | cons m l ih => exact ⟨h.inForce_idle hidle, fun s' hr => ih (h.result hl hr)⟩

theorem OnTime.timely_iff (hi : 0 < s₀.intervalUs) (hl : Licensed s₀)
    (hfield : s₀.instant = instant % 2 ^ 16)
    (hreal : ¬ (s₀.newChanMap = s₀.chanMap ∧ s₀.newSubrate = s₀.subrate))
    (hs : s.Typed) (h : OnTime s₀ instant s) (path : List Motion) :
    Timely cfg s₀ instant s path ↔ Clear cfg instant s path := by
  induction path generalizing s with
  | nil => exact iff_of_true h.inForce trivial
  | cons m l ih =>
    have hfirst : ∀ s' ∈ m.result cfg s, Timely cfg s₀ instant s' l → OnTime s₀ instant s' := by
      intro s' hr ht
      refine ((h.afoot.result hl hr).inForce_iff hl hreal).mp ?_
      cases l with
      | nil => exact ht
      | cons => exact ht.1
    constructor
    · rintro ⟨-, ht⟩
      have hon := fun s' hr => hfirst s' hr (ht s' hr)
      exact ⟨(Motion.minds_iff hi hl hfield hs h m).mpr hon,
        fun s' hr => (ih (hs.result hr) (hon s' hr)).mp (ht s' hr)⟩
    · rintro ⟨hminds, hc⟩
      have hon := (Motion.minds_iff hi hl hfield hs h m).mp hminds
      exact ⟨h.inForce, fun s' hr => (ih (hs.result hr) (hon s' hr)).mpr (hc s' hr)⟩

/-- A change that is licensed is in force from its instant on and not before, at every event the
moves come to, exactly if it makes no difference, or is pending before the instant and all moves
mind it. -/
theorem change_timely_iff (cfg : Config) (s : Schedule) (hs : s.Typed) (hi : 0 < s.intervalUs)
    (hl : Licensed s) (hfield : s.instant = instant % 2 ^ 16) (path : List Motion) :
    Timely cfg s instant s path ↔
      (s.newChanMap = s.chanMap ∧ s.newSubrate = s.subrate) ∨
        eventNumber s < instant ∧ Clear cfg instant s path := by
  have hm : Moved s s := ⟨_, _, rfl⟩
  by_cases hidle : s.newChanMap = s.chanMap ∧ s.newSubrate = s.subrate
  · exact iff_of_true (Afoot.timely_idle hl (.inl hm) hidle path) (.inl hidle)
  · rw [or_iff_right hidle]
    constructor
    · intro ht
      have hin : InForce s instant s := by
        cases path with
        | nil => exact ht
        | cons => exact ht.1
      have hon := (Afoot.inForce_iff hl (.inl hm) hidle).mp hin
      exact ⟨(onTime_pending hl hm).mp hon, (hon.timely_iff hi hl hfield hidle hs path).mp ht⟩
    · rintro ⟨hlt, hc⟩
      have hon := (onTime_pending hl hm).mpr hlt
      exact (hon.timely_iff hi hl hfield hidle hs path).mpr hc

end

/-- A link 200 ms apart at event 0, with a channel map that its peer has replied to. -/
def changingLink : Schedule :=
  { initiator := true, intervalUs := 200000, subrate := 1, chanMap := 0xFFFF, instant := 6,
    pendingCtrl := { chanMap := true }, pendingChanMap := 0x0FFF, ctrlAcked := true }

instance (s₀ : Schedule) (instant : ℕ) (s : Schedule) : Decidable (InForce s₀ instant s) := by
  unfold InForce
  infer_instance

theorem change_timely_iff_changingLink :
    changingLink.Typed ∧ 0 < changingLink.intervalUs ∧ Licensed changingLink ∧
      (Timely .default changingLink 6 changingLink (List.replicate 7 .advance) ↔
        (changingLink.newChanMap = changingLink.chanMap ∧
          changingLink.newSubrate = changingLink.subrate) ∨
        eventNumber changingLink < 6 ∧
          Clear .default 6 changingLink (List.replicate 7 .advance)) :=
  have htyped : changingLink.Typed := ⟨by decide, by decide, by decide⟩
  ⟨htyped, by decide, by decide,
    change_timely_iff .default changingLink htyped (by decide) (by decide) (by decide) _⟩

/-- The radio was busy for 1.3 s: `anchor_catch_up` comes to event 7, which uses the old map. -/
theorem not_timely_skipped :
    ¬ ∀ (s : Schedule) (instant : ℕ) (path : List Motion), s.Typed → 0 < s.intervalUs → Licensed s →
      s.instant = instant % 2 ^ 16 → eventNumber s < instant →
      Timely .default s instant s path := by
  intro h
  have htimely := h changingLink 6 [.catchUp 1300000] ⟨by decide, by decide, by decide⟩ (by decide)
    (by decide) (by decide) (by decide)
  have hskipped : (anchorCatchUp .default 1300000 catchUpFuel changingLink).any
      (fun s => !decide (InForce changingLink 6 s)) = true := by decide +kernel
  cases hr : anchorCatchUp .default 1300000 catchUpFuel changingLink with
  | none => simp [hr] at hskipped
  | some s =>
    have hin := htimely.2 s hr
    rw [hr] at hskipped
    simp only [Option.any_some, Bool.not_eq_true', decide_eq_false_iff_not] at hskipped
    exact hskipped hin

/-- The instant of a change made at event 65531 wraps to 1, and the next event comes after it. -/
example : ¬ InForce { changingLink with anchorUs := 65531 * 200000, counter := 65531, instant := 1 }
    65537 (lgLinkAdvance { changingLink with
      anchorUs := 65531 * 200000, counter := 65531, instant := 1 }) := by
  decide

end LockGrid
