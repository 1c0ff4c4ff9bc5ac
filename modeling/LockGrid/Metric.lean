import LockGrid.Neigh
import Mathlib.Data.List.Forall2

/-!
# The metrics of a neighbour

The counters and averages that `lg_neigh_tx_result` keeps, at the widths they have in the entry,
and how two neighbours compare that are measured alike but for the attempts one of them loses.
-/
namespace LockGrid

/-- What an entry measures of its neighbour. -/
structure Metric where
  rssi : ℤ
  etxQ4 : ℕ
  linkCost : ℕ
  perPermille : ℕ
  txAttempts : ℕ
  txAcked : ℕ
  consecMisses : ℕ
  deriving DecidableEq, Repr

/-- The ETX of one attempt. -/
def etxSample (acked : Bool) : ℤ := if acked then etxOne else etxOne * 4

def etxAfter (etxQ4 : ℕ) (acked : Bool) : ℕ :=
  (max (etxOne : ℤ) (min (lgEwma etxQ4 (etxSample acked) true) etxMax)).toNat

/-- What a weak signal adds to the cost of a link. -/
def rssiPenalty (rssi : ℤ) : ℕ :=
  if rssi ≠ rssiNone ∧ rssi < rssiWeakDbm then (rssiWeakDbm - rssi).toNat * rssiPenaltyPerDb else 0

namespace Metric

variable {m m' : Metric}

/-- `lg_neigh_update_cost`. -/
def updateCost (m : Metric) : Metric :=
  { m with linkCost := min (m.etxQ4 + rssiPenalty m.rssi) (rankInfinite - 1) }

/-- `lg_neigh_rx_rssi`. -/
def rxRssi (m : Metric) (rssi : ℤ) : Metric :=
  { m with rssi := lgEwma m.rssi rssi (m.rssi ≠ rssiNone) }

/-- `lg_neigh_tx_result`: the counters have 32 bits. -/
def txResult (m : Metric) (acked : Bool) : Metric :=
  let attempts := (m.txAttempts + 1) % 2 ^ 32
  let tally := if acked then (m.txAcked + 1) % 2 ^ 32 else m.txAcked
  let lost := (attempts + 2 ^ 32 - tally) % 2 ^ 32
  let halve := 128 ≤ attempts
  { m with
    consecMisses := if acked then 0 else (m.consecMisses + 1) % 256
    etxQ4 := etxAfter m.etxQ4 acked
    perPermille := if attempts ≠ 0 then lost * 1000 % 2 ^ 32 / attempts % 2 ^ 16 else m.perPermille
    txAttempts := if halve then attempts / 2 else attempts
    txAcked := if halve then tally / 2 else tally }.updateCost

@[simp] theorem updateCost_etxQ4 (m : Metric) : m.updateCost.etxQ4 = m.etxQ4 := rfl
@[simp] theorem updateCost_rssi (m : Metric) : m.updateCost.rssi = m.rssi := rfl
@[simp] theorem txResult_etxQ4 (m : Metric) (acked : Bool) :
    (m.txResult acked).etxQ4 = etxAfter m.etxQ4 acked := rfl
@[simp] theorem txResult_rssi (m : Metric) (acked : Bool) : (m.txResult acked).rssi = m.rssi := rfl
@[simp] theorem rxRssi_etxQ4 (m : Metric) (rssi : ℤ) : (m.rxRssi rssi).etxQ4 = m.etxQ4 := rfl
@[simp] theorem rxRssi_linkCost (m : Metric) (rssi : ℤ) :
    (m.rxRssi rssi).linkCost = m.linkCost := rfl

end Metric

/-! ## The average -/

theorem etxSample_bounds (acked : Bool) : 16 ≤ etxSample acked ∧ etxSample acked ≤ 64 := by
  cases acked <;> simp [etxSample, etxOne]

/-- The average of values that are not negative is rounded down. -/
theorem lgEwma_eq {old : ℕ} {sample : ℤ} (h : 0 ≤ sample) :
    lgEwma old sample true = (7 * (old : ℤ) + sample) / 8 := by
  have hnum : (0 : ℤ) ≤ old * 7 + sample := by omega
  simp only [lgEwma, if_true, Int.tdiv_eq_ediv_of_nonneg hnum]
  congr 1
  omega

theorem etxAfter_eq (x : ℕ) (acked : Bool) :
    (etxAfter x acked : ℤ) = max 16 (min ((7 * x + etxSample acked) / 8) 128) := by
  have hs := etxSample_bounds acked
  have hone : (etxOne : ℤ) = 16 := rfl
  have hmax : (etxMax : ℤ) = 128 := rfl
  rw [etxAfter, lgEwma_eq (by omega), hone, hmax]
  omega

theorem etxAfter_bounds (x : ℕ) (acked : Bool) :
    etxOne ≤ etxAfter x acked ∧ etxAfter x acked ≤ etxMax := by
  have h := etxAfter_eq x acked
  have hone : etxOne = 16 := rfl
  have hmax : etxMax = 128 := rfl
  omega

/-- A success leaves no more than a loss would, and from a lower average no more than from a
higher one. -/
theorem etxAfter_mono {x y : ℕ} {a b : Bool} (hxy : x ≤ y) (hab : b = true → a = true) :
    etxAfter x a ≤ etxAfter y b := by
  have hx := etxAfter_eq x a
  have hy := etxAfter_eq y b
  have hs : etxSample a ≤ etxSample b := by
    cases a <;> cases b <;> simp_all [etxSample, etxOne]
  omega

/-- A success brings the average closer to one attempt, and never past it. -/
theorem etxAfter_success (x : ℕ) (hx : x ≤ etxMax) : etxAfter x true ≤ max etxOne (x - 1) := by
  have h := etxAfter_eq x true
  have hs : etxSample true = 16 := rfl
  have hone : etxOne = 16 := rfl
  have hmax : etxMax = 128 := rfl
  rw [hs] at h
  omega

/-! ## Two histories -/

/-- What happens to a neighbour's metrics. -/
inductive Measure
  | outcome (acked : Bool)
  | heard (rssi : ℤ)
  | recost

def Measure.isOutcome : Measure → Bool
  | .outcome _ => true
  | _ => false

def Metric.step (m : Metric) : Measure → Metric
  | .outcome acked => m.txResult acked
  | .heard rssi => m.rxRssi rssi
  | .recost => m.updateCost

def Metric.run (m : Metric) (l : List Measure) : Metric := l.foldl Metric.step m

@[simp] theorem Metric.run_nil (m : Metric) : m.run [] = m := rfl
@[simp] theorem Metric.run_cons (m : Metric) (a : Measure) (l : List Measure) :
    m.run (a :: l) = (m.step a).run l := rfl

/-- The signals are the same, and the first attempt succeeds whenever the second one does. -/
inductive Measure.AtLeast : Measure → Measure → Prop
  | outcome {a b : Bool} (h : b = true → a = true) : AtLeast (.outcome a) (.outcome b)
  | heard (rssi : ℤ) : AtLeast (.heard rssi) (.heard rssi)
  | recost : AtLeast .recost .recost

/-- The signal is the same, and the first neighbour is no dearer. -/
structure Metric.NoDearer (m m' : Metric) : Prop where
  rssi : m.rssi = m'.rssi
  etxQ4 : m.etxQ4 ≤ m'.etxQ4
  linkCost : m.linkCost ≤ m'.linkCost

namespace Metric

variable {m m' : Metric}

theorem NoDearer.updateCost (hrssi : m.rssi = m'.rssi) (hetx : m.etxQ4 ≤ m'.etxQ4) :
    NoDearer m.updateCost m'.updateCost := by
  refine ⟨hrssi, hetx, ?_⟩
  simp only [Metric.updateCost, hrssi]
  omega

theorem NoDearer.step {a b : Measure} (hab : a.AtLeast b) (h : NoDearer m m') :
    NoDearer (m.step a) (m'.step b) := by
  cases hab with
  | outcome hab => exact .updateCost h.rssi (etxAfter_mono h.etxQ4 hab)
  | heard rssi =>
    refine ⟨?_, h.etxQ4, h.linkCost⟩
    simp only [Metric.step, rxRssi, h.rssi]
  | recost => exact .updateCost h.rssi h.etxQ4

theorem NoDearer.run {l l' : List Measure} (hl : List.Forall₂ Measure.AtLeast l l')
    (h : NoDearer m m') : NoDearer (m.run l) (m'.run l') := by
  induction hl generalizing m m' with
  | nil => exact h
  | cons hab hrest ih => exact ih (h.step hab)

/-! ## The bounds -/

/-- The bounds of the average and of the counters. -/
structure Bounded (m : Metric) : Prop where
  etxQ4 : etxOne ≤ m.etxQ4 ∧ m.etxQ4 ≤ etxMax
  tally : m.txAcked ≤ m.txAttempts

/-- The error rate is one of `attempts`, also where the product does not fit 32 bits. -/
theorem perPermille_le {lost attempts : ℕ} (hle : lost ≤ attempts) :
    lost * 1000 % 2 ^ 32 / attempts % 2 ^ 16 ≤ 1000 := by
  have hdiv : lost * 1000 % 2 ^ 32 / attempts ≤ 1000 := by
    apply Nat.div_le_of_le_mul
    calc lost * 1000 % 2 ^ 32 ≤ lost * 1000 := Nat.mod_le _ _
      _ ≤ attempts * 1000 := Nat.mul_le_mul_right 1000 hle
  exact (Nat.mod_le _ _).trans hdiv

theorem lost_le {attempts tally : ℕ} (hle : tally ≤ attempts) (hroom : attempts < 2 ^ 32) :
    (attempts + 2 ^ 32 - tally) % 2 ^ 32 ≤ attempts := by omega

theorem Bounded.txResult (h : m.Bounded) (hroom : m.txAttempts + 1 < 2 ^ 32) (acked : Bool) :
    (m.txResult acked).Bounded ∧ (m.txResult acked).perPermille ≤ 1000 ∧
      (m.txResult acked).txAttempts + 1 < 2 ^ 32 := by
  have htally := h.tally
  have hattempts : (m.txAttempts + 1) % 2 ^ 32 = m.txAttempts + 1 := Nat.mod_eq_of_lt hroom
  have hacked : (m.txAcked + 1) % 2 ^ 32 = m.txAcked + 1 := Nat.mod_eq_of_lt (by omega)
  refine ⟨⟨etxAfter_bounds _ _, ?_⟩, ?_, ?_⟩
  · simp only [Metric.txResult, Metric.updateCost, hattempts, hacked]
    split_ifs <;> omega
  · have hpos : m.txAttempts + 1 ≠ 0 := by omega
    have hnow : (if acked then m.txAcked + 1 else m.txAcked) ≤ m.txAttempts + 1 := by
      split_ifs <;> omega
    simp only [Metric.txResult, Metric.updateCost, hattempts, hacked, if_pos hpos]
    exact perPermille_le (lost_le hnow hroom)
  · simp only [Metric.txResult, Metric.updateCost, hattempts]
    split_ifs <;> omega

theorem Bounded.step (h : m.Bounded) (hroom : m.txAttempts + 1 < 2 ^ 32) (a : Measure) :
    (m.step a).Bounded ∧ (m.perPermille ≤ 1000 → (m.step a).perPermille ≤ 1000) ∧
      (m.step a).txAttempts + 1 < 2 ^ 32 := by
  cases a with
  | outcome acked =>
    obtain ⟨hbounds, hrate, hroom'⟩ := h.txResult hroom acked
    exact ⟨hbounds, fun _ => hrate, hroom'⟩
  | heard rssi => exact ⟨⟨h.etxQ4, h.tally⟩, id, hroom⟩
  | recost => exact ⟨⟨h.etxQ4, h.tally⟩, id, hroom⟩

theorem Bounded.run (h : m.Bounded) (hroom : m.txAttempts + 1 < 2 ^ 32) (l : List Measure) :
    (m.run l).Bounded ∧ (m.perPermille ≤ 1000 → (m.run l).perPermille ≤ 1000) := by
  induction l generalizing m with
  | nil => exact ⟨h, id⟩
  | cons a l ih =>
    obtain ⟨hnext, hrate, hroom'⟩ := h.step hroom a
    obtain ⟨hrun, hrates⟩ := ih hnext hroom'
    exact ⟨hrun, fun hle => hrates (hrate hle)⟩

/-- The counters are halved long before they fill their 32 bits. -/
theorem txAttempts_run_lt (h : m.txAttempts < 128) (l : List Measure) :
    (m.run l).txAttempts < 128 := by
  induction l generalizing m with
  | nil => exact h
  | cons a l ih =>
    apply ih
    cases a with
    | outcome acked =>
      have hattempts : (m.txAttempts + 1) % 2 ^ 32 = m.txAttempts + 1 :=
        Nat.mod_eq_of_lt (by omega)
      simp only [Metric.step, Metric.txResult, Metric.updateCost, hattempts]
      split_ifs <;> omega
    | heard rssi => exact h
    | recost => exact h

/-! ## A run of successes -/

/-- Each success takes an average above one attempt down, and no other step moves it. -/
theorem successes_le {l : List Measure} (hl : .outcome false ∉ l) (hx : m.etxQ4 ≤ etxMax) :
    (m.run l).etxQ4 ≤ max etxOne (m.etxQ4 - l.countP Measure.isOutcome) := by
  induction l generalizing m with
  | nil => simp
  | cons a l ih =>
    rw [List.mem_cons, not_or] at hl
    rw [run_cons]
    cases a with
    | outcome acked =>
      cases acked with
      | false => exact (hl.1 rfl).elim
      | true =>
        have hstep := etxAfter_success m.etxQ4 hx
        have hih := ih (m := m.txResult true) hl.2 (etxAfter_bounds m.etxQ4 true).2
        rw [txResult_etxQ4] at hih
        have hcount : (Measure.outcome true :: l).countP Measure.isOutcome =
            l.countP Measure.isOutcome + 1 := List.countP_cons_of_pos rfl
        rw [hcount]
        change ((m.txResult true).run l).etxQ4 ≤ _
        omega
    | heard rssi =>
      have hcount : (Measure.heard rssi :: l).countP Measure.isOutcome =
          l.countP Measure.isOutcome := List.countP_cons_of_neg (by simp [Measure.isOutcome])
      rw [hcount]
      exact ih (m := m.rxRssi rssi) hl.2 hx
    | recost =>
      have hcount : (Measure.recost :: l).countP Measure.isOutcome =
          l.countP Measure.isOutcome := List.countP_cons_of_neg (by simp [Measure.isOutcome])
      rw [hcount]
      exact ih (m := m.updateCost) hl.2 hx

theorem etxOne_le_run (h : etxOne ≤ m.etxQ4) (l : List Measure) : etxOne ≤ (m.run l).etxQ4 := by
  induction l generalizing m with
  | nil => exact h
  | cons a l ih =>
    apply ih
    cases a with
    | outcome acked => exact (etxAfter_bounds m.etxQ4 acked).1
    | heard rssi => exact h
    | recost => exact h

/-- From whatever average, enough successes lead to one attempt and no more. -/
theorem successes_eq {l : List Measure} (hl : .outcome false ∉ l)
    (hmany : etxMax - etxOne < l.countP Measure.isOutcome) : (m.run l).etxQ4 = etxOne := by
  induction l generalizing m with
  | nil => simp at hmany
  | cons a l ih =>
    rw [List.mem_cons, not_or] at hl
    rw [run_cons]
    cases a with
    | outcome acked =>
      have hcount : (Measure.outcome acked :: l).countP Measure.isOutcome =
          l.countP Measure.isOutcome + 1 := List.countP_cons_of_pos rfl
      have hbounds := etxAfter_bounds m.etxQ4 acked
      have hle := successes_le (m := m.txResult acked) hl.2 hbounds.2
      have hge := etxOne_le_run (m := m.txResult acked) hbounds.1 l
      rw [txResult_etxQ4] at hle
      change ((m.txResult acked).run l).etxQ4 = _
      omega
    | heard rssi =>
      apply ih hl.2
      rwa [List.countP_cons_of_neg (by simp [Measure.isOutcome])] at hmany
    | recost =>
      apply ih hl.2
      rwa [List.countP_cons_of_neg (by simp [Measure.isOutcome])] at hmany

end Metric

/-! ## The metrics of an entry -/

variable {cfg : Config}

/-- What the entry measures; the error rate is only ever reported. -/
def View.metric (v : View) (perPermille : ℕ) : Metric where
  rssi := v.rssi
  etxQ4 := v.etxQ4
  linkCost := v.linkCost
  perPermille := perPermille
  txAttempts := v.txAttempts
  txAcked := v.txAcked
  consecMisses := v.consecMisses

/-- What is measured about the neighbour of entry `i`. -/
def Node.measure (c : Node cfg) (i : Fin cfg.maxNeighbors) : Measure → Node cfg
  | .outcome acked => lgNeighTxResult c i acked
  | .heard rssi => lgNeighRxRssi c i rssi
  | .recost => lgNeighUpdateCost c i

theorem View.metric_txResult {v : View} {perPermille : ℕ} (htally : v.txAcked ≤ v.txAttempts)
    (hroom : v.txAttempts + 1 < 2 ^ 32) (acked : Bool) :
    (v.metric perPermille).txResult acked =
      (v.txResult acked).metric ((v.metric perPermille).txResult acked).perPermille := by
  have hattempts : (v.txAttempts + 1) % 2 ^ 32 = v.txAttempts + 1 := Nat.mod_eq_of_lt hroom
  have hacked : (v.txAcked + 1) % 2 ^ 32 = v.txAcked + 1 := Nat.mod_eq_of_lt (by omega)
  simp only [Metric.txResult, Metric.updateCost, View.metric, View.txResult, View.updateCost,
    hattempts, hacked]
  rfl

/-- The node keeps the metrics of an entry as the counters with 32 bits do. -/
theorem Node.measure_metric {c : Node cfg} {i : Fin cfg.maxNeighbors} {perPermille : ℕ}
    (h : ((c.view i).metric perPermille).Bounded) (hroom : (c.view i).txAttempts + 1 < 2 ^ 32)
    (a : Measure) :
    ∃ perPermille', ((c.measure i a).view i).metric perPermille' =
      ((c.view i).metric perPermille).step a := by
  have hview : ∀ v, ((c.setView i v).view i) = v := by simp [Node.setView]
  cases a with
  | outcome acked =>
    have hstep : ((c.view i).metric perPermille).txResult acked = _ :=
      View.metric_txResult h.tally hroom acked
    have hentry : (c.measure i (.outcome acked)).view i = (c.view i).txResult acked :=
      hview ((c.view i).txResult acked)
    exact ⟨_, (congrArg (View.metric · _) hentry).trans hstep.symm⟩
  | heard rssi => exact ⟨perPermille, congrArg (View.metric · perPermille) (hview _)⟩
  | recost => exact ⟨perPermille, congrArg (View.metric · perPermille) (hview _)⟩

theorem Node.measure_run {c : Node cfg} {i : Fin cfg.maxNeighbors} {perPermille : ℕ}
    (h : ((c.view i).metric perPermille).Bounded) (hroom : (c.view i).txAttempts + 1 < 2 ^ 32)
    (l : List Measure) :
    ∃ perPermille', ((l.foldl (Node.measure · i) c).view i).metric perPermille' =
      ((c.view i).metric perPermille).run l := by
  induction l generalizing c perPermille with
  | nil => exact ⟨perPermille, rfl⟩
  | cons a l ih =>
    obtain ⟨pp, hpp⟩ := c.measure_metric h hroom a
    obtain ⟨hnext, -, hroom'⟩ := h.step hroom a
    rw [← hpp] at hnext hroom'
    obtain ⟨pp', hpp'⟩ := ih hnext hroom'
    refine ⟨pp', hpp'.trans ?_⟩
    rw [Metric.run_cons, hpp]

/-! ## Fewer losses -/

/-- **Fewer losses are never dearer.** Two histories of one neighbour differ in that the first has
successes where the second has losses: it is never dearer on the way, and both keep the bounds.
Whatever the state, enough successes bring the average to one attempt. -/
theorem metric_monotone {m : Metric} (hm : m.Bounded) (hroom : m.txAttempts + 1 < 2 ^ 32)
    {l l' : List Measure} (hl : List.Forall₂ Measure.AtLeast l l') :
    (∀ k, (m.run (l.take k)).etxQ4 ≤ (m.run (l'.take k)).etxQ4 ∧
      (m.run (l.take k)).linkCost ≤ (m.run (l'.take k)).linkCost ∧
      ((m.run (l.take k)).Bounded ∧ (m.run (l'.take k)).Bounded) ∧
      (m.perPermille ≤ 1000 → (m.run (l.take k)).perPermille ≤ 1000 ∧
        (m.run (l'.take k)).perPermille ≤ 1000)) ∧
    ∀ (s : Metric) (u : List Measure), .outcome false ∉ u →
      etxMax - etxOne < u.countP Measure.isOutcome → (s.run u).etxQ4 = etxOne := by
  constructor
  · intro k
    have hstart : m.NoDearer m := ⟨rfl, le_rfl, le_rfl⟩
    have hcmp := hstart.run (List.forall₂_take k hl)
    obtain ⟨hrun, hrate⟩ := hm.run hroom (l.take k)
    obtain ⟨hrun', hrate'⟩ := hm.run hroom (l'.take k)
    exact ⟨hcmp.etxQ4, hcmp.linkCost, ⟨hrun, hrun'⟩, fun h => ⟨hrate h, hrate' h⟩⟩
  · intro s u hu hmany
    exact Metric.successes_eq hu hmany

/-- A neighbour with few attempts, most of them acknowledged. -/
def fewTries : Metric where
  rssi := -92
  etxQ4 := 20
  linkCost := 28
  perPermille := 100
  txAttempts := 10
  txAcked := 9
  consecMisses := 0

theorem metric_monotone_fewTries :
    (fewTries.run ([.outcome true, .heard (-95), .outcome true].take 3)).linkCost ≤
      (fewTries.run ([.outcome false, .heard (-95), .outcome true].take 3)).linkCost :=
  ((metric_monotone (m := fewTries) ⟨by decide, by decide⟩ (by decide)
    (.cons (.outcome fun _ => rfl) (.cons (.heard (-95))
      (.cons (.outcome fun _ => rfl) .nil)))).1 3).2.1

/-- With its counter of attempts at the end of its range, a loss leaves an entry with more
acknowledgements than attempts. -/
theorem not_metric_monotone :
    ¬ ∀ m : Metric, m.Bounded → m.txAttempts < 2 ^ 32 → ∀ l : List Measure,
      (m.run l).txAcked ≤ (m.run l).txAttempts := by
  intro h
  have hfull := h { fewTries with txAttempts := 2 ^ 32 - 1 } ⟨by decide, by decide⟩
    (by decide) [.outcome false]
  revert hfull
  decide

end LockGrid
