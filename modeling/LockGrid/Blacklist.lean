import LockGrid.Core
import Mathlib.Tactic.IntervalCases

/-!
# The channel map under measurement

What `lg_chan_result`, `lg_chan_noise` and `lg_chan_reevaluate` keep, in whatever order they are
called: enough channels stay in the map, each channel that is not in it is marked as retired, and
the counters stay small.
-/
namespace LockGrid

variable {cfg : Config} {c d : Node cfg}

/-! ## Bits of a map -/

/-- The bit of channel index `i` as the loop of `lg_chan_reevaluate` computes it. -/
def mapBit (i : ℕ) : UInt16 := 1 <<< UInt16.ofNat i

theorem chanBit_mapBit {i j : ℕ} (hi : i < chanCount) (hj : j < chanCount) :
    chanBit (mapBit i) j = decide (j = i) := by
  simp only [chanCount] at hi hj
  interval_cases i <;> interval_cases j <;> rfl

theorem chanBit_retire (map : UInt16) {i j : ℕ} (hi : i < chanCount) (hj : j < chanCount) :
    chanBit (map &&& ~~~mapBit i) j = (chanBit map j && decide (j ≠ i)) := by
  have hbit := chanBit_mapBit hi hj
  have hlt : j < 16 := hj
  simp only [chanBit] at hbit ⊢
  rw [UInt16.toBitVec_and, UInt16.toBitVec_not, BitVec.getLsbD_and, BitVec.getLsbD_not, hbit,
    decide_eq_true hlt, Bool.true_and, decide_not]

theorem chanBit_return (map : UInt16) {i j : ℕ} (hi : i < chanCount) (hj : j < chanCount) :
    chanBit (map ||| mapBit i) j = (chanBit map j || decide (j = i)) := by
  have hbit := chanBit_mapBit hi hj
  simp only [chanBit] at hbit ⊢
  simp [hbit]

theorem lgChanMapCount_congr {map : UInt16} {p : ℕ → Bool}
    (h : ∀ j < chanCount, chanBit map j = p j) :
    lgChanMapCount map = ((List.range chanCount).filter p).length := by
  unfold lgChanMapCount
  rw [List.filter_congr fun j hj => h j (List.mem_range.mp hj)]

/-- A channel that is retired is one channel less. -/
theorem lgChanMapCount_retire {map : UInt16} {i : ℕ} (hi : i < chanCount)
    (hbit : chanBit map i = true) :
    lgChanMapCount (map &&& ~~~mapBit i) + 1 = lgChanMapCount map := by
  rw [lgChanMapCount_congr fun j hj => chanBit_retire map hi hj]
  have hmem : i ∈ (List.range chanCount).filter (chanBit map) := by
    rw [List.mem_filter]
    exact ⟨List.mem_range.mpr hi, hbit⟩
  have hnodup : ((List.range chanCount).filter (chanBit map)).Nodup := List.nodup_range.filter _
  have herase : (List.range chanCount).filter (fun j => chanBit map j && decide (j ≠ i)) =
      ((List.range chanCount).filter (chanBit map)).erase i := by
    rw [hnodup.erase_eq_filter, List.filter_filter]
    apply List.filter_congr
    intro j _
    rw [Bool.and_comm]
    by_cases he : j = i
    · simp [he]
    · simp [he]
  rw [herase, List.length_erase_of_mem hmem]
  have hpos := List.length_pos_of_mem hmem
  unfold lgChanMapCount
  omega

theorem lgChanMapCount_return (map : UInt16) {i : ℕ} (hi : i < chanCount) :
    lgChanMapCount map ≤ lgChanMapCount (map ||| mapBit i) := by
  rw [lgChanMapCount_congr fun j hj => chanBit_return map hi hj]
  unfold lgChanMapCount
  rw [← List.countP_eq_length_filter, ← List.countP_eq_length_filter]
  apply List.countP_mono_left
  intro j _ hj
  simp [hj]

/-! ## What the calls keep -/

/-- The map has enough channels, the statistics say which these are, and no counter has grown. -/
structure MapSound (cfg : Config) (map : UInt16) (chan : Fin chanCount → ChanStat) : Prop where
  enough : cfg.chanMinGood ≤ lgChanMapCount map
  listed : ∀ i : Fin chanCount, (chan i).blacklisted = !chanBit map i
  young : ∀ i, (chan i).framesOk + (chan i).framesBad < chanDecayAt
  rate : ∀ i, (chan i).perPermille ≤ 1000

/-- The statistics `cs'` of a channel may take the place of `cs`. -/
structure ChanStat.Eases (cs cs' : ChanStat) : Prop where
  young : cs.framesOk + cs.framesBad < chanDecayAt → cs'.framesOk + cs'.framesBad < chanDecayAt
  rate : cs.perPermille ≤ 1000 → cs'.perPermille ≤ 1000

theorem ChanStat.Eases.refl (cs : ChanStat) : cs.Eases cs := ⟨id, id⟩

/-- A channel is entered in the statistics as the map has it from then on. -/
theorem MapSound.update {map map' : UInt16} {chan : Fin chanCount → ChanStat}
    (h : MapSound cfg map chan) {i : Fin chanCount} {cs : ChanStat} (heases : (chan i).Eases cs)
    (henough : cfg.chanMinGood ≤ lgChanMapCount map') (hlisted : cs.blacklisted = !chanBit map' i)
    (hrest : ∀ j : Fin chanCount, j ≠ i → chanBit map' j = chanBit map j) :
    MapSound cfg map' (Function.update chan i cs) where
  enough := henough
  listed j := by
    by_cases he : j = i
    · subst he
      rw [Function.update_self, hlisted]
    · rw [Function.update_of_ne he, h.listed j, hrest j he]
  young j := by
    by_cases he : j = i
    · subst he
      rw [Function.update_self]
      exact heases.young (h.young j)
    · rw [Function.update_of_ne he]
      exact h.young j
  rate j := by
    by_cases he : j = i
    · subst he
      rw [Function.update_self]
      exact heases.rate (h.rate j)
    · rw [Function.update_of_ne he]
      exact h.rate j

/-- `lg_chan_result` on the statistics of the channel. -/
theorem ChanStat.result_eases (cs : ChanStat) (ok : Bool) : cs.Eases (cs.result ok) := by
  have hle : ∀ a b : ℕ, b * 1000 / (a + b) ≤ 1000 := by
    intro a b
    rcases Nat.eq_zero_or_pos (a + b) with hzero | hpos
    · rw [hzero, Nat.div_zero]
      omega
    · rw [Nat.div_le_iff_le_mul_add_pred hpos]
      nlinarith
  constructor
  · intro hyoung
    simp only [ChanStat.result, chanDecayAt] at hyoung ⊢
    cases ok <;> split_ifs <;> simp_all <;> omega
  · intro hrate
    simp only [ChanStat.result]
    split_ifs <;> first | exact hrate | exact hle _ _

theorem ChanStat.result_blacklisted (cs : ChanStat) (ok : Bool) :
    (cs.result ok).blacklisted = cs.blacklisted := by
  simp only [ChanStat.result]
  split_ifs <;> rfl

/-- What one round of the loop makes of a channel. -/
theorem reevaluateOne_cases (map : UInt16) (i : ℕ) (cs : ChanStat) :
    let r := reevaluateOne cfg map i cs
    cs.Eases r.2 ∧
      (r.1 = map ∧ r.2.blacklisted = cs.blacklisted ∨
        chanBit map i = true ∧ cfg.chanMinGood < lgChanMapCount map ∧
          r.1 = map &&& ~~~mapBit i ∧ r.2.blacklisted = true ∨
        r.1 = map ||| mapBit i ∧ r.2.blacklisted = false) := by
  have hzero : 0 < chanDecayAt := by decide
  intro r
  simp only [r, reevaluateOne]
  split
  · next hin =>
    split
    · next hout =>
      rw [Bool.and_eq_true, decide_eq_true_eq] at hout
      exact ⟨⟨id, id⟩, .inr (.inl ⟨hin, hout.2, rfl, rfl⟩)⟩
    · exact ⟨.refl cs, .inl ⟨rfl, rfl⟩⟩
  · split
    · split
      · exact ⟨⟨fun _ => hzero, fun _ => Nat.zero_le _⟩, .inr (.inr ⟨rfl, rfl⟩)⟩
      · exact ⟨⟨fun _ => hzero, id⟩, .inl ⟨rfl, rfl⟩⟩
    · exact ⟨.refl cs, .inl ⟨rfl, rfl⟩⟩

/-- A channel is retired only where that leaves enough of them. -/
theorem reevaluateOne_sound {map : UInt16} {chan : Fin chanCount → ChanStat}
    (h : MapSound cfg map chan) (i : Fin chanCount) :
    let r := reevaluateOne cfg map i (chan i)
    MapSound cfg r.1 (Function.update chan i r.2) := by
  intro r
  obtain ⟨heases, hcases⟩ := @reevaluateOne_cases cfg map i (chan i)
  rcases hcases with ⟨hmap, hlist⟩ | ⟨hin, hmore, hmap, hlist⟩ | ⟨hmap, hlist⟩
  · apply h.update heases
    · rw [hmap]
      exact h.enough
    · rw [hlist, hmap]
      exact h.listed i
    · intro j _
      rw [hmap]
  · apply h.update heases
    · have hcount := lgChanMapCount_retire i.isLt hin
      rw [hmap]
      omega
    · rw [hlist, hmap, chanBit_retire map i.isLt i.isLt]
      simp
    · intro j hj
      rw [hmap, chanBit_retire map i.isLt j.isLt]
      simp [Fin.val_inj, hj]
  · apply h.update heases
    · rw [hmap]
      exact h.enough.trans (lgChanMapCount_return map i.isLt)
    · rw [hlist, hmap, chanBit_return map i.isLt i.isLt]
      simp
    · intro j hj
      rw [hmap, chanBit_return map i.isLt j.isLt]
      simp [Fin.val_inj, hj]

/-- A round of the loop of `lg_chan_reevaluate`. -/
def reevaluateRound (cfg : Config) (st : UInt16 × (Fin chanCount → ChanStat))
    (i : Fin chanCount) : UInt16 × (Fin chanCount → ChanStat) :=
  let r := reevaluateOne cfg st.1 i (st.2 i)
  (r.1, Function.update st.2 i r.2)

/-- The map and the statistics as the loop leaves them, before the map is looked at. -/
def reevaluateLoop (c : Node cfg) : UInt16 × (Fin chanCount → ChanStat) :=
  (List.finRange chanCount).foldl (reevaluateRound cfg) (c.net.chanMap, c.net.chan)

/-- The map is not replaced by the preferred channels. -/
def Node.NoFallback (c : Node cfg) : Prop :=
  cfg.chanMinGood ≤ lgChanMapCount (reevaluateLoop c).1

/-- The channels of a node are in order. -/
def Node.MapSound (c : Node cfg) : Prop := LockGrid.MapSound cfg c.net.chanMap c.net.chan

theorem reevaluateLoop_sound (h : c.MapSound) :
    LockGrid.MapSound cfg (reevaluateLoop c).1 (reevaluateLoop c).2 := by
  have hrounds : ∀ (l : List (Fin chanCount)) (st : UInt16 × (Fin chanCount → ChanStat)),
      LockGrid.MapSound cfg st.1 st.2 → LockGrid.MapSound cfg
        (l.foldl (reevaluateRound cfg) st).1 (l.foldl (reevaluateRound cfg) st).2 := by
    intro l
    induction l with
    | nil => exact fun _ hst => hst
    | cons i l ih => exact fun _ hst => ih _ (reevaluateOne_sound hst i)
  exact hrounds _ _ h

theorem Node.MapSound.noFallback (h : c.MapSound) : c.NoFallback := (reevaluateLoop_sound h).enough

/-! ## The calls -/

/-- `lg_chan_init`. -/
def lgChanInit (c : Node cfg) : Node cfg :=
  { c with net := { c.net with
      chan := fun k => { probing := (c.net.chan k).probing }
      chanMap := 0xFFFF
      nextChanEvalUs := c.nowUs + cfg.chanEvalPeriodMs * 1000 } }

/-- `lg_start` initialises the channels so. -/
theorem netInit_chan (c : Node cfg) :
    (netInit cfg c.nowUs c.net).chan = (lgChanInit c).net.chan ∧
      (netInit cfg c.nowUs c.net).chanMap = (lgChanInit c).net.chanMap := ⟨rfl, rfl⟩

theorem lgChanInit_sound (c : Node cfg) : (lgChanInit c).MapSound where
  enough := by
    have hfull : lgChanMapCount 0xFFFF = 16 := by decide
    change cfg.chanMinGood ≤ lgChanMapCount 0xFFFF
    rw [hfull]
    exact cfg.chanMinGood_range.2
  listed i := by
    have hall : ∀ i : Fin chanCount, chanBit 0xFFFF i = true := by decide
    change false = !chanBit 0xFFFF i
    rw [hall i, Bool.not_true]
  young _ := by
    change 0 < chanDecayAt
    decide
  rate _ := Nat.zero_le _

theorem lgChanResult_sound (h : c.MapSound) (chan : ℕ) (ok : Bool) :
    (lgChanResult c chan ok).MapSound := by
  unfold lgChanResult
  cases chanIdx chan with
  | none => exact h
  | some i =>
    refine h.update ((c.net.chan i).result_eases ok) h.enough ?_ fun _ _ => rfl
    rw [ChanStat.result_blacklisted]
    exact h.listed i

theorem lgChanNoise_sound (h : c.MapSound) (chan : ℕ) (dbm : ℤ) :
    (lgChanNoise c chan dbm).MapSound := by
  unfold lgChanNoise
  cases chanIdx chan with
  | none => exact h
  | some i =>
    dsimp only
    split
    · exact h
    · exact h.update ⟨id, id⟩ h.enough (h.listed i) fun _ _ => rfl

theorem lgChanReevaluate_sound (h : c.MapSound) : (lgChanReevaluate c).2.MapSound := by
  have hloop := reevaluateLoop_sound h
  have hmap : (lgChanReevaluate c).2.net.chanMap = (reevaluateLoop c).1 :=
    if_neg (Nat.not_lt.mpr hloop.enough)
  change LockGrid.MapSound cfg (lgChanReevaluate c).2.net.chanMap (reevaluateLoop c).2
  rw [hmap]
  exact hloop

/-- A call of `lg_chan.c` that writes to the map or to the statistics, or anything else that goes
on at a node. -/
inductive ChanStep (c : Node cfg) : Node cfg → Prop
  | result (chan : ℕ) (ok : Bool) : ChanStep c (lgChanResult c chan ok)
  | noise (chan : ℕ) (dbm : ℤ) : ChanStep c (lgChanNoise c chan dbm)
  | reevaluate : ChanStep c (lgChanReevaluate c).2
  | other {d : Node cfg} (hchan : d.net.chan = c.net.chan)
      (hmap : d.net.chanMap = c.net.chanMap) : ChanStep c d

theorem ChanStep.sound (h : ChanStep c d) (hc : c.MapSound) : d.MapSound := by
  cases h with
  | result chan ok => exact lgChanResult_sound hc chan ok
  | noise chan dbm => exact lgChanNoise_sound hc chan dbm
  | reevaluate => exact lgChanReevaluate_sound hc
  | other hchan hmap =>
    unfold Node.MapSound
    rw [hchan, hmap]
    exact hc

/-- From `lg_chan_init` on the map always has enough channels, it has just those that are not
marked as retired, the counters decay in time, and there is never a need for the preferred
channels. -/
theorem map_sound {c₀ : Node cfg} (h : Relation.ReflTransGen ChanStep (lgChanInit c₀) c) :
    c.MapSound ∧ c.NoFallback := by
  have hsound : c.MapSound := by
    induction h with
    | refl => exact lgChanInit_sound c₀
    | tail _ hstep ih => exact hstep.sound ih
  exact ⟨hsound, hsound.noFallback⟩

/-- A channel that is too noisy leaves the map. -/
def noisyRun : Node .default :=
  let c := lgChanInit (Node.boot .default ⟨7, 7, 1, [], [], []⟩)
  (lgChanReevaluate (lgChanNoise c 15 (-40))).2

theorem map_sound_noisy :
    lgChanMapCount noisyRun.net.chanMap = 15 ∧ noisyRun.MapSound ∧ noisyRun.NoFallback := by
  have hrun : Relation.ReflTransGen ChanStep
      (lgChanInit (Node.boot .default ⟨7, 7, 1, [], [], []⟩)) noisyRun :=
    (Relation.ReflTransGen.single (.noise 15 (-40))).tail .reevaluate
  exact ⟨by decide +kernel, map_sound hrun⟩

end LockGrid
