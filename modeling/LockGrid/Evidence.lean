import LockGrid.Promises

/-!
# What a channel is charged with

`lg_chan_result` is called where a frame comes in, where none does, and where the event is settled
without one. The calls of a run are put down to its link events, each under its number.
-/
namespace LockGrid

variable {cfg : Config} {psa : Psa} {c c' d : Node cfg} {o : Oracle} {inp : Input}

/-! ## The calls of `lg_chan_result` -/

/-- The calls in a step, with the channel and the outcome of each. -/
def chanResults (c : Node cfg) : Input → List (ℕ × Bool)
  | .refused =>
    match c.ev.kind, c.ev.neigh with
    | .link, some i => [(lgLinkNextChan (c.neigh i).sched, false)]
    | _, _ => []
  | .rxDone _ =>
    match c.ev.kind, c.ev.neigh with
    | .link, some _ => [(c.ev.chan, true)]
    | _, _ => []
  | .rxFailed reason =>
    match c.ev.kind, c.ev.neigh with
    | .link, some _ => failCharges c reason
    | _, _ => []
  | .finishWork _ =>
    match c.finishKind, c.finishNeigh with
    | .link, some i => missCharges c i
    | _, _ => []
  | _ => []

/-- What is counted of a channel. -/
def ChanStat.frames (s : ChanStat) : ℕ × ℕ := (s.framesOk, s.framesBad)

/-- `lg_start` forgets the counts, and the evaluation of the channels may. -/
def clearsCounts (c : Node cfg) : Input → Prop
  | .start => True
  | .finishWork _ => c.finishKind = .chanEval
  | _ => False

theorem lgDiscBeaconFinish_chan (psa : Psa) (o : Oracle) (c : Node cfg) :
    (lgDiscBeaconFinish psa o c).net.chan = c.net.chan := rfl

theorem schedPick_chan (h : schedPick psa o c = some d) : d.net.chan = c.net.chan := by
  have hall : ∀ {c d : Node cfg}, d.charts = c.charts → d.net.chan = c.net.chan :=
    fun hcharts => congrArg Prod.fst hcharts
  cases schedPick_beacon h with
  | @late a e _ _ _ hcharts he =>
    rw [he, lgDiscBeaconFinish_chan]
    exact hall hcharts
  | asked _ _ _ _ hcharts => exact hall hcharts
  | other _ hcharts => exact hall hcharts

theorem settle_chan (hk : c.finishKind ≠ .chanEval) (h : settle psa o c = some d) (inp' : Oracle) :
    d.net.chan = chargeAll (chanResults c (.finishWork inp')) c.net.chan := by
  have hall : ∀ {c d : Node cfg}, d.charts = c.charts → d.net.chan = c.net.chan :=
    fun hcharts => congrArg Prod.fst hcharts
  unfold settle at h
  unfold chanResults
  split at h
  · next hkind =>
    rw [hkind]
    split at h <;> next hneigh =>
      cases h
      rw [hneigh]
      first
        | exact congrArg Prod.fst (lgLinkEventFinish_charts psa o c _)
        | rfl
  · next hkind =>
    cases h
    rw [hkind]
    exact (hall (lgRoleEvaluate_charts o _)).trans (lgDiscBeaconFinish_chan psa o c)
  · next hkind =>
    cases h
    rw [hkind]
    exact hall (lgRoleEvaluate_charts o (lgDiscScanFinish o c))
  · next hkind =>
    rw [hkind]
    exact hall (lgJoinEventFinish_charts h)
  · next hkind =>
    rw [hkind]
    exact hall (lgJoinEventFinish_charts h)
  · next hkind => exact absurd hkind hk
  · next hkind =>
    cases h
    rw [hkind]
    rfl
  · next hkind =>
    cases h
    rw [hkind]
    rfl

theorem lgChanNoise_frames (c : Node cfg) (chan : ℕ) (dbm : ℤ) (k : Fin chanCount) :
    ((lgChanNoise c chan dbm).net.chan k).frames = (c.net.chan k).frames := by
  unfold lgChanNoise
  split
  · rfl
  · next i _ =>
    split
    · rfl
    · by_cases hki : k = i
      · subst hki
        simp [setChan, ChanStat.frames]
      · simp [setChan, Function.update_of_ne hki]

theorem granted_frames (psa : Psa) (o : Oracle) (c : Node cfg) (k : Fin chanCount) :
    ((tsGranted psa o c).net.chan k).frames = (c.net.chan k).frames := by
  have hall : ∀ {d : Node cfg}, d.charts.1 = c.net.chan →
      (d.net.chan k).frames = (c.net.chan k).frames :=
    fun hcharts => congrArg (fun f => (f k).frames) hcharts
  unfold tsGranted
  dsimp only
  split
  · exact hall (congrArg Prod.fst (command_charts o _ _))
  · exact hall (congrArg Prod.fst (beaconStart_charts o _))
  · exact hall (congrArg Prod.fst (command_charts o _ _))
  · exact hall (congrArg Prod.fst (command_charts o _ _))
  · exact hall (congrArg Prod.fst (joinTxStart_charts psa o _))
  · exact hall (congrArg Prod.fst (joinRxStart_charts o _))
  · exact lgChanNoise_frames { c with granted := true } c.ev.chan o.noiseDbm k
  · rfl

/-- The handlers of the arbiter and of the PHY. -/
theorem interrupt_counted (hi : inp.isInterrupt = true) (h : perform psa o c inp = some c')
    (k : Fin chanCount) :
    (c'.net.chan k).frames = (chargeAll (chanResults c inp) c.net.chan k).frames := by
  have hall : ∀ {d : Node cfg}, d.charts.1 = chargeAll (chanResults c inp) c.net.chan →
      (d.net.chan k).frames = (chargeAll (chanResults c inp) c.net.chan k).frames :=
    fun hcharts => congrArg (fun f => (f k).frames) hcharts
  cases inp with
  | granted =>
    cases h
    exact granted_frames psa o c k
  | refused =>
    cases h
    refine hall ?_
    unfold tsFailed
    split
    · next hk =>
      simp only [chanResults, hk]
      rfl
    · next i hk hn =>
      simp only [chanResults, hk, hn]
      exact congrArg Prod.fst (lgLinkEventMiss_charts o c i)
    · next hk =>
      simp only [chanResults, hk]
      exact congrArg Prod.fst (trackResult_charts c false)
    · next hk =>
      simp only [chanResults, hk]
      rfl
    · next hk =>
      simp only [chanResults, hk]
      rfl
    · simp only [chanResults]
      rfl
  | txDone airEndUs =>
    cases h
    refine hall ?_
    unfold phyTxDone
    split
    · exact congrArg Prod.fst (linkTxDone_charts o c _)
    · exact congrArg Prod.fst (beaconTxDone_charts o c airEndUs)
    · exact congrArg Prod.fst (joinTxDone_charts psa o c airEndUs)
    · rfl
  | rxDone rx =>
    cases h
    refine hall ?_
    unfold phyRxDone
    split
    · next i hk hn =>
      simp only [chanResults, hk, hn]
      exact congrArg Prod.fst (linkRxDone_charts o c i rx)
    · next hk =>
      simp only [chanResults, hk]
      exact congrArg Prod.fst (scanRxDone_charts o c rx)
    · next hk =>
      simp only [chanResults, hk]
      exact congrArg Prod.fst ((trackResult_charts _ true).trans (lgRxPost_charts c rx))
    · next hk =>
      simp only [chanResults, hk]
      exact congrArg Prod.fst (joinRxDone_charts o c rx)
    · simp only [chanResults]
      rfl
  | rxFailed reason =>
    cases h
    refine hall ?_
    unfold phyRxFailed
    split
    · next i hk hn =>
      simp only [chanResults, hk, hn]
      exact congrArg Prod.fst (linkRxFail_charts c i reason)
    · next hk =>
      simp only [chanResults, hk]
      exact congrArg Prod.fst (joinRxFail_charts o c reason)
    · next hk =>
      simp only [chanResults, hk]
      exact congrArg Prod.fst (joinRxFail_charts o c reason)
    · next hk =>
      simp only [chanResults, hk]
      exact congrArg Prod.fst (trackResult_charts c false)
    · simp only [chanResults]
      rfl
  | _ => cases hi

/-- The counts of a channel are changed by the calls of `lg_chan_result` alone. -/
theorem chanResults_counted (hkeep : ¬clearsCounts c inp) (h : perform psa o c inp = some c')
    (k : Fin chanCount) :
    (c'.net.chan k).frames = (chargeAll (chanResults c inp) c.net.chan k).frames := by
  have hall : ∀ {d : Node cfg}, d.net.chan = chargeAll (chanResults c inp) c.net.chan →
      (d.net.chan k).frames = (chargeAll (chanResults c inp) c.net.chan k).frames :=
    fun hchan => congrArg (fun f => (f k).frames) hchan
  cases inp with
  | tick us =>
    cases h
    rfl
  | schedWork => exact hall (schedPick_chan h)
  | finishWork o' =>
    change schedFinish psa o o' c = some c' at h
    unfold schedFinish at h
    cases hs : settle psa o c with
    | none =>
      rw [hs] at h
      cases h
    | some d =>
      rw [hs] at h
      exact hall ((schedPick_chan h).trans (settle_chan hkeep hs o'))
  | rxWork => exact hall (congrArg Prod.fst (rxHandler_charts h))
  | granted | refused | txDone airEndUs | rxDone rx | rxFailed reason =>
    exact interrupt_counted rfl h k
  | send dst port payload flags =>
    cases h
    exact hall (congrArg Prod.fst (lgSend_charts c dst port payload flags))
  | backhaulSet up =>
    cases h
    exact hall (congrArg Prod.fst (lgBackhaulSet_charts o c up))
  | tuningSet t =>
    cases h
    rfl
  | start => exact absurd trivial hkeep
  | stop =>
    cases h
    exact hall (congrArg Prod.fst (lgStop_charts o c))

/-! ## Link events -/

/-- The link event `e` is on, or waits for its settlement. -/
def pendingLink (c : Node cfg) (e : ℕ) : Prop :=
  (c.ev.kind = .link ∧ c.ev.histNo = e) ∨ (c.finishKind = .link ∧ c.histFinishNo = e)

instance (c : Node cfg) (e : ℕ) : Decidable (pendingLink c e) := instDecidableOr

/-- What a link event came to: the channel that the radio was granted for, if it was; whether the
node listened there; and the outcomes that were charged. -/
structure Outing where
  granted : Option ℕ := none
  listened : Bool := false
  charged : List (ℕ × Bool) := []
  deriving DecidableEq, Repr

/-- The link event that a step is about. -/
def linkEventOf (c : Node cfg) : Input → Option ℕ
  | .granted | .refused | .txDone _ | .rxDone _ | .rxFailed _ =>
    if c.ev.kind = .link then some c.ev.histNo else none
  | .finishWork _ => if c.finishKind = .link then some c.histFinishNo else none
  | _ => none

/-- After a step from `c` to `c'` that is about the event. -/
def Outing.after (c c' : Node cfg) (inp : Input) (r : Outing) : Outing where
  granted := match inp with
    | .granted => some c.ev.chan
    | _ => r.granted
  listened := r.listened || (inp.isInterrupt && c'.phy = .rx)
  charged := r.charged ++ chanResults c inp

/-- A node, and what its link events came to. -/
structure Outings (cfg : Config) where
  node : Node cfg
  of : ℕ → Outing := fun _ => {}

namespace Outings

variable (s : Outings cfg)

def boot (cfg : Config) (ident : Identity) : Outings cfg where
  node := .boot cfg ident

/-- After a step to `c'`. -/
def after (inp : Input) (c' : Node cfg) : Outings cfg where
  node := c'
  of := match linkEventOf s.node inp with
    | none => s.of
    | some e => Function.update s.of e ((s.of e).after s.node c' inp)

/-- A step that meets the condition `P`. -/
def Step (psa : Psa) (P : Outings cfg → Input → Prop) (s s' : Outings cfg) : Prop :=
  ∃ o inp c', Enabled s.node inp ∧ P s inp ∧ perform psa o s.node inp = some c' ∧
    s' = s.after inp c'

/-- Nothing is charged of an event that the radio was not granted for, and of one that it was no
more than one outcome, to its channel; of one that is over, and in which the node listened, one
is. -/
def Evident : Prop :=
  ∀ e, ((s.of e).granted = none → (s.of e).charged = []) ∧
    (∀ x ∈ (s.of e).charged, (s.of e).granted = some x.1) ∧ (s.of e).charged.length ≤ 1 ∧
    (¬pendingLink s.node e → (s.of e).listened = true → (s.of e).charged.length = 1)

/-- The node listens in a link event. -/
def Listening : Prop := s.node.ev.kind = .link ∧ s.node.phy = .rx

instance : Decidable s.Listening := instDecidableAnd

/-- No link event is refused, ends with a CRC error or a timeout, or is broken off by `lg_start` or
`lg_stop` while the node listens; `sched_work` leaves one that is over to its settlement; and there
the channel that is computed anew for one without a frame is the one it was on. -/
def Undisturbed : Input → Prop
  | .schedWork => s.node.finishKind ≠ .link
  | .refused => s.node.ev.kind ≠ .link
  | .rxFailed reason => s.node.ev.kind = .link → reason ≠ .crc ∧ reason ≠ .timeout
  | .finishWork _ => s.node.finishKind = .link → s.node.evst.gotRx = false →
      ∀ i ∈ s.node.finishNeigh, (s.of s.node.histFinishNo).granted =
        some (lgLinkNextChan (s.node.neigh i).sched)
  | .start => s.Listening → s.node.started = true
  | .stop => s.Listening → s.node.started = false
  | _ => True

instance (inp : Input) : Decidable (s.Undisturbed inp) := by
  rcases inp <;> unfold Undisturbed <;> infer_instance

end Outings

/-! ## Where a link event is -/

/-- The event that is on: asked for, or with its first frame, its reception or its reply. -/
inductive Outing.On (c : Node cfg) (r : Outing) : Prop
  | asked (hphy : c.phy = .idle) (h : r = {})
  | sending (hgo : c.granted = true) (hphy : c.phy = .tx) (hfirst : c.evst.txFirst = true)
    (hgot : c.evst.gotRx = false) (h : r = ⟨some c.ev.chan, false, []⟩)
  | listening (hgo : c.granted = true) (hphy : c.phy = .rx) (hgot : c.evst.gotRx = false)
    (h : r = ⟨some c.ev.chan, true, []⟩)
  | replying (hgo : c.granted = true) (hphy : c.phy = .tx) (hfirst : c.evst.txFirst = false)
    (hgot : c.evst.gotRx = true) (h : r = ⟨some c.ev.chan, true, [(c.ev.chan, true)]⟩)

/-- An event that waits for its settlement. -/
inductive Outing.Awaits (gotRx : Bool) (r : Outing) : Prop
  | heard (k : ℕ) (hgot : gotRx = true) (h : r = ⟨some k, true, [(k, true)]⟩)
  | unheard (k : ℕ) (l : Bool) (hgot : gotRx = false) (h : r = ⟨some k, l, []⟩)

/-- What is charged of an event is its own. -/
structure Outing.Fair (r : Outing) : Prop where
  place : ∀ x ∈ r.charged, r.granted = some x.1
  once : r.charged.length ≤ 1

/-- An event that is over. -/
structure Outing.Past (r : Outing) : Prop extends Outing.Fair r where
  heard : r.listened = true → r.charged.length = 1

namespace Outing

variable {r : Outing}

theorem Past.none : ({} : Outing).Past := ⟨⟨nofun, Nat.zero_le 1⟩, nofun⟩

theorem On.fair (h : r.On c) : r.Fair := by
  cases h with
  | asked _ h => exact h ▸ Past.none.toFair
  | sending _ _ _ _ h => exact h ▸ ⟨nofun, Nat.zero_le 1⟩
  | listening _ _ _ h => exact h ▸ ⟨nofun, Nat.zero_le 1⟩
  | replying _ _ _ _ h => exact h ▸ ⟨by simp, le_refl 1⟩

/-- An event that is broken off while the node does not listen. -/
theorem On.past (h : r.On c) (hphy : c.phy ≠ .rx) : r.Past := by
  refine ⟨h.fair, fun hl => ?_⟩
  cases h with
  | asked _ h =>
    rw [h] at hl
    cases hl
  | sending _ _ _ _ h =>
    rw [h] at hl
    cases hl
  | listening _ hrx => exact absurd hrx hphy
  | replying _ _ _ _ h =>
    rw [h]
    rfl

theorem Awaits.fair {gotRx : Bool} (h : r.Awaits gotRx) : r.Fair := by
  cases h with
  | heard k _ h => exact h ▸ ⟨by simp, le_refl 1⟩
  | unheard k l _ h => exact h ▸ ⟨nofun, Nat.zero_le 1⟩

end Outing

/-- The event that is on, the one that waits, and how many there have been. -/
def Node.beat (c : Node cfg) :
    Evst × Event cfg × EvKind × Option (Fin cfg.maxNeighbors) × ℕ × Phy × Bool × ℕ :=
  (c.evst, c.ev, c.finishKind, c.finishNeigh, c.histFinishNo, c.phy, c.granted, c.hist.events)

theorem beat_of_radio (h : d.radio = c.radio) : d.beat = c.beat := by
  simp only [Node.radio, Prod.mk.injEq] at h
  obtain ⟨hevst, hev, hfk, hfn, hno, hphy, -, hevents, -, hgo⟩ := h
  simp only [Node.beat, hevst, hev, hfk, hfn, hno, hphy, hevents, hgo]

theorem Aside.beat (h : Aside c d) : d.beat = c.beat := beat_of_radio h.radio

theorem Outing.On.congr {r : Outing} (h : r.On c) (hevst : d.evst = c.evst) (hev : d.ev = c.ev)
    (hphy : d.phy = c.phy) (hgo : d.granted = c.granted) : r.On d := by
  cases h with
  | asked hp h => exact .asked (hphy.trans hp) h
  | sending hg hp hf hr h =>
    exact .sending (hgo.trans hg) (hphy.trans hp) (hevst ▸ hf) (hevst ▸ hr) (hev ▸ h)
  | listening hg hp hr h => exact .listening (hgo.trans hg) (hphy.trans hp) (hevst ▸ hr) (hev ▸ h)
  | replying hg hp hf hr h =>
    exact .replying (hgo.trans hg) (hphy.trans hp) (hevst ▸ hf) (hevst ▸ hr) (hev ▸ h)

/-- What the link events of a run came to agrees with where the scheduler is. -/
structure Booked (c : Node cfg) (g : ℕ → Outing) : Prop where
  fresh : ∀ e, c.hist.events < e → g e = {}
  evNo : c.ev.histNo ≤ c.hist.events
  finNo : c.finishKind = .link → c.histFinishNo ≤ c.hist.events
  alone : c.finishKind = .link → c.ev.kind = .none ∧ c.phy = .idle
  partner : c.ev.kind = .link → ∃ i, c.ev.neigh = some i
  finPartner : c.finishKind = .link → ∃ i, c.finishNeigh = some i
  on : c.ev.kind = .link → (g c.ev.histNo).On c
  awaits : c.finishKind = .link → (g c.histFinishNo).Awaits c.evst.gotRx
  past : ∀ e, ¬pendingLink c e → (g e).Past

/-- What is planned for a link event names the link. -/
theorem eventPlan_partner (c : Node cfg) {cand : Candidate cfg}
    (hk : (eventPlan c cand).1.kind = .link)
    (hn : cand.kind = .link → ∃ i, cand.neigh = some i) :
    ∃ i, (eventPlan c cand).1.neigh = some i := by
  rw [eventPlan_kind] at hk
  obtain ⟨i, hi⟩ := hn hk
  unfold eventPlan
  simp only [hk, hi]
  exact ⟨i, rfl⟩

namespace Booked

variable {g : ℕ → Outing} {r : Outing}

theorem boot (ident : Identity) : Booked (Node.boot cfg ident) fun _ => {} :=
  ⟨fun _ _ => rfl, le_refl _, nofun, nofun, nofun, nofun, nofun, nofun, fun _ _ => .none⟩

theorem of_beat (h : Booked c g) (hb : d.beat = c.beat) : Booked d g := by
  simp only [Node.beat, Prod.mk.injEq] at hb
  obtain ⟨hevst, hev, hfk, hfn, hno, hphy, hgo, hevents⟩ := hb
  refine ⟨?_, ?_, ?_, ?_, ?_, ?_, ?_, ?_, ?_⟩
  · rw [hevents]
    exact h.fresh
  · rw [hev, hevents]
    exact h.evNo
  · rw [hfk, hno, hevents]
    exact h.finNo
  · rw [hfk, hev, hphy]
    exact h.alone
  · rw [hev]
    exact h.partner
  · rw [hfk, hfn]
    exact h.finPartner
  · rw [hev]
    exact fun hk => (h.on hk).congr hevst hev hphy hgo
  · rw [hfk, hno, hevst]
    exact h.awaits
  · intro e he
    refine h.past e ?_
    unfold pendingLink at he ⊢
    rw [← hev, ← hfk, ← hno]
    exact he

theorem not_waiting (h : Booked c g) (hbusy : c.ev.kind ≠ .none ∨ c.phy ≠ .idle) :
    c.finishKind ≠ .link := by
  intro hf
  obtain ⟨hev, hphy⟩ := h.alone hf
  rcases hbusy with hk | hp
  · exact hk hev
  · exact hp hphy

/-- With none that waits, the events that are over are all but the one that is on. -/
theorem past_of_ne (h : Booked c g) (hfin : c.finishKind ≠ .link) {e : ℕ}
    (he : c.ev.kind = .link → c.ev.histNo ≠ e) : (g e).Past := by
  refine h.past e ?_
  rintro (⟨hk, hno⟩ | ⟨hf, -⟩)
  · exact he hk hno
  · exact hfin hf

/-- The event that is on goes on. -/
theorem goes (h : Booked c g) (hk : c.ev.kind = .link) (hev : d.ev = c.ev)
    (hfk : d.finishKind = c.finishKind) (hevents : d.hist.events = c.hist.events) (hr : r.On d) :
    Booked d (Function.update g c.ev.histNo r) := by
  have hfin := h.not_waiting (.inl (by rw [hk]; nofun))
  have hnot : d.finishKind ≠ .link := hfk ▸ hfin
  refine ⟨fun e he => ?_, ?_, fun hf => absurd hf hnot, fun hf => absurd hf hnot, ?_,
    fun hf => absurd hf hnot, fun _ => ?_, fun hf => absurd hf hnot, fun e he => ?_⟩
  · rw [hevents] at he
    have hno := h.evNo
    rw [Function.update_of_ne (by omega)]
    exact h.fresh e he
  · rw [hev, hevents]
    exact h.evNo
  · rw [hev]
    exact h.partner
  · rw [hev, Function.update_self]
    exact hr
  · have hne : e ≠ c.ev.histNo := fun heq => he (.inl (hev ▸ ⟨hk, heq.symm⟩))
    rw [Function.update_of_ne hne]
    exact h.past_of_ne hfin fun _ hno => hne hno.symm

/-- The event that is on is over. -/
theorem ends (h : Booked c g) (hk : c.ev.kind = .link) (hev : d.ev = c.ev)
    (hevents : d.hist.events = c.hist.events) (hr : r.Awaits d.evst.gotRx) :
    Booked (lgSchedEventDone d) (Function.update g c.ev.histNo r) := by
  have hfin := h.not_waiting (.inl (by rw [hk]; nofun))
  have hno : (lgSchedEventDone d).histFinishNo = c.ev.histNo := congrArg Event.histNo hev
  refine ⟨fun e he => ?_, ?_, fun _ => ?_, fun _ => ⟨rfl, rfl⟩, nofun, fun _ => ?_, nofun,
    fun _ => ?_, fun e he => ?_⟩
  · change d.hist.events < e at he
    rw [hevents] at he
    have hle := h.evNo
    rw [Function.update_of_ne (by omega)]
    exact h.fresh e he
  · change d.ev.histNo ≤ d.hist.events
    rw [hev, hevents]
    exact h.evNo
  · change d.ev.histNo ≤ d.hist.events
    rw [hev, hevents]
    exact h.evNo
  · change ∃ i, d.ev.neigh = some i
    rw [hev]
    exact h.partner hk
  · rw [hno, Function.update_self]
    exact hr
  · have hne : e ≠ c.ev.histNo := by
      intro heq
      refine he (.inr ⟨?_, hno.trans heq.symm⟩)
      change d.ev.kind = .link
      rw [hev]
      exact hk
    rw [Function.update_of_ne hne]
    exact h.past_of_ne hfin fun _ hno => hne hno.symm

/-- The radio takes the next command, or the event is over. -/
theorem commands (h : Booked c g) (hk : c.ev.kind = .link) (hev : d.ev = c.ev)
    (hfk : d.finishKind = c.finishKind) (hevents : d.hist.events = c.hist.events) {p : Phy}
    (hon : o.phyOk = true → r.On { d with phy := p }) (hover : o.phyOk ≠ true →
      r.Awaits d.evst.gotRx) :
    Booked (command o d p) (Function.update g c.ev.histNo r) := by
  unfold command
  split
  · next hok => exact h.goes hk hev hfk hevents (hon hok)
  · next hok => exact h.ends hk hev hevents (hover hok)

/-- An event of another kind. -/
theorem winds (h : Booked c g) (hk : c.ev.kind ≠ .link) (hfin : c.finishKind ≠ .link)
    (hw : Winds c d) : Booked d g := by
  cases hw with
  | on ha => exact h.of_beat ha.beat
  | @tuned e ha p =>
    have he := h.of_beat ha.beat
    have hev : e.ev = c.ev := congrArg Prod.fst ha.slot
    have hfk : e.finishKind = c.finishKind := congrArg (fun r => r.2.1) ha.slot
    exact ⟨he.fresh, he.evNo, he.finNo, fun hf => absurd (hfk ▸ hf) hfin, he.partner,
      he.finPartner, fun hl => absurd (hev ▸ hl) hk, he.awaits, he.past⟩
  | @done e ha =>
    have he := h.of_beat ha.beat
    have hev : e.ev = c.ev := congrArg Prod.fst ha.slot
    have hnot : (lgSchedEventDone e).finishKind ≠ .link := by
      change e.ev.kind ≠ .link
      rw [hev]
      exact hk
    refine ⟨he.fresh, he.evNo, fun hf => absurd hf hnot, fun hf => absurd hf hnot, nofun,
      fun hf => absurd hf hnot, nofun, fun hf => absurd hf hnot, fun x _ => ?_⟩
    exact h.past_of_ne hfin fun hl => absurd hl hk

/-- No event is on any more. -/
theorem drops (h : Booked c g) (hphy : c.ev.kind = .link → c.phy ≠ .rx) (hev : d.ev.kind = .none)
    (hno : d.ev.histNo = c.ev.histNo) (hevents : d.hist.events = c.hist.events)
    (hevst : d.evst = c.evst) (hfin : d.finishKind = c.finishKind ∧
      d.finishNeigh = c.finishNeigh ∧ d.histFinishNo = c.histFinishNo)
    (hidle : c.phy = .idle → d.phy = .idle) : Booked d g := by
  obtain ⟨hfk, hfn, hfno⟩ := hfin
  have hnot : d.ev.kind ≠ .link := by
    rw [hev]
    nofun
  refine ⟨hevents ▸ h.fresh, by rw [hno, hevents]; exact h.evNo, ?_, fun hf => ?_,
    fun hl => absurd hl hnot, ?_, fun hl => absurd hl hnot, ?_, fun e he => ?_⟩
  · rw [hfk, hfno, hevents]
    exact h.finNo
  · rw [hfk] at hf
    exact ⟨hev, hidle (h.alone hf).2⟩
  · rw [hfk, hfn]
    exact h.finPartner
  · rw [hfk, hfno, hevst]
    exact h.awaits
  · by_cases hon : c.ev.kind = .link ∧ c.ev.histNo = e
    · exact hon.2 ▸ (h.on hon.1).past (hphy hon.1)
    · refine h.past e (not_or.mpr ⟨hon, fun hf => he (.inr ?_)⟩)
      rw [hfk, hfno]
      exact hf

/-- An event of another kind has been settled. -/
theorem clear (h : Booked c g) (hfin : c.finishKind ≠ .link) :
    Booked { c with finishKind := .none, finishNeigh := none } g := by
  refine ⟨h.fresh, h.evNo, nofun, nofun, h.partner, nofun,
    fun hk => (h.on hk).congr rfl rfl rfl rfl, nofun, fun e he => ?_⟩
  exact h.past_of_ne hfin fun hk hno => he (.inl ⟨hk, hno⟩)

/-- A link event has been settled. -/
theorem settle (h : Booked c g) (hfin : c.finishKind = .link) (hr : r.Past) :
    Booked { c with finishKind := .none, finishNeigh := none }
      (Function.update g c.histFinishNo r) := by
  have hnot : c.ev.kind ≠ .link := by
    rw [(h.alone hfin).1]
    nofun
  refine ⟨fun e he => ?_, h.evNo, nofun, nofun, h.partner, nofun, fun hk => absurd hk hnot, nofun,
    fun e _ => ?_⟩
  · change c.hist.events < e at he
    have hle := h.finNo hfin
    rw [Function.update_of_ne (by omega)]
    exact h.fresh e he
  · by_cases he : e = c.histFinishNo
    · rw [he, Function.update_self]
      exact hr
    · rw [Function.update_of_ne he]
      refine h.past e ?_
      rintro (⟨hk, -⟩ | ⟨-, hno⟩)
      · exact hnot hk
      · exact he hno.symm

/-- The event that is asked for is a new one. -/
theorem asks (h : Booked c g) (hfin : c.finishKind ≠ .link) (hev : c.ev.kind = .none)
    (hphy : c.phy = .idle) (ev : Event cfg) (hn : ev.kind = .link → ∃ i, ev.neigh = some i) :
    Booked { c with
      ev := { ev with histNo := c.hist.events + 1 }
      hist := { c.hist with events := c.hist.events + 1 } } g := by
  have hnew : g (c.hist.events + 1) = {} := h.fresh _ (Nat.lt_succ_self _)
  refine ⟨fun e he => h.fresh e (Nat.lt_of_succ_lt he), le_refl _, fun hf => absurd hf hfin,
    fun hf => absurd hf hfin, hn, fun hf => absurd hf hfin, fun _ => .asked hphy hnew,
    fun hf => absurd hf hfin, fun e _ => ?_⟩
  refine h.past_of_ne hfin fun hk => ?_
  rw [hev] at hk
  cases hk

/-- The scheduler asks for an event, or leaves it at that. -/
theorem pick (h : Booked c g) (hfin : c.finishKind ≠ .link) (hp : schedPick psa o c = some d) :
    Booked d g := by
  unfold schedPick at hp
  split at hp
  · cases hp
    exact h
  · next hguard =>
    simp only [Bool.or_eq_true, decide_eq_true_eq, not_or, not_not] at hguard
    split at hp
    · cases hp
    · next l e hc =>
      have he := candidates_aside hc
      split at hp
      · cases hp
        exact h.of_beat he.beat
      · next cand hsel =>
        have hs := (beat_of_radio (stageFor_radio psa o e cand)).trans he.beat
        dsimp only at hp
        split at hp
        · generalize (stageFor psa o e cand).2 = e' at hs hp
          have hplan := (Aside.of_quiet (eventPlan_quiet e' cand)).beat.trans hs
          unfold requestEvent at hp
          dsimp only at hp
          split at hp
          · exact h.of_beat ((dropLate_aside hp).beat.trans hplan)
          · split at hp <;> cases hp
            · exact h.of_beat hplan
            · have hasked := h.of_beat hplan
              have hpartner : (eventPlan e' cand).1.kind = .link →
                  ∃ i, (eventPlan e' cand).1.neigh = some i := fun hk =>
                eventPlan_partner e' hk
                  ((candidates_wanted hc cand (selectCandidate_mem hsel)).partner)
              simp only [Node.beat, Prod.mk.injEq] at hplan
              obtain ⟨-, hev, hfk, -, -, hphy, -, -⟩ := hplan
              exact hasked.asks (hfk ▸ hfin) (hev ▸ hguard.1.1.2) (hphy.trans hguard.2) _ hpartner
        · cases hp
          exact h.of_beat hs

end Booked

/-! ## Steps -/

/-- The handlers of an event of another kind. -/
theorem interrupt_winds (hi : inp.isInterrupt = true) (hk : c.ev.kind ≠ .link)
    (h : perform psa o c inp = some c') : ∃ b, Winds { c with granted := b } c' := by
  have hplain : ∀ {d : Node cfg}, Winds c d → ∃ b, Winds { c with granted := b } d :=
    fun hw => ⟨c.granted, hw⟩
  cases inp with
  | granted =>
    cases h
    unfold tsGranted
    dsimp only
    split
    · next hl _ => exact absurd hl hk
    · exact ⟨true, beaconStart_winds o _⟩
    · exact ⟨true, .command (.refl _) o .rx⟩
    · exact ⟨true, .command (.refl _) o .rx⟩
    · exact ⟨true, joinTxStart_winds psa o _⟩
    · exact ⟨true, joinRxStart_winds o _⟩
    · exact ⟨true, .done (.of_quiet (lgChanNoise_quiet _ _ _))⟩
    · exact ⟨false, .on (.refl _)⟩
  | refused =>
    cases h
    refine hplain ?_
    unfold tsFailed
    split
    · exact .on (.refl c)
    · next hl _ => exact absurd hl hk
    · exact .done (trackResult_aside c false)
    · exact .done (setHs_aside c _)
    · exact .done (setHs_aside c _)
    · exact .done (.refl c)
  | txDone airEndUs =>
    cases h
    refine hplain ?_
    unfold phyTxDone
    split
    · next hl _ => exact absurd hl hk
    · exact beaconTxDone_winds o c airEndUs
    · exact joinTxDone_winds psa o c airEndUs
    · exact .done (.refl c)
  | rxDone rx =>
    cases h
    refine hplain ?_
    unfold phyRxDone
    split
    · next hl _ => exact absurd hl hk
    · exact scanRxDone_winds o c rx
    · exact .done ((lgRxPost_aside c rx).trans (trackResult_aside _ true))
    · exact joinRxDone_winds o c rx
    · exact .done (.refl c)
  | rxFailed reason =>
    cases h
    refine hplain ?_
    unfold phyRxFailed
    split
    · next hl _ => exact absurd hl hk
    · exact joinRxFail_winds o c reason
    · exact joinRxFail_winds o c reason
    · exact .done (trackResult_aside c false)
    · exact .done (.refl c)
  | _ => cases hi

namespace Booked

variable {g : ℕ → Outing} {i : Fin cfg.maxNeighbors}

/-- The radio is granted for a link event. -/
theorem granted (h : Booked c g) (hk : c.ev.kind = .link) (hn : c.ev.neigh = some i)
    (hgo : c.granted = false) : Booked (tsGranted psa o c) (Function.update g c.ev.histNo
      ((g c.ev.histNo).after c (tsGranted psa o c) .granted)) := by
  have hr : g c.ev.histNo = {} := by
    cases h.on hk with
    | asked _ hr => exact hr
    | sending hg => cases hgo.symm.trans hg
    | listening hg => cases hgo.symm.trans hg
    | replying hg => cases hgo.symm.trans hg
  have hstart : tsGranted psa o c = linkStart o { c with granted := true } i := by
    unfold tsGranted
    simp only [hk, hn]
  rw [hr, hstart]
  unfold linkStart command
  dsimp only
  by_cases hok : o.phyOk = true
  · simp only [if_pos hok]
    cases hfirst : (c.neigh i).sched.initiator with
    | true => exact h.goes hk rfl rfl rfl (.sending rfl rfl rfl rfl rfl)
    | false => exact h.goes hk rfl rfl rfl (.listening rfl rfl rfl rfl)
  · simp only [if_neg hok]
    exact h.ends hk rfl rfl (.unheard c.ev.chan false rfl rfl)

/-- A frame of a link event has gone out. -/
theorem txDone (h : Booked c g) (hk : c.ev.kind = .link) (hn : c.ev.neigh = some i)
    (hphy : c.phy = .tx) (airEndUs : ℕ) :
    Booked (phyTxDone psa o c airEndUs) (Function.update g c.ev.histNo
      ((g c.ev.histNo).after c (phyTxDone psa o c airEndUs) (.txDone airEndUs))) := by
  have hdone : phyTxDone psa o c airEndUs = linkTxDone o c i := by
    unfold phyTxDone
    simp only [hk, hn]
  rw [hdone]
  cases h.on hk with
  | asked hidle => cases hphy.symm.trans hidle
  | listening _ hrx => cases hphy.symm.trans hrx
  | sending hgo _ hfirst hgot hr =>
    -- the initiator listens for the reply
    rw [hr]
    unfold linkTxDone command
    simp only [hfirst, Bool.not_true, Bool.false_eq_true, if_false]
    by_cases hok : o.phyOk = true
    · simp only [if_pos hok]
      exact h.goes hk rfl rfl rfl (.listening hgo rfl hgot rfl)
    · simp only [if_neg hok]
      exact h.ends hk rfl rfl (.unheard c.ev.chan false hgot rfl)
  | replying hgo _ hfirst hgot hr =>
    rw [hr]
    unfold linkTxDone
    simp only [hfirst, Bool.not_false, if_true]
    exact h.ends hk rfl rfl (.heard c.ev.chan hgot rfl)

/-- The node listens in the link event that is on. -/
theorem listened (h : Booked c g) (hk : c.ev.kind = .link) (hphy : c.phy = .rx) :
    c.granted = true ∧ c.evst.gotRx = false ∧ g c.ev.histNo = ⟨some c.ev.chan, true, []⟩ := by
  cases h.on hk with
  | asked hidle => cases hphy.symm.trans hidle
  | sending _ htx => cases hphy.symm.trans htx
  | listening hgo _ hgot hr => exact ⟨hgo, hgot, hr⟩
  | replying _ htx => cases hphy.symm.trans htx

/-- A frame of a link event has come in. -/
theorem rxDone (h : Booked c g) (hk : c.ev.kind = .link) (hn : c.ev.neigh = some i)
    (hphy : c.phy = .rx) (rx : RxRec) :
    Booked (phyRxDone o c rx) (Function.update g c.ev.histNo
      ((g c.ev.histNo).after c (phyRxDone o c rx) (.rxDone rx))) := by
  obtain ⟨hgo, -, hr⟩ := h.listened hk hphy
  have hafter : (g c.ev.histNo).after c (phyRxDone o c rx) (.rxDone rx) =
      ⟨some c.ev.chan, true, [(c.ev.chan, true)]⟩ := by
    rw [hr]
    simp only [Outing.after, chanResults, hk, hn, Bool.true_or, List.nil_append]
  have hdone : phyRxDone o c rx = linkRxDone o c i rx := by
    unfold phyRxDone
    simp only [hk, hn]
  have hnoted := (noteLinkFrame_aside c i rx).beat
  simp only [Node.beat, Prod.mk.injEq] at hnoted
  obtain ⟨hevst, hev, hfk, -, -, -, hgranted, hevents⟩ := hnoted
  have hheard : ∀ n, (⟨some c.ev.chan, true, [(c.ev.chan, true)]⟩ : Outing).Awaits
      ((noteLinkFrame c i rx).setNeigh i n).evst.gotRx := fun n => by
    change Outing.Awaits (noteLinkFrame c i rx).evst.gotRx _
    rw [hevst]
    exact .heard c.ev.chan rfl rfl
  rw [hafter, hdone]
  unfold linkRxDone
  dsimp only
  split
  · exact h.ends hk hev hevents (hheard _)
  · next hfirst =>
    split
    · refine h.commands (d := (noteLinkFrame c i rx).setNeigh i _) hk hev hfk hevents (fun _ => ?_)
        fun _ => hheard _
      refine .replying (hgranted.trans hgo) rfl (Bool.eq_false_iff.mpr hfirst) ?_ ?_
      · exact congrArg Evst.gotRx hevst
      · change _ = (⟨some (noteLinkFrame c i rx).ev.chan, true,
          [((noteLinkFrame c i rx).ev.chan, true)]⟩ : Outing)
        rw [hev]
        rfl
    · exact h.ends hk hev hevents (hheard _)

/-- No frame of a link event has come in, for no fault of the channel. -/
theorem rxFailed (h : Booked c g) (hk : c.ev.kind = .link) (hn : c.ev.neigh = some i)
    (hphy : c.phy = .rx) {reason : RxFail} (hreason : reason ≠ .crc ∧ reason ≠ .timeout) :
    Booked (phyRxFailed o c reason) (Function.update g c.ev.histNo
      ((g c.ev.histNo).after c (phyRxFailed o c reason) (.rxFailed reason))) := by
  obtain ⟨-, hgot, hr⟩ := h.listened hk hphy
  have hnot : ¬(reason = .crc ∨ reason = .timeout) := not_or.mpr hreason
  have hafter : (g c.ev.histNo).after c (phyRxFailed o c reason) (.rxFailed reason) =
      ⟨some c.ev.chan, true, []⟩ := by
    rw [hr]
    simp only [Outing.after, chanResults, failCharges, hk, hn, if_neg hnot, Bool.true_or,
      List.nil_append]
  have hdone : phyRxFailed o c reason = linkRxFail c i reason := by
    unfold phyRxFailed
    simp only [hk, hn]
  rw [hafter, hdone]
  unfold linkRxFail
  simp only [if_neg hnot]
  refine h.ends hk ?_ ?_ ?_
  · split <;> rfl
  · split <;> rfl
  · have hsame : (if c.evst.txFirst = true then lgNeighTxResult c i false else c).evst =
        c.evst := by
      split <;> rfl
    rw [hsame]
    exact .unheard c.ev.chan true hgot rfl

end Booked

/-- An interrupt of an undisturbed run. -/
theorem Booked.interrupt {s : Outings cfg} (h : Booked s.node s.of)
    (hi : inp.isInterrupt = true) (hen : Enabled s.node inp) (hund : s.Undisturbed inp)
    (hp : perform psa o s.node inp = some c') : Booked c' (s.after inp c').of := by
  by_cases hk : s.node.ev.kind = .link
  · obtain ⟨i, hn⟩ := h.partner hk
    have hof : (s.after inp c').of = Function.update s.of s.node.ev.histNo
        ((s.of s.node.ev.histNo).after s.node c' inp) := by
      have hsome : linkEventOf s.node inp = some s.node.ev.histNo := by
        cases inp <;> first | exact if_pos hk | cases hi
      simp only [Outings.after, hsome]
    rw [hof]
    cases inp with
    | granted =>
      cases hp
      exact h.granted hk hn hen.2
    | refused => exact absurd hk hund
    | txDone airEndUs =>
      cases hp
      exact h.txDone hk hn hen airEndUs
    | rxDone rx =>
      cases hp
      exact h.rxDone hk hn hen rx
    | rxFailed reason =>
      cases hp
      exact h.rxFailed hk hn hen (hund hk)
    | _ => cases hi
  · have hof : (s.after inp c').of = s.of := by
      have hnone : linkEventOf s.node inp = none := by
        cases inp <;> first | exact if_neg hk | cases hi
      simp only [Outings.after, hnone]
    have hbusy : s.node.ev.kind ≠ .none ∨ s.node.phy ≠ .idle := by
      have hphy : ∀ {p : Phy}, p ≠ .idle → s.node.phy = p → s.node.phy ≠ .idle :=
        fun hne heq => heq ▸ hne
      cases inp with
      | granted | refused => exact .inl hen.1
      | txDone airEndUs => exact .inr (hphy (by decide : Phy.tx ≠ .idle) hen)
      | rxDone rx => exact .inr (hphy (by decide : Phy.rx ≠ .idle) hen)
      | rxFailed reason => exact .inr (hphy (by decide : Phy.rx ≠ .idle) hen)
      | _ => cases hi
    obtain ⟨b, hw⟩ := interrupt_winds hi hk hp
    have hb : Booked { s.node with granted := b } s.of :=
      ⟨h.fresh, h.evNo, h.finNo, h.alone, h.partner, h.finPartner, fun hl => absurd hl hk,
        h.awaits, h.past⟩
    rw [hof]
    exact hb.winds hk (h.not_waiting hbusy) hw

/-- A settlement in an undisturbed run. -/
theorem Booked.finish {s : Outings cfg} (h : Booked s.node s.of) {o' : Oracle}
    (hund : s.Undisturbed (.finishWork o')) (hp : schedFinish psa o o' s.node = some c') :
    Booked c' (s.after (.finishWork o') c').of := by
  unfold schedFinish at hp
  cases hs : LockGrid.settle psa o s.node with
  | none =>
    rw [hs] at hp
    cases hp
  | some d =>
    rw [hs] at hp
    have hbeat : d.beat = s.node.beat := by
      refine (beat_of_radio (settle_radio hs).1).trans ?_
      rcases missNoted_cases s.node with hm | ⟨i, hm⟩
      · rw [hm]
      · rw [hm]
        rfl
    have hd := h.of_beat hbeat
    simp only [Node.beat, Prod.mk.injEq] at hbeat
    obtain ⟨-, -, hfk, -, hno, -, -, -⟩ := hbeat
    by_cases hf : s.node.finishKind = .link
    · obtain ⟨i, hi⟩ := h.finPartner hf
      have hover : ((s.of s.node.histFinishNo).after s.node c' (.finishWork o')).Past := by
        cases h.awaits hf with
        | heard k hgot hr =>
          rw [hr]
          simp only [Outing.after, chanResults, missCharges, hf, hi, hgot, if_true,
            List.append_nil]
          exact ⟨⟨by simp, le_refl 1⟩, fun _ => rfl⟩
        | unheard k l hgot hr =>
          have hchan := hund hf hgot i hi
          rw [hr] at hchan ⊢
          simp only [Outing.after, chanResults, missCharges, hf, hi, hgot, Bool.false_eq_true,
            if_false, List.nil_append]
          exact ⟨⟨by simpa using hchan, le_refl 1⟩, fun _ => rfl⟩
      have hof : (s.after (.finishWork o') c').of = Function.update s.of d.histFinishNo
          ((s.of s.node.histFinishNo).after s.node c' (.finishWork o')) := by
        rw [hno]
        simp only [Outings.after, linkEventOf, if_pos hf]
      rw [hof]
      exact (hd.settle (hfk.trans hf) hover).pick nofun hp
    · have hof : (s.after (.finishWork o') c').of = s.of := by
        simp only [Outings.after, linkEventOf, if_neg hf]
      rw [hof]
      exact (hd.clear (hfk ▸ hf)).pick nofun hp

theorem Booked.start {g : ℕ → Outing} (h : Booked c g)
    (hphy : c.started = false → c.ev.kind = .link → c.phy ≠ .rx) :
    Booked (lgStart psa o c) g := by
  unfold lgStart
  split
  · exact h
  · next hgo =>
    split
    · exact h
    · have hoff : c.started = false := Bool.eq_false_iff.mpr fun hs => hgo (.inl hs)
      refine of_beat ?_ (Aside.of_quiet (lgDiscBeaconFinish_quiet psa o _)).beat
      refine of_beat ?_ (Aside.of_quiet (lgRoleEvaluate_quiet o _)).beat
      exact h.drops (hphy hoff) rfl rfl rfl rfl ⟨rfl, rfl, rfl⟩ id

theorem Booked.stop {g : ℕ → Outing} (h : Booked c g)
    (hphy : c.started = true → c.ev.kind = .link → c.phy ≠ .rx) :
    Booked (lgStop o c) g := by
  unfold lgStop
  split
  · exact h
  · next hgo =>
    have hon : c.started = true := by simpa using hgo
    have hdown := (stopLinks_aside o (List.finRange cfg.maxNeighbors) c).beat
    have hd := h.of_beat hdown
    simp only [Node.beat, Prod.mk.injEq] at hdown
    obtain ⟨-, hev, -, -, -, hph, -⟩ := hdown
    exact hd.drops (fun hk => hph ▸ hphy hon (hev ▸ hk)) rfl rfl rfl rfl ⟨rfl, rfl, rfl⟩
      fun _ => rfl

/-- A step of an undisturbed run. -/
theorem Outings.Step.booked {s s' : Outings cfg}
    (hstep : Outings.Step psa Outings.Undisturbed s s') (h : Booked s.node s.of) :
    Booked s'.node s'.of := by
  obtain ⟨o, inp, c', hen, hund, hp, rfl⟩ := hstep
  change Booked c' (s.after inp c').of
  cases inp with
  | tick us =>
    cases hp
    exact h.of_beat rfl
  | schedWork => exact h.pick hund hp
  | finishWork o' => exact h.finish hund hp
  | rxWork =>
    cases rxHandler_spares hp with
    | on ha => exact h.of_beat ha.beat
    | abort hk ha =>
      have hnot : s.node.ev.kind ≠ .link := by
        rw [hk]
        nofun
      have hbusy : s.node.ev.kind ≠ .none := by
        rw [hk]
        nofun
      exact h.winds hnot (h.not_waiting (.inl hbusy)) (.done ha)
  | granted | refused | txDone airEndUs | rxDone rx | rxFailed reason =>
    exact h.interrupt rfl hen hund hp
  | send dst port payload flags =>
    cases hp
    exact h.of_beat (lgSend_aside s.node dst port payload flags).beat
  | backhaulSet up =>
    cases hp
    exact h.of_beat (Aside.of_quiet (lgBackhaulSet_quiet o s.node up)).beat
  | tuningSet t =>
    cases hp
    exact h.of_beat rfl
  | start =>
    cases hp
    refine h.start fun hoff hk hrx => ?_
    rw [hund ⟨hk, hrx⟩] at hoff
    cases hoff
  | stop =>
    cases hp
    refine h.stop fun hon hk hrx => ?_
    rw [hund ⟨hk, hrx⟩] at hon
    cases hon

theorem Booked.evident {s : Outings cfg} (h : Booked s.node s.of) : s.Evident := by
  intro e
  have hfair : (s.of e).Fair := by
    by_cases hpend : pendingLink s.node e
    · rcases hpend with ⟨hk, rfl⟩ | ⟨hf, rfl⟩
      · exact (h.on hk).fair
      · exact (h.awaits hf).fair
    · exact (h.past e hpend).toFair
  refine ⟨fun hnone => ?_, hfair.place, hfair.once, fun hover => (h.past e hover).heard⟩
  rw [List.eq_nil_iff_forall_not_mem]
  intro x hx
  cases hnone.symm.trans (hfair.place x hx)

/-- The counts of the channels go by the calls of `lg_chan_result`. -/
def Outings.Counted (psa : Psa) (s : Outings cfg) : Prop :=
  ∀ o inp c', ¬clearsCounts s.node inp → perform psa o s.node inp = some c' → ∀ k,
    (c'.net.chan k).frames = (chargeAll (chanResults s.node inp) s.node.net.chan k).frames

/-- In every undisturbed run a link event in which the node listened is charged once, to the channel
it was on, one that the radio was not granted for is not, and nothing else is counted. -/
theorem outcomes_charged {ident : Identity} {s : Outings cfg}
    (h : Relation.ReflTransGen (Outings.Step psa Outings.Undisturbed) (Outings.boot cfg ident) s) :
    s.Evident ∧ s.Counted psa := by
  have hbooked : Booked s.node s.of := by
    induction h with
    | refl => exact .boot ident
    | tail _ hstep ih => exact hstep.booked ih
  exact ⟨hbooked.evident, fun o inp c' hkeep hp k => chanResults_counted hkeep hp k⟩

/-- The step for an input, if it can be taken. -/
def Outings.next (psa : Psa) (P : Outings cfg → Input → Prop) [∀ s inp, Decidable (P s inp)]
    (s : Outings cfg) (oi : Oracle × Input) : Option (Outings cfg) :=
  if Enabled s.node oi.2 ∧ P s oi.2 then (perform psa oi.1 s.node oi.2).map (s.after oi.2)
  else none

theorem Outings.next_step (psa : Psa) (P : Outings cfg → Input → Prop)
    [∀ s inp, Decidable (P s inp)] (s : Outings cfg) (oi : Oracle × Input) (s' : Outings cfg)
    (h : s.next psa P oi = some s') : Outings.Step psa P s s' := by
  unfold Outings.next at h
  split at h
  · next hgo =>
    obtain ⟨c', hp, rfl⟩ := Option.map_eq_some_iff.mp h
    exact ⟨oi.1, oi.2, c', hgo.1, hgo.2, hp, rfl⟩
  · cases h

/-- Node 1 hears its new peer in their first link event and answers. -/
def answeredRun : List (Oracle × Input) :=
  joinedWith pacedParams [] ++
    [(calm 6, Input.tick 380000), (calm 7, .schedWork), (calm 7, .schedWork), (calm 8, .granted),
      (calm 8, .rxDone (sealedFrame .ack 1 2 rspKey 2 [])), (calm 9, .txDone 421000),
      (calm 9, .finishWork (calm 10))]

theorem outcomes_charged_answered :
    ∃ s : Outings .default, Relation.ReflTransGen
        (Outings.Step Psa.plain Outings.Undisturbed) (Outings.boot .default (plainIdent 1 1)) s ∧
      (s.of s.node.histFinishNo).listened = true ∧ s.Evident ∧ s.Counted Psa.plain := by
  obtain ⟨s, hrun, hend⟩ := Traces.exists_run
    (Outings.next_step Psa.plain Outings.Undisturbed) answeredRun
    (Outings.boot .default (plainIdent 1 1))
    (fun s => (s.of s.node.histFinishNo).listened) (by decide +kernel)
  exact ⟨s, hrun, hend, outcomes_charged hrun⟩

/-- The arbiter refuses node 1 its first link event, which is charged all the same. -/
theorem not_outcomes_charged :
    ¬ ∀ (cfg : Config) (psa : Psa) (ident : Identity) (s : Outings cfg),
      Relation.ReflTransGen (Outings.Step psa fun _ _ => True) (Outings.boot cfg ident) s →
      s.Evident := by
  intro h
  obtain ⟨s, hrun, hend⟩ := Traces.exists_run (Outings.next_step Psa.plain fun _ _ => True)
    (joinedWith pacedParams [] ++
      [(calm 6, Input.tick 380000), (calm 7, .schedWork), (calm 7, .schedWork), (calm 8, .refused)])
    (Outings.boot .default (plainIdent 1 1))
    (fun s => decide ((s.of s.node.histFinishNo).granted = none ∧
      (s.of s.node.histFinishNo).charged ≠ [])) (by decide +kernel)
  obtain ⟨hnone, hcharged⟩ := of_decide_eq_true hend
  exact hcharged ((h _ _ _ s hrun _).1 hnone)

end LockGrid
