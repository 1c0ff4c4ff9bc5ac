import LockGrid.Release

/-!
# The work queue and the order of settlements

The work items of a started node run one at a time, in the order they were submitted, and an item
that is pending is not queued twice. Interrupts and calls of the application come at any time, also
while an item runs. Every event that was chosen ends and is settled before the next is chosen, as
long as no event ends while a run of `sched_pick` is due.
-/
namespace LockGrid

variable {cfg : Config} {psa : Psa}

/-! ## What a step does to the event slot -/

/-- The scheduled event, what is left of the last one for its settlement, and the radio. -/
def Node.slot (c : Node cfg) :
    Event cfg × EvKind × Option (Fin cfg.maxNeighbors) × ℕ × Phy :=
  (c.ev, c.finishKind, c.finishNeigh, c.histFinishNo, c.phy)

theorem Aside.slot {c c' : Node cfg} (h : Aside c c') : c'.slot = c.slot :=
  congrArg (fun r => (r.2.1, r.2.2.1, r.2.2.2.1, r.2.2.2.2.1, r.2.2.2.2.2.1)) h.radio

/-- How a handler leaves the slot: the event goes on, or it is over and left to be settled. -/
inductive Rides (c : Node cfg) : Node cfg → Prop
  | on {d} (hev : d.ev = c.ev) (hfin : d.finishKind = c.finishKind ∧
      d.finishNeigh = c.finishNeigh ∧ d.histFinishNo = c.histFinishNo) : Rides c d
  | done {d} (hev : d.ev = c.ev) : Rides c (lgSchedEventDone d)

theorem Rides.of_slot {c d : Node cfg} (h : d.slot = c.slot) : Rides c d := by
  simp only [Node.slot, Prod.mk.injEq] at h
  exact .on h.1 ⟨h.2.1, h.2.2.1, h.2.2.2.1⟩

theorem Rides.of_slot_done {c d : Node cfg} (h : d.slot = c.slot) :
    Rides c (lgSchedEventDone d) := by
  simp only [Node.slot, Prod.mk.injEq] at h
  exact .done h.1

theorem Rides.of_slot_tuned {c d : Node cfg} (h : d.slot = c.slot) (p : Phy) :
    Rides c { d with phy := p } := by
  simp only [Node.slot, Prod.mk.injEq] at h
  exact .on h.1 ⟨h.2.1, h.2.2.1, h.2.2.2.1⟩

theorem Rides.command {c d : Node cfg} (h : d.slot = c.slot) (o : Oracle) (p : Phy) :
    Rides c (command o d p) := by
  unfold LockGrid.command
  split
  · exact .of_slot_tuned h p
  · exact .of_slot_done h

theorem Winds.rides {c d : Node cfg} (h : Winds c d) : Rides c d := by
  cases h with
  | on ha => exact .of_slot ha.slot
  | tuned ha p => exact .of_slot_tuned ha.slot p
  | done ha => exact .of_slot_done ha.slot

/-- A grant changes nothing of the slot. -/
theorem Rides.ungranted {c d : Node cfg} {g : Bool} (h : Rides { c with granted := g } d) :
    Rides c d := by
  cases h with
  | on hev hfin => exact .on hev hfin
  | done hev => exact .done hev

theorem linkRxDone_rides (o : Oracle) (c : Node cfg) (i : Fin cfg.maxNeighbors) (rx : RxRec) :
    Rides c (linkRxDone o c i rx) := by
  have hnote : ∀ n, ((noteLinkFrame c i rx).setNeigh i n).slot = c.slot := fun _ =>
    (noteLinkFrame_aside c i rx).slot
  unfold linkRxDone
  dsimp only
  split
  · exact .of_slot_done (hnote _)
  · split
    · exact .command (hnote _) o .tx
    · exact .of_slot_done (hnote _)

theorem linkRxFail_rides (c : Node cfg) (i : Fin cfg.maxNeighbors) (reason : RxFail) :
    Rides c (linkRxFail c i reason) := by
  have hq : (lgChanResult c c.ev.chan false).slot = c.slot :=
    (Aside.of_quiet (lgChanResult_quiet c _ _)).slot
  have hres : ∀ d : Node cfg, (lgNeighTxResult d i false).slot = d.slot := fun _ => rfl
  unfold linkRxFail
  refine .of_slot_done ?_
  split_ifs
  · exact (hres _).trans hq
  · exact hq
  · exact hres c
  · rfl

theorem tsGranted_rides (o : Oracle) (c : Node cfg) : Rides c (tsGranted psa o c) := by
  have hcmd : ∀ p, Rides c (command o { c with granted := true } p) := fun p =>
    .command (by rfl) o p
  unfold tsGranted
  dsimp only
  split
  · unfold linkStart
    refine .command ?_ o _
    rfl
  · exact (beaconStart_winds o _).rides.ungranted
  · exact hcmd .rx
  · exact hcmd .rx
  · exact (joinTxStart_winds psa o _).rides.ungranted
  · exact (joinRxStart_winds o _).rides.ungranted
  · exact .of_slot_done (Aside.of_quiet (lgChanNoise_quiet _ _ _)).slot
  · exact .of_slot rfl

theorem tsFailed_rides (o : Oracle) (c : Node cfg) : Rides c (tsFailed o c) := by
  unfold tsFailed
  split
  · exact .of_slot rfl
  · exact .of_slot_done (lgLinkEventMiss_aside o c _).slot
  · exact .of_slot_done (trackResult_aside c false).slot
  · exact .of_slot_done (setHs_aside c _).slot
  · exact .of_slot_done (setHs_aside c _).slot
  · exact .of_slot_done rfl

theorem phyTxDone_rides (o : Oracle) (c : Node cfg) (airEndUs : ℕ) :
    Rides c (phyTxDone psa o c airEndUs) := by
  unfold phyTxDone
  split
  · unfold linkTxDone
    dsimp only
    split
    · exact .of_slot_done rfl
    · refine .command ?_ o .rx
      rfl
  · exact (beaconTxDone_winds o c airEndUs).rides
  · exact (joinTxDone_winds psa o c airEndUs).rides
  · exact .of_slot_done rfl

theorem phyRxDone_rides (o : Oracle) (c : Node cfg) (rx : RxRec) :
    Rides c (phyRxDone o c rx) := by
  unfold phyRxDone
  split
  · exact linkRxDone_rides o c _ rx
  · exact (scanRxDone_winds o c rx).rides
  · exact .of_slot_done ((lgRxPost_aside c rx).trans (trackResult_aside _ true)).slot
  · exact (joinRxDone_winds o c rx).rides
  · exact .of_slot_done rfl

theorem phyRxFailed_rides (o : Oracle) (c : Node cfg) (reason : RxFail) :
    Rides c (phyRxFailed o c reason) := by
  unfold phyRxFailed
  split
  · exact linkRxFail_rides c _ reason
  · exact (joinRxFail_winds o c reason).rides
  · exact (joinRxFail_winds o c reason).rides
  · exact .of_slot_done (trackResult_aside c false).slot
  · exact .of_slot_done rfl

theorem requestEvent_slot {o : Oracle} {c c' : Node cfg} {cand : Candidate cfg}
    (h : requestEvent psa o c cand = some c') : c'.slot = (c'.ev, c.slot.2) := by
  have hplan := (Aside.of_quiet (eventPlan_quiet c cand)).slot
  have htail := congrArg Prod.snd hplan
  unfold requestEvent at h
  dsimp only at h
  split at h
  · exact congrArg (Prod.mk c'.ev) ((congrArg Prod.snd (dropLate_aside h).slot).trans htail)
  · split at h
    · cases h
      exact congrArg (Prod.mk _) htail
    · cases h
      exact congrArg (Prod.mk _) htail

/-- A run of `sched_pick` touches nothing but the scheduled event, and that only if there is
none. -/
theorem schedPick_slot {o : Oracle} {c c' : Node cfg} (h : schedPick psa o c = some c') :
    c'.slot = (c'.ev, c.slot.2) ∧ (c.ev.kind ≠ .none → c' = c) := by
  unfold schedPick at h
  split at h
  · cases h
    exact ⟨rfl, fun _ => rfl⟩
  · next hguard =>
    simp only [Bool.or_eq_true, decide_eq_true_eq, not_or, not_not] at hguard
    refine ⟨?_, fun hev => absurd hguard.1.1.2 hev⟩
    split at h
    · cases h
    · next l d hcand =>
      have hd := congrArg Prod.snd (candidates_aside hcand).slot
      split at h
      · cases h
        exact congrArg (Prod.mk _) hd
      · next cand _ =>
        have hs : (stageFor psa o d cand).2.slot = d.slot :=
          congrArg (fun r => (r.2.1, r.2.2.1, r.2.2.2.1, r.2.2.2.2.1, r.2.2.2.2.2.1))
            (stageFor_radio psa o d cand)
        have hs' := (congrArg Prod.snd hs).trans hd
        dsimp only at h
        split at h
        · rw [requestEvent_slot h, hs']
        · cases h
          exact congrArg (Prod.mk _) hs'

theorem settle_slot {o : Oracle} {c c' : Node cfg} (h : settle psa o c = some c') :
    c'.slot = c.slot := by
  have hr := congrArg (fun r => (r.2.1, r.2.2.1, r.2.2.2.1, r.2.2.2.2.1, r.2.2.2.2.2.1))
    (settle_radio h).1
  refine Eq.trans hr ?_
  rcases missNoted_cases c with hm | ⟨i, hm⟩ <;> rw [hm] <;> rfl

/-! ## The work queue -/

inductive Work
  | sched
  /-- The poll of an idle scheduler, which picks as well. -/
  | idle
  | finish
  | rx
  deriving DecidableEq, Repr

/-- `k_work_submit_to_queue`: an item that is pending is not queued again. -/
def submit (w : Work) (q : List Work) : List Work := if w ∈ q then q else q ++ [w]

/-- Where the work queue is. `sched_finish` can be interrupted after it has settled, and again
after it has cleared what it settled. -/
inductive Phase
  | waiting
  | running (w : Work)
  | settled
  | cleared
  deriving DecidableEq, Repr

/-- What happens to events, each named by its number. -/
inductive Entry (cfg : Config)
  | chosen (no : ℕ)
  | ended (no : ℕ) (kind : EvKind) (neigh : Option (Fin cfg.maxNeighbors))
  | settled (no : ℕ) (kind : EvKind) (neigh : Option (Fin cfg.maxNeighbors))
  deriving DecidableEq, Repr

/-- A started node with its work queue; `log` has the newest entry first. -/
structure Desk (cfg : Config) where
  node : Node cfg
  queue : List Work := []
  phase : Phase := .waiting
  log : List (Entry cfg) := []

/-- The event that was on is over. -/
def Ends (c c' : Node cfg) : Prop := c.ev.kind ≠ .none ∧ c'.ev.kind = .none

instance (c c' : Node cfg) : Decidable (Ends c c') := instDecidableAnd

namespace Desk

/-- A handler has run; if it ended the event, that one is to be settled. -/
def handled (d : Desk cfg) (c : Node cfg) : Desk cfg :=
  if Ends d.node c then
    { d with
      node := c
      queue := submit .finish d.queue
      log := .ended d.node.ev.histNo d.node.ev.kind d.node.ev.neigh :: d.log }
  else { d with node := c }

/-- `sched_pick` has run, and may have chosen an event. -/
def picked (d : Desk cfg) (c : Node cfg) : Desk cfg :=
  { d with
    node := c
    phase := .waiting
    log := if d.node.ev.kind = .none ∧ c.ev.kind ≠ .none then .chosen c.ev.histNo :: d.log
      else d.log }

/-- The `switch` of `sched_finish` has run. -/
def settledWith (d : Desk cfg) (c : Node cfg) : Desk cfg :=
  { d with
    node := c
    phase := .settled
    log := if d.node.finishKind ≠ .none then
        .settled d.node.histFinishNo d.node.finishKind d.node.finishNeigh :: d.log
      else d.log }

end Desk

def Input.isInterrupt : Input → Bool
  | .granted | .refused | .txDone _ | .rxDone _ | .rxFailed _ => true
  | _ => false

def Input.isCall : Input → Bool
  | .tick _ | .send .. | .backhaulSet _ | .tuningSet _ => true
  | _ => false

inductive DeskMove
  /-- `lg_sched_kick`, the idle poll or `lg_rx_post`. -/
  | submit (w : Work)
  | call (o : Oracle) (inp : Input)
  | interrupt (o : Oracle) (inp : Input)
  /-- The work queue takes its oldest item. -/
  | take
  /-- The next part of the item that runs; `more` if `rx_work` goes on with another frame. -/
  | work (o : Oracle) (more : Bool)

/-- `none` when the move cannot be made, or does not return. -/
def Desk.perform (psa : Psa) (d : Desk cfg) : DeskMove → Option (Desk cfg)
  | .submit w => if w = .finish then none else some { d with queue := LockGrid.submit w d.queue }
  | .call o inp =>
    if inp.isCall then (LockGrid.perform psa o d.node inp).map fun c => { d with node := c }
    else none
  | .interrupt o inp =>
    if inp.isInterrupt ∧ Enabled d.node inp then (LockGrid.perform psa o d.node inp).map d.handled
    else none
  | .take =>
    match d.phase, d.queue with
    | .waiting, w :: rest => some { d with queue := rest, phase := .running w }
    | _, _ => none
  | .work o more =>
    match d.phase with
    | .waiting => none
    | .running .sched | .running .idle | .cleared => (schedPick psa o d.node).map d.picked
    | .running .rx => (rxHandler psa o d.node).map fun c =>
      { d.handled c with phase := if more then .running .rx else .waiting }
    | .running .finish => (settle psa o d.node).map d.settledWith
    | .settled => some { d with
      node := { d.node with finishKind := .none, finishNeigh := none }, phase := .cleared }

/-- A move; one that ends an event is made in a state with the property `P`. -/
def Desk.Step (psa : Psa) (P : Desk cfg → Prop) (d d' : Desk cfg) : Prop :=
  ∃ m, d.perform psa m = some d' ∧ (Ends d.node d'.node → P d)

/-- No event is on or waits for its settlement, and nothing is to be done. -/
structure Desk.Start (d : Desk cfg) : Prop where
  ev : d.node.ev.kind = .none
  phy : d.node.phy = .idle
  queue : d.queue = []
  phase : d.phase = .waiting
  log : d.log = []

/-! ## The order of settlements -/

inductive Status (cfg : Config)
  | free
  | on (no : ℕ)
  | ended (no : ℕ) (kind : EvKind) (neigh : Option (Fin cfg.maxNeighbors))
  deriving DecidableEq, Repr

/-- Where the events of a log have come to; `none` if one was chosen before the last was settled,
or one was settled that did not just end. -/
def status : List (Entry cfg) → Option (Status cfg)
  | [] => some .free
  | .chosen n :: l => if status l = some .free then some (.on n) else none
  | .ended n k i :: l => if status l = some (.on n) then some (.ended n k i) else none
  | .settled n k i :: l => if status l = some (.ended n k i) then some .free else none

/-- Events are chosen, end and are settled in turn, and one that is over will be settled. -/
def Desk.Settles (d : Desk cfg) : Prop :=
  ∃ s, status d.log = some s ∧
    ∀ n k i, s = .ended n k i → .finish ∈ d.queue ∨ d.phase = .running .finish

/-- Neither `sched_work` nor the idle poll is pending or about to look. -/
def Desk.NoPickDue (d : Desk cfg) : Prop :=
  ∀ w ∈ [Work.sched, .idle], w ∉ d.queue ∧ d.phase ≠ .running w

instance (d : Desk cfg) : Decidable d.NoPickDue := by
  unfold Desk.NoPickDue
  infer_instance

/-! ## What holds at every stage -/

/-- `finish_work` comes before any run of `sched_pick`. -/
def Desk.Awaits (d : Desk cfg) : Prop :=
  ((d.phase = .waiting ∨ d.phase = .running .rx) ∧ ∃ pre post,
    d.queue = pre ++ .finish :: post ∧ (∀ w ∈ pre, w = .rx) ∧ .finish ∉ post) ∨
  d.phase = .running .finish ∧ .finish ∉ d.queue

inductive Desk.Stage (d : Desk cfg) : Status cfg → Prop
  | free (hev : d.node.ev.kind = .none) (hphy : d.node.phy = .idle) (hq : .finish ∉ d.queue)
    (hp : d.phase ≠ .running .finish) : Stage d .free
  | on (hev : d.node.ev.kind ≠ .none) (hq : .finish ∉ d.queue)
    (hp : d.phase = .waiting ∨ ∃ w, w ≠ .finish ∧ d.phase = .running w) :
    Stage d (.on d.node.ev.histNo)
  | ended (hev : d.node.ev.kind = .none) (hphy : d.node.phy = .idle)
    (hk : d.node.finishKind ≠ .none) (hw : d.Awaits) :
    Stage d (.ended d.node.histFinishNo d.node.finishKind d.node.finishNeigh)

def Desk.Inv (d : Desk cfg) : Prop := ∃ s, status d.log = some s ∧ d.Stage s

theorem mem_submit {w x : Work} {q : List Work} : x ∈ submit w q ↔ x = w ∨ x ∈ q := by
  unfold submit
  split_ifs with h
  · constructor
    · exact Or.inr
    · rintro (rfl | hx)
      · exact h
      · exact hx
  · simp [or_comm]

namespace Desk

variable {d : Desk cfg} {s : Status cfg}

/-- Work that leaves the slot alone leaves the stage. -/
theorem Stage.node (h : d.Stage s) {c : Node cfg} (hc : c.slot = d.node.slot) :
    Stage { d with node := c } s := by
  simp only [Node.slot, Prod.mk.injEq] at hc
  obtain ⟨hev, hfk, hfn, hno, hphy⟩ := hc
  cases h with
  | free he hp hq hph => exact .free (by rw [hev]; exact he) (by rw [hphy]; exact hp) hq hph
  | on he hq hp =>
    rw [← hev] at he ⊢
    exact .on he hq hp
  | ended he hp hk hw =>
    rw [← hfk] at hk
    rw [← hfk, ← hfn, ← hno]
    exact .ended (by rw [hev]; exact he) (by rw [hphy]; exact hp) hk hw

theorem Stage.submit (h : d.Stage s) {w : Work} (hw : w ≠ .finish) :
    Stage { d with queue := LockGrid.submit w d.queue } s := by
  have hmem : ∀ {q : List Work}, .finish ∉ q → .finish ∉ LockGrid.submit w q := by
    intro q hq hin
    rcases mem_submit.mp hin with heq | hin
    · exact hw heq.symm
    · exact hq hin
  cases h with
  | free he hp hq hph => exact .free he hp (hmem hq) hph
  | on he hq hp => exact .on he (hmem hq) hp
  | ended he hp hk haw =>
    refine .ended he hp hk ?_
    rcases haw with ⟨hph, pre, post, hq, hpre, hpost⟩ | ⟨hph, hq⟩
    · left
      refine ⟨hph, ?_⟩
      by_cases hin : w ∈ d.queue
      · exact ⟨pre, post, (if_pos hin).trans hq, hpre, hpost⟩
      · refine ⟨pre, post ++ [w], (if_neg hin).trans (by simp [hq]), hpre, ?_⟩
        simp only [List.mem_append, List.mem_singleton, not_or]
        exact ⟨hpost, fun heq => hw heq.symm⟩
    · exact .inr ⟨hph, hmem hq⟩

/-- The oldest item is taken; it is no pick if an event waits for its settlement. -/
theorem Stage.take (h : d.Stage s) {w : Work} {rest : List Work} (hp : d.phase = .waiting)
    (hq : d.queue = w :: rest) : Stage { d with queue := rest, phase := .running w } s := by
  cases h with
  | free he hphy hnq _ =>
    rw [hq, List.mem_cons, not_or] at hnq
    exact .free he hphy hnq.2 fun hf => hnq.1 (Phase.running.inj hf).symm
  | on he hnq _ =>
    rw [hq, List.mem_cons, not_or] at hnq
    exact .on he hnq.2 (.inr ⟨w, fun hf => hnq.1 hf.symm, rfl⟩)
  | ended he hphy hk haw =>
    refine .ended he hphy hk ?_
    rcases haw with ⟨-, pre, post, hsplit, hpre, hpost⟩ | ⟨hf, -⟩
    · rw [hq] at hsplit
      cases pre with
      | nil =>
        obtain ⟨rfl, rfl⟩ := by simpa using hsplit
        exact .inr ⟨rfl, hpost⟩
      | cons x pre =>
        obtain ⟨rfl, rfl⟩ := by simpa using hsplit
        obtain rfl := hpre w List.mem_cons_self
        exact .inl ⟨.inr rfl, pre, post, rfl, fun y hy => hpre y (List.mem_cons_of_mem _ hy), hpost⟩
    · rw [hp] at hf
      cases hf

/-- An interrupt comes only while an event is on. -/
theorem Stage.enabled (h : d.Stage s) {inp : Input} (hi : inp.isInterrupt = true)
    (he : Enabled d.node inp) : d.node.ev.kind ≠ .none := by
  have hphy : d.node.ev.kind = .none → d.node.phy = .idle := by
    intro hnone
    cases h with
    | free _ hphy => exact hphy
    | on hev => exact absurd hnone hev
    | ended _ hphy => exact hphy
  intro hnone
  have hidle := hphy hnone
  cases inp <;> simp_all [Input.isInterrupt, Enabled]

/-- A handler keeps the order if it does not end an event while a pick is due. -/
theorem Inv.handled (h : d.Inv) {c : Node cfg} (hr : Rides d.node c)
    (hslot : d.node.ev.kind = .none → c.slot = d.node.slot)
    (hdue : Ends d.node c → d.NoPickDue) : (d.handled c).Inv ∧ (d.handled c).phase = d.phase := by
  obtain ⟨s, hs, hst⟩ := h
  by_cases hev : d.node.ev.kind = .none
  · have hends : ¬ Ends d.node c := fun he => he.1 hev
    rw [Desk.handled, if_neg hends]
    exact ⟨⟨s, hs, hst.node (hslot hev)⟩, rfl⟩
  · cases hst with
    | free hnone => exact absurd hnone hev
    | ended hnone => exact absurd hnone hev
    | on _ hq hp =>
      cases hr with
      | on hsame hfin =>
        have hends : ¬ Ends d.node c := fun he => hev (hsame ▸ he.2)
        rw [Desk.handled, if_neg hends]
        refine ⟨⟨_, hs, ?_⟩, rfl⟩
        rw [← hsame] at hev ⊢
        exact .on hev hq hp
      | @done e hsame =>
        have hends : Ends d.node (lgSchedEventDone e) := ⟨hev, rfl⟩
        rw [Desk.handled, if_pos hends]
        refine ⟨⟨.ended d.node.ev.histNo d.node.ev.kind d.node.ev.neigh, by simp [status, hs], ?_⟩,
          rfl⟩
        rw [← hsame]
        refine .ended rfl rfl (by rw [← hsame] at hev; exact hev)
          (.inl ⟨?_, d.queue, [], ?_, ?_, nofun⟩)
        · rcases hp with hp | ⟨w, hw, hp⟩
          · exact .inl hp
          · right
            have hs := hdue hends
            cases w with
            | sched => exact absurd hp (hs .sched (by simp)).2
            | idle => exact absurd hp (hs .idle (by simp)).2
            | finish => exact absurd rfl hw
            | rx => exact hp
        · simp [LockGrid.submit, hq]
        · intro w hw
          have hs := hdue hends
          cases w with
          | sched => exact absurd hw (hs .sched (by simp)).1
          | idle => exact absurd hw (hs .idle (by simp)).1
          | finish => exact absurd hw hq
          | rx => rfl

theorem Inv.picked (h : d.Inv) {o : Oracle} {c : Node cfg}
    (hc : schedPick psa o d.node = some c)
    (hp : d.phase = .running .sched ∨ d.phase = .running .idle ∨ d.phase = .cleared) :
    (d.picked c).Inv := by
  obtain ⟨s, hs, hst⟩ := h
  obtain ⟨hslot, hkeep⟩ := schedPick_slot hc
  have hphy : c.phy = d.node.phy := congrArg (fun r => r.2.2.2.2) hslot
  cases hst with
  | free hev hidle hq _ =>
    by_cases hce : c.ev.kind = .none
    · refine ⟨.free, by simp [Desk.picked, hce, hs], .free hce (hphy.trans hidle) hq nofun⟩
    · exact ⟨.on c.ev.histNo, by simp [Desk.picked, hce, hev, status, hs], .on hce hq (.inl rfl)⟩
  | on hev hq _ =>
    obtain rfl := hkeep hev
    exact ⟨.on d.node.ev.histNo, by simp [Desk.picked, hev, hs], .on hev hq (.inl rfl)⟩
  | ended _ _ _ haw =>
    exfalso
    rcases haw with ⟨hph, -⟩ | ⟨hph, -⟩
    · rcases hph with hph | hph <;> rw [hph] at hp <;> simp at hp
    · rw [hph] at hp
      simp at hp

theorem Inv.settledWith (h : d.Inv) {o : Oracle} {c : Node cfg}
    (hc : settle psa o d.node = some c) (hp : d.phase = .running .finish) :
    (d.settledWith c).Inv := by
  obtain ⟨s, hs, hst⟩ := h
  have hslot := settle_slot hc
  simp only [Node.slot, Prod.mk.injEq] at hslot
  obtain ⟨hev, -, -, -, hphy⟩ := hslot
  cases hst with
  | free _ _ _ hph => exact absurd hp hph
  | on _ _ hph =>
    rcases hph with hph | ⟨w, hw, hph⟩ <;> rw [hp] at hph
    · cases hph
    · cases hph
      exact absurd rfl hw
  | ended hnone hidle hk haw =>
    have hq : .finish ∉ d.queue := by
      rcases haw with ⟨hph, -⟩ | ⟨-, hq⟩
      · rw [hp] at hph
        simp at hph
      · exact hq
    refine ⟨.free, by simp [Desk.settledWith, hk, status, hs], ?_⟩
    exact .free (by rw [← hnone, ← hev]; rfl) (hphy.trans hidle) hq nofun

theorem Inv.cleared (h : d.Inv) (hp : d.phase = .settled) : Desk.Inv { d with
    node := { d.node with finishKind := .none, finishNeigh := none }, phase := .cleared } := by
  obtain ⟨s, hs, hst⟩ := h
  cases hst with
  | free hev hphy hq _ => exact ⟨.free, hs, .free hev hphy hq nofun⟩
  | on _ _ hph =>
    rcases hph with hph | ⟨w, -, hph⟩ <;> rw [hp] at hph <;> cases hph
  | ended _ _ _ haw =>
    rcases haw with ⟨hph, -⟩ | ⟨hph, -⟩ <;> rw [hp] at hph <;> simp at hph

/-- `rx_work` goes on or is done. -/
theorem Inv.received (h : d.Inv) (hp : d.phase = .running .rx) (more : Bool) :
    Desk.Inv { d with phase := if more then .running .rx else .waiting } := by
  obtain ⟨s, hs, hst⟩ := h
  refine ⟨s, hs, ?_⟩
  have hnext : (if more then Phase.running .rx else .waiting) = .waiting ∨
      (if more then Phase.running .rx else .waiting) = .running .rx := by
    cases more
    · exact .inl rfl
    · exact .inr rfl
  cases hst with
  | free hev hphy hq _ => exact .free hev hphy hq (by rcases hnext with h | h <;> simp [h])
  | on hev hq _ => exact .on hev hq (hnext.imp_right fun h => ⟨.rx, nofun, h⟩)
  | ended hev hphy hk haw =>
    refine .ended hev hphy hk (.inl ⟨hnext, ?_⟩)
    rcases haw with ⟨-, hq⟩ | ⟨hf, -⟩
    · exact hq
    · rw [hp] at hf
      cases hf

end Desk

theorem perform_call_slot {o : Oracle} {c c' : Node cfg} {inp : Input} (hi : inp.isCall = true)
    (h : perform psa o c inp = some c') : c'.slot = c.slot := by
  cases inp with
  | tick us =>
    cases h
    rfl
  | send dst port payload flags =>
    cases h
    exact (lgSend_aside c dst port payload flags).slot
  | backhaulSet up =>
    cases h
    exact (Aside.of_quiet (lgBackhaulSet_quiet o c up)).slot
  | tuningSet t =>
    cases h
    exact (Aside.of_quiet (.trans ⟨_, _, rfl⟩ (lgDiscRetune_quiet o 0 _))).slot
  | _ => cases hi

theorem perform_interrupt_rides {o : Oracle} {c c' : Node cfg} {inp : Input}
    (hi : inp.isInterrupt = true) (h : perform psa o c inp = some c') : Rides c c' := by
  cases inp with
  | granted =>
    cases h
    exact tsGranted_rides o c
  | refused =>
    cases h
    exact tsFailed_rides o c
  | txDone airEndUs =>
    cases h
    exact phyTxDone_rides o c airEndUs
  | rxDone rx =>
    cases h
    exact phyRxDone_rides o c rx
  | rxFailed reason =>
    cases h
    exact phyRxFailed_rides o c reason
  | _ => cases hi

theorem Spares.rides {c c' : Node cfg} (h : Spares c c') :
    Rides c c' ∧ (c.ev.kind = .none → c'.slot = c.slot) := by
  cases h with
  | on ha => exact ⟨.of_slot ha.slot, fun _ => ha.slot⟩
  | abort hk ha =>
    refine ⟨.of_slot_done ha.slot, fun hnone => ?_⟩
    rw [hk] at hnone
    cases hnone

/-- Every move of a run in which no event ends while a pick is due keeps the order. -/
theorem Desk.Step.inv {d d' : Desk cfg} (h : Desk.Step psa Desk.NoPickDue d d') (hd : d.Inv) :
    d'.Inv := by
  obtain ⟨m, hm, hdue⟩ := h
  cases m with
  | submit w =>
    simp only [Desk.perform] at hm
    split at hm
    · cases hm
    · next hw =>
      cases hm
      obtain ⟨s, hs, hst⟩ := hd
      exact ⟨s, hs, hst.submit hw⟩
  | call o inp =>
    simp only [Desk.perform] at hm
    split at hm
    · next hi =>
      obtain ⟨c, hc, rfl⟩ := Option.map_eq_some_iff.mp hm
      obtain ⟨s, hs, hst⟩ := hd
      exact ⟨s, hs, hst.node (perform_call_slot hi hc)⟩
    · cases hm
  | interrupt o inp =>
    simp only [Desk.perform] at hm
    split at hm
    · next hi =>
      obtain ⟨c, hc, rfl⟩ := Option.map_eq_some_iff.mp hm
      obtain ⟨s, hs, hst⟩ := hd
      have hon := hst.enabled hi.1 hi.2
      refine (Desk.Inv.handled ⟨s, hs, hst⟩ (perform_interrupt_rides hi.1 hc)
        (fun hnone => absurd hnone hon) fun hends => hdue ?_).1
      rw [Desk.handled, if_pos hends]
      exact hends
    · cases hm
  | take =>
    simp only [Desk.perform] at hm
    split at hm
    · next w rest hp hq =>
      cases hm
      obtain ⟨s, hs, hst⟩ := hd
      exact ⟨s, hs, hst.take hp hq⟩
    · cases hm
  | work o more =>
    simp only [Desk.perform] at hm
    split at hm
    · cases hm
    · next hp =>
      obtain ⟨c, hc, rfl⟩ := Option.map_eq_some_iff.mp hm
      exact hd.picked hc (.inl hp)
    · next hp =>
      obtain ⟨c, hc, rfl⟩ := Option.map_eq_some_iff.mp hm
      exact hd.picked hc (.inr (.inl hp))
    · next hp =>
      obtain ⟨c, hc, rfl⟩ := Option.map_eq_some_iff.mp hm
      exact hd.picked hc (.inr (.inr hp))
    · next hp =>
      obtain ⟨c, hc, rfl⟩ := Option.map_eq_some_iff.mp hm
      obtain ⟨hr, hslot⟩ := (rxHandler_spares hc).rides
      have hdue' : Ends d.node c → d.NoPickDue := by
        intro hends
        refine hdue ?_
        rw [Desk.handled, if_pos hends]
        exact hends
      obtain ⟨hinv, hph⟩ := hd.handled hr hslot hdue'
      exact hinv.received (hph.trans hp) more
    · next hp =>
      obtain ⟨c, hc, rfl⟩ := Option.map_eq_some_iff.mp hm
      exact hd.settledWith hc hp
    · next hp =>
      cases hm
      exact hd.cleared hp

theorem Desk.Start.inv {d : Desk cfg} (h : d.Start) : d.Inv := by
  refine ⟨.free, by rw [h.log]; rfl, .free h.ev h.phy ?_ ?_⟩
  · rw [h.queue]
    nofun
  · rw [h.phase]
    nofun

theorem Desk.Inv.isSettled {d : Desk cfg} (h : d.Inv) : d.Settles := by
  obtain ⟨s, hs, hst⟩ := h
  refine ⟨s, hs, fun n k i hover => ?_⟩
  subst hover
  cases hst with
  | ended _ _ _ haw =>
    rcases haw with ⟨-, pre, post, hq, -, -⟩ | ⟨hf, -⟩
    · rw [hq]
      exact .inl (List.mem_append_right _ List.mem_cons_self)
    · exact .inr hf

/-- In every run in which no event ends while a run of `sched_pick` is due, events are chosen, end
and are settled in turn, each settled once as what it was. -/
theorem settles {d d' : Desk cfg} (hd : d.Start)
    (h : Relation.ReflTransGen (Desk.Step psa Desk.NoPickDue) d d') : d'.Settles := by
  have hinv : d'.Inv := by
    induction h with
    | refl => exact hd.inv
    | tail _ hstep ih => exact hstep.inv ih
  exact hinv.isSettled

/-! ## Two runs -/

section

variable (psa : Psa) (P : Desk cfg → Prop) [DecidablePred P]

/-- Make the given moves, while no event ends in a state without `P`. -/
def Desk.run (d : Desk cfg) : List DeskMove → Option (Desk cfg)
  | [] => some d
  | m :: rest => (d.perform psa m).bind fun d' =>
    if Ends d.node d'.node → P d then d'.run rest else none

variable {P}

theorem Desk.run_steps {d d' : Desk cfg} {moves : List DeskMove}
    (h : d.run psa P moves = some d') : Relation.ReflTransGen (Desk.Step psa P) d d' := by
  induction moves generalizing d with
  | nil =>
    cases h
    exact .refl
  | cons m rest ih =>
    rw [Desk.run] at h
    obtain ⟨e, he, h⟩ := Option.bind_eq_some_iff.mp h
    split_ifs at h with hends
    exact .head ⟨m, he, hends⟩ (ih h)

theorem Desk.exists_run {d : Desk cfg} (moves : List DeskMove) (f : Desk cfg → Bool)
    (h : (d.run psa P moves).any f = true) :
    ∃ d', Relation.ReflTransGen (Desk.Step psa P) d d' ∧ f d' = true := by
  cases hr : d.run psa P moves with
  | none => simp [hr] at h
  | some d' => exact ⟨d', run_steps psa hr, by simpa [hr] using h⟩

end

/-- A node that initiates one link and has nothing else to do for a while. -/
def initiatorNode : Node .default :=
  { Node.boot .default (plainIdent 1 1) with
    started := true
    running := true
    nowUs := 100000
    neigh := fun i => if i.val = 0 then {
        state := .linked
        addr := 2
        sched := {
          initiator := true
          epochUs := 200000
          anchorUs := 200000
          intervalUs := 200000
          chanMap := 0xFFFF
          subrate := 1
          lastRxUs := 100000
          supTimeoutUs := 6000000 }
        keys := { keyId := some [1], linkKey := [1], hasKey := true } }
      else {}
    net := { (Node.boot .default (plainIdent 1 1)).net with
      nextBeaconUs := none, nextScanUs := 10000000, nextChanEvalUs := 10000000 } }

/-- The link event is chosen and starts. -/
def eventStarts : List DeskMove :=
  [.submit .sched, .take, .work (calm 1) false, .call (calm 1) (.tick 99900),
    .interrupt (calm 1) .granted, .call (calm 1) (.tick 1000), .interrupt (calm 1) (.txDone 200900),
    .call (calm 1) (.tick 1000)]

/-- It ends without a reply, is settled, and the next is chosen. -/
def settledInTurn : List DeskMove :=
  eventStarts ++ [DeskMove.interrupt (calm 1) (.rxFailed .timeout), .submit .sched, .take,
    .work (calm 1) false, .work (calm 1) false, .work (calm 1) false]

theorem settles_in_turn :
    ∃ d' : Desk .default, Relation.ReflTransGen (Desk.Step Psa.plain Desk.NoPickDue)
      { node := initiatorNode } d' ∧ d'.log.length = 4 ∧ d'.Settles := by
  obtain ⟨d', hd, hlen⟩ := Desk.exists_run (P := Desk.NoPickDue) Psa.plain settledInTurn
    (fun d => decide (d.log.length = 4)) (d := { node := initiatorNode }) (by decide +kernel)
  exact ⟨d', hd, of_decide_eq_true hlen, settles ⟨rfl, rfl, rfl, rfl, rfl⟩ hd⟩

/-- `lg_sched_kick` is called before the event ends. -/
def kickedBefore : List DeskMove :=
  eventStarts ++ [DeskMove.submit .sched, .interrupt (calm 1) (.rxFailed .timeout), .take,
    .work (calm 1) false]

/-- The scheduler picks the next event before the one that ended is settled. -/
theorem not_settles_kicked :
    ¬ ∀ (psa : Psa) (d d' : Desk .default), d.Start →
      Relation.ReflTransGen (Desk.Step psa fun _ => True) d d' → d'.Settles := by
  intro h
  obtain ⟨d', hd, hbad⟩ := Desk.exists_run (P := fun _ => True) Psa.plain kickedBefore
    (fun d => decide (status d.log = none)) (d := { node := initiatorNode }) (by decide +kernel)
  obtain ⟨s, hs, -⟩ := h Psa.plain _ d' ⟨rfl, rfl, rfl, rfl, rfl⟩ hd
  rw [of_decide_eq_true hbad] at hs
  cases hs

end LockGrid
