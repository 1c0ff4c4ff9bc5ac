import LockGrid.Release
import LockGrid.Subrates

/-!
# Replies that are lost

In a link event the initiator sends first, and its frame is acknowledged by the reply. Nothing
acknowledges the reply. Beside the node stands which messages the neighbours have had; what is lost
of its frames is up to the run.
-/
namespace LockGrid

variable {cfg : Config} {psa : Psa} {ident : Identity} {c c' d : Node cfg}
  {i : Fin cfg.maxNeighbors} {o : Oracle}

/-! ## What is on air -/

/-- Whether the node sends first in the link event, whether it has sent, and the link frames it has
transmitted. -/
def Node.airing (c : Node cfg) : Bool × Bool × List (ℕ × Staged) :=
  (c.evst.txFirst, c.evst.sentTx, c.hist.aired)

theorem airing_of_radio (h : d.radio = c.radio) : d.airing = c.airing := by
  simp only [Node.radio, Prod.mk.injEq] at h
  obtain ⟨hevst, -, -, -, -, -, haired, -⟩ := h
  simp only [Node.airing, hevst, haired]

theorem Aside.airing (h : Aside c d) : d.airing = c.airing := airing_of_radio h.radio

theorem command_airing (o : Oracle) (c : Node cfg) (p : Phy) :
    (command o c p).airing = c.airing := by
  unfold command
  split <;> rfl

theorem Winds.airing (h : Winds c d) : d.airing = c.airing := by
  cases h with
  | on h => exact h.airing
  | tuned h => exact h.airing
  | done h => exact h.airing

theorem Spares.airing (h : Spares c d) : d.airing = c.airing := by
  cases h with
  | on h => exact h.airing
  | abort _ h => exact h.airing

theorem requestEvent_airing {cand : Candidate cfg} (h : requestEvent psa o c cand = some d) :
    d.airing = c.airing := by
  have hplan := (Aside.of_quiet (eventPlan_quiet c cand)).airing
  unfold requestEvent at h
  dsimp only at h
  split at h
  · exact (dropLate_aside h).airing.trans hplan
  · split at h <;> cases h
    · exact hplan
    · exact hplan

theorem schedPick_airing (h : schedPick psa o c = some d) : d.airing = c.airing := by
  unfold schedPick at h
  split at h
  · cases h
    rfl
  · split at h
    · cases h
    · next l e hc =>
      have he : e.airing = c.airing := (candidates_aside hc).airing
      split at h
      · cases h
        exact he
      · next cand _ =>
        have hs := airing_of_radio (stageFor_radio psa o e cand)
        dsimp only at h
        split at h
        · exact (requestEvent_airing h).trans (hs.trans he)
        · cases h
          exact hs.trans he

theorem missNoted_airing (c : Node cfg) : (missNoted c).airing = c.airing := by
  rcases missNoted_cases c with hc | ⟨j, hc⟩ <;> rw [hc]
  rfl

theorem settle_airing (h : settle psa o c = some d) : d.airing = c.airing :=
  (airing_of_radio (settle_radio h).1).trans (missNoted_airing c)

theorem tsGranted_airing (psa : Psa) (o : Oracle) (c : Node cfg) :
    (tsGranted psa o c).airing = c.airing ∨ (tsGranted psa o c).evst.sentTx = false := by
  unfold tsGranted
  dsimp only
  split
  · next i _ _ =>
    right
    have hair := command_airing o { c with
      granted := true
      evst := { txFirst := (c.neigh i).sched.initiator, gotRx := false, sentTx := false,
                histNo := c.ev.histNo } } (if (c.neigh i).sched.initiator then .tx else .rx)
    exact congrArg (fun a => a.2.1) hair
  all_goals left
  · exact (beaconStart_winds o { c with granted := true }).airing
  · exact command_airing o _ .rx
  · exact command_airing o _ .rx
  · exact (joinTxStart_winds psa o { c with granted := true }).airing
  · exact (joinRxStart_winds o { c with granted := true }).airing
  · exact (Aside.of_quiet (lgChanNoise_quiet { c with granted := true } _ _)).airing
  · rfl

theorem tsFailed_airing (o : Oracle) (c : Node cfg) : (tsFailed o c).airing = c.airing := by
  unfold tsFailed
  split
  · rfl
  · exact (lgLinkEventMiss_aside o c _).airing
  · exact (trackResult_aside c false).airing
  all_goals rfl

/-- A frame of the link event with neighbour `i` has gone out. -/
theorem linkTxDone_airing (o : Oracle) (c : Node cfg) (i : Fin cfg.maxNeighbors) :
    (linkTxDone o c i).airing =
      (c.evst.txFirst, true, (i.val, (c.neigh i).tx.histStaged) :: c.hist.aired) := by
  unfold linkTxDone
  dsimp only
  split
  · rfl
  · exact command_airing o _ .rx

theorem linkRxDone_airing (o : Oracle) (c : Node cfg) (i : Fin cfg.maxNeighbors) (rx : RxRec) :
    (linkRxDone o c i rx).airing = c.airing := by
  have hnote : (noteLinkFrame c i rx).airing = c.airing := (noteLinkFrame_aside c i rx).airing
  unfold linkRxDone
  dsimp only
  generalize noteLinkFrame c i rx = d at hnote ⊢
  split
  · exact hnote
  · split
    · exact (command_airing o _ .tx).trans hnote
    · exact hnote

theorem linkRxFail_airing (c : Node cfg) (i : Fin cfg.maxNeighbors) (reason : RxFail) :
    (linkRxFail c i reason).airing = c.airing := by
  have hresult : ∀ d : Node cfg,
      (if d.evst.txFirst then lgNeighTxResult d i false else d).airing = d.airing := by
    intro d
    split
    · exact (Aside.of_quiet (lgNeighTxResult_quiet d i false)).airing
    · rfl
  unfold linkRxFail
  by_cases hr : reason = .crc ∨ reason = .timeout
  · rw [if_pos hr]
    exact (hresult _).trans (Aside.of_quiet (lgChanResult_quiet c c.ev.chan false)).airing
  · rw [if_neg hr]
    exact hresult c

theorem phyRxDone_airing (o : Oracle) (c : Node cfg) (rx : RxRec) :
    (phyRxDone o c rx).airing = c.airing := by
  unfold phyRxDone
  split
  · exact linkRxDone_airing o c _ rx
  · exact (scanRxDone_winds o c rx).airing
  · exact ((lgRxPost_aside c rx).trans (trackResult_aside _ true)).airing
  · exact (joinRxDone_winds o c rx).airing
  · rfl

theorem phyRxFailed_airing (o : Oracle) (c : Node cfg) (reason : RxFail) :
    (phyRxFailed o c reason).airing = c.airing := by
  unfold phyRxFailed
  split
  · exact linkRxFail_airing c _ reason
  · exact (joinRxFail_winds o c reason).airing
  · exact (joinRxFail_winds o c reason).airing
  · exact (trackResult_aside c false).airing
  · rfl

theorem lgStart_airing (psa : Psa) (o : Oracle) (c : Node cfg) :
    (lgStart psa o c).airing = c.airing := by
  unfold lgStart
  split
  · rfl
  · split
    · rfl
    · refine (Aside.of_quiet (lgDiscBeaconFinish_quiet psa o _)).airing.trans ?_
      exact (Aside.of_quiet (lgRoleEvaluate_quiet o _)).airing.trans rfl

theorem lgStop_airing (o : Oracle) (c : Node cfg) : (lgStop o c).airing = c.airing := by
  unfold lgStop
  split
  · rfl
  · exact (stopLinks_aside o (List.finRange cfg.maxNeighbors) c).airing

/-- A step puts no link frame on air, begins a link event, or puts the staged one of the event's
neighbour there. -/
theorem perform_airing {inp : Input} (h : perform psa o c inp = some c') :
    c'.airing = c.airing ∨ c'.evst.sentTx = false ∨
      ∃ airEndUs i, inp = .txDone airEndUs ∧ c.ev.kind = .link ∧ c.ev.neigh = some i ∧
        c'.airing =
          (c.evst.txFirst, true, (i.val, (c.neigh i).tx.histStaged) :: c.hist.aired) := by
  cases inp with
  | tick us =>
    cases h
    exact .inl rfl
  | schedWork => exact .inl (schedPick_airing h)
  | finishWork o' =>
    left
    simp only [perform, schedFinish] at h
    split at h
    · cases h
    · next e he =>
      have hsettle : e.airing = c.airing := settle_airing he
      exact (schedPick_airing h).trans hsettle
  | rxWork => exact .inl (rxHandler_spares h).airing
  | granted =>
    cases h
    exact (tsGranted_airing psa o c).imp_right .inl
  | refused =>
    cases h
    exact .inl (tsFailed_airing o c)
  | txDone airEndUs =>
    cases h
    by_cases hlink : c.ev.kind = .link ∧ ∃ i, c.ev.neigh = some i
    · obtain ⟨hk, i, hn⟩ := hlink
      refine .inr (.inr ⟨airEndUs, i, rfl, hk, hn, ?_⟩)
      simp only [phyTxDone, hk, hn]
      exact linkTxDone_airing o c i
    · left
      unfold phyTxDone
      split
      · next i hk hn => exact absurd ⟨hk, i, hn⟩ hlink
      · exact (beaconTxDone_winds o c airEndUs).airing
      · exact (joinTxDone_winds psa o c airEndUs).airing
      · rfl
  | rxDone rx =>
    cases h
    exact .inl (phyRxDone_airing o c rx)
  | rxFailed reason =>
    cases h
    exact .inl (phyRxFailed_airing o c reason)
  | send dst port payload flags =>
    cases h
    exact .inl (lgSend_aside c dst port payload flags).airing
  | backhaulSet up =>
    cases h
    exact .inl (Aside.of_quiet (lgBackhaulSet_quiet o c up)).airing
  | tuningSet t =>
    cases h
    exact .inl (Aside.of_quiet (.trans ⟨_, _, rfl⟩ (lgDiscRetune_quiet o 0 _))).airing
  | start =>
    cases h
    exact .inl (lgStart_airing psa o c)
  | stop =>
    cases h
    exact .inl (lgStop_airing o c)

/-! ## What the neighbours have had -/

/-- The message that goes out with a step, if a link frame goes out that carries one. -/
def Node.speaks (c : Node cfg) : Input → Option ℕ
  | .txDone _ =>
    match c.ev.kind, c.ev.neigh with
    | .link, some i =>
      match (c.neigh i).tx.histStaged with
      | .data uid => some uid
      | _ => none
    | _, _ => none
  | _ => none

/-- The messages the neighbours have had, after a step whose frame is lost or not. -/
def Node.hears (c : Node cfg) (inp : Input) (lost : Bool) (had : List ℕ) : List ℕ :=
  if lost then had else (c.speaks inp).toList ++ had

/-- The nodes that runs come to, with the messages their neighbours have had. A step says too
whether the frame that goes out with it is lost. -/
inductive RunHeard (psa : Psa) (ident : Identity) (P : Node cfg → Input → Bool → Prop) :
    Node cfg → List ℕ → Prop
  | boot : RunHeard psa ident P (Node.boot cfg ident) []
  | step {c c' : Node cfg} {had : List ℕ} {o : Oracle} {inp : Input} {lost : Bool}
    (h : RunHeard psa ident P c had) (he : Enabled c inp) (hP : P c inp lost)
    (hp : perform psa o c inp = some c') :
    RunHeard psa ident P c' (c.hears inp lost had)

/-- The event that is over is settled with the message that was staged for it. -/
def Node.Settles (c : Node cfg) : Prop :=
  c.finishKind = .link → ∀ i ∈ c.finishNeigh, c.evst.gotRx = true → c.evst.sentTx = true →
    (c.neigh i).tx.txNeedsAck = true → ∀ k ∈ (lgTxqPeek c (c.neigh i).addr).1,
      (c.neigh i).tx.histStaged = .data (c.txq k).histUid

/-- When a step is heeded: it is orderly, a link event is settled with the message that was staged
for it, and no reply that carries a message is lost. -/
def Heeded (c : Node cfg) (inp : Input) (lost : Bool) : Prop :=
  Orderly c inp ∧ (match inp with | .finishWork _ => c.Settles | _ => True) ∧
    (lost = true → c.evst.txFirst = false → c.speaks inp = none)

theorem RunHeard.when {P : Node cfg → Input → Bool → Prop} {Q : Node cfg → Input → Prop}
    {had : List ℕ} (h : RunHeard psa ident P c had) (hPQ : ∀ c inp lost, P c inp lost → Q c inp) :
    ReachableWhen psa ident Q c := by
  induction h with
  | boot => exact .refl
  | step _ he hP hp ih => exact ih.tail ⟨_, _, he, hPQ _ _ _ hP, hp⟩

/-- The neighbour has had the message of the last frame, if that was a reply. -/
def Node.WasHeard (c : Node cfg) (had : List ℕ) : Prop :=
  c.evst.sentTx = true → c.evst.txFirst = false →
    ∀ j uid, c.hist.aired.head? = some (j, .data uid) → uid ∈ had

theorem RunHeard.wasHeard {had : List ℕ} (h : RunHeard psa ident Heeded c had) :
    c.WasHeard had := by
  induction h with
  | boot => exact nofun
  | @step c c' had o inp lost _ _ hP hp ih =>
    have hmore : ∀ uid ∈ had, uid ∈ c.hears inp lost had := by
      intro uid hu
      unfold Node.hears
      split
      · exact hu
      · exact List.mem_append_right _ hu
    intro hsent hfirst j uid haired
    rcases perform_airing hp with hsame | hnone | ⟨airEndUs, i, rfl, hk, hn, hair⟩
    · simp only [Node.airing, Prod.mk.injEq] at hsame
      obtain ⟨hf, hs, ha⟩ := hsame
      rw [hs] at hsent
      rw [hf] at hfirst
      rw [ha] at haired
      exact hmore uid (ih hsent hfirst j uid haired)
    · rw [hnone] at hsent
      cases hsent
    · simp only [Node.airing, Prod.mk.injEq] at hair
      obtain ⟨hf, -, ha⟩ := hair
      rw [hf] at hfirst
      rw [ha, List.head?_cons, Option.some.injEq, Prod.mk.injEq] at haired
      have hspeaks : c.speaks (.txDone airEndUs) = some uid := by
        simp only [Node.speaks, hk, hn, haired.2]
      cases lost with
      | true =>
        rw [hP.2.2 rfl hfirst] at hspeaks
        cases hspeaks
      | false =>
        rw [Node.hears, hspeaks]
        exact List.mem_cons_self

/-- What is to hold of the settlement of a link event: a message leaves the queue of the responder
only if the neighbour has had it. -/
def ReleasesHeard (psa : Psa) (o : Oracle) (c : Node cfg) (i : Fin cfg.maxNeighbors)
    (had : List ℕ) : Prop :=
  c.evst.txFirst = false → ∀ k, (lgLinkEventFinish psa o c i).txq k ≠ c.txq k →
    (c.txq k).histUid ∈ had

/-- A responder releases what was heard, in every run in which no reply with a message is lost and
each is settled with the message it was staged from. -/
theorem replies_heard {had : List ℕ} {o' : Oracle} {lost : Bool}
    (h : RunHeard psa ident Heeded c had) (hP : Heeded c (.finishWork o') lost)
    (hk : c.finishKind = .link) (hn : c.finishNeigh = some i) (o : Oracle) :
    ReleasesHeard psa o c i had := by
  intro hfirst k hgone
  have hrun : ReachableWhen psa ident Orderly c := h.when fun _ _ _ hh => hh.1
  have hrel : ReleasesAired psa o c i :=
    (releasesAired_iff hrun hk hn o).mpr (hP.2.1 hk i hn)
  obtain ⟨-, hsent, haired⟩ := hrel k hgone
  exact h.wasHeard hsent hfirst _ _ haired

/-! ## Two runs -/

section

variable (psa) (P : Node cfg → Input → Bool → Prop) [∀ c inp lost, Decidable (P c inp lost)]

/-- Take the given steps, each with whether the frame that goes out with it is lost, while each
meets `P`. -/
def runHeard (s : Node cfg × List ℕ) : List (Oracle × Input × Bool) →
    Option (Node cfg × List ℕ)
  | [] => some s
  | (o, inp, lost) :: rest =>
    if Enabled s.1 inp ∧ P s.1 inp lost then
      (perform psa o s.1 inp).bind fun c' =>
        runHeard (c', s.1.hears inp lost s.2) rest
    else none

variable {psa P}

theorem runHeard_steps {s s' : Node cfg × List ℕ} {inputs : List (Oracle × Input × Bool)}
    (hs : RunHeard psa ident P s.1 s.2) (h : runHeard psa P s inputs = some s') :
    RunHeard psa ident P s'.1 s'.2 := by
  induction inputs generalizing s with
  | nil =>
    cases h
    exact hs
  | cons oi rest ih =>
    obtain ⟨o, inp, lost⟩ := oi
    rw [runHeard] at h
    split at h
    · next he =>
      obtain ⟨d, hd, h⟩ := Option.bind_eq_some_iff.mp h
      exact ih (hs.step he.1 he.2 hd) h
    · cases h

/-- A run that ends with the property `p` shows that one can be made. -/
theorem exists_runHeard (psa : Psa) (ident : Identity) (inputs : List (Oracle × Input × Bool))
    (p : Node cfg → List ℕ → Bool)
    (h : (runHeard psa P (Node.boot cfg ident, []) inputs).any (fun s => p s.1 s.2) = true) :
    ∃ c had, RunHeard psa ident P c had ∧ p c had = true := by
  obtain ⟨s, hs, hp⟩ := (Option.any_eq_true _ _).mp h
  exact ⟨s.1, s.2, runHeard_steps .boot hs, hp⟩

end

def wordAt (ctr : UInt32) (airStartUs : ℕ) : RxRec :=
  { sealedFrame .ack 1 2 rspKey ctr [] with airStartUs := airStartUs }

/-- Node 1 is linked and queues a message in its first event. -/
def askedRun : List (Oracle × Input) :=
  joinedWith pacedParams [] ++
    [(calm 6, Input.tick 380000), (calm 7, .schedWork), (calm 7, .schedWork), (calm 8, .granted),
      (calm 8, .tick 25000), (calm 8, .rxDone (wordAt 2 420500)), (calm 8, .send 2 1 [42] 0),
      (calm 8, .txDone 420900), (calm 9, .finishWork (calm 10)), (calm 9, .rxWork),
      (calm 9, .tick 174000), (calm 9, .schedWork), (calm 9, .granted), (calm 9, .tick 21000),
      (calm 9, .rxDone (wordAt 3 620500))]

/-- It replies with the message in the next. -/
def replyRun (lost : Bool) : List (Oracle × Input × Bool) :=
  askedRun.map (fun s => (s.1, s.2, false)) ++ [(calm 9, Input.txDone 620900, lost)]

instance (c : Node cfg) (inp : Input) (lost : Bool) : Decidable (Heeded c inp lost) := by
  rcases inp <;> unfold Heeded Node.Settles <;> infer_instance

theorem replies_heard_replied : ∃ (c : Node .default) (had : List ℕ),
    RunHeard Psa.plain (plainIdent 1 1) Heeded c had ∧ releasesFirst c = true ∧
      ReleasesHeard Psa.plain (calm 15) c firstNeigh had := by
  obtain ⟨c, had, h, hp⟩ := exists_runHeard (P := Heeded) Psa.plain (plainIdent 1 1)
    (replyRun false)
    (fun (c : Node .default) _ => releasesFirst c && Heeded c (.finishWork (calm 10)) false)
    (by decide +kernel)
  rw [Bool.and_eq_true, decide_eq_true_eq] at hp
  obtain ⟨hk, hn, -⟩ := of_decide_eq_true hp.1
  exact ⟨c, had, h, hp.1, replies_heard h hp.2 hk hn (calm 15)⟩

/-- The reply is lost, and its message is gone from the queue. -/
theorem not_replies_heard : ¬ ∀ (cfg : Config) (psa : Psa) (ident : Identity) (o : Oracle)
    (c : Node cfg) (i : Fin cfg.maxNeighbors) (had : List ℕ),
    RunHeard psa ident (fun _ _ _ => True) c had → c.finishKind = .link →
    c.finishNeigh = some i → ReleasesHeard psa o c i had := by
  intro hall
  obtain ⟨c, had, h, hp⟩ := exists_runHeard (P := fun _ _ _ => True) Psa.plain (plainIdent 1 1)
    (replyRun true)
    (fun (c : Node .default) had => releasesFirst c && decide (c.evst.txFirst = false ∧ had = []))
    (by decide +kernel)
  rw [Bool.and_eq_true, decide_eq_true_eq] at hp
  obtain ⟨hrel, hfirst, rfl⟩ := hp
  obtain ⟨hk, hn, hused, hfreed⟩ := of_decide_eq_true hrel
  have hgone : (lgLinkEventFinish Psa.plain (calm 15) c firstNeigh).txq firstSlot ≠
      c.txq firstSlot := by
    intro heq
    rw [heq, hused] at hfreed
    cases hfreed
  have hheard := hall _ Psa.plain (plainIdent 1 1) (calm 15) c firstNeigh [] h hk hn hfirst
    firstSlot hgone
  cases hheard

end LockGrid
