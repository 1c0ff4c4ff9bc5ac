import LockGrid.Commands
import LockGrid.Dwell
import LockGrid.Evidence
import LockGrid.Promises
import LockGrid.Replies

/-!
# What the work items ask of the arbiter

A work item or a call leaves the scheduled event alone, gives it up, or asks the arbiter for a new
one: that only while there is none, and in good time.
-/
namespace LockGrid

variable {cfg : Config} {psa : Psa} {c c' d : Node cfg} {o : Oracle} {inp : Input}

/-! ## Candidates -/

theorem addCandidate_kind {l : List (Candidate cfg)} (hl : ∀ x ∈ l, x.kind ≠ .none) (k : EvKind)
    (t : Option ℕ) (n : Option (Fin cfg.maxNeighbors)) (prio : ℕ) (hk : k ≠ .none) :
    ∀ x ∈ addCandidate l k t n prio, x.kind ≠ .none := by
  intro x hx
  rcases mem_addCandidate hx with hx | ⟨hkind, -, -⟩
  · exact hl x hx
  · rwa [hkind]

theorem neighCandidate_kind {l : List (Candidate cfg)} {i : Fin cfg.maxNeighbors}
    {p : List (Candidate cfg) × Node cfg} (hl : ∀ x ∈ l, x.kind ≠ .none)
    (h : neighCandidate c l i = some p) : ∀ x ∈ p.1, x.kind ≠ .none := by
  unfold neighCandidate at h
  dsimp only at h
  split at h
  · obtain ⟨⟨n, t⟩, -, rfl⟩ := Option.map_eq_some_iff.mp h
    exact addCandidate_kind hl _ _ _ _ (by simp)
  · cases h
    apply addCandidate_kind hl
    split <;> simp
  · cases h
    exact hl

theorem candidates_kind {p : List (Candidate cfg) × Node cfg} (h : candidates c = some p) :
    ∀ x ∈ p.1, x.kind ≠ .none := by
  have hfold : ∀ (l : List (Fin cfg.maxNeighbors)) (st p : List (Candidate cfg) × Node cfg),
      (∀ x ∈ st.1, x.kind ≠ .none) →
      l.foldlM (fun st i => neighCandidate st.2 st.1 i) st = some p →
      ∀ x ∈ p.1, x.kind ≠ .none := by
    intro l
    induction l with
    | nil =>
      intro st p hst h
      cases h
      exact hst
    | cons i l ih =>
      intro st p hst h
      rw [List.foldlM_cons] at h
      obtain ⟨st', hone, h⟩ := Option.bind_eq_some_iff.mp h
      exact ih st' p (neighCandidate_kind hst hone) h
  obtain ⟨⟨l, e⟩, he, rfl⟩ := Option.map_eq_some_iff.mp h
  have hl : ∀ x ∈ l, x.kind ≠ .none := hfold _ ([], c) _ (by simp) he
  have hwin := addCandidate_kind hl .joinRx (lgJoinWinNextUs e) none prioNormal (by simp)
  have hbeacon := addCandidate_kind hwin .beacon (lgDiscNextBeaconUs e) none prioNormal (by simp)
  have hscan := addCandidate_kind hbeacon .scan (some e.net.nextScanUs) none prioScan (by simp)
  have heval :=
    addCandidate_kind hscan .chanEval (some e.net.nextChanEvalUs) none prioScan (by simp)
  exact addCandidate_kind heval _ _ _ _ (by simp)

/-! ## Work items and calls -/

/-- What a work item or a call does to the scheduled event. -/
inductive Affects (c c' : Node cfg) : Prop
  | same (hev : c'.ev = c.ev) (hphy : c'.phy = c.phy) (hgo : c'.granted = c.granted)
  | given (hev : c'.ev.kind = .none) (hphy : c'.phy = .idle) (hgo : c'.granted = false)
  | asks (hfree : c.ev.kind = .none) (hidle : c.phy = .idle) (hno : c.granted = false)
    (hphy : c'.phy = .idle) (hgo : c'.granted = false) (hkind : c'.ev.kind ≠ .none)
    (hsoon : c'.nowUs + schedMinHorizonUs ≤ c'.ev.atUs)
    (hpartner : c'.ev.kind = .link → ∃ i, c'.ev.neigh = some i)
    (hplan : ∃ (d : Node cfg) (cand : Candidate cfg) (no : ℕ),
      c'.ev = { (eventPlan d cand).1 with histNo := no })

theorem Affects.of_radio (h : c'.radio = c.radio) : Affects c c' := by
  simp only [Node.radio, Prod.mk.injEq] at h
  obtain ⟨-, hev, -, -, -, hphy, -, -, -, hgo⟩ := h
  exact .same hev hphy hgo

theorem Affects.after' (h : Affects d c') (hev : d.ev = c.ev) (hphy : d.phy = c.phy)
    (hgo : d.granted = c.granted) : Affects c c' := by
  cases h with
  | same hev' hphy' hgo' => exact .same (hev'.trans hev) (hphy'.trans hphy) (hgo'.trans hgo)
  | given hev' hphy' hgo' => exact .given hev' hphy' hgo'
  | asks hfree hidle hno hphy' hgo' hkind hsoon hpartner hplan =>
    exact .asks (hev ▸ hfree) (hphy ▸ hidle) (hgo ▸ hno) hphy' hgo' hkind hsoon hpartner hplan

theorem Affects.after (h : Affects d c') (hr : d.radio = c.radio) : Affects c c' := by
  simp only [Node.radio, Prod.mk.injEq] at hr
  obtain ⟨-, hev, -, -, -, hphy, -, -, -, hgo⟩ := hr
  exact h.after' hev hphy hgo

theorem requestEvent_affects {cand : Candidate cfg} (hfree : c.ev.kind = .none)
    (hidle : c.phy = .idle) (hno : c.granted = false) (hkind : cand.kind ≠ .none)
    (hn : cand.kind = .link → ∃ i, cand.neigh = some i)
    (h : requestEvent psa o c cand = some d) : Affects c d := by
  have hplan := (Aside.of_quiet (eventPlan_quiet c cand)).radio
  unfold requestEvent at h
  dsimp only at h
  split at h
  · exact .of_radio ((dropLate_aside h).radio.trans hplan)
  · next hlate =>
    split at h
    · cases h
      exact .of_radio hplan
    · cases h
      simp only [Node.radio, Prod.mk.injEq] at hplan
      obtain ⟨-, -, -, -, -, hphy, -, -, -, hgo⟩ := hplan
      have hsame : (eventPlan c cand).2.nowUs = c.nowUs := by
        obtain ⟨net, view, he⟩ := eventPlan_quiet c cand
        rw [he]
      refine .asks hfree hidle hno (hphy.trans hidle) (hgo.trans hno) ?_ ?_ ?_ ⟨c, cand, _, rfl⟩
      · change (eventPlan c cand).1.kind ≠ .none
        rwa [eventPlan_kind]
      · change (eventPlan c cand).2.nowUs + schedMinHorizonUs ≤ (eventPlan c cand).1.atUs
        rw [hsame]
        exact Nat.le_of_not_lt hlate
      · intro hl
        exact eventPlan_partner c hl hn

theorem schedPick_affects (h : schedPick psa o c = some d) : Affects c d := by
  unfold schedPick at h
  split at h
  · cases h
    exact .same rfl rfl rfl
  · next hguard =>
    simp only [Bool.or_eq_true, decide_eq_true_eq, not_or, not_not, Bool.not_eq_true] at hguard
    obtain ⟨⟨⟨-, hfree⟩, hno⟩, hidle⟩ := hguard
    split at h
    · cases h
    · next l e hc =>
      have he := (candidates_aside hc).radio
      split at h
      · cases h
        exact .of_radio he
      · next cand hsel =>
        have hs := (stageFor_radio psa o e cand).trans he
        have hmem := selectCandidate_mem hsel
        have hkind := candidates_kind hc cand hmem
        have hn := (candidates_wanted hc cand hmem).partner
        dsimp only at h
        split at h
        · generalize (stageFor psa o e cand).2 = f at hs h
          have hfields := hs
          simp only [Node.radio, Prod.mk.injEq] at hfields
          obtain ⟨-, hev, -, -, -, hphy, -, -, -, hgo⟩ := hfields
          have hask := requestEvent_affects (hev ▸ hfree) (hphy.trans hidle) (hgo.trans hno) hkind
            hn h
          exact hask.after hs
        · cases h
          exact .of_radio hs

theorem Spares.affects (h : Spares c d) : Affects c d := by
  cases h with
  | on ha => exact .of_radio ha.radio
  | abort _ _ => exact .given rfl rfl rfl

theorem stopLinks_radio (o : Oracle) (l : List (Fin cfg.maxNeighbors)) (c : Node cfg) :
    (stopLinks o l c).radio = c.radio := by
  induction l generalizing c with
  | nil => rfl
  | cons i l ih => exact (ih _).trans (lgLinkDown_aside _ c i).radio

/-- The work items, the calls of the application, and time. -/
theorem perform_affects (hi : inp.isInterrupt = false) (hs : inp ≠ .start)
    (h : perform psa o c inp = some d) : Affects c d := by
  cases inp with
  | tick us =>
    cases h
    exact .same rfl rfl rfl
  | schedWork => exact schedPick_affects h
  | finishWork o' =>
    change schedFinish psa o o' c = some d at h
    unfold schedFinish at h
    split at h
    · cases h
    · next e he =>
      have hsettled := (settle_radio he).1
      have hmissed : (missNoted c).ev = c.ev ∧ (missNoted c).phy = c.phy ∧
          (missNoted c).granted = c.granted := by
        rcases missNoted_cases c with hm | ⟨i, hm⟩ <;> rw [hm] <;> exact ⟨rfl, rfl, rfl⟩
      simp only [Node.radio, Prod.mk.injEq] at hsettled
      obtain ⟨-, hev, -, -, -, hphy, -, -, -, hgo⟩ := hsettled
      exact (schedPick_affects h).after' (hev.trans hmissed.1) (hphy.trans hmissed.2.1)
        (hgo.trans hmissed.2.2)
  | rxWork => exact (rxHandler_spares h).affects
  | send dst port payload flags =>
    cases h
    exact .of_radio (lgSend_aside c dst port payload flags).radio
  | backhaulSet up =>
    cases h
    exact .of_radio (Aside.of_quiet (lgBackhaulSet_quiet o c up)).radio
  | tuningSet t =>
    cases h
    exact .of_radio (Aside.of_quiet (.trans ⟨_, _, rfl⟩ (lgDiscRetune_quiet o 0 _))).radio
  | stop =>
    cases h
    unfold lgStop
    split
    · exact .same rfl rfl rfl
    · exact .given rfl rfl rfl
  | start => exact absurd rfl hs
  | _ => cases hi

/-! ## What a started event depends on -/

/-- Which side sends first, and the copy of the beacon that is on air. -/
def Node.pace (c : Node cfg) : Bool × ℕ := (c.evst.txFirst, c.net.beaconCopyIdx)

theorem Node.pace_eq (hair : d.airing = c.airing) (hcharts : d.charts.2 = c.charts.2) :
    d.pace = c.pace := by
  have hfirst : d.evst.txFirst = c.evst.txFirst := congrArg Prod.fst hair
  have hidx : d.net.beaconCopyIdx = c.net.beaconCopyIdx := congrArg (fun r => r.2.2.1) hcharts
  simp only [Node.pace, hfirst, hidx]

theorem schedPick_pace (h : schedPick psa o c = some d) : d.pace = c.pace := by
  have hair := schedPick_airing h
  cases schedPick_beacon h with
  | late _ _ _ hcharts he =>
    next e =>
    have hfirst : d.evst.txFirst = c.evst.txFirst := congrArg Prod.fst hair
    have hidx : d.net.beaconCopyIdx = c.net.beaconCopyIdx := by
      rw [he]
      exact congrArg (fun r => r.2.2.2.1) hcharts
    simp only [Node.pace, hfirst, hidx]
  | asked _ _ _ _ hcharts _ _ => exact Node.pace_eq hair (congrArg Prod.snd hcharts)
  | other _ hcharts _ _ => exact Node.pace_eq hair (congrArg Prod.snd hcharts)

theorem settle_pace (h : settle psa o c = some d) : d.pace = c.pace := by
  have hair := settle_airing h
  by_cases hk : c.finishKind = .beacon
  · have hd : d = lgRoleEvaluate o (lgDiscBeaconFinish psa o c) := by
      unfold settle at h
      rw [hk] at h
      exact (Option.some.inj h).symm
    have hcharts := congrArg Prod.snd (lgRoleEvaluate_charts o (lgDiscBeaconFinish psa o c))
    rw [← hd] at hcharts
    have hstaged : (lgDiscBeaconFinish psa o c).airing = c.airing := rfl
    have hpace : d.pace = (lgDiscBeaconFinish psa o c).pace :=
      Node.pace_eq (hair.trans hstaged.symm) hcharts
    exact hpace
  · exact Node.pace_eq hair (settle_charts hk h)

/-- The work items and the calls leave it alone. -/
theorem perform_pace (hi : inp.isInterrupt = false) (hs : inp ≠ .start)
    (h : perform psa o c inp = some d) : d.pace = c.pace := by
  cases inp with
  | tick us =>
    cases h
    rfl
  | schedWork => exact schedPick_pace h
  | finishWork o' =>
    change schedFinish psa o o' c = some d at h
    unfold schedFinish at h
    split at h
    · cases h
    · next e he =>
      have hsettled : e.pace = c.pace := settle_pace he
      have hpick := schedPick_pace h
      exact hpick.trans hsettled
  | rxWork =>
    exact Node.pace_eq (rxHandler_spares h).airing (congrArg Prod.snd (rxHandler_charts h))
  | send dst port payload flags =>
    cases h
    exact Node.pace_eq (lgSend_aside c dst port payload flags).airing
      (congrArg Prod.snd (lgSend_charts c dst port payload flags))
  | backhaulSet up =>
    cases h
    exact Node.pace_eq (Aside.of_quiet (lgBackhaulSet_quiet o c up)).airing
      (congrArg Prod.snd (lgBackhaulSet_charts o c up))
  | tuningSet t =>
    cases h
    rfl
  | stop =>
    cases h
    refine Node.pace_eq ?_ (congrArg Prod.snd (lgStop_charts o c))
    have hdown := airing_of_radio (stopLinks_radio o (List.finRange cfg.maxNeighbors) c)
    unfold lgStop
    split
    · rfl
    · exact hdown
  | start => exact absurd rfl hs
  | _ => cases hi

/-! ## Time -/

theorem lgRoleEvaluate_now (o : Oracle) (c : Node cfg) : c.nowUs ≤ (lgRoleEvaluate o c).nowUs := by
  rw [lgRoleEvaluate_eq]
  split
  · exact le_rfl
  · next want _ =>
    rw [applyRole_eq]
    split
    · exact le_rfl
    · exact (inRole_dwells o c want).now

/-- The role is evaluated no earlier than the call. -/
theorem Call.evaluates_now {k : Call cfg} (h : k.evaluates psa = some d) :
    k.node.nowUs ≤ d.nowUs := by
  obtain ⟨o, c, deed⟩ := k
  cases deed with
  | establish i pp initiator =>
    obtain ⟨s, -, rfl⟩ := Option.map_eq_some_iff.mp h
    have hup : Dwells c (comeUp c i pp s) := .of_stance (comeUp_stance c i pp s)
    exact (hup.trans (linksRecomputed_dwells _)).now
  | down i =>
    change downEvaluates c i = some d at h
    unfold downEvaluates at h
    split at h
    · cases h
    · cases h
      have hdown : Dwells c (goneDown c i) := .of_posture (goneDown_posture c i)
      exact (hdown.trans (linksRecomputed_dwells _)).now
  | role =>
    cases h
    exact le_rfl
  | uplink up =>
    change uplinkEvaluates c up = some d at h
    unfold uplinkEvaluates at h
    split_ifs at h
    cases h
    exact le_rfl
  | start =>
    change startEvaluates psa o c = some d at h
    unfold startEvaluates at h
    split at h
    · cases h
    · split at h
      · cases h
      · cases h
        exact le_rfl
  | _ => cases h

/-- No step takes the clock back. -/
theorem perform_now (hc : c.HsUnlinked) (h : perform psa o c inp = some d) :
    c.nowUs ≤ d.nowUs := by
  have hdoes := perform_does hc h
  refine hdoes.keeps (P := fun e => c.nowUs ≤ e.nowUs) le_rfl ?_ ?_
  · intro e e' hsteady he
    exact he.trans (Dwells.of_stance hsteady.stance).now
  · intro k _ e hfits hr hk
    cases hev : k.evaluates psa with
    | none => exact hk.trans (Call.dwells_of_none hfits hr hev).now
    | some f =>
      have hbefore : c.nowUs ≤ f.nowUs := hk.trans (Call.evaluates_now hev)
      have hrole : c.nowUs ≤ (lgRoleEvaluate k.o f).nowUs :=
        hbefore.trans (lgRoleEvaluate_now k.o f)
      exact hrole.trans (Call.result_evaluated hr hev).now

end LockGrid
