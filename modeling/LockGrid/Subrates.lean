import LockGrid.Calls
import LockGrid.Release

/-!
# Subrates within the supervision timeout

The subrate of a link is bounded when the link comes up, by the ceiling of `lg_subrate_ceiling`.
What is in force later comes of control frames, of changes that are pending and of
`subrate_update`. Each of these keeps the bound but one: nothing is checked of what a control
frame asks for.
-/
namespace LockGrid

variable {cfg : Config} {psa : Psa} {ident : Identity} {c c' d : Node cfg}
  {i : Fin cfg.maxNeighbors}

/-- A link that uses every `k`-th event can miss two of them without timing out. -/
def Schedule.Allows (s : Schedule) (k : ℕ) : Prop :=
  1 ≤ k ∧ k ≤ max 1 s.subrateMax.toNat ∧ (1 < k → 3 * k * s.intervalUs ≤ s.supTimeoutUs)

instance (s : Schedule) (k : ℕ) : Decidable (s.Allows k) := by
  unfold Schedule.Allows
  infer_instance

/-- The factor in force is allowed, and so is what it can become without a control frame. -/
structure Schedule.Paced (s : Schedule) : Prop where
  current : s.Allows s.subrate.toNat
  pending : s.pendingCtrl.subrate = true → s.Allows (max s.pendingSubrate.toNat 1)
  ceiling : s.initiator = true → 1 < s.subrateMax.toNat →
    3 * s.subrateMax.toNat * s.intervalUs ≤ s.supTimeoutUs

namespace Schedule

variable {s s' : Schedule}

theorem allows_one (s : Schedule) : s.Allows 1 := ⟨le_rfl, le_max_left 1 _, fun h => by omega⟩

/-- A factor below one that leaves room. -/
theorem allows_le {j k : ℕ} (hk : 1 < k → 3 * k * s.intervalUs ≤ s.supTimeoutUs)
    (hmax : k ≤ s.subrateMax.toNat) (hj : 1 ≤ j) (hjk : j ≤ k) : s.Allows j := by
  refine ⟨hj, le_max_of_le_right (hjk.trans hmax), fun h1 => ?_⟩
  calc 3 * j * s.intervalUs ≤ 3 * k * s.intervalUs :=
        Nat.mul_le_mul_right _ (Nat.mul_le_mul_left 3 hjk)
    _ ≤ s.supTimeoutUs := hk (by omega)

theorem terms_eq (h : s'.terms = s.terms) :
    s'.initiator = s.initiator ∧ s'.intervalUs = s.intervalUs ∧ s'.subrateMax = s.subrateMax ∧
      s'.supTimeoutUs = s.supTimeoutUs ∧ s'.pendingSubrate = s.pendingSubrate ∧
      s'.pendingCtrl.subrate = s.pendingCtrl.subrate := by
  simpa only [terms, Prod.mk.injEq] using h

theorem allows_terms (h : s'.terms = s.terms) (k : ℕ) : s'.Allows k ↔ s.Allows k := by
  obtain ⟨-, hint, hmax, hsup, -, -⟩ := terms_eq h
  rw [Allows, Allows, hint, hmax, hsup]

/-- Work that keeps the terms, and calls the link back to every event at most. -/
theorem Paced.keep (hs : s.Paced) (hterms : s'.terms = s.terms)
    (hsub : s'.subrate = s.subrate ∨ s'.subrate = 1) : s'.Paced := by
  have hall := allows_terms hterms
  obtain ⟨hini, hint, hmax, hsup, hpend, hctrl⟩ := terms_eq hterms
  refine ⟨?_, fun h => ?_, fun h h1 => ?_⟩
  · rcases hsub with heq | hone
    · rw [heq]
      exact (hall _).mpr hs.current
    · rw [hone]
      exact allows_one s'
  · rw [hpend]
    exact (hall _).mpr (hs.pending (hctrl ▸ h))
  · rw [hmax, hint, hsup]
    exact hs.ceiling (hini ▸ h) (hmax ▸ h1)

end Schedule

/-! ## The ceiling -/

theorem lgSubrateCeiling_room {interval sup k : ℕ} (hk : k ≤ lgSubrateCeiling interval sup)
    (h1 : 1 < k) : 3 * k * interval ≤ sup := by
  unfold lgSubrateCeiling at hk
  split at hk
  · omega
  · next hz =>
    have hq : k ≤ sup / (interval * 3) := by omega
    have hle := (Nat.le_div_iff_mul_le (by omega)).mp hq
    calc 3 * k * interval = k * (interval * 3) := by ring
      _ ≤ sup := hle

theorem startSchedule_paced (c : Node cfg) (pp : LinkParams) (initiator : Bool) (s : Schedule) :
    (startSchedule c pp initiator s).Paced := by
  refine ⟨Schedule.allows_one _, nofun, fun _ h1 => lgSubrateCeiling_room ?_ h1⟩
  have hle : (startSchedule c pp initiator s).subrateMax.toNat ≤ min pp.subrateMax.toNat
      (min c.net.tune.subrateMax (lgSubrateCeiling (cfg.clampInterval pp.intervalUs.toNat)
        (pp.supTimeoutCs.toNat * 10000))) := by
    simp only [startSchedule, UInt8.toNat_ofNat']
    exact Nat.mod_le _ _
  exact (hle.trans (min_le_right _ _)).trans (min_le_right _ _)

/-! ## What changes the factor -/

theorem le_one_iff (v : UInt8) : v ≤ 1 ↔ v.toNat ≤ 1 := UInt8.le_iff_toNat_le

theorem toNat_max_one (v : UInt8) : (max v 1).toNat = max v.toNat 1 := by
  have h : max v 1 = if v ≤ 1 then 1 else v := rfl
  rw [h]
  split
  · next hv =>
    rw [max_eq_right ((le_one_iff v).mp hv)]
    rfl
  · next hv =>
    have hlt := mt (le_one_iff v).mpr hv
    omega

theorem applyPending_paced {s : Schedule} (hs : s.Paced) : (applyPending s).Paced := by
  unfold applyPending
  split
  · dsimp only
    split
    · refine ⟨?_, nofun, hs.ceiling⟩
      change s.Allows (if s.pendingCtrl.subrate = true then max s.pendingSubrate 1
        else s.subrate).toNat
      split
      · next hp =>
        rw [toNat_max_one]
        exact hs.pending hp
      · exact hs.current
    · exact ⟨hs.current, nofun, hs.ceiling⟩
  · exact hs

theorem lgLinkAdvance_paced {s : Schedule} (hs : s.Paced) : (lgLinkAdvance s).Paced := by
  refine applyPending_paced (hs.keep ?_ (.inl ?_))
  · rfl
  · rfl

theorem subrateUpdate_paced (pending : Bool) (misses : ℕ) {s : Schedule} (hs : s.Paced) :
    (subrateUpdate pending misses s).Paced := by
  unfold subrateUpdate
  split
  · exact hs
  · next hgo =>
    simp only [Bool.or_eq_true, Bool.not_eq_true', decide_eq_true_eq, not_or,
      Bool.not_eq_false] at hgo
    obtain ⟨hini, h1⟩ := hgo
    have hone : 1 < s.subrateMax.toNat := not_le.mp (mt (le_one_iff _).mpr h1)
    have hroom := hs.ceiling hini hone
    dsimp only
    generalize hwant : (if pending || s.pendingCtrl.any then 1
      else if misses ≠ 0 then 1
      else UInt8.ofNat (min (s.subrate.toNat * 2) s.subrateMax.toNat)) = want
    have hle : want.toNat ≤ max 1 s.subrateMax.toNat := by
      subst hwant
      split
      · exact le_max_left _ _
      · split
        · exact le_max_left _ _
        · rw [UInt8.toNat_ofNat']
          exact (Nat.mod_le _ _).trans ((min_le_right _ _).trans (le_max_right _ _))
    split
    · exact hs
    · have hall : s.Allows (max want.toNat 1) :=
        Schedule.allows_le (fun _ => hroom) le_rfl (le_max_right _ 1) (by omega)
      exact ⟨hs.current, fun _ => hall, hs.ceiling⟩

/-! ## Control frames -/

/-- The factors a link uses now, may use after a pending change, or raises itself to. -/
def Schedule.factors (s : Schedule) : List ℕ :=
  [s.subrate.toNat] ++ (if s.pendingCtrl.subrate then [max s.pendingSubrate.toNat 1] else []) ++
    if s.initiator then [s.subrateMax.toNat] else []

theorem Schedule.mem_factors {s : Schedule} {k : ℕ} : k ∈ s.factors ↔ k = s.subrate.toNat ∨
    (s.pendingCtrl.subrate = true ∧ k = max s.pendingSubrate.toNat 1) ∨
    (s.initiator = true ∧ k = s.subrateMax.toNat) := by
  unfold Schedule.factors
  split_ifs <;> simp_all

/-- What a control frame asks for keeps the bound: a factor within it, or an interval that keeps
it for every factor of the link. -/
def CtrlKeeps (cfg : Config) (s : Schedule) (body : Bytes) : Prop :=
  (getByte body 0 = ctrlSubrate → 4 ≤ body.length → s.Allows (max (getByte body 1).toNat 1)) ∧
  (getByte body 0 = ctrlInterval → 7 ≤ body.length → ∀ k ∈ s.factors, 1 < k →
    3 * k * cfg.clampInterval (getLe32 body 1).toNat ≤ s.supTimeoutUs)

/-- A call that is not the reception of a control frame that breaks the bound. -/
def KeepsPace (k : Call cfg) : Prop :=
  match k.deed with
  | .ctrl i body => CtrlKeeps cfg (k.node.neigh i).sched body
  | _ => True

instance (s : Schedule) (body : Bytes) : Decidable (CtrlKeeps cfg s body) := by
  unfold CtrlKeeps
  infer_instance

instance (k : Call cfg) : Decidable (KeepsPace k) := by
  obtain ⟨o, c, deed⟩ := k
  rcases deed <;> unfold KeepsPace <;> dsimp only <;> infer_instance

/-- The links of a node are all paced. -/
def Node.Paced (c : Node cfg) : Prop :=
  ∀ i, (c.neigh i).state = .linked → (c.neigh i).sched.Paced

theorem Node.Paced.setSched (hc : c.Paced) {s : Schedule}
    (hs : (c.neigh i).sched.Paced → s.Paced) :
    (c.setNeigh i { c.neigh i with sched := s }).Paced := by
  intro j hj
  by_cases hji : j = i
  · subst hji
    simp only [Node.setNeigh_neigh, Function.update_self] at hj ⊢
    exact hs (hc j hj)
  · simp only [Node.setNeigh_neigh, Function.update_of_ne hji] at hj ⊢
    exact hc j hj

theorem Node.Paced.of_neigh (hc : c.Paced) (h : c'.neigh = c.neigh) : c'.Paced := by
  intro i hi
  rw [h] at hi ⊢
  exact hc i hi

/-- Entries that are linked afterwards are as they were. -/
theorem Node.Paced.of_links (hc : c.Paced)
    (h : ∀ i, (c'.neigh i).state = .linked → c'.neigh i = c.neigh i) : c'.Paced := by
  intro i hi
  have heq := h i hi
  rw [heq] at hi ⊢
  exact hc i hi

theorem Steady.paced (h : Steady c c') (hc : c.Paced) : c'.Paced := by
  intro i hi
  have hn := h.entry i
  have hl : (c.neigh i).state = .linked := h.state i ▸ hi
  exact (hc i hl).keep (hn.terms hl) (hn.subrate hl)

theorem lgLinkEstablish_paced {o : Oracle} {pp : LinkParams} {initiator : Bool} (hc : c.Paced)
    (h : lgLinkEstablish o c i pp initiator = some d) : d.Paced := by
  obtain ⟨s, hs, rfl⟩ := Option.map_eq_some_iff.mp h
  have hstart := startSchedule_paced c pp initiator (c.neigh i).sched
  have hpaced : s.Paced := by
    rcases anchorCatchUp_anchorSet hs with rfl | ⟨t, rfl⟩
    · exact hstart
    · refine hstart.keep ?_ (.inl ?_)
      · rfl
      · rfl
  refine Node.Paced.of_neigh (c := c.setNeigh i { c.neigh i with
    state := .linked, sched := s, tx := { (c.neigh i).tx with txPending := false } }) ?_ ?_
  · intro j hj
    by_cases hji : j = i
    · subst hji
      simpa using hpaced
    · simp only [Node.setNeigh_neigh, Function.update_of_ne hji] at hj ⊢
      exact hc j hj
  · exact ((setView_quiet _ i _).trans ((lgNeighUpdateCost_quiet _ i).trans
      (linksChanged_quiet o _))).neigh

theorem lgLinkDown_paced (o : Oracle) (hc : c.Paced) : (lgLinkDown o c i).Paced := by
  refine hc.of_links fun j hj => ?_
  by_cases hji : j = i
  · subst hji
    by_cases hl : (c.neigh j).state = .linked
    · rw [lgLinkDown_self o hl] at hj
      cases hj
    · rw [lgLinkDown_eq, if_pos hl]
  · exact lgLinkDown_others o c hji

theorem handleCtrl_paced (o : Oracle) {body : Bytes} (hc : c.Paced)
    (hk : CtrlKeeps cfg (c.neigh i).sched body) : (handleCtrl o c i body).Paced := by
  obtain ⟨hsub, hint⟩ := hk
  unfold handleCtrl
  dsimp only
  split
  · exact hc
  · split
    · split
      · exact hc
      · exact hc.setSched fun hs => ⟨hs.current, hs.pending, hs.ceiling⟩
    · split
      · next hop =>
        split
        · exact hc
        · next hlen =>
          refine hc.setSched fun hs => ⟨hs.current, fun _ => ?_, hs.ceiling⟩
          exact hsub hop (by omega)
      · split
        · next hop =>
          split
          · exact hc
          · next hlen =>
            have hroom := hint hop (by omega)
            refine hc.setSched fun hs => ⟨?_, fun hp => ?_, fun hini h1 => ?_⟩
            · obtain ⟨h1, hmax, -⟩ := hs.current
              exact ⟨h1, hmax, hroom _ (Schedule.mem_factors.mpr (.inl rfl))⟩
            · obtain ⟨h1, hmax, -⟩ := hs.pending hp
              exact ⟨h1, hmax, hroom _ (Schedule.mem_factors.mpr (.inr (.inl ⟨hp, rfl⟩)))⟩
            · exact hroom _ (Schedule.mem_factors.mpr (.inr (.inr ⟨hini, rfl⟩))) h1
        · split
          · exact hc.of_neigh (lgRouteHandleAdv_quiet o c i body).neigh
          · split
            · exact hc.of_neigh (lgRouteHandleReg_quiet c i body).neigh
            · split
              · exact lgLinkDown_paced o hc
              · exact hc

theorem Call.result_paced {k : Call cfg} (hk : KeepsPace k) (hf : k.Fits)
    (h : k.result psa = some d) (hc : k.node.Paced) : d.Paced := by
  obtain ⟨o, c, deed⟩ := k
  cases deed with
  | alloc src =>
    cases h
    refine hc.of_links fun i hi => ?_
    rcases alloc_entry c src i with ⟨hn, -⟩ | ⟨-, hn, -⟩
    · exact hn
    · have hfresh : (Neigh.fresh src).state = .linked := hn ▸ hi
      cases hfresh
  | free i =>
    cases h
    refine hc.of_links fun j hj => ?_
    rcases free_entry c i j with ⟨-, hn, -⟩ | ⟨-, hn, -⟩
    · have hfree : ({} : Neigh).state = .linked := hn ▸ hj
      cases hfree
    · exact hn
  | begin i =>
    cases h
    exact hc.of_links fun j => (lgJoinStart_embarks o hf.1 hf.2.1).linked
  | fail i =>
    cases h
    exact hc.of_links fun j => (joinFail_engages c i).linked
  | openContext i resuming airStartUs =>
    cases h
    exact hc.of_links fun j => (openContext_engages c i resuming airStartUs).linked
  | establish i pp initiator =>
    obtain ⟨e, he, rfl⟩ := Option.map_eq_some_iff.mp h
    have hpaced : e.Paced := lgLinkEstablish_paced hc he
    exact hpaced
  | down i =>
    cases h
    exact lgLinkDown_paced o hc
  | adv i buf =>
    cases h
    exact hc.of_neigh (lgRouteHandleAdv_quiet o c i buf).neigh
  | ctrl i body =>
    cases h
    exact handleCtrl_paced o hc hk
  | role =>
    cases h
    exact hc.of_neigh (lgRoleEvaluate_quiet o c).neigh
  | advance i =>
    cases h
    exact hc.setSched lgLinkAdvance_paced
  | subrate i =>
    cases h
    change (subrateUpdateLink c i).Paced
    unfold subrateUpdateLink
    dsimp only
    split
    · exact hc
    · have hq := (lgTxqPeek_quiet c (c.neigh i).addr).neigh
      have hset := hc.setSched (i := i) fun hs =>
        subrateUpdate_paced (lgTxqPending c (c.neigh i).addr).1 (c.view i).consecMisses hs
      refine hset.of_neigh ?_
      change Function.update (lgTxqPeek c (c.neigh i).addr).2.neigh i _ = _
      rw [hq]
      rfl
  | stage i =>
    cases h
    rcases lgLinkStageTx_steady psa (o.ok .encrypt) c i with ⟨-, hs⟩ | ⟨-, hs⟩
    · exact hs.paced (hc.of_neigh (noteAdvertised_quiet c i).neigh)
    · exact hs.paced hc
  | tick us | halt | close =>
    cases h
    exact hc
  | uplink up =>
    cases h
    exact hc.of_neigh (lgBackhaulSet_quiet o c up).neigh
  | start =>
    cases h
    change (lgStart psa o c).Paced
    rcases lgStart_cases psa o c with heq | ⟨e, he, hw⟩
    · rw [heq]
      exact hc
    · intro i hi
      have hl := (hw.links i hi).1
      rw [he.free i] at hl
      cases hl

/-- In every run in which each subrate and interval that a control frame asks for is within the
bounds of the link it came on, so is the subrate of every link. -/
theorem subrate_bounded (h : ReachableMeeting psa ident KeepsPace c)
    (hi : (c.neigh i).state = .linked) :
    (c.neigh i).sched.Allows (c.neigh i).sched.subrate.toNat := by
  have hpaced : c.Paced :=
    h.keeps (fun i hi => by cases hi) Steady.paced
      fun k d hk hf hr hc => Call.result_paced hk hf hr hc
  exact (hpaced i hi).current

/-! ## Two runs -/

/-- A link every 200 ms that times out after 6 s and may use every fourth event. -/
def pacedParams : LinkParams where
  intervalUs := 200000
  anchorOffsetUs := 400000
  chanMap := 0xFFFF
  hopSeed := 2
  supTimeoutCs := 600
  subrateMax := 4
  scaPpm := 50
  role := Role.router.code
  rank := 16

/-- Node 1 joins node 2 as in `joiningRun`; then the control frames `ctrls` arrive, each with the
body it has. -/
def joinedWith (pp : LinkParams) (ctrls : List Bytes) : List (Oracle × Input) :=
  [(calm 1, Input.start), (calm 1, .tuningSet patient), (calm 2, .schedWork), (calm 3, .tick 16000),
    (calm 3, .granted), (calm 3, .tick 5000)] ++
    ((joiningRun.drop 5).take 4) ++
    (calm 4, Input.rxDone (sealedFrag .joinAck 1 2 rspKey 1 pp.encode)) ::
    (ctrls.mapIdx fun k body =>
      (calm 4, Input.rxDone (sealedFrame .ctrl 1 2 rspKey (UInt32.ofNat (k + 2)) body))) ++
    (calm 5, .rxWork) :: List.replicate (4 + ctrls.length) (calm 6, Input.rxWork)

/-- The peer asks for every `v`-th event, and the arbiter refuses the link's next one. -/
def subrateRun (v : UInt8) : List (Oracle × Input) :=
  joinedWith pacedParams [[ctrlSubrate, v, 0, 0]] ++
    [(calm 6, Input.tick 380000), (calm 7, .schedWork), (calm 7, .schedWork), (calm 8, .refused),
      (calm 9, .finishWork (calm 10))]

theorem subrate_bounded_asked :
    ∃ c : Node .default, ReachableMeeting Psa.plain (plainIdent 1 1) KeepsPace c ∧
      (c.neigh firstNeigh).sched.subrate = 3 ∧
      (c.neigh firstNeigh).sched.Allows (c.neigh firstNeigh).sched.subrate.toNat := by
  obtain ⟨c, hc, hp⟩ := exists_reachableMeeting (K := KeepsPace) Psa.plain (plainIdent 1 1)
    (subrateRun 3) (fun c : Node .default => decide ((c.neigh firstNeigh).state = .linked ∧
      (c.neigh firstNeigh).sched.subrate = 3)) (by decide +kernel)
  obtain ⟨hl, hsub⟩ := of_decide_eq_true hp
  exact ⟨c, hc, hsub, subrate_bounded hc hl⟩

/-- A link that may use every fourth event uses every 200th: it times out before that. -/
theorem not_subrate_bounded_asked :
    ¬ ∀ (psa : Psa) (ident : Identity) (c : Node .default) (i : Fin _), Reachable psa ident c →
      (c.neigh i).state = .linked →
      (c.neigh i).sched.Allows (c.neigh i).sched.subrate.toNat := by
  intro h
  obtain ⟨c, hc, hp⟩ := exists_reachable Psa.plain (plainIdent 1 1) (subrateRun 200)
    (fun c : Node .default => decide ((c.neigh firstNeigh).state = .linked ∧
      ¬ (c.neigh firstNeigh).sched.Allows (c.neigh firstNeigh).sched.subrate.toNat))
    (by decide +kernel)
  obtain ⟨hl, hbad⟩ := of_decide_eq_true hp
  exact hbad (h _ _ c firstNeigh hc hl)

end LockGrid
