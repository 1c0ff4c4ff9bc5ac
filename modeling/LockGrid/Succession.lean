import LockGrid.Notices

/-!
# What the application is told about its parent

A caller of `lg_route_recompute` reports a new parent if the parent before the recomputation was
another. That is the parent the application saw last as long as nobody changed the table in
between, and as long as the result is looked at.
-/
namespace LockGrid

variable {cfg : Config} {psa : Psa} {ident : Identity} {c c' d : Node cfg}
  {i : Fin cfg.maxNeighbors} {o : Oracle}

/-- No role other than that of a backhaul is applied while a recomputation would make another
neighbour the parent. -/
def Node.Abides (c : Node cfg) : Prop :=
  ∀ want ∈ roleWanted c, want ≠ .backhaul → want ≠ c.net.role →
    ∀ i, First c i → lgParentIdx c = some i

/-- What `lg_parent` turns to is reported. -/
def Call.Told (k : Call cfg) : Prop :=
  match k.deed with
  | .down i => (k.node.neigh i).state = .linked → lgParentIdx k.node = some i →
    ∀ j, First (goneDown k.node i) j → lgParentIdx (goneDown k.node i) ≠ some j
  | .role => k.node.Abides
  | .uplink up => k.node.net.backhaulActive ≠ up → (uplinkSet k.node up).Abides
  | .openContext i _ _ => ¬ IsUplink k.node i
  | _ => True

instance (c : Node cfg) : Decidable c.Abides :=
  inferInstanceAs (Decidable (∀ want ∈ roleWanted c, _))

instance (k : Call cfg) : Decidable (Call.Told k) := by
  obtain ⟨o, c, deed⟩ := k
  rcases deed <;> unfold Call.Told <;> dsimp only <;> infer_instance

/-- Parents are linked. The flag of an entry that is not in use is left over. -/
def Node.Flagged (c : Node cfg) : Prop :=
  ∀ i, (c.view i).isParent = true → (c.neigh i).state = .linked ∨ (c.neigh i).state = .free

/-- The role goes with the uplink, the parents are linked and no two neighbours have the same
address. -/
structure Node.Kempt (c : Node cfg) : Prop where
  seated : c.Seated
  flagged : c.Flagged
  distinct : c.Distinct

/-! ## The parent stays -/

/-- The same uplinks under the same addresses. -/
structure SameUplinks (c c' : Node cfg) : Prop where
  uplinks : ∀ i, IsUplink c' i ↔ IsUplink c i
  addr : ∀ i, IsUplink c i → (c'.neigh i).addr = (c.neigh i).addr

theorem setHs_parent (c : Node cfg) (hs : Hs cfg) : lgParent (c.setHs hs) = lgParent c := rfl

theorem SameUplinks.parent (h : SameUplinks c c') : lgParent c' = lgParent c :=
  lgParent_congr h.uplinks h.addr

theorem SameUplinks.trans {c'' : Node cfg} (h : SameUplinks c c') (h' : SameUplinks c' c'') :
    SameUplinks c c'' := by
  refine ⟨fun i => (h'.uplinks i).trans (h.uplinks i), fun i hi => ?_⟩
  exact (h'.addr i ((h.uplinks i).mpr hi)).trans (h.addr i hi)

theorem SameUplinks.of_eq (hv : ∀ i, (c'.view i).isParent = (c.view i).isParent)
    (hs : ∀ i, (c'.neigh i).state = (c.neigh i).state)
    (ha : ∀ i, (c'.neigh i).addr = (c.neigh i).addr) : SameUplinks c c' := by
  refine ⟨fun i => ?_, fun i _ => ha i⟩
  rw [IsUplink, IsUplink, hv, hs]

theorem Steady.sameUplinks (h : Steady c c') : SameUplinks c c' :=
  .of_eq (stance_isParent h.stance) h.state h.addr

theorem Placed.sameUplinks (h : Placed c c') (hs : c'.stance = c.stance) : SameUplinks c c' :=
  .of_eq (stance_isParent hs) h.state h.addr

theorem Engages.sameUplinks (h : Engages i c c') (hi : ¬ IsUplink c i) : SameUplinks c c' := by
  refine ⟨fun j => ?_, fun j hj => ?_⟩
  · by_cases hji : j = i
    · subst hji
      exact iff_of_false (fun hup => h.unlinked hup.2) hi
    · rw [IsUplink, IsUplink, stance_isParent h.stance, h.others j hji]
  · rw [h.others j fun hji => hi (hji ▸ hj)]

theorem lgNeighAlloc_sameUplinks (c : Node cfg) (src : Addr) :
    SameUplinks c (lgNeighAlloc c src).2 := by
  refine ⟨fun i => ?_, fun i hi => ?_⟩
  · unfold IsUplink
    rcases alloc_entry c src i with ⟨hn, hv⟩ | ⟨hf, hn, hv⟩ <;> rw [hn, hv]
    rw [hf]
    exact iff_of_false (fun hi => by cases hi.2) fun hi => by cases hi.2
  · rcases alloc_entry c src i with ⟨hn, -⟩ | ⟨hf, -, -⟩
    · rw [hn]
    · rw [IsUplink, hf] at hi
      cases hi.2

theorem lgNeighFree_sameUplinks (hl : (c.neigh i).state ≠ .linked) :
    SameUplinks c (lgNeighFree c i) := by
  refine ⟨fun j => ?_, fun j hj => ?_⟩
  · unfold IsUplink
    rcases free_entry c i j with ⟨rfl, hn, hv⟩ | ⟨-, hn, hv⟩ <;> rw [hn, hv]
    exact iff_of_false (fun h => by cases h.1) fun h => hl h.2
  · rcases free_entry c i j with ⟨rfl, -, -⟩ | ⟨-, hn, -⟩
    · exact absurd hj.2 hl
    · rw [hn]

theorem noteAdvertised_isParent (c : Node cfg) (i j : Fin cfg.maxNeighbors) :
    ((noteAdvertised c i).view j).isParent = (c.view j).isParent := by
  by_cases hj : j = i
  · subst hj
    simp [noteAdvertised, Node.setView]
  · simp [noteAdvertised, Node.setView, hj]

theorem noteAdvertised_sameUplinks (c : Node cfg) (i : Fin cfg.maxNeighbors) :
    SameUplinks c (noteAdvertised c i) :=
  .of_eq (noteAdvertised_isParent c i) (fun _ => rfl) fun _ => rfl

theorem Call.result_sameUplinks {k : Call cfg} (hk : k.Told) (hr : ¬ k.deed.Routes) (hf : k.Fits)
    (h : k.result psa = some d) : SameUplinks k.node d := by
  obtain ⟨o, c, deed⟩ := k
  cases deed with
  | establish | down | adv | role | uplink | start => exact absurd trivial hr
  | alloc src =>
    cases h
    exact lgNeighAlloc_sameUplinks c src
  | free i =>
    cases h
    exact lgNeighFree_sameUplinks hf.1
  | begin i =>
    cases h
    exact (lgJoinStart_embarks o hf.1 hf.2.1).toEngages.sameUplinks fun hi => hf.2.1 hi.2
  | fail i =>
    cases h
    exact (joinFail_engages c i).sameUplinks fun hi => hf.2.1 hi.2
  | openContext i resuming airStartUs =>
    cases h
    exact (openContext_engages c i resuming airStartUs).sameUplinks hk
  | ctrl i body =>
    cases h
    obtain ⟨hp, hs⟩ := handleCtrl_placed o c i hf.2.1 hf.2.2
    exact hp.sameUplinks hs
  | advance i =>
    cases h
    exact (Placed.setSched c i _).sameUplinks rfl
  | subrate i =>
    cases h
    obtain ⟨hp, hs⟩ := subrateUpdateLink_placed c i
    exact hp.sameUplinks hs
  | stage i =>
    cases h
    rcases lgLinkStageTx_steady psa (o.ok .encrypt) c i with ⟨-, hs⟩ | ⟨-, hs⟩
    · exact (noteAdvertised_sameUplinks c i).trans hs.sameUplinks
    · exact hs.sameUplinks
  | close | tick us | halt =>
    cases h
    exact ⟨fun _ => Iff.rfl, fun _ _ => rfl⟩

/-! ## The parent turns -/

/-- Neither linked nor free, so no parent. -/
theorem Node.Flagged.spare (hc : c.Flagged) (hf : (c.neigh i).state ≠ .free)
    (hl : (c.neigh i).state ≠ .linked) : (c.view i).isParent = false := by
  rw [Bool.eq_false_iff]
  intro hi
  rcases hc i hi with h | h
  · exact hl h
  · exact hf h

theorem comeUp_sameUplinks (pp : LinkParams) (s : Schedule) (hf : (c.neigh i).state ≠ .free)
    (hl : (c.neigh i).state ≠ .linked) (hc : c.Kempt) : SameUplinks c (comeUp c i pp s) := by
  have hflag := stance_isParent (comeUp_stance c i pp s)
  have hspare := hc.flagged.spare hf hl
  have hneigh : ∀ j, j ≠ i → (comeUp c i pp s).neigh j = c.neigh j := by
    intro j hj
    rw [comeUp, (lgNeighUpdateCost_quiet _ i).neigh]
    simp [Node.setView, hj]
  refine ⟨fun j => ?_, fun j hj => ?_⟩
  · rw [IsUplink, IsUplink, hflag]
    by_cases hji : j = i
    · subst hji
      simp [hspare]
    · rw [hneigh j hji]
  · have hji : j ≠ i := by
      rintro rfl
      rw [IsUplink, hspare] at hj
      cases hj.1
    rw [hneigh j hji]

theorem advHeard_sameUplinks (c : Node cfg) (i : Fin cfg.maxNeighbors) (buf : Bytes) :
    SameUplinks c (advHeard c i buf) := by
  have hstance : (advHeard c i buf).stance = (c.setView i { c.view i with
      role := getByte buf 3, peerRank := (getLe16 buf 1).toNat, routeAdvUs := c.nowUs }).stance :=
    foldl_stance _ (fun d k => advEntry_stance _ _ d _ _) _ _
  have hneigh : (advHeard c i buf).neigh = c.neigh :=
    (foldl_quiet _ (fun d k => advEntry_quiet _ _ d _ _) _ _).neigh
  refine .of_eq (fun j => ?_) (fun j => by rw [hneigh]) fun j => by rw [hneigh]
  rw [stance_isParent hstance]
  by_cases hj : j = i
  · subst hj
    simp [Node.setView]
  · simp [Node.setView, hj]

theorem goneDown_entry (c : Node cfg) (i : Fin cfg.maxNeighbors) :
    ((goneDown c i).neigh i).state = .lost ∧
      (∀ j, j ≠ i → (goneDown c i).neigh j = c.neigh j) ∧
      (∀ j, ((goneDown c i).neigh j).addr = (c.neigh j).addr) ∧
      ∀ j, IsUplink (goneDown c i) j ↔ j ≠ i ∧ IsUplink c j := by
  have hself : (goneDown c i).neigh i = (c.neigh i).down := by
    simp [goneDown, lgRouteFlushVia, Node.setView, Node.note]
  have hothers : ∀ j, j ≠ i → (goneDown c i).neigh j = c.neigh j ∧
      (goneDown c i).view j = c.view j := by
    intro j hj
    simp [goneDown, lgRouteFlushVia, Node.setView, Node.note, Node.setNeigh, hj]
  refine ⟨by rw [hself]; rfl, fun j hj => (hothers j hj).1, fun j => ?_, fun j => ?_⟩ <;>
    by_cases hj : j = i
  · subst hj
    rw [hself]
    rfl
  · rw [(hothers j hj).1]
  · subst hj
    refine iff_of_false (fun hup => ?_) fun h => h.1 rfl
    rw [IsUplink, hself] at hup
    cases hup.2
  · rw [IsUplink, IsUplink, (hothers j hj).1, (hothers j hj).2]
    exact ⟨fun h => ⟨hj, h⟩, And.right⟩

theorem lgParentIdx_eq_some :
    lgParentIdx c = some i ↔ IsUplink c i ∧ ∀ j, j < i → ¬ IsUplink c j := by
  unfold lgParentIdx
  simp only [List.find?_eq_some_iff_getElem, List.getElem_finRange, List.length_finRange,
    Bool.and_eq_true, decide_eq_true_eq, Bool.not_eq_true']
  constructor
  · rintro ⟨hi, k, hk, rfl, hbefore⟩
    refine ⟨hi, fun j hj hup => ?_⟩
    have hj' := hbefore j.val hj
    simp [hup.1, hup.2] at hj'
  · rintro ⟨hi, hbefore⟩
    refine ⟨hi, i.val, i.isLt, rfl, fun j hj => ?_⟩
    have hj' := hbefore ⟨j, hj.trans i.isLt⟩ hj
    rw [Bool.and_eq_false_iff, decide_eq_false_iff_not]
    by_contra hno
    push Not at hno
    exact hj' ⟨by simpa using hno.1, by simpa using hno.2⟩

/-- Without an entry that does not come first the parent is the same. -/
theorem goneDown_parentIdx (h : lgParentIdx c ≠ some i) :
    lgParentIdx (goneDown c i) = lgParentIdx c := by
  have hup := (goneDown_entry c i).2.2.2
  refine Option.ext fun j => ?_
  rw [lgParentIdx_eq_some, lgParentIdx_eq_some]
  constructor
  · rintro ⟨hj, hbefore⟩
    refine ⟨((hup j).mp hj).2, fun k hk hupk => ?_⟩
    by_cases hki : k = i
    · -- then the first uplink of all is the entry, or one before it that is in the way of `j`
      subst hki
      refine h (lgParentIdx_eq_some.mpr ⟨hupk, fun l hl hupl => ?_⟩)
      exact hbefore l (hl.trans hk) ((hup l).mpr ⟨hl.ne, hupl⟩)
    · exact hbefore k hk ((hup k).mpr ⟨hki, hupk⟩)
  · rintro ⟨hj, hbefore⟩
    have hji : j ≠ i := by
      rintro rfl
      exact h (lgParentIdx_eq_some.mpr ⟨hj, hbefore⟩)
    exact ⟨(hup j).mpr ⟨hji, hj⟩, fun k hk hupk => hbefore k hk ((hup k).mp hupk).2⟩

theorem lgParent_of_idx (h : lgParentIdx c = some i) : lgParent c = (c.neigh i).addr := by
  rw [lgParent, h]

theorem turn_of_ne {before after : Addr} (h : after ≠ addrInvalid → after ≠ before) :
    turn before after = if after ≠ addrInvalid then [after] else [] := by
  unfold turn
  split_ifs <;> simp_all

/-- A link that goes down takes no turn with it that the recomputation does not see. -/
theorem goneDown_turn (hc : c.Kempt) (hl : (c.neigh i).state = .linked)
    (hk : lgParentIdx c = some i →
      ∀ j, First (goneDown c i) j → lgParentIdx (goneDown c i) ≠ some j) :
    turn (lgParent (goneDown c i)) (lgParent (lgRouteRecompute (goneDown c i)).2) =
      turn (lgParent c) (lgParent (lgRouteRecompute (goneDown c i)).2) := by
  obtain ⟨hlost, hothers, haddr, hup⟩ := goneDown_entry c i
  by_cases hidx : lgParentIdx c = some i
  · by_cases hb : (goneDown c i).net.role = .backhaul
    · rw [recompute_backhaul_parent hb, turn_invalid, turn_invalid]
    · have hneigh := (lgRouteRecompute_quiet (goneDown c i)).neigh
      cases hnew : lgParentIdx (lgRouteRecompute (goneDown c i)).2 with
      | none =>
        have hnone : lgParent (lgRouteRecompute (goneDown c i)).2 = addrInvalid := by
          rw [lgParent, hnew]
        rw [hnone, turn_invalid, turn_invalid]
      | some j =>
        have hfirst := (lgParentIdx_recompute hb j).mp hnew
        have hlinked := hfirst.1.linked.1
        have hji : j ≠ i := by
          rintro rfl
          rw [hlost] at hlinked
          cases hlinked
        rw [hothers j hji] at hlinked
        have hparent : lgParent (lgRouteRecompute (goneDown c i)).2 = (c.neigh j).addr := by
          rw [lgParent_of_idx hnew, hneigh, haddr]
        have hused : ∀ k, (c.neigh k).state = .linked → (c.neigh k).state ≠ .free := by
          intro k hk
          rw [hk]
          simp
        rw [hparent, turn_of_ne, turn_of_ne]
        · intro hvalid heq
          rw [lgParent_of_idx hidx] at heq
          exact hji (hc.distinct j i (hused j hlinked) (hused i hl) heq hvalid)
        · intro hvalid heq
          cases hold : lgParentIdx (goneDown c i) with
          | none =>
            rw [lgParent, hold] at heq
            exact hvalid heq
          | some k =>
            obtain ⟨hki, hupk⟩ := (hup k).mp (lgParentIdx_uplink hold)
            rw [lgParent_of_idx hold, haddr] at heq
            have hjk := hc.distinct j k (hused j hlinked) (hused k hupk.2) heq hvalid
            exact hk hidx j hfirst (hjk ▸ hold)
  · have hparent : lgParent (goneDown c i) = lgParent c := by
      rw [lgParent, lgParent, goneDown_parentIdx hidx]
      cases lgParentIdx c with
      | none => rfl
      | some j => exact haddr j
    rw [hparent]

/-- A role that is applied turns the parent nowhere. -/
theorem Node.Abides.evaluate (o : Oracle) (h : c.Abides) :
    turn (lgParent c) (lgParent (lgRoleEvaluate o c)) = [] := by
  rw [lgRoleEvaluate_eq]
  cases hw : roleWanted c with
  | none => exact turn_self _
  | some want =>
    dsimp only
    rw [applyRole_eq]
    split
    · exact turn_self _
    · next hne =>
      have hretune : lgParent (lgDiscRetune o 2 (lgRouteRecompute (inRole c want)).2) =
          lgParent (lgRouteRecompute (inRole c want)).2 := rfl
      rw [hretune]
      by_cases hb : want = .backhaul
      · rw [recompute_backhaul_parent (c := inRole c want) hb, turn_invalid]
      · cases hnew : lgParentIdx (lgRouteRecompute (inRole c want)).2 with
        | none =>
          have hnone : lgParent (lgRouteRecompute (inRole c want)).2 = addrInvalid := by
            rw [lgParent, hnew]
          rw [hnone, turn_invalid]
        | some j =>
          have hfirst := (lgParentIdx_recompute (c := inRole c want) hb j).mp hnew
          have hsame : First (inRole c want) j ↔ First c j :=
            first_congr rfl (fun _ => rfl) (fun _ => rfl) j
          have hfirst' := hsame.mp hfirst
          have hold := h want (by simp [hw]) hb hne j hfirst'
          rw [lgParent_of_idx hnew, lgParent_of_idx hold,
            (lgRouteRecompute_quiet (inRole c want)).neigh]
          exact turn_self _

theorem uplinkNotices_adopted (c : Node cfg) (up : Bool) : adopted (uplinkNotices c up) = [] := by
  unfold uplinkNotices
  split
  · rfl
  · split
    · exact roleNotices_adopted _
    · rfl

theorem Call.notices_adopted {k : Call cfg} (hk : k.Told) (hf : k.Fits)
    (h : k.result psa = some d) (hc : k.node.Kempt) :
    adopted (k.notices psa) = turn (lgParent k.node) (lgParent d) := by
  by_cases hr : k.deed.Routes
  · obtain ⟨o, c, deed⟩ := k
    cases deed with
    | establish i pp initiator =>
      obtain ⟨e, he, rfl⟩ := Option.map_eq_some_iff.mp h
      rw [lgLinkEstablish_eq_comeUp] at he
      obtain ⟨s, hs, rfl⟩ := Option.map_eq_some_iff.mp he
      have hsame := comeUp_sameUplinks pp s hf.2.2 hf.2.1 hc
      change adopted (establishNotices c i pp initiator) =
        turn (lgParent c) (lgParent ((linksChanged o (comeUp c i pp s)).setHs {}))
      rw [setHs_parent, establishNotices, hs, ← hsame.parent]
      exact linksChangedNotices_adopted o _ _
        (hc.seated.sits (.of_stance (comeUp_stance c i pp s))) (by simp)
    | down i =>
      cases h
      change adopted (downNotices c i) = turn (lgParent c) (lgParent (lgLinkDown o c i))
      rw [downNotices, lgLinkDown_eq_goneDown]
      by_cases hl : (c.neigh i).state = .linked
      · have hseated := hc.seated.sits (.of_posture (goneDown_posture c i))
        have hadopted := linksChangedNotices_adopted o .linkDown (c.neigh i).addr hseated (by simp)
        rw [if_neg (not_not.mpr hl), if_neg (not_not.mpr hl), hadopted,
          (linksChanged_outlook o hseated).1]
        exact goneDown_turn hc hl (hk hl)
      · rw [if_pos hl, if_pos hl]
        exact (turn_self _).symm
    | adv i buf =>
      cases h
      change adopted (advNotices c i buf) =
        turn (lgParent c) (lgParent (lgRouteHandleAdv o c i buf))
      rw [advNotices, lgRouteHandleAdv_eq]
      split
      · exact (turn_self _).symm
      · have hseek : SameUplinks (lgRouteRecompute (advHeard c i buf)).2
            (gossipConsiderSeeking o (lgRouteRecompute (advHeard c i buf)).2) :=
          (Placed.of_quiet (gossipConsiderSeeking_quiet o _)).sameUplinks
            (gossipConsiderSeeking_stance o _)
        rw [hseek.parent, ← (advHeard_sameUplinks c i buf).parent]
        exact changedNotices_adopted _
    | role =>
      cases h
      exact (roleNotices_adopted c).trans (Node.Abides.evaluate o hk).symm
    | uplink up =>
      cases h
      change adopted (uplinkNotices c up) = turn (lgParent c) (lgParent (lgBackhaulSet o c up))
      rw [uplinkNotices_adopted, lgBackhaulSet_eq]
      by_cases hup : c.net.backhaulActive = up
      · rw [if_pos hup]
        exact (turn_self _).symm
      · rw [if_neg hup]
        split
        · have hparent : lgParent (uplinkSet c up) = lgParent c := rfl
          rw [← hparent]
          exact (Node.Abides.evaluate o (hk hup)).symm
        · exact (turn_self _).symm
    | start =>
      cases h
      change adopted (startNotices psa o c) = turn (lgParent c) (lgParent (lgStart psa o c))
      have hnone : adopted (startNotices psa o c) = [] := by
        unfold startNotices
        split
        · rfl
        · split
          · rfl
          · exact roleNotices_adopted _
      rw [hnone]
      rcases lgStart_entries psa o c with heq | ⟨hfree, -⟩
      · rw [heq, turn_self]
      · have hparent : lgParent (lgStart psa o c) = addrInvalid := by
          refine lgParent_eq_invalid fun i hi => ?_
          rw [IsUplink, hfree i] at hi
          cases hi.2
        rw [hparent, turn_invalid]
    | _ => exact absurd hr id
  · have hnone : k.notices psa = [] := by
      obtain ⟨o, c, deed⟩ := k
      cases deed with
      | establish | down | adv | role | uplink | start => exact absurd trivial hr
      | _ => rfl
    rw [hnone, (Call.result_sameUplinks hk hr hf h).parent, turn_self]
    rfl

/-! ## The table stays kempt -/

theorem Call.result_distinct {k : Call cfg} (hf : k.Fits) (h : k.result psa = some d)
    (hc : k.node.Distinct) : d.Distinct := by
  by_cases ha : ∃ src, k.deed = .alloc src
  · obtain ⟨src, hdeed⟩ := ha
    unfold Call.result at h
    rw [hdeed] at h
    cases h
    exact (lgNeighAlloc_works psa k.node src).table.toOwned.distinct hc
  · have hold : ∀ j, (d.neigh j).state ≠ .free →
        (k.node.neigh j).state ≠ .free ∧ (d.neigh j).addr = (k.node.neigh j).addr := by
      intro j hj
      rcases Call.result_entry hf h hj with hused | ⟨src, hdeed, -⟩
      · exact hused
      · exact absurd ⟨src, hdeed⟩ ha
    intro i j hi hj haddr hvalid
    obtain ⟨hi', hai⟩ := hold i hi
    obtain ⟨hj', haj⟩ := hold j hj
    rw [hai, haj] at haddr
    exact hc i j hi' hj' haddr (hai ▸ hvalid)

theorem Aligned.nodeFlagged (h : Aligned c) : c.Flagged := fun i hi => .inl (h.flagged i hi)

theorem Node.Flagged.of_eq (hc : c.Flagged)
    (hv : ∀ i, (c'.view i).isParent = (c.view i).isParent)
    (hs : ∀ i, (c'.neigh i).state = (c.neigh i).state) : c'.Flagged := by
  intro i hi
  rw [hs]
  exact hc i (hv i ▸ hi)

theorem Placed.flagged (h : Placed c c') (hs : c'.stance = c.stance) (hc : c.Flagged) :
    c'.Flagged := hc.of_eq (stance_isParent hs) h.state

theorem Engages.flagged (h : Engages i c c') (hi : (c.view i).isParent = false)
    (hc : c.Flagged) : c'.Flagged := by
  intro j hj
  rw [stance_isParent h.stance] at hj
  by_cases hji : j = i
  · rw [hji, hi] at hj
    cases hj
  · rw [h.others j hji]
    exact hc j hj

theorem applyRole_flagged (o : Oracle) (want : Role) (hc : c.Flagged) :
    (applyRole o c want).Flagged := by
  rw [applyRole_eq]
  split
  · exact hc
  · exact (lgRouteRecompute_aligned (inRole c want)).nodeFlagged

theorem lgRoleEvaluate_flagged (o : Oracle) (hc : c.Flagged) : (lgRoleEvaluate o c).Flagged := by
  rw [lgRoleEvaluate_eq]
  cases roleWanted c with
  | none => exact hc
  | some want => exact applyRole_flagged o want hc

theorem Call.result_flagged {k : Call cfg} (hk : k.Told) (hf : k.Fits)
    (h : k.result psa = some d) (hc : k.node.Flagged) : d.Flagged := by
  obtain ⟨o, c, deed⟩ := k
  cases deed with
  | alloc src =>
    cases h
    intro j hj
    rcases alloc_entry c src j with ⟨hn, hv⟩ | ⟨-, -, hv⟩
    · rw [hn]
      exact hc j (hv ▸ hj)
    · rw [hv] at hj
      cases hj
  | free i =>
    cases h
    intro j hj
    rcases free_entry c i j with ⟨-, -, hv⟩ | ⟨-, hn, hv⟩
    · rw [hv] at hj
      cases hj
    · rw [hn]
      exact hc j (hv ▸ hj)
  | begin i =>
    cases h
    exact (lgJoinStart_embarks o hf.1 hf.2.1).toEngages.flagged (hc.spare hf.1 hf.2.1) hc
  | fail i =>
    cases h
    exact (joinFail_engages c i).flagged (hc.spare hf.2.2 hf.2.1) hc
  | openContext i resuming airStartUs =>
    cases h
    refine (openContext_engages c i resuming airStartUs).flagged ?_ hc
    rw [Bool.eq_false_iff]
    intro hi
    exact (hc i hi).elim (fun hl => hk ⟨hi, hl⟩) hf.2.1
  | establish i pp initiator =>
    obtain ⟨e, he, rfl⟩ := Option.map_eq_some_iff.mp h
    rw [lgLinkEstablish_eq_comeUp] at he
    obtain ⟨s, -, rfl⟩ := Option.map_eq_some_iff.mp he
    have hd := (linksChanged_aligned o (comeUp c i pp s)).nodeFlagged
    generalize linksChanged o (comeUp c i pp s) = d at hd ⊢
    exact hd
  | down i =>
    cases h
    rw [lgLinkDown_eq_goneDown]
    split
    · exact hc
    · exact (linksChanged_aligned o (goneDown c i)).nodeFlagged
  | adv i buf =>
    cases h
    rw [lgRouteHandleAdv_eq]
    split
    · exact hc
    · exact ((lgRouteRecompute_aligned (advHeard c i buf)).congr (gossipConsiderSeeking_stance o _)
        (gossipConsiderSeeking_quiet o _).neigh).nodeFlagged
  | ctrl i body =>
    cases h
    obtain ⟨hp, hs⟩ := handleCtrl_placed o c i hf.2.1 hf.2.2
    exact hp.flagged hs hc
  | role =>
    cases h
    exact lgRoleEvaluate_flagged o hc
  | advance i =>
    cases h
    exact (Placed.setSched c i _).flagged rfl hc
  | subrate i =>
    cases h
    obtain ⟨hp, hs⟩ := subrateUpdateLink_placed c i
    exact hp.flagged hs hc
  | stage i =>
    cases h
    have hnote : (noteAdvertised c i).Flagged := by
      refine hc.of_eq (fun j => ?_) fun _ => rfl
      exact noteAdvertised_isParent c i j
    rcases lgLinkStageTx_steady psa (o.ok .encrypt) c i with ⟨-, hs⟩ | ⟨-, hs⟩
    · exact hs.placed.flagged hs.stance hnote
    · exact hs.placed.flagged hs.stance hc
  | close | tick us | halt =>
    cases h
    exact hc
  | uplink up =>
    cases h
    rw [lgBackhaulSet_eq]
    split
    · exact hc
    · split
      · exact lgRoleEvaluate_flagged (c := uplinkSet c up) o hc
      · exact hc
  | start =>
    cases h
    rcases lgStart_entries psa o c with heq | ⟨hfree, -⟩
    · rw [heq]
      exact hc
    · exact fun j _ => .inr (hfree j)

theorem Call.result_kempt {k : Call cfg} (hk : k.Told) (hf : k.Fits)
    (h : k.result psa = some d) (hc : k.node.Kempt) : d.Kempt :=
  ⟨Call.result_seated hf h hc.seated, Call.result_flagged hk hf h hc.flagged,
    Call.result_distinct hf h hc.distinct⟩

theorem Steady.kempt (h : Steady c c') (hc : c.Kempt) : c'.Kempt := by
  refine ⟨hc.seated.sits (.of_stance h.stance), h.placed.flagged h.stance hc.flagged, ?_⟩
  intro i j hi hj haddr hvalid
  rw [h.state] at hi hj
  rw [h.addr, h.addr] at haddr
  exact hc.distinct i j hi hj haddr (h.addr i ▸ hvalid)

/-! ## Runs -/

/-- In every run, what `lg_parent` turns to is reported once and in its place, as long as every
call is told. -/
theorem parent_changes_reported (h : ReachableMeeting psa ident Call.Told c) {inp : Input}
    (hk : ∀ k ∈ calls psa o c inp, k.Told) (hp : perform psa o c inp = some c') :
    ∀ m ∈ moments psa c (calls psa o c inp) c',
      adopted m.notices = turn (lgParent m.before) (lgParent m.after) := by
  have hkempt : c.Kempt := h.keeps
    ⟨Node.boot_seated ident, nofun, Node.boot_distinct ident⟩ Steady.kempt
    fun k d hk hf hr hc => Call.result_kempt hk hf hr hc
  refine (perform_does h.reachable.hsUnlinked hp).moments hkempt (fun hs hc => ?_)
    fun k hmem d hf hr hc => ?_
  · refine ⟨hs.kempt hc, ?_⟩
    rw [hs.sameUplinks.parent, turn_self]
    rfl
  · exact ⟨Call.result_kempt (hk k hmem) hf hr hc, Call.notices_adopted (hk k hmem) hf hr hc⟩

/-- The link of node 1 to its first neighbour comes up. -/
theorem parent_changes_reported_joined :
    ∃ c c' : Node .default, lgParent c = addrInvalid ∧ lgParent c' = 2 ∧
      ∀ m ∈ moments Psa.plain c (calls Psa.plain (calm 6) c .rxWork) c',
        adopted m.notices = turn (lgParent m.before) (lgParent m.after) := by
  obtain ⟨c, hc, hp⟩ := exists_reachableMeeting (K := Call.Told) Psa.plain (plainIdent 1 1)
    joiningRun.dropLast (fun c : Node .default => decide (lgParent c = addrInvalid ∧
      ∀ k ∈ calls Psa.plain (calm 6) c .rxWork, k.Told) &&
        (perform Psa.plain (calm 6) c .rxWork).any fun c' => lgParent c' = 2) (by decide +kernel)
  rw [Bool.and_eq_true, decide_eq_true_eq] at hp
  obtain ⟨⟨hnone, hk⟩, hp⟩ := hp
  cases hr : perform Psa.plain (calm 6) c .rxWork with
  | none => simp [hr] at hp
  | some c' =>
    rw [hr, Option.any_some, decide_eq_true_eq] at hp
    exact ⟨c, c', hnone, hp, parent_changes_reported hc hk hr⟩

/-- The node is a backhaul for a while; then it forwards to its neighbour again, and says nothing
of it. -/
theorem not_parent_changes_reported_demoted :
    ¬ ∀ (psa : Psa) (ident : Identity) (c c' : Node .default) (o : Oracle) (inp : Input),
      Reachable psa ident c → perform psa o c inp = some c' →
      ∀ m ∈ moments psa c (calls psa o c inp) c', m.before.started = true →
        adopted m.notices = turn (lgParent m.before) (lgParent m.after) := by
  intro h
  obtain ⟨c, hc, hp⟩ := exists_reachable Psa.plain (plainIdent 1 1)
    (joiningRun ++ [(calm 7, Input.backhaulSet true)])
    (fun c : Node .default => decide (c.started = true ∧ lgParent c = addrInvalid ∧
      lgParent (lgBackhaulSet (calm 8) c false) = 2)) (by decide +kernel)
  obtain ⟨hs, hnone, hparent⟩ := of_decide_eq_true hp
  have hturn := h Psa.plain _ c _ (calm 8) (.backhaulSet false) hc rfl
    ⟨c, lgBackhaulSet (calm 8) c false, uplinkNotices c false⟩ (by simp [moments, calls,
      Call.result, Call.notices]) hs
  rw [uplinkNotices_adopted, hnone, hparent] at hturn
  exact absurd hturn (by decide)

end LockGrid
