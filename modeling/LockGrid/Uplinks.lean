import LockGrid.Calls
import LockGrid.Parents

/-!
# Rank and uplink

The rank is written by `lg_route_recompute` alone, and `lg_parent` reads the table. The two agree
as long as no neighbour ceases to be linked without a recomputation, and no neighbour goes by the
address that stands for none.
-/
namespace LockGrid

variable {cfg : Config} {psa : Psa} {ident : Identity} {c c' d : Node cfg}
  {i : Fin cfg.maxNeighbors} {o : Oracle}

/-- A parent whose link is up. -/
def IsUplink (c : Node cfg) (i : Fin cfg.maxNeighbors) : Prop :=
  (c.view i).isParent = true ∧ (c.neigh i).state = .linked

theorem lgParentIdx_isSome (c : Node cfg) :
    (lgParentIdx c).isSome = true ↔ ∃ i, IsUplink c i := by
  simp [lgParentIdx, IsUplink]

theorem lgParentIdx_uplink (h : lgParentIdx c = some i) : IsUplink c i := by
  have hi := List.find?_some h
  simpa [IsUplink] using hi

/-- The node as a recomputation leaves it. -/
structure Aligned (c : Node cfg) : Prop where
  backed : c.net.role ≠ .backhaul → (c.net.rank ≠ rankInfinite ↔ ∃ i, IsUplink c i)
  flagged : ∀ i, (c.view i).isParent = true → (c.neigh i).state = .linked

/-- The rank of a started node stands for an uplink, the parents are linked and every neighbour
has an address. The flags of an entry that is not in use are left over. -/
structure Node.Backed (c : Node cfg) : Prop where
  backed : c.started = true → c.net.role ≠ .backhaul →
    (c.net.rank ≠ rankInfinite ↔ ∃ i, IsUplink c i)
  flagged : ∀ i, (c.view i).isParent = true →
    (c.neigh i).state = .linked ∨ (c.neigh i).state = .free
  named : ∀ i, (c.neigh i).state ≠ .free → (c.neigh i).addr ≠ addrInvalid

theorem posture_eq (h : c'.posture = c.posture) :
    c'.started = c.started ∧ c'.nowUs = c.nowUs ∧ c'.net.role = c.net.role ∧
      c'.net.rank = c.net.rank ∧ c'.net.advUrgent = c.net.advUrgent ∧
      c'.net.backhaulActive = c.net.backhaulActive ∧
      c'.net.roleChangedUs = c.net.roleChangedUs := by
  simpa only [Node.posture, Prod.mk.injEq] using h

theorem flags_eq {v v' : View} (h : v'.flags = v.flags) :
    v'.isParent = v.isParent ∧ v'.routeAdvUs = v.routeAdvUs ∧
      v'.advUrgentDone = v.advUrgentDone := by
  simpa only [View.flags, Prod.mk.injEq] using h

theorem stance_isParent (h : c'.stance = c.stance) (i : Fin cfg.maxNeighbors) :
    (c'.view i).isParent = (c.view i).isParent :=
  (flags_eq (congrFun (congrArg Prod.snd h) i)).1

theorem Aligned.congr (h : Aligned c) (hs : c'.stance = c.stance) (hn : c'.neigh = c.neigh) :
    Aligned c' := by
  obtain ⟨-, -, hrole, hrank, -, -⟩ := posture_eq (congrArg Prod.fst hs)
  refine ⟨fun hr => ?_, fun i hi => ?_⟩
  · simp only [IsUplink, stance_isParent hs, hn, hrank]
    exact h.backed (hrole ▸ hr)
  · rw [hn]
    exact h.flagged i (stance_isParent hs i ▸ hi)

theorem Aligned.nodeBacked (h : Aligned c)
    (hn : ∀ i, (c.neigh i).state ≠ .free → (c.neigh i).addr ≠ addrInvalid) : c.Backed :=
  ⟨fun _ => h.backed, fun i hi => .inl (h.flagged i hi), hn⟩

/-! ## Recomputation -/

theorem lgRouteRecompute_aligned (c : Node cfg) : Aligned (lgRouteRecompute c).2 := by
  have hneigh := (lgRouteRecompute_quiet c).neigh
  by_cases hrole : c.net.role = .backhaul
  · have heq : lgRouteRecompute c = (false, { c with
        net := { c.net with rank := 0 }
        view := fun i => { c.view i with isParent := false } }) := by
      rw [lgRouteRecompute, if_pos hrole]
    rw [heq]
    exact ⟨fun hr => absurd hrole hr, by simp⟩
  · have hflag : ∀ i, ((lgRouteRecompute c).2.view i).isParent = true ↔ Kept c i := by
      intro i
      rw [lgRouteRecompute_isParent hrole, decide_eq_true_eq]
    refine ⟨fun _ => ?_, fun i hi => ?_⟩
    · simp only [IsUplink, hflag, hneigh]
      rcases lgRouteRecompute_rank hrole with ⟨i, hi, hrank⟩ | ⟨hnone, hrank⟩
      · have hkept := hi.kept
        refine iff_of_true ?_ ⟨i, hkept, hkept.linked.1⟩
        rw [hrank]
        exact ne_of_lt hkept.1.1
      · refine iff_of_false (not_not.mpr hrank) ?_
        rintro ⟨i, hi, -⟩
        exact hnone i hi
    · rw [hneigh]
      exact ((hflag i).mp hi).linked.1

theorem applyRole_aligned (h : Aligned c) (want : Role) : Aligned (applyRole o c want) := by
  unfold applyRole
  split
  · exact h
  · exact (lgRouteRecompute_aligned _).congr rfl rfl

theorem lgRoleEvaluate_aligned (h : Aligned c) : Aligned (lgRoleEvaluate o c) := by
  rcases lgRoleEvaluate_cases o c with heq | ⟨-, want, heq⟩ <;> rw [heq]
  · exact h
  · exact applyRole_aligned h want

theorem linksChanged_aligned (o : Oracle) (c : Node cfg) : Aligned (linksChanged o c) := by
  have hr : Aligned { (lgRouteRecompute c).2 with net :=
      { (lgRouteRecompute c).2.net with linkChangeUs := (lgRouteRecompute c).2.nowUs } } :=
    (lgRouteRecompute_aligned c).congr rfl rfl
  exact (lgRoleEvaluate_aligned hr).congr rfl rfl

/-! ## Calls -/

/-- The place in the network is as it was, and so are the links and the names. -/
theorem Node.Backed.congr (hc : c.Backed) (hs : c'.stance = c.stance)
    (hl : ∀ i, (c'.neigh i).state = .linked ↔ (c.neigh i).state = .linked)
    (hf : ∀ i, (c'.neigh i).state = .free ↔ (c.neigh i).state = .free)
    (ha : ∀ i, (c'.neigh i).addr = (c.neigh i).addr) : c'.Backed := by
  obtain ⟨hstarted, -, hrole, hrank, -, -⟩ := posture_eq (congrArg Prod.fst hs)
  refine ⟨fun hon hr => ?_, fun i hi => ?_, fun i hi => ?_⟩
  · simp only [IsUplink, stance_isParent hs, hl, hrank]
    exact hc.backed (hstarted ▸ hon) (hrole ▸ hr)
  · rw [hl, hf]
    exact hc.flagged i (stance_isParent hs i ▸ hi)
  · rw [ha]
    exact hc.named i (mt (hf i).mpr hi)

theorem Steady.backed (h : Steady c c') (hc : c.Backed) : c'.Backed :=
  hc.congr h.stance (fun i => by rw [h.state]) (fun i => by rw [h.state]) h.addr

theorem Engages.backed (h : Engages i c c') (hf : (c.neigh i).state ≠ .free)
    (hl : (c.neigh i).state ≠ .linked) (hc : c.Backed) : c'.Backed := by
  refine hc.congr h.stance (fun j => ?_) (fun j => ?_) fun j => ?_ <;> by_cases hj : j = i
  · subst hj
    exact iff_of_false h.unlinked hl
  · rw [h.others j hj]
  · subst hj
    exact iff_of_false h.occupied hf
  · rw [h.others j hj]
  · subst hj
    exact h.addr
  · rw [h.others j hj]

theorem Placed.backed (h : Placed c c') (hs : c'.stance = c.stance) (hc : c.Backed) : c'.Backed :=
  hc.congr hs (fun i => by rw [h.state]) (fun i => by rw [h.state]) h.addr

theorem lgLinkDown_backed (o : Oracle) (i : Fin cfg.maxNeighbors) (hc : c.Backed) :
    (lgLinkDown o c i).Backed := by
  by_cases hl : (c.neigh i).state = .linked
  · have hna : ∀ j, ((lgLinkDown o c i).neigh j).state ≠ .free →
        ((lgLinkDown o c i).neigh j).addr ≠ addrInvalid := by
      intro j hj
      by_cases hji : j = i
      · subst hji
        rw [lgLinkDown_self o hl]
        exact hc.named j (by rw [hl]; exact nofun)
      · rw [lgLinkDown_others o c hji] at hj ⊢
        exact hc.named j hj
    refine Aligned.nodeBacked ?_ hna
    rw [lgLinkDown_eq]
    rw [if_neg (not_ne_iff.mpr hl)]
    exact linksChanged_aligned o _
  · rw [lgLinkDown_eq, if_pos hl]
    exact hc

theorem lgLinkEstablish_backed {pp : LinkParams} {initiator : Bool}
    (hf : (c.neigh i).state ≠ .free) (hc : c.Backed)
    (h : lgLinkEstablish o c i pp initiator = some d) : d.Backed := by
  obtain ⟨s, hq⟩ := lgLinkEstablish_eq h
  refine Aligned.nodeBacked ?_ fun j hj => ?_
  · obtain ⟨s', -, rfl⟩ := Option.map_eq_some_iff.mp h
    exact linksChanged_aligned o _
  · rw [hq.neigh] at hj ⊢
    by_cases hji : j = i
    · subst hji
      simpa using hc.named j hf
    · simp only [Node.setNeigh_neigh, Function.update_of_ne hji] at hj ⊢
      exact hc.named j hj

theorem lgRouteHandleAdv_backed (o : Oracle) (i : Fin cfg.maxNeighbors) (buf : Bytes)
    (hc : c.Backed) : (lgRouteHandleAdv o c i buf).Backed := by
  have hneigh := (lgRouteHandleAdv_quiet o c i buf).neigh
  by_cases hlen : buf.length < 5
  · rw [lgRouteHandleAdv, if_pos hlen]
    exact hc
  · refine Aligned.nodeBacked ?_ (by rw [hneigh]; exact hc.named)
    unfold lgRouteHandleAdv
    rw [if_neg hlen]
    exact (lgRouteRecompute_aligned _).congr (gossipConsiderSeeking_stance o _)
      (gossipConsiderSeeking_quiet o _).neigh

theorem lgRoleEvaluate_backed (o : Oracle) (hc : c.Backed) : (lgRoleEvaluate o c).Backed := by
  rcases lgRoleEvaluate_cases o c with heq | ⟨hs, want, heq⟩
  · rw [heq]
    exact hc
  · by_cases hw : want = c.net.role
    · rw [heq, applyRole, if_pos hw]
      exact hc
    · refine Aligned.nodeBacked ?_ (by rw [(lgRoleEvaluate_quiet o c).neigh]; exact hc.named)
      rw [heq, applyRole, if_neg hw]
      exact (lgRouteRecompute_aligned _).congr rfl rfl

theorem lgBackhaulSet_backed (o : Oracle) (up : Bool) (hc : c.Backed) :
    (lgBackhaulSet o c up).Backed := by
  unfold lgBackhaulSet
  split
  · exact hc
  · dsimp only
    split
    · exact lgRoleEvaluate_backed o ⟨hc.backed, hc.flagged, hc.named⟩
    · exact ⟨hc.backed, hc.flagged, hc.named⟩

/-- A node all of whose entries are free, and whose rank says so. -/
theorem Node.Backed.of_free (hf : ∀ i, (c.neigh i).state = .free)
    (hr : c.net.role ≠ .backhaul → c.net.rank = rankInfinite) : c.Backed := by
  refine ⟨fun _ hrole => iff_of_false (not_not.mpr (hr hrole)) ?_, fun i _ => .inr (hf i),
    fun i hi => absurd (hf i) hi⟩
  rintro ⟨i, -, hl⟩
  rw [hf i] at hl
  cases hl

theorem lgStart_backed (psa : Psa) (o : Oracle) (hc : c.Backed) : (lgStart psa o c).Backed := by
  unfold lgStart
  split
  · exact hc
  · split
    · exact hc
    · let d : Node cfg := { c with
        neigh := fun i => { c.neigh i with state := .free }
        txq := fun _ => {}
        msgIdNext := 1
        net := netInit cfg c.nowUs c.net
        hs := {}
        ev := { c.ev with kind := .none }
        running := true
        started := true }
      have hd : (discInit o d).Backed := by
        refine .of_free (fun _ => rfl) fun hrole => ?_
        change (if c.net.backhaulActive then Role.backhaul else .leaf) ≠ .backhaul at hrole
        change (if c.net.backhaulActive then 0 else rankInfinite) = rankInfinite
        split at hrole <;> simp_all
      have hfinish : Steady (lgRoleEvaluate o (discInit o d))
          (lgDiscBeaconFinish psa o (lgRoleEvaluate o (discInit o d))) := .of_neigh rfl rfl rfl
      exact hfinish.backed (lgRoleEvaluate_backed o hd)

/-- The call gives no entry to no address, and opens no context for a neighbour that is linked. -/
def Call.Grounded (k : Call cfg) : Prop :=
  match k.deed with
  | .alloc src => src ≠ addrInvalid
  | .openContext i _ _ => (k.node.neigh i).state ≠ .linked
  | _ => True

theorem lgNeighAlloc_backed {src : Addr} (hsrc : src ≠ addrInvalid) (hc : c.Backed) :
    (lgNeighAlloc c src).2.Backed := by
  have hpost : (lgNeighAlloc c src).2.posture = c.posture := by
    obtain ⟨_, _, _, _, h⟩ := lgNeighAlloc_table c src
    rw [h]
    rfl
  obtain ⟨hstarted, -, hrole, hrank, -, -⟩ := posture_eq hpost
  have hup : ∀ i, IsUplink (lgNeighAlloc c src).2 i ↔ IsUplink c i := by
    intro i
    unfold IsUplink
    rcases alloc_entry c src i with ⟨hn, hv⟩ | ⟨hf, hn, hv⟩ <;> rw [hn, hv]
    rw [hf]
    exact iff_of_false (fun hi => by cases hi.2) fun hi => by cases hi.2
  refine ⟨fun hs hr => ?_, fun i hi => ?_, fun i hi => ?_⟩
  · simp only [hup, hrank]
    exact hc.backed (hstarted ▸ hs) (hrole ▸ hr)
  · rcases alloc_entry c src i with ⟨hn, hv⟩ | ⟨-, -, hv⟩
    · rw [hn]
      rw [hv] at hi
      exact hc.flagged i hi
    · rw [hv] at hi
      cases hi
  · rcases alloc_entry c src i with ⟨hn, -⟩ | ⟨-, hn, -⟩ <;> rw [hn] at hi ⊢
    · exact hc.named i hi
    · exact hsrc

theorem lgNeighFree_backed (hl : (c.neigh i).state ≠ .linked) (hc : c.Backed) :
    (lgNeighFree c i).Backed := by
  have hup : ∀ j, IsUplink (lgNeighFree c i) j ↔ IsUplink c j := by
    intro j
    unfold IsUplink
    rcases free_entry c i j with ⟨rfl, hn, hv⟩ | ⟨-, hn, hv⟩ <;> rw [hn, hv]
    exact iff_of_false (fun h => by cases h.1) fun h => hl h.2
  have hpost : (lgNeighFree c i).posture = c.posture := by
    obtain ⟨_, _, _, _, h⟩ := lgNeighFree_table c i
    rw [h]
    rfl
  obtain ⟨hstarted, -, hrole, hrank, -, -⟩ := posture_eq hpost
  refine ⟨fun hs hr => ?_, fun j hj => ?_, fun j hj => ?_⟩
  · simp only [hup, hrank]
    exact hc.backed (hstarted ▸ hs) (hrole ▸ hr)
  · rcases free_entry c i j with ⟨-, hn, -⟩ | ⟨-, hn, hv⟩
    · exact .inr (by rw [hn])
    · rw [hn]
      rw [hv] at hj
      exact hc.flagged j hj
  · rcases free_entry c i j with ⟨-, hn, -⟩ | ⟨-, hn, -⟩ <;> rw [hn] at hj ⊢
    · exact absurd rfl hj
    · exact hc.named j hj

theorem noteAdvertised_backed (i : Fin cfg.maxNeighbors) (hc : c.Backed) :
    (noteAdvertised c i).Backed := by
  have hflag : ∀ j, ((noteAdvertised c i).view j).isParent = (c.view j).isParent := by
    intro j
    by_cases hj : j = i
    · subst hj
      simp [noteAdvertised, Node.setView]
    · simp [noteAdvertised, Node.setView, hj]
  refine ⟨fun hs hr => ?_, fun j hj => hc.flagged j (hflag j ▸ hj), hc.named⟩
  simp only [IsUplink, hflag]
  exact hc.backed hs hr

theorem Call.result_backed {k : Call cfg} (hk : k.Grounded) (hf : k.Fits)
    (h : k.result psa = some d) (hc : k.node.Backed) : d.Backed := by
  obtain ⟨o, c, deed⟩ := k
  cases deed with
  | alloc src =>
    cases h
    exact lgNeighAlloc_backed hk hc
  | openContext i resuming airStartUs =>
    cases h
    exact (openContext_engages c i resuming airStartUs).backed hf.2.1 hk hc
  | free i =>
    cases h
    exact lgNeighFree_backed hf.1 hc
  | begin i =>
    cases h
    exact (lgJoinStart_embarks o hf.1 hf.2.1).backed hf.1 hf.2.1 hc
  | fail i =>
    cases h
    exact (joinFail_engages c i).backed hf.2.2 hf.2.1 hc
  | close =>
    cases h
    exact ⟨hc.backed, hc.flagged, hc.named⟩
  | establish i pp initiator =>
    obtain ⟨e, he, rfl⟩ := Option.map_eq_some_iff.mp h
    have hb := lgLinkEstablish_backed hf.2.2 hc he
    exact ⟨hb.backed, hb.flagged, hb.named⟩
  | down i =>
    cases h
    exact lgLinkDown_backed o i hc
  | adv i buf =>
    cases h
    exact lgRouteHandleAdv_backed o i buf hc
  | ctrl i body =>
    cases h
    obtain ⟨hp, hs⟩ := handleCtrl_placed o c i hf.2.1 hf.2.2
    exact hp.backed hs hc
  | role =>
    cases h
    exact lgRoleEvaluate_backed o hc
  | advance i =>
    cases h
    exact (Placed.setSched c i _).backed rfl hc
  | subrate i =>
    cases h
    obtain ⟨hp, hs⟩ := subrateUpdateLink_placed c i
    exact hp.backed hs hc
  | stage i =>
    cases h
    rcases lgLinkStageTx_steady psa (o.ok .encrypt) c i with ⟨-, hs⟩ | ⟨-, hs⟩
    · exact hs.backed (noteAdvertised_backed i hc)
    · exact hs.backed hc
  | tick us =>
    cases h
    exact ⟨hc.backed, hc.flagged, hc.named⟩
  | uplink up =>
    cases h
    exact lgBackhaulSet_backed o up hc
  | start =>
    cases h
    exact lgStart_backed psa o hc
  | halt =>
    cases h
    exact ⟨nofun, hc.flagged, hc.named⟩

/-! ## Frames -/

/-- A first message in the name of `src` opens a context for a neighbour that is linked, or for
nobody. -/
def Node.UsurpedBy (c : Node cfg) (t : FrameType) (src : Addr) : Prop :=
  (t = .joinReq ∨ t = .resumeReq) ∧ c.hs.n = none ∧
    (src = addrInvalid ∨ c.DisplacedBy t src)

/-- The frame at hand, if it is a first message, usurps no entry. -/
def Node.Guarded (c : Node cfg) : Input → Prop
  | .rxWork => ∀ rx ∈ c.rxRing.head?, (lgFrameHdrGet cfg rx.pdu c.ident.netid16).isSome = true →
      getLe16 rx.pdu offSrc ≠ c.ident.addr →
      ∀ t ∈ lgFrameType rx.pdu, ¬ c.UsurpedBy t (getLe16 rx.pdu offSrc)
  | _ => True

instance (c : Node cfg) (t : FrameType) (src : Addr) : Decidable (c.DisplacedBy t src) :=
  inferInstanceAs (Decidable ((t = .joinReq ∨ t = .resumeReq) ∧ c.hs.n = none ∧
    lgNeighLinkedCount c < cfg.maxLinks ∧
    ∃ i, (c.neigh i).state = .linked ∧ (c.neigh i).addr = src))

instance (c : Node cfg) (t : FrameType) (src : Addr) : Decidable (c.UsurpedBy t src) :=
  inferInstanceAs (Decidable (_ ∧ _ ∧ _))

instance (c : Node cfg) (inp : Input) : Decidable (c.Guarded inp) := by
  rcases inp <;> unfold Node.Guarded <;> infer_instance

theorem roomCalls_grounded (o : Oracle) (c : Node cfg) (cost : ℕ) :
    ∀ k ∈ roomCalls o c cost, k.Grounded := by
  intro k hk
  unfold roomCalls at hk
  dsimp only at hk
  split at hk
  · cases hk
  · split at hk
    · rw [List.mem_singleton] at hk
      subst hk
      trivial
    · split at hk
      · simp only [List.mem_cons, List.not_mem_nil, or_false] at hk
        rcases hk with rfl | rfl <;> trivial
      · cases hk

theorem admitCalls_grounded (o : Oracle) (c : Node cfg) {src : Addr} (hsrc : src ≠ addrInvalid) :
    ∀ k ∈ admitCalls o c src, k.Grounded := by
  intro k hk
  unfold admitCalls at hk
  split at hk
  · rw [List.mem_singleton] at hk
    subst hk
    exact hsrc
  · dsimp only at hk
    rw [List.cons_append, List.mem_cons, List.mem_append] at hk
    rcases hk with rfl | hk | hk
    · exact hsrc
    · exact roomCalls_grounded o _ _ k hk
    · split at hk
      · rw [List.mem_singleton] at hk
        subst hk
        exact hsrc
      · cases hk

theorem contextCalls_grounded (o : Oracle) {c : Node cfg} {t : FrameType} {src : Addr}
    (airStartUs : ℕ) (h : ¬ c.UsurpedBy t src) :
    ∀ k ∈ contextCalls o c t src airStartUs, k.Grounded := by
  intro k hk
  unfold contextCalls at hk
  cases hn : c.hs.n with
  | some i =>
    rw [hn] at hk
    cases hk
  | none =>
    rw [hn] at hk
    dsimp only at hk
    split at hk
    · next ht =>
      have hsrc : src ≠ addrInvalid := fun hsrc => h ⟨ht, hn, .inl hsrc⟩
      rcases he : admitJoiner o c src with ⟨_ | i, d⟩
      · rw [he] at hk
        exact admitCalls_grounded o c hsrc k hk
      · rw [he] at hk
        dsimp only at hk
        split at hk
        · exact admitCalls_grounded o c hsrc k hk
        · next hroom =>
          rw [List.mem_append, List.mem_singleton] at hk
          rcases hk with hk | rfl
          · exact admitCalls_grounded o c hsrc k hk
          · intro hl
            obtain ⟨rfl, haddr⟩ := admitJoiner_linked he hl
            exact h ⟨ht, hn, .inr ⟨ht, hn, not_le.mp hroom, i, hl, haddr⟩⟩
    · cases hk

theorem ctrlCalls_grounded (o : Oracle) (c : Node cfg) (i : Fin cfg.maxNeighbors) (body : Bytes) :
    ∀ k ∈ ctrlCalls o c i body, k.Grounded := by
  intro k hk
  unfold ctrlCalls at hk
  split_ifs at hk <;> simp only [List.mem_singleton, List.not_mem_nil] at hk <;> subst hk <;>
    trivial

theorem linkRxCalls_grounded (psa : Psa) (o : Oracle) (c : Node cfg) (h : FrameHdr) (pdu : Bytes) :
    ∀ k ∈ linkRxCalls psa o c h pdu, k.Grounded := by
  intro k hk
  unfold linkRxCalls at hk
  cases hf : lgNeighFind c h.src with
  | none =>
    rw [hf] at hk
    cases hk
  | some i =>
    rw [hf] at hk
    dsimp only at hk
    split at hk
    · cases hk
    · generalize lgSecDecrypt psa (o.ok .decrypt) c i pdu = r at hk
      obtain ⟨e | body, d⟩ := r
      · cases hk
      · dsimp only at hk
        split at hk
        · exact ctrlCalls_grounded o d i _ k hk
        · cases hk

theorem entryCalls_grounded (o : Oracle) (c : Node cfg) (b : Beacon) {src : Addr} (rssi : ℤ)
    (hsrc : src ≠ addrInvalid) : ∀ k ∈ entryCalls o c b src rssi, k.Grounded := by
  intro k hk
  unfold entryCalls at hk
  split at hk
  · exact admitCalls_grounded o c hsrc k hk
  · cases hk

theorem answerCalls_grounded (o : Oracle) (c : Node cfg) (i : Fin cfg.maxNeighbors) (b : Beacon)
    (src : Addr) (rssi : ℤ) (airStartUs : ℕ) :
    ∀ k ∈ answerCalls o c i b src rssi airStartUs, k.Grounded := by
  intro k hk
  unfold answerCalls at hk
  split_ifs at hk
  · cases hk
  · cases hk
  · rw [List.mem_singleton] at hk
    subst hk
    trivial

theorem beaconCalls_grounded (psa : Psa) (o : Oracle) (c : Node cfg) (rx : RxRec) :
    ∀ k ∈ beaconCalls psa o c rx, k.Grounded := by
  intro k hk
  unfold beaconCalls at hk
  split at hk
  · cases hk
  · generalize lgSecBeaconOpen psa (o.ok .beaconMac) c.ident.netKey rx.pdu = r at hk
    cases r with
    | none => cases hk
    | some body =>
      dsimp only at hk
      split at hk
      · cases hk
      · next hsrc =>
        simp only [not_or] at hsrc
        have hfirst : ∀ {p : Prop} [Decidable p] {d : Node cfg},
            k ∈ (if p then [Call.mk o d .role] else []) → k.Grounded := by
          intro p _ d hk
          split at hk
          · rw [List.mem_singleton] at hk
            subst hk
            trivial
          · cases hk
        unfold acceptCalls at hk
        dsimp only at hk
        split at hk
        · rcases List.mem_append.mp hk with hk | hk
          · exact hfirst hk
          · exact entryCalls_grounded o _ _ _ hsrc.2.1 k hk
        · simp only [List.mem_append] at hk
          rcases hk with (hk | hk) | hk
          · exact hfirst hk
          · exact entryCalls_grounded o _ _ _ hsrc.2.1 k hk
          · exact answerCalls_grounded o _ _ _ _ _ _ k hk

theorem messageCalls_grounded (psa : Psa) (o : Oracle) (c : Node cfg) (i : Fin cfg.maxNeighbors)
    (t : FrameType) (sec : Bool) (airStartUs : ℕ) :
    ∀ k ∈ messageCalls psa o c i t sec airStartUs, k.Grounded := by
  have hfail : ∀ (r : Except Err Unit × Node cfg), ∀ k ∈ failCalls o r i, k.Grounded := by
    intro r k hk
    unfold failCalls at hk
    split at hk
    · rw [List.mem_singleton] at hk
      subst hk
      trivial
    · cases hk
  have hjoiner : ∀ k ∈ joinerCalls o c i t sec airStartUs, k.Grounded := by
    intro k hk
    unfold joinerCalls at hk
    split at hk
    · rw [List.mem_singleton] at hk
      subst hk
      trivial
    · rw [List.mem_singleton] at hk
      subst hk
      trivial
  intro k hk
  unfold messageCalls at hk
  cases t with
  | joinReq | joinRsp | joinCfm => exact hfail _ k hk
  | joinAck | resumeRsp => exact hjoiner k hk
  | resumeReq =>
    dsimp only at hk
    split at hk
    · rw [List.mem_singleton] at hk
      subst hk
      trivial
    · cases hk
  | beacon | linkReq | linkRsp | data | ack | ctrl => cases hk

theorem joinRxCalls_grounded (psa : Psa) (o : Oracle) {c : Node cfg} {t : FrameType} {rx : RxRec}
    (h : ¬ c.UsurpedBy t (getLe16 rx.pdu offSrc)) :
    ∀ k ∈ joinRxCalls psa o c t rx, k.Grounded := by
  intro k hk
  have hctx := contextCalls_grounded o rx.airStartUs h
  unfold joinRxCalls at hk
  dsimp only at hk
  rcases he : contextFor o c t (getLe16 rx.pdu offSrc) rx.airStartUs with ⟨_ | i, d⟩ <;>
    rw [he] at hk
  · exact hctx k hk
  · dsimp only at hk
    rcases hr : reassemble psa o (lgNeighRxRssi d i rx.rssi) i t rx.pdu with ⟨_ | _, e⟩ <;>
      rw [hr] at hk
    · exact hctx k hk
    · rcases List.mem_append.mp hk with hk | hk
      · exact hctx k hk
      · exact messageCalls_grounded psa o e i t _ _ k hk

theorem rxCalls_grounded (psa : Psa) (o : Oracle) {c : Node cfg} (h : c.Guarded .rxWork) :
    ∀ k ∈ rxCalls psa o c, k.Grounded := by
  intro k hk
  unfold rxCalls at hk
  cases hring : c.rxRing with
  | nil =>
    rw [hring] at hk
    cases hk
  | cons rx rest =>
    rw [hring] at hk
    have hg := h rx (by rw [hring]; rfl)
    unfold dispatchCalls at hk
    cases hhdr : lgFrameHdrGet cfg rx.pdu c.ident.netid16 with
    | none =>
      simp only [hhdr] at hk
      cases hk
    | some hdr =>
      simp only [hhdr] at hk
      split at hk
      · cases hk
      · next hto =>
        have hsrc : getLe16 rx.pdu offSrc ≠ c.ident.addr := by
          have heq : hdr.src = getLe16 rx.pdu offSrc := by
            unfold lgFrameHdrGet at hhdr
            split_ifs at hhdr
            dsimp only at hhdr
            split_ifs at hhdr <;> cases hhdr <;> rfl
          exact fun hown => hto (.inl (heq.trans hown))
        cases ht : lgFrameType rx.pdu with
        | none =>
          rw [ht] at hk
          exact linkRxCalls_grounded psa o _ hdr rx.pdu k hk
        | some t =>
          rw [ht] at hk
          have hu : ¬ ({ c with rxRing := rest } : Node cfg).UsurpedBy t (getLe16 rx.pdu offSrc) :=
            hg (by rw [hhdr]; rfl) hsrc t ht
          cases t
          case beacon => exact beaconCalls_grounded psa o _ rx k hk
          all_goals
            simp only [FrameType.isJoin, if_true, Bool.false_eq_true, if_false] at hk
            first
              | exact joinRxCalls_grounded psa o hu k hk
              | exact linkRxCalls_grounded psa o _ hdr rx.pdu k hk

/-- The scheduler finds nobody an entry and opens no context. -/
theorem Call.grounded_of_plain {k : Call cfg} (h : k.deed.Plain) : k.Grounded := by
  obtain ⟨o, c, deed⟩ := k
  cases deed
  case alloc | openContext => exact h.elim
  all_goals trivial

/-- A step that is guarded makes no call that is not grounded. -/
theorem calls_grounded {inp : Input} (h : c.Guarded inp) :
    ∀ k ∈ calls psa o c inp, k.Grounded := by
  intro k hk
  by_cases hrx : inp = .rxWork
  · subst hrx
    exact rxCalls_grounded psa o h k hk
  · exact Call.grounded_of_plain (calls_plain hrx k hk)

/-! ## Runs -/

theorem Node.boot_backed (ident : Identity) : (Node.boot cfg ident).Backed :=
  ⟨nofun, nofun, fun _ hi => absurd rfl hi⟩

theorem ReachableWhen.backed (h : ReachableWhen psa ident Node.Guarded c) : c.Backed := by
  induction h with
  | refl => exact Node.boot_backed ident
  | tail hr hs ih =>
    obtain ⟨inp, o, -, hg, hp⟩ := hs
    have hc := (ReachableWhen.reachable hr).hsUnlinked
    exact (perform_does hc hp).keeps ih Steady.backed fun k hmem d hf hres hk =>
      Call.result_backed (calls_grounded hg k hmem) hf hres hk

theorem Node.Backed.lgParent_valid (h : c.Backed) :
    lgParent c ≠ addrInvalid ↔ ∃ i, IsUplink c i := by
  rw [← lgParentIdx_isSome, lgParent]
  cases hp : lgParentIdx c with
  | none => simp
  | some i =>
    have hl := (lgParentIdx_uplink hp).2
    exact iff_of_true (h.named i (by simp [hl])) rfl

/-- In every run in which no first message opens a context for a neighbour that is linked, or for
nobody, the rank of a started node that is not a backhaul stands for an uplink: a node with a
route has one that is linked. -/
theorem route_consistent (h : ReachableWhen psa ident Node.Guarded c) (hs : c.started = true)
    (hr : c.net.role ≠ .backhaul) :
    (c.net.rank ≠ rankInfinite ↔ lgParent c ≠ addrInvalid) ∧
      (lgHasRoute c = true → ∃ i, lgParentIdx c = some i ∧ (c.neigh i).state = .linked) := by
  have hb := h.backed
  have hrank := hb.backed hs hr
  refine ⟨hrank.trans hb.lgParent_valid.symm, fun hroute => ?_⟩
  have hfinite : c.net.rank ≠ rankInfinite := by
    simpa [lgHasRoute, hr] using hroute
  obtain ⟨i, hi⟩ := Option.isSome_iff_exists.mp ((lgParentIdx_isSome c).mpr (hrank.mp hfinite))
  exact ⟨i, hi, (lgParentIdx_uplink hi).2⟩

/-- Node 1 has node 2 as its uplink, and a `JOIN_CFM` in the name of that node has come. -/
theorem route_consistent_linked :
    ∃ c : Node .default, ReachableWhen Psa.plain (plainIdent 1 1) Node.Guarded c ∧
      c.net.rank ≠ rankInfinite ∧ (c.net.rank ≠ rankInfinite ↔ lgParent c ≠ addrInvalid) ∧
      (lgHasRoute c = true → ∃ i, lgParentIdx c = some i ∧ (c.neigh i).state = .linked) := by
  obtain ⟨c, hc, hp⟩ := exists_reachableWhen (P := Node.Guarded) Psa.plain (plainIdent 1 1)
    (forgedRun .joinCfm ++ [(calm 7, Input.rxWork)])
    (fun c : Node .default => decide (c.started = true ∧ c.net.role ≠ .backhaul ∧
      c.net.rank ≠ rankInfinite)) (by decide +kernel)
  obtain ⟨hs, hr, hrank⟩ := of_decide_eq_true hp
  exact ⟨c, hc, hrank, route_consistent hc hs hr⟩

/-- A `JOIN_REQ` in the name of the uplink ends the link, and the rank stays as it was. -/
theorem not_route_consistent_forged :
    ¬ ∀ (psa : Psa) (ident : Identity) (c : Node .default), Reachable psa ident c →
      c.started = true → c.net.role ≠ .backhaul →
      (c.net.rank ≠ rankInfinite ↔ lgParent c ≠ addrInvalid) := by
  intro h
  obtain ⟨c, hc, hp⟩ := exists_reachable Psa.plain (plainIdent 1 1)
    (forgedRun .joinReq ++ [(calm 7, Input.rxWork)])
    (fun c : Node .default => decide (c.started = true ∧ c.net.role ≠ .backhaul ∧
      c.net.rank ≠ rankInfinite ∧ lgParent c = addrInvalid)) (by decide +kernel)
  obtain ⟨hs, hr, hrank, hparent⟩ := of_decide_eq_true hp
  exact (h _ _ c hc hs hr).mp hrank hparent

end LockGrid
