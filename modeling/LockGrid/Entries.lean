import LockGrid.Calls
import LockGrid.Provenance
import Mathlib.Data.Fintype.Basic
import Mathlib.Data.Finset.Card

/-!
# Entries of the neighbour table

Over whole runs: which entries a handshake is about, which addresses the entries have and how
many of them are linked.
-/
namespace LockGrid

variable {cfg : Config} {psa : Psa} {ident : Identity} {c c' d : Node cfg}
  {i : Fin cfg.maxNeighbors} {o : Oracle}

/-! ## What a call finds -/

/-- What calls and steady work keep holds of every node that a call of the step finds. -/
theorem Does.nodes {r : Fin cfg.maxNeighbors → Prop} {l : List (Call cfg)}
    {P : Node cfg → Prop} (h : Does r psa c l c') (hc : P c)
    (hsteady : ∀ {c c'}, Steady c c' → P c → P c')
    (hcall : ∀ k ∈ l, ∀ d, k.Fits → k.result psa = some d → P k.node → P d) :
    ∀ k ∈ l, P k.node ∧ k.Fits := by
  induction h with
  | rest hs =>
    intro k hmem
    cases hmem
  | call hs hk hr _ ih =>
    intro k hmem
    rcases List.mem_cons.mp hmem with rfl | hmem
    · exact ⟨hsteady hs.toSteady hc, hk⟩
    · refine ih (hcall _ (by simp) _ hk hr (hsteady hs.toSteady hc)) (fun k hmem => ?_) k hmem
      exact hcall k (by simp [hmem])

theorem lgStart_entries (psa : Psa) (o : Oracle) (c : Node cfg) :
    lgStart psa o c = c ∨
      (∀ i, ((lgStart psa o c).neigh i).state = .free) ∧ (lgStart psa o c).hs.n = none := by
  have hq : ∀ e : Node cfg, (lgDiscBeaconFinish psa o (lgRoleEvaluate o (discInit o e))).neigh =
      e.neigh ∧ (lgDiscBeaconFinish psa o (lgRoleEvaluate o (discInit o e))).hs = e.hs := by
    intro e
    obtain ⟨net, view, heq⟩ := (lgRoleEvaluate_quiet o (discInit o e)).trans
      (lgDiscBeaconFinish_quiet psa o _)
    rw [heq]
    exact ⟨rfl, rfl⟩
  unfold lgStart
  split
  · exact .inl rfl
  · split
    · exact .inl rfl
    · right
      obtain ⟨hn, hh⟩ := hq { c with
        neigh := fun i => { c.neigh i with state := .free }
        txq := fun _ => {}
        msgIdNext := 1
        net := netInit cfg c.nowUs c.net
        hs := {}
        ev := { c.ev with kind := .none }
        running := true
        started := true }
      refine ⟨fun i => ?_, ?_⟩
      · exact congrArg (fun f => (f i).state) hn
      · exact congrArg Hs.n hh

theorem lgLinkDown_entry (o : Oracle) (c : Node cfg) (i j : Fin cfg.maxNeighbors) :
    ((lgLinkDown o c i).neigh j).addr = (c.neigh j).addr ∧
      (((lgLinkDown o c i).neigh j).state = (c.neigh j).state ∨
        j = i ∧ (c.neigh i).state = .linked ∧ ((lgLinkDown o c i).neigh j).state = .lost) := by
  by_cases hl : (c.neigh i).state = .linked
  · by_cases hj : j = i
    · subst hj
      rw [lgLinkDown_self o hl]
      exact ⟨rfl, .inr ⟨rfl, hl, rfl⟩⟩
    · rw [lgLinkDown_others o c hj]
      exact ⟨rfl, .inl rfl⟩
  · rw [lgLinkDown_eq, if_pos hl]
    exact ⟨rfl, .inl rfl⟩

theorem lgLinkEstablish_entry {pp : LinkParams} {initiator : Bool}
    (h : lgLinkEstablish o c i pp initiator = some d) (j : Fin cfg.maxNeighbors) :
    (d.neigh j).addr = (c.neigh j).addr ∧
      (j = i ∧ (d.neigh j).state = .linked ∨ j ≠ i ∧ (d.neigh j).state = (c.neigh j).state) := by
  obtain ⟨s, hq⟩ := lgLinkEstablish_eq h
  rw [hq.neigh]
  by_cases hj : j = i
  · subst hj
    simp
  · simp [hj]

/-- An entry in use after a call was in use before, under the same address, or is new. -/
theorem Call.result_entry {k : Call cfg} (hf : k.Fits) (h : k.result psa = some d)
    {j : Fin cfg.maxNeighbors} (hj : (d.neigh j).state ≠ .free) :
    (k.node.neigh j).state ≠ .free ∧ (d.neigh j).addr = (k.node.neigh j).addr ∨
      ∃ src, k.deed = .alloc src ∧ (k.node.neigh j).state = .free ∧ (d.neigh j).addr = src := by
  by_cases hm : k.deed.Moves
  · have hengages : ∀ {i}, Engages i k.node d → (k.node.neigh i).state ≠ .free →
        (k.node.neigh j).state ≠ .free ∧ (d.neigh j).addr = (k.node.neigh j).addr := by
      intro i he hi
      by_cases hji : j = i
      · subst hji
        exact ⟨hi, he.addr⟩
      · rw [he.others j hji] at hj ⊢
        exact ⟨hj, rfl⟩
    obtain ⟨o, c, deed⟩ := k
    cases deed with
    | alloc src =>
      cases h
      rcases alloc_entry c src j with ⟨hn, -⟩ | ⟨hfree, hn, -⟩
      · rw [hn] at hj ⊢
        exact .inl ⟨hj, rfl⟩
      · rw [hn]
        exact .inr ⟨src, rfl, hfree, rfl⟩
    | free i =>
      cases h
      rcases free_entry c i j with ⟨-, hn, -⟩ | ⟨-, hn, -⟩ <;> rw [hn] at hj ⊢
      · exact absurd rfl hj
      · exact .inl ⟨hj, rfl⟩
    | begin i =>
      cases h
      exact .inl (hengages (lgJoinStart_embarks o hf.1 hf.2.1).toEngages hf.1)
    | fail i =>
      cases h
      exact .inl (hengages (joinFail_engages c i) hf.2.2)
    | close =>
      cases h
      exact .inl ⟨hj, rfl⟩
    | openContext i resuming airStartUs =>
      cases h
      exact .inl (hengages (openContext_engages c i resuming airStartUs) hf.2.1)
    | establish i pp initiator =>
      obtain ⟨e, he, rfl⟩ := Option.map_eq_some_iff.mp h
      obtain ⟨haddr, ⟨rfl, -⟩ | ⟨-, hstate⟩⟩ := lgLinkEstablish_entry he j
      · exact .inl ⟨hf.2.2, haddr⟩
      · exact .inl ⟨fun hfree => hj (hstate.trans hfree), haddr⟩
    | down i =>
      cases h
      obtain ⟨haddr, hstate | ⟨rfl, hl, -⟩⟩ := lgLinkDown_entry o c i j
      · exact .inl ⟨fun hfree => hj (hstate.trans hfree), haddr⟩
      · exact .inl ⟨fun hfree => (by cases hl.symm.trans hfree), haddr⟩
    | start =>
      cases h
      rcases lgStart_entries psa o c with heq | ⟨hfree, -⟩
      · change ((lgStart psa o c).neigh j).state ≠ .free at hj
        change _ ∧ ((lgStart psa o c).neigh j).addr = _ ∨ _
        rw [heq] at hj ⊢
        exact .inl ⟨hj, rfl⟩
      · exact absurd (hfree j) hj
    | adv | ctrl | role | advance | subrate | stage | tick | uplink | halt => cases hm
  · have hp := Call.result_placed hm hf h
    rw [hp.state] at hj
    exact .inl ⟨hj, hp.addr j⟩

/-! ## Names -/

/-- No entry is given to no address. -/
def Call.Names (k : Call cfg) : Prop :=
  match k.deed with
  | .alloc src => src ≠ addrInvalid ∨ ∀ i, (k.node.neigh i).state ≠ .free
  | _ => True

instance (k : Call cfg) : Decidable (Call.Names k) := by
  obtain ⟨o, c, deed⟩ := k
  rcases deed <;> unfold Call.Names <;> dsimp only <;> infer_instance

/-- Entries in use have addresses. -/
def Node.Named (c : Node cfg) : Prop :=
  ∀ i, (c.neigh i).state ≠ .free → (c.neigh i).addr ≠ addrInvalid

theorem Steady.named (h : Steady c c') (hc : c.Named) : c'.Named := by
  intro i hi
  rw [h.state] at hi
  rw [h.addr]
  exact hc i hi

theorem Call.result_named {k : Call cfg} (hk : k.Names) (hf : k.Fits)
    (h : k.result psa = some d) (hc : k.node.Named) : d.Named := by
  intro j hj
  rcases Call.result_entry hf h hj with ⟨hused, haddr⟩ | ⟨src, hdeed, hfree, haddr⟩
  · rw [haddr]
    exact hc j hused
  · rw [haddr]
    unfold Call.Names at hk
    rw [hdeed] at hk
    exact hk.resolve_right fun hfull => hfull j hfree

/-- In every run in which no address but a valid one is given an entry, the entries in use have
valid addresses, no two of them the same. -/
theorem entries_distinct (h : ReachableMeeting psa ident Call.Names c) :
    (∀ i j, (c.neigh i).state ≠ .free → (c.neigh j).state ≠ .free →
      (c.neigh i).addr = (c.neigh j).addr → i = j) ∧
    ∀ i, (c.neigh i).state ≠ .free → (c.neigh i).addr ≠ addrInvalid := by
  have hnamed : c.Named := h.keeps (fun _ hi => absurd rfl hi) Steady.named
    fun k d hk hf hr hc => Call.result_named hk hf hr hc
  refine ⟨fun i j hi hj haddr => ?_, hnamed⟩
  exact h.reachable.distinct i j hi hj haddr (hnamed i hi)

/-- As `joiningRun` up to the scan, in which the first fragment of a `JOIN_REQ` from nobody is
heard. -/
def namelessRun : List (Oracle × Input) :=
  joiningRun.take 5 ++
    [(calm 4, Input.rxDone (plainFrag .joinReq 1 addrInvalid replayedReq 0)), (calm 5, .rxWork)]

/-- Node 1 has node 2 in its table. -/
theorem entries_distinct_joined :
    ∃ c : Node .default, (c.neigh firstNeigh).state ≠ .free ∧
      (∀ i j, (c.neigh i).state ≠ .free → (c.neigh j).state ≠ .free →
        (c.neigh i).addr = (c.neigh j).addr → i = j) ∧
      ∀ i, (c.neigh i).state ≠ .free → (c.neigh i).addr ≠ addrInvalid := by
  obtain ⟨c, hc, hp⟩ := exists_reachableMeeting (K := Call.Names) Psa.plain (plainIdent 1 1)
    joiningRun (fun c : Node .default => decide ((c.neigh firstNeigh).state ≠ .free))
    (by decide +kernel)
  exact ⟨c, of_decide_eq_true hp, entries_distinct hc⟩

/-- A `JOIN_REQ` from nobody is given an entry. -/
theorem not_entries_distinct_nameless :
    ¬ ∀ (psa : Psa) (ident : Identity) (c : Node .default), Reachable psa ident c →
      ∀ i, (c.neigh i).state ≠ .free → (c.neigh i).addr ≠ addrInvalid := by
  intro h
  obtain ⟨c, hc, hp⟩ := exists_reachable Psa.plain (plainIdent 1 1) namelessRun
    (fun c : Node .default => decide ((c.neigh firstNeigh).state ≠ .free ∧
      (c.neigh firstNeigh).addr = addrInvalid)) (by decide +kernel)
  obtain ⟨hused, haddr⟩ := of_decide_eq_true hp
  exact h _ _ c hc firstNeigh hused haddr

/-! ## Handshakes -/

/-- An entry in a handshake is the one the handshake is about. -/
def Node.JoinsAbout (c : Node cfg) : Prop :=
  ∀ i, (c.neigh i).state = .joining → c.hs.n = some i

theorem Placed.joinsAbout (h : Placed c c') (hc : c.JoinsAbout) : c'.JoinsAbout := by
  intro i hi
  rw [h.about]
  apply hc
  rwa [h.state] at hi

/-- The handshake about entry `i` is over. -/
theorem Node.JoinsAbout.ended (hc : c.JoinsAbout) (hn : c.hs.n = some i)
    (hothers : ∀ j, j ≠ i → c'.neigh j = c.neigh j) (hi : (c'.neigh i).state ≠ .joining) :
    ∀ j, (c'.neigh j).state ≠ .joining := by
  intro j hj
  by_cases hji : j = i
  · subst hji
    exact hi hj
  · rw [hothers j hji] at hj
    exact hji (Option.some.inj ((hc j hj).symm.trans hn))

theorem Embarks.joinsAbout (h : Embarks i c c') (hi : (c.neigh i).state ≠ .joining)
    (hc : c.JoinsAbout) : c'.JoinsAbout := by
  intro j hj
  by_cases hji : j = i
  · subst hji
    rcases h.begins with ⟨-, hstate⟩ | ⟨habout, -⟩ | ⟨-, hstate⟩
    · exact absurd (hstate.symm.trans hj) hi
    · exact habout
    · exact absurd hj hstate
  · rw [h.others j hji] at hj
    have hn := hc j hj
    have hbusy := h.busy (by rw [hn]; exact nofun) fun h' =>
      hji (Option.some.inj (hn.symm.trans h'))
    exact hbusy.1.trans hn

/-- Every call keeps that, even one that frees the entry of a handshake. -/
theorem Call.result_joinsAbout {k : Call cfg} (hf : k.Fits) (h : k.result psa = some d)
    (hc : k.node.JoinsAbout) : d.JoinsAbout := by
  by_cases hm : k.deed.Moves
  · obtain ⟨o, c, deed⟩ := k
    change c.JoinsAbout at hc
    cases deed with
    | alloc src =>
      cases h
      intro j hj
      have habout : (lgNeighAlloc c src).2.hs.n = c.hs.n :=
        (congrArg Hs.n (lgNeighAlloc_works psa c src).credit :)
      refine habout.trans (hc j ?_)
      rcases alloc_entry c src j with ⟨hn, -⟩ | ⟨-, hn, -⟩
      · exact hn ▸ hj
      · change ((lgNeighAlloc c src).2.neigh j).state = .joining at hj
        rw [hn] at hj
        cases hj
    | free i =>
      cases h
      intro j hj
      refine hc j ?_
      change ((lgNeighFree c i).neigh j).state = .joining at hj
      rcases free_entry c i j with ⟨-, hn, -⟩ | ⟨-, hn, -⟩ <;> rw [hn] at hj
      · cases hj
      · exact hj
    | begin i =>
      cases h
      have he : Embarks i c (lgJoinStart o c i).2 := lgJoinStart_embarks o hf.1 hf.2.1
      exact he.joinsAbout hf.2.2 hc
    | fail i =>
      cases h
      intro j hj
      exact absurd hj (hc.ended hf.1 (joinFail_engages c i).others (joinFail_ends c i).2 j)
    | close =>
      cases h
      intro j hj
      exact absurd hj (hf j (hc j hj))
    | openContext i resuming airStartUs =>
      cases h
      intro j hj
      by_cases hji : j = i
      · subst hji
        rfl
      · change ((openContext c i resuming airStartUs).neigh j).state = .joining at hj
        rw [(openContext_engages c i resuming airStartUs).others j hji] at hj
        cases hf.1.symm.trans (hc j hj)
    | establish i pp initiator =>
      obtain ⟨e, he, rfl⟩ := Option.map_eq_some_iff.mp h
      intro j hj
      rcases (lgLinkEstablish_entry he j).2 with ⟨-, hl⟩ | ⟨hji, hstate⟩
      · cases hl.symm.trans hj
      · have hn := hc j (hstate.symm.trans hj)
        exact absurd (Option.some.inj (hn.symm.trans hf.1)) hji
    | down i =>
      cases h
      intro j hj
      change (lgLinkDown o c i).hs.n = some j
      rw [lgLinkDown_hs]
      rcases (lgLinkDown_entry o c i j).2 with hstate | ⟨-, -, hlost⟩
      · exact hc j (hstate.symm.trans hj)
      · cases hlost.symm.trans hj
    | start =>
      cases h
      change (lgStart psa o c).JoinsAbout
      rcases lgStart_entries psa o c with heq | ⟨hfree, -⟩
      · rw [heq]
        exact hc
      · intro j hj
        cases (hfree j).symm.trans hj
    | adv | ctrl | role | advance | subrate | stage | tick | uplink | halt => cases hm
  · exact (Call.result_placed hm hf h).joinsAbout hc

/-- In every run an entry that is joining is what the handshake is about. -/
theorem Reachable.joinsAbout (h : Reachable psa ident c) : c.JoinsAbout :=
  h.meeting.keeps (fun _ => nofun) (fun hs => hs.placed.joinsAbout)
    fun _ _ _ hf hr hc => Call.result_joinsAbout hf hr hc

/-- When an entry is freed, no handshake is on, or there is something less to be had than the
entry it is about. -/
def Call.SparesJoiner (k : Call cfg) : Prop :=
  match k.deed with
  | .free _ => ∀ i, (k.node.neigh i).state = .joining →
    (∃ j, (k.node.neigh j).state ≠ .linked ∧ (k.node.neigh j).state ≠ .joining) ∨
      (k.node.view i).isParent = true ∨ (k.node.view i).linkCost ≤ etxOne + etxOne ∨
      ∃ j, (k.node.view j).isParent = false ∧
        ((k.node.view i).linkCost < (k.node.view j).linkCost ∨
          (k.node.view j).linkCost = (k.node.view i).linkCost ∧ j < i)
  | _ => True

instance (k : Call cfg) : Decidable (Call.SparesJoiner k) := by
  obtain ⟨o, c, deed⟩ := k
  rcases deed <;> unfold Call.SparesJoiner <;> dsimp only <;> infer_instance

/-- The entry in a handshake is the one the handshake is about. -/
def Node.OneJoining (c : Node cfg) : Prop :=
  ∀ i, (c.neigh i).state = .joining ↔ c.hs.n = some i

theorem Node.OneJoining.joinsAbout (hc : c.OneJoining) : c.JoinsAbout := fun i => (hc i).mp

theorem Placed.oneJoining (h : Placed c c') (hc : c.OneJoining) : c'.OneJoining := by
  intro i
  rw [h.state, h.about]
  exact hc i

theorem Embarks.about (h : Embarks i c c') (hi : c.hs.n ≠ some i) (hc : c.OneJoining)
    {j : Fin cfg.maxNeighbors} (hj : c'.hs.n = some j) : (c'.neigh j).state = .joining := by
  cases hn : c.hs.n with
  | none =>
    rcases h.begins with ⟨habout, -⟩ | ⟨habout, hstate⟩ | ⟨habout, -⟩
    · cases hn.symm.trans (habout.symm.trans hj)
    · cases habout.symm.trans hj
      exact hstate
    · cases habout.symm.trans hj
  | some k =>
    have hbusy := h.busy (by rw [hn]; exact nofun) hi
    cases hn.symm.trans (hbusy.1.symm.trans hj)
    have hji : j ≠ i := fun hji => hi (hji ▸ hn)
    rw [h.others j hji]
    exact (hc j).mpr hn

/-- The entry that is freed is not in the handshake. -/
theorem Call.SparesJoiner.freed {o : Oracle} (hk : (Call.mk o c (.free i)).SparesJoiner)
    (hf : (Call.mk o c (.free i)).Fits) : (c.neigh i).state ≠ .joining := by
  intro hj
  have hprey : c.Preys i := hf.2 hj
  rcases hk i hj with ⟨j, hl, hjoin⟩ | hparent | hcost | ⟨j, hspare, hworse⟩
  · exact (hprey.full j).elim hl hjoin
  · have hspare := hprey.spare
    change (c.view i).isParent = true at hparent
    rw [hspare] at hparent
    cases hparent
  · exact absurd hprey.costly (not_lt.mpr hcost)
  · have hworst := hprey.worst j hspare
    change (c.view i).linkCost < (c.view j).linkCost ∨
      (c.view j).linkCost = (c.view i).linkCost ∧ j < i at hworse
    rcases hworst with hlt | ⟨heq, hij⟩
    · omega
    · rcases hworse with hlt | ⟨-, hji⟩
      · omega
      · exact absurd hji (Fin.not_lt.mpr hij)

theorem Call.result_oneJoining {k : Call cfg} (hk : k.SparesJoiner) (hf : k.Fits)
    (h : k.result psa = some d) (hc : k.node.OneJoining) : d.OneJoining := by
  suffices hstate : ∀ j, d.hs.n = some j → (d.neigh j).state = .joining from
    fun j => ⟨Call.result_joinsAbout hf h hc.joinsAbout j, hstate j⟩
  by_cases hm : k.deed.Moves
  · obtain ⟨o, c, deed⟩ := k
    change c.OneJoining at hc
    cases deed with
    | alloc src =>
      cases h
      intro j hn
      have habout : (lgNeighAlloc c src).2.hs.n = c.hs.n :=
        (congrArg Hs.n (lgNeighAlloc_works psa c src).credit :)
      have hj := (hc j).mpr (habout.symm.trans hn)
      change ((lgNeighAlloc c src).2.neigh j).state = .joining
      rcases alloc_entry c src j with ⟨hsame, -⟩ | ⟨hfree, -⟩
      · rw [hsame]
        exact hj
      · cases hfree.symm.trans hj
    | free i =>
      cases h
      intro j hn
      have hj := (hc j).mpr hn
      change ((lgNeighFree c i).neigh j).state = .joining
      rcases free_entry c i j with ⟨rfl, -⟩ | ⟨-, hsame, -⟩
      · exact absurd hj (Call.SparesJoiner.freed hk hf)
      · rw [hsame]
        exact hj
    | begin i =>
      cases h
      have he : Embarks i c (lgJoinStart o c i).2 := lgJoinStart_embarks o hf.1 hf.2.1
      exact fun j hn => he.about (mt (hc i).mpr hf.2.2) hc hn
    | fail i =>
      cases h
      intro j hn
      cases (joinFail_ends c i).1.symm.trans hn
    | close =>
      cases h
      intro j hn
      cases hn
    | openContext i resuming airStartUs =>
      cases h
      intro j hn
      cases hn
      change ((openContext c i resuming airStartUs).neigh i).state = .joining
      simp [openContext]
    | establish i pp initiator =>
      obtain ⟨e, -, rfl⟩ := Option.map_eq_some_iff.mp h
      intro j hn
      cases hn
    | down i =>
      cases h
      intro j hn
      change (lgLinkDown o c i).hs.n = some j at hn
      rw [lgLinkDown_hs] at hn
      have hj := (hc j).mpr hn
      rcases (lgLinkDown_entry o c i j).2 with hstate | ⟨rfl, hl, -⟩
      · exact hstate.trans hj
      · cases hl.symm.trans hj
    | start =>
      cases h
      change ∀ j, (lgStart psa o c).hs.n = some j → ((lgStart psa o c).neigh j).state = .joining
      rcases lgStart_entries psa o c with heq | ⟨-, hn⟩
      · rw [heq]
        exact fun j => (hc j).mpr
      · rw [hn]
        simp
    | adv | ctrl | role | advance | subrate | stage | tick | uplink | halt => cases hm
  · intro j
    exact ((Call.result_placed hm hf h).oneJoining hc j).mpr

theorem ReachableMeeting.oneJoining (h : ReachableMeeting psa ident Call.SparesJoiner c) :
    c.OneJoining :=
  h.keeps (fun _ => iff_of_false nofun nofun) (fun hs => hs.placed.oneJoining)
    fun _ _ hk hf hr hc => Call.result_oneJoining hk hf hr hc

/-- In every run in which an entry is freed only while there is something less to be had than the
one in a handshake, the handshake is about the only entry that is joining, and that entry is not
freed. -/
theorem one_joining (h : ReachableMeeting psa ident Call.SparesJoiner c) :
    (∀ i, c.hs.n = some i → (c.neigh i).state = .joining) ∧
    (∀ i, (c.neigh i).state = .joining → c.hs.n = some i) ∧
    (∀ i j, (c.neigh i).state = .joining → (c.neigh j).state = .joining → i = j) ∧
    ∀ inp o c', (∀ k ∈ calls psa o c inp, k.SparesJoiner) → perform psa o c inp = some c' →
      ∀ k ∈ calls psa o c inp, ∀ i, k.deed = .free i → k.node.hs.n ≠ some i := by
  have hone := h.oneJoining
  refine ⟨fun i => (hone i).mpr, fun i => (hone i).mp, fun i j hi hj => ?_,
    fun inp o c' hk hp k hmem i hdeed hn => ?_⟩
  · exact Option.some.inj (((hone i).mp hi).symm.trans ((hone j).mp hj))
  · have hdoes := perform_does h.reachable.hsUnlinked hp
    obtain ⟨hat, hf⟩ := hdoes.nodes hone (fun hs => hs.placed.oneJoining)
      (fun k hmem d hf hr hc => Call.result_oneJoining (hk k hmem) hf hr hc) k hmem
    have hspares := hk k hmem
    obtain ⟨o, e, deed⟩ := k
    cases hdeed
    exact Call.SparesJoiner.freed hspares hf ((hat i).mpr hn)

/-- A beacon of a router with the given rank and join window. -/
def rankedBeacon (rank joinWindowUs : UInt16) (src : Addr) : RxRec :=
  let b : Beacon := {
    networkId := 7, epoch := 0, rank := rank, chanMap := 0xFFFF, role := Role.router.code
    linkCount := 0, linkCapacity := 4, joinOffsetUs := 20000, joinWindowUs := joinWindowUs
    nextBeaconOffsetUs := 0 }
  let r := received FrameType.beacon.code addrBroadcast src b.encode
  { r with pdu := (lgSecBeaconSeal Psa.plain true (zeros keyLen) r.pdu).getD [] }

/-- As `joiningRun`, with two frames more in the ring. -/
def furtherRun (rx rx' : RxRec) : List (Oracle × Input) :=
  joiningRun.take 10 ++ [(calm 4, Input.rxDone rx), (calm 4, .rxDone rx')] ++ joiningRun.drop 10 ++
    [(calm 7, Input.rxWork), (calm 8, .rxWork)]

def twoNeighbors : Config :=
  { Config.default with maxNeighbors := 2, maxNeighbors_range := by decide }

def lastNeigh : Fin twoNeighbors.maxNeighbors := ⟨1, by decide⟩

/-- Node 1 has linked with node 2 and is in a handshake with node 3, while there is a third
entry. -/
theorem one_joining_beacon :
    ∃ c : Node .default, c.hs.n = some ⟨1, by decide⟩ ∧
      (∀ i, c.hs.n = some i → (c.neigh i).state = .joining) := by
  obtain ⟨c, hc, hp⟩ := exists_reachableMeeting (K := Call.SparesJoiner) Psa.plain
    (plainIdent 1 1) (furtherRun (plainFrag .joinReq 1 3 replayedReq 0) (rankedBeacon 8 0 4))
    (fun c : Node .default => decide (c.hs.n = some ⟨1, by decide⟩)) (by decide +kernel)
  exact ⟨c, of_decide_eq_true hp, (one_joining hc).1⟩

/-- With both entries in use, a better beacon takes the entry of the handshake from it. -/
theorem not_one_joining_full :
    ¬ ∀ (psa : Psa) (ident : Identity) (c : Node twoNeighbors), Reachable psa ident c →
      ∀ i, c.hs.n = some i → (c.neigh i).state = .joining := by
  intro h
  obtain ⟨c, hc, hp⟩ := exists_reachable Psa.plain (plainIdent 1 1)
    (furtherRun (plainFrag .joinReq 1 3 replayedReq 0) (rankedBeacon 8 0 4))
    (fun c : Node twoNeighbors => decide (c.hs.n = some lastNeigh ∧
      (c.neigh lastNeigh).state = .heard)) (by decide +kernel)
  obtain ⟨hn, hstate⟩ := of_decide_eq_true hp
  have hjoining := h _ _ c hc lastNeigh hn
  rw [hstate] at hjoining
  cases hjoining

/-! ## Links -/

/-- A handshake is begun only while there is room for another link; or `lg_join_start` is
refused. -/
def Call.HasRoom (k : Call cfg) : Prop :=
  match k.deed with
  | .begin i => lgNeighLinkedCount k.node < cfg.maxLinks ∨
      (k.node.hs.n ≠ none ∧ k.node.hs.n ≠ some i) ∨
      (∀ j ∈ serveBackoff k.node.nowUs (k.node.neigh i).join, joinMaxRetries ≤ j.joinRetries) ∨
      k.node.ident.cert.length ≠ certLen
  | _ => True

instance (k : Call cfg) : Decidable (Call.HasRoom k) := by
  obtain ⟨o, c, deed⟩ := k
  rcases deed <;> unfold Call.HasRoom <;> dsimp only <;> infer_instance

/-- No more links than there may be, and room for the one a handshake may end in. -/
structure Node.Limited (c : Node cfg) : Prop where
  links : lgNeighLinkedCount c ≤ cfg.maxLinks
  room : ∀ i, c.hs.n = some i → (c.neigh i).state ≠ .linked →
    lgNeighLinkedCount c < cfg.maxLinks

theorem linkedCount_card (c : Node cfg) :
    lgNeighLinkedCount c = (Finset.univ.filter fun i => (c.neigh i).state = .linked).card := by
  unfold lgNeighLinkedCount
  rw [← List.toFinset_card_of_nodup ((List.nodup_finRange _).filter _), List.toFinset_filter,
    List.toFinset_finRange]
  simp

theorem linkedCount_le (h : ∀ i, (c'.neigh i).state = .linked → (c.neigh i).state = .linked) :
    lgNeighLinkedCount c' ≤ lgNeighLinkedCount c := by
  rw [linkedCount_card, linkedCount_card]
  exact Finset.card_le_card (Finset.monotone_filter_right _ fun i _ => h i)

/-- One link more at most. -/
theorem linkedCount_succ (h : ∀ j, (c'.neigh j).state = .linked → j = i ∨
    (c.neigh j).state = .linked) : lgNeighLinkedCount c' ≤ lgNeighLinkedCount c + 1 := by
  rw [linkedCount_card, linkedCount_card]
  refine le_trans (Finset.card_le_card fun j hj => ?_)
    (Finset.card_insert_le i (Finset.univ.filter fun i => (c.neigh i).state = .linked))
  simpa using h j (Finset.mem_filter.mp hj).2

/-- A link less. -/
theorem linkedCount_lt (h : ∀ j, (c'.neigh j).state = .linked → (c.neigh j).state = .linked)
    (hi : (c.neigh i).state = .linked) (hi' : (c'.neigh i).state ≠ .linked) :
    lgNeighLinkedCount c' < lgNeighLinkedCount c := by
  rw [linkedCount_card, linkedCount_card]
  refine Finset.card_lt_card ⟨fun j hj => ?_, fun hsub => hi' ?_⟩
  · simpa using h j (Finset.mem_filter.mp hj).2
  · exact (Finset.mem_filter.mp (hsub (Finset.mem_filter.mpr ⟨Finset.mem_univ i, hi⟩))).2

/-- No link comes up, and if there is a handshake now there was room for its link. -/
theorem Node.Limited.fewer (hc : c.Limited)
    (hl : ∀ j, (c'.neigh j).state = .linked → (c.neigh j).state = .linked)
    (hn : ∀ j, c'.hs.n = some j → (c'.neigh j).state ≠ .linked →
      lgNeighLinkedCount c < cfg.maxLinks ∨ lgNeighLinkedCount c' < lgNeighLinkedCount c) :
    c'.Limited := by
  have hle := linkedCount_le hl
  refine ⟨hle.trans hc.links, fun j hj hlj => ?_⟩
  rcases hn j hj hlj with hroom | hfewer
  · exact lt_of_le_of_lt hle hroom
  · exact lt_of_lt_of_le hfewer hc.links

theorem Placed.limited (h : Placed c c') (hc : c.Limited) : c'.Limited := by
  refine hc.fewer (fun j hj => ?_) fun j hj hlj => .inl (hc.room j ?_ ?_)
  · rwa [h.state] at hj
  · rwa [h.about] at hj
  · rwa [h.state] at hlj

/-- `lg_join_start` is refused: the entry is on back-off, or there is no certificate. -/
theorem lgJoinStart_refused (o : Oracle) (h : (∀ j ∈ serveBackoff c.nowUs (c.neigh i).join,
    joinMaxRetries ≤ j.joinRetries) ∨ c.ident.cert.length ≠ certLen) :
    (lgJoinStart o c i).2.hs.n = c.hs.n := by
  unfold lgJoinStart
  dsimp only
  split
  · rfl
  · split
    · rfl
    · split
      · rfl
      · next j hj =>
        split
        · rfl
        · next hretries =>
          rcases h with hmax | hcert
          · exact absurd (hmax j hj) hretries
          · split
            · rfl
            · next hok => exact absurd hcert hok

theorem lgJoinStart_limited (hk : (Call.mk o c (.begin i)).HasRoom)
    (hf : (Call.mk o c (.begin i)).Fits) (hc : c.Limited) : (lgJoinStart o c i).2.Limited := by
  have he : Embarks i c (lgJoinStart o c i).2 := lgJoinStart_embarks o hf.1 hf.2.1
  have hlinks : ∀ j, ((lgJoinStart o c i).2.neigh j).state = .linked →
      (c.neigh j).state = .linked := fun j hj => by rwa [← he.linked hj]
  -- a handshake that was on before had its room
  have hbefore : ∀ j, c.hs.n = some j → ((lgJoinStart o c i).2.neigh j).state ≠ .linked →
      lgNeighLinkedCount c < cfg.maxLinks := by
    intro j hj hlj
    refine hc.room j hj ?_
    by_cases hji : j = i
    · rw [hji]
      exact hf.2.1
    · rwa [he.others j hji] at hlj
  refine hc.fewer hlinks fun j hj hlj => .inl ?_
  rcases hk with hroom | ⟨hsome, hother⟩ | hrefused
  · exact hroom
  · exact hbefore j ((he.busy hsome hother).1.symm.trans hj) hlj
  · exact hbefore j ((lgJoinStart_refused o hrefused).symm.trans hj) hlj

theorem Call.result_limited {k : Call cfg} (hk : k.HasRoom) (hf : k.Fits)
    (h : k.result psa = some d) (hc : k.node.Limited) : d.Limited := by
  by_cases hm : k.deed.Moves
  · obtain ⟨o, c, deed⟩ := k
    change c.Limited at hc
    cases deed with
    | alloc src =>
      cases h
      have habout : (lgNeighAlloc c src).2.hs.n = c.hs.n :=
        (congrArg Hs.n (lgNeighAlloc_works psa c src).credit :)
      have hlinks : ∀ j, ((lgNeighAlloc c src).2.neigh j).state = .linked ↔
          (c.neigh j).state = .linked := by
        intro j
        rcases alloc_entry c src j with ⟨hn, -⟩ | ⟨hfree, hn, -⟩ <;> rw [hn]
        rw [hfree]
        exact iff_of_false nofun nofun
      exact hc.fewer (fun j => (hlinks j).mp) fun j hj hlj =>
        .inl (hc.room j (habout.symm.trans hj) (mt (hlinks j).mpr hlj))
    | free i =>
      cases h
      have hlinks : ∀ j, ((lgNeighFree c i).neigh j).state = .linked ↔
          (c.neigh j).state = .linked := by
        intro j
        rcases free_entry c i j with ⟨rfl, hn, -⟩ | ⟨-, hn, -⟩ <;> rw [hn]
        exact iff_of_false nofun hf.1
      exact hc.fewer (fun j => (hlinks j).mp) fun j hj hlj =>
        .inl (hc.room j hj (mt (hlinks j).mpr hlj))
    | begin i =>
      cases h
      exact lgJoinStart_limited hk hf hc
    | fail i =>
      cases h
      obtain ⟨habout, -⟩ := joinFail_ends c i
      refine hc.fewer (fun j hj => ?_) fun j hj => ?_
      · rwa [← (joinFail_engages c i).linked hj]
      · cases habout.symm.trans hj
    | close =>
      cases h
      exact ⟨hc.links, nofun⟩
    | openContext i resuming airStartUs =>
      cases h
      refine hc.fewer (fun j hj => ?_) fun _ _ _ => .inl hf.2.2
      rwa [← (openContext_engages c i resuming airStartUs).linked hj]
    | establish i pp initiator =>
      obtain ⟨e, he, rfl⟩ := Option.map_eq_some_iff.mp h
      have hroom : lgNeighLinkedCount c < cfg.maxLinks := hc.room i hf.1 hf.2.1
      have hone : lgNeighLinkedCount (e.setHs {}) ≤ lgNeighLinkedCount c + 1 := by
        refine linkedCount_succ (i := i) fun j hj => ?_
        rcases (lgLinkEstablish_entry he j).2 with ⟨hji, -⟩ | ⟨-, hstate⟩
        · exact .inl hji
        · exact .inr (hstate.symm.trans hj)
      exact ⟨by omega, nofun⟩
    | down i =>
      cases h
      change (lgLinkDown o c i).Limited
      have hlinks : ∀ j, ((lgLinkDown o c i).neigh j).state = .linked →
          (c.neigh j).state = .linked := by
        intro j hj
        rcases (lgLinkDown_entry o c i j).2 with hstate | ⟨-, -, hlost⟩
        · exact hstate.symm.trans hj
        · cases hlost.symm.trans hj
      refine hc.fewer hlinks fun j hj hlj => ?_
      by_cases hl : (c.neigh i).state = .linked
      · refine .inr (linkedCount_lt hlinks hl ?_)
        rw [lgLinkDown_self o hl]
        exact nofun
      · have hsame : lgLinkDown o c i = c := by rw [lgLinkDown_eq, if_pos hl]
        rw [hsame] at hj hlj
        exact .inl (hc.room j hj hlj)
    | start =>
      cases h
      change (lgStart psa o c).Limited
      rcases lgStart_entries psa o c with heq | ⟨hfree, hn⟩
      · rw [heq]
        exact hc
      · refine hc.fewer (fun j hj => ?_) fun j hj => ?_
        · cases (hfree j).symm.trans hj
        · cases hn.symm.trans hj
    | adv | ctrl | role | advance | subrate | stage | tick | uplink | halt => cases hm
  · exact (Call.result_placed hm hf h).limited hc

theorem Node.boot_limited (ident : Identity) : (Node.boot cfg ident).Limited := by
  refine ⟨?_, nofun⟩
  have hnone : lgNeighLinkedCount (Node.boot cfg ident) = 0 := by
    simp [lgNeighLinkedCount, Node.boot]
  omega

/-- In every run in which `lg_join_start` begins a handshake only while fewer than `MAX_LINKS`
links are up, no more than `MAX_LINKS` are. -/
theorem links_limited (h : ReachableMeeting psa ident Call.HasRoom c) :
    lgNeighLinkedCount c ≤ cfg.maxLinks := by
  have hlimited : c.Limited := h.keeps (Node.boot_limited ident) (fun hs => hs.placed.limited)
    fun _ _ hk hf hr hc => Call.result_limited hk hf hr hc
  exact hlimited.links

def oneLink : Config := { Config.default with maxLinks := 1, maxLinks_range := by decide }

/-- Node 1 has linked with nodes 2 and 3 and may have four links. -/
theorem links_limited_two :
    ∃ c : Node .default, lgNeighLinkedCount c = 2 ∧
      lgNeighLinkedCount c ≤ Config.default.maxLinks := by
  obtain ⟨c, hc, hp⟩ := exists_reachableMeeting (K := Call.HasRoom) Psa.plain (plainIdent 1 1)
    (furtherRun (rankedBeacon 8 8000 3) (plainFrag .joinAck 1 3 (linkParamsFill (calm 3)
      (Node.boot .default (plainIdent 3 3))).encode 0))
    (fun c : Node .default => decide (lgNeighLinkedCount c = 2)) (by decide +kernel)
  exact ⟨c, of_decide_eq_true hp, links_limited hc⟩

/-- Node 1 may have one link, and joins node 3 while it has the link with node 2. -/
theorem not_links_limited_joiner :
    ¬ ∀ (psa : Psa) (ident : Identity) (c : Node oneLink), Reachable psa ident c →
      lgNeighLinkedCount c ≤ oneLink.maxLinks := by
  intro h
  obtain ⟨c, hc, hp⟩ := exists_reachable Psa.plain (plainIdent 1 1)
    (furtherRun (rankedBeacon 8 8000 3) (plainFrag .joinAck 1 3 (linkParamsFill (calm 3)
      (Node.boot .default (plainIdent 3 3))).encode 0))
    (fun c : Node oneLink => decide (lgNeighLinkedCount c = 2)) (by decide +kernel)
  have hlimit := h _ _ c hc
  rw [of_decide_eq_true hp] at hlimit
  exact absurd hlimit (by decide)

end LockGrid
