import LockGrid.Retell
import LockGrid.Backlog
import LockGrid.Subrates
import LockGrid.Uplinks

/-!
# Advertisements in both directions

When a neighbour last had a route advertisement from the node and when the node last had one from
the neighbour are kept in one field. Beside the node a log keeps them apart.
-/
namespace LockGrid

variable {cfg : Config} {psa : Psa} {ident : Identity} {c c' d : Node cfg}
  {i : Fin cfg.maxNeighbors} {o : Oracle}

/-! ## Runs with notes -/

section

variable {γ : Type} {note : γ → Call cfg → γ} {g₀ g : γ}

/-- The nodes that runs come to, with what was noted of their calls. -/
inductive RunNoted (psa : Psa) (ident : Identity) (note : γ → Call cfg → γ) (g₀ : γ) :
    Node cfg → γ → Prop
  | boot : RunNoted psa ident note g₀ (Node.boot cfg ident) g₀
  | step {c c' : Node cfg} {g : γ} {o : Oracle} {inp : Input}
    (h : RunNoted psa ident note g₀ c g) (he : Enabled c inp)
    (hp : perform psa o c inp = some c') :
    RunNoted psa ident note g₀ c' ((calls psa o c inp).foldl note g)

theorem RunNoted.reachable (h : RunNoted psa ident note g₀ c g) : Reachable psa ident c := by
  induction h with
  | boot => exact .refl
  | step _ he hp ih => exact ih.tail ⟨_, _, he, hp⟩

variable {Q : Node cfg → γ → Prop}

/-- What steady work and calls keep holds of the node and its notes at every call and at the
end. -/
theorem Does.noted {r : Fin cfg.maxNeighbors → Prop} {l : List (Call cfg)}
    (h : Does r psa c l c') (hc : Q c g) (hsteady : ∀ {c c' g}, Steady c c' → Q c g → Q c' g)
    (hcall : ∀ k d g, k.Fits → k.result psa = some d → Q k.node g → Q d (note g k)) :
    Q c' (l.foldl note g) ∧
      ∀ before k after, l = before ++ k :: after → Q k.node (before.foldl note g) := by
  induction h generalizing g with
  | rest hs =>
    refine ⟨hsteady hs.toSteady hc, fun before k after hl => ?_⟩
    cases before <;> cases hl
  | @call a b e k l hs hk hr _ ih =>
    have hnode := hsteady hs.toSteady hc
    obtain ⟨hend, hmid⟩ := ih (hcall k e g hk hr hnode)
    refine ⟨hend, fun before k' after hl => ?_⟩
    cases before with
    | nil =>
      cases hl
      exact hnode
    | cons x before =>
      cases hl
      exact hmid before k' after rfl

theorem RunNoted.keeps (h : RunNoted psa ident note g₀ c g) (hboot : Q (Node.boot cfg ident) g₀)
    (hsteady : ∀ {c c' g}, Steady c c' → Q c g → Q c' g)
    (hcall : ∀ k d g, k.Fits → k.result psa = some d → Q k.node g → Q d (note g k)) : Q c g := by
  induction h with
  | boot => exact hboot
  | step h _ hp ih =>
    exact ((perform_does h.reachable.hsUnlinked hp).noted ih hsteady hcall).1

end

/-! ## The clock of advertisements -/

/-- The time, and when an advertisement last went to a neighbour or came from it. -/
def Node.advClock (c : Node cfg) : ℕ × (Fin cfg.maxNeighbors → ℕ) :=
  (c.nowUs, fun i => (c.view i).routeAdvUs)

theorem advClock_eq (hnow : d.nowUs = c.nowUs)
    (hview : ∀ j, (d.view j).routeAdvUs = (c.view j).routeAdvUs) : d.advClock = c.advClock :=
  Prod.ext hnow (funext hview)

theorem advClock_of_stance (h : d.stance = c.stance) : d.advClock = c.advClock := by
  obtain ⟨-, hnow, -⟩ := posture_eq (congrArg Prod.fst h)
  exact advClock_eq hnow fun j => (flags_eq (congrFun (congrArg Prod.snd h) j)).2.1

theorem setView_advClock {v : View} (h : v.routeAdvUs = (c.view i).routeAdvUs) :
    (c.setView i v).advClock = c.advClock := by
  refine advClock_eq (c := c) (d := c.setView i v) rfl fun j => ?_
  by_cases hj : j = i
  · subst hj
    simpa [Node.setView] using h
  · simp [Node.setView, hj]

theorem lgRouteRecompute_advClock (c : Node cfg) :
    (lgRouteRecompute c).2.advClock = c.advClock := by
  unfold lgRouteRecompute
  split <;> rfl

theorem applyRole_advClock (o : Oracle) (c : Node cfg) (want : Role) :
    (applyRole o c want).advClock = c.advClock := by
  unfold applyRole
  split
  · rfl
  · exact lgRouteRecompute_advClock { c with net := { c.net with
      role := want, roleChangedUs := c.nowUs } }

theorem lgRoleEvaluate_advClock (o : Oracle) (c : Node cfg) :
    (lgRoleEvaluate o c).advClock = c.advClock := by
  rcases lgRoleEvaluate_cases o c with h | ⟨-, want, h⟩ <;> rw [h]
  exact applyRole_advClock o c want

theorem linksChanged_advClock (o : Oracle) (c : Node cfg) :
    (linksChanged o c).advClock = c.advClock :=
  (lgRoleEvaluate_advClock o _).trans (lgRouteRecompute_advClock c)

theorem lgBackhaulSet_advClock (o : Oracle) (c : Node cfg) (up : Bool) :
    (lgBackhaulSet o c up).advClock = c.advClock := by
  unfold lgBackhaulSet
  dsimp only
  split_ifs
  · rfl
  · exact lgRoleEvaluate_advClock o _
  · rfl

theorem lgLinkEstablish_advClock {pp : LinkParams} {initiator : Bool}
    (h : lgLinkEstablish o c i pp initiator = some d) : d.advClock = c.advClock := by
  obtain ⟨s, -, rfl⟩ := Option.map_eq_some_iff.mp h
  have hcost : ∀ e : Node cfg, (lgNeighUpdateCost e i).advClock = e.advClock := fun e =>
    setView_advClock (v := (e.view i).updateCost) rfl
  refine (linksChanged_advClock o _).trans ((hcost _).trans ?_)
  refine (setView_advClock ?_).trans ?_ <;> rfl

theorem lgLinkDown_advClock (o : Oracle) (c : Node cfg) (i : Fin cfg.maxNeighbors) :
    (lgLinkDown o c i).advClock = c.advClock := by
  rw [lgLinkDown_eq]
  dsimp only
  split
  · rfl
  · refine (linksChanged_advClock o _).trans (advClock_eq ?_ fun j => ?_)
    · rfl
    · by_cases hj : j = i
      · subst hj
        simp [lgRouteFlushVia, Node.setView, Node.note, Node.setNeigh]
      · simp [lgRouteFlushVia, Node.setView, Node.note, Node.setNeigh, hj]

theorem lgStart_advClock (psa : Psa) (o : Oracle) (c : Node cfg) :
    (lgStart psa o c).advClock = c.advClock := by
  unfold lgStart
  split
  · rfl
  · split
    · rfl
    · exact (lgRoleEvaluate_advClock o _).trans rfl

/-! ## The log -/

instance (c : Node cfg) (i : Fin cfg.maxNeighbors) : Decidable (AdvDue c i) := by
  unfold AdvDue
  infer_instance

/-- For each entry since it was last given to a neighbour: when the link came up, when the node last
built an advertisement for it, and when the node last had one from it. -/
structure AdvLog (cfg : Config) where
  up : Fin cfg.maxNeighbors → Option ℕ := fun _ => none
  built : Fin cfg.maxNeighbors → Option ℕ := fun _ => none
  heard : Fin cfg.maxNeighbors → Option ℕ := fun _ => none

namespace AdvLog

def forget (g : AdvLog cfg) (i : Fin cfg.maxNeighbors) : AdvLog cfg where
  up := Function.update g.up i none
  built := Function.update g.built i none
  heard := Function.update g.heard i none

def note (g : AdvLog cfg) (k : Call cfg) : AdvLog cfg :=
  match k.deed with
  | .alloc src =>
    match (lgNeighAlloc k.node src).1 with
    | some i => if (k.node.neigh i).state = .free then g.forget i else g
    | none => g
  | .free i => g.forget i
  | .establish i _ _ => { g with up := Function.update g.up i (some k.node.nowUs) }
  | .stage i =>
    if AdvDue k.node i then
      { g with built := Function.update g.built i (some k.node.nowUs) }
    else g
  | .adv i buf =>
    if buf.length < 5 then g
    else { g with heard := Function.update g.heard i (some k.node.nowUs) }
  | _ => g

end AdvLog

/-- The field of each entry is the later of the two times the log keeps, and none of them is still
to come. -/
structure Node.Kept (c : Node cfg) (g : AdvLog cfg) : Prop where
  field : ∀ i, (c.view i).routeAdvUs = max ((g.built i).getD 0) ((g.heard i).getD 0)
  built : ∀ i t, g.built i = some t → t ≤ c.nowUs
  heard : ∀ i t, g.heard i = some t → t ≤ c.nowUs
  up : ∀ i t, g.up i = some t → t ≤ c.nowUs

namespace Node.Kept

variable {g : AdvLog cfg}

theorem clock (h : c.Kept g) (hclock : d.advClock = c.advClock) : d.Kept g := by
  have hnow : d.nowUs = c.nowUs := congrArg Prod.fst hclock
  have hview : ∀ j, (d.view j).routeAdvUs = (c.view j).routeAdvUs :=
    congrFun (congrArg Prod.snd hclock)
  refine ⟨fun j => ?_, ?_, ?_, ?_⟩
  · rw [hview]
    exact h.field j
  all_goals rw [hnow]
  · exact h.built
  · exact h.heard
  · exact h.up

theorem steady (h : c.Kept g) (hs : Steady c d) : d.Kept g :=
  h.clock (advClock_of_stance hs.stance)

/-- The entry is given to another neighbour. -/
theorem forget (h : c.Kept g) (hnow : d.nowUs = c.nowUs) (hi : (d.view i).routeAdvUs = 0)
    (hothers : ∀ j, j ≠ i → (d.view j).routeAdvUs = (c.view j).routeAdvUs) :
    d.Kept (g.forget i) := by
  have htimes : ∀ (f : Fin cfg.maxNeighbors → Option ℕ), (∀ j t, f j = some t → t ≤ c.nowUs) →
      ∀ j t, Function.update f i none j = some t → t ≤ d.nowUs := by
    intro f hf j t hj
    by_cases hji : j = i
    · subst hji
      simp at hj
    · rw [Function.update_of_ne hji] at hj
      rw [hnow]
      exact hf j t hj
  refine ⟨fun j => ?_, htimes _ h.built, htimes _ h.heard, htimes _ h.up⟩
  by_cases hji : j = i
  · subst hji
    simp [AdvLog.forget, hi]
  · simp only [AdvLog.forget, Function.update_of_ne hji]
    rw [hothers j hji]
    exact h.field j

/-- A time is noted, and is now. -/
theorem update_le {f : Fin cfg.maxNeighbors → Option ℕ} (hf : ∀ j t, f j = some t → t ≤ c.nowUs)
    (hnow : d.nowUs = c.nowUs) (i : Fin cfg.maxNeighbors) :
    ∀ j t, Function.update f i (some c.nowUs) j = some t → t ≤ d.nowUs := by
  intro j t hj
  rw [hnow]
  by_cases hji : j = i
  · subst hji
    rw [Function.update_self] at hj
    cases hj
    exact le_rfl
  · rw [Function.update_of_ne hji] at hj
    exact hf j t hj

/-- An advertisement is built for the neighbour. -/
theorem advertised (h : c.Kept g) (hnow : d.nowUs = c.nowUs)
    (hi : (d.view i).routeAdvUs = c.nowUs)
    (hothers : ∀ j, j ≠ i → (d.view j).routeAdvUs = (c.view j).routeAdvUs) :
    d.Kept { g with built := Function.update g.built i (some c.nowUs) } := by
  refine ⟨fun j => ?_, update_le h.built hnow i, ?_, ?_⟩
  · by_cases hji : j = i
    · subst hji
      have hle : (g.heard j).getD 0 ≤ c.nowUs := by
        cases hj : g.heard j with
        | none => exact Nat.zero_le _
        | some t => exact h.heard j t hj
      simp only [Function.update_self, Option.getD_some]
      rw [hi, max_eq_left hle]
    · simp only [Function.update_of_ne hji]
      rw [hothers j hji]
      exact h.field j
  · rw [hnow]
    exact h.heard
  · rw [hnow]
    exact h.up

/-- The neighbour's advertisement comes in. -/
theorem advised (h : c.Kept g) (hnow : d.nowUs = c.nowUs) (hi : (d.view i).routeAdvUs = c.nowUs)
    (hothers : ∀ j, j ≠ i → (d.view j).routeAdvUs = (c.view j).routeAdvUs) :
    d.Kept { g with heard := Function.update g.heard i (some c.nowUs) } := by
  refine ⟨fun j => ?_, ?_, update_le h.heard hnow i, ?_⟩
  · by_cases hji : j = i
    · subst hji
      have hle : (g.built j).getD 0 ≤ c.nowUs := by
        cases hj : g.built j with
        | none => exact Nat.zero_le _
        | some t => exact h.built j t hj
      simp only [Function.update_self, Option.getD_some]
      rw [hi, max_eq_right hle]
    · simp only [Function.update_of_ne hji]
      rw [hothers j hji]
      exact h.field j
  · rw [hnow]
    exact h.built
  · rw [hnow]
    exact h.up

end Node.Kept

/-- Handling an advertisement sets the field of the neighbour it came from. -/
theorem lgRouteHandleAdv_advClock (o : Oracle) (c : Node cfg) (i : Fin cfg.maxNeighbors)
    {buf : Bytes} (hlen : ¬ buf.length < 5) : (lgRouteHandleAdv o c i buf).advClock =
      (c.nowUs, Function.update (fun j => (c.view j).routeAdvUs) i c.nowUs) := by
  have hseek : ∀ e : Node cfg, (gossipConsiderSeeking o (lgRouteRecompute e).2).advClock =
      e.advClock := by
    intro e
    refine Eq.trans ?_ (lgRouteRecompute_advClock e)
    unfold gossipConsiderSeeking
    split
    · rfl
    · dsimp only
      split <;> rfl
  unfold lgRouteHandleAdv
  rw [if_neg hlen]
  dsimp only
  rw [hseek]
  refine (advClock_of_stance (foldl_stance _ (fun e k => advEntry_stance _ _ e _ _) _ _)).trans ?_
  refine Prod.ext rfl (funext fun j => ?_)
  by_cases hj : j = i
  · subst hj
    simp [Node.advClock, Node.setView]
  · simp [Node.advClock, Node.setView, hj]

theorem noteAdvertised_kept {g : AdvLog cfg} (h : c.Kept g) (i : Fin cfg.maxNeighbors) :
    (noteAdvertised c i).Kept { g with built := Function.update g.built i (some c.nowUs) } := by
  apply h.advertised
  · rfl
  · simp [noteAdvertised, Node.setView]
  · intro j hj
    simp [noteAdvertised, Node.setView, hj]

theorem Call.result_kept {k : Call cfg} {g : AdvLog cfg} (hf : k.Fits)
    (h : k.result psa = some d) (hk : k.node.Kept g) : d.Kept (g.note k) := by
  have hengages : ∀ {i}, Engages i k.node d → d.Kept g := fun he =>
    hk.clock (advClock_of_stance he.stance)
  obtain ⟨o, c, deed⟩ := k
  cases deed with
  | alloc src =>
    cases h
    unfold AdvLog.note
    dsimp only
    rcases lgNeighAlloc_cases c src with ⟨heq, -⟩ | ⟨i, hfree, -, heq⟩
    · rw [heq]
      dsimp only
      split
      · next i hfind =>
        rw [if_neg (lgNeighFind_spec hfind).1]
        exact hk
      · exact hk
    · rw [heq]
      dsimp only
      rw [if_pos hfree]
      apply hk.forget
      · rfl
      · simp [Node.setView, Node.note, View.fresh]
      · intro j hj
        simp [Node.setView, Node.note, Node.setNeigh, hj]
  | free i =>
    cases h
    apply hk.forget
    · obtain ⟨_, _, _, _, heq⟩ := lgNeighFree_table c i
      rw [heq]
    · simp [lgNeighFree_eq, Node.setView, Node.note]
    · intro j hj
      simp [lgNeighFree_eq, Node.setView, Node.note, Node.setNeigh, hj]
  | begin i =>
    cases h
    exact hengages (lgJoinStart_embarks o hf.1 hf.2.1).toEngages
  | fail i =>
    cases h
    exact hengages (joinFail_engages c i)
  | close =>
    cases h
    exact hk.clock rfl
  | openContext i resuming airStartUs =>
    cases h
    exact hengages (openContext_engages c i resuming airStartUs)
  | establish i pp initiator =>
    obtain ⟨e, he, rfl⟩ := Option.map_eq_some_iff.mp h
    have hclock := lgLinkEstablish_advClock he
    have hnow : e.nowUs = c.nowUs := congrArg Prod.fst hclock
    have hup := hk.clock hclock
    refine ⟨hup.field, hup.built, hup.heard, ?_⟩
    exact Node.Kept.update_le hk.up hnow i
  | down i =>
    cases h
    exact hk.clock (lgLinkDown_advClock o c i)
  | adv i buf =>
    cases h
    unfold AdvLog.note
    dsimp only
    by_cases hlen : buf.length < 5
    · rw [if_pos hlen]
      change (lgRouteHandleAdv o c i buf).Kept g
      unfold lgRouteHandleAdv
      rw [if_pos hlen]
      exact hk
    · rw [if_neg hlen]
      have hclock := lgRouteHandleAdv_advClock o c i hlen
      have hview : ∀ j, ((lgRouteHandleAdv o c i buf).view j).routeAdvUs =
          Function.update (fun j => (c.view j).routeAdvUs) i c.nowUs j :=
        congrFun (congrArg Prod.snd hclock)
      apply hk.advised
      · exact congrArg Prod.fst hclock
      · exact (hview i).trans (Function.update_self ..)
      · intro j hj
        exact (hview j).trans (Function.update_of_ne hj ..)
  | ctrl i body =>
    cases h
    exact hk.clock (advClock_of_stance (handleCtrl_placed o c i hf.2.1 hf.2.2).2)
  | role =>
    cases h
    exact hk.clock (lgRoleEvaluate_advClock o c)
  | advance i =>
    cases h
    exact hk.clock rfl
  | subrate i =>
    cases h
    exact hk.clock (advClock_of_stance (subrateUpdateLink_placed c i).2)
  | stage i =>
    cases h
    unfold AdvLog.note
    dsimp only
    rcases lgLinkStageTx_steady psa (o.ok .encrypt) c i with ⟨hdue, hs⟩ | ⟨hdue, hs⟩
    · rw [if_pos hdue]
      exact (noteAdvertised_kept hk i).steady hs
    · rw [if_neg hdue]
      exact hk.steady hs
  | tick us =>
    cases h
    refine ⟨hk.field, fun j t hj => ?_, fun j t hj => ?_, fun j t hj => ?_⟩
    · exact (hk.built j t hj).trans (Nat.le_add_right _ _)
    · exact (hk.heard j t hj).trans (Nat.le_add_right _ _)
    · exact (hk.up j t hj).trans (Nat.le_add_right _ _)
  | uplink up =>
    cases h
    exact hk.clock (lgBackhaulSet_advClock o c up)
  | start =>
    cases h
    exact hk.clock (lgStart_advClock psa o c)
  | halt =>
    cases h
    exact hk.clock rfl

theorem Node.boot_kept (ident : Identity) : (Node.boot cfg ident).Kept {} :=
  ⟨fun _ => rfl, nofun, nofun, nofun⟩

/-- In every run the field is the later of the two times, at the end and at each call of the next
step. -/
theorem RunNoted.kept {g : AdvLog cfg} (h : RunNoted psa ident AdvLog.note {} c g) : c.Kept g :=
  h.keeps (Q := Node.Kept) (Node.boot_kept ident) (fun hs hk => hk.steady hs)
    fun _ _ _ hf hr hk => Call.result_kept hf hr hk

/-! ## What is staged -/

/-- With no control change pending, the frame that is staged is an advertisement if one is due. -/
theorem lgLinkStageTx_adv_iff {ok : Bool} (hctrl : (c.neigh i).sched.pendingCtrl.any = false)
    (h : lgLinkStageTx psa ok c i = (true, d)) : (d.neigh i).tx.histStaged = .adv ↔
      AdvOwed c i = true ∨ routeAdvPeriodUs < c.nowUs - (c.view i).routeAdvUs := by
  have hdue : ((c.net.advUrgent && !(c.view i).advUrgentDone) ||
      decide (routeAdvPeriodUs < c.nowUs - (c.view i).routeAdvUs)) = true ↔
      AdvOwed c i = true ∨ routeAdvPeriodUs < c.nowUs - (c.view i).routeAdvUs := by
    simp [AdvOwed]
  unfold lgLinkStageTx at h
  dsimp only at h
  split at h
  · cases h
  rw [hctrl] at h
  rw [if_neg Bool.false_ne_true] at h
  split at h
  · next hadv =>
    rw [(stageSeal_fcf h).1]
    exact iff_of_true rfl (hdue.mp hadv)
  · next hadv =>
    have hnot : (d.neigh i).tx.histStaged ≠ .adv := by
      split at h
      all_goals
        rw [(stageSeal_fcf h).1]
        simp
    exact iff_of_false hnot fun hd => hadv (hdue.mpr hd)

/-- What the log holds at call `n` of a step. -/
def advLogAt (psa : Psa) (o : Oracle) (c : Node cfg) (inp : Input) (g : AdvLog cfg) (n : ℕ) :
    AdvLog cfg :=
  ((calls psa o c inp).take n).foldl AdvLog.note g

theorem RunNoted.kept_at {g : AdvLog cfg} {inp : Input} {n : ℕ} {k : Call cfg}
    (h : RunNoted psa ident AdvLog.note {} c g) (hp : perform psa o c inp = some c')
    (hk : (calls psa o c inp)[n]? = some k) : k.node.Kept (advLogAt psa o c inp g n) := by
  obtain ⟨hn, hget⟩ := List.getElem?_eq_some_iff.mp hk
  have hsplit : calls psa o c inp =
      (calls psa o c inp).take n ++ k :: (calls psa o c inp).drop (n + 1) := by
    rw [← hget, List.getElem_cons_drop, List.take_append_drop]
  exact ((perform_does h.reachable.hsUnlinked hp).noted h.kept (fun hs hk => hk.steady hs)
    fun _ _ _ hf hr hk => Call.result_kept hf hr hk).2 _ k _ hsplit

/-- No later than 30 s ago. -/
def Past (now : ℕ) (time : Option ℕ) : Prop := ∀ t ∈ time, t + routeAdvPeriodUs < now

instance (now : ℕ) (time : Option ℕ) : Decidable (Past now time) := by
  unfold Past
  infer_instance

/-- Nothing but an advertisement is in order: no control change is pending, and the link came up and
the node last built one for the neighbour more than 30 s ago. A frame is staged. -/
structure Overdue (psa : Psa) (g : AdvLog cfg) (o : Oracle) (c : Node cfg)
    (i : Fin cfg.maxNeighbors) : Prop where
  settled : (c.neigh i).sched.pendingCtrl.any = false
  up : ∃ t ∈ g.up i, t + routeAdvPeriodUs < c.nowUs
  built : Past c.nowUs (g.built i)
  staged : (lgLinkStageTx psa (o.ok .encrypt) c i).1 = true

instance (psa : Psa) (g : AdvLog cfg) (o : Oracle) (c : Node cfg) (i : Fin cfg.maxNeighbors) :
    Decidable (Overdue psa g o c i) :=
  decidable_of_iff ((c.neigh i).sched.pendingCtrl.any = false ∧
      (∃ t ∈ g.up i, t + routeAdvPeriodUs < c.nowUs) ∧ Past c.nowUs (g.built i) ∧
      (lgLinkStageTx psa (o.ok .encrypt) c i).1 = true)
    ⟨fun ⟨hs, hu, hb, ht⟩ => ⟨hs, hu, hb, ht⟩, fun h => ⟨h.settled, h.up, h.built, h.staged⟩⟩

/-- The frame that `lg_link_stage_tx` stages is an advertisement. -/
def StagesAdv (psa : Psa) (o : Oracle) (c : Node cfg) (i : Fin cfg.maxNeighbors) : Prop :=
  ((lgLinkStageTx psa (o.ok .encrypt) c i).2.neigh i).tx.histStaged = .adv

instance (psa : Psa) (o : Oracle) (c : Node cfg) (i : Fin cfg.maxNeighbors) :
    Decidable (StagesAdv psa o c i) := by
  unfold StagesAdv
  infer_instance

/-- What is staged when an advertisement is overdue is one exactly when the neighbour has yet to
hear of the node's rank, or none came from the neighbour in the last 30 s. -/
theorem adv_staged_iff {g : AdvLog cfg} {inp : Input} {n : ℕ} {o' : Oracle} {e : Node cfg}
    (h : RunNoted psa ident AdvLog.note {} c g) (hp : perform psa o c inp = some c')
    (hk : (calls psa o c inp)[n]? = some ⟨o', e, .stage i⟩)
    (hdue : Overdue psa (advLogAt psa o c inp g n) o' e i) :
    StagesAdv psa o' e i ↔
      AdvOwed e i = true ∨ Past e.nowUs ((advLogAt psa o c inp g n).heard i) := by
  have hkept : e.Kept (advLogAt psa o c inp g n) := h.kept_at hp hk
  have hstages : StagesAdv psa o' e i ↔
      AdvOwed e i = true ∨ routeAdvPeriodUs < e.nowUs - (e.view i).routeAdvUs :=
    lgLinkStageTx_adv_iff hdue.settled (Prod.ext hdue.staged rfl)
  rw [hstages, hkept.field i]
  obtain ⟨t, -, ht⟩ := hdue.up
  have hbuilt := hdue.built
  generalize advLogAt psa o c inp g n = log at hbuilt
  have hown : (log.built i).getD 0 + routeAdvPeriodUs < e.nowUs := by
    cases hb : log.built i with
    | none =>
      rw [Option.getD_none]
      omega
    | some b => exact hbuilt b hb
  refine or_congr_right ⟨fun hlate s hs => ?_, fun hheard => ?_⟩
  · rw [Option.mem_def.mp hs, Option.getD_some] at hlate
    have hle := le_max_right ((log.built i).getD 0) s
    omega
  · have hpeer : (log.heard i).getD 0 + routeAdvPeriodUs < e.nowUs := by
      cases hs : log.heard i with
      | none =>
        rw [Option.getD_none]
        omega
      | some s => exact hheard s hs
    omega

/-! ## Two runs -/

/-- Take the given steps and note their calls. -/
def runNoted {γ : Type} (psa : Psa) (note : γ → Call cfg → γ) (s : Node cfg × γ) :
    List (Oracle × Input) → Option (Node cfg × γ)
  | [] => some s
  | (o, inp) :: rest =>
    if Enabled s.1 inp then
      (perform psa o s.1 inp).bind fun c' =>
        runNoted psa note (c', (calls psa o s.1 inp).foldl note s.2) rest
    else none

theorem runNoted_steps {γ : Type} {note : γ → Call cfg → γ} {g₀ : γ} {s s' : Node cfg × γ}
    {inputs : List (Oracle × Input)} (hs : RunNoted psa ident note g₀ s.1 s.2)
    (h : runNoted psa note s inputs = some s') : RunNoted psa ident note g₀ s'.1 s'.2 := by
  induction inputs generalizing s with
  | nil =>
    cases h
    exact hs
  | cons oi rest ih =>
    obtain ⟨o, inp⟩ := oi
    rw [runNoted] at h
    split_ifs at h with he
    obtain ⟨d, hd, h⟩ := Option.bind_eq_some_iff.mp h
    exact ih (hs.step he hd) h

/-- A build that lets links rest for half a minute. -/
def restful : Config :=
  { Config.default with connIntervalMaxMs := 32000, connIntervalMaxMs_range := by decide }

def restfulParams : LinkParams :=
  { pacedParams with intervalUs := 30000000, supTimeoutCs := 6400 }

def restfulNeigh : Fin restful.maxNeighbors := firstNeigh

/-- The peer's frame of its first event. -/
def firstWord (body : Bytes) : RxRec :=
  { sealedFrame .ctrl 1 2 rspKey 2 body with airStartUs := 420500 }

def secondWord : RxRec := { sealedFrame .ack 1 2 rspKey 3 [] with airStartUs := 30420500 }

/-- Node 2 joins, is sent an advertisement and says `body`; it is heard again 30 s later. -/
def restfulRun (body : Bytes) : List (Oracle × Input) :=
  joinedWith restfulParams [] ++
    [(calm 6, Input.tick 380000), (calm 7, .schedWork), (calm 7, .schedWork), (calm 8, .granted),
      (calm 8, .tick 25000), (calm 8, .rxDone (firstWord body)), (calm 8, .txDone 420500),
      (calm 9, .finishWork (calm 10)), (calm 9, .rxWork)] ++
    [(calm 6, Input.tick 29970000), (calm 7, .schedWork), (calm 7, .schedWork),
      (calm 7, .schedWork), (calm 7, .schedWork), (calm 8, .granted),
      (calm 8, .tick 25000), (calm 8, .rxDone secondWord),
      (calm 8, .txDone 30420500)]

/-- At the third call of the settlement that follows, an advertisement is overdue, and it is staged
or not as `adv` says. -/
def restfulStage (adv : Bool) (c : Node restful) (g : AdvLog restful) : Bool :=
  (perform Psa.plain (calm 9) c (.finishWork (calm 10))).isSome &&
    (calls Psa.plain (calm 9) c (.finishWork (calm 10)))[2]?.any fun k =>
      k.deed = .stage restfulNeigh ∧
        Overdue Psa.plain (advLogAt Psa.plain (calm 9) c (.finishWork (calm 10)) g 2) k.o k.node
          restfulNeigh ∧
        decide (StagesAdv Psa.plain k.o k.node restfulNeigh) = adv

theorem exists_restfulStage (adv : Bool) (body : Bytes)
    (h : (runNoted Psa.plain AdvLog.note (Node.boot restful (plainIdent 1 1), {})
      (restfulRun body)).any (fun s => restfulStage adv s.1 s.2) = true) :
    ∃ c c' g o' e, RunNoted Psa.plain (plainIdent 1 1) AdvLog.note {} c g ∧
      perform Psa.plain (calm 9) c (.finishWork (calm 10)) = some c' ∧
      (calls Psa.plain (calm 9) c (.finishWork (calm 10)))[2]? =
        some ⟨o', e, .stage restfulNeigh⟩ ∧
      Overdue Psa.plain (advLogAt Psa.plain (calm 9) c (.finishWork (calm 10)) g 2) o' e
        restfulNeigh ∧
      decide (StagesAdv Psa.plain o' e restfulNeigh) = adv := by
  obtain ⟨⟨c, g⟩, hs, hstage⟩ := (Option.any_eq_true _ _).mp h
  have hrun := runNoted_steps .boot hs
  rw [restfulStage, Bool.and_eq_true] at hstage
  obtain ⟨c', hp⟩ := Option.isSome_iff_exists.mp hstage.1
  obtain ⟨⟨o', e, deed⟩, hk, hlate⟩ := (Option.any_eq_true _ _).mp hstage.2
  obtain ⟨rfl, hdue, hadv⟩ := of_decide_eq_true hlate
  exact ⟨c, c', g, o', e, hrun, hp, hk, hdue, hadv⟩

theorem adv_staged_restful : ∃ c c' g o' e,
    RunNoted Psa.plain (plainIdent 1 1) AdvLog.note {} c g ∧
      perform Psa.plain (calm 9) c (.finishWork (calm 10)) = some c' ∧
      (StagesAdv Psa.plain o' e restfulNeigh ↔ AdvOwed e restfulNeigh = true ∨
        Past e.nowUs
          ((advLogAt Psa.plain (calm 9) c (.finishWork (calm 10)) g 2).heard restfulNeigh)) := by
  obtain ⟨c, c', g, o', e, h, hp, hk, hdue, -⟩ :=
    exists_restfulStage true [ctrlSubrate, 1, 0, 0] (by decide +kernel)
  exact ⟨c, c', g, o', e, h, hp, adv_staged_iff h hp hk hdue⟩

/-- The peer's advertisement came a moment after the node's own, and the node's next one is put
off. -/
theorem not_adv_staged : ¬ ∀ (cfg : Config) (psa : Psa) (ident : Identity) (o o' : Oracle)
    (c c' e : Node cfg) (i : Fin cfg.maxNeighbors) (g : AdvLog cfg) (inp : Input) (n : ℕ),
    RunNoted psa ident AdvLog.note {} c g → perform psa o c inp = some c' →
    (calls psa o c inp)[n]? = some ⟨o', e, .stage i⟩ →
    Overdue psa (advLogAt psa o c inp g n) o' e i → StagesAdv psa o' e i := by
  intro hall
  obtain ⟨c, c', g, o', e, h, hp, hk, hdue, hadv⟩ :=
    exists_restfulStage false [ctrlRouteAdv, 16, 0, Role.router.code, 0] (by decide +kernel)
  exact of_decide_eq_false hadv
    (hall restful Psa.plain (plainIdent 1 1) (calm 9) o' c c' e restfulNeigh g _ 2 h hp hk hdue)

end LockGrid
