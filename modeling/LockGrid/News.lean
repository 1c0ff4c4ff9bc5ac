import LockGrid.Gossip
import LockGrid.Release

/-!
# News that are marked as told

`adv_urgent_done` marks a neighbour that has had the news of the node's rank. Beside the node stands
what the neighbours have had; which frames are lost is up to the run.
-/
namespace LockGrid

variable {cfg : Config} {psa : Psa} {ident : Identity} {c c' d : Node cfg}
  {i : Fin cfg.maxNeighbors} {o : Oracle}

/-! ## Nodes without marks -/

/-- No neighbour is marked. -/
def Node.Unmarked (c : Node cfg) : Prop := ∀ i, (c.view i).advUrgentDone = false

/-- Work that marks no neighbour and clears no urgency. -/
structure Hushed (c d : Node cfg) : Prop where
  unmarked : c.Unmarked → d.Unmarked
  urgent : c.net.advUrgent = true → d.net.advUrgent = true

namespace Hushed

theorem refl (c : Node cfg) : Hushed c c := ⟨id, id⟩

theorem trans (h : Hushed c c') (h' : Hushed c' d) : Hushed c d :=
  ⟨h'.unmarked ∘ h.unmarked, h'.urgent ∘ h.urgent⟩

theorem of_eq (hview : ∀ j, (d.view j).advUrgentDone = (c.view j).advUrgentDone)
    (hurgent : d.net.advUrgent = c.net.advUrgent) : Hushed c d :=
  ⟨fun h j => (hview j).trans (h j), fun h => hurgent.trans h⟩

theorem of_stance (h : d.stance = c.stance) : Hushed c d := by
  obtain ⟨-, -, -, -, hurgent, -⟩ := posture_eq (congrArg Prod.fst h)
  exact of_eq (fun j => (flags_eq (congrFun (congrArg Prod.snd h) j)).2.2) hurgent

end Hushed

/-- An entry's view is replaced by one without a mark. -/
theorem setView_hushed {v : View} (h : v.advUrgentDone = false) : Hushed c (c.setView i v) := by
  refine ⟨fun hc j => ?_, id⟩
  by_cases hj : j = i
  · subst hj
    simpa [Node.setView] using h
  · simpa [Node.setView, hj] using hc j

/-- An entry's view is replaced by one with the same mark. -/
theorem setView_keeps_mark {v : View} (h : v.advUrgentDone = (c.view i).advUrgentDone) :
    Hushed c (c.setView i v) := by
  refine .of_eq (fun j => ?_) rfl
  by_cases hj : j = i
  · subst hj
    simpa [Node.setView] using h
  · simp [Node.setView, hj]

theorem lgRouteRecompute_hushed (c : Node cfg) : Hushed c (lgRouteRecompute c).2 := by
  unfold lgRouteRecompute
  split
  · exact .of_eq (fun _ => rfl) rfl
  · refine ⟨fun h j => ?_, fun h => ?_⟩
    · dsimp only
      rw [h j, Bool.false_and]
    · dsimp only
      rw [h, Bool.true_or]

theorem applyRole_hushed (o : Oracle) (c : Node cfg) (want : Role) :
    Hushed c (applyRole o c want) := by
  unfold applyRole
  split
  · exact .refl c
  · let m : Node cfg := { c with net := { c.net with role := want, roleChangedUs := c.nowUs } }
    have hm : Hushed c m := .of_eq (fun _ => rfl) rfl
    exact hm.trans ((lgRouteRecompute_hushed m).trans (.of_eq (fun _ => rfl) rfl))

theorem lgRoleEvaluate_hushed (o : Oracle) (c : Node cfg) : Hushed c (lgRoleEvaluate o c) := by
  rcases lgRoleEvaluate_cases o c with h | ⟨-, want, h⟩ <;> rw [h]
  · exact .refl c
  · exact applyRole_hushed o c want

theorem linksChanged_hushed (o : Oracle) (c : Node cfg) : Hushed c (linksChanged o c) := by
  let m : Node cfg := { (lgRouteRecompute c).2 with
    net := { (lgRouteRecompute c).2.net with linkChangeUs := (lgRouteRecompute c).2.nowUs } }
  have hm : Hushed c m := (lgRouteRecompute_hushed c).trans (.of_eq (fun _ => rfl) rfl)
  exact hm.trans ((lgRoleEvaluate_hushed o m).trans (.of_eq (fun _ => rfl) rfl))

theorem lgBackhaulSet_hushed (o : Oracle) (c : Node cfg) (up : Bool) :
    Hushed c (lgBackhaulSet o c up) := by
  unfold lgBackhaulSet
  dsimp only
  split_ifs
  · exact .refl c
  · refine .trans ?_ (lgRoleEvaluate_hushed o _)
    exact .of_eq (fun _ => rfl) rfl
  · exact .of_eq (fun _ => rfl) rfl

theorem lgLinkEstablish_hushed {pp : LinkParams} {initiator : Bool}
    (h : lgLinkEstablish o c i pp initiator = some d) : Hushed c d := by
  obtain ⟨s, -, rfl⟩ := Option.map_eq_some_iff.mp h
  refine .trans (.of_eq (fun j => ?_) ?_) (linksChanged_hushed o _)
  · by_cases hj : j = i
    · subst hj
      simp [lgNeighUpdateCost, View.updateCost, Node.setView, Node.setNeigh]
    · simp [lgNeighUpdateCost, Node.setView, Node.setNeigh, hj]
  · rfl

theorem lgLinkDown_hushed (o : Oracle) (c : Node cfg) (i : Fin cfg.maxNeighbors) :
    Hushed c (lgLinkDown o c i) := by
  rw [lgLinkDown_eq]
  dsimp only
  split
  · exact .refl c
  · refine .trans (.of_eq (fun j => ?_) ?_) (linksChanged_hushed o _)
    · by_cases hj : j = i
      · subst hj
        simp [lgRouteFlushVia, Node.setView, Node.note, Node.setNeigh]
      · simp [lgRouteFlushVia, Node.setView, Node.note, Node.setNeigh, hj]
    · rfl

theorem lgRouteHandleAdv_hushed (o : Oracle) (c : Node cfg) (i : Fin cfg.maxNeighbors)
    (buf : Bytes) : Hushed c (lgRouteHandleAdv o c i buf) := by
  have hseek : ∀ e : Node cfg, Hushed e (gossipConsiderSeeking o (lgRouteRecompute e).2) := by
    intro e
    refine (lgRouteRecompute_hushed e).trans (.of_stance ?_)
    unfold gossipConsiderSeeking
    split
    · rfl
    · dsimp only
      split <;> rfl
  unfold lgRouteHandleAdv
  split
  · exact .refl c
  · dsimp only
    refine .trans ?_ (hseek _)
    refine .trans ?_
      (.of_stance (foldl_stance _ (fun e k => advEntry_stance _ _ e _ _) _ _))
    exact setView_keeps_mark rfl

theorem lgStart_hushed (psa : Psa) (o : Oracle) (c : Node cfg) : Hushed c (lgStart psa o c) := by
  unfold lgStart
  split
  · exact .refl c
  · split
    · exact .refl c
    · dsimp only
      refine .trans ?_ (.of_stance (lgDiscBeaconFinish_stance psa o _))
      refine .trans ?_ (lgRoleEvaluate_hushed o _)
      exact .of_eq (fun _ => rfl) rfl

/-- The call builds an advertisement. -/
def Call.Builds (k : Call cfg) : Prop :=
  match k.deed with
  | .stage i => AdvDue k.node i
  | _ => False

instance (k : Call cfg) : Decidable k.Builds := by
  obtain ⟨o, c, deed⟩ := k
  rcases deed <;> unfold Call.Builds <;> dsimp only <;> infer_instance

theorem Call.result_hushed {k : Call cfg} (hf : k.Fits) (h : k.result psa = some d)
    (hno : ¬ k.Builds) : Hushed k.node d := by
  obtain ⟨o, c, deed⟩ := k
  cases deed with
  | alloc src =>
    cases h
    rcases lgNeighAlloc_cases c src with ⟨heq, -⟩ | ⟨i, -, -, heq⟩
    · rw [heq]
      exact .refl c
    · rw [heq]
      have hfresh : Hushed c (c.setView i View.fresh) := setView_hushed rfl
      exact hfresh.trans (.of_eq (fun _ => rfl) rfl)
  | free i =>
    cases h
    have hfresh : Hushed c (c.setView i {}) := setView_hushed rfl
    exact hfresh.trans (.of_eq (fun _ => rfl) rfl)
  | begin i =>
    cases h
    exact .of_stance (lgJoinStart_embarks o hf.1 hf.2.1).toEngages.stance
  | fail i =>
    cases h
    exact .of_stance (joinFail_engages c i).stance
  | close =>
    cases h
    exact .of_eq (fun _ => rfl) rfl
  | openContext i resuming airStartUs =>
    cases h
    exact .of_stance (openContext_engages c i resuming airStartUs).stance
  | establish i pp initiator =>
    obtain ⟨e, he, rfl⟩ := Option.map_eq_some_iff.mp h
    exact (lgLinkEstablish_hushed he).trans (.of_eq (fun _ => rfl) rfl)
  | down i =>
    cases h
    exact lgLinkDown_hushed o c i
  | adv i buf =>
    cases h
    exact lgRouteHandleAdv_hushed o c i buf
  | ctrl i body =>
    cases h
    exact .of_stance (handleCtrl_placed o c i hf.2.1 hf.2.2).2
  | role =>
    cases h
    exact lgRoleEvaluate_hushed o c
  | advance i =>
    cases h
    exact .of_eq (fun _ => rfl) rfl
  | subrate i =>
    cases h
    exact .of_stance (subrateUpdateLink_placed c i).2
  | stage i =>
    cases h
    rcases lgLinkStageTx_steady psa (o.ok .encrypt) c i with ⟨hdue, -⟩ | ⟨-, hs⟩
    · exact absurd hdue hno
    · exact .of_stance hs.stance
  | tick us =>
    cases h
    exact .of_eq (fun _ => rfl) rfl
  | uplink up =>
    cases h
    exact lgBackhaulSet_hushed o c up
  | start =>
    cases h
    exact lgStart_hushed psa o c
  | halt =>
    cases h
    exact .of_eq (fun _ => rfl) rfl

/-! ## What the neighbours have had -/

/-- A linked neighbour that is marked has had an advertisement with the node's rank. -/
def Node.Informed (c : Node cfg) (told : Fin cfg.maxNeighbors → List ℕ) : Prop :=
  ∀ i, (c.neigh i).state = .linked → (c.view i).advUrgentDone = true → c.net.rank ∈ told i

/-- The urgency is cleared only when every linked neighbour has had one. -/
def ClearsRight (c d : Node cfg) (told : Fin cfg.maxNeighbors → List ℕ) : Prop :=
  c.net.advUrgent = true → d.net.advUrgent = false →
    ∀ i, (d.neigh i).state = .linked → d.net.rank ∈ told i

instance (c : Node cfg) (told : Fin cfg.maxNeighbors → List ℕ) : Decidable (c.Informed told) := by
  unfold Node.Informed
  infer_instance

instance (c d : Node cfg) (told : Fin cfg.maxNeighbors → List ℕ) :
    Decidable (ClearsRight c d told) := by
  unfold ClearsRight
  infer_instance

/-- For each entry since it was last given to a neighbour: the ranks of the advertisements that the
neighbour has had, and the rank of the last one that was staged for it. Further whether an
advertisement was built at all, and whether marks and urgency have been right so far. -/
structure News (cfg : Config) where
  told : Fin cfg.maxNeighbors → List ℕ := fun _ => []
  staged : Fin cfg.maxNeighbors → Option ℕ := fun _ => none
  built : Bool := false
  right : Bool := true

namespace News

def forget (g : News cfg) (i : Fin cfg.maxNeighbors) : News cfg :=
  { g with told := Function.update g.told i [], staged := Function.update g.staged i none }

/-- What a call stages, and to whom it gives an entry. -/
def mark (psa : Psa) (g : News cfg) (k : Call cfg) : News cfg :=
  match k.deed with
  | .alloc src =>
    match (lgNeighAlloc k.node src).1 with
    | some i => if (k.node.neigh i).state = .free then g.forget i else g
    | none => g
  | .free i => g.forget i
  | .stage i =>
    if AdvDue k.node i then
      { g with
        built := true
        staged := if (lgLinkStageTx psa (k.o.ok .encrypt) k.node i).1 then
            Function.update g.staged i (some k.node.net.rank)
          else g.staged }
    else g
  | _ => g

def note (psa : Psa) (g : News cfg) (k : Call cfg) : News cfg :=
  let g := g.mark psa k
  let d := (k.result psa).getD k.node
  { g with right := g.right && decide (d.Informed g.told ∧ ClearsRight k.node d g.told) }

/-- An advertisement goes out and is not lost. -/
def deliver (g : News cfg) (c : Node cfg) (inp : Input) (lost : Bool) : News cfg :=
  match inp, c.ev.kind, c.ev.neigh with
  | .txDone _, .link, some i =>
    match g.staged i with
    | some rank =>
      if (c.neigh i).tx.histStaged = .adv ∧ lost = false then
        { g with told := Function.update g.told i (rank :: g.told i) }
      else g
    | none => g
  | _, _, _ => g

/-- The log after a step. -/
def after (psa : Psa) (o : Oracle) (c : Node cfg) (inp : Input) (lost : Bool) (c' : Node cfg)
    (g : News cfg) : News cfg :=
  let g := (calls psa o c inp).foldl (note psa) (g.deliver c inp lost)
  { g with right := g.right && decide (c'.Informed g.told) }

end News

/-- The nodes that runs come to, with the log. A step says too whether the frame that goes out with
it is lost. -/
inductive RunNews (psa : Psa) (ident : Identity) : Node cfg → News cfg → Prop
  | boot : RunNews psa ident (Node.boot cfg ident) {}
  | step {c c' : Node cfg} {g : News cfg} {o : Oracle} {inp : Input} (lost : Bool)
    (h : RunNews psa ident c g) (he : Enabled c inp) (hp : perform psa o c inp = some c') :
    RunNews psa ident c' (g.after psa o c inp lost c')

theorem RunNews.reachable {g : News cfg} (h : RunNews psa ident c g) : Reachable psa ident c := by
  induction h with
  | boot => exact .refl
  | step _ _ he hp ih => exact ih.tail ⟨_, _, he, hp⟩

/-! ## As long as nothing is built -/

namespace News

variable {g : News cfg}

/-- No neighbour has had an advertisement, and none is staged. -/
structure Blank (g : News cfg) : Prop where
  told : ∀ i, g.told i = []
  staged : ∀ i, g.staged i = none

theorem Blank.forget (h : g.Blank) (i : Fin cfg.maxNeighbors) : (g.forget i).Blank := by
  refine ⟨fun j => ?_, fun j => ?_⟩
  · by_cases hj : j = i
    · subst hj
      simp [News.forget]
    · simp [News.forget, hj, h.told j]
  · by_cases hj : j = i
    · subst hj
      simp [News.forget]
    · simp [News.forget, hj, h.staged j]

theorem mark_right (g : News cfg) (k : Call cfg) : (g.mark psa k).right = g.right := by
  unfold mark
  split
  · split
    · split <;> rfl
    · rfl
  · rfl
  · split <;> rfl
  · rfl

theorem mark_builds {k : Call cfg} (h : k.Builds) : (g.mark psa k).built = true := by
  obtain ⟨o, c, deed⟩ := k
  cases deed with
  | stage i =>
    have hdue : AdvDue c i := h
    simp only [mark, hdue, if_true]
  | _ => exact absurd h id

theorem mark_told {k : Call cfg} (h : k.Builds) : (g.mark psa k).told = g.told := by
  obtain ⟨o, c, deed⟩ := k
  cases deed with
  | stage i =>
    have hdue : AdvDue c i := h
    simp only [mark, hdue, if_true]
  | _ => exact absurd h id

theorem mark_still {k : Call cfg} (h : ¬ k.Builds) :
    (g.mark psa k).built = g.built ∧ (g.Blank → (g.mark psa k).Blank) := by
  unfold mark
  split
  · split
    · split
      · exact ⟨rfl, fun hg => hg.forget _⟩
      · exact ⟨rfl, id⟩
    · exact ⟨rfl, id⟩
  · exact ⟨rfl, fun hg => hg.forget _⟩
  · next i hk =>
    have hdue : ¬ AdvDue k.node i := by
      unfold Call.Builds at h
      rw [hk] at h
      exact h
    rw [if_neg hdue]
    exact ⟨rfl, id⟩
  · exact ⟨rfl, id⟩

theorem deliver_built (g : News cfg) (c : Node cfg) (inp : Input) (lost : Bool) :
    (g.deliver c inp lost).built = g.built ∧ (g.deliver c inp lost).right = g.right := by
  unfold deliver
  split
  · split
    · split <;> exact ⟨rfl, rfl⟩
    · exact ⟨rfl, rfl⟩
  · exact ⟨rfl, rfl⟩

theorem Blank.deliver (h : g.Blank) (c : Node cfg) (inp : Input) (lost : Bool) :
    (g.deliver c inp lost).Blank := by
  unfold News.deliver
  split
  · next i _ _ =>
    rw [h.staged i]
    exact h
  · exact h

end News

/-- Marks and urgency are right exactly as long as no advertisement has been built, and until then
no neighbour is marked. -/
structure Node.Hush (c : Node cfg) (g : News cfg) : Prop where
  right : g.right = !g.built
  unmarked : g.built = false → c.Unmarked
  blank : g.built = false → g.Blank

theorem Node.Unmarked.informed (h : c.Unmarked) (told : Fin cfg.maxNeighbors → List ℕ) :
    c.Informed told := by
  intro i _ hmark
  rw [h i] at hmark
  cases hmark

/-- The neighbour for which an advertisement is built is marked, and has not had it. -/
theorem Call.Builds.not_informed {k : Call cfg} (hb : k.Builds) (h : k.result psa = some d)
    {told : Fin cfg.maxNeighbors → List ℕ} (htold : ∀ i, told i = []) : ¬ d.Informed told := by
  obtain ⟨o, c, deed⟩ := k
  cases deed with
  | stage i =>
    cases h
    have hdue : AdvDue c i := hb
    intro hinf
    rcases lgLinkStageTx_steady psa (o.ok .encrypt) c i with ⟨-, hs⟩ | ⟨hno, -⟩
    · have hmark : ((lgLinkStageTx psa (o.ok .encrypt) c i).2.view i).advUrgentDone = true := by
        rw [(flags_eq (congrFun (congrArg Prod.snd hs.stance) i)).2.2]
        simp [noteAdvertised, Node.setView]
      have hlinked : ((lgLinkStageTx psa (o.ok .encrypt) c i).2.neigh i).state = .linked := by
        rw [(hs.entry i).state]
        exact hdue.1
      have hmem := hinf i hlinked hmark
      rw [htold i] at hmem
      cases hmem
    · exact hno hdue
  | _ => exact absurd hb id

theorem Node.Hush.call {k : Call cfg} {g : News cfg} (hf : k.Fits) (h : k.result psa = some d)
    (hk : k.node.Hush g) : d.Hush (g.note psa k) := by
  have hright : (g.note psa k).right = (g.right &&
      decide (d.Informed (g.mark psa k).told ∧ ClearsRight k.node d (g.mark psa k).told)) := by
    simp only [News.note, h, Option.getD_some, News.mark_right]
  have hbuilt : (g.note psa k).built = (g.mark psa k).built := rfl
  by_cases hb : k.Builds
  · have hnow : (g.note psa k).built = true := News.mark_builds hb
    refine ⟨?_, fun hno => ?_, fun hno => ?_⟩
    · rw [hright, hnow, hk.right, News.mark_told hb]
      cases hg : g.built with
      | true => rfl
      | false =>
        have hnot := hb.not_informed h (hk.blank hg).told
        simp [hnot]
    · rw [hnow] at hno
      cases hno
    · rw [hnow] at hno
      cases hno
  · have hstill : (g.mark psa k).built = g.built ∧ (g.Blank → (g.mark psa k).Blank) :=
      News.mark_still hb
    obtain ⟨hsame, hblank⟩ := hstill
    have hhush := Call.result_hushed hf h hb
    rw [hsame] at hbuilt
    refine ⟨?_, fun hno => ?_, fun hno => ?_⟩
    · rw [hright, hbuilt, hk.right]
      cases hg : g.built with
      | true => rfl
      | false =>
        have hun := hhush.unmarked (hk.unmarked hg)
        have hclear : ClearsRight k.node d (g.mark psa k).told := by
          intro hurgent hcleared
          rw [hhush.urgent hurgent] at hcleared
          cases hcleared
        simp [hun.informed, hclear]
    · rw [hbuilt] at hno
      exact hhush.unmarked (hk.unmarked hno)
    · rw [hbuilt] at hno
      have hg := hblank (hk.blank hno)
      exact ⟨hg.told, hg.staged⟩

theorem Node.Hush.steady {g : News cfg} (hs : Steady c d) (h : c.Hush g) : d.Hush g :=
  ⟨h.right, fun hno => (Hushed.of_stance hs.stance).unmarked (h.unmarked hno), h.blank⟩

theorem RunNews.hush {g : News cfg} (h : RunNews psa ident c g) : c.Hush g := by
  induction h with
  | boot => exact ⟨rfl, fun _ _ => rfl, fun _ => ⟨fun _ => rfl, fun _ => rfl⟩⟩
  | @step c c' g o inp lost h he hp ih =>
    have hdeliver : c.Hush (g.deliver c inp lost) := by
      obtain ⟨hbuilt, hright⟩ := News.deliver_built g c inp lost
      refine ⟨?_, fun hno => ?_, fun hno => ?_⟩
      · rw [hbuilt, hright]
        exact ih.right
      · rw [hbuilt] at hno
        exact ih.unmarked hno
      · rw [hbuilt] at hno
        exact (ih.blank hno).deliver c inp lost
    have hend := ((perform_does h.reachable.hsUnlinked hp).noted hdeliver
      (fun hs hk => hk.steady hs) fun _ _ _ hf hr hk => hk.call hf hr).1
    refine ⟨?_, hend.unmarked, fun hno => ⟨(hend.blank hno).told, (hend.blank hno).staged⟩⟩
    change (_ && _) = _
    rw [hend.right]
    cases hb : ((calls psa o c inp).foldl (News.note psa) (g.deliver c inp lost)).built with
    | true => simp [News.after, hb]
    | false => simp [News.after, hb, (hend.unmarked hb).informed]

/-- In every run, marks and urgency have been right in every state exactly as long as no
advertisement has been built: the neighbour is marked as the frame is staged. -/
theorem news_right_iff {g : News cfg} (h : RunNews psa ident c g) :
    g.right = true ↔ g.built = false := by
  rw [h.hush.right, Bool.not_eq_true']

/-! ## Two runs -/

/-- Take the given steps with the log, each with whether the frame that goes out is lost. -/
def runNews (psa : Psa) (s : Node cfg × News cfg) :
    List (Oracle × Input × Bool) → Option (Node cfg × News cfg)
  | [] => some s
  | (o, inp, lost) :: rest =>
    if Enabled s.1 inp then
      (perform psa o s.1 inp).bind fun c' =>
        runNews psa (c', s.2.after psa o s.1 inp lost c') rest
    else none

theorem runNews_steps {s s' : Node cfg × News cfg} {inputs : List (Oracle × Input × Bool)}
    (hs : RunNews psa ident s.1 s.2) (h : runNews psa s inputs = some s') :
    RunNews psa ident s'.1 s'.2 := by
  induction inputs generalizing s with
  | nil =>
    cases h
    exact hs
  | cons oi rest ih =>
    obtain ⟨o, inp, lost⟩ := oi
    rw [runNews] at h
    split at h
    · next he =>
      obtain ⟨d, hd, h⟩ := Option.bind_eq_some_iff.mp h
      exact ih (hs.step lost he hd) h
    · cases h

/-- A run that ends with the property `p` shows that one can be made. -/
theorem exists_runNews (psa : Psa) (ident : Identity) (inputs : List (Oracle × Input × Bool))
    (p : Node cfg → News cfg → Bool)
    (h : (runNews psa (Node.boot cfg ident, {}) inputs).any (fun s => p s.1 s.2) = true) :
    ∃ c g, RunNews psa ident c g ∧ p c g = true := by
  obtain ⟨s, hs, hp⟩ := (Option.any_eq_true _ _).mp h
  exact ⟨s.1, s.2, runNews_steps .boot hs, hp⟩

/-- Node 2 joins node 1. -/
def joinedNews : List (Oracle × Input × Bool) :=
  (joinedWith pacedParams []).map fun s => (s.1, s.2, false)

theorem news_right_joined : ∃ (c : Node .default) (g : News .default),
    RunNews Psa.plain (plainIdent 1 1) c g ∧ (c.neigh firstNeigh).state = .linked ∧
      (g.right = true ↔ g.built = false) := by
  obtain ⟨c, g, h, hp⟩ := exists_runNews Psa.plain (plainIdent 1 1) joinedNews
    (fun c : Node .default => fun _ => decide ((c.neigh firstNeigh).state = .linked))
    (by decide +kernel)
  exact ⟨c, g, h, of_decide_eq_true hp, news_right_iff h⟩

/-- In the first event of the link nothing is heard. -/
def unheardNews : List (Oracle × Input × Bool) :=
  joinedNews ++
    [(calm 6, Input.tick 380000, false), (calm 7, .schedWork, false), (calm 7, .schedWork, false),
      (calm 8, .granted, false), (calm 8, .tick 25000, false),
      (calm 8, .rxFailed .timeout, false), (calm 9, .finishWork (calm 10), false)]

/-- The advertisement of that event is gone, a keepalive is staged instead of it, and the neighbour
is still marked. -/
theorem not_news_right_unheard : ∃ (c : Node .default) (g : News .default),
    RunNews Psa.plain (plainIdent 1 1) c g ∧ (c.neigh firstNeigh).tx.histStaged = .keepalive ∧
      c.net.advUrgent = false ∧ g.told firstNeigh = [] ∧ ¬ c.Informed g.told := by
  obtain ⟨c, g, h, hp⟩ := exists_runNews Psa.plain (plainIdent 1 1) unheardNews
    (fun c : Node .default => fun g => decide ((c.neigh firstNeigh).tx.histStaged = .keepalive ∧
      c.net.advUrgent = false ∧ g.told firstNeigh = [] ∧ ¬ c.Informed g.told))
    (by decide +kernel)
  exact ⟨c, g, h, of_decide_eq_true hp⟩

end LockGrid
