import LockGrid.Notices
import LockGrid.Plain
import LockGrid.Traces
import Mathlib.Data.List.Chain

/-!
# How long a role lasts

The changes of role that `lg_role_evaluate` makes while a node runs, and how far apart they are.
-/
namespace LockGrid

variable {cfg : Config} {psa : Psa} {c c' d e : Node cfg} {i : Fin cfg.maxNeighbors} {o : Oracle}

/-- A change of role, with what the node knew of a route when it was evaluated. -/
structure RoleChange where
  atUs : ℕ
  old : Role
  new : Role
  routed : Bool
  deriving DecidableEq, Repr

def RoleChange.Promotes (r : RoleChange) : Prop := r.old = .leaf ∧ r.new = .router

def RoleChange.Demotes (r : RoleChange) : Prop := r.old = .router ∧ r.new = .leaf

/-- The second change is the one before: it led to the role that changes, and a choice between leaf
and router comes no sooner than the dwell time after it. -/
structure RoleChange.Follows (r r' : RoleChange) : Prop where
  old : r.old = r'.new
  dwell : r.Promotes ∨ r.Demotes → r'.atUs + roleDwellUs ≤ r.atUs

/-- The change that the evaluation of the role makes. -/
def roleChange (o : Oracle) (e : Node cfg) : Option RoleChange :=
  let new := (lgRoleEvaluate o e).net.role
  if new = e.net.role then none else some ⟨e.nowUs, e.net.role, new, lgHasRoute e⟩

/-- The node as `lg_role_evaluate` finds it in `lg_link_establish`. -/
def establishEvaluates (c : Node cfg) (i : Fin cfg.maxNeighbors) (pp : LinkParams)
    (initiator : Bool) : Option (Node cfg) :=
  (anchorCatchUp cfg c.nowUs catchUpFuel
    (startSchedule c pp initiator (c.neigh i).sched)).map fun s => linksRecomputed (comeUp c i pp s)

/-- In `lg_link_down`. -/
def downEvaluates (c : Node cfg) (i : Fin cfg.maxNeighbors) : Option (Node cfg) :=
  if (c.neigh i).state ≠ .linked then none else some (linksRecomputed (goneDown c i))

/-- In `lg_backhaul_set`. -/
def uplinkEvaluates (c : Node cfg) (up : Bool) : Option (Node cfg) :=
  if c.net.backhaulActive = up then none
  else if c.started then some (uplinkSet c up) else none

/-- In `lg_start`. -/
def startEvaluates (psa : Psa) (o : Oracle) (c : Node cfg) : Option (Node cfg) :=
  if c.started ∨ c.ident.addr = addrInvalid then none
  else match lgSecCertVerify psa o c.ident c.ident.cert with
  | .error _ => none
  | .ok _ => some (started o c)

/-- The node as `lg_role_evaluate` finds it during the call. -/
def Call.evaluates (psa : Psa) (k : Call cfg) : Option (Node cfg) :=
  match k.deed with
  | .establish i pp initiator => establishEvaluates k.node i pp initiator
  | .down i => downEvaluates k.node i
  | .role => some k.node
  | .uplink up => uplinkEvaluates k.node up
  | .start => startEvaluates psa k.o k.node
  | _ => none

/-- The changes of role since the node was started, the newest first, after a call. -/
def Call.record (psa : Psa) (l : List RoleChange) (k : Call cfg) : List RoleChange :=
  match k.evaluates psa with
  | none => l
  | some e => (roleChange k.o e).toList ++ if k.deed = .start then [] else l

/-! ## What an evaluation keeps -/

/-- Neither the role nor the time of its last change is touched. -/
structure Dwells (c c' : Node cfg) : Prop where
  role : c'.net.role = c.net.role
  changedUs : c'.net.roleChangedUs = c.net.roleChangedUs
  now : c.nowUs ≤ c'.nowUs
  started : c'.started = true → c.started = true

theorem Abides.dwells (h : Abides c c') : Dwells c c' := ⟨h.role, h.changedUs, h.now, h.started⟩

theorem Dwells.of_posture (h : c'.posture = c.posture) : Dwells c c' := (Abides.of_posture h).dwells

theorem Dwells.of_stance (h : c'.stance = c.stance) : Dwells c c' := (Abides.of_stance h).dwells

theorem Dwells.trans {c'' : Node cfg} (h : Dwells c c') (h' : Dwells c' c'') : Dwells c c'' :=
  ⟨h'.role.trans h.role, h'.changedUs.trans h.changedUs, h.now.trans h'.now,
    fun hs => h.started (h'.started hs)⟩

theorem lgRouteRecompute_dwells (c : Node cfg) : Dwells c (lgRouteRecompute c).2 := by
  unfold lgRouteRecompute
  split
  · exact ⟨rfl, rfl, le_rfl, id⟩
  · exact ⟨rfl, rfl, le_rfl, id⟩

theorem linksRecomputed_dwells (c : Node cfg) : Dwells c (linksRecomputed c) :=
  (lgRouteRecompute_dwells c).trans ⟨rfl, rfl, le_rfl, id⟩

theorem inRole_dwells (o : Oracle) (c : Node cfg) (want : Role) :
    Dwells (inRole c want) (lgDiscRetune o 2 (lgRouteRecompute (inRole c want)).2) :=
  (lgRouteRecompute_dwells _).trans (.of_posture rfl)

/-- A role is chosen between leaf and router only after the dwell time, and with a route. -/
theorem roleWanted_elects {want : Role} (h : roleWanted c = some want)
    (hrole : c.net.role ≠ .backhaul) (hwant : want ≠ .backhaul) :
    (c.net.roleChangedUs = 0 ∨ c.net.roleChangedUs + roleDwellUs ≤ c.nowUs) ∧
      (c.net.role = .leaf → lgHasRoute c = true) := by
  have hdwell : roleDwellUs = 15000000 := rfl
  rcases roleWanted_cases c with ⟨hw, -⟩ | ⟨-, ⟨hw, -⟩ | ⟨-, -, hr⟩ | ⟨_, -, -, -, -, hd, hroute⟩⟩
  · rw [hw] at h
    cases h
  · rw [hw] at h
    exact (hwant (Option.some.inj h).symm).elim
  · exact absurd hr hrole
  · exact ⟨by omega, hroute⟩

/-! ## The clock of a role -/

/-- What the node keeps of the changes of its role: the last one led to the role it has, and unless
its uplink has just changed, it knows when that was. -/
structure Clocked (c : Node cfg) (l : List RoleChange) : Prop where
  positive : c.started = true → 0 < c.nowUs
  last : c.started = true → ∀ r ∈ l.head?, r.new = c.net.role ∧ 0 < r.atUs
  clock : c.started = true → (c.net.role = .backhaul ↔ c.net.backhaulActive = true) →
    c.net.roleChangedUs = (l.head?.map RoleChange.atUs).getD 0
  spaced : l.IsChain RoleChange.Follows
  routed : ∀ r ∈ l, r.Promotes → r.routed = true

/-- The node is where its uplink puts it, and keeps the time of its role. -/
structure Tenured (c : Node cfg) (l : List RoleChange) : Prop extends Node.Seated c, Clocked c l

variable {l : List RoleChange}

theorem Clocked.dwells (h : Clocked c l) (hd : Dwells c c')
    (hc : c'.started = true → (c.net.role = .backhaul ↔ c.net.backhaulActive = true)) :
    Clocked c' l where
  positive hs := (h.positive (hd.started hs)).trans_le hd.now
  last hs := by
    rw [hd.role]
    exact h.last (hd.started hs)
  clock hs _ := by
    rw [hd.changedUs]
    exact h.clock (hd.started hs) (hc hs)
  spaced := h.spaced
  routed := h.routed

theorem Tenured.dwells (h : Tenured c l) (hd : Dwells c c') : Clocked c' l :=
  h.toClocked.dwells hd fun hs => h.settled (hd.started hs)

theorem Clocked.abides (h : Clocked c l) (ha : Abides c c') : Clocked c' l where
  positive hs := (h.positive (ha.started hs)).trans_le ha.now
  last hs := by
    rw [ha.role]
    exact h.last (ha.started hs)
  clock hs := by
    rw [ha.role, ha.active, ha.changedUs]
    exact h.clock (ha.started hs)
  spaced := h.spaced
  routed := h.routed

/-- The evaluation of the role keeps the record. -/
theorem Clocked.evaluate (o : Oracle) (h : Clocked e l) :
    Clocked (lgRoleEvaluate o e) ((roleChange o e).toList ++ l) := by
  have hsame : ∀ {f : Node cfg}, lgRoleEvaluate o e = f → f.net.role = e.net.role →
      (roleChange o e).toList ++ l = l := by
    intro f hf hr
    rw [roleChange, hf, if_pos hr]
    rfl
  rw [lgRoleEvaluate_eq]
  cases hw : roleWanted e with
  | none =>
    have heval : lgRoleEvaluate o e = e := by rw [lgRoleEvaluate_eq, hw]
    rw [hsame heval rfl]
    exact h
  | some want =>
    obtain ⟨hs, hup⟩ := roleWanted_some hw
    have heval : lgRoleEvaluate o e = applyRole o e want := by rw [lgRoleEvaluate_eq, hw]
    dsimp only
    rw [applyRole_eq] at heval ⊢
    by_cases heq : want = e.net.role
    · rw [if_pos heq] at heval ⊢
      rw [hsame heval rfl]
      exact h
    · rw [if_neg heq] at heval ⊢
      have hd := inRole_dwells o e want
      have hrole : (lgRoleEvaluate o e).net.role = want := by
        rw [heval, hd.role]
        rfl
      have hchange : roleChange o e = some ⟨e.nowUs, e.net.role, want, lgHasRoute e⟩ := by
        rw [roleChange, hrole, if_neg heq]
      have hnow := h.positive hs
      rw [hchange, Option.toList_some, List.singleton_append]
      -- a choice between leaf and router finds the uplink down, so the clock is right
      have helect : e.net.role ≠ .backhaul → want ≠ .backhaul →
          e.net.roleChangedUs = (l.head?.map RoleChange.atUs).getD 0 := by
        intro hr hwant
        have hoff := mt hup.mpr hwant
        exact h.clock hs (iff_of_false hr hoff)
      constructor
      · intro _
        exact hnow.trans_le hd.now
      · intro _ r hr
        cases hr
        exact ⟨hd.role.symm, hnow⟩
      · intro _ _
        exact hd.changedUs
      · apply h.spaced.cons
        intro r hr
        obtain ⟨hlast, hpos⟩ := h.last hs r hr
        refine ⟨hlast.symm, fun hchoice => ?_⟩
        have hsides : e.net.role ≠ .backhaul ∧ want ≠ .backhaul := by
          rcases hchoice with ⟨hold, hnew⟩ | ⟨hold, hnew⟩ <;> simp_all
        obtain ⟨hwait, -⟩ := roleWanted_elects hw hsides.1 hsides.2
        rw [helect hsides.1 hsides.2, Option.mem_def.mp hr] at hwait
        change r.atUs = 0 ∨ r.atUs + roleDwellUs ≤ e.nowUs at hwait
        change r.atUs + roleDwellUs ≤ e.nowUs
        omega
      · intro r hr hpro
        rcases List.mem_cons.mp hr with rfl | hr
        · have hleaf : e.net.role = .leaf := hpro.1
          have hwant : want = .router := hpro.2
          exact (roleWanted_elects hw (by simp [hleaf]) (by simp [hwant])).2 hleaf
        · exact h.routed r hr hpro

/-! ## Calls -/

/-- A node is started at a positive time. -/
def Call.Timely (k : Call cfg) : Prop := k.deed = .start → 0 < k.node.nowUs

/-- A call without an evaluation leaves the role as it is. -/
theorem Call.dwells_of_none {k : Call cfg} (hf : k.Fits) (h : k.result psa = some d)
    (hn : k.evaluates psa = none) : Dwells k.node d := by
  by_cases hr : k.deed.Routes
  · obtain ⟨o, c, deed⟩ := k
    cases deed with
    | establish i pp initiator =>
      obtain ⟨e, he, rfl⟩ := Option.map_eq_some_iff.mp h
      rw [lgLinkEstablish_eq_comeUp, Option.map_eq_none_iff.mp hn] at he
      cases he
    | down i =>
      cases h
      change downEvaluates c i = none at hn
      rw [downEvaluates] at hn
      rw [lgLinkDown_eq_goneDown]
      split
      · exact .of_posture rfl
      · next hl =>
        rw [if_neg hl] at hn
        cases hn
    | adv i buf =>
      cases h
      rw [lgRouteHandleAdv_eq]
      split
      · exact .of_posture rfl
      · have hadv := (advHeard_abides c i buf).dwells.trans (lgRouteRecompute_dwells _)
        exact hadv.trans (.of_stance (gossipConsiderSeeking_stance o _))
    | role => cases hn
    | uplink up =>
      cases h
      change uplinkEvaluates c up = none at hn
      rw [uplinkEvaluates] at hn
      rw [lgBackhaulSet_eq]
      split
      · exact .of_posture rfl
      · next hup =>
        rw [if_neg hup] at hn
        split
        · next hs =>
          rw [if_pos hs] at hn
          cases hn
        · exact ⟨rfl, rfl, le_rfl, id⟩
    | start =>
      cases h
      change startEvaluates psa o c = none at hn
      rw [startEvaluates] at hn
      rw [lgStart_eq]
      split
      · exact .of_posture rfl
      · next hgo =>
        rw [if_neg hgo] at hn
        split
        · exact .of_posture rfl
        · next hv =>
          rw [hv] at hn
          cases hn
    | _ => exact absurd hr id
  · exact (Call.result_abides hr hf h).dwells

/-- What follows the evaluation in a call leaves role and uplink as they are. -/
theorem linksChanged_abides (o : Oracle) (c : Node cfg) :
    Abides (lgRoleEvaluate o (linksRecomputed c)) (linksChanged o c) := by
  rw [linksChanged_eq]
  generalize lgRoleEvaluate o (linksRecomputed c) = d
  exact .of_posture rfl

theorem Call.result_evaluated {k : Call cfg} (h : k.result psa = some d)
    (he : k.evaluates psa = some e) : Abides (lgRoleEvaluate k.o e) d := by
  obtain ⟨o, c, deed⟩ := k
  cases deed with
  | establish i pp initiator =>
    obtain ⟨f, hf, rfl⟩ := Option.map_eq_some_iff.mp h
    rw [lgLinkEstablish_eq_comeUp] at hf
    obtain ⟨s, hs, rfl⟩ := Option.map_eq_some_iff.mp hf
    obtain ⟨s', hs', rfl⟩ := Option.map_eq_some_iff.mp he
    rw [hs] at hs'
    cases hs'
    exact (linksChanged_abides o _).trans (.of_posture (setHs_posture _ _))
  | down i =>
    cases h
    change downEvaluates c i = some e at he
    rw [downEvaluates] at he
    rw [lgLinkDown_eq_goneDown]
    split at he
    · cases he
    · next hl =>
      cases he
      rw [if_neg hl]
      exact linksChanged_abides o _
  | role =>
    cases h
    cases he
    exact .of_posture rfl
  | uplink up =>
    cases h
    change uplinkEvaluates c up = some e at he
    rw [uplinkEvaluates] at he
    rw [lgBackhaulSet_eq]
    split at he
    · cases he
    · next hup =>
      split at he
      · next hs =>
        cases he
        rw [if_neg hup, if_pos hs]
        exact .of_posture rfl
      · cases he
  | start =>
    cases h
    change startEvaluates psa o c = some e at he
    rw [startEvaluates] at he
    rw [lgStart_eq]
    split at he
    · cases he
    · next hgo =>
      rw [if_neg hgo]
      split at he
      · cases he
      · next hv =>
        cases he
        rw [hv]
        exact .of_stance (lgDiscBeaconFinish_stance psa o _)
  | _ => cases he

/-- The record is right where the role is evaluated. -/
theorem Tenured.evaluates {k : Call cfg} (h : Tenured k.node l) (hk : k.Timely)
    (he : k.evaluates psa = some e) : Clocked e (if k.deed = .start then [] else l) := by
  obtain ⟨o, c, deed⟩ := k
  cases deed with
  | establish i pp initiator =>
    obtain ⟨s, -, rfl⟩ := Option.map_eq_some_iff.mp he
    exact h.dwells ((Dwells.of_stance (comeUp_stance c i pp s)).trans (linksRecomputed_dwells _))
  | down i =>
    change downEvaluates c i = some e at he
    rw [downEvaluates] at he
    split at he
    · cases he
    · cases he
      exact h.dwells ((Dwells.of_posture (goneDown_posture c i)).trans (linksRecomputed_dwells _))
  | role =>
    cases he
    exact h.toClocked
  | uplink up =>
    change uplinkEvaluates c up = some e at he
    rw [uplinkEvaluates] at he
    split at he
    · cases he
    · next hup =>
      split at he
      · next hs =>
        cases he
        refine ⟨h.positive, h.last, fun _ hagree => ?_, h.spaced, h.routed⟩
        -- the role is still what the uplink was
        have hwas := h.settled hs
        have hnow : c.net.role = .backhaul ↔ up = true := hagree
        exact (hup (Bool.eq_iff_iff.mpr (hwas.symm.trans hnow))).elim
      · cases he
  | start =>
    change startEvaluates psa o c = some e at he
    rw [startEvaluates] at he
    split at he
    · cases he
    · split at he
      · cases he
      · cases he
        exact ⟨fun _ => hk rfl, nofun, fun _ _ => rfl, .nil, nofun⟩
  | _ => cases he

theorem Call.tenured {k : Call cfg} (hf : k.Fits) (h : k.result psa = some d) (hk : k.Timely)
    (ht : Tenured k.node l) : Tenured d (k.record psa l) := by
  refine ⟨Call.result_seated hf h ht.toSeated, ?_⟩
  rw [Call.record]
  cases he : k.evaluates psa with
  | none => exact ht.dwells (Call.dwells_of_none hf h he)
  | some e => exact ((ht.evaluates hk he).evaluate k.o).abides (Call.result_evaluated h he)

theorem Does.tenured {r : Fin cfg.maxNeighbors → Prop} {cs : List (Call cfg)}
    (h : Does r psa c cs c') (hk : ∀ k ∈ cs, k.Timely) (ht : Tenured c l) :
    Tenured c' (cs.foldl (Call.record psa) l) := by
  have hsteady : ∀ {a b : Node cfg} {l}, Still r a b → Tenured a l → Tenured b l := by
    intro a b l hs ha
    have hab : Abides a b := .of_stance hs.stance
    exact ⟨ha.toSeated.sits hab.toSits, ha.toClocked.abides hab⟩
  induction h generalizing l with
  | rest hs => exact hsteady hs ht
  | call hs hf hr _ ih =>
    have hcall := Call.tenured hf hr (hk _ List.mem_cons_self) (hsteady hs ht)
    exact ih (fun k hmem => hk k (List.mem_cons_of_mem _ hmem)) hcall

/-! ## Runs -/

/-- A node with the changes of its role since it was started, the newest first. -/
structure Tenure (cfg : Config) where
  node : Node cfg
  changes : List RoleChange

namespace Tenure

variable {ident : Identity} {t t' : Tenure cfg}

/-- A step of the node, with the changes of role it makes; when it starts the node, time is
positive. -/
def Step (psa : Psa) (t t' : Tenure cfg) : Prop :=
  ∃ inp o, Enabled t.node inp ∧ (∀ k ∈ calls psa o t.node inp, k.Timely) ∧
    perform psa o t.node inp = some t'.node ∧
    t'.changes = (calls psa o t.node inp).foldl (Call.record psa) t.changes

def Reachable (psa : Psa) (ident : Identity) (t : Tenure cfg) : Prop :=
  Relation.ReflTransGen (Step psa) ⟨Node.boot cfg ident, []⟩ t

theorem Reachable.node (h : Reachable psa ident t) : LockGrid.Reachable psa ident t.node := by
  refine h.lift Tenure.node ?_
  rintro t t' ⟨inp, o, he, -, hp, -⟩
  exact ⟨inp, o, he, hp⟩

theorem Reachable.tenured (h : Reachable psa ident t) : Tenured t.node t.changes := by
  induction h with
  | refl => exact ⟨Node.boot_seated ident, nofun, nofun, nofun, .nil, nofun⟩
  | tail hr hs ih =>
    obtain ⟨inp, o, -, hk, hp, hchanges⟩ := hs
    rw [hchanges]
    exact (perform_does (Reachable.node hr).hsUnlinked hp).tenured hk ih

instance (k : Call cfg) : Decidable k.Timely := by
  unfold Call.Timely
  infer_instance

/-- The step for an input, if it can be taken. -/
def next (psa : Psa) (t : Tenure cfg) (oi : Oracle × Input) : Option (Tenure cfg) :=
  if Enabled t.node oi.2 ∧ ∀ k ∈ calls psa oi.1 t.node oi.2, k.Timely then
    (perform psa oi.1 t.node oi.2).map fun c' =>
      ⟨c', (calls psa oi.1 t.node oi.2).foldl (Call.record psa) t.changes⟩
  else none

theorem next_step (psa : Psa) (t : Tenure cfg) (oi : Oracle × Input) (t' : Tenure cfg)
    (h : t.next psa oi = some t') : Step psa t t' := by
  unfold next at h
  split at h
  · next hgo =>
    obtain ⟨c', hp, rfl⟩ := Option.map_eq_some_iff.mp h
    exact ⟨oi.2, oi.1, hgo.1, hgo.2, hp, rfl⟩
  · cases h

end Tenure

/-- **A role is kept for the dwell time.** In every run in which a node is started at a positive
time, an evaluation leaves the role that the uplink asks for, and so does a step of a started node;
the changes of role since the start follow one another, a choice between leaf and router never
sooner than the dwell time after the change before it; and a leaf becomes a router only with a
route. -/
theorem role_stable {ident : Identity} {t : Tenure cfg} (h : Tenure.Reachable psa ident t) :
    (∀ (o : Oracle) (e : Node cfg), e.started = true →
      ((lgRoleEvaluate o e).net.role = .backhaul ↔
        (lgRoleEvaluate o e).net.backhaulActive = true)) ∧
    (t.node.started = true →
      (t.node.net.role = .backhaul ↔ t.node.net.backhaulActive = true) ∧
      ∀ r ∈ t.changes.head?, r.new = t.node.net.role) ∧
    t.changes.IsChain RoleChange.Follows ∧
    ∀ r ∈ t.changes, r.Promotes → r.routed = true := by
  have ht := h.tenured
  refine ⟨fun o e hs => lgRoleEvaluate_role o hs, fun hs => ⟨ht.settled hs, fun r hr => ?_⟩,
    ht.spaced, ht.routed⟩
  exact (ht.last hs r hr).1

/-- The uplink of node 1 comes up and goes down again. -/
def uplinkRun : List (Oracle × Input) :=
  [(calm 1, .tick 1000), (calm 1, .start), (calm 2, .backhaulSet true), (calm 2, .tick 500),
    (calm 2, .backhaulSet false)]

theorem role_stable_uplink :
    ∃ t : Tenure .default, t.changes = [⟨1500, .backhaul, .router, true⟩,
        ⟨1000, .leaf, .backhaul, false⟩] ∧ t.changes.IsChain RoleChange.Follows := by
  obtain ⟨t, hrun, hend⟩ := Traces.exists_run (Tenure.next_step Psa.plain) uplinkRun
    ⟨Node.boot .default (plainIdent 1 1), []⟩
    (fun t => decide (t.changes = [⟨1500, .backhaul, .router, true⟩,
      ⟨1000, .leaf, .backhaul, false⟩])) (by decide +kernel)
  exact ⟨t, of_decide_eq_true hend, (role_stable hrun).2.2.1⟩

end LockGrid
