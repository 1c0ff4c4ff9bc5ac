import LockGrid.Conduct

/-!
# The slots of a handshake, counted

Beside the node a log is kept of its slots: what went on air in them, how each of them ended, and
whether the exchange had come further by then. `idle_slots` is the number of slots that had the
radio in vain since then, as long as no slot without the radio is taken for one of them and no
progress or refusal is forgotten before the slot is settled.
-/
namespace LockGrid

variable {cfg : Config} {psa : Psa} {ident : Identity} {c c' d : Node cfg} {o : Oracle}

/-! ## The log -/

/-- How a slot ended: whether the radio was granted in it, and whether the handshake had come
further since the slot before. -/
structure SlotEnd where
  granted : Bool
  came : Bool
  deriving DecidableEq, Repr

structure SlotLog where
  /-- The handshake frame on air. -/
  air : Option Shot := none
  /-- The last frame of the event under way that is reported sent, with its start. -/
  sent : Option Shot := none
  /-- Whether the event that ended last had the radio. -/
  granted : Bool := false
  /-- The last frame that was reported sent in it. -/
  final : Option Shot := none
  /-- Whether the handshake has come further since the end of its last slot. -/
  came : Bool := false
  /-- The slots of the handshake, newest first. -/
  slots : List SlotEnd := []

namespace SlotLog

variable (g : SlotLog)

/-- The slots since the last progress that had the radio and came to nothing. -/
def idle : ℕ := (g.slots.takeWhile fun s => !s.came).countP SlotEnd.granted

/-- A slot ends. -/
def close (granted : Bool) : SlotLog :=
  { g with slots := ⟨granted, g.came⟩ :: g.slots, came := false }

theorem close_idle (granted : Bool) :
    (g.close granted).idle = if g.came then 0 else if granted then g.idle + 1 else g.idle := by
  cases hc : g.came <;> cases granted <;> simp [idle, close, hc]

/-- `sched_finish` settles an event. -/
def settled (c : Node cfg) : SlotLog := if c.finishKind.isJoin then g.close g.granted else g

/-- `sched_pick` drops a slot, for which there was no radio. -/
def picked (psa : Psa) (o : Oracle) (c : Node cfg) : SlotLog :=
  if dropsSlot psa o c then g.close false else g

/-- The last frame of the event under way that is reported sent, after an interrupt. -/
def sentAfter (c : Node cfg) : Input → Option Shot
  | .granted | .refused => none
  | .txDone airEndUs =>
    if c.ev.kind = .joinTx then
      g.air.map fun f => { f with startUs := airEndUs - airtimeUs f.pdu.length }
    else g.sent
  | _ => g.sent

/-- An interrupt after which the node is `c'`. -/
def heard (psa : Psa) (o : Oracle) (c : Node cfg) (inp : Input) (c' : Node cfg) : SlotLog :=
  let sent := g.sentAfter c inp
  let g := { g with air := shotOf psa o 0 c inp, sent := sent }
  if Ends c c' then { g with granted := !inp.isRefusal, final := sent } else g

section

variable {g}

theorem heard_air (inp : Input) : (g.heard psa o c inp c').air = shotOf psa o 0 c inp := by
  unfold heard
  dsimp only
  split <;> rfl

theorem heard_slots (inp : Input) : (g.heard psa o c inp c').slots = g.slots := by
  unfold heard
  dsimp only
  split <;> rfl

theorem heard_came (inp : Input) : (g.heard psa o c inp c').came = g.came := by
  unfold heard
  dsimp only
  split <;> rfl

theorem heard_ended {inp : Input} (h : Ends c c') :
    (g.heard psa o c inp c').granted = !inp.isRefusal ∧
      (g.heard psa o c inp c').final = g.sentAfter c inp := by
  unfold heard
  dsimp only
  rw [if_pos h]
  exact ⟨rfl, rfl⟩

theorem heard_running {inp : Input} (h : ¬ Ends c c') :
    (g.heard psa o c inp c').granted = g.granted ∧
      (g.heard psa o c inp c').final = g.final := by
  unfold heard
  dsimp only
  rw [if_neg h]
  exact ⟨rfl, rfl⟩

end

end SlotLog

/-- The node once `sched_finish` has settled the event and cleared what it settled. -/
def settledNode (psa : Psa) (o : Oracle) (c : Node cfg) : Option (Node cfg) :=
  (settle psa o c).map fun d => { d with finishKind := .none, finishNeigh := none }

theorem schedFinish_eq (psa : Psa) (o o' : Oracle) (c : Node cfg) :
    schedFinish psa o o' c = (settledNode psa o c).bind (schedPick psa o') := by
  unfold schedFinish settledNode
  cases settle psa o c <;> rfl

namespace SlotLog

variable (g : SlotLog)

/-- What a step that leads to `c'` adds to the log. -/
def noted (psa : Psa) (o : Oracle) (c : Node cfg) (inp : Input) (c' : Node cfg) : SlotLog :=
  match inp with
  | .schedWork => g.picked psa o c
  | .finishWork o' =>
    match settledNode psa o c with
    | none => g
    | some d => (g.settled c).picked psa o' d
  | .rxWork => { g with came := g.came || c'.hs.progressed }
  | .granted | .refused | .txDone _ | .rxDone _ | .rxFailed _ => g.heard psa o c inp c'
  | _ => g

/-- The log after a step that leads to `c'`; it begins anew with each handshake. -/
def after (psa : Psa) (o : Oracle) (c : Node cfg) (inp : Input) (c' : Node cfg) : SlotLog :=
  let g := g.noted psa o c inp c'
  if c'.party = c.party then g else { g with came := c'.hs.progressed, slots := [] }

end SlotLog

/-! ## Runs with a log -/

/-- A condition on steps, on the node and its log before, and on the node after. -/
abbrev StepCond (cfg : Config) := Node cfg → SlotLog → Oracle → Input → Node cfg → Prop

/-- A step with its log that meets the condition `P`. -/
def LogStep (psa : Psa) (P : StepCond cfg) (s s' : Node cfg × SlotLog) : Prop :=
  ∃ inp o, Enabled s.1 inp ∧ perform psa o s.1 inp = some s'.1 ∧ P s.1 s.2 o inp s'.1 ∧
    s'.2 = s.2.after psa o s.1 inp s'.1

/-- The nodes, with their logs, that runs come to in which every step meets the condition `P`. -/
def RunLogged (psa : Psa) (ident : Identity) (P : StepCond cfg) (c : Node cfg) (g : SlotLog) :
    Prop := Relation.ReflTransGen (LogStep psa P) (Node.boot cfg ident, {}) (c, g)

variable {P : StepCond cfg}

theorem RunLogged.reachable {g : SlotLog} (h : RunLogged psa ident P c g) :
    Reachable psa ident c := by
  have hall : ∀ s, Relation.ReflTransGen (LogStep psa P) (Node.boot cfg ident, {}) s →
      Reachable psa ident s.1 := by
    intro s hs
    induction hs with
    | refl => exact .refl
    | tail _ hstep ih =>
      obtain ⟨inp, o, he, hp, -, -⟩ := hstep
      exact ih.tail ⟨inp, o, he, hp⟩
  exact hall _ h

/-- What holds at boot and is kept by every step that meets `P` holds in every run of such. -/
theorem RunLogged.keeps {Q : Node cfg → SlotLog → Prop} {g : SlotLog}
    (h : RunLogged psa ident P c g) (h0 : Q (Node.boot cfg ident) {})
    (hstep : ∀ {c g o inp c'}, Reachable psa ident c → Q c g → Enabled c inp →
      perform psa o c inp = some c' → P c g o inp c' → Q c' (g.after psa o c inp c')) :
    Q c g := by
  have hall : ∀ s, Relation.ReflTransGen (LogStep psa P) (Node.boot cfg ident, {}) s →
      Q s.1 s.2 := by
    intro s hs
    induction hs with
    | refl => exact h0
    | tail hr hs ih =>
      obtain ⟨inp, o, he, hp, hP, hg⟩ := hs
      rw [hg]
      exact hstep (RunLogged.reachable hr) ih he hp hP
  exact hall _ h

section

variable (psa P) [∀ c g o inp c', Decidable (P c g o inp c')]

/-- Take the given steps with the log, while each meets `P`. -/
def runLogged (s : Node cfg × SlotLog) : List (Oracle × Input) → Option (Node cfg × SlotLog)
  | [] => some s
  | (o, inp) :: rest =>
    (perform psa o s.1 inp).bind fun c' =>
      if Enabled s.1 inp ∧ P s.1 s.2 o inp c' then
        runLogged (c', s.2.after psa o s.1 inp c') rest
      else none

variable {psa P}

theorem runLogged_steps {s s' : Node cfg × SlotLog} {inputs : List (Oracle × Input)}
    (h : runLogged psa P s inputs = some s') :
    Relation.ReflTransGen (LogStep psa P) s s' := by
  induction inputs generalizing s with
  | nil =>
    cases h
    exact .refl
  | cons oi rest ih =>
    obtain ⟨o, inp⟩ := oi
    rw [runLogged] at h
    obtain ⟨d, hd, h⟩ := Option.bind_eq_some_iff.mp h
    split_ifs at h with hp
    exact .head ⟨inp, o, hp.1, hd, hp.2, rfl⟩ (ih h)

/-- A run that ends with the property `p` shows that one can be made. -/
theorem exists_runLogged (psa : Psa) (ident : Identity) (inputs : List (Oracle × Input))
    (p : Node cfg → SlotLog → Bool)
    (h : (runLogged psa P (Node.boot cfg ident, {}) inputs).any (fun s => p s.1 s.2) = true) :
    ∃ c g, RunLogged psa ident P c g ∧ p c g = true := by
  obtain ⟨s, hs, hp⟩ := (Option.any_eq_true _ _).mp h
  exact ⟨s.1, s.2, runLogged_steps hs, hp⟩

end

end LockGrid
