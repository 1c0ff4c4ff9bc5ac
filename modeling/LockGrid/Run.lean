import LockGrid.Core
import Mathlib.Logic.Relation

/-!
# Steps and runs of a node

A step is one work item, one call of the arbiter or of the PHY, or one call of the
application. A frame that is received is any frame at all; the oracle of a step is any answer
of the world.
-/
namespace LockGrid

variable {cfg : Config}

inductive Input
  /-- Time passes. -/
  | tick (us : ℕ)
  | schedWork
  /-- The oracle is that of the pick at the end. -/
  | finishWork (o' : Oracle)
  | rxWork
  | granted
  | refused
  | txDone (airEndUs : ℕ)
  | rxDone (rx : RxRec)
  | rxFailed (reason : RxFail)
  | send (dst : Addr) (port : UInt8) (payload : Bytes) (flags : UInt8)
  | backhaulSet (uplinkUp : Bool)
  | tuningSet (t : Tuning)
  | start
  | stop

/-- When a step can happen: the arbiter answers a request that is waiting, and the PHY reports
on what it was told to do. -/
def Enabled (c : Node cfg) : Input → Prop
  | .granted | .refused => c.ev.kind ≠ .none ∧ c.granted = false
  | .txDone _ => c.phy = .tx
  | .rxDone _ | .rxFailed _ => c.phy = .rx
  | _ => True

/-- What a step does; `none` when it does not return. -/
def perform (psa : Psa) (o : Oracle) (c : Node cfg) : Input → Option (Node cfg)
  | .tick us => some { c with nowUs := c.nowUs + us }
  | .schedWork => schedPick psa o c
  | .finishWork o' => schedFinish psa o o' c
  | .rxWork => rxHandler psa o c
  | .granted => some (tsGranted psa o c)
  | .refused => some (tsFailed o c)
  | .txDone airEndUs => some (phyTxDone psa o c airEndUs)
  | .rxDone rx => some (phyRxDone o c rx)
  | .rxFailed reason => some (phyRxFailed o c reason)
  | .send dst port payload flags => some (lgSend c dst port payload flags).2
  | .backhaulSet up => some (lgBackhaulSet o c up)
  | .tuningSet t => some (lgTuningSet o c t)
  | .start => some (lgStart psa o c)
  | .stop => some (lgStop o c)

def Step (psa : Psa) (c c' : Node cfg) : Prop :=
  ∃ inp o, Enabled c inp ∧ perform psa o c inp = some c'

/-- The states a node with the identity `ident` can come to. -/
def Reachable (psa : Psa) (ident : Identity) (c : Node cfg) : Prop :=
  Relation.ReflTransGen (Step psa) (Node.boot cfg ident) c

/-- What holds at boot and is kept by every step holds of every reachable state. -/
theorem Reachable.induct {psa : Psa} {ident : Identity} (P : Node cfg → Prop)
    (h0 : P (Node.boot cfg ident)) (hstep : ∀ c c', P c → Step psa c c' → P c')
    {c : Node cfg} (h : Reachable psa ident c) : P c := by
  induction h with
  | refl => exact h0
  | tail _ hs ih => exact hstep _ _ ih hs

/-- A step that meets the condition `P` on the state before it and on its input. -/
def StepWhen (psa : Psa) (P : Node cfg → Input → Prop) (c c' : Node cfg) : Prop :=
  ∃ inp o, Enabled c inp ∧ P c inp ∧ perform psa o c inp = some c'

/-- The states that runs come to in which every step meets the condition `P`. -/
def ReachableWhen (psa : Psa) (ident : Identity) (P : Node cfg → Input → Prop)
    (c : Node cfg) : Prop :=
  Relation.ReflTransGen (StepWhen psa P) (Node.boot cfg ident) c

theorem ReachableWhen.reachable {psa : Psa} {ident : Identity} {P : Node cfg → Input → Prop}
    {c : Node cfg} (h : ReachableWhen psa ident P c) : Reachable psa ident c := by
  induction h with
  | refl => exact .refl
  | tail _ hs ih =>
    obtain ⟨inp, o, he, -, hp⟩ := hs
    exact ih.tail ⟨inp, o, he, hp⟩

/-! ## Runs as computations -/

instance (c : Node cfg) (inp : Input) : Decidable (Enabled c inp) := by
  rcases inp <;> unfold Enabled <;> infer_instance

section

variable (psa : Psa) (P : Node cfg → Input → Prop) [∀ c inp, Decidable (P c inp)]

/-- Take the given steps, each with what the world answers during it, while each meets `P`. -/
def runWhen (c : Node cfg) : List (Oracle × Input) → Option (Node cfg)
  | [] => some c
  | (o, inp) :: rest =>
    if Enabled c inp ∧ P c inp then (perform psa o c inp).bind fun c' => runWhen c' rest
    else none

variable {psa P}

theorem runWhen_steps {c c' : Node cfg} {inputs : List (Oracle × Input)}
    (h : runWhen psa P c inputs = some c') : Relation.ReflTransGen (StepWhen psa P) c c' := by
  induction inputs generalizing c with
  | nil =>
    cases h
    exact .refl
  | cons oi rest ih =>
    obtain ⟨o, inp⟩ := oi
    rw [runWhen] at h
    split at h
    · next he =>
      obtain ⟨d, hd, h⟩ := Option.bind_eq_some_iff.mp h
      exact .head ⟨inp, o, he.1, he.2, hd⟩ (ih h)
    · cases h

/-- A run that ends in a state with the property `p` shows that one can be reached. -/
theorem exists_reachableWhen (psa : Psa) (ident : Identity) (inputs : List (Oracle × Input))
    (p : Node cfg → Bool) (h : (runWhen psa P (Node.boot cfg ident) inputs).any p = true) :
    ∃ c, ReachableWhen psa ident P c ∧ p c = true := by
  cases hr : runWhen psa P (Node.boot cfg ident) inputs with
  | none => simp [hr] at h
  | some c => exact ⟨c, runWhen_steps hr, by simpa [hr] using h⟩

end

/-- Take the given steps. -/
def run (psa : Psa) (c : Node cfg) (inputs : List (Oracle × Input)) : Option (Node cfg) :=
  runWhen psa (fun _ _ => True) c inputs

theorem exists_reachable (psa : Psa) (ident : Identity) (inputs : List (Oracle × Input))
    (p : Node cfg → Bool) (h : (run psa (Node.boot cfg ident) inputs).any p = true) :
    ∃ c, Reachable psa ident c ∧ p c = true := by
  obtain ⟨c, hc, hp⟩ := exists_reachableWhen psa ident inputs p h
  exact ⟨c, hc.reachable, hp⟩

end LockGrid
