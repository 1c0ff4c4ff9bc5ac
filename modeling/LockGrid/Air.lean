import LockGrid.Settlement
import LockGrid.Turns

/-!
# What one end of a handshake hears of the other

Two nodes in full, each in a run of its own. The handshake frames of the one are recorded as they
go on air; whatever the other handles in its name is one of them, late, again or not at all.
-/
namespace LockGrid

variable {cfg : Config} {psa : Psa}

/-! ## Frames on air -/

/-- A handshake frame on air: the fragment of which message, in which of the sender's handshakes,
and the start of its first bit. -/
structure Shot where
  attempt : ℕ
  type : FrameType
  msg : Bytes
  idx : ℕ
  pdu : Bytes
  startUs : ℕ
  deriving DecidableEq, Repr

/-- The handshake frame that goes on air in a step. -/
def shotOf (psa : Psa) (o : Oracle) (attempt : ℕ) (c : Node cfg) (inp : Input) : Option Shot :=
  let shot (idx startUs : ℕ) (pdu : Bytes) : Shot :=
    ⟨attempt, c.hs.txType, c.hs.tx, idx, pdu, startUs⟩
  if c.ev.kind ≠ .joinTx then none
  else
    match inp with
    | .granted =>
      (onAir psa o (c.setHs { c.hs with wasTx := true, fragIdx := 0 }) 0).map
        (shot 0 c.ev.anchorUs)
    | .txDone airEndUs =>
      if c.hs.fragIdx + 1 < c.hs.fragTotal then
        (onAir psa o (c.fragDone airEndUs) (c.hs.fragIdx + 1)).map
          (shot (c.hs.fragIdx + 1) (airEndUs + fragGapUs))
      else none
    | _ => none

/-! ## Frames in the buffer -/

/-- The type of a handshake frame that is for the node. -/
def joinType (c : Node cfg) (pdu : Bytes) : Option FrameType :=
  match lgFrameHdrGet cfg pdu c.ident.netid16 with
  | none => none
  | some h =>
    if h.src = c.ident.addr ∨ (h.dst ≠ c.ident.addr ∧ h.dst ≠ addrBroadcast) then none
    else (lgFrameType pdu).filter FrameType.isJoin

/-- The frame is in the clear, or opens. -/
def opensFrame (psa : Psa) (o : Oracle) (c : Node cfg) (i : Fin cfg.maxNeighbors) (pdu : Bytes) :
    Bool :=
  !secured (getByte pdu offFcf) || (lgSecDecrypt psa (o.ok .decrypt) c i pdu).1.isOk

/-- The frame that a step brings to the reassembly buffer. -/
def taken (psa : Psa) (o : Oracle) (c : Node cfg) : Input → Option RxRec
  | .rxWork =>
    match c.rxRing with
    | [] => none
    | rx :: rest =>
      match joinType c rx.pdu with
      | none => none
      | some t =>
        match contextFor o { c with rxRing := rest } t (getLe16 rx.pdu offSrc) rx.airStartUs with
        | (none, _) => none
        | (some i, d) =>
          if opensFrame psa o (lgNeighRxRssi d i rx.rssi) i rx.pdu then some rx else none
  | _ => none

/-! ## Speaker and listener -/

/-- Where the slots of a handshake start, and whose handshake it is. -/
def Hs.origin (hs : Hs cfg) : Option (Fin cfg.maxNeighbors) × Bool × ℕ :=
  (hs.n, hs.joiner, hs.t0Us)

/-- The node has begun a handshake as the joiner. -/
def Begins (c c' : Node cfg) : Prop :=
  c'.hs.n ≠ none ∧ c'.hs.joiner = true ∧ c'.hs.origin ≠ c.hs.origin

/-- The node has made a context for a joiner. -/
def Opens (c c' : Node cfg) : Prop := c.hs.n = none ∧ c'.hs.n ≠ none ∧ c'.hs.joiner = false

instance (c c' : Node cfg) : Decidable (Begins c c') := by
  unfold Begins
  infer_instance

instance (c c' : Node cfg) : Decidable (Opens c c') := by
  unfold Opens
  infer_instance

/-- Two nodes within reach of each other. -/
structure Encounter (cfg : Config) where
  speaker : Node cfg
  listener : Node cfg
  /-- The handshake frames of the speaker, newest first. -/
  air : List Shot := []
  /-- How many handshakes the speaker has begun. -/
  attempt : ℕ := 0
  /-- The frame that opened the context the listener has as a router. -/
  opener : Option RxRec := none
  /-- The frame of the speaker that came to the listener's buffer in the last step. -/
  took : Option Shot := none
  /-- The last one in the buffer. -/
  last : Option Shot := none

inductive Side
  | speaker
  | listener
  deriving DecidableEq, Repr

namespace Encounter

variable (s : Encounter cfg)

def boot (cfg : Config) (speaker listener : Identity) : Encounter cfg where
  speaker := .boot cfg speaker
  listener := .boot cfg listener

/-- The PHY reports the end of a handshake frame when its air time is over. -/
def OnTime : Input → Prop
  | .txDone airEndUs => s.speaker.ev.kind = .joinTx →
      ∀ f ∈ s.air.head?, airEndUs = f.startUs + airtimeUs f.pdu.length
  | _ => True

/-- A handshake frame that the listener handles in the speaker's name is one that the speaker has
sent, and arrived as it went on air. -/
def Carries : Input → Prop
  | .rxWork => ∀ rx ∈ s.listener.rxRing.head?, (lgFrameType rx.pdu).any FrameType.isJoin = true →
      getLe16 rx.pdu offSrc = s.speaker.ident.addr →
      ∃ f ∈ s.air, f.pdu = rx.pdu ∧ f.startUs = rx.airStartUs
  | _ => True

instance (inp : Input) : Decidable (s.OnTime inp) := by
  rcases inp <;> unfold OnTime <;> infer_instance

instance (inp : Input) : Decidable (s.Carries inp) := by
  rcases inp <;> unfold Carries <;> infer_instance

/-- The frame that opened the listener's context, after a step of the listener to `c`. -/
def openerAfter (c : Node cfg) : Option RxRec :=
  if Opens s.listener c then s.listener.rxRing.head?
  else if c.hs.n = none ∨ c.hs.joiner = true then none
  else s.opener

/-- The frame of the speaker that `rx` is. -/
def shotFor (rx : RxRec) : Option Shot :=
  if getLe16 rx.pdu offSrc = s.speaker.ident.addr then
    s.air.find? fun f => f.pdu = rx.pdu ∧ f.startUs = rx.airStartUs
  else none

/-- The last frame of the speaker in the listener's buffer, after a step of the listener to `c` that
brought `rx` there. -/
def lastAfter (c : Node cfg) (rx : Option RxRec) : Option Shot :=
  if c.hs.rx = {} then none
  else
    match rx with
    | some rx => s.shotFor rx
    | none => s.last

/-- A step of one of the two. -/
def perform (psa : Psa) (s : Encounter cfg) : Side × Oracle × Input → Option (Encounter cfg)
  | (.speaker, o, inp) =>
    if Enabled s.speaker inp ∧ s.OnTime inp then
      (LockGrid.perform psa o s.speaker inp).map fun c => { s with
        speaker := c
        air := (shotOf psa o s.attempt s.speaker inp).toList ++ s.air
        attempt := if Begins s.speaker c then s.attempt + 1 else s.attempt
        took := none }
    else none
  | (.listener, o, inp) =>
    if Enabled s.listener inp ∧ s.Carries inp then
      (LockGrid.perform psa o s.listener inp).map fun c => { s with
        listener := c
        opener := s.openerAfter c
        took := (taken psa o s.listener inp).bind s.shotFor
        last := s.lastAfter c (taken psa o s.listener inp) }
    else none

/-- A step between two states that meet the condition `P`. -/
def Step (psa : Psa) (P : Encounter cfg → Encounter cfg → Prop) (s s' : Encounter cfg) : Prop :=
  (∃ m, s.perform psa m = some s') ∧ P s s'

variable (psa : Psa) (P : Encounter cfg → Encounter cfg → Prop) [∀ s s', Decidable (P s s')]

/-- Make the given moves, while each meets `P`. -/
def run (s : Encounter cfg) : List (Side × Oracle × Input) → Option (Encounter cfg)
  | [] => some s
  | m :: rest => (s.perform psa m).bind fun s' => if P s s' then s'.run rest else none

variable {P}

theorem run_steps {s s' : Encounter cfg} {moves : List (Side × Oracle × Input)}
    (h : s.run psa P moves = some s') : Relation.ReflTransGen (Step psa P) s s' := by
  induction moves generalizing s with
  | nil =>
    cases h
    exact .refl
  | cons m rest ih =>
    rw [run] at h
    obtain ⟨e, he, h⟩ := Option.bind_eq_some_iff.mp h
    split_ifs at h with hp
    exact .head ⟨⟨m, he⟩, hp⟩ (ih h)

/-- A run that ends in a state with the property `p` shows that one can be reached. -/
theorem exists_run (s : Encounter cfg) (moves : List (Side × Oracle × Input))
    (p : Encounter cfg → Bool) (h : (s.run psa P moves).any p = true) :
    ∃ s', Relation.ReflTransGen (Step psa P) s s' ∧ p s' = true := by
  obtain ⟨s', hs, hp⟩ := (Option.any_eq_true _ _).mp h
  exact ⟨s', run_steps psa hs, hp⟩

end Encounter

end LockGrid
