import LockGrid.Nonces
import Mathlib.Data.List.Infix

/-!
# What a node does after a resumption has failed

The dealings of a node tell, at any time, which long term key it holds for an entry, and so how
each of its handshakes began. A failed resumption clears nothing; the next handshake falls back to
a full one exactly when something else has.
-/
namespace LockGrid

variable {cfg : Config} {psa : Psa} {ι : Type} [DecidableEq ι]

/-- What a dealing makes of the long term key, if it is about that. -/
def Dealing.ltk? : Dealing → Option (Option Bytes)
  | .wiped | .dropped => some none
  | .derived k | .down k => some (some k)
  | .began _ | .failed _ => none

/-- Whether a dealing is an attempt as the joiner, and then whether a resumption that failed. -/
def Dealing.attempt? : Dealing → Option Bool
  | .began _ => some false
  | .failed resuming => some resuming
  | _ => none

/-- The long term key of entry `i`, as the newest of its dealings left it. -/
def heldLtk (i : ι) (l : List (ι × Addr × Dealing)) : Option Bytes :=
  (l.findSome? fun e => if e.1 = i then e.2.2.ltk? else none).getD none

/-- The last attempt towards the address `a` was a resumption that failed. -/
def LastFailed (a : Addr) (l : List (ι × Addr × Dealing)) : Prop :=
  (l.findSome? fun e => if e.2.1 = a then e.2.2.attempt? else none) = some true

instance (a : Addr) (l : List (ι × Addr × Dealing)) : Decidable (LastFailed a l) :=
  inferInstanceAs (Decidable (_ = _))

/-- What is to hold of the dealings of a node: after a resumption that failed, the next handshake
towards that address is a full one. -/
def FallsBack (l : List (ι × Addr × Dealing)) : Prop :=
  ∀ i a t pre, (i, a, .began t) :: pre <:+ l → LastFailed a pre → t = .joinReq

/-! ## The dealings tell the long term keys -/

theorem heldLtk_cons_ne {i j : ι} (h : j ≠ i) (a : Addr) (d : Dealing)
    (l : List (ι × Addr × Dealing)) : heldLtk i ((j, a, d) :: l) = heldLtk i l := by
  simp [heldLtk, h]

theorem heldLtk_cons_self (i : ι) (a : Addr) (d : Dealing) (l : List (ι × Addr × Dealing)) :
    heldLtk i ((i, a, d) :: l) = d.ltk?.getD (heldLtk i l) := by
  cases h : d.ltk? <;> simp [heldLtk, h]

def Keys.ltk? (k : Keys) : Option Bytes := if k.hasLtk then some k.ltk else none

namespace Vault

/-- The dealings tell which long term keys are held, and every handshake began accordingly. -/
structure Logged (V : Vault ι) : Prop where
  held : ∀ i, heldLtk i V.dealings = (V.keys i).ltk?
  began : ∀ i a t pre, (i, a, .began t) :: pre <:+ V.dealings →
    t = if (heldLtk i pre).isSome then .resumeReq else .joinReq

variable {V V' : Vault ι}

/-- Keys with another long term key, and dealings that say so. -/
theorem Logged.deal (h : V.Logged) {i : ι} {k : Keys} {a : Addr} {d : Dealing}
    (hk : d.ltk?.getD (V.keys i).ltk? = k.ltk?)
    (hd : ∀ t, d = .began t → t = if (V.keys i).hasLtk then .resumeReq else .joinReq) :
    (∀ j, heldLtk j ((i, a, d) :: V.dealings) = ((V.set i k).keys j).ltk?) ∧
      ∀ j b t pre, (j, b, .began t) :: pre <:+ (i, a, d) :: V.dealings →
        t = if (heldLtk j pre).isSome then .resumeReq else .joinReq := by
  constructor
  · intro j
    by_cases hj : i = j
    · subst hj
      rw [heldLtk_cons_self, h.held]
      simpa [Vault.set] using hk
    · rw [heldLtk_cons_ne hj, h.held]
      simp [Vault.set, Function.update_of_ne (Ne.symm hj)]
  · intro j b t pre hpre
    rcases List.suffix_cons_iff.mp hpre with heq | hold
    · obtain ⟨hhead, rfl⟩ := List.cons.inj heq
      cases hhead
      rw [h.held, hd t rfl]
      cases hl : (V.keys i).hasLtk <;> simp [Keys.ltk?, hl]
    · exact h.began j b t pre hold

/-- Keys with the same long term key. -/
theorem Logged.set (h : V.Logged) {i : ι} {k : Keys} (hk : (V.keys i).ltk? = k.ltk?) :
    (V.set i k).Logged := by
  refine ⟨fun j => ?_, h.began⟩
  by_cases hj : j = i
  · subst hj
    simpa [Vault.set, hk] using h.held j
  · simpa [Vault.set, hj] using h.held j

theorem Logged.derived (h : V.Logged) {i : ι} {ltk : Option Bytes} {key : Bytes} {k : Keys}
    {ins : List Bytes} {ds : List Dealing} {live live' : List ℕ} {no : ℕ}
    (hd : Derived live no ltk key (V.keys i) k ins ds live') :
    { V.set i k with dealings := ds.map (fun d => (i, V.addr i, d)) ++ V.dealings }.Logged := by
  have hsave : ∀ {k}, k.ltk? = (saveLtk (V.keys i) ltk).ltk? →
      { V.set i k with dealings :=
        (ltk.map Dealing.derived).toList.map (fun d => (i, V.addr i, d)) ++
          V.dealings }.Logged := by
    intro k hk
    cases ltk with
    | none => exact ⟨(h.set hk.symm).held, h.began⟩
    | some l =>
      obtain ⟨hheld, hbegan⟩ := h.deal (i := i) (k := k) (a := V.addr i) (d := .derived l)
        (hk.symm ▸ rfl) nofun
      exact ⟨hheld, hbegan⟩
  cases hd with
  | nothing => exact ⟨(h.set rfl).held, h.began⟩
  | failed => exact hsave rfl
  | installed => exact hsave rfl

theorem Step.logged (h : Step psa V V') (hl : V.Logged) : V'.Logged := by
  cases h with
  | wipe i addr =>
    obtain ⟨hheld, hbegan⟩ := hl.deal (i := i) (k := {}) (a := addr) (d := .wiped) rfl (by simp)
    exact ⟨hheld, hbegan⟩
  | forget i =>
    have hs := hl.set (i := i) (k := (V.keys i).forget) rfl
    exact ⟨hs.held, hs.began⟩
  | down i =>
    obtain ⟨hheld, hbegan⟩ := hl.deal (i := i)
      (k := { V.keys i with ltk := (V.keys i).linkKey, hasLtk := true }.forget)
      (a := V.addr i) (d := .down (V.keys i).linkKey) rfl (by simp)
    exact ⟨hheld, hbegan⟩
  | dropLtk i =>
    obtain ⟨hheld, hbegan⟩ := hl.deal (i := i) (k := { V.keys i with hasLtk := false })
      (a := V.addr i) (d := .dropped) rfl (by simp)
    exact ⟨hheld, hbegan⟩
  | begin i =>
    obtain ⟨hheld, hbegan⟩ := hl.deal (i := i) (k := V.keys i) (a := V.addr i)
      (d := .began _) rfl fun t ht => (Dealing.began.inj ht).symm
    refine ⟨fun j => ?_, hbegan⟩
    simpa [Vault.set, Vault.note] using hheld j
  | fail i resuming =>
    obtain ⟨hheld, hbegan⟩ := hl.deal (i := i) (k := (V.keys i).forget) (a := V.addr i)
      (d := .failed resuming) rfl (by simp)
    exact ⟨hheld, hbegan⟩
  | recount i => exact hl.set rfl
  | stall i => exact hl.set rfl
  | use i =>
    have hs := hl.set (i := i) (k := { V.keys i with txCtr := (V.keys i).txCtr + 1 }) rfl
    exact ⟨hs.held, hs.began⟩
  | draw => exact ⟨hl.held, hl.began⟩
  | verify => exact ⟨hl.held, hl.began⟩
  | fromReq i nonce t secret k ins ds live ht hd =>
    have hs := hl.derived hd
    exact ⟨hs.held, hs.began⟩
  | fromRsp i v secret k ins ds live ht hv ha hd =>
    have hs := hl.derived hd
    exact ⟨hs.held, hs.began⟩
  | resume i nonceJ k ins live _ _ hd =>
    have hs := hl.derived hd
    exact ⟨hs.held, hs.began⟩

theorem Steps.logged (h : Steps psa V V') (hl : V.Logged) : V'.Logged := by
  induction h with
  | refl => exact hl
  | tail _ hstep ih => exact hstep.logged ih

end Vault

theorem Node.boot_logged (ident : Identity) : (Node.boot cfg ident).vault.Logged :=
  ⟨fun _ => rfl, fun _ _ _ _ h => by simp [Node.vault, Node.boot] at h⟩

theorem Reachable.logged {ident : Identity} {c : Node cfg} (h : Reachable psa ident c) :
    c.vault.Logged := h.advances.steps.logged (Node.boot_logged ident)

/-! ## After a failed resumption -/

/-- In every run, the node falls back to full handshakes if and only if, whenever it begins a
handshake after a failed resumption, the last that has happened to the long term key of the entry
is that it was given up or the entry made anew. -/
theorem fallsBack_iff {ident : Identity} {c : Node cfg} (h : Reachable psa ident c) :
    FallsBack c.hist.dealings ↔ ∀ i a t pre, (i, a, .began t) :: pre <:+ c.hist.dealings →
      LastFailed a pre → heldLtk i pre = none := by
  have hbegan := h.logged.began
  constructor
  · intro hfall i a t pre hpre hfailed
    have ht := hbegan i a t pre hpre
    rw [hfall i a t pre hpre hfailed] at ht
    by_contra hheld
    rw [if_pos (Option.isSome_iff_ne_none.mpr hheld)] at ht
    cases ht
  · intro hheld i a t pre hpre hfailed
    have ht := hbegan i a t pre hpre
    rw [hheld i a t pre hpre hfailed] at ht
    simpa using ht

/-- Node 1 holds a long term key for node 2, resumes with it, and no answer comes. -/
def unansweredRun : List (Oracle × Input) :=
  [(calm 1, .start), (calm 2, .schedWork), (calm 3, .tick 16000), (calm 3, .granted),
    (calm 3, .tick 5000),
    (calm 4, .rxDone (plainFrag .joinReq 1 2 replayedReq 0)),
    (calm 4, .rxDone (plainFrag .joinReq 1 2 replayedReq 1)),
    (calm 4, .rxDone badCfm), (calm 4, .rxDone (plainBeacon 2)),
    (calm 5, .rxWork), (calm 6, .rxWork), (calm 7, .rxWork), (calm 8, .rxWork),
    (calm 9, .finishWork (calm 10)), (calm 10, .tick 20000), (calm 11, .granted),
    (calm 11, .tick 2500), (calm 12, .txDone 43000), (calm 13, .finishWork (calm 14)),
    (calm 14, .tick 930000), (calm 15, .refused), (calm 16, .finishWork (calm 17)),
    (calm 18, .schedWork), (calm 18, .schedWork), (calm 18, .tick 40000), (calm 19, .granted)]

/-- The next scan hears a resumption request of node 2, which is refused, and later its beacon. -/
def refusedResumeRun : List (Oracle × Input) :=
  unansweredRun ++
    [(calm 19, Input.rxDone (plainFrag .resumeReq 1 2 [0] 0)), (calm 20, .rxWork),
      (calm 20, .tick 11000000), (calm 20, .rxFailed .timeout), (calm 21, .finishWork (calm 22)),
      (calm 22, .schedWork), (calm 22, .schedWork), (calm 22, .tick 40000), (calm 23, .granted),
      (calm 23, .rxDone { plainBeacon 2 with airStartUs := 12052000 }), (calm 24, .rxWork)]

/-- The newest handshake follows a failed resumption; `t` is its first message. -/
def beganAgain (l : List (Fin Config.default.maxNeighbors × Addr × Dealing)) (t : FrameType) :
    Bool :=
  match l with
  | (_, a, .began t') :: pre => decide (t' = t ∧ LastFailed a pre)
  | _ => false

/-- Before every handshake after a failed resumption, the long term key was given up. -/
def givenUpBefore (l : List (Fin Config.default.maxNeighbors × Addr × Dealing)) : Bool :=
  l.tails.all fun s =>
    match s with
    | (i, a, .began _) :: pre => decide (LastFailed a pre → heldLtk i pre = none)
    | _ => true

theorem fallsBack_refused :
    ∃ c : Node .default, Reachable Psa.plain (plainIdent 1 1) c ∧
      beganAgain c.hist.dealings .joinReq = true ∧ FallsBack c.hist.dealings := by
  obtain ⟨c, hc, hp⟩ := exists_reachable Psa.plain (plainIdent 1 1) refusedResumeRun
    (fun c : Node .default => beganAgain c.hist.dealings .joinReq &&
      givenUpBefore c.hist.dealings) (by decide +kernel)
  simp only [Bool.and_eq_true] at hp
  refine ⟨c, hc, hp.1, (fallsBack_iff hc).mpr fun i a t pre hpre => ?_⟩
  have hone := List.all_eq_true.mp hp.2 _ ((List.mem_tails _ _).mpr hpre)
  exact of_decide_eq_true hone

/-- After a resumption that was not answered, the next handshake is a resumption again. -/
theorem not_fallsBack_unanswered :
    ¬ ∀ (psa : Psa) (ident : Identity) (c : Node .default), Reachable psa ident c →
      FallsBack c.hist.dealings := by
  intro h
  obtain ⟨c, hc, hp⟩ := exists_reachable Psa.plain (plainIdent 1 1)
    (unansweredRun ++
      [(calm 19, Input.rxDone { plainBeacon 2 with airStartUs := 1012000 }), (calm 20, .rxWork)])
    (fun c : Node .default => beganAgain c.hist.dealings .resumeReq) (by decide +kernel)
  have hfall := h _ _ c hc
  unfold beganAgain at hp
  split at hp
  · next i a t pre hl =>
    obtain ⟨ht, hfailed⟩ := of_decide_eq_true hp
    rw [hl] at hfall
    have hfull := hfall i a t pre List.suffix_rfl hfailed
    rw [ht] at hfull
    cases hfull
  · cases hp

end LockGrid
