import LockGrid.Tally
import LockGrid.Release

/-!
# The budget of idle slots

`idle_slots` counts the slots that had the radio in vain since the last progress, and no others, in
every run in which nothing is dropped before it is accounted for.
-/
namespace LockGrid

variable {cfg : Config} {psa : Psa} {ident : Identity} {c c' d : Node cfg} {o : Oracle}

/-- A slot of a handshake that goes on is dropped only after progress, and while no slot that was
refused is to be settled. -/
def DropsFairly (psa : Psa) (o : Oracle) (c : Node cfg) (g : SlotLog) : Prop :=
  dropsSlot psa o c = true → c.hs.n ≠ none → c.hs.completes = false →
    g.came = true ∧ (c.finishKind.isJoin = true → g.granted = true)

/-- The picks of a step drop slots only so. -/
def PicksFairly (psa : Psa) (c : Node cfg) (g : SlotLog) (o : Oracle) : Input → Prop
  | .schedWork => DropsFairly psa o c g
  | .finishWork o' => ∀ d ∈ settledNode psa o c, DropsFairly psa o' d (g.settled c)
  | _ => True

/-- No slot of a handshake is dropped without progress, and none is refused with progress to be
settled; an event ends only when the last slot of the handshake has been settled, and a handshake
begins only when no slot that was refused is to be settled. -/
structure Fair (psa : Psa) (c : Node cfg) (g : SlotLog) (o : Oracle) (inp : Input)
    (c' : Node cfg) : Prop where
  drop : PicksFairly psa c g o inp
  refuse : inp.isRefusal = true → c.ev.kind.isJoin = true → c.party ≠ none → g.came = false
  settle : inp.isInterrupt = true → c'.ev.kind = .none → c.party ≠ none →
    c.finishKind.isJoin = false
  begin : c'.party ≠ none → c'.party ≠ c.party → c.finishKind.isJoin = true → g.granted = true

/-! ## What the log and the context agree on -/

/-- The bookkeeping of the handshake agrees with the log; `k` is the kind of the event that is to be
settled. -/
structure Tallies (hs : Hs cfg) (k : EvKind) (g : SlotLog) : Prop where
  idle : hs.idleSlots = g.idle
  came : hs.progressed = g.came
  refused : hs.slotRefused = (k.isJoin && !g.granted)
  budget : hs.idleSlots < idleLimit hs.resuming

theorem idleLimit_le (resuming : Bool) : 0 < idleLimit resuming ∧ idleLimit resuming ≤ 8 := by
  cases resuming <;> decide

/-- What `lg_join_event_finish` makes of `idle_slots`. -/
theorem nextSlot_idle (now : ℕ) {hs : Hs cfg} (hb : hs.idleSlots < idleLimit hs.resuming) :
    (nextSlot now hs).idleSlots =
      if hs.progressed then 0 else if hs.slotRefused then hs.idleSlots else hs.idleSlots + 1 := by
  have hlimit := (idleLimit_le hs.resuming).2
  have hmod : (hs.idleSlots + 1) % 256 = hs.idleSlots + 1 := by omega
  change (if hs.progressed then 0
    else if !hs.slotRefused then (hs.idleSlots + 1) % 256 else hs.idleSlots) = _
  rw [hmod]
  cases hs.progressed <;> cases hs.slotRefused <;> rfl

namespace Tallies

variable {hs hs' : Hs cfg} {k : EvKind} {g : SlotLog}

/-- A slot is settled. -/
theorem settled (h : Tallies hs k g) (hk : k.isJoin = true) {now : ℕ}
    (hb : (nextSlot now hs).idleSlots < idleLimit hs.resuming) :
    Tallies (nextSlot now hs) .none (g.close g.granted) := by
  refine ⟨?_, rfl, rfl, hb⟩
  rw [nextSlot_idle now h.budget, SlotLog.close_idle, h.came, h.refused, h.idle, hk]
  cases g.came <;> cases g.granted <;> rfl

/-- A slot is dropped. -/
theorem dropped (h : Tallies hs k g) (hcame : g.came = true)
    (hk : k.isJoin = true → g.granted = true) {now : ℕ}
    (hb : (nextSlot now hs).idleSlots < idleLimit hs.resuming) :
    Tallies (nextSlot now hs) k (g.close false) := by
  refine ⟨?_, rfl, ?_, hb⟩
  · rw [nextSlot_idle now h.budget, SlotLog.close_idle, h.came, hcame]
    rfl
  · change false = (k.isJoin && !g.granted)
    cases hj : k.isJoin with
    | false => rfl
    | true =>
      rw [hk hj]
      rfl

/-- What is not a slot of the handshake is settled. -/
theorem passed (h : Tallies hs k g) (hk : k.isJoin = false) : Tallies hs .none g := by
  refine ⟨h.idle, h.came, ?_, h.budget⟩
  rw [h.refused, hk]
  rfl

/-- A frame is handled. -/
theorem evolves (h : Tallies hs k g) (hevol : Evolves hs hs') (hn : hs'.n ≠ none) :
    Tallies hs' k { g with came := g.came || hs'.progressed } := by
  cases hevol with
  | kept hstand _ hprog =>
    simp only [Hs.stand, Prod.mk.injEq] at hstand
    obtain ⟨-, -, hres, -, hidle, href, -, -⟩ := hstand
    refine ⟨hidle.trans h.idle, ?_, href.trans h.refused, ?_⟩
    · rw [hprog, h.came, Bool.or_self]
    · rw [hidle, hres]
      exact h.budget
  | staged hstand _ hprog =>
    simp only [Hs.stand, Prod.mk.injEq] at hstand
    obtain ⟨-, -, hres, -, hidle, href, -, -⟩ := hstand
    refine ⟨hidle.trans h.idle, ?_, href.trans h.refused, ?_⟩
    · rw [hprog, Bool.or_true]
    · rw [hidle, hres]
      exact h.budget
  | ended hnone => exact absurd hnone hn

end Tallies

/-- A handshake that begins has no slots behind it. -/
theorem Hs.Fresh.tallies {hs : Hs cfg} (h : hs.Fresh) {k : EvKind} {g : SlotLog}
    (hk : k.isJoin = true → g.granted = true) :
    Tallies hs k { g with came := hs.progressed, slots := [] } := by
  refine ⟨h.idle, rfl, ?_, ?_⟩
  · change hs.slotRefused = (k.isJoin && !g.granted)
    rw [h.refused]
    cases hj : k.isJoin with
    | false => rfl
    | true =>
      rw [hk hj]
      rfl
  · rw [h.idle]
    exact (idleLimit_le _).1

/-! ## Steps -/

/-- A run of `sched_pick`. -/
theorem Tallies.picked {g : SlotLog} (h : Tallies c.hs c.finishKind g)
    (hf : DropsFairly psa o c g) (hpick : schedPick psa o c = some c') (hn : c'.hs.n ≠ none) :
    Tallies c'.hs c'.finishKind (g.picked psa o c) := by
  have hfin : c'.finishKind = c.finishKind :=
    congrArg (fun r => r.2.1) (schedPick_slot hpick).1
  have hhs := schedPick_hs hpick
  rw [hfin]
  unfold SlotLog.picked
  split at hhs
  · next hdrop =>
    obtain ⟨e, he, hend⟩ := hhs
    obtain ⟨hgo, hnext⟩ := lgJoinEventFinish_next hend hn
    rw [hnext, he, if_pos hdrop]
    have hopen := hgo.open_
    have hbudget := hgo.budget
    rw [he] at hopen hbudget
    have hn' : c.hs.n ≠ none := by
      rw [hnext, he] at hn
      exact hn
    obtain ⟨hcame, hk⟩ := hf hdrop hn' hopen
    exact h.dropped hcame hk hbudget
  · next hdrop =>
    rw [hhs, if_neg hdrop]
    exact h

theorem Tallies.settledNode {g : SlotLog} (h : Tallies c.hs c.finishKind g)
    (hd : settledNode psa o c = some d) (hn : d.hs.n ≠ none) :
    Tallies d.hs d.finishKind (g.settled c) := by
  obtain ⟨e, he, rfl⟩ := Option.map_eq_some_iff.mp hd
  have hhs := settle_hs he
  unfold SlotLog.settled
  split at hhs
  · next hk =>
    obtain ⟨hgo, hnext⟩ := lgJoinEventFinish_next hhs hn
    rw [if_pos hk]
    change Tallies e.hs .none _
    rw [hnext]
    exact h.settled hk hgo.budget
  · next hk =>
    rw [if_neg hk]
    change Tallies e.hs .none _
    rw [hhs]
    exact h.passed (Bool.not_eq_true _ ▸ hk)

/-- Neither the context nor what the log says of the slots has changed. -/
theorem Tallies.congr {hs hs' : Hs cfg} {k : EvKind} {g g' : SlotLog} (h : Tallies hs k g)
    (hkept : hs'.resuming = hs.resuming ∧ hs'.idleSlots = hs.idleSlots ∧
      hs'.progressed = hs.progressed ∧ hs'.slotRefused = hs.slotRefused)
    (hg : g'.slots = g.slots ∧ g'.came = g.came ∧ g'.granted = g.granted) : Tallies hs' k g' := by
  obtain ⟨hres, hidle, hprog, href⟩ := hkept
  obtain ⟨hslots, hcame, hgranted⟩ := hg
  have hcount : g'.idle = g.idle := by rw [SlotLog.idle, hslots, SlotLog.idle]
  refine ⟨?_, ?_, ?_, ?_⟩
  · rw [hidle, h.idle, hcount]
  · rw [hprog, h.came, hcame]
  · rw [href, h.refused, hgranted]
  · rw [hidle, hres]
    exact h.budget

/-- An interrupt. -/
theorem Tallies.heard {g : SlotLog} {inp : Input} (h : Tallies c.hs c.finishKind g)
    (hi : inp.isInterrupt = true) (hp : perform psa o c inp = some c')
    (hrefuse : inp.isRefusal = true → c.ev.kind.isJoin = true → g.came = false)
    (hsettle : c'.ev.kind = .none → c.finishKind.isJoin = false) :
    Tallies c'.hs c'.finishKind (g.heard psa o c inp c') := by
  obtain ⟨⟨-, hres, hidle⟩, ⟨hr, hk, rfl⟩ | ⟨hk, hprog, href⟩⟩ := (perform_slotStep hi hp).keeps
  · have hends : Ends c (lgSchedEventDone (joinAborted c)) := by
      refine ⟨fun hnone => ?_, rfl⟩
      rw [hnone] at hk
      cases hk
    refine ⟨?_, ?_, ?_, ?_⟩
    · rw [SlotLog.idle, SlotLog.heard_slots]
      exact hidle.trans h.idle
    · rw [SlotLog.heard_came, hrefuse hr hk]
      rfl
    · rw [(SlotLog.heard_ended hends).1, hr]
      change true = (c.ev.kind.isJoin && true)
      rw [hk]
      rfl
    · rw [hidle, hres]
      exact h.budget
  · have hrides := perform_interrupt_rides hi hp
    by_cases hend : c'.ev.kind = .none
    · have hnone : c.hs.slotRefused = false := by
        rw [h.refused, hsettle hend]
        rfl
      refine ⟨?_, ?_, ?_, ?_⟩
      · rw [SlotLog.idle, SlotLog.heard_slots]
        exact hidle.trans h.idle
      · rw [SlotLog.heard_came]
        exact hprog.trans h.came
      · rw [href, hnone]
        cases hrides with
        | on hev hfin =>
          rw [hfin.1, hsettle hend]
          rfl
        | @done d hev =>
          change false = (d.ev.kind.isJoin && _)
          rw [hev]
          cases hj : c.ev.kind.isJoin with
          | false => rfl
          | true =>
            have hends : Ends c (lgSchedEventDone d) := by
              refine ⟨fun hnone => ?_, rfl⟩
              rw [hnone] at hj
              cases hj
            have hgranted : inp.isRefusal = false := by
              rw [Bool.eq_false_iff]
              intro hr
              rw [hk hr] at hj
              cases hj
            rw [(SlotLog.heard_ended hends).1, hgranted]
            rfl
      · rw [hidle, hres]
        exact h.budget
    · cases hrides with
      | on hev hfin =>
        rw [hfin.1]
        exact h.congr ⟨hres, hidle, hprog, href⟩ ⟨SlotLog.heard_slots inp, SlotLog.heard_came inp,
          (SlotLog.heard_running fun hends => hend hends.2).1⟩
      | done hev => exact absurd rfl hend

/-- The tally of the handshake the node is in. -/
def Node.Tallied (c : Node cfg) (g : SlotLog) : Prop :=
  c.party ≠ none → Tallies c.hs c.finishKind g

/-- A fair step keeps the tally. -/
theorem Fair.tallied {g : SlotLog} {inp : Input} (hc : c.HsUnlinked) (h : c.Tallied g)
    (hp : perform psa o c inp = some c') (hf : Fair psa c g o inp c') :
    c'.Tallied (g.after psa o c inp c') := by
  intro hparty
  have hn : c'.hs.n ≠ none := fun hn => hparty (Node.party_none hn)
  obtain ⟨p, hsome⟩ := Option.ne_none_iff_exists'.mp hparty
  unfold SlotLog.after
  dsimp only
  by_cases hrx : inp = .rxWork
  · subst hrx
    rcases (rxHandler_conduct hc hp).party hsome with ⟨hsame, hevol, hslot⟩ | ⟨hother, hfresh⟩
    · have hfin : c'.finishKind = c.finishKind := congrArg (fun r => r.2.1) hslot
      rw [if_pos (hsome.trans hsame.symm), hfin]
      exact (h (by rw [hsame]; exact nofun)).evolves hevol hn
    · rw [if_neg (by rw [hsome]; exact hother.symm)]
      apply hfresh.tallies
      intro hk
      apply hf.begin hparty (by rw [hsome]; exact hother.symm)
      cases rxHandler_spares hp with
      | on haside =>
        have hfin : c'.finishKind = c.finishKind := congrArg (fun r => r.2.1) haside.slot
        rwa [hfin] at hk
      | @abort d hscan haside =>
        have hev : d.ev = c.ev := congrArg Prod.fst haside.slot
        change d.ev.kind.isJoin = true at hk
        rw [hev, hscan] at hk
        cases hk
  · have hsame := perform_party hc hrx hp hsome
    have ht := h (by rw [hsame]; exact nofun)
    rw [if_pos (hsome.trans hsame.symm)]
    cases inp with
    | rxWork => exact absurd rfl hrx
    | schedWork => exact ht.picked hf.drop hp hn
    | finishWork o' =>
      change schedFinish psa o o' c = some c' at hp
      rw [schedFinish_eq] at hp
      obtain ⟨d, hd, hpick⟩ := Option.bind_eq_some_iff.mp hp
      have hnd : d.hs.n ≠ none := by
        rw [← schedPick_about hpick hn]
        exact hn
      have hlog : g.noted psa o c (.finishWork o') c' = (g.settled c).picked psa o' d := by
        unfold SlotLog.noted
        simp only [hd]
      rw [hlog]
      exact (ht.settledNode hd hnd).picked (hf.drop d hd) hpick hn
    | start =>
      cases hp
      rcases lgStart_entries psa o c with heq | ⟨-, hnone⟩
      · change Tallies (lgStart psa o c).hs (lgStart psa o c).finishKind g
        rw [heq]
        exact ht
      · exact absurd hnone hn
    | stop =>
      cases hp
      change Tallies (lgStop o c).hs (lgStop o c).finishKind g
      rw [lgStop_hs, lgStop_finishKind]
      exact ht
    | tick | send | backhaulSet | tuningSet =>
      have hslot := perform_call_slot rfl hp
      have hfin : c'.finishKind = c.finishKind := congrArg (fun r => r.2.1) hslot
      change Tallies c'.hs c'.finishKind g
      rw [perform_call_hs (.inl rfl) hp, hfin]
      exact ht
    | granted | refused | txDone | rxDone | rxFailed =>
      exact ht.heard rfl hp (fun hr hk => hf.refuse hr hk (by rw [hsame]; exact nofun))
        fun hend => hf.settle rfl hend (by rw [hsame]; exact nofun)

/-- The end of a slot for which there was no radio, with the node as it is then. -/
inductive Misses (psa : Psa) (o : Oracle) (c : Node cfg) (g : SlotLog) :
    Input → Node cfg → Prop
  | refused (o' : Oracle) (hk : c.finishKind.isJoin = true) (hg : g.granted = false) :
      Misses psa o c g (.finishWork o') c
  | late (hdrop : dropsSlot psa o c = true) : Misses psa o c g .schedWork c
  | lateAfter {o' : Oracle} {d : Node cfg} (hd : settledNode psa o c = some d)
      (hdrop : dropsSlot psa o' d = true) : Misses psa o c g (.finishWork o') d

/-- A slot for which there was no radio does not count, in a fair step. -/
theorem Tallies.missed {g : SlotLog} {inp : Input} (h : Tallies c.hs c.finishKind g)
    (hf : PicksFairly psa c g o inp) (hm : Misses psa o c g inp d) (hn : d.hs.n ≠ none)
    (hopen : d.hs.completes = false) :
    (nextSlot d.nowUs d.hs).idleSlots ≤ d.hs.idleSlots := by
  have hcame : ∀ {k : EvKind} {g' : SlotLog}, Tallies d.hs k g' → g'.came = true →
      (nextSlot d.nowUs d.hs).idleSlots ≤ d.hs.idleSlots := by
    intro k g' ht hcame
    rw [nextSlot_idle d.nowUs ht.budget, if_pos (ht.came.trans hcame)]
    exact Nat.zero_le _
  cases hm with
  | refused o' hk hg =>
    have href : c.hs.slotRefused = true := by rw [h.refused, hk, hg]; rfl
    rw [nextSlot_idle c.nowUs h.budget, if_pos href]
    split
    · exact Nat.zero_le _
    · exact le_rfl
  | late hdrop => exact hcame h (hf hdrop hn hopen).1
  | lateAfter hd hdrop =>
    exact hcame (h.settledNode hd hn) (hf d hd hdrop hn hopen).1

/-! ## Runs -/

theorem RunLogged.tallied {g : SlotLog} (h : RunLogged psa ident (Fair psa) c g) :
    c.Tallied g := by
  apply h.keeps (Q := Node.Tallied)
  · intro hparty
    exact absurd rfl hparty
  · intro c g o inp c' hc ht _ hp hf
    exact hf.tallied hc.hsUnlinked ht hp

/-- In every run of fair steps, the idle slots of a handshake are those since its last progress that
had the radio in vain. A slot for which there was no radio brings it no closer to its end. -/
theorem idle_slots_counted {g : SlotLog} (h : RunLogged psa ident (Fair psa) c g)
    (hparty : c.party ≠ none) :
    c.hs.idleSlots = g.idle ∧ ∀ o inp d, PicksFairly psa c g o inp → Misses psa o c g inp d →
      d.hs.n ≠ none → d.hs.completes = false →
      (nextSlot d.nowUs d.hs).idleSlots ≤ d.hs.idleSlots := by
  have ht := h.tallied hparty
  exact ⟨ht.idle, fun o inp d hf hm hn hopen => ht.missed hf hm hn hopen⟩

instance (c : Node cfg) (g : SlotLog) : Decidable (DropsFairly psa o c g) := by
  unfold DropsFairly
  infer_instance

instance (c : Node cfg) (g : SlotLog) (inp : Input) : Decidable (PicksFairly psa c g o inp) := by
  rcases inp <;> unfold PicksFairly <;> infer_instance

instance (c : Node cfg) (g : SlotLog) (inp : Input) (c' : Node cfg) :
    Decidable (Fair psa c g o inp c') :=
  decidable_of_iff
    (PicksFairly psa c g o inp ∧
      (inp.isRefusal = true → c.ev.kind.isJoin = true → c.party ≠ none → g.came = false) ∧
      (inp.isInterrupt = true → c'.ev.kind = .none → c.party ≠ none →
        c.finishKind.isJoin = false) ∧
      (c'.party ≠ none → c'.party ≠ c.party → c.finishKind.isJoin = true → g.granted = true))
    ⟨fun ⟨hd, hr, hs, hb⟩ => ⟨hd, hr, hs, hb⟩, fun h => ⟨h.drop, h.refuse, h.settle, h.begin⟩⟩

/-- Node 1 hears a beacon of node 2 during a scan and owes it the first message. -/
def courtingRun : List (Oracle × Input) :=
  [(calm 1, .start), (calm 1, .tuningSet patient), (calm 2, .schedWork), (calm 3, .tick 16000),
    (calm 3, .granted), (calm 3, .tick 5000), (calm 4, .rxDone (plainBeacon 2)),
    (calm 5, .rxWork)]

/-- Its first slot is refused; in the second the message goes out. -/
def courtedRun : List (Oracle × Input) :=
  courtingRun ++
    [(calm 5, Input.finishWork (calm 5)), (calm 6, .refused), (calm 6, .finishWork (calm 6)),
      (calm 6, .tick 59000), (calm 6, .granted), (calm 6, .tick 5000), (calm 6, .txDone 85000),
      (calm 6, .tick 4000), (calm 6, .txDone 89000), (calm 6, .finishWork (calm 6))]

theorem idle_slots_counted_courted :
    ∃ (c : Node .default) (g : SlotLog),
      RunLogged Psa.plain (plainIdent 1 1) (Fair Psa.plain) c g ∧ c.party ≠ none ∧
        g.slots.length = 2 ∧ c.hs.idleSlots = g.idle ∧ g.idle = 1 := by
  obtain ⟨c, g, h, hp⟩ := exists_runLogged (P := Fair Psa.plain) Psa.plain (plainIdent 1 1)
    courtedRun (fun c : Node .default => fun g : SlotLog =>
      decide (c.party ≠ none ∧ g.slots.length = 2 ∧ g.idle = 1)) (by decide +kernel)
  obtain ⟨hparty, hlen, hidle⟩ := of_decide_eq_true hp
  exact ⟨c, g, h, hparty, hlen, (idle_slots_counted h hparty).1, hidle⟩

/-- `finish_work` comes too late to the first slot and drops it. -/
def belatedRun : List (Oracle × Input) :=
  courtingRun ++ [(calm 5, Input.tick 20000), (calm 5, .finishWork (calm 5))]

/-- The slot counts, although nobody ever asked for the radio. -/
theorem idle_slots_not_counted_belated :
    ¬ ∀ (psa : Psa) (ident : Identity) (c : Node .default) (g : SlotLog),
      RunLogged psa ident (fun _ _ _ _ _ => True) c g → c.party ≠ none →
        c.hs.idleSlots = g.idle := by
  intro h
  obtain ⟨c, g, hrun, hp⟩ := exists_runLogged (P := fun _ _ _ _ _ => True) Psa.plain
    (plainIdent 1 1) belatedRun (fun c : Node .default => fun g : SlotLog =>
      decide (c.party ≠ none ∧ c.hs.idleSlots ≠ g.idle)) (by decide +kernel)
  obtain ⟨hparty, hidle⟩ := of_decide_eq_true hp
  exact hidle (h _ _ c g hrun hparty)

end LockGrid
