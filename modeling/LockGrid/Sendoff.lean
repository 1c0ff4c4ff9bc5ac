import LockGrid.Tally
import LockGrid.Nonces

/-!
# The last message

A router brings the link up at the end of a slot that counts as one it sent in, once its last
message is staged. Both are said of the slot before the radio has taken the frame, and outlive
slots that are dropped. In every run in which neither misleads, the message has been on air when
the link comes up, and the anchor is measured from it.
-/
namespace LockGrid

variable {cfg : Config} {psa : Psa} {ident : Identity} {c c' d : Node cfg} {g : SlotLog}
  {o : Oracle} {inp : Input} {i : Fin cfg.maxNeighbors}

/-! ## The condition -/

/-- The last message of a router is staged. -/
def Hs.closing (hs : Hs cfg) : Bool := !hs.joiner && hs.txType.isLast

/-- A message of the handshake is on air, or a slot is to be settled. -/
def Node.SlotOpen (c : Node cfg) : Prop :=
  c.ev.kind = .joinTx ∧ c.phy ≠ .idle ∨ c.finishKind.isJoin = true

/-- A run of `sched_pick` drops no slot whose end brings up the link. -/
def DropsOpen (psa : Psa) (o : Oracle) (c : Node cfg) : Prop :=
  dropsSlot psa o c = true → c.hs.n ≠ none → c.hs.completes = false

def PicksOpen (psa : Psa) (c : Node cfg) (o : Oracle) : Input → Prop
  | .schedWork => DropsOpen psa o c
  | .finishWork o' => ∀ d ∈ settledNode psa o c, DropsOpen psa o' d
  | _ => True

/-- A slot of the last message begins with it on air, and no earlier slot is to be settled then
that does not count as sent in. -/
def BeginsOnAir (psa : Psa) (c : Node cfg) (o : Oracle) : Input → Prop
  | .granted => c.ev.kind = .joinTx → c.party ≠ none → c.hs.closing = true →
    (shotOf psa o 0 c .granted).isSome = true ∧
      (c.finishKind.isJoin = true → c.hs.wasTx = true)
  | _ => True

/-- No frame stages the last message while a slot is open that counts as sent in. -/
def StagesApart (c c' : Node cfg) : Input → Prop
  | .rxWork => c'.party = c.party → c.party ≠ none → c'.hs.outgoing ≠ c.hs.outgoing →
    c'.hs.completes = true → ¬ c.SlotOpen
  | _ => True

/-- The last message goes on air when its slot begins; it is not staged while another slot counts
as sent in; and no slot is dropped whose end brings up the link. -/
structure SendsOff (psa : Psa) (c : Node cfg) (_ : SlotLog) (o : Oracle) (inp : Input)
    (c' : Node cfg) : Prop where
  begins : BeginsOnAir psa c o inp
  stages : StagesApart c c' inp
  drops : PicksOpen psa c o inp

/-! ## What the log vouches for -/

/-- The last fragment of the message that is staged. -/
structure Shot.Closes (f : Shot) (hs : Hs cfg) : Prop where
  type : f.type = hs.txType
  msg : f.msg = hs.tx
  idx : f.idx + 1 = hs.fragTotal

/-- Where the end of a slot would bring up the link, the log has the last message: on air while
the slot is under way, and reported sent once it is over. -/
structure Vouched (c : Node cfg) (g : SlotLog) : Prop where
  single : c.hs.Single
  listens : c.ev.kind = .joinRx → c.phy ≠ .idle → c.hs.wasTx = false
  airs : c.hs.completes = true → c.ev.kind = .joinTx → c.phy ≠ .idle →
    c.phy = .tx ∧ ∃ f, g.air = some f ∧ f.Closes c.hs ∧ f.pdu.length = c.hs.lastTxLen
  sent : c.hs.completes = true → c.finishKind.isJoin = true →
    c.finishKind = .joinTx ∧
      ∃ f, g.final = some f ∧ f.Closes c.hs ∧ f.startUs = c.hs.lastTxAirStartUs

/-! ## The radio -/

/-- What `lg_sec_encrypt` makes of a frame depends on the keys of the entry alone. -/
theorem lgSecEncrypt_result {ok : Bool} {i : Fin cfg.maxNeighbors} {pdu : Bytes} {hdrLen : ℕ}
    {r r' : Except Err Bytes × Node cfg} (h : lgSecEncrypt psa ok c i pdu hdrLen = r)
    (h' : lgSecEncrypt psa ok c' i pdu hdrLen = r') (hn : c'.neigh i = c.neigh i)
    (hident : c'.ident = c.ident) : r'.1 = r.1 := by
  subst h h'
  unfold lgSecEncrypt
  dsimp only
  rw [hn, hident]
  split
  · rfl
  · split
    · rfl
    · cases (c.neigh i).keys.keyId with
      | none => rfl
      | some key =>
        dsimp only
        split
        · rfl
        · split <;> rfl

/-- What is sent does not depend on whether the event has been granted. -/
theorem buildFragment_granted (o : Oracle) (c : Node cfg) (granted : Bool) (idx : ℕ) :
    (buildFragment psa o { c with granted := granted } idx).1 =
      (buildFragment psa o c idx).1 := by
  unfold buildFragment
  cases hn : c.hs.n with
  | none => rfl
  | some i =>
    dsimp only [Node.setTx, Node.setNeigh]
    split
    · split <;> next he =>
        split <;> next he' =>
          have henc := lgSecEncrypt_result he he' rfl rfl
          cases henc <;> rfl
    · rfl

theorem onAir_granted (o : Oracle) (c : Node cfg) (granted : Bool) (idx : ℕ) :
    onAir psa o { c with granted := granted } idx = onAir psa o c idx := by
  unfold onAir
  rw [buildFragment_granted]

/-- A fragment that goes on air. -/
theorem sendFragment_aired {idx : ℕ} {pdu : Bytes} (h : onAir psa o c idx = some pdu) :
    (sendFragment psa o c idx).phy = .tx ∧ (sendFragment psa o c idx).ev = c.ev ∧
      (sendFragment psa o c idx).finishKind = c.finishKind ∧
      (sendFragment psa o c idx).hs = { c.hs with lastTxLen := pdu.length } := by
  have hslot := (buildFragment_aside psa o c idx).slot
  have hhs := sendFragment_hs psa o c idx
  unfold onAir at h
  dsimp only at h
  split at h
  · cases h
  · next hgo =>
    rw [not_or, Bool.not_eq_true'] at hgo
    cases h
    refine ⟨?_, ?_, ?_, hhs⟩
    all_goals
      unfold sendFragment command
      dsimp only
      rw [if_neg hgo.1, if_pos (by simpa using hgo.2)]
    · exact congrArg Prod.fst hslot
    · exact congrArg (fun r => r.2.1) hslot

/-- The first frame of a slot, when it goes on air. -/
theorem joinTxStart_aired (hk : c.ev.kind = .joinTx) (hn : c.hs.n ≠ none)
    (h : (shotOf psa o 0 c .granted).isSome = true) :
    let d := joinTxStart psa o { c with granted := true }
    d.phy = .tx ∧ d.ev = c.ev ∧ d.finishKind = c.finishKind ∧
      ∃ f, shotOf psa o 0 c .granted = some f ∧ f.type = c.hs.txType ∧ f.msg = c.hs.tx ∧
        f.idx = 0 ∧
        d.hs = { c.hs with wasTx := true, fragIdx := 0, lastTxLen := f.pdu.length } := by
  intro d
  obtain ⟨f, hf⟩ := Option.isSome_iff_exists.mp h
  have hair := hf
  unfold shotOf at hair
  rw [if_neg (by simpa using hk)] at hair
  obtain ⟨pdu, hpdu, rfl⟩ := Option.map_eq_some_iff.mp hair
  rw [← onAir_granted o _ true] at hpdu
  obtain ⟨hphy, hev, hfin, hhs⟩ := sendFragment_aired hpdu
  have hd : d = sendFragment psa o
      { c.setHs { c.hs with wasTx := true, fragIdx := 0 } with granted := true } 0 := by
    change joinTxStart psa o { c with granted := true } = _
    unfold joinTxStart
    rw [if_neg (by rwa [Option.isNone_iff_eq_none])]
    rfl
  rw [hd]
  exact ⟨hphy, hev, hfin, _, hf, rfl, rfl, rfl, hhs⟩

/-! ## Steps -/

theorem Hs.completes_closing {hs : Hs cfg} (h : hs.completes = true) :
    hs.closing = true ∧ hs.wasTx = true := by
  rw [Hs.completes, Bool.and_eq_true, Bool.and_eq_true] at h
  refine ⟨?_, h.1.2⟩
  rw [Hs.closing, h.1.1, h.2]
  rfl

theorem Hs.not_completes {hs : Hs cfg} (h : hs.wasTx = false) : hs.completes = false := by
  unfold Hs.completes
  rw [h, Bool.and_false, Bool.false_and]

namespace Vouched

/-- As long as the end of a slot does not bring up the link, there is little to vouch for. -/
theorem of_not_completes (hsingle : c.hs.Single)
    (hlistens : c.ev.kind = .joinRx → c.phy ≠ .idle → c.hs.wasTx = false)
    (h : c.hs.completes = false) : Vouched c g := by
  have hopen : c.hs.completes = true → False := by
    rw [h]
    exact nofun
  exact ⟨hsingle, hlistens, fun hc => (hopen hc).elim, fun hc => (hopen hc).elim⟩

theorem unsent (hsingle : c.hs.Single) (h : c.hs.wasTx = false) : Vouched c g :=
  of_not_completes hsingle (fun _ _ => h) (Hs.not_completes h)

/-- Neither the message nor what was sent of it has changed, nor the log of it. -/
theorem congr {g' : SlotLog} (h : Vouched c g) (hstand : c'.hs.stand = c.hs.stand)
    (hout : c'.hs.outgoing = c.hs.outgoing) (hslot : c'.slot = c.slot) (hair : g'.air = g.air)
    (hfinal : g'.final = g.final) : Vouched c' g' := by
  have hsingle := h.single.congr hout
  simp only [Hs.stand, Prod.mk.injEq] at hstand
  simp only [Hs.outgoing, Prod.mk.injEq] at hout
  simp only [Node.slot, Prod.mk.injEq] at hslot
  obtain ⟨-, hjoiner, -, hwas, -, -, hstart, hlen⟩ := hstand
  obtain ⟨htx, htype, -, htotal⟩ := hout
  obtain ⟨hev, hfin, -, -, hphy⟩ := hslot
  have hcomp : c'.hs.completes = c.hs.completes := by
    unfold Hs.completes
    rw [hjoiner, hwas, htype]
  have hcloses : ∀ {f : Shot}, f.Closes c.hs → f.Closes c'.hs := fun hf =>
    ⟨hf.type.trans htype.symm, hf.msg.trans htx.symm, hf.idx.trans htotal.symm⟩
  refine ⟨hsingle, ?_, ?_, ?_⟩
  · rw [hev, hphy, hwas]
    exact h.listens
  · rw [hcomp, hev, hphy, hair, hlen]
    intro hc hk hbusy
    obtain ⟨htuned, f, hf, hends, hflen⟩ := h.airs hc hk hbusy
    exact ⟨htuned, f, hf, hcloses hends, hflen⟩
  · rw [hcomp, hfin, hfinal, hstart]
    intro hc hk
    obtain ⟨hkind, f, hf, hends, hfstart⟩ := h.sent hc hk
    exact ⟨hkind, f, hf, hcloses hends, hfstart⟩

theorem picked (h : Vouched c g) (hpick : schedPick psa o c = some c') (hn : c'.hs.n ≠ none) :
    Vouched c' (g.picked psa o c) := by
  have hlog : (g.picked psa o c).air = g.air ∧ (g.picked psa o c).final = g.final := by
    unfold SlotLog.picked
    split <;> exact ⟨rfl, rfl⟩
  by_cases hphy : c.phy = .idle
  · have hslot := (schedPick_slot hpick).1
    have hfin : c'.finishKind = c.finishKind := congrArg (fun r => r.2.1) hslot
    have hphy' : c'.phy = .idle := (congrArg (fun r => r.2.2.2.2) hslot).trans hphy
    have hhs := schedPick_hs hpick
    split at hhs
    · obtain ⟨e, he, hend⟩ := hhs
      obtain ⟨hgo, hnext⟩ := lgJoinEventFinish_next hend hn
      rw [he] at hnext
      have hgo' : c.hs.completes = false := he ▸ hgo.open_
      refine ⟨?_, fun _ hb => absurd hphy' hb, fun _ _ hb => absurd hphy' hb, fun hc => ?_⟩
      · rw [hnext]
        exact h.single
      · rw [hnext] at hc
        exact absurd (hgo'.symm.trans hc) Bool.false_ne_true
    · refine ⟨?_, fun _ hb => absurd hphy' hb, fun _ _ hb => absurd hphy' hb, ?_⟩
      · rw [hhs]
        exact h.single
      · rw [hhs, hfin, hlog.2]
        exact h.sent
  · have hsame : c' = c := by
      unfold schedPick at hpick
      rw [if_pos (by simp [hphy])] at hpick
      cases hpick
      rfl
    subst hsame
    exact h.congr rfl rfl rfl hlog.1 hlog.2

theorem settledNode (h : Vouched c g) (hd : settledNode psa o c = some d) (hn : d.hs.n ≠ none) :
    Vouched d (g.settled c) := by
  obtain ⟨e, he, rfl⟩ := Option.map_eq_some_iff.mp hd
  have hslot := settle_slot he
  have hev : e.ev = c.ev := congrArg Prod.fst hslot
  have hphy : e.phy = c.phy := congrArg (fun r => r.2.2.2.2) hslot
  have hlog : (g.settled c).air = g.air := by
    unfold SlotLog.settled
    split <;> rfl
  have hhs := settle_hs he
  split at hhs
  · obtain ⟨hgo, hnext⟩ := lgJoinEventFinish_next hhs hn
    refine ⟨?_, ?_, fun hc => ?_, nofun⟩
    · rw [hnext]
      exact h.single
    · change e.ev.kind = .joinRx → e.phy ≠ .idle → e.hs.wasTx = false
      rw [hnext, hev, hphy]
      exact h.listens
    · change e.hs.completes = true at hc
      rw [hnext] at hc
      exact absurd (hgo.open_.symm.trans hc) Bool.false_ne_true
  · refine ⟨?_, ?_, ?_, nofun⟩
    · rw [hhs]
      exact h.single
    · change e.ev.kind = .joinRx → e.phy ≠ .idle → e.hs.wasTx = false
      rw [hhs, hev, hphy]
      exact h.listens
    · change e.hs.completes = true → e.ev.kind = .joinTx → e.phy ≠ .idle → e.phy = .tx ∧
        ∃ f, (g.settled c).air = some f ∧ f.Closes e.hs ∧ f.pdu.length = e.hs.lastTxLen
      rw [hhs, hev, hphy, hlog]
      exact h.airs

/-- A message slot begins. -/
theorem began (h : Vouched c g) (hk : c.ev.kind = .joinTx) (hn : c.hs.n ≠ none)
    (hbegins : c.hs.closing = true → (shotOf psa o 0 c .granted).isSome = true ∧
      (c.finishKind.isJoin = true → c.hs.wasTx = true)) :
    Vouched (joinTxStart psa o { c with granted := true })
      (g.heard psa o c .granted (joinTxStart psa o { c with granted := true })) := by
  by_cases hclose : c.hs.closing = true
  · obtain ⟨hshot, hwas⟩ := hbegins hclose
    obtain ⟨hphy, hev, hfin, f, hf, htype, hmsg, hidx, hhs⟩ := joinTxStart_aired hk hn hshot
    have hlast : c.hs.txType.isLast = true := ((Bool.and_eq_true _ _).mp hclose).2
    have htotal : c.hs.fragTotal = 1 := h.single hlast
    generalize joinTxStart psa o { c with granted := true } = d at hphy hev hfin hhs ⊢
    have hkd : d.ev.kind = .joinTx := by rw [hev, hk]
    have hrun : ¬ Ends c d := by
      rintro ⟨-, hnone⟩
      cases hkd.symm.trans hnone
    refine ⟨?_, ?_, ?_, ?_⟩
    · rw [hhs]
      exact h.single
    · rw [hkd]
      exact nofun
    · intro _ _ _
      refine ⟨hphy, f, (SlotLog.heard_air _).trans hf, ⟨?_, ?_, ?_⟩, ?_⟩
      · rw [hhs, htype]
      · rw [hhs, hmsg]
      · rw [hhs, hidx, htotal]
      · rw [hhs]
    · rw [hfin, (SlotLog.heard_running hrun).2, hhs]
      intro _ hj
      have hc : c.hs.completes = true := by
        rw [Hs.completes, hwas hj, Bool.and_true]
        exact hclose
      obtain ⟨hkind, f', hf', hends, hstart⟩ := h.sent hc hj
      exact ⟨hkind, f', hf', ⟨hends.type, hends.msg, hends.idx⟩, hstart⟩
  · obtain ⟨len, hhs⟩ := joinTxStart_hs (c := { c with granted := true }) psa o hn
    have hrides : Rides c (joinTxStart psa o { c with granted := true }) :=
      (joinTxStart_winds psa o _).rides.ungranted
    generalize joinTxStart psa o { c with granted := true } = d at hhs hrides ⊢
    apply of_not_completes
    · rw [hhs]
      exact h.single
    · intro hkd
      cases hrides with
      | on hev => rw [hev, hk] at hkd; cases hkd
      | done => cases hkd
    · rw [Bool.eq_false_iff]
      intro hc
      have hcd := (Hs.completes_closing hc).1
      rw [hhs] at hcd
      exact hclose hcd

/-- A frame of the slot has been sent. -/
theorem fragmentSent (h : Vouched c g) (hk : c.ev.kind = .joinTx) (hphy : c.phy = .tx)
    (airEndUs : ℕ) : Vouched (joinTxDone psa o c airEndUs)
      (g.heard psa o c (.txDone airEndUs) (joinTxDone psa o c airEndUs)) := by
  by_cases hc : c.hs.completes = true
  · obtain ⟨-, f, hf, hends, hlen⟩ := h.airs hc hk (by rw [hphy]; exact nofun)
    have hclose := (Hs.completes_closing hc).1
    have hlast : c.hs.txType.isLast = true := ((Bool.and_eq_true _ _).mp hclose).2
    have htotal : c.hs.fragTotal = 1 := h.single hlast
    have hdone : joinTxDone psa o c airEndUs = lgSchedEventDone (c.fragDone airEndUs) := by
      unfold joinTxDone
      dsimp only [Node.setHs]
      rw [if_neg (by omega)]
      rfl
    rw [hdone]
    have hend : Ends c (lgSchedEventDone (c.fragDone airEndUs)) := ⟨by rw [hk]; exact nofun, rfl⟩
    refine ⟨h.single, nofun, nofun, fun _ _ => ⟨hk, ?_⟩⟩
    refine ⟨{ f with startUs := airEndUs - airtimeUs f.pdu.length }, ?_,
      ⟨hends.type, hends.msg, hends.idx⟩, ?_⟩
    · rw [(SlotLog.heard_ended hend).2]
      change (if c.ev.kind = .joinTx then
        g.air.map fun f => { f with startUs := airEndUs - airtimeUs f.pdu.length }
        else g.sent) = _
      rw [if_pos hk, hf]
      rfl
    · rw [hlen]
      rfl
  · obtain ⟨len, hhs⟩ := joinTxDone_hs psa o c airEndUs
    have hrides := (joinTxDone_winds psa o c airEndUs).rides
    generalize joinTxDone psa o c airEndUs = d at hhs hrides ⊢
    apply of_not_completes
    · rw [hhs]
      exact h.single
    · intro hkd
      cases hrides with
      | on hev => rw [hev, hk] at hkd; cases hkd
      | done => cases hkd
    · rw [hhs]
      exact Bool.not_eq_true _ ▸ hc

theorem stopped (h : Vouched c g) (o : Oracle) : Vouched (lgStop o c) g := by
  have hhs := lgStop_hs o c
  have hfin := lgStop_finishKind o c
  by_cases hstarted : c.started = true
  · have hphy : (lgStop o c).phy = .idle := by
      unfold lgStop
      rw [if_neg (by simpa using hstarted)]
    refine ⟨?_, fun _ hbusy => absurd hphy hbusy, fun _ _ hbusy => absurd hphy hbusy, ?_⟩
    · rw [hhs]
      exact h.single
    · rw [hhs, hfin]
      exact h.sent
  · have hsame : lgStop o c = c := by
      unfold lgStop
      rw [if_pos (by simpa using hstarted)]
    rw [hsame]
    exact h

/-- An interrupt that is none of the handshake's. -/
theorem apart (h : Vouched c g) (hi : inp.isInterrupt = true) (he : Enabled c inp)
    (hrides : Rides c d) (hhs : d.hs = c.hs) (hk : Aloof c inp) :
    Vouched d (g.heard psa o c inp d) := by
  have hbusy : c.ev.kind.isJoin = true → c.phy ≠ .idle ∧ (c.ev.kind = .joinTx → c.phy = .rx) := by
    intro hj
    cases inp with
    | granted | refused => exact absurd (hk.symm.trans hj) Bool.false_ne_true
    | txDone airEndUs =>
      change c.phy = .tx at he
      exact ⟨by rw [he]; exact nofun, fun htx => absurd htx hk⟩
    | rxDone | rxFailed =>
      change c.phy = .rx at he
      exact ⟨by rw [he]; exact nofun, fun _ => he⟩
    | _ => cases hi
  -- A message slot on air does not receive.
  have hmsg : c.ev.kind = .joinTx → c.hs.completes = false := by
    intro htx
    obtain ⟨hphy, hrx⟩ := hbusy (by rw [htx]; rfl)
    rw [Bool.eq_false_iff]
    intro hc
    cases (h.airs hc htx hphy).1.symm.trans (hrx htx)
  have hlisten : c.ev.kind = .joinRx → c.hs.wasTx = false := fun hrx =>
    h.listens hrx (hbusy (by rw [hrx]; rfl)).1
  refine ⟨hhs ▸ h.single, ?_, ?_, ?_⟩
  · rw [hhs]
    intro hkd _
    cases hrides with
    | on hev => exact hlisten (hev ▸ hkd)
    | done => cases hkd
  · rw [hhs]
    intro hc hkd _
    cases hrides with
    | on hev => exact absurd ((hmsg (hev ▸ hkd)).symm.trans hc) Bool.false_ne_true
    | done => cases hkd
  · rw [hhs]
    intro hc hj
    cases hrides with
    | on hev hfin =>
      have hrun : ¬ Ends c d := fun hends => hends.1 (hev ▸ hends.2)
      rw [hfin.1] at hj ⊢
      rw [(SlotLog.heard_running hrun).2]
      exact h.sent hc hj
    | @done e hev =>
      change e.ev.kind.isJoin = true at hj
      rw [hev] at hj
      cases hkind : c.ev.kind <;> rw [hkind] at hj <;> cases hj
      · exact absurd ((hmsg hkind).symm.trans hc) Bool.false_ne_true
      · exact absurd (((Hs.not_completes (hlisten hkind))).symm.trans hc) Bool.false_ne_true

/-- An interrupt. -/
theorem heard (h : Vouched c g) (hi : inp.isInterrupt = true) (he : Enabled c inp)
    (hparty : c.party ≠ none) (hp : perform psa o c inp = some d)
    (hbegins : BeginsOnAir psa c o inp) : Vouched d (g.heard psa o c inp d) := by
  have hn : c.hs.n ≠ none := fun hn => hparty (Node.party_none hn)
  have hrides := perform_interrupt_rides hi hp
  cases perform_slotStep hi hp with
  | sends hk => exact h.began hk hn (hbegins hk hparty)
  | listens hk =>
    apply unsent
    · rw [joinRxStart_hs]
      exact h.single
    · rw [joinRxStart_hs]
  | refused hk => exact unsent h.single rfl
  | sent hk airEndUs => exact h.fragmentSent hk he airEndUs
  | aside hhs hk => exact h.apart hi he hrides hhs hk

/-- A frame that is handled. -/
theorem received (h : c.party ≠ none → Vouched c g) (hc : c.HsUnlinked)
    (hp : rxHandler psa o c = some d) {p : Fin cfg.maxNeighbors × Addr} (hparty : d.party = some p)
    (hstages : d.party = c.party → d.hs.outgoing ≠ c.hs.outgoing → d.hs.completes = true →
      ¬ c.SlotOpen) {g' : SlotLog} (hair : g'.air = g.air) (hfinal : g'.final = g.final) :
    Vouched d g' := by
  rcases (rxHandler_conduct hc hp).party hparty with ⟨hsame, hevol, hslot⟩ | ⟨-, hfresh⟩
  · have hv := h (by rw [hsame]; exact nofun)
    by_cases hout : d.hs.outgoing = c.hs.outgoing
    · have hstand : d.hs.stand = c.hs.stand := by
        cases hevol with
        | kept hstand | staged hstand => exact hstand
        | ended hnone =>
          rw [Node.party_none hnone] at hparty
          cases hparty
      exact hv.congr hstand hout hslot hair hfinal
    · cases hevol with
      | kept _ hkept => exact absurd hkept hout
      | ended hnone =>
        rw [Node.party_none hnone] at hparty
        cases hparty
      | staged hstand hsingle =>
        simp only [Hs.stand, Prod.mk.injEq] at hstand
        simp only [Node.slot, Prod.mk.injEq] at hslot
        have hclosed := hstages (hparty.trans hsame.symm) hout
        refine ⟨hsingle, ?_, fun hcd hk hphy => ?_, fun hcd hj => ?_⟩
        · rw [hslot.1, hslot.2.2.2.2, hstand.2.2.2.1]
          exact hv.listens
        · rw [hslot.1] at hk
          rw [hslot.2.2.2.2] at hphy
          exact absurd (.inl ⟨hk, hphy⟩) (hclosed hcd)
        · rw [hslot.2.1] at hj
          exact absurd (.inr hj) (hclosed hcd)
  · exact unsent hfresh.single hfresh.wasTx

end Vouched

/-- A step that meets the condition. -/
theorem SendsOff.vouched (hs : SendsOff psa c g o inp c') (hc : c.HsUnlinked)
    (h : c.party ≠ none → Vouched c g) (he : Enabled c inp)
    (hp : perform psa o c inp = some c') (hparty : c'.party ≠ none) :
    Vouched c' (g.after psa o c inp c') := by
  have hn : c'.hs.n ≠ none := fun hn => hparty (Node.party_none hn)
  obtain ⟨p, hsome⟩ := Option.ne_none_iff_exists'.mp hparty
  by_cases hrx : inp = .rxWork
  · subst hrx
    apply Vouched.received h hc hp hsome
    · intro hsame
      exact hs.stages hsame (hsame ▸ hparty)
    · unfold SlotLog.after
      dsimp only
      split <;> rfl
    · unfold SlotLog.after
      dsimp only
      split <;> rfl
  · have hsame := perform_party hc hrx hp hsome
    have hbefore : c.party ≠ none := by
      rw [hsame]
      exact nofun
    have hv := h hbefore
    unfold SlotLog.after
    dsimp only
    rw [if_pos (hsome.trans hsame.symm)]
    cases inp with
    | rxWork => exact absurd rfl hrx
    | schedWork => exact hv.picked hp hn
    | finishWork o' =>
      change schedFinish psa o o' c = some c' at hp
      rw [schedFinish_eq] at hp
      obtain ⟨d, hd, hpick⟩ := Option.bind_eq_some_iff.mp hp
      have hnd : d.hs.n ≠ none := by
        rw [← schedPick_about hpick hn]
        exact hn
      have hlog : g.noted psa o c (.finishWork o') c' = (g.settled c).picked psa o' d := by
        unfold SlotLog.noted
        simp only [hd]
      rw [hlog]
      exact (hv.settledNode hd hnd).picked hpick hn
    | start =>
      cases hp
      rcases lgStart_entries psa o c with heq | ⟨-, hnone⟩
      · change Vouched (lgStart psa o c) g
        rw [heq]
        exact hv
      · exact absurd hnone hn
    | stop =>
      cases hp
      exact hv.stopped o
    | tick | send | backhaulSet | tuningSet =>
      have hhs := perform_call_hs (.inl rfl) hp
      exact hv.congr (congrArg Hs.stand hhs) (congrArg Hs.outgoing hhs)
        (perform_call_slot rfl hp) rfl rfl
    | granted | refused | txDone | rxDone | rxFailed =>
      exact hv.heard rfl he hbefore hp hs.begins

/-! ## Links that come up -/

/-- The link comes up in the role of the router. -/
def Deed.Raises : Deed cfg → Prop
  | .establish _ _ true => True
  | _ => False

theorem Deed.Tame.not_raises {k : Deed cfg} (h : k.Tame) : ¬ k.Raises := by
  intro hr
  cases k with
  | establish i pp initiator =>
    cases initiator with
    | false => exact hr
    | true => exact h
  | _ => exact hr

theorem Deed.Mild.not_raises {k : Deed cfg} (h : k.Mild) : ¬ k.Raises := by
  intro hr
  cases k with
  | establish => exact h.2
  | _ => exact hr

theorem contextCalls_raise (o : Oracle) (c : Node cfg) (t : FrameType) (src : Addr)
    (airStartUs : ℕ) : ∀ k ∈ contextCalls o c t src airStartUs, ¬ k.deed.Raises := by
  intro k hk
  unfold contextCalls at hk
  split at hk
  · cases hk
  · split at hk
    · split at hk
      · exact (admitCalls_tame o c src k hk).not_raises
      · split at hk
        · exact (admitCalls_tame o c src k hk).not_raises
        · rw [List.mem_append, List.mem_singleton] at hk
          rcases hk with hk | rfl
          · exact (admitCalls_tame o c src k hk).not_raises
          · exact id
    · cases hk

theorem joinRxCalls_raise (psa : Psa) (o : Oracle) (c : Node cfg) (t : FrameType) (rx : RxRec) :
    ∀ k ∈ joinRxCalls psa o c t rx, ¬ k.deed.Raises := by
  intro k hk
  have hctx := contextCalls_raise o c t (getLe16 rx.pdu offSrc) rx.airStartUs k
  unfold joinRxCalls at hk
  dsimp only at hk
  split at hk
  · exact hctx hk
  · split at hk
    · exact hctx hk
    · rw [List.mem_append] at hk
      rcases hk with hk | hk
      · exact hctx hk
      · exact (messageCalls_tame psa o _ _ _ _ _ k hk).not_raises

theorem beaconCalls_raise (psa : Psa) (o : Oracle) (c : Node cfg) (rx : RxRec) :
    ∀ k ∈ beaconCalls psa o c rx, ¬ k.deed.Raises := by
  have hentry : ∀ (d : Node cfg) (b : Beacon) (src : Addr), ∀ k ∈ entryCalls o d b src rx.rssi,
      ¬ k.deed.Raises := by
    intro d b src k hk
    unfold entryCalls at hk
    split at hk
    · exact (admitCalls_tame o d src k hk).not_raises
    · cases hk
  have hanswer : ∀ (d : Node cfg) (i : Fin cfg.maxNeighbors) (b : Beacon) (src : Addr),
      ∀ k ∈ answerCalls o d i b src rx.rssi rx.airStartUs, ¬ k.deed.Raises := by
    intro d i b src k hk
    unfold answerCalls at hk
    split_ifs at hk
    · cases hk
    · cases hk
    · rw [List.mem_singleton] at hk
      subst hk
      exact id
  intro k hk
  unfold beaconCalls at hk
  split at hk
  · cases hk
  · split at hk
    · cases hk
    · dsimp only at hk
      split at hk
      · cases hk
      · unfold acceptCalls at hk
        dsimp only at hk
        split at hk
        · rw [List.mem_append] at hk
          rcases hk with hk | hk
          · split at hk
            · rw [List.mem_singleton] at hk
              subst hk
              exact id
            · cases hk
          · exact hentry _ _ _ k hk
        · simp only [List.mem_append] at hk
          rcases hk with (hk | hk) | hk
          · split at hk
            · rw [List.mem_singleton] at hk
              subst hk
              exact id
            · cases hk
          · exact hentry _ _ _ k hk
          · exact hanswer _ _ _ _ k hk

theorem rxCalls_raise (psa : Psa) (o : Oracle) (c : Node cfg) :
    ∀ k ∈ rxCalls psa o c, ¬ k.deed.Raises := by
  intro k hk
  unfold rxCalls at hk
  split at hk
  · cases hk
  · unfold dispatchCalls at hk
    split at hk
    · cases hk
    · split at hk
      · cases hk
      · split at hk
        · exact beaconCalls_raise psa o _ _ k hk
        · split at hk
          · exact joinRxCalls_raise psa o _ _ _ k hk
          · exact (linkRxCalls_tame psa o _ _ _ k hk).not_raises
        · exact (linkRxCalls_tame psa o _ _ _ k hk).not_raises

/-- At the end of a slot the link comes up if the message counts as sent. -/
theorem slotCalls_raise {k : Call cfg} (hk : k ∈ slotCalls o c) (hr : k.deed.Raises) :
    ∃ i, c.party = some (i, (c.neigh i).addr) ∧ c.hs.completes = true ∧
      k = ⟨o, routerUp c i, .establish i (LinkParams.decode c.hs.tx) true⟩ := by
  unfold slotCalls at hk
  split at hk
  · cases hk
  · next i hn =>
    split at hk
    · rw [List.mem_singleton] at hk
      subst hk
      exact absurd hr id
    · next hjoin =>
      rw [not_not] at hjoin
      split at hk
      · next hopen =>
        rw [List.mem_singleton] at hk
        exact ⟨i, Node.party_eq_some.mpr ⟨hn, hjoin, rfl⟩, (Hs.completes_eq _).trans hopen, hk⟩
      · dsimp only at hk
        split at hk
        · rw [List.mem_singleton] at hk
          subst hk
          exact absurd hr id
        · cases hk

theorem lateCalls_raise {cand : Candidate cfg} {k : Call cfg} (hk : k ∈ lateCalls o c cand)
    (hr : k.deed.Raises) : cand.kind.isJoin = true ∧ k ∈ slotCalls o c := by
  obtain ⟨kind, anchor, n, prio⟩ := cand
  unfold lateCalls at hk
  cases kind <;> rcases n with _ | i <;> dsimp only at hk
  case link.some =>
    rw [List.mem_singleton] at hk
    subst hk
    exact absurd hr id
  case joinTx.none | joinTx.some | joinRx.none | joinRx.some => exact ⟨rfl, hk⟩
  all_goals cases hk

/-- A run of `sched_pick` brings up a link only if it drops the slot that was to do so. -/
theorem pickCalls_raise {k : Call cfg} (hk : k ∈ pickCalls psa o c) (hr : k.deed.Raises) :
    dropsSlot psa o c = true ∧ c.hs.n ≠ none ∧ c.hs.completes = true := by
  unfold pickCalls at hk
  split at hk
  · cases hk
  · next hbusy =>
    split at hk
    · cases hk
    · next l e hc =>
      have he : e.hs = c.hs := candidates_hs hc
      split at hk
      · cases hk
      · next cand hsel =>
        have hs := (stageFor_hs psa o e cand).trans he
        dsimp only at hk
        split at hk
        · next hgo =>
          rw [List.mem_append] at hk
          rcases hk with hk | hk
          · exact absurd hr (stageCalls_mild psa o e cand k hk).not_raises
          · unfold requestCalls at hk
            dsimp only at hk
            split at hk
            · next hlate =>
              obtain ⟨hj, hslot⟩ := lateCalls_raise hk hr
              have hq := (eventPlan_quiet (stageFor psa o e cand).2 cand).hs.trans hs
              obtain ⟨i, hparty, hcomp, -⟩ := slotCalls_raise hslot hr
              rw [Node.party_eq_some, hq] at hparty
              rw [hq] at hcomp
              have hplan : planned psa o c = some (cand, (stageFor psa o e cand).2) := by
                rw [planned, if_neg hbusy]
                simp only [hc, hsel, hgo, if_true]
              refine ⟨?_, ?_, hcomp⟩
              · rw [dropsSlot, hplan, Option.any_some]
                dsimp only
                rw [hj, decide_eq_true hlate]
                rfl
              · rw [hparty.1]
                simp
            · cases hk
        · exact absurd hr (stageCalls_mild psa o e cand k hk).not_raises

/-- A link comes up in the role of the router only as a slot is settled, or dropped. -/
theorem calls_raise {k : Call cfg} (hk : k ∈ calls psa o c inp) (hr : k.deed.Raises) :
    (∃ o', inp = .finishWork o') ∧ c.finishKind.isJoin = true ∧ k ∈ slotCalls o c ∨
      ¬ PicksOpen psa c o inp := by
  have hdrop : ∀ {o : Oracle} {c : Node cfg}, k ∈ pickCalls psa o c → ¬ DropsOpen psa o c := by
    intro o c hk hopen
    obtain ⟨hdrop, hn, hcomp⟩ := pickCalls_raise hk hr
    exact absurd ((hopen hdrop hn).symm.trans hcomp) Bool.false_ne_true
  cases inp with
  | schedWork => exact .inr (hdrop hk)
  | finishWork o' =>
    change k ∈ finishCalls psa o o' c at hk
    unfold finishCalls at hk
    split at hk
    · cases hk
    · next d hd =>
      rw [List.mem_append] at hk
      rcases hk with hk | hk
      · left
        refine ⟨⟨o', rfl⟩, ?_⟩
        unfold settleCalls at hk
        cases hkind : c.finishKind <;> rw [hkind] at hk <;> dsimp only at hk
        case link =>
          split at hk
          · exact absurd hr (eventCalls_mild o c _ k hk).not_raises
          · cases hk
        case joinTx | joinRx => exact ⟨rfl, hk⟩
        case beacon | scan =>
          rw [List.mem_singleton] at hk
          subst hk
          exact absurd hr id
        all_goals cases hk
      · right
        intro hopen
        refine hdrop hk (hopen _ ?_)
        rw [Option.mem_def, LockGrid.settledNode, hd]
        rfl
  | rxWork => exact absurd hr (rxCalls_raise psa o c k hk)
  | refused =>
    change k ∈ failedCalls o c at hk
    unfold failedCalls at hk
    split at hk
    · exact absurd hr (missCalls_mild o c _ k hk).not_raises
    · cases hk
  | stop =>
    change k ∈ (if !c.started then [] else stopCalls o (List.finRange cfg.maxNeighbors) c) at hk
    split at hk
    · cases hk
    · exact absurd hr (stopCalls_mild o _ c k hk).not_raises
  | tick | backhaulSet | start =>
    change k ∈ [_] at hk
    rw [List.mem_singleton] at hk
    subst hk
    exact absurd hr id
  | granted | txDone | rxDone | rxFailed | send | tuningSet => cases hk

/-! ## Runs -/

theorem RunLogged.vouched (h : RunLogged psa ident (SendsOff psa) c g) (hparty : c.party ≠ none) :
    Vouched c g := by
  refine h.keeps (Q := fun c g => c.party ≠ none → Vouched c g) ?_ ?_ hparty
  · intro hparty
    exact absurd rfl hparty
  · intro c g o inp c' hc hv he hp hs hparty
    exact hs.vouched hc.hsUnlinked hv he hp hparty

/-- In every run whose steps meet the condition, a link comes up in the role of the router only as
a slot is settled in which the last fragment of the last message was reported sent, and its anchor
is measured from the start of that fragment. -/
theorem link_up_sent (h : RunLogged psa ident (SendsOff psa) c g) (hs : PicksOpen psa c o inp)
    {k : Call cfg} {pp : LinkParams} (hk : k ∈ calls psa o c inp)
    (hd : k.deed = .establish i pp true) :
    (∃ o', inp = .finishWork o') ∧ c.finishKind = .joinTx ∧ ∃ f, g.final = some f ∧
      (f.type = .joinAck ∨ f.type = .resumeRsp) ∧ f.msg = c.hs.tx ∧
      f.idx + 1 = c.hs.fragTotal ∧ pp = LinkParams.decode f.msg ∧
      (k.node.neigh i).sched.anchorUs = f.startUs + pp.anchorOffsetUs.toNat := by
  have hr : k.deed.Raises := by
    rw [hd]
    trivial
  rcases calls_raise hk hr with ⟨hinp, hj, hslot⟩ | hlate
  · obtain ⟨j, hparty, hcomp, rfl⟩ := slotCalls_raise hslot hr
    cases hd
    have hv := h.vouched (by rw [hparty]; exact nofun)
    obtain ⟨hkind, f, hf, hcloses, hstart⟩ := hv.sent hcomp hj
    have hlast : f.type.isLast = true := by
      rw [hcloses.type]
      exact ((Bool.and_eq_true _ _).mp hcomp).2
    refine ⟨hinp, hkind, f, hf, ?_, hcloses.msg, hcloses.idx, ?_, ?_⟩
    · cases ht : f.type <;> rw [ht] at hlast <;> simp_all [FrameType.isLast]
    · rw [hcloses.msg]
    · rw [hstart]
      simp [routerUp]
  · exact absurd hs hlate

instance (c : Node cfg) : Decidable c.SlotOpen := by
  unfold Node.SlotOpen
  infer_instance

instance (c : Node cfg) : Decidable (DropsOpen psa o c) := by
  unfold DropsOpen
  infer_instance

instance (c : Node cfg) (inp : Input) : Decidable (PicksOpen psa c o inp) := by
  rcases inp <;> unfold PicksOpen <;> infer_instance

instance (c : Node cfg) (inp : Input) : Decidable (BeginsOnAir psa c o inp) := by
  rcases inp <;> unfold BeginsOnAir <;> infer_instance

instance (c c' : Node cfg) (inp : Input) : Decidable (StagesApart c c' inp) := by
  rcases inp <;> unfold StagesApart <;> infer_instance

instance (c : Node cfg) (g : SlotLog) (inp : Input) (c' : Node cfg) :
    Decidable (SendsOff psa c g o inp c') :=
  decidable_of_iff (BeginsOnAir psa c o inp ∧ StagesApart c c' inp ∧ PicksOpen psa c o inp)
    ⟨fun ⟨hb, hs, hd⟩ => ⟨hb, hs, hd⟩, fun h => ⟨h.begins, h.stages, h.drops⟩⟩

/-- The call brings up the link with the first neighbour in the role of the router. -/
def raisesFirst (k : Call .default) : Bool :=
  match k.deed with
  | .establish i _ true => decide (i = firstNeigh)
  | _ => false

theorem deed_of_raisesFirst {k : Call .default} (h : raisesFirst k = true) :
    ∃ pp, k.deed = .establish firstNeigh pp true := by
  unfold raisesFirst at h
  split at h
  · next i pp hd =>
    rw [hd, of_decide_eq_true h]
    exact ⟨pp, rfl⟩
  · cases h

/-- Node 1 as a router has sent its `RESUME_RSP`. -/
theorem link_up_sent_resumed :
    ∃ (c : Node .default) (g : SlotLog) (k : Call .default) (f : Shot),
      RunLogged Psa.plain (plainIdent 1 1) (SendsOff Psa.plain) c g ∧
        k ∈ calls Psa.plain (calm 13) c (.finishWork (calm 14)) ∧ g.final = some f ∧
        (k.node.neigh firstNeigh).sched.anchorUs =
          f.startUs + (LinkParams.decode f.msg).anchorOffsetUs.toNat := by
  obtain ⟨c, g, h, hp⟩ := exists_runLogged (P := SendsOff Psa.plain) Psa.plain (plainIdent 1 1)
    (resumedRun.take 21) (fun c : Node .default => fun _ : SlotLog =>
      decide (PicksOpen Psa.plain c (calm 13) (.finishWork (calm 14))) &&
        (calls Psa.plain (calm 13) c (.finishWork (calm 14))).any raisesFirst)
    (by decide +kernel)
  rw [Bool.and_eq_true, decide_eq_true_eq, List.any_eq_true] at hp
  obtain ⟨hs, k, hk, hraise⟩ := hp
  obtain ⟨pp, hd⟩ := deed_of_raisesFirst hraise
  obtain ⟨-, -, f, hf, -, -, -, rfl, hanchor⟩ := link_up_sent h hs hk hd
  exact ⟨c, g, k, f, h, hk, hf, hanchor⟩

/-- An oracle with which nothing can be sealed. -/
def sealless (k : UInt8) : Oracle :=
  { calm k with ok := fun call => match call with
      | .encrypt => false
      | _ => true }

/-- The `RESUME_RSP` cannot be sealed when its slot begins. -/
def unsealedRun : List (Oracle × Input) := resumedRun.take 18 ++ [(sealless 11, Input.granted)]

/-- The link comes up although nothing was sent. -/
theorem link_up_unsent :
    ¬ ∀ (psa : Psa) (ident : Identity) (c : Node .default) (g : SlotLog) (o : Oracle)
      (inp : Input) (k : Call .default) (i : Fin Config.default.maxNeighbors) (pp : LinkParams),
      RunLogged psa ident (fun _ _ _ _ _ => True) c g → k ∈ calls psa o c inp →
        k.deed = .establish i pp true → ∃ f, g.final = some f ∧
          (k.node.neigh i).sched.anchorUs = f.startUs + pp.anchorOffsetUs.toNat := by
  intro h
  obtain ⟨c, g, hrun, hp⟩ := exists_runLogged (P := fun _ _ _ _ _ => True) Psa.plain
    (plainIdent 1 1) unsealedRun (fun c : Node .default => fun g : SlotLog =>
      decide (g.final = none) &&
        (calls Psa.plain (calm 13) c (.finishWork (calm 14))).any raisesFirst)
    (by decide +kernel)
  rw [Bool.and_eq_true, decide_eq_true_eq, List.any_eq_true] at hp
  obtain ⟨hnone, k, hk, hraise⟩ := hp
  obtain ⟨pp, hd⟩ := deed_of_raisesFirst hraise
  obtain ⟨f, hf, -⟩ := h _ _ c g _ _ k firstNeigh pp hrun hk hd
  rw [hnone] at hf
  cases hf

end LockGrid
