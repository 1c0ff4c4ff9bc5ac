import LockGrid.Entries
import LockGrid.Splicing

/-!
# What a step makes of the handshake

With whom a node is in a handshake, and what each step does to the bookkeeping of its slots. A
frame can take the handshake further or end it, a grant or a refusal marks the slot that is due,
the end of a slot leads to the next, and whatever else a step does leaves the context as it is.
-/
namespace LockGrid

variable {cfg : Config} {psa : Psa} {c c' d : Node cfg} {i : Fin cfg.maxNeighbors} {o : Oracle}

/-! ## With whom -/

/-- The entry and the address of the neighbour in a handshake with the node. -/
def Node.party (c : Node cfg) : Option (Fin cfg.maxNeighbors × Addr) :=
  match c.hs.n with
  | none => none
  | some i => if (c.neigh i).state = .joining then some (i, (c.neigh i).addr) else none

theorem Node.party_eq_some {a : Addr} : c.party = some (i, a) ↔
    c.hs.n = some i ∧ (c.neigh i).state = .joining ∧ (c.neigh i).addr = a := by
  unfold Node.party
  cases hn : c.hs.n with
  | none => simp
  | some j =>
    by_cases hj : (c.neigh j).state = .joining
    · simp only [hj, if_true, Option.some.injEq, Prod.mk.injEq]
      constructor
      · rintro ⟨rfl, haddr⟩
        exact ⟨rfl, hj, haddr⟩
      · rintro ⟨rfl, -, haddr⟩
        exact ⟨rfl, haddr⟩
    · simp only [hj, if_false, Option.some.injEq]
      constructor
      · intro h
        cases h
      · rintro ⟨rfl, hjoin, -⟩
        exact absurd hjoin hj

theorem Node.party_none (h : c.hs.n = none) : c.party = none := by
  rw [Node.party, h]

/-- No entry has come to be in a handshake. -/
def Unjoined (c c' : Node cfg) : Prop :=
  ∀ i, (c'.neigh i).state = .joining →
    (c.neigh i).state = .joining ∧ (c'.neigh i).addr = (c.neigh i).addr

namespace Unjoined

theorem refl (c : Node cfg) : Unjoined c c := fun _ h => ⟨h, rfl⟩

theorem trans {c'' : Node cfg} (h : Unjoined c c') (h' : Unjoined c' c'') : Unjoined c c'' := by
  intro i hi
  obtain ⟨hi', haddr'⟩ := h' i hi
  obtain ⟨hi'', haddr⟩ := h i hi'
  exact ⟨hi'', haddr'.trans haddr⟩

theorem of_neigh (h : c'.neigh = c.neigh) : Unjoined c c' := by
  intro i hi
  rw [h] at hi ⊢
  exact ⟨hi, rfl⟩

theorem of_placed (h : Placed c c') : Unjoined c c' := fun i hi =>
  ⟨(h.state i).symm.trans hi, h.addr i⟩

/-- A handshake that is still about the same entry is with the same neighbour. -/
theorem party (h : Unjoined c c') (hn : c'.hs.n = c.hs.n) {p : Fin cfg.maxNeighbors × Addr}
    (hp : c'.party = some p) : c.party = some p := by
  obtain ⟨i, a⟩ := p
  obtain ⟨habout, hjoin, haddr⟩ := Node.party_eq_some.mp hp
  obtain ⟨hjoin', haddr'⟩ := h i hjoin
  exact Node.party_eq_some.mpr ⟨hn.symm.trans habout, hjoin', haddr'.symm.trans haddr⟩

end Unjoined

/-- Only these deeds can bring an entry into a handshake. -/
def Deed.Opens : Deed cfg → Prop
  | .begin _ | .openContext .. => True
  | _ => False

theorem Deed.Plain.not_opens {k : Deed cfg} (h : k.Plain) : ¬ k.Opens := by
  cases k <;> simp_all [Deed.Plain, Deed.Opens]

theorem Call.result_unjoined {k : Call cfg} (hf : k.Fits) (h : k.result psa = some d)
    (ho : ¬ k.deed.Opens) : Unjoined k.node d := by
  by_cases hm : k.deed.Moves
  · obtain ⟨o, c, deed⟩ := k
    intro j hj
    cases deed with
    | alloc src =>
      cases h
      rcases alloc_entry c src j with ⟨hn, -⟩ | ⟨-, hn, -⟩ <;> rw [hn] at hj ⊢
      · exact ⟨hj, rfl⟩
      · cases hj
    | free i =>
      cases h
      rcases free_entry c i j with ⟨-, hn, -⟩ | ⟨-, hn, -⟩ <;> rw [hn] at hj ⊢
      · cases hj
      · exact ⟨hj, rfl⟩
    | fail i =>
      cases h
      by_cases hji : j = i
      · subst hji
        exact absurd hj (joinFail_ends c j).2
      · rw [(joinFail_engages c i).others j hji] at hj ⊢
        exact ⟨hj, rfl⟩
    | close =>
      cases h
      exact ⟨hj, rfl⟩
    | establish i pp initiator =>
      obtain ⟨e, he, rfl⟩ := Option.map_eq_some_iff.mp h
      obtain ⟨haddr, ⟨-, hl⟩ | ⟨-, hstate⟩⟩ := lgLinkEstablish_entry he j
      · cases hl.symm.trans hj
      · exact ⟨hstate.symm.trans hj, haddr⟩
    | down i =>
      cases h
      obtain ⟨haddr, hstate | ⟨-, -, hlost⟩⟩ := lgLinkDown_entry o c i j
      · exact ⟨hstate.symm.trans hj, haddr⟩
      · cases hlost.symm.trans hj
    | start =>
      cases h
      rcases lgStart_entries psa o c with heq | ⟨hfree, -⟩
      · change ((lgStart psa o c).neigh j).state = .joining at hj
        change _ ∧ ((lgStart psa o c).neigh j).addr = _
        rw [heq] at hj ⊢
        exact ⟨hj, rfl⟩
      · cases (hfree j).symm.trans hj
    | begin | openContext => exact absurd trivial ho
    | adv | ctrl | role | advance | subrate | stage | tick | uplink | halt => cases hm
  · exact .of_placed (Call.result_placed hm hf h)

theorem Does.unjoined {r : Fin cfg.maxNeighbors → Prop} {l : List (Call cfg)}
    (h : Does r psa c l c') (hl : ∀ k ∈ l, ¬ k.deed.Opens) : Unjoined c c' := by
  induction h with
  | rest hs => exact .of_placed hs.toSteady.placed
  | call hs hk hr _ ih =>
    have hcall := Call.result_unjoined hk hr (hl _ (by simp))
    exact ((Unjoined.of_placed hs.toSteady.placed).trans hcall).trans
      (ih fun k hmem => hl k (by simp [hmem]))

/-- Only a frame can bring an entry into a handshake. -/
theorem perform_unjoined {inp : Input} (hc : c.HsUnlinked) (hinp : inp ≠ .rxWork)
    (h : perform psa o c inp = some c') : Unjoined c c' :=
  (perform_does hc h).unjoined fun k hk => (calls_plain hinp k hk).not_opens

/-- No entry comes to be in a handshake, and no link comes up in the role of the router. -/
def Deed.Tame : Deed cfg → Prop
  | .begin _ | .openContext .. | .establish _ _ true => False
  | _ => True

theorem Deed.Tame.not_opens {k : Deed cfg} (h : k.Tame) : ¬ k.Opens := by
  intro ho
  cases k with
  | begin | openContext => exact h
  | _ => exact ho

theorem roomCalls_tame (o : Oracle) (c : Node cfg) (cost : ℕ) :
    ∀ k ∈ roomCalls o c cost, k.deed.Tame := by
  intro k hk
  unfold roomCalls at hk
  dsimp only at hk
  split at hk
  · cases hk
  · split at hk
    · rw [List.mem_singleton] at hk
      subst hk
      trivial
    · split at hk
      · simp only [List.mem_cons, List.not_mem_nil, or_false] at hk
        rcases hk with rfl | rfl <;> trivial
      · cases hk

theorem admitCalls_tame (o : Oracle) (c : Node cfg) (src : Addr) :
    ∀ k ∈ admitCalls o c src, k.deed.Tame := by
  intro k hk
  unfold admitCalls at hk
  split at hk
  · rw [List.mem_singleton] at hk
    subst hk
    trivial
  · simp only [List.cons_append, List.mem_cons, List.mem_append] at hk
    rcases hk with rfl | hk | hk
    · trivial
    · exact roomCalls_tame o _ _ k hk
    · split at hk
      · rw [List.mem_singleton] at hk
        subst hk
        trivial
      · cases hk

theorem linkRxCalls_tame (psa : Psa) (o : Oracle) (c : Node cfg) (h : FrameHdr) (pdu : Bytes) :
    ∀ k ∈ linkRxCalls psa o c h pdu, k.deed.Tame := by
  intro k hk
  unfold linkRxCalls at hk
  split at hk
  · cases hk
  · split at hk
    · cases hk
    · split at hk
      · cases hk
      · split at hk
        · unfold ctrlCalls at hk
          split_ifs at hk
          · cases hk
          all_goals
            rw [List.mem_singleton] at hk
            subst hk
            trivial
        · cases hk

theorem messageCalls_tame (psa : Psa) (o : Oracle) (c : Node cfg) (i : Fin cfg.maxNeighbors)
    (t : FrameType) (sec : Bool) (airStartUs : ℕ) :
    ∀ k ∈ messageCalls psa o c i t sec airStartUs, k.deed.Tame := by
  have hfail : ∀ (r : Except Err Unit × Node cfg), ∀ k ∈ failCalls o r i, k.deed.Tame := by
    rintro ⟨e | u, d⟩ k hk
    · rw [failCalls, List.mem_singleton] at hk
      subst hk
      trivial
    · cases hk
  have hjoiner : ∀ k ∈ joinerCalls o c i t sec airStartUs, k.deed.Tame := by
    intro k hk
    unfold joinerCalls at hk
    split at hk
    all_goals
      rw [List.mem_singleton] at hk
      subst hk
      trivial
  intro k hk
  unfold messageCalls at hk
  dsimp only at hk
  split at hk
  · exact hfail _ k hk
  · exact hfail _ k hk
  · exact hfail _ k hk
  · exact hjoiner k hk
  · exact hjoiner k hk
  · split at hk
    · rw [List.mem_singleton] at hk
      subst hk
      trivial
    · cases hk
  · cases hk

/-! ## Frames -/

/-- The bookkeeping of the slots, but for whether there was progress. -/
def Hs.stand (hs : Hs cfg) :
    Option (Fin cfg.maxNeighbors) × Bool × Bool × Bool × ℕ × Bool × ℕ × ℕ :=
  (hs.n, hs.joiner, hs.resuming, hs.wasTx, hs.idleSlots, hs.slotRefused, hs.lastTxAirStartUs,
    hs.lastTxLen)

/-- The messages with the parameters of the link, which the router sends last. -/
def FrameType.isLast : FrameType → Bool
  | .joinAck | .resumeRsp => true
  | _ => false

/-- The last message of a handshake is a single fragment. -/
def Hs.Single (hs : Hs cfg) : Prop := hs.txType.isLast = true → hs.fragTotal = 1

theorem Hs.Proper.single {hs : Hs cfg} {cert : Bytes} (h : hs.Proper cert) : hs.Single := by
  intro hlast
  have hshort : hs.tx.length ≤ fragCap cfg hs.txSecured := by
    refine le_trans ?_ (le_fragCap cfg _)
    rw [h.len]
    revert hlast
    cases hs.txType <;> simp [FrameType.isLast, FrameType.messageLen, linkParamsLen]
  rw [h.total, fragCount_one hshort]

/-- A handshake that has just begun. -/
structure Hs.Fresh (hs : Hs cfg) : Prop where
  idle : hs.idleSlots = 0
  refused : hs.slotRefused = false
  wasTx : hs.wasTx = false
  single : hs.Single

/-- What frames make of the context: it goes on with the message it has, or with the next, or it is
over. -/
inductive Evolves (hs hs' : Hs cfg) : Prop
  | kept (stand : hs'.stand = hs.stand) (outgoing : hs'.outgoing = hs.outgoing)
    (progressed : hs'.progressed = hs.progressed)
  | staged (stand : hs'.stand = hs.stand) (single : hs'.Single)
    (progressed : hs'.progressed = true)
  | ended (h : hs'.n = none)

theorem Evolves.of_eq {hs hs' : Hs cfg} (h : hs' = hs) : Evolves hs hs' := by
  rw [h]
  exact .kept rfl rfl rfl

theorem Hs.Single.congr {hs hs' : Hs cfg} (h : hs.Single) (he : hs'.outgoing = hs.outgoing) :
    hs'.Single := by
  simp only [Hs.outgoing, Prod.mk.injEq] at he
  unfold Hs.Single
  rw [he.2.1, he.2.2.2]
  exact h

/-- A handshake that has just begun is so after the frame that began it. -/
theorem Hs.Fresh.evolves {hs hs' : Hs cfg} (hf : hs.Fresh) (h : Evolves hs hs') :
    hs'.n = none ∨ hs'.Fresh := by
  cases h with
  | kept hstand hout _ =>
    simp only [Hs.stand, Prod.mk.injEq] at hstand
    obtain ⟨-, -, -, hwas, hidle, href, -, -⟩ := hstand
    exact .inr ⟨hidle.trans hf.idle, href.trans hf.refused, hwas.trans hf.wasTx,
      hf.single.congr hout⟩
  | staged hstand hsingle _ =>
    simp only [Hs.stand, Prod.mk.injEq] at hstand
    obtain ⟨-, -, -, hwas, hidle, href, -, -⟩ := hstand
    exact .inr ⟨hidle.trans hf.idle, href.trans hf.refused, hwas.trans hf.wasTx, hsingle⟩
  | ended h => exact .inl h

section

variable {msg : Bytes} {t : FrameType} {sec : Bool} {airStartUs : ℕ}

theorem handleJoinReq_type (h : handleJoinReq psa o c i msg = (.ok (), d)) :
    d.hs.txType = .joinRsp := by
  unfold handleJoinReq at h
  split at h
  · cases h
  · dsimp only at h
    split at h
    · cases h
    · split at h <;> cases h
      rfl

theorem handleJoinRsp_type (h : handleJoinRsp psa o c i msg = (.ok (), d)) :
    d.hs.txType = .joinCfm := by
  unfold handleJoinRsp at h
  split at h
  · cases h
  · dsimp only at h
    split at h
    · cases h
    · split at h <;> cases h
      rfl

theorem Hs.stand_of_core {hs hs' : Hs cfg} (h : hs'.core = hs.core) : hs'.stand = hs.stand :=
  (congrArg Hs.stand h :)

/-- A message that was handled takes the handshake further, unless that failed. -/
theorem settleStep_evolves {hs : Hs cfg} {r : Except Err Unit × Node cfg}
    (hcore : r.2.hs.core = hs.core) (h : r.1 = .ok () → r.2.hs.Single) :
    Evolves hs (settleStep r i).hs := by
  obtain ⟨e | ⟨⟩, d⟩ := r
  · exact .ended rfl
  · have hstand : d.hs.stand = hs.stand := Hs.stand_of_core hcore
    have hsingle : d.hs.Single := h rfl
    exact .staged hstand hsingle rfl

theorem handleMessage_evolves (h : handleMessage psa o c i t sec airStartUs = some d) :
    Evolves c.hs d.hs := by
  unfold handleMessage at h
  dsimp only at h
  cases t with
  | joinReq =>
    cases h
    apply settleStep_evolves (handleJoinReq_core psa o c i _)
    intro hok hlast
    rw [handleJoinReq_type (Prod.ext hok rfl)] at hlast
    cases hlast
  | joinRsp =>
    cases h
    apply settleStep_evolves (handleJoinRsp_core psa o c i _)
    intro hok hlast
    rw [handleJoinRsp_type (Prod.ext hok rfl)] at hlast
    cases hlast
  | joinCfm =>
    cases h
    apply settleStep_evolves (handleJoinCfm_core psa o c i _)
    intro hok
    have hproper := @handleJoinCfm_proper _ _ _ _ _ _ _ [] (Prod.ext hok rfl)
    exact hproper.single
  | joinAck | resumeRsp =>
    refine .ended ?_
    rw [finishJoiner_over h]
  | resumeReq =>
    have hcore := handleResumeReq_core psa o c i c.hs.rx.msg
    dsimp only at h
    split at h
    · cases h
      exact .ended rfl
    · next he =>
      rw [he] at hcore
      cases h
      apply settleStep_evolves hcore
      intro _
      have hproper := @handleResumeReq_proper _ _ _ _ _ _ _ [] he
      exact hproper.single
  | beacon | linkReq | linkRsp | data | ack | ctrl =>
    cases h
    exact .of_eq rfl

end

theorem Evolves.trans {hs hs' hs'' : Hs cfg} (h : Evolves hs hs') (h' : Evolves hs' hs'') :
    Evolves hs hs'' := by
  cases h with
  | kept hstand hout hprog =>
    cases h' with
    | kept hstand' hout' hprog' =>
      exact .kept (hstand'.trans hstand) (hout'.trans hout) (hprog'.trans hprog)
    | staged hstand' hsingle hprog' => exact .staged (hstand'.trans hstand) hsingle hprog'
    | ended hn => exact .ended hn
  | staged hstand hsingle hprog =>
    cases h' with
    | kept hstand' hout' hprog' =>
      exact .staged (hstand'.trans hstand) (hsingle.congr hout') (hprog'.trans hprog)
    | staged hstand' hsingle' hprog' => exact .staged (hstand'.trans hstand) hsingle' hprog'
    | ended hn => exact .ended hn
  | ended hn =>
    cases h' with
    | kept hstand' | staged hstand' =>
      have hn' : hs''.n = hs'.n := congrArg Prod.fst hstand'
      exact .ended (hn'.trans hn)
    | ended hn' => exact .ended hn'

theorem addFragment_evolves (c : Node cfg) (t : FrameType) (sec : Bool) (key : Option Bytes)
    (pdu : Bytes) : Evolves c.hs (addFragment c t sec key pdu).2.hs := by
  unfold addFragment
  dsimp only
  split_ifs <;> exact .kept rfl rfl rfl

theorem reassemble_evolves (psa : Psa) (o : Oracle) (c : Node cfg) (i : Fin cfg.maxNeighbors)
    (t : FrameType) (pdu : Bytes) : Evolves c.hs (reassemble psa o c i t pdu).2.hs := by
  have hdec := lgSecDecrypt_hs psa (o.ok .decrypt) c i pdu
  unfold reassemble
  split
  · split <;> next he =>
      rw [he] at hdec
      first
        | exact .of_eq hdec
        | exact (Evolves.of_eq hdec).trans (addFragment_evolves _ t true _ _)
  · exact addFragment_evolves c t false none pdu

/-- The context a frame belongs to is there, or it is opened, or there is none. -/
theorem contextFor_fresh (psa : Psa) (o : Oracle) (c : Node cfg) (t : FrameType) (src : Addr)
    (airStartUs : ℕ) :
    (contextFor o c t src airStartUs).2 = c ∨ c.hs.n = none ∧
      ((contextFor o c t src airStartUs).1 = none ∧
          (contextFor o c t src airStartUs).2.hs.n = none ∨
        (contextFor o c t src airStartUs).2.hs.Fresh) := by
  have hadmit := congrArg Hs.n (admitJoiner_rest psa o c src).1
  unfold contextFor
  split
  · exact .inl rfl
  · next hnone =>
    split
    · right
      refine ⟨hnone, ?_⟩
      split <;> next he =>
        rw [he] at hadmit
        first
          | exact .inl ⟨rfl, hadmit.trans hnone⟩
          | split
            · exact .inl ⟨rfl, hadmit.trans hnone⟩
            · exact .inr ⟨rfl, rfl, rfl, nofun⟩
    · exact .inl rfl

/-- What handling a frame makes of the handshake: it goes on, or is over, or another one begins. -/
inductive Conduct (c c' : Node cfg) : Prop
  | on (evolves : Evolves c.hs c'.hs) (unjoined : Unjoined c c') (slot : c'.slot = c.slot)
  | ended (h : c'.hs.n = none)
  | begun (fresh : c'.hs.Fresh) (other : ∀ p, c'.party = some p → c.party ≠ some p)

theorem Conduct.refl (c : Node cfg) : Conduct c c := .on (.of_eq rfl) (.refl c) rfl

/-- What a frame does once its context has been found. -/
theorem lgJoinRxPdu_evolves {t : FrameType} {rx : RxRec} (h : lgJoinRxPdu psa o c t rx = some d) :
    Evolves (contextFor o c t (getLe16 rx.pdu offSrc) rx.airStartUs).2.hs d.hs := by
  unfold lgJoinRxPdu at h
  split at h
  · next e he =>
    rw [he]
    cases h
    exact .of_eq rfl
  · next j e he =>
    rw [he]
    have hre := reassemble_evolves psa o (lgNeighRxRssi e j rx.rssi) j t rx.pdu
    rw [(lgNeighRxRssi_quiet e j rx.rssi).hs] at hre
    split at h <;> next hr =>
      rw [hr] at hre
      first
        | cases h
          exact hre
        | exact hre.trans (handleMessage_evolves h)

theorem joinRxCalls_tame {t : FrameType} {rx : RxRec} (hn : c.hs.n ≠ none) :
    ∀ k ∈ joinRxCalls psa o c t rx, k.deed.Tame := by
  intro k hk
  obtain ⟨j, hj⟩ := Option.ne_none_iff_exists'.mp hn
  have hctx : contextCalls o c t (getLe16 rx.pdu offSrc) rx.airStartUs = [] := by
    rw [contextCalls, hj]
  unfold joinRxCalls at hk
  simp only [hctx, List.nil_append] at hk
  split at hk
  · cases hk
  · split at hk
    · cases hk
    · exact messageCalls_tame psa o _ _ _ _ _ k hk

theorem Evolves.over_of_none {hs hs' : Hs cfg} (h : Evolves hs hs') (hn : hs.n = none) :
    hs'.n = none := by
  cases h with
  | kept hstand | staged hstand =>
    have hn' : hs'.n = hs.n := congrArg Prod.fst hstand
    exact hn'.trans hn
  | ended h => exact h

theorem lgJoinRxPdu_conduct {t : FrameType} {rx : RxRec} (hc : c.HsUnlinked)
    (h : lgJoinRxPdu psa o c t rx = some d) : Conduct c d := by
  have hevol := lgJoinRxPdu_evolves h
  rcases contextFor_fresh psa o c t (getLe16 rx.pdu offSrc) rx.airStartUs with
    hsame | ⟨hnone, ⟨-, hn⟩ | hfresh⟩
  · rw [hsame] at hevol
    by_cases hn : c.hs.n = none
    · exact .ended (hevol.over_of_none hn)
    · have hdoes := lgJoinRxPdu_does (r := fun _ => False) hc h
      exact .on hevol (hdoes.unjoined fun k hk => (joinRxCalls_tame hn k hk).not_opens)
        (lgJoinRxPdu_aside h).slot
  · exact .ended (hevol.over_of_none hn)
  · rcases hfresh.evolves hevol with hn | hfresh
    · exact .ended hn
    · refine .begun hfresh fun p _ => ?_
      rw [Node.party_none hnone]
      exact nofun

/-- `lg_join_start` leaves the context alone, or begins a handshake, or gives it up at once. -/
theorem lgJoinStart_fresh (o : Oracle) (c : Node cfg) (i : Fin cfg.maxNeighbors) :
    (∃ e, (lgJoinStart o c i).1 = .error e) ∧ (lgJoinStart o c i).2.hs = c.hs ∧
        Unjoined c (lgJoinStart o c i).2 ∨
      (lgJoinStart o c i).2.hs.n = none ∨
      (lgJoinStart o c i).2.hs.n = some i ∧ (lgJoinStart o c i).2.hs.Fresh := by
  have hset : ∀ j, Unjoined c (c.setJoin i j) := by
    intro j k hk
    by_cases hki : k = i
    · subst hki
      simpa [Node.setJoin] using hk
    · simpa [Node.setJoin, hki] using hk
  unfold lgJoinStart
  dsimp only
  split
  · exact .inl ⟨⟨_, rfl⟩, rfl, .refl c⟩
  · split
    · exact .inl ⟨⟨_, rfl⟩, rfl, .refl c⟩
    · split
      · exact .inl ⟨⟨_, rfl⟩, rfl, .refl c⟩
      · split
        · exact .inl ⟨⟨_, rfl⟩, rfl, hset _⟩
        · split
          · exact .inl ⟨⟨_, rfl⟩, rfl, hset _⟩
          · right
            split
            · exact .inl rfl
            · next e he =>
              right
              change e.hs.n = some i ∧ e.hs.Fresh
              split at he
              · unfold buildResumeReq at he
                split at he <;> cases he
                exact ⟨rfl, rfl, rfl, rfl, fun h => by cases h⟩
              · unfold buildJoinReq at he
                dsimp only at he
                split at he
                · cases he
                · split at he <;> cases he
                  exact ⟨rfl, rfl, rfl, rfl, fun h => by cases h⟩

theorem aimAt_done (o : Oracle) (c : Node cfg) (i : Fin cfg.maxNeighbors) (b : Beacon)
    (airStartUs : ℕ) :
    (aimAt o c i b airStartUs).hs = (lgJoinStart o (aimed o c i b airStartUs) i).2.hs ∧
      (aimAt o c i b airStartUs).neigh =
        (lgJoinStart o (aimed o c i b airStartUs) i).2.neigh := by
  rcases aimAt_cases o c i b airStartUs with ⟨-, he⟩ | he
  · rw [he]
    unfold lgSchedAbort
    split <;> exact ⟨rfl, rfl⟩
  · rw [he]
    exact ⟨rfl, rfl⟩

theorem aimAt_addr (o : Oracle) {c : Node cfg} {i : Fin cfg.maxNeighbors} (b : Beacon)
    (airStartUs : ℕ) (hf : (c.neigh i).state ≠ .free) (hl : (c.neigh i).state ≠ .linked) :
    ((aimAt o c i b airStartUs).neigh i).addr = (c.neigh i).addr := by
  have haim : Still (fun _ => False) c (aimed o c i b airStartUs) := .setUnlinked c i hl rfl rfl
  have hentry := (lgJoinStart_embarks (i := i) (c := aimed o c i b airStartUs) o
    (by rw [haim.state]; exact hf) (by rw [haim.state]; exact hl)).addr
  rw [(aimAt_done o c i b airStartUs).2]
  exact hentry.trans (haim.addr i)

theorem aimAt_fresh (o : Oracle) {c : Node cfg} {i : Fin cfg.maxNeighbors} (b : Beacon)
    (airStartUs : ℕ) (hf : (c.neigh i).state ≠ .free) (hl : (c.neigh i).state ≠ .linked) :
    (aimAt o c i b airStartUs).hs = c.hs ∧ Unjoined c (aimAt o c i b airStartUs) ∧
        (aimAt o c i b airStartUs).slot = c.slot ∨
      (aimAt o c i b airStartUs).hs.n = none ∨
      (aimAt o c i b airStartUs).hs.n = some i ∧ (aimAt o c i b airStartUs).hs.Fresh ∧
        ((aimAt o c i b airStartUs).neigh i).addr = (c.neigh i).addr := by
  have hdone := aimAt_done o c i b airStartUs
  have haim : Still (fun _ => False) c (aimed o c i b airStartUs) := .setUnlinked c i hl rfl rfl
  have hentry := aimAt_addr o b airStartUs hf hl
  rcases lgJoinStart_fresh o (aimed o c i b airStartUs) i with
    ⟨⟨e, he⟩, hhs, hun⟩ | hn | ⟨hn, hfresh⟩
  · have hsame : aimAt o c i b airStartUs = (lgJoinStart o (aimed o c i b airStartUs) i).2 := by
      rcases aimAt_cases o c i b airStartUs with ⟨hok, -⟩ | hsame
      · rw [he] at hok
        cases hok
      · exact hsame
    have haside := (setJoin_aside c i _).trans (lgJoinStart_aside o (aimed o c i b airStartUs) i)
    rw [hsame]
    exact .inl ⟨hhs, (Unjoined.of_placed haim.toSteady.placed).trans hun, haside.slot⟩
  · rw [hdone.1]
    exact .inr (.inl hn)
  · rw [hdone.1]
    exact .inr (.inr ⟨hn, hfresh, hentry⟩)

/-- The entry a beacon's sender is given bears its address, and is not the entry of a handshake
that was already on with it. -/
theorem beaconEntry_named {b : Beacon} {src : Addr} {rssi : ℤ}
    (h : beaconEntry o c b src rssi = (some i, d)) (hsrc : src ≠ addrInvalid) :
    (d.neigh i).addr = src ∧ ((c.neigh i).state ≠ .free → (c.neigh i).addr = src → d = c) := by
  unfold beaconEntry at h
  split at h
  · next j hfind =>
    cases h
    exact ⟨(lgNeighFind_spec hfind).2.1, fun _ _ => rfl⟩
  · next hfind =>
    split at h
    · exact ⟨admitJoiner_addr h, fun hused haddr =>
        absurd haddr (lgNeighFind_none hfind hsrc i hused)⟩
    · cases h

theorem beaconEntry_unjoined (psa : Psa) (o : Oracle) (c : Node cfg) (b : Beacon) (src : Addr)
    (rssi : ℤ) : Unjoined c (beaconEntry o c b src rssi).2 := by
  refine (beaconEntry_does (r := fun _ => False) psa o c b src rssi).unjoined fun k hk => ?_
  unfold entryCalls at hk
  split at hk
  · exact (admitCalls_tame o c src k hk).not_opens
  · cases hk

/-- A handshake that begins with the sender of a beacon, while none is on with it, is a new one. -/
theorem beaconEntry_other {b : Beacon} {src : Addr} {rssi : ℤ} (hsrc : src ≠ addrInvalid)
    (h : beaconEntry o (noteBeacon o c b src) b src rssi = (some i, d))
    (hstate : (d.neigh i).state ≠ .joining) (hn : c'.hs.n = some i)
    (hname : (c'.neigh i).addr = (d.neigh i).addr) :
    ∀ p, c'.party = some p → c.party ≠ some p := by
  have hq := noteBeacon_quiet o c b src
  obtain ⟨haddr, hsame⟩ := beaconEntry_named h hsrc
  rintro ⟨j, a⟩ hp hbefore
  -- An entry that was in a handshake under this address is still the sender's.
  obtain ⟨habout, -, ha⟩ := Node.party_eq_some.mp hp
  obtain ⟨-, hjoin, ha'⟩ := Node.party_eq_some.mp hbefore
  cases hn.symm.trans habout
  rw [haddr] at hname
  have hc : d = noteBeacon o c b src := by
    apply hsame
    · rw [hq.neigh, hjoin]
      exact nofun
    · rw [hq.neigh, ha', ← ha, hname]
  apply hstate
  rw [hc, hq.neigh, hjoin]

theorem acceptBeacon_conduct (psa : Psa) (o : Oracle) (c : Node cfg) (b : Beacon) {src : Addr}
    (rssi : ℤ) (airStartUs : ℕ) (hsrc : src ≠ addrInvalid) :
    Conduct c (acceptBeacon o c b src rssi airStartUs) := by
  have hq := noteBeacon_quiet o c b src
  have hhs := (beaconEntry_hs psa o (noteBeacon o c b src) b src rssi).trans hq.hs
  have hun := (Unjoined.of_neigh hq.neigh).trans
    (beaconEntry_unjoined psa o (noteBeacon o c b src) b src rssi)
  have hside := (Aside.of_quiet hq).trans (beaconEntry_aside o (noteBeacon o c b src) b src rssi)
  unfold acceptBeacon
  dsimp only
  split
  · next d he =>
    rw [he] at hhs hun hside
    exact .on (.of_eq hhs) hun hside.slot
  · next i d he =>
    rw [he] at hhs hun hside
    have hused := beaconEntry_occupied he
    have hs := noteSender_quiet d i b rssi airStartUs
    have hhs' := hs.hs.trans hhs
    have hun' : Unjoined c (noteSender d i b rssi airStartUs) := hun.trans (.of_neigh hs.neigh)
    have hslot := (hside.trans (.of_quiet hs)).slot
    have hon : Conduct c (noteSender d i b rssi airStartUs) := .on (.of_eq hhs') hun' hslot
    split
    · exact hon
    · next hstate =>
      rw [not_or] at hstate
      split
      · exact hon
      · rcases aimAt_fresh o b airStartUs (by rw [hs.neigh]; exact hused) hstate.1 with
          ⟨hsame', hjoined, hslot'⟩ | hn | ⟨hn, hfresh, hname⟩
        · exact .on (.of_eq (hsame'.trans hhs')) (hun'.trans hjoined) (hslot'.trans hslot)
        · exact .ended hn
        · rw [hs.neigh] at hstate hname
          exact .begun hfresh (beaconEntry_other hsrc he hstate.2 hn hname)

theorem dispatch_conduct {rx : RxRec} (hc : c.HsUnlinked) (h : dispatch psa o c rx = some d) :
    Conduct c d := by
  have hlink : ∀ hdr, Conduct c (dispatchLink psa o c hdr rx.pdu) := by
    intro hdr
    have hdoes := dispatchLink_does (r := fun _ => False) psa o c hdr rx.pdu
    exact .on (.of_eq (dispatchLink_hs psa o c hdr rx.pdu))
      (hdoes.unjoined fun k hk => (linkRxCalls_tame psa o c hdr rx.pdu k hk).not_opens)
      (dispatchLink_aside psa o c hdr rx.pdu).slot
  unfold dispatch at h
  split at h
  · cases h
    exact .refl c
  · next hdr _ =>
    split at h
    · cases h
      exact .refl c
    · split at h
      · cases h
        unfold lgDiscBeaconRx
        split
        · exact .refl c
        · split
          · exact .refl c
          · dsimp only
            split
            · exact .refl c
            · next hvalid =>
              rw [not_or, not_or] at hvalid
              exact acceptBeacon_conduct psa o c _ _ _ hvalid.2.1
      · split at h
        · exact lgJoinRxPdu_conduct hc h
        · cases h
          exact hlink hdr
      · cases h
        exact hlink hdr

theorem rxHandler_conduct (hc : c.HsUnlinked) (h : rxHandler psa o c = some d) :
    Conduct c d := by
  unfold rxHandler at h
  split at h
  · cases h
    exact .refl c
  · next rx rest _ =>
    have hrest := dispatch_conduct (c := { c with rxRing := rest }) hc h
    cases hrest with
    | on hevol hun hslot => exact .on hevol hun hslot
    | ended hn => exact .ended hn
    | begun hfresh hother => exact .begun hfresh hother

/-- After a frame the handshake is with the same neighbour, or has just begun. -/
theorem Conduct.party (h : Conduct c c') {p : Fin cfg.maxNeighbors × Addr}
    (hp : c'.party = some p) :
    c.party = some p ∧ Evolves c.hs c'.hs ∧ c'.slot = c.slot ∨
      c.party ≠ some p ∧ c'.hs.Fresh := by
  have habout : c'.hs.n ≠ none := fun hn => by rw [Node.party_none hn] at hp; cases hp
  cases h with
  | on hevol hun hslot =>
    have hn : c'.hs.n = c.hs.n := by
      cases hevol with
      | kept hstand | staged hstand => exact congrArg Prod.fst hstand
      | ended hn => exact absurd hn habout
    exact .inl ⟨hun.party hn hp, hevol, hslot⟩
  | ended hn => exact absurd hn habout
  | begun hfresh hother => exact .inr ⟨hother p hp, hfresh⟩

/-! ## Work beside the handshake -/

theorem lgLinkEventMiss_hs (o : Oracle) (c : Node cfg) (i : Fin cfg.maxNeighbors) :
    (lgLinkEventMiss o c i).hs = c.hs := by
  have hq := (lgChanResult_quiet (lgNeighTxResult c i false)
    (lgLinkNextChan (c.neigh i).sched) false).hs
  unfold lgLinkEventMiss
  dsimp only
  split
  · exact (lgLinkDown_hs o _ i).trans hq
  · exact hq

theorem lgLinkStageTx_hs (psa : Psa) (ok : Bool) (c : Node cfg) (i : Fin cfg.maxNeighbors) :
    (lgLinkStageTx psa ok c i).2.hs = c.hs := by
  rcases lgLinkStageTx_cases psa ok c i with he | ⟨t, staged, d, ft, more, body, -, hq, he⟩ <;>
    rw [he]
  refine Eq.trans ?_ hq.hs
  unfold stageSeal
  dsimp only
  generalize lgFrameHdrPut _ _ _ _ _ ++ body = pdu
  generalize ({ d.neigh i with tx := _ } : Neigh) = n
  have henc := lgSecEncrypt_hs psa ok (d.setNeigh i n) i pdu hdrLenSec
  split <;> next he =>
    rw [he] at henc
    exact henc

theorem settleOutcome_hs (o : Oracle) (c : Node cfg) (i : Fin cfg.maxNeighbors) :
    (settleOutcome o c i).hs = c.hs := by
  have hq := (lgTxqPeek_quiet c (c.neigh i).addr).hs
  unfold settleOutcome
  dsimp only
  split
  · exact lgLinkEventMiss_hs o c i
  · split
    · split <;> exact hq
    · rfl

theorem subrateUpdateLink_hs (c : Node cfg) (i : Fin cfg.maxNeighbors) :
    (subrateUpdateLink c i).hs = c.hs := by
  have hq := (lgTxqPeek_quiet c (c.neigh i).addr).hs
  unfold subrateUpdateLink
  dsimp only
  split
  · rfl
  · exact hq

theorem lgLinkEventFinish_hs (psa : Psa) (o : Oracle) (c : Node cfg)
    (i : Fin cfg.maxNeighbors) : (lgLinkEventFinish psa o c i).hs = c.hs := by
  have ho := settleOutcome_hs o c i
  unfold lgLinkEventFinish
  dsimp only
  split
  · exact ho
  · exact (lgLinkStageTx_hs psa _ _ i).trans ((subrateUpdateLink_hs _ i).trans ho)

theorem lgSend_hs (c : Node cfg) (dst : Addr) (port : UInt8) (payload : Bytes) (flags : UInt8) :
    (lgSend c dst port payload flags).2.hs = c.hs := by
  unfold lgSend
  dsimp only
  split <;> next d he =>
    have hf := (congrArg (fun r => r.2.hs) he).symm.trans (lgSendForward_hs _ _)
    first
      | exact hf
      | split
        · split
          · exact (lgSchedExpedite_hs _ _).trans hf
          · exact hf
        · exact hf

theorem lgStop_hs (o : Oracle) (c : Node cfg) : (lgStop o c).hs = c.hs := by
  have hfold : ∀ (l : List (Fin cfg.maxNeighbors)) (c : Node cfg),
      (stopLinks o l c).hs = c.hs := by
    intro l
    induction l with
    | nil => exact fun c => rfl
    | cons i l ih => exact fun c => (ih _).trans (lgLinkDown_hs _ c i)
  unfold lgStop
  split
  · rfl
  · exact hfold _ c

/-! ## The end of a slot -/

def EvKind.isJoin : EvKind → Bool
  | .joinTx | .joinRx => true
  | _ => false

/-- A router whose last message counts as sent: the end of the slot brings up the link. -/
def Hs.completes (hs : Hs cfg) : Bool := !hs.joiner && hs.wasTx && hs.txType.isLast

theorem Hs.completes_eq (hs : Hs cfg) : hs.completes =
    (!hs.joiner && hs.wasTx && (hs.txType = .joinAck || hs.txType = .resumeRsp)) := by
  unfold Hs.completes
  congr 1
  cases hs.txType <;> rfl

/-- The end of a slot after which the handshake goes on. -/
structure Node.GoesOn (c : Node cfg) : Prop where
  open_ : c.hs.completes = false
  budget : (nextSlot c.nowUs c.hs).idleSlots < idleLimit c.hs.resuming

theorem lgJoinEventFinish_next (h : lgJoinEventFinish o c = some d) (hn : d.hs.n ≠ none) :
    c.GoesOn ∧ d.hs = nextSlot c.nowUs c.hs := by
  unfold lgJoinEventFinish at h
  split at h
  · next hnone =>
    cases h
    exact absurd hnone hn
  · split at h
    · cases h
      exact absurd rfl hn
    · split at h
      · obtain ⟨e, -, rfl⟩ := Option.map_eq_some_iff.mp h
        exact absurd rfl hn
      · next hopen =>
        rw [← Hs.completes_eq, Bool.not_eq_true] at hopen
        dsimp only at h
        split at h
        · cases h
          exact absurd rfl hn
        · next hmore =>
          cases h
          rw [not_or] at hmore
          exact ⟨⟨hopen, Nat.not_le.mp hmore.1⟩, rfl⟩

/-- What the settlement of an event makes of the handshake. -/
theorem settle_hs (h : settle psa o c = some d) :
    if c.finishKind.isJoin then lgJoinEventFinish o c = some d else d.hs = c.hs := by
  unfold settle at h
  cases hk : c.finishKind <;> rw [hk] at h <;> dsimp only at h
  case link =>
    split at h
    · cases h
      exact lgLinkEventFinish_hs psa o c _
    · cases h
      rfl
  case beacon =>
    cases h
    exact ((lgDiscBeaconFinish_quiet psa o c).trans (lgRoleEvaluate_quiet o _)).hs
  case scan =>
    cases h
    exact ((lgDiscScanFinish_quiet o c).trans (lgRoleEvaluate_quiet o _)).hs
  case joinTx | joinRx => exact h
  case chanEval =>
    cases h
    have hq := (lgChanReevaluate_quiet c).hs
    change (finishChanEval c).hs = c.hs
    unfold finishChanEval
    dsimp only
    split <;> exact hq
  case track | none =>
    cases h
    rfl

/-! ## The scheduler -/

/-- What a run of `sched_pick` plans: the candidate, and the node as it is then. -/
def planned (psa : Psa) (o : Oracle) (c : Node cfg) : Option (Candidate cfg × Node cfg) :=
  if !c.running || c.ev.kind ≠ .none || c.granted || c.phy ≠ .idle then none
  else match candidates c with
  | none => none
  | some (l, c) =>
    match selectCandidate l with
    | none => none
    | some cand =>
      let s := stageFor psa o c cand
      if s.1 then some (cand, s.2) else none

/-- A run of `sched_pick` comes too late to a slot of a handshake and drops it. -/
def dropsSlot (psa : Psa) (o : Oracle) (c : Node cfg) : Bool :=
  (planned psa o c).any fun (cand, d) => cand.kind.isJoin &&
    decide ((eventPlan d cand).1.atUs < d.nowUs + schedMinHorizonUs)

theorem candidates_hs {r : List (Candidate cfg) × Node cfg} (h : candidates c = some r) :
    r.2.hs = c.hs := by
  have hone : ∀ {c : Node cfg} {l i r}, neighCandidate c l i = some r → r.2.hs = c.hs := by
    intro c l i r h
    unfold neighCandidate at h
    dsimp only at h
    split at h
    · obtain ⟨r', -, rfl⟩ := Option.map_eq_some_iff.mp h
      rfl
    · cases h
      rfl
    · cases h
      rfl
  have hfold : ∀ (l : List (Fin cfg.maxNeighbors)) (st r : List (Candidate cfg) × Node cfg),
      l.foldlM (fun st i => neighCandidate st.2 st.1 i) st = some r → r.2.hs = st.2.hs := by
    intro l
    induction l with
    | nil =>
      intro st r h
      cases h
      rfl
    | cons i l ih =>
      intro st r h
      rw [List.foldlM_cons] at h
      obtain ⟨st', hst, h⟩ := Option.bind_eq_some_iff.mp h
      exact (ih st' r h).trans (hone hst)
  obtain ⟨⟨l, d⟩, hd, rfl⟩ := Option.map_eq_some_iff.mp h
  exact (dropStaleTracks_quiet d).hs.trans (hfold _ ([], c) (l, d) hd)

theorem stageFor_hs (psa : Psa) (o : Oracle) (c : Node cfg) (cand : Candidate cfg) :
    (stageFor psa o c cand).2.hs = c.hs := by
  unfold stageFor
  split
  · next i _ _ =>
    have hs := lgLinkStageTx_hs psa (o.ok .encrypt) c i
    split
    · rfl
    · dsimp only
      split <;> exact hs
  · rfl

/-- A run of `sched_pick` plans nothing, and leaves the handshake alone, or asks for what it has
planned. -/
theorem schedPick_planned (h : schedPick psa o c = some d) :
    planned psa o c = none ∧ d.hs = c.hs ∨ ∃ cand e, planned psa o c = some (cand, e) ∧
      e.hs = c.hs ∧ requestEvent psa o e cand = some d := by
  unfold schedPick at h
  split at h
  · next hbusy =>
    cases h
    exact .inl ⟨by rw [planned, if_pos hbusy], rfl⟩
  · next hbusy =>
    split at h
    · cases h
    · next l e hc =>
      have he : e.hs = c.hs := candidates_hs hc
      split at h
      · next hsel =>
        cases h
        refine .inl ⟨?_, he⟩
        rw [planned, if_neg hbusy]
        simp only [hc, hsel]
      · next cand hsel =>
        have hs := (stageFor_hs psa o e cand).trans he
        dsimp only at h
        split at h
        · next hgo =>
          refine .inr ⟨cand, (stageFor psa o e cand).2, ?_, hs, h⟩
          rw [planned, if_neg hbusy]
          simp only [hc, hsel, hgo, if_true]
        · next hgo =>
          cases h
          refine .inl ⟨?_, hs⟩
          rw [planned, if_neg hbusy]
          simp only [hc, hsel, hgo, if_false, Bool.false_eq_true]

theorem dropLate_hs {cand : Candidate cfg} (h : dropLate psa o c cand = some d) :
    if cand.kind.isJoin then lgJoinEventFinish o c = some d else d.hs = c.hs := by
  obtain ⟨kind, anchor, n, prio⟩ := cand
  unfold dropLate at h
  cases kind <;> rcases n with _ | i <;> dsimp only at h
  case joinTx.none | joinTx.some | joinRx.none | joinRx.some => exact h
  case beacon.none | beacon.some =>
    cases h
    exact (lgDiscBeaconFinish_quiet psa o c).hs
  case scan.none | scan.some =>
    cases h
    exact (lgDiscScanFinish_quiet o c).hs
  case track.some =>
    cases h
    exact (lgDiscTrackResult_quiet c i false).hs
  all_goals
    cases h
    rfl

/-- A run of `sched_pick` either drops a slot, which ends it, or leaves the handshake alone. -/
theorem schedPick_hs (h : schedPick psa o c = some d) :
    if dropsSlot psa o c then ∃ e, e.hs = c.hs ∧ lgJoinEventFinish o e = some d
    else d.hs = c.hs := by
  rcases schedPick_planned h with ⟨hnone, hhs⟩ | ⟨cand, e, hplan, he, hreq⟩
  · have hkeeps : dropsSlot psa o c = false := by rw [dropsSlot, hnone, Option.any_none]
    rw [if_neg (by rw [hkeeps]; exact Bool.false_ne_true)]
    exact hhs
  · have hq := (eventPlan_quiet e cand).hs.trans he
    have hdrops : dropsSlot psa o c = (cand.kind.isJoin &&
        decide ((eventPlan e cand).1.atUs < e.nowUs + schedMinHorizonUs)) := by
      rw [dropsSlot, hplan, Option.any_some]
    unfold requestEvent at hreq
    dsimp only at hreq
    by_cases hlate : (eventPlan e cand).1.atUs < e.nowUs + schedMinHorizonUs
    · rw [if_pos hlate] at hreq
      rw [decide_eq_true hlate, Bool.and_true] at hdrops
      have hdrop := dropLate_hs hreq
      cases hk : cand.kind.isJoin with
      | true =>
        rw [if_pos hk] at hdrop
        rw [if_pos (hdrops.trans hk)]
        exact ⟨_, hq, hdrop⟩
      | false =>
        rw [if_neg (by rw [hk]; exact Bool.false_ne_true)] at hdrop
        rw [if_neg (by rw [hdrops, hk]; exact Bool.false_ne_true)]
        exact hdrop.trans hq
    · rw [if_neg hlate] at hreq
      rw [decide_eq_false hlate, Bool.and_false] at hdrops
      rw [if_neg (by rw [hdrops]; exact Bool.false_ne_true)]
      split at hreq <;> cases hreq <;> exact hq

/-! ## The radio -/

theorem command_hs (o : Oracle) (c : Node cfg) (p : Phy) : (command o c p).hs = c.hs := by
  unfold command
  split <;> rfl

theorem listenOn_hs (o : Oracle) (c : Node cfg) : (listenOn o c).hs = c.hs := by
  unfold listenOn
  split
  · exact command_hs o c .rx
  · rfl

theorem lgRxPost_hs (c : Node cfg) (rx : RxRec) : (lgRxPost c rx).hs = c.hs := by
  unfold lgRxPost
  split <;> rfl

theorem trackResult_hs (c : Node cfg) (heard : Bool) : (trackResult c heard).hs = c.hs := by
  unfold trackResult
  split
  · exact (lgDiscTrackResult_quiet c _ heard).hs
  · rfl

theorem sendFragment_hs (psa : Psa) (o : Oracle) (c : Node cfg) (idx : ℕ) :
    (sendFragment psa o c idx).hs =
      { c.hs with lastTxLen := (buildFragment psa o c idx).1.length } := by
  have hlen : ({ (buildFragment psa o c idx).2.hs with
      lastTxLen := (buildFragment psa o c idx).1.length } : Hs cfg) =
      { c.hs with lastTxLen := (buildFragment psa o c idx).1.length } := by
    rw [buildFragment_hs]
  unfold sendFragment
  dsimp only
  split
  · exact hlen
  · exact (command_hs o _ .tx).trans hlen

theorem joinTxStart_hs (psa : Psa) (o : Oracle) (hn : c.hs.n ≠ none) :
    ∃ len, (joinTxStart psa o c).hs =
      { c.hs with wasTx := true, fragIdx := 0, lastTxLen := len } := by
  unfold joinTxStart
  rw [if_neg (by rwa [Option.isNone_iff_eq_none])]
  exact ⟨_, sendFragment_hs psa o _ 0⟩

theorem joinTxDone_hs (psa : Psa) (o : Oracle) (c : Node cfg) (airEndUs : ℕ) :
    ∃ len, (joinTxDone psa o c airEndUs).hs = { c.hs with
      lastTxAirStartUs := airEndUs - airtimeUs c.hs.lastTxLen
      fragIdx := c.hs.fragIdx + 1
      lastTxLen := len } := by
  unfold joinTxDone
  dsimp only
  split
  · exact ⟨_, sendFragment_hs psa o _ _⟩
  · exact ⟨_, rfl⟩

theorem joinRxStart_hs (o : Oracle) (c : Node cfg) :
    (joinRxStart o c).hs = { c.hs with wasTx := false } := command_hs o _ .rx

theorem sendCopy_hs (o : Oracle) (k : ℕ) {e : Node cfg} (h : e.hs = c.hs) :
    (sendCopy o c k e).hs = c.hs := by
  unfold sendCopy
  split
  · split
    · exact h
    · rfl
  · exact h

/-- A grant concerns the handshake only if the slot is one of it. -/
theorem tsGranted_hs (psa : Psa) (o : Oracle) (hk : c.ev.kind.isJoin = false) :
    (tsGranted psa o c).hs = c.hs := by
  unfold tsGranted
  dsimp only
  split
  · exact command_hs o _ _
  · unfold beaconStart
    dsimp only
    split
    · rfl
    · exact sendCopy_hs o 0 rfl
  · exact command_hs o _ .rx
  · exact command_hs o _ .rx
  · next h => rw [h] at hk; cases hk
  · next h => rw [h] at hk; cases hk
  · exact (lgChanNoise_quiet _ _ _).hs
  · rfl

theorem tsFailed_hs (o : Oracle) (hk : c.ev.kind.isJoin = false) : (tsFailed o c).hs = c.hs := by
  unfold tsFailed
  split
  · rfl
  · exact lgLinkEventMiss_hs o c _
  · exact trackResult_hs c false
  · next h => rw [h] at hk; cases hk
  · next h => rw [h] at hk; cases hk
  · rfl

/-- A refusal of a slot of the handshake. -/
theorem tsFailed_join (o : Oracle) (hk : c.ev.kind.isJoin = true) :
    tsFailed o c = lgSchedEventDone (joinAborted c) := by
  unfold tsFailed
  cases hkind : c.ev.kind <;> rw [hkind] at hk <;> cases hk

theorem phyTxDone_hs (psa : Psa) (o : Oracle) (airEndUs : ℕ) (hk : c.ev.kind ≠ .joinTx) :
    (phyTxDone psa o c airEndUs).hs = c.hs := by
  unfold phyTxDone
  split
  · unfold linkTxDone
    dsimp only
    split
    · rfl
    · exact command_hs o _ .rx
  · unfold beaconTxDone
    dsimp only
    refine (sendCopy_hs o _ ?_).trans rfl
    split <;> rfl
  · next h => exact absurd h hk
  · rfl

theorem linkRxDone_hs (o : Oracle) (c : Node cfg) (i : Fin cfg.maxNeighbors) (rx : RxRec) :
    (linkRxDone o c i rx).hs = c.hs := by
  have hnote : (noteLinkFrame c i rx).hs = c.hs := by
    unfold noteLinkFrame
    dsimp only
    refine (lgRxPost_hs _ rx).trans ?_
    refine (lgChanResult_quiet _ _ true).hs.trans ?_
    exact (lgNeighRxRssi_quiet _ i rx.rssi).hs
  unfold linkRxDone
  dsimp only
  generalize noteLinkFrame c i rx = d at hnote ⊢
  split
  · exact hnote
  · split
    · exact (command_hs o _ .tx).trans hnote
    · exact hnote

theorem phyRxDone_hs (o : Oracle) (c : Node cfg) (rx : RxRec) :
    (phyRxDone o c rx).hs = c.hs := by
  have hpost := lgRxPost_hs c rx
  unfold phyRxDone
  split
  · exact linkRxDone_hs o c _ rx
  · unfold scanRxDone
    dsimp only
    split
    · exact hpost
    · exact (listenOn_hs o _).trans hpost
  · exact (trackResult_hs _ true).trans hpost
  · exact (listenOn_hs o _).trans hpost
  · rfl

theorem phyRxFailed_hs (o : Oracle) (c : Node cfg) (reason : RxFail) :
    (phyRxFailed o c reason).hs = c.hs := by
  have hfail : (joinRxFail o c reason).hs = c.hs := by
    unfold joinRxFail
    split
    · exact listenOn_hs o c
    · rfl
  unfold phyRxFailed
  split
  · next i _ _ =>
    have hq := (lgChanResult_quiet c c.ev.chan false).hs
    have hresult : ∀ d : Node cfg, (lgNeighTxResult d i false).hs = d.hs := fun _ => rfl
    unfold linkRxFail
    dsimp only
    split_ifs
    · exact (hresult (lgChanResult c c.ev.chan false)).trans hq
    · exact hq
    · exact hresult c
    · rfl
  · exact hfail
  · exact hfail
  · exact trackResult_hs c false
  · rfl

/-- Time, the application and the end of the stack leave the handshake alone. -/
theorem perform_call_hs {inp : Input} (hi : inp.isCall = true ∨ inp = .stop)
    (h : perform psa o c inp = some d) : d.hs = c.hs := by
  cases inp with
  | tick us =>
    cases h
    rfl
  | send dst port payload flags =>
    cases h
    exact lgSend_hs c dst port payload flags
  | backhaulSet up =>
    cases h
    exact (lgBackhaulSet_quiet o c up).hs
  | tuningSet t =>
    cases h
    exact (Node.Quiet.trans ⟨_, _, rfl⟩ (lgDiscRetune_quiet o 0 _)).hs
  | stop =>
    cases h
    exact lgStop_hs o c
  | _ => rcases hi with hi | hi <;> cases hi

/-- The end of the stack leaves the event that ended last to be settled. -/
theorem lgStop_finishKind (o : Oracle) (c : Node cfg) :
    (lgStop o c).finishKind = c.finishKind := by
  have hdown := (stopLinks_aside o (List.finRange cfg.maxNeighbors) c).slot
  unfold lgStop
  split
  · rfl
  · exact congrArg (fun r => r.2.1) hdown

/-! ## Interrupts -/

def Input.isRefusal : Input → Bool
  | .refused => true
  | _ => false

/-- The interrupt is none of a slot of a handshake that changes the context. -/
def Aloof (c : Node cfg) : Input → Prop
  | .granted | .refused => c.ev.kind.isJoin = false
  | .txDone _ => c.ev.kind ≠ .joinTx
  | _ => True

/-- What an interrupt makes of the slot of a handshake. -/
inductive SlotStep (psa : Psa) (o : Oracle) (c : Node cfg) : Input → Node cfg → Prop
  | sends (hk : c.ev.kind = .joinTx) :
      SlotStep psa o c .granted (joinTxStart psa o { c with granted := true })
  | listens (hk : c.ev.kind = .joinRx) :
      SlotStep psa o c .granted (joinRxStart o { c with granted := true })
  | refused (hk : c.ev.kind.isJoin = true) :
      SlotStep psa o c .refused (lgSchedEventDone (joinAborted c))
  | sent (hk : c.ev.kind = .joinTx) (airEndUs : ℕ) :
      SlotStep psa o c (.txDone airEndUs) (joinTxDone psa o c airEndUs)
  | aside {inp d} (hhs : d.hs = c.hs) (hk : Aloof c inp) : SlotStep psa o c inp d

theorem perform_slotStep {inp : Input} (hi : inp.isInterrupt = true)
    (h : perform psa o c inp = some d) : SlotStep psa o c inp d := by
  cases inp with
  | granted =>
    cases h
    cases hk : c.ev.kind with
    | joinTx =>
      have hgranted : tsGranted psa o c = joinTxStart psa o { c with granted := true } := by
        unfold tsGranted
        simp only [hk]
      exact hgranted ▸ .sends hk
    | joinRx =>
      have hgranted : tsGranted psa o c = joinRxStart o { c with granted := true } := by
        unfold tsGranted
        simp only [hk]
      exact hgranted ▸ .listens hk
    | _ =>
      have hother : c.ev.kind.isJoin = false := by
        rw [hk]
        rfl
      exact .aside (tsGranted_hs psa o hother) hother
  | refused =>
    cases h
    cases hk : c.ev.kind.isJoin with
    | false => exact .aside (tsFailed_hs o hk) hk
    | true => exact tsFailed_join o hk ▸ .refused hk
  | txDone airEndUs =>
    cases h
    by_cases hk : c.ev.kind = .joinTx
    · have hdone : phyTxDone psa o c airEndUs = joinTxDone psa o c airEndUs := by
        unfold phyTxDone
        simp only [hk]
      exact hdone ▸ .sent hk airEndUs
    · exact .aside (phyTxDone_hs psa o airEndUs hk) hk
  | rxDone rx =>
    cases h
    exact .aside (phyRxDone_hs o c rx) trivial
  | rxFailed reason =>
    cases h
    exact .aside (phyRxFailed_hs o c reason) trivial
  | _ => cases hi

/-- What an interrupt leaves as it is, but for a refusal. -/
theorem SlotStep.keeps {inp : Input} (h : SlotStep psa o c inp d) :
    (d.hs.n = c.hs.n ∧ d.hs.resuming = c.hs.resuming ∧ d.hs.idleSlots = c.hs.idleSlots) ∧
      (inp.isRefusal = true ∧ c.ev.kind.isJoin = true ∧ d = lgSchedEventDone (joinAborted c) ∨
        (inp.isRefusal = true → c.ev.kind.isJoin = false) ∧ d.hs.progressed = c.hs.progressed ∧
          d.hs.slotRefused = c.hs.slotRefused) := by
  cases h with
  | sends hk =>
    by_cases hn : c.hs.n = none
    · have hidle : joinTxStart psa o { c with granted := true } =
          lgSchedEventDone { c with granted := true } := by
        unfold joinTxStart
        rw [if_pos (by rw [hn]; rfl)]
      rw [hidle]
      exact ⟨⟨rfl, rfl, rfl⟩, .inr ⟨by simp [Input.isRefusal], rfl, rfl⟩⟩
    · obtain ⟨len, hhs⟩ := joinTxStart_hs (c := { c with granted := true }) psa o hn
      rw [hhs]
      exact ⟨⟨rfl, rfl, rfl⟩, .inr ⟨by simp [Input.isRefusal], rfl, rfl⟩⟩
  | listens hk =>
    rw [joinRxStart_hs]
    exact ⟨⟨rfl, rfl, rfl⟩, .inr ⟨by simp [Input.isRefusal], rfl, rfl⟩⟩
  | refused hk => exact ⟨⟨rfl, rfl, rfl⟩, .inl ⟨rfl, hk, rfl⟩⟩
  | sent hk airEndUs =>
    obtain ⟨len, hhs⟩ := joinTxDone_hs psa o c airEndUs
    rw [hhs]
    exact ⟨⟨rfl, rfl, rfl⟩, .inr ⟨by simp [Input.isRefusal], rfl, rfl⟩⟩
  | aside hhs hk =>
    rw [hhs]
    refine ⟨⟨rfl, rfl, rfl⟩, .inr ⟨fun hr => ?_, rfl, rfl⟩⟩
    cases inp <;> cases hr
    exact hk

theorem lgJoinEventFinish_about (h : lgJoinEventFinish o c = some d) (hn : d.hs.n ≠ none) :
    d.hs.n = c.hs.n := by
  rw [(lgJoinEventFinish_next h hn).2]
  rfl

theorem schedPick_about (h : schedPick psa o c = some d) (hn : d.hs.n ≠ none) :
    d.hs.n = c.hs.n := by
  have hhs := schedPick_hs h
  split at hhs
  · obtain ⟨e, he, hend⟩ := hhs
    rw [lgJoinEventFinish_about hend hn, he]
  · rw [hhs]

theorem settle_about (h : settle psa o c = some d) (hn : d.hs.n ≠ none) : d.hs.n = c.hs.n := by
  have hhs := settle_hs h
  split at hhs
  · exact lgJoinEventFinish_about hhs hn
  · rw [hhs]

/-- Only a frame changes which entry the handshake is about, but for its end. -/
theorem perform_about {inp : Input} (hinp : inp ≠ .rxWork) (h : perform psa o c inp = some d)
    (hn : d.hs.n ≠ none) : d.hs.n = c.hs.n := by
  cases inp with
  | rxWork => exact absurd rfl hinp
  | schedWork => exact schedPick_about h hn
  | finishWork o' =>
    change schedFinish psa o o' c = some d at h
    unfold schedFinish at h
    split at h
    · cases h
    · next e he =>
      have hpicked := schedPick_about h hn
      change d.hs.n = e.hs.n at hpicked
      rw [hpicked] at hn ⊢
      exact settle_about he hn
  | start =>
    cases h
    rcases lgStart_entries psa o c with heq | ⟨-, hnone⟩
    · exact congrArg (fun e => e.hs.n) heq
    · exact absurd hnone hn
  | stop =>
    cases h
    exact congrArg Hs.n (lgStop_hs o c)
  | tick | send | backhaulSet | tuningSet =>
    exact congrArg Hs.n (perform_call_hs (.inl rfl) h)
  | granted | refused | txDone | rxDone | rxFailed =>
    exact (perform_slotStep rfl h).keeps.1.1

/-- Only a frame changes with whom the node is in a handshake. -/
theorem perform_party {inp : Input} (hc : c.HsUnlinked) (hinp : inp ≠ .rxWork)
    (h : perform psa o c inp = some d) {p : Fin cfg.maxNeighbors × Addr}
    (hp : d.party = some p) : c.party = some p := by
  have hn : d.hs.n ≠ none := fun hn => by rw [Node.party_none hn] at hp; cases hp
  exact (perform_unjoined hc hinp h).party (perform_about hinp h hn) hp

end LockGrid
