import LockGrid.Splicing

/-!
# What reassembly completes

The listener of an encounter completes a message only when it has every fragment of it. It is one
that the speaker has staged, unless fragments of two `JOIN_RSP`s have come together.
-/
namespace LockGrid

variable {cfg : Config} {psa : Psa}

/-! ## Steps that bring nothing to the buffer -/

/-- What was in the buffer is still there, or nothing is. -/
def Rests (c c' : Node cfg) : Prop :=
  c'.hs.rx = c.hs.rx ∧ c'.hs.rxType = c.hs.rxType ∨ c'.hs.rx = {}

namespace Rests

variable {c c' c'' : Node cfg}

theorem refl (c : Node cfg) : Rests c c := .inl ⟨rfl, rfl⟩

theorem trans (h : Rests c c') (h' : Rests c' c'') : Rests c c'' := by
  rcases h' with ⟨hrx, htype⟩ | h'
  · rcases h with ⟨hrx', htype'⟩ | h
    · exact .inl ⟨hrx.trans hrx', htype.trans htype'⟩
    · exact .inr (hrx.trans h)
  · exact .inr h'

theorem of_hs (h : c'.hs = c.hs) : Rests c c' := by
  rw [Rests, h]
  exact .inl ⟨rfl, rfl⟩

theorem of_works (h : Works psa c c') : Rests c c' :=
  .inl ⟨(congrArg Hs.rx h.credit :), (congrArg Hs.rxType h.credit :)⟩

end Rests

theorem lgJoinEventFinish_rests {o : Oracle} {c d : Node cfg}
    (h : lgJoinEventFinish o c = some d) : Rests c d := by
  unfold lgJoinEventFinish at h
  split at h
  · cases h
    exact .refl c
  · split at h
    · cases h
      exact .inr rfl
    · split at h
      · obtain ⟨e, -, rfl⟩ := Option.map_eq_some_iff.mp h
        exact .inr rfl
      · dsimp only at h
        split at h <;> cases h
        · exact .inr rfl
        · exact .inl ⟨rfl, rfl⟩

theorem lgJoinStart_rests (o : Oracle) (c : Node cfg) (i : Fin cfg.maxNeighbors) :
    Rests c (lgJoinStart o c i).2 := by
  unfold lgJoinStart
  dsimp only
  split
  · exact .refl c
  · split
    · exact .refl c
    · split
      · exact .refl c
      · split
        · exact .of_hs rfl
        · split
          · exact .of_hs rfl
          · split
            · exact .inr rfl
            · next e he =>
              right
              change e.hs.rx = {}
              split at he
              · unfold buildResumeReq at he
                split at he <;> cases he
                rfl
              · unfold buildJoinReq at he
                dsimp only at he
                split at he
                · cases he
                · split at he <;> cases he
                  rfl

theorem Pieces.rests {c d : Node cfg} (h : Pieces psa c d) : Rests c d := by
  induction h with
  | refl => exact .refl c
  | tail _ hpiece ih =>
    cases hpiece with
    | work h => exact ih.trans (.of_works h)
    | begin o i _ => exact ih.trans (lgJoinStart_rests o _ i)
    | slot o h => exact ih.trans (lgJoinEventFinish_rests h)

/-- A received frame is handed to the handshake if it is one of its frames for this node. -/
theorem dispatch_joinType {o : Oracle} {c d : Node cfg} {rx : RxRec}
    (h : dispatch psa o c rx = some d) :
    joinType c rx.pdu = none ∧ Rests c d ∨
      ∃ t, joinType c rx.pdu = some t ∧ lgJoinRxPdu psa o c t rx = some d := by
  unfold dispatch at h
  cases hget : lgFrameHdrGet cfg rx.pdu c.ident.netid16 with
  | none =>
    rw [hget] at h
    cases h
    exact .inl ⟨by rw [joinType, hget], .refl c⟩
  | some hdr =>
    have hjoin : joinType c rx.pdu = if hdr.src = c.ident.addr ∨ (hdr.dst ≠ c.ident.addr ∧
        hdr.dst ≠ addrBroadcast) then none else (lgFrameType rx.pdu).filter FrameType.isJoin := by
      rw [joinType, hget]
    rw [hget] at h
    dsimp only at h
    by_cases hforeign : hdr.src = c.ident.addr ∨ (hdr.dst ≠ c.ident.addr ∧ hdr.dst ≠ addrBroadcast)
    · rw [if_pos hforeign] at h hjoin
      cases h
      exact .inl ⟨hjoin, .refl c⟩
    · rw [if_neg hforeign] at h hjoin
      rw [hjoin]
      have hlink : Rests c (dispatchLink psa o c hdr rx.pdu) :=
        .of_works (dispatchLink_works psa o c hdr rx.pdu)
      cases ht : lgFrameType rx.pdu with
      | none =>
        rw [ht] at h
        cases h
        exact .inl ⟨rfl, hlink⟩
      | some t =>
        rw [ht] at h
        cases t with
        | beacon =>
          cases h
          exact .inl ⟨rfl, Pieces.rests (lgDiscBeaconRx_pieces o c rx : Pieces psa c _)⟩
        | joinReq | joinRsp | joinCfm | joinAck | resumeReq | resumeRsp => exact .inr ⟨_, rfl, h⟩
        | linkReq | linkRsp | data | ack | ctrl =>
          cases h
          exact .inl ⟨rfl, hlink⟩

theorem joinType_spec {c : Node cfg} {pdu : Bytes} {t : FrameType} (h : joinType c pdu = some t) :
    lgFrameType pdu = some t ∧ t.isJoin = true := by
  unfold joinType at h
  split at h
  · cases h
  · split at h
    · cases h
    · exact Option.filter_eq_some_iff.mp h

/-! ## The listener -/

section

variable {o : Oracle} {c d : Node cfg} {rx : RxRec} {rest : List RxRec} {t : FrameType}

theorem taken_none (hring : c.rxRing = rx :: rest) (ht : joinType c rx.pdu = some t)
    (he : contextFor o { c with rxRing := rest } t (getLe16 rx.pdu offSrc) rx.airStartUs =
      (none, d)) : taken psa o c .rxWork = none := by
  simp only [taken, hring, ht, he]

theorem taken_some {i : Fin cfg.maxNeighbors} (hring : c.rxRing = rx :: rest)
    (ht : joinType c rx.pdu = some t)
    (he : contextFor o { c with rxRing := rest } t (getLe16 rx.pdu offSrc) rx.airStartUs =
      (some i, d)) :
    taken psa o c .rxWork =
      if opensFrame psa o (lgNeighRxRssi d i rx.rssi) i rx.pdu then some rx else none := by
  simp only [taken, hring, ht, he]

end

/-- The message that `reassemble` completes when the node handles its next frame, with its type and
the sender the frame names. -/
def completed (psa : Psa) (o : Oracle) (c : Node cfg) : Option (Addr × FrameType × Bytes) :=
  match c.rxRing with
  | [] => none
  | rx :: rest =>
    match joinType c rx.pdu with
    | none => none
    | some t =>
      match contextFor o { c with rxRing := rest } t (getLe16 rx.pdu offSrc) rx.airStartUs with
      | (none, _) => none
      | (some i, d) =>
        match reassemble psa o (lgNeighRxRssi d i rx.rssi) i t rx.pdu with
        | (false, _) => none
        | (true, e) => some (getLe16 rx.pdu offSrc, t, e.hs.rx.msg)

namespace Encounter

/-- A fragment other than a first one comes to nothing but fragments of the same node and, if it is
of a `JOIN_RSP`, of the same message. -/
def Continues (s : Encounter cfg) (f : Shot) : Prop :=
  f.idx ≠ 0 → s.listener.hs.n ≠ none → s.listener.hs.rx ≠ {} → s.listener.hs.rxType = f.type →
    ∃ g ∈ s.last, f.type = .joinRsp → g.msg = f.msg

instance (s : Encounter cfg) (f : Shot) : Decidable (s.Continues f) := by
  unfold Continues
  infer_instance

/-- Fragments of different nodes do not come together, nor do those of two `JOIN_RSP`s. -/
def Unmixed (s s' : Encounter cfg) : Prop := ∀ f ∈ s'.took, s.Continues f

instance (s s' : Encounter cfg) : Decidable (Unmixed s s') := by
  unfold Unmixed
  infer_instance

/-- What is in the buffer are fragments of the message that the last of them is of. -/
def Gathers (s : Encounter cfg) (hs : Hs cfg) (last : Option Shot) : Prop :=
  hs.rx ≠ {} → ∀ f ∈ last, f ∈ s.air ∧ hs.rxType = f.type ∧
    hs.rx.HoldsSome f.msg (fragCap cfg f.type.isSealed)

/-- What every run in which `JOIN_RSP`s do not mix keeps. -/
structure Sorted (psa : Psa) (s : Encounter cfg) : Prop where
  cert : s.speaker.ident.cert.length = certLen
  speaks : s.speaker.hs.Speaks s.speaker.ident.cert
  typed : ∀ f ∈ s.air, lgFrameType f.pdu = some f.type
  cut : ∀ f ∈ s.air, f.type.isJoin = true → f.Cut psa cfg s.speaker.ident.cert
  gathers : s.Gathers s.listener.hs s.last

theorem Sorted.boot {idS idL : Identity} (hcert : idS.cert.length = certLen) :
    Sorted psa (boot cfg idS idL) where
  cert := hcert
  speaks := Hs.speaks_empty _
  typed := nofun
  cut := nofun
  gathers h := absurd rfl h

theorem Gathers.rests {s : Encounter cfg} {c : Node cfg} (h : s.Gathers s.listener.hs s.last)
    (hc : Rests s.listener c) : s.Gathers c.hs (s.lastAfter c none) := by
  intro hne f hf
  rw [lastAfter, if_neg hne] at hf
  rcases hc with ⟨hrx, htype⟩ | hempty
  · rw [hrx] at hne ⊢
    rw [htype]
    exact h hne f hf
  · exact absurd hempty hne

section

variable {s : Encounter cfg} {o : Oracle} {rx : RxRec} {rest : List RxRec} {t : FrameType}

/-- The handshake frame in the speaker's name that the listener handles next. -/
theorem Carries.shot (h : s.Carries .rxWork) (hring : s.listener.rxRing = rx :: rest)
    (ht : lgFrameType rx.pdu = some t) (hj : t.isJoin = true)
    (hsrc : getLe16 rx.pdu offSrc = s.speaker.ident.addr) :
    ∃ f, s.shotFor rx = some f ∧ f ∈ s.air ∧ f.pdu = rx.pdu := by
  obtain ⟨f, hf, hpdu, hstart⟩ := h rx (by rw [hring]; rfl) (by rw [ht]; exact hj) hsrc
  let p : Shot → Bool := fun f => f.pdu = rx.pdu ∧ f.startUs = rx.airStartUs
  have hfound : s.air.find? p ≠ none := by
    intro hnone
    exact List.find?_eq_none.mp hnone f hf (decide_eq_true ⟨hpdu, hstart⟩)
  obtain ⟨g, hg⟩ := Option.ne_none_iff_exists'.mp hfound
  have hp : g.pdu = rx.pdu ∧ g.startUs = rx.airStartUs := of_decide_eq_true (List.find?_some hg :)
  exact ⟨g, by rw [shotFor, if_pos hsrc]; exact hg, List.mem_of_find?_eq_some hg, hp.1⟩

theorem Sorted.shot (h : s.Sorted psa) (hcarries : s.Carries .rxWork)
    (hring : s.listener.rxRing = rx :: rest) (ht : lgFrameType rx.pdu = some t)
    (hj : t.isJoin = true) (hsrc : getLe16 rx.pdu offSrc = s.speaker.ident.addr) :
    ∃ f, s.shotFor rx = some f ∧ f ∈ s.air ∧ f.pdu = rx.pdu ∧ f.type = t := by
  obtain ⟨f, hf, hair, hpdu⟩ := hcarries.shot hring ht hj hsrc
  have htype := h.typed f hair
  rw [hpdu, ht] at htype
  exact ⟨f, hf, hair, hpdu, (Option.some.inj htype).symm⟩

/-- What reassembly does with a frame of the speaker. -/
theorem Sorted.reassembles (h : s.Sorted psa) (hpsa : psa.Seals) {i : Fin cfg.maxNeighbors}
    {d : Node cfg} {f : Shot} (hf : f ∈ s.air) (hj : f.type.isJoin = true)
    (hd : d.hs = s.listener.hs ∧ s.listener.hs.n ≠ none ∨ d.hs.rx = {})
    (ho : opensFrame psa o d i f.pdu = true)
    (hcont : s.Continues f) :
    ∃ buf, (reassemble psa o d i f.type f.pdu).2.hs = { d.hs with rxType := f.type, rx := buf } ∧
      ((reassemble psa o d i f.type f.pdu).1 = true →
        ∃ g ∈ s.air, g.type = f.type ∧ g.msg = buf.msg) ∧
      ((reassemble psa o d i f.type f.pdu).1 = false →
        buf.HoldsSome f.msg (fragCap cfg f.type.isSealed)) := by
  have hcut := h.cut f hf hj
  -- The fragment goes with what is in the buffer.
  have hplain (hc : d.hs.rxType = f.type → f.idx ≠ 0 →
      d.hs.rx.HoldsSome f.msg (fragCap cfg f.type.isSealed)) :
      ∃ buf, (reassemble psa o d i f.type f.pdu).2.hs = { d.hs with rxType := f.type, rx := buf } ∧
        ((reassemble psa o d i f.type f.pdu).1 = true →
          ∃ g ∈ s.air, g.type = f.type ∧ g.msg = buf.msg) ∧
        ((reassemble psa o d i f.type f.pdu).1 = false →
          buf.HoldsSome f.msg (fragCap cfg f.type.isSealed)) := by
    obtain ⟨buf, hcomplete, hhs, hbuf, -⟩ := reassemble_cut hpsa hcut hj ho hc
    refine ⟨buf, hhs, fun hdone => ⟨f, hf, rfl, ?_⟩, fun _ => hbuf⟩
    rw [hcomplete, decide_eq_true_eq] at hdone
    exact (hbuf.whole (fragCap_pos cfg _) (hcut.msg_ne_nil hj) hdone).symm
  by_cases hnext : d.hs.rx ≠ {} ∧ d.hs.rxType = f.type ∧ f.idx ≠ 0
  · obtain ⟨hne, htype, hidx⟩ := hnext
    obtain ⟨hhs, hbusy⟩ := hd.resolve_right hne
    rw [hhs] at hne htype
    obtain ⟨g, hg, hmsg⟩ := hcont hidx hbusy hne htype
    obtain ⟨hair, hgtype, hbuf⟩ := h.gathers hne g hg
    have hsame : g.type = f.type := hgtype.symm.trans htype
    rcases hcut.type_of_idx hj hidx with hreq | hrsp
    · have hgcut := h.cut g hair (by rw [hsame]; exact hj)
      obtain ⟨buf, hhs', hdone, hmore⟩ := reassemble_joinReq hpsa hcut hgcut hreq
        (hsame.trans hreq) hidx ho (by rw [hhs]; exact hbuf)
      exact ⟨buf, hhs', fun ht => ⟨g, hair, hsame, (hdone ht).symm⟩, hmore⟩
    · apply hplain
      intro _ _
      rw [hhs, ← hmsg hrsp, ← hsame]
      exact hbuf
  · apply hplain
    intro htype hidx
    have hempty : d.hs.rx = {} := by
      by_contra hne
      exact hnext ⟨hne, htype, hidx⟩
    rw [hempty]
    exact Xfer.holdsSome_empty _ _

end

/-- Handling a handshake frame. -/
theorem Sorted.handles {s : Encounter cfg} (h : s.Sorted psa) (hpsa : psa.Seals) {o : Oracle}
    {c : Node cfg} {rx : RxRec} {rest : List RxRec} {t : FrameType}
    (hcarries : s.Carries .rxWork) (hring : s.listener.rxRing = rx :: rest)
    (ht : joinType s.listener rx.pdu = some t)
    (hcont : ∀ f ∈ (taken psa o s.listener .rxWork).bind s.shotFor, s.Continues f)
    (hc : lgJoinRxPdu psa o { s.listener with rxRing := rest } t rx = some c) :
    s.Gathers c.hs (s.lastAfter c (taken psa o s.listener .rxWork)) := by
  obtain ⟨hframe, hj⟩ := joinType_spec ht
  have hctx := contextFor_buffer o { s.listener with rxRing := rest } t (getLe16 rx.pdu offSrc)
    rx.airStartUs
  unfold lgJoinRxPdu at hc
  split at hc
  · next d he =>
    cases hc
    rw [he] at hctx
    obtain ⟨hhs, -⟩ := hctx.resolve_right fun hnew => hnew.1 rfl
    rw [taken_none hring ht he]
    exact h.gathers.rests (.of_hs hhs)
  · next i d he =>
    rw [he] at hctx
    rw [taken_some hring ht he] at hcont ⊢
    have hd : (lgNeighRxRssi d i rx.rssi).hs = s.listener.hs ∧ s.listener.hs.n ≠ none ∨
        (lgNeighRxRssi d i rx.rssi).hs.rx = {} :=
      hctx.imp (fun hsame => ⟨hsame.1, hsame.2 nofun⟩) fun hnew => hnew.2
    cases ho : opensFrame psa o (lgNeighRxRssi d i rx.rssi) i rx.pdu with
    | false =>
      obtain ⟨hno, hhs⟩ := reassemble_closed t ho
      rw [if_neg Bool.false_ne_true]
      split at hc
      · next hre =>
        rw [hre] at hhs
        cases hc
        apply h.gathers.rests
        rcases hd with ⟨hd, -⟩ | hd
        · exact .of_hs (hhs.trans hd)
        · exact .inr ((congrArg Hs.rx hhs).trans hd)
      · next hre =>
        rw [hre] at hno
        cases hno
    | true =>
      rw [ho, if_pos rfl] at hcont
      rw [if_pos rfl]
      intro hne f hf
      rw [lastAfter, if_neg hne] at hf
      have hsrc : getLe16 rx.pdu offSrc = s.speaker.ident.addr := by
        by_contra hother
        rw [shotFor, if_neg hother] at hf
        cases hf
      obtain ⟨g, hg, hair, hpdu, rfl⟩ := h.shot hcarries hring hframe hj hsrc
      obtain rfl : f = g := Option.some.inj (hf.symm.trans hg)
      rw [← hpdu] at ho hc
      obtain ⟨buf, hhs, -, hmore⟩ := h.reassembles hpsa hair hj hd ho (hcont f hf)
      split at hc
      · next hre =>
        rw [hre] at hhs hmore
        cases hc
        rw [hhs]
        exact ⟨hair, rfl, hmore rfl⟩
      · exact absurd (handleMessage_cleared hj hc) hne

theorem perform_none {o : Oracle} {c d : Node cfg} {inp : Input} (hne : inp ≠ .rxWork)
    (h : LockGrid.perform psa o c inp = some d) : taken psa o c inp = none ∧ Rests c d := by
  constructor
  · cases inp with
    | rxWork => exact absurd rfl hne
    | _ => rfl
  · rcases perform_cases h with hpieces | ⟨hrx, -⟩ | ⟨-, e, he, hw⟩
    · exact hpieces.rests
    · exact absurd hrx hne
    · have hidle : e.hs.rx = {} := congrArg Hs.rx he.hs
      exact (Rests.trans (.inr hidle) (.of_works hw) : Rests c d)

/-- A step of the listener. -/
theorem Sorted.listener {s : Encounter cfg} (h : s.Sorted psa) (hpsa : psa.Seals) {o : Oracle}
    {inp : Input} {c : Node cfg} (hcarries : s.Carries inp)
    (hcont : ∀ f ∈ (taken psa o s.listener inp).bind s.shotFor, s.Continues f)
    (hc : LockGrid.perform psa o s.listener inp = some c) :
    s.Gathers c.hs (s.lastAfter c (taken psa o s.listener inp)) := by
  by_cases hrx : inp = .rxWork
  · subst hrx
    simp only [LockGrid.perform, rxHandler] at hc
    split at hc
    · next hring =>
      cases hc
      have hnone : taken psa o s.listener .rxWork = none := by simp only [taken, hring]
      rw [hnone]
      exact h.gathers.rests (.refl _)
    · next rx rest hring =>
      rcases dispatch_joinType hc with ⟨ht, hrests⟩ | ⟨t, ht, hjoin⟩
      · have ht' : joinType s.listener rx.pdu = none := ht
        have hnone : taken psa o s.listener .rxWork = none := by simp only [taken, hring, ht']
        rw [hnone]
        exact h.gathers.rests hrests
      · exact h.handles hpsa hcarries hring ht hcont hjoin
  · obtain ⟨hnone, hrests⟩ := perform_none hrx hc
    rw [hnone]
    exact h.gathers.rests hrests

/-- A step of the speaker. -/
theorem Sorted.speaker {s : Encounter cfg} (h : s.Sorted psa) {o : Oracle} {inp : Input}
    {c : Node cfg} (hen : Enabled s.speaker inp)
    (hc : LockGrid.perform psa o s.speaker inp = some c) (attempt : ℕ) :
    Sorted psa { s with
      speaker := c
      air := (shotOf psa o s.attempt s.speaker inp).toList ++ s.air
      attempt := attempt
      took := none } := by
  have hstep : LockGrid.Step psa s.speaker c := ⟨inp, o, hen, hc⟩
  have hident : c.ident = s.speaker.ident := hstep.advances.ident
  have hshot : ∀ f, f ∈ (shotOf psa o s.attempt s.speaker inp).toList ++ s.air →
      shotOf psa o s.attempt s.speaker inp = some f ∨ f ∈ s.air := by
    intro f hf
    rcases List.mem_append.mp hf with hf | hf
    · exact .inl (Option.mem_toList.mp hf)
    · exact .inr hf
  refine ⟨?_, ?_, fun f hf => ?_, fun f hf hj => ?_, fun hne f hf => ?_⟩
  · change c.ident.cert.length = certLen
    rw [hident]
    exact h.cert
  · change c.hs.Speaks c.ident.cert
    rw [hident]
    exact perform_speaks h.cert h.speaks hc
  · rcases hshot f hf with hnew | hold
    · exact (shotOf_cut h.speaks hnew).1
    · exact h.typed f hold
  · change f.Cut psa cfg c.ident.cert
    rw [hident]
    rcases hshot f hf with hnew | hold
    · exact (shotOf_cut h.speaks hnew).2 hj
    · exact h.cut f hold hj
  · obtain ⟨hair, htype, hbuf⟩ := h.gathers hne f hf
    exact ⟨List.mem_append_right _ hair, htype, hbuf⟩

theorem Step.sorted {s s' : Encounter cfg} (hpsa : psa.Seals) (hs : Step psa Unmixed s s')
    (h : s.Sorted psa) : s'.Sorted psa := by
  obtain ⟨⟨⟨side, o, inp⟩, hm⟩, hmix⟩ := hs
  cases side with
  | speaker =>
    simp only [Encounter.perform] at hm
    split at hm
    · next hen =>
      obtain ⟨c, hc, rfl⟩ := Option.map_eq_some_iff.mp hm
      exact h.speaker hen.1 hc _
    · cases hm
  | listener =>
    simp only [Encounter.perform] at hm
    split at hm
    · next hen =>
      obtain ⟨c, hc, rfl⟩ := Option.map_eq_some_iff.mp hm
      exact ⟨h.cert, h.speaks, h.typed, h.cut, h.listener hpsa hen.2 hmix hc⟩
    · cases hm

theorem sorted {idS idL : Identity} {s : Encounter cfg} (hpsa : psa.Seals)
    (hcert : idS.cert.length = certLen)
    (h : Relation.ReflTransGen (Step psa Unmixed) (boot cfg idS idL) s) : s.Sorted psa := by
  induction h with
  | refl => exact .boot hcert
  | tail _ hs ih => exact hs.sorted hpsa ih

end Encounter

/-- In every run in which no fragments of two `JOIN_RSP`s and none of different nodes come together,
whatever else is lost, repeated or late, a message that is put together from frames of the speaker
is one that the speaker has staged. -/
theorem completed_staged {idS idL : Identity} {s : Encounter cfg} {o : Oracle} {t : FrameType}
    {msg : Bytes} (hpsa : psa.Seals) (hcert : idS.cert.length = certLen)
    (h : Relation.ReflTransGen (Encounter.Step psa Encounter.Unmixed) (.boot cfg idS idL) s)
    (hcarries : s.Carries .rxWork)
    (hcont : ∀ f ∈ (taken psa o s.listener .rxWork).bind s.shotFor, s.Continues f)
    (hdone : completed psa o s.listener = some (s.speaker.ident.addr, t, msg)) :
    ∃ f ∈ s.air, f.type = t ∧ f.msg = msg := by
  have hsorted := Encounter.sorted hpsa hcert h
  unfold completed at hdone
  split at hdone
  · cases hdone
  · next rx rest hring =>
    split at hdone
    · cases hdone
    · next u hu =>
      obtain ⟨hframe, hj⟩ := joinType_spec hu
      have hctx := contextFor_buffer o { s.listener with rxRing := rest } u (getLe16 rx.pdu offSrc)
        rx.airStartUs
      split at hdone
      · cases hdone
      · next i d he =>
        rw [he] at hctx
        rw [taken_some hring hu he] at hcont
        split at hdone
        · cases hdone
        · next e hre =>
          simp only [Option.some.injEq, Prod.mk.injEq] at hdone
          obtain ⟨hsrc, rfl, rfl⟩ := hdone
          have ho : opensFrame psa o (lgNeighRxRssi d i rx.rssi) i rx.pdu = true := by
            by_contra hclosed
            have hno := (reassemble_closed u (Bool.eq_false_of_not_eq_true hclosed)).1
            rw [hre] at hno
            cases hno
          rw [ho, if_pos rfl] at hcont
          obtain ⟨f, hf, hair, hpdu, rfl⟩ := hsorted.shot hcarries hring hframe hj hsrc
          have hd : (lgNeighRxRssi d i rx.rssi).hs = s.listener.hs ∧ s.listener.hs.n ≠ none ∨
              (lgNeighRxRssi d i rx.rssi).hs.rx = {} :=
            hctx.imp (fun hsame => ⟨hsame.1, hsame.2 nofun⟩) fun hnew => hnew.2
          rw [← hpdu] at ho hre
          obtain ⟨buf, hhs, hwhole, -⟩ := hsorted.reassembles hpsa hair hj hd ho (hcont f hf)
          rw [hre] at hhs hwhole
          obtain ⟨g, hg, htype, hmsg⟩ := hwhole rfl
          refine ⟨g, hg, htype, ?_⟩
          rw [hmsg]
          exact (congrArg (fun hs => hs.rx.msg) hhs).symm

/-! ## A router that answers twice -/

/-- `calm 3` as node 2 would have it, which signs with its own key. -/
def calmAgain : Oracle :=
  { calm 3 with sign := (calm 2).sign, sign_length := (calm 2).sign_length }

/-- Node 2 receives the `JOIN_REQ` of node 1 in a scan, answers in slot 1, receives it again in
slot 2 and answers that in slot 3. -/
def answerRun : List (Side × Oracle × Input) :=
  [(calm 1, .tick 20000), (calm 1, .start), (calm 2, .schedWork), (calm 3, .tick 16000),
    (calm 3, .granted), (calm 3, .tick 13500), (calm 3, .rxDone (reqFrag 0 40000)),
    (calm 3, .rxDone (reqFrag 1 44756)), (calm 6, .rxWork), (calm 2, .rxWork),
    (calm 2, .tick 20500), (calm 2, .rxFailed .timeout), (calm 2, .finishWork (calm 2)),
    (calm 2, .schedWork), (calm 2, .tick 8500), (calm 2, .granted), (calm 2, .txDone 84256),
    (calm 2, .txDone 89012), (calm 2, .tick 13500), (calm 2, .txDone 91560),
    (calm 2, .finishWork (calm 2)), (calm 2, .tick 25000), (calm 2, .granted),
    (calm 2, .tick 13000), (calm 3, .rxDone (reqFrag 0 120000)),
    (calm 3, .rxDone (reqFrag 1 124756)), (calm 6, .rxWork), (calmAgain, .rxWork),
    (calm 3, .tick 10000), (calm 2, .rxFailed .timeout), (calm 2, .finishWork (calm 2)),
    (calm 2, .schedWork), (calm 2, .tick 18500), (calm 2, .granted), (calm 2, .txDone 164256),
    (calm 2, .txDone 169012)].map fun m => (.speaker, m)

/-- Node 1 hears a beacon of node 2, sends its `JOIN_REQ` and listens in slot 1. -/
def askRun : List (Oracle × Input) :=
  [(calm 1, .start), (calm 2, .schedWork), (calm 3, .tick 16000), (calm 3, .granted),
    (calm 3, .tick 5000), (calm 4, .rxDone (plainBeacon 2)), (calm 5, .rxWork),
    (calm 5, .finishWork (calm 5)), (calm 5, .tick 18000), (calm 5, .granted),
    (calm 5, .tick 9000), (calm 5, .txDone 44256), (calm 5, .txDone 48436),
    (calm 5, .finishWork (calm 5)), (calm 5, .tick 30000), (calm 5, .granted)]

/-- It gives up on slot 1, sends its `JOIN_REQ` again and listens in slot 3. -/
def retryRun : List (Oracle × Input) :=
  [(calm 5, .tick 10000), (calm 5, .rxFailed .timeout), (calm 5, .finishWork (calm 5)),
    (calm 5, .schedWork), (calm 5, .tick 23000), (calm 5, .granted), (calm 5, .tick 10000),
    (calm 5, .txDone 124256), (calm 5, .txDone 128436), (calm 5, .finishWork (calm 5)),
    (calm 5, .tick 30000), (calm 5, .granted)]

/-- The frame as it is received. -/
def Shot.heard (f : Shot) : Oracle × Input := (calm 5, .rxDone ⟨f.pdu, -60, f.startUs⟩)

def handled : Oracle × Input := (calm 5, .rxWork)

/-- It hears the first answer. -/
def hearOne : List Shot → List (Side × Oracle × Input)
  | [_, _, _, a2, a1, a0] =>
    (askRun ++ [(calm 5, Input.tick 15000), a0.heard, a1.heard, a2.heard, handled, handled]).map
      fun m => (.listener, m)
  | _ => []

/-- It hears the first fragment of the first answer, and all but the first of the second. -/
def hearBoth : List Shot → List (Side × Oracle × Input)
  | [b2, b1, _, _, _, a0] =>
    (askRun ++ [(calm 5, Input.tick 7000), a0.heard, handled] ++ retryRun ++
      [(calm 5, Input.tick 14000), b1.heard, b2.heard, handled]).map fun m => (.listener, m)
  | _ => []

namespace Encounter

/-- A run of the speaker and then one of the listener, who hears what went on air. -/
theorem exists_reply {P : Encounter cfg → Encounter cfg → Prop} [∀ s s', Decidable (P s s')]
    (psa : Psa) (s : Encounter cfg) (moves : List (Side × Oracle × Input))
    (reply : List Shot → List (Side × Oracle × Input)) (p : Encounter cfg → Bool)
    (h : ((s.run psa P moves).bind fun s' => s'.run psa P (reply s'.air)).any p = true) :
    ∃ s', Relation.ReflTransGen (Step psa P) s s' ∧ p s' = true := by
  obtain ⟨s', hs', hp⟩ := (Option.any_eq_true _ _).mp h
  obtain ⟨e, he, hs'⟩ := Option.bind_eq_some_iff.mp hs'
  exact ⟨s', (run_steps psa he).trans (run_steps psa hs'), hp⟩

end Encounter

set_option maxRecDepth 4000 in
/-- The joiner has the whole answer. -/
theorem completed_staged_whole :
    ∃ (s : Encounter .default) (t : FrameType) (msg : Bytes),
      completed Psa.plain (calm 5) s.listener = some (s.speaker.ident.addr, t, msg) ∧
        t = .joinRsp ∧ ∃ f ∈ s.air, f.type = t ∧ f.msg = msg := by
  obtain ⟨s, hs, hp⟩ := Encounter.exists_reply Psa.plain
    (.boot .default (plainIdent 2 2) (plainIdent 1 1)) answerRun hearOne
    (P := Encounter.Unmixed) (fun s => decide (s.Carries .rxWork ∧
      (∀ f ∈ (taken Psa.plain (calm 5) s.listener .rxWork).bind s.shotFor, s.Continues f) ∧
      (completed Psa.plain (calm 5) s.listener).any fun r =>
        r.1 = s.speaker.ident.addr ∧ r.2.1 = .joinRsp)) (by decide +kernel)
  obtain ⟨hcarries, hcont, hany⟩ := of_decide_eq_true hp
  obtain ⟨⟨addr, t, msg⟩, hdone, hr⟩ := (Option.any_eq_true _ _).mp hany
  obtain ⟨rfl, rfl⟩ := of_decide_eq_true hr
  exact ⟨s, _, msg, hdone, rfl, completed_staged plain_seals (by decide) hs hcarries hcont hdone⟩

set_option maxRecDepth 4000 in
/-- The first fragment of one answer and the rest of the next make a message that nobody has
staged. -/
theorem not_completed_staged_mixed :
    ¬ ∀ (psa : Psa) (idS idL : Identity) (s : Encounter .default) (o : Oracle) (t : FrameType)
      (msg : Bytes), psa.Seals → idS.cert.length = certLen →
      Relation.ReflTransGen (Encounter.Step psa fun _ _ => True) (.boot .default idS idL) s →
      s.Carries .rxWork → completed psa o s.listener = some (s.speaker.ident.addr, t, msg) →
      ∃ f ∈ s.air, f.msg = msg := by
  intro h
  obtain ⟨s, hs, hp⟩ := Encounter.exists_reply Psa.plain
    (.boot .default (plainIdent 2 2) (plainIdent 1 1)) answerRun hearBoth
    (P := fun _ _ => True) (fun s => decide (s.Carries .rxWork ∧
      (completed Psa.plain (calm 5) s.listener).any fun r =>
        r.1 = s.speaker.ident.addr ∧ ∀ f ∈ s.air, f.msg ≠ r.2.2)) (by decide +kernel)
  obtain ⟨hcarries, hany⟩ := of_decide_eq_true hp
  obtain ⟨⟨addr, t, msg⟩, hdone, hr⟩ := (Option.any_eq_true _ _).mp hany
  obtain ⟨rfl, hnone⟩ := of_decide_eq_true hr
  obtain ⟨f, hf, hmsg⟩ := h _ _ _ s _ t msg plain_seals (by decide) hs hcarries hdone
  exact hnone f hf hmsg

end LockGrid
