import LockGrid.Leases
import LockGrid.Overheard
import LockGrid.Release

/-!
# What waits in the queue

For which neighbour the messages of the queue are bound, what the more-data flag of a frame says
of them, and when the copies of a broadcast have someone to go to.
-/
namespace LockGrid

variable {cfg : Config} {psa : Psa} {ident : Identity} {c c' d : Node cfg}
  {i : Fin cfg.maxNeighbors} {o : Oracle}

/-! ## Next hops -/

/-- A route in force over a neighbour that is linked. -/
def Node.Leads (c : Node cfg) (final via : Addr) : Prop :=
  ∃ k, (c.net.routes k).dst = final ∧ c.nowUs < (c.net.routes k).expiryUs ∧
    isLinkedTo c via = true ∧ (c.net.routes k).nextHop = via

/-- A route that is in force is found. -/
theorem Node.Tidy.found (ht : c.Tidy) {k : Fin cfg.maxRoutes}
    (hlive : c.nowUs < (c.net.routes k).expiryUs) :
    (c.net.routes k).dst ≠ addrInvalid ∧ routeFind c (c.net.routes k).dst = some k := by
  have hdst : (c.net.routes k).dst ≠ addrInvalid := by
    intro hzero
    rw [ht.blank k hzero] at hlive
    exact absurd hlive (Nat.not_lt_zero _)
  refine ⟨hdst, ?_⟩
  cases hfind : routeFind c (c.net.routes k).dst with
  | none => exact absurd rfl (routeFind_none hfind k)
  | some j =>
    have hj := routeFind_some hfind
    rw [ht.single j k (by rwa [hj]) hj]

/-- Downwards a message takes the route that leads to its destination, else it goes up. -/
theorem nextHop_of_leads (ht : c.Tidy) {final via : Addr} {flags : UInt8}
    (hdown : ¬ flags &&& dataUpward ≠ 0) (hnear : isLinkedTo c final = false)
    (h : c.Leads final via) : nextHop c final flags = via := by
  obtain ⟨k, rfl, hlive, hlinked, rfl⟩ := h
  have hfound := (ht.found hlive).2
  simp [nextHop, hdown, hnear, hfound, hlive, hlinked]

theorem nextHop_of_none {final : Addr} {flags : UInt8} (hdown : ¬ flags &&& dataUpward ≠ 0)
    (hnear : isLinkedTo c final = false) (h : ∀ via, ¬ c.Leads final via) :
    nextHop c final flags = lgParent c := by
  unfold nextHop
  rw [if_neg hdown, if_neg (by simp [hnear])]
  cases hfind : routeFind c final with
  | none => rfl
  | some k =>
    have hk := routeFind_some hfind
    dsimp only
    split
    · next hlive => exact absurd ⟨k, hk, hlive.1, hlive.2, rfl⟩ (h _)
    · rfl

/-- The messages are the same, and each has the next hop it had. -/
structure SameWay (c d : Node cfg) : Prop where
  txq : d.txq = c.txq
  tidy : d.Tidy
  hop : ∀ m, (msgNextHop d m).1 = (msgNextHop c m).1

theorem SameWay.refl (ht : c.Tidy) : SameWay c c := ⟨rfl, ht, fun _ => rfl⟩

theorem SameWay.trans (h : SameWay c d) (h' : SameWay d c') : SameWay c c' :=
  ⟨h'.txq.trans h.txq, h'.tidy, fun m => (h'.hop m).trans (h.hop m)⟩

theorem isLinkedTo_setRoute (c : Node cfg) (k : Fin cfg.maxRoutes) (r : Route) (addr : Addr) :
    isLinkedTo (setRoute c k r) addr = isLinkedTo c addr := rfl

/-- To forget a dead route leads no message astray. -/
theorem setRoute_leads {k : Fin cfg.maxRoutes}
    (hdead : isLinkedTo c (c.net.routes k).nextHop = false) (final via : Addr) :
    (setRoute c k {}).Leads final via ↔ c.Leads final via := by
  constructor
  · rintro ⟨j, hdst, hlive, hlinked, hvia⟩
    by_cases hj : j = k
    · rw [hj, setRoute_self] at hlive
      exact absurd hlive (Nat.not_lt_zero _)
    · rw [setRoute_others hj] at hdst hlive hvia
      exact ⟨j, hdst, hlive, hlinked, hvia⟩
  · rintro ⟨j, hdst, hlive, hlinked, hvia⟩
    have hj : j ≠ k := by
      rintro rfl
      rw [hvia, hlinked] at hdead
      cases hdead
    refine ⟨j, ?_, ?_, hlinked, ?_⟩
    · rwa [setRoute_others hj]
    · rwa [setRoute_others hj]
    · rwa [setRoute_others hj]

theorem setRoute_nextHop (ht : c.Tidy) {k : Fin cfg.maxRoutes}
    (hdead : isLinkedTo c (c.net.routes k).nextHop = false) (final : Addr) (flags : UInt8) :
    nextHop (setRoute c k {}) final flags = nextHop c final flags := by
  have ht' : (setRoute c k {}).Tidy := (Stocked.of_setRoute c k).tidy ht
  by_cases hdown : flags &&& dataUpward ≠ 0
  · unfold nextHop
    rw [if_pos hdown, if_pos hdown]
    rfl
  cases hnear : isLinkedTo c final with
  | true =>
    unfold nextHop
    rw [if_neg hdown, if_neg hdown, isLinkedTo_setRoute, hnear, if_pos rfl, if_pos rfl]
  | false =>
    by_cases hleads : ∃ via, c.Leads final via
    · obtain ⟨via, hvia⟩ := hleads
      rw [nextHop_of_leads ht hdown hnear hvia,
        nextHop_of_leads (c := setRoute c k {}) ht' hdown hnear
          ((setRoute_leads hdead final via).mpr hvia)]
    · have hnone : ∀ via, ¬ c.Leads final via := fun via hvia => hleads ⟨via, hvia⟩
      have hnone' : ∀ via, ¬ (setRoute c k {}).Leads final via :=
        fun via hvia => hnone via ((setRoute_leads hdead final via).mp hvia)
      rw [nextHop_of_none hdown hnear hnone,
        nextHop_of_none (c := setRoute c k {}) hdown hnear hnone']
      rfl

theorem setRoute_sameWay (ht : c.Tidy) {k : Fin cfg.maxRoutes}
    (hdead : isLinkedTo c (c.net.routes k).nextHop = false) : SameWay c (setRoute c k {}) := by
  refine ⟨rfl, (Stocked.of_setRoute c k).tidy ht, fun m => ?_⟩
  unfold msgNextHop
  split
  · rfl
  · exact setRoute_nextHop ht hdead _ _

theorem msgNextHop_sameWay (ht : c.Tidy) (m : TxMsg) : SameWay c (msgNextHop c m).2 := by
  unfold msgNextHop
  split
  · exact .refl ht
  · change SameWay c (dropDeadRoute c m.finalDst m.flags)
    unfold dropDeadRoute
    split
    · exact .refl ht
    · split
      · dsimp only
        split
        · next hdead => exact setRoute_sameWay ht (by simpa using hdead.2)
        · exact .refl ht
      · exact .refl ht

/-! ## The oldest message -/

/-- Slot `k` holds a message whose next hop is `peer`. -/
def Node.Bound (c : Node cfg) (peer : Addr) (k : Fin cfg.txQueueSize) : Prop :=
  (c.txq k).used = true ∧ (msgNextHop c (c.txq k)).1 = peer

instance (c : Node cfg) (peer : Addr) (k : Fin cfg.txQueueSize) : Decidable (c.Bound peer k) := by
  unfold Node.Bound
  infer_instance

theorem SameWay.bound (h : SameWay c d) (peer : Addr) (k : Fin cfg.txQueueSize) :
    d.Bound peer k ↔ c.Bound peer k := by
  unfold Node.Bound
  rw [h.txq, h.hop]

theorem peekSlot_sameWay {peer : Addr} (st : Option (Fin cfg.txQueueSize) × Node cfg)
    (k : Fin cfg.txQueueSize) (ht : st.2.Tidy) : SameWay st.2 (peekSlot peer st k).2 := by
  have h := msgNextHop_sameWay ht (st.2.txq k)
  unfold peekSlot
  dsimp only
  split
  · exact .refl ht
  · split
    · exact h
    · split
      · exact h
      · split <;> exact h

/-- A round of the loop keeps or finds a message that is bound for `peer`. -/
theorem peekSlot_bound {peer : Addr} (st : Option (Fin cfg.txQueueSize) × Node cfg)
    (k : Fin cfg.txQueueSize) :
    (∀ b, (peekSlot peer st k).1 = some b → st.1 = some b ∨ b = k ∧ st.2.Bound peer k) ∧
      (st.1.isSome ∨ st.2.Bound peer k → (peekSlot peer st k).1.isSome) := by
  unfold peekSlot Node.Bound
  dsimp only
  by_cases hused : (st.2.txq k).used = true
  · by_cases hhop : (msgNextHop st.2 (st.2.txq k)).1 = peer
    · cases hbest : st.1 with
      | none => simp [hused, hhop]
      | some b =>
        simp only [hused, hhop]
        split_ifs <;> simp_all
    · simp [hused, hhop]
  · simp [hused]

theorem foldl_peekSlot {peer : Addr} (l : List (Fin cfg.txQueueSize)) :
    ∀ st : Option (Fin cfg.txQueueSize) × Node cfg, st.2.Tidy →
      SameWay st.2 (l.foldl (peekSlot peer) st).2 ∧
        (∀ b, (l.foldl (peekSlot peer) st).1 = some b →
          st.1 = some b ∨ b ∈ l ∧ st.2.Bound peer b) ∧
        (st.1.isSome ∨ (∃ b ∈ l, st.2.Bound peer b) →
          (l.foldl (peekSlot peer) st).1.isSome) := by
  induction l with
  | nil =>
    intro st ht
    refine ⟨.refl ht, fun b hb => .inl hb, ?_⟩
    rintro (hsome | ⟨b, hmem, -⟩)
    · exact hsome
    · cases hmem
  | cons k l ih =>
    intro st ht
    have hone := @peekSlot_sameWay _ peer st k ht
    obtain ⟨hfrom, hfinds⟩ := @peekSlot_bound _ peer st k
    obtain ⟨hsame, hbound, hsome⟩ := ih (peekSlot peer st k) hone.tidy
    refine ⟨hone.trans hsame, fun b hb => ?_, fun h => hsome ?_⟩
    · rcases hbound b hb with hkept | ⟨hmem, hb'⟩
      · rcases hfrom b hkept with hst | ⟨rfl, hk⟩
        · exact .inl hst
        · exact .inr ⟨List.mem_cons_self, hk⟩
      · exact .inr ⟨List.mem_cons_of_mem k hmem, (hone.bound peer b).mp hb'⟩
    · rcases h with hst | ⟨b, hmem, hb⟩
      · exact .inl (hfinds (.inl hst))
      · rcases List.mem_cons.mp hmem with rfl | hmem
        · exact .inl (hfinds (.inr hb))
        · exact .inr ⟨b, hmem, (hone.bound peer b).mpr hb⟩

theorem lgTxqPeek_sameWay (ht : c.Tidy) (peer : Addr) : SameWay c (lgTxqPeek c peer).2 :=
  (foldl_peekSlot _ (none, c) ht).1

theorem lgTxqPeek_bound (ht : c.Tidy) {peer : Addr} {k : Fin cfg.txQueueSize}
    (h : (lgTxqPeek c peer).1 = some k) : c.Bound peer k := by
  rcases (foldl_peekSlot _ (none, c) ht).2.1 k h with hnone | ⟨-, hk⟩
  · cases hnone
  · exact hk

theorem lgTxqPending_of_bound (ht : c.Tidy) {peer : Addr} {k : Fin cfg.txQueueSize}
    (h : c.Bound peer k) : (lgTxqPending c peer).1 = true :=
  (foldl_peekSlot _ (none, c) ht).2.2 (.inr ⟨k, List.mem_finRange k, h⟩)

/-! ## The more-data flag -/

/-- The control field survives the sealing of a frame. -/
theorem lgSecEncrypt_fcf {ok : Bool} {fields body out : Bytes}
    (hlen : fields.length = hdrLen) (h : (lgSecEncrypt psa ok c i (fields ++ body) hdrLenSec).1 =
      .ok out) : getByte out offFcf = getByte fields offFcf := by
  unfold lgSecEncrypt at h
  dsimp only at h
  split at h
  · cases h
  split at h
  · cases h
  split at h
  · cases h
  split at h
  · cases h
  split at h
  · cases h
  · next hshort _ _ _ _ _ =>
    cases h
    have hctr : (putLe32 ((c.neigh i).keys.txCtr + 1)).length = 4 := rfl
    have hkept : getByte (splice (fields ++ body) offFctr
        (putLe32 ((c.neigh i).keys.txCtr + 1))) offFcf = getByte fields offFcf := by
      unfold splice
      rw [List.take_append_of_le_length (by rw [hlen]; decide), List.append_assoc,
        getByte_append_left, List.take_of_length_le (by rw [hlen]; decide)]
      rw [List.length_take, hlen]
      decide
    have htake : ∀ l : Bytes, hdrLenSec ≤ l.length →
        getByte (l.take hdrLenSec) offFcf = getByte l offFcf := by
      intro l hl
      simp only [getByte, List.getD_eq_getElem?_getD]
      rw [List.getElem?_take_of_lt (by decide)]
    have hlong : hdrLenSec ≤ (splice (fields ++ body) offFctr
        (putLe32 ((c.neigh i).keys.txCtr + 1))).length := by
      rw [splice_length]
      · exact not_lt.mp hshort
      · rw [hctr]
        exact not_lt.mp hshort
    rw [getByte_append_left, htake _ hlong, hkept]
    rw [List.length_take]
    exact lt_min (by decide) (lt_of_lt_of_le (by decide) hlong)

theorem stageSeal_fcf {ok : Bool} {t : FrameType} {more : Bool} {body : Bytes} {staged : Staged}
    (h : stageSeal psa ok c i t more body staged = (true, d)) :
    (d.neigh i).tx.histStaged = staged ∧
      getByte (d.neigh i).tx.txbuf offFcf = (fcfOf t true ||| if more then fcfMd else 0) := by
  have hsec : secured (fcfOf t true ||| if more then fcfMd else 0) = true := by
    cases t <;> cases more <;> rfl
  unfold stageSeal at h
  dsimp only at h
  rw [lgFrameHdrPut_fields, hsec, if_pos rfl, List.append_assoc] at h
  split at h
  · cases h
  · next out e he =>
    cases h
    have hfcf := lgSecEncrypt_fcf (frameFields_length _ _ _ _ _) (congrArg Prod.fst he)
    refine ⟨by simp, ?_⟩
    simp only [Node.setNeigh_neigh, Function.update_self]
    rw [hfcf]
    rfl

/-- The frame staged for neighbour `i` says that there is more. -/
def Node.saysMore (c : Node cfg) (i : Fin cfg.maxNeighbors) : Prop :=
  getByte (c.neigh i).tx.txbuf offFcf &&& fcfMd ≠ 0

instance (c : Node cfg) (i : Fin cfg.maxNeighbors) : Decidable (c.saysMore i) := by
  unfold Node.saysMore
  infer_instance

/-- Every data frame says that there is more: the message it carries is still queued when
`lg_txq_pending` is asked. -/
theorem lgLinkStageTx_data (ht : c.Tidy) {ok : Bool} {uid : ℕ}
    (h : lgLinkStageTx psa ok c i = (true, d)) (hdata : (d.neigh i).tx.histStaged = .data uid) :
    d.saysMore i ∧ ∃ k, (lgTxqPeek c (c.neigh i).addr).1 = some k ∧ (c.txq k).histUid = uid ∧
      c.Bound (c.neigh i).addr k := by
  unfold lgLinkStageTx at h
  dsimp only at h
  split at h
  · cases h
  split at h
  · rw [(stageSeal_fcf h).1] at hdata
    cases hdata
  split at h
  · rw [(stageSeal_fcf h).1] at hdata
    cases hdata
  · let e := c.setTx i { (c.neigh i).tx with txWasCtrl := false }
    have hte : e.Tidy := ⟨ht.single, ht.blank⟩
    have hhops : SameHops c e := by
      refine ⟨rfl, rfl, fun j => ?_, fun _ => rfl, rfl⟩
      by_cases hj : j = i
      · subst hj
        simp [e, Node.setTx]
      · simp [e, Node.setTx, hj]
    have hbound : ∀ k, e.Bound (c.neigh i).addr k → c.Bound (c.neigh i).addr k :=
      fun k hk => ⟨hk.1, (hhops.msgNextHop (c.txq k)).1 ▸ hk.2⟩
    have hpeek := hhops.peek (c.neigh i).addr
    split at h
    · next k f he =>
      have he : lgTxqPeek e (c.neigh i).addr = (some k, f) := he
      rw [he] at hpeek
      have hsame := lgTxqPeek_sameWay hte (c.neigh i).addr
      rw [he] at hsame
      have hk : e.Bound (c.neigh i).addr k := lgTxqPeek_bound hte (congrArg Prod.fst he)
      have hmore : (lgTxqPending f (c.neigh i).addr).1 = true :=
        lgTxqPending_of_bound hsame.tidy ((hsame.bound _ k).mpr hk)
      rw [hmore] at h
      obtain ⟨hstaged, hfcf⟩ := stageSeal_fcf h
      rw [hdata] at hstaged
      refine ⟨?_, k, hpeek.symm, ?_, hbound k hk⟩
      · rw [Node.saysMore, hfcf]
        decide
      · rw [Staged.data.inj hstaged, hsame.txq]
        rfl
    · rw [(stageSeal_fcf h).1] at hdata
      cases hdata

/-- A data frame says whether another message waits for the neighbour exactly if one does. -/
theorem more_data_iff (ht : c.Tidy) {ok : Bool} {uid : ℕ}
    (h : lgLinkStageTx psa ok c i = (true, d)) (hdata : (d.neigh i).tx.histStaged = .data uid) :
    ∃ k, (lgTxqPeek c (c.neigh i).addr).1 = some k ∧ (c.txq k).histUid = uid ∧
      c.Bound (c.neigh i).addr k ∧
      ((d.saysMore i ↔ ∃ j, j ≠ k ∧ c.Bound (c.neigh i).addr j) ↔
        ∃ j, j ≠ k ∧ c.Bound (c.neigh i).addr j) := by
  obtain ⟨hmore, k, hpeek, huid, hk⟩ := lgLinkStageTx_data ht h hdata
  refine ⟨k, hpeek, huid, hk, ?_⟩
  simp only [hmore, true_iff]

/-- What `lg_link_stage_tx` makes of the node is a data frame from slot 0 for neighbour 0. -/
def stagesFirst (c : Node .default) : Bool :=
  (lgLinkStageTx Psa.plain true c firstNeigh).1 &&
    decide (((lgLinkStageTx Psa.plain true c firstNeigh).2.neigh firstNeigh).tx.histStaged =
      .data (c.txq firstSlot).histUid ∧
      (lgTxqPeek c (c.neigh firstNeigh).addr).1 = some firstSlot)

theorem stagesFirst_spec {c : Node .default} (h : stagesFirst c = true) :
    lgLinkStageTx Psa.plain true c firstNeigh =
        (true, (lgLinkStageTx Psa.plain true c firstNeigh).2) ∧
      ((lgLinkStageTx Psa.plain true c firstNeigh).2.neigh firstNeigh).tx.histStaged =
        .data (c.txq firstSlot).histUid ∧
      (lgTxqPeek c (c.neigh firstNeigh).addr).1 = some firstSlot := by
  simp only [stagesFirst, Bool.and_eq_true, decide_eq_true_eq] at h
  exact ⟨Prod.ext h.1 rfl, h.2⟩

/-- A second message waits, and the frame that carries the first says so. -/
theorem more_data_iff_two :
    ∃ c : Node .default, Reachable Psa.plain (plainIdent 1 1) c ∧
      (lgLinkStageTx Psa.plain true c firstNeigh).2.saysMore firstNeigh ∧
      ∃ j, j ≠ firstSlot ∧ c.Bound (c.neigh firstNeigh).addr j := by
  obtain ⟨c, hc, hp⟩ := exists_reachable Psa.plain (plainIdent 1 1)
    (stagedRun.dropLast ++ [(calm 14, Input.send 2 1 [43] 0)])
    (fun c : Node .default => stagesFirst c &&
      decide (∃ j, j ≠ firstSlot ∧ c.Bound (c.neigh firstNeigh).addr j)) (by decide +kernel)
  rw [Bool.and_eq_true] at hp
  obtain ⟨hstage, hdata, hpeek⟩ := stagesFirst_spec hp.1
  have hother := of_decide_eq_true hp.2
  obtain ⟨k, hk, -, -, hiff⟩ := more_data_iff hc.meeting.tidy hstage hdata
  have hfirst : firstSlot = k := Option.some.inj (hpeek.symm.trans hk)
  subst hfirst
  exact ⟨c, hc, (hiff.mpr hother).mpr hother, hother⟩

/-- The only message of the queue goes out, and the frame says that there is more. -/
theorem not_more_data_last :
    ¬ ∀ (psa : Psa) (ok : Bool) (c d : Node .default) (i : Fin Config.default.maxNeighbors)
      (uid : ℕ), c.Tidy → lgLinkStageTx psa ok c i = (true, d) →
      (d.neigh i).tx.histStaged = .data uid →
      ∃ k, (lgTxqPeek c (c.neigh i).addr).1 = some k ∧ (c.txq k).histUid = uid ∧
        (d.saysMore i ↔ ∃ j, j ≠ k ∧ c.Bound (c.neigh i).addr j) := by
  intro h
  obtain ⟨c, hc, hp⟩ := exists_reachable Psa.plain (plainIdent 1 1) stagedRun.dropLast
    (fun c : Node .default => stagesFirst c &&
      decide ((lgLinkStageTx Psa.plain true c firstNeigh).2.saysMore firstNeigh ∧
        ∀ j, j ≠ firstSlot → ¬ c.Bound (c.neigh firstNeigh).addr j)) (by decide +kernel)
  rw [Bool.and_eq_true] at hp
  obtain ⟨hstage, hdata, hpeek⟩ := stagesFirst_spec hp.1
  obtain ⟨hmore, hnone⟩ := of_decide_eq_true hp.2
  obtain ⟨k, hk, -, hiff⟩ := h _ _ c _ firstNeigh _ hc.meeting.tidy hstage hdata
  have hfirst : firstSlot = k := Option.some.inj (hpeek.symm.trans hk)
  subst hfirst
  obtain ⟨j, hj, hbound⟩ := hiff.mp hmore
  exact hnone j hj hbound

/-! ## Copies of a broadcast -/

/-- Every copy of a broadcast is addressed to a neighbour that is linked. -/
def Node.CopiesServed (c : Node cfg) : Prop :=
  ∀ q, (c.txq q).Pinned →
    ∃ i, (c.neigh i).state = .linked ∧ (c.neigh i).addr = (c.txq q).finalDst

/-- The link that ends, if one does, is none that a copy waits for. -/
def Call.Unawaited (k : Call cfg) : Prop :=
  match k.deed with
  | .down i | .openContext i _ _ => (k.node.neigh i).state = .linked →
    ∀ q, (k.node.txq q).Pinned → (k.node.txq q).finalDst ≠ (k.node.neigh i).addr
  | _ => True

instance (m : TxMsg) : Decidable m.Pinned := by
  unfold TxMsg.Pinned
  infer_instance

instance (k : Call cfg) : Decidable k.Unawaited := by
  obtain ⟨o, c, deed⟩ := k
  rcases deed <;> unfold Call.Unawaited <;> dsimp only <;> infer_instance

theorem Stocked.copiesServed (h : Stocked c c')
    (hkept : ∀ j, (c.neigh j).state = .linked →
      (c'.neigh j).state = .linked ∧ (c'.neigh j).addr = (c.neigh j).addr)
    (hc : c.CopiesServed) : c'.CopiesServed := by
  intro q hq
  rcases h.copies q hq with hold | ⟨i, hl, haddr⟩
  · rw [hold] at hq ⊢
    obtain ⟨i, hl, haddr⟩ := hc q hq
    exact ⟨i, (hkept i hl).1, (hkept i hl).2.trans haddr⟩
  · exact ⟨i, (hkept i hl).1, (hkept i hl).2.trans haddr⟩

theorem Steady.copiesServed (h : Steady c c') (hc : c.CopiesServed) : c'.CopiesServed := by
  refine h.stock.copiesServed (fun j hl => ?_) hc
  rw [h.state, h.addr]
  exact ⟨hl, rfl⟩

/-- The queue is as it was, or holds no copy. -/
theorem Call.result_queue {k : Call cfg} (hm : k.deed.Moves) (hf : k.Fits)
    (h : k.result psa = some d) : d.txq = k.node.txq ∨ ∀ q, ¬ (d.txq q).Pinned := by
  have hengages : ∀ {i}, Engages i k.node d → d.txq = k.node.txq :=
    fun he => congrArg (fun p => p.2.2) he.rest
  obtain ⟨o, c, deed⟩ := k
  cases deed with
  | alloc src =>
    cases h
    exact .inl (congrArg Prod.snd (lgNeighAlloc_freight c src))
  | free i =>
    cases h
    obtain ⟨_, _, _, _, h⟩ := lgNeighFree_table c i
    rw [h]
    exact .inl rfl
  | begin i =>
    cases h
    exact .inl (hengages (lgJoinStart_embarks o hf.1 hf.2.1).toEngages)
  | fail i =>
    cases h
    exact .inl (hengages (joinFail_engages c i))
  | close =>
    cases h
    exact .inl rfl
  | openContext i resuming airStartUs =>
    cases h
    exact .inl rfl
  | establish i pp initiator =>
    obtain ⟨e, he, rfl⟩ := Option.map_eq_some_iff.mp h
    exact .inl (congrArg Prod.snd (lgLinkEstablish_freight he))
  | down i =>
    cases h
    exact .inl (lgLinkDown_txq o c i)
  | start =>
    cases h
    exact lgStart_queue psa o c
  | adv | ctrl | role | advance | subrate | stage | tick | uplink | halt => cases hm

/-- A link that is up stays up, unless it goes down or the peer begins anew. -/
theorem Call.result_linked {k : Call cfg} (hm : k.deed.Moves) (hf : k.Fits)
    (h : k.result psa = some d) {j : Fin cfg.maxNeighbors}
    (hl : (k.node.neigh j).state = .linked) :
    (d.neigh j).state = .linked ∧ (d.neigh j).addr = (k.node.neigh j).addr ∨
      k.deed = .down j ∨ (∃ r t, k.deed = .openContext j r t) ∨ k.deed = .start := by
  have hsame : d.neigh j = k.node.neigh j →
      (d.neigh j).state = .linked ∧ (d.neigh j).addr = (k.node.neigh j).addr := by
    intro heq
    rw [heq]
    exact ⟨hl, rfl⟩
  have hengages : ∀ {i}, Engages i k.node d → (k.node.neigh i).state ≠ .linked →
      (d.neigh j).state = .linked ∧ (d.neigh j).addr = (k.node.neigh j).addr := by
    intro i he hi
    refine hsame (he.others j ?_)
    rintro rfl
    exact hi hl
  obtain ⟨o, c, deed⟩ := k
  cases deed with
  | alloc src =>
    cases h
    rcases alloc_entry c src j with ⟨hn, -⟩ | ⟨hfree, -, -⟩
    · exact .inl (hsame hn)
    · cases hl.symm.trans hfree
  | free i =>
    cases h
    rcases free_entry c i j with ⟨rfl, -, -⟩ | ⟨-, hn, -⟩
    · exact absurd hl hf.1
    · exact .inl (hsame hn)
  | begin i =>
    cases h
    exact .inl (hengages (lgJoinStart_embarks o hf.1 hf.2.1).toEngages hf.2.1)
  | fail i =>
    cases h
    exact .inl (hengages (joinFail_engages c i) hf.2.1)
  | close =>
    cases h
    exact .inl (hsame rfl)
  | openContext i resuming airStartUs =>
    cases h
    by_cases hj : j = i
    · subst hj
      exact .inr (.inr (.inl ⟨_, _, rfl⟩))
    · exact .inl (hsame ((openContext_engages c i resuming airStartUs).others j hj))
  | establish i pp initiator =>
    obtain ⟨e, he, rfl⟩ := Option.map_eq_some_iff.mp h
    obtain ⟨haddr, ⟨-, hup⟩ | ⟨-, hstate⟩⟩ := lgLinkEstablish_entry he j
    · exact .inl ⟨hup, haddr⟩
    · exact .inl ⟨hstate.trans hl, haddr⟩
  | down i =>
    cases h
    obtain ⟨haddr, hstate | ⟨rfl, -, -⟩⟩ := lgLinkDown_entry o c i j
    · exact .inl ⟨hstate.trans hl, haddr⟩
    · exact .inr (.inl rfl)
  | start => exact .inr (.inr (.inr rfl))
  | adv | ctrl | role | advance | subrate | stage | tick | uplink | halt => cases hm

theorem Call.registered_neigh (k : Call cfg) : k.registered.neigh = k.node.neigh := by
  have hregister : ∀ (via : Addr) (hops : UInt8) (dests : List Addr) (c : Node cfg),
      (c.register via hops dests).neigh = c.neigh := by
    intro via hops dests
    induction dests with
    | nil => exact fun c => rfl
    | cons a dests ih => exact fun c => (ih _).trans (lgRouteAdd_quiet c a via hops).neigh
  unfold Call.registered
  split
  · exact hregister _ _ _ _
  · rfl

theorem Call.registered_txq (k : Call cfg) : k.registered.txq = k.node.txq := by
  have hregister : ∀ (via : Addr) (hops : UInt8) (dests : List Addr) (c : Node cfg),
      (c.register via hops dests).txq = c.txq := by
    intro via hops dests
    induction dests with
    | nil => exact fun c => rfl
    | cons a dests ih => exact fun c => (ih _).trans (lgRouteAdd_quiet c a via hops).txq
  unfold Call.registered
  split
  · exact hregister _ _ _ _
  · rfl

theorem Call.result_copiesServed {k : Call cfg} (hk : k.Unawaited) (hf : k.Fits)
    (h : k.result psa = some d) (hc : k.node.CopiesServed) : d.CopiesServed := by
  by_cases hm : k.deed.Moves
  · rcases Call.result_queue hm hf h with hqueue | hnone
    · intro q hq
      rw [hqueue] at hq ⊢
      obtain ⟨j, hl, haddr⟩ := hc q hq
      unfold Call.Unawaited at hk
      rcases Call.result_linked hm hf h hl with ⟨hup, hsame⟩ | hdown | ⟨r, t, hopen⟩ | hstart
      · exact ⟨j, hup, hsame.trans haddr⟩
      · rw [hdown] at hk
        exact absurd haddr.symm (hk hl q hq)
      · rw [hopen] at hk
        exact absurd haddr.symm (hk hl q hq)
      · obtain ⟨o, c, deed⟩ := k
        cases hstart
        cases h
        rcases lgStart_freight psa o c with heq | hempty
        · change ∃ i, ((lgStart psa o c).neigh i).state = .linked ∧
            ((lgStart psa o c).neigh i).addr = _
          rw [heq]
          exact ⟨j, hl, haddr⟩
        · have hblank : (lgStart psa o c).txq = fun _ => {} := congrArg Prod.snd hempty
          change (lgStart psa o c).txq = c.txq at hqueue
          rw [← hqueue, hblank] at hq
          cases hq.1
    · exact fun q hq => absurd hq (hnone q)
  · have hplaced := Call.result_placed hm hf h
    have hstock := Call.result_stocked hf h
    refine hstock.copiesServed (fun j hl => ?_) ?_
    · rw [k.registered_neigh] at hl ⊢
      exact ⟨(hplaced.state j).trans hl, hplaced.addr j⟩
    · intro q hq
      rw [k.registered_txq] at hq ⊢
      rw [k.registered_neigh]
      exact hc q hq

/-- In every run in which no link ends that a copy of a broadcast waits for, every copy is
addressed to a neighbour that is linked. -/
theorem copies_served (h : ReachableMeeting psa ident Call.Unawaited c) (q : Fin cfg.txQueueSize)
    (hused : (c.txq q).used = true) (hcopy : (c.txq q).flags &&& dataBroadcast ≠ 0) :
    ∃ i, (c.neigh i).state = .linked ∧ (c.neigh i).addr = (c.txq q).finalDst := by
  have hserved : c.CopiesServed := h.keeps (fun q hq => by cases hq.1) Steady.copiesServed
    fun k d hk hf hr hc => Call.result_copiesServed hk hf hr hc
  exact hserved q ⟨hused, hcopy⟩

/-- Node 1 joins node 2 and sends a broadcast. -/
def broadcastRun : List (Oracle × Input) :=
  (joinedWith pacedParams [[ctrlTeardown]]).dropLast ++
    [(calm 6, Input.send addrBroadcast 1 [42] 0)]

/-- The copy waits for node 2. -/
theorem copies_served_one :
    ∃ c : Node .default, ReachableMeeting Psa.plain (plainIdent 1 1) Call.Unawaited c ∧
      (c.txq firstSlot).used = true ∧
      ∃ i, (c.neigh i).state = .linked ∧ (c.neigh i).addr = (c.txq firstSlot).finalDst := by
  obtain ⟨c, hc, hp⟩ := exists_reachableMeeting (K := Call.Unawaited) Psa.plain (plainIdent 1 1)
    broadcastRun (fun c : Node .default => decide ((c.txq firstSlot).used = true ∧
      (c.txq firstSlot).flags &&& dataBroadcast ≠ 0)) (by decide +kernel)
  obtain ⟨hused, hcopy⟩ := of_decide_eq_true hp
  exact ⟨c, hc, hused, copies_served hc firstSlot hused hcopy⟩

/-- Node 2 tears the link down, and the copy for it stays. -/
theorem not_copies_served_teardown :
    ¬ ∀ (psa : Psa) (ident : Identity) (c : Node .default), Reachable psa ident c →
      ∀ q, (c.txq q).used = true → (c.txq q).flags &&& dataBroadcast ≠ 0 →
        ∃ i, (c.neigh i).state = .linked ∧ (c.neigh i).addr = (c.txq q).finalDst := by
  intro h
  obtain ⟨c, hc, hp⟩ := exists_reachable Psa.plain (plainIdent 1 1)
    (broadcastRun ++ [(calm 6, Input.rxWork)])
    (fun c : Node .default => decide (((c.txq firstSlot).used = true ∧
      (c.txq firstSlot).flags &&& dataBroadcast ≠ 0) ∧ ∀ i, (c.neigh i).state ≠ .linked))
    (by decide +kernel)
  obtain ⟨⟨hused, hcopy⟩, hnone⟩ := of_decide_eq_true hp
  obtain ⟨i, hl, -⟩ := h _ _ c hc firstSlot hused hcopy
  exact hnone i hl

end LockGrid
