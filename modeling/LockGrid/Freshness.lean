import LockGrid.Announce
import LockGrid.Entries
import LockGrid.Origin

/-!
# Control frames in step with their change

A control frame waits in the buffer of its link until an event puts it on air, and `txWasCtrl` waits
for the reply. What these two stand for is kept beside the node: for each link the change in the
frame that is staged. Frame and change stay in step as long as whatever clears or replaces a change
finds no control frame staged, or stages the link anew.
-/
namespace LockGrid

variable {cfg : Config} {psa : Psa} {ident : Identity} {c c' d : Node cfg}
  {i j : Fin cfg.maxNeighbors} {o : Oracle}

/-! ## One link -/

/-- The staged frame of a link that is up is what its flag says it is: a control frame for the
change that is pending, or none for a change. -/
def Neigh.InStep (n : Neigh) (frame : Option Bytes) : Prop :=
  n.state = .linked → n.tx.txPending = true → n.keys.hasKey = true ∧
    if n.tx.txWasCtrl then n.sched.pendingCtrl.any = true ∧ frame = changeBody n else frame = none

/-- A change that is pending and acknowledged is the one in the control frame replied to last. -/
def Neigh.Answered (n : Neigh) (replied : Option Bytes) : Prop :=
  n.state = .linked → n.sched.initiator = true → n.sched.ctrlAcked = true →
    n.sched.pendingCtrl.any = true → replied = changeBody n

/-- `lg_link_advance` comes to the instant of a change whose control frame is staged. -/
def Neigh.Outruns (n : Neigh) : Prop :=
  n.tx.txPending = true ∧ n.tx.txWasCtrl = true ∧
    n.sched.instant ≤ nextActive n.sched (counterOf n.sched)

/-- No control frame is staged, and no change acknowledged. -/
def Neigh.Unbound (n : Neigh) : Prop :=
  ¬ (n.tx.txPending = true ∧ n.tx.txWasCtrl = true) ∧
    ¬ (n.sched.initiator = true ∧ n.sched.ctrlAcked = true)

/-- What a call makes of an entry; a change is cleared only if the call is `a`. -/
inductive Becomes (a : Prop) (n n' : Neigh) : Prop
  | unlinked (h : n'.state ≠ .linked)
  /-- The link has just come up. -/
  | fresh (hstaged : n'.tx.txPending = false) (hidle : n'.sched.pendingCtrl.any = false)
  | same (hstate : n'.state = n.state) (h : Unstirred False n n')
  /-- The change is applied or given up. -/
  | cleared (ha : a) (hstate : n'.state = n.state) (hkeys : n'.keys = n.keys) (htx : n'.tx = n.tx)
    (hidle : n'.sched.pendingCtrl.any = false)
    (hdue : n.sched.instant ≤ nextActive n.sched (counterOf n.sched))
  /-- The peer has asked for another change. -/
  | asked (hstate : n'.state = n.state) (hkeys : n'.keys = n.keys) (htx : n'.tx = n.tx)
    (hini : n'.sched.initiator = n.sched.initiator)
    (hacked : n'.sched.ctrlAcked = n.sched.ctrlAcked) (hunbound : n.Unbound)

namespace Becomes

variable {a : Prop} {n n' : Neigh}

theorem refl (n : Neigh) : Becomes a n n := .same rfl (.refl n)

theorem of_eq (h : n' = n) : Becomes a n n' := by
  rw [h]
  exact .refl n

theorem imp {b : Prop} (h : Becomes a n n') (hab : a → b) : Becomes b n n' := by
  cases h with
  | unlinked h => exact .unlinked h
  | fresh hstaged hidle => exact .fresh hstaged hidle
  | same hstate h => exact .same hstate h
  | cleared ha hstate hkeys htx hidle hdue => exact .cleared (hab ha) hstate hkeys htx hidle hdue
  | asked hstate hkeys htx hini hacked hunbound =>
    exact .asked hstate hkeys htx hini hacked hunbound

end Becomes

/-- Work that leaves the change alone keeps the frame in step. -/
theorem Unstirred.inStep {r : Prop} {n n' : Neigh} {frame : Option Bytes} (h : Unstirred r n n')
    (hstate : n'.state = n.state) (hn : n.InStep frame) : n'.InStep frame := by
  intro hl ht
  obtain ⟨hkey, hframe⟩ := hn (hstate ▸ hl) (h.staged ▸ ht)
  refine ⟨h.hasKey.trans hkey, ?_⟩
  rw [h.wasCtrl]
  split
  · next hctrl =>
    rw [if_pos hctrl] at hframe
    have hchange := h.change hframe.1
    exact ⟨(any_eq hchange).trans hframe.1, hframe.2.trans (changeBody_congr hchange).symm⟩
  · next hctrl =>
    rw [if_neg hctrl] at hframe
    exact hframe

/-- Work that leaves the change alone, and takes no reply, keeps the acknowledgement in step. -/
theorem Unstirred.answered {n n' : Neigh} {replied : Option Bytes} (h : Unstirred False n n')
    (hstate : n'.state = n.state) (hn : n.Answered replied) : n'.Answered replied := by
  intro hl hini hack hany
  rcases h.acked hack with ⟨hf, -⟩ | ⟨hold, hchange⟩
  · exact hf.elim
  · have hini' : n.sched.initiator = true := by
      have heq : n'.sched.initiator = n.sched.initiator := congrArg Prod.fst hchange
      rw [← heq]
      exact hini
    rw [hn (hstate ▸ hl) hini' hold ((any_eq hchange).symm.trans hany)]
    exact (changeBody_congr hchange).symm

namespace Becomes

variable {a : Prop} {n n' : Neigh} {frame : Option Bytes}

/-- The frame stays in step unless it is a control frame whose change is cleared. -/
theorem inStep (h : Becomes a n n') (hout : a → ¬ n.Outruns) (hn : n.InStep frame) :
    n'.InStep frame := by
  cases h with
  | unlinked h => exact fun hl => absurd hl h
  | fresh hstaged => exact fun _ ht => by rw [hstaged] at ht; cases ht
  | same hstate h => exact h.inStep hstate hn
  | cleared ha hstate hkeys htx _ hdue =>
    intro hl ht
    rw [htx] at ht ⊢
    rw [hkeys]
    obtain ⟨hkey, hframe⟩ := hn (hstate ▸ hl) ht
    refine ⟨hkey, ?_⟩
    split
    · next hctrl => exact absurd ⟨ht, hctrl, hdue⟩ (hout ha)
    · next hctrl =>
      rw [if_neg hctrl] at hframe
      exact hframe
  | asked hstate hkeys htx _ _ hunbound =>
    intro hl ht
    rw [htx] at ht ⊢
    rw [hkeys]
    obtain ⟨hkey, hframe⟩ := hn (hstate ▸ hl) ht
    refine ⟨hkey, ?_⟩
    split
    · next hctrl => exact absurd ⟨ht, hctrl⟩ hunbound.1
    · next hctrl =>
      rw [if_neg hctrl] at hframe
      exact hframe

/-- A frame that is staged has been sealed with the key of its link. -/
theorem keyed (h : Becomes a n n')
    (hn : n.state = .linked → n.tx.txPending = true → n.keys.hasKey = true) :
    n'.state = .linked → n'.tx.txPending = true → n'.keys.hasKey = true := by
  intro hl ht
  cases h with
  | unlinked h => exact absurd hl h
  | fresh hstaged =>
    rw [hstaged] at ht
    cases ht
  | same hstate h => exact h.hasKey.trans (hn (hstate ▸ hl) (h.staged ▸ ht))
  | cleared _ hstate hkeys htx =>
    rw [hkeys]
    exact hn (hstate ▸ hl) (htx ▸ ht)
  | asked hstate hkeys htx =>
    rw [hkeys]
    exact hn (hstate ▸ hl) (htx ▸ ht)

/-- The acknowledgement stays in step. -/
theorem answered {replied : Option Bytes} (h : Becomes a n n') (hn : n.Answered replied) :
    n'.Answered replied := by
  cases h with
  | unlinked h => exact fun hl => absurd hl h
  | fresh _ hidle => exact fun _ _ _ hany => by rw [hidle] at hany; cases hany
  | same hstate h => exact h.answered hstate hn
  | cleared _ _ _ _ hidle => exact fun _ _ _ hany => by rw [hidle] at hany; cases hany
  | asked _ _ _ hini hacked hunbound =>
    exact fun _ hi hack _ => absurd ⟨hini ▸ hi, hacked ▸ hack⟩ hunbound.2

end Becomes

/-! ## What calls make of an entry -/

theorem stageSeal_wasCtrl (psa : Psa) (ok : Bool) (c : Node cfg) (i : Fin cfg.maxNeighbors)
    (t : FrameType) (more : Bool) (body : Bytes) (staged : Staged) :
    ((stageSeal psa ok c i t more body staged).2.neigh i).tx.txWasCtrl =
      (c.neigh i).tx.txWasCtrl := by
  have henc : ∀ (d : Node cfg) pdu hdr, ((lgSecEncrypt psa ok d i pdu hdr).2.neigh i).tx =
      (d.neigh i).tx := by
    intro d pdu hdr
    rcases lgSecEncrypt_cases psa ok d i pdu hdr with he | ⟨-, he⟩ | ⟨key, aad, plain, -, -, he⟩
    all_goals rw [he]
    all_goals simp [useCtr, Node.setKeys]
  unfold stageSeal
  dsimp only
  split <;> next he =>
    have hs := congrArg TxStage.txWasCtrl (congrArg Prod.snd he ▸ henc _ _ _)
    simpa using hs

/-- The frame that is staged is a control frame for a change exactly if one is pending. -/
theorem lgLinkStageTx_wasCtrl (psa : Psa) (ok : Bool) (hr : (c.neigh i).Ready) :
    ((lgLinkStageTx psa ok c i).2.neigh i).tx.txWasCtrl =
      (c.neigh i).sched.pendingCtrl.any := by
  have hset : ∀ (d : Node cfg) (t : TxStage), ((d.setTx i t).neigh i).tx = t := by
    intro d t
    simp [Node.setTx]
  unfold lgLinkStageTx
  dsimp only
  rw [if_neg hr.not_refused]
  cases hany : (c.neigh i).sched.pendingCtrl.any with
  | true =>
    rw [if_pos rfl, stageSeal_wasCtrl, hset]
  | false =>
    rw [if_neg Bool.false_ne_true]
    split
    · rw [stageSeal_wasCtrl, (noteAdvertised_quiet _ i).neigh, hset]
    · have hq := lgTxqPeek_quiet (c.setTx i { (c.neigh i).tx with txWasCtrl := false })
        (c.neigh i).addr
      split
      · next k d hp =>
        rw [hp] at hq
        have hd : (d.neigh i).tx.txWasCtrl = false := by rw [hq.tx_eq]
        rw [stageSeal_wasCtrl, hset, lgTxqPending, (lgTxqPeek_quiet d _).neigh]
        exact hd
      · next d hp =>
        rw [hp] at hq
        have hd : (d.neigh i).tx.txWasCtrl = false := by rw [hq.tx_eq]
        rw [stageSeal_wasCtrl]
        simp [Node.setTx, hd]


theorem stageSeal_others (psa : Psa) (ok : Bool) (c : Node cfg) (t : FrameType) (more : Bool)
    (body : Bytes) (staged : Staged) (h : j ≠ i) :
    (stageSeal psa ok c i t more body staged).2.neigh j = c.neigh j := by
  have hset : ∀ (d : Node cfg) (n : Neigh), (d.setNeigh i n).neigh j = d.neigh j := by
    intro d n
    simp [h]
  have henc : ∀ (d : Node cfg) pdu hdr, (lgSecEncrypt psa ok d i pdu hdr).2.neigh j =
      d.neigh j := by
    intro d pdu hdr
    rcases lgSecEncrypt_cases psa ok d i pdu hdr with he | ⟨-, he⟩ | ⟨key, aad, plain, -, -, he⟩
    all_goals rw [he]
    · exact hset d _
    · exact hset d _
  unfold stageSeal
  dsimp only
  split <;> next he =>
    have hs := congrArg Prod.snd he ▸ henc _ _ _
    exact (hset _ _).trans (hs.trans (hset _ _))

theorem lgLinkStageTx_others (psa : Psa) (ok : Bool) (c : Node cfg) (h : j ≠ i) :
    (lgLinkStageTx psa ok c i).2.neigh j = c.neigh j := by
  rcases lgLinkStageTx_cases psa ok c i with he | ⟨t, staged, d, ft, more, body, -, hq, he⟩ <;>
    rw [he]
  rw [stageSeal_others psa ok d ft more body staged h, hq.neigh]
  simp [Node.setTx, h]

/-- A control frame that is neither an advertisement nor a teardown bears on what is pending on its
own link, and on the interval. -/
theorem handleCtrl_entry (o : Oracle) (c : Node cfg) (i : Fin cfg.maxNeighbors) {body : Bytes}
    (hadv : getByte body 0 ≠ ctrlRouteAdv) (hdown : getByte body 0 ≠ ctrlTeardown) :
    (∀ j, j ≠ i → (handleCtrl o c i body).neigh j = c.neigh j) ∧
      ∃ s, (handleCtrl o c i body).neigh i = { c.neigh i with sched := s } ∧
        s.initiator = (c.neigh i).sched.initiator ∧ s.ctrlAcked = (c.neigh i).sched.ctrlAcked := by
  rcases handleCtrl_cases o c i body with h | ⟨s, h, hini, hacked⟩ | ⟨hop, -⟩ | ⟨-, h⟩ | ⟨hop, -⟩
  · rw [h]
    exact ⟨fun _ _ => rfl, (c.neigh i).sched, rfl, rfl, rfl⟩
  · rw [h]
    exact ⟨fun j hj => by simp [hj], s, by simp, hini, hacked⟩
  · exact absurd hop hadv
  · rw [h, (lgRouteHandleReg_quiet c i body).neigh]
    exact ⟨fun _ _ => rfl, (c.neigh i).sched, rfl, rfl, rfl⟩
  · exact absurd hop hdown

/-- `subrate_update` makes a change pending where there is none. -/
theorem subrateUpdate_unstirred (p : Prop) (pending : Bool) (misses : ℕ) (n : Neigh) :
    Unstirred p n { n with sched := subrateUpdate pending misses n.sched } := by
  unfold subrateUpdate
  dsimp only
  split
  · exact .refl n
  · generalize (if (pending || n.sched.pendingCtrl.any) = true then (1 : UInt8)
      else if misses ≠ 0 then 1 else
        UInt8.ofNat (min (n.sched.subrate.toNat * 2) n.sched.subrateMax.toNat)) = want
    split
    · exact .refl n
    · next hidle =>
      rw [not_or] at hidle
      exact ⟨rfl, rfl, rfl, fun hany => absurd hany hidle.2, nofun⟩

theorem subrateUpdateLink_becomes (a : Prop) (c : Node cfg) (i j : Fin cfg.maxNeighbors) :
    Becomes a (c.neigh j) ((subrateUpdateLink c i).neigh j) := by
  have hn := (lgTxqPeek_quiet c (c.neigh i).addr).neigh
  unfold subrateUpdateLink
  dsimp only
  split
  · exact .refl _
  · by_cases hj : j = i
    · subst hj
      have hu := subrateUpdate_unstirred False (lgTxqPending c (c.neigh j).addr).1
        (c.view j).consecMisses (c.neigh j)
      exact .same (by simp) (by simpa using hu)
    · refine .of_eq ?_
      simp [hj, lgTxqPending, hn]

/-- `lg_link_advance` leaves the change alone, or clears it. -/
theorem advance_becomes (c : Node cfg) (i j : Fin cfg.maxNeighbors) :
    Becomes (i = j) (c.neigh j)
      ((c.setNeigh i { c.neigh i with sched := lgLinkAdvance (c.neigh i).sched }).neigh j) := by
  by_cases hj : j = i
  · subst hj
    rw [Node.setNeigh_neigh, Function.update_self]
    cases hany : (c.neigh j).sched.pendingCtrl.any with
    | true =>
      rcases lgLinkAdvance_pending hany with ⟨hlt, hchange⟩ | ⟨hdue, hnone⟩
      · have hearly : lgLinkAdvance (c.neigh j).sched = toNextActive (c.neigh j).sched :=
          applyPending_early fun hdue => absurd hdue.2 (Nat.not_le.mpr hlt)
        refine .same rfl (.of_eq rfl rfl rfl hchange ?_)
        rw [hearly]
        rfl
      · refine .cleared rfl rfl rfl rfl ?_ hdue
        rw [hnone]
        rfl
    | false =>
      have hearly : lgLinkAdvance (c.neigh j).sched = toNextActive (c.neigh j).sched :=
        applyPending_early fun hdue => by
          have hnext : (toNextActive (c.neigh j).sched).pendingCtrl.any = false := hany
          rw [hnext] at hdue
          cases hdue.1
      rw [hearly]
      exact .same rfl (.of_eq rfl rfl rfl rfl rfl)
  · exact .of_eq (by simp [hj])

theorem establish_becomes (a : Prop) {pp : LinkParams} {initiator : Bool}
    (h : lgLinkEstablish o c i pp initiator = some d) (j : Fin cfg.maxNeighbors) :
    Becomes a (c.neigh j) (d.neigh j) := by
  obtain ⟨s, hs, hd⟩ := Option.map_eq_some_iff.mp h
  have hidle : s.pendingCtrl = {} := by
    obtain ⟨anchor, counter, hm⟩ := anchorCatchUp_moved hs
    rw [hm]
    rfl
  have hq : Node.Quiet (c.setNeigh i { c.neigh i with
      state := .linked, sched := s, tx := { (c.neigh i).tx with txPending := false } }) d := by
    rw [← hd]
    exact (setView_quiet _ i _).trans ((lgNeighUpdateCost_quiet _ i).trans (linksChanged_quiet o _))
  rw [hq.neigh]
  by_cases hj : j = i
  · subst hj
    refine .fresh (by simp) ?_
    simp only [Node.setNeigh_neigh, Function.update_self, hidle]
    rfl
  · exact .of_eq (by simp [hj])

/-- A control frame of the peer leaves the change that is pending as it is, or comes to a link that
is not bound to one. -/
def Call.Welcome (k : Call cfg) : Prop :=
  match k.deed with
  | .ctrl i body =>
    ((handleCtrl k.o k.node i body).neigh i).sched.change = (k.node.neigh i).sched.change ∨
      (k.node.neigh i).Unbound
  | _ => True

theorem Call.result_becomes {k : Call cfg} (hf : k.Fits) (hw : k.Welcome)
    (h : k.result psa = some d) (hs : k.deed ≠ .stage j) :
    Becomes (k.deed = .advance j) (k.node.neigh j) (d.neigh j) := by
  obtain ⟨o, c, deed⟩ := k
  have hquiet : Node.Quiet c d → Becomes (deed = .advance j) (c.neigh j) (d.neigh j) := by
    intro hq
    rw [hq.neigh]
    exact .refl _
  have hengaged : ∀ {i}, Engages i c d →
      Becomes (deed = .advance j) (c.neigh j) (d.neigh j) := by
    intro i he
    by_cases hj : j = i
    · subst hj
      exact .unlinked he.unlinked
    · exact .of_eq (he.others j hj)
  cases deed with
  | alloc src =>
    cases h
    rcases alloc_entry c src j with ⟨hn, -⟩ | ⟨-, hn, -⟩
    · exact .of_eq hn
    · refine .unlinked ?_
      rw [hn]
      intro hl
      cases hl
  | free i =>
    cases h
    rcases free_entry c i j with ⟨-, hn, -⟩ | ⟨-, hn, -⟩
    · refine .unlinked ?_
      rw [hn]
      intro hl
      cases hl
    · exact .of_eq hn
  | begin i =>
    cases h
    exact hengaged (lgJoinStart_embarks o hf.1 hf.2.1).toEngages
  | fail i =>
    cases h
    exact hengaged (joinFail_engages c i)
  | close =>
    cases h
    exact .refl _
  | openContext i resuming airStartUs =>
    cases h
    exact hengaged (openContext_engages c i resuming airStartUs)
  | establish i pp initiator =>
    obtain ⟨e, he, rfl⟩ := Option.map_eq_some_iff.mp h
    exact establish_becomes _ he j
  | down i =>
    cases h
    by_cases hj : j = i
    · subst hj
      by_cases hl : (c.neigh j).state = .linked
      · refine .unlinked ?_
        rw [lgLinkDown_self o hl]
        intro hl
        cases hl
      · refine .of_eq ?_
        rw [lgLinkDown_eq, if_pos hl]
    · exact .of_eq (lgLinkDown_others o c hj)
  | adv i buf =>
    cases h
    exact hquiet (lgRouteHandleAdv_quiet o c i buf)
  | ctrl i body =>
    cases h
    obtain ⟨hothers, s, hentry, hini, hacked⟩ := handleCtrl_entry o c i hf.2.1 hf.2.2
    by_cases hj : j = i
    · subst hj
      rcases hw with hsame | hunbound
      · change ((handleCtrl o c j body).neigh j).sched.change = _ at hsame
        rw [hentry] at hsame ⊢
        exact .same rfl (.of_eq rfl rfl rfl hsame hacked)
      · rw [hentry]
        exact .asked rfl rfl rfl hini hacked hunbound
    · exact .of_eq (hothers j hj)
  | role =>
    cases h
    exact hquiet (lgRoleEvaluate_quiet o c)
  | advance i =>
    cases h
    exact (advance_becomes c i j).imp fun hij => by rw [hij]
  | subrate i =>
    cases h
    exact subrateUpdateLink_becomes _ c i j
  | stage i =>
    cases h
    exact .of_eq (lgLinkStageTx_others psa _ c fun hj => hs (by rw [hj]))
  | tick us | halt =>
    cases h
    exact .refl _
  | uplink up =>
    cases h
    exact hquiet (lgBackhaulSet_quiet o c up)
  | start =>
    cases h
    rcases lgStart_entries psa o c with he | ⟨hfree, -⟩
    · refine .of_eq ?_
      rw [he]
    · refine .unlinked ?_
      rw [hfree j]
      intro hl
      cases hl

/-! ## What steps make of the links -/

/-- What is in the buffers after a call. -/
def markFrame (psa : Psa) (frames : Fin cfg.maxNeighbors → Option Bytes) (k : Call cfg) :
    Fin cfg.maxNeighbors → Option Bytes :=
  match k.deed with
  | .stage i =>
    Function.update frames i (frameAfter psa (k.o.ok .encrypt) k.node i (frames i))
  | _ => frames

def StagedNext (i : Fin cfg.maxNeighbors) : List (Call cfg) → Prop
  | [] => False
  | k :: _ => k.deed = .stage i

/-- The rest of `lg_link_event_finish` comes next. -/
def Followed (i : Fin cfg.maxNeighbors) : List (Call cfg) → Prop
  | [] => False
  | k :: l => k.deed = .subrate i ∧ StagedNext i l

/-- A link whose change `lg_link_advance` clears is staged anew if its control frame is staged. -/
def Restaged : List (Call cfg) → Prop
  | [] => True
  | k :: l => (∀ i, k.deed = .advance i → (k.node.neigh i).Outruns → Followed i l) ∧ Restaged l

/-- A frame that is staged has been sealed with the key of its link. -/
def Neigh.Keyed (n : Neigh) : Prop :=
  n.state = .linked → n.tx.txPending = true → n.keys.hasKey = true

theorem Neigh.InStep.keyed {n : Neigh} {frame : Option Bytes} (h : n.InStep frame) : n.Keyed :=
  fun hl ht => (h hl ht).1

section

variable {r : Fin cfg.maxNeighbors → Prop} {k : Call cfg} {l : List (Call cfg)}
  {frames : Fin cfg.maxNeighbors → Option Bytes} {frame : Option Bytes}

theorem markFrame_of_ne (h : k.deed ≠ .stage j) : markFrame psa frames k j = frames j := by
  obtain ⟨o, c, deed⟩ := k
  cases deed with
  | stage i =>
    have hji : j ≠ i := by
      rintro rfl
      exact h rfl
    exact Function.update_of_ne hji _ _
  | _ => rfl

theorem foldl_markFrame_of_ne (h : ∀ k ∈ l, k.deed ≠ .stage j) :
    l.foldl (markFrame psa) frames j = frames j := by
  induction l generalizing frames with
  | nil => rfl
  | cons k l ih =>
    rw [List.foldl_cons, ih fun k hk => h k (List.mem_cons_of_mem _ hk)]
    exact markFrame_of_ne (h k List.mem_cons_self)

theorem Still.inStep (h : Still r c c') (hc : (c.neigh j).InStep frame) :
    (c'.neigh j).InStep frame := by
  by_cases hl : (c.neigh j).state = .linked
  · exact (h.link j hl).inStep (h.toSteady.state j) hc
  · exact fun hl' => absurd ((h.toSteady.state j).symm.trans hl') hl

theorem Still.keyed (h : Still r c c') (hc : (c.neigh j).Keyed) : (c'.neigh j).Keyed := by
  intro hl ht
  have hl' := (h.toSteady.state j).symm.trans hl
  have hu := h.link j hl'
  exact hu.hasKey.trans (hc hl' (hu.staged.symm.trans ht))

theorem Still.answered {replied : Option Bytes} (h : Still r c c') (hr : ¬ r j)
    (hc : (c.neigh j).Answered replied) : (c'.neigh j).Answered replied := by
  by_cases hl : (c.neigh j).state = .linked
  · have hu := h.link j hl
    have hstrict : Unstirred False (c.neigh j) (c'.neigh j) :=
      ⟨hu.hasKey, hu.staged, hu.wasCtrl, hu.change, fun hack =>
        .inr ((hu.acked hack).resolve_left fun hboth => hr hboth.1)⟩
    exact hstrict.answered (h.toSteady.state j) hc
  · exact fun hl' => absurd ((h.toSteady.state j).symm.trans hl') hl

/-- Staging puts a link in step. -/
theorem stage_inStep (psa : Psa) (ok : Bool) (hc : (c.neigh j).Keyed) (frame : Option Bytes) :
    ((lgLinkStageTx psa ok c j).2.neigh j).InStep (frameAfter psa ok c j frame) := by
  by_cases hr : (c.neigh j).Ready
  · intro _ ht
    have hready := lgLinkStageTx_ready psa ok hr
    have hsched := lgLinkStageTx_sched psa ok c j j
    rw [lgLinkStageTx_txPending psa ok hr] at ht
    have hframe : frameAfter psa ok c j frame = changeBody (c.neigh j) := by
      unfold frameAfter
      dsimp only
      rw [if_neg hr.not_refused, if_pos ht]
    refine ⟨hready.2, ?_⟩
    rw [lgLinkStageTx_wasCtrl psa ok hr, hsched, hframe]
    split
    · next hany => exact ⟨hany, changeBody_congr (by rw [hsched])⟩
    · next hany => exact if_neg hany
  · have hrefused : lgLinkStageTx psa ok c j = (false, c) := by
      rw [lgLinkStageTx]
      refine if_pos ?_
      by_cases hl : (c.neigh j).state = .linked
      · right
        have hkey : ¬ (c.neigh j).keys.hasKey = true := fun hk => hr ⟨hl, hk⟩
        simpa using hkey
      · exact .inl hl
    rw [hrefused]
    intro hl ht
    exact absurd ⟨hl, hc hl ht⟩ hr

/-- A step keeps the links in step if each link whose change it clears is staged anew. -/
theorem Does.inStep (h : Does r psa c l c') (hw : ∀ k ∈ l, k.Welcome) (hl : Restaged l)
    (hc : (c.neigh j).InStep (frames j) ∨
      (c.neigh j).Keyed ∧ (Followed j l ∨ StagedNext j l)) :
    (c'.neigh j).InStep (l.foldl (markFrame psa) frames j) := by
  induction h generalizing frames with
  | rest hs =>
    rcases hc with hc | ⟨-, hno | hno⟩
    · exact hs.inStep hc
    · cases hno
    · cases hno
  | @call a b e k l hs hk hr _ ih =>
    have hwelcome : ∀ k ∈ l, k.Welcome := fun k hmem => hw k (List.mem_cons_of_mem _ hmem)
    have hnode : (k.node.neigh j).Keyed := by
      rcases hc with hc | ⟨hkeyed, -⟩
      · exact (hs.inStep hc).keyed
      · exact hs.keyed hkeyed
    rw [List.foldl_cons]
    refine ih hwelcome hl.2 ?_
    by_cases hstage : k.deed = .stage j
    · left
      obtain ⟨o, d, deed⟩ := k
      obtain rfl : deed = .stage j := hstage
      cases hr
      have hmark : markFrame psa frames ⟨o, d, .stage j⟩ j =
          frameAfter psa (o.ok .encrypt) d j (frames j) := Function.update_self ..
      rw [hmark]
      exact stage_inStep psa (o.ok .encrypt) hnode (frames j)
    · have hb := Call.result_becomes hk (hw k List.mem_cons_self) hr hstage
      rw [markFrame_of_ne hstage]
      rcases hc with hc | ⟨-, hnext | hnext⟩
      · by_cases hout : k.deed = .advance j ∧ (k.node.neigh j).Outruns
        · exact .inr ⟨hb.keyed hnode, .inl (hl.1 j hout.1 hout.2)⟩
        · exact .inl (hb.inStep (fun ha ho => hout ⟨ha, ho⟩) (hs.inStep hc))
      · exact .inr ⟨hb.keyed hnode, .inr hnext.2⟩
      · exact absurd hnext hstage

/-- A step that takes no reply from a link keeps its acknowledgement in step. -/
theorem Does.answered {replied : Option Bytes} (h : Does r psa c l c')
    (hw : ∀ k ∈ l, k.Welcome) (hr : ¬ r j) (hc : (c.neigh j).Answered replied) :
    (c'.neigh j).Answered replied := by
  induction h with
  | rest hs => exact hs.answered hr hc
  | @call a b e k l hs hk hres _ ih =>
    refine ih (fun k hmem => hw k (List.mem_cons_of_mem _ hmem)) ?_
    have hnode := hs.answered hr hc
    by_cases hstage : k.deed = .stage j
    · obtain ⟨o, d, deed⟩ := k
      obtain rfl : deed = .stage j := hstage
      cases hres
      have hsched := lgLinkStageTx_sched psa (o.ok .encrypt) d j j
      have hstate : ((lgLinkStageTx psa (o.ok .encrypt) d j).2.neigh j).state =
          (d.neigh j).state := by
        rcases lgLinkStageTx_steady psa (o.ok .encrypt) d j with ⟨-, hst⟩ | ⟨-, hst⟩
        · rw [hst.state, (noteAdvertised_quiet d j).neigh]
        · exact hst.state j
      intro hl hini hack hany
      rw [hsched] at hini hack hany
      rw [hnode (hstate.symm.trans hl) hini hack hany]
      exact (changeBody_congr (by rw [hsched])).symm
    · exact (Call.result_becomes hk (hw k List.mem_cons_self) hres hstage).answered hnode

end

/-! ## Events that are on air -/

/-- An event of link `i` is under way. -/
def Node.OnAir (c : Node cfg) (i : Fin cfg.maxNeighbors) : Prop :=
  c.phy ≠ .idle ∧ c.ev.kind = .link ∧ c.ev.neigh = some i

instance (c : Node cfg) (i : Fin cfg.maxNeighbors) : Decidable (c.OnAir i) := by
  unfold Node.OnAir
  infer_instance

theorem OnAir.of_slot (h : c'.slot = c.slot) (hc : c'.OnAir i) : c.OnAir i := by
  simp only [Node.slot, Prod.mk.injEq] at h
  obtain ⟨hev, -, -, -, hphy⟩ := h
  rw [Node.OnAir, ← hev, ← hphy]
  exact hc

theorem OnAir.ev_of_rides (h : Rides c c') (hc : c'.OnAir i) : c'.ev = c.ev := by
  cases h with
  | on hev => exact hev
  | done => cases hc.2.1

theorem OnAir.of_rides (h : Rides c c') (hphy : c.phy ≠ .idle) (hc : c'.OnAir i) : c.OnAir i := by
  have hev := ev_of_rides h hc
  exact ⟨hphy, hev ▸ hc.2.1, hev ▸ hc.2.2⟩

theorem schedPick_onAir (h : schedPick psa o c = some c') (hc : c'.OnAir i) : c.OnAir i := by
  have hphy : c'.phy = c.phy := congrArg (fun s => s.2.2.2.2) (schedPick_slot h).1
  unfold schedPick at h
  split at h
  · cases h
    exact hc
  · next hgo =>
    simp only [Bool.or_eq_true, decide_eq_true_eq, not_or, not_not] at hgo
    exact absurd (hphy.trans hgo.2) hc.1

theorem lgStart_phy (psa : Psa) (o : Oracle) (c : Node cfg) : (lgStart psa o c).phy = c.phy := by
  unfold lgStart
  split
  · rfl
  · split
    · rfl
    · obtain ⟨net, view, hq⟩ := (lgRoleEvaluate_quiet o _).trans (lgDiscBeaconFinish_quiet psa o _)
      dsimp only
      rw [hq]
      rfl

/-- An event comes on air with its grant. -/
theorem perform_onAir {inp : Input} (he : Enabled c inp) (h : perform psa o c inp = some c')
    (hc : c'.OnAir i) : inp = .granted ∨ c.OnAir i := by
  cases inp with
  | granted => exact .inl rfl
  | schedWork => exact .inr (schedPick_onAir h hc)
  | finishWork o' =>
    simp only [perform, schedFinish] at h
    split at h
    · cases h
    · next d hd =>
      have hd' := schedPick_onAir h hc
      exact .inr (OnAir.of_slot (settle_slot hd) hd')
  | rxWork =>
    cases rxHandler_spares h with
    | on ha => exact .inr (OnAir.of_slot ha.slot hc)
    | abort => exact absurd rfl hc.1
  | refused =>
    cases h
    exfalso
    have hk := he.1
    unfold tsFailed at hc
    split at hc
    · next hnone => exact hk hnone
    all_goals exact hc.1 rfl
  | txDone airEndUs =>
    cases h
    have hphy : c.phy = .tx := he
    exact .inr (OnAir.of_rides (phyTxDone_rides o c airEndUs) (by simp [hphy]) hc)
  | rxDone rx =>
    cases h
    have hphy : c.phy = .rx := he
    exact .inr (OnAir.of_rides (phyRxDone_rides o c rx) (by simp [hphy]) hc)
  | rxFailed reason =>
    cases h
    have hphy : c.phy = .rx := he
    exact .inr (OnAir.of_rides (phyRxFailed_rides o c reason) (by simp [hphy]) hc)
  | tick us => exact .inr (OnAir.of_slot (perform_call_slot rfl h) hc)
  | send dst port payload flags => exact .inr (OnAir.of_slot (perform_call_slot rfl h) hc)
  | backhaulSet up => exact .inr (OnAir.of_slot (perform_call_slot rfl h) hc)
  | tuningSet t => exact .inr (OnAir.of_slot (perform_call_slot rfl h) hc)
  | start =>
    cases h
    have hev := lgStart_ev psa o c (by simp [hc.2.1])
    exact .inr ⟨lgStart_phy psa o c ▸ hc.1, hev ▸ hc.2.1, hev ▸ hc.2.2⟩
  | stop =>
    cases h
    unfold lgStop at hc
    split at hc
    · exact .inr hc
    · exact absurd rfl hc.1

/-! ## Runs -/

/-- A node with what the frames of its links carry: those that are staged, the one of the event that
was granted last, and for each link the last control frame that was replied to. -/
structure Marked (cfg : Config) where
  node : Node cfg
  frames : Fin cfg.maxNeighbors → Option Bytes := fun _ => none
  granted : Option Bytes := none
  replied : Fin cfg.maxNeighbors → Option Bytes := fun _ => none

instance (c : Node cfg) (inp : Input) (i : Fin cfg.maxNeighbors) :
    Decidable (c.Replied inp i) := by
  unfold Node.Replied
  rcases inp <;> infer_instance

/-- What a step that leads to the node `c'` makes of the marks. -/
def Marked.next (psa : Psa) (o : Oracle) (inp : Input) (x : Marked cfg) (c' : Node cfg) :
    Marked cfg where
  node := c'
  frames := (calls psa o x.node inp).foldl (markFrame psa) x.frames
  granted := match inp, x.node.ev.kind, x.node.ev.neigh with
    | .granted, .link, some i => x.frames i
    | _, _, _ => x.granted
  replied := fun i =>
    if x.node.Replied inp i ∧ x.granted.isSome = true then x.granted else x.replied i

/-- The step has the frame of link `i` sent: an initiator's when its event is granted, a responder's
when a frame has come in. -/
def Node.Sends (o : Oracle) (c : Node cfg) (inp : Input) (i : Fin cfg.maxNeighbors) : Prop :=
  c.ev.kind = .link ∧ c.ev.neigh = some i ∧ o.phyOk = true ∧
    match inp with
    | .granted => (c.neigh i).sched.initiator = true
    | .rxDone _ => c.evst.txFirst = false ∧ (c.neigh i).tx.txPending = true
    | _ => False

/-- The link is up and has a frame staged. -/
def Neigh.Manned (n : Neigh) : Prop := n.state = .linked ∧ n.tx.txPending = true

/-- A step that keeps frames and changes together. -/
structure Attends (psa : Psa) (o : Oracle) (c : Node cfg) (inp : Input) : Prop where
  /-- No change is cleared while its control frame is staged, but in `lg_link_event_finish`. -/
  restaged : Restaged (calls psa o c inp)
  /-- No other change is asked for while a control frame is staged or a change acknowledged. -/
  welcome : ∀ k ∈ calls psa o c inp, k.Welcome
  /-- No link is staged during its event. -/
  alone : ∀ i, c.OnAir i → ∀ k ∈ calls psa o c inp, k.deed ≠ .stage i
  /-- An event is granted, or a frame comes in, for a link that is up and has its frame staged. -/
  manned : ∀ i, c.Sends o inp i ∨ c.Replied inp i → (c.neigh i).Manned

def MarkedStep (psa : Psa) (K : Oracle → Node cfg → Input → Prop) (x y : Marked cfg) : Prop :=
  ∃ inp o c', Enabled x.node inp ∧ K o x.node inp ∧ perform psa o x.node inp = some c' ∧
    y = x.next psa o inp c'

/-- The marked states of the runs whose steps meet the condition `K`. -/
def ReachableMarked (psa : Psa) (ident : Identity) (K : Oracle → Node cfg → Input → Prop)
    (x : Marked cfg) : Prop :=
  Relation.ReflTransGen (MarkedStep psa K) { node := Node.boot cfg ident } x

/-- Frames, changes and acknowledgements are in step. -/
structure Marked.InStep (x : Marked cfg) : Prop where
  staged : ∀ i, (x.node.neigh i).InStep (x.frames i)
  onAir : ∀ i, x.node.OnAir i → (x.node.neigh i).InStep x.granted
  answered : ∀ i, (x.node.neigh i).Answered (x.replied i)

theorem ReachableMarked.reachable {K : Oracle → Node cfg → Input → Prop} {x : Marked cfg}
    (h : ReachableMarked psa ident K x) : Reachable psa ident x.node := by
  induction h with
  | refl => exact .refl
  | tail _ hs ih =>
    obtain ⟨inp, o, c', he, -, hp, rfl⟩ := hs
    exact ih.tail ⟨inp, o, he, hp⟩

section

variable {inp : Input} {x y : Marked cfg}

theorem Marked.next_granted (hinp : inp ≠ .granted) :
    (x.next psa o inp c').granted = x.granted := by
  cases inp with
  | granted => exact absurd rfl hinp
  | _ => rfl

/-- A reply to the frame of the event on air is to the change that frame carries. -/
theorem Unstirred.answered_reply {p : Prop} {n n' : Neigh} {frame replied : Option Bytes}
    (h : Unstirred p n n') (hm : n.Manned) (hframe : n.InStep frame)
    (hn : n.Answered replied) (hstate : n'.state = n.state) :
    n'.Answered (if frame.isSome = true then frame else replied) := by
  intro hl hini hack hany
  obtain ⟨-, hcarries⟩ := hframe hm.1 hm.2
  have hctrl : n.tx.txWasCtrl = true → frame = changeBody n' ∧ frame.isSome = true := by
    intro hctrl
    rw [if_pos hctrl] at hcarries
    obtain ⟨hany', hbody⟩ := hcarries
    refine ⟨hbody.trans (changeBody_congr (h.change hany')).symm, ?_⟩
    rw [hbody, changeBody, if_pos hany']
    rfl
  by_cases hw : n.tx.txWasCtrl = true
  · rw [if_pos (hctrl hw).2]
    exact (hctrl hw).1
  · rw [if_neg hw] at hcarries
    rw [hcarries, if_neg (by simp)]
    rcases h.acked hack with ⟨-, hw'⟩ | ⟨hold, hchange⟩
    · exact absurd hw' hw
    · have hini' : n.sched.initiator = true := by
        have heq : n'.sched.initiator = n.sched.initiator := congrArg Prod.fst hchange
        rw [← heq]
        exact hini
      rw [hn (hstate ▸ hl) hini' hold ((any_eq hchange).symm.trans hany)]
      exact (changeBody_congr hchange).symm

/-- A step that attends to its links keeps frames and changes in step. -/
theorem Marked.InStep.step (h : x.InStep) (hc : x.node.HsUnlinked) (he : Enabled x.node inp)
    (ha : Attends psa o x.node inp) (hp : perform psa o x.node inp = some c') :
    (x.next psa o inp c').InStep := by
  have hdoes := perform_does hc hp
  have hstaged : ∀ i, (c'.neigh i).InStep ((x.next psa o inp c').frames i) :=
    fun i => hdoes.inStep ha.welcome ha.restaged (.inl (h.staged i))
  refine ⟨hstaged, fun i hair => ?_, fun i => ?_⟩
  · by_cases hinp : inp = .granted
    · subst hinp
      have hev : c'.ev = x.node.ev := OnAir.ev_of_rides (perform_interrupt_rides rfl hp) hair
      have hgranted : (x.next psa o .granted c').granted = x.frames i := by
        have hk : x.node.ev.kind = .link := by rw [← hev]; exact hair.2.1
        have hn : x.node.ev.neigh = some i := by rw [← hev]; exact hair.2.2
        simp only [Marked.next, hk, hn]
      rw [hgranted]
      exact hstaged i
    · have hair' := (perform_onAir he hp hair).resolve_left hinp
      rw [Marked.next_granted hinp]
      have hframe : (c'.neigh i).InStep
          ((calls psa o x.node inp).foldl (markFrame psa) (fun _ => x.granted) i) :=
        hdoes.inStep ha.welcome ha.restaged (.inl (h.onAir i hair'))
      rw [foldl_markFrame_of_ne (ha.alone i hair')] at hframe
      exact hframe
  · by_cases hrep : x.node.Replied inp i
    · cases inp with
      | rxDone rx =>
        cases hdoes with
        | rest hs =>
          have hm := ha.manned i (.inr hrep)
          have hair : x.node.OnAir i := by
            have hphy : x.node.phy = .rx := he
            exact ⟨by simp [hphy], hrep.1, hrep.2.1⟩
          have hanswered := (hs.link i hm.1).answered_reply hm (h.onAir i hair) (h.answered i)
            (hs.toSteady.state i)
          simpa [Marked.next, hrep] using hanswered
      | _ => cases hrep
    · have hsame : (x.next psa o inp c').replied i = x.replied i :=
        if_neg fun hboth => hrep hboth.1
      rw [hsame]
      exact hdoes.answered ha.welcome hrep (h.answered i)

theorem ReachableMarked.inStep (h : ReachableMarked psa ident (Attends psa) x) : x.InStep := by
  induction h with
  | refl => exact ⟨nofun, nofun, nofun⟩
  | tail hr hs ih =>
    obtain ⟨inp, o, c', he, ha, hp, rfl⟩ := hs
    exact ih.step (ReachableMarked.reachable hr).hsUnlinked he ha hp

/-- In a run whose steps attend to their links, a control frame that goes on air carries the change
that is pending, and an acknowledgement is for the change that is pending. -/
theorem control_frames_in_step (h : ReachableMarked psa ident (Attends psa) x)
    (ha : Attends psa o x.node inp) :
    (∀ i body, x.node.Sends o inp i → x.frames i = some body →
      changeBody (x.node.neigh i) = some body) ∧
    ∀ i, (x.node.neigh i).Answered (x.replied i) := by
  refine ⟨fun i body hsends hbody => ?_, h.inStep.answered⟩
  have hm := ha.manned i (.inl hsends)
  obtain ⟨-, hcarries⟩ := h.inStep.staged i hm.1 hm.2
  split at hcarries
  · exact hcarries.2.symm.trans hbody
  · rw [hbody] at hcarries
    cases hcarries

end

/-! ## Two runs -/

instance (n : Neigh) : Decidable n.Outruns := instDecidableAnd

instance (n : Neigh) : Decidable n.Unbound := instDecidableAnd

instance (n : Neigh) : Decidable n.Manned := instDecidableAnd

instance (k : Call cfg) : Decidable k.Welcome := by
  obtain ⟨o, c, deed⟩ := k
  rcases deed <;> unfold Call.Welcome <;> dsimp only <;> infer_instance

instance (i : Fin cfg.maxNeighbors) : DecidablePred (StagedNext i)
  | [] => instDecidableFalse
  | _ :: _ => decEq _ _

instance (i : Fin cfg.maxNeighbors) : DecidablePred (Followed i)
  | [] => instDecidableFalse
  | _ :: _ => instDecidableAnd

instance decidableRestaged : DecidablePred (@Restaged cfg)
  | [] => instDecidableTrue
  | _ :: l =>
    have := decidableRestaged l
    instDecidableAnd

instance (o : Oracle) (c : Node cfg) (inp : Input) (i : Fin cfg.maxNeighbors) :
    Decidable (c.Sends o inp i) := by
  unfold Node.Sends
  rcases inp <;> infer_instance

instance (psa : Psa) (o : Oracle) (c : Node cfg) (inp : Input) : Decidable (Attends psa o c inp) :=
  decidable_of_iff
    (Restaged (calls psa o c inp) ∧ (∀ k ∈ calls psa o c inp, k.Welcome) ∧
      (∀ i, c.OnAir i → ∀ k ∈ calls psa o c inp, k.deed ≠ .stage i) ∧
        ∀ i, c.Sends o inp i ∨ c.Replied inp i → (c.neigh i).Manned)
    ⟨fun ⟨h₁, h₂, h₃, h₄⟩ => ⟨h₁, h₂, h₃, h₄⟩, fun ⟨h₁, h₂, h₃, h₄⟩ => ⟨h₁, h₂, h₃, h₄⟩⟩

section

variable (psa : Psa) (K : Oracle → Node cfg → Input → Prop) [∀ o c inp, Decidable (K o c inp)]

/-- Take the given steps while each meets `K`, and keep the marks. -/
def runMarked (x : Marked cfg) : List (Oracle × Input) → Option (Marked cfg)
  | [] => some x
  | (o, inp) :: rest =>
    if Enabled x.node inp ∧ K o x.node inp then
      (perform psa o x.node inp).bind fun c' => runMarked (x.next psa o inp c') rest
    else none

variable {psa K}

theorem runMarked_steps {x y : Marked cfg} {inputs : List (Oracle × Input)}
    (h : runMarked psa K x inputs = some y) : Relation.ReflTransGen (MarkedStep psa K) x y := by
  induction inputs generalizing x with
  | nil =>
    cases h
    exact .refl
  | cons oi rest ih =>
    obtain ⟨o, inp⟩ := oi
    rw [runMarked] at h
    split at h
    · next he =>
      obtain ⟨c', hc', h⟩ := Option.bind_eq_some_iff.mp h
      exact .head ⟨inp, o, c', he.1, he.2, hc', rfl⟩ (ih h)
    · cases h

theorem exists_reachableMarked (psa : Psa) (ident : Identity) (inputs : List (Oracle × Input))
    (p : Marked cfg → Bool)
    (h : (runMarked psa K { node := Node.boot cfg ident } inputs).any p = true) :
    ∃ x, ReachableMarked psa ident K x ∧ p x = true := by
  cases hr : runMarked psa K { node := Node.boot cfg ident } inputs with
  | none => simp [hr] at h
  | some x => exact ⟨x, runMarked_steps hr, by simpa [hr] using h⟩

end

/-- The first event of a link, whose settlement stages the control frame for a slower pace; `o`
answers the pick that follows. -/
def controlRun (o : Oracle) : List (Oracle × Input) :=
  linkedRun ++
    [(calm 14, Input.tick 313500), (calm 14, .refused), (calm 14, .finishWork (calm 14)),
      (calm 14, .tick 84500), (calm 14, .granted), (calm 14, .tick 3000),
      (calm 14, .txDone 463000), (calm 14, .rxDone linkReply), (calm 14, .finishWork o)]

/-- The frame of the first entry goes on air in the event that is granted next, and is a control
frame. -/
def sendsControl (x : Marked .default) : Bool :=
  decide (Enabled x.node .granted ∧ x.node.Sends (calm 14) .granted firstNeigh) &&
    (x.frames firstNeigh).isSome

theorem control_frames_in_step_sent :
    ∃ x : Marked .default, sendsControl x = true ∧
      (∀ i body, x.node.Sends (calm 14) .granted i → x.frames i = some body →
        changeBody (x.node.neigh i) = some body) ∧
      ∀ i, (x.node.neigh i).Answered (x.replied i) := by
  obtain ⟨x, hx, hp⟩ := exists_reachableMarked (K := Attends Psa.plain) Psa.plain (plainIdent 1 1)
    (controlRun (calm 14)) (fun x => sendsControl x &&
      decide (Attends Psa.plain (calm 14) x.node .granted)) (by decide +kernel)
  simp only [Bool.and_eq_true, decide_eq_true_eq] at hp
  exact ⟨x, hp.1, control_frames_in_step hx hp.2⟩

/-- The event is not granted in time for a while; when the pick comes late to event 6, it drops the
event, and `lg_link_advance` gives the change up. -/
def staleRun : List (Oracle × Input) :=
  controlRun { calm 14 with tsOk := false } ++
    [(calm 14, Input.tick 1197078), (calm 14, .schedWork), (calm 14, .schedWork),
      (calm 14, .schedWork)]

/-- The control frame is sent although its change is no longer pending. -/
theorem not_control_frames_in_step :
    ¬ ∀ (psa : Psa) (ident : Identity) (o : Oracle) (x : Marked .default)
      (i : Fin Config.default.maxNeighbors) (body : Bytes),
      ReachableMarked psa ident (fun _ _ _ => True) x → Enabled x.node .granted →
      x.node.Sends o .granted i → x.frames i = some body →
      changeBody (x.node.neigh i) = some body := by
  intro h
  obtain ⟨x, hx, hp⟩ := exists_reachableMarked (K := fun _ _ _ => True) Psa.plain (plainIdent 1 1)
    staleRun (fun x => sendsControl x && decide (changeBody (x.node.neigh firstNeigh) = none))
    (by decide +kernel)
  simp only [sendsControl, Bool.and_eq_true, decide_eq_true_eq] at hp
  obtain ⟨⟨⟨he, hsends⟩, hsome⟩, hnone⟩ := hp
  obtain ⟨body, hbody⟩ := Option.isSome_iff_exists.mp hsome
  rw [h _ _ _ x firstNeigh body hx he hsends hbody] at hnone
  cases hnone

end LockGrid
