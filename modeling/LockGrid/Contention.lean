import LockGrid.Conduct
import LockGrid.Initiative
import LockGrid.Promises

/-!
# The join window and its sub-slots

Each copy of a beacon points at the same join window, which its sender opens after the last copy.
Joiners start at the beginning of one of its sub-slots, and a sub-slot holds a whole request.
-/
namespace LockGrid

variable {cfg : Config} {psa : Psa} {c c' d : Node cfg} {o : Oracle}

/-! ## What a copy points at -/

/-- What the copy says. -/
def Copy.beacon (f : Copy) : Beacon := Beacon.decode (f.pdu.drop hdrLen)

/-- Where the join window of its sender is, to one who hears the copy. -/
def Copy.joinUs (f : Copy) : ℕ := f.startUs + f.beacon.joinOffsetUs.toNat

/-- From the start of the first copy to the join window. -/
def joinLagUs : ℕ := rdvSlots * beaconAirUs + (rdvSlots - 1) * beaconCopyGapUs + joinOffsetUs

/-- The staged copies point at the join window of their beacon, and advertise it if it will be
opened. -/
def Node.Pointed (c : Node cfg) : Prop :=
  ∀ k : Fin rdvSlots, (c.net.beaconCopy k).pdu ≠ [] →
    (c.net.beaconCopy k).pdu.length = hdrLen + beaconLen + beaconMicLen ∧
      (∀ t, Copy.joinUs ⟨t + k.val * copyStrideUs, (c.net.beaconCopy k).pdu⟩ = t + joinLagUs) ∧
      (Copy.beacon ⟨0, (c.net.beaconCopy k).pdu⟩).joinWindowUs.toNat =
        if c.net.beaconOffersJoin then joinWindowUs else 0

theorem Beacon.decode_encode_join (b : Beacon) (rest : Bytes) :
    (Beacon.decode (b.encode ++ rest)).joinOffsetUs = b.joinOffsetUs ∧
      (Beacon.decode (b.encode ++ rest)).joinWindowUs = b.joinWindowUs := by
  have hlen : (putLe32 b.networkId ++ putLe32 b.epoch ++ putLe16 b.rank ++ putLe16 b.chanMap ++
      [b.role, b.linkCount, b.linkCapacity]).length = 15 := rfl
  have hlen' : (putLe32 b.networkId ++ putLe32 b.epoch ++ putLe16 b.rank ++ putLe16 b.chanMap ++
      [b.role, b.linkCount, b.linkCapacity] ++ putLe16 b.joinOffsetUs).length = 17 := rfl
  simp only [Beacon.decode, Beacon.encode]
  constructor
  · rw [List.append_assoc, List.append_assoc, List.append_assoc,
      getLe16_append_right _ _ _ hlen.le, hlen]
    exact getLe16_putLe16 ..
  · rw [List.append_assoc, List.append_assoc, getLe16_append_right _ _ _ hlen'.le, hlen']
    exact getLe16_putLe16 ..

/-- From the start of copy `k` to the join window. -/
def lagUs (k : Fin rdvSlots) : ℕ :=
  (rdvSlots - k.val) * beaconAirUs + (rdvSlots - 1 - k.val) * beaconCopyGapUs + joinOffsetUs

theorem lagUs_lt : ∀ k : Fin rdvSlots, lagUs k < 2 ^ 16 := by decide

theorem stride_add_lagUs :
    ∀ k : Fin rdvSlots, k.val * copyStrideUs + lagUs k = joinLagUs := by decide

theorem offered_toNat (offers : Bool) :
    (UInt16.ofNat (if offers then joinWindowUs else 0)).toNat =
      if offers then joinWindowUs else 0 := by
  cases offers <;> rfl

/-- A copy that was sealed, and where it says the join window is. -/
theorem beaconStage_join (psa : Psa) (o : Oracle) (c : Node cfg) (k : Fin rdvSlots)
    (hk : ((beaconStage psa o c).net.beaconCopy k).pdu ≠ []) :
    (Copy.beacon ⟨0, ((beaconStage psa o c).net.beaconCopy k).pdu⟩).joinOffsetUs.toNat =
        lagUs k ∧
      (Copy.beacon ⟨0, ((beaconStage psa o c).net.beaconCopy k).pdu⟩).joinWindowUs.toNat =
        if (beaconStage psa o c).net.beaconOffersJoin then joinWindowUs else 0 := by
  simp only [beaconStage] at hk ⊢
  split at hk
  · exact absurd rfl hk
  · next out hseal =>
    obtain ⟨mic, -, rfl⟩ := lgSecBeaconSeal_append hseal
    have hhdr : (lgFrameHdrPut c.ident.netid16 FrameType.beacon.code 0 addrBroadcast
        c.ident.addr).length = hdrLen := lgFrameHdrPut_length ..
    dsimp only [Copy.beacon]
    rw [List.append_assoc, List.drop_left' hhdr, (Beacon.decode_encode_join _ _).1,
      (Beacon.decode_encode_join _ _).2]
    constructor
    · exact (UInt16.toNat_ofNat' ..).trans (Nat.mod_eq_of_lt (lagUs_lt k))
    · exact offered_toNat _

theorem beaconStage_pointed (psa : Psa) (o : Oracle) (c : Node cfg) :
    (beaconStage psa o c).Pointed := by
  intro k hk
  obtain ⟨hoffset, hwindow⟩ := beaconStage_join psa o c k hk
  refine ⟨(beaconStage_copy psa o c k hk).1, fun t => ?_, hwindow⟩
  have hsum := stride_add_lagUs k
  have hoffset' : (Copy.beacon ⟨t + k.val * copyStrideUs,
      ((beaconStage psa o c).net.beaconCopy k).pdu⟩).joinOffsetUs.toNat = lagUs k := hoffset
  rw [Copy.joinUs, hoffset']
  change t + k.val * copyStrideUs + lagUs k = t + joinLagUs
  omega

theorem lgDiscBeaconFinish_pointed (psa : Psa) (o : Oracle) (c : Node cfg) :
    (lgDiscBeaconFinish psa o c).Pointed := beaconStage_pointed psa o _

/-! ## The copies of a beacon that is on air -/

theorem Node.Pointed.keep (h : c.Pointed) (hc : c'.charts.2 = c.charts.2) : c'.Pointed := by
  have hcopy : c'.net.beaconCopy = c.net.beaconCopy := congrArg (fun r => r.2.1) hc
  have hoffers : c'.net.beaconOffersJoin = c.net.beaconOffersJoin :=
    congrArg (fun r => r.2.2.2) hc
  unfold Node.Pointed
  rw [hcopy, hoffers]
  exact h

/-- While a copy is on air, it is in its place after the first one, and so were those before. -/
structure Points (c : Node cfg) (air : List Copy) : Prop where
  staged : c.Pointed
  place : c.ev.kind = .beacon → c.phy = .tx → ∃ f, air.head? = some f ∧
    f.startUs = c.ev.anchorUs + c.net.beaconCopyIdx * copyStrideUs ∧
    f.pdu.length = hdrLen + beaconLen + beaconMicLen
  count : c.ev.kind = .beacon → c.phy = .tx → air.length = c.net.beaconCopyIdx + 1
  window : c.ev.kind = .beacon → c.phy = .tx → ∀ f ∈ air, f.joinUs = c.ev.anchorUs + joinLagUs

namespace Points

variable {air : List Copy}

/-- Work that has nothing to do with the radio. -/
theorem aside (h : Points c air) (hslot : c'.slot = c.slot) (hp : c'.Pointed)
    (hidx : c'.net.beaconCopyIdx = c.net.beaconCopyIdx) : Points c' air := by
  simp only [Node.slot, Prod.mk.injEq] at hslot
  obtain ⟨hev, -, -, -, hphy⟩ := hslot
  refine ⟨hp, ?_, ?_, ?_⟩
  · rw [hev, hphy, hidx]
    exact h.place
  · rw [hev, hphy, hidx]
    exact h.count
  · rw [hev, hphy]
    exact h.window

theorem keeps (h : Points c air) (hslot : c'.slot = c.slot) (hc : c'.charts.2 = c.charts.2) :
    Points c' air :=
  h.aside hslot (h.staged.keep hc) (congrArg (fun r => r.2.2.1) hc)

/-- No beacon is on air. -/
theorem silent (hp : c.Pointed) (h : c.ev.kind = .beacon → c.phy ≠ .tx) : Points c air :=
  ⟨hp, fun hk htx => absurd htx (h hk), fun hk htx => absurd htx (h hk),
    fun hk htx => absurd htx (h hk)⟩

/-- The next copy goes on air in its place. -/
theorem sends {k : ℕ} (h : c.Pointed) (hev : c'.ev = c.ev) (hc : c'.Pointed)
    (hidx : c'.net.beaconCopyIdx = k) (hlt : k < rdvSlots) (hne : c.copyAt k ≠ [])
    (hcount : air.length = k) (hwin : ∀ f ∈ air, f.joinUs = c.ev.anchorUs + joinLagUs) :
    Points c' (⟨c.ev.anchorUs + k * copyStrideUs, c.copyAt k⟩ :: air) := by
  have hcopy : c.copyAt k = (c.net.beaconCopy ⟨k, hlt⟩).pdu := by rw [Node.copyAt, dif_pos hlt]
  rw [hcopy] at hne ⊢
  obtain ⟨hlen, hjoin, -⟩ := h ⟨k, hlt⟩ hne
  refine ⟨hc, fun _ _ => ⟨_, rfl, ?_, hlen⟩, fun _ _ => ?_, fun _ _ f hf => ?_⟩
  · rw [hev, hidx]
  · rw [hidx, List.length_cons, hcount]
  · rw [hev]
    rcases List.mem_cons.mp hf with rfl | hf
    · exact hjoin c.ev.anchorUs
    · exact hwin f hf

end Points

/-- The start of a beacon that has been granted. -/
theorem Points.granted {air : List Copy} (h : Points c air) (hk : c.ev.kind = .beacon) :
    Points (tsGranted psa o c) (copySent c (tsGranted psa o c) .granted).toList := by
  have hgranted : tsGranted psa o c = beaconStart o { c with granted := true } := by
    unfold tsGranted
    simp only [hk]
  rw [hgranted]
  let e : Node cfg := { c with granted := true, net := { c.net with beaconCopyIdx := 0 } }
  have hdone : ∀ d : Node cfg, d.Pointed →
      Points (lgSchedEventDone d) (copySent c (lgSchedEventDone d) .granted).toList :=
    fun d hd => .silent hd nofun
  unfold beaconStart
  dsimp only
  split
  · exact hdone _ h.staged
  · change Points (sendCopy o e 0 (lgSchedEventDone e))
      (copySent c (sendCopy o e 0 (lgSchedEventDone e)) .granted).toList
    rcases sendCopy_cases o e 0 (lgSchedEventDone e) with hnot | ⟨hlt, hne, hsent⟩
    · rw [hnot]
      exact hdone e h.staged
    · rw [hsent]
      have hstart : Points { e with phy := .tx } [⟨c.ev.anchorUs + 0 * copyStrideUs, c.copyAt 0⟩] :=
        Points.sends h.staged rfl h.staged rfl hlt hne rfl nofun
      rwa [Nat.zero_mul, Nat.add_zero] at hstart

/-- When a copy that is on air ends. -/
theorem Points.copyEnd {air : List Copy} (h : Points c air) (hk : c.ev.kind = .beacon)
    (hphy : c.phy = .tx) {airEndUs : ℕ}
    (htime : ∀ f ∈ air.head?, airEndUs = f.startUs + airtimeUs f.pdu.length) :
    airEndUs = c.ev.anchorUs + c.net.beaconCopyIdx * copyStrideUs + beaconAirUs := by
  obtain ⟨f, hf, hstart, hlen⟩ := h.place hk hphy
  have hend := htime f hf
  rwa [hlen, hstart] at hend

/-- A copy is over: the next one follows, or the beacon is over. -/
theorem Points.txDone {air : List Copy} (h : Points c air) (hk : c.ev.kind = .beacon)
    (hphy : c.phy = .tx) {airEndUs : ℕ}
    (htime : ∀ f ∈ air.head?, airEndUs = f.startUs + airtimeUs f.pdu.length) :
    Points (phyTxDone psa o c airEndUs)
      ((copySent c (phyTxDone psa o c airEndUs) (.txDone airEndUs)).toList ++ air) := by
  have hbeacon : phyTxDone psa o c airEndUs = beaconTxDone o c airEndUs := by
    unfold phyTxDone
    simp only [hk]
  have hnext : airEndUs + beaconCopyGapUs =
      c.ev.anchorUs + (c.net.beaconCopyIdx + 1) * copyStrideUs := by
    rw [h.copyEnd hk hphy htime, Nat.add_one_mul]
    simp only [copyStrideUs]
    omega
  let e : Node cfg := { c with net := { c.net with beaconCopyIdx := c.net.beaconCopyIdx + 1 } }
  rw [hbeacon]
  unfold beaconTxDone
  dsimp only
  generalize hopened : (if e.net.beaconOffersJoin = true then
    { e with net := { e.net with
      joinWinUs := airEndUs + joinOffsetUs, lastJoinWindowUs := e.nowUs } } else e) = d
  have hd : d.Pointed := by
    rw [← hopened]
    split <;> exact h.staged
  change Points (sendCopy o e (c.net.beaconCopyIdx + 1) (lgSchedEventDone d))
    ((copySent c (sendCopy o e (c.net.beaconCopyIdx + 1) (lgSchedEventDone d))
      (.txDone airEndUs)).toList ++ air)
  rcases sendCopy_cases o e (c.net.beaconCopyIdx + 1) (lgSchedEventDone d) with
    hnot | ⟨hlt, hne, hsent⟩
  · rw [hnot]
    exact .silent hd (by intro hk; cases hk)
  · rw [hsent]
    have hsends : Points { e with phy := .tx }
        (⟨c.ev.anchorUs + (c.net.beaconCopyIdx + 1) * copyStrideUs,
          c.copyAt (c.net.beaconCopyIdx + 1)⟩ :: air) :=
      Points.sends h.staged rfl h.staged rfl hlt hne (h.count hk hphy) (h.window hk hphy)
    rwa [← hnext] at hsends

/-- An interrupt. -/
theorem Points.interrupt {air : List Copy} (h : Points c air) {inp : Input}
    (hi : inp.isInterrupt = true) (hen : Enabled c inp)
    (htime : ∀ airEndUs, inp = .txDone airEndUs → c.ev.kind = .beacon →
      ∀ f ∈ air.head?, airEndUs = f.startUs + airtimeUs f.pdu.length)
    (hp : perform psa o c inp = some c') : Points c' (airAfter c c' inp air) := by
  unfold airAfter
  by_cases hk : c.ev.kind = .beacon
  · rw [if_neg (not_not.mpr hk)]
    have hdone : ∀ air, Points (lgSchedEventDone c) air := fun air => .silent h.staged nofun
    cases inp with
    | granted =>
      cases hp
      exact h.granted hk
    | refused =>
      cases hp
      have he : tsFailed o c = lgSchedEventDone c := by
        unfold tsFailed
        simp only [hk]
      rw [he]
      exact hdone _
    | txDone airEndUs =>
      cases hp
      exact h.txDone hk hen (htime airEndUs rfl hk)
    | rxDone rx =>
      cases hp
      have he : phyRxDone o c rx = lgSchedEventDone c := by
        unfold phyRxDone
        simp only [hk]
      rw [he]
      exact hdone _
    | rxFailed reason =>
      cases hp
      have he : phyRxFailed o c reason = lgSchedEventDone c := by
        unfold phyRxFailed
        simp only [hk]
      rw [he]
      exact hdone _
    | _ => cases hi
  · rw [if_pos hk]
    obtain ⟨hcopies, hoffers⟩ := perform_interrupt_offers hi hp
    have hcopy : c'.net.beaconCopy = c.net.beaconCopy := congrArg Prod.snd hcopies
    have hpointed : c'.Pointed := by
      unfold Node.Pointed
      rw [hcopy, hoffers]
      exact h.staged
    refine .silent hpointed fun hb => absurd hb ?_
    cases perform_interrupt_rides hi hp with
    | on hev _ => rwa [hev]
    | done _ => nofun

/-- A run of `sched_pick`. -/
theorem Points.pick {air : List Copy} (h : Points c air) (hp : schedPick psa o c = some c') :
    Points c' air := by
  cases schedPick_beacon hp with
  | @late a d hdue _ hslot _ he =>
    obtain ⟨net, view, hq⟩ := lgDiscBeaconFinish_quiet psa o d
    have hslot' : c'.slot = c.slot := by
      rw [he, ← hslot, hq]
      rfl
    have hev : c'.ev = c.ev := congrArg Prod.fst hslot'
    refine .silent (he ▸ lgDiscBeaconFinish_pointed psa o d) fun hb => ?_
    rw [hev, Primed.beaconDue_free hdue] at hb
    cases hb
  | asked hdue _ _ hphy hcharts hslot _ =>
    have hidle : c'.phy = .idle := (congrArg (fun r => r.2.2.2.2) hslot).trans hphy
    refine .silent (h.staged.keep (congrArg Prod.snd hcharts)) fun _ => ?_
    rw [hidle]
    nofun
  | other hdue hcharts hslot hev =>
    rcases hev with hsame | hother
    · exact h.keeps (hslot.trans (by rw [hsame]; rfl)) (congrArg Prod.snd hcharts)
    · exact .silent (h.staged.keep (congrArg Prod.snd hcharts)) fun hb => absurd hb hother

/-- A settlement. It may stage copies, but nothing of it touches the radio. -/
theorem Points.settle {air : List Copy} (h : Points c air)
    (hs : LockGrid.settle psa o c = some d) :
    Points { d with finishKind := .none, finishNeigh := none } air := by
  have hslot := settle_slot hs
  simp only [Node.slot, Prod.mk.injEq] at hslot
  obtain ⟨hev, -, -, -, hphy⟩ := hslot
  have hstaged : d.Pointed ∧ d.net.beaconCopyIdx = c.net.beaconCopyIdx := by
    by_cases hk : c.finishKind = .beacon
    · have hd : d = lgRoleEvaluate o (lgDiscBeaconFinish psa o c) := by
        unfold LockGrid.settle at hs
        rw [hk] at hs
        exact (Option.some.inj hs).symm
      have hcharts := congrArg Prod.snd (lgRoleEvaluate_charts o (lgDiscBeaconFinish psa o c))
      rw [← hd] at hcharts
      exact ⟨(lgDiscBeaconFinish_pointed psa o c).keep hcharts,
        congrArg (fun r => r.2.2.1) hcharts⟩
    · have hcharts := settle_charts hk hs
      exact ⟨h.staged.keep hcharts, congrArg (fun r => r.2.2.1) hcharts⟩
  obtain ⟨hpointed, hidx⟩ := hstaged
  refine ⟨hpointed, ?_, ?_, ?_⟩
  · change d.ev.kind = .beacon → d.phy = .tx → ∃ f : Copy, _ ∧
      f.startUs = d.ev.anchorUs + d.net.beaconCopyIdx * copyStrideUs ∧ _
    rw [hev, hphy, hidx]
    exact h.place
  · change d.ev.kind = .beacon → d.phy = .tx → _ = d.net.beaconCopyIdx + 1
    rw [hev, hphy, hidx]
    exact h.count
  · change d.ev.kind = .beacon → d.phy = .tx → ∀ f ∈ air, f.joinUs = d.ev.anchorUs + joinLagUs
    rw [hev, hphy]
    exact h.window

/-- What every step keeps. -/
theorem Beaconing.Step.points {P : Beaconing cfg → Oracle → Input → Prop} {s s' : Beaconing cfg}
    (hstep : Beaconing.Step psa P s s') (h : Points s.node s.air) : Points s'.node s'.air := by
  obtain ⟨o, inp, c', hen, htime, -, hp, rfl⟩ := hstep
  change Points c' (airAfter s.node c' inp s.air)
  have hair : inp.isInterrupt = false → airAfter s.node c' inp s.air = s.air := by
    intro hi
    unfold airAfter
    split
    · rfl
    · cases inp <;> first | rfl | cases hi
  have hcall : inp.isCall = true → c'.charts.2 = s.node.charts.2 →
      Points c' (airAfter s.node c' inp s.air) := by
    intro hi hcharts
    rw [hair (by cases inp <;> first | rfl | cases hi)]
    exact h.keeps (perform_call_slot hi hp) hcharts
  cases inp with
  | tick us =>
    cases hp
    exact hcall rfl rfl
  | schedWork =>
    rw [hair rfl]
    exact h.pick hp
  | finishWork o' =>
    have hp' : schedFinish psa o o' s.node = some c' := hp
    unfold schedFinish at hp'
    cases hs : settle psa o s.node with
    | none =>
      rw [hs] at hp'
      cases hp'
    | some d =>
      rw [hs] at hp'
      rw [hair rfl]
      exact (h.settle hs).pick hp'
  | rxWork =>
    rw [hair rfl]
    have hcharts := congrArg Prod.snd (rxHandler_charts hp)
    cases rxHandler_spares hp with
    | on ha => exact h.keeps ha.slot hcharts
    | abort hk ha =>
      exact .silent (h.staged.keep hcharts) nofun
  | granted | refused | txDone airEndUs | rxDone rx | rxFailed reason =>
    refine h.interrupt rfl hen (fun airEndUs he hk => ?_) hp
    cases he <;> exact htime hk
  | send dst port payload flags =>
    cases hp
    exact hcall rfl (congrArg Prod.snd (lgSend_charts _ dst port payload flags))
  | backhaulSet up =>
    cases hp
    exact hcall rfl (congrArg Prod.snd (lgBackhaulSet_charts o _ up))
  | tuningSet t =>
    cases hp
    exact hcall rfl rfl
  | start =>
    rw [hair rfl]
    cases hp
    rcases lgStart_slot psa o s.node with ⟨-, hsame⟩ | ⟨d, -, hstart, hev, -⟩
    · rw [hsame]
      exact h
    · obtain ⟨net, view, hq⟩ := lgDiscBeaconFinish_quiet psa o d
      rw [hstart]
      refine .silent (lgDiscBeaconFinish_pointed psa o d) fun hb => absurd hb ?_
      rw [hq]
      change d.ev.kind ≠ _
      rw [hev]
      nofun
  | stop =>
    rw [hair rfl]
    cases hp
    have hcharts := congrArg Prod.snd (lgStop_charts o s.node)
    unfold lgStop at hcharts ⊢
    split
    · exact h
    · next hs =>
      rw [if_neg hs] at hcharts
      exact .silent (h.staged.keep hcharts) nofun

theorem Beaconing.run_points {P : Beaconing cfg → Oracle → Input → Prop} {ident : Identity}
    {s : Beaconing cfg}
    (h : Relation.ReflTransGen (Beaconing.Step psa P) (Beaconing.boot cfg ident) s) :
    Points s.node s.air := by
  induction h with
  | refl => exact .silent (c := Node.boot cfg ident) (fun _ hne => absurd rfl hne) nofun
  | tail _ hstep ih => exact hstep.points ih

/-! ## The joiner's aim -/

theorem getLe16_append_left (p q : Bytes) (off : ℕ) (h : off + 1 < p.length) :
    getLe16 (p ++ q) off = getLe16 p off := by
  simp only [getLe16, getByte_append_left p q off (by omega),
    getByte_append_left p q (off + 1) h]

/-- The joiner hears the copy and starts a handshake with its sender, which has entry `i`. -/
def Copy.Answered (psa : Psa) (f : Copy) (k : Call cfg) (i : Fin cfg.maxNeighbors) : Prop :=
  ∃ (o : Oracle) (j : Node cfg) (rx : RxRec), rx.pdu = f.pdu ∧ rx.airStartUs = f.startUs ∧
    k ∈ beaconCalls psa o j rx ∧ k.deed = .begin i

/-- The entry that a joiner aims with holds the window of the copy and one of its sub-slots. -/
theorem Copy.Answered.aim {f : Copy} {k : Call cfg} {i : Fin cfg.maxNeighbors}
    (h : f.Answered psa k i) :
    f.pdu ≠ [] ∧ f.beacon.joinWindowUs ≠ 0 ∧
      (k.node.neigh i).join.joinNextUs = f.joinUs ∧
      (f.beacon.joinWindowUs.toNat = joinWindowUs →
        ∃ n < joinContendSlots, (k.node.neigh i).join.joinSpreadUs = n * joinTrainUs) := by
  obtain ⟨o, j, rx, hpdu, hstart, hk, hbegin⟩ := h
  unfold beaconCalls at hk
  split at hk
  · cases hk
  · next hlen =>
    split at hk
    · cases hk
    · next body hbody =>
      dsimp only at hk
      split at hk
      · cases hk
      · obtain ⟨-, hwin, e, rfl⟩ := acceptCalls_begin hk hbegin
        -- what is read of the beacon lies before its MIC
        have hopen : body = rx.pdu.take (rx.pdu.length - beaconMicLen) := by
          unfold lgSecBeaconOpen at hbody
          split at hbody
          · cases hbody
          · dsimp only at hbody
            split at hbody
            · cases hbody
            · split at hbody
              · exact (Option.some.inj hbody).symm
              · cases hbody
        have hbl : hdrLen + beaconLen ≤ body.length := by
          rw [hopen, List.length_take]
          omega
        have hdrop : f.pdu.drop hdrLen = body.drop hdrLen ++
            rx.pdu.drop (rx.pdu.length - beaconMicLen) := by
          rw [← hpdu, ← List.drop_append_of_le_length (by omega), hopen, List.take_append_drop]
        have hrest : hdrLen + beaconLen = 31 := rfl
        have hfield : ∀ off, off + 1 < beaconLen →
            getLe16 (f.pdu.drop hdrLen) off = getLe16 (body.drop hdrLen) off := by
          intro off hoff
          rw [hdrop]
          apply getLe16_append_left
          rw [List.length_drop]
          omega
        have hoffset : f.beacon.joinOffsetUs =
            (Beacon.decode (body.drop hdrLen)).joinOffsetUs := hfield 15 (by decide)
        have hwindow : f.beacon.joinWindowUs =
            (Beacon.decode (body.drop hdrLen)).joinWindowUs := hfield 17 (by decide)
        refine ⟨?_, ?_, ?_, ?_⟩
        · intro hnil
          rw [hpdu, hnil] at hlen
          exact hlen (by decide)
        · rwa [hwindow]
        · simp [aimed, Node.setJoin, Copy.joinUs, hoffset, hstart]
        · intro hfull
          rw [hwindow] at hfull
          have hsub : o.rand32 9 % joinContendSlots < joinContendSlots :=
            Nat.mod_lt _ (by decide)
          refine ⟨o.rand32 9 % joinContendSlots, hsub, ?_⟩
          have hslots : joinWindowUs / joinTrainUs = joinContendSlots := by decide
          have htwo : 2 * joinTrainUs ≤ joinWindowUs := by decide
          simp [aimed, Node.setJoin, hfull, hslots, htwo]

/-! ## A train of fragments -/

theorem serveBackoff_aim {now : ℕ} {j j' : JoinInfo} (h : serveBackoff now j = some j') :
    j'.joinNextUs = j.joinNextUs ∧ j'.joinSpreadUs = j.joinSpreadUs := by
  unfold serveBackoff at h
  split at h
  · split at h <;> cases h
    exact ⟨rfl, rfl⟩
  · cases h
    exact ⟨rfl, rfl⟩

/-- The first message of a handshake: it waits for the sub-slot, and has two fragments at most. -/
structure Hs.Opening (hs : Hs cfg) (i : Fin cfg.maxNeighbors) (startUs : ℕ) : Prop where
  n : hs.n = some i
  t0Us : hs.t0Us = startUs
  slot : hs.slot = 0
  clear : hs.txSecured = false
  total : hs.fragTotal ≤ 2

theorem buildResumeReq_opening {i : Fin cfg.maxNeighbors} {startUs : ℕ}
    (hn : c.hs.n = some i) (ht : c.hs.t0Us = startUs) (hs : c.hs.slot = 0)
    (h : buildResumeReq o c i = (.ok (), d)) : d.hs.Opening i startUs := by
  unfold buildResumeReq at h
  split at h
  · cases h
  · cases h
    refine ⟨hn, ht, hs, rfl, ?_⟩
    have hlen := o.nonce_length
    simp [stageMessage, drawNonce, Node.setJoin, Node.setHs, Node.setNeigh, hlen, fragCap,
      nonceLen, pduMax, hdrLen, fragHdrLen]

theorem buildJoinReq_opening {i : Fin cfg.maxNeighbors} {startUs : ℕ}
    (hn : c.hs.n = some i) (ht : c.hs.t0Us = startUs) (hs : c.hs.slot = 0)
    (hcert : c.ident.cert.length = certLen)
    (h : buildJoinReq o c i = (.ok (), d)) : d.hs.Opening i startUs := by
  unfold buildJoinReq at h
  split at h
  · cases h
  · dsimp only at h
    split at h
    · cases h
    · cases h
      refine ⟨hn, ht, hs, rfl, ?_⟩
      have hlen := o.nonce_length
      have hkey := o.keypair_length
      simp [stageMessage, drawNonce, drawKeypair, Node.setJoin, Node.setHs, Node.setNeigh, hlen,
        hkey, hcert, fragCap, nonceLen, ecPubLen, certLen, certBodyLen, sigLen, pduMax, hdrLen,
        fragHdrLen]

theorem lgJoinStart_opening {i : Fin cfg.maxNeighbors} (h : lgJoinStart o c i = (.ok (), d)) :
    d.hs.Opening i ((c.neigh i).join.joinNextUs + (c.neigh i).join.joinSpreadUs) := by
  unfold lgJoinStart at h
  dsimp only at h
  split at h
  · cases h
  · split at h
    · cases h
    · split at h
      · cases h
      · next j hj =>
        obtain ⟨hnext, hspread⟩ := serveBackoff_aim hj
        split at h
        · cases h
        · split at h
          · cases h
          · next hcert =>
            split at h
            · cases h
            · next e he =>
              cases h
              change e.hs.Opening i _
              rw [← hnext, ← hspread]
              split at he
              · exact buildResumeReq_opening rfl rfl rfl he
              · refine buildJoinReq_opening rfl rfl rfl ?_ he
                exact not_not.mp hcert

/-- When the last bit of the frame has gone. -/
def Copy.endUs (f : Copy) : ℕ := f.startUs + airtimeUs f.pdu.length

/-- With this fragment on air from `startUs` on, the frames of the rest of a transmit event. The PHY
reports the end of each in time, and whatever else the node does meanwhile leaves its context as it
is, or ends the handshake. -/
inductive Trains (psa : Psa) : Node cfg → Option Bytes → ℕ → List Copy → Prop
  | done {c : Node cfg} {startUs : ℕ} : Trains psa c none startUs []
  | aired {c d : Node cfg} {pdu : Bytes} {startUs : ℕ} {train : List Copy} (o : Oracle)
    (h : Beside c d)
    (hmore : Trains psa (joinTxDone psa o d (startUs + airtimeUs pdu.length))
      (if d.hs.fragIdx + 1 < d.hs.fragTotal then
        onAir psa o (d.fragDone (startUs + airtimeUs pdu.length)) (d.hs.fragIdx + 1) else none)
      (startUs + airtimeUs pdu.length + fragGapUs) train) :
    Trains psa c (some pdu) startUs (⟨startUs, pdu⟩ :: train)

/-- A transmit event always has its frames. -/
theorem Trains.exists_train (psa : Psa) (o : Oracle) (c : Node cfg) (pdu : Option Bytes)
    (startUs : ℕ) :
    ∃ train, Trains psa c pdu startUs train ∧ (pdu.isSome → train ≠ []) := by
  induction hleft : c.hs.fragTotal - c.hs.fragIdx generalizing c pdu startUs with
  | zero =>
    cases pdu with
    | none => exact ⟨[], .done, nofun⟩
    | some pdu =>
      have hlast : ¬ (c.hs.fragIdx + 1 < c.hs.fragTotal) := by omega
      refine ⟨[⟨startUs, pdu⟩], .aired o (.refl c) ?_, fun _ => List.cons_ne_nil _ _⟩
      rw [if_neg hlast]
      exact .done
  | succ n ih =>
    cases pdu with
    | none => exact ⟨[], .done, nofun⟩
    | some pdu =>
      obtain ⟨len, hhs⟩ := joinTxDone_hs psa o c (startUs + airtimeUs pdu.length)
      obtain ⟨train, htrain, -⟩ := ih (joinTxDone psa o c (startUs + airtimeUs pdu.length))
        (if c.hs.fragIdx + 1 < c.hs.fragTotal then
          onAir psa o (c.fragDone (startUs + airtimeUs pdu.length)) (c.hs.fragIdx + 1) else none)
        (startUs + airtimeUs pdu.length + fragGapUs) (by
          rw [hhs]
          change c.hs.fragTotal - (c.hs.fragIdx + 1) = n
          omega)
      exact ⟨_, .aired o (.refl c) htrain, fun _ => List.cons_ne_nil _ _⟩

/-- A fragment in the clear is no longer than a frame can be. -/
theorem onAir_clear_length {pdu : Bytes} {k : ℕ} (hsec : c.hs.txSecured = false)
    (h : onAir psa o c k = some pdu) : pdu.length ≤ pduMax := by
  unfold onAir at h
  dsimp only at h
  split at h
  · cases h
  · next hgo =>
    rw [not_or] at hgo
    cases h
    cases hn : c.hs.n with
    | none =>
      refine absurd ?_ hgo.1
      simp only [buildFragment, hn]
    | some i =>
      have hlen := c.hs.fragment_length k
      rw [buildFragment_clear hn hsec, List.length_append, Node.fragFields_length]
      rw [hsec] at hlen
      have hcap : fragHdrLen + fragCap cfg false = 117 := rfl
      have hhdr : hdrLen = 8 := rfl
      have hmax : pduMax = 125 := rfl
      omega

/-- A message of `n` fragments in the clear takes no longer than `n` full frames and the gaps
between them. -/
theorem Trains.within {n : ℕ} {pdu : Option Bytes} {startUs : ℕ} {train : List Copy}
    (h : Trains psa c pdu startUs train) (hsec : c.hs.txSecured = false)
    (htotal : c.hs.fragTotal ≤ n) (hlen : ∀ p ∈ pdu, p.length ≤ pduMax)
    (hidx : c.hs.fragIdx < n) :
    ∀ g ∈ train, startUs ≤ g.startUs ∧ g.endUs ≤ startUs + (n - c.hs.fragIdx) *
      airtimeUs pduMax + (n - 1 - c.hs.fragIdx) * fragGapUs := by
  have hair : airtimeUs pduMax = 4256 := rfl
  have hgap : fragGapUs = 500 := rfl
  rw [hair, hgap]
  induction h with
  | done => simp
  | @aired c d pdu startUs train o hd hmore ih =>
    have hframe : airtimeUs pdu.length ≤ 4256 := by
      have hp := hlen pdu rfl
      simp only [airtimeUs, pduMax] at hp ⊢
      omega
    intro g hg
    rcases List.mem_cons.mp hg with rfl | hg
    · refine ⟨le_rfl, ?_⟩
      change startUs + airtimeUs pdu.length ≤ _
      omega
    · by_cases hnext : d.hs.fragIdx + 1 < d.hs.fragTotal
      · -- the message still goes on, so the handshake has not ended
        have hsame : d.hs = c.hs := by
          rcases hd with hd | hd
          · exact hd
          · rw [hd] at hnext
            exact absurd hnext (Nat.not_lt_zero _)
        obtain ⟨len, hhs⟩ := joinTxDone_hs psa o d (startUs + airtimeUs pdu.length)
        rw [hsame] at hhs hnext
        have hrest := ih (by rw [hhs]; exact hsec) (by rw [hhs]; exact htotal) (by
          intro p hp
          rw [hsame, if_pos hnext] at hp
          refine onAir_clear_length ?_ hp
          change d.hs.txSecured = false
          rw [hsame]
          exact hsec) (by rw [hhs]; change c.hs.fragIdx + 1 < n; omega) g hg
        rw [hhs] at hrest
        change _ ≤ _ ∧ _ ≤ _ + (n - (c.hs.fragIdx + 1)) * _ + (n - 1 - (c.hs.fragIdx + 1)) * _
          at hrest
        omega
      · rw [if_neg hnext] at hmore
        cases hmore
        cases hg

/-- The frames of a joiner that answers the copy, in the event of its first slot. -/
def Copy.Requested (psa : Psa) (f : Copy) (spreadUs : ℕ) (train : List Copy) : Prop :=
  ∃ (cfg : Config) (k : Call cfg) (i : Fin cfg.maxNeighbors) (d e : Node cfg) (o : Oracle),
    f.Answered psa k i ∧ (k.node.neigh i).join.joinSpreadUs = spreadUs ∧
    lgJoinStart k.o k.node i = (.ok (), d) ∧ e.hs = d.hs ∧
    lgJoinNextUs e i = some e.ev.anchorUs ∧
    Trains psa (joinTxStart psa o e)
      (onAir psa o (e.setHs { e.hs with wasTx := true, fragIdx := 0 }) 0) e.ev.anchorUs train

/-- A request stays in the sub-slot that was drawn for it. -/
theorem Copy.Requested.within {f : Copy} {spreadUs : ℕ} {train : List Copy}
    (h : f.Requested psa spreadUs train)
    (hwin : f.beacon.joinWindowUs.toNat = joinWindowUs) :
    ∃ n < joinContendSlots, spreadUs = n * joinTrainUs ∧ ∀ g ∈ train,
      f.joinUs + spreadUs ≤ g.startUs ∧ g.endUs ≤ f.joinUs + spreadUs + joinTrainUs := by
  obtain ⟨cfg, k, i, d, e, o, hans, rfl, hstart, hhs, hnext, htrain⟩ := h
  obtain ⟨-, -, hjoin, hspread⟩ := hans.aim
  obtain ⟨n, hn, hsub⟩ := hspread hwin
  refine ⟨n, hn, hsub, ?_⟩
  have hopen := lgJoinStart_opening hstart
  rw [hjoin, ← hhs] at hopen
  have hanchor : e.ev.anchorUs = f.joinUs + (k.node.neigh i).join.joinSpreadUs := by
    unfold lgJoinNextUs at hnext
    split at hnext
    · cases hnext
    · rw [if_pos hopen.slot, slotTime, hopen.t0Us, Nat.zero_mul, Nat.add_zero] at hnext
      exact (Option.some.inj hnext).symm
  obtain ⟨len, hfirst⟩ := joinTxStart_hs psa o (c := e) (by simp [hopen.n])
  have htimes := htrain.within (n := 2) (by rw [hfirst]; exact hopen.clear)
    (by rw [hfirst]; exact hopen.total)
    (fun p hp => onAir_clear_length (c := e.setHs { e.hs with wasTx := true, fragIdx := 0 })
      hopen.clear hp) (by rw [hfirst]; exact Nat.zero_lt_two)
  have hair : airtimeUs pduMax = 4256 := rfl
  have hgap : fragGapUs = 500 := rfl
  have hroom : joinTrainUs = 9500 := rfl
  intro g hg
  have hg' := htimes g hg
  rw [hfirst, hair, hgap, hanchor] at hg'
  change _ ≤ _ ∧ _ ≤ _ + (2 - 0) * _ + (2 - 1 - 0) * _ at hg'
  omega

/-! ## Sub-slots of a window -/

/-- The three copies of the beacon that is staged have gone on air, the last one still is. -/
structure Beaconing.Sent (s : Beaconing cfg) : Prop where
  event : s.node.ev.kind = .beacon
  onAir : s.node.phy = .tx
  copies : s.air.map Copy.pdu = [s.node.copyAt 2, s.node.copyAt 1, s.node.copyAt 0]

/-- The receive window of a listening event of a handshake. -/
def Event.listens (ev : Event cfg) : ℕ × ℕ := (ev.anchorUs - joinRxMarginUs, ev.closeUs)

/-- Where the router opens the window that its beacon offered. -/
theorem Beaconing.Sent.opens {s : Beaconing cfg} (hs : s.Sent) (h : Points s.node s.air)
    {airEndUs : ℕ} (htime : s.OnTime (.txDone airEndUs))
    (hoffers : s.node.net.beaconOffersJoin = true) :
    (phyTxDone psa o s.node airEndUs).net.joinWinUs = s.node.ev.anchorUs + joinLagUs := by
  have hidx : s.node.net.beaconCopyIdx = 2 := by
    have hlen := congrArg List.length hs.copies
    rw [List.length_map, h.count hs.event hs.onAir] at hlen
    exact Nat.succ.inj hlen
  have hend := h.copyEnd hs.event hs.onAir (htime hs.event)
  have hlast : ¬ (2 + 1 < rdvSlots) := by decide
  have hlag : 2 * copyStrideUs + beaconAirUs + joinOffsetUs = joinLagUs := by decide
  rw [hidx] at hend
  unfold phyTxDone
  simp only [hs.event]
  unfold beaconTxDone sendCopy
  simp only [hidx, hlast, dite_false, hoffers, if_true]
  change airEndUs + joinOffsetUs = _
  omega

/-- A copy that was answered has offered the window of the beacon that is still staged. -/
theorem Beaconing.Sent.offers {s : Beaconing cfg} (hs : s.Sent) (h : Points s.node s.air)
    {f : Copy} (hf : f ∈ s.air) {cfg' : Config} {k : Call cfg'} {i : Fin cfg'.maxNeighbors}
    (hans : f.Answered psa k i) :
    s.node.net.beaconOffersJoin = true ∧ f.beacon.joinWindowUs.toNat = joinWindowUs ∧
      f.joinUs = s.node.ev.anchorUs + joinLagUs := by
  obtain ⟨hne, hwin, -, -⟩ := hans.aim
  have hmem : f.pdu ∈ s.air.map Copy.pdu := List.mem_map_of_mem hf
  have hstaged : ∃ n : Fin rdvSlots, f.pdu = (s.node.net.beaconCopy n).pdu := by
    rw [hs.copies] at hmem
    simp only [List.mem_cons, List.not_mem_nil, or_false] at hmem
    rcases hmem with hmem | hmem | hmem
    · exact ⟨⟨2, by decide⟩, hmem⟩
    · exact ⟨⟨1, by decide⟩, hmem⟩
    · exact ⟨⟨0, by decide⟩, hmem⟩
  obtain ⟨n, hn⟩ := hstaged
  have hpoint := (h.staged n (hn ▸ hne)).2.2
  rw [← hn] at hpoint
  have hwindow : f.beacon.joinWindowUs.toNat =
      if s.node.net.beaconOffersJoin then joinWindowUs else 0 := hpoint
  have hoffers : s.node.net.beaconOffersJoin = true := by
    cases ho : s.node.net.beaconOffersJoin with
    | true => rfl
    | false =>
      rw [ho] at hwindow
      exact absurd (UInt16.toNat_inj.mp hwindow) hwin
  rw [hoffers] at hwindow
  exact ⟨hoffers, hwindow, h.window hs.event hs.onAir f hf⟩

/-- **Sub-slots.** In every run, when the last of the three copies of a beacon ends, a joiner that
has heard any of them is aiming at the window that the router opens; its request lies within the
window as the router listens to it, and requests in different sub-slots do not overlap. -/
theorem subslots_hold {ident : Identity} {P : Beaconing cfg → Oracle → Input → Prop}
    {s : Beaconing cfg}
    (hrun : Relation.ReflTransGen (Beaconing.Step psa P) (Beaconing.boot cfg ident) s)
    (hs : s.Sent) (o : Oracle) {airEndUs : ℕ} (htime : s.OnTime (.txDone airEndUs)) :
    (∀ f ∈ s.air, ∀ (cfg' : Config) (k : Call cfg') (i : Fin cfg'.maxNeighbors),
      f.Answered psa k i → (k.node.neigh i).join.joinNextUs =
        (phyTxDone psa o s.node airEndUs).net.joinWinUs) ∧
    (∀ f ∈ s.air, ∀ spreadUs train, f.Requested psa spreadUs train →
      ∀ (r : Node cfg) (a prio : ℕ),
        r.net.joinWinUs = (phyTxDone psa o s.node airEndUs).net.joinWinUs →
        lgJoinWinNextUs r = some a →
        ∀ g ∈ train, (eventPlan r ⟨.joinRx, a, none, prio⟩).1.listens.1 ≤ g.startUs ∧
          g.endUs ≤ (eventPlan r ⟨.joinRx, a, none, prio⟩).1.listens.2) ∧
    (∀ f ∈ s.air, ∀ f' ∈ s.air, ∀ spreadUs spreadUs' train train',
      f.Requested psa spreadUs train → f'.Requested psa spreadUs' train' → spreadUs ≠ spreadUs' →
      (∀ g ∈ train, ∀ g' ∈ train', g.endUs ≤ g'.startUs) ∨
      (∀ g ∈ train, ∀ g' ∈ train', g'.endUs ≤ g.startUs)) := by
  have hp := Beaconing.run_points hrun
  have hsent : ∀ f ∈ s.air, ∀ spreadUs train, f.Requested psa spreadUs train →
      ∃ n < joinContendSlots, spreadUs = n * joinTrainUs ∧ ∀ g ∈ train,
        s.node.ev.anchorUs + joinLagUs + spreadUs ≤ g.startUs ∧
          g.endUs ≤ s.node.ev.anchorUs + joinLagUs + spreadUs + joinTrainUs := by
    intro f hf spreadUs train hreq
    have hans := hreq
    obtain ⟨cfg', k, i, -, -, -, hans, -⟩ := hans
    obtain ⟨-, hwin, hjoin⟩ := hs.offers hp hf hans
    rw [← hjoin]
    exact hreq.within hwin
  have hroom : joinTrainUs = 9500 := rfl
  refine ⟨?_, ?_, ?_⟩
  · intro f hf cfg' k i hans
    obtain ⟨hoffers, -, hjoin⟩ := hs.offers hp hf hans
    rw [hs.opens hp htime hoffers, ← hjoin]
    exact hans.aim.2.2.1
  · intro f hf spreadUs train hreq r a prio hwin ha g hg
    obtain ⟨n, hn, hsub, htimes⟩ := hsent f hf spreadUs train hreq
    obtain ⟨cfg', k, i, -, -, -, hans, -⟩ := hreq
    rw [hs.opens hp htime (hs.offers hp hf hans).1] at hwin
    have hat : a = s.node.ev.anchorUs + joinLagUs := by
      unfold lgJoinWinNextUs at ha
      split at ha
      · cases ha
      · split at ha
        · cases ha
        · rw [hwin] at ha
          exact (Option.some.inj ha).symm
    have hspan : (eventPlan r ⟨.joinRx, a, none, prio⟩).1.listens =
        (a - joinRxMarginUs, a + joinWindowLenUs) := rfl
    have hlen : joinWindowLenUs = 40000 := rfl
    have hslots : joinContendSlots = 4 := rfl
    obtain ⟨hlow, hhigh⟩ := htimes g hg
    rw [hspan, hat]
    rw [hsub, hroom] at hlow hhigh
    change _ - _ ≤ _ ∧ _ ≤ _ + _
    omega
  · intro f hf f' hf' spreadUs spreadUs' train train' hreq hreq' hne
    obtain ⟨n, -, hsub, htimes⟩ := hsent f hf spreadUs train hreq
    obtain ⟨n', -, hsub', htimes'⟩ := hsent f' hf' spreadUs' train' hreq'
    rw [hsub, hsub', hroom] at hne
    rw [hsub, hroom] at htimes
    rw [hsub', hroom] at htimes'
    rcases Nat.lt_or_gt_of_ne hne with hlt | hlt
    · left
      intro g hg g' hg'
      have hbefore := (htimes g hg).2
      have hafter := (htimes' g' hg').1
      omega
    · right
      intro g hg g' hg'
      have hbefore := (htimes' g' hg').2
      have hafter := (htimes g hg).1
      omega

/-- Node 1 has a backhaul and offers a join window: two copies of its first beacon have ended. -/
def offeringRun : List (Oracle × Input) :=
  [(calm 1, Input.backhaulSet true), (calm 1, .start), (calm 2, .tick 300000),
    (calm 2, .schedWork), (calm 3, .schedWork), (calm 3, .tick 76000), (calm 3, .granted)] ++
    (copiesDone (calm 4) 376000).take 2

/-- Node 2 has just started, and hears the copy. -/
def hearing (f : Copy) : List (Call .default) :=
  beaconCalls Psa.plain (calm 7)
    (lgStart Psa.plain (calm 5) (Node.boot .default (plainIdent 2 1))) ⟨f.pdu, -60, f.startUs⟩

/-- The call starts a handshake, and its request goes on air. -/
def Call.requests (k : Call .default) : Bool :=
  match k.deed with
  | .begin i =>
    match lgJoinStart k.o k.node i with
    | (.ok (), d) => (lgJoinNextUs d i).any fun a =>
        (onAir Psa.plain (calm 8) ({ d with ev := { d.ev with anchorUs := a } }.setHs
          { d.hs with wasTx := true, fragIdx := 0 }) 0).isSome
    | _ => false
  | _ => false

theorem Call.requests_requested {f : Copy} {k : Call .default} (hk : k ∈ hearing f)
    (h : k.requests = true) :
    ∃ (i : Fin Config.default.maxNeighbors) (train : List Copy), f.Answered Psa.plain k i ∧
      train ≠ [] ∧ f.Requested Psa.plain (k.node.neigh i).join.joinSpreadUs train := by
  unfold Call.requests at h
  split at h
  · next i hbegin =>
    have hans : f.Answered Psa.plain k i := ⟨_, _, _, rfl, rfl, hk, hbegin⟩
    split at h
    · next d hstart =>
      obtain ⟨a, hnext, hair⟩ := (Option.any_eq_true _ _).mp h
      let e : Node .default := { d with ev := { d.ev with anchorUs := a } }
      obtain ⟨train, htrain, hne⟩ := Trains.exists_train Psa.plain (calm 8)
        (joinTxStart Psa.plain (calm 8) e)
        (onAir Psa.plain (calm 8) (e.setHs { e.hs with wasTx := true, fragIdx := 0 }) 0) a
      exact ⟨i, train, hans, hne hair, _, k, i, d, e, calm 8, hans, rfl, hstart, rfl, hnext,
        htrain⟩
    · cases h
  · cases h

theorem subslots_hold_offering :
    ∃ (s : Beaconing .default) (f : Copy) (k : Call .default) (i : Fin Config.default.maxNeighbors)
      (train : List Copy),
      f ∈ s.air ∧ f.Answered Psa.plain k i ∧ train ≠ [] ∧
      f.Requested Psa.plain (k.node.neigh i).join.joinSpreadUs train ∧
      (k.node.neigh i).join.joinNextUs =
        (phyTxDone Psa.plain (calm 4) s.node 381328).net.joinWinUs := by
  obtain ⟨s, hrun, hend⟩ := Traces.exists_run
    (Beaconing.next_step Psa.plain fun _ _ _ => True) offeringRun
    (Beaconing.boot .default (plainIdent 1 1))
    (fun s => decide ((s.node.ev.kind = .beacon ∧ s.node.phy = .tx ∧
      s.air.map Copy.pdu = [s.node.copyAt 2, s.node.copyAt 1, s.node.copyAt 0]) ∧
      s.OnTime (.txDone 381328)) && s.air.any fun f => (hearing f).any Call.requests)
    (by decide +kernel)
  obtain ⟨hsent, hany⟩ := Bool.and_eq_true_iff.mp hend
  obtain ⟨⟨hev, hphy, hcopies⟩, htime⟩ := of_decide_eq_true hsent
  obtain ⟨f, hf, hcalls⟩ := List.any_eq_true.mp hany
  obtain ⟨k, hk, hreq⟩ := List.any_eq_true.mp hcalls
  obtain ⟨i, train, hans, htrain, hreq⟩ := Call.requests_requested hk hreq
  exact ⟨s, f, k, i, train, hf, hans, htrain, hreq,
    (subslots_hold hrun ⟨hev, hphy, hcopies⟩ (calm 4) htime).1 f hf _ k i hans⟩

end LockGrid
