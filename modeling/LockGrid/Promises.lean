import LockGrid.Charts
import LockGrid.Notices
import LockGrid.Origin
import LockGrid.Stores
import LockGrid.Subrates
import LockGrid.Traces

/-!
# What a beacon promises

Each copy of a beacon says how long after it the next beacon comes. The copies are sealed one event
ahead, for the time at which they are to go on air; `lg_disc_retune` can put that time off without
sealing them anew.
-/
namespace LockGrid

variable {cfg : Config} {psa : Psa} {c c' d : Node cfg} {o : Oracle}

/-! ## The copies -/

/-- From the start of one copy to the start of the next. -/
def copyStrideUs : ℕ := beaconAirUs + beaconCopyGapUs

/-- A copy of a beacon on air. -/
structure Copy where
  startUs : ℕ
  pdu : Bytes
  deriving DecidableEq, Repr

/-- When the sender's next beacon is due, to one who hears the copy. -/
def Copy.promiseUs (f : Copy) : ℕ :=
  f.startUs + (Beacon.decode (f.pdu.drop hdrLen)).nextBeaconOffsetUs.toNat

/-- Copy `k` as it is staged; empty if it is not. -/
def Node.copyAt (c : Node cfg) (k : ℕ) : Bytes :=
  if h : k < rdvSlots then (c.net.beaconCopy ⟨k, h⟩).pdu else []

/-- The copy that goes on air in a step from `c` to `c'`. -/
def copySent (c c' : Node cfg) : Input → Option Copy
  | .granted => if c'.phy = .tx then some ⟨c.ev.anchorUs, c'.copyAt c'.net.beaconCopyIdx⟩ else none
  | .txDone airEndUs =>
    if c'.phy = .tx then some ⟨airEndUs + beaconCopyGapUs, c'.copyAt c'.net.beaconCopyIdx⟩
    else none
  | _ => none

theorem Beacon.decode_encode_offset (b : Beacon) (rest : Bytes) :
    (Beacon.decode (b.encode ++ rest)).nextBeaconOffsetUs = b.nextBeaconOffsetUs := by
  have hlen : (putLe32 b.networkId ++ putLe32 b.epoch ++ putLe16 b.rank ++ putLe16 b.chanMap ++
      [b.role, b.linkCount, b.linkCapacity] ++ putLe16 b.joinOffsetUs ++
      putLe16 b.joinWindowUs).length = 19 := rfl
  simp only [Beacon.decode, Beacon.encode]
  rw [List.append_assoc _ _ rest, getLe32_append_right _ _ _ hlen.le, hlen]
  exact getLe32_putLe32 ..

/-- The copies say when the beacon after the one at `stagedUs` comes. -/
def Node.Foretells (c : Node cfg) (stagedUs : ℕ) : Prop :=
  ∀ k : Fin rdvSlots, (c.net.beaconCopy k).pdu ≠ [] →
    (c.net.beaconCopy k).pdu.length = hdrLen + beaconLen + beaconMicLen ∧
      Copy.promiseUs ⟨stagedUs + k.val * copyStrideUs, (c.net.beaconCopy k).pdu⟩ =
        c.net.beaconPlannedUs

/-- The next two beacons are so far apart that the last copy of the one still comes before the
other. -/
def spaced (o : Oracle) (c : Node cfg) : Prop :=
  (rdvSlots - 1) * copyStrideUs ≤ jitter o 5 (beaconIntervalUs c)

instance (o : Oracle) (c : Node cfg) : Decidable (spaced o c) := by
  unfold spaced
  infer_instance

/-- The time that `lg_disc_beacon_finish` sets the next beacon to. -/
def nextChosenUs (o : Oracle) (c : Node cfg) : ℕ :=
  if c.nowUs + 2000 < c.net.beaconPlannedUs then c.net.beaconPlannedUs
  else c.nowUs + jitter o 4 (beaconIntervalUs c)

theorem lgDiscBeaconFinish_next (psa : Psa) (o : Oracle) (c : Node cfg) :
    (lgDiscBeaconFinish psa o c).net.nextBeaconUs = some (nextChosenUs o c) := rfl

theorem lgDiscBeaconFinish_planned (psa : Psa) (o : Oracle) (c : Node cfg) :
    (lgDiscBeaconFinish psa o c).net.beaconPlannedUs =
      nextChosenUs o c + jitter o 5 (beaconIntervalUs c) := rfl

theorem jitter_lt (o : Oracle) (k nominal : ℕ) : jitter o k nominal < 2 ^ 32 := by
  unfold jitter
  dsimp only
  split
  · omega
  · exact Nat.mod_lt _ (by decide)

theorem toNat_sub_ofNat {a b : ℕ} (hle : b ≤ a) (hlt : a - b < 2 ^ 32) :
    (UInt32.ofNat a - UInt32.ofNat b).toNat = a - b := by
  rw [UInt32.toNat_sub, UInt32.toNat_ofNat', UInt32.toNat_ofNat']
  omega

/-- What is sealed is the beacon, and it is followed by its MIC. -/
theorem lgSecBeaconSeal_append {ok : Bool} {netKey pdu out : Bytes}
    (h : lgSecBeaconSeal psa ok netKey pdu = some out) :
    ∃ mic : Bytes, mic.length = beaconMicLen ∧ out = pdu ++ mic := by
  have hlen := lgSecBeaconSeal_length h
  unfold lgSecBeaconSeal at h
  split at h
  · cases h
  · obtain ⟨mic, -, rfl⟩ := Option.map_eq_some_iff.mp h
    rw [List.length_append] at hlen
    exact ⟨mic, by omega, rfl⟩

/-- A copy that was sealed, and what it says of the beacon that comes next. -/
theorem beaconStage_copy (psa : Psa) (o : Oracle) (c : Node cfg) (k : Fin rdvSlots)
    (hk : ((beaconStage psa o c).net.beaconCopy k).pdu ≠ []) :
    ((beaconStage psa o c).net.beaconCopy k).pdu.length = hdrLen + beaconLen + beaconMicLen ∧
      (Beacon.decode (((beaconStage psa o c).net.beaconCopy k).pdu.drop
        hdrLen)).nextBeaconOffsetUs = UInt32.ofNat c.net.beaconPlannedUs -
          UInt32.ofNat (c.net.nextBeaconUs.getD 0 + k.val * copyStrideUs) := by
  simp only [beaconStage] at hk ⊢
  split at hk
  · exact absurd rfl hk
  · next out hseal =>
    obtain ⟨mic, hmic, rfl⟩ := lgSecBeaconSeal_append hseal
    have hhdr : (lgFrameHdrPut c.ident.netid16 FrameType.beacon.code 0 addrBroadcast
        c.ident.addr).length = hdrLen := lgFrameHdrPut_length ..
    dsimp only
    rw [List.append_assoc]
    constructor
    · rw [List.length_append, hhdr, List.length_append, hmic]
      rfl
    · rw [List.drop_left' hhdr, Beacon.decode_encode_offset]
      rfl

/-- What has been staged tells the truth about a beacon that goes on air when it is due. -/
theorem lgDiscBeaconFinish_foretells (psa : Psa) (h : spaced o c) :
    (lgDiscBeaconFinish psa o c).Foretells (nextChosenUs o c) := by
  intro k hk
  have hdraw := jitter_lt o 5 (beaconIntervalUs c)
  have hk' := k.isLt
  have hspaced : k.val * copyStrideUs ≤ jitter o 5 (beaconIntervalUs c) :=
    (Nat.mul_le_mul_right _ (by omega)).trans h
  obtain ⟨hlen, hoffset⟩ := beaconStage_copy psa o _ k hk
  refine ⟨hlen, ?_⟩
  have hdiff := toNat_sub_ofNat (a := nextChosenUs o c + jitter o 5 (beaconIntervalUs c))
    (b := nextChosenUs o c + k.val * copyStrideUs) (by omega) (by omega)
  have hoffset' : (Beacon.decode (((lgDiscBeaconFinish psa o c).net.beaconCopy k).pdu.drop
      hdrLen)).nextBeaconOffsetUs.toNat =
        jitter o 5 (beaconIntervalUs c) - k.val * copyStrideUs := by
    refine (congrArg UInt32.toNat hoffset).trans (hdiff.trans ?_)
    omega
  rw [lgDiscBeaconFinish_planned, Copy.promiseUs, hoffset']
  change nextChosenUs o c + k.val * copyStrideUs + _ = _
  omega

/-! ## The choice of a beacon -/

/-- It is too late for a beacon at `anchorUs`. -/
def beaconLate (c : Node cfg) (anchorUs : ℕ) : Prop :=
  anchorUs - schedLeadUs < c.nowUs + schedMinHorizonUs

instance (c : Node cfg) (anchorUs : ℕ) : Decidable (beaconLate c anchorUs) := by
  unfold beaconLate
  infer_instance

/-- The beacon that a run of `sched_pick` comes to: when it is due, and the node that finds it. -/
def beaconDue (c : Node cfg) : Option (ℕ × Node cfg) :=
  if !c.running || c.ev.kind ≠ .none || c.granted || c.phy ≠ .idle then none
  else match candidates c with
  | none => none
  | some (l, d) =>
    match selectCandidate l with
    | none => none
    | some cand => if cand.kind = .beacon then some (cand.anchorUs, d) else none

/-- Why there is a candidate: a link or a handshake with a neighbour, the node's own beacon, or one
of the others. -/
inductive Wanted (c : Node cfg) (x : Candidate cfg) : Prop
  | neigh {i : Fin cfg.maxNeighbors} (hn : x.neigh = some i) (hk : x.kind ≠ .beacon)
  | beacon (hk : x.kind = .beacon) (hnext : c.net.nextBeaconUs = some x.anchorUs)
  | other (hk : x.kind ≠ .link ∧ x.kind ≠ .beacon)

theorem mem_addCandidate {l : List (Candidate cfg)} {k : EvKind} {t : Option ℕ}
    {n : Option (Fin cfg.maxNeighbors)} {prio : ℕ} {x : Candidate cfg}
    (hx : x ∈ addCandidate l k t n prio) :
    x ∈ l ∨ x.kind = k ∧ x.neigh = n ∧ t = some x.anchorUs := by
  unfold addCandidate at hx
  split at hx
  · exact .inl hx
  · rcases List.mem_append.mp hx with hx | hx
    · exact .inl hx
    · rw [List.mem_singleton] at hx
      subst hx
      exact .inr ⟨rfl, rfl, rfl⟩

theorem neighCandidate_wanted {l : List (Candidate cfg)} {i : Fin cfg.maxNeighbors}
    {p : List (Candidate cfg) × Node cfg} (h : neighCandidate c l i = some p) :
    p.2.net = c.net ∧ ∀ x ∈ p.1, x ∉ l → Wanted c x := by
  unfold neighCandidate at h
  dsimp only at h
  split at h
  · obtain ⟨⟨n, t⟩, -, rfl⟩ := Option.map_eq_some_iff.mp h
    refine ⟨rfl, fun x hx hnot => ?_⟩
    obtain ⟨hk, hn, -⟩ := (mem_addCandidate hx).resolve_left hnot
    exact .neigh hn (by rw [hk]; nofun)
  · cases h
    refine ⟨rfl, fun x hx hnot => ?_⟩
    obtain ⟨hk, hn, -⟩ := (mem_addCandidate hx).resolve_left hnot
    refine .neigh hn ?_
    rw [hk]
    split <;> nofun
  · cases h
    exact ⟨rfl, fun x hx hnot => absurd hx hnot⟩

theorem Wanted.of_net {x : Candidate cfg} (hnet : d.net = c.net) (h : Wanted d x) :
    Wanted c x := by
  cases h with
  | neigh hn hk => exact .neigh hn hk
  | beacon hk hnext => exact .beacon hk (hnet ▸ hnext)
  | other hk => exact .other hk

theorem candidates_wanted {p : List (Candidate cfg) × Node cfg} (h : candidates c = some p) :
    ∀ x ∈ p.1, Wanted c x := by
  have hfold : ∀ (l : List (Fin cfg.maxNeighbors)) (st p : List (Candidate cfg) × Node cfg),
      l.foldlM (fun st i => neighCandidate st.2 st.1 i) st = some p →
      p.2.net = st.2.net ∧ ∀ x ∈ p.1, x ∉ st.1 → Wanted st.2 x := by
    intro l
    induction l with
    | nil =>
      intro st p h
      cases h
      exact ⟨rfl, fun x hx hnot => absurd hx hnot⟩
    | cons i l ih =>
      intro st p h
      rw [List.foldlM_cons] at h
      obtain ⟨st', hst, h⟩ := Option.bind_eq_some_iff.mp h
      obtain ⟨hnet, hmem⟩ := neighCandidate_wanted hst
      obtain ⟨hnet', hmem'⟩ := ih st' p h
      refine ⟨hnet'.trans hnet, fun x hx hnot => ?_⟩
      by_cases hx' : x ∈ st'.1
      · exact hmem x hx' hnot
      · exact (hmem' x hx hx').of_net hnet
  obtain ⟨⟨l, e⟩, he, rfl⟩ := Option.map_eq_some_iff.mp h
  obtain ⟨hnet, hmem⟩ := hfold _ ([], c) _ he
  intro x hx
  have hother : ∀ {k : EvKind}, k ≠ .link → k ≠ .beacon → x.kind = k → Wanted c x :=
    fun hl hb hk => .other (hk ▸ ⟨hl, hb⟩)
  rcases mem_addCandidate hx with hx | ⟨hk, -, -⟩
  · rcases mem_addCandidate hx with hx | ⟨hk, -, -⟩
    · rcases mem_addCandidate hx with hx | ⟨hk, -, -⟩
      · rcases mem_addCandidate hx with hx | ⟨hk, -, hnext⟩
        · rcases mem_addCandidate hx with hx | ⟨hk, -, -⟩
          · exact hmem x hx List.not_mem_nil
          · exact hother (by decide) (by decide) hk
        · unfold lgDiscNextBeaconUs at hnext
          split at hnext
          · exact .beacon hk ((congrArg Net.nextBeaconUs hnet).symm.trans hnext)
          · cases hnext
      · exact hother (by decide) (by decide) hk
    · exact hother (by decide) (by decide) hk
  · exact hother (by decide) (by decide) hk

/-- Of the candidates only the node's own beacon is a beacon. -/
theorem Wanted.nextBeacon {x : Candidate cfg} (h : Wanted c x) (hk : x.kind = .beacon) :
    c.net.nextBeaconUs = some x.anchorUs := by
  cases h with
  | neigh _ hnot => exact absurd hk hnot
  | beacon _ hnext => exact hnext
  | other hnot => exact absurd hk hnot.2

/-- A candidate for a link event names the link. -/
theorem Wanted.partner {x : Candidate cfg} (h : Wanted c x) (hk : x.kind = .link) :
    ∃ i, x.neigh = some i := by
  cases h with
  | neigh hn _ => exact ⟨_, hn⟩
  | beacon hb => cases hb.symm.trans hk
  | other hnot => exact absurd hk hnot.1

theorem eventPlan_kind (c : Node cfg) (cand : Candidate cfg) :
    (eventPlan c cand).1.kind = cand.kind := by
  unfold eventPlan
  cases hk : cand.kind <;> dsimp only
  cases cand.neigh <;> rfl

/-- What is planned for a beacon. -/
theorem eventPlan_beacon (c : Node cfg) {cand : Candidate cfg} (hk : cand.kind = .beacon) :
    (eventPlan c cand).1.atUs = cand.anchorUs - schedLeadUs ∧
      (eventPlan c cand).1.anchorUs = cand.anchorUs ∧ (eventPlan c cand).2 = c := by
  unfold eventPlan
  simp only [hk, and_self]

theorem dropLate_beacon (psa : Psa) (o : Oracle) (c : Node cfg) {cand : Candidate cfg}
    (hk : cand.kind = .beacon) :
    dropLate psa o c cand = some (lgDiscBeaconFinish psa o c) := by
  unfold dropLate
  simp only [hk]

theorem stageFor_beacon (psa : Psa) (o : Oracle) (c : Node cfg) {cand : Candidate cfg}
    (hk : cand.kind = .beacon) : stageFor psa o c cand = (true, c) := by
  unfold stageFor
  simp only [hk]

/-- What is asked for is the candidate. -/
theorem requestEvent_ev {cand : Candidate cfg} (h : requestEvent psa o c cand = some d) :
    d.ev = c.ev ∨ d.ev.kind = cand.kind := by
  have hplan := congrArg Prod.fst (Aside.of_quiet (eventPlan_quiet c cand)).slot
  unfold requestEvent at h
  dsimp only at h
  split at h
  · exact .inl ((congrArg Prod.fst (dropLate_aside h).slot).trans hplan)
  · split at h <;> cases h
    · exact .inl hplan
    · exact .inr (eventPlan_kind c cand)

/-- A run of `sched_pick` that comes to a beacon drops it, has its request refused or asks for
it. -/
inductive BeaconPick (psa : Psa) (o : Oracle) (c e : Node cfg) : Prop
  | late {a : ℕ} {d : Node cfg} (hdue : beaconDue c = some (a, d)) (hlate : beaconLate d a)
    (hslot : d.slot = c.slot) (hcharts : d.charts = c.charts) (he : e = lgDiscBeaconFinish psa o d)
  | asked {a : ℕ} {d : Node cfg} (hdue : beaconDue c = some (a, d)) (hlate : ¬beaconLate d a)
    (hnext : c.net.nextBeaconUs = some a) (hphy : c.phy = .idle) (hcharts : e.charts = c.charts)
    (hslot : e.slot = (e.ev, c.slot.2)) (hev : e.ev = c.ev ∨ e.ev.anchorUs = a)
  | other (hdue : beaconDue c = none) (hcharts : e.charts = c.charts)
    (hslot : e.slot = (e.ev, c.slot.2)) (hev : e.ev = c.ev ∨ e.ev.kind ≠ .beacon)

theorem schedPick_beacon {e : Node cfg} (h : schedPick psa o c = some e) :
    BeaconPick psa o c e := by
  have hslot := (schedPick_slot h).1
  unfold schedPick at h
  split at h
  · next hguard =>
    cases h
    exact .other (if_pos hguard) rfl rfl (.inl rfl)
  · next hguard =>
    have hidle : c.phy = .idle := by
      simp only [Bool.or_eq_true, not_or, decide_eq_true_eq, not_not] at hguard
      exact hguard.2
    have hdue : beaconDue c = match candidates c with
      | none => none
      | some (l, d) => match selectCandidate l with
        | none => none
        | some cand => if cand.kind = .beacon then some (cand.anchorUs, d) else none :=
      if_neg hguard
    cases hcand : candidates c with
    | none =>
      rw [hcand] at h
      cases h
    | some p =>
      obtain ⟨l, d⟩ := p
      have hd := candidates_charts hcand
      have hdslot := (candidates_aside hcand).slot
      have hwanted := candidates_wanted hcand
      rw [hcand] at h hdue
      dsimp only at h hdue
      cases hsel : selectCandidate l with
      | none =>
        rw [hsel] at h hdue
        cases h
        exact .other hdue hd hslot (.inl (congrArg Prod.fst hdslot))
      | some cand =>
        rw [hsel] at h hdue
        dsimp only at h hdue
        by_cases hk : cand.kind = .beacon
        · obtain ⟨hat, hanchor, hsame⟩ := eventPlan_beacon d hk
          rw [if_pos hk] at hdue
          rw [stageFor_beacon psa o d hk] at h
          simp only [if_true, requestEvent, hsame, hat] at h
          split at h
          · next hlate =>
            rw [dropLate_beacon psa o d hk] at h
            cases h
            exact .late hdue hlate hdslot hd rfl
          · next hlate =>
            have hnext := (hwanted cand (selectCandidate_mem hsel)).nextBeacon hk
            split at h <;> cases h
            · exact .asked hdue hlate hnext hidle hd hslot (.inl (congrArg Prod.fst hdslot))
            · exact .asked hdue hlate hnext hidle hd hslot (.inr hanchor)
        · have hs := (stageFor_charts psa o d cand).trans hd
          have hsev : (stageFor psa o d cand).2.ev = c.ev :=
            (congrArg (fun r => r.2.1) (stageFor_radio psa o d cand)).trans
              (congrArg Prod.fst hdslot)
          rw [if_neg hk] at hdue
          split at h
          · refine .other hdue ((requestEvent_charts hk h).trans hs) hslot ?_
            rcases requestEvent_ev h with hev | hev
            · exact .inl (hev.trans hsev)
            · exact .inr (hev ▸ hk)
          · cases h
            exact .other hdue hs hslot (.inl hsev)

/-! ## Runs of a node that beacons -/

/-- A node, the time its copies are staged for, and the copies that went on air in its last beacon
event, the newest first. -/
structure Beaconing (cfg : Config) where
  node : Node cfg
  stagedUs : ℕ := 0
  air : List Copy := []

/-- The call of `lg_disc_beacon_finish` in a run of `sched_pick`: with which node, and what the
world answers during it. -/
def pickStages (o : Oracle) (c : Node cfg) : List (Oracle × Node cfg) :=
  match beaconDue c with
  | some (a, d) => if beaconLate d a then [(o, d)] else []
  | none => []

/-- Its call before a step comes to `sched_pick`. -/
def firstStages (psa : Psa) (o : Oracle) (c : Node cfg) : Input → List (Oracle × Node cfg)
  | .finishWork _ => if c.finishKind = .beacon then [(o, c)] else []
  | .start =>
    if c.started ∨ c.ident.addr = addrInvalid then []
    else match lgSecCertVerify psa o c.ident c.ident.cert with
    | .error _ => []
    | .ok _ => [(o, lgRoleEvaluate o (started o c))]
  | _ => []

/-- The node with which a step runs `sched_pick`. -/
def pickedAt (psa : Psa) (o : Oracle) (c : Node cfg) : Input → Option (Oracle × Node cfg)
  | .schedWork => some (o, c)
  | .finishWork o' =>
    (settle psa o c).map fun d => (o', { d with finishKind := .none, finishNeigh := none })
  | _ => none

/-- The time for which the last of the calls has staged. -/
def stagedAfter (l : List (Oracle × Node cfg)) (stagedUs : ℕ) : ℕ :=
  l.foldl (fun _ p => nextChosenUs p.1 p.2) stagedUs

/-- The copies of the last beacon event after a step from `c` to `c'`. -/
def airAfter (c c' : Node cfg) (inp : Input) (air : List Copy) : List Copy :=
  if c.ev.kind ≠ .beacon then air
  else match inp with
  | .granted | .refused => (copySent c c' inp).toList
  | _ => (copySent c c' inp).toList ++ air

namespace Beaconing

variable (s : Beaconing cfg)

def boot (cfg : Config) (ident : Identity) : Beaconing cfg where
  node := .boot cfg ident

/-- The PHY reports the end of a copy when its air time is over. -/
def OnTime : Input → Prop
  | .txDone airEndUs => s.node.ev.kind = .beacon →
      ∀ f ∈ s.air.head?, airEndUs = f.startUs + airtimeUs f.pdu.length
  | _ => True

instance (inp : Input) : Decidable (s.OnTime inp) := by
  rcases inp <;> unfold OnTime <;> infer_instance

/-- After a step to `c'`. -/
def after (psa : Psa) (o : Oracle) (inp : Input) (c' : Node cfg) : Beaconing cfg where
  node := c'
  stagedUs := stagedAfter ((pickedAt psa o s.node inp).elim [] fun p => pickStages p.1 p.2)
    (stagedAfter (firstStages psa o s.node inp) s.stagedUs)
  air := airAfter s.node c' inp s.air

/-- A step that meets the condition `P`. -/
def Step (psa : Psa) (P : Beaconing cfg → Oracle → Input → Prop) (s s' : Beaconing cfg) : Prop :=
  ∃ o inp c', Enabled s.node inp ∧ s.OnTime inp ∧ P s o inp ∧
    perform psa o s.node inp = some c' ∧ s' = s.after psa o inp c'

/-- The copies that were heard have told the truth: `lg_disc_beacon_finish`, which settles their
beacon, schedules the next one for when they said, unless that is too soon. -/
def Truthful (psa : Psa) : Prop :=
  s.node.finishKind = .beacon → ∀ f ∈ s.air, ∀ o : Oracle,
    s.node.nowUs + 2000 < f.promiseUs →
      (lgDiscBeaconFinish psa o s.node).net.nextBeaconUs = some f.promiseUs

/-- `lg_disc_beacon_finish` is called by nothing else while a beacon waits for its settlement. -/
def Unhurried (psa : Psa) (o : Oracle) : Input → Prop
  | .schedWork => s.node.finishKind = .beacon → (beaconDue s.node).isNone
  | .start => s.node.finishKind = .beacon → firstStages psa o s.node .start = []
  | _ => True

instance (psa : Psa) (o : Oracle) (inp : Input) : Decidable (s.Unhurried psa o inp) := by
  rcases inp <;> unfold Unhurried <;> infer_instance

end Beaconing

/-- No call of `lg_disc_beacon_finish` puts the next two beacons too close together or comes
between a beacon and its settlement, and no beacon is chosen that `lg_disc_retune` has started anew
since it was staged. -/
@[mk_iff]
structure Beaconing.Regular (psa : Psa) (s : Beaconing cfg) (o : Oracle) (inp : Input) : Prop where
  first : ∀ p ∈ firstStages psa o s.node inp, spaced p.1 p.2
  last : ∀ p ∈ pickedAt psa o s.node inp, ∀ q ∈ pickStages p.1 p.2, spaced q.1 q.2
  due : ∀ p ∈ pickedAt psa o s.node inp, ∀ q ∈ beaconDue p.2, beaconLate q.2 q.1 ∨
    p.2.net.nextBeaconUs = some (stagedAfter (firstStages psa o s.node inp) s.stagedUs)
  unhurried : s.Unhurried psa o inp

instance (s : Beaconing cfg) (inp : Input) : Decidable (Beaconing.Regular psa s o inp) :=
  decidable_of_iff _ (Beaconing.regular_iff psa s o inp).symm

/-- The step for an input, if it can be taken. -/
def Beaconing.next (psa : Psa) (P : Beaconing cfg → Oracle → Input → Prop)
    [∀ s o inp, Decidable (P s o inp)] (s : Beaconing cfg) (oi : Oracle × Input) :
    Option (Beaconing cfg) :=
  if Enabled s.node oi.2 ∧ s.OnTime oi.2 ∧ P s oi.1 oi.2 then
    (perform psa oi.1 s.node oi.2).map (s.after psa oi.1 oi.2)
  else none

theorem Beaconing.next_step (psa : Psa) (P : Beaconing cfg → Oracle → Input → Prop)
    [∀ s o inp, Decidable (P s o inp)] (s : Beaconing cfg) (oi : Oracle × Input)
    (s' : Beaconing cfg) (h : s.next psa P oi = some s') : Beaconing.Step psa P s s' := by
  unfold Beaconing.next at h
  split at h
  · next hgo =>
    obtain ⟨c', hp, rfl⟩ := Option.map_eq_some_iff.mp h
    exact ⟨oi.1, oi.2, c', hgo.1, hgo.2.1, hgo.2.2, hp, rfl⟩
  · cases h

/-! ## What the copies rest on -/

/-- The copies are true of a beacon at `stagedUs`, a beacon that is on or over was one, and its
copies have gone on air in their places. -/
structure Primed (c : Node cfg) (stagedUs : ℕ) (air : List Copy) : Prop where
  staged : c.Foretells stagedUs
  chosen : c.ev.kind = .beacon → c.ev.anchorUs = stagedUs ∧ c.finishKind ≠ .beacon
  sending : c.ev.kind = .beacon → c.phy = .tx → ∃ f, air.head? = some f ∧
    f.startUs = stagedUs + c.net.beaconCopyIdx * copyStrideUs ∧
    f.pdu.length = hdrLen + beaconLen + beaconMicLen
  honest : c.finishKind = .beacon ∨ (c.ev.kind = .beacon ∧ c.phy ≠ .idle) →
    ∀ f ∈ air, f.promiseUs = c.net.beaconPlannedUs

/-- What is staged, and what for. -/
def Node.copies (c : Node cfg) : ℕ × (Fin rdvSlots → BeaconCopy) :=
  (c.net.beaconPlannedUs, c.net.beaconCopy)

theorem Node.copies_eq (h : c'.charts.2 = c.charts.2) : c'.copies = c.copies := by
  have hplan := congrArg Prod.fst h
  have hcopy := congrArg (fun r => r.2.1) h
  exact Prod.ext hplan hcopy

theorem Node.Foretells.keep {t : ℕ} (h : c.Foretells t) (hc : c'.copies = c.copies) :
    c'.Foretells t := by
  have hplan : c'.net.beaconPlannedUs = c.net.beaconPlannedUs := congrArg Prod.fst hc
  have hcopy : c'.net.beaconCopy = c.net.beaconCopy := congrArg Prod.snd hc
  intro k
  rw [hplan, hcopy]
  exact h k

/-- No handler of the arbiter or the PHY stages copies, or changes what they offer. -/
theorem perform_interrupt_offers {inp : Input} (hi : inp.isInterrupt = true)
    (h : perform psa o c inp = some c') :
    c'.copies = c.copies ∧ c'.net.beaconOffersJoin = c.net.beaconOffersJoin := by
  have hrest : ∀ {d e : Node cfg}, e.charts.2 = d.charts.2 →
      e.copies = d.copies ∧ e.net.beaconOffersJoin = d.net.beaconOffersJoin := fun he =>
    ⟨Node.copies_eq he, congrArg (fun r => r.2.2.2) he⟩
  have hall : ∀ {d e : Node cfg}, e.charts = d.charts →
      e.copies = d.copies ∧ e.net.beaconOffersJoin = d.net.beaconOffersJoin := fun he =>
    hrest (congrArg Prod.snd he)
  have hcharged : ∀ {d e : Node cfg} {stats : Fin chanCount → ChanStat},
      e.charts = (stats, d.charts.2) →
      e.copies = d.copies ∧ e.net.beaconOffersJoin = d.net.beaconOffersJoin := fun he =>
    hrest (by rw [he])
  have hsent : ∀ {e : Node cfg} {k : ℕ}, e.charts =
      (c.net.chan, c.net.beaconPlannedUs, c.net.beaconCopy, k, c.net.beaconOffersJoin) →
      e.copies = c.copies ∧ e.net.beaconOffersJoin = c.net.beaconOffersJoin := fun he =>
    ⟨congrArg (fun r => (r.2.1, r.2.2.1)) he, congrArg (fun r => r.2.2.2.2) he⟩
  cases inp with
  | granted =>
    cases h
    change _ = ({ c with granted := true } : Node cfg).copies ∧ _
    unfold tsGranted
    dsimp only
    split
    · exact hall (command_charts o _ _)
    · exact hsent (beaconStart_charts o { c with granted := true })
    · exact hall (command_charts o _ _)
    · exact hall (command_charts o _ _)
    · exact hall (joinTxStart_charts psa o _)
    · exact hall (joinRxStart_charts o _)
    · exact hrest (lgChanNoise_charts _ _ _)
    · exact ⟨rfl, rfl⟩
  | refused =>
    cases h
    unfold tsFailed
    split
    · exact ⟨rfl, rfl⟩
    · exact hcharged (lgLinkEventMiss_charts o c _)
    · exact hall (trackResult_charts c false)
    · exact ⟨rfl, rfl⟩
    · exact ⟨rfl, rfl⟩
    · exact ⟨rfl, rfl⟩
  | txDone airEndUs =>
    cases h
    unfold phyTxDone
    split
    · exact hall (linkTxDone_charts o c _)
    · exact hsent (beaconTxDone_charts o c airEndUs)
    · exact hall (joinTxDone_charts psa o c airEndUs)
    · exact ⟨rfl, rfl⟩
  | rxDone rx =>
    cases h
    unfold phyRxDone
    split
    · exact hcharged (linkRxDone_charts o c _ rx)
    · exact hall (scanRxDone_charts o c rx)
    · exact hall ((trackResult_charts _ true).trans (lgRxPost_charts c rx))
    · exact hall (joinRxDone_charts o c rx)
    · exact ⟨rfl, rfl⟩
  | rxFailed reason =>
    cases h
    unfold phyRxFailed
    split
    · exact hcharged (linkRxFail_charts c _ reason)
    · exact hall (joinRxFail_charts o c reason)
    · exact hall (joinRxFail_charts o c reason)
    · exact hall (trackResult_charts c false)
    · exact ⟨rfl, rfl⟩
  | _ => cases hi

theorem perform_interrupt_copies {inp : Input} (hi : inp.isInterrupt = true)
    (h : perform psa o c inp = some c') : c'.copies = c.copies := (perform_interrupt_offers hi h).1

/-- A settlement other than that of a beacon stages no copies. -/
theorem settle_charts (hk : c.finishKind ≠ .beacon) (h : settle psa o c = some d) :
    d.charts.2 = c.charts.2 := by
  unfold settle at h
  split at h
  · split at h <;> cases h
    · rw [lgLinkEventFinish_charts]
    · rfl
  · next hb => exact absurd hb hk
  · cases h
    rw [lgRoleEvaluate_charts]
    rfl
  · rw [lgJoinEventFinish_charts h]
  · rw [lgJoinEventFinish_charts h]
  · cases h
    unfold finishChanEval
    dsimp only
    split <;> rfl
  · cases h
    rfl
  · cases h
    rfl

namespace Primed

variable {t : ℕ} {air : List Copy}

/-- Work that has nothing to do with the radio or with beacons. -/
theorem aside (h : Primed c t air) (hslot : c'.slot = c.slot) (hcharts : c'.charts.2 = c.charts.2) :
    Primed c' t air := by
  have hcopies := Node.copies_eq hcharts
  have hplan : c'.net.beaconPlannedUs = c.net.beaconPlannedUs := congrArg Prod.fst hcharts
  have hidx : c'.net.beaconCopyIdx = c.net.beaconCopyIdx := congrArg (fun r => r.2.2.1) hcharts
  simp only [Node.slot, Prod.mk.injEq] at hslot
  obtain ⟨hev, hfk, -, -, hphy⟩ := hslot
  refine ⟨h.staged.keep hcopies, ?_, ?_, ?_⟩
  · rw [hev, hfk]
    exact h.chosen
  · rw [hev, hphy, hidx]
    exact h.sending
  · rw [hev, hfk, hphy, hplan]
    exact h.honest

/-- A handler of another event. -/
theorem rides (h : Primed c t air) (hk : c.ev.kind ≠ .beacon) (hc : c'.copies = c.copies)
    (hr : Rides c c') : Primed c' t air := by
  have hplan : c'.net.beaconPlannedUs = c.net.beaconPlannedUs := congrArg Prod.fst hc
  cases hr with
  | on hev hfin =>
    refine ⟨h.staged.keep hc, fun hb => absurd (hev ▸ hb) hk, fun hb => absurd (hev ▸ hb) hk, ?_⟩
    intro hor
    rw [hplan]
    refine h.honest (hor.imp (fun hf => hfin.1 ▸ hf) fun hb => absurd (hev ▸ hb.1) hk)
  | @done d hev =>
    refine ⟨h.staged.keep hc, nofun, nofun, fun hor => ?_⟩
    rcases hor with hf | ⟨hf, -⟩
    · exact absurd ((congrArg Event.kind hev).symm.trans hf) hk
    · cases hf

/-- The end of a beacon that was on air, or never came to be. -/
theorem ended (h : Primed c t air) (hphy : air ≠ [] → c.phy ≠ .idle) :
    Primed (lgSchedEventDone c) t air := by
  refine ⟨h.staged, nofun, nofun, fun hor f hf => ?_⟩
  rcases hor with hk | ⟨hk, -⟩
  · exact h.honest (.inr ⟨hk, hphy (List.ne_nil_of_mem hf)⟩) f hf
  · cases hk

/-- A beacon is staged anew while none is on or waits for its settlement. -/
theorem restage (psa : Psa) (hspaced : spaced o c) (hev : c'.ev.kind ≠ .beacon)
    (hfin : c'.finishKind ≠ .beacon)
    (hcopies : c'.copies = (lgDiscBeaconFinish psa o c).copies) :
    Primed c' (nextChosenUs o c) air := by
  refine ⟨(lgDiscBeaconFinish_foretells psa hspaced).keep hcopies, fun hb => absurd hb hev,
    fun hb => absurd hb hev, fun hor => ?_⟩
  rcases hor with hf | ⟨hb, -⟩
  · exact absurd hf hfin
  · exact absurd hb hev

theorem beaconDue_free {q : ℕ × Node cfg} (h : beaconDue c = some q) : c.ev.kind = .none := by
  unfold beaconDue at h
  split at h
  · cases h
  · next hguard =>
    simp only [Bool.or_eq_true, not_or, decide_eq_true_eq, not_not] at hguard
    exact hguard.1.1.2

theorem pick {e : Node cfg} (h : Primed c t air) (hp : schedPick psa o c = some e)
    (hfin : c.finishKind = .beacon → beaconDue c = none)
    (hspaced : ∀ q ∈ pickStages o c, spaced q.1 q.2)
    (hdue : ∀ q ∈ beaconDue c, beaconLate q.2 q.1 ∨ c.net.nextBeaconUs = some t) :
    Primed e (stagedAfter (pickStages o c) t) air := by
  have hfree : ∀ {q}, beaconDue c = some q → c.finishKind ≠ .beacon := by
    intro q hq hf
    rw [hfin hf] at hq
    cases hq
  cases schedPick_beacon hp with
  | @late a d hd hlate hslot _ he =>
    have hstages : pickStages o c = [(o, d)] := by
      simp only [pickStages, hd, if_pos hlate]
    rw [hstages] at hspaced ⊢
    obtain ⟨net, view, hq⟩ := lgDiscBeaconFinish_quiet psa o d
    have hslot' : e.slot = c.slot := by
      rw [he, ← hslot, hq]
      rfl
    simp only [Node.slot, Prod.mk.injEq] at hslot'
    refine restage psa (hspaced _ List.mem_cons_self) ?_ ?_ (congrArg Node.copies he)
    · rw [hslot'.1, beaconDue_free hd]
      simp
    · rw [hslot'.2.1]
      exact hfree hd
  | @asked a d hd hlate hnext hphy hcharts hslot hev =>
    have hstages : pickStages o c = [] := by
      simp only [pickStages, hd, if_neg hlate]
    have hat : c.net.nextBeaconUs = some t := (hdue (a, d) hd).resolve_left hlate
    obtain rfl := Option.some.inj (hnext.symm.trans hat)
    simp only [Node.slot, Prod.mk.injEq] at hslot
    obtain ⟨-, hfk, -, -, hphy'⟩ := hslot
    have hidle : e.phy = .idle := hphy'.trans hphy
    have hnone : e.finishKind ≠ .beacon := hfk ▸ hfree hd
    rw [hstages]
    refine ⟨h.staged.keep (Node.copies_eq (congrArg Prod.snd hcharts)), fun hb => ?_,
      fun _ htx => ?_, fun hor => ?_⟩
    · rcases hev with hsame | hat
      · rw [hsame, beaconDue_free hd] at hb
        cases hb
      · exact ⟨hat, hnone⟩
    · rw [hidle] at htx
      cases htx
    · rcases hor with hf | ⟨-, hbusy⟩
      · exact absurd hf hnone
      · exact absurd hidle hbusy
  | other hd hcharts hslot hev =>
    have hstages : pickStages o c = [] := by simp only [pickStages, hd]
    rw [hstages]
    rcases hev with hsame | hother
    · exact h.aside (hslot.trans (by rw [hsame]; rfl)) (congrArg Prod.snd hcharts)
    · have hplan : e.net.beaconPlannedUs = c.net.beaconPlannedUs :=
        congrArg (fun r => r.2.1) hcharts
      simp only [Node.slot, Prod.mk.injEq] at hslot
      refine ⟨h.staged.keep (Node.copies_eq (congrArg Prod.snd hcharts)),
        fun hb => absurd hb hother, fun hb => absurd hb hother, fun hor => ?_⟩
      rw [hplan]
      exact h.honest (.inl ((hor.resolve_right fun hb => hother hb.1) ▸ hslot.2.1.symm))

/-- A settlement, and what has been settled is forgotten. -/
theorem settle (h : Primed c t air) (hs : LockGrid.settle psa o c = some d)
    (hspaced : ∀ p ∈ (if c.finishKind = .beacon then [(o, c)] else []), spaced p.1 p.2) :
    Primed { d with finishKind := .none, finishNeigh := none }
      (stagedAfter (if c.finishKind = .beacon then [(o, c)] else []) t) air := by
  have hslot := settle_slot hs
  simp only [Node.slot, Prod.mk.injEq] at hslot
  obtain ⟨hev, -, -, -, hphy⟩ := hslot
  by_cases hk : c.finishKind = .beacon
  · rw [if_pos hk] at hspaced ⊢
    have hd : d = lgRoleEvaluate o (lgDiscBeaconFinish psa o c) := by
      unfold LockGrid.settle at hs
      rw [hk] at hs
      exact (Option.some.inj hs).symm
    have hnot : c.ev.kind ≠ .beacon := fun hb => (h.chosen hb).2 hk
    refine restage psa (hspaced _ List.mem_cons_self) (hev ▸ hnot) (by simp) ?_
    rw [hd]
    exact Node.copies_eq (congrArg Prod.snd (lgRoleEvaluate_charts o _))
  · rw [if_neg hk]
    have hcharts := settle_charts hk hs
    have hcopies := Node.copies_eq hcharts
    have hplan : d.net.beaconPlannedUs = c.net.beaconPlannedUs := congrArg Prod.fst hcharts
    have hidx : d.net.beaconCopyIdx = c.net.beaconCopyIdx := congrArg (fun r => r.2.2.1) hcharts
    refine ⟨h.staged.keep hcopies, fun hb => ?_, fun hb htx => ?_, fun hor => ?_⟩
    · change d.ev.kind = .beacon at hb
      change d.ev.anchorUs = t ∧ _
      rw [hev] at hb ⊢
      exact ⟨(h.chosen hb).1, by simp⟩
    · change d.ev.kind = .beacon at hb
      change d.phy = .tx at htx
      change ∃ f, _ ∧ _ = t + d.net.beaconCopyIdx * _ ∧ _
      rw [hev] at hb
      rw [hphy] at htx
      rw [hidx]
      exact h.sending hb htx
    · change _ ∨ (d.ev.kind = .beacon ∧ d.phy ≠ .idle) at hor
      change ∀ f ∈ air, _ = d.net.beaconPlannedUs
      rw [hev, hphy] at hor
      rw [hplan]
      exact h.honest (.inr (hor.resolve_left (by simp)))

/-- What a beacon leaves that has sent nothing. -/
theorem silent (h : c.Foretells t) (hc : c'.copies = c.copies) (hev : c'.ev.kind ≠ .beacon) :
    Primed c' t [] :=
  ⟨h.keep hc, fun hb => absurd hb hev, fun hb => absurd hb hev, fun _ => nofun⟩

/-- The next copy is on air, in its place and for the first time. -/
theorem sends {f : Copy} {k : ℕ} (h : Primed c t air) (hk : c.ev.kind = .beacon)
    (hbefore : ∀ g ∈ air, g.promiseUs = c.net.beaconPlannedUs) (hc : c'.copies = c.copies)
    (hev : c'.ev = c.ev) (hfin : c'.finishKind = c.finishKind) (hidx : c'.net.beaconCopyIdx = k)
    (hlt : k < rdvSlots) (hpdu : f.pdu = c.copyAt k) (hne : f.pdu ≠ [])
    (hstart : f.startUs = t + k * copyStrideUs) : Primed c' t (f :: air) := by
  have hplan : c'.net.beaconPlannedUs = c.net.beaconPlannedUs := congrArg Prod.fst hc
  have hcopy : f.pdu = (c.net.beaconCopy ⟨k, hlt⟩).pdu := by rw [hpdu, Node.copyAt, dif_pos hlt]
  obtain ⟨hlen, hpromise⟩ := h.staged ⟨k, hlt⟩ (hcopy ▸ hne)
  refine ⟨h.staged.keep hc, fun _ => ?_, fun _ _ => ⟨f, rfl, ?_, ?_⟩, fun _ g hg => ?_⟩
  · rw [hev, hfin]
    exact h.chosen hk
  · rw [hidx, hstart]
  · rw [hcopy, hlen]
  · rw [hplan]
    rcases List.mem_cons.mp hg with rfl | hg
    · rw [← hpromise, ← hcopy, ← hstart]
    · exact hbefore g hg

end Primed

theorem sendCopy_cases (o : Oracle) (c : Node cfg) (k : ℕ) (d : Node cfg) :
    sendCopy o c k d = d ∨
      k < rdvSlots ∧ c.copyAt k ≠ [] ∧ sendCopy o c k d = { c with phy := .tx } := by
  unfold sendCopy
  split
  · next hlt =>
    split
    · exact .inl rfl
    · next hgo =>
      rw [not_or] at hgo
      refine .inr ⟨hlt, ?_, rfl⟩
      rw [Node.copyAt, dif_pos hlt]
      exact hgo.1
  · exact .inl rfl

/-- The start of a beacon that has been granted. -/
theorem Primed.granted {t : ℕ} {air : List Copy} (h : Primed c t air)
    (hk : c.ev.kind = .beacon) :
    Primed (tsGranted psa o c) t (copySent c (tsGranted psa o c) .granted).toList := by
  have hgranted : tsGranted psa o c = beaconStart o { c with granted := true } := by
    unfold tsGranted
    simp only [hk]
  rw [hgranted]
  let e : Node cfg := { c with granted := true, net := { c.net with beaconCopyIdx := 0 } }
  have hdone : ∀ d : Node cfg, d.copies = c.copies →
      Primed (lgSchedEventDone d) t (copySent c (lgSchedEventDone d) .granted).toList :=
    fun d hd => .silent h.staged hd nofun
  unfold beaconStart
  dsimp only
  split
  · exact hdone _ rfl
  · rcases sendCopy_cases o e 0 (lgSchedEventDone e) with hnot | ⟨hlt, hne, hsent⟩
    · change Primed (sendCopy o e 0 (lgSchedEventDone e)) t
        (copySent c (sendCopy o e 0 (lgSchedEventDone e)) .granted).toList
      rw [hnot]
      exact hdone e rfl
    · change Primed (sendCopy o e 0 (lgSchedEventDone e)) t
        (copySent c (sendCopy o e 0 (lgSchedEventDone e)) .granted).toList
      rw [hsent]
      have hempty : Primed { c with phy := .idle } t [] :=
        ⟨h.staged, h.chosen, nofun, fun _ => nofun⟩
      have hstart : c.ev.anchorUs = t + 0 * copyStrideUs := by
        rw [(h.chosen hk).1, Nat.zero_mul, Nat.add_zero]
      exact hempty.sends hk nofun rfl rfl rfl rfl hlt rfl hne hstart

/-- A copy is over: the next one follows, or the beacon is over. -/
theorem Primed.txDone {t : ℕ} {air : List Copy} (h : Primed c t air) (hk : c.ev.kind = .beacon)
    (hphy : c.phy = .tx) {airEndUs : ℕ}
    (htime : ∀ f ∈ air.head?, airEndUs = f.startUs + airtimeUs f.pdu.length) :
    Primed (phyTxDone psa o c airEndUs) t
      ((copySent c (phyTxDone psa o c airEndUs) (.txDone airEndUs)).toList ++ air) := by
  have hbeacon : phyTxDone psa o c airEndUs = beaconTxDone o c airEndUs := by
    unfold phyTxDone
    simp only [hk]
  obtain ⟨f, hf, hstart, hlen⟩ := h.sending hk hphy
  have hnext : airEndUs + beaconCopyGapUs = t + (c.net.beaconCopyIdx + 1) * copyStrideUs := by
    have hend := htime f hf
    rw [hlen, hstart] at hend
    have hair : airtimeUs (hdrLen + beaconLen + beaconMicLen) = beaconAirUs := rfl
    rw [hend, hair, Nat.add_one_mul]
    simp only [copyStrideUs]
    omega
  have hbefore := h.honest (.inr ⟨hk, by rw [hphy]; nofun⟩)
  let e : Node cfg := { c with net := { c.net with beaconCopyIdx := c.net.beaconCopyIdx + 1 } }
  rw [hbeacon]
  unfold beaconTxDone
  dsimp only
  generalize hopened : (if e.net.beaconOffersJoin = true then
    { e with net := { e.net with
      joinWinUs := airEndUs + joinOffsetUs, lastJoinWindowUs := e.nowUs } } else e) = d
  have hd : d.slot = c.slot ∧ d.copies = c.copies := by
    rw [← hopened]
    split <;> exact ⟨rfl, rfl⟩
  change Primed (sendCopy o e (c.net.beaconCopyIdx + 1) (lgSchedEventDone d)) t
    ((copySent c (sendCopy o e (c.net.beaconCopyIdx + 1) (lgSchedEventDone d))
      (.txDone airEndUs)).toList ++ air)
  rcases sendCopy_cases o e (c.net.beaconCopyIdx + 1) (lgSchedEventDone d) with
    hnot | ⟨hlt, hne, hsent⟩
  · rw [hnot]
    have hplan : d.net.beaconPlannedUs = c.net.beaconPlannedUs := congrArg Prod.fst hd.2
    refine ⟨h.staged.keep hd.2, nofun, nofun, fun _ => ?_⟩
    change ∀ g ∈ air, g.promiseUs = d.net.beaconPlannedUs
    rw [hplan]
    exact hbefore
  · rw [hsent]
    exact h.sends hk hbefore rfl rfl rfl rfl hlt rfl hne hnext

/-- An interrupt. -/
theorem Primed.interrupt {t : ℕ} {air : List Copy} (h : Primed c t air) {inp : Input}
    (hi : inp.isInterrupt = true) (hen : Enabled c inp)
    (htime : ∀ airEndUs, inp = .txDone airEndUs → c.ev.kind = .beacon →
      ∀ f ∈ air.head?, airEndUs = f.startUs + airtimeUs f.pdu.length)
    (hp : perform psa o c inp = some c') :
    Primed c' t (airAfter c c' inp air) := by
  unfold airAfter
  by_cases hk : c.ev.kind = .beacon
  · rw [if_neg (not_not.mpr hk)]
    cases inp with
    | granted =>
      cases hp
      exact h.granted hk
    | refused =>
      cases hp
      have hdone : tsFailed o c = lgSchedEventDone c := by
        unfold tsFailed
        simp only [hk]
      dsimp only
      rw [hdone]
      exact .silent h.staged rfl nofun
    | txDone airEndUs =>
      cases hp
      exact h.txDone hk hen (htime airEndUs rfl hk)
    | rxDone rx =>
      cases hp
      have hdone : phyRxDone o c rx = lgSchedEventDone c := by
        unfold phyRxDone
        simp only [hk]
      have hbusy : c.phy ≠ .idle := by
        rw [show c.phy = .rx from hen]
        nofun
      rw [hdone]
      exact h.ended fun _ => hbusy
    | rxFailed reason =>
      cases hp
      have hdone : phyRxFailed o c reason = lgSchedEventDone c := by
        unfold phyRxFailed
        simp only [hk]
      have hbusy : c.phy ≠ .idle := by
        rw [show c.phy = .rx from hen]
        nofun
      rw [hdone]
      exact h.ended fun _ => hbusy
    | _ => cases hi
  · rw [if_pos hk]
    exact h.rides hk (perform_interrupt_copies hi hp) (perform_interrupt_rides hi hp)

theorem lgStart_slot (psa : Psa) (o : Oracle) (c : Node cfg) :
    (firstStages psa o c .start = [] ∧ lgStart psa o c = c) ∨
      ∃ d : Node cfg, firstStages psa o c .start = [(o, d)] ∧
        lgStart psa o c = lgDiscBeaconFinish psa o d ∧ d.ev.kind = .none ∧
        d.finishKind = c.finishKind := by
  rw [lgStart_eq]
  simp only [firstStages]
  by_cases hs : c.started = true ∨ c.ident.addr = addrInvalid
  · rw [if_pos hs, if_pos hs]
    exact .inl ⟨rfl, rfl⟩
  · rw [if_neg hs, if_neg hs]
    cases lgSecCertVerify psa o c.ident c.ident.cert with
    | error e => exact .inl ⟨rfl, rfl⟩
    | ok info =>
      obtain ⟨net, view, hq⟩ := lgRoleEvaluate_quiet o (started o c)
      refine .inr ⟨_, rfl, rfl, ?_, ?_⟩ <;> rw [hq] <;> rfl

/-- What a step of a regular run keeps. -/
theorem Beaconing.Step.primed {s s' : Beaconing cfg}
    (hstep : Beaconing.Step psa (Beaconing.Regular psa) s s')
    (h : Primed s.node s.stagedUs s.air) : Primed s'.node s'.stagedUs s'.air := by
  obtain ⟨o, inp, c', hen, htime, hreg, hp, rfl⟩ := hstep
  have hair : inp.isInterrupt = false → airAfter s.node c' inp s.air = s.air := by
    intro hi
    unfold airAfter
    split
    · rfl
    · cases inp <;> first | rfl | cases hi
  have hcall : inp.isCall = true → c'.charts.2 = s.node.charts.2 →
      firstStages psa o s.node inp = [] → pickedAt psa o s.node inp = none →
      Primed (s.after psa o inp c').node (s.after psa o inp c').stagedUs
        (s.after psa o inp c').air := by
    intro hi hcharts hfirst hpicked
    change Primed c' (stagedAfter _ _) (airAfter _ _ _ _)
    rw [hfirst, hpicked, hair (by cases inp <;> first | rfl | cases hi)]
    exact h.aside (perform_call_slot hi hp) hcharts
  cases inp with
  | tick us =>
    cases hp
    exact hcall rfl rfl rfl rfl
  | schedWork =>
    change Primed c' (stagedAfter (pickStages o s.node) s.stagedUs)
      (airAfter s.node c' .schedWork s.air)
    rw [hair rfl]
    refine h.pick hp (fun hf => ?_) (hreg.last (o, s.node) rfl) (hreg.due (o, s.node) rfl)
    exact Option.isNone_iff_eq_none.mp (hreg.unhurried hf)
  | finishWork o' =>
    have hp' : schedFinish psa o o' s.node = some c' := hp
    unfold schedFinish at hp'
    cases hs : settle psa o s.node with
    | none =>
      rw [hs] at hp'
      cases hp'
    | some d =>
      rw [hs] at hp'
      have hpicked : pickedAt psa o s.node (.finishWork o') =
          some (o', { d with finishKind := .none, finishNeigh := none }) := by
        simp only [pickedAt, hs, Option.map_some]
      have hd := h.settle hs hreg.first
      have hlast := hreg.last
      have hdue := hreg.due
      rw [hpicked] at hlast hdue
      change Primed c' (stagedAfter ((pickedAt psa o s.node (.finishWork o')).elim [] _)
        (stagedAfter (firstStages psa o s.node (.finishWork o')) s.stagedUs))
        (airAfter s.node c' (.finishWork o') s.air)
      rw [hair rfl, hpicked]
      exact hd.pick hp' nofun (hlast _ rfl) (hdue _ rfl)
  | rxWork =>
    change Primed c' s.stagedUs (airAfter s.node c' .rxWork s.air)
    rw [hair rfl]
    have hcharts := rxHandler_charts hp
    cases rxHandler_spares hp with
    | on ha => exact h.aside ha.slot (congrArg Prod.snd hcharts)
    | abort hk ha =>
      refine h.rides ?_ (Node.copies_eq (congrArg Prod.snd hcharts)) (.of_slot_done ha.slot)
      rw [hk]
      nofun
  | granted | refused | txDone airEndUs | rxDone rx | rxFailed reason =>
    refine h.interrupt rfl hen (fun airEndUs he hk => ?_) hp
    cases he <;> exact htime hk
  | send dst port payload flags =>
    cases hp
    exact hcall rfl (congrArg Prod.snd (lgSend_charts _ dst port payload flags)) rfl rfl
  | backhaulSet up =>
    cases hp
    exact hcall rfl (congrArg Prod.snd (lgBackhaulSet_charts o _ up)) rfl rfl
  | tuningSet t =>
    cases hp
    exact hcall rfl rfl rfl rfl
  | start =>
    change Primed c' (stagedAfter (firstStages psa o s.node .start) s.stagedUs)
      (airAfter s.node c' .start s.air)
    rw [hair rfl]
    cases hp
    rcases lgStart_slot psa o s.node with ⟨hfirst, hsame⟩ | ⟨d, hfirst, hstart, hev, hfin⟩
    · rw [hfirst, hsame]
      exact h
    · have hnot : s.node.finishKind ≠ .beacon := by
        intro hf
        have hnone := hreg.unhurried hf
        rw [hfirst] at hnone
        cases hnone
      obtain ⟨net, view, hq⟩ := lgDiscBeaconFinish_quiet psa o d
      rw [hfirst, hstart]
      refine .restage psa (hreg.first (o, d) (hfirst ▸ List.mem_cons_self)) ?_ ?_ rfl
      · rw [hq]
        change d.ev.kind ≠ _
        rw [hev]
        nofun
      · rw [hq]
        exact hfin ▸ hnot
  | stop =>
    change Primed c' s.stagedUs (airAfter s.node c' .stop s.air)
    rw [hair rfl]
    cases hp
    unfold lgStop
    split
    · exact h
    · have hdown := h.aside (stopLinks_aside o (List.finRange cfg.maxNeighbors) s.node).slot
        (congrArg Prod.snd (stopLinks_charts o _ s.node))
      refine ⟨hdown.staged, nofun, nofun, fun hor => hdown.honest (.inl ?_)⟩
      exact hor.resolve_right fun hb => nomatch hb.1

/-- In every run in which beacons that were put off are staged anew before they are sent, no two
beacons are put too close together, and `lg_disc_beacon_finish` settles a beacon before it is called
for another, what was heard is when the next beacon comes. -/
theorem promises_kept {ident : Identity} {s : Beaconing cfg}
    (h : Relation.ReflTransGen (Beaconing.Step psa (Beaconing.Regular psa))
      (Beaconing.boot cfg ident) s) : s.Truthful psa := by
  have hprimed : Primed s.node s.stagedUs s.air := by
    induction h with
    | refl => exact .silent (c := Node.boot cfg ident) (fun _ hne => absurd rfl hne) rfl nofun
    | tail _ hstep ih => exact hstep.primed ih
  intro hk f hf o hlate
  have hplan := hprimed.honest (.inl hk) f hf
  rw [lgDiscBeaconFinish_next, nextChosenUs, ← hplan, if_pos hlate]

/-- Copies that follow each other without delay from `startUs`. -/
def copiesDone (o : Oracle) (startUs : ℕ) : List (Oracle × Input) :=
  (List.range rdvSlots).map fun k =>
    (o, .txDone (startUs + k * copyStrideUs + airtimeUs (hdrLen + beaconLen + beaconMicLen)))

/-- Node 1 is alone, passes over its first scan and sends the beacon that it staged at its start. -/
def lonelyRun : List (Oracle × Input) :=
  [(calm 1, Input.start), (calm 2, .tick 300000), (calm 2, .schedWork), (calm 3, .schedWork),
    (calm 3, .tick 76000), (calm 3, .granted)] ++ copiesDone (calm 4) 376000

theorem promises_kept_lonely :
    ∃ s : Beaconing .default, Relation.ReflTransGen
        (Beaconing.Step Psa.plain (Beaconing.Regular Psa.plain))
        (Beaconing.boot .default (plainIdent 1 1)) s ∧
      (s.node.finishKind = .beacon ∧ s.air.length = rdvSlots) ∧ s.Truthful Psa.plain := by
  obtain ⟨s, hrun, hend⟩ := Traces.exists_run
    (Beaconing.next_step Psa.plain (Beaconing.Regular Psa.plain)) lonelyRun
    (Beaconing.boot .default (plainIdent 1 1))
    (fun s => decide (s.node.finishKind = .beacon ∧ s.air.length = rdvSlots)) (by decide +kernel)
  exact ⟨s, hrun, of_decide_eq_true hend, promises_kept hrun⟩

/-- A node that one router in range is enough for. -/
def sparse : Config :=
  { Config.default with routerDensityTarget := 1, routerDensityTarget_range := by decide }

/-- Node 1 joins a router and stops beaconing as a leaf. A backhaul makes it start anew, with the
copies that it staged before. -/
def putOffRun : List (Oracle × Input) :=
  joinedWith pacedParams [] ++
    [(calm 6, Input.tick 100000), (calm 7, .tuningSet { patient with beaconIntervalUs := 200000 }),
      (calm 7, .backhaulSet true), (calm 8, .schedWork), (calm 8, .schedWork),
      (calm 9, .tick 151000), (calm 9, .granted)] ++
    copiesDone (calm 10) 272000 ++ [(calm 10, Input.tick 8000)]

/-- Its copies announce the next beacon for 648000, and it comes at 752000. -/
theorem not_promises_kept :
    ¬ ∀ (cfg : Config) (psa : Psa) (ident : Identity) (s : Beaconing cfg),
      Relation.ReflTransGen (Beaconing.Step psa fun _ _ _ => True) (Beaconing.boot cfg ident) s →
      s.Truthful psa := by
  intro h
  obtain ⟨s, hrun, hend⟩ := Traces.exists_run
    (Beaconing.next_step Psa.plain fun _ _ _ => True) putOffRun
    (Beaconing.boot sparse (plainIdent 1 1))
    (fun s => decide (s.node.finishKind = .beacon ∧ s.air.length = rdvSlots ∧
      ∀ f ∈ s.air, f.promiseUs = 648000 ∧ s.node.nowUs + 2000 < 648000 ∧
        (lgDiscBeaconFinish Psa.plain (calm 11) s.node).net.nextBeaconUs = some 752000))
    (by decide +kernel)
  obtain ⟨hk, hlen, hall⟩ := of_decide_eq_true hend
  obtain ⟨f, hf⟩ := List.length_pos_iff_exists_mem.mp (hlen ▸ (by decide : 0 < rdvSlots))
  obtain ⟨hpromise, hlate, hnext⟩ := hall f hf
  have hkept := h _ _ _ s hrun hk f hf (calm 11) (hpromise ▸ hlate)
  rw [hpromise, hnext] at hkept
  exact absurd hkept (by decide)

end LockGrid
