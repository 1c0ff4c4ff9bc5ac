import LockGrid.Calls
import LockGrid.Plain

/-!
# Who starts a handshake

Two nodes that have heard how the other one is placed do not both take the other for a peer worth
a handshake, so they do not both start one.
-/
namespace LockGrid

variable {cfg cfg' : Config} {c : Node cfg} {d : Node cfg'} {b b' : Beacon} {o : Oracle}

/-- The beacon tells the rank, the role and the capacity that the node has. -/
structure Beacon.Tells (b : Beacon) (c : Node cfg) : Prop where
  rank : b.rank.toNat = c.net.rank
  role : b.role = c.net.role.code
  capacity : b.linkCapacity = UInt8.ofNat (cfg.maxLinks - lgNeighLinkedCount c)

/-! ## A peer worth a handshake -/

theorem useful_finite {src : Addr} {rssi : ℤ} (h : candidateIsUseful c b src rssi = true) :
    b.rank.toNat ≠ rankInfinite := by
  intro hrank
  unfold candidateIsUseful at h
  simp [hrank] at h

/-- Whatever rule it comes from, a peer that is useful to a node with a route is no worse placed. -/
theorem useful_placed {src : Addr} {rssi : ℤ} (h : candidateIsUseful c b src rssi = true)
    (hroute : c.net.rank ≠ rankInfinite) :
    b.rank.toNat < c.net.rank ∨ b.rank.toNat = c.net.rank ∧ src < c.ident.addr := by
  have hhas : lgHasRoute c = true := by simp [lgHasRoute, hroute]
  unfold candidateIsUseful at h
  dsimp only at h
  split at h
  · cases h
  · split at h
    · cases h
    · split at h
      · cases h
      · split at h
        · cases h
        · rw [hhas] at h
          split at h
          · next hno => cases hno
          · split at h
            · split at h
              · next heq => exact .inr ⟨heq, of_decide_eq_true h⟩
              · exact .inl (of_decide_eq_true h)
            · have hbetter := of_decide_eq_true h
              omega

/-- Two peers that tell each other how they are placed: at most one is useful to the other. -/
theorem useful_apart (hb : b.Tells c) (hb' : b'.Tells d) {rssi rssi' : ℤ}
    (hc : candidateIsUseful c b' d.ident.addr rssi = true)
    (hd : candidateIsUseful d b c.ident.addr rssi' = true) : False := by
  -- each tells the other a finite rank, so both have a route and the ranks decide
  have hcr : c.net.rank ≠ rankInfinite := hb.rank ▸ useful_finite hd
  have hdr : d.net.rank ≠ rankInfinite := hb'.rank ▸ useful_finite hc
  have hcd := useful_placed hc hcr
  have hdc := useful_placed hd hdr
  rw [hb'.rank] at hcd
  rw [hb.rank] at hdc
  rcases hcd with hlt | ⟨heq, hlow⟩
  · omega
  · rcases hdc with hlt | ⟨-, hlow'⟩
    · omega
    · exact UInt16.lt_asymm hlow hlow'

/-! ## A handshake that is started -/

/-- The node hears the beacon and starts a handshake with its sender. -/
def Initiates (o : Oracle) (c : Node cfg) (b : Beacon) (src : Addr) (rssi : ℤ)
    (airStartUs : ℕ) : Prop :=
  ∃ k ∈ acceptCalls o c b src rssi airStartUs, ∃ i, k.deed = .begin i

/-- What the decision about a peer reads of the node. -/
theorem useful_congr {e : Node cfg} {src : Addr} {rssi : ℤ} (hrole : e.net.role = c.net.role)
    (hrank : e.net.rank = c.net.rank) (haddr : e.ident.addr = c.ident.addr)
    (hlinks : lgNeighLinkedCount e = lgNeighLinkedCount c) :
    candidateIsUseful e b src rssi = candidateIsUseful c b src rssi := by
  unfold candidateIsUseful lgHasRoute
  rw [hrole, hrank, haddr, hlinks]

theorem noteSender_useful {src : Addr} (i : Fin cfg.maxNeighbors) (rssi : ℤ)
    (airStartUs : ℕ) :
    candidateIsUseful (noteSender c i b rssi airStartUs) b src rssi =
      candidateIsUseful c b src rssi := by
  have hneigh := (noteSender_quiet c i b rssi airStartUs).neigh
  have hlinks : lgNeighLinkedCount (noteSender c i b rssi airStartUs) = lgNeighLinkedCount c := by
    simp only [lgNeighLinkedCount, hneigh]
  exact useful_congr rfl rfl rfl hlinks

/-- A beacon with a finite rank leaves what the decision reads as it was. -/
theorem noteBeacon_useful {src : Addr} {rssi : ℤ} (hrank : b.rank.toNat ≠ rankInfinite) :
    candidateIsUseful (noteBeacon o c b src) b src rssi = candidateIsUseful c b src rssi := by
  simp only [noteBeacon, hrank, ↓reduceIte]
  exact useful_congr rfl rfl rfl rfl

/-- Room is made for a sender without starting a handshake. -/
theorem roomCalls_begin {cost : ℕ} {k : Call cfg} (hk : k ∈ roomCalls o c cost)
    (i : Fin cfg.maxNeighbors) : k.deed ≠ .begin i := by
  unfold roomCalls at hk
  dsimp only at hk
  intro hd
  split at hk
  · simp at hk
  · split at hk
    · simp at hk
      simp [hk] at hd
    · split at hk
      · rcases List.mem_cons.mp hk with hk | hk
        · simp [hk] at hd
        · simp at hk
          simp [hk] at hd
      · simp at hk

theorem admitCalls_begin {src : Addr} {k : Call cfg} (hk : k ∈ admitCalls o c src)
    (i : Fin cfg.maxNeighbors) : k.deed ≠ .begin i := by
  intro hd
  unfold admitCalls at hk
  split at hk
  · simp at hk
    simp [hk] at hd
  · rcases List.mem_append.mp hk with hk | hk
    · rcases List.mem_cons.mp hk with hk | hk
      · simp [hk] at hd
      · exact roomCalls_begin hk i hd
    · split at hk
      · simp at hk
        simp [hk] at hd
      · simp at hk

theorem entryCalls_begin {src : Addr} {rssi : ℤ} {k : Call cfg}
    (hk : k ∈ entryCalls o c b src rssi) (i : Fin cfg.maxNeighbors) : k.deed ≠ .begin i := by
  unfold entryCalls at hk
  split at hk
  · exact admitCalls_begin hk i
  · simp at hk

/-- The one call that starts a handshake comes after the check, and aims at the window. -/
theorem answerCalls_begin {src : Addr} {rssi : ℤ} {airStartUs : ℕ} {i j : Fin cfg.maxNeighbors}
    {k : Call cfg} (hk : k ∈ answerCalls o c j b src rssi airStartUs) (hbegin : k.deed = .begin i) :
    candidateIsUseful c b src rssi = true ∧ b.joinWindowUs ≠ 0 ∧
      k = ⟨o, aimed o c i b airStartUs, .begin i⟩ := by
  unfold answerCalls at hk
  split at hk
  · simp at hk
  · split at hk
    · simp at hk
    · next hno =>
      rw [not_or] at hno
      have heq := List.mem_singleton.mp hk
      rw [heq] at hbegin
      cases hbegin
      exact ⟨by simpa using hno.1, hno.2, heq⟩

/-- A sender that had no entry gets one when it is useful. -/
theorem beaconEntry_useful {src : Addr} {rssi : ℤ} {i : Fin cfg.maxNeighbors} {e : Node cfg}
    (h : beaconEntry o c b src rssi = (some i, e)) :
    e = c ∨ candidateIsUseful c b src rssi = true := by
  unfold beaconEntry at h
  split at h
  · exact .inl (congrArg Prod.snd h).symm
  · split at h
    · next huse => exact .inr huse
    · cases congrArg Prod.fst h

/-- A handshake is started with a peer that was useful when its beacon was heard, and at the window
that the beacon advertised. -/
theorem acceptCalls_begin {src : Addr} {rssi : ℤ} {airStartUs : ℕ} {k : Call cfg}
    (hk : k ∈ acceptCalls o c b src rssi airStartUs) {i : Fin cfg.maxNeighbors}
    (hbegin : k.deed = .begin i) :
    candidateIsUseful c b src rssi = true ∧ b.joinWindowUs ≠ 0 ∧
      ∃ e : Node cfg, k = ⟨o, aimed o e i b airStartUs, .begin i⟩ := by
  have hfirst : k ∉ (if b.rank.toNat = rankInfinite then
      [(⟨o, lgRoleNoteUnrouted c, .role⟩ : Call cfg)] else []) := by
    intro hk
    split at hk
    · simp at hk
      simp [hk] at hbegin
    · simp at hk
  unfold acceptCalls at hk
  dsimp only at hk
  split at hk
  · rcases List.mem_append.mp hk with hk | hk
    · exact (hfirst hk).elim
    · exact (entryCalls_begin hk i hbegin).elim
  · next j e he =>
    rcases List.mem_append.mp hk with hk | hk
    · rcases List.mem_append.mp hk with hk | hk
      · exact (hfirst hk).elim
      · exact (entryCalls_begin hk i hbegin).elim
    · obtain ⟨huse, hwin, heq⟩ := answerCalls_begin hk hbegin
      rw [noteSender_useful] at huse
      refine ⟨?_, hwin, _, heq⟩
      have hrank := useful_finite huse
      rw [← noteBeacon_useful (o := o) hrank]
      rcases beaconEntry_useful he with rfl | hfound
      · exact huse
      · exact hfound

theorem Initiates.useful {src : Addr} {rssi : ℤ} {airStartUs : ℕ}
    (h : Initiates o c b src rssi airStartUs) : candidateIsUseful c b src rssi = true := by
  obtain ⟨k, hk, i, hbegin⟩ := h
  exact (acceptCalls_begin hk hbegin).1

/-- **One of two nodes starts.** Each hears the other tell its rank, role and capacity: the other is
worth a handshake to one of the two at most, and at most one starts a handshake. -/
theorem one_initiator {c : Node cfg} {d : Node cfg'} {b b' : Beacon} (hb : b.Tells c)
    (hb' : b'.Tells d) (o o' : Oracle) (rssi rssi' : ℤ) (airStartUs airStartUs' : ℕ) :
    ¬(candidateIsUseful c b' d.ident.addr rssi = true ∧
      candidateIsUseful d b c.ident.addr rssi' = true) ∧
    ¬(Initiates o c b' d.ident.addr rssi airStartUs ∧
      Initiates o' d b c.ident.addr rssi' airStartUs') := by
  have hapart : ¬(candidateIsUseful c b' d.ident.addr rssi = true ∧
      candidateIsUseful d b c.ident.addr rssi' = true) :=
    fun ⟨hc, hd⟩ => useful_apart hb hb' hc hd
  refine ⟨hapart, ?_⟩
  intro ⟨hc, hd⟩
  exact hapart ⟨hc.useful, hd.useful⟩

/-- A router without links, at a rank. -/
def placedAt (addr : Addr) (rank : ℕ) : Node .default :=
  let c := Node.boot .default (plainIdent addr 1)
  { c with net := { c.net with role := .router, rank := rank } }

/-- The beacon with which a router without links tells its rank. -/
def placedBeacon (rank : UInt16) : Beacon where
  networkId := 0
  epoch := 0
  rank := rank
  chanMap := 0
  role := Role.router.code
  linkCount := 0
  linkCapacity := 4
  joinOffsetUs := 0
  joinWindowUs := 0
  nextBeaconOffsetUs := 0

theorem one_initiator_placed :
    candidateIsUseful (placedAt 2 32) (placedBeacon 16) 1 (-60) = true ∧
    ¬(candidateIsUseful (placedAt 1 16) (placedBeacon 32) 2 (-60) = true ∧
      candidateIsUseful (placedAt 2 32) (placedBeacon 16) 1 (-60) = true) :=
  ⟨by decide +kernel, (one_initiator (c := placedAt 1 16) (d := placedAt 2 32)
    ⟨by decide, by decide, by decide +kernel⟩ ⟨by decide, by decide, by decide +kernel⟩
    (calm 1) (calm 2) (-60) (-60) 0 0).1⟩

end LockGrid
