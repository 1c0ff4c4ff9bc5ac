import LockGrid.Advert

/-!
# What an advertisement tells

What `lg_route_handle_adv` reads of the advertisement that `lg_link_stage_tx` builds, beside the
rank, the role and the links the sender has.
-/
namespace LockGrid

variable {cfg : Config} {c : Node cfg} {i : Fin cfg.maxNeighbors}

/-! ## Writing and reading -/

/-- What is read of an advertisement. -/
structure Tidings where
  rank : ℕ
  role : UInt8
  entries : List (Addr × ℕ)
  deriving DecidableEq

/-- The number of entries that are read. -/
def advCount (buf : Bytes) : ℕ := min (getByte buf 4).toNat ((buf.length - 5) / 4)

/-- What `lg_route_handle_adv` reads of a buffer. -/
def advRead (buf : Bytes) : Option Tidings :=
  if buf.length < 5 then none
  else some {
    rank := advRank buf
    role := getByte buf 3
    entries := (List.range (advCount buf)).map fun k =>
      (getLe16 buf (5 + 4 * k), (getLe16 buf (7 + 4 * k)).toNat) }

/-- What `lg_route_handle_adv` does with what it has read. -/
def takeTidings (o : Oracle) (c : Node cfg) (i : Fin cfg.maxNeighbors) (t : Tidings) : Node cfg :=
  let c := c.setView i { c.view i with role := t.role, peerRank := t.rank, routeAdvUs := c.nowUs }
  let c := t.entries.foldl (fun c e => advEntry t.rank (c.neigh i).addr c e.1 e.2) c
  gossipConsiderSeeking o (lgRouteRecompute c).2

def linkedNeighs (c : Node cfg) : List (Fin cfg.maxNeighbors) :=
  (List.finRange cfg.maxNeighbors).filter fun i => (c.neigh i).state = .linked

/-- Address and cost of a link, as an advertisement lists them. -/
def linkEntry (c : Node cfg) (i : Fin cfg.maxNeighbors) : Addr × ℕ :=
  ((c.neigh i).addr, (c.view i).linkCost)

/-- The rank, the role and the first links of a node. -/
def tidings (c : Node cfg) : Tidings where
  rank := c.net.rank
  role := c.net.role.code
  entries := ((linkedNeighs c).take advMaxEntries).map (linkEntry c)

theorem lgRouteHandleAdv_takeTidings (o : Oracle) (c : Node cfg) (i : Fin cfg.maxNeighbors)
    (buf : Bytes) :
    lgRouteHandleAdv o c i buf = (advRead buf).elim c (takeTidings o c i) := by
  unfold lgRouteHandleAdv advRead
  split
  · rfl
  · simp only [Option.elim_some, takeTidings, List.foldl_map]
    rfl

/-- An advertisement that is due is what `lg_link_stage_tx` builds, in its buffer. -/
theorem lgLinkStageTx_adv (psa : Psa) (ok : Bool) (hl : (c.neigh i).state = .linked)
    (hkey : (c.neigh i).keys.hasKey = true) (hctrl : (c.neigh i).sched.pendingCtrl.any = false)
    (hdue : AdvOwed c i = true ∨ routeAdvPeriodUs < c.nowUs - (c.view i).routeAdvUs) :
    ∃ d, Node.Quiet (c.setTx i { (c.neigh i).tx with txWasCtrl := false }) d ∧
      lgLinkStageTx psa ok c i =
        stageSeal psa ok d i .ctrl false (lgRouteBuildAdv c advCap) .adv := by
  refine ⟨_, noteAdvertised_quiet _ i, ?_⟩
  have hdue' : ((c.net.advUrgent && !(c.view i).advUrgentDone) ||
      decide (routeAdvPeriodUs < c.nowUs - (c.view i).routeAdvUs)) = true := by
    simpa [AdvOwed] using hdue
  have hbuild : lgRouteBuildAdv (c.setTx i { (c.neigh i).tx with txWasCtrl := false }) advCap =
      lgRouteBuildAdv c advCap := by
    have hentry : ∀ j, ((c.setTx i { (c.neigh i).tx with txWasCtrl := false }).neigh j).state =
        (c.neigh j).state ∧ ((c.setTx i { (c.neigh i).tx with txWasCtrl := false }).neigh j).addr =
          (c.neigh j).addr := by
      intro j
      by_cases hj : j = i
      · subst hj
        simp [Node.setTx]
      · simp [Node.setTx, hj]
    unfold lgRouteBuildAdv
    simp only [hentry]
    rfl
  rw [← hbuild]
  unfold lgLinkStageTx
  simp only [hl, hkey, hctrl, ne_eq, not_true_eq_false, Bool.not_true, Bool.false_eq_true,
    or_self, if_false]
  exact if_pos hdue'

/-! ## The round trip -/

/-- The bytes of the entries of an advertisement. -/
def entryBytes (l : List (Addr × ℕ)) : Bytes :=
  l.flatMap fun e => putLe16 e.1 ++ putLe16 (UInt16.ofNat e.2)

theorem entryBytes_length (l : List (Addr × ℕ)) : (entryBytes l).length = 4 * l.length := by
  induction l with
  | nil => rfl
  | cons e l ih =>
    simp only [entryBytes, List.flatMap_cons, List.length_append, putLe16_length,
      List.length_cons] at ih ⊢
    omega

theorem getLe16_putLe16_at (p : Bytes) (v : UInt16) (q : Bytes) :
    getLe16 (p ++ (putLe16 v ++ q)) p.length = v := by
  rw [getLe16_append_right _ _ _ le_rfl, Nat.sub_self]
  exact getLe16_putLe16 v q

/-- Entries that fit into their fields are read as they were written. -/
theorem read_entryBytes (p : Bytes) (l : List (Addr × ℕ)) (hl : ∀ e ∈ l, e.2 < 2 ^ 16) :
    ((List.range l.length).map fun k =>
      (getLe16 (p ++ entryBytes l) (p.length + 4 * k),
        (getLe16 (p ++ entryBytes l) (p.length + 2 + 4 * k)).toNat)) = l := by
  induction l generalizing p with
  | nil => rfl
  | cons e l ih =>
    obtain ⟨a, v⟩ := e
    have hv : v < 2 ^ 16 := hl (a, v) List.mem_cons_self
    have hrest := ih (p ++ (putLe16 a ++ putLe16 (UInt16.ofNat v)))
      fun e he => hl e (List.mem_cons_of_mem _ he)
    have hlen : (p ++ (putLe16 a ++ putLe16 (UInt16.ofNat v))).length = p.length + 4 := by
      simp only [List.length_append, putLe16_length]
    have hbytes : p ++ entryBytes ((a, v) :: l) =
        p ++ (putLe16 a ++ putLe16 (UInt16.ofNat v)) ++ entryBytes l := by
      simp only [entryBytes, List.flatMap_cons, List.append_assoc]
    have haddr : getLe16 (p ++ entryBytes ((a, v) :: l)) p.length = a := by
      rw [hbytes, List.append_assoc, List.append_assoc]
      exact getLe16_putLe16_at p a _
    have hcost : getLe16 (p ++ entryBytes ((a, v) :: l)) (p.length + 2) = UInt16.ofNat v := by
      have hp : (p ++ putLe16 a).length = p.length + 2 := by simp
      rw [hbytes, ← hp]
      simp only [List.append_assoc]
      rw [← List.append_assoc]
      exact getLe16_putLe16_at (p ++ putLe16 a) (UInt16.ofNat v) _
    rw [hlen] at hrest
    rw [List.length_cons, List.range_succ_eq_map, List.map_cons, List.map_map]
    refine List.cons_eq_cons.mpr ⟨?_, ?_⟩
    · rw [Nat.mul_zero, Nat.add_zero, Nat.add_zero, haddr, hcost, UInt16.toNat_ofNat',
        Nat.mod_eq_of_lt hv]
    · have hk : ∀ k, p.length + 4 * (k + 1) = p.length + 4 + 4 * k := by
        intro k
        omega
      have hk' : ∀ k, p.length + 2 + 4 * (k + 1) = p.length + 4 + 2 + 4 * k := by
        intro k
        omega
      simp only [Function.comp_def, hk, hk']
      rw [hbytes]
      exact hrest

/-- The header of an advertisement of `n` entries. -/
def advHdr (c : Node cfg) (n : ℕ) : Bytes :=
  [ctrlRouteAdv] ++ (putLe16 (UInt16.ofNat c.net.rank) ++ [c.net.role.code, UInt8.ofNat n])

theorem lgRouteBuildAdv_bytes (c : Node cfg) : lgRouteBuildAdv c advCap =
    advHdr c (advListed c).length ++ entryBytes ((advListed c).map (linkEntry c)) := by
  obtain ⟨rest, hbuf, hrest⟩ := lgRouteBuildAdv_eq c
  rw [hbuf, hrest, advHdr, entryBytes, List.flatMap_map]
  simp only [linkEntry, List.append_assoc]

theorem advHdr_length (c : Node cfg) (n : ℕ) : (advHdr c n).length = 5 := rfl

/-- An advertisement tells the rank, the role and five links at most. -/
theorem advRead_build (hrank : c.net.rank ≤ rankInfinite)
    (hcost : ∀ i, (c.view i).linkCost < 2 ^ 16) :
    advRead (lgRouteBuildAdv c advCap) =
      some ⟨c.net.rank, c.net.role.code, (advListed c).map (linkEntry c)⟩ := by
  have hlen5 := lgRouteBuildAdv_length c
  have hbytes := lgRouteBuildAdv_bytes c
  have hlen : (lgRouteBuildAdv c advCap).length = 5 + 4 * (advListed c).length := by
    rw [hbytes, List.length_append, advHdr_length, entryBytes_length, List.length_map]
  have hbyte : ∀ k, k < 5 → getByte (lgRouteBuildAdv c advCap) k =
      getByte (advHdr c (advListed c).length) k := by
    intro k hk
    rw [hbytes]
    exact getByte_append_left _ _ _ (by rw [advHdr_length]; exact hk)
  have hcount : advCount (lgRouteBuildAdv c advCap) = (advListed c).length := by
    have hn : (getByte (lgRouteBuildAdv c advCap) 4).toNat = (advListed c).length := by
      have hlt := advListed_length_lt c
      rw [hbyte 4 (by decide)]
      change (UInt8.ofNat (advListed c).length).toNat = _
      rw [UInt8.toNat_ofNat']
      exact Nat.mod_eq_of_lt hlt
    rw [advCount, hn, hlen]
    omega
  have hentries := read_entryBytes (advHdr c (advListed c).length)
    ((advListed c).map (linkEntry c)) fun e he => by
      obtain ⟨i, -, rfl⟩ := List.mem_map.mp he
      exact hcost i
  rw [← hbytes, List.length_map, advHdr_length] at hentries
  rw [advRead, if_neg (not_lt.mpr hlen5), advRank_build c hrank, hbyte 3 (by decide), hcount]
  congr 2

/-- Building stays in its buffer and in the frame, and reading in what it is given. -/
structure InBounds (c : Node cfg) : Prop where
  buffer : (lgRouteBuildAdv c advCap).length ≤ advCap
  frame : hdrLenSec + (lgRouteBuildAdv c advCap).length + cfg.micLen ≤ pduMax
  read : ∀ buf : Bytes, (advRead buf).isSome → 5 ≤ buf.length ∧
    ∀ k, k < advCount buf → 7 + 4 * k + 1 < buf.length

theorem advListed_length_le (c : Node cfg) : (advListed c).length ≤ 5 :=
  List.length_take_le _ _

theorem lgRouteBuildAdv_inBounds (c : Node cfg) : InBounds c := by
  have hlen : (lgRouteBuildAdv c advCap).length = 5 + 4 * (advListed c).length := by
    rw [lgRouteBuildAdv_bytes, List.length_append, advHdr_length, entryBytes_length,
      List.length_map]
  have hle := advListed_length_le c
  have hmic := cfg.micLen_range.2
  refine ⟨?_, ?_, fun buf hread => ?_⟩
  · have hcap : advCap = 28 := rfl
    omega
  · simp only [hdrLenSec, hdrLen, fctrLen, pduMax]
    omega
  · have hbuf : 5 ≤ buf.length := by
      by_contra hshort
      simp [advRead, not_le.mp hshort] at hread
    refine ⟨hbuf, fun k hk => ?_⟩
    have hk' : k < (buf.length - 5) / 4 := lt_of_lt_of_le hk (min_le_right _ _)
    omega

/-- An advertisement tells all it should exactly when its sender has at most five links. -/
theorem adv_roundtrip_iff (c : Node cfg) (hrank : c.net.rank ≤ rankInfinite)
    (hcost : ∀ i, (c.view i).linkCost < 2 ^ 16) :
    advRead (lgRouteBuildAdv c advCap) = some (tidings c) ∧ InBounds c ↔
      (linkedNeighs c).length ≤ 5 := by
  rw [advRead_build hrank hcost, and_iff_left (lgRouteBuildAdv_inBounds c)]
  have hlisted : advListed c = (linkedNeighs c).take 5 := rfl
  constructor
  · intro h
    have hentries : (advListed c).map (linkEntry c) =
        ((linkedNeighs c).take advMaxEntries).map (linkEntry c) :=
      congrArg Tidings.entries (Option.some.inj h)
    have hlen := congrArg List.length hentries
    rw [hlisted, List.length_map, List.length_map, List.length_take, List.length_take] at hlen
    have hsix : advMaxEntries = 6 := rfl
    omega
  · intro h
    have hsix : (linkedNeighs c).length ≤ advMaxEntries := h.trans (by decide)
    rw [tidings, hlisted, List.take_of_length_le h, List.take_of_length_le hsix]

theorem adv_roundtrip_two : advRead (lgRouteBuildAdv (twoUplinks 16 24) advCap) =
    some (tidings (twoUplinks 16 24)) ∧ InBounds (twoUplinks 16 24) :=
  (adv_roundtrip_iff (twoUplinks 16 24) (by decide) (by decide)).mpr (by decide)

def eightLinks : Config := { Config.default with maxLinks := 8, maxLinks_range := by decide }

/-- A router of a build with eight links, all of them up. -/
def crowded : Node eightLinks :=
  { Node.boot eightLinks (plainIdent 1 1) with
    neigh := fun i => { state := .linked, addr := UInt16.ofNat (i.val + 2) } }

/-- The buffer has room for five entries, not for the six an advertisement may have. -/
theorem not_adv_roundtrip_crowded : ¬ ∀ (cfg : Config) (c : Node cfg), c.net.rank ≤ rankInfinite →
    (∀ i, (c.view i).linkCost < 2 ^ 16) →
    advRead (lgRouteBuildAdv c advCap) = some (tidings c) ∧ InBounds c := by
  intro h
  obtain ⟨htold, -⟩ := h _ crowded (by decide) (by decide)
  exact absurd (congrArg (Option.map fun t => t.entries.length) htold) (by decide +kernel)

end LockGrid
