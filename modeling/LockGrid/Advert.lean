import LockGrid.Parents

/-!
# Route advertisements

What `lg_route_build_adv` writes is what `lg_route_handle_adv` reads, and what the latter does
to the table and to the rank before it goes on to look for further nodes.
-/
namespace LockGrid

variable {cfg : Config}

/-- Size of the buffer `lg_link_stage_tx` builds an advertisement in. -/
def advCap : ℕ := 4 + 6 * 4

/-- The rank an advertisement carries. -/
def advRank (buf : Bytes) : ℕ := (getLe16 buf 1).toNat

/-- The neighbours an advertisement lists. -/
def advListed (c : Node cfg) : List (Fin cfg.maxNeighbors) :=
  ((List.finRange cfg.maxNeighbors).filter fun i => (c.neigh i).state = .linked).take
    (min advMaxEntries ((advCap - 5) / 4))

theorem advListed_length_lt (c : Node cfg) : (advListed c).length < 256 := by
  have hle : (advListed c).length ≤ min advMaxEntries ((advCap - 5) / 4) := List.length_take_le _ _
  exact hle.trans_lt (by decide)

theorem lgRouteBuildAdv_eq (c : Node cfg) : ∃ rest, lgRouteBuildAdv c advCap =
    [ctrlRouteAdv] ++ (putLe16 (UInt16.ofNat c.net.rank) ++ ([c.net.role.code,
      UInt8.ofNat (advListed c).length] ++ rest)) ∧
    rest = (advListed c).flatMap fun i =>
      putLe16 (c.neigh i).addr ++ putLe16 (UInt16.ofNat (c.view i).linkCost) := by
  refine ⟨_, ?_, rfl⟩
  simp [lgRouteBuildAdv, advListed, advCap]

theorem lgRouteBuildAdv_length (c : Node cfg) : 5 ≤ (lgRouteBuildAdv c advCap).length := by
  obtain ⟨rest, hbuf, -⟩ := lgRouteBuildAdv_eq c
  simp only [hbuf, List.length_append, List.length_cons, putLe16_length]
  omega

theorem advRank_build (c : Node cfg) (h : c.net.rank ≤ rankInfinite) :
    advRank (lgRouteBuildAdv c advCap) = c.net.rank := by
  obtain ⟨rest, hbuf, -⟩ := lgRouteBuildAdv_eq c
  rw [advRank, hbuf, getLe16_append_right _ _ _ (by simp)]
  simp only [List.length_singleton, Nat.sub_self]
  rw [getLe16_putLe16, UInt16.toNat_ofNat']
  exact Nat.mod_eq_of_lt (Nat.lt_succ_of_le h)

/-! ## Handling one -/

/-- The neighbour's entry once its advertisement has been read. -/
def noteAdv (c : Node cfg) (i : Fin cfg.maxNeighbors) (buf : Bytes) : Node cfg :=
  c.setView i { c.view i with
    role := getByte buf 3, peerRank := advRank buf, routeAdvUs := c.nowUs }

/-- Two nodes that differ at most in their routes, their hearsay and what they look for. -/
def SameTable (c c' : Node cfg) : Prop :=
  ∃ net, c' = { c with net := net } ∧ net.rank = c.net.rank ∧ net.role = c.net.role ∧
    net.advUrgent = c.net.advUrgent

theorem SameTable.refl (c : Node cfg) : SameTable c c := ⟨c.net, rfl, rfl, rfl, rfl⟩

theorem SameTable.trans {c c' c'' : Node cfg} (h : SameTable c c') (h' : SameTable c' c'') :
    SameTable c c'' := by
  obtain ⟨net, rfl, hrank, hrole, hadv⟩ := h
  obtain ⟨net', rfl, hrank', hrole', hadv'⟩ := h'
  exact ⟨net', rfl, hrank'.trans hrank, hrole'.trans hrole, hadv'.trans hadv⟩

theorem lgDiscRetune_sameTable (o : Oracle) (k : ℕ) (c : Node cfg) :
    SameTable c (lgDiscRetune o k c) := ⟨_, rfl, rfl, rfl, rfl⟩

theorem lgRouteAdd_sameTable (c : Node cfg) (dst via : Addr) (hops : UInt8) :
    SameTable c (lgRouteAdd c dst via hops) := by
  unfold lgRouteAdd
  split_ifs
  · exact .refl c
  · cases (routeFind c dst).or (routeVictim c) with
    | none => exact .refl c
    | some k =>
      dsimp only
      split_ifs <;> exact ⟨_, rfl, rfl, rfl, rfl⟩

theorem gossipRecord_sameTable (c : Node cfg) (addr : Addr) (rank : ℕ) :
    SameTable c (gossipRecord c addr rank) := by
  unfold gossipRecord
  split_ifs
  · exact .refl c
  · cases gossipSlot c addr with
    | none => exact .refl c
    | some k => exact ⟨_, rfl, rfl, rfl, rfl⟩

theorem gossipConsiderSeeking_sameTable (o : Oracle) (c : Node cfg) :
    SameTable c (gossipConsiderSeeking o c) := by
  unfold gossipConsiderSeeking
  split_ifs
  · exact .refl c
  · dsimp only
    split
    · exact .refl c
    · exact .trans ⟨_, rfl, rfl, rfl, rfl⟩ (lgDiscRetune_sameTable o 0 _)

theorem advEntry_sameTable (peerRank : ℕ) (via : Addr) (c : Node cfg) (addr : Addr) (cost : ℕ) :
    SameTable c (advEntry peerRank via c addr cost) := by
  unfold advEntry
  dsimp only
  split_ifs
  · exact (gossipRecord_sameTable c _ _).trans (lgRouteAdd_sameTable _ _ _ _)
  · exact gossipRecord_sameTable c _ _
  · exact lgRouteAdd_sameTable _ _ _ _
  · exact .refl c

theorem foldl_sameTable {β : Type*} (f : Node cfg → β → Node cfg)
    (hf : ∀ c b, SameTable c (f c b)) (l : List β) (c : Node cfg) : SameTable c (l.foldl f c) := by
  induction l generalizing c with
  | nil => exact .refl c
  | cons b l ih => exact (hf c b).trans (ih (f c b))

/-- Handling an advertisement recomputes the rank from the table with the news in it. -/
theorem lgRouteHandleAdv_spec (o : Oracle) (c : Node cfg) (i : Fin cfg.maxNeighbors)
    (buf : Bytes) (h : 5 ≤ buf.length) : ∃ d, SameTable (noteAdv c i buf) d ∧
      SameTable (lgRouteRecompute d).2 (lgRouteHandleAdv o c i buf) := by
  unfold lgRouteHandleAdv
  rw [if_neg (not_lt.mpr h)]
  exact ⟨_, foldl_sameTable _ (fun _ _ => advEntry_sameTable _ _ _ _ _) _ _,
    gossipConsiderSeeking_sameTable o _⟩

/-! ## What a recomputation leaves of an advertisement that is due -/

/-- The node's rank has changed and neighbour `i` has not been told. -/
def AdvOwed (c : Node cfg) (i : Fin cfg.maxNeighbors) : Bool :=
  c.net.advUrgent && !(c.view i).advUrgentDone

theorem SameTable.advOwed {c c' : Node cfg} (h : SameTable c c') (i : Fin cfg.maxNeighbors) :
    AdvOwed c' i = AdvOwed c i := by
  obtain ⟨net, rfl, -, -, hadv⟩ := h
  simp [AdvOwed, hadv]

/-- A recomputation keeps the rank and what is owed, or owes every neighbour the news; only a
backhaul's rank becomes zero without that. -/
theorem lgRouteRecompute_advOwed (c : Node cfg) (i : Fin cfg.maxNeighbors) :
    AdvOwed (lgRouteRecompute c).2 i = true ∨ (lgRouteRecompute c).2.net.rank = 0 ∨
      (lgRouteRecompute c).2.net.rank = c.net.rank ∧
        AdvOwed (lgRouteRecompute c).2 i = AdvOwed c i := by
  by_cases hrole : c.net.role = .backhaul
  · right; left
    simp [lgRouteRecompute, hrole]
  · by_cases hmoved : (lgRouteRecompute c).2.net.rank = c.net.rank
    · right; right
      refine ⟨hmoved, ?_⟩
      simp only [lgRouteRecompute, hrole, if_false] at hmoved
      simp [lgRouteRecompute, hrole, AdvOwed, hmoved]
    · left
      simp only [lgRouteRecompute, hrole, if_false] at hmoved
      simp [lgRouteRecompute, hrole, AdvOwed, hmoved]

theorem lgRouteRecompute_rank_le (c : Node cfg) :
    (lgRouteRecompute c).2.net.rank ≤ rankInfinite := by
  by_cases hrole : c.net.role = .backhaul
  · simp [lgRouteRecompute, hrole]
  · rcases lgRouteRecompute_rank hrole with ⟨i, hi, hrank⟩ | ⟨-, hrank⟩
    · rw [hrank]
      exact hi.kept.1.1.le
    · exact hrank.le

end LockGrid
