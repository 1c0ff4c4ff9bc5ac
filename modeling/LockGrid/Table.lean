import LockGrid.Run
import Mathlib.Data.List.Infix

/-!
# The neighbour table over a run

Entries are made and freed, links go down, and all of it is entered into the dealings. Between
dealings an entry keeps its address, and a link keeps its key.
-/
namespace LockGrid

variable {cfg : Config}

def Dealing.isDown : Dealing → Bool
  | .down _ => true
  | _ => false

def Dealing.isWiped : Dealing → Bool
  | .wiped => true
  | _ => false

/-- How many dealings with entry `i` satisfy `p`. -/
def Node.times (c : Node cfg) (p : Dealing → Bool) (i : Fin cfg.maxNeighbors) : ℕ :=
  c.hist.dealings.countP fun e => e.1 = i && p e.2.2

/-- How often `lg_link_down` took the link of entry `i` down. -/
abbrev Node.downs (c : Node cfg) (i : Fin cfg.maxNeighbors) : ℕ := c.times Dealing.isDown i

/-- How often entry `i` was made or freed. -/
abbrev Node.wipes (c : Node cfg) (i : Fin cfg.maxNeighbors) : ℕ := c.times Dealing.isWiped i

/-- No two entries have the same address. -/
def Node.Distinct (c : Node cfg) : Prop :=
  ∀ i j, (c.neigh i).state ≠ .free → (c.neigh j).state ≠ .free →
    (c.neigh i).addr = (c.neigh j).addr → (c.neigh i).addr ≠ addrInvalid → i = j

/-- What a handshake is about is an entry in use that is not linked. -/
def Node.HsUnlinked (c : Node cfg) : Prop :=
  ∀ i, c.hs.n = some i → (c.neigh i).state ≠ .free ∧ (c.neigh i).state ≠ .linked

def Keys.link (k : Keys) : Bytes × Option Bytes × Bool := (k.linkKey, k.keyId, k.hasKey)

/-- A link that stays up under the same key. -/
structure LinkKept (n n' : Neigh) : Prop where
  state : n'.state = .linked
  addr : n'.addr = n.addr
  key : n'.keys.link = n.keys.link

/-- Every link stays up under its key, or has been taken down. -/
def LinksKept (c c' : Node cfg) : Prop :=
  ∀ i, (c.neigh i).state = .linked → LinkKept (c.neigh i) (c'.neigh i) ∨ c.downs i < c'.downs i

/-- An entry in use changes its owner by a dealing only, and no two get the same. -/
structure Owned (c c' : Node cfg) : Prop where
  log : c.hist.dealings <:+ c'.hist.dealings
  entry : ∀ i, (c'.neigh i).state ≠ .free →
    (c.neigh i).state ≠ .free ∧ (c'.neigh i).addr = (c.neigh i).addr ∨ c.wipes i < c'.wipes i
  distinct : c.Distinct → c'.Distinct

/-- No entry that is free holds a key. -/
def Node.Swept (c : Node cfg) : Prop :=
  ∀ i, (c.neigh i).state = .free → (c.neigh i).keys.keyNo = 0

/-- If no free entry holds a key, none comes to, and no key is overwritten. -/
def StaysSwept (c c' : Node cfg) : Prop := c.Swept → c'.Swept ∧ c'.hist.lost = c.hist.lost

/-- Besides, no entry is given up, and keys are kept track of. -/
structure TableKept (c c' : Node cfg) : Prop extends Owned c c' where
  occupied : ∀ i, (c.neigh i).state ≠ .free → (c'.neigh i).state ≠ .free
  swept : StaysSwept c c'

variable {c c' c'' : Node cfg}

theorem StaysSwept.trans (h : StaysSwept c c') (h' : StaysSwept c' c'') : StaysSwept c c'' := by
  intro hc
  obtain ⟨hc', hlost⟩ := h hc
  obtain ⟨hc'', hlost'⟩ := h' hc'
  exact ⟨hc'', hlost'.trans hlost⟩

theorem StaysSwept.of_eq (hn : c'.neigh = c.neigh) (hlost : c'.hist.lost = c.hist.lost) :
    StaysSwept c c' := by
  intro hc
  refine ⟨fun i hi => ?_, hlost⟩
  rw [hn] at hi ⊢
  exact hc i hi

/-- Entry `i` is changed, and is not made a free one that holds a key. -/
theorem StaysSwept.of_others (i : Fin cfg.maxNeighbors)
    (hothers : ∀ j, j ≠ i → c'.neigh j = c.neigh j)
    (hi : (c'.neigh i).state = .free → (c.neigh i).state = .free ∧
      ((c.neigh i).keys.keyNo = 0 → (c'.neigh i).keys.keyNo = 0))
    (hlost : c.Swept → c'.hist.lost = c.hist.lost) : StaysSwept c c' := by
  intro hc
  refine ⟨fun j hj => ?_, hlost hc⟩
  by_cases hji : j = i
  · subst hji
    obtain ⟨hfree, hkey⟩ := hi hj
    exact hkey (hc j hfree)
  · rw [hothers j hji] at hj ⊢
    exact hc j hj

theorem times_le (h : c.hist.dealings <:+ c'.hist.dealings) (p : Dealing → Bool)
    (i : Fin cfg.maxNeighbors) : c.times p i ≤ c'.times p i := h.sublist.countP_le

theorem times_note (c : Node cfg) (p : Dealing → Bool) (i j : Fin cfg.maxNeighbors) (d : Dealing) :
    (c.note j d).times p i = c.times p i + if j = i && p d then 1 else 0 := by
  simp [Node.times, Node.note, List.countP_cons]

theorem Owned.trans (h : Owned c c') (h' : Owned c' c'') : Owned c c'' := by
  refine ⟨h.log.trans h'.log, fun i hi => ?_, h'.distinct ∘ h.distinct⟩
  have hle := times_le h.log Dealing.isWiped i
  have hle' := times_le h'.log Dealing.isWiped i
  rcases h'.entry i hi with ⟨hi', ha'⟩ | hw
  · rcases h.entry i hi' with ⟨hi, ha⟩ | hw
    · exact .inl ⟨hi, ha'.trans ha⟩
    · exact .inr (hw.trans_le hle')
  · exact .inr (hle.trans_lt hw)

namespace TableKept

theorem trans (h : TableKept c c') (h' : TableKept c' c'') : TableKept c c'' :=
  ⟨h.toOwned.trans h'.toOwned, fun i hi => h'.occupied i (h.occupied i hi),
    h.swept.trans h'.swept⟩

/-- Every entry is in use as before, under the same address. -/
theorem of_same (hlog : c.hist.dealings <:+ c'.hist.dealings)
    (hfree : ∀ i, (c'.neigh i).state = .free ↔ (c.neigh i).state = .free)
    (haddr : ∀ i, (c'.neigh i).addr = (c.neigh i).addr) (hswept : StaysSwept c c') :
    TableKept c c' := by
  refine ⟨⟨hlog, fun i hi => .inl ⟨?_, haddr i⟩, fun hd i j hi hj ha hinv => ?_⟩, fun i hi => ?_,
    hswept⟩
  · exact fun h => hi ((hfree i).mpr h)
  · rw [haddr] at ha hinv
    rw [haddr] at ha
    exact hd i j (fun h => hi ((hfree i).mpr h)) (fun h => hj ((hfree j).mpr h)) ha hinv
  · exact fun h => hi ((hfree i).mp h)

theorem of_eq (hlog : c.hist.dealings <:+ c'.hist.dealings) (hn : c'.neigh = c.neigh)
    (hlost : c'.hist.lost = c.hist.lost) : TableKept c c' :=
  of_same hlog (fun i => by rw [hn]) (fun i => by rw [hn]) (.of_eq hn hlost)

theorem refl (c : Node cfg) : TableKept c c := of_eq List.suffix_rfl rfl rfl

/-- An entry in use is changed, under the same address. -/
theorem setNeigh (c : Node cfg) (i : Fin cfg.maxNeighbors) (n : Neigh)
    (hfree : n.state = .free ↔ (c.neigh i).state = .free) (haddr : n.addr = (c.neigh i).addr)
    (hkey : n.state = .free → (c.neigh i).keys.keyNo = 0 → n.keys.keyNo = 0) :
    TableKept c (c.setNeigh i n) := by
  refine of_same List.suffix_rfl (fun j => ?_) (fun j => ?_)
    (.of_others i (fun j hj => by simp [hj]) ?_ fun _ => rfl)
  · by_cases hj : j = i
    · subst hj
      simpa using hfree
    · simp [hj]
  · by_cases hj : j = i
    · subst hj
      simpa using haddr
    · simp [hj]
  · simp only [Node.setNeigh_neigh, Function.update_self]
    exact fun hn => ⟨hfree.mp hn, hkey hn⟩

/-- Entry `i` is made anew, for an address that no other has. -/
theorem renew (i : Fin cfg.maxNeighbors) (hlog : c.hist.dealings <:+ c'.hist.dealings)
    (hothers : ∀ j, j ≠ i → c'.neigh j = c.neigh j) (hi : (c'.neigh i).state ≠ .free)
    (hw : c.wipes i < c'.wipes i)
    (hnew : (c'.neigh i).addr ≠ addrInvalid → ∀ j, j ≠ i → (c.neigh j).state ≠ .free →
      (c.neigh j).addr ≠ (c'.neigh i).addr)
    (hlost : c.Swept → c'.hist.lost = c.hist.lost) : TableKept c c' := by
  refine ⟨⟨hlog, fun j hj => ?_, fun hd j k hj hk ha hinv => ?_⟩, fun j hj => ?_,
    .of_others i hothers (fun h => absurd h hi) hlost⟩
  · by_cases hji : j = i
    · exact .inr (hji ▸ hw)
    · rw [hothers j hji] at hj ⊢
      exact .inl ⟨hj, rfl⟩
  · by_cases hji : j = i <;> by_cases hki : k = i
    · exact hji.trans hki.symm
    · subst hji
      rw [hothers k hki] at hk ha
      exact absurd ha.symm (hnew hinv k hki hk)
    · subst hki
      rw [hothers j hji] at hj ha hinv
      exact absurd ha (hnew (ha ▸ hinv) j hji hj)
    · rw [hothers j hji] at hj ha hinv
      rw [hothers k hki] at hk ha
      exact hd j k hj hk ha hinv
  · by_cases hji : j = i
    · exact hji ▸ hi
    · rwa [hothers j hji]

end TableKept

namespace LinksKept

theorem of_eq (hn : c'.neigh = c.neigh) : LinksKept c c' :=
  fun i hi => .inl (by rw [hn]; exact ⟨hi, rfl, rfl⟩)

theorem refl (c : Node cfg) : LinksKept c c := of_eq rfl

theorem trans (h : LinksKept c c') (h' : LinksKept c' c'')
    (hlog : c.hist.dealings <:+ c'.hist.dealings)
    (hlog' : c'.hist.dealings <:+ c''.hist.dealings) : LinksKept c c'' := by
  intro i hi
  have hle := times_le hlog Dealing.isDown i
  have hle' := times_le hlog' Dealing.isDown i
  rcases h i hi with hk | hd
  · rcases h' i hk.state with hk' | hd'
    · exact .inl ⟨hk'.state, hk'.addr.trans hk.addr, hk'.key.trans hk.key⟩
    · exact .inr (hle.trans_lt hd')
  · exact .inr (hd.trans_le hle')

/-- A change of an entry that is not about its link. -/
theorem setNeigh (c : Node cfg) (i : Fin cfg.maxNeighbors) (n : Neigh)
    (h : (c.neigh i).state = .linked → LinkKept (c.neigh i) n) : LinksKept c (c.setNeigh i n) := by
  intro j hj
  left
  by_cases hji : j = i
  · subst hji
    simpa using h hj
  · rw [Node.setNeigh_neigh, Function.update_of_ne hji]
    exact ⟨hj, rfl, rfl⟩

/-- Entry `i` is changed, after its link has been taken down if it had one. -/
theorem of_others (i : Fin cfg.maxNeighbors) (hothers : ∀ j, j ≠ i → c'.neigh j = c.neigh j)
    (hi : (c.neigh i).state = .linked → c.downs i < c'.downs i) : LinksKept c c' := by
  intro j hj
  by_cases hji : j = i
  · subst hji
    exact .inr (hi hj)
  · rw [hothers j hji]
    exact .inl ⟨hj, rfl, rfl⟩

end LinksKept

end LockGrid
