import LockGrid.Chan
import LockGrid.Words
import Mathlib.Tactic.IntervalCases

/-!
# The hop sequence

The number that `lg_chan_hop` draws for an event is a permutation of the event counters, whatever
the seed is. So the channels of a map take equal shares of the events, to within one.
-/
namespace LockGrid

open Function

/-- One round of the selection algorithm. -/
def hopRound (seed prn : UInt16) : UInt16 := csaMam (csaPermute prn) seed

/-- What `lg_chan_hop` reduces to a channel of the map. -/
def hopValue (seed counter : UInt16) : UInt16 :=
  mix16 (hopRound seed (hopRound seed (hopRound seed (counter ^^^ seed))) ^^^ seed)

theorem lgChanHop_eq (map seed counter : UInt16) :
    lgChanHop map seed counter = lgChanRemap map (hopValue seed counter) := rfl

/-! ## The value drawn -/

/-- `csa_permute` reverses the bits of a word. -/
theorem csaPermute_bit (v : UInt16) {i : ℕ} (hi : i < 16) :
    (csaPermute v).toBitVec.getLsbD i = v.toBitVec.getLsbD (15 - i) := by
  interval_cases i <;> simp [csaPermute]

theorem csaPermute_injective : Injective csaPermute := by
  intro x y h
  apply UInt16.toBitVec_inj.mp
  apply BitVec.eq_of_getLsbD_eq
  intro i hi
  have hx := csaPermute_bit x (i := 15 - i) (by omega)
  have hy := csaPermute_bit y (i := 15 - i) (by omega)
  have hback : 15 - (15 - i) = i := by omega
  rw [hback] at hx hy
  rw [← hx, ← hy, h]

theorem csaMam_injective (b : UInt16) : Injective fun a => csaMam a b := by
  intro x y h
  apply Words.mul_injective (m := 17) (u := 0xF0F1) (by decide)
  have hsum : 17 * x = 17 * y := Words.add_injective b h
  simpa only [UInt16.mul_comm] using hsum

theorem mix16_injective : Injective mix16 := by
  intro x y h
  have h₁ := Words.shift_injective (k := 9) (by decide) h
  have h₂ := Words.mul_injective (m := 0x1B2D) (u := 0xECA5) (by decide) h₁
  have h₃ := Words.shift_injective (k := 7) (by decide) h₂
  have h₄ := Words.mul_injective (m := 0x2B9D) (u := 0xB2B5) (by decide) h₃
  exact Words.shift_injective (k := 8) (by decide) h₄

theorem hopRound_injective (seed : UInt16) : Injective (hopRound seed) :=
  (csaMam_injective seed).comp csaPermute_injective

/-- Every value is drawn for one event counter. -/
theorem hopValue_bijective (seed : UInt16) : Bijective (hopValue seed) := by
  apply Words.bijective_of_injective
  intro x y h
  have hmixed := Words.xor_injective seed (mix16_injective h)
  have hround := hopRound_injective seed
  exact Words.xor_injective seed (hround (hround (hround hmixed)))

/-! ## Channels of a map -/

/-- The indices of the channels of a map, in order. -/
def mapIndices (map : UInt16) : List ℕ := (List.range chanCount).filter (chanBit map)

theorem mapIndices_nodup (map : UInt16) : (mapIndices map).Nodup := List.nodup_range.filter _

theorem mem_mapIndices {map : UInt16} {i : ℕ} :
    i ∈ mapIndices map ↔ i < chanCount ∧ chanBit map i = true := by
  simp [mapIndices]

theorem lgChanMapCount_pos {map : UInt16} (h : map ≠ 0) : 0 < lgChanMapCount map := by
  by_contra hzero
  apply h
  have hnone : mapIndices map = [] := List.length_eq_zero_iff.mp (Nat.eq_zero_of_not_pos hzero)
  apply UInt16.toBitVec_inj.mp
  apply BitVec.eq_of_getLsbD_eq
  intro i hi
  have hmem : i ∉ mapIndices map := by simp [hnone]
  rw [mem_mapIndices] at hmem
  simpa [chanBit, chanCount, hi] using hmem

/-- The channel at a place of the map is that of the remainder. -/
theorem lgChanRemap_eq_iff {map : UInt16} (h : map ≠ 0) {i r : ℕ}
    (hr : (mapIndices map)[r]? = some i) (index : UInt16) :
    lgChanRemap map index = chanFirst + i ↔ index.toNat % lgChanMapCount map = r := by
  have hlt : index.toNat % lgChanMapCount map < (mapIndices map).length :=
    Nat.mod_lt _ (lgChanMapCount_pos h)
  have hat : lgChanRemap map index =
      chanFirst + (mapIndices map)[index.toNat % lgChanMapCount map] := by
    have hget := List.getElem?_eq_getElem hlt
    unfold lgChanRemap
    simp only [mapIndices] at hget ⊢
    rw [hget]
  obtain ⟨hrlt, hri⟩ := List.getElem?_eq_some_iff.mp hr
  rw [hat, Nat.add_left_cancel_iff, ← hri]
  exact (mapIndices_nodup map).getElem_inj_iff

/-- The channel of an event is one of the map. -/
theorem lgChanRemap_mem {map : UInt16} (h : map ≠ 0) (index : UInt16) :
    ∃ i, (mapIndices map)[index.toNat % lgChanMapCount map]? = some i ∧ i < chanCount ∧
      chanBit map i = true ∧ lgChanRemap map index = chanFirst + i := by
  have hlt : index.toNat % lgChanMapCount map < (mapIndices map).length :=
    Nat.mod_lt _ (lgChanMapCount_pos h)
  have hget := List.getElem?_eq_getElem hlt
  obtain ⟨hi, hbit⟩ := mem_mapIndices.mp (List.getElem_mem hlt)
  refine ⟨_, hget, hi, hbit, ?_⟩
  rw [lgChanRemap_eq_iff h hget]

/-! ## Shares -/

/-- The counters of as many consecutive events as there are counters. -/
theorem counters_injective (k : ℕ) {a b : ℕ} (ha : a < 2 ^ 16) (hb : b < 2 ^ 16)
    (h : UInt16.ofNat (k + a) = UInt16.ofNat (k + b)) : a = b := by
  have hmod := congrArg UInt16.toNat h
  simp only [UInt16.toNat_ofNat'] at hmod
  omega

/-- How often each channel of the map comes up in 65536 consecutive events. -/
theorem lgChanHop_count {map : UInt16} (hmap : map ≠ 0) (seed : UInt16) (k : ℕ) {i : ℕ}
    (hi : i < chanCount) (hbit : chanBit map i = true) :
    let n := lgChanMapCount map
    let m := Nat.count (fun a => lgChanHop map seed (UInt16.ofNat (k + a)) = chanFirst + i) (2 ^ 16)
    m = 2 ^ 16 / n ∨ m = (2 ^ 16 + n - 1) / n := by
  intro n m
  obtain ⟨r, hr, hget⟩ := List.getElem_of_mem (mem_mapIndices.mpr ⟨hi, hbit⟩)
  have hplace : ∀ a, lgChanHop map seed (UInt16.ofNat (k + a)) = chanFirst + i ↔
      (hopValue seed (UInt16.ofNat (k + a))).toNat % n = r := by
    intro a
    rw [lgChanHop_eq, lgChanRemap_eq_iff hmap (List.getElem?_eq_some_iff.mpr ⟨hr, hget⟩)]
  have hcount : m = Nat.count (fun v => v % n = r) (2 ^ 16) := by
    simp only [m, hplace]
    refine Words.count_permuted (f := fun a => (hopValue seed (UInt16.ofNat (k + a))).toNat)
      (p := fun v => v % n = r) ?_ ?_
    · intro a ha b hb he
      apply counters_injective k ha hb
      exact (hopValue_bijective seed).injective (UInt16.toNat_inj.mp he)
    · intro a _
      exact UInt16.toNat_lt _
  rw [hcount]
  exact Words.count_remainder hr

/-- The events of a link spread evenly over the channels of its map. -/
structure HopsEvenly (map seed : UInt16) : Prop where
  /-- An event is on the channel of the map that the value drawn for it leaves as a remainder. -/
  mem : ∀ counter, ∃ i,
    (mapIndices map)[(hopValue seed counter).toNat % lgChanMapCount map]? = some i ∧
      i < chanCount ∧ chanBit map i = true ∧ lgChanHop map seed counter = chanFirst + i
  drawn : Bijective (hopValue seed)
  shares : ∀ k i, i < chanCount → chanBit map i = true →
    let n := lgChanMapCount map
    let m := Nat.count (fun a => lgChanHop map seed (UInt16.ofNat (k + a)) = chanFirst + i) (2 ^ 16)
    m = 2 ^ 16 / n ∨ m = (2 ^ 16 + n - 1) / n

/-- Whatever the seed and the map, each channel of the map gets its share of the events. -/
theorem hops_evenly {map : UInt16} (hmap : map ≠ 0) (seed : UInt16) : HopsEvenly map seed where
  mem counter := by
    rw [lgChanHop_eq]
    exact lgChanRemap_mem hmap _
  drawn := hopValue_bijective seed
  shares k _ hi hbit := lgChanHop_count hmap seed k hi hbit

/-- The four channels between those of Wi-Fi. -/
theorem hops_evenly_preferred : HopsEvenly chanPreferredMask 0x1234 :=
  hops_evenly (by decide) 0x1234

end LockGrid
