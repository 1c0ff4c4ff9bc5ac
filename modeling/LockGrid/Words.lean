import Mathlib.Data.Int.CardIntervalMod

/-!
# Permutations of words

The steps bit mixers are built of lose nothing: a word xored with itself shifted, a product by a
unit. What a permutation of the numbers below a bound makes of them leaves each remainder as often
as the numbers themselves do.
-/
namespace LockGrid.Words

open Function

/-- A word that a right shift leaves alone is zero. -/
theorem eq_zero_of_shift {w k : ℕ} (hk : 0 < k) {z : BitVec w} (h : z >>> k = z) : z = 0#w := by
  have hdiv : z.toNat / 2 ^ k = z.toNat := by
    have hnat := congrArg BitVec.toNat h
    rwa [BitVec.toNat_ushiftRight, Nat.shiftRight_eq_div_pow] at hnat
  have hpow : 1 < 2 ^ k := Nat.one_lt_two_pow (by omega)
  apply BitVec.eq_of_toNat_eq
  rw [BitVec.toNat_zero]
  by_contra hne
  have hlt := Nat.div_lt_self (Nat.pos_of_ne_zero hne) hpow
  omega

/-- Xoring a word with its upper bits can be undone. -/
theorem xorShift_injective {w k : ℕ} (hk : 0 < k) :
    Injective fun x : BitVec w => x ^^^ (x >>> k) := by
  intro x y h
  have hcross : x >>> k ^^^ y >>> k = x ^^^ y := by
    have hx : x ^^^ (x >>> k) = y ^^^ (y >>> k) := h
    calc x >>> k ^^^ y >>> k
        = x ^^^ (x ^^^ (x >>> k)) ^^^ y >>> k := by rw [← BitVec.xor_assoc, BitVec.xor_self,
          BitVec.zero_xor]
      _ = x ^^^ (y ^^^ (y >>> k)) ^^^ y >>> k := by rw [hx]
      _ = x ^^^ y := by rw [← BitVec.xor_assoc, BitVec.xor_assoc, BitVec.xor_self,
          BitVec.xor_zero]
  have hzero : x ^^^ y = 0#w := by
    apply eq_zero_of_shift hk
    rw [BitVec.ushiftRight_xor_distrib, hcross]
  exact BitVec.xor_eq_zero_iff.mp hzero

theorem xor_injective (s : UInt16) : Injective fun x : UInt16 => x ^^^ s := by
  intro x y h
  have hb := congrArg (fun v : UInt16 => v ^^^ s) h
  simpa only [UInt16.xor_assoc, UInt16.xor_self, UInt16.xor_zero] using hb

theorem add_injective (s : UInt16) : Injective fun x : UInt16 => x + s := by
  intro x y h
  simpa only [UInt16.add_sub_cancel] using congrArg (fun v : UInt16 => v - s) h

/-- A product by a unit can be undone. -/
theorem mul_injective {m u : UInt16} (hu : m * u = 1) : Injective fun x : UInt16 => x * m := by
  intro x y h
  have hb := congrArg (fun v : UInt16 => v * u) h
  simpa only [UInt16.mul_assoc, hu, UInt16.mul_one] using hb

theorem shift_injective {k : UInt16} (hk : 0 < k.toNat % 16) :
    Injective fun x : UInt16 => x ^^^ (x >>> k) := by
  intro x y h
  have hb := congrArg UInt16.toBitVec h
  simp only [UInt16.toBitVec_xor, UInt16.toBitVec_shiftRight, BitVec.ushiftRight_eq'] at hb
  have hk' : 0 < (k.toBitVec % 16).toNat := by simpa using hk
  exact UInt16.toBitVec_inj.mp (xorShift_injective hk' hb)

/-- There are finitely many words: what loses nothing reaches everything. -/
theorem bijective_of_injective {f : UInt16 → UInt16} (h : Injective f) : Bijective f := by
  have hfin : Injective UInt16.toFin := fun x y he => UInt16.toFin_inj.mp he
  have : Finite UInt16 := Finite.of_injective UInt16.toFin hfin
  exact Finite.injective_iff_bijective.mp h

/-! ## Remainders -/

/-- A permutation of the numbers below `N` meets a condition as often as they do. -/
theorem count_permuted {N : ℕ} {f : ℕ → ℕ} (hinj : ∀ a < N, ∀ b < N, f a = f b → a = b)
    (hlt : ∀ a < N, f a < N) (p : ℕ → Prop) [DecidablePred p] :
    Nat.count (fun a => p (f a)) N = Nat.count p N := by
  have hon : Set.InjOn f (Finset.range N) := by
    intro a ha b hb he
    exact hinj a (Finset.mem_range.mp ha) b (Finset.mem_range.mp hb) he
  have hperm : (Finset.range N).image f = Finset.range N := by
    apply Finset.eq_of_subset_of_card_le
    · intro x hx
      obtain ⟨a, ha, rfl⟩ := Finset.mem_image.mp hx
      exact Finset.mem_range.mpr (hlt a (Finset.mem_range.mp ha))
    · rw [Finset.card_image_of_injOn hon]
  rw [Nat.count_eq_card_filter_range, Nat.count_eq_card_filter_range]
  calc ((Finset.range N).filter fun a => p (f a)).card
      = (((Finset.range N).filter fun a => p (f a)).image f).card := by
        symm
        apply Finset.card_image_of_injOn
        exact hon.mono (Finset.coe_subset.mpr (Finset.filter_subset _ _))
    _ = (((Finset.range N).image f).filter p).card := by rw [Finset.filter_image]
    _ = ((Finset.range N).filter p).card := by rw [hperm]

/-- Each remainder is left by the quotient of the numbers, rounded down or up. -/
theorem count_remainder {N n r : ℕ} (hr : r < n) :
    Nat.count (fun a => a % n = r) N = N / n ∨
      Nat.count (fun a => a % n = r) N = (N + n - 1) / n := by
  have hmod : (fun a => a % n = r) = fun a => a ≡ r [MOD n] := by
    funext a
    rw [Nat.ModEq, Nat.mod_eq_of_lt hr]
  have hcount := Nat.count_modEq_card N (Nat.zero_lt_of_lt hr) r
  simp only [hmod, hcount]
  split_ifs with hlt
  · right
    have hdiv := Nat.div_add_mod N n
    have hsum : N + n - 1 = n * (N / n) + (N % n + n - 1) := by omega
    have hone : (N % n + n - 1) / n = 1 := by
      apply Nat.div_eq_of_lt_le
      · omega
      · have hrest := Nat.mod_lt N (Nat.zero_lt_of_lt hr)
        omega
    rw [hsum, Nat.mul_add_div (Nat.zero_lt_of_lt hr), hone]
  · left
    rfl

end LockGrid.Words
