import Mathlib.Tactic.Linarith

/-!
# Byte strings

Buffers are lists of bytes, as long as their length variable says. A read past the end
gives zero, and little-endian words go in and come back out unchanged.
-/
namespace LockGrid

abbrev Bytes := List UInt8

def zeros (n : ℕ) : Bytes := List.replicate n 0

def getByte (p : Bytes) (off : ℕ) : UInt8 := p.getD off 0

def putLe16 (v : UInt16) : Bytes := [v.toUInt8, (v >>> 8).toUInt8]

def getLe16 (p : Bytes) (off : ℕ) : UInt16 :=
  (getByte p off).toUInt16 ||| ((getByte p (off + 1)).toUInt16 <<< 8)

def putLe32 (v : UInt32) : Bytes :=
  [v.toUInt8, (v >>> 8).toUInt8, (v >>> 16).toUInt8, (v >>> 24).toUInt8]

def getLe32 (p : Bytes) (off : ℕ) : UInt32 :=
  (getByte p off).toUInt32 ||| ((getByte p (off + 1)).toUInt32 <<< 8) |||
    ((getByte p (off + 2)).toUInt32 <<< 16) ||| ((getByte p (off + 3)).toUInt32 <<< 24)

/-- The slice `p[off .. off + len)`. -/
def slice (p : Bytes) (off len : ℕ) : Bytes := (p.drop off).take len

/-- Overwrite `chunk.length` bytes of a buffer of fixed size, from `off` on. -/
def splice (buf : Bytes) (off : ℕ) (chunk : Bytes) : Bytes :=
  buf.take off ++ chunk ++ buf.drop (off + chunk.length)

@[simp] theorem zeros_length (n : ℕ) : (zeros n).length = n := by simp [zeros]

@[simp] theorem putLe16_length (v : UInt16) : (putLe16 v).length = 2 := rfl

@[simp] theorem putLe32_length (v : UInt32) : (putLe32 v).length = 4 := rfl

theorem getByte_append_right (p q : Bytes) (off : ℕ) (h : p.length ≤ off) :
    getByte (p ++ q) off = getByte q (off - p.length) := by
  simp only [getByte, List.getD_eq_getElem?_getD, List.getElem?_append_right h]

theorem getByte_append_left (p q : Bytes) (off : ℕ) (h : off < p.length) :
    getByte (p ++ q) off = getByte p off := by
  simp only [getByte, List.getD_eq_getElem?_getD, List.getElem?_append_left h]

theorem getLe16_append_right (p q : Bytes) (off : ℕ) (h : p.length ≤ off) :
    getLe16 (p ++ q) off = getLe16 q (off - p.length) := by
  have hs : off + 1 - p.length = off - p.length + 1 := by omega
  simp only [getLe16, getByte_append_right p q off h,
    getByte_append_right p q (off + 1) (by omega), hs]

theorem getLe32_append_right (p q : Bytes) (off : ℕ) (h : p.length ≤ off) :
    getLe32 (p ++ q) off = getLe32 q (off - p.length) := by
  have hs : ∀ k, off + k - p.length = off - p.length + k := by omega
  have hb : ∀ k, getByte (p ++ q) (off + k) = getByte q (off - p.length + k) := by
    intro k
    rw [getByte_append_right p q (off + k) (by omega), hs k]
  have h0 := hb 0
  simp only [Nat.add_zero] at h0
  simp only [getLe32, h0, hb]

theorem le16_join (v : UInt16) :
    v.toUInt8.toUInt16 ||| ((v >>> 8).toUInt8.toUInt16 <<< 8) = v := by
  apply UInt16.toBitVec_inj.mp
  simp only [UInt16.toBitVec_or, UInt16.toBitVec_shiftLeft, UInt8.toBitVec_toUInt16,
    UInt16.toBitVec_toUInt8, UInt16.toBitVec_shiftRight]
  ext i hi
  simp
  grind

theorem le32_join (v : UInt32) :
    v.toUInt8.toUInt32 ||| ((v >>> 8).toUInt8.toUInt32 <<< 8) |||
      ((v >>> 16).toUInt8.toUInt32 <<< 16) ||| ((v >>> 24).toUInt8.toUInt32 <<< 24) = v := by
  apply UInt32.toBitVec_inj.mp
  simp only [UInt32.toBitVec_or, UInt32.toBitVec_shiftLeft, UInt8.toBitVec_toUInt32,
    UInt32.toBitVec_toUInt8, UInt32.toBitVec_shiftRight]
  ext i hi
  simp
  grind

theorem getLe16_putLe16 (v : UInt16) (rest : Bytes) : getLe16 (putLe16 v ++ rest) 0 = v := by
  simp only [getLe16, putLe16, getByte, List.cons_append, List.nil_append, List.getD_cons_zero,
    List.getD_cons_succ]
  exact le16_join v

theorem getLe32_putLe32 (v : UInt32) (rest : Bytes) : getLe32 (putLe32 v ++ rest) 0 = v := by
  simp only [getLe32, putLe32, getByte, List.cons_append, List.nil_append, List.getD_cons_zero,
    List.getD_cons_succ]
  exact le32_join v

theorem putLe32_injective : Function.Injective putLe32 := by
  intro v w h
  have hv := getLe32_putLe32 v []
  have hw := getLe32_putLe32 w []
  rw [h] at hv
  exact hv.symm.trans hw

theorem putLe16_injective : Function.Injective putLe16 := by
  intro v w h
  have hv := getLe16_putLe16 v []
  have hw := getLe16_putLe16 w []
  rw [h] at hv
  exact hv.symm.trans hw

theorem slice_length (p : Bytes) (off len : ℕ) (h : off + len ≤ p.length) :
    (slice p off len).length = len := by
  simp only [slice, List.length_take, List.length_drop]
  omega

theorem splice_length (buf chunk : Bytes) (off : ℕ) (h : off + chunk.length ≤ buf.length) :
    (splice buf off chunk).length = buf.length := by
  simp only [splice, List.length_append, List.length_take, List.length_drop]
  omega

end LockGrid
