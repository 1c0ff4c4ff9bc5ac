import Mathlib.Data.List.Perm.Basic
import Mathlib.Data.Nat.Bitwise
import LockGrid.Plain

/-!
# The replay filter over a whole reception

What `lg_sec_decrypt` takes under one key, frame after frame. The mask says which of the last
32 counters were taken; forged frames leave no trace.
-/

namespace LockGrid

/-! ## Bits of a 32-bit mask -/

lemma bit_of_or (m n : UInt32) (b : ℕ) :
    (m ||| n).toNat.testBit b = (m.toNat.testBit b || n.toNat.testBit b) := by
  rw [UInt32.toNat_or, Nat.testBit_or]

lemma bit_of_shiftLeft {m s : UInt32} {b : ℕ} (hs : s.toNat < 32) (hb : b < 32) :
    (m <<< s).toNat.testBit b = (decide (s.toNat ≤ b) && m.toNat.testBit (b - s.toNat)) := by
  have hmod : s.toNat % 32 = s.toNat := Nat.mod_eq_of_lt hs
  rw [UInt32.toNat_shiftLeft, Nat.testBit_mod_two_pow, Nat.testBit_shiftLeft, hmod]
  simp [hb]

lemma bit_of_one (b : ℕ) : (1 : UInt32).toNat.testBit b = decide (b = 0) := by
  rw [show (1 : UInt32).toNat = 2 ^ 0 from rfl, Nat.testBit_two_pow]
  simp only [decide_eq_decide]
  omega

lemma bit_of_one_shiftLeft {s : UInt32} {b : ℕ} (hs : s.toNat < 32) (hb : b < 32) :
    ((1 : UInt32) <<< s).toNat.testBit b = decide (b = s.toNat) := by
  rw [bit_of_shiftLeft hs hb, bit_of_one]
  simp only [← Bool.decide_and, decide_eq_decide]
  omega

lemma and_bit_ne_zero {m s : UInt32} (hs : s.toNat < 32) :
    m &&& (1 <<< s) ≠ 0 ↔ m.toNat.testBit s.toNat = true := by
  have hone : (1 <<< s : UInt32).toNat = 2 ^ s.toNat := by
    rw [UInt32.toNat_shiftLeft, Nat.mod_eq_of_lt hs, show (1 : UInt32).toNat = 1 from rfl,
      Nat.one_shiftLeft]
    exact Nat.mod_eq_of_lt (Nat.pow_lt_pow_right (by omega) hs)
  have hzero : m &&& (1 <<< s) = 0 ↔ m.toNat &&& 2 ^ s.toNat = 0 := by
    rw [← UInt32.toNat_inj, UInt32.toNat_and, hone, show (0 : UInt32).toNat = 0 from rfl]
  rw [Ne, hzero, Nat.and_two_pow]
  cases m.toNat.testBit s.toNat <;> simp

/-! ## What the mask means -/

/-- The highest of the counters taken, 0 for none. -/
def highest (taken : List UInt32) : ℕ := (taken.map UInt32.toNat).foldr max 0

@[simp]
lemma highest_cons (s : UInt32) (taken : List UInt32) :
    highest (s :: taken) = max s.toNat (highest taken) := rfl

lemma le_highest {taken : List UInt32} {s : UInt32} (h : s ∈ taken) :
    s.toNat ≤ highest taken := by
  induction taken with
  | nil => cases h
  | cons t taken ih =>
    rw [highest_cons]
    rcases List.mem_cons.mp h with rfl | h
    · omega
    · have := ih h
      omega

/-- Bit `b` of the mask stands for the counter `b` below the highest taken. -/
structure Marks (k : Keys) (taken : List UInt32) : Prop where
  top : k.rxCtr.toNat = highest taken
  bits : ∀ b < 32, k.replayMask.toNat.testBit b = true ↔
    ∃ s ∈ taken, s.toNat + b = k.rxCtr.toNat

lemma Marks.installed (k : Keys) (key : Bytes) (no : ℕ) : Marks (k.installed key no) [] := by
  refine ⟨rfl, ?_⟩
  simp [Keys.installed]

/-- A counter is good when it is new, and ahead of the highest taken or close behind. -/
def Good (window : ℕ) (taken : List UInt32) (ctr : UInt32) : Prop :=
  ctr ≠ 0 ∧ ctr ∉ taken ∧
    (highest taken < ctr.toNat ∨ highest taken - ctr.toNat < min window 32)

section Check

variable {k : Keys} {taken : List UInt32} {ctr : UInt32} {window : ℕ}

lemma toNat_behind (hahead : ¬ k.rxCtr < ctr) :
    ctr.toNat ≤ k.rxCtr.toNat ∧ (k.rxCtr - ctr).toNat = k.rxCtr.toNat - ctr.toNat := by
  have hle : ctr.toNat ≤ k.rxCtr.toNat := by
    rw [UInt32.lt_iff_toNat_lt] at hahead
    omega
  exact ⟨hle, UInt32.toNat_sub_of_le _ _ (UInt32.le_iff_toNat_le.mpr hle)⟩

lemma toNat_ahead (hahead : k.rxCtr < ctr) :
    k.rxCtr.toNat < ctr.toNat ∧ (ctr - k.rxCtr).toNat = ctr.toNat - k.rxCtr.toNat := by
  have hlt := UInt32.lt_iff_toNat_lt.mp hahead
  exact ⟨hlt, UInt32.toNat_sub_of_le _ _ (UInt32.le_iff_toNat_le.mpr (by omega))⟩

lemma Marks.taken_of_bit (h : Marks k taken) (hahead : ¬ k.rxCtr < ctr)
    (hb : (k.rxCtr - ctr).toNat < 32) :
    k.replayMask.toNat.testBit (k.rxCtr - ctr).toNat = true ↔ ctr ∈ taken := by
  obtain ⟨hle, hsub⟩ := toNat_behind hahead
  rw [h.bits _ hb, hsub]
  constructor
  · rintro ⟨s, hs, heq⟩
    have hsc : s = ctr := UInt32.toNat_inj.mp (by omega)
    exact hsc ▸ hs
  · intro hmem
    exact ⟨ctr, hmem, by omega⟩

/-- What the filter lets through. -/
lemma Marks.check (h : Marks k taken) :
    (replayCheck window k ctr).isSome ↔ Good window taken ctr := by
  have htop := h.top
  unfold replayCheck Good
  by_cases hzero : ctr = 0
  · simp [hzero]
  by_cases hahead : k.rxCtr < ctr
  · have hlt := (toNat_ahead hahead).1
    have hfresh : ctr ∉ taken := by
      intro hmem
      have := le_highest hmem
      omega
    have hfront : highest taken < ctr.toNat := by omega
    simp [hzero, hahead, hfresh, hfront]
  obtain ⟨hle, hsub⟩ := toNat_behind hahead
  have hnot : ¬ highest taken < ctr.toNat := by omega
  by_cases hfar : min window 32 ≤ (k.rxCtr - ctr).toNat
  · have hpast : ¬ highest taken - ctr.toNat < min window 32 := by omega
    simp [hzero, hahead, hfar, hnot, hpast]
  have hclose : highest taken - ctr.toNat < min window 32 := by omega
  have hb : (k.rxCtr - ctr).toNat < 32 := by omega
  have hbit : k.replayMask &&& (1 <<< (k.rxCtr - ctr)) ≠ 0 ↔ ctr ∈ taken :=
    (and_bit_ne_zero hb).trans (h.taken_of_bit hahead hb)
  simp only [hahead, hfar, hclose, hbit, if_false]
  by_cases hmem : ctr ∈ taken <;> simp [hzero, hmem]

/-- A counter ahead of all moves the mask up and takes bit 0. -/
lemma Marks.ahead (h : Marks k taken) (hahead : k.rxCtr < ctr) :
    Marks
      { k with
        replayMask := (if 32 ≤ ctr - k.rxCtr then 0 else k.replayMask <<< (ctr - k.rxCtr)) ||| 1
        rxCtr := ctr } (ctr :: taken) := by
  obtain ⟨hlt, hsub⟩ := toNat_ahead hahead
  have htop := h.top
  have hbelow : ∀ s ∈ taken, s.toNat ≤ k.rxCtr.toNat := by
    intro s hs
    rw [htop]
    exact le_highest hs
  constructor
  · rw [highest_cons]
    dsimp only
    omega
  intro b hb
  simp only [bit_of_or, bit_of_one, Bool.or_eq_true, decide_eq_true_eq, List.mem_cons,
    exists_eq_or_imp]
  rw [or_comm]
  apply or_congr (by omega)
  by_cases hwide : 32 ≤ ctr - k.rxCtr
  · have hwide' : 32 ≤ (ctr - k.rxCtr).toNat := UInt32.le_iff_toNat_le.mp hwide
    simp only [hwide, if_true]
    constructor
    · intro hbit
      simp at hbit
    · rintro ⟨s, hs, heq⟩
      have := hbelow s hs
      omega
  have hnarrow : (ctr - k.rxCtr).toNat < 32 := by
    have := mt UInt32.le_iff_toNat_le.mpr hwide
    simpa using this
  simp only [hwide, if_false, bit_of_shiftLeft hnarrow hb, Bool.and_eq_true, decide_eq_true_eq]
  constructor
  · rintro ⟨hsb, hbit⟩
    obtain ⟨s, hs, heq⟩ := (h.bits _ (by omega)).mp hbit
    exact ⟨s, hs, by omega⟩
  · rintro ⟨s, hs, heq⟩
    have hs' := hbelow s hs
    have hsb : (ctr - k.rxCtr).toNat ≤ b := by omega
    exact ⟨hsb, (h.bits _ (by omega)).mpr ⟨s, hs, by omega⟩⟩

/-- A counter behind the highest takes its bit. -/
lemma Marks.behind (h : Marks k taken) (hahead : ¬ k.rxCtr < ctr)
    (hb : (k.rxCtr - ctr).toNat < 32) :
    Marks { k with replayMask := k.replayMask ||| (1 <<< (k.rxCtr - ctr)) } (ctr :: taken) := by
  obtain ⟨hle, hsub⟩ := toNat_behind hahead
  have htop := h.top
  constructor
  · rw [highest_cons]
    dsimp only
    omega
  intro b hb'
  simp only [bit_of_or, bit_of_one_shiftLeft hb hb', Bool.or_eq_true, decide_eq_true_eq,
    List.mem_cons, exists_eq_or_imp, h.bits b hb']
  rw [or_comm]
  apply or_congr _ Iff.rfl
  omega

lemma Marks.took (h : Marks k taken) {k' : Keys} (hk : replayCheck window k ctr = some k') :
    Marks k' (ctr :: taken) := by
  unfold replayCheck at hk
  by_cases hzero : ctr = 0
  · simp [hzero] at hk
  by_cases hahead : k.rxCtr < ctr
  · simp only [hzero, hahead, if_true, if_false, Option.some.injEq] at hk
    have hmoved := h.ahead hahead
    rw [hk] at hmoved
    exact hmoved
  by_cases hfar : min window 32 ≤ (k.rxCtr - ctr).toNat
  · simp [hzero, hahead, hfar] at hk
  simp only [hzero, hahead, hfar, if_false] at hk
  split at hk
  · simp at hk
  · have hmarked := h.behind hahead (by omega)
    rw [Option.some.inj hk] at hmarked
    exact hmarked

end Check

/-! ## A reception under one key -/

variable {cfg : Config}

/-- A frame that carries a tag made with `key`. -/
def genuine (psa : Psa) (cfg : Config) (key pdu : Bytes) : Bool :=
  decide (cfg.secOverhead ≤ pdu.length) &&
    (psa.aeadDecrypt cfg.micLen key (nonceBuild (getLe16 pdu offSrc) (getLe32 pdu offFctr))
      (pdu.take hdrLenSec) (pdu.drop hdrLenSec)).isSome

/-- One frame given to `lg_sec_decrypt`: whether it is accepted, and the node after it. -/
def takeFrame (psa : Psa) (i : Fin cfg.maxNeighbors) (c : Node cfg) (pdu : Bytes) :
    Bool × Node cfg :=
  ((lgSecDecrypt psa true c i pdu).1.toBool, (lgSecDecrypt psa true c i pdu).2)

/-- The node after all of `frames`. -/
def takeFrames (psa : Psa) (i : Fin cfg.maxNeighbors) : Node cfg → List Bytes → Node cfg
  | c, [] => c
  | c, pdu :: frames => takeFrames psa i (takeFrame psa i c pdu).2 frames

/-- What becomes of each of `frames`. -/
def decisions (psa : Psa) (i : Fin cfg.maxNeighbors) :
    Node cfg → List Bytes → List (Bytes × Bool)
  | _, [] => []
  | c, pdu :: frames =>
    (pdu, (takeFrame psa i c pdu).1) :: decisions psa i (takeFrame psa i c pdu).2 frames

/-- The counters of the frames that were accepted. -/
def takenCtrs (ds : List (Bytes × Bool)) : List UInt32 :=
  (ds.filter fun d => d.2).map fun d => getLe32 d.1 offFctr

section Reception

variable {psa : Psa} {i : Fin cfg.maxNeighbors} {key : Bytes} {c : Node cfg}
variable {taken : List UInt32}

/-- The node holds `key` for its neighbour, and has taken the counters `taken` under it. -/
structure Receiver (i : Fin cfg.maxNeighbors) (key : Bytes) (taken : List UInt32)
    (c : Node cfg) : Prop where
  has : (c.neigh i).keys.hasKey = true
  id : (c.neigh i).keys.keyId = some key
  marks : Marks (c.neigh i).keys taken

lemma Receiver.installed (c : Node cfg) (i : Fin cfg.maxNeighbors) (key : Bytes) :
    Receiver i key [] (lgSecInstallKey true c i key).2 := by
  have hkeys : ((lgSecInstallKey true c i key).2.neigh i).keys =
      (c.neigh i).keys.installed key (c.hist.installs.length + 1) := by
    simp [lgSecInstallKey, Node.setKeys, Node.destroyKey]
  constructor <;> rw [hkeys]
  · rfl
  · rfl
  · exact Marks.installed _ key _

lemma replayCheck_id {window : ℕ} {k k' : Keys} {ctr : UInt32}
    (h : replayCheck window k ctr = some k') : k'.hasKey = k.hasKey ∧ k'.keyId = k.keyId := by
  unfold replayCheck at h
  split at h
  · simp at h
  split at h
  · rw [← Option.some.inj h]
    simp
  dsimp only at h
  split at h
  · simp at h
  split at h
  · simp at h
  · rw [← Option.some.inj h]
    simp

/-- A forged frame is refused, and leaves the node as it was. -/
lemma Receiver.forged (h : Receiver i key taken c) {pdu : Bytes}
    (hg : genuine psa cfg key pdu = false) :
    takeFrame psa i c pdu = (false, c) := by
  unfold takeFrame lgSecDecrypt
  by_cases hshort : pdu.length < cfg.secOverhead
  · simp [h.has, hshort, Except.toBool]
  have hopen : psa.aeadDecrypt cfg.micLen key
      (nonceBuild (getLe16 pdu offSrc) (getLe32 pdu offFctr)) (pdu.take hdrLenSec)
      (pdu.drop hdrLenSec) = none := by
    simpa [genuine, not_lt.mp hshort] using hg
  simp [h.has, h.id, hshort, hopen, Except.toBool]

/-- A genuine frame comes down to the replay filter. -/
lemma Receiver.genuine (h : Receiver i key taken c) {pdu : Bytes}
    (hg : LockGrid.genuine psa cfg key pdu = true) :
    takeFrame psa i c pdu =
      match replayCheck cfg.replayWindow (c.neigh i).keys (getLe32 pdu offFctr) with
      | none => (false, c)
      | some k => (true, c.setKeys i k) := by
  simp only [LockGrid.genuine, Bool.and_eq_true, decide_eq_true_eq, Option.isSome_iff_exists] at hg
  obtain ⟨hlen, plain, hopen⟩ := hg
  unfold takeFrame lgSecDecrypt
  simp only [h.has, h.id, not_lt.mpr hlen, hopen, Bool.not_true, Bool.false_eq_true, if_true,
    if_false, Option.bind_some]
  cases replayCheck cfg.replayWindow (c.neigh i).keys (getLe32 pdu offFctr) <;>
    simp [Except.toBool]

/-- What one frame does: it is accepted if it is genuine and its counter good, and noted. -/
lemma Receiver.step (psa : Psa) (h : Receiver i key taken c) (pdu : Bytes) :
    ((takeFrame psa i c pdu).1 = true ↔
      LockGrid.genuine psa cfg key pdu = true ∧
        Good cfg.replayWindow taken (getLe32 pdu offFctr)) ∧
      Receiver i key
        (if (takeFrame psa i c pdu).1 then getLe32 pdu offFctr :: taken else taken)
        (takeFrame psa i c pdu).2 := by
  cases hg : LockGrid.genuine psa cfg key pdu with
  | false =>
    rw [h.forged hg]
    simp [h]
  | true =>
    have hcheck : (replayCheck cfg.replayWindow (c.neigh i).keys (getLe32 pdu offFctr)).isSome ↔
        Good cfg.replayWindow taken (getLe32 pdu offFctr) := h.marks.check
    rw [h.genuine hg]
    cases hk : replayCheck cfg.replayWindow (c.neigh i).keys (getLe32 pdu offFctr) with
    | none =>
      rw [hk] at hcheck
      simp only [Option.isSome_none, Bool.false_eq_true, false_iff] at hcheck
      simp [hcheck, h]
    | some k =>
      rw [hk] at hcheck
      simp only [Option.isSome_some, true_iff] at hcheck
      obtain ⟨hhas, hid⟩ := replayCheck_id hk
      refine ⟨by simp [hcheck], ?_⟩
      constructor
      · simp [Node.setKeys, hhas, h.has]
      · simp [Node.setKeys, hid, h.id]
      · simpa [Node.setKeys] using h.marks.took hk

/-- After a reception the mask stands for all that was accepted in it. -/
lemma Receiver.run (psa : Psa) (h : Receiver i key taken c) (frames : List Bytes) :
    Receiver i key ((takenCtrs (decisions psa i c frames)).reverse ++ taken)
      (takeFrames psa i c frames) := by
  induction frames generalizing c taken with
  | nil => simpa [takenCtrs, decisions, takeFrames] using h
  | cons pdu frames ih =>
    have hnext := ih (h.step psa pdu).2
    cases ht : (takeFrame psa i c pdu).1 <;>
      simpa [takenCtrs, decisions, takeFrames, ht] using hnext

/-- Without the forged frames the reception ends in the same node. -/
lemma Receiver.filter_takeFrames (h : Receiver i key taken c) (frames : List Bytes) :
    takeFrames psa i c (frames.filter (LockGrid.genuine psa cfg key)) =
      takeFrames psa i c frames := by
  induction frames generalizing c taken with
  | nil => rfl
  | cons pdu frames ih =>
    cases hg : LockGrid.genuine psa cfg key pdu with
    | false =>
      rw [List.filter_cons_of_neg (by simp [hg]), takeFrames, h.forged hg]
      exact ih h
    | true =>
      rw [List.filter_cons_of_pos hg, takeFrames, takeFrames]
      exact ih (h.step psa pdu).2

/-- Without the forged frames the genuine ones fare the same. -/
lemma Receiver.filter_decisions (h : Receiver i key taken c) (frames : List Bytes) :
    decisions psa i c (frames.filter (LockGrid.genuine psa cfg key)) =
      (decisions psa i c frames).filter fun d => LockGrid.genuine psa cfg key d.1 := by
  induction frames generalizing c taken with
  | nil => rfl
  | cons pdu frames ih =>
    cases hg : LockGrid.genuine psa cfg key pdu with
    | false =>
      rw [List.filter_cons_of_neg (by simp [hg]), decisions, List.filter_cons_of_neg (by simp [hg]),
        h.forged hg]
      exact ih h
    | true =>
      rw [List.filter_cons_of_pos hg, decisions, decisions, List.filter_cons_of_pos (by simp [hg])]
      rw [ih (h.step psa pdu).2]

end Reception

lemma highest_reverse (taken : List UInt32) : highest taken.reverse = highest taken := by
  unfold highest
  rw [List.map_reverse]
  exact (List.reverse_perm _).foldr_eq _

/-- Under one installed key, whatever was received before: a frame is accepted if and only if it
is genuine and its counter is not 0, was not accepted before, and is ahead of the highest accepted
or fewer than the window behind it. Receptions that differ in forged frames only decide alike
about the genuine ones and end in the same state. -/
theorem replay_filter (psa : Psa) (c : Node cfg) (i : Fin cfg.maxNeighbors) (key : Bytes)
    (frames mixed : List Bytes)
    (hmixed : mixed.filter (genuine psa cfg key) = frames.filter (genuine psa cfg key)) :
    let start := (lgSecInstallKey true c i key).2
    let taken := takenCtrs (decisions psa i start frames)
    (∀ pdu, (takeFrame psa i (takeFrames psa i start frames) pdu).1 = true ↔
      genuine psa cfg key pdu = true ∧ getLe32 pdu offFctr ≠ 0 ∧ getLe32 pdu offFctr ∉ taken ∧
        (highest taken < (getLe32 pdu offFctr).toNat ∨
          highest taken - (getLe32 pdu offFctr).toNat < min cfg.replayWindow 32)) ∧
    (decisions psa i start mixed).filter (fun d => genuine psa cfg key d.1) =
      (decisions psa i start frames).filter (fun d => genuine psa cfg key d.1) ∧
    takeFrames psa i start mixed = takeFrames psa i start frames := by
  intro start taken
  have hstart : Receiver i key [] start := Receiver.installed c i key
  refine ⟨?_, ?_, ?_⟩
  · intro pdu
    have hlast := ((hstart.run psa frames).step psa pdu).1
    simpa only [Good, List.append_nil, List.mem_reverse, highest_reverse] using hlast
  · rw [← hstart.filter_decisions, ← hstart.filter_decisions, hmixed]
  · rw [← hstart.filter_takeFrames, ← hstart.filter_takeFrames frames, hmixed]

/-- Frame 5 between two forged ones: it is accepted, once. -/
theorem replay_filter_forged :
    let i : Fin Config.default.maxNeighbors := ⟨0, by decide⟩
    let key := zeros keyLen
    let start := (lgSecInstallKey true (Node.boot Config.default (plainIdent 1 1)) i key).2
    let pdu := (sealedFrame .data 1 2 key 5 [7]).pdu
    let forged := (sealedFrame .data 1 2 key 6 [7]).pdu ++ [1]
    (takeFrame Psa.plain i (takeFrames Psa.plain i start []) pdu).1 = true ∧
      ¬ (takeFrame Psa.plain i (takeFrames Psa.plain i start [pdu]) pdu).1 = true ∧
      takeFrames Psa.plain i start [forged, pdu, forged] = takeFrames Psa.plain i start [pdu] := by
  intro i key start pdu forged
  have hg : genuine Psa.plain Config.default key pdu = true := by decide
  have hf : genuine Psa.plain Config.default key forged = false := by decide
  have hfilter : [forged, pdu, forged].filter (genuine Psa.plain Config.default key) =
      [pdu].filter (genuine Psa.plain Config.default key) := by
    simp [hf, hg]
  have hctr : getLe32 pdu offFctr = 5 := by decide
  have hfirst := replay_filter Psa.plain (Node.boot Config.default (plainIdent 1 1)) i key [] [] rfl
  have hthen := replay_filter Psa.plain (Node.boot Config.default (plainIdent 1 1)) i key [pdu]
    [forged, pdu, forged] hfilter
  have htake : (takeFrame Psa.plain i start pdu).1 = true := by
    refine (hfirst.1 pdu).mpr ⟨hg, ?_⟩
    rw [hctr]
    simp [decisions, takenCtrs, highest]
  refine ⟨htake, ?_, hthen.2.2⟩
  intro hagain
  have hnew := ((hthen.1 pdu).mp hagain).2.2.1
  apply hnew
  have hgive : (takeFrame Psa.plain i (lgSecInstallKey true
    (Node.boot Config.default (plainIdent 1 1)) i key).2 pdu).1 = true := htake
  simp [decisions, takenCtrs, hgive]

end LockGrid
