import Mathlib.Data.Fin.Basic
import Mathlib.Data.List.GetD

/-!
# A ring of the last few values

Places that are written in turn, the oldest value first. Whatever has been written, the places
hold the last few values, as many as there are places.
-/
namespace LockGrid.Ring

variable {α : Type*} {n : ℕ}

/-- The places after `x` has been written. -/
def push (slots : Fin n → α) (next : ℕ) (x : α) : (Fin n → α) × ℕ :=
  (fun s => if s.val = next then x else slots s, (next + 1) % n)

/-- The places hold the last values of `hist`, the newest first, and `blank` where there are none
yet. -/
structure Holds (slots : Fin n → α) (next : ℕ) (blank : α) (hist : List α) : Prop where
  next_lt : next < n
  kept : ∀ k < n, ∀ s : Fin n, s.val + k + 1 = next ∨ s.val + k + 1 = next + n →
    slots s = hist.getD k blank

variable {slots : Fin n → α} {next : ℕ} {blank x : α} {hist : List α}

theorem holds_blank (hn : 0 < n) (blank : α) : Holds (fun _ : Fin n => blank) 0 blank [] :=
  ⟨hn, fun _ _ _ _ => rfl⟩

/-- Writing drops the oldest value. -/
theorem Holds.push (h : Holds slots next blank hist) (x : α) :
    Holds (push slots next x).1 (push slots next x).2 blank (x :: hist) := by
  have hlt := h.next_lt
  have hnext : (next + 1) % n = if next + 1 = n then 0 else next + 1 := by
    split
    · next he => rw [he, Nat.mod_self]
    · exact Nat.mod_eq_of_lt (by omega)
  refine ⟨Nat.mod_lt _ (by omega), ?_⟩
  intro k hk s hs
  have hs' : s.val + k + 1 = (next + 1) % n ∨ s.val + k + 1 = (next + 1) % n + n := hs
  rw [hnext] at hs'
  have hslt := s.isLt
  change (if s.val = next then x else slots s) = (x :: hist).getD k blank
  by_cases he : s.val = next
  · have hk0 : k = 0 := by
      split at hs' <;> omega
    rw [if_pos he, hk0]
    rfl
  · obtain ⟨m, rfl⟩ : ∃ m, k = m + 1 := by
      refine Nat.exists_eq_succ_of_ne_zero ?_
      rintro rfl
      split at hs' <;> omega
    have hprev : s.val + m + 1 = next ∨ s.val + m + 1 = next + n := by
      split at hs' <;> omega
    rw [if_neg he, h.kept m (by omega) s hprev]
    rfl

/-- What is in the ring is what was written last. -/
theorem Holds.mem_iff (h : Holds slots next blank hist) (hx : x ≠ blank) :
    (∃ s, slots s = x) ↔ x ∈ hist.take n := by
  have hlt := h.next_lt
  rw [List.mem_take_iff_getElem]
  constructor
  · rintro ⟨s, rfl⟩
    have hslt := s.isLt
    let k := if s.val < next then next - 1 - s.val else next + n - 1 - s.val
    have hk : k < n ∧ (s.val + k + 1 = next ∨ s.val + k + 1 = next + n) := by
      simp only [k]
      split <;> omega
    have hget := h.kept k hk.1 s hk.2
    have hlen : k < hist.length := by
      by_contra hge
      rw [List.getD_eq_default _ _ (Nat.not_lt.mp hge)] at hget
      exact hx hget
    refine ⟨k, ?_, ?_⟩
    · omega
    · rw [hget, List.getD_eq_getElem _ _ hlen]
  · rintro ⟨k, hk, rfl⟩
    have hkn : k < n := by omega
    let s : ℕ := if k < next then next - 1 - k else next + n - 1 - k
    have hs : s < n ∧ (s + k + 1 = next ∨ s + k + 1 = next + n) := by
      simp only [s]
      split <;> omega
    refine ⟨⟨s, hs.1⟩, ?_⟩
    rw [h.kept k hkn ⟨s, hs.1⟩ hs.2, List.getD_eq_getElem]

/-! ## Only new values are written -/

/-- Values are asked for one by one; those not found are written. -/
def ask [DecidableEq α] (slots : Fin n → α) (next : ℕ) (x : α) : Bool × (Fin n → α) × ℕ :=
  if (List.finRange n).any fun s => slots s = x then (true, slots, next)
  else (false, push slots next x)

/-- The values that were not found, the newest first. -/
def missed (log : List (α × Bool)) : List α := (log.filter fun e => !e.2).map Prod.fst

@[simp] theorem missed_nil : missed ([] : List (α × Bool)) = [] := rfl

@[simp] theorem missed_found (x : α) (log : List (α × Bool)) :
    missed ((x, true) :: log) = missed log := rfl

@[simp] theorem missed_new (x : α) (log : List (α × Bool)) :
    missed ((x, false) :: log) = x :: missed log := rfl

@[simp] theorem missed_append (log log' : List (α × Bool)) :
    missed (log ++ log') = missed log ++ missed log' := by
  simp [missed]

/-- Each value was found just when it was among the last `n` that were not. -/
def Faithful (n : ℕ) (log : List (α × Bool)) : Prop :=
  ∀ later x found earlier, log = later ++ (x, found) :: earlier →
    (found = true ↔ x ∈ (missed earlier).take n)

theorem faithful_nil : Faithful n ([] : List (α × Bool)) := by
  intro later x found earlier h
  have hlen := congrArg List.length h
  simp at hlen

theorem Faithful.cons {log : List (α × Bool)} (h : Faithful n log) {found : Bool}
    (hx : found = true ↔ x ∈ (missed log).take n) : Faithful n ((x, found) :: log) := by
  intro later y b earlier he
  cases later with
  | nil =>
    simp only [List.nil_append, List.cons.injEq, Prod.mk.injEq] at he
    obtain ⟨⟨rfl, rfl⟩, rfl⟩ := he
    exact hx
  | cons e later =>
    simp only [List.cons_append, List.cons.injEq] at he
    exact h later y b earlier he.2

/-- A value that comes back unknown has been pushed out by as many others as there are places. -/
theorem Faithful.apart {log later between earlier : List (α × Bool)} (h : Faithful n log)
    (hlog : log = later ++ (x, false) :: (between ++ (x, false) :: earlier)) :
    n ≤ (missed between).length := by
  by_contra hlt
  have hnew := h _ _ _ _ hlog
  have hmem : x ∈ (missed (between ++ (x, false) :: earlier)).take n := by
    rw [missed_append, missed_new, List.take_append, List.mem_append]
    right
    obtain ⟨m, hm⟩ : ∃ m, n - (missed between).length = m + 1 :=
      Nat.exists_eq_succ_of_ne_zero (by omega)
    rw [hm, List.take_succ_cons]
    exact List.mem_cons_self
  exact absurd (hnew.mpr hmem) Bool.false_ne_true

section

variable [DecidableEq α]

/-- A value is found when it is among those that were written last. -/
theorem Holds.ask_iff (h : Holds slots next blank hist) (hx : x ≠ blank) :
    (ask slots next x).1 = true ↔ x ∈ hist.take n := by
  rw [← h.mem_iff hx]
  unfold Ring.ask
  split
  · next hany => simpa using hany
  · next hany => simpa using hany

/-- The ring goes on holding what was written, which a value that is found is not again. -/
theorem Holds.ask_holds (h : Holds slots next blank hist) (x : α) :
    let r := ask slots next x
    Holds r.2.1 r.2.2 blank (if r.1 then hist else x :: hist) := by
  intro r
  unfold r Ring.ask
  split
  · exact h
  · exact h.push x

/-- One question: the answer is right, and the ring goes on holding what was not found. -/
theorem Holds.ask {log : List (α × Bool)} (h : Holds slots next blank (missed log))
    (hx : x ≠ blank) :
    let r := ask slots next x
    (r.1 = true ↔ x ∈ (missed log).take n) ∧
      Holds r.2.1 r.2.2 blank (missed ((x, r.1) :: log)) := by
  intro r
  have hholds := h.ask_holds x
  refine ⟨h.ask_iff hx, ?_⟩
  cases hr : r.1 with
  | true => simpa only [r, hr, if_true, missed_found] using hholds
  | false => simpa only [r, hr, Bool.false_eq_true, if_false, missed_new] using hholds

end

end LockGrid.Ring
