import Mathlib.Data.List.Sort

/-!
# The least few of a stream

A list of at most `k` entries is kept in ascending order while values arrive one by one; a
value that no longer fits drops out. At the end it holds the `k` least of all that arrived.
-/
namespace Selection

variable {α : Type*} [LinearOrder α]

/-- Insert into an ascending list of at most `k` entries. -/
def insertLeast (k : ℕ) (a : α) : List α → List α
  | [] => if 0 < k then [a] else []
  | b :: l => if a ≤ b then (a :: b :: l).take k else b :: insertLeast (k - 1) a l

def least (k : ℕ) (l : List α) : List α := l.foldl (fun best a => insertLeast k a best) []

/-- Cutting a list to `k` entries before or after an insertion is the same. -/
theorem insertLeast_take (k : ℕ) (a : α) (l : List α) :
    insertLeast k a (l.take k) = (l.orderedInsert (· ≤ ·) a).take k := by
  induction l generalizing k with
  | nil => cases k <;> simp [insertLeast]
  | cons b l ih =>
    cases k with
    | zero => simp [insertLeast]
    | succ k =>
      have hcut : (b :: l.take k).take k = (b :: l).take k := by
        cases k <;> simp [List.take_take]
      by_cases hab : a ≤ b
      · simp [insertLeast, hab, hcut]
      · simp [insertLeast, hab, ih]

theorem foldl_insertLeast_take (k : ℕ) (l s : List α) :
    l.foldl (fun best a => insertLeast k a best) (s.take k) =
      (l.foldl (fun s a => s.orderedInsert (· ≤ ·) a) s).take k := by
  induction l generalizing s with
  | nil => rfl
  | cons a l ih =>
    simp only [List.foldl_cons]
    rw [insertLeast_take, ih]

theorem foldl_orderedInsert_perm (l s : List α) :
    (l.foldl (fun s a => s.orderedInsert (· ≤ ·) a) s).Perm (l ++ s) := by
  induction l generalizing s with
  | nil => exact .refl _
  | cons a l ih =>
    have hins : (l ++ s.orderedInsert (· ≤ ·) a).Perm (l ++ a :: s) :=
      (List.perm_orderedInsert _ a s).append_left l
    exact (ih _).trans (hins.trans List.perm_middle)

theorem foldl_orderedInsert_pairwise (l s : List α) (h : s.Pairwise (· ≤ ·)) :
    (l.foldl (fun s a => s.orderedInsert (· ≤ ·) a) s).Pairwise (· ≤ ·) := by
  induction l generalizing s with
  | nil => exact h
  | cons a l ih => exact ih _ (h.orderedInsert a _)

/-- What is kept is the front of the whole stream in ascending order. -/
theorem exists_sorted_take_eq_least (k : ℕ) (l : List α) (hl : l.Nodup) :
    ∃ s : List α, s.Perm l ∧ s.Pairwise (· < ·) ∧ least k l = s.take k := by
  have hperm := foldl_orderedInsert_perm l []
  rw [List.append_nil] at hperm
  refine ⟨_, hperm, ?_, by simpa [least] using foldl_insertLeast_take k l []⟩
  have hsorted := foldl_orderedInsert_pairwise l [] List.Pairwise.nil
  have hnodup : List.Pairwise (· ≠ ·) _ := hperm.nodup_iff.mpr hl
  exact (hsorted.and hnodup).imp fun h => lt_of_le_of_ne h.1 h.2

/-- An entry of an ascending list is among the first `k` if fewer than `k` lie below it. -/
theorem mem_take_iff {k : ℕ} {s : List α} (hs : s.Pairwise (· < ·)) {a : α} :
    a ∈ s.take k ↔ a ∈ s ∧ (s.filter (· < a)).length < k := by
  induction s generalizing k with
  | nil => simp
  | cons b s ih =>
    obtain ⟨hb, hs⟩ := List.pairwise_cons.mp hs
    cases k with
    | zero => simp
    | succ k =>
      rcases eq_or_ne a b with rfl | hne
      · have hnone : s.filter (· < a) = [] := by
          simp only [List.filter_eq_nil_iff, decide_eq_true_eq, not_lt]
          exact fun x hx => (hb x hx).le
        simp [hnone]
      · by_cases hmem : a ∈ s
        · have hba := hb a hmem
          simp [hne, ih hs, hmem, hba]
        · have hcut : a ∉ s.take k := fun h => hmem (List.mem_of_mem_take h)
          simp [hne, hmem, hcut]

theorem mem_least {k : ℕ} {l : List α} (hl : l.Nodup) {a : α} :
    a ∈ least k l ↔ a ∈ l ∧ (l.filter (· < a)).length < k := by
  obtain ⟨s, hperm, hs, heq⟩ := exists_sorted_take_eq_least k l hl
  rw [heq, mem_take_iff hs, hperm.mem_iff, (hperm.filter _).length_eq]

theorem least_nodup {k : ℕ} {l : List α} (hl : l.Nodup) : (least k l).Nodup := by
  obtain ⟨s, hperm, -, heq⟩ := exists_sorted_take_eq_least k l hl
  rw [heq]
  exact (hperm.nodup_iff.mpr hl).sublist (List.take_sublist k s)

/-- The first entry kept is the least of all. -/
theorem least_head_le {k : ℕ} {l rest : List α} (hl : l.Nodup) {a b : α}
    (h : least k l = a :: rest) (hb : b ∈ l) : a ≤ b := by
  obtain ⟨s, hperm, hs, heq⟩ := exists_sorted_take_eq_least k l hl
  rw [h] at heq
  cases k with
  | zero => simp at heq
  | succ k =>
    cases s with
    | nil => simp at heq
    | cons c s =>
      obtain rfl : a = c := by simpa using congrArg List.head? heq
      rcases List.mem_cons.mp (hperm.mem_iff.mpr hb) with rfl | hmem
      · exact le_refl _
      · exact ((List.pairwise_cons.mp hs).1 b hmem).le

end Selection
