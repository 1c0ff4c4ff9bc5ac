import Mathlib.Data.List.Nodup
import Mathlib.Data.List.Perm.Subperm
import Mathlib.Logic.Relation
import Mathlib.Order.Defs.PartialOrder
import Mathlib.Order.Nat

/-!
# The best of a list near its start

One pass over a list keeps a best element that another replaces if it has the higher priority and
starts no later than a fixed slack after it. Since the best may move, the pass can go from one
element to another that is out of reach of the earliest.
-/
namespace Contest

variable {α : Type*} (start prio : α → ℕ) (slack : ℕ)

/-- The earliest element, and of several the first. -/
def first (l : List α) : Option α :=
  l.foldl (fun best c =>
    match best with
    | none => some c
    | some b => if start c < start b then some c else best) none

def challenge (b c : α) : α :=
  if start b + slack < start c then b
  else if prio b < prio c ∨ (prio c = prio b ∧ start c < start b) then c
  else b

/-- The pass begins with the earliest. -/
def winner (l : List α) : Option α :=
  (first start l).map fun e => l.foldl (challenge start prio slack) e

/-- In reach of all elements, and so of the earliest. -/
def Within (l : List α) (x : α) : Prop := ∀ z ∈ l, start x ≤ start z + slack

/-- Of those in reach of the earliest, of the highest priority, and the earliest of these. -/
@[mk_iff]
structure Wins (l : List α) (x : α) : Prop where
  mem : x ∈ l
  within : Within start slack l x
  best : ∀ y ∈ l, Within start slack l y → prio y < prio x ∨ prio y = prio x ∧ start x ≤ start y

/-- The second is in reach of the first and of a higher priority. -/
def Overtakes (a b : α) : Prop := start b ≤ start a + slack ∧ prio a < prio b

/-- The second is come to from the first, each time by one that overtakes. -/
def Leads (l : List α) : α → α → Prop :=
  Relation.ReflTransGen fun a b => b ∈ l ∧ Overtakes start prio slack a b

/-- What is come to from the earliest is of no higher priority than what is in its reach. -/
def Contained (l : List α) : Prop :=
  ∀ e ∈ l, (∀ z ∈ l, start e ≤ start z) → ∀ x, Leads start prio slack l e x →
    ∃ w ∈ l, Within start slack l w ∧ prio x ≤ prio w

variable {start prio slack} {l l' : List α} {e x y : α}

theorem foldl_eq_first (f : Option α → α → Option α) (hnone : ∀ c, f none c = some c)
    (hsome : ∀ b c, f (some b) c = if start c < start b then some c else some b) :
    l.foldl f none = first start l := by
  have hf : f = fun best c =>
      match best with
      | none => some c
      | some b => if start c < start b then some c else best := by
    funext best c
    cases best with
    | none => exact hnone c
    | some b => exact hsome b c
  rw [hf, first]

theorem first_spec (h : first start l = some e) : e ∈ l ∧ ∀ z ∈ l, start e ≤ start z := by
  have hfold : ∀ (l : List α) (b : α), l.foldl (fun best c =>
      match best with
      | none => some c
      | some b => if start c < start b then some c else best) (some b) = some e →
      e ∈ b :: l ∧ ∀ z ∈ b :: l, start e ≤ start z := by
    intro l
    induction l with
    | nil =>
      intro b h
      cases h
      simp
    | cons c l ih =>
      intro b h
      rw [List.foldl_cons] at h
      dsimp only at h
      split at h
      · obtain ⟨hmem, hle⟩ := ih c h
        refine ⟨List.mem_cons_of_mem b hmem, fun z hz => ?_⟩
        have hc := hle c List.mem_cons_self
        rcases List.mem_cons.mp hz with rfl | hz
        · omega
        · exact hle z hz
      · obtain ⟨hmem, hle⟩ := ih b h
        have hb := hle b List.mem_cons_self
        refine ⟨?_, fun z hz => ?_⟩
        · rcases List.mem_cons.mp hmem with rfl | hmem
          · exact List.mem_cons_self
          · exact List.mem_cons_of_mem b (List.mem_cons_of_mem c hmem)
        · rcases List.mem_cons.mp hz with rfl | hz
          · exact hb
          · rcases List.mem_cons.mp hz with rfl | hz
            · omega
            · exact hle z (List.mem_cons_of_mem b hz)
  cases l with
  | nil => cases h
  | cons b l => exact hfold l b h

theorem exists_first (start : α → ℕ) (h : x ∈ l) : ∃ e, first start l = some e := by
  have hfold : ∀ (l : List α) (b : α), ∃ e, l.foldl (fun best c =>
      match best with
      | none => some c
      | some b => if start c < start b then some c else best) (some b) = some e := by
    intro l
    induction l with
    | nil => exact fun b => ⟨b, rfl⟩
    | cons c l ih =>
      intro b
      rw [List.foldl_cons]
      dsimp only
      split
      · exact ih c
      · exact ih b
  cases l with
  | nil => cases h
  | cons b l => exact hfold l b

/-! ## What the pass comes to -/

/-- The best so far: it has come from the earliest and is beaten by none in reach. -/
structure Holds (start prio : α → ℕ) (slack : ℕ) (l p : List α) (e b : α) : Prop where
  mem : b ∈ l
  led : b = e ∨ ∃ a, Leads start prio slack l e a ∧ Overtakes start prio slack a b
  best : ∀ y ∈ p, Within start slack l y → prio y < prio b ∨ prio y = prio b ∧ start b ≤ start y

theorem Holds.leads {p : List α} {b : α} (h : Holds start prio slack l p e b) :
    Leads start prio slack l e b := by
  rcases h.led with rfl | ⟨a, ha, hover⟩
  · exact .refl
  · exact ha.tail ⟨h.mem, hover⟩

theorem Holds.challenge {p : List α} {b c : α} (h : Holds start prio slack l p e b)
    (he : ∀ z ∈ l, start e ≤ start z) (hel : e ∈ l) (hc : c ∈ l) :
    Holds start prio slack l (p ++ [c]) e (challenge start prio slack b c) := by
  have heb := he b h.mem
  unfold Contest.challenge
  split
  · next hfar =>
    refine ⟨h.mem, h.led, fun y hy hw => ?_⟩
    rcases List.mem_append.mp hy with hy | hy
    · exact h.best y hy hw
    · rw [List.mem_singleton.mp hy] at hw
      have hreach := hw e hel
      omega
  · next hnear =>
    split
    · next hbeats =>
      refine ⟨hc, ?_, fun y hy hw => ?_⟩
      · rcases hbeats with hprio | ⟨hprio, hstart⟩
        · exact .inr ⟨b, h.leads, by omega, hprio⟩
        · rcases h.led with rfl | ⟨a, ha, hover⟩
          · exact absurd (he c hc) (by omega)
          · obtain ⟨hreach, hlt⟩ := hover
            exact .inr ⟨a, ha, by omega, by omega⟩
      · rcases List.mem_append.mp hy with hy | hy
        · have hb := h.best y hy hw
          omega
        · rw [List.mem_singleton.mp hy]
          exact .inr ⟨rfl, le_rfl⟩
    · next hloses =>
      refine ⟨h.mem, h.led, fun y hy hw => ?_⟩
      rcases List.mem_append.mp hy with hy | hy
      · exact h.best y hy hw
      · rw [List.mem_singleton.mp hy]
        omega

theorem Holds.foldl {p : List α} {b : α} (h : Holds start prio slack l p e b)
    (he : ∀ z ∈ l, start e ≤ start z) (hel : e ∈ l) (q : List α) (hq : ∀ c ∈ q, c ∈ l) :
    Holds start prio slack l (p ++ q) e (q.foldl (Contest.challenge start prio slack) b) := by
  induction q generalizing p b with
  | nil => simpa using h
  | cons c q ih =>
    have hstep := ih (h.challenge he hel (hq c List.mem_cons_self)) fun d hd =>
      hq d (List.mem_cons_of_mem c hd)
    simpa using hstep

/-- The pass comes to a winner if what the earliest leads to is contained. -/
theorem wins_of_contained (hc : Contained start prio slack l)
    (h : winner start prio slack l = some x) : Wins start prio slack l x := by
  obtain ⟨e, he, rfl⟩ := Option.map_eq_some_iff.mp h
  obtain ⟨hel, hle⟩ := first_spec he
  have hbegin : Holds start prio slack l [] e e := ⟨hel, .inl rfl, nofun⟩
  have hend := hbegin.foldl hle hel l fun _ hd => hd
  rw [List.nil_append] at hend
  refine ⟨hend.mem, ?_, hend.best⟩
  obtain ⟨w, hw, hwithin, hprio⟩ := hc e hel hle _ hend.leads
  have hbest := hend.best w hw hwithin
  intro z hz
  have hwz := hwithin z hz
  omega

theorem Wins.unique (hl : ∀ a ∈ l, ∀ b ∈ l, start a = start b → a = b)
    (hx : Wins start prio slack l x) (hy : Wins start prio slack l y) : x = y := by
  have hxy := hx.best y hy.mem hy.within
  have hyx := hy.best x hx.mem hx.within
  exact hl x hx.mem y hy.mem (by omega)

/-! ## What an order of the list can make of it -/

theorem le_challenge (b c : α) : prio b ≤ prio (challenge start prio slack b c) := by
  unfold challenge
  split
  · exact le_rfl
  · split
    · omega
    · exact le_rfl

theorem le_foldl_challenge (q : List α) (b : α) :
    prio b ≤ prio (q.foldl (challenge start prio slack) b) := by
  induction q generalizing b with
  | nil => exact le_rfl
  | cons c q ih => exact (le_challenge b c).trans (ih _)

/-- An order in which the pass goes where the earliest leads. -/
theorem Leads.exists_pass (h : Leads start prio slack l e x) :
    ∃ q : List α, q.Nodup ∧ q ⊆ l ∧ (∀ a ∈ q, prio a ≤ prio x) ∧
      q.foldl (challenge start prio slack) e = x := by
  induction h with
  | refl => exact ⟨[], List.nodup_nil, List.nil_subset l, nofun, rfl⟩
  | @tail b c _ hstep ih =>
    obtain ⟨q, hnodup, hsub, hprio, hfold⟩ := ih
    obtain ⟨hc, hreach, hlt⟩ := hstep
    refine ⟨q ++ [c], ?_, ?_, fun a ha => ?_, ?_⟩
    · rw [List.nodup_append]
      refine ⟨hnodup, List.nodup_singleton c, fun a ha b hb hab => ?_⟩
      have hac : a = c := hab.trans (List.mem_singleton.mp hb)
      have hle := hprio a ha
      rw [hac] at hle
      omega
    · exact List.append_subset.mpr ⟨hsub, List.cons_subset.mpr ⟨hc, List.nil_subset l⟩⟩
    · rcases List.mem_append.mp ha with ha | ha
      · exact (hprio a ha).trans hlt.le
      · rw [List.mem_singleton.mp ha]
    · rw [List.foldl_append, hfold, List.foldl_cons, List.foldl_nil, challenge, if_neg (by omega),
        if_pos (.inl hlt)]

/-- Only the members of the list count. -/
theorem contained_congr (h : ∀ a, a ∈ l' ↔ a ∈ l) :
    Contained start prio slack l' ↔ Contained start prio slack l := by
  simp only [Contained, Leads, Within, h]

theorem wins_congr (h : ∀ a, a ∈ l' ↔ a ∈ l) :
    Wins start prio slack l' x ↔ Wins start prio slack l x := by
  simp only [wins_iff, Within, h]

/-- In whatever order the list comes the pass finds the winner, exactly if what the earliest
leads to is contained. -/
theorem winner_iff (hl : ∀ a ∈ l, ∀ b ∈ l, start a = start b → a = b) :
    (∀ l', l'.Perm l → ∀ x, winner start prio slack l' = some x ↔ Wins start prio slack l x) ↔
      Contained start prio slack l := by
  constructor
  · intro h e he hle x hx
    obtain ⟨q, hnodup, hsub, -, hfold⟩ := hx.exists_pass
    -- the way to `x` comes first in the list, and the pass goes it
    obtain ⟨q', hq', hsublist⟩ := List.subperm_of_subset hnodup hsub
    obtain ⟨rest, hrest⟩ := hsublist.exists_perm_append
    have hperm : (q ++ rest).Perm l := (hq'.symm.append_right rest).trans hrest.symm
    obtain ⟨e', he'⟩ := exists_first start (hperm.mem_iff.mpr he)
    obtain ⟨hmem, hmin⟩ := first_spec he'
    have hee : e' = e := by
      have h₁ := hle e' (hperm.mem_iff.mp hmem)
      have h₂ := hmin e (hperm.mem_iff.mpr he)
      exact hl e' (hperm.mem_iff.mp hmem) e he (by omega)
    have hwin : winner start prio slack (q ++ rest) =
        some (rest.foldl (challenge start prio slack) x) := by
      rw [winner, he', hee, Option.map_some, List.foldl_append, hfold]
    have hwins := (h _ hperm _).mp hwin
    exact ⟨_, hwins.mem, hwins.within, le_foldl_challenge rest x⟩
  · intro hc l' hperm x
    have hwins : ∀ y, winner start prio slack l' = some y → Wins start prio slack l y :=
      fun y hy => (wins_congr fun a => hperm.mem_iff).mp
        (wins_of_contained ((contained_congr fun a => hperm.mem_iff).mpr hc) hy)
    refine ⟨hwins x, fun hx => ?_⟩
    obtain ⟨e, he⟩ := exists_first start (hperm.mem_iff.mpr hx.mem)
    have hwin : winner start prio slack l' = some (l'.foldl (challenge start prio slack) e) := by
      rw [winner, he, Option.map_some]
    rw [hwin, (hwins _ hwin).unique hl hx]

end Contest
