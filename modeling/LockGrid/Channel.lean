import Mathlib.Data.List.Basic
import Mathlib.Tactic.Linarith

/-!
# A channel that may lose messages

Messages are numbered as they are sent and stay in order; each is delivered or lost. Who has
handled the last one sent knows what it said.
-/

structure Channel (α : Type*) where
  sent : ℕ := 0
  last : Option α := none
  flight : List (ℕ × α) := []
  handled : ℕ := 0
  got : Option α := none

namespace Channel

variable {α : Type*}

def send (ch : Channel α) (a : α) : Channel α :=
  { ch with sent := ch.sent + 1, last := some a, flight := ch.flight ++ [(ch.sent + 1, a)] }

/-- The oldest message under way, if any, and the channel once it has been handled. -/
def deliver (ch : Channel α) : Option (α × Channel α) :=
  match ch.flight with
  | [] => none
  | (k, a) :: rest => some (a, { ch with flight := rest, handled := k, got := some a })

def lose (ch : Channel α) : Channel α := { ch with flight := ch.flight.tail }

/-- The last message sent has been handled. -/
def UpToDate (ch : Channel α) : Prop := ch.sent ≠ 0 ∧ ch.handled = ch.sent

instance (ch : Channel α) : Decidable ch.UpToDate := instDecidableAnd

structure Sound (ch : Channel α) : Prop where
  ascending : ch.flight.Pairwise fun e e' => e.1 < e'.1
  bounds : ∀ e ∈ ch.flight, ch.handled < e.1 ∧ e.1 ≤ ch.sent
  last : ∀ e ∈ ch.flight, e.1 = ch.sent → ch.last = some e.2
  handled_le : ch.handled ≤ ch.sent
  known : ch.handled = ch.sent → ch.got = ch.last
  spoken : ch.sent ≠ 0 → ch.last ≠ none

theorem sound_empty : Sound ({} : Channel α) :=
  ⟨List.Pairwise.nil, nofun, nofun, le_refl _, fun _ => rfl, fun h => absurd rfl h⟩

variable {ch ch' : Channel α}

theorem Sound.send (h : Sound ch) (a : α) : Sound (ch.send a) where
  ascending := by
    rw [Channel.send, List.pairwise_append]
    refine ⟨h.ascending, List.pairwise_singleton _ _, ?_⟩
    intro e he e' he'
    obtain rfl := List.mem_singleton.mp he'
    have hle := (h.bounds e he).2
    dsimp only
    omega
  bounds := by
    intro e he
    rcases List.mem_append.mp he with he | he
    · obtain ⟨hlo, hhi⟩ := h.bounds e he
      exact ⟨hlo, Nat.le_succ_of_le hhi⟩
    · obtain rfl := List.mem_singleton.mp he
      exact ⟨Nat.lt_succ_of_le h.handled_le, le_refl _⟩
  last := by
    intro e he hsent
    rcases List.mem_append.mp he with he | he
    · have hle := (h.bounds e he).2
      have hnew : e.1 = ch.sent + 1 := hsent
      omega
    · obtain rfl := List.mem_singleton.mp he
      rfl
  handled_le := Nat.le_succ_of_le h.handled_le
  known := by
    intro heq
    have hle := h.handled_le
    have hnew : ch.handled = ch.sent + 1 := heq
    omega
  spoken := fun _ => nofun

theorem Sound.lose (h : Sound ch) : Sound ch.lose where
  ascending := h.ascending.tail
  bounds := fun e he => h.bounds e (List.mem_of_mem_tail he)
  last := fun e he => h.last e (List.mem_of_mem_tail he)
  handled_le := h.handled_le
  known := h.known
  spoken := h.spoken

theorem Sound.deliver (h : Sound ch) {a : α} (hd : ch.deliver = some (a, ch')) : Sound ch' := by
  unfold Channel.deliver at hd
  split at hd
  · cases hd
  · next k b rest hflight =>
    obtain ⟨rfl, rfl⟩ := by simpa using hd
    obtain ⟨hfirst, hrest⟩ := List.pairwise_cons.mp (hflight ▸ h.ascending)
    have hmem : (k, b) ∈ ch.flight := hflight ▸ List.mem_cons_self
    have hsub : ∀ e ∈ rest, e ∈ ch.flight := fun e he => hflight ▸ List.mem_cons_of_mem _ he
    exact {
      ascending := hrest
      bounds := fun e he => ⟨hfirst e he, (h.bounds e (hsub e he)).2⟩
      last := fun e he => h.last e (hsub e he)
      handled_le := (h.bounds _ hmem).2
      known := fun hk => (h.last _ hmem hk).symm
      spoken := h.spoken }

theorem deliver_got {a : α} (hd : ch.deliver = some (a, ch')) :
    ch'.got = some a ∧ ch'.last = ch.last := by
  unfold Channel.deliver at hd
  split at hd
  · cases hd
  · obtain ⟨rfl, rfl⟩ := by simpa using hd
    exact ⟨rfl, rfl⟩

theorem mem_of_deliver {a : α} (hd : ch.deliver = some (a, ch')) :
    ∃ k, (k, a) ∈ ch.flight := by
  unfold Channel.deliver at hd
  split at hd
  · cases hd
  · next k b rest hflight =>
    obtain ⟨rfl, -⟩ := by simpa using hd
    exact ⟨k, hflight ▸ List.mem_cons_self⟩

theorem flight_of_deliver {a : α} (hd : ch.deliver = some (a, ch')) :
    ∀ e ∈ ch'.flight, e ∈ ch.flight := by
  unfold Channel.deliver at hd
  split at hd
  · cases hd
  · next k b rest hflight =>
    obtain ⟨rfl, rfl⟩ := by simpa using hd
    exact fun e he => hflight ▸ List.mem_cons_of_mem _ he

/-- Who is up to date knows what was said last. -/
theorem Sound.got_of_upToDate (h : Sound ch) (hu : ch.UpToDate) :
    ∃ a, ch.got = some a ∧ ch.last = some a := by
  obtain ⟨a, ha⟩ := Option.ne_none_iff_exists'.mp (h.spoken hu.1)
  exact ⟨a, (h.known hu.2).trans ha, ha⟩

end Channel
