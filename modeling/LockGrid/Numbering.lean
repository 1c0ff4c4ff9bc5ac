import LockGrid.Duplicates
import LockGrid.Subrates
import LockGrid.Traces

/-!
# Numbers of messages and the caches of others

A message is told from the others of its origin by a number of 16 bits, which starts anew with
the stack of the origin. The caches of the other nodes do not.
-/
namespace LockGrid

variable {cfg cfg' : Config} {psa : Psa} {c d e : Node cfg} {o : Oracle} {inp : Input}

/-! ## What `lg_send` queues -/

/-- All that is queued anew comes from `origin` and has the number `msgId`. -/
def Stamps (origin : Addr) (msgId : UInt16) (c d : Node cfg) : Prop :=
  ∀ q, d.txq q ≠ c.txq q → (d.txq q).origin = origin ∧ (d.txq q).msgId = msgId

namespace Stamps

variable {origin : Addr} {msgId : UInt16}

theorem of_txq (h : d.txq = c.txq) : Stamps origin msgId c d := by
  intro q hq
  exact absurd (congrFun h q) hq

theorem trans (h : Stamps origin msgId c d) (h' : Stamps origin msgId d e) :
    Stamps origin msgId c e := by
  intro q hq
  by_cases hlast : e.txq q = d.txq q
  · rw [hlast] at hq ⊢
    exact h q hq
  · exact h' q hlast

theorem enqueue (c : Node cfg) (k : Fin cfg.txQueueSize) {m : TxMsg} (horigin : m.origin = origin)
    (hmsg : m.msgId = msgId) : Stamps origin msgId c (enqueue c k m) := by
  intro q hq
  by_cases hk : q = k
  · subst hk
    simp only [LockGrid.enqueue, Function.update_self]
    exact ⟨horigin, hmsg⟩
  · simp only [LockGrid.enqueue, ne_eq, hk, not_false_eq_true, Function.update_of_ne,
      not_true_eq_false] at hq

end Stamps

theorem lgSchedExpedite_txq (c : Node cfg) (i : Fin cfg.maxNeighbors) :
    (lgSchedExpedite c i).txq = c.txq := by
  obtain ⟨s, h⟩ := lgSchedExpedite_eq c i
  rw [h]
  rfl

theorem lgRouteNextHop_txq (c : Node cfg) (final : Addr) (flags : UInt8) :
    (lgRouteNextHop c final flags).2.txq = c.txq := (lgRouteNextHop_quiet c final flags).txq

theorem sendCopies_stamps (m : TxMsg) (l : List (Fin cfg.maxNeighbors)) (st : ℕ × Node cfg) :
    Stamps m.origin m.msgId st.2 (sendCopies m l st).2 := by
  induction l generalizing st with
  | nil => exact .of_txq rfl
  | cons i rest ih =>
    obtain ⟨sent, c⟩ := st
    rw [sendCopies]
    split
    · exact ih (sent, c)
    · split
      · exact .of_txq rfl
      · next k _ =>
        have hqueued : Stamps m.origin m.msgId c
            (enqueue c k { m with finalDst := (c.neigh i).addr }) := .enqueue c k rfl rfl
        have hsped := hqueued.trans (.of_txq (lgSchedExpedite_txq _ i))
        exact hsped.trans (ih (sent + 1, _))

theorem lgSendForward_stamps (c : Node cfg) (m : TxMsg) :
    Stamps m.origin m.msgId c (lgSendForward c m).2 := by
  have hhop : Stamps m.origin m.msgId c (lgRouteNextHop c m.finalDst m.flags).2 :=
    .of_txq (lgRouteNextHop_txq c m.finalDst m.flags)
  unfold lgSendForward
  dsimp only
  split
  · exact .of_txq rfl
  · split
    · exact .of_txq rfl
    · split
      · exact sendCopies_stamps m _ (0, c)
      · split
        · exact hhop
        · split
          · exact hhop
          · exact hhop.trans (.enqueue _ _ rfl rfl)

/-- Only a node that runs queues anything. -/
theorem lgSendForward_stopped {m : TxMsg} (h : c.started = false) :
    (lgSendForward c m).2 = c := by
  unfold lgSendForward
  split
  · rfl
  · rw [if_pos (by simp [h])]

/-- What `lg_send` queues has the address of the node and the next number. -/
theorem lgSend_stamps (c : Node cfg) (dst : Addr) (port : UInt8) (payload : Bytes)
    (flags : UInt8) :
    Stamps c.ident.addr c.msgIdNext c (lgSend c dst port payload flags).2 := by
  have hcount : Stamps c.ident.addr c.msgIdNext c { c with msgIdNext := c.msgIdNext + 1 } :=
    .of_txq rfl
  have hback : c.msgIdNext + 1 - 1 = c.msgIdNext := UInt16.add_sub_cancel _ _
  unfold lgSend
  dsimp only
  split <;> next hs =>
    have h1 := congrArg Prod.snd hs ▸
      lgSendForward_stamps { c with msgIdNext := c.msgIdNext + 1 } _
    rw [hback] at h1
    first
      | exact hcount.trans h1
      | split
        · split
          · exact (hcount.trans h1).trans (.of_txq (lgSchedExpedite_txq _ _))
          · exact hcount.trans h1
        · exact hcount.trans h1

theorem lgSend_stopped {dst : Addr} {port : UInt8} {payload : Bytes} {flags : UInt8}
    (h : c.started = false) : (lgSend c dst port payload flags).2.txq = c.txq := by
  have hsame : ∀ m, (lgSendForward { c with msgIdNext := c.msgIdNext + 1 } m).2 =
      { c with msgIdNext := c.msgIdNext + 1 } := fun _ => lgSendForward_stopped h
  unfold lgSend
  dsimp only
  split <;> next hs =>
    have hd := (congrArg Prod.snd hs).symm.trans (hsame _)
    dsimp only at hd
    subst hd
    first
      | rfl
      | split
        · split
          · exact lgSchedExpedite_txq _ _
          · rfl
        · rfl

/-- What came to be queued. -/
def queuedBy (c c' : Node cfg) : List (Addr × UInt16) :=
  ((List.finRange cfg.txQueueSize).filter fun q => c'.txq q ≠ c.txq q).map fun q =>
    ((c'.txq q).origin, (c'.txq q).msgId)

theorem mem_queuedBy {msg : Addr × UInt16} : msg ∈ queuedBy c d ↔
    ∃ q, d.txq q ≠ c.txq q ∧ ((d.txq q).origin, (d.txq q).msgId) = msg := by
  simp [queuedBy]

/-! ## The calls of `lg_send` -/

/-- A call of `lg_send`: the life of the stack in which it was made, its number there and what
it has queued. -/
structure Issue where
  life : ℕ
  number : ℕ
  queued : List (Addr × UInt16)
  deriving DecidableEq

/-- The calls of `lg_send`, the first one first; the life of the stack and the next number. -/
structure Issues where
  life : ℕ := 0
  next : ℕ := 0
  issued : List Issue := []

/-- A step from `c` to `c'`. The stack comes to a new life when `lg_start` starts it, and then
numbers from 1. -/
def Issues.after (s : Issues) (c : Node cfg) (inp : Input) (c' : Node cfg) : Issues :=
  match inp with
  | .send _ _ _ _ =>
    { s with next := s.next + 1, issued := s.issued ++ [⟨s.life, s.next, queuedBy c c'⟩] }
  | .start => if c'.started = c.started then s else { s with life := s.life + 1, next := 1 }
  | _ => s

/-- The calls are numbered one after the other in each life, and so is what they queue. -/
structure Issues.Sound (s : Issues) (c : Node cfg) : Prop where
  address : c.started = true → c.ident.addr ≠ addrInvalid
  counter : c.msgIdNext = UInt16.ofNat s.next
  life_le : ∀ (k : ℕ) (m : Issue), s.issued[k]? = some m → m.life ≤ s.life
  current : ∀ (k : ℕ) (m : Issue), s.issued[k]? = some m → m.life = s.life →
    m.number + s.issued.length = s.next + k
  apart : ∀ (j k : ℕ) (a b : Issue), s.issued[j]? = some a → s.issued[k]? = some b →
    a.life = b.life → a.number + k = b.number + j
  queued : ∀ (k : ℕ) (m : Issue), s.issued[k]? = some m → ∀ msg ∈ m.queued,
    msg = (c.ident.addr, UInt16.ofNat m.number) ∧ c.ident.addr ≠ addrInvalid

theorem Issues.sound_boot (ident : Identity) :
    Issues.Sound {} (Node.boot cfg ident) where
  address := nofun
  counter := rfl
  life_le := by simp
  current := by simp
  apart := by simp
  queued := by simp

/-- Work that neither sends nor starts leaves the numbers alone. -/
theorem Issues.Sound.kept {s : Issues} (h : s.Sound c) (hident : d.ident = c.ident)
    (hstarted : d.started = true → c.started = true) (hnext : d.msgIdNext = c.msgIdNext) :
    s.Sound d where
  address := by
    rw [hident]
    exact fun hd => h.address (hstarted hd)
  counter := hnext.trans h.counter
  life_le := h.life_le
  current := h.current
  apart := h.apart
  queued := by
    rw [hident]
    exact h.queued

/-- A list and one element more. -/
theorem getElem?_snoc {α : Type*} {l : List α} {x y : α} {k : ℕ}
    (h : (l ++ [x])[k]? = some y) : l[k]? = some y ∨ k = l.length ∧ y = x := by
  rw [List.getElem?_append] at h
  split at h
  · exact .inl h
  · next hk =>
    rw [List.getElem?_singleton] at h
    split at h
    · next hz =>
      cases h
      exact .inr ⟨by omega, rfl⟩
    · cases h

theorem Issues.Sound.send {s : Issues} (h : s.Sound c) (dst : Addr) (port : UInt8)
    (payload : Bytes) (flags : UInt8) :
    (s.after c (.send dst port payload flags) (lgSend c dst port payload flags).2).Sound
      (lgSend c dst port payload flags).2 := by
  have hstamps := lgSend_stamps c dst port payload flags
  have hstopped : c.started = false → (lgSend c dst port payload flags).2.txq = c.txq :=
    lgSend_stopped
  have hmail := (lgSend_minds c dst port payload flags).mail
  generalize (lgSend c dst port payload flags).2 = d at hstamps hstopped hmail ⊢
  simp only [Node.mail, Prod.mk.injEq] at hmail
  obtain ⟨hident, hstarted, hnext, -⟩ := hmail
  let x : Issue := ⟨s.life, s.next, queuedBy c d⟩
  constructor
  · rw [hident, hstarted]
    exact h.address
  · rw [hnext, h.counter]
    exact (UInt16.ofNat_add s.next 1).symm
  · intro k m hk
    rcases getElem?_snoc hk with hold | ⟨-, rfl⟩
    · exact h.life_le k m hold
    · exact le_rfl
  · intro k m hk hlife
    change m.number + (s.issued ++ [x]).length = s.next + 1 + k
    rw [List.length_append, List.length_singleton]
    rcases getElem?_snoc hk with hold | ⟨rfl, rfl⟩
    · have hcur := h.current k m hold hlife
      omega
    · change s.next + (s.issued.length + 1) = s.next + 1 + s.issued.length
      omega
  · intro j k a b hj hk hlife
    rcases getElem?_snoc hj with hj' | ⟨rfl, rfl⟩
    · rcases getElem?_snoc hk with hk' | ⟨rfl, rfl⟩
      · exact h.apart j k a b hj' hk' hlife
      · exact h.current j a hj' hlife
    · rcases getElem?_snoc hk with hk' | ⟨rfl, rfl⟩
      · exact (h.current k b hk' hlife.symm).symm
      · rfl
  · intro k m hk msg hmsg
    rw [hident]
    rcases getElem?_snoc hk with hold | ⟨-, rfl⟩
    · exact h.queued k m hold msg hmsg
    · obtain ⟨q, hq, rfl⟩ := mem_queuedBy.mp hmsg
      obtain ⟨horigin, hmsgId⟩ := hstamps q hq
      refine ⟨Prod.ext horigin (hmsgId.trans h.counter), ?_⟩
      refine h.address ?_
      by_contra hs
      exact hq (congrFun (hstopped (Bool.not_eq_true _ ▸ hs)) q)

theorem Issues.Sound.start {s : Issues} (h : s.Sound c) (o : Oracle) :
    (s.after c .start (lgStart psa o c)).Sound (lgStart psa o c) := by
  rcases lgStart_minds psa o c with he | ⟨hoff, haddr, hm⟩
  · rw [he]
    have hsame : s.after c .start c = s := if_pos rfl
    rwa [hsame]
  · have hmail := hm.mail
    generalize lgStart psa o c = d at hmail ⊢
    simp only [Node.mail, Prod.mk.injEq] at hmail
    obtain ⟨hident, hstarted, hnext, -⟩ := hmail
    have hnew : s.after c .start d = { s with life := s.life + 1, next := 1 } := by
      refine if_neg ?_
      rw [hstarted, hoff]
      decide
    rw [hnew]
    constructor
    · rw [hident]
      exact fun _ => haddr
    · exact hnext
    · exact fun k m hk => Nat.le_succ_of_le (h.life_le k m hk)
    · intro k m hk hlife
      have hle := h.life_le k m hk
      change m.life = s.life + 1 at hlife
      omega
    · exact h.apart
    · rw [hident]
      exact h.queued

theorem Asks.numbers {q : Option (Addr × UInt16)} (h : Asks q c d) :
    d.ident = c.ident ∧ d.started = c.started ∧ d.msgIdNext = c.msgIdNext := by
  have hminds : ∀ {c d : Node cfg}, Minds c d →
      d.ident = c.ident ∧ d.started = c.started ∧ d.msgIdNext = c.msgIdNext := by
    intro c d h
    have hmail := h.mail
    simp only [Node.mail, Prod.mk.injEq] at hmail
    exact ⟨hmail.1, hmail.2.1, hmail.2.2.1⟩
  cases q with
  | none => exact hminds h
  | some msg =>
    obtain ⟨e, hce, hed⟩ := h
    have hquestion : (lgRouteIsDuplicate e msg.1 msg.2).2.ident = e.ident ∧
        (lgRouteIsDuplicate e msg.1 msg.2).2.started = e.started ∧
        (lgRouteIsDuplicate e msg.1 msg.2).2.msgIdNext = e.msgIdNext := by
      unfold lgRouteIsDuplicate
      split <;> exact ⟨rfl, rfl, rfl⟩
    obtain ⟨hi, hs, hn⟩ := hminds hce
    obtain ⟨hi', hs', hn'⟩ := hquestion
    obtain ⟨hi'', hs'', hn''⟩ := hminds hed
    exact ⟨hi''.trans (hi'.trans hi), hs''.trans (hs'.trans hs), hn''.trans (hn'.trans hn)⟩

theorem perform_ident (h : perform psa o c inp = some d) : d.ident = c.ident := by
  by_cases hsend : ∃ dst port payload flags, inp = .send dst port payload flags
  · obtain ⟨dst, port, payload, flags, rfl⟩ := hsend
    cases h
    exact congrArg Prod.fst (lgSend_minds c dst port payload flags).mail
  · by_cases hstart : inp = .start
    · subst hstart
      cases h
      rcases lgStart_minds psa o c with he | ⟨-, -, hm⟩
      · rw [he]
      · exact congrArg Prod.fst hm.mail
    · by_cases hstop : inp = .stop
      · subst hstop
        cases h
        exact congrArg Prod.fst (lgStop_minds o c).mail
      · refine (perform_asks h ?_ hstart hstop).numbers.1
        exact fun dst port payload flags he => hsend ⟨dst, port, payload, flags, he⟩

theorem Issues.Sound.step {s : Issues} (h : s.Sound c) (hp : perform psa o c inp = some d) :
    (s.after c inp d).Sound d := by
  cases inp with
  | send dst port payload flags =>
    cases hp
    exact h.send dst port payload flags
  | start =>
    cases hp
    exact h.start o
  | stop =>
    cases hp
    have hmail := (lgStop_minds o c).mail
    simp only [Node.mail, Prod.mk.injEq] at hmail
    exact h.kept hmail.1 (fun hd => absurd (hmail.2.1.symm.trans hd) (by decide)) hmail.2.2.1
  | _ =>
    obtain ⟨hident, hstarted, hnext⟩ := (perform_asks hp (by simp) (by simp) (by simp)).numbers
    exact h.kept hident (fun hd => hstarted.symm.trans hd) hnext

/-! ## An origin and a receiver -/

/-- What a receiver has asked its cache about: the calls of the origin whose messages have come,
and the messages that were new since it started, the newest first, each with its call. -/
structure Recall where
  arrived : List ℕ := []
  news : List ((Addr × UInt16) × Option ℕ) := []

/-- A step from `c` to `c'` that asks about the message `q` of the given call. -/
def Recall.after (h : Recall) (c : Node cfg) (inp : Input) (c' : Node cfg)
    (q : Option (Addr × UInt16)) (call : Option ℕ) : Recall :=
  match inp, q with
  | .start, _ => if c'.started = c.started then h else { h with news := [] }
  | _, none => h
  | _, some msg =>
    { arrived := call.toList ++ h.arrived
      news := if (lgRouteIsDuplicate c msg.1 msg.2).1 then h.news else (msg, call) :: h.news }

/-- Two nodes of a grid; what the first one has sent and what has come of it to the second. -/
structure Messaging (cfg cfg' : Config) where
  origin : Node cfg
  issues : Issues := {}
  receiver : Node cfg'
  memory : Recall := {}

/-- A message of the origin is one that a call of `lg_send` has queued, however often and over
whichever nodes it has come. -/
def Messaging.Carries (p : Messaging cfg cfg') (q : Option (Addr × UInt16))
    (call : Option ℕ) : Prop :=
  match q, call with
  | none, call => call = none
  | some msg, none => msg.1 ≠ p.origin.ident.addr
  | some msg, some k => msg.1 = p.origin.ident.addr ∧ ∃ m : Issue,
      p.issues.issued[k]? = some m ∧ msg ∈ m.queued

inductive Messaging.Step (psa : Psa) : Messaging cfg cfg' → Messaging cfg cfg' → Prop
  | origin {p : Messaging cfg cfg'} (o : Oracle) (inp : Input) {c : Node cfg}
      (henabled : Enabled p.origin inp) (h : perform psa o p.origin inp = some c) :
      Step psa p { p with origin := c, issues := p.issues.after p.origin inp c }
  | receiver {p : Messaging cfg cfg'} (o : Oracle) (inp : Input) (call : Option ℕ) {c : Node cfg'}
      (henabled : Enabled p.receiver inp) (h : perform psa o p.receiver inp = some c)
      (hcarries : p.Carries (asked psa o p.receiver inp) call) :
      Step psa p { p with
        receiver := c
        memory := p.memory.after p.receiver inp c (asked psa o p.receiver inp) call }

/-- The nodes before either has started. -/
def Messaging.boot (cfg cfg' : Config) (ident ident' : Identity) : Messaging cfg cfg' where
  origin := Node.boot cfg ident
  receiver := Node.boot cfg' ident'

/-- The receiver's cache holds a message of the origin's call `k`. -/
def Messaging.Cached (p : Messaging cfg cfg') (k : ℕ) : Prop :=
  ∃ msg, (msg, some k) ∈ p.memory.news.take dupCacheSize

/-- The cache holds the last new messages, those of the origin with the calls they are of. -/
structure Messaging.Tracked (p : Messaging cfg cfg') : Prop where
  sound : p.issues.Sound p.origin
  holds : Ring.Holds p.receiver.net.dupCache p.receiver.net.dupNext (0, 0)
    (p.memory.news.map Prod.fst)
  called : ∀ msg call, (msg, call) ∈ p.memory.news → p.Carries (some msg) call
  arrived : ∀ msg k, (msg, some k) ∈ p.memory.news → k ∈ p.memory.arrived

theorem Messaging.tracked_boot (ident ident' : Identity) :
    (Messaging.boot cfg cfg' ident ident').Tracked where
  sound := Issues.sound_boot ident
  holds := Ring.holds_blank (by decide) (0, 0)
  called := nofun
  arrived := nofun

/-- Calls are not forgotten. -/
theorem Issues.after_kept {s : Issues} {k : ℕ} {m : Issue} (h : s.issued[k]? = some m) :
    (s.after c inp d).issued[k]? = some m := by
  have hlt : k < s.issued.length := (List.getElem?_eq_some_iff.mp h).1
  unfold Issues.after
  split
  · change (s.issued ++ [_])[k]? = some m
    rw [List.getElem?_append_left hlt, h]
  · split
    · exact h
    · exact h
  · exact h

theorem Messaging.Carries.kept {p p' : Messaging cfg cfg'} {q : Option (Addr × UInt16)}
    {call : Option ℕ} (h : p.Carries q call) (hident : p'.origin.ident = p.origin.ident)
    (hissued : ∀ (k : ℕ) (m : Issue), p.issues.issued[k]? = some m →
      p'.issues.issued[k]? = some m) : p'.Carries q call := by
  unfold Messaging.Carries at h ⊢
  rw [hident]
  split at h
  · exact h
  · exact h
  · obtain ⟨haddr, m, hm, hmsg⟩ := h
    exact ⟨haddr, m, hissued _ m hm, hmsg⟩

/-- What a step of the receiver does to the cache is what it does to the record of it. -/
theorem Recall.after_holds {h : Recall} {call : Option ℕ}
    (hh : Ring.Holds c.net.dupCache c.net.dupNext (0, 0) (h.news.map Prod.fst))
    (hp : perform psa o c inp = some d) :
    Ring.Holds d.net.dupCache d.net.dupNext (0, 0)
      ((h.after c inp d (asked psa o c inp) call).news.map Prod.fst) := by
  have hkept : d.net.dupCache = c.net.dupCache ∧ d.net.dupNext = c.net.dupNext →
      Ring.Holds d.net.dupCache d.net.dupNext (0, 0) (h.news.map Prod.fst) := by
    intro hcache
    rw [hcache.1, hcache.2]
    exact hh
  cases inp with
  | send dst port payload flags =>
    cases hp
    exact hkept (lgSend_minds c dst port payload flags).cache
  | start =>
    cases hp
    rcases lgStart_minds psa o c with he | ⟨hoff, -, hm⟩
    · have hsame : h.after c .start (lgStart psa o c) (asked psa o c .start) call = h :=
        if_pos (by rw [he])
      rw [hsame]
      exact hkept (by rw [he]; exact ⟨rfl, rfl⟩)
    · have hstarted : (lgStart psa o c).started = true := congrArg (·.2.1) hm.mail
      have hnew : h.after c .start (lgStart psa o c) (asked psa o c .start) call =
          { h with news := [] } := by
        refine if_neg ?_
        rw [hstarted, hoff]
        decide
      rw [hnew, hm.cache.1, hm.cache.2]
      exact Ring.holds_blank (by decide) (0, 0)
  | stop =>
    cases hp
    exact hkept (lgStop_minds o c).cache
  | rxWork =>
    have hasks := perform_asks hp nofun nofun nofun
    cases hq : asked psa o c .rxWork with
    | none =>
      rw [hq] at hasks
      exact hkept (Minds.cache hasks)
    | some msg =>
      rw [hq] at hasks
      obtain ⟨hcache, hnext⟩ := hasks.cache
      have hring := hh.ask_holds msg
      rw [← lgRouteIsDuplicate_ask c msg.1 msg.2] at hring
      rw [hcache, hnext]
      have hnews : (h.after c .rxWork d (some msg) call).news.map Prod.fst =
          if (lgRouteIsDuplicate c msg.1 msg.2).1 then h.news.map Prod.fst
          else msg :: h.news.map Prod.fst := by
        change List.map Prod.fst (if _ then _ else _) = _
        split <;> rfl
      rw [hnews]
      exact hring
  | _ => exact hkept (Minds.cache (perform_asks hp nofun nofun nofun))

/-- What is new to the cache in a step is the message that the step asks about. -/
theorem Recall.after_news {h : Recall} {q : Option (Addr × UInt16)} {call call' : Option ℕ}
    {msg : Addr × UInt16} (hmem : (msg, call') ∈ (h.after c inp d q call).news) :
    (msg, call') ∈ h.news ∨ q = some msg ∧ call' = call ∧
      (h.after c inp d q call).arrived = call.toList ++ h.arrived := by
  unfold Recall.after at hmem ⊢
  split at hmem
  · left
    split at hmem
    · exact hmem
    · cases hmem
  · exact .inl hmem
  · next msg' _ =>
    dsimp only at hmem
    split at hmem
    · exact .inl hmem
    · rcases List.mem_cons.mp hmem with he | hold
      · cases he
        exact .inr ⟨rfl, rfl, rfl⟩
      · exact .inl hold

theorem Recall.arrived_after {h : Recall} {q : Option (Addr × UInt16)} {call : Option ℕ} {k : ℕ}
    (hk : k ∈ h.arrived) : k ∈ (h.after c inp d q call).arrived := by
  unfold Recall.after
  split
  · split <;> exact hk
  · exact hk
  · exact List.mem_append_right _ hk

theorem Messaging.Tracked.step {p p' : Messaging cfg cfg'} (h : p.Tracked)
    (hs : Messaging.Step psa p p') : p'.Tracked := by
  cases hs with
  | @origin o inp c henabled hp =>
    refine ⟨h.sound.step hp, h.holds, ?_, h.arrived⟩
    intro msg call hmem
    exact (h.called msg call hmem).kept (perform_ident hp) fun k m => Issues.after_kept
  | @receiver o inp call c henabled hp hcarries =>
    refine ⟨h.sound, Recall.after_holds h.holds hp, ?_, ?_⟩
    · intro msg call' hmem
      rcases Recall.after_news hmem with hold | ⟨hq, rfl, -⟩
      · exact (h.called msg call' hold).kept rfl fun _ _ => id
      · exact (hq ▸ hcarries).kept rfl fun _ _ => id
    · intro msg k hmem
      rcases Recall.after_news hmem with hold | ⟨-, rfl, harrived⟩
      · exact Recall.arrived_after (h.arrived msg k hold)
      · change k ∈ (p.memory.after p.receiver inp c _ (some k)).arrived
        rw [harrived]
        exact List.mem_append_left _ (by simp)

theorem Messaging.tracked {ident ident' : Identity} {p : Messaging cfg cfg'}
    (h : Relation.ReflTransGen (Messaging.Step psa) (.boot cfg cfg' ident ident') p) :
    p.Tracked := by
  induction h with
  | refl => exact tracked_boot ident ident'
  | tail _ hs ih => exact ih.step hs

/-- What the cache holds of a call is what the call has queued. -/
theorem Messaging.Tracked.cached {p : Messaging cfg cfg'} (h : p.Tracked) {msg : Addr × UInt16}
    {j : ℕ} (hmem : (msg, some j) ∈ p.memory.news.take dupCacheSize) :
    j ∈ p.memory.arrived ∧ ∃ a : Issue, p.issues.issued[j]? = some a ∧
      msg = (p.origin.ident.addr, UInt16.ofNat a.number) := by
  have hnews := List.mem_of_mem_take hmem
  obtain ⟨-, a, ha, hqueued⟩ := h.called msg (some j) hnews
  exact ⟨h.arrived msg j hnews, a, ha, (h.sound.queued j a ha msg hqueued).1⟩

theorem ofNat_eq_iff {a b : ℕ} : UInt16.ofNat a = UInt16.ofNat b ↔ a % 65536 = b % 65536 := by
  rw [← UInt16.toNat_inj, UInt16.toNat_ofNat', UInt16.toNat_ofNat']

/-- The two calls were made in different lives of the stack and were numbered the same there. -/
def Issue.Clashes (a b : Issue) : Prop :=
  a.life ≠ b.life ∧ a.number % 65536 = b.number % 65536

/-- In every run, a message of the origin that comes for the first time is taken for a duplicate
just when the cache holds a message that the origin sent in another life of its stack under the
same number. -/
theorem fresh_not_duplicate {ident ident' : Identity} {p : Messaging cfg cfg'}
    (h : Relation.ReflTransGen (Messaging.Step psa) (.boot cfg cfg' ident ident') p)
    {k : ℕ} {m : Issue} {msg : Addr × UInt16} (hk : p.issues.issued[k]? = some m)
    (hmsg : msg ∈ m.queued) (hnew : k ∉ p.memory.arrived)
    (hnear : ∀ j, p.Cached j → j < k + 65536 ∧ k < j + 65536) :
    (lgRouteIsDuplicate p.receiver msg.1 msg.2).1 = false ↔
      ∀ j (a : Issue), p.Cached j → p.issues.issued[j]? = some a → ¬ a.Clashes m := by
  have ht := Messaging.tracked h
  obtain ⟨rfl, haddr⟩ := ht.sound.queued k m hk msg hmsg
  have hblank : (p.origin.ident.addr, UInt16.ofNat m.number) ≠ (0, 0) := by
    intro he
    exact haddr (congrArg Prod.fst he)
  have hasked := ht.holds.ask_iff hblank
  rw [← lgRouteIsDuplicate_ask, ← List.map_take, List.mem_map] at hasked
  rw [← Bool.not_eq_true, hasked]
  constructor
  · rintro hnone j a ⟨msg, hmem⟩ ha ⟨-, hnumber⟩
    obtain ⟨-, a', ha', rfl⟩ := ht.cached hmem
    obtain rfl : a' = a := Option.some.inj (ha'.symm.trans ha)
    exact hnone ⟨_, hmem, Prod.ext rfl (ofNat_eq_iff.mpr hnumber)⟩
  · rintro hclash ⟨⟨msg, call⟩, hmem, rfl⟩
    cases call with
    | none => exact ht.called _ none (List.mem_of_mem_take hmem) rfl
    | some j =>
      obtain ⟨harrived, a, ha, hsame⟩ := ht.cached hmem
      have hnumber : m.number % 65536 = a.number % 65536 :=
        ofNat_eq_iff.mp (congrArg Prod.snd hsame)
      by_cases hlife : a.life = m.life
      · have hapart := ht.sound.apart j k a m ha hk hlife
        have hjk : j ≠ k := fun he => hnew (he ▸ harrived)
        obtain ⟨hj, hk'⟩ := hnear j ⟨_, hmem⟩
        omega
      · exact hclash j a ⟨_, hmem⟩ ha ⟨hlife, hnumber.symm⟩

/-! ## Two runs -/

/-- A step of one of the two nodes; one of the receiver with the call whose message comes. -/
inductive Messaging.Move
  | origin (o : Oracle) (inp : Input)
  | receiver (o : Oracle) (inp : Input) (call : Option ℕ)

instance (p : Messaging cfg cfg') (q : Option (Addr × UInt16)) (call : Option ℕ) :
    Decidable (p.Carries q call) := by
  rcases q with _ | msg
  · unfold Messaging.Carries
    infer_instance
  rcases call with _ | k
  · unfold Messaging.Carries
    infer_instance
  · exact decidable_of_iff (msg.1 = p.origin.ident.addr ∧
      (p.issues.issued[k]?).any (fun m => decide (msg ∈ m.queued)) = true)
      (by simp [Messaging.Carries, Option.any_eq_true])

def Messaging.next (psa : Psa) (p : Messaging cfg cfg') : Move → Option (Messaging cfg cfg')
  | .origin o inp =>
    if Enabled p.origin inp then
      (perform psa o p.origin inp).map fun c =>
        { p with origin := c, issues := p.issues.after p.origin inp c }
    else none
  | .receiver o inp call =>
    if Enabled p.receiver inp ∧ p.Carries (asked psa o p.receiver inp) call then
      (perform psa o p.receiver inp).map fun c =>
        { p with
          receiver := c
          memory := p.memory.after p.receiver inp c (asked psa o p.receiver inp) call }
    else none

theorem Messaging.next_step (psa : Psa) (p : Messaging cfg cfg') (m : Move)
    (p' : Messaging cfg cfg') (h : p.next psa m = some p') : Messaging.Step psa p p' := by
  cases m with
  | origin o inp =>
    rw [Messaging.next] at h
    split at h
    · next he =>
      obtain ⟨c, hc, rfl⟩ := Option.map_eq_some_iff.mp h
      exact .origin o inp he hc
    · cases h
  | receiver o inp call =>
    rw [Messaging.next] at h
    split at h
    · next he =>
      obtain ⟨c, hc, rfl⟩ := Option.map_eq_some_iff.mp h
      exact .receiver o inp call he.1 hc he.2
    · cases h

/-- What `joiner` and `router` sign, as in `rspTranscript`. -/
def joinTranscript (joiner router : Addr) : Bytes :=
  transcriptMsg 7 joiner router (List.replicate nonceLen 5) (List.replicate nonceLen 6)
    (List.replicate ecPubLen 5) (List.replicate ecPubLen 6)

def joinKey (joiner router : Addr) : Bytes :=
  Psa.plain.hkdf (List.replicate ecPrivLen 3) (joinTranscript joiner router) infoLink

def joinAnswer (joiner router : Addr) : Bytes :=
  List.replicate nonceLen 6 ++ List.replicate ecPubLen 6 ++
    plainCert router (plainPub router.toUInt8) ++
    plainSign (plainPub router.toUInt8) (joinTranscript joiner router)

/-- `joiner` starts and joins `router` in its first scan, in which the frames `more` come
besides. -/
def lifeRun (joiner router : Addr) (more : List RxRec) : List (Oracle × Input) :=
  let frag := plainFrag .joinRsp joiner router (joinAnswer joiner router)
  let frames := [plainBeacon router, frag 0, frag 1, frag 2,
    sealedFrag .joinAck joiner router (joinKey joiner router) 1 pacedParams.encode] ++ more
  [(calm 1, Input.start), (calm 1, .tuningSet patient), (calm 2, .schedWork), (calm 3, .tick 16000),
    (calm 3, .granted), (calm 3, .tick 5000)] ++
    (frames.map fun rx => (calm 4, Input.rxDone rx)) ++
    frames.mapIdx fun k _ => (calm (if k = 0 then 5 else 6), Input.rxWork)

/-- Node 1 joins `router` and sends the messages `sent` to node 4. -/
def originRun (router : Addr) (sent : List UInt8) : List Messaging.Move :=
  ((lifeRun 1 router []).map fun s => .origin s.1 s.2) ++
    sent.map fun b => .origin (calm 6) (.send 4 5 [b] 0)

/-- Node 4 joins node 2, and the first message of node 1 comes over it. -/
def receiverRun : List Messaging.Move :=
  (lifeRun 4 2 [sealedFrame .data 4 2 (joinKey 4 2) 2 [0, 1, 0, 4, 0, 1, 5, 1, 0, 42]]).mapIdx
    fun k s => .receiver s.1 s.2 (if k = 17 then some 0 else none)

theorem fresh_not_duplicate_second :
    ∃ p : Messaging .default .default, Relation.ReflTransGen (Messaging.Step Psa.plain)
        (.boot .default .default (plainIdent 1 1) (plainIdent 4 1)) p ∧
      p.Cached 0 ∧ 1 ∉ p.memory.arrived ∧ (lgRouteIsDuplicate p.receiver 1 2).1 = false := by
  obtain ⟨p, hrun, hend⟩ := Traces.exists_run (Messaging.next_step Psa.plain)
    (originRun 2 [42, 43] ++ receiverRun)
    (.boot .default .default (plainIdent 1 1) (plainIdent 4 1))
    (fun p => decide (p.memory.arrived = [0] ∧ p.memory.news = [((1, 1), some 0)] ∧
      p.issues.issued = [⟨1, 1, [(1, 1)]⟩, ⟨1, 2, [(1, 2)]⟩])) (by decide +kernel)
  obtain ⟨harrived, hnews, hissued⟩ := of_decide_eq_true hend
  have hcached : ∀ j, p.Cached j ↔ j = 0 := by
    intro j
    simp [Messaging.Cached, hnews, dupCacheSize]
  have hnew : 1 ∉ p.memory.arrived := by simp [harrived]
  refine ⟨p, hrun, (hcached 0).mpr rfl, hnew, ?_⟩
  have hsecond : p.issues.issued[1]? = some ⟨1, 2, [(1, 2)]⟩ := by
    rw [hissued]
    rfl
  refine (fresh_not_duplicate hrun hsecond List.mem_cons_self hnew ?_).mpr ?_
  · intro j hj
    obtain rfl := (hcached j).mp hj
    omega
  · intro j a hj ha hclash
    obtain rfl := (hcached j).mp hj
    rw [hissued] at ha
    cases ha
    exact hclash.1 rfl

/-- Node 1 stops, starts again and joins node 3. Node 4 takes its first message then for the one
that it has had. -/
theorem not_fresh_not_duplicate :
    ¬ ∀ (cfg cfg' : Config) (psa : Psa) (ident ident' : Identity) (p : Messaging cfg cfg'),
      Relation.ReflTransGen (Messaging.Step psa) (.boot cfg cfg' ident ident') p →
      ∀ (k : ℕ) (m : Issue) (msg : Addr × UInt16), p.issues.issued[k]? = some m →
        msg ∈ m.queued → k ∉ p.memory.arrived →
        (∀ j, p.Cached j → j < k + 65536 ∧ k < j + 65536) →
        (lgRouteIsDuplicate p.receiver msg.1 msg.2).1 = false := by
  intro h
  obtain ⟨p, hrun, hend⟩ := Traces.exists_run (Messaging.next_step Psa.plain)
    (originRun 2 [42] ++ receiverRun ++ .origin (calm 6) .stop :: originRun 3 [43])
    (.boot .default .default (plainIdent 1 1) (plainIdent 4 1))
    (fun p => decide (p.memory.arrived = [0] ∧ p.memory.news = [((1, 1), some 0)] ∧
      p.issues.issued = [⟨1, 1, [(1, 1)]⟩, ⟨2, 1, [(1, 1)]⟩] ∧
      (lgRouteIsDuplicate p.receiver 1 1).1 = true)) (by decide +kernel)
  obtain ⟨harrived, hnews, hissued, hdup⟩ := of_decide_eq_true hend
  have hfresh := h _ _ _ _ _ p hrun 1 ⟨2, 1, [(1, 1)]⟩ (1, 1) (by rw [hissued]; rfl) (by simp)
    (by simp [harrived]) ?_
  · rw [hdup] at hfresh
    exact absurd hfresh (by decide)
  · rintro j ⟨msg, hmem⟩
    simp only [hnews, dupCacheSize, List.take_succ_cons, List.take_nil, List.mem_singleton,
      Prod.mk.injEq, Option.some.injEq] at hmem
    omega

end LockGrid
