import LockGrid.Chan
import LockGrid.Sec

/-!
# Neighbour table and link quality

`lg_neigh.c` but for `lg_neigh_make_room`, which takes links down.
-/
namespace LockGrid

variable {cfg : Config}

def etxOne : ℕ := 16
def etxMax : ℕ := etxOne * 8
def rssiWeakDbm : ℤ := -88
def rssiPenaltyPerDb : ℕ := 2
/-- `INT8_MIN`, for an RSSI that was never measured. -/
def rssiNone : ℤ := -128

/-! ## The table -/

def lgNeighFind (c : Node cfg) (addr : Addr) : Option (Fin cfg.maxNeighbors) :=
  if addr = addrInvalid then none
  else (List.finRange cfg.maxNeighbors).find? fun i =>
    (c.neigh i).state ≠ .free && (c.neigh i).addr = addr

def Neigh.fresh (addr : Addr) : Neigh :=
  { state := .heard, addr := addr, sched := { subrate := 1, subrateMax := 1 } }

def View.fresh : View :=
  { rssi := rssiNone, etxQ4 := etxOne, peerRank := rankInfinite, linkCost := rankInfinite }

/-- The identifiers that are gone once the keys are overwritten. -/
def overwritten (lost : List ℕ) (k : Keys) : List ℕ := if k.keyNo = 0 then lost else k.keyNo :: lost

def Node.overwrite (c : Node cfg) (i : Fin cfg.maxNeighbors) : Node cfg :=
  { c with hist := { c.hist with lost := overwritten c.hist.lost (c.neigh i).keys } }

section

variable (c : Node cfg) (i : Fin cfg.maxNeighbors)

@[simp] theorem Node.overwrite_neigh : (c.overwrite i).neigh = c.neigh := rfl
@[simp] theorem Node.overwrite_view : (c.overwrite i).view = c.view := rfl
@[simp] theorem Node.overwrite_net : (c.overwrite i).net = c.net := rfl
@[simp] theorem Node.overwrite_hs : (c.overwrite i).hs = c.hs := rfl
@[simp] theorem Node.overwrite_ident : (c.overwrite i).ident = c.ident := rfl

variable {c i}

theorem Node.overwrite_of_keyless (h : (c.neigh i).keys.keyNo = 0) : c.overwrite i = c := by
  rw [Node.overwrite, overwritten, if_pos h]

end

def lgNeighAlloc (c : Node cfg) (addr : Addr) : Option (Fin cfg.maxNeighbors) × Node cfg :=
  match lgNeighFind c addr with
  | some i => (some i, c)
  | none =>
    match (List.finRange cfg.maxNeighbors).find? fun i => (c.neigh i).state = .free with
    | some i =>
      (some i, (((c.overwrite i).setNeigh i (.fresh addr)).setView i .fresh).note i .wiped)
    | none => (none, c)

def lgNeighFree (c : Node cfg) (i : Fin cfg.maxNeighbors) : Node cfg :=
  (((lgSecForgetKey c i).setNeigh i {}).setView i {}).note i .wiped

/-- A freed entry is empty, and its key destroyed. -/
theorem lgNeighFree_eq (c : Node cfg) (i : Fin cfg.maxNeighbors) :
    lgNeighFree c i = (((c.destroyKey i).setNeigh i {}).setView i {}).note i .wiped := by
  rw [lgNeighFree, lgSecForgetKey_setNeigh]

/-- Nothing is written but the table and the record of its keys. -/
theorem lgNeighFree_table (c : Node cfg) (i : Fin cfg.maxNeighbors) :
    ∃ neigh view live dealings, lgNeighFree c i = { c with
      neigh := neigh, view := view,
      hist := { c.hist with live := live, dealings := dealings } } := by
  rw [lgNeighFree_eq]
  exact ⟨_, _, _, _, rfl⟩

theorem lgNeighFree_rest (c : Node cfg) (i : Fin cfg.maxNeighbors) :
    (lgNeighFree c i).hs = c.hs ∧ (lgNeighFree c i).net = c.net := by
  obtain ⟨_, _, _, _, h⟩ := lgNeighFree_table c i
  rw [h]
  exact ⟨rfl, rfl⟩

def lgNeighLinkedCount (c : Node cfg) : ℕ :=
  ((List.finRange cfg.maxNeighbors).filter fun i => (c.neigh i).state = .linked).length

/-! ## Metrics -/

def View.updateCost (v : View) : View :=
  let penalty := if v.rssi ≠ rssiNone ∧ v.rssi < rssiWeakDbm then
      (rssiWeakDbm - v.rssi).toNat * rssiPenaltyPerDb
    else 0
  { v with linkCost := min (v.etxQ4 + penalty) (rankInfinite - 1) }

def View.txResult (v : View) (acked : Bool) : View :=
  let attempts := v.txAttempts + 1
  let tally := if acked then v.txAcked + 1 else v.txAcked
  let sample : ℤ := if acked then etxOne else etxOne * 4
  let halve := 128 ≤ attempts
  { v with
    txAttempts := if halve then attempts / 2 else attempts
    txAcked := if halve then tally / 2 else tally
    consecMisses := if acked then 0 else (v.consecMisses + 1) % 256
    etxQ4 := (max (etxOne : ℤ) (min (lgEwma v.etxQ4 sample true) etxMax)).toNat }.updateCost

/-- Enter an outcome of neighbour `i` into the history. -/
def noteResult (c : Node cfg) (i : Fin cfg.maxNeighbors) (acked : Bool) : Node cfg :=
  { c with hist := { c.hist with results := (i, acked) :: c.hist.results } }

def lgNeighTxResult (c : Node cfg) (i : Fin cfg.maxNeighbors) (acked : Bool) : Node cfg :=
  (noteResult c i acked).setView i ((c.view i).txResult acked)

def lgNeighRxRssi (c : Node cfg) (i : Fin cfg.maxNeighbors) (rssi : ℤ) : Node cfg :=
  let v := c.view i
  c.setView i { v with rssi := lgEwma v.rssi rssi (v.rssi ≠ rssiNone) }

def lgNeighUpdateCost (c : Node cfg) (i : Fin cfg.maxNeighbors) : Node cfg :=
  c.setView i (c.view i).updateCost

theorem setView_quiet (c : Node cfg) (i : Fin cfg.maxNeighbors) (v : View) :
    Node.Quiet c (c.setView i v) := ⟨_, _, rfl⟩

theorem lgNeighTxResult_quiet (c : Node cfg) (i : Fin cfg.maxNeighbors) (acked : Bool) :
    Node.Quiet (noteResult c i acked) (lgNeighTxResult c i acked) := ⟨_, _, rfl⟩

theorem lgNeighRxRssi_quiet (c : Node cfg) (i : Fin cfg.maxNeighbors) (rssi : ℤ) :
    Node.Quiet c (lgNeighRxRssi c i rssi) := ⟨_, _, rfl⟩

theorem lgNeighUpdateCost_quiet (c : Node cfg) (i : Fin cfg.maxNeighbors) :
    Node.Quiet c (lgNeighUpdateCost c i) := ⟨_, _, rfl⟩

theorem lgNeighFind_spec {c : Node cfg} {addr : Addr} {i : Fin cfg.maxNeighbors}
    (h : lgNeighFind c addr = some i) :
    (c.neigh i).state ≠ .free ∧ (c.neigh i).addr = addr ∧ addr ≠ addrInvalid := by
  unfold lgNeighFind at h
  split_ifs at h with ha
  have := List.find?_some h
  simp only [ne_eq, decide_not, Bool.and_eq_true, Bool.not_eq_true', decide_eq_false_iff_not,
    decide_eq_true_eq] at this
  exact ⟨this.1, this.2, ha⟩

theorem lgNeighFind_none {c : Node cfg} {addr : Addr} (h : lgNeighFind c addr = none)
    (ha : addr ≠ addrInvalid) (i : Fin cfg.maxNeighbors) (hi : (c.neigh i).state ≠ .free) :
    (c.neigh i).addr ≠ addr := by
  unfold lgNeighFind at h
  rw [if_neg ha, List.find?_eq_none] at h
  simpa [hi] using h i (List.mem_finRange i)

/-- Allocation returns the entry it finds, if there is one or no other is free, or wipes a free
one. -/
theorem lgNeighAlloc_cases (c : Node cfg) (addr : Addr) :
    (lgNeighAlloc c addr = (lgNeighFind c addr, c) ∧
      (lgNeighFind c addr = none → ∀ i, (c.neigh i).state ≠ .free)) ∨
    ∃ i, (c.neigh i).state = .free ∧ lgNeighFind c addr = none ∧
      lgNeighAlloc c addr =
        (some i, (((c.overwrite i).setNeigh i (.fresh addr)).setView i .fresh).note i .wiped) := by
  unfold lgNeighAlloc
  cases hf : lgNeighFind c addr with
  | some i => exact .inl ⟨rfl, nofun⟩
  | none =>
    cases hs : (List.finRange cfg.maxNeighbors).find? fun i => (c.neigh i).state = .free with
    | none =>
      refine .inl ⟨rfl, fun _ i => ?_⟩
      simpa using List.find?_eq_none.mp hs i (List.mem_finRange i)
    | some i =>
      refine .inr ⟨i, ?_, rfl, rfl⟩
      simpa using List.find?_some hs

theorem lgNeighAlloc_table (c : Node cfg) (addr : Addr) :
    ∃ neigh view lost dealings, (lgNeighAlloc c addr).2 = { c with
      neigh := neigh, view := view,
      hist := { c.hist with lost := lost, dealings := dealings } } := by
  rcases lgNeighAlloc_cases c addr with ⟨h, -⟩ | ⟨i, -, -, h⟩ <;> rw [h]
  · exact ⟨c.neigh, c.view, c.hist.lost, c.hist.dealings, rfl⟩
  · exact ⟨_, _, _, _, rfl⟩

end LockGrid
