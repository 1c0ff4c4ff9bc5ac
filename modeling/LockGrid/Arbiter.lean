import LockGrid.Sched

/-!
# The arbiter of a node that owns the radio

`lg_ts_direct.c`: one compare channel fires at the start of the event that is asked for. There is
at most one request, and a new one takes the place of one that has not been answered.
-/
namespace LockGrid

/-- Closest to now that the compare channel can be set. -/
def tsMinLeadUs : ℕ := 5

inductive TsErr
  | inval
  /-- The compare channel could not be set. -/
  | timer
  | busy
  deriving DecidableEq, Repr

/-- A call back into the scheduler. -/
inductive TsCall
  | granted
  | failed
  deriving DecidableEq, Repr

structure Direct where
  granted : Bool := false
  grantEndUs : ℕ := 0
  reqPending : Bool := false
  reqRefuse : Bool := false
  reqAtUs : ℕ := 0
  reqLenUs : ℕ := 0
  /-- When the compare channel fires. -/
  compare : Option ℕ := none
  deriving DecidableEq, Repr

namespace Direct

/-- `armed` is whether the compare channel takes the target, `refuse` whether the synthetic
contention strikes. -/
def lgTsRequest (s : Direct) (nowUs atUs lenUs : ℕ) (armed refuse : Bool) :
    Except TsErr Unit × Direct :=
  if atUs < nowUs + tsMinLeadUs then (.error .inval, s)
  else
    let s := { s with
      reqAtUs := atUs
      reqLenUs := min lenUs tsMaxGrantUs
      reqPending := armed
      reqRefuse := refuse
      compare := none }
    if armed then (.ok (), { s with compare := some atUs }) else (.error .timer, s)

def lgTsRelease (s : Direct) : Direct := { s with granted := false, grantEndUs := 0 }

def lgTsUninit (s : Direct) : Direct :=
  { s with granted := false, reqPending := false, compare := none }

def lgTsGrantEndUs (s : Direct) : ℕ := if s.granted then s.grantEndUs else 0

/-- The compare channel has fired. -/
def grantHandler (s : Direct) : Option TsCall × Direct :=
  let s := { s with compare := none }
  if !s.reqPending then (none, s)
  else
    let s := { s with reqPending := false }
    if s.reqRefuse then (some .failed, { s with reqRefuse := false })
    else (some .granted, { s with granted := true, grantEndUs := s.reqAtUs + s.reqLenUs })

@[simp] theorem lgTsRelease_granted (s : Direct) : s.lgTsRelease.granted = false := rfl
@[simp] theorem lgTsRelease_reqPending (s : Direct) : s.lgTsRelease.reqPending = s.reqPending := rfl
@[simp] theorem lgTsRelease_reqAtUs (s : Direct) : s.lgTsRelease.reqAtUs = s.reqAtUs := rfl
@[simp] theorem lgTsRelease_compare (s : Direct) : s.lgTsRelease.compare = s.compare := rfl

end Direct

end LockGrid
