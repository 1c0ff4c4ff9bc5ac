import LockGrid.State

/-!
# Channels

`lg_chan.c`: the hop sequence over a channel map, the error statistics of each channel and
the map they lead to.
-/
namespace LockGrid

variable {cfg : Config}

def chanMinSamples : ℕ := 12
def chanDecayAt : ℕ := 64

/-- Channels 15, 20, 25 and 26, which sit between the Wi-Fi channels. -/
def chanPreferredMask : UInt16 := 0xC210

def chanBit (map : UInt16) (i : ℕ) : Bool := map.toBitVec.getLsbD i

def lgChanMapCount (map : UInt16) : ℕ := ((List.range chanCount).filter (chanBit map)).length

def lgChanRemap (map : UInt16) (index : UInt16) : ℕ :=
  let n := lgChanMapCount map
  match ((List.range chanCount).filter (chanBit map))[index.toNat % n]? with
  | some i => chanFirst + i
  | none => chanFirst

def csaPermute (v : UInt16) : UInt16 :=
  let v := ((v &&& 0xAAAA) >>> 1) ||| ((v &&& 0x5555) <<< 1)
  let v := ((v &&& 0xCCCC) >>> 2) ||| ((v &&& 0x3333) <<< 2)
  let v := ((v &&& 0xF0F0) >>> 4) ||| ((v &&& 0x0F0F) <<< 4)
  (v >>> 8) ||| (v <<< 8)

def csaMam (a b : UInt16) : UInt16 := 17 * a + b

def mix16 (x : UInt16) : UInt16 :=
  let x := x ^^^ (x >>> 8)
  let x := x * 0x2B9D
  let x := x ^^^ (x >>> 7)
  let x := x * 0x1B2D
  x ^^^ (x >>> 9)

/-- Channel for event `counter` of a link with seed `seed`. -/
def lgChanHop (map seed counter : UInt16) : ℕ :=
  let round := fun prn => csaMam (csaPermute prn) seed
  lgChanRemap map (mix16 (round (round (round (counter ^^^ seed))) ^^^ seed))

/-- `lg_ewma`: C division rounds towards zero. -/
def lgEwma (old sample : ℤ) (seeded : Bool) : ℤ :=
  if seeded then Int.tdiv (old * 7 + sample) 8 else sample

def ChanStat.result (cs : ChanStat) (ok : Bool) : ChanStat :=
  let cs := if ok then { cs with framesOk := cs.framesOk + 1 }
    else { cs with framesBad := cs.framesBad + 1 }
  let cs := if chanDecayAt ≤ cs.framesOk + cs.framesBad then
      { cs with framesOk := cs.framesOk / 2, framesBad := cs.framesBad / 2 }
    else cs
  let total := cs.framesOk + cs.framesBad
  if total = 0 then cs else { cs with perPermille := cs.framesBad * 1000 / total }

def setChan (c : Node cfg) (i : Fin chanCount) (cs : ChanStat) : Node cfg :=
  { c with net := { c.net with chan := Function.update c.net.chan i cs } }

/-- The index of a channel number, if it is one. -/
def chanIdx (chan : ℕ) : Option (Fin chanCount) :=
  if h : chanFirst ≤ chan ∧ chan ≤ chanLast then
    some ⟨chan - chanFirst, by simp only [chanFirst, chanLast, chanCount] at h ⊢; omega⟩
  else none

def lgChanResult (c : Node cfg) (chan : ℕ) (ok : Bool) : Node cfg :=
  match chanIdx chan with
  | none => c
  | some i => setChan c i ((c.net.chan i).result ok)

def lgChanNoise (c : Node cfg) (chan : ℕ) (dbm : ℤ) : Node cfg :=
  match chanIdx chan with
  | none => c
  | some i =>
    if dbm = -128 then c
    else
      let cs := c.net.chan i
      setChan c i { cs with
        noiseDbm := if cs.noiseDbm = -128 then dbm else lgEwma cs.noiseDbm dbm true }

/-- `lg_chan_next_eval`: the channel, and the node with the round robin moved on. -/
def lgChanNextEval (c : Node cfg) : ℕ × Node cfg :=
  (chanFirst + c.net.chanEvalNext % chanCount,
    { c with net := { c.net with chanEvalNext := (c.net.chanEvalNext + 1) % 256 } })

/-- One round of the classification loop: channel `i` under the map so far. -/
def reevaluateOne (cfg : Config) (map : UInt16) (i : ℕ) (cs : ChanStat) : UInt16 × ChanStat :=
  let samples := cs.framesOk + cs.framesBad
  let noisy := cs.noiseDbm ≠ -128 && cfg.chanNoiseFloorDbm < cs.noiseDbm
  let bit : UInt16 := 1 <<< UInt16.ofNat i
  if chanBit map i then
    let errored := chanMinSamples ≤ samples && cfg.chanBadPerPermille ≤ cs.perPermille
    if (errored || noisy) && cfg.chanMinGood < lgChanMapCount map then
      (map &&& ~~~bit, { cs with blacklisted := true, probing := false })
    else (map, cs)
  else if !noisy && (cs.noiseDbm ≠ -128 || cs.probing) then
    if samples < chanMinSamples || cs.perPermille ≤ cfg.chanGoodPerPermille then
      (map ||| bit, { cs with
        blacklisted := false, probing := false, framesOk := 0, framesBad := 0, perPermille := 0 })
    else (map, { cs with probing := true, framesOk := 0, framesBad := 0 })
  else (map, cs)

/-- `lg_chan_reevaluate`: whether the map changed. -/
def lgChanReevaluate (c : Node cfg) : Bool × Node cfg :=
  let step := fun (st : UInt16 × (Fin chanCount → ChanStat)) (i : Fin chanCount) =>
    let r := reevaluateOne cfg st.1 i (st.2 i)
    (r.1, Function.update st.2 i r.2)
  let st := (List.finRange chanCount).foldl step (c.net.chanMap, c.net.chan)
  let map := if lgChanMapCount st.1 < cfg.chanMinGood then chanPreferredMask else st.1
  (map ≠ c.net.chanMap, { c with net := { c.net with chanMap := map, chan := st.2 } })

theorem lgChanResult_quiet (c : Node cfg) (chan : ℕ) (ok : Bool) :
    Node.Quiet c (lgChanResult c chan ok) := by
  unfold lgChanResult
  split
  · exact .refl c
  · exact ⟨_, _, rfl⟩

theorem lgChanNoise_quiet (c : Node cfg) (chan : ℕ) (dbm : ℤ) :
    Node.Quiet c (lgChanNoise c chan dbm) := by
  unfold lgChanNoise
  split
  · exact .refl c
  · split_ifs
    · exact .refl c
    · exact ⟨_, _, rfl⟩

theorem lgChanNextEval_quiet (c : Node cfg) : Node.Quiet c (lgChanNextEval c).2 := ⟨_, _, rfl⟩

theorem lgChanReevaluate_quiet (c : Node cfg) : Node.Quiet c (lgChanReevaluate c).2 :=
  ⟨_, _, rfl⟩

end LockGrid
