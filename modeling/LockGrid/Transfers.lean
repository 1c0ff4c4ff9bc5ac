import LockGrid.Fragments
import LockGrid.Provenance

/-!
# A message and its fragments, one after the other

`build_fragment` and `reassemble` in turn, for every fragment of the staged message. Whatever was
in the reassembly buffer before, the message is there after the last fragment and not before.
-/
namespace LockGrid

variable {cfg : Config} {psa : Psa} {c d : Node cfg} {i j : Fin cfg.maxNeighbors} {o o' : Oracle}

/-- A fragment that has been handed over: the frame, what `reassemble` returned for it, and the
two ends after it. -/
structure Transfer (cfg : Config) where
  frame : Bytes
  complete : Bool
  sender : Node cfg
  receiver : Node cfg

/-- Fragment `k` of what `c` has staged goes to `d`, which takes it as one of its neighbour `j`. -/
def handOver (psa : Psa) (o o' : Oracle) (c d : Node cfg) (j : Fin cfg.maxNeighbors) (k : ℕ) :
    Transfer cfg :=
  let f := buildFragment psa o c k
  match lgFrameType f.1 with
  | some t =>
    let r := reassemble psa o' d j t f.1
    ⟨f.1, r.1, f.2, r.2⟩
  | none => ⟨f.1, false, f.2, d⟩

/-- The two ends after the first `k` fragments. -/
def handedOver (psa : Psa) (o o' : ℕ → Oracle) (j : Fin cfg.maxNeighbors) :
    ℕ → Node cfg × Node cfg → Node cfg × Node cfg
  | 0, ends => ends
  | k + 1, ends =>
    let before := handedOver psa o o' j k ends
    let r := handOver psa (o k) (o' k) before.1 before.2 j k
    (r.sender, r.receiver)

/-- The ends have a key in common, under which the receiver has taken no frame yet that the sender
is still to count; `n` more can be counted. -/
structure KeyShared (c d : Node cfg) (i j : Fin cfg.maxNeighbors) (n : ℕ) : Prop where
  hasKey : (c.neigh i).keys.hasKey = true ∧ (d.neigh j).keys.hasKey = true
  key : ∃ key, (c.neigh i).keys.keyId = some key ∧ (d.neigh j).keys.keyId = some key
  behind : (d.neigh j).keys.rxCtr ≤ (c.neigh i).keys.txCtr
  room : (c.neigh i).keys.txCtr.toNat + n < 2 ^ 32

/-- A message is staged for neighbour `i`. -/
structure Staging (c : Node cfg) (i : Fin cfg.maxNeighbors) (t : FrameType) (sec : Bool)
    (msg : Bytes) : Prop where
  about : c.hs.n = some i
  typed : c.hs.txType = t
  secures : c.hs.txSecured = sec
  staged : c.hs.tx = msg
  total : c.hs.fragTotal = fragCount (fragCap cfg sec) msg

/-- `stage_message` stages so. -/
theorem Staging.of_stage {hs : Hs cfg} {t : FrameType} {sec : Bool} {msg : Bytes}
    (hn : hs.n = some i) (h : c.hs = stageMessage hs t sec msg) : Staging c i t sec msg := by
  constructor <;> rw [h]
  · exact hn
  · rfl
  · rfl
  · rfl
  · rfl

theorem Staging.congr {t : FrameType} {sec : Bool} {msg : Bytes} {c' : Node cfg}
    (h : Staging c i t sec msg) (he : c'.hs = c.hs) : Staging c' i t sec msg := by
  obtain ⟨habout, htyped, hsecures, hstaged, htotal⟩ := h
  rw [← he] at habout htyped hsecures hstaged htotal
  exact ⟨habout, htyped, hsecures, hstaged, htotal⟩

/-! ## Sizes -/

/-- The number of fragments of a message that fits into the buffer. -/
theorem fragCount_le_eight (cfg : Config) (sec : Bool) {msg : Bytes} (h : msg.length ≤ xferMax) :
    fragCount (fragCap cfg sec) msg ≤ 8 := by
  have hmic := cfg.micLen_range
  have hcap : 95 ≤ fragCap cfg sec := by
    simp only [fragCap, pduMax, Config.secOverhead, hdrLenSec, hdrLen, fctrLen, fragHdrLen]
    split <;> omega
  have hdiv : (msg.length + fragCap cfg sec - 1) / fragCap cfg sec < 9 := by
    rw [Nat.div_lt_iff_lt_mul (by omega)]
    simp only [xferMax] at h
    omega
  rw [fragCount]
  omega

/-- Where a fragment goes lies within the buffer. -/
theorem fragment_fits {cap k : ℕ} {msg : Bytes} (hmax : msg.length ≤ xferMax)
    (hstart : k * cap ≤ msg.length) : k * cap + (slice msg (k * cap) cap).length ≤ xferMax := by
  rw [slice_fragment_length]
  omega

/-! ## One fragment -/

/-- A fragment of `msg` is handed over. -/
structure HandedOver (r : Transfer cfg) (c : Node cfg) (t : FrameType) (sec : Bool)
    (msg : Bytes) (k : ℕ) : Prop where
  sized : 0 < r.frame.length ∧ r.frame.length ≤ pduMax
  complete : r.complete = decide (k + 1 = c.hs.fragTotal)
  sender : r.sender.hs = c.hs
  holds : r.receiver.hs.Holds t msg (fragCap cfg sec) (k + 1)

/-- A fragment in the clear. -/
theorem handOver_clear {t : FrameType} {msg : Bytes} {k : ℕ} (h : Staging c i t false msg)
    (hmsg : msg ≠ []) (hmax : msg.length ≤ xferMax) (hk : k < c.hs.fragTotal)
    (hd : k ≠ 0 → d.hs.Holds t msg (fragCap cfg false) k) :
    HandedOver (handOver psa o o' c d j k) c t false msg k := by
  have hbuild : buildFragment psa o c k = _ := buildFragment_clear h.about h.secures
  set hdr := c.fragFields i with hhdr
  have hpayload : c.hs.fragment k = fragHdr k (fragCount (fragCap cfg false) msg) ++
      slice msg (k * fragCap cfg false) (fragCap cfg false) := by
    rw [Hs.fragment, h.total, h.staged, h.secures]
  have hfcf : getByte (hdr ++ c.hs.fragment k) offFcf = fcfOf t false := by
    rw [hhdr, Node.fragFields, getByte_fields_fcf, h.typed, h.secures]
  have htype : lgFrameType (hdr ++ c.hs.fragment k) = some t := by
    rw [lgFrameType, hfcf, fcfOf_type]
  have hplain : secured (getByte (hdr ++ c.hs.fragment k) offFcf) = false := by
    rw [hfcf, secured_fcfOf]
  obtain ⟨rx, hadd, hholds⟩ := addFragment_next d t none hmsg hmax
    (fragCount_le_eight cfg false hmax) (h.total ▸ hk) (show hdr.length = _ from
      c.fragFields_length i) hd
  have hr : handOver psa o o' c d j k = ⟨hdr ++ c.hs.fragment k,
      decide (k + 1 = fragCount (fragCap cfg false) msg),
      c.setTx i { (c.neigh i).tx with txSeq := (c.neigh i).tx.txSeq + 1 },
      d.setHs { d.hs with rxType := t, rx := rx }⟩ := by
    unfold handOver
    rw [hbuild]
    dsimp only
    rw [htype]
    dsimp only
    rw [reassemble_clear psa o' d j t hplain, hpayload, ← List.append_assoc, hadd]
  rw [hr]
  refine ⟨?_, ?_, rfl, hholds⟩
  · have hbound := c.hs.fragment_length k
    rw [h.secures] at hbound
    simp only [List.length_append, hhdr, c.fragFields_length, fragCap, Bool.false_eq_true, if_false,
      fragHdrLen, pduMax, hdrLen] at hbound ⊢
    omega
  · rw [h.total]

/-- A fragment under the key of the two ends. -/
theorem handOver_sealed {t : FrameType} {msg : Bytes} {k n : ℕ} (hpsa : psa.Opens)
    (h : Staging c i t true msg) (hmsg : msg ≠ []) (hmax : msg.length ≤ xferMax)
    (hk : k < c.hs.fragTotal) (hd : k ≠ 0 → d.hs.Holds t msg (fragCap cfg true) k)
    (hkeys : KeyShared c d i j (n + 1)) (ho : o.ok .encrypt = true) (ho' : o'.ok .decrypt = true) :
    let r := handOver psa o o' c d j k
    HandedOver r c t true msg k ∧ KeyShared r.sender r.receiver i j n := by
  obtain ⟨⟨hhas, hhas'⟩, ⟨key, hkey, hkey'⟩, hbehind, hroom⟩ := hkeys
  obtain ⟨hframe, hhs, -, -, hentry⟩ := buildFragment_sealed psa k h.about h.secures hhas hkey ho
  have hctr : ((c.neigh i).keys.txCtr + 1).toNat = (c.neigh i).keys.txCtr.toNat + 1 := by
    have hone : (1 : UInt32).toNat = 1 := rfl
    rw [UInt32.toNat_add, hone]
    exact Nat.mod_eq_of_lt (by omega)
  have hahead : (d.neigh j).keys.rxCtr < (c.neigh i).keys.txCtr + 1 := by
    rw [UInt32.lt_iff_toNat_lt, hctr]
    rw [UInt32.le_iff_toNat_le] at hbehind
    omega
  have hhdr : c.sealedHdr i = frameFields c.ident.netid16 (fcfOf t true) (c.neigh i).tx.txSeq
      (c.neigh i).addr c.ident.addr ++ putLe32 ((c.neigh i).keys.txCtr + 1) := by
    rw [Node.sealedHdr, Node.fragFields, h.typed, h.secures]
  obtain ⟨mask, hopen⟩ := reassemble_sealed t c.ident.netid16
    (c.neigh i).tx.txSeq (c.neigh i).addr c.ident.addr (c.hs.fragment k) hpsa ho' hhas' hkey' hahead
  rw [← hhdr] at hopen
  set e := d.setKeys j { (d.neigh j).keys with
    replayMask := mask, rxCtr := (c.neigh i).keys.txCtr + 1 } with he
  have hpayload : c.hs.fragment k = fragHdr k (fragCount (fragCap cfg true) msg) ++
      slice msg (k * fragCap cfg true) (fragCap cfg true) := by
    rw [Hs.fragment, h.total, h.staged, h.secures]
  obtain ⟨rx, hadd, hholds⟩ := addFragment_next e t (some key) hmsg hmax
    (fragCount_le_eight cfg true hmax) (h.total ▸ hk)
    (show (c.sealedHdr i).length = _ from c.sealedHdr_length i) hd
  have htype : lgFrameType (buildFragment psa o c k).1 = some t := by
    rw [hframe, hhdr, List.append_assoc, lgFrameType, getByte_fields_fcf, fcfOf_type]
  have hr : handOver psa o o' c d j k = ⟨(buildFragment psa o c k).1,
      decide (k + 1 = fragCount (fragCap cfg true) msg), (buildFragment psa o c k).2,
      e.setHs { e.hs with rxType := t, rx := rx }⟩ := by
    unfold handOver
    dsimp only
    rw [htype]
    dsimp only
    rw [hframe, hopen, hpayload, ← List.append_assoc, hadd]
  intro r
  have hr' : r = _ := hr
  rw [hr']
  refine ⟨⟨?_, ?_, hhs, hholds⟩, ?_⟩
  · have hbound := c.hs.fragment_length k
    have hmic := cfg.micLen_range
    rw [h.secures] at hbound
    rw [hframe]
    simp only [List.length_append, c.sealedHdr_length, hpsa.length, fragCap, if_true,
      Config.secOverhead, fragHdrLen, pduMax, hdrLenSec, hdrLen, fctrLen] at hbound ⊢
    omega
  · rw [h.total]
  · refine ⟨⟨?_, ?_⟩, ⟨key, ?_, ?_⟩, ?_, ?_⟩
    · rw [hentry]
      exact hhas
    · simpa [he, Node.setKeys, Node.setHs] using hhas'
    · rw [hentry]
      exact hkey
    · simpa [he, Node.setKeys, Node.setHs] using hkey'
    · rw [hentry]
      simp [he, Node.setKeys, Node.setHs]
    · rw [hentry]
      change ((c.neigh i).keys.txCtr + 1).toNat + n < 2 ^ 32
      rw [hctr]
      omega

/-! ## All fragments -/

/-- Before fragment `k`: the message is staged, its first `k` fragments are there, and what is left
can be counted. -/
structure Ferrying (c d : Node cfg) (i j : Fin cfg.maxNeighbors) (t : FrameType) (sec : Bool)
    (msg : Bytes) (k : ℕ) : Prop where
  staging : Staging c i t sec msg
  holds : k ≠ 0 → d.hs.Holds t msg (fragCap cfg sec) k
  keys : sec = true → KeyShared c d i j (c.hs.fragTotal - k)

theorem Ferrying.next {t : FrameType} {sec : Bool} {msg : Bytes} {k : ℕ} (hpsa : psa.Opens)
    (h : Ferrying c d i j t sec msg k) (hmsg : msg ≠ []) (hmax : msg.length ≤ xferMax)
    (hk : k < c.hs.fragTotal)
    (ho : sec = true → o.ok .encrypt = true ∧ o'.ok .decrypt = true) :
    let r := handOver psa o o' c d j k
    HandedOver r c t sec msg k ∧ Ferrying r.sender r.receiver i j t sec msg (k + 1) := by
  intro r
  cases sec with
  | false =>
    have hover : HandedOver r c t false msg k :=
      handOver_clear h.staging hmsg hmax hk h.holds
    exact ⟨hover, h.staging.congr hover.sender, fun _ => hover.holds, nofun⟩
  | true =>
    have hkeys : KeyShared c d i j (c.hs.fragTotal - (k + 1) + 1) := by
      have hleft : c.hs.fragTotal - (k + 1) + 1 = c.hs.fragTotal - k := by omega
      rw [hleft]
      exact h.keys rfl
    obtain ⟨hover, hshared⟩ := handOver_sealed hpsa h.staging hmsg hmax hk h.holds
      hkeys (ho rfl).1 (ho rfl).2
    refine ⟨hover, h.staging.congr hover.sender, fun _ => hover.holds, fun _ => ?_⟩
    have htotal : r.sender.hs.fragTotal = c.hs.fragTotal := congrArg Hs.fragTotal hover.sender
    rw [htotal]
    exact hshared

/-- Handed over fragment by fragment, a message is complete with its last fragment and not before;
it is then in the buffer as it was staged, whatever was there. No frame is too long, and each
fragment goes to a place in the buffer. -/
theorem fragments_roundtrip (hpsa : psa.Opens) {hs : Hs cfg} {t : FrameType} {sec : Bool}
    {msg : Bytes} (hn : hs.n = some i) (hstage : c.hs = stageMessage hs t sec msg)
    (hmsg : 1 ≤ msg.length ∧ msg.length ≤ xferMax) {o o' : ℕ → Oracle}
    (hkeys : sec = true → KeyShared c d i j c.hs.fragTotal ∧
      ∀ k, (o k).ok .encrypt = true ∧ (o' k).ok .decrypt = true) :
    ∀ k < c.hs.fragTotal,
      let ends := handedOver psa o o' j k (c, d)
      let r := handOver psa (o k) (o' k) ends.1 ends.2 j k
      (0 < r.frame.length ∧ r.frame.length ≤ pduMax) ∧
        r.complete = decide (k + 1 = c.hs.fragTotal) ∧
        (r.complete = true → r.receiver.hs.rx.msg = msg) ∧
        k * fragCap cfg sec + (slice msg (k * fragCap cfg sec) (fragCap cfg sec)).length ≤ xferMax ∧
        r.receiver.hs.rx.buf.length = xferMax := by
  have hne : msg ≠ [] := List.length_pos_iff.mp hmsg.1
  have hstaging : Staging c i t sec msg := .of_stage hn hstage
  have hunderway : ∀ k ≤ c.hs.fragTotal, let ends := handedOver psa o o' j k (c, d)
      Ferrying ends.1 ends.2 i j t sec msg k ∧ ends.1.hs = c.hs := by
    intro k
    induction k with
    | zero =>
      intro _
      exact ⟨⟨hstaging, fun h => absurd rfl h, fun hsec => (hkeys hsec).1⟩, rfl⟩
    | succ k ih =>
      intro hk
      obtain ⟨hbefore, hhs⟩ := ih (by omega)
      have hlt : k < (handedOver psa o o' j k (c, d)).1.hs.fragTotal := by
        rw [hhs]
        exact hk
      obtain ⟨hover, hnext⟩ := hbefore.next hpsa hne hmsg.2 hlt fun hsec => (hkeys hsec).2 k
      exact ⟨hnext, hover.sender.trans hhs⟩
  intro k hk ends r
  obtain ⟨hbefore, hhs⟩ := hunderway k hk.le
  have hlt : k < ends.1.hs.fragTotal := by
    rw [hhs]
    exact hk
  obtain ⟨hover, -⟩ := hbefore.next hpsa hne hmsg.2 hlt fun hsec => (hkeys hsec).2 k
  have hcomplete : r.complete = decide (k + 1 = c.hs.fragTotal) := by
    rw [← hhs]
    exact hover.complete
  obtain ⟨hend, hlast, -⟩ := fragCount_spec (fragCap_pos cfg sec) hne
  refine ⟨hover.sized, hcomplete, ?_, ?_, hover.holds.rx.size⟩
  · intro hdone
    rw [hcomplete, decide_eq_true_eq, hstaging.total] at hdone
    have hlen := hover.holds.len
    rw [if_pos hdone] at hlen
    apply hover.holds.rx.msg _ hlen
    rw [hdone]
    exact hend
  · apply fragment_fits hmsg.2
    have hle : k * fragCap cfg sec ≤ (fragCount (fragCap cfg sec) msg - 1) * fragCap cfg sec := by
      apply Nat.mul_le_mul_right
      rw [hstaging.total] at hk
      omega
    omega

/-- A sealed message of two fragments is staged. -/
def stagedNode : Node .default :=
  { Node.boot .default (plainIdent 1 1) with
    hs := stageMessage { n := some firstNeigh } .joinCfm true (List.replicate 200 7)
    neigh := fun _ => { addr := 2, keys := { hasKey := true, keyId := some (zeros keyLen) } } }

/-- Something else is left in the buffer. -/
def leftoverNode : Node .default :=
  { Node.boot .default (plainIdent 2 2) with
    hs := { rxType := .joinCfm, rx := ⟨List.replicate xferMax 9, 5, 1, []⟩ }
    neigh := fun _ => { addr := 1, keys := { hasKey := true, keyId := some (zeros keyLen) } } }

theorem fragments_roundtrip_sealed : stagedNode.hs.fragTotal = 2 ∧ ∀ k < stagedNode.hs.fragTotal,
    let ends := handedOver Psa.plain (fun _ => calm 1) (fun _ => calm 2) firstNeigh k
      (stagedNode, leftoverNode)
    let r := handOver Psa.plain (calm 1) (calm 2) ends.1 ends.2 firstNeigh k
    (0 < r.frame.length ∧ r.frame.length ≤ pduMax) ∧
      r.complete = decide (k + 1 = stagedNode.hs.fragTotal) ∧
      (r.complete = true → r.receiver.hs.rx.msg = List.replicate 200 7) ∧
      k * fragCap .default true + (slice (List.replicate 200 7) (k * fragCap .default true)
        (fragCap .default true)).length ≤ xferMax ∧
      r.receiver.hs.rx.buf.length = xferMax := by
  have hshared : KeyShared stagedNode leftoverNode firstNeigh firstNeigh 2 :=
    ⟨⟨rfl, rfl⟩, ⟨_, rfl, rfl⟩, by decide, by decide⟩
  have hopens : Psa.plain.Opens :=
    ⟨fun n key nonce aad txt => plain_decrypt_encrypt n key nonce aad txt,
      fun n key nonce aad txt => by simp [Psa.plain, plainTag_length]⟩
  have hlen : (List.replicate 200 (7 : UInt8)).length = 200 := List.length_replicate
  have hstage : stagedNode.hs =
      stageMessage { n := some firstNeigh } .joinCfm true (List.replicate 200 7) := rfl
  have htotal : stagedNode.hs.fragTotal = 2 := by
    rw [hstage, stageMessage, hlen]
    rfl
  refine ⟨htotal, fragments_roundtrip (i := firstNeigh) hopens rfl hstage ?_ fun _ => ?_⟩
  · rw [hlen]
    decide
  · rw [htotal]
    exact ⟨hshared, fun _ => ⟨rfl, rfl⟩⟩

end LockGrid
