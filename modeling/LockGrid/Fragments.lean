import LockGrid.Upkeep
import Mathlib.Tactic.IntervalCases

/-!
# A message in fragments

`build_fragment` cuts the staged message up, `reassemble` puts it together again. A message that
is heard in order, with nothing missing, is the one that was staged.
-/
namespace LockGrid

variable {cfg : Config} {psa : Psa}

/-! ## The reassembly buffer -/

/-- The first `k` fragments of `msg`, each of `cap` bytes, are in the buffer. -/
structure Xfer.Holds (rx : Xfer) (msg : Bytes) (cap k : ℕ) : Prop where
  size : rx.buf.length = xferMax
  front : rx.buf.take (min (k * cap) msg.length) = msg.take (k * cap)
  seen : rx.fragsSeen = 2 ^ k - 1

theorem Xfer.holds_empty (msg : Bytes) (cap : ℕ) : ({} : Xfer).Holds msg cap 0 :=
  ⟨zeros_length _, by simp, rfl⟩

theorem fragsSeen_next {k : ℕ} (h : k < 8) : (2 ^ k - 1) ||| 2 ^ k = 2 ^ (k + 1) - 1 := by
  interval_cases k <;> rfl

theorem slice_fragment_length (msg : Bytes) (cap k : ℕ) :
    (slice msg (k * cap) cap).length = min cap (msg.length - k * cap) := by
  simp [slice]

/-- The next fragment fits behind those that are there. -/
theorem Xfer.Holds.add {rx : Xfer} {msg : Bytes} {cap k : ℕ} (h : rx.Holds msg cap k)
    (total : ℕ) (key : Option Bytes) (hk : k < 8) (hstart : k * cap ≤ msg.length)
    (hmax : msg.length ≤ xferMax) :
    (rx.add (k * cap) k total (slice msg (k * cap) cap) key).Holds msg cap (k + 1) := by
  have hlen := slice_fragment_length msg cap k
  have hsize : (rx.buf.take (k * cap)).length = k * cap := by
    rw [List.length_take, h.size]
    omega
  have hfront : rx.buf.take (k * cap) = msg.take (k * cap) := by
    have hp := h.front
    rwa [Nat.min_eq_left hstart] at hp
  have hjoin : msg.take (k * cap) ++ slice msg (k * cap) cap = msg.take ((k + 1) * cap) := by
    rw [slice, Nat.add_mul, Nat.one_mul, List.take_add]
  refine ⟨?_, ?_, ?_⟩
  · have hfit : k * cap + (slice msg (k * cap) cap).length ≤ rx.buf.length := by
      rw [h.size, hlen]
      omega
    exact (splice_length _ _ _ hfit).trans h.size
  · have hend : min ((k + 1) * cap) msg.length = (msg.take ((k + 1) * cap)).length := by
      rw [List.length_take]
    simp only [Xfer.add, splice]
    rw [hfront, hjoin, hend, List.take_left']
    rfl
  · simp only [Xfer.add]
    rw [h.seen, fragsSeen_next hk]

/-- With all of its fragments there, the message can be read. -/
theorem Xfer.Holds.msg {rx : Xfer} {msg : Bytes} {cap k : ℕ} (h : rx.Holds msg cap k)
    (hend : msg.length ≤ k * cap) (hlen : rx.len = msg.length) : rx.msg = msg := by
  have hp := h.front
  rw [Nat.min_eq_right hend, List.take_of_length_le hend] at hp
  rw [Xfer.msg, slice, hlen, List.drop_zero, hp]

/-! ## How many fragments there are -/

/-- The number of fragments `stage_message` cuts a message into. -/
def fragCount (cap : ℕ) (msg : Bytes) : ℕ := max 1 ((msg.length + cap - 1) / cap)

theorem fragCount_spec {cap : ℕ} (hcap : 0 < cap) {msg : Bytes} (hmsg : msg ≠ []) :
    msg.length ≤ fragCount cap msg * cap ∧
      (fragCount cap msg - 1) * cap < msg.length ∧ 0 < fragCount cap msg := by
  have hpos : 0 < msg.length := List.length_pos_of_ne_nil hmsg
  have hq : 1 ≤ (msg.length + cap - 1) / cap := by
    rw [Nat.one_le_div_iff hcap]
    omega
  have hcount : fragCount cap msg = (msg.length + cap - 1) / cap := max_eq_right hq
  rw [hcount]
  have hdiv := Nat.div_add_mod (msg.length + cap - 1) cap
  have hmod := Nat.mod_lt (msg.length + cap - 1) hcap
  rw [Nat.mul_comm] at hdiv
  refine ⟨by omega, ?_, hq⟩
  rw [Nat.sub_mul, Nat.one_mul]
  omega

/-! ## One fragment -/

/-- The receiver has the first `k` fragments of `msg`, of type `t`. -/
structure Hs.Holds (hs : Hs cfg) (t : FrameType) (msg : Bytes) (cap k : ℕ) : Prop where
  type : hs.rxType = t
  rx : hs.rx.Holds msg cap k
  len : hs.rx.len = if k = fragCount cap msg then msg.length else 0

theorem pow_sub_one_inj {k n : ℕ} (h : 2 ^ k - 1 = 2 ^ n - 1) : k = n := by
  have hk := Nat.one_le_two_pow (n := k)
  have hn := Nat.one_le_two_pow (n := n)
  have hpow : 2 ^ k = 2 ^ n := by omega
  exact Nat.pow_right_injective (le_refl 2) hpow

theorem fragCap_pos (cfg : Config) (sec : Bool) : 0 < fragCap cfg sec :=
  Nat.zero_lt_of_lt (linkParamsLen_lt_fragCap cfg sec)

/-- What precedes the payload in a fragment. -/
def fragHdr (idx total : ℕ) : Bytes := [UInt8.ofNat idx, UInt8.ofNat total]

theorem getByte_fragment (hdr : Bytes) (idx total : ℕ) (chunk : Bytes) :
    getByte (hdr ++ fragHdr idx total ++ chunk) hdr.length = UInt8.ofNat idx ∧
      getByte (hdr ++ fragHdr idx total ++ chunk) (hdr.length + 1) = UInt8.ofNat total ∧
      (hdr ++ fragHdr idx total ++ chunk).drop (hdr.length + fragHdrLen) = chunk := by
  rw [List.append_assoc]
  refine ⟨?_, ?_, ?_⟩
  · rw [getByte_append_right _ _ _ (le_refl _), Nat.sub_self]
    rfl
  · rw [getByte_append_right _ _ _ (by omega), Nat.add_sub_cancel_left]
    rfl
  · rw [← List.drop_drop, List.drop_left]
    rfl

/-- The next fragment of a message completes it if it is the last. -/
theorem addFragment_next (c : Node cfg) (t : FrameType) {sec : Bool} (key : Option Bytes)
    {hdr msg : Bytes} {k : ℕ} (hmsg : msg ≠ []) (hmax : msg.length ≤ xferMax)
    (htotal : fragCount (fragCap cfg sec) msg ≤ 8) (hk : k < fragCount (fragCap cfg sec) msg)
    (hhdr : hdr.length = if sec then hdrLenSec else hdrLen)
    (hc : k ≠ 0 → c.hs.Holds t msg (fragCap cfg sec) k) :
    ∃ rx, addFragment c t sec key (hdr ++ fragHdr k (fragCount (fragCap cfg sec) msg) ++
        slice msg (k * fragCap cfg sec) (fragCap cfg sec)) =
      (decide (k + 1 = fragCount (fragCap cfg sec) msg),
        c.setHs { c.hs with rxType := t, rx := rx }) ∧
      ({ c.hs with rxType := t, rx := rx } : Hs cfg).Holds t msg (fragCap cfg sec) (k + 1) := by
  have hcap := fragCap_pos cfg sec
  generalize hcapEq : fragCap cfg sec = cap at *
  obtain ⟨hend, hlast, hpos⟩ := fragCount_spec hcap hmsg
  generalize hcount : fragCount cap msg = total at *
  have hlen := slice_fragment_length msg cap k
  have hstart : k * cap ≤ msg.length := by
    have hle : k * cap ≤ (total - 1) * cap := Nat.mul_le_mul_right cap (by omega)
    omega
  obtain ⟨hidx, htot, hchunk⟩ := getByte_fragment hdr k total (slice msg (k * cap) cap)
  rw [hhdr] at hidx htot hchunk
  have hklt : (UInt8.ofNat k).toNat = k := by
    rw [UInt8.toNat_ofNat']
    omega
  have htlt : (UInt8.ofNat total).toNat = total := by
    rw [UInt8.toNat_ofNat']
    omega
  let base : Xfer := if c.hs.rxType ≠ t ∨ k = 0 then {} else c.hs.rx
  have hbase : base.Holds msg cap k ∧ base.len = 0 := by
    by_cases h0 : k = 0
    · subst h0
      have hempty : base = {} := if_pos (.inr rfl)
      rw [hempty]
      exact ⟨Xfer.holds_empty msg cap, rfl⟩
    · obtain ⟨htype, hrx, hrxlen⟩ := hc h0
      rw [hcount, if_neg (by omega)] at hrxlen
      simp only [base, htype, ne_eq, not_true_eq_false, false_or, if_neg h0]
      exact ⟨hrx, hrxlen⟩
  let rx := base.add (k * cap) k total (slice msg (k * cap) cap) key
  have hrx : rx.Holds msg cap (k + 1) := hbase.1.add total key (by omega) hstart hmax
  have hrxlen : rx.len = if k + 1 = total then msg.length else 0 := by
    simp only [rx, Xfer.add, hbase.2]
    have hk1 : k = total - 1 ↔ k + 1 = total := by omega
    simp only [hk1]
    split_ifs with hcomplete
    · rw [hlen]
      have hmul : (k + 1) * cap = k * cap + cap := by rw [Nat.add_mul, Nat.one_mul]
      rw [← hcomplete, hmul] at hend
      omega
    · rfl
  refine ⟨rx, ?_, ⟨rfl, hrx, by rw [hcount]; exact hrxlen⟩⟩
  have hsize : (hdr ++ fragHdr k total ++ slice msg (k * cap) cap).length =
      (if sec then hdrLenSec else hdrLen) + fragHdrLen + (slice msg (k * cap) cap).length := by
    simp only [List.length_append, hhdr]
    rfl
  have hcomplete : (decide (rx.fragsSeen = 2 ^ total - 1) && decide (rx.len ≠ 0)) =
      decide (k + 1 = total) := by
    rw [hrx.seen, hrxlen]
    by_cases hk1 : k + 1 = total
    · have hne : msg.length ≠ 0 := by simpa using hmsg
      simp [hk1, hne]
    · have hseen : ¬ 2 ^ (k + 1) - 1 = 2 ^ total - 1 := fun he => hk1 (pow_sub_one_inj he)
      simp [hk1, hseen]
  unfold addFragment
  dsimp only
  rw [hidx, htot, hchunk, hklt, htlt, hsize, hcapEq, if_neg (by omega), if_neg (by omega),
    if_neg (by omega), ← hcomplete]

/-! ## On air -/

/-- What is sealed opens again, and is longer by the tag. -/
structure Psa.Opens (psa : Psa) : Prop where
  opens : ∀ n key nonce aad txt,
    psa.aeadDecrypt n key nonce aad (psa.aeadEncrypt n key nonce aad txt) = some txt
  length : ∀ n key nonce aad txt, (psa.aeadEncrypt n key nonce aad txt).length = txt.length + n

/-- The header fields of the fragments that `c` sends to its neighbour `i`. -/
def Node.fragFields (c : Node cfg) (i : Fin cfg.maxNeighbors) : Bytes :=
  frameFields c.ident.netid16 (fcfOf c.hs.txType c.hs.txSecured) (c.neigh i).tx.txSeq
    (c.neigh i).addr c.ident.addr

/-- The payload of fragment `k`. -/
def Hs.fragment (hs : Hs cfg) (k : ℕ) : Bytes :=
  fragHdr k hs.fragTotal ++
    slice hs.tx (k * fragCap cfg hs.txSecured) (fragCap cfg hs.txSecured)

/-- Fragment `k` in the clear. -/
theorem buildFragment_clear {o : Oracle} {c : Node cfg} {i : Fin cfg.maxNeighbors} {k : ℕ}
    (hn : c.hs.n = some i) (hsec : c.hs.txSecured = false) :
    buildFragment psa o c k = (c.fragFields i ++ c.hs.fragment k,
      c.setTx i { (c.neigh i).tx with txSeq := (c.neigh i).tx.txSeq + 1 }) := by
  unfold buildFragment
  rw [hn]
  dsimp only
  rw [if_neg (by simp [Node.setTx, Node.setNeigh, hsec])]
  simp only [hsec, Bool.false_eq_true, if_false, Node.fragFields, Hs.fragment, fragHdr,
    lgFrameHdrPut_fields, secured_fcfOf, List.append_nil, List.append_assoc]

theorem splice_fctr {fields body : Bytes} (hlen : fields.length = offFctr) (ctr : UInt32) :
    splice (fields ++ zeros fctrLen ++ body) offFctr (putLe32 ctr) =
      fields ++ putLe32 ctr ++ body := by
  have htake : (fields ++ zeros fctrLen ++ body).take offFctr = fields := by
    rw [List.append_assoc]
    exact List.take_left' hlen
  have hdrop : (fields ++ zeros fctrLen ++ body).drop (offFctr + fctrLen) = body := by
    refine List.drop_left' ?_
    simp [hlen]
  have hctr : (putLe32 ctr).length = fctrLen := rfl
  rw [splice, hctr, hdrop, htake]

/-- The authenticated part of a sealed fragment. -/
def Node.sealedHdr (c : Node cfg) (i : Fin cfg.maxNeighbors) : Bytes :=
  c.fragFields i ++ putLe32 ((c.neigh i).keys.txCtr + 1)

theorem Node.fragFields_length (c : Node cfg) (i : Fin cfg.maxNeighbors) :
    (c.fragFields i).length = hdrLen := frameFields_length ..

theorem Node.sealedHdr_length (c : Node cfg) (i : Fin cfg.maxNeighbors) :
    (c.sealedHdr i).length = hdrLenSec := rfl

theorem Hs.fragment_length (hs : Hs cfg) (k : ℕ) :
    (hs.fragment k).length ≤ fragHdrLen + fragCap cfg hs.txSecured := by
  have hchunk := slice_fragment_length hs.tx (fragCap cfg hs.txSecured) k
  simp only [Hs.fragment, List.length_append, hchunk]
  have hhdr : (fragHdr k hs.fragTotal).length = fragHdrLen := rfl
  omega

/-- Fragment `k` sealed under the key of the neighbour. -/
theorem buildFragment_sealed (psa : Psa) {o : Oracle} {c : Node cfg} {i : Fin cfg.maxNeighbors}
    (k : ℕ) {key : Bytes} (hn : c.hs.n = some i) (hsec : c.hs.txSecured = true)
    (hhas : (c.neigh i).keys.hasKey = true) (hkey : (c.neigh i).keys.keyId = some key)
    (ho : o.ok .encrypt = true) :
    (buildFragment psa o c k).1 = c.sealedHdr i ++ psa.aeadEncrypt cfg.micLen key
        (nonceBuild c.ident.addr ((c.neigh i).keys.txCtr + 1)) (c.sealedHdr i) (c.hs.fragment k) ∧
      (buildFragment psa o c k).2.hs = c.hs ∧ (buildFragment psa o c k).2.ident = c.ident ∧
      (buildFragment psa o c k).2.net = c.net ∧
      (buildFragment psa o c k).2.neigh i = { c.neigh i with
        tx := { (c.neigh i).tx with txSeq := (c.neigh i).tx.txSeq + 1 }
        keys := { (c.neigh i).keys with txCtr := (c.neigh i).keys.txCtr + 1 } } := by
  let d := c.setTx i { (c.neigh i).tx with txSeq := (c.neigh i).tx.txSeq + 1 }
  have hdkeys : (d.neigh i).keys = (c.neigh i).keys := by simp [d, Node.setTx]
  let pdu := lgFrameHdrPut c.ident.netid16 (fcfOf c.hs.txType c.hs.txSecured)
    (c.neigh i).tx.txSeq (c.neigh i).addr c.ident.addr ++
      [UInt8.ofNat k, UInt8.ofNat c.hs.fragTotal] ++
      slice c.hs.tx (k * fragCap cfg c.hs.txSecured) (fragCap cfg c.hs.txSecured)
  have hpdu : pdu = c.fragFields i ++ zeros fctrLen ++ c.hs.fragment k := by
    simp only [pdu, lgFrameHdrPut_fields, secured_fcfOf, hsec, if_true, Node.fragFields,
      Hs.fragment, fragHdr, List.append_assoc]
  have hsplice : splice pdu offFctr (putLe32 ((d.neigh i).keys.txCtr + 1)) =
      c.sealedHdr i ++ c.hs.fragment k := by
    rw [hpdu, splice_fctr (c.fragFields_length i), hdkeys]
    rfl
  have htake : (c.sealedHdr i ++ c.hs.fragment k).take hdrLenSec = c.sealedHdr i :=
    List.take_left' (c.sealedHdr_length i)
  have hdrop : (c.sealedHdr i ++ c.hs.fragment k).drop hdrLenSec = c.hs.fragment k :=
    List.drop_left' (c.sealedHdr_length i)
  have hbound := c.hs.fragment_length k
  have hfits : ¬ pduMax < (c.sealedHdr i ++ c.hs.fragment k).length + cfg.micLen := by
    have hmic := cfg.micLen_range
    rw [List.length_append, c.sealedHdr_length]
    rw [hsec] at hbound
    simp only [fragCap, if_true, Config.secOverhead, hdrLenSec, hdrLen, fctrLen, fragHdrLen,
      pduMax] at hbound ⊢
    omega
  have hlong : ¬ pdu.length < hdrLenSec := by
    rw [hpdu, List.length_append, List.length_append, c.fragFields_length, zeros_length]
    simp only [hdrLenSec]
    omega
  have henc : lgSecEncrypt psa (o.ok .encrypt) d i pdu hdrLenSec =
      (.ok (c.sealedHdr i ++ psa.aeadEncrypt cfg.micLen key
        (nonceBuild c.ident.addr ((c.neigh i).keys.txCtr + 1)) (c.sealedHdr i) (c.hs.fragment k)),
      useCtr d i key (nonceBuild c.ident.addr ((c.neigh i).keys.txCtr + 1)) (c.sealedHdr i)
        (c.hs.fragment k)) := by
    unfold lgSecEncrypt
    simp only [hsplice, htake, hdrop]
    simp only [hdkeys, hhas, hkey, Bool.not_true, Bool.false_eq_true, if_false, if_neg hlong,
      if_neg hfits, ho]
    rfl
  have hbuild : buildFragment psa o c k =
      (c.sealedHdr i ++ psa.aeadEncrypt cfg.micLen key
        (nonceBuild c.ident.addr ((c.neigh i).keys.txCtr + 1)) (c.sealedHdr i) (c.hs.fragment k),
      useCtr d i key (nonceBuild c.ident.addr ((c.neigh i).keys.txCtr + 1)) (c.sealedHdr i)
        (c.hs.fragment k)) := by
    unfold buildFragment
    rw [hn]
    refine (if_pos hsec).trans ?_
    split <;> next he =>
      cases he.symm.trans henc
      try rfl
  rw [hbuild]
  refine ⟨rfl, rfl, rfl, rfl, ?_⟩
  simp [useCtr, Node.setKeys, d, Node.setTx]

theorem replayCheck_ahead (window : ℕ) (k : Keys) {ctr : UInt32} (h : k.rxCtr < ctr) :
    ∃ mask, replayCheck window k ctr = some { k with replayMask := mask, rxCtr := ctr } := by
  have hne : ctr ≠ 0 := by
    rintro rfl
    exact absurd h (by simp)
  unfold replayCheck
  rw [if_neg hne, if_pos h]
  exact ⟨_, rfl⟩

/-- A fragment in the clear is taken as it is. -/
theorem reassemble_clear (psa : Psa) (o : Oracle) (d : Node cfg) (j : Fin cfg.maxNeighbors)
    (t : FrameType) {pdu : Bytes} (h : secured (getByte pdu offFcf) = false) :
    reassemble psa o d j t pdu = addFragment d t false none pdu := by
  unfold reassemble
  rw [if_neg (by simp [h])]

/-- A sealed fragment is opened first. -/
theorem reassemble_sealed {o : Oracle} {d : Node cfg} {j : Fin cfg.maxNeighbors} (t : FrameType)
    (netid : UInt16) (seq : UInt8) (dst src : Addr) {ctr : UInt32} {key : Bytes} (body : Bytes)
    (hpsa : psa.Opens) (ho : o.ok .decrypt = true) (hhas : (d.neigh j).keys.hasKey = true)
    (hkey : (d.neigh j).keys.keyId = some key) (hctr : (d.neigh j).keys.rxCtr < ctr) :
    ∃ mask, reassemble psa o d j t (frameFields netid (fcfOf t true) seq dst src ++ putLe32 ctr ++
        psa.aeadEncrypt cfg.micLen key (nonceBuild src ctr)
          (frameFields netid (fcfOf t true) seq dst src ++ putLe32 ctr) body) =
      addFragment (d.setKeys j { (d.neigh j).keys with replayMask := mask, rxCtr := ctr }) t true
        (some key) (frameFields netid (fcfOf t true) seq dst src ++ putLe32 ctr ++ body) := by
  obtain ⟨mask, hreplay⟩ := replayCheck_ahead cfg.replayWindow (d.neigh j).keys hctr
  refine ⟨mask, ?_⟩
  set hdr := frameFields netid (fcfOf t true) seq dst src ++ putLe32 ctr with hhdr
  set enc := psa.aeadEncrypt cfg.micLen key (nonceBuild src ctr) hdr body with henc
  have hlen : hdr.length = hdrLenSec := rfl
  have hfcf : getByte (hdr ++ enc) offFcf = fcfOf t true := by
    rw [hhdr, List.append_assoc]
    exact getByte_fields_fcf ..
  have hsrc : getLe16 (hdr ++ enc) offSrc = src := by
    rw [hhdr, List.append_assoc]
    exact getLe16_fields_src ..
  have hget : getLe32 (hdr ++ enc) offFctr = ctr := by
    have hfields : (frameFields netid (fcfOf t true) seq dst src).length = offFctr := rfl
    rw [hhdr, List.append_assoc, getLe32_append_right _ _ _ hfields.le, hfields, Nat.sub_self]
    exact getLe32_putLe32 ctr enc
  have htake : (hdr ++ enc).take hdrLenSec = hdr := List.take_left' hlen
  have hdrop : (hdr ++ enc).drop hdrLenSec = enc := List.drop_left' hlen
  have hlong : ¬ (hdr ++ enc).length < cfg.secOverhead := by
    rw [List.length_append, hlen, henc, hpsa.length, Config.secOverhead]
    omega
  have hopen : lgSecDecrypt psa (o.ok .decrypt) d j (hdr ++ enc) =
      (.ok (hdr ++ body),
        d.setKeys j { (d.neigh j).keys with replayMask := mask, rxCtr := ctr }) := by
    have hplain : psa.aeadDecrypt cfg.micLen key (nonceBuild src ctr) hdr enc = some body :=
      hpsa.opens ..
    unfold lgSecDecrypt
    simp only [hget, hsrc, htake, hdrop, hhas, hkey, ho, Bool.not_true, Bool.false_eq_true,
      if_false, if_neg hlong, Option.bind_some, if_true, hplain, hreplay]
  unfold reassemble
  rw [hfcf, secured_fcfOf, if_pos rfl, hopen]
  simp [Node.setKeys, hkey]

end LockGrid
