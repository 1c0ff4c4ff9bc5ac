import LockGrid.Run

/-!
# A plain crypto library

A `Psa` that can be computed with: hashing and key derivation forget nothing, a signature
repeats the public key and the hash, and sealing appends a tag. It shows that the assumptions
made about a crypto library can be met, and carries the runs that are followed step by step.
-/
namespace LockGrid

/-- A byte string that says where it ends. -/
def pack (l : Bytes) : Bytes := List.replicate l.length 1 ++ 0 :: l

theorem unary_append_injective {n m : ℕ} {x y : Bytes}
    (h : List.replicate n (1 : UInt8) ++ 0 :: x = List.replicate m 1 ++ 0 :: y) :
    n = m ∧ x = y := by
  induction n generalizing m with
  | zero =>
    cases m with
    | zero => exact ⟨rfl, by simpa using h⟩
    | succ m => simp [List.replicate_succ] at h
  | succ n ih =>
    cases m with
    | zero => simp [List.replicate_succ] at h
    | succ m =>
      obtain ⟨hnm, hxy⟩ := ih (m := m) (by simpa [List.replicate_succ] using h)
      exact ⟨by rw [hnm], hxy⟩

theorem pack_append_injective {l l' r r' : Bytes} (h : pack l ++ r = pack l' ++ r') :
    l = l' ∧ r = r' := by
  simp only [pack, List.append_assoc, List.cons_append] at h
  obtain ⟨hlen, h⟩ := unary_append_injective h
  exact List.append_inj h hlen

def plainSign (pub hash : Bytes) : Bytes := pub.take 32 ++ (hash ++ zeros 32).take 32

def plainTag (n : ℕ) (key nonce : Bytes) : Bytes := (nonce.drop 3 ++ key ++ zeros n).take n

def Psa.plain : Psa where
  sha256 := id
  hkdf secret salt info := pack secret ++ (pack salt ++ info)
  ecdh priv pub := some (List.zipWith (· ^^^ ·) priv pub)
  verify pub hash sig := sig = plainSign pub hash
  aeadEncrypt n key nonce _ txt := txt ++ plainTag n key nonce
  aeadDecrypt n key nonce _ ct :=
    if ct.drop (ct.length - n) = plainTag n key nonce then some (ct.take (ct.length - n))
    else none

theorem plainSign_length (pub hash : Bytes) (h : 32 ≤ pub.length) :
    (plainSign pub hash).length = sigLen := by
  simp [plainSign, sigLen]
  omega

theorem plainTag_length (n : ℕ) (key nonce : Bytes) : (plainTag n key nonce).length = n := by
  simp only [plainTag, List.length_take, List.length_append, zeros_length]
  omega

theorem plain_sha256_injective : Function.Injective Psa.plain.sha256 := fun _ _ => id

theorem plain_hkdf_injective {secret salt info secret' salt' info' : Bytes}
    (h : Psa.plain.hkdf secret salt info = Psa.plain.hkdf secret' salt' info') :
    secret = secret' ∧ salt = salt' ∧ info = info' := by
  obtain ⟨hs, h⟩ := pack_append_injective h
  exact ⟨hs, pack_append_injective h⟩

/-- What is sealed opens again under the same key and nonce. -/
theorem plain_decrypt_encrypt (n : ℕ) (key nonce aad txt : Bytes) :
    Psa.plain.aeadDecrypt n key nonce aad (Psa.plain.aeadEncrypt n key nonce aad txt) =
      some txt := by
  have hl := plainTag_length n key nonce
  simp [Psa.plain, hl]

/-! ## Nodes over the plain library -/

def plainPub (k : UInt8) : Bytes := List.replicate ecPubLen k

/-- The public key of the authority. -/
def plainCa : Bytes := plainPub 9

def plainCert (addr : Addr) (pub : Bytes) : Bytes :=
  let body := putLe16 addr ++ [1, 0] ++ zeros 8 ++ pub
  body ++ plainSign plainCa body

def plainIdent (addr : Addr) (k : UInt8) : Identity where
  networkId := 7
  netid16 := 7
  addr := addr
  cert := plainCert addr (plainPub k)
  caPub := plainCa
  netKey := zeros keyLen

/-- An oracle with which every call succeeds; `k` varies what is drawn. -/
def calm (k : UInt8) : Oracle where
  ok := fun _ => true
  nonce := List.replicate nonceLen k
  keypair := (List.replicate ecPubLen k, List.replicate ecPrivLen k)
  sign := plainSign (plainPub k)
  seed := k.toUInt16
  rand32 := fun _ => 1000
  phyOk := true
  tsOk := true
  noiseDbm := -90
  nonce_length := List.length_replicate
  keypair_length := List.length_replicate
  sign_length := fun h => plainSign_length _ h (by simp [plainPub, ecPubLen])

/-- A frame as it is received, from `src` to `dst` of this grid. -/
def received (fcf : UInt8) (dst src : Addr) (body : Bytes) : RxRec where
  pdu := lgFrameHdrPut 7 fcf 0 dst src ++ body
  rssi := -60
  airStartUs := 20000

/-- Fragment `idx` of a handshake message that is not secured. -/
def plainFrag (t : FrameType) (dst src : Addr) (msg : Bytes) (idx : ℕ) : RxRec :=
  let cap := fragCap .default false
  let total := max 1 ((msg.length + cap - 1) / cap)
  received (fcfOf t false) dst src
    ([UInt8.ofNat idx, UInt8.ofNat total] ++ slice msg (idx * cap) cap)

/-- A secured handshake message of one fragment, sealed under `key` with counter `ctr`. -/
def sealedFrag (t : FrameType) (dst src : Addr) (key : Bytes) (ctr : UInt32) (msg : Bytes) :
    RxRec :=
  let hdr := splice (lgFrameHdrPut 7 (fcfOf t true) 0 dst src) offFctr (putLe32 ctr)
  { pdu := hdr ++ Psa.plain.aeadEncrypt Config.default.micLen key (nonceBuild src ctr) hdr
      ([0, 1] ++ msg)
    rssi := -60
    airStartUs := 20000 }

/-- A frame with the given body, sealed under `key` with counter `ctr`. -/
def sealedFrame (t : FrameType) (dst src : Addr) (key : Bytes) (ctr : UInt32) (body : Bytes) :
    RxRec :=
  let hdr := splice (lgFrameHdrPut 7 (fcfOf t true) 0 dst src) offFctr (putLe32 ctr)
  { pdu := hdr ++ Psa.plain.aeadEncrypt Config.default.micLen key (nonceBuild src ctr) hdr body
    rssi := -60
    airStartUs := 20000 }

/-- A beacon of a router that offers a join window. -/
def plainBeacon (src : Addr) : RxRec :=
  let b : Beacon := {
    networkId := 7, epoch := 0, rank := 16, chanMap := 0xFFFF, role := Role.router.code
    linkCount := 0, linkCapacity := 4, joinOffsetUs := 20000, joinWindowUs := 8000
    nextBeaconOffsetUs := 0 }
  let r := received FrameType.beacon.code addrBroadcast src b.encode
  { r with pdu := (lgSecBeaconSeal Psa.plain true (zeros keyLen) r.pdu).getD [] }

end LockGrid
