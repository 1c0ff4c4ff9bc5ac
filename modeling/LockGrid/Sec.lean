import LockGrid.State

/-!
# Frame protection, keys and certificates

`lg_sec.c` over a parameter `Psa` for the crypto library. An `Oracle` is what the world
answers during one work item: which library calls succeed, what the random generators give
and whether the radio accepts a command.
-/
namespace LockGrid

inductive Err
  | inval
  | perm
  | io
  | noKey
  | badMsg
  | already
  | busy
  | connRefused
  | msgSize
  | notConn
  | noMem
  | again
  deriving DecidableEq, Repr

/-- The primitives of the crypto library that have a value. -/
structure Psa where
  sha256 : Bytes → Bytes
  /-- Secret, salt and info. -/
  hkdf : Bytes → Bytes → Bytes → Bytes
  /-- Private key and the peer's point, which may not be one. -/
  ecdh : Bytes → Bytes → Option Bytes
  /-- Public key, hash and signature. -/
  verify : Bytes → Bytes → Bytes → Bool
  /-- Tag length, key, nonce, authenticated data and plaintext. -/
  aeadEncrypt : ℕ → Bytes → Bytes → Bytes → Bytes → Bytes
  aeadDecrypt : ℕ → Bytes → Bytes → Bytes → Bytes → Option Bytes

/-- The calls that can fail for want of resources. -/
inductive PsaCall
  | certHash
  | certVerify
  | random
  | keypair
  | transcript
  | verify
  | ecdh
  | kdfLink
  | kdfLtk
  | kdfResume
  | importKey
  | sign
  | encrypt
  | decrypt
  | beaconMac
  deriving DecidableEq, Repr

structure Oracle where
  ok : PsaCall → Bool
  nonce : Bytes
  /-- Public and private part of the ephemeral key pair. -/
  keypair : Bytes × Bytes
  sign : Bytes → Bytes
  /-- What `link_params_fill` finds in its hop seed. -/
  seed : UInt16
  /-- The draws of `sys_rand32_get`. -/
  rand32 : ℕ → ℕ
  phyOk : Bool
  /-- Whether the arbiter takes a request. -/
  tsOk : Bool
  /-- What an energy detect sweep measures. -/
  noiseDbm : ℤ
  nonce_length : nonce.length = nonceLen
  keypair_length : keypair.1.length = ecPubLen
  sign_length : ∀ h, (sign h).length = sigLen

/-- The oracle of call `k` of several like ones, which draws anew. -/
def Oracle.nth (o : Oracle) (k : ℕ) : Oracle :=
  { o with rand32 := fun n => o.rand32 (64 * k + n) }

variable {cfg : Config}

/-! ## Frame protection -/

/-- Source address, format byte, frame counter, zero padding. -/
def nonceBuild (src : Addr) (ctr : UInt32) : Bytes := putLe16 src ++ [1] ++ putLe32 ctr ++ zeros 6

def Node.setKeys (c : Node cfg) (i : Fin cfg.maxNeighbors) (k : Keys) : Node cfg :=
  c.setNeigh i { c.neigh i with keys := k }

/-- Count a frame of neighbour `i`, under the key it is sealed with. -/
def useCtr (c : Node cfg) (i : Fin cfg.maxNeighbors) (key nonce aad plain : Bytes) : Node cfg :=
  let k := (c.neigh i).keys
  { c.setKeys i { k with txCtr := k.txCtr + 1 } with
    hist := { c.hist with calls := ⟨key, nonce, aad, plain⟩ :: c.hist.calls } }

def lgSecEncrypt (psa : Psa) (ok : Bool) (c : Node cfg) (i : Fin cfg.maxNeighbors) (pdu : Bytes)
    (hdrLen : ℕ) : Except Err Bytes × Node cfg :=
  let k := (c.neigh i).keys
  if !k.hasKey then (.error .noKey, c)
  else if pdu.length < hdrLen then (.error .inval, c)
  else
    let ctr := k.txCtr + 1
    let pdu := splice pdu offFctr (putLe32 ctr)
    let nonce := nonceBuild c.ident.addr ctr
    let aad := pdu.take hdrLen
    let plain := pdu.drop hdrLen
    match k.keyId with
    | none => (.error .io, c.setKeys i { k with txCtr := ctr })
    | some key =>
      let c := useCtr c i key nonce aad plain
      if pduMax < pdu.length + cfg.micLen then (.error .msgSize, c)
      else if !ok then (.error .io, c)
      else (.ok (aad ++ psa.aeadEncrypt cfg.micLen key nonce aad plain), c)

/-- `replay_check`: the keys with the counter taken, `none` for a repeat. -/
def replayCheck (window : ℕ) (k : Keys) (ctr : UInt32) : Option Keys :=
  if ctr = 0 then none
  else if k.rxCtr < ctr then
    let shift := ctr - k.rxCtr
    let mask := if 32 ≤ shift then 0 else k.replayMask <<< shift
    some { k with replayMask := mask ||| 1, rxCtr := ctr }
  else
    let behind := k.rxCtr - ctr
    if min window 32 ≤ behind.toNat then none
    else if k.replayMask &&& (1 <<< behind) ≠ 0 then none
    else some { k with replayMask := k.replayMask ||| (1 <<< behind) }

def lgSecDecrypt (psa : Psa) (ok : Bool) (c : Node cfg) (i : Fin cfg.maxNeighbors)
    (pdu : Bytes) : Except Err Bytes × Node cfg :=
  let k := (c.neigh i).keys
  if !k.hasKey then (.error .noKey, c)
  else if pdu.length < cfg.secOverhead then (.error .inval, c)
  else
    let ctr := getLe32 pdu offFctr
    let nonce := nonceBuild (getLe16 pdu offSrc) ctr
    let hdr := pdu.take hdrLenSec
    match k.keyId.bind fun key =>
        if ok then psa.aeadDecrypt cfg.micLen key nonce hdr (pdu.drop hdrLenSec) else none with
    | none => (.error .badMsg, c)
    | some plain =>
      match replayCheck cfg.replayWindow k ctr with
      | none => (.error .already, c)
      | some k' => (.ok (hdr ++ plain), c.setKeys i k')

/-! ## Beacon protection -/

def beaconMicLen : ℕ := 4

/-- Nonce of every beacon: the letter B, then zeros. -/
def beaconNonce : Bytes := 0x42 :: zeros 12

def beaconMac (psa : Psa) (ok : Bool) (netKey data : Bytes) : Option Bytes :=
  let out := psa.aeadEncrypt beaconMicLen netKey beaconNonce data []
  if ok && beaconMicLen ≤ out.length then some (out.take beaconMicLen) else none

def lgSecBeaconSeal (psa : Psa) (ok : Bool) (netKey pdu : Bytes) : Option Bytes :=
  if pduMax < pdu.length + beaconMicLen then none
  else (beaconMac psa ok netKey pdu).map fun mic => pdu ++ mic

/-- `lg_sec_beacon_open`: the beacon without its MIC, when that verifies. -/
def lgSecBeaconOpen (psa : Psa) (ok : Bool) (netKey pdu : Bytes) : Option Bytes :=
  if pdu.length ≤ beaconMicLen then none
  else
    let body := pdu.take (pdu.length - beaconMicLen)
    match beaconMac psa ok netKey body with
    | none => none
    | some mic => if mic = pdu.drop (pdu.length - beaconMicLen) then some body else none

/-! ## Hashing, signatures and certificates -/

def lgSecHash (psa : Psa) (ok : Bool) (m : Bytes) : Except Err Bytes :=
  if ok then .ok (psa.sha256 m) else .error .io

def lgSecKdf (psa : Psa) (ok : Bool) (secret salt info : Bytes) : Except Err Bytes :=
  if ok then .ok (psa.hkdf secret salt info) else .error .io

def lgSecEcdh (psa : Psa) (ok : Bool) (priv pub : Bytes) : Except Err Bytes :=
  match psa.ecdh priv pub with
  | some secret => if ok then .ok secret else .error .io
  | none => .error .io

def lgSecVerify (psa : Psa) (ok : Bool) (pub hash sig : Bytes) : Except Err Unit :=
  if !ok then .error .io
  else if psa.verify pub hash sig then .ok ()
  else .error .badMsg

structure CertInfo where
  addr : Addr
  role : UInt8
  pub : Bytes
  deriving DecidableEq, Repr

def lgSecCertVerify (psa : Psa) (o : Oracle) (id : Identity) (cert : Bytes) :
    Except Err CertInfo := do
  if cert.length ≠ certLen then throw .inval
  if id.caPub.length ≠ ecPubLen then throw .noKey
  let hash ← lgSecHash psa (o.ok .certHash) (slice cert 0 certBodyLen)
  match lgSecVerify psa (o.ok .certVerify) id.caPub hash (slice cert certOffSig sigLen) with
  | .error _ => throw .badMsg
  | .ok () =>
    let addr := getLe16 cert certOffAddr
    if addr = addrInvalid ∨ addr = addrBroadcast ∨ addr = addrBackhaul then throw .inval
    return ⟨addr, getByte cert certOffRole, slice cert certOffPub ecPubLen⟩

/-! ## Link keys -/

/-- What `psa_destroy_key` of the identifier, if there is one, leaves of the keys. -/
def destroyed (live : List ℕ) (k : Keys) : List ℕ :=
  if k.keyNo = 0 then live else live.erase k.keyNo

def Node.destroyKey (c : Node cfg) (i : Fin cfg.maxNeighbors) : Node cfg :=
  { c with hist := { c.hist with live := destroyed c.hist.live (c.neigh i).keys } }

section

variable (c : Node cfg) (i : Fin cfg.maxNeighbors)

@[simp] theorem Node.destroyKey_neigh : (c.destroyKey i).neigh = c.neigh := rfl
@[simp] theorem Node.destroyKey_view : (c.destroyKey i).view = c.view := rfl
@[simp] theorem Node.destroyKey_net : (c.destroyKey i).net = c.net := rfl
@[simp] theorem Node.destroyKey_hs : (c.destroyKey i).hs = c.hs := rfl
@[simp] theorem Node.destroyKey_ident : (c.destroyKey i).ident = c.ident := rfl

end

/-- A key that was imported under the identifier `no`, with fresh counters. -/
def Keys.installed (k : Keys) (key : Bytes) (no : ℕ) : Keys :=
  { k with
    linkKey := key, keyId := some key, keyNo := no, hasKey := true
    txCtr := 0, rxCtr := 0, replayMask := 0 }

/-- A key whose import was refused. -/
def Keys.installFailed (k : Keys) (key : Bytes) : Keys :=
  { k with linkKey := key, keyId := none, keyNo := 0, hasKey := false }

def lgSecInstallKey (ok : Bool) (c : Node cfg) (i : Fin cfg.maxNeighbors) (key : Bytes) :
    Except Err Unit × Node cfg :=
  let k := (c.neigh i).keys
  let c := c.destroyKey i
  if ok then
    let no := c.hist.installs.length + 1
    (.ok (), { c.setKeys i (k.installed key no) with
      hist := { c.hist with installs := key :: c.hist.installs, live := no :: c.hist.live } })
  else (.error .io, c.setKeys i (k.installFailed key))

def Keys.forget (k : Keys) : Keys :=
  { k with keyId := none, keyNo := 0, hasKey := false, linkKey := zeros keyLen }

def lgSecForgetKey (c : Node cfg) (i : Fin cfg.maxNeighbors) : Node cfg :=
  (c.destroyKey i).setKeys i (c.neigh i).keys.forget

/-- What is written to the entry after it covers the keys. -/
theorem lgSecForgetKey_setNeigh (c : Node cfg) (i : Fin cfg.maxNeighbors) (n : Neigh) :
    (lgSecForgetKey c i).setNeigh i n = (c.destroyKey i).setNeigh i n :=
  congrArg (fun t => { c.destroyKey i with neigh := t }) (Function.update_idem ..)

theorem lgSecForgetKey_self (c : Node cfg) (i : Fin cfg.maxNeighbors) :
    (lgSecForgetKey c i).neigh i = { c.neigh i with keys := (c.neigh i).keys.forget } :=
  Function.update_self ..

/-! ## Basic facts -/

/-- What `lg_sec_encrypt` does to the node: nothing, a counter used up for nothing, or a
counter used under the key. -/
theorem lgSecEncrypt_cases (psa : Psa) (ok : Bool) (c : Node cfg) (i : Fin cfg.maxNeighbors)
    (pdu : Bytes) (hdrLen : ℕ) :
    (lgSecEncrypt psa ok c i pdu hdrLen).2 = c ∨
      ((c.neigh i).keys.keyId = none ∧ (lgSecEncrypt psa ok c i pdu hdrLen).2 =
        c.setKeys i { (c.neigh i).keys with txCtr := (c.neigh i).keys.txCtr + 1 }) ∨
      ∃ key aad plain, (c.neigh i).keys.hasKey = true ∧ (c.neigh i).keys.keyId = some key ∧
        (lgSecEncrypt psa ok c i pdu hdrLen).2 = useCtr c i key
          (nonceBuild c.ident.addr ((c.neigh i).keys.txCtr + 1)) aad plain := by
  unfold lgSecEncrypt
  dsimp only
  by_cases hk : (c.neigh i).keys.hasKey = true
  · rw [if_neg (by simp [hk])]
    by_cases hl : pdu.length < hdrLen
    · exact .inl (by rw [if_pos hl])
    · rw [if_neg hl]
      cases hid : (c.neigh i).keys.keyId with
      | none => exact .inr (.inl ⟨rfl, rfl⟩)
      | some key =>
        dsimp only
        split_ifs <;> exact .inr (.inr ⟨key, _, _, hk, rfl, rfl⟩)
  · exact .inl (by rw [if_pos (by simp [hk])])

/-- `lg_sec_decrypt` moves at most the replay filter. -/
theorem lgSecDecrypt_cases (psa : Psa) (ok : Bool) (c : Node cfg) (i : Fin cfg.maxNeighbors)
    (pdu : Bytes) :
    (lgSecDecrypt psa ok c i pdu).2 = c ∨ ∃ rxCtr replayMask,
      (lgSecDecrypt psa ok c i pdu).2 =
        c.setKeys i { (c.neigh i).keys with rxCtr := rxCtr, replayMask := replayMask } := by
  unfold lgSecDecrypt
  dsimp only
  split
  · exact .inl rfl
  · split
    · exact .inl rfl
    · split
      · exact .inl rfl
      · split
        · exact .inl rfl
        · next k hk =>
          unfold replayCheck at hk
          dsimp only at hk
          split_ifs at hk <;> cases hk <;> exact .inr ⟨_, _, rfl⟩

/-- A frame that opens has been opened under the key the neighbour has. -/
theorem lgSecDecrypt_ok {psa : Psa} {ok : Bool} {c c' : Node cfg} {i : Fin cfg.maxNeighbors}
    {pdu plain : Bytes} (h : lgSecDecrypt psa ok c i pdu = (.ok plain, c')) :
    (c'.neigh i).keys.hasKey = true ∧ ∃ key, (c'.neigh i).keys.keyId = some key := by
  have hcases := lgSecDecrypt_cases psa ok c i pdu
  have hkeys : (c.neigh i).keys.hasKey = true ∧ ∃ key, (c.neigh i).keys.keyId = some key := by
    unfold lgSecDecrypt at h
    dsimp only at h
    split at h
    · cases h
    · next hk =>
      split at h
      · cases h
      · split at h
        · cases h
        · next hb =>
          obtain ⟨key, hkey, -⟩ := Option.bind_eq_some_iff.mp hb
          exact ⟨by simpa using hk, key, hkey⟩
  rw [h] at hcases
  rcases hcases with hc | ⟨r, m, hc⟩
  · rw [show c' = c from hc]
    exact hkeys
  · rw [show c' = _ from hc]
    simpa [Node.setKeys] using hkeys

theorem nonceBuild_inj {src src' : Addr} {ctr ctr' : UInt32}
    (h : nonceBuild src ctr = nonceBuild src' ctr') : src = src' ∧ ctr = ctr' := by
  have hsrc : putLe16 src = putLe16 src' := congrArg (List.take 2) h
  have hctr : putLe32 ctr = putLe32 ctr' := congrArg (fun l => (l.drop 3).take 4) h
  exact ⟨putLe16_injective hsrc, putLe32_injective hctr⟩

end LockGrid
