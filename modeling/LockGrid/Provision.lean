import LockGrid.Numbering
import LockGrid.Traces

/-!
# Provisioning

`lg_provision` writes the identity it is given, brings the crypto library up and checks the
certificate, and takes the address from the certificate last.
-/
namespace LockGrid

variable {cfg : Config} {psa : Psa} {o : Oracle} {c d : Node cfg}

/-- What `lg_provision` and `lg_sec_init` return. -/
inductive ProvisionErr
  | inval
  | busy
  | io
  | acces
  deriving DecidableEq, Repr

/-- `struct lg_identity`, a null pointer being `none`. -/
structure LgIdentity where
  networkId : UInt32
  cert : Option Bytes
  privKey : Option Bytes
  caPubKey : Option Bytes
  netKey : Option Bytes
  deriving DecidableEq, Repr

/-- An identity whose parts are there and have their lengths. -/
structure Material where
  networkId : UInt32
  cert : Bytes
  privKey : Bytes
  caPub : Bytes
  netKey : Bytes
  cert_length : cert.length = certLen
  privKey_length : privKey.length = ecPrivLen
  caPub_length : caPub.length = ecPubLen
  netKey_length : netKey.length = keyLen
  deriving DecidableEq, Repr

/-- The checks on the arguments of `lg_provision`. -/
def LgIdentity.material (id : LgIdentity) : Option Material := do
  let cert ← id.cert
  let privKey ← id.privKey
  let caPub ← id.caPubKey
  let netKey ← id.netKey
  if h : cert.length = certLen ∧ privKey.length = ecPrivLen ∧ caPub.length = ecPubLen ∧
      netKey.length = keyLen then
    some ⟨id.networkId, cert, privKey, caPub, netKey, h.1, h.2.1, h.2.2.1, h.2.2.2⟩
  else none

/-- A node, and what of its identity the rest of it does not look at. -/
structure Provisioned (cfg : Config) where
  node : Node cfg
  privKey : Bytes
  /-- The grid key that the crypto library holds. -/
  netKeyId : Option Bytes

namespace Provisioned

/-- Before the first call of `lg_provision`. -/
def boot (cfg : Config) : Provisioned cfg where
  node := .boot cfg {
    networkId := 0, netid16 := 0, addr := addrInvalid, cert := [], caPub := [],
    netKey := zeros keyLen }
  privKey := []
  netKeyId := none

/-- The fields that `lg_provision` writes before it has checked them. -/
def write (s : Provisioned cfg) (m : Material) : Provisioned cfg :=
  { s with
    node := { s.node with ident := { s.node.ident with
      networkId := m.networkId
      netid16 := m.networkId.toUInt16
      cert := m.cert
      caPub := m.caPub
      netKey := m.netKey } }
    privKey := m.privKey }

/-- The grid key in the crypto library is replaced, if the library is up. -/
def lgSecInit (cryptoInit netImport : Bool) (s : Provisioned cfg) : Bool × Provisioned cfg :=
  if !cryptoInit then (false, s)
  else if netImport then (true, { s with netKeyId := some s.node.ident.netKey })
  else (false, { s with netKeyId := none })

def setAddr (s : Provisioned cfg) (addr : Addr) : Provisioned cfg :=
  { s with node := { s.node with ident := { s.node.ident with addr := addr } } }

def lgProvision (psa : Psa) (o : Oracle) (cryptoInit netImport : Bool) (id : Option LgIdentity)
    (s : Provisioned cfg) : Except ProvisionErr Unit × Provisioned cfg :=
  match id.bind LgIdentity.material with
  | none => (.error .inval, s)
  | some m =>
    if s.node.started then (.error .busy, s)
    else
      let s := s.write m
      match lgSecInit cryptoInit netImport s with
      | (false, s) => (.error .io, s)
      | (true, s) =>
        match lgSecCertVerify psa o s.node.ident s.node.ident.cert with
        | .error _ => (.error .acces, s)
        | .ok info => (.ok (), s.setAddr info.addr)

/-! ## Runs -/

/-- A call of `lg_provision`, whose crypto calls may fail, or a step of the node. -/
inductive Op
  | provision (cryptoInit netImport : Bool) (id : Option LgIdentity)
  | node (inp : Input)

def Enabled (s : Provisioned cfg) : Op → Prop
  | .provision .. => True
  | .node inp => LockGrid.Enabled s.node inp

def perform (psa : Psa) (o : Oracle) (s : Provisioned cfg) : Op → Option (Provisioned cfg)
  | .provision cryptoInit netImport id => some (s.lgProvision psa o cryptoInit netImport id).2
  | .node inp => (LockGrid.perform psa o s.node inp).map fun d => { s with node := d }

/-- A step that meets the condition `P`. -/
def Step (psa : Psa) (P : Provisioned cfg → Oracle → Op → Prop) (s s' : Provisioned cfg) : Prop :=
  ∃ o op, s.Enabled op ∧ P s o op ∧ s.perform psa o op = some s'

/-- The crypto library does its part, and the certificate is one of the authority given with it. -/
def Accepts (psa : Psa) (o : Oracle) (cryptoInit netImport : Bool) (m : Material)
    (s : Provisioned cfg) : Prop :=
  cryptoInit = true ∧ netImport = true ∧
    ∃ info, lgSecCertVerify psa o (s.write m).node.ident m.cert = .ok info

/-- The identity is the one the node has, and the crypto library has what will be left in it. -/
def Has (cryptoInit netImport : Bool) (m : Material) (s : Provisioned cfg) : Prop :=
  s.write m = s ∧
    (cryptoInit = true → s.netKeyId = if netImport then some m.netKey else none)

/-- No call of `lg_provision` on a stopped node fails once it has begun to write, except with the
identity that the node has. -/
def Op.Settled (psa : Psa) (s : Provisioned cfg) (o : Oracle) : Op → Prop
  | .provision cryptoInit netImport id => ∀ m, id.bind LgIdentity.material = some m →
      s.node.started = false →
        s.Accepts psa o cryptoInit netImport m ∨ s.Has cryptoInit netImport m
  | .node _ => True

/-! ## A single call -/

variable {s s' : Provisioned cfg} {cryptoInit netImport : Bool} {id : Option LgIdentity}
  {m : Material}

@[simp] theorem write_netKeyId (s : Provisioned cfg) (m : Material) :
    (s.write m).netKeyId = s.netKeyId := rfl

@[simp] theorem write_cert (s : Provisioned cfg) (m : Material) :
    (s.write m).node.ident.cert = m.cert := rfl

@[simp] theorem write_netKey (s : Provisioned cfg) (m : Material) :
    (s.write m).node.ident.netKey = m.netKey := rfl

@[simp] theorem write_addr (s : Provisioned cfg) (m : Material) :
    (s.write m).node.ident.addr = s.node.ident.addr := rfl

/-- How a call on a stopped node with a well-formed identity goes. -/
theorem lgProvision_cases (psa : Psa) (o : Oracle) (cryptoInit netImport : Bool)
    (hm : id.bind LgIdentity.material = some m) (hstopped : s.node.started = false) :
    (∃ info, s.Accepts psa o cryptoInit netImport m ∧
      lgSecCertVerify psa o (s.write m).node.ident m.cert = .ok info ∧
      s.lgProvision psa o cryptoInit netImport id =
        (.ok (), ({ s.write m with netKeyId := some m.netKey } : Provisioned cfg).setAddr
          info.addr)) ∨
    (¬ s.Accepts psa o cryptoInit netImport m ∧
      (s.lgProvision psa o cryptoInit netImport id).1 ≠ .ok () ∧
      (s.lgProvision psa o cryptoInit netImport id).2 =
        if cryptoInit then
          { s.write m with netKeyId := if netImport then some m.netKey else none }
        else s.write m) := by
  have hrun : s.lgProvision psa o cryptoInit netImport id =
      match lgSecInit cryptoInit netImport (s.write m) with
      | (false, s) => (.error .io, s)
      | (true, s) =>
        match lgSecCertVerify psa o s.node.ident s.node.ident.cert with
        | .error _ => (.error .acces, s)
        | .ok info => (.ok (), s.setAddr info.addr) := by
    simp [lgProvision, hm, hstopped]
  cases hcrypto : cryptoInit with
  | false =>
    right
    rw [hcrypto] at hrun
    rw [hrun]
    exact ⟨fun ha => (nomatch ha.1), nofun, rfl⟩
  | true =>
    cases himport : netImport with
    | false =>
      right
      rw [hcrypto, himport] at hrun
      rw [hrun]
      exact ⟨fun ha => (nomatch ha.2.1), nofun, rfl⟩
    | true =>
      rw [hcrypto, himport] at hrun
      cases hverify : lgSecCertVerify psa o (s.write m).node.ident m.cert with
      | error e =>
        right
        have herr : s.lgProvision psa o true true id =
            (.error .acces, { s.write m with netKeyId := some m.netKey }) := by
          rw [hrun]
          simp [lgSecInit, hverify]
        rw [herr]
        refine ⟨fun ⟨_, _, info, hinfo⟩ => ?_, nofun, rfl⟩
        rw [hverify] at hinfo
        cases hinfo
      | ok info =>
        left
        refine ⟨info, ⟨rfl, rfl, info, hverify⟩, rfl, ?_⟩
        rw [hrun]
        simp [lgSecInit, hverify]

/-- A call that returns an error leaves everything as it was exactly if it is settled. -/
theorem lgProvision_atomic (s : Provisioned cfg) (psa : Psa) (o : Oracle)
    (cryptoInit netImport : Bool) (id : Option LgIdentity) :
    ((s.lgProvision psa o cryptoInit netImport id).1 ≠ .ok () →
      (s.lgProvision psa o cryptoInit netImport id).2 = s) ↔
    (Op.provision cryptoInit netImport id).Settled psa s o := by
  cases hm : id.bind LgIdentity.material with
  | none =>
    have hsame : (s.lgProvision psa o cryptoInit netImport id).2 = s := by
      simp [lgProvision, hm]
    refine ⟨fun _ m hm' => ?_, fun _ _ => hsame⟩
    rw [hm] at hm'
    cases hm'
  | some m =>
    cases hstopped : s.node.started with
    | true =>
      have hsame : (s.lgProvision psa o cryptoInit netImport id).2 = s := by
        simp [lgProvision, hm, hstopped]
      refine ⟨fun _ _ _ hs => ?_, fun _ _ => hsame⟩
      rw [hstopped] at hs
      cases hs
    | false =>
      have hsettled : (Op.provision cryptoInit netImport id).Settled psa s o ↔
          s.Accepts psa o cryptoInit netImport m ∨ s.Has cryptoInit netImport m := by
        constructor
        · intro h
          exact h m hm hstopped
        · intro h m' hm' _
          rw [hm] at hm'
          cases hm'
          exact h
      rw [hsettled]
      rcases lgProvision_cases psa o cryptoInit netImport hm hstopped with
        ⟨info, haccept, -, hrun⟩ | ⟨hnot, herr, hrun⟩
      · rw [hrun]
        exact ⟨fun _ => .inl haccept, fun _ hne => absurd rfl hne⟩
      · rw [hrun]
        have hleft : (if cryptoInit then
            { s.write m with netKeyId := if netImport then some m.netKey else none }
            else s.write m) = s ↔ s.Has cryptoInit netImport m := by
          cases cryptoInit with
          | false => simp [Has]
          | true =>
            simp only [Has, if_true, forall_const]
            constructor
            · intro h
              have hkey := congrArg netKeyId h
              refine ⟨?_, hkey.symm⟩
              calc s.write m = { s.write m with netKeyId := s.netKeyId } := rfl
                _ = s := by rw [← hkey]; exact h
            · rintro ⟨hwrite, hkey⟩
              rw [← hkey, hwrite]
        constructor
        · intro h
          exact .inr (hleft.mp (h herr))
        · intro h _
          rcases h with haccept | hhas
          · exact absurd haccept hnot
          · exact hleft.mpr hhas

/-! ## The address and the certificate -/

/-- A node without an address does not start. -/
theorem perform_started {inp : Input} (h : LockGrid.perform psa o c inp = some d)
    (hd : d.started = true) : c.started = true ∨ c.ident.addr ≠ addrInvalid := by
  by_cases hsend : ∃ dst port payload flags, inp = .send dst port payload flags
  · obtain ⟨dst, port, payload, flags, rfl⟩ := hsend
    cases h
    have hmail := (lgSend_minds c dst port payload flags).mail
    simp only [Node.mail, Prod.mk.injEq] at hmail
    exact .inl (hmail.2.1.symm.trans hd)
  · by_cases hstart : inp = .start
    · subst hstart
      cases h
      rcases lgStart_minds psa o c with he | ⟨-, haddr, -⟩
      · rw [he] at hd
        exact .inl hd
      · exact .inr haddr
    · by_cases hstop : inp = .stop
      · subst hstop
        cases h
        have hmail := (lgStop_minds o c).mail
        simp only [Node.mail, Prod.mk.injEq] at hmail
        rw [hmail.2.1] at hd
        cases hd
      · left
        have hsame := (perform_asks h
          (fun dst port payload flags he => hsend ⟨dst, port, payload, flags, he⟩)
          hstart hstop).numbers.2.1
        exact hsame.symm.trans hd

/-- A certificate that verifies yields the address in it. -/
theorem lgSecCertVerify_addr {ident : Identity} {cert : Bytes} {info : CertInfo}
    (h : lgSecCertVerify psa o ident cert = .ok info) :
    info.addr = getLe16 cert certOffAddr := by
  unfold lgSecCertVerify at h
  simp only [bind, Except.bind, throw, throwThe, MonadExceptOf.throw, pure, Except.pure] at h
  split at h
  · cases h
  · split at h
    · cases h
    · split at h
      · cases h
      · split at h
        · cases h
        · split at h
          · cases h
          · cases h
            rfl

/-- A node that has an address has it from its certificate, and only such a node runs. -/
structure Bound (s : Provisioned cfg) : Prop where
  addr : s.node.ident.addr ≠ addrInvalid →
    s.node.ident.addr = getLe16 s.node.ident.cert certOffAddr
  runs : s.node.started = true → s.node.ident.addr ≠ addrInvalid

theorem Bound.step {o : Oracle} {op : Op} (h : s.Bound) (hsettled : op.Settled psa s o)
    (hp : s.perform psa o op = some s') : s'.Bound := by
  cases op with
  | provision cryptoInit netImport id =>
    cases hp
    cases hok : (s.lgProvision psa o cryptoInit netImport id).1 with
    | error e =>
      rw [(lgProvision_atomic s psa o cryptoInit netImport id).mpr hsettled (by rw [hok]; nofun)]
      exact h
    | ok _ =>
      cases hm : id.bind LgIdentity.material with
      | none => simp [lgProvision, hm] at hok
      | some m =>
        cases hstopped : s.node.started with
        | true => simp [lgProvision, hm, hstopped] at hok
        | false =>
          rcases lgProvision_cases psa o cryptoInit netImport hm hstopped with
            ⟨info, -, hverify, hrun⟩ | ⟨-, herr, -⟩
          · rw [hrun]
            refine ⟨fun _ => lgSecCertVerify_addr hverify, fun hs => ?_⟩
            have hs' : s.node.started = true := hs
            rw [hstopped] at hs'
            cases hs'
          · exact absurd hok herr
  | node inp =>
    obtain ⟨d, hd, rfl⟩ := Option.map_eq_some_iff.mp hp
    have hident := perform_ident hd
    constructor
    · change d.ident.addr ≠ _ → d.ident.addr = getLe16 d.ident.cert _
      rw [hident]
      exact h.addr
    · intro hs
      change d.ident.addr ≠ _
      rw [hident]
      rcases perform_started hd hs with hs | haddr
      · exact h.runs hs
      · exact haddr

theorem Bound.run (h : Relation.ReflTransGen
    (Step psa fun s o op => op.Settled psa s o) (boot cfg) s) : s.Bound := by
  induction h with
  | refl => exact ⟨fun hne => absurd rfl hne, nofun⟩
  | tail _ hstep ih =>
    obtain ⟨o, op, -, hsettled, hp⟩ := hstep
    exact ih.step hsettled hp

/-- **An identity is taken as a whole.** In every run whose calls of `lg_provision` are settled, a
node that runs has the address of the certificate that it presents; and in every state, a call that
returns an error leaves the identity as it was exactly if the call is settled. -/
theorem identity_atomic (hrun : Relation.ReflTransGen
    (Step psa fun s o op => op.Settled psa s o) (boot cfg) s) :
    (∀ o cryptoInit netImport id,
      ((s.lgProvision psa o cryptoInit netImport id).1 ≠ .ok () →
        (s.lgProvision psa o cryptoInit netImport id).2 = s) ↔
      (Op.provision cryptoInit netImport id).Settled psa s o) ∧
    (s.node.started = true →
      s.node.ident.addr = getLe16 s.node.ident.cert certOffAddr) := by
  constructor
  · intro o cryptoInit netImport id
    exact lgProvision_atomic s psa o cryptoInit netImport id
  · intro hs
    have hbound := Bound.run hrun
    exact hbound.addr (hbound.runs hs)

/-- Node 1 or 2 of a grid, with a certificate of its authority. -/
def plainIdentity (addr : Addr) : Option LgIdentity :=
  some ⟨7, some (plainCert addr (plainPub 1)), some (zeros ecPrivLen), some plainCa,
    some (zeros keyLen)⟩

/-- Provisioned as node 1. -/
def provisioned : Provisioned .default :=
  ((boot .default).lgProvision Psa.plain (calm 1) true true (plainIdentity 1)).2

theorem provisioned_ok :
    ((boot .default).lgProvision Psa.plain (calm 1) true true (plainIdentity 1)).1 = .ok () := by
  decide +kernel

theorem identity_atomic_provisioned :
    ∃ s : Provisioned .default, Relation.ReflTransGen
        (Step Psa.plain fun s o op => op.Settled Psa.plain s o) (boot .default) s ∧
      s.node.started = true ∧ s.node.ident.addr = getLe16 s.node.ident.cert certOffAddr := by
  have hsettled : (Op.provision true true (plainIdentity 1)).Settled Psa.plain (boot .default)
      (calm 1) :=
    (lgProvision_atomic _ _ _ _ _ _).mp fun hne => absurd provisioned_ok hne
  have hfirst : Step Psa.plain (fun s o op => op.Settled Psa.plain s o) (boot .default)
      provisioned := ⟨calm 1, .provision true true (plainIdentity 1), trivial, hsettled, rfl⟩
  have hsecond : Step Psa.plain (fun s o op => op.Settled Psa.plain s o) provisioned
      { provisioned with node := lgStart Psa.plain (calm 2) provisioned.node } :=
    ⟨calm 2, .node .start, trivial, trivial, rfl⟩
  have hrun := (Relation.ReflTransGen.single hfirst).tail hsecond
  have hstarted : (lgStart Psa.plain (calm 2) provisioned.node).started = true := by
    decide +kernel
  exact ⟨_, hrun, hstarted, (identity_atomic hrun).2 hstarted⟩

/-- A second identity, with the crypto library down for a moment. -/
def replaced : Provisioned .default :=
  (provisioned.lgProvision Psa.plain (calm 2) false true (plainIdentity 2)).2

/-- The call fails, and node 1 starts with the certificate of node 2. -/
theorem not_identity_atomic :
    ¬ ∀ (cfg : Config) (psa : Psa) (s : Provisioned cfg), Relation.ReflTransGen
        (Step psa fun _ _ _ => True) (boot cfg) s →
      (∀ o cryptoInit netImport id,
        (s.lgProvision psa o cryptoInit netImport id).1 ≠ .ok () →
          (s.lgProvision psa o cryptoInit netImport id).2 = s) ∧
      (s.node.started = true →
        s.node.ident.addr = getLe16 s.node.ident.cert certOffAddr) := by
  intro h
  have hfirst : Step Psa.plain (fun _ _ _ => True) (boot .default) provisioned :=
    ⟨calm 1, .provision true true (plainIdentity 1), trivial, trivial, rfl⟩
  have hsecond : Step Psa.plain (fun _ _ _ => True) provisioned replaced :=
    ⟨calm 2, .provision false true (plainIdentity 2), trivial, trivial, rfl⟩
  have hthird : Step Psa.plain (fun _ _ _ => True) replaced
      { replaced with node := lgStart Psa.plain (calm 3) replaced.node } :=
    ⟨calm 3, .node .start, trivial, trivial, rfl⟩
  have hclash : (lgStart Psa.plain (calm 3) replaced.node).started = true ∧
      (lgStart Psa.plain (calm 3) replaced.node).ident.addr = 1 ∧
      getLe16 (lgStart Psa.plain (calm 3) replaced.node).ident.cert certOffAddr = 2 := by
    decide +kernel
  generalize lgStart Psa.plain (calm 3) replaced.node = d at hthird hclash
  obtain ⟨hstarted, haddr, hcert⟩ := hclash
  have hrun := ((Relation.ReflTransGen.single hfirst).tail hsecond).tail hthird
  have hsame : d.ident.addr = getLe16 d.ident.cert certOffAddr := (h _ _ _ hrun).2 hstarted
  rw [haddr, hcert] at hsame
  exact absurd hsame (by decide)

end Provisioned

end LockGrid
