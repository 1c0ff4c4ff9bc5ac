import LockGrid.Ledger
import LockGrid.Provenance

/-!
# Nonces

The nonce of a frame is the source address and the frame counter of its neighbour's entry,
which starts over whenever a key is installed. So a nonce comes back under the same key exactly
when the key does. A key does not come back unless the joiner derives twice from one transcript
or the router twice from one resumption request.
-/
namespace LockGrid

variable {cfg : Config} {psa : Psa} {ι : Type} [DecidableEq ι]

/-- What is assumed of the hash and of the key derivation. -/
structure Psa.Ideal (psa : Psa) : Prop where
  sha256 : Function.Injective psa.sha256
  hkdf : ∀ {s t i s' t' i'}, psa.hkdf s t i = psa.hkdf s' t' i' → s = s' ∧ t = t' ∧ i = i'

/-! ## What a key was derived from -/

theorem transcriptMsg_injective {nid nid' : UInt32} {aj ar aj' ar' : Addr}
    {nj nr pj pr nj' nr' pj' pr' : Bytes}
    (h : transcriptMsg nid aj ar nj nr pj pr = transcriptMsg nid' aj' ar' nj' nr' pj' pr') :
    aj = aj' ∧ (nj.length = nj'.length → nr.length = nr'.length → nr = nr') := by
  simp only [transcriptMsg, List.append_assoc] at h
  obtain ⟨-, h⟩ := List.append_inj h rfl
  obtain ⟨haj, h⟩ := List.append_inj h rfl
  obtain ⟨-, h⟩ := List.append_inj h rfl
  refine ⟨putLe16_injective haj, fun hj hr => ?_⟩
  obtain ⟨-, h⟩ := List.append_inj h hj
  exact (List.append_inj h hr).1

/-- Two addresses are known from one of them, the smaller and the larger. -/
theorem eq_of_min_max_eq {a b b' : Addr} (hmin : min a b = min a b') (hmax : max a b = max a b') :
    b = b' := by
  simp only [min, max] at hmin hmax
  split_ifs at hmin hmax
  · exact hmax
  · exact hmax.trans hmin
  · exact hmin.trans hmax
  · exact hmin

theorem resumeSalt_injective {own peer peer' : Addr} {nj nj' : Bytes}
    (h : resumeSalt own peer nj = resumeSalt own peer' nj') (hlen : nj.length = nj'.length) :
    nj = nj' ∧ peer = peer' := by
  simp only [resumeSalt, List.append_assoc] at h
  obtain ⟨hn, h⟩ := List.append_inj h hlen
  obtain ⟨hmin, hmax⟩ := List.append_inj h rfl
  exact ⟨hn, eq_of_min_max_eq (putLe16_injective hmin) (putLe16_injective hmax)⟩

/-- How a key came to be installed. -/
inductive MadeFrom (psa : Psa) (own : Addr) (nid : UInt32) (nonces rsps : List Bytes)
    (resumes : List (Bytes × Bytes × Addr)) : Bytes → Prop
  | req {secret peer nonceJ nonce pubJ pubR} (hp : peer ≠ own)
    (hj : nonceJ.length = nonceLen) (hl : nonce.length = nonceLen) (hn : nonce ∈ nonces) :
    MadeFrom psa own nid nonces rsps resumes (psa.hkdf secret
      (psa.sha256 (transcriptMsg nid peer own nonceJ nonce pubJ pubR)) infoLink)
  | rsp {secret peer nonceJ nonceR pubJ pubR}
    (ht : psa.sha256 (transcriptMsg nid own peer nonceJ nonceR pubJ pubR) ∈ rsps) :
    MadeFrom psa own nid nonces rsps resumes (psa.hkdf secret
      (psa.sha256 (transcriptMsg nid own peer nonceJ nonceR pubJ pubR)) infoLink)
  | resume {ltk nonceJ peer} (hj : nonceJ.length = nonceLen) (hr : (ltk, nonceJ, peer) ∈ resumes) :
    MadeFrom psa own nid nonces rsps resumes
      (psa.hkdf ltk (resumeSalt own peer nonceJ) infoResume)

abbrev Vault.MadeFrom (psa : Psa) (V : Vault ι) (key : Bytes) : Prop :=
  LockGrid.MadeFrom psa V.own V.networkId V.nonces V.rspDerived V.resumeDerived key

theorem infoLink_ne_infoResume : infoLink ≠ infoResume := by decide

section Fresh

variable {own : Addr} {nid : UInt32} {nonces rsps : List Bytes}
  {resumes : List (Bytes × Bytes × Addr)} (hpsa : psa.Ideal)
include hpsa

/-- A key derived from a `JOIN_REQ` with a nonce that was never drawn before is new. -/
theorem fresh_req {secret nonceJ nonce pubJ pubR : Bytes} {peer : Addr} (hp : peer ≠ own)
    (hj : nonceJ.length = nonceLen) (hl : nonce.length = nonceLen) (hn : nonce ∉ nonces) :
    ¬ MadeFrom psa own nid nonces rsps resumes (psa.hkdf secret
      (psa.sha256 (transcriptMsg nid peer own nonceJ nonce pubJ pubR)) infoLink) := by
  generalize hk : psa.hkdf secret _ infoLink = key
  rintro (⟨hp', hj', hl', hn'⟩ | ⟨ht'⟩ | ⟨hj', hr'⟩)
  · obtain ⟨-, ht, -⟩ := hpsa.hkdf hk
    obtain ⟨-, hnonce⟩ := transcriptMsg_injective (hpsa.sha256 ht)
    rw [hnonce (hj.trans hj'.symm) (hl.trans hl'.symm)] at hn
    exact hn hn'
  · obtain ⟨-, ht, -⟩ := hpsa.hkdf hk
    exact hp (transcriptMsg_injective (hpsa.sha256 ht)).1
  · exact infoLink_ne_infoResume (hpsa.hkdf hk).2.2

/-- A key derived from a `JOIN_RSP` is new unless one was derived from its transcript before. -/
theorem fresh_rsp {secret nonceJ nonceR pubJ pubR : Bytes} {peer : Addr}
    (ht : psa.sha256 (transcriptMsg nid own peer nonceJ nonceR pubJ pubR) ∉ rsps) :
    ¬ MadeFrom psa own nid nonces rsps resumes (psa.hkdf secret
      (psa.sha256 (transcriptMsg nid own peer nonceJ nonceR pubJ pubR)) infoLink) := by
  generalize hk : psa.hkdf secret _ infoLink = key
  rintro (⟨hp', hj', hl', hn'⟩ | ⟨ht'⟩ | ⟨hj', hr'⟩)
  · obtain ⟨-, htt, -⟩ := hpsa.hkdf hk
    exact hp' (transcriptMsg_injective (hpsa.sha256 htt)).1.symm
  · obtain ⟨-, htt, -⟩ := hpsa.hkdf hk
    rw [htt] at ht
    exact ht ht'
  · exact infoLink_ne_infoResume (hpsa.hkdf hk).2.2

/-- A resumed key is new unless one was derived from the same long term key and request. -/
theorem fresh_resume {ltk nonceJ : Bytes} {peer : Addr} (hj : nonceJ.length = nonceLen)
    (hr : (ltk, nonceJ, peer) ∉ resumes) :
    ¬ MadeFrom psa own nid nonces rsps resumes
      (psa.hkdf ltk (resumeSalt own peer nonceJ) infoResume) := by
  generalize hk : psa.hkdf ltk _ infoResume = key
  rintro (⟨hp', hj', hl', hn'⟩ | ⟨ht'⟩ | ⟨hj', hr'⟩)
  · exact infoLink_ne_infoResume (hpsa.hkdf hk).2.2.symm
  · exact infoLink_ne_infoResume (hpsa.hkdf hk).2.2.symm
  · obtain ⟨hltk, hsalt, -⟩ := hpsa.hkdf hk
    obtain ⟨hnj, hpeer⟩ := resumeSalt_injective hsalt (hj.trans hj'.symm)
    rw [hltk, hnj, hpeer] at hr
    exact hr hr'

end Fresh

theorem MadeFrom.mono {own : Addr} {nid : UInt32} {nonces nonces' rsps rsps' : List Bytes}
    {resumes resumes' : List (Bytes × Bytes × Addr)} (hn : nonces ⊆ nonces') (hr : rsps ⊆ rsps')
    (hs : resumes ⊆ resumes') {key : Bytes} (h : MadeFrom psa own nid nonces rsps resumes key) :
    MadeFrom psa own nid nonces' rsps' resumes' key := by
  cases h with
  | req hp hj hl hmem => exact .req hp hj hl (hn hmem)
  | rsp ht => exact .rsp (hr ht)
  | resume hj hmem => exact .resume hj (hs hmem)

/-! ## The key store keeps a ledger -/

namespace Vault

variable {V V' : Vault ι}

/-- No nonce was drawn twice, and nothing was derived twice from one transcript or from one
request. -/
structure Unrepeated (V : Vault ι) : Prop where
  nonces : V.nonces.Nodup
  rsps : V.rspDerived.Nodup
  resumes : V.resumeDerived.Nodup

theorem Step.unrepeated (h : Step psa V V') (hu : V'.Unrepeated) : V.Unrepeated := by
  obtain ⟨hn, hr, hs⟩ := hu
  cases h <;> simp only [set, note] at hn hr hs
  case draw => exact ⟨(List.nodup_cons.mp hn).2, hr, hs⟩
  case fromReq => exact ⟨(List.nodup_cons.mp hn).2, hr, hs⟩
  case fromRsp => exact ⟨hn, (List.nodup_cons.mp hr).2, hs⟩
  case resume => exact ⟨hn, hr, (List.nodup_cons.mp hs).2⟩
  all_goals exact ⟨hn, hr, hs⟩

/-- The keys of the ledger are those installed, its counts those of the frame counters. -/
structure Tracks (psa : Psa) (V : Vault ι) (L : Ledger.State ι Bytes) : Prop where
  live : ∀ i key, (V.keys i).keyId = some key →
    ∃ n, L.live i = some (key, n) ∧ (V.keys i).txCtr = UInt32.ofNat n
  installed : L.installed = V.installs
  used : V.calls.map (fun s => (s.key, s.nonce)) =
    L.used.map fun e => (e.1, nonceBuild V.own (UInt32.ofNat e.2))
  made : ∀ key ∈ V.installs, V.MadeFrom psa key

theorem Tracks.set {L : Ledger.State ι Bytes} (h : Tracks psa V L) (i : ι) (k : Keys)
    (hk : k.keyId = none ∨ k.keyId = (V.keys i).keyId ∧ k.txCtr = (V.keys i).txCtr) :
    Tracks psa (V.set i k) L := by
  refine ⟨fun j key hj => ?_, h.installed, h.used, h.made⟩
  by_cases hji : j = i
  · subst hji
    simp only [Vault.set, Function.update_self] at hj ⊢
    rcases hk with hnone | ⟨hid, hctr⟩
    · rw [hnone] at hj
      cases hj
    · rw [hctr]
      exact h.live j key (hid ▸ hj)
  · simp only [Vault.set, Function.update_of_ne hji] at hj ⊢
    exact h.live j key hj

theorem Tracks.use {L : Ledger.State ι Bytes} (h : Tracks psa V L) (i : ι) (key aad plain : Bytes)
    (hid : (V.keys i).keyId = some key) :
    ∃ L', Ledger.Step L L' ∧
      Tracks psa { V.set i { V.keys i with txCtr := (V.keys i).txCtr + 1 } with
        calls := ⟨key, nonceBuild V.own ((V.keys i).txCtr + 1), aad, plain⟩ :: V.calls } L' := by
  obtain ⟨n, hn, hctr⟩ := h.live i key hid
  have hsucc : (V.keys i).txCtr + 1 = UInt32.ofNat (n + 1) := by
    rw [hctr, UInt32.ofNat_add]
    rfl
  refine ⟨L.use i key n, .use L hn, fun j key' hj => ?_, h.installed, ?_, h.made⟩
  · by_cases hji : j = i
    · subst hji
      simp only [Vault.set, Function.update_self] at hj ⊢
      rw [hid, Option.some.injEq] at hj
      exact ⟨n + 1, by simp [Ledger.State.use, hj], hsucc⟩
    · simp only [Vault.set, Ledger.State.use, Function.update_of_ne hji] at hj ⊢
      exact h.live j key' hj
  · have hused := h.used
    simp only [Vault.set, Ledger.State.use, List.map_cons, hused, hsucc]

/-- A derivation of a key that no installed key was made like installs it in the ledger. -/
theorem Tracks.derived {L : Ledger.State ι Bytes} (h : Tracks psa V L) {i : ι}
    {ltk : Option Bytes} {key : Bytes} {k : Keys} {ins : List Bytes} {ds : List Dealing}
    {live live' : List ℕ} {no : ℕ}
    (hd : Derived live no ltk key (V.keys i) k ins ds live') (hnew : ¬ V.MadeFrom psa key) :
    ∃ L', Ledger.Steps L L' ∧ L'.installed = ins ++ V.installs ∧ L'.used = L.used ∧
      ∀ j key', ((V.set i k).keys j).keyId = some key' →
        ∃ n, L'.live j = some (key', n) ∧ ((V.set i k).keys j).txCtr = UInt32.ofNat n := by
  cases hd with
  | nothing => exact ⟨L, .refl, h.installed, rfl, (h.set i _ (.inr ⟨rfl, rfl⟩)).live⟩
  | failed => exact ⟨L, .refl, h.installed, rfl, (h.set i _ (.inl rfl)).live⟩
  | installed =>
    have hfresh : key ∉ L.installed := fun hmem => hnew (h.made key (h.installed ▸ hmem))
    refine ⟨L.install i key, .single (.install L i hfresh), ?_, rfl, fun j key' hj => ?_⟩
    · simp [Ledger.State.install, h.installed]
    · by_cases hji : j = i
      · subst hji
        simp only [Vault.set, Function.update_self, Keys.installed, Option.some.injEq] at hj
        exact ⟨0, by simp [Ledger.State.install, hj], by simp [Vault.set, Keys.installed]⟩
      · simp only [Vault.set, Ledger.State.install, Function.update_of_ne hji] at hj ⊢
        exact h.live j key' hj

theorem Derived.mem {ltk : Option Bytes} {key : Bytes} {k k' : Keys} {ins : List Bytes}
    {ds : List Dealing} {live live' : List ℕ} {no : ℕ}
    (hd : Derived live no ltk key k k' ins ds live') {x : Bytes} (hx : x ∈ ins) :
    x = key := by
  cases hd with
  | nothing => cases hx
  | failed => cases hx
  | installed => exact List.mem_singleton.mp hx

/-- Every step of the key store is one of the ledger, or none, as long as nothing is drawn or
derived twice. -/
theorem Step.tracks (hpsa : psa.Ideal) (h : Step psa V V') (hu : V'.Unrepeated)
    {L : Ledger.State ι Bytes} (ht : Tracks psa V L) :
    ∃ L', Ledger.Steps L L' ∧ Tracks psa V' L' := by
  have hsame : ∀ i k, k.keyId = none ∨ k.keyId = (V.keys i).keyId ∧ k.txCtr = (V.keys i).txCtr →
      ∃ L', Ledger.Steps L L' ∧ Tracks psa (V.set i k) L' :=
    fun i k hk => ⟨L, .refl, ht.set i k hk⟩
  cases h with
  | wipe i addr =>
    have h' := ht.set i ({} : Keys) (.inl rfl)
    exact ⟨L, .refl, h'.live, h'.installed, h'.used, h'.made⟩
  | forget i =>
    have h' := ht.set i (V.keys i).forget (.inl rfl)
    exact ⟨L, .refl, h'.live, h'.installed, h'.used, h'.made⟩
  | down i =>
    have h' := ht.set i { V.keys i with ltk := (V.keys i).linkKey, hasLtk := true }.forget
      (.inl rfl)
    exact ⟨L, .refl, h'.live, h'.installed, h'.used, h'.made⟩
  | dropLtk i =>
    have h' := ht.set i { V.keys i with hasLtk := false } (.inr ⟨rfl, rfl⟩)
    exact ⟨L, .refl, h'.live, h'.installed, h'.used, h'.made⟩
  | begin => exact ⟨L, .refl, ht.live, ht.installed, ht.used, ht.made⟩
  | fail i =>
    have h' := ht.set i (V.keys i).forget (.inl rfl)
    exact ⟨L, .refl, h'.live, h'.installed, h'.used, h'.made⟩
  | recount i => exact hsame i _ (.inr ⟨rfl, rfl⟩)
  | stall i hid => exact hsame i _ (.inl hid)
  | use i key aad plain hk hid =>
    obtain ⟨L', hL, h'⟩ := ht.use i key aad plain hid
    exact ⟨L', .single hL, h'⟩
  | draw nonce =>
    refine ⟨L, .refl, ht.live, ht.installed, ht.used, fun key hkey => ?_⟩
    exact (ht.made key hkey).mono (List.subset_cons_self _ _) (List.Subset.refl _)
      (List.Subset.refl _)
  | verify v sig hv => exact ⟨L, .refl, ht.live, ht.installed, ht.used, ht.made⟩
  | fromReq i nonce t secret k ins ds live hrt hd =>
    obtain ⟨nonceJ, pubJ, pubR, hj, rfl⟩ := hrt.hash
    obtain ⟨L', hL, hins, hused, hlive⟩ := ht.derived hd
      (fresh_req hpsa hrt.peer hj hrt.length (List.nodup_cons.mp hu.nonces).1)
    refine ⟨L', hL, hlive, hins, hused ▸ ht.used, fun key hkey => ?_⟩
    rcases List.mem_append.mp hkey with hnew | hold
    · rw [hd.mem hnew]
      exact .req hrt.peer hj hrt.length List.mem_cons_self
    · exact (ht.made key hold).mono (List.subset_cons_self _ _) (List.Subset.refl _)
        (List.Subset.refl _)
  | fromRsp i v secret k ins ds live hjt hv ha hd =>
    obtain ⟨nonceJ, nonceR, pubJ, pubR, hhash⟩ := hjt.hash
    have hfresh := (List.nodup_cons.mp hu.rsps).1
    have hmem : v.transcript ∈ v.transcript :: V.rspDerived := List.mem_cons_self
    rw [hhash] at hd hfresh hmem
    obtain ⟨L', hL, hins, hused, hlive⟩ := ht.derived hd (fresh_rsp hpsa hfresh)
    refine ⟨L', hL, hlive, hins, hused ▸ ht.used, fun key hkey => ?_⟩
    rcases List.mem_append.mp hkey with hnew | hold
    · rw [hd.mem hnew]
      exact .rsp (hhash ▸ hmem)
    · exact (ht.made key hold).mono (List.Subset.refl _) (List.subset_cons_self _ _)
        (List.Subset.refl _)
  | resume i nonceJ k ins live hl hn hd =>
    obtain ⟨L', hL, hins, hused, hlive⟩ := ht.derived hd
      (fresh_resume hpsa hn (List.nodup_cons.mp hu.resumes).1)
    refine ⟨L', hL, hlive, hins, hused ▸ ht.used, fun key hkey => ?_⟩
    rcases List.mem_append.mp hkey with hnew | hold
    · rw [hd.mem hnew]
      exact .resume hn List.mem_cons_self
    · exact (ht.made key hold).mono (List.Subset.refl _) (List.Subset.refl _)
        (List.subset_cons_self _ _)

theorem Steps.tracks (hpsa : psa.Ideal) (h : Steps psa V V') (hu : V'.Unrepeated)
    {L : Ledger.State ι Bytes} (hs : Ledger.Sound L) (ht : Tracks psa V L) :
    ∃ L', Ledger.Sound L' ∧ Tracks psa V' L' := by
  induction h with
  | refl => exact ⟨L, hs, ht⟩
  | tail _ hstep ih =>
    obtain ⟨L', hs', ht'⟩ := ih (hstep.unrepeated hu)
    obtain ⟨L'', hL, ht''⟩ := hstep.tracks hpsa hu ht'
    exact ⟨L'', hL.sound hs', ht''⟩

omit [DecidableEq ι] in
/-- While the counters do not wrap, what the ledger keeps apart the nonces keep apart. -/
theorem Tracks.calls_nodup {L : Ledger.State ι Bytes} (ht : Tracks psa V L) (hs : Ledger.Sound L)
    (hcount : ∀ key, V.calls.countP (fun s => s.key = key) < 2 ^ 32) :
    (V.calls.map fun s => (s.key, s.nonce)).Nodup := by
  have huses : ∀ key, L.uses key < 2 ^ 32 := by
    intro key
    have hmap := congrArg (List.countP fun e : Bytes × Bytes => e.1 = key) ht.used
    simp only [List.countP_map, Function.comp_def] at hmap
    exact hmap.symm.trans_lt (hcount key)
  rw [ht.used]
  refine hs.nodup.map_on fun e he e' he' heq => ?_
  obtain ⟨k, n⟩ := e
  obtain ⟨k', n'⟩ := e'
  obtain ⟨rfl, hnonce⟩ := Prod.mk.inj heq
  have hn := (hs.bound _ _ he).2.trans_lt (huses k)
  have hn' := (hs.bound _ _ he').2.trans_lt (huses k)
  have hctr := congrArg UInt32.toNat (nonceBuild_inj hnonce).2
  simp only [UInt32.toNat_ofNat'] at hctr
  rw [Nat.mod_eq_of_lt hn, Nat.mod_eq_of_lt hn'] at hctr
  rw [hctr]

end Vault

/-! ## Nonces of a run -/

/-- What is to hold of the frames a node has sealed. -/
def NoncesUnique (c : Node cfg) : Prop :=
  ∀ s ∈ c.hist.calls, ∀ t ∈ c.hist.calls, s.key = t.key → s.nonce = t.nonce →
    s.plain = t.plain ∧ s.aad = t.aad

theorem Node.boot_tracks (ident : Identity) :
    Vault.Tracks psa (Node.boot cfg ident).vault ⟨fun _ => none, [], []⟩ :=
  ⟨fun _ _ h => by simp [Node.boot, Node.vault] at h, rfl, rfl, fun _ h => by
    simp [Node.boot, Node.vault] at h⟩

/-- In every run with fresh nonces and without counter wraps, in which no `JOIN_RSP` and no
`RESUME_REQ` has keys derived from it a second time, no nonce comes back under a key. -/
theorem nonces_unique (hpsa : psa.Ideal) {ident : Identity} {c : Node cfg}
    (h : Reachable psa ident c) (hnonces : c.hist.nonces.Nodup)
    (hcount : ∀ key, c.hist.calls.countP (fun s => s.key = key) < 2 ^ 32)
    (hrsps : c.hist.rspDerived.Nodup) (hresumes : c.hist.resumeDerived.Nodup) :
    NoncesUnique c := by
  obtain ⟨L, hs, ht⟩ := h.advances.steps.tracks hpsa ⟨hnonces, hrsps, hresumes⟩
    Ledger.sound_empty (Node.boot_tracks ident)
  have hnodup := ht.calls_nodup hs hcount
  intro s hsmem t htmem hkey hnonce
  have heq : s = t := List.inj_on_of_nodup_map hnodup hsmem htmem (by rw [hkey, hnonce])
  rw [heq]
  exact ⟨rfl, rfl⟩

theorem plain_ideal : Psa.plain.Ideal := ⟨plain_sha256_injective, plain_hkdf_injective⟩

/-- At most `calls.length` frames are sealed under any one key. -/
theorem countP_key_lt {c : Node cfg} (h : c.hist.calls.length < 2 ^ 32) (key : Bytes) :
    c.hist.calls.countP (fun s => s.key = key) < 2 ^ 32 :=
  List.countP_le_length.trans_lt h

def badCfm : RxRec := plainFrag .joinCfm 1 2 [0] 0

def resumeReq : RxRec := plainFrag .resumeReq 1 2 (List.replicate nonceLen 8) 0

/-- Node 1 as a router: a `JOIN_REQ` with a replayed certificate leaves a long term key behind,
and a `RESUME_REQ` is answered under it. -/
def resumedRun : List (Oracle × Input) :=
  [(calm 1, .start), (calm 2, .schedWork), (calm 3, .tick 16000), (calm 3, .granted),
    (calm 3, .tick 5000),
    (calm 4, .rxDone (plainFrag .joinReq 1 2 replayedReq 0)),
    (calm 4, .rxDone (plainFrag .joinReq 1 2 replayedReq 1)),
    (calm 4, .rxDone badCfm), (calm 4, .rxDone resumeReq),
    (calm 5, .rxWork), (calm 6, .rxWork), (calm 7, .rxWork), (calm 8, .rxWork),
    (calm 8, .tick 9000), (calm 8, .rxFailed .timeout), (calm 9, .finishWork (calm 10)),
    (calm 10, .schedWork), (calm 11, .tick 29500), (calm 11, .granted), (calm 12, .tick 2500),
    (calm 12, .txDone 62000), (calm 13, .finishWork (calm 14))]

/-- A frame of the second scan. -/
def inSecondScan (rx : RxRec) : RxRec := { rx with airStartUs := 70000 }

/-- In the next scan node 2 begins a full handshake again, fails it and resumes once more, with
another nonce; then a keepalive is sealed for the link. -/
def keptRun : List (Oracle × Input) :=
  resumedRun ++
    [(calm 14, Input.tick 6000), (calm 15, .granted), (calm 15, .tick 3000),
      (calm 15, .rxDone (inSecondScan (plainFrag .joinReq 1 2 replayedReq 0))),
      (calm 15, .rxDone (inSecondScan (plainFrag .joinReq 1 2 replayedReq 1))),
      (calm 15, .rxDone (inSecondScan badCfm)),
      (calm 15, .rxDone (inSecondScan (plainFrag .resumeReq 1 2 (List.replicate nonceLen 9) 0))),
      (calm 16, .rxWork), (calm 17, .rxWork), (calm 18, .rxWork), (calm 19, .rxWork),
      (calm 20, .tick 9000), (calm 20, .rxFailed .timeout), (calm 21, .finishWork (calm 22)),
      (calm 22, .schedWork), (calm 22, .tick 29000), (calm 23, .granted), (calm 24, .tick 2500),
      (calm 24, .txDone 112000), (calm 25, .finishWork (calm 26)), (calm 27, .tick 345000),
      (calm 27, .refused), (calm 27, .schedWork), (calm 27, .schedWork), (calm 27, .schedWork)]

/-- Two frames under one key with two nonces, after one under another key. -/
def noncesKept (calls : List Sealed) : Bool :=
  match calls with
  | [t, s, r] => decide (t.key = s.key ∧ t.nonce ≠ s.nonce ∧ s.key ≠ r.key ∧ s.nonce = r.nonce)
  | _ => false

/-- Three frames, the last two of them under one key, after two nonces and two resumptions. -/
theorem nonces_unique_resumed :
    ∃ c : Node .default, Reachable Psa.plain (plainIdent 1 1) c ∧
      (∃ r s t, c.hist.calls = [t, s, r] ∧ t.key = s.key ∧ t.nonce ≠ s.nonce ∧
        s.key ≠ r.key ∧ s.nonce = r.nonce) ∧
      c.hist.nonces.length = 2 ∧ c.hist.resumeDerived.length = 2 ∧ NoncesUnique c := by
  obtain ⟨c, hc, hp⟩ := exists_reachable Psa.plain (plainIdent 1 1) keptRun
    (fun c : Node .default => noncesKept c.hist.calls && decide (c.hist.nonces.length = 2 ∧
      c.hist.resumeDerived.length = 2 ∧ c.hist.nonces.Nodup ∧ c.hist.rspDerived.Nodup ∧
      c.hist.resumeDerived.Nodup))
    (by decide +kernel)
  simp only [Bool.and_eq_true, decide_eq_true_eq] at hp
  obtain ⟨hcalls, htwo, htwice, hnonces, hrsps, hresumes⟩ := hp
  unfold noncesKept at hcalls
  split at hcalls
  · next t s r hst =>
    refine ⟨c, hc, ⟨r, s, t, hst, of_decide_eq_true hcalls⟩, htwo, htwice, ?_⟩
    exact nonces_unique plain_ideal hc hnonces (countP_key_lt (by simp [hst])) hrsps hresumes
  · cases hcalls

/-- The same `RESUME_REQ` comes once more, during the next scan. -/
def reuseRun : List (Oracle × Input) :=
  resumedRun ++
    [(calm 14, Input.tick 6000), (calm 15, .granted), (calm 15, .tick 3000),
      (calm 15, .rxDone { resumeReq with airStartUs := 70000 }), (calm 15, .rxWork),
      (calm 15, .tick 9000), (calm 16, .rxFailed .timeout), (calm 17, .finishWork (calm 18)),
      (calm 18, .schedWork), (calm 18, .tick 29000), (calm 19, .granted)]

/-- Two frames that were sealed under one key with one nonce, and are not the same. -/
def nonceReused (calls : List Sealed) : Bool :=
  match calls with
  | [s, t] => decide (s.key = t.key ∧ s.nonce = t.nonce ∧ s.plain ≠ t.plain)
  | _ => false

/-- A replayed `RESUME_REQ` brings the key back and its counter to zero. -/
theorem not_nonces_unique_replayed :
    ¬ ∀ (psa : Psa) (ident : Identity) (c : Node .default), psa.Ideal → Reachable psa ident c →
      c.hist.nonces.Nodup → (∀ key, c.hist.calls.countP (fun s => s.key = key) < 2 ^ 32) →
      NoncesUnique c := by
  intro h
  obtain ⟨c, hc, hp⟩ := exists_reachable Psa.plain (plainIdent 1 1) reuseRun
    (fun c : Node .default =>
      nonceReused c.hist.calls && decide c.hist.nonces.Nodup) (by decide +kernel)
  simp only [Bool.and_eq_true, decide_eq_true_eq] at hp
  obtain ⟨hcalls, hnonces⟩ := hp
  unfold nonceReused at hcalls
  split at hcalls
  · next s t hst =>
    obtain ⟨hkey, hnonce, hplain⟩ := of_decide_eq_true hcalls
    have hcount := countP_key_lt (c := c) (by simp [hst])
    exact hplain (h _ _ c plain_ideal hc hnonces hcount s (by simp [hst]) t (by simp [hst])
      hkey hnonce).1
  · cases hcalls

end LockGrid
