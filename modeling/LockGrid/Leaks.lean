import LockGrid.Handles
import LockGrid.Upkeep

/-!
# Link keys that leak

The crypto service keeps a key from its import until it is destroyed, and the node knows it by an
identifier that an entry of the neighbour table holds. An entry that is overwritten takes the
identifier with it, so a key may live on that nothing can destroy.
-/
namespace LockGrid

variable {cfg : Config} {psa : Psa} {c c' : Node cfg} {o : Oracle}

/-! ## The key store as a table of handles -/

/-- The identifier an entry holds, if it does. -/
def Keys.handle (k : Keys) : Option ℕ := if k.keyNo = 0 then none else some k.keyNo

theorem Keys.handle_eq_some {k : Keys} {no : ℕ} :
    k.handle = some no ↔ no ≠ 0 ∧ k.keyNo = no := by
  unfold Keys.handle
  split_ifs with h
  · simp [h, eq_comm]
  · rw [Option.some.injEq]
    exact ⟨fun heq => ⟨heq ▸ h, heq⟩, And.right⟩

theorem destroyed_eq (live : List ℕ) (k : Keys) :
    destroyed live k = k.handle.elim live live.erase := by
  unfold destroyed Keys.handle
  split_ifs <;> rfl

theorem overwritten_eq (lost : List ℕ) (k : Keys) :
    overwritten lost k = k.handle.toList ++ lost := by
  unfold overwritten Keys.handle
  split_ifs <;> rfl

namespace Vault

variable {ι : Type} [DecidableEq ι] {V V' : Vault ι}

omit [DecidableEq ι] in
/-- The identifiers given out are the numbers of the imports so far. -/
def handles (V : Vault ι) : Handles.State ι ℕ where
  held := fun i => (V.keys i).handle
  live := V.live
  lost := V.lost
  made := {no | 1 ≤ no ∧ no ≤ V.installs.length}

theorem handles_update (V : Vault ι) (i : ι) (k : Keys) :
    (fun j => (Function.update V.keys i k j).handle) =
      Function.update V.handles.held i k.handle := by
  funext j
  by_cases hj : j = i
  · subst hj
    simp
  · simp [hj, handles]

/-- The keys of entry `i` are replaced by keys under the same identifier. -/
theorem handles_keep {i : ι} {k : Keys} (hv : V'.keys = Function.update V.keys i k)
    (hk : k.handle = (V.keys i).handle) (hlive : V'.live = V.live)
    (hlost : V'.lost = V.lost) (hins : V'.installs = V.installs) :
    Handles.Steps V.handles V'.handles := by
  have hheld : V'.handles.held = V.handles.held := by
    simp only [handles, hv]
    rw [handles_update, hk]
    exact Function.update_eq_self i _
  have heq : V'.handles = V.handles := by
    simp only [handles] at hheld ⊢
    rw [hheld, hlive, hlost, hins]
  exact heq ▸ .refl

/-- The keys of entry `i` are destroyed and replaced by some under no identifier. -/
theorem handles_drop {i : ι} {k : Keys} (hv : V'.keys = Function.update V.keys i k)
    (hk : k.handle = none) (hlive : V'.live = destroyed V.live (V.keys i))
    (hlost : V'.lost = V.lost) (hins : V'.installs = V.installs) :
    Handles.Step V.handles V'.handles := by
  have heq : V'.handles = V.handles.drop i := by
    simp only [Handles.State.drop, handles, hv, hlive, hlost, hins, destroyed_eq]
    rw [handles_update, hk]
    rfl
  exact heq ▸ .drop V.handles i

theorem handles_lose {i : ι} {k : Keys} (hv : V'.keys = Function.update V.keys i k)
    (hk : k.handle = none) (hlive : V'.live = V.live)
    (hlost : V'.lost = overwritten V.lost (V.keys i)) (hins : V'.installs = V.installs) :
    Handles.Step V.handles V'.handles := by
  have heq : V'.handles = V.handles.lose i := by
    simp only [Handles.State.lose, handles, hv, hlive, hlost, hins, overwritten_eq]
    rw [handles_update, hk]
    rfl
  exact heq ▸ .lose V.handles i

theorem handles_make {i : ι} {k : Keys} {key : Bytes}
    (hv : V'.keys = Function.update V.keys i k) (hk : k.keyNo = V.installs.length + 1)
    (hlive : V'.live = (V.installs.length + 1) :: destroyed V.live (V.keys i))
    (hlost : V'.lost = V.lost) (hins : V'.installs = key :: V.installs) :
    Handles.Step V.handles V'.handles := by
  have hhandle : k.handle = some (V.installs.length + 1) :=
    Keys.handle_eq_some.mpr ⟨Nat.succ_ne_zero _, hk⟩
  have hmade : {no | 1 ≤ no ∧ no ≤ (key :: V.installs).length} =
      insert (V.installs.length + 1) {no | 1 ≤ no ∧ no ≤ V.installs.length} := by
    ext no
    simp only [List.length_cons, Set.mem_ofPred_eq, Set.mem_insert_iff]
    omega
  have heq : V'.handles = (V.handles.drop i).put i (V.installs.length + 1) := by
    simp only [Handles.State.put, Handles.State.drop, handles, hv, hlive, hlost, hins, hmade,
      destroyed_eq, Function.update_idem]
    rw [handles_update, hhandle]
    rfl
  have hfresh : V.installs.length + 1 ∉ V.handles.made := by
    simp [handles]
  exact heq ▸ .make V.handles i hfresh

/-- A derivation gives entry `i` a new key, takes its key away, or comes to nothing. -/
theorem Derived.handles {i : ι} {ltk : Option Bytes} {key : Bytes} {k : Keys}
    {ins : List Bytes} {ds : List Dealing} {live : List ℕ}
    (hd : Derived V.live (V.installs.length + 1) ltk key (V.keys i) k ins ds live)
    (hv : V'.keys = Function.update V.keys i k) (hlive : V'.live = live)
    (hlost : V'.lost = V.lost) (hins : V'.installs = ins ++ V.installs) :
    Handles.Steps V.handles V'.handles := by
  cases hd with
  | nothing => exact handles_keep hv rfl hlive hlost hins
  | failed => exact .single (handles_drop hv rfl hlive hlost hins)
  | installed => exact .single (handles_make hv rfl hlive hlost hins)

/-- Every step of the key store is one of the table of handles, or none. -/
theorem Step.handles (h : Step psa V V') : Handles.Steps V.handles V'.handles := by
  cases h with
  | wipe i addr live lost h =>
    rcases h with ⟨rfl, rfl⟩ | ⟨rfl, rfl⟩
    · exact .single (handles_drop rfl rfl rfl rfl rfl)
    · exact .single (handles_lose rfl rfl rfl rfl rfl)
  | forget i => exact .single (handles_drop rfl rfl rfl rfl rfl)
  | down i => exact .single (handles_drop rfl rfl rfl rfl rfl)
  | fail i => exact .single (handles_drop rfl rfl rfl rfl rfl)
  | dropLtk i => exact handles_keep rfl rfl rfl rfl rfl
  | recount i => exact handles_keep rfl rfl rfl rfl rfl
  | stall i => exact handles_keep rfl rfl rfl rfl rfl
  | use i => exact handles_keep rfl rfl rfl rfl rfl
  | begin | draw | verify => exact .refl
  | fromReq i nonce t secret k ins ds live _ hd => exact hd.handles rfl rfl rfl rfl
  | fromRsp i v secret k ins ds live _ _ _ hd => exact hd.handles rfl rfl rfl rfl
  | resume i nonceJ k ins live _ _ hd => exact hd.handles rfl rfl rfl rfl

theorem Steps.handles (h : Steps psa V V') : Handles.Steps V.handles V'.handles := by
  induction h with
  | refl => exact .refl
  | tail _ hstep ih => exact ih.trans hstep.handles

/-! ## What is behind an identifier -/

end Vault

/-- The key is the one of the imports `installs` that the identifier is the number of. -/
structure Keys.Named (installs : List Bytes) (k : Keys) : Prop where
  bound : k.keyNo ≤ installs.length
  key : k.keyId = if k.keyNo = 0 then none else installs.reverse[k.keyNo - 1]?

theorem Keys.Named.none {installs : List Bytes} {k : Keys} (hno : k.keyNo = 0)
    (hid : k.keyId = .none) : k.Named installs := by
  refine ⟨by omega, ?_⟩
  rw [hid, if_pos hno]

theorem Keys.Named.append {installs : List Bytes} {k : Keys} (h : k.Named installs)
    (ins : List Bytes) : k.Named (ins ++ installs) := by
  have hbound := h.bound
  constructor
  · rw [List.length_append]
    omega
  · rw [h.key, List.reverse_append]
    split_ifs with hno
    · rfl
    · rw [List.getElem?_append_left]
      rw [List.length_reverse]
      omega

theorem Keys.Named.installed (installs : List Bytes) (k : Keys) (key : Bytes) :
    (k.installed key (installs.length + 1)).Named (key :: installs) := by
  constructor
  · simp [Keys.installed]
  · simp [Keys.installed]

namespace Vault

variable {ι : Type} [DecidableEq ι] {V V' : Vault ι}

omit [DecidableEq ι] in
/-- What is behind the identifier of each entry is the key that was imported under it. -/
def Named (V : Vault ι) : Prop := ∀ i, (V.keys i).Named V.installs

theorem Named.update (h : V.Named) {i : ι} {k : Keys} {ins : List Bytes}
    (hk : k.Named (ins ++ V.installs)) (hv : V'.keys = Function.update V.keys i k)
    (hins : V'.installs = ins ++ V.installs) : V'.Named := by
  intro j
  rw [hv, hins]
  by_cases hj : j = i
  · subst hj
    simpa using hk
  · simpa [hj] using (h j).append ins

/-- The keys of entry `i` are replaced by keys under the same identifier. -/
theorem Named.keep (h : V.Named) {i : ι} {k : Keys} (hv : V'.keys = Function.update V.keys i k)
    (hno : k.keyNo = (V.keys i).keyNo) (hid : k.keyId = (V.keys i).keyId)
    (hins : V'.installs = V.installs) : V'.Named := by
  have hk : k.Named ([] ++ V.installs) := ⟨hno ▸ (h i).bound, by rw [hid, hno, (h i).key]; rfl⟩
  exact h.update hk hv hins

theorem Named.drop (h : V.Named) {i : ι} {k : Keys} (hv : V'.keys = Function.update V.keys i k)
    (hno : k.keyNo = 0) (hid : k.keyId = none) (hins : V'.installs = V.installs) : V'.Named := by
  have hk : k.Named ([] ++ V.installs) := .none hno hid
  exact h.update hk hv hins

theorem Named.derived (h : V.Named) {i : ι} {ltk : Option Bytes} {key : Bytes} {k : Keys}
    {ins : List Bytes} {ds : List Dealing} {live : List ℕ}
    (hd : Derived V.live (V.installs.length + 1) ltk key (V.keys i) k ins ds live)
    (hv : V'.keys = Function.update V.keys i k) (hins : V'.installs = ins ++ V.installs) :
    V'.Named := by
  refine h.update ?_ hv hins
  cases hd with
  | nothing => exact h i
  | failed => exact .none rfl rfl
  | installed => exact .installed V.installs _ key

theorem Step.named (h : Step psa V V') (hn : V.Named) : V'.Named := by
  cases h with
  | wipe i => exact hn.drop (k := {}) rfl rfl rfl rfl
  | forget i => exact hn.drop rfl rfl rfl rfl
  | down i => exact hn.drop rfl rfl rfl rfl
  | fail i => exact hn.drop rfl rfl rfl rfl
  | dropLtk i => exact hn.keep rfl rfl rfl rfl
  | recount i => exact hn.keep rfl rfl rfl rfl
  | stall i => exact hn.keep rfl rfl rfl rfl
  | use i => exact hn.keep rfl rfl rfl rfl
  | begin | draw | verify => exact hn
  | fromReq i nonce t secret k ins ds live _ hd => exact hn.derived hd rfl rfl
  | fromRsp i v secret k ins ds live _ _ _ hd => exact hn.derived hd rfl rfl
  | resume i nonceJ k ins live _ _ hd => exact hn.derived hd rfl rfl

theorem Steps.named (h : Steps psa V V') (hn : V.Named) : V'.Named := by
  induction h with
  | refl => exact hn
  | tail _ hstep ih => exact hstep.named ih

end Vault

/-- In every run, an entry has a key to use if and only if it holds an identifier, and then the
one imported under that. -/
theorem Reachable.named {ident : Identity} (h : Reachable psa ident c)
    (i : Fin cfg.maxNeighbors) : (c.neigh i).keys.Named c.hist.installs :=
  h.advances.steps.named (fun _ => .none rfl rfl) i

/-! ## Runs -/

theorem Node.boot_handles (ident : Identity) :
    Handles.Sound (Node.boot cfg ident).vault.handles := by
  have heq : (Node.boot cfg ident).vault.handles =
      { held := fun _ => none, live := [], lost := [], made := ∅ } := by
    have hmade : {no : ℕ | 1 ≤ no ∧ no ≤ 0} = ∅ := by
      ext no
      simp only [Set.mem_ofPred_eq, Set.mem_empty_iff_false, iff_false]
      omega
    simp only [Vault.handles, Node.vault, Node.boot, List.length_nil, hmade]
    rfl
  rw [heq]
  exact Handles.sound_empty

theorem Reachable.handles {ident : Identity} (h : Reachable psa ident c) :
    Handles.Sound c.vault.handles := h.advances.steps.handles.sound (Node.boot_handles ident)

/-- What is to hold of the link keys: those imported and not destroyed are those whose identifiers
the entries hold, and no two entries hold the same. -/
structure Node.KeysHeld (c : Node cfg) : Prop where
  exact : ∀ no, no ∈ c.hist.live ↔ no ≠ 0 ∧ ∃ i, (c.neigh i).keys.keyNo = no
  once : ∀ i j, (c.neigh i).keys.keyNo ≠ 0 →
    (c.neigh i).keys.keyNo = (c.neigh j).keys.keyNo → i = j

theorem exact_handles :
    Handles.Exact c.vault.handles ↔
      ∀ no, no ∈ c.hist.live ↔ no ≠ 0 ∧ ∃ i, (c.neigh i).keys.keyNo = no := by
  refine forall_congr' fun no => iff_congr Iff.rfl ?_
  constructor
  · rintro ⟨i, hi⟩
    obtain ⟨hno, heq⟩ := Keys.handle_eq_some.mp hi
    exact ⟨hno, i, heq⟩
  · rintro ⟨hno, i, heq⟩
    exact ⟨i, Keys.handle_eq_some.mpr ⟨hno, heq⟩⟩

/-- In every run, no two entries hold the same identifier. -/
theorem Reachable.keys_apart {ident : Identity} (h : Reachable psa ident c)
    {i j : Fin cfg.maxNeighbors} (hi : (c.neigh i).keys.keyNo ≠ 0)
    (hij : (c.neigh i).keys.keyNo = (c.neigh j).keys.keyNo) : i = j :=
  h.handles.apart i j _ (Keys.handle_eq_some.mpr ⟨hi, rfl⟩)
    (Keys.handle_eq_some.mpr ⟨hi, hij.symm⟩)

/-- In every run, the keys are as they are to be as long as no entry with a key is overwritten. -/
theorem keysHeld_iff {ident : Identity} (h : Reachable psa ident c) :
    c.KeysHeld ↔ c.hist.lost = [] := by
  have hiff := h.handles.exact_iff
  rw [exact_handles] at hiff
  exact ⟨fun hk => hiff.mp hk.exact, fun hl => ⟨hiff.mpr hl, fun i j => h.keys_apart⟩⟩

/-- A key whose identifier was overwritten is never destroyed. -/
theorem lost_lives {ident : Identity} (hc : Reachable psa ident c)
    (h : Relation.ReflTransGen (Step psa) c c') {no : ℕ} (hno : no ∈ c.hist.lost) :
    no ∈ c'.hist.live := by
  have hc' : Reachable psa ident c' := Relation.ReflTransGen.trans hc h
  have hsteps : Vault.Steps psa c.vault c'.vault := by
    clear hc'
    induction h with
    | refl => exact .refl
    | tail _ hs ih => exact ih.trans hs.advances.steps
  have hlost : c.hist.lost <:+ c'.hist.lost := hsteps.handles.lost_suffix
  exact (hc'.handles.live no).mpr (.inr (hlost.subset hno))

/-! ## Starts -/

/-- `lg_start` gets past its checks. -/
def Node.Starts (psa : Psa) (o : Oracle) (c : Node cfg) : Prop :=
  c.started = false ∧ c.ident.addr ≠ addrInvalid ∧
    ∃ info, lgSecCertVerify psa o c.ident c.ident.cert = .ok info

theorem lgStart_refused (h : ¬ c.Starts psa o) : lgStart psa o c = c := by
  unfold lgStart
  split
  · rfl
  · next hgo =>
    split
    · rfl
    · next info hcert =>
      obtain ⟨hidle, haddr⟩ := not_or.mp hgo
      exact absurd ⟨by simpa using hidle, haddr, info, hcert⟩ h

/-- `lg_start` takes effect while an entry holds a key. -/
def Node.Abandons (psa : Psa) (o : Oracle) (c : Node cfg) : Input → Prop
  | .start => c.Starts psa o ∧ ∃ i, (c.neigh i).keys.keyNo ≠ 0
  | _ => False

/-- The tables are freed while no entry holds a key. -/
theorem Restarted.staysSwept {d : Node cfg} (h : Restarted c d)
    (hkeys : ∀ i, (c.neigh i).keys.keyNo = 0) : StaysSwept c d := by
  intro _
  have hlost : d.hist.lost = c.hist.lost := congrArg Vault.lost h.vault
  have hsame : ∀ i, (d.neigh i).keys = (c.neigh i).keys :=
    fun i => congrFun (congrArg Vault.keys h.vault) i
  exact ⟨fun i _ => by rw [hsame i, hkeys i], hlost⟩

/-- A step in which no node is started while an entry holds a key loses none. -/
theorem perform_staysSwept {inp : Input} (hc : c.HsUnlinked) (hinp : ¬ c.Abandons psa o inp)
    (h : perform psa o c inp = some c') : StaysSwept c c' := by
  rcases perform_cases h with hpieces | ⟨rfl, t, rx, rest, hring, hh, hj⟩ | ⟨rfl, d, hd, hw⟩
  · have hu : Upkept True c c' := hpieces.upkept hc
    exact hu.swept
  · exact (dispatched_upkept hc hring hh hj).swept
  · by_cases hstarts : c.Starts psa o
    · have hkeys : ∀ i, (c.neigh i).keys.keyNo = 0 := by
        intro i
        by_contra hi
        exact hinp ⟨hstarts, i, hi⟩
      exact (hd.staysSwept hkeys).trans hw.table.swept
    · have hsame : c' = c := by
        rw [← lgStart_refused hstarts]
        exact (Option.some.inj h).symm
      exact hsame ▸ .of_eq rfl rfl

/-- A step that does not start the node while an entry holds a key. -/
def Careful (psa : Psa) (c c' : Node cfg) : Prop :=
  ∃ inp o, Enabled c inp ∧ ¬ c.Abandons psa o inp ∧ perform psa o c inp = some c'

theorem Careful.step (h : Careful psa c c') : Step psa c c' := by
  obtain ⟨inp, o, he, -, hp⟩ := h
  exact ⟨inp, o, he, hp⟩

theorem careful_swept {ident : Identity}
    (h : Relation.ReflTransGen (Careful psa) (Node.boot cfg ident) c) :
    c.Swept ∧ c.hist.lost = [] := by
  induction h with
  | refl => exact ⟨fun _ _ => rfl, rfl⟩
  | @tail d e hd hs ih =>
    have hreach : Reachable psa ident d := hd.lift id fun _ _ hs => hs.step
    obtain ⟨inp, o, -, hinp, hp⟩ := hs
    obtain ⟨hswept, hlost⟩ := ih
    obtain ⟨hswept', hlost'⟩ := perform_staysSwept hreach.hsUnlinked hinp hp hswept
    exact ⟨hswept', hlost'.trans hlost⟩

/-- In every run in which the node is not started while an entry holds a key, the link keys that
were imported and not destroyed are those the entries hold. -/
theorem no_leaked_keys {ident : Identity}
    (h : Relation.ReflTransGen (Careful psa) (Node.boot cfg ident) c) : c.KeysHeld := by
  have hreach : Reachable psa ident c := h.lift id fun _ _ hs => hs.step
  exact (keysHeld_iff hreach).mpr (careful_swept h).2

/-- The node is not to be started, or no entry holds a key. -/
def Node.Relieved (c : Node cfg) : Input → Prop
  | .start => ∀ i, (c.neigh i).keys.keyNo = 0
  | _ => True

instance (c : Node cfg) (inp : Input) : Decidable (c.Relieved inp) := by
  rcases inp <;> unfold Node.Relieved <;> infer_instance

theorem StepWhen.careful (h : StepWhen psa Node.Relieved c c') : Careful psa c c' := by
  obtain ⟨inp, o, he, hinp, hp⟩ := h
  refine ⟨inp, o, he, fun ha => ?_, hp⟩
  cases inp with
  | start =>
    obtain ⟨-, i, hi⟩ := ha
    exact hi (hinp i)
  | tick | schedWork | finishWork | rxWork | granted | refused | txDone | rxDone | rxFailed | send
    | backhaulSet | tuningSet | stop => exact ha

/-- Node 1 joins node 2, is stopped and started again. -/
def restartedRun : List (Oracle × Input) := joiningRun ++ [(calm 7, Input.stop), (calm 8, .start)]

theorem no_leaked_keys_restarted :
    ∃ c : Node .default, Relation.ReflTransGen (Careful Psa.plain)
        (.boot .default (plainIdent 1 1)) c ∧
      c.hist.installs.length = 1 ∧ c.hist.live = [] ∧ c.KeysHeld := by
  obtain ⟨c, hc, hp⟩ := exists_reachableWhen (P := Node.Relieved) Psa.plain (plainIdent 1 1)
    restartedRun (fun c : Node .default => decide (c.hist.installs.length = 1 ∧ c.hist.live = []))
    (by decide +kernel)
  obtain ⟨hinstalls, hlive⟩ := of_decide_eq_true hp
  have hrun : Relation.ReflTransGen (StepWhen Psa.plain Node.Relieved) _ c := hc
  have hsteps : Relation.ReflTransGen (Careful Psa.plain) (.boot .default (plainIdent 1 1)) c :=
    hrun.lift id fun _ _ hs => hs.careful
  exact ⟨c, hsteps, hinstalls, hlive, no_leaked_keys hsteps⟩

/-- Node 1 derives a key for a `JOIN_REQ`, is stopped and started again, and hears a beacon. -/
def leakedRun : List (Oracle × Input) :=
  replayedRun ++
    [(calm 7, Input.stop), (calm 1, .start), (calm 2, .schedWork), (calm 3, .tick 16000),
      (calm 3, .granted), (calm 3, .tick 5000), (calm 4, .rxDone (plainBeacon 3)),
      (calm 5, .rxWork)]

/-- The entry of the handshake that was stopped is given to the neighbour heard, and its key lives
on under an identifier that no entry holds. -/
theorem not_no_leaked_keys :
    ¬ ∀ (psa : Psa) (ident : Identity) (c : Node .default), Reachable psa ident c →
      c.KeysHeld := by
  intro h
  obtain ⟨c, hc, hp⟩ := exists_reachable Psa.plain (plainIdent 1 1) leakedRun
    (fun c : Node .default => decide (c.hist.live = [1] ∧ ∀ i, (c.neigh i).keys.keyNo = 0))
    (by decide +kernel)
  obtain ⟨hlive, hnone⟩ := of_decide_eq_true hp
  obtain ⟨hone, i, hi⟩ := ((h _ _ c hc).exact 1).mp (by simp [hlive])
  rw [hnone i] at hi
  exact hone hi.symm

end LockGrid
