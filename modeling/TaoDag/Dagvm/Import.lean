import TaoDag.Dagvm.Accept
import TaoDag.Dagvm.Run
import TaoDag.Runtime.Transfer

namespace TaoDag.Dagvm

open Consensus (DagBlock DagBlockHeader Pubkey)
open Database (Account BlockLog ReplaceFault)
open TaoDag.Runtime (Env transferEnv)

namespace DagChain

variable {Tx : Type} {env : Env Tx}

/-- A snapshot that passes every check which `import_snapshot` makes before it re-anchors. -/
structure Adoptable (env : Env Tx) (now : Int) (c : DagChain Tx) (bytes : Bytes)
    (snap : SyncSnapshot) (work : Nat) : Prop where
  small : bytes.length ≤ maxSnapshotBytes
  decoded : SyncSnapshot.codec.deserialize bytes = .ok snap
  unknown : snap.originHeader.id env.blake3 ∉ c.blocks
  proven : verifyProof env.blake3 snap.proof (snap.originHeader.id env.blake3) c.originalGenesis =
    .ok work
  wanted : (c.blocks.card = 1 ∧ ¬c.historyPruned) ∨ (c.bootstrapped ∧ c.bootstrapWork < work)
  intrinsic : validateSuffix env now snap.suffix = .ok ()

/-- The records of the compacted log: the snapshot, then its suffix. -/
def snapshotRecords (snap : SyncSnapshot) : List Bytes :=
  (LogRecord.snapshot snap.originHeader snap.accounts snap.proof).serialize ::
    snap.suffix.map fun b => (LogRecord.block b).serialize

/-- What `import_snapshot` does after its checks. -/
def adoptSnapshot (env : Env Tx) (io : Option ReplaceFault) (c : DagChain Tx)
    (snap : SyncSnapshot) (work : Nat) : Result (Except String Bool × DagChain Tx) := do
  let c ← c.loadSnapshot env snap.originHeader snap.accounts snap.proof
  match ← c.applySuffix env snap.suffix with
  | (.error e, c) => return (.error e, c)
  | (.ok (), c) =>
      match c.log.replaceAll io (snapshotRecords snap) with
      | (.error e, log) => return (.error e, { c with log })
      | (.ok (), log) => return (.ok true, { c with log, bootstrapped := true, bootstrapWork := work })

theorem importSnapshot_of_adoptable {io : Option ReplaceFault} {now : Int} {c : DagChain Tx}
    {bytes : Bytes} {snap : SyncSnapshot} {work : Nat} (h : Adoptable env now c bytes snap work) :
    c.importSnapshot env io now bytes = c.adoptSnapshot env io snap work := by
  have hsmall : ¬maxSnapshotBytes < bytes.length := Nat.not_lt.mpr h.small
  have hwanted : ¬(¬(c.blocks.card = 1 ∧ ¬c.historyPruned) ∧
      ¬(c.bootstrapped ∧ c.bootstrapWork < work)) := by
    rintro ⟨h1, h2⟩
    exact h.wanted.elim h1 h2
  rw [importSnapshot, if_neg hsmall, h.decoded]
  simp only [if_neg h.unknown, h.proven]
  rw [if_neg hwanted]
  simp only [h.intrinsic]
  rfl

/-- What `import_snapshot` can do: return at once, or adopt a snapshot that passes. -/
theorem importSnapshot_cases {io : Option ReplaceFault} {now : Int} {c c' : DagChain Tx}
    {bytes : Bytes} {r : Except String Bool} (h : c.importSnapshot env io now bytes = .ok (r, c')) :
    (c' = c ∧ r ≠ .ok true) ∨ ∃ snap work, Adoptable env now c bytes snap work ∧
      c.adoptSnapshot env io snap work = .ok (r, c') := by
  by_cases hsmall : maxSnapshotBytes < bytes.length
  · rw [importSnapshot, if_pos hsmall] at h
    cases h
    exact Or.inl ⟨rfl, by simp⟩
  cases hd : SyncSnapshot.codec.deserialize bytes with
  | error e =>
    rw [importSnapshot, if_neg hsmall, hd] at h
    cases h
    exact Or.inl ⟨rfl, by simp⟩
  | ok snap =>
    by_cases hid : snap.originHeader.id env.blake3 ∈ c.blocks
    · rw [importSnapshot, if_neg hsmall, hd] at h
      simp only [if_pos hid] at h
      cases h
      exact Or.inl ⟨rfl, by simp⟩
    cases hp : verifyProof env.blake3 snap.proof (snap.originHeader.id env.blake3)
        c.originalGenesis with
    | error e =>
      rw [importSnapshot, if_neg hsmall, hd] at h
      simp only [if_neg hid, hp] at h
      cases h
      exact Or.inl ⟨rfl, by simp⟩
    | ok work =>
      by_cases hw : (c.blocks.card = 1 ∧ ¬c.historyPruned) ∨
          (c.bootstrapped ∧ c.bootstrapWork < work)
      · cases hv : validateSuffix env now snap.suffix with
        | error e =>
          have hwanted : ¬(¬(c.blocks.card = 1 ∧ ¬c.historyPruned) ∧
              ¬(c.bootstrapped ∧ c.bootstrapWork < work)) := fun hn => hw.elim hn.1 hn.2
          rw [importSnapshot, if_neg hsmall, hd] at h
          simp only [if_neg hid, hp] at h
          rw [if_neg hwanted] at h
          simp only [hv] at h
          cases h
          exact Or.inl ⟨rfl, by simp⟩
        | ok u =>
          have hadopt : Adoptable env now c bytes snap work :=
            ⟨Nat.not_lt.mp hsmall, hd, hid, hp, hw, hv⟩
          rw [importSnapshot_of_adoptable hadopt] at h
          exact Or.inr ⟨snap, work, hadopt, h⟩
      · have hwanted : ¬(c.blocks.card = 1 ∧ ¬c.historyPruned) ∧
            ¬(c.bootstrapped ∧ c.bootstrapWork < work) := not_or.mp hw
        rw [importSnapshot, if_neg hsmall, hd] at h
        simp only [if_neg hid, hp] at h
        rw [if_pos hwanted] at h
        cases h
        exact Or.inl ⟨rfl, by simp⟩

/-- What re-anchoring leaves. -/
theorem loadSnapshot_spec {c c' : DagChain Tx} {originHeader : DagBlockHeader}
    {accounts : List (Pubkey × Account)} {proof : List DagBlockHeader}
    (h : c.loadSnapshot env originHeader accounts proof = .ok c') :
    ∃ engine, freshEngine env.fractions c.k (originHeader.id env.blake3) = .ok engine ∧
      c' = { c with
        engine
        genesisDag := originHeader.id env.blake3
        tips := [originHeader.id env.blake3]
        blocks := {originHeader.id env.blake3}
        headers := AList.singleton (originHeader.id env.blake3) originHeader
        blockTxs := ∅
        baseAccounts := some accounts
        historyPruned := true
        checkpoint := none
        proof
        state := none
        executed := [] } := by
  rw [loadSnapshot] at h
  obtain ⟨engine, he, h⟩ := bind_eq_ok.mp h
  cases h
  exact ⟨engine, he, rfl⟩

/-- Applying a block keeps the log and the blocks there are. -/
theorem applyWithId_frame {c c' : DagChain Tx} {block : DagBlock} {id : Hash}
    {r : Except String Unit} (h : c.applyWithId env block id = .ok (r, c')) :
    c'.log = c.log ∧ c.blocks ⊆ c'.blocks := by
  rcases applyWithId_cases h with ⟨_, _, rfl⟩ | ⟨_, engine, _, hrest⟩
  · exact ⟨rfl, Finset.Subset.refl _⟩
  · rcases hrest with ⟨e, _, _, rfl⟩ | ⟨txs, _, _, rfl⟩
    · exact ⟨rfl, Finset.Subset.refl _⟩
    · exact ⟨rfl, Finset.subset_insert _ _⟩

theorem applySuffix_frame {c c' : DagChain Tx} {suffix : List DagBlock} {r : Except String Unit}
    (h : c.applySuffix env suffix = .ok (r, c')) : c'.log = c.log ∧ c.blocks ⊆ c'.blocks := by
  induction suffix generalizing c with
  | nil =>
    cases h
    exact ⟨rfl, Finset.Subset.refl _⟩
  | cons b suffix ih =>
    rw [applySuffix] at h
    obtain ⟨⟨rb, cb⟩, hb, h⟩ := bind_eq_ok.mp h
    have hframe := applyWithId_frame hb
    cases rb with
    | error e =>
      cases h
      exact hframe
    | ok u =>
      have hrest := ih h
      exact ⟨hrest.1.trans hframe.1, hframe.2.trans hrest.2⟩

theorem applySuffix_dag {c c' : DagChain Tx} {suffix : List DagBlock} {r : Except String Unit}
    (h : c.applySuffix env suffix = .ok (r, c')) :
    ∃ engine tips blocks blockTxs headers,
      c' = { c with engine, tips, blocks, blockTxs, headers } := by
  induction suffix generalizing c with
  | nil =>
    cases h
    exact ⟨_, _, _, _, _, rfl⟩
  | cons block suffix ih =>
    obtain ⟨⟨v, c₁⟩, happly, h⟩ := bind_eq_ok.mp h
    obtain ⟨_, _, _, _, _, rfl⟩ := applyWithId_dag happly
    cases v with
    | error e =>
      cases h
      exact ⟨_, _, _, _, _, rfl⟩
    | ok u =>
      obtain ⟨_, _, _, _, _, rfl⟩ := ih h
      exact ⟨_, _, _, _, _, rfl⟩

/-- The engine takes a block that the chain does not know, and its transactions do not
decode. -/
def Chokes (env : Env Tx) (c : DagChain Tx) (block : DagBlock) : Prop :=
  block.id env.blake3 ∉ c.blocks ∧
  (∃ engine, c.engine.addBlock env.fractions (block.id env.blake3)
    (c.engineParents block.header.parents) = .ok engine) ∧
  ∃ e, decodeTxs env block.transactions = .error e

theorem apply_error_iff {c : DagChain Tx} {block : DagBlock} :
    (∃ e c', c.apply env block = .ok (.error e, c')) ↔ Chokes env c block := by
  constructor
  · rintro ⟨e, c', h⟩
    rcases applyWithId_cases h with ⟨_, hr, _⟩ | ⟨hid, engine, he, hrest⟩
    · cases hr
    · rcases hrest with ⟨e', hd, _, _⟩ | ⟨txs, _, hr, _⟩
      · exact ⟨hid, ⟨engine, he⟩, e', hd⟩
      · cases hr
  · rintro ⟨hid, ⟨engine, he⟩, e, hd⟩
    refine ⟨e, { c with engine }, ?_⟩
    rw [apply, applyWithId, if_neg hid, he]
    simp only [bind, Except.bind, hd]
    rfl

/-- A suffix fails at the first block the chain chokes on. -/
theorem applySuffix_error_iff {c : DagChain Tx} {suffix : List DagBlock} :
    (∃ e c', c.applySuffix env suffix = .ok (.error e, c')) ↔
      ∃ pre block post cb, suffix = pre ++ block :: post ∧
        c.applySuffix env pre = .ok (.ok (), cb) ∧ Chokes env cb block := by
  induction suffix generalizing c with
  | nil =>
    constructor
    · rintro ⟨e, c', h⟩
      cases h
    · rintro ⟨pre, block, post, cb, h, _⟩
      simp at h
  | cons b suffix ih =>
    constructor
    · rintro ⟨e, c', h⟩
      rw [applySuffix] at h
      obtain ⟨⟨rb, cb⟩, hb, h⟩ := bind_eq_ok.mp h
      cases rb with
      | error e' =>
        exact ⟨[], b, suffix, c, rfl, rfl, apply_error_iff.mp ⟨e', cb, hb⟩⟩
      | ok u =>
        obtain ⟨pre, block, post, cb', rfl, hpre, hchoke⟩ := ih.mp ⟨e, c', h⟩
        refine ⟨b :: pre, block, post, cb', rfl, ?_, hchoke⟩
        rw [applySuffix]
        exact bind_eq_ok.mpr ⟨_, hb, hpre⟩
    · rintro ⟨pre, block, post, cb, hsplit, hpre, hchoke⟩
      cases pre with
      | nil =>
        cases hpre
        cases hsplit
        obtain ⟨e, c', hb⟩ := apply_error_iff.mpr hchoke
        exact ⟨e, c', by rw [applySuffix]; exact bind_eq_ok.mpr ⟨_, hb, rfl⟩⟩
      | cons b' pre =>
        cases hsplit
        rw [applySuffix] at hpre
        obtain ⟨⟨rb, cb'⟩, hb, hpre⟩ := bind_eq_ok.mp hpre
        cases rb with
        | error e => cases hpre
        | ok u =>
          obtain ⟨e, c', h⟩ := ih.mpr ⟨pre, block, post, cb, rfl, hpre, hchoke⟩
          exact ⟨e, c', by rw [applySuffix]; exact bind_eq_ok.mpr ⟨_, hb, h⟩⟩

/-- `import_snapshot` is atomic: unless it adopts the snapshot, the chain is as before. -/
def AtomicImport (env : Env Tx) (io : Option ReplaceFault) (now : Int) (c : DagChain Tx)
    (bytes : Bytes) : Prop :=
  ∀ r c', c.importSnapshot env io now bytes = .ok (r, c') → r ≠ .ok true → c' = c

/-- A snapshot that is adopted whole once the chain is re-anchored on it: no block of the suffix
stops the loop when its turn comes, and the log can be rewritten. -/
structure Installable (env : Env Tx) (io : Option ReplaceFault) (c : DagChain Tx)
    (snap : SyncSnapshot) : Prop where
  suffix : ∀ c₁, c.loadSnapshot env snap.originHeader snap.accounts snap.proof = .ok c₁ →
    ∀ pre block post cb, snap.suffix = pre ++ block :: post →
      c₁.applySuffix env pre = .ok (.ok (), cb) → ¬Chokes env cb block
  log : ∀ c₁ c₂, c.loadSnapshot env snap.originHeader snap.accounts snap.proof = .ok c₁ →
    c₁.applySuffix env snap.suffix = .ok (.ok (), c₂) →
    (c.log.replaceAll io (snapshotRecords snap)).1 = .ok ()

/-- The failure of an adoption shows: the chain is re-anchored by then. -/
theorem adoptSnapshot_ne {io : Option ReplaceFault} {c c' : DagChain Tx} {snap : SyncSnapshot}
    {work : Nat} {r : Except String Bool} (hid : snap.originHeader.id env.blake3 ∉ c.blocks)
    (h : c.adoptSnapshot env io snap work = .ok (r, c')) : c' ≠ c := by
  have hin : snap.originHeader.id env.blake3 ∈ c'.blocks := by
    rw [adoptSnapshot] at h
    obtain ⟨c₁, hl, h⟩ := bind_eq_ok.mp h
    obtain ⟨⟨r₂, c₂⟩, ha, h⟩ := bind_eq_ok.mp h
    have hmem : snap.originHeader.id env.blake3 ∈ c₂.blocks := by
      obtain ⟨engine, _, rfl⟩ := loadSnapshot_spec hl
      exact (applySuffix_frame ha).2 (Finset.mem_singleton_self _)
    cases r₂ with
    | error e =>
      cases h
      exact hmem
    | ok u =>
      simp only at h
      cases hr : c₂.log.replaceAll io (snapshotRecords snap) with
      | mk res log =>
        rw [hr] at h
        cases res <;> cases h <;> exact hmem
  rintro rfl
  exact hid hin

/-- An installable snapshot is adopted, if the call returns. -/
theorem adoptSnapshot_installable {io : Option ReplaceFault} {c c' : DagChain Tx}
    {snap : SyncSnapshot} {work : Nat} {r : Except String Bool} (hi : Installable env io c snap)
    (h : c.adoptSnapshot env io snap work = .ok (r, c')) : r = .ok true := by
  rw [adoptSnapshot] at h
  obtain ⟨c₁, hl, h⟩ := bind_eq_ok.mp h
  obtain ⟨⟨r₂, c₂⟩, ha, h⟩ := bind_eq_ok.mp h
  cases r₂ with
  | error e =>
    obtain ⟨pre, block, post, cb, hsplit, hpre, hchoke⟩ := applySuffix_error_iff.mp ⟨e, c₂, ha⟩
    exact absurd hchoke (hi.suffix c₁ hl pre block post cb hsplit hpre)
  | ok u =>
    have hlog : c₂.log = c.log := by
      have hframe := (applySuffix_frame ha).1
      obtain ⟨engine, _, rfl⟩ := loadSnapshot_spec hl
      exact hframe
    have hok := hi.log c₁ c₂ hl ha
    simp only [hlog] at h
    cases hr : c.log.replaceAll io (snapshotRecords snap) with
    | mk res log =>
      rw [hr] at h hok
      change res = .ok () at hok
      subst hok
      cases h
      rfl

/-- An adoption that cannot be completed returns an `Err`. -/
theorem adoptSnapshot_error {io : Option ReplaceFault} {c : DagChain Tx} {snap : SyncSnapshot}
    {work : Nat} (hi : ¬Installable env io c snap) :
    ∃ e c', c.adoptSnapshot env io snap work = .ok (.error e, c') := by
  by_contra hno
  refine hi ⟨?_, ?_⟩
  · intro c₁ hl pre block post cb hsplit hpre hchoke
    obtain ⟨e, c₂, ha⟩ := applySuffix_error_iff.mpr ⟨pre, block, post, cb, hsplit, hpre, hchoke⟩
    refine hno ⟨e, c₂, ?_⟩
    rw [adoptSnapshot]
    exact bind_eq_ok.mpr ⟨c₁, hl, bind_eq_ok.mpr ⟨_, ha, rfl⟩⟩
  · intro c₁ c₂ hl ha
    have hlog : c₂.log = c.log := by
      have hframe := (applySuffix_frame ha).1
      obtain ⟨engine, _, rfl⟩ := loadSnapshot_spec hl
      exact hframe
    cases hr : c.log.replaceAll io (snapshotRecords snap) with
    | mk res log =>
      cases res with
      | ok u => rfl
      | error e =>
        refine absurd ⟨e, { c₂ with log }, ?_⟩ hno
        rw [adoptSnapshot]
        refine bind_eq_ok.mpr ⟨c₁, hl, bind_eq_ok.mpr ⟨_, ha, ?_⟩⟩
        simp only [hlog, hr]
        rfl

/-- `import_snapshot` is atomic exactly on the payloads that are refused before the chain is
re-anchored, and on those that can then be adopted whole. -/
theorem importSnapshot_atomic_iff (env : Env Tx) (io : Option ReplaceFault) (now : Int)
    (c : DagChain Tx) (bytes : Bytes) :
    AtomicImport env io now c bytes ↔
      ∀ snap work, Adoptable env now c bytes snap work → Installable env io c snap := by
  constructor
  · intro hatomic snap work hadopt
    by_contra hi
    have herr : ∃ e c', c.adoptSnapshot env io snap work = .ok (.error e, c') :=
      adoptSnapshot_error hi
    obtain ⟨e, c', h⟩ := herr
    have hc : c' = c := by
      refine hatomic (.error e) c' ?_ (by simp)
      rw [importSnapshot_of_adoptable hadopt]
      exact h
    exact adoptSnapshot_ne hadopt.unknown h hc
  · intro hcond r c' h hr
    rcases importSnapshot_cases h with ⟨hc, _⟩ | ⟨snap, work, hadopt, h⟩
    · exact hc
    · exact absurd (adoptSnapshot_installable (hcond snap work hadopt) h) hr

end DagChain

/-- A snapshot of the easy chain whose origin is the child of genesis at a timestamp, proven by
the two headers. -/
def easySnapshot (timestamp : BitVec 64) (suffix : Hash → List DagBlock) : SyncSnapshot :=
  let origin := (easyBlock Blake3.hash [easyGenesis] (List.replicate 4 easyGenesis) timestamp []).header
  { originHeader := origin
    accounts := []
    suffix := suffix (origin.id Blake3.hash)
    proof := [genesisHeader easyParams, origin] }

/-- A proven snapshot whose one suffix block has the empty byte string for a transaction. -/
def brokenSnapshot : Bytes :=
  SyncSnapshot.codec.encode (easySnapshot 1750000010 fun origin =>
    [easyBlock Blake3.hash [origin] [] 1750000020 [[]]])

def soundSnapshot : Bytes := SyncSnapshot.codec.encode (easySnapshot 1750000011 fun _ => [])

/-- The suffix fails after the fresh node has been re-anchored: it returns an `Err` on another
origin, and refuses from then on a snapshot that it would have adopted before. -/
theorem importSnapshot_not_atomic :
    ∃ c e c', DagChain.openWithGenesis transferEnv easyParams [] = .ok (.ok c) ∧
      c.importSnapshot transferEnv none 1750000000 brokenSnapshot = .ok (.error e, c') ∧
      c'.genesisDag ≠ c.genesisDag ∧ c'.blocks ≠ c.blocks ∧ c'.tips ≠ c.tips ∧
      (∃ d, c.importSnapshot transferEnv none 1750000000 soundSnapshot = .ok (.ok true, d)) ∧
      ∃ d, c'.importSnapshot transferEnv none 1750000000 soundSnapshot = .ok (.ok false, d) := by
  have hrun : returnsWith (DagChain.openWithGenesis transferEnv easyParams []) (fun o =>
      returnsWith o fun c =>
        returnsWith (c.importSnapshot transferEnv none 1750000000 brokenSnapshot) fun p =>
          fails p.1 && (p.2.genesisDag != c.genesisDag && p.2.blocks != c.blocks &&
            p.2.tips != c.tips) &&
          (returnsWith (c.importSnapshot transferEnv none 1750000000 soundSnapshot) fun q =>
            returnsWith q.1 id) &&
          returnsWith (p.2.importSnapshot transferEnv none 1750000000 soundSnapshot) fun q =>
            returnsWith q.1 (!·)) = true := by
    decide +kernel
  obtain ⟨_, hopen, ho⟩ := returnsWith_iff.mp hrun
  obtain ⟨c, rfl, hc⟩ := returnsWith_iff.mp ho
  obtain ⟨⟨_, c'⟩, himport, hr⟩ := returnsWith_iff.mp hc
  simp only [Bool.and_eq_true, bne_iff_ne] at hr
  obtain ⟨⟨⟨hfail, ⟨hgenesis, hblocks⟩, htips⟩, hsound⟩, hstale⟩ := hr
  obtain ⟨e, rfl⟩ := fails_iff.mp hfail
  obtain ⟨⟨_, d⟩, hd, hr⟩ := returnsWith_iff.mp hsound
  obtain ⟨b, rfl, hb⟩ := returnsWith_iff.mp hr
  obtain ⟨⟨_, d'⟩, hd', hr'⟩ := returnsWith_iff.mp hstale
  obtain ⟨b', rfl, hb'⟩ := returnsWith_iff.mp hr'
  cases b with
  | false => cases hb
  | true =>
    cases b' with
    | true => cases hb'
    | false => exact ⟨c, e, c', hopen, himport, hgenesis, hblocks, htips, ⟨d, hd⟩, d', hd'⟩

end TaoDag.Dagvm
