import TaoDag.Dagvm.Import
import TaoDag.Database.StateRoot

namespace TaoDag.Dagvm

open Consensus (DagBlock DagBlockHeader Pubkey)
open Database (Account AccountsDb BlockLog ReplaceFault)
open TaoDag.Runtime (Env transferEnv)

namespace DagChain

variable {Tx : Type} {env : Env Tx}

/-- The chain over another base account set. -/
def withBase (c : DagChain Tx) (accounts : List (Pubkey × Account)) : DagChain Tx :=
  { c with baseAccounts := some accounts }

/-- A node that knows the genesis block alone. -/
def Fresh (c : DagChain Tx) : Prop := c.blocks.card = 1 ∧ ¬c.historyPruned

/-- Applying a block does not look at the account set. -/
theorem applyWithId_withBase {c c' : DagChain Tx} {block : DagBlock} {id : Hash}
    {r : Except String Unit} (accounts : List (Pubkey × Account))
    (h : c.applyWithId env block id = .ok (r, c')) :
    (c.withBase accounts).applyWithId env block id = .ok (r, c'.withBase accounts) := by
  rcases applyWithId_cases h with ⟨hid, rfl, rfl⟩ | ⟨hid, engine, he, hrest⟩
  · rw [applyWithId, if_pos (show id ∈ (c'.withBase accounts).blocks from hid)]
    rfl
  · have he' : (c.withBase accounts).engine.addBlock env.fractions id
        ((c.withBase accounts).engineParents block.header.parents) = .ok engine := he
    rw [applyWithId, if_neg (show id ∉ (c.withBase accounts).blocks from hid), he']
    rcases hrest with ⟨e, hd, rfl, rfl⟩ | ⟨txs, hd, rfl, rfl⟩
    · simp only [bind, Except.bind, hd]
      rfl
    · simp only [bind, Except.bind, hd]
      rfl

theorem applySuffix_withBase {c c' : DagChain Tx} {suffix : List DagBlock}
    {r : Except String Unit} (accounts : List (Pubkey × Account))
    (h : c.applySuffix env suffix = .ok (r, c')) :
    (c.withBase accounts).applySuffix env suffix = .ok (r, c'.withBase accounts) := by
  induction suffix generalizing c with
  | nil =>
    cases h
    rfl
  | cons b suffix ih =>
    rw [applySuffix] at h ⊢
    obtain ⟨⟨rb, cb⟩, hb, h⟩ := bind_eq_ok.mp h
    have hb' := applyWithId_withBase accounts hb
    refine bind_eq_ok.mpr ⟨_, hb', ?_⟩
    cases rb with
    | error e =>
      cases h
      rfl
    | ok u => exact ih h

/-- Applying blocks keeps the account set. -/
theorem applySuffix_base {c c' : DagChain Tx} {suffix : List DagBlock} {r : Except String Unit}
    (h : c.applySuffix env suffix = .ok (r, c')) : c'.baseAccounts = c.baseAccounts := by
  induction suffix generalizing c with
  | nil =>
    cases h
    rfl
  | cons b suffix ih =>
    rw [applySuffix] at h
    obtain ⟨⟨rb, cb⟩, hb, h⟩ := bind_eq_ok.mp h
    have hbase : cb.baseAccounts = c.baseAccounts := by
      rcases applyWithId_cases hb with ⟨_, _, rfl⟩ | ⟨_, engine, _, hrest⟩
      · rfl
      · rcases hrest with ⟨e, _, _, rfl⟩ | ⟨txs, _, _, rfl⟩ <;> rfl
    cases rb with
    | error e =>
      cases h
      exact hbase
    | ok u => exact (ih h).trans hbase

/-- What an adoption that succeeds went through. -/
theorem adoptSnapshot_ok {io : Option ReplaceFault} {c c' : DagChain Tx} {snap : SyncSnapshot}
    {work : Nat} (h : c.adoptSnapshot env io snap work = .ok (.ok true, c')) :
    ∃ c₁ c₂ log, c.loadSnapshot env snap.originHeader snap.accounts snap.proof = .ok c₁ ∧
      c₁.applySuffix env snap.suffix = .ok (.ok (), c₂) ∧
      c₂.log.replaceAll io (snapshotRecords snap) = (.ok (), log) ∧
      c' = { c₂ with log, bootstrapped := true, bootstrapWork := work } := by
  rw [adoptSnapshot] at h
  obtain ⟨c₁, hl, h⟩ := bind_eq_ok.mp h
  obtain ⟨⟨r₂, c₂⟩, ha, h⟩ := bind_eq_ok.mp h
  cases r₂ with
  | error e => cases h
  | ok u =>
    simp only at h
    cases hr : c₂.log.replaceAll io (snapshotRecords snap) with
    | mk res log =>
      rw [hr] at h
      cases res with
      | error e => cases h
      | ok u' =>
        cases h
        exact ⟨c₁, c₂, log, hl, ha, hr, rfl⟩

theorem importSnapshot_adopts {io : Option ReplaceFault} {now : Int} {c c' : DagChain Tx}
    {bytes : Bytes} {snap : SyncSnapshot} (hd : SyncSnapshot.codec.deserialize bytes = .ok snap)
    (h : c.importSnapshot env io now bytes = .ok (.ok true, c')) :
    ∃ work, Adoptable env now c bytes snap work ∧
      c.adoptSnapshot env io snap work = .ok (.ok true, c') := by
  rcases importSnapshot_cases h with ⟨_, hr⟩ | ⟨snap', work, hadopt, h⟩
  · exact absurd rfl hr
  · have hsame := hadopt.decoded
    rw [hd] at hsame
    cases hsame
    exact ⟨work, hadopt, h⟩

/-- The base account set of an adopted snapshot is the list that came with it. -/
theorem importSnapshot_base {io : Option ReplaceFault} {now : Int} {c c' : DagChain Tx}
    {bytes : Bytes} {snap : SyncSnapshot} (hd : SyncSnapshot.codec.deserialize bytes = .ok snap)
    (h : c.importSnapshot env io now bytes = .ok (.ok true, c')) :
    c'.baseAccounts = some snap.accounts := by
  obtain ⟨work, _, h⟩ := importSnapshot_adopts hd h
  obtain ⟨c₁, c₂, log, hl, ha, _, rfl⟩ := adoptSnapshot_ok h
  have hbase := applySuffix_base ha
  obtain ⟨engine, _, rfl⟩ := loadSnapshot_spec hl
  exact hbase

theorem snapshotRecord_length (snap : SyncSnapshot) :
    (LogRecord.snapshot snap.originHeader snap.accounts snap.proof).serialize.length ≤
      (SyncSnapshot.codec.encode snap).length + 4 := by
  have htag : (Codec.u32.encode 1).length = 4 := leBytes_length 4 _
  simp only [LogRecord.serialize, LogRecord.codec, SyncSnapshot.codec, Codec.via, Codec.variants,
    Codec.seq, List.length_append, htag]
  omega

/-- The checks of `import_snapshot` do not look at the account list, nor does anything after them:
with any other list that fits, the snapshot is adopted as well. -/
theorem importSnapshot_substitute {io : Option ReplaceFault} {now : Int} {c c' : DagChain Tx}
    {bytes : Bytes} {snap : SyncSnapshot} {accounts : List (Pubkey × Account)}
    (hd : SyncSnapshot.codec.deserialize bytes = .ok snap)
    (h : c.importSnapshot env io now bytes = .ok (.ok true, c'))
    (hfits : SyncSnapshot.codec.Fits { snap with accounts })
    (hsmall : (SyncSnapshot.codec.encode { snap with accounts }).length ≤ maxSnapshotBytes) :
    ∃ d, c.importSnapshot env none now (SyncSnapshot.codec.encode { snap with accounts }) =
        .ok (.ok true, d) ∧
      d.baseAccounts = some accounts ∧ d.engine = c'.engine ∧ d.headers = c'.headers := by
  obtain ⟨work, hadopt, h⟩ := importSnapshot_adopts hd h
  obtain ⟨c₁, c₂, log, hl, ha, hr, rfl⟩ := adoptSnapshot_ok h
  have hadopt' : Adoptable env now c (SyncSnapshot.codec.encode { snap with accounts })
      { snap with accounts } work :=
    ⟨hsmall, SyncSnapshot.codec.deserialize_encode hfits, hadopt.unknown, hadopt.proven,
      hadopt.wanted, hadopt.intrinsic⟩
  have hl' : c.loadSnapshot env snap.originHeader accounts snap.proof =
      .ok (c₁.withBase accounts) := by
    obtain ⟨engine, he, rfl⟩ := loadSnapshot_spec hl
    rw [loadSnapshot, he]
    rfl
  have ha' := applySuffix_withBase accounts ha
  have hlen : ∀ r ∈ snapshotRecords { snap with accounts }, r.length < 2^32 := by
    intro r hm
    rcases List.mem_cons.mp hm with rfl | hm
    · have hle := snapshotRecord_length { snap with accounts }
      have hmax : maxSnapshotBytes = 268435456 := rfl
      omega
    · have hold : ∀ q ∈ snapshotRecords snap, q.length < 2^32 := by
        by_contra hno
        simp only [BlockLog.replaceAll, if_neg hno] at hr
        cases hr
      exact hold r (List.mem_cons_of_mem _ hm)
  refine ⟨{ c₂.withBase accounts with
    log := ⟨(snapshotRecords { snap with accounts }).flatMap BlockLog.frame, true⟩
    bootstrapped := true
    bootstrapWork := work }, ?_, rfl, rfl, rfl⟩
  rw [importSnapshot_of_adoptable hadopt', adoptSnapshot]
  refine bind_eq_ok.mpr ⟨_, hl', bind_eq_ok.mpr ⟨_, ha', ?_⟩⟩
  simp only [BlockLog.replaceAll, if_pos hlen]
  rfl

/-- What a snapshot's origin, proof and suffix say about its account set: nothing. Two payloads
that agree on them and that two nodes adopt give one account set exactly when their account lists
do; and with an adopted payload every other account list that fits is adopted too. -/
theorem importSnapshot_accounts_iff (env : Env Tx) :
    (∀ io io' now now' (c c' d d' : DagChain Tx) bytes bytes' snap snap',
      Fresh c → Fresh d → c.originalGenesis = d.originalGenesis →
      SyncSnapshot.codec.deserialize bytes = .ok snap →
      SyncSnapshot.codec.deserialize bytes' = .ok snap' →
      snap'.originHeader = snap.originHeader → snap'.proof = snap.proof →
      snap'.suffix = snap.suffix →
      c.importSnapshot env io now bytes = .ok (.ok true, c') →
      d.importSnapshot env io' now' bytes' = .ok (.ok true, d') →
      (AccountsDb.Same (c'.seedAccounts env) (d'.seedAccounts env) ↔
        AccountsDb.Same (AccountsDb.empty.commit env.blake3 snap.accounts)
          (AccountsDb.empty.commit env.blake3 snap'.accounts))) ∧
    ∀ io now (c c' : DagChain Tx) bytes snap accounts,
      Fresh c → SyncSnapshot.codec.deserialize bytes = .ok snap →
      c.importSnapshot env io now bytes = .ok (.ok true, c') →
      SyncSnapshot.codec.Fits { snap with accounts } →
      (SyncSnapshot.codec.encode { snap with accounts }).length ≤ maxSnapshotBytes →
      ∃ d, c.importSnapshot env none now (SyncSnapshot.codec.encode { snap with accounts }) =
          .ok (.ok true, d) ∧
        d.baseAccounts = some accounts ∧ d.engine = c'.engine ∧ d.headers = c'.headers := by
  constructor
  · intro io io' now now' c c' d d' bytes bytes' snap snap' _ _ _ hs hs' _ _ _ hc hd
    have hc' : c'.seedAccounts env = AccountsDb.empty.commit env.blake3 snap.accounts := by
      rw [seedAccounts, importSnapshot_base hs hc]
    have hd' : d'.seedAccounts env = AccountsDb.empty.commit env.blake3 snap'.accounts := by
      rw [seedAccounts, importSnapshot_base hs' hd]
    rw [hc', hd']
  · intro io now c c' bytes snap accounts _ hd h hfits hsmall
    exact importSnapshot_substitute hd h hfits hsmall

end DagChain

/-- An account that no block of the easy chain has ever funded. -/
def unfundedKey : Pubkey := 0x8a88e3dd7409f195fd52db2d3cba5d72ca6709bf1d94121bf3748801b40f6f5c

/-- The account list a peer makes up: 1000 SOL out of nothing. -/
def forgedAccounts : List (Pubkey × Account) :=
  [(unfundedKey, Account.new 1000000000000 0 Runtime.Ids.systemProgram)]

private theorem easySnapshot_decodes :
    SyncSnapshot.codec.deserialize soundSnapshot = .ok (easySnapshot 1750000011 fun _ => []) ∧
    SyncSnapshot.codec.Fits
      { easySnapshot 1750000011 fun _ => [] with accounts := forgedAccounts } := by
  have hheader : ∀ h ∈ (easySnapshot 1750000011 fun _ => []).proof, DagBlockHeader.codec.Fits h := by
    intro h hm
    refine DagBlockHeader.codec_fits ?_
    have hall : ∀ h ∈ (easySnapshot 1750000011 fun _ => []).proof,
        h.parents.length < 2^64 ∧ h.interlink.length < 2^64 := by decide
    exact hall h hm
  have horigin : DagBlockHeader.codec.Fits (easySnapshot 1750000011 fun _ => []).originHeader :=
    hheader _ (by simp [easySnapshot])
  have hnil : ∀ a ∈ ([] : List (Pubkey × Account)), (Codec.bytes32.seq Account.codec).Fits a := by
    simp
  have hblocks : ∀ b ∈ ([] : List DagBlock), DagBlock.codec.Fits b := by simp
  have hforged : ∀ a ∈ forgedAccounts, (Codec.bytes32.seq Account.codec).Fits a := by
    intro a ha
    rw [forgedAccounts, List.mem_singleton] at ha
    subst ha
    have hdata : ([] : Bytes).length < 2^64 := by decide
    exact ⟨trivial, trivial, hdata, trivial, trivial, trivial⟩
  refine ⟨SyncSnapshot.codec.deserialize_encode ?_, ?_⟩
  · exact ⟨horigin, ⟨by decide, hnil⟩, ⟨by decide, hblocks⟩, ⟨by decide, hheader⟩⟩
  · exact ⟨horigin, ⟨by decide, hforged⟩, ⟨by decide, hblocks⟩, ⟨by decide, hheader⟩⟩

/-- The sound snapshot is adopted by a fresh node, and so is it with the made-up list. -/
theorem importSnapshot_accounts_sound :
    ∃ c d, DagChain.openWithGenesis transferEnv easyParams [] = .ok (.ok c) ∧
      c.importSnapshot transferEnv none 1750000000 (SyncSnapshot.codec.encode
        { easySnapshot 1750000011 fun _ => [] with accounts := forgedAccounts }) =
          .ok (.ok true, d) ∧ d.baseAccounts = some forgedAccounts := by
  have hrun : returnsWith (DagChain.openWithGenesis transferEnv easyParams []) (fun o =>
      returnsWith o fun c => decide (c.blocks.card = 1) && !c.historyPruned &&
        returnsWith (c.importSnapshot transferEnv none 1750000000 soundSnapshot) fun p =>
          returnsWith p.1 id) = true := by
    decide +kernel
  obtain ⟨_, hopen, ho⟩ := returnsWith_iff.mp hrun
  obtain ⟨c, rfl, hc⟩ := returnsWith_iff.mp ho
  simp only [Bool.and_eq_true, decide_eq_true_eq, Bool.not_eq_true'] at hc
  obtain ⟨⟨hcard, hpruned⟩, hc⟩ := hc
  obtain ⟨⟨_, c'⟩, himport, hr⟩ := returnsWith_iff.mp hc
  obtain ⟨b, rfl, hb⟩ := returnsWith_iff.mp hr
  have hbt : b = true := hb
  subst hbt
  have hsmall : (SyncSnapshot.codec.encode
      { easySnapshot 1750000011 fun _ => [] with accounts := forgedAccounts }).length ≤
        maxSnapshotBytes := by decide +kernel
  obtain ⟨d, hd, hbase, _⟩ := (DagChain.importSnapshot_accounts_iff transferEnv).2 none 1750000000
    c c' soundSnapshot _ forgedAccounts ⟨hcard, by simp [hpruned]⟩ easySnapshot_decodes.1 himport
    easySnapshot_decodes.2 hsmall
  exact ⟨c, d, hopen, hd, hbase⟩

/-- Two payloads that differ in the account list alone are both adopted by a fresh node, and give
two account sets. -/
theorem importSnapshot_unauthenticated :
    ∃ c d d', DagChain.openWithGenesis transferEnv easyParams [] = .ok (.ok c) ∧
      c.importSnapshot transferEnv none 1750000000 soundSnapshot = .ok (.ok true, d) ∧
      c.importSnapshot transferEnv none 1750000000 (SyncSnapshot.codec.encode
        { easySnapshot 1750000011 fun _ => [] with accounts := forgedAccounts }) =
          .ok (.ok true, d') ∧
      (d.seedAccounts transferEnv).get unfundedKey = none ∧
      (d'.seedAccounts transferEnv).get unfundedKey =
        some (Account.new 1000000000000 0 Runtime.Ids.systemProgram) := by
  have hrun : returnsWith (DagChain.openWithGenesis transferEnv easyParams []) (fun o =>
      returnsWith o fun c =>
        (returnsWith (c.importSnapshot transferEnv none 1750000000 soundSnapshot) fun p =>
          returnsWith p.1 id && (p.2.seedAccounts transferEnv).get unfundedKey == none) &&
        returnsWith (c.importSnapshot transferEnv none 1750000000 (SyncSnapshot.codec.encode
          { easySnapshot 1750000011 fun _ => [] with accounts := forgedAccounts })) fun p =>
            returnsWith p.1 id && (p.2.seedAccounts transferEnv).get unfundedKey ==
              some (Account.new 1000000000000 0 Runtime.Ids.systemProgram)) = true := by
    decide +kernel
  obtain ⟨_, hopen, ho⟩ := returnsWith_iff.mp hrun
  obtain ⟨c, rfl, hc⟩ := returnsWith_iff.mp ho
  simp only [Bool.and_eq_true] at hc
  obtain ⟨⟨_, d⟩, hd, hr⟩ := returnsWith_iff.mp hc.1
  obtain ⟨⟨_, d'⟩, hd', hr'⟩ := returnsWith_iff.mp hc.2
  simp only [Bool.and_eq_true, beq_iff_eq] at hr hr'
  obtain ⟨b, rfl, hb⟩ := returnsWith_iff.mp hr.1
  obtain ⟨b', rfl, hb'⟩ := returnsWith_iff.mp hr'.1
  have hbt : b = true := hb
  have hbt' : b' = true := hb'
  subst hbt
  subst hbt'
  exact ⟨c, d, d', hopen, hd, hd', hr.2, hr'.2⟩

end TaoDag.Dagvm
