import TaoDag.Dagvm.Heaviest
import TaoDag.Dagvm.Replay
import TaoDag.Dagvm.SnapshotAccounts
import TaoDag.Framework.Decoding

namespace TaoDag.Dagvm

open Consensus (DagBlock DagBlockHeader Pubkey Target)
open Database (Account BlockLog ReplaceFault)
open TaoDag.Runtime (Env transferEnv)

section Decoded

theorem header_reads : DagBlockHeader.codec.Reads :=
  ((Codec.reads_uint 4).seq <| Codec.reads_bytes32.vec.seq <| (Codec.reads_uint 8).seq <|
    Codec.reads_bytes32.seq <| Codec.reads_bytes32.seq <| Codec.reads_bytes32.seq <|
    Codec.reads_bytes32.vec.seq <| (Codec.reads_uint 8).seq Codec.reads_bytes32).via fun _ => rfl

theorem block_reads : DagBlock.codec.Reads :=
  (header_reads.seq Codec.reads_byteVec.vec).via fun _ => rfl

theorem accounts_reads : accountsCodec.Reads :=
  (Codec.reads_bytes32.seq (((Codec.reads_uint 8).seq <| Codec.reads_byteVec.seq <|
    Codec.reads_bytes32.seq <| Codec.reads_bool.seq (Codec.reads_uint 8)).via fun _ => rfl)).vec

theorem snapshot_reads : SyncSnapshot.codec.Reads :=
  (header_reads.seq <| accounts_reads.seq <| block_reads.vec.seq header_reads.vec).via fun _ => rfl

/-- The records of a snapshot that was decoded are decoded again. -/
theorem deserialize_records {bytes : Bytes} {snap : SyncSnapshot}
    (h : SyncSnapshot.codec.deserialize bytes = .ok snap) :
    LogRecord.codec.deserialize
        (LogRecord.snapshot snap.originHeader snap.accounts snap.proof).serialize =
      .ok (.snapshot snap.originHeader snap.accounts snap.proof) ∧
    ∀ b ∈ snap.suffix, LogRecord.codec.deserialize (LogRecord.block b).serialize = .ok (.block b) := by
  obtain ⟨hheader, haccounts, hsuffix, hproof⟩ := snapshot_reads.deserialize h
  constructor
  · have hfits : LogRecord.codec.Fits (.snapshot snap.originHeader snap.accounts snap.proof) :=
      ⟨hheader, haccounts, hproof⟩
    exact LogRecord.codec.deserialize_encode hfits
  · intro b hb
    have hfits : LogRecord.codec.Fits (.block b) := hsuffix.2 b hb
    exact LogRecord.codec.deserialize_encode hfits

end Decoded

namespace DagChain

variable {Tx : Type} {env : Env Tx} {p : Params} {c c' d d' g : DagChain Tx} {snap : SyncSnapshot}

/-- The chain with another log, and another memory of its bootstrap. -/
def withBoot (c : DagChain Tx) (log : BlockLog) (bootstrapped : Bool) (bootstrapWork : Nat) :
    DagChain Tx := { c with log, bootstrapped, bootstrapWork }

section WithBoot

variable {log : BlockLog} {b : Bool} {w : Nat}

/-- Applying a block does not look at them. -/
theorem applyWithId_withBoot {block : DagBlock} {id : Hash} {r : Except String Unit}
    (h : c.applyWithId env block id = .ok (r, c')) :
    (c.withBoot log b w).applyWithId env block id = .ok (r, c'.withBoot log b w) := by
  rcases applyWithId_cases h with ⟨hid, rfl, rfl⟩ | ⟨hid, engine, he, hrest⟩
  · rw [applyWithId, if_pos (show id ∈ (c'.withBoot log b w).blocks from hid)]
    rfl
  · have he' : (c.withBoot log b w).engine.addBlock env.fractions id
        ((c.withBoot log b w).engineParents block.header.parents) = .ok engine := he
    rw [applyWithId, if_neg (show id ∉ (c.withBoot log b w).blocks from hid), he']
    rcases hrest with ⟨e, hd, rfl, rfl⟩ | ⟨txs, hd, rfl, rfl⟩
    · simp only [bind, Except.bind, hd]
      rfl
    · simp only [bind, Except.bind, hd]
      rfl

theorem applySuffix_withBoot {suffix : List DagBlock} {r : Except String Unit}
    (h : c.applySuffix env suffix = .ok (r, c')) :
    (c.withBoot log b w).applySuffix env suffix = .ok (r, c'.withBoot log b w) := by
  induction suffix generalizing c with
  | nil =>
    cases h
    rfl
  | cons block suffix ih =>
    rw [applySuffix] at h ⊢
    obtain ⟨⟨v, c₁⟩, happly, h⟩ := bind_eq_ok.mp h
    refine bind_eq_ok.mpr ⟨_, applyWithId_withBoot happly, ?_⟩
    cases v with
    | error e =>
      cases h
      rfl
    | ok u => exact ih h

end WithBoot

/-- What a chain is opened with, and keeps. -/
def settings (c : DagChain Tx) :
    Target × Nat × Nat × Nat × Pubkey × BitVec 64 × List (Pubkey × BitVec 64) × Nat × Hash :=
  (c.genesisTarget, c.blockTimeSecs, c.lwmaWindow, c.k, c.miner, c.reward, c.allocations,
    c.finalityDepth, c.originalGenesis)

/-- Re-anchoring forgets all of a chain but its settings, its log and its bootstrap. -/
theorem loadSnapshot_withBoot {header : DagBlockHeader} {accounts : List (Pubkey × Account)}
    {proof : List DagBlockHeader} (hset : c.settings = g.settings)
    (h : c.loadSnapshot env header accounts proof = .ok c') :
    g.loadSnapshot env header accounts proof =
      .ok (c'.withBoot g.log g.bootstrapped g.bootstrapWork) := by
  obtain ⟨engine, hengine, rfl⟩ := loadSnapshot_spec h
  simp only [settings, Prod.mk.injEq] at hset
  obtain ⟨htarget, htime, hwindow, hk, hminer, hreward, hallocations, hdepth, horigin⟩ := hset
  rw [loadSnapshot, ← hk, hengine]
  simp only [withBoot, htarget, htime, hwindow, hminer, hreward, hallocations, hdepth, horigin,
    hk]
  rfl

/-- The chain as its log tells it: without what it remembers of its bootstrap. -/
def forgotten (c : DagChain Tx) : DagChain Tx := { c with bootstrapped := false, bootstrapWork := 0 }

/-- Replaying the records of a suffix applies its blocks. -/
theorem replayRecords_suffix {suffix : List DagBlock}
    (hrecords : ∀ b ∈ suffix,
      LogRecord.codec.deserialize (LogRecord.block b).serialize = .ok (.block b))
    (h : c.applySuffix env suffix = .ok (.ok (), c')) :
    replayRecords env c (suffix.map fun b => (LogRecord.block b).serialize) = .ok (.ok c') := by
  induction suffix generalizing c with
  | nil =>
    cases h
    rfl
  | cons block suffix ih =>
    obtain ⟨hblock, hrecords⟩ := List.forall_mem_cons.mp hrecords
    obtain ⟨⟨v, c₁⟩, happly, h⟩ := bind_eq_ok.mp h
    cases v with
    | error e => cases h
    | ok u =>
      rw [List.map_cons, replayRecords, replayRecord, hblock]
      exact bind_eq_ok.mpr ⟨_, happly, ih hrecords h⟩

/-- A log that was replaced holds its new records. -/
theorem holds_of_replaceAll {log log' : BlockLog} {io : Option ReplaceFault} {records : List Bytes}
    (h : log.replaceAll io records = (.ok (), log')) :
    log'.attached = true ∧ log'.Holds records := by
  unfold BlockLog.replaceAll at h
  split at h
  · rename_i hlen
    cases io with
    | none =>
      cases h
      exact ⟨rfl, rfl, hlen⟩
    | some fault => cases fault <;> cases h
  · cases h

/-- The log of a snapshot that was adopted replays to the chain that adopted it. -/
theorem adoptSnapshot_durable {io : Option ReplaceFault} {bytes : Bytes} {work : Nat}
    {log : BlockLog} (hg : genesis env p log = .ok g) (hset : c.settings = g.settings)
    (hdecoded : SyncSnapshot.codec.deserialize bytes = .ok snap)
    (h : c.adoptSnapshot env io snap work = .ok (.ok true, c')) :
    openWithGenesis env p c'.log.file = .ok (.ok c'.forgotten) := by
  obtain ⟨c₁, c₂, log', hload, hsuffix, hlog, rfl⟩ := adoptSnapshot_ok h
  obtain ⟨hattached, hholds⟩ := holds_of_replaceAll hlog
  obtain ⟨hsnap, hblocks⟩ := deserialize_records hdecoded
  have hopened : BlockLog.openAt log'.file = log' := by
    cases log'
    cases hattached
    rfl
  have hforgets : g.bootstrapped = false ∧ g.bootstrapWork = 0 := by
    obtain ⟨engine, _, hg⟩ := bind_eq_ok.mp hg
    cases hg
    exact ⟨rfl, rfl⟩
  have hgen : genesis env p log' = .ok (g.withBoot log' g.bootstrapped g.bootstrapWork) :=
    genesis_log hg
  rw [hforgets.1, hforgets.2] at hgen
  have hfirst : (g.withBoot log' false 0).loadSnapshot env snap.originHeader snap.accounts
      snap.proof = .ok (c₁.withBoot log' false 0) := loadSnapshot_withBoot hset hload
  have hrest : replayRecords env (c₁.withBoot log' false 0)
      (snap.suffix.map fun b => (LogRecord.block b).serialize) = .ok (.ok (c₂.withBoot log' false 0)) :=
    replayRecords_suffix hblocks (applySuffix_withBoot hsuffix)
  change openWithGenesis env p log'.file = _
  rw [openWithGenesis, hopened]
  refine bind_eq_ok.mpr ⟨_, hgen, ?_⟩
  rw [BlockLog.readAll_of_holds hholds]
  refine bind_eq_ok.mpr ⟨(.ok (), _), ?_, hrest⟩
  rw [replayRecord, hsnap]
  exact bind_eq_ok.mpr ⟨_, hfirst, rfl⟩

/-- A chain that has only imported, and what its log retains of it. -/
structure Bootstraps (env : Env Tx) (p : Params) (d : DagChain Tx) : Prop where
  settings : ∃ log g, genesis env p log = .ok g ∧ d.settings = g.settings
  durable : openWithGenesis env p d.log.file = .ok (.ok d.forgotten)
  pruned : d.historyPruned = d.bootstrapped
  fresh : d.bootstrapped = false → d.bootstrapWork = 0
  proven : d.bootstrapped = true →
    verifyProof env.blake3 d.proof d.genesisDag d.originalGenesis = .ok d.bootstrapWork

theorem Bootstraps.of_open_nil (h : openWithGenesis env p [] = .ok (.ok c)) :
    Bootstraps env p c := by
  have hgen := genesis_of_open_nil h
  obtain ⟨engine, _, hc⟩ := bind_eq_ok.mp hgen
  cases hc
  exact ⟨⟨_, _, hgen, rfl⟩, h, rfl, fun _ => rfl, nofun⟩

theorem Bootstraps.forgotten_eq (h : Bootstraps env p d) (hfresh : d.bootstrapped = false) :
    d.forgotten = d := by
  have hwork := h.fresh hfresh
  cases d
  cases hfresh
  cases hwork
  rfl

theorem Bootstraps.adopt {io : Option ReplaceFault} {now : Int} {bytes : Bytes} {work : Nat}
    (h : Bootstraps env p d) (hadopt : Adoptable env now d bytes snap work)
    (hrun : d.adoptSnapshot env io snap work = .ok (.ok true, d')) : Bootstraps env p d' := by
  obtain ⟨log, g, hg, hset⟩ := h.settings
  have hdurable := adoptSnapshot_durable hg hset hadopt.decoded hrun
  obtain ⟨c₁, c₂, log', hload, hsuffix, _, rfl⟩ := adoptSnapshot_ok hrun
  obtain ⟨engine, _, rfl⟩ := loadSnapshot_spec hload
  obtain ⟨_, _, _, _, _, rfl⟩ := applySuffix_dag hsuffix
  exact ⟨⟨log, g, hg, hset⟩, hdurable, rfl, nofun, fun _ => hadopt.proven⟩

/-- A snapshot of an unknown origin with a valid proof of `work`. -/
structure Offers (env : Env Tx) (c : DagChain Tx) (bytes : Bytes) (snap : SyncSnapshot)
    (work : Nat) : Prop where
  small : bytes.length ≤ maxSnapshotBytes
  decoded : SyncSnapshot.codec.deserialize bytes = .ok snap
  unknown : snap.originHeader.id env.blake3 ∉ c.blocks
  proven : verifyProof env.blake3 snap.proof (snap.originHeader.id env.blake3) c.originalGenesis =
    .ok work

/-- The node is neither fresh, nor one that has adopted less work. -/
def Declines (c : DagChain Tx) (work : Nat) : Prop :=
  ¬(c.blocks.card = 1 ∧ ¬c.historyPruned) ∧ ¬(c.bootstrapped ∧ c.bootstrapWork < work)

theorem Offers.declined {io : Option ReplaceFault} {now : Int} {bytes : Bytes} {work : Nat}
    (h : Offers env c bytes snap work) (hc : Declines c work) :
    c.importSnapshot env io now bytes = .ok (.ok false, c) := by
  rw [Declines] at hc
  rw [importSnapshot, if_neg (Nat.not_lt.mpr h.small), h.decoded]
  simp only [if_neg h.unknown, h.proven, if_pos hc]
  rfl

/-- An offer that is not declined is adopted, or fails. -/
theorem Offers.not_false {io : Option ReplaceFault} {now : Int} {bytes : Bytes} {work : Nat}
    (h : Offers env c bytes snap work) (hc : ¬Declines c work) :
    c.importSnapshot env io now bytes ≠ .ok (.ok false, c') := by
  intro hrun
  rw [Declines] at hc
  rw [importSnapshot, if_neg (Nat.not_lt.mpr h.small), h.decoded] at hrun
  simp only [if_neg h.unknown, h.proven, if_neg hc] at hrun
  cases hv : validateSuffix env now snap.suffix with
  | error e =>
    simp only [hv] at hrun
    cases hrun
  | ok u =>
    simp only [hv] at hrun
    obtain ⟨c₁, _, hrun⟩ := bind_eq_ok.mp hrun
    obtain ⟨⟨v, c₂⟩, _, hrun⟩ := bind_eq_ok.mp hrun
    cases v with
    | error e => cases hrun
    | ok u =>
      simp only at hrun
      split at hrun <;> cases hrun

/-- Two nodes with the same blocks that both decline the work of an offer reply alike. -/
theorem importSnapshot_declines {io : Option ReplaceFault} {now : Int} {bytes : Bytes}
    (hblocks : d.blocks = c.blocks) (horigin : d.originalGenesis = c.originalGenesis)
    (hdecline : ∀ snap work, Offers env c bytes snap work → Declines c work ∧ Declines d work) :
    ∃ r, c.importSnapshot env io now bytes = .ok (r, c) ∧
      d.importSnapshot env io now bytes = .ok (r, d) := by
  by_cases hsmall : maxSnapshotBytes < bytes.length
  · simp only [importSnapshot, if_pos hsmall]
    exact ⟨_, rfl, rfl⟩
  cases hd : SyncSnapshot.codec.deserialize bytes with
  | error e =>
    simp only [importSnapshot, if_neg hsmall, hd]
    exact ⟨_, rfl, rfl⟩
  | ok snap =>
    by_cases hid : snap.originHeader.id env.blake3 ∈ c.blocks
    · simp only [importSnapshot, if_neg hsmall, hd, hblocks, if_pos hid]
      exact ⟨_, rfl, rfl⟩
    cases hp : verifyProof env.blake3 snap.proof (snap.originHeader.id env.blake3)
        c.originalGenesis with
    | error e =>
      simp only [importSnapshot, if_neg hsmall, hd, hblocks, if_neg hid, horigin, hp]
      exact ⟨_, rfl, rfl⟩
    | ok work =>
      have hc : Offers env c bytes snap work := ⟨Nat.not_lt.mp hsmall, hd, hid, hp⟩
      have hd : Offers env d bytes snap work :=
        ⟨hc.small, hc.decoded, hblocks ▸ hc.unknown, horigin ▸ hc.proven⟩
      obtain ⟨hdc, hdd⟩ := hdecline snap work hc
      exact ⟨_, hc.declined hdc, hd.declined hdd⟩

/-- A node that was restarted after an adoption is offered no more work than that of the proof
it retains. -/
def Modest (env : Env Tx) (c : DagChain Tx) (bytes : Bytes) : Prop :=
  c.historyPruned = true → c.bootstrapped = false → ∀ snap work kept,
    Offers env c bytes snap work →
    verifyProof env.blake3 c.proof c.genesisDag c.originalGenesis = .ok kept → work ≤ kept

/-- The verdict of an offer, and the origin it leaves. -/
def offered (env : Env Tx) (io : Option ReplaceFault) (now : Int) (c : DagChain Tx)
    (bytes : Bytes) : Result (Except String Bool × Hash) :=
  (fun x => (x.1, x.2.genesisDag)) <$> c.importSnapshot env io now bytes

/-- Two nodes that are made the same offers, of which the first one is also restarted. No offer
fails on the way to its adoption. -/
inductive Restarts (env : Env Tx) (p : Params) : DagChain Tx → DagChain Tx → Prop
  | start {c : DagChain Tx} : openWithGenesis env p [] = .ok (.ok c) → Restarts env p c c
  | restart {c c' d : DagChain Tx} : Restarts env p c d →
      openWithGenesis env p c.log.file = .ok (.ok c') → Restarts env p c' d
  | offer {c c' d d' : DagChain Tx} {io : Option ReplaceFault} {now : Int} {bytes : Bytes}
      {r s : Except String Bool} : Restarts env p c d → Modest env c bytes →
      (∀ snap work, Adoptable env now c bytes snap work → Installable env io c snap) →
      c.importSnapshot env io now bytes = .ok (r, c') →
      d.importSnapshot env io now bytes = .ok (s, d') → Restarts env p c' d'

theorem Bootstraps.offer {io : Option ReplaceFault} {now : Int} {bytes : Bytes}
    {r : Except String Bool} (h : Bootstraps env p d)
    (hatomic : ∀ snap work, Adoptable env now d bytes snap work → Installable env io d snap)
    (hrun : d.importSnapshot env io now bytes = .ok (r, d')) : Bootstraps env p d' := by
  rcases importSnapshot_cases hrun with ⟨rfl, _⟩ | ⟨snap, work, hadopt, hrun⟩
  · exact h
  · have hr := adoptSnapshot_installable (hatomic snap work hadopt) hrun
    subst hr
    exact h.adopt hadopt hrun

/-- A node that was restarted after an adoption declines the offers it can judge as before, and
the one that was not declines them too. -/
theorem Bootstraps.declines {io : Option ReplaceFault} {now : Int} {bytes : Bytes}
    (h : Bootstraps env p d) (hboot : d.bootstrapped = true)
    (hmodest : Modest env d.forgotten bytes) :
    ∃ r, d.forgotten.importSnapshot env io now bytes = .ok (r, d.forgotten) ∧
      d.importSnapshot env io now bytes = .ok (r, d) := by
  have hpruned : d.historyPruned = true := h.pruned.trans hboot
  refine importSnapshot_declines rfl rfl fun snap work hoffer => ⟨⟨?_, ?_⟩, ?_, ?_⟩
  · exact fun hfresh => hfresh.2 hpruned
  · exact fun hstronger => Bool.false_ne_true hstronger.1
  · exact fun hfresh => hfresh.2 hpruned
  · intro hstronger
    have hle : work ≤ d.bootstrapWork :=
      hmodest hpruned rfl snap work d.bootstrapWork hoffer (h.proven hboot)
    exact absurd hstronger.2 (Nat.not_lt.mpr hle)

/-- A restart loses nothing but the memory of the bootstrap. -/
theorem Restarts.bootstraps (h : Restarts env p c d) :
    Bootstraps env p d ∧ (c = d ∨ c = d.forgotten) := by
  induction h with
  | start hopen => exact ⟨.of_open_nil hopen, Or.inl rfl⟩
  | restart _ hopen ih =>
    obtain ⟨hd, hc⟩ := ih
    refine ⟨hd, Or.inr ?_⟩
    rcases hc with rfl | rfl
    · rw [hd.durable] at hopen
      cases hopen
      rfl
    · rw [forgotten, hd.durable] at hopen
      cases hopen
      rfl
  | offer _ hmodest hatomic hc hd ih =>
    obtain ⟨h, rfl | rfl⟩ := ih
    · rw [hc] at hd
      cases hd
      exact ⟨h.offer hatomic hc, Or.inl rfl⟩
    · rename_i d _ _ _ _ _ _ _
      cases hboot : d.bootstrapped with
      | false =>
        rw [h.forgotten_eq hboot] at hc hatomic
        rw [hc] at hd
        cases hd
        exact ⟨h.offer hatomic hc, Or.inl rfl⟩
      | true =>
        obtain ⟨v, hc', hd'⟩ := h.declines hboot hmodest
        rw [hc'] at hc
        rw [hd'] at hd
        cases hc
        cases hd
        exact ⟨h, Or.inr rfl⟩

/-- In a run whose offers are judged alike and adopted whole, the two nodes have one origin, the
log of the restarted one opens again, and it judges the next offer as the other one does exactly
if it has no more work than the proof retained across a restart. -/
theorem restarts_agree (h : Restarts env p c d) :
    c.genesisDag = d.genesisDag ∧ (∃ c', openWithGenesis env p c.log.file = .ok (.ok c')) ∧
    ∀ io now bytes, Modest env c bytes ↔ offered env io now c bytes = offered env io now d bytes := by
  obtain ⟨hd, hc⟩ := h.bootstraps
  refine ⟨?_, ⟨d.forgotten, ?_⟩, fun io now bytes => ?_⟩
  · rcases hc with rfl | rfl <;> rfl
  · rcases hc with rfl | rfl
    · exact hd.durable
    · exact hd.durable
  have hmodest : c = d → Modest env c bytes := by
    rintro rfl hpruned hboot
    exact absurd (hd.pruned.symm.trans hpruned) (hboot ▸ Bool.false_ne_true)
  rcases hc with rfl | rfl
  · exact ⟨fun _ => rfl, fun _ => hmodest rfl⟩
  cases hboot : d.bootstrapped with
  | false =>
    have heq := hd.forgotten_eq hboot
    exact ⟨fun _ => by rw [heq], fun _ => hmodest heq⟩
  | true =>
    constructor
    · intro hmod
      obtain ⟨v, hc, hd⟩ := hd.declines hboot hmod
      rw [offered, offered, hc, hd]
      rfl
    · intro hsame hpruned _ snap work kept hoffer hkept
      by_contra hlt
      have hdeclined : d.forgotten.importSnapshot env io now bytes = .ok (.ok false, d.forgotten) :=
        hoffer.declined
          ⟨fun hfresh => hfresh.2 hpruned, fun hstronger => Bool.false_ne_true hstronger.1⟩
      rw [offered, hdeclined] at hsame
      obtain ⟨⟨v, d'⟩, hrun, hv⟩ := map_eq_ok.mp hsame.symm
      obtain rfl : v = .ok false := congrArg Prod.fst hv
      have hoffer' : Offers env d bytes snap work :=
        ⟨hoffer.small, hoffer.decoded, hoffer.unknown, hoffer.proven⟩
      have hwork : kept = d.bootstrapWork := by
        have hproven := hd.proven hboot
        rw [show verifyProof env.blake3 d.proof d.genesisDag d.originalGenesis = .ok kept from hkept]
          at hproven
        cases hproven
        rfl
      refine hoffer'.not_false (fun hdecl => hdecl.2 ⟨hboot, ?_⟩) hrun
      exact hwork ▸ Nat.not_le.mp hlt

theorem installable_of_adopted {io : Option ReplaceFault} {now : Int} {bytes : Bytes}
    (hrun : c.importSnapshot env io now bytes = .ok (.ok true, c')) :
    ∀ snap work, Adoptable env now c bytes snap work → Installable env io c snap := by
  intro snap work hadopt
  by_contra hfault
  obtain ⟨e, d, herror⟩ : ∃ e d, c.adoptSnapshot env io snap work = .ok (.error e, d) :=
    adoptSnapshot_error hfault
  rw [importSnapshot_of_adoptable hadopt, herror] at hrun
  cases hrun

end DagChain

/-- A snapshot whose origin is a grandchild of genesis, proven by three headers. -/
def strongerSnapshot : Bytes :=
  let child := (easyBlock Blake3.hash [easyGenesis] (List.replicate 4 easyGenesis) 1750000011 []).header
  let childId := child.id Blake3.hash
  let origin := (easyBlock Blake3.hash [childId] [childId] 1750000021 []).header
  SyncSnapshot.codec.encode
    { originHeader := origin
      accounts := []
      suffix := []
      proof := [genesisHeader easyParams, child, origin] }

/-- A fresh node adopts a snapshot, is reopened over its log, and is offered a stronger one. -/
private theorem restarted :
    ∃ c c₁ c₂ d₁ d₂, DagChain.openWithGenesis transferEnv easyParams [] = .ok (.ok c) ∧
      c.historyPruned = false ∧
      c.importSnapshot transferEnv none 1750000000 soundSnapshot = .ok (.ok true, c₁) ∧
      DagChain.openWithGenesis transferEnv easyParams c₁.log.file = .ok (.ok c₂) ∧
      c₁.importSnapshot transferEnv none 1750000000 strongerSnapshot = .ok (.ok true, d₁) ∧
      c₂.importSnapshot transferEnv none 1750000000 strongerSnapshot = .ok (.ok false, d₂) ∧
      d₁.genesisDag ≠ d₂.genesisDag ∧ c₁.bootstrapped = true ∧ c₂.bootstrapped = false := by
  have hrun : returnsWith (DagChain.openWithGenesis transferEnv easyParams []) (fun o =>
      returnsWith o fun c => !c.historyPruned &&
        returnsWith (c.importSnapshot transferEnv none 1750000000 soundSnapshot) fun q =>
          returnsWith q.1 id &&
          returnsWith (DagChain.openWithGenesis transferEnv easyParams q.2.log.file) fun o' =>
            returnsWith o' fun c₂ =>
              returnsWith (q.2.importSnapshot transferEnv none 1750000000 strongerSnapshot) fun x =>
                returnsWith x.1 id &&
                returnsWith (c₂.importSnapshot transferEnv none 1750000000 strongerSnapshot) fun y =>
                  returnsWith y.1 (!·) && (x.2.genesisDag != y.2.genesisDag) &&
                    q.2.bootstrapped && !c₂.bootstrapped) = true := by
    decide +kernel
  simp only [returnsWith_iff, Bool.and_eq_true, Bool.not_eq_true', id_eq, bne_iff_ne] at hrun
  obtain ⟨_, hopen, c, rfl, hfresh, ⟨_, c₁⟩, hadopt, ⟨_, rfl, rfl⟩, _, hreopen, c₂, rfl, ⟨_, d₁⟩,
    hstronger, ⟨_, rfl, rfl⟩, ⟨_, d₂⟩, hrefused, ⟨⟨⟨_, rfl, rfl⟩, hne⟩, hknows⟩, hforgot⟩ := hrun
  exact ⟨c, c₁, c₂, d₁, d₂, hopen, hfresh, hadopt, hreopen, hstronger, hrefused, hne, hknows, hforgot⟩

namespace DagChain

/-- A node that was restarted after an adoption has the origin of the one that was not. -/
theorem restarts_agree_easy :
    ∃ c d : DagChain Runtime.Transaction, Restarts transferEnv easyParams c d ∧
      d.bootstrapped = true ∧ c.bootstrapped = false ∧ c.genesisDag = d.genesisDag := by
  obtain ⟨c, c₁, c₂, _, _, hopen, hfresh, hadopt, hreopen, _, _, _, hknows, hforgot⟩ := restarted
  have hrun : Restarts transferEnv easyParams c₂ c₁ :=
    .restart (.offer (.start hopen) (fun hpruned => absurd hpruned (hfresh ▸ Bool.false_ne_true))
      (installable_of_adopted hadopt) hadopt hadopt) hreopen
  exact ⟨c₂, c₁, hrun, hknows, hforgot, (restarts_agree hrun).1⟩

/-- The restarted node refuses a snapshot with more work than the one it has adopted; had it not
been closed, it would switch to it. -/
theorem restart_refuses_stronger :
    ∃ c c₁ c₂ d₁ d₂, openWithGenesis transferEnv easyParams [] = .ok (.ok c) ∧
      c.importSnapshot transferEnv none 1750000000 soundSnapshot = .ok (.ok true, c₁) ∧
      openWithGenesis transferEnv easyParams c₁.log.file = .ok (.ok c₂) ∧
      c₁.importSnapshot transferEnv none 1750000000 strongerSnapshot = .ok (.ok true, d₁) ∧
      c₂.importSnapshot transferEnv none 1750000000 strongerSnapshot = .ok (.ok false, d₂) ∧
      d₁.genesisDag ≠ d₂.genesisDag := by
  obtain ⟨c, c₁, c₂, d₁, d₂, hopen, _, hadopt, hreopen, hstronger, hrefused, hne, _⟩ := restarted
  exact ⟨c, c₁, c₂, d₁, d₂, hopen, hadopt, hreopen, hstronger, hrefused, hne⟩

end DagChain

end TaoDag.Dagvm
