import TaoDag.Dagvm.Commitment
import TaoDag.Dagvm.Converge
import TaoDag.Dagvm.Execution
import TaoDag.Dagvm.Mined

namespace TaoDag.Dagvm

open Consensus (DagBlock DagBlockHeader txMerkleRoot)
open Database (AppendFault BlockLog ReplaceFault)
open TaoDag.Runtime (Bank Env Transaction transferEnv)

/-- The blocks of a chain as they were accepted, by id. -/
abbrev Accepted := BlockHashMap DagBlock

namespace DagChain

variable {Tx : Type} {env : Env Tx} {p : Params} {acc acc' : Accepted} {c c' : DagChain Tx}
  {block : DagBlock} {id : Hash}

/-- A known block is not accepted again. -/
def noted (env : Env Tx) (c : DagChain Tx) (acc : Accepted) (block : DagBlock) : Accepted :=
  if block.id env.blake3 ∈ c.blocks then acc else acc.insert (block.id env.blake3) block

/-- A chain whose log had no legacy records, and what it accepted. Its opening replays the records
of the log; then each call returns `Ok`. -/
inductive Serves (env : Env Tx) (p : Params) : Accepted → DagChain Tx → Prop
  | genesis {log : BlockLog} {c : DagChain Tx} (run : DagChain.genesis env p log = .ok c) :
      Serves env p ∅ c
  | block {acc : Accepted} {c c' : DagChain Tx} {block : DagBlock} (before : Serves env p acc c)
      (root : txMerkleRoot env.blake3 block.transactions = block.header.txMerkleRoot)
      (run : c.apply env block = .ok (.ok (), c')) : Serves env p (c.noted env acc block) c'
  | snapshot {acc : Accepted} {c c' : DagChain Tx} {header : DagBlockHeader}
      {accounts : List (Consensus.Pubkey × Database.Account)} {proof : List DagBlockHeader}
      (before : Serves env p acc c) (run : c.loadSnapshot env header accounts proof = .ok c') :
      Serves env p ∅ c'
  | mine {acc : Accepted} {c c' : DagChain Tx} {io : Option AppendFault} {txs : List Tx}
      {timestamp : BitVec 64} {block : DagBlock} (before : Serves env p acc c)
      (run : c.mineAt env io txs timestamp = .ok (.ok block, c')) :
      Serves env p (c.noted env acc block) c'
  | accept {acc : Accepted} {c c' : DagChain Tx} {io : Option AppendFault} {now : Int}
      {block : DagBlock} (before : Serves env p acc c)
      (run : c.accept env io now block = .ok (.ok (), c')) :
      Serves env p (c.noted env acc block) c'
  | virtualState {acc : Accepted} {c c' : DagChain Tx} {bank : Bank} (before : Serves env p acc c)
      (run : c.virtualState env = .ok (.ok bank, c')) : Serves env p acc c'
  | setFinalityDepth {acc : Accepted} {c : DagChain Tx} {depth : Nat}
      (before : Serves env p acc c) : Serves env p acc (c.setFinalityDepth depth)
  | pruneFinalizedTransactions {acc : Accepted} {c c' : DagChain Tx} {n : Nat}
      (before : Serves env p acc c) (run : c.pruneFinalizedTransactions = .ok (n, c')) :
      Serves env p acc c'
  | prune {acc : Accepted} {c c' : DagChain Tx} {io : Option ReplaceFault} {n : Nat}
      (before : Serves env p acc c) (run : c.prune env io = .ok (.ok n, c')) :
      Serves env p acc c'

/-- What is stored of the blocks: headers under their ids, and bodies as the accepted transactions
decode. -/
structure Holds (env : Env Tx) (acc : Accepted) (c : DagChain Tx) : Prop where
  id : ∀ {id header}, c.headers.lookup id = some header → header.id env.blake3 = id
  header : ∀ {id header block}, c.headers.lookup id = some header →
    acc.lookup id = some block → block.header = header
  root : ∀ {id block}, acc.lookup id = some block →
    txMerkleRoot env.blake3 block.transactions = block.header.txMerkleRoot
  known : ∀ {id txs}, c.blockTxs.lookup id = some txs → id ∈ c.blocks
  body : ∀ {id txs}, c.blockTxs.lookup id = some txs → txs ≠ [] ∧
    ∃ block, acc.lookup id = some block ∧ decodeTxs env block.transactions = .ok txs

theorem Holds.genesis {log : BlockLog} (h : DagChain.genesis env p log = .ok c) :
    Holds env ∅ c := by
  obtain ⟨engine, _, h⟩ := bind_eq_ok.mp h
  cases h
  refine ⟨fun {id header} hid => ?_, nofun, nofun, nofun, nofun⟩
  obtain ⟨rfl, rfl⟩ := lookup_singleton.mp hid
  rfl

theorem Holds.loadSnapshot {header : DagBlockHeader}
    {accounts : List (Consensus.Pubkey × Database.Account)} {proof : List DagBlockHeader}
    (h : c.loadSnapshot env header accounts proof = .ok c') : Holds env ∅ c' := by
  obtain ⟨engine, _, h⟩ := bind_eq_ok.mp h
  cases h
  refine ⟨fun {id header} hid => ?_, nofun, nofun, nofun, nofun⟩
  obtain ⟨rfl, rfl⟩ := lookup_singleton.mp hid
  rfl

/-- A call that changes none of the headers, and at most loses bodies. -/
theorem Holds.frame (h : Holds env acc c) (hheaders : c'.headers = c.headers)
    (hblocks : c'.blocks = c.blocks)
    (hbodies : ∀ id txs, c'.blockTxs.lookup id = some txs → c.blockTxs.lookup id = some txs) :
    Holds env acc c' where
  id := by
    rw [hheaders]
    exact h.id
  header := by
    rw [hheaders]
    exact h.header
  root := h.root
  known hid := by
    rw [hblocks]
    exact h.known (hbodies _ _ hid)
  body hid := h.body (hbodies _ _ hid)

/-- What a block that is applied adds. -/
theorem Holds.apply (h : Holds env acc c)
    (hroot : txMerkleRoot env.blake3 block.transactions = block.header.txMerkleRoot)
    (hrun : c.apply env block = .ok (.ok (), c')) : Holds env (c.noted env acc block) c' := by
  rcases applyWithId_cases hrun with ⟨hknown, _, rfl⟩ | ⟨hnew, engine, _, hcases⟩
  · rw [noted, if_pos hknown]
    exact h
  rcases hcases with ⟨e, _, herr, _⟩ | ⟨txs, htxs, _, rfl⟩
  · cases herr
  rw [noted, if_neg hnew]
  have hacc : ∀ {id : Hash}, id ≠ block.id env.blake3 →
      (acc.insert (block.id env.blake3) block).lookup id = acc.lookup id :=
    fun hne => AList.lookup_insert_ne hne
  have hheaders : ∀ {id : Hash}, id ≠ block.id env.blake3 →
      (c.headers.insert (block.id env.blake3) block.header).lookup id = c.headers.lookup id :=
    fun hne => AList.lookup_insert_ne hne
  -- a body under the new id is the new one
  have hbodies : ∀ {id : Hash} {txs' : List Tx},
      (if txs.isEmpty then c.blockTxs else c.blockTxs.insert (block.id env.blake3) txs).lookup id =
        some txs' →
      (id = block.id env.blake3 ∧ txs' = txs ∧ txs ≠ []) ∨
        (id ≠ block.id env.blake3 ∧ c.blockTxs.lookup id = some txs') := by
    intro id txs' hid
    by_cases hne : id = block.id env.blake3
    · subst hne
      split at hid
      · exact absurd (h.known hid) hnew
      · rename_i hempty
        rw [AList.lookup_insert] at hid
        cases hid
        exact Or.inl ⟨rfl, rfl, fun hnil => hempty (by rw [hnil]; rfl)⟩
    · refine Or.inr ⟨hne, ?_⟩
      split at hid
      · exact hid
      · rwa [AList.lookup_insert_ne hne] at hid
  constructor
  · intro id header hid
    change (c.headers.insert _ _).lookup id = some header at hid
    by_cases hne : id = block.id env.blake3
    · rw [hne, AList.lookup_insert] at hid
      cases hid
      exact hne.symm
    · rw [hheaders hne] at hid
      exact h.id hid
  · intro id header block' hid hblock
    change (c.headers.insert _ _).lookup id = some header at hid
    by_cases hne : id = block.id env.blake3
    · rw [hne, AList.lookup_insert] at hid hblock
      cases hid
      cases hblock
      rfl
    · rw [hheaders hne] at hid
      rw [hacc hne] at hblock
      exact h.header hid hblock
  · intro id block' hblock
    by_cases hne : id = block.id env.blake3
    · rw [hne, AList.lookup_insert] at hblock
      cases hblock
      exact hroot
    · rw [hacc hne] at hblock
      exact h.root hblock
  · intro id txs' hid
    rcases hbodies hid with ⟨rfl, _⟩ | ⟨_, hid⟩
    · exact Finset.mem_insert_self ..
    · exact Finset.mem_insert_of_mem (h.known hid)
  · intro id txs' hid
    rcases hbodies hid with ⟨rfl, rfl, hne⟩ | ⟨hne, hid⟩
    · exact ⟨hne, block, AList.lookup_insert acc, htxs⟩
    · rw [hacc hne]
      exact h.body hid

theorem Holds.appendAndApply (h : Holds env acc c)
    (hroot : txMerkleRoot env.blake3 block.transactions = block.header.txMerkleRoot)
    {io : Option AppendFault} (hrun : c.appendAndApply env io block = .ok (.ok (), c')) :
    Holds env (c.noted env acc block) c' := by
  rcases appendAndApply_cases hrun with ⟨e, log, _, herr, _⟩ | ⟨log, _, hrun⟩
  · cases herr
  · have hlog : Holds env acc { c with log } := h.frame rfl rfl fun _ _ hid => hid
    exact hlog.apply hroot hrun

/-- Pruning keeps the headers and the bodies of the blocks it keeps. -/
theorem Holds.prune (h : Holds env acc c) {io : Option ReplaceFault} {n : Nat}
    (hrun : c.prune env io = .ok (.ok n, c')) : Holds env acc c' := by
  rcases prune_cases hrun with ⟨log, rfl, _⟩ | ⟨order, i, pt, bank, engine, header, log, _, _, _, _, _,
    _, _, _, rfl⟩
  · exact h.frame rfl rfl fun _ _ hid => hid
  have hkept : ∀ {ν : Type} {m : BlockHashMap ν} {id : Hash} {v : ν},
      (restrict m (pt :: order.drop (i + 1))).lookup id = some v →
      id ∈ pt :: order.drop (i + 1) ∧ m.lookup id = some v := by
    intro ν m id v hid
    rw [restrict_lookup] at hid
    split at hid
    · exact ⟨‹_›, hid⟩
    · cases hid
  exact
    { id := fun hid => h.id (hkept hid).2
      header := fun hid => h.header (hkept hid).2
      root := h.root
      known := fun hid => List.mem_toFinset.mpr (hkept hid).1
      body := fun hid => h.body (hkept hid).2 }

/-- Whatever was called, the chain holds what it accepted, less what it dropped. -/
theorem Serves.holds (h : Serves env p acc c) : Holds env acc c := by
  induction h with
  | genesis run => exact .genesis run
  | block _ root run ih => exact ih.apply root run
  | snapshot _ run => exact .loadSnapshot run
  | @mine _ _ _ _ _ _ _ _ run ih =>
    obtain ⟨block, hbuilt, v, happly, hv⟩ := mineAt_spec run
    cases v with
    | error e => cases hv
    | ok u =>
      cases hv
      exact ih.appendAndApply hbuilt.root happly
  | accept _ run ih =>
    rcases accept_ok_cases run with ⟨hknown, rfl⟩ | ⟨hpass, _⟩
    · rw [noted, if_pos hknown]
      exact ih
    · rw [accept_of_passes hpass] at run
      exact ih.appendAndApply (validateBlockIntrinsic_root hpass.intrinsic) run
  | virtualState _ run ih =>
    obtain ⟨state, executed, checkpoint, rfl⟩ := virtualState_frame run
    exact ih.frame rfl rfl fun _ _ hid => hid
  | setFinalityDepth _ ih => exact ih.frame rfl rfl fun _ _ hid => hid
  | pruneFinalizedTransactions _ run ih =>
    obtain ⟨blockTxs, historyPruned, state, executed, rfl, hbodies⟩ :=
      pruneFinalizedTransactions_frame run
    exact ih.frame rfl rfl hbodies
  | prune _ run ih => exact ih.prune run

/-- The transactions of a block that decode are encoded to their bytes again, if they encode. -/
def Canonical (env : Env Tx) (block : DagBlock) : Prop :=
  ∀ txs encoded, decodeTxs env block.transactions = .ok txs → txs.mapM env.encodeTx = .ok encoded →
    encoded = block.transactions

/-- Every block that is served is the one that was accepted. -/
structure ServesAccepted (env : Env Tx) (acc : Accepted) (c : DagChain Tx) : Prop where
  id : ∀ {id b}, c.getBlock env id = some b → b.id env.blake3 = id
  root : ∀ {id b}, c.getBlock env id = some b →
    txMerkleRoot env.blake3 b.transactions = b.header.txMerkleRoot
  same : ∀ {id b block}, c.getBlock env id = some b → acc.lookup id = some block → b = block
  dropped : ∀ {id block}, acc.lookup id = some block → block.transactions ≠ [] →
    c.blockTxs.lookup id = none → c.getBlock env id = none

/-- What `get_block` makes of a known block. -/
theorem getBlock_known (h : Holds env acc c) {header : DagBlockHeader}
    (hheader : c.headers.lookup id = some header) :
    (c.blockTxs.lookup id = none ∧ c.getBlock env id = some ⟨header, []⟩) ∨
    ∃ txs block, c.blockTxs.lookup id = some txs ∧ acc.lookup id = some block ∧
      decodeTxs env block.transactions = .ok txs ∧
      ((∃ e, txs.mapM env.encodeTx = .error e ∧ c.getBlock env id = none) ∨
        ∃ encoded, txs.mapM env.encodeTx = .ok encoded ∧
          c.getBlock env id = some ⟨header, encoded⟩) := by
  rw [getBlock, hheader]
  cases hbody : c.blockTxs.lookup id with
  | none => exact Or.inl ⟨rfl, rfl⟩
  | some txs =>
    obtain ⟨hne, block, hacc, htxs⟩ := h.body hbody
    refine Or.inr ⟨txs, block, rfl, hacc, htxs, ?_⟩
    simp only
    cases hencode : txs.mapM env.encodeTx with
    | error e => exact Or.inl ⟨e, rfl, rfl⟩
    | ok encoded =>
      refine Or.inr ⟨encoded, rfl, ?_⟩
      cases encoded with
      | nil =>
        cases txs with
        | nil => exact absurd rfl hne
        | cons tx txs =>
          rw [List.mapM_cons] at hencode
          obtain ⟨_, _, hencode⟩ := bind_eq_ok.mp hencode
          obtain ⟨_, _, hencode⟩ := bind_eq_ok.mp hencode
          cases hencode
      | cons bytes rest => rfl

/-- A chain serves its blocks as it accepted them exactly when each block that it knows has no
transactions, or still has its body and an encoding that the decoder does not change. -/
theorem serves_accepted_iff (hrun : Serves env p acc c) :
    ServesAccepted env acc c ↔ ∀ id header, c.headers.lookup id = some header →
      match acc.lookup id with
      | some block => block.transactions = [] ∨ (c.blockTxs.lookup id ≠ none ∧ Canonical env block)
      | none => header.txMerkleRoot = 0 := by
  have h := hrun.holds
  constructor
  · intro hs id header hheader
    cases hacc : acc.lookup id with
    | none =>
      rcases getBlock_known h hheader with ⟨_, hget⟩ | ⟨_, block, _, hblock, _⟩
      · exact (hs.root hget).symm
      · rw [hacc] at hblock
        cases hblock
    | some block =>
      by_cases hempty : block.transactions = []
      · exact Or.inl hempty
      rcases getBlock_known h hheader with ⟨hnone, hget⟩ | ⟨txs, block', hbody, hblock, htxs, hget⟩
      · rw [hs.dropped hacc hempty hnone] at hget
        cases hget
      · cases hacc.symm.trans hblock
        refine Or.inr ⟨by simp [hbody], fun txs' encoded htxs' hencode => ?_⟩
        cases htxs.symm.trans htxs'
        rcases hget with ⟨e, herr, _⟩ | ⟨encoded', hencode', hget⟩
        · rw [herr] at hencode
          cases hencode
        · cases hencode.symm.trans hencode'
          exact congrArg (·.transactions) (hs.same hget hacc)
  · intro hcond
    have hserved : ∀ {id b}, c.getBlock env id = some b → ∃ header,
        c.headers.lookup id = some header ∧ b.header = header ∧
        (∀ block, acc.lookup id = some block → b = block) ∧
        (acc.lookup id = none → b.transactions = [] ∧ header.txMerkleRoot = 0) := by
      intro id b hget
      cases hheader : c.headers.lookup id with
      | none =>
        rw [getBlock, hheader] at hget
        cases hget
      | some header =>
        have hid := hcond id header hheader
        rcases getBlock_known h hheader with ⟨hnone, hget'⟩ | ⟨txs, block, _, hacc, htxs, hget'⟩
        · rw [hget] at hget'
          cases hget'
          refine ⟨header, rfl, rfl, fun block hacc => ?_, fun hacc => ⟨rfl, by simpa [hacc] using hid⟩⟩
          simp only [hacc] at hid
          rcases hid with hempty | ⟨hkept, _⟩
          · rw [← h.header hheader hacc, ← hempty]
          · exact absurd hnone hkept
        · rcases hget' with ⟨e, _, hget'⟩ | ⟨encoded, hencode, hget'⟩
          · rw [hget] at hget'
            cases hget'
          · rw [hget] at hget'
            cases hget'
            simp only [hacc] at hid
            refine ⟨header, rfl, rfl, fun block' hacc' => ?_, fun hnone => ?_⟩
            · cases hacc.symm.trans hacc'
              have hsame : encoded = block.transactions := by
                rcases hid with hempty | ⟨_, hcanonical⟩
                · rw [hempty] at htxs
                  cases htxs
                  cases hencode
                  exact hempty.symm
                · exact hcanonical txs encoded htxs hencode
              rw [← h.header hheader hacc, hsame]
            · rw [hacc] at hnone
              cases hnone
    refine ⟨fun {id b} hget => ?_, fun {id b} hget => ?_, fun {id b block} hget hacc => ?_,
      fun {id block} hacc hne hnone => ?_⟩
    · obtain ⟨header, hheader, hb, _⟩ := hserved hget
      rw [DagBlock.id, hb]
      exact h.id hheader
    · obtain ⟨header, hheader, hb, hsome, hnone⟩ := hserved hget
      cases hacc : acc.lookup id with
      | none =>
        obtain ⟨hempty, hzero⟩ := hnone hacc
        rw [hempty, hb, hzero]
        rfl
      | some block =>
        rw [hsome block hacc]
        exact h.root hacc
    · obtain ⟨_, _, _, hsome, _⟩ := hserved hget
      exact hsome block hacc
    · cases hheader : c.headers.lookup id with
      | none => rw [getBlock, hheader]
      | some header =>
        have hid := hcond id header hheader
        simp only [hacc] at hid
        rcases hid with hempty | ⟨hkept, _⟩
        · exact absurd hempty hne
        · exact absurd hnone hkept

/-- A record in the current format, whose block has the transactions that its header commits to. -/
def Current (env : Env Tx) (bytes : Bytes) : Prop :=
  ∃ record, LogRecord.codec.deserialize bytes = .ok record ∧ ∀ block, record = .block block →
    txMerkleRoot env.blake3 block.transactions = block.header.txMerkleRoot

theorem Serves.replayRecords (h : Serves env p acc c) {records : List Bytes}
    (hlog : ∀ bytes ∈ records, Current env bytes)
    (hrun : DagChain.replayRecords env c records = .ok (.ok c')) : ∃ acc', Serves env p acc' c' := by
  induction records generalizing acc c with
  | nil =>
    cases hrun
    exact ⟨acc, h⟩
  | cons bytes rest ih =>
    rw [DagChain.replayRecords] at hrun
    obtain ⟨⟨v, d⟩, hrecord, hrun⟩ := bind_eq_ok.mp hrun
    cases v with
    | error e => cases hrun
    | ok u =>
      obtain ⟨record, hdecoded, hroot⟩ := hlog bytes (by simp)
      have hrest : ∀ bytes ∈ rest, Current env bytes := fun bytes hb => hlog bytes (by simp [hb])
      rw [DagChain.replayRecord, hdecoded] at hrecord
      cases record with
      | snapshot header accounts proof =>
        obtain ⟨d', hload, hrecord⟩ := bind_eq_ok.mp hrecord
        cases hrecord
        exact ih (.snapshot h hload) hrest hrun
      | block block => exact ih (.block h (hroot block rfl) hrecord) hrest hrun

/-- A chain that opens over such a log is one of those. -/
theorem Serves.of_open {file : Bytes} (hopen : openWithGenesis env p file = .ok (.ok c))
    (hlog : ∀ records, (BlockLog.openAt file).readAll = .ok records →
      ∀ bytes ∈ records, Current env bytes) : ∃ acc, Serves env p acc c := by
  obtain ⟨g, hg, hopen⟩ := bind_eq_ok.mp hopen
  cases hread : (BlockLog.openAt file).readAll with
  | error e =>
    rw [hread] at hopen
    cases hopen
  | ok records =>
    rw [hread] at hopen
    exact (Serves.genesis hg).replayRecords (hlog records hread) hopen

/-- After the first block is accepted, the headers are its own and that of genesis. -/
theorem header_of_first {log : BlockLog} {c₀ c : DagChain Tx} {fault : Option AppendFault}
    {now : Nat} {block : DagBlock} {r : Unit} {id : Hash} {header : DagBlockHeader}
    (hgenesis : DagChain.genesis env p log = .ok c₀)
    (haccept : c₀.accept env fault now block = .ok (.ok r, c))
    (hnew : block.id env.blake3 ∉ c₀.blocks) (hheader : c.headers.lookup id = some header) :
    (id = block.id env.blake3 ∧ (c₀.noted env ∅ block).lookup id = some block) ∨
    ((c₀.noted env ∅ block).lookup id = none ∧ header.txMerkleRoot = 0) := by
  rw [noted, if_neg hnew]
  by_cases hid : id = block.id env.blake3
  · subst hid
    exact Or.inl ⟨rfl, AList.lookup_insert _⟩
  · rw [AList.lookup_insert_ne hid]
    refine Or.inr ⟨rfl, ?_⟩
    rcases accept_ok_cases haccept with ⟨hknown, _⟩ | ⟨_, log, engine, txs, _, rfl⟩
    · exact absurd hknown hnew
    change (c₀.headers.insert _ _).lookup id = some header at hheader
    rw [AList.lookup_insert_ne hid] at hheader
    obtain ⟨engine', _, hgenesis⟩ := bind_eq_ok.mp hgenesis
    cases hgenesis
    obtain ⟨rfl, rfl⟩ := lookup_singleton.mp hheader
    rfl

end DagChain

section Example

open DagChain

/-- A chain with one block, which is served as it was accepted. -/
theorem serves_accepted_transfer : ∃ (acc : Accepted) (c : DagChain Transaction),
    Serves transferEnv fundedParams acc c ∧ ServesAccepted transferEnv acc c ∧
    c.getBlock transferEnv c.engine.tip = some (transferBlock 1) := by
  have hrun : returnsWith (DagChain.genesis transferEnv fundedParams (BlockLog.openAt []))
      (fun c₀ => returnsWith (c₀.accept transferEnv none 1750000000 (transferBlock 1)) fun r =>
        returnsWith r.1 fun _ =>
          let id := (transferBlock 1).id transferEnv.blake3
          returnsWith (decodeTxs transferEnv (transferBlock 1).transactions) (fun txs =>
            returnsWith (txs.mapM transferEnv.encodeTx) fun encoded =>
              decide (encoded = (transferBlock 1).transactions)) &&
          decide (id ∉ c₀.blocks ∧ r.2.blockTxs.lookup id ≠ none ∧
            r.2.getBlock transferEnv r.2.engine.tip = some (transferBlock 1))) = true := by
    decide +kernel
  simp only [returnsWith_iff, Bool.and_eq_true, decide_eq_true_eq] at hrun
  obtain ⟨c₀, hgenesis, ⟨_, c⟩, haccept, _, rfl, ⟨txs, htxs, encoded, hencoded, hsame⟩, hnew, hbody,
    hget⟩ := hrun
  have hserves : Serves transferEnv fundedParams (c₀.noted transferEnv ∅ (transferBlock 1)) c :=
    .accept (.genesis hgenesis) haccept
  refine ⟨_, c, hserves, (serves_accepted_iff hserves).mpr fun id header hheader => ?_, hget⟩
  rcases header_of_first hgenesis haccept hnew hheader with ⟨rfl, hacc⟩ | ⟨hacc, hzero⟩
  · rw [hacc]
    refine Or.inr ⟨hbody, fun txs' encoded' htxs' hencoded' => ?_⟩
    cases htxs.symm.trans htxs'
    cases hencoded.symm.trans hencoded'
    exact hsame
  · rw [hacc]
    exact hzero

/-- The transfer with one byte after it. -/
def trailingBlock : DagBlock := easyChild [Transaction.codec.encode signedTransfer ++ [0]]

/-- A block whose body was dropped is served without transactions, and a byte that the decoder
ignores is lost: neither is the block that was accepted, nor what its header commits to. -/
theorem served_differs : ∃ (acc acc' : Accepted) (c c' : DagChain Transaction)
    (b b' : DagBlock) (id id' : Hash),
    (Serves transferEnv fundedParams acc c ∧ acc.lookup id = some (transferBlock 1) ∧
      c.blockTxs.lookup id = none ∧ c.getBlock transferEnv id = some b ∧
      b.transactions = [] ∧
      txMerkleRoot transferEnv.blake3 b.transactions ≠ b.header.txMerkleRoot) ∧
    (Serves transferEnv fundedParams acc' c' ∧ acc'.lookup id' = some trailingBlock ∧
      c'.getBlock transferEnv id' = some b' ∧ b'.transactions ≠ trailingBlock.transactions ∧
      txMerkleRoot transferEnv.blake3 b'.transactions ≠ b'.header.txMerkleRoot) := by
  have hrun : returnsWith (DagChain.genesis transferEnv fundedParams (BlockLog.openAt []))
      (fun c₀ =>
        (returnsWith ((c₀.setFinalityDepth 1).accept transferEnv none 1750000000 (transferBlock 1))
          fun r₁ => returnsWith r₁.1 fun _ =>
            returnsWith (r₁.2.mineAt transferEnv none [] 1750000020) fun r₂ =>
              returnsWith r₂.1 fun b₂ => returnsWith (r₂.2.virtualState transferEnv) fun r₃ =>
                returnsWith r₃.1 fun _ => returnsWith r₃.2.pruneFinalizedTransactions fun r₄ =>
                  let id := (transferBlock 1).id transferEnv.blake3
                  (r₄.2.getBlock transferEnv id).any fun b =>
                    decide ((r₁.2.noted transferEnv
                        ((c₀.setFinalityDepth 1).noted transferEnv ∅ (transferBlock 1)) b₂).lookup
                          id = some (transferBlock 1) ∧
                      r₄.2.blockTxs.lookup id = none ∧ b.transactions = [] ∧
                      txMerkleRoot transferEnv.blake3 b.transactions ≠ b.header.txMerkleRoot)) &&
        returnsWith (c₀.accept transferEnv none 1750000000 trailingBlock) fun r =>
          returnsWith r.1 fun _ =>
            let id := trailingBlock.id transferEnv.blake3
            (r.2.getBlock transferEnv id).any fun b =>
              decide ((c₀.noted transferEnv ∅ trailingBlock).lookup id = some trailingBlock ∧
                b.transactions ≠ trailingBlock.transactions ∧
                txMerkleRoot transferEnv.blake3 b.transactions ≠ b.header.txMerkleRoot)) =
      true := by
    decide +kernel
  simp only [returnsWith_iff, Option.any_eq_true, Bool.and_eq_true, decide_eq_true_eq] at hrun
  obtain ⟨c₀, hgenesis, ⟨⟨_, c₁⟩, haccept, _, rfl, ⟨_, c₂⟩, hmine, b₂, rfl, ⟨_, c₃⟩, hstate, _, rfl,
    ⟨n, c⟩, hprune, b, hget, hacc, hdropped, hempty, hroot⟩, ⟨_, c'⟩, haccept', _, rfl, b', hget',
    hacc', hne', hroot'⟩ := hrun
  have hserves := Serves.pruneFinalizedTransactions
    (.virtualState (.mine (.accept (.setFinalityDepth (.genesis hgenesis)) haccept) hmine) hstate)
    hprune
  exact ⟨_, _, c, c', b, b', _, _, ⟨hserves, hacc, hdropped, hget, hempty, hroot⟩,
    .accept (.genesis hgenesis) haccept', hacc', hget', hne', hroot'⟩

end Example

end TaoDag.Dagvm
