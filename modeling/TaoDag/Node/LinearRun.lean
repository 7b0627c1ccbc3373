import TaoDag.Node.Steps
import TaoDag.Runtime.Transfer

namespace TaoDag.Node

open Consensus (Pubkey Block BlockHeader BlockStatus ChainError ChainState DifficultyParams)
open Database (AppendFault BlockLog)
open TaoDag.Runtime (Env Bank BlockExecution)

variable {Tx : Type} {env : Env Tx} {g : GenesisConfig} {pow : BlockHeader → Bool}

/-- The execution of blocks, one after the other, on the genesis state. -/
inductive Executes (env : Env Tx) (g : GenesisConfig) : List Block → Bank → Prop
  | genesis : Executes env g [] (genesisBank env g)
  | step {blocks : List Block} {block : Block} {txs : List Tx} {exec : BlockExecution}
      {bank bank' : Bank} (before : Executes env g blocks bank)
      (transactions : decodeTxs env block.transactions = .ok txs)
      (run : executeOn env g bank block.header txs = .ok (exec, bank')) :
      Executes env g (blocks ++ [block]) bank'

theorem replayRecord_ok {chain chain' : ChainState} {bank bank' : Bank} {bytes : Bytes}
    {block : Block} {txs : List Tx} {verdict : Except ChainError BlockStatus}
    {exec : BlockExecution} (hdec : Block.codec.deserialize bytes = .ok block)
    (htxs : decodeTxs env block.transactions = .ok txs)
    (hadd : chain.addHeader env.blake3 block.header = .ok (verdict, chain'))
    (hexec : executeOn env g bank block.header txs = .ok (exec, bank'))
    (hroot : exec.stateRoot = block.header.stateRoot) :
    replayRecord env g chain bank bytes = .ok (.ok (chain', bank')) := by
  simp only [replayRecord, hdec, htxs, hadd, hexec, bind, Except.bind]
  rw [if_neg (not_not.mpr hroot)]
  rfl

/-- The replay of a longer log goes on where that of the shorter one ended. -/
theorem replayRecords_append {records rest : List Bytes} {chain chain' : ChainState}
    {bank bank' : Bank}
    (run : replayRecords env g chain bank records = .ok (.ok (chain', bank'))) :
    replayRecords env g chain bank (records ++ rest) = replayRecords env g chain' bank' rest := by
  induction records generalizing chain bank with
  | nil =>
    cases run
    rfl
  | cons bytes records ih =>
    obtain ⟨verdict, hrecord, run⟩ := bind_eq_ok.mp run
    cases verdict with
    | error e => cases run
    | ok p =>
      rw [List.cons_append, replayRecords, hrecord]
      exact ih run

/-- A node whose log holds the blocks from the genesis to the tip, and whose chain and bank are
what the log replays to. -/
structure Synced (env : Env Tx) (g : GenesisConfig) (pow : BlockHeader → Bool) (m : Miner)
    (blocks : List Block) (records : List Bytes) : Prop where
  config : m.genesis = g
  attached : m.log.attached = true
  holds : m.log.Holds records
  decoded : records.map Block.codec.deserialize = blocks.map Except.ok
  replay : ∃ params chain, DifficultyParams.new g.targetBlockTimeSecs g.lwmaWindow = .ok params ∧
    ChainState.new env.blake3 (genesisHeader g) params pow = .ok chain ∧
    replayRecords env g chain (genesisBank env g) records = .ok (.ok (m.chain, m.bank))
  reached : ∃ params, ChainState.Reached env.blake3 (genesisHeader g) params pow
    (genesisHeader g :: blocks.map (·.header)) m.chain
  path : m.chain.Path m.chain.tip (genesisHeader g :: blocks.map (·.header))
  executes : Executes env g blocks m.bank
  root : blocks ≠ [] → ∃ e, m.chain.blocks.lookup m.chain.tip = some e ∧
    e.header.stateRoot = m.bank.stateRoot env

namespace Synced

variable {m m' : Miner} {blocks : List Block} {records : List Bytes} {file : Bytes} {miner : Pubkey}

/-- A block on the tip, added, executed and logged, when its root is that of its execution. -/
theorem extend (hs : Synced env g pow m blocks records) {payload : Bytes} {block : Block}
    {txs : List Tx} {status : BlockStatus} {chain : ChainState} {exec : BlockExecution}
    {bank : Bank} (hlen : payload.length < 2^32)
    (hdec : Block.codec.deserialize payload = .ok block)
    (htxs : decodeTxs env block.transactions = .ok txs)
    (hadd : m.chain.addHeader env.blake3 block.header = .ok (.ok status, chain))
    (hexec : executeOn env m.genesis m.bank block.header txs = .ok (exec, bank))
    (hroot : exec.stateRoot = block.header.stateRoot)
    (hprev : block.header.prevHash = m.chain.tip) :
    Synced env g pow { m with chain, bank, log := m.log.write (BlockLog.frame payload) }
      (blocks ++ [block]) (records ++ [payload]) := by
  obtain ⟨params, start, hparams, hstart, hreplay⟩ := hs.replay
  obtain ⟨powParams, hreached⟩ := hs.reached
  obtain ⟨parent, ha⟩ := ChainState.added_of_ok hadd
  have htip := ha.tip_of_child hprev
  have hexec' : executeOn env g m.bank block.header txs = .ok (exec, bank) := hs.config ▸ hexec
  have hgenesis : block.header.id env.blake3 ≠ chain.genesis := by
    intro heq
    have hnew := ha.new
    rw [heq, ha.genesis, hreached.root] at hnew
    cases hnew
  have hself := ha.lookup_self
  constructor
  · exact hs.config
  · rw [BlockLog.write_attached]
    exact hs.attached
  · exact BlockLog.holds_write hs.attached hs.holds hlen
  · rw [List.map_append, List.map_append, hs.decoded, List.map_singleton, List.map_singleton, hdec]
  · refine ⟨params, start, hparams, hstart, ?_⟩
    rw [replayRecords_append hreplay, replayRecords,
      replayRecord_ok hdec htxs hadd hexec' hroot]
    rfl
  · refine ⟨powParams, ?_⟩
    rw [List.map_append, ← List.cons_append]
    exact hreached.add ha
  · rw [List.map_append, ← List.cons_append]
    have hparent := ha.path hs.path
    rw [← hprev] at hparent
    simp only [htip]
    exact .step hself hgenesis hparent
  · exact .step hs.executes htxs hexec'
  · intro _
    refine ⟨_, htip ▸ hself, ?_⟩
    rw [← hroot, executeBlock_root hexec']

/-- The node at its first start. -/
theorem of_prepare (run : prepare env g miner pow [] = .ok (.ok m)) :
    Synced env g pow m [] [] := by
  obtain ⟨params, hparams, run⟩ := bind_eq_ok.mp run
  obtain ⟨chain, hchain, run⟩ := bind_eq_ok.mp run
  have hempty := BlockLog.holds_openAt_nil
  simp only [BlockLog.readAll_of_holds hempty] at run
  cases run
  have hreached := ChainState.new_reached hchain
  obtain ⟨_, htip, _⟩ := ChainState.new_inv hchain
  refine ⟨rfl, rfl, hempty, rfl, ⟨params, chain, hparams, hchain, rfl⟩, ⟨params, hreached⟩, ?_,
    .genesis, fun h => absurd rfl h⟩
  simp only [htip]
  exact .genesis hreached.root

/-- The replay of the log gives the node back. -/
theorem prepare_eq (hs : Synced env g pow m blocks records)
    (hfile : (BlockLog.openAt file).Holds records) :
    prepare env g miner pow file = .ok (.ok { m with log := BlockLog.openAt file, miner }) := by
  obtain ⟨params, start, hparams, hstart, hreplay⟩ := hs.replay
  simp only [prepare, hparams, hstart, bind, Except.bind, BlockLog.readAll_of_holds hfile, hreplay]
  rw [← hs.config]
  rfl

theorem reopen (hs : Synced env g pow m blocks records)
    (hfile : (BlockLog.openAt file).Holds records) :
    Synced env g pow { m with log := BlockLog.openAt file, miner } blocks records :=
  ⟨hs.config, rfl, hfile, hs.decoded, hs.replay, hs.reached, hs.path, hs.executes, hs.root⟩

theorem holds_file (hs : Synced env g pow m blocks records) :
    (BlockLog.openAt m.log.file).Holds records := hs.holds

end Synced

/-- A transaction that is read back as it was written. -/
def RoundTrips (env : Env Tx) (tx : Tx) : Prop :=
  ∀ bytes, env.encodeTx tx = .ok bytes → env.decodeTx bytes = .ok tx

namespace Miner

/-- A peer message that does not bring a block beside the tip, or one whose state root is not
that of its execution: where `apply_peer_block` would add and execute the block, its parent is
the tip and its root is right. -/
def Straight (env : Env Tx) (m : Miner) (bytes : Bytes) : Prop :=
  ∀ block txs chain exec bank, Taken env m bytes block txs chain exec bank →
    block.header.prevHash = m.chain.tip ∧ exec.stateRoot = block.header.stateRoot

end Miner

/-- An append that fails writes nothing of its record or all of it. -/
def Whole (io : Option AppendFault) (payload : Bytes) : Prop :=
  ∀ fault, io = some fault →
    fault.written = 0 ∨ (BlockLog.frame payload).length ≤ fault.written

theorem append_whole {log log' : BlockLog} {io : Option AppendFault} {payload : Bytes}
    {written : Except String Unit} (hio : Whole io payload)
    (happ : log.append io payload = (written, log')) :
    log' = log ∨ payload.length < 2^32 ∧ log' = log.write (BlockLog.frame payload) := by
  unfold BlockLog.append at happ
  by_cases hlen : payload.length < 2^32
  · rw [if_pos hlen] at happ
    cases io with
    | none =>
      cases happ
      exact Or.inr ⟨hlen, rfl⟩
    | some fault =>
      cases happ
      rcases hio fault rfl with hzero | hall
      · refine Or.inl ?_
        rw [hzero, List.take_zero, BlockLog.write]
        split
        · rw [List.append_nil]
        · rfl
      · refine Or.inr ⟨hlen, ?_⟩
        rw [List.take_of_length_le hall]
  · rw [if_neg hlen] at happ
    cases happ
    exact Or.inl rfl

namespace Miner

/-- What a call of `mine_one` needs to leave a log that replays: a clock that is not behind the
tip, transactions that are read back, an append that is whole or does not happen, a block id of
its own, and room for its work in 256 bits. -/
structure Orderly (env : Env Tx) (m : Miner) (txs : List Tx) (input : MineInput) : Prop where
  clock : ∀ e, m.chain.blocks.lookup m.chain.tip = some e →
    ∀ t ∈ input.now :: input.readings, e.header.timestamp.toInt ≤ t.toInt
  decodes : ∀ tx ∈ txs, RoundTrips env tx
  append : ∀ block bank, Mined env m txs input block bank →
    Whole input.io (Block.codec.encode block)
  id : ∀ block bank, Mined env m txs input block bank →
    ∀ e, m.chain.blocks.lookup (block.id env.blake3) = some e → e.header = block.header
  room : ∀ block bank, Mined env m txs input block bank →
    m.chain.workAt m.chain.tip + Consensus.workForTarget block.header.target ≤ Consensus.u256Max

end Miner

/-- How the process can stop, with the log file it leaves: between two calls, or after a call
that may have returned an error. -/
inductive Stops (env : Env Tx) (m : Miner) : Bytes → Prop
  | idle : Stops env m m.log.file
  | mine {txs : List Tx} {input : Miner.MineInput} {r : Except String Unit} {m' : Miner}
      (orderly : m.Orderly env txs input) (run : m.mineOne env txs input = .ok (r, m')) :
      Stops env m m'.log.file
  | peer {bytes : Bytes} {io : Option AppendFault} {r : Except String Unit} {m' : Miner}
      (straight : m.Straight env bytes) (append : Whole io bytes)
      (run : m.applyPeerBlock env bytes io = .ok (r, m')) : Stops env m m'.log.file

/-- The linear node from its first start: calls of `mine_one` and `apply_peer_block` that return
`Ok`, in any order, and restarts from the log. -/
inductive LinearRun (env : Env Tx) (g : GenesisConfig) (pow : BlockHeader → Bool) : Miner → Prop
  | start {miner : Pubkey} {m : Miner} (run : prepare env g miner pow [] = .ok (.ok m)) :
      LinearRun env g pow m
  | mine {m m' : Miner} {txs : List Tx} {input : Miner.MineInput} (before : LinearRun env g pow m)
      (decodes : ∀ tx ∈ txs, RoundTrips env tx)
      (run : m.mineOne env txs input = .ok (.ok (), m')) : LinearRun env g pow m'
  | peer {m m' : Miner} {bytes : Bytes} {io : Option AppendFault}
      (before : LinearRun env g pow m) (straight : m.Straight env bytes)
      (run : m.applyPeerBlock env bytes io = .ok (.ok (), m')) : LinearRun env g pow m'
  | restart {m m' : Miner} {file : Bytes} {miner : Pubkey} (before : LinearRun env g pow m)
      (stops : Stops env m file) (run : prepare env g miner pow file = .ok (.ok m')) :
      LinearRun env g pow m'

theorem decodeTxs_serializeTxs {txs : List Tx} {serialized : List Bytes}
    (htxs : ∀ tx ∈ txs, RoundTrips env tx) (run : serializeTxs env txs = .ok serialized) :
    decodeTxs env serialized = .ok txs := by
  induction txs generalizing serialized with
  | nil =>
    cases run
    rfl
  | cons tx txs ih =>
    rw [serializeTxs, List.mapM_cons] at run
    obtain ⟨bytes, hencode, run⟩ := bind_eq_ok.mp run
    obtain ⟨rest, hrest, run⟩ := bind_eq_ok.mp run
    cases run
    have htail := ih (fun t ht => htxs t (List.mem_cons_of_mem _ ht)) hrest
    have hdecode : env.decodeTx bytes = .ok tx := by
      apply htxs tx List.mem_cons_self
      cases he : env.encodeTx tx with
      | ok b =>
        rw [he] at hencode
        cases hencode
        rfl
      | error e =>
        rw [he] at hencode
        cases hencode
    rw [decodeTxs] at htail
    rw [decodeTxs, List.mapM_cons, hdecode, htail]
    rfl

namespace Synced

variable {m m' : Miner} {blocks : List Block} {records : List Bytes}

/-- The mined block is one that the tip admits, under a new id. -/
theorem mined_extends (hs : Synced env g pow m blocks records) {txs : List Tx}
    {input : Miner.MineInput} {block : Block} {bank : Bank}
    (horderly : m.Orderly env txs input) (hm : Miner.Mined env m txs input block bank) :
    ∃ status chain, m.chain.addHeader env.blake3 block.header = .ok (.ok status, chain) := by
  obtain ⟨params, hreached⟩ := hs.reached
  obtain ⟨parent, hparent, hheight⟩ := hm.height
  have hfollows : ChainState.Extends m.chain parent block.header := by
    refine ⟨hheight, horderly.clock parent hparent _ hm.timestamp, ?_, hm.pow⟩
    rw [hm.prevHash]
    exact hm.target
  have hnew : m.chain.blocks.lookup (block.header.id env.blake3) = none := by
    cases he : m.chain.blocks.lookup (block.header.id env.blake3) with
    | none => rfl
    | some e =>
      -- a stored child of the tip would be heavier than the tip
      exfalso
      have hheader := horderly.id block bank hm e he
      have hne : block.header.id env.blake3 ≠ m.chain.genesis := by
        intro heq
        rw [heq, hreached.root] at he
        cases he
        have hzero := hreached.isGenesis
        simp only at hheader
        rw [hheader] at hzero
        simp only [BlockHeader.isGenesis, Bool.and_eq_true, beq_iff_eq] at hzero
        rw [hzero.1] at hheight
        simp at hheight
      obtain ⟨p, hp, _, hw⟩ := hreached.child he hne
      rw [hheader, hm.prevHash, hparent] at hp
      cases hp
      have hle := hreached.work_le he
      rw [ChainState.workAt_of_lookup he, ChainState.workAt_of_lookup hparent, hw] at hle
      have hpos := Consensus.workForTarget_pos e.header.target
      omega
  refine ChainState.addHeader_of_extends hnew (hm.prevHash ▸ hparent) hfollows ?_
    ⟨parent, hparent⟩
  rw [← ChainState.workAt_of_lookup hparent]
  exact horderly.room block bank hm

theorem mined_synced (hs : Synced env g pow m blocks records) {txs : List Tx}
    {input : Miner.MineInput} {block : Block} {bank : Bank} {status : BlockStatus}
    {chain : ChainState} (htxs : ∀ tx ∈ txs, RoundTrips env tx)
    (hm : Miner.Mined env m txs input block bank)
    (hlen : (Block.codec.encode block).length < 2^32)
    (hadd : m.chain.addHeader env.blake3 block.header = .ok (.ok status, chain)) :
    Synced env g pow
      { m with chain, bank, log := m.log.write (BlockLog.frame (Block.codec.encode block)) }
      (blocks ++ [block]) (records ++ [Block.codec.encode block]) := by
  obtain ⟨exec, hexec, hroot⟩ := hm.run
  have hfits : block.Fits := Block.fits_of_length (by omega)
  have hdec := Block.codec.deserialize_encode (Block.codec_fits hfits)
  exact hs.extend hlen hdec (decodeTxs_serializeTxs htxs hm.transactions) hadd hexec hroot
    hm.prevHash

theorem mine (hs : Synced env g pow m blocks records) {txs : List Tx} {input : Miner.MineInput}
    (htxs : ∀ tx ∈ txs, RoundTrips env tx) (run : m.mineOne env txs input = .ok (.ok (), m')) :
    ∃ block payload, Synced env g pow m' (blocks ++ [block]) (records ++ [payload]) := by
  obtain ⟨block, bank, hm, written, log, happ, hend⟩ := Miner.mineOne_cases run
  rcases hend with ⟨_, ⟨msg, hbad⟩, _⟩ | ⟨hwritten, verdict, chain, hadd, hm', hok⟩
  · cases hbad
  · obtain ⟨status, hverdict⟩ := hok.mp rfl
    obtain ⟨_, hlen, hlog⟩ | ⟨e, hbad⟩ := BlockLog.append_cases happ
    · rw [hverdict] at hadd
      rw [hm', hlog]
      exact ⟨_, _, hs.mined_synced htxs hm hlen hadd⟩
    · rw [hwritten] at hbad
      cases hbad

/-- What a peer message makes of the node, when it is straight: the chain and the bank take the
block before the log does. -/
theorem peer (hs : Synced env g pow m blocks records) {bytes : Bytes} {io : Option AppendFault}
    {r : Except String Unit} (hstraight : m.Straight env bytes)
    (run : m.applyPeerBlock env bytes io = .ok (r, m')) :
    m' = m ∨ ∃ block chain bank written log, m.log.append io bytes = (written, log) ∧
      m' = { m with chain, bank, log } ∧ (r = .ok () ↔ written = .ok ()) ∧
      (bytes.length < 2^32 → Synced env g pow
        { m with chain, bank, log := m.log.write (BlockLog.frame bytes) }
        (blocks ++ [block]) (records ++ [bytes])) := by
  rcases Miner.applyPeerBlock_cases run with heq | ⟨block, txs, chain, exec, bank, htaken, hend⟩
  · exact Or.inl heq
  · obtain ⟨hprev, hroot⟩ := hstraight block txs chain exec bank htaken
    obtain ⟨hbad, _⟩ | ⟨_, written, log, happ, hm', hok⟩ := hend
    · exact absurd hroot hbad
    · obtain ⟨status, hadd⟩ := htaken.added
      refine Or.inr ⟨block, chain, bank, written, log, happ, hm', hok, fun hlen => ?_⟩
      exact hs.extend hlen htaken.decoded htaken.transactions hadd htaken.run hroot hprev

/-- Whatever call the process stops in, the log it leaves is that of a synced node. -/
theorem stops (hs : Synced env g pow m blocks records) {file : Bytes} (hstop : Stops env m file) :
    ∃ m' blocks' records', Synced env g pow m' blocks' records' ∧ m'.log.file = file := by
  cases hstop with
  | idle => exact ⟨m, blocks, records, hs, rfl⟩
  | @mine txs input r m' horderly run =>
    obtain ⟨block, bank, hm, written, log, happ, hend⟩ := Miner.mineOne_cases run
    have hfile : m'.log = log := by
      obtain ⟨_, _, hm'⟩ | ⟨_, _, _, _, hm', _⟩ := hend
      · rw [hm']
      · rw [hm']
    rw [hfile]
    rcases append_whole (horderly.append block bank hm) happ with hlog | ⟨hlen, hlog⟩
    · exact ⟨m, blocks, records, hs, by rw [hlog]⟩
    · obtain ⟨status, chain, hadd⟩ := hs.mined_extends horderly hm
      exact ⟨_, _, _, hs.mined_synced horderly.decodes hm hlen hadd, by rw [hlog]⟩
  | @peer bytes io r m' hstraight hio run =>
    rcases hs.peer hstraight run with heq | ⟨block, chain, bank, written, log, happ, hm', _, hnext⟩
    · exact ⟨m, blocks, records, hs, by rw [heq]⟩
    · rw [hm']
      rcases append_whole hio happ with hlog | ⟨hlen, hlog⟩
      · exact ⟨m, blocks, records, hs, by rw [hlog]⟩
      · exact ⟨_, _, _, hnext hlen, by rw [hlog]⟩

end Synced

theorem LinearRun.synced {m : Miner} (run : LinearRun env g pow m) :
    ∃ blocks records, Synced env g pow m blocks records := by
  induction run with
  | start hrun => exact ⟨[], [], Synced.of_prepare hrun⟩
  | mine _ htxs hrun ih =>
    obtain ⟨blocks, records, hs⟩ := ih
    obtain ⟨block, payload, hs'⟩ := hs.mine htxs hrun
    exact ⟨_, _, hs'⟩
  | peer _ hstraight hrun ih =>
    obtain ⟨blocks, records, hs⟩ := ih
    rcases hs.peer hstraight hrun with heq | ⟨block, chain, bank, written, log, happ, hm', hok, hnext⟩
    · exact ⟨blocks, records, heq ▸ hs⟩
    · obtain ⟨_, hlen, hlog⟩ | ⟨e, hbad⟩ := BlockLog.append_cases happ
      · rw [hm', hlog]
        exact ⟨_, _, hnext hlen⟩
      · rw [hok.mp rfl] at hbad
        cases hbad
  | restart _ hstop hrun ih =>
    obtain ⟨blocks, records, hs⟩ := ih
    obtain ⟨m', blocks', records', hs', hfile⟩ := hs.stops hstop
    have hholds := hs'.holds_file
    rw [hfile] at hholds
    rw [hs'.prepare_eq hholds] at hrun
    cases hrun
    exact ⟨blocks', records', hs'.reopen hholds⟩

/-- The last block of a synced node is the tip, and the bank has its root. -/
theorem Synced.tipHeader {m : Miner} {blocks : List Block} {records : List Bytes}
    (hs : Synced env g pow m blocks records) (hblocks : blocks ≠ []) :
    ∃ header, m.chain.tipHeader = .ok header ∧ m.bank.stateRoot env = header.stateRoot := by
  obtain ⟨e, he, hroot⟩ := hs.root hblocks
  refine ⟨e.header, ?_, hroot.symm⟩
  rw [ChainState.tipHeader, ChainState.tipEntry, he]
  rfl

/-- Without blocks, the tip is the genesis. -/
theorem Synced.blocks_ne_nil {m : Miner} {blocks : List Block} {records : List Bytes}
    (hs : Synced env g pow m blocks records) (hne : m.chain.tip ≠ m.chain.genesis) :
    blocks ≠ [] := by
  rintro rfl
  obtain ⟨params, hreached⟩ := hs.reached
  obtain ⟨e, he⟩ := hreached.tip_mem
  have hgen := List.mem_singleton.mp (hreached.all he)
  apply hne
  rw [hreached.genesisId, ← hreached.id he, hgen]

section Example

open Consensus.ChainState (easyGenesis easyChild)
open TaoDag.Runtime (transferEnv)

/-- A genesis at the easiest target, without allocations and rewards. -/
def easyConfig : GenesisConfig where
  creationTime := 1000000
  targetBlockTimeSecs := 10
  lwmaWindow := 16
  initialTarget := BitVec.allOnes 256
  initialLamports := 0
  halvingInterval := 0
  allocations := []
  commitment := 0

abbrev easyPow : BlockHeader → Bool := Consensus.blake3Pow Blake3.hash

/-- The node of the easy genesis after its first start, on `chain`. -/
def easyMiner (chain : ChainState) : Miner :=
  ⟨chain, BlockLog.openAt [], genesisBank transferEnv easyConfig, easyConfig, 0⟩

/-- A start on a log that replays from the easy genesis. -/
theorem prepare_replayed {start chain : ChainState} {bank : Bank} {file : Bytes}
    {records : List Bytes}
    (hstart : ChainState.new Blake3.hash easyGenesis ⟨10, 16⟩ easyPow = .ok start)
    (hfile : (BlockLog.openAt file).Holds records)
    (hreplay : replayRecords transferEnv easyConfig start (genesisBank transferEnv easyConfig)
      records = .ok (.ok (chain, bank))) :
    prepare transferEnv easyConfig 0 easyPow file =
      .ok (.ok ⟨chain, BlockLog.openAt file, bank, easyConfig, 0⟩) := by
  have hparams : DifficultyParams.new easyConfig.targetBlockTimeSecs easyConfig.lwmaWindow =
      .ok ⟨10, 16⟩ := rfl
  have hchain : ChainState.new transferEnv.blake3 (genesisHeader easyConfig) ⟨10, 16⟩ easyPow =
      .ok start := hstart
  simp only [prepare, hparams, hchain, bind, Except.bind, BlockLog.readAll_of_holds hfile, hreplay]
  rfl

theorem prepare_easy {chain : ChainState}
    (hchain : ChainState.new Blake3.hash easyGenesis ⟨10, 16⟩ easyPow = .ok chain) :
    prepare transferEnv easyConfig 0 easyPow [] = .ok (.ok (easyMiner chain)) :=
  prepare_replayed hchain BlockLog.holds_openAt_nil rfl

/-- A block whose parent no node knows. -/
def orphan : Block := ⟨{ easyChild 1000010 with prevHash := 1 }, []⟩

/-- The orphan is refused: it is straight, and leaves the node as it is. -/
private theorem peer_orphan : ∃ m, LinearRun transferEnv easyConfig easyPow m ∧
    m.Straight transferEnv (Block.codec.encode orphan) ∧
      m.applyPeerBlock transferEnv (Block.codec.encode orphan) none = .ok (.ok (), m) := by
  have hrun : returnsWith (ChainState.new Blake3.hash easyGenesis ⟨10, 16⟩ easyPow) (fun start =>
      !start.contains (orphan.id Blake3.hash) &&
      returnsWith (start.addHeader Blake3.hash orphan.header) fun r =>
        decide (r.1 = .error .unknownParent)) = true := by
    decide +kernel
  obtain ⟨start, hstart, h⟩ := returnsWith_iff.mp hrun
  obtain ⟨hnew, h⟩ := (Bool.and_eq_true _ _).mp h
  obtain ⟨⟨verdict, chain⟩, hadd, hverdict⟩ := returnsWith_iff.mp h
  have hverdict := of_decide_eq_true hverdict
  simp only at hverdict
  have hfits : orphan.Fits := ⟨by simp [orphan], by simp [orphan]⟩
  have hdec := Block.codec.deserialize_encode (Block.codec_fits hfits)
  have hadd' : (easyMiner start).chain.addHeader transferEnv.blake3 orphan.header =
      .ok (.error .unknownParent, chain) := hverdict ▸ hadd
  refine ⟨easyMiner start, .start (prepare_easy hstart), ?_, ?_⟩
  · intro block txs chain' exec bank htaken
    cases hdec.symm.trans htaken.decoded
    obtain ⟨status, hok⟩ := htaken.added
    cases hadd'.symm.trans hok
  · have hcontains : ¬(easyMiner start).chain.contains (orphan.id transferEnv.blake3) = true :=
      Bool.eq_false_iff.mp ((Bool.not_eq_true' _).mp hnew)
    have htxs : decodeTxs transferEnv orphan.transactions = .ok [] := rfl
    simp only [Miner.applyPeerBlock, hdec, if_neg hcontains, htxs, hadd', bind, Except.bind]
    rfl

/-- A block on the easy genesis without a body, whose header claims the state root `root`. -/
def claim (root : Bytes32) : Block := ⟨{ easyChild 1000010 with stateRoot := root }, []⟩

/-- The chain takes the header of a claim for its new tip, whatever it claims. -/
private theorem addHeader_claim : ∀ b ∈ [claim 0, claim 1], ∃ start chain status,
    ChainState.new Blake3.hash easyGenesis ⟨10, 16⟩ easyPow = .ok start ∧
      start.contains (b.id Blake3.hash) = false ∧
      start.addHeader Blake3.hash b.header = .ok (.ok status, chain) ∧
      chain.tip ≠ chain.genesis ∧ chain.tipHeader = .ok b.header := by
  have hrun : ∀ b ∈ [claim 0, claim 1],
      returnsWith (ChainState.new Blake3.hash easyGenesis ⟨10, 16⟩ easyPow) (fun start =>
        !start.contains (b.id Blake3.hash) &&
        returnsWith (start.addHeader Blake3.hash b.header) fun r =>
          returnsWith r.1 (fun _ => true) && decide (r.2.tip ≠ r.2.genesis) &&
          returnsWith r.2.tipHeader fun h => decide (h = b.header)) = true := by
    decide +kernel
  intro b hb
  obtain ⟨start, hstart, h⟩ := returnsWith_iff.mp (hrun b hb)
  obtain ⟨hnew, h⟩ := (Bool.and_eq_true _ _).mp h
  obtain ⟨⟨verdict, chain⟩, hadd, h⟩ := returnsWith_iff.mp h
  obtain ⟨h, htip⟩ := (Bool.and_eq_true _ _).mp h
  obtain ⟨hv, hne⟩ := (Bool.and_eq_true _ _).mp h
  obtain ⟨status, rfl, _⟩ := returnsWith_iff.mp hv
  obtain ⟨header, hheader, heq⟩ := returnsWith_iff.mp htip
  rw [of_decide_eq_true heq] at hheader
  exact ⟨start, chain, status, hstart, (Bool.not_eq_true' _).mp hnew, hadd,
    of_decide_eq_true hne, hheader⟩

/-- The block that the easy node mines on its genesis when the clock is behind it. -/
def late (root : Bytes32) : Block := ⟨{ easyChild 5 with stateRoot := root }, []⟩

/-- Its header is refused, whatever root it has. -/
private theorem addHeader_late {start : ChainState}
    (hstart : ChainState.new Blake3.hash easyGenesis ⟨10, 16⟩ easyPow = .ok start)
    (root : Bytes32) :
    ∃ err, start.addHeader Blake3.hash (late root).header = .ok (.error err, start) := by
  have hreached := ChainState.new_reached hstart
  have hroot : start.blocks.lookup (late root).header.prevHash =
      some ⟨easyGenesis, Consensus.workForTarget easyGenesis.target⟩ := by
    have hprev : (late root).header.prevHash = start.genesis := hreached.genesisId.symm
    rw [hprev, hreached.root]
  rw [ChainState.addHeader]
  by_cases hknown : start.contains ((late root).header.id Blake3.hash) = true
  · rw [if_pos hknown]
    exact ⟨_, rfl⟩
  · rw [if_neg hknown]
    have hadd : addU64 easyGenesis.height.toNat 1 = .ok 1 := by decide
    have hheight : ¬(late root).header.height.toNat ≠ 1 := not_not.mpr rfl
    have hearly : (late root).header.timestamp.toInt < easyGenesis.timestamp.toInt := by
      have hread : (5 : BitVec 64).toInt < (1000000 : BitVec 64).toInt := by decide
      exact hread
    simp only [hroot, ChainState.checkHeader, hadd, bind, Except.bind, if_neg hheight,
      if_pos hearly]
    exact ⟨.badTimestamp, rfl⟩

end Example

end TaoDag.Node
