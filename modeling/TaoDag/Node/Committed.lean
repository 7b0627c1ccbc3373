import TaoDag.Node.LinearRun

namespace TaoDag.Node

open Consensus (Pubkey Block BlockHeader ChainState DifficultyParams)
open Database (AppendFault BlockLog)
open TaoDag.Runtime (Env Bank BlockExecution)

variable {Tx : Type} {env : Env Tx} {g : GenesisConfig} {pow : BlockHeader → Bool}

/-- A block whose header commits to its body. -/
def Committed (env : Env Tx) (b : Block) : Prop :=
  Consensus.txMerkleRoot env.blake3 b.transactions = b.header.txMerkleRoot

/-- What a call leaves of a peer message: a logged body is committed, and a body that does not
match its header brings in no header and changes no account. -/
structure KeepsCommitted (env : Env Tx) (m : Miner) (bytes : Bytes) (m' : Miner) : Prop where
  logged : m'.log ≠ m.log → ∃ block, Block.codec.deserialize bytes = .ok block ∧
    Committed env block
  mismatched : ∀ block, Block.codec.deserialize bytes = .ok block → ¬Committed env block →
    (m'.chain.contains (block.id env.blake3) = true →
      m.chain.contains (block.id env.blake3) = true) ∧
    ∀ key, m'.bank.db.get key = m.bank.db.get key

/-- The condition that `apply_peer_block` does not check: a new block with readable transactions
and an acceptable header has a committed body. -/
def Guarded (env : Env Tx) (m : Miner) (bytes : Bytes) : Prop :=
  ∀ block txs status chain, Block.codec.deserialize bytes = .ok block →
    m.chain.contains (block.id env.blake3) = false →
    decodeTxs env block.transactions = .ok txs →
    m.chain.addHeader env.blake3 block.header = .ok (.ok status, chain) → Committed env block

namespace Miner

variable {m m' : Miner} {r : Except String Unit}

/-- A call on a mismatched body keeps the header and the accounts out exactly when it is stopped
by another check. -/
theorem applyPeerBlock_committed_iff {bytes : Bytes} {io : Option AppendFault}
    (run : m.applyPeerBlock env bytes io = .ok (r, m')) :
    KeepsCommitted env m bytes m' ↔ Guarded env m bytes := by
  constructor
  · intro hkeeps block txs status chain hdec hnew htxs hadd
    by_contra hbad
    have hchain := applyPeerBlock_chain hdec hnew htxs hadd run
    obtain ⟨parent, ha⟩ := ChainState.added_of_ok hadd
    have hin : m'.chain.contains (block.id env.blake3) = true := by
      rw [hchain, ChainState.contains, Block.id, ha.lookup_self]
      rfl
    have hold := (hkeeps.mismatched block hdec hbad).1 hin
    rw [hnew] at hold
    cases hold
  · intro hguard
    rcases applyPeerBlock_cases run with heq | ⟨block, txs, chain, exec, bank, ht, _⟩
    · rw [heq]
      exact ⟨fun hne => absurd rfl hne, fun _ _ _ => ⟨id, fun _ => rfl⟩⟩
    · obtain ⟨status, hadd⟩ := ht.added
      have hbody := hguard block txs status chain ht.decoded ht.new ht.transactions hadd
      refine ⟨fun _ => ⟨block, ht.decoded, hbody⟩, fun block' hdec hbad => ?_⟩
      cases ht.decoded.symm.trans hdec
      exact absurd hbody hbad

/-- `mine_one` writes nothing but the block it has built, which is committed. -/
theorem mineOne_committed {txs : List Tx} {input : MineInput}
    (run : m.mineOne env txs input = .ok (r, m')) :
    ∃ block, Committed env block ∧
      m'.log = (m.log.append input.io (Block.codec.encode block)).2 := by
  obtain ⟨block, bank, hm, written, log, happ, hend⟩ := mineOne_cases run
  refine ⟨block, hm.txMerkleRoot.symm, ?_⟩
  rw [happ]
  obtain ⟨_, _, hm'⟩ | ⟨_, _, _, _, hm', _⟩ := hend
  · rw [hm']
  · rw [hm']

end Miner

/-- The linear node from its first start, where every peer message is guarded: calls that return
`Ok`, in any order, and restarts from the log. -/
inductive GuardedRun (env : Env Tx) (g : GenesisConfig) (pow : BlockHeader → Bool) : Miner → Prop
  | start {miner : Pubkey} {m : Miner} (run : prepare env g miner pow [] = .ok (.ok m)) :
      GuardedRun env g pow m
  | mine {m m' : Miner} {txs : List Tx} {input : Miner.MineInput}
      (before : GuardedRun env g pow m) (run : m.mineOne env txs input = .ok (.ok (), m')) :
      GuardedRun env g pow m'
  | peer {m m' : Miner} {bytes : Bytes} {io : Option AppendFault}
      (before : GuardedRun env g pow m) (guarded : Guarded env m bytes)
      (run : m.applyPeerBlock env bytes io = .ok (.ok (), m')) : GuardedRun env g pow m'
  | restart {m m' : Miner} {miner : Pubkey} (before : GuardedRun env g pow m)
      (run : prepare env g miner pow m.log.file = .ok (.ok m')) : GuardedRun env g pow m'

/-- A log of committed blocks. -/
def LogsCommitted (env : Env Tx) (log : BlockLog) : Prop :=
  log.attached = true ∧ ∃ records, log.Holds records ∧
    ∀ bytes ∈ records, ∃ block, Block.codec.deserialize bytes = .ok block ∧ Committed env block

theorem LogsCommitted.write {log : BlockLog} {payload : Bytes} {block : Block}
    (hl : LogsCommitted env log) (hlen : payload.length < 2^32)
    (hdec : Block.codec.deserialize payload = .ok block) (hbody : Committed env block) :
    LogsCommitted env (log.write (BlockLog.frame payload)) := by
  obtain ⟨ha, records, hholds, hrecords⟩ := hl
  refine ⟨by rw [BlockLog.write_attached, ha], records ++ [payload],
    BlockLog.holds_write ha hholds hlen, fun bytes hbytes => ?_⟩
  rcases List.mem_append.mp hbytes with hbytes | hbytes
  · exact hrecords bytes hbytes
  · rw [List.mem_singleton.mp hbytes]
    exact ⟨block, hdec, hbody⟩

theorem GuardedRun.logsCommitted {m : Miner} (run : GuardedRun env g pow m) :
    LogsCommitted env m.log := by
  induction run with
  | start hrun =>
    rw [prepare_log hrun]
    exact ⟨rfl, [], BlockLog.holds_openAt_nil, fun _ h => (by cases h)⟩
  | @mine m m' txs input _ hrun ih =>
    obtain ⟨block, bank, hm, written, log, happ, hend⟩ := Miner.mineOne_cases hrun
    rcases hend with ⟨_, ⟨msg, hbad⟩, _⟩ | ⟨hwritten, _, _, _, hm', _⟩
    · cases hbad
    · obtain ⟨_, hlen, hlog⟩ | ⟨e, hbad⟩ := BlockLog.append_cases happ
      · rw [hm', hlog]
        have hfits : block.Fits := Block.fits_of_length (by omega)
        exact ih.write hlen (Block.codec.deserialize_encode (Block.codec_fits hfits))
          hm.txMerkleRoot.symm
      · rw [hwritten] at hbad
        cases hbad
  | @peer m m' bytes io _ hguarded hrun ih =>
    rcases Miner.applyPeerBlock_cases hrun with heq | ⟨block, txs, chain, exec, bank, ht, hend⟩
    · rw [heq]
      exact ih
    · obtain ⟨_, hm'⟩ | ⟨_, written, log, happ, hm', hok⟩ := hend
      · rw [hm']
        exact ih
      · obtain ⟨_, hlen, hlog⟩ | ⟨e, hbad⟩ := BlockLog.append_cases happ
        · obtain ⟨status, hadd⟩ := ht.added
          rw [hm', hlog]
          exact ih.write hlen ht.decoded
            (hguarded block txs status chain ht.decoded ht.new ht.transactions hadd)
        · rw [hok.mp rfl] at hbad
          cases hbad
  | restart _ hrun ih =>
    rw [prepare_log hrun]
    obtain ⟨_, records, hholds, hrecords⟩ := ih
    exact ⟨rfl, records, hholds, hrecords⟩

section Example

open Consensus.ChainState (easyGenesis easyChild)
open TaoDag.Runtime (transferEnv)

/-- A block on the easy genesis without a body, whose header commits to another one. -/
def bodiless : Block := ⟨{ easyChild 1000010 with txMerkleRoot := 1 }, []⟩

end Example

end TaoDag.Node
