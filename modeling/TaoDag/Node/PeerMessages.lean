import TaoDag.Node.LinearRun
import TaoDag.Node.Shared

namespace TaoDag.Node

open Consensus (Block BlockStatus ChainState)
open Consensus.ChainState (Checkable Extends)
open Database (AppendFault BlockLog)
open TaoDag.Runtime (Env Bank BlockExecution TxOutcome)

variable {Tx : Type} {env : Env Tx} {signature : Tx → Option Signature}

/-- Whether the execution of a transaction returns: one that verifies also sanitizes. -/
def Executable (env : Env Tx) (tx : Tx) : Prop := env.verify tx = .ok () → env.sanitizes tx = true

theorem executeOne_returns_iff {blockhash : Bytes32} {acc : BitVec 64 × List TxOutcome × Bank}
    {tx : Tx} : (∃ r, Bank.executeOne env blockhash acc tx = .ok r) ↔ Executable env tx := by
  obtain ⟨fees, outcomes, bank⟩ := acc
  rw [Executable, Bank.executeOne, Bank.executeTransaction]
  cases hv : env.verify tx with
  | error e => exact ⟨fun _ h => (by cases h), fun _ => ⟨_, rfl⟩⟩
  | ok u =>
    by_cases hs : env.sanitizes tx = true
    · exact ⟨fun _ _ => hs, fun _ => by rw [assert, if_pos hs]; exact ⟨_, rfl⟩⟩
    · constructor
      · rw [assert, if_neg hs]
        rintro ⟨r, hr⟩
        cases hr
      · intro h
        exact absurd (h rfl) hs

theorem executeBlock_returns_iff {bank : Bank} {txs : List Tx} {blockhash : Bytes32}
    {miner : Consensus.Pubkey} {reward : BitVec 64} :
    (∃ r, bank.executeBlock env txs blockhash miner reward = .ok r) ↔
      ∀ tx ∈ txs, Executable env tx := by
  have hfold (acc : BitVec 64 × List TxOutcome × Bank) :
      (∃ r, txs.foldlM (Bank.executeOne env blockhash) acc = .ok r) ↔
        ∀ tx ∈ txs, Executable env tx := by
    induction txs generalizing acc with
    | nil => exact ⟨fun _ tx htx => absurd htx List.not_mem_nil, fun _ => ⟨acc, rfl⟩⟩
    | cons tx txs ih =>
      rw [List.forall_mem_cons, List.foldlM_cons]
      constructor
      · intro ⟨r, hr⟩
        obtain ⟨acc', hstep, hr⟩ := bind_eq_ok.mp hr
        exact ⟨executeOne_returns_iff.mp ⟨acc', hstep⟩, (ih acc').mp ⟨r, hr⟩⟩
      · intro ⟨htx, hrest⟩
        obtain ⟨acc', hstep⟩ := executeOne_returns_iff.mpr htx
        obtain ⟨r, hr⟩ := (ih acc').mpr hrest
        exact ⟨r, bind_eq_ok.mpr ⟨acc', hstep, hr⟩⟩
  rw [← hfold (0, [], bank)]
  constructor
  · intro ⟨r, hr⟩
    obtain ⟨acc, hacc, _⟩ := bind_eq_ok.mp hr
    exact ⟨acc, hacc⟩
  · intro ⟨acc, hacc⟩
    exact ⟨_, bind_eq_ok.mpr ⟨acc, hacc, rfl⟩⟩

theorem append_returns_iff {log : BlockLog} {io : Option AppendFault} {payload : Bytes} :
    (∃ log', log.append io payload = (.ok (), log')) ↔ io = none ∧ payload.length < 2^32 := by
  unfold BlockLog.append
  by_cases hlen : payload.length < 2^32
  · rw [if_pos hlen]
    cases io with
    | none => exact ⟨fun _ => ⟨rfl, hlen⟩, fun _ => ⟨_, rfl⟩⟩
    | some fault =>
      constructor
      · intro ⟨_, h⟩
        cases h
      · intro ⟨h, _⟩
        cases h
  · rw [if_neg hlen]
    constructor
    · intro ⟨_, h⟩
      cases h
    · intro ⟨_, h⟩
      exact absurd h hlen

/-- A message that brings a new block which decodes, has an acceptable header, and executes to the
state root of that header. -/
def Valid (env : Env Tx) (m : Miner) (msg : P2p.NetMsg) : Prop :=
  ∃ bytes block txs chain exec bank, msg = .newBlock bytes ∧
    Miner.Taken env m bytes block txs chain exec bank ∧ exec.stateRoot = block.header.stateRoot

/-- What a step of the node makes of a message that it withstands: it returns `Ok`, and one that
brings no valid block leaves the chain, the log and the accounts. -/
structure Withstands (env : Env Tx) (signature : Tx → Option Signature) (n : LinearNode Tx)
    (msg : P2p.NetMsg) (io : Option AppendFault) (n' : LinearNode Tx) : Prop where
  step : n.gossip env signature msg io = .ok (.ok (), n')
  ignored : ¬Valid env n.miner msg → n'.miner.chain = n.miner.chain ∧
    n'.miner.log = n.miner.log ∧ n'.miner.bank.db = n.miner.bank.db

/-- A block message that the handler copes with. The block and, when it is new, its transactions
decode, and the arithmetic of its checks is in range. When its parent admits its header, its
transactions execute to its state root, and the write succeeds. -/
def Harmless (env : Env Tx) (m : Miner) (bytes : Bytes) (io : Option AppendFault) : Prop :=
  ∃ block, Block.codec.deserialize bytes = .ok block ∧
    (m.chain.contains (block.id env.blake3) = false →
      ∃ txs, decodeTxs env block.transactions = .ok txs ∧
        ∀ parent, m.chain.blocks.lookup block.header.prevHash = some parent →
          Checkable env.blake3 m.chain parent block.header ∧
            (Extends m.chain parent block.header → (∀ tx ∈ txs, Executable env tx) ∧
              (∀ exec bank, executeOn env m.genesis m.bank block.header txs = .ok (exec, bank) →
                exec.stateRoot = block.header.stateRoot) ∧
              io = none ∧ bytes.length < 2^32))

namespace LinearNode

variable {n n' : LinearNode Tx} {bytes : Bytes} {io : Option AppendFault}

theorem applyPeerBlock_of_harmless (h : Harmless env n.miner bytes io) :
    ∃ n', Withstands env signature n (.newBlock bytes) io n' := by
  obtain ⟨block, hdec, hnew⟩ := h
  by_cases hknown : n.miner.chain.contains (block.id env.blake3) = true
  · refine ⟨n, ?_, fun _ => ⟨rfl, rfl, rfl⟩⟩
    simp only [gossip, applyPeerBlock, hdec, if_pos hknown]
    rfl
  · have hfresh := Bool.eq_false_iff.mpr hknown
    obtain ⟨txs, htxs, hparent⟩ := hnew hfresh
    have hreturns := ChainState.addHeader_returns_iff.mpr fun _ parent hp => (hparent parent hp).1
    obtain ⟨⟨verdict, chain⟩, hadd⟩ := hreturns
    cases verdict with
    | error e =>
      refine ⟨n, ?_, fun _ => ⟨rfl, rfl, rfl⟩⟩
      simp only [gossip, applyPeerBlock, hdec, if_neg hknown, htxs, hadd]
      rfl
    | ok status =>
      obtain ⟨parent, hadded⟩ := ChainState.added_of_ok hadd
      obtain ⟨hexecutable, hroot, hio, hlen⟩ := (hparent parent hadded.known).2 hadded.follows
      obtain ⟨⟨exec, bank⟩, hexec⟩ := executeBlock_returns_iff.mpr hexecutable
      have hsame := hroot exec bank hexec
      have hvalid : Valid env n.miner (.newBlock bytes) :=
        ⟨bytes, block, txs, chain, exec, bank, rfl,
          ⟨hdec, hfresh, htxs, ⟨status, hadd⟩, hexec⟩, hsame⟩
      obtain ⟨log, happ⟩ : ∃ log, n.miner.log.append io bytes = (.ok (), log) :=
        append_returns_iff.mpr ⟨hio, hlen⟩
      refine ⟨⟨{ n.miner with chain, bank, log }, (n.shared.confirmAll signature
        (results txs exec.outcomes)).advance block.header.height chain.tip⟩, ?_,
        fun h => absurd hvalid h⟩
      simp only [gossip, applyPeerBlock, hdec, if_neg hknown, htxs, hadd, bind, Except.bind]
      simp only [executeOn, hexec, if_neg (not_not.mpr hsame), happ]
      rfl

/-- A block whose header is accepted and whose state root is wrong is not valid, and has entered
the chain. -/
theorem root_of_withstands {block : Block} {txs : List Tx} {chain : ChainState}
    {status : BlockStatus} {exec : BlockExecution} {bank : Bank}
    (h : Withstands env signature n (.newBlock bytes) io n')
    (hdec : Block.codec.deserialize bytes = .ok block)
    (htxs : decodeTxs env block.transactions = .ok txs)
    (hadd : n.miner.chain.addHeader env.blake3 block.header = .ok (.ok status, chain))
    (hexec : executeOn env n.miner.genesis n.miner.bank block.header txs = .ok (exec, bank)) :
    exec.stateRoot = block.header.stateRoot := by
  by_contra hroot
  obtain ⟨parent, hadded⟩ := ChainState.added_of_ok hadd
  have hknown : ¬n.miner.chain.contains (block.id env.blake3) = true := by
    rw [ChainState.contains, show block.id env.blake3 = block.header.id env.blake3 from rfl,
      hadded.new]
    exact Bool.false_ne_true
  have hinvalid : ¬Valid env n.miner (.newBlock bytes) := by
    rintro ⟨_, _, _, _, _, _, heq, htaken, hsame⟩
    cases heq
    cases hdec.symm.trans htaken.decoded
    cases htxs.symm.trans htaken.transactions
    cases hexec.symm.trans htaken.run
    exact hroot hsame
  have run := h.step
  simp only [gossip, applyPeerBlock, hdec, if_neg hknown, htxs, hadd, bind, Except.bind] at run
  simp only [hexec, if_pos hroot] at run
  have hchain : n'.miner.chain = chain := by
    cases run
    rfl
  have hself := hadded.lookup_self
  rw [← hchain, (h.ignored hinvalid).1, hadded.new] at hself
  cases hself

theorem harmless_of_applyPeerBlock (h : Withstands env signature n (.newBlock bytes) io n') :
    Harmless env n.miner bytes io := by
  have run := h.step
  simp only [gossip, applyPeerBlock] at run
  cases hdec : Block.codec.deserialize bytes with
  | error e =>
    rw [hdec] at run
    cases run
  | ok block =>
    refine ⟨block, hdec, fun hnew => ?_⟩
    simp only [hdec, if_neg (Bool.eq_false_iff.mp hnew)] at run
    cases htxs : decodeTxs env block.transactions with
    | error e =>
      rw [htxs] at run
      cases run
    | ok txs =>
      simp only [htxs] at run
      obtain ⟨⟨verdict, chain⟩, hadd, run⟩ := bind_eq_ok.mp run
      refine ⟨txs, rfl, fun parent hp => ⟨?_, fun hx => ?_⟩⟩
      · exact ChainState.addHeader_returns_iff.mp ⟨_, hadd⟩ hnew parent hp
      · obtain ⟨status, rfl⟩ := ChainState.verdict_of_extends hnew hp hx hadd
        obtain ⟨⟨exec, bank⟩, hexec, run⟩ := bind_eq_ok.mp run
        have hroot := root_of_withstands h hdec htxs hadd hexec
        simp only [if_neg (not_not.mpr hroot)] at run
        refine ⟨executeBlock_returns_iff.mp ⟨_, hexec⟩, fun exec' bank' hexec' => ?_, ?_⟩
        · cases hexec.symm.trans hexec'
          exact hroot
        · cases happ : n.miner.log.append io bytes with
          | mk written log =>
            rw [happ] at run
            cases written with
            | error e => cases run
            | ok u => exact append_returns_iff.mp ⟨log, happ⟩

/-- Whether the pool is the node's: sound, with its 4096 places. -/
structure Pooled (signature : Tx → Option Signature) (n : LinearNode Tx) : Prop where
  sound : Mempool.Sound signature n.shared.mempool
  size : n.shared.mempool.maxSize = 4096

theorem pooled_of_shared {m : Miner} {slot : BitVec 64} {blockhash : Hash} :
    Pooled signature (⟨m, Shared.new slot blockhash⟩ : LinearNode Tx) := by
  have hnew : Mempool.History.Fifo signature 4096 _ := Mempool.History.fifo_new 4096
  exact ⟨hnew.pool, hnew.size⟩

theorem Pooled.applyPeerBlock {r : Except String Unit} (hn : Pooled signature n)
    (run : n.applyPeerBlock env signature bytes io = .ok (r, n')) : Pooled signature n' := by
  obtain ⟨_, heq | ⟨_, _, exec, _, _, _, heq | ⟨_, heq⟩⟩⟩ := applyPeerBlock_cases run
  · exact heq ▸ hn
  · exact ⟨heq ▸ hn.sound, heq ▸ hn.size⟩
  · have hpool : n'.shared.mempool = n.shared.mempool := by
      rw [heq]
      exact Shared.confirmAll_mempool n.shared _
    exact ⟨hpool ▸ hn.sound, hpool ▸ hn.size⟩

/-- The pool takes any transaction. -/
theorem Pooled.submit (hn : Pooled signature n) (tx : Tx) :
    ∃ shared, n.shared.submit signature tx = .ok shared ∧
      Pooled signature { n with shared } := by
  have hplace : 0 < n.shared.mempool.maxSize := by
    rw [hn.size]
    decide
  obtain ⟨added, mempool, hrun, hsound, hsize⟩ := hn.sound.submit hplace tx
  refine ⟨{ n.shared with mempool }, ?_, hsound, hsize.trans hn.size⟩
  rw [Shared.submit, hrun]
  rfl

/-- The messages of which the node withstands each one, in the state that the ones before it
leave. -/
def Contained (env : Env Tx) (signature : Tx → Option Signature) :
    LinearNode Tx → List (P2p.NetMsg × Option AppendFault) → LinearNode Tx → Prop
  | n, [], n' => n' = n
  | n, (msg, io) :: rest, n' =>
      ∃ mid, Withstands env signature n msg io mid ∧ Contained env signature mid rest n'

/-- Each block among the messages is harmless in the state that the messages before it leave. -/
def AllHarmless (env : Env Tx) (signature : Tx → Option Signature) :
    LinearNode Tx → List (P2p.NetMsg × Option AppendFault) → Prop
  | _, [] => True
  | n, (msg, io) :: rest =>
      (∀ bytes, msg = .newBlock bytes → Harmless env n.miner bytes io) ∧
        ∀ n', n.gossip env signature msg io = .ok (.ok (), n') → AllHarmless env signature n' rest

/-- A message that is not a block is withstood. -/
theorem Pooled.other {msg : P2p.NetMsg} (hn : Pooled signature n)
    (hmsg : ∀ bytes, msg ≠ .newBlock bytes) : ∃ n', Withstands env signature n msg io n' := by
  cases msg with
  | newBlock bytes => exact absurd rfl (hmsg bytes)
  | newTx bytes =>
    cases hdec : env.decodeTx bytes with
    | error e =>
      refine ⟨n, ?_, fun _ => ⟨rfl, rfl, rfl⟩⟩
      simp only [gossip, hdec]
      rfl
    | ok tx =>
      obtain ⟨shared, hrun, _⟩ := hn.submit tx
      refine ⟨{ n with shared }, ?_, fun _ => ⟨rfl, rfl, rfl⟩⟩
      simp only [gossip, hdec, hrun]
      rfl
  | getBlock _ | getTips | tips _ | getSnapshot | snapshot _ =>
    exact ⟨n, rfl, fun _ => ⟨rfl, rfl, rfl⟩⟩

theorem Pooled.gossip {msg : P2p.NetMsg} {r : Except String Unit} (hn : Pooled signature n)
    (run : n.gossip env signature msg io = .ok (r, n')) : Pooled signature n' := by
  cases msg with
  | newBlock bytes => exact hn.applyPeerBlock run
  | newTx bytes =>
    simp only [LinearNode.gossip] at run
    cases hdec : env.decodeTx bytes with
    | error e =>
      simp only [hdec] at run
      cases run
      exact hn
    | ok tx =>
      obtain ⟨shared, hrun, hpool⟩ := hn.submit tx
      simp only [hdec, hrun] at run
      cases run
      exact hpool
  | getBlock _ | getTips | tips _ | getSnapshot | snapshot _ =>
    cases run
    exact hn

/-- One message is withstood exactly when it is no block or a harmless one. -/
theorem Pooled.withstands_iff {msg : P2p.NetMsg} (hn : Pooled signature n) :
    (∃ n', Withstands env signature n msg io n') ↔
      ∀ bytes, msg = .newBlock bytes → Harmless env n.miner bytes io := by
  constructor
  · rintro ⟨n', h⟩ bytes rfl
    exact harmless_of_applyPeerBlock h
  · intro h
    by_cases hmsg : ∃ bytes, msg = .newBlock bytes
    · obtain ⟨bytes, rfl⟩ := hmsg
      exact applyPeerBlock_of_harmless (h bytes rfl)
    · exact hn.other fun bytes heq => hmsg ⟨bytes, heq⟩

theorem gossipAll_of_contained {msgs : List (P2p.NetMsg × Option AppendFault)}
    (h : Contained env signature n msgs n') :
    n.gossipAll env signature msgs = .ok (.ok (), n') := by
  induction msgs generalizing n with
  | nil =>
    cases h
    rfl
  | cons p msgs ih =>
    obtain ⟨msg, io⟩ := p
    obtain ⟨mid, hstep, hrest⟩ := h
    rw [gossipAll, hstep.step]
    exact ih hrest

theorem Pooled.contained_iff {msgs : List (P2p.NetMsg × Option AppendFault)}
    (hn : Pooled signature n) :
    (∃ n', Contained env signature n msgs n') ↔ AllHarmless env signature n msgs := by
  induction msgs generalizing n with
  | nil => exact ⟨fun _ => trivial, fun _ => ⟨n, rfl⟩⟩
  | cons p msgs ih =>
    obtain ⟨msg, io⟩ := p
    constructor
    · intro ⟨n', mid, hstep, hrest⟩
      refine ⟨hn.withstands_iff.mp ⟨mid, hstep⟩, fun mid' hmid => ?_⟩
      cases hstep.step.symm.trans hmid
      exact (ih (hn.gossip hmid)).mp ⟨n', hrest⟩
    · intro ⟨hmsg, hrest⟩
      obtain ⟨mid, hstep⟩ := hn.withstands_iff.mpr hmsg
      obtain ⟨n', h⟩ := (ih (hn.gossip hstep.step)).mpr (hrest mid hstep.step)
      exact ⟨n', mid, hstep, h⟩

/-- Whatever messages come in, the node keeps going and ignores all but the valid blocks, exactly
when each block among them is harmless. -/
theorem gossipAll_contained_iff (env : Env Tx) (signature : Tx → Option Signature)
    (n : LinearNode Tx) (msgs : List (P2p.NetMsg × Option AppendFault))
    (pool : ∃ ops h, Mempool.History.run signature 4096 ops = .ok h ∧
      h.pool = n.shared.mempool) :
    (∃ n', n.gossipAll env signature msgs = .ok (.ok (), n') ∧
      Contained env signature n msgs n') ↔ AllHarmless env signature n msgs := by
  have hn : Pooled signature n := by
    obtain ⟨ops, h, hrun, hpool⟩ := pool
    have hfifo : Mempool.History.Fifo signature 4096 _ := Mempool.History.fifo_new 4096
    obtain ⟨_, hrun', hfifo⟩ := (hfifo.run ops).mpr fun h0 => absurd h0 (by decide)
    cases hrun.symm.trans hrun'
    exact ⟨hpool ▸ hfifo.pool, hpool ▸ hfifo.size⟩
  rw [← hn.contained_iff]
  exact ⟨fun ⟨n', _, h⟩ => ⟨n', h⟩, fun ⟨n', h⟩ => ⟨n', gossipAll_of_contained h, h⟩⟩

section Example

open Consensus.ChainState (easyGenesis)
open TaoDag.Runtime (Transaction transferEnv)

/-- The easy node after its first start. -/
def easyNode (chain : ChainState) : LinearNode Transaction :=
  ⟨easyMiner chain, Shared.new 0 chain.tip⟩

/-- A block without a known parent and a transaction that does not decode are both ignored. -/
theorem gossipAll_contained_orphan : ∃ (chain : ChainState) (n' : LinearNode Transaction),
    prepare transferEnv easyConfig 0 easyPow [] = .ok (.ok (easyNode chain).miner) ∧
    (easyNode chain).gossipAll transferEnv signatureBytes
        [(.newBlock (Block.codec.encode orphan), none), (.newTx [], none)] = .ok (.ok (), n') ∧
      Contained transferEnv signatureBytes (easyNode chain)
        [(.newBlock (Block.codec.encode orphan), none), (.newTx [], none)] n' := by
  have hrun : returnsWith (ChainState.new Blake3.hash easyGenesis ⟨10, 16⟩ easyPow) (fun start =>
      (start.blocks.lookup orphan.header.prevHash).isNone) = true := by
    decide +kernel
  obtain ⟨start, hstart, hunknown⟩ := returnsWith_iff.mp hrun
  rw [Option.isNone_iff_eq_none] at hunknown
  have hfits : orphan.Fits := ⟨by simp [orphan], by simp [orphan]⟩
  have hharmless : Harmless transferEnv (easyMiner start) (Block.codec.encode orphan) none := by
    refine ⟨orphan, Block.codec.deserialize_encode (Block.codec_fits hfits), fun _ => ⟨[], rfl, ?_⟩⟩
    intro parent hparent
    cases hunknown.symm.trans hparent
  obtain ⟨n', h⟩ := (gossipAll_contained_iff transferEnv signatureBytes (easyNode start)
    [(.newBlock (Block.codec.encode orphan), none), (.newTx [], none)] ⟨[], _, rfl, rfl⟩).mpr
    ⟨fun bytes heq => (by cases heq; exact hharmless),
      fun _ _ => ⟨fun bytes heq => (by cases heq), fun _ _ => trivial⟩⟩
  exact ⟨start, n', prepare_easy hstart, h⟩

/-- A message with an empty block stops the node. -/
theorem gossipAll_empty_block : ∃ (chain : ChainState) (e : String),
    prepare transferEnv easyConfig 0 easyPow [] = .ok (.ok (easyNode chain).miner) ∧
      (easyNode chain).gossipAll transferEnv signatureBytes [(.newBlock [], none)] =
        .ok (.error e, easyNode chain) := by
  obtain ⟨start, hstart, _⟩ := returnsWith_iff.mp (show returnsWith
    (ChainState.new Blake3.hash easyGenesis ⟨10, 16⟩ easyPow) (fun _ => true) = true by
      decide +kernel)
  obtain ⟨e, hdec⟩ : ∃ e, Block.codec.deserialize [] = .error e := ⟨_, rfl⟩
  refine ⟨start, "decode peer block: " ++ e, prepare_easy hstart, ?_⟩
  simp only [gossipAll, gossip, applyPeerBlock, hdec]
  rfl

end Example

end LinearNode

end TaoDag.Node
