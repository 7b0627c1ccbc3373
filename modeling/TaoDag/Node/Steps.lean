import TaoDag.Consensus.ForkChoice
import TaoDag.Node.Miner

namespace TaoDag.Node

open Consensus (Pubkey Block BlockHeader BlockStatus ChainError ChainState)
open Database (AppendFault BlockLog)
open TaoDag.Runtime (Env Bank BlockExecution)

variable {Tx : Type} {env : Env Tx} {g : GenesisConfig} {pow : BlockHeader → Bool}

theorem executeBlock_root {bank bank' : Bank} {txs : List Tx} {blockhash : Bytes32}
    {miner : Pubkey} {reward : BitVec 64} {exec : BlockExecution}
    (run : bank.executeBlock env txs blockhash miner reward = .ok (exec, bank')) :
    exec.stateRoot = bank'.stateRoot env := by
  obtain ⟨⟨fees, outcomes, bank₁⟩, _, run⟩ := bind_eq_ok.mp run
  cases run
  rfl

/-- A grind changes the nonce only, and ends on a header that meets the PoW. -/
theorem grind_ok {n : Nat} {header header' : BlockHeader} (run : grind pow n header = .ok header') :
    pow header' = true ∧ header' = { header with nonce := header'.nonce } := by
  induction n generalizing header with
  | zero => cases run
  | succ n ih =>
    rw [grind] at run
    by_cases hp : pow header = true
    · rw [if_pos hp] at run
      cases run
      exact ⟨hp, rfl⟩
    · rw [if_neg hp] at run
      obtain ⟨hp', heq⟩ := ih run
      exact ⟨hp', heq⟩

theorem grind_error {n : Nat} {header header' : BlockHeader}
    (run : grind pow n header = .error header') :
    header' = { header with nonce := header'.nonce } := by
  induction n generalizing header with
  | zero =>
    cases run
    rfl
  | succ n ih =>
    rw [grind] at run
    by_cases hp : pow header = true
    · rw [if_pos hp] at run
      cases run
    · rw [if_neg hp] at run
      have heq := ih run
      exact heq

/-- The loop changes the nonce and the timestamp, which it takes from the clock. -/
theorem grindLoop_spec {batch : Nat} {readings : List (BitVec 64)} {header header' : BlockHeader}
    (run : grindLoop pow batch readings header = .ok header') :
    pow header' = true ∧ header'.timestamp ∈ header.timestamp :: readings ∧
      header' = { header with nonce := header'.nonce, timestamp := header'.timestamp } := by
  induction readings generalizing header with
  | nil =>
    rw [grindLoop] at run
    cases hg : grind pow batch header with
    | error h =>
      rw [hg] at run
      cases run
    | ok h =>
      rw [hg] at run
      cases run
      obtain ⟨hp, heq⟩ := grind_ok hg
      rw [heq]
      exact ⟨heq ▸ hp, List.mem_cons_self, rfl⟩
  | cons now readings ih =>
    rw [grindLoop] at run
    cases hg : grind pow batch header with
    | error h =>
      rw [hg] at run
      obtain ⟨hp, htime, heq⟩ := ih run
      refine ⟨hp, List.mem_cons_of_mem _ htime, ?_⟩
      rw [heq, grind_error hg]
    | ok h =>
      rw [hg] at run
      cases run
      obtain ⟨hp, heq⟩ := grind_ok hg
      rw [heq]
      exact ⟨heq ▸ hp, List.mem_cons_self, rfl⟩

/-- A start reads the log file and leaves it as it is. -/
theorem prepare_log {miner : Pubkey} {file : Bytes} {m : Miner}
    (run : prepare env g miner pow file = .ok (.ok m)) : m.log = BlockLog.openAt file := by
  obtain ⟨params, _, run⟩ := bind_eq_ok.mp run
  obtain ⟨chain, _, run⟩ := bind_eq_ok.mp run
  cases hread : (BlockLog.openAt file).readAll with
  | error e =>
    simp only [hread] at run
    cases run
  | ok records =>
    simp only [hread] at run
    obtain ⟨verdict, _, run⟩ := bind_eq_ok.mp run
    cases verdict with
    | error e => cases run
    | ok p =>
      cases run
      rfl

namespace Miner

variable {m m' : Miner} {r : Except String Unit}

/-- A block that `mine_one` has built on the tip and ground, over the state `bank` it has
executed. -/
structure Mined (env : Env Tx) (m : Miner) (txs : List Tx) (input : MineInput) (block : Block)
    (bank : Bank) : Prop where
  transactions : serializeTxs env txs = .ok block.transactions
  prevHash : block.header.prevHash = m.chain.tip
  txMerkleRoot : block.header.txMerkleRoot = Consensus.txMerkleRoot env.blake3 block.transactions
  timestamp : block.header.timestamp ∈ input.now :: input.readings
  height : ∃ parent, m.chain.blocks.lookup m.chain.tip = some parent ∧
    block.header.height.toNat = parent.header.height.toNat + 1
  target : m.chain.targetAfter m.chain.tip = .ok block.header.target
  pow : m.chain.pow block.header = true
  run : ∃ exec, executeOn env m.genesis m.bank block.header txs = .ok (exec, bank) ∧
    exec.stateRoot = block.header.stateRoot

/-- How `mine_one` ends once it has ground a block: it fails to write the block, fails to add the
header, or does both. -/
theorem mineOne_cases {txs : List Tx} {input : MineInput}
    (run : m.mineOne env txs input = .ok (r, m')) :
    ∃ block bank, Mined env m txs input block bank ∧
      ∃ written log, m.log.append input.io (Block.codec.encode block) = (written, log) ∧
        (((∃ e, written = .error e) ∧ (∃ msg, r = .error msg) ∧ m' = { m with bank, log }) ∨
          (written = .ok () ∧ ∃ verdict chain,
            m.chain.addHeader env.blake3 block.header = .ok (verdict, chain) ∧
              m' = { m with bank, log, chain } ∧ (r = .ok () ↔ ∃ status, verdict = .ok status))) := by
  obtain ⟨tipHeight, hheight, run⟩ := bind_eq_ok.mp run
  obtain ⟨height, hadd, run⟩ := bind_eq_ok.mp run
  obtain ⟨serialized, hser, run⟩ := bind_eq_ok.mp run
  obtain ⟨⟨exec, bank⟩, hexec, run⟩ := bind_eq_ok.mp run
  obtain ⟨candidate, hcand, run⟩ := bind_eq_ok.mp run
  obtain ⟨header, hgrind, hend⟩ := bind_eq_ok.mp run
  obtain ⟨hpow, htime, hheader⟩ := grindLoop_spec hgrind
  obtain ⟨tipHeader, htip, hh⟩ := bind_eq_ok.mp hheight
  cases hh
  have htip' := htip
  obtain ⟨parent, hparent, hh⟩ := bind_eq_ok.mp htip'
  cases hh
  have hlookup : m.chain.blocks.lookup m.chain.tip = some parent :=
    (expect_spec (C := False) False.elim fun _ h => h).post hparent
  obtain ⟨hval, hle⟩ := (addU64_spec (C := False) False.elim).post hadd
  obtain ⟨tipHeader, htip₂, hcand⟩ := bind_eq_ok.mp hcand
  cases htip.symm.trans htip₂
  obtain ⟨height', hadd', hcand⟩ := bind_eq_ok.mp hcand
  cases hadd.symm.trans hadd'
  obtain ⟨target, htarget, hcand⟩ := bind_eq_ok.mp hcand
  cases hcand
  have hheight' : header.height.toNat = height := by
    rw [hheader, BitVec.toNat_ofNat, Nat.mod_eq_of_lt]
    rw [u64Max] at hle
    omega
  have hmined : Mined env m txs input ⟨header, serialized⟩ bank := by
    refine ⟨hser, ?_, ?_, htime, ⟨parent, hlookup, hheight'.trans hval⟩, ?_, hpow, exec, ?_, ?_⟩
    · rw [hheader]
    · rw [hheader]
    · rw [hheader]
      exact htarget
    · rw [executeOn, hheight', hheader]
      exact hexec
    · rw [hheader]
  cases happ : m.log.append input.io (Block.codec.encode ⟨header, serialized⟩) with
  | mk written log =>
    rw [happ] at hend
    refine ⟨⟨header, serialized⟩, bank, hmined, written, log, happ, ?_⟩
    cases written with
    | error e =>
      cases hend
      exact Or.inl ⟨⟨e, rfl⟩, ⟨_, rfl⟩, rfl⟩
    | ok u =>
      obtain ⟨⟨verdict, chain⟩, hadd, hend⟩ := bind_eq_ok.mp hend
      cases verdict with
      | error e =>
        cases hend
        obtain ⟨_, hchain⟩ | ⟨_, _, hok, _⟩ := ChainState.addHeader_cases hadd
        · rw [hchain] at hadd
          refine Or.inr ⟨rfl, _, m.chain, hadd, rfl, iff_of_false ?_ ?_⟩
          · intro h
            cases h
          · rintro ⟨_, h⟩
            cases h
        · cases hok
      | ok status =>
        cases hend
        exact Or.inr ⟨rfl, _, chain, hadd, rfl, iff_of_true rfl ⟨status, rfl⟩⟩

/-- A block that is written, and whose header is then refused. -/
theorem mineOne_refused {txs : List Tx} {input : MineInput} {tipHeight height : Nat}
    {serialized : List Bytes} {exec : BlockExecution} {bank : Bank} {candidate header : BlockHeader}
    {log : BlockLog} {err : ChainError} {chain : ChainState}
    (hheight : m.chain.height = .ok tipHeight) (hsum : addU64 tipHeight 1 = .ok height)
    (hser : serializeTxs env txs = .ok serialized)
    (hexec : m.bank.executeBlock env txs m.chain.tip m.miner (emission m.genesis height) =
      .ok (exec, bank))
    (hcandidate : m.chain.buildCandidate env.blake3 m.miner input.now serialized = .ok candidate)
    (hgrind : grindLoop m.chain.pow input.batch input.readings
      { candidate with stateRoot := exec.stateRoot } = .ok header)
    (happ : m.log.append input.io (Block.codec.encode ⟨header, serialized⟩) = (.ok (), log))
    (hadd : m.chain.addHeader env.blake3 header = .ok (.error err, chain)) :
    m.mineOne env txs input =
      .ok (.error ("self-mined block rejected: " ++ err.message), { m with bank, log }) := by
  simp only [mineOne, hheight, hsum, hser, hexec, hcandidate, hgrind, happ, hadd, bind, Except.bind]
  rfl

/-- A block from a peer that `apply_peer_block` adds to the chain and executes. -/
structure Taken (env : Env Tx) (m : Miner) (bytes : Bytes) (block : Block) (txs : List Tx)
    (chain : ChainState) (exec : BlockExecution) (bank : Bank) : Prop where
  decoded : Block.codec.deserialize bytes = .ok block
  new : m.chain.contains (block.id env.blake3) = false
  transactions : decodeTxs env block.transactions = .ok txs
  added : ∃ status, m.chain.addHeader env.blake3 block.header = .ok (.ok status, chain)
  run : executeOn env m.genesis m.bank block.header txs = .ok (exec, bank)

/-- What `apply_peer_block` can do: leave the node as it is, or add the header and execute the
block. The block is logged when its state root is the one that the execution gives. -/
theorem applyPeerBlock_cases {bytes : Bytes} {io : Option AppendFault}
    (run : m.applyPeerBlock env bytes io = .ok (r, m')) :
    m' = m ∨ ∃ block txs chain exec bank, Taken env m bytes block txs chain exec bank ∧
      ((exec.stateRoot ≠ block.header.stateRoot ∧ m' = { m with chain, bank }) ∨
        (exec.stateRoot = block.header.stateRoot ∧ ∃ written log,
          m.log.append io bytes = (written, log) ∧ m' = { m with chain, bank, log } ∧
            (r = .ok () ↔ written = .ok ()))) := by
  rw [applyPeerBlock] at run
  cases hdec : Block.codec.deserialize bytes with
  | error e =>
    rw [hdec] at run
    cases run
    exact Or.inl rfl
  | ok block =>
    simp only [hdec] at run
    by_cases hknown : m.chain.contains (block.id env.blake3) = true
    · rw [if_pos hknown] at run
      cases run
      exact Or.inl rfl
    · rw [if_neg hknown] at run
      cases htxs : decodeTxs env block.transactions with
      | error e =>
        rw [htxs] at run
        cases run
        exact Or.inl rfl
      | ok txs =>
        simp only [htxs] at run
        obtain ⟨⟨verdict, chain⟩, hadd, run⟩ := bind_eq_ok.mp run
        cases verdict with
        | error e =>
          cases run
          exact Or.inl rfl
        | ok status =>
          obtain ⟨⟨exec, bank⟩, hexec, run⟩ := bind_eq_ok.mp run
          have htaken : Taken env m bytes block txs chain exec bank :=
            ⟨hdec, Bool.eq_false_iff.mpr hknown, htxs, ⟨status, hadd⟩, hexec⟩
          refine Or.inr ⟨block, txs, chain, exec, bank, htaken, ?_⟩
          by_cases hroot : exec.stateRoot ≠ block.header.stateRoot
          · simp only [if_pos hroot] at run
            cases run
            exact Or.inl ⟨hroot, rfl⟩
          · simp only [if_neg hroot] at run
            refine Or.inr ⟨not_not.mp hroot, ?_⟩
            cases happ : m.log.append io bytes with
            | mk written log =>
              rw [happ] at run
              cases written with
              | error e =>
                cases run
                refine ⟨_, log, rfl, rfl, iff_of_false ?_ ?_⟩
                · intro h
                  cases h
                · intro h
                  cases h
              | ok u =>
                cases run
                exact ⟨_, log, rfl, rfl, iff_of_true rfl rfl⟩

/-- The header of a new block stays in the chain, whatever becomes of the block. -/
theorem applyPeerBlock_chain {bytes : Bytes} {io : Option AppendFault} {block : Block}
    {txs : List Tx} {status : BlockStatus} {chain : ChainState}
    (hdec : Block.codec.deserialize bytes = .ok block)
    (hnew : m.chain.contains (block.id env.blake3) = false)
    (htxs : decodeTxs env block.transactions = .ok txs)
    (hadd : m.chain.addHeader env.blake3 block.header = .ok (.ok status, chain))
    (run : m.applyPeerBlock env bytes io = .ok (r, m')) : m'.chain = chain := by
  have hnew' : ¬m.chain.contains (block.id env.blake3) = true := Bool.eq_false_iff.mp hnew
  simp only [applyPeerBlock, hdec, if_neg hnew', htxs] at run
  obtain ⟨⟨_, _⟩, hadd', run⟩ := bind_eq_ok.mp run
  cases hadd.symm.trans hadd'
  obtain ⟨⟨exec, bank⟩, _, run⟩ := bind_eq_ok.mp run
  by_cases hroot : exec.stateRoot ≠ block.header.stateRoot
  · simp only [if_pos hroot] at run
    cases run
    rfl
  · simp only [if_neg hroot] at run
    cases happ : m.log.append io bytes with
    | mk written log =>
      rw [happ] at run
      cases written with
      | error e =>
        cases run
        rfl
      | ok u =>
        cases run
        rfl

/-- A block that is added and executed is taken over, whatever its root is. -/
theorem Taken.apply {bytes : Bytes} {block : Block} {txs : List Tx} {chain : ChainState}
    {exec : BlockExecution} {bank : Bank} (ht : Taken env m bytes block txs chain exec bank)
    (hlen : bytes.length < 2^32) :
    ∃ log, m.applyPeerBlock env bytes none = .ok (.ok (), { m with chain, bank, log }) := by
  obtain ⟨status, hadd⟩ := ht.added
  have hnew : ¬m.chain.contains (block.id env.blake3) = true := Bool.eq_false_iff.mp ht.new
  simp only [applyPeerBlock, ht.decoded, if_neg hnew, ht.transactions, hadd, ht.run, bind,
    Except.bind]
  by_cases hroot : exec.stateRoot ≠ block.header.stateRoot
  · rw [if_pos hroot]
    exact ⟨_, rfl⟩
  · rw [if_neg hroot, BlockLog.append, if_pos hlen]
    exact ⟨_, rfl⟩

end Miner

end TaoDag.Node
