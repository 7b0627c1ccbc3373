import TaoDag.Mempool.Pool
import TaoDag.Node.Miner
import TaoDag.P2p.Frame
import TaoDag.Runtime.Transfer

namespace TaoDag.Node

open Consensus (Block)
open Database (AppendFault)
open TaoDag.Runtime (Env Bank BlockExecution TxOutcome)

/-- What the node shares with the RPC server: the head, the pending transactions, and the
confirmed signatures, where `none` is a success. -/
structure Shared (Tx : Type) where
  slot : BitVec 64
  latestBlockhash : Hash
  mempool : Mempool Tx
  sigStatus : AList fun _ : Signature => Option String

namespace Shared

variable {Tx : Type}

def new (slot : BitVec 64) (latestBlockhash : Hash) : Shared Tx :=
  ⟨slot, latestBlockhash, Mempool.new 4096, ∅⟩

/-- Advances the head, after a block is accepted. -/
def advance (s : Shared Tx) (slot : BitVec 64) (blockhash : Hash) : Shared Tx :=
  { s with slot, latestBlockhash := blockhash }

/-- Records a confirmed signature. -/
def confirm (s : Shared Tx) (sig : Signature) (result : Option String) : Shared Tx :=
  { s with sigStatus := s.sigStatus.insert sig result }

def signatureStatus (s : Shared Tx) (sig : Signature) : Option (Option String) :=
  s.sigStatus.lookup sig

section Signature

variable (signature : Tx → Option Signature)

/-- Queues a transaction for inclusion. -/
def submit (s : Shared Tx) (tx : Tx) : Result (Shared Tx) := do
  let (_, mempool) ← s.mempool.submit signature tx
  return { s with mempool }

def drainMempool (s : Shared Tx) : List Tx × Shared Tx :=
  let (txs, mempool) := s.mempool.drain signature 4096
  (txs, { s with mempool })

/-- Confirms the transactions of a block with the results they have. -/
def confirmAll (s : Shared Tx) (results : List (Tx × Option String)) : Shared Tx :=
  results.foldl (fun s p =>
    match signature p.1 with
    | some sig => s.confirm sig p.2
    | none => s) s

end Signature

theorem confirmAll_mempool {signature : Tx → Option Signature} (s : Shared Tx)
    (results : List (Tx × Option String)) :
    (s.confirmAll signature results).mempool = s.mempool := by
  induction results generalizing s with
  | nil => rfl
  | cons p results ih =>
    rw [confirmAll, List.foldl_cons]
    cases signature p.1 with
    | none => exact ih s
    | some sig => exact ih (s.confirm sig p.2)

@[simp] theorem signatureStatus_confirm (s : Shared Tx) (sig : Signature) (r : Option String) :
    (s.confirm sig r).signatureStatus sig = some r := AList.lookup_insert _

theorem signatureStatus_confirm_of_ne {s : Shared Tx} {sig other : Signature}
    {r : Option String} (h : other ≠ sig) :
    (s.confirm sig r).signatureStatus other = s.signatureStatus other := AList.lookup_insert_ne h

@[simp] theorem signatureStatus_advance (s : Shared Tx) (slot : BitVec 64) (blockhash : Hash)
    (sig : Signature) : (s.advance slot blockhash).signatureStatus sig = s.signatureStatus sig :=
  rfl

/-- A status is that of a transaction confirmed now, or was there before. -/
theorem signatureStatus_confirmAll {signature : Tx → Option Signature} {s : Shared Tx}
    {results : List (Tx × Option String)} {sig : Signature} {r : Option String}
    (h : (s.confirmAll signature results).signatureStatus sig = some r) :
    (∃ p ∈ results, signature p.1 = some sig ∧ p.2 = r) ∨ s.signatureStatus sig = some r := by
  induction results generalizing s with
  | nil => exact Or.inr h
  | cons p results ih =>
    rcases ih h with ⟨q, hq, hsig⟩ | h
    · exact Or.inl ⟨q, List.mem_cons_of_mem p hq, hsig⟩
    · cases hp : signature p.1 with
      | none =>
        simp only [hp] at h
        exact Or.inr h
      | some other =>
        simp only [hp] at h
        by_cases hne : sig = other
        · subst hne
          rw [signatureStatus_confirm] at h
          exact Or.inl ⟨p, List.mem_cons_self, hp, Option.some.inj h⟩
        · rw [signatureStatus_confirm_of_ne hne] at h
          exact Or.inr h

end Shared

/-- The first signature of a system transfer. -/
def signatureBytes (t : TaoDag.Runtime.Transaction) : Option Signature :=
  t.signatures.head?.bind fun sig =>
    if sig.length = 64 then some (BitVec.ofNat 512 (ofLE sig)) else none

/-- The linear node: the miner, and what it shares. -/
structure LinearNode (Tx : Type) where
  miner : Miner
  shared : Shared Tx

namespace LinearNode

variable {Tx : Type} (env : Env Tx) (signature : Tx → Option Signature)

/-- Each transaction with its outcome's error. -/
def results (txs : List Tx) (outcomes : List TxOutcome) : List (Tx × Option String) :=
  (txs.zip outcomes).map fun p => (p.1, p.2.error)

/-- Drains the mempool into a block: execute, grind, persist, add, confirm. -/
def mineOne (n : LinearNode Tx) (input : Miner.MineInput) :
    Result (Except String Unit × LinearNode Tx) := do
  let m := n.miner
  let height ← addU64 (← m.chain.height) 1
  let (txs, shared) := n.shared.drainMempool signature
  let serialized ← serializeTxs env txs
  let (exec, bank) ←
    m.bank.executeBlock env txs m.chain.tip m.miner (emission m.genesis height)
  let m := { m with bank }
  let header ← m.chain.buildCandidate env.blake3 m.miner input.now serialized
  let header ← grindLoop m.chain.pow input.batch input.readings
    { header with stateRoot := exec.stateRoot }
  match m.log.append input.io (Block.codec.encode ⟨header, serialized⟩) with
  | (.error _, log) => return (.error "append block", ⟨{ m with log }, shared⟩)
  | (.ok (), log) =>
      let m := { m with log }
      match ← m.chain.addHeader env.blake3 header with
      | (.error e, _) =>
          return (.error ("self-mined block rejected: " ++ e.message), ⟨m, shared⟩)
      | (.ok _, chain) =>
          let shared := shared.confirmAll signature (results txs exec.outcomes)
          return (.ok (), ⟨{ m with chain }, shared.advance (BitVec.ofNat 64 height) chain.tip⟩)

/-- Validates, executes and applies a block received from a peer, and confirms its
transactions. -/
def applyPeerBlock (n : LinearNode Tx) (bytes : Bytes) (io : Option AppendFault) :
    Result (Except String Unit × LinearNode Tx) :=
  let m := n.miner
  match Block.codec.deserialize bytes with
  | .error e => return (.error ("decode peer block: " ++ e), n)
  | .ok block =>
      if m.chain.contains (block.id env.blake3) then return (.ok (), n)
      else
        match decodeTxs env block.transactions with
        | .error e => return (.error e, n)
        | .ok txs => do
            match ← m.chain.addHeader env.blake3 block.header with
            | (.error _, _) => return (.ok (), n)
            | (.ok _, chain) =>
                let m := { m with chain }
                let (exec, bank) ← executeOn env m.genesis m.bank block.header txs
                let m := { m with bank }
                if exec.stateRoot ≠ block.header.stateRoot then
                  return (.ok (), { n with miner := m })
                else
                  match m.log.append io bytes with
                  | (.error _, log) =>
                      return (.error "append peer block", { n with miner := { m with log } })
                  | (.ok (), log) =>
                      let shared := n.shared.confirmAll signature (results txs exec.outcomes)
                      return (.ok (),
                        ⟨{ m with log }, shared.advance block.header.height m.chain.tip⟩)

/-- Applies one inbound message. The linear chain serves no sync. -/
def gossip (n : LinearNode Tx) (msg : P2p.NetMsg) (io : Option AppendFault) :
    Result (Except String Unit × LinearNode Tx) :=
  match msg with
  | .newBlock bytes => n.applyPeerBlock env signature bytes io
  | .newTx bytes =>
      match env.decodeTx bytes with
      | .ok tx => do
          let shared ← n.shared.submit signature tx
          return (.ok (), { n with shared })
      | .error _ => return (.ok (), n)
  | .getBlock _ | .getTips | .tips _ | .getSnapshot | .snapshot _ => return (.ok (), n)

/-- Applies the messages that have come in, until one returns an error. -/
def gossipAll : LinearNode Tx → List (P2p.NetMsg × Option AppendFault) →
    Result (Except String Unit × LinearNode Tx)
  | n, [] => return (.ok (), n)
  | n, (msg, io) :: rest => do
      match ← n.gossip env signature msg io with
      | (.ok (), n) => gossipAll n rest
      | (.error e, n) => return (.error e, n)

variable {env signature} {n n' : LinearNode Tx} {r : Except String Unit}

/-- A call of `mine_one` is the miner's, on the transactions that it drains; it executes them, and
confirms them when it succeeds. -/
theorem mineOne_cases {input : Miner.MineInput}
    (run : n.mineOne env signature input = .ok (r, n')) :
    let (txs, shared) := n.shared.drainMempool signature
    n.miner.mineOne env txs input = .ok (r, n'.miner) ∧
      ∃ height exec bank, n.miner.bank.executeBlock env txs n.miner.chain.tip n.miner.miner
          (emission n.miner.genesis height) = .ok (exec, bank) ∧ n'.miner.bank = bank ∧
        ((∃ e, r = .error e) ∧ n'.shared = shared ∨ r = .ok () ∧
          n'.shared = (shared.confirmAll signature (results txs exec.outcomes)).advance
            (BitVec.ofNat 64 height) n'.miner.chain.tip) := by
  obtain ⟨txs, shared, hdrain⟩ : ∃ txs shared, n.shared.drainMempool signature = (txs, shared) :=
    ⟨_, _, rfl⟩
  simp only [mineOne, hdrain] at run ⊢
  obtain ⟨tipHeight, hheight, run⟩ := bind_eq_ok.mp run
  obtain ⟨height, hadd, run⟩ := bind_eq_ok.mp run
  obtain ⟨serialized, hser, run⟩ := bind_eq_ok.mp run
  obtain ⟨⟨exec, bank⟩, hexec, run⟩ := bind_eq_ok.mp run
  obtain ⟨candidate, hcand, run⟩ := bind_eq_ok.mp run
  obtain ⟨header, hgrind, run⟩ := bind_eq_ok.mp run
  simp only [Miner.mineOne, hheight, hadd, hser, hexec, hcand, hgrind, bind, Except.bind]
  cases happ : n.miner.log.append input.io (Block.codec.encode ⟨header, serialized⟩) with
  | mk written log =>
    simp only [happ] at run
    cases written with
    | error e =>
      cases run
      exact ⟨rfl, height, exec, bank, hexec, rfl, Or.inl ⟨⟨_, rfl⟩, rfl⟩⟩
    | ok u =>
      obtain ⟨⟨verdict, chain⟩, hheader, run⟩ := bind_eq_ok.mp run
      simp only [hheader]
      cases verdict with
      | error e =>
        cases run
        exact ⟨rfl, height, exec, bank, hexec, rfl, Or.inl ⟨⟨_, rfl⟩, rfl⟩⟩
      | ok status =>
        cases run
        exact ⟨rfl, height, exec, bank, hexec, rfl, Or.inr ⟨rfl, rfl⟩⟩

/-- A call of `apply_peer_block` is the miner's; it confirms the transactions of a block that it
takes, executes and writes. -/
theorem applyPeerBlock_cases {bytes : Bytes} {io : Option AppendFault}
    (run : n.applyPeerBlock env signature bytes io = .ok (r, n')) :
    n.miner.applyPeerBlock env bytes io = .ok (r, n'.miner) ∧
      (n' = n ∨ ∃ (block : Block) (txs : List Tx) (exec : BlockExecution) (bank : Bank),
        executeOn env n.miner.genesis n.miner.bank block.header txs = .ok (exec, bank) ∧
        n'.miner.bank = bank ∧ (n'.shared = n.shared ∨ r = .ok () ∧
          n'.shared = (n.shared.confirmAll signature (results txs exec.outcomes)).advance
            block.header.height n'.miner.chain.tip)) := by
  simp only [applyPeerBlock] at run
  simp only [Miner.applyPeerBlock]
  cases hdec : Block.codec.deserialize bytes with
  | error e =>
    simp only [hdec] at run
    cases run
    exact ⟨rfl, Or.inl rfl⟩
  | ok block =>
    simp only [hdec] at run
    by_cases hknown : n.miner.chain.contains (block.id env.blake3) = true
    · simp only [if_pos hknown] at run ⊢
      cases run
      exact ⟨rfl, Or.inl rfl⟩
    · simp only [if_neg hknown] at run ⊢
      cases htxs : decodeTxs env block.transactions with
      | error e =>
        simp only [htxs] at run
        cases run
        exact ⟨rfl, Or.inl rfl⟩
      | ok txs =>
        simp only [htxs] at run
        obtain ⟨⟨verdict, chain⟩, hadd, run⟩ := bind_eq_ok.mp run
        simp only [hadd, bind, Except.bind]
        cases verdict with
        | error e =>
          cases run
          exact ⟨rfl, Or.inl rfl⟩
        | ok status =>
          obtain ⟨⟨exec, bank⟩, hexec, run⟩ := bind_eq_ok.mp run
          simp only [hexec]
          by_cases hroot : exec.stateRoot ≠ block.header.stateRoot
          · simp only [if_pos hroot] at run ⊢
            cases run
            exact ⟨rfl, Or.inr ⟨block, txs, exec, bank, hexec, rfl, Or.inl rfl⟩⟩
          · simp only [if_neg hroot] at run ⊢
            cases happ : n.miner.log.append io bytes with
            | mk written log =>
              simp only [happ] at run
              cases written with
              | error e =>
                cases run
                exact ⟨rfl, Or.inr ⟨block, txs, exec, bank, hexec, rfl, Or.inl rfl⟩⟩
              | ok u =>
                cases run
                exact ⟨rfl, Or.inr ⟨block, txs, exec, bank, hexec, rfl, Or.inr ⟨rfl, rfl⟩⟩⟩

end LinearNode

end TaoDag.Node
