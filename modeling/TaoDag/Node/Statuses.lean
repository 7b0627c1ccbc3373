import TaoDag.Dagvm.Execution
import TaoDag.Node.DagNode
import TaoDag.Node.LinearRun
import TaoDag.Node.Shared

namespace TaoDag.Node

open Consensus (Pubkey)
open Database (AppendFault ReplaceFault)
open Dagvm (Checkpoint DagChain Execution envBlockhash)
open TaoDag.Runtime (Env Bank BankM BlockExecution TxOutcome)

variable {Tx : Type} {env : Env Tx} {signature : Tx → Option Signature}

/-- The blocks that a bank has executed since it was `start`: their transactions, each with its
outcome. -/
inductive Executed (env : Env Tx) (start : Bank) : List (Tx × TxOutcome) → Bank → Prop
  | start : Executed env start [] start
  | block {done : List (Tx × TxOutcome)} {bank bank' : Bank} {txs : List Tx} {blockhash : Bytes32}
      {miner : Pubkey} {reward : BitVec 64} {exec : BlockExecution}
      (before : Executed env start done bank)
      (run : bank.executeBlock env txs blockhash miner reward = .ok (exec, bank')) :
      Executed env start (done ++ txs.zip exec.outcomes) bank'

theorem executeTransaction_error {bank bank' : Bank} {tx : Tx} {blockhash : Bytes32}
    {outcome : TxOutcome}
    (run : (bank.executeTransaction env tx blockhash).run = .ok (.ok (outcome, bank')))
    (h : outcome.error = none) : outcome.succeeded = true := by
  rw [Bank.executeTransaction] at run
  cases hv : env.verify tx with
  | error e =>
    rw [hv] at run
    cases run
  | ok u =>
    simp only [hv] at run
    by_cases hs : env.sanitizes tx = true
    · rw [assert, if_pos hs] at run
      have hres : bank.applyResult env tx (env.svm blockhash bank.db.get tx) = (outcome, bank') :=
        Except.ok.inj (Except.ok.inj run)
      have houtcome : outcome = (bank.applyResult env tx (env.svm blockhash bank.db.get tx)).1 := by
        rw [hres]
      rw [houtcome] at h ⊢
      cases hr : env.svm blockhash bank.db.get tx with
      | executed accounts rollbackAccounts fee status =>
        rw [hr] at h
        cases status with
        | ok u => rfl
        | error e => cases h
      | feesOnly rollbackAccounts fee loadError =>
        rw [hr] at h
        cases h
      | notProcessed error =>
        rw [hr] at h
        cases h
    · rw [assert, if_neg hs] at run
      cases run

/-- An outcome of a block that has no error is a success. -/
theorem executeBlock_error {bank bank' : Bank} {txs : List Tx} {blockhash : Bytes32}
    {miner : Pubkey} {reward : BitVec 64} {exec : BlockExecution}
    (run : bank.executeBlock env txs blockhash miner reward = .ok (exec, bank')) :
    ∀ o ∈ exec.outcomes, o.error = none → o.succeeded = true := by
  have hfold : ∀ (acc acc' : BitVec 64 × List TxOutcome × Bank),
      txs.foldlM (Bank.executeOne env blockhash) acc = .ok acc' →
      (∀ o ∈ acc.2.1, o.error = none → o.succeeded = true) →
      ∀ o ∈ acc'.2.1, o.error = none → o.succeeded = true := by
    clear run
    induction txs with
    | nil =>
      intro acc acc' hrun h
      cases hrun
      exact h
    | cons tx txs ih =>
      intro acc acc' hrun h
      obtain ⟨⟨fees, outcomes, after⟩, hstep, hrun⟩ := bind_eq_ok.mp hrun
      apply ih _ _ hrun
      obtain ⟨r, hr, hstep⟩ := bind_eq_ok.mp hstep
      intro o ho
      cases r with
      | error e =>
        cases hstep
        rcases List.mem_append.mp ho with ho | ho
        · exact h o ho
        · obtain rfl := List.mem_singleton.mp ho
          intro hnone
          cases hnone
      | ok p =>
        cases hstep
        rcases List.mem_append.mp ho with ho | ho
        · exact h o ho
        · obtain rfl := List.mem_singleton.mp ho
          exact executeTransaction_error hr
  obtain ⟨⟨fees, outcomes, after⟩, hacc, run⟩ := bind_eq_ok.mp run
  cases run
  exact hfold _ _ hacc fun o ho => absurd ho List.not_mem_nil

namespace LinearNode

/-- The node between its start and now: calls of `mine_one`, peer messages, and transactions
submitted over RPC, in any order. -/
inductive Serves (env : Env Tx) (signature : Tx → Option Signature) (n₀ : LinearNode Tx) :
    LinearNode Tx → Prop
  | start : Serves env signature n₀ n₀
  | submit {n : LinearNode Tx} {tx : Tx} {shared : Shared Tx}
      (before : Serves env signature n₀ n) (run : n.shared.submit signature tx = .ok shared) :
      Serves env signature n₀ { n with shared }
  | mine {n n' : LinearNode Tx} {input : Miner.MineInput} {r : Except String Unit}
      (before : Serves env signature n₀ n)
      (run : n.mineOne env signature input = .ok (r, n')) : Serves env signature n₀ n'
  | gossip {n n' : LinearNode Tx} {msg : P2p.NetMsg} {io : Option AppendFault}
      {r : Except String Unit} (before : Serves env signature n₀ n)
      (run : n.gossip env signature msg io = .ok (r, n')) : Serves env signature n₀ n'

/-- Whatever has a success for its status was executed with success. -/
def Real (env : Env Tx) (signature : Tx → Option Signature) (start : Bank) (n : LinearNode Tx) :
    Prop :=
  ∃ done, Executed env start done n.miner.bank ∧
    ∀ sig, n.shared.signatureStatus sig = some none →
      ∃ p ∈ done, signature p.1 = some sig ∧ p.2.succeeded = true

variable {start : Bank} {n n' : LinearNode Tx}

theorem submit_sigStatus {s s' : Shared Tx} {tx : Tx} (run : s.submit signature tx = .ok s')
    (sig : Signature) : s'.signatureStatus sig = s.signatureStatus sig := by
  obtain ⟨⟨added, mempool⟩, _, run⟩ := bind_eq_ok.mp run
  cases run
  rfl

/-- A block whose transactions are confirmed with the outcomes of their execution. -/
theorem Real.confirm (h : Real env signature start n) {txs : List Tx} {blockhash : Bytes32}
    {miner : Pubkey} {reward : BitVec 64} {exec : BlockExecution}
    (run : n.miner.bank.executeBlock env txs blockhash miner reward = .ok (exec, n'.miner.bank))
    (status : ∀ sig, n'.shared.signatureStatus sig = some none →
      (∃ p ∈ results txs exec.outcomes, signature p.1 = some sig ∧ p.2 = none) ∨
        n.shared.signatureStatus sig = some none) : Real env signature start n' := by
  obtain ⟨done, hdone, hreal⟩ := h
  refine ⟨done ++ txs.zip exec.outcomes, hdone.block run, fun sig hsig => ?_⟩
  rcases status sig hsig with ⟨p, hp, hsigned, hnone⟩ | hold
  · obtain ⟨⟨tx, outcome⟩, hmem, rfl⟩ := List.mem_map.mp hp
    have houtcome := executeBlock_error run outcome (List.of_mem_zip hmem).2 hnone
    exact ⟨(tx, outcome), List.mem_append_right _ hmem, hsigned, houtcome⟩
  · obtain ⟨p, hp, hsucceeded⟩ := hreal sig hold
    exact ⟨p, List.mem_append_left _ hp, hsucceeded⟩

theorem Real.mineOne (h : Real env signature start n) {input : Miner.MineInput}
    {r : Except String Unit} (run : n.mineOne env signature input = .ok (r, n')) :
    Real env signature start n' := by
  obtain ⟨_, height, exec, bank, hexec, rfl, hshared⟩ := mineOne_cases run
  refine h.confirm hexec fun sig hsig => ?_
  rcases hshared with ⟨_, heq⟩ | ⟨_, heq⟩
  · rw [heq] at hsig
    exact Or.inr hsig
  · rw [heq, Shared.signatureStatus_advance] at hsig
    rcases Shared.signatureStatus_confirmAll hsig with hnew | hold
    · exact Or.inl hnew
    · exact Or.inr hold

theorem Real.applyPeerBlock (h : Real env signature start n) {bytes : Bytes}
    {io : Option AppendFault} {r : Except String Unit}
    (run : n.applyPeerBlock env signature bytes io = .ok (r, n')) :
    Real env signature start n' := by
  obtain ⟨_, rfl | ⟨block, txs, exec, bank, hexec, rfl, hshared⟩⟩ := applyPeerBlock_cases run
  · exact h
  · refine h.confirm hexec fun sig hsig => ?_
    rcases hshared with heq | ⟨_, heq⟩
    · rw [heq] at hsig
      exact Or.inr hsig
    · rw [heq, Shared.signatureStatus_advance] at hsig
      exact Shared.signatureStatus_confirmAll hsig

theorem Real.submit (h : Real env signature start n) {tx : Tx} {shared : Shared Tx}
    (run : n.shared.submit signature tx = .ok shared) :
    Real env signature start { n with shared } := by
  obtain ⟨done, hdone, hreal⟩ := h
  refine ⟨done, hdone, fun sig hsig => hreal sig ?_⟩
  rw [← submit_sigStatus run sig]
  exact hsig

theorem Real.gossip (h : Real env signature start n) {msg : P2p.NetMsg}
    {io : Option AppendFault} {r : Except String Unit}
    (run : n.gossip env signature msg io = .ok (r, n')) : Real env signature start n' := by
  cases msg with
  | newBlock bytes => exact h.applyPeerBlock run
  | newTx bytes =>
    simp only [LinearNode.gossip] at run
    cases hdec : env.decodeTx bytes with
    | error e =>
      simp only [hdec] at run
      cases run
      exact h
    | ok tx =>
      simp only [hdec] at run
      obtain ⟨shared, hsubmit, run⟩ := bind_eq_ok.mp run
      cases run
      exact h.submit hsubmit
  | getBlock _ | getTips | tips _ | getSnapshot | snapshot _ =>
    cases run
    exact h

theorem Serves.real {m : Miner} {slot : BitVec 64} {blockhash : Hash}
    (run : Serves env signature ⟨m, Shared.new slot blockhash⟩ n) :
    Real env signature m.bank n := by
  induction run with
  | start =>
    refine ⟨[], .start, fun sig hsig => ?_⟩
    cases hsig
  | submit _ hsubmit ih => exact ih.submit hsubmit
  | mine _ hmine ih => exact ih.mineOne hmine
  | gossip _ hgossip ih => exact ih.gossip hgossip

end LinearNode

end TaoDag.Node
