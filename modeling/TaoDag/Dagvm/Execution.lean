import TaoDag.Dagvm.Run
import TaoDag.Dagvm.State
import TaoDag.Runtime.BankState
import TaoDag.Runtime.Transfer

namespace TaoDag.Dagvm

open Consensus (Pubkey DagBlock)
open Database (Account)
open TaoDag.Runtime (Env Bank BankError BankM TxOutcome ProcessingResult transferEnv)

/-- One execution in a replay: the transaction, the bank it met, and its outcome. -/
structure Execution (Tx : Type) where
  tx : Tx
  before : Bank
  outcome : TxOutcome

/-- The SVM ran the transaction to its end: its effects are committed. -/
def Succeeds : ProcessingResult → Prop
  | .executed _ _ _ (.ok ()) => True
  | _ => False

namespace DagChain

variable {Tx : Type} {env : Env Tx}

/-- `replay_txs` with its log. -/
def executeTxs (env : Env Tx) : Bank → List Tx → BankM (List (Execution Tx) × Bank)
  | bank, [] => return ([], bank)
  | bank, tx :: rest => do
      let (outcome, after) ← bank.executeTransaction env tx envBlockhash
      let (log, last) ← executeTxs env after rest
      return (⟨tx, bank, outcome⟩ :: log, last)

/-- The body of a block as the replay runs it. -/
def bodyOf (c : DagChain Tx) (block : Hash) : List Tx :=
  if block = c.genesisDag then [] else (c.blockTxs.lookup block).getD []

/-- `replay_block` with its log. -/
def executeBlock (env : Env Tx) (c : DagChain Tx) (bank : Bank) (block : Hash) :
    BankM (List (Execution Tx) × Bank) :=
  if block = c.genesisDag then return ([], bank)
  else do
    let bank ← c.replayCoinbase env bank block
    executeTxs env bank ((c.blockTxs.lookup block).getD [])

/-- `replay_blocks` with its log. -/
def executeBlocks (env : Env Tx) (c : DagChain Tx) :
    Bank → List Hash → BankM (List (Execution Tx) × Bank)
  | bank, [] => return ([], bank)
  | bank, block :: rest => do
      let (log, after) ← c.executeBlock env bank block
      let (log', last) ← c.executeBlocks env after rest
      return (log ++ log', last)

/-- The transactions in the bodies of the blocks, in the order of the blocks. -/
def txsAlong (c : DagChain Tx) (blocks : List Hash) : List Tx := blocks.flatMap c.bodyOf

/-- An execution as the SVM decides it. -/
def Execution.Faithful (env : Env Tx) (e : Execution Tx) : Prop :=
  e.outcome.succeeded = true ↔ Succeeds (env.svm envBlockhash e.before.db.get e.tx)

theorem applyResult_succeeded (bank : Bank) (tx : Tx) (r : ProcessingResult) :
    (bank.applyResult env tx r).1.succeeded = true ↔ Succeeds r := by
  cases r with
  | executed accounts rollbackAccounts fee status =>
    cases status with
    | ok u => simp [Bank.applyResult, Succeeds]
    | error e => simp [Bank.applyResult, Succeeds]
  | feesOnly rollbackAccounts fee loadError => simp [Bank.applyResult, Succeeds]
  | notProcessed error => simp [Bank.applyResult, Succeeds]

theorem executeTransaction_outcome {bank bank' : Bank} {tx : Tx} {blockhash : Bytes32}
    {outcome : TxOutcome}
    (h : (bank.executeTransaction env tx blockhash).run = .ok (.ok (outcome, bank'))) :
    outcome.succeeded = true ↔ Succeeds (env.svm blockhash bank.db.get tx) := by
  rw [Bank.executeTransaction] at h
  cases hv : env.verify tx with
  | error e =>
    rw [hv] at h
    cases h
  | ok u =>
    simp only [hv] at h
    by_cases hs : env.sanitizes tx = true
    · rw [assert, if_pos hs] at h
      have hres : bank.applyResult env tx (env.svm blockhash bank.db.get tx) = (outcome, bank') :=
        Except.ok.inj (Except.ok.inj h)
      have hsucc : (bank.applyResult env tx (env.svm blockhash bank.db.get tx)).1.succeeded = true ↔
          Succeeds (env.svm blockhash bank.db.get tx) := applyResult_succeeded bank tx _
      rwa [hres] at hsucc
    · rw [assert, if_neg hs] at h
      cases h

/-- The log of a replay that returns: it is about the transactions of the bodies, each as the SVM
decided it. -/
theorem executeTxs_spec {bank bank' : Bank} {txs : List Tx}
    (h : (replayTxs env bank txs).run = .ok (.ok bank')) :
    ∃ log, (executeTxs env bank txs).run = .ok (.ok (log, bank')) ∧
      log.map (·.tx) = txs ∧ ∀ e ∈ log, Execution.Faithful env e := by
  induction txs generalizing bank with
  | nil =>
    cases h
    exact ⟨[], rfl, rfl, by simp⟩
  | cons tx txs ih =>
    rw [replayTxs] at h
    obtain ⟨⟨outcome, after⟩, htx, hrest⟩ := Runtime.run_bind_eq_ok.mp h
    obtain ⟨log, hlog, htxs, hfaith⟩ := ih hrest
    refine ⟨⟨tx, bank, outcome⟩ :: log, ?_, by simp [htxs], ?_⟩
    · rw [executeTxs]
      exact Runtime.run_bind_eq_ok.mpr ⟨_, htx, Runtime.run_bind_eq_ok.mpr ⟨_, hlog, rfl⟩⟩
    · intro e he
      rcases List.mem_cons.mp he with rfl | he
      · exact executeTransaction_outcome htx
      · exact hfaith e he

theorem executeBlock_spec {c : DagChain Tx} {bank bank' : Bank} {block : Hash}
    (h : (c.replayBlock env bank block).run = .ok (.ok bank')) :
    ∃ log, (c.executeBlock env bank block).run = .ok (.ok (log, bank')) ∧
      log.map (·.tx) = c.bodyOf block ∧ ∀ e ∈ log, Execution.Faithful env e := by
  by_cases hg : block = c.genesisDag
  · rw [replayBlock, if_pos hg] at h
    cases h
    exact ⟨[], by rw [executeBlock, if_pos hg]; rfl, by simp [bodyOf, hg], by simp⟩
  · rw [replayBlock, if_neg hg] at h
    obtain ⟨paid, hpaid, htxs⟩ := Runtime.run_bind_eq_ok.mp h
    obtain ⟨log, hlog, hmap, hfaith⟩ := executeTxs_spec htxs
    refine ⟨log, ?_, by rw [hmap, bodyOf, if_neg hg], hfaith⟩
    rw [executeBlock, if_neg hg]
    exact Runtime.run_bind_eq_ok.mpr ⟨_, hpaid, hlog⟩

theorem executeBlocks_spec {c : DagChain Tx} {bank bank' : Bank} {blocks : List Hash}
    (h : (c.replayBlocks env bank blocks).run = .ok (.ok bank')) :
    ∃ log, (c.executeBlocks env bank blocks).run = .ok (.ok (log, bank')) ∧
      log.map (·.tx) = c.txsAlong blocks ∧ ∀ e ∈ log, Execution.Faithful env e := by
  induction blocks generalizing bank with
  | nil =>
    cases h
    exact ⟨[], rfl, rfl, by simp⟩
  | cons block blocks ih =>
    rw [replayBlocks, List.foldlM_cons] at h
    obtain ⟨after, hb, hrest⟩ := Runtime.run_bind_eq_ok.mp h
    obtain ⟨log, hlog, hmap, hfaith⟩ := executeBlock_spec hb
    obtain ⟨log', hlog', hmap', hfaith'⟩ := ih hrest
    refine ⟨log ++ log', ?_, ?_, ?_⟩
    · rw [executeBlocks]
      exact Runtime.run_bind_eq_ok.mpr ⟨_, hlog, Runtime.run_bind_eq_ok.mpr ⟨_, hlog', rfl⟩⟩
    · rw [List.map_append, hmap, hmap', txsAlong, txsAlong, List.flatMap_cons]
    · intro e he
      rcases List.mem_append.mp he with he | he
      · exact hfaith e he
      · exact hfaith' e he

/-- Where history is kept, the state is the replay of the total order. -/
theorem rebuildState_eq {c : DagChain Tx} {order : List Hash} (h : c.totalOrder = .ok order)
    (hp : ¬(c.historyPruned ∧ c.baseAccounts.isNone)) :
    (c.rebuildState env).run = (c.replayBlocks env (c.freshBank env) order).run := by
  rw [rebuildState, if_neg hp, h]
  rfl

/-- How often a transaction's effects are applied in a replay. -/
def timesApplied [DecidableEq Tx] (log : List (Execution Tx)) (tx : Tx) : Nat :=
  log.countP fun e => e.tx = tx ∧ e.outcome.succeeded = true

/-- How often the blocks contain a transaction. -/
def occurrences [DecidableEq Tx] (c : DagChain Tx) (blocks : List Hash) (tx : Tx) : Nat :=
  (c.txsAlong blocks).count tx

theorem timesApplied_le [DecidableEq Tx] {c : DagChain Tx} {blocks : List Hash}
    {log : List (Execution Tx)} (h : log.map (·.tx) = c.txsAlong blocks) (tx : Tx) :
    timesApplied log tx ≤ c.occurrences blocks tx := by
  rw [occurrences, ← h, List.count, List.countP_map]
  refine List.countP_mono_left fun e _ he => ?_
  simp only [decide_eq_true_eq] at he
  simpa using he.1

/-- A transaction that succeeds at each of its executions is applied as often as it occurs. -/
theorem timesApplied_eq [DecidableEq Tx] {c : DagChain Tx} {blocks : List Hash}
    {log : List (Execution Tx)} (h : log.map (·.tx) = c.txsAlong blocks) {tx : Tx}
    (hs : ∀ e ∈ log, e.tx = tx → e.outcome.succeeded = true) :
    timesApplied log tx = c.occurrences blocks tx := by
  rw [occurrences, ← h, List.count, List.countP_map]
  refine List.countP_congr fun e he => ?_
  have hse := hs e he
  simp only [decide_eq_true_eq, Function.comp_apply, beq_iff_eq]
  exact ⟨fun h => h.1, fun h => ⟨h, hse h⟩⟩

/-- Replay protection. Whatever the SVM is, a replay that returns applies a transaction at most
once if the bodies of the blocks contain it at most once; for a transfer that is funded each time
it comes up, and that the SVM therefore runs, only then. -/
theorem replay_applies_once_iff [DecidableEq Tx] (env : Env Tx)
    (Funded : (Pubkey → Option Account) → Tx → Prop)
    (hsvm : ∀ load tx, Funded load tx → Succeeds (env.svm envBlockhash load tx))
    (c : DagChain Tx) (bank bank' : Bank) (blocks : List Hash) (tx : Tx)
    (h : (c.replayBlocks env bank blocks).run = .ok (.ok bank')) :
    ∃ log, (c.executeBlocks env bank blocks).run = .ok (.ok (log, bank')) ∧
      (c.occurrences blocks tx ≤ 1 → timesApplied log tx ≤ 1) ∧
      ((∀ e ∈ log, e.tx = tx → Funded e.before.db.get tx) →
        (timesApplied log tx ≤ 1 ↔ c.occurrences blocks tx ≤ 1)) := by
  obtain ⟨log, hlog, hmap, hfaith⟩ := executeBlocks_spec h
  refine ⟨log, hlog, fun hocc => (timesApplied_le hmap tx).trans hocc, fun hfunded => ?_⟩
  have hall : ∀ e ∈ log, e.tx = tx → e.outcome.succeeded = true := by
    intro e he htx
    refine (hfaith e he).mpr ?_
    rw [htx]
    exact hsvm _ _ (hfunded e he htx)
  rw [timesApplied_eq hmap hall]

end DagChain

/-- A signed transfer of 2 SOL, the payer's whole message. -/
def signedTransfer : Runtime.Transaction where
  signatures := [beBytes 64 4802796629167721170400100180644238476264286304587451355610321379498090531578000339683720750578203280106278648819849311442196305760272247792180268200200971]
  numRequiredSignatures := 1
  numReadonlySigned := 0
  numReadonlyUnsigned := 1
  accountKeys := [0x8a88e3dd7409f195fd52db2d3cba5d72ca6709bf1d94121bf3748801b40f6f5c,
    0x8139770ea87d175f56a35466c34c7ecccb8d8a91b4ee37a25df60f5b8fc9b394, 0]
  recentBlockhash := envBlockhash
  instructions := [⟨2, [0, 1], [2, 0, 0, 0] ++ leBytes 8 2000000000⟩]

/-- An easy chain on which the payer has 10 SOL. -/
def fundedParams : Params :=
  { easyParams with
    allocations :=
      [(0x8a88e3dd7409f195fd52db2d3cba5d72ca6709bf1d94121bf3748801b40f6f5c, 10000000000)] }

/-- A child of genesis that contains the transfer `n` times. -/
def transferBlock (n : Nat) : DagBlock :=
  easyChild (List.replicate n (Runtime.Transaction.codec.encode signedTransfer))

/-- A block with the transfer in it once: the replay returns, and applies it at most once. -/
theorem replay_applies_once_single :
    ∃ c₀ c order bank log, DagChain.openWithGenesis transferEnv fundedParams [] = .ok (.ok c₀) ∧
      c₀.accept transferEnv none 1750000000 (transferBlock 1) = .ok (.ok (), c) ∧
      c.totalOrder = .ok order ∧
      (c.executeBlocks transferEnv (c.freshBank transferEnv) order).run = .ok (.ok (log, bank)) ∧
      DagChain.timesApplied log signedTransfer ≤ 1 := by
  have hrun : returnsWith (DagChain.openWithGenesis transferEnv fundedParams []) (fun o =>
      returnsWith o fun c₀ =>
        returnsWith (c₀.accept transferEnv none 1750000000 (transferBlock 1)) fun p =>
          returnsWith p.1 fun _ => returnsWith p.2.totalOrder fun order =>
            decide (p.2.occurrences order signedTransfer ≤ 1) &&
            returnsWith (p.2.replayBlocks transferEnv (p.2.freshBank transferEnv) order).run
              fun r => returnsWith r fun _ => true) = true := by decide +kernel
  obtain ⟨_, hopen, ho⟩ := returnsWith_iff.mp hrun
  obtain ⟨c₀, rfl, hc⟩ := returnsWith_iff.mp ho
  obtain ⟨⟨_, c⟩, hacc, hr⟩ := returnsWith_iff.mp hc
  obtain ⟨_, rfl, hr⟩ := returnsWith_iff.mp hr
  obtain ⟨order, horder, hr⟩ := returnsWith_iff.mp hr
  obtain ⟨hocc, hr⟩ := (Bool.and_eq_true _ _).mp hr
  obtain ⟨_, hreplay, hr⟩ := returnsWith_iff.mp hr
  obtain ⟨bank, rfl, _⟩ := returnsWith_iff.mp hr
  obtain ⟨log, hlog, honce, _⟩ := DagChain.replay_applies_once_iff transferEnv
    (fun load tx => Succeeds (transferEnv.svm envBlockhash load tx)) (fun _ _ h => h) c
    (c.freshBank transferEnv) bank order signedTransfer hreplay
  exact ⟨c₀, c, order, bank, log, hopen, hacc, horder, hlog, honce (of_decide_eq_true hocc)⟩

/-- A block that contains the transfer twice is accepted, and the state pays for both. -/
theorem replay_applies_twice :
    ∃ c₀ c order bank log, DagChain.openWithGenesis transferEnv fundedParams [] = .ok (.ok c₀) ∧
      c₀.accept transferEnv none 1750000000 (transferBlock 2) = .ok (.ok (), c) ∧
      c.totalOrder = .ok order ∧ (c.rebuildState transferEnv).run = .ok (.ok bank) ∧
      (c.executeBlocks transferEnv (c.freshBank transferEnv) order).run = .ok (.ok (log, bank)) ∧
      DagChain.timesApplied log signedTransfer = 2 ∧
      bank.balance 0x8a88e3dd7409f195fd52db2d3cba5d72ca6709bf1d94121bf3748801b40f6f5c =
        10000000000 - 2 * (2000000000 + 5000) := by
  have hrun : returnsWith (DagChain.openWithGenesis transferEnv fundedParams []) (fun o =>
      returnsWith o fun c₀ =>
        returnsWith (c₀.accept transferEnv none 1750000000 (transferBlock 2)) fun p =>
          returnsWith p.1 fun _ => returnsWith p.2.totalOrder fun order => !p.2.historyPruned &&
            (returnsWith (p.2.replayBlocks transferEnv (p.2.freshBank transferEnv) order).run
              fun r => returnsWith r fun bank =>
                bank.balance 0x8a88e3dd7409f195fd52db2d3cba5d72ca6709bf1d94121bf3748801b40f6f5c ==
                  10000000000 - 2 * (2000000000 + 5000)) &&
            returnsWith (p.2.executeBlocks transferEnv (p.2.freshBank transferEnv) order).run
              fun r => returnsWith r fun q => DagChain.timesApplied q.1 signedTransfer == 2) =
      true := by decide +kernel
  obtain ⟨_, hopen, ho⟩ := returnsWith_iff.mp hrun
  obtain ⟨c₀, rfl, hc⟩ := returnsWith_iff.mp ho
  obtain ⟨⟨_, c⟩, hacc, hr⟩ := returnsWith_iff.mp hc
  obtain ⟨_, rfl, hr⟩ := returnsWith_iff.mp hr
  obtain ⟨order, horder, hr⟩ := returnsWith_iff.mp hr
  simp only [Bool.and_eq_true, Bool.not_eq_true'] at hr
  obtain ⟨⟨hpruned, hreplay⟩, hlog⟩ := hr
  obtain ⟨_, hreplay, hr⟩ := returnsWith_iff.mp hreplay
  obtain ⟨bank, rfl, hbalance⟩ := returnsWith_iff.mp hr
  obtain ⟨_, hexec, hr⟩ := returnsWith_iff.mp hlog
  obtain ⟨⟨log, bank'⟩, rfl, htwice⟩ := returnsWith_iff.mp hr
  obtain ⟨log', hexec', -, -⟩ := DagChain.executeBlocks_spec hreplay
  rw [hexec] at hexec'
  cases hexec'
  refine ⟨c₀, c, order, bank, log, hopen, hacc, horder, ?_, hexec, ?_, ?_⟩
  · rw [DagChain.rebuildState_eq horder (by simp [hpruned]), hreplay]
  · simpa using htwice
  · simpa using hbalance

end TaoDag.Dagvm
