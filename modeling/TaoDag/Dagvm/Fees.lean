import TaoDag.Dagvm.Execution
import TaoDag.Runtime.Lamports

namespace TaoDag

open Consensus (DagBlock DagBlockHeader Pubkey)
open TaoDag.Runtime (Bank BankM Charges Env ProcessingResult Transaction transferEnv)

namespace Dagvm

variable {Tx : Type} {env : Env Tx}

namespace DagChain

/-- The fees of a replay leave the accounts and go nowhere. -/
theorem lamports_replayTxs {txs : List Tx} {bank bank' : Bank}
    (htakes : ∀ tx ∈ txs, Bank.TakesFee env tx) (hcharges : ∀ tx ∈ txs, Charges env tx)
    (h : (replayTxs env bank txs).run = .ok (.ok bank')) :
    bank'.lamports ≤ bank.lamports ∧ (bank'.lamports = bank.lamports ↔
      ∀ tx ∈ txs, ¬(env.svm envBlockhash bank.db.get tx).Processed) := by
  induction txs generalizing bank with
  | nil =>
    cases h
    exact ⟨le_rfl, by simp⟩
  | cons tx txs ih =>
    rw [replayTxs] at h
    obtain ⟨⟨outcome, after⟩, htx, hrest⟩ := Runtime.run_bind_eq_ok.mp h
    have hfee := Bank.lamports_executeTransaction (htakes tx (by simp)) htx
    obtain ⟨hle, hiff⟩ := ih (fun tx htx => htakes tx (by simp [htx]))
      (fun tx htx => hcharges tx (by simp [htx])) hrest
    refine ⟨by omega, ?_⟩
    by_cases hp : (env.svm envBlockhash bank.db.get tx).Processed
    · have hpos : outcome.fee.toNat ≠ 0 := by
        rw [Bank.executeTransaction_fee htx]
        exact fun hzero => hcharges tx (by simp) _ _ hp (BitVec.eq_of_toNat_eq hzero)
      constructor
      · intro heq
        omega
      · intro hnone
        exact absurd hp (hnone tx (by simp))
    · have hsame : after = bank := by
        rw [Bank.executeTransaction_ok htx, ProcessingResult.committed_of_not_processed hp]
        rfl
      rw [hsame] at hiff
      rw [hiff, List.forall_mem_cons]
      exact ⟨fun h => ⟨hp, h⟩, fun h => h.2⟩

theorem replayBlocks_singleton {c : DagChain Tx} {bank bank' : Bank} {block : Hash}
    (h : (c.replayBlocks env bank [block]).run = .ok (.ok bank')) :
    (c.replayBlock env bank block).run = .ok (.ok bank') := by
  rw [replayBlocks, List.foldlM_cons] at h
  obtain ⟨after, hblock, h⟩ := Runtime.run_bind_eq_ok.mp h
  cases h
  exact hblock

theorem replayCoinbase_eq {c : DagChain Tx} {block : Hash} {header : DagBlockHeader}
    (hheader : c.headers.lookup block = some header) (bank : Bank) :
    c.replayCoinbase env bank block = return bank.airdrop env header.miner c.reward := by
  rw [replayCoinbase]
  by_cases hreward : c.reward = 0
  · rw [if_pos hreward, hreward, Bank.airdrop, Bank.credit, if_pos rfl]
  · rw [if_neg hreward, hheader]

/-- The replay of a block pays the reward, and no fee: the sum grows by the reward exactly when
the SVM processes none of its transactions on the accounts that hold the reward. -/
theorem lamports_replayBlock {c : DagChain Tx} {bank bank' : Bank} {block : Hash}
    {header : DagBlockHeader} {txs : List Tx} (hheader : c.headers.lookup block = some header)
    (hne : block ≠ c.genesisDag) (hbody : (c.blockTxs.lookup block).getD [] = txs)
    (htakes : ∀ tx ∈ txs, Bank.TakesFee env tx) (hcharges : ∀ tx ∈ txs, Charges env tx)
    (hfits : bank.lamports + c.reward.toNat < 2^64)
    (h : (c.replayBlocks env bank [block]).run = .ok (.ok bank')) :
    bank'.lamports = bank.lamports + c.reward.toNat ↔ ∀ tx ∈ txs,
      ¬(env.svm envBlockhash (bank.airdrop env header.miner c.reward).db.get tx).Processed := by
  have hblock := replayBlocks_singleton h
  rw [replayBlock, if_neg hne, replayCoinbase_eq hheader, pure_bind, hbody] at hblock
  obtain ⟨_, hiff⟩ := lamports_replayTxs htakes hcharges hblock
  rw [← hiff, Bank.airdrop, Bank.lamports_credit bank header.miner hfits]

end DagChain

/-- Fees are conserved by `execute_block`, which pays them to the miner. A replay does not pay
them: it conserves the sum exactly for the blocks of which nothing is processed. -/
theorem fees_conserved_iff {txs : List Tx} (htakes : ∀ tx ∈ txs, Bank.TakesFee env tx) :
    (∀ {bank bank' : Bank} {blockhash : Bytes32} {miner : Pubkey} {reward : BitVec 64}
        {exec : Runtime.BlockExecution}, bank.lamports + reward.toNat < 2^64 →
      bank.executeBlock env txs blockhash miner reward = .ok (exec, bank') →
      bank'.lamports = bank.lamports + reward.toNat) ∧
    (∀ {c : DagChain Tx} {bank bank' : Bank} {block : Hash} {header : DagBlockHeader},
      c.headers.lookup block = some header → block ≠ c.genesisDag →
      (c.blockTxs.lookup block).getD [] = txs → bank.lamports + c.reward.toNat < 2^64 →
      (∀ tx ∈ txs, Charges env tx) →
      (c.replayBlocks env bank [block]).run = .ok (.ok bank') →
      (bank'.lamports = bank.lamports + c.reward.toNat ↔ ∀ tx ∈ txs,
        ¬(env.svm envBlockhash (bank.airdrop env header.miner c.reward).db.get tx).Processed)) :=
  ⟨fun hfits h => Bank.lamports_executeBlock htakes hfits h,
    fun hheader hne hbody hfits hcharges h =>
      DagChain.lamports_replayBlock hheader hne hbody htakes hcharges hfits h⟩

section Example

open DagChain

/-- Payer and receiver are writable, the system program is not. -/
theorem signedTransfer_fees : Bank.TakesFee transferEnv signedTransfer ∧
    Charges transferEnv signedTransfer :=
  ⟨Transaction.takesFee (by decide) (by decide) (by decide), Transaction.charges (by decide)⟩

/-- The tip of this chain after it has accepted a block with the transfer. -/
def transferTip (p : Params) : Option (DagChain Transaction × DagBlockHeader) :=
  match openWithGenesis transferEnv p [] with
  | .ok (.ok c₀) =>
      match c₀.accept transferEnv none 1750000000 (transferBlock 1) with
      | .ok (.ok (), c) => (c.headers.lookup c.engine.tip).map (c, ·)
      | _ => none
  | _ => none

/-- Where the payer has nothing, the transfer of the block is not processed. On a bank that funds
it, the miner gets its fee with the reward. -/
theorem fees_conserved_unfunded : ∃ (c : DagChain Transaction) (bank bank' funded after : Bank)
    (exec : Runtime.BlockExecution),
    (c.replayBlocks transferEnv bank [c.engine.tip]).run = .ok (.ok bank') ∧
    bank'.lamports = bank.lamports + c.reward.toNat ∧
    funded.executeBlock transferEnv [signedTransfer] envBlockhash 0 7 = .ok (exec, after) ∧
    exec.fees = 5000 ∧ after.lamports = funded.lamports + 7 := by
  have hrun : (transferTip { easyParams with reward := 50 }).any (fun (c, header) =>
      let bank := c.freshBank transferEnv
      decide (c.headers.lookup c.engine.tip = some header ∧ c.engine.tip ≠ c.genesisDag ∧
        (c.blockTxs.lookup c.engine.tip).getD [] = [signedTransfer] ∧
        bank.lamports + c.reward.toNat < 2^64 ∧
        ¬(transferEnv.svm envBlockhash
          (bank.airdrop transferEnv header.miner c.reward).db.get signedTransfer).Processed) &&
      returnsWith (c.replayBlocks transferEnv bank [c.engine.tip]).run fun o =>
        returnsWith o fun bank' =>
          let funded := bank'.airdrop transferEnv (signedTransfer.accountKeys.headD 0) 10000000000
          decide (funded.lamports + (7 : BitVec 64).toNat < 2^64) &&
          returnsWith (funded.executeBlock transferEnv [signedTransfer] envBlockhash 0 7)
            fun r => decide (r.1.fees = 5000)) = true := by
    decide +kernel
  simp only [returnsWith_iff, Option.any_eq_true, Bool.and_eq_true, decide_eq_true_eq] at hrun
  obtain ⟨⟨c, header⟩, _, ⟨hheader, hne, hbody, hfits, hnone⟩, _, hreplay, bank', rfl, hfits',
    ⟨exec, after⟩, hexec, hfees⟩ := hrun
  obtain ⟨hblock, hreplays⟩ := @fees_conserved_iff _ transferEnv [signedTransfer]
    (by simpa using signedTransfer_fees.1)
  refine ⟨c, _, bank', _, after, exec, hreplay, ?_, hexec, hfees, hblock hfits' hexec⟩
  refine (hreplays hheader hne hbody hfits ?_ hreplay).mpr ?_
  · simpa using signedTransfer_fees.2
  · simpa using hnone

/-- A funded transfer pays its fee to nobody when the block is replayed. -/
theorem replay_loses_fee : ∃ (c₀ c : DagChain Transaction) (bank bank' : Bank)
    (header : DagBlockHeader),
    openWithGenesis transferEnv { fundedParams with reward := 50 } [] = .ok (.ok c₀) ∧
    c₀.accept transferEnv none 1750000000 (transferBlock 1) = .ok (.ok (), c) ∧
    c.headers.lookup c.engine.tip = some header ∧ c.engine.tip ≠ c.genesisDag ∧
    c.blockTxs.lookup c.engine.tip = some [signedTransfer] ∧
    Bank.TakesFee transferEnv signedTransfer ∧ bank = c.freshBank transferEnv ∧
    bank.lamports + c.reward.toNat < 2^64 ∧
    (c.replayBlocks transferEnv bank [c.engine.tip]).run = .ok (.ok bank') ∧
    bank'.lamports + 5000 = bank.lamports + c.reward.toNat := by
  have hrun : returnsWith (openWithGenesis transferEnv { fundedParams with reward := 50 } [])
      (fun o => returnsWith o fun c₀ =>
        returnsWith (c₀.accept transferEnv none 1750000000 (transferBlock 1)) fun r =>
          let c := r.2
          let bank := c.freshBank transferEnv
          returnsWith r.1 fun _ => (c.headers.lookup c.engine.tip).any fun _ =>
            decide (c.engine.tip ≠ c.genesisDag ∧
              c.blockTxs.lookup c.engine.tip = some [signedTransfer] ∧
              bank.lamports + c.reward.toNat < 2^64) &&
            returnsWith (c.replayBlocks transferEnv bank [c.engine.tip]).run fun o =>
              returnsWith o fun bank' =>
                decide (bank'.lamports + 5000 = bank.lamports + c.reward.toNat)) = true := by
    decide +kernel
  simp only [returnsWith_iff, Option.any_eq_true, Bool.and_eq_true, decide_eq_true_eq] at hrun
  obtain ⟨_, hopen, c₀, rfl, ⟨_, c⟩, haccept, _, rfl, header, hheader, ⟨hne, hbody, hfits⟩, _,
    hreplay, bank', rfl, hlost⟩ := hrun
  exact ⟨c₀, c, _, bank', header, hopen, haccept, hheader, hne, hbody, signedTransfer_fees.1, rfl,
    hfits, hreplay, hlost⟩

end Example

end Dagvm

end TaoDag
