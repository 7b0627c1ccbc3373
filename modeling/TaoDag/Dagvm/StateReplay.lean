import TaoDag.Dagvm.State
import TaoDag.Runtime.BankState

namespace TaoDag.Dagvm.DagChain

open Consensus (Pubkey)
open Database (Account AccountsDb)
open TaoDag.Runtime (Bank BankError BankM Env SameOutcome run_bind_eq_ok run_bind_of_ok
  foldlM_invariant)
open TaoDag.Runtime.Bank (KeepsInstalled Restorable Same)

variable {Tx : Type} {env : Env Tx} {c d : DagChain Tx} {a b bank bank' : Bank}

theorem replayBlocks_append (l l' : List Hash) :
    c.replayBlocks env bank (l ++ l') =
      c.replayBlocks env bank l >>= fun b => c.replayBlocks env b l' := List.foldlM_append

/-- A replay goes on from where an earlier one ended. -/
theorem replayBlocks_from {l : List Hash} (l' : List Hash)
    (h : (c.replayBlocks env bank l).run = .ok (.ok bank')) :
    (c.replayBlocks env bank (l ++ l')).run = (c.replayBlocks env bank' l').run := by
  rw [replayBlocks_append]
  exact run_bind_of_ok h

/-- A replay reads the header and, but of the origin, the body of each of its blocks. -/
theorem replayBlocks_congr {l : List Hash} (hgenesis : d.genesisDag = c.genesisDag)
    (hreward : d.reward = c.reward)
    (hheaders : ∀ x ∈ l, d.headers.lookup x = c.headers.lookup x)
    (hbodies : ∀ x ∈ l, x ≠ c.genesisDag → d.blockTxs.lookup x = c.blockTxs.lookup x) :
    d.replayBlocks env bank l = c.replayBlocks env bank l := by
  induction l generalizing bank with
  | nil => rfl
  | cons x l ih =>
    have hx : d.replayBlock env bank x = c.replayBlock env bank x := by
      rw [replayBlock, replayBlock, hgenesis]
      by_cases hx : x = c.genesisDag
      · rw [if_pos hx, if_pos hx]
      · rw [if_neg hx, if_neg hx, replayCoinbase, replayCoinbase, hreward,
          hheaders x List.mem_cons_self, hbodies x List.mem_cons_self hx]
    rw [replayBlocks, replayBlocks, List.foldlM_cons, List.foldlM_cons, hx]
    refine congrArg _ (funext fun bank => ?_)
    exact ih (fun y hy => hheaders y (List.mem_cons_of_mem _ hy))
      fun y hy => hbodies y (List.mem_cons_of_mem _ hy)

section Same

theorem Same.replayTxs (h : Same a b) (txs : List Tx) :
    SameOutcome Same (DagChain.replayTxs env a txs).run (DagChain.replayTxs env b txs).run := by
  induction txs generalizing a b with
  | nil => exact h
  | cons tx txs ih =>
    rw [DagChain.replayTxs, DagChain.replayTxs]
    exact (h.executeTransaction tx envBlockhash).bind fun r s hrs => ih hrs.2

theorem Same.replayCoinbase (h : Same a b) (block : Hash) :
    SameOutcome Same (c.replayCoinbase env a block).run (c.replayCoinbase env b block).run := by
  rw [DagChain.replayCoinbase, DagChain.replayCoinbase]
  split
  · exact h
  · cases c.headers.lookup block with
    | none => exact rfl
    | some header => exact Bank.Same.credit h header.miner c.reward

/-- A block does the same to the same accounts. -/
theorem Same.replayBlock (h : Same a b) (block : Hash) :
    SameOutcome Same (c.replayBlock env a block).run (c.replayBlock env b block).run := by
  rw [DagChain.replayBlock, DagChain.replayBlock]
  split
  · exact h
  · exact (Same.replayCoinbase h block).bind fun a b hab => Same.replayTxs hab _

theorem Same.replayBlocks (h : Same a b) (l : List Hash) :
    SameOutcome Same (c.replayBlocks env a l).run (c.replayBlocks env b l).run :=
  SameOutcome.foldlM (fun block _ _ hab => Same.replayBlock hab block) l h

end Same

section Restorable

variable (hsvm : KeepsInstalled env)
include hsvm

theorem Restorable.replayTxs (h : Restorable env bank) {txs : List Tx}
    (hrun : (DagChain.replayTxs env bank txs).run = .ok (.ok bank')) : Restorable env bank' := by
  induction txs generalizing bank with
  | nil =>
    cases hrun
    exact h
  | cons tx txs ih =>
    obtain ⟨⟨outcome, after⟩, htx, hrun⟩ := run_bind_eq_ok.mp hrun
    exact ih (h.executeTransaction hsvm htx) hrun

theorem Restorable.replayBlock (h : Restorable env bank) {block : Hash}
    (hrun : (c.replayBlock env bank block).run = .ok (.ok bank')) : Restorable env bank' := by
  rw [DagChain.replayBlock] at hrun
  split at hrun
  · cases hrun
    exact h
  · obtain ⟨paid, hpaid, hrun⟩ := run_bind_eq_ok.mp hrun
    have hrestorable : Restorable env paid := by
      rw [DagChain.replayCoinbase] at hpaid
      split at hpaid
      · cases hpaid
        exact h
      · cases hheader : c.headers.lookup block with
        | none =>
          rw [hheader] at hpaid
          cases hpaid
        | some header =>
          rw [hheader] at hpaid
          cases hpaid
          exact h.credit header.miner c.reward
    exact Restorable.replayTxs hsvm hrestorable hrun

/-- A replay leaves a bank that a snapshot restores. -/
theorem Restorable.replayBlocks (h : Restorable env bank) {l : List Hash}
    (hrun : (c.replayBlocks env bank l).run = .ok (.ok bank')) : Restorable env bank' :=
  foldlM_invariant (fun _ _ _ hb hblock => Restorable.replayBlock hsvm hb hblock) l h hrun

end Restorable

/-- A store that a chain seeds with no empty account. -/
def FundedGenesis (env : Env Tx) (c : DagChain Tx) : Prop :=
  ∀ key account, (c.seedAccounts env).get key = some account → account.isPurged = false

theorem exact_seedAccounts : (c.seedAccounts env).Exact env.blake3 := by
  rw [seedAccounts]
  cases c.baseAccounts with
  | some base => exact AccountsDb.exact_empty.commit base
  | none =>
    have hfold : ∀ (l : List (Pubkey × BitVec 64)) (db : AccountsDb), db.Exact env.blake3 →
        (l.foldl (fun db p => db.set env.blake3 p.1
          (Account.new p.2 0 Runtime.Ids.systemProgram)) db).Exact env.blake3 := by
      intro l
      induction l with
      | nil => exact fun db h => h
      | cons p l ih => exact fun db h => ih _ (h.set _ _)
    exact hfold c.allocations _ AccountsDb.exact_empty

/-- A base account set is committed, so that none of its empty accounts is kept. -/
theorem fundedGenesis_of_base (h : c.baseAccounts.isSome) : FundedGenesis env c := by
  obtain ⟨base, hbase⟩ := Option.isSome_iff_exists.mp h
  intro key account hget
  rw [seedAccounts, hbase] at hget
  have hfold : ∀ (l : List (Pubkey × Account)) (db : AccountsDb),
      (∀ key account, db.get key = some account → account.isPurged = false) →
      ∀ key account, (db.commit env.blake3 l).get key = some account →
        account.isPurged = false := by
    intro l
    induction l with
    | nil => exact fun db h => h
    | cons change l ih =>
      intro db h
      refine ih _ fun key account hget => ?_
      rw [AccountsDb.get_commitOne] at hget
      split at hget
      · rw [AccountsDb.kept] at hget
        split at hget
        · cases hget
        · cases hget
          rename_i hpurged
          simpa using hpurged
      · exact h key account hget
  exact hfold base _ (fun key account hempty => by simp at hempty) key account hget

/-- A chain whose allocations are all above zero. -/
theorem fundedGenesis_of_allocations (hbase : c.baseAccounts = none)
    (h : ∀ p ∈ c.allocations, p.2 ≠ 0) : FundedGenesis env c := by
  intro key account hget
  rw [seedAccounts, hbase] at hget
  have hfold : ∀ (l : List (Pubkey × BitVec 64)) (db : AccountsDb), (∀ p ∈ l, p.2 ≠ 0) →
      (∀ key account, db.get key = some account → account.isPurged = false) →
      ∀ key account, (l.foldl (fun db p => db.set env.blake3 p.1
        (Account.new p.2 0 Runtime.Ids.systemProgram)) db).get key = some account →
        account.isPurged = false := by
    intro l
    induction l with
    | nil => exact fun db _ h => h
    | cons p l ih =>
      intro db hl h
      refine ih _ (fun q hq => hl q (List.mem_cons_of_mem p hq)) fun key account hget => ?_
      rw [AccountsDb.get_set] at hget
      split at hget
      · cases hget
        have hfunded : (p.2 == 0) = false := beq_eq_false_iff_ne.mpr (hl p List.mem_cons_self)
        exact Bool.and_eq_false_iff.mpr (Or.inl hfunded)
      · exact h key account hget
  exact hfold _ _ h (fun key account hempty => by simp at hempty) key account hget

theorem FundedGenesis.freshBank (h : FundedGenesis env c) : Restorable env (c.freshBank env) :=
  Restorable.new exact_seedAccounts h

/-- The bank of a checkpoint has the accounts of the bank it was made from. -/
theorem same_restoreCheckpoint (h : Restorable env bank) {cp : Checkpoint}
    (haccounts : cp.accounts = bank.db.dump) :
    Same (c.restoreCheckpoint env cp) bank ∧ (c.restoreCheckpoint env cp).db.Exact env.blake3 := by
  rw [restoreCheckpoint, haccounts]
  exact ⟨h.restore, (Bank.exact_new AccountsDb.exact_empty 0).commit _⟩

end TaoDag.Dagvm.DagChain
