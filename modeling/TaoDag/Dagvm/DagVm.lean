import TaoDag.Dagvm.Fees

namespace TaoDag

open Consensus (Pubkey)
open Database (Account AccountsDb)
open Ghostdag (DagEngine)
open Reachability
open TaoDag.Runtime (Bank BankError Charges Env Transaction transferEnv)

namespace Database.AccountsDb

/-- The sum is one of what the accounts hold, not of how they are stored. -/
theorem Same.lamports {a b : AccountsDb} (h : a.Same b) : a.lamports = b.lamports := by
  have hperm : a.accounts.entries.Perm b.accounts.entries := by
    refine List.lookup_ext a.accounts.nodupKeys b.accounts.nodupKeys fun key account => ?_
    have hkey : a.accounts.entries.dlookup key = b.accounts.entries.dlookup key := h key
    rw [hkey]
  rw [AccountsDb.lamports, AccountsDb.lamports]
  exact (hperm.map _).sum_eq

end Database.AccountsDb

namespace Runtime.SameOutcome

variable {α β : Type} {R : α → β → Prop} {y : Result (Except BankError β)}

theorem ok_left {a : α} (h : SameOutcome R (.ok (.ok a)) y) : ∃ b, y = .ok (.ok b) ∧ R a b := by
  rcases y with f | e | b
  · exact h.elim
  · exact h.elim
  · exact ⟨b, rfl, h⟩

theorem error_left {e : BankError} (h : SameOutcome R (.ok (.error e)) y) : y = .ok (.error e) := by
  rcases y with f | e' | b
  · exact h.elim
  · cases h
    rfl
  · exact h.elim

end Runtime.SameOutcome

namespace Dagvm

variable {Tx : Type} {env : Env Tx}

/-- A blockDAG with transactions, executed through the SVM in GHOSTDAG order. -/
structure DagVm (Tx : Type) where
  engine : DagEngine
  bank : Bank
  blockTxs : BlockHashMap (List Tx)

namespace DagVm

/-- A DAG of the genesis block alone, over these accounts. -/
def new (env : Env Tx) (k : Nat) (genesis : Hash) (accounts : AccountsDb) : Result (DagVm Tx) := do
  let bank := Bank.new env accounts 0
  let engine ← DagEngine.new k genesis
  let engine ← engine.addBlock env.fractions genesis [blockhash.origin]
  return ⟨engine, bank, ∅⟩

/-- Adds a block with these parents, which carries transactions. -/
def addBlock (env : Env Tx) (vm : DagVm Tx) (hash : Hash) (parents : List Hash)
    (transactions : List Tx) : Result (DagVm Tx) := do
  let engine ← vm.engine.addBlock env.fractions hash parents
  return { vm with
    engine
    blockTxs := if transactions.isEmpty then vm.blockTxs else vm.blockTxs.insert hash transactions }

def totalOrder (vm : DagVm Tx) : Result (List Hash) := vm.engine.totalOrder

/-- The transactions of the blocks, in their order. -/
def linearTxs (vm : DagVm Tx) (order : List Hash) : List Tx :=
  order.flatMap fun block => (vm.blockTxs.lookup block).getD []

/-- Executes transactions in order. An error of one ends the loop; the bank keeps what the ones
before it wrote. -/
def executeTxs (env : Env Tx) (blockhash : Bytes32) :
    Bank → List Tx → Result (Except BankError Unit × Bank)
  | bank, [] => return (.ok (), bank)
  | bank, tx :: rest => do
      match ← (bank.executeTransaction env tx blockhash).run with
      | .ok (_, bank) => executeTxs env blockhash bank rest
      | .error e => return (.error e, bank)

/-- Executes the transactions of every block in the linear order, on the bank as it is. -/
def executeLinear (env : Env Tx) (vm : DagVm Tx) (envBlockhash : Bytes32) :
    Result (Except BankError Hash × DagVm Tx) := do
  let order ← vm.totalOrder
  let (r, bank) ← executeTxs env envBlockhash vm.bank (vm.linearTxs order)
  return (r.map fun _ => bank.stateRoot env, { vm with bank })

/-- The transactions that the SVM processes in `execute_txs`. -/
def processedTxs (env : Env Tx) (blockhash : Bytes32) : Bank → List Tx → List Tx
  | _, [] => []
  | bank, tx :: rest =>
      match (bank.executeTransaction env tx blockhash).run with
      | .ok (.ok (_, after)) =>
          if (env.svm blockhash bank.db.get tx).Processed
          then tx :: processedTxs env blockhash after rest
          else processedTxs env blockhash after rest
      | _ => []

/-- The transactions that an `execute_linear` call has the SVM process. -/
def processed (env : Env Tx) (vm : DagVm Tx) (envBlockhash : Bytes32) : List Tx :=
  match vm.totalOrder with
  | .ok order => processedTxs env envBlockhash vm.bank (vm.linearTxs order)
  | .error _ => []

/-- A call of `add_block`. -/
structure Added (Tx : Type) where
  hash : Hash
  parents : List Hash
  transactions : List Tx

def addAll (env : Env Tx) (vm : DagVm Tx) (blocks : List (Added Tx)) : Result (DagVm Tx) :=
  blocks.foldlM (fun vm b => vm.addBlock env b.hash b.parents b.transactions) vm

/-- Interleaved calls, with the blocks added and the transactions processed so far. Each
`execute_linear` call meets a condition on the state before it. -/
inductive Run (env : Env Tx) (P : DagVm Tx → Prop) (start : DagVm Tx) :
    List (Added Tx) → List Tx → DagVm Tx → Prop
  | new : Run env P start [] [] start
  | addBlock {added : List (Added Tx)} {ran : List Tx} {vm vm' : DagVm Tx} {b : Added Tx}
      (before : Run env P start added ran vm)
      (run : vm.addBlock env b.hash b.parents b.transactions = .ok vm') :
      Run env P start (added ++ [b]) ran vm'
  | executeLinear {added : List (Added Tx)} {ran : List Tx} {vm vm' : DagVm Tx}
      {envBlockhash : Bytes32} {r : Except BankError Hash}
      (before : Run env P start added ran vm) (holds : P vm)
      (run : vm.executeLinear env envBlockhash = .ok (r, vm')) :
      Run env P start added (ran ++ vm.processed env envBlockhash) vm'

variable {P : DagVm Tx → Prop} {start vm vm' fresh : DagVm Tx} {added : List (Added Tx)}
  {ran : List Tx}

/-- Two machines over one DAG. -/
structure SameDag (vm fresh : DagVm Tx) : Prop where
  engine : vm.engine = fresh.engine
  blockTxs : vm.blockTxs = fresh.blockTxs

theorem executeLinear_dag {envBlockhash : Bytes32} {r : Except BankError Hash}
    (h : vm.executeLinear env envBlockhash = .ok (r, vm')) : SameDag vm' vm := by
  obtain ⟨order, _, h⟩ := bind_eq_ok.mp h
  obtain ⟨⟨v, bank⟩, _, h⟩ := bind_eq_ok.mp h
  cases h
  exact ⟨rfl, rfl⟩

theorem SameDag.addBlock (h : SameDag vm fresh) {b : Added Tx}
    (hrun : vm.addBlock env b.hash b.parents b.transactions = .ok vm') :
    ∃ fresh', fresh.addBlock env b.hash b.parents b.transactions = .ok fresh' ∧
      SameDag vm' fresh' ∧ vm'.bank = vm.bank ∧ fresh'.bank = fresh.bank := by
  obtain ⟨engine, hengine, hrun⟩ := bind_eq_ok.mp hrun
  cases hrun
  rw [h.engine] at hengine
  exact ⟨_, bind_eq_ok.mpr ⟨engine, hengine, rfl⟩, ⟨rfl, by simp only [h.blockTxs]⟩, rfl, rfl⟩

theorem addAll_append {b : Added Tx} (h : start.addAll env added = .ok vm)
    (hrun : vm.addBlock env b.hash b.parents b.transactions = .ok vm') :
    start.addAll env (added ++ [b]) = .ok vm' := by
  rw [addAll, List.foldlM_append]
  refine bind_eq_ok.mpr ⟨vm, h, ?_⟩
  rw [List.foldlM_cons]
  exact bind_eq_ok.mpr ⟨vm', hrun, rfl⟩

/-- The DAG is the one that the added blocks alone build, and the transactions are theirs. -/
theorem Run.sameDag (h : Run env P start added ran vm) :
    ∃ fresh, start.addAll env added = .ok fresh ∧ SameDag vm fresh ∧ fresh.bank = start.bank := by
  induction h with
  | new => exact ⟨start, rfl, ⟨rfl, rfl⟩, rfl⟩
  | addBlock _ run ih =>
    obtain ⟨fresh, hadded, hsame, hbank⟩ := ih
    obtain ⟨fresh', hrun, hsame', _, hbank'⟩ := hsame.addBlock run
    exact ⟨fresh', addAll_append hadded hrun, hsame', hbank'.trans hbank⟩
  | executeLinear _ _ run ih =>
    obtain ⟨fresh, hadded, hsame, hbank⟩ := ih
    have hdag := executeLinear_dag run
    exact ⟨fresh, hadded, ⟨hdag.engine.trans hsame.engine, hdag.blockTxs.trans hsame.blockTxs⟩,
      hbank⟩

/-- The transactions in the blocks that were added satisfy what all of those satisfy. -/
theorem Run.linearTxs {Q : Tx → Prop} (h : Run env P start added ran vm)
    (hstart : start.blockTxs = ∅) (hadded : ∀ b ∈ added, ∀ tx ∈ b.transactions, Q tx)
    (order : List Hash) : ∀ tx ∈ vm.linearTxs order, Q tx := by
  have hblocks : ∀ block txs, vm.blockTxs.lookup block = some txs → ∀ tx ∈ txs, Q tx := by
    induction h with
    | new => simp [hstart]
    | @addBlock added _ vm _ b _ run ih =>
      obtain ⟨engine, _, run⟩ := bind_eq_ok.mp run
      cases run
      have ih := ih fun b hb => hadded b (by simp [hb])
      intro block txs hlookup
      simp only at hlookup
      split at hlookup
      · exact ih block txs hlookup
      by_cases hblock : block = b.hash
      · rw [hblock, AList.lookup_insert] at hlookup
        cases hlookup
        exact hadded b (by simp)
      · rw [AList.lookup_insert_ne hblock] at hlookup
        exact ih block txs hlookup
    | executeLinear _ _ run ih =>
      rw [(executeLinear_dag run).blockTxs]
      exact ih hadded
  intro tx htx
  obtain ⟨block, _, htx⟩ := List.mem_flatMap.mp htx
  cases hlookup : vm.blockTxs.lookup block with
  | none =>
    rw [hlookup] at htx
    cases htx
  | some txs =>
    rw [hlookup] at htx
    exact hblocks block txs hlookup tx htx

theorem executeTxs_cons {blockhash : Bytes32} {bank : Bank} {tx : Tx} {txs : List Tx}
    {r : Except BankError Unit} {bank' : Bank}
    (h : executeTxs env blockhash bank (tx :: txs) = .ok (r, bank')) :
    (∃ outcome after, (bank.executeTransaction env tx blockhash).run = .ok (.ok (outcome, after)) ∧
      executeTxs env blockhash after txs = .ok (r, bank')) ∨
    ∃ e, (bank.executeTransaction env tx blockhash).run = .ok (.error e) ∧ r = .error e ∧
      bank' = bank := by
  rw [executeTxs] at h
  obtain ⟨v, hrun, h⟩ := bind_eq_ok.mp h
  cases v with
  | error e =>
    cases h
    exact Or.inr ⟨e, hrun, rfl, rfl⟩
  | ok p =>
    obtain ⟨outcome, after⟩ := p
    exact Or.inl ⟨outcome, after, hrun, h⟩

/-- On the same accounts, the same transactions end in the same way. -/
theorem executeTxs_same {blockhash : Bytes32} {txs : List Tx} {a b a' : Bank}
    {r : Except BankError Unit} (hsame : a.Same b)
    (h : executeTxs env blockhash a txs = .ok (r, a')) :
    ∃ b', executeTxs env blockhash b txs = .ok (r, b') ∧ a'.Same b' := by
  induction txs generalizing a b with
  | nil =>
    cases h
    exact ⟨b, rfl, hsame⟩
  | cons tx txs ih =>
    have htx : Runtime.SameOutcome _ (a.executeTransaction env tx blockhash).run
        (b.executeTransaction env tx blockhash).run := hsame.executeTransaction tx blockhash
    rcases executeTxs_cons h with ⟨outcome, after, hrun, hrest⟩ | ⟨e, hrun, rfl, rfl⟩
    · rw [hrun] at htx
      obtain ⟨⟨outcome', after'⟩, hrun', _, hafter⟩ := htx.ok_left
      obtain ⟨b', hb', hlast⟩ := ih hafter hrest
      refine ⟨b', ?_, hlast⟩
      rw [executeTxs, hrun']
      exact hb'
    · rw [hrun] at htx
      refine ⟨b, ?_, hsame⟩
      rw [executeTxs, htx.error_left]
      rfl

theorem executeTxs_exact {blockhash : Bytes32} {txs : List Tx} {bank bank' : Bank}
    {r : Except BankError Unit} (hexact : bank.db.Exact env.blake3)
    (h : executeTxs env blockhash bank txs = .ok (r, bank')) : bank'.db.Exact env.blake3 := by
  induction txs generalizing bank with
  | nil =>
    cases h
    exact hexact
  | cons tx txs ih =>
    rcases executeTxs_cons h with ⟨outcome, after, hrun, hrest⟩ | ⟨_, _, _, rfl⟩
    · refine ih ?_ hrest
      rw [Bank.executeTransaction_ok hrun]
      exact hexact.commit _
    · exact hexact

/-- Machines over one DAG and the same accounts return the same root. -/
theorem SameDag.executeLinear {envBlockhash : Bytes32} {r : Except BankError Hash}
    (h : SameDag vm fresh) (hsame : vm.bank.Same fresh.bank)
    (hexact : vm.bank.db.Exact env.blake3) (hexact' : fresh.bank.db.Exact env.blake3)
    (hrun : vm.executeLinear env envBlockhash = .ok (r, vm')) :
    ∃ fresh', fresh.executeLinear env envBlockhash = .ok (r, fresh') := by
  obtain ⟨order, horder, hrun⟩ := bind_eq_ok.mp hrun
  obtain ⟨⟨v, bank⟩, htxs, hrun⟩ := bind_eq_ok.mp hrun
  cases hrun
  obtain ⟨bank', htxs', hlast⟩ := executeTxs_same hsame htxs
  have hroot : bank.stateRoot env = bank'.stateRoot env :=
    hlast.stateRoot_eq (executeTxs_exact hexact htxs) (executeTxs_exact hexact' htxs')
  have horder' : fresh.totalOrder = .ok order := by
    rw [totalOrder, ← h.engine]
    exact horder
  have htxs'' : executeTxs env envBlockhash fresh.bank (fresh.linearTxs order) = .ok (v, bank') := by
    rw [linearTxs, ← h.blockTxs]
    exact htxs'
  refine ⟨{ fresh with bank := bank' }, bind_eq_ok.mpr ⟨order, horder', ?_⟩⟩
  refine bind_eq_ok.mpr ⟨(v, bank'), htxs'', ?_⟩
  rw [hroot]
  rfl

theorem Run.exact (h : Run env P start added ran vm) (hexact : start.bank.db.Exact env.blake3) :
    vm.bank.db.Exact env.blake3 := by
  induction h with
  | new => exact hexact
  | addBlock _ run ih =>
    obtain ⟨engine, _, run⟩ := bind_eq_ok.mp run
    cases run
    exact ih
  | executeLinear _ _ run ih =>
    obtain ⟨order, _, run⟩ := bind_eq_ok.mp run
    obtain ⟨⟨v, bank⟩, htxs, run⟩ := bind_eq_ok.mp run
    cases run
    exact executeTxs_exact ih htxs

/-- Where transactions take their fees, accounts that are whole afterwards mean that none was
processed. -/
theorem lamports_executeTxs {blockhash : Bytes32} {txs : List Tx} {bank bank' : Bank}
    {r : Except BankError Unit} (htakes : ∀ tx ∈ txs, Bank.TakesFee env tx)
    (hcharges : ∀ tx ∈ txs, Charges env tx)
    (h : executeTxs env blockhash bank txs = .ok (r, bank')) : bank'.lamports ≤ bank.lamports ∧
      (bank'.lamports = bank.lamports → processedTxs env blockhash bank txs = []) := by
  induction txs generalizing bank with
  | nil =>
    cases h
    exact ⟨le_rfl, fun _ => rfl⟩
  | cons tx txs ih =>
    rcases executeTxs_cons h with ⟨outcome, after, hrun, hrest⟩ | ⟨e, hrun, _, rfl⟩
    · have hfee := Bank.lamports_executeTransaction (htakes tx (by simp)) hrun
      obtain ⟨hle, hnone⟩ := ih (fun tx htx => htakes tx (by simp [htx]))
        (fun tx htx => hcharges tx (by simp [htx])) hrest
      refine ⟨by omega, fun heq => ?_⟩
      have hunprocessed : ¬(env.svm blockhash bank.db.get tx).Processed := by
        intro hp
        have hpos : outcome.fee.toNat ≠ 0 := by
          rw [Bank.executeTransaction_fee hrun]
          exact fun hzero => hcharges tx (by simp) _ _ hp (BitVec.eq_of_toNat_eq hzero)
        omega
      rw [processedTxs, hrun]
      simp only [if_neg hunprocessed]
      exact hnone (by omega)
    · refine ⟨le_rfl, fun _ => ?_⟩
      rw [processedTxs, hrun]

/-- Over a run, whole accounts mean that no call has processed a transaction. -/
theorem Run.lamports (h : Run env P start added ran vm) (hstart : start.blockTxs = ∅)
    (htakes : ∀ b ∈ added, ∀ tx ∈ b.transactions, Bank.TakesFee env tx)
    (hcharges : ∀ b ∈ added, ∀ tx ∈ b.transactions, Charges env tx) :
    vm.bank.lamports ≤ start.bank.lamports ∧
      (vm.bank.lamports = start.bank.lamports → ran = []) := by
  induction h with
  | new => exact ⟨le_rfl, fun _ => rfl⟩
  | addBlock _ run ih =>
    obtain ⟨engine, _, run⟩ := bind_eq_ok.mp run
    cases run
    exact ih (fun b hb => htakes b (by simp [hb])) (fun b hb => hcharges b (by simp [hb]))
  | @executeLinear added ran vm _ envBlockhash _ before _ run ih =>
    obtain ⟨hle, hnone⟩ := ih htakes hcharges
    obtain ⟨order, horder, run⟩ := bind_eq_ok.mp run
    obtain ⟨⟨v, bank⟩, htxs, run⟩ := bind_eq_ok.mp run
    cases run
    obtain ⟨hle', hnone'⟩ := lamports_executeTxs (before.linearTxs hstart htakes order)
      (before.linearTxs hstart hcharges order) htxs
    refine ⟨hle'.trans hle, fun heq => ?_⟩
    simp only at heq hle'
    rw [hnone (by omega), processed, horder]
    exact hnone' (by omega)

/-- As long as each `execute_linear` call starts from the accounts that the machine was made over,
it returns what a fresh machine returns after the same blocks, and no earlier call has processed a
transaction. -/
theorem execute_linear_fresh {k : Nat} {genesis : Hash} {accounts : AccountsDb}
    (hexact : accounts.Exact env.blake3) (hnew : new env k genesis accounts = .ok start)
    (hrun : Run env (fun vm => vm.bank.Same start.bank) start added ran vm)
    (hsame : vm.bank.Same start.bank) :
    (∃ fresh, start.addAll env added = .ok fresh ∧
      ∀ {envBlockhash r vm'}, vm.executeLinear env envBlockhash = .ok (r, vm') →
        ∃ fresh', fresh.executeLinear env envBlockhash = .ok (r, fresh')) ∧
    ((∀ b ∈ added, ∀ tx ∈ b.transactions, Bank.TakesFee env tx ∧ Charges env tx) → ran = []) := by
  obtain ⟨engine, _, hnew⟩ := bind_eq_ok.mp hnew
  obtain ⟨engine', _, hnew⟩ := bind_eq_ok.mp hnew
  cases hnew
  have hstart : (Bank.new env accounts 0).db.Exact env.blake3 := Bank.exact_new hexact 0
  refine ⟨?_, fun hfees => ?_⟩
  · obtain ⟨fresh, hadded, hdag, hbank⟩ := hrun.sameDag
    refine ⟨fresh, hadded, fun hcall => ?_⟩
    have hsame' : vm.bank.Same fresh.bank := by
      rw [hbank]
      exact hsame
    exact hdag.executeLinear hsame' (hrun.exact hstart) (by rw [hbank]; exact hstart) hcall
  · obtain ⟨_, hnone⟩ := hrun.lamports rfl (fun b hb tx htx => (hfees b hb tx htx).1)
      (fun b hb tx htx => (hfees b hb tx htx).2)
    exact hnone (AccountsDb.Same.lamports hsame)

/-- Without transactions a call leaves the accounts as they are. -/
theorem executeLinear_empty {envBlockhash : Bytes32} {r : Except BankError Hash}
    (hempty : vm.blockTxs = ∅) (h : vm.executeLinear env envBlockhash = .ok (r, vm')) :
    vm'.bank = vm.bank := by
  obtain ⟨order, _, h⟩ := bind_eq_ok.mp h
  have hnone : vm.linearTxs order = [] := by
    rw [linearTxs, hempty]
    exact List.flatMap_eq_nil_iff.mpr fun _ _ => rfl
  rw [hnone] at h
  cases h
  rfl

section Example

/-- Accounts of which the payer of the transfer has 10 SOL. -/
def fundedAccounts : AccountsDb :=
  AccountsDb.empty.set transferEnv.blake3
    0x8a88e3dd7409f195fd52db2d3cba5d72ca6709bf1d94121bf3748801b40f6f5c
    (Account.new 10000000000 0 Runtime.Ids.systemProgram)

/-- The block of the transfer, on the genesis. -/
def transferAdded : Added Transaction := ⟨2, [1], [signedTransfer]⟩

/-- A call before there are transactions, the block, and a call that executes it. -/
theorem execute_linear_fresh_transfer : ∃ (start vm fresh vm' fresh' : DagVm Transaction)
    (root : Hash), new transferEnv 3 1 fundedAccounts = .ok start ∧
    start.addAll transferEnv [transferAdded] = .ok fresh ∧
    vm.executeLinear transferEnv envBlockhash = .ok (.ok root, vm') ∧
    vm.processed transferEnv envBlockhash = [signedTransfer] ∧
    fresh.executeLinear transferEnv envBlockhash = .ok (.ok root, fresh') := by
  have hrun : returnsWith (new transferEnv 3 1 fundedAccounts) (fun start =>
      returnsWith (start.executeLinear transferEnv envBlockhash) fun p =>
        returnsWith (p.2.addBlock transferEnv 2 [1] [signedTransfer]) fun vm =>
          returnsWith (vm.executeLinear transferEnv envBlockhash) fun q =>
            returnsWith q.1 fun _ =>
              decide (vm.processed transferEnv envBlockhash = [signedTransfer])) = true := by
    decide +kernel
  simp only [returnsWith_iff, decide_eq_true_eq] at hrun
  obtain ⟨start, hnew, ⟨r, vm₁⟩, hfirst, vm, hadd, ⟨_, vm'⟩, hlast, root, rfl, hran⟩ := hrun
  have hempty : start.blockTxs = ∅ := by
    obtain ⟨_, _, hnew⟩ := bind_eq_ok.mp hnew
    obtain ⟨_, _, hnew⟩ := bind_eq_ok.mp hnew
    cases hnew
    rfl
  have hbank : vm.bank = start.bank := by
    have hkept := executeLinear_empty hempty hfirst
    obtain ⟨_, _, hadd⟩ := bind_eq_ok.mp hadd
    cases hadd
    exact hkept
  have hrun : Run transferEnv (fun vm => vm.bank.Same start.bank) start ([] ++ [transferAdded])
      ([] ++ start.processed transferEnv envBlockhash) vm :=
    .addBlock (.executeLinear .new (Bank.Same.refl _) hfirst) hadd
  have hexact : fundedAccounts.Exact transferEnv.blake3 := AccountsDb.exact_empty.set _ _
  obtain ⟨⟨fresh, hadded, hcall⟩, _⟩ :=
    execute_linear_fresh hexact hnew hrun (by rw [hbank]; exact Bank.Same.refl _)
  obtain ⟨fresh', hfresh⟩ := hcall hlast
  exact ⟨start, vm, fresh, vm', fresh', root, hnew, hadded, hlast, hran, hfresh⟩

/-- Two calls in a row execute the transfer twice, and the payer pays twice. -/
theorem execute_linear_twice : ∃ (start vm vm₁ vm₂ : DagVm Transaction) (root₁ root₂ : Hash),
    new transferEnv 3 1 fundedAccounts = .ok start ∧
    start.addAll transferEnv [transferAdded] = .ok vm ∧
    vm.executeLinear transferEnv envBlockhash = .ok (.ok root₁, vm₁) ∧
    vm₁.executeLinear transferEnv envBlockhash = .ok (.ok root₂, vm₂) ∧
    vm.processed transferEnv envBlockhash = [signedTransfer] ∧
    vm₁.processed transferEnv envBlockhash = [signedTransfer] ∧
    vm₁.bank.balance 0x8a88e3dd7409f195fd52db2d3cba5d72ca6709bf1d94121bf3748801b40f6f5c =
      10000000000 - (2000000000 + 5000) ∧
    vm₂.bank.balance 0x8a88e3dd7409f195fd52db2d3cba5d72ca6709bf1d94121bf3748801b40f6f5c =
      10000000000 - 2 * (2000000000 + 5000) := by
  have hrun : returnsWith (new transferEnv 3 1 fundedAccounts) (fun start =>
      returnsWith (start.addAll transferEnv [transferAdded]) fun vm =>
        returnsWith (vm.executeLinear transferEnv envBlockhash) fun p =>
          returnsWith (p.2.executeLinear transferEnv envBlockhash) fun q =>
            returnsWith p.1 fun _ => returnsWith q.1 fun _ =>
              decide (vm.processed transferEnv envBlockhash = [signedTransfer] ∧
                p.2.processed transferEnv envBlockhash = [signedTransfer] ∧
                p.2.bank.balance
                    0x8a88e3dd7409f195fd52db2d3cba5d72ca6709bf1d94121bf3748801b40f6f5c =
                  10000000000 - (2000000000 + 5000) ∧
                q.2.bank.balance
                    0x8a88e3dd7409f195fd52db2d3cba5d72ca6709bf1d94121bf3748801b40f6f5c =
                  10000000000 - 2 * (2000000000 + 5000))) = true := by
    decide +kernel
  simp only [returnsWith_iff, decide_eq_true_eq] at hrun
  obtain ⟨start, hnew, vm, hadd, ⟨_, vm₁⟩, hfirst, ⟨_, vm₂⟩, hsecond, root₁, rfl, root₂, rfl, hran,
    hran', honce, htwice⟩ := hrun
  exact ⟨start, vm, vm₁, vm₂, root₁, root₂, hnew, hadd, hfirst, hsecond, hran, hran', honce, htwice⟩

end Example

end DagVm

end Dagvm

end TaoDag
