import TaoDag.Runtime.Transfer

namespace TaoDag

/-- Erasing a key takes its entry out of a sum over the entries. -/
theorem sum_kerase {α : Type} {β : α → Type} [DecidableEq α] (f : Sigma β → Nat) (k : α)
    (l : List (Sigma β)) :
    ((l.kerase k).map f).sum + ((l.dlookup k).elim 0 fun b => f ⟨k, b⟩) = (l.map f).sum := by
  induction l with
  | nil => simp
  | cons e l ih =>
    obtain ⟨k', b⟩ := e
    by_cases hk : k = k'
    · subst hk
      have herase : List.kerase k (⟨k, b⟩ :: l) = l := List.kerase_cons_eq rfl
      rw [herase, List.dlookup_cons_eq, Option.elim_some, List.map_cons, List.sum_cons,
        Nat.add_comm]
    · have herase : List.kerase k (⟨k', b⟩ :: l) = ⟨k', b⟩ :: l.kerase k := List.kerase_cons_ne hk
      rw [herase, List.dlookup_cons_ne _ _ hk, List.map_cons, List.sum_cons,
        List.map_cons, List.sum_cons, ← ih]
      omega

namespace Database.AccountsDb

open Consensus (Pubkey)

variable {blake3 : Bytes → Hash}

/-- The sum of the lamports of all accounts. -/
def lamports (db : AccountsDb) : Nat := (db.accounts.entries.map fun e => e.2.lamports.toNat).sum

/-- The lamports of an account, which may be absent. -/
def lamportsOf (account : Option Account) : Nat := account.elim 0 fun a => a.lamports.toNat

theorem lamports_delete (db : AccountsDb) (key : Pubkey) :
    (db.delete blake3 key).lamports + lamportsOf (db.get key) = db.lamports :=
  sum_kerase (fun e : (_ : Pubkey) × Account => e.2.lamports.toNat) key db.accounts.entries

theorem lamportsOf_le (db : AccountsDb) (key : Pubkey) : lamportsOf (db.get key) ≤ db.lamports := by
  have h := @lamports_delete (fun _ => 0) db key
  omega

theorem lamports_set (db : AccountsDb) (key : Pubkey) (account : Account) :
    (db.set blake3 key account).lamports + lamportsOf (db.get key) =
      db.lamports + account.lamports.toNat := by
  have hinsert : (db.set blake3 key account).lamports =
      account.lamports.toNat + (db.delete blake3 key).lamports := by
    simp only [lamports, set, delete, AList.entries_insert, List.map_cons, List.sum_cons]
    rfl
  rw [hinsert, Nat.add_assoc, lamports_delete, Nat.add_comm]

/-- A purged account has no lamports to lose. -/
theorem lamports_commitOne (db : AccountsDb) (change : Pubkey × Account) :
    (db.commitOne blake3 change).lamports + lamportsOf (db.get change.1) =
      db.lamports + change.2.lamports.toNat := by
  rw [commitOne]
  by_cases hp : change.2.isPurged = true
  · have hzero : change.2.lamports = 0 := by
      simp only [Account.isPurged, Bool.and_eq_true, beq_iff_eq] at hp
      exact hp.1
    rw [if_pos hp, lamports_delete, hzero]
    rfl
  · rw [if_neg hp, lamports_set]

/-- Two changes of different keys. -/
theorem lamports_commit_pair (db : AccountsDb) {key key' : Pubkey} (hne : key' ≠ key)
    (account account' : Account) :
    (db.commit blake3 [(key, account), (key', account')]).lamports + lamportsOf (db.get key) +
        lamportsOf (db.get key') =
      db.lamports + account.lamports.toNat + account'.lamports.toNat := by
  have hfirst := @lamports_commitOne blake3 db (key, account)
  have hsecond := @lamports_commitOne blake3 (db.commitOne blake3 (key, account)) (key', account')
  rw [get_commitOne, if_neg hne] at hsecond
  simp only [commit, List.foldl_cons, List.foldl_nil]
  simp only at hfirst hsecond
  omega

end Database.AccountsDb

namespace Runtime

open Consensus (Pubkey)
open Database (Account AccountsDb)
open Database.AccountsDb (lamportsOf lamportsOf_le)

variable {Tx : Type} {env : Env Tx}

/-- The fee that the SVM reports. -/
def ProcessingResult.fee : ProcessingResult → BitVec 64
  | .executed _ _ fee _ => fee
  | .feesOnly _ fee _ => fee
  | .notProcessed _ => 0

/-- The SVM has run the transaction, or taken its fee. -/
def ProcessingResult.Processed : ProcessingResult → Prop
  | .notProcessed _ => False
  | _ => True

instance : DecidablePred ProcessingResult.Processed
  | .executed .. => isTrue trivial
  | .feesOnly .. => isTrue trivial
  | .notProcessed _ => isFalse id

theorem ProcessingResult.committed_of_not_processed {tx : Tx} {r : ProcessingResult}
    (h : ¬r.Processed) : r.committed env tx = [] := by
  cases r with
  | executed accounts rollbackAccounts fee status => exact absurd trivial h
  | feesOnly rollbackAccounts fee loadError => exact absurd trivial h
  | notProcessed error => rfl

/-- No processed transaction is free: there is a fee on each signature. -/
def Charges (env : Env Tx) (tx : Tx) : Prop :=
  ∀ (blockhash : Bytes32) (load : Pubkey → Option Account),
    (env.svm blockhash load tx).Processed → (env.svm blockhash load tx).fee ≠ 0

namespace Bank

/-- The sum of all lamports. -/
def lamports (bank : Bank) : Nat := bank.db.lamports

/-- What the SVM has the bank commit for the transaction takes the fee from the accounts, and
nothing else. -/
def TakesFee (env : Env Tx) (tx : Tx) : Prop :=
  ∀ (blockhash : Bytes32) (bank : Bank),
    let r := env.svm blockhash bank.db.get tx
    (bank.commit env (r.committed env tx)).lamports + r.fee.toNat = bank.lamports

theorem applyResult_fee (bank : Bank) (tx : Tx) (r : ProcessingResult) :
    (bank.applyResult env tx r).1.fee = r.fee := by
  cases r with
  | executed accounts rollbackAccounts fee status =>
    cases status with
    | ok u => rfl
    | error e => rfl
  | feesOnly rollbackAccounts fee loadError => rfl
  | notProcessed error => rfl

/-- A transaction that returns an outcome is charged what the SVM reports. -/
theorem executeTransaction_fee {bank bank' : Bank} {tx : Tx} {blockhash : Bytes32}
    {outcome : TxOutcome}
    (h : (bank.executeTransaction env tx blockhash).run = .ok (.ok (outcome, bank'))) :
    outcome.fee = (env.svm blockhash bank.db.get tx).fee := by
  rw [executeTransaction] at h
  cases hv : env.verify tx with
  | error e =>
    rw [hv] at h
    cases h
  | ok u =>
    simp only [hv] at h
    by_cases hs : env.sanitizes tx = true
    · rw [assert, if_pos hs] at h
      have hres : bank.applyResult env tx (env.svm blockhash bank.db.get tx) = (outcome, bank') :=
        Except.ok.inj (Except.ok.inj h)
      rw [← @applyResult_fee _ env bank tx, hres]
    · rw [assert, if_neg hs] at h
      cases h

/-- The fee leaves the accounts. -/
theorem lamports_executeTransaction {bank bank' : Bank} {tx : Tx} {blockhash : Bytes32}
    {outcome : TxOutcome} (hfee : TakesFee env tx)
    (h : (bank.executeTransaction env tx blockhash).run = .ok (.ok (outcome, bank'))) :
    bank'.lamports + outcome.fee.toNat = bank.lamports := by
  rw [executeTransaction_fee h, executeTransaction_ok h]
  exact hfee blockhash bank

theorem saturatingAdd_toNat {a b : BitVec 64} (h : a.toNat + b.toNat < 2^64) :
    (saturatingAdd a b).toNat = a.toNat + b.toNat := by
  rw [saturatingAdd, if_pos h, BitVec.toNat_add, Nat.mod_eq_of_lt h]

theorem lamports_set (bank : Bank) (key : Pubkey) (account : Account) :
    (bank.set env key account).lamports + lamportsOf (bank.db.get key) =
      bank.lamports + account.lamports.toNat :=
  AccountsDb.lamports_set bank.db key account

/-- The account that a credit or a transfer starts from. -/
theorem lamportsOf_getD (account : Option Account) :
    lamportsOf account = (account.getD (Account.new 0 0 Ids.systemProgram)).lamports.toNat := by
  cases account with
  | none => rfl
  | some account => rfl

/-- A credit adds its lamports to the sum, where the sum does not overflow. -/
theorem lamports_credit (bank : Bank) (key : Pubkey) {lamports : BitVec 64}
    (h : bank.lamports + lamports.toNat < 2^64) :
    (bank.credit env key lamports).lamports = bank.lamports + lamports.toNat := by
  rw [credit]
  by_cases hzero : lamports = 0
  · rw [if_pos hzero, hzero]
    rfl
  · rw [if_neg hzero]
    have hle : lamportsOf (bank.db.get key) ≤ bank.lamports := lamportsOf_le bank.db key
    refine Nat.add_right_cancel ((lamports_set bank key _).trans ?_)
    rw [saturatingAdd_toNat (by have h' := lamportsOf_getD (bank.db.get key); omega), lamportsOf_getD]
    omega

/-- The fees so far and what is left on the accounts stay the same sum. -/
theorem lamports_executeOne {blockhash : Bytes32} {tx : Tx} {fees fees' : BitVec 64}
    {outcomes outcomes' : List TxOutcome} {bank bank' : Bank} (hfee : TakesFee env tx)
    (hfits : bank.lamports + fees.toNat < 2^64)
    (h : executeOne env blockhash (fees, outcomes, bank) tx = .ok (fees', outcomes', bank')) :
    bank'.lamports + fees'.toNat = bank.lamports + fees.toNat := by
  obtain ⟨r, hrun, h⟩ := bind_eq_ok.mp h
  cases r with
  | error e =>
    cases h
    rfl
  | ok p =>
    obtain ⟨outcome, after⟩ := p
    cases h
    have htx := lamports_executeTransaction hfee hrun
    rw [saturatingAdd_toNat (by omega)]
    omega

theorem lamports_executeAll {blockhash : Bytes32} {txs : List Tx} {fees fees' : BitVec 64}
    {outcomes outcomes' : List TxOutcome} {bank bank' : Bank}
    (hfee : ∀ tx ∈ txs, TakesFee env tx) (hfits : bank.lamports + fees.toNat < 2^64)
    (h : txs.foldlM (executeOne env blockhash) (fees, outcomes, bank) =
      .ok (fees', outcomes', bank')) :
    bank'.lamports + fees'.toNat = bank.lamports + fees.toNat := by
  induction txs generalizing fees outcomes bank with
  | nil =>
    cases h
    rfl
  | cons tx txs ih =>
    rw [List.foldlM_cons] at h
    obtain ⟨⟨fees₁, outcomes₁, bank₁⟩, hone, h⟩ := bind_eq_ok.mp h
    have hstep := lamports_executeOne (hfee tx (by simp)) hfits hone
    rw [← hstep]
    exact ih (fun tx htx => hfee tx (by simp [htx])) (by omega) h

/-- `execute_block` pays the miner the reward and every fee that it took. -/
theorem lamports_executeBlock {bank bank' : Bank} {txs : List Tx} {blockhash : Bytes32}
    {miner : Pubkey} {blockReward : BitVec 64} {exec : BlockExecution}
    (hfee : ∀ tx ∈ txs, TakesFee env tx) (hfits : bank.lamports + blockReward.toNat < 2^64)
    (h : bank.executeBlock env txs blockhash miner blockReward = .ok (exec, bank')) :
    bank'.lamports = bank.lamports + blockReward.toNat := by
  obtain ⟨⟨fees, outcomes, after⟩, hall, h⟩ := bind_eq_ok.mp h
  cases h
  have hsum := lamports_executeAll hfee (by simpa using (by omega : bank.lamports < 2^64)) hall
  simp only [BitVec.toNat_zero, Nat.add_zero, BitVec.ofNat_eq_ofNat] at hsum
  have hcoinbase : (saturatingAdd blockReward fees).toNat = blockReward.toNat + fees.toNat :=
    saturatingAdd_toNat (by omega)
  rw [lamports_credit _ _ (by omega), hcoinbase]
  omega

end Bank

namespace Bank

/-- A payer that is charged a fee. -/
theorem lamports_charge (bank : Bank) {payer : Pubkey} {p : Account} {fee : BitVec 64}
    (hload : bank.db.get payer = some p) (hfunds : fee.toNat ≤ p.lamports.toNat) :
    (bank.commit env [(payer, { p with lamports := p.lamports - fee })]).lamports + fee.toNat =
      bank.lamports := by
  have hcommit := @AccountsDb.lamports_commitOne env.blake3 bank.db
    (payer, { p with lamports := p.lamports - fee })
  rw [hload] at hcommit
  simp only [lamportsOf, Option.elim_some, BitVec.toNat_sub_of_le (BitVec.le_def.mpr hfunds)]
    at hcommit
  simp only [lamports, commit, AccountsDb.commit, List.foldl_cons, List.foldl_nil]
  omega

/-- A payer that is charged a fee and pays an amount to another account. -/
theorem lamports_move (bank : Bank) {payer dest : Pubkey} {p : Account} {fee amount : BitVec 64}
    (hload : bank.db.get payer = some p) (hne : payer ≠ dest)
    (hfunds : fee.toNat + amount.toNat ≤ p.lamports.toNat) {target : Account}
    (htarget : (bank.db.get dest).getD (Account.new 0 0 Ids.systemProgram) = target)
    (hfits : target.lamports.toNat + amount.toNat < 2^64) :
    (bank.commit env [(payer, { p with lamports := p.lamports - fee - amount }),
      (dest, { target with lamports := target.lamports + amount })]).lamports + fee.toNat =
      bank.lamports := by
  have hcommit := @AccountsDb.lamports_commit_pair env.blake3 bank.db _ _ hne.symm
    { p with lamports := p.lamports - fee - amount }
    { target with lamports := target.lamports + amount }
  have hcharged : (p.lamports - fee).toNat = p.lamports.toNat - fee.toNat :=
    BitVec.toNat_sub_of_le (BitVec.le_def.mpr (by omega))
  have hpaid : (p.lamports - fee - amount).toNat = p.lamports.toNat - fee.toNat - amount.toNat := by
    rw [BitVec.toNat_sub_of_le (BitVec.le_def.mpr (by omega)), hcharged]
  have hreceived : (target.lamports + amount).toNat = target.lamports.toNat + amount.toNat := by
    rw [BitVec.toNat_add, Nat.mod_eq_of_lt hfits]
  rw [lamportsOf_getD (bank.db.get dest), htarget, hload] at hcommit
  simp only [lamportsOf, Option.elim_some, hpaid, hreceived] at hcommit
  simp only [lamports, commit]
  omega

end Bank

/-- A transfer whose payer and receiver are writable, and nothing else, takes its fee: the amount
moves between the two. -/
theorem Transaction.takesFee {t : Transaction} (hpayer : t.isWritable 0 = true)
    (hdest : t.isWritable 1 = true) (hprogram : t.isWritable 2 = false) :
    Bank.TakesFee transferEnv t := by
  intro blockhash bank
  have hwritable : ∀ a b c, Bank.writable transferEnv t [a, b, c] = [a, b] := by
    intro a b c
    simp [Bank.writable, transferEnv, hpayer, hdest, hprogram]
  change (bank.commit transferEnv ((t.svm blockhash bank.db.get).committed transferEnv t)).lamports +
    (t.svm blockhash bank.db.get).fee.toNat = bank.lamports
  unfold Transaction.svm
  split
  · rfl
  rename_i payer dest lamports _
  cases hload : bank.db.get payer with
  | none => rfl
  | some p =>
    simp only
    split
    · rfl
    split
    · rfl
    rename_i hfunds
    split
    · rfl
    rename_i hkeys
    have hfee : (BitVec.ofNat 64 (lamportsPerSignature * t.signatures.length)).toNat =
        lamportsPerSignature * t.signatures.length := by
      rw [BitVec.toNat_ofNat, Nat.mod_eq_of_lt (by omega)]
    have hcharged : (p.lamports -
        BitVec.ofNat 64 (lamportsPerSignature * t.signatures.length)).toNat =
          p.lamports.toNat - lamportsPerSignature * t.signatures.length := by
      rw [BitVec.toNat_sub_of_le (BitVec.le_def.mpr (by omega)), hfee]
    split
    · exact bank.lamports_charge hload (by omega)
    rename_i hamount
    split
    · exact bank.lamports_charge hload (by omega)
    rename_i hfits
    have hlamports : (BitVec.ofNat 64 lamports).toNat = lamports := by
      rw [BitVec.toNat_ofNat, Nat.mod_eq_of_lt (by omega)]
    change (bank.commit transferEnv (Bank.writable transferEnv t [_, _, _])).lamports + _ = _
    rw [hwritable]
    exact bank.lamports_move hload (fun h => hkeys (Or.inl h)) (by omega) rfl (by omega)

theorem Transaction.charges {t : Transaction} (hsigned : t.signatures ≠ []) :
    Charges transferEnv t := by
  intro blockhash load hp
  change (t.svm blockhash load).Processed at hp
  change (t.svm blockhash load).fee ≠ 0
  have hpos : lamportsPerSignature * t.signatures.length ≠ 0 :=
    Nat.mul_ne_zero (by decide) (by simpa using hsigned)
  have hfee : ∀ lamports : BitVec 64, lamportsPerSignature * t.signatures.length ≤ lamports.toNat →
      BitVec.ofNat 64 (lamportsPerSignature * t.signatures.length) ≠ 0 := by
    intro lamports hle hzero
    have hnat := congrArg BitVec.toNat hzero
    rw [BitVec.toNat_ofNat, Nat.mod_eq_of_lt (by omega)] at hnat
    exact hpos hnat
  unfold Transaction.svm at hp ⊢
  split at hp
  · exact hp.elim
  rename_i payer dest lamports _
  cases hload : load payer with
  | none =>
    simp only [hload] at hp
    exact hp.elim
  | some p =>
    simp only [hload] at hp ⊢
    split at hp
    · exact hp.elim
    split at hp
    · exact hp.elim
    rename_i howner hfunds
    split at hp
    · exact hp.elim
    rename_i hkeys
    rw [if_neg howner, if_neg hfunds, if_neg hkeys]
    split
    · exact hfee p.lamports (by omega)
    split
    · exact hfee p.lamports (by omega)
    · exact hfee p.lamports (by omega)

end Runtime

end TaoDag
