import TaoDag.Database.AccountsDb
import TaoDag.Reachability.Interval

namespace TaoDag.Runtime

open Consensus (Pubkey)
open Database (Account AccountsDb)

/-- What the SVM makes of one transaction. -/
inductive ProcessingResult where
  /-- It ran: its loaded accounts, the accounts to keep on failure, the fee, the status. -/
  | executed (accounts rollbackAccounts : List (Pubkey × Account)) (fee : BitVec 64)
      (status : Except String Unit)
  /-- It could not load: only the fee is taken. -/
  | feesOnly (rollbackAccounts : List (Pubkey × Account)) (fee : BitVec 64) (loadError : String)
  | notProcessed (error : String)

/-- The code this chain is built on: hashing, the fraction arithmetic of the reachability
reindexing, the transaction format with its signature check and sanitizer, and the SVM, a
function of the blockhash, the accounts it can load and the transaction. -/
structure Env (Tx : Type) where
  blake3 : Bytes → Hash
  fractions : Reachability.Interval.Fractions
  encodeTx : Tx → Except String Bytes
  decodeTx : Bytes → Except String Tx
  verify : Tx → Except String Unit
  sanitizes : Tx → Bool
  isWritable : Tx → Nat → Bool
  svm : Bytes32 → (Pubkey → Option Account) → Tx → ProcessingResult
  rent : Bytes
  epochSchedule : Bytes

/- Addresses of the programs and sysvars that a `Bank` installs. -/
namespace Ids

def systemProgram : Pubkey := 0

def nativeLoader : Pubkey :=
  0x058784bf148ba4282fb012574888a9f153a07dadf765c0455c9a970380000000

def sysvar : Pubkey :=
  0x06a7d5171875f729c73d93408f216120067ed88c76e08c287fc1946000000000

def clock : Pubkey :=
  0x06a7d51718c774c928566398691d5eb68b5eb8a39b4b6d5c73555b2100000000

def rent : Pubkey :=
  0x06a7d517192c5c51218cc94c3d4af17f58daee089ba1fd44e3dbd98a00000000

def epochSchedule : Pubkey :=
  0x06a7d51718dc3fee02d3e47f0100f8b054f7942e60591e3f508719a805000000

def bpfLoader : Pubkey :=
  0x02a8f6914e88a16e395ae128948ffa695693376818dd47435221f3c600000000

def bpfLoaderDeprecated : Pubkey :=
  0x02a8f6914e88a16bbd2395855f6404d9b4f456b7821bb0145749428c00000000

def bpfLoaderUpgradeable : Pubkey :=
  0x02a8f6914e88a1b0e210153ef763ae2b00c2b93d16c124d2c0537a1004800000

end Ids

/-- Errors that prevent a transaction from being processed at all. -/
inductive BankError where
  | badSignature (msg : String)
  | storage (msg : String)
  deriving DecidableEq

def BankError.message : BankError → String
  | .badSignature msg => "signature verification failed: " ++ msg
  | .storage msg => "storage error: " ++ msg

/-- Outcome of one transaction. -/
structure TxOutcome where
  succeeded : Bool
  fee : BitVec 64
  error : Option String
  deriving DecidableEq

/-- Summary of executing one block. -/
structure BlockExecution where
  stateRoot : Hash
  fees : BitVec 64
  reward : BitVec 64
  outcomes : List TxOutcome

/-- Fallible execution: a `BankError` is returned, a fault is not. -/
abbrev BankM := ExceptT BankError Result

/-- The execution bank: the account store it writes to, and its slot. -/
structure Bank where
  db : AccountsDb
  slot : BitVec 64

namespace Bank

variable {Tx : Type} (env : Env Tx)

def set (bank : Bank) (key : Pubkey) (account : Account) : Bank :=
  { bank with db := bank.db.set env.blake3 key account }

/-- The bincode `Clock` of a slot; its other four fields are zero. -/
def clockData (slot : BitVec 64) : Bytes := Codec.u64.encode slot ++ List.replicate 32 0

def sysvarAccount (data : Bytes) : Account :=
  { Account.new 1 data.length Ids.sysvar with data }

def putSysvar (bank : Bank) (id : Pubkey) (data : Bytes) : Bank :=
  bank.set env id (sysvarAccount data)

def installSysvars (bank : Bank) : Bank :=
  let bank := bank.putSysvar env Ids.clock (clockData bank.slot)
  let bank := bank.putSysvar env Ids.rent env.rent
  bank.putSysvar env Ids.epochSchedule env.epochSchedule

def builtinAccount (name : String) : Account where
  lamports := 1
  data := name.toUTF8.toList
  owner := Ids.nativeLoader
  executable := true
  rentEpoch := 0

def registerSystemBuiltin (bank : Bank) : Bank :=
  bank.set env Ids.systemProgram (builtinAccount "system_program")

def registerLoaderBuiltins (bank : Bank) : Bank :=
  let bank := bank.set env Ids.bpfLoader (builtinAccount "solana_bpf_loader_program")
  let bank := bank.set env Ids.bpfLoaderDeprecated
    (builtinAccount "solana_bpf_loader_deprecated_program")
  bank.set env Ids.bpfLoaderUpgradeable (builtinAccount "solana_bpf_loader_upgradeable_program")

/-- `Bank::new`: the sysvars and builtins are written over what the store holds. -/
def new (db : AccountsDb) (slot : BitVec 64) : Bank :=
  let bank := installSysvars env ⟨db, slot⟩
  let bank := bank.registerSystemBuiltin env
  bank.registerLoaderBuiltins env

def stateRoot (bank : Bank) : Hash := bank.db.stateRoot env.blake3

def commit (bank : Bank) (changes : List (Pubkey × Account)) : Bank :=
  { bank with db := bank.db.commit env.blake3 changes }

/-- The accounts a transaction may write, by position in its account list. -/
def writable (tx : Tx) (accounts : List (Pubkey × Account)) : List (Pubkey × Account) :=
  (accounts.zipIdx.filter fun p => env.isWritable tx p.2).map (·.1)

def applyResult (bank : Bank) (tx : Tx) : ProcessingResult → TxOutcome × Bank
  | .executed accounts rollbackAccounts fee status =>
      match status with
      | .ok () => (⟨true, fee, none⟩, bank.commit env (writable env tx accounts))
      | .error e => (⟨false, fee, some e⟩, bank.commit env rollbackAccounts)
  | .feesOnly rollbackAccounts fee loadError =>
      (⟨false, fee, some loadError⟩, bank.commit env rollbackAccounts)
  | .notProcessed error => (⟨false, 0, some error⟩, bank)

/-- Executes and commits one transaction. Nothing is written before the signatures are
checked; a transaction that does not sanitize is unwrapped. -/
def executeTransaction (bank : Bank) (tx : Tx) (blockhash : Bytes32) :
    BankM (TxOutcome × Bank) :=
  match env.verify tx with
  | .error e => throw (.badSignature e)
  | .ok () => do
      assert (env.sanitizes tx) "called `Result::unwrap()` on an `Err` value"
      return bank.applyResult env tx (env.svm blockhash bank.db.get tx)

def balance (bank : Bank) (key : Pubkey) : BitVec 64 := ((bank.db.get key).map (·.lamports)).getD 0

def saturatingAdd (a b : BitVec 64) : BitVec 64 :=
  if a.toNat + b.toNat < 2^64 then a + b else BitVec.allOnes 64

/-- Credits `lamports`, creating a System-owned account if there is none. -/
def credit (bank : Bank) (key : Pubkey) (lamports : BitVec 64) : Bank :=
  if lamports = 0 then bank
  else
    let account := (bank.db.get key).getD (Account.new 0 0 Ids.systemProgram)
    bank.set env key { account with lamports := saturatingAdd account.lamports lamports }

/-- One transaction of a block, on the fees and the outcomes so far. One that fails to process
is skipped. -/
def executeOne (blockhash : Bytes32) (acc : BitVec 64 × List TxOutcome × Bank) (tx : Tx) :
    Result (BitVec 64 × List TxOutcome × Bank) := do
  let (fees, outcomes, bank) := acc
  match ← (bank.executeTransaction env tx blockhash).run with
  | .ok (outcome, bank) => return (saturatingAdd fees outcome.fee, outcomes ++ [outcome], bank)
  | .error e => return (fees, outcomes ++ [⟨false, 0, some e.message⟩], bank)

/-- Executes the transactions of a block in order, then pays the coinbase. -/
def executeBlock (bank : Bank) (transactions : List Tx) (blockhash : Bytes32) (miner : Pubkey)
    (blockReward : BitVec 64) : Result (BlockExecution × Bank) := do
  let (fees, outcomes, bank) ← transactions.foldlM (executeOne env blockhash) (0, [], bank)
  let bank := bank.credit env miner (saturatingAdd blockReward fees)
  return (⟨bank.stateRoot env, fees, blockReward, outcomes⟩, bank)

def airdrop (bank : Bank) (key : Pubkey) (lamports : BitVec 64) : Bank :=
  bank.credit env key lamports

end Bank

end TaoDag.Runtime
