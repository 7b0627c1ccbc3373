import TaoDag.Consensus.Block
import TaoDag.Database.Smt

namespace TaoDag.Database

open Consensus (Pubkey)

/-- A Solana account. -/
structure Account where
  lamports : BitVec 64
  data : Bytes
  owner : Pubkey
  executable : Bool
  rentEpoch : BitVec 64
  deriving DecidableEq

namespace Account

/-- `AccountSharedData::new`: `space` zero bytes of data. -/
def new (lamports : BitVec 64) (space : Nat) (owner : Pubkey) : Account :=
  ⟨lamports, List.replicate space 0, owner, false, 0⟩

def codec : Codec Account :=
  Codec.via (Codec.u64.seq <| Codec.byteVec.seq <| Codec.bytes32.seq <| Codec.bool.seq Codec.u64)
    (fun a => (a.lamports, a.data, a.owner, a.executable, a.rentEpoch))
    (fun (lamports, data, owner, executable, rentEpoch) =>
      { lamports, data, owner, executable, rentEpoch })
    (fun _ => rfl)

/-- Zero lamports and no data: `commit` drops such an account. -/
def isPurged (a : Account) : Bool := a.lamports == 0 && a.data.isEmpty

end Account

abbrev AccountMap := AList (fun _ : Pubkey => Account)

/-- The account store: the accounts, which it keeps as bincode bytes, and the SMT nodes. -/
structure AccountsDb where
  accounts : AccountMap
  smt : NodeStore

namespace AccountsDb

def empty : AccountsDb := ⟨∅, ∅⟩

def get (db : AccountsDb) (key : Pubkey) : Option Account := db.accounts.lookup key

def accountValueHash (blake3 : Bytes → Hash) (accountBytes : Bytes) : Hash := blake3 accountBytes

/-- The SMT leaf of a key with this account, or with none. -/
def leafFor (blake3 : Bytes → Hash) (key : Pubkey) : Option Account → Hash
  | some a => Smt.leafHash blake3 key (accountValueHash blake3 (Account.codec.encode a))
  | none => Smt.emptyLeaf

def set (blake3 : Bytes → Hash) (db : AccountsDb) (key : Pubkey) (account : Account) :
    AccountsDb where
  accounts := db.accounts.insert key account
  smt := Smt.updateLeaf blake3 db.smt key (leafFor blake3 key (some account))

def delete (blake3 : Bytes → Hash) (db : AccountsDb) (key : Pubkey) : AccountsDb where
  accounts := db.accounts.erase key
  smt := Smt.updateLeaf blake3 db.smt key (leafFor blake3 key none)

/-- One change of a commit: an empty account is purged. -/
def commitOne (blake3 : Bytes → Hash) (db : AccountsDb) (change : Pubkey × Account) :
    AccountsDb :=
  if change.2.isPurged then db.delete blake3 change.1 else db.set blake3 change.1 change.2

/-- Applies the changes in order; the batch is written whole. -/
def commit (blake3 : Bytes → Hash) (db : AccountsDb) (changes : List (Pubkey × Account)) :
    AccountsDb :=
  changes.foldl (commitOne blake3) db

def stateRoot (blake3 : Bytes → Hash) (db : AccountsDb) : Hash := Smt.storedRoot blake3 db.smt

/-- Every account, in key order. -/
def dump (db : AccountsDb) : List (Pubkey × Account) :=
  (db.accounts.entries.map fun e => (e.1, e.2)).insertionSort fun a b => a.1.toNat ≤ b.1.toNat

end AccountsDb

end TaoDag.Database
