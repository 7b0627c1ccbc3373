import TaoDag.Database.AccountsDb
import TaoDag.Database.StateProof

namespace TaoDag.Database

open Consensus (Pubkey)
open Smt (bit defaults emptyLeaf hash2 height nodeId flipBit)

/-- The nodes of a store, under the writes of a commit that is not written yet. -/
structure Overlay where
  db : NodeStore
  pending : AList (fun _ : Bytes => Option Hash)

namespace Overlay

def getNode (o : Overlay) (id : Bytes) : Option Hash :=
  match o.pending.lookup id with
  | some v => v
  | none => o.db.lookup id

def setNode (o : Overlay) (id : Bytes) (hash : Hash) : Overlay :=
  { o with pending := o.pending.insert id (some hash) }

def delNode (o : Overlay) (id : Bytes) : Overlay :=
  { o with pending := o.pending.insert id none }

variable (blake3 : Bytes → Hash)

def putNode (o : Overlay) (id : Bytes) (hash : Hash) (depth : Nat) : Overlay :=
  if hash = defaults blake3 depth then o.delNode id else o.setNode id hash

/-- The loop of `update_leaf` over an overlay. -/
def updatePath (key : Hash) : Nat → Hash → Overlay → Overlay
  | 0, _, o => o
  | depth+1, cur, o =>
      let sib := (o.getNode (nodeId (flipBit key depth) (depth + 1))).getD
        (defaults blake3 (depth + 1))
      let parent := if bit key depth then hash2 blake3 sib cur else hash2 blake3 cur sib
      updatePath key depth parent (putNode blake3 o (nodeId key depth) parent depth)

def updateLeaf (o : Overlay) (key leaf : Hash) : Overlay :=
  updatePath blake3 key height leaf (putNode blake3 o (nodeId key height) leaf height)

end Overlay

/-- One write of a batch, to the accounts or to the SMT nodes. -/
inductive Write
  | put (key : Pubkey) (bytes : Bytes)
  | delete (key : Pubkey)
  | putNode (id : Bytes) (hash : Hash)
  | deleteNode (id : Bytes)

/-- The two column families of the account store on disk. -/
structure AccountFiles where
  accounts : AList (fun _ : Pubkey => Bytes)
  smt : NodeStore

namespace AccountFiles

def empty : AccountFiles := ⟨∅, ∅⟩

def writeOne (db : AccountFiles) : Write → AccountFiles
  | .put key bytes => { db with accounts := db.accounts.insert key bytes }
  | .delete key => { db with accounts := db.accounts.erase key }
  | .putNode id hash => { db with smt := db.smt.insert id hash }
  | .deleteNode id => { db with smt := db.smt.erase id }

/-- A batch is written whole. -/
def write (db : AccountFiles) (batch : List Write) : AccountFiles := batch.foldl writeOne db

def get (db : AccountFiles) (key : Pubkey) : Except String (Option Account) :=
  match db.accounts.lookup key with
  | some bytes => do return some (← Account.codec.deserialize bytes)
  | none => .ok none

variable (blake3 : Bytes → Hash)

def leafFor (key : Pubkey) : Option Bytes → Hash
  | some bytes => Smt.leafHash blake3 key (AccountsDb.accountValueHash blake3 bytes)
  | none => emptyLeaf

/-- `pending`, drained into the batch. -/
def nodeWrites (pending : List (Sigma fun _ : Bytes => Option Hash)) : List Write :=
  pending.map fun e =>
    match e.2 with
    | some hash => .putNode e.1 hash
    | none => .deleteNode e.1

/-- The node writes of a commit: one overlay sees all its leaf updates. -/
def smtUpdate (db : AccountFiles) (leaves : List (Hash × Hash)) : List Write :=
  let overlay : Overlay := leaves.foldl (fun o l => o.updateLeaf blake3 l.1 l.2) ⟨db.smt, ∅⟩
  nodeWrites overlay.pending.entries

def set (db : AccountFiles) (key : Pubkey) (account : Account) : AccountFiles :=
  let bytes := Account.codec.encode account
  let leaf := leafFor blake3 key (some bytes)
  db.write (.put key bytes :: db.smtUpdate blake3 [(key, leaf)])

def delete (db : AccountFiles) (key : Pubkey) : AccountFiles :=
  db.write (.delete key :: db.smtUpdate blake3 [(key, emptyLeaf)])

/-- What a change adds to the batch, and the leaf that it sets. -/
def commitChange (change : Pubkey × Account) : Write × (Hash × Hash) :=
  if change.2.isPurged then (.delete change.1, (change.1, emptyLeaf))
  else
    let bytes := Account.codec.encode change.2
    (.put change.1 bytes, (change.1, leafFor blake3 change.1 (some bytes)))

def commit (db : AccountFiles) (changes : List (Pubkey × Account)) : AccountFiles :=
  let loop := changes.map (commitChange blake3)
  db.write (loop.map (·.1) ++ db.smtUpdate blake3 (loop.map (·.2)))

def stateRoot (db : AccountFiles) : Hash := Smt.storedRoot blake3 db.smt

def stateProof (db : AccountFiles) (key : Pubkey) :
    Except String (Option Account × MerkleProof) := do
  return (← db.get key, Smt.storedProof blake3 db.smt key)

end AccountFiles

end TaoDag.Database
