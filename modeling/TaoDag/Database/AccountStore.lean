import TaoDag.Database.StateRoot
import TaoDag.Database.WriteBatch

namespace TaoDag.Database

open Consensus (Pubkey)
open Smt (verify)
open SparseMerkleTree (fromEntries leafOf leavesOf valueAt Lists)

variable {blake3 : Bytes → Hash}

namespace Overlay

/-- An overlay over `base` that reads like `t`. -/
structure Reads (o : Overlay) (base t : NodeStore) : Prop where
  db : o.db = base
  getNode : ∀ id, o.getNode id = t.lookup id

variable {o : Overlay} {base t : NodeStore}

theorem Reads.setNode (h : o.Reads base t) (id : Bytes) (hash : Hash) :
    (o.setNode id hash).Reads base (t.insert id hash) := by
  refine ⟨h.db, fun id' => ?_⟩
  by_cases hid : id' = id
  · subst hid
    simp [Overlay.getNode, Overlay.setNode]
  · rw [AList.lookup_insert_ne hid, ← h.getNode id', Overlay.getNode, Overlay.setNode]
    simp only [AList.lookup_insert_ne hid]
    rfl

theorem Reads.delNode (h : o.Reads base t) (id : Bytes) :
    (o.delNode id).Reads base (t.erase id) := by
  refine ⟨h.db, fun id' => ?_⟩
  by_cases hid : id' = id
  · subst hid
    simp [Overlay.getNode, Overlay.delNode]
  · rw [AList.lookup_erase_ne hid, ← h.getNode id', Overlay.getNode, Overlay.delNode]
    simp only [AList.lookup_insert_ne hid]
    rfl

theorem Reads.putNode (h : o.Reads base t) (id : Bytes) (hash : Hash) (depth : Nat) :
    (o.putNode blake3 id hash depth).Reads base (Smt.putNode blake3 t id hash depth) := by
  rw [Overlay.putNode, Smt.putNode]
  split
  · exact h.delNode id
  · exact h.setNode id hash

theorem Reads.updatePath (h : o.Reads base t) (key : Hash) (depth : Nat) (cur : Hash) :
    (o.updatePath blake3 key depth cur).Reads base (Smt.updatePath blake3 key depth cur t) := by
  induction depth generalizing o t cur with
  | zero => exact h
  | succ depth ih =>
    rw [Overlay.updatePath, Smt.updatePath, h.getNode]
    exact ih (h.putNode _ _ _) _

/-- Over an overlay `update_leaf` does what it does on the store. -/
theorem Reads.updateLeaf (h : o.Reads base t) (key leaf : Hash) :
    (o.updateLeaf blake3 key leaf).Reads base (Smt.updateLeaf blake3 t key leaf) :=
  (h.putNode _ _ _).updatePath key _ leaf

end Overlay

namespace AccountFiles

variable {db : AccountFiles} {a : AccountsDb}

theorem write_append (db : AccountFiles) (b b' : List Write) :
    db.write (b ++ b') = (db.write b).write b' := List.foldl_append

theorem write_cons (db : AccountFiles) (w : Write) (batch : List Write) :
    db.write (w :: batch) = (db.writeOne w).write batch := rfl

/-- Draining the pending nodes leaves what the overlay read. -/
theorem write_nodeWrites (db : AccountFiles) {pending : List (Sigma fun _ : Bytes => Option Hash)}
    (hnodup : pending.NodupKeys) :
    (db.write (nodeWrites pending)).accounts = db.accounts ∧
      ∀ id, (db.write (nodeWrites pending)).smt.lookup id =
        (pending.dlookup id).getD (db.smt.lookup id) := by
  induction pending generalizing db with
  | nil => exact ⟨rfl, fun _ => rfl⟩
  | cons e pending ih =>
    obtain ⟨key, v⟩ := e
    rw [List.nodupKeys_cons] at hnodup
    have hnone : pending.dlookup key = none := List.dlookup_eq_none.mpr hnodup.1
    have hcons : ∀ {id : Bytes} (v : Option Hash), id ≠ key →
        List.dlookup id ((⟨key, v⟩ : Sigma fun _ : Bytes => Option Hash) :: pending) =
          pending.dlookup id := fun v hid => List.dlookup_cons_ne pending _ hid
    cases v with
    | some hash =>
      obtain ⟨hacc, hsmt⟩ := ih (db.writeOne (.putNode key hash)) hnodup.2
      rw [nodeWrites, List.map_cons, write_cons]
      refine ⟨hacc, fun id => (hsmt id).trans ?_⟩
      by_cases hid : id = key
      · subst hid
        simp [hnone, writeOne]
      · rw [hcons _ hid]
        simp [writeOne, AList.lookup_insert_ne hid]
    | none =>
      obtain ⟨hacc, hsmt⟩ := ih (db.writeOne (.deleteNode key)) hnodup.2
      rw [nodeWrites, List.map_cons, write_cons]
      refine ⟨hacc, fun id => (hsmt id).trans ?_⟩
      by_cases hid : id = key
      · subst hid
        simp [hnone, writeOne]
      · rw [hcons _ hid]
        simp [writeOne, AList.lookup_erase_ne hid]

/-- Writes of accounts only. -/
def OnAccounts : Write → Prop
  | .put _ _ => True
  | .delete _ => True
  | _ => False

theorem write_smt {batch : List Write} (h : ∀ w ∈ batch, OnAccounts w) (db : AccountFiles) :
    (db.write batch).smt = db.smt := by
  induction batch generalizing db with
  | nil => rfl
  | cons w batch ih =>
    rw [List.forall_mem_cons] at h
    have hw : (db.writeOne w).smt = db.smt := by
      cases w with
      | put => rfl
      | delete => rfl
      | putNode => exact h.1.elim
      | deleteNode => exact h.1.elim
    exact (ih h.2 (db.writeOne w)).trans hw

/-- The node writes of a commit leave the tree that the leaf updates make of the stored one. -/
theorem write_smtUpdate (blake3 : Bytes → Hash) (db db' : AccountFiles) {leaves : List (Hash × Hash)} {t : NodeStore}
    (hsame : db'.smt = db.smt)
    (h : (leaves.foldl (fun o l => o.updateLeaf blake3 l.1 l.2) (⟨db.smt, ∅⟩ : Overlay)).Reads
      db.smt t) :
    (db'.write (db.smtUpdate blake3 leaves)).accounts = db'.accounts ∧
      ∀ id, (db'.write (db.smtUpdate blake3 leaves)).smt.lookup id = t.lookup id := by
  rw [smtUpdate]
  generalize leaves.foldl (fun o l => o.updateLeaf blake3 l.1 l.2) (⟨db.smt, ∅⟩ : Overlay) = o at h ⊢
  obtain ⟨hacc, hsmt⟩ := write_nodeWrites db' o.pending.nodupKeys
  refine ⟨hacc, fun id => ?_⟩
  have hread : o.getNode id = (o.pending.entries.dlookup id).getD (db.smt.lookup id) := by
    rw [Overlay.getNode, h.db]
    unfold AList.lookup
    cases o.pending.entries.dlookup id <;> rfl
  rw [hsmt, hsame, ← hread, h.getNode]

/-- The files hold the accounts as bytes, and the nodes. -/
structure Holds (db : AccountFiles) (a : AccountsDb) : Prop where
  accounts : ∀ key, db.accounts.lookup key = (a.get key).map Account.codec.encode
  smt : ∀ id, db.smt.lookup id = a.smt.lookup id

theorem holds_empty : Holds empty AccountsDb.empty := ⟨fun _ => rfl, fun _ => rfl⟩

theorem leafFor_encode (blake3 : Bytes → Hash) (key : Pubkey) (account : Option Account) :
    leafFor blake3 key (account.map Account.codec.encode) =
      AccountsDb.leafFor blake3 key account := by
  cases account <;> rfl

theorem leafFor_eq_leafOf (key : Pubkey) (bytes : Option Bytes) :
    leafFor blake3 key bytes =
      leafOf blake3 key (bytes.map (AccountsDb.accountValueHash blake3)) := by
  cases bytes <;> rfl

theorem accounts_put (db : AccountFiles) (key key' : Pubkey) (bytes : Bytes) :
    (db.writeOne (.put key bytes)).accounts.lookup key' =
      if key' = key then some bytes else db.accounts.lookup key' := by
  by_cases hk : key' = key
  · subst hk
    simp [writeOne]
  · simp [writeOne, hk, AList.lookup_insert_ne]

theorem accounts_delete (db : AccountFiles) (key key' : Pubkey) :
    (db.writeOne (.delete key)).accounts.lookup key' =
      if key' = key then none else db.accounts.lookup key' := by
  by_cases hk : key' = key
  · subst hk
    simp [writeOne]
  · simp [writeOne, hk, AList.lookup_erase_ne]

/-- A change puts or deletes the account that the store keeps of it. -/
theorem accounts_commitChange (blake3 : Bytes → Hash)
    (h : ∀ key, db.accounts.lookup key = (a.get key).map Account.codec.encode)
    (change : Pubkey × Account) (key : Pubkey) :
    (db.writeOne (commitChange blake3 change).1).accounts.lookup key =
      ((a.commitOne blake3 change).get key).map Account.codec.encode := by
  rw [AccountsDb.get_commitOne, AccountsDb.kept, commitChange]
  by_cases hpurged : change.2.isPurged = true
  · rw [if_pos hpurged, if_pos hpurged, accounts_delete, h key]
    split <;> rfl
  · rw [if_neg hpurged, if_neg hpurged, accounts_put, h key]
    split <;> rfl

theorem accounts_commit (blake3 : Bytes → Hash)
    (h : ∀ key, db.accounts.lookup key = (a.get key).map Account.codec.encode)
    (changes : List (Pubkey × Account)) (key : Pubkey) :
    (db.write ((changes.map (commitChange blake3)).map (·.1))).accounts.lookup key =
      ((a.commit blake3 changes).get key).map Account.codec.encode := by
  induction changes generalizing db a with
  | nil => exact h key
  | cons change changes ih => exact ih (accounts_commitChange blake3 h change)

theorem commitOne_smt (a : AccountsDb) (change : Pubkey × Account) :
    (a.commitOne blake3 change).smt = Smt.updateLeaf blake3 a.smt
      (commitChange blake3 change).2.1 (commitChange blake3 change).2.2 := by
  rw [AccountsDb.commitOne, commitChange]
  split
  · rw [AccountsDb.smt_delete, AccountsDb.leafFor]
  · rw [AccountsDb.smt_set, ← leafFor_encode]
    exact congrArg _ rfl

theorem reads_commit {o : Overlay} {base : NodeStore} (h : o.Reads base a.smt)
    (blake3 : Bytes → Hash) (changes : List (Pubkey × Account)) :
    (((changes.map (commitChange blake3)).map (·.2)).foldl
      (fun o l => o.updateLeaf blake3 l.1 l.2) o).Reads base (a.commit blake3 changes).smt := by
  induction changes generalizing o a with
  | nil => exact h
  | cons change changes ih =>
    rw [List.map_cons, List.map_cons, List.foldl_cons, AccountsDb.commit_cons]
    refine ih ?_
    rw [commitOne_smt]
    exact h.updateLeaf _ _

/-- A commit through one batch and one overlay is the changes made one after the other. -/
theorem Holds.commit (h : Holds db a) (changes : List (Pubkey × Account)) :
    Holds (db.commit blake3 changes) (a.commit blake3 changes) := by
  rw [AccountFiles.commit, write_append]
  have honly : ∀ w ∈ (changes.map (commitChange blake3)).map (·.1), OnAccounts w := by
    simp only [List.map_map, List.forall_mem_map]
    intro change _
    rw [Function.comp_apply, commitChange]
    split <;> trivial
  have hover : Overlay.Reads ⟨db.smt, ∅⟩ db.smt a.smt := ⟨rfl, h.smt⟩
  obtain ⟨hacc, hsmt⟩ := write_smtUpdate blake3 db _ (write_smt honly db)
    (reads_commit hover blake3 changes)
  exact ⟨fun key => by rw [hacc]; exact accounts_commit blake3 h.accounts changes key, hsmt⟩

/-- One leaf update is a batch of one. -/
theorem write_smtUpdate_one (h : Holds db a) (blake3 : Bytes → Hash) (w : Write)
    (hw : OnAccounts w) (key leaf : Hash) :
    (db.write (w :: db.smtUpdate blake3 [(key, leaf)])).accounts = (db.writeOne w).accounts ∧
      ∀ id, (db.write (w :: db.smtUpdate blake3 [(key, leaf)])).smt.lookup id =
        (Smt.updateLeaf blake3 a.smt key leaf).lookup id := by
  have hover : Overlay.Reads ⟨db.smt, ∅⟩ db.smt a.smt := ⟨rfl, h.smt⟩
  have honly : (db.write [w]).smt = db.smt := write_smt (by simpa using hw) db
  refine write_smtUpdate blake3 db (db.writeOne w) honly ?_
  rw [List.foldl_cons, List.foldl_nil]
  exact hover.updateLeaf key leaf

theorem Holds.set (h : Holds db a) (key : Pubkey) (account : Account) :
    Holds (db.set blake3 key account) (a.set blake3 key account) := by
  obtain ⟨hacc, hsmt⟩ := write_smtUpdate_one h blake3 (.put key (Account.codec.encode account))
    trivial key (leafFor blake3 key (some (Account.codec.encode account)))
  rw [AccountFiles.set]
  refine ⟨fun key' => ?_, fun id => ?_⟩
  · rw [AccountsDb.get_set, hacc, accounts_put, h.accounts]
    split <;> rfl
  · rw [AccountsDb.smt_set, ← leafFor_encode]
    exact hsmt id

theorem Holds.delete (h : Holds db a) (key : Pubkey) :
    Holds (db.delete blake3 key) (a.delete blake3 key) := by
  obtain ⟨hacc, hsmt⟩ := write_smtUpdate_one h blake3 (.delete key) trivial key Smt.emptyLeaf
  rw [AccountFiles.delete]
  refine ⟨fun key' => ?_, fun id => ?_⟩
  · rw [AccountsDb.get_delete, hacc, accounts_delete, h.accounts]
    split <;> rfl
  · rw [AccountsDb.smt_delete, AccountsDb.leafFor]
    exact hsmt id

/-- A call of the account store. -/
inductive Op
  | set (key : Pubkey) (account : Account)
  | delete (key : Pubkey)
  | commit (changes : List (Pubkey × Account))

/-- The accounts that a call writes fit their format. -/
def Op.Fits : Op → Prop
  | .set _ account => Account.codec.Fits account
  | .delete _ => True
  | .commit changes => ∀ change ∈ changes, Account.codec.Fits change.2

variable (blake3 : Bytes → Hash)

def apply (db : AccountFiles) : Op → AccountFiles
  | .set key account => db.set blake3 key account
  | .delete key => db.delete blake3 key
  | .commit changes => db.commit blake3 changes

/-- The store after some calls, from the empty one. -/
def run (ops : List Op) : AccountFiles := ops.foldl (apply blake3) empty

variable {blake3}

/-- The files hold a store with its exact tree, of accounts that can be read back. -/
structure Sound (blake3 : Bytes → Hash) (db : AccountFiles) (a : AccountsDb) : Prop where
  holds : Holds db a
  exact : a.Exact blake3
  fits : ∀ key account, a.get key = some account → Account.codec.Fits account

theorem fits_commitOne (h : ∀ key account, a.get key = some account → Account.codec.Fits account)
    (change : Pubkey × Account) (hfits : Account.codec.Fits change.2) :
    ∀ key account, (a.commitOne blake3 change).get key = some account →
      Account.codec.Fits account := by
  intro key account hget
  rw [AccountsDb.get_commitOne, AccountsDb.kept] at hget
  by_cases hk : key = change.1
  · rw [if_pos hk] at hget
    split at hget
    · cases hget
    · rwa [← Option.some.inj hget]
  · rw [if_neg hk] at hget
    exact h key account hget

theorem Sound.apply (h : Sound blake3 db a) {op : Op} (hfits : op.Fits) :
    ∃ a', Sound blake3 (db.apply blake3 op) a' := by
  cases op with
  | set key account =>
    refine ⟨_, h.holds.set key account, h.exact.set key account, fun key' account' hget => ?_⟩
    rw [AccountsDb.get_set] at hget
    by_cases hk : key' = key
    · rw [if_pos hk] at hget
      rwa [← Option.some.inj hget]
    · rw [if_neg hk] at hget
      exact h.fits key' account' hget
  | delete key =>
    refine ⟨_, h.holds.delete key, h.exact.delete key, fun key' account' hget => ?_⟩
    rw [AccountsDb.get_delete] at hget
    by_cases hk : key' = key
    · rw [if_pos hk] at hget
      cases hget
    · rw [if_neg hk] at hget
      exact h.fits key' account' hget
  | commit changes =>
    refine ⟨_, h.holds.commit changes, h.exact.commit changes, ?_⟩
    have hfit := h.fits
    clear h
    induction changes generalizing a with
    | nil => exact hfit
    | cons change changes ih =>
      have hall : ∀ c ∈ change :: changes, Account.codec.Fits c.2 := hfits
      rw [List.forall_mem_cons] at hall
      exact ih hall.2 (fits_commitOne hfit change hall.1)

theorem run_sound {ops : List Op} (hfits : ∀ op ∈ ops, op.Fits) :
    ∃ a, Sound blake3 (run blake3 ops) a := by
  have hstep : ∀ (db : AccountFiles) (a : AccountsDb), Sound blake3 db a →
      ∃ a', Sound blake3 (ops.foldl (AccountFiles.apply blake3) db) a' := by
    induction ops with
    | nil => exact fun db a h => ⟨a, h⟩
    | cons op ops ih =>
      rw [List.forall_mem_cons] at hfits
      intro db a h
      obtain ⟨a', h'⟩ := h.apply hfits.1
      exact ih hfits.2 _ a' h'
  refine hstep empty .empty ⟨holds_empty, AccountsDb.exact_empty, fun key account hget => ?_⟩
  rw [AccountsDb.get_empty] at hget
  cases hget

/-- BLAKE3 of the bytes stored for a key. -/
def valueHashes (blake3 : Bytes → Hash) (db : AccountFiles) (key : Pubkey) : Option Hash :=
  (db.accounts.lookup key).map (AccountsDb.accountValueHash blake3)

/-- Every stored account, as the tree takes it. -/
def treeEntries (blake3 : Bytes → Hash) (db : AccountFiles) : List (Hash × Hash) :=
  db.accounts.entries.map fun e => (e.1, AccountsDb.accountValueHash blake3 e.2)

theorem treeEntries_lists (db : AccountFiles) :
    Lists (db.treeEntries blake3) (db.valueHashes blake3) := by
  refine ⟨?_, fun key value => ?_⟩
  · rw [treeEntries, List.map_map]
    exact db.accounts.nodupKeys
  · rw [treeEntries, valueHashes, List.mem_map, Option.map_eq_some_iff]
    constructor
    · rintro ⟨e, he, heq⟩
      cases heq
      exact ⟨e.2, AList.mem_lookup_iff.mpr he, rfl⟩
    · rintro ⟨bytes, hbytes, rfl⟩
      exact ⟨⟨key, bytes⟩, AList.mem_lookup_iff.mp hbytes, rfl⟩

theorem Sound.leaves (h : Sound blake3 db a) :
    SparseTree.leafAt Smt.path Smt.emptyLeaf (a.leaves blake3) =
      leavesOf blake3 (db.valueHashes blake3) := by
  refine congrArg (SparseTree.leafAt Smt.path Smt.emptyLeaf) (funext fun key => ?_)
  rw [AccountsDb.leaves, ← leafFor_encode, ← h.holds.accounts, leafFor_eq_leafOf]
  rfl

theorem storedNode_eq (h : Holds db a) (id : Bytes) (d : Hash) :
    (db.smt.lookup id).getD d = (a.smt.lookup id).getD d := by rw [h.smt]

theorem Sound.stateRoot (h : Sound blake3 db a) :
    db.stateRoot blake3 = SparseTree.root (Smt.hash2 blake3) 256
      (leavesOf blake3 (db.valueHashes blake3)) := by
  rw [AccountFiles.stateRoot, Smt.storedRoot, storedNode_eq h.holds, ← h.leaves]
  exact h.exact.storedRoot

theorem Sound.storedProof (h : Sound blake3 db a) (key : Pubkey) :
    Smt.storedProof blake3 db.smt key =
      ⟨Smt.siblingsIn blake3 (leavesOf blake3 (db.valueHashes blake3)) key⟩ := by
  refine congrArg MerkleProof.mk (List.map_congr_left fun depth hdepth => ?_)
  have hd : depth < 256 := List.mem_range.mp hdepth
  have hnode := h.exact (Smt.flipBit key depth) (depth + 1) hd
  rw [h.leaves, Smt.take_path_flipBit hd] at hnode
  rw [storedNode_eq h.holds]
  exact hnode

theorem Sound.get (h : Sound blake3 db a) (key : Pubkey) : db.get key = .ok (a.get key) := by
  rw [AccountFiles.get, h.holds.accounts]
  cases hget : a.get key with
  | none => rfl
  | some account =>
    rw [Option.map_some]
    simp only [Account.codec.deserialize_encode (h.fits key account hget)]
    rfl

theorem Sound.root_eq (h : Sound blake3 db a) {entries : List (Hash × Hash)}
    (hentries : Lists entries (db.valueHashes blake3)) :
    db.stateRoot blake3 = (fromEntries blake3 entries).root blake3 := by
  have hcovers := @SparseMerkleTree.fromEntries_covers blake3 entries
  rw [hentries.valueAt] at hcovers
  exact h.stateRoot.trans hcovers.root.symm

theorem Sound.verify (h : Sound blake3 db a) (key : Pubkey) :
    Smt.verify blake3 (db.stateRoot blake3) key (leafFor blake3 key (db.accounts.lookup key))
      (Smt.storedProof blake3 db.smt key) = true := by
  rw [h.storedProof, h.stateRoot, leafFor_eq_leafOf]
  have hverify := @Smt.verify_siblingsIn blake3 (leavesOf blake3 (db.valueHashes blake3)) key
  rwa [SparseMerkleTree.leavesOf_path] at hverify

/-- After any calls the state root is that of the tree over the stored accounts, however they
came there, and the state proof of every key verifies against it for what `get` returns. -/
theorem account_store_invariant (ops : List Op) (hfits : ∀ op ∈ ops, op.Fits) :
    let db := run blake3 ops
    db.stateRoot blake3 = (fromEntries blake3 (db.treeEntries blake3)).root blake3 ∧
      (∀ ops', (∀ op ∈ ops', op.Fits) →
        (∀ key, (run blake3 ops').accounts.lookup key = db.accounts.lookup key) →
          (run blake3 ops').stateRoot blake3 = db.stateRoot blake3) ∧
      ∀ key, ∃ account proof, db.get key = .ok account ∧
        db.accounts.lookup key = account.map Account.codec.encode ∧
        db.stateProof blake3 key = .ok (account, proof) ∧
        verify blake3 (db.stateRoot blake3) key
          (leafFor blake3 key (account.map Account.codec.encode)) proof = true := by
  obtain ⟨a, h⟩ := @run_sound blake3 _ hfits
  have hroot := h.root_eq (treeEntries_lists _)
  refine ⟨hroot, fun ops' hfits' hsame => ?_, fun key => ?_⟩
  · obtain ⟨a', h'⟩ := @run_sound blake3 _ hfits'
    have hvalues : (run blake3 ops').valueHashes blake3 = (run blake3 ops).valueHashes blake3 := by
      funext key
      rw [valueHashes, valueHashes, hsame]
    have hentries := @treeEntries_lists blake3 (run blake3 ops)
    rw [← hvalues] at hentries
    rw [h'.root_eq hentries, hroot]
  · have hstored := h.holds.accounts key
    have hverify := h.verify key
    rw [hstored] at hverify
    refine ⟨a.get key, Smt.storedProof blake3 (run blake3 ops).smt key, h.get key, hstored, ?_,
      hverify⟩
    rw [AccountFiles.stateProof, h.get]
    rfl

theorem fits_empty (lamports : BitVec 64) :
    Account.codec.Fits ⟨lamports, [], 7, false, 0⟩ := by
  refine ⟨trivial, ?_, trivial, trivial, trivial⟩
  change 0 < 2^64
  decide

/-- A commit that writes a key twice and purges another. -/
theorem account_store_invariant_commit :
    let account : Account := ⟨5, [], 7, false, 0⟩
    let ops := [Op.set 1 account,
      .commit [(2, account), (1, ⟨0, [], 7, false, 0⟩), (2, ⟨9, [], 7, false, 0⟩)], .delete 3]
    (run Blake3.hash ops).stateRoot Blake3.hash =
      (fromEntries Blake3.hash ((run Blake3.hash ops).treeEntries Blake3.hash)).root Blake3.hash := by
  intro account ops
  refine (account_store_invariant ops fun op hop => ?_).1
  simp only [ops, List.mem_cons, List.not_mem_nil, or_false] at hop
  rcases hop with rfl | rfl | rfl
  · exact fits_empty 5
  · intro change hchange
    simp only [List.mem_cons, List.not_mem_nil, or_false] at hchange
    rcases hchange with rfl | rfl | rfl
    · exact fits_empty 5
    · exact fits_empty 0
    · exact fits_empty 9
  · trivial

end AccountFiles

end TaoDag.Database
