import TaoDag.Database.AccountsDb
import TaoDag.Database.SmtTree

namespace TaoDag.Database.AccountsDb

open Consensus (Pubkey)
open Smt (Represents)
open SparseTree (leafAt)

variable {blake3 : Bytes → Hash}

/-- The leaf of every key. -/
def leaves (blake3 : Bytes → Hash) (db : AccountsDb) (key : Pubkey) : Hash :=
  leafFor blake3 key (db.get key)

/-- The stored nodes are those of the tree over the stored accounts. -/
def Exact (blake3 : Bytes → Hash) (db : AccountsDb) : Prop :=
  Represents blake3 db.smt (leafAt Smt.path Smt.emptyLeaf (db.leaves blake3))

/-- Two stores with the same accounts. -/
def Same (a b : AccountsDb) : Prop := ∀ key, a.get key = b.get key

theorem Same.refl (a : AccountsDb) : Same a a := fun _ => rfl

theorem Same.symm {a b : AccountsDb} (h : Same a b) : Same b a := fun key => (h key).symm

theorem Same.trans {a b c : AccountsDb} (h : Same a b) (h' : Same b c) : Same a c :=
  fun key => (h key).trans (h' key)

@[simp] theorem get_empty (key : Pubkey) : empty.get key = none := rfl

theorem smt_set (db : AccountsDb) (key : Pubkey) (account : Account) :
    (db.set blake3 key account).smt =
      Smt.updateLeaf blake3 db.smt key (leafFor blake3 key (some account)) := by rw [set]

theorem smt_delete (db : AccountsDb) (key : Pubkey) :
    (db.delete blake3 key).smt = Smt.updateLeaf blake3 db.smt key (leafFor blake3 key none) := by
  rw [delete]

theorem commit_cons (db : AccountsDb) (change : Pubkey × Account)
    (changes : List (Pubkey × Account)) :
    db.commit blake3 (change :: changes) = (db.commitOne blake3 change).commit blake3 changes := rfl

theorem get_set (db : AccountsDb) (key key' : Pubkey) (account : Account) :
    (db.set blake3 key account).get key' = if key' = key then some account else db.get key' := by
  by_cases h : key' = key
  · subst h
    simp [get, set]
  · simp [get, set, h, AList.lookup_insert_ne]

theorem get_delete (db : AccountsDb) (key key' : Pubkey) :
    (db.delete blake3 key).get key' = if key' = key then none else db.get key' := by
  by_cases h : key' = key
  · subst h
    simp [get, delete]
  · simp [get, delete, h, AList.lookup_erase_ne]

/-- What a commit leaves of an account: nothing, when it is purged. -/
def kept (account : Account) : Option Account := if account.isPurged then none else some account

theorem get_commitOne (db : AccountsDb) (change : Pubkey × Account) (key : Pubkey) :
    (db.commitOne blake3 change).get key =
      if key = change.1 then kept change.2 else db.get key := by
  rw [commitOne, kept]
  by_cases hp : change.2.isPurged
  · rw [if_pos hp, if_pos hp, get_delete]
  · rw [if_neg hp, if_neg hp, get_set]

private theorem leaves_update {db db' : AccountsDb} {key : Pubkey} {account : Option Account}
    (h : ∀ key', db'.get key' = if key' = key then account else db.get key') :
    db'.leaves blake3 =
      Function.update (db.leaves blake3) key (leafFor blake3 key account) := by
  funext key'
  by_cases hk : key' = key
  · subst hk
    rw [Function.update_self, leaves, h, if_pos rfl]
  · rw [Function.update_of_ne hk, leaves, h, if_neg hk, leaves]

private theorem Exact.update {db db' : AccountsDb} {key : Pubkey} {account : Option Account}
    (h : db.Exact blake3)
    (hget : ∀ key', db'.get key' = if key' = key then account else db.get key')
    (hsmt : db'.smt = Smt.updateLeaf blake3 db.smt key (leafFor blake3 key account)) :
    db'.Exact blake3 := by
  rw [Exact, hsmt, leaves_update hget, SparseTree.leafAt_update _ Smt.path_injective]
  exact h.updateLeaf key _

theorem exact_empty : empty.Exact blake3 := by
  have hleaf : leafAt Smt.path Smt.emptyLeaf (empty.leaves blake3) = fun _ => Smt.emptyLeaf := by
    funext p
    exact SparseTree.leafAt_const _ p
  rw [Exact, hleaf]
  exact Smt.represents_empty

theorem Exact.set {db : AccountsDb} (h : db.Exact blake3) (key : Pubkey) (account : Account) :
    (db.set blake3 key account).Exact blake3 :=
  h.update (get_set db key · account) (smt_set db key account)

theorem Exact.delete {db : AccountsDb} (h : db.Exact blake3) (key : Pubkey) :
    (db.delete blake3 key).Exact blake3 :=
  h.update (get_delete db key ·) (smt_delete db key)

theorem Exact.commitOne {db : AccountsDb} (h : db.Exact blake3) (change : Pubkey × Account) :
    (db.commitOne blake3 change).Exact blake3 := by
  rw [AccountsDb.commitOne]
  split
  · exact h.delete change.1
  · exact h.set change.1 change.2

theorem Exact.commit {db : AccountsDb} (h : db.Exact blake3)
    (changes : List (Pubkey × Account)) : (db.commit blake3 changes).Exact blake3 := by
  induction changes generalizing db with
  | nil => exact h
  | cons change changes ih => exact ih (h.commitOne change)

/-- The state root depends on the stored accounts only, not on how they came there. -/
theorem stateRoot_eq {a b : AccountsDb} (ha : a.Exact blake3) (hb : b.Exact blake3)
    (h : Same a b) : a.stateRoot blake3 = b.stateRoot blake3 := by
  have hleaves : a.leaves blake3 = b.leaves blake3 := by
    funext key
    rw [leaves, leaves, h key]
  rw [stateRoot, stateRoot, ha.storedRoot, hb.storedRoot, hleaves]

theorem Same.set {a b : AccountsDb} (h : Same a b) (key : Pubkey) (account : Account) :
    Same (a.set blake3 key account) (b.set blake3 key account) := by
  intro key'
  rw [get_set, get_set, h key']

theorem Same.commit {a b : AccountsDb} (h : Same a b) (changes : List (Pubkey × Account)) :
    Same (a.commit blake3 changes) (b.commit blake3 changes) := by
  induction changes generalizing a b with
  | nil => exact h
  | cons change changes ih =>
    refine ih fun key => ?_
    rw [get_commitOne, get_commitOne, h key]

theorem get_commit_of_not_mem (db : AccountsDb) {changes : List (Pubkey × Account)}
    {key : Pubkey} (h : key ∉ changes.map (·.1)) :
    (db.commit blake3 changes).get key = db.get key := by
  induction changes generalizing db with
  | nil => rfl
  | cons change changes ih =>
    rw [List.map_cons, List.mem_cons, not_or] at h
    rw [commit_cons, ih _ h.2, get_commitOne, if_neg h.1]

/-- Of changes to distinct keys, each takes effect. -/
theorem get_commit_of_mem (db : AccountsDb) {changes : List (Pubkey × Account)}
    (hn : (changes.map (·.1)).Nodup) {key : Pubkey} {account : Account}
    (h : (key, account) ∈ changes) : (db.commit blake3 changes).get key = kept account := by
  induction changes generalizing db with
  | nil => cases h
  | cons change changes ih =>
    rw [List.map_cons, List.nodup_cons] at hn
    rw [commit_cons]
    rcases List.mem_cons.mp h with rfl | h
    · rw [get_commit_of_not_mem _ hn.1, get_commitOne, if_pos rfl]
    · exact ih _ hn.2 h

private theorem dump_perm (db : AccountsDb) :
    db.dump.Perm (db.accounts.entries.map fun e => (e.1, e.2)) :=
  List.perm_insertionSort _ _

theorem dump_nodup (db : AccountsDb) : (db.dump.map (·.1)).Nodup := by
  rw [((dump_perm db).map (·.1)).nodup_iff, List.map_map]
  exact db.accounts.nodupKeys

theorem mem_dump {db : AccountsDb} {key : Pubkey} {account : Account} :
    (key, account) ∈ db.dump ↔ db.get key = some account := by
  rw [(dump_perm db).mem_iff, get, ← Option.mem_def, AList.mem_lookup_iff]
  constructor
  · intro h
    obtain ⟨e, he, heq⟩ := List.mem_map.mp h
    cases heq
    exact he
  · intro h
    exact List.mem_map.mpr ⟨_, h, rfl⟩

/-- A snapshot written over a store: its accounts, less the empty ones, and below them what the
store had. -/
theorem get_commit_dump (base db : AccountsDb) (key : Pubkey) :
    (base.commit blake3 db.dump).get key =
      match db.get key with
      | some account => kept account
      | none => base.get key := by
  cases h : db.get key with
  | some account => exact get_commit_of_mem base db.dump_nodup (mem_dump.mpr h)
  | none =>
    refine get_commit_of_not_mem base fun hmem => ?_
    obtain ⟨⟨key', account⟩, hp, rfl⟩ := List.mem_map.mp hmem
    rw [mem_dump.mp hp] at h
    cases h

end TaoDag.Database.AccountsDb
