import TaoDag.Database.AccountStore
import TaoDag.Framework.Returns

namespace TaoDag.Database

open Consensus (Pubkey)

variable {blake3 : Bytes → Hash} {db : AccountFiles} {a : AccountsDb}
  {l : List (Pubkey × Account)}

/-- The accounts of a store, each key once. -/
structure AccountsDb.Dumped (a : AccountsDb) (l : List (Pubkey × Account)) : Prop where
  nodup : (l.map (·.1)).Nodup
  mem : ∀ {key account}, (key, account) ∈ l ↔ a.get key = some account

/-- What a dump leaves when it is committed into an empty store: no empty account. -/
theorem AccountsDb.Dumped.get_commit (h : a.Dumped l) (key : Pubkey) :
    (AccountsDb.empty.commit blake3 l).get key = (a.get key).bind kept := by
  cases hget : a.get key with
  | some account => exact get_commit_of_mem empty h.nodup (h.mem.mpr hget)
  | none =>
    refine get_commit_of_not_mem empty fun hmem => ?_
    obtain ⟨⟨key', account⟩, hp, rfl⟩ := List.mem_map.mp hmem
    rw [h.mem.mp hp] at hget
    cases hget

namespace AccountFiles

/-- Every account, in key order. -/
def dump (db : AccountFiles) : Except String (List (Pubkey × Account)) :=
  ((db.accounts.entries.map fun e => (e.1, e.2)).insertionSort fun a b =>
    a.1.toNat ≤ b.1.toNat).mapM fun e => do return (e.1, ← Account.codec.deserialize e.2)

theorem Sound.dump (h : Sound blake3 db a) : ∃ l, db.dump = .ok l ∧ a.Dumped l := by
  let raw := (db.accounts.entries.map fun e => (e.1, e.2)).insertionSort fun a b =>
    a.1.toNat ≤ b.1.toNat
  let read : Pubkey × Bytes → Pubkey × Account := fun e =>
    (e.1, (a.get e.1).getD (Account.new 0 0 0))
  have hperm : raw.Perm (db.accounts.entries.map fun e => (e.1, e.2)) :=
    List.perm_insertionSort _ _
  have hmem : ∀ key bytes, (key, bytes) ∈ raw ↔ db.accounts.lookup key = some bytes := by
    intro key bytes
    rw [hperm.mem_iff, ← Option.mem_def, AList.mem_lookup_iff]
    constructor
    · intro hraw
      obtain ⟨e, he, heq⟩ := List.mem_map.mp hraw
      cases heq
      exact he
    · intro hentry
      exact List.mem_map.mpr ⟨_, hentry, rfl⟩
  have hread : ∀ e ∈ raw, Returns True
      (do return (e.1, ← Account.codec.deserialize e.2) : Except String (Pubkey × Account))
      fun p => p = read e ∧ a.get e.1 = some (read e).2 := by
    rintro ⟨key, bytes⟩ he
    have hstored := (hmem key bytes).mp he
    rw [h.holds.accounts] at hstored
    obtain ⟨account, hget, rfl⟩ := Option.map_eq_some_iff.mp hstored
    simp only [Account.codec.deserialize_encode (h.fits key account hget)]
    have hreads : read (key, Account.codec.encode account) = (key, account) := by
      simp only [read, hget, Option.getD_some]
    rw [hreads]
    exact Returns.pure ⟨rfl, hget⟩
  obtain ⟨l, hl, rfl, hstored⟩ := (Returns.mapM (P := fun e => a.get e.1 = some (read e).2) hread).total
  refine ⟨raw.map read, hl, ?_, ?_⟩
  · rw [List.map_map]
    have hkeys : raw.map (·.1) = (raw.map read).map (·.1) := by
      rw [List.map_map]
      rfl
    change (raw.map (·.1)).Nodup
    rw [(hperm.map (·.1)).nodup_iff, List.map_map]
    exact db.accounts.nodupKeys
  · intro key account
    constructor
    · intro hmem'
      obtain ⟨e, he, heq⟩ := List.mem_map.mp hmem'
      have hget := hstored e he
      rw [heq] at hget
      rwa [show e.1 = key from congrArg Prod.fst heq] at hget
    · intro hget
      refine List.mem_map.mpr ⟨(key, Account.codec.encode account), ?_, ?_⟩
      · rw [hmem, h.holds.accounts, hget]
        rfl
      · simp only [read, hget, Option.getD_some]

/-- A restored store is sound again: it holds the accounts that are not empty. -/
theorem Sound.restore (h : Sound blake3 db a) (hl : a.Dumped l) :
    Sound blake3 (empty.commit blake3 l) (AccountsDb.empty.commit blake3 l) where
  holds := holds_empty.commit l
  exact := AccountsDb.exact_empty.commit l
  fits := by
    intro key account hget
    rw [hl.get_commit] at hget
    obtain ⟨account', hget', hkept⟩ := Option.bind_eq_some_iff.mp hget
    rw [AccountsDb.kept] at hkept
    split at hkept
    · cases hkept
    · cases hkept
      exact h.fits key account hget'

theorem Sound.same_root {db' : AccountFiles} {a' : AccountsDb} (h : Sound blake3 db a)
    (h' : Sound blake3 db' a') (hsame : AccountsDb.Same a a') :
    db.stateRoot blake3 = db'.stateRoot blake3 := by
  rw [h.stateRoot, h'.stateRoot]
  have hvalues : db.valueHashes blake3 = db'.valueHashes blake3 := by
    funext key
    rw [valueHashes, valueHashes, h.holds.accounts, h'.holds.accounts, hsame]
  rw [hvalues]

/-- `db` is restored whole by its dump: every account and the state root. -/
def Restores (blake3 : Bytes → Hash) (db : AccountFiles) : Prop :=
  ∃ l, db.dump = .ok l ∧ (∀ key, (empty.commit blake3 l).get key = db.get key) ∧
    (empty.commit blake3 l).stateRoot blake3 = db.stateRoot blake3

theorem Sound.restores (h : Sound blake3 db a) : Restores blake3 db ↔
    ∀ key account, db.get key = .ok (some account) → account.isPurged = false := by
  obtain ⟨l, hdump, hl⟩ := h.dump
  have hrestored := h.restore hl
  constructor
  · rintro ⟨l', hdump', hget, _⟩ key account hstored
    cases hdump.symm.trans hdump'
    have hsame := hget key
    rw [hstored, hrestored.get, hl.get_commit] at hsame
    rw [h.get] at hstored
    rw [Except.ok.inj hstored, Option.bind_some, AccountsDb.kept] at hsame
    split at hsame
    · cases hsame
    · rename_i hkept
      exact Bool.eq_false_of_not_eq_true hkept
  · intro hfull
    have hsame : AccountsDb.Same (AccountsDb.empty.commit blake3 l) a := by
      intro key
      rw [hl.get_commit]
      cases hget : a.get key with
      | none => rfl
      | some account =>
        have hunpurged := hfull key account ((h.get key).trans (congrArg Except.ok hget))
        rw [Option.bind_some, AccountsDb.kept, hunpurged]
        rfl
    refine ⟨l, hdump, fun key => ?_, hrestored.same_root h hsame⟩
    rw [hrestored.get, h.get, hsame]

/-- After any calls, a dump restores the store if and only if no stored account is empty. -/
theorem restores_iff (ops : List Op) (hfits : ∀ op ∈ ops, op.Fits) :
    Restores blake3 (run blake3 ops) ↔
      ∀ key account, (run blake3 ops).get key = .ok (some account) → account.isPurged = false := by
  obtain ⟨a, h⟩ := @run_sound blake3 _ hfits
  exact h.restores

/-- A store in which a commit has purged an account, and one account is left. -/
theorem restores_iff_commit :
    let ops := [Op.set 1 ⟨0, [], 7, false, 0⟩, .commit [(2, ⟨5, [], 7, false, 0⟩),
      (1, ⟨0, [], 7, false, 0⟩)]]
    Restores Blake3.hash (run Blake3.hash ops) ↔ ∀ key account,
      (run Blake3.hash ops).get key = .ok (some account) → account.isPurged = false := by
  intro ops
  apply restores_iff
  intro op hop
  simp only [ops, List.mem_cons, List.not_mem_nil, or_false] at hop
  rcases hop with rfl | rfl
  · exact fits_empty 0
  · intro change hchange
    simp only [List.mem_cons, List.not_mem_nil, or_false] at hchange
    rcases hchange with rfl | rfl
    · exact fits_empty 5
    · exact fits_empty 0

/-- `set` stores an empty account, whatever the hash. -/
theorem sound_set {key : Pubkey} {account : Account} (hfits : Account.codec.Fits account) :
    Sound blake3 (run blake3 [.set key account]) (AccountsDb.empty.set blake3 key account) where
  holds := holds_empty.set key account
  exact := AccountsDb.exact_empty.set key account
  fits := by
    intro key' account' hget
    rw [AccountsDb.get_set] at hget
    split at hget
    · cases hget
      exact hfits
    · cases hget

/-- The commit of the dump leaves it out. -/
theorem not_restores_purged {key : Pubkey} {account : Account} (hfits : Account.codec.Fits account)
    (hpurged : account.isPurged = true) : ¬Restores blake3 (run blake3 [.set key account]) := by
  have hsound : Sound blake3 (run blake3 [.set key account]) _ := sound_set hfits
  intro h
  have hstored : (run blake3 [.set key account]).get key = .ok (some account) := by
    rw [hsound.get, AccountsDb.get_set, if_pos rfl]
  rw [hsound.restores.mp h key account hstored] at hpurged
  cases hpurged

theorem not_restores_set : ¬Restores Blake3.hash (run Blake3.hash [.set 1 ⟨0, [], 7, false, 0⟩]) :=
  not_restores_purged (fits_empty 0) rfl

end AccountFiles

end TaoDag.Database
