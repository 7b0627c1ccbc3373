import TaoDag.Database.StateRoot
import TaoDag.Runtime.Bank

namespace TaoDag.Runtime

open Consensus (Pubkey)
open Database (Account AccountsDb)

variable {Tx : Type} {env : Env Tx}

/-- What the SVM has the bank commit for a transaction. -/
def ProcessingResult.committed (env : Env Tx) (tx : Tx) :
    ProcessingResult → List (Pubkey × Account)
  | .executed accounts _ _ (.ok ()) => Bank.writable env tx accounts
  | .executed _ rollbackAccounts _ (.error _) => rollbackAccounts
  | .feesOnly rollbackAccounts _ _ => rollbackAccounts
  | .notProcessed _ => []

namespace Bank

theorem applyResult_snd (bank : Bank) (tx : Tx) (r : ProcessingResult) :
    (bank.applyResult env tx r).2 = bank.commit env (r.committed env tx) := by
  cases r with
  | executed accounts rollbackAccounts fee status => cases status <;> rfl
  | feesOnly rollbackAccounts fee loadError => rfl
  | notProcessed error => rfl

/-- The sysvars and builtins of a bank, in the order they are written. -/
def installed (env : Env Tx) (slot : BitVec 64) : List (Pubkey × Account) :=
  [(Ids.clock, sysvarAccount (clockData slot)), (Ids.rent, sysvarAccount env.rent),
    (Ids.epochSchedule, sysvarAccount env.epochSchedule),
    (Ids.systemProgram, builtinAccount "system_program"),
    (Ids.bpfLoader, builtinAccount "solana_bpf_loader_program"),
    (Ids.bpfLoaderDeprecated, builtinAccount "solana_bpf_loader_deprecated_program"),
    (Ids.bpfLoaderUpgradeable, builtinAccount "solana_bpf_loader_upgradeable_program")]

def setAll (env : Env Tx) (bank : Bank) (l : List (Pubkey × Account)) : Bank :=
  l.foldl (fun bank p => bank.set env p.1 p.2) bank

theorem new_eq (db : AccountsDb) (slot : BitVec 64) :
    Bank.new env db slot = setAll env ⟨db, slot⟩ (installed env slot) := rfl

theorem installed_nodup (slot : BitVec 64) : ((installed env slot).map (·.1)).Nodup := by
  have h : [Ids.clock, Ids.rent, Ids.epochSchedule, Ids.systemProgram, Ids.bpfLoader,
    Ids.bpfLoaderDeprecated, Ids.bpfLoaderUpgradeable].Nodup := by decide
  exact h

theorem get_set (bank : Bank) (key key' : Pubkey) (account : Account) :
    (bank.set env key account).db.get key' = if key' = key then some account else bank.db.get key' :=
  AccountsDb.get_set bank.db key key' account

theorem get_setAll_of_not_mem (bank : Bank) {l : List (Pubkey × Account)} {key : Pubkey}
    (h : key ∉ l.map (·.1)) : (bank.setAll env l).db.get key = bank.db.get key := by
  induction l generalizing bank with
  | nil => rfl
  | cons p l ih =>
    rw [List.map_cons, List.mem_cons, not_or] at h
    have hset : bank.setAll env (p :: l) = (bank.set env p.1 p.2).setAll env l := rfl
    rw [hset, ih _ h.2, get_set, if_neg h.1]

theorem get_setAll_of_mem (bank : Bank) {l : List (Pubkey × Account)}
    (hn : (l.map (·.1)).Nodup) {p : Pubkey × Account} (h : p ∈ l) :
    (bank.setAll env l).db.get p.1 = some p.2 := by
  induction l generalizing bank with
  | nil => cases h
  | cons q l ih =>
    rw [List.map_cons, List.nodup_cons] at hn
    have hset : bank.setAll env (q :: l) = (bank.set env q.1 q.2).setAll env l := rfl
    rw [hset]
    rcases List.mem_cons.mp h with rfl | h
    · rw [get_setAll_of_not_mem _ hn.1, get_set, if_pos rfl]
    · exact ih _ hn.2 h

/-- A new bank has its sysvars and builtins, whatever the store held for their keys. -/
theorem get_new_of_mem {db : AccountsDb} {slot : BitVec 64} {p : Pubkey × Account}
    (h : p ∈ installed env slot) : (Bank.new env db slot).db.get p.1 = some p.2 := by
  rw [new_eq]
  exact get_setAll_of_mem _ (installed_nodup slot) h

theorem get_new_of_not_mem {db : AccountsDb} {slot : BitVec 64} {key : Pubkey}
    (h : key ∉ (installed env slot).map (·.1)) :
    (Bank.new env db slot).db.get key = db.get key := by
  rw [new_eq, get_setAll_of_not_mem _ h]

theorem exact_setAll (bank : Bank) (h : bank.db.Exact env.blake3) (l : List (Pubkey × Account)) :
    (bank.setAll env l).db.Exact env.blake3 := by
  induction l generalizing bank with
  | nil => exact h
  | cons p l ih => exact ih _ (h.set p.1 p.2)

theorem exact_new {db : AccountsDb} (h : db.Exact env.blake3) (slot : BitVec 64) :
    (Bank.new env db slot).db.Exact env.blake3 := by
  rw [new_eq]
  exact exact_setAll ⟨db, slot⟩ h _

/-- An installed account as the SVM and the coinbase leave it: funded, with its owner and
data. -/
def Intact (p : Pubkey × Account) (account : Account) : Prop :=
  account.owner = p.2.owner ∧ account.data = p.2.data ∧ account.lamports ≠ 0

/-- The sysvars and builtins are there. -/
def HasInstalled (env : Env Tx) (load : Pubkey → Option Account) : Prop :=
  ∀ p ∈ installed env 0, ∃ account, load p.1 = some account ∧ Intact p account

/-- The SVM lets no transaction debit a sysvar or builtin or change its owner or data: none of
them belongs to a program that a transaction can invoke. -/
def KeepsInstalled (env : Env Tx) : Prop :=
  ∀ blockhash load tx, HasInstalled env load →
    ∀ change ∈ (env.svm blockhash load tx).committed env tx,
      ∀ p ∈ installed env 0, p.1 = change.1 → Intact p change.2

theorem Intact.not_purged {p : Pubkey × Account} {account : Account} (h : Intact p account) :
    account.isPurged = false := by
  have hl : (account.lamports == 0) = false := by simpa using h.2.2
  rw [Account.isPurged, hl, Bool.false_and]

/-- A bank that a snapshot of its accounts restores: no stored account is empty, and the
sysvars and builtins are there. -/
structure Restorable (env : Env Tx) (bank : Bank) : Prop where
  exact : bank.db.Exact env.blake3
  unpurged : ∀ key account, bank.db.get key = some account → account.isPurged = false
  installed : HasInstalled env bank.db.get

private theorem installed_intact : ∀ p ∈ installed env 0, Intact p p.2 := by
  intro p hp
  refine ⟨rfl, rfl, ?_⟩
  simp only [Bank.installed, List.mem_cons, List.not_mem_nil, or_false] at hp
  have h1 : (1 : BitVec 64) ≠ 0 := by decide
  rcases hp with rfl | rfl | rfl | rfl | rfl | rfl | rfl <;> exact h1

theorem Restorable.new {db : AccountsDb} (h : db.Exact env.blake3)
    (hu : ∀ key account, db.get key = some account → account.isPurged = false) :
    Restorable env (Bank.new env db 0) where
  exact := exact_new h 0
  unpurged := by
    intro key account hget
    by_cases hk : key ∈ (Bank.installed env 0).map (·.1)
    · obtain ⟨p, hp, rfl⟩ := List.mem_map.mp hk
      rw [get_new_of_mem hp] at hget
      cases hget
      exact (installed_intact p hp).not_purged
    · rw [get_new_of_not_mem hk] at hget
      exact hu key account hget
  installed := fun p hp => ⟨p.2, get_new_of_mem hp, installed_intact p hp⟩

theorem Restorable.commit {bank : Bank} (h : Restorable env bank)
    {changes : List (Pubkey × Account)}
    (hc : ∀ change ∈ changes, ∀ p ∈ Bank.installed env 0, p.1 = change.1 → Intact p change.2) :
    Restorable env (bank.commit env changes) := by
  induction changes generalizing bank with
  | nil => exact h
  | cons change changes ih =>
    have hone : Restorable env (bank.commit env [change]) := by
      have hget : ∀ key, (bank.commit env [change]).db.get key =
          if key = change.1 then AccountsDb.kept change.2 else bank.db.get key :=
        fun key => AccountsDb.get_commitOne bank.db change key
      refine ⟨h.exact.commit [change], ?_, ?_⟩
      · intro key account hk
        rw [hget] at hk
        split_ifs at hk with hkey
        · rw [AccountsDb.kept] at hk
          split_ifs at hk with hp
          cases hk
          simpa using hp
        · exact h.unpurged key account hk
      · intro p hp
        by_cases hkey : p.1 = change.1
        · have hi := hc change (List.mem_cons_self ..) p hp hkey
          refine ⟨change.2, ?_, hi⟩
          rw [hget, if_pos hkey, AccountsDb.kept, hi.not_purged]
          rfl
        · obtain ⟨account, ha, hi⟩ := h.installed p hp
          exact ⟨account, by rw [hget, if_neg hkey, ha], hi⟩
    exact ih hone fun c hc' => hc c (List.mem_cons_of_mem _ hc')

theorem saturatingAdd_ne_zero {a b : BitVec 64} (hb : b ≠ 0) : saturatingAdd a b ≠ 0 := by
  have hb' : b.toNat ≠ 0 := fun h => hb (BitVec.eq_of_toNat_eq h)
  rw [saturatingAdd]
  split_ifs with h
  · intro h0
    have hsum : (a + b).toNat = a.toNat + b.toNat := by
      rw [BitVec.toNat_add, Nat.mod_eq_of_lt h]
    rw [h0] at hsum
    simp at hsum
    omega
  · decide

theorem Restorable.credit {bank : Bank} (h : Restorable env bank) (key : Pubkey)
    (lamports : BitVec 64) : Restorable env (bank.credit env key lamports) := by
  rw [Bank.credit]
  split_ifs with h0
  · exact h
  · have hne := saturatingAdd_ne_zero h0
      (a := ((bank.db.get key).getD (Account.new 0 0 Ids.systemProgram)).lamports)
    refine ⟨h.exact.set _ _, ?_, ?_⟩
    · intro key' account hget
      rw [get_set] at hget
      split_ifs at hget with hkey
      · cases hget
        have hl : (saturatingAdd
          ((bank.db.get key).getD (Account.new 0 0 Ids.systemProgram)).lamports lamports == 0) =
            false := by simpa using hne
        rw [Account.isPurged, hl, Bool.false_and]
      · exact h.unpurged key' account hget
    · intro p hp
      obtain ⟨account, ha, hi⟩ := h.installed p hp
      by_cases hkey : p.1 = key
      · refine ⟨_, by rw [get_set, if_pos hkey], ?_⟩
        rw [← hkey, ha]
        exact ⟨hi.1, hi.2.1, saturatingAdd_ne_zero h0⟩
      · exact ⟨account, by rw [get_set, if_neg hkey, ha], hi⟩

theorem executeTransaction_ok {bank bank' : Bank} {tx : Tx} {blockhash : Bytes32}
    {outcome : TxOutcome}
    (h : (bank.executeTransaction env tx blockhash).run = .ok (.ok (outcome, bank'))) :
    bank' = bank.commit env ((env.svm blockhash bank.db.get tx).committed env tx) := by
  rw [executeTransaction] at h
  cases hv : env.verify tx with
  | error e =>
    rw [hv] at h
    cases h
  | ok u =>
    simp only [hv] at h
    by_cases hs : env.sanitizes tx = true
    · rw [assert, if_pos hs] at h
      have hres : bank.applyResult env tx (env.svm blockhash bank.db.get tx) = (outcome, bank') :=
        Except.ok.inj (Except.ok.inj h)
      rw [← applyResult_snd, hres]
    · rw [assert, if_neg hs] at h
      cases h

theorem Restorable.executeTransaction (hk : KeepsInstalled env) {bank bank' : Bank} {tx : Tx}
    {blockhash : Bytes32} {outcome : TxOutcome} (h : Restorable env bank)
    (hb : (bank.executeTransaction env tx blockhash).run = .ok (.ok (outcome, bank'))) :
    Restorable env bank' := by
  rw [executeTransaction_ok hb]
  exact h.commit fun change hc => hk blockhash bank.db.get tx h.installed change hc

end Bank

section Outcomes

variable {α β γ δ : Type}

/-- How two runs of a fallible call compare: they end in the same way, with related values. -/
def SameOutcome (R : α → β → Prop) : Result (Except BankError α) → Result (Except BankError β) → Prop
  | .ok (.ok a), .ok (.ok b) => R a b
  | .ok (.error e), .ok (.error e') => e = e'
  | .error f, .error f' => f = f'
  | _, _ => False

theorem SameOutcome.mono {R R' : α → β → Prop} {x : Result (Except BankError α)}
    {y : Result (Except BankError β)} (h : SameOutcome R x y) (hR : ∀ a b, R a b → R' a b) :
    SameOutcome R' x y := by
  rcases x with f | e | a
  · rcases y with f' | e' | b <;> exact h
  · rcases y with f' | e' | b <;> exact h
  · rcases y with f' | e' | b
    · exact h
    · exact h
    · exact hR a b h

theorem SameOutcome.symm {R : α → α → Prop} (hR : ∀ a b, R a b → R b a)
    {x y : Result (Except BankError α)} (h : SameOutcome R x y) : SameOutcome R y x := by
  rcases x with f | e | a
  · rcases y with f' | e' | b
    · exact Eq.symm h
    · exact h
    · exact h
  · rcases y with f' | e' | b
    · exact h
    · exact Eq.symm h
    · exact h
  · rcases y with f' | e' | b
    · exact h
    · exact h
    · exact hR a b h

theorem SameOutcome.trans {R : α → α → Prop} (hR : ∀ a b c, R a b → R b c → R a c)
    {x y z : Result (Except BankError α)} (h : SameOutcome R x y) (h' : SameOutcome R y z) :
    SameOutcome R x z := by
  rcases x with f | e | a
  · rcases y with f' | e' | b
    · obtain rfl : f = f' := h
      exact h'
    · exact h.elim
    · exact h.elim
  · rcases y with f' | e' | b
    · exact h.elim
    · obtain rfl : e = e' := h
      exact h'
    · exact h.elim
  · rcases y with f' | e' | b
    · exact h.elim
    · exact h.elim
    · rcases z with f'' | e'' | c
      · exact h'
      · exact h'
      · exact hR a b c h h'

theorem SameOutcome.bind {R : α → β → Prop} {S : γ → δ → Prop} {x : BankM α} {y : BankM β}
    {f : α → BankM γ} {g : β → BankM δ} (h : SameOutcome R x.run y.run)
    (hfg : ∀ a b, R a b → SameOutcome S (f a).run (g b).run) :
    SameOutcome S (x >>= f).run (y >>= g).run := by
  rcases x with e | e | a
  · rcases y with e' | e' | b
    · exact h
    · exact h.elim
    · exact h.elim
  · rcases y with e' | e' | b
    · exact h.elim
    · exact h
    · exact h.elim
  · rcases y with e' | e' | b
    · exact h.elim
    · exact h.elim
    · exact hfg a b h

theorem SameOutcome.foldlM {ι : Type} {R : α → β → Prop} {f : α → ι → BankM α}
    {g : β → ι → BankM β} (hfg : ∀ i a b, R a b → SameOutcome R (f a i).run (g b i).run)
    (l : List ι) {a : α} {b : β} (h : R a b) :
    SameOutcome R (l.foldlM f a).run (l.foldlM g b).run := by
  induction l generalizing a b with
  | nil => exact h
  | cons i l ih =>
    rw [List.foldlM_cons, List.foldlM_cons]
    exact (hfg i a b h).bind fun a' b' h' => ih h'

theorem SameOutcome.of_ok {R : α → β → Prop} {x : Result (Except BankError α)} {b : β}
    (h : SameOutcome R x (.ok (.ok b))) : ∃ a, x = .ok (.ok a) ∧ R a b := by
  rcases x with f | e | a
  · exact h.elim
  · exact h.elim
  · exact ⟨a, rfl, h⟩

/-- The only way a bind of bank calls returns is through its first call. -/
theorem run_bind_eq_ok {x : BankM α} {f : α → BankM γ} {c : γ} :
    (x >>= f).run = .ok (.ok c) ↔ ∃ a, x.run = .ok (.ok a) ∧ (f a).run = .ok (.ok c) := by
  constructor
  · intro h
    rcases x with e | (e | a)
    · cases h
    · cases h
    · exact ⟨a, rfl, h⟩
  · rintro ⟨a, hx, hf⟩
    rcases x with e | (e | a')
    · cases hx
    · cases hx
    · cases hx
      exact hf

/-- A bind of bank calls that does not panic: its first call fails, or the second one ends it. -/
theorem run_bind_eq {x : BankM α} {f : α → BankM γ} {v : Except BankError γ} :
    (x >>= f).run = .ok v ↔
      (∃ e, x.run = .ok (.error e) ∧ v = .error e) ∨
        ∃ a, x.run = .ok (.ok a) ∧ (f a).run = .ok v := by
  rcases x with e | (e | a)
  · constructor
    · intro h
      cases h
    · rintro (⟨_, h, _⟩ | ⟨_, h, _⟩) <;> cases h
  · constructor
    · intro h
      cases h
      exact Or.inl ⟨e, rfl, rfl⟩
    · rintro (⟨_, h, rfl⟩ | ⟨_, h, _⟩)
      · cases h
        rfl
      · cases h
  · constructor
    · intro h
      exact Or.inr ⟨a, rfl, h⟩
    · rintro (⟨_, h, _⟩ | ⟨_, h, hf⟩)
      · cases h
      · cases h
        exact hf

theorem run_bind_of_ok {x : BankM α} {f : α → BankM γ} {a : α} (h : x.run = .ok (.ok a)) :
    (x >>= f).run = (f a).run := by
  rcases x with e | (e | b)
  · cases h
  · cases h
  · cases h
    rfl

/-- A call outside the bank fails by a panic only. -/
theorem run_lift_eq {x : Result α} {v : Except BankError α} :
    (liftM x : BankM α).run = .ok v ↔ ∃ a, x = .ok a ∧ v = .ok a := by
  cases x with
  | error f =>
    constructor
    · intro h
      cases h
    · rintro ⟨_, h, _⟩
      cases h
  | ok a =>
    constructor
    · intro h
      cases h
      exact ⟨a, rfl, rfl⟩
    · rintro ⟨_, h, rfl⟩
      cases h
      rfl

theorem foldlM_invariant {ι : Type} {P : α → Prop} {f : α → ι → BankM α}
    (hf : ∀ i a a', P a → (f a i).run = .ok (.ok a') → P a') (l : List ι) {a a' : α} (h : P a)
    (hl : (l.foldlM f a).run = .ok (.ok a')) : P a' := by
  induction l generalizing a with
  | nil =>
    cases hl
    exact h
  | cons i l ih =>
    rw [List.foldlM_cons] at hl
    obtain ⟨b, hb, hl⟩ := run_bind_eq_ok.mp hl
    exact ih (hf i a b h hb) hl

end Outcomes

namespace Bank

/-- Two banks over the same accounts. -/
def Same (a b : Bank) : Prop := AccountsDb.Same a.db b.db

theorem Same.refl (a : Bank) : Same a a := AccountsDb.Same.refl a.db

theorem Same.symm {a b : Bank} (h : Same a b) : Same b a := AccountsDb.Same.symm h

theorem Same.trans {a b c : Bank} (h : Same a b) (h' : Same b c) : Same a c :=
  AccountsDb.Same.trans h h'

/-- A bank is restorable by what it stores. -/
theorem Restorable.of_same {a b : Bank} (h : Restorable env b) (hs : Same a b)
    (he : a.db.Exact env.blake3) : Restorable env a where
  exact := he
  unpurged := fun key account hget => h.unpurged key account ((hs key).symm.trans hget)
  installed := fun p hp => by
    obtain ⟨account, hget, hintact⟩ := h.installed p hp
    exact ⟨account, (hs p.1).trans hget, hintact⟩

theorem Same.credit {a b : Bank} (h : Same a b) (key : Pubkey) (lamports : BitVec 64) :
    Same (a.credit env key lamports) (b.credit env key lamports) := by
  rw [Bank.credit, Bank.credit]
  split_ifs with h0
  · exact h
  · rw [h key]
    exact AccountsDb.Same.set h _ _

/-- A transaction does the same to the same accounts. -/
theorem Same.executeTransaction {a b : Bank} (h : Same a b) (tx : Tx) (blockhash : Bytes32) :
    SameOutcome (fun p q => p.1 = q.1 ∧ Same p.2 q.2)
      (a.executeTransaction env tx blockhash).run (b.executeTransaction env tx blockhash).run := by
  have hget : a.db.get = b.db.get := funext h
  rw [Bank.executeTransaction, Bank.executeTransaction, hget]
  cases env.verify tx with
  | error e => exact rfl
  | ok u =>
    by_cases hs : env.sanitizes tx = true
    · rw [assert, if_pos hs]
      have hout : (a.applyResult env tx (env.svm blockhash b.db.get tx)).1 =
          (b.applyResult env tx (env.svm blockhash b.db.get tx)).1 := by
        cases env.svm blockhash b.db.get tx with
        | executed accounts rollbackAccounts fee status => cases status <;> rfl
        | feesOnly rollbackAccounts fee loadError => rfl
        | notProcessed error => rfl
      refine ⟨hout, ?_⟩
      rw [applyResult_snd, applyResult_snd]
      exact AccountsDb.Same.commit h _
    · rw [assert, if_neg hs]
      exact rfl

theorem Same.stateRoot_eq {a b : Bank} (h : Same a b) (ha : a.db.Exact env.blake3)
    (hb : b.db.Exact env.blake3) : a.stateRoot env = b.stateRoot env :=
  AccountsDb.stateRoot_eq ha hb h

/-- A snapshot of a restorable bank, written over the sysvars and builtins, restores it. -/
theorem Restorable.restore {bank : Bank} (h : Restorable env bank) :
    Same ((Bank.new env AccountsDb.empty 0).commit env bank.db.dump) bank := by
  intro key
  change ((Bank.new env AccountsDb.empty 0).db.commit env.blake3 bank.db.dump).get key = _
  rw [AccountsDb.get_commit_dump]
  cases hk : bank.db.get key with
  | some account =>
    have hu := h.unpurged key account hk
    simp [AccountsDb.kept, hu]
  | none =>
    have hnot : key ∉ (Bank.installed env 0).map (·.1) := by
      intro hmem
      obtain ⟨p, hp, rfl⟩ := List.mem_map.mp hmem
      obtain ⟨account, ha, _⟩ := h.installed p hp
      rw [hk] at ha
      cases ha
    exact get_new_of_not_mem hnot

end Bank

end TaoDag.Runtime
