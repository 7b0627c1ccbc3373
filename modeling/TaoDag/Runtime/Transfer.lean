import TaoDag.Core.Blake3
import TaoDag.Runtime.BankState

namespace TaoDag.Runtime

open Consensus (Pubkey)
open Database (Account)

/-- An instruction: the program and the accounts, by position, and its data. -/
structure Instruction where
  programIdIndex : UInt8
  accounts : Bytes
  data : Bytes
  deriving DecidableEq

/-- A legacy transaction with fewer than 128 items in each list. -/
structure Transaction where
  signatures : List Bytes
  numRequiredSignatures : UInt8
  numReadonlySigned : UInt8
  numReadonlyUnsigned : UInt8
  accountKeys : List Pubkey
  recentBlockhash : Bytes32
  instructions : List Instruction
  deriving DecidableEq

namespace Transaction

def byte : Codec UInt8 :=
  Codec.via (Codec.raw 1) (fun b => [b]) (fun bs => bs.headD 0) (fun _ => rfl)

def instructionCodec : Codec Instruction :=
  Codec.via (byte.seq <| (Codec.shortVec byte).seq (Codec.shortVec byte))
    (fun i => (i.programIdIndex, i.accounts, i.data))
    (fun (programIdIndex, accounts, data) => { programIdIndex, accounts, data }) (fun _ => rfl)

def codec : Codec Transaction :=
  Codec.via
    ((Codec.shortVec (Codec.raw 64)).seq <| byte.seq <| byte.seq <| byte.seq <|
      (Codec.shortVec .bytes32).seq <| Codec.bytes32.seq (Codec.shortVec instructionCodec))
    (fun t => (t.signatures, t.numRequiredSignatures, t.numReadonlySigned,
      t.numReadonlyUnsigned, t.accountKeys, t.recentBlockhash, t.instructions))
    (fun (signatures, numRequiredSignatures, numReadonlySigned, numReadonlyUnsigned,
        accountKeys, recentBlockhash, instructions) =>
      { signatures, numRequiredSignatures, numReadonlySigned, numReadonlyUnsigned,
        accountKeys, recentBlockhash, instructions })
    (fun _ => rfl)

/-- Of the Ed25519 check, the rejection of the all-zero signature. -/
def verify (t : Transaction) : Except String Unit :=
  if List.replicate 64 0 ∈ t.signatures then .error "signature verification failure" else .ok ()

def sanitizes (t : Transaction) : Bool :=
  let keys := t.accountKeys.length
  decide (t.numRequiredSignatures.toNat ≤ t.signatures.length ∧ t.signatures.length ≤ keys ∧
    t.numRequiredSignatures.toNat + t.numReadonlyUnsigned.toNat ≤ keys ∧
    t.numReadonlySigned < t.numRequiredSignatures) &&
  t.instructions.all fun i =>
    decide (i.programIdIndex.toNat < keys ∧ i.programIdIndex ≠ 0) &&
    i.accounts.all fun a => decide (a.toNat < keys)

def isWritable (t : Transaction) (i : Nat) : Bool :=
  let signed := t.numRequiredSignatures.toNat
  decide (i < signed - t.numReadonlySigned.toNat ∨
    (signed ≤ i ∧ i < t.accountKeys.length - t.numReadonlyUnsigned.toNat))

/-- Lamports charged per signature. -/
def lamportsPerSignature : Nat := 5000

/-- The two accounts and the amount of a system transfer that is all of a transaction. -/
def transfer? (t : Transaction) : Option (Pubkey × Pubkey × Nat) :=
  match t.accountKeys, t.instructions with
  | [payer, dest, program], [⟨2, [0, 1], 2 :: 0 :: 0 :: 0 :: lamports⟩] =>
      if program = Ids.systemProgram then some (payer, dest, ofLE lamports) else none
  | _, _ => none

/-- The SVM on system transfers: the fee first, then the amount. -/
def svm (_blockhash : Bytes32) (load : Pubkey → Option Account) (t : Transaction) :
    ProcessingResult :=
  match t.transfer? with
  | none => .notProcessed "UnsupportedVersion"
  | some (payer, dest, lamports) =>
      let fee := lamportsPerSignature * t.signatures.length
      match load payer with
      | none => .notProcessed "AccountNotFound"
      | some p =>
          if p.owner ≠ Ids.systemProgram then .notProcessed "InvalidAccountForFee"
          else if p.lamports.toNat < fee then .notProcessed "InsufficientFundsForFee"
          else if payer = dest ∨ dest = Ids.systemProgram then .notProcessed "AccountLoadedTwice"
          else
            let charged := { p with lamports := p.lamports - BitVec.ofNat 64 fee }
            let target := (load dest).getD (Account.new 0 0 Ids.systemProgram)
            if charged.lamports.toNat < lamports then
              .executed [] [(payer, charged)] (BitVec.ofNat 64 fee)
                (.error "InstructionError(0, Custom(1))")
            else if 2^64 ≤ target.lamports.toNat + lamports then
              .executed [] [(payer, charged)] (BitVec.ofNat 64 fee)
                (.error "InstructionError(0, ArithmeticOverflow)")
            else
              let amount := BitVec.ofNat 64 lamports
              .executed
                [(payer, { charged with lamports := charged.lamports - amount }),
                  (dest, { target with lamports := target.lamports + amount }),
                  (Ids.systemProgram, (load Ids.systemProgram).getD
                    (Account.new 0 0 Ids.nativeLoader))]
                [(payer, charged)] (BitVec.ofNat 64 fee) (.ok ())

end Transaction

/-- The fraction of the bias that a subtree gets, by two to the power of its size. -/
def exactFraction (sizes : List Nat) (totalBias i : Nat) : Nat :=
  let weights := sizes.map (2^·)
  (2 * totalBias * weights.getD i 0 + weights.sum) / (2 * weights.sum)

/-- The environment of a chain of system transfers. -/
def transferEnv : Env Transaction where
  blake3 := Blake3.hash
  fractions := exactFraction
  encodeTx := fun t => .ok (Transaction.codec.encode t)
  decodeTx := Transaction.codec.deserialize
  verify := Transaction.verify
  sanitizes := Transaction.sanitizes
  isWritable := Transaction.isWritable
  svm := Transaction.svm
  -- `Rent::default()`: 3480 lamports per byte-year, threshold 2.0, burn 50 percent.
  rent := leBytes 8 3480 ++ leBytes 8 0x4000000000000000 ++ [50]
  -- `EpochSchedule::without_warmup()`: 432000 slots per epoch.
  epochSchedule := leBytes 8 432000 ++ leBytes 8 432000 ++ [0] ++ leBytes 8 0 ++ leBytes 8 0

theorem Bank.mem_of_mem_writable {Tx : Type} {env : Env Tx} {tx : Tx}
    {accounts : List (Pubkey × Account)} {change : Pubkey × Account}
    (h : change ∈ Bank.writable env tx accounts) : change ∈ accounts := by
  obtain ⟨⟨_, i⟩, hmem, rfl⟩ := List.mem_map.mp h
  exact List.fst_mem_of_mem_zipIdx (List.mem_of_mem_filter hmem)

/-- What a transfer has the bank commit: a payer, whom no program owns, or an account with at
least the lamports it had. -/
theorem Transaction.mem_committed (blockhash : Bytes32) {load : Pubkey → Option Account}
    {t : Transaction} {change : Pubkey × Account}
    (h : change ∈ (t.svm blockhash load).committed transferEnv t) :
    (∃ p, load change.1 = some p ∧ p.owner = Ids.systemProgram) ∨
    (∀ account, load change.1 = some account → ∃ amount : BitVec 64,
      account.lamports.toNat + amount.toNat < 2^64 ∧
      change.2 = { account with lamports := account.lamports + amount }) := by
  unfold Transaction.svm at h
  split at h
  · cases h
  rename_i payer dest lamports _
  cases hpayer : load payer with
  | none =>
    simp only [hpayer] at h
    cases h
  | some p =>
    simp only [hpayer] at h
    split at h
    · cases h
    rename_i howner
    have hcharged : ∃ q, load payer = some q ∧ q.owner = Ids.systemProgram :=
      ⟨p, hpayer, not_not.mp howner⟩
    split at h
    · cases h
    split at h
    · cases h
    split at h
    · obtain rfl := List.mem_singleton.mp h
      exact Or.inl hcharged
    split at h
    · obtain rfl := List.mem_singleton.mp h
      exact Or.inl hcharged
    rename_i hfits
    have hmem := Bank.mem_of_mem_writable h
    simp only [List.mem_cons, List.not_mem_nil, or_false] at hmem
    rcases hmem with rfl | rfl | rfl
    · exact Or.inl hcharged
    · refine Or.inr fun account haccount => ⟨BitVec.ofNat 64 lamports, ?_, ?_⟩
      · simp only [haccount, Option.getD_some] at hfits
        rw [BitVec.toNat_ofNat]
        omega
      · simp only [haccount, Option.getD_some]
    · refine Or.inr fun account haccount => ⟨0, ?_, ?_⟩
      · exact account.lamports.isLt
      · simp [haccount]

/-- A transfer debits no sysvar or builtin, since none is owned by the system program. -/
theorem keepsInstalled_transferEnv : Bank.KeepsInstalled transferEnv := by
  intro blockhash load t hload change hchange p hp hkey
  obtain ⟨account, haccount, howner, hdata, hlamports⟩ := hload p hp
  rw [hkey] at haccount
  rcases Transaction.mem_committed blockhash hchange with ⟨q, hq, hsystem⟩ | hcredit
  · cases haccount.symm.trans hq
    have hforeign : ∀ p ∈ Bank.installed transferEnv 0, p.2.owner ≠ Ids.systemProgram := by
      decide
    exact absurd (howner.symm.trans hsystem) (hforeign p hp)
  · obtain ⟨amount, hfits, hchanged⟩ := hcredit account haccount
    rw [hchanged]
    refine ⟨howner, hdata, fun hzero => hlamports ?_⟩
    have hsum := congrArg BitVec.toNat hzero
    rw [BitVec.toNat_add, Nat.mod_eq_of_lt hfits] at hsum
    apply BitVec.eq_of_toNat_eq
    exact Nat.eq_zero_of_add_eq_zero_right hsum

end TaoDag.Runtime
