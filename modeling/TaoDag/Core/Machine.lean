import TaoDag.Framework.Returns
import Mathlib.Data.List.AList
import Mathlib.Data.BitVec

namespace TaoDag

/-- A `[u8; 32]`, read big-endian: byte order and numeric order agree. -/
abbrev Bytes32 := BitVec 256

/-- An opaque 32-byte block id. -/
abbrev Hash := Bytes32

instance : LawfulBEq Hash := inferInstance

abbrev BlockHashMap (ν : Type*) := AList (fun _ : Hash => ν)

theorem lookup_singleton {ν : Type*} {key x : Hash} {value v : ν} :
    (AList.singleton key value : BlockHashMap ν).lookup x = some v ↔ x = key ∧ v = value := by
  rw [← AList.insert_empty]
  by_cases hx : x = key
  · rw [hx, AList.lookup_insert, Option.some_inj]
    simp [eq_comm]
  · rw [AList.lookup_insert_ne hx]
    simp [hx]

namespace blockhash

/-- The reachability tree root, a virtual block above genesis. -/
def origin : Hash := BitVec.allOnes 256

/-- The "no parent" sentinel. -/
def none : Hash := 0#256

end blockhash

def Hash.isNone (h : Hash) : Bool := h == blockhash.none

inductive StoreError where
  | keyNotFound (h : Hash)
  | hashAlreadyExists (h : Hash)
  deriving DecidableEq

inductive ReachabilityError where
  | storeError (e : StoreError)
  | dataOverflow (msg : String)
  | dataInconsistency
  | badQuery
  deriving DecidableEq

/-- How a call fails to return a value: an `Err` of the reachability layer, a panic
(a failed assertion, an `unwrap` of an error, an arithmetic overflow of a checked
build), or a loop that outruns the bound of its model. -/
inductive Fault where
  | error (e : ReachabilityError)
  | panic (msg : String)
  | diverge
  deriving DecidableEq

abbrev Result (α : Type*) := Except Fault α

/-- `Result::unwrap`: an `Err` becomes a panic. -/
def unwrap {α : Type*} : Result α → Result α
  | .error (.error _) => .error (.panic "called `Result::unwrap()` on an `Err` value")
  | x => x

theorem eq_ok_of_unwrap {α : Type*} {x : Result α} {a : α} (h : unwrap x = .ok a) : x = .ok a := by
  cases x with
  | ok b => exact h
  | error e => cases e <;> cases h

theorem unwrap_returns {α : Type*} {C : Prop} {x : Result α} {Q : α → Prop}
    (h : Returns C x Q) : Returns C (unwrap x) Q := by
  cases hx : x with
  | ok a =>
    rw [hx] at h
    exact h
  | error e =>
    have hc : ¬C := fun hc => by
      obtain ⟨a, ha⟩ := h.2 hc
      rw [hx] at ha
      cases ha
    cases e <;> exact Returns.error hc

/-- `Option::unwrap` and indexing by a key that may be absent. -/
def expect {α : Type*} (msg : String) : Option α → Result α
  | some a => .ok a
  | Option.none => .error (.panic msg)

def assert (p : Prop) [Decidable p] (msg : String) : Result Unit :=
  if p then .ok () else .error (.panic msg)

def u64Max : Nat := 2^64 - 1

/-- Addition in a machine type with the given largest value. -/
def addUpTo (limit a b : Nat) : Result Nat :=
  if a + b ≤ limit then .ok (a + b) else .error (.panic "attempt to add with overflow")

def addU64 (a b : Nat) : Result Nat := addUpTo u64Max a b

def subU64 (a b : Nat) : Result Nat :=
  if b ≤ a then .ok (a - b) else .error (.panic "attempt to subtract with overflow")

def mulU64 (a b : Nat) : Result Nat :=
  if a * b ≤ u64Max then .ok (a * b) else .error (.panic "attempt to multiply with overflow")

/-- `iter().sum::<u64>()`. -/
def sumU64 : List Nat → Result Nat
  | [] => .ok 0
  | a :: as => do addU64 a (← sumU64 as)

section Specs

variable {C : Prop}

theorem assert_spec {p : Prop} [Decidable p] {msg : String} (h : C → p) :
    Returns C (assert p msg) (fun _ => p) := Returns.check h

theorem addUpTo_spec {limit a b : Nat} (h : C → a + b ≤ limit) :
    Returns C (addUpTo limit a b) (fun r => r = a + b ∧ a + b ≤ limit) := by
  by_cases hp : a + b ≤ limit
  · rw [addUpTo, if_pos hp]
    exact Returns.ok ⟨rfl, hp⟩
  · rw [addUpTo, if_neg hp]
    exact Returns.error fun hc => hp (h hc)

theorem addU64_spec {a b : Nat} (h : C → a + b ≤ u64Max) :
    Returns C (addU64 a b) (fun r => r = a + b ∧ a + b ≤ u64Max) := addUpTo_spec h

theorem subU64_spec {a b : Nat} (h : C → b ≤ a) :
    Returns C (subU64 a b) (fun r => r = a - b ∧ b ≤ a) := by
  by_cases hp : b ≤ a
  · rw [subU64, if_pos hp]
    exact Returns.ok ⟨rfl, hp⟩
  · rw [subU64, if_neg hp]
    exact Returns.error fun hc => hp (h hc)

theorem mulU64_spec {a b : Nat} (h : C → a * b ≤ u64Max) :
    Returns C (mulU64 a b) (fun r => r = a * b ∧ a * b ≤ u64Max) := by
  by_cases hp : a * b ≤ u64Max
  · rw [mulU64, if_pos hp]
    exact Returns.ok ⟨rfl, hp⟩
  · rw [mulU64, if_neg hp]
    exact Returns.error fun hc => hp (h hc)

theorem sumU64_spec {as : List Nat} (h : C → as.sum ≤ u64Max) :
    Returns C (sumU64 as) (fun r => r = as.sum ∧ as.sum ≤ u64Max) := by
  induction as with
  | nil => exact Returns.ok ⟨rfl, by simp⟩
  | cons a as ih =>
    have tail : C → as.sum ≤ u64Max := fun hc => by
      have := h hc
      rw [List.sum_cons] at this
      omega
    refine Returns.bind (ih tail) fun s hs => ?_
    rw [hs.1]
    simpa only [List.sum_cons] using addU64_spec (C := C) (by simpa using h)

theorem expect_spec {α : Type*} {msg : String} {o : Option α} {Q : α → Prop}
    (h : C → ∃ a, o = some a) (hq : ∀ a, o = some a → Q a) : Returns C (expect msg o) Q := by
  cases ho : o with
  | none =>
    refine Returns.error fun hc => ?_
    obtain ⟨a, ha⟩ := h hc
    rw [ho] at ha
    cases ha
  | some a => exact Returns.ok (hq a ho)

@[simp] theorem expect_eq_ok {α : Type*} {msg : String} {o : Option α} {a : α} :
    expect msg o = .ok a ↔ o = some a := by
  cases o with
  | none => simp [expect]
  | some b => simp [expect]

end Specs

end TaoDag
