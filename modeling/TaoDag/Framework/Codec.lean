import Mathlib.Logic.Basic
import Mathlib.Tactic.Basic
import Mathlib.Data.List.Basic
import Mathlib.Data.BitVec

namespace TaoDag

abbrev Bytes := List UInt8

/-- The `n` low bytes of `x`, least significant first. -/
def leBytes : Nat → Nat → Bytes
  | 0, _ => []
  | n+1, x => UInt8.ofNat x :: leBytes n (x / 256)

def ofLE : Bytes → Nat
  | [] => 0
  | b :: bs => b.toNat + 256 * ofLE bs

/-- The `n` low bytes of `x`, most significant first. -/
def beBytes (n x : Nat) : Bytes := (leBytes n x).reverse

def ofBE (bs : Bytes) : Nat := ofLE bs.reverse

@[simp] theorem leBytes_length (n x : Nat) : (leBytes n x).length = n := by
  induction n generalizing x with
  | zero => rfl
  | succ n ih => simp [leBytes, ih]

@[simp] theorem beBytes_length (n x : Nat) : (beBytes n x).length = n := by simp [beBytes]

theorem ofLE_leBytes (n x : Nat) : ofLE (leBytes n x) = x % 256^n := by
  induction n generalizing x with
  | zero => simp [leBytes, ofLE, Nat.mod_one]
  | succ n ih =>
    have hb : (UInt8.ofNat x).toNat = x % 256 := by simp
    rw [leBytes, ofLE, ih, hb, pow_succ', Nat.mod_mul]

theorem ofLE_leBytes_of_lt {n x : Nat} (h : x < 256^n) : ofLE (leBytes n x) = x := by
  rw [ofLE_leBytes, Nat.mod_eq_of_lt h]

theorem ofBE_beBytes_of_lt {n x : Nat} (h : x < 256^n) : ofBE (beBytes n x) = x := by
  simpa only [ofBE, beBytes, List.reverse_reverse] using ofLE_leBytes_of_lt h

/-- A binary format: how a value is written, and how one is read off the front of a byte
string. What was written is read back, whatever follows it. -/
structure Codec (α : Type) where
  encode : α → Bytes
  decode : Bytes → Except String (α × Bytes)
  Fits : α → Prop
  decode_encode : ∀ a rest, Fits a → decode (encode a ++ rest) = .ok (a, rest)

namespace Codec

variable {α β : Type}

theorem encode_append_inj (c : Codec α) {a b : α} {r s : Bytes} (ha : c.Fits a) (hb : c.Fits b)
    (h : c.encode a ++ r = c.encode b ++ s) : a = b ∧ r = s := by
  have hd := c.decode_encode a r ha
  rw [h, c.decode_encode b s hb] at hd
  cases hd
  exact ⟨rfl, rfl⟩

theorem encode_inj (c : Codec α) {a b : α} (ha : c.Fits a) (hb : c.Fits b)
    (h : c.encode a = c.encode b) : a = b := by
  have h' : c.encode a ++ [] = c.encode b ++ [] := by rw [h]
  exact (c.encode_append_inj ha hb h').1

def eofMessage : String := "io error: unexpected end of file"

/-- `n` raw bytes. -/
def takeBytes (n : Nat) (bs : Bytes) : Except String (Bytes × Bytes) :=
  if n ≤ bs.length then .ok (bs.take n, bs.drop n) else .error eofMessage

theorem takeBytes_append {n : Nat} {bs rest : Bytes} (h : bs.length = n) :
    takeBytes n (bs ++ rest) = .ok (bs, rest) := by
  subst h
  have hle : bs.length ≤ (bs ++ rest).length := by simp
  rw [takeBytes, if_pos hle]
  simp

/-- A fixed-width little-endian integer of `n` bytes. -/
def uint (n : Nat) : Codec (BitVec (8*n)) where
  encode x := leBytes n x.toNat
  decode bs := do
    let (raw, rest) ← takeBytes n bs
    return (BitVec.ofNat _ (ofLE raw), rest)
  Fits _ := True
  decode_encode := by
    intro x rest _
    have hx : x.toNat < 256^n := by
      have h := x.isLt
      rwa [pow_mul] at h
    rw [takeBytes_append (leBytes_length n _)]
    simp [bind, Except.bind, pure, Except.pure, ofLE_leBytes_of_lt hx]

def u32 : Codec (BitVec 32) := uint 4

def u64 : Codec (BitVec 64) := uint 8

/-- `[u8; 32]`, and the types that wrap one. -/
def bytes32 : Codec (BitVec 256) where
  encode x := beBytes 32 x.toNat
  decode bs := do
    let (raw, rest) ← takeBytes 32 bs
    return (BitVec.ofNat _ (ofBE raw), rest)
  Fits _ := True
  decode_encode := by
    intro x rest _
    have hx : x.toNat < 256^32 := x.isLt
    rw [takeBytes_append (beBytes_length 32 _)]
    simp [bind, Except.bind, pure, Except.pure, ofBE_beBytes_of_lt hx]

theorem bytes32_encode_length (x : BitVec 256) : (bytes32.encode x).length = 32 :=
  beBytes_length 32 _

/-- One value after the other. -/
def seq (c : Codec α) (d : Codec β) : Codec (α × β) where
  encode x := c.encode x.1 ++ d.encode x.2
  decode bs := do
    let (a, bs) ← c.decode bs
    let (b, bs) ← d.decode bs
    return ((a, b), bs)
  Fits x := c.Fits x.1 ∧ d.Fits x.2
  decode_encode := by
    intro x rest h
    rw [List.append_assoc, c.decode_encode _ _ h.1]
    simp only [bind, Except.bind]
    rw [d.decode_encode _ _ h.2]
    rfl

/-- A record through the tuple of its fields. -/
def via (c : Codec α) (toFields : β → α) (ofFields : α → β)
    (h : ∀ b, ofFields (toFields b) = b) : Codec β where
  encode b := c.encode (toFields b)
  decode bs := do
    let (a, bs) ← c.decode bs
    return (ofFields a, bs)
  Fits b := c.Fits (toFields b)
  decode_encode := by
    intro b rest hb
    rw [c.decode_encode _ _ hb]
    simp [bind, Except.bind, pure, Except.pure, h]

def decodeMany (c : Codec α) : Nat → Bytes → Except String (List α × Bytes)
  | 0, bs => .ok ([], bs)
  | n+1, bs => do
      let (a, bs) ← c.decode bs
      let (as, bs) ← decodeMany c n bs
      return (a :: as, bs)

theorem decodeMany_encode (c : Codec α) (as : List α) (rest : Bytes) (h : ∀ a ∈ as, c.Fits a) :
    c.decodeMany as.length (as.flatMap c.encode ++ rest) = .ok (as, rest) := by
  induction as with
  | nil => rfl
  | cons a as ih =>
    have ha : c.Fits a := h a (by simp)
    have has : ∀ b ∈ as, c.Fits b := fun b hb => h b (by simp [hb])
    rw [List.flatMap_cons, List.append_assoc, List.length_cons, decodeMany,
      c.decode_encode _ _ ha]
    simp only [bind, Except.bind]
    rw [ih has]
    rfl

/-- `Vec<T>`: the length as a `u64`, then the items. -/
def vec (c : Codec α) : Codec (List α) where
  encode as := u64.encode (BitVec.ofNat 64 as.length) ++ as.flatMap c.encode
  decode bs := do
    let (n, bs) ← u64.decode bs
    c.decodeMany n.toNat bs
  Fits as := as.length < 2^64 ∧ ∀ a ∈ as, c.Fits a
  decode_encode := by
    intro as rest h
    have hn : (BitVec.ofNat 64 as.length).toNat = as.length := by
      simpa using Nat.mod_eq_of_lt h.1
    rw [List.append_assoc, u64.decode_encode _ _ trivial]
    simp only [bind, Except.bind]
    rw [hn, decodeMany_encode c as rest h.2]

/-- A list after a length of one byte. -/
def shortVec (c : Codec α) : Codec (List α) where
  encode as := UInt8.ofNat as.length :: as.flatMap c.encode
  decode
    | [] => .error eofMessage
    | n :: bs => c.decodeMany n.toNat bs
  Fits as := as.length < 128 ∧ ∀ a ∈ as, c.Fits a
  decode_encode := by
    intro as rest h
    have hn : (UInt8.ofNat as.length).toNat = as.length := by
      have hlt := h.1
      rw [UInt8.toNat_ofNat']
      omega
    simp only [List.cons_append]
    rw [hn, decodeMany_encode c as rest h.2]

/-- `n` raw bytes, without a length. -/
def raw (n : Nat) : Codec Bytes where
  encode bs := bs
  decode := takeBytes n
  Fits bs := bs.length = n
  decode_encode := fun _ _ h => takeBytes_append h

/-- `Vec<u8>`. -/
def byteVec : Codec Bytes where
  encode bs := u64.encode (BitVec.ofNat 64 bs.length) ++ bs
  decode bs := do
    let (n, bs) ← u64.decode bs
    takeBytes n.toNat bs
  Fits bs := bs.length < 2^64
  decode_encode := by
    intro bs rest h
    have hn : (BitVec.ofNat 64 bs.length).toNat = bs.length := by
      simpa using Nat.mod_eq_of_lt h
    rw [List.append_assoc, u64.decode_encode _ _ trivial]
    simp only [bind, Except.bind]
    rw [hn, takeBytes_append rfl]

def bool : Codec Bool where
  encode b := [if b then 1 else 0]
  decode
    | [] => .error eofMessage
    | b :: bs =>
        if b = 0 then .ok (false, bs)
        else if b = 1 then .ok (true, bs)
        else .error "invalid u8 while decoding bool"
  Fits _ := True
  decode_encode := by
    intro b rest _
    cases b <;> rfl

/-- `String`: its UTF-8 bytes. -/
def string : Codec String where
  encode s := byteVec.encode s.toByteArray.data.toList
  decode bs := do
    let (raw, rest) ← byteVec.decode bs
    match String.fromUTF8? ⟨raw.toArray⟩ with
    | some s => return (s, rest)
    | none => .error "string is not valid utf8"
  Fits s := byteVec.Fits s.toByteArray.data.toList
  decode_encode := by
    intro s rest h
    have hutf8 : String.fromUTF8? ⟨s.toByteArray.data.toList.toArray⟩ = some s := by
      rw [Array.toArray_toList, String.fromUTF8?, dif_pos s.isValidUTF8]
      rfl
    rw [byteVec.decode_encode _ _ h]
    simp only [bind, Except.bind, hutf8]
    rfl

/-- `Option<T>`: a byte that says whether the value follows. -/
def option (c : Codec α) : Codec (Option α) where
  encode
    | none => [0]
    | some a => 1 :: c.encode a
  decode
    | [] => .error eofMessage
    | b :: bs =>
        if b = 0 then .ok (none, bs)
        else if b = 1 then do
          let (a, bs) ← c.decode bs
          return (some a, bs)
        else .error "tag for enum is not valid"
  Fits o := ∀ a ∈ o, c.Fits a
  decode_encode := by
    intro o rest h
    cases o with
    | none => rfl
    | some a =>
      have hd := c.decode_encode a rest (h a rfl)
      simp [bind, Except.bind, pure, Except.pure, hd]

/-- An enumeration of two variants, after the `u32` index of the variant. -/
def variants (c : Codec α) (d : Codec β) : Codec (α ⊕ β) where
  encode
    | .inl a => u32.encode 0 ++ c.encode a
    | .inr b => u32.encode 1 ++ d.encode b
  decode bs := do
    let (tag, bs) ← u32.decode bs
    if tag = 0 then
      let (a, bs) ← c.decode bs
      return (.inl a, bs)
    else if tag = 1 then
      let (b, bs) ← d.decode bs
      return (.inr b, bs)
    else .error "invalid value: expected variant index 0 <= i < 2"
  Fits x := match x with
    | .inl a => c.Fits a
    | .inr b => d.Fits b
  decode_encode := by
    intro x rest h
    cases x with
    | inl a =>
      have hd := c.decode_encode a rest h
      simp only [List.append_assoc]
      rw [u32.decode_encode _ _ trivial]
      simp [bind, Except.bind, pure, Except.pure, hd]
    | inr b =>
      have hd := d.decode_encode b rest h
      simp only [List.append_assoc]
      rw [u32.decode_encode _ _ trivial]
      simp [bind, Except.bind, pure, Except.pure, hd]

/-- An enumeration of one variant. -/
def variant (c : Codec α) : Codec α where
  encode a := u32.encode 0 ++ c.encode a
  decode bs := do
    let (tag, bs) ← u32.decode bs
    if tag = 0 then c.decode bs
    else .error "invalid value: expected variant index 0 <= i < 1"
  Fits := c.Fits
  decode_encode := by
    intro a rest h
    rw [List.append_assoc, u32.decode_encode _ _ trivial]
    simpa [bind, Except.bind] using c.decode_encode a rest h

/-- `bincode::deserialize`: bytes after the value are ignored. -/
def deserialize (c : Codec α) (bs : Bytes) : Except String α := do
  return (← c.decode bs).1

theorem deserialize_encode (c : Codec α) {a : α} (h : c.Fits a) :
    c.deserialize (c.encode a) = .ok a := by
  have hd := c.decode_encode a [] h
  rw [List.append_nil] at hd
  rw [deserialize, hd]
  rfl

end Codec

end TaoDag
