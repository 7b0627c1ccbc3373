import TaoDag.Core.Machine
import TaoDag.Framework.Codec

namespace TaoDag.Blake3

/-- Four 32-bit words, one in each 64-bit lane. -/
def pack (a b c d : Nat) : Nat :=
  ((a.lor (b.shiftLeft 64)).lor (c.shiftLeft 128)).lor (d.shiftLeft 192)

/-- Keeps the low half of every lane. -/
def laneMask : Nat := 0xffffffff00000000ffffffff00000000ffffffff00000000ffffffff

/-- Rotates every word right by `r`, which is `32 - l`. -/
def rotateRight (x r l : Nat) : Nat := ((x.shiftRight r).lor (x.shiftLeft l)).land laneMask

/-- Moves every lane down by `r` bits, which is `256 - l`, around the end. -/
def rotateLanes (x r l : Nat) : Nat := ((x.shiftRight r).lor (x.shiftLeft l)).mod (2^256)

/-- The 4×4 state of the compression function, by rows. -/
structure Rows where
  a : Nat
  b : Nat
  c : Nat
  d : Nat

namespace Rows

/-- Half of the mixing function, on the four columns at once. -/
def mix (q : Rows) (m r₁ l₁ r₂ l₂ : Nat) : Rows :=
  let a := ((q.a.add q.b).add m).land laneMask
  let d := rotateRight (q.d.xor a) r₁ l₁
  let c := (q.c.add d).land laneMask
  ⟨a, rotateRight (q.b.xor c) r₂ l₂, c, d⟩

def mixColumns (q : Rows) (x y : Nat) : Rows :=
  (q.mix x 16 16 12 20).mix y 8 24 7 25

def diagonalize (q : Rows) : Rows :=
  ⟨q.a, rotateLanes q.b 64 192, rotateLanes q.c 128 128, rotateLanes q.d 192 64⟩

def undiagonalize (q : Rows) : Rows :=
  ⟨q.a, rotateLanes q.b 192 64, rotateLanes q.c 128 128, rotateLanes q.d 64 192⟩

/-- Columns, then diagonals. -/
def round (q : Rows) (x₀ y₀ x₁ y₁ : Nat) : Rows :=
  ((q.mixColumns x₀ y₀).diagonalize.mixColumns x₁ y₁).undiagonalize

/-- The seven rounds, with the message permutation written out. -/
def rounds (q : Rows) (m : List Nat) : Rows :=
  match m with
  | [m0, m1, m2, m3, m4, m5, m6, m7, m8, m9, m10, m11, m12, m13, m14, m15] =>
      let q := q.round (pack m0 m2 m4 m6) (pack m1 m3 m5 m7)
        (pack m8 m10 m12 m14) (pack m9 m11 m13 m15)
      let q := q.round (pack m2 m3 m7 m4) (pack m6 m10 m0 m13)
        (pack m1 m12 m9 m15) (pack m11 m5 m14 m8)
      let q := q.round (pack m3 m10 m13 m7) (pack m4 m12 m2 m14)
        (pack m6 m9 m11 m8) (pack m5 m0 m15 m1)
      let q := q.round (pack m10 m12 m14 m13) (pack m7 m9 m3 m15)
        (pack m4 m11 m5 m1) (pack m0 m2 m8 m6)
      let q := q.round (pack m12 m9 m15 m14) (pack m13 m11 m10 m8)
        (pack m7 m5 m0 m6) (pack m2 m3 m1 m4)
      let q := q.round (pack m9 m11 m8 m15) (pack m14 m5 m12 m1)
        (pack m13 m0 m2 m4) (pack m3 m10 m6 m7)
      let q := q.round (pack m11 m5 m1 m8) (pack m15 m0 m9 m6)
        (pack m14 m2 m3 m7) (pack m10 m12 m4 m13)
      q
  | _ => q

end Rows

/-- A chaining value: eight words in two rows. -/
structure ChainingValue where
  lo : Nat
  hi : Nat

def iv : ChainingValue :=
  ⟨pack 0x6A09E667 0xBB67AE85 0x3C6EF372 0xA54FF53A,
    pack 0x510E527F 0x9B05688C 0x1F83D9AB 0x5BE0CD19⟩

def compress (cv : ChainingValue) (m : List Nat) (blockLen flags : Nat) : ChainingValue :=
  let q := Rows.rounds ⟨cv.lo, cv.hi, iv.lo, pack 0 0 blockLen flags⟩ m
  ⟨q.a.xor q.c, q.b.xor q.d⟩

/-- A byte string as one little-endian number. -/
def littleEndian : Bytes → Nat
  | [] => 0
  | b :: bs => b.toNat.add ((littleEndian bs).mul 256)

/-- The `n` low 32-bit words. -/
def words : Nat → Nat → List Nat
  | 0, _ => []
  | n+1, x => x.mod (2^32) :: words n (x.shiftRight 32)

def chunkStart : Nat := 1

/-- The flags of the last block of a hash: `CHUNK_END` and `ROOT`. -/
def chunkEndRoot : Nat := 10

/-- The blocks of one chunk: 64 bytes each, the last one padded with zeros. -/
def chunkLoop : Nat → Nat → Nat → ChainingValue → Nat → ChainingValue
  | 0, _, _, cv, _ => cv
  | fuel+1, x, len, cv, flags =>
      match len.ble 64 with
      | true => compress cv (words 16 x) len (flags.add chunkEndRoot)
      | false => chunkLoop fuel (x.shiftRight 512) (len.sub 64) (compress cv (words 16 x) 64 flags) 0

/-- A 32-bit word with its bytes reversed. -/
def byteSwap (x : Nat) : Nat :=
  x % 2^8 * 2^24 + x / 2^8 % 2^8 * 2^16 + x / 2^16 % 2^8 * 2^8 + x / 2^24 % 2^8

def digestRow (x : Nat) : Nat :=
  byteSwap x * 2^96 + byteSwap (x / 2^64) * 2^64 + byteSwap (x / 2^128) * 2^32 +
    byteSwap (x / 2^192)

/-- BLAKE3 of at most 1024 bytes, which are one chunk. -/
def hash (bytes : Bytes) : Hash :=
  let cv := chunkLoop 17 (littleEndian bytes) bytes.length iv chunkStart
  BitVec.ofNat 256 (digestRow cv.lo * 2^128 + digestRow cv.hi)

example : hash [97, 98, 99] =
    0x6437b3ac38465133ffb63b75273a8db548c558465d79db03fd359c6cd5bd9d85 := by decide +kernel

end TaoDag.Blake3
