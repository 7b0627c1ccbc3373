import TaoDag.Framework.Codec
import Mathlib.Data.Nat.Digits.Lemmas

namespace TaoDag

/-- A way to write byte strings as text: a text that can be read is the one that is written. -/
structure TextCodec where
  encode : Bytes → String
  decode : String → Option Bytes
  decode_eq_some : ∀ s bs, decode s = some bs ↔ encode bs = s

namespace TextCodec

variable (c : TextCodec)

@[simp] theorem decode_encode (bs : Bytes) : c.decode (c.encode bs) = some bs :=
  (c.decode_eq_some _ bs).mpr rfl

@[simp] theorem encode_inj {bs bs' : Bytes} : c.encode bs = c.encode bs' ↔ bs = bs' := by
  constructor
  · intro h
    have hread := c.decode_encode bs
    rw [h, c.decode_encode] at hread
    exact (Option.some.inj hread).symm
  · exact congrArg c.encode

end TextCodec

/-- The digits of a positional system, each with a symbol of its own. -/
structure Alphabet where
  symbols : List Char
  nodup : symbols.Nodup

namespace Alphabet

variable (a : Alphabet)

def size : Nat := a.symbols.length

def write (digit : Nat) : Char := a.symbols.getD digit default

def read (symbol : Char) : Option Nat :=
  if symbol ∈ a.symbols then some (a.symbols.idxOf symbol) else none

theorem write_eq {digit : Nat} (h : digit < a.symbols.length) :
    a.write digit = a.symbols[digit] := by
  rw [write, List.getD_eq_getElem?_getD, List.getElem?_eq_getElem h, Option.getD_some]

theorem read_eq_some {symbol : Char} {digit : Nat} :
    a.read symbol = some digit ↔ digit < a.size ∧ a.write digit = symbol := by
  constructor
  · intro h
    simp only [read, Option.ite_none_right_eq_some, Option.some.injEq] at h
    obtain ⟨hmem, rfl⟩ := h
    have hlt := List.idxOf_lt_length_of_mem hmem
    refine ⟨hlt, ?_⟩
    rw [a.write_eq hlt, List.getElem_idxOf hlt]
  · intro h
    obtain ⟨hlt, rfl⟩ := h
    rw [a.write_eq hlt, read, if_pos (List.getElem_mem hlt)]
    exact congrArg some (a.nodup.idxOf_getElem digit hlt)

/-- Reads a digit for each symbol. -/
def readAll (symbols : List Char) : Option (List Nat) := symbols.mapM a.read

theorem readAll_eq_some {symbols : List Char} {digits : List Nat} :
    a.readAll symbols = some digits ↔
      (∀ d ∈ digits, d < a.size) ∧ digits.map a.write = symbols := by
  induction symbols generalizing digits with
  | nil =>
    simp only [readAll, List.mapM_nil, List.map_eq_nil_iff]
    constructor
    · intro h
      cases h
      simp
    · intro h
      exact congrArg some h.2.symm
  | cons s symbols ih =>
    simp only [readAll, List.mapM_cons, Option.bind_eq_bind, Option.bind_eq_some_iff,
      Option.pure_def, Option.some.injEq]
    constructor
    · intro ⟨d, hd, ds, hds, heq⟩
      subst heq
      obtain ⟨hlt, rfl⟩ := a.read_eq_some.mp hd
      obtain ⟨hall, rfl⟩ := ih.mp hds
      exact ⟨List.forall_mem_cons.mpr ⟨hlt, hall⟩, rfl⟩
    · intro ⟨hall, hmap⟩
      cases digits with
      | nil => cases hmap
      | cons d ds =>
        obtain ⟨hlt, hall⟩ := List.forall_mem_cons.mp hall
        obtain ⟨hs, hmap⟩ := List.cons.inj hmap
        exact ⟨d, a.read_eq_some.mpr ⟨hlt, hs⟩, ds, ih.mpr ⟨hall, hmap⟩, rfl⟩

end Alphabet

section Rebase

/-- The digits in base `c` of a number that is given in base `b`, most significant first. Every
leading zero is kept. -/
def rebase (b c : Nat) : List Nat → List Nat
  | 0 :: ds => 0 :: rebase b c ds
  | ds => (Nat.digits c (Nat.ofDigits b ds.reverse)).reverse

variable {b c : Nat}

theorem rebase_of_head {ds : List Nat} (h : ∀ tail, ds ≠ 0 :: tail) :
    rebase b c ds = (Nat.digits c (Nat.ofDigits b ds.reverse)).reverse := by
  rw [rebase]
  exact h

theorem rebase_lt (hc : 1 < c) (ds : List Nat) : ∀ d ∈ rebase b c ds, d < c := by
  induction ds with
  | nil => simp [rebase]
  | cons d ds ih =>
    by_cases hd : d = 0
    · subst hd
      rw [rebase]
      exact List.forall_mem_cons.mpr ⟨by omega, ih⟩
    · rw [rebase_of_head (by simp [hd])]
      intro d' hd'
      exact Nat.digits_lt_base hc (List.mem_reverse.mp hd')

/-- The digits of a number do not start with a zero. -/
theorem digits_reverse_head {n : Nat} (tail : List Nat) :
    (Nat.digits c n).reverse ≠ 0 :: tail := by
  intro h
  have hlast : (Nat.digits c n).getLast? = some 0 := by
    rw [← List.head?_reverse, h]
    rfl
  have hn : n ≠ 0 := by
    rintro rfl
    simp at hlast
  apply Nat.getLast_digit_ne_zero c hn
  rw [List.getLast?_eq_some_getLast (Nat.digits_ne_nil_iff_ne_zero.mpr hn)] at hlast
  exact Option.some.inj hlast

/-- A change of base and back. -/
theorem rebase_rebase (hb : 1 < b) {ds : List Nat} (hds : ∀ d ∈ ds, d < b) :
    rebase c b (rebase b c ds) = ds := by
  induction ds with
  | nil => simp [rebase]
  | cons d ds ih =>
    by_cases hd : d = 0
    · subst hd
      rw [rebase, rebase, ih (List.forall_mem_cons.mp hds).2]
    · have hhead : ∀ tail, d :: ds ≠ 0 :: tail := by simp [hd]
      rw [rebase_of_head hhead, rebase_of_head digits_reverse_head, List.reverse_reverse,
        Nat.ofDigits_digits]
      have hlt : ∀ l ∈ (d :: ds).reverse, l < b := fun l hl => hds l (List.mem_reverse.mp hl)
      have hlast : ∀ h : (d :: ds).reverse ≠ [], (d :: ds).reverse.getLast h ≠ 0 := by
        intro h
        simpa using hd
      rw [Nat.digits_ofDigits b hb _ hlt hlast, List.reverse_reverse]

end Rebase

namespace Alphabet

theorem map_ofNat_toNat (bs : Bytes) : (bs.map UInt8.toNat).map UInt8.ofNat = bs := by
  rw [List.map_map]
  exact List.map_id'' (fun b => UInt8.ofNat_toNat) bs

theorem map_toNat_ofNat {ds : List Nat} (h : ∀ d ∈ ds, d < 256) :
    (ds.map UInt8.ofNat).map UInt8.toNat = ds := by
  rw [List.map_map]
  calc ds.map (UInt8.toNat ∘ UInt8.ofNat) = ds.map id :=
        List.map_congr_left fun d hd => UInt8.toNat_ofNat_of_lt' (h d hd)
    _ = ds := List.map_id ds

/-- Byte strings as numbers in the base of an alphabet, with their leading zeros. -/
def positional (a : Alphabet) (h : 1 < a.size) : TextCodec where
  encode bs := String.ofList ((rebase 256 a.size (bs.map UInt8.toNat)).map a.write)
  decode s := (a.readAll s.toList).map fun ds => (rebase a.size 256 ds).map UInt8.ofNat
  decode_eq_some s bs := by
    have hbytes : ∀ d ∈ bs.map UInt8.toNat, d < 256 := by
      intro d hd
      obtain ⟨b, _, rfl⟩ := List.mem_map.mp hd
      exact b.toNat_lt
    constructor
    · intro hs
      obtain ⟨ds, hds, rfl⟩ := Option.map_eq_some_iff.mp hs
      obtain ⟨hlt, hwrite⟩ := a.readAll_eq_some.mp hds
      rw [map_toNat_ofNat (rebase_lt (by decide) ds), rebase_rebase h hlt, hwrite,
        String.ofList_toList]
    · intro hs
      subst hs
      have hread : a.readAll ((rebase 256 a.size (bs.map UInt8.toNat)).map a.write) =
          some (rebase 256 a.size (bs.map UInt8.toNat)) :=
        a.readAll_eq_some.mpr ⟨rebase_lt h _, rfl⟩
      rw [String.toList_ofList, hread, Option.map_some, rebase_rebase (by decide) hbytes,
        map_ofNat_toNat]

section Grouped

variable (a : Alphabet) (pad : Char)

/-- Three bytes in four symbols; what is left at the end is padded. -/
def writeGroups : Bytes → List Char
  | x :: y :: z :: rest =>
      a.write (x.toNat / 4) :: a.write (x.toNat % 4 * 16 + y.toNat / 16) ::
        a.write (y.toNat % 16 * 4 + z.toNat / 64) :: a.write (z.toNat % 64) :: writeGroups rest
  | [x, y] =>
      [a.write (x.toNat / 4), a.write (x.toNat % 4 * 16 + y.toNat / 16),
        a.write (y.toNat % 16 * 4), pad]
  | [x] => [a.write (x.toNat / 4), a.write (x.toNat % 4 * 16), pad, pad]
  | [] => []

/-- Reads what `writeGroups` writes. The unused bits of the last symbol are zero. -/
def readGroups : List Char → Option Bytes
  | p :: q :: r :: s :: rest => do
      let p ← a.read p
      let q ← a.read q
      let x := UInt8.ofNat (p * 4 + q / 16)
      if r = pad ∧ s = pad ∧ rest = [] then
        if q % 16 = 0 then return [x] else none
      else do
        let r ← a.read r
        let y := UInt8.ofNat (q % 16 * 16 + r / 4)
        if s = pad ∧ rest = [] then
          if r % 4 = 0 then return [x, y] else none
        else do
          let s ← a.read s
          let bytes ← readGroups rest
          return x :: y :: UInt8.ofNat (r % 4 * 64 + s) :: bytes
  | [] => some []
  | _ => none

variable {a pad}

theorem read_write {d : Nat} (h : d < a.size) : a.read (a.write d) = some d :=
  a.read_eq_some.mpr ⟨h, rfl⟩

theorem write_ne_pad (hpad : pad ∉ a.symbols) {d : Nat} (h : d < a.size) : a.write d ≠ pad := by
  rw [a.write_eq h]
  exact ne_of_mem_of_not_mem (List.getElem_mem h) hpad

theorem ofNat_eq {n : Nat} {b : UInt8} (h : n = b.toNat) : UInt8.ofNat n = b := by
  rw [h, UInt8.ofNat_toNat]

theorem readGroups_writeGroups (h : a.size = 64) (hpad : pad ∉ a.symbols) (bs : Bytes) :
    a.readGroups pad (a.writeGroups pad bs) = some bs := by
  have hread (d : Nat) (hd : d < 64) : a.read (a.write d) = some d := read_write (by omega)
  have hne (d : Nat) (hd : d < 64) : a.write d ≠ pad := write_ne_pad hpad (by omega)
  have hfirst (x : UInt8) (q : Nat) (hq : q < 16) :
      UInt8.ofNat (x.toNat / 4 * 4 + (x.toNat % 4 * 16 + q) / 16) = x := ofNat_eq (by omega)
  have hsecond (p : Nat) (y : UInt8) (r : Nat) (hr : r < 4) : UInt8.ofNat
      ((p % 4 * 16 + y.toNat / 16) % 16 * 16 + (y.toNat % 16 * 4 + r) / 4) = y :=
    ofNat_eq (by have := y.toNat_lt; omega)
  have hthird (p : Nat) (z : UInt8) :
      UInt8.ofNat ((p % 16 * 4 + z.toNat / 64) % 4 * 64 + z.toNat % 64) = z :=
    ofNat_eq (by have := z.toNat_lt; omega)
  fun_induction writeGroups a pad bs with
  | case1 x y z rest ih =>
    have hx := x.toNat_lt
    have hy := y.toNat_lt
    have hz := z.toNat_lt
    simp (disch := omega) only [readGroups, hread, hne, hfirst, hsecond, hthird, ih,
      Option.bind_eq_bind, Option.bind_some, false_and, if_false, Option.pure_def]
  | case2 x y =>
    have hx := x.toNat_lt
    have hy := y.toNat_lt
    have hlow : y.toNat % 16 * 4 % 4 = 0 := Nat.mul_mod_left _ _
    have hlast := hsecond x.toNat y 0 (by omega)
    rw [Nat.add_zero] at hlast
    simp (disch := omega) only [readGroups, hread, hne, hfirst, hlast, hlow, Option.bind_eq_bind,
      Option.bind_some, false_and, if_false, true_and, if_true, Option.pure_def]
  | case3 x =>
    have hx := x.toNat_lt
    have hlow : x.toNat % 4 * 16 % 16 = 0 := Nat.mul_mod_left _ _
    have hlast := hfirst x 0 (by omega)
    rw [Nat.add_zero] at hlast
    simp (disch := omega) only [readGroups, hread, hlast, hlow, Option.bind_eq_bind,
      Option.bind_some, true_and, if_true, Option.pure_def]
  | case4 => rfl

theorem writeGroups_readGroups (h : a.size = 64) {symbols : List Char} {bs : Bytes}
    (run : a.readGroups pad symbols = some bs) : a.writeGroups pad bs = symbols := by
  fun_induction readGroups a pad symbols generalizing bs with
  | case1 p q r s rest ih =>
    simp only [Option.bind_eq_bind, Option.bind_eq_some_iff, Option.pure_def] at run
    obtain ⟨p', hp, q', hq, run⟩ := run
    obtain ⟨hpn, rfl⟩ := a.read_eq_some.mp hp
    obtain ⟨hqn, rfl⟩ := a.read_eq_some.mp hq
    have hx : (UInt8.ofNat (p' * 4 + q' / 16)).toNat = p' * 4 + q' / 16 :=
      UInt8.toNat_ofNat_of_lt' (by show _ < 256; omega)
    by_cases hone : r = pad ∧ s = pad ∧ rest = []
    · obtain ⟨rfl, rfl, rfl⟩ := hone
      simp only [and_self, if_true, Option.ite_none_right_eq_some, Option.some.injEq] at run
      obtain ⟨hlow, rfl⟩ := run
      rw [writeGroups, hx, show (p' * 4 + q' / 16) / 4 = p' by omega,
        show (p' * 4 + q' / 16) % 4 * 16 = q' by omega]
    · rw [if_neg hone] at run
      obtain ⟨r', hr, hrest⟩ := Option.bind_eq_some_iff.mp run
      clear run
      obtain ⟨hrn, rfl⟩ := a.read_eq_some.mp hr
      have hy : (UInt8.ofNat (q' % 16 * 16 + r' / 4)).toNat = q' % 16 * 16 + r' / 4 :=
        UInt8.toNat_ofNat_of_lt' (by show _ < 256; omega)
      have hpq : (p' * 4 + q' / 16) / 4 = p' := by omega
      have hqr : (p' * 4 + q' / 16) % 4 * 16 + (q' % 16 * 16 + r' / 4) / 16 = q' := by omega
      by_cases htwo : s = pad ∧ rest = []
      · obtain ⟨rfl, rfl⟩ := htwo
        simp only [and_self, if_true, Option.ite_none_right_eq_some, Option.some.injEq] at hrest
        obtain ⟨hlow, rfl⟩ := hrest
        rw [writeGroups, hx, hy, hpq, hqr, show (q' % 16 * 16 + r' / 4) % 16 * 4 = r' by omega]
      · rw [if_neg htwo] at hrest
        simp only [Option.bind_eq_some_iff, Option.some.injEq] at hrest
        obtain ⟨s', hs, bytes, hbytes, rfl⟩ := hrest
        obtain ⟨hsn, rfl⟩ := a.read_eq_some.mp hs
        have hz : (UInt8.ofNat (r' % 4 * 64 + s')).toNat = r' % 4 * 64 + s' :=
          UInt8.toNat_ofNat_of_lt' (by show _ < 256; omega)
        rw [writeGroups, hx, hy, hz, hpq, hqr, ih hbytes,
          show (q' % 16 * 16 + r' / 4) % 16 * 4 + (r' % 4 * 64 + s') / 64 = r' by omega,
          show (r' % 4 * 64 + s') % 64 = s' by omega]
  | case2 =>
    cases run
    rfl
  | case3 => cases run

/-- Byte strings in groups of six bits, padded to whole groups of three bytes. -/
def grouped (a : Alphabet) (pad : Char) (h : a.size = 64) (hpad : pad ∉ a.symbols) :
    TextCodec where
  encode bs := String.ofList (a.writeGroups pad bs)
  decode s := a.readGroups pad s.toList
  decode_eq_some s bs := by
    constructor
    · intro hs
      rw [writeGroups_readGroups h hs, String.ofList_toList]
    · intro hs
      subst hs
      rw [String.toList_ofList, readGroups_writeGroups h hpad]

end Grouped

end Alphabet

/-- The alphabet of Bitcoin addresses: no `0`, `O`, `I` and `l`. -/
def base58 : TextCodec :=
  Alphabet.positional
    ⟨"123456789ABCDEFGHJKLMNPQRSTUVWXYZabcdefghijkmnopqrstuvwxyz".toList, by decide⟩ (by decide)

/-- The standard base64 alphabet, with padding. -/
def base64 : TextCodec :=
  Alphabet.grouped
    ⟨"ABCDEFGHIJKLMNOPQRSTUVWXYZabcdefghijklmnopqrstuvwxyz0123456789+/".toList, by decide⟩
    '=' (by decide) (by decide)

example : base58.encode "Hello World!".toUTF8.toList = "2NEpo7TZRRrLZSi2U" := by decide +kernel

example : base64.encode "light work".toUTF8.toList = "bGlnaHQgd29yaw==" := by decide +kernel

end TaoDag
