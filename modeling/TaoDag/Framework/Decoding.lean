import TaoDag.Framework.Codec
import TaoDag.Framework.Returns

namespace TaoDag.Codec

variable {α β : Type} {c : Codec α} {d : Codec β}

/-- Whatever is read off the front of a byte string can be written again. -/
def Reads (c : Codec α) : Prop :=
  ∀ bs a rest, c.decode bs = .ok (a, rest) → c.Fits a

theorem takeBytes_length {n : Nat} {bs a rest : Bytes} (h : takeBytes n bs = .ok (a, rest)) :
    a.length = n := by
  rw [takeBytes] at h
  split at h
  · rename_i hle
    cases h
    exact List.length_take_of_le hle
  · cases h

theorem reads_uint (n : Nat) : (uint n).Reads := fun _ _ _ _ => trivial

theorem reads_bytes32 : bytes32.Reads := fun _ _ _ _ => trivial

theorem reads_bool : bool.Reads := fun _ _ _ _ => trivial

theorem reads_byteVec : byteVec.Reads := by
  intro bs a rest h
  obtain ⟨⟨n, bs'⟩, _, h⟩ := bind_eq_ok.mp h
  rw [show byteVec.Fits a = (a.length < 2^64) from rfl, takeBytes_length h]
  exact n.isLt

theorem Reads.seq (hc : c.Reads) (hd : d.Reads) : (c.seq d).Reads := by
  intro bs x rest h
  obtain ⟨⟨a, bs₁⟩, ha, h⟩ := bind_eq_ok.mp h
  obtain ⟨⟨b, bs₂⟩, hb, h⟩ := bind_eq_ok.mp h
  cases h
  exact ⟨hc _ _ _ ha, hd _ _ _ hb⟩

/-- A record through the tuple of its fields, each tuple of which makes a record. -/
theorem Reads.via (hc : c.Reads) {toFields : β → α} {ofFields : α → β}
    {h : ∀ b, ofFields (toFields b) = b} (hto : ∀ a, toFields (ofFields a) = a) :
    (c.via toFields ofFields h).Reads := by
  intro bs b rest hrun
  obtain ⟨⟨a, bs₁⟩, ha, hrun⟩ := bind_eq_ok.mp hrun
  cases hrun
  change c.Fits (toFields (ofFields a))
  rw [hto]
  exact hc _ _ _ ha

theorem Reads.decodeMany (hc : c.Reads) {n : Nat} {bs rest : Bytes} {as : List α}
    (h : c.decodeMany n bs = .ok (as, rest)) : as.length = n ∧ ∀ a ∈ as, c.Fits a := by
  induction n generalizing bs as with
  | zero =>
    cases h
    exact ⟨rfl, fun a ha => absurd ha List.not_mem_nil⟩
  | succ n ih =>
    obtain ⟨⟨a, bs₁⟩, ha, h⟩ := bind_eq_ok.mp h
    obtain ⟨⟨as', bs₂⟩, has, h⟩ := bind_eq_ok.mp h
    cases h
    obtain ⟨hlen, hfits⟩ := ih has
    exact ⟨congrArg (· + 1) hlen, List.forall_mem_cons.mpr ⟨hc _ _ _ ha, hfits⟩⟩

theorem Reads.vec (hc : c.Reads) : (vec c).Reads := by
  intro bs as rest h
  obtain ⟨⟨n, bs'⟩, _, h⟩ := bind_eq_ok.mp h
  obtain ⟨hlen, hfits⟩ := hc.decodeMany h
  exact ⟨hlen ▸ n.isLt, hfits⟩

theorem Reads.deserialize (hc : c.Reads) {bs : Bytes} {a : α} (h : c.deserialize bs = .ok a) :
    c.Fits a := by
  obtain ⟨⟨a', rest⟩, ha, h⟩ := bind_eq_ok.mp h
  cases h
  exact hc _ _ _ ha

/-- What is read off the front of a byte string is what its value is written as. -/
def Canonical (c : Codec α) : Prop :=
  ∀ bs a rest, c.decode bs = .ok (a, rest) → bs = c.encode a ++ rest

theorem leBytes_ofLE (bs : Bytes) : leBytes bs.length (ofLE bs) = bs := by
  induction bs with
  | nil => rfl
  | cons b bs ih =>
    have hb : b.toNat < 256 := UInt8.toNat_lt b
    have hmod : UInt8.ofNat (b.toNat + 256 * ofLE bs) = b := by
      apply UInt8.toNat_inj.mp
      rw [UInt8.toNat_ofNat']
      omega
    have hdiv : (b.toNat + 256 * ofLE bs) / 256 = ofLE bs := by omega
    rw [List.length_cons, leBytes, ofLE, hmod, hdiv, ih]

theorem ofLE_lt (bs : Bytes) : ofLE bs < 256^bs.length := by
  induction bs with
  | nil => exact Nat.one_pos
  | cons b bs ih =>
    have hb : b.toNat < 256 := UInt8.toNat_lt b
    rw [ofLE, List.length_cons, pow_succ]
    omega

theorem takeBytes_eq {n : Nat} {bs a rest : Bytes} (h : takeBytes n bs = .ok (a, rest)) :
    bs = a ++ rest := by
  rw [takeBytes] at h
  split at h
  · cases h
    exact (List.take_append_drop n bs).symm
  · cases h

theorem canonical_uint (n : Nat) : (uint n).Canonical := by
  intro bs x rest h
  obtain ⟨⟨raw, rest'⟩, hraw, h⟩ := bind_eq_ok.mp h
  cases h
  have hlen := takeBytes_length hraw
  have hlt : ofLE raw < 2^(8 * n) := by
    rw [pow_mul, ← hlen]
    exact ofLE_lt raw
  have hencode : leBytes n (BitVec.ofNat (8 * n) (ofLE raw)).toNat = raw := by
    rw [BitVec.toNat_ofNat, Nat.mod_eq_of_lt hlt, ← hlen, leBytes_ofLE]
  rw [takeBytes_eq hraw]
  exact congrArg (· ++ rest) hencode.symm

theorem canonical_bytes32 : bytes32.Canonical := by
  intro bs x rest h
  obtain ⟨⟨raw, rest'⟩, hraw, h⟩ := bind_eq_ok.mp h
  cases h
  have hlen := takeBytes_length hraw
  have hrev : raw.reverse.length = 32 := by rw [List.length_reverse, hlen]
  have hlt : ofBE raw < 2^256 := by
    have hbound := ofLE_lt raw.reverse
    rwa [hrev] at hbound
  have hencode : beBytes 32 (BitVec.ofNat 256 (ofBE raw)).toNat = raw := by
    rw [BitVec.toNat_ofNat, Nat.mod_eq_of_lt hlt, beBytes, ofBE, ← hrev, leBytes_ofLE,
      List.reverse_reverse]
  rw [takeBytes_eq hraw]
  exact congrArg (· ++ rest) hencode.symm

theorem Canonical.seq (hc : c.Canonical) (hd : d.Canonical) : (c.seq d).Canonical := by
  intro bs x rest h
  obtain ⟨⟨a, bs₁⟩, ha, h⟩ := bind_eq_ok.mp h
  obtain ⟨⟨b, bs₂⟩, hb, h⟩ := bind_eq_ok.mp h
  cases h
  rw [hc _ _ _ ha, hd _ _ _ hb, ← List.append_assoc]
  rfl

theorem Canonical.via (hc : c.Canonical) {toFields : β → α} {ofFields : α → β}
    {h : ∀ b, ofFields (toFields b) = b} (hto : ∀ a, toFields (ofFields a) = a) :
    (c.via toFields ofFields h).Canonical := by
  intro bs b rest hrun
  obtain ⟨⟨a, bs₁⟩, ha, hrun⟩ := bind_eq_ok.mp hrun
  cases hrun
  change bs = c.encode (toFields (ofFields a)) ++ rest
  rw [hto]
  exact hc _ _ _ ha

theorem Canonical.decodeMany (hc : c.Canonical) {n : Nat} {bs rest : Bytes} {as : List α}
    (h : c.decodeMany n bs = .ok (as, rest)) :
    as.length = n ∧ bs = as.flatMap c.encode ++ rest := by
  induction n generalizing bs as with
  | zero =>
    cases h
    exact ⟨rfl, rfl⟩
  | succ n ih =>
    obtain ⟨⟨a, bs₁⟩, ha, h⟩ := bind_eq_ok.mp h
    obtain ⟨⟨as', bs₂⟩, has, h⟩ := bind_eq_ok.mp h
    cases h
    obtain ⟨hlen, hrest⟩ := ih has
    refine ⟨congrArg (· + 1) hlen, ?_⟩
    rw [hc _ _ _ ha, hrest, List.flatMap_cons, List.append_assoc]

theorem ofNat_length_eq {n : BitVec 64} {m : Nat} (h : m = n.toNat) : BitVec.ofNat 64 m = n := by
  rw [h, BitVec.ofNat_toNat, BitVec.setWidth_eq]

theorem Canonical.vec (hc : c.Canonical) : (vec c).Canonical := by
  intro bs as rest h
  obtain ⟨⟨n, bs'⟩, hn, h⟩ := bind_eq_ok.mp h
  obtain ⟨hlen, hrest⟩ := hc.decodeMany h
  change bs = u64.encode (BitVec.ofNat 64 as.length) ++ as.flatMap c.encode ++ rest
  rw [ofNat_length_eq hlen, List.append_assoc, ← hrest]
  exact canonical_uint 8 _ _ _ hn

theorem canonical_byteVec : byteVec.Canonical := by
  intro bs a rest h
  obtain ⟨⟨n, bs'⟩, hn, h⟩ := bind_eq_ok.mp h
  change bs = u64.encode (BitVec.ofNat 64 a.length) ++ a ++ rest
  rw [ofNat_length_eq (takeBytes_length h), List.append_assoc, ← takeBytes_eq h]
  exact canonical_uint 8 _ _ _ hn

/-- A byte string decodes to the values whose encoding it begins with. -/
theorem Canonical.deserialize_iff (hc : c.Canonical) (hr : c.Reads) {bs : Bytes} {a : α} :
    c.deserialize bs = .ok a ↔ c.Fits a ∧ c.encode a <+: bs := by
  constructor
  · intro h
    refine ⟨hr.deserialize h, ?_⟩
    obtain ⟨⟨a', rest⟩, ha, h⟩ := bind_eq_ok.mp h
    cases h
    exact ⟨rest, (hc _ _ _ ha).symm⟩
  · rintro ⟨hfits, rest, rfl⟩
    rw [deserialize, c.decode_encode a rest hfits]
    rfl

/-- No value is written in no bytes, and a value that is written in less than `2^64` bytes is read
back. -/
structure Bounded (c : Codec α) : Prop where
  pos : ∀ a, 0 < (c.encode a).length
  fits : ∀ a, (c.encode a).length < 2^64 → c.Fits a

theorem bounded_uint {n : Nat} (hn : 0 < n) : (uint n).Bounded :=
  ⟨fun x => (leBytes_length n x.toNat).symm ▸ hn, fun _ _ => trivial⟩

theorem bounded_bytes32 : bytes32.Bounded :=
  ⟨fun x => (bytes32_encode_length x).symm ▸ (by decide), fun _ _ => trivial⟩

theorem bounded_bool : bool.Bounded := ⟨fun _ => Nat.one_pos, fun _ _ => trivial⟩

theorem byteVec_encode_length (bs : Bytes) : (byteVec.encode bs).length = 8 + bs.length := by
  change (u64.encode _ ++ bs).length = _
  rw [List.length_append]
  rfl

theorem bounded_byteVec : byteVec.Bounded := by
  refine ⟨fun bs => ?_, fun bs h => ?_⟩
  · rw [byteVec_encode_length]
    omega
  · rw [byteVec_encode_length] at h
    change bs.length < 2^64
    omega

theorem Bounded.seq (hc : c.Bounded) (hd : d.Bounded) : (c.seq d).Bounded := by
  have hlen : ∀ x, ((c.seq d).encode x).length = (c.encode x.1).length + (d.encode x.2).length :=
    fun x => List.length_append
  refine ⟨fun x => ?_, fun x h => ?_⟩
  · have := hc.pos x.1
    rw [hlen]
    omega
  · rw [hlen] at h
    exact ⟨hc.fits _ (by omega), hd.fits _ (by omega)⟩

theorem Bounded.via (hc : c.Bounded) {toFields : β → α} {ofFields : α → β}
    {h : ∀ b, ofFields (toFields b) = b} : (c.via toFields ofFields h).Bounded :=
  ⟨fun b => hc.pos (toFields b), fun b => hc.fits (toFields b)⟩

theorem encode_length_le_flatMap {as : List α} {a : α} (ha : a ∈ as) :
    (c.encode a).length ≤ (as.flatMap c.encode).length := by
  rw [List.flatMap_def]
  exact (List.sublist_flatten_of_mem (List.mem_map_of_mem ha)).length_le

theorem Bounded.length_le (hc : c.Bounded) (as : List α) :
    as.length ≤ (as.flatMap c.encode).length := by
  induction as with
  | nil => exact Nat.le_refl 0
  | cons a as ih =>
    have := hc.pos a
    rw [List.flatMap_cons, List.length_append, List.length_cons]
    omega

theorem vec_encode_length (as : List α) :
    ((vec c).encode as).length = 8 + (as.flatMap c.encode).length := by
  change (u64.encode _ ++ as.flatMap c.encode).length = _
  rw [List.length_append]
  rfl

theorem Bounded.vec (hc : c.Bounded) : (vec c).Bounded := by
  refine ⟨fun as => ?_, fun as h => ?_⟩
  · rw [vec_encode_length]
    omega
  · rw [vec_encode_length] at h
    have hlen := hc.length_le as
    refine ⟨by omega, fun a ha => hc.fits a ?_⟩
    have := encode_length_le_flatMap (c := c) ha
    omega

theorem Bounded.deserialize_encode (hc : c.Bounded) {a : α} (h : (c.encode a).length < 2^64) :
    c.deserialize (c.encode a) = .ok a := c.deserialize_encode (hc.fits a h)

end TaoDag.Codec
