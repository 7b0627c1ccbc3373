import TaoDag.Consensus.Block
import TaoDag.Framework.Decoding

namespace TaoDag.Consensus

open Codec (Canonical Reads canonical_byteVec canonical_bytes32 canonical_uint reads_byteVec
  reads_bytes32 reads_uint)

namespace DagBlock

theorem reads_codec : codec.Reads :=
  .via (.seq (.via (.seq (reads_uint 4) <| .seq (.vec reads_bytes32) <| .seq (reads_uint 8) <|
    .seq reads_bytes32 <| .seq reads_bytes32 <| .seq reads_bytes32 <| .seq (.vec reads_bytes32) <|
    .seq (reads_uint 8) reads_bytes32) fun _ => rfl) (.vec reads_byteVec)) fun _ => rfl

theorem canonical_codec : codec.Canonical :=
  .via (.seq (.via (.seq (canonical_uint 4) <| .seq (.vec canonical_bytes32) <|
    .seq (canonical_uint 8) <| .seq canonical_bytes32 <| .seq canonical_bytes32 <|
    .seq canonical_bytes32 <| .seq (.vec canonical_bytes32) <|
    .seq (canonical_uint 8) canonical_bytes32) fun _ => rfl) (.vec canonical_byteVec)) fun _ => rfl

theorem fits_iff {b : DagBlock} : codec.Fits b ↔ b.Fits := by
  refine ⟨fun h => ?_, codec_fits⟩
  obtain ⟨⟨_, hparents, _, _, _, _, hinterlink, _⟩, htxs⟩ := h
  exact ⟨⟨hparents.1, hinterlink.1⟩, htxs.1, htxs.2⟩

end DagBlock

namespace LegacyDagBlockV2

/-- A block whose lists have a `u64` length. -/
structure Fits (b : LegacyDagBlockV2) : Prop where
  parents : b.parents.length < 2^64
  count : b.transactions.length < 2^64
  size : ∀ t ∈ b.transactions, t.length < 2^64

theorem fits_iff {b : LegacyDagBlockV2} : codec.Fits b ↔ b.Fits := by
  constructor
  · rintro ⟨_, hparents, _, _, _, _, _, _, htxs⟩
    exact ⟨hparents.1, htxs.1, htxs.2⟩
  · intro h
    exact ⟨trivial, ⟨h.parents, fun _ _ => trivial⟩, trivial, trivial, trivial, trivial, trivial,
      trivial, h.count, h.size⟩

theorem reads_codec : codec.Reads :=
  .via (.seq (reads_uint 4) <| .seq (.vec reads_bytes32) <| .seq (reads_uint 8) <|
    .seq reads_bytes32 <| .seq reads_bytes32 <| .seq reads_bytes32 <| .seq (reads_uint 8) <|
    .seq reads_bytes32 (.vec reads_byteVec)) fun _ => rfl

theorem canonical_codec : codec.Canonical :=
  .via (.seq (canonical_uint 4) <| .seq (.vec canonical_bytes32) <| .seq (canonical_uint 8) <|
    .seq canonical_bytes32 <| .seq canonical_bytes32 <| .seq canonical_bytes32 <|
    .seq (canonical_uint 8) <| .seq canonical_bytes32 (.vec canonical_byteVec)) fun _ => rfl

/-- The current format adds the length of an interlink. -/
theorem into_encode_length (b : LegacyDagBlockV2) :
    (DagBlock.codec.encode b.into).length = (codec.encode b).length + 8 := by
  have hinterlink : ((Codec.vec .bytes32).encode []).length = 8 := rfl
  change ((Codec.u32.encode b.version ++ ((Codec.vec .bytes32).encode b.parents ++
    (Codec.u64.encode b.timestamp ++ (Codec.bytes32.encode b.txMerkleRoot ++
    (Codec.bytes32.encode b.stateRoot ++ (Codec.bytes32.encode b.target ++
    ((Codec.vec .bytes32).encode [] ++ (Codec.u64.encode b.nonce ++
    Codec.bytes32.encode b.miner)))))))) ++ (Codec.vec .byteVec).encode b.transactions).length =
    (Codec.u32.encode b.version ++ ((Codec.vec .bytes32).encode b.parents ++
    (Codec.u64.encode b.timestamp ++ (Codec.bytes32.encode b.txMerkleRoot ++
    (Codec.bytes32.encode b.stateRoot ++ (Codec.bytes32.encode b.target ++
    (Codec.u64.encode b.nonce ++ (Codec.bytes32.encode b.miner ++
    (Codec.vec .byteVec).encode b.transactions)))))))).length + 8
  simp only [List.length_append, hinterlink]
  omega

end LegacyDagBlockV2

namespace LegacyDagBlockV1

/-- A block whose lists have a `u64` length. -/
structure Fits (b : LegacyDagBlockV1) : Prop where
  parents : b.parents.length < 2^64
  count : b.transactions.length < 2^64
  size : ∀ t ∈ b.transactions, t.length < 2^64

theorem fits_iff {b : LegacyDagBlockV1} : codec.Fits b ↔ b.Fits := by
  constructor
  · rintro ⟨_, hparents, _, _, _, _, _, htxs⟩
    exact ⟨hparents.1, htxs.1, htxs.2⟩
  · intro h
    exact ⟨trivial, ⟨h.parents, fun _ _ => trivial⟩, trivial, trivial, trivial, trivial, trivial,
      h.count, h.size⟩

/-- The block in the format that followed; its state root is empty. -/
def toV2 (b : LegacyDagBlockV1) : LegacyDagBlockV2 where
  version := b.version
  parents := b.parents
  timestamp := b.timestamp
  txMerkleRoot := b.txMerkleRoot
  stateRoot := 0
  target := b.target
  nonce := b.nonce
  miner := b.miner
  transactions := b.transactions

theorem toV2_encode_length (b : LegacyDagBlockV1) :
    (LegacyDagBlockV2.codec.encode b.toV2).length = (codec.encode b).length + 32 := by
  have hroot := Codec.bytes32_encode_length 0
  change (Codec.u32.encode b.version ++ ((Codec.vec .bytes32).encode b.parents ++
    (Codec.u64.encode b.timestamp ++ (Codec.bytes32.encode b.txMerkleRoot ++
    (Codec.bytes32.encode 0 ++ (Codec.bytes32.encode b.target ++
    (Codec.u64.encode b.nonce ++ (Codec.bytes32.encode b.miner ++
    (Codec.vec .byteVec).encode b.transactions)))))))).length =
    (Codec.u32.encode b.version ++ ((Codec.vec .bytes32).encode b.parents ++
    (Codec.u64.encode b.timestamp ++ (Codec.bytes32.encode b.txMerkleRoot ++
    (Codec.bytes32.encode b.target ++ (Codec.u64.encode b.nonce ++
    (Codec.bytes32.encode b.miner ++
    (Codec.vec .byteVec).encode b.transactions))))))).length + 32
  simp only [List.length_append, hroot]
  omega

end LegacyDagBlockV1

namespace DagBlock

variable {bytes : Bytes}

/-- No block of the current format begins `bytes`. -/
def NotCurrent (bytes : Bytes) : Prop := ∀ b : DagBlock, b.Fits → ¬codec.encode b <+: bytes

/-- No block of the format before the current one begins `bytes`. -/
def NotV2 (bytes : Bytes) : Prop :=
  ∀ b : LegacyDagBlockV2, b.Fits → ¬LegacyDagBlockV2.codec.encode b <+: bytes

theorem deserialize_iff {b : DagBlock} :
    codec.deserialize bytes = .ok b ↔ b.Fits ∧ codec.encode b <+: bytes := by
  rw [canonical_codec.deserialize_iff reads_codec, fits_iff]

theorem deserialize_v2_iff {b : LegacyDagBlockV2} :
    LegacyDagBlockV2.codec.deserialize bytes = .ok b ↔
      b.Fits ∧ LegacyDagBlockV2.codec.encode b <+: bytes := by
  rw [LegacyDagBlockV2.canonical_codec.deserialize_iff LegacyDagBlockV2.reads_codec,
    LegacyDagBlockV2.fits_iff]

theorem deserialize_error (h : NotCurrent bytes) : ∃ e, codec.deserialize bytes = .error e := by
  cases hd : codec.deserialize bytes with
  | error e => exact ⟨e, rfl⟩
  | ok b =>
    obtain ⟨hfits, hprefix⟩ := deserialize_iff.mp hd
    exact absurd hprefix (h b hfits)

theorem deserialize_v2_error (h : NotV2 bytes) :
    ∃ e, LegacyDagBlockV2.codec.deserialize bytes = .error e := by
  cases hd : LegacyDagBlockV2.codec.deserialize bytes with
  | error e => exact ⟨e, rfl⟩
  | ok b =>
    obtain ⟨hfits, hprefix⟩ := deserialize_v2_iff.mp hd
    exact absurd hprefix (h b hfits)

theorem fromBytes_of_current {b : DagBlock} (hfits : b.Fits) (h : codec.encode b <+: bytes) :
    fromBytes bytes = .ok b := by
  rw [fromBytes, deserialize_iff.mpr ⟨hfits, h⟩]

theorem fromBytes_of_v2 (hnot : NotCurrent bytes) {b : LegacyDagBlockV2} (hfits : b.Fits)
    (h : LegacyDagBlockV2.codec.encode b <+: bytes) : fromBytes bytes = .ok b.into := by
  obtain ⟨e, he⟩ := deserialize_error hnot
  simp only [fromBytes, he, deserialize_v2_iff.mpr ⟨hfits, h⟩]

/-- A block of the format before the current one is read back as long as its bytes do not begin
with a block of the current format. -/
theorem fromBytes_v2_iff {b : LegacyDagBlockV2} (hfits : b.Fits) :
    fromBytes (LegacyDagBlockV2.codec.encode b) = .ok b.into ↔
      NotCurrent (LegacyDagBlockV2.codec.encode b) := by
  constructor
  · intro h b' hfits' hprefix
    rw [fromBytes_of_current hfits' hprefix] at h
    rw [Except.ok.inj h] at hprefix
    have hlen := hprefix.length_le
    rw [b.into_encode_length] at hlen
    omega
  · intro hnot
    exact fromBytes_of_v2 hnot hfits (List.prefix_refl _)

theorem into_toV2 {b : LegacyDagBlockV1} {b' : LegacyDagBlockV2} (h : b'.into = b.into) :
    b' = b.toV2 := by
  cases b
  cases b'
  simp only [LegacyDagBlockV2.into, LegacyDagBlockV1.into, DagBlock.mk.injEq,
    DagBlockHeader.mk.injEq] at h
  simp [LegacyDagBlockV1.toV2, h]

theorem fromBytes_v1_iff {b : LegacyDagBlockV1} (hfits : b.Fits) :
    fromBytes (LegacyDagBlockV1.codec.encode b) = .ok b.into ↔
      NotCurrent (LegacyDagBlockV1.codec.encode b) ∧ NotV2 (LegacyDagBlockV1.codec.encode b) := by
  constructor
  · intro h
    have hnot : NotCurrent (LegacyDagBlockV1.codec.encode b) := by
      intro b' hfits' hprefix
      rw [fromBytes_of_current hfits' hprefix] at h
      rw [Except.ok.inj h] at hprefix
      have hlen := hprefix.length_le
      rw [show b.into = b.toV2.into from rfl, b.toV2.into_encode_length, b.toV2_encode_length]
        at hlen
      omega
    refine ⟨hnot, fun b' hfits' hprefix => ?_⟩
    rw [fromBytes_of_v2 hnot hfits' hprefix] at h
    rw [into_toV2 (Except.ok.inj h)] at hprefix
    have hlen := hprefix.length_le
    rw [b.toV2_encode_length] at hlen
    omega
  · rintro ⟨hnot, hnot'⟩
    obtain ⟨e, he⟩ := deserialize_error hnot
    obtain ⟨e', he'⟩ := deserialize_v2_error hnot'
    have hread := LegacyDagBlockV1.codec.deserialize_encode (LegacyDagBlockV1.fits_iff.mpr hfits)
    simp only [fromBytes, he, he', hread]

/-- What is written in each format is read back if and only if its bytes do not begin with a block
of a format that is tried before. -/
theorem fromBytes_versions_iff (b : DagBlock) (b₂ : LegacyDagBlockV2) (b₁ : LegacyDagBlockV1) :
    (b.Fits → fromBytes (codec.encode b) = .ok b) ∧
    (b₂.Fits → (fromBytes (LegacyDagBlockV2.codec.encode b₂) = .ok b₂.into ↔
      NotCurrent (LegacyDagBlockV2.codec.encode b₂))) ∧
    (b₁.Fits → (fromBytes (LegacyDagBlockV1.codec.encode b₁) = .ok b₁.into ↔
      NotCurrent (LegacyDagBlockV1.codec.encode b₁) ∧
        NotV2 (LegacyDagBlockV1.codec.encode b₁))) :=
  ⟨fromBytes_encode, fromBytes_v2_iff, fromBytes_v1_iff⟩

end DagBlock

/-- A block whose nonce is read as an empty interlink, and whose transaction as no transaction. -/
def ambiguousBlock : LegacyDagBlockV2 where
  version := headerVersion
  parents := [5]
  timestamp := 1750000001
  txMerkleRoot := 0
  stateRoot := 9
  target := 7
  nonce := 0
  miner := 3
  transactions := [[]]

/-- What the block is read as. -/
def misreadBlock : DagBlock where
  header :=
    { version := headerVersion
      parents := [5]
      timestamp := 1750000001
      txMerkleRoot := 0
      stateRoot := 9
      target := 7
      interlink := []
      nonce := 0
      miner := 0x30100000000000000 }
  transactions := []

theorem misreadBlock_fits : misreadBlock.Fits := ⟨⟨by decide, by decide⟩, by decide, by decide⟩

theorem ambiguousBlock_misread : ambiguousBlock.Fits ∧
    DagBlock.fromBytes (LegacyDagBlockV2.codec.encode ambiguousBlock) = .ok misreadBlock ∧
    misreadBlock ≠ ambiguousBlock.into := by
  have hbytes : DagBlock.codec.encode misreadBlock =
      LegacyDagBlockV2.codec.encode ambiguousBlock := by decide +kernel
  refine ⟨⟨by decide, by decide, by decide⟩, ?_, by decide⟩
  rw [← hbytes]
  exact DagBlock.fromBytes_encode misreadBlock_fits

/-- The block that it is read as is read back from its own bytes. -/
theorem fromBytes_versions_current :
    DagBlock.fromBytes (DagBlock.codec.encode misreadBlock) = .ok misreadBlock :=
  (DagBlock.fromBytes_versions_iff misreadBlock ambiguousBlock
    ⟨headerVersion, [5], 1750000001, 0, 7, 0, 3, []⟩).1 misreadBlock_fits

end TaoDag.Consensus
