import TaoDag.Framework.Codec
import TaoDag.Framework.Returns

namespace TaoDag.P2p

/-- Max frame size accepted over the network. -/
def maxMsgSize : Nat := 8 * 1024 * 1024

/-- A gossip message. -/
inductive NetMsg where
  | newBlock (bytes : Bytes)
  | newTx (bytes : Bytes)
  | getBlock (id : BitVec 256)
  | getTips
  | tips (ids : List (BitVec 256))
  | getSnapshot
  | snapshot (bytes : Bytes)

namespace NetMsg

/-- The `u32` index of a variant, then its value. -/
def encode : NetMsg → Bytes
  | .newBlock bytes => Codec.u32.encode 0 ++ Codec.byteVec.encode bytes
  | .newTx bytes => Codec.u32.encode 1 ++ Codec.byteVec.encode bytes
  | .getBlock id => Codec.u32.encode 2 ++ Codec.bytes32.encode id
  | .getTips => Codec.u32.encode 3
  | .tips ids => Codec.u32.encode 4 ++ (Codec.vec .bytes32).encode ids
  | .getSnapshot => Codec.u32.encode 5
  | .snapshot bytes => Codec.u32.encode 6 ++ Codec.byteVec.encode bytes

def decode (bs : Bytes) : Except String (NetMsg × Bytes) := do
  let (tag, bs) ← Codec.u32.decode bs
  match tag.toNat with
  | 0 =>
    let (bytes, bs) ← Codec.byteVec.decode bs
    return (.newBlock bytes, bs)
  | 1 =>
    let (bytes, bs) ← Codec.byteVec.decode bs
    return (.newTx bytes, bs)
  | 2 =>
    let (id, bs) ← Codec.bytes32.decode bs
    return (.getBlock id, bs)
  | 3 => return (.getTips, bs)
  | 4 =>
    let (ids, bs) ← (Codec.vec .bytes32).decode bs
    return (.tips ids, bs)
  | 5 => return (.getSnapshot, bs)
  | 6 =>
    let (bytes, bs) ← Codec.byteVec.decode bs
    return (.snapshot bytes, bs)
  | n => .error ("invalid value: integer " ++ toString n ++ ", expected variant index 0 <= i < 7")

/-- A message whose list has a `u64` length. -/
def Fits : NetMsg → Prop
  | .newBlock bytes => bytes.length < 2^64
  | .newTx bytes => bytes.length < 2^64
  | .getBlock _ => True
  | .getTips => True
  | .tips ids => ids.length < 2^64
  | .getSnapshot => True
  | .snapshot bytes => bytes.length < 2^64

theorem decode_encode (msg : NetMsg) (rest : Bytes) (h : msg.Fits) :
    decode (msg.encode ++ rest) = .ok (msg, rest) := by
  cases msg with
  | newBlock bytes =>
    rw [decode, encode, List.append_assoc, Codec.u32.decode_encode _ _ trivial]
    simp only [bind, Except.bind]
    rw [Codec.byteVec.decode_encode _ _ h]
    rfl
  | newTx bytes =>
    rw [decode, encode, List.append_assoc, Codec.u32.decode_encode _ _ trivial]
    simp only [bind, Except.bind]
    rw [Codec.byteVec.decode_encode _ _ h]
    rfl
  | getBlock id =>
    rw [decode, encode, List.append_assoc, Codec.u32.decode_encode _ _ trivial]
    simp only [bind, Except.bind]
    rw [Codec.bytes32.decode_encode _ _ trivial]
    rfl
  | getTips =>
    rw [decode, encode, Codec.u32.decode_encode _ _ trivial]
    rfl
  | tips ids =>
    rw [decode, encode, List.append_assoc, Codec.u32.decode_encode _ _ trivial]
    simp only [bind, Except.bind]
    rw [(Codec.vec .bytes32).decode_encode _ _ ⟨h, fun _ _ => trivial⟩]
    rfl
  | getSnapshot =>
    rw [decode, encode, Codec.u32.decode_encode _ _ trivial]
    rfl
  | snapshot bytes =>
    rw [decode, encode, List.append_assoc, Codec.u32.decode_encode _ _ trivial]
    simp only [bind, Except.bind]
    rw [Codec.byteVec.decode_encode _ _ h]
    rfl

def codec : Codec NetMsg := ⟨encode, decode, Fits, decode_encode⟩

theorem tips_length_le (ids : List (BitVec 256)) :
    ids.length ≤ (ids.flatMap Codec.bytes32.encode).length := by
  induction ids with
  | nil => exact Nat.le_refl 0
  | cons id ids ih =>
    rw [List.flatMap_cons, List.length_append, Codec.bytes32_encode_length, List.length_cons]
    omega

/-- What a message has in its list is no longer than the message. -/
theorem fits_of_length {msg : NetMsg} (h : (codec.encode msg).length < 2^64) : msg.Fits := by
  have hbytes : ∀ (tag : BitVec 32) (bytes : Bytes),
      (Codec.u32.encode tag ++ Codec.byteVec.encode bytes).length < 2^64 →
        bytes.length < 2^64 := by
    intro tag bytes hlen
    change (Codec.u32.encode tag ++ (Codec.u64.encode _ ++ bytes)).length < 2^64 at hlen
    rw [List.length_append, List.length_append] at hlen
    omega
  cases msg with
  | newBlock bytes => exact hbytes 0 bytes h
  | newTx bytes => exact hbytes 1 bytes h
  | getBlock id => trivial
  | getTips => trivial
  | tips ids =>
    change (Codec.u32.encode 4 ++ (Codec.u64.encode _ ++ ids.flatMap Codec.bytes32.encode)).length
      < 2^64 at h
    rw [List.length_append, List.length_append] at h
    have hids := tips_length_le ids
    change ids.length < 2^64
    omega
  | getSnapshot => trivial
  | snapshot bytes => exact hbytes 6 bytes h

end NetMsg

/-- A big-endian `u32` length, then the message. -/
def frame (msg : NetMsg) : Except String Bytes :=
  let body := NetMsg.codec.encode msg
  if body.length < 2^32 then .ok (beBytes 4 body.length ++ body)
  else .error "network error: message too large"

/-- `read_exact`, on the bytes that the peer has yet to deliver before it closes. -/
def readExact (n : Nat) (stream : Bytes) : Except String (Bytes × Bytes) :=
  if n ≤ stream.length then .ok (stream.take n, stream.drop n)
  else .error "I/O error: failed to fill whole buffer"

/-- The next message, and what is left of the stream. -/
def readFrame (stream : Bytes) : Except String (NetMsg × Bytes) := do
  let (lenBuf, stream) ← readExact 4 stream
  let len := ofBE lenBuf
  if maxMsgSize < len then
    .error ("network error: frame too large: " ++ toString len ++ " > " ++ toString maxMsgSize)
  else
    let (body, stream) ← readExact len stream
    match NetMsg.codec.deserialize body with
    | .ok msg => return (msg, stream)
    | .error e => .error ("network error: " ++ e)

/-- Successive reads. -/
def readFrames : Nat → Bytes → Except String (List NetMsg × Bytes)
  | 0, stream => .ok ([], stream)
  | n+1, stream => do
      let (msg, stream) ← readFrame stream
      let (msgs, stream) ← readFrames n stream
      return (msg :: msgs, stream)

theorem readExact_append {bytes rest : Bytes} :
    readExact bytes.length (bytes ++ rest) = .ok (bytes, rest) := by
  have hle : bytes.length ≤ (bytes ++ rest).length := by simp
  rw [readExact, if_pos hle, List.take_left, List.drop_left]

variable {msg : NetMsg} {bytes rest : Bytes}

theorem frame_eq_ok (h : frame msg = .ok bytes) :
    bytes = beBytes 4 (NetMsg.codec.encode msg).length ++ NetMsg.codec.encode msg ∧
      (NetMsg.codec.encode msg).length < 2^32 := by
  simp only [frame] at h
  split at h
  · rename_i hlen
    cases h
    exact ⟨rfl, hlen⟩
  · cases h

/-- The length of a frame is read back. -/
theorem readFrame_length (h : frame msg = .ok bytes) :
    readExact 4 (bytes ++ rest) =
      .ok (beBytes 4 (NetMsg.codec.encode msg).length, NetMsg.codec.encode msg ++ rest) ∧
    ofBE (beBytes 4 (NetMsg.codec.encode msg).length) = (NetMsg.codec.encode msg).length := by
  obtain ⟨rfl, hlen⟩ := frame_eq_ok h
  refine ⟨?_, ofBE_beBytes_of_lt (by omega)⟩
  have hread := @readExact_append (beBytes 4 (NetMsg.codec.encode msg).length)
    (NetMsg.codec.encode msg ++ rest)
  rwa [beBytes_length, ← List.append_assoc] at hread

/-- A frame within the limit is read whole. -/
theorem readFrame_frame (h : frame msg = .ok bytes)
    (hsize : (NetMsg.codec.encode msg).length ≤ maxMsgSize) :
    readFrame (bytes ++ rest) = .ok (msg, rest) := by
  obtain ⟨hread, hbe⟩ := @readFrame_length msg bytes rest h
  have hlen := (frame_eq_ok h).2
  have hfits : msg.Fits := NetMsg.fits_of_length (by omega)
  rw [readFrame, hread]
  simp only [bind, Except.bind]
  rw [hbe, if_neg (by omega), readExact_append]
  simp only [NetMsg.codec.deserialize_encode hfits]
  rfl

/-- A frame above the limit is refused, whatever the sender made of it. -/
theorem readFrame_large (h : frame msg = .ok bytes)
    (hsize : maxMsgSize < (NetMsg.codec.encode msg).length) :
    ∃ e, readFrame (bytes ++ rest) = .error e := by
  obtain ⟨hread, hbe⟩ := @readFrame_length msg bytes rest h
  rw [readFrame, hread]
  simp only [bind, Except.bind]
  rw [hbe, if_pos hsize]
  exact ⟨_, rfl⟩

/-- The messages of some frames are read back, and nothing else. -/
def RoundTrips (msgs : List NetMsg) (frames : List Bytes) : Prop :=
  readFrames msgs.length frames.flatten = .ok (msgs, [])

theorem readFrames_frames_iff {msgs : List NetMsg} {frames : List Bytes}
    (h : msgs.mapM frame = .ok frames) : RoundTrips msgs frames ↔
      ∀ msg ∈ msgs, (NetMsg.codec.encode msg).length ≤ maxMsgSize := by
  rw [RoundTrips]
  induction msgs generalizing frames with
  | nil =>
    cases h
    exact ⟨fun _ _ hmsg => absurd hmsg List.not_mem_nil, fun _ => rfl⟩
  | cons msg msgs ih =>
    rw [List.mapM_cons] at h
    obtain ⟨bytes, hframe, h⟩ := bind_eq_ok.mp h
    obtain ⟨frames', hframes, h⟩ := bind_eq_ok.mp h
    cases h
    rw [List.forall_mem_cons, List.flatten_cons, List.length_cons, ← ih hframes, readFrames]
    by_cases hsize : (NetMsg.codec.encode msg).length ≤ maxMsgSize
    · rw [readFrame_frame hframe hsize]
      constructor
      · intro hread
        obtain ⟨_, hfirst, hread⟩ := bind_eq_ok.mp hread
        cases hfirst
        obtain ⟨⟨msgs', stream⟩, hrest, hread⟩ := bind_eq_ok.mp hread
        cases hread
        exact ⟨hsize, hrest⟩
      · rintro ⟨_, hrest⟩
        exact bind_eq_ok.mpr ⟨(msg, frames'.flatten), rfl, bind_eq_ok.mpr ⟨(msgs, []), hrest, rfl⟩⟩
    · obtain ⟨e, he⟩ := @readFrame_large msg bytes frames'.flatten hframe (not_le.mp hsize)
      rw [he]
      constructor
      · intro hread
        cases hread
      · intro hall
        exact absurd hall.1 hsize

/-- Two messages one after the other. -/
theorem readFrames_frames_iff_pair : ∃ frames,
    [NetMsg.getTips, .newTx [1, 2, 3]].mapM frame = .ok frames ∧
    (RoundTrips [.getTips, .newTx [1, 2, 3]] frames ↔
      ∀ msg ∈ [NetMsg.getTips, .newTx [1, 2, 3]],
        (NetMsg.codec.encode msg).length ≤ maxMsgSize) :=
  ⟨_, rfl, readFrames_frames_iff rfl⟩

/-- A snapshot of 8 MiB is sent and imported, but its frame is not read. -/
theorem snapshot_not_read : ∃ payload bytes : Bytes, payload.length ≤ 256 * 1024 * 1024 ∧
    frame (.snapshot payload) = .ok bytes ∧ ¬RoundTrips [.snapshot payload] [bytes] := by
  obtain ⟨payload, hpayload⟩ : ∃ payload : Bytes, payload.length = maxMsgSize :=
    ⟨List.replicate maxMsgSize 0, List.length_replicate⟩
  have hlen : (NetMsg.codec.encode (.snapshot payload)).length = maxMsgSize + 12 := by
    change (Codec.u32.encode 6 ++ (Codec.u64.encode _ ++ payload)).length = _
    rw [List.length_append, List.length_append, hpayload, Nat.add_comm, Nat.add_comm _ maxMsgSize]
    rfl
  obtain ⟨bytes, hframe⟩ : ∃ bytes, frame (.snapshot payload) = .ok bytes := by
    refine ⟨_, if_pos ?_⟩
    rw [hlen]
    decide
  refine ⟨payload, bytes, ?_, hframe, ?_⟩
  · rw [hpayload]
    decide
  · obtain ⟨e, he⟩ := @readFrame_large (.snapshot payload) bytes [] hframe (by omega)
    intro hread
    rw [RoundTrips, List.flatten_singleton, ← List.append_nil bytes] at hread
    change (readFrame (bytes ++ []) >>= _) = _ at hread
    rw [he] at hread
    cases hread

end TaoDag.P2p
