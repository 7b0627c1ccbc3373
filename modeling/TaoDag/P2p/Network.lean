import Mathlib.Data.List.Basic
import Mathlib.Data.List.Infix
import Mathlib.Data.List.TakeWhile
import Mathlib.Logic.Function.Basic
import Mathlib.Logic.Relation
import TaoDag.P2p.Frame

namespace TaoDag.P2p

/-- Per-peer identifier used by the local node for direct responses. -/
abbrev PeerId := Nat

/-- One end of a connection. -/
structure TcpStream where
  conn : Nat
  dialed : Bool
deriving DecidableEq

def TcpStream.other (s : TcpStream) : TcpStream :=
  { s with dialed := !s.dialed }

theorem TcpStream.other_other (s : TcpStream) : s.other.other = s := by
  simp [other]

/-- Inbound envelope with sender identity. -/
structure InboundMsg where
  peer : PeerId
  msg : NetMsg

/-- What `write_all` puts on a stream, and whether it succeeds: after an error
only some of the bytes are out. -/
def writeAll (fault : Option Nat) (bytes : Bytes) : Bytes × Bool :=
  match fault with
  | none => (bytes, true)
  | some n => (bytes.take n, false)

structure Network where
  peers : List (PeerId × TcpStream)

namespace Network

/-- A message to every connected peer (dropping any that error), and what was written. -/
def broadcast (net : Network) (msg : NetMsg) (fault : TcpStream → Option Nat) :
    Network × List (TcpStream × Bytes) :=
  match frame msg with
  | .error _ => (net, [])
  | .ok framed =>
    (⟨net.peers.filter fun p => (writeAll (fault p.2) framed).2⟩,
      net.peers.map fun p => (p.2, (writeAll (fault p.2) framed).1))

/-- A message directly to a peer. -/
def sendTo (net : Network) (peer : PeerId) (msg : NetMsg) (fault : TcpStream → Option Nat) :
    Except String Unit × Network × List (TcpStream × Bytes) :=
  match frame msg with
  | .error e => (.error e, net, [])
  | .ok framed =>
    match net.peers.find? fun p => p.1 == peer with
    | none => (.error "network error: unknown peer", net, [])
    | some p =>
      let (bytes, whole) := writeAll (fault p.2) framed
      if whole then (.ok (), net, [(p.2, bytes)])
      else
        (.error "network error: peer write failed",
          ⟨net.peers.eraseP fun q => q.1 == peer⟩, [(p.2, bytes)])

end Network

/-- A node of the network: its handle, its counter, and the channel to its consumer
while there is one. -/
structure Host where
  net : Network
  nextPeerId : PeerId
  inbound : List InboundMsg
  consumer : Bool

def Host.start : Host := ⟨⟨[]⟩, 0, [], true⟩

/-- One turn of the loop on what was read, and whether there is another. -/
def Host.readLoop (h : Host) (peer : PeerId) : Except String NetMsg → Host × Bool
  | .ok msg =>
    if h.consumer then ({ h with inbound := h.inbound ++ [⟨peer, msg⟩] }, true) else (h, false)
  | .error _ => ({ h with net := ⟨h.net.peers.filter fun p => p.1 ≠ peer⟩ }, false)

namespace Host

variable (h : Host) (peer : PeerId) (read : Except String NetMsg)

theorem readLoop_next : (h.readLoop peer read).1.nextPeerId = h.nextPeerId := by
  cases read with
  | error e => rfl
  | ok msg =>
    rw [readLoop]
    split <;> rfl

theorem readLoop_peers : (h.readLoop peer read).1.net.peers.Sublist h.net.peers := by
  cases read with
  | error e => exact List.filter_sublist
  | ok msg =>
    rw [readLoop]
    split <;> exact List.Sublist.refl _

/-- What a turn delivers has the identifier of the connection. -/
theorem readLoop_inbound :
    ((h.readLoop peer read).2 = false ∧ (h.readLoop peer read).1.inbound = h.inbound) ∨
      ∃ msg, read = .ok msg ∧ (h.readLoop peer read).2 = true ∧
        (h.readLoop peer read).1.inbound = h.inbound ++ [⟨peer, msg⟩] := by
  cases read with
  | error e => exact Or.inl ⟨rfl, rfl⟩
  | ok msg =>
    rw [readLoop]
    split
    · exact Or.inr ⟨msg, rfl, rfl, rfl⟩
    · exact Or.inl ⟨rfl, rfl⟩

end Host

/-- A connection is opened, then among the peers and read, until its thread stops. -/
inductive Phase where
  | opened
  | running
  | done
deriving DecidableEq

/-- Whose stream it is, and under which identifier. -/
structure Reader (ι : Type) where
  host : ι
  peer : PeerId

/-- All the hosts, and for every stream what was written at that end and is still to be
read at the other. `sent` is the history of the writes. -/
structure World (ι : Type) where
  host : ι → Host
  reader : TcpStream → Option (Reader ι)
  phase : TcpStream → Phase
  wire : TcpStream → Bytes
  sent : TcpStream → List NetMsg

namespace World

variable {ι : Type} [DecidableEq ι]

def start : World ι where
  host _ := Host.start
  reader _ := none
  phase _ := .opened
  wire _ := []
  sent _ := []

/-- A call of a host that wrote a message on some streams. -/
def wrote (w : World ι) (h : ι) (net : Network) (msg : NetMsg)
    (writes : List (TcpStream × Bytes)) : World ι :=
  { w with
    host := Function.update w.host h { w.host h with net := net }
    wire := fun s => w.wire s ++ (writes.filter fun p => p.1 = s).flatMap Prod.snd
    sent := fun s => w.sent s ++ (writes.filter fun p => p.1 = s).map fun _ => msg }

/-- `fetch_add` in `add_connection`. -/
def take (w : World ι) (h : ι) (s : TcpStream) : World ι :=
  { w with
    host := Function.update w.host h { w.host h with nextPeerId := (w.host h).nextPeerId + 1 }
    reader := Function.update w.reader s (some ⟨h, (w.host h).nextPeerId⟩) }

/-- The rest of `add_connection`. -/
def push (w : World ι) (s : TcpStream) (r : Reader ι) : World ι :=
  { w with
    host := Function.update w.host r.host
      { w.host r.host with net := ⟨(w.host r.host).net.peers ++ [(r.peer, s)]⟩ }
    phase := Function.update w.phase s .running }

/-- A turn of the read loop at the end `s`, with what it leaves on the wire. -/
def turn (w : World ι) (s : TcpStream) (r : Reader ι) (read : Except String NetMsg)
    (rest : Bytes) : World ι :=
  let t := (w.host r.host).readLoop r.peer read
  { w with
    host := Function.update w.host r.host t.1
    phase := Function.update w.phase s (if t.2 then .running else .done)
    wire := Function.update w.wire s.other rest }

/-- The consumer of the inbound channel is gone. -/
def close (w : World ι) (h : ι) : World ι :=
  { w with host := Function.update w.host h { w.host h with consumer := false } }

/-- What the threads of the hosts and the network can do. A read blocks until the wire has
the whole frame; an error (the limit, a malformed message, a lost connection) can come at
any time. -/
inductive Step : World ι → World ι → Prop where
  | take {w : World ι} (h : ι) {s : TcpStream} (hs : w.reader s = none) : Step w (w.take h s)
  | push {w : World ι} {s : TcpStream} {r : Reader ι} (hs : w.reader s = some r)
      (hp : w.phase s = .opened) : Step w (w.push s r)
  | broadcast {w : World ι} (h : ι) (msg : NetMsg) (fault : TcpStream → Option Nat) :
      Step w (w.wrote h ((w.host h).net.broadcast msg fault).1 msg
        ((w.host h).net.broadcast msg fault).2)
  | sendTo {w : World ι} (h : ι) (peer : PeerId) (msg : NetMsg)
      (fault : TcpStream → Option Nat) :
      Step w (w.wrote h ((w.host h).net.sendTo peer msg fault).2.1 msg
        ((w.host h).net.sendTo peer msg fault).2.2)
  | read {w : World ι} {s : TcpStream} {r : Reader ι} {msg : NetMsg} {rest : Bytes}
      (hs : w.reader s = some r) (hp : w.phase s = .running)
      (hread : readFrame (w.wire s.other) = .ok (msg, rest)) : Step w (w.turn s r (.ok msg) rest)
  | fail {w : World ι} {s : TcpStream} {r : Reader ι} (e : String) (rest : Bytes)
      (hs : w.reader s = some r) (hp : w.phase s = .running) : Step w (w.turn s r (.error e) rest)
  | close {w : World ι} (h : ι) : Step w (w.close h)

abbrev Run : World ι → World ι → Prop := Relation.ReflTransGen Step

/-- What the host at the end `s` has received from there. -/
def received (w : World ι) (s : TcpStream) : List NetMsg :=
  match w.reader s with
  | none => []
  | some r =>
    ((w.host r.host).inbound.filter fun m => m.peer = r.peer).map InboundMsg.msg

end World

/-- The bytes of a message on a stream. -/
def framed (msg : NetMsg) : Bytes :=
  beBytes 4 (NetMsg.codec.encode msg).length ++ NetMsg.codec.encode msg

def allFramed (msgs : List NetMsg) : Bytes := msgs.flatMap framed

/-- A message that `read_frame` does not refuse. -/
def Small (msg : NetMsg) : Prop := (NetMsg.codec.encode msg).length ≤ maxMsgSize

instance (msg : NetMsg) : Decidable (Small msg) :=
  inferInstanceAs (Decidable (_ ≤ _))

theorem readExact_more {n : Nat} {bytes more taken left : Bytes}
    (h : readExact n bytes = .ok (taken, left)) :
    readExact n (bytes ++ more) = .ok (taken, left ++ more) := by
  simp only [readExact] at h
  split at h
  · rename_i hn
    cases h
    have hle : n ≤ (bytes ++ more).length := by
      rw [List.length_append]
      omega
    rw [readExact, if_pos hle, List.take_append_of_le_length hn, List.drop_append_of_le_length hn]
  · cases h

/-- A read succeeds with a length within the limit, that many bytes, and a message in them. -/
theorem readFrame_eq_ok {bytes rest : Bytes} {msg : NetMsg} :
    readFrame bytes = .ok (msg, rest) ↔ ∃ lenBuf left body,
      readExact 4 bytes = .ok (lenBuf, left) ∧ ofBE lenBuf ≤ maxMsgSize ∧
        readExact (ofBE lenBuf) left = .ok (body, rest) ∧
          NetMsg.codec.deserialize body = .ok msg := by
  constructor
  · intro h
    obtain ⟨⟨lenBuf, left⟩, hlen, h⟩ := bind_eq_ok.mp h
    change (if maxMsgSize < ofBE lenBuf then _ else _) = _ at h
    by_cases hmax : maxMsgSize < ofBE lenBuf
    · rw [if_pos hmax] at h
      cases h
    · rw [if_neg hmax] at h
      obtain ⟨⟨body, left'⟩, hbody, h⟩ := bind_eq_ok.mp h
      cases hmsg : NetMsg.codec.deserialize body with
      | error e =>
        simp only [hmsg] at h
        cases h
      | ok m =>
        simp only [hmsg] at h
        cases h
        exact ⟨lenBuf, left, body, hlen, not_lt.mp hmax, hbody, hmsg⟩
  · rintro ⟨lenBuf, left, body, hlen, hmax, hbody, hmsg⟩
    rw [readFrame, hlen]
    simp only [bind, Except.bind]
    rw [if_neg (not_lt.mpr hmax), hbody]
    simp only [hmsg]
    rfl

/-- What is read does not depend on what comes after. -/
theorem readFrame_more {bytes more rest : Bytes} {msg : NetMsg}
    (h : readFrame bytes = .ok (msg, rest)) :
    readFrame (bytes ++ more) = .ok (msg, rest ++ more) := by
  obtain ⟨lenBuf, left, body, hlen, hmax, hbody, hmsg⟩ := readFrame_eq_ok.mp h
  exact readFrame_eq_ok.mpr
    ⟨lenBuf, left ++ more, body, readExact_more hlen, hmax, readExact_more hbody, hmsg⟩

/-- A read from the start of some frames takes the first. -/
theorem readFrame_allFramed {msgs : List NetMsg} {bytes rest : Bytes} {msg : NetMsg}
    (hframe : ∀ m ∈ msgs, frame m = .ok (framed m)) (hbytes : bytes <+: allFramed msgs)
    (h : readFrame bytes = .ok (msg, rest)) :
    ∃ later, msgs = msg :: later ∧ Small msg ∧ rest <+: allFramed later ∧
      (bytes = allFramed msgs → rest = allFramed later) := by
  obtain ⟨more, hmore⟩ := hbytes
  have hread := @readFrame_more bytes more rest msg h
  rw [hmore] at hread
  cases msgs with
  | nil =>
    have hnil : readFrame (allFramed []) = .error "I/O error: failed to fill whole buffer" := rfl
    rw [hnil] at hread
    cases hread
  | cons first later =>
    have hfirst := hframe first List.mem_cons_self
    change readFrame (framed first ++ allFramed later) = _ at hread
    by_cases hsmall : Small first
    · rw [readFrame_frame hfirst hsmall] at hread
      simp only [Except.ok.injEq, Prod.mk.injEq] at hread
      obtain ⟨rfl, hrest⟩ := hread
      refine ⟨later, rfl, hsmall, ⟨more, hrest.symm⟩, ?_⟩
      intro hall
      have hnone : more = [] := by
        rw [← hall] at hmore
        exact List.append_right_eq_self.mp hmore
      rw [hnone, List.append_nil] at hrest
      exact hrest.symm
    · obtain ⟨e, he⟩ := @readFrame_large first _ (allFramed later) hfirst (not_le.mp hsmall)
      rw [he] at hread
      cases hread

/-- What a call does: no new peer, at most one write to each, all of it where the
peer stays. -/
structure Wrote (net : Network) (msg : NetMsg) (net' : Network)
    (writes : List (TcpStream × Bytes)) : Prop where
  peers : net'.peers.Sublist net.peers
  streams : (writes.map Prod.fst).Sublist (net.peers.map Prod.snd)
  bytes : ∀ s b, (s, b) ∈ writes → frame msg = .ok (framed msg) ∧ b <+: framed msg ∧
    (s ∈ net'.peers.map Prod.snd → b = framed msg)

theorem Wrote.nothing {net : Network} {msg : NetMsg} : Wrote net msg net [] where
  peers := List.Sublist.refl _
  streams := List.nil_sublist _
  bytes := fun _ _ h => absurd h List.not_mem_nil

theorem writeAll_prefix (fault : Option Nat) (bytes : Bytes) :
    (writeAll fault bytes).1 <+: bytes := by
  cases fault with
  | none => exact List.prefix_rfl
  | some n => exact List.take_prefix n bytes

theorem writeAll_whole {fault : Option Nat} {bytes : Bytes}
    (h : (writeAll fault bytes).2 = true) : (writeAll fault bytes).1 = bytes := by
  cases fault with
  | none => rfl
  | some n => cases h

theorem frame_framed {msg : NetMsg} {bytes : Bytes} (h : frame msg = .ok bytes) :
    bytes = framed msg := (frame_eq_ok h).1

theorem Network.broadcast_wrote (net : Network) (msg : NetMsg) (fault : TcpStream → Option Nat) :
    Wrote net msg (net.broadcast msg fault).1 (net.broadcast msg fault).2 := by
  rw [broadcast]
  cases hframe : frame msg with
  | error e => exact Wrote.nothing
  | ok out =>
    have hout := frame_framed hframe
    subst hout
    refine ⟨List.filter_sublist, ?_, ?_⟩
    · rw [List.map_map]
      exact List.Sublist.refl _
    · intro s b hmem
      obtain ⟨p, -, hp⟩ := List.mem_map.mp hmem
      cases hp
      refine ⟨hframe, writeAll_prefix _ _, ?_⟩
      intro hkept
      obtain ⟨q, hq, hs⟩ := List.mem_map.mp hkept
      have hwhole := (List.mem_filter.mp hq).2
      rw [hs] at hwhole
      exact writeAll_whole hwhole

/-- The peer that is removed takes its stream along. -/
theorem Network.eraseP_stream {peers : List (PeerId × TcpStream)} {peer : PeerId}
    {p : PeerId × TcpStream} (hpeers : (peers.map Prod.snd).Nodup)
    (hfind : (peers.find? fun q => q.1 == peer) = some p) :
    p.2 ∉ (peers.eraseP fun q => q.1 == peer).map Prod.snd := by
  obtain ⟨hp, before, after, rfl, hbefore⟩ := List.find?_eq_some_iff_append.mp hfind
  have herase : (before ++ p :: after).eraseP (fun q => q.1 == peer) = before ++ after := by
    rw [List.eraseP_append_right]
    · rw [List.eraseP_cons_of_pos (by exact hp)]
    · intro q hq
      simpa using hbefore q hq
  rw [herase]
  rw [List.map_append, List.map_cons] at hpeers
  have hnot := (List.nodup_middle.mp hpeers).notMem
  rwa [← List.map_append] at hnot

theorem Network.sendTo_wrote {net : Network} (hnet : (net.peers.map Prod.snd).Nodup)
    (peer : PeerId) (msg : NetMsg) (fault : TcpStream → Option Nat) :
    Wrote net msg (net.sendTo peer msg fault).2.1 (net.sendTo peer msg fault).2.2 := by
  rw [sendTo]
  cases hframe : frame msg with
  | error e => exact Wrote.nothing
  | ok out =>
    have hout := frame_framed hframe
    subst hout
    cases hfind : net.peers.find? fun p => p.1 == peer with
    | none => exact Wrote.nothing
    | some p =>
      have hp : p ∈ net.peers := List.mem_of_find?_eq_some hfind
      have hstream : [p.2].Sublist (net.peers.map Prod.snd) :=
        List.singleton_sublist.mpr (List.mem_map_of_mem hp)
      simp only
      split
      · rename_i hwhole
        refine ⟨List.Sublist.refl _, hstream, ?_⟩
        intro s b hmem
        cases List.mem_singleton.mp hmem
        exact ⟨hframe, writeAll_prefix _ _, fun _ => writeAll_whole hwhole⟩
      · refine ⟨List.eraseP_sublist, hstream, ?_⟩
        intro s b hmem
        cases List.mem_singleton.mp hmem
        refine ⟨hframe, writeAll_prefix _ _, ?_⟩
        intro hkept
        exact absurd hkept (eraseP_stream hnet hfind)

/-- Who is written to has the identifier. -/
theorem Network.sendTo_peer {net : Network} {peer : PeerId} {msg : NetMsg}
    {fault : TcpStream → Option Nat} {write : TcpStream × Bytes}
    (h : write ∈ (net.sendTo peer msg fault).2.2) : (peer, write.1) ∈ net.peers := by
  rw [sendTo] at h
  cases hframe : frame msg with
  | error e =>
    rw [hframe] at h
    cases h
  | ok out =>
    rw [hframe] at h
    cases hfind : net.peers.find? fun p => p.1 == peer with
    | none =>
      rw [hfind] at h
      cases h
    | some p =>
      rw [hfind] at h
      have hpeer : p.1 = peer := by
        simpa using List.find?_some hfind
      have hmem : p ∈ net.peers := List.mem_of_find?_eq_some hfind
      have hwrite : write = (p.2, (writeAll (fault p.2) out).1) := by
        simp only at h
        split at h <;> exact List.mem_singleton.mp h
      rw [hwrite, ← hpeer]
      exact hmem

/-- One direction of a connection: what was sent and received, what is on its way, and
whether the one end is still read and the other still written. -/
structure Flow (sent received later : List NetMsg) (wire : Bytes) (listening linked : Prop) :
    Prop where
  split : sent = received ++ later
  framed : ∀ m ∈ sent, frame m = .ok (framed m)
  small : ∀ m ∈ received, Small m
  ahead : listening → wire <+: allFramed later
  whole : listening → linked → wire = allFramed later

namespace Flow

variable {sent received later : List NetMsg} {wire rest b : Bytes}
  {listening linked listening' linked' : Prop} {msg : NetMsg}

theorem mono (h : Flow sent received later wire listening linked)
    (hlistening : listening' → listening) (hlinked : linked' → linked) :
    Flow sent received later wire listening' linked' where
  split := h.split
  framed := h.framed
  small := h.small
  ahead := fun hl => h.ahead (hlistening hl)
  whole := fun hl hk => h.whole (hlistening hl) (hlinked hk)

/-- After the last read the wire does not matter. -/
theorem stop (h : Flow sent received later wire listening linked) (hstop : ¬listening') :
    Flow sent received later rest listening' linked' where
  split := h.split
  framed := h.framed
  small := h.small
  ahead := fun hl => absurd hl hstop
  whole := fun hl => absurd hl hstop

theorem write (h : Flow sent received later wire listening linked) (hlinked : linked)
    (hmsg : frame msg = .ok (P2p.framed msg)) (hb : b <+: P2p.framed msg)
    (hwhole : linked' → b = P2p.framed msg) :
    Flow (sent ++ [msg]) received (later ++ [msg]) (wire ++ b) listening linked' where
  split := by rw [h.split, List.append_assoc]
  framed := by
    intro m hm
    cases List.mem_append.mp hm with
    | inl hm => exact h.framed m hm
    | inr hm => rw [List.mem_singleton.mp hm, hmsg]
  small := h.small
  ahead := by
    intro hl
    rw [h.whole hl hlinked, allFramed, allFramed, List.flatMap_append, List.flatMap_singleton]
    exact List.prefix_append_right_inj _ |>.mpr hb
  whole := by
    intro hl hk
    rw [h.whole hl hlinked, hwhole hk, allFramed, allFramed, List.flatMap_append,
      List.flatMap_singleton]

theorem read (h : Flow sent received later wire listening linked) (hl : listening)
    (hread : readFrame wire = .ok (msg, rest)) :
    ∃ later', later = msg :: later' ∧
      Flow sent (received ++ [msg]) later' rest listening linked := by
  have hframed : ∀ m ∈ later, frame m = .ok (P2p.framed m) := by
    intro m hm
    apply h.framed
    rw [h.split]
    exact List.mem_append_right _ hm
  obtain ⟨later', rfl, hsmall, hahead, hwhole⟩ := readFrame_allFramed hframed (h.ahead hl) hread
  refine ⟨later', rfl, ?_⟩
  constructor
  · rw [h.split, List.append_assoc, List.singleton_append]
  · exact h.framed
  · intro m hm
    cases List.mem_append.mp hm with
    | inl hm => exact h.small m hm
    | inr hm => rwa [List.mem_singleton.mp hm]
  · exact fun _ => hahead
  · exact fun hl hk => hwhole (h.whole hl hk)

/-- What is received is what was sent up to the first message that is too large. -/
theorem takeWhile (h : Flow sent received later wire listening linked) :
    sent.takeWhile Small = received ++ later.takeWhile Small := by
  rw [h.split, List.takeWhile_append_of_pos]
  intro m hm
  exact decide_eq_true (h.small m hm)

end Flow

namespace World

variable {ι : Type} {w w' : World ι} {s t : TcpStream} {r : Reader ι}

/-- The end is written to by its host. -/
def Linked (w : World ι) (s : TcpStream) : Prop :=
  ∃ h p, (p, s) ∈ (w.host h).net.peers

/-- The end is read, or will be. -/
def Listening (w : World ι) (s : TcpStream) : Prop := w.phase s ≠ .done

/-- Who is called what: no identifier is used twice, and the peers are the streams that are
read under it. -/
structure Registered (w : World ι) : Prop where
  fresh : ∀ s r, w.reader s = some r → r.peer < (w.host r.host).nextPeerId
  apart : ∀ s t r, w.reader s = some r → w.reader t = some r → s = t
  named : ∀ h p s, (p, s) ∈ (w.host h).net.peers →
    w.reader s = some ⟨h, p⟩ ∧ w.phase s ≠ .opened
  once : ∀ h, (w.host h).net.peers.Nodup
  origin : ∀ h, ∀ m ∈ (w.host h).inbound, ∃ s, w.reader s = some ⟨h, m.peer⟩

theorem received_some (hs : w.reader s = some r) : w.received s =
    ((w.host r.host).inbound.filter fun m => m.peer = r.peer).map InboundMsg.msg := by
  rw [received, hs]

theorem received_none (hs : w.reader s = none) : w.received s = [] := by
  rw [received, hs]

theorem received_congr (hreader : w'.reader s = w.reader s)
    (hinbound : ∀ h, (w'.host h).inbound = (w.host h).inbound) :
    w'.received s = w.received s := by
  cases hs : w.reader s with
  | none => rw [received_none hs, received_none (hreader.trans hs)]
  | some r => rw [received_some hs, received_some (hreader.trans hs), hinbound]

namespace Registered

/-- What only removes peers keeps the names. -/
theorem shrink (hw : w.Registered) (hreader : w'.reader = w.reader)
    (hphase : ∀ s, w'.phase s = .opened → w.phase s = .opened)
    (hnext : ∀ h, (w'.host h).nextPeerId = (w.host h).nextPeerId)
    (hpeers : ∀ h, (w'.host h).net.peers.Sublist (w.host h).net.peers)
    (hinbound : ∀ h, ∀ m ∈ (w'.host h).inbound, m ∈ (w.host h).inbound ∨
      ∃ s, w.reader s = some ⟨h, m.peer⟩) : w'.Registered where
  fresh := by
    intro s r hs
    rw [hnext]
    exact hw.fresh s r (by rw [← hreader, hs])
  apart := by
    rw [hreader]
    exact hw.apart
  named := by
    intro h p s hmem
    obtain ⟨hs, hopened⟩ := hw.named h p s ((hpeers h).mem hmem)
    exact ⟨by rw [hreader, hs], fun hp => hopened (hphase s hp)⟩
  once := fun h => (hw.once h).sublist (hpeers h)
  origin := by
    intro h m hm
    rw [hreader]
    cases hinbound h m hm with
    | inl hold => exact hw.origin h m hold
    | inr hnew => exact hnew

theorem streams (hw : w.Registered) (h : ι) : ((w.host h).net.peers.map Prod.snd).Nodup := by
  refine List.Nodup.map_on ?_ (hw.once h)
  intro a ha b hb hab
  obtain ⟨p, s⟩ := a
  obtain ⟨q, t⟩ := b
  simp only at hab
  subst hab
  have hp := (hw.named h p s ha).1
  have hq := (hw.named h q s hb).1
  rw [hp] at hq
  cases hq
  rfl

end Registered

/-- The names are right, and each direction of each connection is a flow. -/
structure Sound (w : World ι) : Prop extends w.Registered where
  idle : ∀ s, w.phase s = .opened → w.sent s = []
  flow : ∀ s, ∃ later, Flow (w.sent s.other) (w.received s) later (w.wire s.other)
    (w.Listening s) (w.Linked s.other)

theorem start_sound : (start : World ι).Sound where
  fresh := by
    intro s r h
    cases h
  apart := by
    intro s t r h
    cases h
  named := by
    intro h p s hmem
    cases hmem
  once := fun _ => List.nodup_nil
  origin := by
    intro h m hm
    cases hm
  idle := fun _ _ => rfl
  flow := by
    intro s
    refine ⟨[], rfl, ?_, ?_, fun _ => List.prefix_rfl, fun _ _ => rfl⟩
    · intro m hm
      cases hm
    · intro m hm
      cases hm

theorem Sound.received_prefix (hw : w.Sound) (s : TcpStream) :
    w.received s <+: (w.sent s.other).takeWhile Small := by
  obtain ⟨later, hflow⟩ := hw.flow s
  rw [hflow.takeWhile]
  exact List.prefix_append _ _

variable [DecidableEq ι]

/-- A host of its own does not change the others. -/
theorem host_update {β : Type} {f : ι → Host} {h : ι} {v : Host} (g : Host → β)
    (hv : g v = g (f h)) (x : ι) : g (Function.update f h v x) = g (f x) := by
  by_cases hx : x = h
  · subst hx
    rw [Function.update_self, hv]
  · rw [Function.update_of_ne hx]

theorem take_reader_self (w : World ι) (h : ι) (s : TcpStream) :
    (w.take h s).reader s = some ⟨h, (w.host h).nextPeerId⟩ := by
  simp [take]

theorem take_reader_ne (w : World ι) (h : ι) (hts : t ≠ s) :
    (w.take h s).reader t = w.reader t := by
  simp [take, hts]

theorem take_next_self (w : World ι) (h : ι) (s : TcpStream) :
    ((w.take h s).host h).nextPeerId = (w.host h).nextPeerId + 1 := by
  simp [take]

theorem take_next_le (w : World ι) (h : ι) (s : TcpStream) (x : ι) :
    (w.host x).nextPeerId ≤ ((w.take h s).host x).nextPeerId := by
  by_cases hx : x = h
  · subst hx
    simp [take]
  · simp [take, hx]

theorem push_peers (w : World ι) (s : TcpStream) (r : Reader ι) (x : ι) :
    ((w.push s r).host x).net.peers =
      (w.host x).net.peers ++ if x = r.host then [(r.peer, s)] else [] := by
  by_cases hx : x = r.host
  · subst hx
    simp [push]
  · simp [push, hx]

theorem wrote_peers {h : ι} {net : Network} {msg : NetMsg} {writes : List (TcpStream × Bytes)}
    (hnet : Wrote (w.host h).net msg net writes) (x : ι) :
    ((w.wrote h net msg writes).host x).net.peers.Sublist (w.host x).net.peers := by
  by_cases hx : x = h
  · subst hx
    simpa [wrote] using hnet.peers
  · simp [wrote, hx]

theorem turn_host_ne (w : World ι) (s : TcpStream) (read : Except String NetMsg) (rest : Bytes)
    {x : ι} (hx : x ≠ r.host) : (w.turn s r read rest).host x = w.host x := by
  simp [turn, hx]

theorem turn_host_self (w : World ι) (s : TcpStream) (r : Reader ι)
    (read : Except String NetMsg) (rest : Bytes) :
    (w.turn s r read rest).host r.host = ((w.host r.host).readLoop r.peer read).1 := by
  simp [turn]

theorem turn_peers (w : World ι) (s : TcpStream) (r : Reader ι) (read : Except String NetMsg)
    (rest : Bytes) (x : ι) :
    ((w.turn s r read rest).host x).net.peers.Sublist (w.host x).net.peers := by
  by_cases hx : x = r.host
  · subst hx
    rw [turn_host_self]
    exact Host.readLoop_peers _ _ _
  · rw [turn_host_ne w s read rest hx]

theorem turn_phase_ne (w : World ι) (r : Reader ι) (read : Except String NetMsg) (rest : Bytes)
    (hts : t ≠ s) : (w.turn s r read rest).phase t = w.phase t := by
  simp [turn, hts]

namespace Registered

theorem wrote (hw : w.Registered) {h : ι} {net : Network} {msg : NetMsg}
    {writes : List (TcpStream × Bytes)} (hnet : Wrote (w.host h).net msg net writes) :
    (w.wrote h net msg writes).Registered := by
  have hin : ∀ x, ((w.wrote h net msg writes).host x).inbound = (w.host x).inbound :=
    host_update Host.inbound rfl
  refine hw.shrink rfl (fun _ hp => hp) (host_update Host.nextPeerId rfl) (wrote_peers hnet) ?_
  intro x m hm
  rw [hin] at hm
  exact Or.inl hm

theorem take (hw : w.Registered) (h : ι) (hs : w.reader s = none) :
    (w.take h s).Registered := by
  have hnet : ∀ x, ((w.take h s).host x).net = (w.host x).net := host_update Host.net rfl
  have hin : ∀ x, ((w.take h s).host x).inbound = (w.host x).inbound :=
    host_update Host.inbound rfl
  have hne : ∀ t q, w.reader t = some q → t ≠ s := by
    intro t q ht hts
    rw [hts, hs] at ht
    cases ht
  -- The new identifier is above all those of the host.
  have hnew : ∀ t, w.reader t ≠ some ⟨h, (w.host h).nextPeerId⟩ := by
    intro t ht
    exact lt_irrefl _ (hw.fresh t _ ht)
  constructor
  · intro t q ht
    by_cases hts : t = s
    · subst hts
      rw [take_reader_self] at ht
      cases ht
      rw [take_next_self]
      exact Nat.lt_succ_self _
    · rw [take_reader_ne w h hts] at ht
      exact lt_of_lt_of_le (hw.fresh t q ht) (take_next_le w h s q.host)
  · intro t u q ht hu
    by_cases hts : t = s
    · by_cases hus : u = s
      · rw [hts, hus]
      · subst hts
        rw [take_reader_self] at ht
        rw [take_reader_ne w h hus, ← ht] at hu
        exact absurd hu (hnew u)
    · rw [take_reader_ne w h hts] at ht
      by_cases hus : u = s
      · subst hus
        rw [take_reader_self] at hu
        rw [← hu] at ht
        exact absurd ht (hnew t)
      · rw [take_reader_ne w h hus] at hu
        exact hw.apart t u q ht hu
  · intro x p t hmem
    rw [hnet] at hmem
    obtain ⟨ht, hopened⟩ := hw.named x p t hmem
    exact ⟨by rw [take_reader_ne w h (hne t _ ht), ht], hopened⟩
  · intro x
    rw [hnet]
    exact hw.once x
  · intro x m hm
    rw [hin] at hm
    obtain ⟨t, ht⟩ := hw.origin x m hm
    exact ⟨t, by rw [take_reader_ne w h (hne t _ ht), ht]⟩

theorem push (hw : w.Registered) (hs : w.reader s = some r) (hp : w.phase s = .opened) :
    (w.push s r).Registered := by
  have hnot : ∀ h p, (p, s) ∉ (w.host h).net.peers := by
    intro h p hmem
    exact (hw.named h p s hmem).2 hp
  have hnext : ∀ h, ((w.push s r).host h).nextPeerId = (w.host h).nextPeerId :=
    host_update Host.nextPeerId rfl
  have hin : ∀ h, ((w.push s r).host h).inbound = (w.host h).inbound :=
    host_update Host.inbound rfl
  constructor
  · intro t q ht
    rw [hnext]
    exact hw.fresh t q ht
  · exact hw.apart
  · intro h p t hmem
    rw [push_peers, List.mem_append] at hmem
    cases hmem with
    | inl hold =>
      obtain ⟨ht, hopened⟩ := hw.named h p t hold
      have hts : t ≠ s := fun hts => hopened (hts ▸ hp)
      exact ⟨ht, by simpa [World.push, hts] using hopened⟩
    | inr hnew =>
      split at hnew
      · rename_i hh
        subst hh
        cases List.mem_singleton.mp hnew
        exact ⟨hs, by simp [World.push]⟩
      · cases hnew
  · intro h
    rw [push_peers]
    split
    · simpa using (hw.once h).concat (hnot h r.peer)
    · rw [List.append_nil]
      exact hw.once h
  · intro h m hm
    rw [hin] at hm
    exact hw.origin h m hm

theorem turn (hw : w.Registered) (hs : w.reader s = some r) (read : Except String NetMsg)
    (rest : Bytes) : (w.turn s r read rest).Registered := by
  refine hw.shrink rfl ?_ ?_ (turn_peers w s r read rest) ?_
  · intro t ht
    by_cases hts : t = s
    · subst hts
      simp only [World.turn, Function.update_self] at ht
      split at ht <;> cases ht
    · rwa [turn_phase_ne w r read rest hts] at ht
  · intro x
    by_cases hx : x = r.host
    · subst hx
      rw [turn_host_self, Host.readLoop_next]
    · rw [turn_host_ne w s read rest hx]
  · intro x m hm
    by_cases hx : x = r.host
    · subst hx
      rw [turn_host_self] at hm
      rcases Host.readLoop_inbound (w.host r.host) r.peer read with ⟨-, hin⟩ | ⟨msg, -, -, hin⟩
      · rw [hin] at hm
        exact Or.inl hm
      · rw [hin, List.mem_append, List.mem_singleton] at hm
        cases hm with
        | inl hold => exact Or.inl hold
        | inr hnew =>
          subst hnew
          exact Or.inr ⟨s, hs⟩
    · rw [turn_host_ne w s read rest hx] at hm
      exact Or.inl hm

theorem close (hw : w.Registered) (h : ι) : (w.close h).Registered := by
  have hnet : ∀ x, ((w.close h).host x).net = (w.host x).net := host_update Host.net rfl
  have hin : ∀ x, ((w.close h).host x).inbound = (w.host x).inbound :=
    host_update Host.inbound rfl
  refine hw.shrink rfl (fun _ hp => hp) (host_update Host.nextPeerId rfl) ?_ ?_
  · intro x
    rw [hnet]
  · intro x m hm
    rw [hin] at hm
    exact Or.inl hm

end Registered

/-- At most one write goes to a stream. -/
theorem writes_to {writes : List (TcpStream × Bytes)} (h : (writes.map Prod.fst).Nodup)
    (s : TcpStream) : (writes.filter fun p => p.1 = s) = [] ∨
      ∃ b, (s, b) ∈ writes ∧ (writes.filter fun p => p.1 = s) = [(s, b)] := by
  induction writes with
  | nil => exact Or.inl rfl
  | cons p writes ih =>
    rw [List.map_cons, List.nodup_cons] at h
    by_cases hp : p.1 = s
    · have hrest : (writes.filter fun p => p.1 = s) = [] := by
        rw [List.filter_eq_nil_iff]
        intro q hq hqs
        rw [decide_eq_true_eq] at hqs
        apply h.1
        rw [hp, ← hqs]
        exact List.mem_map_of_mem hq
      subst hp
      refine Or.inr ⟨p.2, List.mem_cons_self, ?_⟩
      rw [List.filter_cons_of_pos (by simp), hrest]
    · rw [List.filter_cons_of_neg (by simpa using hp)]
      cases ih h.2 with
      | inl hnone => exact Or.inl hnone
      | inr hone =>
        obtain ⟨b, hb, hone⟩ := hone
        exact Or.inr ⟨b, List.mem_cons_of_mem _ hb, hone⟩

namespace Sound

theorem wrote (hw : w.Sound) {h : ι} {net : Network} {msg : NetMsg}
    {writes : List (TcpStream × Bytes)} (hnet : Wrote (w.host h).net msg net writes) :
    (w.wrote h net msg writes).Sound := by
  have hnodup : (writes.map Prod.fst).Nodup := (hw.streams h).sublist hnet.streams
  have hlinked : ∀ {s b}, (s, b) ∈ writes → ∃ p, (p, s) ∈ (w.host h).net.peers := by
    intro s b hb
    obtain ⟨⟨p, t⟩, hp, hts⟩ := List.mem_map.mp (hnet.streams.mem (List.mem_map_of_mem hb))
    simp only at hts
    exact ⟨p, hts ▸ hp⟩
  have hless : ∀ {s}, (w.wrote h net msg writes).Linked s → w.Linked s := by
    rintro s ⟨x, p, hmem⟩
    exact ⟨x, p, (wrote_peers hnet x).mem hmem⟩
  refine ⟨hw.toRegistered.wrote hnet, ?_, ?_⟩
  · intro s hs
    have hsent := hw.idle s hs
    rcases writes_to hnodup s with hnone | ⟨b, hb, -⟩
    · simp [World.wrote, hsent, hnone]
    · obtain ⟨p, hp⟩ := hlinked hb
      exact absurd hs (hw.named h p s hp).2
  · intro t
    obtain ⟨later, hflow⟩ := hw.flow t
    have hreceived : (w.wrote h net msg writes).received t = w.received t :=
      received_congr rfl (host_update Host.inbound rfl)
    rcases writes_to hnodup t.other with hnone | ⟨b, hb, hone⟩
    · have hsent : (w.wrote h net msg writes).sent t.other = w.sent t.other := by
        simp [World.wrote, hnone]
      have hwire : (w.wrote h net msg writes).wire t.other = w.wire t.other := by
        simp [World.wrote, hnone]
      refine ⟨later, ?_⟩
      rw [hreceived, hsent, hwire]
      exact hflow.mono id hless
    · obtain ⟨p, hp⟩ := hlinked hb
      obtain ⟨hframe, hpre, hwhole⟩ := hnet.bytes _ b hb
      have hkept : (w.wrote h net msg writes).Linked t.other → b = framed msg := by
        rintro ⟨x, q, hmem⟩
        have hx : x = h := by
          have hold := (hw.named x q _ ((wrote_peers hnet x).mem hmem)).1
          rw [(hw.named h p _ hp).1] at hold
          cases hold
          rfl
        subst hx
        apply hwhole
        simp only [World.wrote, Function.update_self] at hmem
        exact List.mem_map_of_mem hmem
      have hsent : (w.wrote h net msg writes).sent t.other = w.sent t.other ++ [msg] := by
        simp [World.wrote, hone]
      have hwire : (w.wrote h net msg writes).wire t.other = w.wire t.other ++ b := by
        simp [World.wrote, hone]
      refine ⟨later ++ [msg], ?_⟩
      rw [hreceived, hsent, hwire]
      exact hflow.write ⟨h, p, hp⟩ hframe hpre hkept

theorem take (hw : w.Sound) (h : ι) (hs : w.reader s = none) : (w.take h s).Sound := by
  refine ⟨hw.toRegistered.take h hs, hw.idle, ?_⟩
  intro t
  obtain ⟨later, hflow⟩ := hw.flow t
  have hin : ∀ x, ((w.take h s).host x).inbound = (w.host x).inbound :=
    host_update Host.inbound rfl
  have hnet : ∀ x, ((w.take h s).host x).net = (w.host x).net := host_update Host.net rfl
  have hreceived : (w.take h s).received t = w.received t := by
    by_cases hts : t = s
    · subst hts
      rw [received_none hs, received_some (take_reader_self w h t), List.map_eq_nil_iff,
        List.filter_eq_nil_iff]
      intro m hm hpeer
      rw [decide_eq_true_eq] at hpeer
      rw [hin] at hm
      obtain ⟨u, hu⟩ := hw.origin h m hm
      exact absurd (hw.fresh u _ hu) (by simp [hpeer])
    · exact received_congr (take_reader_ne w h hts) hin
  refine ⟨later, ?_⟩
  rw [hreceived]
  apply hflow.mono id
  rintro ⟨x, p, hmem⟩
  rw [hnet] at hmem
  exact ⟨x, p, hmem⟩

theorem push (hw : w.Sound) (hs : w.reader s = some r) (hp : w.phase s = .opened) :
    (w.push s r).Sound := by
  have hphase : ∀ t, t ≠ s → (w.push s r).phase t = w.phase t := by
    intro t hts
    simp [World.push, hts]
  have hself : (w.push s r).phase s = .running := by simp [World.push]
  refine ⟨hw.toRegistered.push hs hp, ?_, ?_⟩
  · intro t ht
    by_cases hts : t = s
    · rw [hts, hself] at ht
      cases ht
    · rw [hphase t hts] at ht
      exact hw.idle t ht
  · intro t
    obtain ⟨later, hflow⟩ := hw.flow t
    have hreceived : (w.push s r).received t = w.received t :=
      received_congr rfl (host_update Host.inbound rfl)
    have hlistening : (w.push s r).Listening t → w.Listening t := by
      intro ht
      by_cases hts : t = s
      · rw [Listening, hts, hp]
        simp
      · rwa [Listening, hphase t hts] at ht
    refine ⟨later, ?_⟩
    rw [hreceived]
    by_cases hother : t.other = s
    · -- Nothing was written before the end was among the peers.
      have hnil := hw.idle s hp
      have hsplit := hflow.split
      rw [hother, hnil] at hsplit
      obtain ⟨-, rfl⟩ := List.append_eq_nil_iff.mp hsplit.symm
      refine ⟨hflow.split, hflow.framed, hflow.small, fun ht => hflow.ahead (hlistening ht), ?_⟩
      intro ht _
      exact List.prefix_nil.mp (hflow.ahead (hlistening ht))
    · apply hflow.mono hlistening
      rintro ⟨x, p, hmem⟩
      rw [push_peers, List.mem_append] at hmem
      cases hmem with
      | inl hold => exact ⟨x, p, hold⟩
      | inr hnew =>
        split at hnew
        · cases List.mem_singleton.mp hnew
          exact absurd rfl hother
        · cases hnew

theorem close (hw : w.Sound) (h : ι) : (w.close h).Sound := by
  refine ⟨hw.toRegistered.close h, hw.idle, ?_⟩
  intro t
  obtain ⟨later, hflow⟩ := hw.flow t
  have hnet : ∀ x, ((w.close h).host x).net = (w.host x).net := host_update Host.net rfl
  have hreceived : (w.close h).received t = w.received t :=
    received_congr rfl (host_update Host.inbound rfl)
  refine ⟨later, ?_⟩
  rw [hreceived]
  apply hflow.mono id
  rintro ⟨x, p, hmem⟩
  rw [hnet] at hmem
  exact ⟨x, p, hmem⟩

theorem turn_received_ne (hw : w.Sound) (hs : w.reader s = some r) (hts : t ≠ s)
    (read : Except String NetMsg) (rest : Bytes) :
    (w.turn s r read rest).received t = w.received t := by
  cases ht : w.reader t with
  | none =>
    have ht' : (w.turn s r read rest).reader t = none := ht
    rw [received_none ht, received_none ht']
  | some q =>
    have ht' : (w.turn s r read rest).reader t = some q := ht
    rw [received_some ht, received_some ht']
    by_cases hhost : q.host = r.host
    · rw [hhost, turn_host_self]
      have hpeer : r.peer ≠ q.peer := by
        intro hpeer
        apply hts
        have hqr : q = r := by
          cases q
          cases r
          simp_all
        exact hw.apart t s q ht (hqr ▸ hs)
      rcases Host.readLoop_inbound (w.host r.host) r.peer read with ⟨-, hin⟩ | ⟨msg, -, -, hin⟩
      · rw [hin]
      · rw [hin, List.filter_append, List.filter_cons_of_neg (by simpa using hpeer),
          List.filter_nil, List.append_nil]
    · rw [turn_host_ne w s read rest hhost]

theorem turn (hw : w.Sound) (hs : w.reader s = some r) (hp : w.phase s = .running)
    {read : Except String NetMsg} {rest : Bytes}
    (hread : ∀ msg, read = .ok msg → readFrame (w.wire s.other) = .ok (msg, rest)) :
    (w.turn s r read rest).Sound := by
  have hless : ∀ {t}, (w.turn s r read rest).Linked t → w.Linked t := by
    rintro t ⟨x, p, hmem⟩
    exact ⟨x, p, (turn_peers w s r read rest x).mem hmem⟩
  refine ⟨hw.toRegistered.turn hs read rest, ?_, ?_⟩
  · intro t ht
    by_cases hts : t = s
    · subst hts
      simp only [World.turn, Function.update_self] at ht
      split at ht <;> cases ht
    · rw [turn_phase_ne w r read rest hts] at ht
      exact hw.idle t ht
  · intro t
    obtain ⟨later, hflow⟩ := hw.flow t
    by_cases hts : t = s
    · subst hts
      have hwire : (w.turn t r read rest).wire t.other = rest := by simp [World.turn]
      have hself : (w.turn t r read rest).reader t = some r := hs
      rw [hwire, received_some hself, turn_host_self]
      rcases Host.readLoop_inbound (w.host r.host) r.peer read with ⟨hlast, hin⟩ |
        ⟨msg, rfl, -, hin⟩
      · have hdone : ¬(w.turn t r read rest).Listening t := by
          simp [Listening, World.turn, hlast]
        rw [hin, ← received_some hs]
        exact ⟨later, hflow.stop hdone⟩
      · have hlistening : w.Listening t := by
          rw [Listening, hp]
          simp
        obtain ⟨later', -, hnext⟩ := hflow.read hlistening (hread msg rfl)
        rw [hin, List.filter_append, List.map_append, ← received_some hs,
          List.filter_cons_of_pos (by simp)]
        exact ⟨later', hnext.mono (fun _ => hlistening) hless⟩
    · have hwire : (w.turn s r read rest).wire t.other = w.wire t.other := by
        have hother : t.other ≠ s.other := by
          intro hother
          rw [← t.other_other, hother, s.other_other] at hts
          exact hts rfl
        simp [World.turn, hother]
      refine ⟨later, ?_⟩
      rw [hwire, hw.turn_received_ne hs hts]
      apply hflow.mono _ hless
      intro ht
      rwa [Listening, turn_phase_ne w r read rest hts] at ht

theorem step (hw : w.Sound) (h : Step w w') : w'.Sound := by
  cases h with
  | take h hs => exact hw.take h hs
  | push hs hp => exact hw.push hs hp
  | broadcast h msg fault => exact hw.wrote (Network.broadcast_wrote _ msg fault)
  | sendTo h peer msg fault => exact hw.wrote (Network.sendTo_wrote (hw.streams h) peer msg fault)
  | read hs hp hread =>
    apply hw.turn hs hp
    intro msg hmsg
    cases hmsg
    exact hread
  | fail e rest hs hp =>
    apply hw.turn hs hp
    intro msg hmsg
    cases hmsg
  | close h => exact hw.close h

theorem run (hw : w.Sound) (h : Run w w') : w'.Sound := by
  induction h with
  | refl => exact hw
  | tail _ hstep ih => exact ih.step hstep

/-- A thread that reads on receives the rest. -/
theorem receives (hw : w.Sound) (hs : w.reader s = some r) (hp : w.phase s = .running)
    (hconsumer : (w.host r.host).consumer = true) (hlinked : w.Linked s.other) :
    ∃ w', Run w w' ∧ w'.sent = w.sent ∧
      w'.received s = (w.sent s.other).takeWhile Small := by
  obtain ⟨later, hflow⟩ := hw.flow s
  induction later generalizing w with
  | nil =>
    refine ⟨w, .refl, rfl, ?_⟩
    rw [hflow.takeWhile, List.takeWhile_nil, List.append_nil]
  | cons msg later ih =>
    by_cases hsmall : Small msg
    · have hlistening : w.Listening s := by
        rw [Listening, hp]
        simp
      have hread : readFrame (w.wire s.other) = .ok (msg, allFramed later) := by
        rw [hflow.whole hlistening hlinked]
        apply readFrame_frame _ hsmall
        apply hflow.framed
        rw [hflow.split]
        exact List.mem_append_right _ List.mem_cons_self
      have hturn : (w.host r.host).readLoop r.peer (.ok msg) =
          ({ w.host r.host with inbound := (w.host r.host).inbound ++ [⟨r.peer, msg⟩] }, true) :=
        if_pos hconsumer
      have hstep : Step w (w.turn s r (.ok msg) (allFramed later)) := .read hs hp hread
      have hphase : (w.turn s r (.ok msg) (allFramed later)).phase s = .running := by
        simp [World.turn, hturn]
      have hstays : ((w.turn s r (.ok msg) (allFramed later)).host r.host).consumer = true := by
        rw [turn_host_self, hturn]
        exact hconsumer
      have hnet : ∀ x, ((w.turn s r (.ok msg) (allFramed later)).host x).net = (w.host x).net := by
        apply host_update Host.net
        rw [hturn]
      have hkept : (w.turn s r (.ok msg) (allFramed later)).Linked s.other := by
        obtain ⟨x, p, hmem⟩ := hlinked
        exact ⟨x, p, by rwa [hnet]⟩
      have hreceived : (w.turn s r (.ok msg) (allFramed later)).received s =
          w.received s ++ [msg] := by
        have hself : (w.turn s r (.ok msg) (allFramed later)).reader s = some r := hs
        rw [received_some hself, received_some hs, turn_host_self, hturn]
        simp
      have hnext := hw.step hstep
      obtain ⟨later', hflow'⟩ := hnext.flow s
      have hlater : later' = later := by
        have hsplit := hflow'.split
        rw [hreceived, List.append_assoc] at hsplit
        have hsame := List.append_cancel_left (hflow.split.symm.trans hsplit)
        exact (List.cons.inj hsame).2.symm
      subst hlater
      obtain ⟨w', hrun, hsent, hall⟩ := ih hnext hs hphase hstays hkept hflow'
      exact ⟨w', hrun.head hstep, hsent, hall⟩
    · refine ⟨w, .refl, rfl, ?_⟩
      rw [hflow.takeWhile, List.takeWhile_cons_of_neg (by simpa using hsmall), List.append_nil]

end Sound

/-- Whatever the hosts, the readers and the network do and in which order, a host has received
from a connection what the other end sent, in the order it was sent, without a loss or a copy,
up to the first message above the limit; while both ends are up it gets all of that. -/
theorem received_exact (hrun : Run start w) (s : TcpStream) :
    w.received s <+: (w.sent s.other).takeWhile Small ∧
      ∀ r, w.reader s = some r → w.phase s = .running → (w.host r.host).consumer = true →
        w.Linked s.other → ∃ w', Run w w' ∧ w'.sent = w.sent ∧
          w'.received s = (w.sent s.other).takeWhile Small := by
  have hw := start_sound.run hrun
  refine ⟨hw.received_prefix s, ?_⟩
  intro r hs hp hconsumer hlinked
  exact hw.receives hs hp hconsumer hlinked

/-- Two nodes are connected, and the one that dialed asks for tips. -/
theorem tips_asked : ∃ w : World Bool, Run start w ∧
    w.reader ⟨0, false⟩ = some ⟨true, 0⟩ ∧ w.phase ⟨0, false⟩ = .running ∧
      w.host true = ⟨⟨[(0, ⟨0, false⟩)]⟩, 1, [], true⟩ ∧ w.Linked ⟨0, true⟩ ∧
        w.sent ⟨0, true⟩ = [.getTips] ∧ w.wire ⟨0, true⟩ = framed .getTips := by
  have hopened : Run (start : World Bool)
      ((((start.take false ⟨0, true⟩).push ⟨0, true⟩ ⟨false, 0⟩).take true ⟨0, false⟩).push
        ⟨0, false⟩ ⟨true, 0⟩) :=
    .tail (.tail (.tail (.tail .refl (.take false rfl)) (.push rfl rfl)) (.take true rfl))
      (.push rfl rfl)
  exact ⟨_, hopened.tail (.broadcast false .getTips fun _ => none), rfl, rfl, rfl,
    ⟨false, 0, List.mem_singleton.mpr rfl⟩, rfl, rfl⟩

theorem received_exact_tips : ∃ w w' : World Bool, Run start w ∧ Run w w' ∧
    w.received ⟨0, false⟩ = [] ∧ w'.received ⟨0, false⟩ = [.getTips] := by
  obtain ⟨w, hrun, hs, hp, hhost, hlinked, hsent, -⟩ := tips_asked
  have hconsumer : (w.host true).consumer = true := by rw [hhost]
  obtain ⟨w', hrest, -, hall⟩ :=
    (received_exact hrun ⟨0, false⟩).2 ⟨true, 0⟩ hs hp hconsumer hlinked
  refine ⟨w, w', hrun, hrest, ?_, ?_⟩
  · rw [received_some hs, hhost]
    rfl
  · change _ = (w.sent ⟨0, true⟩).takeWhile Small at hall
    rw [hall, hsent]
    rfl

end World

end TaoDag.P2p
