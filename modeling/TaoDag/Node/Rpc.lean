import TaoDag.Framework.Decoding
import TaoDag.Framework.Json
import TaoDag.Framework.TextCodec
import TaoDag.Node.Shared
import Mathlib.Logic.Relation

namespace TaoDag.Node

open Consensus (Pubkey)
open Database (Account)
open TaoDag.Runtime (Env)

variable {Tx : Type}

/-- What the RPC server has from its libraries: the transactions, the texts of the errors of the
base58 and base64 readers, rent exemption, and the transfers that a faucet secret signs. -/
structure RpcEnv (Tx : Type) where
  txs : Env Tx
  signature : Tx → Option Signature
  base58Error : String → String
  base64Error : String → String
  minimumBalance : BitVec 64 → BitVec 64
  faucetTransfer : BitVec 512 → Except String (Pubkey → BitVec 64 → Hash → Tx)

/-- What the RPC server serves: the shared state of the node, with the account store it points
to, and the transactions that it has relayed to the network. -/
structure RpcServer (Tx : Type) where
  shared : Shared Tx
  accounts : Pubkey → Except String (Option Account)
  genesisHash : Hash
  faucet : Option (BitVec 512)
  networked : Bool
  relayed : List Bytes

/-- The code and the message of an error. -/
abbrev RpcError := Int × String

namespace Rpc

def invalidParams : Int := -32602

def methodNotFound : Int := -32601

def internalError : Int := -32603

def pubkeyText (key : Bytes32) : String := base58.encode (beBytes 32 key.toNat)

def signatureText (sig : Signature) : String := base58.encode (leBytes 64 sig.toNat)

def parseSignature (s : String) : Option Signature :=
  (base58.decode s).bind fun bytes =>
    if bytes.length = 64 then some (BitVec.ofNat 512 (ofLE bytes)) else none

def context (slot : BitVec 64) : Json :=
  .object [("slot", .u64 slot), ("apiVersion", .string "2.0.0")]

def paramStr (params : Json) (i : Nat) : Except RpcError String :=
  match (params.item i).bind Json.asStr with
  | some s => .ok s
  | none => .error (invalidParams, "expected string param at " ++ toString i)

def parsePubkey (s : String) : Except RpcError Pubkey :=
  match base58.decode s with
  | none => .error (invalidParams, "invalid base58 pubkey")
  | some bytes =>
      if bytes.length = 32 then .ok (BitVec.ofNat 256 (ofBE bytes))
      else .error (invalidParams, "pubkey must be 32 bytes")

section Methods

variable (env : RpcEnv Tx) (s : RpcServer Tx) (params : Json)

/-- A read of the account store. -/
def account (key : Pubkey) : Except RpcError (Option Account) :=
  match s.accounts key with
  | .ok account => .ok account
  | .error e => .error (internalError, e)

def getBalance : Except RpcError Json := do
  let pubkey ← parsePubkey (← paramStr params 0)
  let lamports := ((← account s pubkey).map (·.lamports)).getD 0
  return .object [("context", context s.shared.slot), ("value", .u64 lamports)]

def accountJson (acct : Account) : Json :=
  .object [("lamports", .u64 acct.lamports), ("owner", .string (pubkeyText acct.owner)),
    ("data", .array [.string (base64.encode acct.data), .string "base64"]),
    ("executable", .bool acct.executable), ("rentEpoch", .u64 acct.rentEpoch),
    ("space", .u64 (BitVec.ofNat 64 acct.data.length))]

def getAccountInfo : Except RpcError Json := do
  let pubkey ← parsePubkey (← paramStr params 0)
  let value := match ← account s pubkey with
    | some acct => accountJson acct
    | none => .null
  return .object [("context", context s.shared.slot), ("value", value)]

/-- The status of a signature, or `null` for what is no signature or is not confirmed. -/
def statusJson (sig : Json) : Json :=
  match (sig.asStr.bind parseSignature).bind s.shared.signatureStatus with
  | some result =>
      .object [("slot", .u64 s.shared.slot), ("confirmations", .null),
        ("err", (result.map Json.string).getD .null), ("confirmationStatus", .string "finalized")]
  | none => .null

def getSignatureStatuses : Except RpcError Json :=
  match (params.item 0).bind Json.asArray with
  | none => .error (invalidParams, "expected array of signatures")
  | some sigs =>
      .ok (.object [("context", context s.shared.slot),
        ("value", .array (sigs.map (statusJson s)))])

/-- The bytes of a submitted transaction, in base58 unless the request says base64. -/
def rawTransaction (encoded encoding : String) : Except RpcError Bytes :=
  if encoding = "base64" then
    match base64.decode encoded with
    | some raw => .ok raw
    | none => .error (invalidParams, "base64: " ++ env.base64Error encoded)
  else
    match base58.decode encoded with
    | some raw => .ok raw
    | none => .error (invalidParams, "base58: " ++ env.base58Error encoded)

/-- A transaction to be queued, and its bytes to be relayed. -/
structure Submission (Tx : Type) where
  tx : Tx
  raw : Bytes
  sig : Signature

def sendTransaction : Except RpcError (Submission Tx) := do
  let encoded ← paramStr params 0
  let encoding := (((params.item 1).bind (Json.get "encoding")).bind Json.asStr).getD "base58"
  let raw ← rawTransaction env encoded encoding
  match env.txs.decodeTx raw with
  | .error e => throw (invalidParams, "decode transaction: " ++ e)
  | .ok tx =>
      match env.signature tx with
      | none => throw (invalidParams, "transaction has no signature")
      | some sig => return ⟨tx, raw, sig⟩

def requestAirdrop : Except RpcError (Submission Tx) := do
  let target ← parsePubkey (← paramStr params 0)
  match (params.item 1).bind Json.asU64 with
  | none => throw (invalidParams, "expected lamports param at 1")
  | some lamports =>
      match s.faucet with
      | none => throw (invalidParams, "faucet not enabled on this node")
      | some secret =>
          match env.faucetTransfer secret with
          | .error e => throw (internalError, "bad faucet key: " ++ e)
          | .ok transfer =>
              let tx := transfer target lamports s.shared.latestBlockhash
              match env.signature tx with
              | none => throw (internalError, "faucet tx has no signature")
              | some sig =>
                  match env.txs.encodeTx tx with
                  | .error e => throw (internalError, e)
                  | .ok raw => return ⟨tx, raw, sig⟩

/-- The methods that only read. -/
def answer (method : String) : Result (Except RpcError Json) :=
  let slot := s.shared.slot
  match method with
  | "getHealth" => return .ok (.string "ok")
  | "getVersion" =>
      return .ok (.object [("solana-core", .string "2.0.0-tao"), ("feature-set", .u64 0)])
  | "getSlot" => return .ok (.u64 slot)
  | "getBlockHeight" => return .ok (.u64 slot)
  | "getGenesisHash" => return .ok (.string (pubkeyText s.genesisHash))
  | "getEpochInfo" =>
      return .ok (.object [("absoluteSlot", .u64 slot), ("blockHeight", .u64 slot),
        ("epoch", .u64 0), ("slotIndex", .u64 slot), ("slotsInEpoch", .u64 432000),
        ("transactionCount", .u64 slot)])
  | "getLatestBlockhash" => do
      let last ← addU64 slot.toNat 150
      return .ok (.object [("context", context slot),
        ("value", .object [("blockhash", .string (pubkeyText s.shared.latestBlockhash)),
          ("lastValidBlockHeight", .u64 (BitVec.ofNat 64 last))])])
  | "getMinimumBalanceForRentExemption" =>
      return .ok (.u64 (env.minimumBalance (((params.item 0).bind Json.asU64).getD 0)))
  | "getFeeForMessage" =>
      return .ok (.object [("context", context slot), ("value", .u64 5000)])
  | "getBalance" => return getBalance s params
  | "getAccountInfo" => return getAccountInfo s params
  | "getSignatureStatuses" => return getSignatureStatuses s params
  | other => return .error (methodNotFound, "method not found: " ++ other)

end Methods

end Rpc

namespace RpcServer

open Rpc (Submission answer)

variable (env : RpcEnv Tx)

/-- Relays a transaction to the peers, when there is a network. -/
def gossipTx (s : RpcServer Tx) (raw : Bytes) : RpcServer Tx :=
  if s.networked then { s with relayed := s.relayed ++ [raw] } else s

/-- Queues a transaction and relays its bytes. -/
def enqueue (s : RpcServer Tx) (sub : Submission Tx) : Result (RpcServer Tx) := do
  let shared ← s.shared.submit env.signature sub.tx
  return { s with shared }.gossipTx sub.raw

/-- Answers with the signature of a transaction once it is queued. -/
def accept (s : RpcServer Tx) (r : Except RpcError (Submission Tx)) :
    Result (Except RpcError Json × RpcServer Tx) :=
  match r with
  | .error e => return (.error e, s)
  | .ok sub => do return (.ok (.string (Rpc.signatureText sub.sig)), ← s.enqueue env sub)

def dispatch (s : RpcServer Tx) (method : String) (params : Json) :
    Result (Except RpcError Json × RpcServer Tx) :=
  match method with
  | "sendTransaction" => s.accept env (Rpc.sendTransaction env params)
  | "requestAirdrop" => s.accept env (Rpc.requestAirdrop env s params)
  | other => do return (← answer env s params other, s)

end RpcServer

namespace Rpc

/-- The response to a request. -/
def response (id : Json) : Except RpcError Json → Json
  | .ok result => .object [("jsonrpc", .string "2.0"), ("id", id), ("result", result)]
  | .error (code, message) =>
      .object [("jsonrpc", .string "2.0"), ("id", id),
        ("error", .object [("code", .number (.negative code)), ("message", .string message)])]

def requestId (req : Json) : Json := (req.get "id").getD .null

def requestMethod (req : Json) : String := ((req.get "method").bind Json.asStr).getD ""

def requestParams (req : Json) : Json := (req.get "params").getD .null

end Rpc

namespace RpcServer

variable (env : RpcEnv Tx)

def handleOne (s : RpcServer Tx) (req : Json) : Result (Json × RpcServer Tx) := do
  let (r, s) ← s.dispatch env (Rpc.requestMethod req) (Rpc.requestParams req)
  return (Rpc.response (Rpc.requestId req) r, s)

/-- The requests of a batch, one after the other. -/
def handleAll : RpcServer Tx → List Json → Result (List Json × RpcServer Tx)
  | s, [] => return ([], s)
  | s, req :: batch => do
      let (resp, s) ← s.handleOne env req
      let (rest, s) ← handleAll s batch
      return (resp :: rest, s)

def handle (s : RpcServer Tx) (body : Json) : Result (Json × RpcServer Tx) :=
  match body.asArray with
  | some batch => do
      let (responses, s) ← s.handleAll env batch
      return (.array responses, s)
  | none => s.handleOne env body

end RpcServer

namespace Rpc

variable (env : RpcEnv Tx) (s : RpcServer Tx)

/-- What a request queues. -/
def submission (method : String) (params : Json) : Option (Submission Tx) :=
  match method with
  | "sendTransaction" => (sendTransaction env params).toOption
  | "requestAirdrop" => (requestAirdrop env s params).toOption
  | _ => none

/-- What a request is answered, which does not depend on the queue. -/
def outcome (method : String) (params : Json) : Result (Except RpcError Json) :=
  match method with
  | "sendTransaction" =>
      return (sendTransaction env params).map fun sub => .string (signatureText sub.sig)
  | "requestAirdrop" =>
      return (requestAirdrop env s params).map fun sub => .string (signatureText sub.sig)
  | other => answer env s params other

/-- What the requests of a batch queue. -/
def submissions (batch : List Json) : List (Submission Tx) :=
  batch.filterMap fun req => submission env s (requestMethod req) (requestParams req)

variable {env s}

theorem answer_total (hslot : s.shared.slot.toNat + 150 ≤ u64Max) (params : Json)
    (method : String) : ∃ r, answer env s params method = .ok r := by
  simp only [answer]
  split
  all_goals first
    | exact ⟨_, rfl⟩
    | exact ⟨_, by rw [addU64, addUpTo, if_pos hslot]; rfl⟩

theorem outcome_total (hslot : s.shared.slot.toNat + 150 ≤ u64Max) (method : String)
    (params : Json) : ∃ r, outcome env s method params = .ok r := by
  simp only [outcome]
  split
  · exact ⟨_, rfl⟩
  · exact ⟨_, rfl⟩
  · exact answer_total hslot params _

/-- Text that stands for 32 bytes is the text of a key. -/
theorem eq_pubkeyText {s : String} {bytes : Bytes} (h : base58.decode s = some bytes)
    (hlen : bytes.length = 32) : s = pubkeyText (BitVec.ofNat 256 (ofBE bytes)) := by
  have hlt : ofBE bytes < 2^256 := by
    have hbound := Codec.ofLE_lt bytes.reverse
    rwa [List.length_reverse, hlen] at hbound
  have hbytes : beBytes 32 (ofBE bytes) = bytes := by
    have hreverse := Codec.leBytes_ofLE bytes.reverse
    rw [List.length_reverse, hlen] at hreverse
    rw [beBytes, ofBE, hreverse, List.reverse_reverse]
  rw [pubkeyText, BitVec.toNat_ofNat, Nat.mod_eq_of_lt hlt, hbytes]
  exact ((base58.decode_eq_some s bytes).mp h).symm

theorem decode_pubkeyText (key : Bytes32) :
    base58.decode (pubkeyText key) = some (beBytes 32 key.toNat) := base58.decode_encode _

theorem parsePubkey_eq_ok {s : String} {key : Pubkey} :
    parsePubkey s = .ok key ↔ s = pubkeyText key := by
  constructor
  · intro h
    rw [parsePubkey] at h
    split at h
    · cases h
    · rename_i bytes hdecode
      split at h
      · rename_i hlen
        cases h
        exact eq_pubkeyText hdecode hlen
      · cases h
  · intro h
    subst h
    have hlt : key.toNat < 256^32 := key.isLt
    simp [parsePubkey, decode_pubkeyText, ofBE_beBytes_of_lt hlt]

theorem get_id_response (id : Json) (r : Except RpcError Json) :
    (response id r).get "id" = some id := by
  cases r with
  | ok result => simp [response]
  | error e => simp [response]

end Rpc

namespace RpcServer

open Rpc (Submission submission submissions outcome)

variable {env : RpcEnv Tx}

/-- The server with another queue and other relayed transactions. -/
def withQueue (s : RpcServer Tx) (mempool : Mempool Tx) (relayed : List Bytes) : RpcServer Tx :=
  { s with shared := { s.shared with mempool }, relayed }

/-- What is relayed after some more transactions. -/
def relay (s : RpcServer Tx) (relayed raws : List Bytes) : List Bytes :=
  if s.networked then relayed ++ raws else relayed

variable {s : RpcServer Tx} {mempool mempool' : Mempool Tx} {relayed : List Bytes}

theorem gossipTx_withQueue (mempool : Mempool Tx) (relayed : List Bytes) (raw : Bytes) :
    (s.withQueue mempool relayed).gossipTx raw =
      s.withQueue mempool (s.relay relayed [raw]) := by
  by_cases hnet : s.networked = true
  · simp [gossipTx, withQueue, relay, hnet]
  · simp [gossipTx, withQueue, relay, hnet]

theorem enqueue_withQueue (relayed : List Bytes) {sub : Submission Tx} {added : Bool}
    (h : mempool.submit env.signature sub.tx = .ok (added, mempool')) :
    (s.withQueue mempool relayed).enqueue env sub =
      .ok (s.withQueue mempool' (s.relay relayed [sub.raw])) := by
  rw [← gossipTx_withQueue]
  simp only [enqueue, withQueue, Shared.submit, h]
  rfl

/-- A request is answered from what the queue does not touch, and queues what it submits. -/
theorem dispatch_withQueue (env : RpcEnv Tx) (s : RpcServer Tx) (mempool : Mempool Tx)
    (relayed : List Bytes) (method : String) (params : Json) :
    (s.withQueue mempool relayed).dispatch env method params = do
      let r ← outcome env s method params
      let s' ← match submission env s method params with
        | none => pure (s.withQueue mempool relayed)
        | some sub => (s.withQueue mempool relayed).enqueue env sub
      return (r, s') := by
  simp only [dispatch, outcome, submission]
  split
  · cases Rpc.sendTransaction env params with
    | error e => rfl
    | ok sub => rfl
  · rw [show Rpc.requestAirdrop env (s.withQueue mempool relayed) params =
      Rpc.requestAirdrop env s params from rfl]
    cases Rpc.requestAirdrop env s params with
    | error e => rfl
    | ok sub => rfl
  · rfl

/-- A response that a request gets, whatever the queue. -/
def Answered (env : RpcEnv Tx) (s : RpcServer Tx) (req resp : Json) : Prop :=
  ∃ r, outcome env s (Rpc.requestMethod req) (Rpc.requestParams req) = .ok r ∧
    resp = Rpc.response (Rpc.requestId req) r

/-- The pool after submissions. -/
def submitAll (env : RpcEnv Tx) (mempool : Mempool Tx) (subs : List (Submission Tx)) :
    Result (Mempool Tx) :=
  subs.foldlM (fun m sub => do return (← m.submit env.signature sub.tx).2) mempool

/-- What some requests make of the queue: each is answered, and what they submit is queued and
relayed in their order. -/
structure Serves (env : RpcEnv Tx) (s : RpcServer Tx) (mempool : Mempool Tx) (batch : List Json)
    (responses : List Json) (mempool' : Mempool Tx) : Prop where
  answered : List.Forall₂ (Answered env s) batch responses
  queued : submitAll env mempool (submissions env s batch) = .ok mempool'
  sound : Mempool.Sound env.signature mempool'
  size : mempool'.maxSize = mempool.maxSize

theorem handleOne_withQueue (relayed : List Bytes) (hpool : Mempool.Sound env.signature mempool)
    (hplace : 0 < mempool.maxSize) (hslot : s.shared.slot.toNat + 150 ≤ u64Max) (req : Json) :
    ∃ resp mempool', Serves env s mempool [req] [resp] mempool' ∧
      (s.withQueue mempool relayed).handleOne env req =
        .ok (resp, s.withQueue mempool'
          (s.relay relayed ((submissions env s [req]).map (·.raw)))) := by
  obtain ⟨r, hr⟩ := Rpc.outcome_total hslot (Rpc.requestMethod req) (Rpc.requestParams req)
  have hanswered : List.Forall₂ (Answered env s) [req] [Rpc.response (Rpc.requestId req) r] :=
    List.Forall₂.cons ⟨r, hr, rfl⟩ List.Forall₂.nil
  have hrun := dispatch_withQueue env s mempool relayed (Rpc.requestMethod req)
    (Rpc.requestParams req)
  rw [hr] at hrun
  refine ⟨Rpc.response (Rpc.requestId req) r, ?_⟩
  cases hsub : submission env s (Rpc.requestMethod req) (Rpc.requestParams req) with
  | none =>
    have hnone : submissions env s [req] = [] := by simp [submissions, hsub]
    simp only [hsub] at hrun
    refine ⟨mempool, ⟨hanswered, by rw [hnone]; rfl, hpool, rfl⟩, ?_⟩
    rw [hnone]
    simp only [handleOne, hrun, relay, List.map_nil, List.append_nil, ite_self]
    rfl
  | some sub =>
    have hone : submissions env s [req] = [sub] := by simp [submissions, hsub]
    obtain ⟨added, mempool', hsubmit, hpool', hsize⟩ := hpool.submit hplace sub.tx
    simp only [hsub, enqueue_withQueue relayed hsubmit] at hrun
    refine ⟨mempool', ⟨hanswered, ?_, hpool', hsize⟩, ?_⟩
    · rw [hone]
      simp only [submitAll, List.foldlM_cons, List.foldlM_nil, hsubmit]
      rfl
    · rw [hone]
      simp only [handleOne, hrun]
      rfl

theorem relay_relay (relayed raws raws' : List Bytes) :
    s.relay (s.relay relayed raws) raws' = s.relay relayed (raws ++ raws') := by
  by_cases hnet : s.networked = true
  · simp [relay, hnet]
  · simp [relay, hnet]

/-- What the shared state goes through when transactions are submitted. -/
abbrev Submits (env : RpcEnv Tx) : Shared Tx → Shared Tx → Prop :=
  Relation.ReflTransGen fun shared shared' => ∃ tx, shared.submit env.signature tx = .ok shared'

theorem dispatch_submits {s s' : RpcServer Tx} {method : String} {params : Json}
    {r : Except RpcError Json} (run : s.dispatch env method params = .ok (r, s')) :
    Submits env s.shared s'.shared := by
  rw [show s = s.withQueue s.shared.mempool s.relayed from rfl, dispatch_withQueue] at run
  obtain ⟨out, _, run⟩ := bind_eq_ok.mp run
  cases hsub : submission env s method params with
  | none =>
    simp only [hsub] at run
    cases run
    exact Relation.ReflTransGen.refl
  | some sub =>
    simp only [hsub] at run
    obtain ⟨after, henqueue, run⟩ := bind_eq_ok.mp run
    cases run
    obtain ⟨shared, hsubmit, henqueue⟩ := bind_eq_ok.mp henqueue
    cases henqueue
    apply Relation.ReflTransGen.single
    refine ⟨sub.tx, hsubmit.trans ?_⟩
    by_cases hnet : s.networked = true
    · simp [gossipTx, withQueue, hnet]
    · simp [gossipTx, withQueue, hnet]

theorem handleOne_submits {s s' : RpcServer Tx} {req resp : Json}
    (run : s.handleOne env req = .ok (resp, s')) : Submits env s.shared s'.shared := by
  obtain ⟨⟨r, after⟩, hdispatch, run⟩ := bind_eq_ok.mp run
  cases run
  exact dispatch_submits hdispatch

theorem handleAll_submits {s s' : RpcServer Tx} {batch responses : List Json}
    (run : s.handleAll env batch = .ok (responses, s')) : Submits env s.shared s'.shared := by
  induction batch generalizing s responses with
  | nil =>
    cases run
    exact Relation.ReflTransGen.refl
  | cons req batch ih =>
    obtain ⟨⟨resp, mid⟩, hone, run⟩ := bind_eq_ok.mp run
    obtain ⟨⟨rest, after⟩, hall, run⟩ := bind_eq_ok.mp run
    cases run
    exact (handleOne_submits hone).trans (ih hall)

/-- RPC changes nothing of the shared state but submits transactions. -/
theorem handle_submits {s s' : RpcServer Tx} {body resp : Json}
    (run : s.handle env body = .ok (resp, s')) : Submits env s.shared s'.shared := by
  rw [handle] at run
  cases hbody : body.asArray with
  | none =>
    simp only [hbody] at run
    exact handleOne_submits run
  | some batch =>
    simp only [hbody] at run
    obtain ⟨⟨responses, after⟩, hall, run⟩ := bind_eq_ok.mp run
    cases run
    exact handleAll_submits hall

/-- Every request of a batch is answered from the state before the batch. -/
theorem handleAll_withQueue (relayed : List Bytes) (hpool : Mempool.Sound env.signature mempool)
    (hplace : 0 < mempool.maxSize) (hslot : s.shared.slot.toNat + 150 ≤ u64Max)
    (batch : List Json) :
    ∃ responses mempool', Serves env s mempool batch responses mempool' ∧
      (s.withQueue mempool relayed).handleAll env batch =
        .ok (responses, s.withQueue mempool'
          (s.relay relayed ((submissions env s batch).map (·.raw)))) := by
  induction batch generalizing mempool relayed with
  | nil =>
    refine ⟨[], mempool, ⟨List.Forall₂.nil, rfl, hpool, rfl⟩, ?_⟩
    simp only [handleAll, submissions, List.filterMap_nil, List.map_nil, relay, List.append_nil,
      ite_self]
    rfl
  | cons req batch ih =>
    obtain ⟨resp, mid, hserves, hone⟩ := handleOne_withQueue relayed hpool hplace hslot req
    obtain ⟨responses, mempool', hrest, hall⟩ :=
      ih (s.relay relayed ((submissions env s [req]).map (·.raw))) hserves.sound
        (hserves.size ▸ hplace)
    have hsplit : submissions env s (req :: batch) =
        submissions env s [req] ++ submissions env s batch :=
      List.filterMap_append (l := [req])
    refine ⟨resp :: responses, mempool', ⟨?_, ?_, hrest.sound, ?_⟩, ?_⟩
    · exact List.rel_append (R := Answered env s) hserves.answered hrest.answered
    · rw [hsplit, submitAll, List.foldlM_append]
      exact bind_eq_ok.mpr ⟨mid, hserves.queued, hrest.queued⟩
    · rw [hrest.size, hserves.size]
    · rw [hsplit, List.map_append, ← relay_relay]
      simp only [handleAll, hone, hall, bind, Except.bind]
      rfl

/-- A batch is answered request by request, each as if it came alone: with its own id, and either
a result or an error. The transactions that it submits are queued and relayed in their order, and
nothing else changes. -/
theorem handle_batch (env : RpcEnv Tx) (s : RpcServer Tx)
    (hpool : Mempool.Sound env.signature s.shared.mempool) (hplace : 0 < s.shared.mempool.maxSize)
    (hslot : s.shared.slot.toNat + 150 ≤ u64Max) (batch : List Json) :
    ∃ responses mempool', s.handle env (.array batch) = .ok (.array responses,
        s.withQueue mempool' (s.relay s.relayed ((submissions env s batch).map (·.raw)))) ∧
      submitAll env s.shared.mempool (submissions env s batch) = .ok mempool' ∧
      List.Forall₂ (fun req resp => (∃ s₁, s.handleOne env req = .ok (resp, s₁)) ∧
        resp.get "id" = some (Rpc.requestId req) ∧
        ((resp.get "result").isSome ↔ resp.get "error" = none)) batch responses := by
  obtain ⟨responses, mempool', hserves, hall⟩ :=
    handleAll_withQueue s.relayed hpool hplace hslot batch
  refine ⟨responses, mempool', ?_, hserves.queued, hserves.answered.imp ?_⟩
  · change s.handleAll env batch = _ at hall
    simp only [handle, Json.asArray_array, hall]
    rfl
  · intro req resp hanswered
    obtain ⟨_, _, halone, hone⟩ := handleOne_withQueue s.relayed hpool hplace hslot req
    obtain ⟨r, hr, rfl⟩ := hanswered
    obtain ⟨⟨r', hr', rfl⟩, _⟩ := List.forall₂_cons.mp halone.answered
    cases hr.symm.trans hr'
    refine ⟨⟨_, hone⟩, Rpc.get_id_response _ r, ?_⟩
    cases r with
    | ok result => simp [Rpc.response]
    | error e => simp [Rpc.response]

section Example

open TaoDag.Runtime (Transaction transferEnv)

/-- A server of system transfers without a faucet. -/
def transferRpc : RpcEnv Transaction where
  txs := transferEnv
  signature := signatureBytes
  base58Error _ := "provided string contained invalid character"
  base64Error _ := "Invalid padding"
  minimumBalance space := (space + 128) * 6960
  faucetTransfer _ := .error "signature error"

/-- A server of an empty store at slot 7. -/
def emptyServer : RpcServer Transaction := ⟨Shared.new 7 0, fun _ => .ok none, 0, none, true, []⟩

/-- Three requests: a method that reads, one that lacks its parameter, and none at all. -/
def mixedBatch : List Json :=
  [.object [("id", .u64 1), ("method", .string "getSlot")],
    .object [("id", .u64 2), ("method", .string "sendTransaction")], .null]

/-- A batch with two errors in it is answered, and leaves the server as it is. -/
theorem handle_batch_mixed : ∃ responses,
    emptyServer.handle transferRpc (.array mixedBatch) = .ok (.array responses, emptyServer) ∧
    responses.map (Json.get "id") = [some (.u64 1), some (.u64 2), some .null] := by
  obtain ⟨responses, mempool', hrun, hqueued, hall⟩ := handle_batch transferRpc emptyServer
    (Mempool.sound_new 4096) (by decide) (by decide) mixedBatch
  have hnone : submissions transferRpc emptyServer mixedBatch = [] := rfl
  rw [hnone] at hqueued hrun
  cases hqueued
  have hids : List.Forall₂ Eq (mixedBatch.map fun req => some (Rpc.requestId req))
      (responses.map (Json.get "id")) := by
    apply List.forall₂_map_left_iff.mpr
    apply List.forall₂_map_right_iff.mpr
    exact hall.imp fun _ _ h => h.2.1.symm
  rw [List.forall₂_eq_eq_eq] at hids
  exact ⟨responses, hrun, hids.symm⟩

end Example

end RpcServer

end TaoDag.Node
