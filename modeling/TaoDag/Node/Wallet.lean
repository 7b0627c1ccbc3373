import TaoDag.Framework.Session
import TaoDag.Node.Rpc

namespace TaoDag.Node

open Consensus (Pubkey)
open Database (Account)

/-- What the command-line wallet has from its libraries: those of the server, how a JSON value is
printed, and the text of the error for a bad recipient. -/
structure WalletEnv (Tx : Type) extends RpcEnv Tx where
  text : Json → String
  pubkeyError : String → String

/-- A command of the wallet: it talks to a node, and returns or fails with a message. A request
that gets no answer has the error of the connection. -/
abbrev Wallet (α : Type) := ExceptT String (Client Json (Except String Json)) α

namespace Wallet

variable {Tx : Type}

def rpcBody (method : String) (params : Json) : Json :=
  .object [("jsonrpc", .string "2.0"), ("id", .u64 1), ("method", .string method),
    ("params", params)]

/-- `v[key]`. -/
def index (v : Json) (key : String) : Json := (v.get key).getD .null

section Commands

variable (env : WalletEnv Tx)

/-- What an answer means to a command. -/
def callResult : Except String Json → Except String Json
  | .error e => .error ("rpc request failed: " ++ e)
  | .ok resp =>
      match resp.get "error" with
      | some err => .error ("rpc error: " ++ env.text err)
      | none => .ok (index resp "result")

def rpcCall (method : String) (params : Json) : Wallet Json :=
  ExceptT.mk do return callResult env (← Client.send (rpcBody method params))

/-- What the status of a signature means to the wallet, which goes on asking while there is
none. -/
def verdict (r : Json) : Option (Except String Unit) :=
  match (index r "value").item 0 with
  | none => none
  | some status =>
      if status.isNull then none
      else
        match status.get "err" with
        | none => some (.ok ())
        | some err =>
            if err.isNull then some (.ok ())
            else some (.error ("transaction failed: " ++ env.text err))

/-- The remaining polls of `confirm`. -/
def confirmLoop (sig : String) : Nat → Wallet Unit
  | 0 => throw "transaction not confirmed in time"
  | polls+1 => do
      let r ← rpcCall env "getSignatureStatuses" (.array [.array [.string sig]])
      match verdict env r with
      | some result => liftM result
      | none => confirmLoop sig polls

def confirm (sig : String) : Wallet Unit := confirmLoop env sig 100

def balance (pubkey : String) : Wallet (BitVec 64) := do
  let v ← rpcCall env "getBalance" (.array [.string pubkey])
  return (index v "value").asU64.getD 0

def airdrop (pubkey : String) (lamports : BitVec 64) : Wallet Unit := do
  let sig ← rpcCall env "requestAirdrop" (.array [.string pubkey, .u64 lamports])
  match sig.asStr with
  | none => throw "bad airdrop signature"
  | some sig => confirm env sig

/-- `Pubkey::from_str`. -/
def recipient (dest : String) : Except String Pubkey :=
  match base58.decode dest with
  | none => .error ("bad recipient: " ++ env.pubkeyError dest)
  | some bytes =>
      if bytes.length = 32 then .ok (BitVec.ofNat 256 (ofBE bytes))
      else .error ("bad recipient: " ++ env.pubkeyError dest)

def blockhashOf (bh : Json) : Except String Hash :=
  match (index (index bh "value") "blockhash").asStr with
  | none => .error "no blockhash"
  | some s =>
      match base58.decode s with
      | none => .error (env.base58Error s)
      | some bytes =>
          if bytes.length = 32 then .ok (BitVec.ofNat 256 (ofBE bytes))
          else .error "blockhash not 32 bytes"

/-- Sends a signed transaction, and waits until it is confirmed. -/
def submit (tx : Tx) : Wallet Unit := do
  let raw ← env.txs.encodeTx tx
  let sig ← rpcCall env "sendTransaction"
    (.array [.string (base64.encode raw), .object [("encoding", .string "base64")]])
  match sig.asStr with
  | none => throw "bad signature"
  | some sig => confirm env sig

/-- `sign` makes the transfers of the keypair. -/
def transfer (sign : Pubkey → BitVec 64 → Hash → Tx) (dest : String) (lamports : BitVec 64) :
    Wallet Unit := do
  let payee ← recipient env dest
  let bh ← rpcCall env "getLatestBlockhash" (.array [])
  let blockhash ← blockhashOf env bh
  submit env (sign payee lamports blockhash)

end Commands

end Wallet

/-- A node that serves RPC: what it serves, and its state with another shared state. -/
structure RpcHost (N Tx : Type) where
  server : N → RpcServer Tx
  withShared : N → Shared Tx → N

variable {N Tx : Type}

/-- How a node answers a request. A connection that fails loses the request or the response. -/
inductive RpcHost.Answers (env : RpcEnv Tx) (host : RpcHost N Tx) (n : N) (req : Json) :
    Except String Json → N → Prop
  | served {resp : Json} {s : RpcServer Tx}
      (run : (host.server n).handle env req = .ok (resp, s)) :
      Answers env host n req (.ok resp) (host.withShared n s.shared)
  | responseLost {resp : Json} {s : RpcServer Tx} {e : String}
      (run : (host.server n).handle env req = .ok (resp, s)) :
      Answers env host n req (.error e) (host.withShared n s.shared)
  | requestLost {e : String} : Answers env host n req (.error e) n

namespace Wallet

variable {env : WalletEnv Tx} {host : RpcHost N Tx} {Moves : N → N → Prop} {n n' : N}

theorem handle_rpcBody (s : RpcServer Tx) (method : String) (params : Json) :
    s.handle env.toRpcEnv (rpcBody method params) = do
      let (r, s) ← s.dispatch env.toRpcEnv method params
      return (Rpc.response (.u64 1) r, s) := by
  simp [RpcServer.handle, RpcServer.handleOne, rpcBody, Json.asArray, Rpc.requestId,
    Rpc.requestMethod, Rpc.requestParams]

theorem rpcCall_iff {Answers : N → Json → Except String Json → N → Prop} {method : String}
    {params : Json} {r : Except String Json} :
    Session Moves Answers n (rpcCall env method params).run n' r ↔
      ∃ n₁ ans, Moves n n₁ ∧ Answers n₁ (rpcBody method params) ans n' ∧
        r = callResult env ans := by
  rw [rpcCall, ExceptT.run_mk, Session.bind_iff]
  constructor
  · intro h
    obtain ⟨mid, ans, hsend, hpure⟩ := h
    obtain ⟨n₁, hmoves, hans⟩ := Session.send_iff.mp hsend
    obtain ⟨rfl, rfl⟩ := Session.pure_iff.mp hpure
    exact ⟨n₁, ans, hmoves, hans, rfl⟩
  · intro h
    obtain ⟨n₁, ans, hmoves, hans, rfl⟩ := h
    exact ⟨n', ans, Session.send_iff.mpr ⟨n₁, hmoves, hans⟩, Session.pure_iff.mpr ⟨rfl, rfl⟩⟩

theorem callResult_response (id : Json) (r : Except RpcError Json) :
    callResult env (.ok (Rpc.response id r)) = r.mapError fun e =>
      "rpc error: " ++ env.text (.object
        [("code", .number (.negative e.1)), ("message", .string e.2)]) := by
  cases r with
  | ok result => simp [callResult, Rpc.response, index, Except.mapError]
  | error e => simp [callResult, Rpc.response, Except.mapError]

/-- A call that does not lose its answer returns what the server dispatches. -/
theorem rpcCall_cases {method : String} {params : Json} {r : Except String Json}
    (session : Session Moves (host.Answers env.toRpcEnv) n (rpcCall env method params).run n' r) :
    (∃ e, r = .error ("rpc request failed: " ++ e)) ∨
      ∃ n₁ out s, Moves n n₁ ∧
        (host.server n₁).dispatch env.toRpcEnv method params = .ok (out, s) ∧
        n' = host.withShared n₁ s.shared ∧ r = out.mapError fun e =>
          "rpc error: " ++ env.text (.object
            [("code", .number (.negative e.1)), ("message", .string e.2)]) := by
  obtain ⟨n₁, ans, hmoves, hans, rfl⟩ := rpcCall_iff.mp session
  cases hans with
  | served run =>
    rw [handle_rpcBody] at run
    obtain ⟨⟨out, s⟩, hdispatch, run⟩ := bind_eq_ok.mp run
    cases run
    exact Or.inr ⟨n₁, out, _, hmoves, hdispatch, rfl, callResult_response _ out⟩
  | responseLost _ => exact Or.inl ⟨_, rfl⟩
  | requestLost => exact Or.inl ⟨_, rfl⟩

/-- The status that a server has for the text of a signature. -/
def statusOf (host : RpcHost N Tx) (sig : String) (n : N) : Option (Option String) :=
  (Rpc.parseSignature sig).bind (host.server n).shared.signatureStatus

/-- What the wallet says about a status. -/
def report (env : WalletEnv Tx) : Option String → Except String Unit
  | none => .ok ()
  | some e => .error ("transaction failed: " ++ env.text (.string e))

theorem verdict_statuses (s : RpcServer Tx) (sig : String) :
    verdict env (.object [("context", Rpc.context s.shared.slot),
      ("value", .array ([Json.string sig].map (Rpc.statusJson s)))]) =
      ((Rpc.parseSignature sig).bind s.shared.signatureStatus).map (report env) := by
  cases hstatus : (Rpc.parseSignature sig).bind s.shared.signatureStatus with
  | none => simp [verdict, index, Rpc.statusJson, hstatus]
  | some result =>
    cases result with
    | none => simp [verdict, index, Rpc.statusJson, hstatus, report]
    | some e => simp [verdict, index, Rpc.statusJson, hstatus, report]

/-- One poll of `confirm`. -/
theorem poll_cases {sig : String} {r : Except String Json}
    (session : Session Moves (host.Answers env.toRpcEnv) n
      (rpcCall env "getSignatureStatuses" (.array [.array [.string sig]])).run n' r) :
    (∃ e, r = .error ("rpc request failed: " ++ e)) ∨
      ∃ n₁ v, Moves n n₁ ∧ r = .ok v ∧
        verdict env v = (statusOf host sig n₁).map (report env) := by
  rcases rpcCall_cases session with hlost | ⟨n₁, out, s, hmoves, hdispatch, rfl, rfl⟩
  · exact Or.inl hlost
  · cases hdispatch
    exact Or.inr ⟨n₁, _, hmoves, rfl, verdict_statuses _ sig⟩

/-- How a confirmation ends: with the first status that a poll finds. -/
inductive Confirmation (env : WalletEnv Tx) (status : N → Option (Option String)) (P : N → Prop)
    (polls : Nat) : Except String Unit → Prop
  | found {n : N} {result : Option String} (reached : P n) (known : status n = some result) :
      Confirmation env status P polls (report env result)
  | disconnected {e : String} :
      Confirmation env status P polls (.error ("rpc request failed: " ++ e))
  | timeout {reached : List N} (length : reached.length = polls)
      (unknown : ∀ n ∈ reached, P n ∧ status n = none) :
      Confirmation env status P polls (.error "transaction not confirmed in time")

theorem Confirmation.of_ok {status : N → Option (Option String)} {P : N → Prop} {polls : Nat}
    (h : Confirmation env status P polls (.ok ())) : ∃ n, P n ∧ status n = some none := by
  generalize hr : (Except.ok () : Except String Unit) = r at h
  cases h with
  | @found n result reached known =>
    cases result with
    | none => exact ⟨n, reached, known⟩
    | some e => cases hr
  | disconnected => cases hr
  | timeout _ _ => cases hr

theorem confirmLoop_session {P : N → Prop} {sig : String} {polls : Nat}
    {r : Except String Unit}
    (inv : Session.Invariant Moves (host.Answers env.toRpcEnv) P) (h : P n)
    (session : Session Moves (host.Answers env.toRpcEnv) n (confirmLoop env sig polls).run n' r) :
    Confirmation env (statusOf host sig) P polls r := by
  induction polls generalizing n with
  | zero =>
    obtain ⟨rfl, rfl⟩ := Session.pure_iff.mp session
    exact Confirmation.timeout rfl (List.forall_mem_nil _)
  | succ polls ih =>
    rw [confirmLoop] at session
    rcases Session.except_bind_iff.mp session with ⟨e, rfl, hpoll⟩ | ⟨mid, v, hpoll, hrest⟩
    · rcases poll_cases hpoll with ⟨e', he⟩ | ⟨n₁, v, _, he, _⟩
      · cases he
        exact Confirmation.disconnected
      · cases he
    · have hmid := inv.keeps hpoll h
      rcases poll_cases hpoll with ⟨e', he⟩ | ⟨n₁, v', hmoves, he, hverdict⟩
      · cases he
      · cases he
        have hn₁ := inv.moves h hmoves
        cases hstatus : statusOf host sig n₁ with
        | some result =>
          rw [hverdict, hstatus] at hrest
          obtain ⟨_, rfl⟩ := Session.except_pure_iff.mp hrest
          exact Confirmation.found hn₁ hstatus
        | none =>
          rw [hverdict, hstatus] at hrest
          cases ih hmid hrest with
          | found reached known => exact Confirmation.found reached known
          | disconnected => exact Confirmation.disconnected
          | timeout length unknown =>
            exact Confirmation.timeout (congrArg (· + 1) length)
              (List.forall_mem_cons.mpr ⟨⟨hn₁, hstatus⟩, unknown⟩)

theorem parseSignature_signatureText (sig : Signature) :
    Rpc.parseSignature (Rpc.signatureText sig) = some sig := by
  have hlt : sig.toNat < 256^64 := by
    rw [show 256 = 2^8 from rfl, ← Nat.pow_mul, show 8 * 64 = 512 from rfl]
    exact sig.isLt
  simp [Rpc.parseSignature, Rpc.signatureText, ofLE_leBytes_of_lt hlt]

theorem blockhashOf_latest (slot last : Json) (blockhash : Hash) :
    blockhashOf env (.object [("context", slot),
      ("value", .object [("blockhash", .string (Rpc.pubkeyText blockhash)),
        ("lastValidBlockHeight", last)])]) = .ok blockhash := by
  have hlt : blockhash.toNat < 256^32 := blockhash.isLt
  simp [blockhashOf, index, Rpc.pubkeyText, ofBE_beBytes_of_lt hlt]

theorem recipient_ok {dest : String} {payee : Pubkey} (h : recipient env dest = .ok payee) :
    dest = Rpc.pubkeyText payee := by
  rw [recipient] at h
  split at h
  · cases h
  · rename_i bytes hdecode
    split at h
    · rename_i hlen
      cases h
      exact Rpc.eq_pubkeyText hdecode hlen
    · cases h

/-- The server queues the transaction that the wallet sends. -/
theorem sendTransaction_encode {tx : Tx} {raw : Bytes} {sub : Rpc.Submission Tx}
    (hdecode : env.txs.decodeTx raw = .ok tx)
    (run : Rpc.sendTransaction env.toRpcEnv (.array [.string (base64.encode raw),
      .object [("encoding", .string "base64")]]) = .ok sub) :
    sub.tx = tx ∧ sub.raw = raw ∧ env.signature tx = some sub.sig := by
  simp only [Rpc.sendTransaction, Rpc.paramStr, Rpc.rawTransaction, Json.item_array,
    List.getElem?_cons_zero, List.getElem?_cons_succ, Option.bind_some, Json.asStr_string,
    Json.get_cons_self, Option.getD_some, if_true, TextCodec.decode_encode, bind, Except.bind,
    hdecode] at run
  cases hsig : env.signature tx with
  | none =>
    simp only [hsig] at run
    cases run
  | some sig =>
    simp only [hsig] at run
    cases run
    exact ⟨rfl, rfl, rfl⟩

/-- What a confirmed submission has gone through: a node has queued it, and at some moment has had
a success for its signature. -/
structure Confirmed (env : WalletEnv Tx) (host : RpcHost N Tx) (P : N → Prop)
    (sub : Rpc.Submission Tx) : Prop where
  queued : ∃ n s, P n ∧ (host.server n).enqueue env.toRpcEnv sub = .ok s ∧
    P (host.withShared n s.shared)
  succeeded : ∃ n, P n ∧ (host.server n).shared.signatureStatus sub.sig = some none

/-- A command that has a transaction queued and then waits for its confirmation. -/
theorem accept_session {P : N → Prop} {method text : String} {params : Json}
    {subOf : N → Except RpcError (Rpc.Submission Tx)}
    (hmethod : ∀ n, (host.server n).dispatch env.toRpcEnv method params =
      (host.server n).accept env.toRpcEnv (subOf n))
    (inv : Session.Invariant Moves (host.Answers env.toRpcEnv) P) (h : P n)
    (session : Session Moves (host.Answers env.toRpcEnv) n
      (do
        let sig ← rpcCall env method params
        match sig.asStr with
        | none => throw text
        | some sig => confirm env sig : Wallet Unit).run n' (.ok ())) :
    ∃ m sub, P m ∧ subOf m = .ok sub ∧ Confirmed env host P sub := by
  rcases Session.except_bind_iff.mp session with ⟨e, he, _⟩ | ⟨sent, v, hsend, answered⟩
  · cases he
  have hsent := inv.keeps hsend h
  rcases rpcCall_cases hsend with ⟨e, he⟩ | ⟨m, out, s, hmoves, hdispatch, rfl, hout⟩
  · cases he
  have hm := inv.moves h hmoves
  rw [hmethod] at hdispatch
  cases hsub : subOf m with
  | error e =>
    simp only [RpcServer.accept, hsub] at hdispatch
    cases hdispatch
    cases hout
  | ok sub =>
    simp only [RpcServer.accept, hsub] at hdispatch
    obtain ⟨s', henqueue, hdispatch⟩ := bind_eq_ok.mp hdispatch
    cases hdispatch
    cases hout
    have hconfirm : Confirmation env (statusOf host (Rpc.signatureText sub.sig)) P 100 (.ok ()) :=
      confirmLoop_session inv hsent answered
    obtain ⟨m', hm', hstatus⟩ := hconfirm.of_ok
    rw [statusOf, parseSignature_signatureText, Option.bind_some] at hstatus
    exact ⟨m, sub, hm, hsub, ⟨m, _, hm, henqueue, hsent⟩, ⟨m', hm', hstatus⟩⟩

theorem submit_session {P : N → Prop} {tx : Tx}
    (inv : Session.Invariant Moves (host.Answers env.toRpcEnv) P) (h : P n)
    (hdecode : ∀ raw, env.txs.encodeTx tx = .ok raw → env.txs.decodeTx raw = .ok tx)
    (session : Session Moves (host.Answers env.toRpcEnv) n (submit env tx).run n' (.ok ())) :
    ∃ raw sig, env.txs.encodeTx tx = .ok raw ∧ env.signature tx = some sig ∧
      Confirmed env host P ⟨tx, raw, sig⟩ := by
  rw [submit] at session
  rcases Session.except_bind_iff.mp session with ⟨e, he, _⟩ | ⟨mid, raw, hencode, encoded⟩
  · cases he
  obtain ⟨rfl, hraw⟩ := Session.except_pure_iff.mp hencode
  obtain ⟨m, sub, hm, hsub, hconfirmed⟩ := accept_session (fun _ => rfl) inv h encoded
  obtain ⟨htx, hsubraw, hsig⟩ := sendTransaction_encode (hdecode raw hraw.symm) hsub
  obtain ⟨tx', raw', sig⟩ := sub
  cases htx
  cases hsubraw
  exact ⟨raw', sig, hraw.symm, hsig, hconfirmed⟩

/-- A transfer that ends well was signed for a blockhash of the node, and is confirmed. -/
theorem transfer_session {P : N → Prop} {sign : Pubkey → BitVec 64 → Hash → Tx} {dest : String}
    {lamports : BitVec 64} (inv : Session.Invariant Moves (host.Answers env.toRpcEnv) P) (h : P n)
    (hdecode : ∀ payee blockhash raw,
      env.txs.encodeTx (sign payee lamports blockhash) = .ok raw →
        env.txs.decodeTx raw = .ok (sign payee lamports blockhash))
    (session : Session Moves (host.Answers env.toRpcEnv) n
      (transfer env sign dest lamports).run n' (.ok ())) :
    ∃ payee m tx raw sig, dest = Rpc.pubkeyText payee ∧ P m ∧
      tx = sign payee lamports (host.server m).shared.latestBlockhash ∧
      env.txs.encodeTx tx = .ok raw ∧ env.signature tx = some sig ∧
      Confirmed env host P ⟨tx, raw, sig⟩ := by
  rw [transfer] at session
  rcases Session.except_bind_iff.mp session with ⟨e, he, _⟩ | ⟨mid, payee, hparse, parsed⟩
  · cases he
  obtain ⟨rfl, hpayee⟩ := Session.except_pure_iff.mp hparse
  rcases Session.except_bind_iff.mp parsed with ⟨e, he, _⟩ | ⟨mid', bh, hcall, called⟩
  · cases he
  have hmid' := inv.keeps hcall h
  rcases Session.except_bind_iff.mp called with ⟨e, he, _⟩ | ⟨mid'', blockhash, hread, submitted⟩
  · cases he
  obtain ⟨rfl, hbh⟩ := Session.except_pure_iff.mp hread
  rcases rpcCall_cases hcall with ⟨e, he⟩ | ⟨m, out, s, hmoves, hdispatch, rfl, hout⟩
  · cases he
  obtain ⟨r, hanswer, hdispatch⟩ := bind_eq_ok.mp hdispatch
  cases hdispatch
  obtain ⟨last, _, hanswer⟩ := bind_eq_ok.mp hanswer
  cases hanswer
  cases hout
  rw [blockhashOf_latest] at hbh
  cases hbh
  obtain ⟨raw, sig, hraw, hsig, hconfirmed⟩ := submit_session inv hmid' (hdecode _ _) submitted
  exact ⟨payee, m, _, raw, sig, recipient_ok hpayee.symm, inv.moves h hmoves, rfl, hraw, hsig, hconfirmed⟩

/-- An airdrop that ends well is a transfer of the faucet of the node, and is confirmed. -/
theorem airdrop_session {P : N → Prop} {pubkey : String} {lamports : BitVec 64}
    (inv : Session.Invariant Moves (host.Answers env.toRpcEnv) P) (h : P n)
    (session : Session Moves (host.Answers env.toRpcEnv) n
      (airdrop env pubkey lamports).run n' (.ok ())) :
    ∃ m sub, P m ∧ Rpc.requestAirdrop env.toRpcEnv (host.server m)
      (.array [.string pubkey, .u64 lamports]) = .ok sub ∧ Confirmed env host P sub :=
  accept_session (fun _ => rfl) inv h session

theorem getBalance_ok {s : RpcServer Tx} {pubkey : String} {v : Json}
    (run : Rpc.getBalance s (.array [.string pubkey]) = .ok v) :
    ∃ key account, pubkey = Rpc.pubkeyText key ∧ s.accounts key = .ok account ∧
      v = .object [("context", Rpc.context s.shared.slot),
        ("value", .u64 ((account.map (·.lamports)).getD 0))] := by
  obtain ⟨text, htext, run⟩ := bind_eq_ok.mp run
  cases htext
  obtain ⟨key, hkey, run⟩ := bind_eq_ok.mp run
  obtain ⟨account, haccount, run⟩ := bind_eq_ok.mp run
  cases run
  refine ⟨key, account, Rpc.parsePubkey_eq_ok.mp hkey, ?_, rfl⟩
  rw [Rpc.account] at haccount
  split at haccount
  · cases haccount
    assumption
  · cases haccount

/-- A balance is that of the account at some moment of the session: text that is no key, an
account store that fails and a lost answer are all errors. -/
theorem balance_session {P : N → Prop} {pubkey : String} {lamports : BitVec 64}
    (inv : Session.Invariant Moves (host.Answers env.toRpcEnv) P) (h : P n)
    (session : Session Moves (host.Answers env.toRpcEnv) n
      (balance env pubkey).run n' (.ok lamports)) :
    ∃ m key account, P m ∧ pubkey = Rpc.pubkeyText key ∧
      (host.server m).accounts key = .ok account ∧
      lamports = (account.map (·.lamports)).getD 0 := by
  rw [balance] at session
  rcases Session.except_bind_iff.mp session with ⟨e, he, _⟩ | ⟨mid, v, hcall, hreturn⟩
  · cases he
  obtain ⟨rfl, hvalue⟩ := Session.pure_iff.mp hreturn
  rcases rpcCall_cases hcall with ⟨e, he⟩ | ⟨m, out, s, hmoves, hdispatch, rfl, hout⟩
  · cases he
  obtain ⟨r, hanswer, hdispatch⟩ := bind_eq_ok.mp hdispatch
  cases hdispatch
  cases hanswer
  cases hbalance : Rpc.getBalance (host.server m) (.array [.string pubkey]) with
  | error e =>
    rw [hbalance] at hout
    cases hout
  | ok v' =>
    rw [hbalance] at hout
    cases hout
    obtain ⟨key, account, hkey, haccount, rfl⟩ := getBalance_ok hbalance
    refine ⟨m, key, account, inv.moves h hmoves, hkey, haccount, ?_⟩
    cases hvalue
    simp [index]

theorem rpcCall_runs {n₁ : N} {method : String} {params v : Json} {s : RpcServer Tx}
    (moves : Moves n n₁)
    (run : (host.server n₁).dispatch env.toRpcEnv method params = .ok (.ok v, s)) :
    Session Moves (host.Answers env.toRpcEnv) n (rpcCall env method params).run
      (host.withShared n₁ s.shared) (.ok v) := by
  refine rpcCall_iff.mpr ⟨n₁, .ok (Rpc.response (.u64 1) (.ok v)), moves, .served ?_, ?_⟩
  · rw [handle_rpcBody, run]
    rfl
  · rw [callResult_response]
    rfl

theorem recipient_pubkeyText (payee : Pubkey) :
    recipient env (Rpc.pubkeyText payee) = .ok payee := by
  have hlt : payee.toNat < 256^32 := payee.isLt
  simp [recipient, Rpc.decode_pubkeyText, ofBE_beBytes_of_lt hlt]

/-- A transfer ends well when the first poll finds its success. -/
theorem transfer_runs {sign : Pubkey → BitVec 64 → Hash → Tx} {payee : Pubkey}
    {lamports : BitVec 64} (n₁ n₂ n₃ : N) {raw : Bytes} {sig : Signature} {s : RpcServer Tx}
    (moves₁ : Moves n n₁) (hslot : (host.server n₁).shared.slot.toNat + 150 ≤ u64Max)
    (moves₂ : Moves (host.withShared n₁ (host.server n₁).shared) n₂)
    (hencode : env.txs.encodeTx
      (sign payee lamports (host.server n₁).shared.latestBlockhash) = .ok raw)
    (hdecode : env.txs.decodeTx raw =
      .ok (sign payee lamports (host.server n₁).shared.latestBlockhash))
    (hsig : env.signature (sign payee lamports (host.server n₁).shared.latestBlockhash) = some sig)
    (henqueue : (host.server n₂).enqueue env.toRpcEnv
      ⟨sign payee lamports (host.server n₁).shared.latestBlockhash, raw, sig⟩ = .ok s)
    (moves₃ : Moves (host.withShared n₂ s.shared) n₃)
    (hstatus : (host.server n₃).shared.signatureStatus sig = some none) :
    Session Moves (host.Answers env.toRpcEnv) n
      (transfer env sign (Rpc.pubkeyText payee) lamports).run
      (host.withShared n₃ (host.server n₃).shared) (.ok ()) := by
  generalize htx : sign payee lamports (host.server n₁).shared.latestBlockhash = tx at *
  have hlatest : (host.server n₁).dispatch env.toRpcEnv "getLatestBlockhash" (.array []) =
      .ok (.ok (.object [("context", Rpc.context (host.server n₁).shared.slot),
        ("value", .object
          [("blockhash", .string (Rpc.pubkeyText (host.server n₁).shared.latestBlockhash)),
          ("lastValidBlockHeight",
            .u64 (BitVec.ofNat 64 ((host.server n₁).shared.slot.toNat + 150)))])]),
        host.server n₁) := by
    simp only [RpcServer.dispatch, Rpc.answer, addU64, addUpTo, if_pos hslot]
    rfl
  have hsend : (host.server n₂).dispatch env.toRpcEnv "sendTransaction"
      (.array [.string (base64.encode raw), .object [("encoding", .string "base64")]]) =
      .ok (.ok (.string (Rpc.signatureText sig)), s) := by
    simp [RpcServer.dispatch, Rpc.sendTransaction, Rpc.paramStr, Rpc.rawTransaction, hdecode, hsig,
      RpcServer.accept, henqueue, bind, Except.bind, pure, Except.pure]
  have hpoll : (host.server n₃).dispatch env.toRpcEnv "getSignatureStatuses"
      (.array [.array [.string (Rpc.signatureText sig)]]) =
      .ok (.ok (.object [("context", Rpc.context (host.server n₃).shared.slot),
        ("value", .array ([Json.string (Rpc.signatureText sig)].map
          (Rpc.statusJson (host.server n₃))))]), host.server n₃) := rfl
  have hconfirm : Session Moves (host.Answers env.toRpcEnv) (host.withShared n₂ s.shared)
      (confirm env (Rpc.signatureText sig)).run
      (host.withShared n₃ (host.server n₃).shared) (.ok ()) := by
    rw [confirm, confirmLoop]
    apply Session.except_bind_iff.mpr
    refine Or.inr ⟨_, _, rpcCall_runs moves₃ hpoll, ?_⟩
    rw [verdict_statuses, parseSignature_signatureText, Option.bind_some, hstatus]
    exact Session.except_pure_iff.mpr ⟨rfl, rfl⟩
  have hsubmit : Session Moves (host.Answers env.toRpcEnv)
      (host.withShared n₁ (host.server n₁).shared) (submit env tx).run
      (host.withShared n₃ (host.server n₃).shared) (.ok ()) := by
    rw [submit]
    apply Session.except_bind_iff.mpr
    refine Or.inr ⟨_, raw, Session.except_pure_iff.mpr ⟨rfl, hencode.symm⟩, ?_⟩
    apply Session.except_bind_iff.mpr
    exact Or.inr ⟨_, _, rpcCall_runs moves₂ hsend, hconfirm⟩
  rw [transfer]
  apply Session.except_bind_iff.mpr
  refine Or.inr ⟨n, payee, Session.except_pure_iff.mpr ⟨rfl, (recipient_pubkeyText payee).symm⟩, ?_⟩
  apply Session.except_bind_iff.mpr
  refine Or.inr ⟨_, _, rpcCall_runs moves₁ hlatest, ?_⟩
  apply Session.except_bind_iff.mpr
  refine Or.inr ⟨host.withShared n₁ (host.server n₁).shared,
    (host.server n₁).shared.latestBlockhash, ?_, ?_⟩
  · exact Session.except_pure_iff.mpr ⟨rfl, (blockhashOf_latest _ _ _).symm⟩
  · rw [htx]
    exact hsubmit

end Wallet

end TaoDag.Node
