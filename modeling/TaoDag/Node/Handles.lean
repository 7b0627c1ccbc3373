import TaoDag.Dagvm.Import
import TaoDag.Dagvm.Mined
import TaoDag.Dagvm.VirtualState
import TaoDag.Node.DagServer

namespace TaoDag

open Consensus (DagBlock)
open Database (AppendFault ReplaceFault)
open Dagvm (DagChain Params easyBlock easyGenesis easyParams envBlockhash)
open TaoDag.Runtime (Bank BankError BankM Env Transaction run_bind_eq_ok run_lift_eq transferEnv)

namespace Dagvm.DagChain

variable {Tx : Type} {env : Env Tx} {c c' : DagChain Tx} {order : List Hash} {busy : Bool}
  {locked : String}

/-- Whether `virtual_state` goes on from the cached bank. -/
def canExtend (c : DagChain Tx) (order : List Hash) : Bool :=
  c.state.isSome && decide (c.executed <+: order)

/-- `virtual_state` wipes the state directory and opens a store in it again: the order does not
extend the one that the cached bank has executed, and something is there to replay it from. -/
def Reopens (c : DagChain Tx) : Prop :=
  ∃ order cp, c.totalOrder = .ok order ∧ c.canExtend order = false ∧
    c.matchingCheckpoint order = .ok cp ∧ (cp = none → ¬c.HistoryLost)

section Open

variable (locked : String)

/-- `open_bank` on a directory that may have a live handle: the store does not open twice. -/
def reopenBank (env : Env Tx) (c : DagChain Tx) (busy seedGenesis : Bool) : BankM Bank :=
  if busy then throw (.storage locked) else return c.openBank env seedGenesis

/-- `virtual_bank`, which opens the state directory unless it goes on from the cached bank. -/
def virtualBankOn (env : Env Tx) (c : DagChain Tx) (busy : Bool) (order : List Hash) :
    BankM Bank :=
  match c.state, decide (c.executed <+: order) with
  | some bank, true => c.replayBlocks env bank (order.drop c.executed.length)
  | _, _ => do
      match ← c.matchingCheckpoint order with
      | some cp => do
          let bank ← c.reopenBank locked env busy false
          c.replayBlocks env (bank.commit env cp.accounts) (order.drop cp.len)
      | none =>
          if c.historyPruned ∧ c.baseAccounts.isNone then
            throw (.storage "reorg below pruned history (deeper than finality)")
          else do
            let bank ← c.reopenBank locked env busy true
            c.replayBlocks env bank order

/-- `virtual_state`, where other handles may keep the state directory open. -/
def virtualStateOn (env : Env Tx) (c : DagChain Tx) (busy : Bool) :
    Result (Except BankError Bank × DagChain Tx) := do
  let order ← c.totalOrder
  match ← (c.virtualBankOn locked env busy order).run with
  | .error e => return (.error e, { c with state := none })
  | .ok bank =>
      let c := { c with state := some bank, executed := order }
      match ← (c.maybeAdvanceCheckpoint env).run with
      | .error e => return (.error e, c)
      | .ok checkpoint => return (.ok bank, { c with checkpoint })

end Open

theorem canExtend_iff :
    c.canExtend order = true ↔ ∃ bank, c.state = some bank ∧ c.executed <+: order := by
  rw [canExtend, Bool.and_eq_true, decide_eq_true_eq, Option.isSome_iff_exists]
  exact exists_and_right.symm

theorem virtualBankOn_extends (h : c.canExtend order = true) :
    c.virtualBankOn locked env busy order = c.virtualBank env order := by
  obtain ⟨bank, hbank, hexecuted⟩ := canExtend_iff.mp h
  rw [virtualBankOn, virtualBank, hbank, decide_eq_true hexecuted]

theorem virtualBankOn_scratch (h : c.canExtend order = false) :
    c.virtualBankOn locked env busy order = (do
      match ← c.matchingCheckpoint order with
      | some cp => do
          let bank ← c.reopenBank locked env busy false
          c.replayBlocks env (bank.commit env cp.accounts) (order.drop cp.len)
      | none =>
          if c.historyPruned ∧ c.baseAccounts.isNone then
            throw (.storage "reorg below pruned history (deeper than finality)")
          else do
            let bank ← c.reopenBank locked env busy true
            c.replayBlocks env bank order) := by
  rw [virtualBankOn]
  rw [canExtend] at h
  cases hs : c.state with
  | none => rfl
  | some bank =>
    rw [hs, Option.isSome_some, Bool.true_and] at h
    rw [h]

theorem virtualBank_eq_scratch (h : c.canExtend order = false) :
    c.virtualBank env order = c.scratchBank env order := by
  refine virtualBank_scratch fun bank hbank hexecuted => ?_
  rw [canExtend_iff.mpr ⟨bank, hbank, hexecuted⟩] at h
  cases h

/-- In a directory that is free, the store opens. -/
theorem virtualBankOn_free : c.virtualBankOn locked env false order = c.virtualBank env order := by
  cases hextend : c.canExtend order with
  | true => exact virtualBankOn_extends hextend
  | false =>
    rw [virtualBankOn_scratch hextend, virtualBank_eq_scratch hextend]
    rfl

/-- What replays from a store that another handle keeps locked fails. -/
theorem virtualBankOn_busy {cp : Option Dagvm.Checkpoint} (h : c.canExtend order = false)
    (hcp : c.matchingCheckpoint order = .ok cp) (hlost : cp = none → ¬c.HistoryLost) :
    (c.virtualBankOn locked env true order).run = .ok (.error (.storage locked)) := by
  rw [virtualBankOn_scratch h, hcp]
  cases cp with
  | some cp => rfl
  | none =>
    have hkept : ¬(c.historyPruned = true ∧ c.baseAccounts.isNone = true) := hlost rfl
    show (ite _ _ _ : BankM Bank).run = _
    rw [if_neg hkept]
    rfl

/-- What opens no store does not look at the handles. -/
theorem virtualBankOn_of_not_reopens (h : ¬c.Reopens) (horder : c.totalOrder = .ok order) :
    c.virtualBankOn locked env busy order = c.virtualBank env order := by
  cases hextend : c.canExtend order with
  | true => exact virtualBankOn_extends hextend
  | false =>
    rw [virtualBankOn_scratch hextend, virtualBank_eq_scratch hextend, scratchBank]
    cases hcp : c.matchingCheckpoint order with
    | error e => rfl
    | ok cp =>
      cases cp with
      | some cp =>
        exact absurd ⟨order, some cp, horder, hextend, hcp, fun hnone => by cases hnone⟩ h
      | none =>
        have hlost : c.historyPruned = true ∧ c.baseAccounts.isNone = true := by
          by_contra hkept
          exact h ⟨order, none, horder, hextend, hcp, fun _ => hkept⟩
        show (ite _ _ _ : BankM Bank) = ite _ _ _
        rw [if_pos hlost, if_pos hlost]

theorem virtualStateOn_free : c.virtualStateOn locked env false = c.virtualState env := by
  simp only [virtualStateOn, virtualBankOn_free]
  rfl

theorem virtualStateOn_of_not_reopens (h : ¬c.Reopens) :
    c.virtualStateOn locked env busy = c.virtualState env := by
  rw [virtualStateOn, virtualState]
  cases horder : c.totalOrder with
  | error e => rfl
  | ok order =>
    simp only [bind, Except.bind, virtualBankOn_of_not_reopens h horder]
    all_goals rfl

/-- A chain that reopens its directory fails there, and loses its bank. -/
theorem virtualStateOn_busy (h : c.Reopens) :
    c.virtualStateOn locked env true =
      .ok (.error (.storage locked), { c with state := none }) := by
  obtain ⟨order, cp, horder, hextend, hcp, hlost⟩ := h
  have hfails : (c.virtualBankOn locked env true order).run = .ok (.error (.storage locked)) :=
    virtualBankOn_busy hextend hcp hlost
  simp only [virtualStateOn, horder, bind, Except.bind, hfails]
  rfl

/-- A locked directory gives no new bank. -/
theorem virtualStateOn_state {r : Except BankError Bank} (horder : c.totalOrder = .ok order)
    (h : c.canExtend order = false) (run : c.virtualStateOn locked env true = .ok (r, c')) :
    c'.state = none := by
  by_cases hreopens : c.Reopens
  · rw [virtualStateOn_busy hreopens] at run
    cases run
    rfl
  · rw [virtualStateOn_of_not_reopens hreopens, virtualState, horder] at run
    obtain ⟨_, hsame, run⟩ := bind_eq_ok.mp run
    cases hsame
    obtain ⟨bank, hbank, run⟩ := bind_eq_ok.mp run
    cases bank with
    | error e =>
      cases run
      rfl
    | ok bank =>
      rw [virtualBank_eq_scratch h] at hbank
      obtain ⟨cp, hcp, hbank⟩ := run_bind_eq_ok.mp hbank
      obtain ⟨_, hcp, hsame⟩ := run_lift_eq.mp hcp
      cases hsame
      refine absurd ⟨order, cp, horder, h, hcp, fun hnone hlost => ?_⟩ hreopens
      subst hnone
      have hlost : c.historyPruned = true ∧ c.baseAccounts.isNone = true := hlost
      simp only [if_pos hlost] at hbank
      cases hbank

section Cached

variable {io : Option AppendFault} {now : Int}

theorem appendAndApply_state {block : DagBlock} {r : Except String Unit}
    (run : c.appendAndApply env io block = .ok (r, c')) : c'.state = c.state := by
  rcases appendAndApply_cases run with ⟨_, _, _, _, rfl⟩ | ⟨log, _, happly⟩
  · rfl
  · obtain ⟨_, _, _, _, _, rfl⟩ := applyWithId_dag happly
    rfl

theorem accept_state {block : DagBlock} {r : Except String Unit}
    (run : c.accept env io now block = .ok (r, c')) : c'.state = c.state := by
  rcases accept_cases run with rfl | ⟨_, happend⟩
  · rfl
  · exact appendAndApply_state happend

theorem mineAt_state {txs : List Tx} {timestamp : BitVec 64} {r : Except String DagBlock}
    (run : c.mineAt env io txs timestamp = .ok (r, c')) : c'.state = c.state := by
  obtain ⟨_, _, _, happend, _⟩ := mineAt_spec run
  exact appendAndApply_state happend

theorem prune_state {io : Option ReplaceFault} {r : Except BankError Nat}
    (run : c.prune env io = .ok (r, c')) : c'.state = c.state ∨ c'.state = none := by
  rcases prune_cases run with ⟨_, rfl, _⟩ | ⟨_, _, _, _, _, _, _, _, _, _, _, _, _, _, _, rfl⟩
  · exact Or.inl rfl
  · exact Or.inr rfl

theorem importSnapshot_state {io : Option ReplaceFault} {bytes : Bytes} {r : Except String Bool}
    (run : c.importSnapshot env io now bytes = .ok (r, c')) :
    c'.state = c.state ∨ c'.state = none := by
  rcases importSnapshot_cases run with ⟨rfl, _⟩ | ⟨snap, work, _, hadopt⟩
  · exact Or.inl rfl
  · rw [adoptSnapshot] at hadopt
    obtain ⟨loaded, hload, hadopt⟩ := bind_eq_ok.mp hadopt
    obtain ⟨_, _, rfl⟩ := loadSnapshot_spec hload
    obtain ⟨⟨v, applied⟩, happly, hadopt⟩ := bind_eq_ok.mp hadopt
    obtain ⟨_, _, _, _, _, rfl⟩ := applySuffix_dag happly
    refine Or.inr ?_
    cases v with
    | error e =>
      cases hadopt
      rfl
    | ok u =>
      simp only at hadopt
      split at hadopt
      · cases hadopt
        rfl
      · cases hadopt
        rfl

end Cached

end Dagvm.DagChain

namespace Node

namespace DagNode

variable {Tx Peer : Type} {env : Env Tx} {n n' : DagNode Tx}

theorem receive_state {io : Option ReplaceFault} {now : Int} {peer : Peer} {msg : NetMsg}
    {out : List (Outgoing Peer)} (run : n.receive env io now peer msg = .ok (n', out)) :
    n'.chain.state = n.chain.state ∨ n'.chain.state = none := by
  cases msg with
  | newBlock bytes =>
    simp only [receive] at run
    split at run
    · cases run
      exact Or.inl rfl
    · cases run
      exact Or.inl rfl
  | getBlock id =>
    simp only [receive] at run
    split at run
    · cases run
      exact Or.inl rfl
    · cases run
      exact Or.inl rfl
  | getTips =>
    cases run
    exact Or.inl rfl
  | tips ids =>
    cases run
    exact Or.inl rfl
  | getSnapshot =>
    obtain ⟨snap, _, run⟩ := bind_eq_ok.mp run
    cases snap with
    | none =>
      cases run
      exact Or.inl rfl
    | some bytes =>
      cases run
      exact Or.inl rfl
  | snapshot bytes =>
    obtain ⟨⟨r, chain⟩, himport, run⟩ := bind_eq_ok.mp run
    cases run
    exact DagChain.importSnapshot_state himport

theorem acceptOne_state {input : Nat → AcceptInput} {s s' : Pass Tx} {block : DagBlock}
    (run : acceptOne env input s block = .ok s') : s'.chain.state = s.chain.state := by
  obtain ⟨⟨r, chain⟩, haccept, run⟩ := bind_eq_ok.mp run
  have hstate : chain.state = s.chain.state := DagChain.accept_state haccept
  cases r with
  | ok u =>
    cases run
    exact hstate
  | error e =>
    simp only at run
    split at run
    · cases run
      exact hstate
    · cases run
      exact hstate

theorem pass_state {input : Nat → AcceptInput} {s s' : Pass Tx} {pending : List DagBlock}
    (run : pending.foldlM (acceptOne env input) s = .ok s') : s'.chain.state = s.chain.state := by
  induction pending generalizing s with
  | nil =>
    cases run
    rfl
  | cons block pending ih =>
    rw [List.foldlM_cons] at run
    obtain ⟨s₁, hone, run⟩ := bind_eq_ok.mp run
    exact (ih run).trans (acceptOne_state hone)

theorem pendingLoop_state {input : Nat → AcceptInput} {fuel : Nat} {s s' : Pass Tx}
    {pending : List DagBlock} (run : pendingLoop env input fuel s pending = .ok s') :
    s'.chain.state = s.chain.state := by
  induction fuel generalizing s pending with
  | zero => cases run
  | succ fuel ih =>
    obtain ⟨s₁, hpass, run⟩ := bind_eq_ok.mp run
    have hstate := pass_state hpass
    by_cases hp : s₁.progress = true
    · simp only [if_pos hp] at run
      exact (ih run).trans hstate
    · simp only [if_neg hp] at run
      cases run
      exact hstate

theorem applyPending_state {input : Nat → AcceptInput} {relay : List DagBlock}
    (run : n.applyPending env input = .ok (n', relay)) : n'.chain.state = n.chain.state := by
  obtain ⟨s, hloop, run⟩ := bind_eq_ok.mp run
  cases run
  exact pendingLoop_state hloop

end DagNode

/-- A store that was opened in the state directory. -/
abbrev Db := Nat

/-- The DAG node with the handles of its state directory: that of the cached bank, that of what
it shares with the RPC server, and the clones that requests hold. -/
structure DagRun (Tx : Type) where
  server : DagServer Tx
  bank : Option Db
  accounts : Db
  readers : List Db
  opened : Nat

/-- What happens next: a request takes or returns the shared handle, or the node takes a step. -/
inductive RunEvent (Tx Peer : Type) where
  | read
  | release (db : Db)
  | event (event : DagEvent Tx Peer)

namespace DagRun

variable {Tx Peer : Type}

def chain (s : DagRun Tx) : DagChain Tx := s.server.node.chain

/-- The live handles. -/
def live (s : DagRun Tx) : List Db := s.bank.toList ++ s.accounts :: s.readers

/-- The node after a step, with the handle of a bank that the chain still has. -/
def withServer (s : DagRun Tx) (server : DagServer Tx) : DagRun Tx :=
  { s with server, bank := s.bank.filter fun _ => server.node.chain.state.isSome }

def withChain (s : DagRun Tx) (chain : DagChain Tx) : DagRun Tx :=
  s.withServer { s.server with node := { s.server.node with chain } }

/-- Opens the chain, computes its state and shares the store. -/
def start (env : Env Tx) (p : Params) (depth : Nat) (file : Bytes) :
    Result (Except String (DagRun Tx)) := do
  match ← DagServer.start env p depth file with
  | .error e => return .error e
  | .ok server => return .ok ⟨server, some 0, 0, [], 1⟩

section Loop

variable (locked : String) (env : Env Tx) (signature : Tx → Option Signature)

/-- `virtual_state`: it drops the cached bank before it opens the directory. -/
def virtualState (s : DagRun Tx) : Result (Except BankError Bank × DagRun Tx) := do
  let order ← s.chain.totalOrder
  let busy := !({ s with bank := none } : DagRun Tx).live.isEmpty
  let (r, chain) ← s.chain.virtualStateOn locked env busy
  if s.chain.canExtend order then return (r, s.withChain chain)
  else
    return (r, { s.withChain chain with
      bank := chain.state.map fun _ => s.opened
      opened := s.opened + 1 })

/-- `Shared::set_accounts`, with the store of the bank. -/
def setAccounts (s : DagRun Tx) : DagRun Tx := { s with accounts := s.bank.getD s.accounts }

def maintain (s : DagRun Tx) (io : Option ReplaceFault) : Result (DagRun Tx) := do
  match ← s.virtualState locked env with
  | (.error _, s) => return s
  | (.ok _, s) => do
      let (_, chain) ← s.chain.prune env io
      return s.withChain chain

/-- Mines the drained mempool, and shares the store of the new state when there is one. -/
def mine (s : DagRun Tx) (io : Option AppendFault) (timestamp : BitVec 64) :
    Result (Except String DagBlock × DagRun Tx) := do
  let (txs, shared) := s.server.shared.drainMempool signature
  let s := s.withServer { s.server with shared }
  match ← s.chain.mineAt env io txs timestamp with
  | (.error e, chain) => return (.error ("mine: " ++ e), s.withChain chain)
  | (.ok block, chain) => do
      let (r, s) ← (s.withChain chain).virtualState locked env
      let s := if r.isOk then s.setAccounts else s
      let order ← s.chain.totalOrder
      let shared := s.server.shared.advance (BitVec.ofNat 64 (order.length - 1)) envBlockhash
      return (.ok block, s.withServer
        { s.server with shared := shared.confirmAll signature (txs.map fun tx => (tx, none)) })

def step (s : DagRun Tx) : RunEvent Tx Peer → Result (DagRun Tx)
  | .read => return { s with readers := s.accounts :: s.readers }
  | .release db => return { s with readers := s.readers.erase db }
  | .event (.maintain io) => s.maintain locked env io
  | .event (.mine io timestamp) => do return (← s.mine locked env signature io timestamp).2
  | .event event => do return s.withServer (← s.server.step env signature event)

end Loop

/-- The node from a start on any log file, through any events. -/
inductive Serves (Peer : Type) (locked : String) (env : Env Tx)
    (signature : Tx → Option Signature) (p : Params) : DagRun Tx → Prop
  | start {file : Bytes} {depth : Nat} {s : DagRun Tx} (run : start env p depth file = .ok (.ok s)) :
      Serves Peer locked env signature p s
  | step {s s' : DagRun Tx} {event : RunEvent Tx Peer}
      (before : Serves Peer locked env signature p s)
      (run : s.step locked env signature event = .ok s') : Serves Peer locked env signature p s'

/-- When `virtual_state` wipes and reopens the state directory, no other handle is live. -/
def Exclusive (s : DagRun Tx) : Prop :=
  s.chain.Reopens → ({ s with bank := none } : DagRun Tx).live = []

variable {locked : String} {env : Env Tx} {signature : Tx → Option Signature} {p : Params}
  {s s' : DagRun Tx}

/-- The only live store is the first that was opened. -/
def Sole (s : DagRun Tx) : Prop := ∀ db ∈ s.live, db = 0

theorem mem_live {db : Db} : db ∈ s.live ↔ s.bank = some db ∨ db = s.accounts ∨ db ∈ s.readers := by
  simp [live, Option.mem_toList]

/-- A handle that the shared state holds is live, whatever becomes of the bank. -/
theorem exclusive_iff_not_reopens : s.Exclusive ↔ ¬s.chain.Reopens := by
  constructor
  · intro h hreopens
    have hshared : s.accounts ∈ ({ s with bank := none } : DagRun Tx).live :=
      mem_live.mpr (Or.inr (Or.inl rfl))
    rw [h hreopens] at hshared
    cases hshared
  · exact fun h hreopens => absurd hreopens h

theorem virtualState_eq {order : List Hash} (horder : s.chain.totalOrder = .ok order)
    {r : Except BankError Bank} {c : DagChain Tx}
    (hrun : s.chain.virtualStateOn locked env true = .ok (r, c)) :
    s.virtualState locked env = .ok (r, if s.chain.canExtend order then s.withChain c
      else { s.withChain c with
        bank := c.state.map fun _ => s.opened
        opened := s.opened + 1 }) := by
  rw [virtualState, horder]
  show (do let _ ← s.chain.virtualStateOn locked env true; _) = _
  rw [hrun]
  show (if _ then _ else _) = _
  split_ifs <;> rfl

theorem virtualState_cases {r : Except BankError Bank}
    (run : s.virtualState locked env = .ok (r, s')) :
    ∃ order c, s.chain.totalOrder = .ok order ∧
      s.chain.virtualStateOn locked env true = .ok (r, c) ∧
      s' = if s.chain.canExtend order then s.withChain c
        else { s.withChain c with
          bank := c.state.map fun _ => s.opened
          opened := s.opened + 1 } := by
  have h := run
  rw [virtualState] at h
  obtain ⟨order, horder, h⟩ := bind_eq_ok.mp h
  obtain ⟨⟨r', c⟩, hc, h⟩ := bind_eq_ok.mp h
  have heq := virtualState_eq horder hc
  rw [run] at heq
  cases heq
  exact ⟨order, c, horder, hc, rfl⟩

/-- A step opens no store: each handle after it is one that was live, and a bank that was lost is
not computed again. -/
structure Keeps (s s' : DagRun Tx) : Prop where
  live : s'.live ⊆ s.live
  lost : s.chain.state = none → s'.chain.state = none

theorem Keeps.refl (s : DagRun Tx) : Keeps s s := ⟨List.Subset.refl _, id⟩

theorem Keeps.trans {t : DagRun Tx} (h : Keeps s s') (h' : Keeps s' t) : Keeps s t :=
  ⟨List.Subset.trans h'.live h.live, fun hlost => h'.lost (h.lost hlost)⟩

theorem keeps_withServer {server : DagServer Tx}
    (h : server.node.chain.state = s.chain.state ∨ server.node.chain.state = none) :
    Keeps s (s.withServer server) := by
  constructor
  · intro db hdb
    rw [mem_live] at hdb ⊢
    rcases hdb with hbank | hrest
    · exact Or.inl (Option.eq_some_of_filter_eq_some hbank)
    · exact Or.inr hrest
  · intro hlost
    show server.node.chain.state = none
    rcases h with hsame | hnone
    · rw [hsame, hlost]
    · exact hnone

theorem keeps_setAccounts : Keeps s s.setAccounts := by
  refine ⟨fun db hdb => ?_, id⟩
  rw [mem_live] at hdb ⊢
  rcases hdb with hbank | hshared | hreader
  · exact Or.inl hbank
  · cases hbank : s.bank with
    | none =>
      rw [setAccounts, hbank] at hshared
      exact Or.inr (Or.inl hshared)
    | some bank =>
      rw [setAccounts, hbank] at hshared
      exact Or.inl (congrArg some hshared.symm)
  · exact Or.inr (Or.inr hreader)

/-- `virtual_state` keeps the store it has, or loses the bank. -/
theorem virtualState_keeps {r : Except BankError Bank}
    (run : s.virtualState locked env = .ok (r, s')) : Keeps s s' := by
  obtain ⟨order, c, horder, hc, rfl⟩ := virtualState_cases run
  cases hextend : s.chain.canExtend order with
  | true =>
    obtain ⟨bank, hbank, _⟩ := DagChain.canExtend_iff.mp hextend
    rw [if_pos rfl]
    constructor
    · intro db hdb
      rw [mem_live] at hdb ⊢
      rcases hdb with hbank | hrest
      · exact Or.inl (Option.eq_some_of_filter_eq_some hbank)
      · exact Or.inr hrest
    · intro hlost
      rw [hlost] at hbank
      cases hbank
  | false =>
    have hlost : c.state = none := DagChain.virtualStateOn_state horder hextend hc
    rw [if_neg Bool.false_ne_true, hlost]
    constructor
    · intro db hdb
      rw [mem_live] at hdb ⊢
      rcases hdb with hbank | hrest
      · cases hbank
      · exact Or.inr hrest
    · exact fun _ => hlost

theorem maintain_keeps {io : Option ReplaceFault} (run : s.maintain locked env io = .ok s') :
    Keeps s s' := by
  obtain ⟨⟨r, s₁⟩, hvirtual, run⟩ := bind_eq_ok.mp run
  have hkeeps := virtualState_keeps hvirtual
  cases r with
  | error e =>
    cases run
    exact hkeeps
  | ok bank =>
    obtain ⟨⟨_, chain⟩, hprune, run⟩ := bind_eq_ok.mp run
    cases run
    exact hkeeps.trans (keeps_withServer (DagChain.prune_state hprune))

theorem mine_keeps {io : Option AppendFault} {timestamp : BitVec 64} {r : Except String DagBlock}
    (run : s.mine locked env signature io timestamp = .ok (r, s')) : Keeps s s' := by
  obtain ⟨⟨r₁, chain⟩, hmine, run⟩ := bind_eq_ok.mp run
  let drained := s.withServer
    { s.server with shared := (s.server.shared.drainMempool signature).2 }
  have hdrained : Keeps s drained := keeps_withServer (Or.inl rfl)
  have hmined : Keeps s (drained.withChain chain) :=
    hdrained.trans (keeps_withServer (Or.inl (DagChain.mineAt_state hmine)))
  cases r₁ with
  | error e =>
    cases run
    exact hmined
  | ok block =>
    obtain ⟨⟨r₂, s₁⟩, hvirtual, run⟩ := bind_eq_ok.mp run
    obtain ⟨order, _, run⟩ := bind_eq_ok.mp run
    cases run
    have hcomputed := hmined.trans (virtualState_keeps hvirtual)
    refine Keeps.trans ?_ (keeps_withServer (Or.inl rfl))
    split_ifs
    · exact hcomputed.trans keeps_setAccounts
    · exact hcomputed

theorem receiveTx_node {server server' : DagServer Tx} {bytes : Bytes}
    (run : server.receiveTx env signature bytes = .ok server') : server'.node = server.node := by
  simp only [DagServer.receiveTx] at run
  split at run
  · cases run
    rfl
  · split at run
    · cases run
      rfl
    · split at run
      · cases run
        rfl
      · obtain ⟨shared, _, run⟩ := bind_eq_ok.mp run
        cases run
        rfl

theorem step_keeps {event : RunEvent Tx Peer} (run : s.step locked env signature event = .ok s') :
    Keeps s s' := by
  cases event with
  | read =>
    cases run
    refine ⟨fun db hdb => ?_, id⟩
    simp only [mem_live, List.mem_cons] at hdb ⊢
    tauto
  | release db =>
    cases run
    refine ⟨fun db' hdb => ?_, id⟩
    simp only [mem_live] at hdb ⊢
    rcases hdb with hbank | hshared | hreader
    · exact Or.inl hbank
    · exact Or.inr (Or.inl hshared)
    · exact Or.inr (Or.inr (List.mem_of_mem_erase hreader))
  | event event =>
    cases event with
    | maintain io => exact maintain_keeps run
    | mine io timestamp =>
      obtain ⟨⟨r, s₁⟩, hmine, run⟩ := bind_eq_ok.mp run
      cases run
      exact mine_keeps hmine
    | submit tx =>
      obtain ⟨server, hserver, run⟩ := bind_eq_ok.mp run
      cases run
      obtain ⟨shared, _, hserver⟩ := bind_eq_ok.mp hserver
      cases hserver
      exact keeps_withServer (Or.inl rfl)
    | receive io now peer msg =>
      obtain ⟨server, hserver, run⟩ := bind_eq_ok.mp run
      cases run
      obtain ⟨⟨node, out⟩, hreceive, hserver⟩ := bind_eq_ok.mp hserver
      cases hserver
      exact keeps_withServer (DagNode.receive_state hreceive)
    | receiveTx bytes =>
      obtain ⟨server, hserver, run⟩ := bind_eq_ok.mp run
      cases run
      have hnode : server.node = s.server.node := receiveTx_node hserver
      refine keeps_withServer (Or.inl ?_)
      rw [hnode]
      rfl
    | applyPending input =>
      obtain ⟨server, hserver, run⟩ := bind_eq_ok.mp run
      cases run
      obtain ⟨⟨node, relay⟩, hpending, hserver⟩ := bind_eq_ok.mp hserver
      cases hserver
      exact keeps_withServer (Or.inl (DagNode.applyPending_state hpending))

theorem start_sole {depth : Nat} {file : Bytes} (run : start env p depth file = .ok (.ok s)) :
    s.Sole := by
  obtain ⟨r, _, run⟩ := bind_eq_ok.mp run
  cases r with
  | error e => cases run
  | ok server =>
    cases run
    intro db hdb
    simpa [live] using hdb

/-- The store that the node opens at its start is the only one that it ever has open. -/
theorem Serves.sole (run : Serves Peer locked env signature p s) : s.Sole := by
  induction run with
  | start run => exact start_sole run
  | step before run ih => exact fun db hdb => ih db ((step_keeps run).live hdb)

/-- A run from one state of the node to another. -/
def Later (Peer : Type) (locked : String) (env : Env Tx) (signature : Tx → Option Signature) :
    DagRun Tx → DagRun Tx → Prop :=
  Relation.ReflTransGen fun s s' => ∃ event : RunEvent Tx Peer,
    s.step locked env signature event = .ok s'

/-- A node that has lost its bank has no state for the rest of its run. -/
theorem Later.lost (run : Later Peer locked env signature s s') (h : s.chain.state = none) :
    s'.chain.state = none := by
  induction run with
  | refl => exact h
  | tail before hstep ih =>
    obtain ⟨_, hstep⟩ := hstep
    exact (step_keeps hstep).lost ih

theorem virtualState_of_reopens (h : s.chain.Reopens) : ∃ s',
    s.virtualState locked env = .ok (.error (.storage locked), s') ∧ s'.chain.state = none := by
  have hfails : s.chain.virtualStateOn locked env true =
      .ok (.error (.storage locked), { s.chain with state := none }) :=
    DagChain.virtualStateOn_busy h
  obtain ⟨order, cp, horder, hextend, _⟩ := h
  refine ⟨_, virtualState_eq horder hfails, ?_⟩
  rw [hextend]
  rfl

theorem virtualState_of_not_reopens (h : ¬s.chain.Reopens) {r : Except BankError Bank}
    {c : DagChain Tx} (run : s.chain.virtualState env = .ok (r, c)) :
    ∃ s', s.virtualState locked env = .ok (r, s') ∧ s'.chain = c := by
  obtain ⟨order, horder, _⟩ := bind_eq_ok.mp run
  rw [← DagChain.virtualStateOn_of_not_reopens h] at run
  refine ⟨_, virtualState_eq horder run, ?_⟩
  split_ifs <;> rfl

/-- In every state of a run, `virtual_state` has the state directory to itself exactly when it
does not have to reopen it: the shared handle is always live. A call that has to reopen it fails,
and the node has no state from then on; any other call is that of the chain alone. -/
theorem Serves.exclusive_iff (run : Serves Peer locked env signature p s) :
    s.Sole ∧ (s.Exclusive ↔ ¬s.chain.Reopens) ∧
    (s.chain.Reopens → ∃ s', s.virtualState locked env = .ok (.error (.storage locked), s') ∧
      ∀ t, Later Peer locked env signature s' t → t.chain.state = none) ∧
    (¬s.chain.Reopens → ∀ r c, s.chain.virtualState env = .ok (r, c) →
      ∃ s', s.virtualState locked env = .ok (r, s') ∧ s'.chain = c) := by
  refine ⟨run.sole, exclusive_iff_not_reopens, fun h => ?_, fun h r c hrun => ?_⟩
  · obtain ⟨s', hfails, hlost⟩ := virtualState_of_reopens h
    exact ⟨s', hfails, fun t hlater => hlater.lost hlost⟩
  · exact virtualState_of_not_reopens h hrun

section Example

/-- A block that a peer has mined on the genesis. -/
private def rival : DagBlock :=
  easyBlock Blake3.hash [easyGenesis] (List.replicate 4 easyGenesis) 1750000010 []

/-- The node mines on the genesis, hears of the rival block, and accepts it. -/
private abbrev reorg : List (RunEvent Transaction Unit) :=
  [.event (.mine none 1750000020),
    .event (.receive none 1750000030 () (.newBlock (DagBlock.codec.encode rival))),
    .event (.applyPending fun _ => ⟨none, 1750000030⟩)]

private theorem serves_foldlM {events : List (RunEvent Tx Peer)}
    (h : Serves Peer locked env signature p s)
    (run : events.foldlM (step locked env signature) s = .ok s') :
    Serves Peer locked env signature p s' := by
  induction events generalizing s with
  | nil =>
    cases run
    exact h
  | cons event events ih =>
    rw [List.foldlM_cons] at run
    obtain ⟨s₁, hstep, run⟩ := bind_eq_ok.mp run
    exact ih (h.step hstep) run

private theorem serves_reorg : ∃ s : DagRun Transaction,
    Serves Unit "lock" transferEnv signatureBytes easyParams s ∧ s.chain.Reopens := by
  have hrun : returnsWith (start transferEnv easyParams 100 []) (fun r => returnsWith r fun s =>
      returnsWith (reorg.foldlM (step "lock" transferEnv signatureBytes) s) fun s =>
        returnsWith s.chain.totalOrder fun order =>
          decide (s.chain.canExtend order = false ∧ s.chain.checkpoint.isNone = true ∧
            s.chain.historyPruned = false)) = true := by
    decide +kernel
  simp only [returnsWith_iff, decide_eq_true_eq] at hrun
  obtain ⟨_, hstart, s₀, rfl, s, hsteps, order, horder, hextend, hcp, hpruned⟩ := hrun
  refine ⟨s, serves_foldlM (.start hstart) hsteps, order, none, horder, hextend, ?_, ?_⟩
  · rw [DagChain.matchingCheckpoint, Option.isNone_iff_eq_none.mp hcp]
    rfl
  · rintro - ⟨hlost, _⟩
    rw [hpruned] at hlost
    cases hlost

/-- After a reorganization the state directory is reopened while the shared handle is live. -/
theorem exclusive_reorg : ∃ s : DagRun Transaction,
    Serves Unit "lock" transferEnv signatureBytes easyParams s ∧ ¬s.Exclusive := by
  obtain ⟨s, run, h⟩ := serves_reorg
  exact ⟨s, run, fun hexclusive => exclusive_iff_not_reopens.mp hexclusive h⟩

/-- It fails there. -/
theorem exclusive_iff_reorg : ∃ s s' : DagRun Transaction,
    s.virtualState "lock" transferEnv = .ok (.error (.storage "lock"), s') := by
  obtain ⟨s, run, h⟩ := serves_reorg
  obtain ⟨s', hfails, _⟩ := run.exclusive_iff.2.2.1 h
  exact ⟨s, s', hfails⟩

end Example

end DagRun

end Node

end TaoDag
