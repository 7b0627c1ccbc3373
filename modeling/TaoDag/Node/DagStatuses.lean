import TaoDag.Node.DagServer
import TaoDag.Node.Statuses

namespace TaoDag.Node

open Consensus (Pubkey)
open Database (AppendFault ReplaceFault)
open Dagvm (DagChain Execution Params Succeeds envBlockhash)
open TaoDag.Runtime (Env Bank BankM run_bind_eq_ok)

variable {Tx Peer : Type} {env : Env Tx} {signature : Tx → Option Signature}

section Faithful

theorem executeTxs_faithful {bank bank' : Bank} {txs : List Tx} {log : List (Execution Tx)}
    (run : (DagChain.executeTxs env bank txs).run = .ok (.ok (log, bank'))) :
    ∀ e ∈ log, DagChain.Execution.Faithful env e := by
  induction txs generalizing bank log with
  | nil =>
    cases run
    exact fun e he => absurd he List.not_mem_nil
  | cons tx txs ih =>
    rw [DagChain.executeTxs] at run
    obtain ⟨⟨outcome, after⟩, htx, run⟩ := run_bind_eq_ok.mp run
    obtain ⟨⟨rest, last⟩, hrest, run⟩ := run_bind_eq_ok.mp run
    cases run
    intro e he
    rcases List.mem_cons.mp he with rfl | he
    · exact DagChain.executeTransaction_outcome htx
    · exact ih hrest e he

theorem executeBlock_faithful {c : DagChain Tx} {bank bank' : Bank} {block : Hash}
    {log : List (Execution Tx)}
    (run : (c.executeBlock env bank block).run = .ok (.ok (log, bank'))) :
    ∀ e ∈ log, DagChain.Execution.Faithful env e := by
  rw [DagChain.executeBlock] at run
  by_cases hg : block = c.genesisDag
  · rw [if_pos hg] at run
    cases run
    exact fun e he => absurd he List.not_mem_nil
  · rw [if_neg hg] at run
    obtain ⟨paid, _, run⟩ := run_bind_eq_ok.mp run
    exact executeTxs_faithful run

theorem executeBlocks_faithful {c : DagChain Tx} {bank bank' : Bank} {blocks : List Hash}
    {log : List (Execution Tx)}
    (run : (c.executeBlocks env bank blocks).run = .ok (.ok (log, bank'))) :
    ∀ e ∈ log, DagChain.Execution.Faithful env e := by
  induction blocks generalizing bank log with
  | nil =>
    cases run
    exact fun e he => absurd he List.not_mem_nil
  | cons block blocks ih =>
    rw [DagChain.executeBlocks] at run
    obtain ⟨⟨first, after⟩, hfirst, run⟩ := run_bind_eq_ok.mp run
    obtain ⟨⟨rest, last⟩, hrest, run⟩ := run_bind_eq_ok.mp run
    cases run
    intro e he
    rcases List.mem_append.mp he with he | he
    · exact executeBlock_faithful hfirst e he
    · exact ih hrest e he

/-- What extends a faithful history by the executions of a replay is faithful. -/
theorem faithful_append_logOf {done : List (Execution Tx)} {c : DagChain Tx} {bank : Bank}
    {blocks : List Hash} (h : ∀ e ∈ done, DagChain.Execution.Faithful env e) :
    ∀ e ∈ done ++ logOf (c.executeBlocks env bank blocks), DagChain.Execution.Faithful env e := by
  intro e he
  rcases List.mem_append.mp he with he | he
  · exact h e he
  · unfold logOf at he
    split at he
    · rename_i log bank' hrun
      exact executeBlocks_faithful hrun e he
    · exact absurd he List.not_mem_nil

end Faithful

namespace Lineage

variable {g : Lineage Tx} {c c' : DagChain Tx}

/-- Every execution on record is as the SVM decided it. -/
structure Faithful (env : Env Tx) (g : Lineage Tx) : Prop where
  base : ∀ e ∈ g.base, DagChain.Execution.Faithful env e
  checkpoint : ∀ e ∈ g.checkpoint, DagChain.Execution.Faithful env e
  state : ∀ e ∈ g.state, DagChain.Execution.Faithful env e

theorem faithful_new : Faithful env (new : Lineage Tx) :=
  ⟨fun _ he => absurd he List.not_mem_nil, fun _ he => absurd he List.not_mem_nil,
    fun _ he => absurd he List.not_mem_nil⟩

theorem Faithful.toOrder (h : Faithful env g) (order : List Hash) :
    ∀ e ∈ g.toOrder env c order, DagChain.Execution.Faithful env e := by
  unfold Lineage.toOrder
  split
  · exact faithful_append_logOf h.state
  · split
    · exact faithful_append_logOf h.checkpoint
    · exact faithful_append_logOf h.base

theorem Faithful.toCheckpoint (h : Faithful env g) (target : Nat) :
    ∀ e ∈ g.toCheckpoint env c target, DagChain.Execution.Faithful env e := by
  unfold Lineage.toCheckpoint
  split
  · exact faithful_append_logOf h.checkpoint
  · exact faithful_append_logOf h.base

theorem Faithful.toPruned (h : Faithful env g) :
    ∀ e ∈ g.toPruned env c, DagChain.Execution.Faithful env e := by
  have hnil : ∀ e ∈ ([] : List (Execution Tx)), DagChain.Execution.Faithful env e :=
    fun e he => absurd he List.not_mem_nil
  unfold Lineage.toPruned
  split
  · exact hnil
  · split
    · dsimp only
      split_ifs
      · split
        · exact hnil
        · exact faithful_append_logOf h.checkpoint
      · split
        · exact faithful_append_logOf h.base
        · exact faithful_append_logOf h.base
    · exact hnil

theorem Faithful.virtualState (h : Faithful env g) : Faithful env (g.virtualState env c) := by
  unfold Lineage.virtualState
  split
  · exact h
  · split
    · dsimp only
      split
      · split_ifs
        · exact ⟨h.base, h.checkpoint, h.toOrder _⟩
        · exact ⟨h.base, h.toCheckpoint _, h.toOrder _⟩
      · exact ⟨h.base, h.checkpoint, h.toOrder _⟩
    · exact h

theorem Faithful.reanchored (h : Faithful env g) {base : List (Execution Tx)}
    (hbase : ∀ e ∈ base, DagChain.Execution.Faithful env e) :
    Faithful env (g.reanchored c c' base) := by
  unfold Lineage.reanchored
  split_ifs
  · exact h
  · exact ⟨hbase, fun _ he => absurd he List.not_mem_nil, h.state⟩

theorem Faithful.maintain (h : Faithful env g) (io : Option ReplaceFault) :
    Faithful env (g.maintain env c io) := by
  have hsettled : Faithful env (g.virtualState env c) := h.virtualState
  unfold Lineage.maintain
  dsimp only
  split
  · split
    · exact hsettled.reanchored hsettled.toPruned
    · exact hsettled
  · exact hsettled

theorem Faithful.step (h : Faithful env g) (s : DagServer Tx) (event : DagEvent Tx Peer) :
    Faithful env (g.step env signature s event) := by
  cases event with
  | receive io now peer msg =>
    simp only [Lineage.step]
    split
    · exact h.reanchored fun _ he => absurd he List.not_mem_nil
    · exact h
  | maintain io => exact h.maintain io
  | mine io timestamp =>
    simp only [Lineage.step]
    split
    · exact h.virtualState
    · exact h
  | submit _ | receiveTx _ | applyPending _ => exact h

/-- The state of a chain whose order only grows keeps its executions. -/
theorem mem_virtualState {bank : Bank} {order : List Hash} {e : Execution Tx}
    (hstate : c.state = some bank) (horder : c.totalOrder = .ok order)
    (hextends : c.executed <+: order) (he : e ∈ g.state) : e ∈ (g.virtualState env c).state := by
  have htoOrder : e ∈ g.toOrder env c order := by
    simp only [Lineage.toOrder, hstate, decide_eq_true hextends]
    exact List.mem_append_left _ he
  simp only [Lineage.virtualState, horder]
  split
  · split
    · split_ifs
      · exact htoOrder
      · exact htoOrder
    · exact htoOrder
  · exact he

theorem reanchored_state (g : Lineage Tx) (base : List (Execution Tx)) :
    (g.reanchored c c' base).state = g.state := by
  unfold Lineage.reanchored
  split_ifs
  · rfl
  · rfl

theorem maintain_state (io : Option ReplaceFault) :
    (g.maintain env c io).state = (g.virtualState env c).state := by
  unfold Lineage.maintain
  dsimp only
  split
  · split
    · exact reanchored_state _ _
    · rfl
  · rfl

end Lineage

/-- Whether a transaction with this first signature has succeeded. -/
def Succeeded (signature : Tx → Option Signature) (done : List (Execution Tx)) (sig : Signature) :
    Prop :=
  ∃ e ∈ done, signature e.tx = some sig ∧ e.outcome.succeeded = true

namespace DagServer

variable {p : Params} {s s' : DagServer Tx} {g : Lineage Tx}

/-- The next `virtual_state` undoes no success that is on record: it continues the state that is
cached, or what succeeded before and has a status succeeds again. -/
def Renews (env : Env Tx) (signature : Tx → Option Signature) (shared : Shared Tx)
    (c : DagChain Tx) (g : Lineage Tx) : Prop :=
  (∃ bank order, c.state = some bank ∧ c.totalOrder = .ok order ∧ c.executed <+: order) ∨
    ∀ sig, (shared.signatureStatus sig).isSome → Succeeded signature g.state sig →
      Succeeded signature (g.virtualState env c).state sig

/-- An event after which the statuses are still true. No reorganization undoes a success, and
every transaction that is mined succeeds in the state after its block. -/
def Sound (env : Env Tx) (signature : Tx → Option Signature) (s : DagServer Tx) (g : Lineage Tx) :
    DagEvent Tx Peer → Prop
  | .maintain _ => Renews env signature s.shared s.node.chain g
  | .mine io timestamp =>
      let txs := (s.shared.drainMempool signature).1
      ∀ block c, s.node.chain.mineAt env io txs timestamp = .ok (.ok block, c) →
        Renews env signature s.shared c g ∧ ∀ tx ∈ txs, ∀ sig, signature tx = some sig →
          Succeeded signature (g.virtualState env c).state sig
  | _ => True

/-- The node from a start on any log file, with the lineage of its state, through sound events. -/
inductive Serves (Peer : Type) (env : Env Tx) (signature : Tx → Option Signature) (p : Params) :
    DagServer Tx → Lineage Tx → Prop
  | start {file : Bytes} {depth : Nat} {c : DagChain Tx} {s : DagServer Tx}
      (opened : DagChain.openWithGenesis env p file = .ok (.ok c))
      (run : start env p depth file = .ok (.ok s)) :
      Serves Peer env signature p s (Lineage.new.virtualState env (c.setFinalityDepth depth))
  | step {s s' : DagServer Tx} {g : Lineage Tx} {event : DagEvent Tx Peer}
      (before : Serves Peer env signature p s g) (sound : s.Sound env signature g event)
      (run : s.step env signature event = .ok s') :
      Serves Peer env signature p s' (g.step env signature s event)

theorem Serves.faithful (run : Serves Peer env signature p s g) : g.Faithful env := by
  induction run with
  | start _ _ => exact Lineage.faithful_new.virtualState
  | step _ _ _ ih => exact ih.step _ _

/-- Whatever has a success for its status has succeeded. -/
def Real (signature : Tx → Option Signature) (shared : Shared Tx) (g : Lineage Tx) : Prop :=
  ∀ sig, shared.signatureStatus sig = some none → Succeeded signature g.state sig

theorem Real.renew {shared : Shared Tx} {c : DagChain Tx} (h : Real signature shared g)
    (hrenews : Renews env signature shared c g) :
    Real signature shared (g.virtualState env c) := by
  intro sig hsig
  rcases hrenews with ⟨bank, order, hstate, horder, hextends⟩ | hagain
  · obtain ⟨e, he, hsucceeded⟩ := h sig hsig
    exact ⟨e, Lineage.mem_virtualState hstate horder hextends he, hsucceeded⟩
  · exact hagain sig (Option.isSome_of_eq_some hsig) (h sig hsig)

theorem Real.of_status {shared shared' : Shared Tx} (h : Real signature shared g)
    (heq : ∀ sig, shared'.signatureStatus sig = shared.signatureStatus sig) :
    Real signature shared' g := by
  intro sig hsig
  rw [heq] at hsig
  exact h sig hsig

theorem Real.of_state {shared : Shared Tx} {g' : Lineage Tx} (h : Real signature shared g)
    (heq : g'.state = g.state) : Real signature shared g' := by
  intro sig hsig
  rw [heq]
  exact h sig hsig

theorem Real.mine (h : Real signature s.shared g) {io : Option AppendFault}
    {timestamp : BitVec 64} {r : Except String (List (Outgoing Peer))}
    (hsound : s.Sound env signature g (.mine io timestamp : DagEvent Tx Peer))
    (run : s.mine env signature io timestamp = .ok (r, s')) :
    Real signature s'.shared
      (g.step env signature s (.mine io timestamp : DagEvent Tx Peer)) := by
  obtain ⟨⟨ended, node⟩, hmine, run⟩ := bind_eq_ok.mp run
  obtain ⟨⟨mined, c⟩, hmined, hmine⟩ := bind_eq_ok.mp hmine
  have hmined : s.node.chain.mineAt env io (s.shared.drainMempool signature).1 timestamp =
      .ok (mined, c) := hmined
  simp only [Lineage.step, hmined]
  cases mined with
  | error e =>
    cases hmine
    cases run
    exact h
  | ok block =>
    obtain ⟨⟨computed, chain⟩, _, hmine⟩ := bind_eq_ok.mp hmine
    cases hmine
    obtain ⟨order, _, run⟩ := bind_eq_ok.mp run
    cases run
    obtain ⟨hrenews, hsucceed⟩ := hsound block c hmined
    intro sig hsig
    rcases Shared.signatureStatus_confirmAll hsig with ⟨q, hq, hsigned, _⟩ | hold
    · obtain ⟨tx, htx, rfl⟩ := List.mem_map.mp hq
      exact hsucceed tx htx sig hsigned
    · exact h.renew hrenews sig hold

theorem Real.step (h : Real signature s.shared g) {event : DagEvent Tx Peer}
    (hsound : s.Sound env signature g event) (run : s.step env signature event = .ok s') :
    Real signature s'.shared (g.step env signature s event) := by
  cases event with
  | submit tx =>
    obtain ⟨shared, hsubmit, run⟩ := bind_eq_ok.mp run
    cases run
    exact h.of_status (LinearNode.submit_sigStatus hsubmit)
  | receive io now peer msg =>
    obtain ⟨⟨node, out⟩, hreceive, run⟩ := bind_eq_ok.mp run
    cases run
    simp only [Lineage.step, hreceive]
    exact h.of_state (Lineage.reanchored_state _ _)
  | receiveTx bytes =>
    simp only [DagServer.step, receiveTx] at run
    split at run
    · cases run
      exact h
    · split at run
      · cases run
        exact h
      · split_ifs at run
        · cases run
          exact h
        · obtain ⟨shared, hsubmit, run⟩ := bind_eq_ok.mp run
          cases run
          exact h.of_status (LinearNode.submit_sigStatus hsubmit)
  | applyPending input =>
    obtain ⟨⟨node, relay⟩, _, run⟩ := bind_eq_ok.mp run
    cases run
    exact h
  | maintain io =>
    obtain ⟨node, _, run⟩ := bind_eq_ok.mp run
    cases run
    exact (h.renew hsound).of_state (Lineage.maintain_state io)
  | mine io timestamp =>
    obtain ⟨⟨r, after⟩, hmine, run⟩ := bind_eq_ok.mp run
    cases run
    exact h.mine hsound hmine

theorem Serves.real (run : Serves Peer env signature p s g) : Real signature s.shared g := by
  induction run with
  | start _ hstart =>
    obtain ⟨r, _, hstart⟩ := bind_eq_ok.mp hstart
    cases r with
    | error e => cases hstart
    | ok chain =>
      obtain ⟨⟨computed, chain⟩, _, hstart⟩ := bind_eq_ok.mp hstart
      cases computed with
      | error e => cases hstart
      | ok bank =>
        obtain ⟨order, _, hstart⟩ := bind_eq_ok.mp hstart
        cases hstart
        intro sig hsig
        cases hsig
  | step _ hsound hstep ih => exact ih.step hsound hstep

end DagServer

/-- Reported success is real. On the linear node, always: it has executed the transaction with
success since its start. On the DAG node, through sound events: the SVM ran the transaction to its
end on the way to the state computed last. -/
theorem status_real (env : Env Tx) (signature : Tx → Option Signature) :
    (∀ (g : GenesisConfig) (miner : Pubkey) (pow : Consensus.BlockHeader → Bool) (file : Bytes)
      (m : Miner) (slot : BitVec 64) (blockhash : Hash) (n : LinearNode Tx),
      prepare env g miner pow file = .ok (.ok m) →
      LinearNode.Serves env signature ⟨m, Shared.new slot blockhash⟩ n →
      ∃ done, Executed env m.bank done n.miner.bank ∧
        ∀ sig, n.shared.signatureStatus sig = some none →
          ∃ p ∈ done, signature p.1 = some sig ∧ p.2.succeeded = true) ∧
    ∀ (p : Params) (s : DagServer Tx) (g : Lineage Tx),
      DagServer.Serves Peer env signature p s g →
      ∀ sig, s.shared.signatureStatus sig = some none →
        ∃ e ∈ g.state, signature e.tx = some sig ∧
          Succeeds (env.svm envBlockhash e.before.db.get e.tx) := by
  constructor
  · intro g miner pow file m slot blockhash n _ run
    exact run.real
  · intro p s g run sig hsig
    obtain ⟨e, he, hsigned, hsucceeded⟩ := run.real sig hsig
    exact ⟨e, he, hsigned, (run.faithful.state e he).mp hsucceeded⟩

section Example

open Dagvm (easyParams fundedParams signedTransfer)
open TaoDag.Runtime (Transaction transferEnv)

/-- What the node is about to do with the transfer: take it over RPC, and mine it. -/
abbrev submitTransfer : DagEvent Transaction Unit := .submit signedTransfer

abbrev mineTransfer : DagEvent Transaction Unit := .mine none 1750000010

/-- A funded transfer that the DAG node mines is reported as a success, and is one. -/
theorem status_real_funded : ∃ (s : DagServer Transaction) (g : Lineage Transaction)
    (sig : Signature), DagServer.Serves Unit transferEnv signatureBytes fundedParams s g ∧
    s.shared.signatureStatus sig = some none ∧ ∃ e ∈ g.state, signatureBytes e.tx = some sig ∧
      Succeeds (transferEnv.svm envBlockhash e.before.db.get e.tx) := by
  have hrun : (signatureBytes signedTransfer).any (fun sig =>
      returnsWith (DagChain.openWithGenesis transferEnv fundedParams []) fun o =>
        returnsWith o fun c =>
          returnsWith (DagServer.start transferEnv fundedParams 100 []) fun r =>
            returnsWith r fun s₀ =>
              returnsWith (s₀.step transferEnv signatureBytes submitTransfer) fun s₁ =>
                returnsWith (s₁.step transferEnv signatureBytes mineTransfer) fun s₂ =>
                  let g := Lineage.new.virtualState transferEnv (c.setFinalityDepth 100)
                  let txs := (s₁.shared.drainMempool signatureBytes).1
                  decide (s₂.shared.signatureStatus sig = some none ∧ txs = [signedTransfer]) &&
                  returnsWith (s₁.node.chain.mineAt transferEnv none txs 1750000010) fun mined =>
                    mined.2.state.any (fun _ => returnsWith mined.2.totalOrder fun order =>
                      decide (mined.2.executed <+: order)) &&
                    (g.virtualState transferEnv mined.2).state.any fun e =>
                      decide (signatureBytes e.tx = some sig ∧ e.outcome.succeeded = true)) =
      true := by
    decide +kernel
  simp only [returnsWith_iff, Option.any_eq_true, List.any_eq_true, Bool.and_eq_true,
    decide_eq_true_eq] at hrun
  obtain ⟨sig, hsigned, _, hopen, c, rfl, _, hstart, s₀, rfl, s₁, hsubmit, s₂, hmine,
    ⟨hstatus, htxs⟩, ⟨mined, chain⟩, hmined, ⟨bank, hstate, order, horder, hextends⟩, e, he,
    hsucceeded⟩ := hrun
  have hsound : s₁.Sound transferEnv signatureBytes
      ((Lineage.new.virtualState transferEnv (c.setFinalityDepth 100)).step transferEnv
        signatureBytes s₀ submitTransfer) mineTransfer := by
    intro block c₁ hc₁
    cases hmined.symm.trans hc₁
    refine ⟨Or.inl ⟨bank, order, hstate, horder, hextends⟩, fun tx htx other hother => ?_⟩
    rw [htxs] at htx
    obtain rfl := List.mem_singleton.mp htx
    cases hsigned.symm.trans hother
    exact ⟨e, he, hsucceeded⟩
  have hstarted : DagServer.Serves Unit transferEnv signatureBytes fundedParams s₀ _ :=
    .start hopen hstart
  have hsubmitted : s₀.Sound transferEnv signatureBytes
      (Lineage.new.virtualState transferEnv (c.setFinalityDepth 100)) submitTransfer := trivial
  have run := (hstarted.step hsubmitted hsubmit).step hsound hmine
  exact ⟨s₂, _, sig, run, hstatus,
    (status_real transferEnv signatureBytes).2 fundedParams s₂ _ run sig hstatus⟩

/-- A transfer that nobody has funded is mined, fails, and is reported as a success. -/
theorem status_unreal : ∃ (c : DagChain Transaction) (s₀ s₁ s₂ : DagServer Transaction)
    (sig : Signature),
    DagChain.openWithGenesis transferEnv easyParams [] = .ok (.ok c) ∧
    DagServer.start transferEnv easyParams 100 [] = .ok (.ok s₀) ∧
    s₀.step transferEnv signatureBytes submitTransfer = .ok s₁ ∧
    s₁.step transferEnv signatureBytes mineTransfer = .ok s₂ ∧
    s₂.shared.signatureStatus sig = some none ∧
    ¬Succeeded signatureBytes
      ((Lineage.new.virtualState transferEnv (c.setFinalityDepth 100)).step transferEnv
        signatureBytes s₁ mineTransfer).state sig := by
  have hrun : (signatureBytes signedTransfer).any (fun sig =>
      returnsWith (DagChain.openWithGenesis transferEnv easyParams []) fun o =>
        returnsWith o fun c =>
          returnsWith (DagServer.start transferEnv easyParams 100 []) fun r =>
            returnsWith r fun s₀ =>
              returnsWith (s₀.step transferEnv signatureBytes submitTransfer) fun s₁ =>
                returnsWith (s₁.step transferEnv signatureBytes mineTransfer) fun s₂ =>
                  let g := Lineage.new.virtualState transferEnv (c.setFinalityDepth 100)
                  decide (s₂.shared.signatureStatus sig = some none) &&
                  (g.step transferEnv signatureBytes s₁ mineTransfer).state.all fun e =>
                    decide (e.outcome.succeeded = false)) = true := by
    decide +kernel
  simp only [returnsWith_iff, Option.any_eq_true, List.all_eq_true, Bool.and_eq_true,
    decide_eq_true_eq] at hrun
  obtain ⟨sig, _, _, hopen, c, rfl, _, hstart, s₀, rfl, s₁, hsubmit, s₂, hmine, hstatus,
    hfailed⟩ := hrun
  refine ⟨c, s₀, s₁, s₂, sig, hopen, hstart, hsubmit, hmine, hstatus, ?_⟩
  rintro ⟨e, he, _, hsucceeded⟩
  cases (hfailed e he).symm.trans hsucceeded

end Example

end TaoDag.Node
