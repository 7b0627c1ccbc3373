import TaoDag.Dagvm.Anchored
import TaoDag.Dagvm.Execution
import TaoDag.Dagvm.Heaviest
import TaoDag.Dagvm.StateReplay

namespace TaoDag.Dagvm

open Consensus (DagBlock DagBlockHeader Pubkey)
open Database (Account AccountsDb)
open TaoDag.Runtime (Bank BankError BankM Env SameOutcome run_bind_eq run_bind_eq_ok run_bind_of_ok
  run_lift_eq)
open TaoDag.Runtime.Bank (KeepsInstalled Restorable Same)

namespace DagChain

variable {Tx : Type} {env : Env Tx} {c c' : DagChain Tx} {pre order rest : List Hash} {T : Bank}

/-- The whole transaction history below the order is gone. -/
def HistoryLost (c : DagChain Tx) : Prop := c.historyPruned = true ∧ c.baseAccounts.isNone = true

/-- `T` is the state after the checkpointed blocks `pre`, or the genesis state where there is no
checkpoint, and the cached bank the state after the executed blocks. -/
structure Settled (env : Env Tx) (c : DagChain Tx) (pre : List Hash) (T : Bank) : Prop where
  anchored : Anchored env c
  funded : FundedGenesis env c
  restorable : Restorable env T
  order : ∀ {o}, c.totalOrder = .ok o → pre <+: o
  known : ∀ x ∈ pre, x ∈ c.engine.dag.blocks
  bare : c.checkpoint = none → pre = [] ∧ Same T (c.freshBank env) ∧ ¬c.HistoryLost
  checkpoint : ∀ {cp}, c.checkpoint = some cp →
    cp.len = pre.length ∧ pre.getLast? = some cp.lastId ∧ cp.accounts = T.db.dump
  genesis : ¬c.HistoryLost →
    ∃ b, (c.replayBlocks env (c.freshBank env) pre).run = .ok (.ok b) ∧ Same b T
  executed : c.executed = [] ∨ pre <+: c.executed
  state : ∀ {bank}, c.state = some bank → Restorable env bank ∧ ∃ rest b,
    c.executed = pre ++ rest ∧ (∀ x ∈ rest, x ∈ c.engine.dag.blocks) ∧
    (c.replayBlocks env T rest).run = .ok (.ok b) ∧ Same bank b

/-- A chain that has cached nothing. -/
theorem settled_of_uncached (hanchored : Anchored env c) (hfunded : FundedGenesis env c)
    (hcheckpoint : c.checkpoint = none) (hstate : c.state = none) (hexecuted : c.executed = [])
    (hlost : ¬c.HistoryLost) :
    Settled env c [] (c.freshBank env) where
  anchored := hanchored
  funded := hfunded
  restorable := hfunded.freshBank
  order := fun _ => List.nil_prefix
  known := fun x hx => absurd hx List.not_mem_nil
  bare := fun _ => ⟨rfl, Same.refl _, hlost⟩
  checkpoint := fun hcp => by
    rw [hcheckpoint] at hcp
    cases hcp
  genesis := fun _ => ⟨_, rfl, Same.refl _⟩
  executed := Or.inl hexecuted
  state := fun hbank => by
    rw [hstate] at hbank
    cases hbank

/-- Every block of the order is in the engine. -/
theorem Anchored.order_known (h : Anchored env c) (ho : c.totalOrder = .ok order) :
    ∀ x ∈ order, x ∈ c.engine.dag.blocks := by
  obtain ⟨hlists, _⟩ := h.rooted.totalOrder.post ho
  obtain ⟨hready, hbest⟩ := h.rooted.grown.ready_best
  exact fun x hx => hready.index.dag.mem_of_reach ((hlists.mem x).mp hx).1 hbest.mem

/-- The log and the finality depth are not looked at, and the cached bank may be dropped. -/
theorem Settled.reframe (h : Settled env c pre T) (log : Database.BlockLog) (finalityDepth : Nat)
    {state : Option Bank} (hstate : ∀ bank, state = some bank → c.state = some bank) :
    Settled env { c with log, finalityDepth, state } pre T where
  anchored := h.anchored.of_eq rfl rfl rfl rfl rfl
  funded := h.funded
  restorable := h.restorable
  order := h.order
  known := h.known
  bare := h.bare
  checkpoint := h.checkpoint
  genesis := h.genesis
  executed := h.executed
  state := fun hbank => h.state (hstate _ hbank)

section VirtualState

variable {bank : Bank}

/-- The checkpoint is at its place in the order. -/
theorem Settled.matchingCheckpoint (h : Settled env c pre T) (ho : c.totalOrder = .ok order)
    {cp : Checkpoint} (hcp : c.checkpoint = some cp) :
    c.matchingCheckpoint order = .ok (some cp) := by
  obtain ⟨hlen, hlast, _⟩ := h.checkpoint hcp
  obtain ⟨rest, rfl⟩ := h.order ho
  have hne : pre ≠ [] := by
    rintro rfl
    cases hlast
  have hpos : 0 < pre.length := List.length_pos_of_ne_nil hne
  have hget : (pre ++ rest)[cp.len - 1]? = some cp.lastId := by
    rw [hlen, List.getElem?_append_left (by omega), ← List.getLast?_eq_getElem?, hlast]
  have hle : cp.len ≤ (pre ++ rest).length := by
    rw [hlen, List.length_append]
    omega
  have hsub : subU64 cp.len 1 = .ok (cp.len - 1) := by
    rw [subU64, if_pos (by omega)]
  rw [DagChain.matchingCheckpoint, hcp]
  simp only [if_pos hle, hsub, bind, Except.bind, hget, expect, if_true]
  rfl

/-- The bank for an order that does not extend the executed one. -/
def scratchBank (env : Env Tx) (c : DagChain Tx) (order : List Hash) : BankM Bank := do
  match ← c.matchingCheckpoint order with
  | some cp => c.replayBlocks env (c.restoreCheckpoint env cp) (order.drop cp.len)
  | none =>
      if c.historyPruned ∧ c.baseAccounts.isNone then
        throw (.storage "reorg below pruned history (deeper than finality)")
      else c.replayBlocks env (c.freshBank env) order

theorem virtualBank_extends (hbank : c.state = some bank) (hexecuted : c.executed <+: order) :
    c.virtualBank env order = c.replayBlocks env bank (order.drop c.executed.length) := by
  rw [DagChain.virtualBank, hbank, decide_eq_true hexecuted]

theorem virtualBank_scratch (h : ∀ bank, c.state = some bank → ¬c.executed <+: order) :
    c.virtualBank env order = c.scratchBank env order := by
  rw [DagChain.virtualBank]
  cases hs : c.state with
  | none => rfl
  | some bank =>
    rw [decide_eq_false (h bank hs)]
    rfl

theorem scratchBank_of_match {cp : Checkpoint} (h : c.matchingCheckpoint order = .ok (some cp)) :
    c.scratchBank env order =
      c.replayBlocks env (c.restoreCheckpoint env cp) (order.drop cp.len) := by
  rw [scratchBank, h]
  rfl

theorem scratchBank_of_none (h : c.matchingCheckpoint order = .ok none) (hlost : ¬c.HistoryLost) :
    c.scratchBank env order = c.replayBlocks env (c.freshBank env) order := by
  rw [scratchBank, h]
  exact if_neg hlost

theorem Settled.restoreCheckpoint (h : Settled env c pre T) {cp : Checkpoint}
    (hcp : c.checkpoint = some cp) :
    Same (c.restoreCheckpoint env cp) T ∧ Restorable env (c.restoreCheckpoint env cp) := by
  obtain ⟨hsame, hexact⟩ := same_restoreCheckpoint (c := c) h.restorable (h.checkpoint hcp).2.2
  exact ⟨hsame, h.restorable.of_same hsame hexact⟩

theorem Settled.scratchBank (hsvm : KeepsInstalled env) (h : Settled env c pre T)
    (ho : c.totalOrder = .ok order) :
    SameOutcome Same (c.scratchBank env order).run
      (c.replayBlocks env T (order.drop pre.length)).run ∧
    ∀ bank, (c.scratchBank env order).run = .ok (.ok bank) → Restorable env bank := by
  cases hcp : c.checkpoint with
  | none =>
    obtain ⟨rfl, hsame, hlost⟩ := h.bare hcp
    have hmatch : c.matchingCheckpoint order = .ok none := by
      rw [DagChain.matchingCheckpoint, hcp]
      rfl
    rw [scratchBank_of_none hmatch hlost]
    exact ⟨Same.replayBlocks hsame.symm order,
      fun bank hbank => Restorable.replayBlocks hsvm h.funded.freshBank hbank⟩
  | some cp =>
    obtain ⟨hsame, hrestorable⟩ := h.restoreCheckpoint hcp
    rw [scratchBank_of_match (h.matchingCheckpoint ho hcp), (h.checkpoint hcp).1]
    exact ⟨Same.replayBlocks hsame _, fun bank hbank => Restorable.replayBlocks hsvm hrestorable hbank⟩

/-- What `virtual_state` returns: the state after `pre`, with the rest of the order run on it. -/
theorem Settled.virtualBank (hsvm : KeepsInstalled env) (h : Settled env c pre T)
    (ho : c.totalOrder = .ok order) :
    SameOutcome Same (c.virtualBank env order).run
      (c.replayBlocks env T (order.drop pre.length)).run ∧
    ∀ bank, (c.virtualBank env order).run = .ok (.ok bank) → Restorable env bank := by
  by_cases hext : ∃ bank, c.state = some bank ∧ c.executed <+: order
  · obtain ⟨bank, hbank, rest, rfl⟩ := hext
    obtain ⟨hrestorable, done, b, hexecuted, _, hrun, hsame⟩ := h.state hbank
    rw [virtualBank_extends hbank (List.prefix_append _ _), List.drop_left]
    refine ⟨?_, fun bank hrun => Restorable.replayBlocks hsvm hrestorable hrun⟩
    have hdrop : (c.executed ++ rest).drop pre.length = done ++ rest := by
      rw [hexecuted, List.append_assoc, List.drop_left]
    rw [hdrop, replayBlocks_from rest hrun]
    exact Same.replayBlocks hsame rest
  · rw [virtualBank_scratch fun bank hbank hexecuted => hext ⟨bank, hbank, hexecuted⟩]
    exact h.scratchBank hsvm ho

/-- The state of the whole order is cached. -/
theorem Settled.cached (h : Settled env c pre T) (ho : c.totalOrder = .ok order) {b : Bank}
    (hbank : Restorable env bank)
    (hrun : (c.replayBlocks env T (order.drop pre.length)).run = .ok (.ok b)) (hsame : Same bank b) :
    Settled env { c with state := some bank, executed := order } pre T := by
  have hprefix := h.order ho
  obtain ⟨rest, rfl⟩ := hprefix
  rw [List.drop_left] at hrun
  have hknown := h.anchored.order_known ho
  exact
    { anchored := h.anchored.of_eq rfl rfl rfl rfl rfl
      funded := h.funded
      restorable := h.restorable
      order := h.order
      known := h.known
      bare := h.bare
      checkpoint := h.checkpoint
      genesis := h.genesis
      executed := Or.inr (List.prefix_append _ _)
      state := fun {bank'} hbank' => by
        cases hbank'
        exact ⟨hbank, rest, b, rfl, fun x hx => hknown x (List.mem_append_right _ hx), hrun, hsame⟩ }

/-- How a new checkpoint is computed: from the one before it, or from genesis. -/
theorem Settled.advanceCheckpoint (h : Settled env c pre T) (target : Nat) : ∃ start,
    Same start T ∧ Restorable env start ∧
    c.advanceCheckpoint env target =
      (c.replayBlocks env start ((c.executed.take target).drop pre.length) >>= fun bank => do
        let lastId ← (expect "index out of bounds" c.executed[target - 1]? : Result Hash)
        return ⟨target, lastId, bank.db.dump⟩) := by
  cases hcp : c.checkpoint with
  | none =>
    obtain ⟨rfl, hsame, _⟩ := h.bare hcp
    refine ⟨c.freshBank env, hsame.symm, h.funded.freshBank, ?_⟩
    rw [DagChain.advanceCheckpoint, hcp]
    rfl
  | some cp =>
    obtain ⟨hsame, hrestorable⟩ := h.restoreCheckpoint hcp
    refine ⟨c.restoreCheckpoint env cp, hsame, hrestorable, ?_⟩
    rw [DagChain.advanceCheckpoint, hcp, ← (h.checkpoint hcp).1]
    rfl

/-- A checkpoint that is moved on holds the state after its own blocks. -/
theorem Settled.moved (hsvm : KeepsInstalled env) (h : Settled env c pre T)
    (ho : c.totalOrder = .ok order) (hexecuted : c.executed = order) (hstate : c.state = some bank)
    {target : Nat} (hpre : pre.length ≤ target) (htarget : target ≤ order.length) (hpos : 0 < target)
    {v : Except BankError Checkpoint} (hrun : (c.advanceCheckpoint env target).run = .ok v) :
    ∃ cp T', v = .ok cp ∧ Settled env { c with checkpoint := some cp } (order.take target) T' := by
  obtain ⟨start, hstart, hrestorable, heq⟩ := h.advanceCheckpoint target
  obtain ⟨hbank, rest, b, hrest, hknown, hreplay, hsame⟩ := h.state hstate
  rw [heq, hexecuted] at hrun
  rw [hexecuted] at hrest
  -- The blocks that the checkpoint moves over, and those that stay above it.
  have hmoved : (order.take target).drop pre.length ++ order.drop target = rest := by
    have hall := List.take_append_drop target order
    have hlen : pre.length ≤ (order.take target).length := by
      rw [List.length_take]
      omega
    have hdrop := congrArg (List.drop pre.length) hall
    rw [List.drop_append_of_le_length hlen, hrest, List.drop_left] at hdrop
    rw [hrest]
    exact hdrop
  have hsplit : pre ++ (order.take target).drop pre.length = order.take target := by
    have htake : (order.take target).take pre.length = pre := by
      rw [List.take_take, min_eq_left hpre, hrest, List.take_left]
    nth_rewrite 1 [← htake]
    exact List.take_append_drop _ _
  rw [← hmoved, replayBlocks_append] at hreplay
  obtain ⟨t, ht, hreplay⟩ := run_bind_eq_ok.mp hreplay
  have hover := @Same.replayBlocks _ env c _ _ hstart ((order.take target).drop pre.length)
  rw [ht] at hover
  obtain ⟨s, hs, hst⟩ := hover.of_ok
  rw [run_bind_of_ok hs] at hrun
  rcases run_bind_eq.mp hrun with ⟨e, he, _⟩ | ⟨lastId, hlast, hrun⟩
  · obtain ⟨_, _, hv⟩ := run_lift_eq.mp he
    cases hv
  obtain ⟨_, hlast, hv⟩ := run_lift_eq.mp hlast
  cases hv
  cases hrun
  rw [expect_eq_ok] at hlast
  have hlen : (order.take target).length = target := by
    rw [List.length_take]
    omega
  refine ⟨_, s, rfl, ?_⟩
  constructor
  case anchored => exact h.anchored.of_eq rfl rfl rfl rfl rfl
  case funded => exact h.funded
  case restorable => exact Restorable.replayBlocks hsvm hrestorable hs
  case order =>
    intro o ho'
    obtain rfl : order = o := Except.ok.inj (ho.symm.trans ho')
    exact List.take_prefix _ _
  case known => exact fun x hx => h.anchored.order_known ho x (List.mem_of_mem_take hx)
  case bare => exact nofun
  case checkpoint =>
    rintro _ ⟨⟩
    refine ⟨hlen.symm, ?_, rfl⟩
    rw [List.getLast?_eq_getElem?, hlen, List.getElem?_take_of_lt (by omega), hlast]
  case genesis =>
    intro hlost
    obtain ⟨b₀, hb₀, hsame₀⟩ := h.genesis hlost
    have hfrom := @Same.replayBlocks _ env c _ _ hsame₀ ((order.take target).drop pre.length)
    rw [ht] at hfrom
    obtain ⟨x, hx, hxt⟩ := hfrom.of_ok
    refine ⟨x, ?_, hxt.trans hst.symm⟩
    rw [← hsplit]
    exact (replayBlocks_from _ hb₀).trans hx
  case executed =>
    refine Or.inr ?_
    change _ <+: c.executed
    rw [hexecuted]
    exact List.take_prefix _ _
  case state =>
    intro bank' hbank'
    obtain rfl : bank = bank' := Option.some.inj (hstate.symm.trans hbank')
    have hafter := @Same.replayBlocks _ env c _ _ hst (order.drop target)
    rw [hreplay] at hafter
    obtain ⟨b', hb', hsame'⟩ := hafter.of_ok
    refine ⟨hbank, order.drop target, b', ?_, ?_, hb', hsame.trans hsame'.symm⟩
    · change c.executed = _
      rw [hexecuted, List.take_append_drop]
    · exact fun x hx => h.anchored.order_known ho x (List.mem_of_mem_drop hx)

theorem Settled.checkpoint_length (h : Settled env c pre T) :
    (c.checkpoint.map (·.len)).getD 0 = pre.length := by
  cases hcp : c.checkpoint with
  | none =>
    rw [(h.bare hcp).1]
    rfl
  | some cp => exact (h.checkpoint hcp).1

/-- Moving the checkpoint on cannot fail: its blocks have been executed. -/
theorem Settled.maybeAdvance (hsvm : KeepsInstalled env) (h : Settled env c pre T)
    (ho : c.totalOrder = .ok order) (hexecuted : c.executed = order) (hstate : c.state = some bank)
    {v : Except BankError (Option Checkpoint)}
    (hrun : (c.maybeAdvanceCheckpoint env).run = .ok v) :
    ∃ checkpoint pre' T', v = .ok checkpoint ∧ Settled env { c with checkpoint } pre' T' := by
  have hstays : ∃ checkpoint pre' T', Except.ok (α := Option Checkpoint) c.checkpoint =
      (.ok checkpoint : Except BankError (Option Checkpoint)) ∧
      Settled env { c with checkpoint } pre' T' := ⟨c.checkpoint, pre, T, rfl, h⟩
  rw [maybeAdvanceCheckpoint] at hrun
  by_cases hfd : c.finalityDepth = 0
  · rw [if_pos hfd] at hrun
    cases hrun
    exact hstays
  rw [if_neg hfd, h.checkpoint_length] at hrun
  rcases run_bind_eq.mp hrun with ⟨e, he, _⟩ | ⟨twice, _, hrun⟩
  · obtain ⟨_, _, hv⟩ := run_lift_eq.mp he
    cases hv
  rcases run_bind_eq.mp hrun with ⟨e, he, _⟩ | ⟨due, _, hrun⟩
  · obtain ⟨_, _, hv⟩ := run_lift_eq.mp he
    cases hv
  by_cases hdue : c.executed.length < due
  · rw [if_pos hdue] at hrun
    cases hrun
    exact hstays
  rw [if_neg hdue] at hrun
  by_cases htarget : c.executed.length - c.finalityDepth ≤ pre.length
  · rw [if_pos htarget] at hrun
    cases hrun
    exact hstays
  rw [if_neg htarget] at hrun
  have hlen : c.executed.length = order.length := congrArg List.length hexecuted
  rcases run_bind_eq.mp hrun with ⟨e, he, _⟩ | ⟨cp, hcp, hrun⟩
  · obtain ⟨_, _, hv, _⟩ := h.moved hsvm ho hexecuted hstate (by omega) (by omega) (by omega) he
    cases hv
  · obtain ⟨_, T', hv, hmoved⟩ :=
      h.moved hsvm ho hexecuted hstate (by omega) (by omega) (by omega) hcp
    cases hv
    cases hrun
    exact ⟨_, _, T', rfl, hmoved⟩

/-- `virtual_state` keeps the caches settled, and returns the state after `pre` with the rest of
the order run on it. -/
theorem Settled.virtualState (hsvm : KeepsInstalled env) (h : Settled env c pre T)
    {r : Except BankError Bank} (hrun : c.virtualState env = .ok (r, c')) :
    (∃ pre' T', Settled env c' pre' T') ∧ ∃ order, c.totalOrder = .ok order ∧
      SameOutcome Same (.ok r) (c.replayBlocks env T (order.drop pre.length)).run ∧
      ∀ bank, r = .ok bank → Restorable env bank := by
  obtain ⟨order, ho, hrun⟩ := bind_eq_ok.mp hrun
  obtain ⟨v, hv, hrun⟩ := bind_eq_ok.mp hrun
  obtain ⟨hsame, hrestorable⟩ := h.virtualBank hsvm ho
  rw [hv] at hsame
  cases v with
  | error e =>
    cases hrun
    exact ⟨⟨pre, T, h.reframe c.log c.finalityDepth nofun⟩, order, ho, hsame, nofun⟩
  | ok bank =>
    have hbank := hrestorable bank hv
    obtain ⟨b, hb, hbs⟩ := (hsame.symm fun _ _ => Same.symm).of_ok
    have hcached := h.cached ho hbank hb hbs.symm
    obtain ⟨w, hw, hrun⟩ := bind_eq_ok.mp hrun
    obtain ⟨checkpoint, pre', T', rfl, hsettled⟩ := hcached.maybeAdvance hsvm ho rfl rfl hw
    cases hrun
    refine ⟨⟨pre', T', hsettled⟩, order, ho, hsame, ?_⟩
    rintro _ ⟨⟩
    exact hbank

end VirtualState

section Step

/-- A block is added to an engine that does not have it. -/
theorem Anchored.added (h : Anchored env c) {ps : List Hash} {id : Hash} {engine : Ghostdag.DagEngine}
    (hadd : c.engine.addBlock env.fractions id (c.engineParents ps) = .ok engine) :
    id ∉ c.engine.dag.blocks ∧ ∀ x ∈ c.engine.dag.blocks, x ∈ engine.dag.blocks := by
  have halone : Ghostdag.DagEngine.OriginAlone (c.engineParents ps) := fun hor =>
    absurd hor (h.originAlone fun q hq => mem_engineParents h.origin hq)
  obtain ⟨d, _, _, hadded, _⟩ := h.rooted.grown.ready_best.1.step halone hadd
  exact ⟨hadded.new, fun x hx => hadded.mem_blocks_iff.mpr (Or.inr hx)⟩

/-- A new block changes no replay of others. -/
theorem replayBlocks_insertBlock {block : DagBlock} {id : Hash} {txs : List Tx} {bank : Bank}
    {l : List Hash} (hid : id ∉ l) :
    (c.insertBlock block id txs).replayBlocks env bank l = c.replayBlocks env bank l := by
  refine replayBlocks_congr rfl rfl (fun x hx => ?_) fun x hx _ => ?_
  · have hne : x ≠ id := fun h => hid (h ▸ hx)
    exact AList.lookup_insert_ne hne
  · have hne : x ≠ id := fun h => hid (h ▸ hx)
    rw [insertBlock]
    split
    · rfl
    · exact AList.lookup_insert_ne hne

/-- Applying a block leaves what is settled, if the checkpointed blocks stay first. -/
theorem Settled.applyWithId (h : Settled env c pre T) {block : DagBlock} {id : Hash}
    {r : Except String Unit} (hrun : c.applyWithId env block id = .ok (r, c'))
    (horder : ∀ o, c'.totalOrder = .ok o → pre <+: o) : Settled env c' pre T := by
  have hanchored := h.anchored.applyWithId hrun
  rcases applyWithId_cases hrun with ⟨_, _, rfl⟩ | ⟨_, engine, hadd, hrest⟩
  · exact h
  obtain ⟨hnew, hsub⟩ := h.anchored.added hadd
  rcases hrest with ⟨e, _, _, rfl⟩ | ⟨txs, _, _, rfl⟩
  · exact
      { anchored := hanchored
        funded := h.funded
        restorable := h.restorable
        order := horder _
        known := fun x hx => hsub x (h.known x hx)
        bare := h.bare
        checkpoint := h.checkpoint
        genesis := h.genesis
        executed := h.executed
        state := fun hbank => by
          obtain ⟨hrestorable, rest, b, hexecuted, hknown, hrun⟩ := h.state hbank
          exact ⟨hrestorable, rest, b, hexecuted, fun x hx => hsub x (hknown x hx), hrun⟩ }
  · exact
      { anchored := hanchored
        funded := h.funded
        restorable := h.restorable
        order := horder _
        known := fun x hx => hsub x (h.known x hx)
        bare := h.bare
        checkpoint := h.checkpoint
        genesis := fun hlost => by
          rw [replayBlocks_insertBlock fun hx => hnew (h.known _ hx)]
          exact h.genesis hlost
        executed := h.executed
        state := fun hbank => by
          obtain ⟨hrestorable, rest, b, hexecuted, hknown, hrun, hsame⟩ := h.state hbank
          refine ⟨hrestorable, rest, b, hexecuted, fun x hx => hsub x (hknown x hx), ?_, hsame⟩
          rw [replayBlocks_insertBlock fun hx => hnew (hknown _ hx)]
          exact hrun }

/-- The blocks that a call leaves checkpointed come first in the order, as before. -/
def KeepsCheckpoint (env : Env Tx) (c : DagChain Tx) (call : Call Tx) : Prop :=
  ∀ c' o' cp, c.step env call = .ok c' → c'.totalOrder = .ok o' → c.checkpoint = some cp →
    ∃ o, c.totalOrder = .ok o ∧ o'.take cp.len = o.take cp.len

theorem Settled.prefix_of_keeps (h : Settled env c pre T) {call : Call Tx}
    (hkeeps : KeepsCheckpoint env c call) (hrun : c.step env call = .ok c') {o' : List Hash}
    (ho' : c'.totalOrder = .ok o') : pre <+: o' := by
  cases hcp : c.checkpoint with
  | none =>
    rw [(h.bare hcp).1]
    exact List.nil_prefix
  | some cp =>
    obtain ⟨o, ho, htake⟩ := hkeeps c' o' cp hrun ho' hcp
    have hpre : o.take cp.len = pre := by
      obtain ⟨rest, rfl⟩ := h.order ho
      rw [(h.checkpoint hcp).1, List.take_left]
    rw [← hpre, ← htake]
    exact List.take_prefix _ _

/-- A block that is written to the log and applied. -/
theorem Settled.appendAndApply (h : Settled env c pre T) {io : Option Database.AppendFault}
    {block : DagBlock} {r : Except String Unit} (hrun : c.appendAndApply env io block = .ok (r, c'))
    (horder : ∀ o, c'.totalOrder = .ok o → pre <+: o) : Settled env c' pre T := by
  rcases appendAndApply_cases hrun with ⟨e, log, _, _, rfl⟩ | ⟨log, _, hrun⟩
  · exact h.reframe log c.finalityDepth fun _ => id
  · exact (h.reframe log c.finalityDepth fun _ => id).applyWithId hrun horder

end Step

section Rebuild

/-- Two calls that end alike, with the same accounts and state root. -/
def SameState (env : Env Tx) : Result (Except BankError Bank) → Result (Except BankError Bank) → Prop :=
  SameOutcome fun a b => Same a b ∧ a.stateRoot env = b.stateRoot env

theorem sameState_of_same {x y : Result (Except BankError Bank)} (h : SameOutcome Same x y)
    (hx : ∀ a, x = .ok (.ok a) → Restorable env a) (hy : ∀ b, y = .ok (.ok b) → Restorable env b) :
    SameState env x y := by
  rcases x with f | e | a
  · rcases y with f' | e' | b <;> exact h
  · rcases y with f' | e' | b <;> exact h
  · rcases y with f' | e' | b
    · exact h
    · exact h
    · exact ⟨h, Same.stateRoot_eq h (hx a rfl).exact (hy b rfl).exact⟩

/-- The state after `pre` with the rest of the order run on it is the rebuilt state. -/
theorem Settled.rebuild (hsvm : KeepsInstalled env) (h : Settled env c pre T)
    (hlost : ¬c.HistoryLost) (ho : c.totalOrder = .ok order) :
    SameOutcome Same (c.replayBlocks env T (order.drop pre.length)).run (c.rebuildState env).run ∧
    ∀ bank, (c.rebuildState env).run = .ok (.ok bank) → Restorable env bank := by
  rw [rebuildState_eq ho hlost]
  obtain ⟨rest, rfl⟩ := h.order ho
  obtain ⟨b, hb, hsame⟩ := h.genesis hlost
  refine ⟨?_, fun bank hbank => Restorable.replayBlocks hsvm h.funded.freshBank hbank⟩
  rw [List.drop_left, replayBlocks_from rest hb]
  exact Same.replayBlocks hsame.symm rest

/-- `virtual_state` returns the rebuilt state. -/
theorem Settled.virtualState_rebuild (hsvm : KeepsInstalled env) (h : Settled env c pre T)
    (hlost : ¬c.HistoryLost) {r : Except BankError Bank}
    (hrun : c.virtualState env = .ok (r, c')) : SameState env (.ok r) (c.rebuildState env).run := by
  obtain ⟨_, order, ho, hsame, hrestorable⟩ := h.virtualState hsvm hrun
  obtain ⟨hrebuilt, hrestorable'⟩ := h.rebuild hsvm hlost ho
  refine sameState_of_same
    (SameOutcome.trans (fun a b c => Same.trans (a := a) (b := b) (c := c)) hsame hrebuilt)
    ?_ hrestorable'
  rintro a ⟨⟩
  exact hrestorable a rfl

end Rebuild

section Open

variable {p : Params}

/-- A chain as its log leaves it: nothing is cached. -/
structure Uncached (c : DagChain Tx) : Prop where
  checkpoint : c.checkpoint = none
  state : c.state = none
  executed : c.executed = []
  kept : ¬c.HistoryLost

theorem uncached_replayed (env : Env Tx) : Replayed env Uncached where
  apply := by
    intro c c' block id r h hrun
    obtain ⟨_, _, _, _, _, rfl⟩ := applyWithId_dag hrun
    exact ⟨h.checkpoint, h.state, h.executed, h.kept⟩
  load := by
    intro c c' header accounts proof _ hload
    obtain ⟨engine, _, rfl⟩ := loadSnapshot_spec hload
    exact ⟨rfl, rfl, rfl, fun hlost => Bool.false_ne_true hlost.2⟩

theorem open_uncached {file : Bytes} (h : openWithGenesis env p file = .ok (.ok c)) : Uncached c :=
  (uncached_replayed env).opened (fun hgenesis => by
    obtain ⟨engine, _, hgenesis⟩ := bind_eq_ok.mp hgenesis
    cases hgenesis
    exact ⟨rfl, rfl, rfl, fun hlost => Bool.false_ne_true hlost.1⟩) h

theorem open_settled {file : Bytes} (h : openWithGenesis env p file = .ok (.ok c))
    (hfunded : FundedGenesis env c) : Settled env c [] (c.freshBank env) :=
  have hcache := open_uncached h
  settled_of_uncached (open_anchored h) hfunded hcache.checkpoint hcache.state hcache.executed
    hcache.kept

/-- The calls that leave the history of a chain whole. No block that comes in reorders the
checkpointed blocks. -/
def KeepsHistory (env : Env Tx) (c : DagChain Tx) (call : Call Tx) : Prop :=
  match call with
  | .mine _ _ _ => KeepsCheckpoint env c call
  | .accept _ _ _ => KeepsCheckpoint env c call
  | .virtualState => True
  | .setFinalityDepth _ => True
  | _ => False

theorem StepOn.accept {P : DagChain Tx → Call Tx → Prop} {io : Option Database.AppendFault} {now : Int}
    {block : DagBlock} {r : Except String Unit} (hcall : P c (.accept io now block))
    (hrun : c.accept env io now block = .ok (r, c')) : StepOn env P c c' :=
  ⟨.accept io now block, hcall, map_eq_ok.mpr ⟨_, hrun, rfl⟩⟩

theorem StepOn.virtualState {P : DagChain Tx → Call Tx → Prop} {r : Except BankError Bank}
    (hcall : P c .virtualState) (hrun : c.virtualState env = .ok (r, c')) : StepOn env P c c' :=
  ⟨.virtualState, hcall, map_eq_ok.mpr ⟨_, hrun, rfl⟩⟩

/-- A mined block is written to the log and applied. -/
theorem step_mine {io : Option Database.AppendFault} {txs : List Tx} {timestamp : BitVec 64}
    (hrun : c.step env (.mine io txs timestamp) = .ok c') :
    ∃ block v, c.appendAndApply env io block = .ok (v, c') := by
  obtain ⟨⟨r, d⟩, hmine, rfl⟩ := map_eq_ok.mp hrun
  obtain ⟨block, _, hmine⟩ := bind_eq_ok.mp hmine
  obtain ⟨⟨v, d⟩, happly, hmine⟩ := bind_eq_ok.mp hmine
  cases v with
  | ok u =>
    cases hmine
    exact ⟨block, _, happly⟩
  | error e =>
    cases hmine
    exact ⟨block, _, happly⟩

theorem appendAndApply_lost {io : Option Database.AppendFault} {block : DagBlock}
    {r : Except String Unit} (hrun : c.appendAndApply env io block = .ok (r, c')) :
    c'.HistoryLost ↔ c.HistoryLost := by
  rcases appendAndApply_cases hrun with ⟨e, log, _, _, rfl⟩ | ⟨log, _, hrun⟩
  · exact Iff.rfl
  · obtain ⟨_, _, _, _, _, rfl⟩ := applyWithId_dag hrun
    exact Iff.rfl

/-- A call that leaves the history whole leaves the caches settled. -/
theorem Settled.step (hsvm : KeepsInstalled env) (h : Settled env c pre T) {call : Call Tx}
    (hcall : KeepsHistory env c call) (hrun : c.step env call = .ok c') :
    (∃ pre' T', Settled env c' pre' T') ∧ (c'.HistoryLost ↔ c.HistoryLost) := by
  cases call with
  | mine io txs timestamp =>
    obtain ⟨block, v, happly⟩ := step_mine hrun
    refine ⟨⟨pre, T, h.appendAndApply happly fun o ho => ?_⟩, appendAndApply_lost happly⟩
    exact h.prefix_of_keeps hcall hrun ho
  | accept io now block =>
    obtain ⟨⟨r, d⟩, haccept, rfl⟩ := map_eq_ok.mp hrun
    rcases accept_cases haccept with rfl | ⟨_, happly⟩
    · exact ⟨⟨pre, T, h⟩, Iff.rfl⟩
    · refine ⟨⟨pre, T, h.appendAndApply happly fun o ho => ?_⟩, appendAndApply_lost happly⟩
      exact h.prefix_of_keeps hcall hrun ho
  | virtualState =>
    obtain ⟨⟨r, d⟩, hstate, rfl⟩ := map_eq_ok.mp hrun
    refine ⟨(h.virtualState hsvm hstate).1, ?_⟩
    obtain ⟨state, executed, checkpoint, rfl⟩ := virtualState_frame hstate
    exact Iff.rfl
  | setFinalityDepth depth =>
    cases hrun
    exact ⟨⟨pre, T, h.reframe c.log _ fun _ => id⟩, Iff.rfl⟩
  | pruneFinalizedTransactions => exact hcall.elim
  | prune io => exact hcall.elim
  | importSnapshot io now bytes => exact hcall.elim

/-- As long as no block reorders the checkpointed ones, and no genesis account is empty,
`virtual_state` returns what `rebuild_state` does. -/
theorem virtual_state_rebuilds (hsvm : KeepsInstalled env) {file : Bytes} {c₀ : DagChain Tx}
    (hopen : openWithGenesis env p file = .ok (.ok c₀)) (hfunded : FundedGenesis env c₀)
    (hrun : Reaches env (KeepsHistory env) c₀ c) {r : Except BankError Bank}
    (hstate : c.virtualState env = .ok (r, c')) :
    SameState env (.ok r) (c.rebuildState env).run := by
  have hsettled : (∃ pre T, Settled env c pre T) ∧ ¬c.HistoryLost := by
    apply hrun.invariant ⟨⟨[], _, open_settled hopen hfunded⟩, (open_uncached hopen).kept⟩
    intro d call d' ⟨⟨pre, T, hd⟩, hlost⟩ hcall hstep
    obtain ⟨hd', hiff⟩ := hd.step hsvm hcall hstep
    exact ⟨hd', fun hlost' => hlost (hiff.mp hlost')⟩
  obtain ⟨⟨pre, T, h⟩, hlost⟩ := hsettled
  exact h.virtualState_rebuild hsvm hlost hstate

end Open

end DagChain

section Example

open DagChain
open TaoDag.Runtime (Transaction transferEnv keepsInstalled_transferEnv)

/-- A chain with one transfer in it. -/
theorem virtual_state_rebuilds_single : ∃ (c₀ c c' : DagChain Transaction) (r : Except BankError Bank),
    openWithGenesis transferEnv fundedParams [] = .ok (.ok c₀) ∧
    c₀.accept transferEnv none 1750000000 (transferBlock 1) = .ok (.ok (), c) ∧
    c.virtualState transferEnv = .ok (r, c') ∧
    SameState transferEnv (.ok r) (c.rebuildState transferEnv).run := by
  have hrun : returnsWith (openWithGenesis transferEnv fundedParams []) (fun o =>
      returnsWith o fun c₀ =>
        decide (c₀.baseAccounts = none ∧ c₀.allocations = fundedParams.allocations) &&
        returnsWith (c₀.accept transferEnv none 1750000000 (transferBlock 1)) fun a =>
          returnsWith a.1 fun _ =>
            returnsWith (a.2.virtualState transferEnv) fun r => returnsWith r.1 fun _ => true) =
      true := by decide +kernel
  simp only [returnsWith_iff, Bool.and_eq_true, decide_eq_true_eq] at hrun
  obtain ⟨_, hopen, c₀, rfl, ⟨hbase, hallocations⟩, ⟨_, c⟩, haccept, _, rfl, ⟨r, c'⟩, hstate, _⟩ := hrun
  have hfunded : FundedGenesis transferEnv c₀ := by
    apply fundedGenesis_of_allocations hbase
    rw [hallocations]
    intro p hp
    obtain rfl := List.mem_singleton.mp hp
    decide +kernel
  have hstep : StepOn transferEnv (KeepsHistory transferEnv) c₀ c := by
    refine .accept ?_ haccept
    intro _ _ cp _ _ hcp
    rw [(open_uncached hopen).checkpoint] at hcp
    cases hcp
  exact ⟨c₀, c, c', r, hopen, haccept, hstate,
    virtual_state_rebuilds keepsInstalled_transferEnv hopen hfunded (.single hstep) hstate⟩

/-- An allocation of no lamports. -/
def emptyAllocation : Params := { easyParams with allocations := [(5, 0)] }

/-- The calls that a chain takes blocks and reads its state with. -/
def Grows {Tx : Type} (call : Call Tx) : Prop :=
  match call with
  | .mine _ _ _ => True
  | .accept _ _ _ => True
  | .virtualState => True
  | .setFinalityDepth _ => True
  | _ => False

theorem reaches_acceptAll {Tx : Type} {env : Env Tx} {now : Int} {c c' : DagChain Tx}
    {bs : List DagBlock} (hrun : c.acceptAll env now bs = some c') :
    Reaches env (fun _ => Grows) c c' := by
  induction bs generalizing c with
  | nil =>
    cases hrun
    exact .refl
  | cons b bs ih =>
    rw [acceptAll] at hrun
    split at hrun
    · rename_i d haccept
      exact .head (.accept trivial haccept) (ih hrun)
    · cases hrun

/-- A checkpoint loses the empty account of an allocation, and a reorganization down to it loses it
from the state. -/
theorem virtual_state_differs : ∃ (c₀ c c' : DagChain Transaction) (bank rebuilt : Bank),
    openWithGenesis transferEnv emptyAllocation [] = .ok (.ok c₀) ∧
    Reaches transferEnv (fun _ => Grows) c₀ c ∧
    c.virtualState transferEnv = .ok (.ok bank, c') ∧
    (c.rebuildState transferEnv).run = .ok (.ok rebuilt) ∧
    bank.db.get 5 = none ∧ (rebuilt.db.get 5).isSome := by
  have hrun : returnsWith (openWithGenesis transferEnv emptyAllocation []) (fun o =>
      returnsWith o fun c₀ =>
        let c₁ := c₀.setFinalityDepth 1
        (c₁.acceptAll transferEnv 1750000500
            (c₁.mineAll transferEnv [1750000010, 1750000020])).any fun c₂ =>
          returnsWith (c₂.virtualState transferEnv) fun s =>
            (s.2.acceptAll transferEnv 1750000500
                (c₁.mineAll transferEnv [1750000010, 1750000033])).any fun c =>
              returnsWith (c.virtualState transferEnv) fun r =>
                returnsWith r.1 fun bank =>
                  returnsWith (c.rebuildState transferEnv).run fun r' =>
                    returnsWith r' fun rebuilt =>
                      decide (bank.db.get 5 = none ∧ (rebuilt.db.get 5).isSome)) = true := by
    decide +kernel
  simp only [returnsWith_iff, Option.any_eq_true, decide_eq_true_eq] at hrun
  obtain ⟨_, hopen, c₀, rfl, c₂, hfirst, ⟨_, c₃⟩, hstate, c, hlast, ⟨_, c'⟩, hfinal, bank, rfl, _,
    hrebuilt, rebuilt, rfl, hnone, hsome⟩ := hrun
  refine ⟨c₀, c, c', bank, rebuilt, hopen, ?_, hfinal, hrebuilt, hnone, hsome⟩
  have hdepth : StepOn transferEnv (fun _ => Grows) c₀ (c₀.setFinalityDepth 1) :=
    ⟨.setFinalityDepth 1, trivial, rfl⟩
  have hread : StepOn transferEnv (fun _ => Grows) c₂ c₃ := .virtualState trivial hstate
  exact .head hdepth ((reaches_acceptAll hfirst).trans (.head hread (reaches_acceptAll hlast)))

end Example

end TaoDag.Dagvm
