import Mathlib
import TaoDag.Dagvm.State

namespace TaoDag.Dagvm

open Consensus (Pubkey DagBlockHeader DagBlock)
open Database (Account ReplaceFault)
open Ghostdag (DagEngine)
open TaoDag.Runtime (Env Bank BankError BankM)

/-- The entries of a map under the given keys. -/
def restrict {ν : Type} (m : BlockHashMap ν) (ids : List Hash) : BlockHashMap ν :=
  ids.foldl (fun acc id =>
    match m.lookup id with
    | some v => acc.insert id v
    | none => acc) ∅

theorem restrict_lookup {ν : Type} (m : BlockHashMap ν) (ids : List Hash) (x : Hash) :
    (restrict m ids).lookup x = if x ∈ ids then m.lookup x else none := by
  have hfold : ∀ (ids : List Hash) (acc : BlockHashMap ν),
      (ids.foldl (fun acc id =>
        match m.lookup id with
        | some v => acc.insert id v
        | none => acc) acc).lookup x =
        if x ∈ ids ∧ (m.lookup x).isSome then m.lookup x else acc.lookup x := by
    intro ids
    induction ids with
    | nil => simp
    | cons id ids ih =>
      intro acc
      rw [List.foldl_cons, ih]
      by_cases hx : x = id
      · subst hx
        cases hm : m.lookup x with
        | none => simp
        | some v => simp
      · have hacc : (match m.lookup id with
            | some v => acc.insert id v
            | none => acc).lookup x = acc.lookup x := by
          cases m.lookup id with
          | none => rfl
          | some v => exact AList.lookup_insert_ne hx
        rw [hacc]
        simp [hx]
  rw [restrict, hfold]
  cases hm : m.lookup x with
  | none => simp
  | some v => simp

namespace DagChain

variable {Tx : Type}

/-- One step of the proof walk: the header of `cur`, of this chain or of the retained proof. -/
def proofHeader (env : Env Tx) (c : DagChain Tx) (cur : Hash) : Option DagBlockHeader :=
  match c.headers.lookup cur with
  | some h => some h
  | none =>
      if c.historyPruned then c.proof.find? fun h => h.id env.blake3 == cur else none

/-- Walks the highest interlink pointers down from `cur`; `proof` has the later headers. -/
def proofLoop (env : Env Tx) (c : DagChain Tx) :
    Nat → Hash → List Hash → List DagBlockHeader → List DagBlockHeader
  | 0, _, _, proof => proof
  | fuel+1, cur, seen, proof =>
      match c.proofHeader env cur with
      | none => proof
      | some h =>
          if h.id env.blake3 ∈ seen then proof
          else
            match h.interlink.getLast? with
            | none => h :: proof
            | some next =>
                if next = cur then h :: proof
                else proofLoop env c fuel next (h.id env.blake3 :: seen) (h :: proof)

/-- The proof of `p`, genesis first; the walk is cut after a million and one headers. -/
def buildProofFor (env : Env Tx) (c : DagChain Tx) (p : Hash) : List DagBlockHeader :=
  c.proofLoop env 1000001 p [] []

/-- Removes the bodies of the given blocks, counting those that had one. -/
def dropBodies : List Hash → Nat → BlockHashMap (List Tx) → Nat × BlockHashMap (List Tx)
  | [], pruned, blockTxs => (pruned, blockTxs)
  | id :: rest, pruned, blockTxs =>
      if (blockTxs.lookup id).isSome then dropBodies rest (pruned + 1) (blockTxs.erase id)
      else dropBodies rest pruned blockTxs

/-- Drops the transaction bodies of the checkpoint prefix. -/
def pruneFinalizedTransactions (c : DagChain Tx) : Result (Nat × DagChain Tx) :=
  match c.checkpoint with
  | none => return (0, c)
  | some cp => do
      assert (cp.len ≤ c.executed.length) "range end index out of range for slice"
      let (pruned, blockTxs) := dropBodies (c.executed.take cp.len) 0 c.blockTxs
      if 0 < pruned then
        return (pruned, { c with blockTxs, historyPruned := true, state := none, executed := [] })
      else return (0, { c with blockTxs })

theorem dropBodies_lookup (ids : List Hash) (n : Nat) (m : BlockHashMap (List Tx)) (id : Hash)
    (txs : List Tx) (h : (dropBodies ids n m).2.lookup id = some txs) :
    m.lookup id = some txs := by
  induction ids generalizing n m with
  | nil => exact h
  | cons i ids ih =>
    rw [dropBodies] at h
    split at h
    · have hl := ih _ _ h
      by_cases hi : id = i
      · rw [hi, AList.lookup_erase] at hl
        cases hl
      · rwa [AList.lookup_erase_ne hi] at hl
    · exact ih _ _ h

/-- Dropping bodies changes no other part of the DAG, and leaves the other bodies. -/
theorem pruneFinalizedTransactions_frame {c c' : DagChain Tx} {n : Nat}
    (h : c.pruneFinalizedTransactions = .ok (n, c')) :
    ∃ blockTxs historyPruned state executed,
      c' = { c with blockTxs, historyPruned, state, executed } ∧
      ∀ id txs, blockTxs.lookup id = some txs → c.blockTxs.lookup id = some txs := by
  rw [pruneFinalizedTransactions] at h
  rcases Option.eq_none_or_eq_some c.checkpoint with hcp | ⟨cp, hcp⟩
  · rw [hcp] at h
    cases h
    exact ⟨c.blockTxs, c.historyPruned, c.state, c.executed, rfl, fun _ _ h => h⟩
  · simp only [hcp] at h
    obtain ⟨_, _, h⟩ := bind_eq_ok.mp h
    have hb := dropBodies_lookup (c.executed.take cp.len) 0 c.blockTxs
    generalize dropBodies (c.executed.take cp.len) 0 c.blockTxs = dropped at h hb
    by_cases hp : 0 < dropped.1
    · rw [if_pos hp] at h
      cases h
      exact ⟨dropped.2, true, none, [], by rw [← hcp], hb⟩
    · rw [if_neg hp] at h
      cases h
      exact ⟨dropped.2, c.historyPruned, c.state, c.executed, by rw [← hcp], hb⟩

/-- A stored block with its transactions serialized again. -/
def getBlock (env : Env Tx) (c : DagChain Tx) (id : Hash) : Option DagBlock :=
  match c.headers.lookup id with
  | none => none
  | some header =>
      match c.blockTxs.lookup id with
      | none => some ⟨header, []⟩
      | some txs =>
          match txs.mapM env.encodeTx with
          | .error _ => none
          | .ok [] => none
          | .ok transactions => some ⟨header, transactions⟩

/-- The ids of the selected chain, from the tip down to the origin. -/
def selectedChainIds (c : DagChain Tx) : Nat → Hash → Result (List Hash)
  | 0, _ => .error .diverge
  | fuel+1, cur =>
      if cur = c.genesisDag then return [cur]
      else do return cur :: (← selectedChainIds c fuel (← c.engine.selectedParent cur))

/-- `(1..=upper).rev().find(..)`: the largest index of a block on the selected chain. -/
def pruneIndex (order chain : List Hash) (upper : Nat) : Option Nat :=
  (List.range' 1 upper).reverse.find? fun i => order[i]?.any (· ∈ chain)

/-- The account set after the pruned prefix, which ends at `pIdx`. -/
def pruneBase (env : Env Tx) (c : DagChain Tx) (order : List Hash) (pIdx : Nat) : BankM Bank :=
  let pruned := order.take (pIdx + 1)
  if c.historyPruned ∧ c.baseAccounts.isNone then
    match c.checkpoint with
    | none => throw (.storage "history pruned; no checkpoint available")
    | some cp =>
        if pIdx + 1 < cp.len then throw (.storage "prune point is before checkpoint")
        else
          c.replayBlocks env ((c.openBank env false).commit env cp.accounts) (pruned.drop cp.len)
  else
    match c.baseAccounts with
    | some base =>
        c.replayBlocks env ((c.openBank env false).commit env base) pruned
    | none => c.replayBlocks env (c.openBank env true) pruned

/-- The parents of a kept block in the engine rooted at `p`: pruned parents become `p`. -/
def keptParents (kept : List Hash) (p : Hash) (parents : List Hash) : List Hash :=
  match dedupFirst [] (parents.map fun q => if q ∈ kept then q else p) with
  | [] => [p]
  | ps => ps

/-- The engine with `p` as genesis and the kept suffix added in order. -/
def rerootEngine (env : Env Tx) (c : DagChain Tx) (p : Hash) (suffix : List Hash) :
    Result DagEngine := do
  let engine ← freshEngine env.fractions c.k p
  suffix.foldlM (fun engine id => do
    let header ← expect "kept block has a header" (c.headers.lookup id)
    engine.addBlock env.fractions id (keptParents (p :: suffix) p header.parents)) engine

/-- The choice of the pruning point: its index in the order, if the order is long enough. -/
def prunePoint (c : DagChain Tx) (order : List Hash) : Result (Option Nat) :=
  let n := order.length
  let retain := min (c.lwmaWindow + max c.finalityDepth 1) u64Max
  if n ≤ min (retain + 1) u64Max then return none
  else do
    let chain ← c.selectedChainIds (c.engine.gd.entries.length + 1) c.engine.tip
    return pruneIndex order chain (min (n - retain) (n - 1))

/-- Re-anchors the DAG at a finalized block of the selected chain and discards its past.
Returns the number of pruned blocks. -/
def prune (env : Env Tx) (io : Option ReplaceFault) (c : DagChain Tx) :
    Result (Except BankError Nat × DagChain Tx) := do
  let order ← c.totalOrder
  match ← c.prunePoint order with
  | none => return (.ok 0, c)
  | some pIdx =>
      let p ← expect "index out of bounds" order[pIdx]?
      let newProof := c.buildProofFor env p
      match ← (c.pruneBase env order pIdx).run with
      | .error e => return (.error e, c)
      | .ok baseBank =>
          let newBase := baseBank.db.dump
          let suffix := order.drop (pIdx + 1)
          let kept := (p :: suffix).toFinset
          let engine ← c.rerootEngine env p suffix
          let newHeaders := restrict c.headers (p :: suffix)
          let pHeader ← expect "origin header retained" (newHeaders.lookup p)
          let records := (LogRecord.snapshot pHeader newBase newProof).serialize ::
            (suffix.filterMap (c.getBlock env)).map fun b => (LogRecord.block b).serialize
          match c.log.replaceAll io records with
          | (.error e, log) => return (.error (.storage e), { c with log })
          | (.ok (), log) =>
              return (.ok (c.blocks.card - kept.card), { c with
                engine
                log
                genesisDag := p
                baseAccounts := some newBase
                historyPruned := true
                checkpoint := none
                headers := newHeaders
                blockTxs := restrict c.blockTxs (p :: suffix)
                blocks := kept
                state := none
                executed := []
                tips := [engine.tip]
                proof := newProof })

/-- The chain re-anchored at `p`, with the suffix of the order kept. -/
def reanchored (c : DagChain Tx) (engine : DagEngine) (log : Database.BlockLog) (p : Hash)
    (suffix : List Hash) (base : List (Pubkey × Account)) (proof : List DagBlockHeader) :
    DagChain Tx :=
  { c with
    engine
    log
    genesisDag := p
    baseAccounts := some base
    historyPruned := true
    checkpoint := none
    headers := restrict c.headers (p :: suffix)
    blockTxs := restrict c.blockTxs (p :: suffix)
    blocks := (p :: suffix).toFinset
    state := none
    executed := []
    tips := [engine.tip]
    proof }

/-- What `prune` can do at a pruning point: nothing but to the log when it fails, or re-anchor the
chain there. -/
theorem prune_at {env : Env Tx} {io : Option ReplaceFault} {c c' : DagChain Tx}
    {r : Except BankError Nat} {order : List Hash} {pIdx : Nat} (horder : c.totalOrder = .ok order)
    (hpoint : c.prunePoint order = .ok (some pIdx)) (h : c.prune env io = .ok (r, c')) :
    (∃ e log, r = .error e ∧ c' = { c with log }) ∨
    ∃ p bank engine header log, order[pIdx]? = some p ∧
      (c.pruneBase env order pIdx).run = .ok (.ok bank) ∧
      c.rerootEngine env p (order.drop (pIdx + 1)) = .ok engine ∧
      c.headers.lookup p = some header ∧
      c.log.replaceAll io
        ((LogRecord.snapshot header bank.db.dump (c.buildProofFor env p)).serialize ::
          ((order.drop (pIdx + 1)).filterMap (c.getBlock env)).map fun b =>
            (LogRecord.block b).serialize) = (.ok (), log) ∧
      r = .ok (c.blocks.card - (p :: order.drop (pIdx + 1)).toFinset.card) ∧
      c' = c.reanchored engine log p (order.drop (pIdx + 1)) bank.db.dump
        (c.buildProofFor env p) := by
  rw [prune] at h
  obtain ⟨_, horder', h⟩ := bind_eq_ok.mp h
  cases horder.symm.trans horder'
  obtain ⟨_, hpoint', h⟩ := bind_eq_ok.mp h
  cases hpoint.symm.trans hpoint'
  obtain ⟨p, hp, h⟩ := bind_eq_ok.mp h
  obtain ⟨b, hbase, h⟩ := bind_eq_ok.mp h
  cases b with
  | error e =>
    cases h
    exact Or.inl ⟨e, c.log, rfl, rfl⟩
  | ok bank =>
    obtain ⟨engine, hengine, h⟩ := bind_eq_ok.mp h
    obtain ⟨header, hheader, h⟩ := bind_eq_ok.mp h
    rw [expect_eq_ok, restrict_lookup, if_pos List.mem_cons_self] at hheader
    rw [expect_eq_ok] at hp
    cases hlog : c.log.replaceAll io
        ((LogRecord.snapshot header bank.db.dump (c.buildProofFor env p)).serialize ::
          ((order.drop (pIdx + 1)).filterMap (c.getBlock env)).map fun b =>
            (LogRecord.block b).serialize) with
    | mk res log =>
      simp only [hlog] at h
      cases res with
      | error e =>
        cases h
        exact Or.inl ⟨_, log, rfl, rfl⟩
      | ok u =>
        cases h
        exact Or.inr ⟨p, bank, engine, header, log, hp, hbase, hengine, hheader, hlog, rfl, rfl⟩

/-- What `prune` can do: nothing but to the log, or re-anchor the chain. -/
theorem prune_cases {env : Env Tx} {io : Option ReplaceFault} {c c' : DagChain Tx}
    {r : Except BankError Nat} (h : c.prune env io = .ok (r, c')) :
    (∃ log, c' = { c with log } ∧ ∀ n, r = .ok n → n = 0 ∧ log = c.log) ∨
    ∃ order pIdx p bank engine header log, c.totalOrder = .ok order ∧
      c.prunePoint order = .ok (some pIdx) ∧ order[pIdx]? = some p ∧
      (c.pruneBase env order pIdx).run = .ok (.ok bank) ∧
      c.rerootEngine env p (order.drop (pIdx + 1)) = .ok engine ∧
      c.headers.lookup p = some header ∧
      c.log.replaceAll io
        ((LogRecord.snapshot header bank.db.dump (c.buildProofFor env p)).serialize ::
          ((order.drop (pIdx + 1)).filterMap (c.getBlock env)).map fun b =>
            (LogRecord.block b).serialize) = (.ok (), log) ∧
      r = .ok (c.blocks.card - (p :: order.drop (pIdx + 1)).toFinset.card) ∧
      c' = c.reanchored engine log p (order.drop (pIdx + 1)) bank.db.dump
        (c.buildProofFor env p) := by
  have hprune := h
  rw [prune] at h
  obtain ⟨order, horder, h⟩ := bind_eq_ok.mp h
  obtain ⟨point, hpoint, h⟩ := bind_eq_ok.mp h
  cases point with
  | none =>
    cases h
    refine Or.inl ⟨c.log, rfl, fun n hn => ?_⟩
    cases hn
    exact ⟨rfl, rfl⟩
  | some pIdx =>
    rcases prune_at horder hpoint hprune with ⟨e, log, rfl, rfl⟩ |
      ⟨p, bank, engine, header, log, hpruned⟩
    · exact Or.inl ⟨log, rfl, nofun⟩
    · exact Or.inr ⟨order, pIdx, p, bank, engine, header, log, horder, hpoint, hpruned⟩

end DagChain

end TaoDag.Dagvm
