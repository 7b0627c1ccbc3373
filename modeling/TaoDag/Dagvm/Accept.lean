import TaoDag.Dagvm.DagChain

namespace TaoDag.Dagvm.DagChain

open Consensus (DagBlock)
open Database (AppendFault BlockLog)
open TaoDag.Runtime (Env)

variable {Tx : Type} {env : Env Tx}

/-- What `apply_with_id` can do: nothing for a known block; the engine alone, when a
transaction does not decode; or the whole insertion. -/
theorem applyWithId_cases {c c' : DagChain Tx} {block : DagBlock} {id : Hash}
    {r : Except String Unit} (h : c.applyWithId env block id = .ok (r, c')) :
    (id ∈ c.blocks ∧ r = .ok () ∧ c' = c) ∨
    (id ∉ c.blocks ∧ ∃ engine,
      c.engine.addBlock env.fractions id (c.engineParents block.header.parents) = .ok engine ∧
      ((∃ e, decodeTxs env block.transactions = .error e ∧ r = .error e ∧
          c' = { c with engine }) ∨
        ∃ txs, decodeTxs env block.transactions = .ok txs ∧ r = .ok () ∧
          c' = { c with engine }.insertBlock block id txs)) := by
  by_cases hid : id ∈ c.blocks
  · rw [applyWithId, if_pos hid] at h
    cases h
    exact Or.inl ⟨hid, rfl, rfl⟩
  · rw [applyWithId, if_neg hid] at h
    obtain ⟨engine, he, h⟩ := bind_eq_ok.mp h
    refine Or.inr ⟨hid, engine, he, ?_⟩
    cases hd : decodeTxs env block.transactions with
    | error e =>
      simp only [hd] at h
      cases h
      exact Or.inl ⟨e, rfl, rfl, rfl⟩
    | ok txs =>
      simp only [hd] at h
      cases h
      exact Or.inr ⟨txs, rfl, rfl, rfl⟩

/-- Applying a block changes the DAG only. -/
theorem applyWithId_dag {c c' : DagChain Tx} {block : DagBlock} {id : Hash} {r : Except String Unit}
    (h : c.applyWithId env block id = .ok (r, c')) :
    ∃ engine tips blocks blockTxs headers,
      c' = { c with engine, tips, blocks, blockTxs, headers } := by
  rcases applyWithId_cases h with ⟨_, _, rfl⟩ | ⟨_, engine, _, hrest⟩
  · exact ⟨_, _, _, _, _, rfl⟩
  · rcases hrest with ⟨e, _, _, rfl⟩ | ⟨txs, _, _, rfl⟩
    · exact ⟨_, _, _, _, _, rfl⟩
    · exact ⟨_, _, _, _, _, rfl⟩

/-- A block that passes every check of `accept`, and is not known yet. -/
structure Passes (env : Env Tx) (now : Int) (c : DagChain Tx) (block : DagBlock) : Prop where
  unknown : block.id env.blake3 ∉ c.blocks
  intrinsic : validateBlockIntrinsic env now block = .ok ()
  context : c.checkContext block = .ok (.ok ())

/-- What `accept` can do: return at once, or persist and apply a block that passes. -/
theorem accept_cases {io : Option AppendFault} {now : Int} {c c' : DagChain Tx}
    {block : DagBlock} {r : Except String Unit}
    (h : c.accept env io now block = .ok (r, c')) :
    c' = c ∨ Passes env now c block ∧ c.appendAndApply env io block = .ok (r, c') := by
  by_cases hid : block.id env.blake3 ∈ c.blocks
  · rw [accept, if_pos hid] at h
    cases h
    exact Or.inl rfl
  · rw [accept, if_neg hid] at h
    cases hv : validateBlockIntrinsic env now block with
    | error e =>
      simp only [hv] at h
      cases h
      exact Or.inl rfl
    | ok u =>
      simp only [hv] at h
      obtain ⟨v, hc, h⟩ := bind_eq_ok.mp h
      cases v with
      | error e =>
        cases h
        exact Or.inl rfl
      | ok u => exact Or.inr ⟨⟨hid, hv, hc⟩, h⟩

theorem accept_of_passes {io : Option AppendFault} {now : Int} {c : DagChain Tx}
    {block : DagBlock} (h : Passes env now c block) :
    c.accept env io now block = c.appendAndApply env io block := by
  rw [accept, if_neg h.unknown, h.intrinsic]
  simp only [h.context]
  rfl

/-- What `append_and_apply` can do: fail to write the record, or write it and apply. -/
theorem appendAndApply_cases {io : Option AppendFault} {c c' : DagChain Tx} {block : DagBlock}
    {r : Except String Unit} (h : c.appendAndApply env io block = .ok (r, c')) :
    (∃ e log, c.log.append io (LogRecord.block block).serialize = (.error e, log) ∧
      r = .error e ∧ c' = { c with log }) ∨
    ∃ log, c.log.append io (LogRecord.block block).serialize = (.ok (), log) ∧
      { c with log }.apply env block = .ok (r, c') := by
  rw [appendAndApply] at h
  cases ha : c.log.append io (LogRecord.block block).serialize with
  | mk res log =>
    rw [ha] at h
    cases res with
    | error e =>
      cases h
      exact Or.inl ⟨e, log, rfl, rfl, rfl⟩
    | ok u => exact Or.inr ⟨log, rfl, h⟩

end TaoDag.Dagvm.DagChain
