import TaoDag.Dagvm.Accept

namespace TaoDag.Dagvm.DagChain

open Consensus (DagBlock)
open Database (AppendFault BlockLog)
open TaoDag.Runtime (Env)

variable {Tx : Type} {env : Env Tx}

/-- Two chains with one DAG: what the log determines, up to bodies that the second has
dropped from memory. -/
structure SameDag (c d : DagChain Tx) : Prop where
  engine : c.engine = d.engine
  tips : c.tips = d.tips
  blocks : c.blocks = d.blocks
  headers : c.headers = d.headers
  genesisDag : c.genesisDag = d.genesisDag
  bodies : ∀ id txs, d.blockTxs.lookup id = some txs → c.blockTxs.lookup id = some txs

theorem SameDag.refl (c : DagChain Tx) : SameDag c c :=
  ⟨rfl, rfl, rfl, rfl, rfl, fun _ _ h => h⟩

private theorem lookup_bodies (m : BlockHashMap (List Tx)) (id id' : Hash) (txs : List Tx) :
    (if txs.isEmpty then m else m.insert id txs).lookup id' =
      if txs.isEmpty = false ∧ id' = id then some txs else m.lookup id' := by
  by_cases he : txs.isEmpty
  · simp [he]
  · by_cases hid : id' = id
    · subst hid
      simp [he]
    · simp [he, hid, AList.lookup_insert_ne]

theorem SameDag.insertBlock {c d : DagChain Tx} (h : SameDag c d) (block : DagBlock) (id : Hash)
    (txs : List Tx) : SameDag (c.insertBlock block id txs) (d.insertBlock block id txs) where
  engine := h.engine
  tips := by simp [DagChain.insertBlock, h.tips]
  blocks := by simp [DagChain.insertBlock, h.blocks]
  headers := by simp [DagChain.insertBlock, h.headers]
  genesisDag := h.genesisDag
  bodies := by
    intro id' txs' hl
    simp only [DagChain.insertBlock, lookup_bodies] at hl ⊢
    by_cases hc : txs.isEmpty = false ∧ id' = id
    · rwa [if_pos hc] at hl ⊢
    · rw [if_neg hc] at hl ⊢
      exact h.bodies id' txs' hl

theorem SameDag.engineParents {c d : DagChain Tx} (h : SameDag c d) (parents : List Hash) :
    c.engineParents parents = d.engineParents parents := by
  rw [DagChain.engineParents, DagChain.engineParents, h.genesisDag, h.blocks]

/-- A block is applied in the same way to chains with one DAG. -/
theorem SameDag.applyWithId {c d d' : DagChain Tx} {block : DagBlock} {id : Hash}
    {r : Except String Unit} (h : SameDag c d) (hd : d.applyWithId env block id = .ok (r, d')) :
    ∃ c', c.applyWithId env block id = .ok (r, c') ∧ SameDag c' d' := by
  rcases applyWithId_cases hd with ⟨hid, rfl, rfl⟩ | ⟨hid, engine, he, hrest⟩
  · have hc : id ∈ c.blocks := by rwa [h.blocks]
    exact ⟨c, by rw [DagChain.applyWithId, if_pos hc]; rfl, h⟩
  · have hc : id ∉ c.blocks := by rwa [h.blocks]
    have hce : c.engine.addBlock env.fractions id (c.engineParents block.header.parents) =
        .ok engine := by rw [h.engine, h.engineParents, he]
    have hsame : SameDag { c with engine } { d with engine } :=
      ⟨rfl, h.tips, h.blocks, h.headers, h.genesisDag, h.bodies⟩
    rcases hrest with ⟨e, hdec, rfl, rfl⟩ | ⟨txs, hdec, rfl, rfl⟩
    · refine ⟨{ c with engine }, ?_, hsame⟩
      rw [DagChain.applyWithId, if_neg hc, hce]
      simp only [bind, Except.bind, hdec]
      rfl
    · refine ⟨({ c with engine } : DagChain Tx).insertBlock block id txs, ?_,
        hsame.insertBlock block id txs⟩
      rw [DagChain.applyWithId, if_neg hc, hce]
      simp only [bind, Except.bind, hdec]
      rfl

theorem replayRecords_append (c : DagChain Tx) (xs ys : List Bytes) :
    replayRecords env c (xs ++ ys) = (do
      match ← replayRecords env c xs with
      | .ok c => replayRecords env c ys
      | .error e => return .error e) := by
  induction xs generalizing c with
  | nil => rfl
  | cons x xs ih =>
    simp only [List.cons_append, replayRecords]
    cases hx : c.replayRecord env x with
    | error e => rfl
    | ok p =>
      obtain ⟨r, c'⟩ := p
      cases r with
      | error e => rfl
      | ok u =>
        simp only [bind, Except.bind]
        exact ih c'

theorem replayRecord_block (c : DagChain Tx) {block : DagBlock} (h : block.Fits) :
    c.replayRecord env (LogRecord.block block).serialize = c.apply env block := by
  rw [replayRecord, LogRecord.deserialize_block h]

/-- The log of a chain reproduces it: its records replay, from the genesis chain of the same
parameters, to a chain with the same DAG. -/
structure Replays (env : Env Tx) (p : Params) (c : DagChain Tx) : Prop where
  attached : c.log.attached = true
  replays : ∃ records, c.log.Holds records ∧ ∀ log, ∃ g d,
    genesis env p log = .ok g ∧ replayRecords env g records = .ok (.ok d) ∧ SameDag d c

/-- Reopening such a log succeeds, with the same DAG. -/
theorem Replays.reopen {p : Params} {c : DagChain Tx} (h : Replays env p c) :
    ∃ d, openWithGenesis env p c.log.file = .ok (.ok d) ∧ SameDag d c := by
  obtain ⟨records, hrec, hreplay⟩ := h.replays
  obtain ⟨g, d, hg, hd, hsame⟩ := hreplay (BlockLog.openAt c.log.file)
  have hread : (BlockLog.openAt c.log.file).readAll = .ok records :=
    BlockLog.readAll_of_holds ⟨hrec.1, hrec.2⟩
  refine ⟨d, ?_, hsame⟩
  rw [openWithGenesis]
  simp only [hg, bind, Except.bind, hread]
  exact hd

/-- A chain that was just opened over an empty log. -/
theorem genesis_of_open_nil {p : Params} {c : DagChain Tx}
    (h : openWithGenesis env p [] = .ok (.ok c)) :
    genesis env p (BlockLog.openAt []) = .ok c := by
  rw [openWithGenesis] at h
  obtain ⟨g, hg, h⟩ := bind_eq_ok.mp h
  rw [BlockLog.readAll_of_holds BlockLog.holds_openAt_nil] at h
  cases h
  exact hg

theorem genesis_log {p : Params} {log log' : BlockLog} {c : DagChain Tx}
    (h : genesis env p log = .ok c) : genesis env p log' = .ok { c with log := log' } := by
  rw [genesis] at h ⊢
  obtain ⟨engine, he, h⟩ := bind_eq_ok.mp h
  rw [he]
  cases h
  rfl

theorem Replays.of_open_nil {p : Params} {c : DagChain Tx}
    (h : openWithGenesis env p [] = .ok (.ok c)) : Replays env p c := by
  have hg := genesis_of_open_nil h
  have hlog : c.log = BlockLog.openAt [] := by
    rw [genesis] at hg
    obtain ⟨engine, _, hg⟩ := bind_eq_ok.mp hg
    cases hg
    rfl
  refine ⟨by rw [hlog]; rfl, [], by rw [hlog]; exact BlockLog.holds_openAt_nil, fun log => ?_⟩
  exact ⟨_, _, genesis_log hg, rfl, ⟨rfl, rfl, rfl, rfl, rfl, fun _ _ h => h⟩⟩

/-- Appending a block to the log and applying it keeps the log and the chain together. -/
theorem Replays.appendAndApply {p : Params} {c c' : DagChain Tx} {io : Option AppendFault}
    {block : DagBlock} (h : Replays env p c) (hfits : block.Fits)
    (hc : c.appendAndApply env io block = .ok (.ok (), c')) : Replays env p c' := by
  rcases appendAndApply_cases hc with ⟨e, log, _, hr, _⟩ | ⟨log, happ, happly⟩
  · cases hr
  · rcases BlockLog.append_cases happ with ⟨_, hlen, rfl⟩ | ⟨e, he⟩
    · obtain ⟨records, hrec, hreplay⟩ := h.replays
      have hlog' : c'.log = c.log.write (BlockLog.frame (LogRecord.block block).serialize) := by
        rcases applyWithId_cases happly with ⟨_, _, rfl⟩ | ⟨_, engine, _, hrest⟩
        · rfl
        · rcases hrest with ⟨e, _, _, rfl⟩ | ⟨txs, _, _, rfl⟩ <;> rfl
      refine ⟨?_, records ++ [(LogRecord.block block).serialize], ?_, fun log => ?_⟩
      · rw [hlog', BlockLog.write_attached, h.attached]
      · rw [hlog']
        exact BlockLog.holds_write h.attached hrec hlen
      · obtain ⟨g, d, hg, hd, hsame⟩ := hreplay log
        have hsame' : SameDag d
            { c with log := c.log.write (BlockLog.frame (LogRecord.block block).serialize) } :=
          ⟨hsame.engine, hsame.tips, hsame.blocks, hsame.headers, hsame.genesisDag, hsame.bodies⟩
        obtain ⟨d', hd', hsame''⟩ := hsame'.applyWithId happly
        refine ⟨g, d', hg, ?_, hsame''⟩
        rw [replayRecords_append, hd]
        simp only [bind, Except.bind, replayRecords, replayRecord_block d hfits]
        rw [DagChain.apply, hd']
        rfl
    · cases he

end TaoDag.Dagvm.DagChain
