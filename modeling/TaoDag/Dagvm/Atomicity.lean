import TaoDag.Dagvm.Replay
import TaoDag.Dagvm.Run
import TaoDag.Runtime.Transfer

namespace TaoDag.Dagvm.DagChain

open Consensus (DagBlock DagBlockHeader)
open Database (AppendFault BlockLog)
open TaoDag.Runtime (Env Transaction transferEnv)

variable {Tx : Type} {env : Env Tx}

/-- `accept` is atomic on error: an `Err` leaves the chain as it was. -/
def AtomicOnError (env : Env Tx) (io : Option AppendFault) (now : Int) (c : DagChain Tx)
    (block : DagBlock) : Prop :=
  ∀ e c', c.accept env io now block = .ok (.error e, c') → c' = c

/-- The record of a block is written whole or not at all. -/
def CleanAppend (io : Option AppendFault) (c : DagChain Tx) (block : DagBlock) : Prop :=
  (c.log.append io (LogRecord.block block).serialize).1 = .ok () ∨
  (c.log.append io (LogRecord.block block).serialize).2 = c.log

/-- Every transaction of the block decodes. -/
def Decodes (env : Env Tx) (block : DagBlock) : Prop :=
  ∃ txs, decodeTxs env block.transactions = .ok txs

/-- The record of the block gets into the log, and the engine takes the block. -/
def Taken (env : Env Tx) (io : Option AppendFault) (c : DagChain Tx) (block : DagBlock) : Prop :=
  (c.log.append io (LogRecord.block block).serialize).1 = .ok () ∧
  ∃ engine, c.engine.addBlock env.fractions (block.id env.blake3)
    (c.engineParents block.header.parents) = .ok engine

theorem appendAndApply_atomic {io : Option AppendFault} {c c' : DagChain Tx} {block : DagBlock}
    {e : String} (hclean : CleanAppend io c block) (hdec : Taken env io c block → Decodes env block)
    (h : c.appendAndApply env io block = .ok (.error e, c')) : c' = c := by
  rcases appendAndApply_cases h with ⟨e', log, happ, _, rfl⟩ | ⟨log, happ, happly⟩
  · have hlog : log = c.log := by
      rcases hclean with hok | hsame
      · rw [happ] at hok
        cases hok
      · rw [happ] at hsame
        exact hsame
    rw [hlog]
  · rcases applyWithId_cases happly with ⟨_, hr, _⟩ | ⟨_, engine, he, hrest⟩
    · cases hr
    · have happ1 : (c.log.append io (LogRecord.block block).serialize).1 = .ok () := by rw [happ]
      obtain ⟨txs, htxs⟩ := hdec ⟨happ1, engine, he⟩
      rcases hrest with ⟨e', hd, _, _⟩ | ⟨txs', _, hr, _⟩
      · rw [htxs] at hd
        cases hd
      · cases hr

/-- With the log handle attached to its file, `accept` is atomic on exactly these blocks: one
that passes the checks is written whole or not at all, and when it is written and the engine
takes it, its transactions decode. -/
theorem atomicOnError_iff {io : Option AppendFault} {now : Int} {c : DagChain Tx}
    {block : DagBlock} (ha : c.log.attached = true) :
    AtomicOnError env io now c block ↔
      (Passes env now c block →
        CleanAppend io c block ∧ (Taken env io c block → Decodes env block)) := by
  constructor
  · intro hatomic hp
    have hacc : c.accept env io now block = c.appendAndApply env io block :=
      accept_of_passes hp
    constructor
    · cases happ : c.log.append io (LogRecord.block block).serialize with
      | mk r log =>
        cases r with
        | ok u => exact Or.inl (by rw [happ])
        | error e =>
          have hc : c.accept env io now block = .ok (.error e, { c with log }) := by
            rw [hacc, appendAndApply, happ]
            rfl
          have hlog := congrArg DagChain.log (hatomic e _ hc)
          exact Or.inr (by rw [happ]; exact hlog)
    · rintro ⟨happ1, engine, he⟩
      cases hd : decodeTxs env block.transactions with
      | ok txs => exact ⟨txs, hd⟩
      | error e =>
        exfalso
        cases happ : c.log.append io (LogRecord.block block).serialize with
        | mk r log =>
          rw [happ] at happ1
          change r = .ok () at happ1
          subst happ1
          have hc : c.accept env io now block = .ok (.error e, { c with log, engine }) := by
            rw [hacc, appendAndApply, happ]
            change applyWithId env { c with log } block (block.id env.blake3) = _
            rw [applyWithId, if_neg hp.unknown]
            change (c.engine.addBlock env.fractions (block.id env.blake3)
              (c.engineParents block.header.parents) >>= _) = _
            rw [he]
            simp only [bind, Except.bind, hd]
            rfl
          have hlog : log = c.log := congrArg DagChain.log (hatomic e _ hc)
          rcases BlockLog.append_cases happ with ⟨_, _, hw⟩ | ⟨e', he'⟩
          · refine BlockLog.write_ne ha ?_ (hw.symm.trans hlog)
            intro hnil
            have hlen := BlockLog.frame_length (LogRecord.block block).serialize
            rw [hnil] at hlen
            simp at hlen
          · cases he'
  · intro hcond e c' hacc
    rcases accept_cases hacc with rfl | ⟨hp, happ⟩
    · rfl
    · obtain ⟨hclean, hdec⟩ := hcond hp
      exact appendAndApply_atomic hclean hdec happ

/-- A block that can be persisted: its record is written whole or not at all, and its
transactions decode. Its lists have a `u64` length. -/
structure Persistable (env : Env Tx) (io : Option AppendFault) (c : DagChain Tx)
    (block : DagBlock) : Prop where
  fits : block.Fits
  clean : CleanAppend io c block
  decodes : Decodes env block

/-- The calls of an unpruned chain, on blocks that can be persisted. -/
def PersistableCall (env : Env Tx) (c : DagChain Tx) : Call Tx → Prop
  | .mine io transactions timestamp =>
      ∀ block, c.buildBlockAt env transactions timestamp = .ok block → Persistable env io c block
  | .accept io _ block => Persistable env io c block
  | .virtualState => True
  | .setFinalityDepth _ => True
  | .pruneFinalizedTransactions => True
  | .prune _ => False
  | .importSnapshot _ _ _ => False

theorem Replays.of_same {p : Params} {c c' : DagChain Tx} (h : Replays env p c)
    (hlog : c'.log = c.log) (hsame : SameDag c c') : Replays env p c' := by
  obtain ⟨records, hrec, hreplay⟩ := h.replays
  refine ⟨by rw [hlog]; exact h.attached, records, by rw [hlog]; exact hrec, fun log => ?_⟩
  obtain ⟨g, d, hg, hd, hs⟩ := hreplay log
  exact ⟨g, d, hg, hd, ⟨hs.engine.trans hsame.engine, hs.tips.trans hsame.tips,
    hs.blocks.trans hsame.blocks, hs.headers.trans hsame.headers,
    hs.genesisDag.trans hsame.genesisDag, fun id txs hl => hs.bodies id txs (hsame.bodies id txs hl)⟩⟩

private theorem appendAndApply_replays {p : Params} {c c' : DagChain Tx}
    {io : Option AppendFault} {block : DagBlock} {r : Except String Unit} (h : Replays env p c)
    (hp : Persistable env io c block) (hc : c.appendAndApply env io block = .ok (r, c')) :
    Replays env p c' := by
  cases r with
  | ok u => exact h.appendAndApply hp.fits hc
  | error e =>
    have hsame := appendAndApply_atomic hp.clean (fun _ => hp.decodes) hc
    rwa [hsame]

/-- Every such call keeps the log in step with the chain. -/
theorem Replays.step {p : Params} {c c' : DagChain Tx} {call : Call Tx} (h : Replays env p c)
    (hcall : PersistableCall env c call) (hs : c.step env call = .ok c') : Replays env p c' := by
  cases call with
  | mine io transactions timestamp =>
    obtain ⟨⟨r, d⟩, hm, rfl⟩ := map_eq_ok.mp hs
    rw [mineAt] at hm
    obtain ⟨block, hb, hm⟩ := bind_eq_ok.mp hm
    obtain ⟨⟨r', d'⟩, ha, hm⟩ := bind_eq_ok.mp hm
    have hrep := appendAndApply_replays h (hcall block hb) ha
    cases r' <;> cases hm <;> exact hrep
  | accept io now block =>
    obtain ⟨⟨r, d⟩, ha, rfl⟩ := map_eq_ok.mp hs
    rcases accept_cases ha with rfl | ⟨_, ha⟩
    · exact h
    · exact appendAndApply_replays h hcall ha
  | virtualState =>
    obtain ⟨⟨r, d⟩, hv, rfl⟩ := map_eq_ok.mp hs
    obtain ⟨state, executed, checkpoint, rfl⟩ := virtualState_frame hv
    exact h.of_same rfl ⟨rfl, rfl, rfl, rfl, rfl, fun _ _ hl => hl⟩
  | setFinalityDepth depth =>
    cases hs
    exact h.of_same rfl ⟨rfl, rfl, rfl, rfl, rfl, fun _ _ hl => hl⟩
  | pruneFinalizedTransactions =>
    obtain ⟨⟨n, d⟩, hd, rfl⟩ := map_eq_ok.mp hs
    obtain ⟨blockTxs, historyPruned, state, executed, rfl, hb⟩ :=
      pruneFinalizedTransactions_frame hd
    exact h.of_same rfl ⟨rfl, rfl, rfl, rfl, rfl, hb⟩
  | prune io => exact hcall.elim
  | importSnapshot io now bytes => exact hcall.elim

/-- `accept` is atomic on error exactly on the blocks that are persisted whole or not at all and
whose transactions decode once they are persisted; an `Err` then leaves the log, and so what it
reopens to, as it was. In every run over such blocks the log reopens, to the DAG of the chain. -/
theorem accept_atomic_iff (env : Env Tx) :
    (∀ (io : Option AppendFault) (now : Int) (c : DagChain Tx) (block : DagBlock),
      c.log.attached = true →
      (AtomicOnError env io now c block ↔
        (Passes env now c block →
          CleanAppend io c block ∧ (Taken env io c block → Decodes env block)))) ∧
    ∀ (p : Params) (c₀ c : DagChain Tx), openWithGenesis env p [] = .ok (.ok c₀) →
      Reaches env (PersistableCall env) c₀ c →
      c.log.attached = true ∧
        ∃ d, openWithGenesis env p c.log.file = .ok (.ok d) ∧ SameDag d c := by
  refine ⟨fun io now c block ha => atomicOnError_iff ha, ?_⟩
  intro p c₀ c hopen hrun
  have hrep : Replays env p c :=
    hrun.invariant (Replays.of_open_nil hopen) fun d call d' hd hcall hs => hd.step hcall hs
  exact ⟨hrep.attached, hrep.reopen⟩

/-- A run over blocks that can be persisted: one empty block on a chain that was just opened. -/
theorem accept_atomic_easyChild :
    ∃ c₀ c, openWithGenesis transferEnv easyParams [] = .ok (.ok c₀) ∧
      c₀.accept transferEnv none 1750000000 (easyChild []) = .ok (.ok (), c) ∧
      ∃ d, openWithGenesis transferEnv easyParams c.log.file = .ok (.ok d) ∧ SameDag d c := by
  have hrun : returnsWith (openWithGenesis transferEnv easyParams []) (fun o =>
      returnsWith o fun c₀ =>
        returnsWith (c₀.accept transferEnv none 1750000000 (easyChild [])) fun p =>
          returnsWith p.1 fun _ => true) = true := by decide +kernel
  obtain ⟨_, hopen, ho⟩ := returnsWith_iff.mp hrun
  obtain ⟨c₀, rfl, hc⟩ := returnsWith_iff.mp ho
  obtain ⟨⟨_, c⟩, hacc, hr⟩ := returnsWith_iff.mp hc
  obtain ⟨_, rfl, _⟩ := returnsWith_iff.mp hr
  have hfits : (easyChild []).Fits :=
    ⟨⟨by decide, by decide⟩, by decide, fun t ht => by cases ht⟩
  have hsmall : (LogRecord.block (easyChild [])).serialize.length < 2^32 := by decide +kernel
  have hclean : CleanAppend none c₀ (easyChild []) := by
    left
    rw [BlockLog.append, if_pos hsmall]
  have hcall : PersistableCall transferEnv c₀ (.accept none 1750000000 (easyChild [])) :=
    ⟨hfits, hclean, [], rfl⟩
  have hstep : StepOn transferEnv (PersistableCall transferEnv) c₀ c :=
    ⟨_, hcall, map_eq_ok.mpr ⟨_, hacc, rfl⟩⟩
  exact ⟨c₀, c, hopen, hacc,
    ((accept_atomic_iff transferEnv).2 easyParams c₀ c hopen (.single hstep)).2⟩

/-- A block whose one transaction is the empty byte string passes every check and is written to
the log and given to the engine before the decoding fails: `accept` returns an `Err`, the chain
has changed, and its log no longer opens. -/
theorem accept_not_atomic :
    ∃ c e c', openWithGenesis transferEnv easyParams [] = .ok (.ok c) ∧
      c.accept transferEnv none 1750000000 (easyChild [[]]) = .ok (.error e, c') ∧
      c'.log ≠ c.log ∧ c'.engine.gd.keys ≠ c.engine.gd.keys ∧
      ∃ e', openWithGenesis transferEnv easyParams c'.log.file = .ok (.error e') := by
  have hrun : returnsWith (openWithGenesis transferEnv easyParams []) (fun o =>
      returnsWith o fun c =>
        returnsWith (c.accept transferEnv none 1750000000 (easyChild [[]])) fun p =>
          fails p.1 && (p.2.log != c.log && p.2.engine.gd.keys != c.engine.gd.keys) &&
            returnsWith (openWithGenesis transferEnv easyParams p.2.log.file) fails) = true := by
    decide +kernel
  obtain ⟨_, hopen, ho⟩ := returnsWith_iff.mp hrun
  obtain ⟨c, rfl, hc⟩ := returnsWith_iff.mp ho
  obtain ⟨⟨_, c'⟩, hacc, hr⟩ := returnsWith_iff.mp hc
  simp only [Bool.and_eq_true, bne_iff_ne] at hr
  obtain ⟨⟨hfail, hlog, hgd⟩, hre⟩ := hr
  obtain ⟨e, rfl⟩ := fails_iff.mp hfail
  obtain ⟨_, hreopen, hfail'⟩ := returnsWith_iff.mp hre
  obtain ⟨e', rfl⟩ := fails_iff.mp hfail'
  exact ⟨c, e, c', hopen, hacc, hlog, hgd, e', hreopen⟩

end TaoDag.Dagvm.DagChain
