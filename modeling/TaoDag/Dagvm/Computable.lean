import TaoDag.Dagvm.Linear
import TaoDag.Dagvm.VirtualState

namespace TaoDag.Dagvm

open BlockDag (Reach)
open Consensus (DagBlock)
open Database (AppendFault)
open TaoDag.Runtime (Bank BankError BankM Env Transaction transferEnv run_bind_eq_ok run_lift_eq)

namespace DagChain

variable {Tx : Type} {env : Env Tx} {p : Params} {c c' : DagChain Tx} {bank : Bank}
  {blocks : List DagBlock} {l order : List Hash}

/-- A transaction that the bank processes, whatever comes of it: its signatures verify, and it
sanitizes. -/
def Processes (env : Env Tx) (tx : Tx) : Prop := env.verify tx = .ok () ∧ env.sanitizes tx = true

/-- A bank computation that ends with a value. -/
def Computes {α : Type} (x : BankM α) : Prop := ∃ a, x.run = .ok (.ok a)

theorem executeTransaction_computes {tx : Tx} {blockhash : Bytes32} :
    Computes (bank.executeTransaction env tx blockhash) ↔ Processes env tx := by
  rw [Computes, Bank.executeTransaction, Processes]
  cases hv : env.verify tx with
  | error e =>
    constructor
    · rintro ⟨_, h⟩
      cases h
    · rintro ⟨h, _⟩
      cases h
  | ok u =>
    by_cases hs : env.sanitizes tx = true
    · refine ⟨fun _ => ⟨rfl, hs⟩, fun _ => ?_⟩
      rw [assert, if_pos hs]
      exact ⟨_, rfl⟩
    · constructor
      · rw [assert, if_neg hs]
        rintro ⟨_, h⟩
        cases h
      · exact fun h => absurd h.2 hs

theorem replayTxs_computes {txs : List Tx} :
    Computes (replayTxs env bank txs) ↔ ∀ tx ∈ txs, Processes env tx := by
  induction txs generalizing bank with
  | nil => exact ⟨fun _ tx htx => absurd htx List.not_mem_nil, fun _ => ⟨bank, rfl⟩⟩
  | cons tx txs ih =>
    rw [List.forall_mem_cons]
    constructor
    · rintro ⟨last, hrun⟩
      obtain ⟨next, htx, hrest⟩ := run_bind_eq_ok.mp hrun
      exact ⟨executeTransaction_computes.mp ⟨next, htx⟩, ih.mp ⟨last, hrest⟩⟩
    · rintro ⟨htx, hrest⟩
      obtain ⟨next, hnext⟩ := executeTransaction_computes.mpr htx
      obtain ⟨last, hlast⟩ := ih.mpr hrest
      exact ⟨last, run_bind_eq_ok.mpr ⟨next, hnext, hlast⟩⟩

theorem replayCoinbase_computes {block : Hash} (h : block ∈ c.headers) :
    Computes (c.replayCoinbase env bank block) := by
  obtain ⟨header, hheader⟩ := Option.isSome_iff_exists.mp (AList.lookup_isSome.mpr h)
  rw [replayCoinbase, hheader]
  split_ifs
  · exact ⟨bank, rfl⟩
  · exact ⟨_, rfl⟩

theorem replayBlock_computes {block : Hash} (h : block ∈ c.headers) :
    Computes (c.replayBlock env bank block) ↔ ∀ tx ∈ c.bodyOf block, Processes env tx := by
  rw [replayBlock, bodyOf]
  split_ifs with hgenesis
  · exact ⟨fun _ tx htx => absurd htx List.not_mem_nil, fun _ => ⟨bank, rfl⟩⟩
  · constructor
    · rintro ⟨last, hrun⟩
      obtain ⟨paid, _, hrest⟩ := run_bind_eq_ok.mp hrun
      exact replayTxs_computes.mp ⟨last, hrest⟩
    · intro hall
      obtain ⟨paid, hpaid⟩ := replayCoinbase_computes h
      obtain ⟨last, hlast⟩ := replayTxs_computes.mpr hall
      exact ⟨last, run_bind_eq_ok.mpr ⟨paid, hpaid, hlast⟩⟩

/-- A replay computes a state exactly when it processes every transaction: one that it cannot
process ends it. -/
theorem replayBlocks_computes (h : ∀ b ∈ l, b ∈ c.headers) :
    Computes (c.replayBlocks env bank l) ↔ ∀ b ∈ l, ∀ tx ∈ c.bodyOf b, Processes env tx := by
  induction l generalizing bank with
  | nil => exact ⟨fun _ b hb => absurd hb List.not_mem_nil, fun _ => ⟨bank, rfl⟩⟩
  | cons b l ih =>
    rw [List.forall_mem_cons] at h ⊢
    rw [replayBlocks, List.foldlM_cons]
    constructor
    · rintro ⟨last, hrun⟩
      obtain ⟨next, hb, hrest⟩ := run_bind_eq_ok.mp hrun
      exact ⟨(replayBlock_computes h.1).mp ⟨next, hb⟩, (ih h.2).mp ⟨last, hrest⟩⟩
    · rintro ⟨hb, hrest⟩
      obtain ⟨next, hnext⟩ := (replayBlock_computes h.1).mpr hb
      obtain ⟨last, hlast⟩ := (ih h.2).mpr hrest
      exact ⟨last, run_bind_eq_ok.mpr ⟨next, hnext, hlast⟩⟩

/-- A chain that has executed nothing yet, at the default finality depth. -/
structure Unexecuted (c : DagChain Tx) : Prop where
  uncached : Uncached c
  depth : c.finalityDepth = defaultFinalityDepth

theorem Unexecuted.apply (h : Unexecuted c) {block : DagBlock} {r : Except String Unit}
    (hrun : c.apply env block = .ok (r, c')) : Unexecuted c' := by
  obtain ⟨_, _, _, _, _, rfl⟩ := applyWithId_dag hrun
  exact ⟨⟨h.uncached.checkpoint, h.uncached.state, h.uncached.executed, h.uncached.kept⟩, h.depth⟩

theorem Unexecuted.appendAndApply (h : Unexecuted c) {io : Option AppendFault} {block : DagBlock}
    {r : Except String Unit} (hrun : c.appendAndApply env io block = .ok (r, c')) :
    Unexecuted c' := by
  rcases appendAndApply_cases hrun with ⟨_, log, _, _, rfl⟩ | ⟨log, _, happly⟩
  · exact ⟨⟨h.uncached.checkpoint, h.uncached.state, h.uncached.executed, h.uncached.kept⟩, h.depth⟩
  · have hlog : Unexecuted { c with log } :=
      ⟨⟨h.uncached.checkpoint, h.uncached.state, h.uncached.executed, h.uncached.kept⟩, h.depth⟩
    exact hlog.apply happly

theorem Unexecuted.accept (h : Unexecuted c) {io : Option AppendFault} {now : Int} {block : DagBlock}
    {r : Except String Unit} (hrun : c.accept env io now block = .ok (r, c')) : Unexecuted c' := by
  rcases accept_cases hrun with rfl | ⟨_, happend⟩
  · exact h
  · exact h.appendAndApply happend

theorem Takes.unexecuted (h : Takes env p blocks c) : Unexecuted c := by
  induction h with
  | start run =>
    refine ⟨open_uncached run, ?_⟩
    obtain ⟨engine, _, hgen⟩ := bind_eq_ok.mp (genesis_of_open_nil run)
    cases hgen
    rfl
  | accept before run ih => exact ih.accept run
  | mine before run ih =>
    obtain ⟨_, _, _, happend, _⟩ := mineAt_spec run
    exact ih.appendAndApply happend
  | refuse before run engine ih => exact ih.accept run

/-- The first checkpoint is the state after executed blocks. -/
theorem advanceCheckpoint_computes {target : Nat} (hnone : c.checkpoint = none)
    (hpos : 0 < target) (hle : target ≤ c.executed.length) (hknown : ∀ b ∈ c.executed, b ∈ c.headers)
    (hall : ∀ b ∈ c.executed, ∀ tx ∈ c.bodyOf b, Processes env tx) :
    Computes (c.advanceCheckpoint env target) := by
  have hreplay : Computes (c.replayBlocks env (c.openBank env true) (c.executed.take target)) :=
    (replayBlocks_computes fun b hb => hknown b (List.mem_of_mem_take hb)).mpr
      fun b hb => hall b (List.mem_of_mem_take hb)
  obtain ⟨snapshot, hsnapshot⟩ := hreplay
  have hlt : target - 1 < c.executed.length := by omega
  have hlast : (expect "index out of bounds" c.executed[target - 1]? : Result Hash) =
      .ok c.executed[target - 1] := by
    rw [List.getElem?_eq_getElem hlt]
    rfl
  rw [advanceCheckpoint, hnone]
  exact ⟨⟨target, c.executed[target - 1], snapshot.db.dump⟩, run_bind_eq_ok.mpr ⟨snapshot, hsnapshot,
    run_bind_eq_ok.mpr ⟨_, run_lift_eq.mpr ⟨_, hlast, rfl⟩, rfl⟩⟩⟩

theorem maybeAdvance_computes (hnone : c.checkpoint = none)
    (hdepth : c.finalityDepth = defaultFinalityDepth) (hknown : ∀ b ∈ c.executed, b ∈ c.headers)
    (hall : ∀ b ∈ c.executed, ∀ tx ∈ c.bodyOf b, Processes env tx) :
    Computes (c.maybeAdvanceCheckpoint env) := by
  -- twice the default depth is due, and half of it is kept
  have hdue : c.maybeAdvanceCheckpoint env =
      if c.executed.length < 200 then return none
      else if c.executed.length - 100 ≤ 0 then return none
      else return some (← c.advanceCheckpoint env (c.executed.length - 100)) := by
    rw [maybeAdvanceCheckpoint, hdepth, hnone]
    rfl
  rw [hdue]
  split_ifs with hfew hzero
  · exact ⟨none, rfl⟩
  · exact ⟨none, rfl⟩
  · obtain ⟨cp, hcp⟩ := advanceCheckpoint_computes hnone (by omega)
      (Nat.sub_le c.executed.length 100) hknown hall
    exact ⟨some cp, run_bind_eq_ok.mpr ⟨cp, hcp, rfl⟩⟩

/-- What a chain that has executed nothing replays: the whole order, from the genesis state. -/
theorem Unexecuted.virtualBank (h : Unexecuted c) :
    c.virtualBank env order = c.replayBlocks env (c.freshBank env) order := by
  have hscratch : c.virtualBank env order = c.scratchBank env order :=
    virtualBank_scratch fun bank hbank => by
      rw [h.uncached.state] at hbank
      cases hbank
  have hmatch : c.matchingCheckpoint order = .ok none := by
    rw [matchingCheckpoint, h.uncached.checkpoint]
    rfl
  rw [hscratch, scratchBank_of_none hmatch h.uncached.kept]

/-- Both ways to the state compute it exactly when the replay of the whole order does. -/
theorem Unexecuted.computes_iff (h : Unexecuted c) (horder : c.totalOrder = .ok order)
    (hknown : ∀ b ∈ order, b ∈ c.headers) :
    ((∃ bank c', c.virtualState env = .ok (.ok bank, c')) ∧ Computes (c.rebuildState env)) ↔
      ∀ b ∈ order, ∀ tx ∈ c.bodyOf b, Processes env tx := by
  have hreplay := @replayBlocks_computes Tx env c (c.freshBank env) order hknown
  have hrebuild : Computes (c.rebuildState env) ↔
      Computes (c.replayBlocks env (c.freshBank env) order) := by
    rw [Computes, rebuildState_eq horder h.uncached.kept]
    exact Iff.rfl
  rw [hrebuild, hreplay]
  refine ⟨fun hboth => hboth.2, fun hall => ⟨?_, hall⟩⟩
  obtain ⟨bank, hbank⟩ := hreplay.mpr hall
  obtain ⟨cp, hcp⟩ := maybeAdvance_computes (c := { c with state := some bank, executed := order })
    h.uncached.checkpoint h.depth hknown hall
  refine ⟨bank, { c with state := some bank, executed := order, checkpoint := cp }, ?_⟩
  refine bind_eq_ok.mpr ⟨order, horder, bind_eq_ok.mpr ⟨.ok bank, ?_, ?_⟩⟩
  · rw [h.virtualBank, hbank]
  · exact bind_eq_ok.mpr ⟨.ok cp, hcp, rfl⟩

/-- The state of a chain that was never pruned is computed by both ways exactly when every
transaction of the blocks in the past of the tip verifies and sanitizes. -/
theorem state_computes_iff (h : Takes env p blocks c) :
    ((∃ bank c', c.virtualState env = .ok (.ok bank, c')) ∧
        ∃ bank, (c.rebuildState env).run = .ok (.ok bank)) ↔
      ∀ b, Reach c.parentsOf b c.engine.tip → ∀ tx ∈ c.bodyOf b, Processes env tx := by
  obtain ⟨holds, unpruned⟩ := h.holds
  have rooted := unpruned.anchored.rooted
  obtain ⟨order, horder⟩ := rooted.totalOrder_total
  have hlists := (rooted.orderTo.post horder).lists rooted (holds.mem_engine holds.tip_mem).2
  have hmem : ∀ b, b ∈ order ↔ Reach c.parentsOf b c.engine.tip :=
    fun b => (hlists.mem b).trans (holds.reach_iff holds.tip_mem).symm
  have hknown : ∀ b ∈ order, b ∈ c.headers := by
    intro b hb
    obtain ⟨hreach, hne⟩ := (hlists.mem b).mp hb
    have hengine := rooted.grown.ready_best.1.index.dag.mem_of_reach hreach
      (holds.mem_engine holds.tip_mem).1
    obtain ⟨header, hheader⟩ := holds.blocks.mp (holds.mem_blocks hengine hne)
    exact AList.lookup_isSome.mp (by rw [hheader]; rfl)
  simp only [← hmem]
  exact h.unexecuted.computes_iff horder hknown

end DagChain

section Example

open DagChain

/-- A block with a signed transfer. -/
theorem state_computes_iff_transfer : ∃ c : DagChain Transaction,
    Takes transferEnv fundedParams [transferBlock 1] c ∧
      (((∃ bank c', c.virtualState transferEnv = .ok (.ok bank, c')) ∧
          ∃ bank, (c.rebuildState transferEnv).run = .ok (.ok bank)) ↔
        ∀ b, Reach c.parentsOf b c.engine.tip → ∀ tx ∈ c.bodyOf b, Processes transferEnv tx) := by
  have hrun : returnsWith (openWithGenesis transferEnv fundedParams []) (fun o =>
      returnsWith o fun c => returnsWith (c.accept transferEnv none 1750000000 (transferBlock 1))
        fun r => returnsWith r.1 fun _ => true) = true := by decide +kernel
  obtain ⟨_, hopen, ho⟩ := returnsWith_iff.mp hrun
  obtain ⟨c₀, rfl, hc⟩ := returnsWith_iff.mp ho
  obtain ⟨⟨r, c⟩, hacc, hr⟩ := returnsWith_iff.mp hc
  obtain ⟨_, rfl, _⟩ := returnsWith_iff.mp hr
  have htakes : Takes transferEnv fundedParams [transferBlock 1] c := (Takes.start hopen).accept hacc
  exact ⟨c, htakes, state_computes_iff htakes⟩

/-- The transfer with no signature in the place of its signature. -/
def unsignedTransfer : Transaction := { signedTransfer with signatures := [List.replicate 64 0] }

def unsignedBlock : DagBlock := easyChild [Transaction.codec.encode unsignedTransfer]

/-- A block with an unsigned transfer is accepted, and no state is computed any more. -/
theorem state_uncomputable : ∃ c : DagChain Transaction,
    Takes transferEnv fundedParams [unsignedBlock] c ∧
      (∀ bank c', c.virtualState transferEnv ≠ .ok (.ok bank, c')) ∧
      ∀ bank, (c.rebuildState transferEnv).run ≠ .ok (.ok bank) := by
  have hrun : returnsWith (openWithGenesis transferEnv fundedParams []) (fun o =>
      returnsWith o fun c => returnsWith (c.accept transferEnv none 1750000000 unsignedBlock)
        fun r => returnsWith r.1 fun _ =>
          returnsWith (r.2.virtualState transferEnv) (fun v => !returnsWith v.1 fun _ => true) &&
          returnsWith (r.2.rebuildState transferEnv).run fun v => !returnsWith v fun _ => true) =
      true := by decide +kernel
  obtain ⟨_, hopen, ho⟩ := returnsWith_iff.mp hrun
  obtain ⟨c₀, rfl, hc⟩ := returnsWith_iff.mp ho
  obtain ⟨⟨r, c⟩, hacc, hr⟩ := returnsWith_iff.mp hc
  obtain ⟨_, rfl, hr⟩ := returnsWith_iff.mp hr
  obtain ⟨hvirtual, hrebuild⟩ := (Bool.and_eq_true _ _).mp hr
  obtain ⟨v, hv, hfails⟩ := returnsWith_iff.mp hvirtual
  obtain ⟨v', hv', hfails'⟩ := returnsWith_iff.mp hrebuild
  refine ⟨c, (Takes.start hopen).accept hacc, fun bank c' h => ?_, fun bank h => ?_⟩
  · rw [hv] at h
    cases h
    cases hfails
  · rw [hv'] at h
    cases h
    cases hfails'

end Example

end TaoDag.Dagvm
