import TaoDag.Dagvm.Import

namespace TaoDag.Dagvm.DagChain

open Consensus (DagBlock DagBlockHeader Pubkey Target)
open Database (Account AppendFault BlockLog ReplaceFault)
open TaoDag.Runtime (Env)

variable {Tx : Type} {env : Env Tx} {p : Params} {c c' : DagChain Tx} {I : DagChain Tx → Prop}

/-- A property that the replay of a log keeps. -/
structure Replayed (env : Env Tx) (I : DagChain Tx → Prop) : Prop where
  apply : ∀ {c c' : DagChain Tx} {block : DagBlock} {id : Hash} {r : Except String Unit}, I c →
    c.applyWithId env block id = .ok (r, c') → I c'
  load : ∀ {c c' : DagChain Tx} {header : DagBlockHeader} {accounts : List (Pubkey × Account)}
    {proof : List DagBlockHeader}, I c → c.loadSnapshot env header accounts proof = .ok c' → I c'

/-- A property of the DAG that every operation on the DAG keeps. -/
structure Kept (env : Env Tx) (I : DagChain Tx → Prop) : Prop extends Replayed env I where
  frame : ∀ {c c' : DagChain Tx}, I c → c'.engine = c.engine → c'.k = c.k →
    c'.genesisDag = c.genesisDag → c'.blocks = c.blocks → c'.headers = c.headers → I c'
  prune : ∀ {c c' : DagChain Tx} {io : Option ReplaceFault} {r : Except Runtime.BankError Nat},
    I c → c.prune env io = .ok (r, c') → I c'

namespace Replayed

theorem replayRecord (k : Replayed env I) (h : I c) {bytes : Bytes} {r : Except String Unit}
    (hrun : c.replayRecord env bytes = .ok (r, c')) : I c' := by
  rw [DagChain.replayRecord] at hrun
  cases hrec : LogRecord.codec.deserialize bytes with
  | ok record =>
    rw [hrec] at hrun
    cases record with
    | snapshot header accounts proof =>
      obtain ⟨d, hload, hrun⟩ := bind_eq_ok.mp hrun
      cases hrun
      exact k.load h hload
    | block block => exact k.apply h hrun
  | error primary =>
    simp only [hrec] at hrun
    cases hleg : legacyLogRecordCodec.deserialize bytes with
    | ok legacy =>
      rw [hleg] at hrun
      exact k.apply h hrun
    | error e =>
      rw [hleg] at hrun
      cases hrun
      exact h

theorem replayRecords (k : Replayed env I) (h : I c) {records : List Bytes}
    (hrun : DagChain.replayRecords env c records = .ok (.ok c')) : I c' := by
  induction records generalizing c with
  | nil =>
    cases hrun
    exact h
  | cons bytes records ih =>
    obtain ⟨⟨r, d⟩, hrec, hrun⟩ := bind_eq_ok.mp hrun
    cases r with
    | error e => cases hrun
    | ok u => exact ih (k.replayRecord h hrec) hrun

/-- A property of the new chain is one of every chain that is opened. -/
theorem opened (k : Replayed env I) {file : Bytes}
    (hgenesis : ∀ {log : BlockLog} {c : DagChain Tx}, genesis env p log = .ok c → I c)
    (hopen : openWithGenesis env p file = .ok (.ok c)) : I c := by
  obtain ⟨c₀, hgen, hopen⟩ := bind_eq_ok.mp hopen
  cases hread : (BlockLog.openAt file).readAll with
  | error e =>
    rw [hread] at hopen
    cases hopen
  | ok records =>
    rw [hread] at hopen
    exact k.replayRecords (hgenesis hgen) hopen

end Replayed

namespace Kept

theorem appendAndApply (k : Kept env I) (h : I c) {io : Option AppendFault} {block : DagBlock}
    {r : Except String Unit} (hrun : c.appendAndApply env io block = .ok (r, c')) : I c' := by
  rcases appendAndApply_cases hrun with ⟨e, log, _, _, rfl⟩ | ⟨log, _, hrun⟩
  · exact k.frame h rfl rfl rfl rfl rfl
  · have hlog : I { c with log } := k.frame h rfl rfl rfl rfl rfl
    exact k.apply hlog hrun

theorem accept (k : Kept env I) (h : I c) {io : Option AppendFault} {now : Int} {block : DagBlock}
    {r : Except String Unit} (hrun : c.accept env io now block = .ok (r, c')) : I c' := by
  rcases accept_cases hrun with rfl | ⟨_, hrun⟩
  · exact h
  · exact k.appendAndApply h hrun

theorem mineAt (k : Kept env I) (h : I c) {io : Option AppendFault} {txs : List Tx}
    {timestamp : BitVec 64} {r : Except String DagBlock}
    (hrun : c.mineAt env io txs timestamp = .ok (r, c')) : I c' := by
  obtain ⟨block, _, hrun⟩ := bind_eq_ok.mp hrun
  obtain ⟨⟨v, d⟩, happly, hrun⟩ := bind_eq_ok.mp hrun
  cases v with
  | ok u =>
    cases hrun
    exact k.appendAndApply h happly
  | error e =>
    cases hrun
    exact k.appendAndApply h happly

theorem applySuffix (k : Kept env I) (h : I c) {suffix : List DagBlock} {r : Except String Unit}
    (hrun : c.applySuffix env suffix = .ok (r, c')) : I c' := by
  induction suffix generalizing c with
  | nil =>
    cases hrun
    exact h
  | cons block suffix ih =>
    obtain ⟨⟨v, d⟩, happly, hrun⟩ := bind_eq_ok.mp hrun
    cases v with
    | error e =>
      cases hrun
      exact k.apply h happly
    | ok u => exact ih (k.apply h happly) hrun

theorem importSnapshot (k : Kept env I) (h : I c) {io : Option ReplaceFault} {now : Int}
    {bytes : Bytes} {r : Except String Bool}
    (hrun : c.importSnapshot env io now bytes = .ok (r, c')) : I c' := by
  rcases importSnapshot_cases hrun with ⟨rfl, _⟩ | ⟨snap, work, _, hadopt⟩
  · exact h
  obtain ⟨d, hload, hadopt⟩ := bind_eq_ok.mp hadopt
  obtain ⟨⟨v, d'⟩, hsuffix, hadopt⟩ := bind_eq_ok.mp hadopt
  have hd' := k.applySuffix (k.load h hload) hsuffix
  cases v with
  | error e =>
    cases hadopt
    exact hd'
  | ok u =>
    cases hlog : d'.log.replaceAll io (snapshotRecords snap) with
    | mk res log =>
      simp only [hlog] at hadopt
      cases res with
      | error e =>
        cases hadopt
        exact k.frame hd' rfl rfl rfl rfl rfl
      | ok u =>
        cases hadopt
        exact k.frame hd' rfl rfl rfl rfl rfl

theorem step (k : Kept env I) (h : I c) {call : Call Tx} (hrun : c.step env call = .ok c') :
    I c' := by
  cases call with
  | mine io txs timestamp =>
    obtain ⟨⟨r, d⟩, hmine, rfl⟩ := map_eq_ok.mp hrun
    exact k.mineAt h hmine
  | accept io now block =>
    obtain ⟨⟨r, d⟩, haccept, rfl⟩ := map_eq_ok.mp hrun
    exact k.accept h haccept
  | virtualState =>
    obtain ⟨⟨r, d⟩, hstate, rfl⟩ := map_eq_ok.mp hrun
    obtain ⟨state, executed, checkpoint, rfl⟩ := virtualState_frame hstate
    exact k.frame h rfl rfl rfl rfl rfl
  | setFinalityDepth depth =>
    cases hrun
    exact k.frame h rfl rfl rfl rfl rfl
  | pruneFinalizedTransactions =>
    obtain ⟨⟨n, d⟩, hprune, rfl⟩ := map_eq_ok.mp hrun
    obtain ⟨blockTxs, historyPruned, state, executed, rfl, _⟩ := pruneFinalizedTransactions_frame hprune
    exact k.frame h rfl rfl rfl rfl rfl
  | prune io =>
    obtain ⟨⟨r, d⟩, hprune, rfl⟩ := map_eq_ok.mp hrun
    exact k.prune h hprune
  | importSnapshot io now bytes =>
    obtain ⟨⟨r, d⟩, himport, rfl⟩ := map_eq_ok.mp hrun
    exact k.importSnapshot h himport

/-- Whatever is called on a chain that was opened, it keeps the property. -/
theorem reaches (k : Kept env I) {P : DagChain Tx → Call Tx → Prop} {file : Bytes}
    {c₀ : DagChain Tx}
    (hgenesis : ∀ {log : BlockLog} {c : DagChain Tx}, genesis env p log = .ok c → I c)
    (hopen : openWithGenesis env p file = .ok (.ok c₀)) (hrun : Reaches env P c₀ c) : I c :=
  hrun.invariant (k.opened hgenesis hopen) fun _ _ _ h _ hstep => k.step h hstep

end Kept

/-- What the nodes of one network have in common. -/
structure Network where
  genesisTarget : Target
  blockTimeSecs : Nat
  lwmaWindow : Nat
  k : Nat
  reward : BitVec 64

def networkOf (p : Params) : Network :=
  ⟨p.genesisTarget, p.blockTimeSecs, p.lwmaWindow, p.k, p.reward⟩

def network (c : DagChain Tx) : Network :=
  ⟨c.genesisTarget, c.blockTimeSecs, c.lwmaWindow, c.k, c.reward⟩

section Network

theorem appendAndApply_network {io : Option AppendFault} {block : DagBlock}
    {r : Except String Unit} (hrun : c.appendAndApply env io block = .ok (r, c')) :
    c'.network = c.network := by
  rcases appendAndApply_cases hrun with ⟨e, log, _, _, rfl⟩ | ⟨log, _, hrun⟩
  · rfl
  · obtain ⟨_, _, _, _, _, rfl⟩ := applyWithId_dag hrun
    rfl

theorem importSnapshot_network {io : Option ReplaceFault} {now : Int} {bytes : Bytes}
    {r : Except String Bool} (hrun : c.importSnapshot env io now bytes = .ok (r, c')) :
    c'.network = c.network := by
  rcases importSnapshot_cases hrun with ⟨rfl, _⟩ | ⟨snap, work, _, hadopt⟩
  · rfl
  obtain ⟨d, hload, hadopt⟩ := bind_eq_ok.mp hadopt
  obtain ⟨⟨v, d'⟩, hsuffix, hadopt⟩ := bind_eq_ok.mp hadopt
  obtain ⟨_, _, rfl⟩ := loadSnapshot_spec hload
  obtain ⟨_, _, _, _, _, rfl⟩ := applySuffix_dag hsuffix
  cases v with
  | error e =>
    cases hadopt
    rfl
  | ok u =>
    simp only at hadopt
    split at hadopt <;> cases hadopt <;> rfl

/-- No call takes a chain to another network. -/
theorem step_network {call : Call Tx} (hrun : c.step env call = .ok c') :
    c'.network = c.network := by
  cases call with
  | mine io txs timestamp =>
    obtain ⟨⟨r, d⟩, hmine, rfl⟩ := map_eq_ok.mp hrun
    obtain ⟨block, _, hmine⟩ := bind_eq_ok.mp hmine
    obtain ⟨⟨v, d'⟩, happly, hmine⟩ := bind_eq_ok.mp hmine
    cases v with
    | ok u =>
      cases hmine
      exact appendAndApply_network happly
    | error e =>
      cases hmine
      exact appendAndApply_network happly
  | accept io now block =>
    obtain ⟨⟨r, d⟩, haccept, rfl⟩ := map_eq_ok.mp hrun
    rcases accept_cases haccept with rfl | ⟨_, happly⟩
    · rfl
    · exact appendAndApply_network happly
  | virtualState =>
    obtain ⟨⟨r, d⟩, hstate, rfl⟩ := map_eq_ok.mp hrun
    obtain ⟨state, executed, checkpoint, rfl⟩ := virtualState_frame hstate
    rfl
  | setFinalityDepth depth =>
    cases hrun
    rfl
  | pruneFinalizedTransactions =>
    obtain ⟨⟨n, d⟩, hprune, rfl⟩ := map_eq_ok.mp hrun
    obtain ⟨blockTxs, historyPruned, state, executed, rfl, _⟩ :=
      pruneFinalizedTransactions_frame hprune
    rfl
  | prune io =>
    obtain ⟨⟨r, d⟩, hprune, rfl⟩ := map_eq_ok.mp hrun
    rcases prune_cases hprune with ⟨log, rfl, _⟩ | ⟨order, pIdx, p, bank, engine, header, log, _, _,
      _, _, _, _, _, _, rfl⟩
    · rfl
    · rfl
  | importSnapshot io now bytes =>
    obtain ⟨⟨r, d⟩, himport, rfl⟩ := map_eq_ok.mp hrun
    exact importSnapshot_network himport

theorem network_replayed (n : Network) : Replayed env fun c => c.network = n where
  apply := by
    intro c c' block id r h hrun
    obtain ⟨_, _, _, _, _, rfl⟩ := applyWithId_dag hrun
    exact h
  load := by
    intro c c' header accounts proof h hload
    obtain ⟨engine, _, rfl⟩ := loadSnapshot_spec hload
    exact h

/-- A chain keeps the parameters that it was opened with. -/
theorem network_of_reaches {P : DagChain Tx → Call Tx → Prop} {file : Bytes} {c₀ : DagChain Tx}
    (hopen : openWithGenesis env p file = .ok (.ok c₀)) (hrun : Reaches env P c₀ c) :
    c.network = networkOf p := by
  have hopened : c₀.network = networkOf p := by
    refine (network_replayed (networkOf p)).opened (fun hgenesis => ?_) hopen
    obtain ⟨engine, _, hgenesis⟩ := bind_eq_ok.mp hgenesis
    cases hgenesis
    rfl
  refine @Reaches.invariant _ env _ (fun c => c.network = networkOf p) _ _ hrun hopened ?_
  intro c call c' hc _ hstep
  rw [step_network hstep, hc]

end Network

end TaoDag.Dagvm.DagChain
