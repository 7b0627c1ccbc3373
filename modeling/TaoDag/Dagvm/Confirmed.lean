import TaoDag.Dagvm.Linear
import TaoDag.Dagvm.Reanchor
import TaoDag.Ghostdag.Stable

namespace TaoDag.Dagvm

open BlockDag
open Consensus (DagBlock)
open Database (AppendFault)
open Ghostdag.DagEngine (Later)
open TaoDag.Runtime (Env)

namespace DagChain

variable {Tx : Type} {env : Env Tx} {p : Params} {c c' c₀ : DagChain Tx} {x : Hash}

/-- A call that gives the chain no new origin. -/
def KeepsOrigin : Call Tx → Prop
  | .prune _ => False
  | .importSnapshot _ _ _ => False
  | _ => True

section Later

theorem later_of_apply (h : Anchored env c) {block : DagBlock} {r : Except String Unit}
    (hrun : c.apply env block = .ok (r, c')) : Later env.fractions c.engine c'.engine := by
  rcases applyWithId_cases hrun with ⟨_, _, rfl⟩ | ⟨_, engine, hadd, hrest⟩
  · exact .refl
  have horigin : blockhash.origin ∉ c.engineParents block.header.parents :=
    h.originAlone fun q hq => mem_engineParents h.origin hq
  rcases hrest with ⟨e, _, _, rfl⟩ | ⟨txs, _, _, rfl⟩
  · exact .add .refl horigin hadd
  · exact .add .refl horigin hadd

theorem later_of_appendAndApply (h : Anchored env c) {io : Option AppendFault} {block : DagBlock}
    {r : Except String Unit} (hrun : c.appendAndApply env io block = .ok (r, c')) :
    Later env.fractions c.engine c'.engine := by
  rcases appendAndApply_cases hrun with ⟨e, log, _, _, rfl⟩ | ⟨log, _, hrun⟩
  · exact .refl
  · have hlog : Anchored env { c with log } := h.of_eq rfl rfl rfl rfl rfl
    apply later_of_apply hlog
    exact hrun

/-- What a call does to the engine: it adds blocks. -/
theorem later_of_step (h : Anchored env c) {call : Call Tx} (hcall : KeepsOrigin call)
    (hrun : c.step env call = .ok c') : Later env.fractions c.engine c'.engine := by
  cases call with
  | mine io txs timestamp =>
    obtain ⟨⟨r, d⟩, hmine, rfl⟩ := map_eq_ok.mp hrun
    obtain ⟨block, _, hmine⟩ := bind_eq_ok.mp hmine
    obtain ⟨⟨v, d'⟩, happly, hmine⟩ := bind_eq_ok.mp hmine
    cases v with
    | ok u =>
      cases hmine
      exact later_of_appendAndApply h happly
    | error e =>
      cases hmine
      exact later_of_appendAndApply h happly
  | accept io now block =>
    obtain ⟨⟨r, d⟩, haccept, rfl⟩ := map_eq_ok.mp hrun
    rcases accept_cases haccept with rfl | ⟨_, happly⟩
    · exact .refl
    · exact later_of_appendAndApply h happly
  | virtualState =>
    obtain ⟨⟨r, d⟩, hstate, rfl⟩ := map_eq_ok.mp hrun
    obtain ⟨state, executed, checkpoint, rfl⟩ := virtualState_frame hstate
    exact .refl
  | setFinalityDepth depth =>
    cases hrun
    exact .refl
  | pruneFinalizedTransactions =>
    obtain ⟨⟨n, d⟩, hprune, rfl⟩ := map_eq_ok.mp hrun
    obtain ⟨blockTxs, historyPruned, state, executed, rfl, _⟩ :=
      pruneFinalizedTransactions_frame hprune
    exact .refl
  | prune io => exact hcall.elim
  | importSnapshot io now bytes => exact hcall.elim

theorem later_of_reaches (h : Anchored env c)
    (hrun : Reaches env (fun _ call => KeepsOrigin call) c c') :
    Anchored env c' ∧ Later env.fractions c.engine c'.engine := by
  induction hrun with
  | refl => exact ⟨h, .refl⟩
  | tail _ hs ih =>
    obtain ⟨call, hcall, hs⟩ := hs
    obtain ⟨hanchored, hlater⟩ := ih
    exact ⟨(anchored_kept env).step hanchored hs, hlater.trans (later_of_step hanchored hcall hs)⟩

theorem Accepts.reachesOn {P : DagChain Tx → Call Tx → Prop} {blocks : List DagBlock}
    (h : Accepts env c blocks c') (hP : ∀ d io now block, P d (.accept io now block)) :
    Reaches env P c c' := by
  induction h with
  | nil => exact .refl
  | snoc _ run ih => exact ih.tail ⟨_, hP _ _ _ _, map_eq_ok.mpr ⟨_, run, rfl⟩⟩

end Later

/-- In every state that calls on an opened chain lead to, the order up to a block of the selected
chain is the past of the block. It stays as it is in every later state that has the block on its
selected chain, whatever is mined and accepted in between, reorganisations included. -/
theorem confirmed_prefix {P : DagChain Tx → Call Tx → Prop} {file : Bytes}
    (hopen : openWithGenesis env p file = .ok (.ok c₀)) (hrun : Reaches env P c₀ c)
    (hlater : Reaches env (fun _ call => KeepsOrigin call) c c') (hx : x ∈ c.blocks)
    (hchain : c.engine.dag.OnChain x c.engine.tip)
    (hchain' : c'.engine.dag.OnChain x c'.engine.tip) :
    ∃ front rest rest', c.totalOrder = .ok (front ++ x :: rest) ∧
      c'.totalOrder = .ok (front ++ x :: rest') ∧
      ∀ y, y ∈ front ↔ Past c.engine.dag.parents y x ∧ y ≠ blockhash.origin := by
  have hanchored := anchored_of_reaches hopen hrun
  obtain ⟨hanchored', hlater⟩ := later_of_reaches hanchored hlater
  obtain ⟨order, horder⟩ := hanchored.rooted.totalOrder_total
  obtain ⟨order', horder'⟩ := hanchored'.rooted.totalOrder_total
  obtain ⟨front, rest, rest', rfl, rfl, hfront⟩ :=
    hlater.order_stable hanchored.rooted (hanchored.blocks x hx).2 hchain hchain' horder horder'
  exact ⟨front, rest, rest', horder, horder', hfront⟩

end DagChain

section Example

open DagChain
open TaoDag.Runtime (Transaction transferEnv)

/-- A block on genesis, with a block on it that comes later. -/
theorem confirmed_prefix_easy : ∃ c₀ c c' : DagChain Transaction,
    openWithGenesis transferEnv easyParams [] = .ok (.ok c₀) ∧
    c₀.acceptAll transferEnv 1750000500 (c₀.mineAll transferEnv [1750000010]) = some c ∧
    c.acceptAll transferEnv 1750000500 (c.mineAll transferEnv [1750000020]) = some c' ∧
    ∃ front rest rest', c.totalOrder = .ok (front ++ c.engine.tip :: rest) ∧
      c'.totalOrder = .ok (front ++ c.engine.tip :: rest') ∧
      ∀ y, y ∈ front ↔ Past c.engine.dag.parents y c.engine.tip ∧ y ≠ blockhash.origin := by
  have hrun : returnsWith (openWithGenesis transferEnv easyParams []) (fun o =>
      returnsWith o fun c₀ =>
        (c₀.acceptAll transferEnv 1750000500 (c₀.mineAll transferEnv [1750000010])).any fun c =>
        (c.acceptAll transferEnv 1750000500 (c.mineAll transferEnv [1750000020])).any fun c' =>
          decide (c.engine.tip ∈ c.blocks ∧ c'.engine.tip ≠ blockhash.origin) &&
          (c'.engine.gd.lookup c'.engine.tip).any fun d =>
            decide (d.selectedParent = c.engine.tip)) = true := by
    decide +kernel
  simp only [returnsWith_iff, Option.any_eq_true, Bool.and_eq_true, decide_eq_true_eq] at hrun
  obtain ⟨_, hopen, c₀, rfl, c, haccept, c', hmore, ⟨htip, hne⟩, d, hd, hsp⟩ := hrun
  have hchain : c'.engine.dag.OnChain c.engine.tip c'.engine.tip := by
    rw [Ghostdag.DagEngine.onChain_iff hne hd, hsp]
    exact Or.inr .refl
  have hlater : Reaches transferEnv (fun _ call => KeepsOrigin call) c c' :=
    (Accepts.of_acceptAll .nil hmore).reachesOn fun _ _ _ _ => trivial
  exact ⟨c₀, c, c', hopen, haccept, hmore, confirmed_prefix hopen
    (Accepts.of_acceptAll .nil haccept).reaches hlater htip .refl hchain⟩

end Example

end TaoDag.Dagvm
