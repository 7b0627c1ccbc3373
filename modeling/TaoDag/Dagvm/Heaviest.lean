import TaoDag.Dagvm.Akin

namespace TaoDag.Ghostdag.DagEngine

open Dagvm.DagChain (below below_lt below_le)

variable {fr : Reachability.Interval.Fractions} {k : Nat} {genesis b x : Hash} {e : DagEngine}
  {d : GhostdagData}

def bluePastLoop (e : DagEngine) : Nat → Hash → List Hash
  | 0, _ => []
  | fuel+1, b =>
      if b = e.genesis then []
      else match e.gd.lookup b with
      | none => []
      | some d => d.mergesetBlues ++ bluePastLoop e fuel d.selectedParent

/-- The blue past of a block: what the blocks of its selected chain merge as blue. -/
def bluePast (e : DagEngine) (b : Hash) : List Hash := e.bluePastLoop (e.gd.entries.length + 1) b

theorem bluePastLoop_length (h : Rooted fr k genesis e) {fuel : Nat}
    (hfuel : below e b < fuel) (hb : b ∈ e.dag.blocks) (hne : b ≠ blockhash.origin) :
    (e.bluePastLoop fuel b).length = e.work b := by
  induction fuel generalizing b with
  | zero => exact absurd hfuel (Nat.not_lt_zero _)
  | succ fuel ih =>
    have inv := h.grown.ready_best.1
    obtain ⟨d, hd⟩ := mem_blocks.mp hb
    obtain ⟨hroot, hstep⟩ := h.blueWork hd hne
    have hwork : e.work b = d.blueWork := by
      rw [work, hd]
      rfl
    rw [bluePastLoop, inv.genesis]
    by_cases hg : b = genesis
    · rw [if_pos hg, hwork, hroot hg]
      rfl
    · have hparent := inv.selected hd hne
      have hsp : d.selectedParent ≠ blockhash.origin := by
        intro heq
        exact h.origin_not_mem hg (heq ▸ hparent)
      have hknown := inv.index.dag.closed hparent
      have hless := below_lt hknown (inv.work hparent hsp)
      rw [if_neg hg, hd, List.length_append, ih (by omega) hknown hsp, hwork, hstep hg]
      exact Nat.add_comm _ _

/-- Blue work is the length of the blue past. -/
theorem Rooted.bluePast_length (h : Rooted fr k genesis e) (hb : b ∈ e.dag.blocks)
    (hne : b ≠ blockhash.origin) : (e.bluePast b).length = e.work b :=
  bluePastLoop_length h (Nat.lt_succ_of_le below_le) hb hne

end TaoDag.Ghostdag.DagEngine

namespace TaoDag.Dagvm

open Consensus (DagBlock workForTarget)
open Ghostdag (DagEngine SortableBlock)
open TaoDag.Runtime (Env)

namespace DagChain

variable {Tx : Type} {env : Env Tx} {p : Params} {c c₀ : DagChain Tx} {b x : Hash}

/-- The work that the header of a known block proves. -/
def workOf (c : DagChain Tx) (x : Hash) : Nat :=
  (c.headers.lookup x).elim 0 fun h => workForTarget h.target

/-- The work that the blue past of a block proves. -/
def provenWork (c : DagChain Tx) (x : Hash) : Nat := ((c.engine.bluePast x).map c.workOf).sum

/-- A block with the number of the blues in its past. -/
def bluest (c : DagChain Tx) (x : Hash) : SortableBlock := ⟨x, (c.engine.bluePast x).length⟩

/-- The engine's tip is a known block, and none has more work in its blue past. -/
def MostWork (c : DagChain Tx) : Prop :=
  c.engine.tip ∈ c.blocks ∧ ∀ x ∈ c.blocks, c.provenWork x ≤ c.provenWork c.engine.tip

/-- Some known block has, of all blocks that the engine has been given, the most blues in its past
(the larger hash wins a tie), and of all known blocks the most work in it. -/
def BluestWorksMost (c : DagChain Tx) : Prop :=
  ∃ b ∈ c.blocks,
    (∀ x ∈ c.engine.dag.blocks, x ≠ blockhash.origin → (c.bluest x).le (c.bluest b)) ∧
    ∀ x ∈ c.blocks, c.provenWork x ≤ c.provenWork b

theorem Anchored.bluest (h : Anchored env c) (hx : x ∈ c.engine.dag.blocks)
    (hne : x ≠ blockhash.origin) : c.bluest x = c.engine.key x := by
  rw [DagChain.bluest, h.rooted.bluePast_length hx hne]
  rfl

theorem Anchored.mostWork_iff (h : Anchored env c) : c.MostWork ↔ c.BluestWorksMost := by
  have best := h.rooted.grown.ready_best.2
  have hmax : ∀ x ∈ c.engine.dag.blocks, x ≠ blockhash.origin →
      (c.bluest x).le (c.bluest c.engine.tip) := by
    intro x hx hne
    rw [h.bluest hx hne, h.bluest best.mem best.ne]
    exact best.max hx hne
  constructor
  · intro ⟨htip, hwork⟩
    exact ⟨c.engine.tip, htip, hmax, hwork⟩
  · intro ⟨b, hb, hbluest, hwork⟩
    obtain ⟨hmem, hne⟩ := h.blocks b hb
    have heq := SortableBlock.le_antisymm (hmax b hmem hne) (hbluest _ best.mem best.ne)
    have htip : b = c.engine.tip := congrArg SortableBlock.hash heq
    exact ⟨htip ▸ hb, htip ▸ hwork⟩

theorem Anchored.reach_mem (h : Anchored env c) (hreach : BlockDag.Reach c.engine.dag.parents x b)
    (hb : b ∈ c.blocks) : x ∈ c.blocks ∨ x = blockhash.origin := by
  induction hreach using Relation.ReflTransGen.head_induction_on with
  | refl => exact Or.inl hb
  | head hparent _ _ => exact h.closed _ _ hparent

/-- The blue past of a known block is known. -/
theorem Anchored.bluePastLoop_mem (h : Anchored env c) {fuel : Nat} (hb : b ∈ c.blocks)
    (hx : x ∈ c.engine.bluePastLoop fuel b) : x ∈ c.blocks := by
  induction fuel generalizing b with
  | zero => cases hx
  | succ fuel ih =>
    rw [DagEngine.bluePastLoop, h.rooted.grown.ready_best.1.genesis] at hx
    by_cases hg : b = c.genesisDag
    · rw [if_pos hg] at hx
      cases hx
    · obtain ⟨data, hdata, hsp, _⟩ := h.selectedParent hb hg
      rw [if_neg hg, hdata] at hx
      rcases List.mem_append.mp hx with hx | hx
      · obtain ⟨hne, q, hq, hreach⟩ := h.rooted.blues hdata (h.blocks b hb).2 hg hx
        rcases h.closed b q hq with hq | rfl
        · exact (h.reach_mem hreach hq).resolve_right hne
        · exact absurd hq (h.rooted.origin_not_mem hg)
      · exact ih hsp hx

/-- At a fixed difficulty the tip has the most work in its blue past, if it is a known block. -/
theorem Anchored.mostWork_of_fixed (h : Anchored env c) {w : Nat}
    (hfixed : ∀ x ∈ c.blocks, c.workOf x = w) (htip : c.engine.tip ∈ c.blocks) : c.MostWork := by
  have best := h.rooted.grown.ready_best.2
  have hwork : ∀ x ∈ c.blocks, c.provenWork x = c.engine.work x * w := by
    intro x hx
    obtain ⟨hmem, hne⟩ := h.blocks x hx
    have hpast : ∀ y ∈ c.engine.bluePast x, c.workOf y = w :=
      fun y hy => hfixed y (h.bluePastLoop_mem hx hy)
    rw [provenWork, List.map_congr_left hpast, List.map_const', List.sum_replicate,
      h.rooted.bluePast_length hmem hne, smul_eq_mul]
  refine ⟨htip, fun x hx => ?_⟩
  obtain ⟨hmem, hne⟩ := h.blocks x hx
  have hle : c.engine.work x ≤ c.engine.work c.engine.tip := by
    rcases best.max hmem hne with hlt | ⟨heq, _⟩
    · exact Nat.le_of_lt hlt
    · exact Nat.le_of_eq heq
  rw [hwork x hx, hwork _ htip]
  exact Nat.mul_le_mul_right w hle

/-- In every state that calls on an opened chain lead to, the tip has the most work in its blue past
exactly when the block with the most blues in its past has. -/
theorem tip_mostWork_iff {P : DagChain Tx → Call Tx → Prop} {file : Bytes}
    (hopen : openWithGenesis env p file = .ok (.ok c₀)) (hrun : Reaches env P c₀ c) :
    c.MostWork ↔ c.BluestWorksMost :=
  (anchored_of_reaches hopen hrun).mostWork_iff

/-- Accepts blocks one after the other, as long as all are taken. -/
def acceptAll (env : Env Tx) (now : Int) (c : DagChain Tx) : List DagBlock → Option (DagChain Tx)
  | [] => some c
  | b :: bs =>
      match c.accept env none now b with
      | .ok (.ok (), c) => acceptAll env now c bs
      | _ => none

theorem Accepts.of_acceptAll {now : Int} {bs bs' : List DagBlock} {c' : DagChain Tx}
    (h : Accepts env c₀ bs c) (hrun : c.acceptAll env now bs' = some c') :
    Accepts env c₀ (bs ++ bs') c' := by
  induction bs' generalizing bs c with
  | nil =>
    cases hrun
    rwa [List.append_nil]
  | cons b bs' ih =>
    rw [acceptAll] at hrun
    split at hrun
    · rename_i d haccept
      have hstep : Accepts env c₀ (bs ++ [b]) d := .snoc h haccept
      rw [List.append_cons]
      exact ih hstep hrun
    · cases hrun

theorem Accepts.reaches {bs : List DagBlock} (h : Accepts env c₀ bs c) :
    Reaches env (fun _ _ => True) c₀ c := by
  induction h with
  | nil => exact .refl
  | @snoc _ _ _ block io now _ run ih =>
    exact ih.tail ⟨.accept io now block, trivial, map_eq_ok.mpr ⟨_, run, rfl⟩⟩

/-- Mines empty blocks at these times, one on the other. -/
def mineAll (env : Env Tx) (c : DagChain Tx) : List (BitVec 64) → List DagBlock
  | [] => []
  | t :: ts =>
      match c.mineAt env none [] t with
      | .ok (.ok b, c) => b :: mineAll env c ts
      | _ => []

end DagChain

section Example

open DagChain
open TaoDag.Runtime (Transaction transferEnv)

/-- A child of genesis at a fixed difficulty. -/
theorem tip_mostWork_iff_easy : ∃ c₀ c : DagChain Transaction,
    openWithGenesis transferEnv easyParams [] = .ok (.ok c₀) ∧
    c₀.accept transferEnv none 1750000010 (easyChild []) = .ok (.ok (), c) ∧
    (c.MostWork ↔ c.BluestWorksMost) := by
  have hrun : returnsWith (openWithGenesis transferEnv easyParams []) (fun o =>
      returnsWith o fun c₀ => returnsWith (c₀.accept transferEnv none 1750000010 (easyChild []))
        fun r => returnsWith r.1 fun _ => true) = true := by
    decide +kernel
  simp only [returnsWith_iff] at hrun
  obtain ⟨_, hopen, c₀, rfl, ⟨_, c⟩, haccept, _, rfl, _⟩ := hrun
  have hstep : StepOn transferEnv (fun _ _ => True) c₀ c :=
    ⟨.accept none 1750000010 (easyChild []), trivial, map_eq_ok.mpr ⟨_, haccept, rfl⟩⟩
  exact ⟨c₀, c, hopen, haccept, tip_mostWork_iff hopen (.single hstep)⟩

/-- The difficulty follows the last two blocks. -/
def adjustedParams : Params := { easyParams with blockTimeSecs := 4, lwmaWindow := 2 }

/-- The last of four blocks that are mined within four seconds, the last two of them at a raised
difficulty. -/
def fastTip : Hash := 0x152dd90b33dd8a1c3decfb0bbc59cf4489f65ea8e3fa846f71fc9158e6b7eb46

/-- The fast branch loses to a slow branch of five blocks at the lowest difficulty, although its
blue past has more work. -/
theorem tip_less_work : ∃ (c₀ c : DagChain Transaction) (bs : List DagBlock),
    openWithGenesis transferEnv adjustedParams [] = .ok (.ok c₀) ∧ Accepts transferEnv c₀ bs c ∧
    c.engine.tip ∈ c.blocks ∧ fastTip ∈ c.blocks ∧
    c.provenWork c.engine.tip = 5 ∧ c.provenWork fastTip = 7 ∧ ¬c.MostWork := by
  have hrun : returnsWith (openWithGenesis transferEnv adjustedParams []) (fun o =>
      returnsWith o fun c₀ =>
        let slow := c₀.mineAll transferEnv
          [1750000100, 1750000200, 1750000300, 1750000400, 1750000500]
        let fast := c₀.mineAll transferEnv [1750000001, 1750000002, 1750000003, 1750000004]
        (c₀.acceptAll transferEnv 1750000500 (slow ++ fast)).any fun c =>
          decide (c.engine.tip ∈ c.blocks ∧ fastTip ∈ c.blocks ∧
            c.provenWork c.engine.tip = 5 ∧ c.provenWork fastTip = 7)) = true := by
    decide +kernel
  simp only [returnsWith_iff, Option.any_eq_true, decide_eq_true_eq] at hrun
  obtain ⟨_, hopen, c₀, rfl, c, haccept, htip, hfast, hslow, hwork⟩ := hrun
  refine ⟨c₀, c, _, hopen, Accepts.of_acceptAll .nil haccept, htip, hfast, hslow, hwork, ?_⟩
  intro ⟨_, hmax⟩
  have hle := hmax fastTip hfast
  omega

end Example

end TaoDag.Dagvm
