import TaoDag.Dagvm.Interlinked
import TaoDag.Ghostdag.Segments
import TaoDag.Dagvm.Mined

namespace TaoDag.Ghostdag.DagEngine

open BlockDag
open Dagvm (DagChain.below DagChain.below_lt DagChain.below_le)
open Dagvm.DagChain (data_of_lookup)

variable {fr : Reachability.Interval.Fractions} {k : Nat} {genesis : Hash} {e : DagEngine}
  {b c cur x : Hash} {d : GhostdagData} {l order : List Hash}

/-- An order without repetition comes from blocks that are apart from their other parents. -/
theorem OrderTo.apart (ho : OrderTo e b order) (h : Rooted fr k genesis e)
    (hor : b ≠ blockhash.origin) (hnodup : order.Nodup) (hc : e.dag.OnChain c b)
    (hne : c ≠ e.genesis) (hcor : c ≠ blockhash.origin) : Apart e c := by
  induction ho with
  | genesis => exact absurd (h.onChain_genesis hc hcor) hne
  | @step b d front m hb hd parent hmerge _ ih =>
    obtain ⟨_, hparents, hsp⟩ := h.merged hb hor hd
    obtain ⟨hfront, _, hdisjoint⟩ := List.nodup_append.mp hnodup
    rcases (onChain_iff hor hd).mp hc with rfl | hc
    · intro d' hd' p hp hpne hreach
      cases hd.symm.trans hd'
      have hpm : p ∈ front := ((parent.lists h hsp).mem p).mpr ⟨hreach, fun heq => hparents (heq ▸ hp)⟩
      exact hdisjoint p hpm p (List.mem_append_left _ (hmerge.start p hp hpne)) rfl
    · exact ih hsp hfront hc

/-- An order is linear exactly when the blocks of its selected chain are apart from their other
parents. -/
theorem OrderTo.linear_iff (ho : OrderTo e b order) (h : Rooted fr k genesis e)
    (hor : b ≠ blockhash.origin) :
    Linear e order ↔
      ∀ c, e.dag.OnChain c b → c ≠ e.genesis → c ≠ blockhash.origin → Apart e c := by
  constructor
  · intro hlin c hc hne hcor
    exact ho.apart h hor hlin.nodup hc hne hcor
  · intro hapart
    induction ho with
    | genesis => exact ⟨by simp, by simp⟩
    | @step b d front m hb hd parent hmerge hsort ih =>
      obtain ⟨hm, _, hsp⟩ := h.merged hb hor hd
      have hfront := ih hsp fun c hc => hapart c ((onChain_iff hor hd).mpr (Or.inr hc))
      have hself := hapart b ((onChain_iff hor hd).mpr (Or.inl rfl)) hb hor
      exact hfront.step h.grown.ready_best.1.toInv hm (parent.lists h hsp) hd hself hmerge hsort

theorem sortBlocks_total (hl : ∀ x ∈ l, x ∈ e.dag.blocks) :
    ∃ sorted, e.manager.sortBlocks l = .ok sorted := by
  have hkeys : Returns True (l.mapM e.manager.sortable) fun keys => keys = l.map e.key ∧
      ∀ x ∈ l, True := by
    refine Returns.mapM fun x hx => ?_
    obtain ⟨d, hd⟩ := mem_blocks.mp (hl x hx)
    have hwork : e.manager.getBlueWork x = .ok d.blueWork := by
      change (do return (← e.data x).blueWork) = _
      rw [data_of_lookup hd]
      rfl
    rw [GhostdagManager.sortable, hwork]
    refine Returns.pure ⟨?_, trivial⟩
    rw [key, work, hd]
    rfl
  obtain ⟨keys, hkeys, _⟩ := hkeys.total
  exact ⟨_, by rw [GhostdagManager.sortBlocks, hkeys]; rfl⟩

theorem Rooted.orderSegment_total (h : Rooted fr k genesis e) (hd : e.gd.lookup b = some d)
    (hor : b ≠ blockhash.origin) : ∃ seg, e.orderSegment b = .ok seg := by
  rw [orderSegment]
  by_cases hb : b = e.genesis
  · rw [if_pos hb]
    exact ⟨[b], rfl⟩
  · rw [if_neg hb]
    obtain ⟨hm, _, _⟩ := h.merged hb hor hd
    have hknown : ∀ x ∈ d.unorderedMergesetWithoutSelectedParent, x ∈ e.dag.blocks := by
      intro x hx
      obtain ⟨p, hp, hreach⟩ := hm.mergeset.sound x hx
      exact h.grown.ready_best.1.index.dag.mem_of_reach hreach (hm.known p hp)
    obtain ⟨sorted, hsorted⟩ := sortBlocks_total hknown
    exact ⟨_, by rw [data_of_lookup hd]; simp only [bind, Except.bind, hsorted]; rfl⟩

/-- The walk down the selected chain ends at genesis: blue work falls on the way. -/
theorem Rooted.chainLoop_total (h : Rooted fr k genesis e) {fuel : Nat} {above : List Hash}
    (hcur : cur ∈ e.dag.blocks) (hor : cur ≠ blockhash.origin) (hfuel : DagChain.below e cur < fuel)
    (habove : ∀ x ∈ above, x ∈ e.dag.blocks ∧ x ≠ blockhash.origin) :
    ∃ chain, e.chainLoop fuel cur above = .ok chain ∧
      ∀ x ∈ chain, x ∈ e.dag.blocks ∧ x ≠ blockhash.origin := by
  induction fuel generalizing cur above with
  | zero => exact absurd hfuel (Nat.not_lt_zero _)
  | succ fuel ih =>
    have hall : ∀ x ∈ cur :: above, x ∈ e.dag.blocks ∧ x ≠ blockhash.origin :=
      List.forall_mem_cons.mpr ⟨⟨hcur, hor⟩, habove⟩
    rw [chainLoop]
    by_cases hgen : cur = e.genesis
    · rw [if_pos hgen]
      exact ⟨cur :: above, rfl, hall⟩
    · rw [if_neg hgen]
      obtain ⟨d, hd⟩ := mem_blocks.mp hcur
      obtain ⟨hm, _, hsp⟩ := h.merged hgen hor hd
      have hmem : d.selectedParent ∈ e.dag.blocks := hm.known _ hm.mem
      have hlt := DagChain.below_lt hmem (h.grown.ready_best.1.work hm.mem hsp)
      obtain ⟨chain, hchain, hknown⟩ := ih hmem hsp (by omega) hall
      refine ⟨chain, ?_, hknown⟩
      rw [selectedParent, data_of_lookup hd]
      exact hchain

theorem Rooted.totalOrder_total (h : Rooted fr k genesis e) : ∃ order, e.totalOrder = .ok order := by
  have best := h.grown.ready_best.2
  have hfuel : DagChain.below e e.tip < e.gd.entries.length + 1 :=
    Nat.lt_succ_of_le DagChain.below_le
  obtain ⟨chain, hchain, hknown⟩ := h.chainLoop_total best.mem best.ne hfuel
    (List.forall_mem_nil fun x => x ∈ e.dag.blocks ∧ x ≠ blockhash.origin)
  have hsegs : ∃ segs, chain.mapM e.orderSegment = .ok segs := by
    clear hchain
    induction chain with
    | nil => exact ⟨[], rfl⟩
    | cons b chain ih =>
      rw [List.forall_mem_cons] at hknown
      obtain ⟨d, hd⟩ := mem_blocks.mp hknown.1.1
      obtain ⟨seg, hseg⟩ := h.orderSegment_total hd hknown.1.2
      obtain ⟨segs, hsegs⟩ := ih hknown.2
      exact ⟨seg :: segs, by rw [List.mapM_cons, hseg, hsegs]; rfl⟩
  obtain ⟨segs, hsegs⟩ := hsegs
  refine ⟨segs.flatten, ?_⟩
  rw [DagEngine.totalOrder, selectedChain, hchain]
  simp only [bind, Except.bind, hsegs]
  rfl

end TaoDag.Ghostdag.DagEngine

namespace TaoDag.Dagvm

open BlockDag
open Consensus (DagBlock DagBlockHeader)
open Database (AppendFault BlockLog)
open TaoDag.Runtime (Env)

namespace DagChain

variable {Tx : Type} {env : Env Tx} {p : Params} {c c' : DagChain Tx} {blocks : List DagBlock}
  {x y : Hash} {order : List Hash}

/-- The parents that the header of a block names. -/
def parentsOf (c : DagChain Tx) (x : Hash) : List Hash := (c.headers.lookup x).elim [] (·.parents)

/-- An order of the past of the tip: genesis first, every block of it once and after its parents,
and nothing else. -/
structure LinearExtension (c : DagChain Tx) (order : List Hash) : Prop where
  head : order.head? = some c.genesisDag
  mem : ∀ x, x ∈ order ↔ Reach c.parentsOf x c.engine.tip
  nodup : order.Nodup
  ordered : Ordered c.parentsOf [] order

/-- No block of the selected chain names, next to its selected parent, an ancestor of that one. -/
def ChainApart (c : DagChain Tx) : Prop :=
  ∀ b sp, c.engine.dag.OnChain b c.engine.tip → b ∈ c.blocks → b ≠ c.genesisDag →
    c.engine.selectedParent b = .ok sp → ∀ q ∈ c.parentsOf b, q ≠ sp → ¬Reach c.parentsOf q sp

/-- A chain since its genesis, by the blocks that it has accepted or mined. A call that refuses a
block comes between only if it has left the engine alone. -/
inductive Takes (env : Env Tx) (p : Params) : List DagBlock → DagChain Tx → Prop
  | start {c : DagChain Tx} (run : openWithGenesis env p [] = .ok (.ok c)) : Takes env p [] c
  | accept {blocks : List DagBlock} {c c' : DagChain Tx} {io : Option AppendFault} {now : Int}
      {block : DagBlock} (before : Takes env p blocks c)
      (run : c.accept env io now block = .ok (.ok (), c')) : Takes env p (blocks ++ [block]) c'
  | mine {blocks : List DagBlock} {c c' : DagChain Tx} {io : Option AppendFault} {txs : List Tx}
      {timestamp : BitVec 64} {block : DagBlock} (before : Takes env p blocks c)
      (run : c.mineAt env io txs timestamp = .ok (.ok block, c')) :
      Takes env p (blocks ++ [block]) c'
  | refuse {blocks : List DagBlock} {c c' : DagChain Tx} {io : Option AppendFault} {now : Int}
      {block : DagBlock} {e : String} (before : Takes env p blocks c)
      (run : c.accept env io now block = .ok (.error e, c')) (engine : c'.engine = c.engine) :
      Takes env p blocks c'

theorem HoldsBlocks.reframe (h : HoldsBlocks env p blocks c) (log : BlockLog) :
    HoldsBlocks env p blocks { c with log } :=
  { h with }

/-- A block that is known already adds nothing. -/
theorem HoldsBlocks.known (h : HoldsBlocks env p blocks c) {block : DagBlock}
    (hknown : block.id env.blake3 ∈ c.blocks) : HoldsBlocks env p (blocks ++ [block]) c := by
  refine { h with sound := fun hx hne => ?_, complete := fun b hb => ?_ }
  · obtain ⟨b, hb, hbx⟩ := h.sound hx hne
    exact ⟨b, List.mem_append_left _ hb, hbx⟩
  · rcases List.mem_append.mp hb with hb | hb
    · exact h.complete b hb
    · rw [List.mem_singleton.mp hb]
      exact hknown

/-- The engine has no other blocks than the chain. -/
theorem HoldsBlocks.mem_blocks (h : HoldsBlocks env p blocks c) (hx : x ∈ c.engine.dag.blocks)
    (hne : x ≠ blockhash.origin) : x ∈ c.blocks := by
  obtain ⟨ps, hps⟩ := h.grown.ready_best.1.relations.mpr ⟨hx, hne⟩
  rw [h.relations] at hps
  cases hlookup : c.headers.lookup x with
  | none =>
    rw [hlookup] at hps
    cases hps
  | some header => exact h.blocks.mpr ⟨header, hlookup⟩

theorem HoldsBlocks.tip_mem (h : HoldsBlocks env p blocks c) : c.engine.tip ∈ c.blocks :=
  h.mem_blocks h.grown.ready_best.2.mem h.grown.ready_best.2.ne

/-- The parents of a mined block are known. -/
theorem HoldsBlocks.mine (h : HoldsBlocks env p blocks c) (htips : c.tips ≠ [] ∧ c.tips.Nodup)
    {io : Option AppendFault} {txs : List Tx} {timestamp : BitVec 64} {block : DagBlock}
    (run : c.mineAt env io txs timestamp = .ok (.ok block, c')) :
    HoldsBlocks env p (blocks ++ [block]) c' := by
  obtain ⟨built, hbuilt, v, happend, hv⟩ := mineAt_spec run
  cases v with
  | error e => cases hv
  | ok u =>
    obtain rfl : block = built := Except.ok.inj hv
    have hparents : ∀ q ∈ block.header.parents, q ∈ c.blocks := by
      intro q hq
      rw [hbuilt.parents] at hq
      rcases mem_buildParents hq with hq | rfl
      · exact (h.tips.mp hq).1
      · exact h.tip_mem
    have hne : block.header.parents ≠ [] := by
      obtain ⟨q, hq, _⟩ := exists_tip_mem_buildParents htips.1 htips.2
      rw [hbuilt.parents]
      exact List.ne_nil_of_mem hq
    have hnodup : block.header.parents.Nodup := by
      rw [hbuilt.parents]
      exact buildParents_nodup htips.2
    rcases appendAndApply_cases happend with ⟨e, log, _, hr, _⟩ | ⟨log, _, happly⟩
    · cases hr
    · rcases applyWithId_cases happly with ⟨hknown, _, hc⟩ | ⟨hnew, engine, hadd, hrest⟩
      · rw [hc]
        exact (h.known hknown).reframe log
      · change c.engine.addBlock _ _ (c.engineParents _) = _ at hadd
        rw [engineParents_of_known hne hnodup hparents] at hadd
        rcases hrest with ⟨e, _, hr, _⟩ | ⟨txs, _, _, hc⟩
        · cases hr
        · rw [hc]
          exact h.insert hnew hparents hadd

/-- What every such chain is: it holds its blocks, over their whole history. -/
theorem Takes.holds (h : Takes env p blocks c) :
    HoldsBlocks env p blocks c ∧ Unpruned env p blocks c := by
  induction h with
  | start run => exact ⟨genesis_holdsBlocks (genesis_of_open_nil run), open_unpruned run⟩
  | @accept blocks c c' io now block before run ih =>
    obtain ⟨holds, unpruned⟩ := ih
    refine ⟨holds.accept run, ?_⟩
    rcases accept_cases run with rfl | ⟨hpass, hrun⟩
    · exact unpruned.mono fun b hb => List.mem_append_left _ hb
    · refine unpruned.appendAndApply (fun q hq => ?_) hrun
      exact (unpruned.anchored.blocks q (hpass.parents.2.2 q hq)).1
  | @mine blocks c c' io txs timestamp block before run ih =>
    obtain ⟨holds, unpruned⟩ := ih
    refine ⟨holds.mine ⟨unpruned.tips_ne, unpruned.nodup⟩ run, ?_⟩
    obtain ⟨built, hbuilt, v, happend, hv⟩ := mineAt_spec run
    cases v with
    | error e => cases hv
    | ok u =>
      obtain rfl : block = built := Except.ok.inj hv
      exact unpruned.appendAndApply (unpruned.parents_mem hbuilt) happend
  | @refuse blocks c c' io now block e before run engine ih =>
    obtain ⟨holds, unpruned⟩ := ih
    have hlog : ∃ log, c' = { c with log } := by
      rcases accept_cases run with rfl | ⟨hpass, happend⟩
      · exact ⟨c'.log, rfl⟩
      · rcases appendAndApply_cases happend with ⟨_, log, _, _, hc⟩ | ⟨log, _, happly⟩
        · exact ⟨log, hc⟩
        · rcases applyWithId_cases happly with ⟨_, hr, _⟩ | ⟨_, engine', _, hrest⟩
          · cases hr
          · rcases hrest with ⟨_, _, _, hc⟩ | ⟨_, _, hr, _⟩
            · refine ⟨log, ?_⟩
              rw [hc] at engine ⊢
              exact congrArg (fun engine => { c with log, engine }) engine
            · cases hr
    obtain ⟨log, rfl⟩ := hlog
    exact ⟨holds.reframe log, unpruned.of_eq (unpruned.anchored.of_eq rfl rfl rfl rfl rfl) rfl rfl rfl
      rfl ⟨rfl, rfl, rfl, rfl, rfl⟩⟩

theorem HoldsBlocks.parentsOf_genesis (h : HoldsBlocks env p blocks c) :
    c.parentsOf c.genesisDag = [] := by
  rw [parentsOf, h.genesis]
  rfl

/-- The engine has the parents that the headers name, and ORIGIN below genesis. -/
theorem HoldsBlocks.dag_parents (h : HoldsBlocks env p blocks c) (hx : x ∈ c.blocks) :
    c.engine.dag.parents x = if x = c.genesisDag then [blockhash.origin] else c.parentsOf x := by
  obtain ⟨header, hlookup⟩ := h.blocks.mp hx
  change (c.engine.relations.lookup x).getD [] = _
  rw [h.relations, parentsOf, hlookup]
  rfl

theorem HoldsBlocks.parentsOf_mem (h : HoldsBlocks env p blocks c) (hx : x ∈ c.parentsOf y) :
    x ∈ c.blocks ∧ y ∈ c.blocks ∧ y ≠ c.genesisDag := by
  have hne : y ≠ c.genesisDag := by
    rintro rfl
    rw [h.parentsOf_genesis] at hx
    cases hx
  cases hlookup : c.headers.lookup y with
  | none =>
    rw [parentsOf, hlookup] at hx
    cases hx
  | some header =>
    rw [parentsOf, hlookup] at hx
    exact ⟨h.parents hlookup x hx, h.blocks.mpr ⟨header, hlookup⟩, hne⟩

/-- The past by the headers is the past in the engine, above ORIGIN. -/
theorem HoldsBlocks.reach_iff (h : HoldsBlocks env p blocks c) (hy : y ∈ c.blocks) :
    Reach c.parentsOf x y ↔ Reach c.engine.dag.parents x y ∧ x ≠ blockhash.origin := by
  constructor
  · intro hreach
    induction hreach using Relation.ReflTransGen.head_induction_on with
    | refl => exact ⟨.refl, (h.mem_engine hy).2⟩
    | @head x z hx _ ih =>
      obtain ⟨hxb, hzb, hne⟩ := h.parentsOf_mem hx
      refine ⟨.head ?_ ih.1, (h.mem_engine hxb).2⟩
      rw [h.dag_parents hzb, if_neg hne]
      exact hx
  · rintro ⟨hreach, hx⟩
    have inv := h.grown.ready_best.1
    induction hreach using Relation.ReflTransGen.head_induction_on with
    | refl => exact .refl
    | @head x z hxz hz ih =>
      have hzor : z ≠ blockhash.origin := by
        rintro rfl
        rw [inv.parents_origin] at hxz
        cases hxz
      have hzb : z ∈ c.blocks := by
        refine h.mem_blocks ?_ hzor
        exact inv.index.dag.mem_of_reach hz (h.mem_engine hy).1
      rw [h.dag_parents hzb] at hxz
      split_ifs at hxz with hgenesis
      · exact absurd (List.mem_singleton.mp hxz) hx
      · exact .head hxz (ih hzor)

/-- What the engine knows of the selected chain is what the headers say. -/
theorem HoldsBlocks.chainApart_iff (h : HoldsBlocks env p blocks c) :
    c.ChainApart ↔ ∀ b, c.engine.dag.OnChain b c.engine.tip → b ≠ c.engine.genesis →
      b ≠ blockhash.origin → Ghostdag.DagEngine.Apart c.engine b := by
  have inv := h.grown.ready_best.1
  have hgenesis : c.engine.genesis = c.genesisDag := inv.genesis.trans h.genesisDag.symm
  rw [hgenesis]
  constructor
  · intro hapart b hchain hne hor d hd q hq hqne hreach
    have hb : b ∈ c.blocks := h.mem_blocks (Ghostdag.DagEngine.mem_blocks.mpr ⟨d, hd⟩) hor
    have hsp : c.engine.selectedParent b = .ok d.selectedParent := by
      rw [Ghostdag.DagEngine.selectedParent, data_of_lookup hd]
      rfl
    rw [h.dag_parents hb, if_neg hne] at hq
    have hspmem := inv.selected hd hor
    rw [h.dag_parents hb, if_neg hne] at hspmem
    refine hapart b d.selectedParent hchain hb hne hsp q hq hqne ?_
    refine (h.reach_iff (h.parentsOf_mem hspmem).1).mpr ⟨hreach, ?_⟩
    exact (h.mem_engine (h.parentsOf_mem hq).1).2
  · intro hapart b sp hchain hb hne hsp q hq hqne hreach
    obtain ⟨d, hd⟩ := Ghostdag.DagEngine.mem_blocks.mp (h.mem_engine hb).1
    have hor := (h.mem_engine hb).2
    rw [Ghostdag.DagEngine.selectedParent, data_of_lookup hd] at hsp
    obtain rfl : d.selectedParent = sp := Except.ok.inj hsp
    have hspmem := inv.selected hd hor
    rw [h.dag_parents hb, if_neg hne] at hspmem
    refine hapart b hchain hne hor d hd q ?_ hqne ?_
    · rw [h.dag_parents hb, if_neg hne]
      exact hq
    · exact ((h.reach_iff (h.parentsOf_mem hspmem).1).mp hreach).1

/-- The total order of a chain that was never pruned is computed. It is a linear extension of the
past of the tip exactly when no block of the selected chain names, next to its selected parent, an
ancestor of that one. -/
theorem totalOrder_linear_iff (h : Takes env p blocks c) :
    ∃ order, c.totalOrder = .ok order ∧ (LinearExtension c order ↔ c.ChainApart) := by
  obtain ⟨holds, unpruned⟩ := h.holds
  have rooted := unpruned.anchored.rooted
  have inv := rooted.grown.ready_best.1
  have hgenesis : c.engine.genesis = c.genesisDag := inv.genesis
  have hor := (holds.mem_engine holds.tip_mem).2
  obtain ⟨order, horder⟩ := rooted.totalOrder_total
  have ho := rooted.orderTo.post horder
  have hlists := ho.lists rooted hor
  have hmem : ∀ x, x ∈ order ↔ Reach c.parentsOf x c.engine.tip :=
    fun x => (hlists.mem x).trans (holds.reach_iff holds.tip_mem).symm
  have hiff := ho.linear_iff rooted hor
  refine ⟨order, horder, ?_⟩
  rw [holds.chainApart_iff, ← hiff]
  constructor
  · intro hext
    refine hiff.mpr fun b hb hne hbor => ?_
    exact ho.apart rooted hor hext.nodup hb hne hbor
  · intro hlin
    refine ⟨?_, hmem, hlin.nodup, ?_⟩
    · obtain ⟨rest, hrest⟩ := hlists.head
      rw [hrest, hgenesis]
      rfl
    · refine ordered_of_sorted hlin.parents (fun b hb q hq => Or.inr ?_) fun b hb q hq => ?_
      · exact (hmem q).mpr (.head hq ((hmem b).mp hb))
      · obtain ⟨_, hbb, hne⟩ := holds.parentsOf_mem hq
        have hqb : q ∈ c.engine.dag.parents b := by
          rw [holds.dag_parents hbb, if_neg hne]
          exact hq
        refine ⟨fun heq => ?_, fun hnot => hnot hqb⟩
        rw [heq] at hqb
        exact inv.index.dag.acyclic (.single hqb)

end DagChain

section Example

open DagChain
open TaoDag.Runtime (Transaction transferEnv)

/-- A child of genesis, in a chain of two. -/
theorem totalOrder_linear_iff_child : ∃ (c : DagChain Transaction) (order : List Hash),
    Takes transferEnv easyParams [easyChild []] c ∧ c.totalOrder = .ok order ∧
      (LinearExtension c order ↔ c.ChainApart) := by
  have hrun : returnsWith (openWithGenesis transferEnv easyParams []) (fun o =>
      returnsWith o fun c => returnsWith (c.accept transferEnv none 1750000010 (easyChild []))
        fun r => returnsWith r.1 fun _ => true) = true := by decide +kernel
  obtain ⟨_, hopen, ho⟩ := returnsWith_iff.mp hrun
  obtain ⟨c₀, rfl, hc⟩ := returnsWith_iff.mp ho
  obtain ⟨⟨r, c⟩, hacc, hr⟩ := returnsWith_iff.mp hc
  obtain ⟨_, rfl, _⟩ := returnsWith_iff.mp hr
  have htakes : Takes transferEnv easyParams [easyChild []] c := (Takes.start hopen).accept hacc
  obtain ⟨order, horder, hiff⟩ := totalOrder_linear_iff htakes
  exact ⟨c, order, htakes, horder, hiff⟩

/-- A block that names its parent and its grandparent. -/
def grandparentBlock : DagBlock :=
  let child := (easyChild []).id Blake3.hash
  easyBlock Blake3.hash [child, easyGenesis] [child, easyGenesis, easyGenesis, easyGenesis]
    1750000020 []

/-- It is accepted, and the order has genesis twice. -/
theorem totalOrder_repeats : ∃ (c : DagChain Transaction) (order : List Hash),
    Takes transferEnv easyParams [easyChild [], grandparentBlock] c ∧ c.totalOrder = .ok order ∧
      ¬LinearExtension c order := by
  have hrun : returnsWith (openWithGenesis transferEnv easyParams []) (fun o =>
      returnsWith o fun c => returnsWith (c.accept transferEnv none 1750000010 (easyChild []))
        fun r => returnsWith r.1 fun _ =>
          returnsWith (r.2.accept transferEnv none 1750000020 grandparentBlock) fun r' =>
            returnsWith r'.1 fun _ => returnsWith r'.2.totalOrder fun order =>
              decide ¬order.Nodup) = true := by decide +kernel
  obtain ⟨_, hopen, ho⟩ := returnsWith_iff.mp hrun
  obtain ⟨c₀, rfl, hc⟩ := returnsWith_iff.mp ho
  obtain ⟨⟨r, c₁⟩, hacc, hr⟩ := returnsWith_iff.mp hc
  obtain ⟨_, rfl, hc⟩ := returnsWith_iff.mp hr
  obtain ⟨⟨r', c⟩, hacc', hr⟩ := returnsWith_iff.mp hc
  obtain ⟨_, rfl, hc⟩ := returnsWith_iff.mp hr
  obtain ⟨order, horder, hdup⟩ := returnsWith_iff.mp hc
  have htakes : Takes transferEnv easyParams [easyChild [], grandparentBlock] c :=
    ((Takes.start hopen).accept hacc).accept hacc'
  exact ⟨c, order, htakes, horder, fun h => of_decide_eq_true hdup h.nodup⟩

end Example

end TaoDag.Dagvm
