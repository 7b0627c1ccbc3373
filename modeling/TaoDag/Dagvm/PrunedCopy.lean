import TaoDag.Dagvm.Reanchor
import TaoDag.Ghostdag.Stable

namespace TaoDag.Dagvm

open Consensus (DagBlock DagBlockHeader)
open Database (Account AppendFault BlockLog ReplaceFault)
open Ghostdag (DagEngine)
open Ghostdag.DagEngine (Tail Within)
open TaoDag.Runtime (Env)

namespace DagChain

variable {Tx : Type} {env : Env Tx} {p : Params} {c c' c₀ d d' d₁ d₁' : DagChain Tx}
  {x cur pt root : Hash} {e e₁ : DagEngine} {n take fuel fuel' : Nat} {above chain : List Hash}
  {log : BlockLog} {base : List (Consensus.Pubkey × Account)} {proof : List DagBlockHeader}

/-- The `n` blocks of the selected chain from a block down are above the root. -/
def StaysAbove (e : DagEngine) (root : Hash) : Nat → Hash → Prop
  | 0, _ => True
  | n+1, x => x ≠ root ∧ ∃ d, e.gd.lookup x = some d ∧ StaysAbove e root n d.selectedParent

section StaysAbove

theorem StaysAbove.within (hw : Within e e₁) (h : StaysAbove e root n x) :
    StaysAbove e₁ root n x := by
  induction n generalizing x with
  | zero => trivial
  | succ n ih =>
    obtain ⟨hne, d, hd, h⟩ := h
    exact ⟨hne, d, hw.gd hd, ih h⟩

theorem StaysAbove.pred (h : StaysAbove e root (n + 1) x) : StaysAbove e root n x := by
  induction n generalizing x with
  | zero => trivial
  | succ n ih =>
    obtain ⟨hne, d, hd, h⟩ := h
    exact ⟨hne, d, hd, ih h⟩

/-- The blocks before one of the ids of the selected chain are above it. -/
theorem staysAbove_of_ids (hrun : c.selectedChainIds fuel cur = .ok chain) (hpt : pt ∈ chain)
    (hn : n ≤ chain.idxOf pt) : StaysAbove c.engine pt n cur := by
  induction fuel generalizing cur chain n with
  | zero => cases hrun
  | succ fuel ih =>
    cases n with
    | zero => trivial
    | succ n =>
      rw [selectedChainIds] at hrun
      by_cases hgen : cur = c.genesisDag
      · rw [if_pos hgen] at hrun
        cases hrun
        rw [List.mem_singleton.mp hpt, List.idxOf_cons_self] at hn
        exact absurd hn (Nat.not_succ_le_zero n)
      · rw [if_neg hgen] at hrun
        obtain ⟨sp, hsp, hrun⟩ := bind_eq_ok.mp hrun
        obtain ⟨rest, hrest, hrun⟩ := bind_eq_ok.mp hrun
        cases hrun
        obtain ⟨d, hd, hsp⟩ := bind_eq_ok.mp hsp
        cases hsp
        have hne : cur ≠ pt := by
          rintro rfl
          rw [List.idxOf_cons_self] at hn
          exact absurd hn (Nat.not_succ_le_zero n)
        rw [List.idxOf_cons_ne rest hne] at hn
        refine ⟨hne, d, (unwrap_returns Ghostdag.DagEngine.getData_spec).post hd, ?_⟩
        exact ih hrest ((List.mem_cons.mp hpt).resolve_left (Ne.symm hne)) (Nat.le_of_succ_le_succ hn)

end StaysAbove

/-- The sample ends with the block that it starts from, and has no more than `take` blocks. -/
theorem sampleChain_last : Returns False (c.sampleChain take fuel cur above) fun l =>
    ∃ front, l = front ++ cur :: above ∧ l.length ≤ max take (above.length + 1) := by
  induction fuel generalizing cur above with
  | zero => exact Returns.error id
  | succ fuel ih =>
    rw [sampleChain]
    by_cases hstop : take ≤ above.length + 1 ∨ cur = c.genesisDag
    · rw [if_pos hstop]
      exact Returns.pure ⟨[], rfl, by simp⟩
    · rw [if_neg hstop]
      have hsp : Returns False (c.engine.selectedParent cur) fun _ => True :=
        ⟨fun _ _ => trivial, False.elim⟩
      refine Returns.bind hsp fun sp _ => ih.mono fun l hl => ?_
      obtain ⟨front, rfl, hlen⟩ := hl
      refine ⟨front ++ [sp], by simp, ?_⟩
      simp only [List.length_cons] at hlen ⊢
      omega

theorem Anchored.sampleChain_total (h : Anchored env c) (take : Nat) (hx : x ∈ c.blocks) :
    ∃ chain, c.sampleChain take (c.engine.gd.entries.length + 1) x [] = .ok chain := by
  have hsame : Akin env c c :=
    ⟨h, h, ⟨fun h₁ h₂ => Option.some.inj (h₁.symm.trans h₂),
      fun h₁ h₂ => Option.some.inj (h₁.symm.trans h₂)⟩, rfl, rfl, rfl, rfl, fun _ _ _ => rfl⟩
  have hb : below c.engine x < c.engine.gd.entries.length + 1 := Nat.lt_succ_of_le below_le
  obtain ⟨chain, hrun, _, _⟩ := hsame.sampleChain take hx hx (List.forall_mem_nil _) hb hb
  exact ⟨chain, hrun⟩

/-- In the warm-up the target is that of the block that is extended. -/
theorem selectedChainTarget_of_small (hwindow : c.lwmaWindow ≤ 1) {h : DagBlockHeader}
    (hh : c.headers.lookup x = some h)
    (hrun : c.sampleChain (min (c.lwmaWindow + 1) u64Max) (c.engine.gd.entries.length + 1) x [] =
      .ok chain) : c.selectedChainTarget x = .ok h.target := by
  obtain ⟨front, hchain, hlen⟩ := sampleChain_last.post hrun
  have hlast : (chain.filterMap c.headers.lookup).map timedTarget =
      (front.filterMap c.headers.lookup).map timedTarget ++ [timedTarget h] := by
    simp [hchain, hh]
  have hcount : ((chain.filterMap c.headers.lookup).map timedTarget).length ≤
      max c.lwmaWindow 2 := by
    have hle := List.length_filterMap_le c.headers.lookup chain
    have htwo : min (c.lwmaWindow + 1) u64Max ≤ 2 := by omega
    rw [List.length_map]
    simp only [List.length_nil] at hlen
    omega
  have hparams : Consensus.DifficultyParams.new (max c.blockTimeSecs 1) (max c.lwmaWindow 2) =
      .ok ⟨max c.blockTimeSecs 1, max c.lwmaWindow 2⟩ := by
    have hok : 0 < max c.blockTimeSecs 1 ∧ 2 ≤ max c.lwmaWindow 2 := by omega
    rw [Consensus.DifficultyParams.new, assert, if_pos hok]
    rfl
  rw [selectedChainTarget, hrun]
  simp only [bind, Except.bind, hparams]
  rw [Consensus.nextTarget, if_pos hcount, hlast]
  simp [timedTarget]

/-- A chain and a pruned copy of it, over the same parameters: the copy has what the chain has above
its origin, the tip among that. -/
structure Copies (env : Env Tx) (d d' : DagChain Tx) : Prop where
  left : Anchored env d
  right : Anchored env d'
  tail : Tail env.fractions d.k d.genesisDag d'.genesisDag d.engine d'.engine
  tip : d.engine.tip ∈ d'.blocks
  subset : d'.blocks ⊆ d.blocks
  headers : ∀ x ∈ d'.blocks, d'.headers.lookup x = d.headers.lookup x
  genesisTarget : d'.genesisTarget = d.genesisTarget
  blockTimeSecs : d'.blockTimeSecs = d.blockTimeSecs
  lwmaWindow : d'.lwmaWindow = d.lwmaWindow

/-- A prune that cuts no parent off leaves a copy. -/
theorem copies_of_cut {order : List Hash} {i : Nat} (h : Cut env c order i pt e) (hm : Mapped c)
    (hw : Whole c pt (order.drop (i + 1)))
    (hc' : c' = c.reanchored e log pt (order.drop (i + 1)) base proof)
    (hanchored : Anchored env c') : Copies env c c' := by
  subst hc'
  have hmem : ∀ {x}, x ∈ (pt :: order.drop (i + 1)).toFinset ↔ x ∈ pt :: order.drop (i + 1) :=
    List.mem_toFinset
  constructor
  · exact h.anchored
  · exact hanchored
  · exact h.tail hm hw
  · exact hmem.mpr h.tip_mem
  · intro x hx
    obtain ⟨hd, hhead⟩ := (hanchored.headers x).mp hx
    change (restrict c.headers (pt :: order.drop (i + 1))).lookup x = some hd at hhead
    rw [restrict_lookup, if_pos (hmem.mp hx)] at hhead
    exact (h.anchored.headers x).mpr ⟨hd, hhead⟩
  · intro x hx
    show (restrict c.headers (pt :: order.drop (i + 1))).lookup x = _
    rw [restrict_lookup, if_pos (hmem.mp hx)]
  · rfl
  · rfl
  · rfl

namespace Copies

theorem tip_eq (h : Copies env d d') : d'.engine.tip = d.engine.tip :=
  h.tail.tip (h.right.blocks _ h.tip)

/-- The order of the copy is the order of the chain from the origin of the copy on. -/
theorem totalOrder (h : Copies env d d') : ∃ before rest,
    d.totalOrder = .ok (before ++ d'.genesisDag :: rest) ∧
    d'.totalOrder = .ok (d'.genesisDag :: rest) ∧
    Ghostdag.DagEngine.OrderTo d.engine d'.genesisDag (before ++ [d'.genesisDag]) := by
  obtain ⟨order, horder⟩ := h.tail.whole.totalOrder_total
  obtain ⟨order', horder'⟩ := h.tail.above.totalOrder_total
  obtain ⟨before, rest, rfl, rfl, hto, _⟩ :=
    h.tail.totalOrder (h.right.blocks _ h.tip) horder horder'
  exact ⟨before, rest, horder, horder', hto⟩

/-- What both take in leaves a copy. -/
theorem accept {block : DagBlock} {io io' : Option AppendFault} {now now' : Int}
    (h : Copies env d d') (hnew : block.id env.blake3 ∉ d.blocks)
    (hrun : d.accept env io now block = .ok (.ok (), d₁))
    (hrun' : d'.accept env io' now' block = .ok (.ok (), d₁')) :
    Copies env d₁ d₁' ∧ d₁'.genesisDag = d'.genesisDag ∧ d₁.lwmaWindow = d.lwmaWindow ∧
      d.engine.addBlock env.fractions (block.id env.blake3) block.header.parents = .ok d₁.engine ∧
      blockhash.origin ∉ block.header.parents := by
  have hnew' : block.id env.blake3 ∉ d'.blocks := fun hmem => hnew (h.subset hmem)
  have ha₁ := (anchored_kept env).accept h.left hrun
  have ha₁' := (anchored_kept env).accept h.right hrun'
  obtain ⟨hpass, log, engine, txs, hadd, rfl⟩ :=
    (accept_ok_cases hrun).resolve_left fun hold => hnew hold.1
  obtain ⟨hpass', log', engine', txs', hadd', rfl⟩ :=
    (accept_ok_cases hrun').resolve_left fun hold => hnew' hold.1
  obtain ⟨_, _, hps⟩ := hpass.parents
  obtain ⟨_, _, hps'⟩ := hpass'.parents
  have horigin := h.left.originAlone hps
  have hgrown := h.tail.grow horigin hadd
  have inv := h.left.rooted.grown.ready_best.1
  obtain ⟨data, _, _, hadded, _⟩ := inv.step (fun hor => absurd hor horigin) hadd
  have hb : engine.Holds (block.id env.blake3) :=
    ⟨hadded.mem_blocks_iff.mpr (Or.inl rfl), hadded.ne_origin inv.toInv⟩
  have hparents : engine.dag.parents (block.id env.blake3) = block.header.parents := by
    rw [hadded.parents_eq inv.toInv, Function.update_self]
  have htail := hgrown.add hb hparents (fun q hq => h.right.blocks q (hps' q hq)) hadd'
  refine ⟨⟨ha₁, ha₁', htail, ?_, ?_, ?_, h.genesisTarget, h.blockTimeSecs, h.lwmaWindow⟩, rfl, rfl,
    hadd, horigin⟩
  · show engine.tip ∈ insert (block.id env.blake3) d'.blocks
    rw [Finset.mem_insert]
    rcases hadded.tip with ⟨htip, _⟩ | ⟨htip, _⟩
    · exact Or.inl htip
    · exact Or.inr (htip ▸ h.tip)
  · exact Finset.insert_subset_insert _ h.subset
  · intro x hx
    show (d'.headers.insert (block.id env.blake3) block.header).lookup x =
      (d.headers.insert (block.id env.blake3) block.header).lookup x
    by_cases hxb : x = block.id env.blake3
    · rw [hxb, AList.lookup_insert, AList.lookup_insert]
    · rw [AList.lookup_insert_ne hxb, AList.lookup_insert_ne hxb]
      exact h.headers x ((Finset.mem_insert.mp hx).resolve_left hxb)

end Copies

/-- A chain and its pruned copy that have taken the same further blocks in, each new and of a kind
`Q`. -/
inductive Together (env : Env Tx) (Q : DagChain Tx → DagBlock → Prop) (c c' : DagChain Tx) :
    DagChain Tx → DagChain Tx → Prop
  | refl : Together env Q c c' c c'
  | step {d d' d₁ d₁' : DagChain Tx} {block : DagBlock} {io io' : Option AppendFault}
      {now now' : Int} (before : Together env Q c c' d d') (new : block.id env.blake3 ∉ d.blocks)
      (kind : Q d block) (run : d.accept env io now block = .ok (.ok (), d₁))
      (run' : d'.accept env io' now' block = .ok (.ok (), d₁')) : Together env Q c c' d₁ d₁'

/-- The copy has the tip of the chain, and its order is what the chain's order has after a part that
does not change. -/
def SameOrder (c c' : DagChain Tx) (Q : DagChain Tx → DagBlock → Prop) (env : Env Tx) : Prop :=
  ∃ before, ∀ d d', Together env Q c c' d d' → d'.engine.tip = d.engine.tip ∧
    ∃ rest, d.totalOrder = .ok (before ++ c'.genesisDag :: rest) ∧
      d'.totalOrder = .ok (c'.genesisDag :: rest)

section Together

variable {Q : DagChain Tx → DagBlock → Prop}

theorem Copies.together (h : Copies env c c') (hrun : Together env Q c c' d d') :
    Copies env d d' ∧ d'.genesisDag = c'.genesisDag ∧
      Ghostdag.DagEngine.Later env.fractions c.engine d.engine := by
  induction hrun with
  | refl => exact ⟨h, rfl, .refl⟩
  | step _ hnew _ run run' ih =>
    obtain ⟨hcopies, horigin, hlater⟩ := ih
    obtain ⟨hcopies', horigin', _, hadd, hor⟩ := hcopies.accept hnew run run'
    exact ⟨hcopies', horigin'.trans horigin, .add hlater hor hadd⟩

theorem Copies.sameOrder (h : Copies env c c') : SameOrder c c' Q env := by
  obtain ⟨before, _, _, _, hto⟩ := h.totalOrder
  refine ⟨before, fun d d' hrun => ?_⟩
  obtain ⟨hcopies, horigin, hlater⟩ := h.together hrun
  refine ⟨hcopies.tip_eq, ?_⟩
  obtain ⟨before', rest, horder, horder', hto'⟩ := hcopies.totalOrder
  rw [horigin] at horder horder' hto'
  have hsame := (hlater.orderTo h.tail.whole h.tail.above.genesis_holds.2 hto).unique hto'
  obtain rfl : before = before' := List.append_cancel_right hsame
  exact ⟨rest, horder, horder'⟩

end Together

/-- In every state that calls on an opened chain lead to: if a `prune` cuts no parent of a kept block
off, the pruned node keeps to the tip and the order of one that did not prune, whatever blocks the
two take in afterwards. -/
theorem pruned_copy_order {P : DagChain Tx → Call Tx → Prop} {file : Bytes}
    {io : Option ReplaceFault} {count : Nat} (hopen : openWithGenesis env p file = .ok (.ok c₀))
    (hrun : Reaches env P c₀ c) (hsealed : Sealed c)
    (hprune : c.prune env io = .ok (.ok count, c')) (hn : 0 < count) :
    SameOrder c c' (fun _ _ => True) env := by
  obtain ⟨ha, hnamed, hm⟩ := mapped_of_reaches hopen hrun
  obtain ⟨order, i, pt, bank, e, log, hcut, hpoint, _, hc'⟩ := cut_of_prune ha hnamed hprune hn
  have hw := hsealed order i pt hcut.run hpoint hcut.point
  exact (copies_of_cut hcut hm hw hc' (ha.prune hprune)).sameOrder

section Window

/-- Both sample the same blocks, where the selected chain is long enough. -/
theorem Copies.sampleChain (h : Copies env d d') (hcur : cur ∈ d'.blocks)
    (habove : ∀ x ∈ above, x ∈ d'.blocks) (hlong : StaysAbove d.engine d'.genesisDag n cur)
    (hn : take ≤ above.length + 1 + n) (hfuel : below d.engine cur < fuel)
    (hfuel' : below d'.engine cur < fuel') :
    ∃ chain, d.sampleChain take fuel cur above = .ok chain ∧
      d'.sampleChain take fuel' cur above = .ok chain ∧ ∀ x ∈ chain, x ∈ d'.blocks := by
  induction fuel generalizing fuel' cur above n with
  | zero => exact absurd hfuel (Nat.not_lt_zero _)
  | succ fuel ih =>
    cases fuel' with
    | zero => exact absurd hfuel' (Nat.not_lt_zero _)
    | succ fuel' =>
      have hnext : ∀ x ∈ cur :: above, x ∈ d'.blocks := List.forall_mem_cons.mpr ⟨hcur, habove⟩
      rw [DagChain.sampleChain, DagChain.sampleChain]
      by_cases hstop : take ≤ above.length + 1
      · rw [if_pos (Or.inl hstop), if_pos (Or.inl hstop)]
        exact ⟨cur :: above, rfl, rfl, hnext⟩
      · cases n with
        | zero => exact absurd hn hstop
        | succ n =>
          obtain ⟨hroot, data, hdata, hlong⟩ := hlong
          have hholds := h.right.blocks cur hcur
          have hgen : cur ≠ d.genesisDag := by
            rintro rfl
            have hreach := h.tail.root_reach hholds
            exact hroot (h.left.rooted.eq_genesis h.tail.above.genesis_holds.2 hreach).symm
          rw [if_neg (not_or.mpr ⟨hstop, hgen⟩), if_neg (not_or.mpr ⟨hstop, hroot⟩)]
          obtain ⟨data₁, hdata₁, hsp, hwork⟩ := h.left.selectedParent (h.subset hcur) hgen
          obtain ⟨data', hdata', hsp', hwork'⟩ := h.right.selectedParent hcur hroot
          cases hdata.symm.trans hdata₁
          have hshift := h.tail.data hholds hroot hdata hdata'
          rw [DagEngine.selectedParent, DagEngine.selectedParent, data_of_lookup hdata,
            data_of_lookup hdata']
          have hlt := below_lt (h.left.blocks _ hsp).1 hwork
          have hlt' := below_lt (h.right.blocks _ hsp').1 hwork'
          rw [hshift.selectedParent] at hlong hlt
          simp only [bind, Except.bind, pure, Except.pure, hshift.selectedParent]
          apply ih hsp' hnext hlong _ (by omega) (by omega)
          simp only [List.length_cons]
          omega

/-- The copy has a window of blocks under its tip, or the difficulty never moves. -/
def LongEnough (d d' : DagChain Tx) : Prop :=
  d.lwmaWindow ≤ 1 ∨ StaysAbove d.engine d'.genesisDag d.lwmaWindow d.engine.tip

/-- The two ask for the same difficulty. -/
theorem Copies.nextTarget (h : Copies env d d') (hlong : LongEnough d d') :
    d.nextTarget = d'.nextTarget := by
  have hb : below d.engine d.engine.tip < d.engine.gd.entries.length + 1 :=
    Nat.lt_succ_of_le below_le
  have hb' : below d'.engine d.engine.tip < d'.engine.gd.entries.length + 1 :=
    Nat.lt_succ_of_le below_le
  rw [DagChain.nextTarget, DagChain.nextTarget, h.tip_eq]
  rcases hlong with hsmall | hlong
  · obtain ⟨hd, hhead⟩ := (h.right.headers _).mp h.tip
    have hhead' := hhead
    rw [h.headers _ h.tip] at hhead
    obtain ⟨_, hrun⟩ := h.left.sampleChain_total (min (d.lwmaWindow + 1) u64Max) (h.subset h.tip)
    obtain ⟨_, hrun'⟩ := h.right.sampleChain_total (min (d'.lwmaWindow + 1) u64Max) h.tip
    rw [selectedChainTarget_of_small hsmall hhead hrun,
      selectedChainTarget_of_small (h.lwmaWindow ▸ hsmall) hhead' hrun']
  · have hn : min (d.lwmaWindow + 1) u64Max ≤ ([] : List Hash).length + 1 + d.lwmaWindow := by
      simp
    obtain ⟨chain, hrun, hrun', hmem⟩ :=
      h.sampleChain h.tip (List.forall_mem_nil _) hlong hn hb hb'
    have hheaders : chain.filterMap d'.headers.lookup = chain.filterMap d.headers.lookup :=
      List.filterMap_congr fun y hy => h.headers y (hmem y hy)
    rw [selectedChainTarget, selectedChainTarget, h.lwmaWindow, hrun, hrun']
    simp only [bind, Except.bind, hheaders, h.blockTimeSecs, h.genesisTarget]

/-- The block is built on the heaviest tip. -/
def OnTip (d : DagChain Tx) (block : DagBlock) : Prop := d.engine.tip ∈ block.header.parents

/-- A block on the tip is the next tip, with the old one as its selected parent. -/
theorem LongEnough.grow {block : DagBlock} (h : Copies env d d') (hlong : LongEnough d d')
    (htip : OnTip d block) (horigin : blockhash.origin ∉ block.header.parents)
    (hwindow : d₁.lwmaWindow = d.lwmaWindow) (hgen : d₁'.genesisDag = d'.genesisDag)
    (hadd : d.engine.addBlock env.fractions (block.id env.blake3) block.header.parents =
      .ok d₁.engine) : LongEnough d₁ d₁' := by
  obtain ⟨inv, best⟩ := h.left.rooted.grown.ready_best
  obtain ⟨data, _, hd, hadded, inv'⟩ := inv.step (fun hor => absurd hor horigin) hadd
  rw [LongEnough, hwindow, hgen]
  refine hlong.imp_right fun hlong => ?_
  have hparent : d.engine.tip ∈ d₁.engine.dag.parents (block.id env.blake3) := by
    rw [hadded.parents_eq inv.toInv, Function.update_self]
    exact htip
  have hnext : d₁.engine.tip = block.id env.blake3 := by
    rcases hadded.tip with ⟨heq, _⟩ | ⟨_, hle⟩
    · exact heq
    · have hlt := inv'.work hparent best.ne
      rcases hle with hgt | ⟨heq, _⟩
      · exact absurd hgt (Nat.lt_asymm hlt)
      · exact absurd heq (Nat.ne_of_gt hlt)
  have hsp : data.selectedParent = d.engine.tip := by
    have hne : data.selectedParent ≠ blockhash.origin := fun hor => horigin (hor ▸ hd.mem)
    have hle := best.max (hd.known _ hd.mem) hne
    exact congrArg Ghostdag.SortableBlock.hash
      (Ghostdag.SortableBlock.le_antisymm hle (hd.max _ htip))
  have hroot : block.id env.blake3 ≠ d'.genesisDag :=
    fun heq => hadded.new (heq ▸ (h.tail.known h.tail.above.genesis_holds).1)
  rw [hnext]
  apply StaysAbove.pred
  refine ⟨hroot, data, hadded.lookup_self, ?_⟩
  rw [hsp]
  exact hlong.within (hadded.within inv)

theorem Copies.sameTarget (h : Copies env c c') (hlong : LongEnough c c')
    (hrun : Together env OnTip c c' d d') : d.nextTarget = d'.nextTarget := by
  have hall : LongEnough d d' := by
    induction hrun with
    | refl => exact hlong
    | step before hnew htip run run' ih =>
      obtain ⟨hcopies, _, _⟩ := h.together before
      obtain ⟨_, horigin, hwindow, hadd, hor⟩ := hcopies.accept hnew run run'
      exact ih.grow hcopies htip hor hwindow horigin hadd
  exact (h.together hrun).1.nextTarget hall

/-- The selected chain has a window of blocks above the pruning point, or the window is so small that
the difficulty never moves. -/
def Windowed (c : DagChain Tx) : Prop :=
  c.lwmaWindow ≤ 1 ∨ ∀ order i pt ids, c.totalOrder = .ok order →
    c.prunePoint order = .ok (some i) → order[i]? = some pt →
    c.selectedChainIds (c.engine.gd.entries.length + 1) c.engine.tip = .ok ids →
    c.lwmaWindow ≤ ids.idxOf pt

theorem prunePoint_ids {order : List Hash} {i : Nat} (hrun : c.prunePoint order = .ok (some i))
    (hpt : order[i]? = some pt) : ∃ ids,
      c.selectedChainIds (c.engine.gd.entries.length + 1) c.engine.tip = .ok ids ∧ pt ∈ ids := by
  rw [prunePoint] at hrun
  split at hrun
  · cases hrun
  obtain ⟨ids, hids, hrun⟩ := bind_eq_ok.mp hrun
  have hany := List.find?_some (Except.ok.inj hrun)
  rw [hpt] at hany
  exact ⟨ids, hids, of_decide_eq_true hany⟩

end Window

end DagChain

section Example

open DagChain
open TaoDag.Runtime (Transaction transferEnv)

/-- Two blocks on genesis, pruned to the tip. -/
theorem pruned_to_tip : ∃ c₀ c c' : DagChain Transaction,
    openWithGenesis transferEnv prunableParams [] = .ok (.ok c₀) ∧
    Reaches transferEnv (fun _ _ => True) c₀ c ∧ Sealed c ∧ Windowed c ∧
    c.prune transferEnv none = .ok (.ok 2, c') := by
  have hrun : returnsWith (openWithGenesis transferEnv prunableParams []) (fun o =>
      returnsWith o fun c₀ =>
        ((c₀.setFinalityDepth 1).acceptAll transferEnv 1750000500
          (c₀.mineAll transferEnv [1750000010, 1750000020])).any fun c =>
            decide (c.lwmaWindow ≤ 1) &&
            (returnsWith c.totalOrder fun order => decide (order.length = 3) &&
              returnsWith (c.prunePoint order) fun point => decide (point = some 2)) &&
            returnsWith (c.prune transferEnv none) fun r =>
              returnsWith r.1 fun n => decide (n = 2)) = true := by
    decide +kernel
  simp only [returnsWith_iff, Option.any_eq_true, Bool.and_eq_true, decide_eq_true_eq] at hrun
  obtain ⟨_, hopen, c₀, rfl, c, haccept, ⟨hwindow, order, horder, hlen, _, hpoint, rfl⟩,
    ⟨_, c'⟩, hprune, n, rfl, rfl⟩ := hrun
  have hdepth : StepOn transferEnv (fun _ _ => True) c₀ (c₀.setFinalityDepth 1) :=
    ⟨.setFinalityDepth 1, trivial, rfl⟩
  have hreach : Reaches transferEnv (fun _ _ => True) c₀ c :=
    .head hdepth (Accepts.of_acceptAll .nil haccept).reaches
  exact ⟨c₀, c, c', hopen, hreach, sealed_of_last horder hpoint hlen, Or.inl hwindow, hprune⟩

theorem pruned_copy_order_tip : ∃ c c' : DagChain Transaction,
    c.prune transferEnv none = .ok (.ok 2, c') ∧
    SameOrder c c' (fun _ _ => True) transferEnv := by
  obtain ⟨c₀, c, c', hopen, hrun, hsealed, _, hprune⟩ := pruned_to_tip
  exact ⟨c, c', hprune, pruned_copy_order hopen hrun hsealed hprune (by decide)⟩

end Example

end TaoDag.Dagvm
