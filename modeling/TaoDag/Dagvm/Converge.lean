import TaoDag.Dagvm.Accept
import TaoDag.Dagvm.Run
import TaoDag.Ghostdag.Converge
import TaoDag.Runtime.Transfer

namespace TaoDag.Dagvm

open Consensus (DagBlockHeader DagBlock)
open Database (AppendFault BlockLog)
open Ghostdag (DagEngine)
open Ghostdag.DagEngine (SameView Grown Added)
open TaoDag.Runtime (Env)

theorem dedupFirst_of_nodup {seen ps : List Hash} (hn : ps.Nodup) (hs : ∀ p ∈ ps, p ∉ seen) :
    dedupFirst seen ps = ps := by
  induction ps generalizing seen with
  | nil => rfl
  | cons p ps ih =>
    rw [List.nodup_cons] at hn
    rw [dedupFirst, if_neg (hs p List.mem_cons_self), ih hn.2]
    intro q hq hseen
    rcases List.mem_cons.mp hseen with hqp | hseen
    · exact hn.1 (hqp ▸ hq)
    · exact hs q (List.mem_cons_of_mem p hq) hseen

namespace DagChain

variable {Tx : Type} {env : Env Tx} {p : Params} {c c' c₁ c₂ : DagChain Tx}

/-- Known parents reach the engine as they are. -/
theorem engineParents_of_known {ps : List Hash} (hne : ps ≠ []) (hn : ps.Nodup)
    (hk : ∀ p ∈ ps, p ∈ c.blocks) : c.engineParents ps = ps := by
  have hmap : ps.map (fun p => if p = c.genesisDag ∨ p ∈ c.blocks then p else c.genesisDag) = ps := by
    refine (List.map_congr_left fun p hp => ?_).trans (List.map_id ps)
    rw [if_pos (Or.inr (hk p hp))]
    rfl
  rw [engineParents]
  simp only [hmap, dedupFirst_of_nodup hn (fun _ _ => List.not_mem_nil)]

/-- The checks of `accept` on the parents of a block. -/
theorem Passes.parents {now : Int} {block : DagBlock} (h : Passes env now c block) :
    block.header.parents ≠ [] ∧ block.header.parents.Nodup ∧
      ∀ p ∈ block.header.parents, p ∈ c.blocks := by
  have hi := h.intrinsic
  have hc := h.context
  refine ⟨fun hnil => ?_, by_contra fun hdup => ?_, by_contra fun hun => ?_⟩
  · have hempty : block.header.parents.isEmpty = true := List.isEmpty_iff.mpr hnil
    simp only [validateBlockIntrinsic, hempty, if_true] at hi
    split_ifs at hi
  · simp only [validateBlockIntrinsic, hdup, not_false_eq_true, if_true] at hi
    split_ifs at hi
  · have hall : (!block.header.parents.all (· ∈ c.blocks)) = true := by simpa using hun
    simp only [checkContext, hall, if_true] at hc
    split_ifs at hc <;> cases hc

/-- What an accepted block does: nothing when it is known, or else the whole insertion, with its
parents in the engine as its header names them. -/
theorem accept_ok_cases {io : Option AppendFault} {now : Int} {block : DagBlock}
    (h : c.accept env io now block = .ok (.ok (), c')) :
    (block.id env.blake3 ∈ c.blocks ∧ c' = c) ∨
    (Passes env now c block ∧ ∃ log engine txs,
      c.engine.addBlock env.fractions (block.id env.blake3) block.header.parents = .ok engine ∧
      c' = { c with log, engine }.insertBlock block (block.id env.blake3) txs) := by
  by_cases hid : block.id env.blake3 ∈ c.blocks
  · rw [accept, if_pos hid] at h
    cases h
    exact Or.inl ⟨hid, rfl⟩
  · have hpass : Passes env now c block := by
      rw [accept, if_neg hid] at h
      cases hv : validateBlockIntrinsic env now block with
      | error e =>
        simp only [hv] at h
        cases h
      | ok u =>
        simp only [hv] at h
        obtain ⟨v, hc, h⟩ := bind_eq_ok.mp h
        cases v with
        | error e => cases h
        | ok u => exact ⟨hid, hv, hc⟩
    rw [accept_of_passes hpass] at h
    refine Or.inr ⟨hpass, ?_⟩
    rcases appendAndApply_cases h with ⟨e, log, _, hr, _⟩ | ⟨log, _, happly⟩
    · cases hr
    · rcases applyWithId_cases happly with ⟨hknown, _⟩ | ⟨_, engine, hadd, hrest⟩
      · exact absurd hknown hid
      · obtain ⟨hne, hnodup, hknown⟩ := hpass.parents
        change c.engine.addBlock _ _ (c.engineParents _) = _ at hadd
        rw [engineParents_of_known hne hnodup hknown] at hadd
        rcases hrest with ⟨e, _, hr, _⟩ | ⟨txs, _, _, hc'⟩
        · cases hr
        · exact ⟨log, engine, txs, hadd, hc'⟩

/-- The chain `c'` that accepts the blocks of a list, in that order, each at some clock
reading. -/
inductive Accepts (env : Env Tx) (c : DagChain Tx) : List DagBlock → DagChain Tx → Prop
  | nil : Accepts env c [] c
  | snoc {blocks : List DagBlock} {d c' : DagChain Tx} {block : DagBlock}
      {io : Option AppendFault} {now : Int} (before : Accepts env c blocks d)
      (run : d.accept env io now block = .ok (.ok (), c')) :
      Accepts env c (blocks ++ [block]) c'

/-- A chain that has accepted the blocks of a list since its genesis. -/
structure HoldsBlocks (env : Env Tx) (p : Params) (accepted : List DagBlock)
    (c : DagChain Tx) : Prop where
  grown : Grown env.fractions p.k ((genesisHeader p).id env.blake3) c.engine
  genesisDag : c.genesisDag = (genesisHeader p).id env.blake3
  genesisTarget : c.genesisTarget = p.genesisTarget
  blockTimeSecs : c.blockTimeSecs = p.blockTimeSecs
  lwmaWindow : c.lwmaWindow = p.lwmaWindow
  historyPruned : c.historyPruned = false
  genesis : c.headers.lookup c.genesisDag = some (genesisHeader p)
  blocks : ∀ {x}, x ∈ c.blocks ↔ ∃ h, c.headers.lookup x = some h
  sound : ∀ {x h}, c.headers.lookup x = some h → x ≠ c.genesisDag →
    ∃ b ∈ accepted, b.header = h ∧ b.id env.blake3 = x
  complete : ∀ b ∈ accepted, b.id env.blake3 ∈ c.blocks
  relations : ∀ x, c.engine.relations.lookup x = (c.headers.lookup x).map fun h =>
    if x = c.genesisDag then [blockhash.origin] else h.parents
  parents : ∀ {x h}, c.headers.lookup x = some h → ∀ q ∈ h.parents, q ∈ c.blocks
  tips : ∀ {x}, x ∈ c.tips ↔ x ∈ c.blocks ∧ ∀ y h, c.headers.lookup y = some h → x ∉ h.parents

theorem freshEngine_spec {fr : Reachability.Interval.Fractions} {k : Nat} {origin : Hash}
    {e : DagEngine} (h : freshEngine fr k origin = .ok e) : Grown fr k origin e ∧
      ∀ x, e.relations.lookup x = if x = origin then some [blockhash.origin] else none := by
  obtain ⟨e₀, hnew, hadd⟩ := bind_eq_ok.mp h
  refine ⟨.genesis hnew hadd, fun x => ?_⟩
  obtain ⟨inv, hdag, _⟩ := DagEngine.new_ready.post hnew
  obtain ⟨d, _, _, ha, _⟩ := inv.step DagEngine.originAlone_self hadd
  by_cases hx : x = origin
  · rw [if_pos hx, hx, ha.relations_self]
  · rw [if_neg hx, ha.relations_of_ne hx]
    refine Option.eq_none_iff_forall_ne_some.mpr fun ps hps => ?_
    obtain ⟨hmem, hne⟩ := inv.relations.mp ⟨ps, hps⟩
    rw [hdag] at hmem
    exact hne (Finset.mem_singleton.mp hmem)

theorem genesis_holdsBlocks {log : BlockLog} (h : genesis env p log = .ok c) :
    HoldsBlocks env p [] c := by
  obtain ⟨engine, hfresh, h⟩ := bind_eq_ok.mp h
  cases h
  obtain ⟨hgrown, hrel⟩ := freshEngine_spec hfresh
  have hself : (AList.singleton ((genesisHeader p).id env.blake3) (genesisHeader p) :
      BlockHashMap DagBlockHeader).lookup ((genesisHeader p).id env.blake3) =
        some (genesisHeader p) := lookup_singleton.mpr ⟨rfl, rfl⟩
  refine ⟨hgrown, rfl, rfl, rfl, rfl, rfl, hself, fun {x} => ?_,
    fun {x h} hx hne => absurd (lookup_singleton.mp hx).1 hne,
    fun b hb => absurd hb List.not_mem_nil, fun x => ?_, fun {x h} hx q hq => ?_, fun {x} => ?_⟩
  · refine Finset.mem_singleton.trans ⟨fun hx => ⟨genesisHeader p, hx ▸ hself⟩, ?_⟩
    exact fun ⟨h, hx⟩ => (lookup_singleton.mp hx).1
  · rw [hrel]
    by_cases hx : x = (genesisHeader p).id env.blake3
    · subst hx
      rw [if_pos rfl, hself]
      simp
    · rw [if_neg hx]
      symm
      refine Option.map_eq_none_iff.mpr (Option.eq_none_iff_forall_ne_some.mpr fun h hs => ?_)
      exact hx (lookup_singleton.mp hs).1
  · rw [(lookup_singleton.mp hx).2] at hq
    cases hq
  · refine List.mem_singleton.trans (Finset.mem_singleton.symm.trans ⟨fun hx => ⟨hx, ?_⟩, And.left⟩)
    intro y h hy hmem
    rw [(lookup_singleton.mp hy).2] at hmem
    cases hmem

/-- Every block is in the engine, above ORIGIN. -/
theorem HoldsBlocks.mem_engine {accepted : List DagBlock} (h : HoldsBlocks env p accepted c)
    {x : Hash} (hx : x ∈ c.blocks) : x ∈ c.engine.dag.blocks ∧ x ≠ blockhash.origin := by
  obtain ⟨hd, hl⟩ := h.blocks.mp hx
  refine h.grown.ready_best.1.relations.mp
    ⟨if x = c.genesisDag then [blockhash.origin] else hd.parents, ?_⟩
  rw [h.relations, hl]
  rfl

theorem HoldsBlocks.originAlone {accepted : List DagBlock} (h : HoldsBlocks env p accepted c)
    {ps : List Hash} (hk : ∀ q ∈ ps, q ∈ c.blocks) : Ghostdag.DagEngine.OriginAlone ps :=
  fun horigin => absurd rfl (h.mem_engine (hk _ horigin)).2

/-- A new block joins the others. -/
theorem HoldsBlocks.insert {accepted : List DagBlock} {block : DagBlock} {log : BlockLog}
    {engine : DagEngine} {txs : List Tx} (h : HoldsBlocks env p accepted c)
    (hunknown : block.id env.blake3 ∉ c.blocks)
    (hk : ∀ q ∈ block.header.parents, q ∈ c.blocks)
    (hadd : c.engine.addBlock env.fractions (block.id env.blake3) block.header.parents =
      .ok engine) :
    HoldsBlocks env p (accepted ++ [block])
      ({ c with log, engine }.insertBlock block (block.id env.blake3) txs) := by
  have inv := h.grown.ready_best.1
  obtain ⟨d, _, _, ha, _⟩ := inv.step (h.originAlone hk) hadd
  have hnew : ∀ {x}, x ∈ c.blocks → x ≠ block.id env.blake3 := fun hx heq => hunknown (heq ▸ hx)
  have hgenesis : c.genesisDag ≠ block.id env.blake3 := hnew (h.blocks.mpr ⟨_, h.genesis⟩)
  -- the headers of the new chain, by key
  have hself : (c.headers.insert (block.id env.blake3) block.header).lookup
      (block.id env.blake3) = some block.header := AList.lookup_insert _
  have hother : ∀ {x}, x ≠ block.id env.blake3 →
      (c.headers.insert (block.id env.blake3) block.header).lookup x = c.headers.lookup x :=
    fun hx => AList.lookup_insert_ne hx
  have hcases : ∀ {x hd},
      (c.headers.insert (block.id env.blake3) block.header).lookup x = some hd →
      x = block.id env.blake3 ∧ hd = block.header ∨ c.headers.lookup x = some hd := by
    intro x hd hx
    by_cases heq : x = block.id env.blake3
    · rw [heq, hself] at hx
      exact Or.inl ⟨heq, (Option.some.inj hx).symm⟩
    · rw [hother heq] at hx
      exact Or.inr hx
  refine ⟨.add h.grown (h.originAlone hk) hadd, h.genesisDag, h.genesisTarget, h.blockTimeSecs,
    h.lwmaWindow, h.historyPruned, (hother hgenesis).trans h.genesis, fun {x} => ?_,
    fun {x hd} hx hne => ?_, fun b hb => ?_, fun x => ?_, fun {x hd} hx q hq => ?_, fun {x} => ?_⟩
  · refine Finset.mem_insert.trans ?_
    by_cases heq : x = block.id env.blake3
    · exact iff_of_true (Or.inl heq) ⟨block.header, heq ▸ hself⟩
    · rw [or_iff_right heq, h.blocks]
      exact exists_congr fun hd => by rw [← hother heq]; rfl
  · rcases hcases hx with ⟨heq, hhd⟩ | hx
    · exact ⟨block, by simp, hhd.symm, heq.symm⟩
    · obtain ⟨b, hb, hbx⟩ := h.sound hx hne
      exact ⟨b, List.mem_append_left _ hb, hbx⟩
  · refine Finset.mem_insert.mpr ?_
    rcases List.mem_append.mp hb with hb | hb
    · exact Or.inr (h.complete b hb)
    · rw [List.mem_singleton.mp hb]
      exact Or.inl rfl
  · change engine.relations.lookup x =
      ((c.headers.insert (block.id env.blake3) block.header).lookup x).map fun hd =>
        if x = c.genesisDag then [blockhash.origin] else hd.parents
    by_cases heq : x = block.id env.blake3
    · rw [heq, hself, ha.relations_self, Option.map_some, if_neg (Ne.symm hgenesis)]
    · rw [ha.relations_of_ne heq, hother heq, h.relations]
  · refine Finset.mem_insert_of_mem ?_
    rcases hcases hx with ⟨_, hhd⟩ | hx
    · exact hk q (hhd ▸ hq)
    · exact h.parents hx q hq
  · change x ∈ c.tips.filter (· ∉ block.header.parents) ++ [block.id env.blake3] ↔
      x ∈ Insert.insert (block.id env.blake3) c.blocks ∧ ∀ y hd,
        (c.headers.insert (block.id env.blake3) block.header).lookup y = some hd → x ∉ hd.parents
    rw [List.mem_append, List.mem_filter, List.mem_singleton, decide_eq_true_eq, Finset.mem_insert,
      h.tips]
    constructor
    · rintro (⟨⟨hx, hfree⟩, hnp⟩ | heq)
      · refine ⟨Or.inr hx, fun y hd hy => ?_⟩
        rcases hcases hy with ⟨_, hhd⟩ | hy
        · exact hhd ▸ hnp
        · exact hfree y hd hy
      · refine ⟨Or.inl heq, fun y hd hy hmem => ?_⟩
        rcases hcases hy with ⟨_, hhd⟩ | hy
        · exact hnew (hk x (hhd ▸ hmem)) heq
        · exact hnew (h.parents hy x hmem) heq
    · rintro ⟨heq | hx, hfree⟩
      · exact Or.inr heq
      · refine Or.inl ⟨⟨hx, fun y hd hy => hfree y hd ?_⟩, hfree _ _ hself⟩
        rw [hother (hnew (h.blocks.mpr ⟨hd, hy⟩))]
        exact hy

/-- A block that is accepted joins the others. -/
theorem HoldsBlocks.accept {accepted : List DagBlock} {block : DagBlock} {io : Option AppendFault}
    {now : Int} (h : HoldsBlocks env p accepted c)
    (run : c.accept env io now block = .ok (.ok (), c')) :
    HoldsBlocks env p (accepted ++ [block]) c' := by
  rcases accept_ok_cases run with ⟨hknown, hc⟩ | ⟨hpass, log, engine, txs, hadd, hc⟩
  · subst hc
    refine { h with sound := fun hx hne => ?_, complete := fun b hb => ?_ }
    · obtain ⟨b, hb, hbx⟩ := h.sound hx hne
      exact ⟨b, List.mem_append_left _ hb, hbx⟩
    · rcases List.mem_append.mp hb with hb | hb
      · exact h.complete b hb
      · rw [List.mem_singleton.mp hb]
        exact hknown
  · rw [hc]
    exact h.insert hpass.unknown hpass.parents.2.2 hadd

/-- Two chains that cannot be told apart but by their logs, bodies and reachability trees. -/
structure Mirrors (c₁ c₂ : DagChain Tx) : Prop where
  engine : SameView c₁.engine c₂.engine
  genesisDag : c₁.genesisDag = c₂.genesisDag
  genesisTarget : c₁.genesisTarget = c₂.genesisTarget
  blockTimeSecs : c₁.blockTimeSecs = c₂.blockTimeSecs
  lwmaWindow : c₁.lwmaWindow = c₂.lwmaWindow
  historyPruned : c₁.historyPruned = c₂.historyPruned
  headers : ∀ x, c₁.headers.lookup x = c₂.headers.lookup x
  blocks : c₁.blocks = c₂.blocks
  tips : ∀ x, x ∈ c₁.tips ↔ x ∈ c₂.tips

/-- No two blocks of the list that differ in their headers have one id. -/
def CollisionFree (blake3 : Bytes → Hash) (blocks : List DagBlock) : Prop :=
  ∀ b ∈ blocks, ∀ b' ∈ blocks, b.id blake3 = b'.id blake3 → b.header = b'.header

/-- Two chains over one genesis that have accepted the same blocks have the same headers. -/
theorem HoldsBlocks.headers_eq {p₁ p₂ : Params} {bs₁ bs₂ : List DagBlock}
    (h₁ : HoldsBlocks env p₁ bs₁ c₁) (h₂ : HoldsBlocks env p₂ bs₂ c₂)
    (hgenesis : genesisHeader p₁ = genesisHeader p₂) (hsame : ∀ b, b ∈ bs₁ ↔ b ∈ bs₂)
    (hfree : CollisionFree env.blake3 bs₁) :
    c₁.blocks = c₂.blocks ∧ ∀ x, c₁.headers.lookup x = c₂.headers.lookup x := by
  have hgen : c₁.genesisDag = c₂.genesisDag :=
    h₁.genesisDag.trans (hgenesis ▸ h₂.genesisDag.symm)
  have hheader : ∀ x hd₁ hd₂, c₁.headers.lookup x = some hd₁ → c₂.headers.lookup x = some hd₂ →
      hd₁ = hd₂ := by
    intro x hd₁ hd₂ hx₁ hx₂
    by_cases hx : x = c₁.genesisDag
    · rw [hx, h₁.genesis] at hx₁
      rw [hx, hgen, h₂.genesis, ← hgenesis] at hx₂
      exact (Option.some.inj hx₁).symm.trans (Option.some.inj hx₂)
    · obtain ⟨b₁, hb₁, hh₁, hi₁⟩ := h₁.sound hx₁ hx
      obtain ⟨b₂, hb₂, hh₂, hi₂⟩ := h₂.sound hx₂ (hgen ▸ hx)
      rw [← hh₁, ← hh₂]
      exact hfree b₁ hb₁ b₂ ((hsame b₂).mpr hb₂) (hi₁.trans hi₂.symm)
  have hsub : ∀ {d₁ d₂ : DagChain Tx} {q₁ q₂ : Params} {l₁ l₂ : List DagBlock},
      HoldsBlocks env q₁ l₁ d₁ → HoldsBlocks env q₂ l₂ d₂ → d₁.genesisDag = d₂.genesisDag →
      (∀ b ∈ l₁, b ∈ l₂) → ∀ {x}, x ∈ d₁.blocks → x ∈ d₂.blocks := by
    intro d₁ d₂ q₁ q₂ l₁ l₂ hd₁ hd₂ hg hl x hx
    by_cases hxg : x = d₁.genesisDag
    · exact hd₂.blocks.mpr ⟨_, hxg.trans hg ▸ hd₂.genesis⟩
    · obtain ⟨hd, hlook⟩ := hd₁.blocks.mp hx
      obtain ⟨b, hb, _, hbx⟩ := hd₁.sound hlook hxg
      exact hbx ▸ hd₂.complete b (hl b hb)
  have hblocks : c₁.blocks = c₂.blocks :=
    Finset.ext fun x => ⟨hsub h₁ h₂ hgen fun b => (hsame b).mp, hsub h₂ h₁ hgen.symm fun b =>
      (hsame b).mpr⟩
  refine ⟨hblocks, fun x => ?_⟩
  have hiff : (∃ hd, c₁.headers.lookup x = some hd) ↔ ∃ hd, c₂.headers.lookup x = some hd := by
    rw [← h₁.blocks, ← h₂.blocks, hblocks]
  cases hx₁ : c₁.headers.lookup x with
  | none =>
    cases hx₂ : c₂.headers.lookup x with
    | none => rfl
    | some hd₂ =>
      obtain ⟨hd, hhd⟩ := hiff.mpr ⟨hd₂, hx₂⟩
      rw [hx₁] at hhd
      cases hhd
  | some hd₁ =>
    obtain ⟨hd₂, hx₂⟩ := hiff.mp ⟨hd₁, hx₁⟩
    rw [hx₂, hheader x hd₁ hd₂ hx₁ hx₂]

theorem HoldsBlocks.mirrors {bs₁ bs₂ : List DagBlock} (h₁ : HoldsBlocks env p bs₁ c₁)
    (h₂ : HoldsBlocks env p bs₂ c₂) (hsame : ∀ b, b ∈ bs₁ ↔ b ∈ bs₂)
    (hfree : CollisionFree env.blake3 bs₁) : Mirrors c₁ c₂ := by
  have hgen : c₁.genesisDag = c₂.genesisDag := h₁.genesisDag.trans h₂.genesisDag.symm
  obtain ⟨hblocks, hheaders⟩ := h₁.headers_eq h₂ rfl hsame hfree
  have hrel : ∀ x, c₁.engine.relations.lookup x = c₂.engine.relations.lookup x := by
    intro x
    rw [h₁.relations, h₂.relations, hheaders, hgen]
  refine ⟨h₁.grown.sameView h₂.grown hrel, hgen, h₁.genesisTarget.trans h₂.genesisTarget.symm,
    h₁.blockTimeSecs.trans h₂.blockTimeSecs.symm, h₁.lwmaWindow.trans h₂.lwmaWindow.symm,
    h₁.historyPruned.trans h₂.historyPruned.symm, hheaders, hblocks, fun x => ?_⟩
  rw [h₁.tips, h₂.tips, hblocks]
  simp only [hheaders]

/-- What a chain holds does not depend on who mines it, nor on the balances it starts with. -/
theorem HoldsBlocks.congr {q : Params} {bs : List DagBlock} (h : HoldsBlocks env p bs c)
    (hk : p.k = q.k) (hgenesis : genesisHeader p = genesisHeader q)
    (htarget : p.genesisTarget = q.genesisTarget) (htime : p.blockTimeSecs = q.blockTimeSecs)
    (hwindow : p.lwmaWindow = q.lwmaWindow) : HoldsBlocks env q bs c :=
  { h with
    grown := by
      rw [← hk, ← hgenesis]
      exact h.grown
    genesisDag := by rw [← hgenesis, h.genesisDag]
    genesisTarget := h.genesisTarget.trans htarget
    blockTimeSecs := h.blockTimeSecs.trans htime
    lwmaWindow := h.lwmaWindow.trans hwindow
    genesis := by rw [← hgenesis, h.genesis] }

theorem Mirrors.selectedParentDag (h : Mirrors c₁ c₂) (ps : List Hash) :
    c₁.selectedParentDag ps = c₂.selectedParentDag ps := by
  rw [DagChain.selectedParentDag, DagChain.selectedParentDag, h.genesisDag]
  simp only [h.engine.data]

theorem Mirrors.sampleChain (h : Mirrors c₁ c₂) (take fuel : Nat) (cur : Hash) (above : List Hash) :
    c₁.sampleChain take fuel cur above = c₂.sampleChain take fuel cur above := by
  induction fuel generalizing cur above with
  | zero => rfl
  | succ fuel ih =>
    rw [DagChain.sampleChain, DagChain.sampleChain, h.genesisDag, h.engine.selectedParent]
    by_cases hstop : take ≤ above.length + 1 ∨ cur = c₂.genesisDag
    · rw [if_pos hstop, if_pos hstop]
    · rw [if_neg hstop, if_neg hstop]
      exact congrArg _ (funext fun sp => ih sp (cur :: above))

theorem Mirrors.selectedChainTarget (h : Mirrors c₁ c₂) (sp : Hash) :
    c₁.selectedChainTarget sp = c₂.selectedChainTarget sp := by
  have hlookup : c₁.headers.lookup = c₂.headers.lookup := funext h.headers
  rw [DagChain.selectedChainTarget, DagChain.selectedChainTarget, h.lwmaWindow, h.blockTimeSecs,
    h.genesisTarget, h.engine.length, hlookup]
  simp only [h.sampleChain]

theorem Mirrors.nextTarget (h : Mirrors c₁ c₂) : c₁.nextTarget = c₂.nextTarget := by
  rw [DagChain.nextTarget, DagChain.nextTarget, h.engine.tip, h.selectedChainTarget]

theorem Mirrors.expectedTarget (h : Mirrors c₁ c₂) (ps : List Hash) :
    c₁.expectedTarget ps = c₂.expectedTarget ps := by
  rw [DagChain.expectedTarget, DagChain.expectedTarget, h.selectedParentDag]
  exact congrArg _ (funext h.selectedChainTarget)

theorem Mirrors.interlinkForParent (h : Mirrors c₁ c₂) (sp : Hash) :
    c₁.interlinkForParent sp = c₂.interlinkForParent sp := by
  rw [DagChain.interlinkForParent, DagChain.interlinkForParent, h.headers]

theorem Mirrors.checkContext (h : Mirrors c₁ c₂) (block : DagBlock) :
    c₁.checkContext block = c₂.checkContext block := by
  rw [DagChain.checkContext, DagChain.checkContext]
  simp only [h.blocks, h.genesisDag, h.historyPruned, h.selectedParentDag, h.selectedChainTarget,
    h.headers, h.interlinkForParent]

/-- The verdict of `apply_with_id`, when it does not panic. -/
theorem applyWithId_verdict {block : DagBlock} {id : Hash} {r : Except String Unit}
    (h : c.applyWithId env block id = .ok (r, c')) :
    r = if id ∈ c.blocks then .ok () else (decodeTxs env block.transactions).map fun _ => () := by
  rcases applyWithId_cases h with ⟨hid, hr, _⟩ | ⟨hid, _, _, ⟨e, hdec, hr, _⟩ | ⟨txs, hdec, hr, _⟩⟩
  · rw [if_pos hid, hr]
  · rw [if_neg hid, hdec, hr]
    rfl
  · rw [if_neg hid, hdec, hr]
    rfl

/-- The verdict of `append` does not depend on what the log holds. -/
theorem append_verdict (log log' : BlockLog) (io : Option AppendFault) (payload : Bytes) :
    (log.append io payload).1 = (log'.append io payload).1 := by
  unfold BlockLog.append
  by_cases hp : payload.length < 2^32
  · rw [if_pos hp, if_pos hp]
    cases io with
    | none => rfl
    | some fault => rfl
  · rw [if_neg hp, if_neg hp]

/-- The verdict of `append_and_apply` on a block that is not known, when it does not panic. -/
theorem appendAndApply_verdict {io : Option AppendFault} {block : DagBlock}
    {r : Except String Unit} (hid : block.id env.blake3 ∉ c.blocks)
    (h : c.appendAndApply env io block = .ok (r, c')) :
    r = ((BlockLog.openAt []).append io (LogRecord.block block).serialize).1.bind fun _ =>
      (decodeTxs env block.transactions).map fun _ => () := by
  rw [append_verdict _ c.log]
  rcases appendAndApply_cases h with ⟨e, log, happ, hr, _⟩ | ⟨log, happ, happly⟩
  · rw [happ, hr]
    rfl
  · rw [happ, applyWithId_verdict happly]
    exact if_neg hid

/-- A new block that is taken has been written to the log, and its transactions decode. -/
theorem appendAndApply_taken {io : Option AppendFault} {block : DagBlock}
    (hid : block.id env.blake3 ∉ c.blocks)
    (h : c.appendAndApply env io block = .ok (.ok (), c')) :
    (LogRecord.block block).serialize.length < 2^32 ∧
      ∃ txs, decodeTxs env block.transactions = .ok txs := by
  rcases appendAndApply_cases h with ⟨e, log, _, hr, _⟩ | ⟨log, happend, happly⟩
  · cases hr
  constructor
  · by_contra hlarge
    unfold BlockLog.append at happend
    rw [if_neg hlarge] at happend
    cases happend
  · rcases applyWithId_cases happly with ⟨hknown, _⟩ | ⟨_, engine, _, hrest⟩
    · exact absurd hknown hid
    · rcases hrest with ⟨e, _, hr, _⟩ | ⟨txs, htxs, _, _⟩
      · cases hr
      · exact ⟨txs, htxs⟩

theorem Mirrors.accept (h : Mirrors c₁ c₂) (io : Option AppendFault) (now : Int)
    (block : DagBlock) {r₁ r₂ : Except String Unit} {c₁' c₂' : DagChain Tx}
    (run₁ : c₁.accept env io now block = .ok (r₁, c₁'))
    (run₂ : c₂.accept env io now block = .ok (r₂, c₂')) : r₁ = r₂ := by
  rw [DagChain.accept, h.blocks, h.checkContext] at run₁
  rw [DagChain.accept] at run₂
  by_cases hid : block.id env.blake3 ∈ c₂.blocks
  · rw [if_pos hid] at run₁ run₂
    cases run₁
    cases run₂
    rfl
  · rw [if_neg hid] at run₁ run₂
    cases hv : validateBlockIntrinsic env now block with
    | error e =>
      simp only [hv] at run₁ run₂
      cases run₁
      cases run₂
      rfl
    | ok u =>
      simp only [hv] at run₁ run₂
      obtain ⟨v₁, hc₁, run₁⟩ := bind_eq_ok.mp run₁
      obtain ⟨v₂, hc₂, run₂⟩ := bind_eq_ok.mp run₂
      cases hc₁.symm.trans hc₂
      cases v₁ with
      | error e =>
        cases run₁
        cases run₂
        rfl
      | ok u =>
        have hid₁ : block.id env.blake3 ∉ c₁.blocks := by rwa [h.blocks]
        exact (appendAndApply_verdict hid₁ run₁).trans (appendAndApply_verdict hid run₂).symm

/-- What two nodes that converged agree on. -/
structure Converged (env : Env Tx) (c₁ c₂ : DagChain Tx) : Prop where
  data : ∀ h, c₁.engine.gd.lookup h = c₂.engine.gd.lookup h
  tip : c₁.engine.tip = c₂.engine.tip
  totalOrder : c₁.totalOrder = c₂.totalOrder
  tips : ∀ h, h ∈ c₁.tips ↔ h ∈ c₂.tips
  nextTarget : c₁.nextTarget = c₂.nextTarget
  expectedTarget : ∀ parents, c₁.expectedTarget parents = c₂.expectedTarget parents
  checks : ∀ block, c₁.checkContext block = c₂.checkContext block
  verdict : ∀ io now block r₁ r₂ c₁' c₂', c₁.accept env io now block = .ok (r₁, c₁') →
    c₂.accept env io now block = .ok (r₂, c₂') → r₁ = r₂

theorem Mirrors.converged (h : Mirrors c₁ c₂) : Converged env c₁ c₂ where
  data := h.engine.gd
  tip := h.engine.tip
  totalOrder := h.engine.totalOrder
  tips := h.tips
  nextTarget := h.nextTarget
  expectedTarget := h.expectedTarget
  checks := h.checkContext
  verdict := fun io now block _ _ _ _ => h.accept io now block

theorem Accepts.holdsBlocks {log : BlockLog} {c₀ : DagChain Tx} {bs : List DagBlock}
    (hopen : genesis env p log = .ok c₀) (h : Accepts env c₀ bs c) : HoldsBlocks env p bs c := by
  induction h with
  | nil => exact genesis_holdsBlocks hopen
  | snoc _ run ih => exact ih.accept run

/-- Convergence: two nodes that have accepted the same blocks, each in an order of its own, agree
on the DAG and on what they accept next. -/
theorem accepts_converge {log₁ log₂ : BlockLog} {g₁ g₂ : DagChain Tx} {bs₁ bs₂ : List DagBlock}
    (hopen₁ : genesis env p log₁ = .ok g₁) (hopen₂ : genesis env p log₂ = .ok g₂)
    (h₁ : Accepts env g₁ bs₁ c₁) (h₂ : Accepts env g₂ bs₂ c₂) (hsame : ∀ b, b ∈ bs₁ ↔ b ∈ bs₂)
    (hfree : CollisionFree env.blake3 bs₁) : Converged env c₁ c₂ :=
  ((h₁.holdsBlocks hopen₁).mirrors (h₂.holdsBlocks hopen₂) hsame hfree).converged

/-- A child of the easy genesis with a timestamp of its own. -/
private def sibling (timestamp : BitVec 64) : DagBlock :=
  easyBlock Blake3.hash [easyGenesis] (List.replicate 4 easyGenesis) timestamp []

private theorem accepts_siblings : ∀ t ∈ [(sibling 1750000010, sibling 1750000020),
    (sibling 1750000020, sibling 1750000010)], ∃ g c,
      genesis Runtime.transferEnv easyParams (BlockLog.openAt []) = .ok g ∧
        Accepts Runtime.transferEnv g ([] ++ [t.1] ++ [t.2]) c := by
  have hrun : ∀ t ∈ [(sibling 1750000010, sibling 1750000020),
      (sibling 1750000020, sibling 1750000010)],
      returnsWith (genesis Runtime.transferEnv easyParams (BlockLog.openAt [])) (fun g =>
        returnsWith (g.accept Runtime.transferEnv none 1750000030 t.1) fun r =>
          returnsWith r.1 (fun _ => true) &&
            returnsWith (r.2.accept Runtime.transferEnv none 1750000030 t.2) fun r =>
              returnsWith r.1 fun _ => true) = true := by
    decide +kernel
  intro t ht
  obtain ⟨g, hg, h⟩ := returnsWith_iff.mp (hrun t ht)
  obtain ⟨⟨_, d⟩, hd, h⟩ := returnsWith_iff.mp h
  obtain ⟨hv, h⟩ := (Bool.and_eq_true _ _).mp h
  obtain ⟨_, rfl, _⟩ := returnsWith_iff.mp hv
  obtain ⟨⟨_, c⟩, hc, hv⟩ := returnsWith_iff.mp h
  obtain ⟨_, rfl, _⟩ := returnsWith_iff.mp hv
  have h₁ : Accepts Runtime.transferEnv g ([] ++ [t.1]) d := .snoc .nil hd
  exact ⟨g, c, hg, .snoc h₁ hc⟩

/-- Two siblings in both orders. -/
theorem accepts_converge_siblings : ∃ c₁ c₂ : DagChain Runtime.Transaction,
    Converged Runtime.transferEnv c₁ c₂ := by
  obtain ⟨g₁, c₁, hopen₁, h₁⟩ := accepts_siblings _ List.mem_cons_self
  obtain ⟨g₂, c₂, hopen₂, h₂⟩ := accepts_siblings _ (List.mem_cons_of_mem _ List.mem_cons_self)
  have hne : (sibling 1750000010).id Blake3.hash ≠ (sibling 1750000020).id Blake3.hash := by
    decide +kernel
  have hids : CollisionFree Blake3.hash
      ([] ++ [sibling 1750000010] ++ [sibling 1750000020]) := by
    intro b hb b' hb' heq
    simp only [List.nil_append, List.cons_append, List.mem_cons, List.not_mem_nil, or_false]
      at hb hb'
    rcases hb with rfl | rfl <;> rcases hb' with rfl | rfl
    · rfl
    · exact absurd heq hne
    · exact absurd heq.symm hne
    · rfl
  refine ⟨c₁, c₂, accepts_converge hopen₁ hopen₂ h₁ h₂ (fun b => ?_) hids⟩
  simp only [List.nil_append, List.cons_append, List.mem_cons, List.not_mem_nil, or_false]
  exact or_comm

end DagChain

end TaoDag.Dagvm
