import TaoDag.Dagvm.Heaviest
import TaoDag.Ghostdag.Segments

namespace TaoDag.Dagvm

open BlockDag
open Consensus (DagBlock DagBlockHeader)
open Database (BlockLog ReplaceFault)
open Ghostdag (DagEngine)
open Ghostdag.DagEngine (Rooted OrderTo Above Lists onChain_reach)
open TaoDag.Runtime (Env)

namespace DagChain

variable {Tx : Type} {env : Env Tx} {p : Params} {c c' c₀ : DagChain Tx} {x y pt : Hash}
  {order : List Hash} {i : Nat}

/-- The parents that the engine has of a known block are named in its header, or stand for ones
that the chain does not have. -/
def Named (c : DagChain Tx) : Prop :=
  ∀ y h, c.headers.lookup y = some h → ∀ q ∈ c.engine.dag.parents y,
    q ∈ h.parents ∨ q = c.genesisDag ∨ q = blockhash.origin

theorem named_of_freshEngine
    (hengine : freshEngine env.fractions c.k c.genesisDag = .ok c.engine) : Named c :=
  fun y _ _ q hq => Or.inr (Or.inr ((freshEngine_rooted hengine).2.2.2 y q hq))

theorem Named.applyWithId (hn : Named c) (ha : Anchored env c) {block : DagBlock} {id : Hash}
    {r : Except String Unit} (hrun : c.applyWithId env block id = .ok (r, c')) : Named c' := by
  rcases applyWithId_cases hrun with ⟨_, _, rfl⟩ | ⟨_, engine, hadd, hrest⟩
  · exact hn
  have hps : ∀ q ∈ c.engineParents block.header.parents, q ∈ c.blocks :=
    fun q hq => mem_engineParents ha.origin hq
  have inv := ha.rooted.grown.ready_best.1
  obtain ⟨d, _, _, hadded, _⟩ := inv.step (fun hor => absurd hor (ha.originAlone hps)) hadd
  have hold : ∀ y h, c.headers.lookup y = some h → ∀ q ∈ engine.dag.parents y,
      q ∈ h.parents ∨ q = c.genesisDag ∨ q = blockhash.origin := by
    intro y h hy q hq
    have hne : y ≠ id := by
      rintro rfl
      exact hadded.new (ha.blocks y ((ha.headers y).mpr ⟨h, hy⟩)).1
    rw [hadded.parents_eq inv.toInv, Function.update_of_ne hne] at hq
    exact hn y h hy q hq
  rcases hrest with ⟨e, _, _, rfl⟩ | ⟨txs, _, _, rfl⟩
  · exact hold
  · intro y h hy q hq
    change (c.headers.insert id block.header).lookup y = some h at hy
    change q ∈ engine.dag.parents y at hq
    by_cases hne : y = id
    · rw [hne, AList.lookup_insert] at hy
      cases hy
      rw [hadded.parents_eq inv.toInv, hne, Function.update_self] at hq
      rcases eq_or_mem_of_engineParents hq with heq | ⟨hmem, _⟩
      · exact Or.inr (Or.inl heq)
      · exact Or.inl hmem
    · rw [AList.lookup_insert_ne hne] at hy
      exact hold y h hy q hq

theorem Named.prune (hn : Named c) (ha : Anchored env c) {io : Option ReplaceFault}
    {r : Except Runtime.BankError Nat} (hrun : c.prune env io = .ok (r, c')) : Named c' := by
  rcases prune_cases hrun with ⟨log, rfl, _⟩ | hmore
  · exact hn
  obtain ⟨order, i, pt, bank, e, header, log, horder, _, hpt, _, he, _, _, _, rfl⟩ := hmore
  have hre := rerootEngine_reroots (ha.origin_not_kept horder hpt) he
  intro y h hy q hq
  change (restrict c.headers (pt :: order.drop (i + 1))).lookup y = some h at hy
  change q ∈ e.dag.parents y at hq
  change q ∈ h.parents ∨ q = pt ∨ q = blockhash.origin
  rw [restrict_lookup] at hy
  by_cases hmem : y ∈ pt :: order.drop (i + 1)
  · rw [if_pos hmem] at hy
    rcases List.mem_cons.mp hmem with rfl | hmem
    · rw [hre.root] at hq
      exact Or.inr (Or.inr (List.mem_singleton.mp hq))
    · obtain ⟨h', hh', hparents⟩ := hre.parents y hmem
      cases hh'.symm.trans hy
      rw [hparents] at hq
      rcases eq_or_mem_of_keptParents hq with heq | ⟨hmem, _⟩
      · exact Or.inr (Or.inl heq)
      · exact Or.inl hmem
  · rw [if_neg hmem] at hy
    cases hy

theorem named_kept (env : Env Tx) : Kept env fun c => Anchored env c ∧ Named c where
  frame h hengine hk horigin hblocks hheaders := by
    refine ⟨h.1.of_eq hengine hk horigin hblocks hheaders, ?_⟩
    rw [Named, hengine, horigin, hheaders]
    exact h.2
  apply h hrun := ⟨h.1.applyWithId hrun, h.2.applyWithId h.1 hrun⟩
  load h hrun := by
    refine ⟨loadSnapshot_anchored hrun, ?_⟩
    obtain ⟨engine, hengine, hrun⟩ := bind_eq_ok.mp hrun
    cases hrun
    exact named_of_freshEngine hengine
  prune h hrun := ⟨h.1.prune hrun, h.2.prune h.1 hrun⟩

theorem named_of_reaches {P : DagChain Tx → Call Tx → Prop} {file : Bytes}
    (hopen : openWithGenesis env p file = .ok (.ok c₀)) (hrun : Reaches env P c₀ c) :
    Anchored env c ∧ Named c := by
  refine (named_kept env).reaches (fun {log c} h => ⟨genesis_anchored h, ?_⟩) hopen hrun
  obtain ⟨engine, hengine, h⟩ := bind_eq_ok.mp h
  cases h
  exact named_of_freshEngine hengine

theorem selectedChainIds_onChain (h : Rooted env.fractions c.k c.genesisDag c.engine)
    {fuel : Nat} {cur : Hash} (hcur : cur ≠ blockhash.origin) {chain : List Hash}
    (hrun : c.selectedChainIds fuel cur = .ok chain) (hx : x ∈ chain) :
    c.engine.dag.OnChain x cur := by
  induction fuel generalizing cur chain with
  | zero => cases hrun
  | succ fuel ih =>
    rw [selectedChainIds] at hrun
    by_cases hgen : cur = c.genesisDag
    · rw [if_pos hgen] at hrun
      cases hrun
      rw [List.mem_singleton.mp hx]
      exact .refl
    · rw [if_neg hgen] at hrun
      obtain ⟨sp, hsp, hrun⟩ := bind_eq_ok.mp hrun
      obtain ⟨rest, hrest, hrun⟩ := bind_eq_ok.mp hrun
      cases hrun
      obtain ⟨d, hd, hsp⟩ := bind_eq_ok.mp hsp
      cases hsp
      have hlookup := (unwrap_returns Ghostdag.DagEngine.getData_spec).post hd
      have hne : cur ≠ c.engine.genesis := h.grown.ready_best.1.genesis ▸ hgen
      rw [Ghostdag.DagEngine.onChain_iff hcur hlookup]
      exact (List.mem_cons.mp hx).imp_right (ih (h.merged hne hcur hlookup).2.2 hrest)

/-- The pruning point is a block of the selected chain above the origin. -/
theorem prunePoint_spec (h : Rooted env.fractions c.k c.genesisDag c.engine)
    (hrun : c.prunePoint order = .ok (some i)) (hpt : order[i]? = some pt) :
    1 ≤ i ∧ c.engine.dag.OnChain pt c.engine.tip := by
  rw [prunePoint] at hrun
  split at hrun
  · cases hrun
  obtain ⟨chain, hchain, hrun⟩ := bind_eq_ok.mp hrun
  have hfind := Except.ok.inj hrun
  have hrange := List.mem_of_find?_eq_some hfind
  have hany := List.find?_some hfind
  rw [List.mem_reverse, List.mem_range'_1] at hrange
  rw [hpt] at hany
  exact ⟨hrange.1, selectedChainIds_onChain h h.grown.ready_best.2.ne hchain (of_decide_eq_true hany)⟩

/-- A block is added to the new engine after its kept parents. -/
theorem rerootEngine_before {before after : List Hash} {e : DagEngine}
    (hor : blockhash.origin ∉ pt :: (before ++ y :: after))
    (hrun : c.rerootEngine env pt (before ++ y :: after) = .ok e) :
    ∃ h, c.headers.lookup y = some h ∧
      ∀ q ∈ h.parents, q ∈ pt :: (before ++ y :: after) → q = pt ∨ q ∈ before := by
  obtain ⟨e₀, hfresh, hrun⟩ := bind_eq_ok.mp hrun
  rw [List.foldlM_append] at hrun
  obtain ⟨e₁, hbefore, hrun⟩ := bind_eq_ok.mp hrun
  rw [List.foldlM_cons] at hrun
  obtain ⟨e₂, hstep, _⟩ := bind_eq_ok.mp hrun
  obtain ⟨header, hheader, hadd⟩ := bind_eq_ok.mp hstep
  rw [expect_eq_ok] at hheader
  have hre := (freshEngine_reroots hfresh).fold List.mem_cons_self hor hbefore
  obtain ⟨_, _, hknown⟩ := hre.step List.mem_cons_self hor hheader hadd
  refine ⟨header, hheader, fun q hq hkept => ?_⟩
  have hmem := (hre.blocks q).mp (hknown q (mem_keptParents_of_mem hq hkept))
  exact hmem.resolve_left fun heq => hor (heq ▸ hkept)

/-- Where a block comes for the first time. -/
theorem length_of_first {before rest : List Hash} (hsplit : order = before ++ x :: rest)
    (hi : order[i]? = some x) (hbefore : x ∉ before) (hfirst : x ∉ order.take i) :
    before.length = i := by
  subst hsplit
  rcases Nat.lt_trichotomy before.length i with hlt | heq | hgt
  · refine absurd ?_ hfirst
    have hat : ((before ++ x :: rest).take i)[before.length]? = some x := by
      rw [List.getElem?_take_of_lt hlt]
      simp
    exact List.mem_of_getElem? hat
  · exact heq
  · rw [List.getElem?_append_left hgt] at hi
    exact absurd (List.mem_of_getElem? hi) hbefore

/-- A chain cut at a block of its selected chain: the order from there on gives the new engine. -/
structure Cut (env : Env Tx) (c : DagChain Tx) (order : List Hash) (i : Nat) (pt : Hash)
    (e : DagEngine) : Prop where
  anchored : Anchored env c
  named : Named c
  run : c.totalOrder = .ok order
  pos : 1 ≤ i
  point : order[i]? = some pt
  chain : c.engine.dag.OnChain pt c.engine.tip
  reroot : c.rerootEngine env pt (order.drop (i + 1)) = .ok e

/-- The origin comes again only where a kept block names it. -/
def OriginNamed (c : DagChain Tx) (suffix : List Hash) : Prop :=
  c.genesisDag ∈ suffix →
    ∃ y ∈ suffix, ∃ hd, c.headers.lookup y = some hd ∧ c.genesisDag ∈ hd.parents

namespace Cut

variable {e : DagEngine}

theorem order_eq (h : Cut env c order i pt e) :
    order = order.take i ++ pt :: order.drop (i + 1) := by
  obtain ⟨hlt, hget⟩ := List.getElem?_eq_some_iff.mp h.point
  rw [← hget, List.cons_getElem_drop_succ, List.take_append_drop]

theorem orderTo (h : Cut env c order i pt e) : OrderTo c.engine c.engine.tip order :=
  h.anchored.rooted.orderTo.post h.run

theorem inv (h : Cut env c order i pt e) : c.engine.Inv := h.anchored.rooted.grown.ready_best.1.toInv

theorem acyclic (h : Cut env c order i pt e) : ¬Past c.engine.dag.parents x x :=
  h.inv.index.dag.acyclic

theorem mem_order (h : Cut env c order i pt e) :
    x ∈ order ↔ Reach c.engine.dag.parents x c.engine.tip ∧ x ≠ blockhash.origin :=
  (h.orderTo.lists h.anchored.rooted h.anchored.rooted.grown.ready_best.2.ne).mem x

theorem mem_order_iff (h : Cut env c order i pt e) :
    x ∈ order ↔ x ∈ order.take i ∨ x ∈ pt :: order.drop (i + 1) := by
  conv_lhs => rw [h.order_eq]
  exact List.mem_append

theorem pt_ne (h : Cut env c order i pt e) : pt ≠ blockhash.origin :=
  (h.mem_order.mp (List.mem_of_getElem? h.point)).2

theorem reroots (h : Cut env c order i pt e) :
    Reroots env c pt (pt :: order.drop (i + 1)) (order.drop (i + 1)) e :=
  rerootEngine_reroots (h.anchored.origin_not_kept h.run h.point) h.reroot

/-- The tip comes last in the order. -/
theorem tip_last (h : Cut env c order i pt e) {front rest : List Hash} (hne : rest ≠ [])
    (hsplit : order = front ++ rest) : c.engine.tip ∉ front := by
  obtain ⟨before, hbefore, hpast⟩ :=
    h.orderTo.last h.anchored.rooted h.anchored.rooted.grown.ready_best.2.ne
  intro hmem
  have hdrop : before = front ++ rest.dropLast := by
    rw [← List.dropLast_append_of_ne_nil hne, ← hsplit, hbefore, List.dropLast_concat]
  exact h.acyclic (hpast _ (hdrop ▸ List.mem_append_left _ hmem))

/-- A pruning point that comes for the first time has its past before it, and after it what the
selected chain merges above it. -/
theorem first (h : Cut env c order i pt e) (hfirst : pt ∉ order.take i) :
    (∀ x, x ∈ order.take i ↔ Past c.engine.dag.parents x pt ∧ x ≠ blockhash.origin) ∧
      ∀ y ∈ order.drop (i + 1), Above c.engine pt (order.drop (i + 1)) y := by
  have hrooted := h.anchored.rooted
  obtain ⟨front, rest, hsplit, hfront, habove⟩ :=
    h.orderTo.split hrooted hrooted.grown.ready_best.2.ne h.chain h.pt_ne
  obtain ⟨before, rfl, hpast⟩ := hfront.last hrooted h.pt_ne
  have hpt : pt ∉ before := fun hmem => h.acyclic (hpast pt hmem)
  have hsplit' : order = before ++ pt :: rest := by
    rw [hsplit, List.append_assoc, List.singleton_append]
  have hlen := length_of_first hsplit' h.point hpt hfirst
  have htake : order.take i = before := by
    rw [hsplit, List.append_assoc, ← hlen, List.take_left']
    rfl
  have hrest : order.drop (i + 1) = rest := by
    rw [hsplit, ← hlen, List.drop_left']
    simp
  refine ⟨fun x => ?_, hrest ▸ habove⟩
  have hmem := (hfront.lists hrooted h.pt_ne).mem x
  rw [htake]
  constructor
  · intro hx
    exact ⟨hpast x hx, (hmem.mp (List.mem_append_left _ hx)).2⟩
  · rintro ⟨hx, hor⟩
    rcases List.mem_append.mp (hmem.mpr ⟨hx.reach, hor⟩) with hin | heq
    · exact hin
    · exact absurd (List.mem_singleton.mp heq ▸ hx) h.acyclic

theorem genesis_mem (h : Cut env c order i pt e) : c.genesisDag ∈ order.take i := by
  have hrooted := h.anchored.rooted
  obtain ⟨rest, hrest⟩ := (h.orderTo.lists hrooted hrooted.grown.ready_best.2.ne).head
  obtain ⟨j, rfl⟩ : ∃ j, i = j + 1 := ⟨i - 1, by have := h.pos; omega⟩
  rw [hrest, hrooted.grown.ready_best.1.genesis, List.take_succ_cons]
  exact List.mem_cons_self

theorem tip_mem (h : Cut env c order i pt e) : c.engine.tip ∈ pt :: order.drop (i + 1) := by
  have best := h.anchored.rooted.grown.ready_best.2
  have hmem := h.mem_order.mpr ⟨.refl, best.ne⟩
  exact (h.mem_order_iff.mp hmem).resolve_left (h.tip_last (List.cons_ne_nil _ _) h.order_eq)

/-- A kept block that the engine has below another kept block is named in its header. -/
theorem header (h : Cut env c order i pt e) (hy : y ∈ order.drop (i + 1))
    (hx : x ∈ c.engine.dag.parents y) (hor : x ≠ blockhash.origin) :
    ∃ hd, c.headers.lookup y = some hd ∧ (x ∈ hd.parents ∨ x = c.genesisDag) := by
  obtain ⟨hd, hlookup, _⟩ := h.reroots.parents y hy
  rcases h.named y hd hlookup x hx with hmem | heq | heq
  · exact ⟨hd, hlookup, Or.inl hmem⟩
  · exact ⟨hd, hlookup, Or.inr heq⟩
  · exact absurd heq hor

/-- A pruning point comes for the first time, if its descendants that are selected parents of kept
blocks are kept: the new engine does not take a block before its selected parent. -/
theorem first_of_selected (h : Cut env c order i pt e)
    (hselected : ∀ b ∈ order.drop (i + 1), ∀ d, c.engine.gd.lookup b = some d →
      Past c.engine.dag.parents pt d.selectedParent →
        d.selectedParent ∈ pt :: order.drop (i + 1)) : pt ∉ order.take i := by
  have hrooted := h.anchored.rooted
  intro hrep
  obtain ⟨b, d, between, later, hd, hbne, hbor, hrest, hout, hpast⟩ :=
    h.orderTo.repeated hrooted hrooted.grown.ready_best.2.ne h.chain h.point hrep
  obtain ⟨hm, _, hsp⟩ := hrooted.merged hbne hbor hd
  have hne : d.selectedParent ≠ pt := by
    intro heq
    exact h.acyclic (heq ▸ hpast)
  have hb : b ∈ order.drop (i + 1) := by simp [hrest]
  have hkept := hselected b hb d hd hpast
  obtain ⟨hdr, hlookup, hnamed⟩ := h.header hb hm.mem hsp
  have hor := h.anchored.origin_not_kept h.run h.point
  have hreroot := h.reroot
  rw [hrest] at hor hreroot hkept
  obtain ⟨hdr', hlookup', hbefore⟩ := rerootEngine_before hor hreroot
  cases hlookup.symm.trans hlookup'
  rcases hnamed with hnamed | hgen
  · exact (hbefore _ hnamed hkept).elim hne hout
  · rw [hgen] at hpast
    obtain ⟨q, hq, hreach⟩ := past_iff.mp hpast
    rw [hrooted.grown.recorded.2, List.mem_singleton] at hq
    exact h.pt_ne (h.inv.eq_origin (hq ▸ hreach))

theorem first_of_removed (h : Cut env c order i pt e)
    (hremoved : ∀ x ∈ c.blocks, x ∉ pt :: order.drop (i + 1) → Past c.engine.dag.parents x pt) :
    pt ∉ order.take i := by
  refine h.first_of_selected fun b hb d hd hpast => ?_
  by_contra hnot
  have hparent : d.selectedParent ∈ c.engine.dag.parents b :=
    h.inv.selected hd (h.mem_order.mp (h.mem_order_iff.mpr (Or.inr (List.mem_cons_of_mem _ hb)))).2
  rcases h.anchored.closed b _ hparent with hblocks | hor
  · exact h.acyclic ((hremoved _ hblocks hnot).trans hpast)
  · rw [hor] at hpast
    exact h.pt_ne (h.inv.eq_origin hpast.reach)

/-- Every kept block but the tip has a child in the new engine. -/
theorem child (h : Cut env c order i pt e) (hfirst : pt ∉ order.take i)
    (horigin : OriginNamed c (order.drop (i + 1))) (hx : x ∈ pt :: order.drop (i + 1))
    (hne : x ≠ c.engine.tip) : ∃ y ∈ order.drop (i + 1), x ∈ e.dag.parents y := by
  have hrooted := h.anchored.rooted
  obtain ⟨htake, habove⟩ := h.first hfirst
  obtain ⟨hreach, hor⟩ := h.mem_order.mp (h.mem_order_iff.mpr (Or.inr hx))
  have hnamed : ∃ y ∈ order.drop (i + 1), ∃ hd, c.headers.lookup y = some hd ∧ x ∈ hd.parents := by
    by_cases hpast : Past c.engine.dag.parents x pt
    · have hsuffix : x ∈ order.drop (i + 1) := by
        refine (List.mem_cons.mp hx).resolve_left ?_
        rintro rfl
        exact h.acyclic hpast
      obtain ⟨b, d, m, hd, hbne, hbor, hb, hchain, hmerge, hxb⟩ := habove x hsuffix
      have hbelow := hpast.trans_reach (onChain_reach h.inv hchain)
      have hparent : x ∈ c.engine.dag.parents b := by
        rcases hxb with rfl | hxm
        · have hm := (hrooted.merged hbne hbor hd).1
          exact absurd (hbelow.tail hm.mem) h.acyclic
        · rcases hmerge.apart x hxm with ⟨hparent, _⟩ | hnot
          · exact hparent
          · exact absurd hbelow.reach hnot
      obtain ⟨hdr, hlookup, hmem | hgen⟩ := h.header hb hparent hor
      · exact ⟨b, hb, hdr, hlookup, hmem⟩
      · exact hgen ▸ horigin (hgen ▸ hsuffix)
    · have hpast' := (reach_iff.mp hreach).resolve_left hne
      obtain ⟨y, hparent, hy⟩ := Relation.TransGen.head'_iff.mp hpast'
      have hyor : y ≠ blockhash.origin := by
        rintro rfl
        rw [h.inv.parents_origin] at hparent
        cases hparent
      have hyorder := h.mem_order.mpr ⟨hy, hyor⟩
      have hkept : y ∈ order.drop (i + 1) := by
        rcases h.mem_order_iff.mp hyorder with hmem | hmem
        · exact absurd (.head hparent ((htake y).mp hmem).1) hpast
        · refine (List.mem_cons.mp hmem).resolve_left ?_
          rintro rfl
          exact hpast (.single hparent)
      obtain ⟨hdr, hlookup, hmem | hgen⟩ := h.header hkept hparent hor
      · exact ⟨y, hkept, hdr, hlookup, hmem⟩
      · exact absurd ((htake x).mp (hgen ▸ h.genesis_mem)).1 hpast
  obtain ⟨y, hy, hdr, hlookup, hmem⟩ := hnamed
  obtain ⟨hdr', hlookup', hparents⟩ := h.reroots.parents y hy
  cases hlookup.symm.trans hlookup'
  exact ⟨y, hy, hparents ▸ mem_keptParents_of_mem hmem hx⟩

theorem mem_kept (h : Cut env c order i pt e) (hx : x ∈ e.dag.blocks) (hor : x ≠ blockhash.origin) :
    x ∈ pt :: order.drop (i + 1) :=
  List.mem_cons.mpr (((h.reroots.blocks x).mp hx).resolve_left hor)

/-- A child in the new engine is one of the kept blocks above the pruning point. -/
theorem of_child (h : Cut env c order i pt e) (hxy : x ∈ e.dag.parents y)
    (hor : x ≠ blockhash.origin) : y ∈ order.drop (i + 1) := by
  have inv := h.reroots.rooted.grown.ready_best.1
  have hy : y ∈ e.dag.blocks := by
    by_contra hy
    rw [inv.index.dag.outside hy] at hxy
    cases hxy
  have hyor : y ≠ blockhash.origin := by
    rintro rfl
    rw [inv.parents_origin] at hxy
    cases hxy
  refine (List.mem_cons.mp (h.mem_kept hy hyor)).resolve_left ?_
  rintro rfl
  rw [h.reroots.root, List.mem_singleton] at hxy
  exact hor hxy

/-- The tip of an engine has no child. -/
theorem tip_childless (h : Cut env c order i pt e) : e.tip ∉ e.dag.parents y := by
  obtain ⟨ready, best⟩ := h.reroots.rooted.grown.ready_best
  intro hxy
  have hkept := h.of_child hxy best.ne
  have hy := (h.reroots.blocks y).mpr (Or.inr (Or.inr hkept))
  have hyor : y ≠ blockhash.origin := by
    rintro rfl
    rw [ready.parents_origin] at hxy
    cases hxy
  have hwork := ready.work hxy best.ne
  rcases best.max hy hyor with hlt | ⟨heq, _⟩
  · exact Nat.lt_asymm hwork hlt
  · exact Nat.ne_of_gt hwork heq

/-- The old tip has no child in the new engine. -/
theorem old_tip_childless (h : Cut env c order i pt e) : c.engine.tip ∉ e.dag.parents y := by
  have hne := h.anchored.rooted.grown.ready_best.2.ne
  intro hxy
  have hy := h.of_child hxy hne
  obtain ⟨before, after, hsplit⟩ := List.append_of_mem hy
  have hfront : c.engine.tip ∉ order.take i ++ pt :: before := by
    refine h.tip_last (List.cons_ne_nil y after) ?_
    conv_lhs => rw [h.order_eq, hsplit]
    simp
  have hreroot := h.reroot
  have hor := h.anchored.origin_not_kept h.run h.point
  have hkept := h.tip_mem
  obtain ⟨hdr, hlookup, hparents⟩ := h.reroots.parents y hy
  rw [hparents] at hxy
  rw [hsplit] at hreroot hor hkept
  obtain ⟨hdr', hlookup', hbefore⟩ := rerootEngine_before hor hreroot
  cases hlookup.symm.trans hlookup'
  have hin : c.engine.tip = pt ∨ c.engine.tip ∈ before := by
    rcases eq_or_mem_of_keptParents hxy with heq | ⟨hmem, _⟩
    · exact Or.inl heq
    · exact hbefore _ hmem hkept
  exact hfront (List.mem_append_right _ (List.mem_cons.mpr hin))

/-- The tip of the new engine is the old one, and its only block without a child. -/
theorem tips (h : Cut env c order i pt e) (hfirst : pt ∉ order.take i)
    (horigin : OriginNamed c (order.drop (i + 1))) :
    x = e.tip ↔ x ∈ pt :: order.drop (i + 1) ∧ ∀ y, x ∉ e.dag.parents y := by
  have best := h.reroots.rooted.grown.ready_best.2
  have htip : ∀ x ∈ pt :: order.drop (i + 1), (∀ y, x ∉ e.dag.parents y) → x = c.engine.tip := by
    intro x hx hnone
    by_contra hne
    obtain ⟨y, _, hxy⟩ := h.child hfirst horigin hx hne
    exact hnone y hxy
  have hkept := h.mem_kept best.mem best.ne
  constructor
  · rintro rfl
    exact ⟨hkept, fun y => h.tip_childless⟩
  · rintro ⟨hx, hnone⟩
    rw [htip x hx hnone, htip e.tip hkept fun y => h.tip_childless]

theorem originNamed_of_tips (h : Cut env c order i pt e) (hfirst : pt ∉ order.take i)
    (htips : ∀ x, x = e.tip ↔ x ∈ pt :: order.drop (i + 1) ∧ ∀ y, x ∉ e.dag.parents y) :
    OriginNamed c (order.drop (i + 1)) := by
  have hmem := h.genesis_mem
  intro hgen
  by_contra hnone
  have hor := (h.mem_order.mp (List.mem_of_mem_take hmem)).2
  have hchildless : ∀ y, c.genesisDag ∉ e.dag.parents y := by
    intro y hy
    have hkept := h.of_child hy hor
    obtain ⟨hdr, hlookup, hparents⟩ := h.reroots.parents y hkept
    rw [hparents] at hy
    rcases eq_or_mem_of_keptParents hy with heq | ⟨hnamed, _⟩
    · exact hfirst (heq ▸ hmem)
    · exact hnone ⟨y, hkept, hdr, hlookup, hnamed⟩
  have hgenesis := (htips c.genesisDag).mpr ⟨List.mem_cons_of_mem pt hgen, hchildless⟩
  have htip := (htips c.engine.tip).mpr ⟨h.tip_mem, fun y => h.old_tip_childless⟩
  exact h.tip_last (List.cons_ne_nil _ _) h.order_eq ((htip.trans hgenesis.symm) ▸ hmem)

end Cut

/-- A prune that removes blocks cuts the chain. -/
theorem cut_of_prune {io : Option ReplaceFault} {n : Nat} (ha : Anchored env c) (hnamed : Named c)
    (hprune : c.prune env io = .ok (.ok n, c')) (hn : 0 < n) :
    ∃ order i pt bank e log, Cut env c order i pt e ∧ c.prunePoint order = .ok (some i) ∧
      (c.pruneBase env order i).run = .ok (.ok bank) ∧
      c' = c.reanchored e log pt (order.drop (i + 1)) bank.db.dump (c.buildProofFor env pt) := by
  rcases prune_cases hprune with ⟨_, _, hzero⟩ | hmore
  · rw [(hzero n rfl).1] at hn
    exact absurd hn (Nat.lt_irrefl 0)
  obtain ⟨order, i, pt, bank, e, header, log, horder, hpoint, hpt, hbase, he, _, _, _, rfl⟩ := hmore
  obtain ⟨hpos, hchain⟩ := prunePoint_spec ha.rooted hpoint hpt
  exact ⟨order, i, pt, bank, e, log, ⟨ha, hnamed, horder, hpos, hpt, hchain, he⟩, hpoint, hbase, rfl⟩

/-- What pruning promises: a removed block is an ancestor of the new origin, every other block stays
with its header and transactions, and the tips are the known blocks without a child. -/
structure PrunesFinalized (c c' : DagChain Tx) : Prop where
  removed : ∀ x ∈ c.blocks, x ∉ c'.blocks → Past c.engine.dag.parents x c'.genesisDag
  kept : ∀ x ∈ c.blocks, ¬Past c.engine.dag.parents x c'.genesisDag → x ∈ c'.blocks ∧
    c'.headers.lookup x = c.headers.lookup x ∧ c'.blockTxs.lookup x = c.blockTxs.lookup x
  tips : ∀ x, x ∈ c'.tips ↔ x ∈ c'.blocks ∧ ∀ y, x ∉ c'.engine.dag.parents y

/-- The tip has merged every known block, the order has the pruning point there for the first time,
and repeats the origin after it only where a kept block names it. -/
structure CleanCut (c : DagChain Tx) : Prop where
  merged : ∀ x ∈ c.blocks, Reach c.engine.dag.parents x c.engine.tip
  first : ∀ {order : List Hash} {i : Nat} {pt : Hash}, c.totalOrder = .ok order →
    c.prunePoint order = .ok (some i) → order[i]? = some pt → pt ∉ order.take i
  origin : ∀ {order : List Hash} {i : Nat}, c.totalOrder = .ok order →
    c.prunePoint order = .ok (some i) → OriginNamed c (order.drop (i + 1))

/-- In every state that calls on an opened chain lead to, a `prune` that removes blocks discards only
finalized history exactly when the cut is clean. -/
theorem prune_finalized_iff {P : DagChain Tx → Call Tx → Prop} {file : Bytes}
    {io : Option ReplaceFault} {n : Nat} (hopen : openWithGenesis env p file = .ok (.ok c₀))
    (hrun : Reaches env P c₀ c) (hprune : c.prune env io = .ok (.ok n, c')) (hn : 0 < n) :
    PrunesFinalized c c' ↔ CleanCut c := by
  obtain ⟨hanchored, hnamed⟩ := named_of_reaches hopen hrun
  obtain ⟨order, i, pt, bank, e, log, hcut, hpoint, _, rfl⟩ :=
    cut_of_prune hanchored hnamed hprune hn
  have horder := hcut.run
  have hpt := hcut.point
  have hchain := hcut.chain
  have hblocks : ∀ x, x ∈ (c.reanchored e log pt (order.drop (i + 1)) bank.db.dump
      (c.buildProofFor env pt)).blocks ↔ x ∈ pt :: order.drop (i + 1) := fun x => List.mem_toFinset
  constructor
  · intro ⟨hremoved, _, htips⟩
    have hfirst : pt ∉ order.take i :=
      hcut.first_of_removed fun x hx hnot => hremoved x hx fun hmem => hnot ((hblocks x).mp hmem)
    have horigin : OriginNamed c (order.drop (i + 1)) := by
      refine hcut.originNamed_of_tips hfirst fun x => ?_
      rw [← hblocks]
      exact List.mem_singleton.symm.trans (htips x)
    refine ⟨fun x hx => ?_, fun horder' hpoint' hpt' => ?_, fun horder' hpoint' => ?_⟩
    · by_cases hmem : x ∈ pt :: order.drop (i + 1)
      · exact (hcut.mem_order.mp (hcut.mem_order_iff.mpr (Or.inr hmem))).1
      · have hpast := hremoved x hx fun h => hmem ((hblocks x).mp h)
        exact hpast.reach.trans (onChain_reach hcut.inv hchain)
    · cases horder.symm.trans horder'
      cases hpoint.symm.trans hpoint'
      cases hpt.symm.trans hpt'
      exact hfirst
    · cases horder.symm.trans horder'
      cases hpoint.symm.trans hpoint'
      exact horigin
  · intro hclean
    have hfirst := hclean.first horder hpoint hpt
    have hkept : ∀ x ∈ c.blocks, ¬Past c.engine.dag.parents x pt → x ∈ pt :: order.drop (i + 1) := by
      intro x hx hnot
      have hmem := hcut.mem_order.mpr ⟨hclean.merged x hx, (hanchored.blocks x hx).2⟩
      refine (hcut.mem_order_iff.mp hmem).resolve_left fun htake => ?_
      exact hnot (((hcut.first hfirst).1 x).mp htake).1
    refine ⟨fun x hx hnot => ?_, fun x hx hnot => ⟨?_, ?_, ?_⟩, fun x => ?_⟩
    · by_contra hpast
      exact hnot ((hblocks x).mpr (hkept x hx hpast))
    · exact (hblocks x).mpr (hkept x hx hnot)
    · change (restrict c.headers (pt :: order.drop (i + 1))).lookup x = _
      rw [restrict_lookup, if_pos (hkept x hx hnot)]
    · change (restrict c.blockTxs (pt :: order.drop (i + 1))).lookup x = _
      rw [restrict_lookup, if_pos (hkept x hx hnot)]
    · rw [hblocks]
      exact List.mem_singleton.trans (hcut.tips hfirst (hclean.origin horder hpoint))

/-- When no header names an ancestor of its selected parent, the cut is clean as soon as the tip has
merged every known block. -/
theorem Anchored.cleanCut (h : Anchored env c)
    (hmerged : ∀ x ∈ c.blocks, Reach c.engine.dag.parents x c.engine.tip)
    (hapart : ∀ b ∈ c.engine.dag.blocks, b ≠ c.genesisDag → b ≠ blockhash.origin →
      Ghostdag.DagEngine.Apart c.engine b) : CleanCut c := by
  refine ⟨hmerged, fun {order i pt} horder hpoint hpt hrep => ?_, fun {order i} horder hpoint hgen => ?_⟩
  · have hlinear := (h.rooted.totalOrder.post horder).2 hapart
    obtain ⟨hlt, hget⟩ := List.getElem?_eq_some_iff.mp hpt
    have hnodup := hlinear.nodup
    rw [← List.take_append_drop i order, List.nodup_append] at hnodup
    refine hnodup.2.2 pt hrep pt ?_ rfl
    rw [List.drop_eq_getElem_cons hlt, hget]
    exact List.mem_cons_self
  · obtain ⟨hlists, hlinear⟩ := h.rooted.totalOrder.post horder
    obtain ⟨rest, rfl⟩ := hlists.head
    rw [h.rooted.grown.ready_best.1.genesis] at hlinear
    have hgenesis : c.genesisDag ∈ rest := List.mem_of_mem_drop (i := i) hgen
    exact absurd hgenesis (List.nodup_cons.mp (hlinear hapart).nodup).1

end DagChain

section Example

open DagChain
open TaoDag.Runtime (Transaction transferEnv)

/-- Fixed difficulty, and a prune that keeps the tip alone when the finality depth is one. -/
def prunableParams : Params := { easyParams with lwmaWindow := 0 }

/-- Two blocks on genesis. -/
theorem prune_finalized_iff_easy : ∃ (c₀ c c' : DagChain Transaction) (bs : List DagBlock),
    openWithGenesis transferEnv prunableParams [] = .ok (.ok c₀) ∧
    (c₀.setFinalityDepth 1).acceptAll transferEnv 1750000500 bs = some c ∧
    c.prune transferEnv none = .ok (.ok 2, c') ∧ (PrunesFinalized c c' ↔ CleanCut c) := by
  have hrun : returnsWith (openWithGenesis transferEnv prunableParams []) (fun o =>
      returnsWith o fun c₀ =>
        ((c₀.setFinalityDepth 1).acceptAll transferEnv 1750000500
          (c₀.mineAll transferEnv [1750000010, 1750000020])).any fun c =>
            returnsWith (c.prune transferEnv none) fun r =>
              returnsWith r.1 fun n => decide (n = 2)) = true := by
    decide +kernel
  simp only [returnsWith_iff, Option.any_eq_true, decide_eq_true_eq] at hrun
  obtain ⟨_, hopen, c₀, rfl, c, haccept, ⟨_, c'⟩, hprune, n, rfl, rfl⟩ := hrun
  have hdepth : StepOn transferEnv (fun _ _ => True) c₀ (c₀.setFinalityDepth 1) :=
    ⟨.setFinalityDepth 1, trivial, rfl⟩
  have hreach : Reaches transferEnv (fun _ _ => True) c₀ c :=
    .head hdepth (Accepts.of_acceptAll .nil haccept).reaches
  exact ⟨c₀, c, c', _, hopen, haccept, hprune,
    prune_finalized_iff hopen hreach hprune (Nat.succ_pos 1)⟩

/-- A child of genesis next to the selected chain. -/
def sideTip : Hash := 0x3a269ac070e7373177ab5093d1fc74aa2054a24a8f35ee9cf9417dea68ee193e

/-- An unmerged tip is gone after a prune, although it is no ancestor of the new origin. -/
theorem prune_drops_tip : ∃ (c₀ c c' : DagChain Transaction) (bs : List DagBlock),
    openWithGenesis transferEnv prunableParams [] = .ok (.ok c₀) ∧
    (c₀.setFinalityDepth 1).acceptAll transferEnv 1750000500 bs = some c ∧
    c.prune transferEnv none = .ok (.ok 3, c') ∧ sideTip ∈ c.tips ∧ sideTip ∈ c.blocks ∧
    sideTip ∉ c'.blocks ∧ ¬PrunesFinalized c c' := by
  have hrun : returnsWith (openWithGenesis transferEnv prunableParams []) (fun o =>
      returnsWith o fun c₀ =>
        ((c₀.setFinalityDepth 1).acceptAll transferEnv 1750000500
          (c₀.mineAll transferEnv [1750000010, 1750000020] ++
            c₀.mineAll transferEnv [1750000030])).any fun c =>
              decide (sideTip ∈ c.tips ∧ sideTip ∈ c.blocks ∧
                ∀ r ∈ c.engine.relations.entries, sideTip ∉ r.2) &&
              returnsWith (c.prune transferEnv none) fun r =>
                returnsWith r.1 fun n => decide (n = 3 ∧ sideTip ∉ r.2.blocks)) = true := by
    decide +kernel
  simp only [returnsWith_iff, Option.any_eq_true, Bool.and_eq_true, decide_eq_true_eq] at hrun
  obtain ⟨_, hopen, c₀, rfl, c, haccept, ⟨htip, hmem, hchildless⟩, ⟨_, c'⟩, hprune, n, rfl, rfl,
    hgone⟩ := hrun
  refine ⟨c₀, c, c', _, hopen, haccept, hprune, htip, hmem, hgone, fun h => ?_⟩
  obtain ⟨y, hparent, _⟩ := Relation.TransGen.head'_iff.mp (h.removed sideTip hmem hgone)
  change sideTip ∈ (c.engine.relations.lookup y).getD [] at hparent
  cases hlookup : c.engine.relations.lookup y with
  | none =>
    rw [hlookup] at hparent
    cases hparent
  | some ps =>
    rw [hlookup] at hparent
    exact hchildless ⟨y, ps⟩ (AList.mem_lookup_iff.mp hlookup) hparent

end Example

end TaoDag.Dagvm
