import TaoDag.Ghostdag.Segments
import TaoDag.Ghostdag.Shift

namespace TaoDag.Ghostdag.DagEngine

open BlockDag

variable {fr : Reachability.Interval.Fractions} {k : Nat} {genesis root b x y sp : Hash}
  {e e' e₁ before : DagEngine} {ps m order order' : List Hash} {d d' : GhostdagData}

/-- The engine holds the block, which is not ORIGIN. -/
def Holds (e : DagEngine) (x : Hash) : Prop := x ∈ e.dag.blocks ∧ x ≠ blockhash.origin

section Rooted

theorem Rooted.genesis_holds (h : Rooted fr k genesis e) : e.Holds genesis := by
  have hparents := h.grown.recorded.2
  have inv := h.grown.ready_best.1
  constructor
  · by_contra hnot
    rw [inv.index.dag.outside hnot] at hparents
    cases hparents
  · rintro rfl
    rw [inv.parents_origin] at hparents
    cases hparents

theorem Rooted.holds_parent (h : Rooted fr k genesis e) (hy : y ≠ genesis)
    (hx : x ∈ e.dag.parents y) : e.Holds x :=
  ⟨h.grown.ready_best.1.index.dag.closed hx, fun hor => h.origin_not_mem hy (hor ▸ hx)⟩

theorem Rooted.eq_genesis (h : Rooted fr k genesis e) (hx : x ≠ blockhash.origin)
    (hreach : Reach e.dag.parents x genesis) : x = genesis := by
  rcases reach_iff.mp hreach with heq | hpast
  · exact heq
  · obtain ⟨p, hp, hxp⟩ := past_iff.mp hpast
    rw [h.grown.recorded.2, List.mem_singleton] at hp
    exact absurd (h.grown.ready_best.1.eq_origin (hp ▸ hxp)) hx

/-- Every block descends from genesis. -/
theorem Rooted.genesis_reach (h : Rooted fr k genesis e) (hx : e.Holds x) :
    Reach e.dag.parents genesis x := by
  induction h generalizing x with
  | @genesis e₀ e run add =>
    obtain ⟨inv, hdag, _⟩ := new_ready.post run
    obtain ⟨d, _, _, ha, _⟩ := inv.step originAlone_self add
    rcases ha.mem_blocks_iff.mp hx.1 with rfl | hmem
    · exact .refl
    · rw [hdag] at hmem
      exact absurd (Finset.mem_singleton.mp hmem) hx.2
  | @add e e' b parents before horigin run ih =>
    have inv := before.grown.ready_best.1
    obtain ⟨d, _, hd, ha, _⟩ := inv.step (fun hor => absurd hor horigin) run
    rcases ha.mem_blocks_iff.mp hx.1 with rfl | hmem
    · have hsp : e.Holds d.selectedParent :=
        ⟨hd.known _ hd.mem, fun hor => horigin (hor ▸ hd.mem)⟩
      have hparent : d.selectedParent ∈ e'.dag.parents x := by
        rw [ha.parents_eq inv.toInv, Function.update_self]
        exact hd.mem
      exact ((ha.reach_iff inv.toInv hsp.1).mpr (ih hsp)).trans (reach_of_parent hparent)
    · exact (ha.reach_iff inv.toInv hmem).mpr (ih ⟨hmem, hx.2⟩)

/-- Genesis has no work and no score. -/
theorem Rooted.genesis_data (h : Rooted fr k genesis e) :
    e.work genesis = 0 ∧ e.score genesis = 0 := by
  obtain ⟨hmem, hne⟩ := h.genesis_holds
  obtain ⟨d, hd⟩ := mem_blocks.mp hmem
  obtain ⟨before, hdata, _⟩ := h.isData hd hne
  have hsp := hdata.mem
  rw [h.grown.recorded.2] at hsp
  rw [work, score, hd]
  exact hdata.origin (List.mem_singleton.mp hsp)

end Rooted

/-- `e'` starts at `root`. What it has above the root it has from `e`, with the work and the score of
the root taken off. -/
structure Tail (fr : Reachability.Interval.Fractions) (k : Nat) (genesis root : Hash)
    (e e' : DagEngine) : Prop where
  whole : Rooted fr k genesis e
  above : Rooted fr k root e'
  known : ∀ {x}, e'.Holds x → e.Holds x
  parents : ∀ {x}, e'.Holds x → x ≠ root → e'.dag.parents x = e.dag.parents x
  data : ∀ {x d d'}, e'.Holds x → x ≠ root → e.gd.lookup x = some d → e'.gd.lookup x = some d' →
    Shifted (e.work root) (e.score root) d d'

namespace Tail

section Reach

theorem of_reach (h : Tail fr k genesis root e e') (hx : x ≠ blockhash.origin) (hy : e'.Holds y)
    (hreach : Reach e'.dag.parents x y) : Reach e.dag.parents x y := by
  refine hreach.above (K := e'.Holds) (fun y hy hne p hp => ⟨h.above.holds_parent hne hp, ?_⟩)
    (h.above.eq_genesis hx) hy
  rw [← h.parents hy hne]
  exact hp

theorem root_reach (h : Tail fr k genesis root e e') (hx : e'.Holds x) :
    Reach e.dag.parents root x :=
  h.of_reach h.above.genesis_holds.2 hx (h.above.genesis_reach hx)

/-- A block below the root is the root. -/
theorem eq_root (h : Tail fr k genesis root e e') (hx : e'.Holds x)
    (hreach : Reach e.dag.parents x root) : x = root :=
  h.whole.grown.ready_best.1.index.dag.antisymm hreach (h.root_reach hx)

theorem reach_iff (h : Tail fr k genesis root e e') (hx : e'.Holds x) (hy : e'.Holds y) :
    Reach e.dag.parents x y ↔ Reach e'.dag.parents x y := by
  refine ⟨fun hreach => hreach.above (K := e'.Holds) (fun y hy hne p hp => ?_) (h.eq_root hx) hy,
    h.of_reach hx.2 hy⟩
  rw [← h.parents hy hne] at hp
  exact ⟨h.above.holds_parent hne hp, hp⟩

/-- What reaches a block above the root is above it, or below the root. -/
theorem holds_or (h : Tail fr k genesis root e e') (hy : e'.Holds y)
    (hreach : Reach e.dag.parents x y) : e'.Holds x ∨ Reach e.dag.parents x root := by
  induction hreach with
  | refl => exact Or.inl hy
  | @tail b y hxb hb ih =>
    by_cases hroot : y = root
    · subst hroot
      exact Or.inr (hxb.tail hb)
    · rw [← h.parents hy hroot] at hb
      exact ih (h.above.holds_parent hroot hb)

end Reach

section Data

theorem shift (h : Tail fr k genesis root e e') (hx : e'.Holds x) :
    e.work x = e'.work x + e.work root ∧ e.score x = e'.score x + e.score root := by
  by_cases hroot : x = root
  · subst hroot
    rw [h.above.genesis_data.1, h.above.genesis_data.2, Nat.zero_add, Nat.zero_add]
    exact ⟨rfl, rfl⟩
  · obtain ⟨d, hd⟩ := mem_blocks.mp (h.known hx).1
    obtain ⟨d', hd'⟩ := mem_blocks.mp hx.1
    have hshift := h.data hx hroot hd hd'
    rw [work, score, hd, work.eq_1 e' x, score.eq_1 e' x, hd']
    exact ⟨hshift.work, hshift.score⟩

theorem key (h : Tail fr k genesis root e e') (hx : e'.Holds x) :
    e.key x = (e'.key x).lift (e.work root) := by
  rw [DagEngine.key, (h.shift hx).1]
  rfl

theorem key_le (h : Tail fr k genesis root e e') (hx : e'.Holds x) (hy : e'.Holds y) :
    (e.key x).le (e.key y) ↔ (e'.key x).le (e'.key y) := by
  rw [h.key hx, h.key hy]
  exact SortableBlock.lift_le

/-- The engines answer alike about the blocks above the root, also before `e` had all of its
blocks. -/
theorem managers (h : Tail fr k genesis root e e') (inv : Ready k genesis before)
    (hw : Within before e) :
    GhostdagManager.Above root e'.Holds (e.work root) (e.score root) before.manager e'.manager := by
  have ready := h.whole.grown.ready_best.1
  have ready' := h.above.grown.ready_best.1
  have hreach : ∀ {x y r}, before.isDagAncestorOf x y = .ok r →
      (r = true ↔ Reach e.dag.parents x y) := by
    intro x y r hr
    obtain ⟨_, hy, hr⟩ := (isDagAncestorOf_spec inv.toInv).post hr
    obtain ⟨d, hd⟩ := mem_blocks.mp hy
    rw [hr, hw.consistent.reach_iff inv ready hy (mem_blocks.mpr ⟨d, hw.gd hd⟩)]
  have hreach' : ∀ {x y r}, e'.isDagAncestorOf x y = .ok r →
      (r = true ↔ Reach e'.dag.parents x y) :=
    fun hr => ((isDagAncestorOf_spec ready'.toInv).post hr).2.2
  constructor
  · exact ready'.genesis
  · exact inv.k.trans ready'.k.symm
  · rfl
  · exact fun hor => hor.2 rfl
  · exact h.above.genesis_holds
  · intro x d d' hx hroot hd hd'
    have hd' := getData_spec.post hd'
    refine ⟨h.data hx hroot (hw.gd (getData_spec.post hd)) hd',
      h.above.holds_parent hroot (ready'.selected hd' hx.2), fun y hy => ?_⟩
    obtain ⟨hne, p, hp, hyp⟩ := h.above.blues hd' hx.2 hroot hy
    exact ⟨ready'.index.dag.mem_of_reach hyp (ready'.index.dag.closed hp), hne⟩
  · intro x d d' hx hd hd'
    have hshift := h.shift hx
    rw [work, score, hw.gd (getData_spec.post hd), work.eq_1 e' x, score.eq_1 e' x,
      getData_spec.post hd'] at hshift
    exact hshift
  · intro x hx hroot qs qs' hqs hqs'
    have hlookup := hw.relations (getParents_lookup.post hqs)
    rw [← Ready.parents_of_lookup hlookup, ← Ready.parents_of_lookup (getParents_lookup.post hqs')]
    exact (h.parents hx hroot).symm
  · intro x qs _ hroot hqs p hp
    rw [getParents_spec.post hqs] at hp
    exact h.above.holds_parent hroot hp
  · intro x y hx hy r r' hr hr'
    rw [Bool.eq_iff_iff, hreach hr, hreach' hr']
    exact h.reach_iff hx hy
  · intro y r hy hr
    exact (hreach' hr).mpr (h.above.genesis_reach hy)
  · intro qs hqs p hp
    have hparent : p ∈ e.dag.parents root := by
      rwa [Ready.parents_of_lookup (hw.relations (getParents_lookup.post hqs))]
    refine ⟨fun hmem => ?_, fun hy hr => ?_⟩
    · rw [h.eq_root hmem (reach_of_parent hparent)] at hparent
      exact ready.index.dag.acyclic (.single hparent)
    · exact (hreach hr).mpr ((reach_of_parent hparent).trans (h.root_reach hy))
  · intro qs hqs p hp
    rw [getParents_spec.post hqs, h.above.grown.recorded.2, List.mem_singleton] at hp
    subst hp
    exact ⟨fun hor => hor.2 rfl, fun hy hr => (hreach' hr).mpr (ready'.origin_reach hy.1)⟩

end Data

section Step

theorem start (h : Rooted fr k genesis e) (hroot : e.Holds root) (habove : Rooted fr k root e')
    (honly : ∀ x, e'.Holds x → x = root) : Tail fr k genesis root e e' where
  whole := h
  above := habove
  known hx := honly _ hx ▸ hroot
  parents hx hne := absurd (honly _ hx) hne
  data hx hne := absurd (honly _ hx) hne

/-- The new engine takes one more block of the old one. -/
theorem add (h : Tail fr k genesis root e e') (hb : e.Holds b) (hparents : e.dag.parents b = ps)
    (hps : ∀ p ∈ ps, e'.Holds p) (run : e'.addBlock fr b ps = .ok e₁) :
    Tail fr k genesis root e e₁ := by
  have inv := h.above.grown.ready_best.1
  have horigin : blockhash.origin ∉ ps := fun hor => (hps _ hor).2 rfl
  obtain ⟨d', hrun, hd, ha, _⟩ := inv.step (fun hor => absurd hor horigin) run
  have hold : ∀ {x}, e₁.Holds x → x ≠ b → e'.Holds x :=
    fun hx hne => ⟨(ha.mem_blocks_iff.mp hx.1).resolve_left hne, hx.2⟩
  refine ⟨h.whole, .add h.above horigin run, fun {x} hx => ?_, fun {x} hx hne => ?_,
    fun {x d d₁} hx hne hd hd₁ => ?_⟩
  · by_cases hxb : x = b
    · exact hxb ▸ hb
    · exact h.known (hold hx hxb)
  · rw [ha.parents_eq inv.toInv]
    by_cases hxb : x = b
    · rw [hxb, Function.update_self, hparents]
    · rw [Function.update_of_ne hxb]
      exact h.parents (hold hx hxb) hne
  · by_cases hxb : x = b
    · subst hxb
      rw [ha.lookup_self] at hd₁
      cases hd₁
      obtain ⟨before, qs, hready, hw, hlookup, hgd⟩ := h.whole.grown.provenance x d hd hb.2
      rw [Ready.parents_of_lookup hlookup] at hparents
      subst hparents
      exact (h.managers hready hw).ghostdag hps d d' hgd hrun
    · rw [ha.lookup_of_ne hxb] at hd₁
      exact h.data (hold hx hxb) hne hd hd₁

/-- The old engine takes a block that is new to both. -/
theorem grow (h : Tail fr k genesis root e e') (horigin : blockhash.origin ∉ ps)
    (run : e.addBlock fr b ps = .ok e₁) : Tail fr k genesis root e₁ e' := by
  have inv := h.whole.grown.ready_best.1
  obtain ⟨d, _, _, ha, _⟩ := inv.step (fun hor => absurd hor horigin) run
  have hne : ∀ {x}, e'.Holds x → x ≠ b := fun hx => ha.ne_of_mem (h.known hx).1
  have hroot := hne h.above.genesis_holds
  refine ⟨.add h.whole horigin run, h.above, fun hx => ?_, fun hx hr => ?_, fun hx hr hd hd' => ?_⟩
  · exact ⟨ha.mem_blocks_iff.mpr (Or.inr (h.known hx).1), hx.2⟩
  · rw [ha.parents_eq inv.toInv, Function.update_of_ne (hne hx)]
    exact h.parents hx hr
  · rw [ha.lookup_of_ne (hne hx)] at hd
    have hscore : e₁.score root = e.score root := by
      rw [score, ha.lookup_of_ne hroot]
      rfl
    rw [ha.work hroot, hscore]
    exact h.data hx hr hd hd'

end Step

section Order

/-- The mergeset above the root is the mergeset in the whole. -/
theorem mergeset (h : Tail fr k genesis root e e') (hps : ∀ p ∈ ps, e'.Holds p) (hsp : sp ∈ ps)
    (hm : IsMergeset e' sp ps m) : IsMergeset e sp ps m ∧ ∀ x ∈ m, e'.Holds x := by
  have inv := h.above.grown.ready_best.1
  have hholds : ∀ x ∈ m, e'.Holds x := by
    intro x hx
    obtain ⟨p, hp, hreach⟩ := hm.sound x hx
    refine ⟨inv.index.dag.mem_of_reach hreach (hps p hp).1, ?_⟩
    rintro rfl
    rcases hm.apart _ hx with ⟨hor, _⟩ | hnot
    · exact (hps _ hor).2 rfl
    · exact hnot (inv.origin_reach (hps sp hsp).1)
  refine ⟨⟨hm.nodup, fun x hx => ?_, fun x hx => ?_, hm.start, fun x p hp hreach => ?_⟩, hholds⟩
  · obtain ⟨p, hp, hreach⟩ := hm.sound x hx
    exact ⟨p, hp, h.of_reach (hholds x hx).2 (hps p hp) hreach⟩
  · rw [h.reach_iff (hholds x hx) (hps sp hsp)]
    exact hm.apart x hx
  · rcases h.holds_or (hps p hp) hreach with hx | hbelow
    · rw [h.reach_iff hx (hps sp hsp)]
      exact hm.complete x p hp ((h.reach_iff hx (hps p hp)).mp hreach)
    · exact Or.inl (hbelow.trans (h.root_reach (hps sp hsp)))

/-- Above the root the order is the same. -/
theorem orderTo (h : Tail fr k genesis root e e') (ho : OrderTo e' b order) (hb : e'.Holds b) :
    ∃ rest, order = root :: rest ∧
      ∀ front, OrderTo e root front → OrderTo e b (front ++ rest) := by
  have hgenesis := h.whole.grown.ready_best.1.genesis
  have hgenesis' := h.above.grown.ready_best.1.genesis
  induction ho with
  | genesis =>
    refine ⟨[], by rw [hgenesis'], fun front hfront => ?_⟩
    rw [hgenesis', List.append_nil]
    exact hfront
  | @step b d' front m hne hd' _ hmerge hsorted ih =>
    have hroot : b ≠ root := hgenesis' ▸ hne
    obtain ⟨d, hd⟩ := mem_blocks.mp (h.known hb).1
    have hshift := h.data hb hroot hd hd'
    have hps : ∀ p ∈ e'.dag.parents b, e'.Holds p := fun p hp => h.above.holds_parent hroot hp
    have hsp := h.above.grown.ready_best.1.selected hd' hb.2
    obtain ⟨rest, rfl, hrest⟩ := ih (hps _ hsp)
    obtain ⟨hmerge, hholds⟩ := h.mergeset hps hsp hmerge
    rw [h.parents hb hroot] at hmerge
    refine ⟨rest ++ (m ++ [b]), by simp, fun front hfront => ?_⟩
    have hb' : b ≠ e.genesis := by
      rintro rfl
      rw [hgenesis] at hroot hb
      exact hroot (h.whole.eq_genesis h.above.genesis_holds.2 (h.root_reach hb)).symm
    rw [← List.append_assoc]
    refine .step hb' hd ?_ ?_ ?_
    · rw [hshift.selectedParent]
      exact hrest front hfront
    · rw [hshift.selectedParent]
      exact hmerge
    · apply hsorted.imp_of_mem
      intro x y hx hy hle
      exact (h.key_le (hholds x hx) (hholds y hy)).mpr hle

/-- If the new engine has the tip, it has it as its tip. -/
theorem tip (h : Tail fr k genesis root e e') (htip : e'.Holds e.tip) : e'.tip = e.tip := by
  have best := h.whole.grown.ready_best.2
  have best' := h.above.grown.ready_best.2
  have hmem : e'.Holds e'.tip := ⟨best'.mem, best'.ne⟩
  have hle := (h.key_le hmem htip).mp (best.max (h.known hmem).1 hmem.2)
  exact congrArg SortableBlock.hash (SortableBlock.le_antisymm hle (best'.max htip.1 htip.2))

/-- The selected chain from a block above the root leads to the root. -/
theorem onChain (h : Tail fr k genesis root e e') (hb : e'.Holds b) : e.dag.OnChain root b := by
  have inv := h.above.grown.ready_best.1
  induction hw : e'.work b using Nat.strong_induction_on generalizing b with
  | _ w ih =>
    by_cases hroot : b = root
    · rw [hroot]
      exact .refl
    · obtain ⟨d, hd⟩ := mem_blocks.mp (h.known hb).1
      obtain ⟨d', hd'⟩ := mem_blocks.mp hb.1
      have hparent := inv.selected hd' hb.2
      have hsp := h.above.holds_parent hroot hparent
      rw [onChain_iff hb.2 hd, (h.data hb hroot hd hd').selectedParent]
      exact Or.inr (ih _ (hw ▸ inv.work hparent hsp.2) hsp rfl)

/-- The total order of the new engine is that of the old one from the root on. -/
theorem totalOrder (h : Tail fr k genesis root e e') (htip : e'.Holds e.tip)
    (horder : e.totalOrder = .ok order)
    (horder' : e'.totalOrder = .ok order') :
    ∃ before rest, order = before ++ root :: rest ∧ order' = root :: rest ∧
      OrderTo e root (before ++ [root]) ∧ ∀ x ∈ before, Past e.dag.parents x root := by
  have hroot := h.above.genesis_holds.2
  obtain ⟨front, rest, hsplit, hfront, _⟩ :=
    (h.whole.orderTo.post horder).split h.whole (h.known htip).2 (h.onChain htip) hroot
  have hnew := h.above.orderTo.post horder'
  rw [h.tip htip] at hnew
  obtain ⟨rest', rfl, hrest⟩ := h.orderTo hnew htip
  have hsame := (h.whole.orderTo.post horder).unique (hrest front hfront)
  rw [hsplit, List.append_cancel_left_eq] at hsame
  subst hsame
  obtain ⟨before, rfl, hpast⟩ := hfront.last h.whole hroot
  exact ⟨before, rest, by simp [hsplit], rfl, hfront, hpast⟩

end Order

end Tail

end TaoDag.Ghostdag.DagEngine
