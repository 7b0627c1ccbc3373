import TaoDag.Ghostdag.Cluster

namespace TaoDag.Ghostdag

open BlockDag KCluster

namespace DagEngine

variable {e e' : DagEngine} {b c x y h sp : Hash} {l parents : List Hash} {d d' : GhostdagData}
  {S : Finset Hash}

theorem Added.ne_origin (ha : Added e e' b parents d) (inv : e.Inv) : b ≠ blockhash.origin := fun h => ha.new (h ▸ inv.origin_mem)

theorem Added.blocks (ha : Added e e' b parents d) (inv : e.Inv) :
    e'.dag.blocks = insert b e.dag.blocks := by
  rw [ha.dag (ha.ne_origin inv)]
  rfl

theorem Added.parents_eq (ha : Added e e' b parents d) (inv : e.Inv) :
    e'.dag.parents = Function.update e.dag.parents b parents := by
  rw [ha.dag (ha.ne_origin inv)]
  rfl

theorem Added.selectedParent (ha : Added e e' b parents d) (inv : e.Inv) (hy : y ≠ b) :
    e'.dag.selectedParent y = e.dag.selectedParent y := by
  rw [ha.dag (ha.ne_origin inv)]
  exact Function.update_of_ne hy _ _

theorem Added.ne_of_mem (ha : Added e e' b parents d) (hy : y ∈ e.dag.blocks) : y ≠ b := fun h => ha.new (h ▸ hy)

theorem Added.reach_iff (ha : Added e e' b parents d) (inv : e.Inv) (hy : y ∈ e.dag.blocks) :
   
    Reach e'.dag.parents x y ↔ Reach e.dag.parents x y := by
  rw [ha.parents_eq inv]
  exact inv.index.dag.reach_update ha.new hy

theorem Added.past_iff (ha : Added e e' b parents d) (inv : e.Inv) (hy : y ∈ e.dag.blocks) :
   
    Past e'.dag.parents x y ↔ Past e.dag.parents x y := by
  rw [ha.parents_eq inv]
  exact inv.index.dag.past_update ha.new hy

theorem Added.anticone_iff (ha : Added e e' b parents d) (inv : e.Inv) (hx : x ∈ e.dag.blocks)
    (hy : y ∈ e.dag.blocks) :
    Anticone e'.dag.parents x y ↔ Anticone e.dag.parents x y := by
  rw [ha.parents_eq inv]
  exact inv.index.dag.anticone_update ha.new hx hy

/-- The selected chain of an old block is the old one. -/
theorem Added.onChain_iff (ha : Added e e' b parents d) (inv : e.Inv) (hy : y ∈ e.dag.blocks) :
    e'.dag.OnChain c y ↔ e.dag.OnChain c y := by
  have hmem : ∀ {p q}, e.dag.selectedParent q = some p → p ∈ e.dag.blocks := by
    intro p q hq
    rw [← inv.index.nodes]
    exact inv.index.store.tree.tree.mem_of_kid (inv.index.kids.mpr hq)
  constructor
  · intro hc
    induction hc with
    | refl => exact .refl
    | @tail p q _ hq ih =>
      rw [ha.selectedParent inv (ha.ne_of_mem hy)] at hq
      exact (ih (hmem hq)).tail hq
  · intro hc
    induction hc with
    | refl => exact .refl
    | @tail p q _ hq ih =>
      refine (ih (hmem hq)).tail ?_
      rwa [ha.selectedParent inv (ha.ne_of_mem hy)]

theorem Inv.chain_mem (inv : e.Inv) (hy : y ∈ e.dag.blocks) (hc : e.dag.OnChain c y) :
    c ∈ e.dag.blocks := by
  rw [← inv.index.nodes] at hy ⊢
  exact inv.index.store.tree.tree.mem_anc (inv.index.onChain_iff.mp hc) hy

theorem Added.antiCount_eq (ha : Added e e' b parents d) (inv : e.Inv)
    (hS : ∀ y ∈ S, y ∈ e.dag.blocks) (hx : x ∈ e.dag.blocks) : e'.antiCount S x = e.antiCount S x :=
  count_congr fun y hy => ha.anticone_iff inv hx (hS y hy)

theorem Added.chainSize (ha : Added e e' b parents d) {sizes : BlockHashMap Nat} {n : Nat}
    (h : ChainSize e x sizes sp n) : ChainSize e' x sizes sp n := by
  induction h with
  | here found => exact .here found
  | @up sizes sp d n absent genesis origin data above ih =>
    refine .up absent (by rwa [ha.genesis]) origin ?_ ih
    rwa [ha.lookup_of_ne (ha.ne_of_mem (mem_blocks.mpr ⟨d, data⟩))]

theorem ColourInv.known (inv : e.ColourInv) (hd : e.gd.lookup b = some d) (hx : x ∈ d.mergesetBlues) :
    x ∈ e.dag.blocks := by
  by_cases hor : b = blockhash.origin
  · rw [hor, inv.origin] at hd
    cases hd
    cases hx
  · exact (inv.coloured hd hor).known x hx

theorem Added.blue_eq (ha : Added e e' b parents d) (inv : e.ColourInv) (hy : y ∈ e.dag.blocks) :
    e'.blue y = e.blue y := by
  ext x
  rw [mem_blue, mem_blue]
  constructor
  · rintro ⟨_, hne, c, d', hc, hd', hx⟩
    rw [ha.onChain_iff inv.toInv hy] at hc
    have hcm := inv.chain_mem hy hc
    rw [ha.lookup_of_ne (ha.ne_of_mem hcm)] at hd'
    exact ⟨inv.known hd' hx, hne, c, d', hc, hd', hx⟩
  · rintro ⟨hx, hne, c, d', hc, hd', hxd⟩
    refine ⟨?_, hne, c, d', (ha.onChain_iff inv.toInv hy).mpr hc, ?_, hxd⟩
    · rw [ha.blocks inv.toInv]
      exact Finset.mem_insert_of_mem hx
    · rwa [ha.lookup_of_ne (ha.ne_of_mem (inv.chain_mem hy hc))]

/-- A new block changes nothing in the colouring of another one. -/
theorem Coloured.old (hc : Coloured e y d') (ha : Added e e' b parents d) (inv : e.ColourInv)
    (hy : y ∈ e.dag.blocks) : Coloured e' y d' := by
  have hblue : ∀ x ∈ e.blue y, x ∈ e.dag.blocks := fun x hx => (mem_blue.mp hx).1
  have hsp : d'.selectedParent ∈ e.dag.blocks := by
    obtain ⟨blues, hblues⟩ := hc.head
    exact hc.known _ (by simp [hblues])
  refine ⟨hc.head, fun x hx => ?_, fun x hx => ?_, hc.nodup, ?_, fun x hx => ?_, ?_, fun x => ?_,
    hc.merged_nodup⟩
  · rw [ha.blocks inv.toInv]
    exact Finset.mem_insert_of_mem (hc.known x hx)
  · rw [ha.blue_eq inv hy] at hx
    rw [ha.past_iff inv.toInv hy]
    exact hc.past x hx
  · rw [ha.blue_eq inv hy, ha.k]
    exact hc.cluster.congr fun x hx z hz =>
      (ha.anticone_iff inv.toInv (hblue x hx) (hblue z hz)).symm
  · rw [ha.blue_eq inv hy] at hx ⊢
    rw [ha.antiCount_eq inv.toInv hblue (hblue x hx)]
    exact ha.chainSize (hc.sizes x hx)
  · rw [ha.blue_eq inv hy]
    exact hc.score
  · rw [hc.merged, ha.past_iff inv.toInv hy, ha.reach_iff inv.toInv hsp]

/-- What the mergeset of a new block over an antichain holds. -/
theorem IsData.mem_merged (hd : IsData e parents d) (hanti : e.Antichain parents) :
    x ∈ d.unorderedMergesetWithoutSelectedParent ↔
      (∃ p ∈ parents, Reach e.dag.parents x p) ∧ ¬Reach e.dag.parents x d.selectedParent := by
  constructor
  · intro hx
    exact ⟨hd.mergeset.sound x hx, (hd.mergeset.anticone hanti hd.mem hx).1⟩
  · rintro ⟨⟨p, hp, hxp⟩, hx⟩
    exact (hd.mergeset.complete x p hp hxp).resolve_left hx

theorem Inv.eq_origin (inv : e.Inv) (h : Reach e.dag.parents x blockhash.origin) :
    x = blockhash.origin := by
  rcases BlockDag.reach_iff.mp h with h | h
  · exact h
  · obtain ⟨p, hp, _⟩ := BlockDag.past_iff.mp h
    rw [inv.parents_origin] at hp
    cases hp

theorem Added.past_self (ha : Added e e' b parents d) (inv : e.Inv)
    (hknown : ∀ p ∈ parents, p ∈ e.dag.blocks) :
    Past e'.dag.parents x b ↔ ∃ p ∈ parents, Reach e.dag.parents x p := by
  rw [ha.parents_eq inv]
  exact inv.index.dag.past_update_self ha.new hknown

/-- A child of ORIGIN merges nothing, and has no blues. -/
theorem Coloured.ofOrigin (ha : Added e e' b parents d) (inv : e.ColourInv)
    (hd : IsData e parents d) (hanti : e.Antichain parents)
    (hsp : d.selectedParent = blockhash.origin) : Coloured e' b d := by
  have halone := hanti.originAlone inv.toInv hd.known (hsp ▸ hd.mem)
  have hnone : ∀ x, ¬((∃ p ∈ parents, Reach e.dag.parents x p) ∧
      ¬Reach e.dag.parents x d.selectedParent) := by
    rintro x ⟨⟨p, hp, hx⟩, hnot⟩
    rw [halone p hp, ← hsp] at hx
    exact hnot hx
  have hmerged : d.unorderedMergesetWithoutSelectedParent = [] :=
    List.eq_nil_iff_forall_not_mem.mpr fun x hx => hnone x ((hd.mem_merged hanti).mp hx)
  obtain ⟨blues, hblues⟩ := hd.blues
  have hnil : blues = [] := by
    rw [GhostdagData.unorderedMergesetWithoutSelectedParent, hblues] at hmerged
    exact (List.append_eq_nil_iff.mp hmerged).1
  rw [hnil] at hblues
  have hmem : blockhash.origin ∈ e'.dag.blocks := by
    rw [ha.blocks inv.toInv]
    exact Finset.mem_insert_of_mem inv.origin_mem
  have hknown : ∀ x ∈ d.mergesetBlues, x ∈ e'.dag.blocks := by
    intro x hx
    rw [hblues, List.mem_singleton] at hx
    rw [hx, hsp]
    exact hmem
  have hblue : e'.blue b = ∅ := by
    refine Finset.eq_empty_of_forall_notMem fun x hx => ?_
    rcases (mem_blue_iff (ha.ne_origin inv.toInv) ha.lookup_self hknown).mp hx with ⟨hx, hne⟩ | hx
    · rw [hblues, List.mem_singleton] at hx
      exact hne (hx.trans hsp)
    · rw [hsp, ha.blue_eq inv inv.origin_mem, inv.blue_origin] at hx
      cases hx
  have hempty : ∀ x, x ∉ e'.blue b := by simp [hblue]
  refine ⟨⟨[], hblues⟩, hknown, fun x hx => absurd hx (hempty x), ?_,
    fun x hx => absurd hx (hempty x), fun x hx => absurd hx (hempty x), ?_, fun x => ?_, ?_⟩
  · rw [hblues]
    exact List.nodup_singleton _
  · rw [hblue, (hd.origin hsp).2]
    rfl
  · rw [hd.mem_merged hanti, ha.past_self inv.toInv hd.known, ha.reach_iff inv.toInv
      (hd.known _ hd.mem)]
  · exact hd.mergeset.nodup

theorem Coloured.ofColoring (ha : Added e e' b parents d) (inv : e.ColourInv)
    (hd : IsData e parents d) (hanti : e.Antichain parents) {m : List Hash}
    (hm : Candidates e d.selectedParent m) (hcol : Coloring e d.selectedParent m d) :
    Coloured e' b d := by
  obtain ⟨⟨blues, hblues, hgreedy, hs⟩, _⟩ := hcol
  set sp := d.selectedParent with hsp
  set S := e.baseBlues sp ∪ blues.toFinset with hS
  have hmerged : d.unorderedMergesetWithoutSelectedParent = blues ++ d.mergesetReds := by
    rw [GhostdagData.unorderedMergesetWithoutSelectedParent, hblues]
    rfl
  have hspm : sp ∈ e.dag.blocks := hm.selected
  have hknown : ∀ x ∈ d.mergesetBlues, x ∈ e.dag.blocks := by
    intro x hx
    rw [hblues, List.mem_cons] at hx
    rcases hx with rfl | hx
    · exact hspm
    · exact hm.known x (hgreedy.subset x hx)
  have hknown' : ∀ x ∈ d.mergesetBlues, x ∈ e'.dag.blocks := fun x hx => by
    rw [ha.blocks inv.toInv]
    exact Finset.mem_insert_of_mem (hknown x hx)
  have hblue : e'.blue b = S := by
    ext x
    rw [mem_blue_iff (ha.ne_origin inv.toInv) ha.lookup_self hknown', ← hsp,
      ha.blue_eq inv hspm, hs.members]
    refine or_congr_left ⟨And.left, fun hx => ⟨hx, ?_⟩⟩
    exact hs.above x ((hs.members x).mpr (Or.inl hx))
  have hSmem : ∀ x ∈ S, x ∈ e.dag.blocks := by
    intro x hx
    rcases (hs.members x).mp hx with hx | hx
    · exact hknown x hx
    · exact (mem_blue.mp hx).1
  have hset : S = d.mergesetBlues.toFinset ∪ e.blue sp := by
    ext x
    rw [hs.members, Finset.mem_union, List.mem_toFinset]
  refine ⟨⟨blues, hblues⟩, hknown', fun x hx => ?_, hs.nodup, ?_, fun x hx => ?_, ?_, fun x => ?_,
    hd.mergeset.nodup⟩
  · rw [hblue] at hx
    rw [ha.past_self inv.toInv hd.known]
    rcases Finset.mem_union.mp hx with hx | hx
    · exact ⟨sp, hd.mem, inv.base_reach hspm hx⟩
    · refine ((hd.mem_merged hanti).mp ?_).1
      rw [hmerged]
      exact List.mem_append_left _ (List.mem_toFinset.mp hx)
  · rw [hblue, ha.k]
    exact hs.cluster.congr fun x hx y hy =>
      (ha.anticone_iff inv.toInv (hSmem x hx) (hSmem y hy)).symm
  · rw [hblue] at hx ⊢
    rw [ha.antiCount_eq inv.toInv hSmem (hSmem x hx)]
    exact ha.chainSize (hs.sizes x hx)
  · obtain ⟨spd, hspd⟩ := mem_blocks.mp hspm
    have hscore : e.score sp = (e.blue sp).card := by
      rw [DagEngine.score, hspd]
      exact (inv.coloured hspd hm.origin).score
    have hdisj : Disjoint d.mergesetBlues.toFinset (e.blue sp) :=
      Finset.disjoint_left.mpr fun x hx => hs.disjoint x (List.mem_toFinset.mp hx)
    rw [hblue, hset, Finset.card_union_of_disjoint hdisj, List.toFinset_card_of_nodup hs.nodup,
      (hd.work hm.origin).2, hscore, Nat.add_comm]
  · rw [hd.mem_merged hanti, ha.past_self inv.toInv hd.known, ha.reach_iff inv.toInv hspm]

theorem new_colourInv {k : Nat} {genesis : Hash} :
    Returns False (DagEngine.new k genesis) (fun e =>
      e.ColourInv ∧ e.k = k ∧ e.dag = Reachability.Dag.origin) := by
  refine new_spec.mono fun e he => ?_
  obtain ⟨inv, hdag, hgenesis, hk, htip⟩ := he
  have honly : ∀ {c d}, e.gd.lookup c = some d → c = blockhash.origin := by
    intro c d hc
    have hmem : c ∈ e.dag.blocks := mem_blocks.mpr ⟨d, hc⟩
    rw [hdag] at hmem
    exact Finset.mem_singleton.mp hmem
  refine ⟨⟨inv, fun hd hne => absurd (honly hd) hne, ?_, Or.inr ⟨?_, ?_⟩⟩, hk, hdag⟩
  · refine Finset.eq_empty_of_forall_notMem fun x hx => ?_
    obtain ⟨_, _, c, d, _, hd, hxd⟩ := mem_blue.mp hx
    rw [honly hd, inv.origin] at hd
    cases hd
    cases hxd
  · rw [htip, hgenesis]
  · rw [hdag]
    rfl

/-- A block over an antichain is coloured, and the colours of the others stay. -/
theorem addBlock_coloured (fr : Reachability.Interval.Fractions) (inv : e.ColourInv)
    (hk : e.k < kTypeMax) (hanti : e.Antichain parents) :
    Returns False (e.addBlock fr b parents) (fun e' => ∃ d,
      IsData e parents d ∧ Added e e' b parents d ∧ e'.ColourInv ∧
      (d.selectedParent ≠ blockhash.origin →
        ∃ m, Candidates e d.selectedParent m ∧ Coloring e d.selectedParent m d)) := by
  refine (addBlock_spec fr inv.toInv (hanti.originAlone inv.toInv)).mono fun e' he' => ?_
  obtain ⟨d, hrun, hd, ha, inv'⟩ := he'
  have hcol := (ghostdag_coloring inv hk hanti).post hrun
  have hnew : Coloured e' b d := by
    by_cases hsp : d.selectedParent = blockhash.origin
    · exact .ofOrigin ha inv hd hanti hsp
    · obtain ⟨m, hm, hc⟩ := hcol hsp
      exact .ofColoring ha inv hd hanti hm hc
  have hcoloured : ∀ {y d'}, e'.gd.lookup y = some d' → y ≠ blockhash.origin → Coloured e' y d' := by
    intro y d' hd' hne
    by_cases hy : y = b
    · subst hy
      rw [ha.lookup_self] at hd'
      cases hd'
      exact hnew
    · rw [ha.lookup_of_ne hy] at hd'
      exact (inv.coloured hd' hne).old ha inv (mem_blocks.mpr ⟨d', hd'⟩)
  refine ⟨d, hd, ha, ⟨inv', hcoloured, ?_, Or.inl ?_⟩, hcol⟩
  · rw [ha.genesis]
    rcases inv.start with hg | ⟨htip, hblocks⟩
    · rw [ha.blue_eq inv hg]
      exact inv.genesis
    · -- The first block is the genesis block, as the tip must be stored.
      have hmem := ha.tip_mem
      rw [htip, ha.blocks inv.toInv, Finset.mem_insert] at hmem
      rcases hmem with hg | hg
      · have hsp := hd.known _ hd.mem
        rw [hblocks, Finset.mem_singleton] at hsp
        have hscore := hnew.score
        rw [(hd.origin hsp).2] at hscore
        rw [hg]
        exact Finset.card_eq_zero.mp hscore.symm
      · rw [ha.blue_eq inv hg]
        exact inv.genesis
  · rw [ha.genesis, ha.blocks inv.toInv]
    rcases inv.start with hg | ⟨htip, _⟩
    · exact Finset.mem_insert_of_mem hg
    · have hmem := ha.tip_mem
      rwa [htip, ha.blocks inv.toInv] at hmem

/-- The engines that `add_block` calls lead to, each block over an antichain. -/
inductive Fed (fr : Reachability.Interval.Fractions) (k : Nat) (genesis : Hash) : DagEngine → Prop
  | new {e : DagEngine} (run : DagEngine.new k genesis = .ok e) : Fed fr k genesis e
  | add {e e' : DagEngine} {b : Hash} {parents : List Hash} (before : Fed fr k genesis e)
      (antichain : e.Antichain parents) (run : e.addBlock fr b parents = .ok e') :
      Fed fr k genesis e'

theorem Fed.inv {fr : Reachability.Interval.Fractions} {k : Nat} {genesis : Hash}
    (h : Fed fr k genesis e) (hk : k < kTypeMax) : e.ColourInv ∧ e.k = k := by
  induction h with
  | new run =>
    have h := new_colourInv.post run
    exact ⟨h.1, h.2.1⟩
  | add before antichain run ih =>
    obtain ⟨inv, hek⟩ := ih
    obtain ⟨d, hd, ha, inv', _⟩ := (addBlock_coloured fr inv (hek ▸ hk) antichain).post run
    exact ⟨inv', ha.k.trans hek⟩

/-- The walk that looks a size up is no longer than the selected chain. -/
theorem ChainSize.total (inv : e.Inv) {sizes : BlockHashMap Nat} {n fuel : Nat}
    (h : ChainSize e x sizes sp n) (hsp : sp ∈ e.dag.blocks)
    (hfuel : e.reach.depth sp < fuel + e.reach.depth blockhash.origin) :
    e.manager.blueAnticoneSizeLoop x (fuel + 1) sizes sp = .ok n := by
  induction h generalizing fuel with
  | here found =>
    rw [GhostdagManager.blueAnticoneSizeLoop, found]
  | @up sizes sp d n absent genesis origin data above ih =>
    have hselected : e.dag.selectedParent sp = some d.selectedParent := by
      change (if sp = blockhash.origin then none else (e.gd.lookup sp).map (·.selectedParent)) = _
      rw [if_neg origin, data]
      rfl
    have t := inv.index.store.tree.tree
    have hkid := inv.index.kids.mpr hselected
    have hparent : d.selectedParent ∈ e.reach.nodes := t.mem_of_kid hkid
    have hdepth := t.depth_succ hkid
    have hroot := t.depth_le (t.reach hparent)
    obtain ⟨fuel, rfl⟩ : ∃ f, fuel = f + 1 := ⟨fuel - 1, by omega⟩
    have hstop : ¬(sp = e.manager.genesisHash ∨ sp = blockhash.origin) :=
      not_or.mpr ⟨genesis, origin⟩
    have hdata : unwrap (e.manager.getData sp) = .ok d := by
      change unwrap (e.getData sp) = _
      rw [getData, data]
      rfl
    rw [GhostdagManager.blueAnticoneSizeLoop, absent]
    simp only [hstop, if_false]
    rw [hdata]
    exact ih (inv.index.nodes ▸ hparent) (by omega)

theorem ColourInv.blueAnticoneSize (inv : e.ColourInv) (hd : e.gd.lookup b = some d)
    (hb : b ≠ blockhash.origin) (hx : x ∈ e.blue b) :
    e.manager.blueAnticoneSize x d = .ok (e.antiCount (e.blue b) x) := by
  have hc := inv.coloured hd hb
  have hsp : d.selectedParent ∈ e.dag.blocks := by
    obtain ⟨blues, hblues⟩ := hc.head
    exact hc.known _ (by simp [hblues])
  refine (hc.sizes x hx).total inv.toInv hsp ?_
  have hlt := inv.index.store.tree.tree.depth_lt_card (inv.index.nodes ▸ hsp)
  rw [inv.index.nodes, card_blocks] at hlt
  change _ < e.gd.entries.length + _
  omega

/-- The `k`-cluster invariant: every member of the blue set of a block has at most `k` others in
its anticone, `blue_anticone_size` returns their number, the blue score counts the set, and the
colours split what the block merges. -/
theorem cluster_exact {fr : Reachability.Interval.Fractions} {k : Nat} {genesis : Hash}
    (h : Fed fr k genesis e) (hk : k < kTypeMax) (hd : e.gd.lookup b = some d)
    (hb : b ≠ blockhash.origin) :
    (∀ x ∈ e.blue b, (anticone (Anticone e.dag.parents) (e.blue b) x).card ≤ k ∧
      e.manager.blueAnticoneSize x d =
        .ok (anticone (Anticone e.dag.parents) (e.blue b) x).card) ∧
    d.blueScore = (e.blue b).card ∧
    ∃ blues, d.mergesetBlues = d.selectedParent :: blues ∧ (blues ++ d.mergesetReds).Nodup ∧
      ∀ x, x ∈ blues ++ d.mergesetReds ↔
        Past e.dag.parents x b ∧ ¬Reach e.dag.parents x d.selectedParent := by
  obtain ⟨inv, hek⟩ := h.inv hk
  have hc := inv.coloured hd hb
  refine ⟨fun x hx => ⟨hek ▸ hc.cluster x hx, inv.blueAnticoneSize hd hb hx⟩, hc.score, ?_⟩
  obtain ⟨blues, hblues⟩ := hc.head
  have hmerged : d.unorderedMergesetWithoutSelectedParent = blues ++ d.mergesetReds := by
    rw [GhostdagData.unorderedMergesetWithoutSelectedParent, hblues]
    rfl
  refine ⟨blues, hblues, ?_, fun x => ?_⟩
  · rw [← hmerged]
    exact hc.merged_nodup
  · rw [← hmerged]
    exact hc.merged x

theorem antichain_singleton (p : Hash) : e.Antichain [p] := by
  intro q hq r hr hne
  rw [List.mem_singleton] at hq hr
  exact absurd (hq.trans hr.symm) hne

/-- A genesis block and its child. -/
theorem fed_child :
    ∃ e d, Fed (fun _ _ _ => 0) 3 1 e ∧ e.gd.lookup 2 = some d ∧ d.mergesetBlues = [1] := by
  have hrun : returnsWith (DagEngine.new 3 1 >>= fun e =>
      e.addBlock (fun _ _ _ => 0) 1 [blockhash.origin] >>= fun e =>
        e.addBlock (fun _ _ _ => 0) 2 [1])
      (fun e => (e.gd.lookup 2).any fun d => d.mergesetBlues == [1]) = true := by
    decide +kernel
  obtain ⟨e, he, hblues⟩ := returnsWith_iff.mp hrun
  obtain ⟨e₀, hnew, he⟩ := bind_eq_ok.mp he
  obtain ⟨e₁, hgenesis, hchild⟩ := bind_eq_ok.mp he
  rw [Option.any_eq_true] at hblues
  obtain ⟨d, hd, hb⟩ := hblues
  exact ⟨e, d, .add (.add (.new hnew) (antichain_singleton _) hgenesis) (antichain_singleton _)
    hchild, hd, beq_iff_eq.mp hb⟩

theorem cluster_exact_child :
    ∃ e d, Fed (fun _ _ _ => 0) 3 1 e ∧ e.gd.lookup 2 = some d ∧ d.mergesetBlues = [1] ∧
      (∀ x ∈ e.blue 2, (anticone (Anticone e.dag.parents) (e.blue 2) x).card ≤ 3 ∧
        e.manager.blueAnticoneSize x d =
          .ok (anticone (Anticone e.dag.parents) (e.blue 2) x).card) ∧
      d.blueScore = (e.blue 2).card := by
  obtain ⟨e, d, hfed, hd, hb⟩ := fed_child
  have h := cluster_exact hfed (by decide) hd (by decide)
  exact ⟨e, d, hfed, hd, hb, h.1, h.2.1⟩

end DagEngine

end TaoDag.Ghostdag
