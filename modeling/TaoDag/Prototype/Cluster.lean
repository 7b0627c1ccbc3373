import TaoDag.Framework.KCluster
import TaoDag.Prototype.Order

namespace TaoDag.Prototype.Dag

open BlockDag KCluster

variable {dag dag' : Dag} {k : Nat} {genesis b c x y sp : BlockId} {node : Node}
  {m accepted blues reds ps : List BlockId}

theorem Inv.isAnticone_iff (inv : dag.Inv) :
    dag.isAnticone x c = true ↔ Anticone dag.parents c x := by
  rw [isAnticone, decide_eq_true_eq, inv.past, inv.past, Anticone, reach_iff, reach_iff]
  constructor
  · rintro ⟨hne, h, h'⟩
    exact ⟨fun hcx => hcx.elim (fun heq => hne heq.symm) h', fun hxc => hxc.elim hne h⟩
  · rintro ⟨h, h'⟩
    exact ⟨fun heq => h' (Or.inl heq), fun hp => h' (Or.inr hp), fun hp => h (Or.inr hp)⟩

theorem Inv.length_filter (inv : dag.Inv) (hnodup : accepted.Nodup) :
    (accepted.filter fun x => dag.isAnticone x c).length =
      count (Anticone dag.parents) accepted.toFinset c := by
  have hset : (accepted.filter fun x => dag.isAnticone x c).toFinset =
      anticone (Anticone dag.parents) accepted.toFinset c := by
    ext x
    rw [List.mem_toFinset, List.mem_filter, inv.isAnticone_iff, mem_anticone, List.mem_toFinset]
  rw [count, ← hset, List.toFinset_card_of_nodup (hnodup.filter _)]

/-- The two checks of the loop are the greedy rule. -/
theorem Inv.admits (inv : dag.Inv) (hnodup : accepted.Nodup)
    (h1 : ¬dag.k < (accepted.filter fun x => dag.isAnticone x c).length)
    (h2 : (accepted.filter fun x => dag.isAnticone x c).all fun x =>
      (accepted.filter fun y => dag.isAnticone y x).length + 1 ≤ dag.k) :
    Admits (Anticone dag.parents) dag.k accepted.toFinset c := by
  rw [inv.length_filter hnodup] at h1
  refine ⟨Nat.le_of_not_lt h1, fun x hx hanti => ?_⟩
  have hmem : x ∈ accepted.filter fun x => dag.isAnticone x c :=
    List.mem_filter.mpr ⟨List.mem_toFinset.mp hx, inv.isAnticone_iff.mpr hanti⟩
  have hroom := of_decide_eq_true (List.all_eq_true.mp h2 x hmem)
  rw [inv.length_filter hnodup] at hroom
  exact hroom

/-- The loop adds to a cluster only what keeps it one. -/
theorem Inv.classify_cluster (inv : dag.Inv) (hnodup : (accepted ++ m).Nodup)
    (hcluster : IsCluster (Anticone dag.parents) dag.k accepted.toFinset)
    (blues reds : List BlockId) :
    ∃ added, (dag.classify m accepted blues reds).1 = blues ++ added ∧
      (accepted ++ added).Nodup ∧ (∀ x ∈ added, x ∈ m) ∧
      IsCluster (Anticone dag.parents) dag.k (accepted ++ added).toFinset := by
  induction m generalizing accepted blues reds with
  | nil =>
    exact ⟨[], by simp [classify], by simpa using hnodup, by simp, by simpa using hcluster⟩
  | cons c rest ih =>
    have hsub : (accepted ++ rest).Nodup :=
      hnodup.sublist ((List.sublist_cons_self c rest).append_left accepted)
    have hred := ih hsub hcluster blues (reds ++ [c])
    have hred' : ∃ added, (dag.classify rest accepted blues (reds ++ [c])).1 = blues ++ added ∧
        (accepted ++ added).Nodup ∧ (∀ x ∈ added, x ∈ c :: rest) ∧
        IsCluster (Anticone dag.parents) dag.k (accepted ++ added).toFinset := by
      obtain ⟨added, h1, h2, h3, h4⟩ := hred
      exact ⟨added, h1, h2, fun x hx => List.mem_cons_of_mem c (h3 x hx), h4⟩
    rw [classify]
    split_ifs with h1 h2
    · exact hred'
    · have hacc := hnodup.sublist (List.sublist_append_left accepted (c :: rest))
      have hfresh : c ∉ accepted := fun hc =>
        (List.nodup_append.mp hnodup).2.2 c hc c List.mem_cons_self rfl
      have hnodup' : (accepted ++ [c] ++ rest).Nodup := by simpa using hnodup
      have hgrown : IsCluster (Anticone dag.parents) dag.k (accepted ++ [c]).toFinset := by
        have hset : (accepted ++ [c]).toFinset = insert c accepted.toFinset := by
          ext x
          simp
        rw [hset]
        exact hcluster.insert (inv.admits hacc h1 h2) (by simpa using hfresh) Anticone.irrefl
          Anticone.symm
      obtain ⟨added, h3, h4, h5, h6⟩ := ih hnodup' hgrown (blues ++ [c]) reds
      refine ⟨c :: added, ?_, ?_, ?_, ?_⟩
      · rw [h3, List.append_assoc, List.singleton_append]
      · rwa [List.append_assoc, List.singleton_append] at h4
      · intro x hx
        exact List.mem_cons.mpr ((List.mem_cons.mp hx).imp_right (h5 x))
      · rwa [List.append_assoc, List.singleton_append] at h6
    · exact hred'

/-- The blue set of a block: itself and blues of its past, a cluster. -/
structure Blues (dag : Dag) (b : BlockId) (blueSet : List BlockId) : Prop where
  nodup : blueSet.Nodup
  self : b ∈ blueSet
  reach : ∀ x ∈ blueSet, Reach dag.parents x b
  cluster : IsCluster (Anticone dag.parents) dag.k blueSet.toFinset

theorem Inv.blueSet_fresh (inv : dag.Inv) (hnodup : node.past.Nodup)
    (hsp : Blues dag sp (dag.blueSetOf sp))
    (hm : m.Perm (node.past.filter fun x => x ≠ sp ∧ x ∉ dag.pastOf sp)) :
    (dag.blueSetOf sp ++ m).Nodup := by
  refine hsp.nodup.append (hm.nodup_iff.mpr (hnodup.filter _)) fun x hx hxm => ?_
  have hout := (List.mem_filter.mp (hm.subset hxm)).2
  rw [decide_eq_true_eq, inv.past] at hout
  rcases reach_iff.mp (hsp.reach x hx) with heq | hpast
  · exact hout.1 heq
  · exact hout.2 hpast

/-- A block above a cluster joins it. -/
theorem cluster_above (h : IsCluster (Anticone dag.parents) k accepted.toFinset)
    (hb : b ∉ accepted) (hreach : ∀ x ∈ accepted, Reach dag.parents x b) :
    IsCluster (Anticone dag.parents) k (accepted ++ [b]).toFinset := by
  have hset : (accepted ++ [b]).toFinset = insert b accepted.toFinset := by
    ext x
    simp
  have hnone : ∀ x ∈ accepted.toFinset, ¬Anticone dag.parents b x := fun x hx hanti =>
    hanti.2 (hreach x (List.mem_toFinset.mp hx))
  have hcount : count (Anticone dag.parents) accepted.toFinset b = 0 := by
    rw [count, Finset.card_eq_zero, Finset.eq_empty_iff_forall_notMem]
    intro x hx
    obtain ⟨hmem, hanti⟩ := mem_anticone.mp hx
    exact hnone x hmem hanti
  rw [hset]
  refine h.insert ⟨by omega, fun x hx hanti => absurd hanti (hnone x hx)⟩ (by simpa using hb)
    Anticone.irrefl Anticone.symm

/-- A new block changes nothing about the blues of another. -/
theorem Blues.insert (inv : dag.Inv) (hb : b ∉ dag.nodes.keys.toFinset)
    (hc : c ∈ dag.nodes.keys.toFinset) (h : Blues dag c blues) :
    Blues { dag with nodes := dag.nodes.insert b node } c blues := by
  have hmem : ∀ x ∈ blues, x ∈ dag.nodes.keys.toFinset := fun x hx =>
    inv.isDag.mem_of_reach (h.reach x hx) hc
  refine ⟨h.nodup, h.self, fun x hx => ?_, ?_⟩
  · rw [parents_insert, inv.isDag.reach_update hb hc]
    exact h.reach x hx
  · rw [parents_insert]
    refine h.cluster.congr fun x hx y hy => ?_
    exact (inv.isDag.anticone_update hb (hmem x (List.mem_toFinset.mp hx))
      (hmem y (List.mem_toFinset.mp hy))).symm

/-- The new block has the blues of its selected parent, those it merges, and itself. -/
theorem Inv.blues_add (inv : dag.Inv) (run : dag.addBlock b ps = .ok dag')
    (hall : ∀ c node, dag.nodes.lookup c = some node → Blues dag c node.blueSet) :
    ∀ c node, dag'.nodes.lookup c = some node → Blues dag' c node.blueSet := by
  obtain ⟨hnew, hknown, node, rfl, hps, hpast, sp, hm, ⟨m, hperm, hloop⟩, hblue⟩ :=
    addBlock_spec run
  have hb : b ∉ dag.nodes.keys.toFinset := by
    intro hmem
    obtain ⟨n, hn⟩ := mem_keys.mp hmem
    rw [hnew] at hn
    cases hn
  intro c n hn
  by_cases hcb : c = b
  · subst hcb
    cases (AList.lookup_insert dag.nodes).symm.trans hn
    obtain ⟨selected, hselected⟩ := hknown sp (hps ▸ hm.mem)
    have hsp : Blues dag sp (dag.blueSetOf sp) := by
      rw [blueSetOf, hselected]
      exact hall sp selected hselected
    have hfresh := inv.blueSet_fresh (hpast ▸ unionPast_nodup) hsp hperm
    obtain ⟨added, hadded, hnodup, hmem, hcluster⟩ :=
      inv.classify_cluster hfresh hsp.cluster [] []
    obtain rfl : node.mergesetBlues = added := by
      rw [hloop] at hadded
      exact hadded
    -- what is blue for the new block is below one of its parents
    have hbelow : ∀ x ∈ dag.blueSetOf sp ++ node.mergesetBlues,
        ∃ p ∈ node.parents, Reach dag.parents x p := by
      intro x hx
      rcases List.mem_append.mp hx with hx | hx
      · exact ⟨sp, hm.mem, hsp.reach x hx⟩
      · have hin := (List.mem_filter.mp (hperm.subset (hmem x hx))).1
        rw [hpast, ← hps, inv.mem_unionPast] at hin
        exact hin
    have hkeys : ∀ p ∈ node.parents, p ∈ dag.nodes.keys.toFinset := fun p hp =>
      mem_keys.mpr (hknown p (hps ▸ hp))
    have hinside : ∀ x ∈ dag.blueSetOf sp ++ node.mergesetBlues, x ∈ dag.nodes.keys.toFinset := by
      intro x hx
      obtain ⟨p, hp, hreach⟩ := hbelow x hx
      exact inv.isDag.mem_of_reach hreach (hkeys p hp)
    have habove : ∀ x ∈ dag.blueSetOf sp ++ node.mergesetBlues,
        Reach (Dag.parents { dag with nodes := dag.nodes.insert c node }) x c := by
      intro x hx
      rw [parents_insert]
      exact ((inv.isDag.past_update_self hb hkeys).mpr (hbelow x hx)).reach
    have hnot : c ∉ dag.blueSetOf sp ++ node.mergesetBlues := fun hc => hb (hinside c hc)
    rw [hblue]
    refine ⟨hnodup.append (List.nodup_singleton c) (by simpa using hnot), by simp, ?_, ?_⟩
    · intro x hx
      rcases List.mem_append.mp hx with hx | hx
      · exact habove x hx
      · rw [List.mem_singleton.mp hx]
        exact .refl
    · refine cluster_above ?_ hnot habove
      rw [parents_insert]
      refine hcluster.congr fun x hx y hy => ?_
      exact (inv.isDag.anticone_update hb (hinside x (List.mem_toFinset.mp hx))
        (hinside y (List.mem_toFinset.mp hy))).symm
  · have hn' : dag.nodes.lookup c = some n := (AList.lookup_insert_ne hcb).symm.trans hn
    exact (hall c n hn').insert inv hb (mem_keys.mpr ⟨n, hn'⟩)

theorem blues_new (k : Nat) (genesis : BlockId) :
    Blues (Dag.new k genesis) genesis [genesis] := by
  refine ⟨List.nodup_singleton _, List.mem_singleton_self _, fun x hx => ?_, ?_⟩
  · rw [List.mem_singleton.mp hx]
    exact .refl
  · refine @cluster_above _ k genesis [] (fun x hx => ?_) List.not_mem_nil nofun
    simp at hx

theorem Built.blueSets (h : Built k genesis dag) : dag.k = k ∧
    ∀ c node, dag.nodes.lookup c = some node → Blues dag c node.blueSet := by
  induction h with
  | new =>
    refine ⟨rfl, fun c node hc => ?_⟩
    have hmem : c ∈ (Dag.new k genesis).nodes.keys.toFinset := mem_keys.mpr ⟨node, hc⟩
    obtain rfl : c = genesis := by simpa [Dag.new, AList.keys] using hmem
    cases (inv_new k c).genesis.symm.trans hc
    exact blues_new k c
  | add before run ih =>
    have hall := before.inv.1.blues_add run ih.2
    obtain ⟨_, _, _, rfl, _⟩ := addBlock_spec run
    exact ⟨ih.1, hall⟩

/-- The blue score counts the blues of the past, and the block. -/
theorem Blues.length_eq (h : Blues dag b blues) (inv : dag.Inv) :
    blues.length = ((dag.pastOf b).filter fun x => x ∈ blues).length + 1 := by
  have hset : blues.toFinset = (b :: (dag.pastOf b).filter fun x => x ∈ blues).toFinset := by
    ext x
    rw [List.mem_toFinset, List.mem_toFinset, List.mem_cons, List.mem_filter, inv.past,
      decide_eq_true_eq]
    constructor
    · intro hx
      exact (reach_iff.mp (h.reach x hx)).imp_right fun hp => ⟨hp, hx⟩
    · intro hx
      rcases hx with rfl | hx
      · exact h.self
      · exact hx.2
  have hnodup : (b :: (dag.pastOf b).filter fun x => x ∈ blues).Nodup := by
    refine List.nodup_cons.mpr ⟨fun hb => ?_, (inv.nodup b).filter _⟩
    exact inv.isDag.acyclic ((inv.past b b).mp (List.mem_filter.mp hb).1)
  rw [← List.toFinset_card_of_nodup h.nodup, hset, List.toFinset_card_of_nodup hnodup,
    List.length_cons]

/-- In every DAG that `add_block` builds the blue set of a block is a `k`-cluster, its blue score
counts the blues of its past and itself, and its mergeset splits what its past has beyond the
selected parent. -/
theorem blueSet_cluster (h : Built k genesis dag) (hb : dag.nodes.lookup b = some node) :
    IsCluster (Anticone dag.parents) k node.blueSet.toFinset ∧
      (∀ x, x ∈ dag.pastOf b ↔ Past dag.parents x b) ∧
      dag.blueScore b = ((dag.pastOf b).filter fun x => x ∈ node.blueSet).length + 1 ∧
      (node.mergesetBlues ++ node.mergesetReds).Nodup ∧
      ∀ x, x ∈ node.mergesetBlues ∨ x ∈ node.mergesetReds ↔
        Past dag.parents x b ∧ ∀ sp, node.selectedParent = some sp → ¬Reach dag.parents x sp := by
  obtain ⟨inv, _⟩ := h.inv
  obtain ⟨hk, hall⟩ := h.blueSets
  have hblues := hall b node hb
  have hscore : dag.blueScore b = node.blueSet.length := by
    rw [blueScore, blueSetOf, hb]
    rfl
  refine ⟨hk ▸ hblues.cluster, fun x => inv.past x b, hscore.trans (hblues.length_eq inv), ?_⟩
  by_cases hgen : b = dag.genesis
  · subst hgen
    cases inv.genesis.symm.trans hb
    refine ⟨List.nodup_nil, fun x => ⟨fun hx => ?_, fun hx => absurd hx.1 inv.past_genesis⟩⟩
    simp at hx
  · obtain ⟨sp, hm⟩ := inv.merges b node hb hgen
    refine ⟨hm.nodup inv hb, fun x => ?_⟩
    rw [hm.mem_iff inv hb, hm.selected]
    simp

/-- A block with two parents in each other's anticone. -/
theorem blueSet_cluster_diamond : ∃ dag node, Built 1 0 dag ∧ dag.nodes.lookup 3 = some node ∧
    node.mergesetBlues = [2] ∧ IsCluster (Anticone dag.parents) 1 node.blueSet.toFinset := by
  obtain ⟨dag, hbuilt, hnode⟩ := @built_of_feed 1 0 [(1, [0]), (2, [0]), (3, [1, 2])]
    (fun dag => (dag.nodes.lookup 3).any fun node => node.mergesetBlues = [2]) (by decide +kernel)
  obtain ⟨node, hnode, hblues⟩ := (Option.any_eq_true _ _).mp hnode
  exact ⟨dag, node, hbuilt, hnode, of_decide_eq_true hblues, (blueSet_cluster hbuilt hnode).1⟩

end TaoDag.Prototype.Dag
