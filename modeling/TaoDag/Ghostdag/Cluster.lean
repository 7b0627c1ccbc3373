import TaoDag.Ghostdag.Coloring

namespace TaoDag.Ghostdag

open BlockDag KCluster

namespace DagEngine

variable {e e' : DagEngine} {b x y h sp cand : Hash} {l parents : List Hash}
  {d nd : GhostdagData} {S : Finset Hash}

theorem checkBlueCandidate_spec (inv : e.ColourInv) (hs : Counted e sp S nd)
    (hcand : cand ∈ e.dag.blocks) (hlater : ∀ x ∈ S, ¬Reach e.dag.parents cand x)
    (hk : e.k < kTypeMax) (hlen : nd.mergesetBlues.length ≤ e.k + 1)
    (hfull : nd.mergesetBlues.length = e.k + 1 → ¬e.Admitted S cand) :
    Returns False (e.manager.checkBlueCandidate nd cand) (Verdict e S cand) := by
  refine Returns.bind (addUpTo_spec False.elim) fun limit hlimit => ?_
  have hmod : nd.mergesetBlues.length % (kTypeMax + 1) = nd.mergesetBlues.length :=
    Nat.mod_eq_of_lt (by omega)
  rw [hmod]
  have hkk : e.manager.k = e.k := rfl
  by_cases hcap : nd.mergesetBlues.length = limit
  · rw [if_pos hcap]
    exact Returns.pure (hfull (by omega))
  · rw [if_neg hcap]
    have hf : Found e S ∅ cand ⟨∅, 0⟩ := ⟨by simp, by simp, rfl, Nat.zero_le _, by simp⟩
    refine checkLoop_spec inv hs hcand hlater hf (R := S) ⟨fun _ hx => hx, fun x hx => Or.inl hx,
      by simp, fun h hh => (by cases hh), fun _ x => ?_, hs.nodup, fun _ => ?_⟩
    · rw [hs.selected, hs.members]
      refine or_congr_left ⟨fun hx => ⟨hx, ?_⟩, And.left⟩
      exact hs.above x ((hs.members x).mpr (Or.inl hx))
    · rw [hs.selected]
      exact hs.disjoint

/-- A blue candidate joins the blues, and the sizes stay exact. -/
theorem Counted.addBlue (hs : Counted e sp S nd) (hnew : cand ∉ S)
    (horigin : cand ≠ blockhash.origin) {n : Nat} {peers sizes : BlockHashMap Nat}
    (hv : Verdict e S cand (.blue n peers))
    (hsizes : ∀ x, sizes.lookup x = ((peers.lookup x).map (· + 1)).or
      ((nd.bluesAnticoneSizes.insert cand n).lookup x)) :
    Counted e sp (insert cand S)
      { nd with mergesetBlues := nd.mergesetBlues ++ [cand], bluesAnticoneSizes := sizes } := by
  obtain ⟨hadm, hn, hpeers⟩ := hv
  have hnotblue : cand ∉ nd.mergesetBlues := fun h => hnew ((hs.members cand).mpr (Or.inl h))
  have hnotabove : cand ∉ e.blue sp := fun h => hnew ((hs.members cand).mpr (Or.inr h))
  refine ⟨hs.selected, fun x => ?_, ?_, fun x hx => ?_, ?_, ?_, fun x hx => ?_⟩
  · simp only [Finset.mem_insert, List.mem_append, List.mem_singleton, hs.members]
    tauto
  · rw [List.nodup_append]
    refine ⟨hs.nodup, List.nodup_singleton _, fun x hx y hy hxy => ?_⟩
    rw [List.mem_singleton] at hy
    rw [hxy, hy] at hx
    exact hnotblue hx
  · rcases List.mem_append.mp hx with hx | hx
    · exact hs.disjoint x hx
    · rw [List.mem_singleton] at hx
      rw [hx]
      exact hnotabove
  · exact (Finset.forall_mem_insert ..).mpr ⟨horigin, hs.above⟩
  · exact hs.cluster.insert hadm hnew Anticone.irrefl Anticone.symm
  · by_cases hxc : x = cand
    · subst hxc
      have hcount : e.antiCount (insert x S) x = n := by
        rw [hn]
        exact count_insert_of_not_anti Anticone.irrefl
      rw [hcount]
      refine .here ?_
      have hno : x ∉ anticone (Anticone e.dag.parents) S x := fun h => hnew (mem_anticone.mp h).1
      rw [hsizes, hpeers, if_neg hno, AList.lookup_insert]
      rfl
    · have hxS : x ∈ S := (Finset.mem_insert.mp hx).resolve_left hxc
      by_cases hanti : Anticone e.dag.parents x cand
      · have hcount : e.antiCount (insert cand S) x = e.antiCount S x + 1 :=
          count_insert_of_anti hnew hanti
        rw [hcount]
        refine .here ?_
        have hmem : x ∈ anticone (Anticone e.dag.parents) S cand :=
          mem_anticone.mpr ⟨hxS, hanti.symm⟩
        rw [hsizes, hpeers, if_pos hmem]
        rfl
      · have hcount : e.antiCount (insert cand S) x = e.antiCount S x :=
          count_insert_of_not_anti hanti
        rw [hcount]
        have hno : x ∉ anticone (Anticone e.dag.parents) S cand := fun h =>
          hanti (mem_anticone.mp h).2.symm
        have hlook : sizes.lookup x = nd.bluesAnticoneSizes.lookup x := by
          rw [hsizes, hpeers, if_neg hno, AList.lookup_insert_ne hxc]
          rfl
        cases hs.sizes x hxS with
        | here found => exact .here (hlook.trans found)
        | up absent genesis origin data above =>
          exact .up (hlook.trans absent) genesis origin data above

/-- The candidates of a new block, in the order in which they are tried. -/
structure Candidates (e : DagEngine) (sp : Hash) (m : List Hash) : Prop where
  selected : sp ∈ e.dag.blocks
  origin : sp ≠ blockhash.origin
  sorted : m.Pairwise fun a b => (e.key a).le (e.key b)
  nodup : m.Nodup
  known : ∀ c ∈ m, c ∈ e.dag.blocks
  apart : ∀ c ∈ m, Anticone e.dag.parents c sp

/-- The blues that the selected parent brings. -/
noncomputable def baseBlues (e : DagEngine) (sp : Hash) : Finset Hash := insert sp (e.blue sp)

/-- The candidates `m` have been coloured by the greedy rule. -/
def GreedyOn (e : DagEngine) (sp : Hash) (m blues reds : List Hash) : Prop :=
  Greedy (Anticone e.dag.parents) e.k (e.baseBlues sp) m blues reds

/-- How the data of a new block stands after the candidates `m`. -/
structure Coloring (e : DagEngine) (sp : Hash) (m : List Hash) (nd : GhostdagData) : Prop where
  greedy : ∃ blues, nd.mergesetBlues = sp :: blues ∧ GreedyOn e sp m blues nd.mergesetReds ∧
    Counted e sp (e.baseBlues sp ∪ blues.toFinset) nd
  len : nd.mergesetBlues.length ≤ e.k + 1

/-- Blue work grows from a block to its future. -/
theorem Inv.work_lt (inv : e.Inv) (h : Past e.dag.parents x y) (hx : x ≠ blockhash.origin) :
    e.work x < e.work y := by
  induction h using Relation.TransGen.head_induction_on with
  | single hxy => exact inv.work hxy hx
  | @head x z hxz hzy ih =>
    refine (inv.work hxz hx).trans (ih fun hz => ?_)
    rw [hz, inv.parents_origin] at hxz
    cases hxz

theorem ColourInv.base_reach (inv : e.ColourInv) (hsp : sp ∈ e.dag.blocks)
    (hx : x ∈ e.baseBlues sp) : Reach e.dag.parents x sp := by
  rcases Finset.mem_insert.mp hx with rfl | hx
  · exact .refl
  · exact inv.blue_reach hsp hx

theorem colour_spec (inv : e.ColourInv) (hk : e.k < kTypeMax) {m pre post : List Hash} {c : Hash}
    (hm : Candidates e sp m) (hsplit : m = pre ++ c :: post) (hc : Coloring e sp pre nd) :
    Returns False (e.manager.colour nd c) (Coloring e sp (pre ++ [c])) := by
  obtain ⟨⟨blues, hblues, hgreedy, hs⟩, hlen⟩ := hc
  set S := e.baseBlues sp ∪ blues.toFinset with hS
  have hcm : c ∈ m := by simp [hsplit]
  have hmem := hm.known c hcm
  have hanti := hm.apart c hcm
  have hsub : ∀ x ∈ blues, x ∈ pre := fun x hx => hgreedy.subset x hx
  have hsorted := hm.sorted
  have hnodup := hm.nodup
  rw [hsplit, List.pairwise_append] at hsorted
  rw [hsplit, List.nodup_append] at hnodup
  have horigin : c ≠ blockhash.origin := fun h => hanti.1 (h ▸ inv.origin_reach hm.selected)
  -- A candidate is in the past of no blue: blue work grows along the edges.
  have hlater : ∀ x ∈ S, ¬Reach e.dag.parents c x := by
    intro x hx hcx
    rcases Finset.mem_union.mp hx with hx | hx
    · exact hanti.1 (hcx.trans (inv.base_reach hm.selected hx))
    · have hxpre := hsub x (List.mem_toFinset.mp hx)
      have hle : (e.key x).le (e.key c) := hsorted.2.2 x hxpre c (List.mem_cons_self ..)
      rcases reach_iff.mp hcx with rfl | hpast
      · exact hnodup.2.2 c hxpre c (List.mem_cons_self ..) rfl
      · have hlt := inv.work_lt hpast horigin
        rcases hle with hle | hle
        · exact absurd hlt (Nat.lt_asymm hle)
        · exact absurd hle.1.symm (Nat.ne_of_lt hlt)
  have hnew : c ∉ S := fun h => hlater c h .refl
  have hspS : sp ∈ S := Finset.mem_union_left _ (Finset.mem_insert_self sp (e.blue sp))
  have hbn : (sp :: blues).Nodup := hblues ▸ hs.nodup
  have hfull : nd.mergesetBlues.length = e.k + 1 → ¬e.Admitted S c := by
    intro hlen' hadm
    rw [hblues, List.length_cons] at hlen'
    have hlt : e.antiCount S sp < e.k := hadm.2 sp hspS hanti
    have hsubset : blues.toFinset ⊆ anticone (Anticone e.dag.parents) S sp := by
      intro x hx
      have hxm : x ∈ m := by
        rw [hsplit]
        exact List.mem_append_left _ (hsub x (List.mem_toFinset.mp hx))
      refine mem_anticone.mpr ⟨?_, (hm.apart x hxm).symm⟩
      rw [hS]
      exact Finset.mem_union_right _ hx
    have hle : blues.toFinset.card ≤ e.antiCount S sp := Finset.card_le_card hsubset
    rw [List.toFinset_card_of_nodup (List.nodup_cons.mp hbn).2] at hle
    omega
  refine Returns.bind (checkBlueCandidate_spec inv hs hmem hlater hk hlen hfull) fun o ho => ?_
  cases o with
  | blue n peers =>
    refine GhostdagData.addBlue_spec.mono fun d hd => ?_
    obtain ⟨sizes, rfl, hsizes⟩ := hd
    have hinsert := hs.addBlue hnew horigin ho hsizes
    have hset : e.baseBlues sp ∪ (blues ++ [c]).toFinset = insert c S := by
      rw [hS, List.toFinset_append, ← Finset.union_assoc, Finset.union_comm,
        List.toFinset_cons, List.toFinset_nil]
      rfl
    refine ⟨⟨blues ++ [c], ?_, hgreedy.blue ho.1, ?_⟩, ?_⟩
    · change nd.mergesetBlues ++ [c] = _
      rw [hblues]
      rfl
    · rw [hset]
      exact hinsert
    · have hne : nd.mergesetBlues.length ≠ e.k + 1 := fun h => hfull h ho.1
      change (nd.mergesetBlues ++ [c]).length ≤ e.k + 1
      rw [List.length_append, List.length_singleton]
      omega
  | red =>
    refine Returns.pure ⟨⟨blues, hblues, hgreedy.red ho, ?_⟩, hlen⟩
    exact ⟨hs.selected, hs.members, hs.nodup, hs.disjoint, hs.above, hs.cluster, hs.sizes⟩

theorem Coloring.start (inv : e.ColourInv) (hsp : sp ∈ e.dag.blocks)
    (horigin : sp ≠ blockhash.origin) :
    Coloring e sp [] ⟨0, 0, sp, [sp], [], AList.singleton sp 0⟩ := by
  obtain ⟨d, hd⟩ := mem_blocks.mp hsp
  have hc := inv.coloured hd horigin
  have hself : sp ∉ e.blue sp := fun h => inv.index.dag.acyclic (hc.past sp h)
  have hnot : ∀ x ∈ e.baseBlues sp, ¬Anticone e.dag.parents x sp := fun x hx h =>
    h.1 (inv.base_reach hsp hx)
  have hcount : ∀ x ∈ e.blue sp, e.antiCount (e.baseBlues sp) x = e.antiCount (e.blue sp) x :=
    fun x hx => count_insert_of_not_anti (hnot x (Finset.mem_insert_of_mem hx))
  have hzero : e.antiCount (e.baseBlues sp) sp = 0 := by
    have hempty : anticone (Anticone e.dag.parents) (e.baseBlues sp) sp = ∅ := by
      refine Finset.eq_empty_of_forall_notMem fun x hx => ?_
      obtain ⟨hx, hanti⟩ := mem_anticone.mp hx
      exact hnot x hx hanti.symm
    rw [antiCount, count, hempty]
    rfl
  have hcounted : Counted e sp (e.baseBlues sp) ⟨0, 0, sp, [sp], [], AList.singleton sp 0⟩ := by
    refine ⟨rfl, fun x => ?_, List.nodup_singleton sp, fun x hx => ?_, ?_, ?_, ?_⟩
    · rw [baseBlues, Finset.mem_insert, List.mem_singleton]
    · rw [List.mem_singleton] at hx
      rw [hx]
      exact hself
    · exact (Finset.forall_mem_insert ..).mpr ⟨horigin, fun x hx => (mem_blue.mp hx).2.1⟩
    · refine (Finset.forall_mem_insert ..).mpr ⟨?_, fun x hx => ?_⟩
      · exact hzero.le.trans (Nat.zero_le _)
      · exact (hcount x hx).le.trans (hc.cluster x hx)
    · refine (Finset.forall_mem_insert ..).mpr ⟨?_, fun x hx => ?_⟩
      · rw [hzero]
        exact .here (List.dlookup_cons_eq _ _ _)
      · rw [hcount x hx]
        have hxs : x ≠ sp := fun h => hself (h ▸ hx)
        have hgenesis : sp ≠ e.genesis := fun h => by
          rw [h, inv.genesis] at hx
          cases hx
        refine .up ?_ hgenesis horigin hd (hc.sizes x hx)
        rw [AList.lookup_eq_none]
        simpa [AList.mem_keys] using hxs
  refine ⟨⟨[], rfl, .nil, ?_⟩, ?_⟩
  · rw [List.toFinset_nil, Finset.union_empty]
    exact hcounted
  · simp

/-- No parent is in the past of another. -/
def Antichain (e : DagEngine) (parents : List Hash) : Prop :=
  ∀ p ∈ parents, ∀ q ∈ parents, p ≠ q → ¬Reach e.dag.parents p q

theorem Antichain.originAlone (inv : e.Inv) (ha : e.Antichain parents)
    (hknown : ∀ p ∈ parents, p ∈ e.dag.blocks) : OriginAlone parents := by
  intro ho p hp
  by_contra hne
  exact ha _ ho p hp (Ne.symm hne) (inv.origin_reach (hknown p hp))

/-- Over an antichain the mergeset lies in the anticone of the selected parent. -/
theorem IsMergeset.anticone (hm : IsMergeset e sp parents l) (ha : e.Antichain parents)
    (hsp : sp ∈ parents) (hx : x ∈ l) : Anticone e.dag.parents x sp := by
  have hnot : ¬Reach e.dag.parents x sp := by
    rcases hm.apart x hx with ⟨hp, hne⟩ | h
    · exact ha x hp sp hsp hne
    · exact h
  refine ⟨hnot, fun h => ?_⟩
  obtain ⟨p, hp, hxp⟩ := hm.sound x hx
  by_cases hps : p = sp
  · exact hnot (hps ▸ hxp)
  · exact ha sp hsp p hp (Ne.symm hps) (h.trans hxp)

theorem ghostdag_coloring (inv : e.ColourInv) (hk : e.k < kTypeMax) (ha : e.Antichain parents) :
    Returns False (e.manager.ghostdag parents) (fun d => d.selectedParent ≠ blockhash.origin →
      ∃ m, Candidates e d.selectedParent m ∧ Coloring e d.selectedParent m d) := by
  refine Returns.bind (assert_spec False.elim) fun _ _ => ?_
  refine Returns.bind findSelectedParent_spec fun sp hsp => ?_
  obtain ⟨hmem, hknown, hmax⟩ := hsp
  by_cases hor : sp = blockhash.origin
  · rw [if_pos hor]
    refine newWithSelectedParent_spec.mono fun d hd hne => ?_
    rw [hd] at hne
    exact absurd hor hne
  · rw [if_neg hor]
    refine Returns.bind newWithSelectedParent_spec fun nd hnd => ?_
    subst hnd
    have hmerge : Returns False (e.manager.orderedMergesetWithoutSelectedParent sp parents)
        (Candidates e sp) := by
      refine Returns.bind (unorderedMergeset_spec inv.toInv) fun l hl =>
        sortBlocks_spec.mono fun m hm => ?_
      obtain ⟨hperm, hsorted, hblocks⟩ := hm
      have hl' := hl.perm hperm
      exact ⟨hknown sp hmem, hor, hsorted, hl'.nodup, fun c hc => hblocks c (hperm.mem_iff.mp hc),
        fun c hc => hl'.anticone ha hmem hc⟩
    refine Returns.bind hmerge fun m hm => ?_
    have hfold : Returns False
        (m.foldlM e.manager.colour ⟨0, 0, sp, [sp], [], AList.singleton sp 0⟩)
        (Coloring e sp m) :=
      Returns.foldlM (I := Coloring e sp) (.start inv (hknown sp hmem) hor)
        fun pre c post nd hsplit hc => colour_spec inv hk hm hsplit hc
    refine Returns.bind hfold fun d hd => ?_
    have hany : ∀ {α : Type} {x : Result α}, Returns False x fun _ => True :=
      ⟨fun _ _ => trivial, False.elim⟩
    refine Returns.bind hany fun spd _ => ?_
    refine Returns.bind hany fun score _ => ?_
    refine Returns.bind hany fun added _ => ?_
    refine Returns.bind hany fun work _ => Returns.pure ?_
    obtain ⟨⟨blues, hblues, hgreedy, hs⟩, hlen⟩ := hd
    have hsel : (d.finalizeScoreAndWork score work).selectedParent = sp := hs.selected
    intro _
    rw [hsel]
    refine ⟨m, hm, ⟨blues, hblues, hgreedy, ?_⟩, hlen⟩
    exact ⟨hs.selected, hs.members, hs.nodup, hs.disjoint, hs.above, hs.cluster, hs.sizes⟩

end DagEngine

end TaoDag.Ghostdag
