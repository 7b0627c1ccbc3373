import TaoDag.Reachability.ReclaimLoop
import TaoDag.Reachability.Tree

namespace TaoDag.Reachability

open MemoryReachabilityStore OrderedTree ReindexOperationContext

variable {o : Hash} {s s' : Store} {a b p root top : Hash}

/-- A store that is laid out but for a new block `b`, the last child of `p`, whose interval may
be empty. -/
structure Growing (o : Hash) (s : Store) (b p : Hash) : Prop where
  tree : TreeInv o s
  laidOut : ∀ z ∈ s.nodes, z ≠ b → LaidOut s z
  leaf : s.kids b = []
  last : ∃ init, s.kids p = init ++ [b]

theorem Growing.nested (g : Growing o s b p) {z : Hash} (hz : s.kids z ≠ []) : NestedAt s z := by
  have hzm : z ∈ s.nodes := by
    by_contra hno
    exact hz (g.tree.tree.outside hno)
  refine (g.laidOut z hzm ?_).nested
  rintro rfl
  exact hz g.leaf

/-- The new block comes before no sibling. -/
theorem Growing.ne_of_before (g : Growing o s b p) {q d e : Hash} {pre post : List Hash}
    (hk : s.kids q = pre ++ d :: post) (he : e ∈ pre) : e ≠ b := by
  rintro rfl
  have heq : e ∈ s.kids q := by
    rw [hk]
    exact List.mem_append_left _ he
  obtain ⟨init, hlast⟩ := g.last
  have hpq : p = q := g.tree.tree.unique (by rw [hlast]; simp) heq
  subst hpq
  have hnd := g.tree.tree.nodup p
  rw [hk] at hnd hlast
  have hlast' := congrArg List.getLast? hlast
  rw [List.getLast?_concat, List.getLast?_append_of_ne_nil _ (by simp)] at hlast'
  exact (List.nodup_append.mp hnd).2.2 e he e (List.mem_of_getLast? hlast') rfl

/-- A child but the new block has a label. -/
theorem Growing.lo_le_hi (g : Growing o s b p) {q d e : Hash} {pre post : List Hash}
    (hk : s.kids q = pre ++ d :: post) (he : e ∈ pre) : s.lo e ≤ s.hi e := by
  have hem : e ∈ s.nodes := by
    refine g.tree.tree.closed (x := q) ?_
    rw [hk]
    exact List.mem_append_left _ he
  exact (g.laidOut e hem (g.ne_of_before hk he)).nested.le

/-- A block above the new one lies on the side that its labels say. -/
theorem Growing.side (g : Growing o s b p) {c : Hash} {pre post : List Hash}
    (hk : s.kids top = pre ++ c :: post) (ha : a ∈ s.kids top) (hac : a ≠ c) :
    a ∈ pre ∧ s.lo a < s.lo c ∨ a ∈ post ∧ ¬s.lo a < s.lo c := by
  have hnest : NestedAt s top := g.nested (List.ne_nil_of_mem ha)
  have hmem : a ∈ pre ∨ a ∈ post := by
    rw [hk] at ha
    rcases List.mem_append.mp ha with h | h
    · exact Or.inl h
    · exact Or.inr ((List.mem_cons.mp h).resolve_left hac)
  rcases hmem with hpre | hpost
  · left
    refine ⟨hpre, ?_⟩
    have hlt : s.hi a + 1 ≤ s.lo c := by
      refine hnest.lt_of_pair ?_
      rw [hk]
      exact (List.singleton_sublist.mpr hpre).append (List.singleton_sublist.mpr (by simp))
    have := g.lo_le_hi hk hpre
    omega
  · right
    refine ⟨hpost, ?_⟩
    have hlt : s.hi c + 1 ≤ s.lo a := by
      refine hnest.lt_of_pair ?_
      rw [hk]
      exact ((List.singleton_sublist.mpr hpost).cons_cons c).trans (List.sublist_append_right _ _)
    have := lo_le_hi_succ s c
    omega

/-- A reindex lays every block out. -/
structure Reindexed (s s' : Store) : Prop where
  shape : SameShape s s'
  laidOut : ∀ z ∈ s.nodes, LaidOut s' z

theorem reindexIntervalsEarlierThanRoot_spec (fr : Interval.Fractions)
    {ctx : ReindexOperationContext} (g : Growing o ctx.store b p)
    (hcache : Cached ctx.store ctx.subtreeSizes) (ha : a ∈ ctx.store.kids top)
    (hab : Desc ctx.store.kids a b) (har : ¬Desc ctx.store.kids a root)
    (htop : Above ctx.store top root) (hinner : ctx.store.kids root ≠ [])
    (hsmall : labels ctx.store a ≤ treeSize ctx.store a) :
    Returns False (ctx.reindexIntervalsEarlierThanRoot fr a root top (treeSize ctx.store a))
      (fun ctx' => Reindexed ctx.store ctx'.store) := by
  have t := g.tree
  have hrm : root ∈ ctx.store.nodes := t.tree.mem_desc htop.1 (t.tree.mem_of_kid ha)
  have houtside : NestedOutside ctx.store a := fun z hz hza =>
    g.laidOut z hz fun hzb => hza (hzb ▸ hab)
  have hroot : ctx.store.lo root ≤ ctx.store.hi root := (houtside root hrm har).nested.le
  obtain ⟨c, hc, hcr⟩ := (desc_iff_head.mp htop.1).resolve_left htop.2
  have hac : a ≠ c := by
    rintro rfl
    exact har hcr
  have hrec : ∀ side gap ogap, SideLaws side gap ogap →
      (∀ pre post, ctx.store.kids top = pre ++ c :: post → a ∈ side.siblings (pre, post)) →
      Returns False (reclaimInterval fr side ctx a top c root (treeSize ctx.store a)) fun ctx' =>
        Reindexed ctx.store ctx'.store := by
    intro side gap ogap laws hroom
    have h : Reclaiming o side ctx.store a top root := by
      refine ⟨t, houtside, ha, htop.1, hinner, har, hsmall, fun d hd hdr pre post hk => ?_⟩
      have hdc : d = c := t.tree.kids_disjoint hd hc hdr hcr
      subst hdc
      exact hroom pre post hk
    refine (reclaimInterval_spec fr laws h (fun z => g.nested) hcache False.elim hc hcr
      False.elim False.elim False.elim).mono fun ctx' h' => ?_
    exact ⟨h'.shape, h'.laidOut⟩
  refine Returns.bind (nextChainAncestor_spec t (fun z => g.nested) htop
    (fun pre d post hk e he => g.lo_le_hi hk he) hroot) fun d hd => ?_
  have hdc : d = c := t.tree.kids_disjoint hd.1 hc hd.2 hcr
  subst hdc
  refine Returns.bind (getInterval_spec False.elim) fun i hi => ?_
  refine Returns.bind (getInterval_spec False.elim) fun j hj => ?_
  rw [hi.1, hj.1]
  change Returns False (if ctx.store.lo a < ctx.store.lo d then _ else _) _
  split_ifs with hlt
  · refine hrec _ _ _ beforeLaws fun pre post hk => ?_
    rcases g.side hk ha hac with ⟨hm, _⟩ | ⟨_, hno⟩
    · exact List.mem_reverse.mpr hm
    · exact absurd hlt hno
  · refine hrec _ _ _ afterLaws fun pre post hk => ?_
    rcases g.side hk ha hac with ⟨_, hyes⟩ | ⟨hm, _⟩
    · exact absurd hyes hlt
    · exact hm

/-- The climb of `reindex_intervals`, at a block `a` above the new one. -/
theorem reindexLoop_spec (fr : Interval.Fractions) {fuel : Nat} {ctx : ReindexOperationContext}
    (g : Growing o ctx.store b p) (hcache : Cached ctx.store ctx.subtreeSizes)
    (hab : Desc ctx.store.kids a b) (hbm : b ∈ ctx.store.nodes) (hrm : root ∈ ctx.store.nodes)
    (har : ¬Above ctx.store a root) (hrb : root ≠ b)
    (hinner : root = o ∨ ctx.store.kids root ≠ []) :
    Returns False (reindexLoop fr root fuel ctx a) (fun ctx' => Reindexed ctx.store ctx'.store) := by
  induction fuel generalizing ctx a with
  | zero => exact Returns.error id
  | succ fuel ih =>
    have t := g.tree
    have ham : a ∈ ctx.store.nodes := t.tree.mem_anc hab hbm
    refine Returns.bind (getInterval_spec fun _ => ham) fun i hi => ?_
    refine Returns.bind (countSubtrees_spec t ham False.elim hcache) fun ctx₁ hctx₁ => ?_
    obtain ⟨store, cache, slack⟩ := ctx₁
    obtain ⟨hs, hsl, hc₁, hac⟩ := hctx₁
    simp only at hs hc₁ hac
    subst hs
    refine Returns.bind (subtreeSize_spec hc₁.sized fun _ => hac) fun n hn => ?_
    rw [hn.1, hi.1]
    change Returns False (if treeSize ctx.store a ≤ labels ctx.store a then _ else _) _
    by_cases hfit : treeSize ctx.store a ≤ labels ctx.store a
    · rw [if_pos hfit]
      have hpos : 0 < treeSize ctx.store a := size_pos ham
      have t₁ : TreeInv o (ReindexOperationContext.mk ctx.store cache slack).store := t
      refine (propagateInterval_spec fr t₁ ham False.elim hc₁ (fun _ => ?_) False.elim).mono
        fun ctx' h' => ?_
      · change ctx.store.lo a ≤ ctx.store.hi a
        rw [labels] at hfit
        omega
      · obtain ⟨hp, _, _⟩ := h'
        refine ⟨hp.shape, fun z hz => ?_⟩
        by_cases haz : Desc ctx.store.kids a z
        · exact hp.nested z haz
        · refine (g.laidOut z hz fun hzb => haz (hzb ▸ hab)).of_iv hp.shape fun y hy => ?_
          refine hp.frame y fun hya => haz ?_
          rcases hy with rfl | hy
          · exact hya.1
          · exact t.tree.desc_parent hy hya.1 (Ne.symm hya.2)
    · rw [if_neg hfit]
      refine Returns.bind (getParent_spec fun _ => ham) fun q hq => ?_
      rw [hq.1]
      by_cases hnone : (ctx.store.par a).isNone = true
      · rw [if_pos hnone]
        exact Returns.error id
      rw [if_neg hnone]
      by_cases haroot : a = root
      · rw [if_pos haroot]
        exact Returns.error id
      rw [if_neg haroot]
      -- `a` has a parent: the top of the tree is above the reindex root, or is the reindex root.
      have hao : a ≠ o := by
        rintro rfl
        exact har ⟨t.tree.reach hrm, haroot⟩
      have hak : a ∈ ctx.store.kids (ctx.store.par a) := t.mem_par ham hao
      have hpm := t.tree.mem_of_kid hak
      refine Returns.bind (isStrictChainAncestorOf_spec (fun _ => hpm) (fun _ => hrm))
        fun strict hstrict => ?_
      have hroot : ctx.store.lo root ≤ ctx.store.hi root := (g.laidOut root hrm hrb).nested.le
      have habove : strict = true ↔ Above ctx.store (ctx.store.par a) root :=
        hstrict.1.trans
          (desc_iff_strictly_contains (fun z => g.nested) t.tree hpm hrm hroot).symm
      by_cases hst : strict = true
      · rw [if_pos hst]
        have htop := habove.mp hst
        have hadr : ¬Desc ctx.store.kids a root := fun h => har ⟨h, haroot⟩
        have hinner' : ctx.store.kids root ≠ [] := by
          refine hinner.resolve_left ?_
          rintro rfl
          exact htop.2 (t.tree.antisymm htop.1 (t.tree.reach hpm))
        exact reindexIntervalsEarlierThanRoot_spec fr g hc₁ hak hab hadr htop hinner'
          (Nat.le_of_not_le hfit)
      · rw [if_neg hst]
        refine ih g hc₁ ((Desc.kid hak).trans hab) hbm hrm (fun h => hst (habove.mpr h)) hinner

section Insert

variable {C : Prop} {i : Interval} {n : Nat}

/-- `append_child` changes one list of children. -/
theorem appendChild_spec (hp : C → p ∈ s.nodes) :
    Returns C (s.appendChild p b) (fun s' => p ∈ s.nodes ∧ s'.nodes = s.nodes ∧
      s'.kids = addLeaf s.kids p b ∧ s'.par = s.par ∧ s'.depth = s.depth ∧
      s'.covering = s.covering ∧ s'.iv = s.iv ∧ s'.reindexRoot = s.reindexRoot) := by
  refine (update_written hp).mono fun s' hs' => ⟨hs'.mem, ?_, hs'.kids, ?_, ?_, ?_, ?_, hs'.root⟩
  · rw [MemoryReachabilityStore.nodes, hs'.keys]
    rfl
  · rw [hs'.par, Function.update_eq_self]
  · rw [hs'.depth, Function.update_eq_self]
  · rw [hs'.covering, Function.update_eq_self]
  · rw [hs'.iv, Function.update_eq_self]

/-- `insert` adds a block that is not there yet. -/
theorem insert_spec (hb : C → b ∉ s.nodes) :
    Returns C (s.insert b p i n) (fun s' => b ∉ s.nodes ∧ s'.nodes = insert b s.nodes ∧
      s'.kids = Function.update s.kids b [] ∧ s'.par = Function.update s.par b p ∧
      s'.depth = Function.update s.depth b n ∧ s'.covering = Function.update s.covering b [] ∧
      s'.iv = Function.update s.iv b i ∧ s'.reindexRoot = s.reindexRoot) := by
  rw [MemoryReachabilityStore.insert]
  by_cases hhas : s.has b = true
  · rw [if_pos hhas]
    exact Returns.error fun hc => hb hc (has_iff.mp hhas)
  · rw [if_neg hhas]
    refine Returns.ok ⟨fun h => hhas (has_iff.mpr h), ?_, ?_, ?_, ?_, ?_, ?_, rfl⟩
    · ext y
      rw [mem_nodes, Finset.mem_insert, mem_nodes]
      exact AList.mem_insert s.map
    all_goals
      funext y
      rw [Function.update_apply]
      split_ifs with hy
      · subst hy
        simp [kids, par, depth, covering, iv, AList.lookup_insert, MemoryReachabilityData.new]
      · simp [kids, par, depth, covering, iv, AList.lookup_insert_ne hy]

end Insert

/-- A block added as the last child of `p`, over the labels `i`. -/
structure Grown (s s' : Store) (b p : Hash) (i : Interval) : Prop where
  new : b ∉ s.nodes
  parent : p ∈ s.nodes
  nodes : s'.nodes = insert b s.nodes
  kids : s'.kids = addLeaf s.kids p b
  par : s'.par = Function.update s.par b p
  depth : s'.depth = Function.update s.depth b (s.depth p + 1)
  covering : s'.covering = s.covering
  iv : s'.iv = Function.update s.iv b i
  root : s'.reindexRoot = s.reindexRoot

/-- The free labels of `p` after its last child. -/
def IsRemaining (s : Store) (p : Hash) (i : Interval) : Prop :=
  (match (s.kids p).getLast? with
    | some l => i.start = s.hi l + 1
    | none => i.start = s.lo p) ∧ i.stop + 1 = s.hi p

theorem intervalRemainingAfter_spec {C : Prop} (hn : C → NestedAt s p) (hp : C → p ∈ s.nodes)
    (hkids : ∀ c ∈ s.kids p, c ∈ s.nodes) :
    Returns C (s.intervalRemainingAfter p) (IsRemaining s p) := by
  refine Returns.bind (intervalChildrenCapacity_spec hp fun hc => (hn hc).le) fun cap hcap => ?_
  refine Returns.bind (getChildren_spec hp) fun children hch => ?_
  rw [hch.1]
  cases hl : (s.kids p).getLast? with
  | none =>
    refine Returns.pure ⟨?_, hcap.1.2⟩
    rw [hl]
    exact hcap.1.1
  | some l =>
    have hlm := List.mem_of_getLast? hl
    refine Returns.bind (getInterval_spec fun _ => hkids l hlm) fun li hli => ?_
    have hstop : li.stop = s.hi l := by
      rw [hli.1]
      rfl
    have hcapEnd := hcap.1.2
    refine Returns.bind (addU64_spec fun hc => ?_) fun e he => ?_
    · have := (hn hc).kid hlm
      have := cap.lt
      omega
    refine (Interval.new_spec fun hc => ?_).mono fun i hi => ⟨?_, ?_⟩
    · have := (hn hc).kid hlm
      have := cap.lt
      omega
    · rw [hl, hi.1, he.1, hstop]
    · rw [hi.2, hcapEnd]

section Grown

variable {i r : Interval}

theorem Grown.treeInv (h : Grown s s' b p i) (t : TreeInv o s) : TreeInv o s' where
  tree := by
    rw [h.kids, h.nodes, h.depth]
    exact t.tree.addLeaf h.new h.parent
  par := by
    intro x y hy
    rw [h.kids, mem_addLeaf] at hy
    rw [h.par, Function.update_apply]
    rcases hy with hy | ⟨rfl, rfl⟩
    · have hyb : y ≠ b := fun hyb => h.new (hyb ▸ t.tree.closed hy)
      rw [if_neg hyb]
      exact t.par hy
    · rw [if_pos rfl]
  par_root := by
    have hob : o ≠ b := fun hob => h.new (hob ▸ t.tree.root_mem)
    rw [h.par, Function.update_of_ne hob]
    exact t.par_root

theorem Grown.iv_of_mem (h : Grown s s' b p i) {z : Hash} (hz : z ∈ s.nodes) :
    s'.iv z = s.iv z := by
  rw [h.iv]
  refine Function.update_of_ne ?_ ..
  rintro rfl
  exact h.new hz

private theorem stacked_to_last {lo hi : Hash → Nat} {x y : Nat} {l : List Hash} {c : Hash}
    (h : Stacked lo hi x l y) (hl : l.getLast? = some c) : Stacked lo hi x l (hi c + 1) := by
  obtain ⟨init, rfl⟩ := List.getLast?_eq_some_iff.mp hl
  obtain ⟨m, hm, hc⟩ := stacked_append.mp h
  exact stacked_append.mpr ⟨m, hm, hc.1, hc.2.1, le_refl _⟩

private theorem packed_to_last {lo hi : Hash → Nat} {x y : Nat} {l : List Hash} {c : Hash}
    (h : Packed lo hi x l y) (hl : l.getLast? = some c) : y = hi c + 1 := by
  obtain ⟨init, rfl⟩ := List.getLast?_eq_some_iff.mp hl
  obtain ⟨m, hm, hc⟩ := packed_append.mp h
  exact hc.2.2.symm

/-- The parent of a new block stays laid out when the block starts where its siblings end. -/
theorem Grown.laidOut_parent (h : Grown s s' b p i) (t : TreeInv o s) (hp : LaidOut s p)
    (hr : IsRemaining s p r) (hstart : i.start = r.start) (hstop : i.stop ≤ r.stop) :
    LaidOut s' p := by
  have hiv : ∀ c ∈ s.kids p, s'.iv c = s.iv c := fun c hc => h.iv_of_mem (t.tree.closed hc)
  have hivp := h.iv_of_mem h.parent
  have hib : s'.iv b = i := by
    rw [h.iv]
    exact Function.update_self ..
  have hlob : s'.lo b = i.start := by rw [lo, hib]
  have hhib : s'.hi b = i.stop := by rw [hi, hib]
  have hile := i.le
  have hstop' := hr.2
  have hsplit : Stacked s.lo s.hi (s.lo p) (s.kids p) r.start := by
    have h1 := hr.1
    cases hl : (s.kids p).getLast? with
    | none =>
      rw [hl] at h1
      rw [List.getLast?_eq_none_iff.mp hl]
      exact Nat.le_of_eq h1.symm
    | some l =>
      rw [hl] at h1
      rw [h1]
      exact stacked_to_last hp.nested hl
  have hbase : Stacked s'.lo s'.hi (s'.lo p) (s.kids p) r.start := by
    rw [lo_of_iv hivp]
    exact hsplit.congr (fun c hc => lo_of_iv (hiv c hc)) fun c hc => hi_of_iv (hiv c hc)
  refine ⟨?_, ?_⟩
  · rw [NestedAt, Nested, h.kids, addLeaf_self]
    refine stacked_append.mpr ⟨r.start, hbase, ?_, ?_, ?_⟩
    · rw [hlob, hstart]
    · rw [hlob, hhib]
      exact hile
    · rw [hhib, hi_of_iv hivp]
      change i.stop + 1 ≤ s.hi p
      omega
  · obtain ⟨m, n, hpk⟩ := hp.packed
    have hpk' : Packed s'.lo s'.hi m (s.kids p) n :=
      hpk.congr (fun c hc => lo_of_iv (hiv c hc)) fun c hc => hi_of_iv (hiv c hc)
    rw [PackedAt, h.kids, addLeaf_self]
    cases hl : (s.kids p).getLast? with
    | none =>
      rw [List.getLast?_eq_none_iff.mp hl]
      exact ⟨s'.lo b, s'.hi b + 1, rfl, by rw [hlob, hhib]; exact hile, rfl⟩
    | some l =>
      have h1 := hr.1
      rw [hl] at h1
      have hn := packed_to_last hpk hl
      refine ⟨m, s'.hi b + 1, packed_append.mpr ⟨n, hpk', ?_, ?_, rfl⟩⟩
      · rw [hlob, hstart, hn]
        exact h1
      · rw [hlob, hhib]
        exact hile

/-- A laid out store in which a block is added after the children of its parent. -/
theorem Grown.growing (h : Grown s s' b p i) (t : TreeInv o s) (hs : ∀ z ∈ s.nodes, LaidOut s z)
    (hr : IsRemaining s p r) (hstart : i.start = r.start) (hstop : i.stop ≤ r.stop) :
    Growing o s' b p where
  tree := h.treeInv t
  laidOut := by
    intro z hz hzb
    rw [h.nodes, Finset.mem_insert] at hz
    have hzm := hz.resolve_left hzb
    by_cases hzp : z = p
    · subst hzp
      exact h.laidOut_parent t (hs z hzm) hr hstart hstop
    · have hk : s'.kids z = s.kids z := by rw [h.kids, addLeaf_of_ne hzp]
      have hiv : ∀ c ∈ s.kids z, s'.iv c = s.iv c := fun c hc => h.iv_of_mem (t.tree.closed hc)
      have hz' := hs z hzm
      refine ⟨?_, ?_⟩
      · rw [NestedAt, Nested, hk, lo_of_iv (h.iv_of_mem hzm), hi_of_iv (h.iv_of_mem hzm)]
        have hst : Stacked s.lo s.hi (s.lo z) (s.kids z) (s.hi z) := hz'.nested
        exact hst.congr (fun c hc => lo_of_iv (hiv c hc)) fun c hc => hi_of_iv (hiv c hc)
      · obtain ⟨m, n, hpk⟩ := hz'.packed
        rw [PackedAt, hk]
        exact ⟨m, n, hpk.congr (fun c hc => lo_of_iv (hiv c hc)) fun c hc => hi_of_iv (hiv c hc)⟩
  leaf := by
    have hbp : b ≠ p := fun hbp => h.new (hbp ▸ h.parent)
    rw [h.kids, addLeaf_of_ne hbp]
    exact t.tree.outside h.new
  last := ⟨s.kids p, by rw [h.kids, addLeaf_self]⟩

end Grown

/-- The blocks form a tree, each laid out, and the reindex root is one of them. -/
structure StoreInv (o : Hash) (s : Store) : Prop where
  tree : TreeInv o s
  laidOut : ∀ z ∈ s.nodes, LaidOut s z
  root : ∃ r ∈ s.nodes, s.reindexRoot = some r ∧ (r = o ∨ s.kids r ≠ [])

/-- A new block in the tree: only the tree links of the block itself and its place among the
children of its parent are new. -/
structure Attached (s s' : Store) (b p : Hash) : Prop where
  new : b ∉ s.nodes
  parent : p ∈ s.nodes
  nodes : s'.nodes = insert b s.nodes
  kids : s'.kids = addLeaf s.kids p b
  depth : s'.depth = Function.update s.depth b (s.depth p + 1)
  covering : s'.covering = s.covering
  root : s'.reindexRoot = s.reindexRoot

/-- A way to halve an interval: the left part starts the interval and is not empty. -/
def Halves (half : Interval → Result (Interval × Interval)) : Prop :=
  ∀ i l r, 0 < i.size → half i = .ok (l, r) → l.start = i.start ∧ 0 < l.size ∧ l.stop ≤ i.stop

theorem splitHalf_halves : Halves Interval.splitHalf := fun i l r hi h => by
  have hs : Returns False i.splitHalf _ := Interval.splitHalf_spec hi
  obtain ⟨h1, h2, _, _, h5⟩ := hs.post h
  exact ⟨h1, h2, h5⟩

/-- `addTreeBlock`, for any way to halve the interval that is left. -/
def addTreeBlockWith (half : Interval → Result (Interval × Interval)) (fr : Interval.Fractions)
    (s : Store) (newBlock parent : Hash) (slack : Nat) : Result Store := do
  let remaining ← s.intervalRemainingAfter parent
  let s ← s.appendChild parent newBlock
  let parentHeight ← s.getHeight parent
  let height ← addU64 parentHeight 1
  if remaining.isEmpty then
    let s ← s.insert newBlock parent remaining height
    let reindexRoot ← s.getReindexRoot
    return (← (ReindexOperationContext.new s slack).reindexIntervals fr newBlock reindexRoot).store
  else
    let (allocated, _) ← half remaining
    s.insert newBlock parent allocated height

theorem addTreeBlock_eq (fr : Interval.Fractions) :
    addTreeBlock fr = addTreeBlockWith Interval.splitHalf fr := rfl

/-- `add_tree_block` attaches the block, and leaves every block laid out. -/
theorem addTreeBlockWith_spec {half : Interval → Result (Interval × Interval)} (hh : Halves half)
    (fr : Interval.Fractions) {slack : Nat} (inv : StoreInv o s) :
    Returns False (addTreeBlockWith half fr s b p slack) (fun s' =>
      StoreInv o s' ∧ Attached s s' b p) := by
  have t := inv.tree
  obtain ⟨root, hrm, hroot, hinner⟩ := inv.root
  refine Returns.bind (intervalRemainingAfter_spec False.elim False.elim
    fun c hc => t.tree.closed hc) fun r hr => ?_
  refine Returns.bind (appendChild_spec False.elim) fun s₁ hs₁ => ?_
  obtain ⟨hp, hnodes₁, hkids₁, hpar₁, hdepth₁, hcov₁, hiv₁, hroot₁⟩ := hs₁
  refine Returns.bind (getHeight_spec False.elim) fun ph hph => ?_
  refine Returns.bind (addU64_spec False.elim) fun height hheight => ?_
  -- The store once the block is inserted over the labels `i`.
  have hgrown : ∀ (i : Interval) (s₂ : Store), b ∉ s₁.nodes ∧ s₂.nodes = insert b s₁.nodes ∧
      s₂.kids = Function.update s₁.kids b [] ∧ s₂.par = Function.update s₁.par b p ∧
      s₂.depth = Function.update s₁.depth b height ∧
      s₂.covering = Function.update s₁.covering b [] ∧ s₂.iv = Function.update s₁.iv b i ∧
      s₂.reindexRoot = s₁.reindexRoot → Grown s s₂ b p i := by
    rintro i s₂ ⟨hb, hnodes, hkids, hpar, hdepth, hcov, hiv, hroot⟩
    rw [hnodes₁] at hb hnodes
    have hbp : b ≠ p := fun hbp => hb (hbp ▸ hp)
    refine ⟨hb, hp, hnodes, ?_, ?_, ?_, ?_, ?_, hroot.trans hroot₁⟩
    · rw [hkids, hkids₁]
      refine Function.update_eq_self_iff.mpr ?_
      rw [addLeaf_of_ne hbp, kids_of_not_mem hb]
    · rw [hpar, hpar₁]
    · rw [hdepth, hdepth₁, hheight.1, hph.1, hdepth₁]
    · rw [hcov, hcov₁]
      refine Function.update_eq_self_iff.mpr ?_
      rw [mem_nodes, ← AList.lookup_eq_none] at hb
      simp [MemoryReachabilityStore.covering, hb]
    · rw [hiv, hiv₁]
  have hroot₂ : ∀ (i : Interval) (s₂ s₃ : Store), Grown s s₂ b p i → SameShape s₂ s₃ →
      ∃ r ∈ s₃.nodes, s₃.reindexRoot = some r ∧ (r = o ∨ s₃.kids r ≠ []) := by
    intro i s₂ s₃ hg hs
    refine ⟨root, ?_, by rw [hs.root, hg.root, hroot], ?_⟩
    · rw [hs.nodes, hg.nodes]
      exact Finset.mem_insert_of_mem hrm
    · refine hinner.imp_right fun hne => ?_
      rw [hs.kids, hg.kids]
      obtain ⟨c, hc⟩ := List.exists_mem_of_ne_nil _ hne
      exact List.ne_nil_of_mem (mem_addLeaf.mpr (Or.inl hc))
  by_cases hempty : r.isEmpty = true
  · rw [if_pos hempty]
    refine Returns.bind (insert_spec False.elim) fun s₂ hs₂ => ?_
    have hg := hgrown r s₂ hs₂
    have hgrow := hg.growing t inv.laidOut hr rfl (le_refl _)
    have hroot' : s₂.reindexRoot = some root := hg.root.trans hroot
    have hgr : Returns False s₂.getReindexRoot fun q => q = root := by
      rw [getReindexRoot, hroot']
      exact Returns.ok rfl
    refine Returns.bind hgr fun q hq => ?_
    subst hq
    have hbm : b ∈ s₂.nodes := by
      rw [hg.nodes]
      exact Finset.mem_insert_self ..
    have hrm₂ : q ∈ s₂.nodes := by
      rw [hg.nodes]
      exact Finset.mem_insert_of_mem hrm
    have hbr : q ≠ b := fun hbr => hg.new (hbr ▸ hrm)
    have habove : ¬Above s₂ b q := by
      rintro ⟨hd, hne⟩
      obtain ⟨c, hc, _⟩ := (desc_iff_head.mp hd).resolve_left hne
      rw [hgrow.leaf] at hc
      cases hc
    obtain ⟨r', _, hr', hinner'⟩ := hroot₂ r s₂ s₂ hg (.refl _)
    rw [hroot'] at hr'
    cases hr'
    have hloop : Returns False ((ReindexOperationContext.new s₂ slack).reindexIntervals fr b q)
        fun ctx' => Reindexed s₂ ctx'.store :=
      reindexLoop_spec fr hgrow (Cached.empty s₂) .refl hbm hrm₂ habove hbr hinner'
    refine Returns.bind hloop fun ctx' hctx' => Returns.pure ⟨⟨?_, ?_, ?_⟩, ?_⟩
    · exact hgrow.tree.of_sameShape hctx'.shape
    · intro z hz
      rw [hctx'.shape.nodes] at hz
      exact hctx'.laidOut z hz
    · exact hroot₂ r s₂ _ hg hctx'.shape
    · have hs := hctx'.shape
      exact ⟨hg.new, hg.parent, hs.nodes.trans hg.nodes, hs.kids.trans hg.kids,
        hs.depth.trans hg.depth, hs.covering.trans hg.covering, hs.root.trans hg.root⟩
  · rw [if_neg hempty]
    have hpos : 0 < r.size := by
      rw [Interval.isEmpty_iff] at hempty
      omega
    have hhalf : Returns False (half r) fun q => q.1.start = r.start ∧ 0 < q.1.size ∧
        q.1.stop ≤ r.stop := ⟨fun q hq => hh r q.1 q.2 hpos hq, False.elim⟩
    refine Returns.bind hhalf fun q hq => ?_
    refine (insert_spec False.elim).mono fun s₂ hs₂ => ?_
    have hg := hgrown q.1 s₂ hs₂
    have hgrow := hg.growing t inv.laidOut hr hq.1 hq.2.2
    refine ⟨⟨hgrow.tree, fun z hz => ?_, hroot₂ _ s₂ s₂ hg (.refl _)⟩, hg.new, hg.parent, hg.nodes,
      hg.kids, hg.depth, hg.covering, hg.root⟩
    by_cases hzb : z = b
    · subst hzb
      refine (laidOut_leaf hgrow.leaf).mpr ?_
      have hiv : s₂.iv z = q.1 := by
        rw [hg.iv]
        exact Function.update_self ..
      rw [lo, hi, hiv]
      exact Interval.size_pos.mp hq.2.1
    · exact hgrow.laidOut z hz hzb

end TaoDag.Reachability
