import TaoDag.Framework.Contract
import TaoDag.Reachability.Validate

namespace TaoDag.Reachability

open MemoryReachabilityStore OrderedTree

variable {o : Hash} {s s' : Store} {b p x y : Hash} {l pre post cs : List Hash}
  {depth : Hash → Nat}

/-- The blocks, their labels and the reindex root are those of another store. -/
structure SameLabels (s s' : Store) : Prop where
  nodes : s'.nodes = s.nodes
  iv : s'.iv = s.iv
  root : s'.reindexRoot = s.reindexRoot

theorem SameLabels.refl (s : Store) : SameLabels s s := ⟨rfl, rfl, rfl⟩

theorem SameLabels.trans {s'' : Store} (h : SameLabels s s') (h' : SameLabels s' s'') :
    SameLabels s s'' := ⟨h'.nodes.trans h.nodes, h'.iv.trans h.iv, h'.root.trans h.root⟩

theorem SameLabels.lo (h : SameLabels s s') : s'.lo = s.lo := by
  funext x
  rw [MemoryReachabilityStore.lo, h.iv]
  rfl

theorem SameLabels.hi (h : SameLabels s s') : s'.hi = s.hi := by
  funext x
  rw [MemoryReachabilityStore.hi, h.iv]
  rfl

theorem sameLabels_of_written {d : MemoryReachabilityData} (h : Written s s' x d)
    (hiv : d.interval = s.iv x) : SameLabels s s' := by
  refine ⟨?_, ?_, h.root⟩
  · rw [MemoryReachabilityStore.nodes, h.keys]
    rfl
  · rw [h.iv, hiv, Function.update_eq_self]

theorem setParent_spec (hx : x ∈ s.nodes) : Returns True (s.setParent x p) (fun s' =>
    SameLabels s s' ∧ s'.kids = s.kids ∧ s'.covering = s.covering ∧
      s'.par = Function.update s.par x p) := by
  refine (update_written fun _ => hx).mono fun s' hs' => ⟨sameLabels_of_written hs' rfl, ?_, ?_, hs'.par⟩
  · rw [hs'.kids, Function.update_eq_self]
  · rw [hs'.covering, Function.update_eq_self]

theorem spliceItem_spec : Returns True (spliceItem (pre ++ b :: post) b pre.length cs)
    (fun r => r = pre ++ (cs ++ post)) := by
  refine Returns.bind (assert_spec fun _ => ?_) fun _ _ => ?_
  · rw [List.length_append, List.length_cons]
    omega
  refine Returns.bind (assert_spec fun _ => ?_) fun _ _ => Returns.pure ?_
  · rw [List.getElem?_append_right le_rfl, Nat.sub_self]
    rfl
  · rw [List.take_left, ← List.drop_drop, List.drop_left]
    rfl

theorem replaceChild_spec (hp : p ∈ s.nodes) (hkids : s.kids p = pre ++ b :: post) :
    Returns True (s.replaceChild p b pre.length cs) (fun s' => SameLabels s s' ∧
      s'.kids = Function.update s.kids p (pre ++ (cs ++ post)) ∧ s'.covering = s.covering ∧
      s'.par = s.par) := by
  refine Returns.bind (getChildren_spec fun _ => hp) fun children hch => ?_
  rw [hch.1, hkids]
  refine Returns.bind spliceItem_spec fun spliced hspliced => ?_
  refine (update_written fun _ => hp).mono fun s' hs' => ⟨sameLabels_of_written hs' rfl, ?_, ?_, ?_⟩
  · rw [hs'.kids, hspliced]
  · rw [hs'.covering, Function.update_eq_self]
  · rw [hs'.par, Function.update_eq_self]

theorem replaceFutureCoveringItem_spec (hx : x ∈ s.nodes) (hcov : s.covering x = pre ++ b :: post) :
    Returns True (s.replaceFutureCoveringItem x b pre.length cs) (fun s' => SameLabels s s' ∧
      s'.kids = s.kids ∧ s'.par = s.par ∧
      s'.covering = Function.update s.covering x (pre ++ (cs ++ post))) := by
  refine Returns.bind (getFutureCoveringSet_spec fun _ => hx) fun fcs hfcs => ?_
  rw [hfcs.1, hcov]
  refine Returns.bind spliceItem_spec fun spliced hspliced => ?_
  refine (update_written fun _ => hx).mono fun s' hs' => ⟨sameLabels_of_written hs' rfl, ?_, ?_, ?_⟩
  · rw [hs'.kids, Function.update_eq_self]
  · rw [hs'.par, Function.update_eq_self]
  · rw [hs'.covering, hspliced]

/-- The search for a block of the list finds the block. -/
theorem indexOfBlock_spec (hl : ∀ e ∈ pre ++ b :: post, e ∈ s.nodes)
    (hord : Ordered s (pre ++ b :: post)) (hlabel : ∀ e ∈ pre ++ b :: post, s.lo e ≤ s.hi e) :
    Returns True (indexOfBlock s (pre ++ b :: post) b) (fun i => i = pre.length) := by
  have hb : b ∈ pre ++ b :: post := by simp
  refine Returns.bind (binarySearchDescendant_found (fun _ => ⟨hl, hl b hb⟩) hord
    (fun e he => hlabel e (List.mem_append_left _ he)) le_rfl le_rfl (hlabel b hb)) fun r hr => ?_
  subst hr
  exact Returns.bind (assert_spec fun _ => rfl) fun _ _ => Returns.pure rfl

/-- The children of the deleted block get its parent. -/
theorem setParents_spec (hcs : ∀ c ∈ cs, c ∈ s.nodes) :
    Returns True (cs.foldlM (fun s child => s.setParent child p) s) (fun s' =>
      SameLabels s s' ∧ s'.kids = s.kids ∧ s'.covering = s.covering ∧
      ∀ y, s'.par y = if y ∈ cs then p else s.par y) := by
  induction cs generalizing s with
  | nil => exact Returns.pure ⟨.refl s, rfl, rfl, fun y => by simp⟩
  | cons c cs ih =>
    rw [List.forall_mem_cons] at hcs
    rw [List.foldlM_cons]
    refine Returns.bind (setParent_spec hcs.1) fun s₁ ⟨hsame, hkids, hcov, hpar⟩ => ?_
    have hcs₁ : ∀ c ∈ cs, c ∈ s₁.nodes := by
      rw [hsame.nodes]
      exact hcs.2
    refine (ih hcs₁).mono fun s' ⟨hsame', hkids', hcov', hpar'⟩ => ?_
    refine ⟨hsame.trans hsame', hkids'.trans hkids, hcov'.trans hcov, fun y => ?_⟩
    rw [hpar', hpar, Function.update_apply]
    by_cases hy : y ∈ cs
    · rw [if_pos hy, if_pos (List.mem_cons_of_mem c hy)]
    · rw [if_neg hy]
      simp [hy]

/-- In the future-covering set of each merged block, the children of the deleted block take its
place. -/
theorem mergeset_spec {mergeset : List Hash} (hmem : ∀ m ∈ mergeset, m ∈ s.nodes ∧ b ∈ s.covering m)
    (hnodup : mergeset.Nodup) (hset : ∀ m ∈ mergeset, (s.covering m).Nodup)
    (hl : ∀ m, ∀ e ∈ s.covering m, e ∈ s.nodes ∧ s.lo e ≤ s.hi e)
    (hord : ∀ m, Ordered s (s.covering m)) :
    Returns True (mergeset.foldlM (fun s mergedBlock => do
      let i ← indexOfBlock s (← s.getFutureCoveringSet mergedBlock) b
      s.replaceFutureCoveringItem mergedBlock b i cs) s) (fun s' => SameLabels s s' ∧
        s'.kids = s.kids ∧ s'.par = s.par ∧
        ∀ x, s'.covering x = if x ∈ mergeset then splice cs b (s.covering x) else s.covering x) := by
  refine Returns.foldlM (I := fun done (s' : Store) => SameLabels s s' ∧ s'.kids = s.kids ∧
    s'.par = s.par ∧
    ∀ x, s'.covering x = if x ∈ done then splice cs b (s.covering x) else s.covering x)
    ⟨.refl s, rfl, rfl, fun x => by simp⟩ ?_
  rintro done m rest s₁ hsplit ⟨hsame, hkids, hpar, hcov⟩
  have hm : m ∈ mergeset := by
    rw [hsplit]
    simp
  have hnew : m ∉ done := by
    rw [hsplit] at hnodup
    exact fun h => (List.nodup_append.mp hnodup).2.2 m h m List.mem_cons_self rfl
  obtain ⟨hmnodes, hb⟩ := hmem m hm
  obtain ⟨pre, post, hplace⟩ := List.append_of_mem hb
  have hcovm : s₁.covering m = pre ++ b :: post := by
    rw [hcov m, if_neg hnew, hplace]
  have hlabels := hl m
  have hordered := hord m
  rw [hplace, Ordered] at hordered
  rw [hplace] at hlabels
  rw [← hsame.nodes] at hmnodes
  refine Returns.bind (getFutureCoveringSet_spec fun _ => hmnodes) fun fcs hfcs => ?_
  rw [hfcs.1, hcovm]
  refine Returns.bind (indexOfBlock_spec ?_ ?_ ?_) fun i hi => ?_
  · rw [hsame.nodes]
    exact fun e he => (hlabels e he).1
  · rw [Ordered, hsame.lo, hsame.hi]
    exact hordered
  · rw [hsame.lo, hsame.hi]
    exact fun e he => (hlabels e he).2
  rw [hi]
  refine (replaceFutureCoveringItem_spec hmnodes hcovm).mono fun s₂ hs₂ => ?_
  obtain ⟨hsame₂, hkids₂, hpar₂, hcov₂⟩ := hs₂
  refine ⟨hsame.trans hsame₂, hkids₂.trans hkids, hpar₂.trans hpar, fun x => ?_⟩
  rw [hcov₂, Function.update_apply]
  by_cases hx : x = m
  · subst hx
    rw [if_pos rfl, if_pos (by simp), hplace, splice_of_nodup (hplace ▸ hset x hm)]
  · rw [if_neg hx, hcov x]
    simp [hx]

theorem lo_of_update {i : Interval} (h : s'.iv = Function.update s.iv x i) (y : Hash) :
    s'.lo y = if y = x then i.start else s.lo y := by
  rw [MemoryReachabilityStore.lo, h, Function.update_apply]
  split_ifs
  · rfl
  · rfl

theorem hi_of_update {i : Interval} (h : s'.iv = Function.update s.iv x i) (y : Hash) :
    s'.hi y = if y = x then i.stop else s.hi y := by
  rw [MemoryReachabilityStore.hi, h, Function.update_apply]
  split_ifs
  · rfl
  · rfl

/-- Who inherits the labels of the deleted block. -/
theorem inheritInterval_spec (hkids : s.kids p = pre ++ (cs ++ post)) (hp : p ∈ s.nodes)
    (hmem : ∀ e ∈ pre ++ cs, e ∈ s.nodes) (hnodup : cs.Nodup)
    (hpre : ∀ e ∈ pre, s.lo e ≤ s.hi b + 1)
    (hcs : ∀ e ∈ cs, s.lo b ≤ s.hi e + 1 ∧ s.lo e ≤ s.hi b + 1) :
    Returns True (inheritInterval s p pre.length (s.iv b) cs) (fun s' =>
      SameShape s s' ∧ Widened s.lo s.hi s'.lo s'.hi pre cs b) := by
  have hlt : s.hi b < u64Max := (s.iv b).lt
  match cs with
  | [] =>
    rcases pre.eq_nil_or_concat' with rfl | ⟨qs, q, rfl⟩
    · exact Returns.pure ⟨.refl s, ⟨fun x _ => by simp, fun x _ => by simp⟩⟩
    · have hq : q ∈ s.nodes := hmem q (by simp)
      have hle := hpre q (by simp)
      have hpos : 0 < s.lo q := (s.iv q).pos
      have hlen : 0 < (qs ++ [q]).length := by simp
      rw [inheritInterval, if_pos hlen]
      refine Returns.bind (getChildren_spec fun _ => hp) fun siblings hsiblings => ?_
      rw [hsiblings.1, hkids]
      have hplace : ((qs ++ [q]) ++ ([] ++ post))[(qs ++ [q]).length - 1]? = some q := by
        rw [List.length_append, List.length_singleton, Nat.add_sub_cancel, List.append_assoc,
          List.getElem?_append_right le_rfl, Nat.sub_self]
        rfl
      rw [hplace]
      refine Returns.bind (expect_spec (Q := fun a => q = a) (fun _ => ⟨q, rfl⟩) fun a ha =>
        Option.some.inj ha) fun a ha => ?_
      subst ha
      refine Returns.bind (getInterval_spec fun _ => hq) fun i hi => ?_
      rw [hi.1]
      refine Returns.bind (Interval.new_spec fun _ => ⟨hpos, hle, hlt⟩) fun j hj => ?_
      refine (setInterval_spec fun _ => hq).mono fun s' hs' => ⟨hs'.2.1, ?_, ?_⟩
      · intro x _
        have hnone : ¬([] : List Hash).head? = some x := by simp
        rw [if_neg hnone, lo_of_update hs'.2.2, hj.1]
        by_cases hx : x = q
        · rw [if_pos hx, hx]
          rfl
        · rw [if_neg hx]
      · intro x _
        rw [hi_of_update hs'.2.2, hj.2]
        simp only [List.append_nil, List.getLast?_concat, Option.some.injEq, eq_comm]
        rfl
  | [c] =>
    have hc : c ∈ s.nodes := hmem c (by simp)
    refine (setInterval_spec fun _ => hc).mono fun s' hs' => ⟨hs'.2.1, ?_, ?_⟩
    · intro x _
      rw [lo_of_update hs'.2.2]
      simp only [List.head?_cons, Option.some.injEq, eq_comm]
      rfl
    · intro x _
      rw [hi_of_update hs'.2.2]
      simp only [List.getLast?_concat, Option.some.injEq, eq_comm]
      rfl
  | c :: d :: cs =>
    obtain ⟨e, he⟩ : ∃ e, (d :: cs).getLast? = some e :=
      ⟨_, List.getLast?_eq_some_getLast (by simp)⟩
    have hemem : e ∈ d :: cs := List.mem_of_getLast? he
    have hce : c ≠ e := by
      rintro rfl
      exact (List.nodup_cons.mp hnodup).1 hemem
    have hlast : (pre ++ c :: d :: cs).getLast? = some e := by
      rw [List.getLast?_append_cons, List.getLast?_cons_cons, he]
    have hc : c ∈ s.nodes := hmem c (by simp)
    have hen : e ∈ s.nodes := hmem e (by simp [List.mem_cons.mp hemem])
    have hposb : 0 < s.lo b := (s.iv b).pos
    have hpose : 0 < s.lo e := (s.iv e).pos
    have hltc : s.hi c < u64Max := (s.iv c).lt
    rw [inheritInterval]
    · refine Returns.bind (getInterval_spec fun _ => hc) fun i hi => ?_
      rw [hi.1]
      refine Returns.bind (Interval.new_spec fun _ => ⟨hposb, (hcs c (by simp)).1, hltc⟩)
        fun j hj => ?_
      refine Returns.bind (setInterval_spec fun _ => hc) fun s₁ hs₁ => ?_
      rw [he]
      have hen₁ : e ∈ s₁.nodes := by
        rw [hs₁.2.1.nodes]
        exact hen
      refine Returns.bind (expect_spec (Q := fun a => e = a) (fun _ => ⟨e, rfl⟩) fun a ha =>
        Option.some.inj ha) fun a ha => ?_
      subst ha
      refine Returns.bind (getInterval_spec fun _ => hen₁) fun i' hi' => ?_
      have hive : i' = s.iv e := by
        rw [hi'.1, hs₁.2.2, Function.update_of_ne (Ne.symm hce)]
      rw [hive]
      refine Returns.bind (Interval.new_spec fun _ =>
        ⟨hpose, (hcs e (List.mem_cons_of_mem c hemem)).2, hlt⟩) fun j' hj' => ?_
      refine (setInterval_spec fun _ => hen₁).mono fun s' hs' => ⟨hs₁.2.1.trans hs'.2.1, ?_, ?_⟩
      · intro x _
        rw [lo_of_update hs'.2.2, lo_of_update hs₁.2.2, hj.1, hj'.1]
        simp only [List.head?_cons, Option.some.injEq, eq_comm (a := c)]
        by_cases hx : x = e
        · rw [if_pos hx, if_neg fun h => hce (h.symm.trans hx), hx]
          rfl
        · rw [if_neg hx]
          rfl
      · intro x _
        rw [hi_of_update hs'.2.2, hi_of_update hs₁.2.2, hj.2, hj'.2, hlast]
        simp only [Option.some.injEq, eq_comm (a := e)]
        by_cases hx : x = e
        · rw [if_pos hx, if_pos hx]
          rfl
        · rw [if_neg hx, if_neg hx]
          split_ifs with hxc
          · rw [hxc]
            rfl
          · rfl
    · simp

theorem covering_of_not_mem (h : x ∉ s.nodes) : s.covering x = [] := by
  rw [mem_nodes, ← AList.lookup_eq_none] at h
  simp [MemoryReachabilityStore.covering, h]

/-- The store without the record of `b`. -/
structure Erased (s s' : Store) (b : Hash) : Prop where
  nodes : s'.nodes = s.nodes.erase b
  kids : s'.kids = Function.update s.kids b []
  covering : s'.covering = Function.update s.covering b []
  par : ∀ y, y ≠ b → s'.par y = s.par y
  iv : ∀ y, y ≠ b → s'.iv y = s.iv y
  root : s'.reindexRoot = s.reindexRoot

theorem erased_delete (s : Store) (b : Hash) : Erased s (s.delete b) b := by
  have hlook : ∀ y, (s.delete b).map.lookup y = if y = b then none else s.map.lookup y := by
    intro y
    rw [delete]
    split_ifs with hy
    · rw [hy]
      exact AList.lookup_erase b s.map
    · exact AList.lookup_erase_ne hy
  refine ⟨?_, ?_, ?_, fun y hy => ?_, fun y hy => ?_, rfl⟩
  · ext y
    rw [mem_nodes_iff, Finset.mem_erase, mem_nodes_iff, hlook y]
    by_cases hy : y = b
    · simp [hy]
    · simp [hy]
  · funext y
    rw [MemoryReachabilityStore.kids, hlook y, Function.update_apply]
    split_ifs
    · rfl
    · rfl
  · funext y
    rw [MemoryReachabilityStore.covering, hlook y, Function.update_apply]
    split_ifs
    · rfl
    · rfl
  · rw [MemoryReachabilityStore.par, hlook y, if_neg hy]
    rfl
  · rw [MemoryReachabilityStore.iv, hlook y, if_neg hy]
    rfl

/-- What an index holds, whatever heights are stored: labels and future-covering sets in order. -/
structure Indexed (o : Hash) (s : Store) (depth : Hash → Nat) : Prop where
  labelled : Labelled o s depth
  par : ∀ {x y}, y ∈ s.kids x → s.par y = x
  covering : CoveringInv s

theorem StoreInv.indexed (inv : StoreInv o s) (cov : CoveringInv s) : Indexed o s s.depth :=
  ⟨inv.labelled, inv.tree.par, cov⟩

/-- The store without `b`: its children stand in its place. -/
structure Deleted (s s' : Store) (b : Hash) : Prop where
  nodes : s'.nodes = s.nodes.erase b
  kids : s'.kids = contract s.kids b
  covering : ∀ x, s'.covering x = if x = b then [] else splice (s.kids b) b (s.covering x)
  par : ∀ {x y}, y ∈ s'.kids x → s'.par y = x
  labels : ∃ p pre post, s.kids p = pre ++ b :: post ∧
    Widened s.lo s.hi s'.lo s'.hi pre (s.kids b) b
  root : s'.reindexRoot = s.reindexRoot

theorem nodup_of_ordered (hord : Ordered s l) (hl : ∀ e ∈ l, s.lo e ≤ s.hi e) : l.Nodup := by
  induction l with
  | nil => exact List.nodup_nil
  | cons e l ih =>
    rw [Ordered, List.pairwise_cons] at hord
    rw [List.forall_mem_cons] at hl
    refine List.nodup_cons.mpr ⟨fun he => ?_, ih hord.2 hl.2⟩
    have := hord.1 e he
    omega

/-- `delete_block` returns, given the blocks whose future-covering set holds the block. -/
theorem deleteBlock_spec (inv : Indexed o s depth) (hb : b ∈ s.nodes) (hbo : b ≠ o)
    {mergeset : List Hash} (hnodup : mergeset.Nodup)
    (hmerge : ∀ x, x ∈ mergeset ↔ b ∈ s.covering x) :
    Returns True (deleteBlock s b mergeset) (fun s' => Deleted s s' b) := by
  have t := inv.labelled.tree
  obtain ⟨p, hp, hbp⟩ := t.exists_parent hb hbo
  obtain ⟨pre, post, hkids⟩ := List.append_of_mem hbp
  have hpb : p ≠ b := by
    rintro rfl
    exact t.not_desc_of_kid hbp .refl
  have hlabel : ∀ e ∈ s.nodes, s.lo e ≤ s.hi e := fun e he => inv.labelled.lo_le_hi he
  have hnestedp := (inv.labelled.laidOut p hp).nested
  have hnestedb := (inv.labelled.laidOut b hb).nested
  have hordp : Ordered s (pre ++ b :: post) := hkids ▸ ordered_of_stacked hnestedp
  have hmemp : ∀ e ∈ pre ++ b :: post, e ∈ s.nodes := hkids ▸ fun e he => t.closed he
  have hordc : ∀ m, Ordered s (s.covering m) := fun m => inv.labelled.ordered (inv.covering.apart m)
  refine Returns.bind (getInterval_spec fun _ => hb) fun i hi => ?_
  refine Returns.bind (getParent_spec fun _ => hb) fun q hq => ?_
  refine Returns.bind (getChildren_spec fun _ => hb) fun children hchildren => ?_
  rw [hi.1, hq.1, inv.par hbp, hchildren.1]
  refine Returns.bind (getChildren_spec fun _ => hp) fun siblings hsiblings => ?_
  rw [hsiblings.1, hkids]
  refine Returns.bind (indexOfBlock_spec hmemp hordp fun e he => hlabel e (hmemp e he))
    fun index hindex => ?_
  rw [hindex]
  refine Returns.bind (replaceChild_spec hp hkids) fun s₁ h₁ => ?_
  obtain ⟨hsame₁, hkids₁, hcov₁, hpar₁⟩ := h₁
  have hchildren₁ : ∀ c ∈ s.kids b, c ∈ s₁.nodes := by
    rw [hsame₁.nodes]
    exact fun c hc => t.closed hc
  refine Returns.bind (setParents_spec hchildren₁) fun s₂ h₂ => ?_
  obtain ⟨hsame₂, hkids₂, hcov₂, hpar₂⟩ := h₂
  have h₁₂ := hsame₁.trans hsame₂
  have hcovs₂ : s₂.covering = s.covering := hcov₂.trans hcov₁
  refine Returns.bind (mergeset_spec ?_ hnodup ?_ ?_ ?_) fun s₃ h₃ => ?_
  · rw [h₁₂.nodes, hcovs₂]
    refine fun m hm => ⟨?_, (hmerge m).mp hm⟩
    by_contra hno
    have hbm := (hmerge m).mp hm
    rw [covering_of_not_mem hno] at hbm
    cases hbm
  · rw [hcovs₂]
    exact fun m _ => nodup_of_ordered (hordc m) fun e he => hlabel e (inv.covering.mem he)
  · rw [hcovs₂, h₁₂.nodes, h₁₂.lo, h₁₂.hi]
    exact fun m e he => ⟨inv.covering.mem he, hlabel e (inv.covering.mem he)⟩
  · rw [hcovs₂]
    intro m
    rw [Ordered, h₁₂.lo, h₁₂.hi]
    exact hordc m
  obtain ⟨hsame₃, hkids₃, hpar₃, hcov₃⟩ := h₃
  have h₁₃ := h₁₂.trans hsame₃
  have hkidss₃ : s₃.kids = Function.update s.kids p (pre ++ (s.kids b ++ post)) :=
    hkids₃.trans (hkids₂.trans hkids₁)
  have hiv₃ : s₃.iv b = s.iv b := by rw [h₁₃.iv]
  rw [← hiv₃]
  refine Returns.bind (@inheritInterval_spec s₃ b p pre post (s.kids b) ?_ ?_ ?_ (t.nodup b) ?_ ?_)
    fun s₄ h₄ => Returns.pure ?_
  · rw [hkidss₃, Function.update_self]
  · rw [h₁₃.nodes]
    exact hp
  · rw [h₁₃.nodes]
    intro e he
    rcases List.mem_append.mp he with he | he
    · exact hmemp e (List.mem_append_left _ he)
    · exact t.closed he
  · rw [h₁₃.lo, h₁₃.hi]
    intro e he
    have hlt : s.hi e < s.lo b :=
      (List.pairwise_append.mp hordp).2.2 e he b List.mem_cons_self
    have := hlabel e (hmemp e (List.mem_append_left _ he))
    have := hlabel b hb
    omega
  · rw [h₁₃.lo, h₁₃.hi]
    intro e he
    have := hnestedb.kid he
    omega
  obtain ⟨hshape, hwide⟩ := h₄
  have herased := erased_delete s₄ b
  have hnodupp : (pre ++ b :: post).Nodup := hkids ▸ t.nodup p
  have hcontract : (s₄.delete b).kids = contract s.kids b := by
    rw [herased.kids, hshape.kids, hkidss₃]
    funext x
    by_cases hxb : x = b
    · rw [hxb, Function.update_self, contract_self]
    · rw [Function.update_of_ne hxb, contract_of_ne hxb, Function.update_apply]
      split_ifs with hxp
      · rw [hxp, hkids, splice_of_nodup hnodupp]
      · rw [splice_of_not_mem fun h => hxp (t.unique h hbp)]
  refine ⟨?_, hcontract, fun x => ?_, ?_, ⟨p, pre, post, hkids, ?_⟩, ?_⟩
  · rw [herased.nodes, hshape.nodes, h₁₃.nodes]
  · rw [herased.covering, Function.update_apply, hshape.covering, hcov₃, hcovs₂]
    by_cases hxb : x = b
    · rw [if_pos hxb, if_pos hxb]
    · rw [if_neg hxb, if_neg hxb]
      split_ifs with hx
      · rfl
      · rw [splice_of_not_mem fun h => hx ((hmerge x).mpr h)]
  · intro x y hy
    rw [hcontract] at hy
    have hyb : y ≠ b := by
      rintro rfl
      exact absurd rfl (Finset.mem_erase.mp ((t.contract hbo).closed hy)).1
    rw [herased.par y hyb, hshape.par, hpar₃, hpar₂, hpar₁]
    obtain ⟨hx, ⟨hyx, _⟩ | ⟨hbx, hyb'⟩⟩ := mem_contract.mp hy
    · rw [if_neg fun h => hx (t.unique hyx h), inv.par hyx]
    · rw [if_pos hyb', t.unique hbx hbp]
  · rw [h₁₃.lo, h₁₃.hi] at hwide
    refine ⟨fun x hx => ?_, fun x hx => ?_⟩
    · rw [← hwide.lo x hx, MemoryReachabilityStore.lo, herased.iv x hx]
      rfl
    · rw [← hwide.hi x hx, MemoryReachabilityStore.hi, herased.iv x hx]
      rfl
  · rw [herased.root, hshape.root, h₁₃.root]

section Deleted

theorem Labelled.not_before_self (inv : Labelled o s depth) (hx : x ∈ s.nodes) :
    ¬Before s.kids x x := by
  intro h
  have := inv.lt_of_before h
  have := inv.lo_le_hi hx
  omega

theorem Deleted.coveringInv (h : Deleted s s' b) (inv : Indexed o s depth) (hb : b ∈ s.nodes)
    (hbo : b ≠ o) : CoveringInv s' := by
  have t := inv.labelled.tree
  have hmem : ∀ {x e}, e ∈ s'.covering x → e ∈ s.nodes ∧ e ≠ b := by
    intro x e he
    rw [h.covering] at he
    split_ifs at he
    · cases he
    · rcases mem_splice.mp he with ⟨he, heb⟩ | ⟨_, he⟩
      · exact ⟨inv.covering.mem he, heb⟩
      · refine ⟨t.closed he, ?_⟩
        rintro rfl
        exact t.not_desc_of_kid he .refl
  refine ⟨fun he => ?_, fun x => ?_⟩
  · rw [h.nodes, Finset.mem_erase]
    exact ⟨(hmem he).2, (hmem he).1⟩
  · have hold : (s'.covering x).Pairwise (Before s.kids) := by
      rw [h.covering]
      split_ifs
      · exact List.Pairwise.nil
      · refine pairwise_splice (inv.covering.apart x) ?_ ?_ ?_ (inv.labelled.not_before_self hb)
        · exact List.pairwise_iff_forall_sublist.mpr fun huv => ⟨b, _, _, huv, .refl, .refl⟩
        · exact fun y hy c hc => hy.desc .refl (.kid hc)
        · exact fun y hy c hc => hy.desc (.kid hc) .refl
    rw [h.kids]
    exact hold.imp_of_mem fun hu hv hbefore => hbefore.contract t hbo (hmem hu).2 (hmem hv).2

/-- The index without `b` holds what an index does. -/
theorem Deleted.indexed (h : Deleted s s' b) (inv : Indexed o s depth) (hb : b ∈ s.nodes)
    (hbo : b ≠ o) : Indexed o s' (contractDepth s.kids depth b) := by
  have t := inv.labelled.tree
  refine ⟨⟨?_, fun z hz => ?_⟩, h.par, h.coveringInv inv hb hbo⟩
  · rw [h.kids, h.nodes]
    exact t.contract hbo
  · rw [h.nodes, Finset.mem_erase] at hz
    obtain ⟨p, pre, post, hkids, hwide⟩ := h.labels
    have hlab : ∀ z ∈ s.nodes, Nested s.lo s.hi s.kids z ∧ ∃ a b, Packed s.lo s.hi a (s.kids z) b :=
      fun z hz => ⟨(inv.labelled.laidOut z hz).nested, (inv.labelled.laidOut z hz).packed⟩
    obtain ⟨hnested, hpacked⟩ := laidOut_contract t hlab hkids hwide hz.2 hz.1
    refine ⟨?_, ?_⟩
    · rw [NestedAt, h.kids]
      exact hnested
    · rw [PackedAt, h.kids]
      exact hpacked

/-- The answers about the other blocks do not change. -/
theorem Deleted.answers (h : Deleted s s' b) (inv : Indexed o s depth) (hb : b ∈ s.nodes)
    (hbo : b ≠ o) (hx : x ∈ s'.nodes) (hy : y ∈ s'.nodes) :
    isDagAncestorOf s' x y = isDagAncestorOf s x y ∧
      isChainAncestorOf s' x y = isChainAncestorOf s x y := by
  have t := inv.labelled.tree
  have inv' := h.indexed inv hb hbo
  obtain ⟨hxb, hxs⟩ := Finset.mem_erase.mp (h.nodes ▸ hx)
  obtain ⟨hyb, hys⟩ := Finset.mem_erase.mp (h.nodes ▸ hy)
  have hdesc : ∀ {u}, u ≠ b → (Desc s'.kids u y ↔ Desc s.kids u y) := by
    intro u hu
    rw [h.kids]
    exact desc_contract_iff t hu hyb
  have hcovered : (∃ e ∈ s'.covering x, Desc s'.kids e y) ↔ ∃ e ∈ s.covering x, Desc s.kids e y := by
    rw [h.covering, if_neg hxb]
    constructor
    · rintro ⟨e, he, hd⟩
      rw [h.kids] at hd
      have hd := desc_of_contract hd
      rcases mem_splice.mp he with ⟨he, _⟩ | ⟨hbx, he⟩
      · exact ⟨e, he, hd⟩
      · exact ⟨b, hbx, (Desc.kid he).trans hd⟩
    · rintro ⟨e, he, hd⟩
      by_cases heb : e = b
      · subst heb
        obtain ⟨c, hc, hcy⟩ := (desc_iff_kid hyb).mp hd
        have hce : c ≠ e := by
          rintro rfl
          exact t.not_desc_of_kid hc .refl
        exact ⟨c, mem_splice.mpr (Or.inr ⟨he, hc⟩), (hdesc hce).mpr hcy⟩
      · exact ⟨e, mem_splice.mpr (Or.inl ⟨he, heb⟩), (hdesc heb).mpr hd⟩
  constructor
  · obtain ⟨r, hr, -, -, hiff⟩ := (isDagAncestorOf_spec inv.labelled inv.covering (fun _ => hxs)
      fun _ => hys).total
    obtain ⟨r', hr', -, -, hiff'⟩ := (isDagAncestorOf_spec inv'.labelled inv'.covering (fun _ => hx)
      fun _ => hy).total
    rw [hdesc hxb, hcovered, ← hiff] at hiff'
    rw [hr, hr', Bool.eq_iff_iff.mpr hiff']
  · obtain ⟨r, hr, -, -, hiff⟩ := (isChainAncestorOf_desc inv.labelled (fun _ => hxs)
      fun _ => hys).total
    obtain ⟨r', hr', -, -, hiff'⟩ := (isChainAncestorOf_desc inv'.labelled (fun _ => hx)
      fun _ => hy).total
    rw [hdesc hxb, ← hiff] at hiff'
    rw [hr, hr', Bool.eq_iff_iff.mpr hiff']

end Deleted

/-- A block that may be deleted, with the blocks whose future-covering set holds it. -/
structure Deletable (s : Store) (b : Hash) (mergeset : List Hash) : Prop where
  stored : b ∈ s.nodes
  notOrigin : b ≠ blockhash.origin
  notRoot : s.reindexRoot ≠ some b
  nodup : mergeset.Nodup
  merged : ∀ x, x ∈ mergeset ↔ b ∈ s.covering x

/-- The store that is left of `s` when blocks have been deleted, one after the other. -/
inductive Deletions (s : Store) : List Hash → Store → Prop
  | none : Deletions s [] s
  | delete {deleted mergeset : List Hash} {b : Hash} {s₁ s₂ : Store}
      (before : Deletions s deleted s₁) (deletable : Deletable s₁ b mergeset)
      (run : deleteBlock s₁ b mergeset = .ok s₂) : Deletions s (deleted ++ [b]) s₂

theorem Deletable.spec {mergeset : List Hash} (h : Deletable s b mergeset)
    (inv : Indexed blockhash.origin s depth) :
    Returns True (deleteBlock s b mergeset) (fun s' => Deleted s s' b) :=
  deleteBlock_spec inv h.stored h.notOrigin h.nodup h.merged

theorem Deletions.spec {deleted : List Hash} (h : Deletions s deleted s')
    (inv : Indexed blockhash.origin s depth) :
    (∃ depth', Indexed blockhash.origin s' depth') ∧ s'.nodes = s.nodes \ deleted.toFinset ∧
      ∀ x ∈ s'.nodes, ∀ y ∈ s'.nodes, isDagAncestorOf s' x y = isDagAncestorOf s x y ∧
        isChainAncestorOf s' x y = isChainAncestorOf s x y := by
  induction h with
  | none => exact ⟨⟨depth, inv⟩, by simp, fun _ _ _ _ => ⟨rfl, rfl⟩⟩
  | @delete deleted mergeset b s₁ s₂ _ hdel hrun ih =>
    obtain ⟨⟨depth₁, inv₁⟩, hnodes, hanswers⟩ := ih
    have h₂ := (hdel.spec inv₁).post hrun
    refine ⟨⟨_, h₂.indexed inv₁ hdel.stored hdel.notOrigin⟩, ?_, fun x hx y hy => ?_⟩
    · rw [h₂.nodes, hnodes]
      ext z
      simp only [Finset.mem_erase, Finset.mem_sdiff, List.mem_toFinset, List.mem_append,
        List.mem_singleton]
      tauto
    · obtain ⟨hdag, hchain⟩ := h₂.answers inv₁ hdel.stored hdel.notOrigin hx hy
      have hx₁ : x ∈ s₁.nodes := Finset.mem_of_mem_erase (h₂.nodes ▸ hx)
      have hy₁ : y ∈ s₁.nodes := Finset.mem_of_mem_erase (h₂.nodes ▸ hy)
      obtain ⟨hdag₁, hchain₁⟩ := hanswers x hx₁ y hy₁
      exact ⟨hdag.trans hdag₁, hchain.trans hchain₁⟩

/-- However many blocks are deleted from a store that calls have built, each deletion returns, the
labels and future-covering sets stay in order, and the answers about the other blocks do not
change. -/
theorem deleteBlock_answers {s₀ s s' : Store} {deleted : List Hash}
    (hinit : TaoDag.Reachability.init MemoryReachabilityStore.empty = .ok s₀)
    (hrun : Relation.ReflTransGen TreeCall s₀ s) (hdel : Deletions s deleted s') :
    (∀ b mergeset, Deletable s' b mergeset → ∃ s'', deleteBlock s' b mergeset = .ok s'') ∧
      validateIntervals s' blockhash.origin = .ok (.ok ()) ∧
      s'.nodes = s.nodes \ deleted.toFinset ∧
      ∀ x ∈ s'.nodes, ∀ y ∈ s'.nodes, isDagAncestorOf s' x y = isDagAncestorOf s x y ∧
        isChainAncestorOf s' x y = isChainAncestorOf s x y := by
  have h₀ : Initial blockhash.origin Interval.maximal s₀ := (init_spec _ _).post hinit
  obtain ⟨inv, cov⟩ := h₀.calls_inv (by decide) hrun
  obtain ⟨⟨depth, inv'⟩, hnodes, hanswers⟩ := hdel.spec (inv.indexed cov)
  refine ⟨fun b mergeset h => ?_, validateIntervals_ok inv'.labelled inv'.covering, hnodes, hanswers⟩
  obtain ⟨s'', hs'', _⟩ := (h.spec inv').total
  exact ⟨s'', hs''⟩

/-- Two blocks over the origin, a third that merges them, and the third deleted. -/
theorem deleteBlock_answers_merging :
    ∃ s s', (TaoDag.Reachability.init MemoryReachabilityStore.empty >>= fun s =>
        addBlock (fun _ _ _ => 0) s 2 blockhash.origin [] >>= fun s =>
          addBlock (fun _ _ _ => 0) s 3 blockhash.origin [] >>= fun s =>
            addBlock (fun _ _ _ => 0) s 4 2 [3]) = .ok s ∧
      deleteBlock s 4 [3] = .ok s' ∧ s'.nodes = s.nodes \ {4} ∧
      validateIntervals s' blockhash.origin = .ok (.ok ()) := by
  have hrun : returnsWith (TaoDag.Reachability.init MemoryReachabilityStore.empty >>= fun s =>
      addBlock (fun _ _ _ => 0) s 2 blockhash.origin [] >>= fun s =>
        addBlock (fun _ _ _ => 0) s 3 blockhash.origin [] >>= fun s =>
          addBlock (fun _ _ _ => 0) s 4 2 [3]) (fun s =>
            decide (s.nodes = {4, 3, 2, blockhash.origin} ∧ s.reindexRoot ≠ some 4 ∧
              s.covering 4 = [] ∧ s.covering 3 = [4] ∧ s.covering 2 = [] ∧
              s.covering blockhash.origin = [])) = true := by
    decide +kernel
  obtain ⟨s, hs, hstate⟩ := returnsWith_iff.mp hrun
  obtain ⟨hnodes, hroot, hfour, hthree, htwo, horigin⟩ := of_decide_eq_true hstate
  obtain ⟨s₀, hinit, hrest⟩ := bind_eq_ok.mp hs
  obtain ⟨s₂, hadd₂, hrest⟩ := bind_eq_ok.mp hrest
  obtain ⟨s₃, hadd₃, hadd₄⟩ := bind_eq_ok.mp hrest
  have hcall : ∀ {s s' : Store} {b p : Hash} {mergeset : List Hash},
      addBlock (fun _ _ _ => 0) s b p mergeset = .ok s' → TreeCall s s' := by
    intro s s' b p mergeset h
    obtain ⟨_, htree, hdag⟩ := bind_eq_ok.mp h
    exact .add splitHalf_halves _ b p _ mergeset htree hdag
  have hcalls : Relation.ReflTransGen TreeCall s₀ s :=
    ((Relation.ReflTransGen.single (hcall hadd₂)).tail (hcall hadd₃)).tail (hcall hadd₄)
  have hdeletable : Deletable s 4 [3] := by
    refine ⟨by simp [hnodes], by decide, hroot, by decide, fun x => ?_⟩
    by_cases hx : x ∈ s.nodes
    · rw [hnodes] at hx
      simp only [Finset.mem_insert, Finset.mem_singleton] at hx
      rcases hx with rfl | rfl | rfl | rfl
      · rw [hfour]
        decide
      · rw [hthree]
        decide
      · rw [htwo]
        decide
      · rw [horigin]
        decide
    · rw [covering_of_not_mem hx]
      simp only [List.mem_singleton, List.not_mem_nil, iff_false]
      rintro rfl
      exact hx (by simp [hnodes])
  obtain ⟨s', hs'⟩ := (deleteBlock_answers hinit hcalls .none).1 4 [3] hdeletable
  obtain ⟨_, hvalid, hnodes', _⟩ := deleteBlock_answers hinit hcalls (.delete .none hdeletable hs')
  exact ⟨s, s', hs, hs', by simpa using hnodes', hvalid⟩

end TaoDag.Reachability
