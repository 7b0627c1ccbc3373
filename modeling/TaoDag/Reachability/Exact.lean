import TaoDag.Framework.BlockDag
import TaoDag.Reachability.Validate

namespace TaoDag.Reachability

open MemoryReachabilityStore OrderedTree BlockDag

/-- The blocks that have been added, with the parents and the selected parent of each. -/
structure Dag where
  blocks : Finset Hash
  parents : Hash → List Hash
  selectedParent : Hash → Option Hash

namespace Dag

/-- ORIGIN alone. -/
def origin : Dag := ⟨{blockhash.origin}, fun _ => [], fun _ => none⟩

def add (d : Dag) (b : Hash) (parents : List Hash) (selectedParent : Hash) : Dag :=
  ⟨insert b d.blocks, Function.update d.parents b parents,
    Function.update d.selectedParent b (some selectedParent)⟩

/-- `x` lies on the selected-parent chain of `y`, or is `y`. -/
def OnChain (d : Dag) : Hash → Hash → Prop :=
  Relation.ReflTransGen fun x y => d.selectedParent y = some x

end Dag

/-- The index answers for the DAG: the tree holds the selected parents, and with the
future-covering sets it knows the past of every block. -/
structure DagInv (o : Hash) (d : Dag) (s : Store) : Prop where
  store : StoreInv o s
  covering : CoveringInv s
  nodes : s.nodes = d.blocks
  dag : IsDag d.parents d.blocks
  kids : ∀ {x y}, y ∈ s.kids x ↔ d.selectedParent y = some x
  exact : ∀ {x y}, y ∈ d.blocks →
    (Reach d.parents x y ↔ Desc s.kids x y ∨ ∃ e ∈ s.covering x, Desc s.kids e y)

variable {C : Prop} {o : Hash} {d : Dag} {s s' : Store} {b sp x y : Hash}
  {parents mergeset : List Hash}

theorem DagInv.onChain_iff (inv : DagInv o d s) : d.OnChain x y ↔ Desc s.kids x y := by
  have hrel : (fun x y => d.selectedParent y = some x) = fun x y => y ∈ s.kids x := by
    funext x y
    exact propext inv.kids.symm
  rw [Dag.OnChain, hrel]
  rfl

theorem Initial.dagInv {capacity : Interval} (h : Initial blockhash.origin capacity s)
    (hpos : 0 < capacity.size) : DagInv blockhash.origin Dag.origin s where
  store := h.storeInv hpos
  covering := h.coveringInv
  nodes := h.nodes
  dag := by
    have hnone : ∀ {x y}, ¬Past Dag.origin.parents x y := by
      intro x y hxy
      obtain ⟨p, hp, _⟩ := past_iff.mp hxy
      cases hp
    exact ⟨fun hx => (by cases hx), fun _ => rfl, hnone⟩
  kids := by
    intro x y
    rw [h.kids x]
    simp [Dag.origin]
  exact := by
    intro x y _
    have hreach : Reach Dag.origin.parents x y ↔ x = y := by
      rw [reach_iff, past_iff]
      simp [Dag.origin]
    have hdesc : Desc s.kids x y ↔ x = y := by
      rw [desc_iff_head, h.kids]
      simp
    rw [hreach, hdesc, h.covering]
    simp

/-- What a new block `b` merges: the mergeset holds, besides blocks that the selected parent
reaches anyway, the rest of the past of `b`. -/
def Merges (d : Dag) (parents : List Hash) (sp : Hash) (mergeset : List Hash) : Prop :=
  ∀ x, (∃ p ∈ parents, Reach d.parents x p) ↔ Reach d.parents x sp ∨ x ∈ mergeset

theorem DagInv.add {s₁ : Store} (inv : DagInv o d s) (hatt : Attached s s₁ b sp)
    (inv' : StoreInv o s') (cov' : CoveringInv s') (hm : Merged s₁ s' b mergeset)
    (hps : ∀ p ∈ parents, p ∈ d.blocks) (hmerge : Merges d parents sp mergeset) :
    DagInv o (d.add b parents sp) s' := by
  have t := inv.store.tree.tree
  have hnew := hatt.new
  have hsp := hatt.parent
  rw [inv.nodes] at hnew hsp t
  have hkids : s'.kids = addLeaf s.kids sp b := hm.kids.trans hatt.kids
  have hnodes : s'.nodes = insert b d.blocks := by
    rw [hm.nodes, hatt.nodes, inv.nodes]
  have hdesc : ∀ {x y}, Desc s'.kids x y ↔ Desc s.kids x y ∨ y = b ∧ Desc s.kids x sp := by
    intro x y
    rw [hkids]
    exact desc_addLeaf t hnew hsp
  have hdesc_old : ∀ {x y}, y ∈ d.blocks → (Desc s'.kids x y ↔ Desc s.kids x y) := by
    intro x y hy
    have hyb : y ≠ b := fun hyb => hnew (hyb ▸ hy)
    rw [hdesc]
    simp [hyb]
  have hcov : ∀ {x e}, e ∈ s'.covering x ↔ e ∈ s.covering x ∨ x ∈ mergeset ∧ e = b := by
    intro x e
    rw [hm.covering, hatt.covering]
  -- Nothing old is below the new block.
  have hbelow : ∀ {x y}, y ∈ d.blocks → Desc s.kids x y → x ≠ b := by
    rintro x y hy hd rfl
    exact hnew (t.mem_anc hd hy)
  refine ⟨inv', cov', hnodes, inv.dag.update hnew hps, ?_, ?_⟩
  · intro x y
    rw [hkids, mem_addLeaf, inv.kids]
    change _ ↔ Function.update d.selectedParent b (some sp) y = some x
    rw [Function.update_apply]
    by_cases hyb : y = b
    · subst hyb
      have hno : d.selectedParent y ≠ some x := fun h => hnew (t.closed (inv.kids.mpr h))
      simp [hno, eq_comm]
    · simp [hyb]
  · intro x y hy
    change y ∈ insert b d.blocks at hy
    rw [Finset.mem_insert] at hy
    by_cases hyb : y = b
    · subst hyb
      have hself : ∀ {x}, Desc s.kids x y ↔ x = y := by
        intro x
        rw [desc_iff_tail]
        refine or_iff_left ?_
        rintro ⟨p, _, hy⟩
        exact hnew (t.closed hy)
      have hreach : Reach (d.add y parents sp).parents x y ↔
          x = y ∨ Reach d.parents x sp ∨ x ∈ mergeset := by
        rw [← hmerge x, reach_iff]
        exact or_congr_right (inv.dag.past_update_self hnew hps)
      have hcover : (∃ e ∈ s'.covering x, Desc s'.kids e y) ↔
          (∃ e ∈ s.covering x, Desc s.kids e sp) ∨ x ∈ mergeset := by
        constructor
        · rintro ⟨e, he, hd⟩
          rcases hcov.mp he with he | ⟨hx, _⟩
          · rcases hdesc.mp hd with hd | ⟨_, hd⟩
            · exact absurd (hself.mp hd ▸ inv.covering.mem he) hatt.new
            · exact Or.inl ⟨e, he, hd⟩
          · exact Or.inr hx
        · rintro (⟨e, he, hd⟩ | hx)
          · exact ⟨e, hcov.mpr (Or.inl he), hdesc.mpr (Or.inr ⟨rfl, hd⟩)⟩
          · exact ⟨y, hcov.mpr (Or.inr ⟨hx, rfl⟩), .refl⟩
      rw [hreach, hcover, hdesc, hself, inv.exact hsp]
      simp only [true_and, or_assoc]
    · have hym := hy.resolve_left hyb
      have hreach : Reach (d.add b parents sp).parents x y ↔ Reach d.parents x y :=
        inv.dag.reach_update hnew hym
      rw [hreach, inv.exact hym, hdesc_old hym]
      refine or_congr_right ⟨?_, ?_⟩
      · rintro ⟨e, he, hd⟩
        exact ⟨e, hcov.mpr (Or.inl he), (hdesc_old hym).mpr hd⟩
      · rintro ⟨e, he, hd⟩
        rw [hdesc_old hym] at hd
        rcases hcov.mp he with he | ⟨_, heb⟩
        · exact ⟨e, he, hd⟩
        · exact absurd heb (hbelow hym hd)

theorem addBlock_spec (fr : Interval.Fractions) (inv : DagInv o d s)
    (hps : ∀ p ∈ parents, p ∈ d.blocks) (hmerge : Merges d parents sp mergeset) :
    Returns False (addBlock fr s b sp mergeset) (fun s' =>
      b ∉ d.blocks ∧ sp ∈ d.blocks ∧ DagInv o (d.add b parents sp) s') := by
  refine Returns.bind (addTreeBlockWith_spec splitHalf_halves fr inv.store) fun s₁ hs₁ => ?_
  obtain ⟨inv₁, hatt⟩ := hs₁
  have cov₁ := hatt.coveringInv inv.covering
  refine (addDagBlock_spec inv₁ cov₁ hatt.mem hatt.leaf).mono fun s' hs' => ?_
  obtain ⟨inv', cov', hm⟩ := hs'
  rw [← inv.nodes]
  exact ⟨hatt.new, hatt.parent, inv.add hatt inv' cov' hm hps hmerge⟩

/-- A hint moves labels only. -/
theorem hintVirtualSelectedParent_spec (fr : Interval.Fractions) (inv : DagInv o d s) {hint : Hash} :
    Returns False (hintVirtualSelectedParent fr s hint) (DagInv o d) := by
  refine (tryAdvancingReindexRoot_spec fr inv.store).mono fun s' hs' => ?_
  obtain ⟨inv', links⟩ := hs'
  refine ⟨inv', links.coveringInv inv.covering, links.nodes.trans inv.nodes, inv.dag, ?_, ?_⟩
  · rw [links.kids]
    exact inv.kids
  · rw [links.kids, links.covering]
    exact inv.exact

/-- The indices that calls build from ORIGIN, each over the DAG of the blocks added: the selected
parent is one of the parents, and the mergeset the past of the block but for the selected parent
and its past. -/
inductive Built (fr : Interval.Fractions) : Store → Dag → Prop
  | init {s : Store} (run : Reachability.init MemoryReachabilityStore.empty = .ok s) :
      Built fr s Dag.origin
  | add {s s₁ s' : Store} {d : Dag} {b sp : Hash} {parents mergeset : List Hash}
      (before : Built fr s d) (known : ∀ p ∈ parents, p ∈ d.blocks) (selected : sp ∈ parents)
      (merged : ∀ x, x ∈ mergeset ↔ Past (d.add b parents sp).parents x b ∧
        ¬Reach (d.add b parents sp).parents x sp)
      (run : addBlock fr s b sp mergeset = .ok s₁)
      (hint : hintVirtualSelectedParent fr s₁ b = .ok s') : Built fr s' (d.add b parents sp)

theorem init_dagInv (h : Reachability.init MemoryReachabilityStore.empty = .ok s) :
    DagInv blockhash.origin Dag.origin s := by
  have hinit : MemoryReachabilityStore.empty.init blockhash.origin Interval.maximal = .ok s := h
  exact ((init_spec _ _).post hinit).dagInv (by decide)

theorem Built.inv {fr : Interval.Fractions} (h : Built fr s d) : DagInv blockhash.origin d s := by
  induction h with
  | init run => exact init_dagInv run
  | @add s s₁ s' d b sp parents mergeset before known selected merged run hint ih =>
    have hnew : b ∉ d.blocks := by
      obtain ⟨s₂, htree, _⟩ := bind_eq_ok.mp run
      rw [← ih.nodes]
      exact ((addTreeBlockWith_spec splitHalf_halves fr ih.store).post htree).2.new
    have hsp := known sp selected
    have hmerge : Merges d parents sp mergeset := by
      intro x
      have hpast : Past (d.add b parents sp).parents x b ↔ ∃ p ∈ parents, Reach d.parents x p :=
        ih.dag.past_update_self hnew known
      have hreach : Reach (d.add b parents sp).parents x sp ↔ Reach d.parents x sp :=
        ih.dag.reach_update hnew hsp
      rw [merged, hpast, hreach]
      constructor
      · intro h
        by_cases hx : Reach d.parents x sp
        · exact Or.inl hx
        · exact Or.inr ⟨h, hx⟩
      · rintro (hx | hx)
        · exact ⟨sp, selected, hx⟩
        · exact hx.1
    have hinv := ((addBlock_spec fr ih known hmerge).post run).2.2
    exact (hintVirtualSelectedParent_spec fr hinv).post hint

/-- Both queries return for blocks of the DAG, and answer for it. -/
theorem reachability_exact {fr : Interval.Fractions} (h : Built fr s d) {a b : Hash}
    (ha : a ∈ d.blocks) (hb : b ∈ d.blocks) :
    (∃ r, isDagAncestorOf s a b = .ok r ∧ (r = true ↔ a = b ∨ Past d.parents a b)) ∧
    ∃ r, isChainAncestorOf s a b = .ok r ∧ (r = true ↔ d.OnChain a b) := by
  have inv := h.inv
  have ha' : True → a ∈ s.nodes := fun _ => by rwa [inv.nodes]
  have hb' : True → b ∈ s.nodes := fun _ => by rwa [inv.nodes]
  constructor
  · obtain ⟨r, hr, -, -, hiff⟩ := (isDagAncestorOf_spec inv.store.labelled inv.covering ha' hb').total
    rw [← inv.exact hb, reach_iff] at hiff
    exact ⟨r, hr, hiff⟩
  · obtain ⟨r, hr, -, -, hiff⟩ := (isChainAncestorOf_desc inv.store.labelled ha' hb').total
    rw [← inv.onChain_iff] at hiff
    exact ⟨r, hr, hiff⟩

/-- A block over ORIGIN. -/
theorem reachability_exact_child :
    ∃ s d, Built (fun _ _ _ => 0) s d ∧ d.parents 1 = [blockhash.origin] ∧
      (∃ r, isDagAncestorOf s blockhash.origin 1 = .ok r ∧
        (r = true ↔ blockhash.origin = 1 ∨ Past d.parents blockhash.origin 1)) ∧
      ∃ r, isChainAncestorOf s blockhash.origin 1 = .ok r ∧
        (r = true ↔ d.OnChain blockhash.origin 1) := by
  have hrun : returnsWith (Reachability.init MemoryReachabilityStore.empty >>= fun s =>
      addBlock (fun _ _ _ => 0) s 1 blockhash.origin [] >>= fun s =>
        hintVirtualSelectedParent (fun _ _ _ => 0) s 1) (fun _ => true) = true := by
    decide +kernel
  obtain ⟨s, hs, _⟩ := returnsWith_iff.mp hrun
  obtain ⟨s₀, hinit, hs⟩ := bind_eq_ok.mp hs
  obtain ⟨s₁, hadd, hhint⟩ := bind_eq_ok.mp hs
  have hbuilt : Built (fun _ _ _ => 0) s (Dag.origin.add 1 [blockhash.origin] blockhash.origin) := by
    refine .add (.init hinit) (by simp [Dag.origin]) (by simp) (fun x => ?_) hadd hhint
    have hpast : Past (Dag.origin.add 1 [blockhash.origin] blockhash.origin).parents x 1 ↔
        Reach (Dag.origin.add 1 [blockhash.origin] blockhash.origin).parents x blockhash.origin := by
      rw [past_iff]
      simp [Dag.add]
    rw [hpast]
    simp
  have hparents : (Dag.origin.add 1 [blockhash.origin] blockhash.origin).parents 1 =
      [blockhash.origin] := by simp [Dag.add]
  exact ⟨s, _, hbuilt, hparents,
    reachability_exact hbuilt (by simp [Dag.add, Dag.origin]) (by simp [Dag.add])⟩

theorem isStrictChainAncestorOf_desc (inv : DagInv o d s) (hx : x ∈ d.blocks) (hy : y ∈ d.blocks) :
    ∃ r, isStrictChainAncestorOf s x y = .ok r ∧ (r = true ↔ Desc s.kids x y ∧ x ≠ y) := by
  rw [← inv.nodes] at hx hy
  obtain ⟨r, hr, hiff, -, -⟩ :=
    (isStrictChainAncestorOf_spec (fun _ : True => hx) fun _ => hy).total
  refine ⟨r, hr, ?_⟩
  rw [hiff]
  have hlab := inv.store.labelled
  exact (desc_iff_strictly_contains (fun _ => hlab.nested) hlab.tree hx hy (hlab.lo_le_hi hy)).symm

/-- The next chain ancestor is the child on the way down, and there is one such child. -/
theorem getNextChainAncestor_spec (inv : DagInv o d s) (hx : x ∈ d.blocks) (hy : y ∈ d.blocks)
    (hxy : Desc s.kids x y) (hne : x ≠ y) :
    ∃ c, getNextChainAncestor s y x = .ok c ∧ ∀ e, e ∈ s.kids x ∧ Desc s.kids e y ↔ e = c := by
  have hlab := inv.store.labelled
  obtain ⟨r, hr, hiff⟩ := isStrictChainAncestorOf_desc inv hx hy
  have hy' : y ∈ s.nodes := by rwa [inv.nodes]
  have hkids : ∀ pre e post, s.kids x = pre ++ e :: post → ∀ b ∈ pre, s.lo b ≤ s.hi b := by
    intro pre e post hk b hb
    apply hlab.lo_le_hi
    apply hlab.tree.closed (x := x)
    rw [hk]
    exact List.mem_append_left _ hb
  obtain ⟨c, hc, hkid, hdesc⟩ := (nextChainAncestor_spec (C := True) inv.store.tree
    (fun _ => hlab.nested) ⟨hxy, hne⟩ hkids (hlab.lo_le_hi hy')).total
  refine ⟨c, ?_, ?_⟩
  · rw [getNextChainAncestor, if_neg (Ne.symm hne), hr]
    simp only [bind, Except.bind]
    rw [if_pos (hiff.mpr ⟨hxy, hne⟩), hc]
  · intro e
    constructor
    · rintro ⟨he, hey⟩
      exact hlab.tree.kids_disjoint he hkid hey hdesc
    · rintro rfl
      exact ⟨hkid, hdesc⟩

/-- A step down a chain: the block asked for is the one whose selected parent is the ancestor and
which is on the chain of the descendant. Where there is none, the query is refused. -/
theorem getNextChainAncestor_exact {fr : Interval.Fractions} (h : Built fr s d) {a b : Hash}
    (ha : a ∈ d.blocks) (hb : b ∈ d.blocks) :
    (∀ c, getNextChainAncestor s b a = .ok c ↔ d.selectedParent c = some a ∧ d.OnChain c b) ∧
      ((∀ c, ¬(d.selectedParent c = some a ∧ d.OnChain c b)) →
        getNextChainAncestor s b a = .error (.error .badQuery)) := by
  have inv := h.inv
  have hiff : ∀ c, d.selectedParent c = some a ∧ d.OnChain c b ↔
      c ∈ s.kids a ∧ Desc s.kids c b := by
    intro c
    rw [inv.kids, inv.onChain_iff]
  by_cases hdown : Desc s.kids a b ∧ a ≠ b
  · obtain ⟨c, hc, honly⟩ := getNextChainAncestor_spec inv ha hb hdown.1 hdown.2
    constructor
    · intro e
      rw [hiff, honly, hc]
      simp [eq_comm]
    · intro hnone
      exact absurd ((hiff c).mpr ((honly c).mpr rfl)) (hnone c)
  · have hrefused : getNextChainAncestor s b a = .error (.error .badQuery) := by
      rw [getNextChainAncestor]
      by_cases hab : b = a
      · rw [if_pos hab]
      · obtain ⟨r, hr, hstrict⟩ := isStrictChainAncestorOf_desc inv ha hb
        have hfalse : r ≠ true := fun hr => hdown (hstrict.mp hr)
        rw [if_neg hab, hr]
        simp only [bind, Except.bind]
        rw [if_neg hfalse]
    refine ⟨?_, fun _ => hrefused⟩
    intro c
    rw [hiff, hrefused]
    constructor
    · intro hc
      cases hc
    · rintro ⟨hkid, hcb⟩
      exfalso
      apply hdown
      refine ⟨.trans (.kid hkid) hcb, ?_⟩
      rintro rfl
      exact inv.store.labelled.tree.not_desc_of_kid hkid hcb

/-- The way down from ORIGIN to the block over it. -/
theorem getNextChainAncestor_exact_child : ∃ s d, Built (fun _ _ _ => 0) s d ∧
    d.selectedParent 1 = some blockhash.origin ∧
      getNextChainAncestor s 1 blockhash.origin = .ok 1 := by
  have hrun : returnsWith (Reachability.init MemoryReachabilityStore.empty >>= fun s =>
      addBlock (fun _ _ _ => 0) s 1 blockhash.origin [] >>= fun s =>
        hintVirtualSelectedParent (fun _ _ _ => 0) s 1) (fun _ => true) = true := by
    decide +kernel
  obtain ⟨s, hs, _⟩ := returnsWith_iff.mp hrun
  obtain ⟨s₀, hinit, hs⟩ := bind_eq_ok.mp hs
  obtain ⟨s₁, hadd, hhint⟩ := bind_eq_ok.mp hs
  have hnone : ∀ x, x ∈ ([] : List Hash) ↔
      Past (Dag.origin.add 1 [blockhash.origin] blockhash.origin).parents x 1 ∧
        ¬Reach (Dag.origin.add 1 [blockhash.origin] blockhash.origin).parents x
          blockhash.origin := by
    intro x
    rw [past_iff]
    simp [Dag.add]
  have hbuilt := Built.add (.init hinit) (by simp [Dag.origin]) (by simp) hnone hadd hhint
  have hselected : (Dag.origin.add 1 [blockhash.origin] blockhash.origin).selectedParent 1 =
      some blockhash.origin := by simp [Dag.add]
  refine ⟨s, _, hbuilt, hselected, ?_⟩
  have hexact := getNextChainAncestor_exact hbuilt (a := blockhash.origin) (b := 1)
    (by simp [Dag.add, Dag.origin]) (by simp [Dag.add])
  exact (hexact.1 1).mpr ⟨hselected, .refl⟩

end TaoDag.Reachability
