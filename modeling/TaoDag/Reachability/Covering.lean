import TaoDag.Reachability.Concentrate

namespace TaoDag.Reachability

open MemoryReachabilityStore OrderedTree ReindexOperationContext

variable {C : Prop} {o : Hash} {s s' : Store} {b x y : Hash} {l : List Hash} {depth : Hash → Nat}

section Labels

/-- The blocks form a tree, each laid out, whatever heights are stored with them. -/
structure Labelled (o : Hash) (s : Store) (depth : Hash → Nat) : Prop where
  tree : IsTree s.kids s.nodes o depth
  laidOut : ∀ z ∈ s.nodes, LaidOut s z

theorem StoreInv.labelled (inv : StoreInv o s) : Labelled o s s.depth :=
  ⟨inv.tree.tree, inv.laidOut⟩

theorem Labelled.nested (inv : Labelled o s depth) {z : Hash} (hz : s.kids z ≠ []) : NestedAt s z := by
  have hzm : z ∈ s.nodes := by
    by_contra hno
    exact hz (inv.tree.outside hno)
  exact (inv.laidOut z hzm).nested

/-- In a laid out store labels decide ancestry. -/
theorem Labelled.contains_iff (inv : Labelled o s depth) (hx : x ∈ s.nodes) (hy : y ∈ s.nodes) :
    s.lo x ≤ s.lo y ∧ s.hi y ≤ s.hi x ↔ Desc s.kids x y :=
  (desc_iff_contains (fun _ => inv.nested) inv.tree hx hy (inv.laidOut y hy).nested.le).symm

theorem Labelled.lt_of_before (inv : Labelled o s depth) (h : Before s.kids x y) : s.hi x < s.lo y :=
  OrderedTree.lt_of_before (fun _ => inv.nested) h

theorem Labelled.lo_le_hi (inv : Labelled o s depth) (hx : x ∈ s.nodes) : s.lo x ≤ s.hi x :=
  (inv.laidOut x hx).nested.le

theorem Labelled.ordered (inv : Labelled o s depth) (h : l.Pairwise (Before s.kids)) : Ordered s l :=
  h.imp fun hb => inv.lt_of_before hb

/-- The last label of a block is in no block below it. -/
theorem Labelled.desc_of_lo_eq_hi (inv : Labelled o s depth) (hx : x ∈ s.nodes) (hy : y ∈ s.nodes)
    (h : s.lo x = s.hi y) : Desc s.kids x y := by
  have hxl := inv.lo_le_hi hx
  have hyl := inv.lo_le_hi hy
  rcases inv.tree.trichotomy hx hy with hd | hd | hb | hb
  · exact hd
  · by_cases hne : y = x
    · rw [hne]
      exact .refl
    · have hlt := (contains_of_desc (fun _ => inv.nested) hd).2.2 hne
      omega
  · have := inv.lt_of_before hb
    omega
  · have := inv.lt_of_before hb
    omega

end Labels

private theorem of_mem_take_findIdx {p : Hash → Bool} {l : List Hash} {e : Hash}
    (he : e ∈ l.take (l.findIdx p)) : p e = false := by
  induction l with
  | nil => cases he
  | cons c l ih =>
    rw [List.findIdx_cons] at he
    cases hp : p c with
    | true =>
      rw [hp] at he
      cases he
    | false =>
      rw [hp, cond_false, List.take_succ_cons] at he
      rcases List.mem_cons.mp he with rfl | he
      · exact hp
      · exact ih he

private theorem drop_findIdx (p : Hash → Bool) (l : List Hash) :
    l.drop (l.findIdx p) = [] ∨ ∃ c rest, l.drop (l.findIdx p) = c :: rest ∧ p c = true := by
  induction l with
  | nil => exact Or.inl rfl
  | cons c l ih =>
    rw [List.findIdx_cons]
    cases hp : p c with
    | true => exact Or.inr ⟨c, l, rfl, hp⟩
    | false =>
      rw [cond_false, List.drop_succ_cons]
      exact ih

/-- What the search among blocks that lie apart returns: the one above `y`, or the number of
those that come before `y`. -/
def SearchResult (s : Store) (l : List Hash) (y : Hash) : SearchOutput → Prop
  | .found h _ => h ∈ l ∧ Desc s.kids h y
  | .notFound i => (∀ e ∈ l, ¬Desc s.kids e y) ∧
      ((∀ e ∈ l, ¬Desc s.kids y e) →
        (∀ e ∈ l.take i, Before s.kids e y) ∧ ∀ e ∈ l.drop i, Before s.kids y e)

theorem search_spec (inv : Labelled o s depth) (hl : ∀ e ∈ l, e ∈ s.nodes)
    (hb : l.Pairwise (Before s.kids)) (hy : y ∈ s.nodes) :
    Returns C (binarySearchDescendant s l y) (SearchResult s l y) := by
  have hord := inv.ordered hb
  have hyl := inv.lo_le_hi hy
  by_cases habove : ∃ c ∈ l, Desc s.kids c y
  · obtain ⟨c, hc, hcy⟩ := habove
    obtain ⟨pre, post, rfl⟩ := List.append_of_mem hc
    have hcont := (inv.contains_iff (hl c hc) hy).mpr hcy
    refine (binarySearchDescendant_found (fun _ => ⟨hl, hy⟩) hord
      (fun e he => inv.lo_le_hi (hl e (List.mem_append_left _ he))) hcont.1 hcont.2 hyl).mono ?_
    rintro r rfl
    exact ⟨hc, hcy⟩
  · have hno : ∀ e ∈ l, ¬Desc s.kids e y := fun e he hd => habove ⟨e, he, hd⟩
    refine Returns.bind (assertHashesOrdered_spec (fun _ => hl) hord) fun _ _ => ?_
    refine Returns.bind (getInterval_spec fun _ => hy) fun i hi => ?_
    refine Returns.bind (starts_spec hl) fun starts hs => ?_
    have hpoint : i.stop = s.hi y := by
      rw [hi.1]
      rfl
    rw [hs, hpoint, binarySearchByKey]
    set j := (l.map s.lo).findIdx (s.hi y ≤ ·) with hj
    by_cases hstart : (l.map s.lo)[j]? = some (s.hi y)
    · -- A block that starts at the last label of `y` would be above it.
      exfalso
      rw [List.getElem?_map, Option.map_eq_some_iff] at hstart
      obtain ⟨c, hc, hlo⟩ := hstart
      have hcl := List.mem_of_getElem? hc
      exact hno c hcl (inv.desc_of_lo_eq_hi (hl c hcl) hy hlo)
    · have hidx : j = l.findIdx fun e => decide (s.hi y ≤ s.lo e) := by
        rw [hj, List.findIdx_map]
        rfl
      have hresult : SearchResult s l y (.notFound j) := by
        refine ⟨hno, fun hno' => ?_⟩
        have hapart : ∀ e ∈ l, Before s.kids e y ∨ Before s.kids y e := fun e he => by
          rcases inv.tree.trichotomy (hl e he) hy with hd | hd | hb | hb
          · exact absurd hd (hno e he)
          · exact absurd hd (hno' e he)
          · exact Or.inl hb
          · exact Or.inr hb
        refine ⟨fun e he => ?_, fun e he => ?_⟩
        · have hel := List.mem_of_mem_take he
          rw [hidx] at he
          have hlt : ¬s.hi y ≤ s.lo e := of_decide_eq_false (of_mem_take_findIdx he)
          refine (hapart e hel).resolve_right fun hb => ?_
          have := inv.lt_of_before hb
          omega
        · have hel := List.mem_of_mem_drop he
          have hle : s.hi y ≤ s.lo e := by
            rw [hidx] at he
            rcases drop_findIdx (fun e => decide (s.hi y ≤ s.lo e)) l with hnil | ⟨c, rest, hd, hc⟩
            · rw [hnil] at he
              cases he
            · have hcl : s.hi y ≤ s.lo c := of_decide_eq_true hc
              have hpw := hord.sublist (List.drop_sublist (l.findIdx fun e => s.hi y ≤ s.lo e) l)
              have hcm : c ∈ l := List.mem_of_mem_drop (by rw [hd]; simp)
              rw [hd] at he hpw
              rcases List.mem_cons.mp he with rfl | he
              · exact hcl
              · have := (List.pairwise_cons.mp hpw).1 e he
                have := inv.lo_le_hi (hl c hcm)
                omega
          refine (hapart e hel).resolve_left fun hb => ?_
          have := inv.lt_of_before hb
          have := inv.lo_le_hi (hl e hel)
          omega
      rw [if_neg hstart]
      by_cases hpos : 0 < j
      · simp only [hpos, if_true]
        have hjl : j - 1 < l.length := by
          have : j ≤ l.length := by
            rw [hidx]
            exact List.findIdx_le_length
          omega
        have hsome : C → ∃ c, l[j - 1]? = some c := fun _ => ⟨_, List.getElem?_eq_getElem hjl⟩
        refine Returns.bind (expect_spec (Q := fun c => c ∈ l) hsome fun c hc =>
          List.mem_of_getElem? hc) fun c hc => ?_
        refine Returns.bind (isChainAncestorOf_spec (fun _ => hl c hc) fun _ => hy) fun a ha => ?_
        have hfalse : a = false := by
          rw [Bool.eq_false_iff]
          intro htrue
          exact hno c hc ((inv.contains_iff (hl c hc) hy).mp (ha.1.mp htrue))
        rw [hfalse]
        exact Returns.pure hresult
      · simp only [hpos, if_false]
        exact Returns.pure hresult

/-- The future-covering sets hold blocks that lie apart. -/
structure CoveringInv (s : Store) : Prop where
  mem : ∀ {x e}, e ∈ s.covering x → e ∈ s.nodes
  apart : ∀ x, (s.covering x).Pairwise (Before s.kids)

/-- A store with another future-covering set at `m`. -/
structure Recovered (s s' : Store) (m : Hash) (l : List Hash) : Prop where
  mem : m ∈ s.nodes
  nodes : s'.nodes = s.nodes
  kids : s'.kids = s.kids
  par : s'.par = s.par
  depth : s'.depth = s.depth
  iv : s'.iv = s.iv
  root : s'.reindexRoot = s.reindexRoot
  covering : s'.covering = Function.update s.covering m l

theorem insertFutureCoveringItem_spec {m : Hash} {i : Nat} :
    Returns False (s.insertFutureCoveringItem m b i) (fun s' =>
      i ≤ (s.covering m).length ∧ Recovered s s' m ((s.covering m).insertIdx i b)) := by
  refine Returns.bind (getFutureCoveringSet_spec False.elim) fun l hl => ?_
  refine Returns.bind (assert_spec False.elim) fun _ hle => ?_
  rw [hl.1] at hle
  refine (update_written False.elim).mono fun s' hs' => ⟨hle, hs'.mem, ?_, ?_, ?_, ?_, ?_,
    hs'.root, hs'.covering⟩
  · rw [MemoryReachabilityStore.nodes, hs'.keys]
    rfl
  · rw [hs'.kids, Function.update_eq_self]
  · rw [hs'.par, Function.update_eq_self]
  · rw [hs'.depth, Function.update_eq_self]
  · rw [hs'.iv, Function.update_eq_self]

theorem Recovered.storeInv {m : Hash} (h : Recovered s s' m l) (inv : StoreInv o s) :
    StoreInv o s' where
  tree := by
    refine ⟨?_, ?_, ?_⟩
    · rw [h.kids, h.nodes, h.depth]
      exact inv.tree.tree
    · rw [h.kids, h.par]
      exact inv.tree.par
    · rw [h.par]
      exact inv.tree.par_root
  laidOut := by
    intro z hz
    rw [h.nodes] at hz
    have hlo : s'.lo = s.lo := by
      funext x
      rw [MemoryReachabilityStore.lo, h.iv]
      rfl
    have hhi : s'.hi = s.hi := by
      funext x
      rw [MemoryReachabilityStore.hi, h.iv]
      rfl
    have hl := inv.laidOut z hz
    refine ⟨?_, ?_⟩
    · rw [NestedAt, hlo, hhi, h.kids]
      exact hl.nested
    · rw [PackedAt, hlo, hhi, h.kids]
      exact hl.packed
  root := by
    rw [h.nodes, h.root, h.kids]
    exact inv.root

private theorem pairwise_insertIdx {R : Hash → Hash → Prop} {i : Nat} (hp : l.Pairwise R)
    (hbefore : ∀ e ∈ l.take i, R e b) (hafter : ∀ e ∈ l.drop i, R b e) :
    (l.insertIdx i b).Pairwise R := by
  induction l generalizing i with
  | nil =>
    cases i with
    | zero => simp
    | succ i => simp
  | cons c l ih =>
    cases i with
    | zero =>
      rw [List.insertIdx_zero]
      exact List.pairwise_cons.mpr ⟨hafter, hp⟩
    | succ i =>
      rw [List.pairwise_cons] at hp
      rw [List.insertIdx_succ_cons, List.pairwise_cons]
      refine ⟨fun e he => ?_, ih hp.2 (fun e he => hbefore e ?_) hafter⟩
      · rcases List.eq_or_mem_of_mem_insertIdx he with rfl | he
        · exact hbefore c (by simp)
        · exact hp.1 e he
      · rw [List.take_succ_cons]
        exact List.mem_cons_of_mem _ he

/-- `insert_to_future_covering_set` for a new leaf: it is put where its labels belong, and it was
below no block of the set. -/
theorem insertToFutureCoveringSet_spec (inv : StoreInv o s) (cov : CoveringInv s) {m : Hash}
    (hb : b ∈ s.nodes) (hleaf : s.kids b = []) :
    Returns False (insertToFutureCoveringSet s m b) (fun s' => ∃ i,
      Recovered s s' m ((s.covering m).insertIdx i b) ∧ i ≤ (s.covering m).length ∧
      (∀ e ∈ s.covering m, ¬Desc s.kids e b) ∧ CoveringInv s') := by
  refine Returns.bind (getFutureCoveringSet_spec False.elim) fun l hl => ?_
  rw [hl.1]
  refine Returns.bind (search_spec inv.labelled (fun e he => cov.mem he) (cov.apart m) hb) fun r hr => ?_
  cases r with
  | found h i => exact Returns.error id
  | notFound i =>
    obtain ⟨hno, hplace⟩ := hr
    have hno' : ∀ e ∈ s.covering m, ¬Desc s.kids b e := by
      intro e he hbe
      rcases desc_iff_head.mp hbe with rfl | ⟨c, hc, _⟩
      · exact hno b he .refl
      · rw [hleaf] at hc
        cases hc
    obtain ⟨hbefore, hafter⟩ := hplace hno'
    refine insertFutureCoveringItem_spec.mono fun s' hs' => ⟨i, hs'.2, hs'.1, hno, ?_⟩
    obtain ⟨hle, hrec⟩ := hs'
    refine ⟨fun {x e} he => ?_, fun x => ?_⟩
    · rw [hrec.covering, Function.update_apply] at he
      rw [hrec.nodes]
      split_ifs at he with hx
      · rcases (List.mem_insertIdx hle).mp he with rfl | he
        · exact hb
        · exact cov.mem he
      · exact cov.mem he
    · rw [hrec.covering, hrec.kids, Function.update_apply]
      split_ifs with hx
      · exact pairwise_insertIdx (cov.apart m) hbefore hafter
      · exact cov.apart x

/-- The future-covering sets of the merged blocks have gained the new block. -/
structure Merged (s s' : Store) (b : Hash) (mergeset : List Hash) : Prop where
  mem : ∀ m ∈ mergeset, m ∈ s.nodes
  nodes : s'.nodes = s.nodes
  kids : s'.kids = s.kids
  depth : s'.depth = s.depth
  covering : ∀ x e, e ∈ s'.covering x ↔ e ∈ s.covering x ∨ x ∈ mergeset ∧ e = b

theorem addDagBlock_spec (inv : StoreInv o s) (cov : CoveringInv s) {mergeset : List Hash}
    (hb : b ∈ s.nodes) (hleaf : s.kids b = []) :
    Returns False (addDagBlock s b mergeset) (fun s' =>
      StoreInv o s' ∧ CoveringInv s' ∧ Merged s s' b mergeset) := by
  induction mergeset generalizing s with
  | nil => exact Returns.pure ⟨inv, cov, by simp, rfl, rfl, rfl, by simp⟩
  | cons m ms ih =>
    rw [addDagBlock, List.foldlM_cons]
    refine Returns.bind (insertToFutureCoveringSet_spec inv cov hb hleaf) fun s₁ hs₁ => ?_
    obtain ⟨i, hrec, hle, _, cov₁⟩ := hs₁
    refine (ih (hrec.storeInv inv) cov₁ (by rwa [hrec.nodes]) (by rwa [hrec.kids])).mono ?_
    rintro s' ⟨inv', cov', h'⟩
    refine ⟨inv', cov', ?_, h'.nodes.trans hrec.nodes, h'.kids.trans hrec.kids,
      h'.depth.trans hrec.depth, fun x e => ?_⟩
    · refine List.forall_mem_cons.mpr ⟨hrec.mem, fun q hq => ?_⟩
      rw [← hrec.nodes]
      exact h'.mem q hq
    · rw [h'.covering, hrec.covering, Function.update_apply, List.mem_cons]
      split_ifs with hx
      · subst hx
        rw [List.mem_insertIdx hle]
        tauto
      · simp [hx]

/-- `is_dag_ancestor_of` looks for a chain ancestor among the block and its covering set. -/
theorem isDagAncestorOf_spec (inv : Labelled o s depth) (cov : CoveringInv s) (hx : C → x ∈ s.nodes)
    (hy : C → y ∈ s.nodes) :
    Returns C (isDagAncestorOf s x y) (fun r => x ∈ s.nodes ∧ y ∈ s.nodes ∧
      (r = true ↔ Desc s.kids x y ∨ ∃ e ∈ s.covering x, Desc s.kids e y)) := by
  refine Returns.bind (isChainAncestorOf_spec hx hy) fun a ha => ?_
  obtain ⟨hiff, hx, hy⟩ := ha
  rw [inv.contains_iff hx hy] at hiff
  cases a with
  | true => exact Returns.pure ⟨hx, hy, by simp [hiff.mp rfl]⟩
  | false =>
    have hno : ¬Desc s.kids x y := fun h => by cases hiff.mpr h
    refine Returns.bind (getFutureCoveringSet_spec fun _ => hx) fun l hl => ?_
    rw [hl.1]
    refine Returns.bind (search_spec inv (fun e he => cov.mem he) (cov.apart x) hy) fun r hr => ?_
    cases r with
    | found h i => exact Returns.pure ⟨hx, hy, by simpa using Or.inr ⟨h, hr⟩⟩
    | notFound i =>
      refine Returns.pure ⟨hx, hy, ?_⟩
      have hnone : ¬∃ e ∈ s.covering x, Desc s.kids e y := by
        rintro ⟨e, he, hd⟩
        exact hr.1 e he hd
      simp [hno, hnone]

theorem isChainAncestorOf_desc (inv : Labelled o s depth) (hx : C → x ∈ s.nodes)
    (hy : C → y ∈ s.nodes) :
    Returns C (isChainAncestorOf s x y) (fun r => x ∈ s.nodes ∧ y ∈ s.nodes ∧
      (r = true ↔ Desc s.kids x y)) := by
  refine (isChainAncestorOf_spec hx hy).mono fun a ha => ?_
  obtain ⟨hiff, hx, hy⟩ := ha
  rw [inv.contains_iff hx hy] at hiff
  exact ⟨hx, hy, hiff⟩

end TaoDag.Reachability
