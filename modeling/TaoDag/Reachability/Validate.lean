import TaoDag.Reachability.Covering

namespace TaoDag.Reachability

open MemoryReachabilityStore OrderedTree ReindexOperationContext

/-- `Display` of an interval. -/
def Interval.display (i : Interval) : String :=
  "[" ++ toString i.start ++ ", " ++ toString i.stop ++ "]"

def validateChildren (s : Store) (parent : Hash) (parentInterval : Interval) :
    List Hash → Result (Except String Unit)
  | [] => return .ok ()
  | child :: rest => do
      let childInterval ← s.getInterval child
      if !parentInterval.strictlyContains childInterval then
        return .error ("child " ++ displayHash child ++ " " ++ childInterval.display ++
          " out of parent " ++ displayHash parent ++ " " ++ parentInterval.display)
      else validateChildren s parent parentInterval rest

/-- A check of the neighbors of a list by their intervals: `bad` ones are reported. -/
def validateNeighbors (s : Store) (bad : Interval → Interval → Bool) (message : String) :
    List Hash → Result (Except String Unit)
  | a :: b :: rest => do
      let l ← s.getInterval a
      let r ← s.getInterval b
      if bad l r then return .error (message ++ " " ++ l.display ++ " " ++ r.display)
      else validateNeighbors s bad message (b :: rest)
  | _ => return .ok ()

def validateLoop (s : Store) : Nat → List Hash → Result (Except String Unit)
  | 0, _ => .error .diverge
  | _+1, [] => return .ok ()
  | fuel+1, parent :: queue => do
      let children ← s.getChildren parent
      let parentInterval ← s.getInterval parent
      if parentInterval.isEmpty then
        return .error ("empty interval for " ++ displayHash parent)
      else
        match ← validateChildren s parent parentInterval children with
        | .error e => return .error e
        | .ok () =>
            match ← validateNeighbors s (fun a b => a.stop + 1 != b.start)
                "non-consecutive siblings" children with
            | .error e => return .error e
            | .ok () =>
                let fcs ← s.getFutureCoveringSet parent
                match ← validateNeighbors s (fun l r => decide (r.start ≤ l.stop))
                    "non-ordered future covering items" fcs with
                | .error e => return .error e
                | .ok () => validateLoop s fuel (queue ++ children)

/-- The tree-interval invariants of the subtree below `root`: every interval is non-empty and
strictly inside that of its parent, siblings are adjacent, and future-covering sets are ordered. -/
def validateIntervals (s : Store) (root : Hash) : Result (Except String Unit) :=
  validateLoop s (s.count + 1) [root]

variable {o : Hash} {s s' : Store} {b p x y : Hash} {l : List Hash} {depth : Hash → Nat}

theorem validateChildren_ok {i : Interval} (hl : ∀ c ∈ l, c ∈ s.nodes)
    (hin : ∀ c ∈ l, i.start ≤ s.lo c ∧ s.hi c < i.stop) :
    Returns True (validateChildren s p i l) (fun r => r = .ok ()) := by
  induction l with
  | nil => exact Returns.pure rfl
  | cons c l ih =>
    rw [List.forall_mem_cons] at hl hin
    refine Returns.bind (getInterval_spec fun _ => hl.1) fun ci hci => ?_
    have hcont : i.strictlyContains ci = true := by
      rw [hci.1]
      exact Interval.strictlyContains_iff.mpr hin.1
    rw [hcont]
    exact ih hl.2 hin.2

theorem validateNeighbors_ok {bad : Interval → Interval → Bool} {message : String}
    (hl : ∀ c ∈ l, c ∈ s.nodes)
    (hgood : l.IsChain fun a b => bad (s.iv a) (s.iv b) = false) :
    Returns True (validateNeighbors s bad message l) (fun r => r = .ok ()) := by
  induction l with
  | nil => exact Returns.pure rfl
  | cons c l ih =>
    cases l with
    | nil => exact Returns.pure rfl
    | cons d l =>
      rw [List.forall_mem_cons] at hl
      rw [List.isChain_cons_cons] at hgood
      refine Returns.bind (getInterval_spec fun _ => hl.1) fun ci hci => ?_
      refine Returns.bind (getInterval_spec fun _ => hl.2 d (by simp)) fun di hdi => ?_
      rw [hci.1, hdi.1, hgood.1]
      exact ih hl.2 hgood.2

private theorem isChain_of_packed {lo hi : Hash → Nat} {m n : Nat} (h : Packed lo hi m l n) :
    l.IsChain fun a b => hi a + 1 = lo b := by
  induction l generalizing m with
  | nil => exact List.isChain_nil
  | cons c l ih =>
    cases l with
    | nil => exact List.isChain_singleton _
    | cons d l => exact List.isChain_cons_cons.mpr ⟨h.2.2.1.symm, ih h.2.2⟩

theorem validateLoop_ok (inv : Labelled o s depth) (cov : CoveringInv s) {fuel : Nat}
    (hl : ∀ q ∈ l, q ∈ s.nodes) (hfuel : (l.map (treeSize s)).sum < fuel) :
    Returns True (validateLoop s fuel l) (fun r => r = .ok ()) := by
  induction fuel generalizing l with
  | zero => omega
  | succ fuel ih =>
    cases l with
    | nil => exact Returns.pure rfl
    | cons q l =>
      rw [List.forall_mem_cons] at hl
      have hq : treeSize s q = ((s.kids q).map (treeSize s)).sum + 1 := size_eq inv.tree hl.1
      rw [List.map_cons, List.sum_cons, hq] at hfuel
      have hlaid := inv.laidOut q hl.1
      have hkids : ∀ c ∈ s.kids q, c ∈ s.nodes := fun c hc => inv.tree.closed hc
      refine Returns.bind (getChildren_spec fun _ => hl.1) fun children hch => ?_
      refine Returns.bind (getInterval_spec fun _ => hl.1) fun i hi => ?_
      rw [hch.1, hi.1]
      have hsize : 0 < (s.iv q).size := Interval.size_pos.mpr hlaid.nested.le
      have hne : ¬(s.iv q).isEmpty = true := by
        rw [Interval.isEmpty_iff]
        omega
      rw [if_neg hne]
      refine Returns.bind (validateChildren_ok hkids fun c hc => ?_) fun r hr => ?_
      · have := hlaid.nested.kid hc
        exact ⟨this.1, this.2.2⟩
      subst hr
      have hpacked : (s.kids q).IsChain fun a b => ((s.iv a).stop + 1 != (s.iv b).start) = false := by
        obtain ⟨m, n, hp⟩ := hlaid.packed
        refine (isChain_of_packed hp).imp fun a b hab => ?_
        rw [bne_eq_false_iff_eq]
        exact hab
      refine Returns.bind (validateNeighbors_ok hkids hpacked) fun r hr => ?_
      subst hr
      refine Returns.bind (getFutureCoveringSet_spec fun _ => hl.1) fun fcs hfcs => ?_
      rw [hfcs.1]
      have hordered : (s.covering q).IsChain fun a b =>
          decide ((s.iv b).start ≤ (s.iv a).stop) = false := by
        refine (inv.ordered (cov.apart q)).isChain.imp fun a b hab => ?_
        exact decide_eq_false (Nat.not_le.mpr hab)
      refine Returns.bind (validateNeighbors_ok (fun e he => cov.mem he) hordered) fun r hr => ?_
      subst hr
      refine ih (fun z hz => ?_) ?_
      · rcases List.mem_append.mp hz with hz | hz
        · exact hl.2 z hz
        · exact hkids z hz
      · rw [List.map_append, List.sum_append]
        omega

/-- A call on the store: a block is added, with whatever halving of the interval that is left and
whatever mergeset, or the reindex root is advanced. -/
inductive TreeCall (s s' : Store) : Prop
  | add {half : Interval → Result (Interval × Interval)} {s₁ : Store} (halves : Halves half)
      (fr : Interval.Fractions) (newBlock parent : Hash) (slack : Nat) (mergeset : List Hash)
      (tree : addTreeBlockWith half fr s newBlock parent slack = .ok s₁)
      (dag : addDagBlock s₁ newBlock mergeset = .ok s')
  | advance (fr : Interval.Fractions) (hint : Hash) (depth slack : Nat)
      (run : tryAdvancingReindexRoot fr s hint depth slack = .ok s')

/-- The store of the root alone. -/
structure Initial (o : Hash) (capacity : Interval) (s : Store) : Prop where
  nodes : s.nodes = {o}
  kids : ∀ x, s.kids x = []
  par : s.par o = blockhash.none
  depth : s.depth o = 0
  iv : s.iv o = capacity
  covering : ∀ x, s.covering x = []
  root : s.reindexRoot = some o

theorem init_spec (o : Hash) (capacity : Interval) :
    Returns True (MemoryReachabilityStore.empty.init o capacity) (Initial o capacity) := by
  have hempty : ∀ x, MemoryReachabilityStore.empty.map.lookup x = none := fun _ => rfl
  have hno : o ∉ MemoryReachabilityStore.empty.nodes := by
    rw [mem_nodes, ← AList.lookup_eq_none]
    exact hempty o
  refine Returns.bind (insert_spec fun _ => hno) fun s hs => Returns.pure ?_
  obtain ⟨_, hnodes, hkids, hpar, hdepth, hcov, hiv, _⟩ := hs
  refine ⟨hnodes, fun x => ?_, ?_, ?_, ?_, fun x => ?_, rfl⟩
  · change s.kids x = []
    rw [hkids, Function.update_apply]
    split_ifs <;> rfl
  · change s.par o = _
    rw [hpar, Function.update_self]
  · change s.depth o = _
    rw [hdepth, Function.update_self]
  · change s.iv o = _
    rw [hiv, Function.update_self]
  · change s.covering x = []
    rw [hcov, Function.update_apply]
    split_ifs <;> rfl

theorem Initial.storeInv {capacity : Interval} (h : Initial o capacity s)
    (hpos : 0 < capacity.size) : StoreInv o s where
  tree := by
    have hno : ∀ {x y : Hash}, ¬y ∈ s.kids x := by
      intro x y hy
      rw [h.kids x] at hy
      cases hy
    refine ⟨⟨?_, fun hy => absurd hy hno, fun {x} _ => h.kids x, fun x => ?_,
      fun hy => absurd hy hno, fun hy => absurd hy hno, fun {x} hx => ?_⟩,
      fun hy => absurd hy hno, h.par⟩
    · rw [h.nodes]
      exact Finset.mem_singleton_self o
    · rw [h.kids x]
      exact List.nodup_nil
    · rw [h.nodes, Finset.mem_singleton] at hx
      rw [hx]
      exact .refl
  laidOut := by
    intro z hz
    rw [h.nodes, Finset.mem_singleton] at hz
    subst hz
    refine (laidOut_leaf (h.kids z)).mpr ?_
    rw [lo, hi, h.iv]
    exact Interval.size_pos.mp hpos
  root := ⟨o, by rw [h.nodes]; exact Finset.mem_singleton_self o, h.root, Or.inl rfl⟩

theorem Initial.coveringInv {capacity : Interval} (h : Initial o capacity s) : CoveringInv s where
  mem := by
    intro x e he
    rw [h.covering x] at he
    cases he
  apart := by
    intro x
    rw [h.covering x]
    exact List.Pairwise.nil

/-- A root without a label has no room for a block, and no block to advance to. -/
theorem Initial.no_call {capacity : Interval} (h : Initial o capacity s)
    (hzero : capacity.size = 0) : ¬TreeCall s s' := by
  intro hcall
  cases hcall with
  | @add half s₁ halves fr newBlock parent slack mergeset tree dag =>
    have hrem : Returns False (addTreeBlockWith half fr s newBlock parent slack) fun _ => False := by
      have hsome : Returns False (s.intervalRemainingAfter parent) fun _ => False := by
        refine Returns.bind (intervalChildrenCapacity_spec False.elim False.elim) fun cap hcap => ?_
        obtain ⟨⟨hstart, hstop⟩, hmem⟩ := hcap
        rw [h.nodes, Finset.mem_singleton] at hmem
        subst hmem
        have hle := cap.le
        rw [lo, h.iv] at hstart
        rw [hi, h.iv] at hstop
        rw [Interval.size_eq_zero] at hzero
        omega
      exact Returns.bind hsome fun r hr => hr.elim
    exact hrem.post tree
  | advance fr hint depth slack run =>
    have hnext : ∀ {fuel n q}, Returns False (advanceNext s hint n depth fuel q) fun _ => False :=
      advanceNext_spec.mono fun next hn => hn.2 (h.kids next)
    have hfind : Returns False (findNextReindexRoot s o hint depth slack) fun _ => False := by
      refine Returns.bind (getHeight_spec False.elim) fun n _ => ?_
      refine Returns.bind (isChainAncestorOf_spec False.elim False.elim) fun b hb => ?_
      obtain ⟨hb, -, hhint⟩ := hb
      rw [h.nodes, Finset.mem_singleton] at hhint
      rw [hhint] at hb
      rw [hb.mpr ⟨le_refl _, le_refl _⟩, if_pos rfl]
      exact Returns.bind hnext fun next hn => hn.elim
    have hadv : Returns False (tryAdvancingReindexRoot fr s hint depth slack) fun _ => False := by
      have hroot : Returns False s.getReindexRoot fun q => q = o := by
        rw [getReindexRoot, h.root]
        exact Returns.ok rfl
      refine Returns.bind hroot fun q hq => ?_
      rw [hq]
      exact Returns.bind hfind fun r hr => hr.elim
    exact hadv.post run

theorem Attached.mem (h : Attached s s' b p) : b ∈ s'.nodes := by
  rw [h.nodes]
  exact Finset.mem_insert_self _ _

theorem Attached.leaf (h : Attached s s' b p) : s'.kids b = [] := by
  have hbp : b ≠ p := fun hbp => h.new (hbp ▸ h.parent)
  rw [h.kids, addLeaf_of_ne hbp, kids_of_not_mem h.new]

theorem Attached.coveringInv (h : Attached s s' b p) (cov : CoveringInv s) : CoveringInv s' where
  mem := by
    intro x e he
    rw [h.covering] at he
    rw [h.nodes]
    exact Finset.mem_insert_of_mem (cov.mem he)
  apart := by
    intro x
    rw [h.covering, h.kids]
    exact (cov.apart x).imp Before.addLeaf

theorem SameLinks.coveringInv (h : SameLinks s s') (cov : CoveringInv s) : CoveringInv s' where
  mem := by
    intro x e he
    rw [h.covering] at he
    rw [h.nodes]
    exact cov.mem he
  apart := by
    intro x
    rw [h.covering, h.kids]
    exact cov.apart x

/-- A call that returns keeps the labels and the future-covering sets in order. -/
theorem TreeCall.inv (h : TreeCall s s') (inv : StoreInv o s) (cov : CoveringInv s) :
    StoreInv o s' ∧ CoveringInv s' := by
  cases h with
  | @add half s₁ halves fr newBlock parent slack mergeset tree dag =>
    obtain ⟨inv₁, hatt⟩ := (addTreeBlockWith_spec halves fr inv).post tree
    have cov₁ := hatt.coveringInv cov
    have hdag := (addDagBlock_spec inv₁ cov₁ hatt.mem hatt.leaf).post dag
    exact ⟨hdag.1, hdag.2.1⟩
  | advance fr hint depth slack run =>
    obtain ⟨inv', hlinks⟩ := (tryAdvancingReindexRoot_spec fr inv).post run
    exact ⟨inv', hlinks.coveringInv cov⟩

/-- A store whose labels and future-covering sets are in order passes `validate_intervals`. -/
theorem validateIntervals_ok (inv : Labelled o s depth) (cov : CoveringInv s) :
    validateIntervals s o = .ok (.ok ()) := by
  have hloop : Returns True (validateIntervals s o) fun r => r = .ok () := by
    refine validateLoop_ok inv cov (fun q hq => ?_) ?_
    · rw [List.mem_singleton] at hq
      rw [hq]
      exact inv.tree.root_mem
    · have hle : treeSize s o ≤ s.count := treeSize_le_count s o
      rw [List.map_singleton, List.sum_singleton]
      omega
  obtain ⟨r, hr, rfl⟩ := hloop.total
  exact hr

/-- Calls keep the labels and the future-covering sets in order. -/
theorem Initial.calls_inv {capacity : Interval} {s₀ : Store} (h : Initial o capacity s₀)
    (hpos : 0 < capacity.size) (hrun : Relation.ReflTransGen TreeCall s₀ s) :
    StoreInv o s ∧ CoveringInv s := by
  induction hrun with
  | refl => exact ⟨h.storeInv hpos, h.coveringInv⟩
  | tail _ hcall ih => exact hcall.inv ih.1 ih.2

/-- Every store that calls lead to passes `validate_intervals`, be the capacity not empty, or a
call made. -/
theorem validateIntervals_of_calls {root : Hash} {capacity : Interval} {s₀ s : Store}
    (hinit : MemoryReachabilityStore.empty.init root capacity = .ok s₀)
    (hrun : Relation.ReflTransGen TreeCall s₀ s) (hne : 0 < capacity.size ∨ s ≠ s₀) :
    validateIntervals s root = .ok (.ok ()) := by
  have h₀ : Initial root capacity s₀ := (init_spec root capacity).post hinit
  have hpos : 0 < capacity.size := by
    rcases hne with hpos | hne
    · exact hpos
    · by_contra hzero
      rcases Relation.ReflTransGen.cases_head hrun with heq | ⟨s₁, hcall, _⟩
      · exact hne heq.symm
      · exact h₀.no_call (Nat.eq_zero_of_not_pos hzero) hcall
  obtain ⟨inv, cov⟩ := h₀.calls_inv hpos hrun
  exact validateIntervals_ok inv.labelled cov

/-- The least capacity with room for one child, and its child. -/
theorem validateIntervals_of_calls_child :
    ∃ s, (MemoryReachabilityStore.empty.init 1 ⟨1, 2, by decide, by decide, by decide⟩ >>= fun s =>
        addBlock (fun _ _ _ => 0) s 2 1 []) = .ok s ∧
      validateIntervals s 1 = .ok (.ok ()) := by
  have hrun : returnsWith (MemoryReachabilityStore.empty.init 1
      ⟨1, 2, by decide, by decide, by decide⟩ >>= fun s => addBlock (fun _ _ _ => 0) s 2 1 [])
      (fun _ => true) = true := by
    decide +kernel
  obtain ⟨s, hs, _⟩ := returnsWith_iff.mp hrun
  obtain ⟨s₀, hinit, hadd⟩ := bind_eq_ok.mp hs
  obtain ⟨s₁, htree, hdag⟩ := bind_eq_ok.mp hadd
  have hcall : TreeCall s₀ s := .add splitHalf_halves _ 2 1 _ [] htree hdag
  refine ⟨s, hs, ?_⟩
  exact validateIntervals_of_calls hinit (.single hcall) (Or.inl (by decide))

/-- A lone root over an empty capacity fails the validation. -/
theorem validateIntervals_empty_capacity :
    ¬∀ (root : Hash) (capacity : Interval) (s₀ s : Store),
      MemoryReachabilityStore.empty.init root capacity = .ok s₀ →
      Relation.ReflTransGen TreeCall s₀ s → validateIntervals s root = .ok (.ok ()) := by
  intro h
  have hrun : returnsWith (MemoryReachabilityStore.empty.init 1
      ⟨1, 0, by decide, by decide, by decide⟩) (fun s =>
        returnsWith (validateIntervals s 1) fun r => !returnsWith r fun _ => true) = true := by
    decide +kernel
  obtain ⟨s, hs, hv⟩ := returnsWith_iff.mp hrun
  rw [h _ _ s s hs .refl] at hv
  cases hv

end TaoDag.Reachability
