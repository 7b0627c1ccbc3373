import TaoDag.Reachability.Side

namespace TaoDag.Reachability

open MemoryReachabilityStore OrderedTree ReindexOperationContext

variable {o : Hash} {C : Prop} {s s' : Store} {side : Side} {gap ogap : Store → Hash → Nat}

/-- The interval of `b` is changed by `op`, and the subtree of `b` is laid out again. -/
structure Moved (s s' : Store) (b : Hash) (op : IntervalOp) (k : Nat) : Prop where
  shape : SameShape s s'
  op : op (s.iv b) k = .ok (s'.iv b)
  frame : ∀ y, ¬Desc s.kids b y → s'.iv y = s.iv y
  nested : ∀ y, Desc s.kids b y → LaidOut s' y

theorem applyIntervalOp_spec {ctx : ReindexOperationContext} {b : Hash} {op : IntervalOp}
    {k : Nat} (hb : b ∈ ctx.store.nodes) (hop : C → ∃ j, op (ctx.store.iv b) k = .ok j) :
    Returns C (ctx.applyIntervalOp b k op) (fun ctx' => SameShape ctx.store ctx'.store ∧
      op (ctx.store.iv b) k = .ok (ctx'.store.iv b) ∧
      (∀ y, y ≠ b → ctx'.store.iv y = ctx.store.iv y) ∧
      ctx'.subtreeSizes = ctx.subtreeSizes ∧ ctx'.slack = ctx.slack) := by
  refine Returns.bind (getInterval_spec fun _ => hb) fun i hi => ?_
  rw [hi.1]
  have hres : Returns C (op (ctx.store.iv b) k) fun j => op (ctx.store.iv b) k = .ok j :=
    ⟨fun _ h => h, hop⟩
  refine Returns.bind hres fun j hj => ?_
  refine Returns.bind (setInterval_spec fun _ => hb) fun s' hs' => Returns.pure ?_
  refine ⟨hs'.2.1, ?_, fun y hy => ?_, rfl, rfl⟩
  · rw [hs'.2.2, Function.update_self, hj]
  · rw [hs'.2.2, Function.update_of_ne hy]

theorem applyIntervalOpAndPropagate_spec (fr : Interval.Fractions)
    {ctx : ReindexOperationContext} (t : TreeInv o ctx.store)
    (hcache : Cached ctx.store ctx.subtreeSizes) (hC : C → ctx.store.count ≤ u64Max) {b : Hash}
    {op : IntervalOp} {k : Nat} (hb : b ∈ ctx.store.nodes)
    (hop : C → ∃ j, op (ctx.store.iv b) k = .ok j)
    (hleaf : ctx.store.kids b = [] → ∀ j, op (ctx.store.iv b) k = .ok j → 0 < j.size)
    (hroom : C → ∀ j, op (ctx.store.iv b) k = .ok j → treeSize ctx.store b ≤ j.size) :
    Returns C (ctx.applyIntervalOpAndPropagate fr b k op) (fun ctx' =>
      Moved ctx.store ctx'.store b op k ∧ Cached ctx.store ctx'.subtreeSizes ∧
      ctx'.slack = ctx.slack) := by
  refine Returns.bind (applyIntervalOp_spec hb hop) fun ctx₁ ⟨hs, hop', hframe, hsz, hsl⟩ => ?_
  have hb₁ : b ∈ ctx₁.store.nodes := by rwa [hs.nodes]
  have hcache₁ : Cached ctx₁.store ctx₁.subtreeSizes := by
    rw [hsz]
    exact hcache.of_sameShape hs
  refine (propagateInterval_spec fr (t.of_sameShape hs) hb₁ ?_ hcache₁ ?_ ?_).mono ?_
  · intro hc
    rw [hs.count]
    exact hC hc
  · intro hk
    rw [hs.kids] at hk
    have hpos := hleaf hk _ hop'
    exact Interval.size_pos.mp hpos
  · intro hc
    rw [treeSize_of_sameShape hs, labels_eq_size]
    exact hroom hc _ hop'
  · rintro ctx' ⟨hp, hc', hsl'⟩
    have hkids := hs.kids
    refine ⟨⟨hs.trans hp.shape, ?_, ?_, ?_⟩, ?_, hsl'.trans hsl⟩
    · rw [hp.frame b fun h => h.2 rfl]
      exact hop'
    · intro y hy
      have hyb : y ≠ b := fun h => hy (h ▸ .refl)
      rw [hp.frame y (by rw [hkids]; exact fun h => hy h.1), hframe y hyb]
    · intro y hy
      exact hp.nested y (by rwa [hkids])
    · exact ⟨fun hl => by rw [← treeSize_of_sameShape hs]; exact hc'.exact hl,
        fun hx hcx => hc'.closed hx (by rwa [hkids])⟩

/-- The loop of `offset_siblings_*` over the siblings `near` of the chosen block, which follow
it; a sibling that comes next is the allocation block, and takes the room. -/
theorem offsetLoop_spec (fr : Interval.Fractions) (laws : SideLaws side gap ogap)
    {ctx : ReindexOperationContext} (t : TreeInv o ctx.store)
    (hcache : Cached ctx.store ctx.subtreeSizes) (hC : C → ctx.store.count ≤ u64Max)
    {a p : Hash} {near rest : List Hash} {k : Nat}
    (hkids : ∀ e ∈ near ++ rest, e ∈ ctx.store.kids p) (hnd : near.Nodup) (ha : a ∉ near)
    (hrest : rest = [] ∨ ∃ far, rest = a :: far)
    (hnest : ∀ e ∈ near, ∀ y, Desc ctx.store.kids e y → LaidOut ctx.store y)
    (hshift : C → ∀ e ∈ near, ∃ j, side.shift (ctx.store.iv e) k = .ok j)
    (hgrow : C → rest ≠ [] → ∃ j, side.grow (ctx.store.iv a) k = .ok j)
    (hroom : rest ≠ [] → treeSize ctx.store a ≤ labels ctx.store a + k) :
    Returns C (offsetLoop fr side a k ctx (near ++ rest)) (fun ctx' =>
      SameShape ctx.store ctx'.store ∧ Cached ctx.store ctx'.subtreeSizes ∧
      ctx'.slack = ctx.slack ∧
      (∀ e ∈ near, side.shift (ctx.store.iv e) k = .ok (ctx'.store.iv e)) ∧
      (rest ≠ [] → side.grow (ctx.store.iv a) k = .ok (ctx'.store.iv a)) ∧
      (∀ y, (∀ e ∈ near, ¬Desc ctx.store.kids e y) → (rest ≠ [] → ¬Desc ctx.store.kids a y) →
        ctx'.store.iv y = ctx.store.iv y) ∧
      (∀ e ∈ near, ∀ y, Desc ctx.store.kids e y → LaidOut ctx'.store y) ∧
      (rest ≠ [] → ∀ y, Desc ctx.store.kids a y → LaidOut ctx'.store y)) := by
  induction near generalizing ctx with
  | nil =>
    rcases hrest with rfl | ⟨far, rfl⟩
    · refine Returns.ok ⟨.refl _, hcache, rfl, by simp, by simp, fun _ _ _ => rfl, by simp, by simp⟩
    · have ham : a ∈ ctx.store.nodes := t.tree.closed (hkids a (by simp))
      rw [List.nil_append, offsetLoop, if_pos rfl]
      refine (applyIntervalOpAndPropagate_spec fr t hcache hC ham (fun hc => hgrow hc (by simp))
        ?_ ?_).mono ?_
      · intro _ j hj
        have := laws.grow_size hj
        have := hroom (by simp)
        have : 0 < size ctx.store.kids ctx.store.nodes a := size_pos ham
        rw [labels_eq_size] at *
        rw [treeSize] at *
        omega
      · intro _ j hj
        have := laws.grow_size hj
        have := hroom (by simp)
        rw [labels_eq_size] at *
        omega
      · rintro ctx' ⟨hm, hc', hsl⟩
        exact ⟨hm.shape, hc', hsl, by simp, fun _ => hm.op,
          fun y _ hy => hm.frame y (hy (by simp)), by simp, fun _ => hm.nested⟩
  | cons e near ih =>
    rw [List.nodup_cons] at hnd
    have hea : e ≠ a := fun h => ha (h ▸ List.mem_cons_self ..)
    have hek := hkids e (by simp)
    have hem := t.tree.closed hek
    have hsz : treeSize ctx.store e ≤ labels ctx.store e :=
      size_le_labels t.tree hem fun y hy => (hnest e (by simp) y hy).nested
    rw [List.cons_append, offsetLoop, if_neg hea]
    refine Returns.bind (applyIntervalOpAndPropagate_spec fr t hcache hC hem
      (fun hc => hshift hc e (by simp)) ?_ ?_) fun ctx₁ hctx₁ => ?_
    · intro _ j hj
      have := laws.shift_size hj
      have : 0 < size ctx.store.kids ctx.store.nodes e := size_pos hem
      rw [labels_eq_size] at hsz
      rw [treeSize] at hsz
      omega
    · intro _ j hj
      rw [laws.shift_size hj, ← labels_eq_size]
      exact hsz
    · obtain ⟨hm, hc₁, hsl₁⟩ := hctx₁
      -- The other siblings lie outside the subtree of `e`.
      have hk₁ := hm.shape.kids
      have hapart : ∀ e' ∈ near ++ rest, e' ≠ e → ∀ y, Desc ctx.store.kids e' y →
          ¬Desc ctx.store.kids e y := by
        intro e' he' hne y hy hy'
        exact hne (t.tree.kids_disjoint (hkids e' (by simp [List.mem_append.mp he'])) hek hy hy')
      have hne : ∀ e' ∈ near, e' ≠ e := fun e' he' h => hnd.1 (h ▸ he')
      have hivn : ∀ e' ∈ near, ctx₁.store.iv e' = ctx.store.iv e' := fun e' he' =>
        hm.frame e' (hapart e' (List.mem_append_left _ he') (hne e' he') e' .refl)
      have hiva : rest ≠ [] → ctx₁.store.iv a = ctx.store.iv a := by
        intro hr
        rcases hrest with rfl | ⟨far, rfl⟩
        · exact absurd rfl hr
        · exact hm.frame a (hapart a (by simp) (Ne.symm hea) a .refl)
      refine (ih (t.of_sameShape hm.shape) ?_ ?_ ?_ hnd.2
        (fun h => ha (List.mem_cons_of_mem _ h)) ?_ ?_ ?_ ?_).mono ?_
      · exact hc₁.of_sameShape hm.shape
      · intro hc
        rw [hm.shape.count]
        exact hC hc
      · intro e' he'
        rw [hk₁]
        exact hkids e' (List.mem_cons_of_mem _ he')
      · intro e' he' y hy
        rw [hk₁] at hy
        have hout := hapart e' (List.mem_append_left _ he') (hne e' he')
        refine (hnest e' (List.mem_cons_of_mem _ he') y hy).of_iv hm.shape ?_
        rintro z (rfl | hz)
        · exact hm.frame z (hout z hy)
        · exact hm.frame z (hout z (hy.trans (.kid hz)))
      · intro hc e' he'
        rw [hivn e' he']
        exact hshift hc e' (List.mem_cons_of_mem _ he')
      · intro hc hr
        rw [hiva hr]
        exact hgrow hc hr
      · intro hr
        rw [treeSize_of_sameShape hm.shape, labels_eq_size, hiva hr, ← labels_eq_size]
        exact hroom hr
      · rintro ctx' ⟨hs', hc', hsl', hsh', hgr', hfr', hnn', hna'⟩
        rw [hk₁] at hfr' hnn' hna'
        have hee : ∀ y, Desc ctx.store.kids e y → ctx'.store.iv y = ctx₁.store.iv y := by
          intro y hy
          refine hfr' y (fun e' he' hy' => ?_) fun hr hy' => ?_
          · exact hapart e' (List.mem_append_left _ he') (hne e' he') y hy' hy
          · rcases hrest with rfl | ⟨far, rfl⟩
            · exact hr rfl
            · exact hapart a (by simp) (Ne.symm hea) y hy' hy
        refine ⟨hm.shape.trans hs', ?_, hsl'.trans hsl₁, ?_, ?_, ?_, ?_, hna'⟩
        · exact ⟨fun hl => by rw [← treeSize_of_sameShape hm.shape]; exact hc'.exact hl,
            fun hx hcx => hc'.closed hx (by rwa [hk₁])⟩
        · intro e' he'
          rcases List.mem_cons.mp he' with rfl | he'
          · rw [hee e' .refl]
            exact hm.op
          · rw [← hivn e' he']
            exact hsh' e' he'
        · intro hr
          rw [← hiva hr]
          exact hgr' hr
        · intro y hy hya
          rw [hfr' y (fun e' he' => hy e' (List.mem_cons_of_mem _ he')) hya,
            hm.frame y (hy e (List.mem_cons_self ..))]
        · intro e' he' y hy
          rcases List.mem_cons.mp he' with rfl | he'
          · refine (hm.nested y hy).of_iv hs' ?_
            rintro z (rfl | hz)
            · exact hee z hy
            · rw [hk₁] at hz
              exact hee z (hy.trans (.kid hz))
          · exact hnn' e' he' y hy

theorem splitChildren_eq {pre post : List Hash} {c : Hash} (h : c ∉ pre) :
    splitChildren (pre ++ c :: post) c = .ok (pre, post) := by
  have hidx : (pre ++ c :: post).idxOf? c = some pre.length := by
    rw [List.idxOf?_eq_some_iff]
    refine ⟨by simp, by simp, fun j hj heq => ?_⟩
    rw [List.getElem_append_left hj] at heq
    exact h (heq ▸ List.getElem_mem hj)
  rw [splitChildren, hidx]
  simp

end TaoDag.Reachability
