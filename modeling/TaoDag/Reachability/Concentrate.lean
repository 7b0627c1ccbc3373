import TaoDag.Reachability.Allocate

namespace TaoDag.Reachability

open MemoryReachabilityStore OrderedTree ReindexOperationContext

variable {o : Hash} {s s' : Store} {b c p root : Hash}

theorem countSiblings_spec {ctx : ReindexOperationContext} (t : TreeInv o ctx.store)
    (hcache : Cached ctx.store ctx.subtreeSizes) {l : List Hash}
    (hl : ∀ c ∈ l, c ∈ ctx.store.nodes) :
    Returns False (ctx.countSiblings l) (fun r => r.1.store = ctx.store ∧ r.1.slack = ctx.slack ∧
      Cached ctx.store r.1.subtreeSizes ∧ r.2 = l.map (treeSize ctx.store)) := by
  induction l generalizing ctx with
  | nil => exact Returns.ok ⟨rfl, rfl, hcache, rfl⟩
  | cons x l ih =>
    have hx := hl x (List.mem_cons_self ..)
    refine Returns.bind (countSubtrees_spec t hx False.elim hcache) fun ctx₁ hctx₁ => ?_
    obtain ⟨hs, hsl, hc₁, _⟩ := hctx₁
    rw [← hs] at t hc₁ hl
    refine Returns.bind (subtreeSize_spec hc₁.sized False.elim) fun n hn => ?_
    refine Returns.bind (ih t hc₁ fun c hc => hl c (List.mem_cons_of_mem _ hc)) fun r hr => ?_
    refine Returns.pure ⟨hr.1.trans hs, hr.2.1.trans hsl, ?_, ?_⟩
    · rw [← hs]
      exact hr.2.2.1
    · rw [hr.2.2.2, hn.1, hs]
      rfl

/-- Children of one block that have got new labels, with everything below them. -/
structure Resettled (s s' : Store) (l : List Hash) : Prop where
  shape : SameShape s s'
  laidOut : ∀ c ∈ l, ∀ y, Desc s.kids c y → LaidOut s' y
  frame : ∀ y, (∀ c ∈ l, ¬Desc s.kids c y) → s'.iv y = s.iv y

theorem setAndPropagate_spec (fr : Interval.Fractions) {ctx : ReindexOperationContext}
    (t : TreeInv o ctx.store) (hcache : Cached ctx.store ctx.subtreeSizes)
    {l : List (Hash × Interval)} (hkids : ∀ q ∈ l, q.1 ∈ ctx.store.kids p)
    (hnd : (l.map (·.1)).Nodup) (hpos : ∀ q ∈ l, 0 < q.2.size) :
    Returns False (ctx.setAndPropagate fr l) (fun ctx' =>
      Resettled ctx.store ctx'.store (l.map (·.1)) ∧
      (l.map (·.1)).map ctx'.store.iv = l.map (·.2) ∧
      Cached ctx.store ctx'.subtreeSizes ∧ ctx'.slack = ctx.slack) := by
  induction l generalizing ctx with
  | nil => exact Returns.ok ⟨⟨.refl _, by simp, fun _ _ => rfl⟩, rfl, hcache, rfl⟩
  | cons q l ih =>
    obtain ⟨x, i⟩ := q
    rw [List.map_cons, List.nodup_cons] at hnd
    have hxk := hkids (x, i) (List.mem_cons_self ..)
    have hx := t.tree.closed hxk
    refine Returns.bind (setInterval_spec fun _ => hx) fun s₁ hs₁ => ?_
    obtain ⟨_, hsh₁, hiv₁⟩ := hs₁
    have hi : s₁.iv x = i := by rw [hiv₁, Function.update_self]
    have hother : ∀ y, y ≠ x → s₁.iv y = ctx.store.iv y := fun y hy => by
      rw [hiv₁, Function.update_of_ne hy]
    have hprop := propagateInterval_spec (C := False) fr
      (show TreeInv o (ReindexOperationContext.mk s₁ ctx.subtreeSizes ctx.slack).store from
        t.of_sameShape hsh₁) (by rwa [hsh₁.nodes]) False.elim (hcache.of_sameShape hsh₁)
      (fun _ => Interval.size_pos.mp (by rw [hi]; exact hpos (x, i) (List.mem_cons_self ..)))
      False.elim
    refine Returns.bind hprop fun ctx₂ hctx₂ => ?_
    obtain ⟨hp, hc₂, hsl₂⟩ := hctx₂
    have hsh := hsh₁.trans hp.shape
    have hkids₁ := hsh₁.kids
    have hc₂' : Cached ctx₂.store ctx₂.subtreeSizes := hc₂.of_sameShape hp.shape
    have hnext := ih (t.of_sameShape hsh) hc₂' (fun q hq => by
      rw [hsh.kids]
      exact hkids q (List.mem_cons_of_mem _ hq)) hnd.2 fun q hq => hpos q (List.mem_cons_of_mem _ hq)
    refine hnext.mono fun ctx' h' => ?_
    obtain ⟨hr, hivs, hc', hsl'⟩ := h'
    have hkids₂ := hsh.kids
    -- What lies below `x` is not touched any more.
    have hapart : ∀ y, Desc ctx.store.kids x y → ctx'.store.iv y = ctx₂.store.iv y := by
      intro y hy
      refine hr.frame y fun c hc hcy => ?_
      rw [hkids₂] at hcy
      obtain ⟨q, hq, rfl⟩ := List.mem_map.mp hc
      have hqk := hkids q (List.mem_cons_of_mem _ hq)
      have hxq : x = q.1 := t.tree.kids_disjoint hxk hqk hy hcy
      exact hnd.1 (hxq ▸ hc)
    refine ⟨⟨hsh.trans hr.shape, ?_, ?_⟩, ?_, hc'.of_sameShape hsh.symm, hsl'.trans hsl₂⟩
    · intro c hc y hy
      rcases List.mem_cons.mp hc with rfl | hc
      · have hlaid : LaidOut ctx₂.store y := hp.nested y (by rwa [hkids₁])
        refine hlaid.of_iv hr.shape fun z hz => hapart z ?_
        rcases hz with rfl | hz
        · exact hy
        · rw [hkids₂] at hz
          exact hy.trans (.kid hz)
      · exact hr.laidOut c hc y (by rwa [hkids₂])
    · intro y hy
      have hyx : ¬Desc ctx.store.kids x y := hy x (List.mem_cons_self ..)
      rw [hr.frame y fun c hc => by rw [hkids₂]; exact hy c (List.mem_cons_of_mem _ hc),
        hp.frame y fun h => hyx (by rw [← hkids₁]; exact h.1)]
      refine hother y ?_
      rintro rfl
      exact hyx .refl
    · rw [List.map_cons, List.map_cons, List.map_cons, hivs, hapart x .refl,
        hp.frame x fun h => h.2 rfl, hi]

/-- Siblings packed between two labels, with everything below them. -/
structure Tightened (s s' : Store) (l : List Hash) (start stop : Nat) : Prop
    extends Resettled s s' l where
  packed : Packed s'.lo s'.hi start l stop

/-- The common part of `tighten_intervals_*`: the siblings share out an interval exactly. -/
theorem tighten_spec (fr : Interval.Fractions) {cache : BlockHashMap Nat} {slack : Nat}
    (t : TreeInv o s) (hcache : Cached s cache) {l : List Hash} (hkids : ∀ c ∈ l, c ∈ s.kids p)
    (hnd : l.Nodup) {i : Interval} :
    Returns False
      (do setAndPropagate fr ⟨s, cache, slack⟩ (l.zip (← i.splitExact (l.map (treeSize s)))))
      (fun ctx' => Tightened s ctx'.store l i.start (i.stop + 1) ∧
        Cached s ctx'.subtreeSizes ∧ ctx'.slack = slack) := by
  refine Returns.bind (Interval.splitExact_spec False.elim) fun is his => ?_
  obtain ⟨htiles, hsizes⟩ := his
  have hlen : l.length = is.length := by
    have := congrArg List.length hsizes
    simpa using this.symm
  have hfst : (l.zip is).map (·.1) = l := List.map_fst_zip (by omega)
  have hsnd : (l.zip is).map (·.2) = is := List.map_snd_zip (by omega)
  have hpos : ∀ q ∈ l.zip is, 0 < q.2.size := by
    intro q hq
    have hq2 : q.2.size ∈ l.map (treeSize s) := by
      rw [← hsizes]
      exact List.mem_map_of_mem (List.of_mem_zip hq).2
    obtain ⟨c, hc, heq⟩ := List.mem_map.mp hq2
    rw [← heq]
    exact size_pos (t.tree.closed (hkids c hc))
  have t₁ : TreeInv o (ReindexOperationContext.mk s cache slack).store := t
  refine (setAndPropagate_spec fr t₁ hcache (fun q hq => hkids q.1 (List.of_mem_zip hq).1)
    (by rwa [hfst]) hpos).mono fun ctx' h' => ?_
  rw [hfst, hsnd] at h'
  refine ⟨⟨h'.1, ?_⟩, h'.2.2.1, h'.2.2.2⟩
  rw [← h'.2.1, tiles_iff_packed] at htiles
  exact htiles

theorem tightenIntervalsBefore_spec (fr : Interval.Fractions) {ctx : ReindexOperationContext}
    (t : TreeInv o ctx.store) (hcache : Cached ctx.store ctx.subtreeSizes) {l : List Hash}
    (hkids : ∀ c ∈ l, c ∈ ctx.store.kids p) (hnd : l.Nodup) :
    Returns False (ctx.tightenIntervalsBefore fr p l) (fun r =>
      Tightened ctx.store r.1.store l (ctx.store.lo p + ctx.slack)
        (ctx.store.lo p + ctx.slack + r.2) ∧
      Cached ctx.store r.1.subtreeSizes ∧ r.1.slack = ctx.slack) := by
  refine Returns.bind (countSiblings_spec t hcache fun c hc => t.tree.closed (hkids c hc))
    fun r hr => ?_
  obtain ⟨⟨store, cache, slack⟩, sizes⟩ := r
  obtain ⟨hs, hsl, hc₁, hsizes⟩ := hr
  simp only at hs hsl hc₁ hsizes
  subst hs hsl hsizes
  refine Returns.bind (sumU64_spec False.elim) fun sum hsum => ?_
  refine Returns.bind (getInterval_spec False.elim) fun i hi => ?_
  refine Returns.bind (addU64_spec False.elim) fun start hstart => ?_
  refine Returns.bind (addU64_spec False.elim) fun m hm => ?_
  refine Returns.bind (subU64_spec False.elim) fun n hn => ?_
  refine Returns.bind (Interval.new_spec False.elim) fun j hj => ?_
  have hlo : i.start = ctx.store.lo p := by
    rw [hi.1]
    rfl
  have hjstart : j.start = ctx.store.lo p + ctx.slack := by rw [hj.1, hstart.1, hlo]
  have hjstop : j.stop + 1 = ctx.store.lo p + ctx.slack + sum := by
    rw [hj.2, hn.1, hm.1, hstart.1, hlo]
    omega
  rw [← bind_assoc]
  refine Returns.bind (tighten_spec fr t hc₁ hkids hnd) fun ctx' h' => Returns.pure ?_
  rw [hjstart, hjstop] at h'
  exact h'

theorem tightenIntervalsAfter_spec (fr : Interval.Fractions) {ctx : ReindexOperationContext}
    (t : TreeInv o ctx.store) (hcache : Cached ctx.store ctx.subtreeSizes) {l : List Hash}
    (hkids : ∀ c ∈ l, c ∈ ctx.store.kids p) (hnd : l.Nodup) :
    Returns False (ctx.tightenIntervalsAfter fr p l) (fun r =>
      ctx.slack + r.2 ≤ ctx.store.hi p ∧
      Tightened ctx.store r.1.store l (ctx.store.hi p - ctx.slack - r.2)
        (ctx.store.hi p - ctx.slack) ∧
      Cached ctx.store r.1.subtreeSizes ∧ r.1.slack = ctx.slack) := by
  refine Returns.bind (countSiblings_spec t hcache fun c hc => t.tree.closed (hkids c hc))
    fun r hr => ?_
  obtain ⟨⟨store, cache, slack⟩, sizes⟩ := r
  obtain ⟨hs, hsl, hc₁, hsizes⟩ := hr
  simp only at hs hsl hc₁ hsizes
  subst hs hsl hsizes
  refine Returns.bind (sumU64_spec False.elim) fun sum hsum => ?_
  refine Returns.bind (getInterval_spec False.elim) fun i hi => ?_
  refine Returns.bind (subU64_spec False.elim) fun stop hstop => ?_
  refine Returns.bind (subU64_spec False.elim) fun m hm => ?_
  refine Returns.bind (subU64_spec False.elim) fun n hn => ?_
  refine Returns.bind (Interval.new_spec False.elim) fun j hj => ?_
  have hhi : i.stop = ctx.store.hi p := by
    rw [hi.1]
    rfl
  have hstart : stop = ctx.store.hi p - ctx.slack := by rw [hstop.1, hhi]
  have hjstart : j.start = ctx.store.hi p - ctx.slack - sum := by rw [hj.1, hm.1, hstart]
  have hjstop : j.stop + 1 = ctx.store.hi p - ctx.slack := by
    have := hn.2
    rw [hj.2, hn.1]
    omega
  rw [← bind_assoc]
  refine Returns.bind (tighten_spec fr t hc₁ hkids hnd) fun ctx' h' => Returns.pure ⟨?_, ?_⟩
  · have := hstop.2
    have := hm.2
    omega
  · rw [hjstart, hjstop] at h'
    exact h'

/-- A block that is widened over its children stays laid out, with everything below it. -/
theorem LaidOut.widen (t : TreeInv o s) (hs : SameShape s s')
    (hframe : ∀ y, y ≠ c → s'.iv y = s.iv y) (hlo : s'.lo c ≤ s.lo c) (hhi : s.hi c ≤ s'.hi c)
    (hc : ∀ y, Desc s.kids c y → LaidOut s y) : ∀ y, Desc s.kids c y → LaidOut s' y := by
  have hself : ∀ e ∈ s.kids c, s'.iv e = s.iv e := fun e he => hframe e fun h => by
    subst h
    exact t.tree.not_desc_of_kid he .refl
  intro y hy
  by_cases hyc : y = c
  · subst hyc
    have hl := hc y .refl
    refine ⟨?_, hl.packed.of_iv hs hself⟩
    have hst : Stacked s.lo s.hi (s.lo y) (s.kids y) (s.hi y) := hl.nested
    rw [NestedAt, Nested, hs.kids]
    exact (hst.congr (fun e he => lo_of_iv (hself e he)) fun e he => hi_of_iv (hself e he)).mono
      hlo hhi
  · refine (hc y hy).of_iv hs fun z hz => hframe z ?_
    rintro rfl
    rcases hz with rfl | hz
    · exact hyc rfl
    · exact t.tree.not_desc_of_kid hz hy

/-- The chosen child over its new labels. -/
structure Expanded (s s' : Store) (c : Hash) (start stop : Nat) (isFinal : Bool) : Prop where
  shape : SameShape s s'
  lo : s'.lo c = start
  hi : s'.hi c + 1 = stop
  frame : ∀ y, ¬Desc s.kids c y → s'.iv y = s.iv y
  kept : isFinal = false → ∀ y, y ≠ c → s'.iv y = s.iv y
  laidOut : isFinal = true → ∀ y, Desc s.kids c y → LaidOut s' y

/-- The chosen child before its labels are written: inside them, it is laid out. -/
structure Fitted (s s₁ : Store) (c : Hash) (alloc : Interval) (isFinal : Bool) : Prop where
  shape : SameShape s s₁
  frame : ∀ y, ¬Desc s.kids c y → s₁.iv y = s.iv y
  kept : isFinal = false → s₁ = s
  lo : isFinal = true → alloc.start ≤ s₁.lo c
  hi : isFinal = true → s₁.hi c ≤ alloc.stop
  laidOut : isFinal = true → ∀ y, Desc s.kids c y → LaidOut s₁ y

theorem Fitted.expanded {s₁ : Store} {alloc : Interval} {isFinal : Bool} (t : TreeInv o s)
    (h : Fitted s s₁ c alloc isFinal) (hs : SameShape s₁ s')
    (hiv : s'.iv = Function.update s₁.iv c alloc) :
    Expanded s s' c alloc.start (alloc.stop + 1) isFinal := by
  have hivc : s'.iv c = alloc := by rw [hiv, Function.update_self]
  have hother : ∀ y, y ≠ c → s'.iv y = s₁.iv y := fun y hy => by
    rw [hiv, Function.update_of_ne hy]
  have hlo : s'.lo c = alloc.start := by rw [MemoryReachabilityStore.lo, hivc]
  have hhi : s'.hi c = alloc.stop := by rw [MemoryReachabilityStore.hi, hivc]
  have hkids := h.shape.kids
  refine ⟨h.shape.trans hs, hlo, by rw [hhi], fun y hy => ?_, fun hf y hy => ?_, fun hf y hy => ?_⟩
  · rw [← h.frame y hy]
    refine hother y ?_
    rintro rfl
    exact hy .refl
  · rw [hother y hy, h.kept hf]
  · refine LaidOut.widen (t.of_sameShape h.shape) hs hother ?_ ?_ (fun z hz => ?_) y ?_
    · rw [hlo]
      exact h.lo hf
    · rw [hhi]
      exact h.hi hf
    · exact h.laidOut hf z (by rwa [← hkids])
    · rwa [hkids]

theorem expandIntervalToChosen_spec (fr : Interval.Fractions) {ctx : ReindexOperationContext}
    (t : TreeInv o ctx.store) (hcache : Cached ctx.store ctx.subtreeSizes) (hcm : c ∈ ctx.store.nodes)
    {sumBefore sumAfter : Nat} {isFinal : Bool}
    (hlaid : ∀ y, Desc ctx.store.kids c y → LaidOut ctx.store y)
    (hinner : isFinal = true → ctx.store.kids c ≠ []) :
    Returns False (ctx.expandIntervalToChosen fr p c sumBefore sumAfter isFinal) (fun ctx' =>
      Expanded ctx.store ctx'.store c (ctx.store.lo p + sumBefore + ctx.slack)
        (ctx.store.hi p - sumAfter - ctx.slack) isFinal ∧ ctx'.slack = ctx.slack) := by
  refine Returns.bind (getInterval_spec False.elim) fun i hi => ?_
  have hlo : i.start = ctx.store.lo p := by
    rw [hi.1]
    rfl
  have hhi : i.stop = ctx.store.hi p := by
    rw [hi.1]
    rfl
  refine Returns.bind (addU64_spec False.elim) fun n₁ hn₁ => ?_
  refine Returns.bind (addU64_spec False.elim) fun n₂ hn₂ => ?_
  refine Returns.bind (subU64_spec False.elim) fun n₃ hn₃ => ?_
  refine Returns.bind (subU64_spec False.elim) fun n₄ hn₄ => ?_
  refine Returns.bind (subU64_spec False.elim) fun n₅ hn₅ => ?_
  refine Returns.bind (Interval.new_spec False.elim) fun alloc halloc => ?_
  have hstart : alloc.start = ctx.store.lo p + sumBefore + ctx.slack := by
    rw [halloc.1, hn₂.1, hn₁.1, hlo]
  have hstop : alloc.stop + 1 = ctx.store.hi p - sumAfter - ctx.slack := by
    have := hn₅.2
    rw [halloc.2, hn₅.1, ← hhi, ← hn₃.1, ← hn₄.1]
    omega
  rw [← hstart, ← hstop]
  refine Returns.bind (getInterval_spec fun _ => hcm) fun cur hcur => ?_
  have hlast : ∀ ctx₁ : ReindexOperationContext, Fitted ctx.store ctx₁.store c alloc isFinal →
      ctx₁.slack = ctx.slack →
      Returns False (do return { ctx₁ with store := ← ctx₁.store.setInterval c alloc })
        fun ctx' : ReindexOperationContext =>
          Expanded ctx.store ctx'.store c alloc.start (alloc.stop + 1) isFinal ∧
          ctx'.slack = ctx.slack := fun ctx₁ h₁ hsl =>
    Returns.bind (setInterval_spec False.elim) fun s' hs' =>
      Returns.pure ⟨h₁.expanded t hs'.2.1 hs'.2.2, hsl⟩
  by_cases hnarrow : (isFinal && !alloc.contains cur) = true
  · simp only [hnarrow, if_true]
    rw [Bool.and_eq_true] at hnarrow
    refine Returns.bind (addU64_spec False.elim) fun m₁ hm₁ => ?_
    refine Returns.bind (subU64_spec False.elim) fun m₂ hm₂ => ?_
    refine Returns.bind (Interval.new_spec False.elim) fun narrowed hnar => ?_
    refine Returns.bind (setInterval_spec fun _ => hcm) fun s₁ hs₁ => ?_
    obtain ⟨_, hsh₁, hiv₁⟩ := hs₁
    have hkids₁ := hsh₁.kids
    have hprop := propagateInterval_spec (C := False) fr
      (show TreeInv o (ReindexOperationContext.mk s₁ ctx.subtreeSizes ctx.slack).store from
        t.of_sameShape hsh₁) (by rwa [hsh₁.nodes]) False.elim (hcache.of_sameShape hsh₁)
      (fun hk => absurd (by rw [← hkids₁]; exact hk) (hinner hnarrow.1)) False.elim
    refine Returns.bind hprop fun ctx₁ h₁ => ?_
    obtain ⟨hp, _, hsl⟩ := h₁
    have hivc : ctx₁.store.iv c = narrowed := by
      rw [hp.frame c fun h => h.2 rfl, hiv₁, Function.update_self]
    refine hlast ctx₁ ⟨hsh₁.trans hp.shape, fun y hy => ?_, fun hf => ?_, fun _ => ?_, fun _ => ?_,
      fun _ y hy => hp.nested y (by rwa [hkids₁])⟩ hsl
    · rw [hp.frame y fun h => hy (by rw [← hkids₁]; exact h.1), hiv₁]
      refine Function.update_of_ne ?_ ..
      rintro rfl
      exact hy .refl
    · rw [hf] at hnarrow
      cases hnarrow.1
    · rw [MemoryReachabilityStore.lo, hivc, hnar.1, hm₁.1]
      omega
    · rw [MemoryReachabilityStore.hi, hivc, hnar.2, hm₂.1]
      omega
  · simp only [hnarrow]
    have hcont : isFinal = true → alloc.start ≤ ctx.store.lo c ∧ ctx.store.hi c ≤ alloc.stop := by
      intro hf
      have hcont : alloc.contains cur = true := by simpa [hf] using hnarrow
      rw [Interval.contains_iff, hcur.1] at hcont
      exact hcont
    exact hlast ctx ⟨.refl _, fun _ _ => rfl, fun _ => rfl, fun hf => (hcont hf).1,
      fun hf => (hcont hf).2, fun _ => hlaid⟩ rfl

/-- A concentration of the children of `p` around the chosen child `c`, which may be left wider
than its children. -/
structure Concentrated (s s' : Store) (c : Hash) (isFinal : Bool) : Prop where
  shape : SameShape s s'
  laidOut : ∀ z ∈ s.nodes, z ≠ c → LaidOut s' z
  final : isFinal = true → LaidOut s' c
  ordered : Ordered s' (s.kids c)

theorem concentrateInterval_spec (fr : Interval.Fractions) {ctx : ReindexOperationContext}
    (t : TreeInv o ctx.store) (hcache : Cached ctx.store ctx.subtreeSizes)
    (hc : c ∈ ctx.store.kids p) (hlaid : ∀ z ∈ ctx.store.nodes, z ≠ p → LaidOut ctx.store z)
    {isFinal : Bool} (hinner : isFinal = true → ctx.store.kids c ≠ []) :
    Returns False (ctx.concentrateInterval fr p c isFinal) (fun ctx' =>
      Concentrated ctx.store ctx'.store c isFinal) := by
  obtain ⟨pre, post, hk⟩ := List.append_of_mem hc
  have hnd := t.tree.nodup p
  rw [hk] at hnd
  have hcpre : c ∉ pre := fun hm => (List.nodup_append.mp hnd).2.2 c hm c (by simp) rfl
  have hcpost : c ∉ post := (List.nodup_cons.mp (List.nodup_append.mp hnd).2.1).1
  have hprek : ∀ e ∈ pre, e ∈ ctx.store.kids p := fun e he => by
    rw [hk]
    exact List.mem_append_left _ he
  have hpostk : ∀ e ∈ post, e ∈ ctx.store.kids p := fun e he => by
    rw [hk]
    exact List.mem_append_right _ (List.mem_cons_of_mem _ he)
  have hdisj : ∀ e ∈ pre, e ∉ post := fun e he he' =>
    (List.nodup_append.mp hnd).2.2 e he e (List.mem_cons_of_mem _ he') rfl
  -- Subtrees of children of `p` do not meet, and `p` is in none.
  have hapart : ∀ e ∈ ctx.store.kids p, ∀ e' ∈ ctx.store.kids p, e ≠ e' → ∀ y,
      Desc ctx.store.kids e y → ¬Desc ctx.store.kids e' y :=
    fun e he e' he' hne y hy hy' => hne (t.tree.kids_disjoint he he' hy hy')
  have hpbelow : ∀ e ∈ ctx.store.kids p, ¬Desc ctx.store.kids e p := fun e he =>
    t.tree.not_desc_of_kid he
  have hcm := t.tree.closed hc
  refine Returns.bind (getChildren_spec False.elim) fun children hch => ?_
  rw [hch.1, hk, splitChildren_eq hcpre]
  change Returns False (ctx.tightenIntervalsBefore fr p pre >>= _) _
  refine Returns.bind (tightenIntervalsBefore_spec fr t hcache hprek
    (List.nodup_append.mp hnd).1) fun r₁ h₁ => ?_
  obtain ⟨ctx₁, sumBefore⟩ := r₁
  obtain ⟨hb, hc₁, hsl₁⟩ := h₁
  simp only at hb hc₁ hsl₁
  have hsh₁ := hb.shape
  have hkids₁ := hsh₁.kids
  refine Returns.bind (tightenIntervalsAfter_spec fr (t.of_sameShape hsh₁)
    (hc₁.of_sameShape hsh₁) (fun e he => by rw [hkids₁]; exact hpostk e he)
    (List.nodup_cons.mp (List.nodup_append.mp hnd).2.1).2) fun r₂ h₂ => ?_
  obtain ⟨ctx₂, sumAfter⟩ := r₂
  obtain ⟨hle, ha, hc₂, hsl₂⟩ := h₂
  simp only at hle ha hc₂ hsl₂
  have hsh₂ := hsh₁.trans ha.shape
  have hkids₂ := hsh₂.kids
  have hframe₂ : ∀ y, (∀ e ∈ post, ¬Desc ctx.store.kids e y) →
      ctx₂.store.iv y = ctx₁.store.iv y := fun y hy => ha.frame y (by rw [hkids₁]; exact hy)
  have hivp₂ : ctx₂.store.iv p = ctx.store.iv p := by
    rw [hframe₂ p fun e he => hpbelow e (hpostk e he), hb.frame p fun e he => hpbelow e (hprek e he)]
  -- What is below the chosen child has not been touched yet.
  have hcsame : ∀ y, Desc ctx.store.kids c y → ctx₂.store.iv y = ctx.store.iv y := by
    intro y hy
    rw [hframe₂ y fun e he => hapart c hc e (hpostk e he) (fun h => hcpost (h ▸ he)) y hy,
      hb.frame y fun e he => hapart c hc e (hprek e he) (fun h => hcpre (h ▸ he)) y hy]
  have hlaid₂ : ∀ y, Desc ctx₂.store.kids c y → LaidOut ctx₂.store y := by
    intro y hy
    rw [hkids₂] at hy
    have hyp : y ≠ p := by
      rintro rfl
      exact hpbelow c hc hy
    refine (hlaid y (t.tree.mem_desc hy hcm) hyp).of_iv hsh₂ fun z hz => hcsame z ?_
    rcases hz with rfl | hz
    · exact hy
    · exact hy.trans (.kid hz)
  refine (expandIntervalToChosen_spec fr (t.of_sameShape hsh₂) (hc₂.of_sameShape ha.shape)
    (by rwa [hsh₂.nodes]) hlaid₂ (fun hf => by rw [hkids₂]; exact hinner hf)).mono fun ctx' h' => ?_
  obtain ⟨hexp, _⟩ := h'
  have hsh₃ := hsh₂.trans hexp.shape
  have hframe₃ : ∀ y, ¬Desc ctx.store.kids c y → ctx'.store.iv y = ctx₂.store.iv y := fun y hy =>
    hexp.frame y (by rwa [hkids₂])
  have hpre₃ : ∀ e ∈ pre, ∀ y, Desc ctx.store.kids e y → ctx'.store.iv y = ctx₁.store.iv y := by
    intro e he y hy
    rw [hframe₃ y (hapart e (hprek e he) c hc (fun h => hcpre (h ▸ he)) y hy),
      hframe₂ y fun e' he' => hapart e (hprek e he) e' (hpostk e' he')
        (fun h => hdisj e he (h ▸ he')) y hy]
  have hpost₃ : ∀ e ∈ post, ∀ y, Desc ctx.store.kids e y → ctx'.store.iv y = ctx₂.store.iv y :=
    fun e he y hy => hframe₃ y (hapart e (hpostk e he) c hc (fun h => hcpost (h ▸ he)) y hy)
  have hivp₃ : ctx'.store.iv p = ctx.store.iv p := by rw [hframe₃ p (hpbelow c hc), hivp₂]
  have hout : ∀ y, (∀ e ∈ ctx.store.kids p, ¬Desc ctx.store.kids e y) →
      ctx'.store.iv y = ctx.store.iv y := by
    intro y hy
    rw [hframe₃ y (hy c hc), hframe₂ y fun e he => hy e (hpostk e he),
      hb.frame y fun e he => hy e (hprek e he)]
  have hivp₁ : ctx₁.store.iv p = ctx.store.iv p := hb.frame p fun e he => hpbelow e (hprek e he)
  have hp₃ : LaidOut ctx'.store p := by
    have hpack : Packed ctx'.store.lo ctx'.store.hi (ctx.store.lo p + ctx.slack)
        (pre ++ c :: post) (ctx.store.hi p - ctx.slack) := by
      have hlo := hexp.lo
      have hhi := hexp.hi
      have hpa := ha.packed
      rw [lo_of_iv hivp₂, hsl₂, hsl₁] at hlo
      rw [hi_of_iv hivp₂, hsl₂, hsl₁] at hhi
      rw [hi_of_iv hivp₁, hsl₁] at hpa
      refine packed_append.mpr ⟨ctx.store.lo p + ctx.slack + sumBefore, ?_, ?_, ?_, ?_⟩
      · exact hb.packed.congr (fun e he => lo_of_iv (hpre₃ e he e .refl))
          fun e he => hi_of_iv (hpre₃ e he e .refl)
      · rw [hlo]
        omega
      · exact lo_le_hi_succ _ _
      · rw [hhi, Nat.sub_right_comm]
        exact hpa.congr (fun e he => lo_of_iv (hpost₃ e he e .refl))
          fun e he => hi_of_iv (hpost₃ e he e .refl)
    refine ⟨?_, _, _, by rw [hsh₃.kids, hk]; exact hpack⟩
    rw [NestedAt, Nested, hsh₃.kids, hk, lo_of_iv hivp₃, hi_of_iv hivp₃]
    exact hpack.stacked.mono (by omega) (by omega)
  have hlaid₃ : ∀ z ∈ ctx.store.nodes, z ≠ c → LaidOut ctx'.store z := by
    intro z hz hzc
    by_cases hzp : z = p
    · rw [hzp]
      exact hp₃
    by_cases hbelow : ∃ e ∈ ctx.store.kids p, Desc ctx.store.kids e z
    · obtain ⟨e, he, hez⟩ := hbelow
      rw [hk] at he
      rcases List.mem_append.mp he with hpre | he
      · refine (hb.laidOut e hpre z hez).of_iv (hsh₁.symm.trans hsh₃) fun y hy => ?_
        rcases hy with rfl | hy
        · exact hpre₃ e hpre y hez
        · rw [hkids₁] at hy
          exact hpre₃ e hpre y (hez.trans (.kid hy))
      rcases List.mem_cons.mp he with rfl | hpost
      · cases hf : isFinal with
        | true => exact hexp.laidOut hf z (by rwa [hkids₂])
        | false =>
          refine (hlaid₂ z (by rwa [hkids₂])).of_iv hexp.shape fun y hy => hexp.kept hf y ?_
          rintro rfl
          rcases hy with rfl | hy
          · exact hzc rfl
          · rw [hkids₂] at hy
            exact t.tree.not_desc_of_kid hy hez
      · refine (ha.laidOut e hpost z (by rwa [hkids₁])).of_iv hexp.shape fun y hy => ?_
        rcases hy with rfl | hy
        · exact hpost₃ e hpost y hez
        · rw [hkids₂] at hy
          exact hpost₃ e hpost y (hez.trans (.kid hy))
    · have hno : ∀ e ∈ ctx.store.kids p, ¬Desc ctx.store.kids e z := fun e he hez =>
        hbelow ⟨e, he, hez⟩
      refine (hlaid z hz hzp).of_iv hsh₃ fun y hy => hout y ?_
      rcases hy with rfl | hy
      · exact hno
      · intro e he hey
        by_cases hne : e = y
        · subst hne
          exact hzp (t.tree.unique hy he)
        · exact hno e he (t.tree.desc_parent hy hey hne)
  have hfinal₃ : isFinal = true → LaidOut ctx'.store c := fun hf =>
    hexp.laidOut hf c .refl
  refine ⟨hsh₃, hlaid₃, hfinal₃, ?_⟩
  cases hf : isFinal with
  | true =>
    have hst := (hfinal₃ hf).nested
    rw [NestedAt, Nested, hsh₃.kids] at hst
    exact ordered_of_stacked hst
  | false =>
    have hst := (hlaid₂ c .refl).nested
    rw [NestedAt, Nested, hkids₂] at hst
    have hself : ∀ e ∈ ctx.store.kids c, ctx'.store.iv e = ctx₂.store.iv e := fun e he =>
      hexp.kept hf e fun h => by
        subst h
        exact t.tree.not_desc_of_kid he .refl
    exact ordered_of_stacked
      (hst.congr (fun e he => lo_of_iv (hself e he)) fun e he => hi_of_iv (hself e he))

/-- The loop that carries the reindex root down from `a` to `next`. -/
theorem concentrateLoop_spec (fr : Interval.Fractions) {slack fuel : Nat} {a next : Hash}
    (t : TreeInv o s) (had : Desc s.kids a next) (ham : a ∈ s.nodes)
    (hlaid : ∀ z ∈ s.nodes, z ≠ a → LaidOut s z) (hlast : a = next → LaidOut s a)
    (hord : Ordered s (s.kids a)) (hinner : s.kids next ≠ []) :
    Returns False (concentrateLoop fr next slack fuel s a) (fun s' => Reindexed s s') := by
  induction fuel generalizing s a with
  | zero => exact Returns.error id
  | succ fuel ih =>
    rw [concentrateLoop]
    by_cases han : a = next
    · rw [if_pos han]
      refine Returns.ok ⟨.refl _, fun z hz => ?_⟩
      by_cases hza : z = a
      · rw [hza]
        exact hlast han
      · exact hlaid z hz hza
    · rw [if_neg han]
      obtain ⟨c, hc, hcn⟩ := (desc_iff_head.mp had).resolve_left han
      obtain ⟨pre, post, hk⟩ := List.append_of_mem hc
      have hcm := t.tree.closed hc
      -- What lies below the children of `a` is laid out.
      have hbelow : ∀ e ∈ s.kids a, ∀ z, Desc s.kids e z → LaidOut s z := by
        intro e he z hz
        refine hlaid z (t.tree.mem_desc hz (t.tree.closed he)) ?_
        rintro rfl
        exact t.tree.not_desc_of_kid he hz
      have hcont := contains_below (fun z hz _ => (hbelow c hc z hz).nested) hcn
      have hnext : Returns False (getNextChainAncestorUnchecked s next a) fun h => h = c :=
        getNextChainAncestorUnchecked_spec False.elim hk hord
          (fun e he => (hbelow e (by rw [hk]; exact List.mem_append_left _ he) e .refl).nested.le)
          hcont.1 hcont.2.1 (hbelow c hc next hcn).nested.le
      refine Returns.bind hnext fun d hd => ?_
      subst hd
      have hfinal : (d == next) = true → s.kids d ≠ [] := fun hf => by
        rw [beq_iff_eq.mp hf]
        exact hinner
      have hconc : Returns False
          ((ReindexOperationContext.new s slack).concentrateInterval fr a d (d == next))
          fun ctx => Concentrated s ctx.store d (d == next) :=
        concentrateInterval_spec fr t (Cached.empty s) hc hlaid hfinal
      refine Returns.bind hconc fun ctx hctx => ?_
      have hsh : SameShape s ctx.store := hctx.shape
      have hkids := hsh.kids
      refine (ih (t.of_sameShape hsh) ?_ ?_ ?_ ?_ ?_ ?_).mono fun s' h' => ?_
      · rwa [hkids]
      · rwa [hsh.nodes]
      · intro z hz
        rw [hsh.nodes] at hz
        exact hctx.laidOut z hz
      · intro hdn
        exact hctx.final (beq_iff_eq.mpr hdn)
      · rw [hkids]
        exact hctx.ordered
      · rwa [hkids]
      · refine ⟨hsh.trans h'.shape, fun z hz => h'.laidOut z ?_⟩
        rwa [hsh.nodes]

theorem advanceNext_spec {hint : Hash} {hintHeight reindexDepth fuel : Nat} :
    Returns False (advanceNext s hint hintHeight reindexDepth fuel p) (fun next =>
      Desc s.kids p next ∧ s.kids next ≠ []) := by
  induction fuel generalizing p with
  | zero => exact Returns.error id
  | succ fuel ih =>
    refine Returns.bind getNextChainAncestorUnchecked_mem fun c hc => ?_
    refine Returns.bind (getHeight_spec False.elim) fun n hn => ?_
    by_cases hlt : hintHeight < n
    · rw [if_pos hlt]
      exact Returns.error id
    rw [if_neg hlt]
    by_cases hdepth : hintHeight - n < reindexDepth
    · rw [if_pos hdepth]
      exact Returns.pure ⟨.refl, List.ne_nil_of_mem hc⟩
    · rw [if_neg hdepth]
      exact ih.mono fun next h => ⟨(Desc.kid hc).trans h.1, h.2⟩

theorem findCommonTreeAncestor_spec {fuel : Nat} {current : Hash} :
    Returns False (findCommonTreeAncestor s root fuel current) (fun h => h ∈ s.nodes) := by
  induction fuel generalizing current with
  | zero => exact Returns.error id
  | succ fuel ih =>
    refine Returns.bind (isChainAncestorOf_spec False.elim False.elim) fun b hb => ?_
    cases b with
    | true => exact Returns.pure hb.2.1
    | false => exact Returns.bind (getParent_spec False.elim) fun q _ => ih

/-- The new reindex root is the old one, or an inner block below the ancestor. -/
theorem findNextReindexRoot_spec (hroot : root ∈ s.nodes) {hint : Hash}
    {reindexDepth reindexSlack : Nat} :
    Returns False (findNextReindexRoot s root hint reindexDepth reindexSlack) (fun r =>
      r.2 = root ∨ r.1 ∈ s.nodes ∧ Desc s.kids r.1 r.2 ∧ s.kids r.2 ≠ []) := by
  refine Returns.bind (getHeight_spec False.elim) fun hintHeight _ => ?_
  refine Returns.bind (isChainAncestorOf_spec False.elim False.elim) fun b hb => ?_
  cases b with
  | true =>
    refine Returns.bind advanceNext_spec fun next hnext => ?_
    exact Returns.pure (Or.inr ⟨hroot, hnext⟩)
  | false =>
    refine Returns.bind (getHeight_spec False.elim) fun currentHeight _ => ?_
    by_cases hlead : hintHeight < currentHeight ∨ hintHeight - currentHeight < reindexSlack
    · rw [if_pos hlead]
      exact Returns.pure (Or.inl rfl)
    · rw [if_neg hlead]
      refine Returns.bind findCommonTreeAncestor_spec fun common hcommon => ?_
      refine Returns.bind advanceNext_spec fun next hnext => ?_
      exact Returns.pure (Or.inr ⟨hcommon, hnext⟩)

/-- Only labels and the reindex root have changed. -/
structure SameLinks (s s' : Store) : Prop where
  nodes : s'.nodes = s.nodes
  kids : s'.kids = s.kids
  depth : s'.depth = s.depth
  covering : s'.covering = s.covering

/-- `try_advancing_reindex_root` moves labels only, and every block is laid out after it. -/
theorem tryAdvancingReindexRoot_spec (fr : Interval.Fractions) (inv : StoreInv o s) {hint : Hash}
    {reindexDepth reindexSlack : Nat} :
    Returns False (tryAdvancingReindexRoot fr s hint reindexDepth reindexSlack) (fun s' =>
      StoreInv o s' ∧ SameLinks s s') := by
  have t := inv.tree
  obtain ⟨root, hrm, hroot, hinner⟩ := inv.root
  have hget : Returns False s.getReindexRoot fun q => q = root := by
    rw [getReindexRoot, hroot]
    exact Returns.ok rfl
  refine Returns.bind hget fun q hq => ?_
  subst hq
  refine Returns.bind (findNextReindexRoot_spec hrm) fun r hr => ?_
  obtain ⟨a, next⟩ := r
  simp only at hr
  by_cases hsame : q = next
  · simp only [hsame, if_true]
    exact Returns.pure ⟨inv, rfl, rfl, rfl, rfl⟩
  · simp only [hsame, if_false]
    obtain ⟨ham, han, hnext⟩ := hr.resolve_left (Ne.symm hsame)
    refine Returns.bind (concentrateLoop_spec fr t han ham (fun z hz _ => inv.laidOut z hz)
      (fun _ => inv.laidOut a ham) (ordered_of_stacked (inv.laidOut a ham).nested) hnext)
      fun s' hs' => Returns.pure ?_
    have hsh := hs'.shape
    have hsh' : SameLinks s (s'.setReindexRoot next) := ⟨hsh.nodes, hsh.kids, hsh.depth, hsh.covering⟩
    refine ⟨⟨?_, fun z hz => ?_, next, ?_, rfl, Or.inr ?_⟩, hsh'⟩
    · have ht := t.of_sameShape hsh
      exact ⟨ht.tree, ht.par, ht.par_root⟩
    · rw [hsh'.nodes] at hz
      have hl := hs'.laidOut z hz
      exact ⟨hl.nested, hl.packed⟩
    · rw [hsh'.nodes]
      exact t.tree.mem_desc han ham
    · rw [hsh'.kids]
      exact hnext

end TaoDag.Reachability
