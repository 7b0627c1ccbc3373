import TaoDag.Reachability.Count

namespace TaoDag.Reachability

open MemoryReachabilityStore OrderedTree

variable {o : Hash} {C : Prop} {s s' : Store} {x y block : Hash}

/-- The number of labels of a block. -/
def labels (s : Store) (x : Hash) : Nat := s.hi x + 1 - s.lo x

theorem labels_eq_size (s : Store) (x : Hash) : labels s x = (s.iv x).size := rfl

/-- The labels of the children of `x` are in order inside those of `x`. -/
abbrev NestedAt (s : Store) (x : Hash) : Prop := Nested s.lo s.hi s.kids x

theorem lo_of_iv (h : s'.iv x = s.iv x) : s'.lo x = s.lo x := by rw [lo, h, lo]

theorem hi_of_iv (h : s'.iv x = s.iv x) : s'.hi x = s.hi x := by
  rw [MemoryReachabilityStore.hi, h, MemoryReachabilityStore.hi]

theorem NestedAt.of_iv (h : NestedAt s x) (hs : SameShape s s')
    (hiv : ∀ y, y = x ∨ y ∈ s.kids x → s'.iv y = s.iv y) : NestedAt s' x := by
  rw [NestedAt, hs.kids]
  refine h.congr (lo_of_iv (hiv x (Or.inl rfl))) (hi_of_iv (hiv x (Or.inl rfl))) ?_
  intro y hy
  exact ⟨lo_of_iv (hiv y (Or.inr hy)), hi_of_iv (hiv y (Or.inr hy))⟩

/-- There is no free label between two children. -/
def PackedAt (s : Store) (p : Hash) : Prop := ∃ a b, Packed s.lo s.hi a (s.kids p) b

theorem PackedAt.of_iv (h : PackedAt s x) (hs : SameShape s s')
    (he : ∀ e ∈ s.kids x, s'.iv e = s.iv e) : PackedAt s' x := by
  obtain ⟨m, n, h⟩ := h
  refine ⟨m, n, ?_⟩
  rw [hs.kids]
  exact h.congr (fun e hm => lo_of_iv (he e hm)) fun e hm => hi_of_iv (he e hm)

/-- The children of `x` are in order inside it, each next to the one before. -/
structure LaidOut (s : Store) (x : Hash) : Prop where
  nested : NestedAt s x
  packed : PackedAt s x

theorem LaidOut.of_iv (h : LaidOut s x) (hs : SameShape s s')
    (hiv : ∀ y, y = x ∨ y ∈ s.kids x → s'.iv y = s.iv y) : LaidOut s' x where
  nested := h.nested.of_iv hs hiv
  packed := h.packed.of_iv hs fun e he => hiv e (Or.inr he)

theorem laidOut_leaf (hk : s.kids x = []) : LaidOut s x ↔ s.lo x ≤ s.hi x := by
  constructor
  · intro h
    exact (nested_leaf hk).mp h.nested
  · intro h
    refine ⟨(nested_leaf hk).mpr h, 0, 0, ?_⟩
    rw [hk]
    rfl

theorem tiles_iff_packed {a b : Nat} {l : List Hash} :
    Interval.Tiles a (l.map s.iv) b ↔ Packed s.lo s.hi a l b := by
  induction l generalizing a with
  | nil => rfl
  | cons x l ih =>
    constructor
    · rintro ⟨h, ht⟩
      exact ⟨h, (s.iv x).le, ih.mp ht⟩
    · rintro ⟨h, _, hp⟩
      exact ⟨h, ih.mpr hp⟩

theorem intervalChildrenCapacity_spec (hx : C → x ∈ s.nodes) (hne : C → s.lo x ≤ s.hi x) :
    Returns C (s.intervalChildrenCapacity x) (fun i =>
      (i.start = s.lo x ∧ i.stop + 1 = s.hi x) ∧ x ∈ s.nodes) := by
  refine Returns.bind (getInterval_spec hx) fun i hi => ?_
  refine (Interval.decreaseEnd_spec fun hc => ?_).mono fun j hj => ⟨?_, hi.2⟩
  · have := hne hc
    have hsz : labels s x = i.size := by rw [labels_eq_size, hi.1]
    rw [← hsz, labels]
    omega
  · rw [hi.1] at hj
    exact hj

theorem setIntervals_spec {l : List (Hash × Interval)} (hn : (l.map (·.1)).Nodup)
    (hl : C → ∀ p ∈ l, p.1 ∈ s.nodes) :
    Returns C (ReindexOperationContext.setIntervals s l) (fun s' => SameShape s s' ∧
      (∀ y, y ∉ l.map (·.1) → s'.iv y = s.iv y) ∧ (l.map (·.1)).map s'.iv = l.map (·.2)) := by
  induction l generalizing s with
  | nil => exact Returns.ok ⟨.refl s, fun _ _ => rfl, rfl⟩
  | cons p l ih =>
    rw [List.map_cons, List.nodup_cons] at hn
    refine Returns.bind (setInterval_spec fun hc => hl hc p (List.mem_cons_self ..))
      fun s₁ ⟨_, hs₁, hiv₁⟩ => ?_
    refine (ih hn.2 fun hc q hq => ?_).mono ?_
    · rw [hs₁.nodes]
      exact hl hc q (List.mem_cons_of_mem _ hq)
    · rintro s₂ ⟨hs₂, hframe, hset⟩
      refine ⟨hs₁.trans hs₂, ?_, ?_⟩
      · intro y hy
        rw [List.map_cons, List.mem_cons, not_or] at hy
        rw [hframe y hy.2, hiv₁, Function.update_of_ne hy.1]
      · rw [List.map_cons, List.map_cons, List.map_cons, hset, hframe p.1 hn.1, hiv₁,
          Function.update_self]

/-- What `propagate_interval` does below `block`: every block there is laid out, and no interval
changes but those strictly below. -/
structure Propagated (s s' : Store) (block : Hash) : Prop where
  shape : SameShape s s'
  frame : ∀ y, ¬(Desc s.kids block y ∧ y ≠ block) → s'.iv y = s.iv y
  nested : ∀ y, Desc s.kids block y → LaidOut s' y

namespace ReindexOperationContext

/-- The search of `propagate_interval`: a block below `block` is laid out already, or is still to
be reached from the queue. -/
structure Spreading (s s' : Store) (block : Hash) (queue : List Hash) : Prop where
  shape : SameShape s s'
  below : ∀ q ∈ queue, Desc s.kids block q
  frame : ∀ y, ¬(Desc s.kids block y ∧ y ≠ block) → s'.iv y = s.iv y
  nested : ∀ y, Desc s.kids block y → LaidOut s' y ∨ ∃ q ∈ queue, Desc s.kids q y
  leaf : ∀ q ∈ queue, s.kids q = [] → s'.lo q ≤ s'.hi q

/-- The queue moves past a leaf. -/
theorem Spreading.leaf_step {queue : List Hash} (h : Spreading s s' block (x :: queue))
    (hk : s.kids x = []) : Spreading s s' block queue where
  shape := h.shape
  below := fun q hq => h.below q (List.mem_cons_of_mem _ hq)
  frame := h.frame
  nested := by
    intro y hy
    rcases h.nested y hy with hn | ⟨q, hq, hqy⟩
    · exact Or.inl hn
    · rcases List.mem_cons.mp hq with rfl | hq
      · rcases desc_iff_head.mp hqy with rfl | ⟨c, hc, _⟩
        · left
          have hk' : s'.kids q = [] := by rw [h.shape.kids, hk]
          have hle := h.leaf q (List.mem_cons_self ..) hk
          exact (laidOut_leaf hk').mpr hle
        · rw [hk] at hc
          cases hc
      · exact Or.inr ⟨q, hq, hqy⟩
  leaf := fun q hq => h.leaf q (List.mem_cons_of_mem _ hq)

/-- The children of a block get intervals that tile its capacity. -/
theorem Spreading.inner_step {s'' : Store} {queue : List Hash} (t : TreeInv o s)
    (h : Spreading s s' block (x :: queue)) (hs : SameShape s' s'')
    (hframe : ∀ y, y ∉ s.kids x → s''.iv y = s'.iv y)
    (hpack : Packed s''.lo s''.hi (s'.lo x) (s.kids x) (s'.hi x))
    (hroom : ∀ c ∈ s.kids x, s''.lo c ≤ s''.hi c) :
    Spreading s s'' block (queue ++ s.kids x) := by
  have hbx := h.below x (List.mem_cons_self ..)
  have hxx : x ∉ s.kids x := fun hx => t.tree.not_desc_of_kid hx .refl
  have hnested : LaidOut s'' x := by
    refine ⟨?_, s'.lo x, s'.hi x, ?_⟩
    · rw [NestedAt, Nested, hs.kids, h.shape.kids, lo_of_iv (hframe x hxx),
        hi_of_iv (hframe x hxx)]
      exact hpack.stacked
    · rw [hs.kids, h.shape.kids]
      exact hpack
  constructor
  · exact h.shape.trans hs
  · intro q hq
    rcases List.mem_append.mp hq with hq | hq
    · exact h.below q (List.mem_cons_of_mem _ hq)
    · exact hbx.trans (.kid hq)
  · intro y hy
    have hyk : y ∉ s.kids x := by
      intro hk
      refine hy ⟨hbx.trans (.kid hk), ?_⟩
      rintro rfl
      exact t.tree.not_desc_of_kid hk hbx
    rw [hframe y hyk, h.frame y hy]
  · intro y hy
    by_cases hyk : y ∈ s.kids x
    · exact Or.inr ⟨y, List.mem_append_right _ hyk, .refl⟩
    · rcases h.nested y hy with hn | ⟨q, hq, hqy⟩
      · by_cases hyx : y = x
        · rw [hyx]
          exact Or.inl hnested
        · -- No child of `y` is a child of `x`.
          left
          refine hn.of_iv hs ?_
          rintro z (rfl | hz)
          · exact hframe z hyk
          · rw [h.shape.kids] at hz
            exact hframe z fun hzx => hyx (t.tree.unique hz hzx)
      · rcases List.mem_cons.mp hq with rfl | hq
        · rcases desc_iff_head.mp hqy with rfl | ⟨c, hc, hcy⟩
          · exact Or.inl hnested
          · exact Or.inr ⟨c, List.mem_append_right _ hc, hcy⟩
        · exact Or.inr ⟨q, List.mem_append_left _ hq, hqy⟩
  · intro q hq hk
    rcases List.mem_append.mp hq with hq | hq
    · by_cases hqx : q ∈ s.kids x
      · exact hroom q hqx
      · rw [lo_of_iv (hframe q hqx), hi_of_iv (hframe q hqx)]
        exact h.leaf q (List.mem_cons_of_mem _ hq) hk
    · exact hroom q hq

theorem Cached.desc {cache : BlockHashMap Nat} (h : Cached s cache) (hx : x ∈ cache)
    (hd : Desc s.kids x y) : y ∈ cache := by
  induction hd with
  | refl => exact hx
  | tail _ hc ih => exact h.closed ih hc

theorem propagateLoop_spec (fr : Interval.Fractions) {cache : BlockHashMap Nat} {slack : Nat}
    (t : TreeInv o s) (hb : block ∈ s.nodes) (hcache : Cached s cache)
    (hbc : block ∈ cache) {fuel : Nat} {queue : List Hash}
    (hfuel : (queue.map (treeSize s)).sum < fuel) (h : Spreading s s' block queue)
    (hroom : C → ∀ q ∈ queue, treeSize s q ≤ labels s' q) :
    Returns C (propagateLoop fr fuel ⟨s', cache, slack⟩ queue) (fun ctx =>
      Propagated s ctx.store block ∧ ctx.subtreeSizes = cache ∧ ctx.slack = slack) := by
  induction fuel generalizing s' queue with
  | zero => omega
  | succ fuel ih =>
    cases queue with
    | nil =>
      refine Returns.ok ⟨⟨h.shape, h.frame, fun y hy => ?_⟩, rfl, rfl⟩
      rcases h.nested y hy with hn | ⟨q, hq, _⟩
      · exact hn
      · cases hq
    | cons x queue =>
      rw [List.map_cons, List.sum_cons] at hfuel
      have hbx := h.below x (List.mem_cons_self ..)
      have hx : x ∈ s.nodes := t.tree.mem_desc hbx hb
      have hx' : x ∈ s'.nodes := by rwa [h.shape.nodes]
      have hsize := t.treeSize_eq hx
      refine Returns.bind (getChildren_spec fun _ => hx') fun children hch => ?_
      rw [hch.1, h.shape.kids]
      split_ifs with hleaf
      · have hk : s.kids x = [] := by simpa using hleaf
        exact ih (by omega) (h.leaf_step hk)
          fun hc q hq => hroom hc q (List.mem_cons_of_mem _ hq)
      · have hne : s.kids x ≠ [] := by simpa using hleaf
        have hcached : Cached s' cache := hcache.of_sameShape h.shape
        have hkc : ∀ c ∈ s.kids x, c ∈ cache := fun c hc =>
          hcache.closed (Cached.desc hcache hbc hbx) hc
        refine Returns.bind (subtreeSizes_spec hcached.sized fun _ => hkc) fun sizes hsizes => ?_
        rw [hsizes.1, treeSize_of_sameShape h.shape]
        refine Returns.bind (intervalChildrenCapacity_spec (fun _ => hx') fun hc => ?_)
          fun cap hcap => ?_
        · have := hroom hc x (List.mem_cons_self ..)
          have hpos : 0 < treeSize s x := by omega
          rw [labels] at this
          change s'.lo x ≤ s'.hi x
          omega
        have hcap' : cap.start = s'.lo x ∧ cap.stop + 1 = s'.hi x := hcap.1
        have hcapsize := cap.size_add_start
        have hlab : labels s' x = s'.hi x + 1 - s'.lo x := rfl
        have hkids : ∀ c ∈ s.kids x, 0 < treeSize s c :=
          fun c hc => size_pos (t.tree.closed hc)
        have hpos : 0 < ((s.kids x).map (treeSize s)).sum := by
          obtain ⟨c, hc⟩ := List.exists_mem_of_ne_nil _ hne
          have := hkids c hc
          have := List.single_le_sum (l := (s.kids x).map (treeSize s))
            (fun _ _ => Nat.zero_le _) (treeSize s c) (List.mem_map_of_mem hc)
          omega
        refine Returns.bind (Interval.splitExponential_spec fr fun hc => ?_) fun is his => ?_
        · have := hroom hc x (List.mem_cons_self ..)
          exact ⟨hpos, by omega⟩
        obtain ⟨⟨htiles, hfit⟩, _⟩ := his
        rw [List.forall₂_map_left_iff] at hfit
        have hlen : (s.kids x).length = is.length := hfit.length_eq
        have hfst : ((s.kids x).zip is).map (·.1) = s.kids x :=
          List.map_fst_zip (by omega)
        have hsnd : ((s.kids x).zip is).map (·.2) = is := List.map_snd_zip (by omega)
        refine Returns.bind (setIntervals_spec (l := (s.kids x).zip is) ?_ fun _ p hp => ?_)
          fun s'' hset => ?_
        · rw [hfst]
          exact t.tree.nodup x
        · rw [h.shape.nodes]
          exact t.tree.closed (List.of_mem_zip hp).1
        rw [hfst, hsnd] at hset
        obtain ⟨hshape, hframe, hivs⟩ := hset
        rw [← hivs, tiles_iff_packed, hcap'.1, hcap'.2] at htiles
        rw [← hivs, List.forall₂_map_right_iff, List.forall₂_same] at hfit
        have hnext := h.inner_step t hshape hframe htiles fun c hc => by
          have := hkids c hc
          have hc' := hfit c hc
          rw [← labels_eq_size, labels] at hc'
          omega
        refine ih ?_ hnext fun hc q hq => ?_
        · rw [List.map_append, List.sum_append]
          omega
        · by_cases hqk : q ∈ s.kids x
          · rw [labels_eq_size]
            exact hfit q hqk
          · have hqq : q ∈ queue := (List.mem_append.mp hq).resolve_right hqk
            have := hroom hc q (List.mem_cons_of_mem _ hqq)
            rw [labels_eq_size, hframe q hqk, ← labels_eq_size]
            exact this

/-- `propagate_interval` lays out the subtree of a block that has room for it. -/
theorem propagateInterval_spec (fr : Interval.Fractions) {ctx : ReindexOperationContext}
    (t : TreeInv o ctx.store) (hb : block ∈ ctx.store.nodes) (hC : C → ctx.store.count ≤ u64Max)
    (hcache : Cached ctx.store ctx.subtreeSizes)
    (hne : ctx.store.kids block = [] → ctx.store.lo block ≤ ctx.store.hi block)
    (hroom : C → treeSize ctx.store block ≤ labels ctx.store block) :
    Returns C (ctx.propagateInterval fr block) (fun ctx' =>
      Propagated ctx.store ctx'.store block ∧ Cached ctx.store ctx'.subtreeSizes ∧
      ctx'.slack = ctx.slack) := by
  refine Returns.bind (countSubtrees_spec t hb hC hcache) ?_
  rintro ⟨store, cache, slack⟩ ⟨hs, hsl, hc, hbc⟩
  simp only at hs hsl hc hbc
  subst hs hsl
  have hstart : Spreading ctx.store ctx.store block [block] := by
    refine ⟨.refl _, ?_, fun _ _ => rfl, fun y hy => Or.inr ⟨block, by simp, hy⟩, ?_⟩
    · intro q hq
      rw [List.mem_singleton.mp hq]
      exact .refl
    · intro q hq hk
      rw [List.mem_singleton.mp hq] at hk ⊢
      exact hne hk
  have hle := treeSize_le_count ctx.store block
  refine (propagateLoop_spec fr t hb hc hbc (by simp; omega) hstart fun hc q hq => ?_).mono ?_
  · rw [List.mem_singleton.mp hq]
    exact hroom hc
  · rintro ctx' ⟨hp, hcache', hslack⟩
    rw [hcache']
    exact ⟨hp, hc, hslack⟩

end ReindexOperationContext

end TaoDag.Reachability
