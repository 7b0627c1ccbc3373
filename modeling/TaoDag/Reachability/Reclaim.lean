import TaoDag.Reachability.Offset

namespace TaoDag.Reachability

open MemoryReachabilityStore OrderedTree ReindexOperationContext

variable {o : Hash} {C : Prop} {s s₁ s' : Store} {side : Side} {gap ogap : Store → Hash → Nat}
  {a p c root : Hash} {k : Nat}

/-- Every block is laid out, except perhaps below the allocation block. -/
def NestedOutside (s : Store) (a : Hash) : Prop :=
  ∀ z ∈ s.nodes, ¬Desc s.kids a z → LaidOut s z

/-- One level of a reclaim: `s₁` is `s` with the child `c` of `p` narrowed by `k`, and `s'` is
`s₁` with the siblings moved after it. -/
structure Level (side : Side) (gap ogap : Store → Hash → Nat) (s s₁ s' : Store) (a p c : Hash)
    (k : Nat) : Prop where
  shape : SameShape s s'
  op : side.narrow (s.iv c) k = .ok (s'.iv c)
  nested : ∀ z ∈ s.nodes, a ∈ s.kids p ∨ ¬Desc s.kids a z → LaidOut s' z
  grown : a ∉ s.kids p → gap s' p = gap s p + k
  allocated : a ∈ s.kids p → gap s' p = gap s p
  other : ogap s' p = ogap s p
  frame : ∀ y, (∀ e ∈ s.kids p, ¬Desc s.kids e y) → s'.iv y = s.iv y
  below : ∀ y, Desc s.kids c y → s'.iv y = s₁.iv y
  size : ∀ e ∈ s.kids p, e ≠ c → labels s' e = labels s e + if e = a then k else 0

theorem offsetSiblings_spec (fr : Interval.Fractions) (laws : SideLaws side gap ogap)
    {ctx : ReindexOperationContext} (t : TreeInv o s) (h : Moved s ctx.store c side.narrow k)
    (hcache : Cached s ctx.subtreeSizes) (hC : C → s.count ≤ u64Max) (hc : c ∈ s.kids p)
    (hgood : NestedOutside s a) (hap : ¬Desc s.kids a p)
    (ha : a ∈ s.kids p ∨ ¬Desc s.kids p a)
    (hside : ∀ pre post, s.kids p = pre ++ c :: post → a ∈ s.kids p →
      a ∈ side.siblings (pre, post) ∧ treeSize s a ≤ labels s a + k) :
    Returns C (offsetSiblings fr side ctx a c k) (fun ctx' =>
      Level side gap ogap s ctx.store ctx'.store a p c k ∧ Cached s ctx'.subtreeSizes ∧
      ctx'.slack = ctx.slack) := by
  have hs := h.shape
  have hpm : p ∈ s.nodes := t.tree.mem_of_kid hc
  have hnp : LaidOut s p := hgood p hpm hap
  obtain ⟨pre, post, hk⟩ := List.append_of_mem hc
  have hnd := t.tree.nodup p
  have hndk := hnd
  rw [hk] at hndk
  have hcpre : c ∉ pre := fun hm => (List.nodup_append.mp hndk).2.2 c hm c (by simp) rfl
  have hcpost : c ∉ post := (List.nodup_cons.mp (List.nodup_append.mp hndk).2.1).1
  have hndpp : (pre ++ post).Nodup := by
    refine List.nodup_append.mpr ⟨(List.nodup_append.mp hndk).1,
      (List.nodup_cons.mp (List.nodup_append.mp hndk).2.1).2, fun x hx y hy => ?_⟩
    exact (List.nodup_append.mp hndk).2.2 x hx y (List.mem_cons_of_mem _ hy)
  have hsibk : ∀ e ∈ side.siblings (pre, post), e ∈ s.kids p ∧ e ≠ c := by
    intro e he
    have hep := laws.siblings he
    refine ⟨?_, ?_⟩
    · rw [hk]
      rcases List.mem_append.mp hep with he' | he'
      · exact List.mem_append_left _ he'
      · exact List.mem_append_right _ (List.mem_cons_of_mem _ he')
    · rintro rfl
      rcases List.mem_append.mp hep with he' | he'
      · exact hcpre he'
      · exact hcpost he'
  -- The siblings that move, and the allocation block if it comes next.
  obtain ⟨near, rest, hsplit, hanear, hrest, hrestp⟩ : ∃ near rest,
      side.siblings (pre, post) = near ++ rest ∧ a ∉ near ∧
      (rest = [] ∨ ∃ far, rest = a :: far) ∧ (rest ≠ [] ↔ a ∈ s.kids p) := by
    by_cases hak : a ∈ s.kids p
    · obtain ⟨near, far, hl⟩ := List.append_of_mem (hside pre post hk hak).1
      have hndl := laws.siblings_nodup hndpp
      rw [hl] at hndl
      refine ⟨near, a :: far, hl, fun hm => ?_, Or.inr ⟨far, rfl⟩, by simp [hak]⟩
      exact (List.nodup_append.mp hndl).2.2 a hm a (by simp) rfl
    · refine ⟨side.siblings (pre, post), [], by simp, fun hm => hak (hsibk a hm).1, Or.inl rfl, ?_⟩
      simp [hak]
  have hnearsib : ∀ e ∈ near, e ∈ side.siblings (pre, post) := fun e he => by
    rw [hsplit]
    exact List.mem_append_left _ he
  have hasib : rest ≠ [] → a ∈ side.siblings (pre, post) := by
    intro hr
    exact (hside pre post hk (hrestp.mp hr)).1
  have hndnear : near.Nodup := by
    have hndl := laws.siblings_nodup hndpp
    rw [hsplit] at hndl
    exact (List.nodup_append.mp hndl).1
  -- Subtrees of children of `p` do not meet.
  have hapart : ∀ e ∈ s.kids p, ∀ e' ∈ s.kids p, e ≠ e' → ∀ y, Desc s.kids e y →
      ¬Desc s.kids e' y := fun e he e' he' hne y hy hy' => hne (t.tree.kids_disjoint he he' hy hy')
  have hsame : ∀ e ∈ s.kids p, e ≠ c → ∀ y, Desc s.kids e y → ctx.store.iv y = s.iv y :=
    fun e he hne y hy => h.frame y (hapart e he c hc hne y hy)
  have hck : k ≤ labels s c := by
    have := laws.narrow_size h.op
    rw [labels_eq_size]
    omega
  have hnest : ∀ e ∈ s.kids p, e ≠ a → ∀ y, Desc s.kids e y → LaidOut s y := by
    intro e he hea y hy
    refine hgood y (t.tree.mem_desc hy (t.tree.closed he)) fun hay => ?_
    rcases ha with hak | hpa
    · exact hapart e he a hak hea y hy hay
    · rcases t.tree.linear hay ((Desc.kid he).trans hy) with h' | h'
      · exact hap h'
      · exact hpa h'
  have hpar : ctx.store.par c = p := by rw [hs.par, t.par hc]
  refine Returns.bind (getParent_spec fun _ => ?_) fun parent hp => ?_
  · rw [hs.nodes]
    exact t.tree.closed hc
  rw [hp.1, hpar]
  refine Returns.bind (getChildren_spec fun _ => ?_) fun children hch => ?_
  · rw [hs.nodes]
    exact hpm
  rw [hch.1, hs.kids, hk, splitChildren_eq hcpre]
  change Returns C (offsetLoop fr side a k ctx (side.siblings (pre, post))) _
  rw [hsplit]
  refine (offsetLoop_spec fr laws (t.of_sameShape hs) (hcache.of_sameShape hs) ?_ (p := p) ?_
    hndnear hanear hrest ?_ ?_ ?_ ?_).mono ?_
  · intro hc'
    rw [hs.count]
    exact hC hc'
  · intro e he
    rw [hs.kids]
    rw [← hsplit] at he
    exact (hsibk e he).1
  · intro e he y hy
    rw [hs.kids] at hy
    have hek := hsibk e (hnearsib e he)
    have hea : e ≠ a := fun h => hanear (h ▸ he)
    refine (hnest e hek.1 hea y hy).of_iv hs ?_
    rintro z (rfl | hz)
    · exact hsame e hek.1 hek.2 z hy
    · exact hsame e hek.1 hek.2 z (hy.trans (.kid hz))
  · intro _ e he
    have hek := hsibk e (hnearsib e he)
    rw [hsame e hek.1 hek.2 e .refl]
    exact (laws.shift_ok hnp.nested hk (hnearsib e he) hck).1
  · intro _ hr
    have hek := hsibk a (hasib hr)
    rw [hsame a hek.1 hek.2 a .refl]
    exact (laws.shift_ok hnp.nested hk (hasib hr) hck).2
  · intro hr
    have hek := hsibk a (hasib hr)
    rw [treeSize_of_sameShape hs, labels_eq_size, hsame a hek.1 hek.2 a .refl, ← labels_eq_size]
    exact (hside pre post hk (hrestp.mp hr)).2
  · rintro ctx' ⟨hs', hc', hsl, hshift, hgrow, hframe, hnn, hna⟩
    rw [hs.kids] at hframe hnn hna
    have hshape := hs.trans hs'
    -- What is not below a moving sibling is as after the narrowing.
    have hout : ∀ y, (∀ e ∈ s.kids p, e ≠ c → ¬Desc s.kids e y) →
        ctx'.store.iv y = ctx.store.iv y := by
      intro y hy
      refine hframe y (fun e he => ?_) fun hr => ?_
      · exact hy e (hsibk e (hnearsib e he)).1 (hsibk e (hnearsib e he)).2
      · exact hy a (hsibk a (hasib hr)).1 (hsibk a (hasib hr)).2
    have hcbelow : ∀ y, Desc s.kids c y → ctx'.store.iv y = ctx.store.iv y := fun y hy =>
      hout y fun e he hne hey => hapart e he c hc hne y hey hy
    have hkeep : ∀ e ∈ s.kids p, e ≠ c → e ∉ near → (rest ≠ [] → e ≠ a) → ∀ y,
        Desc s.kids e y → ctx'.store.iv y = s.iv y := by
      intro e he hne hen hea y hy
      rw [← hsame e he hne y hy]
      refine hframe y (fun e' he' => ?_) fun hr => ?_
      · have hek := hsibk e' (hnearsib e' he')
        have hne' : e ≠ e' := fun h => hen (h ▸ he')
        exact hapart e he e' hek.1 hne' y hy
      · have hek := hsibk a (hasib hr)
        exact hapart e he a hek.1 (hea hr) y hy
    have hfr : ∀ y, (∀ e ∈ s.kids p, ¬Desc s.kids e y) → ctx'.store.iv y = s.iv y := by
      intro y hy
      rw [hout y fun e he _ => hy e he, h.frame y (hy c hc)]
    have hivp : ctx'.store.iv p = s.iv p :=
      hfr p fun e he => t.tree.not_desc_of_kid he
    have hop : side.narrow (s.iv c) k = .ok (ctx'.store.iv c) := by
      rw [hcbelow c .refl]
      exact h.op
    have hshift' : ∀ e ∈ near, side.shift (s.iv e) k = .ok (ctx'.store.iv e) := by
      intro e he
      have hek := hsibk e (hnearsib e he)
      rw [← hsame e hek.1 hek.2 e .refl]
      exact hshift e he
    have hgrow' : rest ≠ [] → side.grow (s.iv a) k = .ok (ctx'.store.iv a) := by
      intro hr
      have hek := hsibk a (hasib hr)
      rw [← hsame a hek.1 hek.2 a .refl]
      exact hgrow hr
    have hmem : ∀ e ∈ pre ++ post, e ∈ s.kids p ∧ e ≠ c := by
      intro e he
      refine ⟨?_, ?_⟩
      · rw [hk]
        rcases List.mem_append.mp he with he' | he'
        · exact List.mem_append_left _ he'
        · exact List.mem_append_right _ (List.mem_cons_of_mem _ he')
      · rintro rfl
        rcases List.mem_append.mp he with he' | he'
        · exact hcpre he'
        · exact hcpost he'
    obtain ⟨hnp', hgapn, hgapa, hog⟩ : LaidOut ctx'.store p ∧
        (rest = [] → gap ctx'.store p = gap s p + k) ∧
        (rest ≠ [] → gap ctx'.store p = gap s p) ∧
        ogap ctx'.store p = ogap s p := by
      rcases hrest with rfl | ⟨far, rfl⟩
      · rw [List.append_nil] at hsplit
        obtain ⟨h1, h2, h3, h4⟩ := laws.offset hnp.nested hnd hk hshape hivp hop
          (by rw [hsplit]; exact hshift') fun e he hne => by
            rw [hsplit] at hne
            exact hkeep e (hmem e he).1 (hmem e he).2 hne (fun hr => absurd rfl hr) e .refl
        exact ⟨⟨h1, h4 hnp.packed⟩, fun _ => h2, fun hr => absurd rfl hr, h3⟩
      · obtain ⟨h1, h2, h3, h4⟩ := laws.offset_grow hnp.nested hnd hk hsplit hshape hivp hop hshift'
          (hgrow' (by simp)) fun e he hne hea =>
            hkeep e (hmem e he).1 (hmem e he).2 hne (fun _ => hea) e .refl
        exact ⟨⟨h1, h4 hnp.packed⟩, fun hr => by simp at hr, fun _ => h2, h3⟩
    refine ⟨⟨hshape, hop, ?_, ?_, fun hak => hgapa (hrestp.mpr hak), hog, hfr, hcbelow, ?_⟩,
      ?_, hsl⟩
    · intro z hz hza
      by_cases hzp : z = p
      · rw [hzp]
        exact hnp'
      · by_cases hbelow : ∃ e ∈ s.kids p, Desc s.kids e z
        · obtain ⟨e, he, hez⟩ := hbelow
          by_cases hec : e = c
          · subst hec
            refine (h.nested z hez).of_iv hs' ?_
            rintro w (rfl | hw)
            · exact hcbelow w hez
            · rw [hs.kids] at hw
              exact hcbelow w (hez.trans (.kid hw))
          · by_cases hen : e ∈ near
            · exact hnn e hen z hez
            · by_cases hea : e = a
              · subst hea
                exact hna (hrestp.mpr he) z hez
              · refine (hnest e he hea z hez).of_iv hshape ?_
                rintro w (rfl | hw)
                · exact hkeep e he hec hen (fun _ => hea) w hez
                · exact hkeep e he hec hen (fun _ => hea) w (hez.trans (.kid hw))
        · have hno : ∀ e ∈ s.kids p, ¬Desc s.kids e z := fun e he hez => hbelow ⟨e, he, hez⟩
          have hnz : LaidOut s z := by
            rcases hza with hak | hza
            · exact hgood z hz (hno a hak)
            · exact hgood z hz hza
          refine hnz.of_iv hshape ?_
          rintro w (rfl | hw)
          · exact hfr w hno
          · refine hfr w fun e he hew => ?_
            by_cases hwe : e = w
            · subst hwe
              exact hzp (t.tree.unique hw he)
            · exact hno e he (t.tree.desc_parent hw hew hwe)
    · intro hak
      refine hgapn ?_
      by_contra hr
      exact hak (hrestp.mp hr)
    · intro e he hec
      by_cases hen : e ∈ near
      · have hea : e ≠ a := fun h => hanear (h ▸ hen)
        rw [if_neg hea, labels_eq_size, labels_eq_size, laws.shift_size (hshift' e hen)]
        rfl
      · by_cases hea : e = a
        · subst hea
          rw [if_pos rfl, labels_eq_size, labels_eq_size,
            laws.grow_size (hgrow' (hrestp.mpr he))]
        · rw [if_neg hea, labels_eq_size, labels_eq_size,
            hkeep e he hec hen (fun _ => hea) e .refl]
          rfl
    · exact ⟨fun hl => by rw [← treeSize_of_sameShape hs]; exact hc'.exact hl,
        fun hx hcx => hc'.closed hx (by rwa [hs.kids])⟩

end TaoDag.Reachability
