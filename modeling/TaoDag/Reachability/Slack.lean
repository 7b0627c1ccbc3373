import TaoDag.Reachability.Reclaim

namespace TaoDag.Reachability

open MemoryReachabilityStore OrderedTree ReindexOperationContext

variable {o : Hash} {C : Prop} {s s₁ s' : Store} {side : Side} {gap ogap : Store → Hash → Nat}
  {a p c root z : Hash} {k slack : Nat} {except : Option Hash}

/-- `z` is a strict chain ancestor of `root`. -/
def Above (s : Store) (z root : Hash) : Prop := Desc s.kids z root ∧ z ≠ root

/-- The chain to the reindex root leaves little room: that of a chain block on either side is at most
the slack, except at one block that is being reclaimed from, and a block off the chain has at
most the slack and twice the size of its subtree. -/
structure Slacks (gap ogap : Store → Hash → Nat) (slack : Nat) (root : Hash) (except : Option Hash)
    (s : Store) : Prop where
  gap : ∀ z, Above s z root → except ≠ some z → gap s z ≤ slack
  ogap : ∀ z, Above s z root → ogap s z ≤ slack
  off : ∀ z, Above s z root → ∀ e ∈ s.kids z, ¬Desc s.kids e root →
    labels s e ≤ slack + 2 * treeSize s e

theorem Above.of_sameShape (h : Above s z root) (hs : SameShape s s') : Above s' z root := by
  rw [Above, hs.kids]
  exact h

theorem above_sameShape (hs : SameShape s s') : Above s' z root ↔ Above s z root := by
  rw [Above, Above, hs.kids]

/-- How the chosen block of a level keeps its room: it is the reindex root, or it was narrowed
alone. -/
def NarrowedAlone (s s₁ : Store) (c root : Hash) : Prop :=
  c = root ∨ ∀ y, Desc s.kids c y → y ≠ c → s₁.iv y = s.iv y

/-- A level changes no chain block but its own two, and no child of another chain block. -/
theorem Level.frame_above (t : TreeInv o s) (h : Level side gap ogap s s₁ s' a p c k)
    (hc : c ∈ s.kids p) (hcr : Desc s.kids c root) (hn : NarrowedAlone s s₁ c root)
    (hz : Above s z root) (hzp : z ≠ p) (hzc : z ≠ c) :
    s'.iv z = s.iv z ∧ ∀ e ∈ s.kids z, s'.iv e = s.iv e := by
  rcases t.tree.linear hz.1 hcr with hzc' | hcz
  · -- `z` lies above `p`, and the level changes nothing there.
    have hzp' : Desc s.kids z p := t.tree.desc_parent hc hzc' hzc
    have hno : ∀ e ∈ s.kids p, ¬Desc s.kids e z := fun e he hez =>
      t.tree.not_desc_of_kid he (hez.trans hzp')
    refine ⟨h.frame z hno, fun e he => h.frame e fun e' he' hee => ?_⟩
    by_cases hne : e' = e
    · subst hne
      exact hzp (t.tree.unique he he')
    · exact hno e' he' (t.tree.desc_parent he hee hne)
  · -- `z` lies below `c`, which was narrowed alone.
    rcases hn with rfl | hn
    · exact absurd (t.tree.antisymm hz.1 hcz) hz.2
    · refine ⟨by rw [h.below z hcz, hn z hcz hzc], fun e he => ?_⟩
      have hce : Desc s.kids c e := hcz.trans (.kid he)
      have hne : e ≠ c := by
        rintro rfl
        exact t.tree.not_desc_of_kid he hcz
      rw [h.below e hce, hn e hce hne]

/-- The children of a block that is narrowed alone stay. -/
theorem Level.kids_self (t : TreeInv o s) (h : Level side gap ogap s s₁ s' a p c k)
    (hcr : c ≠ root) (hn : NarrowedAlone s s₁ c root) : ∀ e ∈ s.kids c, s'.iv e = s.iv e := by
  intro e he
  rcases hn with rfl | hn
  · exact absurd rfl hcr
  · have hne : e ≠ c := by
      rintro rfl
      exact t.tree.not_desc_of_kid he .refl
    rw [h.below e (.kid he), hn e (.kid he) hne]

theorem Level.gap_above (laws : SideLaws side gap ogap) (t : TreeInv o s)
    (h : Level side gap ogap s s₁ s' a p c k) (hc : c ∈ s.kids p) (hcr : Desc s.kids c root)
    (hn : NarrowedAlone s s₁ c root) (hz : Above s z root) (hzp : z ≠ p) (hzc : z ≠ c) :
    gap s' z = gap s z ∧ ogap s' z = ogap s z := by
  obtain ⟨hiv, he⟩ := h.frame_above t hc hcr hn hz hzp hzc
  have hk : s'.kids z = s.kids z := by rw [h.shape.kids]
  exact laws.frame hk hiv he

/-- The chain stays packed across a level, except that room has come to the parent. -/
theorem Slacks.level (laws : SideLaws side gap ogap) (t : TreeInv o s)
    (sl : Slacks gap ogap slack root except s) (h : Level side gap ogap s s₁ s' a p c k)
    (hc : c ∈ s.kids p) (hcr : Desc s.kids c root) (hn : NarrowedAlone s s₁ c root)
    (hex : ∀ z, except = some z → z = c)
    (hself : c ≠ root → gap s' c ≤ slack ∧ ogap s' c = ogap s c)
    (ha : a ∈ s.kids p → ¬Desc s.kids a root ∧ labels s a + k ≤ slack + 2 * treeSize s a) :
    Slacks gap ogap slack root (if a ∈ s.kids p then none else some p) s' := by
  have hs := h.shape
  have hpa : Above s p root := by
    refine ⟨(Desc.kid hc).trans hcr, ?_⟩
    rintro rfl
    exact t.tree.not_desc_of_kid hc hcr
  refine ⟨fun z hz hne => ?_, fun z hz => ?_, fun z hz e he her => ?_⟩
  · rw [above_sameShape hs] at hz
    by_cases hzp : z = p
    · subst hzp
      split_ifs at hne with hak
      · rw [h.allocated hak]
        refine sl.gap z hz fun he => ?_
        have hzc := hex z he
        subst hzc
        exact t.tree.not_desc_of_kid hc .refl
      · exact absurd rfl hne
    · by_cases hzc : z = c
      · subst hzc
        exact (hself hz.2).1
      · rw [(h.gap_above laws t hc hcr hn hz hzp hzc).1]
        exact sl.gap z hz fun he => hzc (hex z he)
  · rw [above_sameShape hs] at hz
    by_cases hzp : z = p
    · subst hzp
      rw [h.other]
      exact sl.ogap z hz
    · by_cases hzc : z = c
      · subst hzc
        rw [(hself hz.2).2]
        exact sl.ogap z hz
      · rw [(h.gap_above laws t hc hcr hn hz hzp hzc).2]
        exact sl.ogap z hz
  · rw [above_sameShape hs] at hz
    rw [hs.kids] at he her
    rw [treeSize_of_sameShape hs]
    have hold := sl.off z hz e he her
    by_cases hzp : z = p
    · subst hzp
      have hec : e ≠ c := by
        rintro rfl
        exact her hcr
      rw [h.size e he hec]
      split_ifs with hea
      · subst hea
        exact (ha he).2
      · exact hold
    · have hiv : s'.iv e = s.iv e := by
        by_cases hzc : z = c
        · subst hzc
          exact h.kids_self t hz.2 hn e he
        · exact (h.frame_above t hc hcr hn hz hzp hzc).2 e he
      rw [labels_eq_size, hiv, ← labels_eq_size]
      exact hold

end TaoDag.Reachability
