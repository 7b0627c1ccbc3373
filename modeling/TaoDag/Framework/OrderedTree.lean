import Mathlib

namespace TaoDag.OrderedTree

universe u

variable {α : Type u}

/-- `b` is `a` or below it, in the forest where `kids` lists the children of a node in order. -/
def Desc (kids : α → List α) : α → α → Prop := Relation.ReflTransGen fun x y => y ∈ kids x

/-- `a` and `b` lie below two siblings, `a` below the earlier one. -/
def Before (kids : α → List α) (a b : α) : Prop :=
  ∃ w u v, [u, v].Sublist (kids w) ∧ Desc kids u a ∧ Desc kids v b

/-- `kids` makes the nodes `V` an ordered tree. The depth shows that it has no cycle. -/
structure IsTree (kids : α → List α) (V : Finset α) (root : α) (depth : α → Nat) : Prop where
  root_mem : root ∈ V
  closed : ∀ {x y}, y ∈ kids x → y ∈ V
  outside : ∀ {x}, x ∉ V → kids x = []
  nodup : ∀ x, (kids x).Nodup
  unique : ∀ {x x' y}, y ∈ kids x → y ∈ kids x' → x = x'
  depth_succ : ∀ {x y}, y ∈ kids x → depth y = depth x + 1
  reach : ∀ {x}, x ∈ V → Desc kids root x

section Desc

variable {kids : α → List α} {a b c : α}

theorem Desc.refl : Desc kids a a := Relation.ReflTransGen.refl

theorem Desc.kid (h : b ∈ kids a) : Desc kids a b := Relation.ReflTransGen.single h

theorem Desc.trans (h : Desc kids a b) (h' : Desc kids b c) : Desc kids a c :=
  Relation.ReflTransGen.trans h h'

theorem desc_iff_head : Desc kids a b ↔ a = b ∨ ∃ c ∈ kids a, Desc kids c b := by
  constructor
  · intro h
    rcases Relation.ReflTransGen.cases_head h with rfl | h
    · exact Or.inl rfl
    · exact Or.inr h
  · rintro (rfl | ⟨c, hc, h⟩)
    · exact .refl
    · exact (Desc.kid hc).trans h

theorem desc_iff_tail : Desc kids a b ↔ a = b ∨ ∃ p, Desc kids a p ∧ b ∈ kids p := by
  constructor
  · intro h
    rcases Relation.ReflTransGen.cases_tail h with rfl | ⟨p, hp, hb⟩
    · exact Or.inl rfl
    · exact Or.inr ⟨p, hp, hb⟩
  · rintro (rfl | ⟨p, hp, hb⟩)
    · exact .refl
    · exact hp.trans (.kid hb)

/-- Below a node, without the node, is below one of its children. -/
theorem desc_iff_kid (hb : b ≠ a) : Desc kids a b ↔ ∃ c ∈ kids a, Desc kids c b := by
  rw [desc_iff_head]
  exact ⟨fun h => h.resolve_left (Ne.symm hb), Or.inr⟩

theorem Before.desc {a' b' : α} (h : Before kids a b) (ha : Desc kids a a')
    (hb : Desc kids b b') : Before kids a' b' := by
  obtain ⟨w, u, v, huv, hu, hv⟩ := h
  exact ⟨w, u, v, huv, hu.trans ha, hv.trans hb⟩

/-- Of two members of a list without repetition, one comes first. -/
theorem sublist_pair_or {l : List α} {u v : α} (hu : u ∈ l) (hv : v ∈ l) (hne : u ≠ v) :
    [u, v].Sublist l ∨ [v, u].Sublist l := by
  obtain ⟨l₁, l₂, rfl⟩ := List.append_of_mem hu
  rcases List.mem_append.mp hv with hv | hv
  · right
    exact (List.singleton_sublist.mpr hv).append (List.singleton_sublist.mpr (List.mem_cons_self ..))
  · left
    rcases List.mem_cons.mp hv with rfl | hv
    · exact absurd rfl hne
    · exact ((List.singleton_sublist.mpr hv).cons_cons u).trans (List.sublist_append_right l₁ _)

end Desc

namespace IsTree

variable {kids : α → List α} {V : Finset α} {root : α} {depth : α → Nat} {a b c x y : α}

theorem depth_le (t : IsTree kids V root depth) (h : Desc kids a b) : depth a ≤ depth b := by
  induction h with
  | refl => exact le_rfl
  | tail _ hc ih =>
    have := t.depth_succ hc
    omega

theorem eq_or_depth_lt (t : IsTree kids V root depth) (h : Desc kids a b) :
    a = b ∨ depth a < depth b := by
  rcases desc_iff_head.mp h with rfl | ⟨c, hc, h⟩
  · exact Or.inl rfl
  · right
    have := t.depth_succ hc
    have := t.depth_le h
    omega

/-- The way down to a node has as many nodes as its depth says. -/
theorem depth_lt_card (t : IsTree kids V root depth) (hx : x ∈ V) :
    depth x < depth root + V.card := by
  suffices h : ∃ S ⊆ V, S.card + depth root = depth x + 1 ∧ ∀ a ∈ S, depth a ≤ depth x by
    obtain ⟨S, hS, hcard, _⟩ := h
    have := Finset.card_le_card hS
    omega
  induction t.reach hx with
  | refl =>
    refine ⟨{root}, Finset.singleton_subset_iff.mpr t.root_mem, ?_, ?_⟩
    · rw [Finset.card_singleton]
      omega
    · simp
  | @tail p y _ hy ih =>
    classical
    have hp : p ∈ V := by
      by_contra hp
      rw [t.outside hp] at hy
      cases hy
    obtain ⟨S, hS, hcard, hle⟩ := ih hp
    have hdepth := t.depth_succ hy
    have hyS : y ∉ S := fun hyS => by
      have := hle y hyS
      omega
    refine ⟨insert y S, Finset.insert_subset hx hS, ?_, fun a ha => ?_⟩
    · rw [Finset.card_insert_of_notMem hyS]
      omega
    · rcases Finset.mem_insert.mp ha with rfl | ha
      · exact le_rfl
      · have := hle a ha
        omega

theorem antisymm (t : IsTree kids V root depth) (h : Desc kids a b) (h' : Desc kids b a) :
    a = b := by
  rcases t.eq_or_depth_lt h with rfl | hlt
  · rfl
  · have := t.depth_le h'
    omega

theorem not_desc_of_kid (t : IsTree kids V root depth) (h : b ∈ kids a) : ¬Desc kids b a := by
  intro hd
  have := t.depth_succ h
  have := t.depth_le hd
  omega

theorem mem_of_kid (t : IsTree kids V root depth) (h : b ∈ kids a) : a ∈ V := by
  by_contra ha
  rw [t.outside ha] at h
  cases h

theorem mem_desc (t : IsTree kids V root depth) (h : Desc kids a b) (ha : a ∈ V) : b ∈ V := by
  rcases desc_iff_tail.mp h with rfl | ⟨p, _, hb⟩
  · exact ha
  · exact t.closed hb

theorem mem_anc (t : IsTree kids V root depth) (h : Desc kids a b) (hb : b ∈ V) : a ∈ V := by
  rcases desc_iff_head.mp h with rfl | ⟨c, hc, _⟩
  · exact hb
  · exact t.mem_of_kid hc

/-- A node that is not the root is the child of a node. -/
theorem exists_parent (t : IsTree kids V root depth) (hx : x ∈ V) (hne : x ≠ root) :
    ∃ p ∈ V, x ∈ kids p := by
  rcases desc_iff_tail.mp (t.reach hx) with rfl | ⟨p, hp, hxp⟩
  · exact absurd rfl hne
  · exact ⟨p, t.mem_of_kid hxp, hxp⟩

/-- Above the child is above the parent. -/
theorem desc_parent (t : IsTree kids V root depth) (hp : b ∈ kids x) (h : Desc kids a b)
    (hne : a ≠ b) : Desc kids a x := by
  rcases desc_iff_tail.mp h with rfl | ⟨p, hap, hb⟩
  · exact absurd rfl hne
  · rwa [t.unique hp hb]

/-- The nodes above a node form a chain. -/
theorem linear (t : IsTree kids V root depth) (h : Desc kids a c) (h' : Desc kids b c) :
    Desc kids a b ∨ Desc kids b a := by
  induction h' with
  | refl => exact Or.inl h
  | @tail p c hbp hcp ih =>
    by_cases hac : a = c
    · subst hac
      exact Or.inr (Desc.trans hbp (.kid hcp))
    · exact ih (t.desc_parent hcp h hac)

/-- The subtrees of two children do not meet. -/
theorem kids_disjoint (t : IsTree kids V root depth) (ha : a ∈ kids x) (hb : b ∈ kids x)
    (hac : Desc kids a c) (hbc : Desc kids b c) : a = b := by
  have hda := t.depth_succ ha
  have hdb := t.depth_succ hb
  rcases t.linear hac hbc with h | h <;> rcases t.eq_or_depth_lt h with rfl | hlt
  · rfl
  · omega
  · rfl
  · omega

/-- Two nodes are above one another, or lie below two siblings. -/
theorem trichotomy (t : IsTree kids V root depth) (ha : a ∈ V) (hb : b ∈ V) :
    Desc kids a b ∨ Desc kids b a ∨ Before kids a b ∨ Before kids b a := by
  have hroot := t.reach hb
  induction hroot with
  | refl => exact Or.inr (Or.inl (t.reach ha))
  | @tail p b _ hbp ih =>
    rcases ih (t.mem_of_kid hbp) with h | h | h | h
    · exact Or.inl (h.trans (.kid hbp))
    · rcases desc_iff_head.mp h with rfl | ⟨u, hu, hua⟩
      · exact Or.inl (.kid hbp)
      · by_cases hub : u = b
        · subst hub
          exact Or.inr (Or.inl hua)
        · rcases sublist_pair_or hu hbp hub with hs | hs
          · exact Or.inr (Or.inr (Or.inl ⟨p, u, b, hs, hua, .refl⟩))
          · exact Or.inr (Or.inr (Or.inr ⟨p, b, u, hs, .refl, hua⟩))
    · exact Or.inr (Or.inr (Or.inl (h.desc .refl (.kid hbp))))
    · exact Or.inr (Or.inr (Or.inr (h.desc (.kid hbp) .refl)))

end IsTree

section Size

variable (kids : α → List α) (V : Finset α)

open Classical in
/-- The nodes at or below `x`. -/
noncomputable def subtree (x : α) : Finset α := V.filter fun y => Desc kids x y

/-- The number of nodes at or below `x`. -/
noncomputable def size (x : α) : Nat := (subtree kids V x).card

variable {kids V} {root : α} {depth : α → Nat} {x y : α}

@[simp] theorem mem_subtree : y ∈ subtree kids V x ↔ y ∈ V ∧ Desc kids x y := by
  simp [subtree]

theorem size_le_card (x : α) : size kids V x ≤ V.card :=
  Finset.card_le_card fun _ hy => (mem_subtree.mp hy).1

theorem size_pos (h : x ∈ V) : 0 < size kids V x :=
  Finset.card_pos.mpr ⟨x, mem_subtree.mpr ⟨h, .refl⟩⟩

/-- A subtree is its root and the subtrees of the children. -/
theorem size_eq (t : IsTree kids V root depth) (h : x ∈ V) :
    size kids V x = ((kids x).map (size kids V)).sum + 1 := by
  classical
  have hsplit : subtree kids V x =
      insert x ((kids x).toFinset.biUnion (subtree kids V)) := by
    ext y
    simp only [mem_subtree, Finset.mem_insert, Finset.mem_biUnion, List.mem_toFinset]
    constructor
    · rintro ⟨hy, hd⟩
      rcases desc_iff_head.mp hd with rfl | ⟨c, hc, hcy⟩
      · exact Or.inl rfl
      · exact Or.inr ⟨c, hc, hy, hcy⟩
    · rintro (rfl | ⟨c, hc, hy, hcy⟩)
      · exact ⟨h, .refl⟩
      · exact ⟨hy, (Desc.kid hc).trans hcy⟩
  have hnot : x ∉ (kids x).toFinset.biUnion (subtree kids V) := by
    simp only [mem_subtree, Finset.mem_biUnion, List.mem_toFinset, not_exists, not_and]
    intro c hc _ hcx
    exact t.not_desc_of_kid hc hcx
  have hdisj : ((kids x).toFinset : Set α).PairwiseDisjoint (subtree kids V) := by
    intro c hc c' hc' hne
    refine Finset.disjoint_left.mpr fun y hy hy' => hne ?_
    rw [mem_subtree] at hy hy'
    exact t.kids_disjoint (by simpa using hc) (by simpa using hc') hy.2 hy'.2
  rw [size, hsplit, Finset.card_insert_of_notMem hnot, Finset.card_biUnion hdisj,
    List.sum_toFinset _ (t.nodup x)]
  rfl

end Size

section AddLeaf

variable [DecidableEq α] (kids : α → List α) (p n : α)

/-- A new last child of `p`. -/
def addLeaf : α → List α := Function.update kids p (kids p ++ [n])

variable {kids p n} {V : Finset α} {root : α} {depth : α → Nat} {a b x y : α}

theorem mem_addLeaf : y ∈ addLeaf kids p n x ↔ y ∈ kids x ∨ (x = p ∧ y = n) := by
  by_cases hx : x = p
  · subst hx
    simp [addLeaf]
  · simp [addLeaf, hx]

theorem addLeaf_of_ne (h : x ≠ p) : addLeaf kids p n x = kids x := Function.update_of_ne h _ _

theorem addLeaf_self : addLeaf kids p n p = kids p ++ [n] := Function.update_self ..

theorem sublist_addLeaf (x : α) : (kids x).Sublist (addLeaf kids p n x) := by
  by_cases hx : x = p
  · subst hx
    rw [addLeaf_self]
    exact List.sublist_append_left _ _
  · rw [addLeaf_of_ne hx]

theorem Desc.addLeaf (h : Desc kids a b) : Desc (addLeaf kids p n) a b := by
  induction h with
  | refl => exact .refl
  | tail _ hb ih => exact ih.trans (.kid (mem_addLeaf.mpr (Or.inl hb)))

theorem Before.addLeaf (h : Before kids a b) : Before (addLeaf kids p n) a b := by
  obtain ⟨w, u, v, huv, hu, hv⟩ := h
  exact ⟨w, u, v, huv.trans (sublist_addLeaf w), hu.addLeaf, hv.addLeaf⟩

/-- What is below what, with the new leaf. -/
theorem desc_addLeaf (t : IsTree kids V root depth) (hn : n ∉ V) (hp : p ∈ V) :
    Desc (addLeaf kids p n) a b ↔ Desc kids a b ∨ (b = n ∧ Desc kids a p) := by
  constructor
  · intro h
    induction h with
    | refl => exact Or.inl .refl
    | @tail c b _ hb ih =>
      rcases mem_addLeaf.mp hb with hbc | ⟨rfl, rfl⟩
      · rcases ih with ih | ⟨rfl, _⟩
        · exact Or.inl (ih.trans (.kid hbc))
        · exact absurd (t.mem_of_kid hbc) hn
      · rcases ih with ih | ⟨rfl, _⟩
        · exact Or.inr ⟨rfl, ih⟩
        · exact absurd hp hn
  · rintro (h | ⟨rfl, h⟩)
    · exact h.addLeaf
    · exact h.addLeaf.trans (.kid (mem_addLeaf.mpr (Or.inr ⟨rfl, rfl⟩)))

theorem IsTree.addLeaf (t : IsTree kids V root depth) (hn : n ∉ V) (hp : p ∈ V) :
    IsTree (addLeaf kids p n) (insert n V) root (Function.update depth n (depth p + 1)) where
  root_mem := Finset.mem_insert_of_mem t.root_mem
  closed := by
    intro x y hy
    rcases mem_addLeaf.mp hy with hy | ⟨_, rfl⟩
    · exact Finset.mem_insert_of_mem (t.closed hy)
    · exact Finset.mem_insert_self _ _
  outside := by
    intro x hx
    rw [Finset.mem_insert, not_or] at hx
    have hxp : x ≠ p := fun h => hx.2 (h ▸ hp)
    rw [addLeaf_of_ne hxp, t.outside hx.2]
  nodup := by
    intro x
    by_cases hx : x = p
    · subst hx
      rw [addLeaf_self, List.nodup_append]
      refine ⟨t.nodup x, List.nodup_singleton n, ?_⟩
      rintro y hy z hz rfl
      rw [List.mem_singleton] at hz
      subst hz
      exact hn (t.closed hy)
    · rw [addLeaf_of_ne hx]
      exact t.nodup x
  unique := by
    intro x x' y hy hy'
    rcases mem_addLeaf.mp hy with hk | ⟨hx, hyn⟩ <;>
      rcases mem_addLeaf.mp hy' with hk' | ⟨hx', hyn'⟩
    · exact t.unique hk hk'
    · exact absurd (hyn' ▸ t.closed hk) hn
    · exact absurd (hyn ▸ t.closed hk') hn
    · rw [hx, hx']
  depth_succ := by
    intro x y hy
    rcases mem_addLeaf.mp hy with hy | ⟨rfl, rfl⟩
    · have hyn : y ≠ n := fun h => hn (h ▸ t.closed hy)
      have hxn : x ≠ n := fun h => hn (h ▸ t.mem_of_kid hy)
      rw [Function.update_of_ne hyn, Function.update_of_ne hxn]
      exact t.depth_succ hy
    · have hxn : x ≠ y := fun h => hn (h ▸ hp)
      rw [Function.update_self, Function.update_of_ne hxn]
  reach := by
    intro x hx
    rcases Finset.mem_insert.mp hx with rfl | hx
    · exact (t.reach hp).addLeaf.trans (.kid (mem_addLeaf.mpr (Or.inr ⟨rfl, rfl⟩)))
    · exact (t.reach hx).addLeaf

end AddLeaf

end TaoDag.OrderedTree
