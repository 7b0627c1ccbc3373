import Mathlib.Data.Finset.Card
import Mathlib.Order.Defs.Unbundled

namespace TaoDag.KCluster

universe u

variable {α : Type u} {anti anti' : α → α → Prop} {k : Nat} {S S₀ : Finset α} {c x : α}
  {l blues reds blues' reds' : List α}

open Classical in
/-- The members of `S` in the anticone of `x`. -/
noncomputable def anticone (anti : α → α → Prop) (S : Finset α) (x : α) : Finset α :=
  S.filter (anti x)

/-- The anticone size of `x` within `S`. -/
noncomputable def count (anti : α → α → Prop) (S : Finset α) (x : α) : Nat :=
  (anticone anti S x).card

/-- Every member of `S` has at most `k` members in its anticone. -/
def IsCluster (anti : α → α → Prop) (k : Nat) (S : Finset α) : Prop :=
  ∀ x ∈ S, count anti S x ≤ k

/-- The greedy rule: `c` has at most `k` members of `S` in its anticone, and each of those has room
for one more. -/
def Admits (anti : α → α → Prop) (k : Nat) (S : Finset α) (c : α) : Prop :=
  count anti S c ≤ k ∧ ∀ x ∈ S, anti c x → count anti S x < k

theorem mem_anticone {y : α} : y ∈ anticone anti S x ↔ y ∈ S ∧ anti x y := by
  simp only [anticone, Finset.mem_filter]

theorem count_congr (h : ∀ y ∈ S, anti x y ↔ anti' x y) : count anti S x = count anti' S x := by
  have hset : anticone anti S x = anticone anti' S x := by
    ext y
    rw [mem_anticone, mem_anticone]
    exact and_congr_right (h y)
  rw [count, count, hset]

theorem IsCluster.congr (h : ∀ x ∈ S, ∀ y ∈ S, anti x y ↔ anti' x y)
    (hS : IsCluster anti k S) : IsCluster anti' k S := fun x hx => by
  rw [← count_congr (h x hx)]
  exact hS x hx

/-- The greedy rule looks at the candidate and the members only. -/
theorem Admits.congr (hc : ∀ y ∈ S, anti c y ↔ anti' c y)
    (h : ∀ x ∈ S, ∀ y ∈ S, anti x y ↔ anti' x y) (ha : Admits anti k S c) :
    Admits anti' k S c := by
  constructor
  · rw [← count_congr hc]
    exact ha.1
  · intro x hx hanti
    rw [← count_congr (h x hx)]
    exact ha.2 x hx ((hc x hx).mpr hanti)

section Insert

variable [DecidableEq α]

theorem count_insert_of_anti (hc : c ∉ S) (h : anti x c) :
    count anti (insert c S) x = count anti S x + 1 := by
  have hset : anticone anti (insert c S) x = insert c (anticone anti S x) := by
    ext y
    simp only [mem_anticone, Finset.mem_insert]
    constructor
    · rintro ⟨rfl | hy, ha⟩
      · exact Or.inl rfl
      · exact Or.inr ⟨hy, ha⟩
    · rintro (rfl | ⟨hy, ha⟩)
      · exact ⟨Or.inl rfl, h⟩
      · exact ⟨Or.inr hy, ha⟩
  have hnot : c ∉ anticone anti S x := fun hm => hc (mem_anticone.mp hm).1
  rw [count, hset, Finset.card_insert_of_notMem hnot]
  rfl

theorem count_insert_of_not_anti (h : ¬anti x c) :
    count anti (insert c S) x = count anti S x := by
  have hset : anticone anti (insert c S) x = anticone anti S x := by
    ext y
    simp only [mem_anticone, Finset.mem_insert]
    constructor
    · rintro ⟨rfl | hy, ha⟩
      · exact absurd ha h
      · exact ⟨hy, ha⟩
    · rintro ⟨hy, ha⟩
      exact ⟨Or.inr hy, ha⟩
  rw [count, hset]
  rfl

/-- The greedy rule keeps a cluster. -/
theorem IsCluster.insert (hS : IsCluster anti k S) (ha : Admits anti k S c) (hc : c ∉ S)
    (hirr : ¬anti c c) (hsymm : ∀ {x y}, anti x y → anti y x) :
    IsCluster anti k (insert c S) := by
  intro x hx
  rcases Finset.mem_insert.mp hx with rfl | hx
  · rw [count_insert_of_not_anti hirr]
    exact ha.1
  · by_cases hxc : anti x c
    · rw [count_insert_of_anti hc hxc]
      exact ha.2 x hx (hsymm hxc)
    · rw [count_insert_of_not_anti hxc]
      exact hS x hx

/-- The greedy colouring of candidates, one after the other, over the blues `S₀`. -/
inductive Greedy (anti : α → α → Prop) (k : Nat) (S₀ : Finset α) :
    List α → List α → List α → Prop
  | nil : Greedy anti k S₀ [] [] []
  | blue {l blues reds : List α} {c : α} : Greedy anti k S₀ l blues reds →
      Admits anti k (S₀ ∪ blues.toFinset) c → Greedy anti k S₀ (l ++ [c]) (blues ++ [c]) reds
  | red {l blues reds : List α} {c : α} : Greedy anti k S₀ l blues reds →
      ¬Admits anti k (S₀ ∪ blues.toFinset) c → Greedy anti k S₀ (l ++ [c]) blues (reds ++ [c])

theorem Greedy.perm (h : Greedy anti k S₀ l blues reds) : (blues ++ reds).Perm l := by
  induction h with
  | nil => exact .refl _
  | @blue l blues reds c _ _ ih =>
    rw [List.append_assoc]
    refine (List.perm_append_comm_assoc blues [c] reds).trans ?_
    exact (ih.cons c).trans (List.perm_append_singleton c l).symm
  | @red l blues reds c _ _ ih =>
    rw [← List.append_assoc]
    exact ih.append_right [c]

theorem Greedy.subset (h : Greedy anti k S₀ l blues reds) : ∀ x ∈ blues, x ∈ l := fun _ hx =>
  h.perm.mem_iff.mp (List.mem_append_left _ hx)

theorem Greedy.congr (h : Greedy anti k S₀ l blues reds)
    (heq : ∀ x ∈ S₀ ∪ l.toFinset, ∀ y ∈ S₀ ∪ l.toFinset, anti x y ↔ anti' x y) :
    Greedy anti' k S₀ l blues reds := by
  have hold : ∀ {l : List α} {c : α}, ∀ x ∈ S₀ ∪ l.toFinset, x ∈ S₀ ∪ (l ++ [c]).toFinset := by
    intro l c x hx
    simp only [Finset.mem_union, List.mem_toFinset, List.mem_append] at hx ⊢
    exact hx.imp_right Or.inl
  have hlast : ∀ {l : List α} {c : α}, c ∈ S₀ ∪ (l ++ [c]).toFinset := by
    intro l c
    simp
  have hblues : ∀ {l blues reds : List α}, Greedy anti k S₀ l blues reds →
      ∀ x ∈ S₀ ∪ blues.toFinset, x ∈ S₀ ∪ l.toFinset := by
    intro l blues reds h x hx
    simp only [Finset.mem_union, List.mem_toFinset] at hx ⊢
    exact hx.imp_right (h.subset x)
  induction h with
  | nil => exact .nil
  | @blue l blues reds c hrun ha ih =>
    refine .blue (ih fun x hx y hy => heq x (hold x hx) y (hold y hy)) ?_
    apply ha.congr
    · exact fun y hy => heq c hlast y (hold y (hblues hrun y hy))
    · exact fun x hx y hy => heq x (hold x (hblues hrun x hx)) y (hold y (hblues hrun y hy))
  | @red l blues reds c hrun ha ih =>
    refine .red (ih fun x hx y hy => heq x (hold x hx) y (hold y hy)) fun ha' => ha ?_
    apply ha'.congr
    · exact fun y hy => (heq c hlast y (hold y (hblues hrun y hy))).symm
    · exact fun x hx y hy => (heq x (hold x (hblues hrun x hx)) y (hold y (hblues hrun y hy))).symm

/-- The colouring is a function of the candidates. -/
theorem Greedy.unique (h : Greedy anti k S₀ l blues reds) (h' : Greedy anti k S₀ l blues' reds') :
    blues = blues' ∧ reds = reds' := by
  induction h generalizing blues' reds' with
  | nil =>
    generalize hl : ([] : List α) = l at h'
    cases h' with
    | nil => exact ⟨rfl, rfl⟩
    | blue _ _ => simp at hl
    | red _ _ => simp at hl
  | @blue l b r c _ ha ih =>
    generalize hl : l ++ [c] = l' at h'
    cases h' with
    | nil => simp at hl
    | blue h' ha' =>
      obtain ⟨rfl, hc⟩ := List.append_inj' hl rfl
      cases hc
      obtain ⟨rfl, rfl⟩ := ih h'
      exact ⟨rfl, rfl⟩
    | red h' ha' =>
      obtain ⟨rfl, hc⟩ := List.append_inj' hl rfl
      cases hc
      obtain ⟨rfl, rfl⟩ := ih h'
      exact absurd ha ha'
  | @red l b r c _ ha ih =>
    generalize hl : l ++ [c] = l' at h'
    cases h' with
    | nil => simp at hl
    | blue h' ha' =>
      obtain ⟨rfl, hc⟩ := List.append_inj' hl rfl
      cases hc
      obtain ⟨rfl, rfl⟩ := ih h'
      exact absurd ha' ha
    | red h' ha' =>
      obtain ⟨rfl, hc⟩ := List.append_inj' hl rfl
      cases hc
      obtain ⟨rfl, rfl⟩ := ih h'
      exact ⟨rfl, rfl⟩

end Insert

end TaoDag.KCluster
