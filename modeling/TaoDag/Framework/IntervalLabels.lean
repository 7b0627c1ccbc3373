import TaoDag.Framework.OrderedTree
import Mathlib.Algebra.Order.BigOperators.Group.List
import Mathlib.Algebra.Order.Monoid.Unbundled.Basic
import Mathlib.Algebra.Order.Group.Nat

namespace TaoDag.OrderedTree

universe u

variable {α : Type u}

/-- The labels `[lo x, hi x]` of the listed nodes follow one another within `[a, b)`. A node
with `hi x + 1 = lo x` has no label. -/
def Stacked (lo hi : α → Nat) : Nat → List α → Nat → Prop
  | a, [], b => a ≤ b
  | a, x :: xs, b => a ≤ lo x ∧ lo x ≤ hi x + 1 ∧ Stacked lo hi (hi x + 1) xs b

/-- The labels of the children of `x` lie in the labels of `x` without the last. -/
def Nested (lo hi : α → Nat) (kids : α → List α) (x : α) : Prop :=
  Stacked lo hi (lo x) (kids x) (hi x)

section Stacked

variable {lo hi : α → Nat} {a b a' b' l r : Nat} {x u v : α} {xs ys : List α}

theorem Stacked.le (h : Stacked lo hi a xs b) : a ≤ b := by
  induction xs generalizing a with
  | nil => exact h
  | cons x xs ih =>
    have := ih h.2.2
    have := h.1
    have := h.2.1
    omega

theorem Stacked.mono (h : Stacked lo hi a xs b) (ha : a' ≤ a) (hb : b ≤ b') :
    Stacked lo hi a' xs b' := by
  induction xs generalizing a a' with
  | nil => exact ha.trans (Nat.le_trans h hb)
  | cons x xs ih => exact ⟨ha.trans h.1, h.2.1, ih h.2.2 le_rfl⟩

theorem Stacked.congr {lo' hi' : α → Nat} (h : Stacked lo hi a xs b)
    (hlo : ∀ x ∈ xs, lo' x = lo x) (hhi : ∀ x ∈ xs, hi' x = hi x) : Stacked lo' hi' a xs b := by
  induction xs generalizing a with
  | nil => exact h
  | cons x xs ih =>
    rw [Stacked, hlo x (by simp), hhi x (by simp)]
    exact ⟨h.1, h.2.1, ih h.2.2 (fun y hy => hlo y (by simp [hy])) fun y hy => hhi y (by simp [hy])⟩

theorem stacked_append : Stacked lo hi a (xs ++ ys) b ↔
    ∃ m, Stacked lo hi a xs m ∧ Stacked lo hi m ys b := by
  constructor
  · intro h
    induction xs generalizing a with
    | nil => exact ⟨a, le_rfl, h⟩
    | cons x xs ih =>
      obtain ⟨m, hm, hk⟩ := ih h.2.2
      exact ⟨m, ⟨h.1, h.2.1, hm⟩, hk⟩
  · rintro ⟨m, h, k⟩
    induction xs generalizing a with
    | nil => exact k.mono h le_rfl
    | cons x xs ih => exact ⟨h.1, h.2.1, ih h.2.2⟩

theorem Stacked.mem (h : Stacked lo hi a xs b) (hx : x ∈ xs) :
    a ≤ lo x ∧ lo x ≤ hi x + 1 ∧ hi x + 1 ≤ b := by
  obtain ⟨ys, zs, rfl⟩ := List.append_of_mem hx
  obtain ⟨m, hy, hz⟩ := stacked_append.mp h
  have := hy.le
  have := hz.2.2.le
  have := hz.1
  exact ⟨by omega, hz.2.1, by omega⟩

theorem Stacked.sublist (h : Stacked lo hi a xs b) (hs : ys.Sublist xs) :
    Stacked lo hi a ys b := by
  induction hs generalizing a with
  | slnil => exact h
  | cons x _ ih =>
    have := h.1
    have := h.2.1
    exact (ih h.2.2).mono (by omega) le_rfl
  | cons_cons x _ ih => exact ⟨h.1, h.2.1, ih h.2.2⟩

/-- Of two listed nodes, the earlier one has the smaller labels. -/
theorem Stacked.lt_of_pair (h : Stacked lo hi a xs b) (hs : [u, v].Sublist xs) :
    hi u + 1 ≤ lo v := (h.sublist hs).2.2.1

theorem Stacked.sum_le (h : Stacked lo hi a xs b) :
    a + (xs.map fun x => hi x + 1 - lo x).sum ≤ b := by
  induction xs generalizing a with
  | nil => exact h
  | cons x xs ih =>
    have := ih h.2.2
    have := h.1
    have := h.2.1
    simp only [List.map_cons, List.sum_cons]
    omega

/-- Without gaps. -/
def Packed (lo hi : α → Nat) : Nat → List α → Nat → Prop
  | a, [], b => a = b
  | a, x :: xs, b => lo x = a ∧ lo x ≤ hi x + 1 ∧ Packed lo hi (hi x + 1) xs b

theorem Packed.stacked (h : Packed lo hi a xs b) : Stacked lo hi a xs b := by
  induction xs generalizing a with
  | nil => exact Nat.le_of_eq h
  | cons x xs ih => exact ⟨Nat.le_of_eq h.1.symm, h.2.1, ih h.2.2⟩

theorem Packed.congr {lo' hi' : α → Nat} (h : Packed lo hi a xs b)
    (hlo : ∀ x ∈ xs, lo' x = lo x) (hhi : ∀ x ∈ xs, hi' x = hi x) : Packed lo' hi' a xs b := by
  induction xs generalizing a with
  | nil => exact h
  | cons x xs ih =>
    rw [Packed, hlo x (by simp), hhi x (by simp)]
    exact ⟨h.1, h.2.1, ih h.2.2 (fun y hy => hlo y (by simp [hy])) fun y hy => hhi y (by simp [hy])⟩

theorem packed_append : Packed lo hi a (xs ++ ys) b ↔
    ∃ m, Packed lo hi a xs m ∧ Packed lo hi m ys b := by
  constructor
  · intro h
    induction xs generalizing a with
    | nil => exact ⟨a, rfl, h⟩
    | cons x xs ih =>
      obtain ⟨m, hm, hk⟩ := ih h.2.2
      exact ⟨m, ⟨h.1, h.2.1, hm⟩, hk⟩
  · rintro ⟨m, h, k⟩
    induction xs generalizing a with
    | nil =>
      cases h
      exact k
    | cons x xs ih => exact ⟨h.1, h.2.1, ih h.2.2⟩

theorem Packed.bounds (h : Packed lo hi a xs b) (hs : Stacked lo hi l xs r) (hne : xs ≠ []) :
    l ≤ a ∧ b ≤ r := by
  induction xs generalizing a l with
  | nil => exact absurd rfl hne
  | cons x xs ih =>
    refine ⟨h.1 ▸ hs.1, ?_⟩
    cases xs with
    | nil =>
      have hend := h.2.2
      have hle := hs.2.2
      rw [Packed] at hend
      rw [Stacked] at hle
      omega
    | cons y ys => exact (ih h.2.2 hs.2.2 (by simp)).2

theorem Packed.sum_eq (h : Packed lo hi a xs b) :
    a + (xs.map fun x => hi x + 1 - lo x).sum = b := by
  induction xs generalizing a with
  | nil => exact h
  | cons x xs ih =>
    have := ih h.2.2
    have := h.1
    have := h.2.1
    simp only [List.map_cons, List.sum_cons]
    omega

end Stacked

section Labels

variable {kids : α → List α} {V : Finset α} {root : α} {depth : α → Nat} {lo hi : α → Nat}
  {x y : α}

theorem Nested.kid (h : Nested lo hi kids x) (hy : y ∈ kids x) :
    lo x ≤ lo y ∧ lo y ≤ hi y + 1 ∧ hi y < hi x := h.mem hy

theorem Nested.le (h : Nested lo hi kids x) : lo x ≤ hi x := Stacked.le h

theorem Nested.congr {lo' hi' : α → Nat} (h : Nested lo hi kids x) (hlo : lo' x = lo x)
    (hhi : hi' x = hi x) (hk : ∀ y ∈ kids x, lo' y = lo y ∧ hi' y = hi y) :
    Nested lo' hi' kids x := by
  rw [Nested, hlo, hhi]
  exact Stacked.congr h (fun y hy => (hk y hy).1) fun y hy => (hk y hy).2

/-- A node whose children keep their labels, and whose own labels do not shrink, stays laid out. -/
theorem Nested.widen {lo' hi' : α → Nat} (h : Nested lo hi kids x) (hlo : lo' x ≤ lo x) (hhi : hi x ≤ hi' x)
    (hk : ∀ y ∈ kids x, lo' y = lo y ∧ hi' y = hi y) : Nested lo' hi' kids x :=
  (Stacked.congr h (fun y hy => (hk y hy).1) fun y hy => (hk y hy).2).mono hlo hhi

theorem nested_leaf (hk : kids x = []) : Nested lo hi kids x ↔ lo x ≤ hi x := by
  rw [Nested, hk]
  rfl

/-- Labels contain the labels below, when the nodes below are nested. -/
theorem contains_below (hn : ∀ z, Desc kids x z → kids z ≠ [] → Nested lo hi kids z)
    (h : Desc kids x y) : lo x ≤ lo y ∧ hi y ≤ hi x ∧ (x ≠ y → hi y < hi x) := by
  induction h with
  | refl => exact ⟨le_rfl, le_rfl, fun h => absurd rfl h⟩
  | tail hd hy ih =>
    have := (hn _ hd (List.ne_nil_of_mem hy)).kid hy
    exact ⟨by omega, by omega, fun _ => by omega⟩

section Inner

-- A leaf may be without a label.
variable (hn : ∀ z, kids z ≠ [] → Nested lo hi kids z)
include hn

/-- Labels contain the labels below. -/
theorem contains_of_desc (h : Desc kids x y) :
    lo x ≤ lo y ∧ hi y ≤ hi x ∧ (x ≠ y → hi y < hi x) := contains_below (fun z _ => hn z) h

theorem lt_of_before (h : Before kids x y) : hi x < lo y := by
  obtain ⟨w, u, v, huv, hu, hv⟩ := h
  have huw : u ∈ kids w := huv.subset (by simp)
  have hlt := (hn w (List.ne_nil_of_mem huw)).lt_of_pair huv
  have hux := contains_of_desc hn hu
  have hvy := contains_of_desc hn hv
  omega

/-- Nested labels decide ancestry, for a node that has a label. -/
theorem desc_iff_contains (t : IsTree kids V root depth) (hx : x ∈ V) (hy : y ∈ V)
    (hne : lo y ≤ hi y) : Desc kids x y ↔ lo x ≤ lo y ∧ hi y ≤ hi x := by
  constructor
  · intro h
    have := contains_of_desc hn h
    exact ⟨this.1, this.2.1⟩
  · intro hc
    rcases t.trichotomy hx hy with h | h | h | h
    · exact h
    · by_cases hxy : x = y
      · subst hxy
        exact .refl
      · have := (contains_of_desc hn h).2.2 (Ne.symm hxy)
        omega
    · have := lt_of_before hn h
      omega
    · have := lt_of_before hn h
      omega

theorem desc_iff_strictly_contains (t : IsTree kids V root depth) (hx : x ∈ V) (hy : y ∈ V)
    (hne : lo y ≤ hi y) : (Desc kids x y ∧ x ≠ y) ↔ lo x ≤ lo y ∧ hi y < hi x := by
  constructor
  · rintro ⟨h, hxy⟩
    have := contains_of_desc hn h
    exact ⟨this.1, this.2.2 hxy⟩
  · intro hc
    refine ⟨(desc_iff_contains hn t hx hy hne).mpr ⟨hc.1, by omega⟩, ?_⟩
    rintro rfl
    omega

end Inner

/-- A subtree with nested labels has at most as many nodes as its root has labels. -/
theorem size_le_labels (t : IsTree kids V root depth) (hx : x ∈ V)
    (hlab : ∀ y, Desc kids x y → Nested lo hi kids y) : size kids V x ≤ hi x + 1 - lo x := by
  induction hs : size kids V x using Nat.strong_induction_on generalizing x with
  | _ n ih =>
    subst hs
    have hsize := size_eq t hx
    have hsum : ((kids x).map (size kids V)).sum ≤
        ((kids x).map fun y => hi y + 1 - lo y).sum := by
      refine List.sum_le_sum fun c hc => ?_
      have hlt : size kids V c < size kids V x := by
        have := List.single_le_sum (l := (kids x).map (size kids V)) (fun _ _ => Nat.zero_le _)
          (size kids V c) (List.mem_map_of_mem hc)
        omega
      exact ih _ hlt (t.closed hc) (fun y hy => hlab y ((Desc.kid hc).trans hy)) rfl
    have hpack := (hlab x .refl).sum_le
    have := (hlab x .refl).le
    omega

end Labels

end TaoDag.OrderedTree
