import Mathlib.Data.Finset.Insert
import Mathlib.Logic.Function.Basic
import Mathlib.Logic.Relation

namespace TaoDag.BlockDag

universe u

variable {α : Type u}

/-- `x` is `y` or in its past, where `parents` lists the parents of a block. -/
def Reach (parents : α → List α) : α → α → Prop := Relation.ReflTransGen fun x y => x ∈ parents y

/-- `x` is in the past of `y`, and `y` in the future of `x`. -/
def Past (parents : α → List α) : α → α → Prop := Relation.TransGen fun x y => x ∈ parents y

/-- The blocks `V` have parents among themselves, and no block is in its own past. -/
structure IsDag (parents : α → List α) (V : Finset α) : Prop where
  closed : ∀ {x y}, x ∈ parents y → x ∈ V
  outside : ∀ {y}, y ∉ V → parents y = []
  acyclic : ∀ {x}, ¬Past parents x x

section Reach

variable {parents : α → List α} {V : Finset α} {x y z : α}

theorem Reach.refl : Reach parents x x := Relation.ReflTransGen.refl

theorem Reach.trans (h : Reach parents x y) (h' : Reach parents y z) : Reach parents x z :=
  Relation.ReflTransGen.trans h h'

theorem reach_of_parent (h : x ∈ parents y) : Reach parents x y := Relation.ReflTransGen.single h

theorem reach_iff : Reach parents x y ↔ x = y ∨ Past parents x y := by
  rw [Reach, Relation.reflTransGen_iff_eq_or_transGen, eq_comm]
  rfl

/-- The past of a block is what its parents reach. -/
theorem past_iff : Past parents x y ↔ ∃ p ∈ parents y, Reach parents x p := by
  constructor
  · intro h
    obtain ⟨p, hp, hpy⟩ := Relation.TransGen.tail'_iff.mp h
    exact ⟨p, hpy, hp⟩
  · rintro ⟨p, hpy, hp⟩
    exact Relation.TransGen.tail'_iff.mpr ⟨p, hp, hpy⟩

theorem Past.reach (h : Past parents x y) : Reach parents x y := reach_iff.mpr (Or.inr h)

theorem Past.trans_reach (h : Past parents x y) (h' : Reach parents y z) : Past parents x z :=
  Relation.TransGen.trans_left h h'

theorem Reach.trans_past (h : Reach parents x y) (h' : Past parents y z) : Past parents x z :=
  Relation.TransGen.trans_right h h'

theorem IsDag.antisymm (d : IsDag parents V) (h : Reach parents x y) (h' : Reach parents y x) :
    x = y := by
  rcases reach_iff.mp h with heq | h
  · exact heq
  · exact absurd (h.trans_reach h') d.acyclic

theorem IsDag.mem_of_past (d : IsDag parents V) (h : Past parents x y) : x ∈ V := by
  obtain ⟨z, hz, _⟩ := Relation.TransGen.head'_iff.mp h
  exact d.closed hz

theorem IsDag.mem_of_reach (d : IsDag parents V) (h : Reach parents x y) (hy : y ∈ V) : x ∈ V := by
  rcases reach_iff.mp h with rfl | h
  · exact hy
  · exact d.mem_of_past h

/-- Neither block is in the past of the other. -/
def Anticone (parents : α → List α) (x y : α) : Prop := ¬Reach parents x y ∧ ¬Reach parents y x

theorem Anticone.symm (h : Anticone parents x y) : Anticone parents y x := ⟨h.2, h.1⟩

theorem Anticone.irrefl : ¬Anticone parents x x := fun h => h.1 .refl

end Reach

section Ordered

variable {parents : α → List α} {done l m : List α} {b : α}

/-- Every block of a list comes after its parents, where those of `done` come before the list. -/
def Ordered (parents : α → List α) : List α → List α → Prop
  | _, [] => True
  | done, b :: rest => (∀ p ∈ parents b, p ∈ done) ∧ Ordered parents (done ++ [b]) rest

theorem ordered_append :
    Ordered parents done (l ++ m) ↔ Ordered parents done l ∧ Ordered parents (done ++ l) m := by
  induction l generalizing done with
  | nil => simp [Ordered]
  | cons b l ih =>
    rw [List.cons_append, Ordered, Ordered, ih, and_assoc, List.append_assoc,
      List.singleton_append]

theorem ordered_singleton : Ordered parents done [b] ↔ ∀ p ∈ parents b, p ∈ done := by
  simp [Ordered]

/-- The parents of an ordered block are before the list or in it. -/
theorem Ordered.mem (h : Ordered parents done l) (hb : b ∈ l) :
    ∀ p ∈ parents b, p ∈ done ∨ p ∈ l := by
  induction l generalizing done with
  | nil => cases hb
  | cons c l ih =>
    intro p hp
    rcases List.mem_cons.mp hb with rfl | hb
    · exact Or.inl (h.1 p hp)
    · have := ih h.2 hb p hp
      simp only [List.mem_append, List.mem_cons] at this ⊢
      tauto

/-- A list sorted by a key that grows from parent to child is ordered, if it holds every parent
that does not come before it. -/
theorem ordered_of_sorted {le : α → α → Prop} (hsorted : l.Pairwise le)
    (hmem : ∀ b ∈ l, ∀ p ∈ parents b, p ∈ done ∨ p ∈ l)
    (hlt : ∀ b ∈ l, ∀ p ∈ parents b, p ≠ b ∧ ¬le b p) : Ordered parents done l := by
  induction l generalizing done with
  | nil => trivial
  | cons b l ih =>
    rw [List.pairwise_cons] at hsorted
    refine ⟨fun p hp => ?_, ih hsorted.2 (fun c hc p hp => ?_)
      fun c hc => hlt c (List.mem_cons_of_mem b hc)⟩
    · rcases hmem b List.mem_cons_self p hp with hdone | hl
      · exact hdone
      · obtain ⟨hne, hnot⟩ := hlt b List.mem_cons_self p hp
        exact absurd (hsorted.1 p ((List.mem_cons.mp hl).resolve_left hne)) hnot
    · have := hmem c (List.mem_cons_of_mem b hc) p hp
      simp only [List.mem_append, List.mem_cons] at this ⊢
      tauto

end Ordered

/-- Two DAGs that give the blocks they share the same parents give them the same past. -/
theorem IsDag.reach_congr {parents' : α → List α} {V V' : Finset α} {x y : α}
    {parents : α → List α} (d : IsDag parents V) (d' : IsDag parents' V')
    (h : ∀ z, z ∈ V → z ∈ V' → parents z = parents' z) (hy : y ∈ V) (hy' : y ∈ V') :
    Reach parents x y ↔ Reach parents' x y := by
  constructor
  · intro hxy
    induction hxy using Relation.ReflTransGen.head_induction_on with
    | refl => exact .refl
    | @head x z hxz hzy ih =>
      rw [h z (d.mem_of_reach hzy hy) (d'.mem_of_reach ih hy')] at hxz
      exact (reach_of_parent hxz).trans ih
  · intro hxy
    induction hxy using Relation.ReflTransGen.head_induction_on with
    | refl => exact .refl
    | @head x z hxz hzy ih =>
      rw [← h z (d.mem_of_reach ih hy) (d'.mem_of_reach hzy hy')] at hxz
      exact (reach_of_parent hxz).trans ih

section Above

variable {parents parents' : α → List α} {K : α → Prop} {r x y : α}

/-- Paths between blocks that are above `r`, and have all their parents there, stay above it. -/
theorem Reach.above (hup : ∀ y, K y → y ≠ r → ∀ p ∈ parents y, K p ∧ p ∈ parents' y)
    (hroot : Reach parents x r → x = r) (hy : K y) (h : Reach parents x y) :
    Reach parents' x y := by
  induction h with
  | refl => exact .refl
  | @tail b y hxb hb ih =>
    by_cases hyr : y = r
    · subst hyr
      rw [hroot (hxb.tail hb)]
      exact .refl
    · obtain ⟨hKb, hb'⟩ := hup y hy hyr b hb
      exact (ih hKb).tail hb'

end Above

section Add

variable [DecidableEq α] {parents : α → List α} {V : Finset α} {b x y : α} {ps : List α}

/-- A new block changes no past but its own. -/
theorem IsDag.reach_update (d : IsDag parents V) (hb : b ∉ V) (hy : y ∈ V) :
    Reach (Function.update parents b ps) x y ↔ Reach parents x y := by
  constructor
  · intro h
    induction h using Relation.ReflTransGen.head_induction_on with
    | refl => exact .refl
    | @head x z hxz hzy ih =>
      have hzb : z ≠ b := fun hzb => hb (hzb ▸ d.mem_of_reach ih hy)
      rw [Function.update_of_ne hzb] at hxz
      exact (reach_of_parent hxz).trans ih
  · intro h
    induction h using Relation.ReflTransGen.head_induction_on with
    | refl => exact .refl
    | @head x z hxz hzy ih =>
      have hzb : z ≠ b := fun hzb => hb (hzb ▸ d.mem_of_reach hzy hy)
      have hxz' : x ∈ Function.update parents b ps z := by rwa [Function.update_of_ne hzb]
      exact (reach_of_parent hxz').trans ih

theorem IsDag.anticone_update (d : IsDag parents V) (hb : b ∉ V) (hx : x ∈ V) (hy : y ∈ V) :
    Anticone (Function.update parents b ps) x y ↔ Anticone parents x y := by
  rw [Anticone, Anticone, d.reach_update hb hx, d.reach_update hb hy]

theorem IsDag.past_update_self (d : IsDag parents V) (hb : b ∉ V) (hps : ∀ p ∈ ps, p ∈ V) :
    Past (Function.update parents b ps) x b ↔ ∃ p ∈ ps, Reach parents x p := by
  rw [past_iff, Function.update_self]
  constructor
  · rintro ⟨p, hp, h⟩
    exact ⟨p, hp, (d.reach_update hb (hps p hp)).mp h⟩
  · rintro ⟨p, hp, h⟩
    exact ⟨p, hp, (d.reach_update hb (hps p hp)).mpr h⟩

theorem IsDag.past_update (d : IsDag parents V) (hb : b ∉ V) (hy : y ∈ V) :
    Past (Function.update parents b ps) x y ↔ Past parents x y := by
  have hyb : y ≠ b := fun hyb => hb (hyb ▸ hy)
  rw [past_iff, past_iff, Function.update_of_ne hyb]
  constructor
  · rintro ⟨p, hp, h⟩
    exact ⟨p, hp, (d.reach_update hb (d.closed hp)).mp h⟩
  · rintro ⟨p, hp, h⟩
    exact ⟨p, hp, (d.reach_update hb (d.closed hp)).mpr h⟩

theorem IsDag.update (d : IsDag parents V) (hb : b ∉ V) (hps : ∀ p ∈ ps, p ∈ V) :
    IsDag (Function.update parents b ps) (insert b V) where
  closed := by
    intro x y hx
    by_cases hyb : y = b
    · subst hyb
      rw [Function.update_self] at hx
      exact Finset.mem_insert_of_mem (hps x hx)
    · rw [Function.update_of_ne hyb] at hx
      exact Finset.mem_insert_of_mem (d.closed hx)
  outside := by
    intro y hy
    rw [Finset.mem_insert, not_or] at hy
    rw [Function.update_of_ne hy.1]
    exact d.outside hy.2
  acyclic := by
    intro x hx
    by_cases hxb : x = b
    · subst hxb
      obtain ⟨p, hp, h⟩ := (d.past_update_self hb hps).mp hx
      exact hb (d.mem_of_reach h (hps p hp))
    · by_cases hxV : x ∈ V
      · exact d.acyclic ((d.past_update hb hxV).mp hx)
      · rw [past_iff, Function.update_of_ne hxb, d.outside hxV] at hx
        obtain ⟨p, hp, _⟩ := hx
        cases hp

end Add

end TaoDag.BlockDag
