import Mathlib.Data.List.Forall2
import Mathlib.Logic.Basic
import Mathlib.Tactic.Basic

namespace TaoDag

universe u v

variable {ε : Type v} {α β : Type u}

/-- One judgement for a fallible call: whatever it returns satisfies `Q`, and under
the resource assumption `C` it does return. `C := False` is partial correctness,
`C := True` total correctness. -/
def Returns (C : Prop) (x : Except ε α) (Q : α → Prop) : Prop :=
  (∀ a, x = .ok a → Q a) ∧ (C → ∃ a, x = .ok a)

namespace Returns

variable {C : Prop} {x : Except ε α} {f : α → Except ε β} {P Q : α → Prop} {R : β → Prop}

theorem pure {a : α} (h : Q a) : Returns C (Pure.pure a : Except ε α) Q := by
  refine ⟨?_, fun _ => ⟨a, rfl⟩⟩
  intro b hb
  cases hb
  exact h

theorem ok {a : α} (h : Q a) : Returns C (.ok a : Except ε α) Q := pure h

theorem error {e : ε} (h : ¬C) : Returns C (.error e : Except ε α) Q :=
  ⟨fun _ ha => (by cases ha), fun hc => absurd hc h⟩

theorem bind (hx : Returns C x P) (hf : ∀ a, P a → Returns C (f a) R) :
    Returns C (x >>= f) R := by
  cases hxa : x with
  | error e =>
    refine error fun hc => ?_
    obtain ⟨a, ha⟩ := hx.2 hc
    rw [hxa] at ha
    cases ha
  | ok a => exact hf a (hx.1 a hxa)

theorem mono (hx : Returns C x P) (h : ∀ a, P a → Q a) : Returns C x Q :=
  ⟨fun a ha => h a (hx.1 a ha), hx.2⟩

theorem and (hp : Returns C x P) (hq : ∀ a, x = .ok a → Q a) :
    Returns C x (fun a => P a ∧ Q a) :=
  ⟨fun a ha => ⟨hp.1 a ha, hq a ha⟩, hp.2⟩

/-- A checked assertion: it succeeds under `C`, and afterwards the condition is known. -/
theorem check {p : Prop} [Decidable p] {e : ε} (h : C → p) :
    Returns C (if p then .ok () else .error e : Except ε Unit) (fun _ => p) := by
  by_cases hp : p
  · rw [if_pos hp]
    exact ok hp
  · rw [if_neg hp]
    exact error fun hc => hp (h hc)

/-- A loop over a list: the results are those of `g`, and each item passed its check. -/
theorem mapM {g : α → β} {P : α → Prop} {l : List α}
    (h : ∀ a ∈ l, Returns C (f a) fun b => b = g a ∧ P a) :
    Returns C (l.mapM f) fun bs => bs = l.map g ∧ ∀ a ∈ l, P a := by
  induction l with
  | nil => exact pure ⟨rfl, fun _ ha => by cases ha⟩
  | cons a l ih =>
    rw [List.mapM_cons]
    refine bind (h a (List.mem_cons_self ..)) fun b hb => ?_
    refine bind (ih fun c hc => h c (List.mem_cons_of_mem _ hc)) fun bs hbs => pure ⟨?_, ?_⟩
    · rw [hb.1, hbs.1, List.map_cons]
    · intro c hc
      rcases List.mem_cons.mp hc with rfl | hc
      · exact hb.2
      · exact hbs.2 c hc

/-- A loop that keeps an invariant of what it has consumed. -/
theorem foldlM {γ : Type*} {g : β → γ → Except ε β} {I : List γ → β → Prop} {l : List γ} {b : β}
    (h : I [] b)
    (hstep : ∀ pre a post b, l = pre ++ a :: post → I pre b → Returns C (g b a) (I (pre ++ [a]))) :
    Returns C (l.foldlM g b) (I l) := by
  suffices hgen : ∀ pre post b, l = pre ++ post → I pre b → Returns C (post.foldlM g b) (I l) from
    hgen [] l b rfl h
  intro pre post
  induction post generalizing pre with
  | nil =>
    intro b hl hb
    rw [List.append_nil] at hl
    rw [hl]
    exact pure hb
  | cons a post ih =>
    intro b hl hb
    rw [List.foldlM_cons]
    refine bind (hstep pre a post b hl hb) fun b' hb' => ih (pre ++ [a]) b' ?_ hb'
    rw [hl, List.append_assoc, List.singleton_append]

theorem post (hx : Returns C x Q) {a : α} (ha : x = .ok a) : Q a := hx.1 a ha

theorem total (hx : Returns True x Q) : ∃ a, x = .ok a ∧ Q a := by
  obtain ⟨a, ha⟩ := hx.2 trivial
  exact ⟨a, ha, hx.1 a ha⟩

end Returns

/-- The only way a bind returns is through its first call. -/
theorem bind_eq_ok {x : Except ε α} {f : α → Except ε β} {b : β} :
    x >>= f = .ok b ↔ ∃ a, x = .ok a ∧ f a = .ok b := by
  cases x with
  | error e =>
    constructor
    · intro h
      cases h
    · rintro ⟨_, h, _⟩
      cases h
  | ok a =>
    constructor
    · intro h
      exact ⟨a, rfl, h⟩
    · rintro ⟨_, h, hf⟩
      cases h
      exact hf

theorem map_eq_ok {x : Except ε α} {f : α → β} {b : β} :
    f <$> x = .ok b ↔ ∃ a, x = .ok a ∧ f a = b := by
  cases x with
  | error e =>
    constructor
    · intro h
      cases h
    · rintro ⟨_, h, _⟩
      cases h
  | ok a =>
    constructor
    · intro h
      cases h
      exact ⟨a, rfl, rfl⟩
    · rintro ⟨_, h, rfl⟩
      cases h
      rfl

/-- Does the call return, with a value that passes the test? -/
def returnsWith (x : Except ε α) (p : α → Bool) : Bool :=
  match x with
  | .ok a => p a
  | .error _ => false

theorem returnsWith_iff {x : Except ε α} {p : α → Bool} :
    returnsWith x p = true ↔ ∃ a, x = .ok a ∧ p a = true := by
  cases x with
  | error e => simp [returnsWith]
  | ok a => simp [returnsWith]

/-- Does the call fail? -/
def fails (x : Except ε α) : Bool := !returnsWith x fun _ => true

theorem fails_iff {x : Except ε α} : fails x = true ↔ ∃ e, x = .error e := by
  cases x with
  | error e => simp [fails, returnsWith]
  | ok a => simp [fails, returnsWith]

/-- Two calls that return the same value if both return. -/
def Agree (x y : Except ε α) : Prop := ∀ a b, x = .ok a → y = .ok b → a = b

namespace Agree

variable {x y : Except ε α} {f g : α → Except ε β}

theorem refl (x : Except ε α) : Agree x x := fun a b ha hb => by
  rw [ha] at hb
  cases hb
  rfl

theorem error_left {e : ε} : Agree (.error e : Except ε α) y := fun _ _ ha => by cases ha

theorem error_right {e : ε} : Agree x (.error e : Except ε α) := fun _ _ _ hb => by cases hb

theorem bind (h : Agree x y) (hf : ∀ a, x = .ok a → y = .ok a → Agree (f a) (g a)) :
    Agree (x >>= f) (y >>= g) := by
  intro b c hb hc
  obtain ⟨a, ha, hb⟩ := bind_eq_ok.mp hb
  obtain ⟨a', ha', hc⟩ := bind_eq_ok.mp hc
  have haa := h a a' ha ha'
  subst haa
  exact hf a ha ha' b c hb hc

theorem mapM {γ : Type*} {f g : γ → Except ε β} {l : List γ} (h : ∀ a, Agree (f a) (g a)) :
    Agree (l.mapM f) (l.mapM g) := by
  induction l with
  | nil => exact refl _
  | cons a l ih =>
    rw [List.mapM_cons, List.mapM_cons]
    exact bind (h a) fun b _ _ => bind ih fun bs _ _ => refl _

theorem foldlM {γ : Type*} {f g : β → γ → Except ε β} {l : List γ}
    (h : ∀ b a, Agree (f b a) (g b a)) (b : β) : Agree (l.foldlM f b) (l.foldlM g b) := by
  induction l generalizing b with
  | nil => exact refl _
  | cons a l ih =>
    rw [List.foldlM_cons, List.foldlM_cons]
    exact bind (h b a) fun b' _ _ => ih b'

end Agree

/-- Two calls whose values are related if both return. -/
def Related {α β : Type u} (R : α → β → Prop) (x : Except ε α) (y : Except ε β) : Prop :=
  ∀ a b, x = .ok a → y = .ok b → R a b

namespace Related

variable {α' β' : Type u} {R : α → β → Prop} {S : α' → β' → Prop} {x : Except ε α} {y : Except ε β}

theorem of_ok {a : α} {b : β} (h : R a b) : Related R (.ok a : Except ε α) (.ok b) := by
  intro a' b' ha hb
  cases ha
  cases hb
  exact h

theorem error_left {e : ε} : Related R (.error e : Except ε α) y := fun _ _ ha => by cases ha

theorem error_right {e : ε} : Related R x (.error e : Except ε β) := fun _ _ _ hb => by cases hb

theorem bind {f : α → Except ε α'} {g : β → Except ε β'} (h : Related R x y)
    (hf : ∀ a b, x = .ok a → y = .ok b → R a b → Related S (f a) (g b)) :
    Related S (x >>= f) (y >>= g) := by
  intro c d hc hd
  obtain ⟨a, ha, hc⟩ := bind_eq_ok.mp hc
  obtain ⟨b, hb, hd⟩ := bind_eq_ok.mp hd
  exact hf a b ha hb (h a b ha hb) c d hc hd

theorem mono {R' : α → β → Prop} (h : Related R x y) (hR : ∀ a b, R a b → R' a b) :
    Related R' x y := fun a b ha hb => hR a b (h a b ha hb)

/-- Loops over the same items, each related. -/
theorem mapM {γ : Type*} {f : γ → Except ε α} {g : γ → Except ε β} {l : List γ}
    (h : ∀ c ∈ l, Related R (f c) (g c)) :
    Related (List.Forall₂ R) (l.mapM f) (l.mapM g) := by
  induction l with
  | nil => exact of_ok .nil
  | cons c l ih =>
    rw [List.mapM_cons, List.mapM_cons]
    refine bind (h c List.mem_cons_self) fun a b _ _ hab => ?_
    refine bind (ih fun d hd => h d (List.mem_cons_of_mem _ hd)) fun as bs _ _ habs => ?_
    exact of_ok (.cons hab habs)

end Related

end TaoDag
