import Mathlib.Logic.Relation

namespace TaoDag

/-- A client as a program: it sends a request, and goes on with the answer. -/
inductive Client (Request Answer α : Type) where
  | done (a : α)
  | call (request : Request) (next : Answer → Client Request Answer α)

namespace Client

variable {Request Answer α β : Type}

def bind (f : α → Client Request Answer β) :
    Client Request Answer α → Client Request Answer β
  | done a => f a
  | call request next => call request fun answer => bind f (next answer)

instance : Monad (Client Request Answer) where
  pure := done
  bind c f := c.bind f

/-- One request. -/
def send (request : Request) : Client Request Answer Answer := call request done

end Client

/-- A session of a client with a server. Before it answers a request, the server may move on
its own. -/
inductive Session {S Request Answer α : Type} (Moves : S → S → Prop)
    (Answers : S → Request → Answer → S → Prop) : S → Client Request Answer α → S → α → Prop
  | done {s : S} {a : α} : Session Moves Answers s (.done a) s a
  | call {s s₁ s₂ s' : S} {request : Request} {answer : Answer}
      {next : Answer → Client Request Answer α} {a : α} (moves : Moves s s₁)
      (answers : Answers s₁ request answer s₂)
      (rest : Session Moves Answers s₂ (next answer) s' a) :
      Session Moves Answers s (.call request next) s' a

namespace Session

variable {S Request Answer α β : Type} {Moves : S → S → Prop}
  {Answers : S → Request → Answer → S → Prop} {s s' : S}

theorem pure_iff {a b : α} :
    Session Moves Answers s (pure a) s' b ↔ s' = s ∧ b = a := by
  constructor
  · intro h
    cases h
    exact ⟨rfl, rfl⟩
  · intro h
    obtain ⟨rfl, rfl⟩ := h
    exact done

theorem send_iff {request : Request} {answer : Answer} :
    Session Moves Answers s (Client.send request) s' answer ↔
      ∃ s₁, Moves s s₁ ∧ Answers s₁ request answer s' := by
  constructor
  · intro h
    cases h with
    | call moves answers rest =>
      cases rest
      exact ⟨_, moves, answers⟩
  · intro h
    obtain ⟨s₁, moves, answers⟩ := h
    exact call moves answers done

/-- A session of two programs in turn is a session of each. -/
theorem bind_iff {c : Client Request Answer α} {f : α → Client Request Answer β} {b : β} :
    Session Moves Answers s (c >>= f) s' b ↔
      ∃ mid a, Session Moves Answers s c mid a ∧ Session Moves Answers mid (f a) s' b := by
  constructor
  · intro h
    induction c generalizing s with
    | done a => exact ⟨s, a, done, h⟩
    | call request next ih =>
      cases h with
      | call moves answers rest =>
        obtain ⟨mid, a, first, second⟩ := ih _ rest
        exact ⟨mid, a, call moves answers first, second⟩
  · intro h
    obtain ⟨mid, a, first, second⟩ := h
    induction first with
    | done => exact second
    | call moves answers _ ih => exact call moves answers (ih second)

/-- A property that the server keeps, on its own and when it answers. -/
structure Invariant (Moves : S → S → Prop) (Answers : S → Request → Answer → S → Prop)
    (P : S → Prop) : Prop where
  moves : ∀ {s s'}, P s → Moves s s' → P s'
  answers : ∀ {s request answer s'}, P s → Answers s request answer s' → P s'

theorem Invariant.keeps {P : S → Prop} (inv : Invariant Moves Answers P)
    {c : Client Request Answer α} {a : α} (session : Session Moves Answers s c s' a) (h : P s) :
    P s' := by
  induction session with
  | done => exact h
  | call moves answers _ ih => exact ih (inv.answers (inv.moves h moves) answers)

section Except

variable {ε : Type}

theorem except_pure_iff {x r : Except ε α} :
    Session Moves Answers s (ExceptT.run (liftM x : ExceptT ε (Client Request Answer) α)) s' r ↔
      s' = s ∧ r = x := pure_iff

/-- A session of two programs of which the second runs when the first succeeds. -/
theorem except_bind_iff {c : ExceptT ε (Client Request Answer) α}
    {f : α → ExceptT ε (Client Request Answer) β} {r : Except ε β} :
    Session Moves Answers s (c >>= f).run s' r ↔
      (∃ e, r = .error e ∧ Session Moves Answers s c.run s' (.error e)) ∨
        ∃ mid a, Session Moves Answers s c.run mid (.ok a) ∧
          Session Moves Answers mid (f a).run s' r := by
  rw [ExceptT.run_bind, bind_iff]
  constructor
  · intro h
    obtain ⟨mid, outcome, first, second⟩ := h
    cases outcome with
    | error e =>
      obtain ⟨rfl, rfl⟩ := pure_iff.mp second
      exact Or.inl ⟨e, rfl, first⟩
    | ok a => exact Or.inr ⟨mid, a, first, second⟩
  · intro h
    rcases h with ⟨e, rfl, first⟩ | ⟨mid, a, first, second⟩
    · exact ⟨s', .error e, first, pure_iff.mpr ⟨rfl, rfl⟩⟩
    · exact ⟨mid, .ok a, first, second⟩

end Except

end Session

end TaoDag
