import Tansu.Lib.Tasks

/-!
# One request after another

A machine whose requests do not overlap: the task of a request is played to its
end before the next request is taken.  While it plays, the environment may still
change the shared state.  The player is executable; `Ends` and `Completes` are
the relations that proofs use, with the rules that take a task apart.
-/

namespace Tansu.Lib

/-- What comes next while one task runs by itself. -/
inductive Turn (χ η : Type)
  | run (c : χ)
  | env (e : η)

/-- A request played to its end, or the environment between two requests. -/
inductive Call (ρ χ η : Type)
  | play (r : ρ) (turns : List (Turn χ η))
  | idle (e : η)

namespace Machine

variable {σ α χ ε ρ η : Type} (M : Machine σ α χ ε ρ η)

/-- Plays a task to its end.  The flag says that none of its sections failed. -/
def play : List (Turn χ η) → σ → List α → Option (σ × Bool)
  | [], s, todo => if todo.isEmpty then some (s, true) else none
  | .env e :: turns, s, todo => (M.env s e).bind fun s' => play turns s' todo
  | .run _ :: _, _, [] => none
  | .run c :: turns, s, a :: rest =>
    match M.exec s c a with
    | .ok s' next => play turns s' (next ++ rest)
    | .err s' _ => (play turns s' (M.unwind rest)).map fun r => (r.1, false)
    | .blocked => none

def sequential : System σ (Call ρ χ η) where
  step s
    | .play r turns => (M.play turns s (M.start r)).map (·.1)
    | .idle e => M.env s e

/-- A task can be played from `s` to its end in `s'`, whatever its sections return. -/
inductive Ends : σ → List α → σ → Prop
  | nil {s : σ} : Ends s [] s
  | env {s s₁ s' : σ} {e : η} {todo : List α} : M.env s e = some s₁ → Ends s₁ todo s' →
      Ends s todo s'
  | ok {s s₁ s' : σ} {c : χ} {a : α} {rest next : List α} : M.exec s c a = .ok s₁ next →
      Ends s₁ (next ++ rest) s' → Ends s (a :: rest) s'
  | err {s s₁ s' : σ} {c : χ} {a : α} {rest : List α} {e : ε} : M.exec s c a = .err s₁ e →
      Ends s₁ (M.unwind rest) s' → Ends s (a :: rest) s'

/-- A task can be played to its end and none of its sections fails. -/
inductive Completes : σ → List α → σ → Prop
  | nil {s : σ} : Completes s [] s
  | env {s s₁ s' : σ} {e : η} {todo : List α} : M.env s e = some s₁ → Completes s₁ todo s' →
      Completes s todo s'
  | ok {s s₁ s' : σ} {c : χ} {a : α} {rest next : List α} : M.exec s c a = .ok s₁ next →
      Completes s₁ (next ++ rest) s' → Completes s (a :: rest) s'

variable {M} {s s' : σ} {turns : List (Turn χ η)} {todo xs ys rest : List α} {a : α} {b : Bool}

/-- A play that reaches the end takes the task there; without failures if it reports none. -/
theorem play_ends (h : M.play turns s todo = some (s', b)) :
    M.Ends s todo s' ∧ (b = true → M.Completes s todo s') := by
  induction turns generalizing s todo b with
  | nil =>
    simp only [play] at h
    split at h
    · next he =>
      cases h
      rw [List.isEmpty_iff.1 he]
      exact ⟨.nil, fun _ => .nil⟩
    · cases h
  | cons turn turns ih =>
    match turn, todo with
    | .env e, todo =>
      obtain ⟨s₁, hs, hplay⟩ := Option.bind_eq_some_iff.1 h
      exact ⟨.env hs (ih hplay).1, fun hb => .env hs ((ih hplay).2 hb)⟩
    | .run c, [] => cases h
    | .run c, a :: rest =>
      simp only [play] at h
      split at h
      · next s₁ next he => exact ⟨.ok he (ih h).1, fun hb => .ok he ((ih h).2 hb)⟩
      · next s₁ e he =>
        obtain ⟨r, hplay, heq⟩ := Option.map_eq_some_iff.1 h
        cases heq
        exact ⟨.err he (ih hplay).1, fun hb => absurd hb Bool.false_ne_true⟩
      · cases h

/-! ## Taking a task apart -/

/-- The first section of a task runs after some steps of the environment. -/
theorem Ends.first (h : M.Ends s (a :: rest) s') : ∃ s₀ c, M.Ends s [] s₀ ∧
    ((∃ s₁ next, M.exec s₀ c a = .ok s₁ next ∧ M.Ends s₁ (next ++ rest) s') ∨
      ∃ s₁ e, M.exec s₀ c a = .err s₁ e ∧ M.Ends s₁ (M.unwind rest) s') := by
  generalize htodo : a :: rest = todo at h
  induction h with
  | nil => cases htodo
  | env hs _ ih =>
    obtain ⟨s₀, c, hidle, hfirst⟩ := ih htodo
    exact ⟨s₀, c, .env hs hidle, hfirst⟩
  | ok he hends _ =>
    cases htodo
    exact ⟨_, _, .nil, .inl ⟨_, _, he, hends⟩⟩
  | err he hends _ =>
    cases htodo
    exact ⟨_, _, .nil, .inr ⟨_, _, he, hends⟩⟩

theorem Completes.first (h : M.Completes s (a :: rest) s') : ∃ s₀ c s₁ next,
    M.Completes s [] s₀ ∧ M.exec s₀ c a = .ok s₁ next ∧ M.Completes s₁ (next ++ rest) s' := by
  generalize htodo : a :: rest = todo at h
  induction h with
  | nil => cases htodo
  | env hs _ ih =>
    obtain ⟨s₀, c, s₁, next, hidle, hfirst⟩ := ih htodo
    exact ⟨s₀, c, s₁, next, .env hs hidle, hfirst⟩
  | ok he hc _ =>
    cases htodo
    exact ⟨_, _, _, _, .nil, he, hc⟩

/-- What comes first in a task is played to its end before the rest of it. -/
theorem Completes.split (h : M.Completes s (xs ++ ys) s') :
    ∃ s₁, M.Completes s xs s₁ ∧ M.Completes s₁ ys s' := by
  generalize htodo : xs ++ ys = todo at h
  induction h generalizing xs with
  | nil =>
    obtain ⟨rfl, rfl⟩ := List.append_eq_nil_iff.1 htodo
    exact ⟨_, .nil, .nil⟩
  | env hs _ ih =>
    obtain ⟨s₁, hx, hy⟩ := ih htodo
    exact ⟨s₁, .env hs hx, hy⟩
  | ok he hc ih =>
    cases xs with
    | nil =>
      obtain rfl : ys = _ := htodo
      exact ⟨_, .nil, .ok he hc⟩
    | cons x xs =>
      cases htodo
      obtain ⟨s₁, hx, hy⟩ := ih (List.append_assoc ..)
      exact ⟨s₁, .ok he hx, hy⟩

theorem Completes.ends (h : M.Completes s todo s') : M.Ends s todo s' := by
  induction h with
  | nil => exact .nil
  | env hs _ ih => exact .env hs ih
  | ok he _ ih => exact .ok he ih

/-! ## Invariants -/

/-- What holds of the shared state is kept by a task whose sections are of a kind
that keeps it and leads to sections of the same kind. -/
theorem Ends.invariant {I : σ → Prop} {P : α → Prop} (h : M.Ends s todo s')
    (hs : I s) (htodo : ∀ a ∈ todo, P a)
    (henv : ∀ {s s' e}, I s → M.env s e = some s' → I s')
    (hok : ∀ {s s' c a next}, I s → P a → M.exec s c a = .ok s' next →
      I s' ∧ ∀ b ∈ next, P b)
    (herr : ∀ {s s' c a e}, I s → P a → M.exec s c a = .err s' e → I s') : I s' := by
  induction h with
  | nil => exact hs
  | env he _ ih => exact ih (henv hs he) htodo
  | ok he _ ih =>
    obtain ⟨hs', hnext⟩ := hok hs (htodo _ List.mem_cons_self) he
    refine ih hs' fun b hb => ?_
    rcases List.mem_append.1 hb with hb | hb
    · exact hnext b hb
    · exact htodo b (List.mem_cons_of_mem _ hb)
  | err he _ ih =>
    refine ih (herr hs (htodo _ List.mem_cons_self) he) fun b hb => ?_
    exact htodo b (List.mem_cons_of_mem _ ((unwind_suffix _).subset hb))

end Machine

end Tansu.Lib
