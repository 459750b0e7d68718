import Mathlib

/-!
# Labelled transition systems

A `System` is a partial step function on states and labels.  `Reach` collects
the states a run can reach when every step taken meets a condition on the
state before it and on its label; the invariant rule is stated once, over that
condition.  `trace` runs a list of labels and checks the condition on the way,
so that a concrete run is evaluated rather than proved.
-/

namespace Tansu.Lib

variable {W L γ : Type}

structure System (W L : Type) where
  step : W → L → Option W

namespace System

/-- The states reached from `w₀` by steps that meet `ok`. -/
inductive Reach (S : System W L) (ok : W → L → Prop) (w₀ : W) : W → Prop
  | refl : Reach S ok w₀ w₀
  | tail {w w' : W} {l : L} : Reach S ok w₀ w → ok w l → S.step w l = some w' →
      Reach S ok w₀ w'

variable {S : System W L} {ok ok' : W → L → Prop} {w₀ w w' : W}

/-- **Invariant rule.**  The step case may use that the state before is itself
reachable, so results already proved are at hand. -/
theorem Reach.invariant {I : W → Prop} (h₀ : I w₀)
    (hstep : ∀ {w w' l}, Reach S ok w₀ w → I w → ok w l → S.step w l = some w' → I w')
    (h : Reach S ok w₀ w) : I w := by
  induction h with
  | refl => exact h₀
  | tail hw hok hs ih => exact hstep hw ih hok hs

theorem Reach.mono (hok : ∀ w l, ok w l → ok' w l) (h : Reach S ok w₀ w) : Reach S ok' w₀ w := by
  induction h with
  | refl => exact .refl
  | tail _ ho hs ih => exact ih.tail (hok _ _ ho) hs

theorem Reach.trans {w₁ : W} (h : Reach S ok w₀ w₁) (h' : Reach S ok w₁ w) :
    Reach S ok w₀ w := by
  induction h' with
  | refl => exact h
  | tail _ ho hs ih => exact ih.tail ho hs

/-! ## Concrete runs -/

/-- Runs a list of labels, stopping where a step is not enabled or breaks `ok`. -/
def trace (S : System W L) (ok : W → L → Prop) [∀ w l, Decidable (ok w l)] :
    W → List L → Option W
  | w, [] => some w
  | w, l :: ls => if ok w l then (S.step w l).bind fun w' => trace S ok w' ls else none

theorem reach_of_trace [∀ w l, Decidable (ok w l)] :
    ∀ {w : W} {ls : List L}, S.trace ok w ls = some w' → S.Reach ok w w'
  | w, [], h => by
    obtain rfl : w = w' := by simpa [trace] using h
    exact .refl
  | w, l :: ls, h => by
    rw [trace] at h
    split at h
    · next hok =>
      obtain ⟨w₁, hs, ht⟩ := Option.bind_eq_some_iff.1 h
      exact Reach.trans (Reach.refl.tail hok hs) (reach_of_trace ht)
    · cases h

/-- A run that ends in a state with a decidable property. -/
theorem reach_of_any [∀ w l, Decidable (ok w l)] {p : W → Bool} {ls : List L}
    (h : (S.trace ok w ls).any p = true) : ∃ w', S.Reach ok w w' ∧ p w' = true := by
  obtain ⟨w', ht, hp⟩ := (Option.any_eq_true p _).1 h
  exact ⟨w', reach_of_trace ht, hp⟩

theorem exists_reach [∀ w l, Decidable (ok w l)] {P : W → Prop} [DecidablePred P] (ls : List L)
    (h : (S.trace ok w ls).any (fun w' => decide (P w')) = true) :
    ∃ w', S.Reach ok w w' ∧ P w' :=
  (reach_of_any h).imp fun _ hw => hw.imp_right of_decide_eq_true

/-! ## Observers -/

/-- The system with an observer: `obs` updates a history at every step and has
no influence on which steps are enabled. -/
def observe (S : System W L) (obs : γ → W → L → W → γ) : System (W × γ) L where
  step p l := (S.step p.1 l).map fun w' => (w', obs p.2 p.1 l w')

variable {obs : γ → W → L → W → γ} {p p' : W × γ} {l : L}

theorem observe_step (h : (S.observe obs).step p l = some p') :
    S.step p.1 l = some p'.1 ∧ p'.2 = obs p.2 p.1 l p'.1 := by
  obtain ⟨w', hs, rfl⟩ := Option.map_eq_some_iff.1 h
  exact ⟨hs, rfl⟩

theorem observe_cases {w : W} {history : γ} (h : (S.observe obs).step (w, history) l = some p') :
    ∃ w', S.step w l = some w' ∧ p' = (w', obs history w l w') := by
  obtain ⟨w', hs, rfl⟩ := Option.map_eq_some_iff.1 h
  exact ⟨w', hs, rfl⟩

/-- The invariant rule of an observed system. -/
theorem Reach.invariant_observe {I : W × γ → Prop} {ok : W × γ → L → Prop} {p₀ : W × γ} (h₀ : I p₀)
    (hstep : ∀ {w w' history l}, I (w, history) → ok (w, history) l → S.step w l = some w' →
      I (w', obs history w l w'))
    (h : (S.observe obs).Reach ok p₀ p) : I p := by
  refine h.invariant h₀ fun {p _ _} _ hi hok hs => ?_
  obtain ⟨w', hw, rfl⟩ := observe_cases hs
  exact hstep hi hok hw

end System

/-! ## Entries of a list that grows -/

theorem getElem?_append_some {l l' : List γ} {a : γ} {i : Nat} (h : l[i]? = some a) :
    (l ++ l')[i]? = some a := by
  rw [List.getElem?_append_left (List.getElem?_eq_some_iff.1 h).1, h]

theorem getElem?_concat {l : List γ} {a b : γ} {i : Nat} (h : (l ++ [a])[i]? = some b) :
    l[i]? = some b ∨ i = l.length ∧ b = a := by
  rw [List.getElem?_append] at h
  split at h
  · exact .inl h
  · rw [List.getElem?_singleton] at h
    split at h
    · exact .inr ⟨by omega, (Option.some.inj h).symm⟩
    · cases h

/-! ## Events of a history that grows -/

section History

variable {history past later more : List γ} {ev x : γ}

/-- An event of a longer history is one of the old events or one of the new. -/
theorem split_append (h : history ++ more = past ++ ev :: later) :
    (∃ later', history = past ++ ev :: later' ∧ later = later' ++ more) ∨
      ∃ past', more = past' ++ ev :: later ∧ past = history ++ past' := by
  rcases List.append_eq_append_iff.1 h with ⟨l, rfl, hm⟩ | ⟨l, rfl, hm⟩
  · exact .inr ⟨l, hm, rfl⟩
  · cases l with
    | nil => exact .inr ⟨[], by simpa using hm.symm, by simp⟩
    | cons ev' l =>
      cases hm
      exact .inl ⟨l, rfl, rfl⟩

theorem split_concat (h : history ++ [ev] = past ++ x :: later) :
    (∃ later', history = past ++ x :: later') ∨ (past = history ∧ x = ev) := by
  rcases split_append h with ⟨later', hold, -⟩ | ⟨past', hnew, rfl⟩
  · exact .inl ⟨later', hold⟩
  · rcases List.append_eq_singleton_iff.1 hnew.symm with ⟨rfl, hx⟩ | ⟨-, hx⟩
    · cases hx
      exact .inr ⟨List.append_nil _, rfl⟩
    · cases hx

end History

end Tansu.Lib
