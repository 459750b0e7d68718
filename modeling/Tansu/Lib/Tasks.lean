import Tansu.Lib.System

/-!
# Interleaved tasks over a shared state

Every request in flight is a task: the list of the critical sections it still
has to run.  Running the first one is atomic; it may change the shared state,
put further sections in front of the task, fail or block.  A failure drops the
rest of the task up to the next handler, the way `?` unwinds to the nearest
caller that ignores errors.  The environment may change the shared state at
any moment.
-/

namespace Tansu.Lib

open List

/-- What one critical section does. -/
inductive Outcome (σ α ε : Type)
  | ok (s : σ) (next : List α)
  | err (s : σ) (e : ε)
  | blocked

structure World (σ α : Type) where
  shared : σ
  tasks : List (List α)

inductive Label (ρ χ η : Type)
  | spawn (r : ρ)
  | run (i : Nat) (c : χ)
  | env (e : η)

/-- Requests `ρ` start tasks of sections `α`; a section runs under a choice `χ`. -/
structure Machine (σ α χ ε ρ η : Type) where
  start : ρ → List α
  exec : σ → χ → α → Outcome σ α ε
  handler : α → Bool
  env : σ → η → Option σ

namespace Machine

variable {σ α χ ε ρ η : Type} (M : Machine σ α χ ε ρ η)

/-- What remains of a task after a failure. -/
def unwind : List α → List α
  | [] => []
  | a :: rest => if M.handler a then rest else unwind rest

def step (w : World σ α) : Label ρ χ η → Option (World σ α)
  | .spawn r => some { w with tasks := w.tasks ++ [M.start r] }
  | .env e => (M.env w.shared e).map fun s => { w with shared := s }
  | .run i c =>
    match w.tasks[i]? with
    | some (a :: rest) =>
      match M.exec w.shared c a with
      | .ok s next => some ⟨s, w.tasks.set i (next ++ rest)⟩
      | .err s _ => some ⟨s, w.tasks.set i (M.unwind rest)⟩
      | .blocked => none
    | _ => none

def system : System (World σ α) (Label ρ χ η) := ⟨M.step⟩

variable {M} {w w' : World σ α} {l : Label ρ χ η}

/-! ## Inversion -/

/-- The section that a step runs: task `i` is at `a`, with `rest` behind it. -/
def At (w : World σ α) (i : Nat) (a : α) (rest : List α) : Prop :=
  w.tasks[i]? = some (a :: rest)

variable {i j : Nat} {a b : α} {rest t next : List α} {R : List α → Prop} {p : α → Prop}

theorem At.get (h : At w i a rest) : w.tasks[i]? = some (a :: rest) := h

/-- What running the section `a`, with `rest` behind it, makes of a world. -/
inductive Ran (M : Machine σ α χ ε ρ η) (w : World σ α) (i : Nat) (c : χ) (a : α)
    (rest : List α) : World σ α → Prop
  | ok {s : σ} {next : List α} (he : M.exec w.shared c a = .ok s next) :
    M.Ran w i c a rest ⟨s, w.tasks.set i (next ++ rest)⟩
  | err {s : σ} {e : ε} (he : M.exec w.shared c a = .err s e) :
    M.Ran w i c a rest ⟨s, w.tasks.set i (M.unwind rest)⟩

theorem step_run {c : χ} (h : M.step w (.run i c) = some w') :
    ∃ a rest, At w i a rest ∧ M.Ran w i c a rest w' := by
  simp only [step] at h
  split at h
  · next a rest ht =>
    refine ⟨a, rest, ht, ?_⟩
    split at h
    · next he =>
      cases h
      exact .ok he
    · next he =>
      cases h
      exact .err he
    · cases h
  · cases h

theorem Ran.length {c : χ} (h : M.Ran w i c a rest w') : w'.tasks.length = w.tasks.length := by
  cases h <;> exact length_set

theorem step_env {e : η} (h : M.step w (.env e) = some w') :
    ∃ s, M.env w.shared e = some s ∧ w' = { w with shared := s } := by
  obtain ⟨s, hs, rfl⟩ := Option.map_eq_some_iff.1 h
  exact ⟨s, hs, rfl⟩

/-- The tasks after a step: old ones, the one just started, and the one that ran. -/
theorem step_tasks {todo : List α} (h : M.step w l = some w') (ht : w'.tasks[j]? = some todo) :
    ((∀ c, l ≠ .run j c) ∧ w.tasks[j]? = some todo) ∨
    (∃ r, l = .spawn r ∧ j = w.tasks.length ∧ todo = M.start r) ∨
    (∃ c a rest next, l = .run j c ∧ At w j a rest ∧
      M.exec w.shared c a = .ok w'.shared next ∧ todo = next ++ rest) ∨
    ∃ c a rest e, l = .run j c ∧ At w j a rest ∧ M.exec w.shared c a = .err w'.shared e ∧
      todo = M.unwind rest := by
  cases l with
  | spawn r =>
    cases h
    rcases getElem?_concat ht with ht | ⟨hj, rfl⟩
    · exact .inl ⟨fun _ => nofun, ht⟩
    · exact .inr (.inl ⟨r, rfl, hj, rfl⟩)
  | env e =>
    obtain ⟨s, -, rfl⟩ := step_env h
    exact .inl ⟨fun _ => nofun, ht⟩
  | run i c =>
    obtain ⟨a, rest, hat, hcase⟩ := step_run h
    have hset {t : List α} (ht : (w.tasks.set i t)[j]? = some todo) :
        (i ≠ j ∧ w.tasks[j]? = some todo) ∨ i = j ∧ todo = t := by
      rw [getElem?_set] at ht
      split at ht
      · next hij =>
        split at ht
        · exact .inr ⟨hij, (Option.some.inj ht).symm⟩
        · cases ht
      · next hij => exact .inl ⟨hij, ht⟩
    have hother (hij : i ≠ j) (c' : χ) : (.run i c : Label ρ χ η) ≠ .run j c' := by
      intro heq
      cases heq
      exact hij rfl
    rcases hcase with he | he
    · rcases hset ht with ⟨hij, ht⟩ | ⟨rfl, rfl⟩
      · exact .inl ⟨hother hij, ht⟩
      · exact .inr (.inr (.inl ⟨c, a, rest, _, rfl, hat, he, rfl⟩))
    · rcases hset ht with ⟨hij, ht⟩ | ⟨rfl, rfl⟩
      · exact .inl ⟨hother hij, ht⟩
      · exact .inr (.inr (.inr ⟨c, a, rest, _, rfl, hat, he, rfl⟩))

/-- What a failure drops is a suffix's complement: the rest is still a suffix. -/
theorem unwind_suffix : ∀ todo : List α, M.unwind todo <:+ todo
  | [] => List.suffix_rfl
  | a :: rest => by
    rw [unwind]
    split
    · exact List.suffix_cons a rest
    · exact (unwind_suffix rest).trans (List.suffix_cons a rest)

/-! ## Pending sections -/

/-- Some task still has to run `a`. -/
def Pending (w : World σ α) (a : α) : Prop := ∃ todo ∈ w.tasks, a ∈ todo

theorem At.mem (h : At w i a rest) : a :: rest ∈ w.tasks :=
  mem_of_getElem? h

theorem At.pending (h : At w i a rest) : Pending w a :=
  ⟨_, h.mem, mem_cons_self⟩

theorem At.lt (h : At w i a rest) : i < w.tasks.length :=
  (List.getElem?_eq_some_iff.1 h).1

theorem At.todo {i : Nat} {a : α} {rest todo : List α} (h : At w i a rest)
    (ht : w.tasks[i]? = some todo) : todo = a :: rest :=
  (Option.some.inj (Eq.trans (Eq.symm h) ht)).symm

theorem At.eq {a' : α} {rest' : List α} (h : At w i a rest) (h' : At w i a' rest') :
    a = a' ∧ rest = rest' :=
  List.cons.inj (h'.todo h)

theorem At.step {c : χ} (h : At w i a rest) (hs : M.step w (.run i c) = some w') :
    M.Ran w i c a rest w' := by
  obtain ⟨a', rest', h', hcase⟩ := step_run hs
  obtain ⟨rfl, rfl⟩ := h.eq h'
  exact hcase

/-- What is known of the tasks by their numbers, after task `i` has become `t`. -/
theorem At.exists_set (h : At w i a rest) (hold : j ≠ i → ∃ todo, w.tasks[j]? = some todo ∧ R todo)
    (hnew : j = i → R t) : ∃ todo, (w.tasks.set i t)[j]? = some todo ∧ R todo := by
  by_cases hji : j = i
  · subst hji
    exact ⟨t, getElem?_set_self h.lt, hnew rfl⟩
  · obtain ⟨todo, htodo, hr⟩ := hold hji
    exact ⟨todo, (getElem?_set_ne (Ne.symm hji)).trans htodo, hr⟩

theorem exists_spawn {tasks : List (List α)} (h : ∃ todo, tasks[j]? = some todo ∧ R todo) :
    ∃ todo, (tasks ++ [t])[j]? = some todo ∧ R todo := by
  obtain ⟨todo, htodo, hr⟩ := h
  exact ⟨todo, getElem?_append_some htodo, hr⟩

theorem mem_set_tasks {t' : List α} (h : t' ∈ w.tasks.set i t) : t' = t ∨ t' ∈ w.tasks :=
  (mem_or_eq_of_mem_set h).symm

section

variable (ha : At w i a rest)
include ha

theorem pending_ok {s : σ} (h : Pending ⟨s, w.tasks.set i (next ++ rest)⟩ b) :
    b ∈ next ∨ Pending w b := by
  obtain ⟨todo, hmem, hb⟩ := h
  rcases mem_set_tasks hmem with rfl | hmem
  · rcases mem_append.1 hb with hb | hb
    · exact .inl hb
    · exact .inr ⟨_, ha.mem, mem_cons_of_mem a hb⟩
  · exact .inr ⟨todo, hmem, hb⟩

theorem pending_err {s : σ} (h : Pending ⟨s, w.tasks.set i (M.unwind rest)⟩ b) : Pending w b := by
  obtain ⟨todo, hmem, hb⟩ := h
  rcases mem_set_tasks hmem with rfl | hmem
  · exact ⟨_, ha.mem, mem_cons_of_mem a ((unwind_suffix rest).subset hb)⟩
  · exact ⟨todo, hmem, hb⟩

theorem mem_tasks_set_of_ne {todo : List α} (hne : todo ≠ a :: rest) (h : todo ∈ w.tasks) :
    todo ∈ w.tasks.set i t := by
  obtain ⟨j, hj, rfl⟩ := getElem_of_mem h
  have hij : i ≠ j := by
    rintro rfl
    exact hne (by simpa [At, getElem?_eq_getElem hj] using ha)
  exact mem_iff_getElem.2 ⟨j, by simpa using hj, by simp [hij]⟩

theorem pending_of_pending_ok {s : σ} (h : Pending w b) :
    b = a ∨ Pending ⟨s, w.tasks.set i (next ++ rest)⟩ b := by
  obtain ⟨todo, hmem, hb⟩ := h
  by_cases ht : todo = a :: rest
  · subst ht
    rcases mem_cons.1 hb with rfl | hb
    · exact .inl rfl
    · exact .inr ⟨next ++ rest, mem_set ha.lt _, mem_append_right next hb⟩
  · exact .inr ⟨todo, mem_tasks_set_of_ne ha ht hmem, hb⟩

theorem pending_of_mem_next {s : σ} (hb : b ∈ next) : Pending ⟨s, w.tasks.set i (next ++ rest)⟩ b :=
  ⟨next ++ rest, mem_set ha.lt _, mem_append_left rest hb⟩

theorem pending_of_pending_err {s : σ} (h : Pending w b) :
    b = a ∨ b ∈ rest ∨ Pending ⟨s, w.tasks.set i (M.unwind rest)⟩ b := by
  obtain ⟨todo, hmem, hb⟩ := h
  by_cases ht : todo = a :: rest
  · subst ht
    rcases mem_cons.1 hb with rfl | hb
    · exact .inl rfl
    · exact .inr (.inl hb)
  · exact .inr (.inr ⟨todo, mem_tasks_set_of_ne ha ht hmem, hb⟩)

end

theorem pending_spawn {r : ρ} (h : Pending { w with tasks := w.tasks ++ [M.start r] } b) :
    Pending w b ∨ b ∈ M.start r := by
  obtain ⟨todo, hmem, hb⟩ := h
  rcases mem_append.1 hmem with hmem | hmem
  · exact .inl ⟨todo, hmem, hb⟩
  · rw [mem_singleton.1 hmem] at hb
    exact .inr hb

theorem Pending.spawn {r : ρ} (h : Pending w b) :
    Pending { w with tasks := w.tasks ++ [M.start r] } b := by
  obtain ⟨todo, hmem, hb⟩ := h
  exact ⟨todo, mem_append_left _ hmem, hb⟩

theorem Pending.any {p : α → Bool} (h : Pending w b) (hb : p b = true) :
    (w.tasks.any fun todo => todo.any p) = true := by
  obtain ⟨todo, hmem, hmem'⟩ := h
  exact List.any_eq_true.2 ⟨todo, hmem, List.any_eq_true.2 ⟨b, hmem', hb⟩⟩

/-! ## Tasks that hold one section at a time -/

/-- The task is done, or holds one section, of which `P` holds. -/
def Sole (P : α → Prop) : List α → Prop
  | [] => True
  | [a] => P a
  | _ => False

/-- Every task is done, or holds one section, of which `P` holds with its number. -/
def Sequential (P : Nat → α → Prop) (tasks : List (List α)) : Prop :=
  ∀ (i : Nat) todo, tasks[i]? = some todo → Sole (P i) todo

section

variable {P P' : Nat → α → Prop} {tasks : List (List α)} {todo : List α}

theorem Sole.imp {p q : α → Prop} (h : Sole p todo) (himp : ∀ a, p a → q a) : Sole q todo := by
  rcases todo with _ | ⟨a, _ | ⟨b, rest⟩⟩
  · trivial
  · exact himp a h
  · exact h

theorem Sequential.phase (h : Sequential P w.tasks) (hat : At w i a rest) : rest = [] ∧ P i a := by
  have hsole := h i (a :: rest) hat
  cases rest with
  | nil => exact ⟨rfl, hsole⟩
  | cons b rest => exact hsole.elim

/-- Task `i` has run, and what is known of the others stays known. -/
theorem Sequential.set (h : Sequential P w.tasks) (hat : At w i a rest) (hself : Sole (P' i) todo)
    (hother : ∀ j b, j ≠ i → P j b → P' j b) : Sequential P' (w.tasks.set i todo) := by
  intro j todo' ht
  by_cases hij : i = j
  · subst hij
    rw [getElem?_set_self hat.lt] at ht
    cases ht
    exact hself
  · rw [getElem?_set_ne hij] at ht
    exact (h j todo' ht).imp fun b => hother j b (Ne.symm hij)

theorem Sequential.spawn (h : Sequential P tasks) (hnew : P' tasks.length a)
    (hother : ∀ j b, P j b → P' j b) : Sequential P' (tasks ++ [[a]]) := by
  intro j todo ht
  rcases getElem?_concat ht with ht | ⟨rfl, rfl⟩
  · exact (h j todo ht).imp fun b => hother j b
  · exact hnew

end

/-! ## Invariants of the shared state and of every pending section -/

/-- `G` holds of the shared state, and `P` of every section that is pending. -/
def Holds (G : σ → Prop) (P : σ → α → Prop) (w : World σ α) : Prop :=
  G w.shared ∧ ∀ a, Pending w a → P w.shared a

/-- **Non-interference rule.**  A step keeps `Holds` if what it starts and what it
puts in front of its task meets `P`, and if `P` is stable, for the sections that
stay pending, under what it does to the shared state. -/
theorem Holds.step {G : σ → Prop} {P : σ → α → Prop} (hw : Holds G P w)
    (h : M.step w l = some w')
    (hspawn : ∀ r, l = .spawn r → ∀ a ∈ M.start r, P w.shared a)
    (henv : ∀ e s, l = .env e → M.env w.shared e = some s →
      G s ∧ ∀ b, Pending w b → P w.shared b → P s b)
    (hok : ∀ i c a rest s next, l = .run i c → At w i a rest → P w.shared a →
      M.exec w.shared c a = .ok s next →
      G s ∧ (∀ b ∈ next, P s b) ∧
        ∀ b, Pending w b → Pending ⟨s, w.tasks.set i (next ++ rest)⟩ b → P w.shared b → P s b)
    (herr : ∀ i c a rest s e, l = .run i c → At w i a rest → P w.shared a →
      M.exec w.shared c a = .err s e → G s ∧ ∀ b, Pending w b → P w.shared b → P s b) :
    Holds G P w' := by
  obtain ⟨hG, hP⟩ := hw
  cases l with
  | spawn r =>
    cases h
    refine ⟨hG, fun b hb => ?_⟩
    rcases pending_spawn hb with hb | hb
    · exact hP b hb
    · exact hspawn r rfl b hb
  | env e =>
    obtain ⟨s, hs, rfl⟩ := step_env h
    obtain ⟨hG', hstable⟩ := henv e s rfl hs
    exact ⟨hG', fun b hb => hstable b hb (hP b hb)⟩
  | run i c =>
    obtain ⟨a, rest, hat, he | he⟩ := step_run h
    · obtain ⟨hG', hnext, hstable⟩ := hok i c a rest _ _ rfl hat (hP a hat.pending) he
      refine ⟨hG', fun b hb => ?_⟩
      rcases pending_ok hat hb with hmem | hold
      · exact hnext b hmem
      · exact hstable b hold hb (hP b hold)
    · obtain ⟨hG', hstable⟩ := herr i c a rest _ _ rfl hat (hP a hat.pending) he
      refine ⟨hG', fun b hb => ?_⟩
      have hold := pending_err hat hb
      exact hstable b hold (hP b hold)

/-! ## Counting pending sections -/

/-- The total weight of the sections that are pending. -/
def weight (f : α → Nat) (w : World σ α) : Nat := (w.tasks.map fun todo => (todo.map f).sum).sum

variable {f : α → Nat}

theorem sum_map_set {β : Type} {g : β → Nat} {l : List β} {x : β} (y : β) (h : l[i]? = some x) :
    ((l.set i y).map g).sum + g x = (l.map g).sum + g y := by
  induction l generalizing i with
  | nil => cases h
  | cons z l ih =>
    cases i with
    | zero =>
      cases h
      simp only [set_cons_zero, map_cons, sum_cons]
      omega
    | succ i =>
      have := ih (i := i) h
      simp only [set_cons_succ, map_cons, sum_cons]
      omega

theorem weight_spawn {todo : List α} :
    weight f { w with tasks := w.tasks ++ [todo] } = weight f w + (todo.map f).sum := by
  simp [weight]

theorem weight_ok {s : σ} (ha : At w i a rest) :
    weight f ⟨s, w.tasks.set i (next ++ rest)⟩ + f a = weight f w + (next.map f).sum := by
  have := sum_map_set (g := fun todo => (todo.map f).sum) (next ++ rest) ha
  simp only [map_cons, map_append, sum_cons, sum_append] at this
  simp only [weight]
  omega

theorem weight_err {s : σ} (ha : At w i a rest) :
    weight f ⟨s, w.tasks.set i (M.unwind rest)⟩ + f a ≤ weight f w := by
  have := sum_map_set (g := fun todo => (todo.map f).sum) (M.unwind rest) ha
  have hle : ((M.unwind rest).map f).sum ≤ (rest.map f).sum :=
    ((unwind_suffix rest).map f).sublist.sum_le_sum fun _ _ => Nat.zero_le _
  simp only [map_cons, sum_cons] at this
  simp only [weight]
  omega

theorem weight_eq_zero (h : ∀ b, Pending w b → f b = 0) : weight f w = 0 := by
  refine sum_eq_zero fun n hn => ?_
  obtain ⟨todo, hmem, rfl⟩ := List.mem_map.1 hn
  refine sum_eq_zero fun m hm => ?_
  obtain ⟨b, hb, rfl⟩ := List.mem_map.1 hm
  exact h b ⟨todo, hmem, hb⟩

theorem Pending.le_weight (h : Pending w b) : f b ≤ weight f w := by
  obtain ⟨todo, hmem, hb⟩ := h
  refine (le_sum_of_mem (List.mem_map_of_mem hb)).trans ?_
  exact le_sum_of_mem (List.mem_map_of_mem (f := fun todo => (todo.map f).sum) hmem)

/-! ## Sections that a failure cannot lose -/

/-- A task runs its `target` sections before any section that is not `safe`. -/
def Lead (safe target : α → Prop) (todo : List α) : Prop :=
  ∃ front back, todo = front ++ back ∧ (∀ a ∈ front, safe a) ∧ ∀ a ∈ back, ¬ target a

variable {safe target : α → Prop}

theorem Lead.of_safe {todo : List α} (h : ∀ a ∈ todo, safe a) : Lead safe target todo :=
  ⟨todo, [], by simp, h, by simp⟩

theorem Lead.of_not_target {todo : List α} (h : ∀ a ∈ todo, ¬ target a) :
    Lead safe target todo :=
  ⟨[], todo, rfl, by simp, h⟩

theorem Lead.append {front back : List α} (h : Lead safe target front)
    (hb : ∀ a ∈ back, ¬ target a) : Lead safe target (front ++ back) := by
  obtain ⟨f, b, rfl, hf, hb'⟩ := h
  refine ⟨f, b ++ back, by simp, hf, fun a ha => ?_⟩
  rcases mem_append.1 ha with ha | ha
  · exact hb' a ha
  · exact hb a ha

theorem Lead.not_target (h : Lead safe target (a :: rest)) (ha : ¬ safe a) :
    ∀ b ∈ rest, ¬ target b := by
  obtain ⟨front, back, heq, hf, hb⟩ := h
  cases front with
  | nil =>
    obtain rfl : a :: rest = back := heq
    exact fun b hm => hb b (mem_cons_of_mem a hm)
  | cons a' front =>
    cases heq
    exact absurd (hf a mem_cons_self) ha

theorem Lead.not_lost (h : Lead safe target (a :: rest)) (ha : ¬ safe a ∨ ∀ b ∈ rest, ¬ target b) :
    ∀ b ∈ rest, ¬ target b :=
  ha.elim h.not_target id

theorem Lead.step (h : Lead safe target (a :: rest)) (hnext : Lead safe target next)
    (hsafe : safe a → ∀ b ∈ next, safe b) : Lead safe target (next ++ rest) := by
  obtain ⟨front, back, heq, hf, hb⟩ := h
  cases front with
  | nil =>
    obtain rfl : a :: rest = back := heq
    exact hnext.append fun b hm => hb b (mem_cons_of_mem a hm)
  | cons a' front =>
    cases heq
    refine ⟨next ++ front, back, by simp, fun b hm => ?_, hb⟩
    rcases mem_append.1 hm with hm | hm
    · exact hsafe (hf a mem_cons_self) b hm
    · exact hf b (mem_cons_of_mem a hm)

/-- **Lead rule.**  It is kept by every step if safe sections are followed by safe
sections only, and never fail while a target is behind them. -/
theorem Lead.all_step (hw : ∀ todo ∈ w.tasks, Lead safe target todo)
    (h : M.step w l = some w')
    (hspawn : ∀ r, l = .spawn r → Lead safe target (M.start r))
    (hok : ∀ i c a rest s next, l = .run i c → At w i a rest →
      M.exec w.shared c a = .ok s next →
      Lead safe target next ∧ (safe a → ∀ b ∈ next, safe b))
    (herr : ∀ i c a rest s e, l = .run i c → At w i a rest →
      M.exec w.shared c a = .err s e → ¬ safe a ∨ ∀ b ∈ rest, ¬ target b) :
    ∀ todo ∈ w'.tasks, Lead safe target todo := by
  cases l with
  | spawn r =>
    cases h
    intro todo hmem
    rcases mem_append.1 hmem with hmem | hmem
    · exact hw todo hmem
    · rw [mem_singleton.1 hmem]
      exact hspawn r rfl
  | env e =>
    obtain ⟨s, -, rfl⟩ := step_env h
    exact hw
  | run i c =>
    intro todo hmem
    obtain ⟨a, rest, hat, he | he⟩ := step_run h
    · obtain ⟨hnext, hsafe⟩ := hok i c a rest _ _ rfl hat he
      rcases mem_set_tasks hmem with rfl | hmem
      · exact (hw _ hat.mem).step hnext hsafe
      · exact hw todo hmem
    · rcases mem_set_tasks hmem with rfl | hmem
      · refine .of_not_target fun b hb => ?_
        exact (hw _ hat.mem).not_lost (herr i c a rest _ _ rfl hat he) b
          ((unwind_suffix rest).subset hb)
      · exact hw todo hmem

/-- A target stays pending until it has run. -/
theorem Pending.survives (hw : ∀ todo ∈ w.tasks, Lead safe target todo) (h : M.step w l = some w')
    (hb : target b) (hp : Pending w b) (hrun : ∀ i c rest, l = .run i c → ¬ At w i b rest)
    (herr : ∀ i c a rest s e, l = .run i c → At w i a rest →
      M.exec w.shared c a = .err s e → ¬ safe a ∨ ∀ b ∈ rest, ¬ target b) : Pending w' b := by
  cases l with
  | spawn r =>
    cases h
    exact hp.spawn
  | env e =>
    obtain ⟨s, -, rfl⟩ := step_env h
    exact hp
  | run i c =>
    obtain ⟨a, rest, hat, @⟨s, next, he⟩ | @⟨s, e, he⟩⟩ := step_run h
    · have hor : b = a ∨ Pending ⟨s, w.tasks.set i (next ++ rest)⟩ b :=
        pending_of_pending_ok hat hp
      rcases hor with rfl | hp
      · exact absurd hat (hrun i c rest rfl)
      · exact hp
    · rcases pending_of_pending_err (M := M) (s := s) hat hp with rfl | hmem | hp
      · exact absurd hat (hrun i c rest rfl)
      · exact absurd hb ((hw _ hat.mem).not_lost (herr i c a rest _ _ rfl hat he) b hmem)
      · exact hp

/-! ## Tasks one by one -/

/-- Task `i` has still to run a section that meets `p`. -/
def Owes (w : World σ α) (i : Nat) (p : α → Prop) : Prop :=
  ∃ todo, w.tasks[i]? = some todo ∧ ∃ a ∈ todo, p a

theorem Owes.step {c : χ} (hlead : ∀ todo ∈ w.tasks, Lead safe target todo)
    (hp : ∀ a, p a → target a) (h : M.step w (.run j c) = some w')
    (herr : ∀ a rest s e, At w j a rest → M.exec w.shared c a = .err s e →
      ¬ safe a ∨ ∀ b ∈ rest, ¬ target b) (ho : Owes w i p) :
    Owes w' i p ∨ (i = j ∧ ∃ a rest, At w j a rest ∧ p a) := by
  obtain ⟨todo, htodo, b, hb, hpb⟩ := ho
  obtain ⟨a, rest, hat, hcase⟩ := step_run h
  by_cases hij : i = j
  · subst hij
    rw [hat.get] at htodo
    cases htodo
    rcases mem_cons.1 hb with rfl | hb
    · exact .inr ⟨rfl, b, rest, hat, hpb⟩
    · left
      rcases hcase with - | he
      · exact ⟨_, getElem?_set_self hat.lt, b, mem_append_right _ hb, hpb⟩
      · exact absurd (hp b hpb) ((hlead _ hat.mem).not_lost (herr a rest _ _ hat he) b hb)
  · left
    have hne : ¬ j = i := fun h => hij h.symm
    cases hcase <;>
      exact ⟨todo, by rw [getElem?_set_ne hne, htodo], b, hb, hpb⟩

theorem Owes.spawn {todo : List α} (h : Owes w i p) :
    Owes { w with tasks := w.tasks ++ [todo] } i p := by
  obtain ⟨todo, htodo, hp⟩ := h
  exact ⟨todo, getElem?_append_some htodo, hp⟩

/-- What holds of every section of every task, by the number of the task. -/
theorem forall_tasks_step {P Q : Nat → α → Prop}
    (hold : ∀ (i : Nat) todo, w.tasks[i]? = some todo → ∀ a ∈ todo, P i a)
    (hmono : ∀ i a, P i a → Q i a) (h : M.step w l = some w')
    (hspawn : ∀ r, l = .spawn r → ∀ a ∈ M.start r, Q w.tasks.length a)
    (hnext : ∀ i c a rest next, l = .run i c → At w i a rest →
      M.exec w.shared c a = .ok w'.shared next → ∀ b ∈ next, Q i b) :
    ∀ (i : Nat) todo, w'.tasks[i]? = some todo → ∀ a ∈ todo, Q i a := by
  intro i todo htodo b hb
  rcases step_tasks h htodo with ⟨-, ht⟩ | ⟨r, hl, rfl, rfl⟩ |
    ⟨c, a, rest, next, hl, hat, he, rfl⟩ | ⟨c, a, rest, e, hl, hat, he, rfl⟩
  · exact hmono i b (hold i todo ht b hb)
  · exact hspawn r hl b hb
  · rcases mem_append.1 hb with hb | hb
    · exact hnext i c a rest next hl hat he b hb
    · exact hmono i b (hold i _ hat b (mem_cons_of_mem _ hb))
  · exact hmono i b (hold i _ hat b (mem_cons_of_mem _ ((unwind_suffix rest).subset hb)))

/-- No request is in flight. -/
def Quiescent (w : World σ α) : Prop := ∀ todo ∈ w.tasks, todo = []

theorem Quiescent.not_pending (h : Quiescent w) (a : α) : ¬ Pending w a := by
  rintro ⟨todo, hmem, ha⟩
  rw [h todo hmem] at ha
  cases ha

instance : Decidable (Quiescent w) :=
  decidable_of_iff (∀ todo ∈ w.tasks, todo.isEmpty = true) (by simp [Quiescent])

end Machine

end Tansu.Lib
