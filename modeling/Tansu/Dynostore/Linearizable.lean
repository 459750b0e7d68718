import Tansu.Dynostore.OptiCon

/-!
# Writers are linearizable

Every call of `with_mut` that returns has taken effect exactly once, at the put
that succeeded, between its invocation and its return, and answers what its
closure computed on the value it replaced.  Nothing is assumed about the copies:
what carries the proof is that the content of a copy is the content of every
object with the copy's version.
-/

namespace Tansu.Dynostore

open Tansu.Lib Machine List Option System

variable {D E V B : Type}

/-! ## Histories -/

/-- A put that succeeded: whose it was, and the value that it replaced. -/
structure Commit (D E : Type) where
  task : Nat
  f : D → D × E
  before : D
  outcome : E

inductive Event (D E : Type)
  | invoked (task : Nat) (f : D → D × E)
  | committed (commit : Commit D E)
  | returned (task : Nat) (outcome : E)
  | failed (task : Nat)

def Event.commit? : Event D E → Option (Commit D E)
  | .committed commit => some commit
  | _ => none

def commits (history : List (Event D E)) : List (Commit D E) := history.filterMap Event.commit?

abbrev OptiWorld (D E V B : Type) := World (Shared D V B) (Section D E V)
abbrev OptiLabel (D E V : Type) := Label (Request D E) (Choice V) Empty

/-- The task has run all its sections. -/
def ended (w : OptiWorld D E V B) (i : Nat) : Bool := (w.tasks[i]?).any (·.isEmpty)

variable [Inhabited D]

/-- The value that a path holds; `D::default()` while there is no object. -/
def Store.value (codec : Codec D B) (s : Store V B) : D :=
  match s.current with
  | none => default
  | some object => (codec.decode object.payload).getD default

/-- What a section of task `i` adds to the history. -/
def events (codec : Codec D B) (w : OptiWorld D E V B) (i : Nat) (w' : OptiWorld D E V B) :
    List (Event D E) :=
  match w.tasks[i]? with
  | some (.put _ f _ _ outcome :: _) =>
    if w.shared.store.objects.length < w'.shared.store.objects.length then
      [.committed ⟨i, f, w.shared.store.value codec, outcome⟩]
    else if ended w' i then [.failed i] else []
  | some (.get .. :: _) => if ended w' i then [.failed i] else []
  | some (.store _ _ outcome :: _) => [.returned i outcome]
  | _ => []

def observe (codec : Codec D B) (history : List (Event D E)) (w : OptiWorld D E V B)
    (l : OptiLabel D E V) (w' : OptiWorld D E V B) : List (Event D E) :=
  match l with
  | .spawn (.withMut _ f) => history ++ [.invoked w.tasks.length f]
  | .run i _ => history ++ events codec w i w'
  | _ => history

/-- The callers with their history. -/
def system [DecidableEq V] [DecidableEq B] (codec : Codec D B) :
    System (OptiWorld D E V B × List (Event D E)) (OptiLabel D E V) :=
  (machine codec).system.observe (observe codec)

/-- The path holds an object or none, and every copy is empty. -/
def initially (initial : Option (Object V B)) : OptiWorld D E V B × List (Event D E) :=
  (⟨{ store := ⟨initial.toList⟩ }, []⟩, [])

/-! ## The sequential specification -/

/-- One after another, every commit finds the value that the one before it left
and answers what its closure computes on it. -/
def Legal : D → List (Commit D E) → Prop
  | _, [] => True
  | d, c :: cs => c.before = d ∧ c.outcome = (c.f d).2 ∧ Legal (c.f d).1 cs

/-- The value that a sequence of commits leaves. -/
def final (d : D) (cs : List (Commit D E)) : D := cs.foldl (fun d c => (c.f d).1) d

/-- The calls of a run, in the order of their commits, are a run of the
sequential specification that respects real time. -/
structure Linearized (codec : Codec D B) (initial : Option (Object V B))
    (p : OptiWorld D E V B × List (Event D E)) : Prop where
  legal : Legal (Store.value codec ⟨initial.toList⟩) (commits p.2)
  /-- The objects the path has held since are those the commits wrote. -/
  stored : p.1.shared.store.objects.map (·.payload) =
    ((commits p.2).map fun c => codec.encode (c.f c.before).1).reverse ++
      initial.toList.map (·.payload)
  /-- A commit runs the closure of a call that was made before it. -/
  invoked : ∀ past later c, p.2 = past ++ .committed c :: later → .invoked c.task c.f ∈ past
  /-- No call commits before it is made. -/
  fresh : ∀ past later i f, p.2 = past ++ .invoked i f :: later → ∀ c ∈ commits past, c.task ≠ i
  /-- No call commits twice. -/
  once : ∀ past later c, p.2 = past ++ .committed c :: later → ∀ c' ∈ commits past, c'.task ≠ c.task
  /-- A call that returns has committed, with the outcome that it returns. -/
  returned : ∀ past later i outcome, p.2 = past ++ .returned i outcome :: later →
    ∃ c ∈ commits past, c.task = i ∧ c.outcome = outcome
  /-- A call that fails has not committed and never does. -/
  failed : ∀ i, .failed i ∈ p.2 → ∀ c ∈ commits p.2, c.task ≠ i

omit [Inhabited D] in
theorem commits_append (h h' : List (Event D E)) : commits (h ++ h') = commits h ++ commits h' :=
  filterMap_append

variable {d : D} {cs : List (Commit D E)} {c : Commit D E}

omit [Inhabited D] in
theorem legal_append (h : Legal d cs) (hb : c.before = final d cs)
    (ho : c.outcome = (c.f (final d cs)).2) : Legal d (cs ++ [c]) := by
  induction cs generalizing d with
  | nil => exact ⟨hb, ho, trivial⟩
  | cons c' cs ih =>
    obtain ⟨hb', ho', hl⟩ := h
    exact ⟨hb', ho', ih hl hb ho⟩

omit [Inhabited D] in
theorem final_append : final d (cs ++ [c]) = (c.f (final d cs)).1 := by
  simp [final]

omit [Inhabited D] in
theorem legal_before (h : Legal d (cs ++ [c])) : c.before = final d cs := by
  induction cs generalizing d with
  | nil => exact h.1
  | cons c' cs ih => exact ih h.2.2

/-- The value is read from the content of the newest object. -/
theorem value_eq (codec : Codec D B) (s : Store V B) : s.value codec =
    ((s.objects.map (·.payload)).head?).elim default fun b => (codec.decode b).getD default := by
  rcases s with ⟨_ | ⟨o, objects⟩⟩ <;> rfl

section Invariant

variable {codec : Codec D B} {initial : Option (Object V B)} {w w' : OptiWorld D E V B}
  {history : List (Event D E)} {objects : List (Object V B)} {i : Nat} {f : D → D × E}
  {c : Choice V} {l : OptiLabel D E V} {p : OptiWorld D E V B × List (Event D E)}
  {dv : DataVersion D V} {object : Object V B} {store : Store V B}

theorem Linearized.value (h : Linearized codec initial p) :
    p.1.shared.store.value codec = final (Store.value codec ⟨initial.toList⟩) (commits p.2) := by
  have hlegal := h.legal
  have hstored := h.stored
  rcases eq_nil_or_concat (commits p.2) with hc | ⟨cs, c, hc⟩
  · rw [hc] at hstored ⊢
    rw [value_eq, hstored, value_eq]
    rfl
  · rw [concat_eq_append] at hc
    rw [hc] at hlegal hstored ⊢
    rw [value_eq, hstored, final_append, ← legal_before hlegal]
    simp [codec.decode_encode]

/-! ## The invariant -/

/-- The copy was read from, or written as, an object of the path. -/
def Known (codec : Codec D B) (objects : List (Object V B)) (dv : DataVersion D V) : Prop :=
  ∃ o ∈ objects, dv.version = some o.version ∧ codec.decode o.payload = some dv.data

/-- What a put carries is what the closure makes of the copy that its mode names. -/
def Computed (codec : Codec D B) (objects : List (Object V B)) (f : D → D × E) (data : D)
    (outcome : E) : PutMode V → Prop
  | .create => f default = (data, outcome)
  | .update version => ∃ o ∈ objects, o.version = version ∧
      ∃ d, codec.decode o.payload = some d ∧ f d = (data, outcome)

/-- The call has been made and has not committed. -/
def Open (history : List (Event D E)) (i : Nat) (f : D → D × E) : Prop :=
  .invoked i f ∈ history ∧ ∀ c ∈ commits history, c.task ≠ i

/-- What is known of a task by the section it is at. -/
def Phase (codec : Codec D B) (objects : List (Object V B)) (history : List (Event D E))
    (i : Nat) : List (Section D E V) → Prop
  | [] => True
  | [.apply _ f] | [.get _ f] => Open history i f
  | [.refresh _ f dv] => Open history i f ∧ ∀ dv', dv = some dv' → Known codec objects dv'
  | [.put _ f mode data outcome] => Open history i f ∧ Computed codec objects f data outcome mode
  | [.store _ dv outcome] =>
    Known codec objects dv ∧ ∃ c ∈ commits history, c.task = i ∧ c.outcome = outcome
  | [.version _] | [.getOpts ..] => True
  | [.replace _ dv] => ∀ dv', dv = some dv' → Known codec objects dv'
  | _ => False

structure Inv (codec : Codec D B) (initial : Option (Object V B))
    (p : OptiWorld D E V B × List (Event D E)) : Prop where
  /-- A version names one content. -/
  functional : ∀ o ∈ p.1.shared.store.objects, ∀ o' ∈ p.1.shared.store.objects,
    o.version = o'.version → o.payload = o'.payload
  cells : ∀ cell dv, p.1.shared.cells cell = some dv →
    Known codec p.1.shared.store.objects dv
  phases : ∀ (i : Nat) todo, p.1.tasks[i]? = some todo →
    Phase codec p.1.shared.store.objects p.2 i todo
  bounded : ∀ c ∈ commits p.2, c.task < p.1.tasks.length
  failing : ∀ i, .failed i ∈ p.2 → p.1.tasks[i]? = some []
  linearized : Linearized codec initial p

variable {objects' : List (Object V B)} {mode : PutMode V} {data : D} {outcome : E}
  {more : List (Event D E)} {todo rest : List (Section D E V)} {a : Section D E V}
  {s : Shared D V B} {cell : Nat}

omit [Inhabited D] in
theorem Known.mono (h : Known codec objects dv) (hsub : objects ⊆ objects') :
    Known codec objects' dv := by
  obtain ⟨o, ho, hv⟩ := h
  exact ⟨o, hsub ho, hv⟩

theorem Computed.mono (h : Computed codec objects f data outcome mode) (hsub : objects ⊆ objects') :
    Computed codec objects' f data outcome mode := by
  cases mode with
  | create => exact h
  | update version =>
    obtain ⟨o, ho, hv⟩ := h
    exact ⟨o, hsub ho, hv⟩

omit [Inhabited D] in
theorem Open.append (h : Open history i f) (hmore : ∀ c ∈ commits more, c.task ≠ i) :
    Open (history ++ more) i f := by
  refine ⟨mem_append_left _ h.1, fun c hc => ?_⟩
  rw [commits_append] at hc
  rcases mem_append.1 hc with hc | hc
  · exact h.2 c hc
  · exact hmore c hc

/-- What is known of a task stays known while others run. -/
theorem Phase.mono (h : Phase codec objects history i todo) (hsub : objects ⊆ objects')
    (hmore : ∀ c ∈ commits more, c.task ≠ i) : Phase codec objects' (history ++ more) i todo := by
  rcases todo with _ | ⟨a, _ | ⟨b, rest⟩⟩
  · trivial
  · cases a with
    | apply | get => exact Open.append h hmore
    | put => exact ⟨h.1.append hmore, h.2.mono hsub⟩
    | refresh => exact ⟨h.1.append hmore, fun dv' hdv => (h.2 dv' hdv).mono hsub⟩
    | store =>
      obtain ⟨hk, c, hc, ht⟩ := h
      exact ⟨hk.mono hsub, c, by rw [commits_append]; exact mem_append_left _ hc, ht⟩
    | version | getOpts => trivial
    | replace => exact fun dv' hdv => (h dv' hdv).mono hsub
  · cases a <;> exact h

/-! ## One more event -/

/-- What a put that succeeds has to be. -/
structure Commits (codec : Codec D B) (w : OptiWorld D E V B) (history : List (Event D E))
    (c : Commit D E) : Prop where
  before : c.before = w.shared.store.value codec
  outcome : c.outcome = (c.f c.before).2
  isOpen : Open history c.task c.f
  unfailed : .failed c.task ∉ history

theorem Linearized.push {ev : Event D E} (h : Linearized codec initial (w, history))
    (hcommitted : ∀ c, ev = .committed c → Commits codec w history c)
    (hinvoked : ∀ i f, ev = .invoked i f → ∀ c ∈ commits history, c.task ≠ i)
    (hreturned : ∀ i outcome, ev = .returned i outcome →
      ∃ c ∈ commits history, c.task = i ∧ c.outcome = outcome)
    (hfailed : ∀ i, ev = .failed i → ∀ c ∈ commits history, c.task ≠ i)
    (hobjects : w'.shared.store.objects.map (·.payload) =
      (commits [ev]).map (fun c => codec.encode (c.f c.before).1) ++
        w.shared.store.objects.map (·.payload)) :
    Linearized codec initial (w', history ++ [ev]) := by
  have hcommits : commits (history ++ [ev]) = commits history ++ commits [ev] :=
    commits_append history [ev]
  have hnew {c : Commit D E} (hc : c ∈ commits [ev]) : ev = .committed c := by
    cases ev with
    | committed c' =>
      rw [mem_singleton.1 hc]
    | invoked | returned | failed => cases hc
  refine ⟨?_, ?_, ?_, ?_, ?_, ?_, ?_⟩
  · dsimp only
    rw [hcommits]
    cases ev with
    | committed c =>
      have hc := hcommitted c rfl
      have hvalue : c.before = final (Store.value codec ⟨initial.toList⟩) (commits history) :=
        hc.before.trans h.value
      exact legal_append h.legal hvalue (hvalue ▸ hc.outcome)
    | invoked | returned | failed =>
      rw [show commits [_] = [] from rfl, append_nil]
      exact h.legal
  · dsimp only
    rw [hobjects, hcommits, h.stored, map_append, reverse_append, append_assoc]
    cases ev <;> rfl
  · intro past later c hsplit
    rcases split_concat hsplit with ⟨later', hold⟩ | ⟨rfl, hev⟩
    · exact h.invoked past later' c hold
    · exact (hcommitted c hev.symm).isOpen.1
  · intro past later i f hsplit
    rcases split_concat hsplit with ⟨later', hold⟩ | ⟨rfl, hev⟩
    · exact h.fresh past later' i f hold
    · exact hinvoked i f hev.symm
  · intro past later c hsplit
    rcases split_concat hsplit with ⟨later', hold⟩ | ⟨rfl, hev⟩
    · exact h.once past later' c hold
    · exact (hcommitted c hev.symm).isOpen.2
  · intro past later i outcome hsplit
    rcases split_concat hsplit with ⟨later', hold⟩ | ⟨rfl, hev⟩
    · exact h.returned past later' i outcome hold
    · exact hreturned i outcome hev.symm
  · intro i hi c hc heq
    dsimp only at hi hc
    rw [hcommits] at hc
    rcases mem_append.1 hi with hi | hi
    · rcases mem_append.1 hc with hc | hc
      · exact h.failed i hi c hc heq
      · exact (hcommitted c (hnew hc)).unfailed (heq ▸ hi)
    · have hev := (mem_singleton.1 hi).symm
      rcases mem_append.1 hc with hc | hc
      · exact hfailed i hev c hc heq
      · cases hev.symm.trans (hnew hc)

theorem Linearized.congr (h : Linearized codec initial (w, history))
    (hobjects : w'.shared.store.objects = w.shared.store.objects) :
    Linearized codec initial (w', history) :=
  ⟨h.legal, by rw [hobjects]; exact h.stored, h.invoked, h.fresh, h.once, h.returned, h.failed⟩

/-! ## Every step -/

section

variable (hi : Inv codec initial (w, history)) (hat : At w i a rest)
include hi hat

theorem Inv.unfailed : .failed i ∉ history := by
  intro hf
  have := hi.failing i hf
  rw [hat.get] at this
  cases this

/-- Task `i` ran a section: what has to hold of its result. -/
theorem Inv.ran (hlin : Linearized codec initial (⟨s, w.tasks.set i todo⟩, history ++ more))
    (hfun : ∀ o ∈ s.store.objects, ∀ o' ∈ s.store.objects,
      o.version = o'.version → o.payload = o'.payload)
    (hsub : w.shared.store.objects ⊆ s.store.objects)
    (hcells : ∀ cell dv, s.cells cell = some dv → Known codec s.store.objects dv)
    (hphase : Phase codec s.store.objects (history ++ more) i todo)
    (hmore : ∀ c ∈ commits more, c.task = i) (hfail : ∀ j, .failed j ∈ more → j = i ∧ todo = []) :
    Inv codec initial (⟨s, w.tasks.set i todo⟩, history ++ more) := by
  refine ⟨hfun, hcells, fun j todo' ht => ?_, fun c hc => ?_, fun j hj => ?_, hlin⟩
  · dsimp only at ht
    by_cases hij : i = j
    · subst hij
      rw [getElem?_set_self hat.lt] at ht
      cases ht
      exact hphase
    · rw [getElem?_set_ne hij] at ht
      exact (hi.phases j todo' ht).mono hsub fun c hc heq => hij ((hmore c hc).symm.trans heq)
  · dsimp only at hc ⊢
    rw [length_set]
    rw [commits_append] at hc
    rcases mem_append.1 hc with hc | hc
    · exact hi.bounded c hc
    · exact hmore c hc ▸ hat.lt
  · dsimp only at hj ⊢
    rcases mem_append.1 hj with hj | hj
    · have hij : i ≠ j := fun heq => hi.unfailed hat (heq ▸ hj)
      rw [getElem?_set_ne hij]
      exact hi.failing j hj
    · obtain ⟨rfl, rfl⟩ := hfail j hj
      exact getElem?_set_self hat.lt

theorem Inv.quiet (hstore : s.store = w.shared.store)
    (hcells : ∀ cell dv, s.cells cell = some dv → Known codec w.shared.store.objects dv)
    (hphase : Phase codec w.shared.store.objects history i todo) :
    Inv codec initial (⟨s, w.tasks.set i todo⟩, history) := by
  have key : Inv codec initial (⟨s, w.tasks.set i todo⟩, history ++ []) := by
    refine hi.ran hat ?_ ?_ ?_ ?_ ?_ nofun nofun
    · rw [append_nil]
      exact hi.linearized.congr (by rw [hstore])
    · rw [hstore]
      exact hi.functional
    · rw [hstore]
      exact fun o ho => ho
    · rw [hstore]
      exact hcells
    · rw [hstore, append_nil]
      exact hphase
  rwa [append_nil] at key

theorem Inv.fail (hopen : Open history i f) :
    Inv codec initial (⟨w.shared, w.tasks.set i []⟩, history ++ [.failed i]) := by
  refine hi.ran hat ?_ hi.functional (fun o ho => ho) hi.cells trivial nofun ?_
  · refine hi.linearized.push nofun nofun nofun (fun j hj => ?_) rfl
    cases hj
    exact hopen.2
  · intro j hj
    cases mem_singleton.1 hj
    exact ⟨rfl, rfl⟩

end

omit [Inhabited D] in
theorem known_setCell {dv : Option (DataVersion D V)}
    (hcells : ∀ cell dv, s.cells cell = some dv → Known codec objects dv)
    (hdv : ∀ dv', dv = some dv' → Known codec objects dv') :
    ∀ cell' dv', (s.setCell cell dv).cells cell' = some dv' → Known codec objects dv' := by
  intro cell' dv' h
  change Function.update s.cells cell dv cell' = some dv' at h
  by_cases hc : cell' = cell
  · subst hc
    rw [Function.update_self] at h
    exact hdv dv' h
  · rw [Function.update_of_ne hc] at h
    exact hcells cell' dv' h

omit [Inhabited D] in
theorem known_fetched (hmem : object ∈ objects) (h : fetched codec object = some dv) :
    Known codec objects dv := by
  obtain ⟨data, hdata, rfl⟩ := map_eq_some_iff.1 h
  exact ⟨object, hmem, rfl, hdata⟩

variable [DecidableEq V] [DecidableEq B]

section

variable
  (hfun : ∀ o ∈ store.objects, ∀ o' ∈ store.objects, o.version = o'.version →
    o.payload = o'.payload)
include hfun

omit [DecidableEq B] in
/-- A put whose condition holds replaces the value its closure was run on: the
object it compares with is the one the copy was taken from, or has its content. -/
theorem value_of_verdict (hcomp : Computed codec store.objects f data outcome mode)
    (h : store.verdict mode = none) : f (store.value codec) = (data, outcome) := by
  obtain ⟨objects⟩ := store
  cases mode with
  | create =>
    cases objects with
    | nil => exact hcomp
    | cons o objects => simp [Store.verdict, Store.current] at h
  | update version =>
    cases objects with
    | nil => simp [Store.verdict, Store.current] at h
    | cons o objects =>
      obtain ⟨o', ho', hv', d, hd, hf⟩ := hcomp
      have hv : o.version = version := by
        by_contra hne
        simp [Store.verdict, Store.current, hne] at h
      have hpayload := hfun o mem_cons_self o' ho' (hv.trans hv'.symm)
      have hvalue : Store.value codec ⟨o :: objects⟩ = d := by
        simp [Store.value, Store.current, hpayload, hd]
      rw [hvalue, hf]

/-- The version that a new object is given names its content only. -/
theorem functional_put (h : store.admits object.version object.payload = true) :
    ∀ o ∈ (store.put object).objects, ∀ o' ∈ (store.put object).objects,
      o.version = o'.version → o.payload = o'.payload := by
  have hadmits : ∀ o ∈ store.objects, o.version = object.version → o.payload = object.payload :=
    fun o ho => of_decide_eq_true (List.all_eq_true.1 h o ho)
  intro o ho o' ho' hv
  rcases mem_cons.1 ho with heq | hold
  · subst heq
    rcases mem_cons.1 ho' with heq | hold'
    · rw [heq]
    · exact (hadmits o' hold' hv.symm).symm
  · rcases mem_cons.1 ho' with heq | hold'
    · subst heq
      exact hadmits o hold hv
    · exact hfun o hold o' hold' hv

end

section

variable (hi : Inv codec initial (w, history))
include hi

theorem Inv.put (hat : At w i (.put cell f mode data outcome) [])
    (h : (machine codec).step w (.run i c) = some w') :
    Inv codec initial (w', history ++ events codec w i w') := by
  obtain ⟨hopen, hcomp⟩ := hi.phases i _ hat
  obtain ⟨a, rest, hat', hcase⟩ := step_run h
  obtain ⟨rfl, rfl⟩ := hat.eq hat'
  have hev : events codec w i w' =
      if w.shared.store.objects.length < w'.shared.store.objects.length then
        [.committed ⟨i, f, w.shared.store.value codec, outcome⟩]
      else if ended w' i then [.failed i] else [] := by
    simp only [events, hat.get]
  rcases hcase with he | he
  · simp only [machine, exec, Dynostore.put] at he
    split at he
    · cases he
    · split at he
      · -- The race is lost.
        cases he
        have hnone : events codec w i ⟨w.shared, w.tasks.set i [.get cell f]⟩ = [] := by
          simpa [ended, getElem?_set_self hat.lt] using hev
        rw [append_nil, hnone, append_nil]
        exact hi.quiet hat rfl hi.cells hopen
      · next hverdict =>
        split at he
        · next hadmits =>
          cases he
          -- the version has not moved, so `f` ran on the value that is replaced
          have hvalue : f (w.shared.store.value codec) = (data, outcome) :=
            value_of_verdict hi.functional hcomp hverdict
          rw [hev, if_pos (by simp [Store.put])]
          have hnew : Known codec (w.shared.store.put ⟨c.version, codec.encode data⟩).objects
              ⟨data, some c.version⟩ :=
            ⟨_, mem_cons_self, rfl, codec.decode_encode data⟩
          have hsub : w.shared.store.objects ⊆
              (w.shared.store.put ⟨c.version, codec.encode data⟩).objects :=
            fun o ho => mem_cons_of_mem _ ho
          refine hi.ran hat ?_ (functional_put hi.functional hadmits) hsub
            (fun cell' dv hdv => (hi.cells cell' dv hdv).mono hsub) ⟨hnew, ?_⟩ ?_ ?_
          · refine hi.linearized.push (fun c' hc' => ?_) (by simp) (by simp) (by simp) ?_
            · cases hc'
              exact ⟨rfl, (congrArg Prod.snd hvalue).symm, hopen, hi.unfailed hat⟩
            · simp [commits, Event.commit?, Store.put, hvalue]
          · exact ⟨⟨i, f, w.shared.store.value codec, outcome⟩, by simp [commits, Event.commit?],
              rfl, rfl⟩
          · simp [commits, Event.commit?]
          · simp
        · cases he
  · simp only [machine, exec, Dynostore.put] at he
    split at he
    · cases he
      have hfail : events codec w i ⟨w.shared, w.tasks.set i []⟩ = [.failed i] := by
        simpa [ended, getElem?_set_self hat.lt, unwind] using hev
      rw [show (machine codec).unwind [] = ([] : List (Section D E V)) from rfl, hfail]
      exact hi.fail hat hopen
    · split at he
      · cases he
      · split at he <;> cases he

theorem Inv.get (hat : At w i (.get cell f) []) (h : (machine codec).step w (.run i c) = some w') :
    Inv codec initial (w', history ++ events codec w i w') := by
  have hopen : Open history i f := hi.phases i _ hat
  obtain ⟨a, rest, hat', hcase⟩ := step_run h
  obtain ⟨rfl, rfl⟩ := hat.eq hat'
  have hrefresh {dv : Option (DataVersion D V)}
      (hdv : ∀ dv', dv = some dv' → Known codec w.shared.store.objects dv') :
      Inv codec initial (⟨w.shared, w.tasks.set i ([.refresh cell f dv] ++ [])⟩,
        history ++ events codec w i ⟨w.shared, w.tasks.set i ([.refresh cell f dv] ++ [])⟩) := by
    have hnone : events codec w i ⟨w.shared, w.tasks.set i ([.refresh cell f dv] ++ [])⟩ = [] := by
      simp [events, hat.get, ended, getElem?_set_self hat.lt]
    have hphase : Phase codec w.shared.store.objects history i [.refresh cell f dv] := ⟨hopen, hdv⟩
    rw [hnone, append_nil, append_nil]
    exact hi.quiet hat rfl hi.cells hphase
  have hfail : Inv codec initial (⟨w.shared, w.tasks.set i []⟩,
      history ++ events codec w i ⟨w.shared, w.tasks.set i []⟩) := by
    have hfailed : events codec w i ⟨w.shared, w.tasks.set i []⟩ = [.failed i] := by
      simp [events, hat.get, ended, getElem?_set_self hat.lt]
    rw [hfailed]
    exact hi.fail hat hopen
  rcases hcase with he | he
  · simp only [machine, exec, Dynostore.get] at he
    split at he
    · cases he
    · split at he
      · cases he
        exact hrefresh (by simp)
      · next object hcur =>
        split at he
        · cases he
        · next dv hdv =>
          cases he
          refine hrefresh fun dv' heq => ?_
          cases heq
          exact known_fetched (mem_of_head? hcur) hdv
  · simp only [machine, exec, Dynostore.get] at he
    split at he
    · cases he
      exact hfail
    · split at he
      · cases he
      · split at he
        · cases he
          exact hfail
        · cases he

theorem Inv.getOpts {ifNoneMatch : Option V} (hat : At w i (.getOpts cell ifNoneMatch) [])
    (h : (machine codec).step w (.run i c) = some w') :
    Inv codec initial (w', history ++ events codec w i w') := by
  have hev : events codec w i w' = [] := by
    simp only [events, hat.get]
  rw [hev, append_nil]
  obtain ⟨a, rest, hat', hcase⟩ := step_run h
  obtain ⟨rfl, rfl⟩ := hat.eq hat'
  rcases hcase with he | @⟨s, e, he⟩
  · simp only [machine, exec, Dynostore.getOpts] at he
    split at he
    · cases he
    · split at he
      · cases he
        exact hi.quiet hat rfl hi.cells fun dv' heq => by cases heq
      · next object hcur =>
        split at he
        · cases he
          exact hi.quiet hat rfl hi.cells trivial
        · split at he
          · cases he
          · next dv hdv =>
            cases he
            refine hi.quiet hat rfl hi.cells fun dv' heq => ?_
            cases heq
            exact known_fetched (mem_of_head? hcur) hdv
  · have hs : s = w.shared := by
      simp only [machine, exec, Dynostore.getOpts] at he
      split at he
      · cases he; rfl
      · split at he
        · cases he
        · split at he
          · cases he
          · split at he
            · cases he; rfl
            · cases he
    subst hs
    exact hi.quiet hat rfl hi.cells trivial

omit [DecidableEq V] [DecidableEq B] in
/-- The copy that a call starts from, with the mode that goes with it. -/
theorem computed_apply :
    Computed codec w.shared.store.objects f
      (f ((w.shared.cells cell).getD ⟨default, none⟩).data).1
      (f ((w.shared.cells cell).getD ⟨default, none⟩).data).2
      ((w.shared.cells cell).getD ⟨default, none⟩).mode := by
  cases hcell : w.shared.cells cell with
  | none => rfl
  | some dv =>
    obtain ⟨o, ho, hv, hd⟩ := hi.cells cell dv hcell
    rw [getD_some, DataVersion.mode, hv]
    exact ⟨o, ho, rfl, dv.data, hd, rfl⟩

theorem Inv.run (h : (machine codec).step w (.run i c) = some w') :
    Inv codec initial (w', history ++ events codec w i w') := by
  obtain ⟨a, rest, hat, hcase⟩ := step_run h
  have hphase := hi.phases i _ hat
  -- A task is never more than one section long.
  obtain rfl : rest = [] := by
    cases rest with
    | nil => rfl
    | cons b rest => cases a <;> exact hphase.elim
  have silent (hev : events codec w i w' = []) (hinv : Inv codec initial (w', history)) :
      Inv codec initial (w', history ++ events codec w i w') := by
    rw [hev, append_nil]
    exact hinv
  cases a with
  | put cell f mode data outcome => exact hi.put hat h
  | get cell f => exact hi.get hat h
  | getOpts cell ifNoneMatch => exact hi.getOpts hat h
  | apply cell f =>
    refine silent (by simp only [events, hat.get]) ?_
    rcases hcase with he | he <;> cases he
    exact hi.quiet hat rfl hi.cells ⟨hphase, computed_apply hi⟩
  | refresh cell f dv =>
    refine silent (by simp only [events, hat.get]) ?_
    rcases hcase with he | he <;> cases he
    exact hi.quiet hat rfl (known_setCell hi.cells hphase.2) hphase.1
  | version cell =>
    refine silent (by simp only [events, hat.get]) ?_
    rcases hcase with he | he <;> cases he
    exact hi.quiet hat rfl hi.cells trivial
  | replace cell dv =>
    refine silent (by simp only [events, hat.get]) ?_
    rcases hcase with he | he <;> cases he
    exact hi.quiet hat rfl (known_setCell hi.cells hphase) trivial
  | store cell dv outcome =>
    have hev : events codec w i w' = [.returned i outcome] := by
      simp only [events, hat.get]
    rw [hev]
    obtain ⟨hknown, c', hc', htask, hout⟩ := hphase
    rcases hcase with he | he <;> cases he
    refine hi.ran hat ?_ hi.functional (fun o ho => ho)
      (known_setCell hi.cells fun dv' heq => by cases heq; exact hknown) trivial nofun (by simp)
    refine hi.linearized.push nofun nofun (fun j out heq => ?_) nofun rfl
    cases heq
    exact ⟨c', hc', htask, hout⟩

theorem Inv.spawn {r : Request D E} (h : (machine codec).step w (.spawn r) = some w') :
    Inv codec initial (w', observe codec history w (.spawn r) w') := by
  cases h
  have hold (more : List (Event D E)) (hmore : commits more = [])
      (hlin : Linearized codec initial
        (⟨w.shared, w.tasks ++ [(machine codec).start r]⟩, history ++ more))
      (hnew : Phase codec w.shared.store.objects (history ++ more) w.tasks.length
        ((machine codec).start r))
      (hfail : ∀ j, .failed j ∉ more) :
      Inv codec initial (⟨w.shared, w.tasks ++ [(machine codec).start r]⟩, history ++ more) := by
    refine ⟨hi.functional, hi.cells, fun j todo ht => ?_, fun c hc => ?_, fun j hj => ?_, hlin⟩
    · rcases getElem?_concat ht with ht | ⟨rfl, rfl⟩
      · exact (hi.phases j todo ht).mono (fun o ho => ho) (by simp [hmore])
      · exact hnew
    · dsimp only at hc ⊢
      rw [commits_append, hmore, append_nil] at hc
      rw [length_append]
      have := hi.bounded c hc
      dsimp only at this
      omega
    · dsimp only at hj ⊢
      rcases mem_append.1 hj with hj | hj
      · exact getElem?_append_some (hi.failing j hj)
      · exact absurd hj (hfail j)
  cases r with
  | withMut cell f =>
    refine hold [.invoked w.tasks.length f] rfl ?_ ?_ (by simp)
    · refine hi.linearized.push nofun (fun i' f' heq c hc => ?_) nofun nofun rfl
      cases heq
      exact Nat.ne_of_lt (hi.bounded c hc)
    · exact ⟨by simp, fun c hc => by
        rw [commits_append] at hc
        rcases mem_append.1 hc with hc | hc
        · exact Nat.ne_of_lt (hi.bounded c hc)
        · cases hc⟩
  | read cell =>
    have key := hold [] rfl (by
      rw [append_nil]
      exact hi.linearized.congr rfl) trivial (by simp)
    rw [append_nil] at key
    exact key

end

theorem Inv.step (hi : Inv codec initial (w, history)) (hs : (machine codec).step w l = some w') :
    Inv codec initial (w', observe codec history w l w') := by
  cases l with
  | spawn r => exact hi.spawn hs
  | run i c => exact hi.run hs
  | env e => cases e

omit [DecidableEq V] [DecidableEq B] in
theorem inv_initially : Inv codec initial (initially initial : OptiWorld D E V B × _) := by
  -- Nothing has happened yet, so the history cannot be split at an event.
  have hnone {past later : List (Event D E)} {ev : Event D E} : [] ≠ past ++ ev :: later := by
    simp
  refine ⟨?_, nofun, by simp [initially], nofun, nofun, ?_⟩
  · intro o ho o' ho' _
    rw [mem_toList.1 ho |> mem_unique <| mem_toList.1 ho']
  · constructor
    · exact trivial
    · rfl
    · exact fun _ _ _ h => absurd h hnone
    · exact fun _ _ _ _ h => absurd h hnone
    · exact fun _ _ _ h => absurd h hnone
    · exact fun _ _ _ _ h => absurd h hnone
    · exact nofun

end Invariant

/-! ## Linearizability -/

/-- A call that returned before another one was made has committed before it. -/
def RealTime (history : List (Event D E)) : Prop :=
  ∀ past between later i outcome j f, ∀ ci ∈ commits history, ∀ cj ∈ commits history,
    history = past ++ .returned i outcome :: (between ++ .invoked j f :: later) →
    ci.task = i → cj.task = j → ∃ a b c, commits history = a ++ ci :: (b ++ cj :: c)

omit [Inhabited D] in
theorem mem_commits {history : List (Event D E)} :
    c ∈ commits history ↔ .committed c ∈ history := by
  simp only [commits, List.mem_filterMap]
  constructor
  · rintro ⟨ev, hev, heq⟩
    cases ev <;> cases heq
    exact hev
  · exact fun h => ⟨_, h, rfl⟩

theorem Linearized.realTime {codec : Codec D B} {initial : Option (Object V B)}
    {p : OptiWorld D E V B × List (Event D E)} (h : Linearized codec initial p) : RealTime p.2 := by
  intro past between later i outcome j f ci hci cj hcj hsplit hi hj
  obtain ⟨c, hc, htask, -⟩ := h.returned past _ i outcome hsplit
  -- The commit of `i` that the return speaks of is its only one.
  have hbefore : ci ∈ commits past := by
    rw [hsplit, commits_append] at hci
    rcases mem_append.1 hci with hci | hci
    · exact hci
    · obtain ⟨a, b, hab⟩ := append_of_mem (mem_commits.1 hci)
      have hfirst : c ∈ commits (past ++ a) := by
        rw [commits_append]
        exact mem_append_left _ hc
      have hne := h.once (past ++ a) b ci (by rw [hsplit, hab, append_assoc]) c hfirst
      exact absurd (htask.trans hi.symm) hne
  have hafter : cj ∈ commits later := by
    have hsplit' : p.2 = (past ++ .returned i outcome :: between) ++ .invoked j f :: later := by
      rw [hsplit, append_assoc, cons_append]
    rw [hsplit', commits_append] at hcj
    rcases mem_append.1 hcj with hcj | hcj
    · exact absurd hj (h.fresh _ later j f hsplit' cj hcj)
    · exact hcj
  obtain ⟨a, b, hab⟩ := append_of_mem hbefore
  obtain ⟨a', b', hab'⟩ := append_of_mem hafter
  refine ⟨a, b ++ (commits between ++ a'), b', ?_⟩
  have htail : commits (.returned i outcome :: (between ++ .invoked j f :: later)) =
      commits between ++ commits later := commits_append between _
  rw [hsplit, commits_append, htail, hab, hab']
  simp only [append_assoc, cons_append]

variable [DecidableEq V] [DecidableEq B]

/-- **Writers are linearizable.**  Whatever the copies hold, the commits of a run
form a sequential run from the initial value, each call that has returned is one
of them exactly once, and their order respects real time. -/
theorem withMut_linearizable {codec : Codec D B} {initial : Option (Object V B)}
    {p : OptiWorld D E V B × List (Event D E)}
    (h : (system codec).Reach (fun _ _ => True) (initially initial) p) :
    Linearized codec initial p ∧ RealTime p.2 := by
  have hi : Inv codec initial p := h.invariant_observe inv_initially fun hi _ hs => hi.step hs
  exact ⟨hi.linearized, hi.linearized.realTime⟩

/-- Two callers on copies of their own race for an absent object; the one that
loses reads the object and adds to it. -/
def raceRun : List (OptiLabel Nat Nat Nat) :=
  let add : Nat → Nat × Nat := fun n => (n + 1, n)
  [.spawn (.withMut 0 add), .spawn (.withMut 1 add), .run 0 ⟨7, false⟩, .run 1 ⟨7, false⟩,
    .run 0 ⟨7, false⟩, .run 1 ⟨8, false⟩, .run 0 ⟨7, false⟩, .run 1 ⟨8, false⟩,
    .run 1 ⟨8, false⟩, .run 1 ⟨8, false⟩, .run 1 ⟨8, false⟩, .run 1 ⟨8, false⟩]

/-- Numbers, stored as they are. -/
def plain : Codec Nat Nat := .plain Nat

theorem withMut_linearizable_raceRun : ∃ p : OptiWorld Nat Nat Nat Nat × List (Event Nat Nat),
    (system plain).Reach (fun _ _ => True) (initially none) p ∧
      (p.1.shared.store.value plain = 2 ∧ (commits p.2).map (·.outcome) = [0, 1]) ∧
      Linearized plain none p ∧ RealTime p.2 := by
  exact (exists_reach raceRun (by decide +kernel)).imp
    fun p h => ⟨h.1, h.2, withMut_linearizable h.1⟩

end Tansu.Dynostore
