import Tansu.Coordinator.Brokers

/-!
# Offset commits that are refused

An offset commit writes its offsets inside the handler, before `update_group` tells
whether the broker's copy of the group was the stored one.  A commit whose copy was
out of date is handled a second time, and may then be refused although its offsets
have been written.  The same answer covers a storage that fails half way.  Where
neither happens, a commit that is refused has written nothing.
-/

namespace Tansu.Coordinator.Commits

open Std Tansu.Lib Machine Tansu.Coordinator.Brokers List Option System

variable {V : Type}

abbrev Offsets := BTreeMap (String × Int32) Int64

/-! ## Histories -/

inductive Event
  /-- A section of the task ran, with the committed offsets before and after it. -/
  | ran (task : Nat) (before after : Offsets)
  | answered (task : Nat) (body : Body)

def answers (w : BrokerWorld V) (i : Nat) (c : Choice V) : List Event :=
  match (w.tasks[i]? : Option (List (Section V))) with
  | some (.keep call copy body :: _) =>
    match verdict call copy.wrapper c.elapsedMs body with
    | .again => []
    | .done body | .timedOut body => [.answered i body]
  | _ => []

def observe (history : List Event) (w : BrokerWorld V) (l : BrokerLabel V)
    (w' : BrokerWorld V) : List Event :=
  match l with
  | .run i c => history ++ .ran i w.shared.offsets w'.shared.offsets :: answers w i c
  | _ => history

def system [DecidableEq V] : System (BrokerWorld V × List Event) (BrokerLabel V) :=
  machine.system.observe observe

/-- The group does not exist, and no request is in flight. -/
def initially : BrokerWorld V × List Event := (⟨{}, []⟩, [])

/-! ## The specification -/

/-- The codes that the coordinator itself refuses a request with. -/
def isRefusal (errorCode : ErrorCode) : Bool :=
  errorCode = .unknownMemberId || errorCode = .illegalGeneration ||
    errorCode = .rebalanceInProgress

/-- The answer refuses the commit of the partition. -/
def refuses (body : Body) (tp : String × Int32) : Bool :=
  match body with
  | .offsetCommitResponse response =>
    (response.topics.getD []).any fun topic => decide (topic.1 = tp.1) &&
      (topic.2.getD []).any fun partition => decide (partition.1 = tp.2) && isRefusal partition.2
  | _ => false

/-- A section of the task has changed the committed offset of the partition. -/
def Touched (history : List Event) (i : Nat) (tp : String × Int32) : Prop :=
  ∃ before after : Offsets, .ran i before after ∈ history ∧ before[tp]? ≠ after[tp]?

/-- A request that was refused for a partition has left its committed offset alone. -/
def Harmless (history : List Event) : Prop :=
  ∀ i body tp, .answered i body ∈ history → refuses body tp = true → ¬ Touched history i tp

/-- A storage that fails has written nothing, and no commit that has written offsets finds
that its copy was out of date. -/
def orderly [DecidableEq V] (p : BrokerWorld V × List Event) : BrokerLabel V → Bool
  | .run i c =>
    match (p.1.tasks[i]? : Option (List (Section V))) with
    | some (.handle _ _ :: _) => c.answers.isSome || c.partly.isEmpty
    | some (.update _ copy request _ _ :: _) => !commits (original copy request) request ||
        decide (copy.map (·.version) = p.1.shared.objects.head?.map (·.version))
    | _ => true
  | _ => true

/-! ## What a commit writes and answers -/

variable {call : Call} {c : Choice V} {tp : String × Int32} {w : Wrapper}

/-- Only what the storage writes changes. -/
theorem getElem?_commitOffsets {offsets : Offsets} (h : tp ∉ written c) :
    (commitOffsets call c offsets)[tp]? = offsets[tp]? := by
  rw [commitOffsets]
  induction call.offsets generalizing offsets with
  | nil => rfl
  | cons entry rest ih =>
    rw [foldl_cons, ih]
    split
    · next hmem =>
      rw [BTreeMap.getElem?_insert_eq, if_neg]
      rintro rfl
      exact h hmem
    · rfl

theorem isRefusal_of_isStorageAnswer {errorCode : ErrorCode}
    (h : isStorageAnswer errorCode = true) : isRefusal errorCode = false := by
  cases errorCode <;> first | rfl | cases h

/-- The answers of the storage, grouped by topic, are no refusals. -/
theorem refuses_commitOffset {r : OffsetCommit} {response : OffsetCommitResponse}
    (hresponse : commitOffset r = some response)
    (hstored : ∀ answers, r.stored = some answers → ∀ a ∈ answers, isStorageAnswer a.2 = true) :
    refuses (.offsetCommitResponse response) tp = false := by
  rw [commitOffset] at hresponse
  split at hresponse
  · cases hresponse
    rfl
  · obtain ⟨answers, hanswers, rfl⟩ := map_eq_some_iff.1 hresponse
    simp only [refuses, getD_some, List.any_map, List.any_eq_false, Bool.and_eq_true, not_and,
      Function.comp_apply, decide_eq_true_eq]
    intro name _ _ hany
    obtain ⟨a, ha, hrefusal⟩ := List.any_eq_true.1 hany
    have hcode := isRefusal_of_isStorageAnswer (hstored answers hanswers a (List.mem_filter.1 ha).1)
    simp [hcode] at hrefusal

theorem fence_of_commits {r : OffsetCommit} (h : commits w (.offsetCommit r) = true) :
    r.topics.isSome ∧ (w.offsetCommit r).2 =
      (commitOffset r).getD (offsetCommitResponse r .unknownMemberId) := by
  simp only [commits, Bool.and_eq_true] at h
  obtain ⟨htopics, hfence⟩ := h
  refine ⟨htopics, ?_⟩
  cases w
  all_goals
    simp only [isNone_iff_eq_none] at hfence
    simp only [Wrapper.offsetCommit, Prod.map_snd, Coordinator.offsetCommit]
    split
    · next heq => rw [heq] at hfence; cases hfence
    · rfl

theorem request_of_commits (h : commits w (call.pass c) = true) :
    ∃ r, call.request = .offsetCommit r ∧
      call.pass c = .offsetCommit { r with now := c.now, stored := c.answers } := by
  cases hr : call.request with
  | offsetCommit r => exact ⟨r, rfl, by simp [Call.pass, hr]⟩
  | join | sync | heartbeat | leave => simp [Call.pass, hr, commits] at h

theorem refuses_of_commits {after : Wrapper} {body : Body} (h : commits w (call.pass c) = true)
    (hanswers : c.answers.isSome)
    (hlawful : ∀ answers, c.answers = some answers → ∀ a ∈ answers, isStorageAnswer a.2 = true)
    (hpass : w.pass (call.pass c) = some (after, body)) : refuses body tp = false := by
  obtain ⟨r, -, hr⟩ := request_of_commits h
  rw [hr] at h hpass
  obtain ⟨htopics, hresponse⟩ := fence_of_commits h
  obtain ⟨topics, ht⟩ := isSome_iff_exists.1 htopics
  obtain ⟨answers, ha⟩ := isSome_iff_exists.1 hanswers
  obtain rfl : Body.offsetCommitResponse (w.offsetCommit _).2 = body :=
    congrArg Prod.snd (Option.some.inj hpass)
  have hsome : ∃ response, commitOffset { r with now := c.now, stored := c.answers } =
      some response := by
    dsimp only at ht
    simp [commitOffset, ht, ha]
  obtain ⟨response, hcommit⟩ := hsome
  rw [hresponse, hcommit]
  exact refuses_commitOffset hcommit hlawful

/-! ## The invariant -/

/-- What is known of a task by the section it is at.  A task that may still be handled has
written nothing; one that has been handled has written nothing, or is a commit that is
not refused. -/
def Phase (history : List Event) (i : Nat) : Section V → Prop
  | .take _ | .handle _ _ | .refetch _ _ => ∀ tp, ¬ Touched history i tp
  | .update call copy request _ body => (∀ tp, ¬ Touched history i tp) ∨
      (∃ r, call.request = .offsetCommit r) ∧ commits (original copy request) request = true ∧
        ∀ tp, refuses body tp = false
  | .keep call _ body => (∀ tp, ¬ Touched history i tp) ∨
      (∃ r, call.request = .offsetCommit r) ∧ ∀ tp, refuses body tp = false

structure Inv (p : BrokerWorld V × List Event) : Prop where
  phases : Sequential (Phase p.2) p.1.tasks
  /-- Who is answered is done. -/
  ended : ∀ i body, .answered i body ∈ p.2 → p.1.tasks[i]? = some []
  /-- Nobody else has run. -/
  started : ∀ i before after, .ran i before after ∈ p.2 → i < p.1.tasks.length
  harmless : Harmless p.2

section Steps

variable {w w' : BrokerWorld V} {history : List Event} {i j : Nat} {c : Choice V}
  {before after : Offsets} {more : List Event} {tp : String × Int32}

theorem touched_append (h : Touched (history ++ .ran i before after :: more) j tp)
    (hmore : ∀ k b a, .ran k b a ∉ more) :
    Touched history j tp ∨ j = i ∧ before[tp]? ≠ after[tp]? := by
  obtain ⟨b, a, hmem, hne⟩ := h
  rcases mem_append.1 hmem with hmem | hmem
  · exact .inl ⟨b, a, hmem, hne⟩
  · rcases mem_cons.1 hmem with heq | hmem
    · cases heq
      exact .inr ⟨rfl, hne⟩
    · exact absurd hmem (hmore j b a)

variable {todo rest : List (Section V)} {a : Section V} {s : Shared V} {call : Call}

theorem Phase.congr {history' : List Event} (h : Phase history i a)
    (hold : ∀ tp, Touched history' i tp → Touched history i tp) : Phase history' i a := by
  have huntouched (h : ∀ tp, ¬ Touched history i tp) (tp : String × Int32) :
      ¬ Touched history' i tp := fun ht => h tp (hold tp ht)
  cases a with
  | take | handle | refetch => exact huntouched h
  | update => exact h.imp_left huntouched
  | keep => exact h.imp_left huntouched

/-- Task `i` ran a section: what has to hold of its result. -/
theorem Inv.ran (hi : Inv (w, history)) (hat : At w i a rest)
    (hmore : ∀ ev ∈ more, ∃ body, ev = .answered i body ∧ todo = [] ∧
      ∀ tp, refuses body tp = true →
        ¬ Touched (history ++ .ran i w.shared.offsets s.offsets :: more) i tp)
    (hphase : Sole (Phase (history ++ .ran i w.shared.offsets s.offsets :: more) i) todo) :
    Inv (⟨s, w.tasks.set i todo⟩,
      history ++ .ran i w.shared.offsets s.offsets :: more) := by
  have hnoran (k : Nat) (b a : Offsets) : .ran k b a ∉ more := by
    intro hmem
    obtain ⟨body, heq, -⟩ := hmore _ hmem
    cases heq
  have hunanswered (body : Body) : .answered i body ∉ history := by
    intro hmem
    have hnil := hi.ended i body hmem
    rw [hat.get] at hnil
    cases hnil
  refine ⟨hi.phases.set hat hphase fun j b hij hb => ?_, fun j body hmem => ?_,
    fun j b a hmem => ?_, ?_⟩
  · refine hb.congr fun tp htouched => ?_
    rcases touched_append htouched hnoran with hold | ⟨heq, -⟩
    · exact hold
    · exact absurd heq hij
  · dsimp only at hmem ⊢
    rcases mem_append.1 hmem with hmem | hmem
    · have hij : i ≠ j := by
        rintro rfl
        exact hunanswered body hmem
      rw [getElem?_set_ne hij]
      exact hi.ended j body hmem
    · rcases mem_cons.1 hmem with heq | hmem
      · cases heq
      · obtain ⟨body', heq, rfl, -⟩ := hmore _ hmem
        cases heq
        exact getElem?_set_self hat.lt
  · dsimp only at hmem ⊢
    rw [length_set]
    rcases mem_append.1 hmem with hmem | hmem
    · exact hi.started j b a hmem
    · rcases mem_cons.1 hmem with heq | hmem
      · cases heq
        exact hat.lt
      · exact absurd hmem (hnoran j b a)
  · intro j body tp hmem hrefuses htouched
    rcases mem_append.1 hmem with hpast | hmem
    · rcases touched_append htouched hnoran with hold | ⟨rfl, -⟩
      · exact hi.harmless j body tp hpast hrefuses hold
      · exact hunanswered body hpast
    · rcases mem_cons.1 hmem with heq | hmem
      · cases heq
      · obtain ⟨body', heq, -, hharmless⟩ := hmore _ hmem
        cases heq
        exact hharmless tp hrefuses htouched

theorem untouched_ran {offsets : Offsets} (h : ∀ tp, ¬ Touched history i tp)
    (hmore : ∀ k b a, .ran k b a ∉ more) (tp : String × Int32) :
    ¬ Touched (history ++ .ran i offsets offsets :: more) i tp := by
  intro htouched
  rcases touched_append htouched hmore with hold | ⟨-, hne⟩
  · exact h tp hold
  · exact hne rfl

theorem no_ran_nil (k : Nat) (b a : Offsets) : (.ran k b a : Event) ∉ [] := not_mem_nil

theorem Inv.silent (hi : Inv (w, history)) (hat : At w i a rest)
    (hoffsets : s.offsets = w.shared.offsets) (hphase : Sole (Phase history i) todo) :
    Inv (⟨s, w.tasks.set i todo⟩, history ++ [.ran i w.shared.offsets s.offsets]) := by
  refine hi.ran hat (fun _ h => absurd h not_mem_nil)
    (hphase.imp fun b hb => hb.congr fun tp htouched => ?_)
  rcases touched_append htouched no_ran_nil with hold | ⟨-, hne⟩
  · exact hold
  · rw [hoffsets] at hne
    exact absurd rfl hne

variable [DecidableEq V]

theorem verdict_offsetCommit {r : OffsetCommit} {wrapper : Wrapper} {elapsedMs : Nat} {body : Body}
    (h : call.request = .offsetCommit r) : verdict call wrapper elapsedMs body = .done body := by
  simp only [verdict, h]

/-- The handler is where offsets are written. -/
theorem Inv.handle {copy : Option (Copy V)} {b : Section V} {next : List (Section V)}
    (hi : Inv (w, history)) (hat : At w i (.handle call copy) rest)
    (hok : c.answers.isSome || c.partly.isEmpty)
    (hmoves : Moves w.shared c (.handle call copy) s (b :: next)) :
    Inv (⟨s, w.tasks.set i (b :: next)⟩, history ++ [.ran i w.shared.offsets s.offsets]) := by
  have huntouched : ∀ tp, ¬ Touched history i tp := (hi.phases.phase hat).2
  cases hmoves with
  | handle hpass hlawful =>
    split
    · next hcommits =>
      refine hi.ran hat (fun _ h => absurd h not_mem_nil) ?_
      cases ha : c.answers with
      | some answers =>
        obtain ⟨r, hr, -⟩ := request_of_commits hcommits
        refine .inr ⟨⟨r, hr⟩, hcommits, fun tp => ?_⟩
        refine refuses_of_commits hcommits (by rw [ha]; rfl) (fun answers' ha' a hmem => ?_) hpass
        by_contra hcode
        refine hlawful ?_
        rw [ha', any_some]
        exact List.any_eq_true.2 ⟨a, hmem, by simpa using hcode⟩
      | none =>
        -- the storage failed, and had written nothing
        have hpartly : written c = [] := by
          rw [written, ha]
          simpa [ha] using hok
        left
        intro tp htouched
        rcases touched_append htouched no_ran_nil with hold | ⟨-, hne⟩
        · exact huntouched tp hold
        · exact hne (getElem?_commitOffsets (by rw [hpartly]; exact not_mem_nil)).symm
    · exact hi.silent hat rfl (.inl huntouched)

theorem Inv.run (hi : Inv (w, history)) (hok : orderly (w, history) (.run i c) = true)
    (hs : machine.step w (.run i c) = some w') :
    Inv (w', history ++ .ran i w.shared.offsets w'.shared.offsets :: answers w i c) := by
  obtain ⟨a, rest, hat, -⟩ := step_run hs
  obtain ⟨rfl, hphase⟩ := hi.phases.phase hat
  have htask : w.tasks[i]? = some [a] := hat
  obtain ⟨s, todo, hmoves, rfl⟩ := run_moves hat hs
  have hsilent (hnone : answers w i c = []) (hoffsets : s.offsets = w.shared.offsets)
      (hnext : Sole (Phase history i) todo) : Inv (⟨s, w.tasks.set i todo⟩,
        history ++ .ran i w.shared.offsets s.offsets :: answers w i c) := by
    rw [hnone]
    exact hi.silent hat hoffsets hnext
  cases hmoves with
  | take | refetch => exact hsilent (by simp [answers, htask]) rfl hphase
  | panics | fails => exact hsilent (by simp [answers, htask]) rfl trivial
  | handle hpass hlawful =>
    have hstorage : c.answers.isSome || c.partly.isEmpty := by simpa [orderly, htask] using hok
    simpa [answers, htask] using hi.handle hat hstorage (.handle hpass hlawful)
  | store _ _ htodo =>
    refine hsilent (by simp [answers, htask]) rfl ?_
    rcases htodo with rfl | rfl
    · trivial
    · exact hphase.imp_right fun ⟨hr, _, hrefuses⟩ => ⟨hr, hrefuses⟩
  | outdated hversion =>
    -- a commit that has written is never out of date
    have huntouched : ∀ tp, ¬ Touched history i tp := by
      refine hphase.resolve_right fun ⟨_, hcommits, _⟩ => hversion ?_
      simpa [orderly, htask, hcommits] using hok
    exact hsilent (by simp [answers, htask]) rfl huntouched
  | @keep call copy body _ _ he =>
    cases he
    simp only [answers, htask]
    have hanswer (answer : Body) (hrefuses : (∀ tp, ¬ Touched history i tp) ∨
        ∀ tp, refuses answer tp = false) :
        Inv (⟨{ w.shared with copies := w.shared.copies.insert call.broker copy },
          w.tasks.set i []⟩, history ++ [.ran i w.shared.offsets w.shared.offsets,
            .answered i answer]) := by
      have hnoran (k : Nat) (b a : Offsets) : .ran k b a ∉ [Event.answered i answer] := by
        intro hmem
        cases mem_singleton.1 hmem
      refine hi.ran (s := { w.shared with copies := w.shared.copies.insert call.broker copy }) hat
        (fun ev hev => ⟨answer, mem_singleton.1 hev, rfl, fun tp htp => ?_⟩) trivial
      rcases hrefuses with huntouched | hrefuses
      · exact untouched_ran huntouched hnoran tp
      · rw [hrefuses tp] at htp
        cases htp
    rcases hphase with huntouched | ⟨⟨r, hr⟩, hrefuses⟩
    · cases hv : verdict call copy.wrapper c.elapsedMs body with
      | again => exact hi.silent hat rfl huntouched
      | done answer | timedOut answer => exact hanswer answer (.inl huntouched)
    · rw [verdict_offsetCommit hr]
      exact hanswer body (.inr hrefuses)

omit [DecidableEq V] in
theorem Inv.spawn (hi : Inv (w, history)) :
    Inv ({ w with tasks := w.tasks ++ [[.take call]] }, history) := by
  refine ⟨hi.phases.spawn ?_ fun _ _ hb => hb, fun j body hmem => ?_, fun j b a hmem => ?_,
    hi.harmless⟩
  · -- a task that has just started has not run
    rintro tp ⟨b, a, hmem, -⟩
    exact lt_irrefl _ (hi.started _ b a hmem)
  · exact getElem?_append_some (hi.ended j body hmem)
  · have := hi.started j b a hmem
    simp only [length_append, length_singleton]
    dsimp only at this
    omega

theorem Inv.step {l : BrokerLabel V} (hi : Inv (w, history)) (hok : orderly (w, history) l = true)
    (hstep : machine.step w l = some w') : Inv (w', observe history w l w') := by
  cases l with
  | spawn call =>
    cases hstep
    exact hi.spawn
  | run i c => exact hi.run hok hstep
  | env e =>
    obtain ⟨s, -, rfl⟩ := step_env hstep
    exact ⟨hi.phases, hi.ended, hi.started, hi.harmless⟩

end Steps

/-- A commit that is refused leaves the committed offsets alone, if the storage does not
fail half way and no commit has written offsets on a copy that was out of date.  Until it is
answered, a call has touched nothing or has answered with no refusal (`Phase`). -/
theorem refused_commits_are_harmless [DecidableEq V] {p : BrokerWorld V × List Event}
    (h : system.Reach (fun p l => orderly p l = true) initially p) : Harmless p.2 := by
  have hinit : Inv (initially : BrokerWorld V × List Event) :=
    ⟨fun _ _ h => (by simp [initially] at h), fun _ _ h => absurd h not_mem_nil,
      fun _ _ _ h => absurd h not_mem_nil, fun _ _ _ h => absurd h not_mem_nil⟩
  exact (h.invariant_observe hinit fun hi hok hs => hi.step hok hs).harmless

/-! ## Runs -/

open Brokers.Scenario

/-- A commit of offset 7 for one partition. -/
def commitAt (broker : Nat) (generationId : Option Int32) (memberId : Option MemberId) :
    BrokerLabel Nat :=
  .spawn
    { broker
      request := .offsetCommit ⟨0, generationId, memberId, some [⟨"t", some [0]⟩], none⟩
      offsets := [(("t", 0), 7)] }

/-- The storage writes the offset. -/
def stores (c : Choice Nat) : Choice Nat := { c with answers := some [(("t", 0), .none)] }

def isAnswered (history : List Event) (i : Nat) (tp : String × Int32) : Bool :=
  history.any fun
    | .answered j body => decide (j = i) && refuses body tp
    | _ => false

/-- A commit without a member is refused by the broker that has the group. -/
theorem refused_commits_are_harmless_without_member :
    ∃ p : BrokerWorld Nat × List Event,
      system.Reach (fun p l => orderly p l = true) initially p ∧ Harmless p.2 ∧
        isAnswered p.2 2 ("t", 0) = true := by
  exact (exists_reach
    (oneMember ++ commitAt 0 none none :: pass 2 (stores (choice 1 "" 3)))
    (by decide +kernel)).imp fun p h => ⟨h.1, refused_commits_are_harmless h.1, h.2⟩

/-- A section of the task has changed the committed offset. -/
def touches (history : List Event) (i : Nat) (tp : String × Int32) : Bool :=
  history.any fun
    | .ran j before after => decide (j = i) && decide (before[tp]? ≠ after[tp]?)
    | _ => false

theorem touched_of_touches {history : List Event} {i : Nat} (h : touches history i tp = true) :
    Touched history i tp := by
  obtain ⟨ev, hev, hmatch⟩ := List.any_eq_true.1 h
  split at hmatch
  · simp only [Bool.and_eq_true, decide_eq_true_eq] at hmatch
    obtain ⟨rfl, hne⟩ := hmatch
    exact ⟨_, _, hev, hne⟩
  · cases hmatch

/-- A broker that has no copy takes the group for an empty one and writes the offset; it is
told the stored group, and refuses the commit because the group has a member. -/
theorem refused_commit_is_written :
    ∃ p : BrokerWorld Nat × List Event, system.Reach (fun _ _ => True) initially p ∧
      ¬ Harmless p.2 := by
  refine (exists_reach (P := fun p => isAnswered p.2 2 ("t", 0) ∧ touches p.2 2 ("t", 0))
    (oneMember ++ commitAt 1 none none :: pass 2 (stores (choice 1 "" 3)) ++
      pass 2 (stores (choice 1 "" 3))) (by decide +kernel)).imp
    fun p h => ⟨h.1, fun hharmless => ?_⟩
  obtain ⟨-, hanswered, htouches⟩ := h
  obtain ⟨ev, hev, hmatch⟩ := List.any_eq_true.1 hanswered
  split at hmatch
  · next j body =>
    simp only [Bool.and_eq_true, decide_eq_true_eq] at hmatch
    obtain ⟨rfl, hrefuses⟩ := hmatch
    exact hharmless 2 body ("t", 0) hev hrefuses (touched_of_touches htouches)
  · cases hmatch

end Tansu.Coordinator.Commits
