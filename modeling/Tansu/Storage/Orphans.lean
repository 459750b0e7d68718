import Tansu.Storage.Tickets

/-!
# Calls that wait for nothing

A call that waits has its batch in a queue, in a flush that is running or in the
answers, unless a flush failed that held its batch and that another call ran.  The error
of a flush reaches the call that ran it and no other.
-/

namespace Tansu.Storage.Batcher

open Tansu.Lib Tansu.Records List Option System

variable {E : Type} {libs : Libraries} {minimumSize : Option Nat} {w w' : World E}

/-- The batch of call `i` is in a queue, in a flush that is running, or answered. -/
inductive Located (w : World E) (i : Nat) : Prop
  | queued {key : TopitionProducerId} {queue : List BatchRequest}
    (h : w.requests key = some queue) (hi : i ∈ queue.map BatchRequest.id)
  | sending {j : Nat} {after : After} {queue : List BatchRequest}
    (h : w.phase j = some (.sending after queue)) (hi : i ∈ queue.map BatchRequest.id)
  | answering {j : Nat} {after : After} {owners : List Nat} {offset : Int64}
    (h : w.phase j = some (.answering after owners offset)) (hi : i ∈ owners)
  | responded {offset : Int64} (h : w.responses i = some (.response offset))

/-- Every call that has queued its batch and not returned can still be answered. -/
def NoOrphans (w : World E) : Prop :=
  ∀ i p, w.phase i = some p → p ≠ .start → (∀ outcome, p ≠ .returned outcome) → Located w i

/-- If the step is a flush that fails, every batch in it is that of the call which runs it. -/
def FailsAlone (libs : Libraries) (w : World E) (a : Action E) : Prop :=
  ∀ i answer after queued e, a = .produce i answer → w.phase i = some (.sending after queued) →
    Failure libs queued answer e → ∀ j ∈ queued.map BatchRequest.id, j = i

/-- If the step is a flush that fails, every call with a batch in it returns the error of the
flush in that step. -/
def FailureReturned (libs : Libraries) (w : World E) (a : Action E) (w' : World E) : Prop :=
  ∀ i answer after queued e, a = .produce i answer → w.phase i = some (.sending after queued) →
    Failure libs queued answer e → ∀ j ∈ queued.map BatchRequest.id,
      (∀ outcome, w.phase j ≠ some (.returned outcome)) ∧
        w'.phase j = some (.returned (.error e))

/-- The step is a flush that fails, with the batch of another call that has not returned. -/
def Strands (libs : Libraries) (w : World E) (a : Action E) : Prop :=
  ∃ i answer after queued e, a = .produce i answer ∧ w.phase i = some (.sending after queued) ∧
    Failure libs queued answer e ∧ ∃ j ∈ queued.map BatchRequest.id,
      j ≠ i ∧ ∀ outcome, w.phase j ≠ some (.returned outcome)

theorem FailsAlone.not_strands {a : Action E} (h : FailsAlone libs w a) : ¬ Strands libs w a := by
  rintro ⟨i, answer, after, queued, e, rfl, h₀, hfailure, j, hj, hne, -⟩
  exact hne (h i answer after queued e rfl h₀ hfailure j hj)

section

variable {i k : Nat} {p p₀ : Phase E}

/-- What is located stays located if only the queues change, and not for `i`. -/
theorem Located.mono (h : Located w i)
    (hrequests : ∀ key queue, w.requests key = some queue → i ∈ queue.map BatchRequest.id →
      Located w' i)
    (hphase : ∀ j p, w.phase j = some p → w'.phase j = some p)
    (hresponses : ∀ offset, w.responses i = some (.response offset) →
      w'.responses i = some (.response offset)) : Located w' i := by
  cases h with
  | queued h hi => exact hrequests _ _ h hi
  | sending h hi => exact .sending (hphase _ _ h) hi
  | answering h hi => exact .answering (hphase _ _ h) hi
  | responded h => exact .responded (hresponses _ h)

/-- What call `k` does not hold stays where it is when `k` moves on. -/
theorem Located.setPhase (h : Located w i) (h₀ : w.phase k = some p₀)
    (hsending : ∀ after queue, p₀ = .sending after queue → i ∉ queue.map BatchRequest.id)
    (hanswering : ∀ after owners offset, p₀ = .answering after owners offset → i ∉ owners) :
    Located (w.setPhase k p) i := by
  have hkeep : ∀ {j p'}, w.phase j = some p' → k ≠ j → (w.setPhase k p).phase j = some p' := by
    intro j p' hj hne
    rw [World.setPhase_phase, if_neg hne, hj]
  cases h with
  | queued h hi => exact .queued h hi
  | @sending j after queue h hi =>
    refine .sending (hkeep h ?_) hi
    rintro rfl
    exact hsending after queue (Option.some.inj (h₀.symm.trans h)) hi
  | @answering j after owners offset h hi =>
    refine .answering (hkeep h ?_) hi
    rintro rfl
    exact hanswering after owners offset (Option.some.inj (h₀.symm.trans h)) hi
  | responded h => exact .responded h

theorem Located.of_idle (h : Located w i) (h₀ : w.phase k = some p₀) (hidle : p₀.Idle) :
    Located (w.setPhase k p) i := by
  refine h.setPhase h₀ ?_ ?_
  · rintro after queue rfl
    exact hidle.elim
  · rintro after owners offset rfl
    exact hidle.elim

theorem NoOrphans.located (h : NoOrphans w) (h₀ : w.phase k = some p₀) (hstart : p₀ ≠ .start)
    (hreturned : ∀ outcome, p₀ ≠ .returned outcome) {p' : Phase E}
    (hi : (w.setPhase k p).phase i = some p') (hs : p' ≠ .start)
    (hr : ∀ outcome, p' ≠ .returned outcome) : Located w i := by
  rcases phase_setPhase h₀ hi with ⟨rfl, -⟩ | ⟨-, hold⟩
  · exact h i p₀ h₀ hstart hreturned
  · exact h i p' hold hs hr

theorem Phase.Idle.not_start (h : p.Idle) : p ≠ .start := by
  rintro rfl
  exact h

theorem Phase.Idle.not_returned (h : p.Idle) (outcome : Except (Error E) Int64) :
    p ≠ .returned outcome := by
  rintro rfl
  exact h

end

/-- No other step makes an orphan. -/
theorem NoOrphans.step {a : Action E} (h : NoOrphans w) (he : Effect libs w a w')
    (hkept : ¬ Strands libs w a) : NoOrphans w' := by
  intro i p hi hs hr
  cases he with
  | call transactionId topition batch =>
    exact (h i p (phase_of_called hi hs) hs hr).mono (fun _ _ hq hin => .queued hq hin)
      (fun _ _ => phase_called) fun _ => id
  | @enqueue k c hc hphase =>
    have h₀ := phase_of_call hc hphase
    have hlast : (w.push c.key ⟨k, c.batch⟩).requests c.key =
        some ((w.requests c.key).getD [] ++ [⟨k, c.batch⟩]) := Function.update_self ..
    rcases phase_setPhase (w := w.push c.key ⟨k, c.batch⟩) h₀ hi with ⟨rfl, -⟩ | ⟨-, hold⟩
    · exact .queued (w := (w.push c.key ⟨i, c.batch⟩).setPhase i .check) hlast (by simp)
    · have hpush : Located (w.push c.key ⟨k, c.batch⟩) i := by
        refine (h i p hold hs hr).mono (fun key queue hq hmem => ?_) (fun _ _ => id) fun _ => id
        by_cases hkey : key = c.key
        · subst hkey
          refine .queued hlast ?_
          rw [hq, getD_some, map_append]
          exact mem_append_left _ hmem
        · exact .queued ((Function.update_of_ne hkey _ _).trans hq) hmem
      exact hpush.setPhase (p := .check) h₀ (by simp) (by simp)
  | @idle _ k c phase hc hphase hidle =>
    have h₀ := phase_of_call hc rfl
    exact (h.located h₀ hphase.not_start hphase.not_returned hi hs hr).of_idle h₀ hphase
  | @take k c after queued hc hphase hqueue =>
    have h₀ := phase_of_call hc hphase
    by_cases hmem : i ∈ queued.map BatchRequest.id
    · exact .sending (setPhase_self (w := w.setRequests c.key none) h₀) hmem
    · have hother : Located (w.setRequests c.key none) i := by
        refine (h.located h₀ (by simp) (by simp) hi hs hr).mono (fun key queue hq hin => ?_)
          (fun _ _ => id) fun _ => id
        have hkey : key ≠ c.key := by
          rintro rfl
          rw [hqueue] at hq
          cases hq
          exact hmem hin
        exact .queued ((Function.update_of_ne hkey _ _).trans hq) hin
      exact hother.of_idle h₀ trivial
  | @failed k c after queued outcome e hc hphase hfailure =>
    have h₀ := phase_of_call hc hphase
    rcases phase_setPhase h₀ hi with ⟨rfl, rfl⟩ | ⟨hne, hold⟩
    · exact absurd rfl (hr _)
    · refine (h i p hold hs hr).setPhase h₀ ?_ (by simp)
      rintro after' queue heq hmem
      cases heq
      refine hkept ⟨k, outcome, after, queued, e, rfl, h₀, hfailure, i, hmem, hne, ?_⟩
      intro r hret
      exact hr r (Option.some.inj (hold.symm.trans hret))
  | @empty k c after _ hc hphase =>
    have h₀ := phase_of_call hc hphase
    refine (h.located h₀ (by simp) (by simp) hi hs hr).setPhase h₀ ?_ (by simp)
    rintro after' queue heq
    cases heq
    simp
  | @stored k c after queued batch offset hc hphase =>
    have h₀ := phase_of_call hc hphase
    by_cases hmem : i ∈ queued.map BatchRequest.id
    · exact .answering (setPhase_self (w := { w with log := w.log ++ [_] }) h₀) hmem
    · have hlog : Located ({ w with log := w.log ++ [c.stored queued batch offset] } : World E) i :=
        (h.located h₀ (by simp) (by simp) hi hs hr).mono (fun _ _ hq hin => .queued hq hin)
          (fun _ _ => id) fun _ => id
      refine hlog.setPhase h₀ ?_ (by simp)
      rintro after' queue heq
      cases heq
      exact hmem
  | @answer k c after owners offset hc hphase =>
    have h₀ := phase_of_call hc hphase
    have h₁ : (w.respond owners offset).phase k = some (.answering after owners offset) := by
      rw [World.respond_phase, h₀]
    by_cases hmem : i ∈ owners
    · have hresponse : ((w.respond owners offset).setPhase k after.phase).responses i =
          some (.response offset) := by
        rw [World.setPhase_responses, World.respond_responses, if_pos hmem]
      exact .responded hresponse
    · have hlocated : Located w i := by
        rcases phase_setPhase h₁ hi with ⟨rfl, -⟩ | ⟨-, hold⟩
        · exact h i _ h₀ (by simp) (by simp)
        · exact h i p (World.respond_phase w i owners offset ▸ hold) hs hr
      have hother : Located (w.respond owners offset) i := by
        refine hlocated.mono (fun key queue hq hin => ?_) (fun j p' hj => ?_) fun o ho => ?_
        · exact .queued ((congrFun (World.respond_requests w owners offset) key).trans hq) hin
        · rw [World.respond_phase, hj]
        · rw [World.respond_responses, if_neg hmem, ho]
      refine hother.setPhase h₁ (by simp) ?_
      rintro after' owners' o heq
      cases heq
      exact hmem
  | @ready k c offset hc hphase hresponse =>
    have h₀ := phase_of_call hc hphase
    rcases phase_setPhase (w := w.setResponse k none) h₀ hi with ⟨rfl, rfl⟩ | ⟨hne, hold⟩
    · exact absurd rfl (hr _)
    · have hother : Located (w.setResponse k none) i :=
        (h i p hold hs hr).mono (fun _ _ hq hin => .queued hq hin) (fun _ _ => id)
          fun o ho => (Function.update_of_ne hne _ _).trans ho
      exact hother.of_idle h₀ trivial
  | @pending k c hc hphase hresponse =>
    refine (h i p hi hs hr).mono (fun _ _ hq hin => .queued hq hin) (fun _ _ => id) fun o ho => ?_
    have hne : i ≠ k := by
      rintro rfl
      exact hresponse o ho
    exact (Function.update_of_ne hne _ _).trans ho

section

variable {i j : Nat} {answer : Except E Int64} {after : After} {queued : List BatchRequest}
  {e : Error E}

/-- A flush that fails returns its error to the call that runs it and changes nothing else. -/
theorem returned_of_failure (he : Effect libs w (.produce i answer) w')
    (h₀ : w.phase i = some (.sending after queued)) (hfailure : Failure libs queued answer e)
    (hj : j ∈ queued.map BatchRequest.id) : w' = w.setPhase i (.returned (.error e)) := by
  have hqueue : ∀ {c : Call E} {after' queued'}, w.calls[i]? = some c →
      c.phase = .sending after' queued' → queued' = queued := by
    intro c after' queued' hc hphase
    have hsame := Option.some.inj (h₀.symm.trans (phase_of_call hc hphase))
    cases hsame
    rfl
  cases he with
  | idle _ _ _ ha => exact absurd rfl (ha i answer)
  | failed hc hphase hfailure' =>
    rw [hqueue hc hphase] at hfailure'
    cases hfailure with
    | record h =>
      cases hfailure' with
      | record h' =>
        cases h.symm.trans h'
        rfl
      | storage h' => cases h.symm.trans h'
    | storage h =>
      cases hfailure' with
      | record h' => cases h.symm.trans h'
      | storage _ => rfl
  | empty hc hphase =>
    rw [← hqueue hc hphase] at hj
    cases hj
  | stored hc hphase hcombine =>
    rw [hqueue hc hphase] at hcombine
    cases hfailure with
    | record herror => cases herror.symm.trans hcombine

theorem failureReturned_iff {a : Action E} (he : Effect libs w a w') :
    FailureReturned libs w a w' ↔ FailsAlone libs w a := by
  constructor
  · rintro h i answer after queued e rfl h₀ hfailure j hj
    obtain ⟨hnot, hreturned⟩ := h i answer after queued e rfl h₀ hfailure j hj
    rw [returned_of_failure he h₀ hfailure hj, World.setPhase_phase] at hreturned
    by_contra hne
    rw [if_neg (Ne.symm hne)] at hreturned
    exact hnot _ (by simpa using hreturned)
  · rintro h i answer after queued e rfl h₀ hfailure j hj
    obtain rfl := h i answer after queued e rfl h₀ hfailure j hj
    refine ⟨fun outcome => by simp [h₀], ?_⟩
    rw [returned_of_failure he h₀ hfailure hj]
    exact setPhase_self h₀

/-- The other owners of a flush that fails are orphans. -/
theorem Strands.orphaned {a : Action E} {place : Nat → Place} (hplaced : Placed w place)
    (he : Effect libs w a w') (hstrands : Strands libs w a) : ¬ NoOrphans w' := by
  obtain ⟨i, answer, after, queued, e, rfl, h₀, hfailure, j, hj, hne, hreturned⟩ := hstrands
  intro h
  obtain rfl := returned_of_failure he h₀ hfailure hj
  obtain ⟨q, -, hholds⟩ := hplaced.taken i after queued h₀
  have hplace : place j = .taken i := by
    obtain ⟨r, hr, rfl⟩ := List.mem_map.1 hj
    exact (hholds.2 r hr).1
  obtain ⟨p, hp⟩ : ∃ p, w.phase j = some p := by
    obtain ⟨r, hr, rfl⟩ := List.mem_map.1 hj
    obtain ⟨q', hq', -⟩ := (hholds.2 r hr).2
    obtain ⟨c, hc, -⟩ := map_eq_some_iff.1 hq'
    exact ⟨c.phase, phase_of_call hc rfl⟩
  have hstart : p ≠ .start := by
    rintro rfl
    have hfresh := hplaced.fresh j fun p' hp' => (Option.some.inj (hp.symm.trans hp')).symm
    rw [hplace] at hfresh
    cases hfresh
  have hphase : ∀ {k p'}, (w.setPhase i (.returned (.error e))).phase k = some p' →
      p' = .returned (.error e) ∨ (k ≠ i ∧ w.phase k = some p') := by
    intro k p' hk
    rcases phase_setPhase h₀ hk with ⟨-, hp'⟩ | hold
    · exact .inl hp'
    · exact .inr hold
  have hanswered : ∀ {offset}, Answered w j offset → False := by
    rintro offset ⟨k, entry, hk, hmem, -⟩
    have hstored := (hplaced.stored k entry hk).2 j hmem
    rw [hplace] at hstored
    cases hstored
  have hlocated := h j p
    (by rw [World.setPhase_phase, if_neg (Ne.symm hne), hp]) hstart
    (fun outcome heq => hreturned outcome (heq ▸ hp))
  cases hlocated with
  | queued hq hmem =>
    obtain ⟨r, hr, rfl⟩ := List.mem_map.1 hmem
    have hqueued := ((hplaced.queued _ _ hq).2 r hr).1
    rw [hplace] at hqueued
    cases hqueued
  | @sending k after' queue hk hmem =>
    rcases hphase hk with heq | ⟨hki, hold⟩
    · cases heq
    · obtain ⟨q', -, hholds'⟩ := hplaced.taken k after' queue hold
      obtain ⟨r, hr, rfl⟩ := List.mem_map.1 hmem
      have htaken := (hholds'.2 r hr).1
      rw [hplace] at htaken
      cases htaken
      exact hki rfl
  | @answering k after' owners offset hk hmem =>
    rcases hphase hk with heq | ⟨-, hold⟩
    · cases heq
    · exact hanswered (hplaced.answering k after' owners offset hold j hmem)
  | responded hresponse => exact hanswered (hplaced.responded j _ hresponse)

end

theorem noOrphans_init : NoOrphans (World.init E) := fun _ _ h => by cases h

/-- No call is orphaned in a run whose flushes fail alone.  Exactly the steps that fail with
the batch of another call that waits make an orphan, and exactly those that fail alone return
their error to every call in the flush: it has removed the queue by then, and what it returns
goes to the call that ran it. -/
theorem orphaned_by_failed_flushes (libs : Libraries) (minimumSize : Option Nat) :
    (∀ w : World E, (system libs minimumSize).Reach (FailsAlone libs) (World.init E) w →
      NoOrphans w) ∧
    ∀ (w w' : World E) (a : Action E),
      (system libs minimumSize).Reach (fun _ _ => True) (World.init E) w → NoOrphans w →
      (system libs minimumSize).step w a = some w' →
      (NoOrphans w' ↔ ¬ Strands libs w a) ∧
        (FailureReturned libs w a w' ↔ FailsAlone libs w a) := by
  constructor
  · intro w h
    exact h.invariant noOrphans_init fun _ hold halone hs =>
      hold.step (effect_of_step hs) halone.not_strands
  · intro w w' a hreach hold hs
    have he := effect_of_step hs
    obtain ⟨place, hplaced⟩ := exists_placed hreach
    exact ⟨⟨fun h hstrands => hstrands.orphaned hplaced he h, hold.step he⟩,
      failureReturned_iff he⟩

/-! ### Two calls in one flush -/

namespace Example

open Deflated.Example (stored small)

def partition : Topition := ⟨"t", 0⟩

/-- A batch of one record. -/
def batch : Deflated.Batch :=
  { baseOffset := 0
    batchLength := 0
    partitionLeaderEpoch := -1
    magic := 2
    crc := 0
    attributes := 0
    lastOffsetDelta := 0
    baseTimestamp := 1707058170165
    maxTimestamp := 1707058170165
    producerId := 54345
    producerEpoch := 32123
    baseSequence := 0
    recordCount := 1
    recordData := small.wire }

/-- Two calls queue their batches and wait, and the patience of the first one runs out. -/
def taken (second : Topition) : List (Action Unit) :=
  [.call none partition batch, .call none second batch, .enqueue 0, .enqueue 1, .check 0,
    .check 1, .poll 0, .poll 1, .expire 0, .take 0]

/-- The first call holds the batches of `owners`, and the second one waits. -/
def holds (owners : List Nat) (w : World Unit) : Bool :=
  match w.phase 0, w.phase 1 with
  | some (.sending _ queued), some .waiting =>
    decide (queued.map BatchRequest.id = owners) &&
      match combine stored (queued.map BatchRequest.batch) with
      | .ok (some _) => true
      | _ => false
  | _, _ => false

/-- The storage fails the flush of such a state. -/
theorem fails_of_holds {owners : List Nat} {w : World Unit} (h : holds owners w = true) :
    ∃ after queued, w.phase 0 = some (.sending after queued) ∧ w.phase 1 = some .waiting ∧
      queued.map BatchRequest.id = owners ∧
      Failure stored queued (.error ()) (.storage ()) ∧
      (system stored none).step w (.produce 0 (.error ())) =
        some (w.setPhase 0 (.returned (.error (.storage ())))) := by
  unfold holds at h
  split at h
  next after queued hfirst hsecond =>
    rw [Bool.and_eq_true, decide_eq_true_eq] at h
    obtain ⟨hids, hcombine⟩ := h
    split at hcombine
    next combined hsent =>
      obtain ⟨c, hc, hphase⟩ := map_eq_some_iff.1 hfirst
      refine ⟨after, queued, hfirst, hsecond, hids, .storage hsent, ?_⟩
      simp only [system, step, hc, bind_some, produce, hphase, hsent]
    next => cases hcombine
  next => cases h

def isProduce : Action Unit → Bool
  | .produce _ _ => true
  | _ => false

end Example

open Example Deflated.Example in
/-- The storage fails, and the call whose batch another one has sent is orphaned. -/
theorem failed_flush_orphans : ∃ w : World Unit,
    (system stored none).Reach (fun _ _ => True) (World.init Unit) w ∧ ¬ NoOrphans w := by
  have hrun : ((system stored none).trace (fun _ _ => True) (World.init Unit)
      (taken partition)).any (holds [0, 1]) = true := by decide +kernel
  obtain ⟨w, hreach, hboth⟩ := reach_of_any hrun
  obtain ⟨after, queued, hfirst, hsecond, hids, hfailure, hstep⟩ := fails_of_holds hboth
  obtain ⟨place, hplaced⟩ := exists_placed hreach
  refine ⟨_, hreach.tail trivial hstep, Strands.orphaned hplaced (effect_of_step hstep) ?_⟩
  exact ⟨0, _, after, queued, _, rfl, hfirst, hfailure, 1, by simp [hids], by decide,
    by simp [hsecond]⟩

open Example Deflated.Example in
/-- Two calls for two partitions: the flush of the first fails and that call returns the error,
while the second can still be answered. -/
theorem failed_flush_returned : ∃ w : World Unit,
    (system stored none).Reach (fun _ _ => True) (World.init Unit) w ∧ NoOrphans w ∧
      w.phase 0 = some (.returned (.error (.storage ()))) ∧ w.phase 1 = some .waiting := by
  have hrun : ((system stored none).trace (fun _ a => isProduce a = false) (World.init Unit)
      (taken ⟨"t", 1⟩)).any (holds [0]) = true := by decide +kernel
  obtain ⟨w, hreach, hholds⟩ := reach_of_any hrun
  obtain ⟨after, queued, hfirst, hsecond, hids, hfailure, hstep⟩ := fails_of_holds hholds
  have hsafe := (orphaned_by_failed_flushes stored none).1 w (hreach.mono (by
    rintro w a ha i answer after queued e rfl
    cases ha))
  have halone : FailsAlone stored w (.produce 0 (.error ())) := by
    rintro i answer after' queued' e heq h₀ - j hj
    cases heq
    cases hfirst.symm.trans h₀
    simpa [hids] using hj
  have hreach' := hreach.mono fun _ _ _ => trivial
  obtain ⟨hno, hreturned⟩ :=
    (orphaned_by_failed_flushes stored none).2 w _ _ hreach' hsafe hstep
  refine ⟨_, hreach'.tail trivial hstep, hno.2 halone.not_strands, ?_, ?_⟩
  · exact (hreturned.2 halone 0 _ after queued _ rfl hfirst hfailure 0 (by simp [hids])).2
  · rw [World.setPhase_phase, if_neg (by decide), hsecond]

end Tansu.Storage.Batcher
