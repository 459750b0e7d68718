import Tansu.Storage.Batcher

/-!
# Where the batch of a call is

At any moment the batch of a call is in one place: not queued yet, in its queue, in
the hands of the call that took the queue, or in the log.  The answers come from the
log.  A flush that fails drops what it holds, so that its owners other than the one
that runs it wait for an answer that no one will give; exactly these flushes make
orphans.
-/

namespace Tansu.Storage.Batcher

open Tansu.Lib Tansu.Records List Option

variable {E : Type} {libs : Libraries} {minimumSize : Option Nat} {w w' : World E} {i : Nat}
  {c : Call E}

/-! ## What a step does -/

/-- The call holds no batches. -/
def Phase.Idle : Phase E → Prop
  | .check | .flush _ | .waiting => True
  | _ => False

theorem After.phase_idle (after : After) : (after.phase : Phase E).Idle := by
  cases after <;> trivial

/-- A flush of `queued` fails, in `combine` or in the storage. -/
inductive Failure (libs : Libraries) (queued : List BatchRequest) : Except E Int64 → Error E → Prop
  | record {answer : Except E Int64} {fault : Fault}
    (h : combine libs (queued.map BatchRequest.batch) = .error fault) :
    Failure libs queued answer (.record fault)
  | storage {batch : Deflated.Batch} {e : E}
    (h : combine libs (queued.map BatchRequest.batch) = .ok (some batch)) :
    Failure libs queued (.error e) (.storage e)

/-- What a step does to the state. -/
inductive Effect (libs : Libraries) (w : World E) : Action E → World E → Prop
  | call (transactionId : Option String) (topition : Topition) (batch : Deflated.Batch) :
    Effect libs w (.call transactionId topition batch)
      { w with calls := w.calls ++ [⟨transactionId, topition, batch, .start⟩] }
  | enqueue {i : Nat} {c : Call E} (hc : w.calls[i]? = some c) (hphase : c.phase = .start) :
    Effect libs w (.enqueue i) ((w.push c.key ⟨i, c.batch⟩).setPhase i .check)
  | idle {a : Action E} {i : Nat} {c : Call E} {phase : Phase E} (hc : w.calls[i]? = some c)
    (hphase : c.phase.Idle) (hidle : phase.Idle) (ha : ∀ j answer, a ≠ .produce j answer) :
    Effect libs w a (w.setPhase i phase)
  | take {i : Nat} {c : Call E} {after : After} {queued : List BatchRequest}
    (hc : w.calls[i]? = some c) (hphase : c.phase = .flush after)
    (hqueue : w.requests c.key = some queued) :
    Effect libs w (.take i) ((w.setRequests c.key none).setPhase i (.sending after queued))
  | failed {i : Nat} {c : Call E} {after : After} {queued : List BatchRequest}
    {answer : Except E Int64} {e : Error E} (hc : w.calls[i]? = some c)
    (hphase : c.phase = .sending after queued) (hfailure : Failure libs queued answer e) :
    Effect libs w (.produce i answer) (w.setPhase i (.returned (.error e)))
  | empty {i : Nat} {c : Call E} {after : After} {answer : Except E Int64}
    (hc : w.calls[i]? = some c) (hphase : c.phase = .sending after []) :
    Effect libs w (.produce i answer) (w.setPhase i after.phase)
  | stored {i : Nat} {c : Call E} {after : After} {queued : List BatchRequest}
    {batch : Deflated.Batch} {offset : Int64} (hc : w.calls[i]? = some c)
    (hphase : c.phase = .sending after queued)
    (hcombine : combine libs (queued.map BatchRequest.batch) = .ok (some batch))
    (hapart : ∀ e ∈ w.log, (c.stored queued batch offset).apart e) :
    Effect libs w (.produce i (.ok offset))
      ({ w with log := w.log ++ [c.stored queued batch offset] }.setPhase i
        (.answering after (queued.map BatchRequest.id) offset))
  | answer {i : Nat} {c : Call E} {after : After} {owners : List Nat} {offset : Int64}
    (hc : w.calls[i]? = some c) (hphase : c.phase = .answering after owners offset) :
    Effect libs w (.answer i) ((w.respond owners offset).setPhase i after.phase)
  | ready {i : Nat} {c : Call E} {offset : Int64} (hc : w.calls[i]? = some c)
    (hphase : c.phase = .waiting) (hresponse : w.responses i = some (.response offset)) :
    Effect libs w (.poll i) ((w.setResponse i none).setPhase i (.returned (.ok offset)))
  | pending {i : Nat} {c : Call E} (hc : w.calls[i]? = some c) (hphase : c.phase = .waiting)
    (hresponse : ∀ offset, w.responses i ≠ some (.response offset)) :
    Effect libs w (.poll i) (w.setResponse i (some .waker))

theorem combine_eq_none {batches : List Deflated.Batch} (h : combine libs batches = .ok none) :
    batches = [] := by
  cases batches with
  | nil => rfl
  | cons first rest =>
    exfalso
    unfold combine at h
    cases hfirst : Inflated.Batch.tryFrom libs first with
    | error e => simp [hfirst, bind, Except.bind] at h
    | ok sink =>
      simp only [hfirst, bind, Except.bind] at h
      split at h
      · cases h
      · split at h
        · cases h
        · cases h

theorem effect_of_step {a : Action E} (h : (system libs minimumSize).step w a = some w') :
    Effect libs w a w' := by
  change step libs minimumSize w a = some w' at h
  cases a with
  | call transactionId topition batch =>
    cases h
    exact .call transactionId topition batch
  | enqueue i =>
    obtain ⟨c, hc, h⟩ := bind_eq_some_iff.1 h
    unfold enqueue at h
    split at h
    next hphase =>
      cases h
      exact .enqueue hc hphase
    next => cases h
  | check i =>
    obtain ⟨c, hc, h⟩ := bind_eq_some_iff.1 h
    unfold check at h
    split at h
    next hphase =>
      have hidle : c.phase.Idle := hphase ▸ trivial
      split at h
      · cases h
        exact .idle hc hidle trivial (by simp)
      · cases h
        exact .idle hc hidle trivial (by simp)
    next => cases h
  | take i =>
    obtain ⟨c, hc, h⟩ := bind_eq_some_iff.1 h
    unfold take at h
    split at h
    next after hphase =>
      split at h
      next =>
        cases h
        exact .idle hc (hphase ▸ trivial) after.phase_idle (by simp)
      next queued hqueue =>
        cases h
        exact .take hc hphase hqueue
    next => cases h
  | produce i outcome =>
    obtain ⟨c, hc, h⟩ := bind_eq_some_iff.1 h
    unfold produce at h
    split at h
    next after queued hphase =>
      split at h
      next fault hcombine =>
        cases h
        exact .failed hc hphase (.record hcombine)
      next hcombine =>
        cases h
        obtain rfl : queued = [] := map_eq_nil_iff.1 (combine_eq_none hcombine)
        exact .empty hc hphase
      next batch hcombine =>
        split at h
        next e =>
          cases h
          exact .failed hc hphase (.storage hcombine)
        next offset =>
          split at h
          next hapart =>
            cases h
            exact .stored hc hphase hcombine (List.all_eq_true.1 hapart)
          next => cases h
    next => cases h
  | answer i =>
    obtain ⟨c, hc, h⟩ := bind_eq_some_iff.1 h
    unfold answer at h
    split at h
    next after owners offset hphase =>
      cases h
      exact .answer hc hphase
    next => cases h
  | poll i =>
    obtain ⟨c, hc, h⟩ := bind_eq_some_iff.1 h
    unfold poll at h
    split at h
    next hphase =>
      split at h
      next offset hresponse =>
        cases h
        exact .ready hc hphase hresponse
      next hresponse =>
        cases h
        exact .pending hc hphase hresponse
    next => cases h
  | expire i =>
    obtain ⟨c, hc, h⟩ := bind_eq_some_iff.1 h
    unfold expire at h
    split at h
    next hphase =>
      cases h
      exact .idle hc (hphase ▸ trivial) trivial (by simp)
    next => cases h

/-! ## Reading the state -/

/-- What a call was given. -/
structure Request where
  transactionId : Option String
  topition : Topition
  batch : Deflated.Batch

def Request.key (r : Request) : TopitionProducerId := ⟨r.topition, r.batch.producerId⟩

def Call.request (c : Call E) : Request := ⟨c.transactionId, c.topition, c.batch⟩

namespace World

def request (w : World E) (i : Nat) : Option Request := w.calls[i]?.map Call.request

def phase (w : World E) (i : Nat) : Option (Phase E) := w.calls[i]?.map Call.phase

variable (w) (i j : Nat) (p : Phase E) (key : TopitionProducerId)
  (queue : Option (List BatchRequest))

@[simp] theorem setPhase_responses : (w.setPhase i p).responses = w.responses := rfl

@[simp] theorem setPhase_request : (w.setPhase i p).request j = w.request j := by
  simp only [request, setPhase, List.getElem?_modify]
  split
  · cases w.calls[j]? <;> rfl
  · cases w.calls[j]? <;> rfl

theorem setPhase_phase :
    (w.setPhase i p).phase j = if i = j then (w.phase j).map fun _ => p else w.phase j := by
  simp only [phase, setPhase, List.getElem?_modify]
  split
  · cases w.calls[j]? <;> rfl
  · cases w.calls[j]? <;> rfl

theorem setRequests_requests :
    (w.setRequests key queue).requests = Function.update w.requests key queue := rfl

@[simp] theorem setRequests_request : (w.setRequests key queue).request j = w.request j := rfl

@[simp] theorem setRequests_phase : (w.setRequests key queue).phase j = w.phase j := rfl

section

variable (owners : List Nat) (offset : Int64)
include owners offset

theorem respond_eq :
    w.respond owners offset = { w with
      responses := fun i => if i ∈ owners then some (.response offset) else w.responses i } := by
  induction owners generalizing w with
  | nil => simp [respond]
  | cons owner owners ih =>
    rw [respond, foldl_cons]
    change (w.setResponse owner (some (.response offset))).respond owners offset = _
    rw [ih]
    simp only [setResponse, mem_cons]
    congr 1
    funext i
    by_cases hmem : i ∈ owners
    · simp [hmem]
    · by_cases heq : i = owner
      · simp [heq]
      · simp [hmem, heq]

theorem respond_phase : (w.respond owners offset).phase j = w.phase j := by
  rw [respond_eq]
  rfl

theorem respond_requests : (w.respond owners offset).requests = w.requests := by
  rw [respond_eq]

theorem respond_responses :
    (w.respond owners offset).responses j =
      if j ∈ owners then some (.response offset) else w.responses j := by
  rw [respond_eq]

end

end World

variable {p p₀ : Phase E}

theorem phase_of_call (hc : w.calls[i]? = some c) (hp : c.phase = p) : w.phase i = some p := by
  rw [World.phase, hc, ← hp]
  rfl

theorem request_of_call (hc : w.calls[i]? = some c) : w.request i = some c.request := by
  rw [World.request, hc]
  rfl

/-- Another call is made. -/
theorem request_called {r : Request} (h : w.request i = some r) :
    ({ w with calls := w.calls ++ [c] } : World E).request i = some r := by
  obtain ⟨c', hc, rfl⟩ := map_eq_some_iff.1 h
  exact request_of_call (getElem?_append_some hc)

theorem phase_called (h : w.phase i = some p) :
    ({ w with calls := w.calls ++ [c] } : World E).phase i = some p := by
  obtain ⟨c', hc, rfl⟩ := map_eq_some_iff.1 h
  exact phase_of_call (getElem?_append_some hc) rfl

theorem phase_of_called (h : ({ w with calls := w.calls ++ [c] } : World E).phase i = some p)
    (hne : p ≠ c.phase) : w.phase i = some p := by
  obtain ⟨c', hc, rfl⟩ := map_eq_some_iff.1 h
  rcases getElem?_concat hc with hc | ⟨-, rfl⟩
  · exact phase_of_call hc rfl
  · exact absurd rfl hne

theorem setPhase_self (h₀ : w.phase i = some p₀) : (w.setPhase i p).phase i = some p := by
  rw [World.setPhase_phase, if_pos rfl, h₀]
  rfl

theorem phase_setPhase {k : Nat} {p' : Phase E} (h₀ : w.phase k = some p₀)
    (h : (w.setPhase k p).phase i = some p') :
    (i = k ∧ p' = p) ∨ (i ≠ k ∧ w.phase i = some p') := by
  rw [World.setPhase_phase] at h
  split at h
  next heq =>
    subst heq
    rw [h₀] at h
    exact .inl ⟨rfl, (Option.some.inj h).symm⟩
  next hne => exact .inr ⟨Ne.symm hne, h⟩

/-! ## One place at a time -/

inductive Place
  | fresh
  | queued
  | taken (holder : Nat)
  | stored (position : Nat)
deriving DecidableEq

/-- The log holds the batch of call `i` at `offset`, alone or with others. -/
def Answered (w : World E) (i : Nat) (offset : Int64) : Prop :=
  ∃ (k : Nat) (e : Stored), w.log[k]? = some e ∧ i ∈ e.owners ∧ e.offset = offset

/-- The requests are those of `key`, each of another call, whose batch is in `place`. -/
def Holds (w : World E) (place : Nat → Place) (here : Place) (key : TopitionProducerId)
    (queue : List BatchRequest) : Prop :=
  (queue.map BatchRequest.id).Nodup ∧ ∀ r ∈ queue, place r.id = here ∧
    ∃ q : Request, w.request r.id = some q ∧ q.key = key ∧ q.batch = r.batch

/-- `place` says where the batch of every call is, and the answers are those of the log. -/
structure Placed (w : World E) (place : Nat → Place) : Prop where
  fresh : ∀ i, (∀ p, w.phase i = some p → p = .start) → place i = .fresh
  queued : ∀ key queue, w.requests key = some queue → Holds w place .queued key queue
  taken : ∀ j after queue, w.phase j = some (.sending after queue) →
    ∃ q : Request, w.request j = some q ∧ Holds w place (.taken j) q.key queue
  stored : ∀ (k : Nat) (e : Stored), w.log[k]? = some e →
    e.owners.Nodup ∧ ∀ i ∈ e.owners, place i = .stored k
  answering : ∀ j after owners offset, w.phase j = some (.answering after owners offset) →
    ∀ i ∈ owners, Answered w i offset
  responded : ∀ i offset, w.responses i = some (.response offset) → Answered w i offset
  returned : ∀ i offset, w.phase i = some (.returned (.ok offset)) → Answered w i offset

theorem placed_init : Placed (World.init E) fun _ => .fresh where
  fresh _ _ := rfl
  queued _ _ h := by cases h
  taken _ _ _ h := by cases h
  stored _ _ h := by cases h
  answering _ _ _ _ h := by cases h
  responded _ _ h := by cases h
  returned _ _ h := by cases h

/-- The batches of the calls `ids` are now in `there`. -/
def moveTo (place : Nat → Place) (ids : List Nat) (there : Place) : Nat → Place :=
  fun i => if i ∈ ids then there else place i

section

variable {place : Nat → Place} {ids : List Nat} {here there : Place} {i : Nat} {p p₀ : Phase E}
  {key : TopitionProducerId} {queue : List BatchRequest} {c : Call E} {q : Request} {after : After}
  {offset : Int64}

theorem moveTo_of_ne (hids : ∀ j ∈ ids, place j = here) (hne : place i ≠ here) :
    moveTo place ids there i = place i :=
  if_neg fun hmem => hne (hids i hmem)

theorem Holds.moveTo {other : Place} (h : Holds w place other key queue)
    (hids : ∀ j ∈ ids, place j = here) (hne : other ≠ here) :
    Holds w (moveTo place ids there) other key queue := by
  refine ⟨h.1, fun r hr => ⟨?_, (h.2 r hr).2⟩⟩
  have hplace := (h.2 r hr).1
  rw [moveTo_of_ne hids (hplace ▸ hne), hplace]

theorem Placed.setPhase (h : Placed w place) (h₀ : w.phase i = some p₀) (hstart : p ≠ .start)
    (hsending : ∀ after queue, p = .sending after queue →
      ∃ q : Request, w.request i = some q ∧ Holds w place (.taken i) q.key queue)
    (hanswering : ∀ after owners offset, p = .answering after owners offset →
      ∀ j ∈ owners, Answered w j offset)
    (hreturned : ∀ offset, p = .returned (.ok offset) → Answered w i offset) :
    Placed (w.setPhase i p) place := by
  refine ⟨fun j hj => ?_, fun key queue hq => ?_, fun j after queue hj => ?_, h.stored,
    fun j after owners offset hj => ?_, h.responded, fun j offset hj => ?_⟩
  · by_cases heq : i = j
    · subst heq
      exact absurd (hj p (setPhase_self h₀)) hstart
    · refine h.fresh j fun p' hp' => hj p' ?_
      rw [World.setPhase_phase, if_neg heq, hp']
  · simpa [Holds] using h.queued key queue hq
  · rcases phase_setPhase h₀ hj with ⟨rfl, heq⟩ | ⟨-, hold⟩
    · simpa [Holds] using hsending after queue heq.symm
    · simpa [Holds] using h.taken j after queue hold
  · rcases phase_setPhase h₀ hj with ⟨rfl, heq⟩ | ⟨-, hold⟩
    · exact hanswering after owners offset heq.symm
    · exact h.answering j after owners offset hold
  · rcases phase_setPhase h₀ hj with ⟨rfl, heq⟩ | ⟨-, hold⟩
    · exact hreturned offset heq.symm
    · exact h.returned j offset hold

theorem Placed.setIdle (h : Placed w place) (h₀ : w.phase i = some p₀) (hidle : p.Idle) :
    Placed (w.setPhase i p) place := by
  refine h.setPhase h₀ ?_ ?_ ?_ ?_
  · rintro rfl
    exact hidle
  · rintro after queue rfl
    exact hidle.elim
  · rintro after owners offset rfl
    exact hidle.elim
  · rintro offset rfl
    exact hidle.elim

theorem Placed.call (h : Placed w place) (hc : c.phase = .start) :
    Placed { w with calls := w.calls ++ [c] } place := by
  have hholds : ∀ {here key queue}, Holds w place here key queue →
      Holds { w with calls := w.calls ++ [c] } place here key queue := by
    intro here key queue hh
    refine ⟨hh.1, fun r hr => ⟨(hh.2 r hr).1, ?_⟩⟩
    obtain ⟨q, hq, hrest⟩ := (hh.2 r hr).2
    exact ⟨q, request_called hq, hrest⟩
  refine ⟨fun j hj => ?_, fun key queue hq => hholds (h.queued key queue hq),
    fun j after queue hj => ?_, h.stored, fun j after owners offset hj => ?_, h.responded,
    fun j offset hj => ?_⟩
  · exact h.fresh j fun p' hp' => hj p' (phase_called hp')
  · obtain ⟨q, hq, hh⟩ := h.taken j after queue (phase_of_called hj (by simp [hc]))
    exact ⟨q, request_called hq, hholds hh⟩
  · exact h.answering j after owners offset (phase_of_called hj (by simp [hc]))
  · exact h.returned j offset (phase_of_called hj (by simp [hc]))

theorem Placed.push (h : Placed w place) (hfresh : place i = .fresh) (h₀ : w.phase i = some p)
    (hstart : p ≠ .start) (hq : w.request i = some q) :
    Placed (w.push q.key ⟨i, q.batch⟩) (moveTo place [i] .queued) := by
  have hids : ∀ j ∈ [i], place j = .fresh := fun j hj => by rw [mem_singleton.1 hj, hfresh]
  refine ⟨fun j hj => ?_, fun key queue hqueue => ?_, fun j after queue hj => ?_,
    fun k e he => ⟨(h.stored k e he).1, fun j hj => ?_⟩, h.answering, h.responded, h.returned⟩
  · have hne : j ≠ i := by
      rintro rfl
      exact hstart (hj p h₀)
    rw [moveTo, if_neg (by simpa using hne)]
    exact h.fresh j hj
  · rw [World.push, World.setRequests_requests] at hqueue
    by_cases heq : key = q.key
    · subst heq
      rw [Function.update_self] at hqueue
      cases hqueue
      have hold : Holds w place .queued q.key ((w.requests q.key).getD []) := by
        cases hreq : w.requests q.key with
        | none => exact ⟨nodup_nil, fun r hr => by cases hr⟩
        | some old => exact h.queued _ old hreq
      have hnew : i ∉ ((w.requests q.key).getD []).map BatchRequest.id := by
        intro hmem
        obtain ⟨r, hr, rfl⟩ := List.mem_map.1 hmem
        rw [(hold.2 r hr).1] at hfresh
        cases hfresh
      refine ⟨?_, fun r hr => ?_⟩
      · rw [map_append, map_singleton]
        refine nodup_append.2 ⟨hold.1, nodup_singleton i, fun a ha b hb heq => hnew ?_⟩
        rw [heq, mem_singleton.1 hb] at ha
        exact ha
      · rcases mem_append.1 hr with hr | hr
        · exact (hold.moveTo hids (by simp)).2 r hr
        · rw [mem_singleton.1 hr]
          exact ⟨if_pos mem_cons_self, q, hq, rfl, rfl⟩
    · rw [Function.update_of_ne heq] at hqueue
      exact (h.queued key queue hqueue).moveTo hids (by simp)
  · obtain ⟨q', hq', hh⟩ := h.taken j after queue hj
    exact ⟨q', hq', hh.moveTo hids (by simp)⟩
  · have hplace := (h.stored k e he).2 j hj
    rw [moveTo_of_ne hids (by simp [hplace]), hplace]

theorem Placed.take (h : Placed w place) (hq : w.request i = some q) (h₀ : w.phase i = some p₀)
    (hqueue : w.requests q.key = some queue) :
    Placed ((w.setRequests q.key none).setPhase i (.sending after queue))
      (moveTo place (queue.map BatchRequest.id) (.taken i)) := by
  have hold := h.queued q.key queue hqueue
  have hids : ∀ j ∈ queue.map BatchRequest.id, place j = .queued := by
    intro j hj
    obtain ⟨r, hr, rfl⟩ := List.mem_map.1 hj
    exact (hold.2 r hr).1
  have htaken : Placed (w.setRequests q.key none)
      (Batcher.moveTo place (queue.map BatchRequest.id) (.taken i)) := by
    refine ⟨fun j hj => ?_, fun key other hother => ?_, fun j after' other hj => ?_,
      fun k e he => ⟨(h.stored k e he).1, fun j hj => ?_⟩, h.answering, h.responded, h.returned⟩
    · have hfresh := h.fresh j hj
      rw [moveTo_of_ne hids (by simp [hfresh]), hfresh]
    · rw [World.setRequests_requests] at hother
      have hne : key ≠ q.key := by
        rintro rfl
        rw [Function.update_self] at hother
        cases hother
      rw [Function.update_of_ne hne] at hother
      -- the calls of another queue have another key
      have hkept := h.queued key other hother
      refine ⟨hkept.1, fun r hr => ⟨?_, (hkept.2 r hr).2⟩⟩
      have hout : r.id ∉ queue.map BatchRequest.id := by
        intro hmem
        obtain ⟨r', hr', heq⟩ := List.mem_map.1 hmem
        obtain ⟨q₁, hq₁, hkey₁, -⟩ := (hkept.2 r hr).2
        obtain ⟨q₂, hq₂, hkey₂, -⟩ := (hold.2 r' hr').2
        rw [heq, hq₁] at hq₂
        cases hq₂
        exact hne (hkey₁.symm.trans hkey₂)
      rw [Batcher.moveTo, if_neg hout]
      exact (hkept.2 r hr).1
    · obtain ⟨q', hq', hh⟩ := h.taken j after' other hj
      exact ⟨q', hq', hh.moveTo hids (by simp)⟩
    · have hplace := (h.stored k e he).2 j hj
      rw [moveTo_of_ne hids (by simp [hplace]), hplace]
  refine htaken.setPhase h₀ (by simp) ?_ (by simp) (by simp)
  rintro after' queue' heq
  cases heq
  refine ⟨q, hq, hold.1, fun r hr => ⟨?_, (hold.2 r hr).2⟩⟩
  exact if_pos (List.mem_map_of_mem hr)

theorem setPhase_setPhase (w : World E) (i : Nat) (p p' : Phase E) :
    (w.setPhase i p).setPhase i p' = w.setPhase i p' := by
  simp only [World.setPhase, modify_modify_eq]
  rfl

theorem Placed.stored' (h : Placed w place) {batch : Deflated.Batch} (hc : w.calls[i]? = some c)
    (hphase : c.phase = .sending after queue) :
    Placed ({ w with log := w.log ++ [c.stored queue batch offset] }.setPhase i
        (.answering after (queue.map BatchRequest.id) offset))
      (moveTo place (queue.map BatchRequest.id) (.stored w.log.length)) := by
  have h₀ := phase_of_call hc hphase
  obtain ⟨q, hq, hold⟩ := h.taken i after queue h₀
  have hids : ∀ j ∈ queue.map BatchRequest.id, place j = .taken i := by
    intro j hj
    obtain ⟨r, hr, rfl⟩ := List.mem_map.1 hj
    exact (hold.2 r hr).1
  have hlast : (w.log ++ [c.stored queue batch offset])[w.log.length]? =
      some (c.stored queue batch offset) := by simp
  have hgrow : ∀ {j o}, Answered w j o →
      ∃ (k : Nat) (e : Stored), (w.log ++ [c.stored queue batch offset])[k]? = some e ∧
        j ∈ e.owners ∧ e.offset = o := by
    rintro j o ⟨k, e, hk, he⟩
    exact ⟨k, e, getElem?_append_some hk, he⟩
  -- the call lets go of the batches before the log has them
  have hidle : Placed (w.setPhase i .check) place := h.setIdle h₀ trivial
  have hlog : Placed { w.setPhase i .check with log := w.log ++ [c.stored queue batch offset] }
      (Batcher.moveTo place (queue.map BatchRequest.id) (.stored w.log.length)) := by
    refine ⟨fun j hj => ?_, fun key other hother => ?_, fun j after' other hj => ?_,
      fun k e he => ?_, fun j after' owners o hj k hk => ?_, fun j o hj => ?_, fun j o hj => ?_⟩
    · have hfresh := hidle.fresh j hj
      rw [moveTo_of_ne hids (by simp [hfresh]), hfresh]
    · exact (hidle.queued key other hother).moveTo hids (by simp)
    · obtain ⟨q', hq', hh⟩ := hidle.taken j after' other hj
      refine ⟨q', hq', hh.moveTo hids ?_⟩
      rintro heq
      cases heq
      cases (setPhase_self h₀).symm.trans hj
    · rcases getElem?_concat he with he | ⟨rfl, rfl⟩
      · refine ⟨(h.stored k e he).1, fun j hj => ?_⟩
        have hplace := (h.stored k e he).2 j hj
        rw [moveTo_of_ne hids (by simp [hplace]), hplace]
      · exact ⟨hold.1, fun j hj => if_pos hj⟩
    · exact hgrow (hidle.answering j after' owners o hj k hk)
    · exact hgrow (hidle.responded j o hj)
    · exact hgrow (hidle.returned j o hj)
  have h₁ : ({ w.setPhase i .check with log := w.log ++ [c.stored queue batch offset] } :
      World E).phase i = some .check := setPhase_self h₀
  have heq : ({ w.setPhase i .check with log := w.log ++ [c.stored queue batch offset] } :
      World E).setPhase i (.answering after (queue.map BatchRequest.id) offset) =
      { w with log := w.log ++ [c.stored queue batch offset] }.setPhase i
        (.answering after (queue.map BatchRequest.id) offset) :=
    setPhase_setPhase { w with log := w.log ++ [c.stored queue batch offset] } i _ _
  rw [← heq]
  refine hlog.setPhase h₁ (by simp) (by simp) ?_ (by simp)
  rintro after' owners o heq j hj
  cases heq
  exact ⟨w.log.length, c.stored queue batch offset, hlast, hj, rfl⟩

theorem Placed.respond (h : Placed w place) {owners : List Nat}
    (hanswered : ∀ j ∈ owners, Answered w j offset) : Placed (w.respond owners offset) place := by
  rw [World.respond_eq]
  refine ⟨h.fresh, h.queued, h.taken, h.stored, h.answering, fun j o hj => ?_, h.returned⟩
  change (if j ∈ owners then some (.response offset) else w.responses j) = _ at hj
  split at hj
  next hmem =>
    cases hj
    exact hanswered j hmem
  next => exact h.responded j o hj

theorem Placed.setResponse (h : Placed w place) {response : Option BatchResponse}
    (hresponse : ∀ offset, response ≠ some (.response offset)) :
    Placed (w.setResponse i response) place := by
  refine ⟨h.fresh, h.queued, h.taken, h.stored, h.answering, fun j o hj => ?_, h.returned⟩
  change Function.update w.responses i response j = _ at hj
  by_cases heq : j = i
  · rw [heq, Function.update_self] at hj
    exact absurd hj (hresponse o)
  · rw [Function.update_of_ne heq] at hj
    exact h.responded j o hj

/-- Every step leaves every batch in one place. -/
theorem Placed.step {a : Action E} (h : Placed w place) (he : Effect libs w a w') :
    ∃ place', Placed w' place' := by
  cases he with
  | call transactionId topition batch => exact ⟨place, h.call rfl⟩
  | @enqueue i c hc hphase =>
    have h₀ := phase_of_call hc hphase
    have hfresh : place i = .fresh := by
      refine h.fresh i fun p hp => ?_
      rw [h₀] at hp
      exact (Option.some.inj hp).symm
    have hcheck : Placed (w.setPhase i .check) place := h.setIdle h₀ trivial
    have hq : (w.setPhase i .check).request i = some c.request := by
      rw [World.setPhase_request, request_of_call hc]
    exact ⟨_, hcheck.push hfresh (setPhase_self h₀) (by simp) hq⟩
  | idle hc hphase hidle => exact ⟨place, h.setIdle (phase_of_call hc rfl) hidle⟩
  | take hc hphase hqueue =>
    exact ⟨_, h.take (request_of_call hc) (phase_of_call hc rfl) hqueue⟩
  | failed hc => exact ⟨place, h.setPhase (phase_of_call hc rfl) (by simp) (by simp)
      (by simp) (by simp)⟩
  | @empty i c after _ hc => exact ⟨place, h.setIdle (phase_of_call hc rfl) after.phase_idle⟩
  | stored hc hphase => exact ⟨_, h.stored' hc hphase⟩
  | @answer i c after owners offset hc hphase =>
    have h₀ := phase_of_call hc hphase
    have hresponded := h.respond (h.answering i after owners offset h₀)
    have h₁ : (w.respond owners offset).phase i = some (.answering after owners offset) := by
      rw [World.respond_phase, h₀]
    exact ⟨place, hresponded.setIdle h₁ after.phase_idle⟩
  | @ready i c offset hc hphase hresponse =>
    have hanswered := h.responded i offset hresponse
    have hcleared : Placed (w.setResponse i none) place := h.setResponse (by simp)
    refine ⟨place, hcleared.setPhase (phase_of_call hc rfl) (by simp) (by simp) (by simp) ?_⟩
    rintro o heq
    cases heq
    exact hanswered
  | pending hc hphase hresponse => exact ⟨place, h.setResponse (by simp)⟩

end

theorem exists_placed {ok : World E → Action E → Prop}
    (h : (system libs minimumSize).Reach ok (World.init E) w) : ∃ place, Placed w place := by
  refine h.invariant (I := fun w => ∃ place, Placed w place) ⟨_, placed_init⟩ ?_
  rintro w w' a - ⟨place, hplaced⟩ - hs
  exact hplaced.step (effect_of_step hs)

end Tansu.Storage.Batcher
