import Tansu.Proxy.Merge

/-!
# Who is answered, and what was sent

A flush answers the owners of the partitions that the upstream service has answered.
An owner without such a partition waits for ever, since the request is gone from the
queue and an error is dropped: the flush failed, the request came without records, or
the upstream service left its partitions out.  The request upstream has no transactional
id and asks for no acknowledgement, whatever its parts asked for, and a partition whose
batches do not combine is sent empty.
-/

namespace Tansu.Proxy

open Std Tansu.Lib Tansu.Records List Option System

variable {libs : Libraries} {w w' : World}

/-! ## What a step does -/

/-- The call holds no requests. -/
def Phase.Idle : Phase → Prop
  | .check | .flush _ | .waiting => True
  | _ => False

theorem After.phase_idle (after : After) : after.phase.Idle := by cases after <;> trivial

/-- What a step does to the state. -/
inductive Effect (libs : Libraries) (w : World) : Action → World → Prop
  | call (config : String → Option Nat) (request : ProduceRequest) :
    Effect libs w (.call config request)
      { w with calls := w.calls ++ [⟨request, request.maxRecords config, .start⟩] }
  | enqueue {i : Nat} {c : Call} (hc : w.calls[i]? = some c) (hphase : c.phase = .start) :
    Effect libs w (.enqueue i) ((w.push ⟨i, c.request⟩).setPhase i .check)
  | idle {a : Action} {i : Nat} {c : Call} {phase : Phase} (hc : w.calls[i]? = some c)
    (hphase : c.phase.Idle) (hidle : phase.Idle) : Effect libs w a (w.setPhase i phase)
  | panicked {i : Nat} {c : Call} {after : After} {p : Panic} (hc : w.calls[i]? = some c)
    (hphase : c.phase = .flush after) (hrequest : produceRequest libs w.requests = .error p) :
    Effect libs w (.take i) (w.drain.setPhase i .panicked)
  | take {i : Nat} {c : Call} {after : After} {request : ProduceRequest}
    (hc : w.calls[i]? = some c) (hphase : c.phase = .flush after)
    (hrequest : produceRequest libs w.requests = .ok request) :
    Effect libs w (.take i) (w.drain.setPhase i (.sending after w.requests request))
  | failed {i : Nat} {c : Call} {after : After} {queued : List BatchRequest}
    {request : ProduceRequest} (hc : w.calls[i]? = some c)
    (hphase : c.phase = .sending after queued request) :
    Effect libs w (.upstream i none) ((w.record ⟨queued, request, none⟩).setPhase i after.phase)
  | sent {i : Nat} {c : Call} {after : After} {queued : List BatchRequest}
    {request : ProduceRequest} {response : ProduceResponse} (hc : w.calls[i]? = some c)
    (hphase : c.phase = .sending after queued request) :
    Effect libs w (.upstream i (some response))
      ((w.record ⟨queued, request, some response⟩).setPhase i (.answering after queued response))
  | own {i : Nat} {c : Call} {after : After} {queued : List BatchRequest}
    {response own : ProduceResponse} (hc : w.calls[i]? = some c)
    (hphase : c.phase = .answering after queued response)
    (hown : (split (owners queued) response)[i]? = some own) :
    Effect libs w (.answer i)
      (((w.setResponse i none).respond ((split (owners queued) response).erase i)).setPhase i
        (.returned own))
  | others {i : Nat} {c : Call} {after : After} {queued : List BatchRequest}
    {response : ProduceResponse} (hc : w.calls[i]? = some c)
    (hphase : c.phase = .answering after queued response)
    (hown : (split (owners queued) response)[i]? = none) :
    Effect libs w (.answer i)
      ((w.respond (split (owners queued) response)).setPhase i after.phase)
  | ready {i : Nat} {c : Call} {own : ProduceResponse} (hc : w.calls[i]? = some c)
    (hphase : c.phase = .waiting) (hresponse : w.responses i = some (.response own)) :
    Effect libs w (.poll i) ((w.setResponse i none).setPhase i (.returned own))
  | pending {i : Nat} {c : Call} {response : Option BatchResponse} (hc : w.calls[i]? = some c)
    (hphase : c.phase = .waiting) (hold : ∀ own, w.responses i ≠ some (.response own))
    (hnew : ∀ own, response ≠ some (.response own)) :
    Effect libs w (.poll i) (w.setResponse i response)

variable {a : Action} {p : Phase} {requestOf : Nat → Option ProduceRequest} {sent : List Sent}
  {i : Nat}

theorem effect_of_step (h : (system libs).step w a = some w') : Effect libs w a w' := by
  change step libs w a = some w' at h
  cases a with
  | call config request =>
    cases h
    exact .call config request
  | enqueue i =>
    obtain ⟨c, hc, h⟩ := bind_eq_some_iff.1 h
    unfold enqueue at h
    split at h
    next hphase =>
      cases h
      exact .enqueue hc hphase
    next => cases h
  | check i =>
    obtain ⟨c, hc, h⟩ := bind_eq_some_iff.1 h
    unfold check at h
    split at h
    next hphase =>
      have hidle : c.phase.Idle := hphase ▸ trivial
      split at h
      · cases h
        exact .idle hc hidle trivial
      · cases h
        exact .idle hc hidle trivial
    next => cases h
  | take i =>
    obtain ⟨c, hc, h⟩ := bind_eq_some_iff.1 h
    unfold take at h
    split at h
    next after hphase =>
      split at h
      next =>
        cases h
        exact .idle hc (hphase ▸ trivial) after.phase_idle
      next =>
        split at h
        next p hrequest =>
          cases h
          exact .panicked hc hphase hrequest
        next request hrequest =>
          cases h
          exact .take hc hphase hrequest
    next => cases h
  | upstream i outcome =>
    obtain ⟨c, hc, h⟩ := bind_eq_some_iff.1 h
    unfold upstream at h
    split at h
    next after queued request hphase =>
      split at h
      next =>
        cases h
        exact .failed hc hphase
      next response =>
        cases h
        exact .sent hc hphase
    next => cases h
  | answer i =>
    obtain ⟨c, hc, h⟩ := bind_eq_some_iff.1 h
    unfold answer at h
    split at h
    next after queued response hphase =>
      split at h
      next own hown =>
        cases h
        exact .own hc hphase hown
      next hown =>
        cases h
        exact .others hc hphase hown
    next => cases h
  | poll i =>
    obtain ⟨c, hc, h⟩ := bind_eq_some_iff.1 h
    unfold poll at h
    split at h
    next hphase =>
      split at h
      next own hresponse =>
        cases h
        exact .ready hc hphase hresponse
      next hresponse =>
        cases h
        exact .pending hc hphase (by simp [hresponse]) (by simp)
      next hresponse =>
        cases h
        exact .pending hc hphase (by simp [hresponse]) (by simp)
    next => cases h
  | expire i =>
    obtain ⟨c, hc, h⟩ := bind_eq_some_iff.1 h
    unfold expire at h
    split at h
    next hphase =>
      cases h
      exact .idle hc (hphase ▸ trivial) trivial
    next => cases h

/-! ## Reading the state -/

namespace World

def request (w : World) (i : Nat) : Option ProduceRequest := w.calls[i]?.map Call.request

def phase (w : World) (i : Nat) : Option Phase := w.calls[i]?.map Call.phase

end World

section

variable {i k : Nat} {p p₀ : Phase} {c : Call}

theorem phase_of_call (hc : w.calls[i]? = some c) (hp : c.phase = p) : w.phase i = some p := by
  rw [World.phase, hc, ← hp]
  rfl

/-- Another call is made. -/
theorem request_called {q : ProduceRequest} (h : w.request i = some q) :
    ({ w with calls := w.calls ++ [c] } : World).request i = some q := by
  obtain ⟨c', hc, rfl⟩ := map_eq_some_iff.1 h
  rw [World.request, getElem?_append_some hc]
  rfl

theorem phase_called (h : w.phase i = some p) :
    ({ w with calls := w.calls ++ [c] } : World).phase i = some p := by
  obtain ⟨c', hc, rfl⟩ := map_eq_some_iff.1 h
  exact phase_of_call (getElem?_append_some hc) rfl

theorem phase_of_called (h : ({ w with calls := w.calls ++ [c] } : World).phase i = some p) :
    w.phase i = some p ∨ p = c.phase := by
  obtain ⟨c', hc, rfl⟩ := map_eq_some_iff.1 h
  rcases getElem?_concat hc with hc | ⟨-, rfl⟩
  · exact .inl (phase_of_call hc rfl)
  · exact .inr rfl

@[simp] theorem World.setPhase_request : (w.setPhase k p).request i = w.request i := by
  simp only [World.request, World.setPhase, List.getElem?_modify]
  split
  · cases w.calls[i]? <;> rfl
  · cases w.calls[i]? <;> rfl

theorem World.setPhase_phase :
    (w.setPhase k p).phase i = if k = i then (w.phase i).map fun _ => p else w.phase i := by
  simp only [World.phase, World.setPhase, List.getElem?_modify]
  split
  · cases w.calls[i]? <;> rfl
  · cases w.calls[i]? <;> rfl

theorem phase_setPhase (h₀ : w.phase k = some p₀) {p' : Phase}
    (h : (w.setPhase k p).phase i = some p') :
    (i = k ∧ p' = p) ∨ (i ≠ k ∧ w.phase i = some p') := by
  rw [World.setPhase_phase] at h
  split at h
  next heq =>
    subst heq
    rw [h₀] at h
    exact .inl ⟨rfl, (Option.some.inj h).symm⟩
  next hne => exact .inr ⟨Ne.symm hne, h⟩

theorem setPhase_self (h₀ : w.phase i = some p₀) : (w.setPhase i p).phase i = some p := by
  rw [World.setPhase_phase, if_pos rfl, h₀]
  rfl

end

/-! ## The property -/

/-- The request `s` went upstream as `q` asks for, was answered without an error for `tp`, and
had the records there of every request it was merged from, of which that of call `i` is one. -/
def Delivered (libs : Libraries) (s : Sent) (i : Nat) (q : ProduceRequest) (tp : Topition) : Prop :=
  s.request.acks = q.acks ∧ s.request.transactionalId = q.transactionalId ∧
    (∃ response p, s.answer = some response ∧ (tp, p) ∈ response.partitions ∧ p.errorCode = 0) ∧
    ⟨i, q⟩ ∈ s.queued ∧
    ∃ merged, (tp, some merged) ∈ s.request.partitions ∧
      Carries libs (gathered s.queued tp) merged

/-- An answer covers the partitions of its request, and what it reports as produced was sent. -/
structure RightAnswer (libs : Libraries) (sent : List Sent) (i : Nat) (q : ProduceRequest)
    (own : ProduceResponse) : Prop where
  covers : ∀ tp, tp ∈ own.topitions ↔ tp ∈ q.topitions
  delivered : ∀ tp p, (tp, p) ∈ own.partitions → p.errorCode = 0 →
    ∀ batches, (tp, some batches) ∈ q.partitions → ∃ s ∈ sent, Delivered libs s i q tp

/-- The request of call `i` waits to be sent, is being sent, or has its answer. -/
inductive Located (w : World) (i : Nat) : Prop
  | queued (hi : i ∈ w.requests.map BatchRequest.id)
  | sending {j : Nat} {after : After} {queued : List BatchRequest} {request : ProduceRequest}
    (h : w.phase j = some (.sending after queued request)) (hi : i ∈ queued.map BatchRequest.id)
  | answering {j : Nat} {after : After} {queued : List BatchRequest} {response : ProduceResponse}
    (h : w.phase j = some (.answering after queued response))
    (hi : i ∈ queued.map BatchRequest.id)
  | responded {own : ProduceResponse} (h : w.responses i = some (.response own))

/-- Every call that has queued its request has returned, or its request is located. -/
def NoneLost (w : World) : Prop :=
  ∀ i p, w.phase i = some p → p ≠ .start → (∀ own, p ≠ .returned own) → Located w i

/-- Every call that has queued its request has the right answer, or one is on its way. -/
structure AnswersEveryone (libs : Libraries) (w : World) : Prop where
  noneLost : NoneLost w
  right : ∀ i q own, w.request i = some q → w.phase i = some (.returned own) →
    RightAnswer libs w.sent i q own

/-! ## The condition -/

/-- The request asks for what a merged request asks for, and comes with records for each of its
partitions, of which it has one. -/
def Plain (q : ProduceRequest) : Prop :=
  q.acks = 0 ∧ q.transactionalId = none ∧ q.partitions ≠ [] ∧ ∀ p ∈ q.partitions, p.2.isSome

instance (q : ProduceRequest) : Decidable (Plain q) :=
  haveI : Decidable (q.partitions ≠ []) :=
    decidable_of_iff (q.partitions.isEmpty = false) (by simp)
  inferInstanceAs (Decidable (_ ∧ _ ∧ _ ∧ _))

instance (batches : List Deflated.Batch) : Decidable (Mergeable libs batches) :=
  inferInstanceAs (Decidable (_ ∧ _))

/-- The requests of a queue can be merged. -/
def Joinable (libs : Libraries) (queued : List BatchRequest) : Prop :=
  ∀ r ∈ queued, Plain r.request ∧ ∀ tp ∈ r.request.topitions, Mergeable libs (gathered queued tp)

instance (queued : List BatchRequest) : Decidable (Joinable libs queued) :=
  inferInstanceAs (Decidable (∀ r ∈ queued, _ ∧ _))

/-- The answer has the partitions of the request. -/
def AnswersExactly (request : ProduceRequest) (response : ProduceResponse) : Prop :=
  (∀ tp ∈ response.topitions, tp ∈ request.topitions) ∧
    ∀ tp ∈ request.topitions, tp ∈ response.topitions

instance (request : ProduceRequest) (response : ProduceResponse) :
    Decidable (AnswersExactly request response) := inferInstanceAs (Decidable (_ ∧ _))

/-- The upstream service answers a call that sends, with the partitions it was sent. -/
def AnswersCall (answer : Option ProduceResponse) : Option Phase → Prop
  | some (.sending _ _ request) => answer.any fun response => AnswersExactly request response
  | _ => True

instance (answer : Option ProduceResponse) : ∀ phase, Decidable (AnswersCall answer phase)
  | some (.sending _ _ _) => inferInstanceAs (Decidable (_ = true))
  | some .start | some .check | some (.flush _) | some (.answering _ _ _) | some .waiting
  | some (.returned _) | some .panicked | none => inferInstanceAs (Decidable True)

/-- Queues are taken that can be merged, and the upstream service answers what it is sent. -/
def Faithful (libs : Libraries) (w : World) : Action → Prop
  | .take _ => Joinable libs w.requests
  | .upstream i answer => AnswersCall answer (w.phase i)
  | _ => True

instance (w : World) : ∀ a, Decidable (Faithful libs w a)
  | .take _ => inferInstanceAs (Decidable (Joinable libs w.requests))
  | .upstream i answer => inferInstanceAs (Decidable (AnswersCall answer (w.phase i)))
  | .call _ _ | .enqueue _ | .check _ | .answer _ | .poll _ | .expire _ =>
    inferInstanceAs (Decidable True)

/-! ## A flush -/

section

variable {queued : List BatchRequest} {request : ProduceRequest} {response : ProduceResponse}
  {requestOf : Nat → Option ProduceRequest} {sent sent' : List Sent}

/-- The queued requests are those of their calls. -/
def Known (requestOf : Nat → Option ProduceRequest) (queued : List BatchRequest) : Prop :=
  ∀ r ∈ queued, requestOf r.id = some r.request

/-- A queue that was joined to `request`, which was answered with `response`. -/
structure Answered (libs : Libraries) (sent : List Sent) (queued : List BatchRequest)
    (response : ProduceResponse) : Prop where
  joinable : Joinable libs queued
  exactly : ∃ request, produceRequest libs queued = .ok request ∧
    AnswersExactly request response ∧ ⟨queued, request, some response⟩ ∈ sent

variable {own : ProduceResponse} {id : Nat}

theorem RightAnswer.mono {q : ProduceRequest} (hsent : sent ⊆ sent')
    (h : RightAnswer libs sent id q own) : RightAnswer libs sent' id q own := by
  refine ⟨h.covers, fun tp p hp herror batches hbatches => ?_⟩
  obtain ⟨s, hs, hdelivered⟩ := h.delivered tp p hp herror batches hbatches
  exact ⟨s, hsent hs, hdelivered⟩

/-- Every owner of the flush gets the right answer. -/
theorem Answered.right (hlibs : libs.Inverse) (h : Answered libs sent queued response)
    (hknown : Known requestOf queued) {r : BatchRequest} (hr : r ∈ queued) :
    ∃ own, (split (owners queued) response)[r.id]? = some own ∧
      RightAnswer libs sent r.id r.request own := by
  obtain ⟨request, hrequest, ⟨-, hback⟩, hsent⟩ := h.exactly
  obtain ⟨⟨hacks, htransaction, hne, hsome⟩, hmerge⟩ := h.joinable r hr
  obtain ⟨hacks', htransaction', htopitions, -⟩ := produceRequest_spec hrequest
  have hanswered : ∀ tp ∈ r.request.topitions, tp ∈ response.topitions := by
    intro tp htp
    obtain ⟨⟨tp', o⟩, hp, rfl⟩ := List.mem_map.1 htp
    obtain ⟨batches, rfl⟩ := isSome_iff_exists.1 (hsome _ hp)
    exact hback _ ((htopitions _).2 ⟨r, hr, batches, hp⟩)
  have howner : ∀ tp, r.id ∈ (owners queued)[tp]?.getD [] ↔ tp ∈ r.request.topitions := by
    intro tp
    rw [mem_owners]
    constructor
    · rintro ⟨r', hr', hid, htp⟩
      have hsame : r'.request = r.request :=
        Option.some.inj ((hknown r' hr').symm.trans ((congrArg requestOf hid).trans (hknown r hr)))
      exact hsame ▸ htp
    · exact fun htp => ⟨r, hr, rfl, htp⟩
  obtain ⟨own, hown, hcovers, hpartitions⟩ : ∃ own, (split (owners queued) response)[r.id]? =
      some own ∧ (∀ tp, tp ∈ own.topitions ↔
        tp ∈ response.topitions ∧ r.id ∈ (owners queued)[tp]?.getD []) ∧
      ∀ p ∈ own.partitions, p ∈ response.partitions := by
    obtain ⟨e, he⟩ := exists_mem_of_ne_nil _ hne
    have htp : e.1 ∈ r.request.topitions := List.mem_map.2 ⟨e, he, rfl⟩
    obtain ⟨p, hp, hkey⟩ := List.mem_map.1 (hanswered _ htp)
    exact split_spec ⟨p, hp, hkey ▸ (howner _).2 htp⟩
  refine ⟨own, hown, fun tp => ?_, fun tp p hp herror batches hbatches => ?_⟩
  · rw [hcovers, howner]
    exact ⟨And.right, fun htp => ⟨hanswered tp htp, htp⟩⟩
  · have htp : tp ∈ r.request.topitions := List.mem_map.2 ⟨_, hbatches, rfl⟩
    obtain ⟨merged, hmerged, hcarries⟩ :=
      carries_of_produceRequest hlibs hrequest hr hbatches (hmerge tp htp)
    exact ⟨⟨queued, request, some response⟩, hsent, hacks'.trans hacks.symm,
      htransaction'.trans htransaction.symm, ⟨response, p, rfl, hpartitions _ hp, herror⟩, hr,
      merged, hmerged, hcarries⟩

theorem exists_owner (h : (split (owners queued) response)[id]? = some own) :
    ∃ r ∈ queued, r.id = id := by
  obtain ⟨p, -, hid⟩ := exists_of_split h
  obtain ⟨r, hr, hid, -⟩ := mem_owners.1 hid
  exact ⟨r, hr, hid⟩

theorem Answered.right_of_split (hlibs : libs.Inverse) (h : Answered libs sent queued response)
    (hknown : Known requestOf queued) (hown : (split (owners queued) response)[id]? = some own) :
    ∃ q, requestOf id = some q ∧ RightAnswer libs sent id q own := by
  obtain ⟨r, hr, rfl⟩ := exists_owner hown
  obtain ⟨own', hown', hright⟩ := h.right hlibs hknown hr
  obtain rfl : own' = own := Option.some.inj (hown'.symm.trans hown)
  exact ⟨r.request, hknown r hr, hright⟩

end

/-! ## The invariant -/

/-- What is known of a call in each phase. -/
def Held (libs : Libraries) (requestOf : Nat → Option ProduceRequest) (sent : List Sent) (i : Nat) :
    Phase → Prop
  | .sending _ queued request => Known requestOf queued ∧ Joinable libs queued ∧
      produceRequest libs queued = .ok request
  | .answering _ queued response => Known requestOf queued ∧ Answered libs sent queued response
  | .returned own => ∃ q, requestOf i = some q ∧ RightAnswer libs sent i q own
  | _ => True

theorem Phase.Idle.held (h : p.Idle) : Held libs requestOf sent i p := by
  cases p with
  | start | check | flush | waiting | panicked => trivial
  | sending | answering | returned => exact h.elim

theorem Held.mono {requestOf' : Nat → Option ProduceRequest} {sent' : List Sent}
    (hrequest : ∀ j q, requestOf j = some q → requestOf' j = some q) (hsent : sent ⊆ sent')
    (h : Held libs requestOf sent i p) : Held libs requestOf' sent' i p := by
  cases p with
  | start | check | flush | waiting | panicked => trivial
  | sending after queued request =>
    obtain ⟨hknown, hrest⟩ := h
    exact ⟨fun r hr => hrequest _ _ (hknown r hr), hrest⟩
  | answering after queued response =>
    obtain ⟨hknown, hjoinable, request, hrequest', hexactly, hmem⟩ := h
    exact ⟨fun r hr => hrequest _ _ (hknown r hr), hjoinable, request, hrequest', hexactly,
      hsent hmem⟩
  | returned own =>
    obtain ⟨q, hq, hright⟩ := h
    exact ⟨q, hrequest _ _ hq, hright.mono hsent⟩

structure Inv (libs : Libraries) (w : World) : Prop where
  queue : Known w.request w.requests
  held : ∀ i p, w.phase i = some p → Held libs w.request w.sent i p
  responded : ∀ i own, w.responses i = some (.response own) →
    ∃ q, w.request i = some q ∧ RightAnswer libs w.sent i q own

theorem inv_init : Inv libs World.init where
  queue := by simp [Known, World.init]
  held _ _ h := by cases h
  responded _ _ h := by cases h

/-- A call moves on from phase `p₀` to `p`, after what it did to the rest of the state. -/
theorem Inv.setPhase {k : Nat} {p₀ : Phase} {w₁ : World} (h : Inv libs w) (h₀ : w.phase k = some p₀)
    (hcalls : w₁.calls = w.calls) (hsent : w.sent ⊆ w₁.sent) (hqueue : Known w.request w₁.requests)
    (hp : Held libs w.request w₁.sent k p)
    (hresponded : ∀ i own, w₁.responses i = some (.response own) →
      ∃ q, w.request i = some q ∧ RightAnswer libs w₁.sent i q own) :
    Inv libs (w₁.setPhase k p) := by
  have hrequest : (w₁.setPhase k p).request = w.request := by
    funext i
    rw [World.setPhase_request, World.request, World.request, hcalls]
  have hphase : ∀ i, w₁.phase i = w.phase i := fun i => by rw [World.phase, World.phase, hcalls]
  refine ⟨hrequest ▸ hqueue, fun i p' hi => ?_, fun i own hi => ?_⟩
  · rw [hrequest]
    rcases phase_setPhase ((hphase k).trans h₀) hi with ⟨rfl, rfl⟩ | ⟨-, hold⟩
    · exact hp
    · exact (h.held i p' ((hphase i).symm.trans hold)).mono (fun _ _ => id) hsent
  · rw [hrequest]
    exact hresponded i own hi

theorem Inv.step (hlibs : libs.Inverse) (h : Inv libs w) (he : Effect libs w a w')
    (hfaithful : Faithful libs w a) : Inv libs w' := by
  cases he with
  | call config request =>
    refine ⟨fun r hr => request_called (h.queue r hr), fun i p hi => ?_, fun i own hi => ?_⟩
    · rcases phase_of_called hi with hold | rfl
      · exact (h.held i p hold).mono (fun _ _ => request_called) (fun _ => id)
      · trivial
    · obtain ⟨q, hq, hright⟩ := h.responded i own hi
      exact ⟨q, request_called hq, hright⟩
  | @enqueue i c hc hphase =>
    refine h.setPhase (phase_of_call hc rfl) rfl (fun _ => id) ?_ trivial h.responded
    intro r hr
    rcases mem_append.1 hr with hr | hr
    · exact h.queue r hr
    · obtain rfl := mem_singleton.1 hr
      rw [World.request, hc]
      rfl
  | idle hc hphase hidle =>
    exact h.setPhase (phase_of_call hc rfl) rfl (fun _ => id) h.queue hidle.held h.responded
  | panicked hc =>
    exact h.setPhase (phase_of_call hc rfl) rfl (fun _ => id) (by simp [Known, World.drain]) trivial
      h.responded
  | take hc hphase hrequest =>
    exact h.setPhase (phase_of_call hc rfl) rfl (fun _ => id) (by simp [Known, World.drain])
      ⟨h.queue, hfaithful, hrequest⟩ h.responded
  | @failed i c after queued request hc hphase =>
    have hbad : AnswersCall none (w.phase i) := hfaithful
    rw [phase_of_call hc hphase] at hbad
    cases hbad
  | @sent i c after queued request response hc hphase =>
    have hsub : w.sent ⊆ w.sent ++ [⟨queued, request, some response⟩] := subset_append_left _ _
    have hanswers : AnswersCall (some response) (w.phase i) := hfaithful
    rw [phase_of_call hc hphase] at hanswers
    obtain ⟨hknown, hjoinable, hrequest⟩ := h.held i _ (phase_of_call hc hphase)
    refine h.setPhase (phase_of_call hc rfl) rfl hsub h.queue ?_ ?_
    · exact ⟨hknown, hjoinable, request, hrequest, of_decide_eq_true hanswers,
        mem_append_right _ (mem_singleton_self _)⟩
    · intro j own hj
      obtain ⟨q, hq, hright⟩ := h.responded j own hj
      exact ⟨q, hq, hright.mono hsub⟩
  | @own i c after queued response own hc hphase hown =>
    obtain ⟨hknown, hanswered⟩ := h.held i _ (phase_of_call hc hphase)
    refine h.setPhase (phase_of_call hc rfl) rfl (fun _ => id) h.queue
      (hanswered.right_of_split hlibs hknown hown) ?_
    intro j own' hj
    change (Option.map _ _).or _ = _ at hj
    rw [BTreeMap.getElem?_erase_eq] at hj
    by_cases hij : i = j
    · subst hij
      simp [World.setResponse] at hj
    · rw [if_neg hij] at hj
      cases hsplit : (split (owners queued) response)[j]? with
      | none =>
        rw [hsplit] at hj
        exact h.responded j own' ((Function.update_of_ne (Ne.symm hij) _ _).symm.trans hj)
      | some own'' =>
        rw [hsplit] at hj
        cases hj
        exact hanswered.right_of_split hlibs hknown hsplit
  | @others i c after queued response hc hphase hown =>
    obtain ⟨hknown, hanswered⟩ := h.held i _ (phase_of_call hc hphase)
    refine h.setPhase (phase_of_call hc rfl) rfl (fun _ => id) h.queue after.phase_idle.held ?_
    intro j own' hj
    change (Option.map _ _).or _ = _ at hj
    cases hsplit : (split (owners queued) response)[j]? with
    | none =>
      rw [hsplit] at hj
      exact h.responded j own' hj
    | some own'' =>
      rw [hsplit] at hj
      cases hj
      exact hanswered.right_of_split hlibs hknown hsplit
  | @ready i c own hc hphase hresponse =>
    refine h.setPhase (phase_of_call hc rfl) rfl (fun _ => id) h.queue
      (h.responded i own hresponse) ?_
    intro j own' hj
    change Function.update w.responses i none j = _ at hj
    by_cases hij : j = i
    · subst hij
      rw [Function.update_self] at hj
      cases hj
    · exact h.responded j own' ((Function.update_of_ne hij _ _).symm.trans hj)
  | @pending i c response hc hphase hold hnew =>
    refine ⟨h.queue, h.held, fun j own' hj => ?_⟩
    change Function.update w.responses i response j = _ at hj
    by_cases hij : j = i
    · subst hij
      rw [Function.update_self] at hj
      exact absurd hj (hnew own')
    · exact h.responded j own' ((Function.update_of_ne hij _ _).symm.trans hj)

/-! ## No request is lost -/

section

variable {i k : Nat} {p p₀ : Phase} {w₁ : World}

/-- A request stays located when call `k` moves on, unless `k` held it or had its answer. -/
theorem Located.setPhase (h : Located w i) (h₀ : w.phase k = some p₀) (hcalls : w₁.calls = w.calls)
    (hqueue : i ∈ w.requests.map BatchRequest.id → Located (w₁.setPhase k p) i)
    (hsending : ∀ after queued request, p₀ = .sending after queued request →
      i ∈ queued.map BatchRequest.id → Located (w₁.setPhase k p) i)
    (hanswering : ∀ after queued response, p₀ = .answering after queued response →
      i ∈ queued.map BatchRequest.id → Located (w₁.setPhase k p) i)
    (hresponded : ∀ own, w.responses i = some (.response own) →
      ∃ own, w₁.responses i = some (.response own)) : Located (w₁.setPhase k p) i := by
  have hkeep : ∀ {j p'}, w.phase j = some p' → j ≠ k → (w₁.setPhase k p).phase j = some p' := by
    intro j p' hj hne
    rw [World.setPhase_phase, if_neg (Ne.symm hne), World.phase, hcalls]
    exact hj
  cases h with
  | queued hi => exact hqueue hi
  | @sending j after queued request h hi =>
    by_cases hjk : j = k
    · subst hjk
      exact hsending after queued request (Option.some.inj (h₀.symm.trans h)) hi
    · exact .sending (hkeep h hjk) hi
  | @answering j after queued response h hi =>
    by_cases hjk : j = k
    · subst hjk
      exact hanswering after queued response (Option.some.inj (h₀.symm.trans h)) hi
    · exact .answering (hkeep h hjk) hi
  | responded h =>
    obtain ⟨own, hown⟩ := hresponded _ h
    exact .responded hown

theorem Located.of_idle (h : Located w i) (h₀ : w.phase k = some p₀) (hidle : p₀.Idle)
    (hcalls : w₁.calls = w.calls) (hrequests : w₁.requests = w.requests)
    (hresponded : ∀ own, w.responses i = some (.response own) →
      ∃ own, w₁.responses i = some (.response own)) : Located (w₁.setPhase k p) i := by
  refine h.setPhase h₀ hcalls (fun hi => .queued ?_) ?_ ?_ hresponded
  · change i ∈ w₁.requests.map BatchRequest.id
    rw [hrequests]
    exact hi
  · rintro after queued request rfl
    exact hidle.elim
  · rintro after queued response rfl
    exact hidle.elim

/-- Call `k` hands out the parts of an answer: its requests have theirs. -/
theorem Located.of_split {after : After} {queued : List BatchRequest} {response : ProduceResponse}
    (h : Located w i) (hlibs : libs.Inverse) (hinv : Inv libs w)
    (h₀ : w.phase k = some (.answering after queued response)) (hcalls : w₁.calls = w.calls)
    (hrequests : w₁.requests = w.requests) (hresponses : w₁.responses i =
      (((split (owners queued) response)[i]?).map BatchResponse.response).or (w.responses i)) :
    Located (w₁.setPhase k p) i := by
  obtain ⟨hknown, hanswered⟩ := hinv.held k _ h₀
  refine h.setPhase h₀ hcalls (fun hmem => .queued (hrequests ▸ hmem)) (by simp) ?_
    fun own hown => ?_
  · rintro after' queued' response' heq hmem
    cases heq
    obtain ⟨r, hr, rfl⟩ := List.mem_map.1 hmem
    obtain ⟨own, hown, -⟩ := hanswered.right hlibs hknown hr
    exact @Located.responded _ _ own (hresponses.trans (by rw [hown]; rfl))
  · rw [hresponses]
    cases (split (owners queued) response)[i]? with
    | none => exact ⟨own, hown⟩
    | some own' => exact ⟨own', rfl⟩

theorem NoneLost.located (h : NoneLost w) (h₀ : w.phase k = some p₀) (hstart : p₀ ≠ .start)
    (hreturned : ∀ own, p₀ ≠ .returned own) (hcalls : w₁.calls = w.calls) {p' : Phase}
    (hi : (w₁.setPhase k p).phase i = some p') (hs : p' ≠ .start)
    (hr : ∀ own, p' ≠ .returned own) : Located w i := by
  have hphase : ∀ j, w₁.phase j = w.phase j := fun j => by rw [World.phase, World.phase, hcalls]
  rcases phase_setPhase ((hphase k).trans h₀) hi with ⟨rfl, -⟩ | ⟨-, hold⟩
  · exact h i p₀ h₀ hstart hreturned
  · exact h i p' ((hphase i).symm.trans hold) hs hr

theorem Phase.Idle.not_start (h : p.Idle) : p ≠ .start := by
  rintro rfl
  exact h

theorem Phase.Idle.not_returned (h : p.Idle) (own : ProduceResponse) : p ≠ .returned own := by
  rintro rfl
  exact h

end

/-- A queue that can be merged is merged without a panic. -/
theorem Joinable.exists_produceRequest {queued : List BatchRequest} (h : Joinable libs queued) :
    ∃ request, produceRequest libs queued = .ok request := by
  obtain ⟨run, hrun⟩ : ∃ run, (topicPartitionBatch queued).toList.mapM (fun p =>
      (combineOrDefault libs p.2).map (p.1, ·)) = .ok run := by
    refine exists_mapM_eq_ok ?_
    rintro ⟨tp, batches⟩ hp
    rw [ExtTreeMap.mem_toList_iff_getElem?_eq_some, topicPartitionBatch_getElem?] at hp
    split at hp
    next hmem =>
      cases hp
      obtain ⟨⟨tp', batches'⟩, hrecords, rfl⟩ := List.mem_map.1 hmem
      obtain ⟨r, hr, hpart⟩ := mem_recordsOf.1 hrecords
      obtain ⟨hok, -⟩ := (h r hr).2 tp' (List.mem_map.2 ⟨_, hpart, rfl⟩)
      unfold combineOrDefault
      cases hcombine : combine libs (gathered queued tp') with
      | error e =>
        rw [hcombine] at hok
        cases hok
      | ok merged => exact ⟨(tp', merged), rfl⟩
    next => cases hp
  unfold produceRequest
  rw [hrun]
  exact ⟨_, rfl⟩

theorem NoneLost.step (hlibs : libs.Inverse) (hinv : Inv libs w) (h : NoneLost w)
    (he : Effect libs w a w') (hfaithful : Faithful libs w a) : NoneLost w' := by
  intro i p hi hs hr
  cases he with
  | call config request =>
    have hold : w.phase i = some p := (phase_of_called hi).resolve_right hs
    cases h i p hold hs hr with
    | queued hmem => exact .queued hmem
    | sending hj hmem => exact .sending (phase_called hj) hmem
    | answering hj hmem => exact .answering (phase_called hj) hmem
    | responded hown => exact .responded hown
  | @enqueue k c hc hphase =>
    have h₀ := phase_of_call hc hphase
    rcases phase_setPhase (w := w.push ⟨k, c.request⟩) h₀ hi with ⟨rfl, -⟩ | ⟨-, hold⟩
    · exact .queued (by simp [World.push, World.setPhase])
    · refine (h i p hold hs hr).setPhase h₀ rfl (fun hmem => .queued ?_) (by simp) (by simp)
        fun own hown => ⟨own, hown⟩
      change i ∈ (w.requests ++ [(⟨k, c.request⟩ : BatchRequest)]).map BatchRequest.id
      rw [map_append]
      exact mem_append_left _ hmem
  | @idle _ k c phase hc hphase hidle =>
    have h₀ := phase_of_call hc rfl
    exact (h.located h₀ hphase.not_start hphase.not_returned rfl hi hs hr).of_idle h₀ hphase rfl rfl
      fun own hown => ⟨own, hown⟩
  | @panicked k c after panic hc hphase hrequest =>
    obtain ⟨request, hok⟩ := Joinable.exists_produceRequest hfaithful
    cases hrequest.symm.trans hok
  | @take k c after request hc hphase hrequest =>
    have h₀ := phase_of_call hc hphase
    refine (h.located h₀ (by simp) (by simp) rfl hi hs hr).setPhase h₀ rfl (fun hmem => ?_)
      (by simp) (by simp) fun own hown => ⟨own, hown⟩
    exact .sending (setPhase_self (w := w.drain) h₀) hmem
  | @failed k c after queued request hc hphase =>
    have hbad : AnswersCall none (w.phase k) := hfaithful
    rw [phase_of_call hc hphase] at hbad
    cases hbad
  | @sent k c after queued request response hc hphase =>
    have h₀ := phase_of_call hc hphase
    refine (h.located h₀ (by simp) (by simp) rfl hi hs hr).setPhase h₀ rfl
      (fun hmem => .queued hmem) ?_ (by simp) fun own hown => ⟨own, hown⟩
    rintro after' queued' request' heq hmem
    cases heq
    exact .answering (setPhase_self (w := w.record _) h₀) hmem
  | @own k c after queued response own hc hphase hown =>
    have h₀ := phase_of_call hc hphase
    have hne : i ≠ k := by
      rintro rfl
      rcases phase_setPhase (w := (w.setResponse i none).respond _) h₀ hi with ⟨-, rfl⟩ | ⟨hne, -⟩
      · exact hr own rfl
      · exact hne rfl
    have hresponses : ((w.setResponse k none).respond
        ((split (owners queued) response).erase k)).responses i =
        (((split (owners queued) response)[i]?).map BatchResponse.response).or (w.responses i) := by
      change (Option.map _ _).or (Function.update w.responses k none i) = _
      rw [BTreeMap.getElem?_erase_eq, if_neg (Ne.symm hne), Function.update_of_ne hne]
    exact (h.located h₀ (by simp) (by simp) rfl hi hs hr).of_split hlibs hinv h₀ rfl rfl hresponses
  | @others k c after queued response hc hphase hown =>
    have h₀ := phase_of_call hc hphase
    exact (h.located h₀ (by simp) (by simp) rfl hi hs hr).of_split hlibs hinv h₀ rfl rfl rfl
  | @ready k c own hc hphase hresponse =>
    have h₀ := phase_of_call hc hphase
    rcases phase_setPhase (w := w.setResponse k none) h₀ hi with ⟨rfl, rfl⟩ | ⟨hne, hold⟩
    · exact absurd rfl (hr own)
    · exact (h i p hold hs hr).of_idle h₀ trivial rfl rfl
        fun own' hown' => ⟨own', (Function.update_of_ne hne _ _).trans hown'⟩
  | @pending k c response hc hphase hold hnew =>
    cases h i p hi hs hr with
    | queued hmem => exact .queued hmem
    | sending hj hmem => exact .sending hj hmem
    | answering hj hmem => exact .answering hj hmem
    | responded hown =>
      have hne : i ≠ k := by
        rintro rfl
        exact hold _ hown
      exact .responded ((Function.update_of_ne hne _ _).trans hown)

theorem noneLost_init : NoneLost World.init := fun _ _ h => by cases h

/-- Every call is answered, and rightly, while the queues that are taken can be merged and the
upstream service answers what it is sent.  A merged request holds the batches of its calls in
the order of the queue, and the split hands each the answer to its own (`Held`). -/
theorem merged_requests_answered (libs : Libraries) (hlibs : libs.Inverse) (w : World)
    (h : (system libs).Reach (Faithful libs) World.init w) : AnswersEveryone libs w := by
  have hboth : Inv libs w ∧ NoneLost w := by
    refine h.invariant (I := fun w => Inv libs w ∧ NoneLost w) ⟨inv_init, noneLost_init⟩ ?_
    rintro w w' a - ⟨hinv, hlost⟩ hfaithful hs
    have he := effect_of_step hs
    exact ⟨hinv.step hlibs he hfaithful, hlost.step hlibs hinv he hfaithful⟩
  refine ⟨hboth.2, fun i q own hq hreturned => ?_⟩
  obtain ⟨q', hq', hright⟩ := hboth.1.held i _ hreturned
  obtain rfl : q' = q := Option.some.inj (hq'.symm.trans hq)
  exact hright

/-! ### Runs -/

namespace Example

open Deflated.Example (stored small)

def partition : Topition := ⟨"t", 0⟩

/-- A batch of one record. -/
def batch : Deflated.Batch :=
  { baseOffset := 0
    batchLength := 0
    partitionLeaderEpoch := -1
    magic := 2
    crc := 0
    attributes := 0
    lastOffsetDelta := 0
    baseTimestamp := 1707058170165
    maxTimestamp := 1707058170165
    producerId := -1
    producerEpoch := -1
    baseSequence := -1
    recordCount := 1
    recordData := small.wire }

/-- One record for one partition. -/
def request (acks : Int16) : ProduceRequest :=
  { acks
    topicData := some [{ name := "t", partitionData := some [⟨0, some [batch]⟩] }] }

/-- The partition is answered without an error. -/
def produced : ProduceResponse :=
  { responses := some [{ name := "t", partitionResponses := some [⟨0, 0, 32, none, none, none⟩] }]
    throttleTimeMs := some 0 }

/-- A call waits for others, and sends what there is when its patience runs out. -/
def alone (acks : Int16) : List Action :=
  [.call (fun _ => none) (request acks), .enqueue 0, .check 0, .poll 0, .expire 0, .take 0]

/-- The only call is back at the head of its loop, without its request or an answer. -/
def waitsInVain (w : World) : Bool :=
  decide (w.calls.length = 1) && w.requests.isEmpty &&
    (match w.phase 0 with
      | some .check => true
      | _ => false) &&
    match w.responses 0 with
    | some (.response _) => false
    | _ => true

theorem lost_of_waitsInVain (h : waitsInVain w = true) : ¬ NoneLost w := by
  simp only [waitsInVain, Bool.and_eq_true, decide_eq_true_eq, List.isEmpty_iff] at h
  obtain ⟨⟨⟨hlength, hrequests⟩, hcheck⟩, hresponse⟩ := h
  split at hcheck
  next hphase =>
    have honly : ∀ j p, w.phase j = some p → p = .check := by
      intro j p hj
      obtain ⟨c, hc, -⟩ := map_eq_some_iff.1 hj
      have hlt := (List.getElem?_eq_some_iff.1 hc).1
      obtain rfl : j = 0 := by omega
      exact Option.some.inj (hj.symm.trans hphase)
    intro hno
    cases hno 0 .check hphase (by simp) (by simp) with
    | queued hi => simp [hrequests] at hi
    | sending hj => cases honly _ _ hj
    | answering hj => cases honly _ _ hj
    | responded hown =>
      rw [hown] at hresponse
      cases hresponse
  next => cases hcheck

/-- The only call was told that its record is produced, and nothing was sent with its acks. -/
def toldWrongly (w : World) : Bool :=
  match w.request 0, w.phase 0 with
  | some q, some (.returned own) =>
    (own.partitions.any fun p => decide (p.1 = partition ∧ p.2.errorCode = 0)) &&
      (q.partitions.any fun p => decide (p.1 = partition) && p.2.any fun bs => !bs.isEmpty) &&
      w.sent.all fun s => decide (s.request.acks ≠ q.acks)
  | _, _ => false

theorem wrong_of_toldWrongly (h : toldWrongly w = true) :
    ∃ q own, w.request 0 = some q ∧ w.phase 0 = some (.returned own) ∧
      ¬ RightAnswer libs w.sent 0 q own := by
  unfold toldWrongly at h
  split at h
  next q own hq hphase =>
    refine ⟨q, own, hq, hphase, fun hright => ?_⟩
    simp only [Bool.and_eq_true, List.any_eq_true, List.all_eq_true, decide_eq_true_eq] at h
    obtain ⟨⟨⟨⟨tp, p⟩, hp, rfl, herror⟩, ⟨⟨tp', o⟩, hpart, rfl, ho⟩⟩, hsent⟩ := h
    obtain ⟨batches, rfl, hne⟩ := (Option.any_eq_true _ _).1 ho
    cases batches with
    | nil => cases hne
    | cons b batches =>
      obtain ⟨s, hs, hacks, -⟩ := hright.delivered _ p hp herror _ hpart
      exact hsent s hs hacks
  next => cases h

end Example

open Example Deflated.Example in
/-- A flush fails, and the call that ran it waits for ever; and a call that asks for the
acknowledgement of all the replicas is answered for a request that asked for none. -/
theorem failed_flush_never_answered :
    (∃ w, (system stored).Reach (fun _ _ => True) World.init w ∧ ¬ NoneLost w) ∧
      ∃ w, (system stored).Reach (fun _ _ => True) World.init w ∧
        ∃ q own, w.request 0 = some q ∧ w.phase 0 = some (.returned own) ∧
          ¬ RightAnswer stored w.sent 0 q own := by
  constructor
  · exact (exists_reach (P := fun w => waitsInVain w) (alone 0 ++ [.upstream 0 none])
      (by decide +kernel)).imp fun w h => ⟨h.1, lost_of_waitsInVain h.2⟩
  · exact (exists_reach (P := fun w => toldWrongly w)
      (alone (-1) ++ [.upstream 0 (some produced), .answer 0]) (by decide +kernel)).imp
      fun w h => ⟨h.1, wrong_of_toldWrongly h.2⟩

namespace Example

/-- Two calls for one partition, which the first one sends together. -/
def together : List Action :=
  [.call (fun _ => none) (request 0), .call (fun _ => none) (request 0), .enqueue 0, .enqueue 1,
    .check 0, .check 1, .poll 0, .poll 1, .expire 0, .take 0, .upstream 0 (some produced),
    .answer 0, .poll 1]

def bothReturned (w : World) : Bool :=
  match w.phase 0, w.phase 1 with
  | some (.returned own), some (.returned own') => decide (own = produced ∧ own' = produced)
  | _, _ => false

end Example

open Example Deflated.Example in
theorem joined_calls_answered :
    ∃ w, bothReturned w = true ∧ AnswersEveryone stored w := by
  have hrun : ((system stored).trace (Faithful stored) World.init together).any bothReturned =
      true := by decide +kernel
  obtain ⟨w, hreach, hboth⟩ := reach_of_any hrun
  exact ⟨w, hboth, merged_requests_answered stored stored_inverse w hreach⟩

end Tansu.Proxy
