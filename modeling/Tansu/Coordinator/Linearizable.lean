import Tansu.Coordinator.Brokers

/-!
# The stored groups are one chain of passes

Brokers that share a group work on copies of it, and a copy may be out of date.  What
is stored and what a client is answered never comes from such a copy: every pass that
is stored is a pass on the group that it replaces, and an answer is the body of the
last pass that was stored for its request.

A broker that takes a group from the storage drops a leader that is not a member, and
the broker that stored it does not, so the two work on different groups under one
version.  The chain is one of passes on the *stored* group as long as the leader of
every group is a member.
-/

namespace Tansu.Coordinator.Brokers

open Std Tansu.Lib Machine List System

variable {V : Type}

/-! ## Histories -/

/-- A pass that was stored. -/
structure Accepted where
  task : Nat
  call : Call
  request : Request
  /-- The stored group that it replaced. -/
  replaced : Option GroupDetail
  after : GroupDetail
  body : Body

inductive Event
  | invoked (task : Nat) (call : Call)
  | accepted (pass : Accepted)
  | returned (task : Nat) (body : Body)
  /-- A sync was answered that it timed out. -/
  | timedOut (task : Nat) (body : Body)

def Event.accepted? : Event → Option Accepted
  | .accepted pass => some pass
  | _ => none

def passes (history : List Event) : List Accepted := history.filterMap Event.accepted?

/-- The last pass that was stored for a task. -/
def latest (history : List Event) (i : Nat) : Option Accepted :=
  ((passes history).filter (·.task = i)).getLast?

/-- What a section of task `i` adds to the history. -/
def events (w : BrokerWorld V) (i : Nat) (c : Choice V) (w' : BrokerWorld V) : List Event :=
  match (w.tasks[i]? : Option (List (Section V))) with
  | some (.update call _ request after body :: _) =>
    if w.shared.objects.length < w'.shared.objects.length then
      [.accepted ⟨i, call, request, w.shared.objects.head?.map (·.detail), after.groupDetail, body⟩]
    else []
  | some (.keep call copy body :: _) =>
    match verdict call copy.wrapper c.elapsedMs body with
    | .again => []
    | .done body => [.returned i body]
    | .timedOut body => [.timedOut i body]
  | _ => []

def observe (history : List Event) (w : BrokerWorld V) (l : BrokerLabel V)
    (w' : BrokerWorld V) : List Event :=
  match l with
  | .spawn call => history ++ [.invoked w.tasks.length call]
  | .run i c => history ++ events w i c w'
  | .env _ => history

/-- The brokers with their history. -/
def system [DecidableEq V] : System (BrokerWorld V × List Event) (BrokerLabel V) :=
  machine.system.observe observe

/-- The group does not exist, and no request is in flight. -/
def initially : BrokerWorld V × List Event := (⟨{}, []⟩, [])

/-! ## The specification -/

/-- The group state machine on a stored group. -/
def transition (stored : Option GroupDetail) (r : Request) : Option (GroupDetail × Body) :=
  ((stored.elim r.empty .withStorageGroupDetail).pass r).map (·.map Wrapper.groupDetail id)

/-- One after another, every pass is a transition on what the one before it stored. -/
def Chain : Option GroupDetail → List Accepted → Prop
  | _, [] => True
  | stored, a :: as =>
    a.replaced = stored ∧ transition stored a.request = some (a.after, a.body) ∧
      Chain (some a.after) as

structure Linearized (p : BrokerWorld V × List Event) : Prop where
  chain : Chain none (passes p.2)
  /-- Nothing else is ever stored. -/
  stored : p.1.shared.objects.map (·.detail) = ((passes p.2).map (·.after)).reverse
  /-- A pass is one of the request of its own call. -/
  requested : ∀ a ∈ passes p.2, ∃ c : Choice V, a.request = a.call.pass c
  invoked : ∀ past later a, p.2 = past ++ .accepted a :: later → .invoked a.task a.call ∈ past
  /-- An answer is the body of the last pass that was stored for the request. -/
  returned : ∀ past later i body, p.2 = past ++ .returned i body :: later →
    ∃ a, latest past i = some a ∧ a.body = body
  timedOut : ∀ past later i body, p.2 = past ++ .timedOut i body :: later →
    ∃ a response, latest past i = some a ∧ a.body = .syncGroupResponse response ∧
      body = .syncGroupResponse (setErrorCode response .rebalanceInProgress)

/-- The pass does not lose the leader of the group it works on. -/
def orderly (p : BrokerWorld V × List Event) : BrokerLabel V → Bool
  | .run i c =>
    match (p.1.tasks[i]? : Option (List (Section V))) with
    | some (.handle call copy :: _) => (original copy (call.pass c)).keepsLeader (call.pass c)
    | _ => true
  | _ => true

/-! ## Passes and chains -/

variable {a : Accepted} {history : List Event} {w : Wrapper}

theorem passes_append (h h' : List Event) : passes (h ++ h') = passes h ++ passes h' :=
  filterMap_append

theorem chain_append {stored : Option GroupDetail} {as : List Accepted} (h : Chain stored as)
    (hreplaced : a.replaced = (as.getLast?.map (·.after)).or stored)
    (ha : transition a.replaced a.request = some (a.after, a.body)) : Chain stored (as ++ [a]) := by
  induction as generalizing stored with
  | nil =>
    obtain rfl : a.replaced = stored := by simpa using hreplaced
    exact ⟨rfl, ha, trivial⟩
  | cons b as ih =>
    obtain ⟨hb, htransition, hrest⟩ := h
    refine ⟨hb, htransition, ih hrest ?_⟩
    rw [hreplaced, getLast?_cons]
    cases as.getLast? <;> rfl

theorem latest_append_of_ne {more : List Event} {i : Nat} (h : ∀ a ∈ passes more, a.task ≠ i) :
    latest (history ++ more) i = latest history i := by
  have hnone : (passes more).filter (·.task = i) = [] :=
    filter_eq_nil_iff.2 fun a ha => by simpa using h a ha
  rw [latest, passes_append, filter_append, hnone, append_nil, latest]

theorem latest_accepted : latest (history ++ [.accepted a]) a.task = some a := by
  simp [latest, passes, Event.accepted?]

/-- A leader that is a member survives the way through the storage. -/
theorem withStorageGroupDetail_groupDetail (h : w.Led) :
    Wrapper.withStorageGroupDetail w.groupDetail = w := by
  cases w with
  | formed g =>
    simp only [Wrapper.groupDetail, Wrapper.withStorageGroupDetail, Inner.detail,
      GroupDetail.inner, Wrapper.map_map_members]
  | forming g =>
    have hleader : (g.state.leader.filter fun id =>
        decide (id ∈ (Wrapper.forming g).groupDetail.members)) = g.state.leader := by
      cases hl : g.state.leader with
      | none => rfl
      | some id =>
        rw [Option.filter_some, if_pos]
        exact decide_eq_true (ExtTreeMap.mem_map.2 (h.member id hl))
    change Wrapper.forming ((Wrapper.forming g).groupDetail.inner
      { g.state with leader := g.state.leader.filter _ }) = _
    rw [hleader]
    simp only [Wrapper.groupDetail, Inner.detail, GroupDetail.inner, Wrapper.map_map_members]

/-! ## The invariant -/

/-- The group is stored under the version of the copy, and has its leader. -/
structure Held (objects : List (Stored V)) (copy : Copy V) : Prop where
  led : copy.wrapper.Led
  object : ∃ o ∈ objects, o.version = copy.version ∧ o.detail = copy.wrapper.groupDetail

/-- What is known of a task by the section it is at. -/
def Phase (objects : List (Stored V)) (history : List Event) (i : Nat) : Section V → Prop
  | .take call => .invoked i call ∈ history
  | .handle call copy => .invoked i call ∈ history ∧ ∀ held, copy = some held → Held objects held
  | .update call copy request after body =>
    .invoked i call ∈ history ∧ (∀ held, copy = some held → Held objects held) ∧
      (∃ c : Choice V, request = call.pass c) ∧ after.Led ∧
      (original copy request).pass request = some (after, body)
  | .keep call copy body =>
    .invoked i call ∈ history ∧ Held objects copy ∧ ∃ a, latest history i = some a ∧ a.body = body
  | .refetch call copy => .invoked i call ∈ history ∧ Held objects copy

/-- The group of every copy that a broker keeps is stored. -/
def Kept (objects : List (Stored V)) (copies : BTreeMap Nat (Copy V)) : Prop :=
  ∀ (broker : Nat) (copy : Copy V), copies[broker]? = some copy → Held objects copy

structure Inv (p : BrokerWorld V × List Event) : Prop where
  /-- A version names one group. -/
  functional : ∀ o ∈ p.1.shared.objects, ∀ o' ∈ p.1.shared.objects,
    o.version = o'.version → o.detail = o'.detail
  led : ∀ o ∈ p.1.shared.objects, ∃ w : Wrapper, w.Led ∧ w.groupDetail = o.detail
  copies : Kept p.1.shared.objects p.1.shared.copies
  phases : Sequential (Phase p.1.shared.objects p.2) p.1.tasks
  linearized : Linearized p

section Steps

variable {objects objects' : List (Stored V)} {history more : List Event} {i : Nat}
  {w w' : BrokerWorld V} {copy : Copy V}

theorem Held.mono (h : Held objects copy) (hsub : objects ⊆ objects') : Held objects' copy := by
  obtain ⟨o, ho, hv⟩ := h.object
  exact ⟨h.led, o, hsub ho, hv⟩

variable {todo rest : List (Section V)} {s : Shared V} {a : Section V}
  {copies : BTreeMap Nat (Copy V)} {broker : Nat}

/-- What is known of a task stays known while others run. -/
theorem Phase.mono (h : Phase objects history i a) (hsub : objects ⊆ objects')
    (hmore : ∀ a ∈ passes more, a.task ≠ i) : Phase objects' (history ++ more) i a := by
  cases a with
  | take => exact mem_append_left _ h
  | handle =>
    obtain ⟨hinv, hheld⟩ := h
    exact ⟨mem_append_left _ hinv, fun held heq => (hheld held heq).mono hsub⟩
  | update =>
    obtain ⟨hinv, hheld, hrest⟩ := h
    exact ⟨mem_append_left _ hinv, fun held heq => (hheld held heq).mono hsub, hrest⟩
  | keep =>
    obtain ⟨hinv, hheld, hlatest⟩ := h
    exact ⟨mem_append_left _ hinv, hheld.mono hsub, by rwa [latest_append_of_ne hmore]⟩
  | refetch =>
    obtain ⟨hinv, hheld⟩ := h
    exact ⟨mem_append_left _ hinv, hheld.mono hsub⟩

/-- What a pass that is stored has to be. -/
structure Accepts (w : BrokerWorld V) (history : List Event) (a : Accepted) : Prop where
  replaced : a.replaced = w.shared.objects.head?.map (·.detail)
  transition : transition a.replaced a.request = some (a.after, a.body)
  requested : ∃ c : Choice V, a.request = a.call.pass c
  invoked : .invoked a.task a.call ∈ history

theorem Linearized.head (h : Linearized (w, history)) :
    w.shared.objects.head?.map (·.detail) = (passes history).getLast?.map (·.after) := by
  have hstored := congrArg List.head? h.stored
  simpa [head?_reverse, getLast?_map] using hstored

theorem Linearized.push {ev : Event} (h : Linearized (w, history))
    (haccepted : ∀ a, ev = .accepted a → Accepts w history a)
    (hreturned : ∀ i body, ev = .returned i body → ∃ a, latest history i = some a ∧ a.body = body)
    (htimedOut : ∀ i body, ev = .timedOut i body →
      ∃ a response, latest history i = some a ∧ a.body = .syncGroupResponse response ∧
        body = .syncGroupResponse (setErrorCode response .rebalanceInProgress))
    (hobjects : w'.shared.objects.map (·.detail) =
      (passes [ev]).map (·.after) ++ w.shared.objects.map (·.detail)) :
    Linearized (w', history ++ [ev]) := by
  have hpasses : passes (history ++ [ev]) = passes history ++ passes [ev] :=
    passes_append history [ev]
  have hold (hnone : passes [ev] = []) : passes (history ++ [ev]) = passes history := by
    rw [hpasses, hnone, append_nil]
  refine ⟨?_, ?_, ?_, ?_, ?_, ?_⟩
  · dsimp only
    cases ev with
    | accepted a =>
      have ha := haccepted a rfl
      rw [hpasses]
      refine chain_append h.chain ?_ ha.transition
      rw [ha.replaced, h.head, Option.or_none]
    | invoked | returned | timedOut =>
      rw [hold rfl]
      exact h.chain
  · dsimp only
    rw [hobjects, hpasses, h.stored, map_append, reverse_append]
    cases ev <;> rfl
  · intro a ha
    dsimp only at ha
    rw [hpasses] at ha
    rcases mem_append.1 ha with ha | ha
    · exact h.requested a ha
    · cases ev with
      | accepted b =>
        obtain rfl : a = b := mem_singleton.1 ha
        exact (haccepted a rfl).requested
      | invoked | returned | timedOut => exact absurd ha not_mem_nil
  · intro past later a hsplit
    rcases split_concat hsplit with ⟨later', heq⟩ | ⟨rfl, hev⟩
    · exact h.invoked past later' a heq
    · exact (haccepted a hev.symm).invoked
  · intro past later i body hsplit
    rcases split_concat hsplit with ⟨later', heq⟩ | ⟨rfl, hev⟩
    · exact h.returned past later' i body heq
    · exact hreturned i body hev.symm
  · intro past later i body hsplit
    rcases split_concat hsplit with ⟨later', heq⟩ | ⟨rfl, hev⟩
    · exact h.timedOut past later' i body heq
    · exact htimedOut i body hev.symm

theorem Linearized.congr (h : Linearized (w, history))
    (hobjects : w'.shared.objects = w.shared.objects) : Linearized (w', history) :=
  ⟨h.chain, by rw [hobjects]; exact h.stored, h.requested, h.invoked, h.returned, h.timedOut⟩

/-- Task `i` ran a section: what has to hold of its result. -/
theorem Inv.ran (hi : Inv (w, history)) (hat : At w i a rest)
    (hlin : Linearized (⟨s, w.tasks.set i todo⟩, history ++ more))
    (hfun : ∀ o ∈ s.objects, ∀ o' ∈ s.objects, o.version = o'.version → o.detail = o'.detail)
    (hled : ∀ o ∈ s.objects, ∃ w : Wrapper, w.Led ∧ w.groupDetail = o.detail)
    (hsub : w.shared.objects ⊆ s.objects)
    (hcopies : Kept s.objects s.copies)
    (hphase : Sole (Phase s.objects (history ++ more) i) todo)
    (hmore : ∀ a ∈ passes more, a.task = i) :
    Inv (⟨s, w.tasks.set i todo⟩, history ++ more) :=
  ⟨hfun, hled, hcopies, hi.phases.set hat hphase fun _ _ hji hb =>
    hb.mono hsub fun a ha heq => hji (heq.symm.trans (hmore a ha)), hlin⟩

theorem Inv.quiet (hi : Inv (w, history)) (hat : At w i a rest)
    (hobjects : s.objects = w.shared.objects)
    (hlin : Linearized (⟨s, w.tasks.set i todo⟩, history ++ more))
    (hcopies : Kept w.shared.objects s.copies)
    (hphase : Sole (Phase w.shared.objects (history ++ more) i) todo)
    (hmore : passes more = []) :
    Inv (⟨s, w.tasks.set i todo⟩, history ++ more) := by
  refine hi.ran hat hlin ?_ ?_ ?_ ?_ ?_ ?_
  · rw [hobjects]
    exact hi.functional
  · rw [hobjects]
    exact hi.led
  · rw [hobjects]
    exact List.Subset.refl _
  · rw [hobjects]
    exact hcopies
  · rw [hobjects]
    exact hphase
  · rw [hmore]
    exact fun _ ha => absurd ha not_mem_nil

theorem Inv.silent (hi : Inv (w, history)) (hat : At w i a rest)
    (hobjects : s.objects = w.shared.objects)
    (hcopies : Kept w.shared.objects s.copies)
    (hphase : Sole (Phase w.shared.objects history i) todo) :
    Inv (⟨s, w.tasks.set i todo⟩, history) := by
  have key : Inv (⟨s, w.tasks.set i todo⟩, history ++ []) := by
    refine hi.quiet hat hobjects ?_ hcopies ?_ rfl
    · rw [append_nil]
      exact hi.linearized.congr hobjects
    · rw [append_nil]
      exact hphase
  rwa [append_nil] at key

section

variable (h : Kept objects copies)
include h

theorem Kept.insert (hc : Held objects copy) : Kept objects (copies.insert broker copy) := by
  intro b held hb
  rw [BTreeMap.getElem?_insert_eq] at hb
  split at hb
  · cases hb
    exact hc
  · exact h b held hb

theorem Kept.erase : Kept objects (copies.erase broker) := by
  intro b held hb
  rw [BTreeMap.getElem?_erase_eq] at hb
  split at hb
  · cases hb
  · exact h b held hb

end

/-- A pass on a copy whose version is the stored one is a transition on the stored group. -/
theorem Inv.transition {held : Option (Copy V)} {r : Request} {after : Wrapper} {body : Body}
    (hi : Inv (w, history)) (hheld : ∀ copy, held = some copy → Held w.shared.objects copy)
    (hversion : held.map (·.version) = w.shared.objects.head?.map (·.version))
    (hpass : (original held r).pass r = some (after, body)) :
    transition (w.shared.objects.head?.map (·.detail)) r = some (after.groupDetail, body) := by
  have hwrapper : (w.shared.objects.head?.map (·.detail)).elim r.empty
      Wrapper.withStorageGroupDetail = original held r := by
    cases held with
    | none =>
      have hnone : w.shared.objects.head? = none := by
        simpa using hversion.symm
      rw [hnone]
      rfl
    | some copy =>
      obtain ⟨hled, o, ho, hov, hod⟩ := hheld copy rfl
      obtain ⟨o', ho', hv'⟩ : ∃ o', w.shared.objects.head? = some o' ∧ o'.version = copy.version :=
        Option.map_eq_some_iff.1 hversion.symm
      have hdetail : o'.detail = copy.wrapper.groupDetail :=
        (hi.functional o' (mem_of_head? ho') o ho (hv'.trans hov.symm)).trans hod
      rw [ho']
      change Wrapper.withStorageGroupDetail o'.detail = copy.wrapper
      rw [hdetail]
      exact withStorageGroupDetail_groupDetail hled
  rw [Brokers.transition, hwrapper, hpass]
  rfl

end Steps

/-! ## Every step -/

variable {call : Call} {elapsedMs : Nat} {body answer : Body}

theorem verdict_done (h : verdict call w elapsedMs body = .done answer) : answer = body := by
  simp only [verdict] at h
  split at h
  · rw [joined] at h
    split at h
    · cases h
    · split at h
      · cases h
        rfl
      · split at h
        · cases h
        · cases h
          rfl
  · rw [synced] at h
    split at h
    · cases h
    · split at h
      · cases h
        rfl
      · split at h <;> cases h
  · cases h
    rfl

theorem verdict_timedOut (h : verdict call w elapsedMs body = .timedOut answer) :
    ∃ response, body = .syncGroupResponse response ∧
      answer = .syncGroupResponse (setErrorCode response .rebalanceInProgress) := by
  simp only [verdict] at h
  split at h
  · rw [joined] at h
    split at h
    · cases h
    · split at h
      · cases h
      · split at h <;> cases h
  · rw [synced] at h
    split at h
    · cases h
    · split at h
      · cases h
      · split at h
        · cases h
        · cases h
          exact ⟨_, rfl, rfl⟩
  · cases h

section Machine

variable [DecidableEq V] {w w' : BrokerWorld V} {i : Nat} {c : Choice V} {a : Section V}
  {copy : Option (Copy V)} {after : Wrapper} {request : Request} {rest todo : List (Section V)}

section

variable (hi : Inv (w, history))
include hi

omit [DecidableEq V] in
theorem Inv.spawn :
    Inv ({ w with tasks := w.tasks ++ [[.take call]] },
      history ++ [.invoked w.tasks.length call]) := by
  refine ⟨hi.functional, hi.led, hi.copies, hi.phases.spawn ?_ fun _ _ hb => ?_, ?_⟩
  · exact mem_append_right _ mem_cons_self
  · exact hb.mono (List.Subset.refl _) fun _ ha => absurd ha not_mem_nil
  · exact hi.linearized.push (fun _ h => (by cases h)) (fun _ _ h => (by cases h))
      (fun _ _ h => (by cases h)) rfl

omit [DecidableEq V] in
theorem Inv.take (hat : At w i (.take call) rest) :
    Inv (⟨{ w.shared with copies := w.shared.copies.erase call.broker },
      w.tasks.set i [.handle call w.shared.copies[call.broker]?]⟩, history) :=
  hi.silent hat rfl hi.copies.erase
    ⟨(hi.phases.phase hat).2, fun held hheld => hi.copies call.broker held hheld⟩

omit [DecidableEq V] in
/-- The pass keeps the leader, so that its result can go through the storage. -/
theorem Inv.handle {s : Shared V} (hat : At w i (.handle call copy) rest)
    (hok : (original copy (call.pass c)).keepsLeader (call.pass c) = true)
    (hpass : (original copy (call.pass c)).pass (call.pass c) = some (after, body))
    (hobjects : s.objects = w.shared.objects) (hcopies : s.copies = w.shared.copies) :
    Inv (⟨s, w.tasks.set i [.update call copy (call.pass c) after body]⟩, history) := by
  obtain ⟨hinvoked, hheld⟩ := (hi.phases.phase hat).2
  have hled : (original copy (call.pass c)).Led := by
    cases copy with
    | none => exact Request.empty_led _
    | some copy => exact (hheld copy rfl).led
  refine hi.silent hat hobjects (by rw [hcopies]; exact hi.copies) ?_
  exact ⟨hinvoked, hheld, ⟨c, rfl⟩, hled.pass hok hpass, hpass⟩

/-- The group is stored: the pass is the next link of the chain. -/
theorem Inv.store (hat : At w i (.update call copy request after body) rest)
    (hversion : copy.map (·.version) = w.shared.objects.head?.map (·.version))
    (hadmits : w.shared.admits c.version after.groupDetail = true)
    (htodo : todo = [] ∨ todo = [.keep call ⟨after, c.version⟩ body]) :
    Inv (⟨{ w.shared with objects := ⟨after.groupDetail, c.version⟩ :: w.shared.objects },
        w.tasks.set i todo⟩,
      history ++ [.accepted ⟨i, call, request, w.shared.objects.head?.map (·.detail),
        after.groupDetail, body⟩]) := by
  obtain ⟨hinvoked, hheld, hrequest, hled, hpass⟩ := (hi.phases.phase hat).2
  have hsub : w.shared.objects ⊆ ⟨after.groupDetail, c.version⟩ :: w.shared.objects :=
    subset_cons_self _ _
  have hsame (o : Stored V) (ho : o ∈ w.shared.objects) (hv : o.version = c.version) :
      o.detail = after.groupDetail := by
    simpa [hv] using List.all_eq_true.1 hadmits o ho
  have hnew : Held (⟨after.groupDetail, c.version⟩ :: w.shared.objects) ⟨after, c.version⟩ :=
    ⟨hled, _, mem_cons_self, rfl, rfl⟩
  refine hi.ran hat ?_ ?_ ?_ hsub (fun b held hb => (hi.copies b held hb).mono hsub) ?_ ?_
  · refine hi.linearized.push (fun a ha => ?_) (fun _ _ h => (by cases h))
      (fun _ _ h => (by cases h)) rfl
    cases ha
    exact ⟨rfl, hi.transition hheld hversion hpass, hrequest, hinvoked⟩
  · intro o ho o' ho' hv
    rcases mem_cons.1 ho with rfl | ho <;> rcases mem_cons.1 ho' with rfl | ho'
    · rfl
    · exact (hsame o' ho' hv.symm).symm
    · exact hsame o ho hv
    · exact hi.functional o ho o' ho' hv
  · intro o ho
    rcases mem_cons.1 ho with rfl | ho
    · exact ⟨after, hled, rfl⟩
    · exact hi.led o ho
  · rcases htodo with rfl | rfl
    · trivial
    · exact ⟨mem_append_left _ hinvoked, hnew, _, latest_accepted, rfl⟩
  · intro a ha
    rw [mem_singleton.1 ha]

omit [DecidableEq V] in
/-- Another group was found: it is the one to start over with. -/
theorem Inv.outdated {o : Stored V} (hat : At w i (.update call copy request after body) rest)
    (ho : o ∈ w.shared.objects) :
    Inv (⟨w.shared, w.tasks.set i
      [.refetch call ⟨.withStorageGroupDetail o.detail, o.version⟩]⟩, history) := by
  obtain ⟨v, hled, hv⟩ := hi.led o ho
  have hwrapper : Wrapper.withStorageGroupDetail o.detail = v := by
    rw [← hv]
    exact withStorageGroupDetail_groupDetail hled
  refine hi.silent hat rfl hi.copies ⟨(hi.phases.phase hat).2.1, ?_, o, ho, rfl, ?_⟩
  · rw [hwrapper]
    exact hled
  · rw [hwrapper]
    exact hv.symm

omit [DecidableEq V] in
/-- The copy goes back to the broker, and the client is answered or the loop goes round. -/
theorem Inv.keep {copy : Copy V} {more : List Event} (hat : At w i (.keep call copy body) rest)
    (hcase : (more = [] ∧ todo = [.take call]) ∨
      todo = [] ∧ (more = [.returned i body] ∨
        ∃ response, body = .syncGroupResponse response ∧ more =
          [.timedOut i (.syncGroupResponse (setErrorCode response .rebalanceInProgress))])) :
    Inv (⟨{ w.shared with copies := w.shared.copies.insert call.broker copy }, w.tasks.set i todo⟩,
      history ++ more) := by
  obtain ⟨hinvoked, hheld, a, hlatest, hbody⟩ := (hi.phases.phase hat).2
  have hcopies : Kept w.shared.objects (w.shared.copies.insert call.broker copy) :=
    hi.copies.insert hheld
  rcases hcase with ⟨rfl, rfl⟩ | ⟨rfl, rfl | ⟨response, rfl, rfl⟩⟩
  · rw [append_nil]
    exact hi.silent hat rfl hcopies hinvoked
  · refine hi.quiet hat rfl ?_ hcopies trivial rfl
    refine hi.linearized.push (fun _ h => (by cases h)) (fun j b hev => ?_)
      (fun _ _ h => (by cases h)) rfl
    cases hev
    exact ⟨a, hlatest, hbody⟩
  · refine hi.quiet hat rfl ?_ hcopies trivial rfl
    refine hi.linearized.push (fun _ h => (by cases h)) (fun _ _ h => (by cases h))
      (fun j b hev => ?_) rfl
    cases hev
    exact ⟨a, response, hlatest, hbody, rfl⟩

omit [DecidableEq V] in
theorem Inv.drop (hat : At w i a rest) : Inv (⟨w.shared, w.tasks.set i []⟩, history) :=
  hi.silent hat rfl hi.copies trivial

theorem Inv.run (hok : orderly (w, history) (.run i c) = true)
    (hs : machine.step w (.run i c) = some w') : Inv (w', history ++ events w i c w') := by
  obtain ⟨a, rest, hat, -⟩ := step_run hs
  obtain ⟨rfl, hphase⟩ := hi.phases.phase hat
  have htask : w.tasks[i]? = some [a] := hat
  obtain ⟨s, todo, hmoves, rfl⟩ := run_moves hat hs
  cases hmoves with
  | take => simpa [events, htask] using hi.take hat
  | handle hpass =>
    have hkeeps := by simpa [orderly, htask] using hok
    simpa [events, htask] using
      hi.handle hat hkeeps hpass (by split <;> rfl) (by split <;> rfl)
  | panics | fails => simpa [events, htask] using hi.drop hat
  | store hversion hadmits htodo =>
    simpa [events, htask] using hi.store hat hversion hadmits htodo
  | outdated _ ho => simpa [events, htask] using hi.outdated hat ho
  | @keep call copy body _ _ he =>
    cases he
    refine hi.keep hat ?_
    simp only [events, htask]
    cases hv : verdict call copy.wrapper c.elapsedMs body with
    | again => exact .inl ⟨rfl, rfl⟩
    | done answer =>
      rw [verdict_done hv]
      exact .inr ⟨rfl, .inl rfl⟩
    | timedOut answer =>
      obtain ⟨response, hbody, rfl⟩ := verdict_timedOut hv
      exact .inr ⟨rfl, .inr ⟨response, hbody, rfl⟩⟩
  | refetch =>
    simp only [events, htask, append_nil]
    exact hi.silent hat rfl (hi.copies.insert hphase.2) hphase.1

end

theorem Inv.step {l : BrokerLabel V} (hi : Inv (w, history)) (hok : orderly (w, history) l = true)
    (hstep : machine.step w l = some w') : Inv (w', observe history w l w') := by
  cases l with
  | spawn call =>
    cases hstep
    exact hi.spawn
  | run i c => exact hi.run hok hstep
  | env e =>
    obtain ⟨s, hs, rfl⟩ := step_env hstep
    cases e with
    | restart broker =>
      cases hs
      exact ⟨hi.functional, hi.led, hi.copies.erase, hi.phases, hi.linearized.congr rfl⟩

omit [DecidableEq V] in
theorem inv_initially : Inv (initially : BrokerWorld V × List Event) := by
  refine ⟨fun _ h => absurd h not_mem_nil, fun _ h => absurd h not_mem_nil,
    fun _ _ h => ?_, fun _ _ h => ?_, ?_⟩
  · simp [initially] at h
  · simp [initially] at h
  · exact ⟨trivial, rfl, fun _ h => absurd h not_mem_nil,
      fun past _ _ h => (by cases past <;> cases h),
      fun past _ _ _ h => (by cases past <;> cases h),
      fun past _ _ _ h => (by cases past <;> cases h)⟩

/-- As long as no pass loses the leader of its group, the brokers are linearizable.  A version
names one group, so a conditional put succeeds only for a pass on the group that is stored, and
the groups stored in order are the passes of one group. -/
theorem brokers_linearizable {p : BrokerWorld V × List Event}
    (h : system.Reach (fun p l => orderly p l = true) initially p) : Linearized p :=
  (h.invariant_observe inv_initially fun hi hok hs => hi.step hok hs).linearized

end Machine

/-! ## Runs -/

deriving instance DecidableEq for JoinGroupRequestProtocol, JoinGroup, SyncGroupRequestAssignment,
  SyncGroup, Heartbeat, MemberIdentity, LeaveGroup, OffsetCommitTopic, OffsetCommit, Request
deriving instance DecidableEq for JoinGroupResponse, SyncGroupResponse, HeartbeatResponse,
  MemberResponse, LeaveGroupResponse, OffsetCommitResponse, Body

namespace Scenario

def leaveAt (broker : Nat) (memberId : MemberId) : BrokerLabel Nat :=
  .spawn { broker, request := .leave ⟨0, some memberId, none⟩ }

def heartbeatAt (broker : Nat) (generationId : Int32) (memberId : MemberId) : BrokerLabel Nat :=
  .spawn { broker, request := .heartbeat ⟨0, generationId, memberId, none⟩ }

/-- Two clients have joined at broker 0. -/
def joins : List (BrokerLabel Nat) :=
  oneMember ++ joinAt 0 "" :: pass 2 (choice 0 "2" 3) ++ joinAt 0 "c-2" :: pass 3 (choice 0 "" 4)

/-- The leader has left the group while it is forming. -/
def departure : List (BrokerLabel Nat) :=
  joins ++ leaveAt 0 "c-1" :: pass 4 (choice 1 "" 5)

end Scenario

open Scenario in
/-- A broker that has no copy loses the race once, and is answered by its second pass. -/
theorem brokers_linearizable_second_pass :
    ∃ p : BrokerWorld Nat × List Event,
      system.Reach (fun p l => orderly p l = true) initially p ∧ Linearized p ∧
        (passes p.2).length = 5 ∧ (latest p.2 4).isSome := by
  exact (exists_reach
    (joins ++ joinAt 1 "c-2" :: pass 4 (choice 1 "" 5) ++ pass 4 (choice 1 "" 5))
    (by decide +kernel)).imp fun p h => ⟨h.1, brokers_linearizable h.1, h.2⟩

def storedLeader (detail : GroupDetail) : Option MemberId :=
  match detail.state with
  | .forming _ _ leader => leader
  | .formed _ _ leader _ => some leader

/-- A pass of the request replaced the group by one with that leader, and was answered. -/
def leaves (p : BrokerWorld V × List Event) (replaced : Option GroupDetail)
    (request : Request) (leader : Option MemberId) : Bool :=
  (passes p.2).any fun a => decide (a.replaced = replaced) && decide (a.request = request) &&
    (p.2.any fun
      | .returned i body => decide (i = a.task) && decide (body = a.body)
      | _ => false) &&
    decide (storedLeader a.after = leader)

theorem pass_of_leaves {p : BrokerWorld V × List Event} {replaced : Option GroupDetail}
    {request : Request} {leader : Option MemberId} (h : leaves p replaced request leader = true) :
    ∃ a ∈ passes p.2, a.replaced = replaced ∧ a.request = request ∧
      .returned a.task a.body ∈ p.2 ∧ storedLeader a.after = leader := by
  obtain ⟨a, ha, hleaves⟩ := List.any_eq_true.1 h
  simp only [Bool.and_eq_true, decide_eq_true_eq] at hleaves
  obtain ⟨⟨⟨hreplaced, hrequest⟩, hreturned⟩, hleader⟩ := hleaves
  refine ⟨a, ha, hreplaced, hrequest, ?_, hleader⟩
  obtain ⟨ev, hev, hmatch⟩ := List.any_eq_true.1 hreturned
  split at hmatch
  · simp only [Bool.and_eq_true, decide_eq_true_eq] at hmatch
    obtain ⟨rfl, rfl⟩ := hmatch
    exact hev
  · cases hmatch

open Scenario in
/-- What a pass makes of the stored group is not determined by the stored group.  The
leader of a group that is forming has left, and the other member sends a heartbeat: the
broker that stored the group stores it again with the leader that has left, a broker
that takes the group from the storage stores it without a leader. -/
theorem passes_differ_on_one_stored_group :
    ¬ ∃ next : Option GroupDetail → Request → Option (GroupDetail × Body),
      ∀ p : BrokerWorld Nat × List Event, system.Reach (fun _ _ => True) initially p →
        ∀ a ∈ passes p.2, .returned a.task a.body ∈ p.2 →
          next a.replaced a.request = some (a.after, a.body) := by
  rintro ⟨next, hnext⟩
  let stored := (system.trace (fun _ _ => True) initially departure).bind
    fun p : BrokerWorld Nat × List Event => p.1.shared.objects.head?.map (·.detail)
  let request : Request := .heartbeat ⟨2 * Coordinator.Run.second, 1, "c-2", none⟩
  have hkept : (system.trace (fun _ _ => True) initially
      (departure ++ heartbeatAt 0 1 "c-2" :: pass 5 (choice 2 "" 6))).any
      (fun p : BrokerWorld Nat × List Event => leaves p stored request (some "c-1")) = true := by
    decide +kernel
  have htaken : (system.trace (fun _ _ => True) initially
      (departure ++ heartbeatAt 1 1 "c-2" :: pass 5 (choice 2 "" 6) ++ pass 5 (choice 2 "" 6))).any
      (fun p : BrokerWorld Nat × List Event => leaves p stored request none) = true := by
    decide +kernel
  obtain ⟨p, hp, hold⟩ := reach_of_any hkept
  obtain ⟨p', hp', hnew⟩ := reach_of_any htaken
  obtain ⟨a, ha, hra, hqa, hreta, hleader⟩ := pass_of_leaves hold
  obtain ⟨a', ha', hra', hqa', hreta', hleader'⟩ := pass_of_leaves hnew
  have heq := hnext p hp a ha hreta
  have heq' := hnext p' hp' a' ha' hreta'
  rw [hra, hqa] at heq
  rw [hra', hqa'] at heq'
  have hafter : a.after = a'.after :=
    congrArg Prod.fst (Option.some.inj (heq.symm.trans heq'))
  rw [hafter, hleader'] at hleader
  cases hleader

end Tansu.Coordinator.Brokers
