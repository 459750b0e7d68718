import Tansu.Storage.Orphans

/-!
# What a call is told

The answer to every owner of a flush is the offset of the combined batch, which the
storage has under the transaction of the call that ran the flush and under the
producer epoch of the first batch.  It is right for a batch that was sent alone, in
its own transaction; two batches in one flush are told the same offset.
-/

namespace Tansu.Storage.Batcher

open Tansu.Lib Tansu.Records List System

variable {E : Type} {libs : Libraries} {minimumSize : Option Nat} {w w' : World E}

/-! ## A batch by itself -/

/-- One batch is combined to itself, but for its compression. -/
theorem combine_singleton {b b' : Deflated.Batch} (hlibs : libs.Inverse)
    (h : combine libs [b] = .ok (some b')) :
    (∃ records, b.records libs = .ok records ∧ b'.records libs = .ok records) ∧
      b'.producerId = b.producerId ∧ b'.producerEpoch = b.producerEpoch ∧
      b'.baseTimestamp = b.baseTimestamp ∧ b'.lastOffsetDelta = b.lastOffsetDelta := by
  change (Inflated.Batch.tryFrom libs b >>= _) = _ at h
  cases hsink : Inflated.Batch.tryFrom libs b with
  | error e =>
    rw [hsink] at h
    cases h
  | ok sink =>
    rw [hsink] at h
    change ((Deflated.Batch.tryFromInflated libs sink).mapError Fault.error >>= _) = _ at h
    cases hdeflated : Deflated.Batch.tryFromInflated libs sink with
    | error e =>
      rw [hdeflated] at h
      cases h
    | ok d =>
      rw [hdeflated] at h
      obtain rfl : d = b' := Option.some.inj (Except.ok.inj h)
      obtain ⟨hrecords, hnone, hid, hepoch, hbase, hlast⟩ := Deflated.inflated_eq_ok hsink
      obtain ⟨-, ⟨data, hcrc⟩, -, hback, -⟩ :=
        Deflated.records_of_tryFromInflated hlibs hnone (by simp) hdeflated
      refine ⟨⟨sink.records, hrecords, hback⟩, ?_, ?_, ?_, ?_⟩
      · exact (congrArg Deflated.CrcData.producerId hcrc).trans hid
      · exact (congrArg Deflated.CrcData.producerEpoch hcrc).trans hepoch
      · exact (congrArg Deflated.CrcData.baseTimestamp hcrc).trans hbase
      · exact (congrArg Deflated.CrcData.lastOffsetDelta hcrc).trans hlast

/-! ## Transparency -/

/-- A record at its offset and with its time, for a batch at `offset`. -/
def placed (offset baseTimestamp : Int64) (r : Record) :
    Int × Int × UInt8 × Option Bytes × Option Bytes × List Header :=
  (offset.toInt + r.offsetDelta.toInt, baseTimestamp.toInt + r.timestampDelta.toInt,
    r.attributes, r.key, r.value, r.headers)

/-- The log holds the records of call `i` once, under its transaction, producer and epoch, the
first of them at `offset`. -/
def Delivered (libs : Libraries) (w : World E) (i : Nat) (q : Request) (offset : Int64) : Prop :=
  ∃ e, w.log.filter (fun e => decide (i ∈ e.owners)) = [e] ∧ e.owners.count i = 1 ∧
    e.transactionId = q.transactionId ∧ e.topition = q.topition ∧
    e.batch.producerId = q.batch.producerId ∧ e.batch.producerEpoch = q.batch.producerEpoch ∧
    ∃ own before stored after, q.batch.records libs = .ok own ∧
      e.batch.records libs = .ok (before ++ stored ++ after) ∧
      stored.map (placed e.offset e.batch.baseTimestamp) =
        own.map (placed offset q.batch.baseTimestamp)

/-- Every call that returned an offset has its records there, and no two of them were told
offsets that overlap. -/
structure Transparent (libs : Libraries) (w : World E) : Prop where
  delivered : ∀ i q offset, w.request i = some q → w.phase i = some (.returned (.ok offset)) →
    Delivered libs w i q offset
  apart : ∀ i j q q' offset offset', i ≠ j → w.request i = some q → w.request j = some q' →
    w.phase i = some (.returned (.ok offset)) → w.phase j = some (.returned (.ok offset')) →
    q.topition = q'.topition →
    offset.toInt + q.batch.lastOffsetDelta.toInt < offset'.toInt ∨
      offset'.toInt + q'.batch.lastOffsetDelta.toInt < offset.toInt

/-- A queue that is taken holds one batch, and the call that takes it has the transaction of the
call that queued it. -/
def SentAlone (w : World E) (a : Action E) : Prop :=
  ∀ i q queue, a = .take i → w.request i = some q → w.requests q.key = some queue →
    ∃ r q', queue = [r] ∧ w.request r.id = some q' ∧ q'.transactionId = q.transactionId

/-- What holds while every batch is sent alone. -/
structure Lone (libs : Libraries) (w : World E) : Prop where
  sending : ∀ j after queue, w.phase j = some (.sending after queue) →
    ∃ r q q', queue = [r] ∧ w.request r.id = some q' ∧ w.request j = some q ∧
      q'.transactionId = q.transactionId
  log : ∀ e ∈ w.log, ∃ i q, e.owners = [i] ∧ w.request i = some q ∧
    e.transactionId = q.transactionId ∧ e.topition = q.topition ∧
    combine libs [q.batch] = .ok (some e.batch)
  apart : w.log.Pairwise fun e e' => e'.apart e

theorem lone_init : Lone libs (World.init E) where
  sending _ _ _ h := by cases h
  log _ h := by cases h
  apart := List.Pairwise.nil

theorem Lone.mono (h : Lone libs w) (hlog : w'.log = w.log)
    (hrequest : ∀ j q, w.request j = some q → w'.request j = some q)
    (hphase : ∀ j after queue, w'.phase j = some (.sending after queue) →
      w.phase j = some (.sending after queue)) : Lone libs w' := by
  refine ⟨fun j after queue hj => ?_, fun e he => ?_, hlog ▸ h.apart⟩
  · obtain ⟨r, q, q', hqueue, hr, hq, htx⟩ := h.sending j after queue (hphase j after queue hj)
    exact ⟨r, q, q', hqueue, hrequest _ _ hr, hrequest _ _ hq, htx⟩
  · obtain ⟨i, q, howners, hq, hrest⟩ := h.log e (hlog ▸ he)
    exact ⟨i, q, howners, hrequest _ _ hq, hrest⟩

theorem Lone.setPhase (h : Lone libs w) {i : Nat} {p : Phase E}
    (hp : ∀ after queue, p ≠ .sending after queue) : Lone libs (w.setPhase i p) := by
  refine h.mono rfl (fun j q hq => by rw [World.setPhase_request, hq]) fun j after queue hj => ?_
  rw [World.setPhase_phase] at hj
  split at hj
  next =>
    obtain ⟨p', -, hp'⟩ := Option.map_eq_some_iff.1 hj
    exact absurd hp' (hp after queue)
  next => exact hj

theorem Phase.Idle.not_sending {p : Phase E} (h : p.Idle) (after : After)
    (queue : List BatchRequest) : p ≠ .sending after queue := by
  rintro rfl
  exact h

theorem Lone.step {a : Action E} {place : Nat → Place} (h : Lone libs w) (hplaced : Placed w place)
    (he : Effect libs w a w') (halone : SentAlone w a) : Lone libs w' := by
  cases he with
  | call transactionId topition batch =>
    exact h.mono rfl (fun _ _ => request_called) fun _ _ _ hj => phase_of_called hj (by simp)
  | @enqueue i c hc hphase =>
    have hpush : Lone libs (w.push c.key ⟨i, c.batch⟩) := h.mono rfl (fun _ _ => id) fun _ _ _ => id
    exact hpush.setPhase (by simp)
  | idle hc hphase hidle => exact h.setPhase hidle.not_sending
  | @take i c after queued hc hphase hqueue =>
    have hq := request_of_call hc
    obtain ⟨r, q', hone, hr, htx⟩ := halone i c.request queued rfl hq hqueue
    have hrequest : ∀ j, ((w.setRequests c.key none).setPhase i (.sending after queued)).request j =
        w.request j := fun j => by rw [World.setPhase_request, World.setRequests_request]
    have h₀ : (w.setRequests c.key none).phase i = some c.phase := phase_of_call hc rfl
    refine ⟨fun j after' queue hj => ?_, fun e he => ?_, h.apart⟩
    · simp only [hrequest]
      rcases phase_setPhase h₀ hj with ⟨rfl, heq⟩ | ⟨-, hold⟩
      · cases heq
        exact ⟨r, c.request, q', hone, hr, hq, htx⟩
      · exact h.sending j after' queue hold
    · simp only [hrequest]
      exact h.log e he
  | failed => exact h.setPhase (by simp)
  | @empty i c after _ hc hphase => exact h.setPhase after.phase_idle.not_sending
  | @stored i c after queued batch offset hc hphase hcombine hapart =>
    have h₀ := phase_of_call hc hphase
    have hq := request_of_call hc
    obtain ⟨r, q, q', rfl, hr, hq₁, htx⟩ := h.sending i after queued h₀
    obtain rfl : c.request = q := Option.some.inj (hq.symm.trans hq₁)
    -- the batch that was taken is that of the call that queued it, in the same partition
    obtain ⟨q₂, hq₂, -, hholds⟩ := hplaced.taken i after [r] h₀
    obtain rfl : c.request = q₂ := Option.some.inj (hq.symm.trans hq₂)
    obtain ⟨-, q₃, hq₃, hkey, hbatch⟩ := hholds r mem_cons_self
    obtain rfl : q' = q₃ := Option.some.inj (hr.symm.trans hq₃)
    have htopition : q'.topition = c.topition := congrArg TopitionProducerId.topition hkey
    have hlog : Lone libs ({ w with log := w.log ++ [c.stored [r] batch offset] } : World E) := by
      refine ⟨h.sending, fun e he => ?_, ?_⟩
      · rcases mem_append.1 he with hold | hnew
        · exact h.log e hold
        · rw [mem_singleton.1 hnew]
          refine ⟨r.id, q', rfl, hr, htx.symm, htopition.symm, ?_⟩
          rw [hbatch]
          exact hcombine
      · refine pairwise_append.2 ⟨h.apart, pairwise_singleton _ _, fun e he e' he' => ?_⟩
        rw [mem_singleton.1 he']
        exact hapart e he
    exact hlog.setPhase (by simp)
  | @answer i c after owners offset hc hphase =>
    have hrespond : Lone libs (w.respond owners offset) := by
      rw [World.respond_eq]
      exact h.mono rfl (fun _ _ => id) fun _ _ _ => id
    exact hrespond.setPhase after.phase_idle.not_sending
  | @ready i c offset hc hphase hresponse =>
    have hclear : Lone libs (w.setResponse i none) := h.mono rfl (fun _ _ => id) fun _ _ _ => id
    exact hclear.setPhase (by simp)
  | pending => exact h.mono rfl (fun _ _ => id) fun _ _ _ => id

/-! ## The result -/

section

variable {place : Nat → Place}

theorem filter_owners {w : World E} (hplaced : Placed w place) {i k : Nat} {e : Stored}
    (hk : w.log[k]? = some e) (hi : i ∈ e.owners) :
    w.log.filter (fun e => decide (i ∈ e.owners)) = [e] := by
  obtain ⟨hlt, hget⟩ := List.getElem?_eq_some_iff.1 hk
  have hsplit : w.log = w.log.take k ++ e :: w.log.drop (k + 1) := by
    rw [← hget, getElem_cons_drop, take_append_drop]
  have hplace := (hplaced.stored k e hk).2 i hi
  have hother : ∀ (k' : Nat) (e' : Stored), w.log[k']? = some e' → k' ≠ k → i ∉ e'.owners := by
    intro k' e' hk' hne hmem
    have hplace' := (hplaced.stored k' e' hk').2 i hmem
    rw [hplace] at hplace'
    cases hplace'
    exact hne rfl
  have hfront : (w.log.take k).filter (fun e => decide (i ∈ e.owners)) = [] := by
    refine filter_eq_nil_iff.2 fun e' he' => ?_
    obtain ⟨k', hk'lt, hk'⟩ := mem_iff_getElem.1 he'
    rw [length_take] at hk'lt
    rw [getElem_take] at hk'
    simpa using hother k' e' (List.getElem?_eq_some_iff.2 ⟨by omega, hk'⟩) (by omega)
  have hback : (w.log.drop (k + 1)).filter (fun e => decide (i ∈ e.owners)) = [] := by
    refine filter_eq_nil_iff.2 fun e' he' => ?_
    obtain ⟨k', hk'lt, hk'⟩ := mem_iff_getElem.1 he'
    rw [length_drop] at hk'lt
    rw [getElem_drop] at hk'
    simpa using hother (k + 1 + k') e' (List.getElem?_eq_some_iff.2 ⟨by omega, hk'⟩) (by omega)
  rw [hsplit, filter_append, hfront, filter_cons, if_pos (by simpa using hi), hback]
  rfl

/-- The entry that answers a call is made of the batch of that call alone. -/
theorem Lone.answered (h : Lone libs w) {i : Nat} {q : Request} {offset : Int64}
    (hq : w.request i = some q) (hanswered : Answered w i offset) :
    ∃ (k : Nat) (e : Stored), w.log[k]? = some e ∧ e.owners = [i] ∧ e.offset = offset ∧
      e.transactionId = q.transactionId ∧ e.topition = q.topition ∧
      combine libs [q.batch] = .ok (some e.batch) := by
  obtain ⟨k, e, hk, hmem, hoffset⟩ := hanswered
  obtain ⟨i', q', howners, hq', hrest⟩ := h.log e (mem_of_getElem? hk)
  obtain rfl : i = i' := by
    rw [howners] at hmem
    exact mem_singleton.1 hmem
  obtain rfl : q = q' := Option.some.inj (hq.symm.trans hq')
  exact ⟨k, e, hk, howners, hoffset, hrest⟩

theorem Lone.transparent (hlibs : libs.Inverse) (h : Lone libs w) (hplaced : Placed w place) :
    Transparent libs w := by
  constructor
  · intro i q offset hq hreturned
    obtain ⟨k, e, hk, howners, rfl, htx, htopition, hcombine⟩ :=
      h.answered hq (hplaced.returned i offset hreturned)
    obtain ⟨⟨records, hown, hstored⟩, hid, hepoch, hbase, -⟩ := combine_singleton hlibs hcombine
    refine ⟨e, filter_owners hplaced hk (by simp [howners]), by simp [howners], htx, htopition, hid,
      hepoch, records, [], records, [], hown, by simpa using hstored, ?_⟩
    rw [hbase]
  · intro i j q q' offset offset' hne hq hq' hreturned hreturned' hsame
    obtain ⟨k, e, hk, howners, rfl, -, htopition, hcombine⟩ :=
      h.answered hq (hplaced.returned i offset hreturned)
    obtain ⟨k', e', hk', howners', rfl, -, htopition', hcombine'⟩ :=
      h.answered hq' (hplaced.returned j offset' hreturned')
    have hlast := (combine_singleton hlibs hcombine).2.2.2.2
    have hlast' := (combine_singleton hlibs hcombine').2.2.2.2
    have hkk : k ≠ k' := by
      rintro rfl
      rw [hk] at hk'
      cases hk'
      rw [howners] at howners'
      cases howners'
      exact hne rfl
    obtain ⟨hlt, hget⟩ := List.getElem?_eq_some_iff.1 hk
    obtain ⟨hlt', hget'⟩ := List.getElem?_eq_some_iff.1 hk'
    have hapart : e.apart e' ∨ e'.apart e := by
      rcases Nat.lt_or_gt_of_ne hkk with hlt'' | hgt
      · right
        have := pairwise_iff_getElem.1 h.apart k k' hlt hlt' hlt''
        rwa [hget, hget'] at this
      · left
        have := pairwise_iff_getElem.1 h.apart k' k hlt' hlt hgt
        rwa [hget, hget'] at this
    have hpartition : e.topition = e'.topition := by rw [htopition, htopition', hsame]
    simp only [Stored.apart, Stored.lastOffset, hpartition, bne_self_eq_false, Bool.false_or,
      Bool.or_eq_true, decide_eq_true_eq, hlast, hlast'] at hapart
    omega

end

/-- Batching is transparent in every run in which each queue is taken with a single batch in it, in
the transaction of the call that queued it.  What such a flush produces holds the records of
that batch, and its answer is returned to that call. -/
theorem batching_transparent (libs : Libraries) (hlibs : libs.Inverse) (minimumSize : Option Nat)
    (w : World E) (h : (system libs minimumSize).Reach SentAlone (World.init E) w) :
    Transparent libs w := by
  obtain ⟨place, hplaced⟩ := exists_placed h
  refine Lone.transparent hlibs ?_ hplaced
  refine h.invariant lone_init fun hreach hlone halone hs => ?_
  obtain ⟨place, hplaced⟩ := exists_placed hreach
  exact hlone.step hplaced (effect_of_step hs) halone

/-! ### Two calls, in one flush and one after the other -/

namespace Example

open Deflated.Example (stored)

/-- Whether calls 0 and 1, in one partition, have returned these offsets. -/
def bothReturned (first second : Int64) (w : World Unit) : Bool :=
  match w.request 0, w.request 1, w.phase 0, w.phase 1 with
  | some q, some q', some (.returned (.ok o)), some (.returned (.ok o')) =>
    decide (q.topition = q'.topition) && decide (q.batch.lastOffsetDelta = 0) &&
      decide (q'.batch.lastOffsetDelta = 0) && decide (o = first) && decide (o' = second)
  | _, _, _, _ => false

theorem not_transparent_of_bothReturned {w : World Unit} (h : bothReturned 0 0 w = true) :
    ¬ Transparent stored w := by
  unfold bothReturned at h
  split at h
  next q q' o o' hq hq' hreturned hreturned' =>
    simp only [Bool.and_eq_true, decide_eq_true_eq] at h
    obtain ⟨⟨⟨⟨hsame, hlast⟩, hlast'⟩, rfl⟩, rfl⟩ := h
    intro htransparent
    have hapart := htransparent.apart 0 1 q q' 0 0 (by decide) hq hq' hreturned hreturned' hsame
    rw [hlast, hlast'] at hapart
    revert hapart
    decide
  next => cases h

/-- A run of one call from its queue to its answer. -/
def alone (i : Nat) (offset : Int64) : List (Action Unit) :=
  [.call none partition batch, .enqueue i, .check i, .poll i, .expire i, .take i,
    .produce i (.ok offset), .answer i, .check i, .poll i]

def sentAlone (w : World Unit) : Action Unit → Bool
  | .take i =>
    (w.request i).all fun q => (w.requests q.key).all fun queue =>
      match queue with
      | [r] => (w.request r.id).any fun q' => decide (q'.transactionId = q.transactionId)
      | _ => false
  | _ => true

theorem sentAlone_sound {w : World Unit} {a : Action Unit} (h : sentAlone w a = true) :
    SentAlone w a := by
  rintro i q queue rfl hq hqueue
  simp only [sentAlone, hq, hqueue, Option.all_some] at h
  split at h
  next r =>
    obtain ⟨q', hq', htx⟩ := (Option.any_eq_true _ _).1 h
    exact ⟨r, q', rfl, hq', of_decide_eq_true htx⟩
  next => cases h

end Example

open Example Deflated.Example in
/-- Two batches in one flush: both calls are told offset 0, where the record of the second one is at
offset 1. -/
theorem combined_calls_overlap : ∃ w : World Unit,
    (system stored none).Reach (fun _ _ => True) (World.init Unit) w ∧ ¬ Transparent stored w := by
  exact (exists_reach (P := fun w => bothReturned 0 0 w)
    (taken partition ++ [.produce 0 (.ok 0), .answer 0, .check 0, .poll 0, .poll 1])
    (by decide +kernel)).imp fun w h => ⟨h.1, not_transparent_of_bothReturned h.2⟩

open Example Deflated.Example in
/-- One after the other they are told the offsets of their own records. -/
theorem separate_calls_transparent : ∃ w : World Unit,
    bothReturned 0 1 w = true ∧ Transparent stored w := by
  have hrun : ((system stored none).trace (fun w a => sentAlone w a = true) (World.init Unit)
      (alone 0 0 ++ alone 1 1)).any (bothReturned 0 1) = true := by decide +kernel
  obtain ⟨w, hreach, hboth⟩ := reach_of_any hrun
  exact ⟨w, hboth, batching_transparent stored stored_inverse none w
    (hreach.mono fun _ _ => sentAlone_sound)⟩

end Tansu.Storage.Batcher
