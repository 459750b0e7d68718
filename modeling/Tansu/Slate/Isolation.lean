import Tansu.Slate.Transactions

/-!
# Read committed isolation

A `read_committed` consumer is given what lies below the last stable offset and drops
what the list of aborted transactions names.  That list is always empty, so the records
of an aborted transaction are handed out.  The last stable offset is computed from the
ranges of the transactions whose state says that they are in progress: a transaction
after the first one at an epoch has the terminal state of the one before, and a partition
that is added again has lost its range.  The law holds for runs without these.
-/

namespace Tansu.Slate.Isolation

open Std Tansu.Lib System List Option BTreeMap
open Tansu.Nvme (Topition Topic Group Batch CoordState TxnDetail TxnState TxnProduceOffset
  TopicMetadata CreatableTopic Txn wrapI16)

/-! ## The consumer -/

def isTransactional (b : Batch) : Bool := b.attributes &&& 16#16 = 16#16

/-- What a client hands out of the batches it was given.  `aborted` are the aborted
transactions it has not come to, `producers` those whose records it drops. -/
def handedOut : List AbortedTransaction → List Int → List (Int × Batch) → List (Int × Batch)
  | _, _, [] => []
  | aborted, producers, (base, b) :: batches =>
    let (reached, aborted) := aborted.partition fun a =>
      decide (a.firstOffset ≤ base + b.lastOffsetDelta)
    let producers := reached.map AbortedTransaction.producerId ++ producers
    match b.recordData with
    | .endTransactionMarker committed =>
      handedOut aborted
        (if committed then producers else producers.filter (· ≠ b.producerId)) batches
    | .client _ =>
      if isTransactional b ∧ b.producerId ∈ producers then handedOut aborted producers batches
      else (base, b) :: handedOut aborted producers batches

theorem handedOut_subset (aborted : List AbortedTransaction) (producers : List Int)
    (batches : List (Int × Batch)) : handedOut aborted producers batches ⊆ batches := by
  induction batches generalizing aborted producers with
  | nil => exact nil_subset _
  | cons x batches ih =>
    unfold handedOut
    dsimp only
    split
    · exact subset_cons_of_subset _ (ih _ _)
    · split
      · exact subset_cons_of_subset _ (ih _ _)
      · exact cons_subset_cons _ (ih _ _)

/-! ## Records and their transactions -/

/-- A batch that a transaction has sent, and how the transaction was ended: `some true` when
it was committed, `some false` when it was aborted. -/
structure Sent where
  topic : Nat
  partition : Int
  offset : Int
  t : String
  e : Int
  fate : Option Bool
deriving DecidableEq

/-- A transaction that is ended.  One that is in progress can still be aborted. -/
def ended (inProgress committed : Bool) : Option Bool → Option Bool
  | none => some committed
  | some fate => if inProgress && !committed then some false else some fate

/-- A batch belongs to the transaction it was produced for, until the transaction is ended
by a `txn_end` that succeeds or by a new `init_producer`. -/
def observer (sent : List Sent) (w : World) (a : Action) (_ : World) : List Sent :=
  match a with
  | .produce (some t) tp b =>
    match produce w.state (some t) tp b, w.state.coord.topics[tp.topic]? with
    | .ok (_, offset), some metadata =>
      ⟨metadata.id, tp.partition, offset, t, b.producerEpoch, none⟩ :: sent
    | _, _ => sent
  | .txnEnd t producerId e committed =>
    match current w.state t producerId e with
    | .ok d => sent.map fun x =>
      if x.t = t ∧ x.e = e then { x with fate := ended d.isOpen committed x.fate } else x
    | .error _ => sent
  | .initProducer (some t) .. => sent.map fun x =>
    if x.t = t ∧ x.fate = none then { x with fate := some false } else x
  | _ => sent

def observed [SlateDb] : System (World × List Sent) Action := system.observe observer

/-- A transaction produces only while it has begun, no batch is empty, no partition with a
range is added again, no transaction with a range is aborted, and no epoch is used twice. -/
def permitted (w : World) : Action → Bool
  | .createTopic .. => true
  | .initProducer (some t) .. =>
    w.state.coord.transactions[t]?.all fun txn =>
      (txn.epochs.values.all fun d => d.state ≠ some TxnState.begin || d.ranges.isEmpty) &&
        !(wrapI16 ((BTreeMap.lastKey? txn.epochs).getD 0 + 1) ∈ txn.epochs : Bool)
  | .initProducer none .. => true
  | .txnAddPartitions t producerId e partitions =>
    match current w.state t producerId e with
    | .ok d => !d.isOpen || partitions.all fun tp => (d.range? tp).isNone
    | .error _ => true
  | .produce transactionId _ b =>
    decide (0 ≤ b.lastOffsetDelta) &&
      transactionId.all fun t => (w.state.coord.detail? t b.producerEpoch).any fun d =>
        d.state = some TxnState.begin
  | .txnEnd t producerId e committed =>
    match current w.state t producerId e with
    | .ok d => committed || !d.isOpen || d.ranges.isEmpty
    | .error _ => true
  | _ => false

/-! ## The invariant -/

/-- A batch whose transaction is in progress lies in its range. -/
structure Covered (s : State) (x : Sent) : Prop where
  fate : x.fate ≠ some false
  detail : ∃ d, s.coord.detail? x.t x.e = some d ∧
    (x.fate = none → d.state = some TxnState.begin) ∧
    (d.isOpen = true → ∃ (name : Topic) (metadata : TopicMetadata) (range : TxnProduceOffset),
      s.coord.topics[name]? = some metadata ∧ metadata.id = x.topic ∧
      d.range? ⟨name, x.partition⟩ = some range ∧ range.offsetStart ≤ x.offset)

structure Inv (p : World × List Sent) : Prop where
  sound : Sound p.1
  covered : ∀ x ∈ p.2, Covered p.1.state x
  starts : Starts p.1.state

variable {d : TxnDetail} {t : String} {e : Int} {tp : Topition}

theorem isOpen_of_begin (h : d.state = some TxnState.begin) : d.isOpen = true := by
  simp [TxnDetail.isOpen, TxnDetail.isTerminal, h, TxnState.isTerminal]

variable {s s' : State} {w w' : World} {x : Sent} {sent : List Sent}
  {timeout now producerId offset : Int} {b : Batch} {metadata : TopicMetadata}
  {committed deferred : Bool} {minBytes maxBytes : Nat}

theorem Covered.begin (h : Covered s x) (hd : s.coord.detail? x.t x.e = some d)
    (hfate : x.fate = none) : d.state = some TxnState.begin := by
  obtain ⟨d₀, hd₀, hbegin, -⟩ := h.detail
  cases hd.symm.trans hd₀
  exact hbegin hfate

theorem Covered.ranges (h : Covered s x) (hd : s.coord.detail? x.t x.e = some d)
    (hopen : d.isOpen = true) : d.ranges.isEmpty = false := by
  obtain ⟨d₀, hd₀, -, hrange⟩ := h.detail
  cases hd.symm.trans hd₀
  obtain ⟨name, metadata, range, -, -, hr, -⟩ := hrange hopen
  rw [← Bool.not_eq_true, ExtTreeMap.isEmpty_iff]
  intro hempty
  rw [← TxnDetail.getElem?_ranges, hempty] at hr
  simp at hr

/-- The transaction of a batch keeps its ranges while it stays in progress. -/
theorem Covered.transfer (h : Covered s x) {fate : Option Bool} (hfate : fate ≠ some false)
    (htopics : ∀ (name : Topic) (metadata : TopicMetadata), s.coord.topics[name]? = some metadata →
      s'.coord.topics[name]? = some metadata)
    (hdetail : ∀ d, s.coord.detail? x.t x.e = some d → ∃ d', s'.coord.detail? x.t x.e = some d' ∧
      (fate = none → d'.state = some TxnState.begin) ∧
      (d'.isOpen = true → d.isOpen = true ∧ ∀ tp range, d.range? tp = some range →
        ∃ range', d'.range? tp = some range' ∧ range'.offsetStart = range.offsetStart)) :
    Covered s' { x with fate } := by
  obtain ⟨-, d, hd, -, hrange⟩ := h
  obtain ⟨d', hd', hbegin, hopen⟩ := hdetail d hd
  refine ⟨hfate, d', hd', hbegin, fun hd'open => ?_⟩
  obtain ⟨hdopen, hkeep⟩ := hopen hd'open
  obtain ⟨name, metadata, range, hname, hid, hr, hle⟩ := hrange hdopen
  obtain ⟨range', hr', hstart⟩ := hkeep _ _ hr
  exact ⟨name, metadata, range', htopics _ _ hname, hid, hr', hstart ▸ hle⟩

/-! ### Steps -/

theorem covered_createTopic {id : Nat} {topic : CreatableTopic} (h : Covered s x)
    (hs : createTopic s id topic = .ok s') : Covered s' x := by
  unfold createTopic at hs
  split at hs
  · cases hs
  next hnew =>
    cases hs
    refine h.transfer h.fate (fun name metadata hm => ?_) fun d hd =>
      ⟨d, hd, ?_, fun hopen => ⟨hopen, fun _ range hr => ⟨range, hr, rfl⟩⟩⟩
    · have hne : topic.name ≠ name := fun heq =>
        hnew (heq ▸ mem_iff_exists.2 ⟨metadata, hm⟩)
      rw [getElem?_insert_eq, if_neg hne]
      exact hm
    · exact h.begin hd

/-- An id that is known: no batch of it belongs to a transaction that has begun. -/
theorem covered_reinit {txn : Txn} (h : Covered s x) (htxn : s.coord.transactions[t]? = some txn)
    (hs : Reinitialised s t txn timeout now s') (hpermitted : (txn.epochs.values.all fun d =>
      d.state ≠ some TxnState.begin || d.ranges.isEmpty) = true)
    (hnew : wrapI16 ((BTreeMap.lastKey? txn.epochs).getD 0 + 1) ∉ txn.epochs) :
    Covered s' (if x.t = t ∧ x.fate = none then { x with fate := some false } else x) := by
  have hended : ¬ (x.t = t ∧ x.fate = none) := by
    rintro ⟨rfl, hfate⟩
    obtain ⟨d, hd, -, -⟩ := h.detail
    have hbegin := h.begin hd hfate
    obtain ⟨txn', htxn', he⟩ := bind_eq_some_iff.1 hd
    cases htxn.symm.trans htxn'
    have hempty := List.all_eq_true.1 hpermitted d (mem_values.2 ⟨_, he⟩)
    rw [h.ranges hd (isOpen_of_begin hbegin), hbegin] at hempty
    simp at hempty
  rw [if_neg hended]
  refine h.transfer h.fate (fun _ _ hm => hs.topics ▸ hm) fun d hd =>
    ⟨fence t ((BTreeMap.lastKey? txn.epochs).getD 0) x.t x.e d, ?_, fun hfate => ?_,
      fun hopen => ?_⟩
  · rw [hs.details, if_neg, hd, map_some]
    rintro ⟨ht, he⟩
    obtain ⟨txn', htxn', hepoch⟩ := bind_eq_some_iff.1 hd
    rw [ht, htxn] at htxn'
    cases htxn'
    exact hnew (mem_iff_exists.2 ⟨d, he ▸ hepoch⟩)
  · have hne : x.t ≠ t := fun ht => hended ⟨ht, hfate⟩
    rw [fence, if_neg fun hc => hne hc.1]
    exact h.begin hd hfate
  · unfold fence at hopen ⊢
    split at hopen
    · simp [TxnDetail.isOpen, TxnDetail.isTerminal, TxnState.isTerminal] at hopen
    next hc =>
      rw [if_neg hc]
      exact ⟨hopen, fun _ range hr => ⟨range, hr, rfl⟩⟩

theorem covered_addPartitions {partitions : List Topition} (h : Covered s x)
    (hd : current s t producerId e = .ok d)
    (hpermitted : (!d.isOpen || partitions.all fun tp => (d.range? tp).isNone) = true) :
    Covered (s.modifyDetail t e (addPartitions · partitions)) x := by
  refine h.transfer h.fate (fun _ _ hm => hm) fun d₀ hd₀ => ?_
  rw [State.modifyDetail, CoordState.detail?_modifyDetail]
  split
  next heq =>
    obtain ⟨rfl, rfl⟩ := heq
    cases hd₀.symm.trans (detail?_of_current hd)
    refine ⟨addPartitions d partitions, by rw [hd₀]; rfl, fun hfate => (h.begin hd₀ hfate :),
      fun hopen => ⟨hopen, fun tp range hr => ⟨range, ?_, rfl⟩⟩⟩
    rw [range?_addPartitions, if_neg fun hmem => ?_]
    · exact hr
    · have hopen : d.isOpen = true := hopen
      simp only [hopen, Bool.not_true, Bool.false_or, List.all_eq_true] at hpermitted
      simpa [hr] using hpermitted tp hmem
  next => exact ⟨d₀, hd₀, h.begin hd₀, fun hopen => ⟨hopen, fun _ range hr => ⟨range, hr, rfl⟩⟩⟩

theorem covered_produce {transactionId : Option String} (h : Covered s x)
    (hs : Produced s transactionId tp b metadata s') : Covered s' x := by
  refine h.transfer h.fate (fun _ _ hm => hs.topics ▸ hm) fun d hd => ?_
  rw [hs.details]
  split
  · refine ⟨extend d tp (s.high metadata.id tp.partition)
      (s.high metadata.id tp.partition + b.lastOffsetDelta), by rw [hd]; rfl,
      fun hfate => (h.begin hd hfate :), fun hopen => ⟨hopen, fun tp' range hr => ?_⟩⟩
    rw [range?_extend]
    split
    next heq => exact ⟨_, rfl, by simp [hr]⟩
    next => exact ⟨range, hr, rfl⟩
  · exact ⟨d, hd, h.begin hd, fun hopen => ⟨hopen, fun _ range hr => ⟨range, hr, rfl⟩⟩⟩

/-- The batch that was produced lies in the range of its transaction. -/
theorem covered_new (h : Starts s) (hs : Produced s (some t) tp b metadata s')
    (hd : s.coord.detail? t b.producerEpoch = some d) (hbegin : d.state = some TxnState.begin) :
    Covered s' ⟨metadata.id, tp.partition, s.high metadata.id tp.partition, t,
      b.producerEpoch, none⟩ := by
  refine ⟨by simp, extend d tp (s.high metadata.id tp.partition)
    (s.high metadata.id tp.partition + b.lastOffsetDelta),
    by rw [hs.details, if_pos ⟨rfl, rfl⟩, hd]; rfl, fun _ => hbegin, fun _ => ?_⟩
  refine ⟨tp.topic, metadata, _, hs.topics ▸ hs.topic, rfl, by rw [range?_extend, if_pos rfl], ?_⟩
  cases hr : d.range? tp with
  | none => exact le_rfl
  | some range => exact (h t b.producerEpoch d tp range metadata hd hr hs.topic).le

theorem isOpen_of_settle {t' : String} {e' : Int}
    {produces : BTreeMap Topition (Option TxnProduceOffset)} {offsetEnd : Int}
    (h : (settle t e committed deferred produces offsetEnd t' e' d).isOpen = true) :
    d.isOpen = true := by
  unfold settle at h
  split at h
  · split at h
    · split at h
      next hbegin => exact isOpen_of_begin hbegin
      next => exact h
    · cases committed <;>
        simp [TxnDetail.isOpen, TxnDetail.isTerminal, TxnState.isTerminal, final] at h
  · split at h
    · unfold finished at h
      simp only [TxnDetail.isOpen, TxnDetail.isTerminal] at h
      split at h <;> simp [TxnState.isTerminal] at h
    · exact h

theorem covered_txnEnd (h : Covered s x) (hd : s.coord.detail? t e = some d)
    (hs : Ended s t producerId e committed d deferred s')
    (hpermitted : (committed || !d.isOpen || d.ranges.isEmpty) = true) :
    Covered s' (if x.t = t ∧ x.e = e then { x with fate := ended d.isOpen committed x.fate }
      else x) := by
  have htopics : s'.coord.topics = s.coord.topics := by
    rw [hs.framed.topics, marks_coord]
    rfl
  have hkeep : ∀ d₀ : TxnDetail, ∀ offsetEnd t' e', (settle t e committed deferred d.produces
      offsetEnd t' e' d₀).isOpen = true → d₀.isOpen = true ∧
      ∀ tp range, d₀.range? tp = some range → ∃ range', (settle t e committed deferred d.produces
        offsetEnd t' e' d₀).range? tp = some range' ∧ range'.offsetStart = range.offsetStart :=
    fun d₀ offsetEnd t' e' hopen => ⟨isOpen_of_settle hopen, fun tp range hr =>
      ⟨range, by rw [TxnDetail.range?, settle_produces]; exact hr, rfl⟩⟩
  split
  next heq =>
    -- its own transaction: it is not aborted, since it has a range while in progress
    obtain ⟨rfl, rfl⟩ := heq
    have hcommitted : ended d.isOpen committed x.fate = some true := by
      cases hfate : x.fate with
      | none =>
        have hopen := isOpen_of_begin (h.begin hd hfate)
        rw [hopen, h.ranges hd hopen] at hpermitted
        simpa [ended] using hpermitted
      | some fate =>
        have hfate : fate = true := by
          have hne := h.fate
          rw [hfate] at hne
          simpa using hne
        cases hopen : d.isOpen with
        | false => simp [ended, hfate]
        | true =>
          rw [hopen, h.ranges hd hopen] at hpermitted
          simp only [Bool.not_true, Bool.or_false] at hpermitted
          simp [ended, hpermitted, hfate]
    refine h.transfer (by simp [hcommitted]) (fun _ _ hm => htopics ▸ hm) fun d₀ hd₀ =>
      ⟨_, by rw [hs.details, hd₀]; rfl, fun hfate => ?_, hkeep _ _ _ _⟩
    rw [hcommitted] at hfate
    cases hfate
  next hne =>
    refine h.transfer h.fate (fun _ _ hm => htopics ▸ hm) fun d₀ hd₀ =>
      ⟨_, by rw [hs.details, hd₀]; rfl, fun hfate => ?_, hkeep _ _ _ _⟩
    have hbegin := h.begin hd₀ hfate
    rw [settle_begin hne hbegin]
    exact hbegin

/-! ### Runs -/

theorem Inv.init : Inv ({}, []) where
  sound := .init
  covered x hx := by cases hx
  starts t e d tp range metadata hd := by simp [CoordState.detail?] at hd

theorem covered_of_detail (h : Covered s x) (htopics : s'.coord.topics = s.coord.topics)
    (hdetail : s'.coord.detail? x.t x.e = s.coord.detail? x.t x.e) : Covered s' x :=
  h.transfer h.fate (fun _ _ hm => htopics ▸ hm) fun d hd =>
    ⟨d, hdetail.trans hd, h.begin hd, fun hopen => ⟨hopen, fun _ range hr => ⟨range, hr, rfl⟩⟩⟩

theorem Inv.initNew (h : Inv (w, sent)) {producerId producerEpoch : Option Int}
    (htxn : w.state.coord.transactions[t]? = none) :
    (∀ x ∈ sent.map fun x => if x.t = t ∧ x.fate = none then { x with fate := some false } else x,
      Covered (initProducer w.state (some t) timeout producerId producerEpoch now).1 x) ∧
    Starts (initProducer w.state (some t) timeout producerId producerEpoch now).1 := by
  have htopics : (initProducer w.state (some t) timeout producerId producerEpoch
    now).1.coord.topics =
      w.state.coord.topics := by simp only [initProducer, htxn]
  constructor
  · intro x hx
    obtain ⟨x, hmem, rfl⟩ := List.mem_map.1 hx
    have hne : x.t ≠ t := by
      rintro rfl
      obtain ⟨d, hd, -⟩ := (h.covered x hmem).detail
      rw [CoordState.detail?, htxn] at hd
      cases hd
    rw [if_neg fun hc => hne hc.1]
    refine covered_of_detail (h.covered x hmem) htopics ?_
    rw [detail?_initProducer_new htxn, if_neg fun hc => hne hc.1]
  · exact starts_initProducer_new h.starts htxn

theorem Inv.step [SlateDb] {a : Action} (h : Inv (w, sent)) (hok : permitted w a = true)
    (hs : system.step w a = some w') : Inv (w', observer sent w a w') := by
  have hsound := h.sound.step hs
  cases a with
  | createTopic id topic =>
    simp only [system, Slate.step] at hs
    split at hs
    · cases hs
      cases hcreate : createTopic w.state id topic with
      | ok s =>
        simp only [hcreate] at hsound ⊢
        exact ⟨hsound, fun x hx => covered_createTopic (h.covered x hx) hcreate,
          starts_createTopic h.starts h.sound.tidy hcreate⟩
      | error e =>
        simp only [hcreate] at hsound ⊢
        exact ⟨hsound, h.covered, h.starts⟩
    · cases hs
  | initProducer transactionId timeout producerId producerEpoch now =>
    cases hs
    cases transactionId with
    | none =>
      obtain ⟨producers, -, heq⟩ := initProducer_none w.state timeout producerId producerEpoch now
      simp only [State.after, heq] at hsound ⊢
      exact ⟨hsound, fun x hx => covered_of_detail (h.covered x hx) rfl rfl, h.starts⟩
    | some t =>
      cases htxn : w.state.coord.transactions[t]? with
      | none =>
        obtain ⟨hcovered, hstarts⟩ := h.initNew htxn
        exact ⟨hsound, hcovered, hstarts⟩
      | some txn =>
        have hreinit := reinitialised_of_reinit htxn timeout now
        have heq : (initProducer w.state (some t) timeout producerId producerEpoch now).1 =
            (reinit w.state t txn timeout now).1 := by simp only [initProducer, htxn]
        rw [← heq] at hreinit
        simp only [permitted, htxn, all_some, Bool.and_eq_true, Bool.not_eq_true',
          decide_eq_false_iff_not] at hok
        refine ⟨hsound, fun x hx => ?_, starts_reinit h.starts hreinit⟩
        obtain ⟨x, hmem, rfl⟩ := List.mem_map.1 hx
        exact covered_reinit (h.covered x hmem) htxn hreinit hok.1 hok.2
  | txnAddPartitions t producerId e partitions =>
    cases hs
    cases hcurrent : current w.state t producerId e with
    | error e =>
      simp only [State.after, txnAddPartitions, hcurrent] at hsound ⊢
      exact ⟨hsound, h.covered, h.starts⟩
    | ok d =>
      simp only [permitted, hcurrent] at hok
      simp only [State.after, txnAddPartitions, hcurrent] at hsound ⊢
      refine ⟨hsound, fun x hx => covered_addPartitions (h.covered x hx) hcurrent hok,
        starts_modifyDetail h.starts fun d tp range' hr' => ?_⟩
      rw [range?_addPartitions] at hr'
      split at hr'
      · cases hr'
      · exact hr'
  | produce transactionId tp b =>
    cases hs
    simp only [permitted, Bool.and_eq_true, decide_eq_true_eq] at hok
    cases hproduce : produce w.state transactionId tp b with
    | error e =>
      simp only [State.after, hproduce] at hsound ⊢
      refine ⟨hsound, ?_, h.starts⟩
      cases transactionId with
      | none => exact h.covered
      | some t =>
        simp only [observer, hproduce]
        exact h.covered
    | ok r =>
      obtain ⟨s', offset⟩ := r
      obtain ⟨metadata, rfl, hproduced⟩ := produced_of_produce hproduce
      simp only [State.after, hproduce] at hsound ⊢
      refine ⟨hsound, ?_, starts_produce h.starts hproduced hok.1⟩
      have hold : ∀ x ∈ sent, Covered s' x := fun x hx => covered_produce (h.covered x hx) hproduced
      cases transactionId with
      | none => exact hold
      | some t =>
        obtain ⟨d, hd, hbegin⟩ := (Option.any_eq_true _ _).1 hok.2
        simp only [observer, hproduce, hproduced.topic]
        refine forall_mem_cons.2 ⟨?_, hold⟩
        exact covered_new h.starts hproduced hd (of_decide_eq_true hbegin)
  | txnEnd t producerId e committed =>
    cases hs
    cases hcurrent : current w.state t producerId e with
    | error err =>
      simp only [State.after, txnEnd, hcurrent] at hsound ⊢
      refine ⟨hsound, ?_, h.starts⟩
      simp only [observer, hcurrent]
      exact h.covered
    | ok d =>
      obtain ⟨s', deferred, hend, hended⟩ := exists_txnEnd hcurrent committed
      simp only [permitted, hcurrent] at hok
      simp only [State.after, hend] at hsound ⊢
      refine ⟨hsound, fun x hx => ?_, starts_txnEnd h.starts hended⟩
      simp only [observer, hcurrent] at hx
      obtain ⟨x, hmem, rfl⟩ := List.mem_map.1 hx
      exact covered_txnEnd (h.covered x hmem) (detail?_of_current hcurrent) hended hok
  | _ => cases hok

theorem Inv.of_reach [SlateDb] {p : World × List Sent}
    (h : observed.Reach (fun p a => permitted p.1 a) ({}, []) p) : Inv p :=
  h.invariant_observe (I := Inv) .init fun hi hok hs => hi.step hok hs

/-! ## What a fetch returns -/

theorem collect_lt {highWatermark : Int} {bytes : Nat} {keys : List Key} {r : Int × Batch}
    (h : r ∈ collect s highWatermark offset minBytes maxBytes keys bytes) :
    r.1 < highWatermark := by
  induction keys generalizing bytes with
  | nil => cases h
  | cons k keys ih =>
    cases k with
    | batch topic partition base =>
      unfold collect at h
      split at h
      · cases h
      next hlt =>
        split at h
        · cases h
        · split at h
          · exact ih h
          · rcases mem_cons.1 h with rfl | h
            · exact lt_of_not_ge hlt
            · split at h
              · cases h
              · exact ih h
    | _ => cases h

/-- The last stable offset is at most the start of every range in progress. -/
theorem lastStable_le {stage : OffsetStage} (h : offsetStage s tp = .ok stage)
    {range : TxnProduceOffset} (hd : s.coord.detail? t e = some d) (hopen : d.isOpen = true)
    (hr : d.range? tp = some range) : stage.lastStable ≤ range.offsetStart := by
  unfold offsetStage at h
  split at h
  · cases h
  · cases h
    refine foldl_min_le ?_ _
    obtain ⟨txn, htxn, hepoch⟩ := bind_eq_some_iff.1 hd
    refine mem_flatMap.2 ⟨txn, mem_values.2 ⟨t, htxn⟩, List.mem_filterMap.2 ⟨d, ?_, ?_⟩⟩
    · exact List.mem_filter.2 ⟨mem_values.2 ⟨e, hepoch⟩, hopen⟩
    · rw [hr]
      rfl

theorem fetch_lt [SlateDb] {out : List (Int × Batch)}
    (h : fetch s tp offset minBytes maxBytes .readCommitted = .ok out) :
    ∃ stage, offsetStage s tp = .ok stage ∧ ∀ r ∈ out, r.1 < stage.lastStable := by
  unfold fetch at h
  cases hstage : offsetStage s tp with
  | error e => rw [hstage] at h; cases h
  | ok stage =>
    rw [hstage] at h
    refine ⟨stage, rfl, fun r hr => ?_⟩
    simp only [bind, Except.bind, if_true] at h
    split at h
    · cases h
    · split at h
      · cases h
        cases hr
      · cases h
        exact collect_lt hr

/-- **Committed batches only.**  A batch that a consumer hands out is of a transaction that was
committed, and that is no longer prepared.  The batch of a transaction in progress lies in the
range of its detail, so the last stable offset that the fetch stops at is not above it; and in
these runs no batch is of an aborted transaction. -/
theorem read_committed_hands_out_committed [SlateDb] {w : World} {sent : List Sent}
    (h : observed.Reach (fun p a => permitted p.1 a) ({}, []) (w, sent)) {tp : Topition}
    {metadata : TopicMetadata} (htopic : w.state.coord.topics[tp.topic]? = some metadata)
    {offset : Int} {minBytes maxBytes : Nat} {out : List (Int × Batch)}
    (hfetch : fetch w.state tp offset minBytes maxBytes .readCommitted = .ok out) :
    ∀ r ∈ handedOut (abortedTransactions w.state tp offset) [] out,
      ∀ x ∈ sent, x.topic = metadata.id → x.partition = tp.partition → x.offset = r.1 →
        x.fate = some true ∧
          ∃ d, w.state.coord.detail? x.t x.e = some d ∧ d.isOpen = false := by
  intro r hr x hx hid hpartition hoffset
  have hinv := Inv.of_reach h
  have hcovered := hinv.covered x hx
  obtain ⟨stage, hstage, hlt⟩ := fetch_lt hfetch
  have hbelow := hlt r (handedOut_subset _ _ _ hr)
  obtain ⟨d, hd, hbegin, hrange⟩ := hcovered.detail
  have hclosed : d.isOpen = false := by
    by_contra hopen
    rw [Bool.not_eq_false] at hopen
    obtain ⟨name, metadata', range, hname, hid', hrange, hle⟩ := hrange hopen
    obtain rfl : name = tp.topic :=
      hinv.sound.distinct _ _ _ _ hname htopic (hid'.trans hid)
    rw [hpartition] at hrange
    have hstable := lastStable_le hstage hd hopen hrange
    omega
  refine ⟨?_, d, hd, hclosed⟩
  cases hfate : x.fate with
  | none =>
    rw [isOpen_of_begin (hbegin hfate)] at hclosed
    cases hclosed
  | some fate =>
    have hne := hcovered.fate
    rw [hfate] at hne
    cases fate with
    | true => rfl
    | false => exact absurd rfl hne

open Ordered in
/-- One transaction is committed and another one is open: the consumer has the batch of the
first. -/
theorem committed_batch_handed_out : ∃ (w : World) (sent : List Sent) (out : List (Int × Batch)),
    observed.Reach (fun p a => permitted p.1 a) ({}, []) (w, sent) ∧
    fetch w.state ⟨"p", 0⟩ 0 1 1000 .readCommitted = .ok out ∧
    (handedOut (abortedTransactions w.state ⟨"p", 0⟩ 0) [] out).length = 1 ∧ sent.length = 2 ∧
    ∀ r ∈ handedOut (abortedTransactions w.state ⟨"p", 0⟩ 0) [] out,
      ∀ x ∈ sent, x.topic = 1 → x.partition = 0 → x.offset = r.1 → x.fate = some true ∧
        ∃ d, w.state.coord.detail? x.t x.e = some d ∧ d.isOpen = false := by
  have hrun : (observed.trace (fun p a => permitted p.1 a) ({}, [])
      [.createTopic 1 ⟨"p", 1, 1, none⟩,
       .initProducer (some "a") 1000 none none 0, .txnAddPartitions "a" 1 0 [⟨"p", 0⟩],
       .produce (some "a") ⟨"p", 0⟩ ⟨16#16, 0, 0, 1, 0, 0, .client 10⟩, .txnEnd "a" 1 0 true,
       .initProducer (some "b") 1000 none none 0, .txnAddPartitions "b" 2 0 [⟨"p", 0⟩],
       .produce (some "b") ⟨"p", 0⟩ ⟨16#16, 0, 0, 2, 0, 0, .client 10⟩]).any (fun p =>
        (p.1.state.coord.topics["p"]? = some ⟨1, "p", 1, 1, none⟩ : Bool) &&
        decide (p.2.length = 2) &&
        (fetch p.1.state ⟨"p", 0⟩ 0 1 1000 .readCommitted).toOption.any fun out =>
          decide ((handedOut (abortedTransactions p.1.state ⟨"p", 0⟩ 0) [] out).length = 1)) =
      true := by
    decide +kernel
  obtain ⟨⟨w, sent⟩, hreach, hrun⟩ := reach_of_any hrun
  simp only [Bool.and_eq_true, decide_eq_true_eq, Option.any_eq_true,
    toOption_eq_some] at hrun
  obtain ⟨⟨htopic, hsent⟩, out, hfetch, hlength⟩ := hrun
  exact ⟨w, sent, out, hreach, hfetch, hlength, hsent,
    read_committed_hands_out_committed hreach htopic hfetch⟩

open Ordered in
/-- The batch of a transaction that was aborted is handed out. -/
theorem aborted_batch_handed_out : ∃ (w : World) (sent : List Sent) (out : List (Int × Batch)),
    observed.Reach (fun _ _ => True) ({}, []) (w, sent) ∧
    w.state.coord.topics["p"]? = some ⟨1, "p", 1, 1, none⟩ ∧
    fetch w.state ⟨"p", 0⟩ 0 1 1000 .readCommitted = .ok out ∧
    ∃ r ∈ handedOut (abortedTransactions w.state ⟨"p", 0⟩ 0) [] out,
      ∃ x ∈ sent, x.topic = 1 ∧ x.partition = 0 ∧ x.offset = r.1 ∧ x.fate = some false := by
  have hrun : (observed.trace (fun _ _ => True) ({}, [])
      [.createTopic 1 ⟨"p", 1, 1, none⟩,
       .initProducer (some "a") 1000 none none 0, .txnAddPartitions "a" 1 0 [⟨"p", 0⟩],
       .produce (some "a") ⟨"p", 0⟩ ⟨16#16, 0, 0, 1, 0, 0, .client 10⟩,
       .txnEnd "a" 1 0 false]).any (fun p =>
        (p.1.state.coord.topics["p"]? = some ⟨1, "p", 1, 1, none⟩ : Bool) &&
        (fetch p.1.state ⟨"p", 0⟩ 0 1 1000 .readCommitted).toOption.any fun out =>
          (handedOut (abortedTransactions p.1.state ⟨"p", 0⟩ 0) [] out).any fun r =>
            p.2.any fun x => decide (x.topic = 1 ∧ x.partition = 0 ∧ x.offset = r.1 ∧
              x.fate = some false)) = true := by
    decide +kernel
  obtain ⟨⟨w, sent⟩, hreach, hrun⟩ := reach_of_any hrun
  simp only [Bool.and_eq_true, decide_eq_true_eq, Option.any_eq_true, List.any_eq_true,
    toOption_eq_some] at hrun
  obtain ⟨htopic, out, hfetch, r, hr, x, hx, hx'⟩ := hrun
  exact ⟨w, sent, out, hreach, htopic, hfetch, r, hr, x, hx, hx'⟩

end Tansu.Slate.Isolation
