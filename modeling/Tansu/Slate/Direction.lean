import Tansu.Slate.Transactions

/-!
# The end of a transaction

`txn_end` writes its markers, the final state and the staged offsets by the flag of the
call, and looks at the state of the transaction only to prepare it.  A transaction is
ended once and in one direction as long as it is ended, produced for and given offsets
only while it has begun.
-/

namespace Tansu.Slate.Direction

open Std Tansu.Lib System List Option BTreeMap ExtTreeMap
open Tansu.Nvme (Topition Topic Group Batch CoordState TxnDetail TxnState TxnProduceOffset
  TxnCommitOffset TopicMetadata CreatableTopic Txn markerBatch wrapI16)

variable {s s' : State} {w w' : World} {t t' : String} {e e' : Int} {d : TxnDetail} {tp : Topition}

/-! ## Markers -/

/-- The end marker at an offset: producer, epoch, and whether it is for a commit. -/
def marker? (s : State) (id : Nat) (p o : Int) : Option (Int × Int × Bool) :=
  s.batches[(id, p, o)]?.bind fun b =>
    match b.recordData with
    | .endTransactionMarker committed => some (b.producerId, b.producerEpoch, committed)
    | .client _ => none

/-- How a transaction in this state ends. -/
def direction : Option TxnState → Option Bool
  | some .prepareCommit | some .committed => some true
  | some .prepareAbort | some .aborted => some false
  | _ => none

/-- A partition, by the id of its topic, is one of a list. -/
def Hits (s : State) (partitions : List Topition) (id : Nat) (p : Int) : Prop :=
  ∃ tp ∈ partitions, tp.partition = p ∧
    ∃ metadata : TopicMetadata, s.coord.topics[tp.topic]? = some metadata ∧ metadata.id = id

variable {partitions : List Topition} {metadata : TopicMetadata} {id : Nat} {p : Int}

theorem hits_cons (htopic : s.coord.topics[tp.topic]? = some metadata) :
    Hits s (tp :: partitions) id p ↔
      (metadata.id = id ∧ tp.partition = p) ∨ Hits s partitions id p := by
  simp only [Hits, mem_cons, exists_eq_or_imp, htopic, Option.some.injEq, exists_eq_left']
  rw [and_comm]

theorem hits_cons_none (htopic : s.coord.topics[tp.topic]? = none) :
    Hits s (tp :: partitions) id p ↔ Hits s partitions id p := by
  simp [Hits, htopic]

theorem not_hits_of_nodup (hdistinct : Distinct s) (htp : tp ∉ partitions)
    (htopic : s.coord.topics[tp.topic]? = some metadata) :
    ¬ Hits s partitions metadata.id tp.partition := by
  rintro ⟨⟨topic, p⟩, hmem, rfl, metadata', htopic', hid⟩
  obtain rfl : topic = tp.topic := hdistinct _ _ _ _ htopic' htopic hid
  exact htp hmem

open Classical in
/-- `marks` appends one marker to each of the partitions. -/
theorem marks_appends (producerId : Int) (committed : Bool) (hdistinct : Distinct s)
    (hnodup : partitions.Nodup) (offsetEnd : Int) (id : Nat) (p : Int) :
    (marks producerId e committed s offsetEnd partitions).1.high id p =
        (if Hits s partitions id p then s.high id p + 1 else s.high id p) ∧
      ∀ o, (marks producerId e committed s offsetEnd partitions).1.batches[(id, p, o)]? =
        if Hits s partitions id p ∧ o = s.high id p then some (markerBatch producerId e committed 0)
        else s.batches[(id, p, o)]? := by
  induction partitions generalizing s offsetEnd with
  | nil =>
    have hnot : ¬ Hits s [] id p := by
      rintro ⟨tp, htp, -⟩
      cases htp
    simp [hnot, marks]
  | cons tp partitions ih =>
    obtain ⟨htp, hnodup⟩ := nodup_cons.1 hnodup
    unfold marks
    split
    next htopic => simpa only [hits_cons_none htopic] using ih hdistinct hnodup offsetEnd
    next metadata htopic =>
      have hhits : ∀ id p, Hits (s.append metadata.id tp.partition
          (markerBatch producerId e committed 0)) partitions id p ↔ Hits s partitions id p :=
        fun _ _ => Iff.rfl
      simp only [ih (s := s.append metadata.id tp.partition (markerBatch producerId e committed 0))
        hdistinct hnodup, hhits, hits_cons htopic, high_append, batches_append]
      by_cases heq : metadata.id = id ∧ tp.partition = p
      · obtain ⟨rfl, rfl⟩ := heq
        simp [not_hits_of_nodup hdistinct htp htopic, markerBatch, eq_comm]
      · have hne (o : Int) :
            ¬ (metadata.id = id ∧ tp.partition = p ∧ s.high metadata.id tp.partition = o) :=
          fun h => heq ⟨h.1, h.2.1⟩
        simp [heq, hne]

/-! ## The invariant -/

/-- A transaction and a partition that it produced to. -/
abbrev Sent := String × Int × Topition

def observer (sent : List Sent) (w : World) (a : Action) (_ : World) : List Sent :=
  match a with
  | .produce (some t) tp b =>
    match produce w.state (some t) tp b with
    | .ok _ => (t, b.producerEpoch, tp) :: sent
    | .error _ => sent
  | _ => sent

def observed [SlateDb] : System (World × List Sent) Action := system.observe observer

def hasBegun (s : State) (t : String) (e : Int) : Bool :=
  (s.coord.detail? t e).any fun d => d.state = some TxnState.begin

/-- A transaction is produced for, given offsets and ended only while it has begun, batches
are not empty and hold no markers, and no epoch is used twice. -/
def permitted (w : World) : Action → Bool
  | .createTopic .. => true
  | .initProducer (some t) .. =>
    w.state.coord.transactions[t]?.all fun txn =>
      !(wrapI16 ((BTreeMap.lastKey? txn.epochs).getD 0 + 1) ∈ txn.epochs : Bool)
  | .initProducer none .. => true
  | .txnAddPartitions .. => true
  | .produce transactionId _ b =>
    decide (0 ≤ b.lastOffsetDelta) &&
      (match b.recordData with
        | .client _ => true
        | .endTransactionMarker _ => false) &&
      transactionId.all fun t => hasBegun w.state t b.producerEpoch
  | .txnOffsetCommit t producerId e .. | .txnEnd t producerId e _ =>
    match current w.state t producerId e with
    | .ok _ => hasBegun w.state t e
    | .error _ => true
  | _ => false

/-- Transactions and their markers. -/
structure Marked (s : State) (sent : List Sent) : Prop where
  /-- The log ends at the high watermark. -/
  below : ∀ id p o, (id, p, o) ∈ s.batches → o < s.high id p
  producers : ∀ t t' a, s.coord.producer? t = some a → s.coord.producer? t' = some a → t = t'
  known : ∀ t a, s.coord.producer? t = some a → a ∈ s.coord.producers
  decided : ∀ id p o a e committed, marker? s id p o = some (a, e, committed) →
    ∃ t d, s.coord.producer? t = some a ∧ s.coord.detail? t e = some d ∧
      direction d.state = some committed
  unique : ∀ id p o o' a e committed committed', marker? s id p o = some (a, e, committed) →
    marker? s id p o' = some (a, e, committed') → o = o'
  sent : ∀ t e tp, (t, e, tp) ∈ sent → ∃ a d metadata, s.coord.producer? t = some a ∧
    s.coord.detail? t e = some d ∧ tp ∈ d.produces ∧
    s.coord.topics[tp.topic]? = some metadata ∧
    ∀ committed, direction d.state = some committed →
      ∃ o, marker? s metadata.id tp.partition o = some (a, e, committed)

namespace Marked

variable {sent : List Sent}

/-- A step that ends no transaction: directions, markers and the producers of transactions
stay, and what is new is at most a transactional id with a new producer. -/
theorem plain (h : Marked s sent)
    (hbelow : ∀ id p o, (id, p, o) ∈ s'.batches → o < s'.high id p)
    (hmarker : ∀ id p o, marker? s' id p o = marker? s id p o)
    (htopics : ∀ (name : Topic) (metadata : TopicMetadata), s.coord.topics[name]? = some metadata →
      s'.coord.topics[name]? = some metadata)
    (hknown : ∀ a ∈ s.coord.producers, a ∈ s'.coord.producers)
    (hold : ∀ t a, s.coord.producer? t = some a → s'.coord.producer? t = some a)
    (hnew : ∀ t a, s'.coord.producer? t = some a → s.coord.producer? t = some a ∨
      a ∉ s.coord.producers ∧ a ∈ s'.coord.producers ∧
        ∀ t', s'.coord.producer? t' = some a → t' = t)
    (hdetail : ∀ t e d, s.coord.detail? t e = some d → ∃ d', s'.coord.detail? t e = some d' ∧
      direction d'.state = direction d.state ∧ ∀ tp ∈ d.produces, tp ∈ d'.produces) :
    Marked s' sent where
  below := hbelow
  producers t t' a ht ht' := by
    rcases hnew t a ht with hto | ⟨-, -, hunique⟩
    · rcases hnew t' a ht' with hto' | ⟨hfresh, -, -⟩
      · exact h.producers t t' a hto hto'
      · exact absurd (h.known t a hto) hfresh
    · exact (hunique t' ht').symm
  known t a ht := by
    rcases hnew t a ht with hto | ⟨-, hmem, -⟩
    · exact hknown a (h.known t a hto)
    · exact hmem
  decided id p o a e committed hm := by
    rw [hmarker] at hm
    obtain ⟨t, d, ht, hd, hdirection⟩ := h.decided id p o a e committed hm
    obtain ⟨d', hd', hdirection', -⟩ := hdetail t e d hd
    exact ⟨t, d', hold t a ht, hd', hdirection'.trans hdirection⟩
  unique id p o o' a e committed committed' hm hm' := by
    rw [hmarker] at hm hm'
    exact h.unique id p o o' a e committed committed' hm hm'
  sent t e tp hx := by
    obtain ⟨a, d, metadata, ht, hd, hmem, htopic, hmark⟩ := h.sent t e tp hx
    obtain ⟨d', hd', hdirection, hkeep⟩ := hdetail t e d hd
    refine ⟨a, d', metadata, hold t a ht, hd', hkeep tp hmem, htopics _ _ htopic,
      fun committed hc => ?_⟩
    obtain ⟨o, ho⟩ := hmark committed (hdirection ▸ hc)
    exact ⟨o, (hmarker _ _ _).trans ho⟩

/-- A step that ends the transaction `(t, e)`, with a marker on each of its partitions. -/
theorem ending (h : Marked s sent) (a : Int) (committed : Bool) (ha : s.coord.producer? t = some a)
    (hd : s.coord.detail? t e = some d) (hundecided : direction d.state = none)
    (hbelow : ∀ id p o, (id, p, o) ∈ s'.batches → o < s'.high id p)
    (hfresh : ∀ id p o, Hits s d.produces.keys id p ∧ o = s.high id p →
      marker? s' id p o = some (a, e, committed))
    (hkept : ∀ id p o, ¬ (Hits s d.produces.keys id p ∧ o = s.high id p) →
      marker? s' id p o = marker? s id p o)
    (htopics : s'.coord.topics = s.coord.topics)
    (hproducers : s'.coord.producers = s.coord.producers)
    (hproducer : ∀ t, s'.coord.producer? t = s.coord.producer? t)
    (hdetail : ∀ t' e' d₀, s.coord.detail? t' e' = some d₀ →
      ∃ d', s'.coord.detail? t' e' = some d' ∧
      d'.produces = d₀.produces ∧ (if t' = t ∧ e' = e then direction d'.state = some committed
        else direction d'.state = direction d₀.state)) :
    Marked s' sent := by
  -- no marker of the transaction was there before
  have hnone : ∀ id p o c, marker? s id p o ≠ some (a, e, c) := by
    intro id p o c hm
    obtain ⟨t', d', ht', hd', hdirection⟩ := h.decided id p o a e c hm
    obtain rfl := h.producers t' t a ht' ha
    cases hd'.symm.trans hd
    rw [hundecided] at hdirection
    cases hdirection
  have hcases : ∀ id p o m, marker? s' id p o = some m →
      (o = s.high id p ∧ m = (a, e, committed)) ∨ marker? s id p o = some m := by
    intro id p o m hm
    by_cases hhits : Hits s d.produces.keys id p ∧ o = s.high id p
    · rw [hfresh id p o hhits] at hm
      exact .inl ⟨hhits.2, (Option.some.inj hm).symm⟩
    · rw [hkept id p o hhits] at hm
      exact .inr hm
  refine ⟨hbelow, fun t₁ t₂ b h₁ h₂ => ?_, fun t₁ b h₁ => ?_, fun id p o b f c hm => ?_,
    fun id p o o' b f c c' hm hm' => ?_, fun t₁ f tp hx => ?_⟩
  · rw [hproducer] at h₁ h₂
    exact h.producers t₁ t₂ b h₁ h₂
  · rw [hproducer] at h₁
    exact hproducers ▸ h.known t₁ b h₁
  · rcases hcases id p o _ hm with ⟨-, heq⟩ | hold
    · cases heq
      obtain ⟨d', hd', -, hdirection⟩ := hdetail t e d hd
      rw [if_pos ⟨rfl, rfl⟩] at hdirection
      exact ⟨t, d', (hproducer t).trans ha, hd', hdirection⟩
    · obtain ⟨t₁, d₁, h₁, hd₁, hdirection₁⟩ := h.decided id p o b f c hold
      obtain ⟨d', hd', -, hdirection⟩ := hdetail t₁ f d₁ hd₁
      have hne : ¬ (t₁ = t ∧ f = e) := by
        rintro ⟨rfl, rfl⟩
        cases hd₁.symm.trans hd
        rw [hundecided] at hdirection₁
        cases hdirection₁
      rw [if_neg hne] at hdirection
      exact ⟨t₁, d', (hproducer t₁).trans h₁, hd', hdirection.trans hdirection₁⟩
  · rcases hcases id p o _ hm with ⟨ho, heq⟩ | hold
    · cases heq
      rcases hcases id p o' _ hm' with ⟨ho', -⟩ | hold'
      · exact ho.trans ho'.symm
      · exact absurd hold' (hnone id p o' c')
    · rcases hcases id p o' _ hm' with ⟨-, heq⟩ | hold'
      · cases heq
        exact absurd hold (hnone id p o c)
      · exact h.unique id p o o' b f c c' hold hold'
  · obtain ⟨b, d₁, metadata, h₁, hd₁, hmem, htopic, hmark⟩ := h.sent t₁ f tp hx
    obtain ⟨d', hd', hproduces, hdirection⟩ := hdetail t₁ f d₁ hd₁
    refine ⟨b, d', metadata, (hproducer t₁).trans h₁, hd', hproduces ▸ hmem, htopics ▸ htopic,
      fun c hc => ?_⟩
    split at hdirection
    next heq =>
      obtain ⟨rfl, rfl⟩ := heq
      cases hd₁.symm.trans hd
      cases h₁.symm.trans ha
      cases hdirection.symm.trans hc
      refine ⟨s.high metadata.id tp.partition,
        hfresh _ _ _ ⟨⟨tp, ?_, rfl, metadata, htopic, rfl⟩, rfl⟩⟩
      exact ExtTreeMap.mem_keys.2 hmem
    next =>
      obtain ⟨o, ho⟩ := hmark c (hdirection ▸ hc)
      refine ⟨o, (hkept _ _ _ ?_).trans ho⟩
      rintro ⟨-, rfl⟩
      -- the log ends there
      obtain ⟨b, hb, -⟩ := bind_eq_some_iff.1 ho
      exact absurd (h.below _ _ _ (mem_iff_exists.2 ⟨b, hb⟩)) (lt_irrefl _)

end Marked

/-! ## Steps -/

theorem marker?_congr (h : s'.batches = s.batches) (id : Nat) (p o : Int) :
    marker? s' id p o = marker? s id p o := by
  simp only [marker?, h]

section

variable {a : Int} {committed : Bool} {partitions : List Topition} {offsetEnd : Int} {p o : Int}

theorem marker?_marks_of_hits (hdistinct : Distinct s) (hnodup : partitions.Nodup)
    (h : Hits s partitions id p ∧ o = s.high id p) :
    marker? (marks a e committed s offsetEnd partitions).1 id p o = some (a, e, committed) := by
  rw [marker?, (marks_appends a committed hdistinct hnodup _ _ _).2, if_pos h]
  rfl

theorem marker?_marks_of_not_hits (hdistinct : Distinct s) (hnodup : partitions.Nodup)
    (h : ¬ (Hits s partitions id p ∧ o = s.high id p)) :
    marker? (marks a e committed s offsetEnd partitions).1 id p o = marker? s id p o := by
  rw [marker?, (marks_appends a committed hdistinct hnodup _ _ _).2, if_neg h]
  rfl

theorem below_marks (a e : Int) (committed : Bool) (offsetEnd : Int) (hdistinct : Distinct s)
    (hnodup : partitions.Nodup) (h : ∀ id p o, (id, p, o) ∈ s.batches → o < s.high id p) (id : Nat)
    (p o : Int)
    (ho : (id, p, o) ∈ (marks a e committed s offsetEnd partitions).1.batches) :
    o < (marks a e committed s offsetEnd partitions).1.high id p := by
  obtain ⟨hhigh, hbatches⟩ := marks_appends (e := e) a committed hdistinct hnodup offsetEnd id p
  rw [mem_iff_exists, hbatches o] at ho
  rw [hhigh]
  by_cases hhits : Hits s partitions id p
  · rw [if_pos hhits]
    by_cases heq : o = s.high id p
    · omega
    · simp only [heq, and_false, if_false] at ho
      have := h id p o (mem_iff_exists.2 ho)
      omega
  · simp only [hhits, false_and, if_false] at ho ⊢
    exact h id p o (mem_iff_exists.2 ho)

end

theorem below_congr (h : ∀ id p o, (id, p, o) ∈ s.batches → o < s.high id p)
    (hbatches : s'.batches = s.batches) (hwatermarks : s'.watermarks = s.watermarks) (id : Nat)
    (p o : Int) (ho : (id, p, o) ∈ s'.batches) : o < s'.high id p := by
  have hhigh : s'.high id p = s.high id p := by simp only [State.high, State.watermark, hwatermarks]
  rw [hbatches] at ho
  rw [hhigh]
  exact h id p o ho

theorem nodup_keys {K V : Type} [Ord K] [TransOrd K] [LawfulEqOrd K] (m : BTreeMap K V) :
    m.keys.Nodup :=
  distinct_keys.imp fun h heq => h (Std.compare_eq_iff_eq.2 heq)

theorem direction_finished (h : d.state.any TxnState.isPrepared = true) :
    direction (finished d).state = direction d.state := by
  obtain ⟨state, hstate, hprepared⟩ := (Option.any_eq_true _ _).1 h
  rw [finished, hstate]
  cases state <;> simp [TxnState.isPrepared] at hprepared <;> rfl

theorem direction_final (committed : Bool) :
    direction (some (final committed)) = some committed := by
  cases committed <;> rfl

theorem direction_prepare (committed : Bool) :
    direction (some (TxnState.prepare committed)) = some committed := by
  cases committed <;> rfl

theorem direction_settle {committed deferred : Bool}
    {produces : BTreeMap Topition (Option TxnProduceOffset)} {offsetEnd : Int} {d₀ : TxnDetail}
    (hbegin : t' = t ∧ e' = e → d₀.state = some TxnState.begin) :
    if t' = t ∧ e' = e then
      direction (settle t e committed deferred produces offsetEnd t' e' d₀).state = some committed
    else direction (settle t e committed deferred produces offsetEnd t' e' d₀).state =
      direction d₀.state := by
  split
  next heq =>
    rw [settle, if_pos heq, if_pos (hbegin heq)]
    split
    · exact direction_prepare committed
    · exact direction_final committed
  next hne =>
    rw [settle, if_neg hne]
    split
    next hc => exact direction_finished hc.2.2.1
    next => rfl

namespace Marked

variable {sent : List Sent}

theorem txnEnd (h : Marked s sent) (hdistinct : Distinct s) {producerId : Int}
    {committed deferred : Bool} (hcurrent : current s t producerId e = .ok d)
    (hbegin : d.state = some TxnState.begin)
    (hs : Ended s t producerId e committed d deferred s') : Marked s' sent := by
  obtain ⟨txn, htxn, hproducer, -, -⟩ := current_eq_ok.1 hcurrent
  have hprepared : Distinct (TxnEnd.prepare s t e committed) := hdistinct
  have hbelow := below_marks producerId e committed 0 hprepared (nodup_keys d.produces) h.below
  refine h.ending producerId committed ?_ (detail?_of_current hcurrent) (by rw [hbegin]; rfl)
    (below_congr hbelow hs.framed.batches hs.framed.watermarks)
    (fun id p o hhits => ?_) (fun id p o hhits => ?_) ?_ ?_ (fun t' => ?_) fun t' e' d₀ hd₀ => ?_
  · rw [CoordState.producer?, htxn, map_some, hproducer]
  · rw [marker?_congr hs.framed.batches]
    exact marker?_marks_of_hits hprepared (nodup_keys _) hhits
  · rw [marker?_congr hs.framed.batches]
    exact marker?_marks_of_not_hits hprepared (nodup_keys _) hhits
  · rw [hs.framed.topics, marks_coord]
    rfl
  · rw [hs.framed.producers, marks_coord]
    rfl
  · rw [hs.framed.producer, marks_coord]
    exact (Framed.modifyDetail s t e _).producer t'
  · refine ⟨_, by rw [hs.details, hd₀]; rfl, settle_produces, direction_settle ?_⟩
    rintro ⟨rfl, rfl⟩
    cases hd₀.symm.trans (detail?_of_current hcurrent)
    exact hbegin

theorem abortOpen (h : Marked s sent) (hdistinct : Distinct s) {txn : Txn}
    (htxn : s.coord.transactions[t]? = some txn) : Marked (abortOpen s t txn) sent := by
  cases hlast : (BTreeMap.lastKey? txn.epochs).bind (txn.epochs[·]?) with
  | none =>
    simp only [Slate.abortOpen, hlast]
    exact h
  | some d =>
    by_cases hbegin : d.state = some TxnState.begin
    · obtain ⟨hbatches, hwatermarks⟩ := abortOpen_log s t txn
      obtain ⟨htopics, hproducers, hproducer, -⟩ := abortOpen_frame s t txn
      have hpartitions : fencedPartitions txn = d.produces.keys := by
        simp [fencedPartitions, hlast, hbegin]
      rw [hpartitions] at hbatches hwatermarks
      have hbelow := below_marks txn.producer ((BTreeMap.lastKey? txn.epochs).getD 0)
        false 0 hdistinct (nodup_keys d.produces) h.below
      refine h.ending txn.producer false ?_ ((detail?_lastKey htxn).trans hlast)
        (by rw [hbegin]; rfl)
        (below_congr hbelow hbatches hwatermarks) (fun id p o hhits => ?_) (fun id p o hhits => ?_)
        htopics hproducers hproducer fun t' e' d₀ hd₀ => ?_
      · rw [CoordState.producer?, htxn]
        rfl
      · rw [marker?_congr hbatches]
        exact marker?_marks_of_hits hdistinct (nodup_keys _) hhits
      · rw [marker?_congr hbatches]
        exact marker?_marks_of_not_hits hdistinct (nodup_keys _) hhits
      · refine ⟨_, by rw [detail?_abortOpen htxn, hd₀]; rfl, ?_, ?_⟩
        · unfold fence
          split <;> rfl
        · split
          next heq =>
            obtain ⟨rfl, rfl⟩ := heq
            cases hd₀.symm.trans ((detail?_lastKey htxn).trans hlast)
            rw [fence, if_pos ⟨rfl, rfl, hbegin⟩]
            rfl
          next hne => rw [fence, if_neg fun hc => hne ⟨hc.1, hc.2.1⟩]
    · simp only [Slate.abortOpen, hlast, hbegin, if_false]
      exact h

end Marked

/-! ## The law of a step -/

def IsCommitted (s : State) (t : String) (e : Int) : Prop :=
  ∃ d, s.coord.detail? t e = some d ∧ d.state = some .committed

/-- A terminal state stays, a prepared transaction goes only to the final state it is prepared
for, and the offsets that are applied are those of the transactions that become committed. -/
structure EndsOnce (s s' : State) : Prop where
  terminal : ∀ t e d, s.coord.detail? t e = some d → d.isTerminal = true →
    ∃ d', s'.coord.detail? t e = some d' ∧ d'.state = d.state
  prepared : ∀ t e d committed, s.coord.detail? t e = some d →
    d.state = some (TxnState.prepare committed) → ∃ d', s'.coord.detail? t e = some d' ∧
      (d'.state = some (TxnState.prepare committed) ∨ d'.state = some (final committed))
  offsets : ∃ ps : List (String × Int), ps.Nodup ∧
    (∀ t e, (t, e) ∈ ps ↔ IsCommitted s' t e ∧ ¬ IsCommitted s t e) ∧ s'.commits = s.applied ps

namespace EndsOnce

theorem plain (hcommits : s'.commits = s.commits)
    (hdetail : ∀ t e d, s.coord.detail? t e = some d → ∃ d', s'.coord.detail? t e = some d' ∧
      (d'.state = d.state ∨ d.state = some TxnState.begin))
    (hnew : ∀ t e, IsCommitted s' t e → IsCommitted s t e) : EndsOnce s s' where
  terminal t e d hd hterminal := by
    obtain ⟨d', hd', hstate | hbegin⟩ := hdetail t e d hd
    · exact ⟨d', hd', hstate⟩
    · simp [TxnDetail.isTerminal, hbegin, TxnState.isTerminal] at hterminal
  prepared t e d committed hd hprepared := by
    obtain ⟨d', hd', hstate | hbegin⟩ := hdetail t e d hd
    · exact ⟨d', hd', .inl (hstate.trans hprepared)⟩
    · rw [hbegin] at hprepared
      cases committed <;> cases hprepared
  offsets := ⟨[], nodup_nil, fun t e => by simpa using hnew t e, hcommits⟩

theorem refl (s : State) : EndsOnce s s :=
  plain rfl (fun _ _ d hd => ⟨d, hd, .inl rfl⟩) fun _ _ h => h

theorem txnEnd {producerId : Int} {committed deferred : Bool}
    (hcurrent : current s t producerId e = .ok d) (hbegin : d.state = some TxnState.begin)
    (hs : Ended s t producerId e committed d deferred s') : EndsOnce s s' := by
  have hd := detail?_of_current hcurrent
  have hother : ∀ t' e' d₀, s.coord.detail? t' e' = some d₀ → d₀.state ≠ some TxnState.begin →
      ¬ (t' = t ∧ e' = e) := by
    rintro t' e' d₀ hd₀ hstate ⟨rfl, rfl⟩
    cases hd₀.symm.trans hd
    exact hstate hbegin
  refine ⟨fun t' e' d₀ hd₀ hterminal => ?_, fun t' e' d₀ c hd₀ hprepared => ?_, ?_⟩
  · refine ⟨_, by rw [hs.details, hd₀]; rfl, ?_⟩
    have hne := hother t' e' d₀ hd₀ fun hc => by
      simp [TxnDetail.isTerminal, hc, TxnState.isTerminal] at hterminal
    rw [settle, if_neg hne, if_neg]
    rintro ⟨-, -, hprepared, -⟩
    obtain ⟨state, hstate, hprepared⟩ := (Option.any_eq_true _ _).1 hprepared
    rw [TxnDetail.isTerminal, hstate] at hterminal
    cases state <;> simp [TxnState.isTerminal, TxnState.isPrepared] at hterminal hprepared
  · refine ⟨_, by rw [hs.details, hd₀]; rfl, ?_⟩
    have hne := hother t' e' d₀ hd₀ fun hc => by
      rw [hc] at hprepared
      cases c <;> cases hprepared
    rw [settle, if_neg hne]
    split
    · right
      rw [finished, hprepared]
      cases c <;> rfl
    · exact .inl hprepared
  · obtain ⟨ps, hnodup, hmem, hcommits⟩ := hs.commits
    refine ⟨ps, hnodup, fun t' e' => ?_, hcommits⟩
    rw [hmem]
    constructor
    · rintro ⟨rfl, ⟨rfl, rfl, rfl⟩ | ⟨ht, d', hd', hstate, hover⟩⟩
      · refine ⟨⟨_, by rw [hs.details, hd]; rfl, ?_⟩, ?_⟩
        · rw [settle, if_pos ⟨rfl, rfl⟩]
          rfl
        · rintro ⟨d₀, hd₀, hstate⟩
          cases hd₀.symm.trans hd
          rw [hbegin] at hstate
          cases hstate
      · refine ⟨⟨_, by rw [hs.details, hd']; rfl, ?_⟩, ?_⟩
        · rw [settle, if_neg fun hc => ht hc.1,
            if_pos ⟨ht, rfl, by simp [hstate, TxnState.isPrepared], hover⟩, finished, if_pos hstate]
        · rintro ⟨d₀, hd₀, hstate₀⟩
          cases hd₀.symm.trans hd'
          rw [hstate] at hstate₀
          cases hstate₀
    · rintro ⟨⟨d', hd', hstate'⟩, hnot⟩
      rw [hs.details] at hd'
      obtain ⟨d₀, hd₀, rfl⟩ := map_eq_some_iff.1 hd'
      by_cases heq : t' = t ∧ e' = e
      · obtain ⟨rfl, rfl⟩ := heq
        cases hd₀.symm.trans hd
        rw [settle, if_pos ⟨rfl, rfl⟩, if_pos hbegin] at hstate'
        cases deferred with
        | true => cases committed <;> cases hstate'
        | false =>
          cases committed with
          | true => exact ⟨rfl, .inl ⟨rfl, rfl, rfl⟩⟩
          | false => cases hstate'
      · rw [settle, if_neg heq] at hstate'
        split at hstate'
        next hc =>
          obtain ⟨ht, hdeferred, -, hover⟩ := hc
          refine ⟨hdeferred, .inr ⟨ht, d₀, hd₀, ?_, hover⟩⟩
          rw [finished] at hstate'
          by_contra hne
          rw [if_neg hne] at hstate'
          cases hstate'
        next => exact absurd ⟨d₀, hd₀, hstate'⟩ hnot

end EndsOnce

/-! ## Runs -/

structure Inv (p : World × List Sent) : Prop where
  sound : Sound p.1
  marked : Marked p.1.state p.2

theorem Inv.init : Inv ({}, []) where
  sound := .init
  marked := by
    constructor
    all_goals simp [marker?, CoordState.producer?]

variable {sent : List Sent}

/-- A step of the coordinator alone, which leaves the states of transactions. -/
theorem coord_step (h : Marked s sent) {coord : CoordState}
    (htopics : coord.topics = s.coord.topics)
    (hknown : ∀ a ∈ s.coord.producers, a ∈ coord.producers)
    (hproducer : ∀ t, coord.producer? t = s.coord.producer? t)
    (hdetail : ∀ t e, ∃ f : TxnDetail → TxnDetail, coord.detail? t e = (s.coord.detail? t e).map f ∧
      ∀ d, (f d).state = d.state ∧ ∀ tp ∈ d.produces, tp ∈ (f d).produces) :
    Marked { s with coord } sent ∧ EndsOnce s { s with coord } := by
  constructor
  · refine h.plain h.below (fun _ _ _ => rfl) (fun _ _ hm => htopics ▸ hm) hknown
      (fun t a ht => (hproducer t).trans ht) (fun t a ht => .inl ((hproducer t).symm.trans ht))
      fun t e d hd => ?_
    obtain ⟨f, hf, hkeep⟩ := hdetail t e
    exact ⟨f d, by rw [hf, hd]; rfl, by rw [(hkeep d).1], (hkeep d).2⟩
  · refine .plain rfl (fun t e d hd => ?_) ?_
    · obtain ⟨f, hf, hkeep⟩ := hdetail t e
      exact ⟨f d, by rw [hf, hd]; rfl, .inl (hkeep d).1⟩
    · rintro t e ⟨d', hd', hstate⟩
      obtain ⟨f, hf, hkeep⟩ := hdetail t e
      obtain ⟨d, hd, rfl⟩ := map_eq_some_iff.1 (hf.symm.trans hd')
      exact ⟨d, hd, (hkeep d).1.symm.trans hstate⟩

theorem modifyDetail_step (h : Marked s sent) {f : TxnDetail → TxnDetail}
    (hf : ∀ d, (f d).state = d.state ∧ ∀ tp ∈ d.produces, tp ∈ (f d).produces) :
    Marked (s.modifyDetail t e f) sent ∧ EndsOnce s (s.modifyDetail t e f) := by
  refine coord_step h rfl (fun _ ha => ha) (fun _ => CoordState.producer?_modifyDetail)
    fun t' e' => ?_
  rw [CoordState.detail?_modifyDetail]
  split
  · exact ⟨f, rfl, hf⟩
  · exact ⟨id, by rw [Option.map_id]; rfl, fun d => ⟨rfl, fun _ h => h⟩⟩

theorem createTopic_step (h : Marked s sent) {topic : CreatableTopic}
    (hs : createTopic s id topic = .ok s') : Marked s' sent ∧ EndsOnce s s' := by
  unfold createTopic at hs
  split at hs
  · cases hs
  next hnew =>
    cases hs
    refine ⟨h.plain h.below (fun _ _ _ => rfl) (fun name metadata hm => ?_) (fun _ ha => ha)
      (fun _ _ ht => ht) (fun _ _ ht => .inl ht) fun _ _ d hd => ⟨d, hd, rfl, fun _ h => h⟩,
      .plain rfl (fun _ _ d hd => ⟨d, hd, .inl rfl⟩) fun _ _ h => h⟩
    have hne : topic.name ≠ name := fun heq =>
      hnew (heq ▸ mem_iff_exists.2 ⟨metadata, hm⟩)
    rw [getElem?_insert_eq, if_neg hne]
    exact hm

theorem produce_step (h : Marked s sent) {transactionId : Option String} {b : Batch}
    (hs : Produced s transactionId tp b metadata s') (hdelta : 0 ≤ b.lastOffsetDelta)
    (hclient : ∃ len, b.recordData = .client len) : Marked s' sent ∧ EndsOnce s s' := by
  have hdetail : ∀ t e d, s.coord.detail? t e = some d → ∃ d', s'.coord.detail? t e = some d' ∧
      d'.state = d.state ∧ ∀ tp ∈ d.produces, tp ∈ d'.produces := by
    intro t e d hd
    rw [hs.details]
    split
    · refine ⟨extend d tp (s.high metadata.id tp.partition)
        (s.high metadata.id tp.partition + b.lastOffsetDelta), by rw [hd]; rfl,
          rfl, fun tp' htp' => ?_⟩
      rw [mem_iff_exists] at htp' ⊢
      simp only [extend, getElem?_alter_eq]
      split
      · rcases d.produces[tp']? with - | - | range <;> exact ⟨_, rfl⟩
      · exact htp'
    · exact ⟨d, hd, rfl, fun _ h => h⟩
  refine ⟨h.plain (fun id p o ho => ?_) (fun id p o => ?_) (fun _ _ hm => hs.topics ▸ hm) hs.known
    (fun t a ht => (hs.producer t).trans ht) (fun t a ht => .inl ((hs.producer t).symm.trans ht))
    fun t e d hd => ?_, .plain hs.commits (fun t e d hd => ?_) ?_⟩
  · rw [mem_iff_exists] at ho
    simp only [hs.batches] at ho
    rw [hs.high]
    have hold : (∃ v, s.batches[(id, p, o)]? = some v) → o < s.high id p :=
      fun ho => h.below id p o (mem_iff_exists.2 ho)
    split at ho
    next heq => rw [if_pos ⟨heq.1, heq.2.1⟩]; omega
    next =>
      have := hold ho
      split <;> omega
  · rw [marker?, marker?, hs.batches]
    split
    next heq =>
      -- the log had ended there
      obtain ⟨rfl, rfl, rfl⟩ := heq
      obtain ⟨len, hlen⟩ := hclient
      cases hb : s.batches[(metadata.id, tp.partition, s.high metadata.id tp.partition)]? with
      | none => simp [hlen]
      | some b' =>
        exact absurd (h.below _ _ _ (mem_iff_exists.2 ⟨b', hb⟩)) (lt_irrefl _)
    next => rfl
  · obtain ⟨d', hd', hstate, hkeep⟩ := hdetail t e d hd
    exact ⟨d', hd', by rw [hstate], hkeep⟩
  · obtain ⟨d', hd', hstate, -⟩ := hdetail t e d hd
    exact ⟨d', hd', .inl hstate⟩
  · rintro t e ⟨d', hd', hstate⟩
    rw [hs.details] at hd'
    split at hd'
    · obtain ⟨d, hd, rfl⟩ := map_eq_some_iff.1 hd'
      exact ⟨d, hd, hstate⟩
    · exact ⟨d', hd', hstate⟩

/-- A transaction that has begun has no markers yet. -/
theorem Marked.cons (h : Marked s sent) (hd : s.coord.detail? t e = some d)
    (hbegin : d.state = some TxnState.begin) (hmem : tp ∈ d.produces)
    (htopic : s.coord.topics[tp.topic]? = some metadata) : Marked s ((t, e, tp) :: sent) := by
  refine ⟨h.below, h.producers, h.known, h.decided, h.unique, fun t' e' tp' hx => ?_⟩
  rcases mem_cons.1 hx with heq | hx
  · cases heq
    obtain ⟨txn, htxn, -⟩ := bind_eq_some_iff.1 hd
    refine ⟨txn.producer, d, metadata, by rw [CoordState.producer?, htxn]; rfl, hd, hmem, htopic,
      fun c hc => ?_⟩
    rw [hbegin] at hc
    cases hc
  · exact h.sent t' e' tp' hx

theorem nextProducerId_not_mem (s : State) : nextProducerId s ∉ s.coord.producers := by
  unfold nextProducerId
  intro hmem
  cases hlast : BTreeMap.lastKey? s.coord.producers with
  | none =>
    rw [lastKey?_eq_maxKey?, maxKey?_eq_none_iff] at hlast
    rw [hlast] at hmem
    exact not_mem_empty hmem
  | some last =>
    rw [hlast] at hmem
    have hle := isLE_of_lastKey? hlast hmem
    simp only [elim_some, Int.isLE_compare] at hle
    omega

theorem initNew_step (h : Marked s sent) (htxn : s.coord.transactions[t]? = none) (timeout : Int)
    (producerId producerEpoch : Option Int) (now : Int) :
    Marked (initProducer s (some t) timeout producerId producerEpoch now).1 sent ∧
      EndsOnce s (initProducer s (some t) timeout producerId producerEpoch now).1 := by
  have hdetail : ∀ t' e' d', s.coord.detail? t' e' = some d' →
      (initProducer s (some t) timeout producerId producerEpoch now).1.coord.detail? t' e' =
        some d' := by
    intro t' e' d' hd'
    rw [detail?_initProducer_new htxn, if_neg]
    · exact hd'
    · rintro ⟨rfl, -⟩
      rw [CoordState.detail?, htxn] at hd'
      cases hd'
  have hproducer : ∀ t', (initProducer s (some t) timeout producerId producerEpoch
      now).1.coord.producer? t' = if t = t' then some (nextProducerId s) else
        s.coord.producer? t' := by
    intro t'
    simp only [initProducer, htxn, CoordState.producer?, getElem?_insert_eq]
    split <;> rfl
  have hproducers : (initProducer s (some t) timeout producerId producerEpoch
    now).1.coord.producers =
      s.coord.producers.insert (nextProducerId s) ⟨(∅ : BTreeMap Int _).insert 0 ∅⟩ := by
    simp only [initProducer, htxn]
  have hlog : (initProducer s (some t) timeout producerId producerEpoch now).1.batches = s.batches ∧
      (initProducer s (some t) timeout producerId producerEpoch now).1.watermarks = s.watermarks ∧
      (initProducer s (some t) timeout producerId producerEpoch now).1.commits = s.commits ∧
      (initProducer s (some t) timeout producerId producerEpoch now).1.coord.topics =
        s.coord.topics := by
    simp only [initProducer, htxn, and_self]
  obtain ⟨hbatches, hwatermarks, hcommits, htopics⟩ := hlog
  refine ⟨h.plain (below_congr h.below hbatches hwatermarks) (marker?_congr hbatches)
    (fun _ _ hm => htopics ▸ hm) (fun a ha => ?_) (fun t' a ht' => ?_) (fun t' a ht' => ?_)
    fun t' e' d' hd' => ⟨d', hdetail t' e' d' hd', rfl, fun _ h => h⟩,
    .plain hcommits (fun t' e' d' hd' => ⟨d', hdetail t' e' d' hd', .inl rfl⟩) ?_⟩
  · rw [hproducers]
    exact mem_insert.2 (.inr ha)
  · rw [hproducer, if_neg]
    · exact ht'
    · rintro rfl
      rw [CoordState.producer?, htxn] at ht'
      cases ht'
  · rw [hproducer] at ht'
    split at ht'
    next heq =>
      subst heq
      cases ht'
      refine .inr ⟨nextProducerId_not_mem s, by rw [hproducers]; simp, fun t' ht' => ?_⟩
      rw [hproducer] at ht'
      split at ht'
      next heq => exact heq.symm
      next => exact absurd (h.known t' _ ht') (nextProducerId_not_mem s)
    next => exact .inl ht'
  · rintro t' e' ⟨d', hd', hstate⟩
    rw [detail?_initProducer_new htxn] at hd'
    split at hd'
    · cases hd'
      cases hstate
    · exact ⟨d', hd', hstate⟩

theorem reinit_step (h : Marked s sent) (hdistinct : Distinct s) {txn : Txn}
    (htxn : s.coord.transactions[t]? = some txn)
    (hnew : wrapI16 ((BTreeMap.lastKey? txn.epochs).getD 0 + 1) ∉ txn.epochs) (timeout now : Int) :
    Marked (reinit s t txn timeout now).1 sent ∧ EndsOnce s (reinit s t txn timeout now).1 := by
  have hreinit := reinitialised_of_reinit htxn timeout now
  have haborted := h.abortOpen hdistinct htxn
  obtain ⟨htopics, -, hproducer, -⟩ := abortOpen_frame s t txn
  have hdetail : ∀ t' e' d', s.coord.detail? t' e' = some d' →
      (reinit s t txn timeout now).1.coord.detail? t' e' =
        some (fence t ((BTreeMap.lastKey? txn.epochs).getD 0) t' e' d') := by
    intro t' e' d' hd'
    rw [hreinit.details, if_neg, hd']
    · rfl
    · rintro ⟨rfl, rfl⟩
      rw [CoordState.detail?, htxn] at hd'
      exact hnew (mem_iff_exists.2 ⟨d', hd'⟩)
  constructor
  · refine haborted.plain (below_congr haborted.below rfl rfl) (marker?_congr rfl)
      (fun _ _ hm => ?_) (fun a ha => ?_) (fun t' a ht' => ?_) (fun t' a ht' => .inl ?_)
      fun t' e' d' hd' => ?_
    · exact hm
    · exact mem_modify.2 ha
    · rw [hreinit.producer, ← hproducer]
      exact ht'
    · rw [hreinit.producer, ← hproducer] at ht'
      exact ht'
    · rw [detail?_abortOpen htxn] at hd'
      obtain ⟨d₀, hd₀, rfl⟩ := map_eq_some_iff.1 hd'
      exact ⟨_, hdetail t' e' d₀ hd₀, rfl, fun _ h => h⟩
  · refine .plain hreinit.commits (fun t' e' d' hd' => ⟨_, hdetail t' e' d' hd', ?_⟩) ?_
    · unfold fence
      split
      next hc => exact .inr hc.2.2
      next => exact .inl rfl
    · rintro t' e' ⟨d', hd', hstate⟩
      rw [hreinit.details] at hd'
      split at hd'
      · cases hd'
        cases hstate
      · obtain ⟨d₀, hd₀, rfl⟩ := map_eq_some_iff.1 hd'
        refine ⟨d₀, hd₀, ?_⟩
        unfold fence at hstate
        split at hstate
        · cases hstate
        · exact hstate

theorem Inv.step [SlateDb] {a : Action} (h : Inv (w, sent)) (hok : permitted w a = true)
    (hs : system.step w a = some w') :
    Inv (w', observer sent w a w') ∧ EndsOnce w.state w'.state := by
  have hsound := h.sound.step hs
  cases a with
  | createTopic id topic =>
    simp only [system, Slate.step] at hs
    split at hs
    · cases hs
      cases hcreate : createTopic w.state id topic with
      | ok s =>
        simp only [hcreate] at hsound ⊢
        obtain ⟨hmarked, hends⟩ := createTopic_step h.marked hcreate
        exact ⟨⟨hsound, hmarked⟩, hends⟩
      | error e =>
        simp only [hcreate] at hsound ⊢
        exact ⟨⟨hsound, h.marked⟩, .refl _⟩
    · cases hs
  | initProducer transactionId timeout producerId producerEpoch now =>
    cases hs
    cases transactionId with
    | none =>
      obtain ⟨producers, hknown, heq⟩ :=
        initProducer_none w.state timeout producerId producerEpoch now
      simp only [State.after, heq] at hsound ⊢
      have hstep : Marked { w.state with coord := { w.state.coord with producers } } sent ∧
          EndsOnce w.state { w.state with coord := { w.state.coord with producers } } :=
        coord_step h.marked rfl hknown (fun _ => rfl) fun t e =>
          ⟨id, by rw [Option.map_id]; rfl, fun d => ⟨rfl, fun _ h => h⟩⟩
      exact ⟨⟨hsound, hstep.1⟩, hstep.2⟩
    | some t =>
      cases htxn : w.state.coord.transactions[t]? with
      | none =>
        obtain ⟨hmarked, hends⟩ := initNew_step h.marked htxn timeout producerId producerEpoch now
        exact ⟨⟨hsound, hmarked⟩, hends⟩
      | some txn =>
        simp only [permitted, htxn, all_some, Bool.not_eq_true',
          decide_eq_false_iff_not] at hok
        have heq : (initProducer w.state (some t) timeout producerId producerEpoch now).1 =
            (reinit w.state t txn timeout now).1 := by simp only [initProducer, htxn]
        simp only [State.after, heq] at hsound ⊢
        obtain ⟨hmarked, hends⟩ := reinit_step h.marked h.sound.distinct htxn hok timeout now
        exact ⟨⟨hsound, hmarked⟩, hends⟩
  | txnAddPartitions t producerId e partitions =>
    cases hs
    cases hcurrent : current w.state t producerId e with
    | error err =>
      simp only [State.after, txnAddPartitions, hcurrent] at hsound ⊢
      exact ⟨⟨hsound, h.marked⟩, .refl _⟩
    | ok d =>
      simp only [State.after, txnAddPartitions, hcurrent] at hsound ⊢
      have hstep : Marked (w.state.modifyDetail t e (addPartitions · partitions)) sent ∧
          EndsOnce w.state (w.state.modifyDetail t e (addPartitions · partitions)) :=
        modifyDetail_step h.marked fun d => ⟨rfl, fun _ => mem_addPartitions⟩
      exact ⟨⟨hsound, hstep.1⟩, hstep.2⟩
  | txnOffsetCommit t producerId e group offsets =>
    cases hs
    cases hcurrent : current w.state t producerId e with
    | error err =>
      simp only [State.after, txnOffsetCommit, hcurrent] at hsound ⊢
      exact ⟨⟨hsound, h.marked⟩, .refl _⟩
    | ok d =>
      simp only [State.after, txnOffsetCommit, hcurrent] at hsound ⊢
      have hstep : Marked (w.state.modifyDetail t e (TxnDetail.stage · group offsets)) sent ∧
          EndsOnce w.state (w.state.modifyDetail t e (TxnDetail.stage · group offsets)) :=
        modifyDetail_step h.marked fun d => ⟨rfl, fun _ h => h⟩
      exact ⟨⟨hsound, hstep.1⟩, hstep.2⟩
  | produce transactionId tp b =>
    cases hs
    simp only [permitted, Bool.and_eq_true, decide_eq_true_eq] at hok
    obtain ⟨⟨hdelta, hclient⟩, hbegun⟩ := hok
    cases hproduce : produce w.state transactionId tp b with
    | error err =>
      simp only [State.after, hproduce] at hsound ⊢
      refine ⟨⟨hsound, ?_⟩, .refl _⟩
      cases transactionId with
      | none => exact h.marked
      | some t =>
        simp only [observer, hproduce]
        exact h.marked
    | ok r =>
      obtain ⟨s', offset⟩ := r
      obtain ⟨metadata, -, hproduced⟩ := produced_of_produce hproduce
      have hdata : ∃ len, b.recordData = .client len := by
        cases hrecords : b.recordData with
        | client len => exact ⟨len, rfl⟩
        | endTransactionMarker committed => rw [hrecords] at hclient; cases hclient
      obtain ⟨hmarked, hends⟩ := produce_step h.marked hproduced hdelta hdata
      simp only [State.after, hproduce] at hsound ⊢
      refine ⟨⟨hsound, ?_⟩, hends⟩
      cases transactionId with
      | none => exact hmarked
      | some t =>
        simp only [observer, hproduce]
        obtain ⟨d, hd, hbegin⟩ := (Option.any_eq_true _ _).1 hbegun
        refine hmarked.cons (d := extend d tp (w.state.high metadata.id tp.partition)
          (w.state.high metadata.id tp.partition + b.lastOffsetDelta)) ?_ (of_decide_eq_true hbegin)
          ?_ (hproduced.topics ▸ hproduced.topic)
        · rw [hproduced.details, if_pos ⟨rfl, rfl⟩, hd]
          rfl
        · rw [mem_iff_exists]
          simp only [extend, getElem?_alter_eq, if_true]
          rcases d.produces[tp]? with - | - | range <;> exact ⟨_, rfl⟩
  | txnEnd t producerId e committed =>
    cases hs
    cases hcurrent : current w.state t producerId e with
    | error err =>
      simp only [State.after, txnEnd, hcurrent] at hsound ⊢
      exact ⟨⟨hsound, h.marked⟩, .refl _⟩
    | ok d =>
      obtain ⟨s', deferred, hend, hended⟩ := exists_txnEnd hcurrent committed
      simp only [permitted, hcurrent, hasBegun, detail?_of_current hcurrent, any_some,
        decide_eq_true_eq] at hok
      simp only [State.after, hend] at hsound ⊢
      exact ⟨⟨hsound, h.marked.txnEnd h.sound.distinct hcurrent hok hended⟩,
        .txnEnd hcurrent hok hended⟩
  | _ => cases hok

theorem Inv.of_reach [SlateDb] {p : World × List Sent}
    (h : observed.Reach (fun p a => permitted p.1 a) ({}, []) p) : Inv p :=
  h.invariant_observe (I := Inv) .init fun hi hok hs => (hi.step hok hs).1

/-- The markers of a transaction on a partition that it produced to: none until it is ended,
then one, of the kind it ends with. -/
def MarkedOnce (s : State) (sent : List Sent) : Prop :=
  ∀ t e tp, (t, e, tp) ∈ sent → ∃ a d metadata, s.coord.producer? t = some a ∧
    s.coord.detail? t e = some d ∧ s.coord.topics[tp.topic]? = some metadata ∧
    match direction d.state with
    | none => ∀ o committed, marker? s metadata.id tp.partition o ≠ some (a, e, committed)
    | some committed => ∃ o, marker? s metadata.id tp.partition o = some (a, e, committed) ∧
      ∀ o' committed', marker? s metadata.id tp.partition o' = some (a, e, committed') → o' = o

theorem Marked.once (h : Marked s sent) : MarkedOnce s sent := by
  intro t e tp hx
  obtain ⟨a, d, metadata, ha, hd, -, htopic, hmark⟩ := h.sent t e tp hx
  refine ⟨a, d, metadata, ha, hd, htopic, ?_⟩
  split
  next hdirection =>
    intro o committed hm
    obtain ⟨t', d', ha', hd', hdirection'⟩ := h.decided _ _ _ _ _ _ hm
    obtain rfl := h.producers _ _ _ ha' ha
    cases hd'.symm.trans hd
    rw [hdirection] at hdirection'
    cases hdirection'
  next committed hdirection =>
    obtain ⟨o, ho⟩ := hmark committed hdirection
    exact ⟨o, ho, fun o' committed' ho' => h.unique _ _ _ _ _ _ _ _ ho' ho⟩

/-- A transaction that is prepared or ended keeps its direction, and a terminal state. -/
def Keeps (s s' : State) : Prop :=
  ∀ t e d committed, s.coord.detail? t e = some d → direction d.state = some committed →
    ∃ d', s'.coord.detail? t e = some d' ∧ direction d'.state = some committed ∧
      (d.isTerminal = true → d'.state = d.state)

theorem Keeps.trans {s'' : State} (h : Keeps s s') (h' : Keeps s' s'') : Keeps s s'' := by
  intro t e d committed hd hdirection
  obtain ⟨d', hd', hdirection', hterminal⟩ := h t e d committed hd hdirection
  obtain ⟨d'', hd'', hdirection'', hterminal'⟩ := h' t e d' committed hd' hdirection'
  refine ⟨d'', hd'', hdirection'', fun hd => ?_⟩
  have hstate := hterminal hd
  rw [← hstate]
  exact hterminal' (by rw [TxnDetail.isTerminal, hstate]; exact hd)

theorem EndsOnce.keeps (h : EndsOnce s s') : Keeps s s' := by
  intro t e d committed hd hdirection
  by_cases hterminal : d.isTerminal = true
  · obtain ⟨d', hd', hstate⟩ := h.terminal t e d hd hterminal
    exact ⟨d', hd', by rw [hstate, hdirection], fun _ => hstate⟩
  · have hprepared : d.state = some (TxnState.prepare committed) := by
      unfold TxnDetail.isTerminal at hterminal
      rcases hstate : d.state with - | state
      · rw [hstate] at hdirection
        cases hdirection
      · rw [hstate] at hdirection hterminal
        cases state <;> cases hdirection <;> first | rfl | exact absurd rfl hterminal
    obtain ⟨d', hd', hstate | hstate⟩ := h.prepared t e d committed hd hprepared
    · exact ⟨d', hd', by rw [hstate, direction_prepare], fun hc => absurd hc hterminal⟩
    · exact ⟨d', hd', by rw [hstate, direction_final], fun hc => absurd hc hterminal⟩

/-- **Every transaction is ended once, and in one direction.**  In every state of a
permitted run the partitions a transaction has produced to carry no marker of it until it is
ended, and one afterwards; each step keeps the decision of a transaction that is prepared or
ended, and so does every continuation of the run.  The markers of a partition are written in
the step that prepares the transaction, under an epoch that only this transaction has, so
that the state of the detail tells how many there are. -/
theorem transactions_end_once [SlateDb] {sent : List Sent}
    (h : observed.Reach (fun p a => permitted p.1 a) ({}, []) (w, sent)) :
    MarkedOnce w.state sent ∧
      (∀ a w', permitted w a = true → system.step w a = some w' → EndsOnce w.state w'.state) ∧
      ∀ p, observed.Reach (fun p a => permitted p.1 a) (w, sent) p → Keeps w.state p.1.state := by
  refine ⟨(Inv.of_reach h).marked.once, fun _ _ hok hs => ((Inv.of_reach h).step hok hs).2,
    fun p hp => ?_⟩
  refine hp.invariant (I := fun p => Keeps w.state p.1.state)
    (fun t e d committed hd hdirection => ⟨d, hd, hdirection, fun _ => rfl⟩)
    fun hreach hkeeps hok hs => ?_
  have hinv := Inv.of_reach (h.trans hreach)
  exact hkeeps.trans (hinv.step hok (observe_step hs).1).2.keeps

open Ordered in
/-- Two transactions over one partition, of which one is committed with its offset and the
other one aborted: the end of the first waits for the second. -/
theorem two_transactions_end_once : ∃ (w : World) (sent : List Sent),
    observed.Reach (fun p a => permitted p.1 a) ({}, []) (w, sent) ∧ sent.length = 2 ∧
    (w.state.coord.detail? "a" 0).map TxnDetail.state = some (some .committed) ∧
    (w.state.coord.detail? "b" 0).map TxnDetail.state = some (some .aborted) ∧
    offsetFetch w.state "g" ⟨"p", 0⟩ = 7 ∧ MarkedOnce w.state sent := by
  have hrun : (observed.trace (fun p a => permitted p.1 a) ({}, [])
      [.createTopic 1 ⟨"p", 1, 1, none⟩,
       .initProducer (some "a") 1000 none none 0, .initProducer (some "b") 1000 none none 0,
       .txnAddPartitions "a" 1 0 [⟨"p", 0⟩], .txnAddPartitions "b" 2 0 [⟨"p", 0⟩],
       .produce (some "a") ⟨"p", 0⟩ ⟨16#16, 0, 0, 1, 0, 0, .client 10⟩,
       .produce (some "b") ⟨"p", 0⟩ ⟨16#16, 0, 0, 2, 0, 0, .client 10⟩,
       .txnOffsetCommit "a" 1 0 "g" [(⟨"p", 0⟩, ⟨7, none, none⟩)],
       .txnEnd "a" 1 0 true, .txnEnd "b" 2 0 false]).any (fun p =>
        decide (p.2.length = 2 ∧
          (p.1.state.coord.detail? "a" 0).map TxnDetail.state = some (some .committed) ∧
          (p.1.state.coord.detail? "b" 0).map TxnDetail.state = some (some .aborted) ∧
          offsetFetch p.1.state "g" ⟨"p", 0⟩ = 7)) = true := by
    decide +kernel
  obtain ⟨⟨w, sent⟩, hreach, hrun⟩ := reach_of_any hrun
  obtain ⟨hsent, ha, hb, hoffset⟩ := of_decide_eq_true hrun
  exact ⟨w, sent, hreach, hsent, ha, hb, hoffset, (transactions_end_once hreach).1⟩

open Ordered in
/-- A second `txn_end`, with the other flag: the committed transaction becomes aborted, and
there are two markers. -/
theorem committed_transaction_aborted : ∃ w w' : World, system.Reach (fun _ _ => True) {} w ∧
    system.step w (.txnEnd "a" 1 0 false) = some w' ∧
    (w.state.coord.detail? "a" 0).map TxnDetail.state = some (some .committed) ∧
    (w'.state.coord.detail? "a" 0).map TxnDetail.state = some (some .aborted) ∧
    marker? w'.state 1 0 1 = some (1, 0, true) ∧ marker? w'.state 1 0 2 = some (1, 0, false) := by
  have hrun : (system.trace (fun _ _ => True) {}
      [.createTopic 1 ⟨"p", 1, 1, none⟩, .initProducer (some "a") 1000 none none 0,
       .txnAddPartitions "a" 1 0 [⟨"p", 0⟩],
       .produce (some "a") ⟨"p", 0⟩ ⟨16#16, 0, 0, 1, 0, 0, .client 10⟩,
       .txnEnd "a" 1 0 true]).any (fun w =>
        decide ((w.state.coord.detail? "a" 0).map TxnDetail.state = some (some .committed)) &&
        (system.step w (.txnEnd "a" 1 0 false)).any fun w' =>
          decide ((w'.state.coord.detail? "a" 0).map TxnDetail.state = some (some .aborted) ∧
            marker? w'.state 1 0 1 = some (1, 0, true) ∧
            marker? w'.state 1 0 2 = some (1, 0, false))) = true := by
    decide +kernel
  obtain ⟨w, hreach, hrun⟩ := reach_of_any hrun
  simp only [Bool.and_eq_true, decide_eq_true_eq, Option.any_eq_true] at hrun
  obtain ⟨hcommitted, w', hs, hafter⟩ := hrun
  exact ⟨w, w', hreach, hs, hcommitted, hafter⟩

end Tansu.Slate.Direction
