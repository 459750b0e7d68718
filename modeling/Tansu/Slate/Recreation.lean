import Tansu.Slate.Deletion

/-!
# A topic that is created again

What is kept under the UUID of a topic belongs to that topic alone, since no UUID is
given out twice.  What is kept under its name, the ranges of transactions and the
sequences of producers, is there only while the topic is: `delete_topic` forgets it, and
nothing is produced to a topic that does not exist.  Committed offsets are kept under the
name too, and `delete_topic` leaves them.
-/

namespace Tansu.Slate

open Std Tansu.Lib List BTreeMap ExtTreeMap System
open SlateDb (scan of_mem_scan exists_mem_scan)
open Tansu.Nvme (Topition Topic Group Batch CoordState TxnDetail TxnCommitOffset TxnProduceOffset
  TopicId TopicMetadata CreatableTopic Txn ProducerDetail)

variable {s s' : State} {k : Key} {topic : TopicId} {name : Topic} {metadata : TopicMetadata}

/-! ## What is kept by name -/

/-- The sequences of a producer at an epoch. -/
def State.sequences? (s : State) (id e : Int) : Option (BTreeMap Topition Int) :=
  s.coord.producers[id]?.bind fun pd => pd.sequences[e]?

/-- A topic that does not exist has no ranges and no sequences. -/
structure Tidy (s : State) : Prop where
  ranges : ∀ {t : String} {e : Int} {d : TxnDetail} {tp : Topition},
    s.coord.detail? t e = some d → tp.topic ∉ s.coord.topics → d.range? tp = none
  sequences : ∀ {id e : Int} {m : BTreeMap Topition Int} {tp : Topition},
    s.sequences? id e = some m → tp.topic ∉ s.coord.topics → m[tp]? = none

namespace Tidy

theorem of_coord (h : Tidy s) (hcoord : s'.coord = s.coord) : Tidy s' := by
  refine ⟨fun hd htp => h.ranges (hcoord ▸ hd) (hcoord ▸ htp), fun {id e _ _} hm htp => ?_⟩
  have heq : s'.sequences? id e = s.sequences? id e := by simp only [State.sequences?, hcoord]
  exact h.sequences (heq ▸ hm) (hcoord ▸ htp)

variable {t : String} {e : Int} {f : TxnDetail → TxnDetail}

theorem modifyDetail (h : Tidy s)
    (hf : ∀ (d : TxnDetail) (tp : Topition), tp.topic ∉ s.coord.topics → d.range? tp = none →
      (f d).range? tp = none) : Tidy (s.modifyDetail t e f) := by
  refine ⟨fun {t' e' d tp} hd htp => ?_, h.sequences⟩
  rw [State.modifyDetail, CoordState.detail?_modifyDetail] at hd
  split at hd
  · obtain ⟨d₀, hd₀, rfl⟩ := Option.map_eq_some_iff.1 hd
    exact hf d₀ tp htp (h.ranges hd₀ htp)
  · exact h.ranges hd htp

theorem modifyState (h : Tidy s) (hf : ∀ d, (f d).produces = d.produces) :
    Tidy (s.modifyDetail t e f) :=
  h.modifyDetail fun d tp _ hd => by rw [TxnDetail.range?, hf]; exact hd

/-- New details and new epochs of producers are empty. -/
theorem of_new (h : Tidy s) (htopics : s'.coord.topics = s.coord.topics)
    (hdetails : ∀ t e d, s'.coord.detail? t e = some d →
      s.coord.detail? t e = some d ∨ d.produces = ∅)
    (hsequences : ∀ id e m, s'.sequences? id e = some m →
      s.sequences? id e = some m ∨ m = ∅) : Tidy s' := by
  refine ⟨fun hd htp => ?_, fun hm htp => ?_⟩
  · rcases hdetails _ _ _ hd with hd | hd
    · exact h.ranges hd (htopics ▸ htp)
    · simp [TxnDetail.range?, hd]
  · rcases hsequences _ _ _ hm with hm | rfl
    · exact h.sequences hm (htopics ▸ htp)
    · simp

end Tidy

theorem marks_coord (producerId producerEpoch : Int) (committed : Bool) (s : State)
    (offsetEnd : Int) (partitions : List Topition) :
    (marks producerId producerEpoch committed s offsetEnd partitions).1.coord = s.coord := by
  induction partitions generalizing s offsetEnd with
  | nil => rfl
  | cons tp partitions ih =>
    unfold marks
    split
    · exact ih s offsetEnd
    · exact ih _ _

namespace Tidy

theorem place (h : Tidy s) {transactionId : Option String} {metadata : TopicMetadata}
    {tp : Topition} {b : Batch} (htopic : tp.topic ∈ s.coord.topics) :
    Tidy (place s transactionId metadata tp b) := by
  cases transactionId with
  | none => exact h.of_coord rfl
  | some t =>
    refine (h.modifyDetail fun d tp' htp' hd => ?_).of_coord rfl
    have hne : tp ≠ tp' := fun heq => htp' (heq ▸ htopic)
    rw [TxnDetail.range?, extend, getElem?_alter_eq, if_neg hne]
    exact hd

variable {tp : Topition} {b : Batch} {transactionId : Option String}

theorem sequence (h : Tidy s) (htopic : tp.topic ∈ s.coord.topics) (hs : sequence s tp b = .ok s') :
    Tidy s' := by
  unfold Slate.sequence at hs
  split at hs
  next => cases hs
  next pd hpd =>
    split at hs
    next => cases hs
    next currentEpoch _ =>
      obtain ⟨increment, -, rfl⟩ := exists_of_map_eq_ok hs
      refine ⟨h.ranges, fun {id e m tp'} hm htp' => ?_⟩
      have hne : tp ≠ tp' := fun heq => htp' (heq ▸ htopic)
      simp only [State.sequences?, getElem?_insert_eq] at hm
      split at hm
      next hid =>
        subst hid
        rw [Option.bind_some, getElem?_alter_eq] at hm
        split at hm
        next he =>
          subst he
          cases hm
          rw [getElem?_insert_eq, if_neg hne]
          cases hm : pd.sequences[b.producerEpoch]? with
          | none => simp
          | some m => exact h.sequences (by rw [State.sequences?, hpd]; exact hm) htp'
        next => exact h.sequences (by rw [State.sequences?, hpd]; exact hm) htp'
      next => exact h.sequences hm htp'

theorem produce (h : Tidy s) {offset : Int} (hs : produce s transactionId tp b = .ok (s', offset)) :
    Tidy s' := by
  unfold Slate.produce at hs
  split at hs
  next => cases hs
  next metadata hpartition =>
    have htopic : tp.topic ∈ s.coord.topics :=
      mem_iff_exists.2 ⟨metadata, (partition?_eq_some.1 hpartition).1⟩
    obtain ⟨s₁, hs₁, heq⟩ := exists_of_map_eq_ok hs
    cases heq
    split at hs₁
    · have hsequence := h.sequence htopic hs₁
      obtain ⟨producers, -, rfl⟩ := Confined.of_sequence hs₁
      exact hsequence.place htopic
    · cases hs₁
      exact h.place htopic

theorem newEpoch (h : Tidy s) (t : String) (id newEpoch timeout now : Int) :
    Tidy { s with
      coord := { s.coord with
        transactions := s.coord.transactions.modify t fun txn =>
          { txn with epochs := txn.epochs.insert newEpoch (begun timeout now) }
        producers := s.coord.producers.modify id fun pd =>
          ⟨pd.sequences.insert newEpoch ∅⟩ } } := by
  refine h.of_new rfl (fun t' e d hd => ?_) fun id' e m hm => ?_
  · simp only [CoordState.detail?, BTreeMap.getElem?_modify_eq] at hd ⊢
    split at hd
    · obtain ⟨txn, htxn, hd⟩ := Option.bind_eq_some_iff.1 hd
      obtain ⟨txn₀, htxn₀, rfl⟩ := Option.map_eq_some_iff.1 htxn
      rw [getElem?_insert_eq] at hd
      split at hd
      · exact .inr (Option.some.inj hd ▸ rfl)
      · exact .inl (Option.bind_eq_some_iff.2 ⟨txn₀, htxn₀, hd⟩)
    · exact .inl hd
  · simp only [State.sequences?, BTreeMap.getElem?_modify_eq] at hm ⊢
    split at hm
    · obtain ⟨pd, hpd, hm⟩ := Option.bind_eq_some_iff.1 hm
      obtain ⟨pd₀, hpd₀, rfl⟩ := Option.map_eq_some_iff.1 hpd
      rw [getElem?_insert_eq] at hm
      split at hm
      · exact .inr (Option.some.inj hm).symm
      · exact .inl (Option.bind_eq_some_iff.2 ⟨pd₀, hpd₀, hm⟩)
    · exact .inl hm

theorem abortOpen (h : Tidy s) (t : String) (txn : Txn) : Tidy (abortOpen s t txn) := by
  unfold Slate.abortOpen
  split
  · exact h
  · split
    · exact (h.of_coord (marks_coord _ _ _ _ _ _)).modifyState fun _ => rfl
    · exact h

theorem initProducer (h : Tidy s) (transactionId : Option String) (timeout : Int)
    (producerId producerEpoch : Option Int) (now : Int) :
    Tidy (initProducer s transactionId timeout producerId producerEpoch now).1 := by
  have hfresh : ∀ (id₀ id e : Int) (m : BTreeMap Topition Int),
      ((s.coord.producers.insert id₀ ⟨(∅ : BTreeMap Int _).insert 0 ∅⟩)[id]?.bind
        fun pd => pd.sequences[e]?) = some m → s.sequences? id e = some m ∨ m = ∅ := by
    intro id₀ id e m hm
    rw [getElem?_insert_eq] at hm
    split at hm
    · rw [Option.bind_some, getElem?_insert_eq] at hm
      split at hm
      · exact .inr (Option.some.inj hm).symm
      · simp at hm
    · exact .inl hm
  unfold Slate.initProducer
  split
  next t =>
    split
    next txn _ => exact (h.abortOpen t txn).newEpoch t _ _ timeout now
    next hnone =>
      refine h.of_new rfl (fun t' e d hd => ?_) (hfresh _)
      simp only [CoordState.detail?, getElem?_insert_eq] at hd
      split at hd
      · rw [Option.bind_some, getElem?_insert_eq] at hd
        split at hd
        · exact .inr (Option.some.inj hd ▸ rfl)
        · simp at hd
      · exact .inl hd
  next =>
    split
    · exact h.of_new rfl (fun _ _ _ => .inl) (hfresh _)
    · exact h

theorem complete (h : Tidy s) (t : String) (e : Int) : Tidy (complete s t e) := by
  unfold Slate.complete
  split
  next => exact h
  next d _ =>
    split
    · have happlied : Tidy (applyOffsets s d.offsets) := h.of_coord rfl
      exact happlied.modifyState fun _ => rfl
    · exact h.modifyState fun _ => rfl

theorem foldl_complete (h : Tidy s) (prepared : List (String × Int)) :
    Tidy (prepared.foldl (fun s p => Slate.complete s p.1 p.2) s) := by
  induction prepared generalizing s with
  | nil => exact h
  | cons p prepared ih => exact ih (h.complete p.1 p.2)

theorem resolve (h : Tidy s) (t : String) (e : Int) (committed : Bool)
    (offsets : BTreeMap (Group × Topition) TxnCommitOffset) (prepared : List (String × Int)) :
    Tidy (TxnEnd.resolve s t e committed offsets prepared) := by
  have hown : ∀ s₁ : State, s₁.coord = s.coord →
      Tidy (s₁.modifyDetail t e ({ · with state := some (final committed) })) :=
    fun s₁ hcoord => (h.of_coord hcoord).modifyState fun _ => rfl
  unfold TxnEnd.resolve
  split
  · exact (hown (applyOffsets s offsets) rfl).foldl_complete _
  · exact (hown s rfl).foldl_complete _

theorem txnEnd (h : Tidy s) {t : String} {producerId producerEpoch : Int} {committed : Bool}
    (hs : txnEnd s t producerId producerEpoch committed = .ok s') : Tidy s' := by
  unfold Slate.txnEnd at hs
  split at hs
  next => cases hs
  next d _ =>
    have hprepared : Tidy (TxnEnd.prepare s t producerEpoch committed) :=
      h.modifyState fun d => by split <;> rfl
    have hmarked := hprepared.of_coord (marks_coord producerId producerEpoch committed
      (TxnEnd.prepare s t producerEpoch committed) 0 d.produces.keys)
    dsimp only at hs
    split at hs
    · cases hs
      exact hmarked
    · cases hs
      exact hmarked.resolve _ _ _ _ _

end Tidy

/-! ## Deletion -/

namespace DeleteTopic

variable {coord : CoordState} {name : Topic} {e : Int}

theorem detail?_forget {t : String} :
    (forget coord name).detail? t e = (coord.detail? t e).map fun d =>
      { d with
        produces := d.produces.filter fun tp _ => tp.topic ≠ name
        offsets := d.offsets.filter fun k _ => k.2.topic ≠ name } := by
  simp only [CoordState.detail?, forget, ExtTreeMap.getElem?_map]
  cases coord.transactions[t]? with
  | none => rfl
  | some txn => simp [ExtTreeMap.getElem?_map]

theorem sequences?_forget {id : Int} :
    ((forget coord name).producers[id]?.bind fun pd => pd.sequences[e]?) =
      (coord.producers[id]?.bind fun pd => pd.sequences[e]?).map fun m =>
        m.filter fun tp _ => tp.topic ≠ name := by
  simp only [forget, ExtTreeMap.getElem?_map]
  cases coord.producers[id]? with
  | none => rfl
  | some pd => simp [ExtTreeMap.getElem?_map]

theorem offsets_eq_nil [SlateDb] (s : State) (name : Topic) : offsets s name = [] := by
  have hnone : ((scan s.keys [0x63]).takeWhile fun e => e.1.head? = some 0x63) = [] := by
    cases hscan : scan s.keys [0x63] with
    | nil => rfl
    | cons e entries =>
      have hmem : e ∈ scan s.keys [0x63] := by simp [hscan]
      have hhead : e.1.head? ≠ some 0x63 := (of_mem_scan hmem).1 ▸ e.2.head_encode
      rw [takeWhile_cons, if_neg (by simpa using hhead)]
  rw [offsets, hnone]
  rfl

end DeleteTopic

theorem deleteTopic_eq [SlateDb] (hfind : findTopic s topic = some (name, metadata)) :
    ∃ keys : List Key, (∀ k ∈ keys, (∃ t p o, k = .batch t p o ∧ be 16 t = be 16 metadata.id) ∨
        ∃ p, k = .watermark metadata.id p) ∧
      (deleteTopic s topic).1 = { keys.foldl DeleteTopic.delete s with
        coord := { DeleteTopic.forget s.coord name with
          topics := s.coord.topics.erase name } } := by
  refine ⟨DeleteTopic.batches s metadata.id metadata.topic.numPartitions ++
    DeleteTopic.watermarks metadata.id metadata.topic.numPartitions, fun k hk => ?_, ?_⟩
  · rcases mem_append.1 hk with hk | hk
    · obtain ⟨p, -, hk⟩ := mem_flatMap.1 hk
      obtain ⟨bytes, hscan, hpre⟩ := (mem_scanPrefix (prefix_append _ _)).1 hk
      have hbytes : bytes = k.encode := (of_mem_scan hscan).1
      rw [hbytes] at hpre
      obtain ⟨t, p', o, rfl, ht⟩ := batch_of_prefix hpre
      exact .inl ⟨t, p', o, rfl, ht⟩
    · obtain ⟨p, -, rfl⟩ := List.mem_map.1 hk
      exact .inr ⟨p, rfl⟩
  · simp only [deleteTopic, hfind, DeleteTopic.offsets_eq_nil, append_nil, foldl_delete_coord]
    rfl

theorem Tidy.deleteTopic [SlateDb] (h : Tidy s) (topic : TopicId) :
    Tidy (deleteTopic s topic).1 := by
  cases hfind : findTopic s topic with
  | none => simpa only [Slate.deleteTopic, hfind] using h
  | some found =>
    obtain ⟨name, metadata⟩ := found
    obtain ⟨keys, -, heq⟩ := deleteTopic_eq hfind
    rw [heq]
    have hkept : ∀ tp : Topition, tp.topic ∉ s.coord.topics.erase name → tp.topic ≠ name →
        tp.topic ∉ s.coord.topics := fun tp htp hne hmem =>
      htp (mem_erase.2 ⟨fun hc => hne (Std.compare_eq_iff_eq.1 hc).symm, hmem⟩)
    refine ⟨fun {t e d tp} hd htp => ?_, fun {id e m tp} hm htp => ?_⟩
    · rw [CoordState.detail?] at hd
      obtain ⟨d₀, hd₀, rfl⟩ := Option.map_eq_some_iff.1 (DeleteTopic.detail?_forget.symm.trans hd)
      rw [TxnDetail.range?, getElem?_filter_key]
      by_cases hne : tp.topic = name
      · simp [hne]
      · have hrange : d₀.produces[tp]?.join = none := h.ranges hd₀ (hkept tp htp hne)
        simpa only [ne_eq, hne, not_false_eq_true, decide_true, if_true] using hrange
    · obtain ⟨m₀, hm₀, rfl⟩ := Option.map_eq_some_iff.1
        (DeleteTopic.sequences?_forget.symm.trans hm)
      rw [getElem?_filter_key]
      by_cases hne : tp.topic = name
      · simp [hne]
      · simpa only [ne_eq, hne, not_false_eq_true, decide_true, if_true] using
          h.sequences hm₀ (hkept tp htp hne)

variable {tp : Topition} {g : Group}

theorem range?_addPartitions {d : TxnDetail} {partitions : List Topition} :
    (addPartitions d partitions).range? tp = if tp ∈ partitions then none else d.range? tp := by
  rw [TxnDetail.range?, addPartitions, getElem?_foldl_insert]
  cases hlast : (partitions.filter (· = tp)).getLast? with
  | none =>
    rw [getLast?_eq_none_iff, filter_eq_nil_iff] at hlast
    rw [if_neg fun hmem => hlast tp hmem (decide_eq_true rfl)]
    rfl
  | some tp' =>
    obtain ⟨hmem, heq⟩ := List.mem_filter.1 (mem_of_getLast? hlast)
    rw [if_pos (of_decide_eq_true heq ▸ hmem)]
    rfl

theorem Tidy.after [SlateDb] (h : Tidy s) (a : Action) : Tidy (s.after a) := by
  cases a with
  | createTopic => exact h
  | deleteTopic topic => exact h.deleteTopic topic
  | deleteRecords tp offset =>
    simp only [State.after, Slate.deleteRecords]
    split
    · exact h
    · exact h.of_coord (by simp)
  | maintain batches watermarks => exact h.of_coord rfl
  | produce transactionId tp b =>
    simp only [State.after]
    split
    next hs => exact h.produce hs
    next => exact h
  | offsetCommit group tp value =>
    simp only [State.after, Slate.offsetCommit]
    split
    · exact h.of_coord rfl
    · exact h
  | deleteGroup group => exact h.of_coord (foldl_delete_coord _)
  | initProducer transactionId timeout producerId producerEpoch now =>
    exact h.initProducer transactionId timeout producerId producerEpoch now
  | txnAddPartitions t producerId producerEpoch partitions =>
    simp only [State.after, Slate.txnAddPartitions]
    split
    · exact h
    · exact h.modifyDetail fun d tp _ hd => by rw [range?_addPartitions, hd, ite_self]
  | txnOffsetCommit t producerId producerEpoch group offsets =>
    simp only [State.after, Slate.txnOffsetCommit]
    split
    · exact h
    · exact h.modifyState fun _ => rfl
  | txnEnd t producerId producerEpoch committed =>
    simp only [State.after]
    split
    next hs => exact h.txnEnd hs
    next => exact h

theorem Tidy.createTopic (h : Tidy s) {id : Nat} {topic : CreatableTopic}
    (hs : createTopic s id topic = .ok s') : Tidy s' := by
  unfold Slate.createTopic at hs
  split at hs
  · cases hs
  · cases hs
    exact ⟨fun hd htp => h.ranges hd fun hmem => htp (mem_insert.2 (.inr hmem)),
      fun hm htp => h.sequences hm fun hmem => htp (mem_insert.2 (.inr hmem))⟩

/-! ## Runs -/

/-- Topics have different ids. -/
def Distinct (s : State) : Prop :=
  ∀ (name name' : Topic) (metadata metadata' : TopicMetadata),
    s.coord.topics[name]? = some metadata → s.coord.topics[name']? = some metadata' →
    metadata.id = metadata'.id → name = name'

/-- What the UUIDs are good for. -/
structure Sound (w : World) : Prop where
  lt : ∀ id ∈ w.issued, id < 2 ^ 128
  topics : ∀ (name : Topic) (metadata : TopicMetadata),
    w.state.coord.topics[name]? = some metadata → metadata.id ∈ w.issued
  distinct : Distinct w.state
  batches : ∀ t p o, (t, p, o) ∈ w.state.batches → t ∈ w.issued
  watermarks : ∀ t p, (t, p) ∈ w.state.watermarks → t ∈ w.issued
  tidy : Tidy w.state

namespace Sound

variable {w w' : World}

theorem init : Sound {} where
  lt := by simp
  topics name metadata h := by simp at h
  distinct name name' metadata metadata' h := by simp at h
  batches t p o h := by simp at h
  watermarks t p h := by simp at h
  tidy := ⟨fun hd _ => by simp [CoordState.detail?] at hd,
    fun hm _ => by simp [State.sequences?] at hm⟩

theorem of_confined (h : Sound w) (hs : Confined w.state s) (htidy : Tidy s) :
    Sound { w with state := s } where
  lt := h.lt
  topics name metadata hm := h.topics name metadata (hs.topics name metadata hm)
  distinct name name' metadata metadata' hm hm' :=
    h.distinct name name' metadata metadata' (hs.topics name metadata hm)
      (hs.topics name' metadata' hm')
  batches t p o hk := by
    rcases hs.batches t p o hk with hk | ⟨name, metadata, hm, rfl⟩
    · exact h.batches t p o hk
    · exact h.topics name metadata hm
  watermarks t p hk := by
    rcases hs.watermarks t p hk with hk | ⟨name, metadata, hm, rfl⟩
    · exact h.watermarks t p hk
    · exact h.topics name metadata hm
  tidy := htidy

theorem createTopic (h : Sound w) {id : Nat} {topic : CreatableTopic} (hid : id < 2 ^ 128)
    (hnew : id ∉ w.issued) (hs : s = w.state ∨ createTopic w.state id topic = .ok s) :
    Sound { state := s, issued := id :: w.issued } := by
  rcases hs with rfl | hs
  · exact ⟨by simpa using ⟨hid, h.lt⟩, fun n m hm => .tail _ (h.topics n m hm), h.distinct,
      fun t p o hk => .tail _ (h.batches t p o hk), fun t p hk => .tail _ (h.watermarks t p hk),
      h.tidy⟩
  · have htidy := h.tidy.createTopic hs
    unfold Slate.createTopic at hs
    split at hs
    · cases hs
    · cases hs
      have hold : ∀ (n : Topic) (m : TopicMetadata),
          (w.state.coord.topics.insert topic.name ⟨id, topic⟩)[n]? = some m →
          (n = topic.name ∧ m.id = id) ∨ w.state.coord.topics[n]? = some m := by
        intro n m hm
        rw [getElem?_insert_eq] at hm
        split at hm
        next hn => exact .inl ⟨hn.symm, by rw [← Option.some.inj hm]⟩
        next => exact .inr hm
      refine ⟨by simpa using ⟨hid, h.lt⟩, fun n m hm => ?_, fun n n' m m' hm hm' heq => ?_,
        fun t p o hk => .tail _ (h.batches t p o hk), fun t p hk => .tail _ (h.watermarks t p hk),
        htidy⟩
      · rcases hold n m hm with ⟨-, hm⟩ | hm
        · exact hm ▸ mem_cons_self
        · exact .tail _ (h.topics n m hm)
      · rcases hold n m hm with ⟨hn, hmid⟩ | hm
        · rcases hold n' m' hm' with ⟨hn', -⟩ | hm'
          · rw [hn, hn']
          · exact absurd (hmid ▸ heq ▸ h.topics n' m' hm') hnew
        · rcases hold n' m' hm' with ⟨-, hmid⟩ | hm'
          · exact absurd (hmid ▸ heq ▸ h.topics n m hm) hnew
          · exact h.distinct n n' m m' hm hm' heq

theorem step [SlateDb] (h : Sound w) {a : Action} (hs : step w a = some w') : Sound w' := by
  have hafter : ∀ a : Action, (∀ batches watermarks, a ≠ .maintain batches watermarks) →
      Sound { w with state := w.state.after a } := fun a hne =>
    h.of_confined (.after a fun batches watermarks ha => absurd ha (hne batches watermarks))
      (h.tidy.after a)
  cases a with
  | createTopic id topic =>
    simp only [Slate.step] at hs
    split at hs
    next hid =>
      cases hs
      cases hs : Slate.createTopic w.state id topic with
      | ok s => exact h.createTopic hid.1 hid.2 (.inr hs)
      | error e => exact h.createTopic hid.1 hid.2 (.inl rfl : _ ∨ Slate.createTopic _ id topic = _)
    next => cases hs
  | maintain batches watermarks =>
    simp only [Slate.step] at hs
    split at hs
    next hkeys =>
      cases hs
      simp only [List.all_eq_true, decide_eq_true_eq, ExtTreeMap.mem_keys] at hkeys
      refine h.of_confined (.after _ fun batches' watermarks' heq => ?_) (h.tidy.after _)
      cases heq
      exact hkeys
    next => cases hs
  | _ =>
    cases hs
    exact hafter _ (by simp)

theorem of_reach [SlateDb] (h : system.Reach (fun _ _ => True) {} w) : Sound w :=
  h.invariant (I := Sound) init fun _ hi _ hs => hi.step hs

end Sound

/-! ## The rest of the store -/

/-- What is not of the topic `name` is as it was. -/
structure Spares (name : Topic) (s s' : State) : Prop where
  topics : ∀ name' : Topic, name' ≠ name → s'.coord.topics[name']? = s.coord.topics[name']?
  batches : ∀ (name' : Topic) (metadata : TopicMetadata), name' ≠ name →
    s.coord.topics[name']? = some metadata →
    ∀ p o : Int, s'.batches[(metadata.id, p, o)]? = s.batches[(metadata.id, p, o)]?
  watermarks : ∀ (name' : Topic) (metadata : TopicMetadata), name' ≠ name →
    s.coord.topics[name']? = some metadata →
    ∀ p : Int, s'.watermarks[(metadata.id, p)]? = s.watermarks[(metadata.id, p)]?
  commits : ∀ (g : Group) (tp : Topition), tp.topic ≠ name →
    s'.commits[(g, tp)]? = s.commits[(g, tp)]?
  groups : s'.groups = s.groups
  sequences : ∀ (id e : Int) (tp : Topition), tp.topic ≠ name →
    (s'.sequences? id e).map (·[tp]?) = (s.sequences? id e).map (·[tp]?)
  producers : ∀ t, s'.coord.producer? t = s.coord.producer? t
  states : ∀ t e,
    (s'.coord.detail? t e).map (fun d => (d.transactionTimeoutMs, d.startedAt, d.state)) =
      (s.coord.detail? t e).map fun d => (d.transactionTimeoutMs, d.startedAt, d.state)
  produces : ∀ (t : String) (e : Int) (tp : Topition), tp.topic ≠ name →
    (s'.coord.detail? t e).map (·.produces[tp]?) = (s.coord.detail? t e).map (·.produces[tp]?)
  offsets : ∀ (t : String) (e : Int) (g : Group) (tp : Topition), tp.topic ≠ name →
    (s'.coord.detail? t e).map (·.offsets[(g, tp)]?) =
      (s.coord.detail? t e).map (·.offsets[(g, tp)]?)

theorem findTopic_eq_some (h : findTopic s topic = some (name, metadata)) :
    s.coord.topics[name]? = some metadata := by
  cases topic with
  | name name' =>
    obtain ⟨metadata', hm, heq⟩ := Option.map_eq_some_iff.1 h
    cases heq
    exact hm
  | id id => exact mem_toList_iff_getElem?_eq_some.1 (mem_of_find?_eq_some h)

variable {w w₁ w₂ w₃ : World} {topic : TopicId} {name : Topic} {metadata : TopicMetadata} {id : Nat}
  {created : CreatableTopic}

theorem Sound.spares_deleteTopic [SlateDb] (h : Sound w)
    (hfind : findTopic w.state topic = some (name, metadata)) :
    Spares name w.state (deleteTopic w.state topic).1 := by
  have hname := findTopic_eq_some hfind
  obtain ⟨keys, hkeys, heq⟩ := deleteTopic_eq hfind
  rw [heq]
  -- the keys of a topic begin with its id, and sixteen bytes tell the ids apart
  have hother : ∀ (name' : Topic) (metadata' : TopicMetadata), name' ≠ name →
      w.state.coord.topics[name']? = some metadata' → be 16 metadata'.id ≠ be 16 metadata.id := by
    intro name' metadata' hne hm hbe
    have hid := congrArg ofBe hbe
    have hlt : metadata.id < 256 ^ 16 := h.lt _ (h.topics _ _ hname)
    have hlt' : metadata'.id < 256 ^ 16 := h.lt _ (h.topics _ _ hm)
    rw [ofBe_be, ofBe_be, Nat.mod_eq_of_lt hlt, Nat.mod_eq_of_lt hlt'] at hid
    exact hne (h.distinct _ _ _ _ hm hname hid)
  refine ⟨fun name' hne => ?_, fun name' metadata' hne hm p o => ?_,
    fun name' metadata' hne hm p => ?_,
    fun g tp _ => ?_, ?_, fun id e tp hne => ?_, fun t => ?_, fun t e => ?_, fun t e tp hne => ?_,
    fun t e g tp hne => ?_⟩
  · rw [getElem?_erase_eq, if_neg (Ne.symm hne)]
  · rw [foldl_delete_batches, if_neg fun hk => ?_]
    rcases hkeys _ hk with ⟨t, p', o', heq, ht⟩ | ⟨p', heq⟩
    · cases heq
      exact hother name' metadata' hne hm ht
    · cases heq
  · rw [foldl_delete_watermarks, if_neg fun hk => ?_]
    rcases hkeys _ hk with ⟨t, p', o', heq, ht⟩ | ⟨p', heq⟩
    · cases heq
    · refine hother name' metadata' hne hm ?_
      rw [(Key.watermark.inj heq).1]
  · rw [foldl_delete_commits, if_neg fun hk => ?_]
    rcases hkeys _ hk with ⟨t, p', o', heq, -⟩ | ⟨p', heq⟩ <;> cases heq
  · refine foldl_delete_groups keys fun g hk => ?_
    rcases hkeys _ hk with ⟨t, p', o', heq, -⟩ | ⟨p', heq⟩ <;> cases heq
  · rw [State.sequences?, DeleteTopic.sequences?_forget, Option.map_map]
    refine congrArg (Option.map · _) (funext fun m => ?_)
    rw [Function.comp_apply, getElem?_filter_key, if_pos (decide_eq_true hne)]
  · simp only [CoordState.producer?, DeleteTopic.forget, ExtTreeMap.getElem?_map, Option.map_map]
    rfl
  · refine (congrArg _ DeleteTopic.detail?_forget).trans ?_
    rw [Option.map_map]
    rfl
  · refine (congrArg _ DeleteTopic.detail?_forget).trans ?_
    rw [Option.map_map]
    refine congrArg (Option.map · _) (funext fun d => ?_)
    rw [Function.comp_apply, getElem?_filter_key, if_pos (decide_eq_true hne)]
  · refine (congrArg _ DeleteTopic.detail?_forget).trans ?_
    rw [Option.map_map]
    refine congrArg (Option.map · _) (funext fun d => ?_)
    rw [Function.comp_apply, getElem?_filter_key (p := fun k : Group × Topition =>
      decide (k.2.topic ≠ name)), if_pos (decide_eq_true hne)]

theorem commits_deleteTopic [SlateDb] (hfind : findTopic s topic = some (name, metadata))
    (g : Group)
    (tp : Topition) : (deleteTopic s topic).1.commits[(g, tp)]? = s.commits[(g, tp)]? := by
  obtain ⟨keys, hkeys, heq⟩ := deleteTopic_eq hfind
  rw [heq, foldl_delete_commits, if_neg fun hk => ?_]
  rcases hkeys _ hk with ⟨t, p', o', heq, -⟩ | ⟨p', heq⟩ <;> cases heq

theorem spares_createTopic (hs : createTopic s id created = .ok s') :
    Spares created.name s s' := by
  unfold createTopic at hs
  split at hs
  · cases hs
  · cases hs
    refine ⟨fun name' hne => ?_, fun _ _ _ _ _ _ => rfl, fun _ _ _ _ _ => rfl,
      fun _ _ _ => rfl, rfl,
      fun _ _ _ _ => rfl, fun _ => rfl, fun _ _ => rfl, fun _ _ _ _ => rfl, fun _ _ _ _ _ => rfl⟩
    rw [getElem?_insert_eq, if_neg (Ne.symm hne)]

/-! ## Committed offsets -/

theorem of_mem_offsets [SlateDb] (h : k ∈ s.scanPrefix (offsetCommitKeyPrefix g)
    (offsetCommitKeyPrefix g)) : ∃ tp, k = .offsetCommit g tp ∧ (g, tp) ∈ s.commits := by
  obtain ⟨bytes, hscan, hpre⟩ := (mem_scanPrefix (prefix_refl _)).1 h
  obtain ⟨hbytes, hkey, -⟩ := of_mem_scan hscan
  have hpre : offsetCommitKeyPrefix g <+: k.encode := by rw [← hbytes]; exact hpre
  obtain ⟨tp, rfl⟩ := offsetCommit_of_prefix hpre
  exact ⟨tp, rfl, by simpa [State.keys] using hkey⟩

theorem mem_committedOffsetTopitions [SlateDb] :
    tp ∈ committedOffsetTopitions s g ↔
      .offsetCommit g tp ∈ s.scanPrefix (offsetCommitKeyPrefix g) (offsetCommitKeyPrefix g) := by
  have hfold : ∀ (keys : List Key) (m : BTreeMap Topition Int),
      (∀ k ∈ keys, ∃ tp, k = .offsetCommit g tp ∧ (g, tp) ∈ s.commits) →
      (tp ∈ keys.foldl (listOffset s) m ↔ tp ∈ m ∨ .offsetCommit g tp ∈ keys) := by
    intro keys
    induction keys with
    | nil => simp
    | cons k keys ih =>
      intro m hkeys
      obtain ⟨tp', rfl, hmem⟩ := hkeys k mem_cons_self
      obtain ⟨value, hvalue⟩ := mem_iff_exists.1 hmem
      rw [foldl_cons, ih _ fun k hk => hkeys k (mem_cons_of_mem _ hk)]
      simp only [listOffset, hvalue, mem_insert, mem_cons, Key.offsetCommit.injEq, true_and,
        Std.compare_eq_iff_eq]
      rw [eq_comm (a := tp), or_assoc, or_left_comm]
  rw [committedOffsetTopitions, hfold _ ∅ fun k hk => of_mem_offsets hk]
  simp

/-- A group's committed offsets are listed for the topics that it has some for. -/
theorem exists_mem_committedOffsetTopitions [SlateDb] (h : (g, tp) ∈ s.commits) :
    ∃ tp' ∈ committedOffsetTopitions s g, tp'.topic = tp.topic := by
  have hkey : Key.offsetCommit g tp ∈ s.keys := by simpa [State.keys] using h
  have hpre : offsetCommitKeyPrefix g <+: (Key.offsetCommit g tp).encode := by
    rw [Key.encode, append_assoc]
    exact prefix_append _ _
  obtain ⟨k', hk'⟩ := exists_mem_scan hkey (Scan.isLE_of_prefix hpre)
  have hmem := (mem_scanPrefix (prefix_refl _)).2 ⟨_, hk', hpre⟩
  obtain ⟨tp', rfl, -⟩ := of_mem_offsets hmem
  exact ⟨tp', mem_committedOffsetTopitions.2 hmem, (topic_of_encode_eq (of_mem_scan hk').1).2.symm⟩

/-! ## A new topic -/

/-- Nothing is known of the topic. -/
structure Fresh [SlateDb] (s : State) (metadata : TopicMetadata) : Prop where
  stage : ∀ p : Int, 0 ≤ p → p < metadata.topic.numPartitions →
    offsetStage s ⟨metadata.topic.name, p⟩ = .ok ⟨0, 0, 0⟩
  batches : ∀ p o : Int, s.batches[(metadata.id, p, o)]? = none
  offsetFetch : ∀ (g : Group) (p : Int), offsetFetch s g ⟨metadata.topic.name, p⟩ = -1
  topitions : ∀ (g : Group) (p : Int), ⟨metadata.topic.name, p⟩ ∉ committedOffsetTopitions s g
  first : ∀ (transactionId : Option String) (p : Int) (b : Batch), 0 ≤ p →
    p < metadata.topic.numPartitions → b.isIdempotent → b.baseSequence = 0 →
    (s.coord.producers[b.producerId]?.bind fun pd => BTreeMap.lastKey? pd.sequences) =
      some b.producerEpoch →
    ∃ s', produce s transactionId ⟨metadata.topic.name, p⟩ b = .ok (s', 0)

theorem Tidy.openStarts_eq_nil (h : Tidy s) (htp : tp.topic ∉ s.coord.topics) :
    openStarts s tp = [] := by
  refine flatMap_eq_nil_iff.2 fun txn htxn => filterMap_eq_nil_iff.2 fun d hd => ?_
  obtain ⟨t, ht⟩ := mem_values.1 htxn
  obtain ⟨e, he⟩ := mem_values.1 (List.mem_filter.1 hd).1
  have hdetail : s.coord.detail? t e = some d := by rw [CoordState.detail?, ht]; exact he
  rw [h.ranges hdetail htp, Option.map_none]

theorem exists_sequence_eq_ok {b : Batch}
    (hepoch : (s.coord.producers[b.producerId]?.bind fun pd => BTreeMap.lastKey? pd.sequences) =
      some b.producerEpoch) (hbase : b.baseSequence = 0)
    (hnone : ∀ m : BTreeMap Topition Int, s.sequences? b.producerId b.producerEpoch = some m →
      m[tp]? = none) : ∃ s', sequence s tp b = .ok s' := by
  obtain ⟨pd, hpd, hlast⟩ := Option.bind_eq_some_iff.1 hepoch
  have hzero : (pd.sequences[b.producerEpoch]?.bind (·[tp]?)).getD 0 = b.baseSequence := by
    cases hm : pd.sequences[b.producerEpoch]? with
    | none => exact hbase.symm
    | some m =>
      rw [Option.bind_some, hnone m (by rw [State.sequences?, hpd]; exact hm)]
      exact hbase.symm
  simp only [sequence, hpd, hlast, hzero, idempotentSequenceCheck, if_true]
  exact ⟨_, rfl⟩

theorem fresh_iff [SlateDb] (h : Sound w) (hid : id ∉ w.issued)
    (hgone : created.name ∉ w.state.coord.topics)
    (hs : createTopic w.state id created = .ok s') :
    Fresh s' ⟨id, created⟩ ↔ ∀ (g : Group) (p : Int), (g, ⟨created.name, p⟩) ∉ w.state.commits := by
  rw [createTopic, if_neg hgone] at hs
  cases hs
  have hpartition : ∀ p : Int, 0 ≤ p → p < created.numPartitions →
      State.partition? { w.state with coord := { w.state.coord with
        topics := w.state.coord.topics.insert created.name ⟨id, created⟩ } } ⟨created.name, p⟩ =
        some ⟨id, created⟩ := fun p hp hlt =>
    partition?_eq_some.2 ⟨by simp, hp, hlt⟩
  have hwatermark : ∀ p : Int, w.state.watermarks[(id, p)]? = none := fun p => by
    cases hw : w.state.watermarks[(id, p)]? with
    | none => rfl
    | some watermark => exact absurd (h.watermarks id p (mem_iff_exists.2 ⟨_, hw⟩)) hid
  constructor
  · intro hfresh g p hmem
    obtain ⟨⟨_, p'⟩, htp, rfl⟩ := exists_mem_committedOffsetTopitions hmem
    exact hfresh.topitions g p' htp
  · intro hnone
    refine ⟨fun p hp hlt => ?_, fun p o => ?_, fun g p => ?_, fun g p hmem => ?_,
      fun transactionId p b hp hlt hidempotent hbase hepoch => ?_⟩
    · have hopen : openStarts w.state ⟨created.name, p⟩ = [] := h.tidy.openStarts_eq_nil hgone
      simp only [offsetStage, hpartition p hp hlt, State.high, State.watermark, hwatermark p]
      exact congrArg (fun starts : List Int =>
        (.ok ⟨0, starts.foldl min 0, 0⟩ : Except ErrorCode OffsetStage)) hopen
    · cases hbatch : w.state.batches[(id, p, o)]? with
      | none => rfl
      | some b => exact absurd (h.batches id p o (mem_iff_exists.2 ⟨b, hbatch⟩)) hid
    · have hcommit : w.state.commits[(g, (⟨created.name, p⟩ : Topition))]? = none := by
        simpa using hnone g p
      simp [offsetFetch, hcommit]
    · obtain ⟨tp, heq, hcommit⟩ := of_mem_offsets (mem_committedOffsetTopitions.1 hmem)
      cases heq
      exact hnone g p hcommit
    · obtain ⟨s₁, hs₁⟩ := exists_sequence_eq_ok (s := { w.state with coord := { w.state.coord with
        topics := w.state.coord.topics.insert created.name ⟨id, created⟩ } }) hepoch hbase
        fun m hm => (h.tidy.sequences hm hgone : m[(⟨created.name, p⟩ : Topition)]? = none)
      have hhigh : s₁.high id p = 0 := by
        obtain ⟨producers, -, rfl⟩ := Confined.of_sequence hs₁
        rw [State.high, State.watermark, hwatermark p]
        rfl
      refine ⟨place s₁ transactionId ⟨id, created⟩ ⟨created.name, p⟩ b, ?_⟩
      rw [produce, hpartition p hp hlt, if_pos hidempotent, hs₁, ← hhigh]
      rfl

/-- A topic that was deleted, created again after any operations, starts fresh and the other
topics are spared exactly if no committed offset bears its name.  Its new id is one that no key
holds, and what is keyed by the name is forgotten, apart from the committed offsets. -/
theorem recreated_topic_fresh_iff [SlateDb] (hw : system.Reach (fun _ _ => True) {} w)
    (hfind : findTopic w.state topic = some (name, metadata))
    (hdelete : system.step w (.deleteTopic topic) = some w₁)
    (hbetween : system.Reach (fun _ _ => True) w₁ w₂) (hgone : name ∉ w₂.state.coord.topics)
    (hname : created.name = name) (hcreate : system.step w₂ (.createTopic id created) = some w₃) :
    (∀ (g : Group) (tp : Topition), w₁.state.commits[(g, tp)]? = w.state.commits[(g, tp)]?) ∧
      (Spares name w.state w₁.state ∧ Spares name w₂.state w₃.state ∧
          Fresh w₃.state ⟨id, created⟩ ↔
        ∀ (g : Group) (p : Int), (g, ⟨name, p⟩) ∉ w₂.state.commits) := by
  subst hname
  have hsound₂ := Sound.of_reach ((hw.tail trivial hdelete).trans hbetween)
  cases hdelete
  simp only [system, step] at hcreate
  split at hcreate
  next hid =>
    have hs : createTopic w₂.state id created = .ok { w₂.state with
        coord := { w₂.state.coord with
          topics := w₂.state.coord.topics.insert created.name ⟨id, created⟩ } } := by
      rw [createTopic, if_neg hgone]
    rw [hs] at hcreate
    cases hcreate
    refine ⟨commits_deleteTopic hfind, ?_⟩
    rw [← fresh_iff hsound₂ hid.2 hgone hs]
    exact ⟨fun h => h.2.2,
      fun h => ⟨(Sound.of_reach hw).spares_deleteTopic hfind, spares_createTopic hs, h⟩⟩
  next => cases hcreate

open Ordered in
/-- Here the topic has no committed offset. -/
theorem recreated_topic_fresh : ∃ w w₁ w₂ : World, system.Reach (fun _ _ => True) {} w ∧
    system.step w (.deleteTopic (.name "t")) = some w₁ ∧
    system.step w₁ (.createTopic 2 ⟨"t", 1, 1, none⟩) = some w₂ ∧
    Fresh w₂.state ⟨2, "t", 1, 1, none⟩ := by
  have hrun : (system.trace (fun _ _ => True) {} [.createTopic 1 ⟨"t", 1, 1, none⟩,
      .produce none ⟨"t", 0⟩ ⟨0, 0, 0, -1, -1, -1, .client 10⟩]).any (fun w =>
        (findTopic w.state (.name "t") = some ("t", ⟨1, "t", 1, 1, none⟩) : Bool) &&
        (system.step w (.deleteTopic (.name "t"))).any fun w₁ =>
          decide ("t" ∉ w₁.state.coord.topics) && w₁.state.commits.isEmpty &&
          (system.step w₁ (.createTopic 2 ⟨"t", 1, 1, none⟩)).isSome) = true := by
    decide +kernel
  obtain ⟨w, hw, hrun⟩ := reach_of_any hrun
  simp only [Bool.and_eq_true, Option.any_eq_true, decide_eq_true_eq,
    Option.isSome_iff_exists] at hrun
  obtain ⟨hfind, w₁, hdelete, ⟨hgone, hempty⟩, w₂, hcreate⟩ := hrun
  have hnone : ∀ (g : Group) (p : Int), (g, ⟨"t", p⟩) ∉ w₁.state.commits :=
    fun g p => by rw [ExtTreeMap.isEmpty_iff.1 hempty]; exact not_mem_empty
  have hfresh := recreated_topic_fresh_iff hw hfind hdelete .refl hgone rfl hcreate
  exact ⟨w, w₁, w₂, hw, hdelete, hcreate, (hfresh.2.2 hnone).2.2⟩

open Ordered in
/-- A group's committed offset is there again with the topic. -/
theorem deleted_topic_keeps_offsets : ∃ w w₁ w₂ : World, system.Reach (fun _ _ => True) {} w ∧
    system.step w (.deleteTopic (.name "t")) = some w₁ ∧
    system.step w₁ (.createTopic 2 ⟨"t", 1, 1, none⟩) = some w₂ ∧
    offsetFetch w₂.state "g" ⟨"t", 0⟩ = 3 ∧
    (committedOffsetTopitions w₂.state "g")[(⟨"t", 0⟩ : Topition)]? = some 3 := by
  have hrun : (system.trace (fun _ _ => True) {} [.createTopic 1 ⟨"t", 1, 1, none⟩,
      .offsetCommit "g" ⟨"t", 0⟩ ⟨3, none, none⟩]).any (fun w =>
        (system.step w (.deleteTopic (.name "t"))).any fun w₁ =>
          (system.step w₁ (.createTopic 2 ⟨"t", 1, 1, none⟩)).any fun w₂ =>
            decide (offsetFetch w₂.state "g" ⟨"t", 0⟩ = 3) &&
            decide ((committedOffsetTopitions w₂.state "g")[(⟨"t", 0⟩ : Topition)]? = some 3)) =
      true := by
    decide +kernel
  obtain ⟨w, hw, hrun⟩ := reach_of_any hrun
  simp only [Bool.and_eq_true, Option.any_eq_true, decide_eq_true_eq] at hrun
  obtain ⟨w₁, hdelete, w₂, hcreate, hfetch, hlisted⟩ := hrun
  exact ⟨w, w₁, w₂, hw, hdelete, hcreate, hfetch, hlisted⟩

end Tansu.Slate
