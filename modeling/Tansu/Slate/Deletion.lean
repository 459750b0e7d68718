import Tansu.Lib.Lists
import Tansu.Lib.Scan
import Tansu.Slate.Runs

/-!
# Topic deletion

What `delete_topic` finds by its scans.  A key begins with the length of its first
string, which is one, and not with a letter: the scan for committed offsets, which starts
and stops by the letter `c`, finds none of them.  All else that is kept for a topic is
found or belongs to a UUID that is not used again.
-/

namespace Tansu.Slate

open Std Tansu.Lib List BTreeMap ExtTreeMap
open SlateDb (scan of_mem_scan pairwise_scan)
open Tansu.Nvme (Topition Topic Group Batch CoordState TxnDetail TxnCommitOffset TxnProduceOffset
  TopicId TopicMetadata CreatableTopic Txn ProducerDetail)

variable {s s' : State} {k : Key} {group : Group} {tp : Topition}

/-! ## Keys -/

theorem Postcard.str_append_inj {a b : String} {rest rest' : Bytes}
    (h : Postcard.str a ++ rest = Postcard.str b ++ rest') : a = b ∧ rest = rest' := by
  simp only [Postcard.str, append_assoc] at h
  obtain ⟨hlength, h⟩ := uvarint_append_inj h
  obtain ⟨hbytes, hrest⟩ := append_inj h hlength
  exact ⟨String.toByteArray_inj.1 (ByteArray.ext (Array.toList_inj.1 hbytes)), hrest⟩

/-- No key begins with a letter `c`. -/
theorem Key.head_encode (k : Key) : k.encode.head? ≠ some 0x63 := by
  cases k with
  | batch => simp [Key.encode, batchKeyPrefix, Postcard.char]
  | watermark => simp [Key.encode, Postcard.char]
  | offsetCommit => simp [Key.encode, offsetCommitKeyPrefix, Postcard.char]
  | group => simp [Key.encode, Postcard.char]
  | brokers | producers | topics | transactions => decide

theorem batch_of_prefix {topic : Nat} {partition : Int}
    (h : batchKeyPrefix topic partition <+: k.encode) :
    ∃ topic' partition' offset, k = .batch topic' partition' offset ∧
      be 16 topic' = be 16 topic := by
  obtain ⟨rest, h⟩ := h
  cases k with
  | batch topic' partition' offset =>
    refine ⟨topic', partition', offset, rfl, ?_⟩
    simp only [Key.encode, batchKeyPrefix, Postcard.char, Postcard.uuid, cons_append,
      nil_append, List.cons.injEq, true_and, append_assoc] at h
    exact (append_inj h (by simp)).1.symm
  | watermark => simp [Key.encode, batchKeyPrefix, Postcard.char] at h
  | offsetCommit => simp [Key.encode, offsetCommitKeyPrefix, batchKeyPrefix, Postcard.char] at h
  | group => simp [Key.encode, batchKeyPrefix, Postcard.char] at h
  | brokers | producers | topics | transactions =>
    have hhead := congrArg List.head? h
    simp only [batchKeyPrefix, Postcard.char, cons_append, head?_cons] at hhead
    exact absurd hhead (by decide)

theorem offsetCommit_of_prefix (h : offsetCommitKeyPrefix group <+: k.encode) :
    ∃ tp, k = .offsetCommit group tp := by
  obtain ⟨rest, h⟩ := h
  cases k with
  | offsetCommit group' tp =>
    simp only [Key.encode, offsetCommitKeyPrefix, Postcard.char, cons_append, nil_append,
      List.cons.injEq, true_and, append_assoc] at h
    obtain ⟨rfl, -⟩ := Postcard.str_append_inj h
    exact ⟨tp, rfl⟩
  | batch => simp [Key.encode, offsetCommitKeyPrefix, batchKeyPrefix, Postcard.char] at h
  | watermark => simp [Key.encode, offsetCommitKeyPrefix, Postcard.char] at h
  | group => simp [Key.encode, offsetCommitKeyPrefix, Postcard.char] at h
  | brokers | producers | topics | transactions =>
    have hhead := congrArg List.head? h
    simp only [offsetCommitKeyPrefix, Postcard.char, cons_append, head?_cons] at hhead
    exact absurd hhead (by decide)

/-- Keys of committed offsets that are written the same are for the same topic. -/
theorem topic_of_encode_eq {group' : Group} {tp' : Topition}
    (h : (Key.offsetCommit group tp).encode = (Key.offsetCommit group' tp').encode) :
    group = group' ∧ tp.topic = tp'.topic := by
  simp only [Key.encode, offsetCommitKeyPrefix, Postcard.char, cons_append, nil_append,
    List.cons.injEq, true_and, append_assoc] at h
  obtain ⟨hgroup, h⟩ := Postcard.str_append_inj h
  exact ⟨hgroup, (Postcard.str_append_inj h).1⟩

/-! ## Scans -/

variable {start : Bytes}

theorem mem_scanPrefix [SlateDb] {pre : Bytes} (hpre : pre <+: start) :
    k ∈ s.scanPrefix start pre ↔ ∃ bytes, (bytes, k) ∈ scan s.keys start ∧ pre <+: bytes := by
  have hwhile := Scan.takeWhile_prefix Prod.fst hpre (pairwise_scan s.keys start)
    fun e he => (of_mem_scan he).2.2
  rw [State.scanPrefix, hwhile, List.mem_map]
  constructor
  · rintro ⟨e, he, rfl⟩
    obtain ⟨he, hprefix⟩ := List.mem_filter.1 he
    exact ⟨e.1, he, isPrefixOf_iff_prefix.1 hprefix⟩
  · rintro ⟨bytes, he, hprefix⟩
    exact ⟨(bytes, k), List.mem_filter.2 ⟨he, isPrefixOf_iff_prefix.2 hprefix⟩, rfl⟩

/-! ## Deleting keys -/

section

variable (keys : List Key) {t : Nat} {p : Int} {α : Type}

@[simp] theorem foldl_delete_coord : (keys.foldl DeleteTopic.delete s).coord = s.coord := by
  induction keys generalizing s with
  | nil => rfl
  | cons k keys ih =>
    rw [foldl_cons, ih]
    cases k <;> rfl

theorem foldl_delete {f : State → Option α} {k : Key}
    (hf : ∀ s k', f (DeleteTopic.delete s k') = if k' = k then none else f s) :
    f (keys.foldl DeleteTopic.delete s) = if k ∈ keys then none else f s := by
  induction keys generalizing s with
  | nil => rfl
  | cons k' keys ih =>
    rw [foldl_cons, ih, hf]
    by_cases hmem : k ∈ keys
    · simp [hmem]
    · simp [hmem, eq_comm]

theorem foldl_delete_batches {o : Int} :
    (keys.foldl DeleteTopic.delete s).batches[(t, p, o)]? =
      if .batch t p o ∈ keys then none else s.batches[(t, p, o)]? :=
  foldl_delete keys (f := fun s => s.batches[(t, p, o)]?) fun s k => by
    cases k <;> simp [DeleteTopic.delete, getElem?_erase_eq]

theorem foldl_delete_watermarks :
    (keys.foldl DeleteTopic.delete s).watermarks[(t, p)]? =
      if .watermark t p ∈ keys then none else s.watermarks[(t, p)]? :=
  foldl_delete keys (f := fun s => s.watermarks[(t, p)]?) fun s k => by
    cases k <;> simp [DeleteTopic.delete, getElem?_erase_eq]

theorem foldl_delete_commits {g : Group} {tp : Topition} :
    (keys.foldl DeleteTopic.delete s).commits[(g, tp)]? =
      if .offsetCommit g tp ∈ keys then none else s.commits[(g, tp)]? :=
  foldl_delete keys (f := fun s => s.commits[(g, tp)]?) fun s k => by
    cases k <;> simp [DeleteTopic.delete, getElem?_erase_eq]

theorem foldl_delete_groups (h : ∀ g, Key.group g ∉ keys) :
    (keys.foldl DeleteTopic.delete s).groups = s.groups := by
  induction keys generalizing s with
  | nil => rfl
  | cons k keys ih =>
    rw [foldl_cons, ih fun g hg => h g (mem_cons_of_mem k hg)]
    cases k with
    | group g => exact absurd mem_cons_self (h g)
    | _ => rfl

end

/-! ## Where batches and watermarks are -/

/-- Batches and watermarks are added for topics there are, and no topic is. -/
structure Confined (s s' : State) : Prop where
  topics : ∀ (name : Topic) (metadata : TopicMetadata), s'.coord.topics[name]? = some metadata →
    s.coord.topics[name]? = some metadata
  batches : ∀ t p o, (t, p, o) ∈ s'.batches → (t, p, o) ∈ s.batches ∨
    ∃ (name : Topic) (metadata : TopicMetadata), s.coord.topics[name]? = some metadata ∧
      metadata.id = t
  watermarks : ∀ t p, (t, p) ∈ s'.watermarks → (t, p) ∈ s.watermarks ∨
    ∃ (name : Topic) (metadata : TopicMetadata), s.coord.topics[name]? = some metadata ∧
      metadata.id = t

namespace Confined

theorem refl (s : State) : Confined s s := ⟨fun _ _ => id, fun _ _ _ => .inl, fun _ _ => .inl⟩

theorem of_eq (htopics : s'.coord.topics = s.coord.topics) (hbatches : s'.batches = s.batches)
    (hwatermarks : s'.watermarks = s.watermarks) : Confined s s' :=
  ⟨fun _ _ => htopics ▸ id, fun _ _ _ h => .inl (hbatches ▸ h), fun _ _ h => .inl (hwatermarks ▸ h)⟩

theorem trans {s'' : State} (h : Confined s s') (h' : Confined s' s'') : Confined s s'' := by
  refine ⟨fun name metadata hm => h.topics name metadata (h'.topics name metadata hm),
    fun t p o hk => ?_, fun t p hk => ?_⟩
  · rcases h'.batches t p o hk with hk | ⟨name, metadata, hm, hid⟩
    · exact h.batches t p o hk
    · exact .inr ⟨name, metadata, h.topics name metadata hm, hid⟩
  · rcases h'.watermarks t p hk with hk | ⟨name, metadata, hm, hid⟩
    · exact h.watermarks t p hk
    · exact .inr ⟨name, metadata, h.topics name metadata hm, hid⟩

theorem append {name : Topic} {metadata : TopicMetadata} (h : s.coord.topics[name]? = some metadata)
    (p : Int) (b : Batch) : Confined s (s.append metadata.id p b) := by
  refine ⟨fun _ _ => id, fun t p' o hk => ?_, fun t p' hk => ?_⟩
  · rcases mem_insert.1 hk with heq | hk
    · have hkey := compare_eq_iff_eq.1 heq
      cases hkey
      exact .inr ⟨name, metadata, h, rfl⟩
    · exact .inl hk
  · rcases mem_insert.1 hk with heq | hk
    · have hkey := compare_eq_iff_eq.1 heq
      cases hkey
      exact .inr ⟨name, metadata, h, rfl⟩
    · exact .inl hk

theorem foldl_delete (keys : List Key) : Confined s (keys.foldl DeleteTopic.delete s) := by
  refine ⟨fun _ _ => by rw [foldl_delete_coord]; exact id, fun t p o hk => .inl ?_,
    fun t p hk => .inl ?_⟩
  · rw [mem_iff_isSome_getElem?, foldl_delete_batches] at hk
    rw [mem_iff_isSome_getElem?]
    split at hk
    · cases hk
    · exact hk
  · rw [mem_iff_isSome_getElem?, foldl_delete_watermarks] at hk
    rw [mem_iff_isSome_getElem?]
    split at hk
    · cases hk
    · exact hk

end Confined

theorem partition?_eq_some {metadata : TopicMetadata} :
    s.partition? tp = some metadata ↔ s.coord.topics[tp.topic]? = some metadata ∧
      0 ≤ tp.partition ∧ tp.partition < metadata.topic.numPartitions := by
  simp [State.partition?, Option.filter_eq_some_iff]

namespace Confined

theorem marks (producerId producerEpoch : Int) (committed : Bool) (s : State) (offsetEnd : Int)
    (partitions : List Topition) :
    Confined s (marks producerId producerEpoch committed s offsetEnd partitions).1 := by
  induction partitions generalizing s offsetEnd with
  | nil => exact refl s
  | cons tp partitions ih =>
    unfold Slate.marks
    split
    next => exact ih s offsetEnd
    next metadata htopic => exact (append htopic tp.partition _).trans (ih _ _)

variable {tp : Topition} {b : Batch} {transactionId : Option String}

/-- The check of a sequence touches only the producers. -/
theorem of_sequence (h : sequence s tp b = .ok s') :
    ∃ producers : BTreeMap Int ProducerDetail, (∀ id ∈ s.coord.producers, id ∈ producers) ∧
      s' = { s with coord := { s.coord with producers } } := by
  unfold sequence at h
  split at h
  next => cases h
  next pd _ =>
    split at h
    next => cases h
    next currentEpoch _ =>
      obtain ⟨increment, -, rfl⟩ := exists_of_map_eq_ok h
      exact ⟨_, fun id hid => mem_insert.2 (.inr hid), rfl⟩

theorem place {transactionId : Option String} {metadata : TopicMetadata} {tp : Topition} {b : Batch}
    (h : s.coord.topics[tp.topic]? = some metadata) :
    Confined s (place s transactionId metadata tp b) := by
  cases transactionId with
  | none => exact append h tp.partition b
  | some t =>
    have hrange : Confined s (s.modifyDetail t b.producerEpoch (extend · tp
        (s.high metadata.id tp.partition)
        (s.high metadata.id tp.partition + b.lastOffsetDelta))) := of_eq rfl rfl rfl
    have happend := append (s := s.modifyDetail t b.producerEpoch (extend · tp
        (s.high metadata.id tp.partition)
        (s.high metadata.id tp.partition + b.lastOffsetDelta))) h tp.partition b
    exact hrange.trans happend

/-- A produce moves the sequences of its producer at most, and places its batch. -/
theorem of_produce {offset : Int} (h : Slate.produce s transactionId tp b = .ok (s', offset)) :
    ∃ (metadata : TopicMetadata) (producers : BTreeMap Int ProducerDetail),
      s.coord.topics[tp.topic]? = some metadata ∧ (∀ id ∈ s.coord.producers, id ∈ producers) ∧
      s' = Slate.place { s with coord := { s.coord with producers } } transactionId metadata tp b ∧
      offset = s.high metadata.id tp.partition := by
  unfold Slate.produce at h
  split at h
  next => cases h
  next metadata hpartition =>
    obtain ⟨htopic, -⟩ := partition?_eq_some.1 hpartition
    obtain ⟨s₁, hs₁, heq⟩ := exists_of_map_eq_ok h
    cases heq
    split at hs₁
    · obtain ⟨producers, hknown, rfl⟩ := of_sequence hs₁
      exact ⟨metadata, producers, htopic, hknown, rfl, rfl⟩
    · cases hs₁
      exact ⟨metadata, s.coord.producers, htopic, fun _ => id, rfl, rfl⟩

theorem produce {offset : Int} (h : produce s transactionId tp b = .ok (s', offset)) :
    Confined s s' := by
  obtain ⟨metadata, producers, htopic, -, rfl, -⟩ := of_produce h
  have hfirst : Confined s { s with coord := { s.coord with producers } } := of_eq rfl rfl rfl
  exact hfirst.trans (place htopic)

theorem abortOpen (t : String) (txn : Txn) : Confined s (abortOpen s t txn) := by
  unfold Slate.abortOpen
  split
  · exact refl s
  · split
    · exact (marks _ _ _ _ _ _).trans (of_eq rfl rfl rfl)
    · exact refl s

theorem initProducer (transactionId : Option String) (timeout : Int)
    (producerId producerEpoch : Option Int) (now : Int) :
    Confined s (initProducer s transactionId timeout producerId producerEpoch now).1 := by
  unfold Slate.initProducer
  split
  next t =>
    split
    next txn _ =>
      exact (abortOpen t txn).trans (of_eq rfl rfl rfl)
    next => exact of_eq rfl rfl rfl
  next =>
    split
    · exact of_eq rfl rfl rfl
    · exact refl s

theorem complete (t : String) (e : Int) : Confined s (complete s t e) := by
  unfold Slate.complete
  split
  · exact refl s
  · split
    · exact of_eq rfl rfl rfl
    · exact of_eq rfl rfl rfl

theorem foldl_complete (prepared : List (String × Int)) :
    Confined s (prepared.foldl (fun s p => Slate.complete s p.1 p.2) s) := by
  induction prepared generalizing s with
  | nil => exact refl s
  | cons p prepared ih => exact (complete p.1 p.2).trans ih

theorem resolve (s : State) (t : String) (e : Int) (committed : Bool)
    (offsets : BTreeMap (Group × Topition) TxnCommitOffset) (prepared : List (String × Int)) :
    Confined s (TxnEnd.resolve s t e committed offsets prepared) := by
  have hown : ∀ s₁ : State, s₁.coord.topics = s.coord.topics → s₁.batches = s.batches →
      s₁.watermarks = s.watermarks →
      Confined s (s₁.modifyDetail t e ({ · with state := some (final committed) })) :=
    fun s₁ htopics hbatches hwatermarks => of_eq htopics hbatches hwatermarks
  unfold TxnEnd.resolve
  split
  · exact (hown (applyOffsets s offsets) rfl rfl rfl).trans (foldl_complete _)
  · exact (hown s rfl rfl rfl).trans (foldl_complete _)

theorem txnEnd {t : String} {producerId producerEpoch : Int} {committed : Bool}
    (h : txnEnd s t producerId producerEpoch committed = .ok s') : Confined s s' := by
  unfold Slate.txnEnd at h
  split at h
  next => cases h
  next d _ =>
    have hmarks : Confined s (Slate.marks producerId producerEpoch committed
        (TxnEnd.prepare s t producerEpoch committed) 0 d.produces.keys).1 :=
      (of_eq rfl rfl rfl : Confined s (TxnEnd.prepare s t producerEpoch committed)).trans
        (marks _ _ _ _ _ _)
    dsimp only at h
    split at h
    · cases h
      exact hmarks
    · cases h
      refine hmarks.trans ?_
      exact resolve _ _ _ _ _ _

theorem deleteTopic [SlateDb] (topic : TopicId) : Confined s (deleteTopic s topic).1 := by
  unfold Slate.deleteTopic
  split
  next => exact refl s
  next name metadata _ =>
    refine (foldl_delete _).trans ⟨fun name' metadata' h => ?_, fun _ _ _ => .inl, fun _ _ => .inl⟩
    simp only [DeleteTopic.forget, getElem?_erase_eq] at h
    split at h
    · cases h
    · exact h

theorem deleteRecords [SlateDb] (tp : Topition) (offset : Int) :
    Confined s (deleteRecords s tp offset).1 := by
  unfold Slate.deleteRecords
  split
  next => exact refl s
  next metadata hpartition =>
    obtain ⟨htopic, -⟩ := partition?_eq_some.1 hpartition
    refine (foldl_delete _).trans ⟨fun _ _ => id, fun _ _ _ => .inl, fun t p hk => ?_⟩
    rcases mem_insert.1 hk with heq | hk
    · have hkey := compare_eq_iff_eq.1 heq
      cases hkey
      exact .inr ⟨tp.topic, metadata, by rw [foldl_delete_coord]; exact htopic, rfl⟩
    · exact .inl hk

theorem after [SlateDb] (a : Action) (hmaintain : ∀ batches watermarks,
    a = .maintain batches watermarks →
      (∀ k ∈ batches, k ∈ s.batches) ∧ ∀ k ∈ watermarks, k ∈ s.watermarks) :
    Confined s (s.after a) := by
  cases a with
  | createTopic => exact refl s
  | deleteTopic topic => exact deleteTopic topic
  | deleteRecords tp offset => exact deleteRecords tp offset
  | maintain batches watermarks =>
    obtain ⟨hbatches, hwatermarks⟩ := hmaintain batches watermarks rfl
    exact ⟨fun _ _ => id, fun _ _ _ hk => .inl (hbatches _ hk),
      fun _ _ hk => .inl (hwatermarks _ hk)⟩
  | produce transactionId tp b =>
    simp only [State.after]
    split
    next s' offset h => exact produce h
    next => exact refl s
  | offsetCommit group tp value =>
    simp only [State.after, Slate.offsetCommit]
    split
    · exact of_eq rfl rfl rfl
    · exact refl s
  | deleteGroup group => exact foldl_delete _
  | initProducer transactionId timeout producerId producerEpoch now =>
    exact initProducer transactionId timeout producerId producerEpoch now
  | txnAddPartitions t producerId producerEpoch partitions =>
    simp only [State.after, Slate.txnAddPartitions]
    split
    · exact refl s
    · exact of_eq rfl rfl rfl
  | txnOffsetCommit t producerId producerEpoch group offsets =>
    simp only [State.after, Slate.txnOffsetCommit]
    split
    · exact refl s
    · exact of_eq rfl rfl rfl
  | txnEnd t producerId producerEpoch committed =>
    simp only [State.after]
    split
    next s' h => exact txnEnd h
    next => exact refl s

end Confined

end Tansu.Slate
