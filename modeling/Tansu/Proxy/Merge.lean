import Tansu.Lib.Lists
import Tansu.Proxy.Produce

/-!
# Merging requests and splitting answers

What the request that goes upstream holds of the requests it was merged from, and what
each owner finds in its part of the answer.
-/

namespace Tansu.Proxy

open Std Tansu.Lib Tansu.Lib.BTreeMap Tansu.Records List Option ExtTreeMap

variable {libs : Libraries} {requests : List BatchRequest} {response : ProduceResponse}
  {tp : Topition}

/-! ## Maps by topic -/

theorem flatMap_byTopic {β : Type} (entries : List (Topition × β)) :
    (byTopic entries).flatMap (fun topic => topic.2.map fun p => (⟨topic.1, p.1⟩, p.2)) =
      entries := by
  induction entries with
  | nil => rfl
  | cons entry entries ih =>
    obtain ⟨tp, b⟩ := entry
    unfold byTopic
    cases htopics : byTopic entries with
    | nil =>
      rw [htopics] at ih
      subst ih
      rfl
    | cons topic topics =>
      rw [htopics] at ih
      simp only
      split
      next h =>
        have htp : (⟨topic.1, tp.partition⟩ : Topition) = tp := by rw [← h]
        rw [flatMap_cons, map_cons, htp, cons_append]
        exact congrArg _ ih
      next =>
        rw [← ih]
        rfl

/-! ## Combining batches -/

/-- A record with its time, for a batch with that base timestamp. -/
def timed (baseTimestamp : Int64) (r : Record) :
    Int × UInt8 × Option Bytes × Option Bytes × List Header :=
  (baseTimestamp.toInt + r.timestampDelta.toInt, r.attributes, r.key, r.value, r.headers)

def timedRecords (libs : Libraries) (b : Deflated.Batch) :
    Except Fault (List (Int × UInt8 × Option Bytes × Option Bytes × List Header)) :=
  (b.records libs).map (·.map (timed b.baseTimestamp))

/-- Nothing of `batches` is lost in `merged`: it is the same batches, or one batch that has the
records of each of them, one batch behind the other. -/
def Carries (libs : Libraries) (batches merged : List Deflated.Batch) : Prop :=
  merged = batches ∨ ∃ rows b, batches.mapM (timedRecords libs) = .ok rows ∧ merged = [b] ∧
    timedRecords libs b = .ok rows.flatten

theorem timed_moved {sink batch : Inflated.Batch} (h : batch.baseTimestamp = sink.baseTimestamp)
    (record : Record) : timed sink.baseTimestamp (moved sink batch record) =
      timed sink.baseTimestamp record := by
  have hzero : sink.baseTimestamp - batch.baseTimestamp = 0 := by rw [h, Int64.sub_self]
  simp only [timed, moved, hzero, Int64.add_zero]

theorem append_records {sink batch : Inflated.Batch}
    (h : batch.baseTimestamp = sink.baseTimestamp) :
    (append sink batch).records.map (timed sink.baseTimestamp) =
      sink.records.map (timed sink.baseTimestamp) ++
        batch.records.map (timed sink.baseTimestamp) := by
  simp only [append, map_append, List.map_map, Function.comp_def, timed_moved h]

theorem timedRecords_eq {b : Deflated.Batch} {records : List Record}
    (h : b.records libs = .ok records) :
    timedRecords libs b = .ok (records.map (timed b.baseTimestamp)) := by
  rw [timedRecords, h]
  rfl

/-- What the loop of `combine` leaves in the sink. -/
theorem foldlM_append {batches : List Deflated.Batch} {sink sink' : Inflated.Batch}
    (hbase : ∀ b ∈ batches, b.baseTimestamp = sink.baseTimestamp)
    (h : batches.foldlM (fun sink batch => (Inflated.Batch.tryFrom libs batch).map (append sink))
      sink = .ok sink') :
    sink'.baseTimestamp = sink.baseTimestamp ∧ sink'.attributes = sink.attributes ∧
      ∃ rows, batches.mapM (timedRecords libs) = .ok rows ∧
        sink'.records.map (timed sink.baseTimestamp) =
          sink.records.map (timed sink.baseTimestamp) ++ rows.flatten := by
  induction batches generalizing sink with
  | nil =>
    cases h
    exact ⟨rfl, rfl, [], rfl, by simp⟩
  | cons b batches ih =>
    rw [foldlM_cons] at h
    cases hb : Inflated.Batch.tryFrom libs b with
    | error e =>
      rw [hb] at h
      cases h
    | ok batch =>
      rw [hb] at h
      obtain ⟨hrecords, -, -, -, htime, -⟩ := Deflated.inflated_eq_ok hb
      have hsame : batch.baseTimestamp = sink.baseTimestamp :=
        htime.trans (hbase b mem_cons_self)
      obtain ⟨hbase', hattributes, rows, hrows, hsink⟩ :=
        @ih (append sink batch) (fun b' hb' => hbase b' (mem_cons_of_mem b hb')) h
      change sink'.records.map (timed sink.baseTimestamp) =
        (append sink batch).records.map (timed sink.baseTimestamp) ++ _ at hsink
      refine ⟨hbase', hattributes, batch.records.map (timed sink.baseTimestamp) :: rows, ?_, ?_⟩
      · rw [mapM_cons, timedRecords_eq hrecords, hrows, hbase b mem_cons_self]
        rfl
      · rw [hsink, append_records hsame, flatten_cons, append_assoc]

/-- Batches that combine, with one base timestamp, lose no record. -/
theorem carries_of_combine {batches merged : List Deflated.Batch} (hlibs : libs.Inverse)
    (hbase : ∀ b ∈ batches, ∀ b' ∈ batches, b.baseTimestamp = b'.baseTimestamp)
    (h : combine libs batches = .ok merged) : Carries libs batches merged := by
  unfold combine at h
  split at h
  next first second rest =>
    cases hfirst : Inflated.Batch.tryFrom libs first with
    | error e =>
      rw [hfirst] at h
      cases h
    | ok sink =>
      rw [hfirst] at h
      cases hfold : (second :: rest).foldlM
          (fun sink batch => (Inflated.Batch.tryFrom libs batch).map (append sink)) sink with
      | error e =>
        simp only [bind, Except.bind, hfold] at h
        cases h
      | ok sink' =>
        simp only [bind, Except.bind, hfold] at h
        cases hd : Deflated.Batch.tryFromInflated libs sink' with
        | error e =>
          rw [hd] at h
          cases h
        | ok d =>
          rw [hd] at h
          cases h
          obtain ⟨hrecords, hnone, -, -, htime, -⟩ := Deflated.inflated_eq_ok hfirst
          have hbases : ∀ b' ∈ second :: rest, b'.baseTimestamp = sink.baseTimestamp :=
            fun b' hb' => (hbase b' (mem_cons_of_mem first hb') first mem_cons_self).trans
              htime.symm
          obtain ⟨hbase', hattributes, rows, hrows, hsink⟩ := foldlM_append hbases hfold
          obtain ⟨-, ⟨data, hcrc⟩, -, hback, -⟩ :=
            Deflated.records_of_tryFromInflated hlibs (hattributes ▸ hnone) (by simp) hd
          have hdbase : d.baseTimestamp = sink.baseTimestamp :=
            (congrArg Deflated.CrcData.baseTimestamp hcrc).trans hbase'
          refine .inr ⟨sink.records.map (timed sink.baseTimestamp) :: rows, d, ?_, rfl, ?_⟩
          · rw [mapM_cons, timedRecords_eq hrecords, hrows, htime]
            rfl
          · rw [timedRecords_eq hback, hdbase, hsink, flatten_cons]
  next =>
    cases h
    exact .inl rfl

/-! ## The request upstream -/

/-- The batches that the requests have for a partition, in their order. -/
def gathered (requests : List BatchRequest) (tp : Topition) : List Deflated.Batch :=
  ((recordsOf requests).filter (Prod.fst · = tp)).flatMap Prod.snd

theorem topicPartitionBatch_getElem? :
    (topicPartitionBatch requests)[tp]? =
      if tp ∈ (recordsOf requests).map Prod.fst then some (gathered requests tp) else none := by
  have hfold : ∀ (l : List (Topition × List Deflated.Batch)) (acc : List Deflated.Batch),
      l.foldl (fun acc p => acc ++ p.2) acc = acc ++ l.flatMap Prod.snd := by
    intro l
    induction l with
    | nil => simp
    | cons p l ih =>
      intro acc
      rw [foldl_cons, ih, flatMap_cons, append_assoc]
  rw [topicPartitionBatch, getElem?_foldl_alter,
    foldl_some_getD (g := fun acc (p : Topition × List Deflated.Batch) => acc ++ p.2) (d := [])]
  by_cases htp : tp ∈ (recordsOf requests).map Prod.fst
  · obtain ⟨p, hp, rfl⟩ := List.mem_map.1 htp
    have hne : (recordsOf requests).filter (Prod.fst · = p.1) ≠ [] :=
      ne_nil_of_mem (List.mem_filter.2 ⟨hp, by simp⟩)
    rw [if_neg hne, if_pos htp, hfold]
    simp [gathered]
  · have hnil : (recordsOf requests).filter (Prod.fst · = tp) = [] := by
      rw [filter_eq_nil_iff]
      intro p hp heq
      exact htp (List.mem_map.2 ⟨p, hp, of_decide_eq_true heq⟩)
    rw [if_pos hnil, if_neg htp]
    simp

theorem mem_recordsOf {batches : List Deflated.Batch} :
    (tp, batches) ∈ recordsOf requests ↔
      ∃ r ∈ requests, (tp, some batches) ∈ r.request.partitions := by
  simp only [recordsOf, mem_flatMap, List.mem_filterMap, map_eq_some_iff,
    Prod.mk.injEq]
  constructor
  · rintro ⟨r, hr, ⟨tp', o⟩, hp, batches', ho, rfl, rfl⟩
    obtain rfl : o = some batches' := ho
    exact ⟨r, hr, hp⟩
  · rintro ⟨r, hr, hp⟩
    exact ⟨r, hr, (tp, some batches), hp, batches, rfl, rfl, rfl⟩

/-- The batches of a partition combine, and their records keep their times. -/
def Mergeable (libs : Libraries) (batches : List Deflated.Batch) : Prop :=
  (combine libs batches).isOk ∧
    ∀ b ∈ batches, ∀ b' ∈ batches, b.baseTimestamp = b'.baseTimestamp

/-- The request upstream has the partitions that come with records. -/
theorem produceRequest_spec {request : ProduceRequest}
    (h : produceRequest libs requests = .ok request) :
    request.acks = 0 ∧ request.transactionalId = none ∧
      (∀ tp, tp ∈ request.topitions ↔
        ∃ r ∈ requests, ∃ batches, (tp, some batches) ∈ r.request.partitions) ∧
      ∀ tp, (∃ r ∈ requests, ∃ batches, (tp, some batches) ∈ r.request.partitions) →
        ∃ merged, combineOrDefault libs (gathered requests tp) = .ok merged ∧
          (tp, some merged) ∈ request.partitions := by
  unfold produceRequest at h
  cases hrun : (topicPartitionBatch requests).toList.mapM fun p =>
      (combineOrDefault libs p.2).map (p.1, ·) with
  | error e =>
    rw [hrun] at h
    cases h
  | ok run =>
    rw [hrun] at h
    cases h
    have hpartitions : ProduceRequest.partitions
        { topicData := some ((byTopic run).map fun topic =>
            { name := topic.1
              partitionData := some (topic.2.map fun p => ⟨p.1, some p.2⟩) })
          timeoutMs := 5000 } = run.map fun p => (p.1, some p.2) := by
      conv_rhs => rw [← flatMap_byTopic run]
      simp [ProduceRequest.partitions, flatMap_map, map_flatMap, Function.comp_def]
    obtain ⟨hleft, hright⟩ := mem_of_mapM_eq_ok hrun
    -- an entry of the map gives one of the request, and the other way round
    have hforward : ∀ tp, (∃ r ∈ requests, ∃ batches, (tp, some batches) ∈ r.request.partitions) →
        ∃ merged, combineOrDefault libs (gathered requests tp) = .ok merged ∧
          (tp, merged) ∈ run := by
      rintro tp ⟨r, hr, batches, hp⟩
      have hmem : tp ∈ (recordsOf requests).map Prod.fst :=
        List.mem_map.2 ⟨(tp, batches), mem_recordsOf.2 ⟨r, hr, hp⟩, rfl⟩
      have hentry : (tp, gathered requests tp) ∈ (topicPartitionBatch requests).toList := by
        rw [mem_toList_iff_getElem?_eq_some, topicPartitionBatch_getElem?, if_pos hmem]
      obtain ⟨e, he, hcombined⟩ := hleft _ hentry
      cases hmerged : combineOrDefault libs (gathered requests tp) with
      | error p =>
        rw [hmerged] at hcombined
        cases hcombined
      | ok merged =>
        rw [hmerged] at hcombined
        cases hcombined
        exact ⟨merged, rfl, he⟩
    have hback : ∀ e ∈ run, ∃ r ∈ requests, ∃ batches,
      (e.1, some batches) ∈ r.request.partitions := by
      intro e he
      obtain ⟨p, hp, hcombined⟩ := hright e he
      obtain ⟨tp, batches⟩ := p
      rw [mem_toList_iff_getElem?_eq_some, topicPartitionBatch_getElem?] at hp
      have htp : tp = e.1 := by
        cases hmerged : combineOrDefault libs batches with
        | error p =>
          rw [hmerged] at hcombined
          cases hcombined
        | ok merged =>
          rw [hmerged] at hcombined
          cases hcombined
          rfl
      split at hp
      next hmem =>
        obtain ⟨⟨tp', batches'⟩, hrecords, rfl⟩ := List.mem_map.1 hmem
        obtain ⟨r, hr, hpart⟩ := mem_recordsOf.1 hrecords
        exact ⟨r, hr, batches', htp ▸ hpart⟩
      next => cases hp
    refine ⟨rfl, rfl, fun tp => ?_, fun tp htp => ?_⟩
    · rw [ProduceRequest.topitions, hpartitions, List.map_map]
      constructor
      · intro htp
        obtain ⟨e, he, rfl⟩ := List.mem_map.1 htp
        exact hback e he
      · intro htp
        obtain ⟨merged, -, he⟩ := hforward tp htp
        exact List.mem_map.2 ⟨_, he, rfl⟩
    · obtain ⟨merged, hmerged, he⟩ := hforward tp htp
      exact ⟨merged, hmerged, hpartitions ▸ List.mem_map.2 ⟨_, he, rfl⟩⟩

/-- What merging sends of a partition whose batches can be merged. -/
theorem carries_of_produceRequest {request : ProduceRequest} (hlibs : libs.Inverse)
    (h : produceRequest libs requests = .ok request) {r : BatchRequest} (hr : r ∈ requests)
    {batches : List Deflated.Batch} (hp : (tp, some batches) ∈ r.request.partitions)
    (hmerge : Mergeable libs (gathered requests tp)) :
    ∃ merged, (tp, some merged) ∈ request.partitions ∧
      Carries libs (gathered requests tp) merged := by
  obtain ⟨-, -, -, hsent⟩ := produceRequest_spec h
  obtain ⟨merged, hcombined, hmem⟩ := hsent tp ⟨r, hr, batches, hp⟩
  obtain ⟨hok, hbase⟩ := hmerge
  unfold combineOrDefault at hcombined
  cases hcombine : combine libs (gathered requests tp) with
  | error e =>
    rw [hcombine] at hok
    cases hok
  | ok merged' =>
    rw [hcombine] at hcombined
    cases hcombined
    exact ⟨merged, hmem, carries_of_combine hlibs hbase hcombine⟩

/-! ## The answers -/

theorem mem_owners {id : Nat} :
    id ∈ ((owners requests)[tp]?).getD [] ↔
      ∃ r ∈ requests, r.id = id ∧ tp ∈ r.request.topitions := by
  have hfold : ∀ (l : List (Topition × Nat)) (ids : List Nat),
      id ∈ l.foldl (fun ids p => ids.insert p.2) ids ↔ id ∈ ids ∨ id ∈ l.map Prod.snd := by
    intro l
    induction l with
    | nil => simp
    | cons p l ih =>
      intro ids
      rw [foldl_cons, ih, mem_insert_iff, map_cons, mem_cons]
      tauto
  have hmem : ∀ l : List (Topition × Nat),
      id ∈ (if l = [] then (∅ : BTreeMap Topition (List Nat))[tp]?
        else some (l.foldl (fun ids p => ids.insert p.2)
          ((∅ : BTreeMap Topition (List Nat))[tp]?.getD []))).getD [] ↔ id ∈ l.map Prod.snd := by
    intro l
    split
    · next h => simp [h]
    · simp [hfold]
  rw [owners, getElem?_foldl_alter,
    foldl_some_getD (g := fun ids (p : Topition × Nat) => ids.insert p.2) (d := []), hmem]
  simp only [List.mem_map, List.mem_filter, mem_flatMap, decide_eq_true_eq]
  constructor
  · rintro ⟨p, ⟨⟨r, hr, tp', htp', rfl⟩, rfl⟩, rfl⟩
    exact ⟨r, hr, rfl, htp'⟩
  · rintro ⟨r, hr, rfl, htp⟩
    exact ⟨(tp, r.id), ⟨⟨r, hr, tp, htp, rfl⟩, rfl⟩, rfl⟩

/-- The part of an answer that is for `id`. -/
def partOf (owners : BTreeMap Topition (List Nat)) (response : ProduceResponse) (id : Nat) :
    List (Topition × PartitionProduceResponse) :=
  response.partitions.filter fun p => decide (id ∈ owners[p.1]?.getD [])

theorem collected_getElem? {owners : BTreeMap Topition (List Nat)} {id : Nat} :
    (collected owners response)[id]? =
      if partOf owners response id = [] then none
      else some ((partOf owners response id).foldl (fun own p => own.insert p.1 p.2) ∅) := by
  -- one partition, for all of its owners
  have hinner : ∀ (ids : List Nat) (p : Topition × PartitionProduceResponse)
      (responses : BTreeMap Nat (BTreeMap Topition PartitionProduceResponse)),
      (ids.foldl (fun responses owner =>
        responses.alter owner fun own => some ((own.getD ∅).insert p.1 p.2)) responses)[id]? =
      if id ∈ ids then some ((responses[id]?.getD ∅).insert p.1 p.2) else responses[id]? := by
    intro ids p responses
    induction ids generalizing responses with
    | nil => simp
    | cons owner ids ih =>
      rw [foldl_cons, ih, getElem?_alter_eq]
      by_cases howner : owner = id
      · subst howner
        simp only [mem_cons, true_or, if_true, getD_some]
        split
        · congr 1
          ext1 k
          simp only [getElem?_insert_eq]
          split <;> rfl
        · rfl
      · simp [howner, Ne.symm howner]
  have houter : ∀ (l : List (Topition × PartitionProduceResponse))
      (responses : BTreeMap Nat (BTreeMap Topition PartitionProduceResponse)),
      (l.foldl (fun responses p => (owners[p.1]?.getD []).foldl (fun responses owner =>
        responses.alter owner fun own => some ((own.getD ∅).insert p.1 p.2)) responses)
        responses)[id]? =
      (l.filter fun p => decide (id ∈ owners[p.1]?.getD [])).foldl
        (fun own p => some ((own.getD ∅).insert p.1 p.2)) responses[id]? := by
    intro l
    induction l with
    | nil => simp
    | cons p l ih =>
      intro responses
      rw [foldl_cons, ih, hinner]
      by_cases hid : id ∈ owners[p.1]?.getD []
      · simp [hid]
      · simp [hid]
  rw [collected, houter, foldl_some_getD (d := ∅)
    (g := fun (own : BTreeMap Topition PartitionProduceResponse)
      (p : Topition × PartitionProduceResponse) => own.insert p.1 p.2)]
  simp only [partOf, getElem?_empty, getD_none]
  congr

theorem exists_of_split {owners : BTreeMap Topition (List Nat)} {id : Nat} {own : ProduceResponse}
    (h : (split owners response)[id]? = some own) :
    ∃ p ∈ response.partitions, id ∈ owners[p.1]?.getD [] := by
  rw [split, ExtTreeMap.getElem?_map, collected_getElem?] at h
  split at h
  next => cases h
  next hne =>
    obtain ⟨p, hp⟩ := exists_mem_of_ne_nil _ hne
    obtain ⟨hp, hid⟩ := List.mem_filter.1 hp
    exact ⟨p, hp, of_decide_eq_true hid⟩

theorem partitions_byTopic {entries : List (Topition × PartitionProduceResponse)}
    (h : ∀ q ∈ entries, q.2.index = q.1.partition) (throttleTimeMs : Option Int32) :
    ProduceResponse.partitions
      { responses := some ((byTopic entries).map fun topic =>
          { name := topic.1
            partitionResponses := some (topic.2.map Prod.snd) })
        throttleTimeMs } = entries := by
  conv_rhs => rw [← flatMap_byTopic entries]
  simp only [ProduceResponse.partitions, getD_some, flatMap_map, List.map_map]
  refine flatMap_congr fun topic htopic => map_congr_left fun p hp => ?_
  have hmem : ((⟨topic.1, p.1⟩ : Topition), p.2) ∈ entries := by
    rw [← flatMap_byTopic entries]
    exact mem_flatMap.2 ⟨topic, htopic, List.mem_map.2 ⟨p, hp, rfl⟩⟩
  have hindex : p.2.index = p.1 := h _ hmem
  simp only [Function.comp_apply, hindex]

/-- An owner of a partition that is answered gets the answers to its partitions. -/
theorem split_spec {owners : BTreeMap Topition (List Nat)} {id : Nat}
    (h : ∃ p ∈ response.partitions, id ∈ owners[p.1]?.getD []) :
    ∃ own, (split owners response)[id]? = some own ∧
      (∀ tp, tp ∈ own.topitions ↔ tp ∈ response.topitions ∧ id ∈ owners[tp]?.getD []) ∧
      ∀ p ∈ own.partitions, p ∈ response.partitions := by
  obtain ⟨p, hp, hid⟩ := h
  have hne : partOf owners response id ≠ [] :=
    ne_nil_of_mem (List.mem_filter.2 ⟨hp, decide_eq_true hid⟩)
  generalize hown : (partOf owners response id).foldl
    (fun (own : BTreeMap Topition PartitionProduceResponse) p => own.insert p.1 p.2) ∅ = own
  have hcollected : (collected owners response)[id]? = some own := by
    rw [collected_getElem?, if_neg hne, hown]
  have hentries : ∀ tp p, own[tp]? = some p → (tp, p) ∈ partOf owners response id := by
    subst hown
    exact forall_foldl_insert (P := fun tp p => (tp, p) ∈ partOf owners response id)
      (by simp) fun p hp => hp
  have hkeys : ∀ q ∈ partOf owners response id, ∃ p, own[q.1]? = some p := by
    intro q hq
    subst hown
    rw [getElem?_foldl_insert]
    cases hlast : ((partOf owners response id).filter (Prod.fst · = q.1)).getLast? with
    | none =>
      rw [getLast?_eq_none_iff, filter_eq_nil_iff] at hlast
      exact absurd (decide_eq_true rfl) (hlast q hq)
    | some last => exact ⟨last.2, by simp⟩
  have hindex : ∀ q ∈ response.partitions, q.2.index = q.1.partition := by
    intro q hq
    obtain ⟨topic, -, hq⟩ := mem_flatMap.1 hq
    obtain ⟨partition, -, rfl⟩ := List.mem_map.1 hq
    rfl
  have hmem : ∀ q, q ∈ own.toList → q ∈ partOf owners response id := by
    rintro ⟨tp, p⟩ hq
    exact hentries tp p (mem_toList_iff_getElem?_eq_some.1 hq)
  have hpartitions := partitions_byTopic
    (fun q hq => hindex q (List.mem_filter.1 (hmem q hq)).1) response.throttleTimeMs
  refine ⟨_, by rw [split, ExtTreeMap.getElem?_map, hcollected]; rfl, fun tp => ?_, fun q hq => ?_⟩
  · rw [ProduceResponse.topitions, hpartitions]
    constructor
    · intro htp
      obtain ⟨q, hq, rfl⟩ := List.mem_map.1 htp
      obtain ⟨hq, hid⟩ := List.mem_filter.1 (hmem q hq)
      exact ⟨List.mem_map.2 ⟨q, hq, rfl⟩, of_decide_eq_true hid⟩
    · rintro ⟨htp, hid⟩
      obtain ⟨q, hq, rfl⟩ := List.mem_map.1 htp
      obtain ⟨p, hp⟩ := hkeys q (List.mem_filter.2 ⟨hq, decide_eq_true hid⟩)
      exact List.mem_map.2 ⟨(q.1, p), mem_toList_iff_getElem?_eq_some.2 hp, rfl⟩
  · rw [hpartitions] at hq
    exact (List.mem_filter.1 (hmem q hq)).1

end Tansu.Proxy
