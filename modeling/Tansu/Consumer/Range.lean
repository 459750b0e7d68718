import Tansu.Consumer.Shares

/-!
# What the range assignor gives to whom

The offsets the loop goes through have a closed form, so a member's share of a
topic is one slice of the topic's partitions, and the slices of all the
subscribers put together are the partitions.
-/

namespace Tansu.Consumer

open Lib Std List

namespace RangeAssignor

/-! ## Offsets -/

/-- Where the slice of the `j`th subscriber starts. -/
def start (allocation remainder j : Nat) : Nat := j * allocation + min j remainder

theorem start_succ (allocation remainder j : Nat) :
    start allocation remainder (j + 1) =
      start allocation remainder j + count allocation remainder j := by
  unfold start count
  rw [Nat.add_mul]
  split <;> omega

theorem monotone_start (allocation remainder : Nat) : Monotone (start allocation remainder) :=
  monotone_nat_of_le_succ fun j => by
    rw [start_succ]
    exact Nat.le_add_right _ _

variable {total j : Nat}

theorem start_length {subscribers : Nat} (h : 0 < subscribers) :
    start (total / subscribers) (total % subscribers) subscribers = total := by
  have hlt := Nat.mod_lt total h
  unfold start
  rw [Nat.min_eq_right hlt.le]
  exact Nat.div_add_mod total subscribers

theorem count_le {n bound : Nat} (h : total ≤ bound * n) (j : Nat) :
    count (total / n) (total % n) j ≤ bound := by
  have hdiv : total / n ≤ bound := Nat.div_le_of_le_mul (by rwa [Nat.mul_comm])
  have hmod := Nat.div_add_mod' total n
  unfold count
  split
  next hrem =>
    -- with a remainder the quotient is below the bound
    have hlt : total / n < bound := by
      by_contra hge
      have hmul : bound * n ≤ total / n * n := Nat.mul_le_mul_right n (by omega)
      omega
    omega
  next => omega

theorem lt_count_zero {n bound : Nat} (hpos : 0 < n) (h : bound * n < total) :
    bound < count (total / n) (total % n) 0 := by
  have hdiv : bound ≤ total / n := (Nat.le_div_iff_mul_le hpos).2 h.le
  have hmod := Nat.div_add_mod' total n
  unfold count
  split
  next => omega
  next hrem =>
    have hlt : bound < total / n := by
      by_contra hle
      have hmul : total / n * n ≤ bound * n := Nat.mul_le_mul_right n (by omega)
      omega
    omega

/-! ## The loops -/

/-- What the `j`th subscriber of a topic is given. -/
def given (topic : String) (partitions : List Int32) (allocation remainder j : Nat) :
    List TopicPartition :=
  if count allocation remainder j = 0 then []
  else [⟨topic, slice partitions (start allocation remainder j)
    (start allocation remainder (j + 1))⟩]

theorem share_getElem? (topic : String) (partitions : List Int32) (allocation remainder : Nat)
    {subscribed : List Nat} (hnodup : subscribed.Nodup) (j : Nat)
    (assignments : List (List TopicPartition)) (i : Nat) :
    (share topic partitions allocation remainder subscribed j (start allocation remainder j)
      assignments)[i]? = assignments[i]?.map (· ++ if i ∈ subscribed then
        given topic partitions allocation remainder (j + subscribed.idxOf i) else []) := by
  -- on the subscribers still to come, for every position and every state of the assignments
  induction subscribed generalizing j assignments with
  | nil => simp [share]
  | cons idx rest ih =>
    obtain ⟨hidx, hrest⟩ := nodup_cons.1 hnodup
    have hgiven : i ≠ idx → given topic partitions allocation remainder
        (j + (idx :: rest).idxOf i) = given topic partitions allocation remainder
          (j + 1 + rest.idxOf i) := by
      intro hne
      rw [idxOf_cons_ne _ (Ne.symm hne)]
      congr 1
      omega
    unfold share
    split
    next hcount =>
      have hstart : start allocation remainder j = start allocation remainder (j + 1) := by
        rw [start_succ, hcount, Nat.add_zero]
      rw [hstart, ih hrest]
      by_cases hi : i = idx
      · subst hi
        simp [hidx, given, hcount]
      · rw [hgiven hi]
        simp [hi]
    next hcount =>
      rw [← start_succ, ih hrest, List.getElem?_modify]
      by_cases hi : i = idx
      · subst hi
        simp [hidx, given, hcount, Function.comp_def]
      · rw [hgiven hi]
        simp [hi, Ne.symm hi]

/-- What a member is given of a topic. -/
def turn (memberSubs : List (List String)) (i : Nat) (topic : MetadataResponseTopic) :
    List TopicPartition :=
  match topic.name with
  | none => []
  | some name =>
    let subscribed := subscribers memberSubs name
    if i ∈ subscribed then
      given name topic.indexes (topic.indexes.length / subscribed.length)
        (topic.indexes.length % subscribed.length) (subscribed.idxOf i)
    else []

theorem shareTopic_getElem? (memberSubs : List (List String))
    (assignments : List (List TopicPartition)) (topic : MetadataResponseTopic) (i : Nat) :
    (shareTopic memberSubs assignments topic)[i]? =
      assignments[i]?.map (· ++ turn memberSubs i topic) := by
  unfold shareTopic turn
  cases topic.name with
  | none => simp
  | some name =>
    simp only
    split
    next hempty =>
      rw [List.isEmpty_iff] at hempty
      simp [hempty]
    next =>
      have h := share_getElem? name topic.indexes
        (topic.indexes.length / (subscribers memberSubs name).length)
        (topic.indexes.length % (subscribers memberSubs name).length)
        (nodup_subscribers memberSubs name) 0 assignments i
      simpa [start] using h

/-- A member's share: what it is given of each topic, in the order of the metadata. -/
theorem allocate_getElem? (memberSubs : List (List String))
    (metadata : MetadataResponse) (i : Nat) :
    (allocate memberSubs metadata)[i]? = if i < memberSubs.length then
      some ((metadata.topics.getD []).flatMap (turn memberSubs i)) else none := by
  have hfold (topics : List MetadataResponseTopic) (assignments : List (List TopicPartition)) :
      (topics.foldl (shareTopic memberSubs) assignments)[i]? =
        assignments[i]?.map (· ++ topics.flatMap (turn memberSubs i)) := by
    induction topics generalizing assignments with
    | nil => simp
    | cons topic topics ih =>
      rw [foldl_cons, ih, shareTopic_getElem?, Option.map_map]
      congr 1
      funext assigned
      simp
  unfold allocate
  rw [hfold, getElem?_replicate]
  split <;> simp

/-! ## A member's part of a topic -/

variable {memberSubs : List (List String)} {metadata : MetadataResponse} {i : Nat}
  {topic : MetadataResponseTopic} {name : String}

/-- The slice of a topic's partitions that falls to the `j`th subscriber. -/
def part (memberSubs : List (List String)) (topic : MetadataResponseTopic) (name : String)
    (j : Nat) : List Int32 :=
  slice topic.indexes
    (start (topic.indexes.length / (subscribers memberSubs name).length)
      (topic.indexes.length % (subscribers memberSubs name).length) j)
    (start (topic.indexes.length / (subscribers memberSubs name).length)
      (topic.indexes.length % (subscribers memberSubs name).length) (j + 1))

/-- The parts of all the subscribers are the topic's partitions. -/
theorem flatMap_part (h : subscribers memberSubs name ≠ []) :
    (List.range (subscribers memberSubs name).length).flatMap (part memberSubs topic name) =
      topic.indexes := by
  have hpos := length_pos_iff.2 h
  unfold part
  rw [flatMap_slice (by simp [start]) (monotone_start _ _), start_length hpos, take_length]

section

variable (hj : j < (subscribers memberSubs name).length)
include hj

theorem length_part :
    (part memberSubs topic name j).length =
      count (topic.indexes.length / (subscribers memberSubs name).length)
        (topic.indexes.length % (subscribers memberSubs name).length) j := by
  have hpos : 0 < (subscribers memberSubs name).length := by omega
  have hend : start (topic.indexes.length / (subscribers memberSubs name).length)
      (topic.indexes.length % (subscribers memberSubs name).length)
      (subscribers memberSubs name).length = topic.indexes.length := start_length hpos
  have hle := monotone_start (topic.indexes.length / (subscribers memberSubs name).length)
    (topic.indexes.length % (subscribers memberSubs name).length) (Nat.succ_le_of_lt hj)
  rw [hend] at hle
  rw [part, length_slice hle, start_succ, Nat.add_sub_cancel_left]

theorem part_disjoint {k : Nat} (hk : k < (subscribers memberSubs name).length) {p : Int32}
    (hpj : p ∈ part memberSubs topic name j) (hpk : p ∈ part memberSubs topic name k) : j = k := by
  have hne : subscribers memberSubs name ≠ [] := length_pos_iff.1 (by omega)
  have hnodup : ((List.range (subscribers memberSubs name).length).flatMap
      (part memberSubs topic name)).Nodup := by
    rw [flatMap_part hne]
    exact nodup_sortedSet _
  have hsymm : Std.Symm (Function.onFun List.Disjoint (part memberSubs topic name)) :=
    ⟨fun _ _ h => h.symm⟩
  by_contra hjk
  exact (nodup_flatMap.1 hnodup).2.forall (mem_range.2 hj) (mem_range.2 hk) hjk
    hpj hpk

theorem part_eq_nil_of_count
    (h : count (topic.indexes.length / (subscribers memberSubs name).length)
      (topic.indexes.length % (subscribers memberSubs name).length) j = 0) :
    part memberSubs topic name j = [] := by
  rw [← length_eq_zero_iff, length_part hj, h]

end

theorem idxOf_lt (hi : i ∈ subscribers memberSubs name) :
    (subscribers memberSubs name).idxOf i < (subscribers memberSubs name).length :=
  idxOf_lt_length_of_mem hi

theorem mem_turn {tp : TopicPartition} (h : tp ∈ turn memberSubs i topic) :
    topic.name = some tp.topic ∧ i ∈ subscribers memberSubs tp.topic ∧
      tp.partitions = part memberSubs topic tp.topic
        ((subscribers memberSubs tp.topic).idxOf i) := by
  unfold turn at h
  split at h
  next => cases h
  next name hname =>
    simp only at h
    split at h
    next hi =>
      unfold given at h
      split at h
      next => cases h
      next =>
        cases mem_singleton.1 h
        exact ⟨hname, hi, rfl⟩
    next => cases h

theorem mem_topitionsOf_share {t : Topition} :
    t ∈ topitionsOf ((metadata.topics.getD []).flatMap (turn memberSubs i)) ↔
      ∃ topic ∈ metadata.topics.getD [], topic.name = some t.topic ∧
        i ∈ subscribers memberSubs t.topic ∧
        t.partition ∈ part memberSubs topic t.topic ((subscribers memberSubs t.topic).idxOf i) := by
  rw [mem_topitionsOf]
  constructor
  · rintro ⟨tp, htp, htopic, hp⟩
    obtain ⟨topic, hmem, hturn⟩ := mem_flatMap.1 htp
    obtain ⟨hname, hi, hpart⟩ := mem_turn hturn
    rw [hpart] at hp
    rw [htopic] at hname hi hp
    exact ⟨topic, hmem, hname, hi, hp⟩
  · rintro ⟨topic, hmem, hname, hi, hp⟩
    have hcount : count (topic.indexes.length / (subscribers memberSubs t.topic).length)
        (topic.indexes.length % (subscribers memberSubs t.topic).length)
        ((subscribers memberSubs t.topic).idxOf i) ≠ 0 := by
      intro hzero
      rw [part_eq_nil_of_count (idxOf_lt hi) hzero] at hp
      cases hp
    refine ⟨⟨t.topic, part memberSubs topic t.topic ((subscribers memberSubs t.topic).idxOf i)⟩,
      mem_flatMap.2 ⟨topic, hmem, ?_⟩, rfl, hp⟩
    simp only [turn, hname]
    rw [if_pos hi, given, if_neg hcount]
    exact mem_singleton.2 rfl

theorem nodup_topics_share (hnames : Named metadata) :
    (((metadata.topics.getD []).flatMap (turn memberSubs i)).map (·.topic)).Nodup := by
  refine List.Nodup.sublist ?_ hnames
  induction metadata.topics.getD [] with
  | nil => exact List.Sublist.slnil
  | cons topic topics ih =>
    rw [flatMap_cons, map_append]
    have hturn : ((turn memberSubs i topic).map (·.topic)).Sublist topic.name.toList := by
      unfold turn
      split
      next hname => simp
      next name hname =>
        simp only
        split
        next =>
          unfold given
          split <;> simp [hname]
        next => simp
    have hcons : (topic :: topics).filterMap (·.name) =
        topic.name.toList ++ topics.filterMap (·.name) := by
      cases hname : topic.name <;> simp [hname]
    rw [hcons]
    exact hturn.append ih

theorem divides (hnames : Named metadata) (memberSubs : List (List String)) :
    Divides memberSubs metadata (allocate memberSubs metadata) := by
  have hget := allocate_getElem? memberSubs metadata
  refine ⟨?_, ?_, ?_, ?_, ?_, ?_, ?_⟩
  · exact length_of_getElem? hget
  · intro s hs
    obtain ⟨i, rfl⟩ := exists_eq_of_mem hget hs
    exact nodup_topics_share hnames
  · intro s hs tp htp
    obtain ⟨i, rfl⟩ := exists_eq_of_mem hget hs
    obtain ⟨topic, -, hturn⟩ := mem_flatMap.1 htp
    rw [(mem_turn hturn).2.2]
    exact (nodup_sortedSet _).sublist (slice_isInfix _ _ _).sublist
  · intro i s hs tp htp
    rw [eq_of_getElem? hget hs] at htp
    obtain ⟨topic, -, hturn⟩ := mem_flatMap.1 htp
    exact (mem_subscribers.1 (mem_turn hturn).2.1).2
  · intro s hs t ht
    obtain ⟨i, rfl⟩ := exists_eq_of_mem hget hs
    obtain ⟨topic, htopic, hname, -, hp⟩ := mem_topitionsOf_share.1 ht
    exact MetadataResponse.mem_topitions.2
      ⟨topic, htopic, hname, (slice_isInfix _ _ _).subset hp⟩
  · intro t ht hne
    obtain ⟨topic, htopic, hname, hp⟩ := MetadataResponse.mem_topitions.1 ht
    rw [← flatMap_part hne] at hp
    obtain ⟨j, hj, hpj⟩ := mem_flatMap.1 hp
    have hj' := mem_range.1 hj
    have hi := getElem_mem hj'
    refine ⟨(subscribers memberSubs t.topic)[j],
      (metadata.topics.getD []).flatMap (turn memberSubs (subscribers memberSubs t.topic)[j]),
        ?_, ?_⟩
    · rw [allocate_getElem?, if_pos (mem_subscribers.1 hi).1]
    · refine mem_topitionsOf_share.2 ⟨topic, htopic, hname, hi, ?_⟩
      rw [(nodup_subscribers memberSubs t.topic).idxOf_getElem]
      exact hpj
  · intro i j s s' t hs hs' ht ht'
    rw [eq_of_getElem? hget hs] at ht
    rw [eq_of_getElem? hget hs'] at ht'
    obtain ⟨topic, htopic, hname, hi, hp⟩ := mem_topitionsOf_share.1 ht
    obtain ⟨topic', htopic', hname', hj, hp'⟩ := mem_topitionsOf_share.1 ht'
    cases eq_of_name hnames htopic htopic' hname hname'
    exact (idxOf_inj hi).1 (part_disjoint (idxOf_lt hi) (idxOf_lt hj) hp hp')

/-- With few enough partitions for a subscriber, no part is too long for the decoder. -/
theorem small (memberSubs : List (List String)) (h : ManageableSubs memberSubs metadata)
    (s : List TopicPartition) (hs : s ∈ allocate memberSubs metadata) (tp : TopicPartition)
    (htp : tp ∈ s) : tp.partitions.length ≤ 1024 := by
  obtain ⟨i, rfl⟩ := exists_eq_of_mem (allocate_getElem? memberSubs metadata) hs
  obtain ⟨topic, htopic, hturn⟩ := mem_flatMap.1 htp
  obtain ⟨hname, hmem, hpart⟩ := mem_turn hturn
  have hle := h topic htopic tp.topic hname (ne_nil_of_mem hmem)
  rw [hpart, length_part (idxOf_lt hmem)]
  exact count_le hle _

/-- With more partitions, the first subscriber's part is too long. -/
theorem long (memberSubs : List (List String)) (h : ¬ ManageableSubs memberSubs metadata) :
    ∃ s ∈ allocate memberSubs metadata, ∃ tp ∈ s, 1024 < tp.partitions.length := by
  simp only [ManageableSubs, not_forall] at h
  obtain ⟨topic, htopic, name, hname, hne, hgt⟩ := h
  have hpos := length_pos_iff.2 hne
  have hmem := getElem_mem hpos
  have hidx : (subscribers memberSubs name).idxOf (subscribers memberSubs name)[0] = 0 :=
    (nodup_subscribers memberSubs name).idxOf_getElem 0 hpos
  have hcount := lt_count_zero hpos (Nat.lt_of_not_le hgt)
  have hlength : (part memberSubs topic name 0).length = _ := length_part hpos
  refine ⟨(metadata.topics.getD []).flatMap (turn memberSubs (subscribers memberSubs name)[0]), ?_,
    ⟨name, part memberSubs topic name 0⟩, mem_flatMap.2 ⟨topic, htopic, ?_⟩, by
      simp only; omega⟩
  · refine mem_of_getElem? (i := (subscribers memberSubs name)[0]) ?_
    rw [allocate_getElem?, if_pos (mem_subscribers.1 hmem).1]
  · simp only [turn, hname]
    rw [if_pos hmem, given, hidx, if_neg (by omega)]
    exact mem_singleton.2 rfl

theorem partitionsOf_share (hnames : Named metadata) (htopic : topic ∈ metadata.topics.getD [])
    (hname : topic.name = some name) (hi : i ∈ subscribers memberSubs name) :
    partitionsOf name (topitionsOf ((metadata.topics.getD []).flatMap (turn memberSubs i))) =
      part memberSubs topic name ((subscribers memberSubs name).idxOf i) := by
  by_cases hentry : ∃ tp ∈ (metadata.topics.getD []).flatMap (turn memberSubs i), tp.topic = name
  · obtain ⟨tp, htp, rfl⟩ := hentry
    obtain ⟨topic', htopic', hturn⟩ := mem_flatMap.1 htp
    obtain ⟨hname', -, hpart⟩ := mem_turn hturn
    cases eq_of_name hnames htopic htopic' hname hname'
    rw [partitionsOf_of_mem (nodup_topics_share hnames) htp, hpart]
  · have hnone : part memberSubs topic name ((subscribers memberSubs name).idxOf i) = [] := by
      rw [eq_nil_iff_forall_not_mem]
      intro p hp
      obtain ⟨tp, htp, htopic', -⟩ := mem_topitionsOf.1
        (mem_topitionsOf_share.2 ⟨topic, htopic, hname, hi, hp⟩ :
          (⟨name, p⟩ : Topition) ∈ topitionsOf _)
      exact hentry ⟨tp, htp, htopic'⟩
    rw [hnone]
    exact partitionsOf_eq_nil fun tp htp heq => hentry ⟨tp, htp, heq⟩

theorem partitionsOf_share_of_not_mem (hi : i ∉ subscribers memberSubs name) :
    partitionsOf name (topitionsOf ((metadata.topics.getD []).flatMap (turn memberSubs i))) =
      [] := by
  refine partitionsOf_eq_nil fun tp htp heq => hi ?_
  obtain ⟨topic, -, hturn⟩ := mem_flatMap.1 htp
  exact heq ▸ (mem_turn hturn).2.1

end RangeAssignor

end Tansu.Consumer
