import Tansu.Consumer.Shares

/-!
# What the round robin assignor gives to whom

The loop is followed through its log: who was given which topition, in order.
A topition whose topic has a subscriber is given to one, and a run of topitions
with the same subscribers goes round them in turn.  As the topitions are sorted
by topic, that is true of each topic's partitions, and of all of them when the
members subscribe to the same topics.
-/

namespace Tansu.Consumer.RoundRobinAssignor

open Lib Std List

variable {memberSubs : List (List String)} {metadata : MetadataResponse} {name : String}

/-! ## The inner loop -/

variable {left counter counter' i : Nat} {topitions : List Topition} {t : Topition} {idx j : Nat}
  {S : Nat → Prop} {count : Nat → Nat}

theorem next_some (hpos : 0 < memberSubs.length)
    (h : next memberSubs name left counter = (counter', some idx)) :
    idx ∈ subscribers memberSubs name := by
  induction left generalizing counter with
  | zero => cases h
  | succ left ih =>
    unfold next at h
    simp only at h
    split at h
    next hsub =>
      cases h
      exact mem_subscribers.2 ⟨Nat.mod_lt _ hpos, hsub⟩
    next => exact ih h

theorem next_none (h : next memberSubs name left counter = (counter', none)) :
    counter' = counter + left ∧
      ∀ k < left, ¬ subscribes memberSubs name ((counter + k) % memberSubs.length) := by
  induction left generalizing counter with
  | zero =>
    cases h
    exact ⟨rfl, fun k hk => absurd hk (Nat.not_lt_zero k)⟩
  | succ left ih =>
    unfold next at h
    simp only at h
    split at h
    next => cases h
    next hsub =>
      obtain ⟨hcounter, hrest⟩ := ih h
      refine ⟨by omega, fun k hk => ?_⟩
      cases k with
      | zero => simpa using hsub
      | succ k =>
        have := hrest k (by omega)
        rwa [Nat.add_right_comm, Nat.add_assoc] at this

theorem next_none_of_length
    (h : next memberSubs name memberSubs.length counter = (counter', none)) :
    counter' = counter + memberSubs.length ∧ subscribers memberSubs name = [] := by
  obtain ⟨hcounter, hnone⟩ := next_none h
  refine ⟨hcounter, eq_nil_iff_forall_not_mem.2 fun i hi => ?_⟩
  obtain ⟨hlt, hsub⟩ := mem_subscribers.1 hi
  have h := hnone (ahead memberSubs.length counter i) (ahead_lt hlt counter)
  rw [add_ahead_mod hlt] at h
  exact h hsub

/-- One turn: the counter passes those who do not subscribe and serves the first who does. -/
theorem next_inTurn (hS : ∀ i < memberSubs.length, subscribes memberSubs name i ↔ S i)
    (hpos : 0 < memberSubs.length) {count' : Nat → Nat}
    (h : next memberSubs name left counter = (counter', some idx))
    (hturn : InTurn memberSubs.length counter S count)
    (hcount : ∀ i, count' i = count i + if i = idx then 1 else 0) :
    InTurn memberSubs.length counter' S count' := by
  induction left generalizing counter with
  | zero => cases h
  | succ left ih =>
    have hlt := Nat.mod_lt counter hpos
    unfold next at h
    simp only at h
    split at h
    next hsub =>
      cases h
      exact hturn.take hcount
    next hsub => exact ih h (hturn.skip fun hin => hsub ((hS _ hlt).2 hin))

/-! ## The log -/

/-- The counter after the topitions. -/
def after (memberSubs : List (List String)) (topitions : List Topition) (counter : Nat) : Nat :=
  topitions.foldl (fun counter t => (next memberSubs t.topic memberSubs.length counter).1) counter

/-- Who is given which topition. -/
def log (memberSubs : List (List String)) : List Topition → Nat → List (Nat × Topition)
  | [], _ => []
  | t :: ts, counter =>
    match next memberSubs t.topic memberSubs.length counter with
    | (counter', some idx) => (idx, t) :: log memberSubs ts counter'
    | (counter', none) => log memberSubs ts counter'

/-- What a member is given. -/
def dealtTo (i : Nat) (entries : List (Nat × Topition)) : List Topition :=
  (entries.filter (·.1 = i)).map (·.2)

theorem log_append (xs ys : List Topition) (counter : Nat) :
    log memberSubs (xs ++ ys) counter =
      log memberSubs xs counter ++ log memberSubs ys (after memberSubs xs counter) := by
  induction xs generalizing counter with
  | nil => rfl
  | cons t xs ih =>
    rw [cons_append, log, log, after, foldl_cons]
    rcases next memberSubs t.topic memberSubs.length counter with ⟨counter', _ | idx⟩
    · exact ih counter'
    · simp only [cons_append]
      rw [ih counter']
      rfl

theorem fold_getElem? (topitions : List Topition) (assignments : List (List Topition))
    (counter i : Nat) :
    (topitions.foldl (step memberSubs) (assignments, counter)).1[i]? =
      assignments[i]?.map (· ++ dealtTo i (log memberSubs topitions counter)) := by
  induction topitions generalizing assignments counter with
  | nil => simp [log, dealtTo]
  | cons t ts ih =>
    rw [foldl_cons, log, step]
    simp only
    rcases next memberSubs t.topic memberSubs.length counter with ⟨counter', _ | idx⟩
    · exact ih assignments counter'
    · simp only
      rw [ih, List.getElem?_modify]
      by_cases hi : idx = i
      · simp [hi, dealtTo, Function.comp_def]
      · simp [hi, dealtTo]

theorem allocate_getElem? (memberSubs : List (List String))
    (metadata : MetadataResponse) (i : Nat) :
    (allocate memberSubs metadata)[i]? = if i < memberSubs.length then
      some (topicPartitions (dealtTo i (log memberSubs metadata.topitions 0))) else none := by
  rw [allocate, List.getElem?_map, fold_getElem?, getElem?_replicate]
  split <;> simp

theorem log_sublist (memberSubs : List (List String)) (topitions : List Topition) (counter : Nat) :
    ((log memberSubs topitions counter).map (·.2)).Sublist topitions := by
  induction topitions generalizing counter with
  | nil => exact List.Sublist.slnil
  | cons t ts ih =>
    rw [log]
    rcases next memberSubs t.topic memberSubs.length counter with ⟨counter', _ | idx⟩
    · exact (ih counter').cons t
    · exact (ih counter').cons_cons t

theorem mem_log {e : Nat × Topition} (h : e ∈ log memberSubs topitions counter) :
    e.1 ∈ subscribers memberSubs e.2.topic ∧ e.2 ∈ topitions := by
  refine ⟨?_, (log_sublist memberSubs topitions counter).subset (List.mem_map_of_mem h)⟩
  induction topitions generalizing counter with
  | nil => cases h
  | cons t ts ih =>
    rw [log] at h
    rcases hnext : next memberSubs t.topic memberSubs.length counter with ⟨counter', _ | idx⟩
    · rw [hnext] at h
      exact ih h
    · rw [hnext] at h
      rcases mem_cons.1 h with rfl | hrest
      · refine next_some (Nat.pos_of_ne_zero fun hzero => ?_) hnext
        rw [hzero] at hnext
        cases hnext
      · exact ih hrest

theorem exists_mem_log (counter : Nat) (ht : t ∈ topitions)
    (hne : subscribers memberSubs t.topic ≠ []) :
    ∃ idx, (idx, t) ∈ log memberSubs topitions counter := by
  induction topitions generalizing counter with
  | nil => cases ht
  | cons x ts ih =>
    rw [log]
    rcases hnext : next memberSubs x.topic memberSubs.length counter with ⟨counter', _ | idx⟩
    · rcases mem_cons.1 ht with rfl | hrest
      · exact absurd (next_none_of_length hnext).2 hne
      · exact ih counter' hrest
    · rcases mem_cons.1 ht with rfl | hrest
      · exact ⟨idx, mem_cons_self⟩
      · obtain ⟨i, hi⟩ := ih counter' hrest
        exact ⟨i, mem_cons_of_mem _ hi⟩

/-! ## Taking turns -/

/-- Topitions with the same subscribers, or with none, go round those subscribers in turn. -/
theorem log_inTurn
    (h : ∀ t ∈ topitions, (∀ i < memberSubs.length, subscribes memberSubs t.topic i ↔ S i) ∨
      subscribers memberSubs t.topic = []) (counter : Nat)
    (hturn : InTurn memberSubs.length counter S count) :
    InTurn memberSubs.length (after memberSubs topitions counter) S fun i =>
      count i + ((log memberSubs topitions counter).map (·.1)).count i := by
  induction topitions generalizing counter count with
  | nil => simpa [after, log] using hturn
  | cons t ts ih =>
    have hrest := fun x hx => h x (mem_cons_of_mem t hx)
    rw [log, after, foldl_cons]
    rcases hnext : next memberSubs t.topic memberSubs.length counter with ⟨counter', _ | idx⟩
    · have hcounter := (next_none_of_length hnext).1
      have hround := hturn.round
      rw [← hcounter] at hround
      exact ih hrest counter' hround
    · have hpos : 0 < memberSubs.length := by
        refine Nat.pos_of_ne_zero fun hzero => ?_
        rw [hzero] at hnext
        cases hnext
      have hidx := next_some hpos hnext
      have hS := (h t mem_cons_self).resolve_right (ne_nil_of_mem hidx)
      have hserved : InTurn memberSubs.length counter' S fun i =>
          count i + if i = idx then 1 else 0 := next_inTurn hS hpos hnext hturn fun _ => rfl
      refine (ih hrest counter' hserved).congr fun i => ?_
      simp only [map_cons, count_cons, beq_iff_eq]
      split <;> split <;> omega

theorem exists_block (name : String) (hsorted : topitions.Pairwise fun a b => compare a b = .lt) :
    ∃ before block behind, topitions = before ++ block ++ behind ∧
      (∀ t ∈ before, t.topic ≠ name) ∧ (∀ t ∈ block, t.topic = name) ∧
      ∀ t ∈ behind, t.topic ≠ name := by
  have htopic {a b : Topition} (h : compare a b = .lt) : (compare a.topic b.topic).isLE := by
    change (compare a.topic b.topic).then (compare a.partition b.partition) = .lt at h
    rcases hcompare : compare a.topic b.topic with _ | _ | _
    · rfl
    · rfl
    · rw [hcompare] at h
      cases h
  induction topitions with
  | nil => exact ⟨[], [], [], rfl, by simp, by simp, by simp⟩
  | cons t ts ih =>
    obtain ⟨hhead, htail⟩ := pairwise_cons.1 hsorted
    obtain ⟨before, block, behind, rfl, hbefore, hblock, hbehind⟩ := ih htail
    by_cases ht : t.topic = name
    · cases block with
      | nil =>
        refine ⟨[], [t], before ++ behind, by simp, by simp, by simp [ht], ?_⟩
        intro x hx
        exact (mem_append.1 hx).elim (hbefore x) (hbehind x)
      | cons y block =>
        have hnil : before = [] := by
          rw [eq_nil_iff_forall_not_mem]
          intro x hx
          have hy := hblock y mem_cons_self
          have hxy : compare x y = .lt := by
            have := pairwise_append.1 (pairwise_append.1 htail).1
            exact this.2.2 x hx y mem_cons_self
          have htx := htopic (hhead x (by simp [hx]))
          have hxy' := htopic hxy
          rw [ht] at htx
          rw [hy] at hxy'
          exact hbefore x hx (LawfulEqCmp.eq_of_compare (OrientedCmp.isLE_antisymm hxy' htx))
        subst hnil
        exact ⟨[], t :: y :: block, behind, rfl, by simp, by simpa [ht] using hblock, hbehind⟩
    · exact ⟨t :: before, block, behind, by simp, by simpa [ht] using hbefore, hblock, hbehind⟩

/-! ## A member's share -/

theorem topicMap_getElem? (topitions : List Topition) (name : String) :
    (topicMap topitions)[name]? = if partitionsOf name topitions = [] then none
      else some (partitionsOf name topitions) := by
  induction topitions using List.reverseRecOn with
  | nil => simp [topicMap, partitionsOf]
  | append_singleton ts t ih =>
    have hfold : topicMap (ts ++ [t]) = (topicMap ts).alter t.topic
        fun o => some (o.getD [] ++ [t.partition]) := by simp [topicMap]
    rw [hfold, BTreeMap.getElem?_alter_eq, ih, partitionsOf_append]
    split
    next ht =>
      have hone : partitionsOf name [t] = [t.partition] := by simp [partitionsOf, ht]
      rw [hone]
      split
      next hnil => simp [hnil]
      next => simp
    next ht =>
      have hone : partitionsOf name [t] = [] := by simp [partitionsOf, ht]
      rw [hone, append_nil]

theorem mem_topicPartitions {tp : TopicPartition} :
    tp ∈ topicPartitions topitions ↔
      tp.partitions ≠ [] ∧ tp.partitions = partitionsOf tp.topic topitions := by
  have hentry : tp ∈ topicPartitions topitions ↔
      (topicMap topitions)[tp.topic]? = some tp.partitions := by
    rw [← ExtTreeMap.mem_toList_iff_getElem?_eq_some, topicPartitions, List.mem_map]
    constructor
    · rintro ⟨entry, hmem, rfl⟩
      exact hmem
    · intro hmem
      exact ⟨_, hmem, rfl⟩
  rw [hentry, topicMap_getElem?]
  split
  next hnil =>
    rw [hnil]
    constructor
    · rintro ⟨⟩
    · rintro ⟨hne, heq⟩
      exact absurd heq hne
  next hne =>
    rw [Option.some.injEq]
    constructor
    · rintro heq
      exact ⟨heq ▸ hne, heq.symm⟩
    · rintro ⟨-, heq⟩
      exact heq.symm

theorem nodup_topics (topitions : List Topition) :
    ((topicPartitions topitions).map (·.topic)).Nodup := by
  rw [topicPartitions, List.map_map]
  refine pairwise_map.2 (ExtTreeMap.distinct_keys_toList.imp fun h heq => h ?_)
  simp only [Function.comp_apply] at heq
  rw [heq]
  exact compare_self

theorem mem_topitionsOf_topicPartitions :
    t ∈ topitionsOf (topicPartitions topitions) ↔ t ∈ topitions := by
  have hpartitions : t.partition ∈ partitionsOf t.topic topitions ↔ t ∈ topitions := by
    simp only [partitionsOf, List.mem_map, List.mem_filter, decide_eq_true_eq]
    constructor
    · rintro ⟨x, ⟨hx, htopic⟩, hpartition⟩
      cases x
      cases t
      simp_all
    · intro ht
      exact ⟨t, ⟨ht, rfl⟩, rfl⟩
  rw [mem_topitionsOf, ← hpartitions]
  constructor
  · rintro ⟨tp, htp, htopic, hp⟩
    rw [(mem_topicPartitions.1 htp).2, htopic] at hp
    exact hp
  · intro hp
    exact ⟨⟨t.topic, partitionsOf t.topic topitions⟩,
      mem_topicPartitions.2 ⟨ne_nil_of_mem hp, rfl⟩, rfl, hp⟩

theorem partitionsOf_topicPartitions (topitions : List Topition) (name : String) :
    partitionsOf name (topitionsOf (topicPartitions topitions)) = partitionsOf name topitions := by
  by_cases hnil : partitionsOf name topitions = []
  · rw [hnil]
    refine partitionsOf_eq_nil fun tp htp heq => ?_
    obtain ⟨hne, hpartitions⟩ := mem_topicPartitions.1 htp
    rw [hpartitions, heq] at hne
    exact hne hnil
  · exact partitionsOf_of_mem (nodup_topics topitions)
      (mem_topicPartitions.2 ⟨hnil, rfl⟩ :
        (⟨name, partitionsOf name topitions⟩ : TopicPartition) ∈ _)

theorem mem_dealtTo {entries : List (Nat × Topition)} :
    t ∈ dealtTo i entries ↔ (i, t) ∈ entries := by
  simp only [dealtTo, List.mem_map, List.mem_filter, decide_eq_true_eq]
  constructor
  · rintro ⟨⟨j, x⟩, ⟨hmem, rfl⟩, rfl⟩
    exact hmem
  · intro h
    exact ⟨(i, t), ⟨h, rfl⟩, rfl⟩

theorem nodup_topitions (metadata : MetadataResponse) : metadata.topitions.Nodup :=
  nodup_sortedSet _

theorem pairwise_topitions (metadata : MetadataResponse) :
    metadata.topitions.Pairwise fun a b => compare a b = .lt := pairwise_sortedSet _

theorem nodup_dealtTo (i : Nat) : (dealtTo i (log memberSubs metadata.topitions 0)).Nodup :=
  (nodup_topitions metadata).sublist
    ((filter_sublist.map _).trans (log_sublist memberSubs metadata.topitions 0))

theorem divides (memberSubs : List (List String)) :
    Divides memberSubs metadata (allocate memberSubs metadata) := by
  have hget := allocate_getElem? memberSubs metadata
  refine ⟨?_, ?_, ?_, ?_, ?_, ?_, ?_⟩
  · exact length_of_getElem? hget
  · intro s hs
    obtain ⟨i, rfl⟩ := exists_eq_of_mem hget hs
    exact nodup_topics _
  · intro s hs tp htp
    obtain ⟨i, rfl⟩ := exists_eq_of_mem hget hs
    rw [(mem_topicPartitions.1 htp).2]
    exact nodup_partitionsOf _ (nodup_dealtTo i)
  · intro i s hs tp htp
    rw [eq_of_getElem? hget hs] at htp
    obtain ⟨hne, hpartitions⟩ := mem_topicPartitions.1 htp
    obtain ⟨p, hp⟩ := exists_mem_of_ne_nil _ hne
    have ht : (⟨tp.topic, p⟩ : Topition) ∈ topitionsOf (topicPartitions _) :=
      mem_topitionsOf.2 ⟨tp, htp, rfl, hp⟩
    rw [mem_topitionsOf_topicPartitions, mem_dealtTo] at ht
    exact (mem_subscribers.1 (mem_log ht).1).2
  · intro s hs t ht
    obtain ⟨i, rfl⟩ := exists_eq_of_mem hget hs
    rw [mem_topitionsOf_topicPartitions, mem_dealtTo] at ht
    exact (mem_log ht).2
  · intro t ht hne
    obtain ⟨i, hi⟩ := exists_mem_log 0 ht hne
    refine ⟨i, topicPartitions (dealtTo i (log memberSubs metadata.topitions 0)), ?_, ?_⟩
    · rw [allocate_getElem?, if_pos (mem_subscribers.1 (mem_log hi).1).1]
    · rw [mem_topitionsOf_topicPartitions, mem_dealtTo]
      exact hi
  · intro i j s s' t hs hs' ht ht'
    rw [eq_of_getElem? hget hs, mem_topitionsOf_topicPartitions, mem_dealtTo] at ht
    rw [eq_of_getElem? hget hs', mem_topitionsOf_topicPartitions, mem_dealtTo] at ht'
    have hnodup := (nodup_topitions metadata).sublist
      (log_sublist memberSubs metadata.topitions 0)
    have := inj_on_of_nodup_map hnodup ht ht' rfl
    exact (Prod.mk.inj this).1

/-! ## Even shares -/

/-- To whom the partitions of a topic went, in order. -/
def takers (memberSubs : List (List String)) (metadata : MetadataResponse) (name : String) :
    List Nat :=
  ((log memberSubs metadata.topitions 0).filter (·.2.topic = name)).map (·.1)

theorem length_partitionsOf_share (memberSubs : List (List String)) (metadata : MetadataResponse)
    (name : String) (i : Nat) :
    (partitionsOf name (topitionsOf (topicPartitions
      (dealtTo i (log memberSubs metadata.topitions 0))))).length =
        (takers memberSubs metadata name).count i := by
  rw [partitionsOf_topicPartitions, partitionsOf, dealtTo, takers, length_map,
    List.filter_map, length_map, List.filter_filter, List.count, countP_map,
    countP_filter, countP_eq_length_filter]
  congr 1
  refine filter_congr fun e _ => ?_
  rw [Bool.eq_iff_iff]
  simp [and_comm]

/-- The partitions of a topic are given out in one stretch of the loop. -/
theorem exists_takers_eq (memberSubs : List (List String)) (metadata : MetadataResponse)
    (name : String) : ∃ block counter,
      takers memberSubs metadata name = (log memberSubs block counter).map (·.1) ∧
      block.Sublist metadata.topitions ∧ ∀ t ∈ block, t.topic = name := by
  obtain ⟨before, block, behind, hsplit, hbefore, hblock, hbehind⟩ :=
    exists_block name (pairwise_topitions metadata)
  refine ⟨block, after memberSubs before 0, ?_, ?_, hblock⟩
  · have hskip {topitions : List Topition} (h : ∀ t ∈ topitions, t.topic ≠ name) (counter : Nat) :
        (log memberSubs topitions counter).filter (·.2.topic = name) = [] := by
      rw [filter_eq_nil_iff]
      intro e he
      simpa using h e.2 (mem_log he).2
    have hkeep (counter : Nat) :
        (log memberSubs block counter).filter (·.2.topic = name) =
          log memberSubs block counter := by
      rw [filter_eq_self]
      intro e he
      simpa using hblock e.2 (mem_log he).2
    rw [takers, hsplit, log_append, log_append, filter_append, filter_append,
      hskip hbefore, hskip hbehind, hkeep, nil_append, append_nil]
  · rw [hsplit]
    exact (sublist_append_right _ _).trans (sublist_append_left _ _)

theorem mem_takers (h : i ∈ takers memberSubs metadata name) : i ∈ subscribers memberSubs name := by
  obtain ⟨e, he, rfl⟩ := List.mem_map.1 h
  obtain ⟨hlog, htopic⟩ := List.mem_filter.1 he
  have hentry := (mem_log hlog).1
  rwa [of_decide_eq_true htopic] at hentry

theorem takers_even (hi : i ∈ subscribers memberSubs name) (hj : j ∈ subscribers memberSubs name) :
    (takers memberSubs metadata name).count i ≤ (takers memberSubs metadata name).count j + 1 := by
  obtain ⟨block, counter, htakers, -, hblock⟩ := exists_takers_eq memberSubs metadata name
  obtain ⟨hilt, hisub⟩ := mem_subscribers.1 hi
  obtain ⟨hjlt, hjsub⟩ := mem_subscribers.1 hj
  have hturn := log_inTurn (S := fun k => subscribes memberSubs name k = true)
    (fun t ht => .inl fun k _ => by rw [hblock t ht]) counter (InTurn.of_zero fun _ => rfl)
  rw [htakers]
  simpa using hturn.balanced hilt hjlt hisub hjsub

theorem small (hnames : Named metadata) (memberSubs : List (List String))
    (h : ManageableSubs memberSubs metadata) (s : List TopicPartition)
    (hs : s ∈ allocate memberSubs metadata) (tp : TopicPartition) (htp : tp ∈ s) :
    tp.partitions.length ≤ 1024 := by
  obtain ⟨i, hi⟩ := mem_iff_getElem?.1 hs
  have hsubscribed := (divides memberSubs).subscribed i s hi tp htp
  have hknown := (divides memberSubs).known s hs
  rw [allocate_getElem?] at hi
  split at hi
  next hlt =>
    cases hi
    have hmem : i ∈ subscribers memberSubs tp.topic := mem_subscribers.2 ⟨hlt, hsubscribed⟩
    have hlength := length_partitionsOf_share memberSubs metadata tp.topic i
    rw [partitionsOf_of_mem (nodup_topics _) htp] at hlength
    rw [hlength]
    -- the topic the partitions belong to
    obtain ⟨p, hp⟩ := exists_mem_of_ne_nil _ (mem_topicPartitions.1 htp).1
    have hp' := hknown ⟨tp.topic, p⟩ (mem_topitionsOf.2 ⟨tp, htp, rfl, hp⟩)
    obtain ⟨topic, htopic, hname, -⟩ := MetadataResponse.mem_topitions.1 hp'
    have hle := h topic htopic tp.topic hname (ne_nil_of_mem hmem)
    obtain ⟨block, counter, htakers, hsub, hblock⟩ := exists_takers_eq memberSubs metadata tp.topic
    have hblocklen : block.length ≤ topic.indexes.length := by
      have hnodup : (block.map (·.partition)).Nodup := by
        have hall : block.filter (·.topic = tp.topic) = block :=
          filter_eq_self.2 fun t ht => by simpa using hblock t ht
        have h := nodup_partitionsOf tp.topic ((nodup_topitions metadata).sublist hsub)
        rwa [partitionsOf, hall] at h
      have hsubset : block.map (·.partition) ⊆ topic.indexes := by
        intro q hq
        obtain ⟨t, ht, rfl⟩ := List.mem_map.1 hq
        obtain ⟨topic', htopic', hname', hq'⟩ := MetadataResponse.mem_topitions.1 (hsub.subset ht)
        rw [hblock t ht] at hname'
        cases eq_of_name hnames htopic htopic' hname hname'
        exact hq'
      simpa using (subperm_of_subset hnodup hsubset).length_le
    refine count_le_of_even (S := (subscribers memberSubs tp.topic).toFinset) ?_ ?_ ?_
      (List.mem_toFinset.2 hmem)
    · exact fun k hk => List.mem_toFinset.2 (mem_takers hk)
    · intro k hk l hl
      exact takers_even (List.mem_toFinset.1 hk) (List.mem_toFinset.1 hl)
    · rw [toFinset_card_of_nodup (nodup_subscribers memberSubs tp.topic), htakers,
        length_map]
      have hlog := (log_sublist memberSubs block counter).length_le
      rw [length_map] at hlog
      omega
  next => cases hi

theorem long (memberSubs : List (List String)) (h : ¬ ManageableSubs memberSubs metadata) :
    ∃ s ∈ allocate memberSubs metadata, ∃ tp ∈ s, 1024 < tp.partitions.length := by
  simp only [ManageableSubs, not_forall] at h
  obtain ⟨topic, htopic, name, hname, hne, hgt⟩ := h
  -- every partition of the topic went to somebody
  have hall : topic.indexes.length ≤ (takers memberSubs metadata name).length := by
    have hsubset : topic.indexes ⊆ (((log memberSubs metadata.topitions 0).filter
        (·.2.topic = name)).map (·.2.partition)) := by
      intro p hp
      have ht : (⟨name, p⟩ : Topition) ∈ metadata.topitions :=
        MetadataResponse.mem_topitions.2 ⟨topic, htopic, hname, hp⟩
      obtain ⟨k, hk⟩ := exists_mem_log 0 ht hne
      exact List.mem_map.2 ⟨_, List.mem_filter.2 ⟨hk, by simp⟩, rfl⟩
    have hle := (subperm_of_subset (nodup_sortedSet _ : topic.indexes.Nodup) hsubset).length_le
    rw [length_map] at hle
    rwa [takers, length_map]
  have hmem : ∀ i ∈ takers memberSubs metadata name, i ∈ (subscribers memberSubs name).toFinset :=
    fun i hi => List.mem_toFinset.2 (mem_takers hi)
  have hmore : 1024 * (subscribers memberSubs name).toFinset.card <
      (takers memberSubs metadata name).length := by
    rw [toFinset_card_of_nodup (nodup_subscribers memberSubs name)]
    omega
  obtain ⟨k, hk, hcount⟩ := exists_lt_count hmem hmore
  rw [← length_partitionsOf_share, partitionsOf_topicPartitions] at hcount
  refine ⟨topicPartitions (dealtTo k (log memberSubs metadata.topitions 0)), ?_,
    ⟨name, partitionsOf name (dealtTo k (log memberSubs metadata.topitions 0))⟩, ?_, hcount⟩
  · refine mem_of_getElem? (i := k) ?_
    rw [allocate_getElem?, if_pos (mem_subscribers.1 (List.mem_toFinset.1 hk)).1]
  · refine mem_topicPartitions.2 ⟨?_, rfl⟩
    rw [← length_pos_iff]
    exact (Nat.zero_le 1024).trans_lt hcount

/-- When a topic has every member or none for a subscriber, the members have equally many
partitions, give or take one. -/
theorem share_even (huniform : ∀ t ∈ metadata.topitions, subscribers memberSubs t.topic = [] ∨
      ∀ k < memberSubs.length, subscribes memberSubs t.topic k) {s s' : List TopicPartition}
    (hs : (allocate memberSubs metadata)[i]? = some s)
    (hs' : (allocate memberSubs metadata)[j]? = some s') :
    (topitionsOf s).length ≤ (topitionsOf s').length + 1 := by
  have hlength (k : Nat) : (topitionsOf (topicPartitions
      (dealtTo k (log memberSubs metadata.topitions 0)))).length =
        ((log memberSubs metadata.topitions 0).map (·.1)).count k := by
    have hperm : (topitionsOf (topicPartitions
      (dealtTo k (log memberSubs metadata.topitions 0)))).Perm
        (dealtTo k (log memberSubs metadata.topitions 0)) := by
      refine (perm_ext_iff_of_nodup ?_ (nodup_dealtTo k)).2 fun t =>
        mem_topitionsOf_topicPartitions
      refine nodup_topitionsOf (nodup_topics _) fun tp htp => ?_
      rw [(mem_topicPartitions.1 htp).2]
      exact nodup_partitionsOf _ (nodup_dealtTo k)
    rw [hperm.length_eq, dealtTo, length_map, List.count, countP_map,
      countP_eq_length_filter]
    rfl
  rw [allocate_getElem?] at hs hs'
  split at hs
  next hi =>
    split at hs'
    next hj =>
      cases hs
      cases hs'
      rw [hlength, hlength]
      have hturn := log_inTurn (S := fun _ => True)
        (fun t ht => (huniform t ht).symm.imp (fun hall k hk => by simp [hall k hk]) id) 0
        (InTurn.of_zero fun _ => rfl)
      simpa using hturn.balanced hi hj True.intro True.intro
    next => cases hs'
  next => cases hs

end Tansu.Consumer.RoundRobinAssignor
