import Tansu.Consumer.Range
import Tansu.Consumer.RoundRobin

/-!
# The assignors divide the partitions

Both assignors give every partition of a subscribed topic to exactly one of its
subscribers and nothing else to anybody, and the answer depends on the set of
members alone.  A topic's subscribers get equally many of its partitions, give
or take one.  Over all topics that is true of the round robin assignor when the
members subscribe to the same topics: its one counter also moves past the
members that do not subscribe, and where the subscriptions differ it can pass
the same member each time.
-/

namespace Tansu.Consumer

open Lib Std List

section

variable {members : List JoinGroupResponseMember} {metadata : MetadataResponse}
  {memberSubs : List (List String)} {result : List SyncGroupRequestAssignment}
  {shares : List (List TopicPartition)} {name : String}

theorem RangeAssignor.contiguous (hnames : Named metadata)
    {sorted : List JoinGroupResponseMember}
    (hresult : List.Forall₂ Encodes (sorted.zip (RangeAssignor.allocate memberSubs metadata))
      result) : Contiguous metadata result := by
  intro topic htopic name hname a ha
  obtain ⟨i, hi⟩ := mem_iff_getElem?.1 ha
  obtain ⟨m, s, -, hs, hencodes⟩ := exists_of_getElem? hresult hi
  rw [RangeAssignor.allocate_getElem?] at hs
  split at hs
  next =>
    cases hs
    rw [hencodes.assigned]
    by_cases hmem : i ∈ subscribers memberSubs name
    · rw [RangeAssignor.partitionsOf_share hnames htopic hname hmem]
      exact slice_isInfix _ _ _
    · rw [RangeAssignor.partitionsOf_share_of_not_mem hmem]
      exact nil_infix
  next => cases hs

section

variable (hids : (members.map (·.memberId)).Nodup)
  (hsubs : Subscriptions (sortById members) memberSubs)
include hids hsubs

theorem mem_subscribers_of_subscribed
    (hresult : List.Forall₂ Encodes ((sortById members).zip shares) result)
    {i : Nat} {a : SyncGroupRequestAssignment} (ha : result[i]? = some a)
    (h : Subscribed members name a) : i ∈ subscribers memberSubs name := by
  obtain ⟨m, s, hm, -, hencodes⟩ := exists_of_getElem? hresult ha
  obtain ⟨m', hm', hid, hsub⟩ := h
  have hmem := (perm_sortById members).mem_iff.1 (mem_of_getElem? hm)
  have heq : m' = m := inj_on_of_nodup_map hids hm' hmem (hid.trans hencodes.memberId)
  refine mem_subscribers.2 ⟨?_, ?_⟩
  · rw [← hsubs.length_eq]
    exact (List.getElem?_eq_some_iff.1 hm).1
  · rw [subscribes_eq hsubs hm, ← heq]
    exact hsub

theorem RangeAssignor.evenByTopic (hnames : Named metadata)
    (hresult : List.Forall₂ Encodes
      ((sortById members).zip (RangeAssignor.allocate memberSubs metadata)) result) :
    EvenByTopic members metadata result := by
  intro topic htopic name hname a ha b hb hasub hbsub
  have hlength {c : SyncGroupRequestAssignment} (hc : c ∈ result)
      (hsub : Subscribed members name c) :
      ∃ j, (partitionsOf name c.assigned).length =
        RangeAssignor.count (topic.indexes.length / (subscribers memberSubs name).length)
          (topic.indexes.length % (subscribers memberSubs name).length) j := by
    obtain ⟨i, hi⟩ := mem_iff_getElem?.1 hc
    have hmem := mem_subscribers_of_subscribed hids hsubs hresult hi hsub
    obtain ⟨m, s, -, hs, hencodes⟩ := exists_of_getElem? hresult hi
    rw [RangeAssignor.allocate_getElem?, if_pos (mem_subscribers.1 hmem).1] at hs
    cases hs
    refine ⟨(subscribers memberSubs name).idxOf i, ?_⟩
    rw [hencodes.assigned, RangeAssignor.partitionsOf_share hnames htopic hname hmem,
      RangeAssignor.length_part (RangeAssignor.idxOf_lt hmem)]
  obtain ⟨j, hj⟩ := hlength ha hasub
  obtain ⟨k, hk⟩ := hlength hb hbsub
  rw [hj, hk, RangeAssignor.count, RangeAssignor.count]
  split <;> split <;> omega

theorem RoundRobinAssignor.evenByTopic
    (hresult : List.Forall₂ Encodes
      ((sortById members).zip (RoundRobinAssignor.allocate memberSubs metadata)) result) :
    EvenByTopic members metadata result := by
  intro topic _ name _ a ha b hb hasub hbsub
  have hlength {c : SyncGroupRequestAssignment} (hc : c ∈ result)
      (hsub : Subscribed members name c) :
      ∃ i ∈ subscribers memberSubs name, (partitionsOf name c.assigned).length =
        (RoundRobinAssignor.takers memberSubs metadata name).count i := by
    obtain ⟨i, hi⟩ := mem_iff_getElem?.1 hc
    have hmem := mem_subscribers_of_subscribed hids hsubs hresult hi hsub
    obtain ⟨m, s, -, hs, hencodes⟩ := exists_of_getElem? hresult hi
    rw [RoundRobinAssignor.allocate_getElem?, if_pos (mem_subscribers.1 hmem).1] at hs
    cases hs
    refine ⟨i, hmem, ?_⟩
    rw [hencodes.assigned, RoundRobinAssignor.length_partitionsOf_share]
  obtain ⟨i, hi, hlengthi⟩ := hlength ha hasub
  obtain ⟨j, hj, hlengthj⟩ := hlength hb hbsub
  rw [hlengthi, hlengthj]
  exact RoundRobinAssignor.takers_even hi hj

end

/-- The members subscribe to the same of the metadata's topics. -/
def SameTopics (members : List JoinGroupResponseMember) (metadata : MetadataResponse) : Prop :=
  ∀ topic ∈ metadata.topics.getD [], ∀ name, topic.name = some name →
    ∀ m ∈ members, ∀ m' ∈ members, m.subscribes name = m'.subscribes name

/-- All members get as many partitions, give or take one. -/
def Even (result : List SyncGroupRequestAssignment) : Prop :=
  ∀ a ∈ result, ∀ b ∈ result, a.assigned.length ≤ b.assigned.length + 1

theorem RoundRobinAssignor.even (hsame : SameTopics members metadata)
    (hsubs : Subscriptions (sortById members) memberSubs)
    (hresult : List.Forall₂ Encodes
      ((sortById members).zip (RoundRobinAssignor.allocate memberSubs metadata)) result) :
    Even result := by
  have hmember {k : Nat} (hk : k < memberSubs.length) :
      ∃ m ∈ members, (sortById members)[k]? = some m := by
    rw [← hsubs.length_eq] at hk
    exact ⟨_, (perm_sortById members).mem_iff.1 (getElem_mem hk), getElem?_eq_getElem hk⟩
  have huniform : ∀ t ∈ metadata.topitions, subscribers memberSubs t.topic = [] ∨
      ∀ k < memberSubs.length, subscribes memberSubs t.topic k := by
    intro t ht
    obtain ⟨topic, htopic, hname, -⟩ := MetadataResponse.mem_topitions.1 ht
    refine or_iff_not_imp_left.2 fun hne k hk => ?_
    obtain ⟨j, hj⟩ := exists_mem_of_ne_nil _ hne
    obtain ⟨hjlt, hjsub⟩ := mem_subscribers.1 hj
    obtain ⟨m, hm, hmk⟩ := hmember hk
    obtain ⟨m', hm', hmj⟩ := hmember hjlt
    rw [subscribes_eq hsubs hmj] at hjsub
    rw [subscribes_eq hsubs hmk, hsame topic htopic t.topic hname m hm m' hm']
    exact hjsub
  intro a ha b hb
  obtain ⟨i, hi⟩ := mem_iff_getElem?.1 ha
  obtain ⟨j, hj⟩ := mem_iff_getElem?.1 hb
  obtain ⟨_, s, -, hs, hencodes⟩ := exists_of_getElem? hresult hi
  obtain ⟨_, s', -, hs', hencodes'⟩ := exists_of_getElem? hresult hj
  rw [hencodes.assigned, hencodes'.assigned]
  exact RoundRobinAssignor.share_even huniform hs hs'

end

theorem assignWith_eq_of_perm
    {allocate : List (List String) → MetadataResponse → List (List TopicPartition)}
    {members members' : List JoinGroupResponseMember} {metadata : MetadataResponse}
    (hids : (members.map (·.memberId)).Nodup) (hperm : members.Perm members') :
    assignWith allocate members' metadata = assignWith allocate members metadata := by
  rw [assignWith, assignWith, sortById_eq_of_perm hids hperm]

/-- What the range assignor promises. -/
def RangeDivides (members : List JoinGroupResponseMember) (metadata : MetadataResponse) : Prop :=
  ∃ result, RangeAssignor.assign members metadata = .ok result ∧
    Assigns members metadata result ∧ Contiguous metadata result ∧
    EvenByTopic members metadata result

/-- What the round robin assignor promises. -/
def RoundRobinDivides (members : List JoinGroupResponseMember) (metadata : MetadataResponse) :
    Prop :=
  ∃ result, RoundRobinAssignor.assign members metadata = .ok result ∧
    Assigns members metadata result ∧ EvenByTopic members metadata result ∧
    (SameTopics members metadata → Even result)

/-- Both assignors divide the partitions exactly if no share is too long for the decoder of the
assignments, whatever the order of the members.  They work on the subscriptions in the order of
the member ids, where the shares cover the partitions, are disjoint and differ by one at most. -/
theorem assignors_divide_partitions (members : List JoinGroupResponseMember)
    (metadata : MetadataResponse) (hids : (members.map (·.memberId)).Nodup)
    (hdecodable : ∀ m ∈ members, ∃ mm, MemberMetadata.tryFrom m.metadata = .ok mm)
    (hnames : Named metadata) :
    (RangeDivides members metadata ↔ Manageable members metadata) ∧
    (RoundRobinDivides members metadata ↔ Manageable members metadata) ∧
    ∀ members', members.Perm members' →
      RangeAssignor.assign members' metadata = RangeAssignor.assign members metadata ∧
      RoundRobinAssignor.assign members' metadata =
        RoundRobinAssignor.assign members metadata := by
  have htopics : ∀ m ∈ members, ∃ ts, m.topics = .ok ts := by
    intro m hm
    obtain ⟨mm, hmm⟩ := hdecodable m hm
    exact ⟨mm.subscription.topics, by rw [JoinGroupResponseMember.topics, hmm]; rfl⟩
  refine ⟨⟨?_, ?_⟩, ⟨?_, ?_⟩, fun members' hperm =>
    ⟨assignWith_eq_of_perm hids hperm, assignWith_eq_of_perm hids hperm⟩⟩
  · rintro ⟨result, hok, hassigns, -⟩
    by_contra hmanageable
    obtain ⟨a, ha, hundecodable⟩ := assignWith_undecodable htopics (RangeAssignor.divides hnames)
      RangeAssignor.long hmanageable hok
    obtain ⟨ma, hma⟩ := hassigns.decodes a ha
    exact hundecodable ma hma
  · intro hmanageable
    obtain ⟨memberSubs, result, hsubs, hok, hresult⟩ := assignWith_encodes htopics
      (RangeAssignor.divides hnames) RangeAssignor.small hmanageable
    exact ⟨result, hok, (RangeAssignor.divides hnames memberSubs).assigns hsubs hresult,
      RangeAssignor.contiguous hnames hresult,
      RangeAssignor.evenByTopic hids hsubs hnames hresult⟩
  · rintro ⟨result, hok, hassigns, -⟩
    by_contra hmanageable
    obtain ⟨a, ha, hundecodable⟩ := assignWith_undecodable htopics RoundRobinAssignor.divides
      RoundRobinAssignor.long hmanageable hok
    obtain ⟨ma, hma⟩ := hassigns.decodes a ha
    exact hundecodable ma hma
  · intro hmanageable
    obtain ⟨memberSubs, result, hsubs, hok, hresult⟩ := assignWith_encodes htopics
      RoundRobinAssignor.divides (RoundRobinAssignor.small hnames) hmanageable
    exact ⟨result, hok, (RoundRobinAssignor.divides memberSubs).assigns hsubs hresult,
      RoundRobinAssignor.evenByTopic hids hsubs hresult,
      fun hsame => RoundRobinAssignor.even hsame hsubs hresult⟩

/-! ## Runs -/

namespace Division

/-- The metadata of a member that subscribes to topics with one-letter names. -/
def subscription (letters : List UInt8) : Bytes :=
  [0, 0] ++ put (UInt32.ofNat letters.length) ++ letters.flatMap (fun letter => [0, 1, letter]) ++
    [255, 255, 255, 255]

def topic (name : String) (partitions : List Int32) : MetadataResponseTopic :=
  { name := some name, partitions := some (partitions.map fun p => { partitionIndex := p }) }

/-- Two members subscribe to `a` and `b`, out of the order of their ids. -/
def twoMembers : List JoinGroupResponseMember :=
  [⟨"second", subscription [97, 98]⟩, ⟨"first", subscription [97, 98]⟩]

/-- An index of `a` is listed twice. -/
def twoTopics : MetadataResponse := { topics := some [topic "a" [2, 0, 1, 0], topic "b" [7]] }

theorem exists_ok {α : Type} {x : Except Error α} (h : x.isOk) : ∃ a, x = .ok a := by
  cases x with
  | ok a => exact ⟨a, rfl⟩
  | error e => cases h

theorem assignors_divide_two_topics :
    RangeDivides twoMembers twoTopics ∧ RoundRobinDivides twoMembers twoTopics := by
  have hdecodable : ∀ m ∈ twoMembers, (MemberMetadata.tryFrom m.metadata).isOk := by decide +kernel
  have hmanageable : ∀ t ∈ twoTopics.topics.getD [], ∀ name ∈ t.name,
      t.indexes.length ≤ 1024 * twoMembers.countP (·.subscribes name) := by decide +kernel
  have h := assignors_divide_partitions twoMembers twoTopics (by decide)
    (fun m hm => exists_ok (hdecodable m hm)) (by decide : (["a", "b"] : List String).Nodup)
  have hm : Manageable twoMembers twoTopics := fun t ht name hname _ => hmanageable t ht name hname
  exact ⟨h.1.2 hm, h.2.1.2 hm⟩

/-- Two members with the same subscription, and a third with the topics in between. -/
def interleaved : List JoinGroupResponseMember :=
  [⟨"x", subscription [97, 99, 101]⟩, ⟨"y", subscription [97, 99, 101]⟩,
    ⟨"z", subscription [98, 100]⟩]

def fiveTopics : MetadataResponse :=
  { topics := some [topic "a" [0], topic "b" [0], topic "c" [0], topic "d" [0], topic "e" [0]] }

/-- One member, alone with a topic of 1025 partitions. -/
def alone : List JoinGroupResponseMember := [⟨"x", subscription [97]⟩]

def wideTopic : MetadataResponse :=
  { topics := some [topic "a" ((List.range 1025).map Int32.ofNat)] }

theorem length_wideTopic :
    (topic "a" ((List.range 1025).map Int32.ofNat)).indexes.length = 1025 := by
  have hnodup : ((List.range 1025).map Int32.ofNat).Nodup := by
    refine List.Nodup.map_on (fun i hi j hj h => ?_) nodup_range
    rw [mem_range] at hi hj
    have h' := congrArg Int32.toInt h
    rw [Int32.toInt_ofNat_of_lt (by omega), Int32.toInt_ofNat_of_lt (by omega)] at h'
    omega
  have hindexes : (topic "a" ((List.range 1025).map Int32.ofNat)).indexes =
      sortedSet ((List.range 1025).map Int32.ofNat) := by
    simp [topic, MetadataResponseTopic.indexes, Function.comp_def]
  rw [hindexes, ((perm_ext_iff_of_nodup (nodup_sortedSet _) hnodup).2
    fun _ => mem_sortedSet).length_eq, length_map, length_range]

/-- Round robin gives everything to the first of two members with the same subscription, and the
only subscriber of a wide topic cannot decode what it is assigned. -/
theorem division_uneven_and_undecodable :
    (∃ result, RoundRobinAssignor.assign interleaved fiveTopics = .ok result ∧
      ∃ a ∈ result, ∃ b ∈ result,
        (∃ m ∈ interleaved, ∃ m' ∈ interleaved, m.memberId = a.memberId ∧
          m'.memberId = b.memberId ∧ m.topics = m'.topics) ∧
        ¬ a.assigned.length ≤ b.assigned.length + 1) ∧
    ∀ result, RangeAssignor.assign alone wideTopic = .ok result ∨
        RoundRobinAssignor.assign alone wideTopic = .ok result →
      ∃ a ∈ result, ∀ ma, MemberAssignment.tryFrom a.assignment ≠ .ok ma := by
  constructor
  · have hrun : (RoundRobinAssignor.assign interleaved fiveTopics).toOption.map
        (·.map fun a => (a.memberId, a.assigned.length)) =
          some [("x", 3), ("y", 0), ("z", 2)] := by decide +kernel
    obtain ⟨result, hresult, hshares⟩ := Option.map_eq_some_iff.1 hrun
    have hok : RoundRobinAssignor.assign interleaved fiveTopics = .ok result := by
      cases hassign : RoundRobinAssignor.assign interleaved fiveTopics with
      | error e => rw [hassign] at hresult; cases hresult
      | ok r => rw [hassign] at hresult; cases hresult; rfl
    obtain ⟨a, rest, rfl, ha, hrest⟩ := map_eq_cons_iff.1 hshares
    obtain ⟨b, rest, rfl, hb, -⟩ := map_eq_cons_iff.1 hrest
    simp only [Prod.mk.injEq] at ha hb
    refine ⟨_, hok, a, by simp, b, by simp,
      ⟨⟨"x", subscription [97, 99, 101]⟩, by simp [interleaved],
      ⟨"y", subscription [97, 99, 101]⟩, by simp [interleaved], ha.1.symm, hb.1.symm, rfl⟩, ?_⟩
    rw [ha.2, hb.2]
    decide
  · have htopics : ∀ m ∈ alone, ∃ ts, m.topics = .ok ts := by
      have hall : ∀ m ∈ alone, m.topics.isOk := by decide +kernel
      exact fun m hm => exists_ok (hall m hm)
    have hsub : alone.countP (·.subscribes "a") = 1 := by decide +kernel
    have hnot : ¬ Manageable alone wideTopic := by
      intro h
      have hle := h _ mem_cons_self "a" rfl (countP_pos_iff.1 (by rw [hsub]; decide))
      rw [hsub, length_wideTopic] at hle
      omega
    have hnames : Named wideTopic := nodup_singleton "a"
    rintro result (hok | hok)
    · exact assignWith_undecodable htopics (RangeAssignor.divides hnames)
        RangeAssignor.long hnot hok
    · exact assignWith_undecodable htopics RoundRobinAssignor.divides
        RoundRobinAssignor.long hnot hok

end Division

end Tansu.Consumer
