import Tansu.Consumer.Assignor

/-!
# Dividing the partitions

What it means that the partitions are divided among the members: once over the
shares as the loops compute them, by the position of a member, and once over
the encoded answer, by its id.  The answer inherits the division whenever the
shares keep to the limits of the decoder.
-/

namespace Tansu.Consumer

open Lib Std List

/-! ## Shares -/

/-- The topic partitions of a share, one by one. -/
def TopicPartition.topitions (tp : TopicPartition) : List Topition :=
  tp.partitions.map fun p => ⟨tp.topic, p⟩

def topitionsOf (share : List TopicPartition) : List Topition :=
  share.flatMap TopicPartition.topitions

/-- The partitions of one topic in a share. -/
def partitionsOf (name : String) (topitions : List Topition) : List Int32 :=
  (topitions.filter (·.topic = name)).map (·.partition)

section

variable {share : List TopicPartition} {t : Topition} {name : String} {tp : TopicPartition}

theorem TopicPartition.mem_topitions :
    t ∈ tp.topitions ↔ t.topic = tp.topic ∧ t.partition ∈ tp.partitions := by
  cases t
  simp only [topitions, List.mem_map, Topition.mk.injEq]
  constructor
  · rintro ⟨p, hp, rfl, rfl⟩
    exact ⟨rfl, hp⟩
  · rintro ⟨rfl, hp⟩
    exact ⟨_, hp, rfl, rfl⟩

theorem mem_topitionsOf :
    t ∈ topitionsOf share ↔ ∃ tp ∈ share, tp.topic = t.topic ∧ t.partition ∈ tp.partitions := by
  simp only [topitionsOf, mem_flatMap, TopicPartition.mem_topitions, eq_comm]

theorem nodup_topitionsOf (htopics : (share.map (·.topic)).Nodup)
    (hpartitions : ∀ tp ∈ share, tp.partitions.Nodup) : (topitionsOf share).Nodup := by
  refine nodup_flatMap.2 ⟨fun tp htp => ?_, ?_⟩
  · refine (hpartitions tp htp).map fun p q h => ?_
    exact (Topition.mk.injEq _ _ _ _).mp h |>.2
  · refine (pairwise_map.1 htopics).imp fun {tp tq} hne => ?_
    intro t htp htq
    rw [TopicPartition.mem_topitions] at htp htq
    exact hne (htp.1.symm.trans htq.1)

theorem partitionsOf_topitions (tp : TopicPartition) (name : String) :
    partitionsOf name tp.topitions = if tp.topic = name then tp.partitions else [] := by
  unfold partitionsOf TopicPartition.topitions
  split
  next h => simp [h, List.filter_map, Function.comp_def]
  next h => simp [h]

theorem partitionsOf_append (xs ys : List Topition) :
    partitionsOf name (xs ++ ys) = partitionsOf name xs ++ partitionsOf name ys := by
  simp [partitionsOf]

theorem nodup_partitionsOf (name : String) {topitions : List Topition} (h : topitions.Nodup) :
    (partitionsOf name topitions).Nodup := by
  refine List.Nodup.map_on ?_ (h.filter _)
  rintro ⟨n, p⟩ hx ⟨n', p'⟩ hy rfl
  simp only [List.mem_filter, decide_eq_true_eq] at hx hy
  rw [hx.2, hy.2]

theorem partitionsOf_eq_nil (h : ∀ tp ∈ share, tp.topic ≠ name) :
    partitionsOf name (topitionsOf share) = [] := by
  simp only [partitionsOf, map_eq_nil_iff, filter_eq_nil_iff, decide_eq_true_eq]
  intro t ht heq
  obtain ⟨tp, htp, htopic, -⟩ := mem_topitionsOf.1 ht
  exact h tp htp (htopic.trans heq)

/-- A share names each topic once, so it has of a topic what its entry says. -/
theorem partitionsOf_of_mem (htopics : (share.map (·.topic)).Nodup) (htp : tp ∈ share) :
    partitionsOf tp.topic (topitionsOf share) = tp.partitions := by
  induction share with
  | nil => cases htp
  | cons head rest ih =>
    obtain ⟨hhead, hrest⟩ := nodup_cons.1 htopics
    have hsplit : topitionsOf (head :: rest) = head.topitions ++ topitionsOf rest := rfl
    rw [hsplit, partitionsOf_append, partitionsOf_topitions]
    rcases mem_cons.1 htp with rfl | hmem
    · have hnone : ∀ tq ∈ rest, tq.topic ≠ tp.topic := fun tq htq heq =>
        hhead (List.mem_map.2 ⟨tq, htq, heq⟩)
      rw [if_pos rfl, partitionsOf_eq_nil hnone, append_nil]
    · have hne : head.topic ≠ tp.topic := fun heq => hhead (List.mem_map.2 ⟨tp, hmem, heq.symm⟩)
      rw [if_neg hne, ih hrest hmem, nil_append]

end

variable {metadata : MetadataResponse}

theorem MetadataResponse.mem_topitions {t : Topition} :
    t ∈ metadata.topitions ↔ ∃ topic ∈ metadata.topics.getD [],
      topic.name = some t.topic ∧ t.partition ∈ topic.indexes := by
  cases t with
  | mk name index =>
    simp only [topitions, mem_sortedSet, mem_flatMap, MetadataResponseTopic.indexes]
    refine exists_congr fun topic => and_congr_right fun _ => ?_
    cases topic.name with
    | none => simp
    | some n =>
      simp only [List.mem_map, Topition.mk.injEq, Option.some.injEq]
      constructor
      · rintro ⟨p, hp, rfl, rfl⟩
        exact ⟨rfl, p, hp, rfl⟩
      · rintro ⟨rfl, p, hp, rfl⟩
        exact ⟨p, hp, rfl, rfl⟩

/-- The topics of the metadata have distinct names. -/
def Named (metadata : MetadataResponse) : Prop :=
  ((metadata.topics.getD []).filterMap (·.name)).Nodup

theorem eq_of_name {name : String} (hnames : Named metadata) {topic topic' : MetadataResponseTopic}
    (h : topic ∈ metadata.topics.getD []) (h' : topic' ∈ metadata.topics.getD [])
    (hname : topic.name = some name) (hname' : topic'.name = some name) : topic = topic' := by
  have hpair := pairwise_filterMap.1 hnames
  have hsymm : Std.Symm fun a b : MetadataResponseTopic =>
      ∀ n, a.name = some n → ∀ n', b.name = some n' → n ≠ n' :=
    ⟨fun a b hab n hn n' hn' => (hab n' hn' n hn).symm⟩
  by_contra hne
  exact hpair.forall h h' hne name hname name hname' rfl

section

variable {memberSubs : List (List String)} {name : String} {i : Nat}

theorem mem_subscribers :
    i ∈ subscribers memberSubs name ↔ i < memberSubs.length ∧ subscribes memberSubs name i := by
  simp [subscribers]

theorem nodup_subscribers (memberSubs : List (List String)) (name : String) :
    (subscribers memberSubs name).Nodup := nodup_range.filter _

end

/-- The shares divide the partitions of the topics somebody subscribes to. -/
structure Divides (memberSubs : List (List String)) (metadata : MetadataResponse)
    (shares : List (List TopicPartition)) : Prop where
  length : shares.length = memberSubs.length
  topics : ∀ s ∈ shares, (s.map (·.topic)).Nodup
  distinct : ∀ s ∈ shares, ∀ tp ∈ s, tp.partitions.Nodup
  subscribed : ∀ (i : Nat) s, shares[i]? = some s → ∀ tp ∈ s, subscribes memberSubs tp.topic i
  known : ∀ s ∈ shares, ∀ t ∈ topitionsOf s, t ∈ metadata.topitions
  covers : ∀ t ∈ metadata.topitions, subscribers memberSubs t.topic ≠ [] →
    ∃ (i : Nat) (s : List TopicPartition), shares[i]? = some s ∧ t ∈ topitionsOf s
  disjoint : ∀ (i j : Nat) s s' t, shares[i]? = some s → shares[j]? = some s' →
    t ∈ topitionsOf s → t ∈ topitionsOf s' → i = j

/-! ## The answer -/

/-- Whether a member subscribes to a topic. -/
def JoinGroupResponseMember.subscribes (m : JoinGroupResponseMember) (topic : String) : Bool :=
  match m.topics with
  | .ok topics => topics.contains topic
  | .error _ => false

/-- What a member finds in its assignment when it decodes it. -/
def SyncGroupRequestAssignment.assigned (a : SyncGroupRequestAssignment) : List Topition :=
  match MemberAssignment.tryFrom a.assignment with
  | .ok ma => topitionsOf ma.assignment.assignedPartitions
  | .error _ => []

/-- The answer divides the partitions of the topics somebody subscribes to. -/
structure Assigns (members : List JoinGroupResponseMember) (metadata : MetadataResponse)
    (result : List SyncGroupRequestAssignment) : Prop where
  ids : (result.map (·.memberId)).Perm (members.map (·.memberId))
  decodes : ∀ a ∈ result, ∃ ma, MemberAssignment.tryFrom a.assignment = .ok ma
  once : ∀ a ∈ result, a.assigned.Nodup
  exactly : ∀ t ∈ metadata.topitions, (∃ m ∈ members, m.subscribes t.topic) →
    ∃! a, a ∈ result ∧ t ∈ a.assigned
  nothingElse : ∀ a ∈ result, ∀ t ∈ a.assigned, t ∈ metadata.topitions ∧
    ∃ m ∈ members, m.memberId = a.memberId ∧ m.subscribes t.topic

/-- The answer `a` is for a member that subscribes to the topic. -/
def Subscribed (members : List JoinGroupResponseMember) (name : String)
    (a : SyncGroupRequestAssignment) : Prop :=
  ∃ m ∈ members, m.memberId = a.memberId ∧ m.subscribes name

/-- Each topic's subscribers get as many of its partitions, give or take one. -/
def EvenByTopic (members : List JoinGroupResponseMember) (metadata : MetadataResponse)
    (result : List SyncGroupRequestAssignment) : Prop :=
  ∀ topic ∈ metadata.topics.getD [], ∀ name, topic.name = some name →
    ∀ a ∈ result, ∀ b ∈ result, Subscribed members name a → Subscribed members name b →
      (partitionsOf name a.assigned).length ≤ (partitionsOf name b.assigned).length + 1

/-- What a member gets of a topic is a stretch of its partitions in order. -/
def Contiguous (metadata : MetadataResponse) (result : List SyncGroupRequestAssignment) : Prop :=
  ∀ topic ∈ metadata.topics.getD [], ∀ name, topic.name = some name →
    ∀ a ∈ result, partitionsOf name a.assigned <:+: topic.indexes

/-- No member has to be given more partitions of one topic than it can decode. -/
def Manageable (members : List JoinGroupResponseMember) (metadata : MetadataResponse) : Prop :=
  ∀ topic ∈ metadata.topics.getD [], ∀ name, topic.name = some name →
    (∃ m ∈ members, m.subscribes name) →
      topic.indexes.length ≤ 1024 * members.countP (·.subscribes name)

/-- The same of the decoded subscriptions. -/
def ManageableSubs (memberSubs : List (List String)) (metadata : MetadataResponse) : Prop :=
  ∀ topic ∈ metadata.topics.getD [], ∀ name, topic.name = some name →
    subscribers memberSubs name ≠ [] →
      topic.indexes.length ≤ 1024 * (subscribers memberSubs name).length

/-! ## From the shares to the answer -/

section

variable {members : List JoinGroupResponseMember} {metadata : MetadataResponse}
  {sorted : List JoinGroupResponseMember} {memberSubs : List (List String)} {name : String}
  {m : JoinGroupResponseMember} {i : Nat} {x : JoinGroupResponseMember × List TopicPartition}
  {a : SyncGroupRequestAssignment}
  {allocate : List (List String) → MetadataResponse → List (List TopicPartition)}

theorem perm_sortById (members : List JoinGroupResponseMember) :
    (sortById members).Perm members := perm_insertionSort _ _

/-- With distinct ids there is only one order by id. -/
theorem sortById_eq_of_perm {members' : List JoinGroupResponseMember}
    (hids : (members.map (·.memberId)).Nodup) (hperm : members.Perm members') :
    sortById members' = sortById members := by
  have htotal : Std.Total fun a b : JoinGroupResponseMember =>
      ((compare a.memberId b.memberId).isLE = true) := ⟨fun a b => by
    rcases h : compare a.memberId b.memberId with _ | _ | _
    · simp
    · simp
    · right
      rw [OrientedOrd.eq_swap, h]
      rfl⟩
  have htrans : IsTrans JoinGroupResponseMember fun a b =>
      ((compare a.memberId b.memberId).isLE = true) := ⟨fun a b c => TransCmp.isLE_trans⟩
  have hsorted := fun ms : List JoinGroupResponseMember => pairwise_insertionSort
    (fun a b : JoinGroupResponseMember => ((compare a.memberId b.memberId).isLE = true)) ms
  refine List.Perm.eq_of_pairwise (fun a b ha hb hab hba => ?_) (hsorted members')
    (hsorted members) (((perm_sortById members').trans hperm.symm).trans
      (perm_sortById members).symm)
  have hid : a.memberId = b.memberId :=
    LawfulEqCmp.eq_of_compare (OrientedCmp.isLE_antisymm hab hba)
  have ha' : a ∈ members := hperm.symm.mem_iff.1 ((perm_sortById members').mem_iff.1 ha)
  exact inj_on_of_nodup_map hids ha' ((perm_sortById members).mem_iff.1 hb) hid

theorem JoinGroupResponseMember.short_of_topics {ts : List String} (h : m.topics = .ok ts) :
    ts.length ≤ 1024 ∧ ∀ t ∈ ts, (utf8 t).length ≤ 4096 := by
  unfold JoinGroupResponseMember.topics at h
  cases hmm : MemberMetadata.tryFrom m.metadata with
  | error e => rw [hmm] at h; cases h
  | ok mm =>
    rw [hmm] at h
    cases h
    exact MemberMetadata.short_of_tryFrom hmm

/-- What the members subscribe to, as their metadata has it. -/
abbrev Subscriptions (members : List JoinGroupResponseMember) (memberSubs : List (List String)) :
    Prop :=
  List.Forall₂ (fun m ts => m.topics = .ok ts) members memberSubs

section

variable (h : Subscriptions sorted memberSubs)
include h

theorem subscribes_eq (hm : sorted[i]? = some m) :
    subscribes memberSubs name i = m.subscribes name := by
  obtain ⟨ts, hts, htopics⟩ := forall₂_getElem? h.flip hm
  rw [subscribes, getD_eq_getElem?_getD, hts, JoinGroupResponseMember.subscribes, htopics]
  rfl

theorem length_subscribers :
    (subscribers memberSubs name).length = sorted.countP (·.subscribes name) := by
  have hmap : memberSubs.map (·.contains name) = sorted.map (·.subscribes name) := by
    induction h with
    | nil => rfl
    | cons hm _ ih => rw [map_cons, map_cons, ih, JoinGroupResponseMember.subscribes, hm]
  calc (subscribers memberSubs name).length
      = memberSubs.countP (·.contains name) := length_filter_range memberSubs [] (·.contains name)
    _ = (memberSubs.map (·.contains name)).countP id := by rw [countP_map]; rfl
    _ = sorted.countP (·.subscribes name) := by rw [hmap, countP_map]; rfl

end

/-- The answer `a` is the share `x`, encoded. -/
structure Encodes (x : JoinGroupResponseMember × List TopicPartition)
    (a : SyncGroupRequestAssignment) : Prop where
  memberId : a.memberId = x.1.memberId
  decodes : MemberAssignment.tryFrom a.assignment =
    .ok { version := 3, assignment := { assignedPartitions := x.2, userData := none } }

theorem Encodes.assigned (h : Encodes x a) : a.assigned = topitionsOf x.2 := by
  rw [SyncGroupRequestAssignment.assigned, h.decodes]

theorem exists_encodes
    (h : ConsumerProtocolAssignment.Fits { assignedPartitions := x.2, userData := none }) :
    ∃ a, encodeShare x = .ok a ∧ Encodes x a := by
  have hround : RoundTrips (MemberAssignment.serialize
      { version := 3, assignment := { assignedPartitions := x.2, userData := none } })
      MemberAssignment.deserialize _ := MemberAssignment.roundTrips h
  obtain ⟨bs, hbs, hdecode⟩ := tryFrom_of_roundTrips hround
  refine ⟨{ memberId := x.1.memberId, assignment := bs }, ?_, rfl, hdecode⟩
  rw [encodeShare, hbs]
  rfl

/-- A share has no more topics, and no longer names, than a subscription can have. -/
theorem Divides.short {shares : List (List TopicPartition)}
    (hdiv : Divides memberSubs metadata shares)
    (hsubs : Subscriptions sorted memberSubs)
    {s : List TopicPartition} (hs : shares[i]? = some s) :
    s.length ≤ 1024 ∧ ∀ tp ∈ s, (utf8 tp.topic).length ≤ 4096 := by
  obtain ⟨ts, hts⟩ : ∃ ts, memberSubs[i]? = some ts := by
    have hlt := (List.getElem?_eq_some_iff.1 hs).1
    rw [hdiv.length] at hlt
    exact ⟨_, getElem?_eq_getElem hlt⟩
  obtain ⟨m, -, htopics⟩ := forall₂_getElem? hsubs hts
  obtain ⟨hlength, hnames⟩ := JoinGroupResponseMember.short_of_topics htopics
  have hsub : ∀ tp ∈ s, tp.topic ∈ ts := by
    intro tp htp
    have h := hdiv.subscribed i s hs tp htp
    rw [subscribes, getD_eq_getElem?_getD, hts] at h
    simpa using h
  have hsubset : s.map (·.topic) ⊆ ts := by
    intro name hname
    obtain ⟨tp, htp, rfl⟩ := List.mem_map.1 hname
    exact hsub tp htp
  refine ⟨?_, fun tp htp => hnames _ (hsub tp htp)⟩
  have hle := (subperm_of_subset (hdiv.topics s (mem_of_getElem? hs)) hsubset).length_le
  rw [length_map] at hle
  exact hle.trans hlength

theorem manageable_iff (hsubs : Subscriptions (sortById members) memberSubs) :
    Manageable members metadata ↔ ManageableSubs memberSubs metadata := by
  have hcount (name : String) :
      (subscribers memberSubs name).length = members.countP (·.subscribes name) := by
    rw [length_subscribers hsubs, (perm_sortById members).countP_eq]
  have hne (name : String) :
      subscribers memberSubs name ≠ [] ↔ ∃ m ∈ members, m.subscribes name := by
    rw [← length_pos_iff, hcount, countP_pos_iff]
  unfold Manageable ManageableSubs
  simp only [hcount, hne]

theorem exists_topics (hdec : ∀ m ∈ members, ∃ ts, m.topics = .ok ts) :
    ∃ memberSubs, (sortById members).mapM JoinGroupResponseMember.topics = .ok memberSubs :=
  exists_mapM_eq_ok fun m hm => hdec m ((perm_sortById members).mem_iff.1 hm)

section

variable (hdec : ∀ m ∈ members, ∃ ts, m.topics = .ok ts)
  (hdiv : ∀ memberSubs, Divides memberSubs metadata (allocate memberSubs metadata))
include hdec hdiv

theorem assignWith_encodes (hsmall : ∀ memberSubs, ManageableSubs memberSubs metadata →
      ∀ s ∈ allocate memberSubs metadata, ∀ tp ∈ s, tp.partitions.length ≤ 1024)
    (hmanageable : Manageable members metadata) :
    ∃ memberSubs result, Subscriptions (sortById members) memberSubs ∧
      assignWith allocate members metadata = .ok result ∧
      List.Forall₂ Encodes ((sortById members).zip (allocate memberSubs metadata)) result := by
  obtain ⟨memberSubs, hmapM⟩ := exists_topics hdec
  have hsubs := mapM_eq_ok.1 hmapM
  have hencode : ∀ x ∈ (sortById members).zip (allocate memberSubs metadata),
      ∃ a, encodeShare x = .ok a ∧ Encodes x a := by
    intro x hx
    obtain ⟨i, hi⟩ := mem_iff_getElem?.1 hx
    obtain ⟨-, hs⟩ := getElem?_zip_eq_some.1 hi
    obtain ⟨htopics, hnames⟩ := (hdiv memberSubs).short hsubs hs
    exact exists_encodes ⟨htopics, hnames, hsmall memberSubs ((manageable_iff hsubs).1 hmanageable)
      x.2 (mem_of_getElem? hs), fun _ h => by cases h⟩
  obtain ⟨result, hresult⟩ := exists_mapM_eq_ok fun x hx => (hencode x hx).imp fun _ h => h.1
  refine ⟨memberSubs, result, hsubs, ?_, ?_⟩
  · rw [assignWith, hmapM]
    exact hresult
  · refine forall₂_iff_zip.2 ⟨(mapM_eq_ok.1 hresult).length_eq, fun {x a} hxa => ?_⟩
    obtain ⟨b, hb, hencodes⟩ := hencode x (of_mem_zip hxa).1
    have ha := (forall₂_iff_zip.1 (mapM_eq_ok.1 hresult)).2 hxa
    rw [ha] at hb
    cases hb
    exact hencodes

/-- A member that gets too many partitions of a topic cannot decode its assignment. -/
theorem assignWith_undecodable (hlong : ∀ memberSubs, ¬ ManageableSubs memberSubs metadata →
      ∃ s ∈ allocate memberSubs metadata, ∃ tp ∈ s, 1024 < tp.partitions.length)
    (hmanageable : ¬ Manageable members metadata) {result : List SyncGroupRequestAssignment}
    (hok : assignWith allocate members metadata = .ok result) :
    ∃ a ∈ result, ∀ ma, MemberAssignment.tryFrom a.assignment ≠ .ok ma := by
  obtain ⟨memberSubs, hmapM⟩ := exists_topics hdec
  have hsubs := mapM_eq_ok.1 hmapM
  rw [assignWith, hmapM] at hok
  have hresult := mapM_eq_ok.1 hok
  obtain ⟨s, hs, hlongs⟩ := hlong memberSubs fun h => hmanageable ((manageable_iff hsubs).2 h)
  obtain ⟨i, hi⟩ := mem_iff_getElem?.1 hs
  obtain ⟨m, hm⟩ : ∃ m, (sortById members)[i]? = some m := by
    have hlt := (List.getElem?_eq_some_iff.1 hi).1
    rw [(hdiv memberSubs).length, ← hsubs.length_eq] at hlt
    exact ⟨_, getElem?_eq_getElem hlt⟩
  obtain ⟨a, ha, hencode⟩ := forall₂_getElem? hresult.flip
    (getElem?_zip_eq_some.2 ⟨hm, hi⟩ : (List.zip _ _)[i]? = some (m, s))
  obtain ⟨htopics, hnames⟩ := (hdiv memberSubs).short hsubs hi
  refine ⟨a, mem_of_getElem? ha, fun ma => ?_⟩
  cases hbytes : MemberAssignment.serialize
      { version := 3, assignment := { assignedPartitions := s, userData := none } } with
  | error e =>
    rw [encodeShare, hbytes] at hencode
    cases hencode
  | ok bs =>
    rw [encodeShare, hbytes] at hencode
    cases hencode
    exact tryFrom_of_rejects (MemberAssignment.rejects htopics hnames hlongs) hbytes ma

end

variable {shares : List (List TopicPartition)} {result : List SyncGroupRequestAssignment}

theorem exists_of_getElem? (hresult : List.Forall₂ Encodes (sorted.zip shares) result)
    (ha : result[i]? = some a) :
    ∃ m s, sorted[i]? = some m ∧ shares[i]? = some s ∧ Encodes (m, s) a := by
  obtain ⟨⟨m, s⟩, hzip, hencodes⟩ := forall₂_getElem? hresult ha
  obtain ⟨hm, hs⟩ := getElem?_zip_eq_some.1 hzip
  exact ⟨m, s, hm, hs, hencodes⟩

theorem map_memberId {xs : List (JoinGroupResponseMember × List TopicPartition)}
    (h : List.Forall₂ Encodes xs result) :
    result.map (·.memberId) = xs.map ((·.memberId) ∘ Prod.fst) := by
  induction h with
  | nil => rfl
  | cons hx _ ih => rw [map_cons, map_cons, ih, hx.memberId, Function.comp_apply]

theorem Divides.assigns (hdiv : Divides memberSubs metadata shares)
    (hsubs : Subscriptions (sortById members) memberSubs)
    (hresult : List.Forall₂ Encodes ((sortById members).zip shares) result) :
    Assigns members metadata result := by
  have hlength : (sortById members).length = shares.length := by
    rw [hdiv.length, hsubs.length_eq]
  refine ⟨?_, ?_, ?_, ?_, ?_⟩
  · have hids := map_memberId hresult
    rw [← List.map_map, map_fst_zip hlength.le] at hids
    rw [hids]
    exact (perm_sortById members).map _
  · intro a ha
    obtain ⟨i, hi⟩ := mem_iff_getElem?.1 ha
    obtain ⟨m, s, -, -, hencodes⟩ := exists_of_getElem? hresult hi
    exact ⟨_, hencodes.decodes⟩
  · intro a ha
    obtain ⟨i, hi⟩ := mem_iff_getElem?.1 ha
    obtain ⟨m, s, -, hs, hencodes⟩ := exists_of_getElem? hresult hi
    have hmem := mem_of_getElem? hs
    rw [hencodes.assigned]
    exact nodup_topitionsOf (hdiv.topics s hmem) (hdiv.distinct s hmem)
  · rintro t ht ⟨m, hm, hsub⟩
    obtain ⟨k, hk⟩ := mem_iff_getElem?.1 ((perm_sortById members).mem_iff.2 hm)
    have hsubscribed : k ∈ subscribers memberSubs t.topic := by
      refine List.mem_filter.2 ⟨?_, (subscribes_eq hsubs hk).trans hsub⟩
      rw [mem_range, ← hsubs.length_eq]
      exact (List.getElem?_eq_some_iff.1 hk).1
    obtain ⟨i, s, hs, hts⟩ := hdiv.covers t ht (ne_nil_of_mem hsubscribed)
    obtain ⟨a, ha⟩ : ∃ a, result[i]? = some a := by
      have hlt := (List.getElem?_eq_some_iff.1 hs).1
      have hzip := hresult.length_eq
      rw [length_zip, hlength, Nat.min_self] at hzip
      rw [hzip] at hlt
      exact ⟨_, getElem?_eq_getElem hlt⟩
    obtain ⟨_, s', -, hs', hencodes⟩ := exists_of_getElem? hresult ha
    rw [hs] at hs'
    cases hs'
    refine ⟨a, ⟨mem_of_getElem? ha, hencodes.assigned ▸ hts⟩, ?_⟩
    rintro b ⟨hb, htb⟩
    obtain ⟨j, hj⟩ := mem_iff_getElem?.1 hb
    obtain ⟨_, s'', -, hs'', hencodes'⟩ := exists_of_getElem? hresult hj
    rw [hencodes'.assigned] at htb
    have hij := hdiv.disjoint i j s s'' t hs hs'' hts htb
    rw [← hij, ha] at hj
    exact (Option.some.inj hj).symm
  · intro a ha t ht
    obtain ⟨i, hi⟩ := mem_iff_getElem?.1 ha
    obtain ⟨m, s, hm, hs, hencodes⟩ := exists_of_getElem? hresult hi
    rw [hencodes.assigned] at ht
    refine ⟨hdiv.known s (mem_of_getElem? hs) t ht, m, ?_, hencodes.memberId.symm, ?_⟩
    · exact (perm_sortById members).mem_iff.1 (mem_of_getElem? hm)
    · obtain ⟨tp, htp, htopic, -⟩ := mem_topitionsOf.1 ht
      rw [← subscribes_eq hsubs hm, ← htopic]
      exact hdiv.subscribed i s hs tp htp

end

end Tansu.Consumer
