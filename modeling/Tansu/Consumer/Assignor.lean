import Tansu.Lib.Lists
import Tansu.Topition
import Tansu.Consumer.Codec

/-!
# The range and the round robin assignor

The leader of a group divides the partitions of the topics among the members.
Both assignors go through the members by id, and differ in the loop in between:
the range assignor cuts each topic's partitions into consecutive slices, the
round robin assignor goes through all the partitions with one counter and skips
the members that do not subscribe.
-/

namespace Tansu.Consumer

open Lib Std

/-! ## Input and output -/

structure JoinGroupResponseMember where
  memberId : String
  metadata : Bytes
deriving DecidableEq

structure MetadataResponsePartition where
  partitionIndex : Int32

structure MetadataResponseTopic where
  name : Option String
  partitions : Option (List MetadataResponsePartition)

structure MetadataResponse where
  topics : Option (List MetadataResponseTopic)

structure SyncGroupRequestAssignment where
  memberId : String
  assignment : Bytes
deriving DecidableEq

/-- The partitions of a topic in order, each index once. -/
def MetadataResponseTopic.indexes (topic : MetadataResponseTopic) : List Int32 :=
  sortedSet ((topic.partitions.getD []).map (·.partitionIndex))

/-- `BTreeSet::<Topition>::from(metadata)`. -/
def MetadataResponse.topitions (metadata : MetadataResponse) : List Topition :=
  sortedSet <| (metadata.topics.getD []).flatMap fun topic =>
    match topic.name with
    | some name => (topic.partitions.getD []).map fun p => ⟨name, p.partitionIndex⟩
    | none => []

/-! ## What the two have in common -/

/-- `sort_by_key` on the member id. -/
def sortById (members : List JoinGroupResponseMember) : List JoinGroupResponseMember :=
  members.insertionSort fun a b => (compare a.memberId b.memberId).isLE

/-- The topics a member subscribes to. -/
def JoinGroupResponseMember.topics (m : JoinGroupResponseMember) : Except Error (List String) :=
  (MemberMetadata.tryFrom m.metadata).map (·.subscription.topics)

/-- A member's share, encoded. -/
def encodeShare (share : JoinGroupResponseMember × List TopicPartition) :
    Except Error SyncGroupRequestAssignment :=
  (MemberAssignment.serialize
    { version := 3, assignment := { assignedPartitions := share.2, userData := none } }).map
    fun assignment => { memberId := share.1.memberId, assignment }

/-- Decode the subscriptions, divide, and encode what each member gets. -/
def assignWith (allocate : List (List String) → MetadataResponse → List (List TopicPartition))
    (members : List JoinGroupResponseMember) (metadata : MetadataResponse) :
    Except Error (List SyncGroupRequestAssignment) := do
  let sorted := sortById members
  let memberSubs ← sorted.mapM JoinGroupResponseMember.topics
  (sorted.zip (allocate memberSubs metadata)).mapM encodeShare

/-- `member_subs[i].contains(topic)`. -/
def subscribes (memberSubs : List (List String)) (topic : String) (i : Nat) : Bool :=
  (memberSubs.getD i []).contains topic

/-- Indices of the members subscribed to a topic. -/
def subscribers (memberSubs : List (List String)) (topic : String) : List Nat :=
  (List.range memberSubs.length).filter (subscribes memberSubs topic)

/-! ## Range -/

namespace RangeAssignor

/-- How many partitions the `j`th subscriber gets: the first `remainder` get one more. -/
def count (allocation remainder j : Nat) : Nat := allocation + if j < remainder then 1 else 0

/-- The loop over the subscribers of one topic, with the partitions before `offset` given out. -/
def share (topic : String) (partitions : List Int32) (allocation remainder : Nat) :
    List Nat → Nat → Nat → List (List TopicPartition) → List (List TopicPartition)
  | [], _, _, assignments => assignments
  | idx :: rest, j, offset, assignments =>
    if count allocation remainder j = 0 then
      share topic partitions allocation remainder rest (j + 1) offset assignments
    else
      let stop := offset + count allocation remainder j
      share topic partitions allocation remainder rest (j + 1) stop
        (assignments.modify idx (· ++ [⟨topic, slice partitions offset stop⟩]))

/-- The body of the loop over the topics. -/
def shareTopic (memberSubs : List (List String)) (assignments : List (List TopicPartition))
    (topic : MetadataResponseTopic) : List (List TopicPartition) :=
  match topic.name with
  | none => assignments
  | some name =>
    let subscribed := subscribers memberSubs name
    if subscribed.isEmpty then
      assignments
    else
      let partitions := topic.indexes
      share name partitions (partitions.length / subscribed.length)
        (partitions.length % subscribed.length) subscribed 0 0 assignments

def allocate (memberSubs : List (List String)) (metadata : MetadataResponse) :
    List (List TopicPartition) :=
  (metadata.topics.getD []).foldl (shareTopic memberSubs) (List.replicate memberSubs.length [])

/-- `RangeAssignor::assign`. -/
def assign (members : List JoinGroupResponseMember) (metadata : MetadataResponse) :
    Except Error (List SyncGroupRequestAssignment) := assignWith allocate members metadata

end RangeAssignor

/-! ## Round robin -/

namespace RoundRobinAssignor

/-- The inner loop: at most `left` members are asked, and the first that subscribes is taken. -/
def next (memberSubs : List (List String)) (topic : String) : Nat → Nat → Nat × Option Nat
  | 0, counter => (counter, none)
  | left + 1, counter =>
    let idx := counter % memberSubs.length
    if subscribes memberSubs topic idx then (counter + 1, some idx)
    else next memberSubs topic left (counter + 1)

/-- The body of the loop over the topitions. -/
def step (memberSubs : List (List String)) (s : List (List Topition) × Nat) (t : Topition) :
    List (List Topition) × Nat :=
  match next memberSubs t.topic memberSubs.length s.2 with
  | (counter, some idx) => (s.1.modify idx (· ++ [t]), counter)
  | (counter, none) => (s.1, counter)

/-- `topic_map`: the partitions of each topic, in the order they were given. -/
def topicMap (topitions : List Topition) : BTreeMap String (List Int32) :=
  topitions.foldl
    (fun topicMap t => topicMap.alter t.topic fun o => some (o.getD [] ++ [t.partition])) ∅

def topicPartitions (topitions : List Topition) : List TopicPartition :=
  (topicMap topitions).toList.map fun entry => ⟨entry.1, entry.2⟩

def allocate (memberSubs : List (List String)) (metadata : MetadataResponse) :
    List (List TopicPartition) :=
  (metadata.topitions.foldl (step memberSubs) (List.replicate memberSubs.length [], 0)).1.map
    topicPartitions

/-- `RoundRobinAssignor::assign`. -/
def assign (members : List JoinGroupResponseMember) (metadata : MetadataResponse) :
    Except Error (List SyncGroupRequestAssignment) := assignWith allocate members metadata

end RoundRobinAssignor

end Tansu.Consumer
