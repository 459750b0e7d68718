import Tansu.Nvme.Transactions

/-!
# The log, offsets, topics, groups and credentials

`wal_append`, `offset_commit`, and the operations on topics, consumer groups and
SCRAM credentials.  Each of them changes memory under its lock and appends its
record in a section of its own.
-/

namespace Tansu.Nvme

open Std Tansu.Lib

/-- The length of the file. -/
def WalFile.size (cfg : Config) (f : WalFile) : Nat :=
  (f.records.map cfg.walFrameLen).sum + f.scrap

namespace Engine

def appendWal (cfg : Config) (s : Engine) (record : WalRecord) : Engine :=
  { s with
    wals := s.wals.modify s.walSeq (·.append record)
    diskUsage := s.diskUsage + cfg.walFrameLen record }

/-- The write of a record failed before its last byte. -/
def tearWal (cfg : Config) (s : Engine) (c : Choice) (record : WalRecord) : Engine :=
  { s with wals := s.wals.modify s.walSeq (·.tear (min c.kept (cfg.walFrameLen record - 1))) }

/-- How many records the current log file holds. -/
def walLength (s : Engine) : Nat := (s.wals[s.walSeq]?.map (·.records.length)).getD 0

/-- The first `upTo` records of a log file are durable.  A file that was retired
was sealed before. -/
def walSynced (s : Engine) (seq upTo : Nat) : Bool :=
  match s.wals[seq]? with
  | none => true
  | some file => decide (upTo ≤ file.synced)

end Engine

namespace Wal

def exec (cfg : Config) (s : Engine) (c : Choice) : WalStep → Step
  | .append record await =>
    if c.fault = some .write then .err (s.tearWal cfg c record) (.message "nvme wal append")
    else .ok (s.appendWal cfg record)
      (if await then [.wal (.await s.walSeq (s.walLength + 1))] else [])
  | .await seq upTo =>
    if c.fault = some .fsync then .err s (.message "nvme fdatasync")
    else if s.walSynced seq upTo then .ok s []
    else .blocked

end Wal

namespace Offsets

/-- The offsets of a commit whose topic is known. -/
def accepted (offsets : List (Topition × OffsetCommitRequest)) (known : List Topic) :
    List (Topition × OffsetCommitRequest) :=
  offsets.filter fun entry => entry.1.topic ∈ known

def exec (s : Engine) : OffsetStep → Step
  | .commit group offsets => .ok s [.offsets (.insert group offsets s.coord.topics.keys)]
  | .insert group offsets known =>
    let accepted := accepted offsets known
    .ok { s with groupOffsets :=
            accepted.foldl (fun m o => m.insert (group, o.1) o.2) s.groupOffsets }
      (if accepted.isEmpty then []
        else [Transactions.logged (.groupOffsetCommit group accepted)])

end Offsets

namespace Admin

def createTopic (s : Engine) (c : Choice) (topic : CreatableTopic) : Step :=
  if topic.name ∈ s.coord.topics then .err s (.api .topicAlreadyExists)
  else
    let topics := s.coord.topics.insert topic.name ⟨c.uuid, topic⟩
    .ok { s with coord := { s.coord with topics } }
      ((List.range topic.numPartitions.toNat).map (fun n =>
          .admin (.ensurePartition ⟨topic.name, n⟩)) ++
        [Transactions.logged (.topicCreate c.uuid topic)])

def ensurePartition (s : Engine) (tp : Topition) : Step :=
  match s.partition tp with
  | none => .blocked
  | some (s, _) => .ok s []

def alterTopic (s : Engine) (name : Topic) (changes : List AlterableConfig) : Step :=
  match s.coord.alterTopic name changes with
  | .error e => .err s e
  | .ok coord => .ok { s with coord } [Transactions.logged (.configAlter name changes)]

def deleteTopic (s : Engine) (topic : TopicId) : Step :=
  match s.coord.topicMetadata topic with
  | none => .ok s []
  | some metadata =>
    let name := metadata.topic.name
    .ok { s with coord := { s.coord with topics := s.coord.topics.erase name } }
      [.admin (.dropPartitions name)]

/-- The partitions leave the map at once, their directories one by one. -/
def dropPartitions (s : Engine) (name : Topic) : Step :=
  if s.partitionsLocked then .blocked
  else
    let removed := s.partitions.toList.filter fun entry => entry.1.topic = name
    .ok { s with partitions := s.partitions.filter fun tp _ => tp.topic != name }
      (removed.map (fun (tp, inner) =>
          .admin (.removeDir tp ((inner.batches.values.map (·.len)).sum))) ++
        [.admin (.dropOffsets name)])

def dropOffsets (s : Engine) (name : Topic) : Step :=
  .ok { s with groupOffsets := s.groupOffsets.filter fun key _ => key.2.topic != name }
    [Transactions.logged (.topicDelete name)]

/-- Compare-and-swap on the group's version. -/
def updateGroup (s : Engine) (c : Choice) (group : Group) (detail : GroupDetail)
    (version : Option Version) : Step :=
  let store : Step :=
    let version := Version.ofUuid c.uuid
    .ok { s with groups := s.groups.insert group (detail, version) }
      [Transactions.logged (.groupUpdate group detail version)]
  match s.groups[group]?, version with
  | none, none => store
  | none, some _ => .err s (.message ("group not found: " ++ group))
  | some _, none => .err s .outdated
  | some (_, stored), some version => if stored = version then store else .err s .outdated

/-- One group of `delete_groups`, with the groups that were there so far. -/
def deleteGroup (acc : Engine × List Group) (group : Group) : Engine × List Group :=
  let s := acc.1
  let groupOffsets := s.groupOffsets.filter fun key _ => key.1 != group
  let there := group ∈ s.groups ∨ s.groupOffsets.size ≠ groupOffsets.size
  ({ s with groups := s.groups.erase group, groupOffsets },
    if there then acc.2 ++ [group] else acc.2)

def deleteGroups (s : Engine) (groups : List Group) : Step :=
  let (s, deleted) := groups.foldl deleteGroup (s, [])
  .ok s (deleted.map fun group => Transactions.logged (.groupDelete group))

def exec (s : Engine) (c : Choice) : AdminStep → Step
  | .createTopic topic => createTopic s c topic
  | .ensurePartition tp => ensurePartition s tp
  | .alterTopic name changes => alterTopic s name changes
  | .deleteTopic topic => deleteTopic s topic
  | .dropPartitions name => dropPartitions s name
  | .removeDir tp bytes =>
    .ok { s with dirs := s.dirs.erase tp, diskUsage := wrapSubU64 s.diskUsage bytes } []
  | .dropOffsets name => dropOffsets s name
  | .updateGroup group detail version => updateGroup s c group detail version
  | .deleteGroups groups => deleteGroups s groups
  | .upsertScram user mechanism credential =>
    let scram := s.coord.scram.insert (user, mechanism) credential
    .ok { s with coord := { s.coord with scram } }
      [Transactions.logged (.scramUpsert user mechanism credential)]
  | .deleteScram user mechanism =>
    let scram := s.coord.scram.erase (user, mechanism)
    .ok { s with coord := { s.coord with scram } }
      [Transactions.logged (.scramDelete user mechanism)]

end Admin

end Tansu.Nvme
