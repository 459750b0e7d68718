import Tansu.Nvme.Machine

/-!
# What the sections do

What every section of the engine does to the partitions and files, what it may
leave behind when it fails, and what it is followed by.  Only a few sections
change transactions, and only two put offset commits into a task.
-/

namespace Tansu.Nvme

open Std Tansu.Lib Machine List Produce Transactions

variable {cfg : Config} {c : Choice} {s s' : Engine} {a : Action} {next : List Action} {e : Error}
  {step : SnapshotStep}

/-- Sections that change a transaction. -/
def Action.changesTxns : Action → Bool
  | .produce (.record ..) => true
  | .txn (.initProducer (some _) ..) | .txn (.addPartitions ..) | .txn (.offsetCommit ..)
  | .txn (.prepare _) | .txn (.resolve _) => true
  | _ => false

theorem CoordState.alterTopic_ok {coord coord' : CoordState} {name : Topic}
    {changes : List AlterableConfig} (h : coord.alterTopic name changes = .ok coord') :
    ∃ topics, coord' = { coord with topics } := by
  unfold alterTopic at h
  split at h
  · cases h
    exact ⟨coord.topics, rfl⟩
  · next metadata _ =>
    simp only at h
    generalize changes.foldlM alterConfig _ = r at h
    cases r with
    | error e => cases h
    | ok configuration =>
      cases h
      exact ⟨_, rfl⟩

theorem Engine.partition_coord {inner : PartitionInner} {tp : Topition}
    (h : s.partition tp = some (s', inner)) :
    ∃ partitions dirs nextHandle, s' = { s with partitions, dirs, nextHandle } := by
  rcases Engine.partition_eq h with ⟨-, rfl⟩ | ⟨-, -, rfl⟩
  · exact ⟨_, _, _, rfl⟩
  · exact ⟨_, _, _, rfl⟩

/-- Deleting groups forgets offsets and adds none. -/
theorem Admin.foldl_deleteGroup (groups : List Group) (acc : Engine × List Group) :
    ∃ groups' groupOffsets, (groups.foldl deleteGroup acc).1 =
      { acc.1 with groups := groups', groupOffsets } ∧
      ∀ (key : Group × Topition) (request : OffsetCommitRequest),
        groupOffsets[key]? = some request → acc.1.groupOffsets[key]? = some request := by
  induction groups generalizing acc with
  | nil => exact ⟨_, _, rfl, fun _ _ => id⟩
  | cons group groups ih =>
    obtain ⟨groups', groupOffsets, h, hoffsets⟩ := ih (deleteGroup acc group)
    exact ⟨groups', groupOffsets, h, fun key request hmem =>
      (BTreeMap.getElem?_filter_eq_some.1 (hoffsets key request hmem)).1⟩

/-! ## Topics, groups and credentials -/

/-- Records that do not move a log start. -/
def WalRecord.standing : WalRecord → Bool
  | .logStartAdvance .. => false
  | _ => true

/-- What an administrative section does.  Most of them change topics, credentials
and groups, forget offsets at most, and log what they did. -/
inductive Admin.Does (s : Engine) : AdminStep → Engine → List Action → Prop
  | stores {step : AdminStep} {topics : BTreeMap Topic TopicMetadata}
      {scram : BTreeMap (String × String) ScramCredential}
      {groups : BTreeMap Group (GroupDetail × Version)}
      {groupOffsets : BTreeMap (Group × Topition) OffsetCommitRequest} {next : List Action}
      (offsets : ∀ (key : Group × Topition) (request : OffsetCommitRequest),
        groupOffsets[key]? = some request → s.groupOffsets[key]? = some request)
      (goesOn : ∀ b ∈ next, (∃ tp, b = .admin (.ensurePartition tp)) ∨
        (∃ name, b = .admin (.dropPartitions name)) ∨
        ∃ record : WalRecord, record.standing = true ∧ b = Transactions.logged record) :
      Does s step { s with coord := { s.coord with topics, scram }, groups, groupOffsets } next
  | opens {tp : Topition} {s' : Engine} {inner : PartitionInner}
      (h : s.partition tp = some (s', inner)) : Does s (.ensurePartition tp) s' []
  | drops {name : Topic} : Does s (.dropPartitions name)
      { s with partitions := s.partitions.filter fun tp _ => tp.topic != name }
      ((s.partitions.toList.filter fun entry => entry.1.topic = name).map (fun (tp, inner) =>
          .admin (.removeDir tp ((inner.batches.values.map (·.len)).sum))) ++
        [.admin (.dropOffsets name)])
  | removes {tp : Topition} {bytes : Nat} : Does s (.removeDir tp bytes)
      { s with dirs := s.dirs.erase tp, diskUsage := wrapSubU64 s.diskUsage bytes } []

theorem Admin.does {step : AdminStep} (h : Admin.exec s c step = .ok s' next) :
    Does s step s' next := by
  have hlogged {record : WalRecord} (hr : record.standing = true) :
      ∀ b ∈ [Transactions.logged record], (∃ tp, b = .admin (.ensurePartition tp)) ∨
        (∃ name, b = .admin (.dropPartitions name)) ∨
        ∃ record : WalRecord, record.standing = true ∧ b = Transactions.logged record :=
    fun b hb => .inr (.inr ⟨record, hr, mem_singleton.1 hb⟩)
  cases step with
  | createTopic topic =>
    simp only [exec, createTopic] at h
    split at h <;> cases h
    refine .stores (fun _ _ => id) fun b hb => ?_
    rcases mem_append.1 hb with hb | hb
    · obtain ⟨n, -, rfl⟩ := List.mem_map.1 hb
      exact .inl ⟨_, rfl⟩
    · exact hlogged rfl b hb
  | ensurePartition tp =>
    simp only [exec, ensurePartition] at h
    split at h
    · cases h
    · next hp =>
      cases h
      exact .opens hp
  | alterTopic name changes =>
    simp only [exec, alterTopic] at h
    split at h
    · cases h
    · next coord hc =>
      cases h
      obtain ⟨topics, rfl⟩ := CoordState.alterTopic_ok hc
      exact .stores (fun _ _ => id) (hlogged rfl)
  | deleteTopic topic =>
    simp only [exec, deleteTopic] at h
    split at h <;> cases h
    · exact .stores (fun _ _ => id) (by simp)
    · exact .stores (fun _ _ => id) fun b hb => .inr (.inl ⟨_, mem_singleton.1 hb⟩)
  | dropPartitions name =>
    simp only [exec, dropPartitions] at h
    split at h <;> cases h
    exact .drops
  | removeDir tp bytes =>
    cases h
    exact .removes
  | dropOffsets name =>
    cases h
    exact .stores (fun _ _ hmem => (BTreeMap.getElem?_filter_eq_some.1 hmem).1) (hlogged rfl)
  | updateGroup group detail version =>
    simp only [exec, updateGroup] at h
    split at h
    · cases h
      exact .stores (fun _ _ => id) (hlogged rfl)
    · cases h
    · cases h
    · split at h <;> cases h
      exact .stores (fun _ _ => id) (hlogged rfl)
  | deleteGroups groups =>
    simp only [exec, deleteGroups] at h
    cases h
    obtain ⟨groups', groupOffsets, hg, hoffsets⟩ := foldl_deleteGroup groups (s, [])
    rw [hg]
    refine .stores hoffsets fun b hb => ?_
    obtain ⟨group, -, rfl⟩ := List.mem_map.1 hb
    exact .inr (.inr ⟨_, rfl, rfl⟩)
  | upsertScram | deleteScram =>
    cases h
    exact .stores (fun _ _ => id) (hlogged rfl)

theorem Admin.exec_err {step : AdminStep} (h : Admin.exec s c step = .err s' e) : s' = s := by
  cases step with
  | createTopic topic =>
    simp only [exec, createTopic] at h
    split at h <;> cases h
    rfl
  | ensurePartition tp =>
    simp only [exec, ensurePartition] at h
    split at h <;> cases h
  | alterTopic name changes =>
    simp only [exec, alterTopic] at h
    split at h <;> cases h
    rfl
  | deleteTopic topic =>
    simp only [exec, deleteTopic] at h
    split at h <;> cases h
  | dropPartitions name =>
    simp only [exec, dropPartitions] at h
    split at h <;> cases h
  | updateGroup group detail version =>
    simp only [exec, updateGroup] at h
    split at h
    · cases h
    · cases h; rfl
    · cases h; rfl
    · split at h <;> cases h
      rfl
  | deleteGroups groups =>
    simp only [exec, deleteGroups] at h
    cases h
  | removeDir | dropOffsets | upsertScram | deleteScram => cases h

/-! ## Cleanup, snapshots and boot -/

namespace Cleanup

variable {tp : Topition} {known : Bool} {offset now ms bytes : Int}

/-- What `delete_records` truncates to. -/
def deleteTarget (inner : PartitionInner) (offset : Int) : Int :=
  if offset < 0 then inner.highWatermark else offset

theorem deleteRecord_ok (h : deleteRecord s known tp offset = .ok s' next) :
    (s' = s ∧ next = []) ∨ ∃ inner, s.partitions[tp]? = some inner ∧
      deleteTarget inner offset ≤ inner.highWatermark ∧
      s' = s.setPartition tp (inner.advanceLogStart (deleteTarget inner offset)) ∧
      next = [Transactions.logged (.logStartAdvance tp
        (inner.advanceLogStart (deleteTarget inner offset)).logStart)] := by
  unfold deleteRecord at h
  split at h
  · cases h
    exact .inl ⟨rfl, rfl⟩
  · split at h
    · cases h
      exact .inl ⟨rfl, rfl⟩
    · next inner hp =>
      change (if inner.highWatermark < deleteTarget inner offset then _ else _) = _ at h
      split at h
      · cases h
        exact .inl ⟨rfl, rfl⟩
      · next hle =>
        cases h
        exact .inr ⟨inner, hp, Int.not_lt.1 hle, rfl, rfl⟩

theorem deleteRecord_ne_err : deleteRecord s known tp offset ≠ .err s' e := by
  intro h
  simp only [deleteRecord] at h
  split at h
  · cases h
  · split at h
    · cases h
    · split at h
      all_goals split at h <;> cases h

/-- Where retention moves the log start to. -/
def newStart (now ms bytes : Int) (inner : PartitionInner) : Int :=
  let segments := (sealedSegments inner).toList
  retentionStart now ms bytes ((inner.writer.map (·.baseOffset)).getD inner.nextOffset) segments
    inner.logStart ((segments.map (·.2.2)).sum + (inner.writer.map (·.position)).getD 0)

/-- The files below the new log start, without that of the active segment. -/
def expired (dir : SegmentDir) (inner : PartitionInner) (newStart : Int) : List Int :=
  dir.keys.filter fun base =>
    decide (base < newStart) && decide (some base ≠ inner.writer.map (·.baseOffset))

theorem retain_ok (h : retain s now ms bytes tp = .ok s' next) :
    (s' = s ∧ next = []) ∨ ∃ inner dir, s.partitions[tp]? = some inner ∧
      s.dirs[tp]? = some dir ∧ inner.logStart < newStart now ms bytes inner ∧
      s' = s.setPartition tp (inner.advanceLogStart (newStart now ms bytes inner)) ∧
      next = if (expired dir inner (newStart now ms bytes inner)).isEmpty then [] else
        (expired dir inner (newStart now ms bytes inner)).map
            (fun base => .cleanup (.removeSegment tp base)) ++
          [Transactions.logged (.logStartAdvance tp
            (inner.advanceLogStart (newStart now ms bytes inner)).logStart)] := by
  unfold retain at h
  split at h
  · cases h
    exact .inl ⟨rfl, rfl⟩
  · split at h
    · cases h
      exact .inl ⟨rfl, rfl⟩
    · next inner hp =>
      simp only at h
      split at h
      · cases h
        exact .inl ⟨rfl, rfl⟩
      · next hlt =>
        split at h
        · cases h
        · next dir hdir =>
          cases h
          exact .inr ⟨inner, dir, hp, hdir, Int.not_le.1 hlt, rfl, rfl⟩

theorem retain_err (h : retain s now ms bytes tp = .err s' e) :
    ∃ inner, s.partitions[tp]? = some inner ∧ s.dirs[tp]? = none ∧
      s' = s.setPartition tp (inner.advanceLogStart (newStart now ms bytes inner)) := by
  unfold retain at h
  split at h
  · cases h
  · split at h
    · cases h
    · next inner hp =>
      simp only at h
      split at h
      · cases h
      · split at h
        · next hdir =>
          cases h
          exact ⟨inner, hp, hdir, rfl⟩
        · cases h

end Cleanup

theorem Snapshot.exec_err (h : Snapshot.exec cfg s c step = .err s' e) : s' = s := by
  cases step with
  | rotate =>
    simp only [exec, rotate] at h
    split at h <;> cases h
    rfl
  | capturePartition retiredSeq todo skeletons => cases todo <;> cases h
  | awaitSeal doc =>
    simp only [exec, awaitSeal] at h
    split at h
    · cases h
      rfl
    · split at h <;> cases h
  | write doc =>
    simp only [exec] at h
    split at h <;> cases h
    rfl
  | ifGrown | capture | captureState | retire | removeWal | prune => cases h

/-! ## The log -/

/-- A log section writes the log and may wait for it. -/
theorem wal_ok {step : WalStep} (h : Wal.exec cfg s c step = .ok s' next) :
    (∃ wals diskUsage, s' = { s with wals, diskUsage }) ∧ ∀ b ∈ next, ∃ step, b = .wal step := by
  cases step <;> simp only [Wal.exec] at h <;> split at h
  · cases h
  · cases h
    refine ⟨⟨_, _, rfl⟩, fun b hb => ?_⟩
    split at hb
    · exact ⟨_, mem_singleton.1 hb⟩
    · cases hb
  · cases h
  · split at h
    · cases h
      exact ⟨⟨_, _, rfl⟩, by simp⟩
    · cases h

/-- A log section that fails leaves the records of every file. -/
theorem wal_err {step : WalStep} (h : Wal.exec cfg s c step = .err s' e) :
    (∃ wals, s' = { s with wals } ∧ ∀ (seq : Nat) (file : WalFile), wals[seq]? = some file →
      ∃ old, s.wals[seq]? = some old ∧ file.records = old.records) ∧ c.fault ≠ none := by
  cases step <;> simp only [Wal.exec] at h <;> split at h
  · next hf =>
    cases h
    refine ⟨⟨_, rfl, fun seq file hfile => ?_⟩, by simp [hf]⟩
    rw [BTreeMap.getElem?_modify_eq] at hfile
    split at hfile
    · obtain ⟨old, hold, rfl⟩ := Option.map_eq_some_iff.1 hfile
      exact ⟨old, hold, old.tear_records _⟩
    · exact ⟨file, hfile, rfl⟩
  · cases h
  · next hf =>
    cases h
    exact ⟨⟨_, rfl, fun seq file hfile => ⟨file, hfile, rfl⟩⟩, by simp [hf]⟩
  · split at h <;> cases h

/-! ## What `txn_end` goes on with -/

namespace Transactions

variable {b : Action} {effects : List TxnEffects} {step : TxnStep}

theorem mem_markers {call : TxnEnd} {ranges : List (Topition × TxnProduceOffset)}
    (h : b ∈ markers call ranges) : ∃ tp, b = .produce
      (.marker call.transactionId call.producerId call.producerEpoch call.committed tp) := by
  obtain ⟨entry, -, rfl⟩ := List.mem_map.1 h
  exact ⟨entry.1, rfl⟩

theorem mem_terminalRecords (h : b ∈ terminalRecords effects) :
    ∃ effect ∈ effects, ∃ await, b = .wal (.append effect.record await) := by
  induction effects with
  | nil => cases h
  | cons effect rest ih =>
    cases rest with
    | nil => exact ⟨effect, by simp, true, mem_singleton.1 h⟩
    | cons effect' rest =>
      rcases mem_cons.1 h with rfl | h
      · exact ⟨effect, by simp, false, rfl⟩
      · obtain ⟨effect₀, hmem, hb⟩ := ih h
        exact ⟨effect₀, mem_cons_of_mem _ hmem, hb⟩

theorem mem_releases :
    b ∈ effects.flatMap releases ↔ ∃ effect ∈ effects, ∃ entry ∈ effect.ranges,
      b = .txn (.release effect.key effect.aborting entry.1 entry.2) := by
  simp only [mem_flatMap, releases, List.mem_map, eq_comm]

theorem mem_offsetCommits (h : b ∈ offsetCommits effects) :
    ∃ group offsets, b = .offsets (.commit group offsets) := by
  obtain ⟨entry, -, rfl⟩ := List.mem_map.1 h
  exact ⟨entry.1, entry.2, rfl⟩

/-- What a resolution goes on with: the log, the releases and the offsets. -/
theorem mem_resolution
    (h : b ∈ terminalRecords effects ++ effects.flatMap releases ++ offsetCommits effects) :
    (∃ effect ∈ effects, ∃ await, b = .wal (.append effect.record await)) ∨
      (∃ effect ∈ effects, ∃ entry ∈ effect.ranges,
        b = .txn (.release effect.key effect.aborting entry.1 entry.2)) ∨
      b ∈ offsetCommits effects := by
  rcases mem_append.1 h with h | h
  · exact (mem_append.1 h).imp mem_terminalRecords fun h => .inl (mem_releases.1 h)
  · exact .inr (.inr h)

/-- A section of a transactional request changes the coordination state, or
releases a pin. -/
theorem exec_frame (h : Transactions.exec s c step = .ok s' next) :
    (∃ coord, s' = { s with coord } ∧ ((Action.txn step).changesTxns = false →
      coord.transactions = s.coord.transactions)) ∨
      ∃ key aborting tp range, step = .release key aborting tp range ∧ next = [] ∧
        s' = { s with partitions := s.partitions.modify tp (unpin key aborting range) } := by
  cases step with
  | release =>
    cases h
    exact .inr ⟨_, _, _, _, rfl, rfl, rfl⟩
  | initProducer t timeout pid e =>
    left
    cases t with
    | none => rcases initIdempotent_ok h with ⟨rfl, -⟩ | ⟨rfl, -⟩ <;> exact ⟨_, rfl, fun _ => rfl⟩
    | some t =>
      rcases initTransactional_ok h with ⟨rfl, -⟩ | ⟨-, rfl, -⟩ |
        ⟨_, _, -, -, ⟨-, rfl, -⟩ | ⟨-, rfl, -⟩⟩ <;> exact ⟨_, rfl, nofun⟩
  | addPartitions =>
    rcases addPartitions_ok h with ⟨rfl, -⟩ | ⟨_, -, rfl, -⟩ <;> exact .inl ⟨_, rfl, nofun⟩
  | offsetCommit =>
    rcases offsetCommit_ok h with ⟨rfl, -⟩ | ⟨_, -, rfl, -⟩ <;> exact .inl ⟨_, rfl, nofun⟩
  | prepare =>
    obtain ⟨_, -, ⟨-, rfl, -⟩ | ⟨-, rfl, -⟩⟩ := prepare_ok h <;> exact .inl ⟨_, rfl, nofun⟩
  | resolve =>
    obtain ⟨_, -, ⟨-, rfl, -⟩ | ⟨-, rfl, -⟩⟩ := resolve_ok h <;> exact .inl ⟨_, rfl, nofun⟩
  | sweep =>
    cases h
    exact .inl ⟨_, rfl, fun _ => rfl⟩

theorem exec_err (h : Transactions.exec s c step = .err s' e) : s' = s := by
  cases step with
  | initProducer t timeout pid e =>
    cases t with
    | none => exact absurd h initIdempotent_ne_err
    | some t => exact absurd h initTransactional_ne_err
  | addPartitions => exact absurd h addPartitions_ne_err
  | offsetCommit => exact absurd h offsetCommit_ne_err
  | prepare => exact prepare_err h
  | resolve => exact resolve_err h
  | release | sweep => cases h

end Transactions

/-! ## Every section -/

/-- **What a section does** to the partitions, to the files and to their counter. -/
inductive Touches (cfg : Config) (c : Choice) (s : Engine) : Action → Engine → List Action → Prop
  | still {a : Action} {next : List Action} {coordLocked partitionsLocked : Bool} :
      Touches cfg c s a { s with coordLocked, partitionsLocked } next
  | coord {a : Action} {next : List Action} {coord : CoordState}
      (h : a.changesTxns = false → coord.transactions = s.coord.transactions) :
      Touches cfg c s a { s with coord } next
  | admin {step : AdminStep} {next : List Action} {topics : BTreeMap Topic TopicMetadata}
      {scram : BTreeMap (String × String) ScramCredential}
      {groups : BTreeMap Group (GroupDetail × Version)}
      {groupOffsets : BTreeMap (Group × Topition) OffsetCommitRequest}
      (h : ∀ (key : Group × Topition) (request : OffsetCommitRequest),
        groupOffsets[key]? = some request → s.groupOffsets[key]? = some request) :
      Touches cfg c s (.admin step)
        { s with coord := { s.coord with topics, scram }, groups, groupOffsets } next
  | insert {group : Group} {offsets : List (Topition × OffsetCommitRequest)} {known : List Topic}
      {groupOffsets : BTreeMap (Group × Topition) OffsetCommitRequest} {next : List Action} :
      Touches cfg c s (.offsets (.insert group offsets known)) { s with groupOffsets } next
  | append {call : ProduceCall} {attributes : BatchAttribute} {next : List Action}
      {partitions : BTreeMap Topition PartitionInner} {dirs : BTreeMap Topition SegmentDir}
      {diskUsage nextHandle : Nat} (h : Produce.append cfg s c call attributes =
        .ok { s with partitions, dirs, diskUsage, nextHandle } next) :
      Touches cfg c s (.produce (.append call attributes))
        { s with partitions, dirs, diskUsage, nextHandle } next
  | acked {call : ProduceCall} {attributes : BatchAttribute} {ack : Ack} {next : List Action} :
      Touches cfg c s (.produce (.acked call attributes ack)) { s with
        partitions := s.partitions.modify call.topition
          (Produce.raise ack.handle ack.offsetEnd) } next
  | release {key : OpenTxnKey} {aborting : Bool} {tp : Topition} {range : TxnProduceOffset} :
      Touches cfg c s (.txn (.release key aborting tp range)) { s with
        partitions := s.partitions.modify tp (Transactions.unpin key aborting range) } []
  | ensure {tp : Topition} {inner : PartitionInner} {nextHandle : Nat}
      {partitions : BTreeMap Topition PartitionInner} {dirs : BTreeMap Topition SegmentDir}
      (h : s.partition tp = some ({ s with partitions, dirs, nextHandle }, inner)) :
      Touches cfg c s (.admin (.ensurePartition tp)) { s with partitions, dirs, nextHandle } []
  | drop {name : Topic} {next : List Action} : Touches cfg c s (.admin (.dropPartitions name))
      { s with partitions := s.partitions.filter fun tp _ => tp.topic != name } next
  | removeDir {tp : Topition} {bytes : Nat} : Touches cfg c s (.admin (.removeDir tp bytes))
      { s with dirs := s.dirs.erase tp, diskUsage := wrapSubU64 s.diskUsage bytes } []
  | deleteRecord {known : Bool} {tp : Topition} {offset : Int} {inner : PartitionInner}
      {next : List Action} (hp : s.partitions[tp]? = some inner)
      (hle : Cleanup.deleteTarget inner offset ≤ inner.highWatermark) :
      Touches cfg c s (.cleanup (.deleteRecord known tp offset))
        (s.setPartition tp (inner.advanceLogStart (Cleanup.deleteTarget inner offset))) next
  | retain {now ms bytes : Int} {tp : Topition} {inner : PartitionInner} {next : List Action}
      (hp : s.partitions[tp]? = some inner) : Touches cfg c s (.cleanup (.retain now ms bytes tp))
        (s.setPartition tp (inner.advanceLogStart (Cleanup.newStart now ms bytes inner))) next
  | removeSegment {tp : Topition} {base : Int} :
      Touches cfg c s (.cleanup (.removeSegment tp base)) { s with
        dirs := s.dirs.modify tp (·.erase base)
        diskUsage := wrapSubU64 s.diskUsage
          (((s.dirs[tp]?.bind (·[base]?)).map (·.size)).getD 0) } []
  | sealAged {tp : Topition} : Touches cfg c s (.cleanup (.sealAged tp))
      { s with partitions := s.partitions.modify tp (Cleanup.sealAged c) } []
  | log {record : WalRecord} {await : Bool} {next : List Action} :
      Touches cfg c s (.wal (.append record await)) (s.appendWal cfg record) next
  | rotate {next : List Action} (h : s.walSeq + 1 ∉ s.wals) :
      Touches cfg c s (.snapshot .rotate) { s with
        coordLocked := true
        walSeq := s.walSeq + 1
        wals := s.wals.insert (s.walSeq + 1) {} } next
  | write {doc : SnapshotDoc} {next : List Action} : Touches cfg c s (.snapshot (.write doc))
      { s with snapshots := s.snapshots.insert doc.walSeq doc } next
  | prune {next : List Action} : Touches cfg c s (.snapshot .prune)
      { s with snapshots := Snapshot.pruned s.snapshots } next
  | removeWal {seq : Nat} : Touches cfg c s (.snapshot (.removeWal seq)) { s with
      wals := s.wals.erase seq
      diskUsage := wrapSubU64 s.diskUsage ((s.wals[seq]?.map (·.size cfg)).getD 0) } []

theorem run_touches (h : a.run cfg s c = .ok s' next) : Touches cfg c s a s' next := by
  cases a with
  | produce step =>
    cases step with
    | marker => cases h; exact .still
    | guard => obtain ⟨rfl, -⟩ := guard_ok h; exact .still
    | check => obtain ⟨_, rfl, -⟩ := check_ok h; exact .coord fun _ => rfl
    | append => obtain ⟨_, _, _, _, _, rfl, -⟩ := append_ok_partitions h; exact .append h
    | acked => obtain ⟨-, rfl, -⟩ := acked_ok h; exact .acked
    | record => obtain ⟨-, ⟨-, rfl⟩ | ⟨_, -, -, rfl⟩⟩ := record_ok h <;> exact .coord nofun
  | txn step =>
    rcases exec_frame h with ⟨_, rfl, htxns⟩ | ⟨_, _, _, _, rfl, rfl, rfl⟩
    · exact .coord htxns
    · exact .release
  | wal step =>
    cases step <;> simp only [Action.run, Wal.exec] at h <;> split at h
    · cases h
    · cases h
      exact .log
    · cases h
    · split at h <;> cases h
      exact .still
  | offsets step =>
    cases step with
    | commit => cases h; exact .still
    | insert => cases h; exact .insert
  | admin step =>
    cases Admin.does h with
    | stores hoffsets => exact .admin hoffsets
    | opens hp => obtain ⟨_, _, _, rfl⟩ := Engine.partition_coord hp; exact .ensure hp
    | drops => exact .drop
    | removes => exact .removeDir
  | cleanup step =>
    cases step with
    | deleteRecord =>
      rcases Cleanup.deleteRecord_ok h with ⟨rfl, -⟩ | ⟨_, hp, hle, rfl, -⟩
      · exact .still
      · exact .deleteRecord hp hle
    | retain =>
      rcases Cleanup.retain_ok h with ⟨rfl, -⟩ | ⟨_, _, hp, -, -, rfl, -⟩
      · exact .still
      · exact .retain hp
    | removeSegment => cases h; exact .removeSegment
    | sealAged => cases h; exact .sealAged
    | deleteRecords | retention | tick => cases h; exact .still
  | snapshot step =>
    cases step with
    | rotate =>
      simp only [Action.run, Snapshot.exec, Snapshot.rotate] at h
      split at h
      · cases h
      · next hfree =>
        cases h
        exact .rotate fun hmem => hfree (.inr hmem)
    | removeWal => cases h; exact .removeWal
    | capturePartition _ todo _ => cases todo <;> cases h <;> exact .still
    | awaitSeal =>
      simp only [Action.run, Snapshot.exec, Snapshot.awaitSeal] at h
      split at h
      · cases h
      · split at h <;> cases h
        exact .still
    | write =>
      simp only [Action.run, Snapshot.exec] at h
      split at h <;> cases h
      exact .write
    | prune => cases h; exact .prune
    | ifGrown | capture | captureState | retire => cases h; exact .still
  | boot | handler | answer => cases h; exact .still

/-- **Where a section that fails has done something**: in a check, an append or a
retention. -/
inductive Fails (s : Engine) : Action → Engine → Prop
  | still {a : Action} : Fails s a s
  | wal {step : WalStep} {wals : BTreeMap Nat WalFile}
      (hwals : ∀ (seq : Nat) (file : WalFile), wals[seq]? = some file →
        ∃ old, s.wals[seq]? = some old ∧ file.records = old.records) :
      Fails s (.wal step) { s with wals }
  | check {call : ProduceCall} {attributes : BatchAttribute}
      {producers : BTreeMap Int ProducerDetail} :
      Fails s (.produce (.check call attributes)) { s with coord := { s.coord with producers } }
  | append {call : ProduceCall} {attributes : BatchAttribute} {s' : Engine} :
      Fails s (.produce (.append call attributes)) s'
  | retain {now ms bytes : Int} {tp : Topition} {inner : PartitionInner}
      (hp : s.partitions[tp]? = some inner) : Fails s (.cleanup (.retain now ms bytes tp))
      (s.setPartition tp (inner.advanceLogStart (Cleanup.newStart now ms bytes inner)))

theorem run_fails (h : a.run cfg s c = .err s' e) : Fails s a s' := by
  cases a with
  | produce step =>
    cases step with
    | check => obtain ⟨_, rfl⟩ := check_err h; exact .check
    | append => exact .append
    | guard => obtain rfl := guard_err h; exact .still
    | acked => obtain rfl := (acked_err h).1; exact .still
    | record => obtain rfl := (record_err h).1; exact .still
    | marker => cases h
  | txn step => obtain rfl := Transactions.exec_err h; exact .still
  | wal step => obtain ⟨⟨_, rfl, hwals⟩, -⟩ := wal_err h; exact .wal hwals
  | offsets step => cases step <;> cases h
  | admin step => obtain rfl := Admin.exec_err h; exact .still
  | cleanup step =>
    cases step with
    | retain => obtain ⟨_, hp, -, rfl⟩ := Cleanup.retain_err h; exact .retain hp
    | deleteRecord => exact absurd h Cleanup.deleteRecord_ne_err
    | deleteRecords | retention | removeSegment | tick | sealAged => cases h
  | snapshot step => obtain rfl := Snapshot.exec_err h; exact .still
  | boot | handler | answer => cases h

theorem run_transactions (ha : a.changesTxns = false) (h : a.run cfg s c = .ok s' next) :
    s'.coord.transactions = s.coord.transactions := by
  cases run_touches h with
  | coord htxns => exact htxns ha
  | _ => rfl

/-- A section that fails changes sequences, partitions and files at most. -/
theorem run_err_frame (h : a.run cfg s c = .err s' e) :
    ∃ producers partitions dirs nextHandle wals, s' = { s with
      coord := { s.coord with producers }
      partitions, dirs, nextHandle, wals } := by
  cases run_fails h with
  | still | wal | check | retain => exact ⟨_, _, _, _, _, rfl⟩
  | append =>
    rcases append_err_partitions h with rfl | ⟨_, _, _, _, rfl, -⟩ <;>
      exact ⟨_, _, _, _, _, rfl⟩

theorem run_err_wals {seq : Nat} {file : WalFile} (h : a.run cfg s c = .err s' e)
    (hfile : s'.wals[seq]? = some file) :
    ∃ old, s.wals[seq]? = some old ∧ file.records = old.records := by
  cases run_fails h with
  | still | check | retain => exact ⟨file, hfile, rfl⟩
  | wal hwals => exact hwals seq file hfile
  | append =>
    rcases append_err_partitions h with rfl | ⟨_, _, _, _, rfl, -⟩ <;>
      exact ⟨file, hfile, rfl⟩

theorem run_err_transactions (h : a.run cfg s c = .err s' e) :
    s'.coord.transactions = s.coord.transactions := by
  obtain ⟨_, _, _, _, _, rfl⟩ := run_err_frame h
  rfl

/-- Every other section than the insertion of a commit keeps the group offsets or
removes some. -/
theorem run_groupOffsets {key : Group × Topition} {request : OffsetCommitRequest}
    (ha : ∀ group offsets known, a ≠ .offsets (.insert group offsets known))
    (h : a.run cfg s c = .ok s' next) (hmem : s'.groupOffsets[key]? = some request) :
    s.groupOffsets[key]? = some request := by
  cases run_touches h with
  | admin hoffsets => exact hoffsets key request hmem
  | insert => exact absurd rfl (ha _ _ _)
  | _ => exact hmem

/-! ## What a section goes on with -/

/-- **What a section may be followed by.** -/
inductive Leads (s s' : Engine) : Action → Action → Prop
  | marker {t : String} {pid e now : Int} {committed : Bool} {tp : Topition} :
      Leads s s' (.produce (.marker t pid e committed tp))
        (.produce (.guard ⟨some t, tp, markerBatch pid e committed now⟩))
  | guard {call : ProduceCall} {attributes : BatchAttribute}
      (h : BatchAttribute.tryFrom call.batch.attributes = .ok attributes) :
      Leads s s' (.produce (.guard call)) (.produce (.check call attributes))
  | check {call : ProduceCall} {attributes : BatchAttribute} :
      Leads s s' (.produce (.check call attributes)) (.produce (.append call attributes))
  | append {call : ProduceCall} {attributes : BatchAttribute} {ack : Ack} :
      Leads s s' (.produce (.append call attributes)) (.produce (.acked call attributes ack))
  | acked {t : String} {call : ProduceCall} {attributes : BatchAttribute} {ack : Ack} :
      Leads s s' (.produce (.acked call attributes ack)) (.produce (.record t call attributes ack))
  | log {a : Action} {record : WalRecord} {await : Bool} (h : record.standing = true) :
      Leads s s' a (.wal (.append record await))
  | await {step : WalStep} {seq upTo : Nat} : Leads s s' (.wal step) (.wal (.await seq upTo))
  | rollBack {t : String} {timeout : Int} {pid? e? : Option Int} {pid e : Int} :
      Leads s s' (.txn (.initProducer (some t) timeout pid? e?))
        (.txn (.prepare ⟨t, pid, e, false⟩))
  | retry {t : String} {timeout : Int} {pid? e? : Option Int} :
      Leads s s' (.txn (.initProducer (some t) timeout pid? e?))
        (.txn (.initProducer (some t) timeout pid? e?))
  | mark {call : TxnEnd} {tp : Topition} : Leads s s' (.txn (.prepare call)) (.produce
      (.marker call.transactionId call.producerId call.producerEpoch call.committed tp))
  | resolve {call : TxnEnd} : Leads s s' (.txn (.prepare call)) (.txn (.resolve call))
  | release {call : TxnEnd} {key : OpenTxnKey} {aborting : Bool} {tp : Topition}
      {range : TxnProduceOffset} :
      Leads s s' (.txn (.resolve call)) (.txn (.release key aborting tp range))
  | commit {call : TxnEnd} {group : Group} {offsets : List (Topition × OffsetCommitRequest)} :
      Leads s s' (.txn (.resolve call)) (.offsets (.commit group offsets))
  | expire {now : Int} {call : TxnEnd} : Leads s s' (.txn (.sweep now)) (.txn (.prepare call))
  | handle {now : Int} : Leads s s' (.txn (.sweep now)) .handler
  | insert {group : Group} {offsets : List (Topition × OffsetCommitRequest)} {known : List Topic} :
      Leads s s' (.offsets (.commit group offsets)) (.offsets (.insert group offsets known))
  | admin {step step' : AdminStep} : Leads s s' (.admin step) (.admin step')
  | cleanup {step step' : CleanupStep} (h : ∀ tp base, step' ≠ .removeSegment tp base) :
      Leads s s' (.cleanup step) (.cleanup step')
  | expired {now ms bytes base : Int} {tp : Topition} {inner : PartitionInner} {dir : SegmentDir}
      (hp : s.partitions[tp]? = some inner) (hdir : s.dirs[tp]? = some dir)
      (hp' : s'.partitions[tp]? =
        some (inner.advanceLogStart (Cleanup.newStart now ms bytes inner)))
      (hbase : base ∈ Cleanup.expired dir inner (Cleanup.newStart now ms bytes inner)) :
      Leads s s' (.cleanup (.retain now ms bytes tp)) (.cleanup (.removeSegment tp base))
  | move {step : CleanupStep} {tp : Topition} {inner : PartitionInner}
      (hp : s'.partitions[tp]? = some inner) :
      Leads s s' (.cleanup step) (Transactions.logged (.logStartAdvance tp inner.logStart))
  | grown : Leads s s' (.snapshot .ifGrown) (.snapshot .rotate)
  | rotated (h : s.walSeq < s'.walSeq) :
      Leads s s' (.snapshot .rotate) (.snapshot (.capture s.walSeq))
  | captured {seq : Nat} {todo : List Topition} :
      Leads s s' (.snapshot (.capture seq)) (.snapshot (.capturePartition seq todo ∅))
  | listed {seq : Nat} {tp : Topition} {todo : List Topition}
      {skeletons : BTreeMap Topition Skeleton} :
      Leads s s' (.snapshot (.capturePartition seq (tp :: todo) skeletons))
        (.snapshot (.capturePartition seq todo (match s.partitions[tp]? with
          | none => skeletons
          | some inner => skeletons.insert tp ⟨inner.logStart, inner.aborted⟩)))
  | listedAll {seq : Nat} {skeletons : BTreeMap Topition Skeleton} :
      Leads s s' (.snapshot (.capturePartition seq [] skeletons))
        (.snapshot (.captureState seq skeletons))
  | stated {seq : Nat} {skeletons : BTreeMap Topition Skeleton} :
      Leads s s' (.snapshot (.captureState seq skeletons))
        (.snapshot (.awaitSeal ⟨seq, ⟨s.coord, s.groups, s.groupOffsets, skeletons⟩⟩))
  | sealed {doc : SnapshotDoc} : Leads s s' (.snapshot (.awaitSeal doc)) (.snapshot (.write doc))
  | written {doc : SnapshotDoc} :
      Leads s s' (.snapshot (.write doc)) (.snapshot (.retire doc.walSeq))
  | retired {seq seq' : Nat} (h : seq' ≤ seq) :
      Leads s s' (.snapshot (.retire seq)) (.snapshot (.removeWal seq'))
  | pruned {seq : Nat} : Leads s s' (.snapshot (.retire seq)) (.snapshot .prune)
  | remark {entry : InDoubt} {call : TxnEnd} {tp : Topition} : Leads s s' (.boot entry) (.produce
      (.marker call.transactionId call.producerId call.producerEpoch call.committed tp))
  | finish {entry : InDoubt} {call : TxnEnd} : Leads s s' (.boot entry) (.txn (.prepare call))

namespace Leads

theorem produced {step : ProduceStep} (h : Action.run cfg s c (.produce step) = .ok s' next) :
    ∀ b ∈ next, Leads s s' (.produce step) b := by
  intro b hb
  cases step with
  | marker => cases h; rw [mem_singleton.1 hb]; exact .marker
  | guard => obtain ⟨-, _, hattr, rfl⟩ := guard_ok h; rw [mem_singleton.1 hb]; exact .guard hattr
  | check => obtain ⟨_, -, -, rfl⟩ := check_ok h; rw [mem_singleton.1 hb]; exact .check
  | append =>
    obtain ⟨_, _, _, _, _, -, -, rfl⟩ := append_ok_partitions h
    rw [mem_singleton.1 hb]
    exact .append
  | acked =>
    obtain ⟨-, -, rfl⟩ := acked_ok h
    split at hb
    · cases hb
    · rw [mem_singleton.1 hb]
      exact .acked
  | record => obtain ⟨rfl, -⟩ := record_ok h; cases hb

theorem transacted {step : TxnStep} (h : Transactions.exec s c step = .ok s' next) :
    ∀ b ∈ next, Leads s s' (.txn step) b := by
  intro b hb
  have hlogged {record : WalRecord} (hr : record.standing = true)
      (hb : b ∈ [Transactions.logged record]) : Leads s s' (.txn step) b := by
    rw [mem_singleton.1 hb]
    exact .log hr
  cases step with
  | initProducer t timeout pid e =>
    cases t with
    | none =>
      rcases initIdempotent_ok h with ⟨-, rfl⟩ | ⟨-, rfl⟩
      · cases hb
      · exact hlogged rfl hb
    | some t =>
      rcases initTransactional_ok h with ⟨-, rfl⟩ | ⟨-, -, rfl⟩ |
        ⟨_, _, -, -, ⟨-, -, rfl⟩ | ⟨-, -, rfl⟩⟩
      · cases hb
      · exact hlogged rfl hb
      · simp only [mem_cons, not_mem_nil, or_false] at hb
        rcases hb with rfl | rfl
        · exact .rollBack
        · exact .retry
      · exact hlogged rfl hb
  | addPartitions =>
    rcases addPartitions_ok h with ⟨-, rfl⟩ | ⟨_, -, -, rfl⟩
    · cases hb
    · exact hlogged rfl hb
  | offsetCommit =>
    rcases offsetCommit_ok h with ⟨-, rfl⟩ | ⟨_, -, -, rfl⟩
    · cases hb
    · exact hlogged rfl hb
  | prepare call =>
    obtain ⟨d, -, ⟨-, -, rfl⟩ | ⟨-, -, rfl⟩⟩ := prepare_ok h
    · simp only [cons_append, mem_cons, mem_append, not_mem_nil,
        or_false] at hb
      rcases hb with rfl | hb | rfl
      · exact .log rfl
      · obtain ⟨_, rfl⟩ := mem_markers hb
        exact .mark
      · exact .resolve
    · rw [mem_singleton.1 hb]
      exact .resolve
  | resolve call =>
    obtain ⟨d, -, ⟨-, -, rfl⟩ | ⟨-, -, rfl⟩⟩ := resolve_ok h
    · cases hb
    · rcases mem_resolution hb with ⟨_, -, _, rfl⟩ | ⟨_, -, _, -, rfl⟩ | hb
      · exact .log rfl
      · exact .release
      · obtain ⟨_, _, rfl⟩ := mem_offsetCommits hb
        exact .commit
  | release => cases h; cases hb
  | sweep now =>
    cases h
    obtain ⟨entry, -, hb⟩ := mem_flatMap.1 hb
    simp only [mem_cons, not_mem_nil, or_false] at hb
    rcases hb with rfl | rfl
    · exact .expire
    · exact .handle

theorem cleaned {step : CleanupStep} (h : Cleanup.exec s c step = .ok s' next) :
    ∀ b ∈ next, Leads s s' (.cleanup step) b := by
  intro b hb
  have hnew {tp : Topition} {inner : PartitionInner} :
      (s.setPartition tp inner).partitions[tp]? = some inner := by
    rw [Engine.setPartition, BTreeMap.getElem?_insert_eq, if_pos rfl]
  cases step with
  | deleteRecords | tick =>
    cases h
    obtain ⟨_, -, rfl⟩ := List.mem_map.1 hb
    exact .cleanup fun _ _ heq => by cases heq
  | deleteRecord known tp offset =>
    rcases Cleanup.deleteRecord_ok h with ⟨-, rfl⟩ | ⟨_, -, -, rfl, rfl⟩
    · cases hb
    · rw [mem_singleton.1 hb]
      exact .move hnew
  | retention now =>
    cases h
    obtain ⟨_, -, hb⟩ := List.mem_filterMap.1 hb
    obtain ⟨_, -, rfl⟩ := Option.map_eq_some_iff.1 hb
    exact .cleanup fun _ _ heq => by cases heq
  | retain now ms bytes tp =>
    rcases Cleanup.retain_ok h with ⟨-, rfl⟩ | ⟨inner, dir, hp, hdir, -, rfl, rfl⟩
    · cases hb
    · split at hb
      · cases hb
      · rcases mem_append.1 hb with hb | hb
        · obtain ⟨base, hbase, rfl⟩ := List.mem_map.1 hb
          exact .expired hp hdir hnew hbase
        · rw [mem_singleton.1 hb]
          exact .move hnew
  | removeSegment | sealAged => cases h; cases hb

theorem snapped (h : Snapshot.exec cfg s c step = .ok s' next) :
    ∀ b ∈ next, Leads s s' (.snapshot step) b := by
  intro b hb
  cases step with
  | ifGrown =>
    cases h
    split at hb
    · cases hb
    · rw [mem_singleton.1 hb]
      exact .grown
  | rotate =>
    simp only [Snapshot.exec, Snapshot.rotate] at h
    split at h <;> cases h
    rw [mem_singleton.1 hb]
    exact .rotated (Nat.lt_succ_self _)
  | capture => cases h; rw [mem_singleton.1 hb]; exact .captured
  | capturePartition _ todo _ =>
    cases todo with
    | nil => cases h; rw [mem_singleton.1 hb]; exact .listedAll
    | cons => cases h; rw [mem_singleton.1 hb]; exact .listed
  | captureState => cases h; rw [mem_singleton.1 hb]; exact .stated
  | awaitSeal doc =>
    simp only [Snapshot.exec, Snapshot.awaitSeal] at h
    split at h
    · cases h
    · split at h <;> cases h
      rw [mem_singleton.1 hb]
      exact .sealed
  | write doc =>
    simp only [Snapshot.exec] at h
    split at h <;> cases h
    rw [mem_singleton.1 hb]
    exact .written
  | retire seq =>
    cases h
    rcases mem_append.1 hb with hb | hb
    · obtain ⟨seq', hseq, rfl⟩ := List.mem_map.1 hb
      exact .retired (of_decide_eq_true (List.mem_filter.1 hseq).2)
    · rw [mem_singleton.1 hb]
      exact .pruned
  | removeWal | prune => cases h; cases hb

end Leads

theorem run_leads (h : a.run cfg s c = .ok s' next) : ∀ b ∈ next, Leads s s' a b := by
  intro b hb
  cases a with
  | produce step => exact .produced h b hb
  | txn step => exact .transacted h b hb
  | wal step =>
    cases step <;> simp only [Action.run, Wal.exec] at h <;> split at h
    · cases h
    · cases h
      split at hb
      · rw [mem_singleton.1 hb]
        exact .await
      · cases hb
    · cases h
    · split at h <;> cases h
      cases hb
  | offsets step =>
    cases step with
    | commit => cases h; rw [mem_singleton.1 hb]; exact .insert
    | insert =>
      cases h
      split at hb
      · cases hb
      · rw [mem_singleton.1 hb]
        exact .log rfl
  | admin step =>
    cases Admin.does h with
    | stores _ hnext =>
      rcases hnext b hb with ⟨_, rfl⟩ | ⟨_, rfl⟩ | ⟨_, hr, rfl⟩
      · exact .admin
      · exact .admin
      · exact .log hr
    | opens | removes => cases hb
    | drops =>
      rcases mem_append.1 hb with hb | hb
      · obtain ⟨_, -, rfl⟩ := List.mem_map.1 hb
        exact .admin
      · rw [mem_singleton.1 hb]
        exact .admin
  | cleanup step => exact .cleaned h b hb
  | snapshot step => exact .snapped h b hb
  | boot =>
    cases h
    rcases mem_append.1 hb with hb | hb
    · obtain ⟨tp, rfl⟩ := mem_markers hb
      exact .remark
    · rw [mem_singleton.1 hb]
      exact .finish
  | handler | answer => cases h; cases hb

/-- Only a resolution and an offset commit are followed by offset sections. -/
theorem mem_next_offsets {step : OffsetStep} (h : a.run cfg s c = .ok s' next)
    (hb : .offsets step ∈ next) :
    (∃ call, a = .txn (.resolve call)) ∨ ∃ group offsets, a = .offsets (.commit group offsets) := by
  cases run_leads h _ hb with
  | commit => exact .inl ⟨_, rfl⟩
  | insert => exact .inr ⟨_, _, rfl⟩

/-- The flushers touch files only. -/
theorem env_untouched {ev : Env} (h : env s ev = some s') :
    s'.coord = s.coord ∧ s'.partitions = s.partitions := by
  cases ev <;> cases h <;> exact ⟨rfl, rfl⟩

end Tansu.Nvme
