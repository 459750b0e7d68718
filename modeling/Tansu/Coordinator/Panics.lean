import Tansu.Coordinator.Leadership
import Tansu.Topition

/-!
# Requests that cannot be answered

A handler of the coordinator panics where it indexes an empty list of protocols,
expects the protocol of a group that has a leader, or has a `todo!()` in the place
of an error.  A group that has a leader has its protocol in every run, so the
second is never reached.  The first is reached by a join that offers no protocol to
a group that has none, the last by an offset fetch that the storage fails.
-/

namespace Tansu.Coordinator

open Std Tansu.Lib Option

/-! ## Fetching offsets -/

/-- The offsets that the storage keeps for a group; `none` is an error. -/
structure OffsetStorage where
  offsetFetch : Option String → List Topition → Option Bool → Option (BTreeMap Topition Int64)
  committedOffsetTopitions : String → Option (BTreeMap Topition Int64)

structure OffsetFetchRequestTopic where
  name : String
  partitionIndexes : Option (List Int32)

structure OffsetFetchRequestGroup where
  groupId : String
  topics : Option (List OffsetFetchRequestTopic)

structure OffsetFetch where
  now : SystemTime
  groupId : Option String
  topics : Option (List OffsetFetchRequestTopic)
  groups : Option (List OffsetFetchRequestGroup)
  requireStable : Option Bool

structure OffsetFetchResponsePartition where
  partitionIndex : Int32
  committedOffset : Int64
  committedLeaderEpoch : Option Int32 := some (-1)
  metadata : Option String := some ""
  errorCode : ErrorCode := .none

/-- The partition of a group's topic. -/
structure OffsetFetchResponsePartitions where
  partitionIndex : Int32
  committedOffset : Int64
  committedLeaderEpoch : Int32 := -1
  metadata : Option String := none
  errorCode : ErrorCode := .none

/-- `OffsetFetchResponseTopic`, and `OffsetFetchResponseTopics` of a group. -/
structure OffsetFetchResponseTopic (P : Type) where
  name : String
  partitions : Option (List P)

structure OffsetFetchResponseGroup where
  groupId : String
  topics : Option (List (OffsetFetchResponseTopic OffsetFetchResponsePartitions))
  errorCode : ErrorCode := .none

structure OffsetFetchResponse where
  throttleTimeMs : Option Int32 := some 0
  topics : Option (List (OffsetFetchResponseTopic OffsetFetchResponsePartition))
  errorCode : Option ErrorCode := some .none
  groups : Option (List OffsetFetchResponseGroup)

namespace OffsetFetch

def topitions (topics : List OffsetFetchRequestTopic) : List Topition :=
  topics.flatMap fun topic => (topic.partitionIndexes.getD []).map (⟨topic.name, ·⟩)

/-- The offsets, grouped by topic. -/
def grouped {P : Type} (partition : Int32 → Int64 → P) (offsets : BTreeMap Topition Int64) :
    List (OffsetFetchResponseTopic P) :=
  let names := (offsets.toList.foldl (fun m entry => m.insert entry.1.topic ())
    (∅ : BTreeMap String Unit)).keys
  names.map fun name => ⟨name, some (offsets.toList.filterMap fun entry =>
    if entry.1.topic = name then some (partition entry.1.partition entry.2) else none)⟩

/-- The part of `fetch_offset` for the topics of the request. -/
def fetchTopics (storage : OffsetStorage) (r : OffsetFetch) :
    Option (Option (List (OffsetFetchResponseTopic OffsetFetchResponsePartition))) :=
  match r.topics with
  | none => some none
  | some topics =>
    (storage.offsetFetch r.groupId (topitions topics) r.requireStable).map fun offsets =>
      some (grouped
        (fun partitionIndex committedOffset => { partitionIndex, committedOffset }) offsets)

/-- One of the groups of the request; without topics it is every committed offset. -/
def fetchGroup (storage : OffsetStorage) (r : OffsetFetch) (group : OffsetFetchRequestGroup) :
    Option OffsetFetchResponseGroup :=
  (match group.topics with
    | some topics => storage.offsetFetch (some group.groupId) (topitions topics) r.requireStable
    | none => storage.committedOffsetTopitions group.groupId).map fun offsets =>
      { groupId := group.groupId
        topics := some (grouped
          (fun partitionIndex committedOffset => { partitionIndex, committedOffset }) offsets) }

/-- The groups one after the other; the first error ends the loop. -/
def fetchGroups (storage : OffsetStorage) (r : OffsetFetch) :
    List OffsetFetchRequestGroup → Option (List OffsetFetchResponseGroup)
  | [] => some []
  | group :: rest => do
    let response ← r.fetchGroup storage group
    let responses ← r.fetchGroups storage rest
    return response :: responses

/-- `fetch_offset`. -/
def fetchOffset (storage : OffsetStorage) (r : OffsetFetch) : Option OffsetFetchResponse := do
  let topics ← r.fetchTopics storage
  match r.groups with
  | none => return { topics, groups := none }
  | some groups =>
    let groups ← r.fetchGroups storage groups
    return { topics, groups := some groups }

end OffsetFetch

/-- Both states of a group have the same body, with a `todo!()` for an error. -/
def Wrapper.offsetFetch (w : Wrapper) (storage : OffsetStorage) (r : OffsetFetch) :
    Option (Wrapper × OffsetFetchResponse) :=
  (r.fetchOffset storage).map (w, ·)

/-! ## Requests of a client -/

inductive ClientRequest
  | group (r : Request)
  | offsetFetch (storage : OffsetStorage) (r : OffsetFetch)

inductive ClientBody
  | group (body : Body)
  | offsetFetchResponse (response : OffsetFetchResponse)

/-- What a broker does with a request, given the group as it has it; `none` is a panic.
An offset fetch is handled by a new group that is thrown away. -/
def handle (w : Option Wrapper) : ClientRequest → Option (Wrapper × ClientBody)
  | .group r => ((w.getD r.empty).pass r).map (·.map id .group)
  | .offsetFetch storage r =>
    ((Wrapper.forming (Inner.new r.now)).offsetFetch storage r).map (·.map id .offsetFetchResponse)

/-- A join offers a protocol or finds that of the group; the storage does not fail the
call for the topics of an offset fetch, nor the one for any of its groups. -/
def Answerable (w : Option Wrapper) : ClientRequest → Prop
  | .group (.join r) => r.protocols = some [] → w.any (·.protocolName.isSome) = true
  | .group _ => True
  | .offsetFetch storage r =>
    (∀ topics ∈ r.topics,
      (storage.offsetFetch r.groupId (OffsetFetch.topitions topics) r.requireStable).isSome) ∧
    ∀ group ∈ r.groups.getD [],
      (∀ topics ∈ group.topics, (storage.offsetFetch (some group.groupId)
        (OffsetFetch.topitions topics) r.requireStable).isSome) ∧
      (group.topics = none → (storage.committedOffsetTopitions group.groupId).isSome)

/-! ## The protocol of a group that has a leader -/

/-- The name and the type of the protocol are chosen together, before there is a leader. -/
structure Forming.Chosen (s : Forming) : Prop where
  together : s.protocolName.isSome → s.protocolType.isSome
  led : s.leader.isSome → s.protocolName.isSome

def Wrapper.Chosen : Wrapper → Prop
  | forming g => g.state.Chosen
  | formed _ => True

namespace Wrapper.Chosen

variable {w w' : Wrapper} {memberId : MemberId} {now : SystemTime}

theorem reform {g : Inner Formed} {members : Members} {generationId : Int32}
    {leader : Option MemberId} : (forming (g.reform members generationId leader)).Chosen :=
  ⟨fun _ => rfl, fun _ => rfl⟩

variable {g : Inner Forming} {r : JoinGroup} {protocol : JoinGroupRequestProtocol}
  {response : JoinGroupResponse}

theorem forming_missedHeartbeat (h : g.state.Chosen) :
    (Forming.missedHeartbeat g memberId now).1.state.Chosen := by
  simp only [Forming.missedHeartbeat, updateLastContact_state]
  exact ⟨h.together, fun hleader => h.led (isSome_of_isSome_filter _ _ hleader)⟩

theorem missedHeartbeat (h : w.Chosen) : (w.missedHeartbeat memberId now).Chosen := by
  cases w with
  | forming g => exact forming_missedHeartbeat h
  | formed g =>
    simp only [Wrapper.missedHeartbeat]
    split
    · exact reform
    · trivial

theorem evict {groupInstanceId : Option String} (h : w.Chosen) :
    (w.evict groupInstanceId memberId now).Chosen := by
  rw [Wrapper.evict]
  split
  · exact h.missedHeartbeat
  · exact h

theorem forming_enrol (hname : g.state.protocolName.isSome) (htype : g.state.protocolType.isSome) :
    (Forming.enrol g r protocol).1.state.Chosen := by
  simp only [Forming.enrol]
  split <;> exact ⟨fun _ => htype, fun _ => hname⟩

theorem formed_enrol {g : Inner Formed} : (Formed.enrol g r protocol).1.Chosen := by
  simp only [Formed.enrol]
  split
  · exact reform
  · split
    · split
      · trivial
      · exact reform
    · exact reform

section

variable (h : w.Chosen)
include h

theorem join (hjoin : w.join r = some (w', response)) : w'.Chosen := by
  cases joins hjoin with
  | refused => exact h
  | forming _ _ hstate henrol =>
    obtain rfl := congrArg Prod.fst henrol
    refine forming_enrol hstate.2.1 ?_
    rcases hstate.2.2 with heq | htype
    · rw [heq] at hstate ⊢
      exact h.together hstate.2.1
    · exact htype
  | formed => exact formed_enrol

theorem sync {r : SyncGroup} {response : SyncGroupResponse} (hsync : w.sync r = some (w', response))
    : w'.Chosen := by
  cases w with
  | formed g =>
    cases hsync
    trivial
  | forming g =>
    obtain rfl | ⟨assignments, protocolType, protocolName, -, -, -, rfl⟩ :=
      Forming.sync_cases hsync
    · exact h
    · trivial

theorem heartbeat {r : Heartbeat} : (w.heartbeat r).1.Chosen := by
  cases w with
  | formed g => trivial
  | forming g =>
    simp only [Wrapper.heartbeat, Prod.map_fst, Forming.heartbeat]
    split
    · exact h
    · split
      · exact h
      · split <;> exact forming_missedHeartbeat (g := { g with members := _ }) h

theorem leave {r : LeaveGroup} : (w.leave r).1.Chosen := by
  cases w with
  | forming g => exact h
  | formed g =>
    simp only [Wrapper.leave, Formed.leave]
    split
    · exact reform
    · trivial

theorem offsetCommit {r : OffsetCommit} : (w.offsetCommit r).1.Chosen := by
  cases w with
  | formed g => trivial
  | forming g => exact of_offsetCommit (fun g => (forming g).Chosen) h fun _ => h

theorem pass {r : Request} {body : Body} (hpass : w.pass r = some (w', body)) : w'.Chosen := by
  cases r with
  | join r =>
    obtain ⟨⟨w₁, response⟩, hjoin, heq⟩ := map_eq_some_iff.1 hpass
    cases heq
    exact h.evict.join hjoin
  | sync r =>
    obtain ⟨⟨w₁, response⟩, hsync, heq⟩ := map_eq_some_iff.1 hpass
    cases heq
    exact h.evict.sync hsync
  | heartbeat r =>
    cases hpass
    exact h.evict.heartbeat
  | leave r =>
    cases hpass
    exact h.missedHeartbeat.leave
  | offsetCommit r =>
    cases hpass
    exact h.offsetCommit

/-- A leader that is dropped on the way from the storage takes nothing with it. -/
theorem rebuilt : w.rebuilt.Chosen := by
  cases w with
  | formed g => trivial
  | forming g => exact ⟨h.together, fun hleader => h.led (isSome_of_isSome_filter _ _ hleader)⟩

end

theorem empty (r : Request) : r.empty.Chosen := by
  cases r <;> exact ⟨(by intro h; cases h), (by intro h; cases h)⟩

end Wrapper.Chosen

theorem chosen_of_reach {w : Option Wrapper} (h : coordinator.Reach (fun _ _ => True) none w) :
    ∀ g, w = some g → g.Chosen :=
  forall_of_reach h Wrapper.Chosen.empty (fun hw _ hpass => hw.pass hpass) fun hw => hw.rebuilt

/-! ## Every request is answered -/

variable {g : Inner Forming}

theorem Forming.join_isSome_iff {r : JoinGroup} :
    (Forming.join g r).isSome ↔ (r.protocols = some [] → g.state.protocolName.isSome) := by
  rw [Forming.join]
  split
  · next hprotocols => simp [hprotocols]
  · next protocols hprotocols =>
    split
    · next name hname => split <;> simp [hname]
    · next hname => cases protocols <;> simp [hprotocols, hname]

/-- The leader is the only one who gets as far as the protocol. -/
theorem Forming.sync_isSome {r : SyncGroup} (h : g.state.Chosen) : (Forming.sync g r).isSome := by
  simp only [Forming.sync]
  split
  · rfl
  · split
    · rfl
    · split
      · rfl
      · split
        · rfl
        · next hlead =>
          have hleader := (not_not.1 hlead).1
          have hname : g.state.protocolName.isSome := h.led (by rw [hleader]; rfl)
          obtain ⟨name, hn⟩ := isSome_iff_exists.1 hname
          obtain ⟨type, ht⟩ := isSome_iff_exists.1 (h.together hname)
          split
          · rfl
          · rw [hn, ht]
            rfl

namespace Wrapper

variable {w : Wrapper}

theorem protocol_missedHeartbeat (w : Wrapper) (memberId : MemberId) (now : SystemTime) :
    (w.missedHeartbeat memberId now).protocolName = w.protocolName ∧
      (w.missedHeartbeat memberId now).protocolType = w.protocolType := by
  cases w with
  | forming g => simp [Wrapper.missedHeartbeat, Forming.missedHeartbeat, protocolName, protocolType]
  | formed g =>
    simp only [Wrapper.missedHeartbeat]
    split <;> simp [protocolName, protocolType, Inner.reform]

theorem protocol_evict (w : Wrapper) (groupInstanceId : Option String) (memberId : MemberId)
    (now : SystemTime) :
    (w.evict groupInstanceId memberId now).protocolName = w.protocolName ∧
      (w.evict groupInstanceId memberId now).protocolType = w.protocolType := by
  rw [Wrapper.evict]
  split
  · exact protocol_missedHeartbeat w memberId now
  · exact ⟨rfl, rfl⟩

theorem join_isSome_iff {r : JoinGroup} :
    (w.join r).isSome ↔ (r.protocols = some [] → w.protocolName.isSome) := by
  cases w with
  | forming g => simpa [Wrapper.join, protocolName] using Forming.join_isSome_iff
  | formed g => exact iff_of_true rfl fun _ => rfl

theorem sync_isSome {r : SyncGroup} (h : w.Chosen) : (w.sync r).isSome := by
  cases w with
  | forming g => exact Forming.sync_isSome h
  | formed g => rfl

theorem pass_isSome_iff {r : Request} (h : w.Chosen) :
    (w.pass r).isSome ↔ ∀ j, r = .join j → j.protocols = some [] → w.protocolName.isSome := by
  cases r with
  | join r =>
    have hname := (protocol_evict w r.groupInstanceId r.memberId r.now).1
    simpa [pass, hname] using join_isSome_iff (w := w.evict r.groupInstanceId r.memberId r.now)
  | sync r => simpa [pass] using sync_isSome (r := r) h.evict
  | heartbeat r => simp [pass]
  | leave r => simp [pass]
  | offsetCommit r => simp [pass]

end Wrapper

namespace OffsetFetch

variable {storage : OffsetStorage} {r : OffsetFetch}

theorem fetchTopics_isSome_iff :
    (r.fetchTopics storage).isSome ↔ ∀ topics ∈ r.topics,
      (storage.offsetFetch r.groupId (topitions topics) r.requireStable).isSome := by
  rw [fetchTopics]
  split
  · next htopics => simp [htopics]
  · next topics htopics => simp [htopics]

theorem fetchGroup_isSome_iff {group : OffsetFetchRequestGroup} :
    (r.fetchGroup storage group).isSome ↔
      (∀ topics ∈ group.topics,
        (storage.offsetFetch (some group.groupId) (topitions topics) r.requireStable).isSome) ∧
      (group.topics = none → (storage.committedOffsetTopitions group.groupId).isSome) := by
  rw [fetchGroup, isSome_map]
  split
  · next topics htopics => simp [htopics]
  · next htopics => simp [htopics]

theorem fetchGroups_isSome_iff {groups : List OffsetFetchRequestGroup} :
    (r.fetchGroups storage groups).isSome ↔
      ∀ group ∈ groups, (r.fetchGroup storage group).isSome := by
  induction groups with
  | nil => simp [fetchGroups]
  | cons group rest ih =>
    rw [List.forall_mem_cons, ← ih, fetchGroups]
    cases r.fetchGroup storage group with
    | none => simp
    | some response => cases r.fetchGroups storage rest <;> simp

/-- Every answer of the storage is used, so every one has to be there. -/
theorem fetchOffset_isSome_iff :
    (r.fetchOffset storage).isSome ↔ (r.fetchTopics storage).isSome ∧
      ∀ group ∈ r.groups.getD [], (r.fetchGroup storage group).isSome := by
  rw [← fetchGroups_isSome_iff, fetchOffset]
  cases r.fetchTopics storage with
  | none => simp
  | some topics =>
    cases r.groups with
    | none => simp [fetchGroups]
    | some groups => cases hgroups : r.fetchGroups storage groups <;> simp [hgroups]

end OffsetFetch

/-- From every state of a run exactly the `Answerable` requests are answered.  A sync gets
as far as the protocol of the group only for its leader, and a group that has a leader has
its protocol (`Wrapper.Chosen`), so of the requests about a group only a join can panic. -/
theorem requests_are_answered {w : Option Wrapper}
    (hw : coordinator.Reach (fun _ _ => True) none w) (r : ClientRequest) :
    (handle w r).isSome ↔ Answerable w r := by
  have hchosen := chosen_of_reach hw
  cases r with
  | offsetFetch storage r =>
    simp only [handle, Wrapper.offsetFetch, isSome_map, OffsetFetch.fetchOffset_isSome_iff,
      OffsetFetch.fetchTopics_isSome_iff, OffsetFetch.fetchGroup_isSome_iff, Answerable]
  | group r =>
    have hstart : (w.getD r.empty).Chosen := by
      cases w with
      | none => exact Wrapper.Chosen.empty r
      | some w => exact hchosen w rfl
    rw [handle, isSome_map, Wrapper.pass_isSome_iff hstart]
    cases r with
    | join r => cases w <;> simp [Answerable, Request.empty, Wrapper.protocolName, Inner.new]
    | _ => simp [Answerable]

open Run in
/-- A join that offers no protocol. -/
def Run.offersNothing : JoinGroup := { joinGroup 1 "" "2" none with protocols := some [] }

open Run in
/-- A group that has its protocol answers a client that offers none. -/
theorem requests_are_answered_offersNothing :
    ∃ w : Wrapper, coordinator.Reach (fun _ _ => True) none (some w) ∧
      (handle (some w) (.group (.join offersNothing))).isSome := by
  have hrun : (coordinator.trace (fun _ _ => True) none
      [join 0 "" "1" none, join 0 "c-1" "" none]).any (fun w =>
        w.any (·.protocolName.isSome)) = true := by
    decide +kernel
  obtain ⟨w, hreach, hw⟩ := System.reach_of_any hrun
  obtain ⟨g, rfl, -⟩ := (Option.any_eq_true _ _).1 hw
  exact ⟨g, hreach, (requests_are_answered hreach (.group (.join offersNothing))).2 fun _ => hw⟩

open Run in
/-- The same join panics on a group that nobody has joined, and an offset fetch panics
when the storage fails it. -/
theorem unanswered_requests :
    ∃ w : Option Wrapper, coordinator.Reach (fun _ _ => True) none w ∧
      handle w (.group (.join offersNothing)) = none ∧
      handle w (.offsetFetch ⟨fun _ _ _ => none, fun _ => none⟩
        ⟨0, some "g", some [⟨"t", some [0]⟩], none, none⟩) = none :=
  ⟨none, .refl, by rfl, by rfl⟩

end Tansu.Coordinator
