import Tansu.Lib.OrdMap

/-!
# Consumer groups

The group state machine of `coordinator/group/administrator.rs`.  A group is
`Forming` while its members join, and `Formed` once the leader has sent an
assignment for every one of them.  Each handler takes the group and returns the
group after the request with the response; `none` stands for a panic (an index
into an empty protocol list, an `expect`).

The clock and the generator of random identifiers are inputs of a request.  The
storage handle is not part of the state: only an offset commit uses it, and what
it answers is an input of that request.  Request fields that are only logged
(`group_id`, `reason`, the protocol of a sync) are left out.
-/

namespace Tansu.Coordinator

open Std Tansu.Lib

abbrev MemberId := String
abbrev Bytes := List UInt8

/-- Nanoseconds since the Unix epoch. -/
abbrev SystemTime := Nat

inductive ErrorCode
  | none
  | unknownServerError
  | unknownTopicOrPartition
  | illegalGeneration
  | inconsistentGroupProtocol
  | unknownMemberId
  | rebalanceInProgress
  | invalidRequest
  | memberIdRequired
deriving DecidableEq

/-! ## State -/

structure JoinGroupResponseMember where
  memberId : MemberId
  groupInstanceId : Option String
  metadata : Bytes
deriving DecidableEq

structure Member where
  joinResponse : JoinGroupResponseMember
  lastContact : Option SystemTime
deriving DecidableEq

abbrev Members := BTreeMap MemberId Member

structure Forming where
  protocolType : Option String := none
  protocolName : Option String := none
  leader : Option MemberId := none

structure Formed where
  protocolType : String
  protocolName : String
  leader : MemberId
  assignments : BTreeMap MemberId Bytes

structure Inner (S : Type) where
  sessionTimeoutMs : Int32
  rebalanceTimeoutMs : Option Int32
  members : Members
  generationId : Int32
  state : S
  skipAssignment : Option Bool
  inception : SystemTime

inductive Wrapper
  | forming (inner : Inner Forming)
  | formed (inner : Inner Formed)

/-- `Inner::new`. -/
def Inner.new (inception : SystemTime) : Inner Forming where
  sessionTimeoutMs := 0
  rebalanceTimeoutMs := none
  members := ∅
  generationId := 0
  state := {}
  skipAssignment := some false
  inception

namespace Wrapper

def memberMap : Wrapper → Members
  | forming inner => inner.members
  | formed inner => inner.members

def generationId : Wrapper → Int32
  | forming inner => inner.generationId
  | formed inner => inner.generationId

def protocolType : Wrapper → Option String
  | forming inner => inner.state.protocolType
  | formed inner => some inner.state.protocolType

def protocolName : Wrapper → Option String
  | forming inner => inner.state.protocolName
  | formed inner => some inner.state.protocolName

def leader : Wrapper → Option MemberId
  | forming inner => inner.state.leader
  | formed inner => some inner.state.leader

def skipAssignment : Wrapper → Option Bool
  | forming inner => inner.skipAssignment
  | formed inner => inner.skipAssignment

def members (w : Wrapper) : List JoinGroupResponseMember :=
  w.memberMap.values.map (·.joinResponse)

end Wrapper

/-! ## The stored group -/

structure GroupMember where
  joinResponse : JoinGroupResponseMember
  lastContact : Option SystemTime

inductive GroupState
  | forming (protocolType protocolName : Option String) (leader : Option MemberId)
  | formed (protocolType protocolName : String) (leader : MemberId)
      (assignments : BTreeMap MemberId Bytes)

structure GroupDetail where
  sessionTimeoutMs : Int32
  rebalanceTimeoutMs : Option Int32
  members : BTreeMap MemberId GroupMember
  generationId : Int32
  skipAssignment : Option Bool
  inception : SystemTime
  state : GroupState

/-- The fields that `GroupDetail::from` copies in both states. -/
def Inner.detail {S : Type} (g : Inner S) (state : GroupState) : GroupDetail where
  sessionTimeoutMs := g.sessionTimeoutMs
  rebalanceTimeoutMs := g.rebalanceTimeoutMs
  members := g.members.map fun _ member => ⟨member.joinResponse, member.lastContact⟩
  generationId := g.generationId
  skipAssignment := g.skipAssignment
  inception := g.inception
  state

/-- The fields that `with_storage_group_detail` copies in both states. -/
def GroupDetail.inner {S : Type} (gd : GroupDetail) (state : S) : Inner S where
  sessionTimeoutMs := gd.sessionTimeoutMs
  rebalanceTimeoutMs := gd.rebalanceTimeoutMs
  members := gd.members.map fun _ member => ⟨member.joinResponse, member.lastContact⟩
  generationId := gd.generationId
  state
  skipAssignment := gd.skipAssignment
  inception := gd.inception

namespace Wrapper

/-- `GroupDetail::from`. -/
def groupDetail : Wrapper → GroupDetail
  | forming inner =>
    inner.detail (.forming inner.state.protocolType inner.state.protocolName inner.state.leader)
  | formed inner =>
    inner.detail (.formed inner.state.protocolType inner.state.protocolName inner.state.leader
      inner.state.assignments)

/-- A leader that is not a member is dropped from a group that is forming. -/
def withStorageGroupDetail (gd : GroupDetail) : Wrapper :=
  match gd.state with
  | .forming protocolType protocolName leader =>
    .forming (gd.inner
      { protocolType, protocolName, leader := leader.filter fun id => decide (id ∈ gd.members) })
  | .formed protocolType protocolName leader assignments =>
    .formed (gd.inner { protocolType, protocolName, leader, assignments })

end Wrapper

/-! ## Session timeouts -/

namespace Inner

variable {S : Type}

def updateLastContact (g : Inner S) (memberId : MemberId) (now : SystemTime) : Inner S :=
  if memberId.isEmpty then g
  else { g with members := g.members.modify memberId fun m => { m with lastContact := some now } }

/-- `u128::try_from(session_timeout_ms).unwrap_or(45_000)`. -/
def sessionTimeout (g : Inner S) : Nat :=
  if 0 ≤ g.sessionTimeoutMs.toInt then g.sessionTimeoutMs.toInt.toNat else 45000

/-- A clock that went backwards counts as no time at all. -/
def isExpired (g : Inner S) (now lastContact : SystemTime) : Bool :=
  decide (g.sessionTimeout < (now - lastContact) / 1000000)

/-- The members that `retain` keeps; one that was never heard of is not kept. -/
def retained (g : Inner S) (now : SystemTime) : Members :=
  g.members.filter fun _ member => member.lastContact.any fun t => !g.isExpired now t

/-- The session of a member has expired when a request of `sender` arrives.  The request
renews the session of its sender; an empty id is nobody's. -/
def expires (g : Inner S) (sender : MemberId) (now : SystemTime) (id : MemberId) : Bool :=
  (decide (id ≠ sender) || sender.isEmpty) &&
    g.members[id]?.any fun member => member.lastContact.any (g.isExpired now)

/-- No session has expired. -/
def Alive (g : Inner S) (now : SystemTime) : Prop :=
  ∀ (id : MemberId) (m : Member), g.members[id]? = some m →
    m.lastContact.any (fun t => !g.isExpired now t) = true

variable {g : Inner S} {now : SystemTime}

theorem expires_eq {sender id : MemberId} :
    ((g.updateLastContact sender now).members[id]?.any fun member => member.lastContact.any
      ((g.updateLastContact sender now).isExpired now)) = g.expires sender now id := by
  unfold updateLastContact
  split
  · next hempty => simp [expires, hempty]
  · next hsender =>
    simp only [BTreeMap.getElem?_modify_eq]
    split
    · next hid =>
      -- the sender has just been heard of
      subst hid
      cases g.members[sender]? <;> simp [expires, isExpired, hsender]
    · next hid =>
      simp only [expires, ne_eq, Ne.symm hid, not_false_eq_true, decide_true, Bool.true_or,
        Bool.true_and]
      rfl

theorem expires_of_retained {sender id : MemberId}
    (h : id ∈ (g.updateLastContact sender now).retained now) :
    g.expires sender now id = false := by
  obtain ⟨m, hm⟩ := BTreeMap.mem_iff_exists.1 h
  obtain ⟨hm, hlive⟩ := BTreeMap.getElem?_filter_eq_some.1 hm
  obtain ⟨t, ht, hlive⟩ := (Option.any_eq_true _ _).1 hlive
  rw [← expires_eq, hm, Option.any_some, ht, Option.any_some]
  simpa using hlive

theorem retained_size_lt_iff : (g.retained now).size < g.members.size ↔ ¬ g.Alive now := by
  have hle : (g.retained now).size ≤ g.members.size := ExtTreeMap.size_filter_le_size
  have heq : (g.retained now).size = g.members.size ↔ g.Alive now := by
    rw [retained, ExtTreeMap.size_filter_eq_size_iff]
    constructor
    · intro h id m hm
      obtain ⟨hid, rfl⟩ := ExtTreeMap.getElem?_eq_some_iff.1 hm
      exact h id hid
    · intro h id hid
      exact h id _ (ExtTreeMap.getElem?_eq_some_getElem hid)
  rw [← heq]
  omega

theorem Alive.retained (h : g.Alive now) : g.retained now = g.members := by
  refine ExtTreeMap.ext_getElem? fun id => Option.ext fun m => ?_
  rw [Inner.retained, BTreeMap.getElem?_filter_eq_some]
  exact ⟨And.left, fun hm => ⟨hm, h id m hm⟩⟩

theorem Alive.updateLastContact {memberId : MemberId} (h : g.Alive now) :
    (g.updateLastContact memberId now).Alive now := by
  rw [Inner.updateLastContact]
  split
  · exact h
  · intro id m hm
    rw [BTreeMap.getElem?_modify_eq] at hm
    split at hm
    · -- the member has just been heard of
      obtain ⟨m', -, rfl⟩ := Option.map_eq_some_iff.1 hm
      simp [isExpired]
    · exact h id m hm

/-- The group leaves `Formed`. -/
def reform (g : Inner Formed) (members : Members) (generationId : Int32)
    (leader : Option MemberId) : Inner Forming :=
  { g with
    members, generationId
    state :=
      { protocolType := some g.state.protocolType
        protocolName := some g.state.protocolName
        leader } }

end Inner

/-- The leader is taken when its own session has expired. -/
def Forming.missedHeartbeat (g : Inner Forming) (memberId : MemberId) (now : SystemTime) :
    Inner Forming × Bool :=
  let g := g.updateLastContact memberId now
  let leader := g.state.leader.filter fun id =>
    !(g.members[id]?.any fun member => member.lastContact.any (g.isExpired now))
  ({ g with members := g.retained now, state := { g.state with leader } },
    decide ((g.retained now).size < g.members.size))

def Formed.missedHeartbeat (g : Inner Formed) (memberId : MemberId) (now : SystemTime) :
    Inner Formed × Bool :=
  let g := g.updateLastContact memberId now
  ({ g with members := g.retained now }, decide ((g.retained now).size < g.members.size))

namespace Formed

variable {g : Inner Formed} {memberId : MemberId} {now : SystemTime}

@[simp]
theorem missedHeartbeat_state : (missedHeartbeat g memberId now).1.state = g.state := by
  simp only [missedHeartbeat, Inner.updateLastContact]
  split <;> rfl

@[simp]
theorem missedHeartbeat_generationId :
    (missedHeartbeat g memberId now).1.generationId = g.generationId := by
  simp only [missedHeartbeat, Inner.updateLastContact]
  split <;> rfl

theorem missedHeartbeat_eq_false_iff :
    (missedHeartbeat g memberId now).2 = false ↔ (g.updateLastContact memberId now).Alive now := by
  rw [missedHeartbeat, decide_eq_false_iff_not, Inner.retained_size_lt_iff, not_not]

theorem missedHeartbeat_members (h : (missedHeartbeat g memberId now).2 = false) :
    (missedHeartbeat g memberId now).1.members = (g.updateLastContact memberId now).members :=
  (missedHeartbeat_eq_false_iff.1 h).retained

theorem missedHeartbeat_again :
    (missedHeartbeat (missedHeartbeat g memberId now).1 memberId now).2 = false := by
  refine missedHeartbeat_eq_false_iff.2 (Inner.Alive.updateLastContact fun id m hm => ?_)
  exact (BTreeMap.getElem?_filter_eq_some.1 hm).2

end Formed

def Wrapper.missedHeartbeat (w : Wrapper) (memberId : MemberId) (now : SystemTime) : Wrapper :=
  match w with
  | .forming inner => .forming (Forming.missedHeartbeat inner memberId now).1
  | .formed inner =>
    let (inner, evicted) := Formed.missedHeartbeat inner memberId now
    if evicted then
      .forming (inner.reform inner.members (inner.generationId + 1)
        (if inner.state.leader ∈ inner.members then some inner.state.leader else none))
    else .formed inner

/-! ## Joining -/

structure JoinGroupRequestProtocol where
  name : String
  metadata : Bytes

structure JoinGroup where
  now : SystemTime
  /-- What `Uuid::new_v4` returns. -/
  uuid : String
  clientId : Option String
  sessionTimeoutMs : Int32
  rebalanceTimeoutMs : Option Int32
  memberId : MemberId
  groupInstanceId : Option String
  protocolType : String
  protocols : Option (List JoinGroupRequestProtocol)

structure JoinGroupResponse where
  throttleTimeMs : Option Int32 := some 0
  errorCode : ErrorCode
  generationId : Int32
  protocolType : Option String
  protocolName : Option String
  leader : MemberId := ""
  skipAssignment : Option Bool
  memberId : MemberId := ""
  members : Option (List JoinGroupResponseMember) := some []

namespace JoinGroup

/-- The identifier that a client without one is told to use. -/
def freshMemberId (r : JoinGroup) : MemberId :=
  match r.clientId with
  | some clientId => clientId ++ "-" ++ r.uuid
  | none => r.uuid

/-- A static member is found by its instance identifier. -/
def resolveMemberId (r : JoinGroup) (members : Members) : MemberId :=
  match r.groupInstanceId with
  | none => r.memberId
  | some groupInstanceId =>
    if r.memberId.isEmpty then
      match members.toList.find? fun entry =>
          entry.2.joinResponse.groupInstanceId = some groupInstanceId with
      | some (memberId, _) => memberId
      | none => groupInstanceId ++ "-" ++ r.uuid
    else r.memberId

def newMember (r : JoinGroup) (memberId : MemberId) (protocol : JoinGroupRequestProtocol) :
    Member :=
  ⟨⟨memberId, r.groupInstanceId, protocol.metadata⟩, some r.now⟩

end JoinGroup

/-- The answer to a completed join; only the leader is told the members. -/
def Wrapper.joined (w : Wrapper) (memberId : MemberId) : JoinGroupResponse where
  errorCode := .none
  generationId := w.generationId
  protocolType := w.protocolType
  protocolName := w.protocolName
  leader := w.leader.getD ""
  skipAssignment := w.skipAssignment
  memberId
  members := some (if w.leader = some memberId then w.members else [])

namespace Forming

/-- The join of a client whose protocol has been chosen. -/
def enrol (g : Inner Forming) (r : JoinGroup) (protocol : JoinGroupRequestProtocol) :
    Inner Forming × JoinGroupResponse :=
  if r.memberId.isEmpty && r.groupInstanceId.isNone then
    let memberId := r.freshMemberId
    ({ g with members := g.members.insert memberId (r.newMember memberId protocol) },
      { errorCode := .memberIdRequired
        generationId := -1
        protocolType := g.state.protocolType
        protocolName := some ""
        skipAssignment := g.skipAssignment
        memberId })
  else
    let memberId := r.resolveMemberId g.members
    let members :=
      match g.members[memberId]? with
      | some member =>
        g.members.insert memberId
          ⟨{ member.joinResponse with metadata := protocol.metadata }, some r.now⟩
      | none => g.members.insert memberId (r.newMember memberId protocol)
    let leader := some (g.state.leader.getD memberId)
    let g := { g with members, state := { g.state with leader } }
    (g, (Wrapper.forming g).joined memberId)

theorem enrol_generationId {g g' : Inner Forming} {r : JoinGroup}
    {protocol : JoinGroupRequestProtocol}
    {response : JoinGroupResponse} (h : enrol g r protocol = (g', response)) :
    g'.generationId = g.generationId := by
  rw [enrol] at h
  split at h <;> cases h <;> rfl

/-- The first client to join chooses the protocol and the timeouts. -/
def join (g : Inner Forming) (r : JoinGroup) : Option (Inner Forming × JoinGroupResponse) :=
  match r.protocols with
  | none =>
    some (g,
      { errorCode := .invalidRequest
        generationId := g.generationId
        protocolType := g.state.protocolType
        protocolName := some ""
        skipAssignment := g.skipAssignment })
  | some protocols =>
    match g.state.protocolName with
    | some protocolName =>
      match protocols.find? (·.name = protocolName) with
      | some protocol => some (enrol g r protocol)
      | none =>
        some (g,
          { errorCode := .inconsistentGroupProtocol
            generationId := g.generationId
            protocolType := some r.protocolType
            protocolName := some protocolName
            skipAssignment := g.skipAssignment })
    | none =>
      match protocols with
      | [] => none
      | protocol :: _ =>
        some (enrol
          { g with
            sessionTimeoutMs := r.sessionTimeoutMs
            rebalanceTimeoutMs := r.rebalanceTimeoutMs
            state :=
              { g.state with
                protocolType := some r.protocolType
                protocolName := some protocol.name } } r protocol)

end Forming

namespace Formed

/-- The join of a client that offers the group's protocol.  A member whose metadata
is unchanged leaves the group as it is; a static member that changes its metadata
starts no new generation. -/
def enrol (g : Inner Formed) (r : JoinGroup) (protocol : JoinGroupRequestProtocol) :
    Wrapper × JoinGroupResponse :=
  if r.memberId.isEmpty && r.groupInstanceId.isNone then
    let memberId := r.freshMemberId
    (.forming (g.reform (g.members.insert memberId (r.newMember memberId protocol))
        (g.generationId + 1) (some g.state.leader)),
      { errorCode := .memberIdRequired
        generationId := -1
        protocolType := none
        protocolName := some ""
        skipAssignment := g.skipAssignment
        memberId })
  else
    let memberId := r.resolveMemberId g.members
    let state : Wrapper :=
      match g.members[memberId]? with
      | some member =>
        if member.joinResponse.metadata = protocol.metadata then .formed g
        else
          .forming (g.reform
            (g.members.insert memberId
              { member with joinResponse :=
                  { member.joinResponse with metadata := protocol.metadata } })
            (if r.groupInstanceId.isNone then g.generationId + 1 else g.generationId)
            (some g.state.leader))
      | none =>
        .forming (g.reform (g.members.insert memberId (r.newMember memberId protocol))
          (g.generationId + 1) (some g.state.leader))
    (state, state.joined memberId)

def join (g : Inner Formed) (r : JoinGroup) : Wrapper × JoinGroupResponse :=
  match r.protocols with
  | none =>
    (.formed g,
      { errorCode := .invalidRequest
        generationId := g.generationId
        protocolType := some r.protocolType
        protocolName := some ""
        skipAssignment := g.skipAssignment })
  | some protocols =>
    match protocols.find? (·.name = g.state.protocolName) with
    | some protocol => enrol g r protocol
    | none =>
      (.formed g,
        { errorCode := .inconsistentGroupProtocol
          generationId := g.generationId
          protocolType := some r.protocolType
          protocolName := some g.state.protocolName
          skipAssignment := g.skipAssignment })

end Formed

/-! ## Synchronising -/

structure SyncGroupRequestAssignment where
  memberId : MemberId
  assignment : Bytes

structure SyncGroup where
  now : SystemTime
  generationId : Int32
  memberId : MemberId
  groupInstanceId : Option String
  assignments : Option (List SyncGroupRequestAssignment)

structure SyncGroupResponse where
  throttleTimeMs : Option Int32 := some 0
  errorCode : ErrorCode
  protocolType : Option String
  protocolName : Option String
  assignment : Bytes := []

/-- A sync that is answered with an error. -/
def Wrapper.refused (w : Wrapper) (errorCode : ErrorCode) : SyncGroupResponse where
  errorCode
  protocolType := w.protocolType
  protocolName := w.protocolName

/-- `collect::<BTreeMap<_, _>>`. -/
def collectAssignments (assignments : List SyncGroupRequestAssignment) : BTreeMap MemberId Bytes :=
  assignments.foldl (fun m a => m.insert a.memberId a.assignment) ∅

/-- The assignments name the members, all of them and nobody else. -/
def isAssignmentsForAllMembers (members : Members)
    (assignments : List SyncGroupRequestAssignment) : Bool :=
  assignments.all (fun a => decide (a.memberId ∈ members)) &&
    members.keys.all fun id => assignments.any (·.memberId = id)

def Forming.sync (g : Inner Forming) (r : SyncGroup) : Option (Wrapper × SyncGroupResponse) :=
  let refused (errorCode : ErrorCode) :=
    some (Wrapper.forming g, (Wrapper.forming g).refused errorCode)
  if r.memberId ∉ g.members then refused .unknownMemberId
  else if g.generationId < r.generationId then refused .illegalGeneration
  else if r.generationId < g.generationId then refused .rebalanceInProgress
  else if ¬ (g.state.leader = some r.memberId ∧
      isAssignmentsForAllMembers g.members (r.assignments.getD [])) then
    refused .rebalanceInProgress
  else
    match r.assignments with
    | none => refused .rebalanceInProgress
    | some assignments =>
      match g.state.protocolName, g.state.protocolType with
      | some protocolName, some protocolType =>
        let assignments := collectAssignments assignments
        some (.formed
            { g with state := { protocolType, protocolName, leader := r.memberId, assignments } },
          { errorCode := .none
            protocolType := g.state.protocolType
            protocolName := g.state.protocolName
            assignment := assignments[r.memberId]?.getD [] })
      | _, _ => none

/-- A sync changes nothing, or the leader has sent an assignment for every member. -/
theorem Forming.sync_cases {g : Inner Forming} {r : SyncGroup} {w : Wrapper}
    {response : SyncGroupResponse} (h : Forming.sync g r = some (w, response)) :
    w = .forming g ∨
      ∃ assignments protocolType protocolName, r.memberId ∈ g.members ∧
        g.state.leader = some r.memberId ∧ isAssignmentsForAllMembers g.members assignments ∧
        w = .formed { g with state :=
          ⟨protocolType, protocolName, r.memberId, collectAssignments assignments⟩ } := by
  simp only [Forming.sync] at h
  split at h
  · cases h
    exact .inl rfl
  · next hmem =>
    split at h
    · cases h
      exact .inl rfl
    · split at h
      · cases h
        exact .inl rfl
      · split at h
        · cases h
          exact .inl rfl
        · next hlead =>
          obtain ⟨hleader, hall⟩ := not_not.1 hlead
          split at h
          · cases h
            exact .inl rfl
          · next assignments hsome =>
            rw [hsome] at hall
            split at h
            · next protocolName protocolType _ _ =>
              cases h
              exact .inr ⟨assignments, protocolType, protocolName, not_not.1 hmem, hleader, hall,
                rfl⟩
            · cases h

def Formed.sync (g : Inner Formed) (r : SyncGroup) : SyncGroupResponse :=
  if r.memberId ∉ g.members then (Wrapper.formed g).refused .unknownMemberId
  else if g.generationId < r.generationId then (Wrapper.formed g).refused .illegalGeneration
  else if r.generationId < g.generationId then (Wrapper.formed g).refused .rebalanceInProgress
  else
    { errorCode := .none
      protocolType := some g.state.protocolType
      protocolName := some g.state.protocolName
      assignment := g.state.assignments[r.memberId]?.getD [] }

/-! ## Heartbeats -/

structure Heartbeat where
  now : SystemTime
  generationId : Int32
  memberId : MemberId
  groupInstanceId : Option String

structure HeartbeatResponse where
  throttleTimeMs : Option Int32 := some 0
  errorCode : ErrorCode

def Forming.heartbeat (g : Inner Forming) (r : Heartbeat) : Inner Forming × HeartbeatResponse :=
  if r.memberId ∉ g.members then (g, { errorCode := .unknownMemberId })
  else if g.generationId < r.generationId then (g, { errorCode := .illegalGeneration })
  else
    let g := { g with
      members := g.members.modify r.memberId fun m => { m with lastContact := some r.now } }
    let (g, evicted) := Forming.missedHeartbeat g r.memberId r.now
    if evicted || decide (r.generationId < g.generationId) then
      (g, { errorCode := .rebalanceInProgress })
    else (g, { errorCode := .none })

/-- Members whose session has expired are evicted, and the group stays as it is. -/
def Formed.heartbeat (g : Inner Formed) (r : Heartbeat) : Inner Formed × HeartbeatResponse :=
  if r.memberId ∉ g.members then (g, { errorCode := .unknownMemberId })
  else if g.generationId < r.generationId then (g, { errorCode := .illegalGeneration })
  else
    let (g, evicted) := Formed.missedHeartbeat g r.memberId r.now
    if evicted || decide (r.generationId < g.generationId) then
      (g, { errorCode := .rebalanceInProgress })
    else
      ({ g with members := g.members.modify r.memberId fun m =>
        { m with lastContact := some r.now } }, { errorCode := .none })

/-! ## Leaving -/

structure MemberIdentity where
  memberId : MemberId
  groupInstanceId : Option String

structure LeaveGroup where
  now : SystemTime
  memberId : Option MemberId
  members : Option (List MemberIdentity)

structure MemberResponse where
  memberId : MemberId
  groupInstanceId : Option String
  errorCode : ErrorCode

structure LeaveGroupResponse where
  throttleTimeMs : Option Int32 := some 0
  errorCode : ErrorCode
  members : Option (List MemberResponse)

/-- Who leaves: the one member that is named, or else the list. -/
def LeaveGroup.leaving (r : LeaveGroup) : List MemberIdentity :=
  match r.memberId with
  | some memberId => [⟨memberId, none⟩]
  | none => r.members.getD []

/-- The members are removed one after the other, each with its own answer. -/
def depart (members : Members) : List MemberIdentity → Members × List MemberResponse
  | [] => (members, [])
  | identity :: rest =>
    let errorCode : ErrorCode :=
      if identity.memberId ∈ members then .none else .unknownMemberId
    let (members, responses) := depart (members.erase identity.memberId) rest
    (members, ⟨identity.memberId, identity.groupInstanceId, errorCode⟩ :: responses)

/-- Somebody left. -/
def departed (responses : List MemberResponse) : Bool :=
  responses.any (·.errorCode = .none)

theorem depart_eq_self {members : Members} {leaving : List MemberIdentity}
    (h : departed (depart members leaving).2 = false) : (depart members leaving).1 = members := by
  induction leaving generalizing members with
  | nil => rfl
  | cons identity rest ih =>
    simp only [depart, departed, List.any_cons, Bool.or_eq_false_iff, decide_eq_false_iff_not] at h
    obtain ⟨hcode, hrest⟩ := h
    have hmem : identity.memberId ∉ members := fun hmem => hcode (if_pos hmem)
    have herase : members.erase identity.memberId = members := by
      refine ExtTreeMap.ext_getElem? fun id => ?_
      rw [BTreeMap.getElem?_erase_eq]
      split
      · next heq =>
        rw [← heq, eq_comm, ← Option.not_isSome_iff_eq_none, ← ExtTreeMap.mem_iff_isSome_getElem?]
        exact hmem
      · rfl
    exact (ih hrest).trans herase

/-- The recorded leader stays as it is. -/
def Forming.leave (g : Inner Forming) (r : LeaveGroup) : Inner Forming × LeaveGroupResponse :=
  let (members, responses) := depart g.members r.leaving
  ({ g with
      members
      generationId := if departed responses then g.generationId + 1 else g.generationId },
    { errorCode := .none, members := some responses })

def Formed.leave (g : Inner Formed) (r : LeaveGroup) : Wrapper × LeaveGroupResponse :=
  let (members, responses) := depart g.members r.leaving
  (if departed responses then
      .forming (g.reform members (g.generationId + 1)
        (if g.state.leader ∈ members then some g.state.leader else none))
    else .formed { g with members },
    { errorCode := .none, members := some responses })

/-! ## Committing offsets -/

structure OffsetCommitTopic where
  name : String
  partitions : Option (List Int32)

structure OffsetCommit where
  now : SystemTime
  generationIdOrMemberEpoch : Option Int32
  memberId : Option MemberId
  topics : Option (List OffsetCommitTopic)
  /-- What the storage answers for each partition; `none` when the request cannot be
  converted or the storage fails. -/
  stored : Option (List ((String × Int32) × ErrorCode))

structure OffsetCommitResponse where
  throttleTimeMs : Option Int32 := some 0
  topics : Option (List (String × Option (List (Int32 × ErrorCode))))

/-- The error that an offset commit is fenced with, and the members after the check. -/
def offsetCommitFence {S : Type} (g : Inner S) (r : OffsetCommit) (generationMustMatch : Bool) :
    Inner S × Option ErrorCode :=
  let generationId := r.generationIdOrMemberEpoch.getD (-1)
  let memberId := r.memberId.getD ""
  if generationId < 0 ∧ memberId.isEmpty then
    (g, if g.members.isEmpty then none else some .unknownMemberId)
  else if memberId ∉ g.members then (g, some .unknownMemberId)
  else
    let g := { g with
      members := g.members.modify memberId fun m => { m with lastContact := some r.now } }
    (g,
      if g.generationId < generationId ∨ generationMustMatch ∧ generationId ≠ g.generationId then
        some .illegalGeneration
      else none)

/-- `offset_commit_response`: the same code for every partition. -/
def offsetCommitResponse (r : OffsetCommit) (errorCode : ErrorCode) : OffsetCommitResponse where
  topics := r.topics.map fun topics => topics.map fun topic =>
    (topic.name, topic.partitions.map fun partitions => partitions.map (·, errorCode))

/-- `commit_offset`: the answers of the storage, grouped by topic. -/
def commitOffset (r : OffsetCommit) : Option OffsetCommitResponse :=
  match r.topics with
  | none => some { topics := none }
  | some _ => r.stored.map fun answers =>
    let names := (answers.foldl (fun m a => m.insert a.1.1 ()) (∅ : BTreeMap String Unit)).keys
    { topics := some (names.map fun name =>
        (name, some ((answers.filter (·.1.1 = name)).map fun a => (a.1.2, a.2)))) }

def offsetCommit {S : Type} (g : Inner S) (r : OffsetCommit) (generationMustMatch : Bool) :
    Inner S × OffsetCommitResponse :=
  match offsetCommitFence g r generationMustMatch with
  | (g, some errorCode) => (g, offsetCommitResponse r errorCode)
  | (g, none) => (g, (commitOffset r).getD (offsetCommitResponse r .unknownMemberId))

/-- An offset commit is at most a sign of life. -/
theorem of_offsetCommit {S : Type} (P : Inner S → Prop) {g : Inner S} {r : OffsetCommit}
    {generationMustMatch : Bool} (h : P g) (hheard : ∀ memberId, P { g with
      members := g.members.modify memberId fun m => { m with lastContact := some r.now } }) :
    P (offsetCommit g r generationMustMatch).1 := by
  have hfst : (offsetCommit g r generationMustMatch).1 =
      (offsetCommitFence g r generationMustMatch).1 := by
    rw [offsetCommit]
    split <;> simp only [*]
  rw [hfst, offsetCommitFence]
  split
  · exact h
  · split
    · exact h
    · exact hheard _

end Tansu.Coordinator
