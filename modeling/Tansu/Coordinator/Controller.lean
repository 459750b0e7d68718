import Tansu.Coordinator.Group
import Tansu.Lib.System

/-!
# The coordinator

`Controller` of `coordinator/group/administrator.rs`.  One pass through the loop
of a request takes the group, evicts the members whose session has expired,
applies the handler and stores the result with a compare-and-swap; a pass that
loses the race takes the stored group and starts over, and a join or a sync may
go round several times.  A run of the coordinator is therefore a sequence of
accepted passes, with the group rebuilt from its stored form in between wherever
a broker had no copy of it.
-/

namespace Tansu.Coordinator

open Std Tansu.Lib

inductive Request
  | join (r : JoinGroup)
  | sync (r : SyncGroup)
  | heartbeat (r : Heartbeat)
  | leave (r : LeaveGroup)
  | offsetCommit (r : OffsetCommit)

inductive Body
  | joinGroupResponse (response : JoinGroupResponse)
  | syncGroupResponse (response : SyncGroupResponse)
  | heartbeatResponse (response : HeartbeatResponse)
  | leaveGroupResponse (response : LeaveGroupResponse)
  | offsetCommitResponse (response : OffsetCommitResponse)

namespace Wrapper

def join (w : Wrapper) (r : JoinGroup) : Option (Wrapper × JoinGroupResponse) :=
  match w with
  | .forming inner => (Forming.join inner r).map fun (inner, response) => (.forming inner, response)
  | .formed inner => some (Formed.join inner r)

/-- **What a join does**: it changes nothing and is refused, or the member is enrolled, in a
forming group with the members, the generation and the leader as they were. -/
inductive Joins (r : JoinGroup) : Wrapper → Wrapper → JoinGroupResponse → Prop
  | refused {w : Wrapper} {response : JoinGroupResponse} (h : response.errorCode ≠ .none) :
      Joins r w w response
  | forming {g g₀ g' : Inner Forming} {protocol : JoinGroupRequestProtocol}
      {response : JoinGroupResponse} (hmembers : g₀.members = g.members)
      (hgen : g₀.generationId = g.generationId)
      (hstate : g₀.state.leader = g.state.leader ∧ g₀.state.protocolName.isSome ∧
        (g₀.state = g.state ∨ g₀.state.protocolType.isSome))
      (henrol : Forming.enrol g₀ r protocol = (g', response)) :
      Joins r (.forming g) (.forming g') response
  | formed {g : Inner Formed} {protocol : JoinGroupRequestProtocol}
      (hfound : r.protocols.bind (·.find? (·.name = g.state.protocolName)) = some protocol) :
      Joins r (.formed g) (Formed.enrol g r protocol).1 (Formed.enrol g r protocol).2

theorem joins {w w' : Wrapper} {r : JoinGroup} {response : JoinGroupResponse}
    (h : w.join r = some (w', response)) : Joins r w w' response := by
  cases w with
  | forming g =>
    obtain ⟨⟨g', _⟩, hg, heq⟩ := Option.map_eq_some_iff.1 h
    cases heq
    rw [Forming.join] at hg
    split at hg
    · cases hg
      exact .refused nofun
    · split at hg
      · next hname =>
        split at hg
        · exact .forming rfl rfl ⟨rfl, by rw [hname]; rfl, .inl rfl⟩ (Option.some.inj hg)
        · cases hg
          exact .refused nofun
      · split at hg
        · cases hg
        · refine .forming ?_ ?_ ⟨?_, ?_, .inr ?_⟩ (Option.some.inj hg) <;> rfl
  | formed g =>
    have heq : Formed.join g r = (w', response) := Option.some.inj h
    rw [Formed.join] at heq
    split at heq
    · cases heq
      exact .refused nofun
    · next hprotocols =>
      split at heq
      · next protocol hfound =>
        have hjoins := @Joins.formed r g protocol (by rw [hprotocols]; exact hfound)
        rwa [heq] at hjoins
      · cases heq
        exact .refused nofun

def sync (w : Wrapper) (r : SyncGroup) : Option (Wrapper × SyncGroupResponse) :=
  match w with
  | .forming inner => Forming.sync inner r
  | .formed inner => some (.formed inner, Formed.sync inner r)

def heartbeat (w : Wrapper) (r : Heartbeat) : Wrapper × HeartbeatResponse :=
  match w with
  | .forming inner => (Forming.heartbeat inner r).map .forming id
  | .formed inner => (Formed.heartbeat inner r).map .formed id

def leave (w : Wrapper) (r : LeaveGroup) : Wrapper × LeaveGroupResponse :=
  match w with
  | .forming inner => (Forming.leave inner r).map .forming id
  | .formed inner => Formed.leave inner r

/-- Only a group that has formed insists on its generation. -/
def offsetCommit (w : Wrapper) (r : OffsetCommit) : Wrapper × OffsetCommitResponse :=
  match w with
  | .forming inner => (Coordinator.offsetCommit inner r false).map .forming id
  | .formed inner => (Coordinator.offsetCommit inner r true).map .formed id

/-- Static members are not checked for missed heartbeats. -/
def evict (w : Wrapper) (groupInstanceId : Option String) (memberId : MemberId)
    (now : SystemTime) : Wrapper :=
  if groupInstanceId.isNone then w.missedHeartbeat memberId now else w

/-- One pass through the loop of a request. -/
def pass (w : Wrapper) : Request → Option (Wrapper × Body)
  | .join r =>
    ((w.evict r.groupInstanceId r.memberId r.now).join r).map (·.map id .joinGroupResponse)
  | .sync r =>
    ((w.evict r.groupInstanceId r.memberId r.now).sync r).map (·.map id .syncGroupResponse)
  | .heartbeat r =>
    some (((w.evict r.groupInstanceId r.memberId r.now).heartbeat r).map id .heartbeatResponse)
  | .leave r =>
    some (((w.missedHeartbeat (r.memberId.getD "") r.now).leave r).map id .leaveGroupResponse)
  | .offsetCommit r => some ((w.offsetCommit r).map id .offsetCommitResponse)

/-- The group as another broker takes it from the storage. -/
def rebuilt (w : Wrapper) : Wrapper := withStorageGroupDetail w.groupDetail

end Wrapper

/-- The group that a request for an unknown group starts from: a join brings its own
timeouts. -/
def Request.empty : Request → Wrapper
  | .join r =>
    .forming { Inner.new r.now with
      sessionTimeoutMs := r.sessionTimeoutMs
      rebalanceTimeoutMs := r.rebalanceTimeoutMs }
  | .sync r => .forming (Inner.new r.now)
  | .heartbeat r => .forming (Inner.new r.now)
  | .leave r => .forming (Inner.new r.now)
  | .offsetCommit r => .forming (Inner.new r.now)

inductive Event
  | request (r : Request)
  | rebuild

/-- A group over a run; `none` is a group that does not exist yet. -/
def coordinator : System (Option Wrapper) Event where
  step
    | w, .request r => ((w.getD r.empty).pass r).map fun (w, _) => some w
    | w, .rebuild => w.map fun w => some w.rebuilt

/-- What new groups have, and what every pass and a rebuild keep, the groups of a run have. -/
theorem forall_of_reach {P : Wrapper → Prop} {ok : Option Wrapper → Event → Prop}
    {w : Option Wrapper} (h : coordinator.Reach ok none w) (hempty : ∀ r : Request, P r.empty)
    (hpass : ∀ {w r w' body}, P (w.getD r.empty) → ok w (.request r) →
      (w.getD r.empty).pass r = some (w', body) → P w')
    (hrebuilt : ∀ {w}, P w → P w.rebuilt) : ∀ w', w = some w' → P w' := by
  refine h.invariant (I := fun w => ∀ w', w = some w' → P w') (fun _ hw => (by cases hw)) ?_
  rintro w _ e - ih hok hs w' rfl
  cases e with
  | request r =>
    obtain ⟨⟨w₁, body⟩, hw₁, heq⟩ := Option.map_eq_some_iff.1 hs
    cases heq
    refine hpass ?_ hok hw₁
    cases w with
    | none => exact hempty r
    | some w => exact ih w rfl
  | rebuild =>
    obtain ⟨w₀, rfl, heq⟩ := Option.map_eq_some_iff.1 hs
    cases heq
    exact hrebuilt (ih w₀ rfl)

end Tansu.Coordinator
