import Tansu.Coordinator.Controller

/-!
# The leader of a group

The recorded leader is looked up among the members by every sync, so a leader
that is not a member would keep the group from forming.  `Led` is that the leader
is a member; every handler keeps it but two.  A leave while the group is forming
removes the leader from the members and not from the record, and the heartbeat
of a static member evicts the leader of a formed group in place.
-/

namespace Tansu.Coordinator

open Std Tansu.Lib Option BTreeMap ExtTreeMap System

/-! ## Members -/

section Members

variable {members : Members} {id memberId : MemberId} {member : Member} {now : SystemTime}
  {leaving : List MemberIdentity}

/-- Every member has been heard of. -/
def Heard (members : Members) : Prop :=
  ∀ (id : MemberId) (member : Member), members[id]? = some member → member.lastContact.isSome

theorem Heard.insert (h : Heard members) (hm : member.lastContact.isSome) :
    Heard (members.insert memberId member) := by
  intro id m hid
  rw [getElem?_insert_eq] at hid
  split at hid
  · cases hid
    exact hm
  · exact h id m hid

theorem Heard.modify (h : Heard members) :
    Heard (members.modify memberId fun m => { m with lastContact := some now }) := by
  intro id m hid
  rw [BTreeMap.getElem?_modify_eq] at hid
  split at hid
  · obtain ⟨m', -, rfl⟩ := map_eq_some_iff.1 hid
    rfl
  · exact h id m hid

theorem Heard.erase (h : Heard members) : Heard (members.erase memberId) := by
  intro id m hid
  rw [getElem?_erase_eq] at hid
  split at hid
  · cases hid
  · exact h id m hid

theorem Heard.filter {f : MemberId → Member → Bool} (h : Heard members) :
    Heard (members.filter f) := by
  intro id m hid
  exact h id m (getElem?_filter_eq_some.1 hid).1

theorem mem_modify_iff {f : Member → Member} : id ∈ members.modify memberId f ↔ id ∈ members := by
  simp [mem_modify]

theorem mem_insert_of_mem (h : id ∈ members) : id ∈ members.insert memberId member :=
  mem_insert.2 (.inr h)

theorem mem_depart :
    id ∈ (depart members leaving).1 ↔ id ∈ members ∧ ∀ i ∈ leaving, i.memberId ≠ id := by
  induction leaving generalizing members with
  | nil => simp [depart]
  | cons i rest ih =>
    simp only [depart, ih, mem_erase, List.forall_mem_cons, Std.compare_eq_iff_eq, ne_eq]
    constructor
    · rintro ⟨⟨hne, hid⟩, hrest⟩
      exact ⟨hid, hne, hrest⟩
    · rintro ⟨hid, hne, hrest⟩
      exact ⟨⟨hne, hid⟩, hrest⟩

theorem Heard.depart {leaving : List MemberIdentity} (h : Heard members) :
    Heard (depart members leaving).1 := by
  induction leaving generalizing members with
  | nil => exact h
  | cons i rest ih => exact ih h.erase

end Members

/-! ## The leader is a member -/

/-- The recorded leader is a member, and every member has been heard of. -/
structure Led (leader : Option MemberId) (members : Members) : Prop where
  member : ∀ id, leader = some id → id ∈ members
  heard : Heard members

namespace Led

variable {leader : Option MemberId} {members : Members} {memberId : MemberId} {now : SystemTime}

theorem insert {member : Member} (h : Led leader members) (hm : member.lastContact.isSome) :
    Led leader (members.insert memberId member) :=
  ⟨fun id hid => mem_insert_of_mem (h.member id hid), h.heard.insert hm⟩

theorem modify (h : Led leader members) :
    Led leader (members.modify memberId fun m => { m with lastContact := some now }) :=
  ⟨fun id hid => mem_modify_iff.2 (h.member id hid), h.heard.modify⟩

theorem updateLastContact {S : Type} {g : Inner S} (h : Led leader g.members) :
    Led leader (g.updateLastContact memberId now).members := by
  rw [Inner.updateLastContact]
  split
  · exact h
  · exact h.modify

theorem of_mem (h : Heard members) :
    Led (if memberId ∈ members then some memberId else none) members := by
  refine ⟨fun id hid => ?_, h⟩
  split at hid
  · cases hid
    assumption
  · cases hid

end Led

def Wrapper.Led (w : Wrapper) : Prop := Coordinator.Led w.leader w.memberMap

section Handlers

variable {memberId : MemberId} {now : SystemTime}

@[simp]
theorem updateLastContact_state {S : Type} {g : Inner S} :
    (g.updateLastContact memberId now).state = g.state := by
  rw [Inner.updateLastContact]
  split <;> rfl

/-- A leader whose session has not expired is retained. -/
theorem Led.retained {S : Type} {g : Inner S} {leader : Option MemberId} {id : MemberId}
    (h : Led leader g.members) (hid : leader = some id)
    (hlive : g.expires memberId now id = false) :
    id ∈ (g.updateLastContact memberId now).retained now := by
  have h' : Led leader (g.updateLastContact memberId now).members := h.updateLastContact
  obtain ⟨m, hm⟩ := mem_iff_exists.1 (h'.member id hid)
  obtain ⟨t, ht⟩ := isSome_iff_exists.1 (h'.heard id m hm)
  refine mem_iff_exists.2 ⟨m, getElem?_filter_eq_some.2 ⟨hm, ?_⟩⟩
  rw [← Inner.expires_eq, hm, any_some, ht, any_some] at hlive
  simp [ht, hlive]

theorem Led.forming_missedHeartbeat {g : Inner Forming} (h : Led g.state.leader g.members) :
    Led (Forming.missedHeartbeat g memberId now).1.state.leader
      (Forming.missedHeartbeat g memberId now).1.members := by
  refine ⟨fun id hid => ?_, (h.updateLastContact).heard.filter⟩
  obtain ⟨hlead, hfresh⟩ := filter_eq_some_iff.1 hid
  rw [updateLastContact_state] at hlead
  rw [Inner.expires_eq, Bool.not_eq_true'] at hfresh
  exact h.retained hlead hfresh

theorem Led.alive {S : Type} {g : Inner S} {leader : Option MemberId} (h : Led leader g.members)
    (hlive : ∀ entry ∈ g.members.toList, g.expires memberId now entry.1 = false) :
    (g.updateLastContact memberId now).Alive now := by
  have h' : Led leader (g.updateLastContact memberId now).members := h.updateLastContact
  intro id m hm
  obtain ⟨t, ht⟩ := isSome_iff_exists.1 (h'.heard id m hm)
  have hexp : g.expires memberId now id = false := by
    have hmem : id ∈ g.members := by
      have hid := mem_iff_exists.2 ⟨m, hm⟩
      rw [Inner.updateLastContact] at hid
      split at hid
      · exact hid
      · exact mem_modify_iff.1 hid
    obtain ⟨m₀, hm₀⟩ := mem_iff_exists.1 hmem
    exact hlive (id, m₀) (ExtTreeMap.mem_toList_iff_getElem?_eq_some.2 hm₀)
  rw [← Inner.expires_eq, hm, any_some, ht, any_some] at hexp
  simp [ht, hexp]

end Handlers

namespace Wrapper.Led

variable {w w' : Wrapper} {memberId : MemberId} {now : SystemTime}

theorem missedHeartbeat (h : w.Led) : (w.missedHeartbeat memberId now).Led := by
  cases w with
  | forming g => exact Coordinator.Led.forming_missedHeartbeat h
  | formed g =>
    have h' : Coordinator.Led (some g.state.leader) (g.updateLastContact memberId now).members :=
      Coordinator.Led.updateLastContact h
    simp only [Wrapper.missedHeartbeat]
    split
    · -- the leader of the group that forms again is looked up among its members
      exact .of_mem h'.heard.filter
    · next hev =>
      have hmem := Formed.missedHeartbeat_members (Bool.eq_false_iff.2 hev)
      simp only [Wrapper.Led, leader, memberMap, Formed.missedHeartbeat_state, hmem]
      exact h'

theorem evict {groupInstanceId : Option String} (h : w.Led) :
    (w.evict groupInstanceId memberId now).Led := by
  rw [Wrapper.evict]
  split
  · exact h.missedHeartbeat
  · exact h

/-! ### Joins -/

variable {r : JoinGroup} {g : Inner Forming} {protocol : JoinGroupRequestProtocol}

theorem forming_enrol (h : (forming g).Led) : (forming (Forming.enrol g r protocol).1).Led := by
  simp only [Forming.enrol]
  split
  · exact h.insert rfl
  · generalize r.resolveMemberId g.members = memberId
    have hmembers (m : Member) (hm : m.lastContact.isSome) :
        Coordinator.Led (some (g.state.leader.getD memberId)) (g.members.insert memberId m) := by
      refine ⟨fun id hid => ?_, h.heard.insert hm⟩
      cases hl : g.state.leader with
      | none =>
        rw [hl] at hid
        cases hid
        exact ExtTreeMap.mem_insert_self
      | some l =>
        rw [hl] at hid
        cases hid
        exact mem_insert_of_mem (h.member _ hl)
    cases g.members[memberId]? with
    | none => exact hmembers _ rfl
    | some m => exact hmembers _ rfl

theorem formed_enrol {g : Inner Formed} (h : (formed g).Led) :
    (Formed.enrol g r protocol).1.Led := by
  simp only [Formed.enrol]
  split
  · exact h.insert rfl
  · generalize r.resolveMemberId g.members = memberId
    cases hm : g.members[memberId]? with
    | none => exact h.insert rfl
    | some m =>
      simp only
      split
      · exact h
      · exact h.insert (h.heard memberId m hm)

theorem join {response : JoinGroupResponse} (h : w.Led) (hjoin : w.join r = some (w', response)) :
    w'.Led := by
  cases joins hjoin with
  | refused => exact h
  | @forming _ g₀ _ protocol _ hmembers _ hleader henrol =>
    have h₀ : (forming g₀).Led := by
      simpa only [Wrapper.Led, leader, memberMap, hmembers, hleader.1] using h
    have h₁ : (forming (Forming.enrol g₀ r protocol).1).Led := forming_enrol h₀
    simpa only [henrol] using h₁
  | formed => exact formed_enrol h

/-! ### The other requests -/

theorem sync {r : SyncGroup} {response : SyncGroupResponse} (h : w.Led)
    (hsync : w.sync r = some (w', response)) : w'.Led := by
  cases w with
  | formed g =>
    cases hsync
    exact h
  | forming g =>
    obtain rfl | ⟨assignments, protocolType, protocolName, hmem, -, -, rfl⟩ :=
      Forming.sync_cases hsync
    · exact h
    · -- the member that sends the assignments becomes the leader
      refine ⟨fun id hid => ?_, h.heard⟩
      cases hid
      exact hmem

theorem forming_heartbeat {r : Heartbeat} (h : (forming g).Led) :
    (forming (Forming.heartbeat g r).1).Led := by
  simp only [Forming.heartbeat]
  split
  · exact h
  · split
    · exact h
    · let g' := { g with
        members := g.members.modify r.memberId fun m => { m with lastContact := some r.now } }
      have h' : (forming (Forming.missedHeartbeat g' r.memberId r.now).1).Led :=
        Coordinator.Led.forming_missedHeartbeat h.modify
      split <;> exact h'

/-- A heartbeat that finds the leader's session alive keeps it. -/
theorem formed_heartbeat {g : Inner Formed} {r : Heartbeat} (h : (formed g).Led)
    (hlive : g.state.leader ∈ (Formed.missedHeartbeat g r.memberId r.now).1.members) :
    (formed (Formed.heartbeat g r).1).Led := by
  simp only [Formed.heartbeat]
  split
  · exact h
  · split
    · exact h
    · have h' : Coordinator.Led (some g.state.leader)
          (Formed.missedHeartbeat g r.memberId r.now).1.members := by
        refine ⟨fun id hid => ?_, (Coordinator.Led.updateLastContact h).heard.filter⟩
        cases hid
        exact hlive
      split
      · simpa only [Wrapper.Led, leader, memberMap, Formed.missedHeartbeat_state] using h'
      · simpa only [Wrapper.Led, leader, memberMap, Formed.missedHeartbeat_state] using h'.modify

/-- A leave keeps the leader of a group that is forming only if the leader stays. -/
theorem leave {r : LeaveGroup} (h : w.Led)
    (hstay : ∀ g id, w = .forming g → g.state.leader = some id → ∀ i ∈ r.leaving, i.memberId ≠ id) :
    (w.leave r).1.Led := by
  cases w with
  | forming g =>
    refine ⟨fun id hid => mem_depart.2 ⟨h.member id hid, ?_⟩, h.heard.depart⟩
    exact hstay g id rfl hid
  | formed g =>
    simp only [Wrapper.leave, Formed.leave]
    split
    · exact .of_mem h.heard.depart
    · next hnone =>
      rw [depart_eq_self (Bool.eq_false_iff.2 hnone)]
      exact h

theorem offsetCommit {r : OffsetCommit} (h : w.Led) : (w.offsetCommit r).1.Led := by
  cases w with
  | forming g => exact of_offsetCommit (fun g => (forming g).Led) h fun _ => h.modify
  | formed g => exact of_offsetCommit (fun g => (formed g).Led) h fun _ => h.modify

end Wrapper.Led

/-! ## Runs -/

namespace Wrapper

/-- The leader is among those who leave a group that is forming, or one that somebody else's
expired session takes back to forming. -/
def leaderLeaves (w : Wrapper) (r : LeaveGroup) : Bool :=
  let sender := r.memberId.getD ""
  let stays (id : MemberId) := !r.leaving.any (·.memberId = id)
  match w with
  | .forming g => g.state.leader.any fun id => !stays id && !g.expires sender r.now id
  | .formed g =>
    !stays g.state.leader && !g.expires sender r.now g.state.leader &&
      g.members.toList.any fun entry => g.expires sender r.now entry.1

/-- A static member's heartbeat finds the session of a formed group's leader expired. -/
def leaderExpires (w : Wrapper) (r : Heartbeat) : Bool :=
  match w with
  | .forming _ => false
  | .formed g => r.groupInstanceId.isSome && g.expires r.memberId r.now g.state.leader

def keepsLeader (w : Wrapper) : Request → Bool
  | .leave r => !w.leaderLeaves r
  | .heartbeat r => !w.leaderExpires r
  | _ => true

theorem Led.heartbeat {w : Wrapper} {r : Heartbeat} (h : w.Led) (hok : w.leaderExpires r = false) :
    ((w.evict r.groupInstanceId r.memberId r.now).heartbeat r).1.Led := by
  cases w with
  | forming g =>
    rw [Wrapper.evict]
    split
    · exact Led.forming_heartbeat (Led.missedHeartbeat h)
    · exact Led.forming_heartbeat h
  | formed g =>
    rw [Wrapper.evict]
    split
    · have h' : ((formed g).missedHeartbeat r.memberId r.now).Led := h.missedHeartbeat
      simp only [Wrapper.missedHeartbeat] at h' ⊢
      split at h'
      · next hev =>
        rw [if_pos hev]
        exact Led.forming_heartbeat h'
      · next hev =>
        rw [if_neg hev]
        refine Led.formed_heartbeat h' ?_
        rw [Formed.missedHeartbeat_members Formed.missedHeartbeat_again]
        exact (Coordinator.Led.updateLastContact h').member _ rfl
    · next hstatic =>
      -- a static member: nobody has been evicted before the heartbeat
      refine Led.formed_heartbeat h ?_
      rw [isNone_iff_eq_none, ← not_isSome_iff_eq_none, not_not] at hstatic
      rw [leaderExpires, hstatic, Bool.true_and] at hok
      exact Coordinator.Led.retained h rfl hok

/-- Whom a leave finds as the leader of a group that is forming after the eviction. -/
theorem Led.leaderLeaves {w : Wrapper} {r : LeaveGroup} {g : Inner Forming} {id : MemberId}
    (h : w.Led) (hg : w.missedHeartbeat (r.memberId.getD "") r.now = .forming g)
    (hid : g.state.leader = some id) (hleaves : r.leaving.any (·.memberId = id)) :
    w.leaderLeaves r = true := by
  cases w with
  | forming g₀ =>
    cases hg
    obtain ⟨hlead, hfresh⟩ := filter_eq_some_iff.1 hid
    rw [updateLastContact_state] at hlead
    rw [Inner.expires_eq] at hfresh
    simp only [Wrapper.leaderLeaves, hlead, any_some, hleaves, hfresh, Bool.not_not, Bool.and_self]
  | formed g₀ =>
    simp only [Wrapper.missedHeartbeat] at hg
    split at hg
    · next hev =>
      cases hg
      simp only [Inner.reform, Formed.missedHeartbeat_state] at hid
      split at hid
      swap
      · cases hid
      next hmem =>
      cases hid
      have hlive := Inner.expires_of_retained hmem
      -- somebody has been evicted, and it was not the leader
      have hother : (g₀.members.toList.any fun entry =>
          g₀.expires (r.memberId.getD "") r.now entry.1) = true := by
        by_contra hnone
        refine (Bool.eq_false_iff.1 (Formed.missedHeartbeat_eq_false_iff.2 ?_)) hev
        exact Coordinator.Led.alive h fun id hmem => by
          simpa using fun hexp => hnone (List.any_eq_true.2 ⟨_, hmem, hexp⟩)
      simp [Wrapper.leaderLeaves, hleaves, hlive, hother]
    · cases hg

variable {w : Wrapper}

theorem Led.pass {w' : Wrapper} {r : Request} {body : Body} (h : w.Led)
    (hok : w.keepsLeader r = true) (hpass : w.pass r = some (w', body)) : w'.Led := by
  cases r with
  | join r =>
    obtain ⟨⟨w₁, response⟩, hjoin, heq⟩ := map_eq_some_iff.1 hpass
    cases heq
    exact h.evict.join hjoin
  | sync r =>
    obtain ⟨⟨w₁, response⟩, hsync, heq⟩ := map_eq_some_iff.1 hpass
    cases heq
    exact h.evict.sync hsync
  | heartbeat r =>
    cases hpass
    exact h.heartbeat (by simpa [keepsLeader] using hok)
  | leave r =>
    cases hpass
    refine h.missedHeartbeat.leave fun g id hg hid i hi hne => ?_
    rw [keepsLeader, h.leaderLeaves hg hid (List.any_eq_true.2 ⟨i, hi, decide_eq_true hne⟩)] at hok
    cases hok
  | offsetCommit r =>
    cases hpass
    exact h.offsetCommit

/-! ### The stored form -/

theorem map_map_members (members : Members) : (members.map fun _ m =>
    (⟨m.joinResponse, m.lastContact⟩ : GroupMember)).map (fun _ m =>
      (⟨m.joinResponse, m.lastContact⟩ : Member)) = members := by
  refine ExtTreeMap.ext_getElem? fun id => ?_
  simp

theorem memberMap_rebuilt (w : Wrapper) : w.rebuilt.memberMap = w.memberMap := by
  cases w <;> exact map_map_members _

theorem Led.rebuilt (h : w.Led) : w.rebuilt.Led := by
  refine ⟨fun id hid => ?_, ?_⟩
  · rw [memberMap_rebuilt]
    cases w with
    | forming g =>
      exact h.member id (filter_eq_some_iff.1 hid).1
    | formed g => exact h.member id hid
  · rw [memberMap_rebuilt]
    exact h.heard

end Wrapper

theorem Request.empty_led (r : Request) : r.empty.Led := by
  cases r <;> exact ⟨nofun, by simp [Heard, Request.empty, Wrapper.memberMap, Inner.new]⟩

/-- The leader neither leaves a group that is forming nor loses its session to a static
member's heartbeat. -/
def keepsLeader (w : Option Wrapper) : Event → Bool
  | .request r => (w.getD r.empty).keepsLeader r
  | .rebuild => true

theorem led_of_reach {w : Option Wrapper}
    (h : coordinator.Reach (fun w e => keepsLeader w e = true) none w) :
    ∀ w', w = some w' → w'.Led :=
  forall_of_reach h Request.empty_led (fun hw hok hpass => hw.pass hok hpass) fun hw => hw.rebuilt

variable {w : Wrapper}

/-- A completed join leaves a leader behind. -/
theorem Wrapper.leader_of_join {w' : Wrapper} {r : JoinGroup} {response : JoinGroupResponse}
    (hjoin : w.join r = some (w', response)) (hok : response.errorCode = .none) :
    w'.leader.isSome := by
  cases joins hjoin with
  | refused hne => exact absurd hok hne
  | forming _ _ _ henrol =>
    simp only [Forming.enrol] at henrol
    split at henrol
    · cases henrol
      cases hok
    · cases henrol
      rfl
  | formed =>
    rw [Formed.enrol]
    split
    · rfl
    · simp only
      split
      · split <;> rfl
      · rfl

/-- The leader is a member, and a join that completes finds or makes a leader. -/
def Wrapper.WellLed (w : Wrapper) : Prop :=
  (∀ id, w.leader = some id → id ∈ w.memberMap) ∧
    ∀ r w' response, w.pass (.join r) = some (w', .joinGroupResponse response) →
      response.errorCode = .none → ∃ id, w'.leader = some id ∧ id ∈ w'.memberMap

theorem Wrapper.Led.wellLed (h : w.Led) : w.WellLed := by
  refine ⟨h.member, fun r w' response hpass hok => ?_⟩
  have h' : w'.Led := h.pass rfl hpass
  obtain ⟨⟨w₁, resp⟩, hjoin, heq⟩ := map_eq_some_iff.1 hpass
  cases heq
  obtain ⟨id, hid⟩ := isSome_iff_exists.1 (leader_of_join hjoin hok)
  exact ⟨id, hid, h'.member id hid⟩

/-- **Leadership.**  As long as the leader neither leaves a group that is forming nor is
evicted by a static member's heartbeat, the recorded leader is a member, a completed join
leaves a leader behind, and both hold of the group that another broker rebuilds. -/
theorem group_leader_is_member {w : Wrapper}
    (h : coordinator.Reach (fun w e => keepsLeader w e = true) none (some w)) :
    w.WellLed ∧ w.rebuilt.WellLed :=
  have hled : w.Led := led_of_reach h w rfl
  ⟨hled.wellLed, hled.rebuilt.wellLed⟩

/-! ## Runs that meet the conditions, and runs that do not -/

namespace Run

def second : Nat := 1000000000

/-- A client joins, `now` seconds into the run. -/
def joinGroup (now : Nat) (memberId : MemberId) (uuid : String) (instanceId : Option String) :
    JoinGroup where
  now := now * second
  uuid
  clientId := some "c"
  sessionTimeoutMs := 45000
  rebalanceTimeoutMs := some 300000
  memberId
  groupInstanceId := instanceId
  protocolType := "consumer"
  protocols := some [⟨"range", [1]⟩]

def join (now : Nat) (memberId : MemberId) (uuid : String) (instanceId : Option String) : Event :=
  .request (.join (joinGroup now memberId uuid instanceId))

def sync (now : Nat) (generationId : Int32) (memberId : MemberId) (members : List MemberId) :
    Event :=
  .request (.sync ⟨now * second, generationId, memberId, none,
    some (members.map fun id => ⟨id, [7]⟩)⟩)

def heartbeat (now : Nat) (generationId : Int32) (memberId : MemberId)
    (instanceId : Option String) : Event :=
  .request (.heartbeat ⟨now * second, generationId, memberId, instanceId⟩)

def leave (now : Nat) (memberId : MemberId) : Event :=
  .request (.leave ⟨now * second, some memberId, none⟩)

end Run

open Run in
/-- Two members form a group, and the leader leaves it while it is formed. -/
theorem group_leader_is_member_leave :
    ∃ w : Wrapper, coordinator.Reach (fun w e => keepsLeader w e = true) none (some w) ∧
      w.WellLed ∧ w.rebuilt.WellLed ∧ w.leader = none ∧ w.members.length = 1 := by
  have hrun : (coordinator.trace (fun w e => keepsLeader w e = true) none
      [join 0 "" "1" none, join 0 "c-1" "" none, join 0 "" "2" none, join 0 "c-2" "" none,
        sync 1 0 "c-1" ["c-1", "c-2"], .rebuild, leave 2 "c-1"]).any (fun w =>
        w.any fun w => decide (w.leader = none ∧ w.members.length = 1)) = true := by
    decide +kernel
  obtain ⟨w, hreach, hw⟩ := reach_of_any hrun
  obtain ⟨w, rfl, hw⟩ := (Option.any_eq_true _ _).1 hw
  obtain ⟨hled, hrebuilt⟩ := group_leader_is_member hreach
  exact ⟨w, hreach, hled, hrebuilt, of_decide_eq_true hw⟩

open Run in
/-- The leader leaves while the group is forming: it stays the recorded leader, also
after the member that is left has completed its join. -/
theorem forming_leader_leaves :
    ∃ w : Wrapper, coordinator.Reach (fun _ _ => True) none (some w) ∧ w.leader = some "c-1" ∧
      "c-1" ∉ w.memberMap ∧ "c-2" ∈ w.memberMap := by
  have hrun : (coordinator.trace (fun _ _ => True) none
      [join 0 "" "1" none, join 0 "c-1" "" none, join 0 "" "2" none, join 0 "c-2" "" none,
        leave 2 "c-1", join 3 "c-2" "" none]).any (fun w =>
        w.any fun w => decide (w.leader = some "c-1" ∧ "c-1" ∉ w.memberMap ∧
          "c-2" ∈ w.memberMap)) = true := by
    decide +kernel
  obtain ⟨w, hreach, hw⟩ := reach_of_any hrun
  obtain ⟨w, rfl, hw⟩ := (Option.any_eq_true _ _).1 hw
  exact ⟨w, hreach, of_decide_eq_true hw⟩

end Tansu.Coordinator
