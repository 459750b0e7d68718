import Tansu.Coordinator.Panics

/-!
# The protocol of a group without members

The first join chooses the protocol of a group and its type.  Leaving, eviction and the
way through the storage all keep both, also when nobody is left who supports them.
-/

namespace Tansu.Coordinator

open Std Tansu.Lib List Option

/-- The join is not refused for its protocols, and the group then has one of them, under
the protocol type of the client. -/
def Supports (w : Option Wrapper) (r : JoinGroup) : Prop :=
  ∃ w' response,
    (w.getD (Request.empty (.join r))).pass (.join r) = some (w', .joinGroupResponse response) ∧
      response.errorCode ≠ .inconsistentGroupProtocol ∧
      (∃ protocol ∈ r.protocols.getD [], w'.protocolName = some protocol.name) ∧
      w'.protocolType = some r.protocolType

variable {r : JoinGroup} {protocol : JoinGroupRequestProtocol}
  {protocols : List JoinGroupRequestProtocol}

theorem Forming.enrol_protocol (g : Inner Forming) (r : JoinGroup)
    (protocol : JoinGroupRequestProtocol) :
    (Forming.enrol g r protocol).1.state.protocolName = g.state.protocolName ∧
      (Forming.enrol g r protocol).1.state.protocolType = g.state.protocolType ∧
      (Forming.enrol g r protocol).2.errorCode ≠ .inconsistentGroupProtocol := by
  rw [Forming.enrol]
  split
  · exact ⟨rfl, rfl, by simp⟩
  · exact ⟨rfl, rfl, by simp [Wrapper.joined]⟩

theorem Formed.enrol_protocol (g : Inner Formed) (r : JoinGroup)
    (protocol : JoinGroupRequestProtocol) :
    (Formed.enrol g r protocol).1.protocolName = some g.state.protocolName ∧
      (Formed.enrol g r protocol).1.protocolType = some g.state.protocolType ∧
      (Formed.enrol g r protocol).2.errorCode ≠ .inconsistentGroupProtocol := by
  rw [Formed.enrol]
  split
  · exact ⟨rfl, rfl, by simp⟩
  · rw [← and_assoc]
    refine ⟨?_, by simp [Wrapper.joined]⟩
    dsimp only
    split
    · split <;> exact ⟨rfl, rfl⟩
    · exact ⟨rfl, rfl⟩

namespace Wrapper

/-- What a join makes of the protocol: it is chosen once, together with its type. -/
theorem join_protocol (w : Wrapper) (hr : r.protocols = some (protocol :: protocols)) :
    ∃ w' response, w.join r = some (w', response) ∧
      w'.protocolName = some (w.protocolName.getD protocol.name) ∧
      w'.protocolType = (if w.protocolName.isSome then w.protocolType else some r.protocolType) ∧
      (response.errorCode ≠ .inconsistentGroupProtocol ↔
        ∀ name, w.protocolName = some name → ∃ p ∈ protocol :: protocols, p.name = name) := by
  have hfound {name : String} {p : JoinGroupRequestProtocol}
      (hp : (protocol :: protocols).find? (·.name = name) = some p) :
      ∃ p ∈ protocol :: protocols, p.name = name :=
    ⟨p, mem_of_find?_eq_some hp, by simpa using find?_some hp⟩
  have hmissing {name : String}
      (hp : (protocol :: protocols).find? (·.name = name) = none) :
      ¬ ∃ p ∈ protocol :: protocols, p.name = name := by
    rintro ⟨p, hmem, hname⟩
    simpa [hname] using find?_eq_none.1 hp p hmem
  cases w with
  | forming g =>
    simp only [Wrapper.join, Forming.join, hr]
    cases hname : g.state.protocolName with
    | none =>
      obtain ⟨hkept, htype, herror⟩ := Forming.enrol_protocol
        { g with
          sessionTimeoutMs := r.sessionTimeoutMs
          rebalanceTimeoutMs := r.rebalanceTimeoutMs
          state :=
            { g.state with
              protocolType := some r.protocolType
              protocolName := some protocol.name } } r protocol
      refine ⟨_, _, rfl, ?_, ?_, ?_⟩
      · simp only [protocolName, hname, getD_none]
        exact hkept
      · simp only [protocolName, protocolType, hname, isSome_none, Bool.false_eq_true, if_false]
        exact htype
      · simp only [protocolName, hname, reduceCtorEq, false_implies, implies_true, iff_true]
        exact herror
    | some name =>
      simp only [protocolName, protocolType, hname, getD_some, isSome_some, if_true,
        Option.some.injEq, forall_eq']
      cases hp : (protocol :: protocols).find? (·.name = name) with
      | none => exact ⟨_, _, rfl, hname, rfl, by simpa using hmissing hp⟩
      | some p =>
        obtain ⟨hkept, htype, herror⟩ := Forming.enrol_protocol g r p
        exact ⟨_, _, rfl, hkept.trans hname, htype, iff_of_true herror (hfound hp)⟩
  | formed g =>
    simp only [Wrapper.join, Formed.join, hr, protocolName, protocolType, getD_some, isSome_some,
      if_true, Option.some.injEq, forall_eq']
    cases hp : (protocol :: protocols).find? (·.name = g.state.protocolName) with
    | none => exact ⟨_, _, rfl, rfl, rfl, by simpa using hmissing hp⟩
    | some p =>
      obtain ⟨hkept, htype, herror⟩ := Formed.enrol_protocol g r p
      exact ⟨_, _, rfl, hkept, htype, iff_of_true herror (hfound hp)⟩

end Wrapper

theorem pass_join_protocol (w : Option Wrapper)
    (hr : r.protocols = some (protocol :: protocols)) :
    ∃ w' response,
      (w.getD (Request.empty (.join r))).pass (.join r) = some (w', .joinGroupResponse response) ∧
        w'.protocolName = some ((w.bind Wrapper.protocolName).getD protocol.name) ∧
        w'.protocolType = (if (w.bind Wrapper.protocolName).isSome then w.bind Wrapper.protocolType
          else some r.protocolType) ∧
        (response.errorCode ≠ .inconsistentGroupProtocol ↔
          ∀ name, w.bind Wrapper.protocolName = some name →
            ∃ p ∈ protocol :: protocols, p.name = name) := by
  have hstart : (w.getD (Request.empty (.join r))).protocolName = w.bind Wrapper.protocolName ∧
      (w.getD (Request.empty (.join r))).protocolType = w.bind Wrapper.protocolType := by
    cases w <;> exact ⟨rfl, rfl⟩
  obtain ⟨hname, htype⟩ := Wrapper.protocol_evict (w.getD (Request.empty (.join r)))
    r.groupInstanceId r.memberId r.now
  obtain ⟨w', response, hjoin, hspec⟩ := Wrapper.join_protocol
    ((w.getD (Request.empty (.join r))).evict r.groupInstanceId r.memberId r.now) hr
  rw [hname, htype, hstart.1, hstart.2] at hspec
  refine ⟨w', response, ?_, hspec⟩
  rw [Wrapper.pass, hjoin]
  rfl

/-- A join is supported exactly if the group has no protocol yet, or the client offers it
under the protocol type of the group, whether or not the group has members. -/
theorem join_supported_iff (w : Option Wrapper)
    (hr : r.protocols = some (protocol :: protocols)) :
    Supports w r ↔ ∀ name, w.bind Wrapper.protocolName = some name →
      (∃ p ∈ protocol :: protocols, p.name = name) ∧
        w.bind Wrapper.protocolType = some r.protocolType := by
  obtain ⟨w', response, hpass, hname, htype, herror⟩ := pass_join_protocol w hr
  constructor
  · rintro ⟨_, _, hpass', hnot, -, hsupported⟩ name hchosen
    cases hpass.symm.trans hpass'
    rw [hchosen, isSome_some, if_pos rfl] at htype
    exact ⟨herror.1 hnot name hchosen, htype.symm.trans hsupported⟩
  · intro hoffered
    refine ⟨w', response, hpass, herror.2 fun name h => (hoffered name h).1, ?_, ?_⟩
    · rw [hr, getD_some, hname]
      cases hchosen : w.bind Wrapper.protocolName with
      | none => exact ⟨protocol, mem_cons_self, rfl⟩
      | some name =>
        obtain ⟨p, hp, hpname⟩ := (hoffered name hchosen).1
        exact ⟨p, hp, congrArg some hpname.symm⟩
    · rw [htype]
      cases hchosen : w.bind Wrapper.protocolName with
      | none => rfl
      | some name => exact (hoffered name hchosen).2

open Run in
/-- The only member of a group completes its join and leaves. -/
theorem emptied_group : ∃ w : Wrapper, coordinator.Reach (fun _ _ => True) none (some w) ∧
    w.members = [] ∧ w.protocolName = some "range" ∧ w.protocolType = some "consumer" := by
  have hrun : (coordinator.trace (fun _ _ => True) none
      [join 0 "" "1" none, join 0 "c-1" "" none, leave 2 "c-1"]).any (fun w =>
        w.any fun w => decide (w.members.length = 0 ∧ w.protocolName = some "range" ∧
          w.protocolType = some "consumer")) = true := by
    decide +kernel
  obtain ⟨w, hreach, hw⟩ := System.reach_of_any hrun
  obtain ⟨w, rfl, hw⟩ := (Option.any_eq_true _ _).1 hw
  obtain ⟨hempty, hprotocol⟩ := of_decide_eq_true hw
  exact ⟨w, hreach, length_eq_zero_iff.1 hempty, hprotocol⟩

open Run in
/-- A client of the same type that offers the protocol of the emptied group is let in. -/
theorem join_supported_emptied : ∃ w : Wrapper,
    coordinator.Reach (fun _ _ => True) none (some w) ∧ w.members = [] ∧
      Supports (some w) { joinGroup 3 "" "2" none with
        protocols := some [⟨"sticky", [1]⟩, ⟨"range", [2]⟩] } := by
  obtain ⟨w, hreach, hempty, hname, htype⟩ := emptied_group
  refine ⟨w, hreach, hempty, (join_supported_iff (some w) rfl).2 fun name hchosen => ?_⟩
  cases hname.symm.trans hchosen
  exact ⟨⟨⟨"range", [2]⟩, by simp, rfl⟩, htype⟩

open Run in
/-- A client with another protocol is turned away from the emptied group, and one of another
type is let in to a group that keeps the type of the member that left. -/
theorem empty_group_keeps_protocol : ∃ w : Wrapper,
    coordinator.Reach (fun _ _ => True) none (some w) ∧ w.members = [] ∧
      ¬Supports (some w) { joinGroup 3 "" "2" none with protocols := some [⟨"sticky", [1]⟩] } ∧
      ¬Supports (some w) { joinGroup 3 "" "2" none with protocolType := "connect" } := by
  obtain ⟨w, hreach, hempty, hname, htype⟩ := emptied_group
  refine ⟨w, hreach, hempty, ?_, ?_⟩
  · rintro ⟨_, _, hpass', hnot, -⟩
    obtain ⟨w', response, hpass, -, -, herror⟩ := pass_join_protocol (some w)
      (r := { joinGroup 3 "" "2" none with protocols := some [⟨"sticky", [1]⟩] }) rfl
    cases hpass.symm.trans hpass'
    obtain ⟨p, hp, hrange⟩ := herror.1 hnot "range" hname
    rw [mem_singleton.1 hp] at hrange
    exact absurd hrange (by decide)
  · rintro ⟨_, _, hpass', -, -, hconnect⟩
    obtain ⟨w', response, hpass, -, hkept, -⟩ := pass_join_protocol (some w)
      (r := { joinGroup 3 "" "2" none with protocolType := "connect" }) rfl
    cases hpass.symm.trans hpass'
    rw [hkept, bind_some, bind_some, hname, htype, isSome_some, if_pos rfl] at hconnect
    exact absurd hconnect (by decide)

end Tansu.Coordinator
