import Tansu.Coordinator.Leadership

/-!
# The assignments of a formed group

A group forms when its leader sends an assignment for each member, so the members
and the assignments of a formed group name the same clients.  From then on every
change of the members has to start a new generation.  One pass does not: the
heartbeat of a static member evicts whoever has expired and leaves the group
formed.
-/

namespace Tansu.Coordinator

open Std Tansu.Lib System

/-! ## What a pass does to a formed group -/

/-- The leader of a formed group is a member, and the assignments are those of the
members. -/
def Wrapper.Covered : Wrapper → Prop
  | .forming _ => True
  | .formed g => g.state.leader ∈ g.members ∧ ∀ id, id ∈ g.state.assignments ↔ id ∈ g.members

/-- The group after a pass, when it was formed before. -/
structure Follows (g : Inner Formed) (w : Wrapper) : Prop where
  covered : w.Covered
  changed : (∃ id, ¬ (id ∈ w.memberMap ↔ id ∈ g.members)) → w.generationId ≠ g.generationId

theorem succ_ne_self (n : Int32) : n + 1 ≠ n := by
  simp

theorem succ_succ_ne_self (n : Int32) : n + 1 + 1 ≠ n := by
  rw [Int32.add_assoc]
  simp

/-- Two formed groups that differ in no more than signs of life. -/
structure Alike (g g' : Inner Formed) : Prop where
  state : g'.state = g.state
  generation : g'.generationId = g.generationId
  members : ∀ id, id ∈ g'.members ↔ id ∈ g.members

theorem Alike.refl (g : Inner Formed) : Alike g g := ⟨rfl, rfl, fun _ => Iff.rfl⟩

variable {g g' : Inner Formed} {memberId id : MemberId}
  {assignments : List SyncGroupRequestAssignment} {w : Option Wrapper}

theorem Alike.covered (h : Alike g g') (hg : (Wrapper.formed g).Covered) :
    (Wrapper.formed g').Covered := by
  refine ⟨?_, fun id => ?_⟩
  · rw [h.state]
    exact (h.members _).2 hg.1
  · rw [h.state, h.members]
    exact hg.2 id

theorem Alike.modify {f : Member → Member} (h : Alike g g') :
    Alike g { g' with members := g'.members.modify memberId f } :=
  ⟨h.state, h.generation, fun id => mem_modify_iff.trans (h.members id)⟩

namespace Follows

variable {g : Inner Formed} {w : Wrapper} {g' : Inner Formed}

theorem of_forming {inner : Inner Forming} (h : inner.generationId ≠ g.generationId) :
    Follows g (.forming inner) :=
  ⟨trivial, fun _ => h⟩

theorem of_alike (h : Alike g g') (hg : (Wrapper.formed g).Covered) : Follows g (.formed g') :=
  ⟨h.covered hg, fun ⟨id, hid⟩ => absurd (h.members id) hid⟩

theorem trans_alike (h : Alike g g') (hw : Follows g' w) : Follows g w := by
  refine ⟨hw.covered, fun ⟨id, hid⟩ => ?_⟩
  rw [← h.generation]
  exact hw.changed ⟨id, by rwa [h.members]⟩

end Follows

theorem mem_updateLastContact {S : Type} {g : Inner S} {now : SystemTime} :
    id ∈ (g.updateLastContact memberId now).members ↔ id ∈ g.members := by
  rw [Inner.updateLastContact]
  split
  · rfl
  · exact mem_modify_iff

theorem mem_collectAssignments :
    id ∈ collectAssignments assignments ↔ ∃ a ∈ assignments, a.memberId = id := by
  have hfold (m : BTreeMap MemberId Bytes) :
      id ∈ assignments.foldl (fun m a => m.insert a.memberId a.assignment) m ↔
        (∃ a ∈ assignments, a.memberId = id) ∨ id ∈ m := by
    induction assignments generalizing m with
    | nil => simp
    | cons a rest ih =>
      rw [List.foldl_cons, ih, ExtTreeMap.mem_insert]
      simp [or_assoc, or_left_comm]
  simpa [collectAssignments] using hfold ∅

theorem isAssignmentsForAllMembers_iff {members : Members}
    (h : isAssignmentsForAllMembers members assignments = true) (id : MemberId) :
    id ∈ collectAssignments assignments ↔ id ∈ members := by
  simp only [isAssignmentsForAllMembers, Bool.and_eq_true, List.all_eq_true, decide_eq_true_eq,
    List.any_eq_true, ExtTreeMap.mem_keys] at h
  rw [mem_collectAssignments]
  constructor
  · rintro ⟨a, ha, rfl⟩
    exact h.1 a ha
  · exact h.2 id

/-! ## Forming groups -/

section FormingGroup

variable {g : Inner Forming} {w : Wrapper}

/-- What a pass that finds the group forming does. -/
structure Formation (g : Inner Forming) (w : Wrapper) : Prop where
  covered : w.Covered
  generation : w.generationId = g.generationId ∨ w.generationId = g.generationId + 1

theorem Formation.join {r : JoinGroup} {response : JoinGroupResponse}
    (h : (Wrapper.forming g).join r = some (w, response)) : Formation g w := by
  cases Wrapper.joins h with
  | refused => exact ⟨trivial, .inl rfl⟩
  | forming _ hgen _ henrol => exact ⟨trivial,
      .inl ((Forming.enrol_generationId henrol).trans hgen)⟩

theorem Formation.sync {r : SyncGroup} {response : SyncGroupResponse}
    (h : (Wrapper.forming g).sync r = some (w, response)) : Formation g w := by
  obtain rfl | ⟨assignments, protocolType, protocolName, hmem, -, hall, rfl⟩ :=
    Forming.sync_cases h
  · exact ⟨trivial, .inl rfl⟩
  · exact ⟨⟨hmem, isAssignmentsForAllMembers_iff hall⟩, .inl rfl⟩

theorem updateLastContact_generationId {S : Type} {g : Inner S} {memberId : MemberId}
    {now : SystemTime} : (g.updateLastContact memberId now).generationId = g.generationId := by
  rw [Inner.updateLastContact]
  split <;> rfl

theorem Formation.heartbeat {r : Heartbeat} :
    Formation g ((Wrapper.forming g).heartbeat r).1 := by
  refine ⟨trivial, .inl ?_⟩
  simp only [Wrapper.heartbeat, Forming.heartbeat, Prod.map_fst]
  split
  · rfl
  · split
    · rfl
    · split <;> exact updateLastContact_generationId

theorem Formation.leave {r : LeaveGroup} : Formation g ((Wrapper.forming g).leave r).1 := by
  refine ⟨trivial, ?_⟩
  simp only [Wrapper.leave, Forming.leave, Prod.map_fst, Wrapper.generationId]
  split
  · exact .inr rfl
  · exact .inl rfl

theorem Formation.offsetCommit {r : OffsetCommit} :
    Formation g ((Wrapper.forming g).offsetCommit r).1 :=
  of_offsetCommit (fun g' => Formation g (.forming g')) ⟨trivial, .inl rfl⟩
    fun _ => ⟨trivial, .inl rfl⟩

theorem Formation.congr {g₀ : Inner Forming} (h : Formation g₀ w)
    (hgen : g₀.generationId = g.generationId) : Formation g w :=
  ⟨h.covered, hgen ▸ h.generation⟩

/-- A group that has just left its formed state does not come back to its generation. -/
theorem Formation.follows {f : Inner Formed} (h : Formation g w)
    (hg : g.generationId = f.generationId + 1) : Follows f w := by
  refine ⟨h.covered, fun _ => ?_⟩
  rcases h.generation with hgen | hgen
  · rw [hgen, hg]
    exact succ_ne_self _
  · rw [hgen, hg]
    exact succ_succ_ne_self _

end FormingGroup

/-! ## Formed groups -/

section FormedGroup

variable {g : Inner Formed} {w : Wrapper}

theorem Follows.join {r : JoinGroup} {response : JoinGroupResponse}
    (h : (Wrapper.formed g).Covered) (hjoin : (Wrapper.formed g).join r = some (w, response)) :
    Follows g w := by
  cases Wrapper.joins hjoin with
  | refused => exact .of_alike (.refl g) h
  | formed =>
    simp only [Formed.enrol]
    split
    · exact .of_forming (succ_ne_self _)
    · generalize r.resolveMemberId g.members = memberId
      cases hm : g.members[memberId]? with
      | none => exact .of_forming (succ_ne_self _)
      | some m =>
        simp only
        split
        · exact .of_alike (.refl g) h
        · -- the metadata of a member changes, and the members do not
          refine ⟨trivial, ?_⟩
          rintro ⟨id, hid⟩
          refine absurd ?_ hid
          have hmem : memberId ∈ g.members := BTreeMap.mem_iff_exists.2 ⟨m, hm⟩
          refine ExtTreeMap.mem_insert.trans ⟨?_, .inr⟩
          rintro (heq | hid)
          · rwa [← Std.compare_eq_iff_eq.1 heq]
          · exact hid

theorem Follows.leave {r : LeaveGroup} (h : (Wrapper.formed g).Covered) :
    Follows g (Formed.leave g r).1 := by
  simp only [Formed.leave]
  split
  · exact .of_forming (succ_ne_self _)
  · next hnone =>
    rw [depart_eq_self (Bool.eq_false_iff.2 hnone)]
    exact .of_alike (.refl g) h

theorem alike_missedHeartbeat {memberId : MemberId} {now : SystemTime}
    (h : (Formed.missedHeartbeat g memberId now).2 = false) :
    Alike g (Formed.missedHeartbeat g memberId now).1 := by
  refine ⟨Formed.missedHeartbeat_state, Formed.missedHeartbeat_generationId, fun id => ?_⟩
  rw [Formed.missedHeartbeat_members h]
  exact mem_updateLastContact

theorem Follows.heartbeat {r : Heartbeat} (h : (Wrapper.formed g).Covered)
    (hlive : (Formed.missedHeartbeat g r.memberId r.now).2 = false) :
    Follows g (.formed (Formed.heartbeat g r).1) := by
  simp only [Formed.heartbeat]
  split
  · exact .of_alike (.refl g) h
  · split
    · exact .of_alike (.refl g) h
    · have halike := alike_missedHeartbeat hlive
      split
      · exact .of_alike halike h
      · exact .of_alike halike.modify h

theorem Follows.offsetCommit {r : OffsetCommit} (h : (Wrapper.formed g).Covered) :
    Follows g ((Wrapper.formed g).offsetCommit r).1 :=
  of_offsetCommit (fun g' => Follows g (.formed g')) (.of_alike (.refl g) h)
    fun _ => .of_alike (Alike.refl g).modify h

theorem missedHeartbeat_formed_cases (g : Inner Formed) (memberId : MemberId) (now : SystemTime) :
    (∃ f, (Wrapper.formed g).missedHeartbeat memberId now = .forming f ∧
        f.generationId = g.generationId + 1) ∨
      (Formed.missedHeartbeat g memberId now).2 = false ∧
        (Wrapper.formed g).missedHeartbeat memberId now =
          .formed (Formed.missedHeartbeat g memberId now).1 := by
  simp only [Wrapper.missedHeartbeat]
  split
  · refine .inl ⟨_, rfl, ?_⟩
    simp [Inner.reform]
  · next hev => exact .inr ⟨Bool.eq_false_iff.2 hev, rfl⟩

theorem evict_formed_cases (g : Inner Formed) (groupInstanceId : Option String)
    (memberId : MemberId) (now : SystemTime) :
    (∃ f, (Wrapper.formed g).evict groupInstanceId memberId now = .forming f ∧
        f.generationId = g.generationId + 1) ∨
      ∃ g', (Wrapper.formed g).evict groupInstanceId memberId now = .formed g' ∧ Alike g g' := by
  rw [Wrapper.evict]
  split
  · rcases missedHeartbeat_formed_cases g memberId now with hf | ⟨hlive, hg⟩
    · exact .inl hf
    · exact .inr ⟨_, hg, alike_missedHeartbeat hlive⟩
  · exact .inr ⟨g, rfl, .refl g⟩

end FormedGroup

/-! ## Runs -/

namespace Wrapper

/-- A static member's heartbeat finds an expired session in a formed group. -/
def evictsInPlace (w : Wrapper) (r : Heartbeat) : Bool :=
  match w with
  | .forming _ => false
  | .formed g => r.groupInstanceId.isSome && (Formed.missedHeartbeat g r.memberId r.now).2

def keepsMembers (w : Wrapper) : Request → Bool
  | .heartbeat r => !w.evictsInPlace r
  | _ => true

variable {g : Inner Formed} {w : Wrapper} {r : Request} {body : Body}

theorem formation_pass {g : Inner Forming} (h : (forming g).pass r = some (w, body)) :
    Formation g w := by
  have hev (instanceId : Option String) (memberId : MemberId) (now : SystemTime) :
      ∃ g₀, (forming g).evict instanceId memberId now = .forming g₀ ∧
        g₀.generationId = g.generationId := by
    rw [evict]
    split
    · exact ⟨_, rfl, updateLastContact_generationId⟩
    · exact ⟨g, rfl, rfl⟩
  cases r with
  | join r =>
    obtain ⟨⟨w₁, response⟩, hjoin, heq⟩ := Option.map_eq_some_iff.1 h
    cases heq
    obtain ⟨g₀, heq, hgen⟩ := hev r.groupInstanceId r.memberId r.now
    rw [heq] at hjoin
    exact (Formation.join hjoin).congr hgen
  | sync r =>
    obtain ⟨⟨w₁, response⟩, hsync, heq⟩ := Option.map_eq_some_iff.1 h
    cases heq
    obtain ⟨g₀, heq, hgen⟩ := hev r.groupInstanceId r.memberId r.now
    rw [heq] at hsync
    exact (Formation.sync hsync).congr hgen
  | heartbeat r =>
    obtain ⟨g₀, heq, hgen⟩ := hev r.groupInstanceId r.memberId r.now
    simp only [pass, heq] at h
    cases h
    exact Formation.heartbeat.congr hgen
  | leave r =>
    cases h
    have hgen : (Forming.missedHeartbeat g (r.memberId.getD "") r.now).1.generationId =
        g.generationId := updateLastContact_generationId
    exact Formation.leave.congr hgen
  | offsetCommit r =>
    cases h
    exact Formation.offsetCommit

theorem follows_pass (h : (formed g).Covered) (hok : (formed g).keepsMembers r = true)
    (hpass : (formed g).pass r = some (w, body)) : Follows g w := by
  cases r with
  | join r =>
    obtain ⟨⟨w₁, response⟩, hjoin, heq⟩ := Option.map_eq_some_iff.1 hpass
    cases heq
    obtain ⟨f, heq, hgen⟩ | ⟨g', heq, halike⟩ :=
      evict_formed_cases g r.groupInstanceId r.memberId r.now
    · rw [heq] at hjoin
      exact (Formation.join hjoin).follows hgen
    · rw [heq] at hjoin
      exact .trans_alike halike (.join (halike.covered h) hjoin)
  | sync r =>
    obtain ⟨⟨w₁, response⟩, hsync, heq⟩ := Option.map_eq_some_iff.1 hpass
    cases heq
    obtain ⟨f, heq, hgen⟩ | ⟨g', heq, halike⟩ :=
      evict_formed_cases g r.groupInstanceId r.memberId r.now
    · rw [heq] at hsync
      exact (Formation.sync hsync).follows hgen
    · rw [heq] at hsync
      cases hsync
      exact .of_alike halike h
  | heartbeat r =>
    cases hpass
    by_cases hdynamic : r.groupInstanceId.isNone
    · rw [evict, if_pos hdynamic]
      obtain ⟨f, heq, hgen⟩ | ⟨hlive, heq⟩ := missedHeartbeat_formed_cases g r.memberId r.now
      · rw [heq]
        exact Formation.heartbeat.follows hgen
      · -- whoever the heartbeat could evict has been looked at already
        have halike := alike_missedHeartbeat hlive
        rw [heq]
        exact .trans_alike halike (.heartbeat (halike.covered h) Formed.missedHeartbeat_again)
    · rw [evict, if_neg hdynamic]
      rw [Option.isNone_iff_eq_none, ← Option.not_isSome_iff_eq_none, not_not] at hdynamic
      exact .heartbeat h (by simpa [keepsMembers, evictsInPlace, hdynamic] using hok)
  | leave r =>
    cases hpass
    obtain ⟨f, heq, hgen⟩ | ⟨hlive, heq⟩ :=
      missedHeartbeat_formed_cases g (r.memberId.getD "") r.now
    · rw [heq]
      exact Formation.leave.follows hgen
    · have halike := alike_missedHeartbeat hlive
      rw [heq]
      exact .trans_alike halike (.leave (halike.covered h))
  | offsetCommit r =>
    cases hpass
    exact .offsetCommit h

theorem Covered.pass (h : w.Covered) {w' : Wrapper} (hok : w.keepsMembers r = true)
    (hpass : w.pass r = some (w', body)) : w'.Covered := by
  cases w with
  | forming g => exact (formation_pass hpass).covered
  | formed g => exact (follows_pass h hok hpass).covered

theorem Covered.rebuilt (h : w.Covered) : w.rebuilt.Covered := by
  cases w with
  | forming g => trivial
  | formed g =>
    have hmembers := memberMap_rebuilt (.formed g)
    simp only [Wrapper.rebuilt, groupDetail, withStorageGroupDetail, Inner.detail,
      GroupDetail.inner, memberMap] at hmembers
    simp only [Wrapper.rebuilt, groupDetail, withStorageGroupDetail, Inner.detail,
      GroupDetail.inner, Covered, hmembers]
    exact h

end Wrapper

/-- No static member's heartbeat finds an expired session in a formed group. -/
def keepsMembers (w : Option Wrapper) : Event → Bool
  | .request r => (w.getD r.empty).keepsMembers r
  | .rebuild => true

theorem Request.empty_covered (r : Request) : r.empty.Covered := by
  cases r <;> trivial

theorem covered_of_reach (h : coordinator.Reach (fun w e => keepsMembers w e = true) none w) :
    ∀ w', w = some w' → w'.Covered :=
  forall_of_reach h Request.empty_covered (fun hw hok hpass => hw.pass hok hpass) fun hw =>
    hw.rebuilt

/-- **Formed groups.**  As long as no static member's heartbeat finds an expired session,
the leader of a formed group is a member, the members and the assignments name the same
clients, and a pass that adds or removes a member starts a new generation. -/
theorem formed_group_covered {g : Inner Formed}
    (h : coordinator.Reach (fun w e => keepsMembers w e = true) none (some (.formed g))) :
    g.state.leader ∈ g.members ∧ (∀ id, id ∈ g.state.assignments ↔ id ∈ g.members) ∧
      ∀ r w' body, (Wrapper.formed g).keepsMembers r = true →
        (Wrapper.formed g).pass r = some (w', body) →
        (∃ id, ¬ (id ∈ w'.memberMap ↔ id ∈ g.members)) → w'.generationId ≠ g.generationId := by
  have hg : (Wrapper.formed g).Covered := covered_of_reach h _ rfl
  exact ⟨hg.1, hg.2, fun r w' body hok hpass => (Wrapper.follows_pass hg hok hpass).changed⟩

/-- The group a coordinator holds, when it is formed. -/
def formed? : Option Wrapper → Option (Inner Formed)
  | some (.formed g) => some g
  | _ => none

theorem eq_of_formed? (h : formed? w = some g) : w = some (.formed g) := by
  unfold formed? at h
  split at h
  · cases h
    rfl
  · cases h

open Run in
/-- A dynamic and a static member form a group, and the join of a third client starts a
new generation. -/
theorem formed_group_covered_join :
    ∃ (g : Inner Formed) (w' : Wrapper) (body : Body),
      coordinator.Reach (fun w e => keepsMembers w e = true) none (some (.formed g)) ∧
      g.state.leader ∈ g.members ∧ (∀ id, id ∈ g.state.assignments ↔ id ∈ g.members) ∧
      g.members.size = 2 ∧ (Wrapper.formed g).pass (.join (joinGroup 3 "" "3" none)) =
        some (w', body) ∧
      "c-3" ∈ w'.memberMap ∧ "c-3" ∉ g.members ∧ w'.generationId ≠ g.generationId := by
  have hrun : (coordinator.trace (fun w e => keepsMembers w e = true) none
      [join 0 "" "1" none, join 0 "c-1" "" none, join 0 "" "2" (some "i"),
        sync 1 0 "c-1" ["c-1", "i-2"], heartbeat 2 0 "i-2" (some "i")]).any (fun w =>
        (formed? w).any fun g =>
          ((Wrapper.formed g).pass (.join (joinGroup 3 "" "3" none))).any fun p =>
            decide (g.members.size = 2 ∧ "c-3" ∈ p.1.memberMap ∧ "c-3" ∉ g.members)) = true := by
    decide +kernel
  obtain ⟨w, hreach, hw⟩ := reach_of_any hrun
  obtain ⟨g, hg, hw⟩ := (Option.any_eq_true _ _).1 hw
  obtain ⟨⟨w', body⟩, hpass, hw⟩ := (Option.any_eq_true _ _).1 hw
  obtain ⟨hsize, hnew, hold⟩ := of_decide_eq_true hw
  obtain rfl := eq_of_formed? hg
  obtain ⟨hleader, hassigned, hchanged⟩ := formed_group_covered hreach
  exact ⟨g, w', body, hreach, hleader, hassigned, hsize, hpass, hnew, hold,
    hchanged _ w' body rfl hpass ⟨"c-3", fun hiff => hold (hiff.1 hnew)⟩⟩

open Run in
/-- The leader goes silent, and the heartbeat of a static member evicts it in place: the
group is still formed in its generation, its leader is no member, and the leader's
partitions stay assigned to it. -/
theorem static_heartbeat_evicts_in_place :
    ∃ g : Inner Formed, coordinator.Reach (fun _ _ => True) none (some (.formed g)) ∧
      g.generationId = 0 ∧ g.state.leader = "c-1" ∧ "c-1" ∉ g.members ∧
      "c-1" ∈ g.state.assignments := by
  have hrun : (coordinator.trace (fun _ _ => True) none
      [join 0 "" "1" none, join 0 "c-1" "" none, join 0 "" "2" (some "i"),
        sync 1 0 "c-1" ["c-1", "i-2"], heartbeat 50 0 "i-2" (some "i")]).any (fun w =>
        (formed? w).any fun g => decide (g.generationId = 0 ∧ g.state.leader = "c-1" ∧
          "c-1" ∉ g.members ∧ "c-1" ∈ g.state.assignments)) = true := by
    decide +kernel
  obtain ⟨w, hreach, hw⟩ := reach_of_any hrun
  obtain ⟨g, hg, hw⟩ := (Option.any_eq_true _ _).1 hw
  obtain rfl := eq_of_formed? hg
  exact ⟨g, hreach, of_decide_eq_true hw⟩

end Tansu.Coordinator
