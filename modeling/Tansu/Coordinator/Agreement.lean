import Tansu.Coordinator.Assignments

/-!
# One assignment for each generation

Every successful sync is recorded with the generation it was answered in, the
assignments it was taken from and the request that had supplied them.  A group that has
formed leaves its generation behind when it starts to form again, with one exception: a
static member that joins again with other metadata takes the group back to forming in
the same generation, and the leader may then supply other assignments for it.
-/

namespace Tansu.Coordinator

open Std Tansu.Lib List Option System

/-- `Wrapper::assignments`. -/
def Wrapper.assignments : Wrapper → Option (BTreeMap MemberId Bytes)
  | .forming _ => none
  | .formed inner => some inner.state.assignments

namespace Agreement

/-! ## What is served -/

/-- A successful sync. -/
structure Served where
  generationId : Int32
  /-- The number of the request that has supplied the assignments. -/
  origin : Nat
  assignments : BTreeMap MemberId Bytes
  memberId : MemberId
  assignment : Bytes

structure History where
  steps : Nat := 0
  /-- The request that has supplied the current assignments. -/
  origin : Nat := 0
  generations : List Int32 := []
  served : List Served := []

namespace History

/-- A sync finds the group `before` and leaves it `after`. -/
def sync (h : History) (before after : Wrapper) (memberId : MemberId)
    (response : SyncGroupResponse) : History :=
  let origin := if before.assignments.isNone && after.assignments.isSome then h.steps else h.origin
  { h with
    origin
    served := h.served ++
      if response.errorCode = .none then
        [⟨after.generationId, origin, after.assignments.getD ∅, memberId, response.assignment⟩]
      else [] }

end History

def observer (h : History) (w : Option Wrapper) (e : Event) (w' : Option Wrapper) : History :=
  let h := { h with
    steps := h.steps + 1
    generations := h.generations ++ (w'.map Wrapper.generationId).toList }
  match e with
  | .request (.sync r) =>
    let before := (w.getD (Request.sync r).empty).evict r.groupInstanceId r.memberId r.now
    match before.sync r with
    | some (after, response) => h.sync before after r.memberId response
    | none => h
  | _ => h

def system : System (Option Wrapper × History) Event := coordinator.observe observer

/-- Generations never fall, and the assignments that are served in one generation are
those of one request. -/
structure Agrees (h : History) : Prop where
  monotone : h.generations.Pairwise fun m n => m.toInt ≤ n.toInt
  same : ∀ a ∈ h.served, ∀ b ∈ h.served, a.generationId = b.generationId →
    a.origin = b.origin ∧ a.assignments = b.assignments
  own : ∀ a ∈ h.served, a.assignment = a.assignments[a.memberId]?.getD []

/-! ## Conditions on a run -/

/-- A static member that a formed group knows joins again with other metadata for the
protocol of the group. -/
def reopens (w : Wrapper) (r : JoinGroup) : Bool :=
  match w with
  | .forming _ => false
  | .formed g =>
    r.groupInstanceId.isSome && (g.members[r.resolveMemberId g.members]?).any fun member =>
      (r.protocols.bind (·.find? (·.name = g.state.protocolName))).any fun protocol =>
        decide (member.joinResponse.metadata ≠ protocol.metadata)

/-- No static member reopens a generation, and there is room for two more of them. -/
def orderly (w : Option Wrapper) : Event → Bool
  | .request r =>
    let w := w.getD r.empty
    decide (w.generationId.toInt < 2147483646) &&
      match r with
      | .join r => !reopens w r
      | _ => true
  | .rebuild => true

/-! ## What a pass does to the generation and the assignments -/

variable {w w₁ w' : Wrapper} {memberId : MemberId} {now : SystemTime} {h : History}

theorem toInt_succ {n : Int32} (h : n.toInt < 2147483647) : (n + 1).toInt = n.toInt + 1 := by
  have hle := n.le_toInt
  rw [Int32.toInt_add]
  simp only [Int32.reduceToInt]
  rw [Int.bmod_eq_of_le] <;> omega

/-- A generation goes on, or a new one starts to form. -/
inductive Turns (w w' : Wrapper) : Prop
  | stay (hgen : w'.generationId = w.generationId) (hmap : w'.assignments = w.assignments)
  | next (hgen : w'.generationId = w.generationId + 1) (hmap : w'.assignments = none)

theorem Turns.refl (w : Wrapper) : Turns w w := .stay rfl rfl

theorem turns_missedHeartbeat (w : Wrapper) (memberId : MemberId) (now : SystemTime) :
    Turns w (w.missedHeartbeat memberId now) := by
  cases w with
  | forming g => exact .stay updateLastContact_generationId rfl
  | formed g =>
    simp only [Wrapper.missedHeartbeat]
    split
    · refine .next ?_ rfl
      simp [Wrapper.generationId, Inner.reform]
    · refine .stay ?_ ?_
      · simp [Wrapper.generationId]
      · simp [Wrapper.assignments]

theorem turns_evict (w : Wrapper) (instanceId : Option String) (memberId : MemberId)
    (now : SystemTime) : Turns w (w.evict instanceId memberId now) := by
  rw [Wrapper.evict]
  split
  · exact turns_missedHeartbeat w memberId now
  · exact .refl w

theorem turns_join {r : JoinGroup} {response : JoinGroupResponse}
    (hjoin : w.join r = some (w', response)) (hok : reopens w r = false) : Turns w w' := by
  cases Wrapper.joins hjoin with
  | refused => exact .refl _
  | forming _ hgen _ henrol => exact .stay ((Forming.enrol_generationId henrol).trans hgen) rfl
  | @formed g _ hfound =>
    simp only [reopens, hfound, Option.any_some] at hok
    simp only [Formed.enrol]
    split
    · exact .next rfl rfl
    · generalize r.resolveMemberId g.members = memberId at hok ⊢
      cases hm : g.members[memberId]? with
      | none => exact .next rfl rfl
      | some m =>
        simp only [hm, Option.any_some] at hok ⊢
        split
        · exact .refl _
        · next hmeta =>
          -- Only a static member keeps the generation.
          cases hinstance : r.groupInstanceId with
          | none => exact .next (by simp [Wrapper.generationId, Inner.reform]) rfl
          | some instanceId => simp [hinstance, hmeta] at hok

/-- A static member's request evicts nobody, and a dynamic one's reopens nothing. -/
theorem reopens_evict {r : JoinGroup} :
    reopens (w.evict r.groupInstanceId r.memberId r.now) r = reopens w r := by
  rw [Wrapper.evict]
  split
  · next hdynamic =>
    have hnever (w : Wrapper) : reopens w r = false := by
      cases w <;> simp_all [reopens]
    rw [hnever, hnever]
  · rfl

theorem turns_heartbeat (w : Wrapper) (r : Heartbeat) : Turns w (w.heartbeat r).1 := by
  cases w with
  | forming g =>
    refine .stay ?_ rfl
    simp only [Wrapper.heartbeat, Forming.heartbeat, Prod.map_fst]
    split
    · rfl
    · split
      · rfl
      · split <;> exact updateLastContact_generationId
  | formed g =>
    simp only [Wrapper.heartbeat, Formed.heartbeat, Prod.map_fst]
    split
    · exact .refl _
    · split
      · exact .refl _
      · split <;> refine .stay ?_ ?_ <;> simp [Wrapper.generationId, Wrapper.assignments]

theorem turns_leave (w : Wrapper) (r : LeaveGroup) : Turns w (w.leave r).1 := by
  cases w with
  | forming g =>
    simp only [Wrapper.leave, Forming.leave, Prod.map_fst]
    split
    · exact .next rfl rfl
    · exact .stay rfl rfl
  | formed g =>
    simp only [Wrapper.leave, Formed.leave]
    split
    · exact .next rfl rfl
    · exact .stay rfl rfl

theorem turns_offsetCommit (w : Wrapper) (r : OffsetCommit) : Turns w (w.offsetCommit r).1 := by
  cases w with
  | forming g =>
    exact of_offsetCommit (fun g' => Turns (.forming g) (.forming g')) (.refl _) fun _ =>
      .stay rfl rfl
  | formed g =>
    exact of_offsetCommit (fun g' => Turns (.formed g) (.formed g')) (.refl _) fun _ =>
      .stay rfl rfl

variable {r : SyncGroup} {response : SyncGroupResponse}

/-- A sync leaves the group as it is, or forms it with the assignments it supplies. -/
theorem sync_turns (hsync : w.sync r = some (w', response)) : w'.generationId = w.generationId ∧
      (w' = w ∨ w.assignments = none ∧ w'.assignments.isSome = true) := by
  cases w with
  | forming g =>
    obtain rfl | ⟨assignments, protocolType, protocolName, -, -, -, rfl⟩ :=
      Forming.sync_cases hsync
    · exact ⟨rfl, .inl rfl⟩
    · exact ⟨rfl, .inr ⟨rfl, rfl⟩⟩
  | formed g =>
    cases hsync
    exact ⟨rfl, .inl rfl⟩

/-- A successful sync answers from the assignments of the group. -/
theorem assignment_of_sync (hsync : w.sync r = some (w', response))
    (hok : response.errorCode = .none) :
    ∃ assignments, w'.assignments = some assignments ∧
      response.assignment = assignments[r.memberId]?.getD [] := by
  cases w with
  | forming g =>
    simp only [Wrapper.sync, Forming.sync] at hsync
    repeat' split at hsync
    all_goals cases hsync
    all_goals first
      | exact ⟨_, rfl, rfl⟩
      | cases hok
  | formed g =>
    cases hsync
    refine ⟨g.state.assignments, rfl, ?_⟩
    simp only [Formed.sync] at hok ⊢
    split at hok
    · cases hok
    · next hmem =>
      split at hok
      · cases hok
      · next hahead =>
        split at hok
        · cases hok
        · next hbehind => rw [if_neg hmem, if_neg hahead, if_neg hbehind]

/-! ## Whole runs -/

/-- What was served lies in earlier generations, or comes from the current assignments. -/
def Behind (h : History) (w : Wrapper) : Prop :=
  ∀ a ∈ h.served, a.generationId.toInt ≤ w.generationId.toInt ∧
    (a.generationId = w.generationId → w.assignments = some a.assignments ∧ a.origin = h.origin)

theorem Behind.turns (hb : Behind h w) (ht : Turns w w')
    (hroom : w.generationId.toInt < 2147483647) : Behind h w' := by
  intro a ha
  obtain ⟨hle, heq⟩ := hb a ha
  cases ht with
  | stay hgen hmap =>
    rw [hgen, hmap]
    exact ⟨hle, heq⟩
  | next hgen hmap =>
    have hsucc := toInt_succ hroom
    rw [hgen]
    refine ⟨by omega, fun hsame => ?_⟩
    rw [hsame] at hle
    omega

theorem Turns.le (ht : Turns w w') (hroom : w.generationId.toInt < 2147483647) :
    w.generationId.toInt ≤ w'.generationId.toInt ∧
      w'.generationId.toInt ≤ w.generationId.toInt + 1 := by
  cases ht with
  | stay hgen hmap =>
    rw [hgen]
    omega
  | next hgen hmap =>
    rw [hgen, toInt_succ hroom]
    omega

structure Inv (p : Option Wrapper × History) : Prop where
  agrees : Agrees p.2
  behind : ∀ w, p.1 = some w → Behind p.2 w
  generations : ∀ w, p.1 = some w → ∀ n ∈ p.2.generations, n.toInt ≤ w.generationId.toInt
  unborn : p.1 = none → p.2.generations = [] ∧ p.2.served = []

/-- The history of a run that has come to the group `w`. -/
structure Upto (h : History) (w : Wrapper) : Prop where
  agrees : Agrees h
  behind : Behind h w
  generations : ∀ n ∈ h.generations, n.toInt ≤ w.generationId.toInt

/-- The history with the generation of one more step. -/
def History.seen (h : History) (w : Wrapper) : History :=
  { h with steps := h.steps + 1, generations := h.generations ++ [w.generationId] }

theorem Upto.seen (hu : Upto h w) (hle : w.generationId.toInt ≤ w'.generationId.toInt)
    (hb : Behind h w') : Upto (h.seen w') w' := by
  refine ⟨⟨?_, hu.agrees.same, hu.agrees.own⟩, hb, fun n hn => ?_⟩
  · refine pairwise_append.2 ⟨hu.agrees.monotone, pairwise_singleton _ _, ?_⟩
    intro m hm n hn
    have hle' := hu.generations m hm
    rw [mem_singleton.1 hn]
    omega
  · rcases mem_append.1 hn with hn | hn
    · have hle' := hu.generations n hn
      omega
    · rw [mem_singleton.1 hn]

theorem Upto.turns (hu : Upto h w) (ht : Turns w w') (hroom : w.generationId.toInt < 2147483647) :
    Upto (h.seen w') w' :=
  hu.seen (ht.le hroom).1 (hu.behind.turns ht hroom)

theorem Upto.twice (hu : Upto h w) (ht : Turns w w₁) (ht' : Turns w₁ w')
    (hroom : w.generationId.toInt < 2147483646) : Upto (h.seen w') w' := by
  have hle := ht.le (by omega)
  have hroom' : w₁.generationId.toInt < 2147483647 := by omega
  exact hu.seen (by have := ht'.le hroom'; omega) ((hu.behind.turns ht (by omega)).turns ht' hroom')

theorem Upto.sync (hu : Upto h w') (hb : Behind h w) (hsync : w.sync r = some (w', response)) :
    Upto (h.sync w w' r.memberId response) w' := by
  obtain ⟨hgen, hcase⟩ := sync_turns hsync
  -- What was served in this generation was served from these assignments.
  have hsame : ∀ a ∈ h.served, a.generationId = w'.generationId →
      w'.assignments = some a.assignments ∧
        a.origin = (h.sync w w' r.memberId response).origin := by
    intro a ha heq
    obtain ⟨hmap, horigin⟩ := (hb a ha).2 (heq.trans hgen)
    rcases hcase with rfl | ⟨hnone, -⟩
    · refine ⟨hmap, ?_⟩
      simp [History.sync, hmap, horigin]
    · rw [hnone] at hmap
      cases hmap
  have hnew : ∀ a ∈ (h.sync w w' r.memberId response).served, a ∈ h.served ∨
      a.generationId = w'.generationId ∧ w'.assignments = some a.assignments ∧
        a.origin = (h.sync w w' r.memberId response).origin ∧
        a.assignment = a.assignments[a.memberId]?.getD [] := by
    intro a ha
    rcases mem_append.1 ha with ha | ha
    · exact .inl ha
    · split at ha
      · next hok =>
        obtain ⟨assignments, hmap, hassign⟩ := assignment_of_sync hsync hok
        rw [mem_singleton.1 ha]
        refine .inr ⟨rfl, ?_, rfl, ?_⟩
        · simp [hmap]
        · simpa [hmap] using hassign
      · cases ha
  refine ⟨⟨hu.agrees.monotone, fun a ha b hb' heq => ?_, fun a ha => ?_⟩, fun a ha => ?_,
    hu.generations⟩
  · rcases hnew a ha with ha | ⟨hgena, hmapa, horigina, -⟩ <;>
      rcases hnew b hb' with hb' | ⟨hgenb, hmapb, horiginb, -⟩
    · exact hu.agrees.same a ha b hb' heq
    · obtain ⟨hmap, horigin⟩ := hsame a ha (heq.trans hgenb)
      rw [hmap] at hmapb
      exact ⟨horigin.trans horiginb.symm, Option.some.inj hmapb⟩
    · obtain ⟨hmap, horigin⟩ := hsame b hb' (heq.symm.trans hgena)
      rw [hmap] at hmapa
      exact ⟨horigina.trans horigin.symm, (Option.some.inj hmapa).symm⟩
    · rw [hmapa] at hmapb
      exact ⟨horigina.trans horiginb.symm, Option.some.inj hmapb⟩
  · rcases hnew a ha with ha | ⟨-, -, -, hown⟩
    · exact hu.agrees.own a ha
    · exact hown
  · rcases hnew a ha with ha | ⟨hgena, hmapa, horigina, -⟩
    · exact ⟨(hu.behind a ha).1, hsame a ha⟩
    · rw [hgena]
      exact ⟨Int.le_refl _, fun _ => ⟨hmapa, horigina⟩⟩

theorem Upto.pass {r : Request} {body : Body} {before : Option Wrapper}
    (hw : before.getD r.empty = w) (hu : Upto h w) (hok : orderly before (.request r) = true)
    (hpass : w.pass r = some (w', body)) :
    Upto (observer h before (.request r) (some w')) w' := by
  simp only [orderly, hw, Bool.and_eq_true, decide_eq_true_eq] at hok
  obtain ⟨hroom, hjoin⟩ := hok
  cases r with
  | join r =>
    obtain ⟨⟨w₁, response⟩, hw₁, heq⟩ := map_eq_some_iff.1 hpass
    cases heq
    exact hu.twice (turns_evict w _ _ _)
      (turns_join hw₁ (by simpa [reopens_evict] using hjoin)) hroom
  | sync r =>
    obtain ⟨⟨w₁, response⟩, hw₁, heq⟩ := map_eq_some_iff.1 hpass
    cases heq
    have hturns := turns_evict w r.groupInstanceId r.memberId r.now
    have hbehind := hu.behind.turns hturns (by omega)
    obtain ⟨hgen, hcase⟩ := sync_turns hw₁
    have hb : Behind h w₁ := by
      intro a ha
      obtain ⟨hle, hsame⟩ := hbehind a ha
      rw [hgen]
      refine ⟨hle, fun heq => ?_⟩
      obtain ⟨hmap, horigin⟩ := hsame heq
      rcases hcase with rfl | ⟨hnone, -⟩
      · exact ⟨hmap, horigin⟩
      · rw [hnone] at hmap
        cases hmap
    have hle : w.generationId.toInt ≤ w₁.generationId.toInt := by
      rw [hgen]
      exact (hturns.le (by omega)).1
    have hseen : Upto (h.seen w₁) w₁ := hu.seen hle hb
    simp only [observer, hw, hw₁]
    exact hseen.sync hbehind hw₁
  | heartbeat r =>
    cases hpass
    exact hu.twice (turns_evict w _ _ _) (turns_heartbeat _ r) hroom
  | leave r =>
    cases hpass
    exact hu.twice (turns_missedHeartbeat w _ _) (turns_leave _ r) hroom
  | offsetCommit r =>
    cases hpass
    exact hu.turns (turns_offsetCommit w r) (by omega)

theorem Inv.upto {p : Option Wrapper × History} (hi : Inv p) (r : Request) :
    Upto p.2 (p.1.getD r.empty) := by
  obtain ⟨before, h⟩ := p
  cases before with
  | some w => exact ⟨hi.agrees, hi.behind w rfl, hi.generations w rfl⟩
  | none =>
    obtain ⟨hgenerations, hserved⟩ := hi.unborn rfl
    refine ⟨hi.agrees, fun a ha => ?_, fun n hn => ?_⟩
    · rw [hserved] at ha
      cases ha
    · rw [hgenerations] at hn
      cases hn

theorem Upto.inv (hu : Upto h w) : Inv (some w, h) := by
  refine ⟨hu.agrees, fun w' hw' => ?_, fun w' hw' => ?_, fun hw => (by cases hw)⟩ <;> cases hw'
  · exact hu.behind
  · exact hu.generations

theorem Inv.step {p p' : Option Wrapper × History} {e : Event} (hi : Inv p)
    (hok : orderly p.1 e = true) (hs : system.step p e = some p') : Inv p' := by
  obtain ⟨hstep, hhist⟩ := observe_step hs
  obtain ⟨after, h'⟩ := p'
  dsimp only at hstep hhist
  subst hhist
  cases e with
  | request r =>
    obtain ⟨⟨w', body⟩, hpass, heq⟩ := map_eq_some_iff.1 hstep
    cases heq
    exact ((hi.upto r).pass rfl hok hpass).inv
  | rebuild =>
    obtain ⟨w, hw, heq⟩ := map_eq_some_iff.1 hstep
    cases heq
    have hu : Upto p.2 w := ⟨hi.agrees, hi.behind w hw, hi.generations w hw⟩
    have hgen : w.rebuilt.generationId = w.generationId := by cases w <;> rfl
    have hmap : w.rebuilt.assignments = w.assignments := by cases w <;> rfl
    refine (hu.seen (Int.le_of_eq (congrArg Int32.toInt hgen.symm)) fun a ha => ?_).inv
    rw [hgen, hmap]
    exact hu.behind a ha

/-- **One assignment for each generation**, as long as no static member takes a formed group
back to forming in its generation, and the generations do not overflow.  What was served in
the current generation comes from the assignments the group has (`Behind`), and a pass that
changes them starts another. -/
theorem one_assignment_each_generation {p : Option Wrapper × History}
    (hreach : system.Reach (fun p e => orderly p.1 e = true) (none, {}) p) : Agrees p.2 := by
  have hi : Inv p := by
    refine hreach.invariant ⟨⟨.nil, ?_, ?_⟩, fun w hw => (by cases hw), fun w hw => (by cases hw),
      fun _ => ⟨rfl, rfl⟩⟩ fun _ hi hok hs => hi.step hok hs
    · exact fun a ha => absurd ha not_mem_nil
    · exact fun a ha => absurd ha not_mem_nil
  exact hi.agrees

/-! ### Two members, one of them static -/

/-- The leader supplies the assignment `bytes` to itself and to the static member. -/
def supply (now : Nat) (bytes : UInt8) : Event :=
  .request (.sync ⟨now * Run.second, 0, "c-1", none, some [⟨"c-1", [bytes]⟩, ⟨"i-2", [bytes]⟩]⟩)

/-- The static member asks for its assignment. -/
def ask (now : Nat) : Event := .request (.sync ⟨now * Run.second, 0, "i-2", some "i", none⟩)

/-- The static member joins again, with other metadata. -/
def rejoin (now : Nat) : Event :=
  .request (.join { Run.joinGroup now "i-2" "" (some "i") with protocols := some [⟨"range", [2]⟩] })

def formed : List Event :=
  [Run.join 0 "" "1" none, Run.join 0 "c-1" "" none, Run.join 0 "" "2" (some "i"), supply 1 7]

/-- What was served: the generation, the member and its assignment. -/
def answers (h : History) : List (Int32 × MemberId × Bytes) :=
  h.served.map fun a => (a.generationId, a.memberId, a.assignment)

theorem one_assignment_each_generation_formed : ∃ p,
    system.Reach (fun p e => orderly p.1 e = true) (none, {}) p ∧
      answers p.2 = [(0, "c-1", [7]), (0, "i-2", [7])] ∧ Agrees p.2 := by
  exact (exists_reach (formed ++ [.rebuild, ask 2, Run.leave 3 "c-1"])
    (by decide +kernel)).imp fun p h => ⟨h.1, h.2, one_assignment_each_generation h.1⟩

/-- The static member takes the group back to forming, and the leader supplies other
assignments in the same generation. -/
theorem static_rejoin_reopens_generation : ∃ p,
    system.Reach (fun _ _ => True) (none, {}) p ∧
      answers p.2 = [(0, "c-1", [7]), (0, "i-2", [7]), (0, "c-1", [8])] ∧ ¬ Agrees p.2 := by
  refine (exists_reach (formed ++ [ask 2, rejoin 3, supply 4 8])
    (by decide +kernel)).imp fun p h => ⟨h.1, h.2, fun hagrees => ?_⟩
  have hanswers := h.2
  have hfirst : ((0, "c-1", [7]) : Int32 × MemberId × Bytes) ∈ answers p.2 := by simp [hanswers]
  have hlast : ((0, "c-1", [8]) : Int32 × MemberId × Bytes) ∈ answers p.2 := by simp [hanswers]
  obtain ⟨a, ha, heqa⟩ := List.mem_map.1 hfirst
  obtain ⟨b, hb, heqb⟩ := List.mem_map.1 hlast
  simp only [Prod.mk.injEq] at heqa heqb
  obtain ⟨-, hmap⟩ := hagrees.same a ha b hb (heqa.1.trans heqb.1.symm)
  have howna := hagrees.own a ha
  have hownb := hagrees.own b hb
  rw [heqa.2.1, heqa.2.2] at howna
  rw [heqb.2.1, heqb.2.2, ← hmap, ← howna] at hownb
  cases hownb

end Agreement

end Tansu.Coordinator
