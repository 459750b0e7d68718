import Tansu.Coordinator.Leadership
import Tansu.Lib.Tasks

/-!
# Brokers that share a group

The loops of `Controller` in `coordinator/group/administrator.rs`, for one group that
any number of brokers serve at once.  A broker keeps a copy of the group with the
version it was stored under.  A pass of a request takes the copy out of the broker,
so that another request of the same broker finds none; it runs the handler, stores
the result if the stored version is still that of the copy, and puts a copy back:
its own result, or the group that it found stored instead, with which it starts
over.  A join and a sync may go round again although they have been stored.

The storage is an atomic compare-and-swap on the version.  Every pass reads the
clock and the generator of identifiers anew.
-/

namespace Tansu.Coordinator.Brokers

open Std Tansu.Lib Machine

deriving instance DecidableEq for GroupMember, GroupState, GroupDetail

/-! ## Calls -/

/-- A request as the client sent it to a broker, and the offsets that it commits. -/
structure Call where
  broker : Nat
  request : Request
  offsets : List ((String × Int32) × Int64) := []

/-- What a step reads from outside, or finds decided there. -/
structure Choice (V : Type) where
  now : SystemTime
  uuid : String := ""
  /-- What the storage answers to an offset commit; `none` is an error. -/
  answers : Option (List ((String × Int32) × ErrorCode)) := some []
  /-- The offsets that an offset commit has written although it failed. -/
  partly : List (String × Int32) := []
  /-- The version that the stored group gets. -/
  version : V
  /-- `update_group` fails, before or after it has stored the group. -/
  fault : Bool := false
  lost : Bool := false
  elapsedMs : Nat := 0

variable {V : Type}

/-- The request of one pass. -/
def Call.pass (call : Call) (c : Choice V) : Request :=
  match call.request with
  | .join r => .join { r with now := c.now, uuid := c.uuid }
  | .sync r => .sync { r with now := c.now }
  | .heartbeat r => .heartbeat { r with now := c.now }
  | .leave r => .leave { r with now := c.now }
  | .offsetCommit r => .offsetCommit { r with now := c.now, stored := c.answers }

/-! ## What a stored pass is followed by -/

/-- `PAUSE_MS`. -/
def pauseMs : Nat := 3000

def sessionTimeoutMs : Wrapper → Int32
  | .forming inner => inner.sessionTimeoutMs
  | .formed inner => inner.sessionTimeoutMs

/-- `session_timeout_ms() as u128`: a negative one is sign extended. -/
def sessionTimeout (w : Wrapper) : Nat := ((sessionTimeoutMs w).toInt % 2 ^ 128).toNat

/-- `is_member_id_required`. -/
def isMemberIdRequired (response : JoinGroupResponse) : Bool :=
  response.errorCode = .memberIdRequired

/-- `is_assigned`, for a sync. -/
def isAssigned (response : SyncGroupResponse) : Bool :=
  response.errorCode = .none && !response.assignment.isEmpty

/-- `set_error_code`. -/
def setErrorCode (response : SyncGroupResponse) (errorCode : ErrorCode) : SyncGroupResponse :=
  { response with errorCode }

inductive Verdict
  | again
  | done (body : Body)
  /-- A sync that gave up waiting. -/
  | timedOut (body : Body)

def joined (r : JoinGroup) (w : Wrapper) (elapsedMs : Nat) (response : JoinGroupResponse) :
    Verdict :=
  if r.groupInstanceId.isSome ∧ elapsedMs < pauseMs then .again
  else if isMemberIdRequired response then .done (.joinGroupResponse response)
  else if elapsedMs < sessionTimeout w / 2 then .again
  else .done (.joinGroupResponse response)

def synced (r : SyncGroup) (w : Wrapper) (elapsedMs : Nat) (response : SyncGroupResponse) :
    Verdict :=
  if r.groupInstanceId.isSome ∧ elapsedMs < pauseMs then .again
  else if isAssigned response then .done (.syncGroupResponse response)
  else if elapsedMs < sessionTimeout w * 8 % 2 ^ 128 / 10 then .again
  else .timedOut (.syncGroupResponse (setErrorCode response .rebalanceInProgress))

def verdict (call : Call) (w : Wrapper) (elapsedMs : Nat) (body : Body) : Verdict :=
  match call.request, body with
  | .join r, .joinGroupResponse response => joined r w elapsedMs response
  | .sync r, .syncGroupResponse response => synced r w elapsedMs response
  | _, body => .done body

/-! ## Sections -/

structure Stored (V : Type) where
  detail : GroupDetail
  version : V

/-- A copy of the group, with the version it is stored under. -/
structure Copy (V : Type) where
  wrapper : Wrapper
  version : V

structure Shared (V : Type) where
  /-- The groups that have been stored, the latest first. -/
  objects : List (Stored V) := []
  /-- The copy of each broker. -/
  copies : BTreeMap Nat (Copy V) := ∅
  /-- The offsets that are committed for the group. -/
  offsets : BTreeMap (String × Int32) Int64 := ∅

inductive Section (V : Type)
  | take (call : Call)
  | handle (call : Call) (copy : Option (Copy V))
  /-- The pass of `request` has made `after` of the copy. -/
  | update (call : Call) (copy : Option (Copy V)) (request : Request) (after : Wrapper)
      (body : Body)
  /-- The group was stored. -/
  | keep (call : Call) (copy : Copy V) (body : Body)
  /-- Another group was found stored. -/
  | refetch (call : Call) (copy : Copy V)

inductive Failure
  | panic
  | storage

variable [DecidableEq V]

/-- A version stands for one content: a new one is unknown, or known with that content. -/
def Shared.admits (s : Shared V) (version : V) (detail : GroupDetail) : Bool :=
  s.objects.all fun o => !decide (o.version = version) || decide (o.detail = detail)

omit [DecidableEq V] in
/-- The group that a pass works on. -/
def original (copy : Option (Copy V)) (r : Request) : Wrapper :=
  match copy with
  | some copy => copy.wrapper
  | none => r.empty

/-- The commit is not fenced, so that the storage is asked to write. -/
def commits (w : Wrapper) : Request → Bool
  | .offsetCommit r => r.topics.isSome &&
    match w with
    | .forming g => (offsetCommitFence g r false).2.isNone
    | .formed g => (offsetCommitFence g r true).2.isNone
  | _ => false

/-- The storage has these answers for a partition. -/
def isStorageAnswer (errorCode : ErrorCode) : Bool :=
  errorCode = .none || errorCode = .unknownTopicOrPartition || errorCode = .unknownServerError

omit [DecidableEq V] in
/-- The partitions that the storage writes; a write that failed may have been made. -/
def written (c : Choice V) : List (String × Int32) :=
  match c.answers with
  | some answers =>
    (answers.filter fun a =>
      a.2 = .none || a.2 = .unknownServerError && decide (a.1 ∈ c.partly)).map (·.1)
  | none => c.partly

omit [DecidableEq V] in
/-- `Storage::offset_commit`. -/
def commitOffsets (call : Call) (c : Choice V) (offsets : BTreeMap (String × Int32) Int64) :
    BTreeMap (String × Int32) Int64 :=
  call.offsets.foldl (fun offsets entry =>
    if entry.1 ∈ written c then offsets.insert entry.1 entry.2 else offsets) offsets

def take (s : Shared V) (call : Call) : Outcome (Shared V) (Section V) Failure :=
  .ok { s with copies := s.copies.erase call.broker } [.handle call s.copies[call.broker]?]

def handle (s : Shared V) (c : Choice V) (call : Call) (copy : Option (Copy V)) :
    Outcome (Shared V) (Section V) Failure :=
  let r := call.pass c
  let w := original copy r
  match w.pass r with
  | none => .err s .panic
  | some (after, body) =>
    if c.answers.any (·.any fun a => !isStorageAnswer a.2) then .blocked
    else .ok (if commits w r then { s with offsets := commitOffsets call c s.offsets } else s)
      [.update call copy r after body]

/-- `update_group`. -/
def update (s : Shared V) (c : Choice V) (call : Call) (copy : Option (Copy V)) (after : Wrapper)
    (body : Body) : Outcome (Shared V) (Section V) Failure :=
  if c.fault then .err s .storage
  else if copy.map (·.version) = s.objects.head?.map (·.version) then
    if s.admits c.version after.groupDetail then
      let s := { s with objects := ⟨after.groupDetail, c.version⟩ :: s.objects }
      if c.lost then .err s .storage else .ok s [.keep call ⟨after, c.version⟩ body]
    else .blocked
  else
    match s.objects with
    | o :: _ => .ok s [.refetch call ⟨.withStorageGroupDetail o.detail, o.version⟩]
    | [] => .err s .storage

def keep (s : Shared V) (c : Choice V) (call : Call) (copy : Copy V) (body : Body) :
    Outcome (Shared V) (Section V) Failure :=
  .ok { s with copies := s.copies.insert call.broker copy }
    (match verdict call copy.wrapper c.elapsedMs body with
      | .again => [.take call]
      | .done _ => []
      | .timedOut _ => [])

def refetch (s : Shared V) (call : Call) (copy : Copy V) :
    Outcome (Shared V) (Section V) Failure :=
  .ok { s with copies := s.copies.insert call.broker copy } [.take call]

/-- A broker that restarts has no copy. -/
inductive Environment
  | restart (broker : Nat)

def machine : Machine (Shared V) (Section V) (Choice V) Failure Call Environment where
  start call := [.take call]
  exec s c
    | .take call => take s call
    | .handle call copy => handle s c call copy
    | .update call copy _ after body => update s c call copy after body
    | .keep call copy body => keep s c call copy body
    | .refetch call copy => refetch s call copy
  handler _ := false
  env s
    | .restart broker => some { s with copies := s.copies.erase broker }

abbrev BrokerWorld (V : Type) := World (Shared V) (Section V)
abbrev BrokerLabel (V : Type) := Label Call (Choice V) Environment

/-! ## What a section does -/

/-- What a section makes of the shared state, and of its task. -/
inductive Moves (s : Shared V) (c : Choice V) : Section V → Shared V → List (Section V) → Prop
  | take {call : Call} : Moves s c (.take call) { s with copies := s.copies.erase call.broker }
      [.handle call s.copies[call.broker]?]
  | handle {call : Call} {copy : Option (Copy V)} {after : Wrapper} {body : Body}
      (hpass : (original copy (call.pass c)).pass (call.pass c) = some (after, body))
      (hlawful : ¬ c.answers.any (·.any fun a => !isStorageAnswer a.2) = true) :
      Moves s c (.handle call copy)
        (if commits (original copy (call.pass c)) (call.pass c) then
          { s with offsets := commitOffsets call c s.offsets } else s)
        [.update call copy (call.pass c) after body]
  | panics {call : Call} {copy : Option (Copy V)} : Moves s c (.handle call copy) s []
  | store {call : Call} {copy : Option (Copy V)} {request : Request} {after : Wrapper}
      {body : Body} {todo : List (Section V)}
      (hversion : copy.map (·.version) = s.objects.head?.map (·.version))
      (hadmits : s.admits c.version after.groupDetail = true)
      (htodo : todo = [] ∨ todo = [.keep call ⟨after, c.version⟩ body]) :
      Moves s c (.update call copy request after body)
        { s with objects := ⟨after.groupDetail, c.version⟩ :: s.objects } todo
  | outdated {call : Call} {copy : Option (Copy V)} {request : Request} {after : Wrapper}
      {body : Body} {o : Stored V}
      (hversion : ¬ copy.map (·.version) = s.objects.head?.map (·.version))
      (ho : o ∈ s.objects) : Moves s c (.update call copy request after body) s
        [.refetch call ⟨.withStorageGroupDetail o.detail, o.version⟩]
  | fails {call : Call} {copy : Option (Copy V)} {request : Request} {after : Wrapper}
      {body : Body} : Moves s c (.update call copy request after body) s []
  | keep {call : Call} {copy : Copy V} {body : Body} {s' : Shared V} {todo : List (Section V)}
      (he : Brokers.keep s c call copy body = .ok s' todo) :
      Moves s c (.keep call copy body) s' todo
  | refetch {call : Call} {copy : Copy V} : Moves s c (.refetch call copy)
      { s with copies := s.copies.insert call.broker copy } [.take call]

theorem run_moves {w w' : BrokerWorld V} {i : Nat} {c : Choice V} {a : Section V}
    (hat : At w i a []) (h : machine.step w (.run i c) = some w') :
    ∃ s todo, Moves w.shared c a s todo ∧ w' = ⟨s, w.tasks.set i todo⟩ := by
  obtain he | he := hat.step h
  · refine ⟨_, _, ?_, by rw [List.append_nil]⟩
    cases a with
    | take => cases he; exact .take
    | handle =>
      simp only [machine, handle] at he
      split at he
      · cases he
      · next hpass =>
        split at he
        · cases he
        · next hlawful => cases he; exact .handle hpass hlawful
    | update =>
      simp only [machine, update] at he
      split at he
      · cases he
      · split at he
        · next hversion =>
          split at he
          · next hadmits =>
            split at he <;> cases he
            exact .store hversion hadmits (.inr rfl)
          · cases he
        · next hversion =>
          split at he <;> cases he
          next hobjects =>
          exact .outdated hversion (by rw [hobjects]; exact List.mem_cons_self)
    | keep => exact .keep he
    | refetch => cases he; exact .refetch
  · refine ⟨_, [], ?_, rfl⟩
    cases a with
    | take | keep | refetch => cases he
    | handle =>
      simp only [machine, handle] at he
      split at he
      · cases he; exact .panics
      · split at he <;> cases he
    | update =>
      simp only [machine, update] at he
      split at he
      · cases he; exact .fails
      · split at he
        · next hversion =>
          split at he
          · next hadmits =>
            split at he <;> cases he
            exact .store hversion hadmits (.inl rfl)
          · cases he
        · split at he <;> cases he
          exact .fails

/-! ## Runs -/

namespace Scenario

/-- The clock shows `now` seconds, and every client has waited long enough. -/
def choice (now : Nat) (uuid : String) (version : Nat) : Choice Nat where
  now := now * Coordinator.Run.second
  uuid
  version
  elapsedMs := 30000

def joinAt (broker : Nat) (memberId : MemberId) : BrokerLabel Nat :=
  .spawn { broker, request := .join (Coordinator.Run.joinGroup 0 memberId "" none) }

/-- The task runs four sections: a pass, or what is left of one. -/
def pass (i : Nat) (c : Choice Nat) : List (BrokerLabel Nat) := List.replicate 4 (.run i c)

/-- A client has joined at broker 0. -/
def oneMember : List (BrokerLabel Nat) :=
  joinAt 0 "" :: pass 0 (choice 0 "1" 1) ++ joinAt 0 "c-1" :: pass 1 (choice 0 "" 2)

end Scenario

end Tansu.Coordinator.Brokers
