import Tansu.Dynostore.OptiCon
import Tansu.Nvme.Machine

/-!
# `update_group` in the storage engines

The group coordinator stores a group with a compare-and-swap on its version: a
caller that carries another version than the stored one has to be refused and is
told the current group.  The engines do this in different ways.

* `dynostore` puts the group's object with a condition, or overwrites it in `local`
  mode;
* `slate` reads and writes the group in one serializable transaction of its store,
  which fails at commit if the group has been written since it began;
* `nvme` compares and inserts under the lock of the groups' map.

The group is any type `D` and the version any type `V`; what else the stores hold
plays no part.
-/

namespace Tansu.Storage

open Std Tansu.Lib System

section Specification

variable {σ α χ ε ρ η D V : Type}

/-- A section of a call that carries another version than the stored group has leaves the
stored group alone, and the call has not succeeded: it fails, or is still undecided.
`carries` gives the version carried by the call that an undecided section belongs to. -/
def CompareAndSwap (M : Machine σ α χ ε ρ η) (stored : σ → Option (D × V))
    (carries : α → Option (Option V)) (w : World σ α) : Prop :=
  ∀ i a rest version c, Machine.At w i a rest → carries a = some version →
    version ≠ (stored w.shared).map (·.2) →
    match M.exec w.shared c a with
    | .ok s next => stored s = stored w.shared ∧ ∃ b ∈ next, carries b = some version
    | .err s _ => stored s = stored w.shared
    | .blocked => True

end Specification

inductive UpdateError (D V : Type)
  | error
  | serdeJson
  | outdated (current : D) (version : V)

/-- What happens when a section runs: the version that a write gets, and whether the
store fails for a reason of its own. -/
structure Choice (V : Type) where
  version : V
  fault : Bool := false

structure UpdateGroup (D V : Type) where
  detail : D
  version : Option V

/-! ## dynostore -/

namespace Dynostore

open Tansu.Dynostore (Codec Object PutMode Store)

inductive Section (D V : Type)
  | put (call : UpdateGroup D V)
  /-- The condition of the put did not hold: read what is there. -/
  | get (version : Option V)

variable {D V B : Type} [DecidableEq V] [DecidableEq B]

/-- `update_version.map_or(PutMode::Create, PutMode::Update)`. -/
def mode : Option V → PutMode V
  | none => .create
  | some version => .update version

/-- `put_opts`: `local` mode overwrites whatever is there. -/
def put (codec : Codec D B) (isLocal : Bool) (s : Store V B) (c : Choice V)
    (call : UpdateGroup D V) : Outcome (Store V B) (Section D V) (UpdateError D V) :=
  if c.fault then .err s .error
  else if !isLocal && (s.verdict (mode call.version)).isSome then .ok s [.get call.version]
  else if s.admits c.version (codec.encode call.detail) then
    .ok (s.put ⟨c.version, codec.encode call.detail⟩) []
  else .blocked

def get (codec : Codec D B) (s : Store V B) (c : Choice V) :
    Outcome (Store V B) (Section D V) (UpdateError D V) :=
  if c.fault then .err s .error
  else
    match s.current with
    | none => .err s .error
    | some object =>
      match codec.decode object.payload with
      | none => .err s .serdeJson
      | some detail => .err s (.outdated detail object.version)

/-- The updates of one group in a store. -/
def groups (codec : Codec D B) (isLocal : Bool) :
    Machine (Store V B) (Section D V) (Choice V) (UpdateError D V) (UpdateGroup D V) Empty where
  start call := [.put call]
  exec s c
    | .put call => put codec isLocal s c call
    | .get _ => get codec s c
  handler _ := false
  env _ e := nomatch e

def stored (s : Store V B) : Option (B × V) := s.current.map fun o => (o.payload, o.version)

def carries : Section D V → Option (Option V)
  | .put call => some call.version
  | .get version => some version

omit [DecidableEq B] in
theorem verdict_of_ne {s : Store V B} {version : Option V}
    (h : version ≠ (stored s).map (·.2)) : (s.verdict (mode version)).isSome := by
  simp only [stored, Option.map_map] at h
  cases hs : s.current with
  | none =>
    rw [hs] at h
    cases version with
    | none => exact absurd rfl h
    | some v => simp [mode, Store.verdict, hs]
  | some object =>
    rw [hs] at h
    cases version with
    | none => simp [mode, Store.verdict, hs]
    | some v =>
      have hne : object.version ≠ v := fun heq => h (by simp [heq])
      simp [mode, Store.verdict, hs, hne]

theorem compareAndSwap (codec : Codec D B) (w : World (Store V B) (Section D V)) :
    CompareAndSwap (groups codec false) stored carries w := by
  intro i a rest version c _ hcarries hne
  cases a with
  | put call =>
    cases hcarries
    have hverdict := verdict_of_ne hne
    cases hfault : c.fault with
    | true => simp [groups, put, hfault]
    | false => simp [groups, put, hfault, hverdict, carries]
  | get version' =>
    simp only [groups, get]
    split
    · next s next heq =>
      -- a call that reads the current group fails in every case
      split at heq
      · cases heq
      · split at heq
        · cases heq
        · split at heq <;> cases heq
    · next s e heq =>
      split at heq
      · cases heq
        rfl
      · split at heq
        · cases heq
          rfl
        · split at heq <;> cases heq <;> rfl
    · trivial

end Dynostore

/-! ## slate -/

namespace Slate

/-- What is assumed of the store about one of its keys.  `σ` are the states of the store and
`τ` the serializable transactions that have begun. -/
structure Database (σ τ α : Type) where
  get : σ → Option α
  begin : σ → τ
  read : τ → Option α
  commit : σ → τ → α → Option σ
  read_begin : ∀ s, read (begin s) = get s
  /-- The commit fails if the key has been written since the transaction began: what the
  transaction has read is what is there. -/
  commit_read : ∀ s tx a s', commit s tx a = some s' → read tx = get s

inductive Section (τ D V : Type)
  | begin (call : UpdateGroup D V)
  | commit (call : UpdateGroup D V) (tx : τ)

variable {σ τ D V : Type} [Inhabited D] [Inhabited V] [DecidableEq V]

section

variable (db : Database σ τ (D × V))

/-- A missing group is read as the default group with the default version; only a caller
that carries a version is compared with it. -/
def begin (s : σ) (c : Choice V) (call : UpdateGroup D V) :
    Outcome σ (Section τ D V) (UpdateError D V) :=
  if c.fault then .err s .error
  else
    let tx := db.begin s
    let current := (db.read tx).getD (default, default)
    if call.version.any (· ≠ current.2) then .err s (.outdated current.1 current.2)
    else .ok s [.commit call tx]

omit [Inhabited D] [Inhabited V] [DecidableEq V] in
def commit (s : σ) (c : Choice V) (call : UpdateGroup D V) (tx : τ) :
    Outcome σ (Section τ D V) (UpdateError D V) :=
  if c.fault then .err s .error
  else
    match db.commit s tx (call.detail, c.version) with
    | none => .err s .error
    | some s => .ok s []

/-- The updates of one group in a database. -/
def groups : Machine σ (Section τ D V) (Choice V) (UpdateError D V) (UpdateGroup D V) Empty where
  start call := [.begin call]
  exec s c
    | .begin call => begin db s c call
    | .commit call tx => commit db s c call tx
  handler _ := false
  env _ e := nomatch e

def carries : Section τ D V → Option (Option V)
  | .begin call => some call.version
  | .commit call _ => some call.version

/-- No version is carried only for a group that is not there, and the default version only
for one that is. -/
def versioned (group : Option (D × V)) : Option V → Bool
  | none => group.isNone
  | some version => group.isSome || version ≠ default

/-- A transaction that begins carries a version if the group is there. -/
def beginsVersioned (w : World σ (Section τ D V)) : Label (UpdateGroup D V) (Choice V) Empty → Bool
  | .run i _ =>
    match w.tasks[i]? with
    | some (.begin call :: _) => versioned (db.get w.shared) call.version
    | _ => true
  | _ => true

/-- A transaction carries the version that it has read. -/
def Checked : Section τ D V → Prop
  | .begin _ => True
  | .commit call tx => call.version = (db.read tx).map (·.2)

end

variable {db : Database σ τ (D × V)} {w w' : World σ (Section τ D V)}
  {l : Label (UpdateGroup D V) (Choice V) Empty} {s s' : σ} {call : UpdateGroup D V} {c : Choice V}
  {next : List (Section τ D V)}

theorem begin_ok (h : begin db s c call = .ok s' next) :
    s' = s ∧ next = [.commit call (db.begin s)] ∧
      ∀ version, call.version = some version →
        version = ((db.get s).getD (default, default)).2 := by
  simp only [begin, db.read_begin] at h
  split at h
  · cases h
  · split at h
    · cases h
    · next hany =>
      cases h
      refine ⟨rfl, rfl, fun version hversion => ?_⟩
      simpa [hversion] using hany

omit [Inhabited D] [Inhabited V] [DecidableEq V] in
theorem commit_ok {tx : τ} (h : commit db s c call tx = .ok s' next) :
    db.read tx = db.get s ∧ next = [] := by
  simp only [commit] at h
  split at h
  · cases h
  · split at h
    · cases h
    · next hcommit =>
      cases h
      exact ⟨db.commit_read _ _ _ _ hcommit, rfl⟩

/-- A transaction that fails leaves the database alone. -/
theorem exec_err {a : Section τ D V} {e : UpdateError D V}
    (h : (groups db).exec s c a = .err s' e) : s' = s := by
  cases a with
  | begin call =>
    simp only [groups, begin] at h
    split at h
    · cases h
      rfl
    · split at h <;> cases h
      rfl
  | commit call tx =>
    simp only [groups, commit] at h
    split at h
    · cases h
      rfl
    · split at h <;> cases h
      rfl

/-- A call that is not compared carries the version of the group all the same. -/
theorem version_of_versioned {group : Option (D × V)} (h : versioned group call.version = true)
    (hcheck : ∀ version, call.version = some version →
      version = (group.getD (default, default)).2) : call.version = group.map (·.2) := by
  cases hg : group with
  | none =>
    cases hv : call.version with
    | none => rfl
    | some version => simp [versioned, hg, hv, hcheck version hv] at h
  | some group =>
    cases hv : call.version with
    | none => simp [versioned, hg, hv] at h
    | some version => simp [hcheck version hv, hg]

theorem checked_step (hw : Machine.Holds (fun _ => True) (fun _ => Checked db) w)
    (hok : beginsVersioned db w l = true) (h : (groups db).step w l = some w') :
    Machine.Holds (fun _ => True) (fun _ => Checked db) w' := by
  refine hw.step h ?_ nofun ?_ ?_
  · rintro call rfl a ha
    rw [List.mem_singleton.1 ha]
    trivial
  · rintro i c a rest s next rfl hat ha he
    cases a with
    | begin call =>
      obtain ⟨rfl, rfl, hcheck⟩ := begin_ok he
      refine ⟨trivial, fun b hb => ?_, fun _ _ _ hb => hb⟩
      rw [List.mem_singleton.1 hb, Checked, db.read_begin]
      refine version_of_versioned ?_ hcheck
      simpa [beginsVersioned, show w.tasks[i]? = some (.begin call :: rest) from hat] using hok
    | commit call tx =>
      obtain ⟨-, rfl⟩ := commit_ok he
      exact ⟨trivial, by simp, fun b _ _ hb => hb⟩
  · rintro i c a rest s e rfl hat ha he
    exact ⟨trivial, fun _ _ hb => hb⟩

theorem compareAndSwap
    (h : (groups db).system.Reach (fun w l => beginsVersioned db w l = true) ⟨s, []⟩ w) :
    CompareAndSwap (groups db) db.get carries w := by
  have hw : Machine.Holds (fun _ => True) (fun _ => Checked db) w :=
    h.invariant ⟨trivial, by simp [Machine.Pending]⟩ fun _ hw hok hs => checked_step hw hok hs
  intro i a rest version c hat hcarries hne
  split
  · next s next he =>
    cases a with
    | begin call =>
      cases hcarries
      obtain ⟨rfl, rfl, -⟩ := begin_ok he
      exact ⟨rfl, _, List.mem_singleton_self _, rfl⟩
    | commit call tx =>
      -- the transaction has read the version that is stored
      cases hcarries
      have hversion : call.version = (db.read tx).map (·.2) := hw.2 _ hat.pending
      rw [(commit_ok he).1] at hversion
      exact absurd hversion hne
  · next s e he => rw [exec_err he]
  · trivial

/-- A database that keeps all the values of the key, the newest one first.  A transaction
has those that were there when it began. -/
def history {α : Type} [DecidableEq α] : Database (List α) (List α) α where
  get s := s.head?
  begin s := s
  read tx := tx.head?
  commit s tx a := if s = tx then some (a :: s) else none
  read_begin _ := rfl
  commit_read s tx a s' h := by
    split at h <;> cases h
    subst_vars
    rfl

end Slate

/-! ## nvme -/

namespace Nvme

open Tansu.Nvme

def carries (group : Group) : Action → Option (Option Version)
  | .admin (.updateGroup group' _ version) => if group' = group then some version else none
  | _ => none

theorem compareAndSwap (cfg : Config) (group : Group) (w : EngineWorld) :
    CompareAndSwap (machine cfg) (·.groups[group]?) (carries group) w := by
  intro i a rest version c hat hcarries hne
  obtain ⟨detail, rfl⟩ : ∃ detail, a = .admin (.updateGroup group detail version) := by
    unfold carries at hcarries
    split at hcarries
    · next group' detail version' =>
      split at hcarries
      · next heq =>
        cases hcarries
        exact ⟨_, by rw [heq]⟩
      · cases hcarries
    · cases hcarries
  have hrun : ∃ e, Action.run cfg w.shared c (.admin (.updateGroup group detail version)) =
      .err w.shared e := by
    simp only [Action.run, Admin.exec, Admin.updateGroup]
    cases hg : w.shared.groups[group]? with
    | none =>
      cases version with
      | none => simp [hg] at hne
      | some version => exact ⟨_, rfl⟩
    | some entry =>
      cases version with
      | none => exact ⟨_, rfl⟩
      | some version =>
        have hneq : entry.2 ≠ version := fun heq => hne (by simp [hg, heq])
        exact ⟨_, if_neg hneq⟩
  obtain ⟨e, hrun⟩ := hrun
  simp only [machine, exec, hrun]
  split
  · next heq => split at heq <;> cases heq
  · next heq =>
    split at heq <;> cases heq
    rfl
  · trivial

end Nvme

/-! ## The engines together -/

/-- **Compare-and-swap.**  In every interleaving of updates of one group, `dynostore` on a
store with conditional puts, `slate` and `nvme` refuse a call that carries another version
than the stored group and leave the group alone; in `slate`, as long as no transaction
begins without a version while the group is there, or with the default version while it is
not.  The part about `nvme` is about the live map of groups.  The log record of an update is
written behind the lock under which the map was changed, so two updates can stand in the log
in the other order, and what a restart finds is not said here. -/
theorem update_group_compare_and_swap {D V B σ τ D' V' : Type} [DecidableEq V] [DecidableEq B]
    [Inhabited D'] [Inhabited V'] [DecidableEq V'] (codec : Tansu.Dynostore.Codec D B)
    (s : Tansu.Dynostore.Store V B) (db : Slate.Database σ τ (D' × V')) (s' : σ)
    (cfg : Tansu.Nvme.Config) (group : Tansu.Nvme.Group) :
    (∀ w, (Dynostore.groups codec false).system.Reach (fun _ _ => True) ⟨s, []⟩ w →
      CompareAndSwap (Dynostore.groups codec false) Dynostore.stored Dynostore.carries w) ∧
    (∀ w, (Slate.groups db).system.Reach (fun w l => Slate.beginsVersioned db w l = true)
        ⟨s', []⟩ w → CompareAndSwap (Slate.groups db) db.get Slate.carries w) ∧
    ∀ w, (Tansu.Nvme.machine cfg).system.Reach (fun _ _ => True) Tansu.Nvme.opened w →
      CompareAndSwap (Tansu.Nvme.machine cfg) (·.groups[group]?) (Nvme.carries group) w :=
  ⟨fun w _ => Dynostore.compareAndSwap codec w, fun _ h => Slate.compareAndSwap h,
    fun w _ => Nvme.compareAndSwap cfg group w⟩

namespace Run

/-- Groups and versions are numbers, and a group is stored as it is. -/
def codec : Tansu.Dynostore.Codec Nat Nat := .plain Nat

/-- A group that is stored with version 2. -/
def object : Tansu.Dynostore.Store Nat Nat := ⟨[⟨2, 20⟩]⟩

def db : Slate.Database (List (Nat × Nat)) (List (Nat × Nat)) (Nat × Nat) := Slate.history

def stale : UpdateGroup Nat Nat := ⟨10, some 1⟩

def fresh : UpdateGroup Nat Nat := ⟨30, some 2⟩

def bare : UpdateGroup Nat Nat := ⟨40, none⟩

def detail : Tansu.Nvme.GroupDetail := ⟨"members"⟩

end Run

open Run in
/-- Calls that come too late: one carries an old version from the start, one has lost the
race between its snapshot and its commit, and one carries no version. -/
theorem update_group_compare_and_swap_late :
    (∃ w, (Dynostore.groups codec false).system.Reach (fun _ _ => True) ⟨object, []⟩ w ∧
      Machine.At w 0 (.put stale) [] ∧
      CompareAndSwap (Dynostore.groups codec false) Dynostore.stored Dynostore.carries w) ∧
    (∃ w, (Slate.groups db).system.Reach (fun w l => Slate.beginsVersioned db w l = true)
        ⟨[(20, 2)], []⟩ w ∧
      Machine.At w 1 (.commit fresh [(20, 2)]) [] ∧ db.get w.shared = some (30, 3) ∧
      CompareAndSwap (Slate.groups db) db.get Slate.carries w) ∧
    ∃ w, (Tansu.Nvme.machine {}).system.Reach (fun _ _ => True) Tansu.Nvme.opened w ∧
      Machine.At w 1 (.admin (.updateGroup "g" detail none)) [] ∧ "g" ∈ w.shared.groups ∧
      CompareAndSwap (Tansu.Nvme.machine {}) (·.groups["g"]?) (Nvme.carries "g") w := by
  obtain ⟨hdynostore, hslate, hnvme⟩ :=
    update_group_compare_and_swap codec object db [(20, 2)] {} "g"
  refine ⟨?_, ?_, ?_⟩
  · have hreach : (Dynostore.groups codec false).system.Reach (fun _ _ => True) ⟨object, []⟩
        ⟨object, [[.put stale]]⟩ := .tail .refl trivial (l := .spawn stale) rfl
    exact ⟨_, hreach, rfl, hdynostore _ hreach⟩
  · have hreach : (Slate.groups db).system.Reach
        (fun w l => Slate.beginsVersioned db w l = true) ⟨[(20, 2)], []⟩
        ⟨[(30, 3), (20, 2)], [[], [.commit fresh [(20, 2)]]]⟩ :=
      reach_of_trace (show (Slate.groups db).system.trace _ _
        [.spawn fresh, .spawn fresh, .run 0 ⟨0, false⟩, .run 1 ⟨0, false⟩, .run 0 ⟨3, false⟩] = _
        from rfl)
    exact ⟨_, hreach, rfl, rfl, hslate _ hreach⟩
  · have hrun : ((Tansu.Nvme.machine {}).system.trace (fun _ _ => True) Tansu.Nvme.opened
        [.spawn (.updateGroup "g" detail none), .run 0 {}]).any (fun w =>
          decide ("g" ∈ w.shared.groups ∧ w.tasks.length = 1)) = true := by decide +kernel
    obtain ⟨w, hreach, hw⟩ := reach_of_any hrun
    obtain ⟨hgroup, hlength⟩ := of_decide_eq_true hw
    have hlate := hreach.tail trivial (l := .spawn (.updateGroup "g" detail none)) rfl
    refine ⟨_, hlate, ?_, hgroup, hnvme _ hlate⟩
    simp [Machine.At, hlength, Tansu.Nvme.machine, Tansu.Nvme.Request.start]

open Run in
/-- In `local` mode a call with an old version overwrites the group, and in `slate` one
without a version does. -/
theorem update_group_overwrites :
    (∃ w, (Dynostore.groups codec true).system.Reach (fun _ _ => True) ⟨object, []⟩ w ∧
      ¬ CompareAndSwap (Dynostore.groups codec true) Dynostore.stored Dynostore.carries w) ∧
    ∃ w, (Slate.groups db).system.Reach (fun _ _ => True) ⟨[(20, 2)], []⟩ w ∧
      ¬ CompareAndSwap (Slate.groups db) db.get Slate.carries w := by
  constructor
  · refine ⟨⟨object, [[.put stale]]⟩, .tail .refl trivial (l := .spawn stale) rfl, fun hcas => ?_⟩
    obtain ⟨-, b, hb, -⟩ := hcas 0 (.put stale) [] (some 1) ⟨3, false⟩ rfl rfl (by decide)
    cases hb
  · have hreach : (Slate.groups db).system.Reach (fun _ _ => True) ⟨[(20, 2)], []⟩
        ⟨[(20, 2)], [[.commit bare [(20, 2)]]]⟩ :=
      reach_of_trace (show (Slate.groups db).system.trace _ _
        [.spawn bare, .run 0 ⟨0, false⟩] = _ from rfl)
    refine ⟨_, hreach, fun hcas => ?_⟩
    obtain ⟨-, b, hb, -⟩ :=
      hcas 0 (.commit bare [(20, 2)]) [] none ⟨3, false⟩ rfl rfl (by decide)
    cases hb

end Tansu.Storage
