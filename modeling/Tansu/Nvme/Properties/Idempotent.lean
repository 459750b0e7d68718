import Tansu.Nvme.Logs
import Tansu.Nvme.Sequences
import Tansu.Nvme.Properties.Transactional

/-!
# Idempotent produces and their sequence numbers

The check of an idempotent produce moves the stored sequence before the batch is
appended, and nothing moves it back.  As long as nothing fails behind the check,
and producers number their batches one after another and do not resend a batch
whose append is still on its way, the stored sequence says which batches are in
the log.
-/

namespace Tansu.Nvme

open Std Tansu.Lib Machine List Option Produce Transactions System

namespace Idempotent

/-! ## The history of a run -/

inductive Event
  /-- The stored sequence of the call's slot moved. -/
  | bumped (task : Nat)
  | appended (x : Slot) (sequence : Int)
  | failed (task : Nat) (call : ProduceCall) (e : Error)
deriving DecidableEq

/-- What a section of a produce does, as far as its slot is concerned. -/
def events (cfg : Config) (s : Engine) (c : Choice) (i : Nat) (a : Action) (call : ProduceCall) :
    List Event :=
  let moved (s' : Engine) : List Event :=
    if sequence s'.coord (slot call) = sequence s.coord (slot call) then [] else [.bumped i]
  match exec cfg s c a with
  | .ok s' _ => moved s' ++ match a with
    | .produce (.append ..) => [.appended (slot call) call.batch.baseSequence]
    | _ => []
  | .err s' e => moved s' ++ [.failed i call e]
  | .blocked => []

def observe (cfg : Config) (history : List Event) (w : EngineWorld) (l : EngineLabel)
    (_ : EngineWorld) : List Event :=
  match l with
  | .run i c =>
    match w.tasks[i]? with
    | some (a :: _) => history ++ (a.call?.map (events cfg w.shared c i a)).getD []
    | _ => history
  | _ => history

def system (cfg : Config) : System (EngineWorld × List Event) EngineLabel :=
  (machine cfg).system.observe (observe cfg)

/-- A produce that fails, other than as a duplicate, has not moved its sequence;
and what is answered as a duplicate has been appended. -/
structure Atomic (history : List Event) : Prop where
  unchanged : ∀ i call e, .failed i call e ∈ history → e ≠ .api .duplicateSequenceNumber →
    .bumped i ∉ history
  appended : ∀ past later i call,
    history = past ++ .failed i call (.api .duplicateSequenceNumber) :: later →
    .appended (slot call) call.batch.baseSequence ∈ past

/-! ## What the sections do to the stored sequences -/

variable {cfg : Config} {c : Choice} {s s' : Engine} {a : Action} {next : List Action} {e : Error}
  {w w' : EngineWorld} {l : EngineLabel} {call : ProduceCall} {attributes : BatchAttribute}
  {x : Slot}

theorem check_sequence_ok (h : Produce.check s call attributes = .ok s' next) :
    next = [.produce (.append call attributes)] ∧
      ((call.batch.isIdempotent = false ∧ s' = s) ∨
        (call.batch.isIdempotent = true ∧
          call.batch.baseSequence = sequence s.coord (slot call) ∧
          ∀ x, sequence s'.coord x = if slot call = x then
            wrapI32 (sequence s.coord x + wrapI32 (call.batch.lastOffsetDelta + 1))
            else sequence s.coord x)) := by
  unfold Produce.check at h
  simp only at h
  cases hi : call.batch.isIdempotent with
  | false =>
    rw [sequenced_eq _ hi] at h
    simp only at h
    split at h <;> cases h
    exact ⟨rfl, .inl ⟨rfl, rfl⟩⟩
  | true =>
    rcases sequenced_cases s.coord hi with ⟨e, hv, -⟩ | ⟨hv, hbase, hseq⟩
    · rw [hv] at h
      cases h
    · rw [hv] at h
      simp only at h
      split at h <;> cases h
      exact ⟨rfl, .inr ⟨rfl, hbase, hseq⟩⟩

/-- The check of a batch that is not idempotent changes nothing. -/
theorem check_plain_ok (hidem : call.batch.isIdempotent = false)
    (h : Produce.check s call attributes = .ok s' next) : s' = s := by
  rcases (check_sequence_ok h).2 with ⟨-, heq⟩ | ⟨htrue, -⟩
  · exact heq
  · rw [hidem] at htrue
    cases htrue

/-- A check that fails has moved no sequence, unless the transaction is not open. -/
theorem check_sequence_err (h : Produce.check s call attributes = .err s' e)
    (hopen : call.batch.isIdempotent = true → Produce.notOpen s.coord call attributes = false) :
    (∀ x, sequence s'.coord x = sequence s.coord x) ∧
      (e = .api .duplicateSequenceNumber → call.batch.isIdempotent = true ∧
        call.batch.baseSequence < sequence s.coord (slot call)) := by
  obtain ⟨producers, hfst⟩ := sequenced_fst s.coord call
  unfold Produce.check at h
  simp only at h
  cases hi : call.batch.isIdempotent with
  | false =>
    rw [sequenced_eq _ hi] at h
    simp only at h
    split at h <;> cases h
    exact ⟨fun _ => rfl, by simp⟩
  | true =>
    rcases sequenced_cases s.coord hi with ⟨e', hv, hsame, hdup⟩ | ⟨hv, -, -⟩
    · rw [hv] at h
      cases h
      exact ⟨hsame, fun he => ⟨rfl, hdup he⟩⟩
    · rw [hv] at h
      have hnot : Produce.notOpen (Produce.sequenced s.coord call).1 call attributes = false := by
        rw [hfst]
        exact hopen hi
      simp only [hnot] at h
      cases h

theorem produce_sequence {step : ProduceStep}
    (hne : ∀ call attributes, step ≠ .check call attributes)
    (h : Action.run cfg s c (.produce step) = .ok s' next) (x : Slot) :
    sequence s'.coord x = sequence s.coord x := by
  cases step with
  | marker => cases h; rfl
  | guard => obtain ⟨rfl, -⟩ := guard_ok h; rfl
  | check call attributes => exact absurd rfl (hne call attributes)
  | append => obtain ⟨_, _, _, _, _, rfl, -⟩ := append_ok_partitions h; rfl
  | acked => obtain ⟨-, rfl, -⟩ := acked_ok h; rfl
  | record => obtain ⟨-, ⟨-, rfl⟩ | ⟨_, -, -, rfl⟩⟩ := record_ok h <;> rfl

/-- **Only the check counts on.**  Every other section leaves a stored sequence as
it is, or starts a new producer or epoch at 0. -/
theorem run_sequence (ha : a.transactional)
    (hne : ∀ call attributes, a ≠ .produce (.check call attributes))
    (h : a.run cfg s c = .ok s' next) (x : Slot) :
    sequence s'.coord x = sequence s.coord x ∨ sequence s'.coord x = 0 := by
  cases a with
  | produce step => exact .inl (produce_sequence (fun call attributes heq =>
      hne _ _ (by rw [heq])) h x)
  | txn step =>
    cases step with
    | initProducer t timeout pid e =>
      cases t with
      | none =>
        rcases initIdempotent_ok h with ⟨rfl, -⟩ | ⟨rfl, -⟩
        · exact .inl rfl
        · exact sequence_allocate
      | some t =>
        rcases initTransactional_ok h with ⟨rfl, -⟩ | ⟨-, rfl, -⟩ |
          ⟨_, _, -, -, ⟨-, rfl, -⟩ | ⟨-, rfl, -⟩⟩
        · exact .inl rfl
        · exact sequence_allocate
        · exact .inl rfl
        · exact sequence_bumpEpoch
    | addPartitions =>
      rcases addPartitions_ok h with ⟨rfl, -⟩ | ⟨_, -, rfl, -⟩ <;> exact .inl rfl
    | offsetCommit =>
      rcases offsetCommit_ok h with ⟨rfl, -⟩ | ⟨_, -, rfl, -⟩ <;> exact .inl rfl
    | prepare =>
      obtain ⟨_, -, ⟨-, rfl, -⟩ | ⟨-, rfl, -⟩⟩ := prepare_ok h <;> exact .inl rfl
    | resolve call =>
      obtain ⟨_, -, ⟨-, rfl, -⟩ | ⟨-, rfl, -⟩⟩ := resolve_ok h
      · exact .inl rfl
      · exact .inl (sequence_of_producers (s.coord.resolve_resolved call).producers x)
    | release | sweep => cases h; exact .inl rfl
  | wal step => obtain ⟨⟨_, _, rfl⟩, -⟩ := wal_ok h; exact .inl rfl
  | offsets step => cases step <;> cases h <;> exact .inl rfl
  | handler | answer => cases h; exact .inl rfl
  | admin | cleanup | snapshot | boot => cases ha

theorem run_err_coord (ha : a.transactional)
    (hne : ∀ call attributes, a ≠ .produce (.check call attributes))
    (h : a.run cfg s c = .err s' e) : s'.coord = s.coord := by
  cases run_fails h with
  | still | wal => rfl
  | check => exact absurd rfl (hne _ _)
  | append => exact (append_failed h).1
  | retain => cases ha

/-! ## The next segment -/

/-- No append finds a file with the name of its segment. -/
structure Free (s : Engine) : Prop where
  names : ∀ tp base file, s.file? tp base = some file → base < s.nextOffset tp
  dirs : s.HasDirs

section

variable (hf : Free s)
include hf

theorem Free.sameLogs (h : SameLogs s s') : Free s' := by
  refine ⟨fun tp base file hfile => ?_, fun tp hp => ?_⟩
  · rw [h.nextOffset]
    exact hf.names tp base file (by rw [← Engine.file?_of_dirs h.dirs, hfile])
  · rw [h.dirs]
    exact hf.dirs tp (by rw [← h.known, hp])

theorem Free.segment {w : SegmentWriter} {file : Option SegmentFile}
    (h : Produce.Segment s call w file) (hfile : file.isSome) :
    w.baseOffset ≤ s.nextOffset call.topition := by
  cases h with
  | found hw =>
    obtain ⟨file', hf'⟩ := isSome_iff_exists.1 hfile
    exact Int.le_of_lt (hf.names _ _ file' hf')
  | created => exact Int.le_of_eq target_nextOffset

theorem Free.append (h : Produce.append cfg s c call attributes = .ok s' next)
    (hd : 0 ≤ call.batch.lastOffsetDelta) : Free s' := by
  obtain ⟨happ, -⟩ := append_appended h
  obtain ⟨w, file, hseg, hfile, -⟩ := append_files h
  refine ⟨fun tp base file' hf' => ?_, hf.dirs.append h⟩
  rw [happ.nextOffset]
  rw [hfile] at hf'
  split at hf'
  · next hhere =>
    obtain ⟨rfl, rfl⟩ := hhere
    obtain ⟨old, rfl, -⟩ := map_eq_some_iff.1 hf'
    have hbase := hf.segment hseg rfl
    rw [if_pos rfl]
    omega
  · have hlt := hf.names tp base file' hf'
    split <;> omega

theorem Free.append_err (h : Produce.append cfg s c call attributes = .err s' e)
    (hd : 0 ≤ call.batch.lastOffsetDelta) : Free s' := by
  rcases append_err_files h with rfl | ⟨writer, hparts, hfiles⟩
  · exact hf
  have hnext (tp : Topition) : s'.nextOffset tp = if call.topition = tp then
      s.nextOffset tp + call.batch.lastOffsetDelta + 1 else s.nextOffset tp := by
    rw [Engine.nextOffset, hparts]
    split
    · next htp =>
      subst htp
      simp only [map_some, getD_some, Produce.endOffset, target_nextOffset]
    · rfl
  refine ⟨fun tp base file' hf' => ?_, hf.dirs.append_err h⟩
  rw [hnext]
  rcases hfiles with ⟨-, hfile⟩ | ⟨w, file, -, hseg, hfile⟩
  · rw [hfile] at hf'
    have hlt := hf.names tp base file' hf'
    split <;> omega
  · rw [hfile] at hf'
    split at hf'
    · next hhere =>
      obtain ⟨rfl, rfl⟩ := hhere
      obtain ⟨old, rfl, -⟩ := map_eq_some_iff.1 hf'
      have hbase := hf.segment hseg rfl
      rw [if_pos rfl]
      omega
    · have hlt := hf.names tp base file' hf'
      split <;> omega

theorem Free.run (ha : a.transactional) (hs : a.Sound) (h : a.run cfg s c = .ok s' next) :
    Free s' := by
  obtain ⟨call, attributes, rfl⟩ | hne := a.append_or
  · exact hf.append h (hs.sized call rfl)
  · exact hf.sameLogs (run_sameLogs ha hne h)

theorem Free.run_err (ha : a.transactional) (hs : a.Sound) (h : a.run cfg s c = .err s' e) :
    Free s' := by
  obtain ⟨call, attributes, rfl⟩ | hne := a.append_or
  · exact hf.append_err h (hs.sized call rfl)
  · exact hf.sameLogs (run_err_sameLogs ha hne h)

theorem Free.env {ev : Env} (h : Nvme.env s ev = some s') : Free s' := by
  have hparts : s'.partitions = s.partitions := (env_untouched h).2
  refine ⟨fun tp base file hfile => ?_, fun tp hp => ?_⟩
  · obtain ⟨old, hold, -⟩ := env_file? h hfile
    rw [nextOffset_of_eq hparts]
    exact hf.names tp base old hold
  · rw [hparts] at hp
    have hdir := hf.dirs tp hp
    cases ev with
    | syncWal =>
      cases h
      exact hdir
    | syncSegment tp' base upTo =>
      cases h
      rw [BTreeMap.getElem?_modify_eq]
      split
      · rw [isSome_map]
        exact hdir
      · exact hdir

theorem Free.append_ne_err (hfault : c.fault = none) :
    Produce.append cfg s c call attributes ≠ .err s' e := by
  intro h
  rcases append_err_cause h with hne | ⟨hp, hd⟩ | ⟨file, hfile⟩
  · exact hne hfault
  · have hsome := hf.dirs _ hp
    rw [hd] at hsome
    cases hsome
  · have hlt := hf.names _ _ file hfile
    rw [target_nextOffset] at hlt
    omega

end

/-! ## What a run has to keep -/

/-- The section belongs to the produce of an idempotent batch. -/
def idempotent (a : Action) : Bool := a.call?.any (·.batch.isIdempotent)

/-- The section is behind a check that has moved the sequence. -/
def checked : Action → Bool
  | .produce (.append call _) | .produce (.acked call _ _) | .produce (.record _ call _ _) =>
    call.batch.isIdempotent
  | _ => false

/-- The section appends the batch with this base sequence. -/
def appends (x : Slot) (k : Int) : Action → Bool
  | .produce (.append call _) =>
    call.batch.isIdempotent && decide (slot call = x ∧ call.batch.baseSequence = k)
  | _ => false

/-- The batch is past its check and not appended yet. -/
def inFlight (w : EngineWorld) (x : Slot) (k : Int) : Bool :=
  w.tasks.any (·.any (appends x k))

/-- For an idempotent batch: its transaction is open when it is checked and when it
is recorded, it is not checked while it is in flight, and nothing fails once it
is checked. -/
def smooth (w : EngineWorld) (c : Choice) : Action → Bool
  | .produce (.check call attributes) => !call.batch.isIdempotent ||
    (!Produce.notOpen w.shared.coord call attributes &&
      !inFlight w (slot call) call.batch.baseSequence)
  | .produce (.append call _) | .produce (.acked call _ _) =>
    !call.batch.isIdempotent || decide (c.fault = none)
  | .produce (.record t call attributes _) => !call.batch.isIdempotent || attributes.control ||
    (w.shared.coord.detail? t call.batch.producerEpoch).all (·.state = some .begin)
  | _ => true

/-- Produces and the requests around them, with numbered batches. -/
def Numbering.sends (n : Numbering) (r : Request) : Bool :=
  r.transactional && r.sized && match r with
    | .produce call => !call.batch.isIdempotent || n.numbers call
    | _ => true

def allowed (n : Numbering) (w : EngineWorld) : EngineLabel → Bool
  | .spawn r => n.sends r
  | .run i c =>
    match w.tasks[i]? with
    | some (a :: _) => smooth w c a
    | _ => true
  | .env _ => true

/-! ## Tasks -/

variable {n : Numbering} {history more : List Event} {i : Nat}
  {rest todo : List Action} {b : Action} {k : Int}

theorem idempotent_of_checked (h : checked a = true) : idempotent a = true := by
  cases a with
  | produce step => cases step <;> first | exact h | cases h
  | _ => cases h

theorem idempotent_of_appends (h : appends x k a = true) : idempotent a = true := by
  cases a with
  | produce step =>
    cases step with
    | append call attributes => exact (Bool.and_eq_true_iff.1 h).1
    | _ => cases h
  | _ => cases h

theorem exists_of_idempotent (h : idempotent a = true) :
    ∃ call, a.call? = some call ∧ call.batch.isIdempotent = true :=
  (Option.any_eq_true _ _).1 h

/-- What the produce of an idempotent batch goes on with is one section of it. -/
theorem run_idempotent (h : a.run cfg s c = .ok s' next) (hb : b ∈ next)
    (hi : idempotent b = true) : next = [b] ∧ b.call? = a.call? := by
  obtain ⟨call, hcall, hidem⟩ := exists_of_idempotent hi
  cases a with
  | produce step =>
    cases step with
    | marker t pid e committed tp =>
      cases h
      obtain rfl := mem_singleton.1 hb
      cases hcall
      simp [Batch.isIdempotent, markerBatch] at hidem
    | guard =>
      obtain ⟨-, _, -, rfl⟩ := guard_ok h
      obtain rfl := mem_singleton.1 hb
      exact ⟨rfl, rfl⟩
    | check =>
      obtain ⟨_, -, -, rfl⟩ := check_ok h
      obtain rfl := mem_singleton.1 hb
      exact ⟨rfl, rfl⟩
    | append =>
      obtain ⟨_, _, _, _, _, -, -, rfl⟩ := append_ok_partitions h
      obtain rfl := mem_singleton.1 hb
      exact ⟨rfl, rfl⟩
    | acked =>
      obtain ⟨-, -, rfl⟩ := acked_ok h
      split at hb
      · cases hb
      · obtain rfl := mem_singleton.1 hb
        exact ⟨rfl, rfl⟩
    | record =>
      obtain ⟨rfl, -⟩ := record_ok h
      cases hb
  | _ =>
    rw [run_call (by simp) h b hb] at hcall
    cases hcall

/-- The produce of an idempotent batch has its task to itself. -/
def Lane (todo : List Action) : Prop := ∀ a ∈ todo, idempotent a = true → todo = [a]

theorem Lane.behind (h : Lane (a :: rest)) (hb : b ∈ rest) : idempotent b = false := by
  by_contra hi
  have heq := h b (mem_cons_of_mem a hb) (by simpa using hi)
  cases heq
  cases hb

theorem Lane.alone (h : Lane (a :: rest)) (ha : idempotent a = true) : rest = [] := by
  have heq := h a mem_cons_self ha
  cases heq
  rfl

theorem Lane.run (hl : Lane (a :: rest)) (h : a.run cfg s c = .ok s' next) :
    Lane (next ++ rest) := by
  intro b hb hi
  rcases mem_append.1 hb with hb | hb
  · obtain ⟨rfl, hcall⟩ := run_idempotent h hb hi
    have ha : idempotent a = true := by rw [idempotent, ← hcall]; exact hi
    rw [hl.alone ha]
    rfl
  · rw [hl.behind hb] at hi
    cases hi

/-- A task that does not send an idempotent batch never will. -/
theorem Lane.run_false (hl : Lane (a :: rest)) (ha : idempotent a = false)
    (h : a.run cfg s c = .ok s' next) : ∀ b ∈ next ++ rest, idempotent b = false := by
  intro b hb
  rcases mem_append.1 hb with hb | hb
  · by_contra hi
    have hi' : idempotent b = true := by simpa using hi
    obtain ⟨-, hcall⟩ := run_idempotent h hb hi'
    rw [idempotent, hcall, ← idempotent, ha] at hi'
    cases hi'
  · exact hl.behind hb

theorem Lane.unwind (hl : Lane (a :: rest)) :
    ∀ b ∈ (machine cfg).unwind rest, idempotent b = false :=
  fun _ hb => hl.behind ((unwind_suffix rest).subset hb)

variable {t : List Action}

/-- A batch in flight stays in flight until its own append runs. -/
theorem inFlight_set (hat : At w i a rest) (hl : Lane (a :: rest)) (h : inFlight w x k = true) :
    appends x k a = true ∨ inFlight ⟨s', w.tasks.set i t⟩ x k = true := by
  obtain ⟨todo, hmem, hany⟩ := List.any_eq_true.1 h
  obtain ⟨b, hb, happ⟩ := List.any_eq_true.1 hany
  by_cases heq : todo = a :: rest
  · subst heq
    rcases mem_cons.1 hb with rfl | hb
    · exact .inl happ
    · have hi := idempotent_of_appends happ
      rw [hl.behind hb] at hi
      cases hi
  · exact .inr (List.any_eq_true.2 ⟨todo, mem_tasks_set_of_ne hat heq hmem, hany⟩)

theorem inFlight_of_mem (hat : At w i a rest) (hb : b ∈ t) (h : appends x k b = true) :
    inFlight ⟨s', w.tasks.set i t⟩ x k = true :=
  List.any_eq_true.2 ⟨t, mem_set hat.lt _, List.any_eq_true.2 ⟨b, hb, h⟩⟩

/-! ## The invariant -/

/-- A pending section of an allowed request. -/
structure Sent (n : Numbering) (a : Action) : Prop where
  transactional : a.transactional = true
  sound : a.Sound
  numbers : ∀ call, a.call? = some call → call.batch.isIdempotent = true → n.numbers call = true

/-- The stored sequence counts batches that are appended or in flight. -/
def Stored (n : Numbering) (p : EngineWorld × List Event) (x : Slot) : Prop :=
  n.Counts x (sequence p.1.shared.coord x) fun k =>
    .appended x k ∈ p.2 ∨ inFlight p.1 x k = true

structure Inv (n : Numbering) (p : EngineWorld × List Event) : Prop where
  free : Free p.1.shared
  sent : ∀ a, Pending p.1 a → Sent n a
  lanes : ∀ todo ∈ p.1.tasks, Lane todo
  stored : ∀ x, Stored n p x
  bumped : ∀ i, .bumped i ∈ p.2 → ∃ todo, p.1.tasks[i]? = some todo ∧
    ∀ a ∈ todo, checked a = true
  failed : ∀ i call e, .failed i call e ∈ p.2 → .bumped i ∉ p.2 ∧
    ∃ todo, p.1.tasks[i]? = some todo ∧ ∀ a ∈ todo, idempotent a = false
  duplicates : ∀ past later i call,
    p.2 = past ++ .failed i call (.api .duplicateSequenceNumber) :: later →
    .appended (slot call) call.batch.baseSequence ∈ past

theorem Sent.run (ha : Sent n a) (h : a.run cfg s c = .ok s' next) : ∀ b ∈ next, Sent n b := by
  intro b hb
  refine ⟨run_transactional ha.transactional h b hb, run_sound ha.sound h b hb, ?_⟩
  intro call hcall hi
  have hb' : idempotent b = true := by rw [idempotent, hcall]; exact hi
  exact ha.numbers call ((run_idempotent h hb hb').2 ▸ hcall) hi

theorem Stored.keep (h : Stored n (w, history) x)
    (hseq : sequence w'.shared.coord x = sequence w.shared.coord x ∨
      sequence w'.shared.coord x = 0)
    (hflight : ∀ k, inFlight w x k = true → .appended x k ∈ more ∨ inFlight w' x k = true) :
    Stored n (w', history ++ more) x := by
  refine Numbering.Counts.keep h hseq fun k hk => ?_
  rcases hk with happ | hfl
  · exact .inl (mem_append_left _ happ)
  · exact (hflight k hfl).imp_left (mem_append_right _)

/-- What has to hold when task `i` has run: the rest concerns that task only. -/
theorem Inv.ran (hi : Inv n (w, history)) (hat : At w i a rest) (hfree : Free s')
    (hsent : ∀ b ∈ t, Sent n b) (hlane : Lane t)
    (hstored : ∀ x, Stored n (⟨s', w.tasks.set i t⟩, history ++ more) x)
    (hown : ∀ j, .bumped j ∈ more → j = i) (hownf : ∀ j call e, .failed j call e ∈ more → j = i)
    (hbumped : .bumped i ∈ history ++ more → ∀ b ∈ t, checked b = true)
    (hfailed : ∀ call e, .failed i call e ∈ history ++ more →
      .bumped i ∉ history ++ more ∧ ∀ b ∈ t, idempotent b = false) (hdup : ∀ past later call,
      more = past ++ .failed i call (.api .duplicateSequenceNumber) :: later →
      .appended (slot call) call.batch.baseSequence ∈ history) :
    Inv n (⟨s', w.tasks.set i t⟩, history ++ more) := by
  refine ⟨hfree, fun b hb => ?_, fun todo hmem => ?_, hstored, fun j hj => ?_,
    fun j call e hj => ?_, fun past later j call hsplit => ?_⟩
  · obtain ⟨todo, hmem, hb⟩ := hb
    rcases mem_set_tasks hmem with rfl | hmem
    · exact hsent b hb
    · exact hi.sent b ⟨todo, hmem, hb⟩
  · rcases mem_set_tasks hmem with rfl | hmem
    · exact hlane
    · exact hi.lanes todo hmem
  · exact hat.exists_set (fun hji => hi.bumped j ((mem_append.1 hj).resolve_right fun hnew =>
      hji (hown j hnew))) fun heq => hbumped (heq ▸ hj)
  · have hold (hji : j ≠ i) := hi.failed j call e ((mem_append.1 hj).resolve_right fun hnew =>
      hji (hownf j call e hnew))
    refine ⟨fun hb => ?_, hat.exists_set (fun hji => (hold hji).2) fun heq =>
      (hfailed call e (heq ▸ hj)).2⟩
    by_cases hji : j = i
    · exact (hfailed call e (hji ▸ hj)).1 (hji ▸ hb)
    · exact (mem_append.1 hb).elim (hold hji).1 fun hnew => hji (hown j hnew)
  · rcases split_append hsplit with ⟨later', hold, -⟩ | ⟨past', hnew, rfl⟩
    · exact hi.duplicates past later' j call hold
    · obtain rfl := hownf j call (.api .duplicateSequenceNumber) (by rw [hnew]; simp)
      exact mem_append_left _ (hdup past' later call hnew)

/-! ## Every step -/

theorem run_checked (ha : checked a = true) (h : a.run cfg s c = .ok s' next) :
    ∀ b ∈ next, checked b = true := by
  intro b hb
  cases a with
  | produce step =>
    cases step with
    | append =>
      obtain ⟨_, _, _, _, _, -, -, rfl⟩ := append_ok_partitions h
      rw [mem_singleton.1 hb]
      exact ha
    | acked =>
      obtain ⟨-, -, rfl⟩ := acked_ok h
      split at hb
      · cases hb
      · rw [mem_singleton.1 hb]
        exact ha
    | record =>
      obtain ⟨rfl, -⟩ := record_ok h
      cases hb
    | _ => cases ha
  | _ => cases ha

/-- **Nothing fails behind the check.** -/
theorem checked_ne_err (hf : Free w.shared) (ha : checked a = true) (hs : smooth w c a = true) :
    a.run cfg w.shared c ≠ .err s' e := by
  intro h
  cases a with
  | produce step =>
    cases step with
    | append call attributes =>
      have hidem : call.batch.isIdempotent = true := ha
      have hfault : c.fault = none := by simpa [smooth, hidem] using hs
      exact hf.append_ne_err hfault h
    | acked call attributes ack =>
      have hidem : call.batch.isIdempotent = true := ha
      have hfault : c.fault = none := by simpa [smooth, hidem] using hs
      have hfsync := (acked_err h).2
      rw [hfault] at hfsync
      cases hfsync
    | record t call attributes ack =>
      have hidem : call.batch.isIdempotent = true := ha
      obtain ⟨-, hcontrol, d, hd, hstate⟩ := record_err h
      exact hstate (by simpa [smooth, hidem, hcontrol, hd] using hs)
    | _ => cases ha
  | _ => cases ha

theorem err_duplicate (hcall : a.call? = some call)
    (h : a.run cfg s c = .err s' (.api .duplicateSequenceNumber)) :
    ∃ attributes, a = .produce (.check call attributes) := by
  cases a with
  | produce step =>
    cases step with
    | marker => cases h
    | guard call' =>
      exfalso
      simp only [Action.run, Produce.exec, Produce.guard] at h
      split at h
      · next e he =>
        cases h
        exact tryFrom_ne_duplicate he
      · split at h <;> cases h
    | check call' attributes =>
      cases hcall
      exact ⟨attributes, rfl⟩
    | append call' attributes =>
      exfalso
      simp only [Action.run, Produce.exec, Produce.append] at h
      split at h
      · cases h
      · split at h
        · cases h
        · simp only [Produce.appendTo] at h
          split at h
          · cases h
          · split at h <;> cases h
    | acked call' attributes ack =>
      exfalso
      simp only [Action.run, Produce.exec, Produce.acked] at h
      split at h
      · cases h
      · split at h <;> cases h
    | record t call' attributes ack =>
      exfalso
      simp only [Action.run, Produce.exec, Produce.record, CoordState.recordTxnProduce] at h
      split at h
      · next e he =>
        cases h
        split at he
        · cases he
        · split at he <;> cases he
      · cases h
  | _ => cases hcall

theorem Inv.ran_ok (hi : Inv n (w, history)) (hat : At w i a rest)
    (hne : ∀ call attributes, a ≠ .produce (.check call attributes) ∨
      call.batch.isIdempotent = false)
    (h : a.run cfg w.shared c = .ok s' next)
    (hmore : ∀ ev ∈ more, ∃ x k, ev = .appended x k)
    (happ : ∀ x k, appends x k a = true → .appended x k ∈ more) :
    Inv n (⟨s', w.tasks.set i (next ++ rest)⟩, history ++ more) := by
  have ha := hi.sent a hat.pending
  have hlane := hi.lanes _ hat.mem
  have hseq (x : Slot) : sequence s'.coord x = sequence w.shared.coord x ∨
      sequence s'.coord x = 0 := by
    by_cases hcheck : ∃ call attributes, a = .produce (.check call attributes)
    · obtain ⟨call, attributes, rfl⟩ := hcheck
      rw [check_plain_ok ((hne call attributes).resolve_left (by simp)) h]
      exact .inl rfl
    · exact run_sequence ha.transactional (fun call attributes heq => hcheck ⟨_, _, heq⟩) h x
  have hnot {j : Nat} : .bumped j ∉ more := fun hmem => by
    obtain ⟨_, _, heq⟩ := hmore _ hmem
    cases heq
  have hnotf (j : Nat) (call : ProduceCall) (e : Error) : .failed j call e ∉ more := fun hmem => by
    obtain ⟨_, _, heq⟩ := hmore _ hmem
    cases heq
  refine hi.ran hat (hi.free.run ha.transactional ha.sound h) (fun b hb => ?_) (hlane.run h)
    (fun x => ?_) (fun j hj => absurd hj hnot) (fun j call e hj => absurd hj (hnotf j call e))
    (fun hj => ?_) (fun call e hj => ?_) fun past later call heq => ?_
  · rcases mem_append.1 hb with hb | hb
    · exact ha.run h b hb
    · exact hi.sent b ⟨_, hat.mem, mem_cons_of_mem a hb⟩
  · exact (hi.stored x).keep (hseq x) fun k hfl => (inFlight_set hat hlane hfl).imp_left (happ x k)
  · obtain ⟨todo, htodo, hall⟩ := hi.bumped i ((mem_append.1 hj).resolve_right hnot)
    obtain rfl := hat.todo htodo
    have hchecked := hall a mem_cons_self
    rw [hlane.alone (idempotent_of_checked hchecked), append_nil]
    exact run_checked hchecked h
  · obtain ⟨hb, todo, htodo, hall⟩ :=
      hi.failed i call e ((mem_append.1 hj).resolve_right (hnotf i call e))
    obtain rfl := hat.todo htodo
    refine ⟨fun hmem => ?_, hlane.run_false (hall a mem_cons_self) h⟩
    exact (mem_append.1 hmem).elim hb hnot
  · exact absurd (by rw [heq]; simp) (hnotf i call (.api .duplicateSequenceNumber))

/-- **The check of an idempotent batch** counts on, and puts the batch in flight. -/
theorem Inv.ran_check (hi : Inv n (w, history))
    (hat : At w i (.produce (.check call attributes)) rest)
    (hidem : call.batch.isIdempotent = true)
    (h : Action.run cfg w.shared c (.produce (.check call attributes)) = .ok s' next) :
    sequence s'.coord (slot call) ≠ sequence w.shared.coord (slot call) ∧
      Inv n (⟨s', w.tasks.set i (next ++ rest)⟩, history ++ [.bumped i]) := by
  have ha := hi.sent _ hat.pending
  have hlane := hi.lanes _ hat.mem
  have hrest : rest = [] := hlane.alone hidem
  subst hrest
  obtain ⟨rfl, ⟨hfalse, -⟩ | ⟨-, hbase, hseq⟩⟩ := check_sequence_ok h
  · rw [hidem] at hfalse
    cases hfalse
  -- The batch is the next one of its slot.
  obtain ⟨hmoved, hcounts⟩ := Numbering.Counts.next (hi.stored (slot call))
    (ha.numbers call rfl hidem) hbase
  have hnew := (hseq (slot call)).trans (if_pos rfl)
  have hkeep {x : Slot} {k : Int} (hfl : inFlight w x k = true) :
      inFlight ⟨s', w.tasks.set i ([.produce (.append call attributes)] ++ [])⟩ x k = true :=
    (inFlight_set hat hlane hfl).resolve_left (by simp [appends])
  refine ⟨hnew ▸ hmoved, ?_⟩
  refine hi.ran hat (hi.free.run ha.transactional ha.sound h)
    (fun b hb => ?_) (hlane.run h) (fun x => ?_)
    (fun j hj => ?_) (fun j call' e hj => ?_) (fun _ b hb => ?_) (fun call' e hj => ?_)
    fun past later call' heq => ?_
  · exact ha.run h b (by simpa using hb)
  · by_cases hx : slot call = x
    · subst hx
      rw [Stored, hnew]
      refine hcounts _ (fun k hk => hk.imp (mem_append_left _) hkeep)
        (.inr (inFlight_of_mem hat mem_cons_self ?_))
      simp [appends, hidem]
    · exact (hi.stored x).keep (.inl ((hseq x).trans (if_neg hx))) fun k hfl => .inr (hkeep hfl)
  · exact Event.bumped.inj (mem_singleton.1 hj)
  · cases mem_singleton.1 hj
  · rw [mem_singleton.1 hb]
    exact hidem
  · exfalso
    rcases mem_append.1 hj with hj | hj
    · obtain ⟨-, todo, htodo, hall⟩ := hi.failed i call' e hj
      obtain rfl := hat.todo htodo
      have hfalse : call.batch.isIdempotent = false := hall _ mem_cons_self
      rw [hidem] at hfalse
      cases hfalse
    · cases mem_singleton.1 hj
  · have hmem : Event.failed i call' (.api .duplicateSequenceNumber) ∈ [Event.bumped i] := by
      rw [heq]
      simp
    cases mem_singleton.1 hmem

/-- A section that fails has moved no sequence and loses no batch. -/
theorem Inv.ran_err (hi : Inv n (w, history)) (hat : At w i a rest) (hs : smooth w c a = true)
    (h : a.run cfg w.shared c = .err s' e)
    (hmore : ∀ ev ∈ more, ∃ call, a.call? = some call ∧ ev = .failed i call e) :
    (∀ x, sequence s'.coord x = sequence w.shared.coord x) ∧
      Inv n (⟨s', w.tasks.set i ((machine cfg).unwind rest)⟩, history ++ more) := by
  have ha := hi.sent a hat.pending
  have hlane := hi.lanes _ hat.mem
  have hunchecked : checked a = false := by
    by_contra hc
    exact checked_ne_err hi.free (by simpa using hc) hs h
  have hsmooth (call : ProduceCall) (attributes : BatchAttribute)
      (heq : a = .produce (.check call attributes)) (hidem : call.batch.isIdempotent = true) :
      Produce.notOpen w.shared.coord call attributes = false ∧
        inFlight w (slot call) call.batch.baseSequence = false := by
    simpa [heq, smooth, hidem] using hs
  -- What the check makes of a duplicate, and that it leaves the sequences alone.
  have hcheck (call : ProduceCall) (attributes : BatchAttribute)
      (heq : a = .produce (.check call attributes)) :
      (∀ x, sequence s'.coord x = sequence w.shared.coord x) ∧
        (e = .api .duplicateSequenceNumber → call.batch.isIdempotent = true ∧
          call.batch.baseSequence < sequence w.shared.coord (slot call)) := by
    subst heq
    exact check_sequence_err h fun hidem => (hsmooth call attributes rfl hidem).1
  have hseq (x : Slot) : sequence s'.coord x = sequence w.shared.coord x := by
    by_cases hc : ∃ call attributes, a = .produce (.check call attributes)
    · obtain ⟨call, attributes, heq⟩ := hc
      exact (hcheck call attributes heq).1 x
    · rw [run_err_coord ha.transactional (fun call attributes heq => hc ⟨_, _, heq⟩) h]
  have hnot {j : Nat} : .bumped j ∉ more := fun hmem => by
    obtain ⟨_, -, heq⟩ := hmore _ hmem
    cases heq
  have hunbumped : .bumped i ∉ history ++ more := fun hmem => by
    obtain ⟨todo, htodo, hall⟩ := hi.bumped i ((mem_append.1 hmem).resolve_right hnot)
    obtain rfl := hat.todo htodo
    have htrue := hall a mem_cons_self
    rw [hunchecked] at htrue
    cases htrue
  refine ⟨hseq, hi.ran hat (hi.free.run_err ha.transactional ha.sound h) (fun b hb => ?_)
    (fun b hb hidem => ?_) (fun x => ?_) (fun j hj => absurd hj hnot) (fun j call e' hj => ?_)
    (fun hj => absurd hj hunbumped) (fun call e' _ => ⟨hunbumped, hlane.unwind⟩)
    fun past later call heq => ?_⟩
  · exact hi.sent b ⟨_, hat.mem, mem_cons_of_mem a ((unwind_suffix rest).subset hb)⟩
  · rw [hlane.unwind b hb] at hidem
    cases hidem
  · refine (hi.stored x).keep (.inl (hseq x)) fun k hfl => ?_
    refine .inr ((inFlight_set hat hlane hfl).resolve_left fun happ => ?_)
    cases a with
    | produce step =>
      cases step with
      | append call attributes =>
        have htrue : checked (.produce (.append call attributes)) = true :=
          idempotent_of_appends happ
        rw [hunchecked] at htrue
        cases htrue
      | _ => cases happ
    | _ => cases happ
  · obtain ⟨_, -, heq⟩ := hmore _ hj
    cases heq
    rfl
  · have hmem : .failed i call (.api .duplicateSequenceNumber) ∈ more := by
      rw [heq]
      simp
    obtain ⟨call', hcall, hev⟩ := hmore _ hmem
    cases hev
    obtain ⟨attributes, rfl⟩ := err_duplicate hcall h
    obtain ⟨hidem, hlt⟩ := (hcheck call attributes rfl).2 rfl
    refine (Numbering.Counts.sent_of_lt (hi.stored (slot call)) (ha.numbers call rfl hidem)
      hlt).resolve_right fun hfl => ?_
    rw [(hsmooth call attributes rfl hidem).2] at hfl
    cases hfl

/-- What a section that is not a check moves, it moves for no produce. -/
theorem call_sequence (hcall : a.call? = some call)
    (hne : ∀ attributes, a ≠ .produce (.check call attributes) ∨ call.batch.isIdempotent = false)
    (h : a.run cfg s c = .ok s' next) (x : Slot) : sequence s'.coord x = sequence s.coord x := by
  cases a with
  | produce step =>
    cases step with
    | check call' attributes =>
      cases hcall
      rw [check_plain_ok ((hne attributes).resolve_left (by simp)) h]
    | _ => exact produce_sequence (by simp) h x
  | _ => cases hcall

theorem Inv.run (hi : Inv n (w, history)) (hok : allowed n w (.run i c) = true)
    (h : (machine cfg).step w (.run i c) = some w') :
    Inv n (w', observe cfg history w (.run i c) w') := by
  obtain ⟨a, rest, hat, hcase⟩ := step_run h
  have htask : w.tasks[i]? = some (a :: rest) := hat
  have hs : smooth w c a = true := by simpa only [allowed, htask] using hok
  simp only [observe, htask]
  rcases hcase with @⟨s', next, he⟩ | @⟨s', e, he⟩
  · have hrun := exec_ok he
    have hexec : exec cfg w.shared c a = .ok s' next := he
    by_cases hcheck : ∃ call attributes, a = .produce (.check call attributes) ∧
        call.batch.isIdempotent = true
    · obtain ⟨call, attributes, rfl, hidem⟩ := hcheck
      obtain ⟨hmoved, hi'⟩ := hi.ran_check hat hidem hrun
      simpa [Action.call?, events, hexec, hmoved] using hi'
    · have hne (call : ProduceCall) (attributes : BatchAttribute) :
          a ≠ .produce (.check call attributes) ∨ call.batch.isIdempotent = false := by
        by_contra hboth
        rw [not_or, not_not, Bool.not_eq_false] at hboth
        exact hcheck ⟨call, attributes, hboth⟩
      refine hi.ran_ok hat hne hrun (fun ev hev => ?_) fun x k happ => ?_
      · cases hcall : a.call? with
        | none => simp [hcall] at hev
        | some call =>
          have hsame := call_sequence hcall (hne call) hrun (slot call)
          simp only [hcall, map_some, getD_some, events, hexec, hsame, if_true,
            nil_append] at hev
          split at hev
          · exact ⟨_, _, mem_singleton.1 hev⟩
          · cases hev
      · cases a with
        | produce step =>
          cases step with
          | append call attributes =>
            obtain ⟨-, hslot⟩ := Bool.and_eq_true_iff.1 happ
            obtain ⟨rfl, rfl⟩ := of_decide_eq_true hslot
            simp [Action.call?, events, hexec]
          | _ => cases happ
        | _ => cases happ
  · have hrun := exec_err he
    have hexec : exec cfg w.shared c a = .err s' e := he
    have hsame := (hi.ran_err hat hs hrun (forall_mem_nil _)).1
    refine (hi.ran_err hat hs hrun fun ev hev => ?_).2
    cases hcall : a.call? with
    | none => simp [hcall] at hev
    | some call =>
      simp only [hcall, map_some, getD_some, events, hexec, hsame, if_true,
        nil_append] at hev
      exact ⟨call, rfl, mem_singleton.1 hev⟩

theorem Numbering.start_sent {r : Request} (h : n.sends r = true) : ∀ a ∈ r.start, Sent n a := by
  obtain ⟨hboth, hnum⟩ := Bool.and_eq_true_iff.1 h
  obtain ⟨htxn, hsized⟩ := Bool.and_eq_true_iff.1 hboth
  intro a ha
  refine ⟨Request.start_transactional htxn a ha, Request.start_sound hsized a ha, ?_⟩
  intro call hcall hidem
  cases r with
  | produce call' =>
    obtain rfl := mem_singleton.1 ha
    cases hcall
    simpa [hidem] using hnum
  | _ =>
    rw [Request.start_call (by simp) a ha] at hcall
    cases hcall

theorem start_lane (r : Request) : Lane r.start := by
  cases r with
  | produce call =>
    intro a ha _
    rw [mem_singleton.1 ha]
    rfl
  | _ =>
    intro a ha hi
    rw [idempotent, Request.start_call (by simp) a ha] at hi
    cases hi

theorem Inv.step (hi : Inv n (w, history)) (hok : allowed n w l = true)
    (hs : (machine cfg).step w l = some w') : Inv n (w', observe cfg history w l w') := by
  cases l with
  | run i c => exact hi.run hok hs
  | env ev =>
    obtain ⟨s, he, rfl⟩ := step_env hs
    have hcoord : s.coord = w.shared.coord := (env_untouched he).1
    refine ⟨hi.free.env he, hi.sent, hi.lanes, fun x => ?_, hi.bumped, hi.failed, hi.duplicates⟩
    exact Numbering.Counts.keep (hi.stored x) (.inl (congrArg (sequence · x) hcoord)) fun _ => id
  | spawn r =>
    cases hs
    refine ⟨hi.free, fun a ha => ?_, fun todo hmem => ?_, fun x => ?_,
      fun j hj => exists_spawn (hi.bumped j hj),
      fun j call e hj => ⟨(hi.failed j call e hj).1, exists_spawn (hi.failed j call e hj).2⟩,
      hi.duplicates⟩
    · rcases pending_spawn ha with ha | ha
      · exact hi.sent a ha
      · exact Numbering.start_sent hok a ha
    · rcases mem_append.1 hmem with hmem | hmem
      · exact hi.lanes todo hmem
      · rw [mem_singleton.1 hmem]
        exact start_lane r
    · refine Numbering.Counts.keep (hi.stored x) (.inl rfl) fun k hk => hk.imp_right fun hfl => ?_
      obtain ⟨todo, htodo, hany⟩ := List.any_eq_true.1 hfl
      exact List.any_eq_true.2 ⟨todo, mem_append_left _ htodo, hany⟩

theorem inv_opened : Inv n (opened, []) := by
  refine ⟨⟨fun tp base file hfile => ?_, fun tp hp => ?_⟩, fun a ha => ?_, fun todo hmem => ?_,
    fun x => ?_, fun i hmem => ?_, fun i call e hmem => ?_, fun past later i call h => ?_⟩
  · simp [opened, Engine.opened, Engine.file?] at hfile
  · simp [opened, Engine.opened] at hp
  · obtain ⟨todo, hmem, -⟩ := ha
    cases hmem
  · cases hmem
  · have hzero : sequence (opened : EngineWorld).shared.coord x = 0 := by
      simp [sequence, opened, Engine.opened]
    rw [Stored, hzero]
    exact .zero
  · cases hmem
  · cases hmem
  · simp at h

/-- **An idempotent produce is atomic with its sequence** if producers number their
batches, a batch is not sent again while its append is on its way, and nothing
fails between the check of a batch and its answer.  A stored sequence counts the batches that
were appended or whose append is on its way (`Stored`). -/
theorem produce_atomic {p : EngineWorld × List Event}
    (h : (system cfg).Reach (fun p l => allowed n p.1 l = true) (opened, []) p) : Atomic p.2 := by
  have hi : Inv n p := h.invariant_observe inv_opened fun hi hok hs => hi.step hok hs
  exact ⟨fun i call e hmem _ => (hi.failed i call e hmem).1, hi.duplicates⟩

/-- The first batch of the first producer. -/
def first : ProduceCall := ⟨none, ⟨"p", 0⟩, ⟨0, 0, 0, 1, 0, 0, .client 10⟩⟩

/-- A producer sends its first batch, and sends it again when the first attempt is
over, whatever has become of it. -/
def sentTwice (c : Choice) : List EngineLabel :=
  [.spawn (.initProducer none 0 (some (-1)) (some (-1))), .run 0 {},
    .spawn (.produce first), .run 1 {}, .run 1 {}, .run 1 c,
    .spawn (.produce first), .run 2 {}, .run 2 {}]

theorem produce_atomic_sentTwice : ∃ p,
    (system {}).Reach (fun p l => allowed .pairs p.1 l = true) (opened, []) p ∧
      p.2 = [.bumped 1, .appended (slot first) 0,
        .failed 2 first (.api .duplicateSequenceNumber)] ∧ Atomic p.2 := by
  exact (exists_reach (sentTwice {}) (by decide +kernel)).imp
    fun p h => ⟨h.1, h.2, produce_atomic h.1⟩

/-! ### A produce that fails behind its check -/

/-- Batches are numbered; whatever fails, fails. -/
def numbered (n : Numbering) : EngineLabel → Bool
  | .spawn r => n.sends r
  | _ => true

/-- The segment cannot be created: the batch is not appended, its sequence stays
moved, and the second attempt is answered as a duplicate. -/
theorem failed_append_moves_sequence : ∃ p,
    (system {}).Reach (fun _ l => numbered .pairs l = true) (opened, []) p ∧
      p.2 = [.bumped 1, .failed 1 first (.message "nvme segment create"),
        .failed 2 first (.api .duplicateSequenceNumber)] ∧
      ¬ (∀ i call e, .failed i call e ∈ p.2 → e ≠ .api .duplicateSequenceNumber →
        .bumped i ∉ p.2) ∧ ¬ Atomic p.2 := by
  refine (exists_reach (sentTwice { fault := some .create }) (by decide +kernel)).imp
    fun p h => ⟨h.1, h.2, fun hunchanged => ?_, fun hatomic => ?_⟩
  · exact hunchanged 1 first (.message "nvme segment create") (by simp [h.2]) (by simp)
      (by simp [h.2])
  · have hmem := hatomic.appended [.bumped 1, .failed 1 first (.message "nvme segment create")] []
      2 first h.2
    simp at hmem

end Idempotent

end Tansu.Nvme
