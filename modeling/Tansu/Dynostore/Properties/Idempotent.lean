import Tansu.Dynostore.Placement
import Tansu.Nvme.Sequences

/-!
# Idempotent produces and their sequence numbers

The sequence of an idempotent batch is moved in the metadata before the batch has an
offset, and no later step moves it back.  As long as nothing fails behind the check, and
producers number their batches one after another and do not resend a batch that is
still on its way, the stored sequence says which batches are stored.
-/

namespace Tansu.Dynostore.Engine

open Std Tansu.Lib Machine List System
open Tansu.Nvme (Topition Batch BatchAttribute CoordState TxnEnd Error ProduceCall wrapI32)
open Tansu.Nvme.Idempotent (Slot slot sequence Numbering sequenced_cases sequence_of_producers
  sequence_allocate sequence_bumpEpoch tryFrom_ne_duplicate)

namespace Idempotent

/-! ## The history of a run -/

inductive Event
  /-- The stored sequence of the call's slot moved. -/
  | bumped (task : Nat)
  | failed (task : Nat) (call : ProduceCall) (e : Error)
deriving DecidableEq

/-- What a section of a produce does, as far as its slot is concerned. -/
def events (cfg : Config) (s : Objects) (c : Choice) (i : Nat) (a : Section) (call : ProduceCall) :
    List Event :=
  let moved (s' : Objects) : List Event :=
    if sequence s'.metadata.coord (slot call) = sequence s.metadata.coord (slot call) then []
    else [.bumped i]
  match exec cfg s c a with
  | .ok s' _ => moved s'
  | .err s' e => moved s' ++ [.failed i call e]
  | .blocked => []

def observe (cfg : Config) (history : List Event) (w : EngineWorld) (l : EngineLabel)
    (_ : EngineWorld) : List Event :=
  match l with
  | .run i c =>
    match w.tasks[i]? with
    | some (a :: _) => history ++ (a.call?.map (events cfg w.shared c i a)).getD []
    | _ => history
  | _ => history

def system (cfg : Config) : System (EngineWorld × List Event) EngineLabel :=
  (machine cfg).system.observe (observe cfg)

/-- A batch with this base sequence is stored. -/
def HasBatch (s : Objects) (x : Slot) (k : Int) : Prop :=
  ∃ (offset : Int) (batch : Batch), (s.log x.topition)[offset]? = some batch ∧
    batch.producerId = x.producerId ∧ batch.producerEpoch = x.producerEpoch ∧ batch.baseSequence = k

/-- A produce that fails, other than as a duplicate, has not moved its sequence; and what
is answered as a duplicate is stored. -/
structure Atomic (p : EngineWorld × List Event) : Prop where
  unchanged : ∀ i call e, .failed i call e ∈ p.2 → e ≠ .api .duplicateSequenceNumber →
    .bumped i ∉ p.2
  stored : ∀ i call, .failed i call (.api .duplicateSequenceNumber) ∈ p.2 →
    HasBatch p.1.shared (slot call) call.batch.baseSequence

/-! ## Conditions on a run -/

def isCheck : Section → Bool
  | .produce (.sequence _) => true
  | _ => false

theorem eq_of_isCheck {a : Section} (h : isCheck a = true) :
    ∃ call, a = .produce (.sequence call) := by
  cases a with
  | produce step =>
    cases step with
    | sequence call => exact ⟨call, rfl⟩
    | _ => cases h
  | _ => cases h

/-- The idempotent batch that the section places or stores. -/
def carried? : Section → Option ProduceCall
  | .produce (.watermark call) | .produce (.put call _) =>
    if call.batch.isIdempotent then some call else none
  | _ => none

/-- The idempotent batch of a task that is past its check and not stored yet. -/
def flying? (todo : List Section) : Option ProduceCall :=
  if todo.any isCheck then none else todo.findSome? carried?

def flies (x : Slot) (k : Int) (todo : List Section) : Bool :=
  (flying? todo).any fun call => decide (slot call = x ∧ call.batch.baseSequence = k)

def inFlight (w : EngineWorld) (x : Slot) (k : Int) : Bool := w.tasks.any (flies x k)

/-- An idempotent batch is not checked while it is in flight, and nothing fails once it is
checked. -/
def smooth (w : EngineWorld) (c : Choice) (todo : List Section) : Bool :=
  match todo with
  | .produce (.sequence call) :: _ => !inFlight w (slot call) call.batch.baseSequence
  | todo => (flying? todo).isNone || !c.fault

/-- Batches have records; those of idempotent producers are numbered, and their attributes
can be parsed. -/
def sends (n : Numbering) : Request → Bool
  | .produce call => decide (0 ≤ call.batch.lastOffsetDelta) &&
    (!call.batch.isIdempotent ||
      (n.numbers call && (BatchAttribute.tryFrom call.batch.attributes).isOk))
  | _ => true

def allowed (n : Numbering) (w : EngineWorld) : EngineLabel → Bool
  | .spawn r => sends n r
  | .run i c => smooth w c (w.tasks[i]?.getD [])
  | .env _ => true

/-! ## What the sections do to the stored sequences -/

variable {cfg : Config} {c : Choice} {s s' : Objects} {a b : Section}
  {next rest todo : List Section}
  {e : Error} {w w' : EngineWorld} {l : EngineLabel} {call : ProduceCall} {x : Slot} {k : Int}
  {i : Nat} {n : Numbering} {history more : List Event}

theorem sequence_ok (hid : call.batch.isIdempotent = true)
    (h : exec cfg s c (.produce (.sequence call)) = .ok s' next) :
    next = [] ∧ call.batch.baseSequence = sequence s.metadata.coord (slot call) ∧
      ∀ x, sequence s'.metadata.coord x = if slot call = x then
        wrapI32 (sequence s.metadata.coord x + wrapI32 (call.batch.lastOffsetDelta + 1))
        else sequence s.metadata.coord x := by
  simp only [exec, Produce.exec] at h
  split at h
  · cases h
  · obtain ⟨rfl, rfl⟩ := Produce.sequence_ok h
    have hcases := sequenced_cases s.metadata.coord hid
    simp only [Tansu.Nvme.Produce.sequenced, hid, if_true] at hcases
    simp only [Produce.sequence] at h
    rcases hcases with ⟨e, hv, -⟩ | ⟨-, hbase, hseq⟩
    · rw [hv] at h
      cases h
    · exact ⟨rfl, hbase, hseq⟩

theorem sequence_err (hid : call.batch.isIdempotent = true)
    (h : exec cfg s c (.produce (.sequence call)) = .err s' e) :
    (∀ x, sequence s'.metadata.coord x = sequence s.metadata.coord x) ∧
      (e = .api .duplicateSequenceNumber →
        call.batch.baseSequence < sequence s.metadata.coord (slot call)) := by
  simp only [exec, Produce.exec] at h
  split at h
  · cases h
    exact ⟨fun _ => rfl, fun he => by cases he⟩
  · obtain rfl := Produce.sequence_err h
    have hcases := sequenced_cases s.metadata.coord hid
    simp only [Tansu.Nvme.Produce.sequenced, hid, if_true] at hcases
    simp only [Produce.sequence] at h
    rcases hcases with ⟨e', hv, hsame, hdup⟩ | ⟨hv, -, -⟩
    · rw [hv] at h
      cases h
      exact ⟨hsame, hdup⟩
    · rw [hv] at h
      cases h

/-- **Only the check counts on.**  Every other section leaves a stored sequence as it is,
or starts a new producer or epoch at 0. -/
theorem effect_sequence (h : Effect s a s') (ha : isCheck a = false) (x : Slot) :
    sequence s'.metadata.coord x = sequence s.metadata.coord x ∨
      (a.call? = none ∧ sequence s'.metadata.coord x = 0) := by
  cases h with
  | sequence => cases ha
  | allocate | allocateIdempotent => exact sequence_allocate.imp_right fun h => ⟨rfl, h⟩
  | bumpEpoch => exact sequence_bumpEpoch.imp_right fun h => ⟨rfl, h⟩
  | resolve call d hd hprepared =>
    left
    refine sequence_of_producers ?_ x
    simp only [Meta.resolve_coord]
    exact (s.metadata.coord.resolve_resolved call).producers
  | _ => exact .inl rfl

theorem HasBatch.effect (h : HasBatch s x k) (he : Effect s a s') : HasBatch s' x k := by
  obtain ⟨offset, batch, hb, hbatch⟩ := h
  exact ⟨offset, batch, he.getElem?_log hb, hbatch⟩

/-! ## Tasks -/

/-- The section belongs to the produce of an idempotent batch. -/
def idempotent (a : Section) : Bool := a.call?.any (·.batch.isIdempotent)

/-- Where the produce of an idempotent batch has come to; it has its task to itself. -/
inductive Lane : List Section → Prop
  | plain {todo : List Section} (h : ∀ a ∈ todo, idempotent a = false) : Lane todo
  | config (call : ProduceCall) (hid : call.batch.isIdempotent = true) :
      Lane [.produce (.config call)]
  /-- The topic only feeds the lake: no check, and no batch. -/
  | sinking (call : ProduceCall) {todo : List Section} (h : ∀ a ∈ todo,
      a = .produce (.sink call) ∨ a = .produce (.schema call) ∨
        ∃ offset, a = .produce (.lake call offset)) : Lane todo
  | checking (call : ProduceCall) (hid : call.batch.isIdempotent = true) {front : List Section}
      (h : ∀ a ∈ front, a = .produce (.schema call)) :
      Lane (.produce (.sequence call) :: (front ++ [.produce (.watermark call)]))
  | placing (call : ProduceCall) (hid : call.batch.isIdempotent = true) {front : List Section}
      (h : ∀ a ∈ front, a = .produce (.schema call)) : Lane (front ++ [.produce (.watermark call)])
  | putting (call : ProduceCall) (hid : call.batch.isIdempotent = true) (offset : Int)
      {front : List Section} (h : ∀ a ∈ front, a = .produce (.lake call offset) ∨
        ∃ t, a = .produce (.record t call offset)) : Lane (front ++ [.produce (.put call offset)])

theorem flying?_eq_none (h : ∀ a ∈ todo, carried? a = none) : flying? todo = none := by
  unfold flying?
  split
  · rfl
  · exact findSome?_eq_none_iff.2 h

variable {front t : List Section}

theorem flying?_append (h : ∀ a ∈ front, isCheck a = false ∧ carried? a = none)
    (hb : isCheck b = false) : flying? (front ++ [b]) = carried? b := by
  have hany : (front ++ [b]).any isCheck = false := by
    simp only [any_append, any_cons, any_nil, Bool.or_false, hb]
    exact List.any_eq_false.2 fun a ha => by simp [(h a ha).1]
  have hnone : front.findSome? carried? = none :=
    findSome?_eq_none_iff.2 fun a ha => (h a ha).2
  unfold flying?
  rw [hany, findSome?_append, hnone]
  cases hc : carried? b <;> simp [hc]

theorem carried?_of_idempotent_false (h : idempotent a = false) : carried? a = none := by
  cases a with
  | produce step =>
    cases step with
    | watermark call | put call =>
      have hid : call.batch.isIdempotent = false := h
      simp [carried?, hid]
    | _ => rfl
  | _ => rfl

theorem flying?_placing (hid : call.batch.isIdempotent = true)
    (h : ∀ a ∈ front, a = .produce (.schema call)) :
    flying? (front ++ [.produce (.watermark call)]) = some call := by
  rw [flying?_append (fun a ha => by rw [h a ha]; exact ⟨rfl, rfl⟩) rfl]
  simp [carried?, hid]

theorem flying?_putting (hid : call.batch.isIdempotent = true) {offset : Int}
    (h : ∀ a ∈ front, a = .produce (.lake call offset) ∨ ∃ t, a = .produce (.record t call offset))
    :
    flying? (front ++ [.produce (.put call offset)]) = some call := by
  rw [flying?_append (fun a ha => ?_) rfl]
  · simp [carried?, hid]
  · rcases h a ha with rfl | ⟨t, rfl⟩ <;> exact ⟨rfl, rfl⟩

theorem unwind_eq_nil (h : ∀ a ∈ todo, ∃ step, a = .produce step) :
    (machine cfg).unwind todo = [] := by
  induction todo with
  | nil => rfl
  | cons a todo ih =>
    obtain ⟨step, rfl⟩ := h a mem_cons_self
    rw [unwind, if_neg (by simp [machine]), ih fun b hb => h b (mem_cons_of_mem _ hb)]

theorem Lane.produces (hl : Lane todo) :
    (∀ a ∈ todo, idempotent a = false) ∨ ∀ a ∈ todo, ∃ step, a = .produce step := by
  cases hl with
  | plain hplain => exact .inl hplain
  | config => exact .inr fun a ha => ⟨_, mem_singleton.1 ha⟩
  | sinking call hsink =>
    refine .inr fun a ha => ?_
    rcases hsink a ha with rfl | rfl | ⟨_, rfl⟩ <;> exact ⟨_, rfl⟩
  | checking call hid hfront =>
    refine .inr fun a ha => ?_
    rcases mem_cons.1 ha with rfl | ha
    · exact ⟨_, rfl⟩
    · exact (mem_append.1 ha).elim (fun ha => ⟨_, hfront a ha⟩) fun ha => ⟨_, mem_singleton.1 ha⟩
  | placing call hid hfront =>
    refine .inr fun a ha => ?_
    exact (mem_append.1 ha).elim (fun ha => ⟨_, hfront a ha⟩) fun ha => ⟨_, mem_singleton.1 ha⟩
  | putting call hid offset hfront =>
    refine .inr fun a ha => ?_
    rcases mem_append.1 ha with ha | ha
    · rcases hfront a ha with rfl | ⟨_, rfl⟩ <;> exact ⟨_, rfl⟩
    · exact ⟨_, mem_singleton.1 ha⟩

theorem idempotent_next (h : Leads s a b) (ha : idempotent a = false) : idempotent b = false := by
  rcases h.call with heq | hnone | ⟨txn, tp, rfl⟩
  · rw [idempotent, heq]
    exact ha
  · rw [idempotent, hnone]
    rfl
  · simp [idempotent, Section.call?, Transactions.marker, Tansu.Nvme.markerBatch,
      Batch.isIdempotent]

/-! ## In flight -/

theorem inFlight_set (hat : At w i a rest) (h : inFlight w x k = true) :
    flies x k (a :: rest) = true ∨ inFlight ⟨s', w.tasks.set i t⟩ x k = true := by
  obtain ⟨todo, hmem, hfl⟩ := List.any_eq_true.1 h
  by_cases heq : todo = a :: rest
  · exact .inl (heq ▸ hfl)
  · exact .inr (List.any_eq_true.2 ⟨todo, mem_tasks_set_of_ne hat heq hmem, hfl⟩)

theorem inFlight_of_flies (hat : At w i a rest) (h : flies x k t = true) :
    inFlight ⟨s', w.tasks.set i t⟩ x k = true :=
  List.any_eq_true.2 ⟨t, mem_set hat.lt _, h⟩

/-! ## The invariant -/

/-- A pending section of an allowed request. -/
structure Sent (n : Numbering) (a : Section) : Prop where
  checks : ∀ call, a = .produce (.sequence call) → call.batch.isIdempotent = true
  numbers : ∀ call, a.call? = some call → call.batch.isIdempotent = true →
    n.numbers call = true ∧ (BatchAttribute.tryFrom call.batch.attributes).isOk = true

/-- The stored sequence counts batches that are stored or in flight. -/
def Stored (n : Numbering) (w : EngineWorld) (x : Slot) : Prop :=
  n.Counts x (sequence w.shared.metadata.coord x) fun k =>
    HasBatch w.shared x k ∨ inFlight w x k = true

structure Inv (n : Numbering) (p : EngineWorld × List Event) : Prop where
  placed : Placed p.1
  sent : ∀ a, Pending p.1 a → Sent n a
  lanes : ∀ todo ∈ p.1.tasks, Lane todo
  stored : ∀ x, Stored n p.1 x
  bumped : ∀ i, .bumped i ∈ p.2 → ∃ todo, p.1.tasks[i]? = some todo ∧
    (todo = [] ∨ (flying? todo).isSome)
  failed : ∀ i call e, .failed i call e ∈ p.2 → .bumped i ∉ p.2 ∧
    ∃ todo, p.1.tasks[i]? = some todo ∧ ∀ a ∈ todo, idempotent a = false
  duplicates : ∀ i call, .failed i call (.api .duplicateSequenceNumber) ∈ p.2 →
    HasBatch p.1.shared (slot call) call.batch.baseSequence

theorem Sent.leads (ha : Sent n a) (h : Leads s a b) : Sent n b := by
  refine ⟨fun call heq => ?_, fun call hcall hid => ?_⟩
  · subst heq
    cases h with
    | sequence _ hid => exact hid
  · rcases h.call with heq | hnone | ⟨txn, tp, rfl⟩
    · exact ha.numbers call (heq ▸ hcall) hid
    · rw [hnone] at hcall
      cases hcall
    · cases hcall
      simp [Transactions.marker, Tansu.Nvme.markerBatch, Batch.isIdempotent] at hid

theorem Stored.keep (h : Stored n w x)
    (hseq : sequence w'.shared.metadata.coord x = sequence w.shared.metadata.coord x ∨
      sequence w'.shared.metadata.coord x = 0)
    (hhas : ∀ k, HasBatch w.shared x k → HasBatch w'.shared x k)
    (hflight : ∀ k, inFlight w x k = true → HasBatch w'.shared x k ∨ inFlight w' x k = true) :
    Stored n w' x :=
  Numbering.Counts.keep h hseq fun k hk => hk.elim (fun hin => .inl (hhas k hin)) (hflight k)

/-- What has to hold when task `i` has run: the rest concerns that task only. -/
theorem Inv.ran (hi : Inv n (w, history)) (hat : At w i a rest)
    (hplaced : Placed ⟨s', w.tasks.set i t⟩) (heffect : Effect w.shared a s')
    (hsent : ∀ b ∈ t, Sent n b) (hlane : Lane t) (hstored : ∀ x, Stored n ⟨s', w.tasks.set i t⟩ x)
    (hown : ∀ j, .bumped j ∈ more → j = i) (hownf : ∀ j call e, .failed j call e ∈ more → j = i)
    (hbumped : .bumped i ∈ history ++ more → t = [] ∨ (flying? t).isSome)
    (hfailed : ∀ call e, .failed i call e ∈ history ++ more →
      .bumped i ∉ history ++ more ∧ ∀ b ∈ t, idempotent b = false)
    (hdup : ∀ call, .failed i call (.api .duplicateSequenceNumber) ∈ more →
      HasBatch w.shared (slot call) call.batch.baseSequence) :
    Inv n (⟨s', w.tasks.set i t⟩, history ++ more) := by
  refine ⟨hplaced, fun b hb => ?_, fun todo hmem => ?_, hstored, fun j hj => ?_,
    fun j call e hj => ?_, fun j call hj => ?_⟩
  · obtain ⟨todo, hmem, hb⟩ := hb
    rcases mem_set_tasks hmem with rfl | hmem
    · exact hsent b hb
    · exact hi.sent b ⟨todo, hmem, hb⟩
  · rcases mem_set_tasks hmem with rfl | hmem
    · exact hlane
    · exact hi.lanes todo hmem
  · exact hat.exists_set (fun hji => hi.bumped j ((mem_append.1 hj).resolve_right fun hnew =>
      hji (hown j hnew))) fun heq => hbumped (heq ▸ hj)
  · have hold (hji : j ≠ i) := hi.failed j call e ((mem_append.1 hj).resolve_right fun hnew =>
      hji (hownf j call e hnew))
    refine ⟨fun hb => ?_, hat.exists_set (fun hji => (hold hji).2) fun heq =>
      (hfailed call e (heq ▸ hj)).2⟩
    by_cases hji : j = i
    · exact (hfailed call e (hji ▸ hj)).1 (hji ▸ hb)
    · exact (mem_append.1 hb).elim (hold hji).1 fun hnew => hji (hown j hnew)
  · rcases mem_append.1 hj with hold | hnew
    · exact (hi.duplicates j call hold).effect heffect
    · obtain rfl := hownf j call _ hnew
      exact (hdup call hnew).effect heffect

/-! ## Every step -/

theorem put_exec {offset : Int} (h : exec cfg s c (.produce (.put call offset)) = .ok s' next) :
    s' = s.putBatch call.topition offset call.batch ∧ next = [] := by
  simp only [exec, Produce.exec] at h
  split at h
  · cases h
  · exact (Produce.put_ok h).2

theorem next_eq_nil (call : ProduceCall)
    (ha : a = .produce (.schema call) ∨ (∃ offset, a = .produce (.lake call offset)) ∨
      ∃ t offset, a = .produce (.record t call offset))
    (h : exec cfg s c a = .ok s' next) : next = [] := by
  refine eq_nil_iff_forall_not_mem.2 fun b hb => ?_
  have hleads := mem_next h hb
  rcases ha with rfl | ⟨_, rfl⟩ | ⟨_, _, rfl⟩ <;> cases hleads

/-- A task goes on as `t`: its batch is stored, or stays in flight. -/
structure Goes (s' : Objects) (todo t : List Section) : Prop where
  lane : Lane t
  batch : ∀ x k, flies x k todo = true → HasBatch s' x k ∨ flies x k t = true
  flying : (flying? todo).isSome → t = [] ∨ (flying? t).isSome

theorem Goes.grounded (hlane : Lane t) (hnone : flying? todo = none) : Goes s' todo t := by
  refine ⟨hlane, fun x k hfl => ?_, fun hsome => ?_⟩
  · simp [flies, hnone] at hfl
  · simp [hnone] at hsome

theorem Goes.aloft (hlane : Lane t) (hold : flying? todo = some call)
    (hnew : flying? t = some call) : Goes s' todo t := by
  refine ⟨hlane, fun x k hfl => .inr ?_, fun _ => .inr (by simp [hnew])⟩
  rw [flies, hnew, ← hold]
  exact hfl

theorem Lane.ok (hl : Lane (a :: rest)) (hcheck : isCheck a = false)
    (h : exec cfg s c a = .ok s' next) : Goes s' (a :: rest) (next ++ rest) := by
  generalize htodo : a :: rest = todo at hl
  cases hl with
  | plain hplain =>
    subst htodo
    refine .grounded (.plain fun b hb => ?_) (flying?_eq_none fun b hb =>
      carried?_of_idempotent_false (hplain b hb))
    rcases mem_append.1 hb with hb | hb
    · exact idempotent_next (mem_next h hb) (hplain a mem_cons_self)
    · exact hplain b (mem_cons_of_mem a hb)
  | config call hid =>
    cases htodo
    refine .grounded ?_ rfl
    simp only [exec, Produce.exec] at h
    split at h
    · cases h
    · cases h
      split
      · refine .sinking call fun b hb => ?_
        simp only [append_nil, mem_singleton] at hb
        exact .inl hb
      · have hkept : Produce.kept cfg call ++ [] = .produce (.sequence call) ::
            ((if cfg.schemas then [.produce (.schema call)] else []) ++
              [.produce (.watermark call)]) := by
          simp [Produce.kept, hid]
        rw [hkept]
        refine .checking call hid fun b hb => ?_
        simp only [mem_ite_nil_right, mem_singleton] at hb
        exact hb.2
  | sinking call hsink =>
    subst htodo
    refine .grounded (.sinking call fun b hb => ?_) (flying?_eq_none fun b hb => ?_)
    · rcases mem_append.1 hb with hb | hb
      · have hleads := mem_next h hb
        rcases hsink a mem_cons_self with rfl | rfl | ⟨offset, rfl⟩
        · cases hleads with
          | sinkSchema => exact .inr (.inl rfl)
          | sinkLake => exact .inr (.inr ⟨_, rfl⟩)
        · cases hleads
        · cases hleads
      · exact hsink b (mem_cons_of_mem a hb)
    · rcases hsink b hb with rfl | rfl | ⟨offset, rfl⟩ <;> rfl
  | checking call hid hfront =>
    cases htodo
    cases hcheck
  | @placing call hid front hfront =>
    cases front with
    | nil =>
      cases htodo
      obtain ⟨-, attributes, -, rfl⟩ := watermark_exec h
      obtain ⟨front, heq, hput⟩ := Produce.placed_eq cfg call attributes (s.high call.topition)
      have hput' : ∀ a ∈ front, a = .produce (.lake call (s.high call.topition)) ∨
          ∃ t, a = .produce (.record t call (s.high call.topition)) := by
        intro b hb
        rcases hput b hb with h | ⟨t, _, _, ht⟩
        · exact .inl h
        · exact .inr ⟨t, ht⟩
      have hold : flying? ([] ++ [.produce (.watermark call)]) = some call :=
        flying?_placing hid (forall_mem_nil _)
      rw [append_nil, heq]
      exact .aloft (.putting call hid _ hput') hold (flying?_putting hid hput')
    | cons b front =>
      cases htodo
      obtain rfl := hfront _ mem_cons_self
      have hrest := fun b hb => hfront b (mem_cons_of_mem _ hb)
      have hold : flying? ((.produce (.schema call) :: front) ++ [.produce (.watermark call)]) =
          some call := flying?_placing hid hfront
      rw [next_eq_nil call (.inl rfl) h]
      exact .aloft (.placing call hid hrest) hold (flying?_placing hid hrest)
  | @putting call hid offset front hfront =>
    cases front with
    | nil =>
      cases htodo
      obtain ⟨rfl, rfl⟩ := put_exec h
      refine ⟨.plain (forall_mem_nil _), fun x k hfl => .inl ?_, fun _ => .inl rfl⟩
      have hfly : flying? ([] ++ [.produce (.put call offset)]) = some call :=
        flying?_putting hid (forall_mem_nil _)
      rw [flies, hfly] at hfl
      obtain ⟨rfl, rfl⟩ := of_decide_eq_true hfl
      refine ⟨offset, call.batch, ?_, rfl, rfl, rfl⟩
      simp [Objects.log_putBatch, slot]
    | cons b front =>
      cases htodo
      have hrest := fun b hb => hfront b (mem_cons_of_mem _ hb)
      have hnil : next = [] := by
        refine next_eq_nil call ?_ h
        rcases hfront _ mem_cons_self with rfl | ⟨t, rfl⟩
        · exact .inr (.inl ⟨_, rfl⟩)
        · exact .inr (.inr ⟨_, _, rfl⟩)
      have hold : flying? ((a :: front) ++ [.produce (.put call offset)]) = some call :=
        flying?_putting hid hfront
      rw [hnil]
      exact .aloft (.putting call hid offset hrest) hold (flying?_putting hid hrest)

/-- After a failure there is nothing left of the produce of an idempotent batch. -/
theorem Lane.unwind (hl : Lane (a :: rest)) :
    ∀ b ∈ (machine cfg).unwind rest, idempotent b = false := by
  rcases hl.produces with hplain | hproduces
  · exact fun b hb => hplain b (mem_cons_of_mem a ((unwind_suffix rest).subset hb))
  · rw [unwind_eq_nil fun b hb => hproduces b (mem_cons_of_mem a hb)]
    exact forall_mem_nil _

/-- **Nothing fails behind the check.** -/
theorem Lane.ne_err (hl : Lane (a :: rest)) (hw : Placed w) (hat : At w i a rest) (ha : Sent n a)
    (hf : c.fault = false) (hfly : (flying? (a :: rest)).isSome) :
    exec cfg w.shared c a ≠ .err s' e := by
  have hparsed {call : ProduceCall} (hcall : a.call? = some call)
      (hid : call.batch.isIdempotent = true) :
      ∃ attributes, BatchAttribute.tryFrom call.batch.attributes = .ok attributes := by
    have hok := (ha.numbers call hcall hid).2
    cases htry : BatchAttribute.tryFrom call.batch.attributes with
    | ok attributes => exact ⟨attributes, rfl⟩
    | error => simp [htry, Except.isOk, Except.toBool] at hok
  intro h
  generalize htodo : a :: rest = todo at hl hfly
  cases hl with
  | plain hplain =>
    rw [flying?_eq_none fun b hb => carried?_of_idempotent_false (hplain b hb)] at hfly
    cases hfly
  | config => cases hfly
  | sinking call hsink =>
    rw [flying?_eq_none fun b hb => ?_] at hfly
    · cases hfly
    · rcases hsink b hb with rfl | rfl | ⟨_, rfl⟩ <;> rfl
  | checking call hid hfront => simp [flying?, isCheck] at hfly
  | @placing call hid front hfront =>
    cases front with
    | nil =>
      cases htodo
      obtain ⟨attributes, hattr⟩ := hparsed rfl hid
      simp [exec, Produce.exec, hf, Produce.watermark, hattr] at h
    | cons b front =>
      cases htodo
      obtain rfl := hfront _ mem_cons_self
      obtain ⟨attributes, hattr⟩ := hparsed rfl hid
      simp [exec, Produce.exec, hf, Produce.schema, hattr] at h
  | @putting call hid offset front hfront =>
    cases front with
    | nil =>
      cases htodo
      simp [exec, Produce.exec, hf, Produce.put, hw.not_mem_log hat.pending] at h
    | cons b front =>
      cases htodo
      rcases hfront _ mem_cons_self with rfl | ⟨t, rfl⟩ <;>
        simp [exec, Produce.exec, hf] at h

theorem Inv.ran_ok (hi : Inv n (w, history)) (hat : At w i a rest) (hcheck : isCheck a = false)
    (hplaced : Placed ⟨s', w.tasks.set i (next ++ rest)⟩)
    (h : exec cfg w.shared c a = .ok s' next) :
    Inv n (⟨s', w.tasks.set i (next ++ rest)⟩, history) := by
  have ha := hi.sent a hat.pending
  have heffect := exec_ok_effect h
  obtain ⟨hlane, hflies, hflying⟩ := (hi.lanes _ hat.mem).ok hcheck h
  have key : Inv n (⟨s', w.tasks.set i (next ++ rest)⟩, history ++ []) := by
    refine hi.ran hat hplaced heffect (fun b hb => ?_) hlane (fun x => ?_)
      (fun j hj => absurd hj not_mem_nil) (fun j call e hj => absurd hj not_mem_nil)
      (fun hj => ?_) (fun call e hj => ?_) (fun call hj => absurd hj not_mem_nil)
    · rcases mem_append.1 hb with hb | hb
      · exact ha.leads (mem_next h hb)
      · exact hi.sent b ⟨_, hat.mem, mem_cons_of_mem a hb⟩
    · refine (hi.stored x).keep ((effect_sequence heffect hcheck x).imp_right And.right)
        (fun k hk => hk.effect heffect) fun k hfl => ?_
      rcases inFlight_set hat hfl with hfl | hfl
      · exact (hflies x k hfl).imp_right fun hfl => inFlight_of_flies hat hfl
      · exact .inr hfl
    · rw [append_nil] at hj
      obtain ⟨todo, htodo, hall⟩ := hi.bumped i hj
      obtain rfl := hat.todo htodo
      exact hflying (hall.resolve_left (cons_ne_nil _ _))
    · rw [append_nil] at hj ⊢
      obtain ⟨hnot, todo, htodo, hall⟩ := hi.failed i call e hj
      obtain rfl := hat.todo htodo
      refine ⟨hnot, fun b hb => ?_⟩
      rcases mem_append.1 hb with hb | hb
      · exact idempotent_next (mem_next h hb) (hall a mem_cons_self)
      · exact hall b (mem_cons_of_mem a hb)
  simpa using key

theorem Lane.check (hl : Lane (.produce (.sequence call) :: rest))
    (hid : call.batch.isIdempotent = true) :
    Lane rest ∧ flying? rest = some call ∧ flying? (.produce (.sequence call) :: rest) = none := by
  have hnone : flying? (.produce (.sequence call) :: rest) = none := by simp [flying?, isCheck]
  generalize htodo : Section.produce (.sequence call) :: rest = todo at hl
  cases hl with
  | plain hplain =>
    subst htodo
    have hfalse : call.batch.isIdempotent = false := hplain _ mem_cons_self
    rw [hid] at hfalse
    cases hfalse
  | config => cases htodo
  | sinking call' hsink =>
    subst htodo
    rcases hsink _ mem_cons_self with heq | heq | ⟨_, heq⟩ <;> cases heq
  | checking call' hid' hfront =>
    cases htodo
    exact ⟨.placing call hid hfront, flying?_placing hid hfront, hnone⟩
  | @placing call' hid' front hfront =>
    cases front with
    | nil => cases htodo
    | cons b front =>
      cases htodo
      cases hfront _ mem_cons_self
  | @putting call' hid' offset front hfront =>
    cases front with
    | nil => cases htodo
    | cons b front =>
      cases htodo
      rcases hfront _ mem_cons_self with heq | ⟨_, heq⟩ <;> cases heq

/-- **The check of an idempotent batch** counts on, and puts the batch in flight. -/
theorem Inv.ran_check (hi : Inv n (w, history))
    (hat : At w i (.produce (.sequence call)) rest)
    (hplaced : Placed ⟨s', w.tasks.set i (next ++ rest)⟩)
    (h : exec cfg w.shared c (.produce (.sequence call)) = .ok s' next) :
    sequence s'.metadata.coord (slot call) ≠ sequence w.shared.metadata.coord (slot call) ∧
      Inv n (⟨s', w.tasks.set i (next ++ rest)⟩, history ++ [.bumped i]) := by
  have ha := hi.sent _ hat.pending
  have hid := ha.checks call rfl
  have heffect := exec_ok_effect h
  obtain ⟨rfl, hbase, hseq⟩ := sequence_ok hid h
  obtain ⟨hlane, hflying, hnone⟩ := (hi.lanes _ hat.mem).check hid
  -- The batch is the next one of its slot.
  obtain ⟨hmoved, hcounts⟩ := Numbering.Counts.next (hi.stored (slot call))
    (ha.numbers call rfl hid).1 hbase
  have hnew := (hseq (slot call)).trans (if_pos rfl)
  have hkeep {x : Slot} {k : Int} (hfl : inFlight w x k = true) :
      inFlight ⟨s', w.tasks.set i ([] ++ rest)⟩ x k = true := by
    rcases inFlight_set hat hfl with hfl | hfl
    · simp [flies, hnone] at hfl
    · exact hfl
  refine ⟨hnew ▸ hmoved, ?_⟩
  refine hi.ran hat hplaced heffect (fun b hb => ?_) hlane (fun x => ?_) (fun j hj => ?_)
    (fun j call' e hj => ?_) (fun _ => .inr (by simp [hflying])) (fun call' e hj => ?_)
    fun call' hj => ?_
  · exact hi.sent b ⟨_, hat.mem, mem_cons_of_mem _ hb⟩
  · by_cases hx : slot call = x
    · subst hx
      rw [Stored, hnew]
      refine hcounts _ (fun k hk => hk.imp (fun hk => hk.effect heffect) hkeep)
        (.inr (inFlight_of_flies hat ?_))
      simp [flies, hflying]
    · refine (hi.stored x).keep (.inl ?_) (fun k hk => hk.effect heffect)
        fun k hfl => .inr (hkeep hfl)
      exact (hseq x).trans (if_neg hx)
  · exact Event.bumped.inj (mem_singleton.1 hj)
  · cases mem_singleton.1 hj
  · exfalso
    rcases mem_append.1 hj with hj | hj
    · obtain ⟨-, todo, htodo, hall⟩ := hi.failed i call' e hj
      obtain rfl := hat.todo htodo
      have hfalse : call.batch.isIdempotent = false := hall _ mem_cons_self
      rw [hid] at hfalse
      cases hfalse
    · cases mem_singleton.1 hj
  · cases mem_singleton.1 hj

theorem err_duplicate (hcall : a.call? = some call)
    (h : exec cfg s c a = .err s' (.api .duplicateSequenceNumber)) :
    a = .produce (.sequence call) := by
  cases a with
  | produce step =>
    simp only [exec, Produce.exec] at h
    split at h
    · cases h
    · cases step with
      | sequence =>
        cases hcall
        rfl
      | sink call' =>
        exfalso
        simp only [Produce.sink] at h
        split at h
        · split at h
          · next htry =>
            cases h
            exact tryFrom_ne_duplicate htry
          · cases h
        · cases h
      | schema call' =>
        exfalso
        simp only [Produce.schema] at h
        split at h
        · next htry =>
          cases h
          exact tryFrom_ne_duplicate htry
        · cases h
      | watermark call' =>
        exfalso
        simp only [Produce.watermark] at h
        split at h
        · next htry =>
          cases h
          exact tryFrom_ne_duplicate htry
        · cases h
      | put call' offset =>
        exfalso
        simp only [Produce.put] at h
        split at h <;> cases h
      | config | lake | record => cases h
  | _ => cases hcall

/-- A section that fails has moved no sequence and loses no batch. -/
theorem Inv.ran_err (hi : Inv n (w, history)) (hat : At w i a rest)
    (hs : smooth w c (a :: rest) = true)
    (hplaced : Placed ⟨s', w.tasks.set i ((machine cfg).unwind rest)⟩)
    (h : exec cfg w.shared c a = .err s' e)
    (hmore : ∀ ev ∈ more, ∃ call, a.call? = some call ∧ ev = .failed i call e) :
    (∀ call, a.call? = some call →
      ∀ x, sequence s'.metadata.coord x = sequence w.shared.metadata.coord x) ∧
      Inv n (⟨s', w.tasks.set i ((machine cfg).unwind rest)⟩, history ++ more) := by
  have ha := hi.sent a hat.pending
  have hlane := hi.lanes _ hat.mem
  obtain ⟨heffect, -⟩ := exec_err_effect h
  have hgrounded : flying? (a :: rest) = none := by
    by_contra hne
    have hfly : (flying? (a :: rest)).isSome := Option.isSome_iff_ne_none.2 hne
    have hf : c.fault = false := by
      unfold smooth at hs
      split at hs
      · next call _ heq =>
        rw [heq] at hfly
        simp [flying?, isCheck] at hfly
      · simpa [hne] using hs
    exact hlane.ne_err hi.placed hat ha hf hfly h
  have hseq (x : Slot) : sequence s'.metadata.coord x = sequence w.shared.metadata.coord x := by
    cases hcheck : isCheck a with
    | true =>
      obtain ⟨call, rfl⟩ := eq_of_isCheck hcheck
      exact (sequence_err (ha.checks call rfl) h).1 x
    | false =>
      rcases effect_sequence heffect hcheck x with heq | ⟨hnone, -⟩
      · exact heq
      · rcases (exec_err_effect h).2 with rfl | ⟨step, rfl⟩
        · rfl
        · cases step <;> cases hnone
  have hnot {j : Nat} : .bumped j ∉ more := fun hmem => by
    obtain ⟨_, -, heq⟩ := hmore _ hmem
    cases heq
  have hunbumped : .bumped i ∉ history ++ more := fun hmem => by
    obtain ⟨todo, htodo, hall⟩ := hi.bumped i ((mem_append.1 hmem).resolve_right hnot)
    obtain rfl := hat.todo htodo
    rw [hgrounded] at hall
    simp at hall
  refine ⟨fun _ _ => hseq, hi.ran hat hplaced heffect (fun b hb => ?_) (.plain hlane.unwind)
    (fun x => ?_) (fun j hj => absurd hj hnot) (fun j call e' hj => ?_)
    (fun hj => absurd hj hunbumped) (fun call e' _ => ⟨hunbumped, hlane.unwind⟩)
    fun call hmem => ?_⟩
  · exact hi.sent b ⟨_, hat.mem, mem_cons_of_mem a ((unwind_suffix rest).subset hb)⟩
  · refine (hi.stored x).keep (.inl (hseq x)) (fun k hk => hk.effect heffect) fun k hfl => .inr ?_
    rcases inFlight_set hat hfl with hfl | hfl
    · simp [flies, hgrounded] at hfl
    · exact hfl
  · obtain ⟨_, -, heq⟩ := hmore _ hj
    cases heq
    rfl
  · obtain ⟨call', hcall, hev⟩ := hmore _ hmem
    cases hev
    obtain rfl := err_duplicate hcall h
    have hid := ha.checks call rfl
    have hlt := (sequence_err hid h).2 rfl
    have hsmooth : inFlight w (slot call) call.batch.baseSequence = false := by
      simpa [smooth] using hs
    refine (Numbering.Counts.sent_of_lt (hi.stored (slot call)) (ha.numbers call rfl hid).1
      hlt).resolve_right fun hfl => ?_
    rw [hsmooth] at hfl
    cases hfl

theorem Inv.run (hi : Inv n (w, history)) (hok : allowed n w (.run i c) = true)
    (h : (machine cfg).step w (.run i c) = some w') :
    Inv n (w', observe cfg history w (.run i c) w') := by
  have hplaced : Placed w' := hi.placed.step rfl h
  obtain ⟨a, rest, hat, hcase⟩ := step_run h
  have htask : w.tasks[i]? = some (a :: rest) := hat
  have hs : smooth w c (a :: rest) = true := by simpa [allowed, htask] using hok
  simp only [observe, htask]
  rcases hcase with @⟨s', next, he⟩ | @⟨s', e, he⟩
  · have hexec : exec cfg w.shared c a = .ok s' next := he
    cases hcheck : isCheck a with
    | true =>
      obtain ⟨call, rfl⟩ := eq_of_isCheck hcheck
      obtain ⟨hmoved, hi'⟩ := hi.ran_check hat hplaced hexec
      simpa [Section.call?, events, hexec, hmoved] using hi'
    | false =>
      have hnil : (a.call?.map (events cfg w.shared c i a)).getD [] = [] := by
        cases hcall : a.call? with
        | none => rfl
        | some call =>
          have hsame := (effect_sequence (exec_ok_effect hexec) hcheck (slot call)).resolve_right
            fun hnone => by simp [hcall] at hnone
          simp [events, hexec, hsame]
      rw [hnil, append_nil]
      exact hi.ran_ok hat hcheck hplaced hexec
  · have hexec : exec cfg w.shared c a = .err s' e := he
    refine (hi.ran_err hat hs hplaced hexec fun ev hev => ?_).2
    cases hcall : a.call? with
    | none => simp [hcall] at hev
    | some call =>
      have hsame := (hi.ran_err hat hs hplaced hexec (forall_mem_nil _)).1 call hcall
      simp only [hcall, Option.map_some, Option.getD_some, events, hexec, hsame, if_true,
        nil_append] at hev
      exact ⟨call, rfl, mem_singleton.1 hev⟩

theorem start_sent {r : Request} (h : sends n r = true) : ∀ a ∈ r.start, Sent n a := by
  intro a ha
  cases r with
  | produce call =>
    rw [mem_singleton.1 ha]
    refine ⟨fun call' heq => (by cases heq), fun call' hcall hid => ?_⟩
    cases hcall
    obtain ⟨-, hnum⟩ := Bool.and_eq_true_iff.1 h
    simpa [hid] using hnum
  | offsetCommit group offsets =>
    obtain ⟨_, -, rfl⟩ := List.mem_map.1 ha
    exact ⟨fun call heq => (by cases heq), fun call hcall => (by cases hcall)⟩
  | _ =>
    rw [mem_singleton.1 ha]
    exact ⟨fun call heq => (by cases heq), fun call hcall => (by cases hcall)⟩

theorem start_lane (r : Request) : Lane r.start := by
  cases r with
  | produce call =>
    cases hid : call.batch.isIdempotent with
    | true => exact .config call hid
    | false =>
      refine .plain fun a ha => ?_
      rw [mem_singleton.1 ha]
      exact hid
  | offsetCommit group offsets =>
    refine .plain fun a ha => ?_
    obtain ⟨_, -, rfl⟩ := List.mem_map.1 ha
    rfl
  | _ =>
    refine .plain fun a ha => ?_
    rw [mem_singleton.1 ha]
    rfl

theorem Inv.step (hi : Inv n (w, history)) (hok : allowed n w l = true)
    (hs : (machine cfg).step w l = some w') : Inv n (w', observe cfg history w l w') := by
  cases l with
  | run i c => exact hi.run hok hs
  | env ev => exact nomatch ev
  | spawn r =>
    have hsized : sized (.spawn r) = true := by
      cases r with
      | produce call => exact (Bool.and_eq_true_iff.1 hok).1
      | _ => rfl
    have hplaced : Placed w' := hi.placed.step hsized hs
    obtain rfl : (⟨w.shared, w.tasks ++ [r.start]⟩ : EngineWorld) = w' := Option.some.inj hs
    refine ⟨hplaced, fun a ha => ?_, fun todo hmem => ?_, fun x => ?_,
      fun j hj => exists_spawn (hi.bumped j hj),
      fun j call e hj => ⟨(hi.failed j call e hj).1, exists_spawn (hi.failed j call e hj).2⟩,
      hi.duplicates⟩
    · obtain ⟨todo, hmem, ha⟩ := ha
      rcases mem_append.1 hmem with hmem | hmem
      · exact hi.sent a ⟨todo, hmem, ha⟩
      · rw [mem_singleton.1 hmem] at ha
        exact start_sent hok a ha
    · rcases mem_append.1 hmem with hmem | hmem
      · exact hi.lanes todo hmem
      · rw [mem_singleton.1 hmem]
        exact start_lane r
    · refine (hi.stored x).keep (.inl rfl) (fun _ hk => hk) fun k hfl => .inr ?_
      obtain ⟨todo, htodo, hfl⟩ := List.any_eq_true.1 hfl
      exact List.any_eq_true.2 ⟨todo, mem_append_left _ htodo, hfl⟩

section Runs

variable {topics : BTreeMap Tansu.Nvme.Topic Tansu.Nvme.TopicMetadata}
  {p : EngineWorld × List Event}

theorem inv_opened : Inv n (opened topics, []) := by
  refine ⟨placed_opened, fun a ha => ?_, fun todo hmem => absurd hmem not_mem_nil,
    fun x => ?_, fun i hj => absurd hj not_mem_nil,
    fun i call e hj => absurd hj not_mem_nil, fun i call hj => absurd hj not_mem_nil⟩
  · obtain ⟨todo, hmem, -⟩ := ha
    cases hmem
  · have hzero : sequence (opened topics).shared.metadata.coord x = 0 := by
      simp [Tansu.Nvme.Idempotent.sequence, opened]
    rw [Stored, hzero]
    exact .zero

/-- **An idempotent produce is atomic with its sequence** if producers number their batches,
a batch is not sent again while it is on its way, and nothing fails between the check of a
batch and its put.  A stored sequence counts the batches that are in the log or whose put is
on its way (`Stored`). -/
theorem duplicate_is_stored
    (h : (system cfg).Reach (fun p l => allowed n p.1 l = true) (opened topics, []) p) :
    Atomic p := by
  have hi : Inv n p := h.invariant_observe inv_opened fun hi hok hs => hi.step hok hs
  exact ⟨fun i call e hmem _ => (hi.failed i call e hmem).1, hi.duplicates⟩

end Runs

/-- The first batch of the first producer. -/
def first : ProduceCall := ⟨none, Schedule.partition, ⟨0, 0, 0, 1, 0, 0, .client 10⟩⟩

/-- A producer sends its first batch, and sends it again when the first attempt is over,
whatever has become of it. -/
def sentTwice (c : Choice) : List EngineLabel :=
  [.spawn (.initProducer none 0 (some (-1)) (some (-1))), .run 0 {},
    .spawn (.produce first), .run 1 {}, .run 1 {}, .run 1 {}, .run 1 c,
    .spawn (.produce first), .run 2 {}, .run 2 {}]

theorem duplicate_is_stored_sentTwice : ∃ p,
    (system {}).Reach (fun p l => allowed .pairs p.1 l = true) (Schedule.store, []) p ∧
      p.2 = [.bumped 1, .failed 2 first (.api .duplicateSequenceNumber)] ∧ Atomic p := by
  exact (exists_reach (sentTwice {}) (by decide +kernel)).imp
    fun p h => ⟨h.1, h.2, duplicate_is_stored h.1⟩

/-! ### A put that fails -/

/-- Batches are numbered; whatever fails, fails. -/
def numbered (n : Numbering) : EngineLabel → Bool
  | .spawn r => sends n r
  | _ => true

/-- The put of the batch fails: its sequence stays moved, and the second attempt is
answered as a duplicate, with no batch in the partition. -/
theorem failed_put_moves_sequence : ∃ p,
    (system {}).Reach (fun _ l => numbered .pairs l = true) (Schedule.store, []) p ∧
      p.2 = [.bumped 1, .failed 1 first (.message "object store"),
        .failed 2 first (.api .duplicateSequenceNumber)] ∧
      (p.1.shared.log Schedule.partition).toList = [] ∧ ¬ Atomic p := by
  refine (exists_reach (P := fun p => _ ∧ _) (sentTwice { fault := true })
    (by decide +kernel)).imp fun p h => ⟨h.1, h.2.1, h.2.2, fun hatomic => ?_⟩
  obtain ⟨-, heq, hnil⟩ := h
  obtain ⟨offset, batch, hbatch, -⟩ := hatomic.stored 2 first (by simp [heq])
  have hmem := ExtTreeMap.mem_toList_iff_getElem?_eq_some.2 hbatch
  have hnil : (p.1.shared.log (slot first).topition).toList = [] := hnil
  rw [hnil] at hmem
  cases hmem

end Idempotent

end Tansu.Dynostore.Engine
