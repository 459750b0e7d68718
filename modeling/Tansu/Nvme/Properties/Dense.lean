import Tansu.Nvme.Logs
import Tansu.Nvme.Properties.Transactional

/-!
# Offsets are dense and unique

An append takes the next offset of its partition and moves it past the batch by
the delta that the batch claims for its last record.  If no batch claims less
than one record and the sums fit an `i64`, the intervals that a partition gives
out never meet and its index only grows.
-/

namespace Tansu.Nvme

open Std Tansu.Lib Machine List Option Produce System

namespace Dense

/-- The offsets that an append gave to a batch. -/
structure Assigned where
  tp : Topition
  base : Int
  last : Int
deriving DecidableEq

/-- The interval that the section of task `i` gives out, if it is an append that
succeeds. -/
def assigned (cfg : Config) (w : EngineWorld) (i : Nat) (c : Choice) : List Assigned :=
  match w.tasks[i]? with
  | some (.produce (.append call attributes) :: _) =>
    match Produce.append cfg w.shared c call attributes with
    | .ok _ [.produce (.acked _ _ ack)] => [⟨call.topition, ack.offset, ack.offsetEnd⟩]
    | _ => []
  | _ => []

def observe (cfg : Config) (history : List Assigned) (w : EngineWorld) (l : EngineLabel)
    (_ : EngineWorld) : List Assigned :=
  match l with
  | .run i c => history ++ assigned cfg w i c
  | _ => history

/-- The engine with the intervals it has given out. -/
def system (cfg : Config) : System (EngineWorld × List Assigned) EngineLabel :=
  (machine cfg).system.observe (observe cfg)

/-! ## What a run has to keep -/

/-- Every interval has an offset, and a later one of the same partition lies above. -/
def Disjoint (history : List Assigned) : Prop :=
  (∀ a ∈ history, a.base ≤ a.last) ∧
    history.Pairwise fun a b => a.tp = b.tp → a.last < b.base

/-- An entry of the index of a partition, without its cached bytes. -/
def indexed? (s : Engine) (tp : Topition) (o : Int) : Option BatchEntry :=
  (s.partitions[tp]?.bind fun inner => inner.batches[o]?).map BatchEntry.stored

/-- No next offset decreases, and no entry of an index is replaced. -/
def Grows (s s' : Engine) : Prop :=
  ∀ tp, s.nextOffset tp ≤ s'.nextOffset tp ∧
    ∀ o entry, indexed? s tp o = some entry → indexed? s' tp o = some entry

/-- Only produce calls run, and each batch covers at least one offset. -/
def sized : EngineLabel → Bool
  | .spawn (.produce call) => decide (0 ≤ call.batch.lastOffsetDelta)
  | .spawn _ => false
  | _ => true

/-- The next offset behind the batch of an append fits an `i64`. -/
def fits (w : EngineWorld) : EngineLabel → Bool
  | .run i _ =>
    match w.tasks[i]? with
    | some (.produce (.append call _) :: _) =>
      decide (w.shared.nextOffset call.topition + call.batch.lastOffsetDelta + 1 < 2 ^ 63)
    | _ => true
  | _ => true

variable {cfg : Config} {c : Choice} {s s' : Engine} {a : Action} {next : List Action} {e : Error}
  {w w' : EngineWorld} {history : List Assigned} {i : Nat} {l : EngineLabel} {tp : Topition}
  {call : ProduceCall} {attributes : BatchAttribute}

/-- A section of a produce call whose batch covers at least one offset. -/
def Produces (a : Action) : Prop := (∃ step, a = .produce step) ∧ a.Sound

/-- Indexed batches lie below the next offset. -/
def Below (s : Engine) : Prop := ∀ tp o entry, indexed? s tp o = some entry → o < s.nextOffset tp

theorem Grows.of_eq (h : s'.partitions = s.partitions) : Grows s s' := by
  intro tp
  simp [Engine.nextOffset, indexed?, h]

theorem Below.of_eq (h : s'.partitions = s.partitions) (hb : Below s) : Below s' := by
  intro tp o entry he
  rw [nextOffset_of_eq h]
  exact hb tp o entry (by simpa [indexed?, h] using he)

theorem raised {handle : Nat} {offsetEnd : Int} {tp' : Topition}
    (h : s'.partitions = s.partitions.modify tp' (Produce.raise handle offsetEnd)) :
    (∀ tp, s'.nextOffset tp = s.nextOffset tp) ∧ ∀ tp o, indexed? s' tp o = indexed? s tp o := by
  have hraise (inner : PartitionInner) :
      (Produce.raise handle offsetEnd inner).nextOffset = inner.nextOffset ∧
        (Produce.raise handle offsetEnd inner).batches = inner.batches := by
    unfold Produce.raise
    split <;> exact ⟨rfl, rfl⟩
  refine ⟨fun tp => ?_, fun tp o => ?_⟩
  · simp only [Engine.nextOffset, h, BTreeMap.getElem?_modify_eq]
    split
    · cases s.partitions[tp]? with
      | none => rfl
      | some inner => exact (hraise inner).1
    · rfl
  · simp only [indexed?, h, BTreeMap.getElem?_modify_eq]
    split
    · cases s.partitions[tp]? with
      | none => rfl
      | some inner =>
        simp only [map_some, bind_some, (hraise inner).2]
    · rfl

/-! ## Appends -/

theorem target_indexed? (o : Int) :
    ((Produce.target s call).batches[o]?).map BatchEntry.stored = indexed? s call.topition o := by
  unfold Produce.target indexed?
  cases s.partitions[call.topition]? <;> simp

theorem append_indexed? (h : Produce.append cfg s c call attributes = .ok s' next) {o : Int}
    (ho : ¬ (call.topition = tp ∧ s.nextOffset tp = o)) : indexed? s' tp o = indexed? s tp o := by
  obtain ⟨w, file, -, -, hparts, -⟩ := append_files h
  by_cases htp : call.topition = tp
  · subst htp
    have hne : ¬ (Produce.target s call).nextOffset = o := fun heq =>
      ho ⟨rfl, target_nextOffset ▸ heq⟩
    rw [indexed?, hparts, if_pos rfl, bind_some, indexed_batches, if_neg hne]
    exact target_indexed? o
  · rw [indexed?, hparts, if_neg htp]
    rfl

/-- **An append grows the log.**  It gives out the offsets from the next one on. -/
theorem append_grows (h : Produce.append cfg s c call attributes = .ok s' next)
    (hd : 0 ≤ call.batch.lastOffsetDelta) (hb : Below s) : Grows s s' ∧ Below s' := by
  obtain ⟨happ, -⟩ := append_appended h
  have hnext : ∀ tp, s.nextOffset tp ≤ s'.nextOffset tp := by
    intro tp
    rw [happ.nextOffset]
    split <;> omega
  refine ⟨fun tp => ⟨hnext tp, fun o entry he => ?_⟩, fun tp o entry he => ?_⟩
  · have hlt := hb tp o entry he
    rw [append_indexed? h (by omega), he]
  · by_cases ho : call.topition = tp ∧ s.nextOffset tp = o
    · rw [happ.nextOffset, if_pos ho.1]
      omega
    · rw [append_indexed? h ho] at he
      have := hb tp o entry he
      have := hnext tp
      omega

/-- An append that fails may have moved the next offset and adds no entry. -/
theorem append_err_grows (h : Produce.append cfg s c call attributes = .err s' e)
    (hd : 0 ≤ call.batch.lastOffsetDelta) (hb : Below s) : Grows s s' ∧ Below s' := by
  have hentry (tp : Topition) (o : Int) : indexed? s' tp o = indexed? s tp o := by
    rcases append_err_files h with rfl | ⟨writer, hparts, -⟩
    · rfl
    · rw [indexed?, hparts]
      split
      · next htp =>
        subst htp
        exact target_indexed? o
      · rfl
  have hnext : ∀ tp, s.nextOffset tp ≤ s'.nextOffset tp := by
    intro tp
    obtain ⟨-, -, -, hsame | hmoved⟩ := append_failed h
    · rw [hsame]
    · rw [hmoved]
      split <;> omega
  refine ⟨fun tp => ⟨hnext tp, fun o entry he => by rw [hentry, he]⟩, fun tp o entry he => ?_⟩
  rw [hentry] at he
  have := hb tp o entry he
  have := hnext tp
  omega

/-! ## Every section of a produce -/

theorem run_grows (ha : Produces a) (h : a.run cfg s c = .ok s' next) (hb : Below s) :
    (Grows s s' ∧ Below s') ∧ ∀ b ∈ next, Produces b := by
  obtain ⟨⟨step, rfl⟩, hsound⟩ := ha
  have hnext := run_sound hsound h
  have hsame (hp : s'.partitions = s.partitions) : Grows s s' ∧ Below s' :=
    ⟨.of_eq hp, hb.of_eq hp⟩
  cases step with
  | marker t pid epoch committed tp =>
    cases h
    refine ⟨hsame rfl, fun b hmem => ⟨?_, hnext b hmem⟩⟩
    rw [mem_singleton.1 hmem]
    exact ⟨_, rfl⟩
  | guard call =>
    obtain ⟨rfl, _, -, rfl⟩ := guard_ok h
    refine ⟨hsame rfl, fun b hmem => ⟨?_, hnext b hmem⟩⟩
    rw [mem_singleton.1 hmem]
    exact ⟨_, rfl⟩
  | check call attributes =>
    obtain ⟨_, rfl, -, rfl⟩ := check_ok h
    refine ⟨hsame rfl, fun b hmem => ⟨?_, hnext b hmem⟩⟩
    rw [mem_singleton.1 hmem]
    exact ⟨_, rfl⟩
  | append call attributes =>
    refine ⟨append_grows h (hsound.sized call rfl) hb, fun b hmem => ⟨?_, hnext b hmem⟩⟩
    obtain ⟨-, _, rfl, -⟩ := append_appended h
    rw [mem_singleton.1 hmem]
    exact ⟨_, rfl⟩
  | acked call attributes ack =>
    obtain ⟨-, hs, rfl⟩ := acked_ok h
    obtain ⟨hn, he⟩ := raised (congrArg Engine.partitions hs)
    refine ⟨⟨fun tp => ⟨by rw [hn], fun o entry h => by rw [he, h]⟩, fun tp o entry h => ?_⟩,
      fun b hmem => ⟨?_, hnext b hmem⟩⟩
    · rw [hn]
      rw [he] at h
      exact hb tp o entry h
    · split at hmem
      · cases hmem
      · rw [mem_singleton.1 hmem]
        exact ⟨_, rfl⟩
  | record t call attributes ack =>
    obtain ⟨rfl, ⟨-, rfl⟩ | ⟨_, -, -, rfl⟩⟩ := record_ok h <;>
      exact ⟨hsame rfl, by simp⟩

theorem run_err_grows (ha : Produces a) (h : a.run cfg s c = .err s' e) (hb : Below s) :
    Grows s s' ∧ Below s' := by
  obtain ⟨⟨step, rfl⟩, hsound⟩ := ha
  have hsame (hp : s'.partitions = s.partitions) : Grows s s' ∧ Below s' :=
    ⟨.of_eq hp, hb.of_eq hp⟩
  cases step with
  | marker => cases h
  | guard => obtain rfl := guard_err h; exact hsame rfl
  | check => obtain ⟨_, rfl⟩ := check_err h; exact hsame rfl
  | append call attributes => exact append_err_grows h (hsound.sized call rfl) hb
  | acked => obtain ⟨rfl, -⟩ := acked_err h; exact hsame rfl
  | record => obtain ⟨rfl, -⟩ := record_err h; exact hsame rfl

/-! ## Every step -/

/-- The state of the engine and of every section in flight. -/
abbrev Sound : EngineWorld → Prop := Holds Below fun _ a => Produces a

theorem step_sound (hw : Sound w) (hok : sized l) (h : (machine cfg).step w l = some w') :
    Sound w' ∧ Grows w.shared w'.shared := by
  have henv {ev : Env} {s : Engine} (he : env w.shared ev = some s) :
      s.partitions = w.shared.partitions := (env_untouched he).2
  constructor
  · refine hw.step h ?_ ?_ ?_ ?_
    · rintro r rfl a ha
      cases r with
      | produce call =>
        refine ⟨?_, Request.start_sound (r := .produce call) hok a ha⟩
        rw [mem_singleton.1 ha]
        exact ⟨_, rfl⟩
      | _ => cases hok
    · intro ev s hl he
      exact ⟨hw.1.of_eq (henv he), fun b _ hb => hb⟩
    · intro i c a rest s next hl hat ha he
      obtain ⟨⟨-, hbelow⟩, hnext⟩ := run_grows ha (exec_ok he) hw.1
      exact ⟨hbelow, hnext, fun b _ _ hb => hb⟩
    · intro i c a rest s err hl hat ha he
      exact ⟨(run_err_grows ha (exec_err he) hw.1).2, fun b _ hb => hb⟩
  · cases l with
    | spawn r =>
      cases h
      exact .of_eq rfl
    | env ev =>
      obtain ⟨s, he, rfl⟩ := step_env h
      exact .of_eq (henv he)
    | run i c =>
      obtain ⟨a, rest, hat, he | he⟩ := step_run h
      · exact (run_grows (hw.2 a hat.pending) (exec_ok he) hw.1).1.1
      · exact (run_err_grows (hw.2 a hat.pending) (exec_err he) hw.1).1

/-- An interval starts at the next offset and ends below the one after it. -/
theorem mem_assigned (hw : Sound w) (hfits : fits w (.run i c))
    (h : (machine cfg).step w (.run i c) = some w') {x : Assigned}
    (hx : x ∈ assigned cfg w i c) :
    assigned cfg w i c = [x] ∧ x.base = w.shared.nextOffset x.tp ∧ x.base ≤ x.last ∧
      x.last < w'.shared.nextOffset x.tp ∧ x.last + 1 < 2 ^ 63 := by
  unfold assigned at hx
  split at hx
  · next call attributes rest htask =>
    split at hx
    · next s _ _ ack happ =>
      obtain rfl := mem_singleton.1 hx
      have hat : At w i (.produce (.append call attributes)) rest := htask
      have hsized := (hw.2 _ hat.pending).2.sized call rfl
      obtain ⟨hspec, ack', hnext, hbase, hlast⟩ := append_appended happ
      cases hnext
      have hs : w'.shared = s := by
        obtain ⟨a, rest', hat', @⟨s', next, he⟩ | @⟨s', err, he⟩⟩ := step_run h <;>
          rw [At, hat.get] at hat' <;> cases hat'
        · have hrun : Produce.append cfg w.shared c call attributes = .ok s' next := exec_ok he
          rw [happ] at hrun
          cases hrun
          rfl
        · have hrun : Produce.append cfg w.shared c call attributes = .err s' err := exec_err he
          rw [happ] at hrun
          cases hrun
      have hroom : w.shared.nextOffset call.topition + call.batch.lastOffsetDelta + 1 < 2 ^ 63 := by
        simpa only [fits, htask, decide_eq_true_eq] using hfits
      refine ⟨by simp only [assigned, htask, happ], hbase, ?_, ?_, ?_⟩
      · dsimp only
        omega
      · dsimp only
        rw [hs, hspec.nextOffset, if_pos rfl]
        omega
      · dsimp only
        omega
    · cases hx
  · cases hx

structure Inv (p : EngineWorld × List Assigned) : Prop where
  sound : Sound p.1
  below : ∀ a ∈ p.2, a.last < p.1.shared.nextOffset a.tp
  disjoint : Disjoint p.2
  inRange : ∀ a ∈ p.2, a.last + 1 < 2 ^ 63

theorem Inv.step (hi : Inv (w, history)) (hok : sized l) (hfits : fits w l)
    (hs : (machine cfg).step w l = some w') : Inv (w', observe cfg history w l w') := by
  obtain ⟨hsound, hgrows⟩ := step_sound hi.sound hok hs
  have hold : ∀ a ∈ history, a.last < w'.shared.nextOffset a.tp := fun a ha =>
    Int.lt_of_lt_of_le (hi.below a ha) (hgrows a.tp).1
  cases l with
  | spawn | env => exact ⟨hsound, hold, hi.disjoint, hi.inRange⟩
  | run i c =>
    have hnew {a : Assigned} := @mem_assigned _ _ _ _ _ hi.sound hfits hs a
    refine ⟨hsound, fun a ha => ?_, ⟨fun a ha => ?_, ?_⟩, fun a ha => ?_⟩
    · rcases mem_append.1 ha with ha | ha
      · exact hold a ha
      · exact (hnew ha).2.2.2.1
    · rcases mem_append.1 ha with ha | ha
      · exact hi.disjoint.1 a ha
      · exact (hnew ha).2.2.1
    · -- The new interval starts at the next offset, above all the old ones.
      refine pairwise_append.2 ⟨hi.disjoint.2, ?_, fun a ha b hb htp => ?_⟩
      · cases hgiven : assigned cfg w i c with
        | nil => exact .nil
        | cons x rest =>
          have hx := (hnew (a := x) (hgiven ▸ mem_cons_self)).1
          rw [hgiven] at hx
          rw [hx]
          exact pairwise_singleton _ _
      · have hb' := (hnew hb).2.1
        have ha' := hi.below a ha
        dsimp only at ha'
        rw [hb', ← htp]
        exact ha'
    · rcases mem_append.1 ha with ha | ha
      · exact hi.inRange a ha
      · exact (hnew ha).2.2.2.2

theorem inv_opened : Inv (opened, []) := by
  refine ⟨⟨fun tp o entry he => ?_, fun a ha => ?_⟩, by simp, ⟨by simp, .nil⟩, by simp⟩
  · simp [indexed?, opened, Engine.opened] at he
  · obtain ⟨todo, hmem, -⟩ := ha
    cases hmem

/-- **Offsets are dense and unique** when every batch covers at least one offset and the
next offset behind it fits an `i64`.  An append takes the next offset, which is above every
interval that was given out, and moves it just past its own; since all sums stay in range,
these are the offsets that the code computes. -/
theorem offsets_dense {p : EngineWorld × List Assigned}
    (h : (system cfg).Reach (fun p l => sized l && fits p.1 l) (opened, []) p) :
    Disjoint p.2 ∧ (∀ a ∈ p.2, a.last + 1 < 2 ^ 63) ∧
      ∀ l p', sized l = true → fits p.1 l = true → (system cfg).step p l = some p' →
        Grows p.1.shared p'.1.shared := by
  have hi : Inv p := h.invariant_observe inv_opened fun hi hok hs =>
    hi.step (Bool.and_eq_true_iff.1 hok).1 (Bool.and_eq_true_iff.1 hok).2 hs
  exact ⟨hi.disjoint, hi.inRange,
    fun l p' hok _ hs => (step_sound hi.sound hok (observe_step hs).1).2⟩

/-- Two calls on one partition, section by section in turn. -/
def twoCalls (delta : Int) : List EngineLabel :=
  let call (len : Nat) : Request := .produce ⟨none, ⟨"p", 0⟩,
    ⟨0, delta, 0, -1, -1, -1, .client len⟩⟩
  [.spawn (call 10), .spawn (call 20), .run 0 {}, .run 1 {}, .run 0 {}, .run 1 {}, .run 0 {}]

/-- What the appends of a run have given out. -/
def gave (intervals : List (Int × Int)) (p : EngineWorld × List Assigned) : Bool :=
  decide (p.2 = intervals.map fun (base, last) => ⟨⟨"p", 0⟩, base, last⟩)

theorem offsets_dense_twoCalls : ∃ p,
    (system {}).Reach (fun p l => sized l && fits p.1 l) (opened, []) p ∧
      gave [(0, 2), (3, 5)] p ∧ Disjoint p.2 ∧ (∀ a ∈ p.2, a.last + 1 < 2 ^ 63) ∧
      ∀ l p', sized l = true → fits p.1 l = true → (system {}).step p l = some p' →
        Grows p.1.shared p'.1.shared := by
  exact (exists_reach (twoCalls 2 ++ [.run 1 {}]) (by decide +kernel)).imp
    fun p h => ⟨h.1, h.2, offsets_dense h.1⟩

/-! ### A batch that claims no record -/

/-- Only produce calls run; their batches are any. -/
def produceOnly : EngineLabel → Bool
  | .spawn (.produce _) => true
  | .spawn _ => false
  | _ => true

/-- The second of two batches with the delta -1 takes the offset and the index
entry of the first. -/
theorem empty_batches_share_offset : ∃ p p' l,
    (system {}).Reach (fun _ l => produceOnly l = true) (opened, []) p ∧
      produceOnly l = true ∧ (system {}).step p l = some p' ∧
      ¬ Disjoint p'.2 ∧ ¬ Grows p.1.shared p'.1.shared := by
  have h : ((system {}).trace (fun _ l => produceOnly l = true) (opened, []) (twoCalls (-1))).any
      (fun p => ((system {}).step p (.run 1 {})).any fun p' =>
        gave [(0, -1), (0, -1)] p' &&
          decide ((indexed? p.1.shared ⟨"p", 0⟩ 0).isSome ∧
            indexed? p'.1.shared ⟨"p", 0⟩ 0 ≠ indexed? p.1.shared ⟨"p", 0⟩ 0)) = true := by
    decide +kernel
  obtain ⟨p, hp, hb⟩ := reach_of_any h
  obtain ⟨p', hs, hb⟩ := (Option.any_eq_true _ _).1 hb
  obtain ⟨hgave, hentry⟩ := Bool.and_eq_true_iff.1 hb
  obtain ⟨hsome, hne⟩ := of_decide_eq_true hentry
  refine ⟨p, p', _, hp, rfl, hs, fun hd => ?_, fun hg => ?_⟩
  · have hmem : (⟨⟨"p", 0⟩, 0, -1⟩ : Assigned) ∈ p'.2 := by
      rw [of_decide_eq_true hgave]
      simp
    exact absurd (hd.1 _ hmem) (by decide)
  · obtain ⟨entry, he⟩ := isSome_iff_exists.1 hsome
    exact hne (by rw [(hg ⟨"p", 0⟩).2 0 entry he, he])

end Dense

end Tansu.Nvme
