import Tansu.Dynostore.Sections

/-!
# Where batches are placed

A produce takes its offsets by advancing the high watermark and stores its batch
later, if it does.  The offsets of the batches that are stored and of those on their
way never overlap, and lie below the high watermark; so a put never finds an object of
its name.
-/

namespace Tansu.Dynostore.Engine

open Std Tansu.Lib Machine List BTreeMap
open Tansu.Nvme (Topition Batch BatchAttribute CoordState Error ProduceCall)

variable {cfg : Config} {c : Choice} {s s' : Objects} {a b : Section} {next rest : List Section}
  {e : Error} {w w' : EngineWorld} {l : EngineLabel} {i : Nat} {tp : Topition}
  {offset delta : Int} {batch : Batch}

/-! ## Logs and high watermarks -/

theorem Objects.log_putBatch {tp' : Topition} :
    (s.putBatch tp offset batch).log tp' =
      if tp = tp' then (s.log tp').insert offset batch else s.log tp' := by
  simp only [log, putBatch, getElem?_insert_eq]
  split
  · next h =>
    subst h
    rfl
  · rfl

theorem Objects.high_advance {tp' : Topition} : (s.advance tp delta).high tp' =
    if tp = tp' then s.high tp' + delta + 1 else s.high tp' := by
  simp only [high, watermark, advance, getElem?_insert_eq]
  split
  · next h =>
    subst h
    rfl
  · rfl

/-- Batches are stored by puts, and never replaced. -/
theorem Effect.log (h : Effect s a s') : (∀ tp, s'.log tp = s.log tp) ∨
    ∃ call offset, a = .produce (.put call offset) ∧ offset ∉ s.log call.topition ∧
      ∀ tp, s'.log tp = if call.topition = tp then (s.log tp).insert offset call.batch
        else s.log tp := by
  cases h with
  | put call offset hnew => exact .inr ⟨call, offset, rfl, hnew, fun tp => Objects.log_putBatch⟩
  | _ => exact .inl fun _ => rfl

/-- Watermarks are advanced by produces. -/
theorem Effect.high (h : Effect s a s') : (∀ tp, s'.high tp = s.high tp) ∨
    ∃ call, (a = .produce (.watermark call) ∨ a = .produce (.sink call)) ∧
      ∀ tp, s'.high tp = if call.topition = tp then s.high tp + call.batch.lastOffsetDelta + 1
        else s.high tp := by
  cases h with
  | watermark call => exact .inr ⟨call, .inl rfl, fun tp => Objects.high_advance⟩
  | sink call => exact .inr ⟨call, .inr rfl, fun tp => Objects.high_advance⟩
  | _ => exact .inl fun _ => rfl

theorem Effect.getElem?_log (h : Effect s a s') (hb : (s.log tp)[offset]? = some batch) :
    (s'.log tp)[offset]? = some batch := by
  rcases h.log with hsame | ⟨call, offset', -, hnew, hlog⟩
  · rw [hsame, hb]
  · rw [hlog]
    split
    · next htp =>
      subst htp
      rw [getElem?_insert_eq, if_neg, hb]
      rintro rfl
      exact hnew (mem_iff_exists.2 ⟨batch, hb⟩)
    · exact hb

theorem getElem?_log_step (h : (machine cfg).step w l = some w')
    (hb : (w.shared.log tp)[offset]? = some batch) : (w'.shared.log tp)[offset]? = some batch := by
  cases l with
  | env e => exact nomatch e
  | spawn r =>
    cases h
    exact hb
  | run i c =>
    obtain ⟨a, rest, -, heffect⟩ := effect_of_step h
    exact heffect.getElem?_log hb

theorem mem_log_step (h : (machine cfg).step w l = some w') (hb : offset ∈ w.shared.log tp) :
    offset ∈ w'.shared.log tp := by
  obtain ⟨batch, hb⟩ := mem_iff_exists.1 hb
  exact mem_iff_exists.2 ⟨batch, getElem?_log_step h hb⟩

/-! ## Batches have records -/

/-- The produce that a section belongs to. -/
def Section.call? : Section → Option ProduceCall
  | .produce (.config call) | .produce (.sink call) | .produce (.sequence call)
  | .produce (.schema call) | .produce (.watermark call) | .produce (.lake call _)
  | .produce (.record _ call _) | .produce (.put call _) => some call
  | _ => none

def Section.Sized (a : Section) : Prop :=
  ∀ call, a.call? = some call → 0 ≤ call.batch.lastOffsetDelta

/-- A batch holds at least one record. -/
def sized : EngineLabel → Bool
  | .spawn (.produce call) => decide (0 ≤ call.batch.lastOffsetDelta)
  | _ => true

theorem Leads.call (h : Leads s a b) : b.call? = a.call? ∨ b.call? = none ∨
    ∃ call tp, b = .produce (.config (Transactions.marker call tp)) := by
  cases h with
  | marker call tp => exact .inr (.inr ⟨call, tp, rfl⟩)
  | rollback | again | resolve | commit | expired | handler | offset | fetch =>
      exact .inr (.inl rfl)
  | _ => exact .inl rfl

theorem Leads.sized (h : Leads s a b) (ha : a.Sized) : b.Sized := by
  intro call hcall
  rcases h.call with heq | hnone | ⟨txn, tp, rfl⟩
  · exact ha call (heq ▸ hcall)
  · rw [hnone] at hcall
    cases hcall
  · cases hcall
    exact Int.le_refl 0

theorem start_sized {r : Request} (h : sized (.spawn r) = true) : ∀ a ∈ r.start, a.Sized := by
  intro a ha call hcall
  cases r with
  | produce call' =>
    rw [mem_singleton.1 ha] at hcall
    cases hcall
    exact of_decide_eq_true h
  | offsetCommit group offsets =>
    obtain ⟨_, -, rfl⟩ := List.mem_map.1 ha
    cases hcall
  | _ =>
    rw [mem_singleton.1 ha] at hcall
    cases hcall

/-! ## Offsets that are taken -/

/-- The offsets from `offset` to `offset + delta` are taken, by a batch that is stored or
by one that is on its way. -/
inductive Taken (w : EngineWorld) (tp : Topition) (offset delta : Int) : Prop
  | stored (batch : Batch) (hb : (w.shared.log tp)[offset]? = some batch)
      (hd : batch.lastOffsetDelta = delta)
  | inFlight (call : ProduceCall) (hp : Pending w (.produce (.put call offset)))
      (htp : call.topition = tp) (hd : call.batch.lastOffsetDelta = delta)

/-- Counts the puts to one offset. -/
def putsAt (tp : Topition) (offset : Int) : Section → Nat
  | .produce (.put call offset') => if call.topition = tp ∧ offset' = offset then 1 else 0
  | _ => 0

structure Placed (w : EngineWorld) : Prop where
  sized : ∀ a, Pending w a → a.Sized
  nonneg : ∀ tp offset delta, Taken w tp offset delta → 0 ≤ delta
  below : ∀ tp offset delta, Taken w tp offset delta → offset + delta < w.shared.high tp
  apart : ∀ tp offset delta offset' delta', Taken w tp offset delta →
    Taken w tp offset' delta' → offset < offset' → offset + delta < offset'
  once : ∀ tp offset, weight (putsAt tp offset) w +
    (if offset ∈ w.shared.log tp then 1 else 0) ≤ 1

theorem putsAt_pos (h : 0 < putsAt tp offset a) :
    ∃ call, a = .produce (.put call offset) ∧ call.topition = tp := by
  cases a with
  | produce step =>
    cases step with
    | put call offset' =>
      simp only [putsAt] at h
      split at h
      · next heq =>
        obtain ⟨htp, rfl⟩ := heq
        exact ⟨call, rfl, htp⟩
      · cases h
    | _ => cases h
  | _ => cases h

theorem weight_putsAt_eq_zero (h : ∀ delta, ¬ Taken w tp offset delta) :
    weight (putsAt tp offset) w = 0 := by
  refine weight_eq_zero fun b hb => ?_
  by_contra hne
  obtain ⟨call, rfl, htp⟩ := putsAt_pos (Nat.pos_of_ne_zero hne)
  exact h _ (.inFlight call hb htp rfl)

/-- No two puts are on their way to one offset, and none to one that is stored. -/
theorem Placed.not_mem_log {call : ProduceCall} (hw : Placed w)
    (hp : Pending w (.produce (.put call offset))) : offset ∉ w.shared.log call.topition := by
  intro hmem
  have hone := hw.once call.topition offset
  have hle := hp.le_weight (f := putsAt call.topition offset)
  simp only [putsAt, and_self, if_true] at hle
  rw [if_pos hmem] at hone
  omega

/-- A batch that is stored has its offsets for itself. -/
theorem Placed.delta_eq (hw : Placed w) (ht : Taken w tp offset delta)
    (hb : (w.shared.log tp)[offset]? = some batch) : delta = batch.lastOffsetDelta := by
  cases ht with
  | stored batch' hb' hd =>
    rw [hb] at hb'
    cases hb'
    exact hd.symm
  | inFlight call hp htp hd =>
    subst htp
    exact absurd (mem_iff_exists.2 ⟨batch, hb⟩) (hw.not_mem_log hp)

/-! ## What a step takes -/

theorem mem_next_put {call : ProduceCall} (h : exec cfg s c a = .ok s' next)
    (hb : .produce (.put call offset) ∈ next) :
    a = .produce (.watermark call) ∧ offset = s.high call.topition := by
  cases mem_next h hb with
  | put => exact ⟨rfl, rfl⟩

theorem sum_putsAt_placed {call : ProduceCall} {attributes : BatchAttribute} :
    ((Produce.placed cfg call attributes offset).map (putsAt tp delta)).sum =
      if call.topition = tp ∧ offset = delta then 1 else 0 := by
  obtain ⟨front, heq, hfront⟩ := Produce.placed_eq cfg call attributes offset
  have hzero : (front.map (putsAt tp delta)).sum = 0 := by
    refine sum_eq_zero fun n hn => ?_
    obtain ⟨b, hb, rfl⟩ := List.mem_map.1 hn
    rcases hfront b hb with rfl | ⟨t, -, -, rfl⟩ <;> rfl
  rw [heq, map_append, sum_append, hzero]
  simp [putsAt]

theorem sum_putsAt_eq_zero (h : ∀ call, .produce (.put call offset) ∉ next) :
    (next.map (putsAt tp offset)).sum = 0 := by
  refine sum_eq_zero fun n hn => ?_
  obtain ⟨b, hb, rfl⟩ := List.mem_map.1 hn
  by_contra hne
  obtain ⟨call, rfl, -⟩ := putsAt_pos (Nat.pos_of_ne_zero hne)
  exact h call hb

theorem sum_putsAt_next (h : exec cfg s c a = .ok s' next)
    (ha : ∀ call, a ≠ .produce (.watermark call)) : (next.map (putsAt tp offset)).sum = 0 :=
  sum_putsAt_eq_zero fun call hb => ha call (mem_next_put h hb).1

theorem watermark_exec {call : ProduceCall}
    (h : exec cfg s c (.produce (.watermark call)) = .ok s' next) :
    s' = s.advance call.topition call.batch.lastOffsetDelta ∧
      ∃ attributes, BatchAttribute.tryFrom call.batch.attributes = .ok attributes ∧
        next = Produce.placed cfg call attributes (s.high call.topition) := by
  simp only [exec, Produce.exec] at h
  split at h
  · cases h
  · exact Produce.watermark_ok h

theorem stored_step (h : (machine cfg).step w l = some w')
    (hb : (w'.shared.log tp)[offset]? = some batch) :
    (w.shared.log tp)[offset]? = some batch ∨
      (offset ∉ w.shared.log tp ∧ Taken w tp offset batch.lastOffsetDelta) := by
  cases l with
  | env e => exact nomatch e
  | spawn r =>
    cases h
    exact .inl hb
  | run i c =>
    obtain ⟨a, rest, hat, heffect⟩ := effect_of_step h
    rcases heffect.log with hsame | ⟨call, offset', rfl, hnew, hlog⟩
    · rw [hsame] at hb
      exact .inl hb
    · rw [hlog] at hb
      split at hb
      · next htp =>
        subst htp
        rw [getElem?_insert_eq] at hb
        split at hb
        · next heq =>
          subst heq
          cases hb
          exact .inr ⟨hnew, .inFlight call hat.pending rfl rfl⟩
        · exact .inl hb
      · exact .inl hb

/-- What a step takes is the room that a watermark was advanced by. -/
theorem taken_step (h : (machine cfg).step w l = some w') (ht : Taken w' tp offset delta) :
    Taken w tp offset delta ∨ ∃ i c call rest, l = .run i c ∧
      At w i (.produce (.watermark call)) rest ∧
      w'.shared = w.shared.advance call.topition call.batch.lastOffsetDelta ∧
      call.topition = tp ∧ call.batch.lastOffsetDelta = delta ∧ offset = w.shared.high tp := by
  cases l with
  | env e => exact nomatch e
  | spawn r =>
    left
    cases h
    cases ht with
    | stored batch hb hd => exact .stored batch hb hd
    | inFlight call hp htp hd =>
      rcases pending_spawn hp with hp | hp
      · exact .inFlight call hp htp hd
      · cases r with
        | offsetCommit group offsets =>
          obtain ⟨_, -, heq⟩ := List.mem_map.1 hp
          cases heq
        | _ => cases mem_singleton.1 hp
  | run i c =>
    obtain ⟨a, rest, hat, hcase⟩ := step_run h
    cases ht with
    | stored batch hb hd =>
      left
      rcases stored_step h hb with hb | ⟨-, ht⟩
      · exact .stored batch hb hd
      · exact hd ▸ ht
    | inFlight call hp htp hd =>
      rcases hcase with he | he
      · rcases pending_ok hat hp with hnext | hp
        · obtain ⟨rfl, rfl⟩ := mem_next_put he hnext
          refine .inr ⟨i, c, call, rest, rfl, hat, (watermark_exec he).1, htp, hd, ?_⟩
          rw [htp]
        · exact .inl (.inFlight call hp htp hd)
      · exact .inl (.inFlight call (pending_err hat hp) htp hd)

theorem high_step (hsized : ∀ a, Pending w a → a.Sized) (h : (machine cfg).step w l = some w') :
    w.shared.high tp ≤ w'.shared.high tp := by
  cases l with
  | env e => exact nomatch e
  | spawn r =>
    cases h
    exact Int.le_refl _
  | run i c =>
    obtain ⟨a, rest, hat, heffect⟩ := effect_of_step h
    rcases heffect.high with hsame | ⟨call, ha, hhigh⟩
    · rw [hsame]
    · have hd : 0 ≤ call.batch.lastOffsetDelta := by
        refine hsized a hat.pending call ?_
        rcases ha with rfl | rfl <;> rfl
      rw [hhigh]
      split <;> omega

theorem Placed.weight_run (hw : Placed w) (h : (machine cfg).step w (.run i c) = some w') :
    weight (putsAt tp offset) w' + (if offset ∈ w'.shared.log tp then 1 else 0) ≤ 1 := by
  have hone := hw.once tp offset
  obtain ⟨a, rest, hat, @⟨s, next, he⟩ | @⟨s, e, he⟩⟩ := step_run h
  · have hweight : weight (putsAt tp offset) ⟨s, w.tasks.set i (next ++ rest)⟩ +
      putsAt tp offset a =
        weight (putsAt tp offset) w + (next.map (putsAt tp offset)).sum := weight_ok hat
    by_cases hwm : ∃ call, a = .produce (.watermark call)
    · obtain ⟨call, rfl⟩ := hwm
      obtain ⟨rfl, attributes, -, rfl⟩ := watermark_exec he
      rw [sum_putsAt_placed] at hweight
      have hlog : (w.shared.advance call.topition call.batch.lastOffsetDelta).log tp =
          w.shared.log tp := rfl
      dsimp only
      rw [hlog]
      simp only [putsAt, Nat.add_zero] at hweight
      split at hweight
      · next heq =>
        obtain ⟨rfl, rfl⟩ := heq
        -- Nothing is taken from the high watermark on.
        have hfree : ∀ delta, ¬ Taken w call.topition (w.shared.high call.topition) delta := by
          intro delta ht
          have hlt := hw.below _ _ _ ht
          have hnn := hw.nonneg _ _ _ ht
          omega
        have hzero := weight_putsAt_eq_zero hfree
        have hnot : w.shared.high call.topition ∉ w.shared.log call.topition := by
          intro hmem
          obtain ⟨batch, hb⟩ := mem_iff_exists.1 hmem
          exact hfree _ (.stored batch hb rfl)
        rw [if_neg hnot]
        omega
      · omega
    · rw [sum_putsAt_next he fun call heq => hwm ⟨call, heq⟩] at hweight
      rcases (exec_ok_effect he).log with hsame | ⟨call, offset', rfl, hnew, hlog⟩
      · dsimp only
        rw [hsame]
        omega
      · dsimp only
        rw [hlog]
        by_cases hkey : call.topition = tp ∧ offset' = offset
        · obtain ⟨rfl, rfl⟩ := hkey
          rw [if_neg hnew] at hone
          simp only [putsAt, and_self, if_true] at hweight
          simp only [if_true, ExtTreeMap.mem_insert, compare_self, true_or]
          omega
        · have hmem : offset ∈ (if call.topition = tp then
              (w.shared.log tp).insert offset' call.batch else w.shared.log tp) ↔
              offset ∈ w.shared.log tp := by
            split
            · next htp =>
              have hne : offset' ≠ offset := fun heq => hkey ⟨htp, heq⟩
              simp [hne]
            · rfl
          simp only [putsAt, if_neg hkey, Nat.add_zero] at hweight
          simp only [hmem]
          omega
  · have hweight : weight (putsAt tp offset) ⟨s, w.tasks.set i ((machine cfg).unwind rest)⟩ +
        putsAt tp offset a ≤ weight (putsAt tp offset) w := weight_err hat
    have hlog : s.log tp = w.shared.log tp := by
      rcases (exec_err_effect he).1.log with hsame | ⟨call, offset', rfl, hnew, -⟩
      · exact hsame tp
      · have he : exec cfg w.shared c (.produce (.put call offset')) = .err s e := he
        simp only [exec, Produce.exec] at he
        split at he
        · cases he
          rfl
        · rw [Produce.put_err he]
    dsimp only
    rw [hlog]
    omega

/-- **Placement.**  A step keeps the offsets that are taken apart. -/
theorem Placed.step (hw : Placed w) (hok : Engine.sized l = true)
    (h : (machine cfg).step w l = some w') : Placed w' := by
  have hmono (tp : Topition) : w.shared.high tp ≤ w'.shared.high tp := high_step hw.sized h
  have hcall {i : Nat} {rest : List Section} {call : ProduceCall}
      (hat : At w i (.produce (.watermark call)) rest) : 0 ≤ call.batch.lastOffsetDelta :=
    hw.sized _ hat.pending call rfl
  refine ⟨?_, fun tp offset delta ht => ?_, fun tp offset delta ht => ?_,
    fun tp offset delta offset' delta' ht ht' hlt => ?_, fun tp offset => ?_⟩
  · cases l with
    | env e => exact nomatch e
    | spawn r =>
      cases h
      intro a ha
      rcases pending_spawn ha with ha | ha
      · exact hw.sized a ha
      · exact start_sized hok a ha
    | run i c =>
      intro b hb
      obtain ⟨a, rest, hat, he | he⟩ := step_run h
      · rcases pending_ok hat hb with hnext | hb
        · exact (mem_next he hnext).sized (hw.sized a hat.pending)
        · exact hw.sized b hb
      · exact hw.sized b (pending_err hat hb)
  · rcases taken_step h ht with ht | ⟨i, c, call, rest, -, hat, -, -, rfl, -⟩
    · exact hw.nonneg tp offset delta ht
    · exact hcall hat
  · rcases taken_step h ht with ht | ⟨i, c, call, rest, -, hat, hs, rfl, rfl, rfl⟩
    · have hlt := hw.below tp offset delta ht
      have hle := hmono tp
      omega
    · rw [hs, Objects.high_advance, if_pos rfl]
      omega
  · -- an offset is taken at the high watermark, so of two the new one is the upper one
    rcases taken_step h ht' with ht' | ⟨i', c', call', rest', hl', hat', -, htp', hd', rfl⟩
    · rcases taken_step h ht with ht | ⟨i, c, call, rest, -, hat, -, -, -, rfl⟩
      · exact hw.apart tp offset delta offset' delta' ht ht' hlt
      · have hbelow := hw.below tp offset' delta' ht'
        have hnn := hw.nonneg tp offset' delta' ht'
        omega
    · rcases taken_step h ht with ht | ⟨i, c, call, rest, -, -, -, -, -, rfl⟩
      · exact hw.below tp offset delta ht
      · exact absurd hlt (Int.lt_irrefl _)
  · cases l with
    | env e => exact nomatch e
    | spawn r =>
      cases h
      have hzero : (((machine cfg).start r).map (putsAt tp offset)).sum = 0 := by
        refine sum_putsAt_eq_zero fun call hb => ?_
        cases r with
        | offsetCommit group offsets =>
          obtain ⟨_, -, heq⟩ := List.mem_map.1 hb
          cases heq
        | _ => cases mem_singleton.1 hb
      have hone := hw.once tp offset
      dsimp only
      rw [weight_spawn, hzero]
      exact hone
    | run i c => exact hw.weight_run h

theorem placed_opened {topics : BTreeMap Tansu.Nvme.Topic Tansu.Nvme.TopicMetadata} :
    Placed (opened topics) := by
  have hnone : ∀ tp offset delta, ¬ Taken (opened topics) tp offset delta := by
    intro tp offset delta ht
    cases ht with
    | stored batch hb => simp [opened, Objects.log] at hb
    | inFlight call hp =>
      obtain ⟨todo, hmem, -⟩ := hp
      cases hmem
  refine ⟨fun a ha => ?_, fun tp offset delta ht => absurd ht (hnone _ _ _),
    fun tp offset delta ht => absurd ht (hnone _ _ _),
    fun tp offset delta _ _ ht => absurd ht (hnone _ _ _), fun tp offset => ?_⟩
  · obtain ⟨todo, hmem, -⟩ := ha
    cases hmem
  · rw [weight_putsAt_eq_zero (hnone tp offset)]
    split <;> omega

end Tansu.Dynostore.Engine
