import Tansu.Dynostore.Placement

/-!
# Read committed isolation

A fetch reads the open transactions and the high watermark one after the other, and
from them computes the last stable offset that bounds what it returns.  A produce of a
transaction takes its offset before the offset goes into the range of its transaction.
The batches of an open transaction stay above the bound of every fetch that is under
way as long as these two pairs of steps do not overlap, and as long as a transaction is
told of its batches in order and not before it has begun.
-/

namespace Tansu.Dynostore.Engine.Isolation

open Std Tansu.Lib System Machine List Option Tansu.Nvme.CoordState
open Tansu.Nvme (Topition Batch BatchAttribute CoordState TxnDetail TxnState TxnProduceOffset
  TxnEnd ProduceCall Error)

/-! ## The batches of a transaction -/

/-- Records that a transaction produces. -/
def txnData (call : ProduceCall) : Bool :=
  call.transactionId.isSome &&
    match BatchAttribute.tryFrom call.batch.attributes with
    | .ok attributes => attributes.transaction && !attributes.control
    | .error _ => false

/-- A data batch of a transaction, by its partition and base offset. -/
structure Member where
  transactionId : String
  producerEpoch : Int
  topition : Topition
  offset : Int
deriving DecidableEq

namespace Member

def detail? (coord : CoordState) (m : Member) : Option TxnDetail :=
  coord.detail? m.transactionId m.producerEpoch

def isOpen (coord : CoordState) (m : Member) : Bool := (m.detail? coord).any (·.isOpen)

/-- The transaction has not ended, and has not started again without ranges. -/
def lives (coord : CoordState) (m : Member) : Bool :=
  (m.detail? coord).any fun d => !d.isTerminal && (d.range? m.topition).isSome

end Member

/-- The data batch that task `i` adds to a transaction. -/
def recorded (w : EngineWorld) (i : Nat) (c : Choice) : List Member :=
  match w.tasks[i]? with
  | some (.produce (.record t call offset) :: _) =>
    if txnData call && !c.fault then [⟨t, call.batch.producerEpoch, call.topition, offset⟩] else []
  | _ => []

/-- A batch belongs to its transaction until the transaction ends. -/
def observer (members : List Member) (w : EngineWorld) (l : EngineLabel) (w' : EngineWorld) :
    List Member :=
  (match l with
    | .run i c => members ++ recorded w i c
    | _ => members).filter (·.lives w'.shared.metadata.coord)

def system (cfg : Config) : System (EngineWorld × List Member) EngineLabel :=
  (machine cfg).system.observe observer

/-- No batch of an open transaction is in the answer of a fetch that reads committed
data, and the last stable offset that was computed is not above the first offset of an
open transaction. -/
structure Isolated (p : EngineWorld × List Member) : Prop where
  committed : ∀ k stage batches, Pending p.1 (.fetch (.received k stage batches)) →
    k.isolation = .readCommitted → ∀ m ∈ p.2, m.topition = k.topition →
    m.isOpen p.1.shared.metadata.coord = true → ∀ e ∈ batches, e.1 ≠ m.offset
  stable : ∀ k stage, Pending p.1 (.fetch (.list k stage)) → ∀ m ∈ p.2,
    m.topition = k.topition → m.isOpen p.1.shared.metadata.coord = true →
    stage.lastStable ≤ m.offset

/-! ## Steps that do not overlap -/

/-- Data of a transaction has taken its offset and has not been added to its range. -/
def recording (tp : Topition) : Section → Bool
  | .produce (.record _ call _) => txnData call && decide (call.topition = tp)
  | _ => false

/-- A fetch has read the open transactions, and not the high watermark. -/
def staging (tp : Topition) : Section → Bool
  | .fetch (.watermark k _) => decide (k.topition = tp)
  | _ => false

def anyPending (w : EngineWorld) (f : Section → Bool) : Bool := w.tasks.any fun todo => todo.any f

/-- The transaction has begun, and the batch comes after those it has on the partition. -/
def inOrder (s : Objects) (t : String) (call : ProduceCall) (offset : Int) : Bool :=
  (s.metadata.coord.detail? t call.batch.producerEpoch).all fun d =>
    d.isTerminal || (d.state.isSome && (d.range? call.topition).all (·.offsetStart ≤ offset))

def allowed (w : EngineWorld) : EngineLabel → Bool
  | .run i c =>
    match w.tasks[i]? with
    | some (.fetch (.stage k) :: _) => !anyPending w (recording k.topition) && c.current
    | some (.fetch (.watermark ..) :: _) => c.current
    | some (.produce (.watermark call) :: _) =>
      !txnData call || !anyPending w (staging call.topition)
    | some (.produce (.record t call offset) :: _) =>
      !txnData call || inOrder w.shared t call offset
    | _ => true
  | l => sized l

variable {cfg : Config} {c : Choice} {s s' : Objects} {a : Section} {w w' : EngineWorld}
  {l : EngineLabel} {i : Nat} {rest : List Section} {k : Consumer} {call : ProduceCall}
  {t : String} {e offset : Int} {tp : Topition} {members : List Member} {m : Member}
  {d d' : TxnDetail} {r r' : TxnProduceOffset}

theorem not_pending {f : Section → Bool} (h : (!anyPending w f) = true) (hp : Pending w a) :
    f a = false := by
  obtain ⟨todo, htodo, ha⟩ := hp
  simp only [anyPending, Bool.not_eq_true', List.any_eq_false, Bool.not_eq_true] at h
  exact h todo htodo a ha

theorem allowed_sized (h : allowed w l = true) : sized l = true := by
  cases l with
  | run i c => rfl
  | _ => exact h

theorem allowed_stage (h : allowed w (.run i c) = true) (hat : At w i (.fetch (.stage k)) rest)
    (hp : Pending w (.produce (.record t call offset))) (hdata : txnData call = true) :
    call.topition ≠ k.topition := by
  rw [allowed, hat.get] at h
  have hnot := not_pending (Bool.and_eq_true_iff.1 h).1 hp
  simpa [recording, hdata] using hnot

variable {stable : Option Int} {store : Meta} {p : EngineWorld × List Member} {x : Int}
  {stage : OffsetStage} {b : Section} {p' : EngineWorld × List Member}

theorem allowed_watermark (h : allowed w (.run i c) = true)
    (hat : At w i (.produce (.watermark call)) rest) (hdata : txnData call = true)
    (hp : Pending w (.fetch (.watermark k stable))) : k.topition ≠ call.topition := by
  rw [allowed, hat.get] at h
  simp only [hdata, Bool.not_true, Bool.false_or] at h
  have hnot := not_pending h hp
  simpa [staging] using hnot

theorem allowed_record (h : allowed w (.run i c) = true)
    (hat : At w i (.produce (.record t call offset)) rest) (hdata : txnData call = true)
    (hd : w.shared.metadata.coord.detail? t call.batch.producerEpoch = some d)
    (hlive : d.isTerminal = false) :
    d.isOpen = true ∧ ∀ r, d.range? call.topition = some r → r.offsetStart ≤ offset := by
  rw [allowed, hat.get] at h
  simp only [hdata, Bool.not_true, Bool.false_or, inOrder, hd, all_some, hlive,
    Bool.and_eq_true] at h
  refine ⟨by simp [TxnDetail.isOpen, hlive, h.1], fun r hr => ?_⟩
  have hall := h.2
  rw [hr] at hall
  exact of_decide_eq_true hall

/-! ## Ranges -/

/-- A range that is there after a step was there before, under a transaction that stays
open if it was, or is the one that a produce has just started. -/
theorem Effect.range (h : Effect s a s') (hd : s'.metadata.coord.detail? t e = some d')
    (hr : d'.range? tp = some r') :
    (∃ d r, s.metadata.coord.detail? t e = some d ∧ d.range? tp = some r ∧
      r'.offsetStart = r.offsetStart ∧ (d.isOpen = true → d'.isOpen = true)) ∨
    ∃ call offset, a = .produce (.record t call offset) ∧ call.topition = tp ∧
      r'.offsetStart = offset ∧
      ∀ d, s.metadata.coord.detail? t e = some d → d.range? tp = none := by
  have hsame (heq : s'.metadata.coord.detail? t e = s.metadata.coord.detail? t e) :
      ∃ d r, s.metadata.coord.detail? t e = some d ∧ d.range? tp = some r ∧
        r'.offsetStart = r.offsetStart ∧ (d.isOpen = true → d'.isOpen = true) :=
    ⟨d', r', heq ▸ hd, hr, rfl, id⟩
  have hmodify {t' : String} {e' : Int} {f : TxnDetail → TxnDetail}
      (hs : s'.metadata.coord = s.metadata.coord.modifyDetail t' e' f)
      (hf : ∀ d, (f d).range? tp = some r' → d.range? tp = some r' ∧
        (d.isOpen = true → (f d).isOpen = true)) :
      ∃ d r, s.metadata.coord.detail? t e = some d ∧ d.range? tp = some r ∧
        r'.offsetStart = r.offsetStart ∧ (d.isOpen = true → d'.isOpen = true) := by
    rw [hs, detail?_modifyDetail] at hd
    split at hd
    · obtain ⟨d, hold, rfl⟩ := map_eq_some_iff.1 hd
      obtain ⟨hr, hopen⟩ := hf d hr
      exact ⟨d, r', hold, hr, rfl, hopen⟩
    · exact ⟨d', r', hd, hr, rfl, id⟩
  cases h with
  | idle | sink | watermark | put | offset | allocateIdempotent => exact .inl (hsame rfl)
  | sequence call =>
    obtain ⟨producers, hp⟩ := validateSequence_fst s.metadata.coord call.batch.producerId
      call.batch.producerEpoch call.batch.baseSequence call.batch.lastOffsetDelta call.topition
    refine .inl (hsame ?_)
    simp only [Objects.setCoord, Produce.validated, hp]
    rfl
  | record t' call offset =>
    simp only [Produce.record, Objects.setCoord, detail?_modifyDetail] at hd
    split at hd
    · next heq =>
      obtain ⟨rfl, rfl⟩ := heq
      obtain ⟨d, hold, rfl⟩ := map_eq_some_iff.1 hd
      rw [TxnDetail.range?_extend] at hr
      split at hr
      · next htp =>
        cases hrange : d.range? tp with
        | none =>
          rw [hrange] at hr
          cases hr
          refine .inr ⟨call, offset, rfl, htp, rfl, fun d₀ hd₀ => ?_⟩
          rw [hold] at hd₀
          cases hd₀
          exact hrange
        | some r =>
          rw [hrange] at hr
          cases hr
          exact .inl ⟨d, r, hold, hrange, rfl, id⟩
      · exact .inl ⟨d, r', hold, hr, rfl, id⟩
    · exact .inl ⟨d', r', hd, hr, rfl, id⟩
  | allocate t' timeout pid epoch hnew =>
    simp only [Objects.setCoord] at hd
    rw [detail?_allocate] at hd
    split at hd
    · split at hd
      · cases hd
        simp [TxnDetail.range?] at hr
      · cases hd
    · exact .inl ⟨d', r', hd, hr, rfl, id⟩
  | bumpEpoch t' timeout pid epoch txn current htxn hcurrent =>
    simp only [Objects.setCoord] at hd
    rw [detail?_bumpEpoch (by simp [CoordState.producer?, htxn])] at hd
    split at hd
    · cases hd
      simp [TxnDetail.range?] at hr
    · exact .inl ⟨d', r', hd, hr, rfl, id⟩
  | addPartitions now t' pid epoch partitions d hd' =>
    refine .inl (hmodify rfl fun d hr => ?_)
    rw [TxnDetail.range?_begin] at hr
    split at hr
    · cases hr
    · exact ⟨hr, fun _ => rfl⟩
  | offsetCommit => exact .inl (hmodify rfl fun d hr => ⟨hr, id⟩)
  | prepare call d hd' hbegin =>
    refine .inl (hmodify rfl fun d hr => ⟨hr, fun _ => ?_⟩)
    cases call.committed <;> rfl
  | resolve call d₀ hd₀ hprepared =>
    simp only [Meta.resolve_coord] at hd
    rcases (resolve_resolved s.metadata.coord call).detail_cases hd with hd |
      ⟨-, -, d, state, -, -, -, -, rfl, -⟩
    · exact .inl ⟨d', r', hd, hr, rfl, id⟩
    · simp at hr

theorem mem_starts :
    x ∈ (store.coord.transactions.values.flatMap fun txn =>
      (txn.epochs.values.filter fun detail => detail.state.any fun state =>
        !state.isTerminal).filterMap fun detail => (detail.range? tp).map (·.offsetStart)) ↔
    ∃ t e d r, store.coord.detail? t e = some d ∧ d.isOpen = true ∧ d.range? tp = some r ∧
      r.offsetStart = x := by
  have hopen (d : TxnDetail) : (d.state.any fun state => !state.isTerminal) = d.isOpen := by
    rw [TxnDetail.isOpen, TxnDetail.isTerminal]
    cases d.state <;> rfl
  simp only [mem_flatMap, List.mem_filterMap, List.mem_filter, BTreeMap.mem_values, hopen,
    map_eq_some_iff]
  constructor
  · rintro ⟨txn, ⟨t, ht⟩, d, ⟨⟨e, he⟩, hd⟩, r, hr, hx⟩
    exact ⟨t, e, d, r, by simp [CoordState.detail?, ht, he], hd, hr, hx⟩
  · rintro ⟨t, e, d, r, hd, hopen, hr, hx⟩
    obtain ⟨txn, ht, he⟩ := bind_eq_some_iff.1 hd
    exact ⟨txn, ⟨t, ht⟩, d, ⟨⟨e, he⟩, hopen⟩, r, hr, hx⟩

theorem range_step (hs : (machine cfg).step w l = some w')
    (hd : w'.shared.metadata.coord.detail? t e = some d') (hr : d'.range? tp = some r') :
    (∃ d r, w.shared.metadata.coord.detail? t e = some d ∧ d.range? tp = some r ∧
      r'.offsetStart = r.offsetStart ∧ (d.isOpen = true → d'.isOpen = true)) ∨
    ∃ call offset, Pending w (.produce (.record t call offset)) ∧ call.topition = tp ∧
      r'.offsetStart = offset ∧
      ∀ d, w.shared.metadata.coord.detail? t e = some d → d.range? tp = none := by
  cases l with
  | env e => exact nomatch e
  | spawn r =>
    cases hs
    exact .inl ⟨d', r', hd, hr, rfl, id⟩
  | run i c =>
    obtain ⟨a, rest, hat, heffect⟩ := effect_of_step hs
    rcases Effect.range heffect hd hr with hold | ⟨call, offset, rfl, hnew⟩
    · exact .inl hold
    · exact .inr ⟨call, offset, hat.pending, hnew⟩

/-- The last stable offset of a partition is not above the range of an open transaction. -/
theorem stable_le (hd : store.coord.detail? t e = some d) (hopen : d.isOpen = true)
    (hr : d.range? tp = some r) : ∃ x, store.stable tp = some x ∧ x ≤ r.offsetStart := by
  have hmem := mem_starts.2 ⟨t, e, d, r, hd, hopen, hr, rfl⟩
  cases hx : store.stable tp with
  | none =>
    rw [min?_eq_none_iff.1 hx] at hmem
    cases hmem
  | some x => exact ⟨x, rfl, (min?_eq_some_iff.1 hx).2 _ hmem⟩

theorem exists_of_stable (h : store.stable tp = some x) :
    ∃ t e d r, store.coord.detail? t e = some d ∧ d.range? tp = some r ∧ r.offsetStart = x := by
  obtain ⟨t, e, d, r, hd, -, hr, hx⟩ := mem_starts.1 (min?_mem h)
  exact ⟨t, e, d, r, hd, hr, hx⟩

/-! ## Invariants -/

/-- The batches of open transactions, now and later, lie at or above a bound. -/
structure Above (w : EngineWorld) (members : List Member) (tp : Topition) (bound : Int) : Prop where
  members : ∀ m ∈ members, m.topition = tp → bound ≤ m.offset
  records : ∀ t call offset, Pending w (.produce (.record t call offset)) →
    txnData call = true → call.topition = tp → bound ≤ offset
  high : bound ≤ w.shared.high tp

/-- Between the two reads of a fetch: the batches of open transactions are those that the
first read has seen. -/
structure Staged (w : EngineWorld) (members : List Member) (tp : Topition) (stable : Option Int) :
    Prop where
  members : ∀ m ∈ members, m.topition = tp → ∃ x, stable = some x ∧ x ≤ m.offset
  records : ∀ t call offset, Pending w (.produce (.record t call offset)) →
    txnData call = true → call.topition ≠ tp
  high : ∀ x, stable = some x → x ≤ w.shared.high tp

def Held (w : EngineWorld) (members : List Member) : FetchStep → Prop
  | .stage _ => True
  | .watermark k stable => Staged w members k.topition stable
  | .list k stage => Above w members k.topition stage.lastStable
  | .get k stage wanted _ batches => Above w members k.topition stage.lastStable ∧
      (k.isolation = .readCommitted → (∀ base ∈ wanted, base < stage.lastStable) ∧
        ∀ e ∈ batches, e.1 < stage.lastStable)
  | .received k stage batches => Above w members k.topition stage.lastStable ∧
      (k.isolation = .readCommitted → ∀ e ∈ batches, e.1 < stage.lastStable)

structure Inv (p : EngineWorld × List Member) : Prop where
  placed : Placed p.1
  /-- An offset was taken before it goes into a range. -/
  records : ∀ t call offset, Pending p.1 (.produce (.record t call offset)) →
    offset ≤ p.1.shared.high call.topition
  ranges : ∀ t e d tp r, p.1.shared.metadata.coord.detail? t e = some d →
    d.range? tp = some r → r.offsetStart ≤ p.1.shared.high tp
  members : ∀ m ∈ p.2, ∃ d r, m.detail? p.1.shared.metadata.coord = some d ∧ d.isOpen = true ∧
    d.range? m.topition = some r ∧ r.offsetStart ≤ m.offset
  fetches : ∀ step, Pending p.1 (.fetch step) → Held p.1 p.2 step

/-! ### What a step adds -/

theorem record_step (h : (machine cfg).step w l = some w')
    (hp : Pending w' (.produce (.record t call offset))) :
    Pending w (.produce (.record t call offset)) ∨ ∃ i c rest, l = .run i c ∧
      At w i (.produce (.watermark call)) rest ∧ offset = w.shared.high call.topition ∧
      w'.shared.high call.topition = w.shared.high call.topition +
        call.batch.lastOffsetDelta + 1 := by
  cases l with
  | env e => exact nomatch e
  | spawn r =>
    cases h
    rcases pending_spawn hp with hp | hp
    · exact .inl hp
    · cases r with
      | offsetCommit group offsets =>
        obtain ⟨_, -, heq⟩ := List.mem_map.1 hp
        cases heq
      | _ => cases mem_singleton.1 hp
  | run i c =>
    obtain ⟨a, rest, hat, he | he⟩ := step_run h
    · rcases pending_ok hat hp with hnext | hp
      · cases mem_next he hnext with
        | record t call attributes ht hattr htxn =>
          refine .inr ⟨i, c, rest, rfl, hat, rfl, ?_⟩
          dsimp only
          rw [(watermark_exec he).1, Objects.high_advance, if_pos rfl]
      · exact .inl hp
    · exact .inl (pending_err hat hp)

theorem mem_observer (hm : m ∈ observer members w l w') :
    m.lives w'.shared.metadata.coord = true ∧
      (m ∈ members ∨ ∃ i c t call offset rest, l = .run i c ∧
      At w i (.produce (.record t call offset)) rest ∧ txnData call = true ∧ c.fault = false ∧
      m = ⟨t, call.batch.producerEpoch, call.topition, offset⟩) := by
  obtain ⟨hmem, hlives⟩ := List.mem_filter.1 hm
  refine ⟨hlives, ?_⟩
  cases l with
  | spawn r => exact .inl hmem
  | env e => exact .inl hmem
  | run i c =>
    rcases mem_append.1 hmem with hmem | hmem
    · exact .inl hmem
    · unfold recorded at hmem
      split at hmem
      · next t call offset rest hat =>
        split at hmem
        · next hcond =>
          simp only [Bool.and_eq_true, Bool.not_eq_true'] at hcond
          exact .inr ⟨i, c, t, call, offset, rest, rfl, hat, hcond.1, hcond.2,
            mem_singleton.1 hmem⟩
        · cases hmem
      · cases hmem

theorem Above.step {bound : Int} (hsized : ∀ a, Pending w a → a.Sized)
    (hs : (machine cfg).step w l = some w') (h : Above w members tp bound) :
    Above w' (observer members w l w') tp bound := by
  have hmono : w.shared.high tp ≤ w'.shared.high tp := high_step hsized hs
  refine ⟨fun m hm htp => ?_, fun t call offset hp hdata htp => ?_, h.high.trans hmono⟩
  · rcases (mem_observer hm).2 with hm | ⟨i, c, t, call, offset, rest, -, hat, hdata, -, rfl⟩
    · exact h.members m hm htp
    · exact h.records t call offset hat.pending hdata htp
  · rcases record_step hs hp with hp | ⟨i, c, rest, -, hat, rfl, -⟩
    · exact h.records t call offset hp hdata htp
    · rw [htp]
      exact h.high

theorem Staged.step (hsized : ∀ a, Pending w a → a.Sized) (hs : (machine cfg).step w l = some w')
    (hclear : ∀ i c call rest, l = .run i c → At w i (.produce (.watermark call)) rest →
      txnData call = true → call.topition ≠ tp) (h : Staged w members tp stable) :
    Staged w' (observer members w l w') tp stable := by
  have hmono : w.shared.high tp ≤ w'.shared.high tp := high_step hsized hs
  refine ⟨fun m hm htp => ?_, fun t call offset hp hdata => ?_,
    fun x hx => (h.high x hx).trans hmono⟩
  · rcases (mem_observer hm).2 with hm | ⟨i, c, t, call, offset, rest, -, hat, hdata, -, rfl⟩
    · exact h.members m hm htp
    · exact absurd htp (h.records t call offset hat.pending hdata)
  · rcases record_step hs hp with hp | ⟨i, c, rest, hl, hat, -, -⟩
    · exact h.records t call offset hp hdata
    · exact hclear i c call rest hl hat hdata

theorem Held.step {step : FetchStep} (hsized : ∀ a, Pending w a → a.Sized)
    (hs : (machine cfg).step w l = some w')
    (hclear : ∀ k stable, step = .watermark k stable → ∀ i c call rest, l = .run i c →
      At w i (.produce (.watermark call)) rest → txnData call = true → call.topition ≠ k.topition)
    (h : Held w members step) : Held w' (observer members w l w') step := by
  cases step with
  | stage k => trivial
  | watermark k stable => exact Staged.step hsized hs (hclear k stable rfl) h
  | list k stage => exact Above.step hsized hs h
  | get k stage wanted bytes batches | received k stage batches =>
    exact ⟨h.1.step hsized hs, h.2⟩

/-! ### The fetch -/

theorem Staged.above (h : Staged w members k.topition stable) :
    Above w members k.topition (Fetch.stage w.shared k stable).lastStable := by
  cases stable with
  | none =>
    refine ⟨fun m hm htp => ?_, fun t call offset hp hdata htp => ?_, Int.le_refl _⟩
    · obtain ⟨x, hx, -⟩ := h.members m hm htp
      cases hx
    · exact absurd htp (h.records t call offset hp hdata)
  | some y =>
    refine ⟨fun m hm htp => ?_, fun t call offset hp hdata htp => ?_, h.high y rfl⟩
    · obtain ⟨x, hx, hle⟩ := h.members m hm htp
      cases hx
      exact hle
    · exact absurd htp (h.records t call offset hp hdata)

/-- The first read sees every batch of an open transaction. -/
theorem Inv.staged (hi : Inv p) (hok : allowed p.1 (.run i c) = true)
    (hat : At p.1 i (.fetch (.stage k)) rest) :
    Staged p.1 p.2 k.topition (p.1.shared.metadata.stable k.topition) := by
  refine ⟨fun m hm htp => ?_, fun t call offset hp hdata => allowed_stage hok hat hp hdata,
    fun x hx => ?_⟩
  · obtain ⟨d, r, hd, hopen, hr, hle⟩ := hi.members m hm
    obtain ⟨x, hx, hxr⟩ := stable_le hd hopen hr
    exact ⟨x, htp ▸ hx, hxr.trans hle⟩
  · obtain ⟨t, e, d, r, hd, hr, rfl⟩ := exists_of_stable hx
    exact hi.ranges t e d _ r hd hr

theorem lt_bound_of_mem_wanted {base : Int}
    (h : base ∈ Fetch.wanted k.position (Fetch.offsets s c k stage)) :
    base < Fetch.bound k.isolation stage :=
  (Fetch.mem_offsets.1 (Fetch.mem_of_mem_wanted h)).2.2.2

theorem Held.get {wanted : List Int} {bytes : Nat} {batches : List (Int × Batch)}
    {next : List Section} (h : Held w members (.get k stage wanted bytes batches))
    (he : Fetch.get w.shared c k stage bytes batches wanted = .ok s' next) (hb : b ∈ next) :
    ∃ step, b = .fetch step ∧ Held w members step := by
  obtain ⟨habove, hbelow⟩ := h
  cases wanted with
  | nil =>
    cases he
    cases mem_singleton.1 hb
    exact ⟨_, rfl, habove, fun hiso => (hbelow hiso).2⟩
  | cons base rest =>
    have hrest (hiso : k.isolation = .readCommitted) : ∀ base ∈ rest, base < stage.lastStable :=
      fun base' hbase' => (hbelow hiso).1 base' (mem_cons_of_mem _ hbase')
    have hpush {batch : Batch} (hiso : k.isolation = .readCommitted) :
        ∀ e ∈ batches ++ [(base, batch)], e.1 < stage.lastStable := by
      intro e he
      rcases mem_append.1 he with he | he
      · exact (hbelow hiso).2 e he
      · rw [mem_singleton.1 he]
        exact (hbelow hiso).1 base mem_cons_self
    simp only [Fetch.get] at he
    split at he
    · cases he
    · split at he <;> split at he <;> cases he <;> cases mem_singleton.1 hb
      · exact ⟨_, rfl, habove, hpush⟩
      · exact ⟨_, rfl, habove, fun hiso => ⟨hrest hiso, hpush hiso⟩⟩
      · exact ⟨_, rfl, habove, fun hiso => (hbelow hiso).2⟩
      · exact ⟨_, rfl, habove, fun hiso => ⟨hrest hiso, (hbelow hiso).2⟩⟩

/-- **The fetch.**  Its first read fixes a bound, and it returns nothing from there on. -/
theorem Inv.next {step : FetchStep} {next : List Section} (hi : Inv p)
    (hok : allowed p.1 (.run i c) = true) (hat : At p.1 i (.fetch step) rest)
    (he : Fetch.exec p.1.shared c step = .ok s' next) (hb : b ∈ next) :
    ∃ step', b = .fetch step' ∧ Held p.1 p.2 step' := by
  have h := hi.fetches step hat.pending
  cases step with
  | received k stage batches =>
    cases he
    split at hb
    · cases mem_singleton.1 hb
      exact ⟨_, rfl, trivial⟩
    · cases hb
  | stage k =>
    simp only [Fetch.exec] at he
    split at he
    · cases he
    · cases he
      cases mem_singleton.1 hb
      have hstaged := hi.staged hok hat
      rw [allowed, hat.get] at hok
      rw [Choice.reads_of_current (Bool.and_eq_true_iff.1 hok).2]
      exact ⟨_, rfl, hstaged⟩
  | watermark k stable =>
    simp only [Fetch.exec] at he
    split at he
    · cases he
    · cases he
      cases mem_singleton.1 hb
      rw [allowed, hat.get] at hok
      rw [Choice.reads_of_current hok]
      exact ⟨_, rfl, Staged.above h⟩
  | list k stage =>
    simp only [Fetch.exec] at he
    split at he
    · cases he
    · cases he
      cases mem_singleton.1 hb
      refine ⟨_, rfl, h, fun hiso => ⟨fun base hbase => ?_, fun e he => absurd he not_mem_nil⟩⟩
      have hlt := lt_bound_of_mem_wanted hbase
      rwa [hiso] at hlt
  | get k stage wanted bytes batches =>
    simp only [Fetch.exec] at he
    split at he
    · cases he
    · exact Held.get h he hb

/-! ## Whole runs -/

/-- A batch that is added to the range of its transaction lies in it. -/
theorem Inv.record (hok : allowed p.1 (.run i c) = true)
    (hat : At p.1 i (.produce (.record t call offset)) rest) (hdata : txnData call = true)
    (hfault : c.fault = false) (hs : (machine cfg).step p.1 (.run i c) = some p'.1)
    (hd : p'.1.shared.metadata.coord.detail? t call.batch.producerEpoch = some d')
    (hlive : d'.isTerminal = false) (hr : d'.range? call.topition = some r') :
    d'.isOpen = true ∧ r'.offsetStart ≤ offset := by
  have hshared : p'.1.shared = Produce.record p.1.shared t call offset := by
    have hexec : (machine cfg).exec p.1.shared c (.produce (.record t call offset)) =
        .ok (Produce.record p.1.shared t call offset) [] := by
      simp [machine, exec, Produce.exec, hfault]
    simp only [Machine.step, hat.get, hexec] at hs
    rw [← Option.some.inj hs]
  rw [hshared] at hd
  simp only [Produce.record, Objects.setCoord, detail?_modifyDetail, and_self,
    if_true] at hd
  obtain ⟨d, hold, rfl⟩ := map_eq_some_iff.1 hd
  obtain ⟨hopen, hstart⟩ := allowed_record hok hat hdata hold hlive
  refine ⟨hopen, ?_⟩
  rw [TxnDetail.range?_extend, if_pos rfl] at hr
  cases hrange : d.range? call.topition with
  | none =>
    rw [hrange] at hr
    cases hr
    exact Int.le_refl _
  | some r =>
    rw [hrange] at hr
    cases hr
    exact hstart r hrange

theorem Inv.step {p p' : EngineWorld × List Member} (hi : Inv p) (hok : allowed p.1 l = true)
    (h : (system cfg).step p l = some p') : Inv p' := by
  obtain ⟨hs, hhist⟩ := observe_step h
  have hs : (machine cfg).step p.1 l = some p'.1 := hs
  have hmono (tp : Topition) : p.1.shared.high tp ≤ p'.1.shared.high tp :=
    high_step hi.placed.sized hs
  refine ⟨hi.placed.step (allowed_sized hok) hs, fun t call offset hp => ?_,
    fun t e d tp r hd hr => ?_, fun m hm => ?_, fun step hp => ?_⟩
  · rcases record_step hs hp with hp | ⟨i, c, rest, -, hat, rfl, -⟩
    · exact (hi.records t call offset hp).trans (hmono _)
    · exact hmono _
  · rcases range_step hs hd hr with
      ⟨d₀, r₀, hd₀, hr₀, hstart, -⟩ | ⟨call, offset, hp, rfl, hstart, -⟩
    · rw [hstart]
      exact (hi.ranges t e d₀ tp r₀ hd₀ hr₀).trans (hmono tp)
    · rw [hstart]
      exact (hi.records t call offset hp).trans (hmono _)
  · rw [hhist] at hm
    obtain ⟨hlives, hcase⟩ := mem_observer hm
    obtain ⟨d', hd', hcond⟩ := (Option.any_eq_true _ _).1 hlives
    simp only [Bool.and_eq_true, Bool.not_eq_true'] at hcond
    obtain ⟨r', hr'⟩ := isSome_iff_exists.1 hcond.2
    refine ⟨d', r', hd', ?_⟩
    rcases hcase with hm | ⟨i, c, t, call, offset, rest, rfl, hat, hdata, hfault, rfl⟩
    · obtain ⟨d, r, hd, hopen, hr, hle⟩ := hi.members m hm
      rcases range_step hs hd' hr' with ⟨d₀, r₀, hd₀, hr₀, hstart, hkeep⟩ | ⟨-, -, -, -, -, hnone⟩
      · obtain rfl := Option.some.inj (hd.symm.trans hd₀)
        obtain rfl := Option.some.inj (hr.symm.trans hr₀)
        exact ⟨hkeep hopen, hr', by omega⟩
      · rw [hnone d hd] at hr
        cases hr
    · obtain ⟨hopen, hle⟩ := Inv.record hok hat hdata hfault hs hd' hcond.1 hr'
      exact ⟨hopen, hr', hle⟩
  · rw [hhist]
    have hold {step : FetchStep} (hp : Pending p.1 (.fetch step)) :
        Held p'.1 (observer p.2 p.1 l p'.1) step := by
      refine (hi.fetches step hp).step hi.placed.sized hs ?_
      rintro k stable rfl i c call rest rfl hat hdata
      exact (allowed_watermark hok hat hdata hp).symm
    cases l with
    | env e => exact nomatch e
    | spawn r =>
      rw [← Option.some.inj hs] at hp
      rcases pending_spawn hp with hp | hp
      · exact hold hp
      · cases r with
        | consume tp isolation start =>
          cases mem_singleton.1 hp
          trivial
        | offsetCommit group offsets =>
          obtain ⟨_, -, heq⟩ := List.mem_map.1 hp
          cases heq
        | _ => cases mem_singleton.1 hp
    | run i c =>
      generalize p'.1 = w' at *
      obtain ⟨a, rest, hat, he | he⟩ := step_run hs
      · rcases pending_ok hat hp with hnext | hp
        · cases mem_next he hnext with
          | fetch step₀ =>
            obtain ⟨step', hstep, hheld⟩ := hi.next hok hat he hnext
            cases hstep
            refine hheld.step hi.placed.sized hs ?_
            rintro k stable rfl i' c' call rest' hl hat'
            -- The section that has run is a fetch.
            cases hl
            rw [At, hat.get] at hat'
            cases hat'
        · exact hold hp
      · exact hold (pending_err hat hp)

section Runs

variable {topics : BTreeMap Tansu.Nvme.Topic Tansu.Nvme.TopicMetadata}
  {p : EngineWorld × List Member}

theorem inv_opened : Inv (opened topics, []) := by
  have hnone (a : Section) : ¬ Pending (opened topics) a := by
    rintro ⟨todo, hmem, -⟩
    cases hmem
  refine ⟨placed_opened, fun _ _ _ hp => absurd hp (hnone _), fun t e d tp r hd => ?_,
    fun m hm => absurd hm not_mem_nil, fun _ hp => absurd hp (hnone _)⟩
  simp [opened, CoordState.detail?] at hd

/-- **Read committed isolation**, if no transactional batch is between its offset and its
range when a fetch reads the open transactions, none takes its offset between the two
reads of a fetch, and transactions are told of their batches in order once they have
begun.  The range of an open transaction starts at or below its batches, so the last stable
offset of a fetch bounds them all, and stays below those that come later (`Above`). -/
theorem read_committed_isolated
    (h : (system cfg).Reach (fun p l => allowed p.1 l = true) (opened topics, []) p) :
    Isolated p := by
  have hi : Inv p := h.invariant inv_opened fun _ hi hok hs => hi.step hok hs
  refine ⟨fun k stage batches hp hiso m hm htp _ e he heq => ?_, fun k stage hp m hm htp _ => ?_⟩
  · obtain ⟨habove, hbelow⟩ := hi.fetches _ hp
    have hle := habove.members m hm htp
    have hlt := hbelow hiso e he
    omega
  · exact (hi.fetches _ hp).members m hm htp

end Runs

/-! ### A transaction and a consumer -/

/-- Three records of no transaction. -/
def plain : EngineLabel :=
  .spawn (.produce ⟨none, Schedule.partition, ⟨0, 2, 0, -1, -1, -1, .client 1⟩⟩)

/-- The transaction `t` is registered by task `i`, and begins. -/
def begins (i : Nat) : List EngineLabel :=
  [Schedule.register "t", .run i {}, .spawn (.txnAddPartitions "t" 1 0 [Schedule.partition]),
    .run (i + 1) {}]

def consume : EngineLabel := .spawn (.consume Schedule.partition .readCommitted 0)

/-- The batch at `offset` is of the open transaction `t`, and the fetch of task `i` comes back
with the last stable offset `stable` and with the batches at `bases`. -/
def answers (offset : Int) (i : Nat) (stable : Int) (bases : List Int)
    (p : EngineWorld × List Member) : Bool :=
  decide (p.2 = [⟨"t", 0, Schedule.partition, offset⟩]) &&
    p.2.all (·.isOpen p.1.shared.metadata.coord) &&
    match (p.1.tasks[i]? : Option (List Section)) with
    | some [.fetch (.received k stage batches)] =>
      decide (k.topition = Schedule.partition ∧ k.isolation = .readCommitted ∧
        stage.lastStable = stable ∧ batches.map Prod.fst = bases)
    | _ => false

/-- The consumer comes after the batch of the transaction, and stops before it. -/
def afterwards : List EngineLabel :=
  plain :: Schedule.turns 0 3 ++ begins 1 ++ Schedule.data "t" 1 0 :: Schedule.turns 3 4 ++
    consume :: Schedule.turns 4 5

theorem read_committed_isolated_afterwards : ∃ p,
    (system {}).Reach (fun p l => allowed p.1 l = true) (Schedule.store, []) p ∧
      answers 3 4 3 [0] p = true ∧ Isolated p := by
  exact (exists_reach afterwards (by decide +kernel)).imp
    fun p h => ⟨h.1, h.2, read_committed_isolated h.1⟩

/-- The transaction produces between the two reads of the consumer's fetch. -/
def between : List EngineLabel :=
  begins 0 ++ consume :: .run 2 {} :: Schedule.data "t" 1 0 :: Schedule.turns 3 4 ++
    Schedule.turns 2 4

/-- The last stable offset lies above the first offset of a transaction that is open
throughout, and the consumer is given its batch. -/
theorem open_batch_is_returned : ∃ p,
    (system {}).Reach (fun _ l => sized l = true) (Schedule.store, []) p ∧
      answers 0 2 3 [0] p = true ∧ ¬ Isolated p := by
  refine (exists_reach between (by decide +kernel)).imp
    fun p h => ⟨h.1, h.2, fun hisolated => ?_⟩
  obtain ⟨-, hans⟩ := h
  simp only [answers, Bool.and_eq_true, decide_eq_true_eq] at hans
  obtain ⟨⟨hmembers, hopen⟩, hfetch⟩ := hans
  have hm : ⟨"t", 0, Schedule.partition, 0⟩ ∈ p.2 := by simp [hmembers]
  have hopen := List.all_eq_true.1 hopen _ hm
  split at hfetch
  · next k stage batches htask =>
    obtain ⟨htp, hiso, -, hbases⟩ := of_decide_eq_true hfetch
    have hp : Pending p.1 (.fetch (.received k stage batches)) :=
      ⟨_, mem_of_getElem? htask, mem_singleton.2 rfl⟩
    have hbase : (0 : Int) ∈ batches.map Prod.fst := by simp [hbases]
    obtain ⟨e, he, heq⟩ := List.mem_map.1 hbase
    exact hisolated.committed k stage batches hp hiso _ hm htp.symm hopen e he heq
  · cases hfetch

end Tansu.Dynostore.Engine.Isolation
