import Tansu.Dynostore.Engine

/-!
# What a section does to the store

One constructor for each kind of write.  A section that fails has written nothing,
except that a sequence stays moved and a watermark stays advanced.
-/

namespace Tansu.Dynostore.Engine

open Std Tansu.Lib List
open Tansu.Nvme (Topition Group Batch BatchAttribute CoordState Txn TxnDetail TxnState TxnEnd
  TxnCommitOffset OffsetCommitRequest Error ProduceCall wrapI16)

variable {cfg : Config} {c : Choice} {s s' : Objects} {a b : Section} {next : List Section}
  {e : Error} {step : OffsetStep} {base : Int}

/-- The update of the metadata that validates a sequence. -/
def Produce.validated (coord : CoordState) (call : ProduceCall) : CoordState :=
  (coord.validateSequence call.batch.producerId call.batch.producerEpoch call.batch.baseSequence
    call.batch.lastOffsetDelta call.topition).1

/-- What one section can make of the store. -/
inductive Effect (s : Objects) : Section → Objects → Prop
  | idle (a : Section) : Effect s a s
  | sequence (call : ProduceCall) :
      Effect s (.produce (.sequence call)) (s.setCoord (Produce.validated s.metadata.coord call))
  | sink (call : ProduceCall) :
      Effect s (.produce (.sink call)) (s.advance call.topition call.batch.lastOffsetDelta)
  | watermark (call : ProduceCall) :
      Effect s (.produce (.watermark call)) (s.advance call.topition call.batch.lastOffsetDelta)
  | record (t : String) (call : ProduceCall) (offset : Int) :
      Effect s (.produce (.record t call offset)) (Produce.record s t call offset)
  | put (call : ProduceCall) (offset : Int) (hnew : offset ∉ s.log call.topition) :
      Effect s (.produce (.put call offset)) (s.putBatch call.topition offset call.batch)
  | allocate (t : String) (timeout : Int) (pid epoch : Option Int)
      (hnew : s.metadata.coord.transactions[t]? = none) :
      Effect s (.txn (.initProducer (some t) timeout pid epoch))
        (s.setCoord (s.metadata.coord.allocate s.metadata.coord.nextProducerId (some t) timeout))
  | bumpEpoch (t : String) (timeout : Int) (pid epoch : Option Int) (txn : Txn) (current : Int)
      (htxn : s.metadata.coord.transactions[t]? = some txn)
      (hcurrent : BTreeMap.lastKey? txn.epochs = some current) :
      Effect s (.txn (.initProducer (some t) timeout pid epoch))
        (s.setCoord (s.metadata.coord.bumpEpoch t txn.producer (wrapI16 (current + 1)) timeout))
  | allocateIdempotent (timeout : Int) (pid epoch : Option Int) :
      Effect s (.txn (.initProducer none timeout pid epoch))
        (s.setCoord (s.metadata.coord.allocate s.metadata.coord.nextProducerId none 0))
  | addPartitions (now : Int) (t : String) (pid epoch : Int) (partitions : List Topition)
      (d : TxnDetail) (hd : s.metadata.coord.txnDetail t pid epoch = .ok d) :
      Effect s (.txn (.addPartitions t pid epoch partitions))
        (Transactions.modify s t epoch (·.begin now partitions))
  | offsetCommit (t : String) (pid epoch : Int) (group : Group)
      (offsets : List (Topition × TxnCommitOffset)) (d : TxnDetail)
      (hd : s.metadata.coord.txnDetail t pid epoch = .ok d) :
      Effect s (.txn (.offsetCommit t pid epoch group offsets))
        (Transactions.modify s t epoch (·.stage group offsets))
  | prepare (call : TxnEnd) (d : TxnDetail)
      (hd : s.metadata.coord.txnDetail call.transactionId call.producerId
        call.producerEpoch = .ok d)
      (hbegin : d.state = some .begin) :
      Effect s (.txn (.prepare call))
        (Transactions.modify s call.transactionId call.producerEpoch (·.prepare call.committed))
  | resolve (call : TxnEnd) (d : TxnDetail)
      (hd : s.metadata.coord.txnDetail call.transactionId call.producerId
        call.producerEpoch = .ok d)
      (hprepared : s.metadata.coord.deferred call = false) :
      Effect s (.txn (.resolve call)) { s with metadata := (s.metadata.resolve call).1 }
  | offset (group : Group) (tp : Topition) (request : OffsetCommitRequest) :
      Effect s (.offsets (.put group tp request))
        { s with offsets := s.offsets.insert (group, tp) request }

/-! ## Inversion -/

namespace Produce

variable {step : ProduceStep} {call : ProduceCall} {offset : Int}

theorem sequence_ok (h : sequence s call = .ok s' next) :
    s' = s.setCoord (validated s.metadata.coord call) ∧ next = [] := by
  simp only [sequence] at h
  split at h
  · cases h
  · cases h
    exact ⟨rfl, rfl⟩

theorem sequence_err (h : sequence s call = .err s' e) :
    s' = s.setCoord (validated s.metadata.coord call) := by
  simp only [sequence] at h
  split at h
  · cases h
    rfl
  · cases h

theorem schema_ok (h : schema s call = .ok s' next) : s' = s ∧ next = [] := by
  unfold schema at h
  split at h
  · cases h
  · cases h
    exact ⟨rfl, rfl⟩

theorem schema_err (h : schema s call = .err s' e) : s' = s := by
  unfold schema at h
  split at h
  · cases h
    rfl
  · cases h

theorem watermark_ok (h : watermark cfg s call = .ok s' next) :
    s' = s.advance call.topition call.batch.lastOffsetDelta ∧
      ∃ attributes, BatchAttribute.tryFrom call.batch.attributes = .ok attributes ∧
        next = placed cfg call attributes (s.high call.topition) := by
  simp only [watermark] at h
  split at h
  · cases h
  · next attributes hattr =>
    cases h
    exact ⟨rfl, attributes, hattr, rfl⟩

theorem watermark_err (h : watermark cfg s call = .err s' e) :
    s' = s.advance call.topition call.batch.lastOffsetDelta := by
  simp only [watermark] at h
  split at h
  · cases h
    rfl
  · cases h

theorem sink_ok (h : sink cfg s call = .ok s' next) :
    s' = s.advance call.topition call.batch.lastOffsetDelta ∧
      (next = [] ∨ next = [.produce (.schema call),
        .produce (.lake call (s.high call.topition))]) := by
  simp only [sink] at h
  split at h
  · split at h
    · cases h
    · cases h
      refine ⟨rfl, ?_⟩
      split
      · exact .inl rfl
      · exact .inr rfl
  · cases h
    exact ⟨rfl, .inl rfl⟩

theorem sink_err (h : sink cfg s call = .err s' e) :
    s' = s.advance call.topition call.batch.lastOffsetDelta := by
  simp only [sink] at h
  split at h
  · split at h
    · cases h
      rfl
    · cases h
  · cases h

theorem put_ok (h : put s call offset = .ok s' next) :
    offset ∉ s.log call.topition ∧ s' = s.putBatch call.topition offset call.batch ∧ next = [] := by
  unfold put at h
  split at h
  · cases h
  · next hnew =>
    cases h
    exact ⟨hnew, rfl, rfl⟩

theorem put_err (h : put s call offset = .err s' e) : s' = s := by
  unfold put at h
  split at h <;> cases h
  rfl

theorem exec_ok (h : exec cfg s c step = .ok s' next) : Effect s (.produce step) s' := by
  simp only [exec] at h
  split at h
  · cases h
  · cases step with
    | config | lake =>
      cases h
      exact .idle _
    | schema call =>
      rw [(schema_ok h).1]
      exact .idle _
    | sink call =>
      rw [(sink_ok h).1]
      exact .sink call
    | sequence call =>
      rw [(sequence_ok h).1]
      exact .sequence call
    | watermark call =>
      rw [(watermark_ok h).1]
      exact .watermark call
    | record t call offset =>
      cases h
      exact .record t call offset
    | put call offset =>
      obtain ⟨hnew, rfl, -⟩ := put_ok h
      exact .put call offset hnew

theorem exec_err (h : exec cfg s c step = .err s' e) : Effect s (.produce step) s' := by
  simp only [exec] at h
  split at h
  · cases h
    exact .idle _
  · cases step with
    | config | lake | record => cases h
    | schema call =>
      rw [schema_err h]
      exact .idle _
    | sink call =>
      rw [sink_err h]
      exact .sink call
    | sequence call =>
      rw [sequence_err h]
      exact .sequence call
    | watermark call =>
      rw [watermark_err h]
      exact .watermark call
    | put call offset =>
      rw [put_err h]
      exact .idle _

end Produce

namespace Transactions

variable {call : TxnEnd} {pid epoch : Option Int} {step : TxnStep}

/-- The open transaction that a producer left behind is rolled back first. -/
theorem initTransactional_ok {t : String} {timeout : Int}
    (h : initTransactional s t timeout pid epoch = .ok s' next) :
    Effect s (.txn (.initProducer (some t) timeout pid epoch)) s' ∧
      (next = [] ∨ ∃ call, next =
        [.txn (.prepare call), .txn (.initProducer (some t) timeout pid epoch)]) := by
  unfold initTransactional at h
  split at h
  · split at h
    · next hnew =>
      cases h
      exact ⟨.allocate t timeout pid epoch hnew, .inl rfl⟩
    · next txn htxn =>
      split at h
      · cases h
      · next current hcurrent =>
        split at h
        · cases h
          exact ⟨.idle _, .inr ⟨_, rfl⟩⟩
        · cases h
          exact ⟨.bumpEpoch t timeout pid epoch txn current htxn hcurrent, .inl rfl⟩
  · cases h
    exact ⟨.idle _, .inl rfl⟩

theorem initIdempotent_ok (timeout : Int) (h : initIdempotent s pid epoch = .ok s' next) :
    Effect s (.txn (.initProducer none timeout pid epoch)) s' ∧ next = [] := by
  unfold initIdempotent at h
  split at h
  · cases h
    exact ⟨.allocateIdempotent timeout pid epoch, rfl⟩
  · cases h
    exact ⟨.idle _, rfl⟩

theorem prepare_ok (h : prepare s call = .ok s' next) :
    ∃ d, s.metadata.coord.txnDetail call.transactionId call.producerId call.producerEpoch = .ok d ∧
      ((d.state = some .begin ∧
          s' = modify s call.transactionId call.producerEpoch (·.prepare call.committed) ∧
          next = d.ranges.keys.map (fun tp => .produce (.config (marker call tp))) ++
            [.txn (.resolve call)]) ∨
        s' = s ∧ next = [.txn (.resolve call)]) := by
  unfold prepare at h
  split at h
  · cases h
  · next d hd =>
    refine ⟨d, hd, ?_⟩
    split at h
    · next hbegin =>
      cases h
      exact .inl ⟨hbegin, rfl, rfl⟩
    · cases h
      exact .inr ⟨rfl, rfl⟩

theorem prepare_err (h : prepare s call = .err s' e) : s' = s := by
  unfold prepare at h
  split at h
  · cases h
    rfl
  · split at h <;> cases h

theorem resolve_ok (h : resolve s call = .ok s' next) :
    ∃ d, s.metadata.coord.txnDetail call.transactionId call.producerId call.producerEpoch = .ok d ∧
      ((s' = s ∧ next = []) ∨
        (s.metadata.coord.deferred call = false ∧
          s' = { s with metadata := (s.metadata.resolve call).1 } ∧
          next = offsetCommits (s.metadata.resolve call).2)) := by
  unfold resolve at h
  split at h
  · cases h
  · next d hd =>
    refine ⟨d, hd, ?_⟩
    split at h
    · cases h
      exact .inl ⟨rfl, rfl⟩
    · next hdef =>
      cases h
      exact .inr ⟨by simpa using hdef, rfl, rfl⟩

theorem resolve_err (h : resolve s call = .err s' e) : s' = s := by
  unfold resolve at h
  split at h
  · cases h
    rfl
  · split at h <;> cases h

theorem exec_ok (h : exec s c step = .ok s' next) : Effect s (.txn step) s' := by
  simp only [exec] at h
  split at h
  · cases h
  · cases step with
    | initProducer t timeout pid epoch =>
      cases t with
      | none => exact (initIdempotent_ok _ h).1
      | some t => exact (initTransactional_ok h).1
    | addPartitions t pid epoch partitions =>
      simp only at h
      split at h
      · cases h
        exact .idle _
      · next d hd =>
        cases h
        exact .addPartitions c.now t pid epoch partitions d hd
    | offsetCommit t pid epoch group offsets =>
      simp only at h
      split at h
      · cases h
        exact .idle _
      · next d hd =>
        cases h
        exact .offsetCommit t pid epoch group offsets d hd
    | prepare call =>
      obtain ⟨d, hd, ⟨hbegin, rfl, -⟩ | ⟨rfl, -⟩⟩ := prepare_ok h
      · exact .prepare call d hd hbegin
      · exact .idle _
    | resolve call =>
      obtain ⟨d, hd, ⟨rfl, -⟩ | ⟨hdef, rfl, -⟩⟩ := resolve_ok h
      · exact .idle _
      · exact .resolve call d hd hdef
    | sweep now =>
      cases h
      exact .idle _

theorem exec_err (h : exec s c step = .err s' e) : s' = s := by
  simp only [exec] at h
  split at h
  · cases h
    rfl
  · cases step with
    | initProducer t timeout pid epoch =>
      cases t with
      | none =>
        simp only [initIdempotent] at h
        split at h <;> cases h
      | some t =>
        simp only [initTransactional] at h
        split at h
        · split at h
          · cases h
          · split at h
            · cases h
            · split at h <;> cases h
        · cases h
    | addPartitions | offsetCommit =>
      simp only at h
      split at h <;> cases h
    | prepare call => exact prepare_err h
    | resolve call => exact resolve_err h
    | sweep => cases h

end Transactions

theorem Offsets.exec_ok (h : exec s c step = .ok s' next) : Effect s (.offsets step) s' := by
  cases step with
  | topic group tp request =>
    simp only [exec] at h
    split at h
    · cases h
    · cases h
      exact .idle _
  | put group tp request =>
    simp only [exec] at h
    cases h
    split
    · exact .idle _
    · exact .offset group tp request

theorem Offsets.exec_err (h : exec s c step = .err s' e) : s' = s := by
  cases step with
  | topic =>
    simp only [exec] at h
    split at h <;> cases h
    rfl
  | put => cases h

theorem Fetch.exec_cases (s : Objects) (c : Choice) (step : FetchStep) :
    (∃ next, Fetch.exec s c step = .ok s next) ∨ ∃ e, Fetch.exec s c step = .err s e := by
  cases step with
  | received k stage batches => exact .inl ⟨_, rfl⟩
  | stage k | watermark k stable | list k stage =>
    simp only [exec]
    split
    · exact .inr ⟨_, rfl⟩
    · exact .inl ⟨_, rfl⟩
  | get k stage wanted bytes batches =>
    simp only [exec]
    split
    · exact .inr ⟨_, rfl⟩
    · cases wanted with
      | nil => exact .inl ⟨_, rfl⟩
      | cons base rest =>
        simp only [get]
        repeat' split
        all_goals first
          | exact .inl ⟨_, rfl⟩
          | exact .inr ⟨_, rfl⟩

variable {step : FetchStep}

theorem Fetch.exec_ok (h : Fetch.exec s c step = .ok s' next) : s' = s := by
  rcases exec_cases s c step with ⟨next, heq⟩ | ⟨e, heq⟩
  all_goals
    rw [heq] at h
    cases h
  rfl

theorem Fetch.exec_err (h : Fetch.exec s c step = .err s' e) : s' = s := by
  rcases exec_cases s c step with ⟨next, heq⟩ | ⟨e, heq⟩
  all_goals
    rw [heq] at h
    cases h
  rfl

theorem exec_ok_effect (h : exec cfg s c a = .ok s' next) : Effect s a s' := by
  cases a with
  | produce step => exact Produce.exec_ok h
  | txn step => exact Transactions.exec_ok h
  | offsets step => exact Offsets.exec_ok h
  | fetch step =>
    obtain rfl := Fetch.exec_ok h
    exact .idle _
  | handler =>
    cases h
    exact .idle _

/-- A section that fails leaves nothing behind, apart from a sequence or a watermark. -/
theorem exec_err_effect (h : exec cfg s c a = .err s' e) : Effect s a s' ∧
    (s' = s ∨ ∃ step, a = .produce step) := by
  cases a with
  | produce step => exact ⟨Produce.exec_err h, .inr ⟨step, rfl⟩⟩
  | txn step =>
    obtain rfl := Transactions.exec_err h
    exact ⟨.idle _, .inl rfl⟩
  | offsets step =>
    obtain rfl := Offsets.exec_err h
    exact ⟨.idle _, .inl rfl⟩
  | fetch step =>
    obtain rfl := Fetch.exec_err h
    exact ⟨.idle _, .inl rfl⟩
  | handler => cases h

theorem effect_of_step {w w' : EngineWorld} {i : Nat}
    (h : (machine cfg).step w (.run i c) = some w') :
    ∃ a rest, Machine.At w i a rest ∧ Effect w.shared a w'.shared := by
  obtain ⟨a, rest, hat, he | he⟩ := Machine.step_run h
  · exact ⟨a, rest, hat, exec_ok_effect he⟩
  · exact ⟨a, rest, hat, (exec_err_effect he).1⟩

/-! ## Resolution -/

namespace Meta

variable {m : Meta} {call : TxnEnd} {refs : List Tansu.Nvme.TxnRef} {acc : Meta × Staged}

/-- The transactions of the metadata move as those of `nvme/state.rs` do. -/
theorem foldl_resolveRef_coord (effs : List Tansu.Nvme.TxnEffects) :
    (refs.foldl resolveRef acc).1.coord =
      (refs.foldl CoordState.resolveRef (acc.1.coord, effs)).1 := by
  induction refs generalizing acc effs with
  | nil => rfl
  | cons ref refs ih =>
    have hone : (resolveRef acc ref).1.coord =
        (CoordState.resolveRef (acc.1.coord, effs) ref).1 := by
      unfold resolveRef CoordState.resolveRef
      cases acc.1.coord.detail? ref.transaction ref.producerEpoch with
      | none => rfl
      | some d =>
        cases hst : CoordState.terminal d.state with
        | none => simp [hst]
        | some state =>
          simp only [hst]
          split <;> rfl
    rw [foldl_cons, foldl_cons, ih (CoordState.resolveRef (acc.1.coord, effs) ref).2, hone]

theorem resolve_coord : (m.resolve call).1.coord = (m.coord.resolve call).1 :=
  foldl_resolveRef_coord []

end Meta

/-! ## What follows a section -/

/-- The sections that a section can put in front of its task. -/
inductive Leads (s : Objects) : Section → Section → Prop
  | sink (call : ProduceCall) : Leads s (.produce (.config call)) (.produce (.sink call))
  | sequence (call : ProduceCall) (hid : call.batch.isIdempotent = true) :
      Leads s (.produce (.config call)) (.produce (.sequence call))
  | schema (call : ProduceCall) : Leads s (.produce (.config call)) (.produce (.schema call))
  | watermark (call : ProduceCall) : Leads s (.produce (.config call)) (.produce (.watermark call))
  | sinkSchema (call : ProduceCall) : Leads s (.produce (.sink call)) (.produce (.schema call))
  | sinkLake (call : ProduceCall) :
      Leads s (.produce (.sink call)) (.produce (.lake call (s.high call.topition)))
  | lake (call : ProduceCall) :
      Leads s (.produce (.watermark call)) (.produce (.lake call (s.high call.topition)))
  | record (t : String) (call : ProduceCall) (attributes : BatchAttribute)
      (ht : call.transactionId = some t)
      (hattr : BatchAttribute.tryFrom call.batch.attributes = .ok attributes)
      (htxn : attributes.transaction = true) :
      Leads s (.produce (.watermark call)) (.produce (.record t call (s.high call.topition)))
  | put (call : ProduceCall) :
      Leads s (.produce (.watermark call)) (.produce (.put call (s.high call.topition)))
  | rollback (t : String) (timeout : Int) (pid epoch : Option Int) (call : TxnEnd) :
      Leads s (.txn (.initProducer (some t) timeout pid epoch)) (.txn (.prepare call))
  | again (t : String) (timeout : Int) (pid epoch : Option Int) :
      Leads s (.txn (.initProducer (some t) timeout pid epoch))
        (.txn (.initProducer (some t) timeout pid epoch))
  | marker (call : TxnEnd) (tp : Topition) :
      Leads s (.txn (.prepare call)) (.produce (.config (Transactions.marker call tp)))
  | resolve (call : TxnEnd) : Leads s (.txn (.prepare call)) (.txn (.resolve call))
  | commit (call : TxnEnd) (group : Group) (tp : Topition) (co : TxnCommitOffset)
      (hprepared : s.metadata.coord.deferred call = false)
      (hco : (s.metadata.resolve call).2[((group, tp) : Group × Topition)]? = some co) :
      Leads s (.txn (.resolve call)) (.offsets (.topic group tp (Transactions.offsetRequest co)))
  | expired (now : Int) (call : TxnEnd) : Leads s (.txn (.sweep now)) (.txn (.prepare call))
  | handler (now : Int) : Leads s (.txn (.sweep now)) .handler
  | offset (group : Group) (tp : Topition) (request : OffsetCommitRequest) :
      Leads s (.offsets (.topic group tp request)) (.offsets (.put group tp request))
  | fetch (step step' : FetchStep) : Leads s (.fetch step) (.fetch step')

theorem Produce.mem_kept {call : ProduceCall} (h : b ∈ kept cfg call) :
    (b = .produce (.sequence call) ∧ call.batch.isIdempotent = true) ∨
      b = .produce (.schema call) ∨ b = .produce (.watermark call) := by
  unfold kept at h
  simp only [mem_append, mem_ite_nil_right, mem_singleton] at h
  tauto

/-- The put comes last. -/
theorem Produce.placed_eq (cfg : Config) (call : ProduceCall) (attributes : BatchAttribute)
    (offset : Int) :
    ∃ front, placed cfg call attributes offset = front ++ [.produce (.put call offset)] ∧
      ∀ b ∈ front, b = .produce (.lake call offset) ∨
        ∃ t, call.transactionId = some t ∧ attributes.transaction = true ∧
          b = .produce (.record t call offset) := by
  refine ⟨_, rfl, fun b hb => ?_⟩
  rcases mem_append.1 hb with hb | hb
  · simp only [mem_ite_nil_right, mem_singleton] at hb
    exact .inl hb.2
  · split at hb
    · next t ht =>
      simp only [mem_ite_nil_right, mem_singleton] at hb
      exact .inr ⟨t, ht, hb.1, hb.2⟩
    · cases hb

theorem Produce.mem_next {step : ProduceStep} (h : exec cfg s c step = .ok s' next)
    (hb : b ∈ next) : Leads s (.produce step) b := by
  simp only [exec] at h
  split at h
  · cases h
  · cases step with
    | config call =>
      cases h
      split at hb
      · rw [mem_singleton.1 hb]
        exact .sink call
      · rcases mem_kept hb with ⟨rfl, hid⟩ | rfl | rfl
        · exact .sequence call hid
        · exact .schema call
        · exact .watermark call
    | sink call =>
      rcases (sink_ok h).2 with rfl | rfl
      · cases hb
      · rcases mem_cons.1 hb with rfl | hb
        · exact .sinkSchema call
        · rw [mem_singleton.1 hb]
          exact .sinkLake call
    | sequence call =>
      rw [(sequence_ok h).2] at hb
      cases hb
    | watermark call =>
      obtain ⟨-, attributes, hattr, rfl⟩ := watermark_ok h
      obtain ⟨front, heq, hfront⟩ := placed_eq cfg call attributes (s.high call.topition)
      rw [heq] at hb
      rcases mem_append.1 hb with hb | hb
      · rcases hfront b hb with rfl | ⟨t, ht, htxn, rfl⟩
        · exact .lake call
        · exact .record t call attributes ht hattr htxn
      · rw [mem_singleton.1 hb]
        exact .put call
    | put call offset =>
      rw [(put_ok h).2.2] at hb
      cases hb
    | schema call =>
      rw [(schema_ok h).2] at hb
      cases hb
    | lake | record =>
      cases h
      cases hb

theorem Transactions.mem_offsetCommits {staged : Staged} : b ∈ offsetCommits staged ↔
    ∃ group tp co, staged[((group, tp) : Group × Topition)]? = some co ∧
      b = .offsets (.topic group tp (offsetRequest co)) := by
  simp only [offsetCommits, List.mem_map]
  constructor
  · rintro ⟨⟨⟨group, tp⟩, co⟩, hmem, rfl⟩
    exact ⟨group, tp, co, ExtTreeMap.mem_toList_iff_getElem?_eq_some.1 hmem, rfl⟩
  · rintro ⟨group, tp, co, hco, rfl⟩
    exact ⟨((group, tp), co), ExtTreeMap.mem_toList_iff_getElem?_eq_some.2 hco, rfl⟩

theorem Transactions.mem_next {step : TxnStep} (h : exec s c step = .ok s' next)
    (hb : b ∈ next) : Leads s (.txn step) b := by
  simp only [exec] at h
  split at h
  · cases h
  · cases step with
    | initProducer t timeout pid epoch =>
      cases t with
      | none =>
        rw [(initIdempotent_ok timeout h).2] at hb
        cases hb
      | some t =>
        rcases (initTransactional_ok h).2 with rfl | ⟨call, rfl⟩
        · cases hb
        · rcases mem_cons.1 hb with rfl | hb
          · exact .rollback t timeout pid epoch call
          · rw [mem_singleton.1 hb]
            exact .again t timeout pid epoch
    | addPartitions | offsetCommit =>
      simp only at h
      split at h <;> cases h <;> cases hb
    | prepare call =>
      obtain ⟨d, -, ⟨-, -, rfl⟩ | ⟨-, rfl⟩⟩ := prepare_ok h
      · rcases mem_append.1 hb with hb | hb
        · obtain ⟨tp, -, rfl⟩ := List.mem_map.1 hb
          exact .marker call tp
        · rw [mem_singleton.1 hb]
          exact .resolve call
      · rw [mem_singleton.1 hb]
        exact .resolve call
    | resolve call =>
      obtain ⟨d, -, ⟨-, rfl⟩ | ⟨hdef, -, rfl⟩⟩ := resolve_ok h
      · cases hb
      · obtain ⟨group, tp, co, hco, rfl⟩ := mem_offsetCommits.1 hb
        exact .commit call group tp co hdef hco
    | sweep now =>
      cases h
      obtain ⟨⟨t, pid, epoch⟩, -, hb⟩ := mem_flatMap.1 hb
      rcases mem_cons.1 hb with rfl | hb
      · exact .expired now _
      · rw [mem_singleton.1 hb]
        exact .handler now

theorem Fetch.mem_next (h : Fetch.exec s c step = .ok s' next) (hb : b ∈ next) :
    ∃ step', b = .fetch step' := by
  cases step with
  | received k stage batches =>
    cases h
    split at hb
    · exact ⟨_, mem_singleton.1 hb⟩
    · cases hb
  | stage k | watermark k stable | list k stage =>
    simp only [exec] at h
    split at h
    · cases h
    · cases h
      exact ⟨_, mem_singleton.1 hb⟩
  | get k stage wanted bytes batches =>
    simp only [exec] at h
    split at h
    · cases h
    · cases wanted with
      | nil =>
        cases h
        exact ⟨_, mem_singleton.1 hb⟩
      | cons base rest =>
        simp only [get] at h
        repeat' split at h
        all_goals cases h
        all_goals exact ⟨_, mem_singleton.1 hb⟩

theorem mem_next (h : exec cfg s c a = .ok s' next) (hb : b ∈ next) : Leads s a b := by
  cases a with
  | produce step => exact Produce.mem_next h hb
  | txn step => exact Transactions.mem_next h hb
  | offsets step =>
    cases step with
    | topic group tp request =>
      simp only [exec, Offsets.exec] at h
      split at h
      · cases h
      · cases h
        split at hb
        · rw [mem_singleton.1 hb]
          exact .offset group tp request
        · cases hb
    | put =>
      cases h
      cases hb
  | fetch step =>
    obtain ⟨step', rfl⟩ := Fetch.mem_next h hb
    exact .fetch step step'
  | handler =>
    cases h
    cases hb

/-! ## Listings -/

theorem Fetch.mem_of_mem_wanted {position : Int} {offsets : List Int}
    (h : base ∈ wanted position offsets) : base ∈ offsets := by
  simp only [wanted] at h
  split at h
  · exact (List.mem_filter.1 h).1
  · rcases mem_append.1 h with h | h
    · exact (List.mem_filter.1 (mem_of_getLast? (Option.mem_toList.1 h))).1
    · exact (List.mem_filter.1 h).1

theorem Fetch.mem_offsets {k : Consumer} {stage : OffsetStage} :
    base ∈ offsets s c k stage ↔ k.position < bound k.isolation stage ∧ base ∈ s.log k.topition ∧
      c.listed base = true ∧ base < bound k.isolation stage := by
  unfold offsets
  split
  · next h => simp [h]
  · next h => simp [h]

end Tansu.Dynostore.Engine
