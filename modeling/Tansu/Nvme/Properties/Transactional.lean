import Tansu.Nvme.Sections

/-!
# Runs of transactional requests

The requests around transactions and the sections they run, and what those
sections do to the transactions and to the transactional index of a partition:
its pins, its aborted ranges and its next offset.
-/

namespace Tansu.Nvme

open Std Tansu.Lib Machine List Option Produce Transactions

/-- Produces, the transaction requests, the sweep, and offset commits. -/
def Request.transactional : Request → Bool
  | .produce _ | .initProducer .. | .txnAddPartitions .. | .txnOffsetCommit .. | .txnEnd _
  | .maintainTransactions _ | .offsetCommit .. => true
  | _ => false

namespace Action

/-- The sections that transactional requests run. -/
def transactional : Action → Bool
  | .produce _ | .txn _ | .wal _ | .offsets _ | .handler | .answer _ => true
  | _ => false

/-- Transactional sections that change neither transactions nor partitions. -/
def quiet : Action → Bool
  | .produce (.marker ..) | .produce (.guard _) | .produce (.check ..) => true
  | .txn (.initProducer none ..) | .txn (.sweep _) => true
  | .wal _ | .offsets _ | .handler | .answer _ => true
  | _ => false

/-- Sections that follow quiet ones. -/
def follows : Action → Bool
  | .produce (.guard _) | .produce (.check ..) | .produce (.append ..) => true
  | .txn (.prepare _) | .wal _ | .offsets _ | .handler => true
  | _ => false

end Action

/-! ## The transactional index of a partition -/

namespace Engine

def openTxns (s : Engine) (tp : Topition) : BTreeMap OpenTxnKey Int :=
  (s.partitions[tp]?.map (·.openTxns)).getD ∅

def aborted (s : Engine) (tp : Topition) : List AbortedRange :=
  (s.partitions[tp]?.map (·.aborted)).getD []

def nextOffset (s : Engine) (tp : Topition) : Int :=
  (s.partitions[tp]?.map (·.nextOffset)).getD 0

end Engine

variable {cfg : Config} {c : Choice} {s s' : Engine} {a : Action} {next : List Action} {e : Error}
  {call : ProduceCall} {attributes : BatchAttribute} {ack : Ack} {tp : Topition}

namespace Produce

theorem target_openTxns : (target s call).openTxns = s.openTxns call.topition := by
  unfold target Engine.openTxns
  cases s.partitions[call.topition]? <;> rfl

theorem target_aborted : (target s call).aborted = s.aborted call.topition := by
  unfold target Engine.aborted
  cases s.partitions[call.topition]? <;> rfl

theorem target_nextOffset : (target s call).nextOffset = s.nextOffset call.topition := by
  unfold target Engine.nextOffset
  cases s.partitions[call.topition]? <;> rfl

/-- What an append adds to the transactional index. -/
structure Appended (s : Engine) (call : ProduceCall) (attributes : BatchAttribute) (s' : Engine) :
    Prop where
  coord : s'.coord = s.coord
  openTxns : ∀ tp, s'.openTxns tp = if call.topition = tp then
      match pinKey call attributes with
      | none => s.openTxns tp
      | some key => (s.openTxns tp).insertIfNew key (s.nextOffset tp)
    else s.openTxns tp
  aborted : ∀ tp, s'.aborted tp = s.aborted tp
  nextOffset : ∀ tp, s'.nextOffset tp = if call.topition = tp then
      s.nextOffset tp + call.batch.lastOffsetDelta + 1
    else s.nextOffset tp

theorem append_appended (h : append cfg s c call attributes = .ok s' next) :
    Appended s call attributes s' ∧ ∃ ack, next = [.produce (.acked call attributes ack)] ∧
      ack.offset = s.nextOffset call.topition ∧
      ack.offsetEnd = s.nextOffset call.topition + call.batch.lastOffsetDelta := by
  obtain ⟨partitions, dirs, diskUsage, nextHandle, w, rfl, hparts, rfl⟩ :=
    append_ok_partitions h
  refine ⟨⟨rfl, fun tp => ?_, fun tp => ?_, fun tp => ?_⟩, _, rfl, target_nextOffset, ?_⟩
  · unfold Engine.openTxns
    rw [hparts tp]
    split
    · next htp =>
      subst htp
      simp only [map_some, getD_some, indexed_openTxns, target_openTxns,
        target_nextOffset]
      rfl
    · rfl
  · unfold Engine.aborted
    rw [hparts tp]
    split
    · next htp =>
      subst htp
      simp only [map_some, getD_some, indexed_aborted, target_aborted]
      rfl
    · rfl
  · unfold Engine.nextOffset
    rw [hparts tp]
    split
    · next htp =>
      subst htp
      simp only [map_some, getD_some, indexed_nextOffset, endOffset,
        target_nextOffset]
      rfl
    · rfl
  · simp only [endOffset, target_nextOffset]

theorem append_failed (h : append cfg s c call attributes = .err s' e) :
    s'.coord = s.coord ∧ (∀ tp, s'.openTxns tp = s.openTxns tp) ∧
      (∀ tp, s'.aborted tp = s.aborted tp) ∧
      ((∀ tp, s'.nextOffset tp = s.nextOffset tp) ∨
        ∀ tp, s'.nextOffset tp = if call.topition = tp then
          s.nextOffset tp + call.batch.lastOffsetDelta + 1 else s.nextOffset tp) := by
  rcases append_err_partitions h with rfl | ⟨partitions, dirs, nextHandle, writer, rfl, hparts⟩
  · exact ⟨rfl, fun _ => rfl, fun _ => rfl, .inl fun _ => rfl⟩
  · refine ⟨rfl, fun tp => ?_, fun tp => ?_, .inr fun tp => ?_⟩
    · unfold Engine.openTxns
      rw [hparts tp]
      split
      · next htp =>
        subst htp
        exact target_openTxns
      · rfl
    · unfold Engine.aborted
      rw [hparts tp]
      split
      · next htp =>
        subst htp
        exact target_aborted
      · rfl
    · unfold Engine.nextOffset
      rw [hparts tp]
      split
      · next htp =>
        subst htp
        simp only [map_some, getD_some, endOffset, target_nextOffset]
        rfl
      · rfl

end Produce

/-- The index is untouched by what keeps it in every partition that is changed. -/
theorem index_modify {f : PartitionInner → PartitionInner} {tp : Topition}
    (hs : s'.partitions = s.partitions.modify tp f)
    (hpins : ∀ inner, (f inner).openTxns = inner.openTxns)
    (haborted : ∀ inner, (f inner).aborted = inner.aborted)
    (hnext : ∀ inner, (f inner).nextOffset = inner.nextOffset) :
    (∀ tp, s'.openTxns tp = s.openTxns tp) ∧ (∀ tp, s'.aborted tp = s.aborted tp) ∧
      ∀ tp, s'.nextOffset tp = s.nextOffset tp := by
  have hlookup (tp' : Topition) : s'.partitions[tp']? = s.partitions[tp']? ∨
      ∃ inner, s.partitions[tp']? = some inner ∧ s'.partitions[tp']? = some (f inner) := by
    rw [hs, BTreeMap.getElem?_modify_eq]
    split
    · cases s.partitions[tp']? with
      | none => exact .inl rfl
      | some inner => exact .inr ⟨inner, rfl, rfl⟩
    · exact .inl rfl
  refine ⟨fun tp' => ?_, fun tp' => ?_, fun tp' => ?_⟩ <;>
    rcases hlookup tp' with h | ⟨inner, h, h'⟩
  · simp only [Engine.openTxns, h]
  · simp only [Engine.openTxns, h, h', map_some, getD_some, hpins]
  · simp only [Engine.aborted, h]
  · simp only [Engine.aborted, h, h', map_some, getD_some, haborted]
  · simp only [Engine.nextOffset, h]
  · simp only [Engine.nextOffset, h, h', map_some, getD_some, hnext]

/-! ## Quiet sections and failures -/

/-- Transactions and the transactional index are as they were. -/
structure Untouched (s s' : Engine) : Prop where
  transactions : s'.coord.transactions = s.coord.transactions
  openTxns : ∀ tp, s'.openTxns tp = s.openTxns tp
  aborted : ∀ tp, s'.aborted tp = s.aborted tp

namespace Untouched

theorem of_eq (ht : s'.coord.transactions = s.coord.transactions)
    (hp : s'.partitions = s.partitions) : Untouched s s' :=
  ⟨ht, fun tp => by simp only [Engine.openTxns, hp], fun tp => by simp only [Engine.aborted, hp]⟩

theorem detail? (h : Untouched s s') (t : String) (e : Int) :
    s'.coord.detail? t e = s.coord.detail? t e := by
  simp only [CoordState.detail?, h.transactions]

theorem producer? (h : Untouched s s') (t : String) :
    s'.coord.producer? t = s.coord.producer? t := by
  simp only [CoordState.producer?, h.transactions]

end Untouched

theorem nextOffset_of_eq (hp : s'.partitions = s.partitions) (tp : Topition) :
    s'.nextOffset tp = s.nextOffset tp := by
  simp only [Engine.nextOffset, hp]

theorem run_quiet (ha : a.quiet) (h : a.run cfg s c = .ok s' next) :
    s'.coord.transactions = s.coord.transactions ∧ s'.partitions = s.partitions ∧
      ∀ b ∈ next, b.follows := by
  refine ⟨run_transactions ?_ h, ?_, fun b hb => ?_⟩
  · cases a with
    | produce step => cases step <;> first | rfl | cases ha
    | txn step =>
      cases step with
      | initProducer t => cases t <;> first | rfl | cases ha
      | sweep => rfl
      | _ => cases ha
    | _ => rfl
  · cases run_touches h with
    | still | coord | insert | log => rfl
    | _ => cases ha
  · cases run_leads h b hb with
    | marker | guard | check | log | await | expire | handle | insert => rfl
    | _ => cases ha

theorem acked_untouched (h : Produce.acked s c call attributes ack = .ok s' next) :
    s'.coord = s.coord ∧ Untouched s s' ∧ (∀ tp, s'.nextOffset tp = s.nextOffset tp) ∧
      next = match Produce.recordedIn call attributes with
        | none => []
        | some t => [.produce (.record t call attributes ack)] := by
  obtain ⟨-, rfl, rfl⟩ := acked_ok h
  have hraise (inner : PartitionInner) :
      (Produce.raise ack.handle ack.offsetEnd inner).openTxns = inner.openTxns ∧
      (Produce.raise ack.handle ack.offsetEnd inner).aborted = inner.aborted ∧
      (Produce.raise ack.handle ack.offsetEnd inner).nextOffset = inner.nextOffset := by
    unfold Produce.raise
    split <;> exact ⟨rfl, rfl, rfl⟩
  have hs : ({ s with
      partitions := s.partitions.modify call.topition
        (Produce.raise ack.handle ack.offsetEnd) } : Engine).partitions =
      s.partitions.modify call.topition (Produce.raise ack.handle ack.offsetEnd) := rfl
  obtain ⟨hp, ha, hn⟩ := index_modify hs (fun inner => (hraise inner).1)
    (fun inner => (hraise inner).2.1) fun inner => (hraise inner).2.2
  exact ⟨rfl, ⟨rfl, hp, ha⟩, hn, rfl⟩

/-- **A failed section** leaves transactions, pins and aborted ranges as they were. -/
theorem run_err (ha : a.transactional) (h : a.run cfg s c = .err s' e) : Untouched s s' := by
  cases run_fails h with
  | still | wal | check => exact .of_eq rfl rfl
  | append =>
    obtain ⟨hc, hp, ha, -⟩ := append_failed h
    exact ⟨by rw [hc], hp, ha⟩
  | retain => cases ha

/-! ## Transactional requests run transactional sections -/

theorem Request.start_transactional {r : Request} (h : r.transactional) :
    ∀ a ∈ r.start, a.transactional := by
  cases r with
  | produce | initProducer | txnAddPartitions | txnOffsetCommit | txnEnd | maintainTransactions
  | offsetCommit => simp [Request.start, Action.transactional]
  | createTopic | deleteTopic | incrementalAlter | updateGroup | deleteGroups | upsertScram
  | deleteScram | deleteRecords | maintain | tick => cases h

theorem run_transactional (ha : a.transactional) (h : a.run cfg s c = .ok s' next) :
    ∀ b ∈ next, b.transactional := by
  intro b hb
  cases run_leads h b hb <;> first | rfl | cases ha

/-! ## Logs -/

/-- The same partitions with the same directories and next offsets. -/
structure SameLogs (s s' : Engine) : Prop where
  dirs : s'.dirs = s.dirs
  known : ∀ tp : Topition, s'.partitions[tp]?.isSome = s.partitions[tp]?.isSome
  nextOffset : ∀ tp, s'.nextOffset tp = s.nextOffset tp

namespace SameLogs

theorem of_eq (hd : s'.dirs = s.dirs) (hp : s'.partitions = s.partitions) : SameLogs s s' :=
  ⟨hd, fun tp => by rw [hp], nextOffset_of_eq hp⟩

theorem modify {f : PartitionInner → PartitionInner} (hd : s'.dirs = s.dirs)
    (hp : s'.partitions = s.partitions.modify tp f)
    (hf : ∀ inner, (f inner).nextOffset = inner.nextOffset) : SameLogs s s' := by
  refine ⟨hd, fun tp' => ?_, fun tp' => ?_⟩
  · rw [hp, BTreeMap.getElem?_modify_eq]
    split
    · exact isSome_map
    · rfl
  · simp only [Engine.nextOffset, hp, BTreeMap.getElem?_modify_eq]
    split
    · cases s.partitions[tp']? with
      | none => rfl
      | some inner => exact hf inner
    · rfl

end SameLogs

/-- Of the transactional sections, only an append moves a log. -/
theorem run_sameLogs (ha : a.transactional)
    (hne : ∀ call attributes, a ≠ .produce (.append call attributes))
    (h : a.run cfg s c = .ok s' next) : SameLogs s s' := by
  cases run_touches h with
  | still | coord | insert | log => exact .of_eq rfl rfl
  | append => exact absurd rfl (hne _ _)
  | acked =>
    refine .modify rfl rfl fun inner => ?_
    unfold Produce.raise
    split <;> rfl
  | release => exact .modify rfl rfl fun inner => rfl
  | _ => cases ha

theorem run_err_sameLogs (ha : a.transactional)
    (hne : ∀ call attributes, a ≠ .produce (.append call attributes))
    (h : a.run cfg s c = .err s' e) : SameLogs s s' := by
  cases run_fails h with
  | still | wal | check => exact .of_eq rfl rfl
  | append => exact absurd rfl (hne _ _)
  | retain => cases ha

/-! ## Epochs -/

namespace CoordState

variable {coord coord' : CoordState} {t t' : String} {epoch epoch' pid timeout : Int}
  {d : TxnDetail} {f : TxnDetail → TxnDetail}

theorem epoch_le_current (hd : coord.detail? t epoch = some d) :
    ∃ current, coord.currentEpoch? t = some current ∧ epoch ≤ current := by
  unfold detail? at hd
  unfold currentEpoch?
  cases htxn : coord.transactions[t]? with
  | none => simp [htxn] at hd
  | some txn =>
    rw [htxn, bind_some] at hd
    have hmem : epoch ∈ txn.epochs := BTreeMap.mem_iff_exists.2 ⟨d, hd⟩
    cases hlast : BTreeMap.lastKey? txn.epochs with
    | none =>
      rw [BTreeMap.lastKey?_eq_maxKey?, ExtTreeMap.maxKey?_eq_none_iff] at hlast
      simp [hlast] at hmem
    | some current =>
      exact ⟨current, hlast, Int.isLE_compare.1 (BTreeMap.isLE_of_lastKey? hlast hmem)⟩

/-- The current epoch is a non-negative `i16`, and an epoch that the counter
reached by wrapping around was never used. -/
structure EpochInv (coord : CoordState) : Prop where
  current : ∀ t epoch, coord.currentEpoch? t = some epoch → 0 ≤ epoch ∧ epoch < 2 ^ 15
  wrapped : ∀ t epoch d, coord.detail? t epoch = some d → epoch < 0 → d.state = none

namespace EpochInv

theorem empty : EpochInv {} := by
  constructor <;> simp [CoordState.currentEpoch?, CoordState.detail?]

section

variable (h : EpochInv coord)
include h

theorem congr (ht : coord'.transactions = coord.transactions) : EpochInv coord' := by
  have hd (t : String) (epoch : Int) : coord'.detail? t epoch = coord.detail? t epoch := by
    simp only [CoordState.detail?, ht]
  have hc (t : String) : coord'.currentEpoch? t = coord.currentEpoch? t := by
    simp only [CoordState.currentEpoch?, ht]
  exact ⟨fun t => by rw [hc]; exact h.current t, fun t epoch => by rw [hd]; exact h.wrapped t epoch⟩

theorem modifyDetail (hf : ∀ d, coord.detail? t epoch = some d → epoch < 0 → (f d).state = none) :
    EpochInv (coord.modifyDetail t epoch f) := by
  refine ⟨fun t' epoch' => ?_, fun t' epoch' d hd hneg => ?_⟩
  · rw [currentEpoch?_modifyDetail]
    exact h.current t' epoch'
  · rw [detail?_modifyDetail] at hd
    split at hd
    · next heq =>
      obtain ⟨rfl, rfl⟩ := heq
      obtain ⟨d₀, hd₀, rfl⟩ := map_eq_some_iff.1 hd
      exact hf d₀ hd₀ hneg
    · exact h.wrapped t' epoch' d hd hneg

/-- The epoch that `init_producer` opens was never used. -/
theorem fresh (hc : coord.currentEpoch? t = some epoch)
    (hd : coord.detail? t (wrapI16 (epoch + 1)) = some d) : d.state = none := by
  obtain ⟨h₀, h₁⟩ := h.current t epoch hc
  obtain ⟨current, hc', hle⟩ := epoch_le_current hd
  rw [hc] at hc'
  cases hc'
  refine h.wrapped t _ d hd ?_
  by_contra hneg
  simp only [wrapI16] at hle hneg
  rw [Int.bmod_def] at hle hneg
  split at hle <;> omega

theorem allocate : EpochInv (coord.allocate pid (some t) timeout) := by
  refine ⟨fun t' epoch hc => ?_, fun t' epoch d hd hneg => ?_⟩
  · rw [currentEpoch?_allocate] at hc
    split at hc
    · cases hc
      decide
    · exact h.current t' epoch hc
  · rw [detail?_allocate] at hd
    split at hd
    · split at hd
      · cases hd
        rfl
      · cases hd
    · exact h.wrapped t' epoch d hd hneg

theorem bumpEpoch (hp : (coord.producer? t).isSome) (hc : coord.currentEpoch? t = some epoch) :
    EpochInv (coord.bumpEpoch t pid (wrapI16 (epoch + 1)) timeout) := by
  obtain ⟨h₀, h₁⟩ := h.current t epoch hc
  refine ⟨fun t' epoch' hc' => ?_, fun t' epoch' d hd hneg => ?_⟩
  · rw [currentEpoch?_bumpEpoch hc] at hc'
    split at hc'
    · cases hc'
      simp only [wrapI16, Int.bmod_def]
      constructor <;> split <;> omega
    · exact h.current t' epoch' hc'
  · rw [detail?_bumpEpoch hp] at hd
    split at hd
    · cases hd
      rfl
    · exact h.wrapped t' epoch' d hd hneg

theorem resolved {refs : List TxnRef} {effs : List TxnEffects}
    (hr : Resolved coord refs coord' effs) (hrefs : ∀ ref ∈ refs, 0 ≤ ref.producerEpoch) :
    EpochInv coord' := by
  refine ⟨fun t epoch => ?_, fun t epoch d hd hneg => ?_⟩
  · rw [hr.currentEpoch?]
    exact h.current t epoch
  · rcases hr.detail_cases hd with hd | ⟨ref, hmem, _, _, -, rfl, -⟩
    · exact h.wrapped t epoch d hd hneg
    · have := hrefs ref hmem
      omega

/-- Whatever a `txn_end` resolves has a non-negative epoch. -/
theorem refs_nonneg {call : TxnEnd}
    (hd : coord.txnDetail call.transactionId call.producerId call.producerEpoch = .ok d) :
    ∀ ref ∈ coord.peers call ++ [ownRef call], 0 ≤ ref.producerEpoch := by
  intro ref hmem
  rcases mem_append.1 hmem with hmem | hmem
  · obtain ⟨-, d', hd', hstate, -⟩ := mem_peers hmem
    by_contra hneg
    rw [h.wrapped _ _ d' hd' (by omega)] at hstate
    cases hstate
  · rw [mem_singleton.1 hmem]
    exact (h.current _ _ (txnDetail_eq_ok.1 hd).2.1).1

end

end EpochInv

end CoordState

theorem run_epochInv (hi : s.coord.EpochInv) (h : a.run cfg s c = .ok s' next) :
    s'.coord.EpochInv := by
  cases ha : a.changesTxns with
  | false => exact hi.congr (run_transactions ha h)
  | true =>
    cases a with
    | produce step =>
      cases step with
      | marker | guard | check | append | acked => cases ha
      | record t call attributes ack =>
        obtain ⟨-, ⟨-, rfl⟩ | ⟨d, hd, -, rfl⟩⟩ := record_ok h
        · exact hi
        · exact hi.modifyDetail fun d hd hneg => hi.wrapped _ _ d hd hneg
    | txn step =>
      cases step with
      | initProducer t timeout pid e =>
        cases t with
        | none => cases ha
        | some t =>
          rcases initTransactional_ok h with ⟨rfl, -⟩ | ⟨-, rfl, -⟩ |
            ⟨_, _, hp, hc, ⟨-, rfl, -⟩ | ⟨-, rfl, -⟩⟩
          · exact hi
          · exact hi.allocate
          · exact hi
          · exact hi.bumpEpoch (by simp [hp]) hc
      | addPartitions =>
        rcases addPartitions_ok h with ⟨rfl, -⟩ | ⟨d, hd, rfl, -⟩
        · exact hi
        · have := (hi.current _ _ (CoordState.txnDetail_eq_ok.1 hd).2.1).1
          exact hi.modifyDetail fun _ _ hneg => by omega
      | offsetCommit =>
        rcases offsetCommit_ok h with ⟨rfl, -⟩ | ⟨d, hd, rfl, -⟩
        · exact hi
        · exact hi.modifyDetail fun d hd hneg => hi.wrapped _ _ d hd hneg
      | prepare call =>
        obtain ⟨d, hd, ⟨-, rfl, -⟩ | ⟨-, rfl, -⟩⟩ := prepare_ok h
        · have := (hi.current _ _ (CoordState.txnDetail_eq_ok.1 hd).2.1).1
          exact hi.modifyDetail fun _ _ hneg => by omega
        · exact hi
      | resolve call =>
        obtain ⟨d, hd, ⟨-, rfl, -⟩ | ⟨-, rfl, -⟩⟩ := resolve_ok h
        · exact hi
        · exact hi.resolved (s.coord.resolve_resolved call) (hi.refs_nonneg hd)
      | release | sweep => cases ha
    | wal | offsets | handler | answer | admin | cleanup | snapshot | boot => cases ha

/-! ## Concrete schedules -/

namespace Schedule

/-- `n` sections of task `i`, with the log and the first segments synced before
each of them. -/
def rounds (partitions : List Topition) (i n : Nat) : List EngineLabel :=
  (List.replicate n ([.env (.syncWal 2 1000)] ++
    partitions.map (fun tp => .env (.syncSegment tp 0 100000)) ++ [.run i {}])).flatten

/-- A data batch of one record. -/
def data (tp : Topition) (t : String) (pid epoch sequence : Int) : ProduceCall :=
  ⟨some t, tp, ⟨16, 0, 0, pid, epoch, sequence, .client 10⟩⟩

/-- Registers a transactional id, or starts its next epoch. -/
def register (t : String) : EngineLabel :=
  .spawn (.initProducer (some t) 1000 (some (-1)) (some (-1)))

end Schedule

end Tansu.Nvme
