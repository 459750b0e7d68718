import Tansu.Dynostore.Sections

/-!
# Transactions end in the direction they were prepared for

The second update of the metadata in `txn_end` moves the transactions it resolves to
the terminal state that their stored state calls for.  Whether their ranges go into
the index of aborted ranges, and whether their staged offsets are committed, is
decided by the state that the resolution holds them to be in: the stored one for a
transaction that overlaps, the one that the caller asks for otherwise.

The history of a run lists what clients committed, which transactions each section
ended and how, and which offsets were stored, each with the task that did it.
-/

namespace Tansu.Dynostore.Engine

open Std Tansu.Lib Machine List Option BTreeMap ExtTreeMap System Tansu.Nvme.CoordState
open Tansu.Nvme (Topition Group CoordState TxnDetail TxnState TxnRef TxnEnd TxnCommitOffset
  OffsetCommitRequest Error)

namespace Direction

/-! ## The history of a run -/

/-- A transaction that has become terminal, as it was before. -/
structure Ending where
  transaction : String
  producerId : Int
  producerEpoch : Int
  detail : TxnDetail
  state : TxnState

/-- How an epoch of a transaction has ended, if it has. -/
def ending? (after : CoordState) (t : String) (pid e : Int) (d : TxnDetail) : Option Ending :=
  match (after.detail? t e).bind (·.state) with
  | none => none
  | some state =>
    if state.isTerminal ∧ d.state ≠ some state then some ⟨t, pid, e, d, state⟩ else none

/-- The transactions whose state has become terminal. -/
def endings (before after : CoordState) : List Ending :=
  before.transactions.toList.flatMap fun (t, txn) =>
    txn.epochs.toList.filterMap fun (e, d) => ending? after t txn.producer e d

inductive Event
  /-- A client asks to commit an offset. -/
  | requested (task : Nat) (group : Group) (tp : Topition) (request : OffsetCommitRequest)
  /-- A section has ended these transactions; most sections end none. -/
  | ended (task : Nat) (endings : List Ending)
  /-- An offset is stored. -/
  | applied (task : Nat) (group : Group) (tp : Topition) (request : OffsetCommitRequest)

/-- The offset that the section stores. -/
def applications (w : EngineWorld) (i : Nat) (c : Choice) : List Event :=
  match w.tasks[i]? with
  | some (.offsets (.put group tp request) :: _) =>
    if c.fault then [] else [.applied i group tp request]
  | _ => []

def observe (history : List Event) (w : EngineWorld) (l : EngineLabel) (w' : EngineWorld) :
    List Event :=
  match l with
  | .spawn (.offsetCommit group offsets) =>
    history ++ offsets.map fun o => .requested w.tasks.length group o.1 o.2
  | .run i c =>
    history ++ (.ended i (endings w.shared.metadata.coord w'.shared.metadata.coord) ::
      applications w i c)
  | _ => history

/-- The engine with its history. -/
def system (cfg : Config) : System (EngineWorld × List Event) EngineLabel :=
  (machine cfg).system.observe observe

/-! ## Conditions on a run -/

/-- The terminal state that the stored state calls for is the one that the caller asks for. -/
def agrees (coord : CoordState) (call : TxnEnd) : Bool :=
  (coord.detail? call.transactionId call.producerEpoch).all fun d =>
    (CoordState.terminal d.state).all fun state => decide (state = .committed) == call.committed

/-- A `txn_end` that resolves asks for the direction of its own transaction; and the
offsets of consumer groups are stored without a failure, for topics that exist. -/
def consistent (w : EngineWorld) : EngineLabel → Bool
  | .run i c =>
    match w.tasks[i]? with
    | some (.txn (.resolve call) :: _) =>
      c.fault || w.shared.metadata.coord.deferred call || agrees w.shared.metadata.coord call
    | some (.offsets (.topic _ tp _) :: _) =>
      !c.fault && decide (tp.topic ∈ w.shared.metadata.coord.topics)
    | some (.offsets (.put ..) :: _) => !c.fault
    | _ => true
  | _ => true

/-! ## What a run has to keep -/

/-- The index of aborted ranges at one partition. -/
def listed (m : Meta) (tp : Topition) : List AbortedTxnRange := m.aborted[tp]?.getD []

/-- What the transaction produced to a partition, as an entry of the index. -/
def Ending.indexed? (x : Ending) (tp : Topition) : Option AbortedTxnRange :=
  (x.detail.range? tp).map fun range => ⟨x.producerId, range.offsetStart, range.offsetEnd⟩

/-- The ranges of those that were aborted. -/
def abortedBy (tp : Topition) (ended : List Ending) : List AbortedTxnRange :=
  (ended.filter fun x => x.state = .aborted).filterMap (·.indexed? tp)

/-- The ranges of all transactions of a run that were aborted. -/
def abortedRanges (tp : Topition) (history : List Event) : List AbortedTxnRange :=
  history.flatMap fun
    | .ended _ ended => abortedBy tp ended
    | _ => []

/-- The transaction was committed and had staged the offset. -/
def Ending.Commits (x : Ending) (group : Group) (tp : Topition) (co : TxnCommitOffset) : Prop :=
  x.state = .committed ∧ x.detail.offsets[((group, tp) : Group × Topition)]? = some co

/-- The section stores the offset, or leads to it. -/
def Stores (group : Group) (tp : Topition) (request : OffsetCommitRequest) : Section → Prop
  | .offsets (.topic group' tp' request') | .offsets (.put group' tp' request') =>
    group' = group ∧ tp' = tp ∧ request' = request
  | _ => False

/-- A client of task `i` asked for the offset, or the task itself has committed a
transaction that staged it. -/
def Source (history : List Event) (i : Nat) (group : Group) (tp : Topition)
    (request : OffsetCommitRequest) : Prop :=
  .requested i group tp request ∈ history ∨
    ∃ ended x co, .ended i ended ∈ history ∧ x ∈ ended ∧ x.Commits group tp co ∧
      request = Transactions.offsetRequest co

/-- The index holds the ranges of the transactions that were aborted, each as often as
it was aborted, and no others.  What a transaction that was committed had staged for
a partition is stored later, or what another one that was committed along with it had
staged there.  Nothing is stored without a source before it. -/
structure Follows (p : EngineWorld × List Event) : Prop where
  index : ∀ tp, (listed p.1.shared.metadata tp).Perm (abortedRanges tp p.2)
  committed : ∀ past later i ended x group tp co, p.2 = past ++ .ended i ended :: later →
    x ∈ ended → x.Commits group tp co →
    ∃ y ∈ ended, ∃ co', y.Commits group tp co' ∧
      (.applied i group tp (Transactions.offsetRequest co') ∈ later ∨
        Owes p.1 i (Stores group tp (Transactions.offsetRequest co')))
  applied : ∀ past later i group tp request,
    p.2 = past ++ .applied i group tp request :: later → Source past i group tp request

/-! ## Which sections end a transaction -/

variable {cfg : Config} {c : Choice} {w w' : EngineWorld} {s s' : Objects} {a : Section}
  {next rest todo : List Section} {i j : Nat} {err : Error} {tp : Topition} {group : Group}
  {request : OffsetCommitRequest} {before after : CoordState} {history : List Event} {t : String}
  {e : Int} {x : Ending} {call : TxnEnd}

theorem ending?_eq_some {pid : Int} {d : TxnDetail} :
    ending? after t pid e d = some x ↔ ∃ state, (after.detail? t e).bind (·.state) = some state ∧
      (state.isTerminal ∧ d.state ≠ some state) ∧ x = ⟨t, pid, e, d, state⟩ := by
  unfold ending?
  cases (after.detail? t e).bind (·.state) with
  | none => simp
  | some state => simp [eq_comm (a := x)]

theorem mem_endings : x ∈ endings before after ↔
    before.producer? x.transaction = some x.producerId ∧
      before.detail? x.transaction x.producerEpoch = some x.detail ∧
      (after.detail? x.transaction x.producerEpoch).bind (·.state) = some x.state ∧
      x.state.isTerminal ∧ x.detail.state ≠ some x.state := by
  simp only [endings, mem_flatMap, List.mem_filterMap, Prod.exists]
  constructor
  · rintro ⟨t, txn, htxn, e, d, hd, hx⟩
    have htxn := mem_toList_iff_getElem?_eq_some.1 htxn
    have hd := mem_toList_iff_getElem?_eq_some.1 hd
    obtain ⟨state, hstate, ⟨hterm, hne⟩, rfl⟩ := ending?_eq_some.1 hx
    exact ⟨by simp [CoordState.producer?, htxn], by simp [CoordState.detail?, htxn, hd], hstate,
      hterm, hne⟩
  · obtain ⟨t, pid, e, d, state⟩ := x
    rintro ⟨hp, hd, hstate, hterm, hne⟩
    obtain ⟨txn, htxn, hd⟩ := bind_eq_some_iff.1 hd
    obtain rfl : txn.producer = pid := by simpa [CoordState.producer?, htxn] using hp
    exact ⟨t, txn, mem_toList_iff_getElem?_eq_some.2 htxn, e, d,
      mem_toList_iff_getElem?_eq_some.2 hd,
      ending?_eq_some.2 ⟨state, hstate, ⟨hterm, hne⟩, rfl⟩⟩

theorem nodup_endings : (endings before after).Nodup := by
  refine pairwise_flatMap.2 ⟨fun entry _ => ?_, ?_⟩
  · refine List.Pairwise.filterMap _ ?_ distinct_keys_toList
    rintro ⟨e, d⟩ ⟨e', d'⟩ hne x hx y hy rfl
    obtain ⟨_, -, -, rfl⟩ := ending?_eq_some.1 hx
    obtain ⟨_, -, -, heq⟩ := ending?_eq_some.1 hy
    obtain rfl := (Ending.mk.inj heq).2.2.1
    exact hne compare_self
  · refine distinct_keys_toList.imp ?_
    rintro ⟨t, txn⟩ ⟨t', txn'⟩ hne x hx y hy rfl
    obtain ⟨_, -, hx⟩ := List.mem_filterMap.1 hx
    obtain ⟨_, -, hy⟩ := List.mem_filterMap.1 hy
    obtain ⟨_, -, -, rfl⟩ := ending?_eq_some.1 hx
    obtain ⟨_, -, -, heq⟩ := ending?_eq_some.1 hy
    obtain rfl := (Ending.mk.inj heq).1
    exact hne compare_self

theorem endings_eq_nil (h : ∀ t e d state, before.detail? t e = some d →
    (after.detail? t e).bind (·.state) = some state → state.isTerminal → d.state = some state) :
    endings before after = [] := by
  refine eq_nil_iff_forall_not_mem.2 fun x hx => ?_
  obtain ⟨-, hd, hstate, hterm, hne⟩ := mem_endings.1 hx
  exact hne (h _ _ _ _ hd hstate hterm)

theorem endings_of_detail (h : ∀ t e, after.detail? t e = before.detail? t e) :
    endings before after = [] := by
  refine endings_eq_nil fun t e d state hd hstate _ => ?_
  rw [h, hd] at hstate
  exact hstate

theorem endings_modifyDetail {f : TxnDetail → TxnDetail}
    (h : ∀ d state, (f d).state = some state → state.isTerminal → d.state = some state) :
    endings before (before.modifyDetail t e f) = [] := by
  refine endings_eq_nil fun t' e' d state hd hstate hterm => ?_
  rw [detail?_modifyDetail, hd] at hstate
  split at hstate
  · exact h d state hstate hterm
  · exact hstate

/-- Only a resolution ends transactions or lists ranges. -/
theorem endings_effect (h : Effect s a s') (ha : ∀ call, a ≠ .txn (.resolve call)) :
    endings s.metadata.coord s'.metadata.coord = [] ∧ s'.metadata.aborted = s.metadata.aborted := by
  cases h with
  | idle | sink | watermark | put | offset => exact ⟨endings_of_detail fun _ _ => rfl, rfl⟩
  | sequence call =>
    obtain ⟨producers, hp⟩ := validateSequence_fst s.metadata.coord call.batch.producerId
      call.batch.producerEpoch call.batch.baseSequence call.batch.lastOffsetDelta call.topition
    refine ⟨endings_of_detail fun t e => ?_, rfl⟩
    simp only [Objects.setCoord, Produce.validated, hp]
    rfl
  | record t call offset => exact ⟨endings_modifyDetail fun d state hd _ => hd, rfl⟩
  | allocate t timeout pid epoch hnew =>
    refine ⟨endings_eq_nil fun t' e d state hd hstate _ => ?_, rfl⟩
    simp only [Objects.setCoord] at hstate
    rw [detail?_allocate, if_neg, hd] at hstate
    · exact hstate
    · rintro rfl
      simp [CoordState.detail?, hnew] at hd
  | bumpEpoch t timeout pid epoch txn current htxn hcurrent =>
    refine ⟨endings_eq_nil fun t' e d state hd hstate _ => ?_, rfl⟩
    simp only [Objects.setCoord] at hstate
    rw [detail?_bumpEpoch (by simp [CoordState.producer?, htxn]), hd] at hstate
    split at hstate
    · cases hstate
    · exact hstate
  | allocateIdempotent => exact ⟨endings_of_detail fun _ _ => rfl, rfl⟩
  | addPartitions now t pid epoch partitions d hd =>
    refine ⟨endings_modifyDetail fun d state hd hterm => ?_, rfl⟩
    cases hd
    cases hterm
  | offsetCommit => exact ⟨endings_modifyDetail fun d state hd _ => hd, rfl⟩
  | prepare call d hd hbegin =>
    refine ⟨endings_modifyDetail fun d state hd hterm => ?_, rfl⟩
    cases hd
    cases hcommitted : call.committed <;> simp [hcommitted, TxnState.prepare,
      TxnState.isTerminal] at hterm
  | resolve call => exact absurd rfl (ha call)

/-! ## The resolution -/

section Resolve

variable {m : Meta} {coord : CoordState} {call : TxnEnd} {ref : TxnRef} {refs : List TxnRef}
  {acc : Meta × Staged} {d : TxnDetail} {state : TxnState} {x : Ending} {t : String} {e : Int}

/-- How a reference ends, going by the state that is stored. -/
def moves? (coord : CoordState) (ref : TxnRef) : Option Ending :=
  (coord.detail? ref.transaction ref.producerEpoch).bind fun d =>
    (CoordState.terminal d.state).map fun state =>
      ⟨ref.transaction, ref.producerId, ref.producerEpoch, d, state⟩

/-- The reference is held to be in the state that its terminal state calls for. -/
def Agrees (coord : CoordState) (ref : TxnRef) : Prop :=
  ∀ x, moves? coord ref = some x →
    (ref.state = .prepareCommit ↔ x.state = .committed) ∧
      (ref.state = .prepareAbort ↔ x.state = .aborted)

/-- The offsets that are released. -/
def released (staged : Staged) (ended : List Ending) : Staged :=
  (ended.filter fun x => x.state = .committed).foldl
    (fun staged x => Meta.stage staged x.detail.offsets) staged

theorem listed_pushAborted {producer : Int}
    {ranges : List (Topition × Tansu.Nvme.TxnProduceOffset)} :
    listed (m.pushAborted producer ranges) tp = listed m tp ++
      (ranges.filter (·.1 = tp)).map fun entry =>
        ⟨producer, entry.2.offsetStart, entry.2.offsetEnd⟩ := by
  simp only [listed, Meta.pushAborted]
  generalize m.aborted = aborted
  induction ranges generalizing aborted with
  | nil => simp
  | cons entry ranges ih =>
    rw [foldl_cons, ih, getElem?_alter_eq]
    by_cases hk : entry.1 = tp
    · simp [hk]
    · simp [hk]

/-- What a transaction staged takes the place of what was there. -/
theorem getElem?_stage {staged : Staged} {offsets : BTreeMap (Group × Topition) TxnCommitOffset}
    {key : Group × Topition} :
    (Meta.stage staged offsets)[key]? = offsets[key]?.or staged[key]? := by
  have hfold : (Meta.stage staged offsets)[key]? =
      (((offsets.toList.filter (·.1 = key)).getLast?).map Prod.snd).or staged[key]? :=
    getElem?_foldl_insert offsets.toList staged
  rw [hfold, filter_toList]
  cases offsets[key]? <;> rfl

theorem resolveRef_of_none (h : moves? acc.1.coord ref = none) : Meta.resolveRef acc ref = acc := by
  unfold Meta.resolveRef
  unfold moves? at h
  cases hd : acc.1.coord.detail? ref.transaction ref.producerEpoch with
  | none => rfl
  | some d =>
    have hst : CoordState.terminal d.state = none := by simpa [hd] using h
    simp only [hst]

theorem moves?_eq_some (h : moves? coord ref = some x) :
    x.transaction = ref.transaction ∧ x.producerId = ref.producerId ∧
      x.producerEpoch = ref.producerEpoch ∧
      coord.detail? ref.transaction ref.producerEpoch = some x.detail ∧
      CoordState.terminal x.detail.state = some x.state := by
  obtain ⟨d, hd, hx⟩ := bind_eq_some_iff.1 h
  obtain ⟨state, hst, rfl⟩ := map_eq_some_iff.1 hx
  exact ⟨rfl, rfl, rfl, hd, hst⟩

/-- One transaction of the resolution: it ends up in the index or in the offsets to
commit, by its terminal state. -/
theorem resolveRef_of_some (tp : Topition) (h : moves? acc.1.coord ref = some x)
    (hagree : Agrees acc.1.coord ref) :
    listed (Meta.resolveRef acc ref).1 tp = listed acc.1 tp ++ abortedBy tp [x] ∧
      (Meta.resolveRef acc ref).2 = released acc.2 [x] := by
  obtain ⟨hcommit, habort⟩ := hagree x h
  obtain ⟨-, hpid, -, hd, hst⟩ := moves?_eq_some h
  simp only [Meta.resolveRef, hd, hst]
  constructor
  · by_cases ha : ref.state = .prepareAbort
    · have hx : x.state = .aborted := habort.1 ha
      have hpush : listed (acc.1.pushAborted ref.producerId x.detail.ranges.toList) tp =
          listed acc.1 tp ++ abortedBy tp [x] := by
        rw [listed_pushAborted, filter_toList, TxnDetail.getElem?_ranges, ← hpid]
        simp only [abortedBy, Ending.indexed?, hx, decide_true, filter_cons_of_pos, filter_nil]
        cases hr : x.detail.range? tp <;> simp [hr]
      simp only [ha, if_pos]
      exact hpush
    · have hx : x.state ≠ .aborted := fun hx => ha (habort.2 hx)
      simp [ha, hx, abortedBy, listed]
  · by_cases hc : ref.state = .prepareCommit
    · simp [hc, hcommit.1 hc, released]
    · have hx : x.state ≠ .committed := fun hx => hc (hcommit.2 hx)
      simp [hc, hx, released]

theorem detail?_resolveRef (hne : ¬ (ref.transaction = t ∧ ref.producerEpoch = e)) :
    (Meta.resolveRef acc ref).1.coord.detail? t e = acc.1.coord.detail? t e := by
  cases h : moves? acc.1.coord ref with
  | none => rw [resolveRef_of_none h]
  | some x =>
    obtain ⟨-, -, -, hd, hst⟩ := moves?_eq_some h
    simp only [Meta.resolveRef, hd, hst]
    rw [detail?_modifyDetail, if_neg hne]
    split <;> rfl

/-- The references name different epochs. -/
def Distinct (refs : List TxnRef) : Prop :=
  refs.Pairwise fun r r' => ¬ (r.transaction = r'.transaction ∧ r.producerEpoch = r'.producerEpoch)

theorem foldl_resolveRef (tp : Topition) (hdistinct : Distinct refs)
    (hagree : ∀ ref ∈ refs, Agrees acc.1.coord ref) :
    listed (refs.foldl Meta.resolveRef acc).1 tp =
        listed acc.1 tp ++ abortedBy tp (refs.filterMap (moves? acc.1.coord)) ∧
      (refs.foldl Meta.resolveRef acc).2 = released acc.2
        (refs.filterMap (moves? acc.1.coord)) := by
  induction refs generalizing acc with
  | nil => simp [abortedBy, released]
  | cons ref refs ih =>
    obtain ⟨hne, hdistinct⟩ := pairwise_cons.1 hdistinct
    -- The references that remain still see the details they saw at first.
    have hsame : ∀ r ∈ refs, moves? (Meta.resolveRef acc ref).1.coord r = moves? acc.1.coord r := by
      intro r hr
      rw [moves?, detail?_resolveRef (hne r hr), ← moves?]
    have hagree' : ∀ r ∈ refs, Agrees (Meta.resolveRef acc ref).1.coord r := by
      intro r hr x hx
      rw [hsame r hr] at hx
      exact hagree r (mem_cons_of_mem _ hr) x hx
    obtain ⟨hindex, hstaged⟩ := ih hdistinct hagree'
    rw [filterMap_congr hsame] at hindex hstaged
    rw [foldl_cons, hindex, hstaged]
    cases h : moves? acc.1.coord ref with
    | none =>
      rw [resolveRef_of_none h, filterMap_cons_none h]
      exact ⟨rfl, rfl⟩
    | some x =>
      obtain ⟨hindex, hstaged⟩ := resolveRef_of_some tp h (hagree ref mem_cons_self)
      rw [hindex, hstaged, filterMap_cons_some h]
      constructor
      · rw [append_assoc]
        simp only [abortedBy, ← filterMap_append, ← filter_append, singleton_append]
      · simp only [released, ← foldl_append, ← filter_append, singleton_append]

/-! ### The references of a call -/

theorem transaction_of_overlapping {candidates : BTreeMap Topition Tansu.Nvme.TxnProduceOffset}
    {t' : String} {pid : Int} {txn : Tansu.Nvme.Txn}
    (h : CoordState.overlapping candidates t pid e t' txn = some ref) : ref.transaction = t' := by
  obtain ⟨⟨epoch, d⟩, -, href⟩ := exists_of_findSome?_eq_some h
  simp only at href
  split at href
  · cases href
  · split at href
    · cases href
    · split at href
      · cases href
      · split at href <;> cases href
        rfl

/-- A transactional id is at most one peer, and the caller's own epoch is none. -/
theorem distinct_refs (hp : coord.producer? call.transactionId = some call.producerId) :
    Distinct (coord.peers call ++ [CoordState.ownRef call]) := by
  refine pairwise_append.2 ⟨?_, pairwise_singleton _ _, fun r hr r' hr' => ?_⟩
  · refine List.Pairwise.filterMap _ ?_ distinct_keys_toList
    rintro ⟨t, txn⟩ ⟨t', txn'⟩ hne r hr r' hr' ⟨heq, -⟩
    rw [transaction_of_overlapping hr, transaction_of_overlapping hr'] at heq
    exact hne (heq ▸ compare_self)
  · rw [mem_singleton.1 hr']
    exact ne_own_of_mem_peers hp hr

/-- A peer is held to be in the state it is in; the caller's own transaction is held to
be in the state that it asks for. -/
theorem agrees_refs (hdef : coord.deferred call = false) (hagree : agrees coord call = true) :
    ∀ ref ∈ coord.peers call ++ [CoordState.ownRef call], Agrees coord ref := by
  intro ref href x hx
  obtain ⟨-, -, -, hd, hst⟩ := moves?_eq_some hx
  rcases mem_append.1 href with href | href
  · obtain ⟨-, d, hd', hstate, -⟩ := mem_peers href
    rw [hd] at hd'
    cases hd'
    have hprepared : ref.state.isPrepared = true := by
      simp only [CoordState.deferred, Bool.not_eq_false'] at hdef
      exact List.all_eq_true.1 hdef ref href
    rw [hstate] at hst
    match hr : ref.state with
    | .prepareCommit =>
      rw [hr] at hst
      simp [← Option.some.inj hst]
    | .prepareAbort =>
      rw [hr] at hst
      simp [← Option.some.inj hst]
    | .begin | .committed | .aborted => simp [hr, TxnState.isPrepared] at hprepared
  · obtain rfl := mem_singleton.1 href
    have hd : coord.detail? call.transactionId call.producerEpoch = some x.detail := hd
    simp only [agrees, hd, hst, all_some, beq_iff_eq] at hagree
    have hstate : (CoordState.ownRef call).state = TxnState.prepare call.committed := rfl
    rw [hstate]
    have hterm := isTerminal_of_terminal hst
    match hx : x.state with
    | .committed | .aborted => simp [← hagree, hx, TxnState.prepare]
    | .begin | .prepareCommit | .prepareAbort => simp [hx, TxnState.isTerminal] at hterm

/-- What a resolution ends is what its references move. -/
theorem endings_resolve (hp : coord.producer? call.transactionId = some call.producerId) :
    (endings coord (coord.resolve call).1).Perm
      ((coord.peers call ++ [CoordState.ownRef call]).filterMap (moves? coord)) := by
  have hres := coord.resolve_resolved call
  have hpid : ∀ ref ∈ coord.peers call ++ [CoordState.ownRef call],
      coord.producer? ref.transaction = some ref.producerId := by
    intro ref href
    rcases mem_append.1 href with href | href
    · exact (mem_peers href).1
    · rw [mem_singleton.1 href]
      exact hp
  have hnodup : ((coord.peers call ++ [CoordState.ownRef call]).filterMap
    (moves? coord)).Nodup := by
    refine List.Pairwise.filterMap _ ?_ (distinct_refs hp)
    rintro r r' hne x hx y hy rfl
    obtain ⟨ht, -, he, -⟩ := moves?_eq_some hx
    obtain ⟨ht', -, he', -⟩ := moves?_eq_some hy
    exact hne ⟨ht.symm.trans ht', he.symm.trans he'⟩
  refine (perm_ext_iff_of_nodup nodup_endings hnodup).2 fun x => ?_
  rw [mem_endings, List.mem_filterMap]
  constructor
  · rintro ⟨hprod, hd, hstate, -, hne⟩
    rcases hres.detail x.transaction x.producerEpoch with heq |
      ⟨ref, href, d, state, ht, he, hd', hst, hfin, -⟩
    · rw [heq, hd] at hstate
      exact absurd hstate hne
    · rw [hd] at hd'
      cases hd'
      rw [hfin] at hstate
      obtain rfl : state = x.state := Option.some.inj hstate
      refine ⟨ref, href, ?_⟩
      have hpid := hpid ref href
      rw [ht, hprod] at hpid
      simp [moves?, ht, he, hd, hst, ← Option.some.inj hpid]
  · rintro ⟨ref, href, hx⟩
    obtain ⟨ht, hpid', he, hd, hst⟩ := moves?_eq_some hx
    have hfin := hres.moved ref href x.detail x.state hd hst
    refine ⟨?_, ?_, ?_, isTerminal_of_terminal hst, fun h => ?_⟩
    · rw [ht, hpid']
      exact hpid ref href
    · rw [ht, he, hd]
    · rw [ht, he, hfin]
      rfl
    · rw [h, terminal_of_terminal hst] at hst
      cases hst

end Resolve

/-! ### The offsets of a resolution -/

section Released

variable {ended : List Ending} {staged : Staged} {x : Ending} {co : TxnCommitOffset}

/-- The last of the transactions that staged something for a key decides. -/
theorem getElem?_foldl_stage {key : Group × Topition} :
    (ended.foldl (fun staged x => Meta.stage staged x.detail.offsets) staged)[key]? =
      (ended.filterMap (·.detail.offsets[key]?)).getLast?.or staged[key]? := by
  induction ended generalizing staged with
  | nil => simp
  | cons x ended ih =>
    rw [foldl_cons, ih, getElem?_stage]
    cases hx : x.detail.offsets[key]? with
    | none => simp [hx]
    | some co =>
      rw [filterMap_cons, hx, getLast?_cons]
      cases (ended.filterMap (·.detail.offsets[key]?)).getLast? <;> rfl

/-- What is released was staged by a transaction that was committed. -/
theorem commits_of_released (h : (released ∅ ended)[((group, tp) : Group × Topition)]? = some co) :
    ∃ x ∈ ended, x.Commits group tp co := by
  rw [released, getElem?_foldl_stage, getElem?_empty, or_none] at h
  obtain ⟨x, hx, hco⟩ := List.mem_filterMap.1 (mem_of_getLast? h)
  obtain ⟨hx, hstate⟩ := List.mem_filter.1 hx
  exact ⟨x, hx, of_decide_eq_true hstate, hco⟩

/-- What a transaction that was committed staged is released, unless another one staged
something else for the same partition. -/
theorem released_of_commits (hx : x ∈ ended) (hco : x.Commits group tp co) :
    ∃ co', (released ∅ ended)[((group, tp) : Group × Topition)]? = some co' := by
  rw [released, getElem?_foldl_stage, getElem?_empty, or_none]
  refine ⟨_, getLast?_eq_some_getLast (ne_nil_of_mem (a := co)
    (List.mem_filterMap.2 ⟨x, ?_, hco.2⟩))⟩
  exact List.mem_filter.2 ⟨hx, decide_eq_true hco.1⟩

end Released

/-- What a resolution does, by the transactions it ends. -/
theorem resolve_ended {m : Meta} (hp : m.coord.producer? call.transactionId = some call.producerId)
    (hdef : m.coord.deferred call = false) (hagree : agrees m.coord call = true) :
    ∃ ended, ended.Perm (endings m.coord (m.resolve call).1.coord) ∧
      (∀ tp, listed (m.resolve call).1 tp = listed m tp ++ abortedBy tp ended) ∧
      (m.resolve call).2 = released ∅ ended := by
  have hfold (tp : Topition) : _ ∧ (m.resolve call).2 = _ :=
    foldl_resolveRef tp (distinct_refs hp) (agrees_refs hdef hagree)
  refine ⟨_, ?_, fun tp => (hfold tp).1, (hfold ⟨"", 0⟩).2⟩
  rw [Meta.resolve_coord]
  exact (endings_resolve hp).symm

/-! ## The invariant -/

def target : Section → Prop
  | .offsets _ => True
  | _ => False

structure Inv (p : EngineWorld × List Event) : Prop where
  lead : ∀ todo ∈ p.1.tasks, Lead target target todo
  follows : Follows p
  sources : ∀ (i : Nat) todo, p.1.tasks[i]? = some todo → ∀ a ∈ todo,
    ∀ group tp request, Stores group tp request a → Source p.2 i group tp request

theorem Stores.target (h : Stores group tp request a) : target a := by
  cases a with
  | offsets => trivial
  | produce | txn | fetch | handler => exact h

variable {more : List Event} {l : EngineLabel}

theorem Source.mono (h : Source history i group tp request) :
    Source (history ++ more) i group tp request := by
  rcases h with h | ⟨ended, x, co, h, hx, hco, heq⟩
  · exact .inl (mem_append_left _ h)
  · exact .inr ⟨ended, x, co, mem_append_left _ h, hx, hco, heq⟩

/-- The offsets of consumer groups do not fail. -/
theorem not_lost (hok : consistent w (.run i c)) (hat : At w i a rest)
    (h : exec cfg w.shared c a = .err s' err) : ¬ target a := by
  cases a with
  | offsets step =>
    exfalso
    cases step with
    | topic group tp request =>
      have hf : c.fault = false := by
        simp only [consistent, hat.get, Bool.and_eq_true,
          Bool.not_eq_true'] at hok
        exact hok.1
      simp [exec, Offsets.exec, hf] at h
    | put => cases h
  | produce | txn | fetch | handler => exact id

/-- Offsets to commit are put into a task by a resolution and by a commit itself. -/
theorem target_next (h : exec cfg s c a = .ok s' next) (ha : ¬ target a)
    (ha' : ∀ call, a ≠ .txn (.resolve call)) : ∀ b ∈ next, ¬ target b := by
  intro b hb htarget
  cases mem_next h hb with
  | commit call => exact ha' call rfl
  | offset => exact ha trivial
  | _ => exact htarget

theorem lead_next (h : exec cfg s c a = .ok s' next) :
    Lead target target next ∧ (target a → ∀ b ∈ next, target b) := by
  by_cases ha : target a ∨ ∃ call, a = .txn (.resolve call)
  · have hall : ∀ b ∈ next, target b := by
      intro b hb
      have hleads := mem_next h hb
      rcases ha with ha | ⟨call, rfl⟩
      · cases hleads with
        | offset => trivial
        | _ => exact ha.elim
      · cases hleads
        trivial
    exact ⟨.of_safe hall, fun _ => hall⟩
  · obtain ⟨ha, ha'⟩ := not_or.1 ha
    refine ⟨.of_not_target (target_next h ha fun call heq => ha' ⟨call, heq⟩), fun h => absurd h ha⟩

theorem lead_step (hlead : ∀ todo ∈ w.tasks, Lead target target todo) (hok : consistent w l)
    (h : (machine cfg).step w l = some w') : ∀ todo ∈ w'.tasks, Lead target target todo := by
  refine Lead.all_step hlead h (fun r _ => ?_) (fun i c a rest s next _ _ he => lead_next he)
    fun i c a rest s e hl hat he => ?_
  · cases r with
    | offsetCommit group offsets =>
      refine .of_safe fun a ha => ?_
      obtain ⟨_, -, rfl⟩ := List.mem_map.1 ha
      trivial
    | _ => exact .of_not_target (by simp [machine, Request.start, target])
  · subst hl
    exact .inl (not_lost hok hat he)

theorem abortedRanges_append :
    abortedRanges tp (history ++ more) = abortedRanges tp history ++ abortedRanges tp more := by
  simp [abortedRanges]

theorem Inv.extend (hi : Inv (w, history)) (hlead : ∀ todo ∈ w'.tasks, Lead target target todo)
    (hindex : ∀ tp, (listed w'.shared.metadata tp).Perm
      (listed w.shared.metadata tp ++ abortedRanges tp more))
    (howed : ∀ i group tp request, Owes w i (Stores group tp request) →
      Owes w' i (Stores group tp request) ∨ .applied i group tp request ∈ more)
    (hended : ∀ i ended x group tp co, .ended i ended ∈ more → x ∈ ended → x.Commits group tp co →
      ∃ y ∈ ended, ∃ co', y.Commits group tp co' ∧
        Owes w' i (Stores group tp (Transactions.offsetRequest co')))
    (happlied : ∀ i group tp request, .applied i group tp request ∈ more →
      Source history i group tp request)
    (hsources : ∀ (i : Nat) todo, w'.tasks[i]? = some todo → ∀ a ∈ todo,
      ∀ group tp request, Stores group tp request a → Source (history ++ more) i group tp request) :
    Inv (w', history ++ more) := by
  refine ⟨hlead, ⟨fun tp => ?_, ?_, ?_⟩, hsources⟩
  · rw [abortedRanges_append]
    exact (hindex tp).trans ((hi.follows.index tp).append_right _)
  · intro past later i ended x group tp co hsplit hx hco
    rcases split_append hsplit with ⟨later', hh, rfl⟩ | ⟨past', hm, -⟩
    · obtain ⟨y, hy, co', hco', hdone⟩ :=
        hi.follows.committed past later' i ended x group tp co hh hx hco
      refine ⟨y, hy, co', hco', ?_⟩
      rcases hdone with happ | ho
      · exact .inl (mem_append_left _ happ)
      · rcases howed i group tp _ ho with ho | happ
        · exact .inr ho
        · exact .inl (mem_append_right _ happ)
    · obtain ⟨y, hy, co', hco', ho⟩ := hended i ended x group tp co (by simp [hm]) hx hco
      exact ⟨y, hy, co', hco', .inr ho⟩
  · intro past later i group tp request hsplit
    rcases split_append hsplit with ⟨later', hh, -⟩ | ⟨past', hm, rfl⟩
    · exact hi.follows.applied past later' i group tp request hh
    · exact (happlied i group tp request (by simp [hm])).mono

/-- An offset stays owed until its task stores it. -/
theorem owes_step (hlead : ∀ todo ∈ w.tasks, Lead target target todo)
    (hok : consistent w (.run j c)) (h : (machine cfg).step w (.run j c) = some w')
    (ho : Owes w i (Stores group tp request)) : Owes w' i (Stores group tp request) ∨
      (i = j ∧ ∃ a rest, At w j a rest ∧ Stores group tp request a) :=
  Owes.step hlead (fun _ => Stores.target) h (fun _ _ _ _ hat he => .inl (not_lost hok hat he)) ho

theorem sources_step (hi : Inv (w, history)) (h : (machine cfg).step w (.run i c) = some w')
    (hat : At w i a rest) (hnext : ∀ next, exec cfg w.shared c a = .ok w'.shared next → ∀ b ∈ next,
      ∀ group tp request, Stores group tp request b → Source (history ++ more) i group tp request) :
    ∀ (j : Nat) todo, w'.tasks[j]? = some todo → ∀ b ∈ todo, ∀ group tp request,
      Stores group tp request b → Source (history ++ more) j group tp request := by
  refine forall_tasks_step hi.sources (fun j b hp group tp request hb =>
    (hp group tp request hb).mono) h (fun r hl => by cases hl) ?_
  intro i' c' a' rest' next hl hat' he
  cases hl
  obtain ⟨rfl, rfl⟩ := hat.eq hat'
  exact hnext next he

theorem applications_eq_nil (hat : At w i a rest)
    (ha : ∀ group tp request, a ≠ .offsets (.put group tp request)) : applications w i c = [] := by
  unfold applications
  rw [hat.get]
  split
  · next heq =>
    cases heq
    exact absurd rfl (ha _ _ _)
  · rfl

section

variable (hi : Inv (w, history)) (hok : consistent w (.run i c))
  (h : (machine cfg).step w (.run i c) = some w')
include hi hok h

theorem Inv.other (hat : At w i a rest)
    (hends : endings w.shared.metadata.coord w'.shared.metadata.coord = [])
    (hsame : w'.shared.metadata.aborted = w.shared.metadata.aborted)
    (ha : ∀ group tp request, a ≠ .offsets (.put group tp request))
    (howed : ∀ group tp request, Stores group tp request a →
      Owes w' i (Stores group tp request))
    (hnext : ∀ next, exec cfg w.shared c a = .ok w'.shared next → ∀ b ∈ next,
      ∀ group tp request, Stores group tp request b → Stores group tp request a) :
    Inv (w', observe history w (.run i c) w') := by
  simp only [observe, hends, applications_eq_nil hat ha]
  refine hi.extend (lead_step hi.lead hok h) (fun tp => ?_) (fun j group tp request ho => .inl ?_)
    (fun i ended x group tp co hmem hx => ?_) (fun i group tp request hmem => ?_)
    (sources_step hi h hat fun next he b hb group tp request hs => ?_)
  · simp [listed, hsame, abortedRanges, abortedBy]
  · rcases owes_step hi.lead hok h ho with ho | ⟨rfl, a', rest', hat', hs⟩
    · exact ho
    · obtain ⟨rfl, rfl⟩ := hat.eq hat'
      exact howed group tp request hs
  · cases mem_singleton.1 hmem
    cases hx
  · cases mem_singleton.1 hmem
  · exact (hi.sources i _ hat a mem_cons_self group tp request
      (hnext next he b hb group tp request hs)).mono

/-- A resolution: the index and the task receive what the terminal states call for. -/
theorem Inv.resolve (hat : At w i (.txn (.resolve call)) rest) :
    Inv (w', observe history w (.run i c) w') := by
  have hnone (hsame : w'.shared = w.shared) (hnext : ∀ next,
      exec cfg w.shared c (.txn (.resolve call)) = .ok w'.shared next → next = []) :
      Inv (w', observe history w (.run i c) w') := by
    refine hi.other hok h hat ?_ (by rw [hsame]) (by simp) (fun _ _ _ hs => hs.elim)
      fun next he b hb => ?_
    · rw [hsame]
      exact endings_of_detail fun _ _ => rfl
    · rw [hnext next he] at hb
      cases hb
  obtain @⟨s, next, he⟩ | @⟨s, e, he⟩ := hat.step h
  · have he' : exec cfg w.shared c (.txn (.resolve call)) = .ok s next := he
    have hf : c.fault = false := by
      by_contra hf
      simp [exec, Transactions.exec, Bool.not_eq_false _ ▸ hf, failed] at he'
    have hres : Transactions.resolve w.shared call = .ok s next := by
      simpa [exec, Transactions.exec, hf] using he'
    obtain ⟨d, hd, ⟨rfl, rfl⟩ | ⟨hdef, rfl, rfl⟩⟩ := Transactions.resolve_ok hres
    · refine hnone rfl fun next he'' => ?_
      rw [he'] at he''
      cases he''
      rfl
    · have hagree : agrees w.shared.metadata.coord call = true := by
        simpa [consistent, hat.get, hdef, hf] using hok
      -- the flag of the call agrees with the states, so both name the same transactions
      obtain ⟨ended, hperm, hindex, hstaged⟩ :=
        resolve_ended (txnDetail_eq_ok.1 hd).1 hdef hagree
      simp only [observe, applications_eq_nil hat (by simp)]
      refine hi.extend (lead_step hi.lead hok h) (fun tp => ?_)
        (fun j group tp request ho => .inl ?_)
        (fun j ended' x group tp co hmem hx hco => ?_) (fun i group tp request hmem => ?_)
        (sources_step hi h hat fun next he'' b hb group tp request hs => ?_)
      · rw [hindex tp]
        simp only [abortedRanges, flatMap_cons, flatMap_nil, append_nil]
        exact ((hperm.filter _).filterMap _).append_left _
      · rcases owes_step hi.lead hok h ho with ho | ⟨-, a', rest', hat', hs⟩
        · exact ho
        · obtain ⟨rfl, rfl⟩ := hat.eq hat'
          exact hs.elim
      · cases mem_singleton.1 hmem
        obtain ⟨co', hco'⟩ := released_of_commits (hperm.mem_iff.2 hx) hco
        obtain ⟨y, hy, hyco⟩ := commits_of_released hco'
        refine ⟨y, hperm.mem_iff.1 hy, co', hyco, _, getElem?_set_self hat.lt,
          .offsets (.topic group tp (Transactions.offsetRequest co')), ?_, rfl, rfl, rfl⟩
        refine mem_append_left _ (Transactions.mem_offsetCommits.2 ⟨group, tp, co', ?_, rfl⟩)
        rw [hstaged, hco']
      · cases mem_singleton.1 hmem
      · rw [he'] at he''
        cases he''
        obtain ⟨group', tp', co, hco, rfl⟩ := Transactions.mem_offsetCommits.1 hb
        obtain ⟨rfl, rfl, rfl⟩ := hs
        rw [hstaged] at hco
        obtain ⟨x, hx, hxco⟩ := commits_of_released hco
        exact .inr ⟨_, x, co, mem_append_right _ (mem_singleton.2 rfl),
          hperm.mem_iff.1 hx, hxco, rfl⟩
  · have he' : Transactions.exec w.shared c (.resolve call) = .err s e := he
    refine hnone (Transactions.exec_err he') fun next he'' => ?_
    have he'' : Transactions.exec w.shared c (.resolve call) = .ok s next := he''
    rw [he''] at he'
    cases he'

theorem Inv.topic (hat : At w i (.offsets (.topic group tp request)) rest) :
    Inv (w', observe history w (.run i c) w') := by
  obtain ⟨hf, hknown⟩ : c.fault = false ∧ tp.topic ∈ w.shared.metadata.coord.topics := by
    simpa [consistent, hat.get] using hok
  have hexec : exec cfg w.shared c (.offsets (.topic group tp request)) =
      .ok w.shared [.offsets (.put group tp request)] := by
    simp [exec, Offsets.exec, hf, hknown]
  obtain he | he := hat.step h
  all_goals
    have he : exec cfg w.shared c (.offsets (.topic group tp request)) = _ := he
    rw [hexec] at he
    cases he
  refine hi.other hok h hat (endings_of_detail fun _ _ => rfl) rfl (by simp)
    (fun group' tp' request' hs => ?_) fun next he b hb group' tp' request' hs => ?_
  · exact ⟨_, getElem?_set_self hat.lt, .offsets (.put group tp request), by simp, hs⟩
  · rw [hexec] at he
    cases he
    rw [mem_singleton.1 hb] at hs
    exact hs

theorem Inv.put (hat : At w i (.offsets (.put group tp request)) rest) :
    Inv (w', observe history w (.run i c) w') := by
  have hf : c.fault = false := by
    simpa [consistent, hat.get] using hok
  have happ : applications w i c = [.applied i group tp request] := by
    simp only [applications, hat.get, hf]
    rfl
  have hmeta : w'.shared.metadata = w.shared.metadata := by
    obtain he | he := hat.step h
    all_goals
      cases he
    split <;> rfl
  simp only [observe, happ, hmeta, endings_of_detail fun _ _ => rfl]
  refine hi.extend (lead_step hi.lead hok h) (fun tp => ?_) (fun j group' tp' request' ho => ?_)
    (fun i ended x group tp co hmem hx => ?_) (fun j group' tp' request' hmem => ?_)
    (sources_step hi h hat fun next he b hb => ?_)
  · simp [hmeta, abortedRanges, abortedBy]
  · rcases owes_step hi.lead hok h ho with ho | ⟨rfl, a', rest', hat', hs⟩
    · exact .inl ho
    · obtain ⟨rfl, rfl⟩ := hat.eq hat'
      obtain ⟨rfl, rfl, rfl⟩ := hs
      exact .inr (by simp)
  · simp only [mem_cons, Event.ended.injEq, reduceCtorEq, not_mem_nil, or_false] at hmem
    rw [hmem.2] at hx
    cases hx
  · simp only [mem_cons, reduceCtorEq, Event.applied.injEq, not_mem_nil, or_false,
      false_or] at hmem
    obtain ⟨rfl, rfl, rfl, rfl⟩ := hmem
    exact hi.sources _ _ hat _ mem_cons_self _ _ _ ⟨rfl, rfl, rfl⟩
  · obtain ⟨-, rfl⟩ := Outcome.ok.inj he
    cases hb

end

/-! ## Every step -/

theorem Inv.spawn {r : Request} (hi : Inv (w, history))
    (h : (machine cfg).step w (.spawn r) = some w') :
    Inv (w', observe history w (.spawn r) w') := by
  have hlead := lead_step hi.lead (l := .spawn r) rfl h
  obtain rfl : (⟨w.shared, w.tasks ++ [r.start]⟩ : EngineWorld) = w' := Option.some.inj h
  have hextend (more : List Event)
      (hmore : ∀ ev ∈ more, ∃ i group tp request, ev = .requested i group tp request)
      (hstart : ∀ a ∈ r.start, ∀ group tp request, Stores group tp request a →
        .requested w.tasks.length group tp request ∈ more) :
      Inv (⟨w.shared, w.tasks ++ [r.start]⟩, history ++ more) := by
    refine hi.extend hlead (fun tp => ?_) (fun i group tp request ho => .inl ho.spawn)
      (fun i ended x group tp co hmem => ?_) (fun i group tp request hmem => ?_) ?_
    · have hnil : abortedRanges tp more = [] := by
        refine flatMap_eq_nil_iff.2 fun ev hev => ?_
        obtain ⟨_, _, _, _, rfl⟩ := hmore ev hev
        rfl
      rw [hnil, append_nil]
    · obtain ⟨_, _, _, _, heq⟩ := hmore _ hmem
      cases heq
    · obtain ⟨_, _, _, _, heq⟩ := hmore _ hmem
      cases heq
    · refine forall_tasks_step hi.sources
        (fun j b hp group tp request hb => (hp group tp request hb).mono) h
        (fun r' hl a ha group tp request hs => ?_) fun i c a rest next hl => ?_
      · cases hl
        exact .inl (mem_append_right _ (hstart a ha group tp request hs))
      · cases hl
  cases r with
  | offsetCommit group offsets =>
    refine hextend _ (fun ev hev => ?_) fun a ha group' tp request hs => ?_
    · obtain ⟨o, -, rfl⟩ := List.mem_map.1 hev
      exact ⟨_, _, _, _, rfl⟩
    · obtain ⟨o, ho, rfl⟩ := List.mem_map.1 ha
      obtain ⟨rfl, rfl, rfl⟩ := hs
      exact List.mem_map.2 ⟨o, ho, rfl⟩
  | _ =>
    have key := hextend [] (by simp) (by simp [Request.start, Stores])
    rw [append_nil] at key
    exact key

theorem Inv.step (hi : Inv (w, history)) (hok : consistent w l)
    (hs : (machine cfg).step w l = some w') : Inv (w', observe history w l w') := by
  cases l with
  | spawn r => exact hi.spawn hs
  | env e => exact nomatch e
  | run i c =>
    obtain ⟨a, rest, hat, heffect⟩ := effect_of_step hs
    have hquiet (ha : ¬ target a) (ha' : ∀ call, a ≠ .txn (.resolve call)) :
        Inv (w', observe history w (.run i c) w') := by
      obtain ⟨hends, hsame⟩ := endings_effect heffect ha'
      refine hi.other hok hs hat hends hsame ?_ (fun _ _ _ hs => absurd hs.target ha)
        fun next he b hb _ _ _ hs => absurd hs.target (target_next he ha ha' b hb)
      rintro group tp request rfl
      exact ha trivial
    cases a with
    | offsets step =>
      cases step with
      | topic group tp request => exact hi.topic hok hs hat
      | put group tp request => exact hi.put hok hs hat
    | txn step =>
      cases step with
      | resolve call => exact hi.resolve hok hs hat
      | initProducer | addPartitions | offsetCommit | prepare | sweep =>
        exact hquiet id (by simp)
    | produce | fetch | handler => exact hquiet id (by simp)

/-- What the store holds for a group was put there. -/
def Stored (p : EngineWorld × List Event) : Prop :=
  ∀ (group : Group) (tp : Topition) request,
    p.1.shared.offsets[(group, tp)]? = some request → ∃ i, .applied i group tp request ∈ p.2

theorem effect_offsets (h : Effect s a s') : s'.offsets = s.offsets ∨
    ∃ group tp request, a = .offsets (.put group tp request) ∧
      s'.offsets = s.offsets.insert (group, tp) request := by
  cases h with
  | offset group tp request => exact .inr ⟨group, tp, request, rfl, rfl⟩
  | _ => exact .inl rfl

theorem Stored.step (hi : Stored (w, history)) (hok : consistent w l)
    (hs : (machine cfg).step w l = some w') : Stored (w', observe history w l w') := by
  intro group tp request hmem
  have hold (more : List Event) (hmem : w.shared.offsets[(group, tp)]? = some request) :
      ∃ i, .applied i group tp request ∈ history ++ more := by
    obtain ⟨i, hin⟩ := hi group tp request hmem
    exact ⟨i, mem_append_left _ hin⟩
  cases l with
  | spawn r =>
    cases hs
    cases r with
    | offsetCommit => exact hold _ hmem
    | _ => simpa [observe] using hold [] hmem
  | env e => exact nomatch e
  | run i c =>
    obtain ⟨a, rest, hat, heffect⟩ := effect_of_step hs
    rcases effect_offsets heffect with heq | ⟨group', tp', request', rfl, heq⟩
    · dsimp only at hmem
      rw [heq] at hmem
      exact hold _ hmem
    · dsimp only at hmem
      rw [heq, getElem?_insert_eq] at hmem
      split at hmem
      · next hkey =>
        cases hkey
        cases hmem
        have hf : c.fault = false := by
          simpa [consistent, hat.get] using hok
        refine ⟨i, mem_append_right _ (mem_cons_of_mem _ ?_)⟩
        simp [applications, hat.get, hf]
      · exact hold _ hmem

section Runs

variable {topics : BTreeMap Tansu.Nvme.Topic Tansu.Nvme.TopicMetadata}
  {p : EngineWorld × List Event}

theorem inv_opened : Inv (opened topics, []) := by
  refine ⟨by simp [opened], ⟨fun tp => ?_, ?_, ?_⟩, by simp [opened]⟩
  · simp [listed, opened, abortedRanges]
  · intro past later i ended x group tp co h
    simp at h
  · intro past later i group tp request h
    simp at h

theorem stored_opened : Stored (opened topics, []) := by
  intro group tp request h
  simp [opened] at h

/-! ## Resolution follows the terminal state -/

/-- What a transaction that was committed had staged for a partition has been stored, or
what another one had staged there that was committed along with it. -/
def Applied (history : List Event) : Prop :=
  ∀ past later i ended x group tp co, history = past ++ .ended i ended :: later →
    x ∈ ended → x.Commits group tp co →
    ∃ y ∈ ended, ∃ co', y.Commits group tp co' ∧
      .applied i group tp (Transactions.offsetRequest co') ∈ later

/-- **Resolution follows the terminal state.**  The index of aborted ranges holds the
ranges of the transactions that were aborted and no others; nothing is stored for a
group but what a client committed or a transaction that was committed had staged, and
with no request in flight all of the latter has been stored. -/
theorem resolution_follows_terminal_state
    (h : (system cfg).Reach (fun p l => consistent p.1 l = true) (opened topics, []) p) :
    Follows p ∧ Stored p ∧ (Quiescent p.1 → Applied p.2) := by
  obtain ⟨hi, hstored⟩ := h.invariant_observe (I := fun p => Inv p ∧ Stored p)
    ⟨inv_opened, stored_opened⟩ fun hi hok hs => ⟨hi.1.step hok hs, hi.2.step hok hs⟩
  refine ⟨hi.follows, hstored, fun hq past later i ended x group tp co hsplit hx hco => ?_⟩
  obtain ⟨y, hy, co', hco', hdone⟩ :=
    hi.follows.committed past later i ended x group tp co hsplit hx hco
  refine ⟨y, hy, co', hco', ?_⟩
  rcases hdone with happ | ⟨todo, htodo, a, ha, -⟩
  · exact happ
  · exact absurd ⟨todo, mem_of_getElem? htodo, ha⟩ (hq.not_pending a)

end Runs

open Schedule

/-- A transaction with three records and a staged offset, not yet ended. -/
def stagedRun : List EngineLabel :=
  List.flatten [[register "a"], turns 0 1,
    [.spawn (.txnAddPartitions "a" 1 0 [partition])], turns 1 1, [data "a" 1 0], turns 2 4,
    [.spawn (.txnOffsetCommit "a" 1 0 "g" [(partition, ⟨7, none, none⟩)])], turns 3 1]

/-- The store holds offset 7 for the group, and lists no aborted range. -/
def committedRun (s : Objects) : Bool :=
  (s.offsets[(("g", partition) : Group × Topition)]?).any (·.offset = 7) &&
    (listed s.metadata partition).isEmpty

theorem resolution_follows_terminal_state_stagedRun : ∃ p,
    (system {}).Reach (fun p l => consistent p.1 l = true) (store, []) p ∧
      committedRun p.1.shared ∧ Follows p ∧ Stored p ∧ (Quiescent p.1 → Applied p.2) := by
  exact (exists_reach
    (stagedRun ++ [.spawn (.txnEnd ⟨"a", 1, 0, true⟩)] ++ turns 4 8) (by decide +kernel)).imp
    fun p h => ⟨h.1, h.2, resolution_follows_terminal_state h.1⟩

/-! ### A retry that asks for the other direction -/

/-- No request to the store fails. -/
def faultless : EngineLabel → Bool
  | .run _ c => !c.fault
  | _ => true

/-- A transaction was committed that had staged an offset, no transaction was aborted on
the partition, nothing was stored. -/
def dropped (history : List Event) : Bool :=
  (history.any fun
    | .ended _ ended => ended.any fun x => x.state = .committed && !x.detail.offsets.toList.isEmpty
    | _ => false) &&
  (abortedRanges partition history).isEmpty &&
  !(history.any fun
    | .applied .. => true
    | _ => false)

theorem not_applied_of_dropped (h : dropped history = true) : ¬ Applied history := by
  intro happlied
  obtain ⟨h, hnone⟩ := Bool.and_eq_true_iff.1 h
  obtain ⟨hended, -⟩ := Bool.and_eq_true_iff.1 h
  obtain ⟨ev, hev, hended⟩ := List.any_eq_true.1 hended
  split at hended
  · next i ended =>
    obtain ⟨x, hx, hcommits⟩ := List.any_eq_true.1 hended
    obtain ⟨hstate, hoffsets⟩ := Bool.and_eq_true_iff.1 hcommits
    obtain ⟨past, later, hsplit⟩ := append_of_mem hev
    cases hl : x.detail.offsets.toList with
    | nil => simp [hl] at hoffsets
    | cons entry entries =>
      obtain ⟨⟨group, tp⟩, co⟩ := entry
      have hco : x.Commits group tp co := by
        refine ⟨of_decide_eq_true hstate, mem_toList_iff_getElem?_eq_some.1 ?_⟩
        rw [hl]
        exact mem_cons_self
      obtain ⟨y, -, co', -, happ⟩ := happlied past later i ended x group tp co hsplit hx hco
      have hmem : .applied i group tp (Transactions.offsetRequest co') ∈ history := by
        rw [hsplit]
        exact mem_append_right _ (mem_cons_of_mem _ happ)
      have hany : (history.any fun
          | .applied .. => true
          | _ => false) = true :=
        List.any_eq_true.2 ⟨_, hmem, rfl⟩
      rw [hany] at hnone
      cases hnone
  · cases hended

/-- The transaction is prepared for commit; before its own call resolves it, a second
call with `committed = false` does. -/
theorem opposite_retry_lists_committed : ∃ p,
    (system {}).Reach (fun _ l => faultless l = true) (store, []) p ∧ Quiescent p.1 ∧
      listed p.1.shared.metadata partition ≠ [] ∧ abortedRanges partition p.2 = [] ∧
      ¬ Applied p.2 := by
  refine (exists_reach (P := fun p => Quiescent p.1 ∧ dropped p.2 ∧ _)
    (stagedRun ++ [.spawn (.txnEnd ⟨"a", 1, 0, true⟩)] ++ turns 4 1 ++
      [.spawn (.txnEnd ⟨"a", 1, 0, false⟩)] ++ turns 5 2 ++ turns 4 5) (by decide +kernel)).imp
    fun p h => ⟨h.1, h.2.1, h.2.2.2, ?_, not_applied_of_dropped h.2.2.1⟩
  obtain ⟨hb, -⟩ := Bool.and_eq_true_iff.1 h.2.2.1
  simpa using (Bool.and_eq_true_iff.1 hb).2

end Direction

end Tansu.Dynostore.Engine
