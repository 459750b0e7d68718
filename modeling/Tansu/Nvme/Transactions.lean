import Tansu.Nvme.Produce

/-!
# Transactions

`init_producer`, `txn_add_partitions`, `txn_offset_commit`, `txn_end` and the
`maintain_transactions` sweep, section by section.  `txn_end` prepares the
transaction, writes its end markers, resolves it together with the prepared
transactions it overlaps, logs the terminal states, and then releases the pins
and commits the staged offsets.
-/

namespace Tansu.Nvme

open Std Tansu.Lib List ExtTreeMap

/-- What remains to be done for one resolved transaction. -/
structure TxnEffects where
  transaction : String
  producerId : Int
  producerEpoch : Int
  aborting : Bool
  ranges : List (Topition × TxnProduceOffset)
  offsets : List (Group × Topition × TxnCommitOffset)
deriving DecidableEq

namespace TxnEffects

def key (effect : TxnEffects) : OpenTxnKey :=
  (effect.transaction, effect.producerId, effect.producerEpoch)

def record (effect : TxnEffects) : WalRecord :=
  .txnTerminal effect.transaction effect.producerId effect.producerEpoch (!effect.aborting)
    (if effect.aborting then effect.ranges else [])

end TxnEffects

namespace CoordState

/-! ## Resolution -/

/-- The terminal state a transaction moves to, if it moves. -/
def terminal : Option TxnState → Option TxnState
  | none | some .prepareCommit => some .committed
  | some .prepareAbort => some .aborted
  | _ => none

/-- The terminal transition of one transaction.  Its state decides the terminal
state; the reference's state decides whether its offsets are applied. -/
def effects (detail : TxnDetail) (ref : TxnRef) (terminal : TxnState) : TxnEffects :=
  { transaction := ref.transaction
    producerId := ref.producerId
    producerEpoch := ref.producerEpoch
    aborting := decide (terminal = .aborted)
    ranges := detail.ranges.toList
    offsets := if ref.state = .prepareCommit then
        detail.offsets.toList.map fun entry => (entry.1.1, entry.1.2, entry.2)
      else [] }

def resolveRef (acc : CoordState × List TxnEffects) (ref : TxnRef) :
    CoordState × List TxnEffects :=
  match acc.1.detail? ref.transaction ref.producerEpoch with
  | none => acc
  | some detail =>
    match terminal detail.state with
    | none => acc
    | some state =>
      (acc.1.modifyDetail ref.transaction ref.producerEpoch (·.finish state),
        acc.2 ++ [effects detail ref state])

/-- The caller's own transaction, in the direction it asks for. -/
def ownRef (call : TxnEnd) : TxnRef :=
  ⟨call.transactionId, call.producerId, call.producerEpoch, .prepare call.committed⟩

/-- The transactions that overlap the caller's. -/
def peers (s : CoordState) (call : TxnEnd) : List TxnRef :=
  s.overlappingTransactions call.transactionId call.producerId call.producerEpoch

/-- Resolution waits while a transaction that overlaps is still open. -/
def deferred (s : CoordState) (call : TxnEnd) : Bool :=
  !(s.peers call).all (·.state.isPrepared)

/-- Phase 3: resolve the transaction and everything that overlaps it. -/
def resolve (s : CoordState) (call : TxnEnd) : CoordState × List TxnEffects :=
  (s.peers call ++ [ownRef call]).foldl resolveRef (s, [])

/-! ## The sweep -/

def expired (s : CoordState) (now : Int) : List (String × Int × Int) :=
  s.transactions.toList.flatMap fun (t, txn) =>
    txn.epochs.toList.filterMap fun (e, detail) =>
      if detail.isTerminal then none
      else
        match detail.startedAt with
        | none => none
        | some startedAt =>
          if startedAt ≤ now ∧ max detail.transactionTimeoutMs 0 < now - startedAt then
            some (t, txn.producer, e)
          else none

/-- The next producer id. -/
def nextProducerId (s : CoordState) : Int :=
  match BTreeMap.lastKey? s.producers with
  | none => 1
  | some last => last + 1

end CoordState

namespace Transactions

def logged (record : WalRecord) : Action := .wal (.append record true)

/-- `init_producer` on a transactional id. -/
def initTransactional (s : Engine) (t : String) (timeout : Int) (pid e : Option Int) : Step :=
  if pid = some (-1) ∧ e = some (-1) then
    match s.coord.transactions[t]? with
    | none =>
      let id := s.coord.nextProducerId
      .ok { s with coord := s.coord.allocate id (some t) timeout }
        [logged (.pidAlloc id (some t) timeout)]
    | some txn =>
      match BTreeMap.lastKey? txn.epochs with
      | none => .ok s []
      | some current =>
        if (txn.epochs[current]?.bind (·.state)) = some .begin then
          -- An open transaction is rolled back, then the call starts over.
          .ok s [.txn (.prepare ⟨t, txn.producer, current, false⟩),
            .txn (.initProducer (some t) timeout pid e)]
        else
          let epoch := wrapI16 (current + 1)
          .ok { s with coord := s.coord.bumpEpoch t txn.producer epoch timeout }
            [logged (.epochBump t txn.producer epoch timeout)]
  else .ok s []

/-- `init_producer` without a transactional id. -/
def initIdempotent (s : Engine) (pid e : Option Int) : Step :=
  if pid = some (-1) ∧ e = some (-1) then
    let id := s.coord.nextProducerId
    .ok { s with coord := s.coord.allocate id none 0 } [logged (.pidAlloc id none 0)]
  else .ok s []

def addPartitions (s : Engine) (c : Choice) (t : String) (pid : Int) (e : Int)
    (partitions : List Topition) : Step :=
  match s.coord.txnDetail t pid e with
  | .error _ => .ok s []
  | .ok _ =>
    .ok { s with coord := s.coord.modifyDetail t e (·.begin c.now partitions) }
      [logged (.txnBegin t pid e c.now partitions)]

def offsetCommit (s : Engine) (t : String) (pid : Int) (e : Int)
    (group : Group) (offsets : List (Topition × TxnCommitOffset)) : Step :=
  match s.coord.txnDetail t pid e with
  | .error _ => .ok s []
  | .ok _ =>
    .ok { s with coord := s.coord.modifyDetail t e (·.stage group offsets) }
      [logged (.txnOffsets t pid e group offsets)]

/-- The end markers of a transaction, one for each partition it produced to. -/
def markers (call : TxnEnd) (ranges : List (Topition × TxnProduceOffset)) : List Action :=
  ranges.map fun entry => .produce
    (.marker call.transactionId call.producerId call.producerEpoch call.committed entry.1)

def prepare (s : Engine) (call : TxnEnd) : Step :=
  match s.coord.txnDetail call.transactionId call.producerId call.producerEpoch with
  | .error e => .err s e
  | .ok detail =>
    if detail.state = some .begin then
      let produced := detail.ranges.toList
      let coord := s.coord.modifyDetail call.transactionId call.producerEpoch
        (·.prepare call.committed)
      .ok { s with coord }
        (logged (.txnPrepare call.transactionId call.producerId call.producerEpoch call.committed
            produced) :: markers call produced ++ [.txn (.resolve call)])
    else .ok s [.txn (.resolve call)]

/-- One record for each resolved transaction; only the last one is awaited. -/
def terminalRecords : List TxnEffects → List Action
  | [] => []
  | [effect] => [.wal (.append effect.record true)]
  | effect :: rest => .wal (.append effect.record false) :: terminalRecords rest

def releases (effect : TxnEffects) : List Action :=
  effect.ranges.map fun entry => .txn (.release effect.key effect.aborting entry.1 entry.2)

/-- Committed transactional offsets by group. -/
def byGroup (effects : List TxnEffects) :
    BTreeMap Group (List (Topition × OffsetCommitRequest)) :=
  (effects.flatMap (·.offsets)).foldl (fun m (group, tp, co) => m.alter group fun offsets =>
    some (offsets.getD [] ++ [(tp, { offset := co.committedOffset })])) ∅

def offsetCommits (effects : List TxnEffects) : List Action :=
  (byGroup effects).toList.map fun (group, offsets) => .offsets (.commit group offsets)

def resolve (s : Engine) (call : TxnEnd) : Step :=
  match s.coord.txnDetail call.transactionId call.producerId call.producerEpoch with
  | .error e => .err s e
  | .ok _ =>
    if s.coord.deferred call then .ok s []
    else
      let (coord, effects) := s.coord.resolve call
      .ok { s with coord }
        (terminalRecords effects ++ effects.flatMap releases ++ offsetCommits effects)

/-- Release the pin of a resolved transaction and list its range if it aborts. -/
def unpin (key : OpenTxnKey) (aborting : Bool) (range : TxnProduceOffset)
    (inner : PartitionInner) : PartitionInner :=
  { inner with
    openTxns := inner.openTxns.erase key
    aborted := if aborting then
        pushAborted inner.aborted ⟨key.2.1, range.offsetStart, range.offsetEnd⟩
      else inner.aborted }

def sweep (s : Engine) (now : Int) : Step :=
  .ok s ((s.coord.expired now).flatMap fun (t, pid, e) =>
    [.txn (.prepare ⟨t, pid, e, false⟩), .handler])

def exec (s : Engine) (c : Choice) : TxnStep → Step
  | .initProducer (some t) timeout pid e => initTransactional s t timeout pid e
  | .initProducer none _ pid e => initIdempotent s pid e
  | .addPartitions t pid e partitions => addPartitions s c t pid e partitions
  | .offsetCommit t pid e group offsets => offsetCommit s t pid e group offsets
  | .prepare call => prepare s call
  | .resolve call => resolve s call
  | .release key aborting tp range =>
    .ok { s with partitions := s.partitions.modify tp (unpin key aborting range) } []
  | .sweep now => sweep s now

end Transactions

/-! ## What the sections do -/

namespace CoordState

variable {s s' : CoordState} {refs : List TxnRef} {effs : List TxnEffects} {ref : TxnRef}
  {call : TxnEnd} {t : String} {e : Int} {d : TxnDetail} {state : TxnState}

theorem terminal_of_terminal {d : Option TxnState} (h : terminal d = some state) :
    terminal (some state) = none := by
  match d, h with
  | none, h | some .prepareCommit, h => cases h; rfl
  | some .prepareAbort, h => cases h; rfl

/-- What the resolution of `refs` has done: every transaction they name that can
move has moved, once, and has left its effects. -/
structure Resolved (s : CoordState) (refs : List TxnRef) (s' : CoordState)
    (effs : List TxnEffects) : Prop where
  producers : s'.producers = s.producers
  topics : s'.topics = s.topics
  scram : s'.scram = s.scram
  producer? : ∀ t, s'.producer? t = s.producer? t
  currentEpoch? : ∀ t, s'.currentEpoch? t = s.currentEpoch? t
  detail : ∀ t e, s'.detail? t e = s.detail? t e ∨
    ∃ ref ∈ refs, ∃ d state, ref.transaction = t ∧ ref.producerEpoch = e ∧
      s.detail? t e = some d ∧ terminal d.state = some state ∧
      s'.detail? t e = some (d.finish state) ∧ effects d ref state ∈ effs
  effect : ∀ eff ∈ effs, ∃ ref ∈ refs, ∃ d state, eff = effects d ref state ∧
    s.detail? ref.transaction ref.producerEpoch = some d ∧ terminal d.state = some state ∧
    s'.detail? ref.transaction ref.producerEpoch = some (d.finish state)
  moved : ∀ ref ∈ refs, ∀ d state, s.detail? ref.transaction ref.producerEpoch = some d →
    terminal d.state = some state →
    s'.detail? ref.transaction ref.producerEpoch = some (d.finish state)

theorem Resolved.detail_cases (h : Resolved s refs s' effs) (hd : s'.detail? t e = some d) :
    s.detail? t e = some d ∨
      ∃ ref ∈ refs, ∃ d₀ state, ref.transaction = t ∧ ref.producerEpoch = e ∧
        s.detail? t e = some d₀ ∧ terminal d₀.state = some state ∧ d = d₀.finish state ∧
        effects d₀ ref state ∈ effs := by
  rcases h.detail t e with heq | ⟨ref, hr, d₀, state, ht, he, hd₀, hs, hd', hm⟩
  · exact .inl (heq ▸ hd)
  · rw [hd] at hd'
    cases hd'
    exact .inr ⟨ref, hr, d₀, state, ht, he, hd₀, hs, rfl, hm⟩

theorem Resolved.step (h : Resolved s refs s' effs) (ref : TxnRef) :
    Resolved s (refs ++ [ref]) (resolveRef (s', effs) ref).1 (resolveRef (s', effs) ref).2 := by
  have hmono {p : TxnRef → Prop} (hp : ∃ r ∈ refs, p r) : ∃ r ∈ refs ++ [ref], p r := by
    obtain ⟨r, hr, hp⟩ := hp
    exact ⟨r, mem_append_left _ hr, hp⟩
  -- Where nothing moves, the reference was resolved before or cannot move at all.
  have hstay (hmoved : ∀ d state, s.detail? ref.transaction ref.producerEpoch = some d →
      terminal d.state = some state →
      s'.detail? ref.transaction ref.producerEpoch = some (d.finish state)) :
      Resolved s (refs ++ [ref]) s' effs := by
    refine ⟨h.producers, h.topics, h.scram, h.producer?, h.currentEpoch?, fun t e => ?_,
      fun eff heff => hmono (h.effect eff heff), fun r hr => ?_⟩
    · exact (h.detail t e).imp_right hmono
    · rcases mem_append.1 hr with hr | hr
      · exact h.moved r hr
      · rw [mem_singleton.1 hr]
        exact hmoved
  unfold resolveRef
  cases hd' : s'.detail? ref.transaction ref.producerEpoch with
  | none =>
    refine hstay fun d state hd _ => ?_
    rcases h.detail ref.transaction ref.producerEpoch with heq | ⟨_, _, _, _, _, _, _, _, hf, _⟩
    · rw [← heq, hd'] at hd
      cases hd
    · rw [hd'] at hf
      cases hf
  | some d' =>
    cases hst : terminal d'.state with
    | none =>
      simp only [hst]
      refine hstay fun d state hd hs => ?_
      rcases h.detail_cases hd' with heq | ⟨_, _, d₀, state₀, _, _, hd₀, hs₀, rfl, _⟩
      · rw [heq] at hd
        cases hd
        rw [hs] at hst
        cases hst
      · rw [hd₀] at hd
        cases hd
        rw [hs₀] at hs
        cases hs
        exact hd'
    | some state =>
      simp only [hst]
      have hsame : s.detail? ref.transaction ref.producerEpoch = some d' := by
        rcases h.detail_cases hd' with heq | ⟨_, _, d₀, state₀, _, _, _, hs₀, rfl, _⟩
        · exact heq
        · rw [show (d₀.finish state₀).state = some state₀ from rfl,
            terminal_of_terminal hs₀] at hst
          cases hst
      have hnew : (s'.modifyDetail ref.transaction ref.producerEpoch
          (·.finish state)).detail? ref.transaction ref.producerEpoch =
            some (d'.finish state) := by
        simp [detail?_modifyDetail, hd']
      have hold {t : String} {e : Int}
          (hne : ¬ (ref.transaction = t ∧ ref.producerEpoch = e)) :
          (s'.modifyDetail ref.transaction ref.producerEpoch (·.finish state)).detail? t e =
            s'.detail? t e := by
        rw [detail?_modifyDetail, if_neg hne]
      -- A transaction that has moved before is not the one that moves now.
      have hkeep {r : TxnRef} {d : TxnDetail} {st : TxnState} (hst' : terminal d.state = some st)
          (hd : s'.detail? r.transaction r.producerEpoch = some (d.finish st)) :
          (s'.modifyDetail ref.transaction ref.producerEpoch
            (·.finish state)).detail? r.transaction r.producerEpoch = some (d.finish st) := by
        rw [hold, hd]
        rintro ⟨ht, he⟩
        rw [← ht, ← he, hd'] at hd
        cases hd
        rw [show (d.finish st).state = some st from rfl, terminal_of_terminal hst'] at hst
        cases hst
      refine ⟨h.producers, h.topics, h.scram, fun t => ?_, fun t => ?_, fun t e => ?_,
        fun eff heff => ?_, fun r hr d st hd hs => ?_⟩
      · rw [producer?_modifyDetail, h.producer?]
      · rw [currentEpoch?_modifyDetail, h.currentEpoch?]
      · by_cases hte : ref.transaction = t ∧ ref.producerEpoch = e
        · obtain ⟨rfl, rfl⟩ := hte
          exact .inr ⟨ref, by simp, d', state, rfl, rfl, hsame, hst, hnew, by simp⟩
        · rw [hold hte]
          refine (h.detail t e).imp_right fun hr => hmono ?_
          obtain ⟨r, hr, d, st, ht, he, hd, hs, hf, hm⟩ := hr
          exact ⟨r, hr, d, st, ht, he, hd, hs, hf, mem_append_left _ hm⟩
      · rcases mem_append.1 heff with heff | heff
        · obtain ⟨r, hr, d, st, heq, hd, hs, hf⟩ := h.effect eff heff
          exact ⟨r, mem_append_left _ hr, d, st, heq, hd, hs, hkeep hs hf⟩
        · exact ⟨ref, by simp, d', state, mem_singleton.1 heff, hsame, hst, hnew⟩
      · rcases mem_append.1 hr with hr | hr
        · exact hkeep hs (h.moved r hr d st hd hs)
        · rw [mem_singleton.1 hr] at hd ⊢
          rw [hsame] at hd
          cases hd
          rw [hst] at hs
          cases hs
          exact hnew

theorem foldl_resolved (s : CoordState) (refs : List TxnRef) :
    Resolved s refs (refs.foldl resolveRef (s, [])).1 (refs.foldl resolveRef (s, [])).2 := by
  induction refs using List.reverseRecOn with
  | nil => exact ⟨rfl, rfl, rfl, fun _ => rfl, fun _ => rfl, fun _ _ => .inl rfl, nofun, nofun⟩
  | append_singleton refs ref ih =>
    rw [foldl_append]
    exact ih.step ref

theorem resolve_resolved (s : CoordState) (call : TxnEnd) :
    Resolved s (s.peers call ++ [ownRef call]) (s.resolve call).1 (s.resolve call).2 :=
  foldl_resolved s _

/-- The ranges of the transaction that is being ended. -/
def candidates (s : CoordState) (call : TxnEnd) : BTreeMap Topition TxnProduceOffset :=
  ((s.detail? call.transactionId call.producerEpoch).map TxnDetail.ranges).getD ∅

/-- A peer is an open or prepared epoch that overlaps the caller's transaction,
under the producer it is registered with. -/
theorem mem_peers (h : ref ∈ s.peers call) : s.producer? ref.transaction = some ref.producerId ∧
    ∃ d, s.detail? ref.transaction ref.producerEpoch = some d ∧ d.state = some ref.state ∧
      ref.state.isTerminal = false ∧ overlaps (s.candidates call) d = true := by
  obtain ⟨⟨t, txn⟩, hmem, hover⟩ := List.mem_filterMap.1 h
  have htxn := mem_toList_iff_getElem?_eq_some.1 hmem
  obtain ⟨⟨epoch, d⟩, hep, href⟩ := exists_of_findSome?_eq_some hover
  have hd := mem_toList_iff_getElem?_eq_some.1 hep
  simp only at href
  split at href
  · cases href
  · split at href
    · cases href
    · next state hstate =>
      split at href
      · cases href
      · next hterm =>
        split at href
        · next ho =>
          cases href
          refine ⟨by simp [producer?, htxn], d, by simp [detail?, htxn, hd], hstate, ?_, ho⟩
          simpa using hterm
        · cases href

/-- The overlap scan leaves the caller's own epoch out. -/
theorem ne_own_of_mem_peers (hp : s.producer? call.transactionId = some call.producerId)
    (h : ref ∈ s.peers call) :
    ¬ (ref.transaction = call.transactionId ∧ ref.producerEpoch = call.producerEpoch) := by
  obtain ⟨⟨t, txn⟩, hmem, hover⟩ := List.mem_filterMap.1 h
  have htxn := mem_toList_iff_getElem?_eq_some.1 hmem
  obtain ⟨⟨epoch, d⟩, -, href⟩ := exists_of_findSome?_eq_some hover
  simp only at href
  split at href
  · cases href
  · next hne =>
    split at href
    · cases href
    · split at href
      · cases href
      · split at href
        · cases href
          rintro ⟨rfl, rfl⟩
          have hpid : txn.producer = call.producerId := by simpa [producer?, htxn] using hp
          exact hne ⟨rfl, hpid.symm, rfl⟩
        · cases href

/-- Whatever a `txn_end` resolves, it names under its own producer. -/
theorem producer?_of_mem_refs
    (hd : s.txnDetail call.transactionId call.producerId call.producerEpoch = .ok d)
    (h : ref ∈ s.peers call ++ [ownRef call]) :
    s.producer? ref.transaction = some ref.producerId := by
  rcases mem_append.1 h with h | h
  · exact (mem_peers h).1
  · rw [mem_singleton.1 h]
    exact (txnDetail_eq_ok.1 hd).1

/-- A terminal transaction is not resolved again. -/
theorem terminal_of_isTerminal (h : d.isTerminal = true) : terminal d.state = none := by
  unfold TxnDetail.isTerminal at h
  match hs : d.state with
  | none => simp [hs] at h
  | some .committed | some .aborted => rfl
  | some .begin | some .prepareCommit | some .prepareAbort =>
    simp [hs, TxnState.isTerminal] at h

theorem isTerminal_of_terminal {state' : Option TxnState} (h : terminal state' = some state) :
    state.isTerminal = true := by
  match state', h with
  | none, h | some .prepareCommit, h => cases h; rfl
  | some .prepareAbort, h => cases h; rfl

end CoordState

namespace Transactions

variable {s s' : Engine} {c : Choice} {t : String} {timeout : Int} {pid? e? : Option Int}
  {pid e : Int} {call : TxnEnd} {next : List Action} {err : Error} {partitions : List Topition}
  {group : Group} {offsets : List (Topition × TxnCommitOffset)}

/-- `init_producer` on a transactional id registers it, rolls an open transaction
back, or starts the next epoch. -/
theorem initTransactional_ok (h : initTransactional s t timeout pid? e? = .ok s' next) :
    (s' = s ∧ next = []) ∨
    (s.coord.transactions[t]? = none ∧
      s' = { s with coord := s.coord.allocate s.coord.nextProducerId (some t) timeout } ∧
      next = [logged (.pidAlloc s.coord.nextProducerId (some t) timeout)]) ∨
    ∃ pid e, s.coord.producer? t = some pid ∧ s.coord.currentEpoch? t = some e ∧
      (((s.coord.detail? t e).bind (·.state) = some .begin ∧ s' = s ∧
          next = [.txn (.prepare ⟨t, pid, e, false⟩),
            .txn (.initProducer (some t) timeout pid? e?)]) ∨
        ((s.coord.detail? t e).bind (·.state) ≠ some .begin ∧
          s' = { s with coord := s.coord.bumpEpoch t pid (wrapI16 (e + 1)) timeout } ∧
          next = [logged (.epochBump t pid (wrapI16 (e + 1)) timeout)])) := by
  unfold initTransactional at h
  split at h
  · split at h
    · next htxn =>
      cases h
      exact .inr (.inl ⟨htxn, rfl, rfl⟩)
    · next txn htxn =>
      split at h
      · cases h
        exact .inl ⟨rfl, rfl⟩
      · next current hcur =>
        refine .inr (.inr ⟨txn.producer, current, by simp [CoordState.producer?, htxn],
          by simp [CoordState.currentEpoch?, htxn, hcur], ?_⟩)
        have hd : (s.coord.detail? t current).bind (·.state) =
            txn.epochs[current]?.bind (·.state) := by simp [CoordState.detail?, htxn]
        rw [hd]
        split at h
        · next hb =>
          cases h
          exact .inl ⟨hb, rfl, rfl⟩
        · next hb =>
          cases h
          exact .inr ⟨hb, rfl, rfl⟩
  · cases h
    exact .inl ⟨rfl, rfl⟩

theorem initTransactional_ne_err : initTransactional s t timeout pid? e? ≠ .err s' err := by
  intro h
  unfold initTransactional at h
  split at h
  · split at h
    · cases h
    · split at h
      · cases h
      · split at h <;> cases h
  · cases h

/-- `init_producer` without a transactional id leaves the transactions alone. -/
theorem initIdempotent_ok (h : initIdempotent s pid? e? = .ok s' next) :
    (s' = s ∧ next = []) ∨
      (s' = { s with coord := s.coord.allocate s.coord.nextProducerId none 0 } ∧
        next = [logged (.pidAlloc s.coord.nextProducerId none 0)]) := by
  unfold initIdempotent at h
  split at h <;> cases h
  · exact .inr ⟨rfl, rfl⟩
  · exact .inl ⟨rfl, rfl⟩

theorem initIdempotent_ne_err : initIdempotent s pid? e? ≠ .err s' err := by
  unfold initIdempotent
  split <;> nofun

theorem addPartitions_ok (h : addPartitions s c t pid e partitions = .ok s' next) :
    (s' = s ∧ next = []) ∨
      ∃ d, s.coord.txnDetail t pid e = .ok d ∧
        s' = { s with coord := s.coord.modifyDetail t e (·.begin c.now partitions) } ∧
        next = [logged (.txnBegin t pid e c.now partitions)] := by
  unfold addPartitions at h
  split at h <;> cases h
  · exact .inl ⟨rfl, rfl⟩
  · next d hd => exact .inr ⟨d, hd, rfl, rfl⟩

theorem addPartitions_ne_err : addPartitions s c t pid e partitions ≠ .err s' err := by
  unfold addPartitions
  split <;> nofun

theorem offsetCommit_ok (h : offsetCommit s t pid e group offsets = .ok s' next) :
    (s' = s ∧ next = []) ∨
      ∃ d, s.coord.txnDetail t pid e = .ok d ∧
        s' = { s with coord := s.coord.modifyDetail t e (·.stage group offsets) } ∧
        next = [logged (.txnOffsets t pid e group offsets)] := by
  unfold offsetCommit at h
  split at h <;> cases h
  · exact .inl ⟨rfl, rfl⟩
  · next d hd => exact .inr ⟨d, hd, rfl, rfl⟩

theorem offsetCommit_ne_err : offsetCommit s t pid e group offsets ≠ .err s' err := by
  unfold offsetCommit
  split <;> nofun

theorem prepare_ok (h : prepare s call = .ok s' next) :
    ∃ d, s.coord.txnDetail call.transactionId call.producerId call.producerEpoch = .ok d ∧
      ((d.state = some .begin ∧
        s' = { s with
          coord := s.coord.modifyDetail call.transactionId call.producerEpoch
            (·.prepare call.committed) } ∧
        next = logged (.txnPrepare call.transactionId call.producerId call.producerEpoch
          call.committed d.ranges.toList) :: markers call d.ranges.toList ++
            [.txn (.resolve call)]) ∨
      (d.state ≠ some .begin ∧ s' = s ∧ next = [.txn (.resolve call)])) := by
  unfold prepare at h
  split at h
  · cases h
  · next d hd =>
    refine ⟨d, hd, ?_⟩
    split at h
    · next hb =>
      cases h
      exact .inl ⟨hb, rfl, rfl⟩
    · next hb =>
      cases h
      exact .inr ⟨hb, rfl, rfl⟩

theorem prepare_err (h : prepare s call = .err s' err) : s' = s := by
  unfold prepare at h
  split at h
  · cases h
    rfl
  · split at h <;> cases h

theorem resolve_ok (h : resolve s call = .ok s' next) :
    ∃ d, s.coord.txnDetail call.transactionId call.producerId call.producerEpoch = .ok d ∧
      ((s.coord.deferred call = true ∧ s' = s ∧ next = []) ∨
      (s.coord.deferred call = false ∧ s' = { s with coord := (s.coord.resolve call).1 } ∧
        next = terminalRecords (s.coord.resolve call).2 ++
          (s.coord.resolve call).2.flatMap releases ++
            offsetCommits (s.coord.resolve call).2)) := by
  unfold resolve at h
  split at h
  · cases h
  · next d hd =>
    refine ⟨d, hd, ?_⟩
    split at h
    · next hdef =>
      cases h
      exact .inl ⟨hdef, rfl, rfl⟩
    · next hdef =>
      cases h
      exact .inr ⟨by simpa using hdef, rfl, rfl⟩

theorem resolve_err (h : resolve s call = .err s' err) : s' = s := by
  unfold resolve at h
  split at h
  · cases h
    rfl
  · split at h <;> cases h

end Transactions

end Tansu.Nvme
