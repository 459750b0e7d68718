import Tansu.Slate.Recreation

/-!
# What the operations do to transactions and logs

One lemma for each operation: the details of all transactions after it, from those
before it, and what has been appended to which partition.  The invariants of the
following modules are derived from these alone.
-/

namespace Tansu.Slate

open Std Tansu.Lib List Option BTreeMap ExtTreeMap Tansu.Nvme.CoordState
open Tansu.Nvme (Topition Topic Group Batch CoordState TxnDetail TxnState TxnCommitOffset
  TxnProduceOffset TopicId TopicMetadata CreatableTopic Txn ProducerDetail markerBatch wrapI16)

variable {s s' : State} {t t' : String} {e e' : Int} {d : TxnDetail} {txn : Txn} {tp : Topition}
  {id id' : Nat} {p p' offset offsetEnd producerId transactionTimeoutMs now : Int} {b : Batch}
  {produces : BTreeMap Topition (Option TxnProduceOffset)} {partitions : List Topition}
  {committed deferred : Bool} {prepared : List (String × Int)} {metadata : TopicMetadata}
  {transactionId : Option String} {producerEpoch : Option Int}

/-! ## Appending -/

theorem high_append :
    (s.append id p b).high id' p' =
      if id = id' ∧ p = p' then s.high id p + b.lastOffsetDelta + 1 else s.high id' p' := by
  simp only [State.append, State.high, State.watermark, getElem?_insert_eq, Prod.mk.injEq]
  split <;> rfl

theorem batches_append {o : Int} :
    (s.append id p b).batches[(id', p', o)]? =
      if id = id' ∧ p = p' ∧ s.high id p = o then some b else s.batches[(id', p', o)]? := by
  simp only [State.append, getElem?_insert_eq, Prod.mk.injEq]

/-- The high watermarks do not go back. -/
def HighLe (s s' : State) : Prop := ∀ id p, s.high id p ≤ s'.high id p

theorem HighLe.refl (s : State) : HighLe s s := fun _ _ => le_rfl

theorem HighLe.of_eq (h : s'.watermarks = s.watermarks) : HighLe s s' := fun id p => by
  simp only [State.high, State.watermark, h]
  exact le_rfl

theorem HighLe.trans {s'' : State} (h : HighLe s s') (h' : HighLe s' s'') : HighLe s s'' :=
  fun id p => (h id p).trans (h' id p)

theorem HighLe.append (h : 0 ≤ b.lastOffsetDelta) :
    HighLe s (s.append id p b) := fun id' p' => by
  rw [high_append]
  split
  next heq =>
    obtain ⟨rfl, rfl⟩ := heq
    omega
  next => exact le_rfl

theorem HighLe.marks (producerId producerEpoch : Int) (committed : Bool) (s : State)
    (offsetEnd : Int) (partitions : List Topition) :
    HighLe s (marks producerId producerEpoch committed s offsetEnd partitions).1 := by
  induction partitions generalizing s offsetEnd with
  | nil => exact .refl s
  | cons tp partitions ih =>
    unfold Slate.marks
    split
    next => exact ih s offsetEnd
    next => exact (HighLe.append le_rfl).trans (ih _ _)

/-! ## The end of a transaction -/

theorem current_eq_ok : current s t producerId e = .ok d ↔
    ∃ txn : Txn, s.coord.transactions[t]? = some txn ∧ txn.producer = producerId ∧
      BTreeMap.lastKey? txn.epochs = some e ∧ txn.epochs[e]? = some d := by
  unfold current
  cases htxn : s.coord.transactions[t]? with
  | none => simp
  | some txn =>
    by_cases hproducer : txn.producer = producerId
    · cases hlast : BTreeMap.lastKey? txn.epochs with
      | none => simp [hproducer, hlast]
      | some epoch =>
        by_cases he : e = epoch
        · subst he
          cases hd : txn.epochs[e]? <;> simp [hproducer, hlast, hd]
        · simp [hproducer, hlast, he, Ne.symm he]
    · simp [hproducer]

theorem detail?_of_current (h : current s t producerId e = .ok d) :
    s.coord.detail? t e = some d := by
  obtain ⟨txn, htxn, -, -, hd⟩ := current_eq_ok.1 h
  rw [CoordState.detail?, htxn]
  exact hd

/-- The final state of a prepared transaction. -/
def finished (d : TxnDetail) : TxnDetail :=
  { d with state := some (if d.state = some .prepareCommit then .committed else .aborted) }

theorem detail?_complete : (complete s t e).coord.detail? t' e' =
    if t = t' ∧ e = e' then (s.coord.detail? t' e').map finished else s.coord.detail? t' e' := by
  unfold complete
  cases hd : s.coord.detail? t e with
  | none =>
    dsimp only
    split
    next heq =>
      obtain ⟨rfl, rfl⟩ := heq
      rw [hd]
      rfl
    next => rfl
  | some d =>
    dsimp only
    split
    next hstate =>
      rw [State.modifyDetail, detail?_modifyDetail]
      split
      next heq =>
        obtain ⟨rfl, rfl⟩ := heq
        rw [show (applyOffsets s d.offsets).coord = s.coord from rfl, hd]
        simp [finished, hstate]
      next => rfl
    next hstate =>
      rw [State.modifyDetail, detail?_modifyDetail]
      split
      next heq =>
        obtain ⟨rfl, rfl⟩ := heq
        rw [hd]
        simp [finished, hstate]
      next => rfl

theorem detail?_foldl_complete (hnodup : prepared.Nodup) :
    (prepared.foldl (fun s p => complete s p.1 p.2) s).coord.detail? t e =
      if (t, e) ∈ prepared then (s.coord.detail? t e).map finished else s.coord.detail? t e := by
  induction prepared generalizing s with
  | nil => rfl
  | cons p prepared ih =>
    obtain ⟨hp, hnodup⟩ := nodup_cons.1 hnodup
    rw [foldl_cons, ih hnodup, detail?_complete]
    by_cases heq : (t, e) = p
    · subst heq
      simp [hp]
    · have hne : ¬ (p.1 = t ∧ p.2 = e) := fun h => heq (Prod.ext h.1.symm h.2.symm)
      simp [hne, heq]

theorem mem_overlapping :
    (t', e', d) ∈ overlapping s t produces offsetEnd ↔
      t' ≠ t ∧ s.coord.detail? t' e' = some d ∧ overlaps produces offsetEnd d := by
  simp only [overlapping, mem_flatMap, Prod.exists, CoordState.detail?]
  constructor
  · rintro ⟨t₀, txn, hmem, h⟩
    split at h
    · cases h
    next hne =>
      obtain ⟨⟨e₀, d₀⟩, hepoch, heq⟩ := List.mem_map.1 h
      cases heq
      obtain ⟨hepoch, hover⟩ := List.mem_filter.1 hepoch
      refine ⟨hne, ?_, hover⟩
      rw [mem_toList_iff_getElem?_eq_some.1 hmem]
      exact mem_toList_iff_getElem?_eq_some.1 hepoch
  · rintro ⟨hne, hd, hover⟩
    obtain ⟨txn, htxn, hepoch⟩ := bind_eq_some_iff.1 hd
    refine ⟨t', txn, mem_toList_iff_getElem?_eq_some.2 htxn, ?_⟩
    rw [if_neg hne]
    exact List.mem_map.2 ⟨(e', d), List.mem_filter.2
      ⟨mem_toList_iff_getElem?_eq_some.2 hepoch, hover⟩, rfl⟩

theorem nodup_overlapping :
    ((overlapping s t produces offsetEnd).map fun o => (o.1, o.2.1)).Nodup := by
  rw [overlapping, map_flatMap, nodup_flatMap]
  refine ⟨fun x _ => ?_, ?_⟩
  · dsimp only
    split
    · exact nodup_nil
    · rw [List.map_map]
      refine List.Pairwise.map _ (fun a b hab => ?_)
        (distinct_keys_toList.filter _)
      exact fun heq => hab (Std.compare_eq_iff_eq.2 (Prod.mk.inj heq).2)
  · refine distinct_keys_toList.imp fun {a b} hab p hpa hpb => ?_
    have hfst : ∀ (x : String × Txn), p ∈ ((if x.1 = t then [] else
        (x.2.epochs.toList.filter fun y => overlaps produces offsetEnd y.2).map (x.1, ·)).map
          fun o => (o.1, o.2.1)) → p.1 = x.1 := by
      intro x hx
      split at hx
      · cases hx
      · obtain ⟨o, ho, rfl⟩ := List.mem_map.1 hx
        obtain ⟨y, -, rfl⟩ := List.mem_map.1 ho
        rfl
    exact hab (Std.compare_eq_iff_eq.2 ((hfst a hpa).symm.trans (hfst b hpb)))

/-- A transaction that has begun and that the end of another one has to wait for. -/
def Deferred (s : State) (t : String) (produces : BTreeMap Topition (Option TxnProduceOffset))
    (offsetEnd : Int) : Prop :=
  ∃ t' e' d', t' ≠ t ∧ s.coord.detail? t' e' = some d' ∧ d'.state = some TxnState.begin ∧
    overlaps produces offsetEnd d'

/-- What `txn_end` for `(t, e)` makes of the detail of `(t', e')`. -/
def settle (t : String) (e : Int) (committed deferred : Bool)
    (produces : BTreeMap Topition (Option TxnProduceOffset)) (offsetEnd : Int) (t' : String)
    (e' : Int) (d : TxnDetail) : TxnDetail :=
  if t' = t ∧ e' = e then
    if deferred then
      if d.state = some TxnState.begin then { d with state := some (.prepare committed) } else d
    else { d with state := some (final committed) }
  else if t' ≠ t ∧ deferred = false ∧ d.state.any TxnState.isPrepared ∧
      overlaps produces offsetEnd d then finished d
  else d

@[simp] theorem settle_produces :
    (settle t e committed deferred produces offsetEnd t' e' d).produces = d.produces := by
  unfold settle finished
  repeat' split
  all_goals rfl

theorem settle_begin (hne : ¬ (t' = t ∧ e' = e)) (h : d.state = some TxnState.begin) :
    settle t e committed deferred produces offsetEnd t' e' d = d := by
  rw [settle, if_neg hne, if_neg]
  rintro ⟨-, -, hprepared, -⟩
  simp [h, TxnState.isPrepared] at hprepared

/-! ### Offsets that are applied -/

/-- The offsets that a transaction has staged. -/
def State.staged (s : State) (p : String × Int) : BTreeMap (Group × Topition) TxnCommitOffset :=
  ((s.coord.detail? p.1 p.2).map TxnDetail.offsets).getD ∅

def overlay (commits offsets : BTreeMap (Group × Topition) TxnCommitOffset) :
    BTreeMap (Group × Topition) TxnCommitOffset :=
  offsets.toList.foldl (fun m o => m.insert o.1 o.2) commits

/-- The transactions of a list whose offsets are applied, in turn. -/
def State.applied (s : State) (ps : List (String × Int)) :
    BTreeMap (Group × Topition) TxnCommitOffset :=
  ps.foldl (fun m p => overlay m (s.staged p)) s.commits

def State.isPrepareCommit (s : State) (p : String × Int) : Bool :=
  (s.coord.detail? p.1 p.2).any fun d => d.state = some .prepareCommit

theorem commits_complete : (complete s t e).commits =
    if s.isPrepareCommit (t, e) then overlay s.commits (s.staged (t, e)) else s.commits := by
  unfold complete
  cases hd : s.coord.detail? t e with
  | none => simp [State.isPrepareCommit, hd]
  | some d =>
    by_cases hstate : d.state = some .prepareCommit
    · simp only [State.isPrepareCommit, State.staged, hd, hstate, if_true, any_some,
        decide_true]
      rfl
    · simp only [State.isPrepareCommit, State.staged, hd, hstate, if_false, any_some,
        decide_false]
      rfl

theorem commits_foldl_complete (hnodup : prepared.Nodup) :
    (prepared.foldl (fun s p => complete s p.1 p.2) s).commits =
      s.applied (prepared.filter s.isPrepareCommit) := by
  induction prepared generalizing s with
  | nil => rfl
  | cons p prepared ih =>
    obtain ⟨hp, hnodup⟩ := nodup_cons.1 hnodup
    have hother : ∀ q ∈ prepared,
        (complete s p.1 p.2).coord.detail? q.1 q.2 = s.coord.detail? q.1 q.2 := by
      intro q hq
      have hne : ¬ (p.1 = q.1 ∧ p.2 = q.2) := fun heq => hp (Prod.ext heq.1 heq.2 ▸ hq)
      rw [detail?_complete, if_neg hne]
    have hfilter : prepared.filter (complete s p.1 p.2).isPrepareCommit =
        prepared.filter s.isPrepareCommit :=
      filter_congr fun q hq => by simp only [State.isPrepareCommit, hother q hq]
    have hfold : ∀ m, (prepared.filter s.isPrepareCommit).foldl
        (fun m q => overlay m ((complete s p.1 p.2).staged q)) m =
        (prepared.filter s.isPrepareCommit).foldl (fun m q => overlay m (s.staged q)) m :=
      fun m => foldl_ext _ _ m fun m q hq => by
        simp only [State.staged, hother q (List.mem_filter.1 hq).1]
    rw [foldl_cons, ih hnodup, hfilter, State.applied, hfold, commits_complete, State.applied,
      filter_cons]
    split <;> rfl

/-! ### `txn_end` -/

/-- All but the details and the committed offsets. -/
structure Framed (s s' : State) : Prop where
  topics : s'.coord.topics = s.coord.topics
  producers : s'.coord.producers = s.coord.producers
  producer : ∀ t, s'.coord.producer? t = s.coord.producer? t
  epoch : ∀ t, s'.coord.currentEpoch? t = s.coord.currentEpoch? t
  batches : s'.batches = s.batches
  watermarks : s'.watermarks = s.watermarks

namespace Framed

theorem refl (s : State) : Framed s s := ⟨rfl, rfl, fun _ => rfl, fun _ => rfl, rfl, rfl⟩

theorem trans {s'' : State} (h : Framed s s') (h' : Framed s' s'') : Framed s s'' :=
  ⟨h'.topics.trans h.topics, h'.producers.trans h.producers,
    fun t => (h'.producer t).trans (h.producer t),
    fun t => (h'.epoch t).trans (h.epoch t), h'.batches.trans h.batches,
    h'.watermarks.trans h.watermarks⟩

theorem applyOffsets (s : State) (offsets : BTreeMap (Group × Topition) TxnCommitOffset) :
    Framed s (applyOffsets s offsets) := ⟨rfl, rfl, fun _ => rfl, fun _ => rfl, rfl, rfl⟩

theorem modifyDetail (s : State) (t : String) (e : Int) (f : TxnDetail → TxnDetail) :
    Framed s (s.modifyDetail t e f) :=
  ⟨rfl, rfl, fun _ => producer?_modifyDetail,
    fun _ => currentEpoch?_modifyDetail, rfl, rfl⟩

theorem complete (s : State) (t : String) (e : Int) : Framed s (complete s t e) := by
  unfold Slate.complete
  split
  · exact refl s
  · split
    · exact (applyOffsets s _).trans (modifyDetail _ t e _)
    · exact modifyDetail s t e _

theorem foldl_complete (s : State) (prepared : List (String × Int)) :
    Framed s (prepared.foldl (fun s p => Slate.complete s p.1 p.2) s) := by
  induction prepared generalizing s with
  | nil => exact refl s
  | cons p prepared ih => exact (complete s p.1 p.2).trans (ih _)

end Framed

/-- The markers of `txn_end`, and the greatest of their offsets. -/
abbrev marked (s : State) (t : String) (producerId e : Int) (committed : Bool) (d : TxnDetail) :
    State × Int :=
  marks producerId e committed (TxnEnd.prepare s t e committed) 0 d.produces.keys

/-- What `txn_end` does when the checks have been passed. -/
structure Ended (s : State) (t : String) (producerId e : Int) (committed : Bool) (d : TxnDetail)
    (deferred : Bool) (s' : State) : Prop where
  deferred_iff : deferred = true ↔
    Deferred s t d.produces (marked s t producerId e committed d).2
  details : ∀ t' e', s'.coord.detail? t' e' = (s.coord.detail? t' e').map
    (settle t e committed deferred d.produces (marked s t producerId e committed d).2 t' e')
  framed : Framed (marked s t producerId e committed d).1 s'
  commits : ∃ ps : List (String × Int), ps.Nodup ∧
    (∀ t' e', (t', e') ∈ ps ↔ deferred = false ∧ (t' = t ∧ e' = e ∧ committed = true ∨
      t' ≠ t ∧ ∃ d', s.coord.detail? t' e' = some d' ∧ d'.state = some .prepareCommit ∧
        overlaps d.produces (marked s t producerId e committed d).2 d')) ∧
    s'.commits = s.applied ps

theorem marks_commits (producerId producerEpoch : Int) (committed : Bool) (s : State)
    (offsetEnd : Int) (partitions : List Topition) :
    (marks producerId producerEpoch committed s offsetEnd partitions).1.commits = s.commits := by
  induction partitions generalizing s offsetEnd with
  | nil => rfl
  | cons tp partitions ih =>
    unfold marks
    split
    · exact ih s offsetEnd
    · exact ih _ _

theorem detail?_prepare (ht : t' ≠ t) :
    (TxnEnd.prepare s t e committed).coord.detail? t' e' = s.coord.detail? t' e' := by
  rw [TxnEnd.prepare, State.modifyDetail, detail?_modifyDetail,
    if_neg fun h => ht h.1.symm]

theorem mem_overlapping_marked : (t', e', d) ∈ overlapping (marks producerId e committed
      (TxnEnd.prepare s t e committed) offset partitions).1 t produces offsetEnd ↔
    t' ≠ t ∧ s.coord.detail? t' e' = some d ∧ overlaps produces offsetEnd d := by
  rw [mem_overlapping, marks_coord]
  exact and_congr_right fun ht => by rw [detail?_prepare ht]

theorem overlapping_begin_iff : ((overlapping (marks producerId e committed
      (TxnEnd.prepare s t e committed) offset partitions).1 t produces offsetEnd).any fun o =>
        decide (o.2.2.state = some TxnState.begin)) = true ↔ Deferred s t produces offsetEnd := by
  simp only [List.any_eq_true, decide_eq_true_eq, Prod.exists, mem_overlapping_marked]
  constructor
  · rintro ⟨t', e', d', ⟨ht, hd, hover⟩, hstate⟩
    exact ⟨t', e', d', ht, hd, hstate, hover⟩
  · rintro ⟨t', e', d', ht, hd, hstate, hover⟩
    exact ⟨t', e', d', ⟨ht, hd, hover⟩, hstate⟩

theorem ended_of_deferred
    (hdeferred : Deferred s t d.produces (marked s t producerId e committed d).2) :
    Ended s t producerId e committed d true (marked s t producerId e committed d).1 := by
  refine ⟨by simpa using hdeferred, fun t' e' => ?_, .refl _, [], nodup_nil, by simp, ?_⟩
  · rw [marks_coord, TxnEnd.prepare, State.modifyDetail, detail?_modifyDetail]
    split
    next heq =>
      obtain ⟨rfl, rfl⟩ := heq
      refine congrArg (Option.map · _) (funext fun d' => ?_)
      simp [settle]
    next hne =>
      have hne' : ¬ (t' = t ∧ e' = e) := fun h => hne ⟨h.1.symm, h.2.symm⟩
      cases s.coord.detail? t' e' <;> simp [settle, hne']
  · rw [marks_commits]
    rfl

/-- The prepared transactions that are completed with another one. -/
def completed (s : State) (t : String) (producerId e : Int) (committed : Bool) (d : TxnDetail) :
    List (String × Int) :=
  ((overlapping (marked s t producerId e committed d).1 t d.produces
    (marked s t producerId e committed d).2).filter fun o =>
      o.2.2.state.any TxnState.isPrepared).map fun o => (o.1, o.2.1)

theorem mem_completed : (t', e') ∈ completed s t producerId e committed d ↔
    t' ≠ t ∧ ∃ d', s.coord.detail? t' e' = some d' ∧ d'.state.any TxnState.isPrepared ∧
      overlaps d.produces (marked s t producerId e committed d).2 d' := by
  simp only [completed, List.mem_map, List.mem_filter, Prod.exists, mem_overlapping_marked,
    Prod.mk.injEq]
  constructor
  · rintro ⟨t₀, e₀, d', ⟨⟨ht, hd, hover⟩, hstate⟩, rfl, rfl⟩
    exact ⟨ht, d', hd, hstate, hover⟩
  · rintro ⟨ht, d', hd, hstate, hover⟩
    exact ⟨t', e', d', ⟨⟨ht, hd, hover⟩, hstate⟩, rfl, rfl⟩

theorem nodup_completed : (completed s t producerId e committed d).Nodup :=
  List.Nodup.sublist (List.Sublist.map _ filter_sublist) nodup_overlapping

theorem ended_of_resolved (hd : s.coord.detail? t e = some d)
    (hdeferred : ¬ Deferred s t d.produces (marked s t producerId e committed d).2) :
    Ended s t producerId e committed d false (TxnEnd.resolve (marked s t producerId e committed d).1
      t e committed d.offsets (completed s t producerId e committed d)) := by
  -- the state with its own offsets applied and its own final state
  obtain ⟨s₁, hs₁, hframed, hcommits, hresolve⟩ : ∃ s₁ : State,
      s₁.coord = (marked s t producerId e committed d).1.coord ∧
      Framed (marked s t producerId e committed d).1 s₁ ∧
      s₁.commits = s.applied (if committed then [(t, e)] else []) ∧
      TxnEnd.resolve (marked s t producerId e committed d).1 t e committed d.offsets
          (completed s t producerId e committed d) =
        (completed s t producerId e committed d).foldl (fun s p => complete s p.1 p.2)
          (s₁.modifyDetail t e ({ · with state := some (final committed) })) := by
    cases committed with
    | true =>
      refine ⟨applyOffsets (marked s t producerId e true d).1 d.offsets, rfl,
        .applyOffsets _ _, ?_, rfl⟩
      simp only [applyOffsets, marks_commits, State.applied, if_true, foldl_cons,
        foldl_nil, State.staged, hd, map_some, getD_some]
      rfl
    | false =>
      refine ⟨(marked s t producerId e false d).1, rfl, .refl _, ?_, rfl⟩
      rw [marks_commits]
      rfl
  have hother : ∀ t' e', t' ≠ t → (s₁.modifyDetail t e
      ({ · with state := some (final committed) })).coord.detail? t' e' =
        s.coord.detail? t' e' := by
    intro t' e' ht
    rw [State.modifyDetail, detail?_modifyDetail, if_neg fun h => ht h.1.symm, hs₁,
      marks_coord, detail?_prepare ht]
  rw [hresolve]
  refine ⟨by simpa using hdeferred, fun t' e' => ?_,
    (hframed.trans (.modifyDetail _ _ _ _)).trans (.foldl_complete _ _),
    (if committed then [(t, e)] else []) ++
      (completed s t producerId e committed d).filter s.isPrepareCommit, ?_, fun t' e' => ?_, ?_⟩
  · rw [detail?_foldl_complete nodup_completed]
    by_cases ht : t' = t
    · subst ht
      rw [if_neg fun h => (mem_completed.1 h).1 rfl, State.modifyDetail,
        detail?_modifyDetail, hs₁, marks_coord, TxnEnd.prepare, State.modifyDetail,
        detail?_modifyDetail]
      by_cases he : e = e'
      · subst he
        rw [if_pos ⟨rfl, rfl⟩, if_pos ⟨rfl, rfl⟩, Option.map_map]
        refine congrArg (Option.map · _) (funext fun d' => ?_)
        simp only [Function.comp_apply, settle]
        split <;> simp
      · cases s.coord.detail? t' e' <;> simp [settle, he, Ne.symm he]
    · rw [hother t' e' ht]
      cases hd' : s.coord.detail? t' e' with
      | none => simp
      | some d' =>
        have hmem : (t', e') ∈ completed s t producerId e committed d ↔
            d'.state.any TxnState.isPrepared = true ∧
              overlaps d.produces (marked s t producerId e committed d).2 d' = true := by
          rw [mem_completed]
          simp [ht, hd']
        by_cases hcompleted : (t', e') ∈ completed s t producerId e committed d
        · simp [settle, ht, hcompleted, hmem.1 hcompleted]
        · have hnot := mt hmem.2 hcompleted
          simp only [if_neg hcompleted, map_some, settle, ht, false_and, if_false, ne_eq,
            not_false_eq_true, true_and, hnot]
  · refine nodup_append.2 ⟨by split <;> simp, nodup_completed.filter _, fun p hp q hq => ?_⟩
    split at hp
    · obtain rfl := mem_singleton.1 hp
      rintro rfl
      exact (mem_completed.1 (List.mem_filter.1 hq).1).1 rfl
    · cases hp
  · have hown : (t', e') ∈ (if committed then [(t, e)] else []) ↔
        t' = t ∧ e' = e ∧ committed = true := by
      cases committed <;> simp
    rw [mem_append, List.mem_filter, mem_completed, hown, eq_self_iff_true, true_and]
    refine or_congr_right ⟨?_, ?_⟩
    · rintro ⟨⟨ht, d', hd', -, hover⟩, hstate⟩
      rw [State.isPrepareCommit, hd'] at hstate
      exact ⟨ht, d', hd', by simpa using hstate, hover⟩
    · rintro ⟨ht, d', hd', hstate, hover⟩
      exact ⟨⟨ht, d', hd', by simp [hstate, TxnState.isPrepared], hover⟩,
        by simp [State.isPrepareCommit, hd', hstate]⟩
  · have hfilter : (completed s t producerId e committed d).filter (s₁.modifyDetail t e
        ({ · with state := some (final committed) })).isPrepareCommit =
        (completed s t producerId e committed d).filter s.isPrepareCommit :=
      filter_congr fun p hp => by
        simp only [State.isPrepareCommit, hother p.1 p.2 (mem_completed.1 hp).1]
    have happlied : ∀ ps qs, s.applied (ps ++ qs) =
        qs.foldl (fun m p => overlay m (s.staged p)) (s.applied ps) := fun _ _ => foldl_append
    rw [commits_foldl_complete nodup_completed, hfilter, happlied, ← hcommits]
    refine foldl_ext _ _ _ fun m p hp => ?_
    simp only [State.staged, hother p.1 p.2 (mem_completed.1 (List.mem_filter.1 hp).1).1]

theorem ended_of_txnEnd (h : txnEnd s t producerId e committed = .ok s') :
    ∃ d deferred, current s t producerId e = .ok d ∧
      Ended s t producerId e committed d deferred s' := by
  unfold txnEnd at h
  split at h
  next => cases h
  next d hcurrent =>
    dsimp only at h
    split at h
    next hdeferred =>
      cases h
      exact ⟨d, true, hcurrent, ended_of_deferred (overlapping_begin_iff.1 hdeferred)⟩
    next hdeferred =>
      cases h
      exact ⟨d, false, hcurrent, ended_of_resolved (detail?_of_current hcurrent)
        fun h => hdeferred (overlapping_begin_iff.2 h)⟩

theorem exists_txnEnd (h : current s t producerId e = .ok d) (committed : Bool) :
    ∃ s' deferred, txnEnd s t producerId e committed = .ok s' ∧
      Ended s t producerId e committed d deferred s' := by
  obtain ⟨s', hs'⟩ : ∃ s', txnEnd s t producerId e committed = .ok s' := by
    simp only [txnEnd, h]
    split <;> exact ⟨_, rfl⟩
  obtain ⟨d', deferred, hd', hended⟩ := ended_of_txnEnd hs'
  cases h.symm.trans hd'
  exact ⟨s', deferred, hs', hended⟩

/-! ## The other operations -/

/-- What `init_producer` for `t`, whose epoch was `oldEpoch`, makes of the detail of `(t', e')`. -/
def fence (t : String) (oldEpoch : Int) (t' : String) (e' : Int) (d : TxnDetail) : TxnDetail :=
  if t' = t ∧ e' = oldEpoch ∧ d.state = some TxnState.begin then { d with state := some .aborted }
  else d

/-- The partitions of the transaction that `init_producer` aborts. -/
def fencedPartitions (txn : Txn) : List Topition :=
  ((BTreeMap.lastKey? txn.epochs).bind (txn.epochs[·]?)).elim [] fun d =>
    if d.state = some TxnState.begin then d.produces.keys else []

/-- What `init_producer` does for a transactional id that is known. -/
structure Reinitialised (s : State) (t : String) (txn : Txn) (transactionTimeoutMs now : Int)
    (s' : State) : Prop where
  details : ∀ t' e', s'.coord.detail? t' e' =
    if t' = t ∧ e' = wrapI16 ((BTreeMap.lastKey? txn.epochs).getD 0 + 1) then
      some (begun transactionTimeoutMs now)
    else (s.coord.detail? t' e').map (fence t ((BTreeMap.lastKey? txn.epochs).getD 0) t' e')
  topics : s'.coord.topics = s.coord.topics
  producer : ∀ t', s'.coord.producer? t' = s.coord.producer? t'
  batches : s'.batches = (marks txn.producer ((BTreeMap.lastKey? txn.epochs).getD 0) false s 0
    (fencedPartitions txn)).1.batches
  watermarks : s'.watermarks = (marks txn.producer ((BTreeMap.lastKey? txn.epochs).getD 0) false s 0
    (fencedPartitions txn)).1.watermarks
  commits : s'.commits = s.commits

theorem detail?_newEpoch {coord coord' : CoordState} {newEpoch : Int} {d₀ : TxnDetail}
    (htxn : coord.transactions[t]? = some txn)
    (h : coord'.transactions = coord.transactions.modify t fun txn =>
      { txn with epochs := txn.epochs.insert newEpoch d₀ }) :
    coord'.detail? t' e' =
      if t' = t ∧ e' = newEpoch then some d₀ else coord.detail? t' e' := by
  rw [CoordState.detail?, h, BTreeMap.getElem?_modify_eq]
  by_cases ht : t = t'
  · subst ht
    by_cases he : newEpoch = e'
    · simp [htxn, he]
    · simp [CoordState.detail?, htxn, getElem?_insert_eq, he, Ne.symm he]
  · simp [CoordState.detail?, ht, Ne.symm ht]

theorem detail?_lastKey (htxn : s.coord.transactions[t]? = some txn) :
    s.coord.detail? t ((BTreeMap.lastKey? txn.epochs).getD 0) =
      (BTreeMap.lastKey? txn.epochs).bind (txn.epochs[·]?) := by
  rw [CoordState.detail?, htxn, bind_some]
  cases hlast : BTreeMap.lastKey? txn.epochs with
  | none =>
    rw [lastKey?_eq_maxKey?, maxKey?_eq_none_iff] at hlast
    simp [hlast]
  | some => rfl

theorem detail?_abortOpen (htxn : s.coord.transactions[t]? = some txn) :
    (abortOpen s t txn).coord.detail? t' e' = (s.coord.detail? t' e').map
      (fence t ((BTreeMap.lastKey? txn.epochs).getD 0) t' e') := by
  -- only the detail of the greatest epoch can change
  have hother : ¬ (t' = t ∧ e' = (BTreeMap.lastKey? txn.epochs).getD 0) →
      (s.coord.detail? t' e').map (fence t ((BTreeMap.lastKey? txn.epochs).getD 0) t' e') =
        s.coord.detail? t' e' := by
    intro hne
    have hid : fence t ((BTreeMap.lastKey? txn.epochs).getD 0) t' e' = id :=
      funext fun d => if_neg fun h => hne ⟨h.1, h.2.1⟩
    rw [hid, Option.map_id]
    rfl
  by_cases heq : t' = t ∧ e' = (BTreeMap.lastKey? txn.epochs).getD 0
  · obtain ⟨rfl, rfl⟩ := heq
    unfold abortOpen
    rw [detail?_lastKey htxn]
    split
    next hlast => rw [detail?_lastKey htxn, hlast]; rfl
    next d hlast =>
      split
      next hstate =>
        rw [State.modifyDetail, detail?_modifyDetail, if_pos ⟨rfl, rfl⟩, marks_coord,
          detail?_lastKey htxn, hlast]
        simp [fence, hstate]
      next hstate =>
        rw [detail?_lastKey htxn, hlast]
        simp [fence, hstate]
  · rw [hother heq]
    unfold abortOpen
    split
    next => rfl
    next =>
      split
      next =>
        rw [State.modifyDetail, detail?_modifyDetail,
          if_neg fun h => heq ⟨h.1.symm, h.2.symm⟩, marks_coord]
      next => rfl

theorem abortOpen_log (s : State) (t : String) (txn : Txn) :
    (abortOpen s t txn).batches = (marks txn.producer
      ((BTreeMap.lastKey? txn.epochs).getD 0) false s 0 (fencedPartitions txn)).1.batches ∧
    (abortOpen s t txn).watermarks = (marks txn.producer ((BTreeMap.lastKey? txn.epochs).getD 0)
      false s 0 (fencedPartitions txn)).1.watermarks := by
  unfold abortOpen fencedPartitions
  split
  next hlast => simp [hlast, marks]
  next d hlast =>
    by_cases hstate : d.state = some TxnState.begin
    · simp only [hstate, if_true, hlast, elim_some]
      exact ⟨rfl, rfl⟩
    · simp [hstate, hlast, marks]

theorem abortOpen_frame (s : State) (t : String) (txn : Txn) :
    (abortOpen s t txn).coord.topics = s.coord.topics ∧
    (abortOpen s t txn).coord.producers = s.coord.producers ∧
    (∀ t', (abortOpen s t txn).coord.producer? t' = s.coord.producer? t') ∧
    (abortOpen s t txn).commits = s.commits := by
  unfold abortOpen
  split
  next => exact ⟨rfl, rfl, fun _ => rfl, rfl⟩
  next d _ =>
    split
    next =>
      have hframed := Framed.modifyDetail
        (marks txn.producer ((BTreeMap.lastKey? txn.epochs).getD 0) false s 0 d.produces.keys).1 t
        ((BTreeMap.lastKey? txn.epochs).getD 0) ({ · with state := some TxnState.aborted })
      refine ⟨?_, ?_, fun t' => ?_, ?_⟩
      · rw [hframed.topics, marks_coord]
      · rw [hframed.producers, marks_coord]
      · rw [hframed.producer, marks_coord]
      · exact marks_commits _ _ _ _ _ _
    next => exact ⟨rfl, rfl, fun _ => rfl, rfl⟩

theorem reinitialised_of_reinit (htxn : s.coord.transactions[t]? = some txn)
    (transactionTimeoutMs now : Int) :
    Reinitialised s t txn transactionTimeoutMs now (reinit s t txn transactionTimeoutMs now).1 := by
  obtain ⟨htopics, -, hproducer, hcommits⟩ := abortOpen_frame s t txn
  obtain ⟨txn', htxn'⟩ : ∃ txn', (abortOpen s t txn).coord.transactions[t]? = some txn' := by
    have hp := hproducer t
    simp only [CoordState.producer?, htxn, map_some] at hp
    obtain ⟨txn', htxn', -⟩ := map_eq_some_iff.1 hp
    exact ⟨txn', htxn'⟩
  refine ⟨fun t' e' => ?_, htopics, fun t' => ?_, (abortOpen_log s t txn).1,
    (abortOpen_log s t txn).2, hcommits⟩
  · rw [← detail?_abortOpen htxn]
    exact detail?_newEpoch htxn' rfl
  · rw [← hproducer t']
    simp only [reinit, CoordState.producer?, BTreeMap.getElem?_modify_eq]
    split
    · rw [Option.map_map]
      rfl
    · rfl

theorem initProducer_none (s : State) (transactionTimeoutMs : Int)
    (producerId producerEpoch : Option Int) (now : Int) :
    ∃ producers : BTreeMap Int ProducerDetail, (∀ id ∈ s.coord.producers, id ∈ producers) ∧
      (initProducer s none transactionTimeoutMs producerId producerEpoch now).1 =
        { s with coord := { s.coord with producers } } := by
  unfold initProducer
  dsimp only
  split
  · exact ⟨_, fun id hid => mem_insert.2 (.inr hid), rfl⟩
  · exact ⟨s.coord.producers, fun _ hid => hid, rfl⟩

theorem detail?_initProducer_new {producerId : Option Int}
    (htxn : s.coord.transactions[t]? = none) :
    (initProducer s (some t) transactionTimeoutMs producerId producerEpoch
      now).1.coord.detail? t' e' =
      if t' = t ∧ e' = 0 then some (begun transactionTimeoutMs now) else s.coord.detail? t' e' := by
  simp only [initProducer, htxn, CoordState.detail?, getElem?_insert_eq]
  by_cases ht : t = t'
  · subst ht
    by_cases he : 0 = e'
    · simp [← he]
    · simp [he, Ne.symm he, htxn]
  · simp [ht, Ne.symm ht]

/-- What `produce` does. -/
structure Produced (s : State) (transactionId : Option String) (tp : Topition) (b : Batch)
    (metadata : TopicMetadata) (s' : State) : Prop where
  topic : s.coord.topics[tp.topic]? = some metadata
  details : ∀ t' e', s'.coord.detail? t' e' =
    if transactionId = some t' ∧ b.producerEpoch = e' then
      (s.coord.detail? t' e').map (extend · tp (s.high metadata.id tp.partition)
        (s.high metadata.id tp.partition + b.lastOffsetDelta))
    else s.coord.detail? t' e'
  topics : s'.coord.topics = s.coord.topics
  known : ∀ id ∈ s.coord.producers, id ∈ s'.coord.producers
  producer : ∀ t', s'.coord.producer? t' = s.coord.producer? t'
  high : ∀ id p, s'.high id p = if metadata.id = id ∧ tp.partition = p then
    s.high id p + b.lastOffsetDelta + 1 else s.high id p
  batches : ∀ (id : Nat) (p o : Int), s'.batches[(id, p, o)]? =
    if metadata.id = id ∧ tp.partition = p ∧ s.high id p = o then some b
    else s.batches[(id, p, o)]?
  commits : s'.commits = s.commits

theorem produced_of_place (h : s.coord.topics[tp.topic]? = some metadata) :
    Produced s transactionId tp b metadata (place s transactionId metadata tp b) := by
  have hhigh : ∀ s₁ : State, s₁.watermarks = s.watermarks → ∀ id p, s₁.high id p = s.high id p :=
    fun s₁ hw id p => by simp only [State.high, State.watermark, hw]
  obtain ⟨s₁, hplace, hdetails, hframed, hcommits⟩ : ∃ s₁ : State,
      place s transactionId metadata tp b = s₁.append metadata.id tp.partition b ∧
      (∀ t' e', s₁.coord.detail? t' e' = if transactionId = some t' ∧ b.producerEpoch = e' then
        (s.coord.detail? t' e').map (extend · tp (s.high metadata.id tp.partition)
          (s.high metadata.id tp.partition + b.lastOffsetDelta))
        else s.coord.detail? t' e') ∧ Framed s s₁ ∧ s₁.commits = s.commits := by
    cases transactionId with
    | none => exact ⟨s, rfl, fun t' e' => by simp, .refl s, rfl⟩
    | some t =>
      refine ⟨s.modifyDetail t b.producerEpoch (extend · tp (s.high metadata.id tp.partition)
        (s.high metadata.id tp.partition + b.lastOffsetDelta)), rfl, fun t' e' => ?_,
        .modifyDetail s t b.producerEpoch _, rfl⟩
      rw [State.modifyDetail, detail?_modifyDetail]
      simp only [Option.some.injEq]
  rw [hplace]
  refine ⟨h, hdetails, hframed.topics, fun id hid => ?_, hframed.producer, fun id p => ?_,
    fun id p o => ?_, hcommits⟩
  · have hproducers : (s₁.append metadata.id tp.partition b).coord.producers = s.coord.producers :=
      hframed.producers
    rw [hproducers]
    exact hid
  · rw [high_append, hhigh s₁ hframed.watermarks, hhigh s₁ hframed.watermarks]
    split
    next heq => rw [heq.1, heq.2]
    next => rfl
  · rw [batches_append, hhigh s₁ hframed.watermarks, hframed.batches]
    refine if_congr ?_ rfl rfl
    constructor
    · rintro ⟨rfl, rfl, rfl⟩
      exact ⟨rfl, rfl, rfl⟩
    · rintro ⟨rfl, rfl, rfl⟩
      exact ⟨rfl, rfl, rfl⟩

theorem produced_of_produce (h : produce s transactionId tp b = .ok (s', offset)) :
    ∃ metadata, offset = s.high metadata.id tp.partition ∧
      Produced s transactionId tp b metadata s' := by
  obtain ⟨metadata, producers, htopic, hknown, rfl, rfl⟩ := Confined.of_produce h
  have hplaced : Produced { s with coord := { s.coord with producers } } transactionId tp b
    metadata _ := produced_of_place htopic
  exact ⟨metadata, rfl, htopic, hplaced.details, hplaced.topics,
    fun id hid => hplaced.known id (hknown id hid), hplaced.producer, hplaced.high,
    hplaced.batches, hplaced.commits⟩

/-! ## Ranges -/

/-- Ranges start in the log. -/
def Starts (s : State) : Prop :=
  ∀ (t : String) (e : Int) (d : TxnDetail) (tp : Topition) (range : TxnProduceOffset)
    (metadata : TopicMetadata), s.coord.detail? t e = some d → d.range? tp = some range →
    s.coord.topics[tp.topic]? = some metadata → range.offsetStart < s.high metadata.id tp.partition

theorem Starts.transfer (h : Starts s) (hhigh : HighLe s s')
    (htopics : s'.coord.topics = s.coord.topics)
    (hdetail : ∀ t e d' tp range', s'.coord.detail? t e = some d' → d'.range? tp = some range' →
      ∃ d range, s.coord.detail? t e = some d ∧ d.range? tp = some range ∧
        range'.offsetStart = range.offsetStart) : Starts s' := by
  intro t e d' tp range' metadata hd' hr' hm
  obtain ⟨d, range, hd, hr, hstart⟩ := hdetail t e d' tp range' hd' hr'
  rw [hstart]
  exact (h t e d tp range metadata hd hr (htopics ▸ hm)).trans_le (hhigh _ _)

theorem starts_createTopic {topic : CreatableTopic} (h : Starts s) (htidy : Tidy s)
    (hs : createTopic s id topic = .ok s') : Starts s' := by
  unfold createTopic at hs
  split at hs
  · cases hs
  next hnew =>
    cases hs
    intro t e d tp range metadata hd hr hm
    rw [getElem?_insert_eq] at hm
    split at hm
    next heq =>
      -- nothing has been produced to the new topic
      rw [htidy.ranges hd (heq ▸ hnew)] at hr
      cases hr
    next => exact h t e d tp range metadata hd hr hm

theorem highLe_of_watermarks {s₁ : State} (h : HighLe s s₁) (hw : s'.watermarks = s₁.watermarks) :
    HighLe s s' := h.trans (.of_eq hw)

theorem starts_reinit {timeout : Int} (h : Starts s) (hs : Reinitialised s t txn timeout now s') :
    Starts s' := by
  refine h.transfer (highLe_of_watermarks (.marks _ _ _ _ _ _) hs.watermarks) hs.topics
    fun t' e d' tp range' hd' hr' => ?_
  rw [hs.details] at hd'
  split at hd'
  · cases hd'
    simp [begun, TxnDetail.range?] at hr'
  · obtain ⟨d, hd, rfl⟩ := map_eq_some_iff.1 hd'
    refine ⟨d, range', hd, ?_, rfl⟩
    unfold fence at hr'
    split at hr' <;> exact hr'

theorem starts_initProducer_new {producerId : Option Int} (h : Starts s)
    (htxn : s.coord.transactions[t]? = none) :
    Starts (initProducer s (some t) transactionTimeoutMs producerId producerEpoch now).1 := by
  refine h.transfer (.of_eq (by simp only [initProducer, htxn]))
    (by simp only [initProducer, htxn]) fun t' e' d' tp range' hd' hr' => ?_
  rw [detail?_initProducer_new htxn] at hd'
  split at hd'
  · cases hd'
    simp [begun, TxnDetail.range?] at hr'
  · exact ⟨d', range', hd', hr', rfl⟩

theorem mem_addPartitions {partitions : List Topition} (h : tp ∈ d.produces) :
    tp ∈ (addPartitions d partitions).produces := by
  unfold addPartitions
  generalize d.produces = m at h
  dsimp only
  induction partitions generalizing m with
  | nil => exact h
  | cons tp' partitions ih => exact ih _ (mem_insert.2 (.inr h))

theorem starts_modifyDetail {f : TxnDetail → TxnDetail} (h : Starts s)
    (hf : ∀ d tp range', (f d).range? tp = some range' → d.range? tp = some range') :
    Starts (s.modifyDetail t e f) := by
  refine h.transfer (.of_eq rfl) rfl fun t' e' d' tp range' hd' hr' => ?_
  rw [State.modifyDetail, detail?_modifyDetail] at hd'
  split at hd'
  · obtain ⟨d, hd, rfl⟩ := map_eq_some_iff.1 hd'
    exact ⟨d, range', hd, hf d tp range' hr', rfl⟩
  · exact ⟨d', range', hd', hr', rfl⟩

theorem range?_extend {tp' : Topition} :
    (extend d tp offset offsetEnd).range? tp' =
      if tp = tp' then
        some ⟨((d.range? tp').map TxnProduceOffset.offsetStart).getD offset, offsetEnd⟩
      else d.range? tp' := by
  rw [TxnDetail.range?, TxnDetail.range?, extend, getElem?_alter_eq]
  split
  · rcases d.produces[tp']? with - | - | range <;> rfl
  · rfl

theorem highLe_produce (hs : Produced s transactionId tp b metadata s')
    (hdelta : 0 ≤ b.lastOffsetDelta) :
    HighLe s s' := fun id p => by
  rw [hs.high]
  split <;> omega

theorem starts_produce (h : Starts s) (hs : Produced s transactionId tp b metadata s')
    (hdelta : 0 ≤ b.lastOffsetDelta) : Starts s' := by
  have hhigh := highLe_produce hs hdelta
  intro t e d' tp' range' metadata' hd' hr' hm'
  rw [hs.topics] at hm'
  rw [hs.details] at hd'
  split at hd'
  · obtain ⟨d, hd, rfl⟩ := map_eq_some_iff.1 hd'
    rw [range?_extend] at hr'
    split at hr'
    next heq =>
      subst heq
      cases hs.topic.symm.trans hm'
      cases hr'
      cases hr : d.range? tp with
      | none =>
        rw [hs.high, if_pos ⟨rfl, rfl⟩]
        simp only [map_none, getD_none]
        omega
      | some range => exact (h t e d tp range metadata hd hr hm').trans_le (hhigh _ _)
    next => exact (h t e d tp' range' metadata' hd hr' hm').trans_le (hhigh _ _)
  · exact (h t e d' tp' range' metadata' hd' hr' hm').trans_le (hhigh _ _)

theorem starts_txnEnd (h : Starts s) (hs : Ended s t producerId e committed d deferred s') :
    Starts s' := by
  have hprepare : HighLe s (TxnEnd.prepare s t e committed) := .of_eq rfl
  refine h.transfer (highLe_of_watermarks (hprepare.trans (.marks _ _ _ _ _ _))
    hs.framed.watermarks)
    (by rw [hs.framed.topics, marks_coord]; rfl) fun t' e' d' tp range' hd' hr' => ?_
  rw [hs.details] at hd'
  obtain ⟨d₀, hd₀, rfl⟩ := map_eq_some_iff.1 hd'
  rw [TxnDetail.range?, settle_produces] at hr'
  exact ⟨d₀, range', hd₀, hr', rfl⟩

end Tansu.Slate
