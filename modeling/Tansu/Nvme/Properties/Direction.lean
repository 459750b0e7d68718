import Tansu.Nvme.Properties.Transactional

/-!
# Staged offsets and the prepared direction

A `txn_end` moves the transactions it resolves to the terminal state that their
stored state calls for, and applies the staged offsets of those it holds to be
committing.  The history of a run lists what clients committed, which
transactions moved where with what staged, and what was inserted into the group
offsets, each with the task that did it.
-/

namespace Tansu.Nvme

open Std Tansu.Lib Machine List Option ExtTreeMap Transactions CoordState System

namespace Direction

/-! ## The history of a run -/

abbrev Staged := List ((Group × Topition) × TxnCommitOffset)

inductive Event
  /-- A client asks to commit an offset. -/
  | requested (task : Nat) (group : Group) (tp : Topition) (request : OffsetCommitRequest)
  /-- A transaction moves to a terminal state. -/
  | moved (task : Nat) (t : String) (e : Int) (before : Option TxnState) (after : TxnState)
      (staged : Staged)
  /-- An offset is inserted into the group offsets. -/
  | inserted (task : Nat) (group : Group) (tp : Topition) (request : OffsetCommitRequest)

/-- The transactions whose state has become terminal. -/
def moves (i : Nat) (before after : CoordState) : List Event :=
  before.transactions.toList.flatMap fun (t, txn) =>
    txn.epochs.toList.filterMap fun (e, d) =>
      match (after.detail? t e).bind (·.state) with
      | none => none
      | some state =>
        if state.isTerminal ∧ d.state ≠ some state then
          some (.moved i t e d.state state d.offsets.toList)
        else none

/-- What the section that runs inserts into the group offsets. -/
def insertions (w : EngineWorld) (i : Nat) : List Event :=
  match w.tasks[i]? with
  | some (.offsets (.insert group offsets known) :: _) =>
    (Offsets.accepted offsets known).map fun o => .inserted i group o.1 o.2
  | _ => []

def observe (history : List Event) (w : EngineWorld) (l : EngineLabel) (w' : EngineWorld) :
    List Event :=
  match l with
  | .spawn (.offsetCommit group offsets) =>
    history ++ offsets.map fun o => .requested w.tasks.length group o.1 o.2
  | .run i _ => history ++ (moves i w.shared.coord w'.shared.coord ++ insertions w i)
  | _ => history

/-- The engine with its history. -/
def system (cfg : Config) : System (EngineWorld × List Event) EngineLabel :=
  (machine cfg).system.observe observe

/-! ## Conditions on a run -/

/-- The caller asks for the direction the transaction was prepared for. -/
def sameDirection (coord : CoordState) (call : TxnEnd) : Bool :=
  (coord.detail? call.transactionId call.producerEpoch).all fun d =>
    d.state.all fun state => !state.isPrepared || decide (state = .prepare call.committed)

def isOffsets : Action → Bool
  | .offsets _ => true
  | _ => false

/-- A `txn_end` resolves its own prepared transaction in the direction it was
prepared for; offset commits name existing topics; and no log write fails in a
task that still has offsets to apply. -/
def consistent (w : EngineWorld) : EngineLabel → Bool
  | .run i c =>
    match w.tasks[i]? with
    | some (.txn (.resolve call) :: _) =>
      w.shared.coord.deferred call || sameDirection w.shared.coord call
    | some (.offsets (.commit _ offsets) :: _) =>
      offsets.all fun o => decide (o.1.topic ∈ w.shared.coord.topics.keys)
    | some (.wal _ :: rest) => c.fault.isNone || !rest.any isOffsets
    | _ => true
  | _ => true

/-! ## What a run has to keep -/

/-- The request that a staged offset is applied as. -/
def asCommit (co : TxnCommitOffset) : OffsetCommitRequest := { offset := co.committedOffset }

/-- The section inserts the offset, or leads to it. -/
def Inserts (group : Group) (tp : Topition) (request : OffsetCommitRequest) : Action → Prop
  | .offsets (.commit group' offsets) => group' = group ∧ (tp, request) ∈ offsets
  | .offsets (.insert group' offsets known) =>
    group' = group ∧ (tp, request) ∈ Offsets.accepted offsets known
  | _ => False

/-- Task `i` has still to insert the offset. -/
def Owed (w : EngineWorld) (i : Nat) (group : Group) (tp : Topition)
    (request : OffsetCommitRequest) : Prop :=
  ∃ todo, w.tasks[i]? = some todo ∧ ∃ a ∈ todo, Inserts group tp request a

/-- A client of task `i` asked for the offset, or the task itself has moved a
transaction that staged it to Committed. -/
def Source (history : List Event) (i : Nat) (group : Group) (tp : Topition)
    (request : OffsetCommitRequest) : Prop :=
  .requested i group tp request ∈ history ∨
    ∃ t e before staged co, .moved i t e before .committed staged ∈ history ∧
      ((group, tp), co) ∈ staged ∧ request = asCommit co

/-- What was staged by a transaction that moved from PrepareCommit to Committed is
inserted later, and nothing is inserted without a source before it. -/
structure Follows (p : EngineWorld × List Event) : Prop where
  committed : ∀ past later i t e staged group tp co,
    p.2 = past ++ .moved i t e (some .prepareCommit) .committed staged :: later →
    ((group, tp), co) ∈ staged →
    .inserted i group tp (asCommit co) ∈ later ∨ Owed p.1 i group tp (asCommit co)
  inserted : ∀ past later i group tp request,
    p.2 = past ++ .inserted i group tp request :: later → Source past i group tp request

/-! ## Which sections end a transaction -/

variable {cfg : Config} {c : Choice} {w w' : EngineWorld} {s s' : Engine} {a : Action}
  {next rest todo : List Action} {i j : Nat} {err : Error} {tp : Topition} {group : Group}
  {request : OffsetCommitRequest} {before after : CoordState} {history : List Event}

theorem mem_moves {ev : Event} : ev ∈ moves i before after ↔
    ∃ t e d state, before.detail? t e = some d ∧
      (after.detail? t e).bind (·.state) = some state ∧ state.isTerminal ∧ d.state ≠ some state ∧
      ev = .moved i t e d.state state d.offsets.toList := by
  simp only [moves, mem_flatMap, List.mem_filterMap, Prod.exists]
  constructor
  · rintro ⟨t, txn, htxn, e, d, hd, hev⟩
    have htxn := mem_toList_iff_getElem?_eq_some.1 htxn
    have hd := mem_toList_iff_getElem?_eq_some.1 hd
    split at hev
    · cases hev
    · next state hstate =>
      split at hev
      · next hcond =>
        cases hev
        exact ⟨t, e, d, state, by simp [CoordState.detail?, htxn, hd], hstate,
          hcond.1, hcond.2, rfl⟩
      · cases hev
  · rintro ⟨t, e, d, state, hd, hstate, hterm, hne, rfl⟩
    obtain ⟨txn, htxn, hd⟩ := bind_eq_some_iff.1 hd
    refine ⟨t, txn, mem_toList_iff_getElem?_eq_some.2 htxn, e, d,
      mem_toList_iff_getElem?_eq_some.2 hd, ?_⟩
    simp only [hstate, hterm, true_and]
    rw [if_pos hne]

/-- No transaction becomes terminal. -/
def EndsNothing (before after : CoordState) : Prop :=
  ∀ t e d state, before.detail? t e = some d → (after.detail? t e).bind (·.state) = some state →
    state.isTerminal → d.state = some state

theorem EndsNothing.moves (h : EndsNothing before after) : moves i before after = [] := by
  refine eq_nil_iff_forall_not_mem.2 fun ev hev => ?_
  obtain ⟨t, e, d, state, hd, hstate, hterm, hne, -⟩ := mem_moves.1 hev
  exact hne (h t e d state hd hstate hterm)

theorem EndsNothing.of_eq (h : after.transactions = before.transactions) :
    EndsNothing before after := by
  intro t e d state hd hstate _
  have : after.detail? t e = before.detail? t e := by simp only [CoordState.detail?, h]
  rw [this, hd] at hstate
  exact hstate

theorem EndsNothing.modifyDetail {t : String} {e : Int} {f : TxnDetail → TxnDetail}
    (h : ∀ d state, (f d).state = some state → state.isTerminal → d.state = some state) :
    EndsNothing before (before.modifyDetail t e f) := by
  intro t' e' d state hd hstate hterm
  rw [detail?_modifyDetail, hd] at hstate
  split at hstate
  · exact h d state hstate hterm
  · exact hstate

theorem run_endsNothing (h : a.run cfg s c = .ok s' next)
    (ha : ∀ call, a ≠ .txn (.resolve call)) : EndsNothing s.coord s'.coord := by
  by_cases hc : a.changesTxns = false
  · exact .of_eq (run_transactions hc h)
  cases a with
  | produce step =>
    cases step with
    | record t call attributes ack =>
      obtain ⟨-, ⟨-, rfl⟩ | ⟨d, -, -, rfl⟩⟩ := Produce.record_ok h
      · exact .of_eq rfl
      · exact .modifyDetail fun d state hd _ => hd
    | marker | guard | check | append | acked => exact absurd rfl hc
  | txn step =>
    cases step with
    | initProducer t timeout pid e =>
      cases t with
      | none => exact absurd rfl hc
      | some t =>
        rcases initTransactional_ok h with ⟨rfl, -⟩ | ⟨hnew, rfl, -⟩ |
          ⟨_, _, hp, -, ⟨-, rfl, -⟩ | ⟨-, rfl, -⟩⟩
        · exact .of_eq rfl
        · intro t' e' d state hd hstate hterm
          rw [detail?_allocate, if_neg, hd] at hstate
          · exact hstate
          · rintro rfl
            simp [CoordState.detail?, hnew] at hd
        · exact .of_eq rfl
        · intro t' e' d state hd hstate hterm
          rw [detail?_bumpEpoch (by simp [hp]), hd] at hstate
          split at hstate
          · cases hstate
          · exact hstate
    | addPartitions =>
      rcases addPartitions_ok h with ⟨rfl, -⟩ | ⟨d, -, rfl, -⟩
      · exact .of_eq rfl
      · refine .modifyDetail fun d state hd hterm => ?_
        cases hd
        cases hterm
    | offsetCommit =>
      rcases offsetCommit_ok h with ⟨rfl, -⟩ | ⟨d, -, rfl, -⟩
      · exact .of_eq rfl
      · exact .modifyDetail fun d state hd _ => hd
    | prepare call =>
      obtain ⟨d, -, ⟨-, rfl, -⟩ | ⟨-, rfl, -⟩⟩ := prepare_ok h
      · refine .modifyDetail fun d state hd hterm => ?_
        cases hd
        cases hcommitted : call.committed <;> simp [hcommitted, TxnState.prepare,
          TxnState.isTerminal] at hterm
      · exact .of_eq rfl
    | resolve call => exact absurd rfl (ha call)
    | release | sweep => exact absurd rfl hc
  | wal | offsets | admin | cleanup | snapshot | boot | handler | answer => exact absurd rfl hc

/-! ## The offsets of a resolution -/

theorem getElem?_byGroup_foldl (l : List (Group × Topition × TxnCommitOffset))
    (m : BTreeMap Group (List (Topition × OffsetCommitRequest))) :
    (l.foldl (fun m (group, tp, co) => m.alter group fun offsets =>
      some (offsets.getD [] ++ [(tp, { offset := co.committedOffset })])) m)[group]?.getD [] =
      m[group]?.getD [] ++
        (l.filter (·.1 = group)).map fun entry => (entry.2.1, asCommit entry.2.2) := by
  induction l generalizing m with
  | nil => simp
  | cons entry l ih =>
    obtain ⟨group', tp, co⟩ := entry
    rw [foldl_cons, ih, BTreeMap.getElem?_alter_eq]
    by_cases hg : group' = group
    · simp [hg, asCommit]
    · simp [hg]

variable {effects : List TxnEffects} {offsets : List (Topition × OffsetCommitRequest)}
  {more : List Event} {l : EngineLabel}

/-- The commits of a resolution carry exactly the offsets of its effects. -/
theorem mem_byGroup :
    (tp, request) ∈ ((Transactions.byGroup effects)[group]?).getD [] ↔
      ∃ effect ∈ effects, ∃ co, (group, tp, co) ∈ effect.offsets ∧ request = asCommit co := by
  rw [Transactions.byGroup, getElem?_byGroup_foldl]
  simp only [getElem?_empty, getD_none, nil_append, List.mem_map,
    List.mem_filter, mem_flatMap, decide_eq_true_eq, Prod.mk.injEq]
  constructor
  · rintro ⟨⟨g, tp', co⟩, ⟨⟨effect, heff, hmem⟩, rfl⟩, rfl, rfl⟩
    exact ⟨effect, heff, co, hmem, rfl⟩
  · rintro ⟨effect, heff, co, hmem, rfl⟩
    exact ⟨(group, tp, co), ⟨⟨effect, heff, hmem⟩, rfl⟩, rfl, rfl⟩

theorem mem_offsetCommits_iff :
    .offsets (.commit group offsets) ∈ Transactions.offsetCommits effects ↔
      (Transactions.byGroup effects)[group]? = some offsets := by
  simp only [Transactions.offsetCommits, List.mem_map, Prod.exists, Action.offsets.injEq,
    OffsetStep.commit.injEq]
  constructor
  · rintro ⟨_, _, hmem, rfl, rfl⟩
    exact mem_toList_iff_getElem?_eq_some.1 hmem
  · intro h
    exact ⟨group, offsets, mem_toList_iff_getElem?_eq_some.2 h, rfl, rfl⟩

/-- A commit section carries only what an effect staged. -/
theorem offsets_of_commit
    (h : .offsets (.commit group offsets) ∈ Transactions.offsetCommits effects)
    (hmem : (tp, request) ∈ offsets) :
    ∃ effect ∈ effects, ∃ co, (group, tp, co) ∈ effect.offsets ∧ request = asCommit co := by
  refine mem_byGroup.1 ?_
  rw [mem_offsetCommits_iff.1 h]
  exact hmem

/-- What an effect staged is carried by a commit section. -/
theorem commit_of_offsets {effect : TxnEffects} {co : TxnCommitOffset} (heff : effect ∈ effects)
    (hmem : (group, tp, co) ∈ effect.offsets) :
    ∃ offsets, .offsets (.commit group offsets) ∈ Transactions.offsetCommits effects ∧
      (tp, asCommit co) ∈ offsets := by
  have h : (tp, asCommit co) ∈ ((Transactions.byGroup effects)[group]?).getD [] :=
    mem_byGroup.2 ⟨effect, heff, co, hmem, rfl⟩
  cases hg : (Transactions.byGroup effects)[group]? with
  | none => simp [hg] at h
  | some offsets =>
    rw [hg] at h
    exact ⟨offsets, mem_offsetCommits_iff.2 hg, h⟩

section Resolve

variable {coord : CoordState} {call : TxnEnd} {ref : TxnRef} {d d₀ : TxnDetail} {state : TxnState}
  {co : TxnCommitOffset}

/-- The reference agrees with the stored state: what was prepared for commit is
held to be committing, and what is held to be committing moves to Committed. -/
theorem ref_direction (hdir : sameDirection coord call)
    (hmem : ref ∈ coord.peers call ++ [CoordState.ownRef call])
    (hd : coord.detail? ref.transaction ref.producerEpoch = some d)
    (hst : CoordState.terminal d.state = some state) :
    (d.state = some .prepareCommit → ref.state = .prepareCommit) ∧
      (ref.state = .prepareCommit → state = .committed) := by
  rcases mem_append.1 hmem with hmem | hmem
  · obtain ⟨-, d', hd', hstate, -⟩ := mem_peers hmem
    rw [hd] at hd'
    cases hd'
    refine ⟨fun h => ?_, fun h => ?_⟩
    · rw [hstate] at h
      exact Option.some.inj h
    · rw [hstate, h] at hst
      cases hst
      rfl
  · obtain rfl := mem_singleton.1 hmem
    have hd : coord.detail? call.transactionId call.producerEpoch = some d := hd
    simp only [sameDirection, hd, all_some] at hdir
    refine ⟨fun h => ?_, fun h => ?_⟩
    · simp only [h, all_some, TxnState.isPrepared, Bool.not_true, Bool.false_or,
        decide_eq_true_eq] at hdir
      exact hdir.symm
    · have h : TxnState.prepare call.committed = .prepareCommit := h
      match hs : d.state with
      | none | some .prepareCommit =>
        rw [hs] at hst
        cases hst
        rfl
      | some .prepareAbort =>
        rw [hs, h] at hdir
        simp [TxnState.isPrepared] at hdir
      | some .begin | some .committed | some .aborted =>
        rw [hs] at hst
        cases hst

theorem mem_effects_offsets :
    (group, tp, co) ∈ (CoordState.effects d ref state).offsets ↔
      ref.state = .prepareCommit ∧ ((group, tp), co) ∈ d.offsets.toList := by
  simp only [CoordState.effects]
  split
  · next h => simp [h]
  · next h => simp [h]

/-- What a resolution commits was staged by a transaction that it moves to
Committed. -/
theorem source_of_resolve (hdir : sameDirection coord call)
    (h : .offsets (.commit group offsets) ∈ Transactions.offsetCommits (coord.resolve call).2)
    (hmem : (tp, request) ∈ offsets) :
    Source (moves i coord (coord.resolve call).1) i group tp request := by
  obtain ⟨effect, heff, co, hoff, rfl⟩ := offsets_of_commit h hmem
  obtain ⟨ref, href, d, state, rfl, hd, hst, hfin⟩ :=
    (coord.resolve_resolved call).effect effect heff
  obtain ⟨hcommit, hstaged⟩ := mem_effects_offsets.1 hoff
  obtain rfl := (ref_direction hdir href hd hst).2 hcommit
  refine .inr ⟨ref.transaction, ref.producerEpoch, d.state, d.offsets.toList, co, ?_, hstaged, rfl⟩
  refine mem_moves.2 ⟨_, _, d, .committed, hd, by rw [hfin]; rfl, rfl, fun h => ?_, rfl⟩
  rw [h] at hst
  cases hst

/-- What was staged for a transaction that a resolution moves from PrepareCommit
to Committed, it commits. -/
theorem commit_of_resolve (hdir : sameDirection coord call) {t : String} {e : Int} {staged : Staged}
    (h : .moved i t e (some .prepareCommit) .committed staged ∈
      moves j coord (coord.resolve call).1) (hmem : ((group, tp), co) ∈ staged) : i = j ∧
    ∃ offsets, .offsets (.commit group offsets) ∈
      Transactions.offsetCommits (coord.resolve call).2 ∧ (tp, asCommit co) ∈ offsets := by
  obtain ⟨t', e', d, state, hd, hafter, -, hne, heq⟩ := mem_moves.1 h
  simp only [Event.moved.injEq] at heq
  obtain ⟨rfl, rfl, rfl, hs, rfl, rfl⟩ := heq
  refine ⟨rfl, ?_⟩
  rcases (coord.resolve_resolved call).detail t e with heq |
    ⟨ref, href, d₀, state, rfl, rfl, hd₀, hst, -, heff⟩
  · rw [heq, hd] at hafter
    exact absurd hafter hne
  · rw [hd] at hd₀
    cases hd₀
    have hcommit := (ref_direction hdir href hd hst).1 hs.symm
    exact commit_of_offsets heff (mem_effects_offsets.2 ⟨hcommit, hmem⟩)

end Resolve

/-! ## The invariant -/

def safe : Action → Prop
  | .wal _ | .txn (.release ..) | .offsets _ => True
  | _ => False

def target : Action → Prop
  | .offsets _ => True
  | _ => False

structure Inv (p : EngineWorld × List Event) : Prop where
  lead : ∀ todo ∈ p.1.tasks, Lead safe target todo
  follows : Follows p
  sources : ∀ (i : Nat) todo a group tp request, p.1.tasks[i]? = some todo → a ∈ todo →
    Inserts group tp request a → Source p.2 i group tp request

theorem Inserts.target (h : Inserts group tp request a) : target a := by
  cases a with
  | offsets => trivial
  | produce | txn | wal | admin | cleanup | snapshot | boot | handler | answer => exact h

theorem Source.mono (h : Source history i group tp request) :
    Source (history ++ more) i group tp request := by
  rcases h with h | ⟨t, e, before, staged, co, h, hmem, heq⟩
  · exact .inl (mem_append_left _ h)
  · exact .inr ⟨t, e, before, staged, co, mem_append_left _ h, hmem, heq⟩

theorem Source.mono_right {past : List Event} (h : Source history i group tp request) :
    Source (past ++ history) i group tp request := by
  rcases h with h | ⟨t, e, before, staged, co, h, hmem, heq⟩
  · exact .inl (mem_append_right _ h)
  · exact .inr ⟨t, e, before, staged, co, mem_append_right _ h, hmem, heq⟩

/-- A failure loses no offsets. -/
theorem not_lost (hok : consistent w l) (hl : l = .run i c) (hat : At w i a rest)
    (h : a.run cfg w.shared c = .err s' err) : ¬ safe a ∨ ∀ b ∈ rest, ¬ target b := by
  subst hl
  cases a with
  | wal step =>
    obtain ⟨-, hf⟩ := wal_err h
    simp only [consistent, hat.get] at hok
    have hrest : rest.any isOffsets = false := by
      simpa [isNone_iff_eq_none, hf] using hok
    refine .inr fun b hb htarget => ?_
    cases b with
    | offsets step => exact absurd rfl (List.any_eq_false.1 hrest _ hb)
    | produce | txn | wal | admin | cleanup | snapshot | boot | handler | answer => exact htarget
  | offsets step => cases step <;> cases h
  | txn step => cases step <;> first | exact .inl id | cases h
  | produce | admin | cleanup | snapshot | boot | handler | answer => exact .inl id

theorem lead_next (h : a.run cfg s c = .ok s' next) :
    Lead safe target next ∧ (safe a → ∀ b ∈ next, safe b) := by
  have hsafe (ha : ∀ b, Leads s s' a b → safe b) :
      Lead safe target next ∧ (safe a → ∀ b ∈ next, safe b) :=
    ⟨.of_safe fun b hb => ha b (run_leads h b hb), fun _ b hb => ha b (run_leads h b hb)⟩
  have hother (hns : ¬ safe a) (ha : ∀ b, Leads s s' a b → ¬ target b) :
      Lead safe target next ∧ (safe a → ∀ b ∈ next, safe b) :=
    ⟨.of_not_target fun b hb => ha b (run_leads h b hb), fun hs => absurd hs hns⟩
  cases a with
  | txn step =>
    cases step with
    | resolve | release => exact hsafe fun b hl => by cases hl <;> trivial
    | initProducer | addPartitions | offsetCommit | prepare | sweep =>
      exact hother id fun b hl => by cases hl <;> exact id
  | wal | offsets => exact hsafe fun b hl => by cases hl <;> trivial
  | produce | admin | cleanup | snapshot | boot | handler | answer =>
    exact hother id fun b hl => by cases hl <;> exact id

theorem Inv.extend (hi : Inv (w, history)) (hlead : ∀ todo ∈ w'.tasks, Lead safe target todo)
    (howed : ∀ i group tp request, Owed w i group tp request →
      Owed w' i group tp request ∨ .inserted i group tp request ∈ more)
    (hmoved : ∀ i t e staged group tp co,
      .moved i t e (some .prepareCommit) .committed staged ∈ more → ((group, tp), co) ∈ staged →
      Owed w' i group tp (asCommit co))
    (hinserted : ∀ i group tp request, .inserted i group tp request ∈ more →
      Source history i group tp request)
    (hsources : ∀ (i : Nat) todo a group tp request, w'.tasks[i]? = some todo → a ∈ todo →
      Inserts group tp request a → Source (history ++ more) i group tp request) :
    Inv (w', history ++ more) := by
  refine ⟨hlead, ⟨?_, ?_⟩, hsources⟩
  · intro past later i t e staged group tp co hsplit hmem
    rcases split_append hsplit with ⟨later', hh, rfl⟩ | ⟨past', hm, -⟩
    · rcases hi.follows.committed past later' i t e staged group tp co hh hmem with hins | ho
      · exact .inl (mem_append_left _ hins)
      · rcases howed i group tp _ ho with ho | hins
        · exact .inr ho
        · exact .inl (mem_append_right _ hins)
    · exact .inr (hmoved i t e staged group tp co (by simp [hm]) hmem)
  · intro past later i group tp request hsplit
    rcases split_append hsplit with ⟨later', hh, -⟩ | ⟨past', hm, rfl⟩
    · exact hi.follows.inserted past later' i group tp request hh
    · exact (hinserted i group tp request (by simp [hm])).mono

/-- An offset stays owed until its task inserts it. -/
theorem Owed.step (hlead : ∀ todo ∈ w.tasks, Lead safe target todo) (hok : consistent w (.run j c))
    (h : (machine cfg).step w (.run j c) = some w') (ho : Owed w i group tp request) :
    Owed w' i group tp request ∨ (i = j ∧ ∃ a rest, At w j a rest ∧ Inserts group tp request a) :=
  Owes.step hlead (fun _ => Inserts.target) h
    (fun _ _ _ _ hat he => not_lost hok rfl hat (exec_err he)) ho

theorem insertions_of_not_insert (hat : At w i a rest)
    (ha : ∀ group offsets known, a ≠ .offsets (.insert group offsets known)) :
    insertions w i = [] := by
  unfold insertions
  rw [hat.get]
  split
  · next heq =>
    cases heq
    exact absurd rfl (ha _ _ _)
  · rfl

theorem sources_step (hi : Inv (w, history)) (h : (machine cfg).step w (.run i c) = some w')
    (hat : At w i a rest)
    (hnext : ∀ next b group tp request, a.run cfg w.shared c = .ok w'.shared next → b ∈ next →
      Inserts group tp request b → Source (history ++ more) i group tp request) :
    ∀ (j : Nat) todo b group tp request, w'.tasks[j]? = some todo → b ∈ todo →
      Inserts group tp request b → Source (history ++ more) j group tp request := by
  intro j todo b group tp request htodo hb
  refine forall_tasks_step
    (P := fun j b => Inserts group tp request b → Source history j group tp request)
    (Q := fun j b => Inserts group tp request b → Source (history ++ more) j group tp request)
    (fun j todo ht b hb => hi.sources j todo b group tp request ht hb)
    (fun j b hp hins => (hp hins).mono) h nofun ?_ j todo htodo b hb
  intro i' c' a' rest' next hl hat' he b hb hins
  cases hl
  obtain ⟨rfl, rfl⟩ := hat.eq hat'
  exact hnext next b group tp request (exec_ok he) hb hins

section

variable (hi : Inv (w, history)) (hlead : ∀ todo ∈ w'.tasks, Lead safe target todo)
  (hok : consistent w (.run i c)) (h : (machine cfg).step w (.run i c) = some w')
include hi hlead hok h

theorem Inv.other (hat : At w i a rest) (ha : ∀ group tp request, ¬ Inserts group tp request a)
    (hnext : ∀ next, a.run cfg w.shared c = .ok w'.shared next → ∀ b ∈ next, ¬ target b) :
    Inv (w', history) := by
  have key : Inv (w', history ++ []) := by
    refine hi.extend hlead (fun j group tp request ho => ?_) nofun nofun
      (sources_step hi h hat fun next b group tp request hrun hb hins => ?_)
    · rcases ho.step hi.lead hok h with ho | ⟨-, a', rest', hat', hins⟩
      · exact .inl ho
      · obtain ⟨rfl, rfl⟩ := hat.eq hat'
        exact absurd hins (ha group tp request)
    · exact absurd hins.target (hnext next hrun b hb)
  simpa using key

theorem Inv.resolve {call : TxnEnd} (hat : At w i (.txn (.resolve call)) rest) :
    Inv (w', history ++ moves i w.shared.coord w'.shared.coord) := by
  have hnothing (hends : EndsNothing w.shared.coord w'.shared.coord)
      (hnext : ∀ next, (Action.txn (.resolve call)).run cfg w.shared c = .ok w'.shared next →
        ∀ b ∈ next, ¬ target b) :
      Inv (w', history ++ moves i w.shared.coord w'.shared.coord) := by
    rw [hends.moves, append_nil]
    exact hi.other hlead hok h hat (fun _ _ _ => id) hnext
  obtain he | he := hat.step h
  · have hrun := exec_ok he
    obtain ⟨d, hd, ⟨-, rfl, rfl⟩ | ⟨hdef, rfl, rfl⟩⟩ := resolve_ok hrun
    · refine hnothing (.of_eq rfl) fun next hrun' => ?_
      rw [hrun] at hrun'
      cases hrun'
      simp
    · have hdir : sameDirection w.shared.coord call := by
        simpa [consistent, hat.get, hdef] using hok
      refine hi.extend hlead (fun j group tp request ho => ?_) ?_ ?_
        (sources_step hi h hat fun next b group tp request hrun' hb hins => ?_)
      · rcases ho.step hi.lead hok h with ho | ⟨-, a', rest', hat', hins⟩
        · exact .inl ho
        · obtain ⟨rfl, rfl⟩ := hat.eq hat'
          exact hins.elim
      · intro j t e staged group tp co hmem hstaged
        obtain ⟨rfl, offsets, hcommit, hoff⟩ := commit_of_resolve hdir hmem hstaged
        exact ⟨_, getElem?_set_self hat.lt, .offsets (.commit group offsets),
          mem_append_left _ (mem_append_right _ hcommit), rfl, hoff⟩
      · intro j group tp request hmem
        obtain ⟨_, _, _, _, -, -, -, -, heq⟩ := mem_moves.1 hmem
        cases heq
      · rw [hrun] at hrun'
        cases hrun'
        rcases mem_resolution hb with ⟨_, -, _, rfl⟩ | ⟨_, -, _, -, rfl⟩ | hb
        · exact hins.elim
        · exact hins.elim
        · obtain ⟨group', offsets, rfl⟩ := mem_offsetCommits hb
          obtain ⟨rfl, hoff⟩ := hins
          exact (source_of_resolve hdir hb hoff).mono_right
  · refine hnothing (.of_eq (run_err_transactions (exec_err he))) fun next hrun => ?_
    rw [exec_err he] at hrun
    cases hrun

theorem Inv.commit (hat : At w i (.offsets (.commit group offsets)) rest) : Inv (w', history) := by
  obtain he | he := hat.step h
  · have hrun := exec_ok he
    cases hrun
    have hknown : ∀ o ∈ offsets, o.1.topic ∈ w.shared.coord.topics.keys := by
      simpa [consistent, hat.get] using hok
    have key : Inv (⟨w.shared, w.tasks.set i ([.offsets (.insert group offsets
        w.shared.coord.topics.keys)] ++ rest)⟩, history ++ []) := by
      refine hi.extend hlead (fun j group' tp request ho => .inl ?_) (by simp) (by simp)
        (sources_step hi h hat fun next b group' tp request hrun' hb hins => ?_)
      · rcases ho.step hi.lead hok h with ho | ⟨rfl, a', rest', hat', hins⟩
        · exact ho
        · obtain ⟨rfl, rfl⟩ := hat.eq hat'
          obtain ⟨rfl, hoff⟩ := hins
          refine ⟨_, getElem?_set_self hat.lt, _, mem_cons_self, rfl, ?_⟩
          exact List.mem_filter.2 ⟨hoff, decide_eq_true (hknown _ hoff)⟩
      · cases hrun'
        rw [mem_singleton.1 hb] at hins
        obtain ⟨rfl, hoff⟩ := hins
        exact (hi.sources i _ _ group tp request hat mem_cons_self
          ⟨rfl, (List.mem_filter.1 hoff).1⟩).mono
    simpa using key
  · cases exec_err he

theorem Inv.insert {known : List Topic} (hat : At w i (.offsets (.insert group offsets known)) rest)
    :
    Inv (w', history ++ insertions w i) := by
  have hins : insertions w i =
      (Offsets.accepted offsets known).map fun o => .inserted i group o.1 o.2 := by
    simp only [insertions, hat.get]
  refine hi.extend hlead (fun j group' tp request ho => ?_) ?_ ?_
    (sources_step hi h hat fun next b group' tp request hrun hb hins' => ?_)
  · rcases ho.step hi.lead hok h with ho | ⟨rfl, a', rest', hat', hins'⟩
    · exact .inl ho
    · obtain ⟨rfl, rfl⟩ := hat.eq hat'
      obtain ⟨rfl, hoff⟩ := hins'
      rw [hins]
      exact .inr (List.mem_map.2 ⟨(tp, request), hoff, rfl⟩)
  · intro j t e staged group' tp co hmem
    rw [hins] at hmem
    obtain ⟨_, -, heq⟩ := List.mem_map.1 hmem
    cases heq
  · intro j group' tp request hmem
    rw [hins] at hmem
    obtain ⟨o, hoff, heq⟩ := List.mem_map.1 hmem
    cases heq
    exact hi.sources i _ _ group _ _ hat mem_cons_self ⟨rfl, hoff⟩
  · obtain ⟨-, rfl⟩ := Outcome.ok.inj hrun
    split at hb
    · cases hb
    · rw [mem_singleton.1 hb] at hins'
      exact hins'.elim

end

/-! ## Every step -/

/-- What the group offsets hold was inserted. -/
def Stored (p : EngineWorld × List Event) : Prop :=
  ∀ (group : Group) (tp : Topition) request,
    p.1.shared.groupOffsets[(group, tp)]? = some request → ∃ i, .inserted i group tp request ∈ p.2

theorem Stored.step (hi : Stored (w, history)) (hs : (machine cfg).step w l = some w') :
    Stored (w', observe history w l w') := by
  intro group tp request hmem
  have hold (more : List Event) (hmem : w.shared.groupOffsets[(group, tp)]? = some request) :
      ∃ i, .inserted i group tp request ∈ history ++ more := by
    obtain ⟨i, hin⟩ := hi group tp request hmem
    exact ⟨i, mem_append_left _ hin⟩
  cases l with
  | spawn r =>
    cases hs
    cases r with
    | offsetCommit => exact hold _ hmem
    | _ => simpa [observe] using hold [] hmem
  | env e =>
    obtain ⟨s, he, rfl⟩ := step_env hs
    have hsame : s.groupOffsets = w.shared.groupOffsets := by
      cases e <;> cases he <;> rfl
    rw [hsame] at hmem
    simpa [observe] using hold [] hmem
  | run i c =>
    obtain ⟨a, rest, hat, he | he⟩ := step_run hs
    · have hrun := exec_ok he
      by_cases ha : ∃ group offsets known, a = .offsets (.insert group offsets known)
      · obtain ⟨group', offsets, known, rfl⟩ := ha
        obtain ⟨rfl, -⟩ := Outcome.ok.inj hrun
        simp only [observe, insertions, hat.get]
        rw [BTreeMap.getElem?_foldl_insert] at hmem
        -- The last accepted offset for the key stands, or the key is not touched.
        cases hlast : ((Offsets.accepted offsets known).filter
            fun o => (group', o.1) = (group, tp)).getLast? with
        | none =>
          rw [hlast] at hmem
          exact hold _ hmem
        | some o =>
          rw [hlast] at hmem
          cases hmem
          obtain ⟨ho, hkey⟩ := List.mem_filter.1 (mem_of_getLast? hlast)
          cases of_decide_eq_true hkey
          exact ⟨i, mem_append_right _ (mem_append_right _
            (List.mem_map.2 ⟨o, ho, rfl⟩))⟩
      · refine hold _ (run_groupOffsets (fun _ _ _ heq => ha ⟨_, _, _, heq⟩) hrun hmem)
    · obtain ⟨_, _, _, _, _, rfl⟩ := run_err_frame (exec_err he)
      exact hold _ hmem

theorem Inv.spawn {r : Request} (hi : Inv (w, history))
    (hlead : ∀ todo ∈ w'.tasks, Lead safe target todo)
    (h : (machine cfg).step w (.spawn r) = some w') :
    Inv (w', observe history w (.spawn r) w') := by
  cases h
  have hextend (more : List Event)
      (hmore : ∀ ev ∈ more, ∃ i group tp request, ev = .requested i group tp request)
      (hstart : ∀ a ∈ r.start, ∀ group tp request, Inserts group tp request a →
        .requested w.tasks.length group tp request ∈ more) :
      Inv (⟨w.shared, w.tasks ++ [r.start]⟩, history ++ more) := by
    refine hi.extend hlead ?_ ?_ ?_ ?_
    · exact fun i group tp request ho => .inl (Owes.spawn ho)
    · intro i t e staged group tp co hmem
      obtain ⟨_, _, _, _, heq⟩ := hmore _ hmem
      cases heq
    · intro i group tp request hmem
      obtain ⟨_, _, _, _, heq⟩ := hmore _ hmem
      cases heq
    · intro j todo a group tp request htodo ha hins
      rcases step_tasks (l := .spawn r) (M := machine cfg) rfl htodo with
        ⟨-, htodo⟩ | ⟨r', hl, hj, rfl⟩ | ⟨_, _, _, _, hl, -⟩ | ⟨_, _, _, _, hl, -⟩
      · exact (hi.sources j todo a group tp request htodo ha hins).mono
      · cases hl
        rw [hj]
        exact .inl (mem_append_right _ (hstart a ha group tp request hins))
      · cases hl
      · cases hl
  cases r with
  | offsetCommit group offsets =>
    refine hextend _ (fun ev hev => ?_) fun a ha group' tp request hins => ?_
    · obtain ⟨o, -, rfl⟩ := List.mem_map.1 hev
      exact ⟨_, _, _, _, rfl⟩
    · rw [mem_singleton.1 ha] at hins
      obtain ⟨rfl, hoff⟩ := hins
      exact List.mem_map.2 ⟨_, hoff, rfl⟩
  | _ =>
    have key := hextend [] (by simp) (by simp [Request.start, Inserts])
    rw [append_nil] at key
    exact key

theorem Inv.step (hi : Inv (w, history)) (hok : consistent w l)
    (hs : (machine cfg).step w l = some w') : Inv (w', observe history w l w') := by
  have hlead : ∀ todo ∈ w'.tasks, Lead safe target todo := by
    refine Lead.all_step hi.lead hs (fun r _ => ?_)
      (fun i c a rest s next _ _ he => lead_next (exec_ok he))
      (fun i c a rest s e hl hat he => not_lost hok hl hat (exec_err he))
    cases r with
    | offsetCommit => exact .of_safe (by simp [machine, Request.start, safe])
    | _ => exact .of_not_target (by simp [machine, Request.start, target])
  cases l with
  | spawn r => exact hi.spawn hlead hs
  | env e =>
    obtain ⟨s, -, rfl⟩ := step_env hs
    exact ⟨hlead, ⟨hi.follows.committed, hi.follows.inserted⟩, hi.sources⟩
  | run i c =>
    obtain ⟨a, rest, hat, hcase⟩ := step_run hs
    have hquiet (ha : isOffsets a = false) (ha' : ∀ call, a ≠ .txn (.resolve call)) :
        Inv (w', observe history w (.run i c) w') := by
      have hnot : ∀ group offsets known, a ≠ .offsets (.insert group offsets known) := by
        rintro group offsets known rfl
        cases ha
      have hends : EndsNothing w.shared.coord w'.shared.coord := by
        rcases hcase with he | he
        · exact run_endsNothing (exec_ok he) ha'
        · exact .of_eq (run_err_transactions (exec_err he))
      simp only [observe, hends.moves, insertions_of_not_insert hat hnot, append_nil]
      refine hi.other hlead hok hs hat (fun group tp request hins => ?_)
        fun next hrun b hb htgt => ?_
      · cases a with
        | offsets => cases ha
        | produce | txn | wal | admin | cleanup | snapshot | boot | handler | answer => exact hins
      · cases b with
        | offsets step =>
          rcases mem_next_offsets hrun hb with ⟨call, rfl⟩ | ⟨group, offsets, rfl⟩
          · exact ha' call rfl
          · cases ha
        | produce | txn | wal | admin | cleanup | snapshot | boot | handler | answer => exact htgt
    cases a with
    | offsets step =>
      have hmoves : moves i w.shared.coord w'.shared.coord = [] := by
        refine EndsNothing.moves (.of_eq ?_)
        rcases hcase with he | he
        · exact run_transactions rfl (exec_ok he)
        · exact run_err_transactions (exec_err he)
      simp only [observe, hmoves, nil_append]
      cases step with
      | commit group offsets =>
        rw [insertions_of_not_insert hat (by simp), append_nil]
        exact hi.commit hlead hok hs hat
      | insert group offsets known => exact hi.insert hlead hok hs hat
    | txn step =>
      cases step with
      | resolve call =>
        simp only [observe, insertions_of_not_insert hat (by simp), append_nil]
        exact hi.resolve hlead hok hs hat
      | initProducer | addPartitions | offsetCommit | prepare | release | sweep =>
        exact hquiet rfl (by simp)
    | produce | wal | admin | cleanup | snapshot | boot | handler | answer =>
      exact hquiet rfl (by simp)

theorem inv_opened : Inv (opened, []) := by
  refine ⟨by simp [opened], ⟨?_, ?_⟩, by simp [opened]⟩
  · intro past later i t e staged group tp co h
    simp at h
  · intro past later i group tp request h
    simp at h

theorem stored_opened : Stored (opened, []) := by
  intro group tp request h
  simp [opened, Engine.opened] at h

section Runs

variable {p : EngineWorld × List Event}

theorem reach_inv (h : (system cfg).Reach (fun p l => consistent p.1 l = true) (opened, []) p) :
    Inv p ∧ Stored p :=
  h.invariant_observe (I := fun p => Inv p ∧ Stored p) ⟨inv_opened, stored_opened⟩
    fun hi hok hs => ⟨hi.1.step hok hs, hi.2.step hs⟩

/-! ## Offsets follow the prepared direction -/

/-- What a transaction that moved from PrepareCommit to Committed had staged was
inserted after the move. -/
def Applied (history : List Event) : Prop :=
  ∀ past later i t e staged group tp co,
    history = past ++ .moved i t e (some .prepareCommit) .committed staged :: later →
    ((group, tp), co) ∈ staged → .inserted i group tp (asCommit co) ∈ later

/-- **Staged offsets follow the prepared direction.**  Nothing reaches the group
offsets but what a client committed or a transaction that moved to Committed had
staged, and with no request in flight all of the latter has been applied. -/
theorem offsets_follow_direction
    (h : (system cfg).Reach (fun p l => consistent p.1 l = true) (opened, []) p) :
    Follows p ∧ Stored p ∧ (Quiescent p.1 → Applied p.2) := by
  obtain ⟨hi, hstored⟩ := reach_inv h
  refine ⟨hi.follows, hstored, fun hq past later i t e staged group tp co hsplit hmem => ?_⟩
  rcases hi.follows.committed past later i t e staged group tp co hsplit hmem with
    hin | ⟨todo, htodo, a, ha, -⟩
  · exact hin
  · exact absurd ⟨todo, mem_of_getElem? htodo, ha⟩ (hq.not_pending a)

end Runs

/-- A transaction that stages one offset and is ready to be ended. -/
def stagedRun : List EngineLabel :=
  let p : Topition := ⟨"p", 0⟩
  List.flatten [
    [.spawn (.createTopic ⟨"p", 1, 1, none⟩)], Schedule.rounds [p] 0 4,
    [Schedule.register "a"], Schedule.rounds [p] 1 3,
    [.spawn (.txnAddPartitions "a" 1 0 [p])], Schedule.rounds [p] 2 3,
    [.spawn (.txnOffsetCommit "a" 1 0 "g" [(p, ⟨7, none, none⟩)])], Schedule.rounds [p] 3 3,
    [.spawn (.txnEnd ⟨"a", 1, 0, true⟩)]]

/-- The group offsets hold offset 7 for the staged partition. -/
def holdsStaged (s : Engine) : Bool :=
  (s.groupOffsets[(("g", ⟨"p", 0⟩) : Group × Topition)]?).any (·.offset = 7)

theorem offsets_follow_direction_stagedRun : ∃ p,
    (system {}).Reach (fun p l => consistent p.1 l = true) (opened, []) p ∧
      holdsStaged p.1.shared ∧ Follows p ∧ Stored p ∧ (Quiescent p.1 → Applied p.2) := by
  exact (exists_reach (stagedRun ++ Schedule.rounds [⟨"p", 0⟩] 4 11)
    (by decide +kernel)).imp fun p h => ⟨h.1, h.2, offsets_follow_direction h.1⟩

/-! ### A retry that asks for the other direction -/

/-- No log write and no segment write fails. -/
def faultless : EngineLabel → Bool
  | .run _ c => c.fault.isNone
  | _ => true

/-- A transaction moved from PrepareCommit to Committed with something staged,
and nothing was ever inserted. -/
def dropped (history : List Event) : Bool :=
  (history.any fun
    | .moved _ _ _ (some .prepareCommit) .committed staged => !staged.isEmpty
    | _ => false) &&
  !(history.any fun
    | .inserted .. => true
    | _ => false)

theorem not_applied_of_dropped (h : dropped history = true) : ¬ Applied history := by
  intro happlied
  obtain ⟨hmoved, hnone⟩ := Bool.and_eq_true_iff.1 h
  obtain ⟨ev, hev, hmoved⟩ := List.any_eq_true.1 hmoved
  split at hmoved
  · next i t e staged =>
    obtain ⟨past, later, hsplit⟩ := append_of_mem hev
    cases staged with
    | nil => cases hmoved
    | cons entry staged =>
      obtain ⟨⟨group, tp⟩, co⟩ := entry
      have hin := happlied past later i t e _ group tp co hsplit mem_cons_self
      have hmem : .inserted i group tp (asCommit co) ∈ history := by
        rw [hsplit]
        exact mem_append_right _ (mem_cons_of_mem _ hin)
      have hany : (history.any fun
          | .inserted .. => true
          | _ => false) = true :=
        List.any_eq_true.2 ⟨_, hmem, rfl⟩
      rw [hany] at hnone
      cases hnone
  · cases hmoved

/-- The transaction is prepared for commit; before its own call resolves it, a
second call with `committed = false` does. -/
theorem opposite_retry_drops_offsets : ∃ p,
    (system {}).Reach (fun _ l => faultless l = true) (opened, []) p ∧ Quiescent p.1 ∧
      ¬ Applied p.2 := by
  exact (exists_reach (P := fun p => Quiescent p.1 ∧ dropped p.2)
    (stagedRun ++ Schedule.rounds [⟨"p", 0⟩] 4 1 ++ [.spawn (.txnEnd ⟨"a", 1, 0, false⟩)] ++
      Schedule.rounds [⟨"p", 0⟩] 5 5 ++ Schedule.rounds [⟨"p", 0⟩] 4 4) (by decide +kernel)).imp
    fun p h => ⟨h.1, h.2.1, not_applied_of_dropped h.2.2⟩

end Direction

end Tansu.Nvme
