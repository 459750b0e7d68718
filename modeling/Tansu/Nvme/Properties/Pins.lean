import Tansu.Nvme.Properties.Transactional

/-!
# Pins of the last stable offset

A transactional data batch pins the last stable offset below it when it is
appended; its range is recorded in a later section, and a `txn_end` releases
the pins of the ranges it collected.  Which pins can be left over once no
request is in flight?
-/

namespace Tansu.Nvme

open Std Tansu.Lib Machine List Option BTreeMap Produce Transactions CoordState System

theorem TxnDetail.isOpen_begin {d : TxnDetail} (h : d.state = some .begin) : d.isOpen := by
  simp [isOpen, isTerminal, h, TxnState.isTerminal]

namespace Pins

/-! ## Conditions on a run -/

/-- A data batch between its append and its record: its partition, its transaction and its
offset. -/
def flight? : Action → Option (Topition × OpenTxnKey × Int)
  | .produce (.acked call attributes ack) =>
    (Produce.pinKey call attributes).map fun key => (call.topition, key, ack.offset)
  | .produce (.record t call attributes ack) =>
    if attributes.control then none
    else some (call.topition, (t, call.batch.producerId, call.batch.producerEpoch), ack.offset)
  | _ => none

/-- The section releases a pin of the transaction, or belongs to a batch of it in flight. -/
def concerns (key : OpenTxnKey) : Action → Bool
  | .txn (.release key' _ _ _) => decide (key' = key)
  | a => (flight? a).any (·.2.1 = key)

def busy (w : EngineWorld) (key : OpenTxnKey) : Bool :=
  w.tasks.any (·.any (concerns key))

/-- At most one batch of the transaction is in flight on the partition. -/
def alone (w : EngineWorld) (tp : Topition) (key : OpenTxnKey) : Bool :=
  decide (w.tasks.flatten.countP
    (fun a => (flight? a).any fun f => f.1 = tp && f.2.1 = key) ≤ 1)

/-- A data batch is recorded while its transaction is open under its own
producer, and the first one on a partition while no other one is between its
append and its record there.  An end marker is recorded where its transaction
has a range, or has ended. -/
def recordsInOrder (w : EngineWorld) (t : String) (call : ProduceCall)
    (attributes : BatchAttribute) : Bool :=
  let pid := call.batch.producerId
  let e := call.batch.producerEpoch
  match w.shared.coord.detail? t e with
  | none => attributes.control
  | some d =>
    if attributes.control then d.isTerminal || (d.range? call.topition).isSome
    else decide (w.shared.coord.producer? t = some pid) && decide (d.state = some .begin) &&
      ((d.range? call.topition).isSome || alone w call.topition (t, pid, e))

/-- What is asked of the section that runs next. -/
def sectionOk (w : EngineWorld) (c : Choice) : Action → Bool
  | .wal _ | .produce (.acked ..) => c.fault.isNone
  | .produce (.record t call attributes _) => recordsInOrder w t call attributes
  | .txn (.addPartitions t pid e _) =>
    (w.shared.coord.detail? t e).all (·.state = some .begin) || !busy w (t, pid, e)
  | _ => true

/-- Transactional requests only, without I/O errors behind an append, in which
batches are recorded in order and a transaction starts again only after the
pins of its previous incarnation are gone and its batches are recorded. -/
def orderly (w : EngineWorld) : EngineLabel → Bool
  | .spawn r => r.transactional
  | .env _ => true
  | .run i c =>
    match w.tasks[i]? with
    | some (a :: _) => sectionOk w c a
    | _ => true

/-! ## The invariant -/

/-- Sections that cannot fail in such a run. -/
def safe : Action → Prop
  | .wal _ | .txn (.release ..) | .produce (.acked ..) | .produce (.record ..) => True
  | _ => False

/-- Sections that a pin may wait for. -/
def target : Action → Prop
  | .txn (.release ..) | .produce (.acked ..) | .produce (.record ..) => True
  | _ => False

/-- The pin belongs to an open transaction with a range that starts at it. -/
def Holder (coord : CoordState) (tp : Topition) (key : OpenTxnKey) (o : Int) : Prop :=
  coord.producer? key.1 = some key.2.1 ∧ ∃ d range, coord.detail? key.1 key.2.2 = some d ∧
    d.isOpen ∧ d.range? tp = some range ∧ range.offsetStart = o

/-- A pin is held, or its batch is in flight, or it is about to be released. -/
def Justified (w : EngineWorld) (tp : Topition) (key : OpenTxnKey) (o : Int) : Prop :=
  Holder w.shared.coord tp key o ∨ (∃ a, Pending w a ∧ flight? a = some (tp, key, o)) ∨
  ∃ aborting range, Pending w (.txn (.release key aborting tp range))

/-- The transaction has ended under its own producer. -/
def Ended (coord : CoordState) (key : OpenTxnKey) : Prop :=
  coord.producer? key.1 = some key.2.1 ∧
    ∃ d, coord.detail? key.1 key.2.2 = some d ∧ d.isTerminal

/-- What holds of the transactions and the pins together. -/
structure Agree (s : Engine) : Prop where
  epochs : s.coord.EpochInv
  idle : ∀ t e d tp, s.coord.detail? t e = some d → d.state = none → d.range? tp = none
  pinned : ∀ t pid e d tp range, s.coord.producer? t = some pid →
    s.coord.detail? t e = some d → d.isOpen → d.range? tp = some range →
    (s.openTxns tp)[(t, pid, e)]? = some range.offsetStart

structure Inv (w : EngineWorld) : Prop where
  kinds : ∀ a, Pending w a → a.transactional
  lead : ∀ todo ∈ w.tasks, Lead safe target todo
  agree : Agree w.shared
  releasing : ∀ key aborting tp range,
    Pending w (.txn (.release key aborting tp range)) → Ended w.shared.coord key
  pins : ∀ (tp : Topition) (key : OpenTxnKey) (o : Int), (w.shared.openTxns tp)[key]? = some o →
    Justified w tp key o
  /-- The pin below a batch in flight goes only with the end of its transaction. -/
  flying : ∀ a tp key o, Pending w a → flight? a = some (tp, key, o) →
    ((w.shared.openTxns tp)[key]?).isSome ∨ Ended w.shared.coord key

/-! ## Failures -/

variable {cfg : Config} {c : Choice} {w w' : EngineWorld} {s s' : Engine} {a : Action}
  {next rest : List Action} {i : Nat} {err : Error} {tp : Topition} {key : OpenTxnKey} {o : Int}
  {coord coord' : CoordState} {call : ProduceCall} {attributes : BatchAttribute} {aborting : Bool}
  {range : TxnProduceOffset} {t : String} {e pid timeout : Int}

theorem not_safe_of_err (hok : sectionOk w c a) (h : a.run cfg w.shared c = .err s' err) :
    ¬ safe a := by
  intro hsafe
  cases a with
  | produce step =>
    cases step with
    | marker | guard | check | append => exact hsafe
    | acked call attributes ack =>
      obtain ⟨-, hf⟩ := acked_err h
      simp [sectionOk, hf] at hok
    | record t call attributes ack =>
      obtain ⟨-, hc, d, hd, hb⟩ := record_err h
      simp [sectionOk, recordsInOrder, hd, hc, hb] at hok
  | txn step => cases step <;> first | exact hsafe | cases h
  | wal step =>
    obtain ⟨-, hf⟩ := wal_err h
    simp [sectionOk, hf] at hok
  | offsets | handler | answer | admin | cleanup | snapshot | boot => exact hsafe

theorem not_target_of_follows (h : a.follows) : ¬ target a := by
  cases a with
  | produce step => cases step <;> first | exact id | cases h
  | txn step => cases step <;> first | exact id | cases h
  | wal | offsets | handler | answer | admin | cleanup | snapshot | boot => exact id

theorem flight?_of_not_target (h : ¬ target a) : flight? a = none := by
  cases a with
  | produce step => cases step <;> first | rfl | exact absurd trivial h
  | txn | wal | offsets | handler | answer | admin | cleanup | snapshot | boot => rfl

theorem target_of_flight (h : flight? a = some (tp, key, o)) : target a := by
  by_contra ha
  rw [flight?_of_not_target ha] at h
  cases h

theorem concerns_of_flight (h : flight? a = some (tp, key, o)) : concerns key a = true := by
  cases a with
  | txn step => cases h
  | _ => simp [concerns, h]

/-- What a section puts in front of its task: pins wait only for safe sections. -/
theorem lead_next (ha : a.transactional) (h : a.run cfg s c = .ok s' next) :
    Lead safe target next ∧ (safe a → ∀ b ∈ next, safe b) := by
  have hother (hns : ¬ safe a) (ha : ∀ b, Leads s s' a b → ¬ target b) :
      Lead safe target next ∧ (safe a → ∀ b ∈ next, safe b) :=
    ⟨.of_not_target fun b hb => ha b (run_leads h b hb), fun hs => absurd hs hns⟩
  cases a with
  | produce step =>
    cases step with
    | marker | guard | check =>
      exact ⟨.of_not_target fun b hb => not_target_of_follows ((run_quiet rfl h).2.2 b hb), nofun⟩
    | append call attributes =>
      obtain ⟨-, ack, rfl, -⟩ := append_appended h
      exact ⟨.of_safe (by simp [safe]), nofun⟩
    | acked call attributes ack =>
      obtain ⟨-, -, -, rfl⟩ := acked_untouched h
      split
      · exact ⟨.of_safe (by simp), fun _ => by simp⟩
      · exact ⟨.of_safe (by simp [safe]), fun _ => by simp [safe]⟩
    | record t call attributes ack =>
      obtain ⟨rfl, -⟩ := record_ok h
      exact ⟨.of_safe (by simp), fun _ => by simp⟩
  | txn step =>
    cases step with
    | resolve call =>
      -- The log and the releases come first, the offsets after them.
      refine ⟨?_, nofun⟩
      obtain ⟨d, -, ⟨-, -, rfl⟩ | ⟨-, -, rfl⟩⟩ := resolve_ok h
      · exact .of_safe (by simp)
      · refine (Lead.of_safe fun b hb => ?_).append fun b hb => ?_
        · rcases mem_append.1 hb with hb | hb
          · obtain ⟨effect, -, await, rfl⟩ := mem_terminalRecords hb
            trivial
          · obtain ⟨effect, -, entry, -, rfl⟩ := mem_releases.1 hb
            trivial
        · obtain ⟨group, offsets, rfl⟩ := mem_offsetCommits hb
          exact id
    | release =>
      cases h
      exact ⟨.of_safe (by simp), fun _ => by simp⟩
    | initProducer | addPartitions | offsetCommit | prepare | sweep =>
      exact hother id fun b hl => by cases hl <;> exact id
  | wal step =>
    have hsafe : ∀ b ∈ next, safe b := fun b hb => by cases run_leads h b hb <;> trivial
    exact ⟨.of_safe hsafe, fun _ => hsafe⟩
  | offsets | handler | answer => exact hother id fun b hl => by cases hl <;> exact id
  | admin | cleanup | snapshot | boot => cases ha

/-! ## Pins across one section -/

theorem Holder.congr (ht : coord'.transactions = coord.transactions) (h : Holder coord tp key o) :
    Holder coord' tp key o := by
  simpa only [Holder, CoordState.producer?, CoordState.detail?, ht] using h

theorem Ended.congr (ht : coord'.transactions = coord.transactions) (h : Ended coord key) :
    Ended coord' key := by
  simpa only [Ended, CoordState.producer?, CoordState.detail?, ht] using h

theorem Agree.congr (h : Agree s) (hu : Untouched s s') : Agree s' := by
  refine ⟨h.epochs.congr hu.transactions, ?_, ?_⟩
  · intro t e d tp
    rw [hu.detail?]
    exact h.idle t e d tp
  · intro t pid e d tp range
    rw [hu.detail?, hu.producer?, hu.openTxns]
    exact h.pinned t pid e d tp range

/-- A justification survives the section that runs, unless it was that section. -/
theorem Justified.step (hj : Justified w tp key o) (hat : At w i a rest)
    (hholder : Holder w.shared.coord tp key o →
      Justified ⟨s', w.tasks.set i (next ++ rest)⟩ tp key o)
    (hflight : flight? a = some (tp, key, o) →
      Justified ⟨s', w.tasks.set i (next ++ rest)⟩ tp key o)
    (hrelease : ∀ aborting range, a = .txn (.release key aborting tp range) →
      Justified ⟨s', w.tasks.set i (next ++ rest)⟩ tp key o) :
    Justified ⟨s', w.tasks.set i (next ++ rest)⟩ tp key o := by
  rcases hj with hh | ⟨b, hp, hb⟩ | ⟨aborting, range, hp⟩
  · exact hholder hh
  · rcases pending_of_pending_ok (s := s') hat hp with rfl | hp
    · exact hflight hb
    · exact .inr (.inl ⟨b, hp, hb⟩)
  · rcases pending_of_pending_ok (s := s') hat hp with ha | hp
    · exact hrelease aborting range ha.symm
    · exact .inr (.inr ⟨aborting, range, hp⟩)

theorem Justified.other (hj : Justified w tp key o) (hat : At w i a rest) (ha : ¬ target a)
    (hholder : Holder w.shared.coord tp key o →
      Justified ⟨s', w.tasks.set i (next ++ rest)⟩ tp key o) :
    Justified ⟨s', w.tasks.set i (next ++ rest)⟩ tp key o := by
  refine hj.step hat hholder (fun hf => absurd (target_of_flight hf) ha) ?_
  · rintro aborting range rfl
    exact absurd trivial ha

/-- What a section that succeeds has to establish. -/
structure Kept (w : EngineWorld) (i : Nat) (a : Action) (rest : List Action) (s' : Engine)
    (next : List Action) : Prop where
  agree : Agree s'
  ended : ∀ key, busy w key → Ended w.shared.coord key → Ended s'.coord key
  releases : ∀ key aborting tp range, .txn (.release key aborting tp range) ∈ next →
    Ended s'.coord key
  pins : ∀ (tp : Topition) (key : OpenTxnKey) (o : Int), (s'.openTxns tp)[key]? = some o →
    Justified ⟨s', w.tasks.set i (next ++ rest)⟩ tp key o
  unpinned : ∀ (tp : Topition) (key : OpenTxnKey), ((w.shared.openTxns tp)[key]?).isSome →
    ((s'.openTxns tp)[key]?).isSome ∨ Ended s'.coord key
  /-- A batch that was in flight before, or has been appended above a pin. -/
  flights : ∀ b ∈ next, ∀ tp key o, flight? b = some (tp, key, o) →
    flight? a = some (tp, key, o) ∨ ((s'.openTxns tp)[key]?).isSome

theorem Kept.of_untouched (hi : Inv w) (hat : At w i a rest) (hu : Untouched w.shared s')
    (ha : ¬ target a) (hnext : ∀ b ∈ next, ¬ target b) : Kept w i a rest s' next where
  agree := hi.agree.congr hu
  ended _ _ := Ended.congr hu.transactions
  releases _ _ _ _ hb := absurd trivial (hnext _ hb)
  pins tp key o hpin := by
    rw [hu.openTxns] at hpin
    exact (hi.pins tp key o hpin).other hat ha fun hh => .inl (hh.congr hu.transactions)
  unpinned tp key hpin := .inl (by rwa [hu.openTxns])
  flights b hb _ _ _ hf := absurd (target_of_flight hf) (hnext b hb)

theorem Kept.append (hi : Inv w) (hat : At w i (.produce (.append call attributes)) rest)
    (h : Produce.append cfg w.shared c call attributes = .ok s' next) :
    Kept w i (.produce (.append call attributes)) rest s' next := by
  obtain ⟨happ, ack, rfl, hoff, -⟩ := append_appended h
  have ht : s'.coord.transactions = w.shared.coord.transactions := by rw [happ.coord]
  have hpinned (tp : Topition) (key : OpenTxnKey)
      (hpin : ((w.shared.openTxns tp)[key]?).isSome) : ((s'.openTxns tp)[key]?).isSome := by
    rw [happ.openTxns]
    split
    · split
      · exact hpin
      · rw [getElem?_insertIfNew_eq]
        split
        · rfl
        · exact hpin
    · exact hpin
  refine ⟨⟨hi.agree.epochs.congr ht, ?_, ?_⟩, fun _ _ => Ended.congr ht, by simp, ?_,
    fun tp key hpin => .inl (hpinned tp key hpin), ?_⟩
  · rw [happ.coord]
    exact hi.agree.idle
  · intro t pid e d tp range hp hd ho hr
    rw [happ.coord] at hp hd
    have hpin := hi.agree.pinned t pid e d tp range hp hd ho hr
    rw [happ.openTxns]
    split
    · split
      · exact hpin
      · rw [getElem?_insertIfNew_eq, hpin]
        split <;> rfl
    · exact hpin
  · intro tp key o hpin
    have hold (hpin : (w.shared.openTxns tp)[key]? = some o) :
        Justified ⟨s', w.tasks.set i ([.produce (.acked call attributes ack)] ++ rest)⟩ tp key o :=
      (hi.pins tp key o hpin).other hat id fun hh => .inl (hh.congr ht)
    rw [happ.openTxns] at hpin
    split at hpin
    · next htp =>
      split at hpin
      · exact hold hpin
      · next key' hkey =>
        rw [getElem?_insertIfNew_eq] at hpin
        split at hpin
        · next heq =>
          subst heq
          cases hpin₀ : (w.shared.openTxns tp)[key']? with
          | none =>
            -- The batch that pins the partition.
            rw [hpin₀] at hpin
            have ho : ack.offset = o := by
              rw [hoff, htp]
              exact Option.some.inj hpin
            refine .inr (.inl ⟨_, pending_of_mem_next hat (mem_singleton_self _), ?_⟩)
            simp [flight?, hkey, htp, ho]
          | some o₀ =>
            rw [hpin₀] at hpin
            exact hold (hpin₀.trans hpin)
        · exact hold hpin
    · exact hold hpin
  · intro b hb tp key o hf
    cases mem_singleton.1 hb
    obtain ⟨key, hkey, heq⟩ := map_eq_some_iff.1 hf
    cases heq
    refine .inr ?_
    rw [happ.openTxns, if_pos rfl, hkey, getElem?_insertIfNew_eq, if_pos rfl]
    rfl

/-- A batch that pins is transactional, so that its record is next. -/
theorem flight?_acked {ack : Ack}
    (hf : flight? (.produce (.acked call attributes ack)) = some (tp, key, o)) :
    Produce.recordedIn call attributes = some key.1 ∧
      flight? (.produce (.record key.1 call attributes ack)) = some (tp, key, o) := by
  obtain ⟨key', hkey, heq⟩ := map_eq_some_iff.1 hf
  cases heq
  unfold Produce.pinKey at hkey
  split at hkey
  · next t ht =>
    split at hkey
    · next hb =>
      cases hkey
      obtain ⟨htxn, hdata⟩ := Bool.and_eq_true_iff.1 hb
      exact ⟨by simp [Produce.recordedIn, htxn, ht], by simpa [flight?] using hdata⟩
    · cases hkey
  · cases hkey

theorem flight?_recorded {ack : Ack} (hrec : Produce.recordedIn call attributes = some t)
    (hf : flight? (.produce (.record t call attributes ack)) = some (tp, key, o)) :
    flight? (.produce (.acked call attributes ack)) = some (tp, key, o) := by
  unfold Produce.recordedIn at hrec
  split at hrec
  · next htxn =>
    simp only [flight?] at hf
    split at hf
    · cases hf
    · next hdata =>
      cases hf
      simp [flight?, Produce.pinKey, hrec, htxn, hdata]
  · cases hrec

theorem Kept.acked {ack : Ack} (hi : Inv w)
    (hat : At w i (.produce (.acked call attributes ack)) rest)
    (h : Produce.acked w.shared c call attributes ack = .ok s' next) :
    Kept w i (.produce (.acked call attributes ack)) rest s' next := by
  obtain ⟨-, hu, -, rfl⟩ := acked_untouched h
  refine ⟨hi.agree.congr hu, fun _ _ => Ended.congr hu.transactions, ?_, ?_,
    fun tp key hpin => .inl (by rwa [hu.openTxns]), ?_⟩
  · intro key aborting tp range hb
    split at hb <;> simp at hb
  · intro tp key o hpin
    rw [hu.openTxns] at hpin
    refine (hi.pins tp key o hpin).step hat (fun hh => .inl (hh.congr hu.transactions))
      (fun hf => ?_) fun _ _ heq => (by cases heq)
    obtain ⟨hrec, hf'⟩ := flight?_acked hf
    refine .inr (.inl ⟨_, pending_of_mem_next hat ?_, hf'⟩)
    rw [hrec]
    exact mem_singleton_self _
  · intro b hb tp key o hf
    split at hb
    · cases hb
    · next t hrec =>
      cases mem_singleton.1 hb
      exact .inl (flight?_recorded hrec hf)

theorem Kept.release (hi : Inv w) (hat : At w i (.txn (.release key aborting tp range)) rest) :
    Kept w i (.txn (.release key aborting tp range)) rest { w.shared with
      partitions := w.shared.partitions.modify tp (Transactions.unpin key aborting range) } [] := by
  have hpins (tp' : Topition) : (Engine.openTxns { w.shared with
      partitions := w.shared.partitions.modify tp (Transactions.unpin key aborting range) } tp') =
        if tp = tp' then (w.shared.openTxns tp').erase key else w.shared.openTxns tp' := by
    simp only [Engine.openTxns, BTreeMap.getElem?_modify_eq]
    split
    · cases w.shared.partitions[tp']? with
      | none => simp
      | some inner => rfl
    · rfl
  have hother (tp' : Topition) (key' : OpenTxnKey) (o : Int)
      (hpin : (w.shared.openTxns tp')[key']? = some o) (hne : tp = tp' → key ≠ key') :
      Justified ⟨{ w.shared with partitions :=
        w.shared.partitions.modify tp (Transactions.unpin key aborting range) },
        w.tasks.set i ([] ++ rest)⟩ tp' key' o := by
    refine (hi.pins tp' key' o hpin).step hat .inl (fun hf => (by cases hf)) ?_
    intro _ _ heq
    cases heq
    exact absurd rfl (hne rfl)
  have hended := hi.releasing key aborting tp range hat.pending
  obtain ⟨hprod, d₀, hd₀, hterm⟩ := hended
  refine ⟨⟨hi.agree.epochs, hi.agree.idle, ?_⟩, fun _ _ h => h, by simp, ?_, ?_, by simp⟩
  · intro t pid e d tp' range' hp hd ho hr
    have hpin := hi.agree.pinned t pid e d tp' range' hp hd ho hr
    rw [hpins]
    split
    · rw [getElem?_erase_eq, if_neg, hpin]
      -- The pin that goes belongs to a transaction that has ended.
      rintro rfl
      rw [hd] at hd₀
      cases hd₀
      simp [TxnDetail.isOpen, hterm] at ho
    · exact hpin
  · intro tp' key' o hpin
    rw [hpins] at hpin
    split at hpin
    · rw [getElem?_erase_eq] at hpin
      split at hpin
      · cases hpin
      · next hne =>
        exact hother tp' key' o hpin fun _ => hne
    · next hne => exact hother tp' key' o hpin fun htp => absurd htp hne
  · intro tp' key' hpin
    rw [hpins]
    split
    · rw [getElem?_erase_eq]
      split
      · next heq =>
        subst heq
        exact .inr ⟨hprod, d₀, hd₀, hterm⟩
      · exact .inl hpin
    · exact .inl hpin

/-- A section that changes one detail: open transactions stay open with their
ranges, and one that opens starts without ranges. -/
theorem Kept.modifyDetail {f : TxnDetail → TxnDetail} (hi : Inv w) (hat : At w i a rest)
    (ha : ¬ target a) (hnext : ∀ b ∈ next, ¬ target b)
    (hs : s' = { w.shared with coord := w.shared.coord.modifyDetail t e f })
    (hepochs : s'.coord.EpochInv)
    (hidle : ∀ d tp, w.shared.coord.detail? t e = some d → (f d).state = none →
      (f d).range? tp = none) (hopen : ∀ d, w.shared.coord.detail? t e = some d → d.isOpen →
      (f d).isOpen ∧ ∀ tp, (f d).range? tp = d.range? tp)
    (hstart : ∀ d tp, w.shared.coord.detail? t e = some d → ¬ d.isOpen → (f d).isOpen →
      (f d).range? tp = none)
    (hended : ∀ d pid, w.shared.coord.detail? t e = some d → d.isTerminal →
      w.shared.coord.producer? t = some pid → busy w (t, pid, e) → (f d).isTerminal) :
    Kept w i a rest s' next := by
  subst hs
  refine ⟨⟨hepochs, ?_, ?_⟩, ?_, fun _ _ _ _ hb => absurd trivial (hnext _ hb), ?_,
    fun _ _ => .inl, fun b hb _ _ _ hf => absurd (target_of_flight hf) (hnext b hb)⟩
  · intro t' e' d tp hd hst
    rw [detail?_modifyDetail] at hd
    split at hd
    · next heq =>
      obtain ⟨rfl, rfl⟩ := heq
      obtain ⟨d₀, hd₀, rfl⟩ := map_eq_some_iff.1 hd
      exact hidle d₀ tp hd₀ hst
    · exact hi.agree.idle t' e' d tp hd hst
  · intro t' pid e' d tp range hp hd ho hr
    rw [producer?_modifyDetail] at hp
    rw [detail?_modifyDetail] at hd
    split at hd
    · next heq =>
      obtain ⟨rfl, rfl⟩ := heq
      obtain ⟨d₀, hd₀, rfl⟩ := map_eq_some_iff.1 hd
      by_cases ho₀ : d₀.isOpen
      · rw [(hopen d₀ hd₀ ho₀).2] at hr
        exact hi.agree.pinned _ pid _ d₀ tp range hp hd₀ ho₀ hr
      · rw [hstart d₀ tp hd₀ ho₀ ho] at hr
        cases hr
    · exact hi.agree.pinned t' pid e' d tp range hp hd ho hr
  · rintro ⟨t', pid, e'⟩ hbusy ⟨hp, d, hd, hterm⟩
    refine ⟨by rw [producer?_modifyDetail]; exact hp, ?_⟩
    simp only [detail?_modifyDetail] at hd ⊢
    split
    · next heq =>
      obtain ⟨rfl, rfl⟩ := heq
      exact ⟨f d, by rw [hd]; rfl, hended d pid hd hterm hp hbusy⟩
    · exact ⟨d, hd, hterm⟩
  · intro tp key o hpin
    refine (hi.pins tp key o hpin).other hat ha fun hh => .inl ?_
    obtain ⟨hp, d, range, hd, ho, hr, hs⟩ := hh
    refine ⟨by rw [producer?_modifyDetail]; exact hp, ?_⟩
    simp only [detail?_modifyDetail]
    split
    · next heq =>
      obtain ⟨rfl, rfl⟩ := heq
      obtain ⟨ho', hr'⟩ := hopen d hd ho
      exact ⟨f d, range, by rw [hd]; rfl, ho', by rw [hr']; exact hr, hs⟩
    · exact ⟨d, range, hd, ho, hr, hs⟩

/-! ### Recording a batch -/

section Record

variable {t : String} {call : ProduceCall} {attributes : BatchAttribute} {ack : Ack}
  {d : TxnDetail} {e lo hi : Int} {coord : CoordState} {tp' : Topition}

/-- A range that is there keeps its start. -/
theorem range?_extend_of_some {range : TxnProduceOffset} (hr : d.range? tp = some range)
    (tp' : Topition) (lo hi : Int) :
    ∃ range', (d.extend tp' lo hi).range? tp = some range' ∧
      range'.offsetStart = range.offsetStart := by
  rw [TxnDetail.range?_extend]
  split
  · exact ⟨{ range with offsetEnd := max range.offsetEnd hi }, by rw [hr], rfl⟩
  · exact ⟨range, hr, rfl⟩

theorem Holder.extend (h : Holder coord tp key o) :
    Holder (coord.modifyDetail t e (·.extend tp' lo hi)) tp key o := by
  obtain ⟨hp, d, range, hd, ho, hr, hs⟩ := h
  refine ⟨by rw [producer?_modifyDetail]; exact hp, ?_⟩
  rw [detail?_modifyDetail, hd]
  split
  · obtain ⟨range', hr', hs'⟩ := range?_extend_of_some hr tp' lo hi
    exact ⟨_, range', rfl, ho, hr', hs'.trans hs⟩
  · exact ⟨d, range, rfl, ho, hr, hs⟩

theorem Ended.extend (h : Ended coord key) :
    Ended (coord.modifyDetail t e (·.extend tp' lo hi)) key := by
  obtain ⟨hp, d, hd, hterm⟩ := h
  refine ⟨by rw [producer?_modifyDetail]; exact hp, ?_⟩
  rw [detail?_modifyDetail, hd]
  split
  · exact ⟨d.extend tp' lo hi, rfl, hterm⟩
  · exact ⟨d, rfl, hterm⟩

/-- A range is new only in a transaction that has ended, or below its own pin. -/
theorem Agree.extend (h : Agree s) (hd : s.coord.detail? t e = some d)
    (hnew : d.range? tp = none → d.isTerminal = true ∨
      (d.state = some .begin ∧
        ∃ pid, s.coord.producer? t = some pid ∧ (s.openTxns tp)[(t, pid, e)]? = some lo)) :
    Agree { s with coord := s.coord.modifyDetail t e (·.extend tp lo hi) } := by
  have hstate {d' : TxnDetail} : (d'.extend tp lo hi).state = d'.state := rfl
  refine ⟨h.epochs.modifyDetail fun d hd hneg => h.epochs.wrapped t e d hd hneg, ?_, ?_⟩
  · intro t' e' d' tp' hd' hst
    rw [detail?_modifyDetail] at hd'
    split at hd'
    · next heq =>
      obtain ⟨rfl, rfl⟩ := heq
      rw [hd] at hd'
      cases hd'
      rw [hstate] at hst
      rcases hnew (h.idle _ _ d tp hd hst) with hterm | ⟨hb, -⟩
      · simp [TxnDetail.isTerminal, hst] at hterm
      · rw [hst] at hb
        cases hb
    · exact h.idle t' e' d' tp' hd' hst
  · intro t' pid e' d' tp' range hp hd' ho hr
    rw [producer?_modifyDetail] at hp
    rw [detail?_modifyDetail] at hd'
    split at hd'
    · next heq =>
      obtain ⟨rfl, rfl⟩ := heq
      rw [hd] at hd'
      cases hd'
      have ho : d.isOpen := ho
      rw [TxnDetail.range?_extend] at hr
      split at hr
      · next htp =>
        subst htp
        cases hr₀ : d.range? tp with
        | some range₀ =>
          rw [hr₀] at hr
          cases hr
          exact h.pinned t pid e d tp range₀ hp hd ho hr₀
        | none =>
          rw [hr₀] at hr
          cases hr
          rcases hnew hr₀ with hterm | ⟨-, pid', hp', hpin⟩
          · simp [TxnDetail.isOpen, hterm] at ho
          · rw [hp] at hp'
            cases hp'
            exact hpin
      · exact h.pinned t pid e d tp' range hp hd ho hr
    · exact h.pinned t' pid e' d' tp' range hp hd' ho hr

theorem not_ended_of_begin (hd : coord.detail? t e = some d) (hb : d.state = some .begin) :
    ¬ Ended coord (t, pid, e) := by
  rintro ⟨-, d', hd', hterm⟩
  rw [hd] at hd'
  cases hd'
  simp [TxnDetail.isTerminal, hb, TxnState.isTerminal] at hterm

theorem eq_of_alone {a b : Action} {o o' : Int} (h : alone w tp key) (ha : Pending w a)
    (hb : Pending w b) (hfa : flight? a = some (tp, key, o))
    (hfb : flight? b = some (tp, key, o')) : a = b := by
  have hmem {c : Action} {o : Int} (hc : Pending w c) (hf : flight? c = some (tp, key, o)) :
      c ∈ w.tasks.flatten.filter
        (fun a => (flight? a).any fun f => f.1 = tp && f.2.1 = key) := by
    obtain ⟨todo, htodo, hc⟩ := hc
    exact mem_filter.2 ⟨mem_flatten.2 ⟨todo, htodo, hc⟩, by simp [hf]⟩
  have hlen := of_decide_eq_true h
  rw [countP_eq_length_filter] at hlen
  obtain ⟨c, hc⟩ := length_eq_one_iff.1 (hlen.antisymm (length_pos_of_mem (hmem ha hfa)))
  have ha' := hmem ha hfa
  have hb' := hmem hb hfb
  rw [hc, mem_singleton] at ha' hb'
  exact ha'.trans hb'.symm

/-- **The first batch recorded on a partition is the one that pinned it**: the pin is there
because the transaction has not ended, and no other batch can have set it. -/
theorem pinned_by_alone (hi : Inv w)
    (hpend : Pending w (.produce (.record t call attributes ack)))
    (hdata : attributes.control = false)
    (hd : w.shared.coord.detail? t call.batch.producerEpoch = some d)
    (hb : d.state = some .begin) (hr : d.range? call.topition = none)
    (halone : alone w call.topition (t, call.batch.producerId, call.batch.producerEpoch)) :
    (w.shared.openTxns call.topition)[(t, call.batch.producerId, call.batch.producerEpoch)]? =
      some ack.offset := by
  have hf : flight? (.produce (.record t call attributes ack)) = some (call.topition,
      (t, call.batch.producerId, call.batch.producerEpoch), ack.offset) := by
    simp [flight?, hdata]
  have hopen : ¬ Ended w.shared.coord (t, call.batch.producerId, call.batch.producerEpoch) :=
    not_ended_of_begin hd hb
  obtain ⟨o, hpin⟩ := isSome_iff_exists.1 ((hi.flying _ _ _ _ hpend hf).resolve_right hopen)
  rcases hi.pins _ _ _ hpin with ⟨-, d', range, hd', -, hr', -⟩ | ⟨b, hpend', hf'⟩ |
    ⟨aborting, range, hrelease⟩
  · rw [hd] at hd'
    cases hd'
    rw [hr] at hr'
    cases hr'
  · cases eq_of_alone halone hpend hpend' hf hf'
    rw [hf] at hf'
    cases hf'
    exact hpin
  · exact absurd (hi.releasing _ _ _ _ hrelease) hopen

/-- What `recordsInOrder` says of a record that changes a range. -/
theorem recordsInOrder_new (hi : Inv w)
    (hpend : Pending w (.produce (.record t call attributes ack)))
    (hok : recordsInOrder w t call attributes)
    (hd : w.shared.coord.detail? t call.batch.producerEpoch = some d)
    (hr : d.range? call.topition = none) : d.isTerminal = true ∨
      (d.state = some .begin ∧ ∃ pid, w.shared.coord.producer? t = some pid ∧
        (w.shared.openTxns call.topition)[(t, pid, call.batch.producerEpoch)]? =
          some ack.offset) := by
  simp only [recordsInOrder, hd, hr, isSome_none, Bool.or_false, Bool.false_or] at hok
  split at hok
  · exact .inl hok
  · next hdata =>
    simp only [Bool.and_eq_true, decide_eq_true_eq] at hok
    obtain ⟨⟨hp, hb⟩, halone⟩ := hok
    exact .inr ⟨hb, _, hp, pinned_by_alone hi hpend (by simpa using hdata) hd hb hr halone⟩

theorem recordsInOrder_data (hok : recordsInOrder w t call attributes)
    (hc : attributes.control = false) : w.shared.coord.producer? t = some call.batch.producerId ∧
      ∃ d, w.shared.coord.detail? t call.batch.producerEpoch = some d ∧
        d.state = some .begin := by
  unfold recordsInOrder at hok
  simp only [hc] at hok
  split at hok
  · cases hok
  · next d hd =>
    simp only [Bool.false_eq_true, if_false, Bool.and_eq_true, decide_eq_true_eq] at hok
    exact ⟨hok.1.1, d, hd, hok.1.2⟩

/-- The record makes the batch's own pin held. -/
theorem Holder.recorded (h : Agree w.shared) (hok : recordsInOrder w t call attributes)
    (hc : attributes.control = false)
    (hpin : (w.shared.openTxns call.topition)[(t, call.batch.producerId,
      call.batch.producerEpoch)]? = some ack.offset) :
    Holder (w.shared.coord.modifyDetail t call.batch.producerEpoch
        (·.extend call.topition ack.offset ack.offsetEnd))
      call.topition (t, call.batch.producerId, call.batch.producerEpoch) ack.offset := by
  obtain ⟨hp, d, hd, hb⟩ := recordsInOrder_data hok hc
  have ho : d.isOpen := TxnDetail.isOpen_begin hb
  refine ⟨by rw [producer?_modifyDetail]; exact hp,
    d.extend call.topition ack.offset ack.offsetEnd, ?_⟩
  have hd' : (w.shared.coord.modifyDetail t call.batch.producerEpoch
      (·.extend call.topition ack.offset ack.offsetEnd)).detail? t call.batch.producerEpoch =
        some (d.extend call.topition ack.offset ack.offsetEnd) := by
    simp [detail?_modifyDetail, hd]
  cases hr : d.range? call.topition with
  | some range =>
    have hpin' := h.pinned t _ _ d _ range hp hd ho hr
    rw [hpin] at hpin'
    refine ⟨{ range with offsetEnd := max range.offsetEnd ack.offsetEnd }, hd', ho, ?_,
      (Option.some.inj hpin').symm⟩
    rw [TxnDetail.range?_extend, if_pos rfl, hr]
  | none =>
    refine ⟨⟨ack.offset, ack.offsetEnd⟩, hd', ho, ?_, rfl⟩
    rw [TxnDetail.range?_extend, if_pos rfl, hr]

theorem Kept.record (hi : Inv w) (hat : At w i (.produce (.record t call attributes ack)) rest)
    (hok : recordsInOrder w t call attributes)
    (h : Produce.record w.shared t call attributes ack = .ok s' next) :
    Kept w i (.produce (.record t call attributes ack)) rest s' next := by
  obtain ⟨rfl, hcase⟩ := record_ok h
  -- A pin that waits for this record is the batch's own.
  have hpins (hopenTxns : ∀ tp, s'.openTxns tp = w.shared.openTxns tp)
      (hholder : ∀ tp key o, Holder w.shared.coord tp key o → Holder s'.coord tp key o)
      (hown : attributes.control = false →
        (w.shared.openTxns call.topition)[(t, call.batch.producerId, call.batch.producerEpoch)]? =
          some ack.offset → Holder s'.coord call.topition
            (t, call.batch.producerId, call.batch.producerEpoch) ack.offset)
      (tp : Topition) (key : OpenTxnKey) (o : Int) (hpin : (s'.openTxns tp)[key]? = some o) :
      Justified ⟨s', w.tasks.set i ([] ++ rest)⟩ tp key o := by
    rw [hopenTxns] at hpin
    refine (hi.pins tp key o hpin).step hat (fun hh => .inl (hholder tp key o hh)) (fun hf => ?_)
      fun _ _ heq => (by cases heq)
    simp only [flight?] at hf
    split at hf
    · cases hf
    · next hdata =>
      cases hf
      exact .inl (hown (by simpa using hdata) hpin)
  rcases hcase with ⟨hnone, rfl⟩ | ⟨d, hd, -, rfl⟩
  · refine ⟨hi.agree, fun _ _ h => h, by simp, hpins (fun _ => rfl) (fun _ _ _ h => h)
      fun hc _ => ?_, fun _ _ => .inl, by simp⟩
    obtain ⟨-, d, hd, -⟩ := recordsInOrder_data hok hc
    rw [hnone] at hd
    cases hd
  · exact ⟨hi.agree.extend hd (recordsInOrder_new hi hat.pending hok hd),
      fun _ _ => Ended.extend, by simp, hpins (fun _ => rfl) (fun _ _ _ => Holder.extend)
        (Holder.recorded hi.agree hok), fun _ _ => .inl, by simp⟩

end Record

/-! ### Registration, epochs and resolution -/

theorem Kept.allocate (hi : Inv w) (hat : At w i a rest) (ha : ¬ target a)
    (hnext : ∀ b ∈ next, ¬ target b) (hnew : w.shared.coord.transactions[t]? = none) :
    Kept w i a rest { w.shared with
      coord := w.shared.coord.allocate pid (some t) timeout } next := by
  have hold {t' : String} {e : Int} {d : TxnDetail}
      (hd : w.shared.coord.detail? t' e = some d) : t ≠ t' := by
    rintro rfl
    simp [CoordState.detail?, hnew] at hd
  refine ⟨⟨hi.agree.epochs.allocate, ?_, ?_⟩, ?_, fun _ _ _ _ hb => absurd trivial (hnext _ hb), ?_,
    fun _ _ => .inl, fun b hb _ _ _ hf => absurd (target_of_flight hf) (hnext b hb)⟩
  · intro t' e d tp hd hst
    rw [detail?_allocate] at hd
    split at hd
    · split at hd
      · cases hd
        simp [TxnDetail.range?]
      · cases hd
    · exact hi.agree.idle t' e d tp hd hst
  · intro t' pid' e d tp range hp hd ho hr
    rw [detail?_allocate] at hd
    rw [producer?_allocate] at hp
    split at hd
    · split at hd
      · cases hd
        cases ho
      · cases hd
    · next hne =>
      rw [if_neg hne] at hp
      exact hi.agree.pinned t' pid' e d tp range hp hd ho hr
  · rintro key - ⟨hp, d, hd, hterm⟩
    refine ⟨?_, d, ?_, hterm⟩
    · rw [producer?_allocate, if_neg (hold hd), hp]
    · rw [detail?_allocate, if_neg (hold hd), hd]
  · intro tp key o hpin
    refine (hi.pins tp key o hpin).other hat ha fun hh => .inl ?_
    obtain ⟨hp, d, range, hd, hrest⟩ := hh
    refine ⟨?_, d, range, ?_, hrest⟩
    · rw [producer?_allocate, if_neg (hold hd), hp]
    · rw [detail?_allocate, if_neg (hold hd), hd]

/-- The next epoch: nothing depends on the detail it replaces, if there is one. -/
theorem Kept.bumpEpoch (hi : Inv w) (hat : At w i a rest) (ha : ¬ target a)
    (hnext : ∀ b ∈ next, ¬ target b) (hp : w.shared.coord.producer? t = some pid)
    (hc : w.shared.coord.currentEpoch? t = some e) :
    Kept w i a rest { w.shared with
      coord := w.shared.coord.bumpEpoch t pid (wrapI16 (e + 1)) timeout } next := by
  have hsome : (w.shared.coord.producer? t).isSome := by simp [hp]
  have hold {t' : String} {e' : Int} {d : TxnDetail} {state : TxnState}
      (hd : w.shared.coord.detail? t' e' = some d) (hst : d.state = some state) :
      ¬ (t = t' ∧ wrapI16 (e + 1) = e') := by
    rintro ⟨rfl, rfl⟩
    rw [hi.agree.epochs.fresh hc hd] at hst
    cases hst
  refine ⟨⟨hi.agree.epochs.bumpEpoch hsome hc, ?_, ?_⟩, ?_,
    fun _ _ _ _ hb => absurd trivial (hnext _ hb), ?_, fun _ _ => .inl,
    fun b hb _ _ _ hf => absurd (target_of_flight hf) (hnext b hb)⟩
  · intro t' e' d tp hd hst
    rw [detail?_bumpEpoch hsome] at hd
    split at hd
    · cases hd
      simp [TxnDetail.range?]
    · exact hi.agree.idle t' e' d tp hd hst
  · intro t' pid' e' d tp range hp' hd ho hr
    rw [detail?_bumpEpoch hsome] at hd
    rw [producer?_bumpEpoch] at hp'
    split at hd
    · cases hd
      cases ho
    · exact hi.agree.pinned t' pid' e' d tp range hp' hd ho hr
  · rintro key - ⟨hp', d, hd, hterm⟩
    obtain ⟨state, hst, -⟩ := Option.any_eq_true _ _ |>.1 hterm
    refine ⟨by rw [producer?_bumpEpoch, hp'], d, ?_, hterm⟩
    rw [detail?_bumpEpoch hsome, if_neg (hold hd hst), hd]
  · intro tp key o hpin
    refine (hi.pins tp key o hpin).other hat ha fun hh => .inl ?_
    obtain ⟨hp', d, range, hd, ho, hrest⟩ := hh
    obtain ⟨state, hst⟩ := isSome_iff_exists.1 (Bool.and_eq_true_iff.1 ho).1
    refine ⟨by rw [producer?_bumpEpoch, hp'], d, range, ?_, ho, hrest⟩
    rw [detail?_bumpEpoch hsome, if_neg (hold hd hst), hd]

/-- Resolution: the pins of what it ends wait for their release. -/
theorem Kept.resolve {call : TxnEnd} {d : TxnDetail} (hi : Inv w)
    (hat : At w i (.txn (.resolve call)) rest)
    (hd : w.shared.coord.txnDetail call.transactionId call.producerId call.producerEpoch = .ok d) :
    Kept w i (.txn (.resolve call)) rest { w.shared with coord := (w.shared.coord.resolve call).1 }
      (Transactions.terminalRecords (w.shared.coord.resolve call).2 ++
        (w.shared.coord.resolve call).2.flatMap Transactions.releases ++
          Transactions.offsetCommits (w.shared.coord.resolve call).2) := by
  have hr := w.shared.coord.resolve_resolved call
  have hprod {ref : TxnRef} := @producer?_of_mem_refs w.shared.coord ref call d hd
  have hclosed {d₀ : TxnDetail} {state : TxnState}
      (h : CoordState.terminal d₀.state = some state) : (d₀.finish state).isTerminal :=
    isTerminal_of_terminal h
  refine ⟨⟨hi.agree.epochs.resolved hr (hi.agree.epochs.refs_nonneg hd), ?_, ?_⟩, ?_, ?_, ?_,
    fun _ _ => .inl, ?_⟩
  · intro t e d' tp hd' hst
    rcases hr.detail_cases hd' with hd' | ⟨_, _, _, _, -, -, -, -, rfl, -⟩
    · exact hi.agree.idle t e d' tp hd' hst
    · cases hst
  · intro t pid e d' tp range hp hd' ho hrange
    rw [hr.producer?] at hp
    rcases hr.detail_cases hd' with hd' | ⟨_, _, _, _, -, -, -, hs, rfl, -⟩
    · exact hi.agree.pinned t pid e d' tp range hp hd' ho hrange
    · simp [TxnDetail.isOpen, hclosed hs] at ho
  · rintro key - ⟨hp, d', hd', hterm⟩
    refine ⟨by rw [hr.producer?, hp], d', ?_, hterm⟩
    rcases hr.detail key.1 key.2.2 with heq | ⟨_, _, d₀, _, -, -, hd₀, hs, -⟩
    · rw [heq, hd']
    · rw [hd'] at hd₀
      cases hd₀
      rw [terminal_of_isTerminal hterm] at hs
      cases hs
  · intro key aborting tp range hb
    rcases mem_resolution hb with ⟨_, -, _, heq⟩ | ⟨effect, heff, entry, -, heq⟩ | hb
    · cases heq
    · obtain ⟨ref, href, d₀, state, rfl, hd₀, hs, hfin⟩ := hr.effect effect heff
      cases heq
      exact ⟨(hr.producer? _).trans (hprod href), _, hfin, hclosed hs⟩
    · obtain ⟨_, _, heq⟩ := mem_offsetCommits hb
      cases heq
  · -- a pin loses its holder only to a release that is pending from here on
    intro tp key o hpin
    refine (hi.pins tp key o hpin).other hat id fun hh => ?_
    obtain ⟨hp, d', range, hd', ho, hrange, hstart⟩ := hh
    rcases hr.detail key.1 key.2.2 with heq | ⟨ref, href, d₀, state, ht, he, hd₀, hs, -, heff⟩
    · exact .inl ⟨(hr.producer? _).trans hp, d', range, heq.trans hd', ho, hrange, hstart⟩
    · rw [hd'] at hd₀
      cases hd₀
      have hkey : key = (CoordState.effects d' ref state).key := by
        have := hprod href
        rw [ht, hp] at this
        obtain ⟨t, pid, e⟩ := key
        simp only at ht he this
        simp [TxnEffects.key, CoordState.effects, ht, he, Option.some.inj this]
      refine .inr (.inr ⟨(CoordState.effects d' ref state).aborting, range, ?_⟩)
      refine pending_of_mem_next hat (mem_append_left _ (mem_append_right _ ?_))
      exact mem_releases.2 ⟨_, heff, (tp, range), TxnDetail.mem_ranges.2 hrange,
        by rw [hkey]⟩
  · intro b hb tp key o hf
    rcases mem_resolution hb with ⟨_, -, _, rfl⟩ | ⟨_, -, _, -, rfl⟩ | hb
    · cases hf
    · cases hf
    · obtain ⟨_, _, rfl⟩ := mem_offsetCommits hb
      cases hf

/-! ## Every section, every run -/

theorem run_kept (hi : Inv w) (hat : At w i a rest) (hok : sectionOk w c a)
    (h : a.run cfg w.shared c = .ok s' next) : Kept w i a rest s' next := by
  have ha := hi.kinds a hat.pending
  by_cases hq : a.quiet
  · obtain ⟨ht, hp, hnext⟩ := run_quiet hq h
    refine .of_untouched hi hat (.of_eq ht hp) ?_ fun b hb => not_target_of_follows (hnext b hb)
    cases a with
    | produce step => cases step <;> first | exact id | cases hq
    | txn step => cases step <;> first | exact id | cases hq
    | wal | offsets | handler | answer => exact id
    | admin | cleanup | snapshot | boot => cases ha
  have hepochs : s'.coord.EpochInv := run_epochInv hi.agree.epochs h
  cases a with
  | produce step =>
    cases step with
    | marker | guard | check => exact absurd rfl hq
    | append call attributes => exact .append hi hat h
    | acked call attributes ack => exact .acked hi hat h
    | record t call attributes ack => exact .record hi hat hok h
  | txn step =>
    cases step with
    | initProducer t timeout pid e =>
      cases t with
      | none => exact absurd rfl hq
      | some t =>
        rcases initTransactional_ok h with ⟨rfl, rfl⟩ | ⟨hnew, rfl, rfl⟩ |
          ⟨_, _, hp, hc, ⟨-, rfl, rfl⟩ | ⟨-, rfl, rfl⟩⟩
        · exact .of_untouched hi hat (.of_eq rfl rfl) id (by simp)
        · exact .allocate hi hat id (by simp [target, Transactions.logged]) hnew
        · exact .of_untouched hi hat (.of_eq rfl rfl) id (by simp [target])
        · exact .bumpEpoch hi hat id (by simp [target, Transactions.logged]) hp hc
    | addPartitions t pid e partitions =>
      rcases addPartitions_ok h with ⟨rfl, rfl⟩ | ⟨d₀, hd₀, hs', rfl⟩
      · exact .of_untouched hi hat (.of_eq rfl rfl) id (by simp)
      · have hbegin {d : TxnDetail} : (d.begin c.now partitions).state = some .begin := rfl
        refine .modifyDetail hi hat id (by simp [target, Transactions.logged])
          hs' hepochs ?_ ?_ ?_ ?_
        · intro d tp _ hst
          cases hst
        · intro d _ ho
          refine ⟨TxnDetail.isOpen_begin rfl, fun tp => ?_⟩
          rw [TxnDetail.range?_begin, if_neg]
          intro hterm
          simp [TxnDetail.isOpen, hterm] at ho
        · intro d tp hd ho _
          rw [TxnDetail.range?_begin]
          split
          · rfl
          · next hterm =>
            refine hi.agree.idle t e d tp hd ?_
            simpa [TxnDetail.isOpen, hterm] using ho
        · intro d pid' hd hterm hp hbusy
          -- A transaction that has ended starts again only when it is not busy.
          have hp₀ := (txnDetail_eq_ok.1 hd₀).1
          rw [hp] at hp₀
          cases hp₀
          simp only [sectionOk, hd, hbusy, Bool.not_true, Bool.or_false, all_some,
            decide_eq_true_eq] at hok
          simp [TxnDetail.isTerminal, hok, TxnState.isTerminal] at hterm
    | offsetCommit t pid e group offsets =>
      rcases offsetCommit_ok h with ⟨rfl, rfl⟩ | ⟨d₀, hd₀, hs', rfl⟩
      · exact .of_untouched hi hat (.of_eq rfl rfl) id (by simp)
      · exact .modifyDetail hi hat id (by simp [target, Transactions.logged]) hs' hepochs
          (fun d tp hd hst => hi.agree.idle t e d tp hd hst) (fun d _ ho => ⟨ho, fun _ => rfl⟩)
          (fun d tp _ hclosed ho => absurd ho hclosed) fun d _ _ hterm _ _ => hterm
    | prepare call =>
      obtain ⟨d₀, hd₀, ⟨hb, hs', hnext⟩ | ⟨-, rfl, rfl⟩⟩ := prepare_ok h
      · have hd₀ := (txnDetail_eq_ok.1 hd₀).2.2
        have hopen {d : TxnDetail} : (d.prepare call.committed).isOpen := by
          cases hc : call.committed <;>
            simp [TxnDetail.isOpen, TxnDetail.isTerminal, TxnDetail.prepare, TxnState.prepare,
              TxnState.isTerminal]
        refine .modifyDetail hi hat id ?_ hs' hepochs ?_ ?_ ?_ ?_
        · intro b hmem hb
          subst hnext
          simp only [cons_append, mem_cons, mem_append, not_mem_nil,
            or_false] at hmem
          rcases hmem with rfl | hmem | rfl
          · exact hb
          · obtain ⟨tp, rfl⟩ := mem_markers hmem
            exact hb
          · exact hb
        · intro d tp _ hst
          cases hst
        · exact fun d _ _ => ⟨hopen, fun _ => rfl⟩
        · intro d tp hd hclosed _
          rw [hd₀] at hd
          cases hd
          exact absurd (TxnDetail.isOpen_begin hb) hclosed
        · intro d _ hd hterm _ _
          rw [hd₀] at hd
          cases hd
          simp [TxnDetail.isTerminal, hb, TxnState.isTerminal] at hterm
      · exact .of_untouched hi hat (.of_eq rfl rfl) id (by simp [target])
    | resolve call =>
      obtain ⟨d₀, hd₀, ⟨-, rfl, rfl⟩ | ⟨-, rfl, rfl⟩⟩ := resolve_ok h
      · exact .of_untouched hi hat (.of_eq rfl rfl) id (by simp)
      · exact .resolve hi hat hd₀
    | release key aborting tp range =>
      cases h
      exact .release hi hat
    | sweep => exact absurd rfl hq
  | wal | offsets | handler | answer => exact absurd rfl hq
  | admin | cleanup | snapshot | boot => cases ha

theorem start_not_target {r : Request} (h : r.transactional) : ∀ a ∈ r.start, ¬ target a := by
  cases r with
  | produce | initProducer | txnAddPartitions | txnOffsetCommit | txnEnd | maintainTransactions
  | offsetCommit => simp [Request.start, target]
  | createTopic | deleteTopic | incrementalAlter | updateGroup | deleteGroups | upsertScram
  | deleteScram | deleteRecords | maintain | tick => cases h

/-- A justification survives if what it waits for does. -/
theorem Justified.survives (hj : Justified w tp key o)
    (hpend : ∀ b, target b → Pending w b → Pending w' b)
    (hholder : Holder w.shared.coord tp key o → Holder w'.shared.coord tp key o) :
    Justified w' tp key o := by
  rcases hj with hh | ⟨b, hp, hb⟩ | ⟨aborting, range, hp⟩
  · exact .inl (hholder hh)
  · exact .inr (.inl ⟨b, hpend b (target_of_flight hb) hp, hb⟩)
  · exact .inr (.inr ⟨aborting, range, hpend _ trivial hp⟩)

theorem inv_opened : Inv opened := by
  have hnone (a : Action) : ¬ Pending opened a := by
    rintro ⟨todo, hmem, -⟩
    cases hmem
  refine ⟨fun a h => absurd h (hnone a), nofun, ⟨CoordState.EpochInv.empty, ?_, ?_⟩,
    fun _ _ _ _ h => absurd h (hnone _), ?_, fun a _ _ _ h => absurd h (hnone a)⟩
  · simp [opened, Engine.opened, CoordState.detail?]
  · simp [opened, Engine.opened, CoordState.detail?]
  · simp [opened, Engine.opened, Engine.openTxns]

theorem Inv.step {l : EngineLabel} (hi : Inv w) (hok : orderly w l)
    (h : (machine cfg).step w l = some w') : Inv w' := by
  have hsection {i : Nat} {c : Choice} {a : Action} {rest : List Action} (hl : l = .run i c)
      (hat : At w i a rest) : sectionOk w c a := by
    subst hl
    simpa [orderly, hat.get] using hok
  have herr : ∀ i c a rest s e, l = .run i c → At w i a rest →
      (machine cfg).exec w.shared c a = .err s e → ¬ safe a := by
    intro i c a rest s e hl hat he
    exact not_safe_of_err (hsection hl hat) (exec_err he)
  have hlead : ∀ todo ∈ w'.tasks, Lead safe target todo := by
    refine Lead.all_step hi.lead h ?_ ?_ fun i c a rest s e hl hat he =>
      .inl (herr i c a rest s e hl hat he)
    · rintro r rfl
      exact .of_not_target (start_not_target hok)
    · intro i c a rest s next hl hat he
      exact lead_next (hi.kinds a hat.pending) (exec_ok he)
  cases l with
  | spawn r =>
    cases h
    refine ⟨fun a ha => ?_, hlead, hi.agree, fun key aborting tp range hp => ?_, ?_, ?_⟩
    · rcases pending_spawn ha with ha | ha
      · exact hi.kinds a ha
      · exact Request.start_transactional hok a ha
    · rcases pending_spawn hp with hp | hp
      · exact hi.releasing key aborting tp range hp
      · exact absurd trivial (start_not_target hok _ hp)
    · intro tp key o hpin
      exact (hi.pins tp key o hpin).survives (fun _ _ hp => hp.spawn) id
    · intro a tp key o ha hf
      rcases pending_spawn ha with ha | ha
      · exact hi.flying a tp key o ha hf
      · exact absurd (target_of_flight hf) (start_not_target hok a ha)
  | env ev =>
    obtain ⟨s, hs, rfl⟩ := step_env h
    obtain ⟨hc, hp⟩ := env_untouched hs
    have hu : Untouched w.shared s := .of_eq (by rw [hc]) hp
    refine ⟨hi.kinds, hlead, hi.agree.congr hu,
      fun key aborting tp range hp => (hi.releasing key aborting tp range hp).congr hu.transactions,
      fun tp key o hpin => ?_, fun a tp key o ha hf => ?_⟩
    · rw [hu.openTxns] at hpin
      exact (hi.pins tp key o hpin).survives (fun _ _ hp => hp) fun hh => hh.congr hu.transactions
    · rw [hu.openTxns]
      exact (hi.flying a tp key o ha hf).imp_right (·.congr hu.transactions)
  | run i c =>
    obtain ⟨a, rest, hat, @⟨s, next, he⟩ | @⟨s, e, he⟩⟩ := step_run h
    · have hrun := exec_ok he
      have hk := run_kept hi hat (hsection rfl hat) hrun
      -- What was below a batch in flight is still there, or its transaction has ended.
      have hflying {b : Action} {tp : Topition} {key : OpenTxnKey} {o : Int} (hb : Pending w b)
          (hf : flight? b = some (tp, key, o)) :
          ((s.openTxns tp)[key]?).isSome ∨ Ended s.coord key := by
        rcases hi.flying b tp key o hb hf with hpin | hended
        · exact hk.unpinned tp key hpin
        · exact .inr (hk.ended key (hb.any (concerns_of_flight hf)) hended)
      refine ⟨fun b hb => ?_, hlead, hk.agree, fun key aborting tp range hp => ?_, hk.pins,
        fun b tp key o hb hf => ?_⟩
      · rcases pending_ok hat hb with hb | hb
        · exact run_transactional (hi.kinds a hat.pending) hrun b hb
        · exact hi.kinds b hb
      · rcases pending_ok hat hp with hb | hp
        · exact hk.releases key aborting tp range hb
        · exact hk.ended key (hp.any (decide_eq_true rfl)) (hi.releasing key aborting tp range hp)
      · rcases pending_ok hat hb with hb | hb
        · rcases hk.flights b hb tp key o hf with hf | hpin
          · exact hflying hat.pending hf
          · exact .inl hpin
        · exact hflying hb hf
    · have hu := run_err (hi.kinds a hat.pending) (exec_err he)
      have hsurvive (b : Action) (hb : target b) (hp : Pending w b) :
          Pending ⟨s, w.tasks.set i ((machine cfg).unwind rest)⟩ b := by
        refine hp.survives hi.lead h hb (fun i' c' rest' hl hat' => ?_)
          fun i c a rest s e hl hat he => .inl (herr i c a rest s e hl hat he)
        cases hl
        obtain ⟨rfl, rfl⟩ := hat.eq hat'
        refine herr i c a rest s e rfl hat he ?_
        cases a with
        | produce step => cases step <;> first | exact trivial | exact hb.elim
        | txn step => cases step <;> first | exact trivial | exact hb.elim
        | _ => exact hb.elim
      refine ⟨fun b hb => hi.kinds b (pending_err hat hb), hlead, hi.agree.congr hu,
        fun key aborting tp range hp => ?_, fun tp key o hpin => ?_, fun b tp key o hb hf => ?_⟩
      · exact (hi.releasing key aborting tp range (pending_err hat hp)).congr hu.transactions
      · rw [hu.openTxns] at hpin
        exact (hi.pins tp key o hpin).survives hsurvive fun hh => hh.congr hu.transactions
      · rw [hu.openTxns]
        exact (hi.flying b tp key o (pending_err hat hb) hf).imp_right (·.congr hu.transactions)

theorem reach_inv (h : (machine cfg).system.Reach (fun w l => orderly w l = true) opened w) :
    Inv w :=
  h.invariant inv_opened fun _ hi hok hs => hi.step hok hs

/-! ## No pin is left over -/

/-- Every pin belongs to a transaction that is open or prepared and has a range
on the partition that starts at the pin; so if all transactions have ended, the
last stable offset is the high watermark. -/
def PinsHeld (s : Engine) : Prop :=
  (∀ (tp : Topition) (inner : PartitionInner) (key : OpenTxnKey) (o : Int),
    s.partitions[tp]? = some inner → inner.openTxns[key]? = some o → Holder s.coord tp key o) ∧
  ((∀ t e d, s.coord.detail? t e = some d → d.isTerminal) →
    ∀ (tp : Topition) (inner : PartitionInner), s.partitions[tp]? = some inner →
      inner.lastStable = inner.highWatermark)

theorem lastStable_of_no_pins {inner : PartitionInner}
    (h : ∀ (key : OpenTxnKey) (o : Int), inner.openTxns[key]? ≠ some o) :
    inner.lastStable = inner.highWatermark := by
  have hempty : inner.openTxns = ∅ := ExtTreeMap.ext_getElem? fun key => by
    rw [eq_none_iff_forall_ne_some.2 (h key)]
    simp
  have hvalues : inner.openTxns.values = [] := by
    rw [hempty]
    rfl
  simp [PartitionInner.lastStable, PartitionInner.highWatermark, hvalues]

/-- **No pin is leaked** by an orderly run once no request is in flight.  A pin is
inserted by the first batch of its transaction on the partition and then waits:
for the record of that batch, which gives the transaction a range that starts at
it; then for the end of the transaction, which collects the range; then for the
release.  What it waits for is a section in flight or an open transaction, and
without sections in flight only the transaction is left. -/
theorem pins_held (h : (machine cfg).system.Reach (fun w l => orderly w l = true) opened w)
    (hq : Quiescent w) : PinsHeld w.shared := by
  have hi := reach_inv h
  have hheld (tp : Topition) (inner : PartitionInner) (key : OpenTxnKey) (o : Int)
      (hp : w.shared.partitions[tp]? = some inner) (hpin : inner.openTxns[key]? = some o) :
      Holder w.shared.coord tp key o := by
    have hpin' : (w.shared.openTxns tp)[key]? = some o := by
      simpa [Engine.openTxns, hp] using hpin
    rcases hi.pins tp key o hpin' with hh | ⟨_, hp, -⟩ | ⟨_, _, hp⟩
    · exact hh
    all_goals exact absurd hp (hq.not_pending _)
  refine ⟨hheld, fun hterm tp inner hp => lastStable_of_no_pins fun key o hpin => ?_⟩
  obtain ⟨-, d, range, hd, ho, -⟩ := hheld tp inner key o hp hpin
  simp [TxnDetail.isOpen, hterm _ _ d hd] at ho

/-- One transaction that produces and commits. -/
def commitRun : List EngineLabel :=
  let p : Topition := ⟨"p", 0⟩
  List.flatten [
    [Schedule.register "a"], Schedule.rounds [p] 0 3,
    [.spawn (.txnAddPartitions "a" 1 0 [p])], Schedule.rounds [p] 1 3,
    [.spawn (.produce (Schedule.data p "a" 1 0 0))], Schedule.rounds [p] 2 5,
    [.spawn (.txnEnd ⟨"a", 1, 0, true⟩)], Schedule.rounds [p] 3 14]

theorem pins_held_commitRun : ∃ w,
    (machine {}).system.Reach (fun w l => orderly w l = true) opened w ∧ Quiescent w ∧
      (w.shared.partitions[(⟨"p", 0⟩ : Topition)]?).any (fun inner => inner.highWatermark = 2) ∧
      PinsHeld w.shared := by
  exact (exists_reach (P := fun w => _ ∧ _) commitRun (by decide +kernel)).imp
    fun w h => ⟨h.1, h.2.1, h.2.2, pins_held h.1 h.2.1⟩

/-! ### A transaction that ends between check and append -/

/-- Transactional requests, and no I/O errors. -/
def requested : EngineLabel → Bool
  | .spawn r => r.transactional
  | .run _ c => c.fault.isNone
  | .env _ => true

/-- A pin of a transaction that has ended. -/
def leaked (s : Engine) (tp : Topition) (key : OpenTxnKey) : Bool :=
  ((s.openTxns tp)[key]?).isSome && (s.coord.detail? key.1 key.2.2).any (·.isTerminal)

theorem not_held_of_leaked (h : leaked s tp key = true) : ¬ PinsHeld s := by
  rintro ⟨hheld, -⟩
  obtain ⟨hpin, hterm⟩ := Bool.and_eq_true_iff.1 h
  obtain ⟨o, hpin⟩ := isSome_iff_exists.1 hpin
  obtain ⟨d, hd, hterm⟩ := (Option.any_eq_true _ _).1 hterm
  cases hp : s.partitions[tp]? with
  | none => simp [Engine.openTxns, hp] at hpin
  | some inner =>
    obtain ⟨-, d', range, hd', ho, -⟩ := hheld tp inner key o hp
      (by simpa [Engine.openTxns, hp] using hpin)
    rw [hd] at hd'
    cases hd'
    simp [TxnDetail.isOpen, hterm] at ho

/-- The batch passes the check, the transaction is committed, and only then the
batch is appended. -/
def overtakenRun : List EngineLabel :=
  let p : Topition := ⟨"p", 0⟩
  List.flatten [
    [Schedule.register "a"], Schedule.rounds [p] 0 3,
    [.spawn (.txnAddPartitions "a" 1 0 [p])], Schedule.rounds [p] 1 3,
    [.spawn (.produce (Schedule.data p "a" 1 0 0))], Schedule.rounds [p] 2 2,
    [.spawn (.txnEnd ⟨"a", 1, 0, true⟩)], Schedule.rounds [p] 3 7,
    Schedule.rounds [p] 2 3]

/-- The append pins the last stable offset for a transaction that has already
committed, and its record is refused. -/
theorem overtaken_append_leaks_pin : ∃ w,
    (machine {}).system.Reach (fun _ l => requested l = true) opened w ∧ Quiescent w ∧
      ¬ PinsHeld w.shared := by
  exact (exists_reach
    (P := fun w => Quiescent w ∧ leaked w.shared ⟨"p", 0⟩ ("a", 1, 0)) overtakenRun
    (by decide +kernel)).imp fun w h => ⟨h.1, h.2.1, not_held_of_leaked h.2.2⟩

end Pins

end Tansu.Nvme
