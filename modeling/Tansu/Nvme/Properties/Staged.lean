import Tansu.Lib.Sequential
import Tansu.Nvme.Properties.Direction

/-!
# Offsets staged by transactions that follow one another

`txn_offset_commit` stages offsets without moving the transaction's state, so
what `txn_end` makes of them depends on the state that the previous transaction
at the same epoch has left.  Requests run one after another here.  A ledger
keeps the offsets that were staged since the previous `txn_end`; where they were
staged before the first transaction of the epoch had ended, or after
`txn_add_partitions` had opened another one, a `txn_end` that commits applies
them all.  Staged right after a terminal state, they are lost.
-/

namespace Tansu.Nvme

open Std Tansu.Lib Machine List Option BTreeMap ExtTreeMap Produce Transactions CoordState System

namespace Staged

open Direction (asCommit mem_effects_offsets offsets_of_commit commit_of_offsets)

abbrev EngineCall := Call Request Choice Env

/-- The offsets that each transaction has staged since its previous `txn_end`. -/
abbrev Ledger := BTreeMap (String × Int) (BTreeMap (Group × Topition) TxnCommitOffset)

/-- The request passes the validation of its transaction. -/
def valid (s : Engine) (t : String) (pid e : Int) : Bool := (s.coord.txnDetail t pid e).isOk

/-- A `txn_offset_commit` adds its offsets to the ledger, a `txn_end` closes it. -/
def observe (ledger : Ledger) (s : Engine) : EngineCall → Engine → Ledger
  | .play (.txnOffsetCommit t pid e group offsets) _, _ =>
    if valid s t pid e then ledger.alter (t, e) fun staged =>
      some (offsets.foldl (fun m o => m.insert (group, o.1) o.2) (staged.getD ∅))
    else ledger
  | .play (.txnEnd call) _, _ =>
    if valid s call.transactionId call.producerId call.producerEpoch then
      ledger.erase (call.transactionId, call.producerEpoch)
    else ledger
  | _, _ => ledger

def system (cfg : Config) : System (Engine × Ledger) EngineCall :=
  (machine cfg).sequential.observe observe

/-- The epoch has not been ended since it was opened. -/
def ongoing (d : TxnDetail) : Bool := decide (d.state = none ∨ d.state = some .begin)

/-- Offsets are staged while the epoch of the transaction is new or open.  No
sweep and no `init_producer` ends a transaction that its client has left open. -/
def orderly (p : Engine × Ledger) : EngineCall → Bool
  | .play (.txnOffsetCommit t _ e _ _) _ => (p.1.coord.detail? t e).all ongoing
  | .play (.initProducer (some t) ..) _ =>
    ((p.1.coord.currentEpoch? t).bind (p.1.coord.detail? t)).all (·.state ≠ some .begin)
  | .play (.maintainTransactions _) _ => false
  | _ => true

/-- No other transaction is open or prepared. -/
def alone (coord : CoordState) (call : TxnEnd) : Bool :=
  coord.transactions.toList.all fun (t, txn) => txn.epochs.toList.all fun (e, d) =>
    decide (t = call.transactionId ∧ e = call.producerEpoch) || d.state.all (·.isTerminal)

variable {cfg : Config} {c : Choice} {s s' s₀ : Engine} {a : Action} {next rest todo : List Action}
  {err : Error} {t : String} {e : Int} {call : TxnEnd} {coord : CoordState} {d : TxnDetail}
  {group : Group} {tp : Topition} {ledger : Ledger} {p : Engine × Ledger}

theorem alone_iff : alone coord call = true ↔ ∀ t e d, coord.detail? t e = some d →
    ¬ (t = call.transactionId ∧ e = call.producerEpoch) → d.state.all (·.isTerminal) = true := by
  simp only [alone, List.all_eq_true, Prod.forall, mem_toList_iff_getElem?_eq_some,
    Bool.or_eq_true, decide_eq_true_eq, CoordState.detail?, bind_eq_some_iff]
  constructor
  · rintro h t e d ⟨txn, htxn, hd⟩ hne
    exact (h t txn htxn e d hd).resolve_left hne
  · intro h t txn htxn e d hd
    by_cases hown : t = call.transactionId ∧ e = call.producerEpoch
    · exact .inl hown
    · exact .inr (h t e d ⟨txn, htxn, hd⟩ hown)

/-- A transaction that is alone has no peers. -/
theorem peers_eq_nil (ha : alone coord call = true)
    (hp : coord.producer? call.transactionId = some call.producerId) : coord.peers call = [] := by
  refine eq_nil_iff_forall_not_mem.2 fun ref href => ?_
  obtain ⟨-, d, hd, hstate, hterm, -⟩ := mem_peers href
  have := alone_iff.1 ha _ _ d hd (ne_own_of_mem_peers hp href)
  simp [hstate, hterm] at this

/-! ## Sections that leave state and staged offsets alone -/

/-- What a transaction is and has staged. -/
def status (d : TxnDetail) : Option TxnState × BTreeMap (Group × Topition) TxnCommitOffset :=
  (d.state, d.offsets)

structure Calm (s s' : Engine) : Prop where
  topics : s'.coord.topics = s.coord.topics
  groupOffsets : s'.groupOffsets = s.groupOffsets
  status : ∀ t e, (s'.coord.detail? t e).map status = (s.coord.detail? t e).map status

/-- Produces, log writes and releases. -/
def calm : Action → Bool
  | .produce _ | .wal _ | .txn (.release ..) | .handler | .answer _ => true
  | _ => false

namespace Calm

theorem refl : Calm s s := ⟨rfl, rfl, fun _ _ => rfl⟩

theorem trans {s₁ : Engine} (h : Calm s s₁) (h' : Calm s₁ s') : Calm s s' :=
  ⟨h'.topics.trans h.topics, h'.groupOffsets.trans h.groupOffsets,
    fun t e => (h'.status t e).trans (h.status t e)⟩

theorem of_eq (ht : s'.coord.transactions = s.coord.transactions)
    (htopics : s'.coord.topics = s.coord.topics) (hg : s'.groupOffsets = s.groupOffsets) :
    Calm s s' :=
  ⟨htopics, hg, fun t e => by simp only [CoordState.detail?, ht]⟩

theorem detail (h : Calm s s') (hd : s.coord.detail? t e = some d) :
    ∃ d', s'.coord.detail? t e = some d' ∧ d'.state = d.state ∧ d'.offsets = d.offsets := by
  have hstatus := h.status t e
  rw [hd] at hstatus
  obtain ⟨d', hd', heq⟩ := map_eq_some_iff.1 hstatus
  simp only [Staged.status, Prod.mk.injEq] at heq
  exact ⟨d', hd', heq.1, heq.2⟩

theorem symm (h : Calm s s') : Calm s' s :=
  ⟨h.topics.symm, h.groupOffsets.symm, fun t e => (h.status t e).symm⟩

theorem alone (h : Calm s s') (ha : alone s.coord call = true) :
    Staged.alone s'.coord call = true := by
  refine alone_iff.2 fun t e d' hd' hne => ?_
  obtain ⟨d, hd, hstate, -⟩ := h.symm.detail hd'
  rw [← hstate]
  exact alone_iff.1 ha t e d hd hne

end Calm

theorem run_calm (ha : calm a = true) (h : a.run cfg s c = .ok s' next) :
    Calm s s' ∧ ∀ b ∈ next, calm b = true := by
  refine ⟨?_, fun b hb => ?_⟩
  · cases a with
    | produce step =>
      cases step with
      | marker => cases h; exact .refl
      | guard => obtain ⟨rfl, -⟩ := guard_ok h; exact .refl
      | check => obtain ⟨_, rfl, -⟩ := check_ok h; exact .of_eq rfl rfl rfl
      | append =>
        obtain ⟨_, _, _, _, _, rfl, -⟩ := append_ok_partitions h
        exact .of_eq rfl rfl rfl
      | acked => obtain ⟨-, rfl, -⟩ := acked_ok h; exact .of_eq rfl rfl rfl
      | record t call attributes ack =>
        obtain ⟨-, ⟨-, rfl⟩ | ⟨d, hd, -, rfl⟩⟩ := record_ok h
        · exact .refl
        · refine ⟨rfl, rfl, fun t' e' => ?_⟩
          rw [detail?_modifyDetail]
          split
          · cases s.coord.detail? t' e' <;> rfl
          · rfl
    | txn step =>
      cases step with
      | release => cases h; exact .of_eq rfl rfl rfl
      | _ => cases ha
    | wal step => obtain ⟨⟨_, _, rfl⟩, -⟩ := wal_ok h; exact .of_eq rfl rfl rfl
    | handler | answer => cases h; exact .refl
    | offsets | admin | cleanup | snapshot | boot => cases ha
  · cases run_leads h b hb with
    | marker | guard | check | append | acked | log | await => rfl
    | _ => cases ha

theorem run_err_calm (h : a.run cfg s c = .err s' err) : Calm s s' := by
  obtain ⟨_, _, _, _, _, rfl⟩ := run_err_frame h
  exact .of_eq rfl rfl rfl

theorem env_calm {ev : Env} (h : env s ev = some s') : Calm s s' := by
  cases ev <;> cases h <;> exact .of_eq rfl rfl rfl

theorem ends_calm (h : (machine cfg).Ends s todo s') (ha : ∀ a ∈ todo, calm a = true) :
    Calm s s' := by
  refine h.invariant .refl ha (fun hc he => hc.trans (env_calm he)) (fun hc ha he => ?_)
    fun hc _ he => hc.trans (run_err_calm (exec_err he))
  obtain ⟨hstep, hnext⟩ := run_calm ha (exec_ok he)
  exact ⟨hc.trans hstep, hnext⟩

theorem idle_calm (h : (machine cfg).Ends s [] s') : Calm s s' := ends_calm h (by simp)

/-! ## What other requests leave of an open transaction -/

/-- The section neither ends the epoch nor stages offsets for it. -/
def spares (t : String) (e : Int) : Action → Prop
  | .txn (.offsetCommit t' _ e' _ _) => ¬ (t' = t ∧ e' = e)
  | .txn (.prepare call) | .txn (.resolve call) =>
    ¬ (call.transactionId = t ∧ call.producerEpoch = e)
  | .txn (.initProducer (some _) ..) | .txn (.sweep _) | .boot _ => False
  | _ => True

/-- The epoch is new or open and has staged `offsets`. -/
def Holding (t : String) (e : Int) (offsets : BTreeMap (Group × Topition) TxnCommitOffset)
    (coord : CoordState) : Prop :=
  ∃ d, coord.detail? t e = some d ∧ ongoing d = true ∧ d.offsets = offsets

variable {offsets : BTreeMap (Group × Topition) TxnCommitOffset} {t' : String}
  {f : TxnDetail → TxnDetail} {timeout : Int} {pid? e? : Option Int}
  {turns : List (Turn Choice Env)}

theorem Holding.congr (h : Holding t e offsets s.coord)
    (ht : s'.coord.transactions = s.coord.transactions) : Holding t e offsets s'.coord := by
  obtain ⟨d, hd, hrest⟩ := h
  refine ⟨d, ?_, hrest⟩
  simpa only [CoordState.detail?, ht] using hd

theorem Holding.modifyDetail {e' : Int} (h : Holding t e offsets coord)
    (hf : t' = t ∧ e' = e → ∀ d, ongoing d = true → ongoing (f d) = true ∧
      (f d).offsets = d.offsets)
    :
    Holding t e offsets (coord.modifyDetail t' e' f) := by
  obtain ⟨d, hd, hon, hoff⟩ := h
  unfold Holding
  rw [detail?_modifyDetail]
  split
  · next heq =>
    obtain ⟨hon', hoff'⟩ := hf heq d hon
    exact ⟨f d, by rw [hd]; rfl, hon', hoff'.trans hoff⟩
  · exact ⟨d, hd, hon, hoff⟩

theorem ongoing_begin {now : Int} {partitions : List Topition} (h : ongoing d = true) :
    ongoing (d.begin now partitions) = true ∧ (d.begin now partitions).offsets = d.offsets := by
  refine ⟨by simp [ongoing, TxnDetail.begin], ?_⟩
  have hterm : d.isTerminal = false := by
    rcases of_decide_eq_true h with hs | hs <;> simp [TxnDetail.isTerminal, hs, TxnState.isTerminal]
  simp [TxnDetail.begin, TxnDetail.addPartitions, TxnDetail.clearTerminal, hterm]

/-- A resolution that is not deferred finds its peers prepared, so it moves no
epoch that is new or open but the caller's own. -/
theorem Holding.resolve (h : Holding t e offsets coord) (hdef : coord.deferred call = false)
    (hne : ¬ (call.transactionId = t ∧ call.producerEpoch = e)) :
    Holding t e offsets (coord.resolve call).1 := by
  obtain ⟨d, hd, hon, hoff⟩ := h
  rcases (coord.resolve_resolved call).detail t e with heq |
    ⟨ref, href, d', state, rfl, rfl, hd', -⟩
  · exact ⟨d, heq.trans hd, hon, hoff⟩
  · exfalso
    rcases mem_append.1 href with href | href
    · obtain ⟨-, d'', hd'', hstate, -⟩ := mem_peers href
      have hprep : ref.state.isPrepared = true := by
        simp only [CoordState.deferred, Bool.not_eq_false', List.all_eq_true] at hdef
        exact hdef ref href
      rw [hd] at hd''
      cases hd''
      rcases of_decide_eq_true hon with hs | hs <;> rw [hs] at hstate
      · cases hstate
      · rw [← Option.some.inj hstate] at hprep
        cases hprep
    · rw [mem_singleton.1 href] at hne
      exact hne ⟨rfl, rfl⟩

theorem run_holding (hh : Holding t e offsets s.coord) (ha : spares t e a)
    (h : a.run cfg s c = .ok s' next) : Holding t e offsets s'.coord := by
  cases hq : a.changesTxns with
  | false => exact hh.congr (run_transactions hq h)
  | true =>
    cases a with
    | produce step =>
      cases step with
      | record t call attributes ack =>
        obtain ⟨-, ⟨-, rfl⟩ | ⟨d, hd, -, rfl⟩⟩ := record_ok h
        · exact hh
        · exact hh.modifyDetail fun _ d hon => ⟨hon, rfl⟩
      | _ => cases hq
    | txn step =>
      cases step with
      | initProducer t timeout pid e =>
        cases t with
        | none => cases hq
        | some t => cases ha
      | addPartitions t pid e partitions =>
        rcases addPartitions_ok h with ⟨rfl, -⟩ | ⟨d, hd, rfl, -⟩
        · exact hh
        · exact hh.modifyDetail fun _ d hon => ongoing_begin hon
      | offsetCommit t pid e group offsets =>
        rcases offsetCommit_ok h with ⟨rfl, -⟩ | ⟨d, hd, rfl, -⟩
        · exact hh
        · exact hh.modifyDetail fun heq => absurd heq ha
      | prepare call =>
        obtain ⟨d, hd, ⟨-, rfl, -⟩ | ⟨-, rfl, -⟩⟩ := prepare_ok h
        · exact hh.modifyDetail fun heq => absurd heq ha
        · exact hh
      | resolve call =>
        obtain ⟨d, hd, ⟨-, rfl, -⟩ | ⟨hdef, rfl, -⟩⟩ := resolve_ok h
        · exact hh
        · exact hh.resolve hdef ha
      | release | sweep => cases hq
    | wal | offsets | handler | answer | admin | cleanup | snapshot | boot => cases hq

theorem spares_of_calm (h : calm a = true) : spares t e a := by
  cases a with
  | txn step => cases step <;> trivial
  | boot => cases h
  | _ => trivial

/-- Sections that spare an epoch are followed by sections that spare it. -/
theorem next_spares (ha : spares t e a) (h : a.run cfg s c = .ok s' next) :
    ∀ b ∈ next, spares t e b := by
  intro b hb
  cases run_leads h b hb with
  | rollBack | retry | expire | handle | remark | finish => cases ha
  | resolve => exact ha
  | _ => trivial

theorem ends_holding (h : (machine cfg).Ends s todo s') (hh : Holding t e offsets s.coord)
    (ha : ∀ a ∈ todo, spares t e a) : Holding t e offsets s'.coord := by
  refine h.invariant (I := fun s => Holding t e offsets s.coord) hh ha (fun hh he => ?_)
    (fun hh ha he => ?_) fun hh _ he => ?_
  · obtain ⟨hc, -⟩ := env_untouched he
    exact hh.congr (by rw [hc])
  · exact ⟨run_holding hh ha (exec_ok he), next_spares ha (exec_ok he)⟩
  · exact hh.congr (run_err_transactions (exec_err he))

theorem ends_epochInv (h : (machine cfg).Ends s todo s') (hi : s.coord.EpochInv) :
    s'.coord.EpochInv := by
  refine h.invariant (I := fun s => s.coord.EpochInv) (P := fun _ => True) hi (fun _ _ => trivial)
    (fun hi he => ?_) (fun hi _ he => ?_) fun hi _ he => ?_
  · obtain ⟨hc, -⟩ := env_untouched he
    exact hi.congr (by rw [hc])
  · exact ⟨run_epochInv hi (exec_ok he), fun _ _ => trivial⟩
  · exact hi.congr (run_err_transactions (exec_err he))

theorem idle_coord (h : (machine cfg).Ends s [] s') : s'.coord = s.coord :=
  h.invariant (I := fun s' => s'.coord = s.coord) (P := fun _ => False) rfl (by simp)
    (fun hc he => (env_untouched he).1.trans hc) (fun _ ha _ => ha.elim) fun _ ha _ => ha.elim

/-! ## The ledger -/

/-- What the ledger holds is staged in an epoch that is new or open. -/
structure Inv (p : Engine × Ledger) : Prop where
  epochs : p.1.coord.EpochInv
  staged : ∀ t e m, p.2[(t, e)]? = some m → 0 ≤ e ∧
    ∃ d, p.1.coord.detail? t e = some d ∧ ongoing d = true ∧
      ∀ (key : Group × Topition) co, m[key]? = some co → d.offsets[key]? = some co

theorem inv_initially : Inv (Engine.opened, ∅) :=
  ⟨.empty, fun t e m h => by simp at h⟩

theorem Inv.of_holding {ledger' : Ledger} (hi : Inv (s, ledger)) (he : s'.coord.EpochInv)
    (hsub : ∀ (t : String) (e : Int) m, ledger'[(t, e)]? = some m → ledger[(t, e)]? = some m)
    (hh : ∀ (t : String) (e : Int) m offsets, ledger'[(t, e)]? = some m → 0 ≤ e →
      Holding t e offsets s.coord → Holding t e offsets s'.coord) : Inv (s', ledger') := by
  refine ⟨he, fun t e m hm => ?_⟩
  obtain ⟨hpos, d, hd, hon, hstaged⟩ := hi.staged t e m (hsub t e m hm)
  obtain ⟨d', hd', hon', hoff⟩ := hh t e m d.offsets hm hpos ⟨d, hd, hon, rfl⟩
  refine ⟨hpos, d', hd', hon', fun key co hco => ?_⟩
  rw [show d'.offsets = d.offsets from hoff]
  exact hstaged key co hco

/-- The epoch that `init_producer` opens holds nothing that is staged. -/
theorem init_holding (hpos : 0 ≤ e) (hi : s.coord.EpochInv) (hh : Holding t e offsets s.coord)
    (hclosed : ((s.coord.currentEpoch? t').bind (s.coord.detail? t')).all
      (·.state ≠ some .begin) = true)
    (h : Transactions.initTransactional s t' timeout pid? e? = .ok s' next) :
    Holding t e offsets s'.coord ∧ ∀ b ∈ next, calm b = true := by
  obtain ⟨d, hd, hrest⟩ := hh
  rcases initTransactional_ok h with ⟨rfl, rfl⟩ | ⟨hnone, rfl, rfl⟩ |
    ⟨pid, current, hp, hc, ⟨hbegin, -⟩ | ⟨-, rfl, rfl⟩⟩
  · exact ⟨⟨d, hd, hrest⟩, by simp⟩
  · refine ⟨⟨d, ?_, hrest⟩, by simp [calm, Transactions.logged]⟩
    rw [detail?_allocate, if_neg, hd]
    rintro rfl
    simp [CoordState.detail?, hnone] at hd
  · -- An open transaction would be rolled back.
    rw [hc, bind_some] at hclosed
    obtain ⟨d', hd', hstate⟩ := bind_eq_some_iff.1 hbegin
    simp [hd', hstate] at hclosed
  · refine ⟨⟨d, ?_, hrest⟩, by simp [calm, Transactions.logged]⟩
    rw [detail?_bumpEpoch (by simp [hp]), if_neg, hd]
    rintro ⟨rfl, rfl⟩
    -- The next epoch is above the current one, or has wrapped below zero.
    obtain ⟨h₀, h₁⟩ := hi.current t' current hc
    obtain ⟨current', hc', hle⟩ := epoch_le_current hd
    rw [hc] at hc'
    cases hc'
    simp only [wrapI16, Int.bmod_def] at hle hpos
    split at hle <;> omega

theorem inv_init (hi : Inv (s, ledger))
    (hclosed : ((s.coord.currentEpoch? t').bind (s.coord.detail? t')).all
      (·.state ≠ some .begin) = true)
    (h : (machine cfg).Ends s (Request.start (.initProducer (some t') timeout pid? e?)) s') :
    Inv (s', ledger) := by
  refine hi.of_holding (ends_epochInv h hi.epochs) (fun _ _ _ => id)
    fun t e m offsets _ hpos hh => ?_
  obtain ⟨s₀, c, hidle, hfirst⟩ := h.first
  have hcoord := idle_coord hidle
  rw [← hcoord] at hh hclosed
  have hi₀ : s₀.coord.EpochInv := hcoord ▸ hi.epochs
  rcases hfirst with ⟨s₁, next, he, hends⟩ | ⟨s₁, err, he, -⟩
  · obtain ⟨hh₁, hnext⟩ := init_holding hpos hi₀ hh hclosed (exec_ok he)
    refine ends_holding hends hh₁ fun b hb => spares_of_calm (hnext b ?_)
    rwa [append_nil] at hb
  · exact absurd (exec_err he) initTransactional_ne_err

theorem inv_stage {pid : Int} {staged : List (Topition × TxnCommitOffset)} (hi : Inv (s, ledger))
    (hon : (s.coord.detail? t e).all ongoing = true)
    (h : (machine cfg).Ends s (Request.start (.txnOffsetCommit t pid e group staged)) s') :
    Inv (s', observe ledger s (.play (.txnOffsetCommit t pid e group staged) turns) s') := by
  have hepochs := ends_epochInv h hi.epochs
  obtain ⟨s₀, c, hidle, ⟨s₁, next, he, hends⟩ | ⟨s₁, err, he, -⟩⟩ := h.first
  case inr => exact absurd (exec_err he) offsetCommit_ne_err
  have hcoord := idle_coord hidle
  have hrun : Transactions.offsetCommit s₀ t pid e group staged = .ok s₁ next := exec_ok he
  rw [append_nil] at hends
  cases hv : s.coord.txnDetail t pid e with
  | error err =>
    simp only [Transactions.offsetCommit, hcoord, hv] at hrun
    cases hrun
    simp only [observe, valid, hv, Except.isOk, Except.toBool, Bool.false_eq_true, if_false]
    refine hi.of_holding hepochs (fun _ _ _ => id) fun _ _ _ _ _ _ hh => ?_
    exact ends_holding hends (hh.congr (by rw [hcoord])) (by simp)
  | ok d =>
    simp only [Transactions.offsetCommit, hcoord, hv] at hrun
    cases hrun
    obtain ⟨-, hcur, hd⟩ := txnDetail_eq_ok.1 hv
    have hcalm := ends_calm hends (by simp [calm, Transactions.logged])
    simp only [observe, valid, hv, Except.isOk, Except.toBool, if_true]
    refine ⟨hepochs, fun t' e' m hm => ?_⟩
    rw [getElem?_alter_eq] at hm
    split at hm
    · next heq =>
      obtain ⟨rfl, rfl⟩ := Prod.mk.inj heq
      have hd₁ : (s.coord.modifyDetail t e (·.stage group staged)).detail? t e =
          some (d.stage group staged) := by simp [detail?_modifyDetail, hd]
      obtain ⟨d', hd', hstate, hoff⟩ := hcalm.detail hd₁
      have hond : ongoing d = true := by simpa [hd] using hon
      refine ⟨(hi.epochs.current t e hcur).1, d', hd', ?_, fun key co hco => ?_⟩
      · rw [ongoing, hstate]
        exact hond
      · rw [hoff]
        cases hm
        simp only [TxnDetail.stage, getElem?_foldl_insert] at hco ⊢
        cases hlast : (staged.filter fun o => (group, o.1) = key).getLast? with
        | some o => simpa [hlast] using hco
        | none =>
          simp only [hlast, map_none, none_or] at hco ⊢
          cases hold : ledger[(t, e)]? with
          | none => simp [hold] at hco
          | some m =>
            obtain ⟨-, d₀, hd₀, -, hstaged⟩ := hi.staged t e m hold
            rw [hd] at hd₀
            cases hd₀
            exact hstaged key co (by simpa [hold] using hco)
    · next hne =>
      obtain ⟨hpos, d₀, hd₀, hon₀, hstaged⟩ := hi.staged t' e' m hm
      have hd₁ : (s.coord.modifyDetail t e (·.stage group staged)).detail? t' e' = some d₀ := by
        rw [detail?_modifyDetail, if_neg, hd₀]
        rintro ⟨rfl, rfl⟩
        exact hne rfl
      obtain ⟨d', hd', hstate, hoff⟩ := hcalm.detail hd₁
      refine ⟨hpos, d', hd', by simpa only [ongoing, hstate] using hon₀, ?_⟩
      rw [hoff]
      exact hstaged

theorem inv_end (hi : Inv (s, ledger))
    (h : (machine cfg).Ends s (Request.start (.txnEnd call)) s') :
    Inv (s', observe ledger s (.play (.txnEnd call) turns) s') := by
  have hepochs := ends_epochInv h hi.epochs
  cases hv : s.coord.txnDetail call.transactionId call.producerId call.producerEpoch with
  | ok d =>
    simp only [observe, valid, hv, Except.isOk, Except.toBool, if_true]
    refine hi.of_holding hepochs (fun t e m hm => ?_) fun t e m offsets hm _ hh => ?_
    · rw [getElem?_erase_eq] at hm
      split at hm
      · cases hm
      · exact hm
    · rw [getElem?_erase_eq] at hm
      split at hm
      · cases hm
      · next hne =>
        refine ends_holding h hh fun a ha => ?_
        simp only [Request.start, mem_cons, not_mem_nil, or_false] at ha
        rcases ha with rfl | rfl
        · rintro ⟨rfl, rfl⟩
          exact hne rfl
        · trivial
  | error err =>
    simp only [observe, valid, hv, Except.isOk, Except.toBool, Bool.false_eq_true, if_false]
    refine hi.of_holding hepochs (fun _ _ _ => id) fun t e m offsets _ _ hh => ?_
    obtain ⟨s₀, c, hidle, hfirst⟩ := h.first
    have hcoord := idle_coord hidle
    rcases hfirst with ⟨s₁, next, he, -⟩ | ⟨s₁, err', he, hends⟩
    · obtain ⟨d, hd, -⟩ := prepare_ok (exec_ok he)
      rw [hcoord, hv] at hd
      cases hd
    · obtain rfl := prepare_err (exec_err he)
      exact ends_holding hends (hh.congr (by rw [hcoord]))
        (by simp [unwind, machine, Action.isHandler])

theorem Inv.step {l : EngineCall} (hi : Inv (s, ledger)) (ho : orderly (s, ledger) l = true)
    (hs : (machine cfg).sequential.step s l = some s') : Inv (s', observe ledger s l s') := by
  cases l with
  | idle ev =>
    have hc := (env_untouched hs).1
    refine hi.of_holding (hi.epochs.congr (by rw [hc])) (fun _ _ _ => id) fun _ _ _ _ _ _ hh => ?_
    exact hh.congr (by rw [hc])
  | play r turns =>
    obtain ⟨⟨s₁, b⟩, hplay, rfl⟩ := map_eq_some_iff.1 hs
    have hends := (play_ends hplay).1
    have hplain (hstart : ∀ t e, ∀ a ∈ r.start, spares t e a) : Inv (s₁, ledger) :=
      hi.of_holding (ends_epochInv hends hi.epochs) (fun _ _ _ => id)
        fun t e _ _ _ _ hh => ends_holding hends hh (hstart t e)
    cases r with
    | txnOffsetCommit t pid e group offsets => exact inv_stage hi ho hends
    | txnEnd call => exact inv_end hi hends
    | maintainTransactions => cases ho
    | initProducer t timeout pid e =>
      cases t with
      | none => exact hplain (by simp [Request.start, spares])
      | some t => exact inv_init hi ho hends
    | _ => exact hplain (by simp [Request.start, spares])

theorem reach_inv (h : (system cfg).Reach (fun p l => orderly p l = true) (Engine.opened, ∅) p) :
    Inv p :=
  h.invariant_observe inv_initially fun hi ho hs => hi.step ho hs

/-! ## A `txn_end` with no other transaction open -/

theorem alone_modifyDetail (h : alone coord call = true) :
    alone (coord.modifyDetail call.transactionId call.producerEpoch f) call = true := by
  refine alone_iff.2 fun t e d hd hne => alone_iff.1 h t e d ?_ hne
  rwa [detail?_modifyDetail, if_neg fun heq => hne ⟨heq.1.symm, heq.2.symm⟩] at hd

section

variable (ha : alone coord call = true)
  (hd : coord.txnDetail call.transactionId call.producerId call.producerEpoch = .ok d)
include ha hd

theorem resolve_alone :
    coord.resolve call = match CoordState.terminal d.state with
      | none => (coord, [])
      | some state =>
        (coord.modifyDetail call.transactionId call.producerEpoch (·.finish state),
          [CoordState.effects d (CoordState.ownRef call) state]) := by
  obtain ⟨hp, -, hd⟩ := txnDetail_eq_ok.1 hd
  rw [CoordState.resolve, peers_eq_nil ha hp]
  cases hterm : CoordState.terminal d.state <;>
    simp only [nil_append, foldl_cons, foldl_nil, CoordState.resolveRef,
      CoordState.ownRef, hd, hterm]

theorem not_deferred : coord.deferred call = false := by
  rw [CoordState.deferred, peers_eq_nil ha (txnDetail_eq_ok.1 hd).1]
  rfl

end

/-! ### Abort -/

/-- The sections of an abort that is alone. -/
def aborts (call : TxnEnd) (a : Action) : Prop :=
  calm a = true ∨ a = .txn (.prepare call) ∨ a = .txn (.resolve call)

theorem effects_offsets_abort {state : TxnState} (hc : call.committed = false) :
    (CoordState.effects d (CoordState.ownRef call) state).offsets = [] := by
  simp [CoordState.effects, CoordState.ownRef, TxnState.prepare, hc]

theorem run_aborts (hc : call.committed = false) (ha : aborts call a)
    (halone : alone s.coord call = true) (h : a.run cfg s c = .ok s' next) :
    s'.groupOffsets = s.groupOffsets ∧ alone s'.coord call = true ∧ ∀ b ∈ next, aborts call b := by
  rcases ha with ha | rfl | rfl
  · obtain ⟨hcalm, hnext⟩ := run_calm ha h
    exact ⟨hcalm.groupOffsets, hcalm.alone halone, fun b hb => .inl (hnext b hb)⟩
  · obtain ⟨d, hd, ⟨-, rfl, rfl⟩ | ⟨-, rfl, rfl⟩⟩ := prepare_ok h
    · refine ⟨rfl, alone_modifyDetail halone, fun b hb => ?_⟩
      rcases mem_append.1 hb with hb | hb
      · rcases mem_cons.1 hb with rfl | hb
        · exact .inl rfl
        · obtain ⟨_, rfl⟩ := mem_markers hb
          exact .inl rfl
      · exact .inr (.inr (mem_singleton.1 hb))
    · exact ⟨rfl, halone, fun b hb => .inr (.inr (mem_singleton.1 hb))⟩
  · obtain ⟨d, hd, ⟨-, rfl, rfl⟩ | ⟨-, rfl, rfl⟩⟩ := resolve_ok h
    · exact ⟨rfl, halone, by simp⟩
    · rw [resolve_alone halone hd]
      cases CoordState.terminal d.state with
      | none => exact ⟨rfl, halone, by simp [Transactions.terminalRecords,
          Transactions.offsetCommits, Transactions.byGroup]⟩
      | some state =>
        refine ⟨rfl, alone_modifyDetail halone, fun b hb => ?_⟩
        rcases mem_resolution hb with ⟨_, -, _, rfl⟩ | ⟨_, -, _, -, rfl⟩ | hb
        · exact .inl rfl
        · exact .inl rfl
        · -- Nothing is committed: the reference asks for an abort.
          simp [Transactions.offsetCommits, Transactions.byGroup, effects_offsets_abort hc] at hb

/-- An abort leaves the group offsets as they are, whatever its sections return. -/
theorem abort_groupOffsets (hc : call.committed = false) (halone : alone s.coord call = true)
    (h : (machine cfg).Ends s (Request.start (.txnEnd call)) s') :
    s'.groupOffsets = s.groupOffsets := by
  have hkept : s'.groupOffsets = s.groupOffsets ∧ alone s'.coord call = true := by
    refine h.invariant (I := fun s' => s'.groupOffsets = s.groupOffsets ∧
      alone s'.coord call = true)
      (P := aborts call) ⟨rfl, halone⟩ (fun a ha => ?_) (fun hi he => ?_) (fun hi ha he => ?_)
      fun hi _ he => ?_
    · simp only [Request.start, mem_cons, not_mem_nil, or_false] at ha
      rcases ha with rfl | rfl
      · exact .inr (.inl rfl)
      · exact .inl rfl
    · have hcalm := env_calm he
      exact ⟨hcalm.groupOffsets.trans hi.1, hcalm.alone hi.2⟩
    · obtain ⟨hg, ha', hnext⟩ := run_aborts hc ha hi.2 (exec_ok he)
      exact ⟨⟨hg.trans hi.1, ha'⟩, hnext⟩
    · have hcalm := run_err_calm (exec_err he)
      exact ⟨hcalm.groupOffsets.trans hi.1, hcalm.alone hi.2⟩
  exact hkept.1

/-! ### Commit -/

/-- Up to the resolution, a commit keeps what was staged and moves the caller's
epoch to where the resolution ends it as committed. -/
theorem prepare_completes (hc : call.committed = true) (halone : alone s.coord call = true)
    (hd : s.coord.detail? call.transactionId call.producerEpoch = some d) (hon : ongoing d = true)
    (h : (machine cfg).Completes s (.txn (.prepare call) :: rest) s') :
    ∃ s₂ d₂, (machine cfg).Completes s₂ (.txn (.resolve call) :: rest) s' ∧
      s₂.coord.topics = s.coord.topics ∧ alone s₂.coord call = true ∧
      s₂.coord.detail? call.transactionId call.producerEpoch = some d₂ ∧
      d₂.offsets = d.offsets ∧ CoordState.terminal d₂.state = some .committed := by
  obtain ⟨s₀, c, s₁, next, hidle, he, hrest⟩ := h.first
  have hcalm := idle_calm hidle.ends
  obtain ⟨d₀, hd₀, hstate₀, hoff₀⟩ := hcalm.detail hd
  obtain ⟨d₁, hd₁, hcase⟩ := prepare_ok (exec_ok he)
  obtain ⟨-, -, hd₁⟩ := txnDetail_eq_ok.1 hd₁
  rw [hd₀] at hd₁
  cases hd₁
  rcases hcase with ⟨-, rfl, rfl⟩ | ⟨hnot, rfl, rfl⟩
  · rw [append_assoc] at hrest
    obtain ⟨s₂, hfront, hback⟩ := hrest.split
    have hfront := ends_calm hfront.ends fun a ha => by
      rcases mem_cons.1 ha with rfl | ha
      · rfl
      · obtain ⟨_, rfl⟩ := mem_markers ha
        rfl
    have hprep : (s₀.coord.modifyDetail call.transactionId call.producerEpoch
        (·.prepare call.committed)).detail? call.transactionId call.producerEpoch =
          some (d₀.prepare call.committed) := by
      simp [detail?_modifyDetail, hd₀]
    obtain ⟨d₂, hd₂, hstate₂, hoff₂⟩ := hfront.detail hprep
    refine ⟨s₂, d₂, hback, hfront.topics.trans hcalm.topics,
      hfront.alone (alone_modifyDetail (hcalm.alone halone)), hd₂, hoff₂.trans hoff₀, ?_⟩
    rw [hstate₂]
    simp [TxnDetail.prepare, TxnState.prepare, hc, CoordState.terminal]
  · refine ⟨_, d₀, hrest, hcalm.topics, hcalm.alone halone, hd₀, hoff₀, ?_⟩
    rw [hstate₀] at hnot ⊢
    rw [(of_decide_eq_true hon).resolve_right hnot]
    rfl

/-- The resolution leads to the commits of what was staged. -/
theorem resolve_completes (halone : alone s.coord call = true)
    (hd : s.coord.detail? call.transactionId call.producerEpoch = some d)
    (hterm : CoordState.terminal d.state = some .committed)
    (h : (machine cfg).Completes s (.txn (.resolve call) :: rest) s') :
    ∃ s₂, (machine cfg).Completes s₂ (Transactions.offsetCommits
        [CoordState.effects d (CoordState.ownRef call) .committed] ++ rest) s' ∧
      s₂.coord.topics = s.coord.topics := by
  obtain ⟨s₀, c, s₁, next, hidle, he, hrest⟩ := h.first
  have hcoord := idle_coord hidle.ends
  rw [← hcoord] at halone hd ⊢
  obtain ⟨d', hd', ⟨hdef, -⟩ | ⟨-, rfl, rfl⟩⟩ := resolve_ok (exec_ok he)
  · rw [not_deferred halone hd'] at hdef
    cases hdef
  obtain rfl : d' = d := by
    obtain ⟨-, -, hd'⟩ := txnDetail_eq_ok.1 hd'
    exact Option.some.inj (hd'.symm.trans hd)
  rw [resolve_alone halone hd', hterm, append_assoc] at hrest
  obtain ⟨s₂, hfront, hback⟩ := hrest.split
  refine ⟨s₂, hback, (ends_calm hfront.ends fun a ha => ?_).topics⟩
  rcases mem_append.1 ha with ha | ha
  · obtain ⟨_, -, _, rfl⟩ := mem_terminalRecords ha
    rfl
  · obtain ⟨_, -, _, -, rfl⟩ := mem_releases.1 ha
    rfl

/-- An offset commit that completes has inserted what it accepts. -/
theorem commit_completes {offsets : List (Topition × OffsetCommitRequest)}
    (h : (machine cfg).Completes s (.offsets (.commit group offsets) :: rest) s') :
    ∃ s₂, (machine cfg).Completes s₂ rest s' ∧ s₂.coord.topics = s.coord.topics ∧
      s₂.groupOffsets = (Offsets.accepted offsets s.coord.topics.keys).foldl
        (fun m o => m.insert (group, o.1) o.2) s.groupOffsets := by
  obtain ⟨s₀, _, _, _, hidle, he, hrest⟩ := h.first
  have hcalm := idle_calm hidle.ends
  cases exec_ok he
  obtain ⟨s₁, _, _, _, hidle, he, hrest⟩ := hrest.first
  have hcalm₁ := hcalm.trans (idle_calm hidle.ends)
  cases exec_ok he
  obtain ⟨s₂, hlog, hrest⟩ := hrest.split
  have hcalm₂ := ends_calm hlog.ends fun a ha => by
    split at ha
    · cases ha
    · rw [mem_singleton.1 ha]
      rfl
  refine ⟨s₂, hrest, hcalm₂.topics.trans hcalm₁.topics, ?_⟩
  rw [hcalm₂.groupOffsets]
  simp only [hcalm₁.groupOffsets, hcalm.topics]

/-- The commits of a list of groups, one after another. -/
theorem commits_complete {l : List (Group × List (Topition × OffsetCommitRequest))}
    (h : (machine cfg).Completes s ((l.map fun x => .offsets (.commit x.1 x.2)) ++ rest) s') :
    ∃ s₂, (machine cfg).Completes s₂ rest s' ∧
      s₂.groupOffsets = (l.flatMap fun x => (Offsets.accepted x.2 s.coord.topics.keys).map
        fun o => ((x.1, o.1), o.2)).foldl (fun m o => m.insert o.1 o.2) s.groupOffsets := by
  induction l generalizing s with
  | nil => exact ⟨s, h, rfl⟩
  | cons x l ih =>
    obtain ⟨s₁, hrest, htopics, hg⟩ := commit_completes h
    obtain ⟨s₂, hrest, hg₂⟩ := ih hrest
    refine ⟨s₂, hrest, ?_⟩
    rw [hg₂, hg, htopics, flatMap_cons, foldl_append, foldl_map]

/-- Everything staged for an existing topic is applied by its commits. -/
theorem applied_of_completes (hc : call.committed = true) {co : TxnCommitOffset}
    (h : (machine cfg).Completes s (Transactions.offsetCommits
      [CoordState.effects d (CoordState.ownRef call) .committed] ++ [.answer call]) s')
    (hco : d.offsets[(group, tp)]? = some co) (htopic : tp.topic ∈ s.coord.topics) :
    s'.groupOffsets[(group, tp)]? = some (asCommit co) := by
  obtain ⟨s₂, hanswer, hg⟩ := commits_complete h
  have hcalm := ends_calm hanswer.ends (by simp [calm])
  rw [hcalm.groupOffsets, hg]
  have hprepare : (CoordState.ownRef call).state = .prepareCommit := by
    simp [CoordState.ownRef, TxnState.prepare, hc]
  -- What the commits carry is what was staged, one offset for each partition.
  have hcarried (request : OffsetCommitRequest) :
      ((group, tp), request) ∈ ((Transactions.byGroup
        [CoordState.effects d (CoordState.ownRef call) .committed]).toList.flatMap fun x =>
          (Offsets.accepted x.2 s.coord.topics.keys).map fun o => ((x.1, o.1), o.2)) ↔
        request = asCommit co := by
    simp only [mem_flatMap, List.mem_map, Prod.mk.injEq, Prod.exists, Offsets.accepted,
      List.mem_filter, decide_eq_true_eq]
    constructor
    · rintro ⟨g, os, hmem, tp', r, ⟨hr, -⟩, ⟨rfl, rfl⟩, rfl⟩
      obtain ⟨_, heff, co', hco', rfl⟩ :=
        offsets_of_commit (Direction.mem_offsetCommits_iff.2
          (mem_toList_iff_getElem?_eq_some.1 hmem)) hr
      rw [mem_singleton.1 heff, mem_effects_offsets] at hco'
      have := mem_toList_iff_getElem?_eq_some.1 hco'.2
      rw [hco] at this
      cases this
      rfl
    · rintro rfl
      have hmem : (group, tp, co) ∈
          (CoordState.effects d (CoordState.ownRef call) .committed).offsets :=
        mem_effects_offsets.2 ⟨hprepare, mem_toList_iff_getElem?_eq_some.2 hco⟩
      obtain ⟨os, hos, htp⟩ := commit_of_offsets (mem_singleton_self _) hmem
      refine ⟨group, os, mem_toList_iff_getElem?_eq_some.2
        (Direction.mem_offsetCommits_iff.1 hos), tp, _, ⟨htp, ?_⟩, ⟨rfl, rfl⟩, rfl⟩
      exact ExtTreeMap.mem_keys.2 htopic
  refine getElem?_foldl_insert_of_mem ((group, tp), asCommit co) ((hcarried _).2 rfl) ?_
  rintro ⟨k, request⟩ hy hkey
  obtain rfl : k = (group, tp) := hkey
  exact (hcarried request).1 hy

/-! ## Main result -/

/-- **Staged offsets are kept.**  Where offsets are staged in an epoch that is new
or open, a `txn_end` with no other transaction open either commits and applies
every offset staged since the previous one, or aborts and applies nothing. -/
theorem staged_offsets_kept
    (h : (system cfg).Reach (fun p l => orderly p l = true) (Engine.opened, ∅) p)
    {turns : List (Turn Choice Env)} {answered : Bool}
    (hplay : (machine cfg).play turns p.1 (Request.start (.txnEnd call)) = some (s', answered))
    (halone : alone p.1.coord call = true) :
    (call.committed = true → answered = true → ∀ m (group : Group) (tp : Topition) co,
      p.2[(call.transactionId, call.producerEpoch)]? = some m → m[(group, tp)]? = some co →
      tp.topic ∈ p.1.coord.topics → s'.groupOffsets[(group, tp)]? = some (asCommit co)) ∧
    (call.committed = false → s'.groupOffsets = p.1.groupOffsets) := by
  refine ⟨?_, fun hc => abort_groupOffsets hc halone ((play_ends hplay).1)⟩
  rintro hc rfl m group tp co hm hco htopic
  obtain ⟨-, d, hd, hon, hstaged⟩ := (reach_inv h).staged _ _ m hm
  obtain ⟨s₁, d₁, hresolve, htopics₁, halone₁, hd₁, hoff, hterm⟩ :=
    prepare_completes hc halone hd hon ((play_ends hplay).2 rfl)
  obtain ⟨s₂, hcommits, htopics₂⟩ := resolve_completes halone₁ hd₁ hterm hresolve
  refine applied_of_completes hc hcommits ?_ ?_
  · rw [hoff]
    exact hstaged _ co hco
  · rw [htopics₂, htopics₁]
    exact htopic

/-! ### Transactions of one producer at one epoch -/

/-- `n` sections, with the log synced before each of them. -/
def sections (n : Nat) : List (Turn Choice Env) :=
  (List.replicate n [.env (.syncWal 2 1000), .run {}]).flatten

/-- A topic with one partition and a producer of transaction `a`. -/
def setUp : List EngineCall :=
  [.play (.createTopic ⟨"p", 1, 1, none⟩) (sections 4),
    .play (.initProducer (some "a") 1000 (some (-1)) (some (-1))) (sections 3)]

/-- The producer stages an offset for the first partition. -/
def stage (offset : Int) : EngineCall :=
  .play (.txnOffsetCommit "a" 1 0 "g" [(⟨"p", 0⟩, ⟨offset, none, none⟩)]) (sections 3)

def addPartition : EngineCall := .play (.txnAddPartitions "a" 1 0 [⟨"p", 0⟩]) (sections 3)

/-- The producer commits. -/
def commit : TxnEnd := ⟨"a", 1, 0, true⟩

/-- The offset is staged, and a commit with `n` sections and no other transaction
open answers that there was no error. -/
def ready (n : Nat) (offset : Int) (p : Engine × Ledger) : Bool :=
  alone p.1.coord commit &&
    decide ((p.2[("a", (0 : Int))]?.bind (·[("g", (⟨"p", 0⟩ : Topition))]?)) =
      some ⟨offset, none, none⟩) &&
    decide ("p" ∈ p.1.coord.topics) &&
    ((machine {}).play (sections n) p.1 (Request.start (.txnEnd commit))).any (·.2)

theorem exists_play_of_ready {n : Nat} {offset : Int} (h : ready n offset p = true) :
    alone p.1.coord commit = true ∧
      (∃ m, p.2[("a", (0 : Int))]? = some m ∧
        m[("g", (⟨"p", 0⟩ : Topition))]? = some ⟨offset, none, none⟩) ∧
      "p" ∈ p.1.coord.topics ∧
      ∃ s', (machine {}).play (sections n) p.1 (Request.start (.txnEnd commit)) =
        some (s', true) := by
  simp only [ready, Bool.and_eq_true, decide_eq_true_eq, bind_eq_some_iff,
    Option.any_eq_true] at h
  obtain ⟨⟨⟨halone, hstaged⟩, htopic⟩, ⟨s', b⟩, hplay, rfl⟩ := h
  exact ⟨halone, hstaged, htopic, s', hplay⟩

/-- A transaction of offsets alone, then one that adds a partition first. -/
theorem staged_offsets_kept_twice : ∃ p s',
    (system {}).Reach (fun p l => orderly p l = true) (Engine.opened, ∅) p ∧
      (machine {}).play (sections 11) p.1 (Request.start (.txnEnd commit)) = some (s', true) ∧
      s'.groupOffsets[("g", (⟨"p", 0⟩ : Topition))]? = some { offset := 7 } := by
  have h : ((system {}).trace (fun p l => orderly p l = true) (Engine.opened, ∅)
      (setUp ++ [stage 5, .play (.txnEnd commit) (sections 9), addPartition, stage 7])).any
      (ready 11 7) = true := by
    decide +kernel
  obtain ⟨p, hp, hready⟩ := reach_of_any h
  obtain ⟨halone, ⟨m, hm, hco⟩, htopic, s', hplay⟩ := exists_play_of_ready hready
  refine ⟨p, s', hp, hplay, ?_⟩
  exact (staged_offsets_kept hp hplay halone).1 rfl rfl m "g" ⟨"p", 0⟩ _ hm hco htopic

/-- The second transaction stages its offset right after the first has ended: the
commit answers that there was no error and applies nothing. -/
theorem staged_after_terminal_lost : ∃ p s',
    (system {}).Reach (fun _ _ => True) (Engine.opened, ∅) p ∧ alone p.1.coord commit = true ∧
      (∃ m, p.2[("a", (0 : Int))]? = some m ∧
        m[("g", (⟨"p", 0⟩ : Topition))]? = some ⟨7, none, none⟩) ∧
      "p" ∈ p.1.coord.topics ∧
      (machine {}).play (sections 3) p.1 (Request.start (.txnEnd commit)) = some (s', true) ∧
      s'.groupOffsets[("g", (⟨"p", 0⟩ : Topition))]? = none := by
  have h : ((system {}).trace (fun _ _ => True) (Engine.opened, ∅)
      (setUp ++ [addPartition, .play (.txnEnd commit) (sections 7), stage 7])).any (fun p =>
        ready 3 7 p && ((machine {}).play (sections 3) p.1 (Request.start (.txnEnd commit))).all
          fun r => decide (r.1.groupOffsets[("g", (⟨"p", 0⟩ : Topition))]? = none)) = true := by
    decide +kernel
  obtain ⟨p, hp, hb⟩ := reach_of_any h
  obtain ⟨hready, hlost⟩ := Bool.and_eq_true_iff.1 hb
  obtain ⟨halone, hstaged, htopic, s', hplay⟩ := exists_play_of_ready hready
  refine ⟨p, s', hp, halone, hstaged, htopic, hplay, ?_⟩
  rw [hplay] at hlost
  exact of_decide_eq_true hlost

end Staged

end Tansu.Nvme
