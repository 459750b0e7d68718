import Tansu.Nvme.Transactions

/-!
# Sequence numbers

What the validation of a sequence makes of the stored sequences, and how producers
number the batches they send.
-/

namespace Tansu.Nvme

open Std Tansu.Lib List Option BTreeMap

namespace Idempotent

/-- Where sequence numbers count: a producer epoch on a partition. -/
structure Slot where
  producerId : Int
  producerEpoch : Int
  topition : Topition
deriving DecidableEq

def slot (call : ProduceCall) : Slot :=
  ⟨call.batch.producerId, call.batch.producerEpoch, call.topition⟩

/-- The stored sequence, 0 where there is none. -/
def sequence (coord : CoordState) (x : Slot) : Int :=
  ((coord.producers[x.producerId]?.bind fun pd => pd.sequences[x.producerEpoch]?).bind
    (·[x.topition]?)).getD 0

variable {coord coord' : CoordState} {x : Slot} {call : ProduceCall}

/-! ## What moves a stored sequence -/

theorem sequence_of_producers (h : coord'.producers = coord.producers) (x : Slot) :
    sequence coord' x = sequence coord x := by
  simp only [sequence, h]

/-- Storing a number in the map of an epoch that is there. -/
theorem sequence_store {pd : ProducerDetail} {sequences : BTreeMap Topition Int} {n : Int}
    (hpd : coord.producers[x.producerId]? = some pd)
    (hseq : pd.sequences[x.producerEpoch]? = some sequences) (y : Slot) :
    sequence { coord with
      producers := coord.producers.insert x.producerId
        ⟨pd.sequences.modify x.producerEpoch (·.insert x.topition n)⟩ } y =
      if x = y then n else sequence coord y := by
  obtain ⟨pid, epoch, tp⟩ := x
  obtain ⟨pid', epoch', tp'⟩ := y
  dsimp only at hpd hseq
  simp only [sequence, getElem?_insert_eq, Slot.mk.injEq]
  by_cases hp : pid = pid'
  · subst hp
    simp only [if_true, true_and, bind_some, BTreeMap.getElem?_modify_eq, hpd]
    by_cases he : epoch = epoch'
    · subst he
      simp only [if_true, true_and, hseq, map_some, bind_some,
        getElem?_insert_eq]
      split <;> rfl
    · simp [he]
  · simp [hp]

/-- **What the validation does**: a batch that does not carry the stored sequence
is refused and leaves all sequences as they are. -/
theorem sequenced_cases (coord : CoordState) (hi : call.batch.isIdempotent = true) :
    (∃ e, (Produce.sequenced coord call).2 = .error e ∧
      (∀ x, sequence (Produce.sequenced coord call).1 x = sequence coord x) ∧
      (e = .api .duplicateSequenceNumber →
        call.batch.baseSequence < sequence coord (slot call))) ∨
    ((Produce.sequenced coord call).2 = .ok () ∧
      call.batch.baseSequence = sequence coord (slot call) ∧
      ∀ x, sequence (Produce.sequenced coord call).1 x = if slot call = x then
        wrapI32 (sequence coord x + wrapI32 (call.batch.lastOffsetDelta + 1))
        else sequence coord x) := by
  simp only [Produce.sequenced, hi, if_true, CoordState.validateSequence]
  cases hpd : coord.producers[call.batch.producerId]? with
  | none => exact .inl ⟨.api .unknownProducerId, rfl, fun _ => rfl, by simp⟩
  | some pd =>
    cases hlast : BTreeMap.lastKey? pd.sequences with
    | none =>
      simp only [hlast]
      exact .inl ⟨.api .unknownServerError, rfl, fun _ => trivial, by simp⟩
    | some current =>
      simp only [hlast]
      by_cases he : current = call.batch.producerEpoch
      · subst he
        have hmem := mem_of_lastKey? hlast
        rw [ExtTreeMap.mem_iff_isSome_getElem?] at hmem
        obtain ⟨sequences, hseq⟩ := isSome_iff_exists.1 hmem
        have hstored : (pd.sequences[call.batch.producerEpoch]?.bind (·[call.topition]?)).getD 0 =
            sequence coord (slot call) := by
          simp only [sequence, slot, hpd, bind_some]
        have hstore (n : Int) := sequence_store (x := slot call) (n := n) hpd hseq
        simp only [ne_eq, not_true_eq_false, if_false, hstored]
        split
        · refine .inl ⟨.api .outOfOrderSequenceNumber, rfl, fun x => ?_, by simp⟩
          refine (hstore _ x).trans ?_
          split
          · next h => rw [h]
          · rfl
        · split
          · next hlt =>
            refine .inl ⟨_, rfl, fun x => ?_, fun _ => hlt⟩
            refine (hstore _ x).trans ?_
            split
            · next h => rw [h]
            · rfl
          · refine .inr ⟨rfl, by omega, fun x => ?_⟩
            refine (hstore _ x).trans ?_
            split
            · next h => rw [h]
            · rfl
      · simp only [ne_eq, he, not_false_eq_true, if_true]
        exact .inl ⟨.api .producerFenced, rfl, fun _ => trivial, by simp⟩

theorem sequenced_eq (coord : CoordState) (hi : call.batch.isIdempotent = false) :
    Produce.sequenced coord call = (coord, .ok ()) := by
  simp [Produce.sequenced, hi]

theorem tryFrom_ne_duplicate {value : BitVec 16} :
    BatchAttribute.tryFrom value ≠ .error (.api .duplicateSequenceNumber) := by
  intro h
  unfold BatchAttribute.tryFrom at h
  cases hc : Compression.tryFrom value with
  | ok => simp [hc, Except.map] at h
  | error e =>
    obtain rfl : e = .api .duplicateSequenceNumber := by simpa [hc, Except.map] using h
    unfold Compression.tryFrom at hc
    split at hc <;> cases hc

theorem sequence_allocate {id timeout : Int} {t : Option String} :
    sequence (coord.allocate id t timeout) x = sequence coord x ∨
      sequence (coord.allocate id t timeout) x = 0 := by
  have hproducers : (coord.allocate id t timeout).producers = coord.producers.insert id .fresh := by
    cases t <;> rfl
  simp only [sequence, hproducers, getElem?_insert_eq]
  by_cases hid : id = x.producerId
  · right
    simp only [hid, if_true, bind_some, ProducerDetail.fresh, getElem?_insert_eq]
    split <;> simp
  · exact .inl (by simp [hid])

theorem sequence_bumpEpoch {t : String} {pid epoch timeout : Int} :
    sequence (coord.bumpEpoch t pid epoch timeout) x = sequence coord x ∨
      sequence (coord.bumpEpoch t pid epoch timeout) x = 0 := by
  simp only [sequence, CoordState.bumpEpoch, BTreeMap.getElem?_modify_eq]
  by_cases hpid : pid = x.producerId
  · cases hpd : coord.producers[x.producerId]? with
    | none => simp
    | some pd =>
      simp only [hpid, if_true, map_some, bind_some, getElem?_insert_eq]
      split
      · simp
      · exact .inl rfl
  · exact .inl (by simp [hpid])

/-! ## How producers number their batches -/

/-- The sizes of the batches of every slot, in the order of their sequence numbers. -/
structure Numbering where
  sizes : Slot → List Nat
  positive : ∀ x, ∀ size ∈ sizes x, 0 < size
  total : ∀ x, (sizes x).sum < 2 ^ 31

namespace Numbering

/-- Two batches of one record in every slot. -/
def pairs : Numbering := ⟨fun _ => [1, 1], by simp, by simp⟩

variable (n : Numbering) (x : Slot)

/-- The base sequence of the `k`-th batch. -/
def start (k : Nat) : Int := ((n.sizes x).take k).sum

/-- The call sends, or resends, one of the batches of its slot. -/
def numbers (call : ProduceCall) : Bool :=
  (List.range (n.sizes (slot call)).length).any fun k =>
    decide (call.batch.baseSequence = n.start (slot call) k ∧
      call.batch.lastOffsetDelta + 1 = ((n.sizes (slot call))[k]?.getD 0 : Nat))

variable {n x}

variable {k : Nat}

theorem start_succ (hk : k < (n.sizes x).length) :
    n.start x (k + 1) = n.start x k + ((n.sizes x)[k]?.getD 0 : Nat) := by
  unfold start
  rw [take_add_one, getElem?_eq_getElem hk]
  simp only [toList_some, sum_append, sum_singleton, getD_some]
  omega

theorem start_lt (hk : k < (n.sizes x).length) : n.start x k < n.start x (k + 1) := by
  have hpos := n.positive x _ (getElem_mem hk)
  rw [start_succ hk, getElem?_eq_getElem hk]
  simp only [getD_some]
  omega

theorem start_mono {j : Nat} (hjk : j < k) (hk : k ≤ (n.sizes x).length) :
    n.start x j < n.start x k := by
  induction k with
  | zero => omega
  | succ k ih =>
    have hlast := start_lt (n := n) (x := x) (k := k) (by omega)
    rcases Nat.lt_succ_iff_lt_or_eq.1 hjk with h | rfl
    · exact Int.lt_trans (ih h (by omega)) hlast
    · exact hlast

theorem start_inj {j : Nat} (hj : j ≤ (n.sizes x).length) (hk : k ≤ (n.sizes x).length)
    (h : n.start x j = n.start x k) : j = k := by
  rcases Nat.lt_trichotomy j k with hlt | heq | hlt
  · exact absurd h (Int.ne_of_lt (start_mono hlt hk))
  · exact heq
  · exact absurd h.symm (Int.ne_of_lt (start_mono hlt hj))

theorem start_bounds (k : Nat) : 0 ≤ n.start x k ∧ n.start x k < 2 ^ 31 := by
  have hle : ((n.sizes x).take k).sum ≤ (n.sizes x).sum := (take_sublist k _).sum_le_sum
    fun _ _ => Nat.zero_le _
  have htotal := n.total x
  unfold start
  omega

theorem numbers_iff : n.numbers call ↔
    ∃ k < (n.sizes (slot call)).length, call.batch.baseSequence = n.start (slot call) k ∧
      n.start (slot call) (k + 1) = n.start (slot call) k + (call.batch.lastOffsetDelta + 1) := by
  simp only [numbers, List.any_eq_true, mem_range, decide_eq_true_eq]
  constructor
  · rintro ⟨k, hk, hbase, hsize⟩
    exact ⟨k, hk, hbase, by rw [start_succ hk, hsize]⟩
  · rintro ⟨k, hk, hbase, hsize⟩
    rw [start_succ hk] at hsize
    exact ⟨k, hk, hbase, by omega⟩

/-- `seq` counts the first batches of its slot, each of which is `sent`. -/
def Counts (n : Numbering) (x : Slot) (seq : Int) (sent : Int → Prop) : Prop :=
  ∃ m ≤ (n.sizes x).length, seq = n.start x m ∧ ∀ j < m, sent (n.start x j)

namespace Counts

variable {seq seq' : Int} {sent sent' : Int → Prop} {call : ProduceCall}

theorem zero : n.Counts x 0 sent :=
  ⟨0, Nat.zero_le _, rfl, fun j hj => absurd hj (Nat.not_lt_zero j)⟩

theorem keep (h : n.Counts x seq sent) (hseq : seq' = seq ∨ seq' = 0)
    (hsent : ∀ k, sent k → sent' k) : n.Counts x seq' sent' := by
  rcases hseq with rfl | rfl
  · obtain ⟨m, hm, hstart, hall⟩ := h
    exact ⟨m, hm, hstart, fun j hj => hsent _ (hall j hj)⟩
  · exact zero

theorem next (h : n.Counts (slot call) seq sent) (hnum : n.numbers call)
    (hbase : call.batch.baseSequence = seq) :
    wrapI32 (seq + wrapI32 (call.batch.lastOffsetDelta + 1)) ≠ seq ∧
      ∀ sent' : Int → Prop, (∀ k, sent k → sent' k) → sent' call.batch.baseSequence →
        n.Counts (slot call) (wrapI32 (seq + wrapI32 (call.batch.lastOffsetDelta + 1))) sent' := by
  obtain ⟨m, hm, hstart, hall⟩ := h
  obtain ⟨k, hk, hcall, hsize⟩ := numbers_iff.1 hnum
  obtain rfl : k = m := start_inj (Nat.le_of_lt hk) hm (hcall.symm.trans (hbase.trans hstart))
  have hnew : wrapI32 (seq + wrapI32 (call.batch.lastOffsetDelta + 1)) =
      n.start (slot call) (k + 1) := by
    have hlow := start_bounds (n := n) (x := slot call) k
    have hhigh := start_bounds (n := n) (x := slot call) (k + 1)
    have hlt := start_lt hk
    have hdelta : wrapI32 (call.batch.lastOffsetDelta + 1) = call.batch.lastOffsetDelta + 1 :=
      Int.bmod_eq_of_le (by omega) (by omega)
    rw [hdelta, hstart, ← hsize]
    exact Int.bmod_eq_of_le (by omega) (by omega)
  refine ⟨?_, fun sent' hsent hthis => ⟨k + 1, hk, hnew, fun j hj => ?_⟩⟩
  · rw [hnew, hstart]
    exact Int.ne_of_gt (start_lt hk)
  · rcases Nat.lt_succ_iff_lt_or_eq.1 hj with hj | rfl
    · exact hsent _ (hall j hj)
    · exact hcall ▸ hthis

/-- A batch below the stored sequence is one of those that it has counted. -/
theorem sent_of_lt (h : n.Counts (slot call) seq sent) (hnum : n.numbers call)
    (hlt : call.batch.baseSequence < seq) : sent call.batch.baseSequence := by
  obtain ⟨m, hm, hstart, hall⟩ := h
  obtain ⟨k, hk, hcall, -⟩ := numbers_iff.1 hnum
  have hkm : k < m := by
    by_contra hle
    rcases Nat.lt_or_eq_of_le (Nat.le_of_not_lt hle) with hlt' | rfl
    · have := start_mono hlt' (Nat.le_of_lt hk)
      omega
    · omega
  exact hcall ▸ hall k hkm

end Counts

end Numbering

end Idempotent

end Tansu.Nvme
