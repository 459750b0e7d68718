import Tansu.Nvme.Recovery
import Tansu.Nvme.Sequences
import Tansu.Dynostore.Sections

/-!
# Sequence numbers past the end of `i32`

A client counts the offsets of its batches modulo 2^31.  The stored sequence is an
`i32` that is only ever added to, so the count of the client and that of the
storage part at the first batch that reaches 2^31.
-/

namespace Tansu.Nvme.Idempotent.Modulo

open Std Tansu.Lib Option BTreeMap
open Tansu.Nvme.Produce (sequenced)

open Tansu.Dynostore.Engine (Objects)

/-- The batches of one producer on one partition, numbered from `start` modulo 2^31. -/
def InOrder (x : Slot) : Int → List ProduceCall → Prop
  | _, [] => True
  | start, call :: calls =>
    slot call = x ∧ call.batch.baseSequence = start % 2 ^ 31 ∧
      0 ≤ call.batch.lastOffsetDelta ∧ call.batch.lastOffsetDelta < 2 ^ 31 ∧
      InOrder x (start + (call.batch.lastOffsetDelta + 1)) calls

def offsets (calls : List ProduceCall) : Int :=
  (calls.map (·.batch.lastOffsetDelta + 1)).sum

/-- The nvme engine accepts each batch, and refuses it as a duplicate when it is
sent again at once. -/
def Accepts : CoordState → List ProduceCall → Prop
  | _, [] => True
  | coord, call :: calls =>
    (sequenced coord call).2 = .ok () ∧
      (sequenced (sequenced coord call).1 call).2 = .error (.api .duplicateSequenceNumber) ∧
      Accepts (sequenced coord call).1 calls

/-- The same of the update of the metadata that a produce to dynostore makes. -/
def Stores : Objects → List ProduceCall → Prop
  | _, [] => True
  | s, call :: calls =>
    ∃ s', Dynostore.Engine.Produce.sequence s call = .ok s' [] ∧
      (∃ s'', Dynostore.Engine.Produce.sequence s' call =
        .err s'' (.api .duplicateSequenceNumber)) ∧
      Stores s' calls

/-- After each batch the sequences rebuilt from the segments accept the same next
batch as the live ones. -/
def Rebuilds (x : Slot) : CoordState → CoordState → List ProduceCall → Prop
  | _, _, [] => True
  | live, rebuilt, call :: calls =>
    let live := (sequenced live call).1
    let rebuilt := rebuilt.scanSequence call.topition call.batch
    (∀ next, slot next = x → next.batch.isIdempotent = true →
      ((sequenced live next).2 = .ok () ↔ (sequenced rebuilt next).2 = .ok ())) ∧
      Rebuilds x live rebuilt calls

/-- The epoch of the slot is the current one of a known producer. -/
def Registered (coord : CoordState) (x : Slot) : Prop :=
  ∃ pd, coord.producers[x.producerId]? = some pd ∧
    BTreeMap.lastKey? pd.sequences = some x.producerEpoch

variable {coord live rebuilt : CoordState} {x : Slot} {call : ProduceCall}
  {calls : List ProduceCall} {s : Objects} {start : Int}

/-! ## One batch -/

section

variable (h : Registered coord (slot call)) (hi : call.batch.isIdempotent = true)
include h hi

theorem Registered.validated :
    Registered (sequenced coord call).1 (slot call) ∧
      (sequenced coord call).2 =
        if sequence coord (slot call) < call.batch.baseSequence then
          .error (.api .outOfOrderSequenceNumber)
        else if call.batch.baseSequence < sequence coord (slot call) then
          .error (.api .duplicateSequenceNumber)
        else .ok () := by
  obtain ⟨pd, hpd, hlast⟩ := h
  dsimp only [slot] at hpd hlast
  have hkeep (n : Int) : Registered { coord with
      producers := coord.producers.insert call.batch.producerId
        ⟨pd.sequences.modify call.batch.producerEpoch (·.insert call.topition n)⟩ } (slot call) :=
    ⟨_, ExtTreeMap.getElem?_insert_self, lastKey?_modify.trans hlast⟩
  have hseq : (pd.sequences[call.batch.producerEpoch]?.bind (·[call.topition]?)).getD 0 =
      sequence coord (slot call) := by
    simp only [sequence, slot, hpd, bind_some]
  simp only [sequenced, hi, if_true, CoordState.validateSequence, hpd, hlast, ne_eq,
    not_true_eq_false, if_false, hseq]
  split
  · exact ⟨hkeep _, rfl⟩
  · split
    · exact ⟨hkeep _, rfl⟩
    · exact ⟨hkeep _, rfl⟩

theorem Registered.ok_iff :
    (sequenced coord call).2 = .ok () ↔ call.batch.baseSequence = sequence coord (slot call) := by
  rw [(h.validated hi).2]
  split
  · next hlt => simp only [reduceCtorEq, false_iff]; omega
  · split
    · next hlt => simp only [reduceCtorEq, false_iff]; omega
    · simp only [true_iff]; omega

theorem sequence_sequenced (hbase : call.batch.baseSequence = sequence coord (slot call)) :
    sequence (sequenced coord call).1 (slot call) =
      wrapI32 (sequence coord (slot call) + wrapI32 (call.batch.lastOffsetDelta + 1)) := by
  obtain ⟨e, he, -⟩ | ⟨-, -, hseq⟩ := sequenced_cases coord hi
  · rw [(h.ok_iff hi).2 hbase] at he
    cases he
  · simpa only [if_true] using hseq (slot call)

/-- Recovery finds the producer of a batch in the journal, and raises its sequence. -/
theorem Registered.scanned :
    Registered (coord.scanSequence call.topition call.batch) (slot call) ∧
      sequence (coord.scanSequence call.topition call.batch) (slot call) =
        max (sequence coord (slot call))
          (wrapI32 (wrapI32 (call.batch.baseSequence + call.batch.lastOffsetDelta) + 1)) := by
  obtain ⟨pd, hpd, hlast⟩ := h
  dsimp only [slot] at hpd hlast
  constructor
  · simp only [CoordState.scanSequence, hi, if_true, alter_some, hpd, getD_some]
    refine ⟨_, ExtTreeMap.getElem?_insert_self, ?_⟩
    simp [lastKey?_insert, hlast, slot]
  · simp only [sequence, CoordState.scanSequence, hi, if_true, slot, alter_some,
      getElem?_insert_eq, hpd, getD_some, bind_some]
    cases pd.sequences[call.batch.producerEpoch]? with
    | none => simp
    | some sequences => rfl

end

/-! ## Whole runs -/

theorem InOrder.idempotent (hx : x.producerId ≠ -1) (h : InOrder x start (call :: calls)) :
    call.batch.isIdempotent = true := by
  have hpid : call.batch.producerId = x.producerId := congrArg Slot.producerId h.1
  simp only [Batch.isIdempotent, hpid, h.2.1, Bool.and_eq_true, bne_iff_ne]
  omega

theorem InOrder.offsets_nonneg (h : InOrder x start calls) : 0 ≤ offsets calls := by
  induction calls generalizing start with
  | nil => exact Int.le_refl 0
  | cons call calls ih =>
    have hrest := ih h.2.2.2.2
    simp only [offsets, List.map_cons, List.sum_cons] at hrest ⊢
    have := h.2.2.1
    omega

/-- The first batch of a run is accepted; the stored sequence is then the start of
the rest of the run, or below zero if that is out of range. -/
theorem InOrder.step (hx : x.producerId ≠ -1) (h : InOrder x start (call :: calls))
    (hstart : 0 ≤ start ∧ start < 2 ^ 31) (hreg : Registered coord x)
    (hseq : sequence coord x = start) :
    (sequenced coord call).2 = .ok () ∧ Registered (sequenced coord call).1 x ∧
      if start + (call.batch.lastOffsetDelta + 1) < 2 ^ 31 then
        sequence (sequenced coord call).1 x = start + (call.batch.lastOffsetDelta + 1)
      else sequence (sequenced coord call).1 x < 0 := by
  have hi := h.idempotent hx
  obtain ⟨rfl, hbase, hlow, hhigh, -⟩ := h
  have heq : call.batch.baseSequence = sequence coord (slot call) := by omega
  refine ⟨(hreg.ok_iff hi).2 heq, (hreg.validated hi).1, ?_⟩
  rw [sequence_sequenced hreg hi heq, hseq]
  simp only [wrapI32, Int.bmod_def]
  split
  · omega
  · omega

/-- The engine follows the client just until the count reaches 2^31. -/
theorem accepts_iff (hx : x.producerId ≠ -1) (h : InOrder x start calls)
    (hstart : 0 ≤ start ∧ start < 2 ^ 31) (hreg : Registered coord x)
    (hseq : sequence coord x = start) : Accepts coord calls ↔ start + offsets calls < 2 ^ 31 := by
  induction calls generalizing coord start with
  | nil => simpa [Accepts, offsets] using hstart.2
  | cons call calls ih =>
    obtain ⟨hok, hreg', hnext⟩ := h.step hx hstart hreg hseq
    have hi := h.idempotent hx
    have htotal : offsets (call :: calls) = (call.batch.lastOffsetDelta + 1) + offsets calls := rfl
    have hnonneg := InOrder.offsets_nonneg h.2.2.2.2
    obtain ⟨rfl, hbase, hlow, hhigh, hrest⟩ := h
    -- The resend meets the sequence that the batch itself has stored.
    have hagain := (hreg'.validated hi).2
    simp only [Accepts, hok, true_and, htotal]
    split at hnext
    · next hlt =>
      rw [ih hrest ⟨by omega, hlt⟩ hreg' hnext, hagain, hnext, if_neg (by omega),
        if_pos (by omega)]
      simp only [true_and]
      omega
    · next hge =>
      rw [hagain, if_pos (by omega)]
      simp
      omega

theorem rebuilds_of_lt (hx : x.producerId ≠ -1) (h : InOrder x start calls) (hstart : 0 ≤ start)
    (htotal : start + offsets calls < 2 ^ 31) (hlive : Registered live x)
    (hseq : sequence live x = start) (hrebuilt : Registered rebuilt x)
    (hseq' : sequence rebuilt x = start) : Rebuilds x live rebuilt calls := by
  induction calls generalizing live rebuilt start with
  | nil => trivial
  | cons call calls ih =>
    have hsum : offsets (call :: calls) = (call.batch.lastOffsetDelta + 1) + offsets calls := rfl
    have hnonneg := InOrder.offsets_nonneg h.2.2.2.2
    have hlow := h.2.2.1
    obtain ⟨-, hlive', hnext⟩ := h.step hx ⟨hstart, by omega⟩ hlive hseq
    rw [if_pos (by omega)] at hnext
    have hi := h.idempotent hx
    obtain ⟨rfl, hbase, -, -, hrest⟩ := h
    obtain ⟨hrebuilt', hscan⟩ := hrebuilt.scanned hi
    -- The greatest number on disk is that of the last batch.
    have hnext' : sequence (rebuilt.scanSequence call.topition call.batch) (slot call) =
        start + (call.batch.lastOffsetDelta + 1) := by
      rw [hscan, hseq', hbase]
      simp only [wrapI32, Int.bmod_def]
      omega
    refine ⟨fun next hslot hnexti => ?_,
      ih hrest (by omega) (by omega) hlive' hnext hrebuilt' hnext'⟩
    rw [← hslot] at hlive' hrebuilt' hnext hnext'
    rw [hlive'.ok_iff hnexti, hrebuilt'.ok_iff hnexti, hnext, hnext']

theorem stored_iff (s s' : Objects) (hi : call.batch.isIdempotent = true) :
    Dynostore.Engine.Produce.sequence s call = .ok s' [] ↔
      (sequenced s.metadata.coord call).2 = .ok () ∧
        s.setCoord (sequenced s.metadata.coord call).1 = s' := by
  simp only [Dynostore.Engine.Produce.sequence, sequenced, hi, if_true]
  split
  · next hv => simp [hv]
  · next hv => simp [hv]

theorem refused_iff (s : Objects) (e : Error) (hi : call.batch.isIdempotent = true) :
    (∃ s', Dynostore.Engine.Produce.sequence s call = .err s' e) ↔
      (sequenced s.metadata.coord call).2 = .error e := by
  simp only [Dynostore.Engine.Produce.sequence, sequenced, hi, if_true]
  split
  · next hv => simp [hv]
  · next hv => simp [hv]

/-- Dynostore validates sequences as the nvme engine does. -/
theorem stores_iff (hx : x.producerId ≠ -1) (h : InOrder x start calls) :
    Stores s calls ↔ Accepts s.metadata.coord calls := by
  induction calls generalizing s start with
  | nil => rfl
  | cons call calls ih =>
    have hi := h.idempotent hx
    simp only [Stores, Accepts, stored_iff s _ hi, refused_iff _ _ hi, ih h.2.2.2.2]
    constructor
    · rintro ⟨s', ⟨hok, rfl⟩, hrest⟩
      exact ⟨hok, hrest⟩
    · intro hall
      exact ⟨_, ⟨hall.1, rfl⟩, hall.2⟩

/-- The storages number the batches of a producer as its client does exactly while
the offsets it has sent stay below 2^31. -/
theorem sequences_modulo_iff (hx : x.producerId ≠ -1) (h : InOrder x 0 calls)
    (hcoord : s.metadata.coord = live) (hlive : Registered live x) (hseq : sequence live x = 0)
    (hrebuilt : Registered rebuilt x) (hseq' : sequence rebuilt x = 0) :
    (Accepts live calls ∧ Stores s calls ∧ Rebuilds x live rebuilt calls) ↔
      offsets calls < 2 ^ 31 := by
  have haccepts := accepts_iff hx h ⟨Int.le_refl 0, by decide⟩ hlive hseq
  rw [Int.zero_add] at haccepts
  rw [stores_iff hx h, hcoord, haccepts]
  constructor
  · intro hall
    exact hall.1
  · intro htotal
    exact ⟨htotal, htotal,
      rebuilds_of_lt hx h (Int.le_refl 0) (by omega) hlive hseq hrebuilt hseq'⟩

def sent (base delta : Int) : ProduceCall :=
  ⟨none, ⟨"t", 0⟩, ⟨0, delta, 0, 1, 0, base, .client 1⟩⟩

/-- A coordinator that has handed out producer 1. -/
def fresh : CoordState := CoordState.allocate {} 1 none 0

theorem registered_fresh : Registered fresh (slot (sent 0 0)) := ⟨_, rfl, rfl⟩

theorem sequences_modulo_ten_offsets :
    Accepts fresh [sent 0 6, sent 7 2] ∧
      Stores { metadata := { coord := fresh } } [sent 0 6, sent 7 2] ∧
      Rebuilds (slot (sent 0 0)) fresh fresh [sent 0 6, sent 7 2] := by
  have h : InOrder (slot (sent 0 0)) 0 [sent 0 6, sent 7 2] :=
    ⟨rfl, rfl, by decide, by decide, rfl, rfl, by decide, by decide, trivial⟩
  exact (sequences_modulo_iff (s := { metadata := { coord := fresh } }) (by decide) h rfl
    registered_fresh rfl registered_fresh rfl).2 (by decide)

/-- The batch that completes 2^31 offsets is not recognised when it is sent again,
and the client's next batch, which starts at 0 again, is refused. -/
theorem sequence_wraps_below_zero :
    InOrder (slot (sent 0 0)) 0 [sent 0 (2 ^ 31 - 2), sent (2 ^ 31 - 1) 0, sent 0 0] ∧
      ¬Accepts fresh [sent 0 (2 ^ 31 - 2), sent (2 ^ 31 - 1) 0] ∧
      ¬Stores { metadata := { coord := fresh } } [sent 0 (2 ^ 31 - 2), sent (2 ^ 31 - 1) 0] ∧
      (sequenced (sequenced (sequenced fresh (sent 0 (2 ^ 31 - 2))).1 (sent (2 ^ 31 - 1) 0)).1
        (sent 0 0)).2 = .error (.api .outOfOrderSequenceNumber) := by
  have h : InOrder (slot (sent 0 0)) 0 [sent 0 (2 ^ 31 - 2), sent (2 ^ 31 - 1) 0] :=
    ⟨rfl, rfl, by decide, by decide, rfl, rfl, by decide, by decide, trivial⟩
  have hnot : ¬Accepts fresh [sent 0 (2 ^ 31 - 2), sent (2 ^ 31 - 1) 0] := by
    rw [accepts_iff (by decide) h (by decide) registered_fresh rfl]
    decide
  refine ⟨⟨rfl, rfl, by decide, by decide, rfl, rfl, by decide, by decide, rfl, rfl, by decide,
    by decide, trivial⟩, hnot, ?_, rfl⟩
  rw [stores_iff (by decide) h]
  exact hnot

end Tansu.Nvme.Idempotent.Modulo
