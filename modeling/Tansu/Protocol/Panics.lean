import Tansu.Protocol.Decoder
import Tansu.Records.Panics

/-!
# Where reading a frame panics

Every length in a frame is checked before it is used, apart from one: the
length of a batch in a record set, for which room is reserved first.  A decoder
that refuses a negative length there reads every frame as this one does, apart
from those that it refuses for that reason and this one panics on.
-/

namespace Tansu.Protocol

open Lib Records List Option

/-- The failure is not a panic. -/
def Fault.NoPanic : Fault → Prop
  | .panic _ => False
  | _ => True

def Panics {α : Type} (r : Except Fault α) : Prop := ∃ p, r = .error (.panic p)

variable {bs : Bytes}

theorem batchOfBytes_noPanic {libs : Libraries} {e : Fault} (h : batchOfBytes libs bs = .error e) :
    e.NoPanic := by
  unfold batchOfBytes at h
  cases hread : Deflated.Batch.tryFrom libs bs with
  | ok b =>
    rw [hread] at h
    cases h
  | error e' =>
    rw [hread] at h
    cases e' with
    | error e' =>
      cases h
      trivial
    | panic p => exact absurd ⟨p, hread⟩ (Deflated.Batch.tryFrom_not_panics libs bs)

/-! ## Record sets -/

/-- A batch of the record set has a negative length, and those before it are read. -/
inductive NegativeBatch (libs : Libraries) : Bytes → Prop
  | here (baseOffset : Int64) (batchLength : Int32) (rest : Bytes) (h : batchLength < 0) :
    NegativeBatch libs (put baseOffset ++ (put batchLength ++ rest))
  | later (baseOffset : Int64) (batchLength : Int32) (batch rest : Bytes) (h : 0 ≤ batchLength)
    (hlength : batch.length = batchLength.toNatClampNeg) (b : Deflated.Batch)
    (hread : Deflated.Batch.tryFrom libs (put baseOffset ++ put batchLength ++ batch) = .ok b)
    (hrest : NegativeBatch libs rest) :
    NegativeBatch libs (put baseOffset ++ (put batchLength ++ (batch ++ rest)))

section

variable {libs : Libraries} {bs : Bytes} {baseOffset : Int64} {batchLength : Int32}

/-- What can stand in front of a record set. -/
theorem nextBatch_cases (bs : Bytes) :
    (∃ e, nextBatch reserved bs = .error (.error e)) ∨
    (∃ baseOffset batchLength rest, batchLength < 0 ∧
      bs = put (baseOffset : Int64) ++ (put (batchLength : Int32) ++ rest) ∧
      nextBatch reserved bs = .error (.panic .capacity)) ∨
    (∃ baseOffset batchLength batch rest, 0 ≤ batchLength ∧
      batch.length = Int32.toNatClampNeg batchLength ∧
      bs = put (baseOffset : Int64) ++ (put (batchLength : Int32) ++ (batch ++ rest)) ∧
      nextBatch reserved bs = .ok (put baseOffset ++ put batchLength ++ batch, rest)) := by
  have hget {α : Type} [FixedWidth α] :
      Decoder.FailsOnly (fun e => ∃ e', e = Fault.error e')
        (Lib.get (.error .tryGet) : Decoder _ α) :=
    .get ⟨_, rfl⟩
  unfold nextBatch
  rw [Decoder.bind_run]
  cases hoffset : (Lib.get (.error .tryGet) : Decoder Fault Int64) bs with
  | error e =>
    obtain ⟨e', rfl⟩ := hget bs e hoffset
    exact .inl ⟨e', rfl⟩
  | ok out =>
    obtain ⟨baseOffset, bs₁⟩ := out
    have hbs := eq_put_of_get hoffset
    simp only
    rw [Decoder.bind_run]
    cases hlength : (Lib.get (.error .tryGet) : Decoder Fault Int32) bs₁ with
    | error e =>
      obtain ⟨e', rfl⟩ := hget bs₁ e hlength
      exact .inl ⟨e', rfl⟩
    | ok out =>
      obtain ⟨batchLength, bs₂⟩ := out
      have hbs₁ := eq_put_of_get hlength
      simp only
      split
      next hneg => exact .inr (.inl ⟨baseOffset, batchLength, bs₂, hneg, by rw [hbs, hbs₁], rfl⟩)
      next hneg =>
        rw [Decoder.bind_run]
        cases htake : Decoder.takeExact (.error .overflow : Fault)
          batchLength.toNatClampNeg bs₂ with
        | error e =>
          have htakes : Decoder.FailsOnly (fun e => ∃ e', e = Fault.error e')
              (Decoder.takeExact (.error .overflow) batchLength.toNatClampNeg) :=
            .takeExact ⟨_, rfl⟩ _
          obtain ⟨e', rfl⟩ := htakes bs₂ e htake
          exact .inl ⟨e', rfl⟩
        | ok out =>
          obtain ⟨batch, rest⟩ := out
          obtain ⟨hle, rfl, rfl⟩ := Decoder.takeExact_eq_ok htake
          refine .inr (.inr ⟨baseOffset, batchLength, _, _, Int32.not_lt.1 hneg,
            length_take_of_le hle, ?_, rfl⟩)
          rw [hbs, hbs₁, take_append_drop]

theorem length_put_Int64 (i : Int64) : (put i).length = 8 := length_put i

theorem length_put_Int32 (i : Int32) : (put i).length = 4 := length_put i

theorem put_append_ne_nil (i : Int64) (bs : Bytes) : put i ++ bs ≠ [] := by
  intro h
  have hlen := congrArg List.length h
  rw [length_append, length_put_Int64, length_nil] at hlen
  omega

theorem nextBatch_negative (h : batchLength < 0) (rest : Bytes) :
    nextBatch reserved (put baseOffset ++ (put batchLength ++ rest)) =
      .error (.panic .capacity) := by
  rw [nextBatch, Decoder.bind_run, reads_get]
  simp only
  rw [Decoder.bind_run, reads_get]
  simp only
  rw [if_pos h]
  rfl

theorem nextBatch_positive {batch : Bytes} (h : 0 ≤ batchLength)
    (hlength : batch.length = batchLength.toNatClampNeg) (rest : Bytes) :
    nextBatch reserved (put baseOffset ++ (put batchLength ++ (batch ++ rest))) =
      .ok (put baseOffset ++ put batchLength ++ batch, rest) := by
  rw [nextBatch, Decoder.bind_run, reads_get]
  simp only
  rw [Decoder.bind_run, reads_get]
  simp only
  rw [if_neg (Int32.not_lt.2 h), Decoder.bind_run, ← hlength, Decoder.Reads.takeExact]
  rfl

theorem batches_succ {α : Type} {ofBatch : Bytes → Except Fault α} {fuel : Nat} (h : bs ≠ []) :
    batches reserved ofBatch (fuel + 1) bs = (do
      let (batch, rest) ← nextBatch reserved bs
      let a ← ofBatch batch
      let as ← batches reserved ofBatch fuel rest
      pure (a :: as)) := by
  rw [batches, if_neg h]

/-- With a step for every byte, a record set panics at the first batch of a negative length. -/
theorem batches_panics_iff (fuel : Nat) :
    ∀ bs : Bytes, bs.length ≤ fuel →
      (Panics (batches reserved (batchOfBytes libs) fuel bs) ↔ NegativeBatch libs bs) := by
  induction fuel with
  | zero =>
    intro bs hfuel
    obtain rfl : bs = [] := length_eq_zero_iff.1 (Nat.le_zero.1 hfuel)
    constructor
    · rintro ⟨p, hp⟩
      cases hp
    · intro h
      generalize hnil : ([] : Bytes) = bs at h
      cases h with
      | here baseOffset => exact absurd hnil.symm (put_append_ne_nil baseOffset _)
      | later baseOffset => exact absurd hnil.symm (put_append_ne_nil baseOffset _)
  | succ fuel ih =>
    intro bs hfuel
    constructor
    · rintro ⟨p, hp⟩
      have hbs : bs ≠ [] := by
        rintro rfl
        cases hp
      rw [batches_succ hbs] at hp
      rcases nextBatch_cases bs with ⟨e, he⟩ | ⟨baseOffset, batchLength, rest, hneg, rfl, -⟩ |
        ⟨baseOffset, batchLength, batch, rest, hpos, hlength, hsplit, hnext⟩
      · rw [he] at hp
        cases hp
      · exact .here baseOffset batchLength rest hneg
      · rw [hnext] at hp
        have hp : (do
            let a ← batchOfBytes libs (put baseOffset ++ put batchLength ++ batch)
            let as ← batches reserved (batchOfBytes libs) fuel rest
            pure (a :: as)) = .error (.panic p) := hp
        have hshort : rest.length ≤ fuel := by
          rw [hsplit] at hfuel
          simp only [length_append, length_put_Int64, length_put_Int32] at hfuel
          omega
        -- a batch that does not decode ends the set with an error, so the panic is behind it
        cases hread : Deflated.Batch.tryFrom libs (put baseOffset ++ put batchLength ++ batch) with
        | error e =>
          have hof : batchOfBytes libs (put baseOffset ++ put batchLength ++ batch) =
              .error (Fault.ofBatch e) := by rw [batchOfBytes, hread]; rfl
          rw [hof] at hp
          have hpanic : Fault.ofBatch e = .panic p := Except.error.inj hp
          exact (hpanic ▸ batchOfBytes_noPanic hof : Fault.NoPanic (.panic p)).elim
        | ok b =>
          have hof : batchOfBytes libs (put baseOffset ++ put batchLength ++ batch) = .ok b := by
            rw [batchOfBytes, hread]; rfl
          rw [hof] at hp
          rw [hsplit]
          refine .later baseOffset batchLength batch rest hpos hlength b hread ?_
          refine (ih rest hshort).1 ?_
          cases hrest : batches reserved (batchOfBytes libs) fuel rest with
          | error e =>
            rw [hrest] at hp
            cases hp
            exact ⟨p, rfl⟩
          | ok as =>
            rw [hrest] at hp
            cases hp
    · intro h
      cases h with
      | here baseOffset batchLength rest hneg =>
        refine ⟨.capacity, ?_⟩
        rw [batches_succ (put_append_ne_nil baseOffset _),
          nextBatch_negative hneg]
        rfl
      | later baseOffset batchLength batch rest hpos hlength b hread hrest =>
        have hshort : rest.length ≤ fuel := by
          simp only [length_append, length_put_Int64, length_put_Int32] at hfuel
          omega
        obtain ⟨p, hp⟩ := (ih rest hshort).2 hrest
        have hof : batchOfBytes libs (put baseOffset ++ put batchLength ++ batch) = .ok b := by
          rw [batchOfBytes, hread]; rfl
        refine ⟨p, ?_⟩
        rw [batches_succ (put_append_ne_nil baseOffset _),
          nextBatch_positive hpos hlength]
        change (do
            let a ← batchOfBytes libs (put baseOffset ++ put batchLength ++ batch)
            let as ← batches reserved (batchOfBytes libs) fuel rest
            pure (a :: as)) = _
        rw [hof, hp]
        rfl

theorem recordSet_panics_iff (libs : Libraries) (bs : Bytes) :
    Panics (recordSet reserved (batchOfBytes libs) bs) ↔ NegativeBatch libs bs :=
  batches_panics_iff bs.length bs le_rfl

end

/-! ## The decoder, apart from record sets -/

/-- Two decoders agree, apart from what they do about a batch of negative length, and do not
panic otherwise. -/
abbrev Same {α : Type} (e e' : Fault) (m m' : DecM α) : Prop := Agrees Fault.NoPanic e e' m m'

namespace Same

variable {α : Type} {e e' : Fault} {m m' : DecM α}

theorem lift {p : Decoder Fault α} (hp : Decoder.FailsOnly Fault.NoPanic p) :
    Same e e' (StateT.lift p) (StateT.lift p) := Agrees.of_failsOnly hp

theorem failWith (error : Error) : Same e e' (failWith error : DecM α) (Protocol.failWith error) :=
  lift (.fail trivial)

theorem readInt [FixedWidth α] : Same e e' (readInt : DecM α) Protocol.readInt :=
  lift (.get trivial)

theorem unsignedVarint : Same e e' unsignedVarint Protocol.unsignedVarint :=
  lift (.uvarintLoop trivial trivial 0 0)

theorem setLength (length : Option Nat) :
    Same e e' (setLength length) (Protocol.setLength length) := Agrees.update _

theorem compactLengthPrefix : Same e e' compactLengthPrefix Protocol.compactLengthPrefix := by
  refine unsignedVarint.bind fun length => ?_
  split
  · exact failWith _
  · exact .pure _

theorem toUsize (length : Int) : Same e e' (toUsize length) (Protocol.toUsize length) := by
  unfold Protocol.toUsize
  split
  · exact failWith _
  · exact .pure _

theorem readBounded (length : Nat) :
    Same e e' (readBounded length) (Protocol.readBounded length) := by
  unfold Protocol.readBounded
  split
  · exact failWith _
  · exact lift (.takeExact trivial length)

theorem readMandatoryNonNullableLength :
    Same e e' readMandatoryNonNullableLength Protocol.readMandatoryNonNullableLength := by
  refine Agrees.get fun s => ?_
  split
  · exact .pure _
  split
  · exact compactLengthPrefix.bind fun _ => setLength _
  split
  · exact readInt.bind fun _ => (toUsize _).bind fun _ => setLength _
  · exact readInt.bind fun _ => (toUsize _).bind fun _ => setLength _

/-- What `deserialize_string` does once the length is read. -/
def stringBody : DecM String := do
  match (← getThe Dec).length with
  | none => Protocol.failWith .stringWithoutLength
  | some length =>
    Protocol.setLength none
    let bytes ← Protocol.readBounded length
    match Consumer.fromUtf8 bytes with
    | some s => Pure.pure s
    | none => Protocol.failWith .fromUtf8

theorem deserializeString : Same e e' deserializeString Protocol.deserializeString := by
  have hread : Same e e' stringBody stringBody := by
    refine Agrees.get fun s => ?_
    split
    · exact failWith _
    · refine (setLength _).bind fun _ => (readBounded _).bind fun bytes => ?_
      split
      · exact .pure _
      · exact failWith _
  refine Agrees.get fun s => ?_
  split
  · exact readMandatoryNonNullableLength.bind fun _ => hread
  · exact hread

theorem deserializeByteBuf : Same e e' deserializeByteBuf Protocol.deserializeByteBuf := by
  refine Agrees.get fun s => ?_
  split
  · exact compactLengthPrefix.bind fun length => readBounded length
  · exact readInt.bind fun (length : UInt32) => (Agrees.pure length.toNat).bind fun length =>
      readBounded length

theorem deserializeI16 (messages : RootMessageMeta) :
    Same e e' (deserializeI16 messages) (Protocol.deserializeI16 messages) := by
  refine readInt.bind fun v => Agrees.get fun s => ?_
  split
  · split
    · split
      · exact (Agrees.update fun _ => _).bind fun _ => .pure v
      · exact (Agrees.update fun _ => _).bind fun _ => .pure v
    · split
      · exact (Agrees.update fun _ => _).bind fun _ => .pure v
      · exact .pure v
  · exact .pure v

theorem deserializeOption (hm : Same e e' m m') :
    Same e e' (deserializeOption m) (deserializeOption m') := by
  have hsome : Same e e' (some <$> m) (some <$> m') := hm.map some
  have hnone : Same e e' (do Protocol.setLength none; Pure.pure (none : Option α))
      (do Protocol.setLength none; Pure.pure none) :=
    (setLength none).bind fun _ => .pure none
  have hlength : ∀ length, Same e e' (do Protocol.setLength length; some <$> m)
      (do Protocol.setLength length; some <$> m') :=
    fun length => (setLength length).bind fun _ => hsome
  have hvarint : ∀ length : Nat, Same e e'
      (if length = 0 then do Protocol.setLength none; Pure.pure none
        else do Protocol.setLength (some (length - 1)); some <$> m)
      (if length = 0 then do Protocol.setLength none; Pure.pure none
        else do Protocol.setLength (some (length - 1)); some <$> m') := by
    intro length
    split
    · exact hnone
    · exact hlength _
  have hrecords : ∀ length : Nat, Same e e'
      (if length = 0 then Pure.pure none else do
        modify fun s : Dec => { s with length := some length, inRecords := true }
        some <$> m)
      (if length = 0 then Pure.pure none else do
        modify fun s : Dec => { s with length := some length, inRecords := true }
        some <$> m') := by
    intro length
    split
    · exact .pure none
    · exact (Agrees.update _).bind fun _ => hsome
  refine Agrees.get fun s => ?_
  split
  · split
    · split
      · exact hlength none
      · exact .pure none
    split
    · split
      · exact compactLengthPrefix.bind hrecords
      · exact readInt.bind fun (length : UInt32) => (Agrees.pure length.toNat).bind hrecords
    split
    · split
      · exact unsignedVarint.bind hvarint
      · refine readInt.bind fun length => ?_
        split
        · exact hnone
        · exact (toUsize _).bind fun _ => hlength _
    split
    · split
      · exact unsignedVarint.bind hvarint
      · refine readInt.bind fun length => ?_
        split
        · exact hnone
        · exact (toUsize _).bind fun _ => hlength _
    split
    · refine readInt.bind fun marker => ?_
      split
      · exact .pure none
      · exact hlength none
    · exact hlength none
  · exact hnone

theorem times (hm : Same e e' m m') (n : Nat) : Same e e' (times m n) (times m' n) := by
  induction n with
  | zero => exact .pure []
  | succ n ih => exact hm.bind fun a => ih.bind fun as => .pure (a :: as)

theorem forever (hm : Same e e' m m') (fuel : Nat) :
    Same e e' (forever m fuel) (forever m' fuel) := by
  induction fuel with
  | zero => exact lift (.fail trivial)
  | succ fuel ih => exact hm.bind fun a => ih.bind fun as => .pure (a :: as)

/-- The one place where the two differ. -/
theorem nextBatch (bs : Bytes) :
    Agree Fault.NoPanic e e' (nextBatch e bs) (Protocol.nextBatch e' bs) := by
  have hget {α : Type} [FixedWidth α] (bs : Bytes) : Agree Fault.NoPanic e e'
      ((Lib.get (.error .tryGet) : Decoder Fault α) bs) (Lib.get (.error .tryGet) bs) :=
    .inr ⟨rfl, Decoder.FailsOnly.get trivial bs⟩
  refine (hget bs).bind fun out => (hget out.2).bind fun out' => ?_
  by_cases h : out'.1 < 0
  · simp only [if_pos h]
    exact .inl ⟨rfl, rfl⟩
  · simp only [if_neg h]
    exact Agree.bind (.inr ⟨rfl, Decoder.FailsOnly.takeExact trivial _ out'.2⟩) fun _ => .ok _

theorem batches {ofBatch : Bytes → Except Fault α}
    (hof : ∀ bs f, ofBatch bs = .error f → f.NoPanic) (fuel : Nat) (bs : Bytes) :
    Agree Fault.NoPanic e e' (batches e ofBatch fuel bs) (Protocol.batches e' ofBatch fuel bs) := by
  induction fuel generalizing bs with
  | zero => exact .ok []
  | succ fuel ih =>
    unfold Protocol.batches
    split
    · exact .ok []
    · exact (nextBatch bs).bind fun out => Agree.bind (.inr ⟨rfl, hof out.1⟩) fun a =>
        (ih out.2).bind fun as => .ok (a :: as)

theorem deserializeSeq (hm : Same e e' m m') {ofBatch : Bytes → Except Fault α}
    (hof : ∀ bs f, ofBatch bs = .error f → f.NoPanic) :
    Same e e' (deserializeSeq e m ofBatch) (Protocol.deserializeSeq e' m' ofBatch) := by
  have hend : ∀ (g : Dec → Dec) (as : List α), Same e e' (do modify g; Pure.pure as)
      (do modify g; Pure.pure as) := fun g as => (Agrees.update g).bind fun _ => .pure as
  refine (Agrees.update _).bind fun _ => Agrees.get fun s => (setLength none).bind fun _ => ?_
  split
  · split
    · refine (readBounded _).bind fun bytes => ?_
      have hset : Same e e'
          (StateT.lift fun rest => (recordSet e ofBatch bytes).map (·, rest))
          (StateT.lift fun rest => (recordSet e' ofBatch bytes).map (·, rest)) := by
        refine Agrees.lift fun rest => ?_
        have hmap : ∀ r : Except Fault (List α), r.map (·, rest) = r >>= fun as =>
          .ok (as, rest) := by
          intro r
          cases r <;> rfl
        rw [hmap, hmap]
        exact (batches hof _ bytes).bind fun as => .ok (as, rest)
      exact hset.bind fun as => hend _ as
    · exact (hm.times _).bind fun as => hend _ as
  · exact (show Same e e' (unbounded m) (unbounded m') from
      fun s bs => hm.forever (bs.length + 2) s bs).bind fun as => hend _ as

theorem within (fields : Fields) (hm : Same e e' m m') :
    Same e e' (within fields m) (within fields m') :=
  (Agrees.update _).bind fun _ => hm.bind fun a => (Agrees.update _).bind fun _ => .pure a

theorem deserializeStruct {name : String} (hm : Same e e' m m') :
    Same e e' (deserializeStruct name m) (deserializeStruct name m') := by
  have hend : ∀ a : α, Same e e'
      (do modify fun s : Dec => { s with containers := s.containers.tail }; Pure.pure a)
      (do modify fun s : Dec => { s with containers := s.containers.tail }; Pure.pure a) :=
    fun a => (Agrees.update _).bind fun _ => .pure a
  refine (Agrees.update _).bind fun _ => Agrees.get fun s => ?_
  split
  · split
    · exact (Agrees.update _).bind fun _ => (within _ hm).bind fun a =>
        (Agrees.update _).bind fun _ => (Agrees.pure a).bind hend
    · split
      · exact (within _ hm).bind hend
      · exact (Agrees.update _).bind fun _ => (within _ hm).bind hend
  · exact hm.bind hend

theorem deserializeEnum {name : String} (hm : Same e e' m m') :
    Same e e' (deserializeEnum name m) (deserializeEnum name m') :=
  (Agrees.update _).bind fun _ => hm.bind fun a => (Agrees.update _).bind fun _ => .pure a

theorem nextElement {field : String} (hm : Same e e' m m') :
    Same e e' (nextElement field m) (nextElement field m') := (Agrees.update _).bind fun _ => hm

theorem deserializeTagBuffer : Same e e' deserializeTagBuffer Protocol.deserializeTagBuffer := by
  have hvarint : Decoder.FailsOnly Fault.NoPanic tagBufferVarint := .uvarintLoop trivial trivial 0 0
  have hfield : Decoder.FailsOnly Fault.NoPanic TagField.deserialize := by
    refine hvarint.bind fun tag => hvarint.bind fun length => ?_
    split
    · exact .fail trivial
    · exact (Decoder.FailsOnly.takeExact trivial _).bind fun _ => .pure _
  have hbuffer : Decoder.FailsOnly Fault.NoPanic TagBuffer.deserialize := by
    refine hvarint.bind fun count => ?_
    split
    · exact .fail trivial
    · exact hfield.many count
  exact nextElement (deserializeOption ((lift hbuffer).bind fun tags =>
    (Agrees.update _).bind fun _ => .pure tags))

theorem deserializeBatch (libs : Libraries) :
    Same e e' (deserializeBatch libs) (Protocol.deserializeBatch libs) := by
  refine deserializeByteBuf.bind fun bytes => lift fun rest f h => ?_
  cases hbatch : batchOfBytes libs bytes with
  | error f' =>
    rw [hbatch] at h
    cases h
    exact batchOfBytes_noPanic hbatch
  | ok b =>
    rw [hbatch] at h
    cases h

theorem deserializeUuid : Same e e' deserializeUuid Protocol.deserializeUuid := by
  refine lift fun bs f h => ?_
  split at h
  · cases h
  · cases h
    trivial

variable (libs : Libraries) (messages : RootMessageMeta)

theorem primitive (p : Primitive) :
    Same e e' (p.deserialize libs messages e) (p.deserialize libs messages e') := by
  cases p with
  | bool => exact readInt.bind fun (v : UInt8) => .pure (v != 0)
  | bytes => exact deserializeByteBuf
  | float64 => exact readInt
  | int16 => exact deserializeI16 messages
  | int32 => exact readInt
  | int64 => exact readInt
  | int8 => exact readInt
  | records =>
    exact deserializeStruct (nextElement
      ((deserializeBatch libs).deserializeSeq fun _ _ => batchOfBytes_noPanic))
  | string => exact deserializeString
  | uint16 => exact readInt
  | uuid => exact deserializeUuid

end Same

theorem Ty.ofBatch_noPanic (t : Ty) (bs : Bytes) (f : Fault) (h : t.ofBatch bs = .error f) :
    f.NoPanic := by
  unfold Ty.ofBatch at h
  split at h
  · cases h
  · cases h
    trivial

mutual

variable (libs : Libraries) (messages : RootMessageMeta) {e e' : Fault}

/-- By induction on the type: every part of it is read by the same calls. -/
theorem Ty.deserialize_same :
    ∀ t : Ty, Same e e' (t.deserialize libs messages e) (t.deserialize libs messages e')
  | .prim p => Same.primitive libs messages p
  | .option t => (Ty.deserialize_same t).deserializeOption
  | .vec t => (Ty.deserialize_same t).deserializeSeq t.ofBatch_noPanic
  | .struct _ fields => Same.deserializeStruct ((Tys.deserialize_same fields).bind fun values =>
      Same.deserializeTagBuffer.bind fun tags => .pure (values, tags))

theorem Tys.deserialize_same :
    ∀ fields : Tys, Same e e' (fields.deserialize libs messages e)
      (fields.deserialize libs messages e')
  | .nil => .pure ()
  | .cons _ t rest => (Same.nextElement (Ty.deserialize_same t)).bind fun v =>
      (Tys.deserialize_same rest).bind fun vs => .pure (v, vs)
  | .tagged _ _ _ rest => Tys.deserialize_same rest

end

/-! ## Frames -/

section

variable (libs : Libraries) (messages : RootMessageMeta) {e e' : Fault}

theorem deserializeHeader_same :
    Same e e' (deserializeHeader messages) (deserializeHeader messages) := by
  refine Same.deserializeEnum (Agrees.get fun s => ?_)
  split
  · exact Same.deserializeStruct ((Same.nextElement (Same.deserializeI16 messages)).bind fun _ =>
      (Same.nextElement (Same.deserializeI16 messages)).bind fun _ =>
        (Same.nextElement Same.readInt).bind fun _ =>
          (Same.nextElement Same.deserializeString.deserializeOption).bind fun _ =>
            Same.deserializeTagBuffer.bind fun _ => .pure _)
  · exact Same.deserializeStruct ((Same.nextElement Same.readInt).bind fun _ =>
      Same.deserializeTagBuffer.bind fun _ => .pure _)

theorem deserializeBody_same :
    Same e e' (deserializeBody libs messages e) (deserializeBody libs messages e') := by
  refine Same.deserializeEnum (Agrees.get fun s => ?_)
  split
  · exact Same.failWith _
  · exact (Ty.deserialize_same libs messages _).bind fun _ => .pure _

theorem Frame.reader_same (s : Dec) (bs : Bytes) :
    Agree Fault.NoPanic e e' (Frame.reader libs messages e s bs)
      (Frame.reader libs messages e' s bs) := by
  have hframe : Same e e' (Frame.deserialize libs messages e)
    (Frame.deserialize libs messages e') :=
    Same.deserializeStruct ((Same.nextElement Same.readInt).bind fun _ =>
      (Same.nextElement (deserializeHeader_same messages)).bind fun _ =>
        (Same.nextElement (deserializeBody_same libs messages)).bind fun _ => .pure _)
  exact (hframe s bs).bind fun out => .ok (out.1.1, out.2)

/-- What a decoder makes of a frame from state `s` that refuses a batch of negative length with
`e`, where `Batch::next_element_seed` makes room for it. -/
def Frame.refusing (s : Dec) (bs : Bytes) (e : Error) : Except Fault Frame :=
  (Frame.reader libs messages (.error e) s bs).map Prod.fst

/-- The frame has a batch of negative length, behind what is read without an error: it is refused
for that, whatever the error for it. -/
def Frame.RefusedForLength (s : Dec) (bs : Bytes) : Prop :=
  ∀ e, Frame.refusing libs messages s bs e = .error (.error e)

theorem Frame.reader_panics_iff (s : Dec) (bs : Bytes) :
    (Panics ((Frame.reader libs messages reserved s bs).map Prod.fst) ↔
      Frame.RefusedForLength libs messages s bs) ∧
    (¬ Frame.RefusedForLength libs messages s bs → ∀ e,
      (Frame.reader libs messages reserved s bs).map Prod.fst =
        Frame.refusing libs messages s bs e) := by
  have hsame (e : Error) : Agree Fault.NoPanic reserved (.error e)
      (Frame.reader libs messages reserved s bs) (Frame.reader libs messages (.error e) s bs) :=
    Frame.reader_same libs messages s bs
  -- one error decides: the two decoders differ for all of them or for none
  rcases hsame .io with ⟨hpanic, hio⟩ | ⟨-, hquiet⟩
  · have hrefused : Frame.RefusedForLength libs messages s bs := by
      intro e
      rcases hsame e with ⟨-, he⟩ | ⟨-, hquiet⟩
      · rw [Frame.refusing, he]
        rfl
      · exact (hquiet _ hpanic).elim
    refine ⟨iff_of_true ⟨.capacity, ?_⟩ hrefused, fun h => absurd hrefused h⟩
    rw [hpanic]
    rfl
  · have hequal (e : Error) : (Frame.reader libs messages reserved s bs).map Prod.fst =
        Frame.refusing libs messages s bs e := by
      rcases hsame e with ⟨hpanic, -⟩ | ⟨he, -⟩
      · exact (hquiet _ hpanic).elim
      · rw [Frame.refusing, he]
    have hnot : ¬ Panics ((Frame.reader libs messages reserved s bs).map Prod.fst) := by
      rintro ⟨p, hp⟩
      cases hread : Frame.reader libs messages reserved s bs with
      | ok out =>
        rw [hread] at hp
        cases hp
      | error f =>
        rw [hread] at hp
        cases hp
        exact hquiet _ hread
    refine ⟨iff_of_false hnot fun hrefused => ?_, fun _ => hequal⟩
    have hboth := (hequal .io).symm.trans (hequal .overflow)
    rw [hrefused, hrefused] at hboth
    cases hboth

end

/-! ## Members -/

namespace Member

open Consumer

/-- The decoder panics in no reservation. -/
abbrev Bounded {α : Type} (p : Consumer.De α) : Prop :=
  Decoder.FailsOnly (· ≠ Consumer.Error.capacity) p

/-- The length of a sequence is bounded before room is reserved for it. -/
theorem sequence_bounded {α : Type} {item : Consumer.De α} (h : Bounded item) :
    Bounded (Sequence.deserialize item) := by
  refine (Decoder.FailsOnly.get (by simp)).bind fun length => ?_
  split
  · exact .fail (by simp)
  next hmax =>
    split
    · exact .fail (by simp)
    split
    next hlarge =>
      have hle := toNatClampNeg_le_max hmax
      unfold elementSize at hlarge
      omega
    · exact h.many _

theorem bytes_bounded (n : Nat) :
    Bounded (Decoder.many (deserializeInt : Consumer.De UInt8) n) :=
  (Decoder.FailsOnly.get (by simp)).many n

theorem string_bounded : Bounded U16String.deserialize := by
  refine (Decoder.FailsOnly.get (by simp)).bind fun length => ?_
  split
  · exact .fail (by simp)
  · refine (bytes_bounded _).bind fun bytes => ?_
    split
    · exact .pure _
    · exact .fail (by simp)

theorem nullableString_bounded : Bounded NullableU16String.deserialize := by
  refine (Decoder.FailsOnly.get (by simp)).bind fun length => ?_
  split
  · exact .pure _
  split
  · exact .fail (by simp)
  · refine (bytes_bounded _).bind fun bytes => ?_
    split
    · exact .pure _
    · exact .fail (by simp)

theorem octets_bounded : Bounded Consumer.Octets.deserialize := by
  refine (Decoder.FailsOnly.get (by simp)).bind fun length => ?_
  split
  · exact .pure _
  · exact (bytes_bounded _).bind fun bytes => .pure _

theorem topicPartitions_bounded : Bounded (Sequence.deserialize TopicPartition.deserialize) :=
  sequence_bounded (string_bounded.bind fun _ =>
    (sequence_bounded (.get (by simp))).bind fun _ => .pure _)

theorem metadata_bounded : Bounded MemberMetadata.deserialize := by
  have hint : Bounded (deserializeInt : Consumer.De Int32) :=
    .get (by simp)
  have htopics := sequence_bounded string_bounded
  refine (Decoder.FailsOnly.get (by simp)).bind fun version => ?_
  -- each version reads what the one before it reads, and more
  split
  · exact htopics.bind fun _ => octets_bounded.bind fun _ => .pure _
  split
  · exact htopics.bind fun _ => octets_bounded.bind fun _ =>
      topicPartitions_bounded.bind fun _ => .pure _
  split
  · exact htopics.bind fun _ => octets_bounded.bind fun _ =>
      topicPartitions_bounded.bind fun _ => hint.bind fun _ => .pure _
  split
  · exact htopics.bind fun _ => octets_bounded.bind fun _ =>
      topicPartitions_bounded.bind fun _ => hint.bind fun _ =>
        nullableString_bounded.bind fun _ => .pure _
  · exact .fail (by simp)

theorem assignment_bounded : Bounded MemberAssignment.deserialize :=
  (Decoder.FailsOnly.get (by simp)).bind fun _ => topicPartitions_bounded.bind fun _ =>
    octets_bounded.bind fun _ => .pure _

theorem tryFrom_ne {α : Type} {p : Consumer.De α} (h : Bounded p)
    (bs : Bytes) : Consumer.tryFrom p bs ≠ .error .capacity := by
  intro htry
  unfold Consumer.tryFrom at htry
  cases hread : p bs with
  | ok out =>
    rw [hread] at htry
    cases htry
  | error e =>
    rw [hread] at htry
    cases htry
    exact h bs _ hread rfl

end Member

namespace Example

def ofKind (kind : KindMeta) (start : Int16) (nullable : Option VersionRange) : FieldMeta :=
  .mk ⟨start, Int16.maxValue⟩ nullable kind none false .nil

/-- `ProduceRequest`. -/
def produceRequest : MessageMeta :=
  { name := "ProduceRequest"
    apiKey := 0
    flexible := ⟨9, Int16.maxValue⟩
    fields :=
      .cons "transactional_id"
        (ofKind ⟨false, .primitive .string⟩ 3 (some ⟨3, Int16.maxValue⟩)) <|
      .cons "acks" (ofKind ⟨false, .primitive .int16⟩ 0 none) <|
      .cons "timeout_ms" (ofKind ⟨false, .primitive .int32⟩ 0 none) <|
      .cons "topic_data" (.mk ⟨0, Int16.maxValue⟩ none
        ⟨true, .named "TopicProduceData"⟩ none false <|
        .cons "name" (ofKind ⟨false, .primitive .string⟩ 0 none) <|
        .cons "partition_data"
          (.mk ⟨0, Int16.maxValue⟩ none ⟨true, .named "PartitionProduceData"⟩ none false <|
            .cons "index" (ofKind ⟨false, .primitive .int32⟩ 0 none) <|
            .cons "records"
              (ofKind ⟨false, .primitive .records⟩ 0 (some ⟨0, Int16.maxValue⟩)) .nil) .nil) .nil }

def messages : RootMessageMeta :=
  { requests := fun apiKey =>
      if apiKey = 0 then some produceRequest else none
    responses := fun _ => none }

/-- A produce request in version 3 for one partition with the given record set. -/
def produce (recordSet : Bytes) : Bytes :=
  put (UInt32.ofNat (37 + recordSet.length)) ++
    [0, 0, 0, 3, 0, 0, 0, 1, 0xff, 0xff, 0xff, 0xff, 0, 1, 0, 0, 0, 0, 0, 0, 0, 1, 0, 1, 0x74,
      0, 0, 0, 1, 0, 0, 0, 0] ++ put (UInt32.ofNat recordSet.length) ++ recordSet

/-- A base offset, and a batch length of minus one. -/
def negativeLength : Bytes := [0, 0, 0, 0, 0, 0, 0, 0, 0xff, 0xff, 0xff, 0xff]

/-- A batch of one record with the given compression. -/
def batchWith (attributes : Int16) (recordData : Bytes) : Deflated.Batch :=
  { baseOffset := 0
    batchLength := Int32.ofNat (Deflated.fixedBatchLength + recordData.length)
    partitionLeaderEpoch := -1
    magic := 2
    crc := 0
    attributes
    lastOffsetDelta := 0
    baseTimestamp := 0
    maxTimestamp := 0
    producerId := -1
    producerEpoch := -1
    baseSequence := -1
    recordCount := 1
    recordData }

def faultOf {α : Type} : Except Fault α → Option Fault
  | .ok _ => none
  | .error e => some e

theorem panics_of_faultOf {α : Type} {r : Except Fault α} {p : Panic}
    (h : faultOf r = some (.panic p)) : Panics r := by
  cases r with
  | ok a => cases h
  | error e =>
    cases h
    exact ⟨p, rfl⟩

end Example

end Tansu.Protocol
