import Tansu.Lib.Wire

/-!
# The consumer protocol's codec

The metadata a member joins with and the assignment it is given are opaque
bytes to the broker and typed values to the assignors.  The codec is not
symmetric: a sequence is written with any `u32` length and read back only up to
1024 elements, a string is written with any `u16` length and read back only up
to 4096 bytes.
-/

namespace Tansu.Consumer

open Lib

/-- The errors of the codec: the input ended, or a message; `capacity` is the panic of a
reservation that is too large. -/
inductive Error
  | io
  | message (text : String)
  | capacity
deriving DecidableEq

/-! ## The values -/

structure TopicPartition where
  topic : String
  partitions : List Int32
deriving DecidableEq

structure ConsumerProtocolSubscription where
  topics : List String
  userData : Option Bytes
  ownedPartitions : Option (List TopicPartition)
  generationId : Option Int32
  rackId : Option String
deriving DecidableEq

structure MemberMetadata where
  version : Int16
  subscription : ConsumerProtocolSubscription
deriving DecidableEq

structure ConsumerProtocolAssignment where
  assignedPartitions : List TopicPartition
  userData : Option Bytes
deriving DecidableEq

structure MemberAssignment where
  version : Int16
  assignment : ConsumerProtocolAssignment
deriving DecidableEq

/-! ## Strings as bytes -/

/-- `as_bytes`. -/
def utf8 (s : String) : Bytes := s.toUTF8.data.toList

/-- `String::from_utf8`. -/
def fromUtf8 (bs : Bytes) : Option String := String.fromUTF8? ⟨bs.toArray⟩

@[simp] theorem fromUtf8_utf8 (s : String) : fromUtf8 (utf8 s) = some s := by
  simp [fromUtf8, utf8, String.fromUTF8?, s.isValidUTF8, String.fromUTF8]

variable {bs : Bytes} {α : Type} {s : String} {item : α → Except Error Bytes} {as : List α}
  {tp : TopicPartition} {ma : MemberAssignment} {x : Except Error Bytes}

/-- Only the bytes of a string are accepted as one. -/
theorem utf8_of_fromUtf8 (h : fromUtf8 bs = some s) : utf8 s = bs := by
  unfold fromUtf8 String.fromUTF8? at h
  split at h
  next hvalid =>
    cases h
    simp [utf8, String.fromUTF8]
  next => cases h

/-! ## Decoding -/

abbrev De := Decoder Error

/-- `deserialize_u8`, `deserialize_i16`, `deserialize_i32`: a big-endian integer. -/
def deserializeInt {α : Type} [FixedWidth α] : De α := get .io

/-- `U16String::deserialize`: a negative length is read as the empty string. -/
def U16String.deserialize : De String := do
  let length : Int16 ← deserializeInt
  if 4096 < length then
    Decoder.fail (.message s!"maximum string size: {length}")
  else
    let bytes ← Decoder.many deserializeInt length.toNatClampNeg
    match fromUtf8 bytes with
    | some s => pure s
    | none => Decoder.fail (.message "from_utf8")

/-- `NullableU16String::deserialize`. -/
def NullableU16String.deserialize : De (Option String) := do
  let length : Int16 ← deserializeInt
  if length = -1 then
    pure none
  else if 4096 < length then
    Decoder.fail (.message s!"maximum string size: {length}")
  else
    let bytes ← Decoder.many deserializeInt length.toNatClampNeg
    match fromUtf8 bytes with
    | some s => pure (some s)
    | none => Decoder.fail (.message "from_utf8")

/-- `Octets::deserialize`. -/
def Octets.deserialize : De (Option Bytes) := do
  let length : Int32 ← deserializeInt
  if length = -1 then
    pure none
  else
    let bytes ← Decoder.many deserializeInt length.toNatClampNeg
    pure (some bytes)

/-- The bytes of a `TopicPartition`, which is the largest element of a sequence. -/
def elementSize : Nat := 48

/-- `Sequence::deserialize`; `Vec::with_capacity` panics from `isize::MAX` bytes on. -/
def Sequence.deserialize {α : Type} (item : De α) : De (List α) := do
  let length : Int32 ← deserializeInt
  if 1024 < length then
    Decoder.fail (.message s!"consumer maximum array length: {length}")
  else if length < 0 then
    Decoder.fail (.message s!"length: {length}, caused: TryFromIntError(())")
  else if 2 ^ 63 ≤ elementSize * length.toNatClampNeg then
    Decoder.fail .capacity
  else
    Decoder.many item length.toNatClampNeg

def TopicPartition.deserialize : De TopicPartition := do
  let topic ← U16String.deserialize
  let partitions ← Sequence.deserialize deserializeInt
  pure { topic, partitions }

/-- `MemberMetadata::deserialize`: each version adds fields after the ones before it. -/
def MemberMetadata.deserialize : De MemberMetadata := do
  let version : Int16 ← deserializeInt
  if version = 0 then
    let topics ← Sequence.deserialize U16String.deserialize
    let userData ← Octets.deserialize
    pure { version, subscription :=
      { topics, userData, ownedPartitions := none, generationId := none, rackId := none } }
  else if version = 1 then
    let topics ← Sequence.deserialize U16String.deserialize
    let userData ← Octets.deserialize
    let owned ← Sequence.deserialize TopicPartition.deserialize
    pure { version, subscription :=
      { topics, userData, ownedPartitions := some owned, generationId := none, rackId := none } }
  else if version = 2 then
    let topics ← Sequence.deserialize U16String.deserialize
    let userData ← Octets.deserialize
    let owned ← Sequence.deserialize TopicPartition.deserialize
    let generationId ← deserializeInt
    pure { version, subscription :=
      { topics, userData, ownedPartitions := some owned, generationId := some generationId,
        rackId := none } }
  else if version = 3 then
    let topics ← Sequence.deserialize U16String.deserialize
    let userData ← Octets.deserialize
    let owned ← Sequence.deserialize TopicPartition.deserialize
    let generationId ← deserializeInt
    let rackId ← NullableU16String.deserialize
    pure { version, subscription :=
      { topics, userData, ownedPartitions := some owned, generationId := some generationId,
        rackId } }
  else
    Decoder.fail (.message s!"unsupported: {version}")

def MemberAssignment.deserialize : De MemberAssignment := do
  let version ← deserializeInt
  let assignedPartitions ← Sequence.deserialize TopicPartition.deserialize
  let userData ← Octets.deserialize
  pure { version, assignment := { assignedPartitions, userData } }

/-- `TryFrom<Bytes>`: what follows the value is ignored. -/
def tryFrom {α : Type} (p : De α) (bs : Bytes) : Except Error α := (p bs).map Prod.fst

def MemberMetadata.tryFrom (bs : Bytes) : Except Error MemberMetadata :=
  Consumer.tryFrom MemberMetadata.deserialize bs

def MemberAssignment.tryFrom (bs : Bytes) : Except Error MemberAssignment :=
  Consumer.tryFrom MemberAssignment.deserialize bs

/-! ## Encoding -/

/-- The text of `TryFromIntError`. -/
def outOfRange : Error := .message "out of range integral type conversion attempted"

/-- `U16String::serialize`. -/
def U16String.serialize (s : String) : Except Error Bytes :=
  if (utf8 s).length < 2 ^ 16 then
    .ok (put (UInt16.ofNat (utf8 s).length) ++ utf8 s)
  else
    .error outOfRange

/-- `Octets::serialize`. -/
def Octets.serialize : Option Bytes → Except Error Bytes
  | some bytes =>
    if bytes.length < 2 ^ 32 then
      .ok (put (UInt32.ofNat bytes.length) ++ bytes)
    else
      .error outOfRange
  | none => .ok (put (-1 : Int32))

/-- `Sequence::serialize`. -/
def Sequence.serialize {α : Type} (item : α → Except Error Bytes) (as : List α) :
    Except Error Bytes :=
  if as.length < 2 ^ 32 then
    cat (.ok (put (UInt32.ofNat as.length))) (catMany item as)
  else
    .error outOfRange

def TopicPartition.serialize (tp : TopicPartition) : Except Error Bytes :=
  cat (U16String.serialize tp.topic) (Sequence.serialize (fun p => .ok (put p)) tp.partitions)

def MemberAssignment.serialize (ma : MemberAssignment) : Except Error Bytes :=
  cat (.ok (put ma.version)) <|
    cat (Sequence.serialize TopicPartition.serialize ma.assignment.assignedPartitions)
      (Octets.serialize ma.assignment.userData)

/-! ## What is written is read back -/

variable {p : De α}

/-- A length is the same bytes unsigned, as it is written, and signed, as it is read. -/
theorem put_length32 (n : Nat) : put (UInt32.ofNat n) = put (Int32.ofNat n) := by
  have hvalue : (Int32.ofNat n).toBitVec.toNat = (UInt32.ofNat n).toNat := by
    simp [Int32.ofNat, Int32.toBitVec]
  simp only [put, FixedWidth.toNat, FixedWidth.size, hvalue]

theorem put_length16 (n : Nat) : put (UInt16.ofNat n) = put (Int16.ofNat n) := by
  have hvalue : (Int16.ofNat n).toBitVec.toNat = (UInt16.ofNat n).toNat := by
    simp [Int16.ofNat, Int16.toBitVec]
  simp only [put, FixedWidth.toNat, FixedWidth.size, hvalue]

theorem reads_deserializeInt [FixedWidth α] (a : α) :
    Decoder.Reads (deserializeInt : De α) (put a) a := reads_get Error.io a

theorem reads_bytes (bs : Bytes) :
    Decoder.Reads (Decoder.many (deserializeInt : De UInt8) bs.length) bs bs := by
  induction bs with
  | nil => exact .pure []
  | cons b bs ih =>
    have hb : put b = [b] := by simp [put, be, FixedWidth.size, FixedWidth.toNat]
    have hread := reads_deserializeInt b
    rw [hb] at hread
    exact hread.bind (ih.bind_nil (.pure (b :: bs)))

theorem U16String.roundTrips (h : (utf8 s).length ≤ 4096) :
    RoundTrips (U16String.serialize s) U16String.deserialize s := by
  have hlength : ¬ 4096 < Int16.ofNat (utf8 s).length := by
    rw [Int16.lt_iff_toInt_lt, Int16.toInt_ofNat_of_lt (by omega)]
    simp
    omega
  unfold U16String.serialize
  rw [if_pos (by omega), put_length16]
  refine .ok ((reads_deserializeInt _).bind ?_)
  rw [if_neg hlength, Int16.toNatClampNeg_ofNat_of_lt (by omega)]
  refine (reads_bytes _).bind_nil ?_
  rw [fromUtf8_utf8]
  exact .pure s

theorem Octets.roundTrips {o : Option Bytes} (h : ∀ bs ∈ o, bs.length < 2 ^ 31) :
    RoundTrips (Octets.serialize o) Octets.deserialize o := by
  cases o with
  | none => exact .ok ((reads_deserializeInt (-1 : Int32)).bind_nil (.pure none))
  | some bs =>
    have hlength : bs.length < 2 ^ 31 := h bs rfl
    have hne : Int32.ofNat bs.length ≠ -1 := by
      intro heq
      have := congrArg Int32.toInt heq
      rw [Int32.toInt_ofNat_of_lt hlength] at this
      simp at this
    simp only [Octets.serialize]
    rw [if_pos (by omega), put_length32]
    refine .ok ((reads_deserializeInt _).bind ?_)
    rw [if_neg hne, Int32.toNatClampNeg_ofNat_of_lt hlength]
    exact (reads_bytes bs).bind_nil (.pure (some bs))

/-- A sequence within the limit is decoded as its elements are. -/
theorem Sequence.deserialize_of_length {n : Nat} (h : n ≤ 1024) :
    (if 1024 < Int32.ofNat n then
      Decoder.fail (.message s!"consumer maximum array length: {Int32.ofNat n}")
    else if Int32.ofNat n < 0 then
      Decoder.fail (.message s!"length: {Int32.ofNat n}, caused: TryFromIntError(())")
    else if 2 ^ 63 ≤ elementSize * (Int32.ofNat n).toNatClampNeg then
      Decoder.fail .capacity
    else Decoder.many p (Int32.ofNat n).toNatClampNeg : De (List α)) = Decoder.many p n := by
  have htoInt : (Int32.ofNat n).toInt = n := Int32.toInt_ofNat_of_lt (by omega)
  have hmax : ¬ 1024 < Int32.ofNat n := by
    rw [Int32.lt_iff_toInt_lt, htoInt]
    simp
    omega
  have hsign : ¬ Int32.ofNat n < 0 := by
    rw [Int32.lt_iff_toInt_lt, htoInt]
    simp
  rw [if_neg hmax, if_neg hsign, Int32.toNatClampNeg_ofNat_of_lt (by omega), if_neg]
  unfold elementSize
  omega

theorem Sequence.roundTrips (h : as.length ≤ 1024) (hitem : ∀ a ∈ as, RoundTrips (item a) p a) :
    RoundTrips (Sequence.serialize item as) (Sequence.deserialize p) as := by
  unfold Sequence.serialize
  rw [if_pos (by omega), put_length32]
  refine (RoundTrips.ok (reads_deserializeInt _)).cat ?_
  rw [Sequence.deserialize_of_length h]
  exact RoundTrips.many hitem

theorem Sequence.rejects_items (h : as.length ≤ 1024)
    (hitems : Rejects (catMany item as) (Decoder.many p as.length)) :
    Rejects (Sequence.serialize item as) (Sequence.deserialize p) := by
  unfold Sequence.serialize
  rw [if_pos (by omega), put_length32]
  refine Rejects.cat_right (.ok (reads_deserializeInt _)) ?_
  rw [Sequence.deserialize_of_length h]
  exact hitems

theorem TopicPartition.roundTrips (htopic : (utf8 tp.topic).length ≤ 4096)
    (hpartitions : tp.partitions.length ≤ 1024) :
    RoundTrips (TopicPartition.serialize tp) TopicPartition.deserialize tp := by
  have hseq := Sequence.roundTrips hpartitions
    fun p _ => .ok (reads_deserializeInt p)
  exact (U16String.roundTrips htopic).cat (hseq.bind_pure (.pure tp))

/-- An assignment that keeps to the decoder's limits. -/
structure ConsumerProtocolAssignment.Fits (a : ConsumerProtocolAssignment) : Prop where
  topics : a.assignedPartitions.length ≤ 1024
  names : ∀ tp ∈ a.assignedPartitions, (utf8 tp.topic).length ≤ 4096
  partitions : ∀ tp ∈ a.assignedPartitions, tp.partitions.length ≤ 1024
  userData : ∀ bs ∈ a.userData, bs.length < 2 ^ 31

theorem MemberAssignment.roundTrips (h : ma.assignment.Fits) :
    RoundTrips (MemberAssignment.serialize ma) MemberAssignment.deserialize ma := by
  have hpartitions := Sequence.roundTrips h.topics fun tp htp =>
    TopicPartition.roundTrips (h.names tp htp) (h.partitions tp htp)
  exact (RoundTrips.ok (reads_deserializeInt _)).cat <| hpartitions.cat <|
    (Octets.roundTrips h.userData).bind_pure (.pure ma)

/-- More elements than the decoder takes are written and refused. -/
theorem Sequence.rejects (h : 1024 < as.length) :
    Rejects (Sequence.serialize item as) (Sequence.deserialize p) := by
  unfold Sequence.serialize
  split
  next hlt =>
    rw [put_length32]
    refine Rejects.cat_right (.ok (reads_deserializeInt _)) fun bs _ rest => ?_
    by_cases hmax : 1024 < Int32.ofNat as.length
    · exact ⟨_, by rw [if_pos hmax]; rfl⟩
    · -- not above the limit as an `i32`: the sign bit is set
      have hsign : Int32.ofNat as.length < 0 := by
        rw [Int32.lt_iff_toInt_lt, Int32.toInt_ofNat'] at hmax ⊢
        simp only [Int.bmod, Int32.toInt_zero] at hmax ⊢
        simp at hmax ⊢
        split at hmax <;> omega
      exact ⟨_, by rw [if_neg hmax, if_pos hsign]; rfl⟩
  next => exact fun bs hbs => by cases hbs

theorem TopicPartition.rejects (htopic : (utf8 tp.topic).length ≤ 4096)
    (hpartitions : 1024 < tp.partitions.length) :
    Rejects (TopicPartition.serialize tp) TopicPartition.deserialize :=
  Rejects.cat_right (U16String.roundTrips htopic) ((Sequence.rejects hpartitions).bind _)

/-- One topic with more partitions than the decoder takes makes an assignment undecodable. -/
theorem MemberAssignment.rejects (htopics : ma.assignment.assignedPartitions.length ≤ 1024)
    (hnames : ∀ tp ∈ ma.assignment.assignedPartitions, (utf8 tp.topic).length ≤ 4096)
    (hlong : ∃ tp ∈ ma.assignment.assignedPartitions, 1024 < tp.partitions.length) :
    Rejects (MemberAssignment.serialize ma) MemberAssignment.deserialize := by
  refine Rejects.cat_right (.ok (reads_deserializeInt _)) (Rejects.cat_left ?_ _ _)
  have hitems : Rejects (catMany TopicPartition.serialize ma.assignment.assignedPartitions)
      (Decoder.many TopicPartition.deserialize ma.assignment.assignedPartitions.length) := by
    refine Rejects.many (fun tp htp => ?_) ?_
    · by_cases h : tp.partitions.length ≤ 1024
      · exact .inl (TopicPartition.roundTrips (hnames tp htp) h)
      · exact .inr (TopicPartition.rejects (hnames tp htp) (by omega))
    · obtain ⟨tp, htp, h⟩ := hlong
      exact ⟨tp, htp, TopicPartition.rejects (hnames tp htp) h⟩
  exact Sequence.rejects_items htopics hitems

theorem tryFrom_of_rejects (h : Rejects x p) (hbs : x = .ok bs) (a : α) : tryFrom p bs ≠ .ok a := by
  obtain ⟨e, he⟩ := h bs hbs []
  rw [List.append_nil] at he
  rw [tryFrom, he]
  exact fun h => by cases h

theorem tryFrom_of_roundTrips {a : α} (h : RoundTrips x p a) :
    ∃ bs, x = .ok bs ∧ tryFrom p bs = .ok a := by
  obtain ⟨bs, hx, hread⟩ := h
  refine ⟨bs, hx, ?_⟩
  have := hread []
  rw [List.append_nil] at this
  rw [tryFrom, this]
  rfl

/-! ## What a decoder accepts -/

theorem toNatClampNeg_le {length : Int16} (h : ¬4096 < length) : length.toNatClampNeg ≤ 4096 := by
  rw [Int16.lt_iff_toInt_lt] at h
  simp only [Int16.toNatClampNeg]
  simp at h
  omega

theorem U16String.ensures :
    Decoder.Ensures U16String.deserialize fun s => (utf8 s).length ≤ 4096 := by
  refine (Decoder.Ensures.trivial _).bind fun length _ => ?_
  split
  next => exact .fail _
  next hlength =>
    refine ((Decoder.Ensures.trivial _).many _).bind fun bytes hbytes => ?_
    split
    next s hs =>
      refine .pure ?_
      rw [utf8_of_fromUtf8 hs, hbytes.1]
      exact toNatClampNeg_le hlength
    next => exact .fail _

theorem toNatClampNeg_le_max {length : Int32} (h : ¬ 1024 < length) :
    length.toNatClampNeg ≤ 1024 := by
  rw [Int32.lt_iff_toInt_lt] at h
  simp only [Int32.toNatClampNeg]
  simp at h
  omega

theorem Sequence.ensures {Q : α → Prop} (hp : Decoder.Ensures p Q) :
    Decoder.Ensures (Sequence.deserialize p) fun as => as.length ≤ 1024 ∧ ∀ a ∈ as, Q a := by
  refine (Decoder.Ensures.trivial _).bind fun length _ => ?_
  split
  next => exact .fail _
  next hmax =>
    split
    next => exact .fail _
    next =>
      split
      next => exact .fail _
      next =>
        intro bs as rest h
        obtain ⟨hlength, hall⟩ := hp.many _ bs as rest h
        exact ⟨hlength.trans_le (toNatClampNeg_le_max hmax), hall⟩

theorem NullableU16String.ensures :
    Decoder.Ensures NullableU16String.deserialize fun o => ∀ s ∈ o, (utf8 s).length ≤ 4096 := by
  refine (Decoder.Ensures.trivial _).bind fun length _ => ?_
  split
  next => exact .pure (by simp)
  next =>
    split
    next => exact .fail _
    next hlength =>
      refine ((Decoder.Ensures.trivial _).many _).bind fun bytes hbytes => ?_
      split
      next s hs =>
        refine .pure fun s' hs' => ?_
        cases hs'
        rw [utf8_of_fromUtf8 hs, hbytes.1]
        exact toNatClampNeg_le hlength
      next => exact .fail _

theorem Octets.ensures :
    Decoder.Ensures Octets.deserialize fun o => ∀ bs ∈ o, bs.length < 2 ^ 31 := by
  refine (Decoder.Ensures.trivial _).bind fun length _ => ?_
  split
  next => exact .pure (by simp)
  next =>
    refine ((Decoder.Ensures.trivial _).many _).bind fun bytes hbytes =>
      .pure fun bs hbs => ?_
    cases hbs
    rw [hbytes.1, Int32.toNatClampNeg]
    have := length.toInt_lt
    omega

theorem TopicPartition.ensures : Decoder.Ensures TopicPartition.deserialize fun tp =>
    (utf8 tp.topic).length ≤ 4096 ∧ tp.partitions.length ≤ 1024 :=
  U16String.ensures.bind fun _ htopic => (Sequence.ensures (Decoder.Ensures.trivial _)).bind
    fun _ hpartitions => .pure ⟨htopic, hpartitions.1⟩

/-- A subscription names at most 1024 topics, each of at most 4096 bytes. -/
def ConsumerProtocolSubscription.Short (s : ConsumerProtocolSubscription) : Prop :=
  s.topics.length ≤ 1024 ∧ ∀ t ∈ s.topics, (utf8 t).length ≤ 4096

/-- A subscription that keeps to the decoder's limits. -/
structure ConsumerProtocolSubscription.Fits (s : ConsumerProtocolSubscription) : Prop where
  short : s.Short
  userData : ∀ bs ∈ s.userData, bs.length < 2 ^ 31
  owned : ∀ owned ∈ s.ownedPartitions, owned.length ≤ 1024 ∧
    ∀ tp ∈ owned, (utf8 tp.topic).length ≤ 4096 ∧ tp.partitions.length ≤ 1024
  rackId : ∀ rack ∈ s.rackId, (utf8 rack).length ≤ 4096

theorem MemberMetadata.ensures :
    Decoder.Ensures MemberMetadata.deserialize fun mm => mm.subscription.Fits := by
  have htopics := Sequence.ensures U16String.ensures
  have howned := Sequence.ensures TopicPartition.ensures
  refine (Decoder.Ensures.trivial _).bind fun version _ => ?_
  split
  · exact htopics.bind fun _ ht => Octets.ensures.bind fun _ hd =>
      .pure ⟨ht, hd, by simp, by simp⟩
  split
  · exact htopics.bind fun _ ht => Octets.ensures.bind fun _ hd => howned.bind fun _ ho =>
      .pure ⟨ht, hd, by simpa using ho, by simp⟩
  split
  · exact htopics.bind fun _ ht => Octets.ensures.bind fun _ hd => howned.bind fun _ ho =>
      (Decoder.Ensures.trivial _).bind fun _ _ =>
        .pure ⟨ht, hd, by simpa using ho, by simp⟩
  split
  · exact htopics.bind fun _ ht => Octets.ensures.bind fun _ hd => howned.bind fun _ ho =>
      (Decoder.Ensures.trivial _).bind fun _ _ => NullableU16String.ensures.bind fun _ hr =>
        .pure ⟨ht, hd, by simpa using ho, hr⟩
  · exact .fail _

theorem MemberAssignment.ensures :
    Decoder.Ensures MemberAssignment.deserialize fun ma => ma.assignment.Fits :=
  (Decoder.Ensures.trivial _).bind fun _ _ => (Sequence.ensures TopicPartition.ensures).bind
    fun _ ht => Octets.ensures.bind fun _ hd => .pure
      ⟨ht.1, fun tp htp => (ht.2 tp htp).1, fun tp htp => (ht.2 tp htp).2, hd⟩

theorem ensures_tryFrom {Q : α → Prop} {a : α} (hp : Decoder.Ensures p Q)
    (h : tryFrom p bs = .ok a) : Q a := by
  unfold tryFrom at h
  cases hrun : p bs with
  | error e => rw [hrun] at h; cases h
  | ok out =>
    rw [hrun] at h
    cases h
    exact hp bs out.1 out.2 hrun

theorem MemberMetadata.short_of_tryFrom {mm : MemberMetadata}
    (h : MemberMetadata.tryFrom bs = .ok mm) : mm.subscription.Short :=
  (ensures_tryFrom MemberMetadata.ensures h).short

end Tansu.Consumer
