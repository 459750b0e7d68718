import Tansu.Consumer.Codec

/-!
# The consumer protocol is read back within the decoder's limits

What a decoder accepts keeps to its limits, so that a value which is written is read back
exactly if it does.
-/

namespace Tansu.Consumer

open Lib

/-! ## Subscriptions -/

/-- `NullableU16String::serialize`. -/
def NullableU16String.serialize : Option String → Except Error Bytes
  | some s => U16String.serialize s
  | none => .ok (put (-1 : Int16))

namespace MemberMetadata

/-- `MemberMetadata::serialize` behind the conversion to the type of the version, which is
`todo!` for any other. -/
def serialize (mm : MemberMetadata) : Option (Except Error Bytes) :=
  let s := mm.subscription
  let subscription (rest : Except Error Bytes) :=
    cat (.ok (put mm.version)) <| cat (Sequence.serialize U16String.serialize s.topics) <|
      cat (Octets.serialize s.userData) rest
  let owned := Sequence.serialize TopicPartition.serialize (s.ownedPartitions.getD [])
  let generation : Except Error Bytes := .ok (put (s.generationId.getD (-1)))
  if mm.version = 0 then some (subscription (.ok []))
  else if mm.version = 1 then some (subscription (cat owned (.ok [])))
  else if mm.version = 2 then some (subscription (cat owned (cat generation (.ok []))))
  else if mm.version = 3 then
    some (subscription (cat owned (cat generation
      (cat (NullableU16String.serialize s.rackId) (.ok [])))))
  else none

/-- The fields that the version has. -/
def restricted (mm : MemberMetadata) : MemberMetadata :=
  let s := mm.subscription
  let ownedPartitions := some (s.ownedPartitions.getD [])
  let generationId := some (s.generationId.getD (-1))
  { mm with subscription :=
    if mm.version = 0 then { s with ownedPartitions := none, generationId := none, rackId := none }
    else if mm.version = 1 then { s with ownedPartitions, generationId := none, rackId := none }
    else if mm.version = 2 then { s with ownedPartitions, generationId, rackId := none }
    else { s with ownedPartitions, generationId } }

end MemberMetadata

variable {mm : MemberMetadata} {ma : MemberAssignment} {bs : Bytes} {x : Except Error Bytes}

theorem NullableU16String.roundTrips {o : Option String} (h : ∀ s ∈ o, (utf8 s).length ≤ 4096) :
    RoundTrips (NullableU16String.serialize o) NullableU16String.deserialize o := by
  cases o with
  | none => exact .ok ((reads_deserializeInt (-1 : Int16)).bind_nil (.pure none))
  | some s =>
    have hlength : (utf8 s).length ≤ 4096 := h s rfl
    have htoInt : (Int16.ofNat (utf8 s).length).toInt = (utf8 s).length :=
      Int16.toInt_ofNat_of_lt (by omega)
    have hne : Int16.ofNat (utf8 s).length ≠ -1 := by
      intro heq
      have := congrArg Int16.toInt heq
      rw [htoInt] at this
      simp at this
    have hmax : ¬4096 < Int16.ofNat (utf8 s).length := by
      rw [Int16.lt_iff_toInt_lt, htoInt]
      simp
      omega
    simp only [NullableU16String.serialize, U16String.serialize]
    rw [if_pos (by omega), put_length16]
    refine .ok ((reads_deserializeInt _).bind ?_)
    rw [if_neg hne, if_neg hmax, Int16.toNatClampNeg_ofNat_of_lt (by omega)]
    refine (reads_bytes _).bind_nil ?_
    rw [fromUtf8_utf8]
    exact .pure (some s)

theorem MemberMetadata.roundTrips (hx : mm.serialize = some x)
    (h : mm.restricted.subscription.Fits) :
    RoundTrips x MemberMetadata.deserialize mm.restricted := by
  obtain ⟨version, topics, userData, owned, generation, rack⟩ := mm
  have htopics (ht : topics.length ≤ 1024 ∧ ∀ t ∈ topics, (utf8 t).length ≤ 4096) :=
    Sequence.roundTrips ht.1 fun t hmem => U16String.roundTrips (ht.2 t hmem)
  have howned (ho : ∀ tps ∈ some (owned.getD []), tps.length ≤ 1024 ∧
      ∀ tp ∈ tps, (utf8 tp.topic).length ≤ 4096 ∧ tp.partitions.length ≤ 1024) :=
    Sequence.roundTrips (ho _ rfl).1 fun tp hmem =>
      TopicPartition.roundTrips ((ho _ rfl).2 tp hmem).1 ((ho _ rfl).2 tp hmem).2
  simp only [serialize] at hx
  split at hx
  · next hv =>
    cases hx
    cases hv
    exact (RoundTrips.ok (reads_deserializeInt _)).cat <| (htopics h.short).cat <|
      (Octets.roundTrips h.userData).cat <| .ok (.pure _)
  split at hx
  · next hv =>
    cases hx
    cases hv
    exact (RoundTrips.ok (reads_deserializeInt _)).cat <| (htopics h.short).cat <|
      (Octets.roundTrips h.userData).cat <| (howned h.owned).cat <| .ok (.pure _)
  split at hx
  · next hv =>
    cases hx
    cases hv
    exact (RoundTrips.ok (reads_deserializeInt _)).cat <| (htopics h.short).cat <|
      (Octets.roundTrips h.userData).cat <| (howned h.owned).cat <|
        (RoundTrips.ok (reads_deserializeInt _)).cat <| .ok (.pure _)
  split at hx
  · next hv =>
    cases hx
    cases hv
    exact (RoundTrips.ok (reads_deserializeInt _)).cat <| (htopics h.short).cat <|
      (Octets.roundTrips h.userData).cat <| (howned h.owned).cat <|
        (RoundTrips.ok (reads_deserializeInt _)).cat <|
          (NullableU16String.roundTrips h.rackId).cat <| .ok (.pure _)
  · cases hx

theorem MemberMetadata.tryFrom_iff (hx : mm.serialize = some (.ok bs)) :
    MemberMetadata.tryFrom bs = .ok mm.restricted ↔ mm.restricted.subscription.Fits := by
  refine ⟨ensures_tryFrom MemberMetadata.ensures, fun h => ?_⟩
  obtain ⟨_, heq, hread⟩ := tryFrom_of_roundTrips (MemberMetadata.roundTrips hx h)
  cases heq
  exact hread

theorem MemberAssignment.tryFrom_iff (hx : ma.serialize = .ok bs) :
    MemberAssignment.tryFrom bs = .ok ma ↔ ma.assignment.Fits := by
  refine ⟨ensures_tryFrom MemberAssignment.ensures, fun h => ?_⟩
  obtain ⟨_, heq, hread⟩ := tryFrom_of_roundTrips (MemberAssignment.roundTrips h)
  cases hx.symm.trans heq
  exact hread

/-- **Round trip**: metadata and assignments that are written are read back exactly if they
keep to the limits of the decoder. -/
theorem consumer_protocol_read_back_iff (mm : MemberMetadata) (ma : MemberAssignment)
    (bs : Bytes) :
    (mm.serialize = some (.ok bs) →
      (MemberMetadata.tryFrom bs = .ok mm.restricted ↔ mm.restricted.subscription.Fits)) ∧
    (ma.serialize = .ok bs →
      (MemberAssignment.tryFrom bs = .ok ma ↔ ma.assignment.Fits)) :=
  ⟨MemberMetadata.tryFrom_iff, MemberAssignment.tryFrom_iff⟩

theorem racked_subscription_read_back : ∃ bs, MemberMetadata.tryFrom bs =
    .ok ⟨3, ⟨["a", "b"], none, some [⟨"a", [0, 1]⟩], some 7, some "r"⟩⟩ := by
  let mm : MemberMetadata := ⟨3, ⟨["a", "b"], none, some [⟨"a", [0, 1]⟩], some 7, some "r"⟩⟩
  have hok : (mm.serialize.bind Except.toOption).isSome = true := by decide +kernel
  obtain ⟨bs, hbs⟩ := Option.isSome_iff_exists.1 hok
  obtain ⟨x, hx, hbs⟩ := Option.bind_eq_some_iff.1 hbs
  cases x with
  | error e => cases hbs
  | ok bs' =>
    refine ⟨bs', ((consumer_protocol_read_back_iff mm ⟨0, ⟨[], none⟩⟩ bs').1 hx).2 ?_⟩
    exact ⟨⟨by decide +kernel, by decide +kernel⟩, by decide +kernel, by decide +kernel,
      by decide +kernel⟩

/-- An assignment of 1025 partitions is written and not read back. -/
theorem long_assignment_not_read_back : ∃ bs ma, MemberAssignment.serialize ma = .ok bs ∧
    MemberAssignment.tryFrom bs ≠ .ok ma := by
  let ma : MemberAssignment := ⟨0, ⟨[⟨"t", List.replicate 1025 0⟩], none⟩⟩
  have hok : ma.serialize.isOk = true := by decide +kernel
  cases hx : ma.serialize with
  | error e =>
    rw [hx] at hok
    cases hok
  | ok bs =>
    refine ⟨bs, ma, hx, fun h => ?_⟩
    have hlong := ((MemberAssignment.tryFrom_iff hx).1 h).partitions _ (List.mem_singleton.2 rfl)
    rw [List.length_replicate] at hlong
    exact absurd hlong (by decide)

end Tansu.Consumer
