import Tansu.Records.Codec

/-!
# Records are read back as they were written

`wire` spells out the bytes of each part.  Encoding fails exactly when a length
does not fit an `i32`, and otherwise writes these bytes, as many of them as
`size_in_bytes` says; both decoders read them back.
-/

namespace Tansu.Records

open Lib List

/-! ## Varints -/

theorem VarInt.reads_decode (i : Int32) : Decoder.Reads VarInt.decode (VarInt.encode i) i := by
  have h := (reads_readVarint (ε := Fault) (by decide) (by decide) (.error .tryGet)
    (.error .overflow) i.toBitVec).map Int32.ofBitVec
  rwa [Int32.ofBitVec_toBitVec] at h

theorem VarInt.reads_deserialize (i : Int32) :
    Decoder.Reads VarInt.deserialize (VarInt.encode i) i := by
  have h := (reads_readVarint (ε := Fault) (by decide) (by decide) (.error .io)
    (.panic .arithmetic) i.toBitVec).map Int32.ofBitVec
  rwa [Int32.ofBitVec_toBitVec] at h

theorem LongVarInt.reads_decode (i : Int64) :
    Decoder.Reads LongVarInt.decode (LongVarInt.encode i) i := by
  have h := (reads_readVarint (ε := Fault) (by decide) (by decide) (.error .tryGet)
    (.error .overflow) i.toBitVec).map Int64.ofBitVec
  rwa [Int64.ofBitVec_toBitVec] at h

theorem LongVarInt.reads_deserialize (i : Int64) :
    Decoder.Reads LongVarInt.deserialize (LongVarInt.encode i) i := by
  have h := (reads_readVarint (ε := Fault) (by decide) (by decide) (.error .io)
    (.panic .arithmetic) i.toBitVec).map Int64.ofBitVec
  rwa [Int64.ofBitVec_toBitVec] at h

theorem VarInt.length_encode (i : Int32) : (VarInt.encode i).length = VarInt.sizeInBytes i :=
  length_varint _

theorem LongVarInt.length_encode (i : Int64) :
    (LongVarInt.encode i).length = LongVarInt.sizeInBytes i := length_varint _

/-! ## Lengths -/

theorem length_facts {n : Nat} (h : n < 2 ^ 31) :
    Int32.ofNat n ≠ -1 ∧ ¬ Int32.ofNat n < 0 ∧ asUsize (Int32.ofNat n) = n ∧
      (Int32.ofNat n).toNatClampNeg = n := by
  have htoInt : (Int32.ofNat n).toInt = n := Int32.toInt_ofNat_of_lt h
  refine ⟨?_, ?_, ?_, Int32.toNatClampNeg_ofNat_of_lt h⟩
  · intro heq
    rw [heq] at htoInt
    simp at htoInt
  · rw [Int32.lt_iff_toInt_lt, htoInt]
    simp
  · rw [asUsize, htoInt]
    omega

/-! ## Octets -/

namespace Octets

/-- The length fits an `i32`. -/
def Fits (o : Option Bytes) : Prop := ∀ bs ∈ o, bs.length < 2 ^ 31

instance (o : Option Bytes) : Decidable (Fits o) :=
  inferInstanceAs (Decidable (∀ bs ∈ o, bs.length < 2 ^ 31))

def wire : Option Bytes → Bytes
  | none => VarInt.encode (-1)
  | some data => VarInt.encode (Int32.ofNat data.length) ++ data

variable {o : Option Bytes}

theorem fits_some {data : Bytes} : Fits (some data) ↔ data.length < 2 ^ 31 := by simp [Fits]

theorem sizeInBytes_eq (o : Option Bytes) :
    sizeInBytes o = if Fits o then .ok (wire o).length else .error .tryFromInt := by
  cases o with
  | none => simp [Fits, sizeInBytes, wire, VarInt.length_encode]
  | some data =>
    by_cases h : data.length < 2 ^ 31
    · rw [if_pos (fits_some.2 h), sizeInBytes, VarInt.tryFrom, if_pos h, wire, length_append,
        VarInt.length_encode]
      rfl
    · rw [if_neg (mt fits_some.1 h), sizeInBytes, VarInt.tryFrom, if_neg h]
      rfl

theorem encode_eq (o : Option Bytes) :
    encode o = if Fits o then .ok (wire o) else .error .tryFromInt := by
  cases o with
  | none => simp [Fits, encode, wire]
  | some data =>
    rw [encode, sizeInBytes_eq]
    split
    next h =>
      rw [VarInt.tryFrom, if_pos (fits_some.1 h)]
      rfl
    next => rfl

theorem reads_decode (h : Fits o) : Decoder.Reads decode (wire o) o := by
  cases o with
  | none => exact (VarInt.reads_decode (-1)).bind_nil (.pure none)
  | some data =>
    obtain ⟨hne, -, husize, -⟩ := length_facts (fits_some.1 h)
    refine (VarInt.reads_decode _).bind ?_
    have hlength := fits_some.1 h
    rw [if_neg hne, husize, splitTo, if_pos (by omega)]
    exact (Decoder.Reads.takeExact _ data).bind_nil (.pure (some data))

theorem reads_bytes (bs : Bytes) :
    Decoder.Reads (Decoder.many deserializeU8 bs.length) bs bs := by
  induction bs with
  | nil => exact .pure []
  | cons b bs ih =>
    have hb : put b = [b] := by simp [put, be, FixedWidth.size, FixedWidth.toNat]
    have hread := reads_get (Fault.error .io) b
    rw [hb] at hread
    exact hread.bind (ih.bind_nil (.pure (b :: bs)))

theorem reads_deserialize (h : Fits o) : Decoder.Reads deserialize (wire o) o := by
  cases o with
  | none => exact (VarInt.reads_deserialize (-1)).bind_nil (.pure none)
  | some data =>
    obtain ⟨hne, hsign, -, hlength⟩ := length_facts (fits_some.1 h)
    refine (VarInt.reads_deserialize _).bind ?_
    rw [if_neg hne, if_neg hsign, hlength]
    exact (reads_bytes data).bind_nil (.pure (some data))

end Octets

/-! ## Sequences -/

/-- Encoding an element fails unless it fits, and then `size` is the length of what is written. -/
structure Sized {α : Type} (fits : α → Prop) [DecidablePred fits] (wire : α → Bytes)
    (size : α → Except Error Nat) (enc : α → Except Error Bytes) : Prop where
  size_eq : ∀ a, size a = if fits a then .ok (wire a).length else .error .tryFromInt
  enc_eq : ∀ a, enc a = if fits a then .ok (wire a) else .error .tryFromInt

/-- Two outputs that fail in the same way. -/
theorem cat_ite {P Q : Prop} [Decidable P] [Decidable Q] {x y : Bytes} {e : Error} :
    cat (if P then .ok x else .error e) (if Q then .ok y else .error e) =
      if P ∧ Q then .ok (x ++ y) else .error e := by
  by_cases hP : P <;> by_cases hQ : Q <;> simp [hP, hQ, cat] <;> rfl

namespace VarIntSequence

variable {α : Type} {fits : α → Prop} [DecidablePred fits] {wire : α → Bytes}
  {size : α → Except Error Nat} {enc : α → Except Error Bytes}

theorem catMany_eq (h : Sized fits wire size enc) (as : List α) :
    catMany enc as = if ∀ a ∈ as, fits a then .ok (as.flatMap wire) else .error .tryFromInt := by
  induction as with
  | nil => simp [catMany]
  | cons a as ih => simp only [catMany, h.enc_eq, ih, cat_ite, forall_mem_cons,
      flatMap_cons]

theorem foldlM_size (h : Sized fits wire size enc) (as : List α) (acc : Nat) :
    as.foldlM (fun acc a => (size a).map (acc + ·)) acc =
      if ∀ a ∈ as, fits a then .ok (acc + (as.flatMap wire).length) else .error .tryFromInt := by
  induction as generalizing acc with
  | nil => simp; rfl
  | cons a as ih =>
    rw [foldlM_cons, h.size_eq]
    by_cases ha : fits a
    · simp only [if_pos ha]
      change as.foldlM _ (acc + (wire a).length) = _
      rw [ih]
      simp [ha, Nat.add_assoc]
    · simp [ha]
      rfl

def Fits (fits : α → Prop) (as : List α) : Prop := as.length < 2 ^ 31 ∧ ∀ a ∈ as, fits a

instance (as : List α) : Decidable (Fits fits as) :=
  inferInstanceAs (Decidable (as.length < 2 ^ 31 ∧ ∀ a ∈ as, fits a))

def wireOf (wire : α → Bytes) (as : List α) : Bytes :=
  VarInt.encode (Int32.ofNat as.length) ++ as.flatMap wire

theorem sized (h : Sized fits wire size enc) :
    Sized (Fits fits) (wireOf wire) (VarIntSequence.sizeInBytes size)
      (VarIntSequence.encode size enc) := by
  have hsize : ∀ as, VarIntSequence.sizeInBytes size as =
      if Fits fits as then .ok (wireOf wire as).length else .error .tryFromInt := by
    intro as
    rw [VarIntSequence.sizeInBytes, VarInt.tryFrom]
    by_cases hlength : as.length < 2 ^ 31
    · rw [if_pos hlength]
      change as.foldlM _ (VarInt.sizeInBytes (Int32.ofNat as.length)) = _
      rw [foldlM_size h]
      simp only [Fits, hlength, true_and, wireOf, length_append, VarInt.length_encode]
    · rw [if_neg hlength, if_neg fun hfits => hlength hfits.1]
      rfl
  refine ⟨hsize, fun as => ?_⟩
  rw [VarIntSequence.encode, hsize]
  by_cases hfits : Fits fits as
  · rw [if_pos hfits, if_pos hfits, VarInt.tryFrom, if_pos hfits.1]
    change cat (.ok (VarInt.encode (Int32.ofNat as.length))) (catMany enc as) = _
    rw [catMany_eq h, if_pos hfits.2]
    rfl
  · rw [if_neg hfits, if_neg hfits]
    rfl

omit [DecidablePred fits] in
theorem reads_decode {item : De α} {as : List α} (hfits : Fits fits as)
    (h : ∀ a, fits a → Decoder.Reads item (wire a) a) :
    Decoder.Reads (VarIntSequence.decode item) (wireOf wire as) as := by
  obtain ⟨-, hsign, husize, -⟩ := length_facts hfits.1
  refine (VarInt.reads_decode _).bind ?_
  rw [if_neg hsign, husize]
  exact Decoder.Reads.many fun a ha => h a (hfits.2 a ha)

omit [DecidablePred fits] in
theorem reads_deserialize {item : De α} {as : List α} (hfits : Fits fits as)
    (h : ∀ a, fits a → Decoder.Reads item (wire a) a) :
    Decoder.Reads (VarIntSequence.deserialize item) (wireOf wire as) as := by
  obtain ⟨-, hsign, -, hlength⟩ := length_facts hfits.1
  refine (VarInt.reads_deserialize _).bind ?_
  rw [if_neg hsign, hlength]
  exact Decoder.Reads.many fun a ha => h a (hfits.2 a ha)

end VarIntSequence

/-! ## Headers and records -/

namespace Header

def Fits (h : Header) : Prop := Octets.Fits h.key ∧ Octets.Fits h.value

instance : DecidablePred Fits :=
  fun h => inferInstanceAs (Decidable (Octets.Fits h.key ∧ Octets.Fits h.value))

def wire (h : Header) : Bytes := Octets.wire h.key ++ Octets.wire h.value

theorem sized : Sized Fits wire sizeInBytes encode := by
  have hsize : ∀ h : Header, sizeInBytes h =
      if Fits h then .ok (wire h).length else .error .tryFromInt := by
    intro h
    rw [sizeInBytes, Octets.sizeInBytes_eq, Octets.sizeInBytes_eq]
    by_cases hkey : Octets.Fits h.key <;> by_cases hvalue : Octets.Fits h.value <;>
      simp [hkey, hvalue, Fits, wire] <;> rfl
  refine ⟨hsize, fun h => ?_⟩
  rw [encode, hsize, Octets.encode_eq, Octets.encode_eq, cat_ite]
  by_cases hfits : Fits h
  · rw [if_pos hfits, if_pos hfits]
    change (if Fits h then _ else _) = _
    rw [if_pos hfits]
    rfl
  · rw [if_neg hfits, if_neg hfits]
    rfl

theorem reads_decode (h : Header) (hfits : Fits h) : Decoder.Reads decode (wire h) h :=
  (Octets.reads_decode hfits.1).bind
    ((Octets.reads_decode hfits.2).bind_nil (.pure h))

theorem reads_deserialize (h : Header) (hfits : Fits h) : Decoder.Reads deserialize (wire h) h :=
  (Octets.reads_deserialize hfits.1).bind
    ((Octets.reads_deserialize hfits.2).bind_nil (.pure h))

end Header

namespace Record

/-- Every length in the record fits an `i32`. -/
def Fits (r : Record) : Prop :=
  Octets.Fits r.key ∧ Octets.Fits r.value ∧ VarIntSequence.Fits Header.Fits r.headers

instance : DecidablePred Fits := fun r => inferInstanceAs (Decidable
  (Octets.Fits r.key ∧ Octets.Fits r.value ∧ VarIntSequence.Fits Header.Fits r.headers))

def wire (r : Record) : Bytes :=
  VarInt.encode r.length ++ (put r.attributes ++ (LongVarInt.encode r.timestampDelta ++
    (VarInt.encode r.offsetDelta ++ (Octets.wire r.key ++ (Octets.wire r.value ++
      VarIntSequence.wireOf Header.wire r.headers)))))

theorem sized : Sized Fits wire sizeInBytes encode := by
  have hheaders := VarIntSequence.sized Header.sized
  have hsize : ∀ r : Record, sizeInBytes r =
      if Fits r then .ok (wire r).length else .error .tryFromInt := by
    intro r
    rw [sizeInBytes, Octets.sizeInBytes_eq, Octets.sizeInBytes_eq, hheaders.size_eq]
    by_cases hkey : Octets.Fits r.key
    · by_cases hvalue : Octets.Fits r.value
      · by_cases hhead : VarIntSequence.Fits Header.Fits r.headers
        · rw [if_pos hkey, if_pos hvalue, if_pos hhead, if_pos ⟨hkey, hvalue, hhead⟩]
          change Except.ok _ = Except.ok _
          congr 1
          simp only [wire, length_append, VarInt.length_encode, LongVarInt.length_encode,
            length_put, FixedWidth.size]
          omega
        · have hnot : ¬ Fits r := fun h => hhead h.2.2
          rw [if_pos hkey, if_pos hvalue, if_neg hhead, if_neg hnot]
          rfl
      · have hnot : ¬ Fits r := fun h => hvalue h.2.1
        rw [if_pos hkey, if_neg hvalue, if_neg hnot]
        rfl
    · have hnot : ¬ Fits r := fun h => hkey h.1
      rw [if_neg hkey, if_neg hnot]
      rfl
  refine ⟨hsize, fun r => ?_⟩
  rw [encode, hsize, Octets.encode_eq, Octets.encode_eq, hheaders.enc_eq]
  by_cases hfits : Fits r
  · rw [if_pos hfits, if_pos hfits, if_pos hfits.1, if_pos hfits.2.1, if_pos hfits.2.2]
    rfl
  · rw [if_neg hfits, if_neg hfits]
    rfl

theorem reads_decode (r : Record) (hfits : Fits r) : Decoder.Reads decode (wire r) r := by
  have hheaders := VarIntSequence.reads_decode hfits.2.2 Header.reads_decode
  exact (VarInt.reads_decode _).bind <| (reads_get _ _).bind <| (LongVarInt.reads_decode _).bind <|
    (VarInt.reads_decode _).bind <| (Octets.reads_decode hfits.1).bind <|
    (Octets.reads_decode hfits.2.1).bind <| hheaders.bind_nil (.pure r)

theorem reads_deserialize (r : Record) (hfits : Fits r) :
    Decoder.Reads deserialize (wire r) r := by
  have hheaders := VarIntSequence.reads_deserialize hfits.2.2 Header.reads_deserialize
  exact (VarInt.reads_deserialize _).bind <| (reads_get _ _).bind <|
    (LongVarInt.reads_deserialize _).bind <| (VarInt.reads_deserialize _).bind <|
    (Octets.reads_deserialize hfits.1).bind <| (Octets.reads_deserialize hfits.2.1).bind <|
    hheaders.bind_nil (.pure r)

end Record

theorem mapM_sizeInBytes_eq (records : List Record) :
    records.mapM Record.sizeInBytes = if ∀ r ∈ records, r.Fits then
      .ok (records.map fun r => r.wire.length) else .error .tryFromInt := by
  induction records with
  | nil => simp; rfl
  | cons r records ih =>
    rw [mapM_cons, ih, Record.sized.size_eq]
    by_cases hr : r.Fits
    · by_cases hrest : ∀ r ∈ records, r.Fits
      · rw [if_pos hr, if_pos hrest, if_pos (forall_mem_cons.2 ⟨hr, hrest⟩)]
        rfl
      · rw [if_pos hr, if_neg hrest, if_neg fun h => hrest (forall_mem_cons.1 h).2]
        rfl
    · rw [if_neg hr, if_neg fun h => hr (forall_mem_cons.1 h).1]
      rfl

/-- Records are encoded one after another, and not at all if one of them does not fit. -/
theorem encodeRecords_eq (records : List Record) :
    encodeRecords records = if ∀ r ∈ records, r.Fits then .ok (records.flatMap Record.wire)
      else .error .tryFromInt := by
  rw [encodeRecords, VarIntSequence.catMany_eq Record.sized, mapM_sizeInBytes_eq]
  by_cases h : ∀ r ∈ records, r.Fits
  · rw [if_pos h, if_pos h]
    rfl
  · rw [if_neg h, if_neg h]
    rfl

end Tansu.Records
