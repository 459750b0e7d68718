import Tansu.Lib.Wire

/-!
# Variable length integers

Seven bits to a byte, the lowest first, and the high bit set on every byte but
the last.  Signed integers are mapped to unsigned ones in zigzag order first.
The decoder works on an accumulator of `w` bits: a shift by `w` bits or more, a
sum that does not fit and a shift that outgrows its own byte are one failure,
which a caller reads as an error or as a panic.
-/

namespace Tansu.Lib

variable {ε : Type}

/-! ## Unsigned -/

def continuation : UInt8 := 0b10000000

def payloadMask : UInt8 := 0b01111111

/-- `while v >= 128 { put(v as u8 | CONTINUATION); v >>= 7 } put(v as u8)` -/
def uvarint (v : Nat) : Bytes :=
  if 128 ≤ v then (UInt8.ofNat v ||| continuation) :: uvarint (v / 128) else [UInt8.ofNat v]
termination_by v

/-- The number of bytes `uvarint` writes. -/
def uvarintSize (v : Nat) : Nat := if 128 ≤ v then uvarintSize (v / 128) + 1 else 1
termination_by v

theorem length_uvarint (v : Nat) : (uvarint v).length = uvarintSize v := by
  induction v using Nat.strongRecOn with
  | ind v ih =>
    rw [uvarint, uvarintSize]
    split
    next h => rw [List.length_cons, ih (v / 128) (by omega)]
    next => rfl

/-- The decoding loop: `acc` holds the bits below `shift`. -/
def uvarintLoop (w : Nat) (eof overflow : ε) : Bytes → Nat → Nat → Except ε (Nat × Bytes)
  | [], _, _ => .error eof
  | byte :: rest, shift, acc =>
    if byte &&& continuation = continuation then
      if w ≤ shift then .error overflow
      else
        let sum := acc + ((byte &&& payloadMask).toNat <<< shift) % 2 ^ w
        if 2 ^ w ≤ sum then .error overflow
        else if 255 < shift + 7 then .error overflow
        else uvarintLoop w eof overflow rest (shift + 7) sum
    else
      if w ≤ shift then .error overflow
      else
        let sum := acc + (byte.toNat <<< shift) % 2 ^ w
        if 2 ^ w ≤ sum then .error overflow else .ok (sum, rest)

variable {v w : Nat}

theorem uvarint_byte_last (h : v < 128) : ¬ (UInt8.ofNat v &&& continuation = continuation) := by
  have hall : ∀ i < 128, ¬ (UInt8.ofNat i &&& continuation = continuation) := by decide
  exact hall v h

theorem uvarint_byte_next (v : Nat) :
    (UInt8.ofNat v ||| continuation) &&& continuation = continuation ∧
      ((UInt8.ofNat v ||| continuation) &&& payloadMask).toNat = v % 128 := by
  have hall : ∀ i < 256, (UInt8.ofNat i ||| continuation) &&& continuation = continuation ∧
      ((UInt8.ofNat i ||| continuation) &&& payloadMask).toNat = i % 128 := by decide +kernel
  have hmod : UInt8.ofNat v = UInt8.ofNat (v % 256) := by
    rw [← UInt8.toNat_inj]
    simp
  rw [hmod]
  have h := hall (v % 256) (Nat.mod_lt v (by decide))
  rwa [Nat.mod_mod_of_dvd v (by decide)] at h

theorem uvarint_append_inj {v' : Nat} {rest rest' : Bytes}
    (h : uvarint v ++ rest = uvarint v' ++ rest') : v = v' ∧ rest = rest' := by
  induction v using Nat.strongRecOn generalizing v' with
  | ind v ih =>
    rw [uvarint.eq_def v, uvarint.eq_def v'] at h
    split at h
    next hv =>
      split at h
      next hv' =>
        obtain ⟨hbyte, htail⟩ := List.cons.inj h
        obtain ⟨hdiv, hrest⟩ := ih (v / 128) (by omega) htail
        have hmod : v % 128 = v' % 128 := by
          rw [← (uvarint_byte_next v).2, ← (uvarint_byte_next v').2, hbyte]
        exact ⟨by omega, hrest⟩
      next hv' =>
        obtain ⟨hbyte, -⟩ := List.cons.inj h
        exact absurd (hbyte ▸ (uvarint_byte_next v).1) (uvarint_byte_last (by omega))
    next hv =>
      split at h
      next hv' =>
        obtain ⟨hbyte, -⟩ := List.cons.inj h
        exact absurd (hbyte ▸ (uvarint_byte_next v').1) (uvarint_byte_last (by omega))
      next hv' =>
        obtain ⟨hbyte, htail⟩ := List.cons.inj h
        have hnat := congrArg UInt8.toNat hbyte
        rw [UInt8.toNat_ofNat', UInt8.toNat_ofNat'] at hnat
        exact ⟨by omega, htail⟩

/-- The loop reads back what was written, on top of the bits it already has. -/
theorem uvarintLoop_uvarint (hw : w ≤ 248) (eof overflow : ε) (rest : Bytes) (v : Nat) :
    ∀ shift acc, shift < w → acc + v * 2 ^ shift < 2 ^ w →
      uvarintLoop w eof overflow (uvarint v ++ rest) shift acc =
        .ok (acc + v * 2 ^ shift, rest) := by
  -- on the value still to be read, which each byte makes 128 times smaller
  induction v using Nat.strongRecOn with
  | ind v ih =>
    intro shift acc hshift hfits
    rw [uvarint]
    split
    next hge =>
      obtain ⟨hcont, hpayload⟩ := uvarint_byte_next v
      have hsplit : v * 2 ^ shift = v % 128 * 2 ^ shift + v / 128 * 2 ^ (shift + 7) := by
        have hdiv : v = v % 128 + 128 * (v / 128) := (Nat.mod_add_div v 128).symm
        calc v * 2 ^ shift = (v % 128 + 128 * (v / 128)) * 2 ^ shift := by rw [← hdiv]
          _ = v % 128 * 2 ^ shift + v / 128 * 2 ^ (shift + 7) := by rw [pow_add]; ring
      have hnext : shift + 7 < w := by
        have hpos : 2 ^ (shift + 7) ≤ v / 128 * 2 ^ (shift + 7) :=
          Nat.le_mul_of_pos_left _ (by omega)
        exact (Nat.pow_lt_pow_iff_right (by decide : 1 < 2)).1 (by omega)
      have hpart : v % 128 * 2 ^ shift < 2 ^ w := by omega
      rw [List.cons_append, uvarintLoop, if_pos hcont, if_neg (by omega), hpayload,
        Nat.shiftLeft_eq, Nat.mod_eq_of_lt hpart, if_neg (by omega), if_neg (by omega),
        ih (v / 128) (by omega) (shift + 7) _ hnext (by omega), hsplit, Nat.add_assoc]
    next hlt =>
      have hbyte : (UInt8.ofNat v).toNat = v := by
        rw [UInt8.toNat_ofNat', Nat.mod_eq_of_lt (by omega)]
      rw [List.singleton_append, uvarintLoop, if_neg (uvarint_byte_last (by omega)),
        if_neg (by omega), hbyte, Nat.shiftLeft_eq, Nat.mod_eq_of_lt (by omega),
        if_neg (by omega)]

theorem reads_uvarintLoop (hpos : 0 < w) (hw : w ≤ 248) (eof overflow : ε) (hv : v < 2 ^ w) :
    Decoder.Reads (fun bs => uvarintLoop w eof overflow bs 0 0) (uvarint v) v := by
  intro rest
  have h := uvarintLoop_uvarint hw eof overflow rest v 0 0 hpos (by simpa using hv)
  simpa using h

/-! ## Signed -/

/-- `(decoded << 1) ^ (decoded >> (w - 1))` -/
def enZigzag {w : Nat} (decoded : BitVec w) : BitVec w :=
  (decoded <<< 1) ^^^ decoded.sshiftRight (w - 1)

/-- `(encoded >> 1) ^ -(encoded & 1)` -/
def deZigzag {w : Nat} (encoded : BitVec w) : BitVec w :=
  (encoded >>> 1) ^^^ -(encoded &&& 1#w)

theorem getLsbD_enZigzag (d : BitVec w) {i : Nat} (hi : i < w) :
    (enZigzag d).getLsbD i = ((decide (1 ≤ i) && d.getLsbD (i - 1)) ^^ d.msb) := by
  have hsign : (d.sshiftRight (w - 1)).getLsbD i = d.msb := by
    rw [BitVec.getLsbD_sshiftRight, BitVec.msb_eq_getLsbD_last]
    simp only [show ¬ w ≤ i by omega, decide_false, Bool.not_false, Bool.true_and]
    split
    next h => rw [show w - 1 + i = w - 1 by omega]
    next => rfl
  rw [enZigzag, BitVec.getLsbD_xor, hsign, BitVec.getLsbD_shiftLeft]
  by_cases hzero : i = 0
  · simp [hzero]
  · simp [hi, show ¬ i < 1 by omega, show 1 ≤ i by omega]

/-- The lowest bit is the sign, and its negation has the sign in every bit. -/
theorem getLsbD_neg_and_one (e : BitVec w) {i : Nat} (hi : i < w) :
    (-(e &&& 1#w)).getLsbD i = e.getLsbD 0 := by
  have hand : e &&& 1#w = if e.getLsbD 0 then 1#w else 0#w := by
    refine BitVec.eq_of_getLsbD_eq fun j hj => ?_
    by_cases hj0 : j = 0
    · subst hj0
      rw [BitVec.getLsbD_and]
      cases e.getLsbD 0 <;> simp [hj]
    · cases h : e.getLsbD 0 <;> simp [BitVec.getLsbD_one, hj0]
  rw [hand]
  cases h : e.getLsbD 0
  · simp
  · simp [BitVec.neg_one_eq_allOnes, hi]

theorem deZigzag_enZigzag (d : BitVec w) : deZigzag (enZigzag d) = d := by
  refine BitVec.eq_of_getLsbD_eq fun i hi => ?_
  have hsign : (enZigzag d).getLsbD 0 = d.msb := by
    rw [getLsbD_enZigzag d (by omega)]
    simp
  rw [deZigzag, BitVec.getLsbD_xor, getLsbD_neg_and_one _ hi, hsign, BitVec.getLsbD_ushiftRight]
  by_cases hlast : 1 + i < w
  · rw [getLsbD_enZigzag d hlast]
    simp
  · rw [BitVec.getLsbD_of_ge _ _ (by omega), BitVec.msb_eq_getLsbD_last,
      show w - 1 = i by omega, Bool.false_xor]

/-- A signed integer of `w` bits. -/
def varint {w : Nat} (d : BitVec w) : Bytes := uvarint (enZigzag d).toNat

def varintSize {w : Nat} (d : BitVec w) : Nat := uvarintSize (enZigzag d).toNat

theorem length_varint (d : BitVec w) : (varint d).length = varintSize d :=
  length_uvarint _

def readVarint (w : Nat) (eof overflow : ε) : Decoder ε (BitVec w) := fun bs =>
  (uvarintLoop w eof overflow bs 0 0).map fun out => (deZigzag (BitVec.ofNat w out.1), out.2)

theorem reads_readVarint (hpos : 0 < w) (hw : w ≤ 248) (eof overflow : ε) (d : BitVec w) :
    Decoder.Reads (readVarint w eof overflow) (varint d) d := by
  intro rest
  have h := reads_uvarintLoop hpos hw eof overflow (enZigzag d).isLt rest
  simp only at h
  rw [readVarint, varint, h]
  simp [Except.map, deZigzag_enZigzag]

end Tansu.Lib
