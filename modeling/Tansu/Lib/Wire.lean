import Mathlib

/-!
# Wire formats

A decoder takes bytes from the front of its input and leaves the rest.  Two
judgements are used throughout: `Reads p bs a` says that `p` reads exactly the
bytes `bs` as `a`, whatever follows them, and `Ensures p Q` says that whatever
`p` returns satisfies `Q`.  Both are closed under sequencing, so a round trip of
a composed format is assembled from the round trips of its parts.
-/

namespace Tansu.Lib

open List

abbrev Bytes := List UInt8

/-- Reads from the front of the input, or fails. -/
abbrev Decoder (ε : Type) := StateT Bytes (Except ε)

namespace Decoder

variable {ε α β : Type}

/-- Fails, whatever the input. -/
def fail (e : ε) : Decoder ε α := fun _ => .error e

/-- `read_exact`: the next `n` bytes, or `eof` when fewer are left. -/
def takeExact (eof : ε) (n : Nat) : Decoder ε Bytes := fun bs =>
  if n ≤ bs.length then .ok (bs.take n, bs.drop n) else .error eof

/-- The next `n` bytes, which stay in the input, or `eof` when fewer are left. -/
def peek (eof : ε) (n : Nat) : Decoder ε Bytes := fun bs =>
  if n ≤ bs.length then .ok (bs.take n, bs) else .error eof

/-- Runs `p` `n` times. -/
def many (p : Decoder ε α) : Nat → Decoder ε (List α)
  | 0 => pure []
  | n + 1 => do
    let a ← p
    let as ← many p n
    pure (a :: as)

theorem bind_run (p : Decoder ε α) (f : α → Decoder ε β) (bs : Bytes) :
    (p >>= f) bs = match p bs with
      | .ok (a, rest) => f a rest
      | .error e => .error e := by
  change Except.bind (p bs) _ = _
  cases p bs <;> rfl

theorem pure_run (a : α) (bs : Bytes) : (pure a : Decoder ε α) bs = .ok (a, bs) := rfl

/-! ## Reading back -/

/-- `p` reads the bytes `bs` as `a` and nothing more. -/
def Reads (p : Decoder ε α) (bs : Bytes) (a : α) : Prop :=
  ∀ rest, p (bs ++ rest) = .ok (a, rest)

variable {p : Decoder ε α} {f : α → Decoder ε β} {bs cs : Bytes} {a : α} {b : β}

theorem Reads.pure (a : α) : Reads (pure a : Decoder ε α) [] a := fun _ => rfl

theorem Reads.bind (hp : Reads p bs a) (hf : Reads (f a) cs b) :
    Reads (p >>= f) (bs ++ cs) b := by
  intro rest
  rw [append_assoc, bind_run, hp (cs ++ rest)]
  exact hf rest

theorem Reads.bind_nil (hp : Reads p bs a) (hf : Reads (f a) [] b) : Reads (p >>= f) bs b := by
  have h := hp.bind hf
  rwa [append_nil] at h

theorem Reads.map (hp : Reads p bs a) (g : α → β) : Reads (g <$> p) bs (g a) := by
  intro rest
  change Except.bind (p (bs ++ rest)) _ = _
  rw [hp rest]
  rfl

theorem Reads.takeExact (eof : ε) (bs : Bytes) : Reads (takeExact eof bs.length) bs bs := by
  intro rest
  simp [Decoder.takeExact]

theorem Reads.peek {g : Bytes → Decoder ε β} {n : Nat} (eof : ε) (hn : bs.length = n)
    (hg : Reads (g bs) bs b) : Reads (Decoder.peek eof n >>= g) bs b := by
  intro rest
  have htake : Decoder.peek eof n (bs ++ rest) = .ok (bs, bs ++ rest) := by
    simp [Decoder.peek, ← hn]
  rw [bind_run, htake]
  exact hg rest

theorem Reads.many {as : List α} {enc : α → Bytes} (h : ∀ a ∈ as, Reads p (enc a) a) :
    Reads (many p as.length) (as.flatMap enc) as := by
  induction as with
  | nil => exact Reads.pure []
  | cons a as ih =>
    have hrest := ih fun x hx => h x (mem_cons_of_mem a hx)
    exact (h a mem_cons_self).bind (hrest.bind_nil (Reads.pure (a :: as)))

/-! ## Refusing -/

/-- `p` fails on `bs`, whatever follows. -/
def Fails (p : Decoder ε α) (bs : Bytes) : Prop := ∀ rest, ∃ e, p (bs ++ rest) = .error e

theorem Fails.append (h : Fails p bs) (cs : Bytes) : Fails p (bs ++ cs) := by
  intro rest
  rw [append_assoc]
  exact h (cs ++ rest)

theorem Fails.bind (h : Fails p bs) (f : α → Decoder ε β) : Fails (p >>= f) bs := by
  intro rest
  obtain ⟨e, he⟩ := h rest
  exact ⟨e, by rw [bind_run, he]⟩

theorem Reads.bind_fails (hp : Reads p bs a) (hf : Fails (f a) cs) :
    Fails (p >>= f) (bs ++ cs) := by
  intro rest
  rw [append_assoc, bind_run, hp (cs ++ rest)]
  exact hf rest

/-! ## What a decoder can return -/

/-- Everything `p` returns satisfies `Q`. -/
def Ensures (p : Decoder ε α) (Q : α → Prop) : Prop :=
  ∀ bs a rest, p bs = .ok (a, rest) → Q a

variable {Q : α → Prop} {R : β → Prop}

theorem Ensures.pure (h : Q a) : Ensures (pure a : Decoder ε α) Q := by
  intro bs a' rest heq
  cases heq
  exact h

theorem Ensures.fail (e : ε) : Ensures (fail e : Decoder ε α) Q := fun _ _ _ h => by cases h

theorem Ensures.bind (hp : Ensures p Q) (hf : ∀ a, Q a → Ensures (f a) R) :
    Ensures (p >>= f) R := by
  intro bs b rest h
  rw [bind_run] at h
  cases hpa : p bs with
  | error e => rw [hpa] at h; cases h
  | ok out =>
    rw [hpa] at h
    exact hf out.1 (hp bs out.1 out.2 hpa) out.2 b rest h

theorem Ensures.trivial (p : Decoder ε α) : Ensures p fun _ => True := fun _ _ _ _ => True.intro

theorem Ensures.many (hp : Ensures p Q) (n : Nat) :
    Ensures (many p n) fun as => as.length = n ∧ ∀ a ∈ as, Q a := by
  induction n with
  | zero => exact Ensures.pure ⟨rfl, by simp⟩
  | succ n ih =>
    refine hp.bind fun a ha => ih.bind fun as has => Ensures.pure ⟨by simp [has.1], ?_⟩
    rintro x (_ | ⟨_, hx⟩)
    · exact ha
    · exact has.2 x hx

end Decoder

/-! ## Big-endian numbers -/

/-- The low `k` bytes of `n`, most significant first. -/
def be : Nat → Nat → Bytes
  | 0, _ => []
  | k + 1, n => UInt8.ofNat (n / 256 ^ k) :: be k n

/-- The number that big-endian bytes spell. -/
def ofBe : Bytes → Nat
  | [] => 0
  | b :: bs => b.toNat * 256 ^ bs.length + ofBe bs

@[simp] theorem length_be (k n : Nat) : (be k n).length = k := by
  induction k with
  | zero => rfl
  | succ k ih => simp [be, ih]

theorem ofBe_be (k n : Nat) : ofBe (be k n) = n % 256 ^ k := by
  induction k with
  | zero => simp [be, ofBe, Nat.mod_one]
  | succ k ih =>
    have hbyte : (UInt8.ofNat (n / 256 ^ k)).toNat = n / 256 ^ k % 256 := by simp
    rw [be, ofBe, ih, hbyte, length_be, Nat.mod_pow_succ, Nat.add_comm, Nat.mul_comm (256 ^ k)]

/-- Machine integers that are written with a fixed number of bytes. -/
class FixedWidth (α : Type) where
  size : Nat
  toNat : α → Nat
  ofNat : Nat → α
  toNat_lt : ∀ a, toNat a < 256 ^ size
  ofNat_toNat : ∀ a, ofNat (toNat a) = a

instance : FixedWidth UInt8 := ⟨1, UInt8.toNat, UInt8.ofNat, UInt8.toNat_lt, by simp⟩

instance : FixedWidth UInt16 := ⟨2, UInt16.toNat, UInt16.ofNat, UInt16.toNat_lt, by simp⟩

instance : FixedWidth UInt32 := ⟨4, UInt32.toNat, UInt32.ofNat, UInt32.toNat_lt, by simp⟩

instance : FixedWidth UInt64 := ⟨8, UInt64.toNat, UInt64.ofNat, UInt64.toNat_lt, by simp⟩

instance : FixedWidth Int8 :=
  ⟨1, fun i => i.toBitVec.toNat, fun n => .ofBitVec (BitVec.ofNat 8 n), fun i => i.toBitVec.isLt,
    by simp⟩

instance : FixedWidth Int16 :=
  ⟨2, fun i => i.toBitVec.toNat, fun n => .ofBitVec (BitVec.ofNat 16 n), fun i => i.toBitVec.isLt,
    by simp⟩

instance : FixedWidth Int32 :=
  ⟨4, fun i => i.toBitVec.toNat, fun n => .ofBitVec (BitVec.ofNat 32 n), fun i => i.toBitVec.isLt,
    by simp⟩

instance : FixedWidth Int64 :=
  ⟨8, fun i => i.toBitVec.toNat, fun n => .ofBitVec (BitVec.ofNat 64 n), fun i => i.toBitVec.isLt,
    by simp⟩

section

variable {ε α : Type} [FixedWidth α]

/-- `put_*`: an integer in network order. -/
def put (a : α) : Bytes := be (FixedWidth.size α) (FixedWidth.toNat a)

/-- `get_*`: an integer in network order, or `eof`. -/
def get (eof : ε) : Decoder ε α := do
  let bs ← Decoder.takeExact eof (FixedWidth.size α)
  pure (FixedWidth.ofNat (ofBe bs))

@[simp] theorem length_put (a : α) : (put a).length = FixedWidth.size α := length_be _ _

theorem reads_get (eof : ε) (a : α) : Decoder.Reads (get eof) (put a) a := by
  have hvalue : FixedWidth.ofNat (ofBe (put a)) = a := by
    rw [put, ofBe_be, Nat.mod_eq_of_lt (FixedWidth.toNat_lt a), FixedWidth.ofNat_toNat]
  have htake := Decoder.Reads.takeExact eof (put a)
  rw [length_put] at htake
  refine htake.bind_nil ?_
  rw [hvalue]
  exact Decoder.Reads.pure a

end

/-! ## Reading what was not written -/

theorem ofBe_lt (bs : Bytes) : ofBe bs < 256 ^ bs.length := by
  induction bs with
  | nil => simp [ofBe]
  | cons b bs ih =>
    have hb : b.toNat + 1 ≤ 256 := b.toNat_lt
    calc ofBe (b :: bs) < (b.toNat + 1) * 256 ^ bs.length := by rw [ofBe, Nat.add_mul]; omega
      _ ≤ 256 * 256 ^ bs.length := Nat.mul_le_mul_right _ hb
      _ = 256 ^ (b :: bs).length := by rw [length_cons, pow_succ, Nat.mul_comm]

/-- Only the low bytes count. -/
theorem be_congr {k n m : Nat} (h : n % 256 ^ k = m % 256 ^ k) : be k n = be k m := by
  induction k with
  | zero => rfl
  | succ k ih =>
    have hhead : n / 256 ^ k % 256 = m / 256 ^ k % 256 := by
      rw [← Nat.mod_mul_right_div_self, ← Nat.mod_mul_right_div_self, ← pow_succ, h]
    have htail : n % 256 ^ k = m % 256 ^ k := by
      have hdvd : 256 ^ k ∣ 256 ^ (k + 1) := pow_dvd_pow 256 (Nat.le_succ k)
      rw [← Nat.mod_mod_of_dvd n hdvd, h, Nat.mod_mod_of_dvd m hdvd]
    have hbyte : UInt8.ofNat (n / 256 ^ k) = UInt8.ofNat (m / 256 ^ k) := by
      rw [← UInt8.toNat_inj]
      simpa using hhead
    rw [be, be, hbyte, ih htail]

theorem be_ofBe (bs : Bytes) : be bs.length (ofBe bs) = bs := by
  induction bs with
  | nil => rfl
  | cons b bs ih =>
    have hlt := ofBe_lt bs
    have hdiv : ofBe (b :: bs) / 256 ^ bs.length = b.toNat := by
      rw [ofBe, Nat.add_comm, Nat.add_mul_div_right _ _ (by positivity), Nat.div_eq_of_lt hlt,
        Nat.zero_add]
    have hmod : ofBe (b :: bs) % 256 ^ bs.length = ofBe bs % 256 ^ bs.length := by
      rw [ofBe, Nat.add_comm, Nat.add_mul_mod_self_right]
    rw [length_cons, be, hdiv, be_congr hmod, ih, UInt8.ofNat_toNat]

/-- Machine integers that every sequence of bytes of their width spells. -/
class FullWidth (α : Type) [FixedWidth α] : Prop where
  toNat_ofNat : ∀ n < 256 ^ FixedWidth.size α, FixedWidth.toNat (FixedWidth.ofNat n : α) = n

instance : FullWidth Int32 := ⟨fun _ h => Nat.mod_eq_of_lt h⟩

instance : FullWidth Int64 := ⟨fun _ h => Nat.mod_eq_of_lt h⟩

/-- An integer that is read stands in front of the input. -/
theorem eq_put_of_get {ε α : Type} [FixedWidth α] [FullWidth α] {eof : ε} {bs rest : Bytes} {a : α}
    (h : get eof bs = .ok (a, rest)) : bs = put a ++ rest := by
  rw [get, Decoder.bind_run] at h
  unfold Decoder.takeExact at h
  split at h
  next heq =>
    split at heq
    next hn =>
      cases heq
      cases h
      have hlen : (bs.take (FixedWidth.size α)).length = FixedWidth.size α :=
        length_take_of_le hn
      have hlt := ofBe_lt (bs.take (FixedWidth.size α))
      rw [hlen] at hlt
      have hbe := be_ofBe (bs.take (FixedWidth.size α))
      rw [hlen] at hbe
      rw [put, FullWidth.toNat_ofNat _ hlt, hbe, take_append_drop]
    next => cases heq
  next => cases h

/-! ## Writing -/

section

variable {ε ε' α β : Type}

/-- One output after another; the first failure is the result. -/
def cat (x y : Except ε Bytes) : Except ε Bytes := do
  let front ← x
  let back ← y
  pure (front ++ back)

/-- The outputs of all the elements, in order. -/
def catMany (enc : α → Except ε Bytes) : List α → Except ε Bytes
  | [] => .ok []
  | a :: as => cat (enc a) (catMany enc as)

/-- The output `x` is produced, and `p` reads it back as `a`. -/
def RoundTrips (x : Except ε Bytes) (p : Decoder ε' α) (a : α) : Prop :=
  ∃ bs, x = .ok bs ∧ Decoder.Reads p bs a

variable {x y : Except ε Bytes} {p : Decoder ε' α} {f : α → Decoder ε' β} {a : α} {b : β}
  {bs : Bytes} {enc : α → Except ε Bytes} {as : List α}

theorem RoundTrips.ok (h : Decoder.Reads p bs a) :
    RoundTrips (.ok bs : Except ε Bytes) p a := ⟨bs, rfl, h⟩

theorem RoundTrips.cat (hx : RoundTrips x p a) (hy : RoundTrips y (f a) b) :
    RoundTrips (cat x y) (p >>= f) b := by
  obtain ⟨front, rfl, hfront⟩ := hx
  obtain ⟨back, rfl, hback⟩ := hy
  exact ⟨front ++ back, rfl, hfront.bind hback⟩

/-- Decoding may finish with a step that takes no input. -/
theorem RoundTrips.bind_pure (hx : RoundTrips x p a) (hf : Decoder.Reads (f a) [] b) :
    RoundTrips x (p >>= f) b := by
  obtain ⟨bs, rfl, hbs⟩ := hx
  exact ⟨bs, rfl, hbs.bind_nil hf⟩

theorem RoundTrips.many (h : ∀ a ∈ as, RoundTrips (enc a) p a) :
    RoundTrips (catMany enc as) (Decoder.many p as.length) as := by
  induction as with
  | nil => exact .ok (Decoder.Reads.pure [])
  | cons a as ih =>
    have hrest := ih fun x hx => h x (mem_cons_of_mem a hx)
    exact (h a mem_cons_self).cat (hrest.bind_pure (Decoder.Reads.pure (a :: as)))

/-- If the output `x` is produced, `p` fails on it. -/
def Rejects (x : Except ε Bytes) (p : Decoder ε' α) : Prop :=
  ∀ bs, x = .ok bs → Decoder.Fails p bs

theorem cat_eq_ok (h : cat x y = .ok bs) :
    ∃ front back, x = .ok front ∧ y = .ok back ∧ bs = front ++ back := by
  cases x with
  | error e => cases h
  | ok front =>
    cases y with
    | error e => cases h
    | ok back =>
      cases h
      exact ⟨front, back, rfl, rfl, rfl⟩

theorem Rejects.cat_left (hx : Rejects x p) (y : Except ε Bytes) (f : α → Decoder ε' β) :
    Rejects (cat x y) (p >>= f) := by
  intro bs h
  obtain ⟨front, back, hfront, -, rfl⟩ := cat_eq_ok h
  exact ((hx front hfront).append back).bind f

theorem Rejects.cat_right (hx : RoundTrips x p a) (hy : Rejects y (f a)) :
    Rejects (cat x y) (p >>= f) := by
  intro bs h
  obtain ⟨front, back, hfront, hback, rfl⟩ := cat_eq_ok h
  obtain ⟨front', hfront', hreads⟩ := hx
  rw [hfront'] at hfront
  cases hfront
  exact hreads.bind_fails (hy back hback)

theorem Rejects.bind (hx : Rejects x p) (f : α → Decoder ε' β) : Rejects x (p >>= f) :=
  fun bs h => (hx bs h).bind f

/-- One element that is refused is enough, if those before it are read back. -/
theorem Rejects.many (h : ∀ a ∈ as, RoundTrips (enc a) p a ∨ Rejects (enc a) p)
    (hex : ∃ a ∈ as, Rejects (enc a) p) : Rejects (catMany enc as) (Decoder.many p as.length) := by
  induction as with
  | nil =>
    obtain ⟨a, ha, -⟩ := hex
    cases ha
  | cons a as ih =>
    rcases h a mem_cons_self with hread | hreject
    · by_cases htail : ∃ a ∈ as, Rejects (enc a) p
      · have hrest := ih (fun x hx => h x (mem_cons_of_mem a hx)) htail
        exact Rejects.cat_right hread (hrest.bind _)
      · obtain ⟨b, hb, hreject⟩ := hex
        rcases mem_cons.1 hb with rfl | hmem
        · exact hreject.cat_left _ _
        · exact absurd ⟨b, hmem, hreject⟩ htail
    · exact hreject.cat_left _ _

end

/-! ## CRC-32C -/

/-- One bit of the reflected Castagnoli polynomial. -/
def shiftCrc (crc : UInt32) : UInt32 :=
  if crc &&& 1 = 1 then (crc >>> 1) ^^^ 0x82f63b78 else crc >>> 1

def crc32c (bs : Bytes) : UInt32 :=
  bs.foldl (fun crc b => shiftCrc^[8] (crc ^^^ b.toUInt32)) 0xffffffff ^^^ 0xffffffff

/-- The check value of the algorithm, for the digits one to nine. -/
example : crc32c [0x31, 0x32, 0x33, 0x34, 0x35, 0x36, 0x37, 0x38, 0x39] = 0xe3069283 := by
  decide +kernel

end Tansu.Lib
