import Tansu.Lib.Wire

/-!
# Frames of a connection

The loop of `TcpBytesService`.  Reading is exact, so how the bytes arrive does not matter:
a connection is the bytes that are received until it is closed.  The inner service has a
state `σ` and may fail.
-/

namespace Tansu.Service

open Tansu.Lib

/-- `i32::from_be_bytes`. -/
def signedLength (size : Bytes) : Int := (ofBe size : Int).bmod (2 ^ 32)

/-- `frame_length`: the cast to `usize` extends the sign, and the sum wraps. -/
def frameLength (size : Bytes) : Nat := ((signedLength size % 2 ^ 64 + 4) % 2 ^ 64).toNat

/-- Why the loop ends. -/
inductive Stop (E : Type)
  /-- The connection is closed before what is read is complete. -/
  | incomplete
  | frameTooBig (length : Nat)
  /-- The inner service fails. -/
  | failed (e : E)
  | panicked
deriving DecidableEq

structure Outcome (E : Type) where
  passed : List Bytes := []
  written : List Bytes := []
  stop : Stop E
deriving DecidableEq

def Outcome.cons {E : Type} (frame response : Bytes) (o : Outcome E) : Outcome E :=
  { o with passed := frame :: o.passed, written := response :: o.written }

section

variable {E σ : Type} (inner : σ → Bytes → Except E (Bytes × σ)) (maximumFrameSize : Option Nat)

def wait : Decoder (Stop E) Bytes := do
  let size ← Decoder.takeExact .incomplete 4
  if maximumFrameSize.any (frameLength size < ·) then
    Decoder.fail (.frameTooBig (frameLength size))
  else pure size

/-- The vector has to have room for the prefix and must not exceed `isize::MAX`. -/
def read (size : Bytes) : Decoder (Stop E) Bytes :=
  if 4 ≤ frameLength size ∧ frameLength size < 2 ^ 63 then do
    let body ← Decoder.takeExact .incomplete (frameLength size - 4)
    pure (size ++ body)
  else Decoder.fail .panicked

/-- The loop, with a round for each byte of the connection. -/
def serve : Nat → σ → Bytes → Outcome E
  | 0, _, _ => { stop := .incomplete }
  | rounds + 1, s, stream =>
    match (wait maximumFrameSize >>= read) stream with
    | .error stop => { stop }
    | .ok (request, stream) =>
      match inner s request with
      | .error e => { passed := [request], stop := .failed e }
      | .ok (response, s) => (serve rounds s stream).cons request response

/-- What the outcome for a connection has to be: its frames are passed on one after the
other and answered, up to one that is negative, larger than the maximum or incomplete. -/
def Delimits : Nat → σ → Bytes → Outcome E → Prop
  | 0, _, stream, o => stream = [] ∧ o = { stop := .incomplete }
  | rounds + 1, s, stream, o =>
    let size := signedLength (stream.take 4)
    let length := size.toNat + 4
    if stream.length < 4 then o = { stop := .incomplete }
    else if size < 0 then o.passed = [] ∧ o.written = [] ∧ o.stop ≠ .panicked
    else if maximumFrameSize.any (· < length) then o = { stop := .frameTooBig length }
    else if stream.length < length then o = { stop := .incomplete }
    else
      match inner s (stream.take length) with
      | .error e => o = { passed := [stream.take length], stop := .failed e }
      | .ok (response, s) => ∃ o', o = Outcome.cons (stream.take length) response o' ∧
        Delimits rounds s (stream.drop length) o'

/-- A frame has exactly the maximum size, if there is one; and a negative length is below it
when it is read as an unsigned one. -/
def Exact : Nat → σ → Bytes → Prop
  | 0, _, _ => True
  | rounds + 1, s, stream =>
    let length := frameLength (stream.take 4)
    4 ≤ stream.length →
      if signedLength (stream.take 4) < 0 then maximumFrameSize.any (length < ·) = true
      else (maximumFrameSize = none ∨ maximumFrameSize = some length) ∧
        (length ≤ stream.length → ∀ response s', inner s (stream.take length) = .ok (response, s') →
          Exact rounds s' (stream.drop length))

end

variable {E σ : Type} {inner : σ → Bytes → Except E (Bytes × σ)} {maximumFrameSize : Option Nat}
  {stream size : Bytes}

/-! ## Lengths -/

theorem signedLength_bounds (size : Bytes) :
    -2 ^ 31 ≤ signedLength size ∧ signedLength size < 2 ^ 31 := by
  have hle := Int.le_bmod (x := ofBe size) (m := 2 ^ 32) (by norm_num)
  have hlt := Int.bmod_lt (x := ofBe size) (m := 2 ^ 32) (by norm_num)
  norm_num at hle hlt
  exact ⟨hle, hlt⟩

theorem frameLength_of_nonneg (h : 0 ≤ signedLength size) :
    frameLength size = (signedLength size).toNat + 4 ∧ frameLength size < 2 ^ 63 := by
  have hbounds := signedLength_bounds size
  unfold frameLength
  omega

theorem frameLength_of_neg (h : signedLength size < 0) :
    ¬(4 ≤ frameLength size ∧ frameLength size < 2 ^ 63) := by
  have hbounds := signedLength_bounds size
  unfold frameLength
  omega

/-! ## One frame -/

/-- What one round reads from a connection. -/
theorem request_eq {length : Nat} (hlen : 4 ≤ stream.length)
    (hlength : frameLength (stream.take 4) = length) :
    (wait maximumFrameSize >>= read : Decoder (Stop E) Bytes) stream =
      if maximumFrameSize.any (length < ·) then .error (.frameTooBig length)
      else if 4 ≤ length ∧ length < 2 ^ 63 then
        if length ≤ stream.length then .ok (stream.take length, stream.drop length)
        else .error .incomplete
      else .error .panicked := by
  simp only [wait, Decoder.bind_run, Decoder.takeExact, hlen, if_true]
  rw [hlength]
  by_cases hbig : maximumFrameSize.any (length < ·) = true
  · simp [hbig, Decoder.fail]
  simp only [hbig, if_false, Bool.false_eq_true]
  change read (stream.take 4) (stream.drop 4) = _
  rw [read, hlength]
  split
  · next hroom =>
    obtain ⟨n, rfl⟩ := Nat.exists_eq_add_of_le hroom.1
    simp only [Decoder.bind_run, Decoder.takeExact, List.length_drop, Nat.add_sub_cancel_left]
    by_cases hall : 4 + n ≤ stream.length
    · rw [if_pos (Nat.le_sub_of_add_le' hall), if_pos hall, List.take_add, ← List.drop_drop]
      rfl
    · rw [if_neg (fun h => hall (Nat.add_le_of_le_sub' hlen h)), if_neg hall]
  · rfl

/-- One round: what is read, answered and left for the next. -/
theorem serve_succ {rounds : Nat} {s : σ} : serve inner maximumFrameSize (rounds + 1) s stream =
    let length := (signedLength (stream.take 4)).toNat + 4
    if stream.length < 4 then { stop := .incomplete }
    else if maximumFrameSize.any (frameLength (stream.take 4) < ·) then
      { stop := .frameTooBig (frameLength (stream.take 4)) }
    else if signedLength (stream.take 4) < 0 then { stop := .panicked }
    else if stream.length < length then { stop := .incomplete }
    else
      match inner s (stream.take length) with
      | .error e => { passed := [stream.take length], stop := .failed e }
      | .ok (response, s) =>
        (serve inner maximumFrameSize rounds s (stream.drop length)).cons (stream.take length)
          response := by
  by_cases hlen : stream.length < 4
  · simp only [serve, wait, Decoder.bind_run, Decoder.takeExact, hlen, Nat.not_le.2 hlen, if_true,
      if_false]
  simp only [serve, request_eq (Nat.not_lt.1 hlen) rfl, hlen, if_false]
  by_cases hbig : maximumFrameSize.any (frameLength (stream.take 4) < ·) = true
  · rw [if_pos hbig, if_pos hbig]
  rw [if_neg hbig, if_neg hbig]
  by_cases hneg : signedLength (stream.take 4) < 0
  · rw [if_pos hneg, if_neg (frameLength_of_neg hneg)]
  obtain ⟨hlength, hroom⟩ := frameLength_of_nonneg (Int.not_lt.1 hneg)
  have hvec : 4 ≤ frameLength (stream.take 4) ∧ frameLength (stream.take 4) < 2 ^ 63 :=
    ⟨hlength ▸ Nat.le_add_left .., hroom⟩
  rw [if_neg hneg, if_pos hvec, hlength]
  by_cases hall : stream.length < (signedLength (stream.take 4)).toNat + 4
  · rw [if_pos hall, if_neg (Nat.not_le.2 hall)]
  · rw [if_neg hall, if_pos (Nat.not_lt.1 hall)]

/-! ## The whole connection -/

theorem Outcome.cons_inj {frame response : Bytes} {o o' : Outcome E}
    (h : Outcome.cons frame response o = Outcome.cons frame response o') : o = o' := by
  cases o
  cases o'
  simpa [Outcome.cons] using h

theorem delimits_serve_iff {rounds : Nat} {s : σ} (hrounds : stream.length ≤ rounds) :
    Delimits inner maximumFrameSize rounds s stream (serve inner maximumFrameSize rounds s stream) ↔
      Exact inner maximumFrameSize rounds s stream := by
  induction rounds generalizing s stream with
  | zero => simpa [Delimits, serve, Exact] using hrounds
  | succ rounds ih =>
    rw [serve_succ]
    simp only [Delimits, Exact]
    by_cases hlen : stream.length < 4
    · simp only [hlen, Nat.not_le.2 hlen, if_true, false_implies]
    simp only [hlen, Nat.not_lt.1 hlen, if_false, true_implies]
    by_cases hneg : signedLength (stream.take 4) < 0
    · simp only [hneg, if_true]
      by_cases hbig : maximumFrameSize.any (frameLength (stream.take 4) < ·) = true <;> simp [hbig]
    obtain ⟨length, hlength⟩ : ∃ length, frameLength (stream.take 4) = length := ⟨_, rfl⟩
    have hnat := (frameLength_of_nonneg (Int.not_lt.1 hneg)).1.symm.trans hlength
    simp only [hneg, if_false, hnat, hlength]
    have hrest : (stream.drop length).length ≤ rounds := by
      rw [List.length_drop, ← hnat]
      exact Nat.sub_le_of_le_add (hrounds.trans (by gcongr; exact Nat.le_add_left ..))
    by_cases hmax : maximumFrameSize = none ∨ maximumFrameSize = some length
    · have hsmall : maximumFrameSize.any (length < ·) = false := by
        rcases hmax with h | h <;> simp [h]
      have hlarge : maximumFrameSize.any (· < length) = false := by
        rcases hmax with h | h <;> simp [h]
      simp only [hsmall, hlarge, hmax, Bool.false_eq_true, if_false, true_and]
      by_cases hall : stream.length < length
      · simp [hall]
      simp only [hall, Nat.not_lt.1 hall, if_false, true_implies]
      cases inner s (stream.take length) with
      | error e => simp
      | ok answer =>
        obtain ⟨response, s'⟩ := answer
        simp only [Except.ok.injEq, Prod.mk.injEq]
        constructor
        · rintro ⟨o', ho, hdelimits⟩ _ _ ⟨-, rfl⟩
          rw [← Outcome.cons_inj ho] at hdelimits
          exact (ih hrest).1 hdelimits
        · intro hexact
          exact ⟨_, rfl, (ih hrest).2 (hexact response s' ⟨rfl, rfl⟩)⟩
    · -- The comparison is the wrong way round: any other maximum is taken for its opposite.
      obtain ⟨m, rfl⟩ : ∃ m, maximumFrameSize = some m :=
        Option.ne_none_iff_exists'.1 fun h => hmax (.inl h)
      have hne : m ≠ length := fun h => hmax (.inr (congrArg some h))
      simp only [hmax, false_and, iff_false, Option.any_some, decide_eq_true_eq]
      rcases Nat.lt_or_gt_of_ne hne with hlt | hgt
      · rw [if_pos hlt, if_neg (Nat.lt_asymm hlt)]
        split
        · simp
        · cases inner s (stream.take length) <;> simp [Outcome.cons]
      · rw [if_neg (Nat.lt_asymm hgt), if_pos hgt]
        split
        · simp
        · split <;> simp [Outcome.cons]

/-- The loop delimits the frames exactly if no frame differs from the maximum and no negative
length reaches `read`.  By induction on the fuel: a frame takes its length and its body off
the stream, or ends the connection. -/
theorem frames_delimited_iff {E σ : Type} (inner : σ → Bytes → Except E (Bytes × σ))
    (maximumFrameSize : Option Nat) (s : σ) (stream : Bytes) :
    Delimits inner maximumFrameSize stream.length s stream
        (serve inner maximumFrameSize stream.length s stream) ↔
      Exact inner maximumFrameSize stream.length s stream :=
  delimits_serve_iff le_rfl

section

def echo (s : Unit) (request : Bytes) : Except Unit (Bytes × Unit) := .ok (request, s)

def five : Bytes := [0, 0, 0, 1, 7]

def another : Bytes := [0, 0, 0, 1, 8]

/-- Two frames of the maximum size, and the connection is closed. -/
theorem exact_frames_delimited : Exact echo (some 5) 10 () (five ++ another) ∧
    Delimits echo (some 5) 10 () (five ++ another) (serve echo (some 5) 10 () (five ++ another)) ∧
    (serve echo (some 5) 10 () (five ++ another)).passed = [five, another] := by
  have h : Exact echo (some 5) 10 () (five ++ another) := by
    refine fun _ => (if_neg (by decide +kernel)).mpr ⟨.inr (by decide +kernel), fun _ _ _ _ => ?_⟩
    refine fun _ => (if_neg (by decide +kernel)).mpr ⟨.inr (by decide +kernel), fun _ _ _ _ => ?_⟩
    exact fun h => absurd h (by decide +kernel)
  exact ⟨h, (frames_delimited_iff echo (some 5) () (five ++ another)).2 h, by decide +kernel⟩

/-- A frame below the maximum is rejected, one above it is passed on, and a length of -1 makes
the loop panic. -/
theorem maximum_is_compared_backwards :
    ¬Delimits echo (some 100) 5 () five (serve echo (some 100) 5 () five) ∧
    ¬Delimits echo (some 4) 5 () five (serve echo (some 4) 5 () five) ∧
    ¬Delimits echo none 4 () [255, 255, 255, 255] (serve echo none 4 () [255, 255, 255, 255]) ∧
    serve echo (some 100) 5 () five = { stop := .frameTooBig 5 } ∧
    serve echo (some 4) 5 () five = { passed := [five], written := [five], stop := .incomplete } ∧
    serve echo none 4 () [255, 255, 255, 255] = { stop := .panicked } := by
  have hfive : ¬signedLength (five.take 4) < 0 := by decide +kernel
  have hneg : signedLength ([255, 255, 255, 255].take 4) < 0 := by decide +kernel
  refine ⟨?_, ?_, ?_, by decide +kernel, by decide +kernel, by decide +kernel⟩
  · rw [delimits_serve_iff (Nat.le_refl 5)]
    intro h
    exact absurd ((if_neg hfive).mp (h (by decide))).1 (by decide +kernel)
  · rw [delimits_serve_iff (Nat.le_refl 5)]
    intro h
    exact absurd ((if_neg hfive).mp (h (by decide))).1 (by decide +kernel)
  · rw [delimits_serve_iff (Nat.le_refl 4)]
    intro h
    exact absurd ((if_pos hneg).mp (h (by decide))) (by decide +kernel)

end

end Tansu.Service
