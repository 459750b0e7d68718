import Tansu.Lib.Wire
import Tansu.Nvme.Machine

/-!
# Frames on disk

The bytes of a log file: `frame.rs`, and `append` and `replay` of `wal.rs`.  A crash leaves the
first bytes of a file, and what is replayed are the records that lie in them as a whole, up to
the first bytes that a failed append left behind.  That is the cut of a log file in a crash of
the engine.
-/

namespace Tansu.Nvme

open List Tansu.Lib

inductive FrameType
  | batch
  | wal
  | snapshot
  | manifest
deriving DecidableEq

namespace FrameType

def byte : FrameType → UInt8
  | batch => 1
  | wal => 2
  | snapshot => 3
  | manifest => 4

def tryFrom (value : UInt8) : Option FrameType :=
  [batch, wal, snapshot, manifest].find? fun kind => kind.byte = value

end FrameType

structure Frame where
  frameType : FrameType
  payload : Bytes

def Frame.sizeOnDisk (f : Frame) : Nat := 12 + f.payload.length

def putU32Le (n : Nat) : Bytes := (be 4 n).reverse

def getU32Le (bs : Bytes) : Nat := ofBe (bs.take 4).reverse

namespace Frame

variable (crc32c : Bytes → UInt32)

def encode (frameType : FrameType) (payload : Bytes) : Bytes :=
  let header := [0x54, 1, frameType.byte, 0]
  header ++ putU32Le payload.length ++ putU32Le (crc32c (header ++ payload)).toNat ++ payload

/-- No frame where the file is torn. -/
def decode : Bytes → Option Frame
  | magic :: version :: frameType :: flags :: cursor =>
    let payloadLen := getU32Le cursor
    let payload := (cursor.drop 8).take payloadLen
    if cursor.length < 8 ∨ magic ≠ 0x54 ∨ version ≠ 1 ∨ (cursor.drop 8).length < payloadLen ∨
      (crc32c ([magic, version, frameType, flags] ++ payload)).toNat ≠ getU32Le (cursor.drop 4)
    then none
    else (FrameType.tryFrom frameType).map fun frameType => ⟨frameType, payload⟩
  | _ => none

/-- The loop over the frames of a log file. -/
def replay (parse : Bytes → Except Error WalRecord) (bytes : Bytes) :
    Except Error (List WalRecord) :=
  if bytes = [] then .ok [] else
  match decode crc32c bytes with
  | some frame =>
    if frame.frameType = .wal then do
      let record ← parse frame.payload
      let records ← replay parse (bytes.drop frame.sizeOnDisk)
      return record :: records
    else .ok []
  | none => .ok []
termination_by bytes.length
decreasing_by
  have := length_pos_iff.2 ‹¬bytes = []›
  simp only [length_drop, sizeOnDisk]
  omega

/-- The bytes that the appends of `records` write. -/
def written (json : WalRecord → Bytes) (records : List WalRecord) : Bytes :=
  records.flatMap fun record => encode crc32c .wal (json record)

/-- How many of the records lie in the first `n` bytes as a whole. -/
def whole (json : WalRecord → Bytes) : List WalRecord → Nat → Nat
  | [], _ => 0
  | record :: records, n =>
    let size := 12 + (json record).length
    if size ≤ n then whole json records (n - size) + 1 else 0

/-- One call of `Wal::append`: `write_all` writes the frame, or fails behind its first
`kept` bytes. -/
inductive Attempt
  | appended (record : WalRecord)
  | failed (record : WalRecord) (kept : Nat)

namespace Attempt

def bytes (json : WalRecord → Bytes) : Attempt → Bytes
  | appended record => encode crc32c .wal (json record)
  | failed record kept => (encode crc32c .wal (json record)).take kept

/-- The bytes of the file. -/
def contents (json : WalRecord → Bytes) (attempts : List Attempt) : Bytes :=
  attempts.flatMap (bytes crc32c json)

/-- What the engine's log file does at the same call. -/
def write (file : WalFile) : Attempt → WalFile
  | appended record => file.append record
  | failed _ kept => file.tear kept

def file (attempts : List Attempt) : WalFile := attempts.foldl write {}

/-- The checksum finds out that the first torn frame is one, whatever was written behind it. -/
def Detected (json : WalRecord → Bytes) : List Attempt → Prop
  | [] => True
  | appended _ :: attempts => Detected json attempts
  | failed record kept :: attempts =>
    if kept = 0 then Detected json attempts
    else decode crc32c (contents crc32c json (failed record kept :: attempts)) = none

end Attempt

variable {crc32c} {kind : FrameType} {payload rest bytes : Bytes} {n : Nat} {frame : Frame}

theorem getU32Le_append (h : n < 2 ^ 32) (rest : Bytes) : getU32Le (putU32Le n ++ rest) = n := by
  rw [getU32Le, putU32Le, take_left' (by simp), reverse_reverse, ofBe_be]
  exact Nat.mod_eq_of_lt h

theorem length_encode : (encode crc32c kind payload).length = 12 + payload.length := by
  simp [encode, putU32Le]
  omega

theorem decode_encode (h : payload.length < 2 ^ 32) :
    decode crc32c (encode crc32c kind payload ++ rest) = some ⟨kind, payload⟩ := by
  have hkind : FrameType.tryFrom kind.byte = some kind := by cases kind <;> rfl
  have hcrc := UInt32.toNat_lt (crc32c (0x54 :: 1 :: kind.byte :: 0 :: payload))
  have hdrop (n : Nat) (bs : Bytes) : (putU32Le n ++ bs).drop 4 = bs :=
    drop_left' (by simp [putU32Le])
  simp only [encode, decode, append_assoc, cons_append, nil_append, getU32Le_append h,
    ← drop_drop (i := 4) (j := 4), hdrop, getU32Le_append hcrc, hkind, take_left]
  simp [putU32Le]
  omega

theorem decode_some (h : decode crc32c bytes = some frame) :
    12 + getU32Le (bytes.drop 4) ≤ bytes.length := by
  unfold decode at h
  split at h
  · simp only at h
    split at h
    · cases h
    · simp_all
      omega
  · cases h

/-- A frame is read from its own bytes alone. -/
theorem decode_append (h : decode crc32c bytes = some frame) (rest : Bytes) :
    decode crc32c (bytes ++ rest) = some frame := by
  unfold decode at h
  split at h
  · next magic version frameType flags cursor =>
    simp only at h
    split at h
    · cases h
    · next hframe =>
      simp only [not_or, not_lt] at hframe
      obtain ⟨hheader, -, -, hpayload, -⟩ := id hframe
      have hlen : getU32Le (cursor ++ rest) = getU32Le cursor := by
        rw [getU32Le, take_append_of_le_length (by omega), getU32Le]
      have hcrc : getU32Le ((cursor ++ rest).drop 4) = getU32Le (cursor.drop 4) := by
        rw [drop_append_of_le_length (by omega), getU32Le,
          take_append_of_le_length (by rw [length_drop]; omega), getU32Le]
      simp only [cons_append, decode, hlen, hcrc, drop_append_of_le_length hheader,
        take_append_of_le_length hpayload]
      rw [if_neg, h]
      simp only [not_or, not_lt, length_append]
      exact ⟨by omega, hframe.2.1, hframe.2.2.1, by omega, hframe.2.2.2.2⟩
  · cases h

/-- Bytes that hold no frame at their front hold none when they are cut. -/
theorem decode_take_none (h : decode crc32c bytes = none) :
    decode crc32c (bytes.take n) = none := by
  cases hdecode : decode crc32c (bytes.take n) with
  | none => rfl
  | some frame =>
    have hframe := decode_append hdecode (bytes.drop n)
    rw [take_append_drop, h] at hframe
    cases hframe

/-- A frame of which a byte is missing is torn. -/
theorem decode_take (h : payload.length < 2 ^ 32) (hn : n < 12 + payload.length) :
    decode crc32c ((encode crc32c kind payload ++ rest).take n) = none := by
  cases hdecode : decode crc32c ((encode crc32c kind payload ++ rest).take n) with
  | none => rfl
  | some frame =>
    have hsome := decode_some hdecode
    have hle := length_take_le n (encode crc32c kind payload ++ rest)
    have hlen : getU32Le (((encode crc32c kind payload ++ rest).take n).drop 4) =
        payload.length := by
      rw [drop_take, getU32Le, take_take, Nat.min_eq_left (by omega), ← getU32Le]
      simp only [encode, append_assoc, cons_append, nil_append, drop_succ_cons, drop_zero]
      exact getU32Le_append h _
    omega

variable {parse : Bytes → Except Error WalRecord} {json : WalRecord → Bytes} {k : Nat}
  {records : List WalRecord} {attempts : List Attempt} {scrap : Bytes}

theorem written_cons (record : WalRecord) (records : List WalRecord) :
    written crc32c json (record :: records) =
      encode crc32c .wal (json record) ++ written crc32c json records := rfl

theorem le_whole (h : (written crc32c json (records.take k)).length ≤ n) :
    min k records.length ≤ whole json records n := by
  induction records generalizing k n with
  | nil => simp
  | cons record records ih =>
    cases k with
    | zero => simp
    | succ k =>
      rw [take_succ_cons, written_cons, length_append, length_encode] at h
      have hrest := ih (k := k) (n := n - (12 + (json record).length)) (by omega)
      rw [whole, if_pos (by omega), length_cons]
      omega

/-- The bytes behind the records hold no frame: replay ends in front of them. -/
theorem replay_take (hjson : ∀ record ∈ records,
    parse (json record) = .ok record ∧ (json record).length < 2 ^ 32)
    (hscrap : decode crc32c scrap = none) :
    replay crc32c parse ((written crc32c json records ++ scrap).take n) =
      .ok (records.take (whole json records n)) := by
  induction records generalizing n with
  | nil =>
    rw [written, flatMap_nil, nil_append, replay, decode_take_none hscrap]
    split <;> rfl
  | cons record records ih =>
    obtain ⟨⟨hparse, hlt⟩, hjson⟩ := forall_mem_cons.1 hjson
    rw [written_cons, append_assoc, whole]
    by_cases hn : 12 + (json record).length ≤ n
    · have hlen : (encode crc32c .wal (json record)).length ≤ n := by rw [length_encode]; exact hn
      rw [if_pos hn, take_append, take_of_length_le hlen, length_encode, replay,
        if_neg (by simp [encode]), decode_encode hlt]
      simp only [if_true, sizeOnDisk]
      rw [hparse, drop_left' length_encode, ih hjson]
      rfl
    · -- the frame is cut
      rw [if_neg hn, replay, decode_take hlt (by omega)]
      split <;> rfl

theorem replayable_of_torn (file : WalFile) (htorn : file.torn = some k)
    (hk : k ≤ file.records.length) :
    (attempts.foldl Attempt.write file).replayable = file.records.take k := by
  induction attempts generalizing file with
  | nil => simp [WalFile.replayable, htorn]
  | cons attempt attempts ih =>
    rw [foldl_cons]
    cases attempt with
    | appended record =>
      have hlonger : k ≤ (file.append record).records.length := by
        rw [WalFile.append, length_append]
        omega
      rw [Attempt.write, ih (file.append record) htorn hlonger, WalFile.append,
        take_append_of_le_length hk]
    | failed record kept =>
      simp only [Attempt.write, WalFile.tear]
      split
      · exact ih _ htorn hk
      · exact ih _ (by simp [htorn]) hk

/-- The file is the frames of the records that a replay reaches, and bytes that start with no
frame. -/
theorem contents_eq (file : WalFile) (htorn : file.torn = none)
    (hdetected : Attempt.Detected crc32c json attempts) : ∃ records scrap,
      (attempts.foldl Attempt.write file).replayable = file.records ++ records ∧
      Attempt.contents crc32c json attempts = written crc32c json records ++ scrap ∧
      decode crc32c scrap = none := by
  induction attempts generalizing file with
  | nil => exact ⟨[], [], by simp [WalFile.replayable, htorn], rfl, rfl⟩
  | cons attempt attempts ih =>
    cases attempt with
    | appended record =>
      obtain ⟨records, scrap, hfile, hcontents, hscrap⟩ := ih (file.append record) htorn hdetected
      refine ⟨record :: records, scrap, ?_, ?_, hscrap⟩
      · rw [foldl_cons, Attempt.write, hfile]
        simp [WalFile.append]
      · rw [written_cons, append_assoc, ← hcontents]
        rfl
    | failed record kept =>
      rw [Attempt.Detected] at hdetected
      rw [foldl_cons, Attempt.write, WalFile.tear]
      split at hdetected
      · next hkept =>
        subst hkept
        exact ih _ htorn hdetected
      · next hkept =>
        refine ⟨[], _, ?_, rfl, hdetected⟩
        rw [if_neg hkept, htorn, replayable_of_torn _ rfl (by simp)]
        simp

/-- A crash that leaves the first `kept` bytes of a log file, with all that was synced, is the
cut of the engine's file to the records that lie in them as a whole.  Appends may have failed:
the file is then the frames in front of the first torn one and bytes that start with no frame,
and both sides end there. -/
theorem replay_crash (s : Engine) (seq synced kept : Nat) (attempts : List Attempt)
    (hfile : s.wals[seq]? = some { Attempt.file attempts with synced })
    (hjson : ∀ record ∈ (Attempt.file attempts).replayable,
      parse (json record) = .ok record ∧ (json record).length < 2 ^ 32)
    (hdetected : Attempt.Detected crc32c json attempts)
    (hsynced : (written crc32c json ((Attempt.file attempts).replayable.take synced)).length ≤
      kept) :
    (s.crash { wals := fun _ => whole json (Attempt.file attempts).replayable kept }).wals[seq]?.map
        .ok =
      some (replay crc32c parse ((Attempt.contents crc32c json attempts).take kept)) := by
  obtain ⟨records, scrap, hrecords, hcontents, hscrap⟩ := contents_eq {} rfl hdetected
  replace hrecords : (Attempt.file attempts).replayable = records := hrecords
  have hcrash (k : Nat) : (s.crash { wals := fun _ => k }).wals[seq]? =
      some (records.take (max synced k)) := by
    simp [Engine.crash, hfile, ← hrecords, WalFile.replayable]
  have hcut := le_whole hsynced
  rw [hrecords] at hjson hcut
  rw [hcrash, hcontents, replay_take hjson hscrap, hrecords, Option.map_some]
  congr 2
  rcases le_or_gt synced (whole json records kept) with hle | hlt
  · rw [max_eq_right hle]
  · rw [max_eq_left hlt.le, take_of_length_le (by omega), take_of_length_le (by omega)]

end Frame

/-! ### A torn append between two others -/

namespace Frame

namespace Example

def ascii (text : String) : Bytes := text.toList.map Char.toUInt8

/-- An enum variant of one string field, as `serde_json` writes it. -/
def variant (tag field value : String) : Bytes :=
  ascii ("\x7b\"" ++ tag ++ "\":\x7b\"" ++ field ++ "\":\"" ++ value ++ "\"\x7d\x7d")

def json : WalRecord → Bytes
  | .topicDelete name => variant "TopicDelete" "name" name
  | .groupDelete group => variant "GroupDelete" "group" group
  | _ => []

/-- The value of such a variant. -/
def value (tag field : String) (payload : Bytes) : Option String :=
  let opening := variant tag field ""
  let value := (payload.drop (opening.length - 3)).take (payload.length - opening.length)
  let value := String.ofList (value.map fun b => Char.ofNat b.toNat)
  if variant tag field value = payload then some value else none

def parse (payload : Bytes) : Except Error WalRecord :=
  match value "TopicDelete" "name" payload, value "GroupDelete" "group" payload with
  | some name, _ => .ok (.topicDelete name)
  | none, some group => .ok (.groupDelete group)
  | none, none => .error (.message "serde_json")

def attempts : List Attempt :=
  [.appended (.topicDelete "orders"), .appended (.groupDelete "audit"),
    .failed (.topicDelete "refunds") 17, .appended (.groupDelete "billing")]

def engine : Engine := { wals := .insert ∅ 2 { Attempt.file attempts with synced := 1 } }

end Example

open Example in
/-- The last record is acknowledged behind a torn frame and is not replayed; a crash that leaves
all but one byte of the second record leaves the first. -/
theorem replay_crash_torn :
    (engine.crash { wals := fun _ => 1 }).wals[2]?.map .ok =
        some (replay crc32c parse ((Attempt.contents crc32c json attempts).take 89)) ∧
      (engine.crash { wals := fun _ => 4 }).wals[2]? =
        some [.topicDelete "orders", .groupDelete "audit"] := by
  have hwhole : whole json (Attempt.file attempts).replayable 89 = 1 := by decide +kernel
  have hjson : ∀ record ∈ (Attempt.file attempts).replayable,
      parse (json record) = .ok record ∧ (json record).length < 2 ^ 32 := by decide +kernel
  have hdetected : Attempt.Detected crc32c json attempts := by
    show decode crc32c _ = none
    decide +kernel
  have hcrash := replay_crash engine 2 1 89 attempts rfl hjson hdetected (by decide +kernel)
  rw [hwhole] at hcrash
  exact ⟨hcrash, by decide +kernel⟩

end Frame

end Tansu.Nvme
