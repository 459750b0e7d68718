import Tansu.Lib.Tasks

/-!
# Optimistic concurrency over an object store

`OptiCon` of `dynostore/opticon.rs`: a value kept as one object of an object
store, and a copy of it that the clones of one `OptiCon` share behind a mutex.
A writer runs its closure on the copy, puts the result on the condition that the
object is still the one the copy was read from, and on a lost race reads the
object again and starts over.  Each request to the store and each use of the
mutex is a section of its own.

The store is assumed to be what the conditional put needs: a put compares and
swaps atomically, and two objects with the same version have the same content
(both unique versions and content hashes are like that).  The `local` mode, which
overwrites unconditionally, does not use conditional puts and is not modelled.
-/

namespace Tansu.Dynostore

open Tansu.Lib

/-- What `serde_json` writes, it reads back. -/
structure Codec (D B : Type) where
  encode : D → B
  decode : B → Option D
  decode_encode : ∀ d, decode (encode d) = some d

/-- A value that is stored as it is. -/
def Codec.plain (D : Type) : Codec D D := ⟨id, some, fun _ => rfl⟩

/-! ## The object store -/

structure Object (V B : Type) where
  version : V
  payload : B

/-- `PutMode::Create` and `PutMode::Update`. -/
inductive PutMode (V : Type)
  | create
  | update (version : V)

inductive PutError
  | alreadyExists
  | precondition
deriving DecidableEq

/-- The objects one path has held, the newest one first. -/
structure Store (V B : Type) where
  objects : List (Object V B) := []

namespace Store

variable {V B : Type}

def current (s : Store V B) : Option (Object V B) := s.objects.head?

variable [DecidableEq V] [DecidableEq B]

/-- A version that the store may give to this content. -/
def admits (s : Store V B) (version : V) (payload : B) : Bool :=
  s.objects.all fun o => decide (o.version = version → o.payload = payload)

/-- The condition of a put. -/
def verdict (s : Store V B) : PutMode V → Option PutError
  | .create => if s.current.isSome then some .alreadyExists else none
  | .update version =>
    if s.current.any (·.version = version) then none else some .precondition

def put (s : Store V B) (object : Object V B) : Store V B := ⟨object :: s.objects⟩

end Store

/-! ## Sections -/

structure DataVersion (D V : Type) where
  data : D
  version : Option V

/-- `PutMode::from(&DataVersion)`. -/
def DataVersion.mode {D V : Type} (dv : DataVersion D V) : PutMode V :=
  match dv.version with
  | none => .create
  | some version => .update version

/-- A section of a call on the `OptiCon` whose clones share copy `cell`. -/
inductive Section (D E V : Type)
  /-- The closure runs on the copy. -/
  | apply (cell : Nat) (f : D → D × E)
  | put (cell : Nat) (f : D → D × E) (mode : PutMode V) (data : D) (outcome : E)
  /-- The copy is replaced by what was put. -/
  | store (cell : Nat) (dv : DataVersion D V) (outcome : E)
  | get (cell : Nat) (f : D → D × E)
  /-- The copy is replaced by what was read. -/
  | refresh (cell : Nat) (f : D → D × E) (dv : Option (DataVersion D V))
  /-- A reader takes the version of the copy. -/
  | version (cell : Nat)
  | getOpts (cell : Nat) (ifNoneMatch : Option V)
  | replace (cell : Nat) (dv : Option (DataVersion D V))

inductive Request (D E : Type)
  | withMut (cell : Nat) (f : D → D × E)
  | read (cell : Nat)

inductive OptiConError
  | objectStore
  | serdeJson

/-- What the store decides when a section runs. -/
structure Choice (V : Type) where
  /-- The version of the object that a put creates. -/
  version : V
  /-- The request fails for another reason than its condition. -/
  fault : Bool := false

structure Shared (D V B : Type) where
  store : Store V B
  cells : Nat → Option (DataVersion D V) := fun _ => none

variable {D E V B : Type}

def Shared.setCell (s : Shared D V B) (cell : Nat) (dv : Option (DataVersion D V)) :
    Shared D V B :=
  { s with cells := Function.update s.cells cell dv }

abbrev Step (D E V B : Type) := Outcome (Shared D V B) (Section D E V) OptiConError

/-- The copy that a current object is read into. -/
def fetched (codec : Codec D B) (object : Object V B) : Option (DataVersion D V) :=
  (codec.decode object.payload).map fun data => ⟨data, some object.version⟩

variable [Inhabited D] [DecidableEq V] [DecidableEq B] (codec : Codec D B)

def put (s : Shared D V B) (c : Choice V) (cell : Nat) (f : D → D × E) (mode : PutMode V)
    (data : D) (outcome : E) : Step D E V B :=
  if c.fault then .err s .objectStore
  else
    match s.store.verdict mode with
    | some _ => .ok s [.get cell f]
    | none =>
      if s.store.admits c.version (codec.encode data) then
        .ok { s with store := s.store.put ⟨c.version, codec.encode data⟩ }
          [.store cell ⟨data, some c.version⟩ outcome]
      else .blocked

def get (s : Shared D V B) (c : Choice V) (cell : Nat) (f : D → D × E) : Step D E V B :=
  if c.fault then .err s .objectStore
  else
    match s.store.current with
    | none => .ok s [.refresh cell f none]
    | some object =>
      match fetched codec object with
      | none => .err s .serdeJson
      | some dv => .ok s [.refresh cell f (some dv)]

/-- The conditional read of `with`. -/
def getOpts (s : Shared D V B) (c : Choice V) (cell : Nat) (ifNoneMatch : Option V) :
    Step D E V B :=
  if c.fault then .err s .objectStore
  else
    match s.store.current with
    | none => .ok s [.replace cell none]
    | some object =>
      if ifNoneMatch = some object.version then .ok s []
      else
        match fetched codec object with
        | none => .err s .serdeJson
        | some dv => .ok s [.replace cell (some dv)]

def exec (s : Shared D V B) (c : Choice V) : Section D E V → Step D E V B
  | .apply cell f =>
    let dv := (s.cells cell).getD ⟨default, none⟩
    .ok s [.put cell f dv.mode (f dv.data).1 (f dv.data).2]
  | .put cell f mode data outcome => put codec s c cell f mode data outcome
  | .store cell dv _ => .ok (s.setCell cell (some dv)) []
  | .get cell f => get codec s c cell f
  | .refresh cell f dv => .ok (s.setCell cell dv) [.apply cell f]
  | .version cell => .ok s [.getOpts cell ((s.cells cell).bind (·.version))]
  | .getOpts cell ifNoneMatch => getOpts codec s c cell ifNoneMatch
  | .replace cell dv => .ok (s.setCell cell dv) []

def Request.start : Request D E → List (Section D E V)
  | .withMut cell f => [.apply cell f]
  | .read cell => [.version cell]

/-- Any number of callers on any number of copies, over one path. -/
def machine : Machine (Shared D V B) (Section D E V) (Choice V) OptiConError
    (Request D E) Empty where
  start := Request.start
  exec := exec codec
  handler := fun _ => false
  env := fun _ e => nomatch e

end Tansu.Dynostore
