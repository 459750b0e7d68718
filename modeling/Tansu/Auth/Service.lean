import Mathlib

/-!
# Authentication of a connection

`BytesFrameService` with authentication enabled, and the two services that move
its stage: `SaslHandshakeService` and `SaslAuthenticateService`.  Every accepted
connection gets services of its own, and its requests are served one after the
other.  The SASL library is outside: `Library` says what is assumed of it.  Which
requests decode, and what the other services answer, is left open; answers are not
encoded.
-/

namespace Tansu.Auth

/-! ## The SASL library -/

/-- The properties of a session that the callbacks read. -/
structure Properties where
  authId : Option String := none
  authzId : Option String := none
  password : Option String := none

/-- What a step of a session returns. -/
structure Stepped (Session : Type) where
  session : Session
  outcome : List UInt8
  finished : Bool
  /-- What the validate callback has been called with, if it has been. -/
  validated : Option Properties

inductive StepResult (Session : Type)
  | ok (stepped : Stepped Session)
  | error
  | panicked

/-- Whether a mechanism name starts with `SCRAM-`. -/
def isScram (mechanism : String) : Bool := "SCRAM-".toList.isPrefixOf mechanism.toList

/-- The SASL library with the features that the workspace enables: the SCRAM
mechanisms and `OAUTHBEARER`, without the defaults. -/
structure Library (Session : Type) where
  /-- `Mechname::parse`. -/
  parses : String → Bool
  startSuggested : String → Option Session
  mechanism : Session → String
  step : Session → List UInt8 → StepResult Session
  /-- The exchange so far has proved knowledge of the stored credential of a user. -/
  proved : Session → String → Prop
  offered : ∀ name s, startSuggested name = some s →
    isScram (mechanism s) ∨ mechanism s = "OAUTHBEARER"
  mechanism_step : ∀ s token stepped, step s token = .ok stepped →
    mechanism stepped.session = mechanism s
  /-- The validate callback is called for SCRAM only after the proof verified. -/
  scram_proved : ∀ s token stepped context authId, step s token = .ok stepped →
    isScram (mechanism s) → stepped.validated = some context → context.authId = some authId →
    proved stepped.session authId

/-! ## The callback -/

inductive AuthError
  | bad
  | missingProperty (mechanism property : String)
  | unknownMechanism (mechanism : String)
deriving DecidableEq

structure Success where
  authId : String
deriving DecidableEq

/-- `Callback::check`. -/
def check (mechanism : String) (context : Properties) : Except AuthError Success :=
  if mechanism = "PLAIN" then
    match context.password with
    | none => .error (.missingProperty mechanism "Password")
    | some _ =>
      match context.authId with
      | none => .error (.missingProperty mechanism "AuthId")
      | some authId => .ok ⟨authId⟩
  else if isScram mechanism then
    match context.authId with
    | none => .error (.missingProperty mechanism "AuthId")
    | some authId =>
      match context.authzId with
      | none => .ok ⟨authId⟩
      | some authzId => if authzId = authId then .ok ⟨authId⟩ else .error .bad
  else .error (.unknownMechanism mechanism)

/-- An identity under a mechanism that is offered is that of a SCRAM exchange. -/
theorem check_ok {mechanism : String} {context : Properties} {success : Success}
    (hoffered : isScram mechanism ∨ mechanism = "OAUTHBEARER")
    (h : check mechanism context = .ok success) :
    isScram mechanism ∧ context.authId = some success.authId := by
  have hplain : mechanism ≠ "PLAIN" := by
    rintro rfl
    rcases hoffered with hscram | heq
    · exact absurd hscram (by decide +kernel)
    · exact absurd heq (by decide)
  unfold check at h
  rw [if_neg hplain] at h
  split at h
  · next hscram =>
    split at h
    · cases h
    · next authId hid =>
      split at h
      · cases h
        exact ⟨hscram, hid⟩
      · split at h <;> cases h
        exact ⟨hscram, hid⟩
  · cases h

/-- `session.validation()` as the services use it: an identity or nothing. -/
def identity (mechanism : String) (validated : Option Properties) : Option Success :=
  validated.bind fun context => (check mechanism context).toOption

/-! ## The stage of a connection -/

inductive Stage (Session : Type)
  | server
  | session (s : Session)
  | finished (success : Option Success)

structure Connection (Session : Type) where
  stage : Option (Stage Session) := some .server
  /-- A panic in the library poisons the mutex of the stage. -/
  poisoned : Bool := false
  v0 : Option Bool := none

/-- A validated identity is required: SCRAM finishes even on a bad proof. -/
def Connection.isAuthenticated {Session : Type} (c : Connection Session) : Bool :=
  !c.poisoned && match c.stage with
    | some (.finished (some _)) => true
    | _ => false

/-! ## Requests -/

inductive Body
  | saslHandshake (mechanism : String)
  | saslAuthenticate (authBytes : List UInt8)
  | other

structure Frame where
  apiKey : Int
  apiVersion : Int
  body : Body

def handshakeKey : Int := 17
def apiVersionsKey : Int := 18
def authenticateKey : Int := 36

/-- The requests that the gate lets through in every state. -/
def passes (apiKey : Int) : Bool :=
  decide (apiKey = handshakeKey) || decide (apiKey = authenticateKey) ||
    decide (apiKey = apiVersionsKey)

inductive ErrorCode
  | none
  | unsupportedSaslMechanism
  | illegalSaslState
  | saslAuthenticationFailed
deriving DecidableEq

structure SaslHandshakeResponse where
  errorCode : ErrorCode
  mechanisms : List String

structure SaslAuthenticateResponse where
  errorCode : ErrorCode
  errorMessage : String
  authBytes : List UInt8
  sessionLifetimeMs : Option Int

inductive Response
  | saslHandshake (response : SaslHandshakeResponse)
  | saslAuthenticate (response : SaslAuthenticateResponse)
  | other

inductive Error
  | notAuthenticated
  | decode
  | poison
  | sasl
  | join
  /-- The body is not of the type that the service of the route takes. -/
  | body
  /-- Another service has failed. -/
  | service
deriving DecidableEq

/-! ## What happens on a connection -/

/-- What the inner service receives, and what the SASL services make of it. -/
inductive Event (Session : Type)
  /-- A handshake, with the session it starts. -/
  | handshake (mechanism : String) (started : Option Session)
  /-- A token after which the exchange goes on. -/
  | continued (s : Session) (token : List UInt8) (stepped : Stepped Session)
  /-- A token that completes the exchange. -/
  | finished (s : Session) (token : List UInt8) (stepped : Stepped Session)
      (success : Option Success)
  /-- An authentication that fails. -/
  | failed
  /-- Any other request. -/
  | received (apiKey : Int)

section

variable {Session : Type} (lib : Library Session)

/-- What a service leaves: the connection, what happened, and its answer. -/
structure Served (Session : Type) where
  connection : Connection Session
  events : List (Event Session)
  answer : Except Error Response

/-- `SaslHandshakeService`.  Whatever the stage was, the server is taken out of it,
and only a mechanism that starts puts a session in its place. -/
def handshake (c : Connection Session) (mechanism : String) : Served Session :=
  if c.poisoned then ⟨c, [.handshake mechanism none], .error .poison⟩
  else if lib.parses mechanism then
    match lib.startSuggested mechanism with
    | none => ⟨{ c with stage := none }, [.handshake mechanism none], .error .sasl⟩
    | some s => ⟨{ c with stage := some (.session s) }, [.handshake mechanism (some s)],
        .ok (.saslHandshake ⟨.none, [lib.mechanism s]⟩)⟩
  else ⟨{ c with stage := none }, [.handshake mechanism none],
    .ok (.saslHandshake ⟨.unsupportedSaslMechanism, [mechanism]⟩)⟩

/-- `SaslAuthenticateService`. -/
def authenticate (sessionLifetimeMs : Option Int) (c : Connection Session)
    (authBytes : List UInt8) : Served Session :=
  if c.poisoned then ⟨c, [.failed], .error .poison⟩
  else
    match c.stage with
    | some (.session s) =>
      match lib.step s authBytes with
      | .error => ⟨{ c with stage := none }, [.failed],
          .ok (.saslAuthenticate ⟨.saslAuthenticationFailed, "SASL Authentication failed.", [],
            some 0⟩)⟩
      | .panicked => ⟨{ c with poisoned := true }, [.failed], .error .join⟩
      | .ok stepped =>
        let success := identity (lib.mechanism s) stepped.validated
        let answer := .ok (.saslAuthenticate ⟨.none, "NONE", stepped.outcome, sessionLifetimeMs⟩)
        if stepped.finished then
          ⟨{ c with stage := some (.finished success) },
            [.finished s authBytes stepped success], answer⟩
        else ⟨{ c with stage := some (.session stepped.session) },
          [.continued s authBytes stepped], answer⟩
    | _ => ⟨{ c with stage := none }, [.failed],
        .ok (.saslAuthenticate ⟨.illegalSaslState,
          "Request is not valid given the current SASL state.", [], some 0⟩)⟩

/-- `FrameRouteService`: by the key of the frame.  A body of another type is refused
before the service sees it. -/
def route (sessionLifetimeMs : Option Int) (accepts : Bool) (c : Connection Session)
    (frame : Frame) : Served Session :=
  if frame.apiKey = handshakeKey then
    match frame.body with
    | .saslHandshake mechanism => handshake lib c mechanism
    | _ => ⟨c, [], .error .body⟩
  else if frame.apiKey = authenticateKey then
    match frame.body with
    | .saslAuthenticate authBytes => authenticate lib sessionLifetimeMs c authBytes
    | _ => ⟨c, [], .error .body⟩
  else ⟨c, [.received frame.apiKey], if accepts then .ok .other else .error .service⟩

/-- A frame that is opaque while a version 0 handshake goes on. -/
def tokenFrame (request : List UInt8) : Frame :=
  ⟨authenticateKey, 0, .saslAuthenticate (request.drop 4)⟩

/-- `BytesFrameService::serve`.  A request that is shorter than its size field does not
come from the connection, so the slice behind that field is always there. -/
def serve (decode : List UInt8 → Option Frame) (sessionLifetimeMs : Option Int)
    (c : Connection Session) (request : List UInt8) (accepts : Bool) : Served Session :=
  let saslHandshakeV0 := c.v0.getD false
  match if saslHandshakeV0 then some (tokenFrame request) else decode request with
  | none => ⟨c, [], .error .decode⟩
  | some frame =>
    if !(c.isAuthenticated || passes frame.apiKey) then ⟨c, [], .error .notAuthenticated⟩
    else
      let served := route lib sessionLifetimeMs accepts c frame
      match served.answer with
      | .error _ => served
      | .ok _ =>
        if saslHandshakeV0 then
          -- When authenticated, this is the final handshake.
          if served.connection.isAuthenticated then
            { served with connection := { served.connection with v0 := none } }
          else served
        else if frame.apiKey = handshakeKey ∧ frame.apiVersion = 0 then
          -- The messages that follow are opaque.
          { served with connection := { served.connection with v0 := some true } }
        else served

end

end Tansu.Auth
