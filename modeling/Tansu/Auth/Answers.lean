import Tansu.Auth.Gate

/-!
# Answers of the SASL services

What a client is told of its exchange, and when its frames are read as bare tokens.  A
step is judged by the connection it finds, so that over a run the frames are tokens from
the handshake that starts an exchange until that exchange is over.
-/

namespace Tansu.Auth

section

variable {Session : Type}

/-- An exchange is going on. -/
def Connection.isRunning (c : Connection Session) : Bool :=
  !c.poisoned && match c.stage with
    | some (.session _) => true
    | _ => false

/-- The frame that `serve` takes a request for. -/
def reads (decode : List UInt8 → Option Frame) (c : Connection Session) (request : List UInt8) :
    Option Frame :=
  if c.v0.getD false then some (tokenFrame request) else decode request

/-- The answer carries `ErrorCode::None`. -/
def accepted : Except Error Response → Bool
  | .ok (.saslHandshake response) => response.errorCode = .none
  | .ok (.saslAuthenticate response) => response.errorCode = .none
  | _ => false

/-- The token of a `SaslAuthenticate`. -/
def Frame.token? (frame : Frame) : Option (List UInt8) :=
  match frame.body with
  | .saslAuthenticate token => if frame.apiKey = authenticateKey then some token else none
  | _ => none

/-- What the answer to a request and the connection behind it have to be. -/
@[mk_iff]
structure Truthful (c : Connection Session) (frame : Frame) (served : Served Session) : Prop where
  /-- The token behind which the exchange is over is accepted exactly if it authenticates. -/
  final : ∀ token, frame.token? = some token → c.isRunning = true →
    served.connection.isRunning = false →
    accepted served.answer = served.connection.isAuthenticated
  stray : ∀ token, frame.token? = some token → c.isRunning = false →
    accepted served.answer = false ∧ served.connection.isAuthenticated = false
  /-- An error ends the connection. -/
  tokens : ∀ response, served.answer = .ok response → served.connection.v0.getD false =
    if c.v0.getD false then served.connection.isRunning
    else decide (frame.apiKey = handshakeKey ∧ frame.apiVersion = 0) && accepted served.answer

/-- The request neither completes an exchange without an identity, nor breaks off one of
version 0, nor starts one of version 0 under a name that is not a mechanism's. -/
@[mk_iff]
structure Sound (lib : Library Session) (c : Connection Session) (frame : Frame) : Prop where
  final : ∀ token, frame.token? = some token → c.poisoned = false →
    ∀ s, c.stage = some (.session s) → ∀ stepped, lib.step s token = .ok stepped →
      stepped.finished = true → (identity (lib.mechanism s) stepped.validated).isSome = true
  unbroken : ∀ token, frame.token? = some token → c.poisoned = false → c.v0.getD false = true →
    ∃ s, c.stage = some (.session s) ∧ lib.step s token ≠ .error
  parsed : ∀ mechanism, frame.apiKey = handshakeKey → frame.apiVersion = 0 →
    frame.body = .saslHandshake mechanism → c.poisoned = false → lib.parses mechanism = true

end

variable {Session : Type} {lib : Library Session} {decode : List UInt8 → Option Frame}
  {lifetime : Option Int} {c : Connection Session} {request token : List UInt8} {accepts : Bool}
  {frame : Frame}

theorem Frame.token?_eq_some (h : frame.token? = some token) :
    frame.apiKey = authenticateKey ∧ frame.body = .saslAuthenticate token := by
  unfold Frame.token? at h
  split at h
  · next token' hbody =>
    split at h
    · next hkey =>
      cases h
      exact ⟨hkey, hbody⟩
    · cases h
  · cases h

theorem truthful_token_iff (hread : reads decode c request = some frame)
    (htoken : frame.token? = some token) :
    Truthful c frame (serve lib decode lifetime c request accepts) ↔ Sound lib c frame := by
  obtain ⟨hkey, hbody⟩ := Frame.token?_eq_some htoken
  have hother : ¬authenticateKey = handshakeKey := by decide
  have hpasses : passes authenticateKey = true := by decide
  unfold serve
  dsimp only
  rw [show (if c.v0.getD false then some (tokenFrame request) else decode request) = some frame
    from hread]
  simp only [truthful_iff, sound_iff, route, htoken, hkey, hbody, hother,
    hpasses, Option.some.injEq,
    forall_eq', false_implies, implies_true, and_true, false_and, decide_false, Bool.false_and,
    Bool.or_true, Bool.not_true, Bool.false_eq_true, if_false, if_true]
  unfold authenticate
  by_cases hpoisoned : c.poisoned = true
  · simp [hpoisoned, Connection.isRunning, Connection.isAuthenticated, accepted]
  simp only [hpoisoned, Bool.false_eq_true, if_false]
  cases hstage : c.stage with
  | none => simp [hstage, hpoisoned, Connection.isRunning, Connection.isAuthenticated, accepted]
  | some stage =>
    cases stage with
    | server => simp [hstage, hpoisoned, Connection.isRunning, Connection.isAuthenticated, accepted]
    | finished => simp [hstage, hpoisoned, Connection.isRunning,
        Connection.isAuthenticated, accepted]
    | session s =>
      cases hstep : lib.step s token with
      | error =>
        simp [hstage, hstep, hpoisoned, Connection.isRunning, Connection.isAuthenticated, accepted]
      | panicked =>
        simp [hstage, hstep, hpoisoned, Connection.isRunning, Connection.isAuthenticated, accepted]
      | ok stepped =>
        by_cases hfin : stepped.finished = true
        · cases hid : identity (lib.mechanism s) stepped.validated <;>
          by_cases hv0 : c.v0.getD false = true <;>
            simp [hstage, hstep, hfin, hid, hv0, hpoisoned, Connection.isRunning,
              Connection.isAuthenticated, accepted]
        · simp [hstage, hstep, hfin, hpoisoned, Connection.isRunning, Connection.isAuthenticated,
            accepted]

theorem route_v0 (htoken : frame.token? = none) :
    (route lib lifetime accepts c frame).connection.v0 = c.v0 := by
  unfold route
  split
  · split
    · unfold handshake
      split
      · rfl
      · split
        · split <;> rfl
        · rfl
    · rfl
  · split
    · next hkey =>
      split
      · next hbody => simp [Frame.token?, hkey, hbody] at htoken
      · rfl
    · rfl

theorem truthful_other_iff (hread : reads decode c request = some frame)
    (htoken : frame.token? = none) :
    Truthful c frame (serve lib decode lifetime c request accepts) ↔ Sound lib c frame := by
  have hv0 : c.v0.getD false = false := by
    by_contra hv0
    rw [reads, if_pos (by simpa using hv0)] at hread
    cases hread
    simp [Frame.token?, tokenFrame] at htoken
  have hdecode : decode request = some frame := by simpa [reads, hv0] using hread
  have hv0' : (route lib lifetime accepts c frame).connection.v0 = c.v0 := route_v0 htoken
  simp only [truthful_iff, sound_iff, htoken, reduceCtorEq, false_implies, implies_true, true_and,
    hv0, Bool.false_eq_true, if_false]
  unfold serve
  simp only [hv0, Bool.false_eq_true, if_false, hdecode]
  by_cases hstart : frame.apiKey = handshakeKey ∧ frame.apiVersion = 0
  · obtain ⟨hkey, hversion⟩ := hstart
    have hpasses : passes handshakeKey = true := by decide
    simp only [hkey, hversion, hpasses, route, Bool.or_true, Bool.not_true, Bool.false_eq_true,
      if_false, if_true, and_self, true_implies]
    cases frame.body with
    | saslHandshake mechanism =>
      unfold handshake
      by_cases hpoisoned : c.poisoned = true
      · simp [hpoisoned]
      by_cases hparses : lib.parses mechanism = true
      · cases hsession : lib.startSuggested mechanism <;>
          simp [hpoisoned, hparses, hsession, accepted]
      · simp [hpoisoned, hparses, accepted]
    | saslAuthenticate => simp
    | other => simp
  · refine iff_of_true (fun response _ => ?_) fun _ hkey hversion => absurd ⟨hkey, hversion⟩ hstart
    simp only [hstart, decide_false, Bool.false_and, if_false]
    split
    · exact hv0
    · split <;> rw [hv0', hv0]

/-! ## Every connection -/

variable (lib decode lifetime) in
/-- `P` holds of every request that is read on a connection. -/
def Always (P : Connection Session → Frame → Served Session → Prop) :
    Connection Session → List (List UInt8 × Bool) → Prop
  | _, [] => True
  | c, (request, accepts) :: requests =>
    let served := serve lib decode lifetime c request accepts
    (∀ frame, reads decode c request = some frame → P c frame served) ∧
      Always P served.connection requests

theorem always_truthful_iff (requests : List (List UInt8 × Bool)) :
    Always lib decode lifetime Truthful c requests ↔
      Always lib decode lifetime (fun c frame _ => Sound lib c frame) c requests := by
  induction requests generalizing c with
  | nil => exact Iff.rfl
  | cons request requests ih =>
    refine and_congr (forall₂_congr fun frame hread => ?_) ih
    cases htoken : frame.token? with
    | none => exact truthful_other_iff hread htoken
    | some token => exact truthful_token_iff hread htoken

/-- On every connection the answers are truthful, and frames are read as tokens exactly while
an exchange of version 0 goes on, if and only if every request of the connection is sound. -/
theorem sasl_answers_iff {Session : Type} (lib : Library Session)
    (decode : List UInt8 → Option Frame) (lifetime : Option Int)
    (requests : List (List UInt8 × Bool)) :
    Always lib decode lifetime Truthful {} requests ↔
      Always lib decode lifetime (fun c frame _ => Sound lib c frame) {} requests :=
  always_truthful_iff requests

theorem sasl_answers_version_zero :
    Always scram oneByte none Truthful {}
      [([0, 0, 0, 0, 17, 0], true), ([0, 0, 0, 0, 1], true), ([0, 0, 0, 0, 7], true)] := by
  refine (sasl_answers_iff scram oneByte none _).2 ⟨fun frame hread => ?_, fun frame hread => ?_,
    fun frame hread => ?_, trivial⟩
  · cases hread
    exact ⟨fun _ h => (by cases h), fun _ h => (by cases h), fun _ _ _ _ _ => rfl⟩
  · cases hread
    refine ⟨fun token h _ s hs stepped hstep hfin => ?_, fun token h _ _ => ⟨.initial, rfl, ?_⟩,
      fun _ h => (by cases h)⟩
    · cases h
      cases hs
      cases hstep
      cases hfin
    · cases h
      exact fun hstep => (by cases hstep)
  · cases hread
    refine ⟨fun token h _ s hs stepped hstep _ => ?_,
      fun token h _ _ => ⟨.challenged, rfl, ?_⟩, fun _ h => (by cases h)⟩
    · cases h
      cases hs
      cases hstep
      decide +kernel
    · cases h
      exact fun hstep => (by cases hstep)

/-- A wrong proof is answered with `ErrorCode::None`, and behind one of version 0 the frames
are still read as tokens. -/
theorem wrong_password_accepted :
    ¬Always scram oneByte none Truthful {}
      [([0, 0, 0, 0, 17, 1], true), ([0, 0, 0, 0, 36, 1], true), ([0, 0, 0, 0, 36, 8], true)] ∧
    ¬Always scram oneByte none Truthful {}
      [([0, 0, 0, 0, 17, 0], true), ([0, 0, 0, 0, 1], true), ([0, 0, 0, 0, 8], true)] :=
  ⟨fun h => absurd ((h.2.2.1 _ rfl).final [8] rfl rfl rfl) (by decide +kernel),
    fun h => absurd ((h.2.2.1 _ rfl).tokens _ rfl) (by decide +kernel)⟩

end Tansu.Auth
