import Tansu.Auth.Service

/-!
# The SASL gate

The inner service receives a request other than `ApiVersions`, `SaslHandshake` and
`SaslAuthenticate` only behind an exchange that was started by a handshake on the same
connection, ran to completion with an identity whose credential the client has proved
to know, and was not superseded.  The stage carries the argument: a session in it has
come from a handshake, and an identity in it from such a session.
-/

namespace Tansu.Auth

variable {Session : Type} (lib : Library Session)

/-! ## Exchanges -/

/-- What happens on a connection from a handshake on that starts with `s₀`, as long as
its exchange goes on; the session is `s` by then. -/
inductive Exchange (s₀ : Session) : List (Event Session) → Session → Prop
  | start : Exchange s₀ [] s₀
  | continued {events : List (Event Session)} {s : Session} {token : List UInt8}
      {stepped : Stepped Session} : Exchange s₀ events s → lib.step s token = .ok stepped →
      stepped.finished = false →
      Exchange s₀ (events ++ [.continued s token stepped]) stepped.session
  | received {events : List (Event Session)} {s : Session} (apiKey : Int) :
      Exchange s₀ events s → Exchange s₀ (events ++ [.received apiKey]) s

/-- The last handshake has started the exchange that is going on. -/
def Ongoing (past : List (Event Session)) (s : Session) : Prop :=
  ∃ before mechanism s₀ during, past = before ++ .handshake mechanism (some s₀) :: during ∧
    lib.startSuggested mechanism = some s₀ ∧ Exchange lib s₀ during s

/-- An exchange ran to completion with an identity whose credential is proved, and
neither a handshake nor another authentication came behind it. -/
def Authenticated (past : List (Event Session)) : Prop :=
  ∃ exchange s token stepped success after,
    past = exchange ++ .finished s token stepped (some success) :: after ∧
    Ongoing lib exchange s ∧ lib.step s token = .ok stepped ∧ stepped.finished = true ∧
    lib.proved stepped.session success.authId ∧
    ∀ ev ∈ after, ∃ apiKey, ev = .received apiKey

/-- Every request that the gate protects came behind such an exchange. -/
def Gated (history : List (Event Session)) : Prop :=
  ∀ past apiKey later, history = past ++ .received apiKey :: later → passes apiKey = false →
    Authenticated lib past

variable {lib} {past : List (Event Session)} {s : Session} {apiKey : Int} {token : List UInt8}
  {stepped : Stepped Session} {ev : Event Session}

theorem Exchange.mechanism {s₀ : Session} (h : Exchange lib s₀ past s) :
    lib.mechanism s = lib.mechanism s₀ := by
  induction h with
  | start => rfl
  | continued _ hstep _ ih => rw [lib.mechanism_step _ _ _ hstep, ih]
  | received _ _ ih => exact ih

theorem Ongoing.offered (h : Ongoing lib past s) :
    isScram (lib.mechanism s) ∨ lib.mechanism s = "OAUTHBEARER" := by
  obtain ⟨_, mechanism, s₀, _, -, hstart, hexchange⟩ := h
  rw [hexchange.mechanism]
  exact lib.offered mechanism s₀ hstart

theorem Ongoing.continued (h : Ongoing lib past s) (hstep : lib.step s token = .ok stepped)
    (hrunning : stepped.finished = false) :
    Ongoing lib (past ++ [.continued s token stepped]) stepped.session := by
  obtain ⟨before, mechanism, s₀, during, rfl, hstart, hexchange⟩ := h
  exact ⟨before, mechanism, s₀, during ++ [.continued s token stepped], by simp, hstart,
    hexchange.continued hstep hrunning⟩

theorem Ongoing.received (h : Ongoing lib past s) (apiKey : Int) :
    Ongoing lib (past ++ [.received apiKey]) s := by
  obtain ⟨before, mechanism, s₀, during, rfl, hstart, hexchange⟩ := h
  exact ⟨before, mechanism, s₀, during ++ [.received apiKey], by simp, hstart,
    hexchange.received apiKey⟩

theorem Authenticated.received (h : Authenticated lib past) (apiKey : Int) :
    Authenticated lib (past ++ [.received apiKey]) := by
  obtain ⟨exchange, s, token, stepped, success, after, rfl, hongoing, hstep, hfin, hproved,
    hafter⟩ := h
  refine ⟨exchange, s, token, stepped, success, after ++ [.received apiKey], by simp, hongoing,
    hstep, hfin, hproved, fun ev hev => ?_⟩
  rcases List.mem_append.1 hev with hev | hev
  · exact hafter ev hev
  · exact ⟨apiKey, List.mem_singleton.1 hev⟩

/-- The token that completes an exchange with an identity proves its credential. -/
theorem Ongoing.finished (h : Ongoing lib past s) {success : Success}
    (hstep : lib.step s token = .ok stepped) (hfin : stepped.finished = true)
    (hid : identity (lib.mechanism s) stepped.validated = some success) :
    Authenticated lib (past ++ [.finished s token stepped (some success)]) := by
  obtain ⟨context, hvalidated, hcheck⟩ := Option.bind_eq_some_iff.1 hid
  have hok : check (lib.mechanism s) context = .ok success := by
    cases hc : check (lib.mechanism s) context with
    | error e =>
      rw [hc] at hcheck
      cases hcheck
    | ok success' =>
      rw [hc] at hcheck
      cases hcheck
      rfl
  obtain ⟨hscram, hauth⟩ := check_ok h.offered hok
  exact ⟨past, s, token, stepped, success, [], rfl, h, hstep, hfin,
    lib.scram_proved s token stepped context success.authId hstep hscram hvalidated hauth,
    fun _ hev => absurd hev List.not_mem_nil⟩

/-- An event that is no protected request keeps the history gated. -/
theorem Gated.concat (h : Gated lib past)
    (hev : ∀ apiKey, ev = .received apiKey → passes apiKey = false → Authenticated lib past) :
    Gated lib (past ++ [ev]) := by
  intro before apiKey later heq hclosed
  rcases List.eq_nil_or_concat later with rfl | ⟨later', last, rfl⟩
  · obtain ⟨rfl, hlast⟩ := List.append_inj' heq rfl
    exact hev apiKey (List.singleton_inj.1 hlast) hclosed
  · rw [List.concat_eq_append, ← List.cons_append, ← List.append_assoc] at heq
    exact h before apiKey later' (List.append_inj' heq rfl).1 hclosed

/-! ## The invariant of a connection -/

variable (lib) in
/-- What is known of the stage of a connection with this history. -/
structure Inv (c : Connection Session) (history : List (Event Session)) : Prop where
  session : ∀ s, c.stage = some (.session s) → Ongoing lib history s
  finished : ∀ success, c.stage = some (.finished (some success)) → Authenticated lib history
  gated : Gated lib history

variable {c : Connection Session} {history : List (Event Session)}

theorem Inv.authenticated (h : Inv lib c history) (ha : c.isAuthenticated) :
    Authenticated lib history := by
  unfold Connection.isAuthenticated at ha
  obtain ⟨-, ha⟩ := Bool.and_eq_true_iff.1 ha
  split at ha
  · next success hstage => exact h.finished success hstage
  · cases ha

theorem Inv.setV0 (h : Inv lib c history) (v0 : Option Bool) : Inv lib { c with v0 } history :=
  ⟨h.session, h.finished, h.gated⟩

theorem Inv.emptied (h : Inv lib c history) (hev : ∀ apiKey, ev ≠ .received apiKey) :
    Inv lib { c with stage := none } (history ++ [ev]) :=
  ⟨fun _ hs => (by cases hs), fun _ hs => (by cases hs),
    h.gated.concat fun apiKey heq => absurd heq (hev apiKey)⟩

/-! ### The services -/

variable (lib) in
/-- A poisoned stage stays as it is, and the gate does not open again. -/
structure Poisoned (c : Connection Session) (history : List (Event Session)) : Prop where
  poisoned : c.poisoned = true
  gated : Gated lib history

variable (lib) in
/-- Either the stage is known, or it is lost for good. -/
def Known (c : Connection Session) (history : List (Event Session)) : Prop :=
  Inv lib c history ∨ Poisoned lib c history

section

variable (h : Known lib c history)
include h

theorem Known.gated : Gated lib history :=
  h.elim Inv.gated Poisoned.gated

theorem Known.setV0 (v0 : Option Bool) : Known lib { c with v0 } history :=
  h.imp (·.setV0 v0) fun hp => ⟨hp.poisoned, hp.gated⟩

theorem Known.authenticated (ha : c.isAuthenticated) : Authenticated lib history := by
  rcases h with hi | hp
  · exact hi.authenticated ha
  · simp [Connection.isAuthenticated, hp.poisoned] at ha

theorem handshake_known (mechanism : String) :
    Known lib (handshake lib c mechanism).connection
      (history ++ (handshake lib c mechanism).events) := by
  have hgated (started : Option Session) : Gated lib (history ++ [.handshake mechanism started]) :=
    h.gated.concat fun _ heq => (by cases heq)
  unfold handshake
  split
  · next hpoisoned => exact .inr ⟨hpoisoned, hgated none⟩
  · next hclean =>
    have hi : Inv lib c history := h.resolve_right fun hp => hclean hp.poisoned
    split
    · split
      · exact .inl (hi.emptied fun _ heq => (by cases heq))
      · next s hstart =>
        refine .inl ⟨fun s' hs => ?_, fun _ hs => (by cases hs), hgated (some s)⟩
        cases hs
        exact ⟨history, mechanism, s, [], rfl, hstart, .start⟩
    · exact .inl (hi.emptied fun _ heq => (by cases heq))

theorem authenticate_known (lifetime : Option Int) (authBytes : List UInt8) :
    Known lib (authenticate lib lifetime c authBytes).connection
      (history ++ (authenticate lib lifetime c authBytes).events) := by
  have hfailed : Gated lib (history ++ [.failed]) := h.gated.concat fun _ heq => (by cases heq)
  unfold authenticate
  split
  · next hpoisoned => exact .inr ⟨hpoisoned, hfailed⟩
  · next hclean =>
    have hi : Inv lib c history := h.resolve_right fun hp => hclean hp.poisoned
    split
    · next s hstage =>
      have hongoing := hi.session s hstage
      split
      · exact .inl (hi.emptied fun _ heq => (by cases heq))
      · exact .inr ⟨rfl, hfailed⟩
      · next stepped hstep =>
        simp only
        split
        · next hfin =>
          refine .inl ⟨fun _ hs => (by cases hs), fun success hs => ?_,
            h.gated.concat fun _ heq => (by cases heq)⟩
          have hid : identity (lib.mechanism s) stepped.validated = some success := by
            simpa using hs
          rw [hid]
          exact hongoing.finished hstep hfin hid
        · next hrunning =>
          refine .inl ⟨fun s' hs => ?_, fun _ hs => (by cases hs),
            h.gated.concat fun _ heq => (by cases heq)⟩
          cases hs
          exact hongoing.continued hstep (Bool.eq_false_iff.2 hrunning)
    · exact .inl (hi.emptied fun _ heq => (by cases heq))

theorem received_known (hopen : passes apiKey = false → Authenticated lib history) :
    Known lib c (history ++ [.received apiKey]) := by
  have hgated : Gated lib (history ++ [.received apiKey]) := by
    refine h.gated.concat fun apiKey' heq => ?_
    cases heq
    exact hopen
  rcases h with hi | hp
  · exact .inl ⟨fun s hs => (hi.session s hs).received apiKey,
      fun success hs => (hi.finished success hs).received apiKey, hgated⟩
  · exact .inr ⟨hp.poisoned, hgated⟩

theorem route_known (lifetime : Option Int) (accepts : Bool) (frame : Frame)
    (hopen : passes frame.apiKey = false → Authenticated lib history) :
    Known lib (route lib lifetime accepts c frame).connection
      (history ++ (route lib lifetime accepts c frame).events) := by
  unfold route
  split
  · split
    · exact handshake_known h _
    · simpa using h
  · split
    · split
      · exact authenticate_known h lifetime _
      · simpa using h
    · exact received_known h hopen

/-- **One request**: whatever it is, the stage stays known. -/
theorem serve_known (decode : List UInt8 → Option Frame) (lifetime : Option Int)
    (request : List UInt8) (accepts : Bool) :
    Known lib (serve lib decode lifetime c request accepts).connection
      (history ++ (serve lib decode lifetime c request accepts).events) := by
  unfold serve
  simp only
  split
  · simpa using h
  · next frame _ =>
    split
    · simpa using h
    · next hpass =>
      have hopen : passes frame.apiKey = false → Authenticated lib history := by
        intro hclosed
        rw [hclosed, Bool.or_false] at hpass
        exact h.authenticated (by simpa using hpass)
      have hroute := route_known h lifetime accepts frame hopen
      split
      · exact hroute
      · split
        · split
          · exact hroute.setV0 _
          · exact hroute
        · split
          · exact hroute.setV0 _
          · exact hroute

end

/-! ## Every connection -/

variable (lib) in
/-- A connection that serves requests one after the other, with what has happened on
it.  An error ends a connection; what could come behind it is covered all the same. -/
def serveAll (decode : List UInt8 → Option Frame) (lifetime : Option Int)
    (requests : List (List UInt8 × Bool)) : Connection Session × List (Event Session) :=
  requests.foldl (fun (c, history) (request, accepts) =>
    let served := serve lib decode lifetime c request accepts
    (served.connection, history ++ served.events)) ({}, [])

theorem serveAll_known (decode : List UInt8 → Option Frame) (lifetime : Option Int)
    (requests : List (List UInt8 × Bool)) :
    Known lib (serveAll lib decode lifetime requests).1
      (serveAll lib decode lifetime requests).2 := by
  have hstart : Known lib ({} : Connection Session) [] :=
    .inl ⟨fun _ hs => (by cases hs), fun _ hs => (by cases hs),
      fun _ _ _ heq => absurd heq (by simp)⟩
  unfold serveAll
  generalize ({} : Connection Session) = c at hstart
  generalize ([] : List (Event Session)) = history at hstart
  induction requests generalizing c history with
  | nil => exact hstart
  | cons request requests ih => exact ih _ _ (serve_known hstart decode lifetime _ _)

variable (lib) in
/-- **The SASL gate**: on every connection and for every sequence of requests on it, a
protected request reaches the inner service only behind an exchange that ran to
completion with a proved identity and that nothing has superseded. -/
theorem sasl_gate (decode : List UInt8 → Option Frame) (lifetime : Option Int)
    (requests : List (List UInt8 × Bool)) :
    Gated lib (serveAll lib decode lifetime requests).2 :=
  (serveAll_known decode lifetime requests).gated

/-! ### A connection that gets through -/

/-- Where a SCRAM exchange is: before the client's first message, before its last one, which
carries the proof, and behind that one. -/
inductive Scram
  | initial
  | challenged
  | verified
  | refused

/-- A library with one mechanism, as a table of the two messages of the client: its name,
which the server answers with a challenge, and the proof.  A proof that does not verify
finishes the exchange as well, without an identity. -/
def scram : Library Scram where
  parses _ := true
  startSuggested name := if name = "SCRAM-SHA-256" then some .initial else none
  mechanism _ := "SCRAM-SHA-256"
  step
    | .initial, [1] => .ok ⟨.challenged, [2], false, none⟩
    | .challenged, [7] => .ok ⟨.verified, [3], true, some { authId := some "alice" }⟩
    | .challenged, _ => .ok ⟨.refused, [4], true, none⟩
    | _, _ => .error
  proved s authId := s = .verified ∧ authId = "alice"
  offered _ _ _ := .inl (by decide +kernel)
  mechanism_step _ _ _ _ := rfl
  scram_proved s token stepped context authId hstep _ hvalidated hauth := by
    split at hstep <;> cases hstep <;> cases hvalidated
    cases hauth
    exact ⟨rfl, rfl⟩

/-- Requests are told apart by their first byte behind the size. -/
def oneByte (request : List UInt8) : Option Frame :=
  match request.drop 4 with
  | 17 :: version :: _ => some ⟨handshakeKey, version.toNat, .saslHandshake "SCRAM-SHA-256"⟩
  | 36 :: token => some ⟨authenticateKey, 1, .saslAuthenticate token⟩
  | key :: _ => some ⟨key.toNat, 0, .other⟩
  | [] => none

/-- Behind the two messages of a handshake of either version the client is authenticated,
and its fetch is received. -/
theorem sasl_gate_exchange :
    Authenticated scram (serveAll scram oneByte none (([[17, 1], [36, 1], [36, 7]] :
      List (List UInt8)).map fun request => ([0, 0, 0, 0] ++ request, true))).2 ∧
    Authenticated scram (serveAll scram oneByte none (([[17, 0], [1], [7]] :
      List (List UInt8)).map fun request => ([0, 0, 0, 0] ++ request, true))).2 :=
  ⟨sasl_gate scram oneByte none (([[17, 1], [36, 1], [36, 7], [1]] :
      List (List UInt8)).map fun request => ([0, 0, 0, 0] ++ request, true)) _ 1 [] rfl rfl,
    sasl_gate scram oneByte none (([[17, 0], [1], [7], [1]] :
      List (List UInt8)).map fun request => ([0, 0, 0, 0] ++ request, true)) _ 1 [] rfl rfl⟩

/-- The keys of the requests that other services have received. -/
def receivedKeys (history : List (Event Scram)) : List Int :=
  history.filterMap fun
    | .received apiKey => some apiKey
    | _ => none

-- A fetch is refused before the exchange and in the middle of it, behind a wrong proof and
-- behind another handshake.
example : let history (requests : List (List UInt8)) := receivedKeys (serveAll scram oneByte none
      (requests.map fun request => ([0, 0, 0, 0] ++ request, true))).2
    history [[1]] = [] ∧ history [[17, 1], [36, 1], [1]] = [] ∧
      history [[17, 1], [36, 1], [36, 8], [1]] = [] ∧
      history [[17, 1], [36, 1], [36, 7], [17, 1], [1]] = [] := by
  decide +kernel

end Tansu.Auth
