import Tansu.Lib.Varint

/-!
# Which failures a decoder can end in

A decoder has several kinds of failure, and some of them must never happen.
`FailsOnly` says it of a decoder on every input.  `Renames` compares two decoders that
have different failures in the same places.  `Agree` and `Agrees` compare two
decoders that differ in one failure: where one has it the other has its own, and
everywhere else they return the same and fail only as they may.
-/

namespace Tansu.Lib

variable {ε σ α β : Type} {good : ε → Prop}

/-! ## Without a state -/

namespace Decoder

/-- Every failure of `p` satisfies `good`. -/
def FailsOnly (good : ε → Prop) (p : Decoder ε α) : Prop :=
  ∀ bs e, p bs = .error e → good e

variable {p : Decoder ε α} {f : α → Decoder ε β}

theorem FailsOnly.pure (a : α) : FailsOnly good (pure a : Decoder ε α) :=
  fun _ _ h => by cases h

theorem FailsOnly.fail {e : ε} (he : good e) : FailsOnly good (Decoder.fail e : Decoder ε α) := by
  intro bs e' h
  cases h
  exact he

theorem FailsOnly.bind (hp : FailsOnly good p) (hf : ∀ a, FailsOnly good (f a)) :
    FailsOnly good (p >>= f) := by
  intro bs e h
  rw [bind_run] at h
  cases hpa : p bs with
  | error e' =>
    rw [hpa] at h
    cases h
    exact hp bs e hpa
  | ok out =>
    rw [hpa] at h
    exact hf out.1 out.2 e h

theorem FailsOnly.takeExact {eof : ε} (he : good eof) (n : Nat) :
    FailsOnly good (takeExact eof n) := by
  intro bs e h
  unfold Decoder.takeExact at h
  split at h
  next => cases h
  next =>
    cases h
    exact he

theorem FailsOnly.peek {eof : ε} (he : good eof) (n : Nat) : FailsOnly good (peek eof n) := by
  intro bs e h
  unfold Decoder.peek at h
  split at h
  next => cases h
  next =>
    cases h
    exact he

variable {eof : ε}

theorem FailsOnly.get [FixedWidth α] (he : good eof) : FailsOnly good (Lib.get eof : Decoder ε α) :=
  (FailsOnly.takeExact he _).bind fun _ => FailsOnly.pure _

theorem FailsOnly.many (hp : FailsOnly good p) (n : Nat) : FailsOnly good (many p n) := by
  induction n with
  | zero => exact FailsOnly.pure []
  | succ n ih => exact hp.bind fun a => ih.bind fun as => FailsOnly.pure (a :: as)

/-- The loop of a varint ends with the end of the input or with an overflow. -/
theorem FailsOnly.uvarintLoop {w : Nat} {overflow : ε} (heof : good eof) (hoverflow : good overflow)
    (shift acc : Nat) : FailsOnly good fun bs => Lib.uvarintLoop w eof overflow bs shift acc := by
  intro bs
  induction bs generalizing shift acc with
  | nil =>
    intro e h
    cases h
    exact heof
  | cons byte rest ih =>
    intro e h
    simp only [Lib.uvarintLoop] at h
    -- every branch but the last two is an overflow
    split_ifs at h
    all_goals first
      | exact ih _ _ e h
      | (cases h; exact hoverflow)

theorem takeExact_eq_ok {n : Nat} {bs a rest : Bytes}
    (h : Decoder.takeExact eof n bs = .ok (a, rest)) :
    n ≤ bs.length ∧ a = bs.take n ∧ rest = bs.drop n := by
  unfold Decoder.takeExact at h
  split at h
  next hn =>
    cases h
    exact ⟨hn, rfl, rfl⟩
  next => cases h

end Decoder

/-! ## Two that differ in the names of their failures -/

namespace Decoder

/-- `q` reads what `p` reads, and fails where `p` does, with the image of its failure. -/
def Renames {ε' : Type} (f : ε → ε') (p : Decoder ε α) (q : Decoder ε' α) : Prop :=
  ∀ bs, q bs = (p bs).mapError f

namespace Renames

variable {ε' : Type} {f : ε → ε'} {p : Decoder ε α} {q : Decoder ε' α} {x y : ε}

theorem pure (a : α) : Renames f (pure a : Decoder ε α) (pure a) := fun _ => rfl

theorem fail (x : ε) : Renames f (fail x : Decoder ε α) (fail (f x)) := fun _ => rfl

theorem bind {g : α → Decoder ε β} {g' : α → Decoder ε' β} (h : Renames f p q)
    (hg : ∀ a, Renames f (g a) (g' a)) : Renames f (p >>= g) (q >>= g') := by
  intro bs
  rw [bind_run, bind_run, h bs]
  cases p bs with
  | error x => rfl
  | ok out => exact hg out.1 out.2

theorem map (g : α → β) (h : Renames f p q) : Renames f (g <$> p) (g <$> q) := by
  rw [map_eq_pure_bind, map_eq_pure_bind]
  exact h.bind fun a => pure (g a)

theorem takeExact (n : Nat) : Renames f (takeExact x n) (takeExact (f x) n) := by
  intro bs
  unfold Decoder.takeExact
  split <;> rfl

theorem get [FixedWidth α] : Renames f (Lib.get x : Decoder ε α) (Lib.get (f x)) :=
  (takeExact _).bind fun _ => pure _

theorem many (h : Renames f p q) (n : Nat) : Renames f (many p n) (many q n) := by
  induction n with
  | zero => exact pure []
  | succ n ih => exact h.bind fun a => ih.bind fun as => pure (a :: as)

theorem readVarint (w : Nat) : Renames f (readVarint w x y) (readVarint w (f x) (f y)) := by
  have hloop : ∀ (bs : Bytes) (shift acc : Nat), Lib.uvarintLoop w (f x) (f y) bs shift acc =
      (Lib.uvarintLoop w x y bs shift acc).mapError f := by
    intro bs
    induction bs with
    | nil => exact fun _ _ => rfl
    | cons byte rest ih =>
      intro shift acc
      simp only [Lib.uvarintLoop, ih]
      split_ifs <;> rfl
  intro bs
  rw [Lib.readVarint, Lib.readVarint, hloop]
  cases Lib.uvarintLoop w x y bs 0 0 <;> rfl

end Renames

end Decoder

/-! ## Two that differ in one failure -/

/-- Both have their own failure, or they are equal and fail with a `good` one. -/
def Agree (good : ε → Prop) (e e' : ε) (r r' : Except ε α) : Prop :=
  (r = .error e ∧ r' = .error e') ∨ (r = r' ∧ ∀ f, r = .error f → good f)

variable {e e' : ε}

theorem Agree.ok (a : α) : Agree good e e' (.ok a) (.ok a) := .inr ⟨rfl, fun _ h => by cases h⟩

theorem Agree.bind {r r' : Except ε α} {f f' : α → Except ε β} (h : Agree good e e' r r')
    (hf : ∀ a, Agree good e e' (f a) (f' a)) : Agree good e e' (r >>= f) (r' >>= f') := by
  rcases h with ⟨rfl, rfl⟩ | ⟨rfl, hgood⟩
  · exact .inl ⟨rfl, rfl⟩
  · cases r with
    | ok a => exact hf a
    | error x =>
      refine .inr ⟨rfl, fun y hy => ?_⟩
      cases hy
      exact hgood x rfl

/-- Two decoders with a state agree on every state and input. -/
def Agrees (good : ε → Prop) (e e' : ε) (m m' : StateT σ (Decoder ε) α) : Prop :=
  ∀ s bs, Agree good e e' (m s bs) (m' s bs)

namespace Agrees

variable {m m' : StateT σ (Decoder ε) α} {f f' : α → StateT σ (Decoder ε) β}

theorem pure (a : α) : Agrees good e e' (pure a : StateT σ (Decoder ε) α) (pure a) :=
  fun s bs => Agree.ok ((a, s), bs)

theorem bind (hm : Agrees good e e' m m') (hf : ∀ a, Agrees good e e' (f a) (f' a)) :
    Agrees good e e' (m >>= f) (m' >>= f') :=
  fun s bs => (hm s bs).bind fun out => hf out.1.1 out.1.2 out.2

theorem map (g : α → β) (hm : Agrees good e e' m m') : Agrees good e e' (g <$> m) (g <$> m') := by
  rw [map_eq_pure_bind, map_eq_pure_bind]
  exact hm.bind fun a => pure (g a)

theorem get {f f' : σ → StateT σ (Decoder ε) β} (hf : ∀ s, Agrees good e e' (f s) (f' s)) :
    Agrees good e e' (getThe σ >>= f) (getThe σ >>= f') :=
  fun s bs => hf s s bs

theorem update (g : σ → σ) :
    Agrees good e e' (modify g : StateT σ (Decoder ε) PUnit) (modify g) :=
  fun s bs => Agree.ok ((PUnit.unit, g s), bs)

theorem lift {p p' : Decoder ε α} (hp : ∀ bs, Agree good e e' (p bs) (p' bs)) :
    Agrees good e e' (StateT.lift p : StateT σ (Decoder ε) α) (StateT.lift p') :=
  fun s bs => (hp bs).bind fun out => Agree.ok ((out.1, s), out.2)

theorem of_failsOnly {p : Decoder ε α} (hp : Decoder.FailsOnly good p) :
    Agrees good e e' (StateT.lift p : StateT σ (Decoder ε) α) (StateT.lift p) :=
  lift fun bs => .inr ⟨rfl, hp bs⟩

end Agrees

end Tansu.Lib
