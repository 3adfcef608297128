/-!
# Programs over a state that can be cut off

A program is a tree of atomic reads and writes of a state. Run alone from a state it gives
an outcome, the state it leaves, and every state the device passed through on the way, in
order; two programs can also be interleaved. The judgement `Meets` describes a program that
runs alone over an abstract state: `R` relates the states in which the program starts and
ends to abstract ones, `W`, which may be weaker, those in which it may be cut off. It has
one rule per way of building a program, so a function is specified once and its callers use
the specification.
-/

set_option autoImplicit false

namespace Thos.Lib

/-- A program over states `σ` that reads values in `ρ` off them and may stop with an `ε`. -/
inductive Prog (σ ρ ε α : Type) : Type
  | ret (a : α)
  | stop (e : ε)
  /-- An atomic read. -/
  | look (f : σ → ρ) (k : ρ → Prog σ ρ ε α)
  /-- An atomic write. -/
  | poke (f : σ → σ) (k : Prog σ ρ ε α)

/-- What running a program gives: the outcome, the last state, and the states after each
atomic write. -/
structure Result (σ ε α : Type) where
  out : Except ε α
  state : σ
  trace : List σ

namespace Prog

variable {σ ρ ε α β : Type}

/-- Runs a program alone. -/
def run : Prog σ ρ ε α → σ → Result σ ε α
  | .ret a, s => ⟨.ok a, s, []⟩
  | .stop e, s => ⟨.error e, s, []⟩
  | .look f k, s => (k (f s)).run s
  | .poke f k, s => ⟨(k.run (f s)).out, (k.run (f s)).state, f s :: (k.run (f s)).trace⟩

instance : CoeFun (Prog σ ρ ε α) fun _ => σ → Result σ ε α := ⟨run⟩

/-- Sequencing; the writes of a program that stops stay made. -/
def andThen : Prog σ ρ ε α → (α → Prog σ ρ ε β) → Prog σ ρ ε β
  | .ret a, f => f a
  | .stop e, _ => .stop e
  | .look g k, f => .look g fun x => (k x).andThen f
  | .poke g k, f => .poke g (k.andThen f)

instance : Monad (Prog σ ρ ε) where
  pure := ret
  bind := andThen

/-- Changes the reason for a stop. -/
def mapErr (f : ε → ε) : Prog σ ρ ε α → Prog σ ρ ε α
  | .ret a => .ret a
  | .stop e => .stop (f e)
  | .look g k => .look g fun x => (k x).mapErr f
  | .poke g k => .poke g (k.mapErr f)

/-- Goes on with a value or stops with an error. -/
def ofExcept : Except ε α → Prog σ ρ ε α
  | .ok a => .ret a
  | .error e => .stop e

/-- One atomic read. -/
def read (f : σ → ρ) : Prog σ ρ ε ρ := .look f .ret

/-- One atomic write. -/
def write (f : σ → σ) : Prog σ ρ ε Unit := .poke f (.ret ())

/-- A program that runs under a condition. -/
def when (c : Bool) (p : Prog σ ρ ε Unit) : Prog σ ρ ε Unit := if c then p else pure ()

theorem pure_run (a : α) (s : σ) : (pure a : Prog σ ρ ε α).run s = ⟨.ok a, s, []⟩ := rfl

theorem read_run (f : σ → ρ) (s : σ) : (read f : Prog σ ρ ε ρ).run s = ⟨.ok (f s), s, []⟩ := rfl

theorem write_run (f : σ → σ) (s : σ) : (write f : Prog σ ρ ε Unit).run s =
    ⟨.ok (), f s, [f s]⟩ := rfl

theorem bind_run (p : Prog σ ρ ε α) (f : α → Prog σ ρ ε β) (s : σ) : (p >>= f).run s =
      match p.run s with
      | ⟨.ok a, s', tr⟩ => ⟨((f a).run s').out, ((f a).run s').state, tr ++ ((f a).run s').trace⟩
      | ⟨.error e, s', tr⟩ => ⟨.error e, s', tr⟩ := by
  show (p.andThen f).run s = _
  induction p generalizing s with
  | ret a => rfl
  | stop e => rfl
  | look g k ih => exact ih (g s) s
  | poke g k ih =>
    rw [andThen, run, ih (g s), run]
    rcases k.run (g s) with ⟨out, s', tr⟩
    cases out <;> rfl

theorem mapErr_run (f : ε → ε) (p : Prog σ ρ ε α) (s : σ) : (p.mapErr f).run s = match p.run s with
      | ⟨.ok a, s', tr⟩ => ⟨.ok a, s', tr⟩
      | ⟨.error e, s', tr⟩ => ⟨.error (f e), s', tr⟩ := by
  induction p generalizing s with
  | ret a => rfl
  | stop e => rfl
  | look g k ih => exact ih (g s) s
  | poke g k ih =>
    rw [mapErr, run, ih (g s), run]
    rcases k.run (g s) with ⟨out, s', tr⟩
    cases out <;> rfl

variable {p : Prog σ ρ ε α} {f : α → Prog σ ρ ε β}

theorem bind_of_read {s : σ} {a : α} (h : p.run s = ⟨.ok a, s, []⟩) :
    (p >>= f).run s = (f a).run s := by
  rw [bind_run, h]
  rfl

/-! ## Programs that only read, and where a program stops -/

/-- A program that only reads, and ends with a value. -/
def Quiet (p : Prog σ ρ ε α) : Prop := ∀ s, ∃ a, p.run s = ⟨.ok a, s, []⟩

theorem Quiet.pure (a : α) : (Pure.pure a : Prog σ ρ ε α).Quiet := fun _ => ⟨a, rfl⟩

theorem Quiet.bind (hp : p.Quiet) (hf : ∀ a, (f a).Quiet) : (p >>= f).Quiet := by
  intro s
  obtain ⟨a, ha⟩ := hp s
  obtain ⟨b, hb⟩ := hf a s
  exact ⟨b, by rw [bind_of_read ha, hb]⟩

/-- Every reason for which the program can stop. -/
def Stops (P : ε → Prop) (p : Prog σ ρ ε α) : Prop := ∀ s e, (p.run s).out = .error e → P e

variable {P : ε → Prop}

theorem Quiet.stops (hp : p.Quiet) : p.Stops P := by
  intro s e he
  obtain ⟨a, ha⟩ := hp s
  cases ha ▸ he

theorem Stops.stop {e : ε} (he : P e) : (Prog.stop e : Prog σ ρ ε α).Stops P := by
  intro s e' h
  cases h
  exact he

theorem Stops.bind (hp : p.Stops P) (hf : ∀ a, (f a).Stops P) : (p >>= f).Stops P := by
  intro s e he
  rw [bind_run] at he
  rcases hrun : p.run s with ⟨out, s', tr⟩
  rw [hrun] at he
  cases out with
  | ok a => exact hf a s' e he
  | error e' =>
    cases he
    exact hp s e (by rw [hrun])

theorem Stops.when {c : Bool} {p : Prog σ ρ ε Unit} (hp : p.Stops P) : (Prog.when c p).Stops P := by
  cases c with
  | true => exact hp
  | false => exact (Quiet.pure ()).stops

end Prog

/-! ## The judgement -/

variable {σ ρ ε α β A B : Type}

/-- From every state that stands for `a`, the program ends in a state that stands for an
abstract state as `Q` (or, if it stops, `E`) says, and every state it passes through
stands, weakly, for one that `C` allows. -/
def Meets (R W : σ → A → Prop) (a : A) (p : Prog σ ρ ε α) (Q : α → A → Prop) (E : ε → A → Prop)
    (C : A → Prop) : Prop :=
  ∀ s, R s a → (∃ a', R (p s).state a' ∧ match (p s).out with
      | .ok x => Q x a'
      | .error e => E e a') ∧ ∀ t ∈ (p s).trace, ∃ a', W t a' ∧ C a'

variable {R W : σ → A → Prop} {a : A} {p : Prog σ ρ ε α} {Q : α → A → Prop} {E : ε → A → Prop}
  {C : A → Prop}

theorem Meets.pure {x : α} (h : Q x a) : Meets R W a (pure x : Prog σ ρ ε α) Q E C :=
  fun _ hs => ⟨⟨a, hs, h⟩, fun _ ht => absurd ht List.not_mem_nil⟩

theorem Meets.stop {e : ε} (h : E e a) : Meets R W a (Prog.stop e : Prog σ ρ ε α) Q E C :=
  fun _ hs => ⟨⟨a, hs, h⟩, fun _ ht => absurd ht List.not_mem_nil⟩

theorem Meets.mono {Q' : α → A → Prop} {E' : ε → A → Prop} {C' : A → Prop}
    (h : Meets R W a p Q E C) (hQ : ∀ x a', Q x a' → Q' x a') (hE : ∀ e a', E e a' → E' e a')
    (hC : ∀ a', C a' → C' a') : Meets R W a p Q' E' C' := by
  intro s hs
  obtain ⟨⟨a', hR, hout⟩, htr⟩ := h s hs
  refine ⟨⟨a', hR, ?_⟩, fun t ht => ?_⟩
  · cases hp : (p s).out with
    | ok x =>
      rw [hp] at hout
      exact hQ x a' hout
    | error e =>
      rw [hp] at hout
      exact hE e a' hout
  · obtain ⟨b, hW, hb⟩ := htr t ht
    exact ⟨b, hW, hC b hb⟩

theorem Meets.bind {f : α → Prog σ ρ ε β} {Q : β → A → Prop}
    (h : Meets R W a p (fun x a' => Meets R W a' (f x) Q E C) E C) :
    Meets R W a (p >>= f) Q E C := by
  intro s hs
  obtain ⟨⟨a', hR, hout⟩, htr⟩ := h s hs
  rw [Prog.bind_run]
  rcases hp : p.run s with ⟨out, s', tr⟩
  simp only [hp] at hR hout htr
  cases out with
  | error e => exact ⟨⟨a', hR, hout⟩, htr⟩
  | ok x =>
    obtain ⟨hfin, htr'⟩ := hout s' hR
    exact ⟨hfin, List.forall_mem_append.2 ⟨htr, htr'⟩⟩

theorem Meets.mapErr {f : ε → ε} (h : Meets R W a p Q (fun e => E (f e)) C) :
    Meets R W a (p.mapErr f) Q E C := by
  intro s hs
  obtain ⟨⟨a', hR, hout⟩, htr⟩ := h s hs
  rw [Prog.mapErr_run]
  rcases hp : p.run s with ⟨out, s', tr⟩
  simp only [hp] at hR hout htr
  cases out <;> exact ⟨⟨a', hR, hout⟩, htr⟩

theorem Meets.when {c : Bool} {p : Prog σ ρ ε Unit} {Q : Unit → A → Prop}
    (ht : c = true → Meets R W a p Q E C) (hf : c = false → Q () a) :
    Meets R W a (.when c p) Q E C := by
  cases c with
  | true => exact ht rfl
  | false => exact Meets.pure (hf rfl)

theorem Meets.read {f : α → Prog σ ρ ε β} {Q : β → A → Prop} {x : α}
    (hread : ∀ s, R s a → p s = ⟨.ok x, s, []⟩) (h : Meets R W a (f x) Q E C) :
    Meets R W a (p >>= f) Q E C := by
  intro s hs
  rw [Prog.bind_of_read (hread s hs)]
  exact h s hs

theorem Meets.assume {P : Prop} (hP : ∀ s, R s a → P) (h : P → Meets R W a p Q E C) :
    Meets R W a p Q E C :=
  fun s hs => h (hP s hs) s hs

theorem Meets.out_eq {e : ε} (h : Meets R W a p (fun _ _ => False) (fun e' _ => e' = e) C) {s : σ}
    (hs : R s a) : (p s).out = .error e := by
  obtain ⟨⟨a', -, hout⟩, -⟩ := h s hs
  cases hp : (p s).out with
  | ok x =>
    rw [hp] at hout
    exact hout.elim
  | error e' =>
    rw [hp] at hout
    rw [show e' = e from hout]

theorem Meets.exists_of_safe (h : Meets R W a p Q (fun _ _ => False) C) {s : σ} (hs : R s a) :
    ∃ x a', (p s).out = .ok x ∧ R (p s).state a' ∧ Q x a' := by
  obtain ⟨⟨a', hR, hout⟩, -⟩ := h s hs
  cases hp : (p s).out with
  | ok x =>
    rw [hp] at hout
    exact ⟨x, a', rfl, hR, hout⟩
  | error e =>
    rw [hp] at hout
    exact hout.elim

theorem Meets.blame (h : Meets R W a p Q E C) :
    Meets R W a p Q (fun e a' => E e a' ∧ ∃ s, R s a ∧ (p s).out = .error e) C := by
  intro s hs
  obtain ⟨⟨a', hR, hout⟩, htr⟩ := h s hs
  refine ⟨⟨a', hR, ?_⟩, htr⟩
  cases hp : (p s).out with
  | ok x =>
    rwa [hp] at hout
  | error e =>
    rw [hp] at hout
    exact ⟨hout, s, hs, hp⟩

theorem Meets.lift {T Tw : A → B → Prop} {b : B} {Q : α → B → Prop} {E : ε → B → Prop}
    {C : B → Prop} (h : ∀ a, T a b → Meets R W a p (fun x a' => ∃ b', T a' b' ∧ Q x b')
      (fun e a' => ∃ b', T a' b' ∧ E e b') (fun m => ∃ b', Tw m b' ∧ C b')) :
    Meets (fun s b => ∃ a, R s a ∧ T a b) (fun s b => ∃ a, W s a ∧ Tw a b) b p Q E C := by
  rintro s ⟨a, hR, hT⟩
  obtain ⟨⟨a', hR', hout⟩, htr⟩ := h a hT s hR
  refine ⟨?_, fun t ht => ?_⟩
  · cases hp : (p s).out with
    | ok x =>
      rw [hp] at hout
      obtain ⟨b', hT', hQ⟩ := hout
      exact ⟨b', ⟨a', hR', hT'⟩, hQ⟩
    | error e =>
      rw [hp] at hout
      obtain ⟨b', hT', hE⟩ := hout
      exact ⟨b', ⟨a', hR', hT'⟩, hE⟩
  · obtain ⟨m, hW, b', hTw, hC⟩ := htr t ht
    exact ⟨b', ⟨m, hW, hTw⟩, hC⟩

end Thos.Lib
