/-!
# The use of one lock in a trace

A piece of sequential code is taken for the trace of what it does with one lock that is not
reentrant: it takes it, gives it back, or blocks the thread that runs it. `after held tr` is
whether the lock is held after the trace, and `none` if the code takes the lock or blocks while
it holds it.

Code that starts and ends without the lock is `Calm`; calm pieces compose. Interrupt handlers
that are calm themselves do no harm where the lock is not held (`after_interrupted`).
-/

set_option autoImplicit false

namespace Thos.Lib

/-- What code does with the lock. -/
inductive LockEvent
  | lock
  | unlock
  | block
  deriving DecidableEq

namespace LockEvent

/-- Whether the lock is held after an event; `none` if the event is not allowed. -/
def next : Bool → LockEvent → Option Bool
  | false, .lock => some true
  | true, .unlock => some false
  | false, .block => some false
  | _, _ => none

/-- Whether the lock is held after a trace. -/
def after (held : Bool) (tr : List LockEvent) : Option Bool := tr.foldlM next held

theorem after_cons (held : Bool) (e : LockEvent) (tr : List LockEvent) :
    after held (e :: tr) = (next held e).bind fun b => after b tr := List.foldlM_cons ..

theorem after_append (held : Bool) (tr tr' : List LockEvent) :
    after held (tr ++ tr') = (after held tr).bind fun b => after b tr' := List.foldlM_append ..

/-- The code starts and ends without the lock and keeps the rules in between. -/
def Calm (tr : List LockEvent) : Prop := after false tr = some false

instance (tr : List LockEvent) : Decidable (Calm tr) :=
  inferInstanceAs (Decidable (after false tr = some false))

theorem calm_nil : Calm [] := rfl

theorem Calm.append {tr tr' : List LockEvent} (h : Calm tr) (h' : Calm tr') : Calm (tr ++ tr') := by
  rw [Calm, after_append, show after false tr = some false from h]
  exact h'

theorem calm_flatten {trs : List (List LockEvent)} (h : ∀ tr ∈ trs, Calm tr) :
    Calm trs.flatten := by
  induction trs with
  | nil => exact calm_nil
  | cons tr trs ih =>
    rw [List.flatten_cons]
    exact (h tr (.head _)).append (ih fun tr' htr' => h tr' (.tail _ htr'))

theorem calm_flatMap {α : Type} {xs : List α} {f : α → List LockEvent}
    (h : ∀ x ∈ xs, Calm (f x)) : Calm (xs.flatMap f) := by
  refine calm_flatten fun tr htr => ?_
  obtain ⟨x, hx, rfl⟩ := List.mem_map.1 htr
  exact h x hx

theorem calm_replicate {tr : List LockEvent} (h : Calm tr) (m : Nat) :
    Calm (List.replicate m tr).flatten :=
  calm_flatten fun _ htr => List.eq_of_mem_replicate htr ▸ h

/-- Interrupts: before its `i`-th event the code is interrupted by the handler trace
`irqs i`. -/
def interrupted (irqs : Nat → List LockEvent) (i : Nat) : List LockEvent → List LockEvent
  | [] => irqs i
  | e :: tr => irqs i ++ e :: interrupted irqs (i + 1) tr

theorem Calm.after_of_mask {tr : List LockEvent} {held : Bool} (h : Calm tr)
    (hmask : held = true → tr = []) : after held tr = some held := by
  cases held with
  | false => exact h
  | true =>
    rw [hmask rfl]
    rfl

theorem after_interrupted {irqs : Nat → List LockEvent} (hcalm : ∀ i, Calm (irqs i))
    (tr : List LockEvent) (held : Bool) (i : Nat)
    (hmask : ∀ j ≤ tr.length, after held (tr.take j) = some true → irqs (i + j) = []) :
    after held (interrupted irqs i tr) = after held tr := by
  induction tr generalizing held i with
  | nil => exact (hcalm i).after_of_mask fun hheld => hmask 0 (Nat.zero_le _) (congrArg some hheld)
  | cons e tr ih =>
    have hfirst : after held (irqs i) = some held :=
      (hcalm i).after_of_mask fun hheld => hmask 0 (Nat.zero_le _) (congrArg some hheld)
    rw [interrupted, after_append, hfirst, Option.bind_some, after_cons, after_cons]
    cases hn : next held e with
    | none => rfl
    | some b =>
      rw [Option.bind_some, Option.bind_some]
      refine ih b (i + 1) fun j hj hheld => ?_
      have hthis := hmask (j + 1) (Nat.succ_le_succ hj)
      rw [List.take_succ_cons, after_cons, hn, Option.bind_some] at hthis
      rw [show i + 1 + j = i + (j + 1) by omega]
      exact hthis hheld

end LockEvent

end Thos.Lib
