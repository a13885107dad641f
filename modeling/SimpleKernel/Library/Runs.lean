import Mathlib

/-! Runs of a deterministic machine driven by an environment.
The environment picks the next input among those it may send; the machine may fail to
return from one. A guard restricts a run to steps that meet a further condition.
-/

namespace Runs

variable {σ ι : Type*}

structure Machine (σ ι : Type*) where
  /-- What the environment may send in a state. -/
  enabled : σ → ι → Prop
  /-- The state after an input; `none` when the machine never returns. -/
  exec : σ → ι → Option σ

inductive Machine.Reaches (machine : Machine σ ι) (guard : σ → ι → Prop) (start : σ)
    : σ → Prop
  | refl : machine.Reaches guard start start
  | step {s s'} (input : ι) (earlier : machine.Reaches guard start s)
    (enabled : machine.enabled s input) (guarded : guard s input)
    (returned : machine.exec s input = some s')
    : machine.Reaches guard start s'

variable {machine : Machine σ ι} {guard guard' : σ → ι → Prop} {start s : σ}

/-- What holds at the start and is kept by every guarded step holds in every state reached.
-/
@[elab_as_elim] theorem Machine.Reaches.invariant {Inv : σ → Prop}
    (run : machine.Reaches guard start s) (initially : Inv start)
    (preserved
      : ∀ {s s' input},
          Inv s
          → machine.enabled s input
          → guard s input
          → machine.exec s input = some s'
          → Inv s')
    : Inv s := by
  induction run with
  | refl => exact initially
  | step _ _ enabled guarded returned ih => exact preserved ih enabled guarded returned

/-- A run under one guard is a run under any weaker one. -/
theorem Machine.Reaches.weaken (run : machine.Reaches guard start s)
    (weaker : ∀ s input, machine.enabled s input → guard s input → guard' s input)
    : machine.Reaches guard' start s := by
  induction run with
  | refl => exact .refl
  | step input _ enabled guarded returned ih =>
      exact .step input ih enabled (weaker _ _ enabled guarded) returned

/-- The state after a list of inputs, each of which is enabled and meets the guard. -/
def Machine.replay (machine : Machine σ ι) (guard : σ → ι → Prop)
    [∀ s input, Decidable (machine.enabled s input)] [∀ s input, Decidable (guard s input)]
    : List ι → σ → Option σ
  | [], s => some s
  | input :: rest, s =>
      if machine.enabled s input ∧ guard s input then
        match machine.exec s input with
        | none => none
        | some s => machine.replay guard rest s
      else none

/-- A replayed list of inputs is a run, by induction on the list. -/
theorem Machine.Reaches.replay {machine : Machine σ ι} {guard : σ → ι → Prop} {start : σ}
    [∀ s input, Decidable (machine.enabled s input)] [∀ s input, Decidable (guard s input)]
    {inputs : List ι} {s s' : σ} (run : machine.Reaches guard start s)
    (replayed : machine.replay guard inputs s = some s')
    : machine.Reaches guard start s' := by
  induction inputs generalizing s with
  | nil =>
      obtain rfl := Option.some.inj replayed
      exact run
  | cons input rest ih =>
      rw [Machine.replay] at replayed
      split at replayed
      · next admitted =>
        split at replayed
        · simp at replayed
        · next returned => exact ih (.step input run admitted.1 admitted.2 returned) replayed
      · simp at replayed

/-- A function that every guarded step follows is followed by every replayed list of inputs.
By induction on the list.
-/
theorem Machine.replay_follows {τ : Type*} {machine : Machine σ ι} {guard : σ → ι → Prop}
    [∀ s input, Decidable (machine.enabled s input)] [∀ s input, Decidable (guard s input)]
    {R : σ → τ → Prop} {f : τ → ι → τ}
    (follows
      : ∀ {s s' t input},
          R s t
          → machine.enabled s input
          → guard s input
          → machine.exec s input = some s'
          → R s' (f t input))
    {inputs : List ι} {s s' : σ} {t : τ} (related : R s t)
    (replayed : machine.replay guard inputs s = some s')
    : R s' (inputs.foldl f t) := by
  induction inputs generalizing s t with
  | nil =>
      obtain rfl := Option.some.inj replayed
      exact related
  | cons input rest ih =>
      rw [Machine.replay] at replayed
      split at replayed
      · next admitted =>
        split at replayed
        · simp at replayed
        · next returned =>
          exact ih (follows related admitted.1 admitted.2 returned) replayed
      · simp at replayed

/-- A run with the list of its inputs, for machines whose inputs cannot be tested. -/
inductive Machine.Trace (machine : Machine σ ι) (guard : σ → ι → Prop)
    : σ → List ι → σ → Prop
  | nil {s : σ} : machine.Trace guard s [] s
  | cons {s s' s'' : σ} {input : ι} {inputs : List ι} (enabled : machine.enabled s input)
    (guarded : guard s input)
    (returned : machine.exec s input = some s') (later : machine.Trace guard s' inputs s'')
    : machine.Trace guard s (input :: inputs) s''

/-- Traces are put one behind the other. -/
theorem Machine.Trace.append {s s' s'' : σ} {inputs later : List ι}
    (trace : machine.Trace guard s inputs s') (behind : machine.Trace guard s' later s'')
    : machine.Trace guard s (inputs ++ later) s'' := by
  induction trace with
  | nil => exact behind
  | cons enabled guarded returned _ ih => exact .cons enabled guarded returned (ih behind)

/-- A replayed list of inputs is a trace, also of a machine that the replayed one is part of.
By induction on the list.
-/
theorem Machine.Trace.of_replay {σ' ι' : Type*} {machine : Machine σ ι}
    {whole : Machine σ' ι'} {guard : σ → ι → Prop} {guard' : σ' → ι' → Prop}
    [∀ s input, Decidable (machine.enabled s input)] [∀ s input, Decidable (guard s input)]
    (state : σ → σ') (send : ι → ι')
    (part
      : ∀ {s s' input},
          machine.enabled s input
          → guard s input
          → machine.exec s input = some s'
          → whole.enabled (state s) (send input)
            ∧ guard' (state s) (send input)
            ∧ whole.exec (state s) (send input) = some (state s'))
    {inputs : List ι} {s s' : σ} (replayed : machine.replay guard inputs s = some s')
    : whole.Trace guard' (state s) (inputs.map send) (state s') := by
  induction inputs generalizing s with
  | nil =>
      obtain rfl := Option.some.inj replayed
      exact .nil
  | cons input rest ih =>
      rw [Machine.replay] at replayed
      split at replayed
      · next admitted =>
        split at replayed
        · simp at replayed
        · next returned =>
          obtain ⟨enabled, guarded, executed⟩ := part admitted.1 admitted.2 returned
          exact .cons enabled guarded executed (ih replayed)
      · simp at replayed

/-- A function that every guarded step follows is followed by every trace. -/
theorem Machine.Trace.follows {τ : Type*} {R : σ → τ → Prop} {f : τ → ι → τ}
    (follows
      : ∀ {s s' t input},
          R s t
          → machine.enabled s input
          → guard s input
          → machine.exec s input = some s'
          → R s' (f t input))
    {inputs : List ι} {s s' : σ} {t : τ} (related : R s t)
    (trace : machine.Trace guard s inputs s')
    : R s' (inputs.foldl f t) := by
  induction trace generalizing t with
  | nil => exact related
  | cons enabled guarded returned _ ih => exact ih (follows related enabled guarded returned)

end Runs
