/-!
# MtEmu.Lib.Machine

Labelled machines and their guarded runs.

A machine is a step function `step : S → A → Option S`; `none` means that
the action is not enabled in the state.  `exec` runs a list of actions, and
`Reaches step ok init` holds of the states that a run gets to from a state
in `init` when every step meets the guard `ok` in the state before it.  With
the guard `anyStep` these are simply the reachable states.

Everything about a run goes through one rule, `Reaches.invariant`: what
holds at the start and is kept by every guarded step holds everywhere.
Concrete runs enter through `exists_reaches`, whose premise a decision
procedure can evaluate.
-/

namespace Machine

variable {S T A B : Type}

/-! ## running a list of actions -/

/-- Run the actions in order; `none` as soon as one of them is not enabled. -/
def exec (step : S → A → Option S) : S → List A → Option S
  | s, [] => some s
  | s, a :: as => (step s a).bind fun s' => exec step s' as

@[simp] theorem exec_nil (step : S → A → Option S) (s : S) : exec step s [] = some s := rfl

theorem exec_cons (step : S → A → Option S) (s : S) (a : A) (as : List A) :
    exec step s (a :: as) = (step s a).bind fun s' => exec step s' as := rfl

/-- The step function with a decidable guard in front of it. -/
def guarded (step : S → A → Option S) (ok : S → A → Prop) [∀ s a, Decidable (ok s a)]
    (s : S) (a : A) : Option S :=
  if ok s a then step s a else none

/-! ## reachable states -/

/-- The states reached from `init` by steps that all meet `ok`. -/
inductive Reaches (step : S → A → Option S) (ok : S → A → Prop) (init : S → Prop) : S → Prop
  | start {s : S} : init s → Reaches step ok init s
  | step {s s' : S} {a : A} :
      Reaches step ok init s → ok s a → step s a = some s' → Reaches step ok init s'

/-- The guard that lets every step pass. -/
def anyStep : S → A → Prop := fun _ _ => True

instance (s : S) (a : A) : Decidable (anyStep s a) := .isTrue trivial

variable {step : S → A → Option S} {ok : S → A → Prop} {init : S → Prop}

/-- **Invariant rule**: what holds initially and is kept by every guarded
step holds in every state reached. -/
theorem Reaches.invariant {P : S → Prop} (h0 : ∀ s, init s → P s)
    (hstep : ∀ s a s', P s → ok s a → step s a = some s' → P s')
    (h : Reaches step ok init s) : P s := by
  induction h with
  | start hi => exact h0 _ hi
  | step _ hok hs ih => exact hstep _ _ _ ih hok hs

/-- A guarded run is a run. -/
theorem Reaches.unguarded (h : Reaches step ok init s) : Reaches step anyStep init s := by
  induction h with
  | start hi => exact .start hi
  | step _ _ hs ih => exact ih.step trivial hs

/-- A run of the guarded step function stays within the reachable states. -/
theorem Reaches.exec_guarded [∀ s a, Decidable (ok s a)] (h : Reaches step ok init s)
    (he : exec (guarded step ok) s as = some s') : Reaches step ok init s' := by
  induction as generalizing s with
  | nil => rw [exec_nil, Option.some.injEq] at he; exact he ▸ h
  | cons a as ih =>
      rw [exec_cons] at he
      obtain ⟨s₁, hs, he⟩ := Option.bind_eq_some_iff.mp he
      unfold guarded at hs
      split at hs
      · next hok => exact ih (h.step hok hs) he
      · contradiction

/-- Evaluate a guarded run from an initial state: what holds of the state it
ends in holds of a state reached. -/
theorem exists_reaches [∀ s a, Decidable (ok s a)] {P : S → Prop} [DecidablePred P] (as : List A)
    (h0 : init s) (h : (exec (guarded step ok) s as).any (P ·) = true) :
    ∃ s', Reaches step ok init s' ∧ P s' := by
  cases he : exec (guarded step ok) s as with
  | none => simp [he] at h
  | some s' => exact ⟨s', (Reaches.start h0).exec_guarded he, by simpa [he] using h⟩

/-! ## projecting one machine onto another -/

/-- **Projection rule**: when every guarded step of a machine is, under `f`,
either no step or a guarded step of another machine, its reachable states
project into the reachable states of the other. -/
theorem Reaches.project {step' : T → B → Option T} {ok' : T → B → Prop} {init' : T → Prop}
    (f : S → T) (h0 : ∀ s, init s → init' (f s))
    (hstep : ∀ s a s', ok s a → step s a = some s' →
      f s' = f s ∨ ∃ b, ok' (f s) b ∧ step' (f s) b = some (f s'))
    (h : Reaches step ok init s) : Reaches step' ok' init' (f s) := by
  refine h.invariant (P := fun s => Reaches step' ok' init' (f s)) (fun s hs => .start (h0 s hs)) ?_
  intro s a s' ih hok hs
  rcases hstep s a s' hok hs with heq | ⟨b, hb, hs'⟩
  · rw [heq]; exact ih
  · exact ih.step hb hs'

end Machine
