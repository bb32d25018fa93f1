import Mathlib.Logic.Function.Basic

/-!
# MtEmu.Lib.Ledger

Logs of resources acquired and released.

A program that acquires resources and gives them back on several paths is
judged by the log of what it did.  A log says which resources are held at its
end (`after`).  It is `Sound` when every event is in order: a resource is
acquired when it is free and what it needs is held, and released when it is
held and nothing that needs it is.  In a sound log every resource is released
at most once for each time it was acquired, and held exactly when one release
is missing (`Sound.balance`): no leak and no double release is then the
statement that nothing is held at the end.

What needs what is a relation given by the user, so the order of teardown is
part of soundness.  A log over some of the resources of a larger system is a
log of that system (`Sound.map`), which lets a routine be judged by itself and
its log be put into its caller's.
-/

namespace Ledger

/-- What happens to a resource: it is acquired or released.  Whether that was
allowed is not part of the event. -/
inductive Event (R : Type) where
  | acquire (r : R)
  | release (r : R)
  deriving DecidableEq

variable {R Q : Type} [DecidableEq R] [DecidableEq Q]

/-- The resources held after an event, in order or not: a second release leaves
the resource released. -/
def step (h : R → Bool) : Event R → R → Bool
  | .acquire r => Function.update h r true
  | .release r => Function.update h r false

/-- The resources held after a log that began with `h`. -/
def after (h : R → Bool) (es : List (Event R)) : R → Bool := es.foldl step h

/-- An event is in order: nothing is acquired twice or before what it needs,
and nothing released twice or before what needs it. -/
def Allowed (needs : R → R → Prop) (h : R → Bool) : Event R → Prop
  | .acquire r => h r = false ∧ ∀ q, needs r q → h q = true
  | .release r => h r = true ∧ ∀ q, needs q r → h q = false

/-- Every event of a log is in order in the state that the events before it
leave. -/
def Sound (needs : R → R → Prop) (h : R → Bool) : List (Event R) → Prop
  | [] => True
  | e :: es => Allowed needs h e ∧ Sound needs (step h e) es

variable {needs : R → R → Prop} {h : R → Bool}

@[simp] theorem after_nil (h : R → Bool) : after h [] = h := rfl

@[simp] theorem after_cons (h : R → Bool) (e : Event R) (es : List (Event R)) :
    after h (e :: es) = after (step h e) es := rfl

@[simp] theorem after_append (h : R → Bool) (es fs : List (Event R)) :
    after h (es ++ fs) = after (after h es) fs := List.foldl_append

@[simp] theorem sound_nil : Sound needs h [] := trivial

theorem sound_cons {e : Event R} {es : List (Event R)} :
    Sound needs h (e :: es) ↔ Allowed needs h e ∧ Sound needs (step h e) es := Iff.rfl

theorem sound_append {es fs : List (Event R)} :
    Sound needs h (es ++ fs) ↔ Sound needs h es ∧ Sound needs (after h es) fs := by
  induction es generalizing h with
  | nil => simp
  | cons e es ih => simp only [List.cons_append, sound_cons, ih, after_cons, and_assoc]

/-- One more event at the end of a sound log, judged in the state the log
leaves. -/
theorem Sound.snoc {es : List (Event R)} {e : Event R} (hs : Sound needs h es)
    (he : Allowed needs (after h es) e) : Sound needs h (es ++ [e]) :=
  sound_append.mpr ⟨hs, he, trivial⟩

/-! ## each release has its acquisition -/

/-- How often a resource was acquired. -/
def acquired (r : R) (es : List (Event R)) : Nat := es.count (.acquire r)

/-- How often a resource was released. -/
def released (r : R) (es : List (Event R)) : Nat := es.count (.release r)

/-- **Balance**: a resource is held exactly when it was acquired once more than it was
released.  The induction is over the log, with the state at its start general: each event
moves one count and the held state together. -/
theorem Sound.balance {es : List (Event R)} (hs : Sound needs h es) (r : R) :
    (h r).toNat + acquired r es = released r es + (after h es r).toNat := by
  induction es generalizing h with
  | nil => simp [acquired, released]
  | cons e es ih =>
      obtain ⟨he, hes⟩ := sound_cons.mp hs
      have hrest := ih hes
      simp only [acquired, released] at hrest
      simp only [acquired, released, List.count_cons, after_cons]
      cases e with
      | acquire q =>
          by_cases hq : q = r
          · subst hq
            simp only [step, Function.update_self, Bool.toNat_true] at hrest
            simp [he.1, step, ← hrest, Nat.add_comm]
          · simp only [step, Function.update_of_ne (Ne.symm hq)] at hrest
            simp [hq, step, hrest]
      | release q =>
          by_cases hq : q = r
          · subst hq
            simp only [step, Function.update_self, Bool.toNat_false] at hrest
            simp [he.1, step]
            omega
          · simp only [step, Function.update_of_ne (Ne.symm hq)] at hrest
            simp [hq, step, hrest]

/-! ## a part of a larger system -/

/-- The event of the same kind in the larger system, where the resource `r` is called
`f r`. -/
def Event.map (f : R → Q) : Event R → Event Q
  | .acquire r => .acquire (f r)
  | .release r => .release (f r)

variable {f : R → Q} {h' : Q → Bool}

theorem step_map (hf : Function.Injective f) (hh : ∀ r, h' (f r) = h r) (e : Event R) (r : R) :
    step h' (e.map f) (f r) = step h e r := by
  cases e <;> simp only [Event.map, step, Function.update_apply, hf.eq_iff, hh]

omit [DecidableEq R] in
theorem step_map_of_not_mem {q : Q} (hq : ∀ r, q ≠ f r) (e : Event R) :
    step h' (e.map f) q = h' q := by
  cases e <;> simp only [Event.map, step, Function.update_of_ne (hq _)]

theorem after_map (hf : Function.Injective f) (hh : ∀ r, h' (f r) = h r) (es : List (Event R))
    (r : R) : after h' (es.map (Event.map f)) (f r) = after h es r := by
  induction es generalizing h h' with
  | nil => exact hh r
  | cons e es ih => exact ih fun r => step_map hf hh e r

omit [DecidableEq R] in
theorem after_map_of_not_mem {q : Q} (hq : ∀ r, q ≠ f r) (es : List (Event R)) :
    after h' (es.map (Event.map f)) q = h' q := by
  induction es generalizing h' with
  | nil => rfl
  | cons e es ih => rw [List.map_cons, after_cons, ih, step_map_of_not_mem hq]

/-- **A part of a larger system**: the other resources of the larger system stay as they are,
so a part whose needs outside are held, and that nothing held outside needs, keeps its
soundness.  Both conditions are about the state at the start only, since no event of the part
moves a resource outside of it. -/
theorem Sound.map {needs' : Q → Q → Prop} {es : List (Event R)} (hf : Function.Injective f)
    (hs : Sound needs h es) (hh : ∀ r, h' (f r) = h r)
    (hneeds : ∀ r q, needs' (f r) q → (∃ p, q = f p ∧ needs r p) ∨ (∀ p, q ≠ f p) ∧ h' q = true)
    (hneeded : ∀ r q, needs' q (f r) → (∃ p, q = f p ∧ needs p r) ∨ (∀ p, q ≠ f p) ∧ h' q = false) :
    Sound needs' h' (es.map (Event.map f)) := by
  induction es generalizing h h' with
  | nil => trivial
  | cons e es ih =>
      obtain ⟨he, hes⟩ := sound_cons.mp hs
      refine sound_cons.mpr ⟨?_, ih hes (fun r => step_map hf hh e r) ?_ ?_⟩
      · cases e with
        | acquire r =>
            refine ⟨(hh r).trans he.1, fun q hq => ?_⟩
            rcases hneeds r q hq with ⟨p, rfl, hp⟩ | ⟨-, hq'⟩
            · exact (hh p).trans (he.2 p hp)
            · exact hq'
        | release r =>
            refine ⟨(hh r).trans he.1, fun q hq => ?_⟩
            rcases hneeded r q hq with ⟨p, rfl, hp⟩ | ⟨-, hq'⟩
            · exact (hh p).trans (he.2 p hp)
            · exact hq'
      · intro r q hq
        exact (hneeds r q hq).imp_right fun ⟨hout, hq'⟩ =>
          ⟨hout, (step_map_of_not_mem hout e).trans hq'⟩
      · intro r q hq
        exact (hneeded r q hq).imp_right fun ⟨hout, hq'⟩ =>
          ⟨hout, (step_map_of_not_mem hout e).trans hq'⟩

end Ledger
