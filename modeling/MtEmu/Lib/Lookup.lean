import Mathlib.Data.List.Basic

/-!
# MtEmu.Lib.Lookup

Chains of lookups in a table that may have no entry for a key.

A `Chain` either ends, or looks a key up and goes on with the entry; it fails where there is
none.  `keys` are the keys that a run looks up.  Entries that no run looks up do not matter
(`run_congr`), and removing entries spoils exactly the runs that look one of them up
(`run_without_iff`).
-/

namespace Lookup

/-- What to look up, as it depends on the entries found.  This is how a walk through a table
of several levels depends on it: an entry tells where the next one is. -/
inductive Chain (κ β α : Type) where
  | done (a : α)
  | look (key : κ) (next : β → Chain κ β α)

namespace Chain

variable {κ β α : Type}

/-- The result, if every key is in the table. -/
def run (m : κ → Option β) : Chain κ β α → Option α
  | done a => some a
  | look key next => (m key).bind fun b => run m (next b)

/-- The keys looked up. -/
def keys (m : κ → Option β) : Chain κ β α → List κ
  | done _ => []
  | look key next => key :: ((m key).map fun b => keys m (next b)).getD []

variable {m m' : κ → Option β}

theorem mem_keys_look {key key' : κ} {next : β → Chain κ β α} :
    key' ∈ (look key next).keys m ↔
      key' = key ∨ ∃ b, m key = some b ∧ key' ∈ (next b).keys m := by
  rw [keys, List.mem_cons]
  cases m key <;> simp

/-- A run depends on the entries it looks up only. -/
theorem run_congr {c : Chain κ β α} (h : ∀ key ∈ c.keys m, m' key = m key) :
    c.run m' = c.run m := by
  induction c with
  | done a => rfl
  | look key next ih =>
      have hhere : m' key = m key := h key List.mem_cons_self
      rw [run, run, hhere]
      cases hm : m key with
      | none => rfl
      | some b =>
          refine ih b fun k hk => h k (List.mem_cons_of_mem key ?_)
          rwa [hm]

/-- The table without some entries; the others are as they were. -/
def without (m : κ → Option β) (gone : κ → Prop) [DecidablePred gone] : κ → Option β :=
  fun key => if gone key then none else m key

variable {gone : κ → Prop} [DecidablePred gone]

/-- A run that looks up an entry that is gone fails. -/
theorem run_without_eq_none {c : Chain κ β α} (key : κ) (hkey : key ∈ c.keys m)
    (hgone : gone key) :
    c.run (without m gone) = none := by
  induction c with
  | done a => contradiction
  | look first next ih =>
      rw [run, without]
      by_cases hfirst : gone first
      · rw [if_pos hfirst]
        rfl
      · rw [if_neg hfirst]
        cases hm : m first with
        | none => rfl
        | some b =>
            rw [keys, hm] at hkey
            obtain rfl | hrest := List.mem_cons.mp hkey
            · exact absurd hgone hfirst
            · exact ih b hrest

/-- **Removal**: a run ends as before exactly when it failed before or looks up nothing that
is gone. -/
theorem run_without_iff (c : Chain κ β α) :
    c.run (without m gone) = c.run m ↔ c.run m = none ∨ ∀ key ∈ c.keys m, ¬gone key := by
  constructor
  · intro h
    by_cases hnone : c.run m = none
    · exact .inl hnone
    · refine .inr fun key hkey hgone => hnone ?_
      rw [← h, run_without_eq_none key hkey hgone]
  · rintro (hnone | hkeep)
    · by_cases hkeep : ∀ key ∈ c.keys m, ¬gone key
      · exact run_congr fun key hkey => if_neg (hkeep key hkey)
      · obtain ⟨key, hkey, hgone⟩ := by simpa using hkeep
        rw [hnone, run_without_eq_none key hkey hgone]
    · exact run_congr fun key hkey => if_neg (hkeep key hkey)

end Chain

end Lookup
