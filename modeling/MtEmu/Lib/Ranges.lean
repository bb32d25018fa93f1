import Mathlib.Algebra.BigOperators.Fin
import Mathlib.Algebra.Order.BigOperators.Group.Finset
import Mathlib.Order.CompletePartialOrder
import Mathlib.Order.Interval.Set.Disjoint

/-!
# MtEmu.Lib.Ranges

Ranges carved out one after the other.

Range `k` starts where the steps before it add up to (`start`) and has a length of its own.
The ranges are disjoint exactly when no range but the last is longer than the step behind it
(`disjoint_ranges_iff`).  When the lengths are the steps, they keep clear of a place behind
their base exactly when they end in front of it (`avoids_iff`).
-/

namespace Ranges

variable {α : Type} [AddCommMonoid α] [LinearOrder α] [IsOrderedCancelAddMonoid α]

/-- Two ranges that are not empty. -/
theorem disjoint_Ico_add {a b m n : α} (hm : 0 < m) (hn : 0 < n) :
    Disjoint (Set.Ico a (a + m)) (Set.Ico b (b + n)) ↔ a + m ≤ b ∨ b + n ≤ a := by
  have ha : ¬a + m ≤ a := not_le.mpr (lt_add_of_pos_right a hm)
  have hb : ¬b + n ≤ b := not_le.mpr (lt_add_of_pos_right b hn)
  rw [Set.Ico_disjoint_Ico, min_le_iff, le_max_iff, le_max_iff]
  tauto

/-- Where range `k` starts. -/
def start (base : α) (step : Nat → α) (k : Nat) : α := base + ∑ j ∈ Finset.range k, step j

/-- Range `k`. -/
def range (base : α) (step len : Nat → α) (k : Nat) : Set α :=
  Set.Ico (start base step k) (start base step k + len k)

variable {base : α} {step len : Nat → α}

omit [LinearOrder α] [IsOrderedCancelAddMonoid α] in
@[simp] theorem start_zero : start base step 0 = base := by
  simp [start]

omit [LinearOrder α] [IsOrderedCancelAddMonoid α] in
theorem start_succ (k : Nat) : start base step (k + 1) = start base step k + step k := by
  rw [start, start, Finset.sum_range_succ, add_assoc]

theorem start_strictMono (base : α) (hstep : ∀ k, 0 < step k) : StrictMono (start base step) :=
  strictMono_nat_of_lt_succ fun k => by
    rw [start_succ]
    exact lt_add_of_pos_right _ (hstep k)

/-- **Disjointness**: of the first `n` ranges, no two meet exactly when each but the last
fits in its step. -/
theorem disjoint_ranges_iff (base : α) (hstep : ∀ k, 0 < step k) (hlen : ∀ k, 0 < len k)
    (n : Nat) :
    (∀ j < n, ∀ k < n, j ≠ k → Disjoint (range base step len j) (range base step len k)) ↔
      ∀ k, k + 1 < n → len k ≤ step k := by
  have hmono := start_strictMono base hstep
  constructor
  · intro h k hk
    have hnext := h k (Nat.lt_of_succ_lt hk) (k + 1) hk (Nat.ne_of_lt (Nat.lt_succ_self k))
    rw [range, range, disjoint_Ico_add (hlen k) (hlen (k + 1))] at hnext
    have hle : start base step k + len k ≤ start base step (k + 1) := by
      refine hnext.resolve_right (not_le.mpr ?_)
      exact (hmono (Nat.lt_succ_self k)).trans (lt_add_of_pos_right _ (hlen (k + 1)))
    rw [start_succ] at hle
    exact le_of_add_le_add_left hle
  · intro h
    have hbefore {j k : Nat} (hjk : j < k) (hk : k < n) :
        start base step j + len j ≤ start base step k := by
      refine le_trans ?_ (hmono.monotone (Nat.succ_le_of_lt hjk))
      rw [start_succ]
      exact add_le_add_right (h j (Nat.lt_of_le_of_lt hjk hk)) _
    intro j hj k hk hne
    rw [range, range, disjoint_Ico_add (hlen j) (hlen k)]
    exact (Nat.lt_or_gt_of_ne hne).imp (hbefore · hk) (hbefore · hj)

/-- **Clearance**: ranges that fill their steps keep clear of a place behind their base
exactly when they end in front of it. -/
theorem avoids_iff (hstep : ∀ k, 0 < step k) {c m : α} (hm : 0 < m) (hc : base ≤ c) (n : Nat) :
    (∀ k < n, Disjoint (range base step step k) (Set.Ico c (c + m))) ↔ start base step n ≤ c := by
  have hmono := start_strictMono base hstep
  constructor
  · intro h
    induction n with
    | zero => rwa [start_zero]
    | succ n ih =>
        have hle := ih fun k hk => h k (Nat.lt_succ_of_lt hk)
        have hlast := h n (Nat.lt_succ_self n)
        rw [range, disjoint_Ico_add (hstep n) hm] at hlast
        rw [start_succ]
        exact hlast.resolve_right (not_le.mpr (lt_of_le_of_lt hle (lt_add_of_pos_right c hm)))
  · intro h k hk
    rw [range, disjoint_Ico_add (hstep k) hm, ← start_succ]
    exact .inl ((hmono.monotone (Nat.succ_le_of_lt hk)).trans h)

end Ranges
