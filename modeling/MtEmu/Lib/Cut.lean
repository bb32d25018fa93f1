import Mathlib.Algebra.BigOperators.Fin
import Mathlib.Algebra.Order.BigOperators.Group.Finset
import Mathlib.Order.Lattice.Nat

/-!
# MtEmu.Lib.Cut

Cutting an amount into pieces by a stream of draws.

`cut fuel n d` is the loop "while something is left, take the next draw or
all that is left, whichever is less"; the fuel bounds its rounds and the
loop's own termination is the theorem `exists_cut`: with positive draws, as
many rounds as there are units suffice.  The pieces are positive, add up to
the amount (`sum_of_cut`), and there are exactly `need d n` of them
(`length_of_cut`), the least number of draws that add up to the amount.
-/

namespace Cut

open Finset (range)

/-- Cut `n` into pieces: the next draw, or all that is left if that is less.
Each round has the draws that the rounds before it have left. -/
def cut : Nat → Nat → (Nat → Nat) → Option (List Nat)
  | 0, n, _ => if n = 0 then some [] else none
  | fuel + 1, n, d =>
      if n = 0 then some []
      else (cut fuel (n - min (d 0) n) fun k => d (k + 1)).map (min (d 0) n :: ·)

/-- The least number of draws that add up to `n` or more.  It speaks of the draws
alone, so that the number of pieces can be bounded without running the loop. -/
noncomputable def need (d : Nat → Nat) (n : Nat) : Nat := sInf {m | n ≤ ∑ k ∈ range m, d k}

@[simp] theorem cut_zero (fuel : Nat) (d : Nat → Nat) : cut fuel 0 d = some [] := by
  cases fuel <;> simp [cut]

theorem cut_succ {n : Nat} (hn : n ≠ 0) (fuel : Nat) (d : Nat → Nat) :
    cut (fuel + 1) n d = (cut fuel (n - min (d 0) n) fun k => d (k + 1)).map (min (d 0) n :: ·) := by
  rw [cut, if_neg hn]

/-- One round of a cut that succeeds. -/
theorem cut_eq_some {fuel n : Nat} {d : Nat → Nat} {ps : List Nat} (hn : n ≠ 0)
    (h : cut fuel n d = some ps) :
    ∃ fuel' qs, fuel = fuel' + 1 ∧ ps = min (d 0) n :: qs ∧
      cut fuel' (n - min (d 0) n) (fun k => d (k + 1)) = some qs := by
  cases fuel with
  | zero => rw [cut, if_neg hn] at h; contradiction
  | succ fuel =>
      rw [cut_succ hn, Option.map_eq_some_iff] at h
      obtain ⟨qs, hqs, rfl⟩ := h
      exact ⟨fuel, qs, rfl, rfl, hqs⟩

/-! ## termination -/

/-- **Termination**: with positive draws a cut of `n` ends within `n` rounds. -/
theorem exists_cut {d : Nat → Nat} (hd : ∀ k, 0 < d k) {fuel n : Nat} (hf : n ≤ fuel) :
    ∃ ps, cut fuel n d = some ps := by
  induction fuel generalizing n d with
  | zero => exact ⟨[], by rw [Nat.le_zero.mp hf, cut_zero]⟩
  | succ fuel ih =>
      by_cases hn : n = 0
      · exact ⟨[], by rw [hn, cut_zero]⟩
      · have hd0 : 0 < d 0 := hd 0
        obtain ⟨qs, hqs⟩ := ih (fun k => hd (k + 1)) (n := n - min (d 0) n) (by omega)
        exact ⟨_, by rw [cut_succ hn, hqs, Option.map_some]⟩

/-! ## the pieces -/

/-- The pieces add up to the amount. -/
theorem sum_of_cut {fuel n : Nat} {d : Nat → Nat} {ps : List Nat} (h : cut fuel n d = some ps) :
    ps.sum = n := by
  induction fuel generalizing n d ps with
  | zero =>
      rw [cut] at h
      split at h
      · next hn => rw [← Option.some.inj h, hn]; rfl
      · contradiction
  | succ fuel ih =>
      by_cases hn : n = 0
      · rw [hn, cut_zero] at h
        rw [← Option.some.inj h, hn]; rfl
      · obtain ⟨fuel', qs, hf, rfl, hqs⟩ := cut_eq_some hn h
        obtain rfl : fuel = fuel' := by omega
        rw [List.sum_cons, ih hqs]
        omega

/-- Every piece is positive and at most its draw. -/
theorem piece_of_cut {fuel n : Nat} {d : Nat → Nat} {ps : List Nat} (hd : ∀ k, 0 < d k)
    (h : cut fuel n d = some ps) {i : Nat} (hi : i < ps.length) : 0 < ps[i] ∧ ps[i] ≤ d i := by
  induction fuel generalizing n d ps i with
  | zero =>
      rw [cut] at h
      split at h
      · rw [← Option.some.inj h] at hi; exact absurd hi (Nat.not_lt_zero i)
      · contradiction
  | succ fuel ih =>
      by_cases hn : n = 0
      · rw [hn, cut_zero] at h
        rw [← Option.some.inj h] at hi; exact absurd hi (Nat.not_lt_zero i)
      · obtain ⟨fuel', qs, hf, rfl, hqs⟩ := cut_eq_some hn h
        obtain rfl : fuel = fuel' := by omega
        cases i with
        | zero =>
            have hd0 := hd 0
            simp only [List.getElem_cons_zero]
            omega
        | succ i => exact ih (fun k => hd (k + 1)) hqs (i := i) (by simpa using hi)

/-! ## the number of pieces -/

/-- Draws of at least `b` each add up. -/
theorem mul_le_sum_draws {d : Nat → Nat} {b : Nat} (hd : ∀ k, b ≤ d k) (n : Nat) :
    n * b ≤ ∑ k ∈ range n, d k := by
  induction n with
  | zero => simp
  | succ n ih =>
      have := hd n
      rw [Finset.sum_range_succ, Nat.succ_mul]
      omega

/-- Positive draws add up to any amount eventually. -/
theorem le_sum_draws {d : Nat → Nat} (hd : ∀ k, 0 < d k) (n : Nat) : n ≤ ∑ k ∈ range n, d k := by
  have := mul_le_sum_draws (b := 1) hd n
  rwa [Nat.mul_one] at this

@[simp] theorem need_zero (d : Nat → Nat) : need d 0 = 0 :=
  Nat.sInf_eq_zero.mpr (.inl (by simp))

theorem need_spec {d : Nat → Nat} (hd : ∀ k, 0 < d k) (n : Nat) :
    n ≤ ∑ k ∈ range (need d n), d k :=
  Nat.sInf_mem (s := {m | n ≤ ∑ k ∈ range m, d k}) ⟨n, le_sum_draws hd n⟩

theorem need_le {d : Nat → Nat} {n m : Nat} (h : n ≤ ∑ k ∈ range m, d k) : need d n ≤ m :=
  Nat.sInf_le h

/-- `m` draws are enough exactly when they add up to the amount. -/
theorem need_le_iff {d : Nat → Nat} (hd : ∀ k, 0 < d k) {n m : Nat} :
    need d n ≤ m ↔ n ≤ ∑ k ∈ range m, d k := by
  refine ⟨fun h => ?_, need_le⟩
  have hsub : range (need d n) ⊆ range m := Finset.range_subset_range.mpr h
  exact (need_spec hd n).trans (Finset.sum_le_sum_of_subset hsub)

/-- One draw covers `min (d 0) n`; the rest is left to the later draws. -/
theorem need_succ {d : Nat → Nat} (hd : ∀ k, 0 < d k) {n : Nat} (hn : n ≠ 0) :
    need d n = need (fun k => d (k + 1)) (n - min (d 0) n) + 1 := by
  have hrest := need_spec (fun k => hd (k + 1)) (n - min (d 0) n)
  have hall := need_spec hd n
  apply Nat.le_antisymm
  · apply need_le
    rw [Finset.sum_range_succ']
    omega
  · obtain ⟨m, hm⟩ : ∃ m, need d n = m + 1 := by
      refine Nat.exists_eq_succ_of_ne_zero fun h0 => ?_
      rw [h0, Finset.sum_range_zero] at hall
      omega
    rw [hm, Finset.sum_range_succ'] at hall
    rw [hm]
    exact Nat.succ_le_succ (need_le (by omega))

/-- **Piece count**: a cut has as many pieces as draws are needed. -/
theorem length_of_cut {fuel n : Nat} {d : Nat → Nat} {ps : List Nat} (hd : ∀ k, 0 < d k)
    (h : cut fuel n d = some ps) : ps.length = need d n := by
  induction fuel generalizing n d ps with
  | zero =>
      rw [cut] at h
      split at h
      · next hn => rw [← Option.some.inj h, hn, need_zero]; rfl
      · contradiction
  | succ fuel ih =>
      by_cases hn : n = 0
      · rw [hn, cut_zero] at h
        rw [← Option.some.inj h, hn, need_zero]; rfl
      · obtain ⟨fuel', qs, hf, rfl, hqs⟩ := cut_eq_some hn h
        obtain rfl : fuel = fuel' := by omega
        rw [List.length_cons, ih (fun k => hd (k + 1)) hqs, need_succ hd hn]

theorem need_pos {d : Nat → Nat} (hd : ∀ k, 0 < d k) {n : Nat} (hn : n ≠ 0) : 0 < need d n := by
  rw [need_succ hd hn]; exact Nat.succ_pos _

/-- One draw is enough exactly when the first one covers the amount. -/
theorem need_eq_one_iff {d : Nat → Nat} (hd : ∀ k, 0 < d k) {n : Nat} (hn : n ≠ 0) :
    need d n = 1 ↔ n ≤ d 0 := by
  rw [need_succ hd hn]
  constructor
  · intro h
    by_contra hlt
    have := need_pos (fun k => hd (k + 1)) (n := n - min (d 0) n) (by omega)
    omega
  · intro h
    rw [Nat.min_eq_right h, Nat.sub_self, need_zero]

end Cut
