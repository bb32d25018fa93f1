import Mathlib.Algebra.Group.Nat.Defs

/-!
# MtEmu.Lib.Loop

Counted loops that emit one item a round.

`rounds body n i s` runs `n` rounds of a `for` loop whose index starts at
`i` and steps by one; a round reads the index and the loop's variables `s`
and yields what it emits and the new variables.  The index type is the
program's own, so a fixed-width counter keeps its wrap-around.

`rounds_spec` is the loop rule: an invariant of the variables, kept from
round to round, gives a fact about the item of every round and about the
variables at the end.  `each` is the loop that emits nothing and only changes
its variables, over the indices below a bound.

`whileBelow` is the loop of a fixed-width position that moves by a step while it is below
a bound.  With no wrap-around it ends (`whileBelow_spec`), and a position that starts a
multiple of the step below the bound ends at it (`whileBelow_reach`).

`untilFail` is the loop that returns as soon as a round fails.  `whilePieces` is the one that
takes pieces of bounded length until nothing is left; `whilePieces_spec` says how it ends.
-/

namespace Loop

variable {ι σ α : Type} [Add ι] [OfNat ι 1]

/-- Run `n` rounds from index `i`, collecting what they emit. -/
def rounds (body : ι → σ → α × σ) : Nat → ι → σ → List α × σ
  | 0, _, s => ([], s)
  | n + 1, i, s =>
      let r := body i s
      let rest := rounds body n (i + 1) r.2
      (r.1 :: rest.1, rest.2)

theorem rounds_succ (body : ι → σ → α × σ) (n : Nat) (i : ι) (s : σ) :
    rounds body (n + 1) i s =
      ((body i s).1 :: (rounds body n (i + 1) (body i s).2).1,
        (rounds body n (i + 1) (body i s).2).2) := rfl

@[simp] theorem length_rounds (body : ι → σ → α × σ) (n : Nat) (i : ι) (s : σ) :
    (rounds body n i s).1.length = n := by
  induction n generalizing i s with
  | zero => rfl
  | succ n ih => rw [rounds_succ, List.length_cons, ih]

/-- **Loop rule**: with `at k` the index of round `k`, an invariant `inv k`
of the variables before round `k` that every round keeps holds at the end,
and every item meets what its round establishes. -/
theorem rounds_spec {body : ι → σ → α × σ} {n : Nat} {s : σ} (idx : Nat → ι)
    (inv : Nat → σ → Prop) (item : Nat → α → Prop) (hidx : ∀ k, idx (k + 1) = idx k + 1)
    (hbody : ∀ k s, k < n → inv k s →
      item k (body (idx k) s).1 ∧ inv (k + 1) (body (idx k) s).2)
    (h0 : inv 0 s) :
    (∀ k a, (rounds body n (idx 0) s).1[k]? = some a → item k a) ∧
      inv n (rounds body n (idx 0) s).2 := by
  induction n generalizing s idx inv item with
  | zero => exact ⟨fun k a hk => by simp at hk, h0⟩
  | succ n ih =>
      obtain ⟨hitem, hinv⟩ := hbody 0 s (Nat.succ_pos n) h0
      obtain ⟨hits, hend⟩ := ih (fun k => idx (k + 1)) (fun k => inv (k + 1))
        (fun k => item (k + 1)) (fun k => hidx (k + 1))
        (fun k s hk hs => hbody (k + 1) s (Nat.succ_lt_succ hk) hs) hinv
      simp only [hidx 0] at hits hend
      refine ⟨fun k a hk => ?_, hend⟩
      cases k with
      | zero =>
          simp only [rounds_succ, List.getElem?_cons_zero, Option.some.injEq] at hk
          exact hk ▸ hitem
      | succ k =>
          rw [rounds_succ, List.getElem?_cons_succ] at hk
          exact hits k a hk

/-- Items that have the next slice of a sequence each have the sequence together. -/
theorem flatMap_slices {β : Type} {bytes : α → List β} {f : Nat → β} {items : List α}
    {c : Nat → Nat} (hmono : ∀ k < items.length, c k ≤ c (k + 1))
    (h : ∀ k a, items[k]? = some a → bytes a = (List.range' (c k) (c (k + 1) - c k)).map f) :
    c 0 ≤ c items.length ∧
      items.flatMap bytes = (List.range' (c 0) (c items.length - c 0)).map f := by
  induction items generalizing c with
  | nil => simp
  | cons a items ih =>
      obtain ⟨hle, hrest⟩ := @ih (fun k => c (k + 1))
        (fun k hk => hmono (k + 1) (Nat.succ_lt_succ hk))
        (fun k b hb => h (k + 1) b (by simpa using hb))
      have hfirst := hmono 0 (Nat.succ_pos _)
      simp only [Nat.zero_add] at hle hrest hfirst
      refine ⟨Nat.le_trans hfirst hle, ?_⟩
      have hsplit : List.range' (c 0) (c (items.length + 1) - c 0) =
          List.range' (c 0) (c 1 - c 0) ++ List.range' (c 1) (c (items.length + 1) - c 1) := by
        have happ := List.range'_append_1 (s := c 0) (m := c 1 - c 0)
          (n := c (items.length + 1) - c 1)
        rw [show c 0 + (c 1 - c 0) = c 1 by omega,
          show c 1 - c 0 + (c (items.length + 1) - c 1) = c (items.length + 1) - c 0 by omega] at happ
        exact happ.symm
      rw [List.flatMap_cons, h 0 a rfl, hrest, List.length_cons, hsplit, List.map_append]

/-! ## loops that emit nothing -/

/-- `for (k = 0; k < n; k++)` over a body that changes the variables. -/
def each (n : Nat) (body : Nat → σ → σ) (s : σ) : σ :=
  match n with
  | 0 => s
  | n + 1 => body n (each n body s)

/-- A counted loop runs over a range. -/
theorem each_eq_foldl (n : Nat) (body : Nat → σ → σ) (s : σ) :
    each n body s = (List.range n).foldl (fun s k => body k s) s := by
  induction n with
  | zero => rfl
  | succ n ih => rw [each, ih, List.range_succ, List.foldl_append, List.foldl_cons, List.foldl_nil]

/-- **Loop rule**: an invariant of the variables before round `k`, kept by
every round, holds at the end. -/
theorem each_spec {body : Nat → σ → σ} {n : Nat} {s : σ} (inv : Nat → σ → Prop)
    (hbody : ∀ k s, k < n → inv k s → inv (k + 1) (body k s)) (h0 : inv 0 s) :
    inv n (each n body s) := by
  induction n with
  | zero => exact h0
  | succ n ih =>
      exact hbody n _ (Nat.lt_succ_self n)
        (ih fun k s hk => hbody k s (Nat.lt_succ_of_lt hk))

/-- What no round changes stays. -/
theorem each_keep {β : Type} {body : Nat → σ → σ} {n : Nat} {s : σ} (get : σ → β)
    (h : ∀ k < n, ∀ s, get (body k s) = get s) : get (each n body s) = get s :=
  each_spec (fun _ s' => get s' = get s) (fun k s' hk hs => (h k hk s').trans hs) rfl

/-- What one round sets and no later one changes is set. -/
theorem each_set {β : Type} {body : Nat → σ → σ} {n k : Nat} {s : σ} (get : σ → β) {v : β}
    (hk : k < n) (hset : ∀ s, get (body k s) = v)
    (hkeep : ∀ j < n, k < j → ∀ s, get (body j s) = get s) : get (each n body s) = v := by
  induction n with
  | zero => exact absurd hk (Nat.not_lt_zero k)
  | succ n ih =>
      by_cases hlast : k = n
      · subst hlast
        exact hset _
      · have hlt : k < n := by omega
        rw [each, hkeep n (Nat.lt_succ_self n) hlt]
        exact ih hlt fun j hj => hkeep j (Nat.lt_succ_of_lt hj)

/-! ## loops over a position -/

section Position

variable {w : Nat} {bound step : BitVec w} (body : BitVec w → σ → σ) (fuel : Nat)
  {r : BitVec w × σ}

/-- `if (i < bound) { body; i += step; }`. -/
def ifBelow (bound step : BitVec w) (body : BitVec w → σ → σ) (r : BitVec w × σ) : BitVec w × σ :=
  if r.1 < bound then (r.1 + step, body r.1 r.2) else r

/-- `while (i < bound) { body; i += step; }`, `fuel` rounds at most. -/
def whileBelow (bound step : BitVec w) (body : BitVec w → σ → σ) :
    Nat → BitVec w × σ → Option (BitVec w × σ)
  | 0, r => if r.1 < bound then none else some r
  | fuel + 1, r =>
      if r.1 < bound then whileBelow bound step body fuel (ifBelow bound step body r) else some r

theorem whileBelow_of_not_lt (h : ¬r.1 < bound) :
    whileBelow bound step body fuel r = some r := by
  cases fuel <;> rw [whileBelow, if_neg h]

/-- A step from below the bound does not wrap. -/
theorem toNat_add_step {i : BitVec w} (hfit : bound.toNat + step.toNat ≤ 2 ^ w) (hi : i < bound) :
    (i + step).toNat = i.toNat + step.toNat := by
  have hlt : i.toNat < bound.toNat := hi
  rw [BitVec.toNat_add, Nat.mod_eq_of_lt (by omega)]

/-- **Loop rule**: when no step wraps, as many rounds as there are positions suffice, and
an invariant that every round keeps holds at the end. -/
theorem whileBelow_spec (inv : BitVec w → σ → Prop) (hpos : 0 < step.toNat)
    (hfit : bound.toNat + step.toNat ≤ 2 ^ w)
    (hbody : ∀ i s, i < bound → inv i s → inv (i + step) (body i s))
    (hfuel : bound.toNat ≤ r.1.toNat + fuel) (h0 : inv r.1 r.2) :
    ∃ r', whileBelow bound step body fuel r = some r' ∧ ¬r'.1 < bound ∧ inv r'.1 r'.2 := by
  induction fuel generalizing r with
  | zero =>
      have hend : ¬r.1 < bound := Nat.not_lt.mpr hfuel
      exact ⟨r, whileBelow_of_not_lt body 0 hend, hend, h0⟩
  | succ fuel ih =>
      by_cases hlt : r.1 < bound
      · have hstep : ifBelow bound step body r = (r.1 + step, body r.1 r.2) := if_pos hlt
        rw [whileBelow, if_pos hlt, hstep]
        refine ih ?_ (hbody r.1 r.2 hlt h0)
        rw [toNat_add_step hfit hlt]
        omega
      · exact ⟨r, whileBelow_of_not_lt body _ hlt, hlt, h0⟩

/-- **Loop rule**, for a position some steps below the bound: it ends there. -/
theorem whileBelow_reach (inv : Nat → σ → Prop) (hpos : 0 < step.toNat)
    (hfit : bound.toNat + step.toNat ≤ 2 ^ w) (hle : r.1.toNat ≤ bound.toNat)
    (hdvd : step.toNat ∣ bound.toNat - r.1.toNat)
    (hbody : ∀ i s, i.toNat + step.toNat ≤ bound.toNat → inv i.toNat s →
      inv (i.toNat + step.toNat) (body i s))
    (hfuel : bound.toNat ≤ r.1.toNat + fuel) (h0 : inv r.1.toNat r.2) :
    ∃ s', whileBelow bound step body fuel r = some (bound, s') ∧ inv bound.toNat s' := by
  obtain ⟨r', hrun, hend, hle', -, hinv⟩ := whileBelow_spec body fuel
    (fun i s => i.toNat ≤ bound.toNat ∧ step.toNat ∣ bound.toNat - i.toNat ∧ inv i.toNat s)
    hpos hfit (fun i s hi hs => by
      have hlt : i.toNat < bound.toNat := hi
      have hroom : step.toNat ≤ bound.toNat - i.toNat := Nat.le_of_dvd (by omega) hs.2.1
      rw [toNat_add_step hfit hi, ← Nat.sub_sub]
      exact ⟨by omega, Nat.dvd_sub hs.2.1 (Nat.dvd_refl _), hbody i s (by omega) hs.2.2⟩)
    hfuel ⟨hle, hdvd, h0⟩
  have hge : ¬r'.1.toNat < bound.toNat := hend
  obtain rfl : r'.1 = bound := BitVec.eq_of_toNat_eq (by omega)
  exact ⟨r'.2, hrun, hinv⟩

/-- One round is enough for a position at most one step below the bound. -/
theorem ifBelow_eq_whileBelow (hfit : bound.toNat + step.toNat ≤ 2 ^ w)
    (hle : bound.toNat ≤ r.1.toNat + step.toNat) :
    whileBelow bound step body (fuel + 1) r = some (ifBelow bound step body r) := by
  by_cases hlt : r.1 < bound
  · have hend : ¬(ifBelow bound step body r).1 < bound := by
      rw [ifBelow, if_pos hlt, BitVec.lt_def, toNat_add_step hfit hlt]
      omega
    rw [whileBelow, if_pos hlt, whileBelow_of_not_lt body _ hend]
  · rw [whileBelow_of_not_lt body _ hlt, ifBelow, if_neg hlt]

end Position

/-! ## loops that a failure ends -/

section Fail

variable (round : Nat → σ → Int × σ) (st : Nat → σ) {n k : Nat} (ret : Int)

/-- `n` rounds from round `k` on, up to the first whose result is not zero; `r` is the
result and the variables so far. -/
def untilFail (round : Nat → σ → Int × σ) : Nat → Nat → Int × σ → Int × σ
  | 0, _, r => r
  | n + 1, k, r =>
      if (round k r.2).1 = 0 then untilFail round n (k + 1) (round k r.2) else round k r.2

/-- Rounds that succeed are all run. -/
theorem untilFail_ok (h : ∀ j < n, round (k + j) (st (k + j)) = (0, st (k + j + 1))) :
    untilFail round n k (ret, st k) = (if n = 0 then ret else 0, st (k + n)) := by
  induction n generalizing k ret with
  | zero => rfl
  | succ n ih =>
      have h0 : round k (st k) = (0, st (k + 1)) := h 0 (Nat.succ_pos n)
      have hrest := ih 0 (k := k + 1) fun j hj => by
        have := h (j + 1) (Nat.succ_lt_succ hj)
        rwa [← Nat.add_assoc, Nat.add_right_comm] at this
      rw [untilFail, h0, if_pos rfl, hrest, ite_self, if_neg (Nat.succ_ne_zero n),
        Nat.add_right_comm, Nat.add_assoc]

/-- The first round that fails is the last one. -/
theorem untilFail_fail {j : Nat} {r : Int × σ} (hj : j < n)
    (h : ∀ i < j, round (k + i) (st (k + i)) = (0, st (k + i + 1)))
    (hr : round (k + j) (st (k + j)) = r) (hfail : r.1 ≠ 0) :
    untilFail round n k (ret, st k) = r := by
  induction j generalizing n k ret with
  | zero =>
      obtain ⟨n, rfl⟩ := Nat.exists_eq_succ_of_ne_zero (Nat.ne_of_gt hj)
      have hfirst : round k (st k) = r := hr
      rw [untilFail, hfirst, if_neg hfail]
  | succ j ih =>
      obtain ⟨n, rfl⟩ := Nat.exists_eq_succ_of_ne_zero (Nat.ne_of_gt (Nat.zero_lt_of_lt hj))
      have h0 : round k (st k) = (0, st (k + 1)) := h 0 (Nat.succ_pos j)
      rw [untilFail, h0, if_pos rfl]
      refine ih 0 (Nat.lt_of_succ_lt_succ hj) (fun i hi => ?_) ?_
      · have := h (i + 1) (Nat.succ_lt_succ hi)
        rwa [← Nat.add_assoc, Nat.add_right_comm] at this
      · rwa [← Nat.add_assoc, Nat.add_right_comm] at hr

/-- **Loop rule**: with `st j` the variables before round `j` and `e j` what the round
returns, the loop ends with `st n`, or with what the first round that fails leaves. -/
theorem untilFail_spec {e : Nat → Int} {left : Nat → σ}
    (h : ∀ j < n, round j (st j) = (e j, if e j = 0 then st (j + 1) else left j)) :
    ((∀ j < n, e j = 0) → untilFail round n 0 (ret, st 0) = (if n = 0 then ret else 0, st n)) ∧
      ∀ j < n, (∀ i < j, e i = 0) → e j ≠ 0 →
        untilFail round n 0 (ret, st 0) = (e j, left j) := by
  have hok {j : Nat} (hj : j < n) (h0 : e j = 0) :
      round (0 + j) (st (0 + j)) = (0, st (0 + j + 1)) := by
    rw [Nat.zero_add, h j hj, if_pos h0, h0]
  refine ⟨fun h0 => ?_, fun j hj hbefore hfail => ?_⟩
  · have hrun := untilFail_ok round st ret (n := n) (k := 0) fun j hj => hok hj (h0 j hj)
    rwa [Nat.zero_add] at hrun
  · refine untilFail_fail round st ret hj
      (fun i hi => hok (Nat.lt_trans hi hj) (hbefore i hi)) ?_ hfail
    rw [Nat.zero_add, h j hj, if_neg hfail]

end Fail

/-! ## loops over pieces -/

/-- The number of pieces of at most `m` that `n` is cut in. -/
def numPieces (m n : Nat) : Nat := (n + m - 1) / m

/-- The length of piece `k`. -/
def pieceLen (m n k : Nat) : Nat := min m (n - k * m)

theorem lt_numPieces {m n k : Nat} (hm : 0 < m) : k < numPieces m n ↔ k * m < n := by
  rw [numPieces, ← Nat.succ_le_iff, Nat.le_div_iff_mul_le hm, Nat.succ_mul]
  omega

section Pieces

variable {w : Nat} {σ : Type}

/-- `while (size > 0) { len = size > most ? most : size; ...; pos += len; size -= len; }`,
`fuel` rounds at most; a round that fails ends it with -1. -/
def whilePieces (most : BitVec w) (round : BitVec w → BitVec w → σ → Option (Int × σ)) :
    Nat → BitVec w → BitVec w → σ → Option (Int × σ)
  | 0, _, size, s => if 0 < size then none else some (0, s)
  | fuel + 1, pos, size, s =>
      if 0 < size then
        let len := if most < size then most else size
        (round pos len s).bind fun r =>
          if r.1 ≠ 0 then some (-1, r.2)
          else whilePieces most round fuel (pos + len) (size - len) r.2
      else some (0, s)

/-- How a loop of `n` rounds has ended, of which round `k` returns `e k`: all of them
succeed, or the first that fails is the last one. -/
inductive Ended (n : Nat) (e : Nat → Int) (inv left : Nat → σ → Prop) : Option (Int × σ) → Prop
  | all {s : σ} (h : ∀ k < n, e k = 0) (hs : inv n s) : Ended n e inv left (some (0, s))
  | first {s : σ} {k : Nat} (hk : k < n) (h : ∀ i < k, e i = 0) (he : e k ≠ 0) (hs : left k s) :
      Ended n e inv left (some (-1, s))

theorem Ended.mono {n : Nat} {e : Nat → Int} {inv inv' left left' : Nat → σ → Prop}
    {r : Option (Int × σ)} (h : Ended n e inv left r) (hinv : ∀ k s, inv k s → inv' k s)
    (hleft : ∀ k s, left k s → left' k s) : Ended n e inv' left' r := by
  cases h with
  | all h hs => exact .all h (hinv n _ hs)
  | first hk h he hs => exact .first hk h he (hleft _ _ hs)

/-- A loop whose first round fails. -/
theorem Ended.fails {n : Nat} {e : Nat → Int} {inv left : Nat → σ → Prop} {r : Option (Int × σ)}
    (h : Ended n e inv left r) (hn : 0 < n) (he : e 0 ≠ 0) : ∃ s, r = some (-1, s) ∧ left 0 s := by
  cases h with
  | all h => exact absurd (h 0 hn) he
  | @first s k hk h _ hs =>
      obtain rfl | hpos := Nat.eq_zero_or_pos k
      · exact ⟨s, rfl, hs⟩
      · exact absurd (h 0 hpos) he

variable {most : BitVec w} {round : BitVec w → BitVec w → σ → Option (Int × σ)} {fuel : Nat}

theorem whilePieces_zero (pos : BitVec w) (s : σ) :
    whilePieces most round fuel pos 0 s = some (0, s) := by
  have hzero : ¬(0 : BitVec w) < 0 := Nat.lt_irrefl _
  cases fuel <;> rw [whilePieces, if_neg hzero]

theorem whilePieces_succ {pos size len : BitVec w} {s : σ} {r : Int × σ}
    (hsize : 0 < size.toNat) (hlen : len.toNat = min most.toNat size.toNat)
    (hround : round pos len s = some r) :
    whilePieces most round (fuel + 1) pos size s =
      if r.1 ≠ 0 then some (-1, r.2)
      else whilePieces most round fuel (pos + len) (size - len) r.2 := by
  have hpos : 0 < size := hsize
  have hite : (if most < size then most else size) = len := by
    apply BitVec.eq_of_toNat_eq
    rw [hlen]
    split
    · next h => exact (Nat.min_eq_left (Nat.le_of_lt h)).symm
    · next h => exact (Nat.min_eq_right (Nat.not_lt.mp h)).symm
  rw [whilePieces, if_pos hpos, hite]
  simp only [hround, Option.bind_some]

variable {n : Nat} {e : Nat → Int} {inv left : Nat → σ → Prop}

/-- The length of a piece, as a word. -/
theorem toNat_pieceLen {m k : Nat} (hn : n < 2 ^ w) :
    (BitVec.ofNat w (pieceLen m n k)).toNat = pieceLen m n k := by
  have hle : pieceLen m n k ≤ n - k * m := Nat.min_le_right _ _
  rw [BitVec.toNat_ofNat, Nat.mod_eq_of_lt (by omega)]

/-- Nothing is left. -/
theorem whilePieces_none {k : Nat} {pos size : BitVec w} {s : σ} (fuel : Nat)
    (hmost : 0 < most.toNat) (hk : k ≤ numPieces most.toNat n)
    (hsize : size.toNat = n - k * most.toNat) (hend : n ≤ k * most.toNat)
    (hbefore : ∀ i < k, e i = 0) (hinv : inv k s) :
    Ended (numPieces most.toNat n) e inv left (whilePieces most round fuel pos size s) := by
  have hcount : ¬k < numPieces most.toNat n := by rwa [lt_numPieces hmost, Nat.not_lt]
  obtain rfl : k = numPieces most.toNat n := Nat.le_antisymm hk (Nat.not_lt.mp hcount)
  obtain rfl : size = 0 := BitVec.eq_of_toNat_eq (by rw [hsize, Nat.sub_eq_zero_of_le hend]; rfl)
  rw [whilePieces_zero]
  exact .all hbefore hinv

theorem whilePieces_from (hmost : 0 < most.toNat) (hn : n < 2 ^ w)
    (hround : ∀ k s, k * most.toNat < n → inv k s →
      ∃ s', round (BitVec.ofNat w (k * most.toNat)) (BitVec.ofNat w (pieceLen most.toNat n k)) s =
          some (e k, s') ∧ if e k = 0 then inv (k + 1) s' else left k s')
    {k : Nat} {pos size : BitVec w} {s : σ} (hk : k ≤ numPieces most.toNat n)
    (hpos : k * most.toNat < n → pos = BitVec.ofNat w (k * most.toNat))
    (hsize : size.toNat = n - k * most.toNat) (hbefore : ∀ i < k, e i = 0)
    (hfuel : n - k * most.toNat ≤ fuel) (hinv : inv k s) :
    Ended (numPieces most.toNat n) e inv left (whilePieces most round fuel pos size s) := by
  induction fuel generalizing k pos size s with
  | zero => exact whilePieces_none 0 hmost hk hsize (by omega) hbefore hinv
  | succ fuel ih =>
      by_cases hlt : k * most.toNat < n
      · obtain ⟨s', hrun, hs'⟩ := hround k s hlt hinv
        have hlen := toNat_pieceLen (m := most.toNat) (k := k) hn
        have hcount := (lt_numPieces hmost).mpr hlt
        have hnext : (k + 1) * most.toNat = k * most.toNat + most.toNat := Nat.succ_mul _ _
        rw [hpos hlt, whilePieces_succ (by omega) (by rw [hlen, hsize, pieceLen]) hrun]
        rw [pieceLen] at hlen
        by_cases he : e k = 0
        · rw [if_pos he] at hs'
          rw [if_neg (not_not_intro he)]
          refine ih (k := k + 1) hcount (fun hmore => ?_) ?_
            (fun i hi => (Nat.lt_succ_iff_lt_or_eq.mp hi).elim (hbefore i) (· ▸ he))
            (by omega) hs'
          · rw [pieceLen, Nat.min_eq_left (by omega), hnext, BitVec.ofNat_add]
          · rw [BitVec.toNat_sub_of_le (by rw [BitVec.le_def, pieceLen]; omega), pieceLen]
            omega
        · rw [if_pos he]
          rw [if_neg he] at hs'
          exact .first hcount hbefore he hs'
      · exact whilePieces_none _ hmost hk hsize (Nat.not_lt.mp hlt) hbefore hinv

/-- **Loop rule**: as many rounds as there are items suffice; each round has the next piece,
and what the rounds keep holds at the end. -/
theorem whilePieces_spec {size : BitVec w} {s : σ} (hmost : 0 < most.toNat)
    (hround : ∀ k s, k * most.toNat < size.toNat → inv k s →
      ∃ s', round (BitVec.ofNat w (k * most.toNat))
          (BitVec.ofNat w (pieceLen most.toNat size.toNat k)) s = some (e k, s') ∧
        if e k = 0 then inv (k + 1) s' else left k s')
    (hfuel : size.toNat ≤ fuel) (h0 : inv 0 s) :
    Ended (numPieces most.toNat size.toNat) e inv left
      (whilePieces most round fuel 0 size s) :=
  whilePieces_from hmost size.isLt hround (Nat.zero_le _) (fun _ => by rw [Nat.zero_mul]; rfl)
    (by omega) (fun i hi => absurd hi (Nat.not_lt_zero i)) (by omega) h0

end Pieces

end Loop
