import Mathlib.Algebra.Group.Nat.Defs
import Mathlib.Logic.Function.Iterate

/-!
# MtEmu.Lib.Crc

Cyclic redundancy checks of any width, in the reflected bit order and without inversions.

`shift` is one step of the division: the register moves down a place, and the polynomial is
taken from it when a one moves out.  `update` takes in a chunk of bits and `crc` a string of
them.

`shift` is linear in exclusive or (`shift_xor`), so `n` steps fall into the register moved
down and the steps of its low `n` bits (`iterate_shift_split`); with these in a table, a
chunk is one look-up (`update_eq_lookup`).  A polynomial with its highest place set loses
nothing (`shift_injective`), so a change of one chunk shows (`crc_ne_of_chunk_ne`).
-/

namespace Crc

variable {w k : Nat} (poly : BitVec w)

/-! ## steps -/

/-- One step of the division: the lowest bit is the highest coefficient of what is
divided, and `poly` has its coefficients in the same order. -/
def shift (c : BitVec w) : BitVec w :=
  if c.getLsbD 0 then (c >>> 1) ^^^ poly else c >>> 1

/-- Steps are linear. -/
theorem shift_xor (a b : BitVec w) : shift poly (a ^^^ b) = shift poly a ^^^ shift poly b := by
  have hcancel : (a >>> 1 ^^^ poly) ^^^ (b >>> 1 ^^^ poly) = a >>> 1 ^^^ b >>> 1 := by
    rw [BitVec.xor_assoc, BitVec.xor_comm (b >>> 1), ← BitVec.xor_assoc poly, BitVec.xor_self,
      BitVec.zero_xor]
  simp only [shift, BitVec.getLsbD_xor, BitVec.ushiftRight_xor_distrib]
  cases a.getLsbD 0 <;> cases b.getLsbD 0 <;>
    simp only [Bool.xor_false, Bool.xor_true, Bool.not_false, Bool.not_true, Bool.false_eq_true,
      ↓reduceIte]
  · rw [BitVec.xor_assoc]
  · rw [BitVec.xor_assoc, BitVec.xor_comm (b >>> 1), ← BitVec.xor_assoc]
  · exact hcancel.symm

theorem iterate_shift_xor (n : Nat) (a b : BitVec w) :
    (shift poly)^[n] (a ^^^ b) = (shift poly)^[n] a ^^^ (shift poly)^[n] b := by
  induction n generalizing a b with
  | zero => rfl
  | succ n ih => rw [Function.iterate_succ_apply, shift_xor, ih, ← Function.iterate_succ_apply,
      ← Function.iterate_succ_apply]

/-- Zeros that move out leave the rest as it is. -/
theorem iterate_shift_of_low {n : Nat} {c : BitVec w} (h : ∀ i < n, c.getLsbD i = false) :
    (shift poly)^[n] c = c >>> n := by
  induction n generalizing c with
  | zero => rw [Function.iterate_zero_apply, BitVec.ushiftRight_zero]
  | succ n ih =>
      have hstep : shift poly c = c >>> 1 := by
        rw [shift, h 0 (Nat.succ_pos n), if_neg Bool.false_ne_true]
      have hrest : ∀ i < n, (c >>> 1).getLsbD i = false := fun i hi => by
        rw [BitVec.getLsbD_ushiftRight, Nat.add_comm]
        exact h (i + 1) (Nat.succ_lt_succ hi)
      rw [Function.iterate_succ_apply, hstep, ih hrest, ← BitVec.shiftRight_add, Nat.add_comm]

/-- The low `n` bits. -/
def low (w n : Nat) : BitVec w := BitVec.ofNat w (2 ^ n - 1)

theorem getLsbD_low (n i : Nat) : (low w n).getLsbD i = decide (i < w ∧ i < n) := by
  rw [low, BitVec.getLsbD_ofNat, Nat.testBit_two_pow_sub_one, Bool.decide_and]

/-- **Steps split**: the register moves down, and its low bits choose what is added.  By
linearity these are the steps of the register with its low bits cleared, which only move
down, and those of the low bits alone. -/
theorem iterate_shift_split (n : Nat) (c : BitVec w) :
    (shift poly)^[n] c = (c >>> n) ^^^ (shift poly)^[n] (c &&& low w n) := by
  have hsplit : c = (c &&& ~~~low w n) ^^^ (c &&& low w n) := by
    apply BitVec.eq_of_getLsbD_eq
    intro i hi
    simp only [BitVec.getLsbD_xor, BitVec.getLsbD_and, BitVec.getLsbD_not, hi]
    cases c.getLsbD i <;> cases (low w n).getLsbD i <;> rfl
  have hclear : ∀ i < n, (c &&& ~~~low w n).getLsbD i = false := fun i hi => by
    simp [getLsbD_low, hi]
  have hdown : (c &&& ~~~low w n) >>> n = c >>> n := by
    have hlow : low w n >>> n = 0 := by
      apply BitVec.eq_of_getLsbD_eq
      intro i _
      simp [getLsbD_low]
    have hxor : ((c &&& ~~~low w n) ^^^ (c &&& low w n)) >>> n = c >>> n := by rw [← hsplit]
    simpa [BitVec.ushiftRight_xor_distrib, BitVec.ushiftRight_and_distrib, hlow] using hxor
  calc
    (shift poly)^[n] c = (shift poly)^[n] ((c &&& ~~~low w n) ^^^ (c &&& low w n)) := by
      rw [← hsplit]
    _ = (shift poly)^[n] (c &&& ~~~low w n) ^^^ (shift poly)^[n] (c &&& low w n) :=
      iterate_shift_xor poly n _ _
    _ = (c >>> n) ^^^ (shift poly)^[n] (c &&& low w n) := by
      rw [iterate_shift_of_low poly hclear, hdown]

/-! ## strings -/

/-- Take in a chunk of `k` bits: add it to the low bits, then `k` steps.  Bytes are the
usual chunks, and a table has the steps of their values. -/
def update (c : BitVec w) (b : BitVec k) : BitVec w :=
  (shift poly)^[k] (c ^^^ b.setWidth w)

/-- Take in a string of chunks. -/
def crc (c : BitVec w) (s : List (BitVec k)) : BitVec w := s.foldl (update poly) c

@[simp] theorem crc_nil (c : BitVec w) : crc poly c ([] : List (BitVec k)) = c := rfl

@[simp] theorem crc_cons (c : BitVec w) (b : BitVec k) (s : List (BitVec k)) :
    crc poly c (b :: s) = crc poly (update poly c b) s := rfl

/-- **Incremental**: a string may be taken in by parts. -/
theorem crc_append (c : BitVec w) (s t : List (BitVec k)) :
    crc poly c (s ++ t) = crc poly (crc poly c s) t := List.foldl_append

/-- A chunk by a look-up. -/
def lookup {ι : Type} (table : ι → BitVec w) (index : BitVec w → ι) (c : BitVec w)
    (b : BitVec k) : BitVec w :=
  (c >>> k) ^^^ table (index (c ^^^ b.setWidth w))

/-- A chunk is one look-up in a table of the steps of its values. -/
theorem update_eq_lookup {ι : Type} {table : ι → BitVec w} {index : BitVec w → ι}
    (h : ∀ c, table (index c) = (shift poly)^[k] (c &&& low w k)) (c : BitVec w) (b : BitVec k) :
    update poly c b = lookup table index c b := by
  have hout : (b.setWidth w) >>> k = 0 := by
    apply BitVec.eq_of_getLsbD_eq
    intro i _
    simp
  have hdown : (c ^^^ b.setWidth w) >>> k = c >>> k := by
    rw [BitVec.ushiftRight_xor_distrib, hout]
    exact BitVec.xor_zero
  rw [update, iterate_shift_split, hdown, lookup, h]

/-! ## what it detects -/

section Detect

variable {poly}

/-- With the highest place of the polynomial set, no step loses anything: the highest bit
after a step tells which bit moved out. -/
theorem shift_injective (hpoly : poly.msb = true) : Function.Injective (shift poly) := by
  have hkernel : ∀ c, shift poly c = 0 → c = 0 := fun c hc => by
    rw [shift] at hc
    split at hc
    · -- what moves down has a zero in the highest place
      have hmsb := congrArg BitVec.msb hc
      rw [BitVec.msb_xor, BitVec.msb_ushiftRight, hpoly] at hmsb
      simp at hmsb
    · apply BitVec.eq_of_getLsbD_eq
      intro i _
      cases i with
      | zero => simpa using ‹¬c.getLsbD 0 = true›
      | succ i =>
          have hbit := congrArg (fun c => BitVec.getLsbD c i) hc
          simpa [Nat.add_comm] using hbit
  intro a b hab
  have hdiff : shift poly (a ^^^ b) = 0 := by
    rw [shift_xor, hab]
    exact BitVec.xor_self
  exact BitVec.xor_eq_zero_iff.mp (hkernel _ hdiff)

theorem crc_injective (hpoly : poly.msb = true) (s : List (BitVec k)) :
    Function.Injective fun c => crc poly c s := by
  induction s with
  | nil => exact Function.injective_id
  | cons b s ih =>
      intro c d hcd
      have hupdate : update poly c b = update poly d b := ih hcd
      have hxor := (shift_injective hpoly).iterate k hupdate
      simpa using hxor

/-- A change of one chunk shows. -/
theorem crc_ne_of_chunk_ne (hpoly : poly.msb = true) (hk : k ≤ w) (c : BitVec w)
    (s t : List (BitVec k)) {b d : BitVec k} (hne : b ≠ d) :
    crc poly c (s ++ b :: t) ≠ crc poly c (s ++ d :: t) := by
  intro heq
  rw [crc_append, crc_append, crc_cons, crc_cons] at heq
  have hupdate := crc_injective hpoly t heq
  have hxor := (shift_injective hpoly).iterate k hupdate
  have hwide : b.setWidth w = d.setWidth w := by simpa using hxor
  refine hne (BitVec.eq_of_toNat_eq ?_)
  have hnat := congrArg BitVec.toNat hwide
  have hpow : 2 ^ k ≤ 2 ^ w := Nat.pow_le_pow_right (by decide) hk
  rwa [BitVec.toNat_setWidth, BitVec.toNat_setWidth,
    Nat.mod_eq_of_lt (Nat.lt_of_lt_of_le b.isLt hpow),
    Nat.mod_eq_of_lt (Nat.lt_of_lt_of_le d.isLt hpow)] at hnat

end Detect

end Crc
