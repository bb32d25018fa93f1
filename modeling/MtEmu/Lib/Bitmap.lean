import Mathlib.Logic.Function.Basic
import Mathlib.Order.Bounds.Basic

/-!
# MtEmu.Lib.Bitmap

Bitmaps in 32-bit words and the search for a run of clear bits.

Bit `k` of a bitmap is bit `k % 32` of word `k / 32`.  Bits are set and
cleared one at a time, a range by a counted loop; `used_setRange` and
`used_clearRange` say what that does to every bit.

`scan` is a first-fit search that carries the current run of clear bits and
stops once it is long enough.  What it ends with is one of two things
(`scan_spec`): a run of the wanted length (`Found`), or the clear bits at the
end of the bitmap, when no run is long enough (`Exhausted`).  The run found is
the first one (`scan_isLeast`).
-/

namespace Bitmap

/-- The words of a bitmap. -/
abbrev Words := Nat → BitVec 32

/-! ## single bits -/

/-- Bit `k`, tested with a mask. -/
def used (w : Words) (k : Nat) : Bool := w (k / 32) &&& 1#32 <<< (k % 32) != 0#32

/-- Set bit `k`. -/
def setBit (w : Words) (k : Nat) : Words :=
  Function.update w (k / 32) (w (k / 32) ||| 1#32 <<< (k % 32))

/-- Clear bit `k`. -/
def clearBit (w : Words) (k : Nat) : Words :=
  Function.update w (k / 32) (w (k / 32) &&& ~~~(1#32 <<< (k % 32)))

theorem and_mask_ne (x : BitVec 32) (hi : i < 32) :
    (x &&& 1#32 <<< i != 0#32) = x.getLsbD i := by
  rw [← BitVec.twoPow_eq, BitVec.and_twoPow]
  cases h : x.getLsbD i with
  | false => simp
  | true =>
      rw [if_pos rfl, bne_iff_ne]
      intro h0
      have := congrArg (fun y => BitVec.getLsbD y i) h0
      simp [hi] at this

/-- A bit of the bitmap is a bit of its word. -/
theorem used_eq (w : Words) (k : Nat) : used w k = (w (k / 32)).getLsbD (k % 32) :=
  and_mask_ne _ (Nat.mod_lt k (by decide))

@[simp] theorem used_zero (k : Nat) : used (fun _ => 0#32) k = false := by simp [used]

/-- Two bits are the same bit of the same word only if they are the same. -/
theorem split_inj {j k : Nat} (hd : j / 32 = k / 32) (hm : j % 32 = k % 32) : j = k := by omega

theorem getLsbD_mask {i j : Nat} (hj : j < 32) : (1#32 <<< i).getLsbD j = decide (i = j) := by
  rw [← BitVec.twoPow_eq, BitVec.getLsbD_twoPow]
  by_cases h : i = j <;> simp [h, hj]

@[simp] theorem used_setBit (w : Words) (k j : Nat) :
    used (setBit w k) j = (decide (k = j) || used w j) := by
  have hj := Nat.mod_lt j (show 32 > 0 by decide)
  simp only [used_eq, setBit]
  by_cases hw : j / 32 = k / 32
  · rw [← hw, Function.update_self, BitVec.getLsbD_or, getLsbD_mask hj, Bool.or_comm]
    congr 1
    by_cases hm : k % 32 = j % 32
    · simp [split_inj hw.symm hm]
    · simp [hm, show k ≠ j from fun h => hm (h ▸ rfl)]
  · rw [Function.update_of_ne hw]
    simp [show k ≠ j from fun h => hw (h ▸ rfl)]

@[simp] theorem used_clearBit (w : Words) (k j : Nat) :
    used (clearBit w k) j = (used w j && decide (k ≠ j)) := by
  have hj := Nat.mod_lt j (show 32 > 0 by decide)
  simp only [used_eq, clearBit]
  by_cases hw : j / 32 = k / 32
  · rw [← hw, Function.update_self, BitVec.getLsbD_and, BitVec.getLsbD_not, getLsbD_mask hj]
    by_cases hm : k % 32 = j % 32
    · simp [split_inj hw.symm hm]
    · simp [hm, hj, show k ≠ j from fun h => hm (h ▸ rfl)]
  · rw [Function.update_of_ne hw]
    simp [show k ≠ j from fun h => hw (h ▸ rfl)]

/-! ## ranges -/

/-- Set `n` bits from `start`. -/
def setRange (w : Words) (start : Nat) : Nat → Words
  | 0 => w
  | n + 1 => setBit (setRange w start n) (start + n)

/-- Clear `n` bits from `start`. -/
def clearRange (w : Words) (start : Nat) : Nat → Words
  | 0 => w
  | n + 1 => clearBit (clearRange w start n) (start + n)

@[simp] theorem used_setRange (w : Words) (start n j : Nat) :
    used (setRange w start n) j = (decide (start ≤ j ∧ j < start + n) || used w j) := by
  induction n with
  | zero => simp [setRange, show ¬(start ≤ j ∧ j < start) by omega]
  | succ n ih =>
      rw [setRange, used_setBit, ih, ← Bool.or_assoc]
      congr 1
      rw [Bool.eq_iff_iff]
      simp only [Bool.or_eq_true, decide_eq_true_eq]
      omega

@[simp] theorem used_clearRange (w : Words) (start n j : Nat) :
    used (clearRange w start n) j = (used w j && decide (¬(start ≤ j ∧ j < start + n))) := by
  induction n with
  | zero => simp [clearRange]
  | succ n ih =>
      rw [clearRange, used_clearBit, ih, Bool.and_assoc]
      congr 1
      rw [Bool.eq_iff_iff]
      simp only [Bool.and_eq_true, decide_eq_true_eq]
      omega

/-! ## the search for a run of clear bits -/

/-- A run of clear bits; with `size = 0` there is none and `start` is `-1`. -/
structure Run where
  start : Int
  size : Nat
  deriving DecidableEq, Repr

/-- No run. -/
def Run.none : Run := ⟨-1, 0⟩

/-- The run after bit `k` was looked at. -/
def Run.next (r : Run) (k : Nat) (busy : Bool) : Run :=
  if busy then .none else ⟨if r.size = 0 then k else r.start, r.size + 1⟩

/-- Look at `n` bits from bit `k` on, until the run is `len` long. -/
def scan (busy : Nat → Bool) (len : Nat) : Nat → Nat → Run → Run
  | 0, _, r => r
  | n + 1, k, r =>
      let r := r.next k (busy k)
      if len ≤ r.size then r else scan busy len n (k + 1) r

variable {busy : Nat → Bool} {len : Nat}

/-- A search in two parts. -/
theorem scan_add (m n k : Nat) {r : Run} (hr : r.size < len) :
    scan busy len (m + n) k r =
      if len ≤ (scan busy len m k r).size then scan busy len m k r
      else scan busy len n (k + m) (scan busy len m k r) := by
  induction m generalizing k r with
  | zero => simp [scan, Nat.not_le_of_lt hr]
  | succ m ih =>
      rw [Nat.succ_add, scan, scan]
      by_cases h : len ≤ (r.next k (busy k)).size
      · simp [h]
      · simp only [h, ↓reduceIte]
        rw [ih (k + 1) (Nat.lt_of_not_le h), Nat.add_right_comm, Nat.add_assoc]

/-- The bits from `a` on, `n` of them, are clear. -/
def Clear (busy : Nat → Bool) (a n : Nat) : Prop := ∀ k, a ≤ k → k < a + n → busy k = false

/-- Some run of `len` clear bits lies below `n`. -/
def HasRun (busy : Nat → Bool) (n len : Nat) : Prop := ∃ a, a + len ≤ n ∧ Clear busy a len

/-- A run of the wanted length below `n`. -/
def Found (busy : Nat → Bool) (n len : Nat) (r : Run) : Prop :=
  r.size = len ∧ ∃ a : Nat, r.start = a ∧ a + len ≤ n ∧ Clear busy a len

/-- `r` is all of the run that ends before bit `k`: it is clear, and it starts at
bit 0 or after a set bit. -/
def Tail (busy : Nat → Bool) (k : Nat) (r : Run) : Prop :=
  r.size ≤ k ∧ Clear busy (k - r.size) r.size ∧ (r.size < k → busy (k - r.size - 1) = true) ∧
    r.start = if r.size = 0 then -1 else ((k - r.size : Nat) : Int)

/-- No run below `n` is long enough, and `r` is the run at the end. -/
def Exhausted (busy : Nat → Bool) (n len : Nat) (r : Run) : Prop :=
  r.size < len ∧ Tail busy n r ∧ ¬HasRun busy n len

theorem tail_zero (busy : Nat → Bool) : Tail busy 0 .none :=
  ⟨Nat.le_refl 0, fun k _ hk => by simp [Run.none] at hk, by simp [Run.none], rfl⟩

theorem Tail.next {k : Nat} {r : Run} (h : Tail busy k r) :
    Tail busy (k + 1) (r.next k (busy k)) := by
  obtain ⟨hle, hclear, hbefore, hstart⟩ := h
  cases hb : busy k with
  | true =>
      refine ⟨by simp [Run.next, Run.none], fun j hj hj' => ?_, fun _ => ?_, rfl⟩
      · simp only [Run.next, Run.none, ↓reduceIte] at hj hj'
        omega
      · simpa [Run.next, Run.none] using hb
  | false =>
      have hsub : k + 1 - (r.size + 1) = k - r.size := Nat.add_sub_add_right k 1 r.size
      simp only [Run.next, Bool.false_eq_true, ↓reduceIte, Tail, hsub]
      refine ⟨Nat.succ_le_succ hle, fun j hj hj' => ?_, fun hlt => hbefore (by omega), ?_⟩
      · by_cases hjk : j = k
        · exact hjk ▸ hb
        · exact hclear j hj (by omega)
      · by_cases h0 : r.size = 0
        · simp [h0]
        · simp [h0, hstart]

/-- A run long enough ends the search; it is the whole tail. -/
theorem Tail.found {k : Nat} {r : Run} (hlen : 0 < len) (h : Tail busy k r) (hr : r.size = len) :
    Found busy k len r := by
  obtain ⟨hle, hclear, -, hstart⟩ := h
  refine ⟨hr, k - r.size, ?_, by omega, hr ▸ hclear⟩
  rw [hstart, if_neg (by omega)]

/-- A window that ends at the bit just looked at is longer than the run, so it holds
the set bit before the run. -/
theorem not_hasRun_succ {k : Nat} (hnot : ¬HasRun busy k len)
    (htail : Tail busy (k + 1) r) (hr : r.size < len) : ¬HasRun busy (k + 1) len := by
  rintro ⟨a, ha, hclear⟩
  by_cases hend : a + len ≤ k
  · exact hnot ⟨a, hend, hclear⟩
  · have hset := htail.2.2.1 (by omega)
    have hfree := hclear (k + 1 - r.size - 1) (by omega) (by omega)
    exact absurd hset (by simp [hfree])

theorem Run.size_next_le (r : Run) (k : Nat) (b : Bool) : (r.next k b).size ≤ r.size + 1 := by
  cases b <;> simp [Run.next, Run.none]

/-- The search from bit `k` on, with the run that ends there. -/
theorem scan_from (hlen : 0 < len) {n k : Nat} {r : Run} (htail : Tail busy k r)
    (hr : r.size < len) (hnot : ¬HasRun busy k len) :
    Found busy (k + n) len (scan busy len n k r) ∨
      Exhausted busy (k + n) len (scan busy len n k r) := by
  induction n generalizing k r with
  | zero => exact .inr ⟨hr, htail, hnot⟩
  | succ n ih =>
      have hnext := htail.next
      have hsize := r.size_next_le k (busy k)
      rw [scan]
      by_cases h : len ≤ (r.next k (busy k)).size
      · simp only [h, ↓reduceIte]
        obtain ⟨heq, a, hstart, hend, hclear⟩ := hnext.found hlen (by omega)
        exact .inl ⟨heq, a, hstart, by omega, hclear⟩
      · simp only [h, ↓reduceIte]
        have := ih hnext (Nat.lt_of_not_le h) (not_hasRun_succ hnot hnext (Nat.lt_of_not_le h))
        rwa [show k + 1 + n = k + (n + 1) by omega] at this

/-- **Search**: below `n` there is a run that is long enough and the search ends with
one, or there is none and it ends with the clear bits at the end. -/
theorem scan_spec (hlen : 0 < len) (n : Nat) :
    Found busy n len (scan busy len n 0 .none) ∨
      Exhausted busy n len (scan busy len n 0 .none) := by
  have := scan_from (n := n) hlen (tail_zero busy) hlen
    (fun ⟨a, ha, _⟩ => by omega : ¬HasRun busy 0 len)
  rwa [Nat.zero_add] at this

/-- A run was found just when there is one. -/
theorem Found.hasRun {n : Nat} {r : Run} (h : Found busy n len r) : HasRun busy n len := by
  obtain ⟨-, a, -, hend, hclear⟩ := h
  exact ⟨a, hend, hclear⟩

/-- A search that ends with a run long enough ends at its last bit, below which there
was no such run. -/
theorem scan_first (hlen : 0 < len) {n k : Nat} {r : Run} (htail : Tail busy k r)
    (hr : r.size < len) (hnot : ¬HasRun busy k len) (hfound : len ≤ (scan busy len n k r).size) :
    ∃ m, ¬HasRun busy m len ∧ Found busy (m + 1) len (scan busy len n k r) := by
  induction n generalizing k r with
  | zero => exact absurd hfound (Nat.not_le_of_lt hr)
  | succ n ih =>
      have hnext := htail.next
      have hsize := r.size_next_le k (busy k)
      rw [scan] at hfound ⊢
      by_cases h : len ≤ (r.next k (busy k)).size
      · rw [if_pos h]
        exact ⟨k, hnot, hnext.found hlen (by omega)⟩
      · rw [if_neg h] at hfound ⊢
        have hshort := Nat.lt_of_not_le h
        exact ih hnext hshort (not_hasRun_succ hnot hnext hshort) hfound

/-- **First fit**: when there is a run long enough, the search ends with the lowest one. -/
theorem scan_isLeast (hlen : 0 < len) {n : Nat} (h : HasRun busy n len) :
    (scan busy len n 0 .none).size = len ∧ ∃ a : Nat, (scan busy len n 0 .none).start = a ∧
      IsLeast {a | a + len ≤ n ∧ Clear busy a len} a := by
  have hzero : ¬HasRun busy 0 len := fun ⟨a, ha, _⟩ => by omega
  cases @scan_spec busy len hlen n with
  | inr hend => exact absurd h hend.2.2
  | inl hfound =>
      obtain ⟨hsize, a, hstart, hend, hclear⟩ := hfound
      refine ⟨hsize, a, hstart, ⟨hend, hclear⟩, fun b hb => ?_⟩
      obtain ⟨-, hbclear⟩ := hb
      obtain ⟨m, hnot, -, a', hstart', hend', -⟩ :=
        scan_first hlen (tail_zero busy) hlen hzero (Nat.le_of_eq hsize.symm)
      have ha : a' = a := Int.natCast_inj.mp (hstart'.symm.trans hstart)
      by_contra hlt
      exact hnot ⟨b, by omega, hbclear⟩

end Bitmap
