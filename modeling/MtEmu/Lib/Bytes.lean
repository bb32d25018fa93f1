import Mathlib.Algebra.Group.Nat.Defs

/-!
# MtEmu.Lib.Bytes

Byte memory, little-endian accesses, and windows that record them.

`load` and `store` are the accesses of `n` bytes; `byte_load` says what the
bytes of a loaded value are, so storing it somewhere else copies them
(`store_load`), and copies of adjacent ranges join (`copy_append`).

`readl` and `writel` are the accesses of a device's 32-bit registers.  Registers may
overlap, so that what a write does to another register is said bit by bit (`bit_writel`).

A `Window` is a mapped range of a device.  Every access inside it is recorded,
one that is not inside faults: there is no state after it.
-/

namespace Bytes

/-- Bytes by address. -/
abbrev Mem := Nat → BitVec 8

variable (m : Mem)

/-! ## accesses -/

/-- The little-endian value of `n` bytes at `a`, as a number: an access of a
processor is this value in as many bits. -/
def load (a : Nat) : Nat → Nat
  | 0 => 0
  | n + 1 => (m a).toNat + 256 * load (a + 1) n

/-- Store the `n` low bytes of `v` at `a`.  What `v` has above them is dropped,
as a store of a wider register drops it. -/
def store (a n v : Nat) : Mem :=
  fun b => if a ≤ b ∧ b < a + n then BitVec.ofNat 8 (v / 256 ^ (b - a)) else m b

/-- The bytes of a loaded value. -/
theorem byte_load {a n j : Nat} (hj : j < n) :
    BitVec.ofNat 8 (load m a n / 256 ^ j) = m (a + j) := by
  induction n generalizing a j with
  | zero => contradiction
  | succ n ih =>
      have hbyte := (m a).isLt
      rw [load]
      cases j with
      | zero =>
          apply BitVec.eq_of_toNat_eq
          simp only [BitVec.toNat_ofNat, Nat.pow_zero, Nat.div_one, Nat.add_zero]
          omega
      | succ j =>
          have hdiv : ((m a).toNat + 256 * load m (a + 1) n) / 256 ^ (j + 1) =
              load m (a + 1) n / 256 ^ j := by
            rw [Nat.pow_succ', ← Nat.div_div_eq_div_mul]
            congr 1
            omega
          rw [hdiv, ih (Nat.lt_of_succ_lt_succ hj), Nat.add_right_comm, Nat.add_assoc]

theorem store_apply_of_mem {a n b : Nat} (v : Nat) (hle : a ≤ b) (hlt : b < a + n) :
    store m a n v b = BitVec.ofNat 8 (v / 256 ^ (b - a)) := if_pos ⟨hle, hlt⟩

theorem store_apply_of_not_mem {a n b : Nat} (v : Nat) (h : ¬(a ≤ b ∧ b < a + n)) :
    store m a n v b = m b := if_neg h

/-- A load reads only the bytes it covers. -/
theorem load_congr {m' : Mem} {a n : Nat} (h : ∀ b, a ≤ b → b < a + n → m b = m' b) :
    load m a n = load m' a n := by
  induction n generalizing a with
  | zero => rfl
  | succ n ih =>
      rw [load, load, h a (Nat.le_refl a) (by omega),
        ih fun b hb hb' => h b (by omega) (by omega)]

/-- The value just stored. -/
theorem load_store_self (a n v : Nat) : load (store m a n v) a n = v % 256 ^ n := by
  induction n generalizing m a v with
  | zero => simp [load, Nat.mod_one]
  | succ n ih =>
      have hrest : load (store m a (n + 1) v) (a + 1) n =
          load (store m (a + 1) n (v / 256)) (a + 1) n := by
        refine load_congr _ fun b hb hb' => ?_
        rw [store_apply_of_mem m v (by omega) (by omega), store_apply_of_mem m _ hb hb',
          show b - a = b - (a + 1) + 1 by omega, Nat.pow_succ', Nat.div_div_eq_div_mul]
      have hbyte : (store m a (n + 1) v a).toNat = v % 256 := by
        rw [store_apply_of_mem m v (Nat.le_refl a) (by omega), Nat.sub_self]
        simp
      rw [load, hrest, ih, hbyte, Nat.pow_succ', Nat.mod_mul]

/-- A load beside the bytes stored. -/
theorem load_store_of_disjoint {a n b k : Nat} (v : Nat) (h : b + k ≤ a ∨ a + n ≤ b) :
    load (store m a n v) b k = load m b k :=
  load_congr _ fun c hc hc' => store_apply_of_not_mem m v (by omega)

/-- Stores to disjoint ranges commute. -/
theorem store_comm {a n b k : Nat} (v w : Nat) (h : b + k ≤ a ∨ a + n ≤ b) :
    store (store m a n v) b k w = store (store m b k w) a n v := by
  funext c
  by_cases ha : a ≤ c ∧ c < a + n
  · rw [store_apply_of_not_mem _ w (by omega), store_apply_of_mem _ v ha.1 ha.2,
      store_apply_of_mem _ v ha.1 ha.2]
  · rw [store_apply_of_not_mem _ v ha]
    by_cases hb : b ≤ c ∧ c < b + k
    · rw [store_apply_of_mem _ w hb.1 hb.2, store_apply_of_mem _ w hb.1 hb.2]
    · rw [store_apply_of_not_mem _ w hb, store_apply_of_not_mem _ w hb,
        store_apply_of_not_mem _ v ha]

/-! ## copies -/

/-- `dst` with `n` bytes of `src` from `a` on, at `b`: what `memcpy` leaves of
two memories that do not overlap. -/
def copy (src : Mem) (a : Nat) (dst : Mem) (b n : Nat) : Mem :=
  fun c => if b ≤ c ∧ c < b + n then src (a + (c - b)) else dst c

@[simp] theorem copy_zero (src : Mem) (a : Nat) (dst : Mem) (b : Nat) :
    copy src a dst b 0 = dst :=
  funext fun c => if_neg (by omega)

/-- A value loaded at one place and stored at another. -/
theorem store_load (src : Mem) (a : Nat) (dst : Mem) (b n : Nat) :
    store dst b n (load src a n) = copy src a dst b n := by
  funext c
  by_cases h : b ≤ c ∧ c < b + n
  · rw [store_apply_of_mem _ _ h.1 h.2, byte_load src (by omega), copy, if_pos h]
  · rw [store_apply_of_not_mem _ _ h, copy, if_neg h]

/-- A copy from a pointer into memory. -/
theorem copy_from (src : Mem) (a : Nat) (dst : Mem) (b n : Nat) :
    copy (fun k => src (a + k)) 0 dst b n = copy src a dst b n := by
  funext c
  rw [copy, copy, Nat.zero_add]

/-- A copy to a pointer into memory. -/
theorem copy_to (src : Mem) (a : Nat) (dst : Mem) (b n : Nat) :
    (fun c => if c < b then dst c else copy src a (fun k => dst (b + k)) 0 n (c - b)) =
      copy src a dst b n := by
  funext c
  simp only [copy]
  by_cases hlt : c < b
  · rw [if_pos hlt, if_neg (by omega)]
  · rw [if_neg hlt, Nat.sub_zero, Nat.add_sub_cancel' (Nat.not_lt.mp hlt)]
    by_cases hin : c < b + n
    · rw [if_pos (by omega), if_pos (by omega)]
    · rw [if_neg (by omega), if_neg (by omega)]

/-- Copies of adjacent ranges. -/
theorem copy_append (src : Mem) (a : Nat) (dst : Mem) (b n k : Nat) :
    copy src (a + n) (copy src a dst b n) (b + n) k = copy src a dst b (n + k) := by
  funext c
  simp only [copy]
  by_cases h : b + n ≤ c ∧ c < b + n + k
  · rw [if_pos h, if_pos (by omega), show a + n + (c - (b + n)) = a + (c - b) by omega]
  · rw [if_neg h]
    by_cases h' : b ≤ c ∧ c < b + n
    · rw [if_pos h', if_pos (by omega)]
    · rw [if_neg h', if_neg (by omega)]

/-- A load from a copy is one from what was copied. -/
theorem load_copy (src : Mem) (a : Nat) (dst : Mem) (b n : Nat) {i k : Nat} (h : i + k ≤ n) :
    load (copy src a dst b n) (b + i) k = load src (a + i) k := by
  induction k generalizing i with
  | zero => rfl
  | succ k ih =>
      have hrest := ih (i := i + 1) (by omega)
      rw [← Nat.add_assoc, ← Nat.add_assoc] at hrest
      rw [load, load, hrest, copy, if_pos (by omega), Nat.add_sub_cancel_left]

/-- The bytes `[a, a + n)`. -/
def slice (a n : Nat) : List (BitVec 8) := (List.range n).map fun k => m (a + k)

/-- Bytes and those that follow them. -/
theorem slice_append (a n k : Nat) : slice m a (n + k) = slice m a n ++ slice m (a + n) k := by
  simp [slice, List.range_add, List.map_map, Function.comp_def, Nat.add_assoc]

/-- The first byte and the others. -/
theorem slice_succ (a n : Nat) : slice m a (n + 1) = m a :: slice m (a + 1) n := by
  rw [Nat.add_comm, slice_append]
  rfl

/-- A copy at its destination. -/
theorem slice_copy (src : Mem) (a : Nat) (dst : Mem) (b n : Nat) :
    slice (copy src a dst b n) b n = slice src a n := by
  refine List.map_congr_left fun k hk => ?_
  have hlt := List.mem_range.mp hk
  rw [copy, if_pos (by omega), Nat.add_sub_cancel_left]

/-! ## registers -/

/-- Read the register at `a`. -/
def readl (a : Nat) : BitVec 32 := BitVec.ofNat 32 (load m a 4)

/-- Write the register at `a`. -/
def writel (v : BitVec 32) (a : Nat) : Mem := store m a 4 v.toNat

/-- Bit `x` of the memory. -/
def bit (x : Nat) : Bool := (m (x / 8)).getLsbD (x % 8)

/-- A bit of a byte cut out of a value. -/
theorem getLsbD_byte (v : Nat) {j k : Nat} (hk : k < 8) :
    (BitVec.ofNat 8 (v / 256 ^ j)).getLsbD k = v.testBit (8 * j + k) := by
  rw [BitVec.getLsbD_ofNat, decide_eq_true hk, Bool.true_and, show 256 = 2 ^ 8 from rfl,
    ← Nat.pow_mul, Nat.testBit_div_two_pow, Nat.add_comm]

/-- The bits of a register are bits of the memory. -/
theorem getLsbD_readl {a i : Nat} (hi : i < 32) : (readl m a).getLsbD i = bit m (8 * a + i) := by
  have hbyte := byte_load m (a := a) (n := 4) (j := i / 8) (by omega)
  rw [readl, BitVec.getLsbD_ofNat, decide_eq_true hi, Bool.true_and, bit,
    show (8 * a + i) / 8 = a + i / 8 by omega, show (8 * a + i) % 8 = i % 8 by omega, ← hbyte,
    getLsbD_byte _ (by omega), show 8 * (i / 8) + i % 8 = i by omega]

/-- The memory after a write, bit by bit. -/
theorem bit_writel (v : BitVec 32) (a x : Nat) :
    bit (writel m v a) x =
      if 8 * a ≤ x ∧ x < 8 * a + 32 then v.getLsbD (x - 8 * a) else bit m x := by
  rw [bit, writel]
  by_cases h : 8 * a ≤ x ∧ x < 8 * a + 32
  · rw [if_pos h, store_apply_of_mem m _ (by omega) (by omega), getLsbD_byte _ (by omega),
      show 8 * (x / 8 - a) + x % 8 = x - 8 * a by omega]
    rfl
  · rw [if_neg h, store_apply_of_not_mem m _ (by omega), bit]

/-- A register is its bits. -/
theorem readl_congr {m' : Mem} {a : Nat} (h : ∀ i < 32, bit m (8 * a + i) = bit m' (8 * a + i)) :
    readl m a = readl m' a := by
  apply BitVec.eq_of_getLsbD_eq
  intro i hi
  rw [getLsbD_readl m hi, getLsbD_readl m' hi, h i hi]

@[simp] theorem readl_writel_self (v : BitVec 32) (a : Nat) : readl (writel m v a) a = v := by
  apply BitVec.eq_of_getLsbD_eq
  intro i hi
  rw [getLsbD_readl _ hi, bit_writel, if_pos (by omega), Nat.add_sub_cancel_left]

theorem readl_writel_of_disjoint {a b : Nat} (v : BitVec 32) (h : b + 4 ≤ a ∨ a + 4 ≤ b) :
    readl (writel m v a) b = readl m b := by
  refine readl_congr _ fun i hi => ?_
  rw [bit_writel, if_neg (by omega)]

/-! ## windows -/

/-- The range of an access. -/
structure Extent where
  off : Nat
  len : Nat
  deriving DecidableEq

/-- The range lies in `[a, a + n)`. -/
def Extent.Within (x : Extent) (a n : Nat) : Prop := a ≤ x.off ∧ x.off + x.len ≤ a + n

/-- A mapped range: its size, its bytes, and the accesses made so far, the last
one at the end.  The log has the ranges only, not whether they were read or
written. -/
structure Window where
  size : BitVec 64
  mem : Mem
  log : List Extent

namespace Window

/-- Read `len` bytes; an access that leaves the window faults. -/
def read (w : Window) (off len : Nat) : Option (Nat × Window) :=
  if off + len ≤ w.size.toNat then
    some (load w.mem off len, { w with log := w.log ++ [⟨off, len⟩] })
  else none

/-- Write `len` bytes; an access that leaves the window faults. -/
def write (w : Window) (off len v : Nat) : Option Window :=
  if off + len ≤ w.size.toNat then
    some { w with mem := store w.mem off len v, log := w.log ++ [⟨off, len⟩] }
  else none

variable {w : Window} {off len : Nat}

theorem read_inside (h : off + len ≤ w.size.toNat) :
    w.read off len = some (load w.mem off len, { w with log := w.log ++ [⟨off, len⟩] }) :=
  if_pos h

theorem write_inside (v : Nat) (h : off + len ≤ w.size.toNat) :
    w.write off len v =
      some { w with mem := store w.mem off len v, log := w.log ++ [⟨off, len⟩] } :=
  if_pos h

end Window

end Bytes
