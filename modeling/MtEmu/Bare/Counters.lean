import MtEmu.Bare.Split
import Mathlib.Tactic.Ring

/-!
# MtEmu.Bare.Counters

The running counters of a descriptor list.

A list of `last + 1` descriptors gives descriptor `k` the length
`e.len last k`: an entry of the scratch table in random mode; in fixed mode
`size / (last + 1)` for all but the last, which takes the remainder.
`Running` is the invariant of the loops that keep their counters: before
round `k` the pointers have moved by the lengths before `k`.  `cnt_toNat`
then gives what round `k` stores, and `Running.next` carries the invariant
over.
-/

namespace MtEmu

open Loop Finset

theorem setWidth_eq_cast (x : U32) : x.setWidth 64 = ((x.toNat : Nat) : U64) := by
  rw [BitVec.natCast_eq_ofNat, BitVec.ofNat_toNat]

theorem ofNat_succ (k : Nat) : BitVec.ofNat 32 (k + 1) = BitVec.ofNat 32 k + 1 := BitVec.ofNat_add k 1

/-- The successor of a number that is not the largest. -/
theorem toNat_add_one {x : U32} (h : x ≠ -1) : (x + 1).toNat = x.toNat + 1 := by
  have : x.toNat ≠ 4294967295 := fun hx => h (BitVec.eq_of_toNat_eq (by simpa using hx))
  rw [BitVec.toNat_add]
  simp
  omega

theorem toNat_sub_one {x : U32} (h : x ≠ 0) : (x - 1).toNat = x.toNat - 1 := by
  have : x.toNat ≠ 0 := fun hx => h (BitVec.eq_of_toNat_eq hx)
  exact BitVec.toNat_sub_of_le (by rw [BitVec.le_def]; exact Nat.pos_of_ne_zero this)

/-- A count of at least one survives the encoding as length less one. -/
theorem seg_len {cnt : U32} {d : DmaChDesc} (hd : d.cnt = cnt - 1) (h : 0 < cnt.toNat) :
    d.seg.len = cnt.toNat := by
  simp only [DmaChDesc.seg, hd]
  rw [BitVec.toNat_sub_of_le (by rw [BitVec.le_def]; exact h)]
  exact Nat.sub_add_cancel h

/-! ## places of a first list -/

/-- Where a list that starts in the registers stores descriptor `k`. -/
def firstPlace : Nat → Lli
  | 0 => .regs
  | k + 1 => .slot (BitVec.ofNat 64 k)

theorem ofNat_ne_zero {k : Nat} (hk : 0 < k) (hlt : k < 2 ^ 32) : BitVec.ofNat 32 k ≠ 0 := by
  intro h
  have := congrArg BitVec.toNat h
  simp at this
  omega

theorem firstPlace_eq {k : Nat} (hk : k < 2 ^ 31) :
    (if BitVec.ofNat 32 k = 0 then Lli.regs
      else .slot ((BitVec.ofNat 32 k - 1).signExtend 64)) = firstPlace k := by
  cases k with
  | zero => rfl
  | succ k =>
      have hne := ofNat_ne_zero (Nat.succ_pos k) (show k + 1 < 2 ^ 32 by omega)
      have hpred : BitVec.ofNat 32 (k + 1) - 1 = BitVec.ofNat 32 k := by
        rw [ofNat_succ]
        exact add_sub_cancel_right _ _
      rw [if_neg hne, hpred, signExtend_ofNat (by omega), firstPlace]

namespace ListEnv

/-- The length of descriptor `k` in a list that ends with descriptor `last`. -/
def len (e : ListEnv) (last : U32) (k : Nat) : Nat :=
  if e.x.randFlag then (e.sizes k).toNat
  else if k = last.toNat then e.x.size.toNat - last.toNat * (e.x.size / (last + 1)).toNat
  else (e.x.size / (last + 1)).toNat

/-- Where descriptor `k` starts, counted from the start of the list. -/
def start (e : ListEnv) (last : U32) (k : Nat) : Nat := ∑ i ∈ range k, e.len last i

theorem start_succ (e : ListEnv) (last : U32) (k : Nat) :
    e.start last (k + 1) = e.start last k + e.len last k := sum_range_succ _ _

/-! ## fixed division -/

theorem last_mul_le (e : ListEnv) {last : U32} (hlast : last ≠ -1) :
    (last.toNat + 1) * (e.x.size / (last + 1)).toNat ≤ e.x.size.toNat := by
  rw [BitVec.toNat_udiv, toNat_add_one hlast]
  exact Nat.mul_div_le _ _

section Fixed

variable {e : ListEnv} {last : U32} (hr : e.x.randFlag = false)
include hr

theorem start_fixed {k : Nat} (hk : k ≤ last.toNat) :
    e.start last k = k * (e.x.size / (last + 1)).toNat := by
  induction k with
  | zero => simp [start]
  | succ k ih =>
      rw [start_succ, ih (by omega), len, hr]
      simp only [Bool.false_eq_true, if_false, if_neg (show k ≠ last.toNat by omega)]
      ring

/-- The lengths of a fixed division add up to the size. -/
theorem sum_fixed (hlast : last ≠ -1) : e.start last (last.toNat + 1) = e.x.size.toNat := by
  have hle := last_mul_le e hlast
  rw [Nat.succ_mul] at hle
  rw [start_succ, start_fixed hr (Nat.le_refl _), len, hr]
  simp only [Bool.false_eq_true, if_false, if_true]
  omega

/-- No piece is empty when there are at least as many bytes as pieces. -/
theorem len_fixed_pos (hlast : last < e.x.size) (k : Nat) : 0 < e.len last k := by
  have hmax : last ≠ -1 := fun h => by
    rw [h, BitVec.lt_def] at hlast
    have := e.x.size.isLt
    simp at hlast
    omega
  have hq : 0 < (e.x.size / (last + 1)).toNat := by
    rw [BitVec.toNat_udiv, toNat_add_one hmax]
    exact Nat.div_pos hlast (Nat.succ_pos _)
  have hle := last_mul_le e hmax
  rw [Nat.succ_mul] at hle
  rw [len, hr]
  simp only [Bool.false_eq_true, if_false]
  split <;> omega

end Fixed

/-! ## random sizes -/

section Random

variable {e : ListEnv} {ps : List U32} {junk : Nat → U32} {r : Nat → U64} (last : U32)
  (hr : e.x.randFlag = true) (hsizes : e.sizes = fun i => ps.getD i (junk i))
include hr hsizes

theorem len_random {k : Nat} (hk : k < ps.length) : e.len last k = ps[k].toNat := by
  rw [len, hr, hsizes]
  simp [hk]

/-- The lengths of a random split add up to the size. -/
theorem sum_random (hps : Pieces e.x.size r ps) : e.start last ps.length = e.x.size.toNat := by
  rw [← hps.sum, start, Finset.sum_range, ← Fin.sum_univ_fun_getElem]
  exact Finset.sum_congr rfl fun k _ => len_random last hr hsizes k.isLt

theorem len_random_pos (hps : Pieces e.x.size r ps) {k : Nat} (hk : k < ps.length) :
    0 < e.len last k := by
  rw [len_random last hr hsizes hk]
  exact hps.pos _ (List.getElem_mem hk)

end Random

/-! ## the invariant -/

/-- The counters before round `k` of a list from `a` to `b`. -/
structure Running (e : ListEnv) (last : U32) (a b : U64) (k : Nat) (c : Cursor) : Prop where
  sar : c.sarTmp = a + (e.start last k : U64)
  dar : c.darTmp = b + (e.start last k : U64)
  fixed : e.x.randFlag = false →
    c.elmCnt = e.x.size / (last + 1) ∧ c.sizeTmp.toNat = e.x.size.toNat - e.start last k

variable {e : ListEnv} {last : U32} {a b : U64} {k : Nat} {c : Cursor}

/-- What round `k` stores as the count. -/
theorem cnt_toNat (h : e.Running last a b k c) (hk : k ≤ last.toNat) :
    (e.cnt last (BitVec.ofNat 32 k) c).toNat = e.len last k := by
  have hlt := last.isLt
  have hk' : (BitVec.ofNat 32 k).toNat = k := Nat.mod_eq_of_lt (by omega)
  unfold cnt len elmCnt
  cases hr : e.x.randFlag with
  | true => simp only [hk', if_true]
  | false =>
      obtain ⟨hq, hs⟩ := h.fixed hr
      have heq : BitVec.ofNat 32 k = last ↔ k = last.toNat := by
        rw [← BitVec.toNat_inj, hk']
      simp only [Bool.false_eq_true, if_false, heq]
      split
      · next hlast => rw [hs, start_fixed hr hk, hlast]
      · rw [hq]

/-- Before the last round the pointers move by what the round stores. -/
theorem elmCnt_toNat (h : e.Running last a b k c) (hk : k < last.toNat) :
    (e.elmCnt (BitVec.ofNat 32 k) c).toNat = e.len last k := by
  have hlt := last.isLt
  have hk' : (BitVec.ofNat 32 k).toNat = k := Nat.mod_eq_of_lt (by omega)
  unfold elmCnt len
  cases hr : e.x.randFlag with
  | true => simp only [hk', if_true]
  | false => simp [(h.fixed hr).1, hk.ne]

/-- One round of a loop that moves its counters. -/
theorem Running.next (h : e.Running last a b k c) (hk : k < last.toNat) (hlast : last ≠ -1)
    {c' : Cursor} (hsar : c'.sarTmp = c.sarTmp + (e.elmCnt (BitVec.ofNat 32 k) c).setWidth 64)
    (hdar : c'.darTmp = c.darTmp + (e.elmCnt (BitVec.ofNat 32 k) c).setWidth 64)
    (hsize : c'.sizeTmp = c.sizeTmp - e.cnt last (BitVec.ofNat 32 k) c)
    (helm : c'.elmCnt = e.elmCnt (BitVec.ofNat 32 k) c) : e.Running last a b (k + 1) c' := by
  have hcnt := cnt_toNat h hk.le
  rw [setWidth_eq_cast, elmCnt_toNat h hk] at hsar hdar
  refine ⟨?_, ?_, fun hr => ⟨?_, ?_⟩⟩
  · rw [hsar, h.sar, start_succ, Nat.cast_add, add_assoc]
  · rw [hdar, h.dar, start_succ, Nat.cast_add, add_assoc]
  · rw [helm, elmCnt, hr]
    exact (h.fixed hr).1
  · obtain ⟨_, hs⟩ := h.fixed hr
    have hle : e.start last (k + 1) ≤ e.x.size.toNat := by
      rw [start_fixed hr hk]
      exact (Nat.mul_le_mul_right _ (by omega)).trans (last_mul_le e hlast)
    rw [start_succ] at hle ⊢
    rw [hsize, BitVec.toNat_sub_of_le (by rw [BitVec.le_def, hcnt, hs]; omega), hcnt, hs]
    omega

/-! ## what a list covers -/

/-- Entry `k` moves the `k`-th length of the list, at its offset. -/
structure Moves (e : ListEnv) (last : U32) (a b : U64) (k : Nat) (en : Entry) : Prop where
  src : en.2.seg.src = a + (e.start last k : U64)
  dst : en.2.seg.dst = b + (e.start last k : U64)
  len : en.2.seg.len = e.len last k

theorem covers_of_moves {es : List Entry} (h : ∀ k en, es[k]? = some en → e.Moves last a b k en) :
    Copy.Covers a b (e.start last es.length) (segsOf es) := by
  have hlen : (segsOf es).length = es.length := List.length_map _
  rw [start, ← hlen]
  refine Copy.covers_of_offsets fun k s hs => ?_
  rw [segsOf, List.getElem?_map, Option.map_eq_some_iff] at hs
  obtain ⟨en, hen, rfl⟩ := hs
  exact ⟨(h k en hen).src, (h k en hen).dst, (h k en hen).len⟩

end ListEnv

end MtEmu
