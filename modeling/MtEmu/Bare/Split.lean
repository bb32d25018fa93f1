import MtEmu.Bare.Xfer
import MtEmu.Lib.Cut

/-!
# MtEmu.Bare.Split

The random split of `dma_bare_xfer` is a cut.

`randSplit` works on 32-bit sizes; `map_toNat_randSplit` maps it to
`Cut.cut` on natural numbers, and the facts about cuts come back through it:
the loop ends for every size and every draws (`exists_randSplit`), the
pieces are positive and add up to the size, and `pieceCount` of them are
made.  `splitBlock_eq` reads these facts off the table the driver keeps.
-/

namespace MtEmu

/-! ## draws -/

theorem sizeRand_toNat (r : U64) : (sizeRand r).toNat = r.toNat % 61440 + 4096 := by
  unfold sizeRand
  simp [BitVec.toNat_umod]
  omega

/-- A draw lies between 4096 and 65535. -/
theorem sizeRand_bounds (r : U64) : 4096 ≤ (sizeRand r).toNat ∧ (sizeRand r).toNat ≤ 65535 := by
  rw [sizeRand_toNat]
  omega

/-- The sizes drawn for a block, as numbers. -/
def drawSizes (r : Nat → U64) (k : Nat) : Nat := (sizeRand (r k)).toNat

theorem drawSizes_pos (r : Nat → U64) (k : Nat) : 0 < drawSizes r k := by
  have := (sizeRand_bounds (r k)).1
  unfold drawSizes
  omega

/-- The number of pieces `size` bytes are split into: the least number of
draws that add up to it. -/
noncomputable def pieceCount (r : Nat → U64) (size : U32) : Nat :=
  Cut.need (drawSizes r) size.toNat

/-! ## the loop -/

theorem min_piece (s d : U32) : (if s < d then s else d).toNat = min d.toNat s.toNat := by
  split
  · next h => rw [BitVec.lt_def] at h; omega
  · next h => rw [BitVec.lt_def] at h; omega

/-- **Refinement**: as numbers, the pieces of the splitting loop are those of
the cut. -/
theorem map_toNat_randSplit (fuel : Nat) (size : U32) (r : Nat → U64) :
    (randSplit fuel size r).map (·.map BitVec.toNat) = Cut.cut fuel size.toNat (drawSizes r) := by
  induction fuel generalizing size r with
  | zero =>
      unfold randSplit Cut.cut
      by_cases h : size = 0
      · rw [if_pos h, if_pos (by rw [h]; rfl)]; rfl
      · rw [if_neg h, if_neg (by simpa [← BitVec.toNat_inj] using h)]; rfl
  | succ fuel ih =>
      by_cases h : size = 0
      · rw [h]; simp [randSplit]
      · have hsize : size.toNat ≠ 0 := by simpa [← BitVec.toNat_inj] using h
        have hpiece := min_piece size (sizeRand (r 0))
        have hrest : (size - if size < sizeRand (r 0) then size else sizeRand (r 0)).toNat =
            size.toNat - min (drawSizes r 0) size.toNat := by
          rw [BitVec.toNat_sub_of_le (by rw [BitVec.le_def, hpiece]; exact Nat.min_le_right ..),
            hpiece, drawSizes]
        have hih : (randSplit fuel _ fun k => r (k + 1)).map (·.map BitVec.toNat) =
            Cut.cut fuel (size.toNat - min (drawSizes r 0) size.toNat)
              fun k => drawSizes r (k + 1) := hrest ▸ ih _ _
        rw [Cut.cut_succ hsize, ← hih, randSplit, if_neg h]
        simp [Function.comp_def, drawSizes, hpiece]

/-- **Termination**: the splitting loop ends for every size and every draws,
within as many rounds as there are bytes. -/
theorem exists_randSplit (size : U32) (r : Nat → U64) :
    ∃ ps, randSplit size.toNat size r = some ps := by
  obtain ⟨ns, hns⟩ := Cut.exists_cut (drawSizes_pos r) (Nat.le_refl size.toNat)
  rw [← map_toNat_randSplit, Option.map_eq_some_iff] at hns
  obtain ⟨ps, hps, _⟩ := hns
  exact ⟨ps, hps⟩

/-- What the splitting loop leaves: pieces that add up to the size. -/
structure Pieces (size : U32) (r : Nat → U64) (ps : List U32) : Prop where
  sum : (ps.map BitVec.toNat).sum = size.toNat
  length : ps.length = pieceCount r size
  pos : ∀ p ∈ ps, 0 < p.toNat

theorem pieces_of_randSplit {fuel : Nat} {size : U32} {r : Nat → U64} {ps : List U32}
    (h : randSplit fuel size r = some ps) : Pieces size r ps := by
  have hcut : Cut.cut fuel size.toNat (drawSizes r) = some (ps.map BitVec.toNat) := by
    rw [← map_toNat_randSplit, h]
    rfl
  refine ⟨Cut.sum_of_cut hcut, ?_, fun p hp => ?_⟩
  · have := Cut.length_of_cut (drawSizes_pos r) hcut
    rwa [List.length_map] at this
  · obtain ⟨i, hi, rfl⟩ := List.mem_iff_getElem.mp hp
    have := (Cut.piece_of_cut (drawSizes_pos r) hcut (i := i) (by simpa using hi)).1
    simpa using this

/-! ## how many pieces -/

theorem pieceCount_pos {size : U32} (r : Nat → U64) (h : size ≠ 0) : 0 < pieceCount r size :=
  Cut.need_pos (drawSizes_pos r) (by simpa [← BitVec.toNat_inj] using h)

/-- One piece is made exactly when the first draw covers the size. -/
theorem pieceCount_eq_one_iff {size : U32} (r : Nat → U64) (h : size ≠ 0) :
    pieceCount r size = 1 ↔ size ≤ sizeRand (r 0) :=
  Cut.need_eq_one_iff (drawSizes_pos r) (by simpa [← BitVec.toNat_inj] using h)

/-- `m` draws of at least 4096 each cover `m * 4096` bytes. -/
theorem pieceCount_le {size : U32} (r : Nat → U64) {m : Nat} (h : size.toNat ≤ m * 4096) :
    pieceCount r size ≤ m := by
  apply Cut.need_le
  have := Cut.mul_le_sum_draws (d := drawSizes r) (fun k => (sizeRand_bounds (r k)).1) m
  exact h.trans this

/-! ## the table -/

/-- The table after the loop, when the pieces fit in it. -/
theorem splitBlock_eq {cap : Nat} {x : BareXfer} (junk : Junk) {draws : Draws} {j : U32}
    (h : pieceCount (draws j) x.size ≤ cap) :
    ∃ ps, Pieces x.size (draws j) ps ∧
      splitBlock cap x junk draws j =
        some (if ps = [] then junk.descCntTmp j else BitVec.ofNat 32 (ps.length - 1),
          fun i => ps.getD i (junk.descSize j i)) := by
  obtain ⟨ps, hps⟩ := exists_randSplit x.size (draws j)
  have hpieces := pieces_of_randSplit hps
  refine ⟨ps, hpieces, ?_⟩
  rw [splitBlock, hps, Option.bind_some, if_neg (by rw [hpieces.length]; omega)]

/-- The loop writes past a table that is too small. -/
theorem splitBlock_eq_none {cap : Nat} {x : BareXfer} (junk : Junk) {draws : Draws} {j : U32}
    (h : cap < pieceCount (draws j) x.size) : splitBlock cap x junk draws j = none := by
  obtain ⟨ps, hps⟩ := exists_randSplit x.size (draws j)
  rw [splitBlock, hps, Option.bind_some, if_pos (by rw [(pieces_of_randSplit hps).length]; exact h)]

end MtEmu
