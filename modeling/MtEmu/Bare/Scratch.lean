import MtEmu.Bare.Split

/-!
# MtEmu.Bare.Scratch

The scratch table `desc_size` of a random split (`dma_bare_xfer`).

Round `i` of the splitting loop stores its piece at `desc_size[i]`, and the loop runs until
the pieces add up to the size.  Nothing compares `i` with the table, `kmalloc(1024 * 1024)`
for a chain and `kmalloc(100000)` for a block: the stores stay inside it exactly when as
many draws as it has entries add up to the size (`scratch_safe_iff`).
-/

namespace MtEmu

/-- The indices at which the splitting loop of block `j` stores. -/
def storeIndices (x : BareXfer) (draws : Draws) (j : U32) : List Nat :=
  match randSplit x.size.toNat x.size (draws j) with
  | some ps => List.range ps.length
  | none => []

namespace BareXfer

/-- The call gets to a splitting loop. -/
def Splits (x : BareXfer) : Prop := x.dirBits ≠ none ∧ x.descCnt ≠ 0 ∧ x.randFlag = true

instance (x : BareXfer) : Decidable x.Splits := inferInstanceAs (Decidable (_ ∧ _))

/-- The blocks of a call; chain mode is block 0. -/
def HasBlock (x : BareXfer) (j : U32) : Prop := if x.blockCnt = 0 then j = 0 else j < x.blockCnt

/-- The entries of the table. -/
def scratchCap (x : BareXfer) : Nat := if x.blockCnt = 0 then chainCap else blockCap

theorem hasBlock_zero (x : BareXfer) : x.HasBlock 0 := by
  rw [HasBlock]
  split
  · rfl
  · next h => exact BitVec.toNat_pos_of_ne_zero h

end BareXfer

/-- Every piece that a call stores goes into the table of its block. -/
def ScratchSafe (x : BareXfer) (draws : Draws) : Prop :=
  x.Splits → ∀ j, x.HasBlock j → ∀ i ∈ storeIndices x draws j, i < x.scratchCap

/-! ## one block -/

section Block

variable {x : BareXfer} {draws : Draws} {j : U32} {cap : Nat}

/-- The loop ends, and stores at as many indices as there are pieces. -/
theorem storeIndices_eq (x : BareXfer) (draws : Draws) (j : U32) :
    storeIndices x draws j = List.range (pieceCount (draws j) x.size) := by
  obtain ⟨ps, hps⟩ := exists_randSplit x.size (draws j)
  rw [storeIndices, hps, ← (pieces_of_randSplit hps).length]

/-- All of them are below `cap` when the first `cap` draws add up to the size. -/
theorem storeIndices_lt_iff :
    (∀ i ∈ storeIndices x draws j, i < cap) ↔
      x.size.toNat ≤ ∑ k ∈ Finset.range cap, drawSizes (draws j) k := by
  rw [storeIndices_eq, ← Cut.need_le_iff (drawSizes_pos (draws j))]
  change _ ↔ pieceCount (draws j) x.size ≤ cap
  constructor
  · intro h
    by_contra hlt
    have hlast := h cap (List.mem_range.mpr (Nat.lt_of_not_le hlt))
    exact Nat.lt_irrefl cap hlast
  · intro h i hi
    exact (List.mem_range.mp hi).trans_le h

/-- `splitBlock` goes on for just these tables. -/
theorem isSome_splitBlock_iff (junk : Junk) :
    (splitBlock cap x junk draws j).isSome = true ↔ ∀ i ∈ storeIndices x draws j, i < cap := by
  rw [storeIndices_lt_iff, ← Cut.need_le_iff (drawSizes_pos (draws j))]
  change _ ↔ pieceCount (draws j) x.size ≤ cap
  by_cases h : pieceCount (draws j) x.size ≤ cap
  · obtain ⟨ps, -, hsplit⟩ := splitBlock_eq junk h
    simp [hsplit, h]
  · simp [splitBlock_eq_none junk (Nat.lt_of_not_le h), h]

end Block

/-! ## all draws -/

/-- The least that can be drawn. -/
def leastDraws : Draws := fun _ _ => 0

theorem sum_leastDraws (j : U32) (n : Nat) :
    ∑ k ∈ Finset.range n, drawSizes (leastDraws j) k = 4096 * n := by
  have hdraw : ∀ k, drawSizes (leastDraws j) k = 4096 := fun k => by
    simp [drawSizes, leastDraws, sizeRand_toNat]
  simp [hdraw, Nat.mul_comm]

/-- The least draws add up to less than any others. -/
theorem sum_draws_ge (draws : Draws) (j : U32) (n : Nat) :
    4096 * n ≤ ∑ k ∈ Finset.range n, drawSizes (draws j) k := by
  have hleast := Cut.mul_le_sum_draws (d := drawSizes (draws j))
    (fun k => (sizeRand_bounds (draws j k)).1) n
  rwa [Nat.mul_comm]

/-- **Scratch table**: the stores of a call stay inside its tables exactly when in every
block as many draws as there are entries add up to the size; and they do so for all draws
exactly when 4096 bytes an entry do. -/
theorem scratch_safe_iff (x : BareXfer) :
    (∀ draws, ScratchSafe x draws ↔ (x.Splits → ∀ j, x.HasBlock j →
      x.size.toNat ≤ ∑ k ∈ Finset.range x.scratchCap, drawSizes (draws j) k)) ∧
    ((∀ draws, ScratchSafe x draws) ↔ (x.Splits → x.size.toNat ≤ 4096 * x.scratchCap)) := by
  have heach : ∀ draws, ScratchSafe x draws ↔ (x.Splits → ∀ j, x.HasBlock j →
      x.size.toNat ≤ ∑ k ∈ Finset.range x.scratchCap, drawSizes (draws j) k) := by
    intro draws
    simp only [ScratchSafe, storeIndices_lt_iff]
  refine ⟨heach, fun h hsplits => ?_, fun h draws => ?_⟩
  · have hleast := (heach leastDraws).mp (h leastDraws) hsplits 0 x.hasBlock_zero
    rwa [sum_leastDraws] at hleast
  · exact (heach draws).mpr fun hsplits j _ => (h hsplits).trans (sum_draws_ge draws j _)

/-- The largest size, in one block. -/
def largestBlock : BareXfer := ⟨1, 0, 0x80000001, 1, 0x1000, 0x2000, 0xffffffff⟩

/-- A piece is at most 65535 bytes long, so that 25000 of them are never enough. -/
theorem largestBlock_overruns :
    ¬ ScratchSafe largestBlock leastDraws ∧ ∀ draws, ¬ ScratchSafe largestBlock draws := by
  have hall : ∀ draws, ¬ ScratchSafe largestBlock draws := by
    intro draws h
    have hindex := h (by decide) 0 largestBlock.hasBlock_zero
    rw [storeIndices_lt_iff] at hindex
    have hle : ∑ k ∈ Finset.range largestBlock.scratchCap, drawSizes (draws 0) k ≤
        largestBlock.scratchCap • 65535 :=
      Finset.sum_le_card_nsmul _ _ _ (fun k _ => (sizeRand_bounds (draws 0 k)).2) |>.trans
        (by rw [Finset.card_range])
    have hcap : largestBlock.scratchCap = 25000 := rfl
    have hsize : largestBlock.size.toNat = 4294967295 := rfl
    rw [hsize, hcap] at hindex
    rw [hcap, smul_eq_mul] at hle
    omega
  exact ⟨hall leastDraws, hall⟩

end MtEmu
