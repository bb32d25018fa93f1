import MtEmu.Lib.Bytes
import MtEmu.Bare.Merge

/-!
# MtEmu.Ioctl.Handlers

The interrupt handlers `pcie_gpu_th`, `pcie_apu_th` and `pcie_vgpu_th` and the masks that
they and `emu_dma_isr` hold while they run (`mt-emu-ioctl.c`).

The registers of the interrupt mux overlap: `TARGET_MASK` is read two bytes into
`TARGET_SOFT`, so that bit 16 of the one is bit 0 of the other, and reaches into the next
target.  They are registers of one byte memory here, with the offsets of `reg_define.h`.

A handler that leaves early does not unmask, and `pcie_apu_th` tests the whole of
`TARGET_SOFT` for bit 0 (`irq_balanced_iff`).
-/

namespace MtEmu

open Bytes

/-! ## registers -/

/-- `REG_PCIE_PF_INT_MUX_SRC_SOFT`, also of the APU. -/
def muxSrcSoft (i : Nat) : Nat := 0x2c8000 + 0x000 + i * 4

/-- `REG_PCIE_PF_INT_MUX_TARGET_SOFT`, also of the APU. -/
def muxTargetSoft (i : Nat) : Nat := 0x2c8000 + 0x410 + i * 4

/-- `REG_PCIE_PF_INT_MUX_TARGET_MASK`. -/
def muxTargetMask (i : Nat) : Nat := 0x2c8000 + 0x412 + i * 4

/-- `REG_PCIE_PF_INT_MUX_TARGET_CLAIM`, also of the APU. -/
def muxTargetClaim (i : Nat) : Nat := 0x2c8000 + 0x938 + i * 4

theorem muxTargetMask_eq (i : Nat) : muxTargetMask i = muxTargetSoft i + 2 := by
  simp only [muxTargetMask, muxTargetSoft]
  omega

/-- `VPU_REG_PCIE_VF_INT_MUX_SRC_SOFT`. -/
def vfMuxSrcSoft (i : Nat) : Nat := 0x2080 + i * 4

/-- `VPU_REG_PCIE_VF_INT_MUX_TARGET_SOFT`. -/
def vfMuxTargetSoft (i : Nat) : Nat := 0x2098 + i * 4

/-- `VPU_REG_PCIE_VF_INT_MUX_TARGET_MASK`. -/
def vfMuxTargetMask (i : Nat) : Nat := 0x209a + i * 4

theorem vfMuxTargetMask_eq (i : Nat) : vfMuxTargetMask i = vfMuxTargetSoft i + 2 := by
  simp only [vfMuxTargetMask, vfMuxTargetSoft]
  omega

/-- `VPU_REG_PCIE_VF_INT_MUX_TARGET_CLAIM`. -/
def vfMuxTargetClaim (i : Nat) : Nat := 0x20d8 + i * 4

/-- The registers of the sources and of the targets are aligned alike. -/
theorem muxSrcSoft_ne (i j : Nat) : muxSrcSoft i ≠ muxTargetSoft j + 5 := by
  simp only [muxSrcSoft, muxTargetSoft]
  omega

theorem vfMuxSrcSoft_ne (i j : Nat) : vfMuxSrcSoft i ≠ vfMuxTargetSoft j + 5 := by
  simp only [vfMuxSrcSoft, vfMuxTargetSoft]
  omega

/-- What the handlers work on: the registers of the mux at `region[0].vaddr`, the DMA side
of the function, the mode, and the completions of `int_done` in order. -/
structure IrqState where
  mem : Mem
  pcie : EmuPcie
  irqTestMode : U32
  intDone : List Nat

namespace IrqState

variable (s : IrqState)

/-- `readl`. -/
def readl (a : Nat) : U32 := Bytes.readl s.mem a

/-- `writel`. -/
def writel (v : U32) (a : Nat) : IrqState := { s with mem := Bytes.writel s.mem v a }

/-- `complete(&emu_pcie->int_done[irq])`. -/
def complete (irq : Nat) : IrqState := { s with intDone := s.intDone ++ [irq] }

/-- `emu_dma_isr`, with anything in the registers of the merged status. -/
def emuDmaIsr (r : MrgRegs) : IrqState :=
  { s with
    pcie :=
      if 0 ≤ s.pcie.devfn ∧ s.pcie.devfn < 2 then (emuDmaIsrPf r s.pcie).1
      else MtEmu.emuDmaIsr s.pcie }

end IrqState

/-! ## handlers -/

/-- `pcie_gpu_th`: the state afterwards and, in test mode, whether the branch for a soft
target was taken. -/
def pcieGpuTh (r : MrgRegs) (irq : Nat) (s : IrqState) : IrqState × Option Bool :=
  let msk := s.readl (muxTargetMask irq)
  let s := s.writel (msk ||| 0x10000) (muxTargetMask irq)
  let unmask (s : IrqState) := s.writel (msk &&& ~~~0x10000) (muxTargetMask irq)
  if s.irqTestMode ≠ 0 then
    let rdata := s.readl (muxTargetSoft irq)
    if 0x1 &&& rdata = 0x1 then
      let s := s.writel (0xfffffffe &&& rdata) (muxTargetSoft irq)
      (unmask (s.complete irq), some true)
    else
      let intReg := s.readl (muxTargetSoft irq)
      let s := s.writel (0x10000 ||| intReg) (muxTargetSoft irq)
      if 32 ≤ irq then (s, some false)
      else
        let src := (s.readl (muxTargetClaim irq) &&& 0x1ff).toNat
        if 256 ≤ src then (s, some false)
        else
          let rdata := s.readl (muxSrcSoft src)
          let s := s.writel (0xfffffffe &&& rdata) (muxSrcSoft src)
          let s := s.writel intReg (muxTargetSoft irq)
          (unmask (s.complete irq), some false)
  else
    let intReg := s.readl (muxTargetSoft irq)
    let s := s.writel (0x10000 ||| intReg) (muxTargetSoft irq)
    let s := s.emuDmaIsr r
    (unmask (s.writel intReg (muxTargetSoft irq)), none)

/-- `pcie_apu_th`; its target is number 32. -/
def pcieApuTh (irq : Nat) (s : IrqState) : IrqState × Option Bool :=
  if s.irqTestMode ≠ 0 then
    let rdata := s.readl (muxTargetSoft 32)
    -- `0x1&rdata!=0`, where `!=` binds first
    if (0x1 : U32) &&& (if rdata ≠ 0 then 1 else 0) ≠ 0 then
      let s := s.writel (0xfffffffe &&& rdata) (muxTargetSoft 32)
      (s.complete irq, some true)
    else
      let intReg := s.readl (muxTargetSoft 32)
      let s := s.writel (0x10000 ||| intReg) (muxTargetSoft 32)
      if 1 ≤ irq then (s, some false)
      else
        let src := (s.readl (muxTargetClaim 32) &&& 0x1ff).toNat
        if 256 ≤ src then (s, some false)
        else
          let rdata := s.readl (muxSrcSoft src)
          let s := s.writel (0xfffffffe &&& rdata) (muxSrcSoft src)
          let s := s.writel intReg (muxTargetSoft 32)
          (s.complete irq, some false)
  else (s, none)

/-- `pcie_vgpu_th`; a target or source out of range only suppresses the completion. -/
def pcieVgpuTh (r : MrgRegs) (irq : Nat) (s : IrqState) : IrqState × Option Bool :=
  if s.irqTestMode ≠ 0 then
    let rdata := s.readl (vfMuxTargetSoft irq)
    if 0x1 &&& rdata ≠ 0 then
      let s := s.writel (0xfffffffe &&& rdata) (vfMuxTargetSoft irq)
      (s.complete irq, some true)
    else
      let intReg := s.readl (vfMuxTargetSoft irq)
      let s := s.writel (intReg ||| 0x10000) (vfMuxTargetSoft irq)
      let src := (s.readl (vfMuxTargetClaim irq) &&& 0x7).toNat
      let rdata := s.readl (vfMuxSrcSoft src)
      let s := s.writel (0xfffffffe &&& rdata) (vfMuxSrcSoft src)
      let s := s.writel intReg (vfMuxTargetSoft irq)
      (if irq < 8 ∧ src < 6 then s.complete irq else s, some false)
  else if irq = 3 ∨ irq = 2 then (s.emuDmaIsr r, none)
  else (s, none)

/-! ## what a handler leaves -/

/-- The handlers. -/
inductive IrqHandler where
  | dmaIsr
  | gpu
  | apu
  | vgpu

namespace IrqHandler

/-- A run of a handler. -/
def run (h : IrqHandler) (r : MrgRegs) (irq : Nat) (s : IrqState) : IrqState × Option Bool :=
  match h with
  | .dmaIsr => (s.emuDmaIsr r, none)
  | .gpu => pcieGpuTh r irq s
  | .apu => pcieApuTh irq s
  | .vgpu => pcieVgpuTh r irq s

/-- `TARGET_SOFT` of the interrupt. -/
def soft (irq : Nat) : IrqHandler → Nat
  | .dmaIsr | .gpu => muxTargetSoft irq
  | .apu => muxTargetSoft 32
  | .vgpu => vfMuxTargetSoft irq

/-- `TARGET_MASK` of the interrupt. -/
def mask (irq : Nat) : IrqHandler → Nat
  | .dmaIsr | .gpu => muxTargetMask irq
  | .apu => muxTargetMask 32
  | .vgpu => vfMuxTargetMask irq

/-- The interrupt is not masked: neither in `TARGET_MASK` nor in `TARGET_SOFT` nor in
`MRG_PF0_IMSK`. -/
structure Unmasked (h : IrqHandler) (irq : Nat) (s : IrqState) : Prop where
  mask : (s.readl (h.mask irq)).getLsbD 16 = false
  soft : (s.readl (h.soft irq)).getLsbD 16 = false
  imsk : s.pcie.mrgImsk.getLsbD 0 = false ∧ s.pcie.mrgImsk.getLsbD 16 = false

/-- A run leaves the masks as they were, and takes the branch for a soft target when bit 0
of `TARGET_SOFT` is set. -/
structure Balanced (h : IrqHandler) (r : MrgRegs) (irq : Nat) (s : IrqState) : Prop where
  mask : (h.run r irq s).1.readl (h.mask irq) = s.readl (h.mask irq)
  soft : ((h.run r irq s).1.readl (h.soft irq)).getLsbD 16 = (s.readl (h.soft irq)).getLsbD 16
  imsk : (h.run r irq s).1.pcie.mrgImsk = s.pcie.mrgImsk
  branch : ∀ b, (h.run r irq s).2 = some b → (b = true ↔ (s.readl (h.soft irq)).getLsbD 0 = true)

/-- The number of the target is below `n`, and so is that of the claimed source below 256. -/
def InRange (irq n claim : Nat) (s : IrqState) : Prop :=
  irq < n ∧ (s.readl claim &&& 0x1ff).toNat < 256

/-- The runs without an early return, and on the APU without other bits of `TARGET_SOFT`. -/
def Regular (irq : Nat) (s : IrqState) : IrqHandler → Prop
  | .dmaIsr | .vgpu => True
  | .gpu => s.irqTestMode = 0 ∨ (s.readl (muxTargetSoft irq)).getLsbD 0 = true ∨
      InRange irq 32 (muxTargetClaim irq) s
  | .apu => s.irqTestMode = 0 ∨ (s.readl (muxTargetSoft 32)).getLsbD 0 = true ∨
      s.readl (muxTargetSoft 32) = 0 ∧ InRange irq 1 (muxTargetClaim 32) s

end IrqHandler

/-! ## bits -/

theorem getLsbD_allBut0 {i : Nat} (hi : i < 32) :
    (0xfffffffe : U32).getLsbD i = decide (i ≠ 0) := by
  have h : ∀ i < 32, (0xfffffffe : U32).getLsbD i = decide (i ≠ 0) := by decide
  exact h i hi

theorem getLsbD_bit16 {i : Nat} (hi : i < 32) : (0x10000 : U32).getLsbD i = decide (i = 16) := by
  have h : ∀ i < 32, (0x10000 : U32).getLsbD i = decide (i = 16) := by decide
  exact h i hi

/-- `0x1&x` is zero or one. -/
theorem one_and (x : U32) : 0x1 &&& x = if x.getLsbD 0 then 0x1 else 0 := by
  apply BitVec.eq_of_getLsbD_eq
  intro i hi
  have h1 : (0x1 : U32).getLsbD i = decide (i = 0) := by
    have h : ∀ i < 32, (0x1 : U32).getLsbD i = decide (i = 0) := by decide
    exact h i hi
  rw [BitVec.getLsbD_and, h1]
  by_cases h0 : i = 0
  · subst h0
    cases hx : x.getLsbD 0 <;> simp
  · cases hx : x.getLsbD 0 <;> simp [h0]

theorem one_and_eq_one (x : U32) : 0x1 &&& x = 0x1 ↔ x.getLsbD 0 = true := by
  rw [one_and]
  cases x.getLsbD 0 <;> decide

theorem one_and_ne_zero (x : U32) : 0x1 &&& x ≠ 0 ↔ x.getLsbD 0 = true := by
  rw [one_and]
  cases x.getLsbD 0 <;> decide

/-- A bit that is clear, set and cleared. -/
theorem set_clear {x : U32} {k : Nat} (h : x.getLsbD k = false) :
    (x ||| BitVec.twoPow 32 k) &&& ~~~BitVec.twoPow 32 k = x := by
  apply BitVec.eq_of_getLsbD_eq
  intro i hi
  simp only [BitVec.getLsbD_and, BitVec.getLsbD_or, BitVec.getLsbD_not, BitVec.getLsbD_twoPow,
    decide_eq_true hi, Bool.true_and]
  by_cases hk : k = i
  · subst hk
    rw [h]
    simp [hi]
  · simp [hk]

theorem clear_of_clear {x : U32} (h : x.getLsbD 16 = false) : x &&& ~~~0x10000 = x := by
  apply BitVec.eq_of_getLsbD_eq
  intro i hi
  rw [BitVec.getLsbD_and, BitVec.getLsbD_not, getLsbD_bit16 hi, decide_eq_true hi, Bool.true_and]
  by_cases h16 : i = 16
  · subst h16
    rw [h, Bool.false_and]
  · simp [h16]

section Memory

variable (m : Mem) {a p : Nat}

/-- Clearing bit 0 of a register. -/
theorem bit_clear0 (x : Nat) :
    bit (Bytes.writel m (0xfffffffe &&& Bytes.readl m p) p) x = (bit m x && decide (x ≠ 8 * p)) := by
  rw [bit_writel]
  by_cases h : 8 * p ≤ x ∧ x < 8 * p + 32
  · rw [if_pos h, BitVec.getLsbD_and, getLsbD_allBut0 (by omega), getLsbD_readl m (by omega),
      Nat.add_sub_cancel' h.1, Bool.and_comm]
    congr 1
    exact decide_eq_decide.mpr (by omega)
  · rw [if_neg h, decide_eq_true (by omega), Bool.and_true]

/-- Masking a target does not change its `TARGET_SOFT`. -/
theorem readl_soft_masked :
    Bytes.readl (Bytes.writel m (Bytes.readl m (a + 2) ||| 0x10000) (a + 2)) a =
      Bytes.readl m a := by
  refine readl_congr _ fun i hi => ?_
  rw [bit_writel]
  by_cases h : 8 * (a + 2) ≤ 8 * a + i ∧ 8 * a + i < 8 * (a + 2) + 32
  · rw [if_pos h, BitVec.getLsbD_or, getLsbD_bit16 (by omega), decide_eq_false (by omega),
      Bool.or_false, getLsbD_readl m (by omega), Nat.add_sub_cancel' h.1]
  · rw [if_neg h]

/-- Bit 16 of `TARGET_SOFT` is a bit of `TARGET_MASK`. -/
theorem soft_of_mask {m m' : Mem} (h : Bytes.readl m (a + 2) = Bytes.readl m' (a + 2)) :
    (Bytes.readl m a).getLsbD 16 = (Bytes.readl m' a).getLsbD 16 := by
  have hbit := congrArg (fun v : U32 => v.getLsbD 0) h
  simp only [getLsbD_readl _ (show 0 < 32 by decide)] at hbit
  rw [getLsbD_readl _ (by decide), getLsbD_readl _ (by decide)]
  exact hbit

/-- Clearing bit 0 of `TARGET_SOFT` does not change its `TARGET_MASK`. -/
theorem readl_mask_clear0 :
    Bytes.readl (Bytes.writel m (0xfffffffe &&& Bytes.readl m a) a) (a + 2) =
      Bytes.readl m (a + 2) := by
  refine readl_congr _ fun i hi => ?_
  rw [bit_clear0, decide_eq_true (by omega), Bool.and_true]

/-- `TARGET_MASK` after `TARGET_SOFT` was set to something and back, with bit 0 of another
register cleared between; that bit may be bit 16 of the mask. -/
theorem readl_mask_restored (v : U32) (hmask : (Bytes.readl m (a + 2)).getLsbD 16 = false)
    (hp : p ≠ a + 5) :
    let m' := Bytes.writel m v a
    Bytes.readl (Bytes.writel (Bytes.writel m' (0xfffffffe &&& Bytes.readl m' p) p)
      (Bytes.readl m a) a) (a + 2) = Bytes.readl m (a + 2) := by
  rw [getLsbD_readl m (by decide)] at hmask
  refine readl_congr _ fun i hi => ?_
  rw [bit_writel]
  by_cases h : 8 * a ≤ 8 * (a + 2) + i ∧ 8 * (a + 2) + i < 8 * a + 32
  · rw [if_pos h, getLsbD_readl m (by omega), Nat.add_sub_cancel' h.1]
  · rw [if_neg h, bit_clear0, bit_writel, if_neg h]
    by_cases hbit : 8 * (a + 2) + i = 8 * p
    · have h16 : i = 16 := by omega
      rw [h16, hmask, Bool.false_and]
    · rw [decide_eq_true hbit, Bool.and_true]

end Memory

/-! ## the handlers -/

section Handlers

variable {r : MrgRegs} {irq : Nat} {s : IrqState}

/-- `emu_dma_isr` clears the bit of the mask that it sets. -/
theorem emuDmaIsr_imsk (r : MrgRegs) (h0 : s.pcie.mrgImsk.getLsbD 0 = false)
    (h16 : s.pcie.mrgImsk.getLsbD 16 = false) :
    (s.emuDmaIsr r).pcie.mrgImsk = s.pcie.mrgImsk := by
  have hrd : (s.pcie.mrgImsk ||| 0x1) &&& ~~~0x1 = s.pcie.mrgImsk := set_clear h0
  have hwr : (s.pcie.mrgImsk ||| 0x10000) &&& ~~~0x10000 = s.pcie.mrgImsk := set_clear h16
  unfold IrqState.emuDmaIsr
  by_cases hpf : 0 ≤ s.pcie.devfn ∧ s.pcie.devfn < 2
  · simp only [if_pos hpf, emuDmaIsrPf]
    by_cases hsts : r.sts &&& 0x1 ≠ 0
    · rw [if_pos hsts, hrd]
    · rw [if_neg hsts]
      by_cases hsts' : r.sts &&& 0x10000 ≠ 0
      · rw [if_pos hsts', hwr]
      · rw [if_neg hsts']
  · simp only [if_neg hpf, emuDmaIsr]
    split <;> rfl

/-- Writing bit 16 of `TARGET_SOFT`. -/
theorem bit16_set (s : IrqState) (v : U32) (a : Nat) :
    ((s.writel (0x10000 ||| v) a).readl a).getLsbD 16 = true := by
  rw [IrqState.readl, IrqState.writel, readl_writel_self, BitVec.getLsbD_or]
  rfl

/-- The branch that bit 0 of `TARGET_SOFT` asks for. -/
def IrqState.branch (s : IrqState) (soft : Nat) : Option Bool :=
  if s.irqTestMode ≠ 0 then some ((s.readl soft).getLsbD 0) else none

/-- The GPU's handler ends with the mask as it was, or it leaves early and bit 16 of
`TARGET_SOFT` is set. -/
theorem pcieGpuTh_cases (r : MrgRegs) (hun : IrqHandler.gpu.Unmasked irq s) :
    ∃ t : IrqState,
      (IrqHandler.gpu.Regular irq s ∧ pcieGpuTh r irq s =
          (t.writel (s.readl (muxTargetMask irq)) (muxTargetMask irq),
            s.branch (muxTargetSoft irq)) ∨
        ¬IrqHandler.gpu.Regular irq s ∧ ∃ v, pcieGpuTh r irq s =
          (t.writel (0x10000 ||| v) (muxTargetSoft irq), s.branch (muxTargetSoft irq))) ∧
      t.pcie.mrgImsk = s.pcie.mrgImsk := by
  have hsoft : (s.writel (s.readl (muxTargetMask irq) ||| 0x10000) (muxTargetMask irq)).readl
      (muxTargetSoft irq) = s.readl (muxTargetSoft irq) := by
    rw [muxTargetMask_eq]
    exact readl_soft_masked s.mem
  have hmask : s.readl (muxTargetMask irq) &&& ~~~0x10000 = s.readl (muxTargetMask irq) :=
    clear_of_clear hun.mask
  have hclaim (v w : U32) : ((s.writel v (muxTargetMask irq)).writel w (muxTargetSoft irq)).readl
      (muxTargetClaim irq) = s.readl (muxTargetClaim irq) :=
    (readl_writel_of_disjoint _ _ (by simp only [muxTargetClaim, muxTargetSoft]; omega)).trans
      (readl_writel_of_disjoint _ _ (by simp only [muxTargetClaim, muxTargetMask]; omega))
  have htest (v : U32) (a : Nat) : (s.writel v a).irqTestMode = s.irqTestMode := rfl
  simp only [pcieGpuTh, IrqHandler.Regular, IrqHandler.InRange, IrqState.branch, hsoft, hmask,
    hclaim, htest, one_and_eq_one]
  by_cases hmode : s.irqTestMode = 0
  · simp only [hmode, ne_eq, not_true_eq_false, if_false]
    refine ⟨_, .inl ⟨.inl trivial, rfl⟩, ?_⟩
    exact emuDmaIsr_imsk r hun.imsk.1 hun.imsk.2
  · simp only [hmode, ne_eq, not_false_eq_true, if_true, false_or]
    cases hbit : (s.readl (muxTargetSoft irq)).getLsbD 0 with
    | true =>
        simp only [if_true]
        exact ⟨_, .inl ⟨.inl trivial, rfl⟩, rfl⟩
    | false =>
        simp only [Bool.false_eq_true, if_false, false_or]
        by_cases hirq : 32 ≤ irq
        · simp only [if_pos hirq]
          exact ⟨_, .inr ⟨fun h => absurd h.1 (Nat.not_lt.mpr hirq), _, rfl⟩, rfl⟩
        · simp only [if_neg hirq]
          by_cases hsrc : 256 ≤ (s.readl (muxTargetClaim irq) &&& 0x1ff).toNat
          · simp only [if_pos hsrc]
            exact ⟨_, .inr ⟨fun h => absurd h.2 (Nat.not_lt.mpr hsrc), _, rfl⟩, rfl⟩
          · simp only [if_neg hsrc]
            exact ⟨_, .inl ⟨⟨Nat.lt_of_not_le hirq, Nat.lt_of_not_le hsrc⟩, rfl⟩, rfl⟩

/-- The APU's handler leaves `TARGET_MASK` as it was, or it leaves early and bit 16 of
`TARGET_SOFT` is set; it takes the branch for a soft target when any bit is set. -/
theorem pcieApuTh_cases (hun : IrqHandler.apu.Unmasked irq s) (hmode : s.irqTestMode ≠ 0) :
    ∃ t : IrqState,
      (s.readl (muxTargetSoft 32) ≠ 0 ∧ pcieApuTh irq s = (t, some true) ∧
          t.readl (muxTargetMask 32) = s.readl (muxTargetMask 32) ∨
        s.readl (muxTargetSoft 32) = 0 ∧ IrqHandler.InRange irq 1 (muxTargetClaim 32) s ∧
          pcieApuTh irq s = (t, some false) ∧
          t.readl (muxTargetMask 32) = s.readl (muxTargetMask 32) ∨
        s.readl (muxTargetSoft 32) = 0 ∧ ¬IrqHandler.InRange irq 1 (muxTargetClaim 32) s ∧
          pcieApuTh irq s = (t, some false) ∧
          (t.readl (muxTargetSoft 32)).getLsbD 16 = true) ∧
      t.pcie = s.pcie := by
  have hclaim (v : U32) : (s.writel v (muxTargetSoft 32)).readl (muxTargetClaim 32) =
      s.readl (muxTargetClaim 32) := readl_writel_of_disjoint _ _ (by decide)
  simp only [pcieApuTh, IrqHandler.InRange, hclaim, if_pos hmode]
  by_cases hsoft : s.readl (muxTargetSoft 32) = 0
  · have hskip : ¬(0x1 : U32) &&& (if s.readl (muxTargetSoft 32) ≠ 0 then 1 else 0) ≠ 0 := by
      rw [if_neg (not_not_intro hsoft)]
      decide
    simp only [if_neg hskip]
    by_cases hirq : 1 ≤ irq
    · simp only [if_pos hirq]
      exact ⟨_, .inr (.inr ⟨hsoft, fun h => absurd h.1 (Nat.not_lt.mpr hirq), rfl,
        bit16_set _ _ _⟩), rfl⟩
    · simp only [if_neg hirq]
      by_cases hsrc : 256 ≤ (s.readl (muxTargetClaim 32) &&& 0x1ff).toNat
      · simp only [if_pos hsrc]
        exact ⟨_, .inr (.inr ⟨hsoft, fun h => absurd h.2 (Nat.not_lt.mpr hsrc), rfl,
          bit16_set _ _ _⟩), rfl⟩
      · simp only [if_neg hsrc]
        refine ⟨_, .inr (.inl
          ⟨hsoft, ⟨Nat.lt_of_not_le hirq, Nat.lt_of_not_le hsrc⟩, rfl, ?_⟩), rfl⟩
        have hmask := hun.mask
        simp only [IrqHandler.mask, muxTargetMask_eq] at hmask ⊢
        exact readl_mask_restored s.mem _ hmask (muxSrcSoft_ne _ _)
  · have htake : (0x1 : U32) &&& (if s.readl (muxTargetSoft 32) ≠ 0 then 1 else 0) ≠ 0 := by
      rw [if_pos hsoft]
      decide
    simp only [if_pos htake]
    refine ⟨_, .inl ⟨hsoft, rfl, ?_⟩, rfl⟩
    rw [muxTargetMask_eq]
    exact readl_mask_clear0 s.mem

/-- In test mode the handler of a virtual function leaves `TARGET_MASK` as it was. -/
theorem pcieVgpuTh_cases (r : MrgRegs) (hun : IrqHandler.vgpu.Unmasked irq s)
    (hmode : s.irqTestMode ≠ 0) :
    ∃ t : IrqState, pcieVgpuTh r irq s = (t, s.branch (vfMuxTargetSoft irq)) ∧
      t.readl (vfMuxTargetMask irq) = s.readl (vfMuxTargetMask irq) ∧ t.pcie = s.pcie := by
  have hmask := hun.mask
  simp only [IrqHandler.mask, vfMuxTargetMask_eq] at hmask ⊢
  simp only [pcieVgpuTh, IrqState.branch, if_pos hmode, one_and_ne_zero]
  cases hbit : (s.readl (vfMuxTargetSoft irq)).getLsbD 0 with
  | true =>
      simp only [if_true]
      exact ⟨_, rfl, readl_mask_clear0 s.mem, rfl⟩
  | false =>
      simp only [Bool.false_eq_true, if_false]
      refine ⟨_, rfl, ?_, ?_⟩
      · split <;> exact readl_mask_restored s.mem _ hmask (vfMuxSrcSoft_ne _ _)
      · rw [apply_ite IrqState.pcie]
        exact ite_self _

namespace IrqHandler

variable {h : IrqHandler}

theorem mask_eq (h : IrqHandler) (irq : Nat) : h.mask irq = h.soft irq + 2 := by
  cases h with
  | dmaIsr => exact muxTargetMask_eq irq
  | gpu => exact muxTargetMask_eq irq
  | apu => exact muxTargetMask_eq 32
  | vgpu => exact vfMuxTargetMask_eq irq

theorem branch_of_some {a : Nat} {b : Bool} (hb : s.branch a = some b) :
    b = true ↔ (s.readl a).getLsbD 0 = true := by
  rw [IrqState.branch] at hb
  split at hb
  · rw [Option.some.inj hb]
  · contradiction

/-- With `TARGET_MASK` as it was, so is bit 16 of `TARGET_SOFT`. -/
theorem Balanced.of_run {t : IrqState} {c : Option Bool} (hrun : h.run r irq s = (t, c))
    (hmask : t.readl (h.mask irq) = s.readl (h.mask irq))
    (himsk : t.pcie.mrgImsk = s.pcie.mrgImsk)
    (hbranch : ∀ b, c = some b → (b = true ↔ (s.readl (h.soft irq)).getLsbD 0 = true)) :
    h.Balanced r irq s where
  mask := by rw [hrun]; exact hmask
  soft := by
    rw [hrun]
    rw [mask_eq] at hmask
    exact soft_of_mask hmask
  imsk := by rw [hrun]; exact himsk
  branch := by rw [hrun]; exact hbranch

/-- A run that does not touch the registers of the mux. -/
theorem Balanced.of_frame {t : IrqState} (hrun : h.run r irq s = (t, none)) (hmem : t.mem = s.mem)
    (himsk : t.pcie.mrgImsk = s.pcie.mrgImsk) : h.Balanced r irq s :=
  .of_run hrun (congrArg (Bytes.readl · _) hmem) himsk fun _ hb => by contradiction

/-- Bit 16 of `TARGET_SOFT` is clear on entry. -/
theorem not_balanced_of_soft {t : IrqState} {c : Option Bool} (hrun : h.run r irq s = (t, c))
    (hun : h.Unmasked irq s) (h16 : (t.readl (h.soft irq)).getLsbD 16 = true) :
    ¬h.Balanced r irq s := by
  intro hbal
  have hsoft := hbal.soft
  rw [hrun, h16, hun.soft] at hsoft
  contradiction

theorem gpu_balanced_iff (hun : gpu.Unmasked irq s) :
    gpu.Balanced r irq s ↔ gpu.Regular irq s := by
  obtain ⟨t, ⟨hreg, hrun⟩ | ⟨hreg, v, hrun⟩, himsk⟩ := pcieGpuTh_cases r hun
  · exact iff_of_true
      (.of_run hrun (readl_writel_self _ _ _) himsk fun _ hb => branch_of_some hb) hreg
  · refine iff_of_false (not_balanced_of_soft hrun hun ?_) hreg
    exact bit16_set t v (muxTargetSoft irq)

theorem apu_balanced_iff (hun : apu.Unmasked irq s) :
    apu.Balanced r irq s ↔ apu.Regular irq s := by
  by_cases hmode : s.irqTestMode = 0
  · have hrun : apu.run r irq s = (s, none) := if_neg (not_not_intro hmode)
    exact iff_of_true (.of_frame hrun rfl rfl) (.inl hmode)
  · obtain ⟨t, ⟨hsoft, hrun, hmask⟩ | ⟨hsoft, hin, hrun, hmask⟩ | ⟨hsoft, hin, hrun, h16⟩, hpcie⟩ :=
      pcieApuTh_cases hun hmode
    · -- some bit of `TARGET_SOFT` is set: the branch is right when bit 0 is
      have hiff : apu.Regular irq s ↔ (s.readl (muxTargetSoft 32)).getLsbD 0 = true := by
        simp only [Regular, hmode, hsoft, false_and, or_false, false_or]
      rw [hiff]
      constructor
      · intro hbal
        exact (hbal.branch true (by rw [run, hrun])).mp rfl
      · intro hbit
        exact .of_run hrun hmask (by rw [hpcie]) fun b hb =>
          iff_of_true (Option.some.inj hb).symm hbit
    · refine iff_of_true (.of_run hrun hmask (by rw [hpcie]) fun b hb => ?_)
        (.inr (.inr ⟨hsoft, hin⟩))
      rw [← Option.some.inj hb, soft, hsoft]
      decide
    · refine iff_of_false (not_balanced_of_soft hrun hun h16) ?_
      simp only [Regular, hmode, hsoft, hin, and_false, or_false, false_or]
      decide

theorem dmaIsr_balanced (hun : dmaIsr.Unmasked irq s) : dmaIsr.Balanced r irq s :=
  .of_frame rfl rfl (emuDmaIsr_imsk r hun.imsk.1 hun.imsk.2)

theorem vgpu_balanced (hun : vgpu.Unmasked irq s) : vgpu.Balanced r irq s := by
  by_cases hmode : s.irqTestMode = 0
  · have hrun : vgpu.run r irq s =
        (if irq = 3 ∨ irq = 2 then (s.emuDmaIsr r, none) else (s, none)) :=
      if_neg (not_not_intro hmode)
    by_cases hirq : irq = 3 ∨ irq = 2
    · rw [if_pos hirq] at hrun
      exact .of_frame hrun rfl (emuDmaIsr_imsk r hun.imsk.1 hun.imsk.2)
    · rw [if_neg hirq] at hrun
      exact .of_frame hrun rfl rfl
  · obtain ⟨t, hrun, hmask, hpcie⟩ := pcieVgpuTh_cases r hun hmode
    exact .of_run hrun hmask (by rw [hpcie]) fun _ hb => branch_of_some hb

end IrqHandler

end Handlers

/-- **Masks**: a run of a handler on an interrupt that is not masked leaves the masks as
they were, and takes the right branch, exactly when it is a regular one. -/
theorem irq_balanced_iff (h : IrqHandler) (r : MrgRegs) (irq : Nat) (s : IrqState)
    (hun : h.Unmasked irq s) : h.Balanced r irq s ↔ h.Regular irq s := by
  cases h with
  | dmaIsr => exact iff_of_true (IrqHandler.dmaIsr_balanced hun) trivial
  | gpu => exact IrqHandler.gpu_balanced_iff hun
  | apu => exact IrqHandler.apu_balanced_iff hun
  | vgpu => exact iff_of_true (IrqHandler.vgpu_balanced hun) trivial

/-- A function in test mode, with one byte of the registers not zero. -/
def IrqState.ofByte (a : Nat) (v : BitVec 8) : IrqState where
  mem := fun b => if b = a then v else 0
  pcie := ⟨0, fun _ => default, fun _ => default, 0⟩
  irqTestMode := 1
  intDone := []

/-- Source 3 claimed by target 5 of the GPU. -/
theorem irq_balanced_iff_gpu :
    let s := IrqState.ofByte (muxTargetClaim 5) 3
    IrqHandler.gpu.Balanced ⟨0, 0, 0, 0, 0⟩ 5 s ↔ IrqHandler.gpu.Regular 5 s :=
  irq_balanced_iff .gpu ⟨0, 0, 0, 0, 0⟩ 5 (IrqState.ofByte (muxTargetClaim 5) 3)
    ⟨by decide, by decide, by decide, by decide⟩

/-- Source 256 claimed by target 5 of the GPU: the target stays masked.  The priority of
target 32 set on the APU: it is taken for a soft interrupt. -/
theorem target_left_masked :
    let s := IrqState.ofByte (muxTargetClaim 5 + 1) 1
    let t := IrqState.ofByte (muxTargetSoft 32 + 1) 1
    (IrqHandler.gpu.Unmasked 5 s ∧ ¬IrqHandler.gpu.Balanced ⟨0, 0, 0, 0, 0⟩ 5 s) ∧
      IrqHandler.apu.Unmasked 0 t ∧ ¬IrqHandler.apu.Balanced ⟨0, 0, 0, 0, 0⟩ 0 t := by
  refine ⟨⟨⟨by decide, by decide, by decide, by decide⟩, fun h => ?_⟩,
    ⟨⟨by decide, by decide, by decide, by decide⟩, fun h => ?_⟩⟩
  · have hsoft := h.soft
    revert hsoft
    decide
  · have hbranch := h.branch true (by decide)
    revert hbranch
    decide

end MtEmu
