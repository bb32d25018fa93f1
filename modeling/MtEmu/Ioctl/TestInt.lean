import MtEmu.Ioctl.Dispatch
import MtEmu.Ioctl.Handlers
import MtEmu.Probe.Irq

/-!
# MtEmu.Ioctl.TestInt

Test interrupts: `MT_IOCTL_TRIG_INT` sets the bit of a source in the interrupt mux, the
mux raises a target the source is enabled for, the handler clears the bit and completes
`int_done` of the target, and `MT_IOCTL_WAIT_INT` waits for that (`mt-emu-ioctl.c`).

Triggers and handlers exclude each other by `irq_lock`, so that each of them is one step.
The mux is one byte memory, as `irq_init` leaves it; what it raises is an assumption: a
target for a source that is pending and enabled for it, and that its claim register names.

No interrupt is lost and none is made up (`test_interrupts_conserved`), apart from the two
sources of a virtual function that `irq_init` does not clear.
-/

namespace MtEmu

open Bytes Machine

/-! ## the mux of a function -/

/-- `REG_PCIE_PF_INT_MUX_ENABLE`. -/
def muxEnable (i : Nat) : Nat := 0x2c8000 + 0x494 + i * 4

/-- `VPU_REG_PCIE_VF_INT_MUX_ENABLE`. -/
def vfMuxEnable (i : Nat) : Nat := 0x20b8 + i * 4

/-- Where a write of `irq_init` goes. -/
def MuxWrite.addr (w : MuxWrite) : Nat :=
  match w.vf, w.reg with
  | false, .srcSoft => muxSrcSoft w.idx
  | false, .targetSoft => muxTargetSoft w.idx
  | false, .enable => muxEnable w.idx
  | true, .srcSoft => vfMuxSrcSoft w.idx
  | true, .targetSoft => vfMuxTargetSoft w.idx
  | true, .enable => vfMuxEnable w.idx

/-- The mux after some writes. -/
def muxWritten (ws : List MuxWrite) (m : Mem) : Mem :=
  ws.foldl (fun m w => Bytes.writel m w.val w.addr) m

namespace TestInt

/-- The type of the function. -/
def type (vf : Bool) : MtEmuType := cond vf .vgpu .gpu

def srcSoft (vf : Bool) (src : Nat) : Nat := cond vf (vfMuxSrcSoft src) (muxSrcSoft src)

def targetSoft (vf : Bool) (irq : Nat) : Nat := cond vf (vfMuxTargetSoft irq) (muxTargetSoft irq)

def targetClaim (vf : Bool) (irq : Nat) : Nat :=
  cond vf (vfMuxTargetClaim irq) (muxTargetClaim irq)

/-- The bit that enables a source for a target: the targets of the physical function have
eight registers each. -/
def enableBit (vf : Bool) (irq src : Nat) : Nat :=
  cond vf (8 * vfMuxEnable irq + src) (8 * muxEnable (8 * irq + src / 32) + src % 32)

/-- The sources. -/
def sources (vf : Bool) : Nat := cond vf 6 256

/-- The targets. -/
def targets (vf : Bool) : Nat := cond vf 8 32

/-- The source that a claim names. -/
def claimed (vf : Bool) (claim : U32) : Nat := (claim &&& cond vf 0x7 0x1ff).toNat

/-- The target that `irq_init` enables for a source. -/
def target (vf : Bool) (src : Nat) : Nat := cond vf src 0

/-- The handler. -/
def handler (vf : Bool) : MrgRegs → Nat → IrqState → IrqState × Option Bool :=
  cond vf pcieVgpuTh pcieGpuTh

end TestInt

/-- `MT_IOCTL_TRIG_INT` of a source in range, under `irq_lock`: whether it was triggered. -/
def IrqState.trigInt (s : IrqState) (vf : Bool) (src : Nat) : Bool × IrqState :=
  let rdata := s.readl (TestInt.srcSoft vf src)
  if 0x1 &&& rdata = 0 then (true, s.writel (0x1 ||| rdata) (TestInt.srcSoft vf src))
  else (false, s)

/-- It answers what the ioctl answers. -/
theorem doTrigInt_eq (s : IrqState) (vf : Bool) (d : IoctlDev) (e : IoctlEnv) (p : MtEmuParam)
    (htype : d.type = TestInt.type vf)
    (hsoft : e.softPending = (s.readl (TestInt.srcSoft vf p.b0.toNat)).getLsbD 0) :
    (d.doTrigInt e p).param =
      if vf = true ∧ 32 ≤ p.b0.toNat ∨ e.copy.paramToUser ≠ 0 then none
      else some { p with b0 := if (s.trigInt vf p.b0.toNat).1 = true then 1 else 0 } := by
  have hb0 := p.b0.isLt
  have hbit : (s.trigInt vf p.b0.toNat).1 = !e.softPending := by
    rw [hsoft, IrqState.trigInt, one_and]
    cases (s.readl (TestInt.srcSoft vf p.b0.toNat)).getLsbD 0 <;> rfl
  rw [hbit, IoctlDev.doTrigInt, htype]
  cases vf <;> cases e.softPending <;>
    simp [TestInt.type, IoctlDev.reply, IoctlDev.fault, IoctlDev.call] <;> grind

/-! ## the system -/

/-- A function in test mode; `accepted` are the sources that were triggered, `waited` the
completions that were waited for. -/
structure TestIntSys where
  vf : Bool
  vecNum : Nat
  irq : IrqState
  accepted : List Nat
  waited : List Nat

/-- A step: the two ioctls with their `b0`, and an interrupt with what its claim register
reads as. -/
inductive TestIntAct where
  | trig (b0 : BitVec 8)
  | interrupt (irq : Nat) (claim : U32) (r : MrgRegs)
  | wait (b0 : BitVec 8)

namespace TestIntSys

open TestInt

/-- What `int_done` of a target has left to wait for. -/
def left (s : TestIntSys) (irq : Nat) : Nat := s.irq.intDone.count irq - s.waited.count irq

/-- The bit of a source is set. -/
def pending (s : TestIntSys) (src : Nat) : Bool := bit s.irq.mem (8 * srcSoft s.vf src)

/-- A source is enabled for a target. -/
def enabled (s : TestIntSys) (irq src : Nat) : Bool := bit s.irq.mem (enableBit s.vf irq src)

/-- Bit 0 of `TARGET_SOFT`. -/
def softTarget (s : TestIntSys) (irq : Nat) : Bool := bit s.irq.mem (8 * targetSoft s.vf irq)

/-- `MT_IOCTL_TRIG_INT` of a source in range. -/
def doTrig (s : TestIntSys) (src : Nat) : TestIntSys :=
  let r := s.irq.trigInt s.vf src
  { s with
    irq := r.2
    accepted := if r.1 = true then s.accepted ++ [src] else s.accepted }

/-- An interrupt, whose claim register is set by then. -/
def doInterrupt (s : TestIntSys) (irq : Nat) (claim : U32) (r : MrgRegs) : TestIntSys :=
  { s with irq := (handler s.vf r irq (s.irq.writel claim (targetClaim s.vf irq))).1 }

/-- `MT_IOCTL_WAIT_INT` of a completion in range. -/
def doWait (s : TestIntSys) (irq : Nat) : TestIntSys :=
  { s with waited := if 0 < s.left irq then s.waited ++ [irq] else s.waited }

/-- The state after a step. -/
def step (s : TestIntSys) : TestIntAct → Option TestIntSys
  | .trig b0 => if s.vf = true ∧ 32 ≤ b0.toNat then some s else some (s.doTrig b0.toNat)
  | .interrupt irq claim r => some (s.doInterrupt irq claim r)
  | .wait b0 => if 32 ≤ b0.toNat then some s else some (s.doWait b0.toNat)

/-- `irq_init` has written the mux and the completions are new. -/
def Init (vf : Bool) (m₀ : Mem) (s : TestIntSys) : Prop :=
  s.vf = vf ∧ 1 ≤ s.vecNum ∧ s.vecNum ≤ targets vf ∧
    s.irq.mem = muxWritten (IrqDev.muxWrites s.vecNum (type vf)) m₀ ∧ s.irq.irqTestMode ≠ 0 ∧
    s.irq.intDone = [] ∧ s.accepted = [] ∧ s.waited = []

/-- A virtual function triggers sources that it has; the mux raises a target that is
triggered itself, or for a source that is pending and enabled, which it claims. -/
def Ok (s : TestIntSys) : TestIntAct → Prop
  | .trig b0 => s.vf = true → b0.toNat < 6 ∨ 32 ≤ b0.toNat
  | .interrupt irq claim _ =>
      irq < s.vecNum ∧ (s.softTarget irq = true ∨ claimed s.vf claim < sources s.vf ∧
        s.pending (claimed s.vf claim) = true ∧ s.enabled irq (claimed s.vf claim) = true)
  | .wait _ => True

/-! ## counting -/

/-- The sources of a target that have a property. -/
def routed (vf : Bool) (irq : Nat) (f : Nat → Bool) : Nat :=
  (List.range (sources vf)).countP fun src => target vf src = irq ∧ f src = true

/-- The sources that were pending before `irq_init` and that it does not clear. -/
def stale (vf : Bool) (m₀ : Mem) (src : Nat) : Bool :=
  vf && decide (4 ≤ src) && bit m₀ (8 * srcSoft vf src)

/-- One more element counts. -/
theorem countP_range_set {n k : Nat} (hk : k < n) {p q : Nat → Bool}
    (hne : ∀ i < n, i ≠ k → p i = q i) (hp : p k = false) (hq : q k = true) :
    (List.range n).countP q = (List.range n).countP p + 1 := by
  induction n with
  | zero => contradiction
  | succ n ih =>
      rw [List.range_succ, List.countP_append, List.countP_append, List.countP_singleton,
        List.countP_singleton]
      by_cases h : k = n
      · subst h
        have hsame : (List.range k).countP q = (List.range k).countP p :=
          List.countP_congr fun i hi => by
            have hi := List.mem_range.mp hi
            rw [hne i (by omega) hi.ne]
        rw [hsame, hp, hq]
        rfl
      · rw [ih (by omega) fun i hi => hne i (by omega), hne n (by omega) (Ne.symm h)]
        omega

/-- A source that gets a property is one more of its target, and of no other. -/
theorem routed_set {vf : Bool} {src : Nat} (hsrc : src < sources vf) {f g : Nat → Bool}
    (hne : ∀ i < sources vf, i ≠ src → f i = g i) (hf : f src = false) (hg : g src = true)
    (irq : Nat) : routed vf irq g = routed vf irq f + [target vf src].count irq := by
  by_cases h : target vf src = irq
  · rw [h, List.count_singleton_self]
    refine countP_range_set hsrc (fun i hi hne' => ?_) ?_ ?_
    · rw [hne i hi hne']
    · simp [hf]
    · simp [hg, h]
  · rw [List.count_singleton, beq_eq_false_iff_ne.mpr h]
    refine List.countP_congr fun i hi => ?_
    by_cases hsame : i = src
    · simp [hsame, h]
    · rw [hne i (List.mem_range.mp hi) hsame]

/-! ## what the steps do to the mux -/

/-- A trigger sets the bit of its source unless it is set. -/
theorem trigInt_spec (s : IrqState) (vf : Bool) (src : Nat) :
    (s.trigInt vf src).1 = !bit s.mem (8 * srcSoft vf src) ∧
      (∀ x, bit (s.trigInt vf src).2.mem x =
        (bit s.mem x || decide (x = 8 * srcSoft vf src))) ∧
      (s.trigInt vf src).2.irqTestMode = s.irqTestMode ∧
      (s.trigInt vf src).2.intDone = s.intDone := by
  have hbit : (s.readl (srcSoft vf src)).getLsbD 0 = bit s.mem (8 * srcSoft vf src) :=
    getLsbD_readl s.mem (by decide)
  rw [IrqState.trigInt, one_and, hbit]
  cases hb : bit s.mem (8 * srcSoft vf src) with
  | true =>
      refine ⟨rfl, fun x => ?_, rfl, rfl⟩
      by_cases hx : x = 8 * srcSoft vf src
      · subst hx
        exact hb.trans (by simp)
      · simp [hx]
  | false =>
      refine ⟨rfl, fun x => ?_, rfl, rfl⟩
      simp only [Bool.false_eq_true, if_false, if_true, IrqState.writel]
      rw [bit_writel]
      by_cases hin : 8 * srcSoft vf src ≤ x ∧ x < 8 * srcSoft vf src + 32
      · have h1 : (0x1 : U32).getLsbD (x - 8 * srcSoft vf src) =
            decide (x = 8 * srcSoft vf src) := by
          have h : ∀ i < 32, (0x1 : U32).getLsbD i = decide (i = 0) := by decide
          rw [h _ (by omega)]
          exact decide_eq_decide.mpr (by omega)
        rw [if_pos hin, BitVec.getLsbD_or, h1, IrqState.readl, getLsbD_readl s.mem (by omega),
          Nat.add_sub_cancel' hin.1, Bool.or_comm]
      · rw [if_neg hin, decide_eq_false (by omega), Bool.or_false]

/-- A register that is set and restored, with bit 0 of another one cleared between. -/
theorem bit_restored (m : Mem) (v : U32) {a p : Nat} (hp : p + 4 ≤ a ∨ a + 4 ≤ p) (x : Nat) :
    let m' := Bytes.writel m v a
    bit (Bytes.writel (Bytes.writel m' (0xfffffffe &&& Bytes.readl m' p) p) (Bytes.readl m a) a) x =
      (bit m x && decide (x ≠ 8 * p)) := by
  intro m'
  rw [bit_writel, bit_clear0]
  by_cases h : 8 * a ≤ x ∧ x < 8 * a + 32
  · rw [if_pos h, getLsbD_readl m (by omega), Nat.add_sub_cancel' h.1, decide_eq_true (by omega),
      Bool.and_true]
  · rw [if_neg h, bit_writel, if_neg h]

/-- The handler of a virtual function clears its source. -/
theorem bit_vgpuTh {s : IrqState} {irq : Nat} (hirq : irq < 8) (hmode : s.irqTestMode ≠ 0)
    (hsoft : bit s.mem (8 * vfMuxTargetSoft irq) = false)
    (hsrc : (s.readl (vfMuxTargetClaim irq) &&& 0x7).toNat < 6) (r : MrgRegs) :
    (pcieVgpuTh r irq s).1.intDone = s.intDone ++ [irq] ∧
      (pcieVgpuTh r irq s).1.irqTestMode = s.irqTestMode ∧
      ∀ x, bit (pcieVgpuTh r irq s).1.mem x = (bit s.mem x &&
        decide (x ≠ 8 * vfMuxSrcSoft (s.readl (vfMuxTargetClaim irq) &&& 0x7).toNat)) := by
  have hskip : ¬(0x1 &&& s.readl (vfMuxTargetSoft irq) ≠ 0) := by
    rw [one_and_ne_zero, IrqState.readl, getLsbD_readl _ (by decide), Nat.add_zero, hsoft]
    decide
  have hclaim (v : U32) : (s.writel v (vfMuxTargetSoft irq)).readl (vfMuxTargetClaim irq) =
      s.readl (vfMuxTargetClaim irq) :=
    readl_writel_of_disjoint _ _ (by simp only [vfMuxTargetClaim, vfMuxTargetSoft]; omega)
  simp only [pcieVgpuTh, if_pos hmode, if_neg hskip, hclaim, if_pos (And.intro hirq hsrc)]
  refine ⟨rfl, rfl, fun x => bit_restored s.mem _ ?_ x⟩
  simp only [vfMuxSrcSoft, vfMuxTargetSoft]
  omega

/-- The handler of the physical function clears its source, and bit 0 of the target behind its
own, which is a bit of its `TARGET_MASK`. -/
theorem bit_gpuTh {s : IrqState} {irq : Nat} (hirq : irq < 32) (hmode : s.irqTestMode ≠ 0)
    (hsoft : bit s.mem (8 * muxTargetSoft irq) = false)
    (hsrc : (s.readl (muxTargetClaim irq) &&& 0x1ff).toNat < 256) (r : MrgRegs) :
    (pcieGpuTh r irq s).1.intDone = s.intDone ++ [irq] ∧
      (pcieGpuTh r irq s).1.irqTestMode = s.irqTestMode ∧
      ∀ x, bit (pcieGpuTh r irq s).1.mem x = (bit s.mem x &&
        decide (x ≠ 8 * muxSrcSoft (s.readl (muxTargetClaim irq) &&& 0x1ff).toNat) &&
          decide (x ≠ 8 * muxTargetSoft (irq + 1))) := by
  have hclaim (v w : U32) : ((s.writel v (muxTargetMask irq)).writel w (muxTargetSoft irq)).readl
      (muxTargetClaim irq) = s.readl (muxTargetClaim irq) :=
    (readl_writel_of_disjoint _ _ (by simp only [muxTargetClaim, muxTargetSoft]; omega)).trans
      (readl_writel_of_disjoint _ _ (by simp only [muxTargetClaim, muxTargetMask]; omega))
  -- masking the target leaves bit 0 of its `TARGET_SOFT` alone
  have hskip (v : U32) : ¬(0x1 &&& (s.writel v (muxTargetMask irq)).readl (muxTargetSoft irq) =
      0x1) := by
    rw [one_and_eq_one, IrqState.readl, getLsbD_readl _ (by decide), IrqState.writel, bit_writel,
      if_neg (by rw [muxTargetMask_eq]; omega), Nat.add_zero, hsoft]
    decide
  have htest (v : U32) (a : Nat) : (s.writel v a).irqTestMode ≠ 0 := hmode
  simp only [pcieGpuTh, if_pos (htest _ _), if_neg (hskip _), hclaim,
    if_neg (Nat.not_le.mpr hirq), if_neg (Nat.not_le.mpr hsrc)]
  refine ⟨rfl, rfl, fun x => ?_⟩
  have hp : muxSrcSoft (s.readl (muxTargetClaim irq) &&& 0x1ff).toNat + 4 ≤ muxTargetSoft irq := by
    simp only [muxSrcSoft, muxTargetSoft]
    omega
  have hnext : 8 * muxTargetSoft (irq + 1) = 8 * muxTargetMask irq + 16 := by
    simp only [muxTargetSoft, muxTargetMask]
    omega
  refine (bit_writel _ _ _ x).trans ?_
  by_cases h : 8 * muxTargetMask irq ≤ x ∧ x < 8 * muxTargetMask irq + 32
  · have hsrc : x ≠ 8 * muxSrcSoft (s.readl (muxTargetClaim irq) &&& 0x1ff).toNat := by
      rw [muxTargetMask_eq] at h
      omega
    rw [if_pos h, BitVec.getLsbD_and, BitVec.getLsbD_not, getLsbD_bit16 (by omega), IrqState.readl,
      getLsbD_readl s.mem (by omega), Nat.add_sub_cancel' h.1, decide_eq_true hsrc, Bool.and_true,
      decide_eq_true (show x - 8 * muxTargetMask irq < 32 by omega), Bool.true_and, ← decide_not]
    congr 1
    exact decide_eq_decide.mpr (by omega)
  · rw [if_neg h]
    refine (bit_restored _ _ (.inl hp) x).trans ?_
    have hout : x ≠ 8 * muxTargetSoft (irq + 1) := by omega
    rw [IrqState.writel, bit_writel, if_neg h, decide_eq_true hout, Bool.and_true]

/-- The registers in front of the claims. -/
def Front (vf : Bool) (x : Nat) : Prop := x < 8 * targetClaim vf 0

theorem front_srcSoft {vf : Bool} {src : Nat} (h : src < sources vf) :
    Front vf (8 * srcSoft vf src) := by
  cases vf <;> simp only [sources, Front, srcSoft, targetClaim, cond_true, cond_false, muxSrcSoft,
    vfMuxSrcSoft, muxTargetClaim, vfMuxTargetClaim] at h ⊢ <;> omega

theorem front_targetSoft {vf : Bool} {irq : Nat} (h : irq < targets vf) :
    Front vf (8 * targetSoft vf irq) := by
  cases vf <;> simp only [targets, Front, targetSoft, targetClaim, cond_true, cond_false,
    muxTargetSoft, vfMuxTargetSoft, muxTargetClaim, vfMuxTargetClaim] at h ⊢ <;> omega

theorem front_enableBit {vf : Bool} {irq src : Nat} (hirq : irq < targets vf)
    (hsrc : src < sources vf) : Front vf (enableBit vf irq src) := by
  cases vf <;> simp only [targets, sources, Front, enableBit, targetClaim, cond_true, cond_false,
    muxEnable, vfMuxEnable, muxTargetClaim, vfMuxTargetClaim] at hirq hsrc ⊢ <;> omega

theorem enableBit_ne {vf : Bool} {irq src : Nat} (hsrc : src < sources vf) :
    (∀ i < sources vf, enableBit vf irq src ≠ 8 * srcSoft vf i) ∧
      ∀ t ≤ 32, vf = false → enableBit vf irq src ≠ 8 * targetSoft vf t := by
  cases vf <;> simp only [sources, enableBit, srcSoft, targetSoft, cond_true, cond_false,
    muxEnable, vfMuxEnable, muxSrcSoft, vfMuxSrcSoft, muxTargetSoft] at hsrc ⊢ <;>
    refine ⟨fun i hi => ?_, fun t ht hvf => ?_⟩ <;> first | omega | contradiction

theorem targetSoft_ne {vf : Bool} (t : Nat) {i : Nat} (hi : i < sources vf) :
    8 * targetSoft vf t ≠ 8 * srcSoft vf i := by
  cases vf <;> simp only [sources, srcSoft, targetSoft, cond_true, cond_false, muxSrcSoft,
    vfMuxSrcSoft, muxTargetSoft, vfMuxTargetSoft] at hi ⊢ <;> omega

theorem srcSoft_inj {vf : Bool} {i j : Nat} : 8 * srcSoft vf i = 8 * srcSoft vf j ↔ i = j := by
  cases vf <;> simp only [srcSoft, cond_true, cond_false, muxSrcSoft, vfMuxSrcSoft] <;> omega

/-- Either handler. -/
theorem handler_spec {vf : Bool} {s : IrqState} {irq : Nat} (hirq : irq < targets vf)
    (hmode : s.irqTestMode ≠ 0) (hsoft : bit s.mem (8 * targetSoft vf irq) = false)
    (hsrc : claimed vf (s.readl (targetClaim vf irq)) < sources vf) (r : MrgRegs) :
    (handler vf r irq s).1.intDone = s.intDone ++ [irq] ∧
      (handler vf r irq s).1.irqTestMode = s.irqTestMode ∧
      ∀ x, bit (handler vf r irq s).1.mem x = (bit s.mem x &&
        decide (x ≠ 8 * srcSoft vf (claimed vf (s.readl (targetClaim vf irq)))) &&
          (vf || decide (x ≠ 8 * targetSoft vf (irq + 1)))) := by
  cases vf with
  | true =>
      obtain ⟨hdone, htest, hbit⟩ := bit_vgpuTh hirq hmode hsoft hsrc r
      refine ⟨hdone, htest, fun x => ?_⟩
      rw [Bool.true_or, Bool.and_true]
      exact hbit x
  | false =>
      obtain ⟨hdone, htest, hbit⟩ := bit_gpuTh hirq hmode hsoft hsrc r
      refine ⟨hdone, htest, fun x => ?_⟩
      rw [Bool.false_or]
      exact hbit x

/-- An interrupt clears the source that it claims, and completes the target. -/
theorem interrupt_spec {vf : Bool} {s : IrqState} {irq : Nat} {claim : U32}
    (hirq : irq < targets vf) (hmode : s.irqTestMode ≠ 0)
    (hsoft : bit s.mem (8 * targetSoft vf irq) = false)
    (hsrc : claimed vf claim < sources vf) (r : MrgRegs) :
    let t := (handler vf r irq (s.writel claim (targetClaim vf irq))).1
    t.intDone = s.intDone ++ [irq] ∧ t.irqTestMode = s.irqTestMode ∧
      ∀ x, Front vf x → bit t.mem x = (bit s.mem x &&
        decide (x ≠ 8 * srcSoft vf (claimed vf claim)) &&
          (vf || decide (x ≠ 8 * targetSoft vf (irq + 1)))) := by
  have hkeep : ∀ x, Front vf x →
      bit (s.writel claim (targetClaim vf irq)).mem x = bit s.mem x := fun x hx => by
    rw [IrqState.writel, bit_writel, if_neg]
    cases vf <;> simp only [Front, targetClaim, cond_true, cond_false, muxTargetClaim,
      vfMuxTargetClaim] at hx ⊢ <;> omega
  have hread : (s.writel claim (targetClaim vf irq)).readl (targetClaim vf irq) = claim :=
    readl_writel_self _ _ _
  rw [← hkeep _ (front_targetSoft hirq)] at hsoft
  have hmode' : (s.writel claim (targetClaim vf irq)).irqTestMode ≠ 0 := hmode
  have hspec := handler_spec hirq hmode' hsoft (by rwa [hread]) r
  rw [hread] at hspec
  refine ⟨hspec.1, hspec.2.1, fun x hx => ?_⟩
  rw [hspec.2.2, hkeep x hx]

/-! ## what `irq_init` leaves -/

/-- A write goes over a bit. -/
def Covers (w : MuxWrite) (x : Nat) : Prop := 8 * w.addr ≤ x ∧ x < 8 * w.addr + 32

theorem covers_self (w : MuxWrite) : Covers w (8 * w.addr) :=
  ⟨le_rfl, Nat.lt_add_of_pos_right (by decide)⟩

/-- A bit that all the writes that go over it agree about. -/
theorem bit_muxWritten {ws : List MuxWrite} {m : Mem} {x : Nat} {b : Bool}
    (hall : ∀ w ∈ ws, Covers w x → w.val.getLsbD (x - 8 * w.addr) = b)
    (hsome : (∃ w ∈ ws, Covers w x) ∨ bit m x = b) : bit (muxWritten ws m) x = b := by
  induction ws generalizing m with
  | nil => exact hsome.resolve_left (by simp)
  | cons w ws ih =>
      rw [List.forall_mem_cons] at hall
      refine ih hall.2 ?_
      rw [bit_writel]
      by_cases hw : Covers w x
      · exact .inr ((if_pos hw).trans (hall.1 hw))
      · refine hsome.imp (fun ⟨v, hv, hx⟩ => ?_) fun hm => (if_neg hw).trans hm
        rcases List.mem_cons.mp hv with rfl | hv
        · exact absurd hx hw
        · exact ⟨v, hv, hx⟩

theorem forall_muxWrites_gpu {n : Nat} {P : MuxWrite → Prop} :
    (∀ w ∈ IrqDev.muxWrites n .gpu, P w) ↔ (∀ i < 256, P ⟨false, .srcSoft, i, 0⟩) ∧
      (∀ i < 32, P ⟨false, .targetSoft, i, 0⟩) ∧ (∀ i < 8, P ⟨false, .enable, i, 0xffffffff⟩) ∧
      ∀ i, 8 ≤ i → i < n * 8 → P ⟨false, .enable, i, 0⟩ := by
  have hrange (i : Nat) : i < 8 + (n * 8 - 8) ↔ i < 8 ∨ i < n * 8 := by omega
  simp only [IrqDev.muxWrites, List.mem_append, or_imp, forall_and, List.forall_mem_map,
    List.mem_range, List.mem_range'_1, and_imp, and_assoc]
  refine and_congr_right fun _ => and_congr_right fun _ => and_congr_right fun _ => ?_
  exact forall_congr' fun i => ⟨fun h h8 hi => h h8 (by omega), fun h h8 hi => h h8 (by omega)⟩

/-- Each target of a virtual function is enabled for the source of its number, or none. -/
theorem muxWrites_vgpu (n : Nat) : IrqDev.muxWrites n .vgpu =
    (List.range 4).map (⟨true, .srcSoft, ·, 0⟩) ++
    (List.range 8).map (⟨true, .targetSoft, ·, 0⟩) ++
    (List.range 8).map fun i => ⟨true, .enable, i, if i < 6 then BitVec.twoPow 32 i else 0⟩ := rfl

theorem forall_muxWrites_vgpu {n : Nat} {P : MuxWrite → Prop} :
    (∀ w ∈ IrqDev.muxWrites n .vgpu, P w) ↔ (∀ i < 4, P ⟨true, .srcSoft, i, 0⟩) ∧
      (∀ i < 8, P ⟨true, .targetSoft, i, 0⟩) ∧
      ∀ i < 8, P ⟨true, .enable, i, if i < 6 then BitVec.twoPow 32 i else 0⟩ := by
  simp only [muxWrites_vgpu, List.mem_append, or_imp, forall_and, List.forall_mem_map,
    List.mem_range, and_assoc]

/-- The sources are cleared, but for two of a virtual function. -/
theorem bit_srcSoft_init {vf : Bool} (n : Nat) (m : Mem) {src : Nat} (hsrc : src < sources vf) :
    bit (muxWritten (IrqDev.muxWrites n (type vf)) m) (8 * srcSoft vf src) = stale vf m src := by
  cases vf with
  | true =>
      have hsrc : src < 6 := hsrc
      refine bit_muxWritten (forall_muxWrites_vgpu.mpr ⟨fun i hi hx => ?_, fun i _ hx => ?_,
        fun i _ hx => ?_⟩) ?_
      · simp only [Covers, MuxWrite.addr, srcSoft, cond_true, vfMuxSrcSoft] at hx
        simp [stale, show ¬4 ≤ src by omega]
      · simp only [Covers, MuxWrite.addr, srcSoft, cond_true, vfMuxSrcSoft, vfMuxTargetSoft] at hx
        omega
      · simp only [Covers, MuxWrite.addr, srcSoft, cond_true, vfMuxSrcSoft, vfMuxEnable] at hx
        omega
      · by_cases h4 : 4 ≤ src
        · exact .inr (by simp [stale, h4])
        · refine .inl ⟨⟨true, .srcSoft, src, 0⟩, ?_, covers_self _⟩
          simp [type, IrqDev.muxWrites, Nat.lt_of_not_le h4]
  | false =>
      have hsrc : src < 256 := hsrc
      refine bit_muxWritten (forall_muxWrites_gpu.mpr ⟨fun i _ _ => ?_, fun i _ _ => ?_,
        fun i _ hx => ?_, fun i _ _ _ => ?_⟩) (.inl ⟨⟨false, .srcSoft, src, 0⟩, ?_, covers_self _⟩)
      · simp [stale]
      · simp [stale]
      · simp only [Covers, MuxWrite.addr, srcSoft, cond_false, muxSrcSoft, muxEnable] at hx
        omega
      · simp [stale]
      · simp [type, IrqDev.muxWrites, hsrc]

/-- No target is triggered itself. -/
theorem bit_targetSoft_init {vf : Bool} (n : Nat) (m : Mem) {irq : Nat} (hirq : irq < targets vf) :
    bit (muxWritten (IrqDev.muxWrites n (type vf)) m) (8 * targetSoft vf irq) = false := by
  cases vf with
  | true =>
      have hirq : irq < 8 := hirq
      refine bit_muxWritten (forall_muxWrites_vgpu.mpr ⟨fun i _ _ => ?_, fun i _ _ => ?_,
        fun i _ hx => ?_⟩) (.inl ⟨⟨true, .targetSoft, irq, 0⟩, ?_, covers_self _⟩)
      · simp
      · simp
      · simp only [Covers, MuxWrite.addr, targetSoft, cond_true, vfMuxTargetSoft, vfMuxEnable] at hx
        omega
      · simp [type, IrqDev.muxWrites, hirq]
  | false =>
      have hirq : irq < 32 := hirq
      refine bit_muxWritten (forall_muxWrites_gpu.mpr ⟨fun i _ _ => ?_, fun i _ _ => ?_,
        fun i _ hx => ?_, fun i _ _ _ => ?_⟩)
        (.inl ⟨⟨false, .targetSoft, irq, 0⟩, ?_, covers_self _⟩)
      · simp
      · simp
      · simp only [Covers, MuxWrite.addr, targetSoft, cond_false, muxTargetSoft, muxEnable] at hx
        omega
      · simp
      · simp [type, IrqDev.muxWrites, hirq]

/-- Each source is enabled for its target, and for no other that has a vector. -/
theorem bit_enable_init {vf : Bool} {n : Nat} (m : Mem) {irq src : Nat} (hirq : irq < n)
    (hn : n ≤ targets vf) (hsrc : src < sources vf) :
    bit (muxWritten (IrqDev.muxWrites n (type vf)) m) (enableBit vf irq src) =
      decide (irq = target vf src) := by
  cases vf with
  | true =>
      have hsrc : src < 6 := hsrc
      have hn : n ≤ 8 := hn
      refine bit_muxWritten (forall_muxWrites_vgpu.mpr ⟨fun i hi hx => ?_, fun i hi hx => ?_,
        fun i _ hx => ?_⟩) (.inl ⟨⟨true, .enable, irq, if irq < 6 then BitVec.twoPow 32 irq else 0⟩,
          ?_, Nat.le_add_right _ _, ?_⟩)
      · simp only [Covers, MuxWrite.addr, enableBit, cond_true, vfMuxSrcSoft, vfMuxEnable] at hx
        omega
      · simp only [Covers, MuxWrite.addr, enableBit, cond_true, vfMuxTargetSoft, vfMuxEnable] at hx
        omega
      · simp only [Covers, MuxWrite.addr, enableBit, cond_true, vfMuxEnable] at hx ⊢
        obtain rfl : i = irq := by omega
        rw [Nat.add_sub_cancel_left]
        split
        · rw [BitVec.getLsbD_twoPow, decide_eq_true (by omega), Bool.true_and]
          rfl
        · exact BitVec.getLsbD_zero.trans
            (decide_eq_false (by simp only [target, cond_true]; omega)).symm
      · rw [type, cond_true, muxWrites_vgpu]
        simp [show irq < 8 by omega]
      · simp only [MuxWrite.addr, enableBit, cond_true]
        omega
  | false =>
      have hsrc : src < 256 := hsrc
      have hn : n ≤ 32 := hn
      refine bit_muxWritten (forall_muxWrites_gpu.mpr ⟨fun i hi hx => ?_, fun i hi hx => ?_,
        fun i hi hx => ?_, fun i hlow hi hx => ?_⟩) (.inl ?_)
      · simp only [Covers, MuxWrite.addr, enableBit, cond_false, muxSrcSoft, muxEnable] at hx
        omega
      · simp only [Covers, MuxWrite.addr, enableBit, cond_false, muxTargetSoft, muxEnable] at hx
        omega
      · simp only [Covers, MuxWrite.addr, enableBit, cond_false, muxEnable] at hx ⊢
        have hones : ∀ k < 32, (0xffffffff : U32).getLsbD k = true := by decide
        rw [hones _ (by omega)]
        exact (decide_eq_true (by simp only [target, cond_false]; omega)).symm
      · simp only [Covers, MuxWrite.addr, enableBit, cond_false, muxEnable] at hx ⊢
        exact BitVec.getLsbD_zero.trans
          (decide_eq_false (by simp only [target, cond_false]; omega)).symm
      · by_cases h0 : irq = 0
        · refine ⟨⟨false, .enable, src / 32, 0xffffffff⟩, List.mem_append_left _
            (List.mem_append_right _ (List.mem_map.mpr ⟨src / 32, ?_, rfl⟩)), ?_⟩
          · exact List.mem_range.mpr (by omega)
          · simp only [Covers, MuxWrite.addr, enableBit, cond_false, muxEnable]
            omega
        · refine ⟨⟨false, .enable, 8 * irq + src / 32, 0⟩, List.mem_append_right _
            (List.mem_map.mpr ⟨8 * irq + src / 32, ?_, rfl⟩), ?_⟩
          · exact List.mem_range'_1.mpr ⟨by omega, by omega⟩
          · simp only [Covers, MuxWrite.addr, enableBit, cond_false]
            omega

/-! ## the invariant -/

/-- What was triggered for a target has completed it, and was waited for or not, or is pending. -/
structure Inv (vf : Bool) (m₀ : Mem) (s : TestIntSys) : Prop where
  type : s.vf = vf
  vecs : s.vecNum ≤ targets vf
  mode : s.irq.irqTestMode ≠ 0
  quiet : ∀ t < targets vf, s.softTarget t = false
  routing : ∀ t < s.vecNum, ∀ src < sources vf, s.enabled t src = decide (t = target vf src)
  waits : ∀ t, s.waited.count t ≤ s.irq.intDone.count t
  conserved : ∀ t, (s.accepted.map (target vf)).count t + routed vf t (stale vf m₀) =
    s.irq.intDone.count t + routed vf t s.pending

variable {vf : Bool} {m₀ : Mem} {s s' : TestIntSys}

theorem routed_congr {t : Nat} {f g : Nat → Bool} (h : ∀ src < sources vf, f src = g src) :
    routed vf t f = routed vf t g :=
  List.countP_congr fun src hsrc => by rw [h src (List.mem_range.mp hsrc)]

theorem inv_of_init (h : Init vf m₀ s) : s.Inv vf m₀ := by
  obtain ⟨rfl, hpos, hvecs, hmem, hmode, hdone, hacc, hwait⟩ := h
  refine ⟨rfl, hvecs, hmode, fun t ht => ?_, fun t ht src hsrc => ?_, fun t => ?_, fun t => ?_⟩
  · rw [softTarget, hmem, bit_targetSoft_init _ _ ht]
  · rw [enabled, hmem, bit_enable_init _ ht hvecs hsrc]
  · simp [hwait]
  · rw [hacc, hdone, List.map_nil, List.count_nil, Nat.zero_add, Nat.zero_add]
    refine routed_congr fun src hsrc => ?_
    rw [pending, hmem, bit_srcSoft_init _ _ hsrc]

/-- A trigger makes its source pending, unless it is. -/
theorem Inv.trig (h : s.Inv vf m₀) {src : Nat} (hsrc : src < sources vf) :
    (s.doTrig src).Inv vf m₀ := by
  obtain ⟨rfl, hvecs, hmode, hquiet, hrouting, hwaits, hcons⟩ := h
  obtain ⟨hret, hbit, htest, hdone⟩ := trigInt_spec s.irq s.vf src
  have hother : ∀ x, x ≠ 8 * srcSoft s.vf src →
      bit (s.doTrig src).irq.mem x = bit s.irq.mem x := fun x hx => by
    rw [doTrig, hbit, decide_eq_false hx, Bool.or_false]
  have hpending : ∀ i, (s.doTrig src).pending i = (s.pending i || decide (i = src)) := fun i => by
    exact (hbit _).trans (congrArg (s.pending i || ·) (decide_eq_decide.mpr srcSoft_inj))
  refine ⟨rfl, hvecs, htest.trans_ne hmode, fun t ht => ?_, fun t ht i hi => ?_, fun t => ?_,
    fun t => ?_⟩
  · exact (hother _ (targetSoft_ne t hsrc)).trans (hquiet t ht)
  · exact (hother _ ((enableBit_ne hi).1 src hsrc)).trans (hrouting t ht i hi)
  · exact (hwaits t).trans_eq (by rw [doTrig, hdone])
  · have hcons := hcons t
    have hdone' : (s.doTrig src).irq.intDone = s.irq.intDone := hdone
    rw [hdone']
    cases hb : s.pending src with
    | true =>
        have hacc : (s.doTrig src).accepted = s.accepted :=
          if_neg (by rw [hret, show bit s.irq.mem _ = true from hb]; decide)
        rw [hacc, hcons]
        congr 1
        refine (routed_congr fun i _ => (hpending i).trans ?_).symm
        by_cases hi : i = src
        · rw [hi, hb, Bool.true_or]
        · rw [decide_eq_false hi, Bool.or_false]
    | false =>
        have hacc : (s.doTrig src).accepted = s.accepted ++ [src] :=
          if_pos (by rw [hret, show bit s.irq.mem _ = false from hb]; rfl)
        have hset : routed s.vf t (s.doTrig src).pending =
            routed s.vf t s.pending + [target s.vf src].count t := by
          refine routed_set hsrc (fun i _ hi => ?_) hb ?_ t
          · rw [hpending, decide_eq_false hi, Bool.or_false]
          · rw [hpending, decide_eq_true rfl, Bool.or_true]
        rw [hacc, List.map_append, List.count_append, List.map_singleton, hset]
        omega

/-- An interrupt takes its source to a completion of its target. -/
theorem Inv.interrupt (h : s.Inv vf m₀) {irq : Nat} {claim : U32} {r : MrgRegs}
    (hok : s.Ok (.interrupt irq claim r)) : (s.doInterrupt irq claim r).Inv vf m₀ := by
  obtain ⟨rfl, hvecs, hmode, hquiet, hrouting, hwaits, hcons⟩ := h
  obtain ⟨hirq, hraised⟩ := hok
  have htarget := hirq.trans_le hvecs
  obtain ⟨hsrc, hpend, henabled⟩ := hraised.resolve_left (by rw [hquiet irq htarget]; decide)
  obtain ⟨hdone, htest, hbit⟩ := interrupt_spec htarget hmode (hquiet irq htarget) hsrc r
  have hirq' : irq = target s.vf (claimed s.vf claim) := by
    rw [hrouting irq hirq _ hsrc] at henabled
    exact of_decide_eq_true henabled
  have hpending : ∀ i < sources s.vf, (s.doInterrupt irq claim r).pending i =
      (s.pending i && decide (i ≠ claimed s.vf claim)) := fun i hi => by
    refine (hbit _ (front_srcSoft hi)).trans ?_
    rw [decide_eq_true (targetSoft_ne (irq + 1) hi).symm, Bool.or_true, Bool.and_true]
    exact congrArg (s.pending i && ·) (decide_eq_decide.mpr (not_congr srcSoft_inj))
  refine ⟨rfl, hvecs, htest.trans_ne hmode, fun t ht => ?_, fun t ht i hi => ?_, fun t => ?_,
    fun t => ?_⟩
  · refine (hbit _ (front_targetSoft ht)).trans ?_
    rw [show bit s.irq.mem (8 * targetSoft s.vf t) = false from hquiet t ht, Bool.false_and,
      Bool.false_and]
  · obtain ⟨hne, hne'⟩ : (∀ j < sources s.vf, enableBit s.vf t i ≠ 8 * srcSoft s.vf j) ∧
        ∀ j ≤ 32, s.vf = false → enableBit s.vf t i ≠ 8 * targetSoft s.vf j := enableBit_ne hi
    have hkeep : (s.vf || decide (enableBit s.vf t i ≠ 8 * targetSoft s.vf (irq + 1))) = true := by
      cases hvf : s.vf with
      | true => rfl
      | false =>
          rw [hvf] at htarget hne'
          exact decide_eq_true (hne' (irq + 1) htarget rfl)
    refine (hbit _ (front_enableBit (ht.trans_le hvecs) hi)).trans ?_
    rw [hkeep, decide_eq_true (hne _ hsrc), Bool.and_true, Bool.and_true]
    exact hrouting t ht i hi
  · rw [doInterrupt, hdone, List.count_append]
    exact (hwaits t).trans (Nat.le_add_right _ _)
  · have hset : routed s.vf t s.pending = routed s.vf t (s.doInterrupt irq claim r).pending +
        [target s.vf (claimed s.vf claim)].count t := by
      refine routed_set hsrc (fun i hi hne => ?_) ?_ hpend t
      · rw [hpending i hi, decide_eq_true hne, Bool.and_true]
      · rw [hpending _ hsrc, decide_eq_false (not_not_intro rfl), Bool.and_false]
    have hdone' : (s.doInterrupt irq claim r).irq.intDone = s.irq.intDone ++ [irq] := hdone
    have hcons := hcons t
    rw [← hirq'] at hset
    rw [hdone', List.count_append]
    exact hcons.trans (by omega)

/-- A wait takes a completion that is there. -/
theorem Inv.wait (h : s.Inv vf m₀) (irq : Nat) : (s.doWait irq).Inv vf m₀ := by
  obtain ⟨rfl, hvecs, hmode, hquiet, hrouting, hwaits, hcons⟩ := h
  refine ⟨rfl, hvecs, hmode, hquiet, hrouting, fun t => ?_, hcons⟩
  have hwait := hwaits t
  rw [doWait]
  by_cases hleft : 0 < s.left irq
  · simp only [if_pos hleft, List.count_append, List.count_singleton]
    rw [left] at hleft
    by_cases ht : irq = t
    · subst ht
      simp only [beq_self_eq_true, if_true]
      omega
    · rw [beq_eq_false_iff_ne.mpr ht]
      exact hwait
  · simp only [if_neg hleft]
    exact hwait

theorem inv_step {a : TestIntAct} (h : s.Inv vf m₀) (hok : s.Ok a) (hs : s.step a = some s') :
    s'.Inv vf m₀ := by
  cases a with
  | trig b0 =>
      simp only [step] at hs
      split at hs
      · exact Option.some.inj hs ▸ h
      · next hb0 =>
          refine Option.some.inj hs ▸ h.trig ?_
          have hlt := b0.isLt
          rw [← h.type]
          cases hvf : s.vf with
          | true =>
              have h6 := hok hvf
              simp only [hvf, true_and] at hb0
              exact h6.resolve_right hb0
          | false => exact hlt
  | interrupt irq claim r => exact Option.some.inj hs ▸ h.interrupt hok
  | wait b0 =>
      simp only [step] at hs
      split at hs
      · exact Option.some.inj hs ▸ h
      · exact Option.some.inj hs ▸ h.wait b0.toNat

/-- The claim of a source. -/
theorem claimed_ofNat {src : Nat} (h : src < sources vf) :
    claimed vf (BitVec.ofNat 32 src) = src := by
  cases vf with
  | true =>
      have h : src < 6 := h
      rw [claimed, cond_true, BitVec.toNat_and, BitVec.toNat_ofNat,
        show (0x7 : U32).toNat = 2 ^ 3 - 1 from rfl, Nat.and_two_pow_sub_one_eq_mod]
      omega
  | false =>
      have h : src < 256 := h
      rw [claimed, cond_false, BitVec.toNat_and, BitVec.toNat_ofNat,
        show (0x1ff : U32).toNat = 2 ^ 9 - 1 from rfl, Nat.and_two_pow_sub_one_eq_mod]
      omega

/-- **Conservation**: in every state of every run, the triggers that were accepted for a target,
with the sources that were not cleared, are as many as the completions that were waited for,
those that are there to wait for, and the sources still pending; and each pending source whose
target has a vector can be raised, which makes one more of them a completion. -/
theorem test_interrupts_conserved {vf : Bool} {m₀ : Mem} {s : TestIntSys}
    (h : Reaches step Ok (Init vf m₀) s) :
    (∀ irq, (s.accepted.map (target vf)).count irq + routed vf irq (stale vf m₀) =
      s.waited.count irq + s.left irq + routed vf irq s.pending) ∧
    ∀ src < sources vf, s.pending src = true → target vf src < s.vecNum → ∀ r,
      s.Ok (.interrupt (target vf src) (BitVec.ofNat 32 src) r) ∧
        (s.doInterrupt (target vf src) (BitVec.ofNat 32 src) r).left (target vf src) =
          s.left (target vf src) + 1 := by
  have hinv : s.Inv vf m₀ :=
    h.invariant (fun _ => inv_of_init) fun _ _ _ hi hok hs => inv_step hi hok hs
  refine ⟨fun irq => ?_, fun src hsrc hpend hvec r => ?_⟩
  · have hcons := hinv.conserved irq
    have hwait := hinv.waits irq
    rw [left]
    omega
  · obtain ⟨rfl, hvecs, hmode, hquiet, hrouting, hwaits, -⟩ := hinv
    have hclaim := claimed_ofNat hsrc
    have htarget := hvec.trans_le hvecs
    refine ⟨⟨hvec, .inr ⟨by rwa [hclaim], by rwa [hclaim], ?_⟩⟩, ?_⟩
    · rw [hclaim, hrouting _ hvec _ hsrc]
      exact decide_eq_true rfl
    · have hdone := (interrupt_spec htarget hmode (hquiet _ htarget)
        (show claimed s.vf (BitVec.ofNat 32 src) < _ by rwa [hclaim]) r).1
      show List.count _ _ - List.count _ s.waited = _
      rw [doInterrupt, hdone, List.count_append, List.count_singleton_self]
      exact Nat.sub_add_comm (hwaits (target s.vf src))

/-- A virtual function whose registers were all set before `irq_init`. -/
def allSet : TestIntSys where
  vf := true
  vecNum := 8
  irq := ⟨muxWritten (IrqDev.muxWrites 8 .vgpu) fun _ => 0xff,
    ⟨0, fun _ => default, fun _ => default, 0⟩, 1, []⟩
  accepted := []
  waited := []

/-- Source 2 is triggered, handled and waited for; source 4 is pending all the time. -/
theorem test_interrupts_conserved_allSet :
    let s := ((allSet.doTrig 2).doInterrupt 2 2 ⟨0, 0, 0, 0, 0⟩).doWait 2
    s.waited = [2] ∧ s.pending 4 = true ∧ ∀ irq,
      (s.accepted.map (target true)).count irq + routed true irq (stale true fun _ => 0xff) =
        s.waited.count irq + s.left irq + routed true irq s.pending := by
  have h0 : Reaches step Ok (Init true fun _ => 0xff) allSet :=
    .start ⟨rfl, by decide, by decide, rfl, by decide, rfl, rfl, rfl⟩
  have h1 := h0.step (show allSet.Ok (.trig 2) from fun _ => .inl (by decide)) rfl
  have h2 := h1.step (show (allSet.doTrig 2).Ok (.interrupt 2 2 ⟨0, 0, 0, 0, 0⟩) from
    ⟨by decide, .inr ⟨by decide, by decide +kernel, by decide +kernel⟩⟩) rfl
  have h3 := h2.step (show Ok _ (.wait 2) from trivial) rfl
  exact ⟨by decide +kernel, by decide +kernel, (test_interrupts_conserved h3).1⟩

end TestIntSys

end MtEmu
