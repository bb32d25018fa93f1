import MtEmu.Bare.Isr
import MtEmu.Ioctl.Dispatch
import MtEmu.Ioctl.Handlers

/-!
# MtEmu.Ioctl.Select

The values of a request that select from a table: the BAR, the interrupt, the target and
the DMA channels of `mt_test_ioctl` and `emu_dma_rw`.

`selectors` lists what a request selects, after the checks that come first; the calls of
`MtEmu.Ioctl.Dispatch` select nothing else (`calls_selected`).  A selection is sound when it
is in the table and, for a channel, when the probe has initialised it.  Of the bare path the
GPU has 64 channels, a vGPU one and the APU none.  Of the engine only a vGPU has a channel,
since `mtdma_probe` is commented out in the probe of the GPU, although `emu_mtdma_init` makes
64 semaphores and completions on both.  `misc_register` comes before all of them.

`ioctl_selectors_iff` says for which requests every selection is sound.  The BARs, the
interrupts that are waited for and the targets are checked; the channels are not, and the
sources of a vGPU are checked against 32 where it has 6.
-/

namespace MtEmu

open Bytes

/-! ## tables -/

/-- The tables; those of channels are one for each direction. -/
inductive SelTable where
  | region
  | intDone
  | intMutex
  | srcSoft
  | bareCh (side : Side)
  | sem (side : Side)
  | done (side : Side)
  deriving DecidableEq

/-- `QY_INT_SRC_MAX_NUM`. -/
def qyIntSrcMaxNum : Nat := 32

/-- The lengths of the tables; `srcSoft` are registers in front of those of the targets. -/
def SelTable.length (type : MtEmuType) : SelTable → Nat
  | .region => 7
  | .intDone | .intMutex => qyIntSrcMaxNum
  | .srcSoft => if type = .vgpu then 6 else 256
  | .bareCh _ | .sem _ | .done _ => pcieDmaChNum

/-- A selection from a table. -/
structure Sel where
  table : SelTable
  index : Nat
  deriving DecidableEq

/-! ## the channels of a device -/

/-- What is initialised: the channels of `dma_bare`, the semaphores and completions of
`struct emu_mtdma`, and the engine's channels in `struct mtdma`. -/
structure DmaReady where
  bare : Side → Nat → Bool
  sem : Side → Nat → Bool
  chan : Side → Nat → Bool

namespace DmaReady

/-- A device from `devm_kzalloc`. -/
def zeroed : DmaReady := ⟨fun _ _ => false, fun _ _ => false, fun _ _ => false⟩

/-- `mtdma_bare_init`, for the number of channels of a direction. -/
def mtdmaBareInit (cnt : Side → Nat) (r : DmaReady) : DmaReady :=
  { r with bare := fun side i => i < cnt side || r.bare side i }

/-- `mtdma_bare_init_vf`. -/
def mtdmaBareInitVf (r : DmaReady) : DmaReady :=
  { r with bare := fun side i => i = 0 || r.bare side i }

/-- `emu_mtdma_init`: all the semaphores and completions, whatever the number of channels,
and a new `struct mtdma`. -/
def emuMtdmaInit (r : DmaReady) : DmaReady :=
  { r with sem := fun _ i => i < pcieDmaChNum, chan := fun _ _ => false }

/-- `mtdma_probe`: `mtdma_channel_setup` goes over the channels of both directions. -/
def mtdmaProbe (cnt : Side → Nat) (r : DmaReady) : DmaReady :=
  { r with chan := fun side i => i < cnt side || r.chan side i }

/-- What the probe of a device does to its channels once the device can be opened.  The
probe of the GPU leaves `mtdma_probe` out. -/
def probe : MtEmuType → List (DmaReady → DmaReady)
  | .gpu => [mtdmaBareInit fun _ => 64, emuMtdmaInit]
  | .vgpu => [mtdmaBareInitVf, emuMtdmaInit, mtdmaProbe fun _ => 1]
  | .apu => []

/-- The channels after `k` of these steps. -/
def after (type : MtEmuType) (k : Nat) : DmaReady :=
  ((probe type).take k).foldl (fun r step => step r) zeroed

end DmaReady

/-- A selection is in its table, and a channel is initialised: the channel of the engine with
its semaphore and its completion. -/
def Sel.Sound (type : MtEmuType) (r : DmaReady) (s : Sel) : Prop :=
  s.index < s.table.length type ∧
    match s.table with
    | .bareCh side => r.bare side s.index = true
    | .sem side | .done side => r.sem side s.index = true ∧ r.chan side s.index = true
    | _ => True

/-! ## what a request selects -/

/-- The direction of a transfer of the engine. -/
def MtdmaRw.side (q : MtdmaRw) : Side := if q.devToMem then .wr else .rd

/-- What `emu_dma_rw` selects. -/
def MtdmaRw.selects (q : MtdmaRw) : List Sel :=
  [⟨.sem q.side, q.ch.toNat⟩, ⟨.done q.side, q.ch.toNat⟩]

/-- What a call selects. -/
def IoctlCall.selects : IoctlCall → List Sel
  | .waitForCompletion idx => [⟨.intDone, idx.toNat⟩]
  | .softInt src => [⟨.srcSoft, src.toNat⟩]
  | .dmaBareXfer side ch _ => [⟨.bareCh side, ch.toNat⟩]
  | .emuDmaRw q => q.selects
  | _ => []

namespace IoctlDev

/-- What a case of `mt_test_ioctl` selects, behind its checks. -/
def selects (d : IoctlDev) (e : IoctlEnv) (p : MtEmuParam) : MtIoctl → List Sel
  | .barRw =>
      if p.b0 ≠ 0 ∧ p.b0 ≠ 2 then []
      else if p.d0 = 0 ∨ p.d0.toNat > qyMaxRw then []
      else if e.copy.kmalloc = none then []
      else if barRd ≠ p.b1 ∧ e.copy.fromUser = none then []
      else [⟨.region, p.b0.toNat⟩]
  | .waitInt => if qyIntSrcMaxNum ≤ p.b0.toNat then [] else [⟨.intDone, p.b0.toNat⟩]
  | .trigInt =>
      if 32 ≤ p.b0.toNat ∧ d.type = .vgpu then []
      else if 256 ≤ p.b0.toNat ∧ d.type = .gpu then []
      else if 256 ≤ p.b0.toNat ∧ d.type = .apu then []
      else if d.type = .apu then []
      else [⟨.srcSoft, p.b0.toNat⟩]
  | .ipc =>
      match PciefTgt.ofB0 p.b0 with
      | none => []
      | some t => [⟨.intMutex, t.intSrc⟩, ⟨.intDone, t.intSrc⟩]
  | .mtdmaBareRw =>
      if p.d0 ≠ 44 then []
      else
        match e.bareRw with
        | none => []
        | some q =>
            let side := if q.dataDirection = 0 ∨ q.dataDirection = 1 then .rd else .wr
            [⟨.bareCh side, if e.vfNum > 0 then 0 else q.chNum.toNat⟩]
  | .mtdmaRw =>
      if p.d0 < 32 then []
      else
        match e.mtdmaRw with
        | none => []
        | some q => if p.d0.setWidth 64 ≠ 32 + q.size then [] else q.selects
  | .cfgRw | .readRom | .suspend | .resume | .getPower | .irqInit | .dmaisrSet => []

/-- What a request selects. -/
def selectors (d : IoctlDev) (e : IoctlEnv) (cmd : U32) : List Sel :=
  match e.param, mtIoctl cmd with
  | some p, some c => d.selects e p c
  | _, _ => []

end IoctlDev

/-! ## when it is sound -/

/-- The channels a device has in each direction for the bare path. -/
def MtEmuType.dmaChCnt : MtEmuType → Nat
  | .gpu => 64
  | .vgpu => 1
  | .apu => 0

/-- The channels of the engine. -/
def MtEmuType.engineChCnt : MtEmuType → Nat
  | .vgpu => 1
  | .gpu | .apu => 0

/-- A request that selects soundly, `k` steps into the probe's initialisation of the
channels. -/
def SelectsSoundly (type : MtEmuType) (k : Nat) (e : IoctlEnv) (p : MtEmuParam) : MtIoctl → Prop
  | .trigInt => type = .vgpu → p.b0.toNat < 6 ∨ 32 ≤ p.b0.toNat
  | .mtdmaBareRw => ∀ q, e.bareRw = some q → p.d0 = 44 →
      1 ≤ k ∧ (if e.vfNum > 0 then 0 else q.chNum.toNat) < type.dmaChCnt
  | .mtdmaRw => ∀ q, e.mtdmaRw = some q → 32 ≤ p.d0 → p.d0.setWidth 64 = 32 + q.size →
      3 ≤ k ∧ q.ch.toNat < type.engineChCnt
  | _ => True

/-- The channels of the bare path. -/
theorem DmaReady.after_bare (type : MtEmuType) (k : Nat) (side : Side) (i : Nat) :
    (after type k).bare side i = true ↔ 1 ≤ k ∧ i < type.dmaChCnt := by
  match type, k with
  | .gpu, 0 | .vgpu, 0 => simp [after, zeroed]
  | .gpu, 1 | .gpu, k + 2 =>
      simp [after, probe, mtdmaBareInit, emuMtdmaInit, zeroed, MtEmuType.dmaChCnt]
  | .vgpu, 1 | .vgpu, 2 | .vgpu, k + 3 =>
      simp [after, probe, mtdmaBareInitVf, emuMtdmaInit, mtdmaProbe, zeroed, MtEmuType.dmaChCnt]
  | .apu, k => simp [after, probe, zeroed, MtEmuType.dmaChCnt]

/-- The channels of the engine. -/
theorem DmaReady.after_chan (type : MtEmuType) (k : Nat) (side : Side) (i : Nat) :
    (after type k).chan side i = true ↔ 3 ≤ k ∧ i < type.engineChCnt := by
  match type, k with
  | .gpu, 0 | .vgpu, 0 => simp [after, zeroed]
  | .gpu, 1 | .gpu, k + 2 =>
      simp [after, probe, mtdmaBareInit, emuMtdmaInit, zeroed, MtEmuType.engineChCnt]
  | .vgpu, 1 | .vgpu, 2 => simp [after, probe, mtdmaBareInitVf, emuMtdmaInit, zeroed]
  | .vgpu, k + 3 => simp [after, probe, emuMtdmaInit, mtdmaProbe, MtEmuType.engineChCnt]
  | .apu, k => simp [after, probe, zeroed, MtEmuType.engineChCnt]

/-- A channel of the engine has its semaphore. -/
theorem DmaReady.sem_of_chan {type : MtEmuType} {k : Nat} {side : Side} {i : Nat}
    (h : (after type k).chan side i = true) : (after type k).sem side i = true := by
  obtain ⟨hk, hi⟩ := (after_chan type k side i).mp h
  match type, k with
  | .vgpu, k + 3 =>
      simp only [MtEmuType.engineChCnt] at hi
      simp only [after, probe, List.take_succ_cons, List.take_nil, List.foldl_cons, List.foldl_nil,
        mtdmaProbe, emuMtdmaInit, decide_eq_true_eq]
      exact hi.trans (by decide)
  | .gpu, k | .apu, k => exact absurd hi (Nat.not_lt_zero i)

/-- A channel of the bare path. -/
theorem Sel.sound_bareCh {type : MtEmuType} {k : Nat} {side : Side} {i : Nat} :
    Sel.Sound type (.after type k) ⟨.bareCh side, i⟩ ↔ 1 ≤ k ∧ i < type.dmaChCnt := by
  have hcnt : type.dmaChCnt ≤ pcieDmaChNum := by cases type <;> decide
  simp only [Sel.Sound, SelTable.length, DmaReady.after_bare]
  omega

/-- A channel of the engine. -/
theorem Sel.sound_sem {type : MtEmuType} {k : Nat} {side : Side} {i : Nat} :
    Sel.Sound type (.after type k) ⟨.sem side, i⟩ ↔ 3 ≤ k ∧ i < type.engineChCnt := by
  have hcnt : type.engineChCnt ≤ pcieDmaChNum := by cases type <;> decide
  rw [← DmaReady.after_chan type k side i]
  constructor
  · exact fun h => h.2.2
  · intro h
    have hi := ((DmaReady.after_chan type k side i).mp h).2
    exact ⟨hi.trans_le hcnt, DmaReady.sem_of_chan h, h⟩

theorem Sel.sound_done {type : MtEmuType} {k : Nat} {side : Side} {i : Nat} :
    Sel.Sound type (.after type k) ⟨.done side, i⟩ ↔ 3 ≤ k ∧ i < type.engineChCnt := Sel.sound_sem

namespace IoctlDev

variable (d : IoctlDev) (e : IoctlEnv) (p : MtEmuParam) (k : Nat)

/-- Everything a case selects is sound. -/
def AllSound (c : MtIoctl) : Prop :=
  ∀ s ∈ d.selects e p c, s.Sound d.type (.after d.type k)

/-- Only BARs 0 and 2 are let through. -/
theorem allSound_barRw : d.AllSound e p k .barRw := by
  intro s hs
  rw [selects] at hs
  split at hs
  · simp at hs
  · have hbar : p.b0.toNat < 7 := by
      rcases Classical.em (p.b0 = 0) with h0 | h0
      · rw [h0]
        decide
      · have h2 : p.b0 = 2 := by
          by_contra h2
          exact ‹¬(_ ∧ _)› ⟨h0, h2⟩
        rw [h2]
        decide
    iterate 3 split at hs; simp at hs
    rw [List.mem_singleton.mp hs]
    exact ⟨hbar, trivial⟩

theorem allSound_waitInt : d.AllSound e p k .waitInt := by
  intro s hs
  rw [selects] at hs
  split at hs
  · simp at hs
  · rw [List.mem_singleton.mp hs]
    exact ⟨Nat.lt_of_not_le ‹_›, trivial⟩

theorem allSound_ipc : d.AllSound e p k .ipc := by
  intro s hs
  rw [selects] at hs
  split at hs
  · simp at hs
  · next t _ =>
      have hsrc : t.intSrc < qyIntSrcMaxNum := by cases t <;> decide
      rcases List.mem_pair.mp hs with rfl | rfl
      · exact ⟨hsrc, trivial⟩
      · exact ⟨hsrc, trivial⟩

/-- The sources of a GPU are all the values of a byte; a vGPU has fewer than it lets through. -/
theorem allSound_trigInt :
    d.AllSound e p k .trigInt ↔ SelectsSoundly d.type k e p .trigInt := by
  have hbyte := p.b0.isLt
  rw [AllSound, selects, SelectsSoundly]
  cases htype : d.type with
  | gpu =>
      have hlen : p.b0.toNat < SelTable.srcSoft.length .gpu := hbyte
      simp [Sel.Sound, hlen, Nat.not_le.mpr hbyte]
  | apu => simp
  | vgpu =>
      have hlen : SelTable.srcSoft.length .vgpu = 6 := rfl
      by_cases hbig : 32 ≤ p.b0.toNat
      · simp [hbig]
      · simp [hbig, Sel.Sound, hlen]

theorem allSound_mtdmaBareRw :
    d.AllSound e p k .mtdmaBareRw ↔ SelectsSoundly d.type k e p .mtdmaBareRw := by
  rw [AllSound, selects, SelectsSoundly]
  by_cases hsize : p.d0 = 44
  · rw [if_neg (not_not.mpr hsize)]
    cases e.bareRw with
    | none => simp
    | some q =>
        constructor
        · rintro h q' ⟨⟩ -
          exact Sel.sound_bareCh.mp (h _ (List.mem_singleton_self _))
        · intro h s hs
          rw [List.mem_singleton.mp hs]
          exact Sel.sound_bareCh.mpr (h q rfl hsize)
  · rw [if_pos hsize]
    exact iff_of_true (by simp) fun _ _ h44 => absurd h44 hsize

theorem allSound_mtdmaRw :
    d.AllSound e p k .mtdmaRw ↔ SelectsSoundly d.type k e p .mtdmaRw := by
  rw [AllSound, selects, SelectsSoundly]
  by_cases hsmall : p.d0 < 32
  · rw [if_pos hsmall]
    exact iff_of_true (by simp) fun _ _ hge => absurd hsmall (BitVec.not_lt.mpr hge)
  · rw [if_neg hsmall]
    cases e.mtdmaRw with
    | none => simp
    | some q =>
        dsimp only
        by_cases hfit : p.d0.setWidth 64 = 32 + q.size
        · rw [if_neg (not_not.mpr hfit), MtdmaRw.selects]
          constructor
          · rintro h q' ⟨⟩ - -
            exact Sel.sound_sem.mp (h _ List.mem_cons_self)
          · intro h s hs
            have hch := h q rfl (BitVec.not_lt.mp hsmall) hfit
            rcases List.mem_pair.mp hs with rfl | rfl
            · exact Sel.sound_sem.mpr hch
            · exact Sel.sound_done.mpr hch
        · rw [if_pos hfit]
          refine iff_of_true (by simp) ?_
          rintro q' ⟨⟩ - heq
          exact absurd heq hfit

/-- The cases one by one. -/
theorem allSound_iff (c : MtIoctl) :
    d.AllSound e p k c ↔ SelectsSoundly d.type k e p c := by
  cases c with
  | barRw => exact iff_of_true (d.allSound_barRw e p k) trivial
  | waitInt => exact iff_of_true (d.allSound_waitInt e p k) trivial
  | ipc => exact iff_of_true (d.allSound_ipc e p k) trivial
  | trigInt => exact d.allSound_trigInt e p k
  | mtdmaBareRw => exact d.allSound_mtdmaBareRw e p k
  | mtdmaRw => exact d.allSound_mtdmaRw e p k
  | cfgRw | readRom | suspend | resume | getPower | irqInit | dmaisrSet =>
      exact iff_of_true (fun s hs => absurd hs (List.not_mem_nil (a := s))) trivial

/-! ## the calls -/

/-- The calls made from `d` to `d'` select from a list. -/
def SelectsFrom (ss : List Sel) (d d' : IoctlDev) : Prop :=
  ∃ cs, d'.calls = d.calls ++ cs ∧ ∀ c ∈ cs, c.selects ⊆ ss

namespace SelectsFrom

variable {ss : List Sel} {d d' d'' : IoctlDev}

/-- No calls. -/
theorem same (h : d'.calls = d.calls) : SelectsFrom ss d d' :=
  ⟨[], h.trans (List.append_nil _).symm, by simp⟩

theorem call {c : IoctlCall} (hc : c.selects ⊆ ss) (h : SelectsFrom ss d d') :
    SelectsFrom ss d (d'.call c) := by
  obtain ⟨cs, hcs, hsel⟩ := h
  refine ⟨cs ++ [c], ?_, fun c' hc' => ?_⟩
  · rw [IoctlDev.call, hcs, List.append_assoc]
  · rcases List.mem_append.mp hc' with hold | hnew
    · exact hsel c' hold
    · exact List.mem_singleton.mp hnew ▸ hc

end SelectsFrom

theorem selectsFrom_doCfgRw {r : IoctlResult} (h : d.doCfgRw e p = .ok r) :
    SelectsFrom [] d r.dev := by
  have hread : ∀ buf, SelectsFrom [] d
      (cfgTransfer (cfgReadAt p.l0) p.d0.toNat (· ≤ p.d0.toNat) (d, buf)).1 := fun buf =>
    cfgTransfer_spec (fun s : IoctlDev × Mem => SelectsFrom [] d s.1)
      (fun _ _ _ hs => hs.call (List.nil_subset _)) (.same rfl) _ _
  have hwrite : ∀ data, SelectsFrom [] d
      (cfgTransfer (cfgWriteAt p.l0 data) p.d0.toNat (· < p.d0.toNat) d) := fun data =>
    cfgTransfer_spec (fun s : IoctlDev => SelectsFrom [] d s)
      (fun len i s hs => by
        have hcall := hs.call (c := .cfg (barOff p.l0 i) len) (List.nil_subset _)
        rw [cfgWriteAt]
        split
        · exact hcall
        · exact hcall) (.same rfl) _ _
  rw [doCfgRw] at h
  split at h
  · contradiction
  · split at h
    · contradiction
    · split at h
      · exact Except.ok.inj h ▸ hread _
      · split at h
        · contradiction
        · exact Except.ok.inj h ▸ hwrite _

theorem selectsFrom_waitInt :
    SelectsFrom (d.selects e p .waitInt) d (d.doWaitInt e p).dev := by
  have hnum : qyIntSrcMaxNum = 32 := rfl
  rw [doWaitInt, selects, hnum]
  split
  · exact .same rfl
  · exact SelectsFrom.call (List.Subset.refl _) (.same rfl)

theorem selectsFrom_trigInt :
    SelectsFrom (d.selects e p .trigInt) d (d.doTrigInt e p).dev := by
  rw [doTrigInt, selects]
  iterate 4 split; exact .same rfl
  split
  · exact .same rfl
  · exact SelectsFrom.call (List.Subset.refl _) (.same rfl)

theorem selectsFrom_ipc : SelectsFrom (d.selects e p .ipc) d (d.doIpc e p).dev := by
  rw [doIpc, selects]
  cases ht : PciefTgt.ofB0 p.b0 with
  | none => exact .same rfl
  | some t =>
      have hwait : (IoctlCall.waitForCompletion p.b0).selects ⊆
          [⟨.intMutex, t.intSrc⟩, ⟨.intDone, t.intSrc⟩] := by
        rw [IoctlCall.selects, ← PciefTgt.intSrc_ofB0 ht]
        simp
      dsimp only
      split
      · exact SelectsFrom.call hwait (.same rfl)
      · exact SelectsFrom.call hwait (SelectsFrom.call (List.nil_subset _) (.same rfl))

theorem selectsFrom_mtdmaBareRw :
    SelectsFrom (d.selects e p .mtdmaBareRw) d (d.doMtdmaBareRw e p).dev := by
  rw [doMtdmaBareRw, selects]
  split
  · exact .same rfl
  · cases e.bareRw with
    | none => exact .same rfl
    | some q =>
        refine SelectsFrom.call ?_ (.same rfl)
        rw [IoctlCall.selects, apply_ite BitVec.toNat]
        exact List.Subset.refl _

theorem selectsFrom_mtdmaRw :
    SelectsFrom (d.selects e p .mtdmaRw) d (d.doMtdmaRw e p).dev := by
  rw [doMtdmaRw, selects]
  split
  · exact .same rfl
  · cases e.mtdmaRw with
    | none => exact .same rfl
    | some q =>
        dsimp only
        split
        · exact .same rfl
        · exact SelectsFrom.call (List.Subset.refl _) (.same rfl)

theorem selectsFrom_resume : SelectsFrom [] d (d.doResume e) := by
  have hcalls : SelectsFrom [] d ((d.setPowerState e 0).call .restoreState) :=
    SelectsFrom.call (List.nil_subset _) (SelectsFrom.call (List.nil_subset _) (.same rfl))
  rw [doResume]
  split
  · exact hcalls
  · exact hcalls

theorem selectsFrom_readRom : SelectsFrom [] d (d.doReadRom e).dev := by
  have hmap : SelectsFrom [] d (d.call .mapExpRom) :=
    SelectsFrom.call (List.nil_subset _) (.same rfl)
  rw [doReadRom]
  split
  · exact hmap
  · exact hmap.call (List.nil_subset _)

/-- The calls of a case select nothing but what is listed for it. -/
theorem selectsFrom_switch (c : MtIoctl) {r : IoctlResult} (h : d.switch e p (some c) = some r) :
    SelectsFrom (d.selects e p c) d r.dev := by
  cases c with
  | barRw =>
      obtain ⟨r', -, rfl⟩ := Option.map_eq_some_iff.mp h
      exact .same rfl
  | cfgRw =>
      rw [switch] at h
      cases hr : d.doCfgRw e p with
      | error r' =>
          rcases d.doCfgRw_cases e p with ⟨heq, -⟩ | ⟨r'', heq, -⟩
          · rw [heq] at h
            exact Option.some.inj h ▸ .same rfl
          · rw [hr] at heq
            contradiction
      | ok r' =>
          rw [hr] at h
          have hcalls := d.selectsFrom_doCfgRw e p hr
          exact Option.some.inj h ▸ (hcalls.call (List.nil_subset _)).call (List.nil_subset _)
  | suspend =>
      exact Option.some.inj h ▸ SelectsFrom.call (List.nil_subset _)
        (SelectsFrom.call (List.nil_subset _) (.same rfl))
  | resume => exact Option.some.inj h ▸ d.selectsFrom_resume e
  | getPower => exact Option.some.inj h ▸ .same rfl
  | waitInt => exact Option.some.inj h ▸ d.selectsFrom_waitInt e p
  | trigInt => exact Option.some.inj h ▸ d.selectsFrom_trigInt e p
  | ipc => exact Option.some.inj h ▸ d.selectsFrom_ipc e p
  | irqInit => exact Option.some.inj h ▸ SelectsFrom.call (List.nil_subset _) (.same rfl)
  | readRom => exact Option.some.inj h ▸ d.selectsFrom_readRom e
  | mtdmaBareRw => exact Option.some.inj h ▸ d.selectsFrom_mtdmaBareRw e p
  | mtdmaRw => exact Option.some.inj h ▸ d.selectsFrom_mtdmaRw e p
  | dmaisrSet => exact Option.some.inj h ▸ .same rfl

/-- The calls of a request select nothing but what is listed. -/
theorem calls_selected {cmd : U32} {r : IoctlResult} (h : d.mtTestIoctl e cmd = some r) :
    SelectsFrom (d.selectors e cmd) d r.dev := by
  rw [mtTestIoctl] at h
  rw [selectors]
  cases hp : e.param with
  | none =>
      rw [hp] at h
      exact Option.some.inj h ▸ .same rfl
  | some p =>
      rw [hp] at h
      cases hc : mtIoctl cmd with
      | none =>
          rw [hc] at h
          exact Option.some.inj h ▸ .same rfl
      | some c =>
          rw [hc] at h
          exact d.selectsFrom_switch e p c h

/-! ## all requests -/

/-- **Selectors**: everything a request selects is in its table, and its channels are
initialised, but for the following.  `MT_IOCTL_TRIG_INT` on a vGPU has to have a source
below 6, or one from 32 on, which is refused.  The channel of an accepted
`MT_IOCTL_MTDMA_BARE_RW` or `MT_IOCTL_MTDMA_RW` has to be one the device has, and the probe
has to be past its initialisation; the bare path uses channel 0 when there are virtual
functions, and of the engine only channel 0 of a vGPU is there. -/
theorem ioctl_selectors_iff (d : IoctlDev) (e : IoctlEnv) (cmd : U32) (k : Nat) :
    (∀ s ∈ d.selectors e cmd, s.Sound d.type (.after d.type k)) ↔
      ∀ p c, e.param = some p → mtIoctl cmd = some c → SelectsSoundly d.type k e p c := by
  rw [selectors]
  cases hp : e.param with
  | none => simp
  | some p =>
      cases hc : mtIoctl cmd with
      | none => simp
      | some c =>
          constructor
          · rintro h p' c' ⟨⟩ ⟨⟩
            exact (d.allSound_iff e p k c).mp h
          · intro h
            exact (d.allSound_iff e p k c).mpr (h p c rfl rfl)

/-- A request for a page on channel 64 of a GPU, `MT_IOCTL_MTDMA_RW`: nothing refuses it. -/
theorem engine_channel_unchecked :
    mtIoctl 0x80044d0a = some .mtdmaRw ∧ awake.type = .gpu ∧
      ¬∀ s ∈ awake.selectors { smooth ⟨0, 0, 0x1020, 0⟩ with
          mtdmaRw := some ⟨0x100000, 0x1000, 1, 64, 1, 0⟩ } 0x80044d0a,
        s.Sound .gpu (.after .gpu 2) := by
  refine ⟨by decide, rfl, fun h => ?_⟩
  have hsem := h ⟨.sem .rd, 64⟩ (by decide)
  exact absurd hsem.1 (by decide)

end IoctlDev

end MtEmu
