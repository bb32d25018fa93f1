import MtEmu.Probe.Irq

/-!
# MtEmu.Probe.Rollback

The probes of the GPU, the vGPU and the APU and `emu_dmabuf_probe`, with what they give
back when a call fails.

A probe is a run over the outcomes of its calls; it leaves a result and a log of the
resources it acquired and released.  `Clean` says what a caller expects: the log is in
order; when every call succeeded the probe reports success and holds everything; when
one failed it reports failure, and all that is not device-managed was given back.

The three probes share one way out for most failures, a free function written for a
device that is up.  `probes_clean_iff` lists the outcomes for which they are clean.
-/

namespace MtEmu

open Ledger

/-! ## resources -/

/-- What the probes acquire. -/
inductive DevRes where
  | irq (r : IrqRes)
  | device
  | regions
  | emuPcie
  | misc
  | emuDmabuf
  | memRegion
  | mapping
  | coherent
  | dmabufMisc
  | chip
  | md
  | dmaWr
  | dmaRd
  | pmRuntime
  | sriov
  | rom
  deriving DecidableEq

namespace DevRes

/-- What a resource lives in or refers to.  In an ordered log it is acquired while these are
held, and released before they are. -/
def needs : DevRes → List DevRes
  | .irq .vectors => [.device, .emuPcie]
  | .irq (.irq _) => [.irq .vectors, .emuPcie]
  | .regions => [.device]
  | .misc => [.emuPcie]
  | .mapping => [.memRegion]
  | .dmabufMisc => [.emuDmabuf]
  | .dmaWr | .dmaRd => [.md]
  | _ => []

/-- A resource needs another. -/
def Needs (r q : DevRes) : Prop := q ∈ r.needs

/-- What the kernel releases when a probe fails; the device itself only when it was
enabled with `pcim_enable_device`. -/
def managed (pcim : Bool) : DevRes → Bool
  | .device => pcim
  | .regions | .emuPcie | .emuDmabuf | .chip | .md => true
  | _ => false

/-- The vectors and the interrupts of `n` of them. -/
def irqs (n : Nat) : List DevRes := .irq .vectors :: (List.range n).map fun i => .irq (.irq i)

/-- What the mapping of the DMA buffer consists of. -/
def buffer (resv : Bool) : List DevRes := if resv then [.memRegion, .mapping] else [.coherent]

end DevRes

/-- A probe under way: its interrupts and the log.  The interrupts have a log of their own,
which is part of this one (`Synced`). -/
structure ProbeState where
  irq : IrqDev
  log : List (Event DevRes)

namespace ProbeState

/-- Nothing done yet. -/
def start (type : MtEmuType) : ProbeState := ⟨.zeroed type, []⟩

/-- The resources held. -/
def held (s : ProbeState) : DevRes → Bool := after (fun _ => false) s.log

/-- The log is in order. -/
def Ordered (s : ProbeState) : Prop := Sound DevRes.Needs (fun _ => false) s.log

def acquire (s : ProbeState) (r : DevRes) : ProbeState := { s with log := s.log ++ [.acquire r] }

def release (s : ProbeState) (r : DevRes) : ProbeState := { s with log := s.log ++ [.release r] }

/-- The interrupts after a call, with its new events. -/
def setIrq (s : ProbeState) (d : IrqDev) : ProbeState :=
  ⟨d, s.log ++ (d.log.drop s.irq.log.length).map (Event.map .irq)⟩

/-- `irq_init`. -/
def irqInit (s : ProbeState) (type : Int) (o : IrqOutcome) : ProbeState × Int :=
  let r := s.irq.irqInit type 0 o
  (s.setIrq r.1, r.2)

/-- `qy_free_irq`. -/
def qyFreeIrq (s : ProbeState) : ProbeState := s.setIrq s.irq.qyFreeIrq

end ProbeState

/-- The calls of `irq_init` in a probe that asks for up to `max` vectors. -/
abbrev ProbeIrq (max : Nat) := { o : IrqOutcome // o.alloc < 0 ∨ 1 ≤ o.alloc ∧ o.alloc ≤ max }

/-! ## `emu_dmabuf_probe` -/

/-- The calls of `emu_dmabuf_probe`; `map` is `ioremap` or `dma_alloc_coherent`. -/
structure DmabufOutcome where
  kzalloc : Bool
  region : Bool
  map : Bool
  misc : Int

/-- Every call succeeds. -/
def DmabufOutcome.Ok (resv : Bool) (o : DmabufOutcome) : Prop :=
  o.kzalloc = true ∧ (resv = true → o.region = true) ∧ o.map = true ∧ o.misc = 0

/-- `emu_dmabuf_probe`: whether it returns a device. -/
def emuDmabufProbe (resv : Bool) (s : ProbeState) (o : DmabufOutcome) : Bool × ProbeState :=
  if o.kzalloc = false then (false, s)
  else
    let s := s.acquire .emuDmabuf
    if resv then
      if o.region = false then (false, s)
      else
        let s := s.acquire .memRegion
        if o.map = false then (false, s)
        else
          let s := s.acquire .mapping
          if o.misc ≠ 0 then (false, (s.release .mapping).release .memRegion)
          else (true, s.acquire .dmabufMisc)
    else
      if o.map = false then (false, s)
      else
        let s := s.acquire .coherent
        if o.misc ≠ 0 then (false, s.release .coherent)
        else (true, s.acquire .dmabufMisc)

/-- `emu_dmabuf_remove`. -/
def emuDmabufRemove (resv : Bool) (s : ProbeState) : ProbeState :=
  let s := s.release .dmabufMisc
  if resv then (s.release .mapping).release .memRegion else s.release .coherent

/-! ## `emu_mtdma_init` -/

/-- `emu_mtdma_init`, from the outcomes of its two allocations.  Both are device-managed, and it
gives nothing back itself. -/
def emuMtdmaInit (s : ProbeState) (chip md : Bool) : ProbeState × Int :=
  if chip = false then (s, -1)
  else if md = false then (s.acquire .chip, -1)
  else ((s.acquire .chip).acquire .md, 0)

/-! ## the GPU -/

/-- The calls of `pcie_emu_gpu_probe`, in order. -/
structure GpuOutcome where
  enable : Int
  regions : Int
  aer : Int
  kzalloc : Bool
  irq : ProbeIrq 32
  misc : Int
  dmabuf : DmabufOutcome
  chip : Bool
  md : Bool
  sriov : Int

/-- Every call succeeds; `pci_enable_sriov` is made when there are virtual functions. -/
def GpuOutcome.Ok (resv : Bool) (vfNum : Nat) (o : GpuOutcome) : Prop :=
  o.enable = 0 ∧ o.regions = 0 ∧ o.aer = 0 ∧ o.kzalloc = true ∧ o.irq.val.Ok ∧ o.misc = 0 ∧
    o.dmabuf.Ok resv ∧ o.chip = true ∧ o.md = true ∧ (vfNum > 0 → o.sriov = 0)

/-- What a GPU holds when it is up. -/
def gpuResources (resv : Bool) (vfNum : Nat) (o : GpuOutcome) : List DevRes :=
  [.device, .regions, .emuPcie, .misc, .emuDmabuf, .dmabufMisc, .chip, .md] ++
    DevRes.irqs o.irq.val.alloc.toNat ++ DevRes.buffer resv ++ if vfNum > 0 then [.sriov] else []

/-- `pcie_emu_gpu_free` of a device with `drvdata`; `priv` is whether `priv_data` is set.
The ROM is never mapped. -/
def pcieEmuGpuFree (resv : Bool) (s : ProbeState) (priv : Bool) : ProbeState :=
  let s := s.qyFreeIrq
  let s := if priv = true then emuDmabufRemove resv s else s
  (((s.release .misc).release .regions).release .rom).release .device

/-- `pcie_emu_gpu_probe`.  The error of `pci_enable_pcie_error_reporting` is logged, that of
`pci_enable_sriov` dropped; when `emu_dmabuf_probe` or `emu_mtdma_init` fails, `ret` is
still that of `misc_register`. -/
def pcieEmuGpuProbe (resv : Bool) (vfNum : Nat) (o : GpuOutcome) : Int × ProbeState :=
  let s := ProbeState.start .gpu
  if o.enable ≠ 0 then (o.enable, s)
  else
    let s := s.acquire .device
    if o.regions ≠ 0 then (o.regions, s)
    else
      let s := s.acquire .regions
      -- without `drvdata` the free function does nothing
      if o.kzalloc = false then (-12, s)
      else
        let (s, ret) := (s.acquire .emuPcie).irqInit 2 o.irq.val
        if ret ≠ 0 then (ret, pcieEmuGpuFree resv s false)
        else if o.misc ≠ 0 then (o.misc, pcieEmuGpuFree resv s false)
        else
          let (dmabuf, s) := emuDmabufProbe resv (s.acquire .misc) o.dmabuf
          if dmabuf = false then (o.misc, pcieEmuGpuFree resv s false)
          else
            let (s, ret) := emuMtdmaInit s o.chip o.md
            if ret ≠ 0 then (o.misc, pcieEmuGpuFree resv s true)
            else (0, if vfNum > 0 ∧ o.sriov = 0 then s.acquire .sriov else s)

/-! ## the vGPU -/

/-- The calls of `pcie_emu_vgpu_probe`, in order; `dmaWr` and `dmaRd` are the two
`dma_async_device_register`. -/
structure VgpuOutcome where
  enable : Int
  regions : Int
  kzalloc : Bool
  irq : ProbeIrq 8
  misc : Int
  chip : Bool
  md : Bool
  dmaWr : Int
  dmaRd : Int

/-- Every call succeeds. -/
def VgpuOutcome.Ok (o : VgpuOutcome) : Prop :=
  o.enable = 0 ∧ o.regions = 0 ∧ o.kzalloc = true ∧ o.irq.val.Ok ∧ o.misc = 0 ∧
    o.chip = true ∧ o.md = true ∧ o.dmaWr = 0 ∧ o.dmaRd = 0

/-- What a vGPU holds when it is up. -/
def vgpuResources (o : VgpuOutcome) : List DevRes :=
  [.device, .regions, .emuPcie, .misc, .chip, .md, .dmaWr, .dmaRd, .pmRuntime] ++
    DevRes.irqs o.irq.val.alloc.toNat

/-- `pcie_emu_vgpu_free` of a device with `drvdata`. -/
def pcieEmuVgpuFree (s : ProbeState) : ProbeState := s.qyFreeIrq.release .misc

/-- A `dma_async_device_register`. -/
def register (s : ProbeState) (r : DevRes) (err : Int) : ProbeState :=
  if err = 0 then s.acquire r else s

/-- `mtdma_probe`: the result of the second registration replaces that of the first. -/
def mtdmaProbe (s : ProbeState) (dmaWr dmaRd : Int) : ProbeState × Int :=
  let s := register (register s .dmaWr dmaWr) .dmaRd dmaRd
  if dmaRd ≠ 0 then (s, dmaRd) else (s.acquire .pmRuntime, 0)

/-- `pcie_emu_vgpu_probe`. -/
def pcieEmuVgpuProbe (o : VgpuOutcome) : Int × ProbeState :=
  let s := ProbeState.start .vgpu
  if o.enable ≠ 0 then (o.enable, s)
  else
    let s := s.acquire .device
    if o.regions ≠ 0 then (o.regions, s)
    else
      let s := s.acquire .regions
      if o.kzalloc = false then (-12, s)
      else
        let (s, ret) := (s.acquire .emuPcie).irqInit 4 o.irq.val
        if ret ≠ 0 then (ret, pcieEmuVgpuFree s)
        else if o.misc ≠ 0 then (o.misc, pcieEmuVgpuFree s)
        else
          let (s, ret) := emuMtdmaInit (s.acquire .misc) o.chip o.md
          if ret ≠ 0 then (o.misc, pcieEmuVgpuFree s)
          else
            let (s, ret) := mtdmaProbe s o.dmaWr o.dmaRd
            if ret ≠ 0 then (ret, pcieEmuVgpuFree s) else (0, s)

/-! ## the APU -/

/-- The calls of `pcie_apu_probe`, in order. -/
structure ApuOutcome where
  enable : Int
  regions : Int
  aer : Int
  kzalloc : Bool
  irq : ProbeIrq 1
  misc : Int

/-- Every call succeeds. -/
def ApuOutcome.Ok (o : ApuOutcome) : Prop :=
  o.enable = 0 ∧ o.regions = 0 ∧ o.aer = 0 ∧ o.kzalloc = true ∧ o.irq.val.Ok ∧ o.misc = 0

/-- What an APU holds when it is up. -/
def apuResources (o : ApuOutcome) : List DevRes :=
  [.device, .regions, .emuPcie, .misc] ++ DevRes.irqs o.irq.val.alloc.toNat

/-- `pcie_qy_free` of a device with `drvdata`. -/
def pcieQyFree (s : ProbeState) : ProbeState :=
  (((s.qyFreeIrq.release .emuPcie).release .misc).release .regions).release .device

/-- `pcie_apu_probe`.  Before `pci_set_drvdata` its way out releases nothing. -/
def pcieApuProbe (o : ApuOutcome) : Int × ProbeState :=
  let s := ProbeState.start .apu
  if o.enable ≠ 0 then (o.enable, s)
  else
    let s := s.acquire .device
    if o.regions ≠ 0 then (o.regions, s)
    else
      let s := s.acquire .regions
      if o.kzalloc = false then (-12, s)
      else
        let (s, ret) := (s.acquire .emuPcie).irqInit 2 o.irq.val
        if ret ≠ 0 then (ret, pcieQyFree s)
        else if o.misc ≠ 0 then (o.misc, pcieQyFree s)
        else (0, s.acquire .misc)

/-! ## clean probes -/

/-- What a caller expects of a probe that left `s`: the log is in order; when every call
succeeded (`ok`) the probe succeeds and holds all of `all`; else it fails, and all that is
not managed was given back. -/
structure Clean (pcim : Bool) (all : List DevRes) (ok success : Prop) (s : ProbeState) : Prop where
  ordered : s.Ordered
  up : ok → success ∧ ∀ r ∈ all, s.held r = true
  down : ¬ok → ¬success ∧ ∀ r, r.managed pcim = false → s.held r = false

/-! ## the state of a probe -/

namespace ProbeState

variable {s : ProbeState} {r q : DevRes}

@[simp] theorem held_start (type : MtEmuType) : (start type).held = fun _ => false := rfl

@[simp] theorem held_acquire (s : ProbeState) (r : DevRes) :
    (s.acquire r).held = Function.update s.held r true := after_append _ s.log [.acquire r]

@[simp] theorem held_release (s : ProbeState) (r : DevRes) :
    (s.release r).held = Function.update s.held r false := after_append _ s.log [.release r]

@[simp] theorem ordered_start (type : MtEmuType) : (start type).Ordered := trivial

@[simp] theorem ordered_acquire : (s.acquire r).Ordered ↔
    s.Ordered ∧ s.held r = false ∧ ∀ q ∈ r.needs, s.held q = true := by
  rw [Ordered, acquire, sound_append, sound_cons, and_iff_left sound_nil]
  rfl

theorem ordered_release : (s.release r).Ordered ↔
    s.Ordered ∧ s.held r = true ∧ ∀ q, r ∈ q.needs → s.held q = false := by
  rw [Ordered, release, sound_append, sound_cons, and_iff_left sound_nil]
  rfl

/-! ### interrupts -/

/-- The log of the probe and that of its interrupts agree. -/
structure Synced (s : ProbeState) : Prop where
  inv : s.irq.Inv
  held : ∀ r, s.held (.irq r) = s.irq.held r

theorem synced_start (type : MtEmuType) : (start type).Synced :=
  ⟨IrqDev.inv_of_init (IrqDev.init_zeroed type), fun _ => rfl⟩

theorem Synced.acquire (h : s.Synced) (hr : ∀ i, r ≠ .irq i) : (s.acquire r).Synced :=
  ⟨h.inv, fun i => by
    rw [held_acquire, Function.update_of_ne (hr i).symm]
    exact h.held i⟩

theorem irq_injective : Function.Injective DevRes.irq := fun _ _ h => DevRes.irq.inj h

/-- A call leaves the other resources alone. -/
theorem held_setIrq_other (s : ProbeState) (d : IrqDev) (hr : ∀ i, r ≠ .irq i) :
    (s.setIrq d).held r = s.held r :=
  (congrFun (after_append _ s.log _) r).trans (after_map_of_not_mem hr _)

/-- The events of a call, after those of the calls before it. -/
theorem Synced.setIrq (h : s.Synced) {d : IrqDev} (hd : d.Inv) (hlog : s.irq.log <+: d.log) :
    (s.setIrq d).Synced ∧ (s.Ordered → s.held .device = true → s.held .emuPcie = true →
      (s.setIrq d).Ordered) := by
  obtain ⟨es, hes⟩ := hlog
  have hdrop : d.log.drop s.irq.log.length = es := by rw [← hes, List.drop_left]
  have hsound : Sound IrqRes.Needs s.irq.held es := by
    have := hd.sound
    rw [← hes, sound_append] at this
    exact this.2
  constructor
  · refine ⟨hd, fun i => ?_⟩
    have heq : (s.setIrq d).held (.irq i) = after s.irq.held es i := by
      rw [ProbeState.held, ProbeState.setIrq, hdrop, after_append]
      exact after_map irq_injective h.held es i
    have hsame : d.held i = after s.irq.held es i := by
      rw [IrqDev.held, ← hes, after_append]
      rfl
    exact heq.trans hsame.symm
  · intro hs hdev hemu
    rw [Ordered, ProbeState.setIrq, hdrop, sound_append]
    refine ⟨hs, hsound.map irq_injective h.held (fun i q hq => ?_) fun i q hq => ?_⟩
    · cases i with
      | vectors =>
          rcases List.mem_cons.mp hq with rfl | hq
          · exact .inr ⟨by simp, hdev⟩
          · rw [List.mem_singleton.mp hq]
            exact .inr ⟨by simp, hemu⟩
      | irq i =>
          rcases List.mem_cons.mp hq with rfl | hq
          · exact .inl ⟨_, rfl, .irq i⟩
          · rw [List.mem_singleton.mp hq]
            exact .inr ⟨by simp, hemu⟩
    · -- only an interrupt needs the vectors
      cases q with
      | irq p =>
          cases p with
          | vectors => simp [DevRes.Needs, DevRes.needs] at hq
          | irq j =>
              simp only [DevRes.Needs, DevRes.needs, List.mem_cons, DevRes.irq.injEq, reduceCtorEq,
                List.not_mem_nil, or_false] at hq
              exact .inl ⟨_, rfl, hq ▸ .irq j⟩
      | _ => simp [DevRes.Needs, DevRes.needs] at hq

/-- The device, its regions and `emu_pcie` are there, and interrupts or none, but nothing
else. -/
structure Begun (s : ProbeState) : Prop where
  synced : s.Synced
  ordered : s.Ordered
  held : ∀ r, (∀ i, r ≠ .irq i) →
    s.held r = decide (r = .device ∨ r = .regions ∨ r = .emuPcie)

/-- The state in which every probe calls `irq_init`: the calls before it have all succeeded. -/
def begin (type : MtEmuType) : ProbeState :=
  (((start type).acquire .device).acquire .regions).acquire .emuPcie

theorem begun_begin (type : MtEmuType) : (begin type).Begun where
  synced :=
    have hdev := (synced_start type).acquire (r := .device) nofun
    have hreg := hdev.acquire (r := .regions) nofun
    hreg.acquire (r := .emuPcie) nofun
  ordered := by
    simp [begin, DevRes.needs]
  held r hr := by
    simp only [begin, held_acquire, held_start, Function.update_apply]
    by_cases hd : r = .device <;> by_cases hg : r = .regions <;> by_cases he : r = .emuPcie <;>
      simp [hd, hg, he]

/-- `irq_init` in a probe. -/
theorem Begun.irqInit (h : s.Begun) {type : Int} {o : IrqOutcome} (htype : type = 2 ∨ type = 4)
    (hok : s.irq.AllocOk (.init type 0 o)) :
    (s.irqInit type o).1.Begun ∧ ((s.irqInit type o).2 = 0 ↔ o.Ok) ∧
      (o.Ok → ∀ r ∈ DevRes.irqs o.alloc.toNat, (s.irqInit type o).1.held r = true) := by
  have hinv := h.synced.inv.irqInit type 0 hok
  obtain ⟨hret, hup⟩ := s.irq.irqInit_ok 0 htype hok
  obtain ⟨hsync, hord⟩ := h.synced.setIrq hinv (s.irq.log_irqInit type 0 o)
  refine ⟨⟨hsync, hord h.ordered ?_ ?_, fun r hr => ?_⟩, hret, fun ho r hr => ?_⟩
  · simp [h.held .device nofun]
  · simp [h.held .emuPcie nofun]
  · exact (s.held_setIrq_other _ hr).trans (h.held r hr)
  · obtain ⟨hvec, hall⟩ := hup (hret.mpr ho)
    rcases List.mem_cons.mp hr with rfl | hr
    · exact (hsync.held .vectors).trans (hinv.vectors.trans (decide_eq_true hvec))
    · obtain ⟨i, hi, rfl⟩ := List.mem_map.mp hr
      exact (hsync.held (.irq i)).trans ((hinv.irqs i).trans (hall i (List.mem_range.mp hi)))

/-- `qy_free_irq` gives all interrupts back and leaves the rest. -/
theorem Synced.qyFreeIrq (h : s.Synced) : (∀ i, s.qyFreeIrq.held (.irq i) = false) ∧
    (s.Ordered → s.held .device = true → s.held .emuPcie = true → s.qyFreeIrq.Ordered) := by
  obtain ⟨hinv, hnone⟩ := h.inv.qyFreeIrq
  obtain ⟨hsync, hord⟩ := h.setIrq hinv s.irq.log_qyFreeIrq
  refine ⟨fun i => (hsync.held i).trans ?_, hord⟩
  cases i with
  | vectors => exact hinv.vectors
  | irq i => exact (hinv.irqs i).trans (hnone i)

theorem held_qyFreeIrq_other (s : ProbeState) (hr : ∀ i, r ≠ .irq i) :
    s.qyFreeIrq.held r = s.held r := s.held_setIrq_other _ hr

end ProbeState

namespace DevRes

/-- What nothing else lives in.  Releasing one of these is in order as soon as it is held, so
that the order of a free function is checked resource by resource. -/
def Leaf (r : DevRes) : Prop := r = .mapping ∨ r = .coherent ∨ r = .misc

theorem not_mem_needs {r q : DevRes} (hr : r.Leaf) : r ∉ q.needs := by
  rcases hr with rfl | rfl | rfl
  all_goals
    cases q with
    | irq i => cases i <;> simp [needs]
    | _ => simp [needs]

/-- What the kernel does not release is none of these. -/
theorem ne_of_not_managed {r : DevRes} (h : r.managed true = false) :
    r ≠ .device ∧ r ≠ .regions ∧ r ≠ .emuPcie ∧ r ≠ .emuDmabuf ∧ r ≠ .chip ∧ r ≠ .md := by
  refine ⟨?_, ?_, ?_, ?_, ?_, ?_⟩ <;> rintro rfl <;> cases h

theorem mem_needs_memRegion {q : DevRes} : .memRegion ∈ q.needs ↔ q = .mapping := by
  cases q with
  | irq i => cases i <;> simp [needs]
  | _ => simp [needs]

end DevRes

namespace ProbeState

variable (s : ProbeState)

/-- A resource that nothing lives in can be released when it is held. -/
theorem ordered_release_leaf {r : DevRes} (hr : r.Leaf) :
    (s.release r).Ordered ↔ s.Ordered ∧ s.held r = true := by
  rw [ordered_release]
  exact and_congr_right fun _ => and_iff_left fun _ hq => absurd hq (DevRes.not_mem_needs hr)

@[simp] theorem ordered_release_mapping :
    (s.release .mapping).Ordered ↔ s.Ordered ∧ s.held .mapping = true :=
  s.ordered_release_leaf (.inl rfl)

@[simp] theorem ordered_release_coherent :
    (s.release .coherent).Ordered ↔ s.Ordered ∧ s.held .coherent = true :=
  s.ordered_release_leaf (.inr (.inl rfl))

@[simp] theorem ordered_release_misc :
    (s.release .misc).Ordered ↔ s.Ordered ∧ s.held .misc = true :=
  s.ordered_release_leaf (.inr (.inr rfl))

@[simp] theorem ordered_release_memRegion : (s.release .memRegion).Ordered ↔
    s.Ordered ∧ s.held .memRegion = true ∧ s.held .mapping = false := by
  simp only [ordered_release, DevRes.mem_needs_memRegion, forall_eq]

end ProbeState

open ProbeState

/-! ## `emu_dmabuf_probe` -/

/-- `emu_dmabuf_probe` of a fresh device is clean. -/
def DmabufClean (resv : Bool) (o : DmabufOutcome) : Prop :=
  Clean true ([.emuDmabuf, .dmabufMisc] ++ DevRes.buffer resv) (o.Ok resv)
    ((emuDmabufProbe resv (start .gpu) o).1 = true) (emuDmabufProbe resv (start .gpu) o).2

/-- What is held before the misc device is registered. -/
def mapBuffer (resv : Bool) (s : ProbeState) : ProbeState :=
  if resv = true then ((s.acquire .emuDmabuf).acquire .memRegion).acquire .mapping
  else (s.acquire .emuDmabuf).acquire .coherent

theorem emuDmabufProbe_ok {resv : Bool} {o : DmabufOutcome} (h : o.Ok resv) (s : ProbeState) :
    emuDmabufProbe resv s o = (true, (mapBuffer resv s).acquire .dmabufMisc) := by
  obtain ⟨hk, hreg, hmap, hmisc⟩ := h
  cases resv with
  | false => simp [emuDmabufProbe, mapBuffer, hk, hmap, hmisc]
  | true => simp [emuDmabufProbe, mapBuffer, hk, hreg rfl, hmap, hmisc]

/-- It returns a device when all its calls succeed. -/
theorem emuDmabufProbe_iff (resv : Bool) (s : ProbeState) (o : DmabufOutcome) :
    (emuDmabufProbe resv s o).1 = true ↔ o.Ok resv := by
  refine ⟨fun h => ?_, fun h => by rw [emuDmabufProbe_ok h]⟩
  cases resv with
  | false =>
      simp only [emuDmabufProbe, Bool.false_eq_true, ↓reduceIte] at h
      grind [DmabufOutcome.Ok]
  | true =>
      simp only [emuDmabufProbe, ↓reduceIte] at h
      grind [DmabufOutcome.Ok]

/-- A probe that failed. -/
theorem Clean.failed {pcim : Bool} {all : List DevRes} {ok success : Prop} {s : ProbeState}
    (hok : ¬ok) (hfail : ¬success) (hord : s.Ordered)
    (hheld : ∀ r, r.managed pcim = false → s.held r = false) : Clean pcim all ok success s :=
  ⟨hord, fun h => absurd h hok, fun _ => ⟨hfail, hheld⟩⟩

/-- With the buffer reserved, it leaves the region behind when `ioremap` fails. -/
theorem dmabuf_clean_iff (resv : Bool) (o : DmabufOutcome) : DmabufClean resv o ↔
    ¬(resv = true ∧ o.kzalloc = true ∧ o.region = true ∧ o.map = false) := by
  rw [DmabufClean]
  by_cases hok : o.Ok resv
  · have hmap := hok.2.2.1
    refine iff_of_true ?_ fun h => by simp [hmap] at h
    rw [emuDmabufProbe_ok hok]
    refine ⟨?_, fun _ => ⟨rfl, fun r hr => ?_⟩, fun h => absurd hok h⟩
    · cases resv <;>
        simp [mapBuffer, DevRes.needs]
    · cases resv <;> simp [DevRes.buffer] at hr <;>
        rcases hr with rfl | rfl | rfl | rfl <;> simp [mapBuffer]
  · have hfail : ¬(emuDmabufProbe resv (start .gpu) o).1 = true :=
      fun h => hok ((emuDmabufProbe_iff resv _ o).mp h)
    cases hk : o.kzalloc with
    | false =>
        -- nothing was acquired
        refine iff_of_true (.failed hok hfail ?_ ?_) (by simp)
        all_goals simp [emuDmabufProbe, hk]
    | true =>
        cases resv with
        | false =>
            refine iff_of_true (.failed hok hfail ?_ fun r hr => ?_) (by simp)
            · cases hm : o.map <;> by_cases hmisc : o.misc = 0 <;>
                simp [emuDmabufProbe, hk, hm, hmisc, DevRes.needs]
            · have he := (DevRes.ne_of_not_managed hr).2.2.2.1
              have hmisc : o.map = true → o.misc ≠ 0 := fun hm h0 => hok ⟨hk, nofun, hm, h0⟩
              cases hm : o.map
              · simp [emuDmabufProbe, hk, hm, he]
              · simp [emuDmabufProbe, hk, hm, hmisc hm, Function.update_apply, he]
        | true =>
            cases hreg : o.region with
            | false =>
                refine iff_of_true (.failed hok hfail ?_ fun r hr => ?_) (by simp)
                · simp [emuDmabufProbe, hk, hreg, DevRes.needs]
                · have he := (DevRes.ne_of_not_managed hr).2.2.2.1
                  simp [emuDmabufProbe, hk, hreg, he]
            | true =>
                cases hm : o.map with
                | false =>
                    -- the region is still held
                    refine iff_of_false (fun h => ?_) (by simp)
                    have hleak := (h.down hok).2 .memRegion rfl
                    simp [emuDmabufProbe, hk, hreg, hm] at hleak
                | true =>
                    have hmisc : o.misc ≠ 0 := fun h0 => hok ⟨hk, fun _ => hreg, hm, h0⟩
                    refine iff_of_true (.failed hok hfail ?_ fun r hr => ?_) (by simp)
                    · simp [emuDmabufProbe, hk, hreg, hm, hmisc, DevRes.needs]
                    · have he := (DevRes.ne_of_not_managed hr).2.2.2.1
                      simp [emuDmabufProbe, hk, hreg, hm, hmisc, Function.update_apply, he]
                      exact fun hne _ => hne

/-! ## before the first free function -/

/-- What was acquired before the first free function is the kernel's to release. -/
theorem clean_early {ok success : Prop} (hok : ¬ok) (hfail : ¬success) (type : MtEmuType)
    (all : List DevRes) : Clean true all ok success (start type) ∧
      Clean true all ok success ((start type).acquire .device) ∧
      Clean true all ok success (((start type).acquire .device).acquire .regions) := by
  refine ⟨.failed hok hfail trivial fun _ _ => rfl, .failed hok hfail ?_ fun r hr => ?_,
    .failed hok hfail ?_ fun r hr => ?_⟩
  · simp [DevRes.needs]
  · simp [DevRes.ne_of_not_managed hr]
  · simp [DevRes.needs]
  · simp [DevRes.ne_of_not_managed hr]

/-- A probe whose first failures are before `irq_init` is clean for them, and else when the
rest of it is. -/
theorem clean_iff_of_early (type : MtEmuType) {all : List DevRes} {ok late : Prop}
    {probe : Int × ProbeState} {enable regions : Int} {kzalloc : Bool}
    (hok : ok → enable = 0 ∧ regions = 0 ∧ kzalloc = true)
    (henable : enable ≠ 0 → probe = (enable, start type))
    (hregions : enable = 0 → regions ≠ 0 → probe = (regions, (start type).acquire .device))
    (hkzalloc : enable = 0 → regions = 0 → kzalloc = false →
      probe = (-12, ((start type).acquire .device).acquire .regions))
    (hlate : enable = 0 → regions = 0 → kzalloc = true →
      (Clean true all ok (probe.1 = 0) probe.2 ↔ late)) :
    Clean true all ok (probe.1 = 0) probe.2 ↔
      enable ≠ 0 ∨ regions ≠ 0 ∨ kzalloc = false ∨ late := by
  by_cases he : enable = 0
  · by_cases hr : regions = 0
    · cases hk : kzalloc with
      | false =>
          have hno : ¬ok := fun h => absurd ((hok h).2.2.symm.trans hk) (by decide)
          rw [hkzalloc he hr hk]
          exact iff_of_true (clean_early hno (by simp) _ _).2.2 (by simp)
      | true =>
          rw [hlate he hr hk]
          simp [he, hr]
    · rw [hregions he hr]
      exact iff_of_true (clean_early (fun h => hr (hok h).2.1) hr _ _).2.1 (.inr (.inl hr))
  · rw [henable he]
    exact iff_of_true (clean_early (fun h => he (hok h).1) he _ _).1 (.inl he)

/-- The vectors and interrupts are among the interrupts. -/
theorem mem_irqs {n : Nat} {r : DevRes} (h : r ∈ DevRes.irqs n) : ∃ i, r = .irq i := by
  rcases List.mem_cons.mp h with rfl | h
  · exact ⟨_, rfl⟩
  · obtain ⟨i, -, rfl⟩ := List.mem_map.mp h
    exact ⟨_, rfl⟩

/-- `misc_deregister` of a device that was not registered. -/
theorem not_ordered_misc {s : ProbeState} (h : s.held .misc = false) :
    ¬(s.release .misc).Ordered := by
  rw [ordered_release_misc, h]
  exact fun hbad => absurd hbad.2 Bool.false_ne_true

/-! ## the GPU -/

/-- The GPU probe is clean. -/
def GpuClean (resv : Bool) (vfNum : Nat) (o : GpuOutcome) : Prop :=
  Clean true (gpuResources resv vfNum o) (o.Ok resv vfNum) ((pcieEmuGpuProbe resv vfNum o).1 = 0)
    (pcieEmuGpuProbe resv vfNum o).2

/-- Freed without a misc device the log is out of order. -/
theorem not_ordered_gpuFree {resv : Bool} {s : ProbeState} (h : s.held .misc = false) :
    ¬(pcieEmuGpuFree resv s false).Ordered := by
  intro hord
  have hmisc := (ordered_release.mp (ordered_release.mp (ordered_release.mp hord).1).1).1
  exact not_ordered_misc ((s.held_qyFreeIrq_other (r := .misc) nofun).trans h) hmisc

/-- The probe from `irq_init` on. -/
theorem gpuProbe_begin (resv : Bool) (vfNum : Nat) {o : GpuOutcome} (he : o.enable = 0)
    (hr : o.regions = 0) (hk : o.kzalloc = true) :
    pcieEmuGpuProbe resv vfNum o =
      let (s, ret) := (begin .gpu).irqInit 2 o.irq.val
      if ret ≠ 0 then (ret, pcieEmuGpuFree resv s false)
      else if o.misc ≠ 0 then (o.misc, pcieEmuGpuFree resv s false)
      else
        let (dmabuf, s) := emuDmabufProbe resv (s.acquire .misc) o.dmabuf
        if dmabuf = false then (o.misc, pcieEmuGpuFree resv s false)
        else
          let (s, ret) := emuMtdmaInit s o.chip o.md
          if ret ≠ 0 then (o.misc, pcieEmuGpuFree resv s true)
          else (0, if vfNum > 0 ∧ o.sriov = 0 then s.acquire .sriov else s) := by
  have hk' : ¬o.kzalloc = false := by simp [hk]
  rw [pcieEmuGpuProbe, if_neg (not_not_intro he), if_neg (not_not_intro hr), if_neg hk']
  rfl

/-- What a GPU holds at the end of a probe whose calls all succeed. -/
def gpuUp (resv : Bool) (s : ProbeState) : ProbeState :=
  (((mapBuffer resv (s.acquire .misc)).acquire .dmabufMisc).acquire .chip).acquire .md

theorem ordered_gpuUp (resv : Bool) {s : ProbeState} (hs : s.Begun) :
    (gpuUp resv s).Ordered ∧ (gpuUp resv s).held .sriov = false := by
  cases resv <;> simp [gpuUp, mapBuffer, hs.ordered, hs.held, DevRes.needs]

theorem held_gpuUp {resv : Bool} {n : Nat} {s : ProbeState} (hs : s.Begun)
    (hirq : ∀ r ∈ DevRes.irqs n, s.held r = true) {r : DevRes}
    (hr : r ∈ [.device, .regions, .emuPcie, .misc, .emuDmabuf, .dmabufMisc, .chip, .md] ++
      DevRes.irqs n ++ DevRes.buffer resv) : (gpuUp resv s).held r = true := by
  rcases List.mem_append.mp hr with hr | hr
  · rcases List.mem_append.mp hr with hr | hr
    · simp only [List.mem_cons, List.not_mem_nil, or_false] at hr
      rcases hr with rfl | rfl | rfl | rfl | rfl | rfl | rfl | rfl <;> cases resv <;>
        simp [gpuUp, mapBuffer, hs.held]
    · have hheld := hirq r hr
      obtain ⟨i, rfl⟩ := mem_irqs hr
      cases resv <;> simp [gpuUp, mapBuffer, hheld]
  · cases resv
    · simp [List.mem_singleton.mp hr, gpuUp, mapBuffer]
    · rcases List.mem_pair.mp hr with rfl | rfl <;> simp [gpuUp, mapBuffer]

/-- Every call succeeds. -/
theorem gpu_clean_of_ok {resv : Bool} {vfNum : Nat} {o : GpuOutcome} (h : o.Ok resv vfNum) :
    GpuClean resv vfNum o := by
  obtain ⟨he, hr, -, hk, hirq, hmisc, hdma, hchip, hmd, hsriov⟩ := id h
  obtain ⟨hs, hret, hheld⟩ := (begun_begin .gpu).irqInit (o := o.irq.val) (.inl rfl)
    o.irq.property
  have heq : pcieEmuGpuProbe resv vfNum o =
      (0, if vfNum > 0 then (gpuUp resv ((begin .gpu).irqInit 2 o.irq.val).1).acquire .sriov
        else gpuUp resv ((begin .gpu).irqInit 2 o.irq.val).1) := by
    have hvf : (vfNum > 0 ∧ o.sriov = 0) ↔ vfNum > 0 := and_iff_left_of_imp hsriov
    simp only [gpuProbe_begin resv vfNum he hr hk, hret.mpr hirq, hmisc, emuDmabufProbe_ok hdma,
      emuMtdmaInit, hchip, hmd, hvf, gpuUp, ne_eq, not_true_eq_false, ↓reduceIte,
      Bool.true_eq_false]
  rw [GpuClean, heq]
  refine ⟨?_, fun _ => ⟨rfl, fun r hr => ?_⟩, fun hno => absurd h hno⟩
  · obtain ⟨hord, hvf⟩ := ordered_gpuUp resv hs
    split
    · simp [hord, hvf, DevRes.needs]
    · exact hord
  · rcases List.mem_append.mp hr with hr | hr
    · have hup := held_gpuUp hs (hheld hirq) hr
      split
      · simp [Function.update_apply, hup]
      · exact hup
    · split at hr
      · rw [List.mem_singleton.mp hr, if_pos ‹_›]
        simp
      · exact absurd hr List.not_mem_nil

/-- From `irq_init` on, the free function is out of order and the success is none. -/
theorem gpu_not_clean {resv : Bool} {vfNum : Nat} {o : GpuOutcome} (he : o.enable = 0)
    (hr : o.regions = 0) (hk : o.kzalloc = true) (hok : ¬o.Ok resv vfNum) :
    ¬GpuClean resv vfNum o := by
  intro h
  obtain ⟨hs, hret, -⟩ := (begun_begin .gpu).irqInit (o := o.irq.val) (.inl rfl) o.irq.property
  have heq := gpuProbe_begin resv vfNum he hr hk
  have hord := h.ordered
  have hfail := (h.down hok).1
  rw [heq] at hord hfail
  by_cases hirq : o.irq.val.Ok
  · by_cases hmisc : o.misc = 0
    · -- `ret` is still 0
      refine hfail ?_
      simp only [hret.mpr hirq, hmisc, ne_eq, not_true_eq_false, ↓reduceIte]
      split
      · rfl
      · split <;> rfl
    · simp only [hret.mpr hirq, hmisc, ne_eq, not_true_eq_false, not_false_eq_true,
        ↓reduceIte] at hord
      exact not_ordered_gpuFree (hs.held .misc nofun) hord
  · simp only [mt hret.mp hirq, ne_eq, not_false_eq_true, ↓reduceIte] at hord
    exact not_ordered_gpuFree (hs.held .misc nofun) hord

/-- The GPU probe is clean when one of its first calls fails, or none. -/
theorem gpu_clean_iff (resv : Bool) (vfNum : Nat) (o : GpuOutcome) : GpuClean resv vfNum o ↔
    o.enable ≠ 0 ∨ o.regions ≠ 0 ∨ o.kzalloc = false ∨ o.Ok resv vfNum := by
  refine clean_iff_of_early .gpu (fun h => ⟨h.1, h.2.1, h.2.2.2.1⟩) (fun he => ?_)
    (fun he hr => ?_) (fun he hr hk => ?_) fun he hr hk => ?_
  · simp [pcieEmuGpuProbe, he]
  · simp [pcieEmuGpuProbe, he, hr]
  · simp [pcieEmuGpuProbe, he, hr, hk]
  · refine ⟨fun h => ?_, gpu_clean_of_ok⟩
    by_contra hok
    exact gpu_not_clean he hr hk hok h

/-! ## the vGPU -/

/-- The vGPU probe is clean. -/
def VgpuClean (o : VgpuOutcome) : Prop :=
  Clean true (vgpuResources o) o.Ok ((pcieEmuVgpuProbe o).1 = 0) (pcieEmuVgpuProbe o).2

/-- Freed without a misc device the log is out of order. -/
theorem not_ordered_vgpuFree {s : ProbeState} (h : s.held .misc = false) :
    ¬(pcieEmuVgpuFree s).Ordered :=
  not_ordered_misc ((s.held_qyFreeIrq_other (r := .misc) nofun).trans h)

/-- The probe from `irq_init` on. -/
theorem vgpuProbe_begin {o : VgpuOutcome} (he : o.enable = 0) (hr : o.regions = 0)
    (hk : o.kzalloc = true) :
    pcieEmuVgpuProbe o =
      let (s, ret) := (begin .vgpu).irqInit 4 o.irq.val
      if ret ≠ 0 then (ret, pcieEmuVgpuFree s)
      else if o.misc ≠ 0 then (o.misc, pcieEmuVgpuFree s)
      else
        let (s, ret) := emuMtdmaInit (s.acquire .misc) o.chip o.md
        if ret ≠ 0 then (o.misc, pcieEmuVgpuFree s)
        else
          let (s, ret) := mtdmaProbe s o.dmaWr o.dmaRd
          if ret ≠ 0 then (ret, pcieEmuVgpuFree s) else (0, s) := by
  have hk' : ¬o.kzalloc = false := by simp [hk]
  rw [pcieEmuVgpuProbe, if_neg (not_not_intro he), if_neg (not_not_intro hr), if_neg hk']
  rfl

/-- A vGPU before its channels are registered. -/
def vgpuMd (s : ProbeState) : ProbeState := ((s.acquire .misc).acquire .chip).acquire .md

/-- The calls up to `emu_mtdma_init` succeed. -/
def VgpuOutcome.Registers (o : VgpuOutcome) : Prop :=
  o.enable = 0 ∧ o.regions = 0 ∧ o.kzalloc = true ∧ o.irq.val.Ok ∧ o.misc = 0 ∧
    o.chip = true ∧ o.md = true

/-- The last call of the probe. -/
theorem vgpuProbe_registers {o : VgpuOutcome} (h : o.Registers) :
    ∃ s : ProbeState, s.Begun ∧ (∀ r ∈ DevRes.irqs o.irq.val.alloc.toNat, s.held r = true) ∧
      pcieEmuVgpuProbe o =
        let (s, ret) := mtdmaProbe (vgpuMd s) o.dmaWr o.dmaRd
        if ret ≠ 0 then (ret, pcieEmuVgpuFree s) else (0, s) := by
  obtain ⟨he, hr, hk, hirq, hmisc, hchip, hmd⟩ := h
  obtain ⟨hs, hret, hheld⟩ := (begun_begin .vgpu).irqInit (o := o.irq.val) (.inr rfl)
    o.irq.property
  refine ⟨_, hs, hheld hirq, ?_⟩
  rw [vgpuProbe_begin he hr hk]
  simp only [hret.mpr hirq, hmisc, emuMtdmaInit, hchip, hmd, vgpuMd, ne_eq,
    not_true_eq_false, ↓reduceIte, Bool.true_eq_false]
  rfl

/-- Every call succeeds. -/
theorem vgpu_clean_of_ok {o : VgpuOutcome} (h : o.Ok) : VgpuClean o := by
  obtain ⟨he, hr, hk, hirq, hmisc, hchip, hmd, hwr, hrd⟩ := id h
  obtain ⟨s, hs, hheld, heq⟩ := vgpuProbe_registers ⟨he, hr, hk, hirq, hmisc, hchip, hmd⟩
  simp only [mtdmaProbe, register, hwr, hrd, ne_eq, not_true_eq_false, ↓reduceIte] at heq
  rw [VgpuClean, heq]
  refine ⟨?_, fun _ => ⟨rfl, fun r hr => ?_⟩, fun hno => absurd h hno⟩
  · simp [vgpuMd, hs.ordered, hs.held, DevRes.needs]
  · rcases List.mem_append.mp hr with hr | hr
    · simp only [List.mem_cons, List.not_mem_nil, or_false] at hr
      rcases hr with rfl | rfl | rfl | rfl | rfl | rfl | rfl | rfl | rfl <;>
        simp [vgpuMd, hs.held]
    · have hup := hheld r hr
      obtain ⟨i, rfl⟩ := mem_irqs hr
      simp [vgpuMd, hup]

/-- Neither channel is registered: the free function gives everything back. -/
theorem vgpu_clean_of_unregistered {o : VgpuOutcome} (h : o.Registers) (hwr : o.dmaWr ≠ 0)
    (hrd : o.dmaRd ≠ 0) : VgpuClean o := by
  obtain ⟨s, hs, -, heq⟩ := vgpuProbe_registers h
  simp only [mtdmaProbe, register, hwr, hrd, ne_eq, not_false_eq_true, ↓reduceIte] at heq
  have hsync : (vgpuMd s).Synced := by
    have hmisc := hs.synced.acquire (r := .misc) nofun
    have hchip := hmisc.acquire (r := .chip) nofun
    exact hchip.acquire (r := .md) nofun
  obtain ⟨hnone, hord⟩ := hsync.qyFreeIrq
  rw [VgpuClean, heq]
  refine .failed (fun hok => hwr hok.2.2.2.2.2.2.2.1) hrd ?_ fun r hr => ?_
  · rw [pcieEmuVgpuFree, ordered_release_misc]
    refine ⟨hord ?_ ?_ ?_, ?_⟩
    · simp [vgpuMd, hs.ordered, hs.held, DevRes.needs]
    · simp [vgpuMd, hs.held]
    · simp [vgpuMd, hs.held]
    · rw [held_qyFreeIrq_other (r := .misc) _ nofun]
      simp [vgpuMd]
  · rw [pcieEmuVgpuFree, held_release]
    by_cases hirq : ∃ i, r = .irq i
    · obtain ⟨i, rfl⟩ := hirq
      simp [hnone]
    · have hne : ∀ i, r ≠ .irq i := fun i hi => hirq ⟨i, hi⟩
      by_cases hm : r = .misc
      · simp [hm]
      · rw [Function.update_of_ne hm, held_qyFreeIrq_other _ hne]
        simp [vgpuMd, hm, hs.held r hne, DevRes.ne_of_not_managed hr]

/-- Any other failure from `irq_init` on: the free function is out of order, the probe
reports success, or the write channel stays registered. -/
theorem vgpu_not_clean {o : VgpuOutcome} (he : o.enable = 0) (hr : o.regions = 0)
    (hk : o.kzalloc = true) (hok : ¬o.Ok)
    (hreg : ¬(o.Registers ∧ o.dmaWr ≠ 0 ∧ o.dmaRd ≠ 0)) : ¬VgpuClean o := by
  intro h
  obtain ⟨hs, hret, -⟩ := (begun_begin .vgpu).irqInit (o := o.irq.val) (.inr rfl) o.irq.property
  have hord := h.ordered
  have hfail := h.down hok
  by_cases hup : o.Registers
  · obtain ⟨s, -, -, heq⟩ := vgpuProbe_registers hup
    by_cases hrd : o.dmaRd = 0
    · -- the second result replaces the first
      refine hfail.1 ?_
      simp only [heq, mtdmaProbe, hrd, ne_eq, not_true_eq_false, ↓reduceIte]
    · have hwr : o.dmaWr = 0 := by_contra fun hwr => hreg ⟨hup, hwr, hrd⟩
      have hleak := hfail.2 .dmaWr rfl
      simp only [heq, mtdmaProbe, register, hwr, hrd, ne_eq, not_false_eq_true, ↓reduceIte,
        pcieEmuVgpuFree, held_release] at hleak
      rw [Function.update_of_ne (by decide), held_qyFreeIrq_other (r := .dmaWr) _ nofun] at hleak
      simp at hleak
  · have heq := vgpuProbe_begin he hr hk
    rw [heq] at hord hfail
    by_cases hirq : o.irq.val.Ok
    · by_cases hmisc : o.misc = 0
      · -- `emu_mtdma_init` fails, and `ret` is still 0
        refine hfail.1 ?_
        have hmtdma : ¬(o.chip = true ∧ o.md = true) := fun hc =>
          hup ⟨he, hr, hk, hirq, hmisc, hc⟩
        simp only [hret.mpr hirq, hmisc, emuMtdmaInit, ne_eq, not_true_eq_false, ↓reduceIte]
        grind
      · simp only [hret.mpr hirq, hmisc, ne_eq, not_true_eq_false, not_false_eq_true,
          ↓reduceIte] at hord
        exact not_ordered_vgpuFree (hs.held .misc nofun) hord
    · simp only [mt hret.mp hirq, ne_eq, not_false_eq_true, ↓reduceIte] at hord
      exact not_ordered_vgpuFree (hs.held .misc nofun) hord

/-- The vGPU probe is clean when one of its first calls fails, or both registrations do, or
none. -/
theorem vgpu_clean_iff (o : VgpuOutcome) : VgpuClean o ↔
    o.enable ≠ 0 ∨ o.regions ≠ 0 ∨ o.kzalloc = false ∨ o.Ok ∨
      (o.Registers ∧ o.dmaWr ≠ 0 ∧ o.dmaRd ≠ 0) := by
  refine clean_iff_of_early .vgpu (fun h => ⟨h.1, h.2.1, h.2.2.1⟩) (fun he => ?_)
    (fun he hr => ?_) (fun he hr hk => ?_) fun he hr hk => ?_
  · simp [pcieEmuVgpuProbe, he]
  · simp [pcieEmuVgpuProbe, he, hr]
  · simp [pcieEmuVgpuProbe, he, hr, hk]
  · refine ⟨fun h => ?_, ?_⟩
    · by_contra hnone
      obtain ⟨hok, hreg⟩ := not_or.mp hnone
      exact vgpu_not_clean he hr hk hok hreg h
    · rintro (hok | ⟨hreg, hwr, hrd⟩)
      · exact vgpu_clean_of_ok hok
      · exact vgpu_clean_of_unregistered hreg hwr hrd

/-! ## the APU -/

/-- The APU probe is clean; the kernel does not disable its device. -/
def ApuClean (o : ApuOutcome) : Prop :=
  Clean false (apuResources o) o.Ok ((pcieApuProbe o).1 = 0) (pcieApuProbe o).2

/-- The probe from `irq_init` on. -/
theorem apuProbe_begin {o : ApuOutcome} (he : o.enable = 0) (hr : o.regions = 0)
    (hk : o.kzalloc = true) :
    pcieApuProbe o =
      let (s, ret) := (begin .apu).irqInit 2 o.irq.val
      if ret ≠ 0 then (ret, pcieQyFree s)
      else if o.misc ≠ 0 then (o.misc, pcieQyFree s)
      else (0, s.acquire .misc) := by
  have hk' : ¬o.kzalloc = false := by simp [hk]
  rw [pcieApuProbe, if_neg (not_not_intro he), if_neg (not_not_intro hr), if_neg hk']
  rfl

/-- Freed without a misc device the log is out of order. -/
theorem not_ordered_qyFree {s : ProbeState} (h : s.held .misc = false) :
    ¬(pcieQyFree s).Ordered := by
  intro hord
  have hmisc := (ordered_release.mp (ordered_release.mp hord).1).1
  refine not_ordered_misc ?_ hmisc
  rw [held_release, Function.update_of_ne (by decide), held_qyFreeIrq_other (r := .misc) _ nofun]
  exact h

/-- Every call succeeds. -/
theorem apu_clean_of_ok {o : ApuOutcome} (h : o.Ok) : ApuClean o := by
  obtain ⟨he, hr, -, hk, hirq, hmisc⟩ := id h
  obtain ⟨hs, hret, hheld⟩ := (begun_begin .apu).irqInit (o := o.irq.val) (.inl rfl)
    o.irq.property
  have heq := apuProbe_begin he hr hk
  simp only [hret.mpr hirq, hmisc, ne_eq, not_true_eq_false, ↓reduceIte] at heq
  rw [ApuClean, heq]
  refine ⟨?_, fun _ => ⟨rfl, fun r hr => ?_⟩, fun hno => absurd h hno⟩
  · simp [hs.ordered, hs.held, DevRes.needs]
  · rcases List.mem_append.mp hr with hr | hr
    · simp only [List.mem_cons, List.not_mem_nil, or_false] at hr
      rcases hr with rfl | rfl | rfl | rfl <;> simp [hs.held]
    · have hup := hheld hirq r hr
      obtain ⟨i, rfl⟩ := mem_irqs hr
      simp [hup]

/-- The APU probe is clean when the device cannot be enabled, or every call succeeds. -/
theorem apu_clean_iff (o : ApuOutcome) : ApuClean o ↔ o.enable ≠ 0 ∨ o.Ok := by
  by_cases hok : o.Ok
  · exact iff_of_true (apu_clean_of_ok hok) (.inr hok)
  · by_cases he : o.enable = 0
    · refine iff_of_false (fun h => ?_) (by simp [he, hok])
      have hord := h.ordered
      have hfail := h.down hok
      by_cases hr : o.regions = 0
      · cases hk : o.kzalloc with
        | false =>
            have hleak := hfail.2 .device rfl
            simp [pcieApuProbe, he, hr, hk] at hleak
        | true =>
            obtain ⟨hs, hret, -⟩ := (begun_begin .apu).irqInit (o := o.irq.val) (.inl rfl)
              o.irq.property
            rw [apuProbe_begin he hr hk] at hord hfail
            by_cases hirq : o.irq.val.Ok
            · by_cases hmisc : o.misc = 0
              · refine hfail.1 ?_
                simp only [hret.mpr hirq, hmisc, ne_eq, not_true_eq_false, ↓reduceIte]
              · simp only [hret.mpr hirq, hmisc, ne_eq, not_true_eq_false, not_false_eq_true,
                  ↓reduceIte] at hord
                exact not_ordered_qyFree (hs.held .misc nofun) hord
            · simp only [mt hret.mp hirq, ne_eq, not_false_eq_true, ↓reduceIte] at hord
              exact not_ordered_qyFree (hs.held .misc nofun) hord
      · have hleak := hfail.2 .device rfl
        simp [pcieApuProbe, he, hr] at hleak
    · have heq : pcieApuProbe o = (o.enable, start .apu) := by simp [pcieApuProbe, he]
      rw [ApuClean, heq]
      exact iff_of_true (.failed hok he trivial fun _ _ => rfl) (.inl he)

/-! ## all of them -/

/-- **Roll-back**: the outcomes for which each probe is clean. -/
theorem probes_clean_iff (resv : Bool) (vfNum : Nat) (gpu : GpuOutcome) (vgpu : VgpuOutcome)
    (apu : ApuOutcome) (dmabuf : DmabufOutcome) :
    (GpuClean resv vfNum gpu ↔
      gpu.enable ≠ 0 ∨ gpu.regions ≠ 0 ∨ gpu.kzalloc = false ∨ gpu.Ok resv vfNum) ∧
    (VgpuClean vgpu ↔
      vgpu.enable ≠ 0 ∨ vgpu.regions ≠ 0 ∨ vgpu.kzalloc = false ∨ vgpu.Ok ∨
        (vgpu.Registers ∧ vgpu.dmaWr ≠ 0 ∧ vgpu.dmaRd ≠ 0)) ∧
    (ApuClean apu ↔ apu.enable ≠ 0 ∨ apu.Ok) ∧
    (DmabufClean resv dmabuf ↔ ¬(resv = true ∧ dmabuf.kzalloc = true ∧ dmabuf.region = true ∧
      dmabuf.map = false)) :=
  ⟨gpu_clean_iff resv vfNum gpu, vgpu_clean_iff vgpu, apu_clean_iff apu,
    dmabuf_clean_iff resv dmabuf⟩

/-- Only the misc device of the DMA buffer cannot be registered. -/
def noDmabuf : GpuOutcome where
  enable := 0
  regions := 0
  aer := 0
  kzalloc := true
  irq := ⟨⟨1, 40, fun _ => 0⟩, .inr (by decide)⟩
  misc := 0
  dmabuf := ⟨true, true, true, -16⟩
  chip := true
  md := true
  sriov := 0

/-- The GPU probe reports success all the same. -/
theorem gpu_probe_succeeds : ¬GpuClean true 60 noDmabuf := fun h =>
  have hok : ¬noDmabuf.Ok true 60 := fun hok =>
    absurd hok.2.2.2.2.2.2.1.2.2.2 (by decide)
  (h.down hok).1 (by decide)

end MtEmu
