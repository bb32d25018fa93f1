import MtEmu.Bare.Info

/-!
# MtEmu.Vf.DmaInfo

What the two DMA paths of a virtual function know of its channel: `mtdma_bare_init_vf` for
the bare path and `emu_mtdma_init` for the engine, both from the `dma_info` that
`pcie_emu_vgpu_probe` lets `build_dma_info_vf` fill.

The table is a local variable of the probe, and only the entry `devfn - 2` of it is set.
The bare path takes that entry, the engine the entries below the channel count, which is
entry 0.
-/

namespace MtEmu

/-! ## the two consumers -/

/-- `struct dma_bare`, with the `info` of each channel. -/
structure DmaBare where
  wrChCnt : BitVec 8
  rdChCnt : BitVec 8
  wrCh : Nat → MtdmaChanInfo
  rdCh : Nat → MtdmaChanInfo

/-- A channel of the bare path. -/
def DmaBare.ch (bare : DmaBare) : Side → Nat → MtdmaChanInfo
  | .rd => bare.rdCh
  | .wr => bare.wrCh

/-- `mtdma_bare_init_vf`.  Whatever the function's number, it has one channel, number 0. -/
def mtdmaBareInitVf (dmaBare : DmaBare) (info : MtdmaInfo) (devfn : Nat) : DmaBare :=
  let ch := devfn - 2
  { wrChCnt := info.wrChCnt
    rdChCnt := info.rdChCnt
    wrCh := Function.update dmaBare.wrCh 0 (info.wrChInfo ch)
    rdCh := Function.update dmaBare.rdCh 0 (info.rdChInfo ch) }

/-- The writes by which `mtdma_bare_init_vf` clears what is raised on a channel, for the
register `REG_DMA_CH_INTR_RAW` as `readl` has it. -/
def clearRaised (readl : U64 → U32) (info : MtdmaChanInfo) : List (U64 × U32) :=
  let raw := info.rgVaddr + 0x0C8
  if readl raw ≠ 0 then [(raw, readl raw)] else []

/-- `struct mtdma`, with the `info` of each channel. -/
structure Mtdma where
  wrChCnt : BitVec 16
  rdChCnt : BitVec 16
  wrChan : Nat → MtdmaChanInfo
  rdChan : Nat → MtdmaChanInfo

namespace Mtdma

/-- A channel of the engine. -/
def chan (md : Mtdma) : Side → Nat → MtdmaChanInfo
  | .rd => md.rdChan
  | .wr => md.wrChan

/-- `emu_mtdma_init`; `md` comes zeroed from `devm_kzalloc`. -/
def emuMtdmaInit (info : MtdmaInfo) : Mtdma :=
  let wrChCnt := info.wrChCnt.setWidth 16
  let rdChCnt := info.rdChCnt.setWidth 16
  { wrChCnt, rdChCnt
    wrChan i := if i < wrChCnt.toNat then info.wrChInfo i else default
    rdChan i := if i < rdChCnt.toNat then info.rdChInfo i else default }

end Mtdma

/-! ## the probe -/

/-- What `pcie_emu_vgpu_probe` sets up: the bare path, the engine and the writes that clear
the channel. -/
structure VgpuDma where
  bare : DmaBare
  md : Mtdma
  cleared : List (U64 × U32)

/-- The DMA part of `pcie_emu_vgpu_probe`; `stale` is what the stack held in `dma_info`. -/
def vgpuDma (readl : U64 → U32) (bar0 bar2 : U64) (stale : MtdmaInfo) (dmaBare : DmaBare)
    (devfn : Nat) : VgpuDma :=
  let dmaInfo := buildDmaInfoVf 0 bar0 bar2 stale devfn
  let bare := mtdmaBareInitVf dmaBare dmaInfo devfn
  { bare
    md := .emuMtdmaInit dmaInfo
    cleared := clearRaised readl (bare.wrCh 0) ++ clearRaised readl (bare.rdCh 0) }

/-- The registers and the list of a channel are the same. -/
def MtdmaChanInfo.SameLayout (x y : MtdmaChanInfo) : Prop :=
  x.rgVaddr = y.rgVaddr ∧ x.llVaddr = y.llVaddr ∧ x.llLaddr = y.llLaddr ∧ x.llMax = y.llMax

/-- Both paths of a function drive one channel with one list, whatever was there before. -/
def DmaPathsAgree (bar0 bar2 : U64) (devfn : Nat) : Prop :=
  ∀ (readl : U64 → U32) (stale : MtdmaInfo) (dmaBare : DmaBare) (side : Side),
    let dma := vgpuDma readl bar0 bar2 stale dmaBare devfn
    (dma.md.chan side 0).SameLayout (dma.bare.ch side 0)

/-! ## what they take -/

variable (readl : U64 → U32) (bar0 bar2 : U64) (stale : MtdmaInfo) (dmaBare : DmaBare)

/-- The bare path takes the entry of the function. -/
theorem vgpuDma_bare (devfn : Nat) (side : Side) :
    (vgpuDma readl bar0 bar2 stale dmaBare devfn).bare.ch side 0 =
      (buildDmaInfoVf 0 bar0 bar2 stale devfn).ch side (devfn - 2) := by
  cases side <;> simp [vgpuDma, mtdmaBareInitVf, DmaBare.ch, MtdmaInfo.ch]

/-- The engine takes entry 0. -/
theorem vgpuDma_md (devfn : Nat) (side : Side) :
    (vgpuDma readl bar0 bar2 stale dmaBare devfn).md.chan side 0 =
      (buildDmaInfoVf 0 bar0 bar2 stale devfn).ch side 0 := by
  cases side <;> simp [vgpuDma, Mtdma.emuMtdmaInit, Mtdma.chan, MtdmaInfo.ch, buildDmaInfoVf]

/-- `build_dma_info_vf` leaves entry 0 of every function but the first as it was. -/
theorem buildDmaInfoVf_other {ch : Nat} (h : ch ≠ 0) (side : Side) :
    (buildDmaInfoVf 0 bar0 bar2 stale (ch + 2)).ch side 0 = stale.ch side 0 := by
  cases side <;> simp [buildDmaInfoVf, MtdmaInfo.ch, Function.update_of_ne h.symm]

/-- The entry it sets. -/
theorem buildDmaInfoVf_llMax (ch : Nat) (side : Side) :
    ((buildDmaInfoVf 0 bar0 bar2 stale (ch + 2)).ch side ch).llMax = 65536 := by
  cases side <;> simp [buildDmaInfoVf, MtdmaInfo.ch, chanInfo]

/-! ## when they agree -/

/-- A zeroed table. -/
def MtdmaInfo.zeroed : MtdmaInfo := ⟨0, 0, fun _ => default, fun _ => default⟩

/-- A zeroed `struct dma_bare`. -/
def DmaBare.zeroed : DmaBare := ⟨0, 0, fun _ => default, fun _ => default⟩

/-- **Both paths, one channel**: they agree for the first virtual function only, the others'
engine takes an entry that nothing has set. -/
theorem dma_paths_agree_iff (bar0 bar2 : U64) (ch : Fin 64) :
    DmaPathsAgree bar0 bar2 (ch.val + 2) ↔ ch = 0 := by
  constructor
  · intro h
    by_contra hne
    have hch : ch.val ≠ 0 := fun h0 => hne (Fin.ext h0)
    obtain ⟨-, -, -, hmax⟩ := h (fun _ => 0) .zeroed .zeroed .wr
    rw [vgpuDma_md, vgpuDma_bare, buildDmaInfoVf_other _ _ _ hch, Nat.add_sub_cancel,
      buildDmaInfoVf_llMax] at hmax
    exact absurd hmax (by decide)
  · rintro rfl readl stale dmaBare side
    have heq := (vgpuDma_md readl bar0 bar2 stale dmaBare 2 side).trans
      (vgpuDma_bare readl bar0 bar2 stale dmaBare 2 side).symm
    refine ⟨?_, ?_, ?_, ?_⟩ <;> exact congrArg _ heq

/-- The second virtual function, `devfn = 3`, with the table zeroed. -/
theorem dma_paths_disagree : ¬DmaPathsAgree 0xffffc90000000000 0xffffc90010000000 3 := fun h =>
  absurd (h (fun _ => 0) .zeroed .zeroed .wr).1 (by decide)

end MtEmu
