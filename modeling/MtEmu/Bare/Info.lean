import MtEmu.Bare.Isr
import MtEmu.Bare.Xfer
import Mathlib.Order.CompletePartialOrder
import Mathlib.Order.Interval.Set.Disjoint

/-!
# MtEmu.Bare.Info

Where the descriptor lists live: `build_dma_info` and `build_dma_info_vf`
(`mt-emu-mtdma-bare.c`), as the two probes call them.

Every channel and direction has a list window of 65536 descriptors in device
memory and one in host memory.  The physical function lays out all 64 channels of
both directions, a virtual function its own channel only.  All windows start at
multiples of their size, so an entry is known by its slot numbers
(`View.deviceSlot`, `View.hostSlot`).

The device slots are those of the (direction, channel) pairs
(`device_windows_sound`).  The host slots are not: `build_dma_info_vf` starts the
read windows after one write window, `off_system = 65536 * 32`, where there are
64 of them.
-/

namespace MtEmu

/-! ## the two builders -/

/-- `struct mtdma_info`. -/
structure MtdmaInfo where
  wrChCnt : BitVec 8
  rdChCnt : BitVec 8
  wrChInfo : Nat → MtdmaChanInfo
  rdChInfo : Nat → MtdmaChanInfo

/-- The entry of a channel. -/
def MtdmaInfo.ch (info : MtdmaInfo) : Side → Nat → MtdmaChanInfo
  | .rd => info.rdChInfo
  | .wr => info.wrChInfo

/-- `ll_sz`, a list window in bytes. -/
def llSz : U32 := 65536 * 32

/-- The entry of channel `i`, for the offsets `off` and `off_system` of a
direction; `rg` is the offset of the channel's registers. -/
def chanInfo (mtdmaVaddr rgVaddr llVaddr off offSystem : U64) (i rg : U32) : MtdmaChanInfo where
  llMax := 65536
  llLaddr := (llSz * i).setWidth 64 + off
  llVaddr := llVaddr + ((llSz * i).setWidth 64 + off)
  llVaddrSystem := mtdmaVaddr + offSystem + (llSz * i).setWidth 64
  llLaddrSystem := 0x000000000000 + offSystem + (llSz * i).setWidth 64
  rgVaddr := rgVaddr + rg.setWidth 64

/-- `build_dma_info`.  The loops set the entries below the channel counts, the
others stay as they are. -/
def buildDmaInfo (mtdmaVaddr rgVaddr llVaddr : U64) (wrChCnt rdChCnt : BitVec 8)
    (dmaInfo : MtdmaInfo) : MtdmaInfo where
  wrChCnt := wrChCnt
  rdChCnt := rdChCnt
  wrChInfo i :=
    if i < wrChCnt.toNat then
      chanInfo mtdmaVaddr rgVaddr llVaddr 0x80000000 0 (BitVec.ofNat 32 i)
        (0x383000 + 0x1000 * BitVec.ofNat 32 i + 0x800)
    else dmaInfo.wrChInfo i
  rdChInfo i :=
    if i < rdChCnt.toNat then
      chanInfo mtdmaVaddr rgVaddr llVaddr
        ((0x80000000 + wrChCnt.setWidth 32 * 65536 * 32 : U32).setWidth 64)
        ((wrChCnt.setWidth 32 * 65536 * 32 : U32).signExtend 64) (BitVec.ofNat 32 i)
        (0x383000 + 0x1000 * BitVec.ofNat 32 i)
    else dmaInfo.rdChInfo i

/-- `build_dma_info_vf`: the one entry of the function, `ch = devfn - 2`. -/
def buildDmaInfoVf (mtdmaVaddr rgVaddr llVaddr : U64) (dmaInfo : MtdmaInfo) (devfn : Nat) :
    MtdmaInfo :=
  let ch := devfn - 2
  { wrChCnt := 1
    rdChCnt := 1
    wrChInfo := Function.update dmaInfo.wrChInfo ch
      (chanInfo mtdmaVaddr rgVaddr llVaddr 0x80000000 0 (BitVec.ofNat 32 ch) (0x3000 + 0x800))
    rdChInfo := Function.update dmaInfo.rdChInfo ch
      (chanInfo mtdmaVaddr rgVaddr llVaddr
        ((0x80000000 + BitVec.ofNat 32 pcieDmaChNum * 65536 * 32 : U32).setWidth 64)
        ((65536 * 32 : U32).signExtend 64) (BitVec.ofNat 32 ch) 0x3000) }

/-! ## the calls of the probes -/

/-- `MTDMA_BUF_SIZE`; `resv` is the build option `DMA_RESV_MEM`. -/
def mtdmaBufSize (resv : Bool) : Nat := if resv then 0x800000000 else 4 * 1024 * 1024

/-- What the probes of the physical function and of the virtual functions work on:
the mapping of the DMA buffer, a non-empty range of kernel addresses (`ioremap`,
`dma_alloc_coherent`), the regions 0 and 2 of each function, and what the tables
held before. -/
structure Probes where
  resv : Bool
  mtdmaVaddr : U64
  kernel : 0x8000000000000000 ≤ mtdmaVaddr.toNat
  fits : mtdmaVaddr.toNat + mtdmaBufSize resv ≤ 0x10000000000000000
  pfBar0 : U64
  pfBar2 : U64
  vfBar0 : Fin 64 → U64
  vfBar2 : Fin 64 → U64
  stale : MtdmaInfo

/-- An entry that one of the functions builds: the physical function has one for
each channel, the virtual function with `devfn = ch + 2` has one for channel
`ch`. -/
inductive View where
  | pf (side : Side) (ch : Fin 64)
  | vf (side : Side) (ch : Fin 64)
  deriving DecidableEq

namespace View

/-- The direction and the channel an entry describes. -/
def pair : View → Side × Fin 64
  | pf side ch | vf side ch => (side, ch)

/-- The entry: `pcie_emu_gpu_probe` passes the mapping and
`MTDMA_MAX_WR_CH`, `MTDMA_MAX_RD_CH`, `pcie_emu_vgpu_probe` passes `NULL`. -/
def info (p : Probes) : View → MtdmaChanInfo
  | pf side ch => (buildDmaInfo p.mtdmaVaddr p.pfBar0 p.pfBar2 64 64 p.stale).ch side ch
  | vf side ch =>
      (buildDmaInfoVf 0 (p.vfBar0 ch) (p.vfBar2 ch) p.stale (ch.val + 2)).ch side ch

/-! ## slots -/

/-- The number of an entry's window in device memory. -/
def deviceSlot : View → Nat
  | pf .wr ch | vf .wr ch => ch
  | pf .rd ch | vf .rd ch => 64 + ch

theorem deviceSlot_lt (v : View) : v.deviceSlot < 128 := by
  cases v with
  | pf side ch => cases side <;> simp only [deviceSlot] <;> omega
  | vf side ch => cases side <;> simp only [deviceSlot] <;> omega

/-- The number of an entry's window in host memory: a virtual function counts
one write window before the read windows. -/
def hostSlot : View → Nat
  | pf .wr ch | vf .wr ch => ch
  | pf .rd ch => 64 + ch
  | vf .rd ch => 1 + ch

theorem hostSlot_lt (v : View) : v.hostSlot < 128 := by
  cases v with
  | pf side ch => cases side <;> simp only [hostSlot] <;> omega
  | vf side ch => cases side <;> simp only [hostSlot] <;> omega

end View

/-- The bytes of the windows before window `i` of a direction. -/
def llBefore (i : Fin 64) : U64 := (llSz * BitVec.ofNat 32 i.val).setWidth 64

@[simp] theorem llBefore_toNat (i : Fin 64) : (llBefore i).toNat = 0x200000 * i.val := by
  have hi := i.isLt
  have hsz : llSz.toNat = 0x200000 := rfl
  rw [llBefore, BitVec.toNat_setWidth, BitVec.toNat_mul, BitVec.toNat_ofNat, hsz]
  omega

namespace View

/-- The channel an entry describes. -/
def ch (v : View) : Fin 64 := v.pair.2

/-- `off`, as the two builders compute it. -/
def off (v : View) : U64 :=
  match v.pair.1 with
  | .wr => 0x80000000
  | .rd => 0x88000000

/-- `off_system`, as the two builders compute it. -/
def offSystem : View → U64
  | pf .wr _ | vf .wr _ => 0
  | pf .rd _ => 0x8000000
  | vf .rd _ => 0x200000

/-- What the probes pass as `mtdma_vaddr`. -/
def mapped (p : Probes) : View → U64
  | pf _ _ => p.mtdmaVaddr
  | vf _ _ => 0

@[simp] theorem info_llMax (p : Probes) (v : View) : (v.info p).llMax = 65536 := by
  cases v with
  | pf side ch => cases side <;> simp [info, MtdmaInfo.ch, buildDmaInfo, chanInfo]
  | vf side ch => cases side <;> simp [info, MtdmaInfo.ch, buildDmaInfoVf, chanInfo]

theorem info_llLaddr (p : Probes) (v : View) : (v.info p).llLaddr = llBefore v.ch + v.off := by
  cases v with
  | pf side ch => cases side <;> simp [info, MtdmaInfo.ch, buildDmaInfo, chanInfo] <;> rfl
  | vf side ch => cases side <;> simp [info, MtdmaInfo.ch, buildDmaInfoVf, chanInfo] <;> rfl

theorem info_llLaddrSystem (p : Probes) (v : View) :
    (v.info p).llLaddrSystem = v.offSystem + llBefore v.ch := by
  cases v with
  | pf side ch =>
    cases side <;>
      simp [info, MtdmaInfo.ch, buildDmaInfo, chanInfo, offSystem, llBefore, View.ch, pair]
  | vf side ch =>
    cases side <;>
      simp [info, MtdmaInfo.ch, buildDmaInfoVf, chanInfo, offSystem, llBefore, View.ch, pair]

theorem info_llVaddrSystem (p : Probes) (v : View) :
    (v.info p).llVaddrSystem = v.mapped p + v.offSystem + llBefore v.ch := by
  cases v with
  | pf side ch =>
    cases side <;>
      simp [info, MtdmaInfo.ch, buildDmaInfo, chanInfo, mapped, offSystem, llBefore, View.ch, pair]
  | vf side ch =>
    cases side <;>
      simp [info, MtdmaInfo.ch, buildDmaInfoVf, chanInfo, mapped, offSystem, llBefore, View.ch, pair]

/-- The device-side address of an entry's window. -/
theorem info_llLaddr_toNat (p : Probes) (v : View) :
    (v.info p).llLaddr.toNat = 0x80000000 + 0x200000 * v.deviceSlot := by
  have hch := v.ch.isLt
  rw [info_llLaddr, BitVec.toNat_add, llBefore_toNat]
  cases v with
  | pf side ch => cases side <;> simp [View.ch, pair, off, deviceSlot] at hch ⊢ <;> omega
  | vf side ch => cases side <;> simp [View.ch, pair, off, deviceSlot] at hch ⊢ <;> omega

/-- The host-side address of an entry's window. -/
theorem info_llLaddrSystem_toNat (p : Probes) (v : View) :
    (v.info p).llLaddrSystem.toNat = 0x200000 * v.hostSlot := by
  have hch := v.ch.isLt
  rw [info_llLaddrSystem, BitVec.toNat_add, llBefore_toNat]
  cases v with
  | pf side ch => cases side <;> simp [View.ch, pair, offSystem, hostSlot] at hch ⊢ <;> omega
  | vf side ch => cases side <;> simp [View.ch, pair, offSystem, hostSlot] at hch ⊢ <;> omega

end View

/-! ## windows -/

/-- The bytes of the list window that starts at `start`. -/
def MtdmaChanInfo.window (info : MtdmaChanInfo) (start : U64) : Set Nat :=
  Set.Ico start.toNat (start.toNat + info.llMax.toNat * 32)

/-- The bytes of the driver's mapping of the DMA buffer. -/
def Probes.mapping (p : Probes) : Set Nat :=
  Set.Ico p.mtdmaVaddr.toNat (p.mtdmaVaddr.toNat + mtdmaBufSize p.resv)

/-- What two entries' windows on one side should be, by the field `start` that says
where they begin: disjoint for different channels or directions, the same
otherwise. -/
def WindowsSound (p : Probes) (start : MtdmaChanInfo → U64) (v w : View) : Prop :=
  if v.pair = w.pair then start (v.info p) = start (w.info p)
  else Disjoint ((v.info p).window (start (v.info p))) ((w.info p).window (start (w.info p)))

/-- The host-side window, as the driver reaches it, lies in the mapping. -/
def HostBacked (p : Probes) (v : View) : Prop :=
  (v.info p).window (v.info p).llVaddrSystem ⊆ p.mapping

/-- Windows in a row of windows are disjoint when their numbers differ. -/
theorem window_disjoint_iff (p : Probes) (start : MtdmaChanInfo → U64) (v w : View)
    (base : Nat) (slot : View → Nat)
    (hslot : ∀ v, (start (v.info p)).toNat = base + 0x200000 * slot v) :
    Disjoint ((v.info p).window (start (v.info p))) ((w.info p).window (start (w.info p))) ↔
      slot v ≠ slot w := by
  simp only [MtdmaChanInfo.window, Set.Ico_disjoint_Ico, hslot, View.info_llMax]
  have hmax : (65536 : U32).toNat = 65536 := rfl
  rw [hmax]
  omega

/-- Windows in a row of windows are sound when their numbers tell the channels and
directions apart. -/
theorem windowsSound_iff (p : Probes) (start : MtdmaChanInfo → U64) (v w : View)
    (base : Nat) (slot : View → Nat)
    (hslot : ∀ v, (start (v.info p)).toNat = base + 0x200000 * slot v) :
    WindowsSound p start v w ↔ (slot v = slot w ↔ v.pair = w.pair) := by
  unfold WindowsSound
  by_cases hpair : v.pair = w.pair
  · rw [if_pos hpair, ← BitVec.toNat_inj, hslot, hslot]
    simp only [hpair, iff_true]
    omega
  · rw [if_neg hpair, window_disjoint_iff p start v w base slot hslot]
    simp [hpair]

/-- The device slots are those of the pairs. -/
theorem View.deviceSlot_eq_iff (v w : View) :
    v.deviceSlot = w.deviceSlot ↔ v.pair = w.pair := by
  have hv : v.deviceSlot = if v.pair.1 = .wr then v.ch.val else 64 + v.ch.val := by
    cases v with
    | pf side ch => cases side <;> rfl
    | vf side ch => cases side <;> rfl
  have hw : w.deviceSlot = if w.pair.1 = .wr then w.ch.val else 64 + w.ch.val := by
    cases w with
    | pf side ch => cases side <;> rfl
    | vf side ch => cases side <;> rfl
  have hvch := v.ch.isLt
  have hwch := w.ch.isLt
  rw [hv, hw, Prod.ext_iff, Fin.ext_iff]
  cases hvs : v.pair.1 <;> cases hws : w.pair.1 <;> simp [View.ch] at hvch hwch ⊢ <;> omega

/-- The device-side windows are sound. -/
theorem device_windows_sound (p : Probes) (v w : View) :
    WindowsSound p MtdmaChanInfo.llLaddr v w :=
  (windowsSound_iff p _ v w 0x80000000 View.deviceSlot (View.info_llLaddr_toNat p)).2
    (v.deviceSlot_eq_iff w)

namespace View

/-- The entries whose host-side window the read window of a virtual function's
channel `c` meets: the next channel's write windows, the physical function's read
window of the same channel, which is elsewhere, and from the last channel the physical
function's first read window. -/
def Clash (c : Fin 64) : View → Prop
  | pf .wr d | vf .wr d => d.val = c.val + 1
  | pf .rd d => d.val = c.val ∨ c.val = 63 ∧ d.val = 0
  | vf .rd _ => False

/-- One of the two is the read entry of a virtual function and clashes with the
other. -/
def Clashes (v w : View) : Prop :=
  (∃ c, v = vf .rd c ∧ w.Clash c) ∨ ∃ c, w = vf .rd c ∧ v.Clash c

end View

/-- The host slots are those of the pairs, clashes apart. -/
theorem View.hostSlot_eq_iff (v w : View) :
    (v.hostSlot = w.hostSlot ↔ v.pair = w.pair) ↔ ¬ v.Clashes w := by
  cases v with
  | pf side c =>
    cases w with
    | pf side' d => cases side <;> cases side' <;> grind [hostSlot, pair, Clashes, Clash, Fin.ext]
    | vf side' d => cases side <;> cases side' <;> grind [hostSlot, pair, Clashes, Clash, Fin.ext]
  | vf side c =>
    cases w with
    | pf side' d => cases side <;> cases side' <;> grind [hostSlot, pair, Clashes, Clash, Fin.ext]
    | vf side' d => cases side <;> cases side' <;> grind [hostSlot, pair, Clashes, Clash, Fin.ext]

/-- The host-side windows are sound but for the clashes. -/
theorem host_windows_sound_iff (p : Probes) (v w : View) :
    WindowsSound p MtdmaChanInfo.llLaddrSystem v w ↔ ¬ v.Clashes w := by
  have hslot : ∀ v : View, (v.info p).llLaddrSystem.toNat = 0 + 0x200000 * v.hostSlot := by
    intro v
    rw [View.info_llLaddrSystem_toNat, Nat.zero_add]
  rw [windowsSound_iff p _ v w 0 View.hostSlot hslot, View.hostSlot_eq_iff]

/-- Where the driver reaches an entry's host-side window. -/
theorem View.info_llVaddrSystem_toNat (p : Probes) (v : View) :
    (v.info p).llVaddrSystem.toNat =
      ((v.mapped p).toNat + 0x200000 * v.hostSlot) % 0x10000000000000000 := by
  have hsys := v.info_llLaddrSystem_toNat p
  rw [info_llLaddrSystem] at hsys
  rw [info_llVaddrSystem, BitVec.add_assoc, BitVec.toNat_add, hsys]

/-- The driver reaches a host-side window through the mapping exactly for the entries of
the physical function; in a build without reserved memory only for the first two write
channels. -/
theorem hostBacked_iff (p : Probes) (v : View) :
    HostBacked p v ↔
      ∃ side c, v = .pf side c ∧ (p.resv = true ∨ side = .wr ∧ c.val < 2) := by
  have hkernel := p.kernel
  have hfits := p.fits
  have hslot := v.hostSlot_lt
  have hmax : (65536 : U32).toNat = 65536 := rfl
  simp only [HostBacked, MtdmaChanInfo.window, Probes.mapping, View.info_llMax, hmax]
  rw [Set.Ico_subset_Ico_iff (by omega), View.info_llVaddrSystem_toNat]
  cases v with
  | pf side ch =>
    have hfirst : (∃ side' c, View.pf side ch = .pf side' c ∧
        (p.resv = true ∨ side' = .wr ∧ c.val < 2)) ↔
        p.resv = true ∨ (View.pf side ch).hostSlot < 2 := by
      cases side <;> simp [View.hostSlot]
      omega
    rw [hfirst]
    simp only [View.mapped]
    cases hresv : p.resv with
    | true =>
      rw [hresv, mtdmaBufSize, if_pos rfl] at hfits
      rw [mtdmaBufSize, if_pos rfl]
      simp only [true_or, iff_true]
      omega
    | false =>
      rw [hresv, mtdmaBufSize, if_neg Bool.false_ne_true] at hfits
      rw [mtdmaBufSize, if_neg Bool.false_ne_true]
      simp only [Bool.false_eq_true, false_or]
      omega
  | vf side ch =>
    -- the window starts below any kernel address
    have hmapped : (View.mapped p (.vf side ch)).toNat = 0 := by simp [View.mapped]
    simp only [hmapped, reduceCtorEq, false_and, exists_false, iff_false]
    omega

/-- Which list windows are as they should be: all of those in device memory, in host
memory all but the read windows of the virtual functions, and of those in host memory
the driver can reach the physical function's. -/
theorem list_windows_iff (p : Probes) (v w : View) :
    WindowsSound p MtdmaChanInfo.llLaddr v w ∧
    (WindowsSound p MtdmaChanInfo.llLaddrSystem v w ↔ ¬ v.Clashes w) ∧
    (HostBacked p v ↔
      ∃ side c, v = .pf side c ∧ (p.resv = true ∨ side = .wr ∧ c.val < 2)) :=
  ⟨device_windows_sound p v w, host_windows_sound_iff p v w, hostBacked_iff p v⟩

/-- A probe of all functions in the default build. -/
def someProbes : Probes where
  resv := true
  mtdmaVaddr := 0xffffc90000000000
  kernel := by decide
  fits := by decide
  pfBar0 := 0xffffc98000000000
  pfBar2 := 0xffffca0000000000
  vfBar0 _ := 0xffffcb0000000000
  vfBar2 _ := 0xffffcc0000000000
  stale := ⟨0, 0, fun _ => default, fun _ => default⟩

/-- The read list of virtual function 2 is the write list of virtual function 3, and
neither is in the mapping. -/
theorem vf_lists_clash :
    ¬ WindowsSound someProbes MtdmaChanInfo.llLaddrSystem (.vf .rd 0) (.vf .wr 1) ∧
    ¬ HostBacked someProbes (.vf .rd 0) ∧ ¬ HostBacked someProbes (.vf .wr 1) := by
  refine ⟨?_, ?_, ?_⟩
  · rw [host_windows_sound_iff]
    exact fun h => h (.inl ⟨0, rfl, rfl⟩)
  · rw [hostBacked_iff]
    simp
  · rw [hostBacked_iff]
    simp

end MtEmu
