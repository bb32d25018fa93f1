import MtEmu.Ioctl.Dispatch
import MtEmu.Vf.DmaInfo
import MtEmu.Vf.Ddr

/-!
# MtEmu.Vf.Routing

From a channel number to a hardware channel: `pcief_dma_bare_xfer`
(`test/lib/mt_pcie_f.c`) picks the function, `MT_IOCTL_MTDMA_BARE_RW` the channel
object on the function's device, and `mtdma_bare_init` or `mtdma_bare_init_vf` has
bound that object to the registers of a hardware channel.

With virtual functions the channels below `VF_NUM` have a function each, and the
others stay with the physical function.  The driver, though, takes object 0 on every
device as soon as there are virtual functions, and object 0 of the physical function
is channel 0, which is that of the first virtual function as well
(`bare_routing_iff`).
-/

namespace MtEmu

/-! ## the library -/

/-- `DMA_TRANS_NONE`. -/
def dmaTransNone : U32 := 4

/-- `F_GPU`. -/
def fGpu : Nat := 0

/-- The devices that `pcief_open` knows. -/
inductive PciefDev where
  | gpu
  | dmabuf
  | vgpu (devfn : Nat)
  deriving DecidableEq

/-- `pcief_open`. -/
def pciefOpen (vfNum f : Nat) : Option PciefDev :=
  if f = fGpu then some .gpu
  else if f = vfNum + 2 then some .dmabuf
  else if 2 ≤ f ∧ f < vfNum + 2 then some (.vgpu f)
  else none

/-- The function that `pcief_dma_bare_xfer` picks for a channel. -/
def bareXferFun (vfNum : Nat) (chNum : U32) : Nat :=
  if vfNum ≠ 0 then
    if chNum.toNat < vfNum then chNum.toNat + 2 else fGpu
  else fGpu

/-- The ioctl of a transfer. -/
structure BareIoctl where
  dev : PciefDev
  param : MtEmuParam
  rw : DmaBareRw

/-- `pcief_dma_bare_xfer` up to its `ioctl`, with its arguments as they go into
`struct dma_bare_rw`; `stack` is what `emu_param` held.  `pcief_dmaisr_set` before it only
selects the interrupt path. -/
def pciefDmaBareXfer (vfNum : Nat) (stack : MtEmuParam) (rw : DmaBareRw) : Option BareIoctl :=
  if dmaTransNone ≤ rw.dataDirection then none
  else
    (pciefOpen vfNum (bareXferFun vfNum rw.chNum)).map fun dev => ⟨dev, { stack with d0 := 44 }, rw⟩

/-! ## the driver -/

/-- A channel object: its mutex, its completion and its list are its own. -/
structure BareObj where
  dev : PciefDev
  side : Side
  ch : U32
  deriving DecidableEq

/-- The side of a data direction. -/
def bareSide (dataDirection : U32) : Side :=
  if dataDirection = 0 ∨ dataDirection = 1 then .rd else .wr

/-- The `bare_ch` that `MT_IOCTL_MTDMA_BARE_RW` takes. -/
def bareCh (vfNum : Nat) (r : BareIoctl) : BareObj :=
  ⟨r.dev, bareSide r.rw.dataDirection, if vfNum > 0 then 0 else r.rw.chNum⟩

/-- The ioctl of the library makes one call, on that object. -/
theorem doMtdmaBareRw_bareCh {vfNum : Nat} {stack : MtEmuParam} {rw : DmaBareRw} {r : BareIoctl}
    (hr : pciefDmaBareXfer vfNum stack rw = some r) (d : IoctlDev) (e : IoctlEnv)
    (hvf : e.vfNum = vfNum) (hrw : e.bareRw = some r.rw) :
    (d.doMtdmaBareRw e r.param).dev.calls =
      d.calls ++ [.dmaBareXfer (bareCh vfNum r).side (bareCh vfNum r).ch r.rw] := by
  have hd0 : r.param.d0 = 44 := by
    rw [pciefDmaBareXfer] at hr
    split at hr
    · contradiction
    · obtain ⟨dev, -, rfl⟩ := Option.map_eq_some_iff.mp hr
      rfl
  rw [IoctlDev.doMtdmaBareRw, if_neg (not_not_intro hd0), hrw]
  simp only [hvf]
  rfl

/-! ## the probes -/

/-- `mtdma_bare_init`. -/
def mtdmaBareInit (dmaBare : DmaBare) (info : MtdmaInfo) : DmaBare where
  wrChCnt := info.wrChCnt
  rdChCnt := info.rdChCnt
  wrCh i := if i < info.wrChCnt.toNat then info.wrChInfo i else dmaBare.wrCh i
  rdCh i := if i < info.rdChCnt.toNat then info.rdChInfo i else dmaBare.rdCh i

/-- The table that `mtdma_comm_init` writes at `0x2000` of the common registers: the
channel of each virtual function. -/
def commChannels (vfNum : Nat) (reset : Nat → U32) (i : Nat) : U32 :=
  if i < vfNum then BitVec.ofNat 32 i else reset i

/-- The machine with its devices probed: `reset` is what the channel table held and
`before` what `dma_bare` of each device did. -/
structure BareSystem where
  vfNum : Nat
  probes : Probes
  readl : U64 → U32
  reset : Nat → U32
  before : PciefDev → DmaBare

namespace BareSystem

variable (m : BareSystem)

/-- Where region 0 of a device is mapped. -/
def bar0 : PciefDev → U64
  | .gpu => m.probes.pfBar0
  | .vgpu devfn => m.probes.vfBar0 (Fin.ofNat 64 (devfn - 2))
  | .dmabuf => 0

/-- `dma_bare` of a device after its probe. -/
def dmaBare : PciefDev → DmaBare
  | .gpu =>
      mtdmaBareInit (m.before .gpu)
        (buildDmaInfo m.probes.mtdmaVaddr m.probes.pfBar0 m.probes.pfBar2 64 64 m.probes.stale)
  | .vgpu devfn =>
      (vgpuDma m.readl (m.bar0 (.vgpu devfn)) (m.probes.vfBar2 (Fin.ofNat 64 (devfn - 2)))
        m.probes.stale (m.before (.vgpu devfn)) devfn).bare
  | .dmabuf => m.before .dmabuf

/-- What an object is bound to. -/
def info (o : BareObj) : MtdmaChanInfo := (m.dmaBare o.dev).ch o.side o.ch.toNat

/-- The hardware channel whose registers are at an offset of region 0: the physical
function has the registers of every channel, a virtual function those of the channel
that the table gives it. -/
def decode : PciefDev → U64 → Option (Side × Nat)
  | .gpu, off =>
      let rel := off.toNat - 0x383000
      if 0x383000 ≤ off.toNat ∧ rel < 0x1000 * pcieDmaChNum then
        some (if rel % 0x1000 < 0x800 then .rd else .wr, rel / 0x1000)
      else none
  | .vgpu devfn, off =>
      let ch := (commChannels m.vfNum m.reset (devfn - 2)).toNat
      if off = 0x3000 then some (.rd, ch) else if off = 0x3800 then some (.wr, ch) else none
  | .dmabuf, _ => none

/-- The hardware channel of an object. -/
def hwChannel (o : BareObj) : Option (Side × Nat) :=
  m.decode o.dev ((m.info o).rgVaddr - m.bar0 o.dev)

/-- Two objects, for two channels, have nothing in common, and each is bound to the
hardware channel of its number. -/
structure Apart (o o' : BareObj) (ch ch' : U32) : Prop where
  object : o ≠ o'
  channel : m.hwChannel o ≠ m.hwChannel o'
  deviceList : Disjoint ((m.info o).window (m.info o).llLaddr)
    ((m.info o').window (m.info o').llLaddr)
  hostList : Disjoint ((m.info o).window (m.info o).llLaddrSystem)
    ((m.info o').window (m.info o').llLaddrSystem)
  own : m.hwChannel o = some (o.side, ch.toNat)
  own' : m.hwChannel o' = some (o'.side, ch'.toNat)

/-- The objects that two transfers get are apart. -/
def RoutedApart (stack : MtEmuParam) (rw rw' : DmaBareRw) : Prop :=
  ∀ r r', pciefDmaBareXfer m.vfNum stack rw = some r →
    pciefDmaBareXfer m.vfNum stack rw' = some r' →
    m.Apart (bareCh m.vfNum r) (bareCh m.vfNum r') rw.chNum rw'.chNum

end BareSystem

/-! ## the entry of an object -/

/-- The entry that a transfer on a channel uses. -/
def routedView (vfNum : Nat) (side : Side) (ch : Fin 64) : View :=
  if vfNum = 0 then .pf side ch
  else if ch.val < vfNum then .vf side ch
  else .pf side 0

namespace View

/-- The device that builds an entry. -/
def dev : View → PciefDev
  | pf _ _ => .gpu
  | vf _ ch => .vgpu (ch.val + 2)

/-- The object that an entry goes to. -/
def obj : View → BareObj
  | pf side ch => ⟨.gpu, side, BitVec.ofNat 32 ch.val⟩
  | vf side ch => ⟨.vgpu (ch.val + 2), side, 0⟩

/-- Where the registers of an entry are in region 0 of its device. -/
def regs : View → U64
  | pf .rd ch => (0x383000 + 0x1000 * BitVec.ofNat 32 ch.val : U32).setWidth 64
  | pf .wr ch => (0x383000 + 0x1000 * BitVec.ofNat 32 ch.val + 0x800 : U32).setWidth 64
  | vf .rd _ => 0x3000
  | vf .wr _ => 0x3800

end View

namespace BareSystem

variable (m : BareSystem)

/-- The object of an entry is bound to it. -/
theorem info_obj (v : View) : m.info v.obj = v.info m.probes := by
  cases v with
  | pf side ch =>
      have hch := ch.isLt
      cases side <;>
        simp [info, View.obj, dmaBare, mtdmaBareInit, DmaBare.ch, View.info, MtdmaInfo.ch,
          buildDmaInfo, Nat.mod_eq_of_lt (show ch.val < 4294967296 by omega)]
  | vf side ch =>
      have hfin : Fin.ofNat 64 ch.val = ch := Fin.ext (Nat.mod_eq_of_lt ch.isLt)
      simp only [info, View.obj, dmaBare, bar0, Nat.add_sub_cancel, hfin, View.info]
      exact vgpuDma_bare _ _ _ _ _ _ side

/-- Its registers, relative to region 0. -/
theorem info_regs (v : View) : (v.info m.probes).rgVaddr - m.bar0 v.dev = v.regs := by
  have hbar : ∀ bar off : U64, bar + off - bar = off := by
    intro bar off
    rw [BitVec.add_comm, BitVec.add_sub_cancel]
  cases v with
  | pf side ch =>
      cases side <;>
        simp [View.info, MtdmaInfo.ch, buildDmaInfo, chanInfo, View.dev, bar0, View.regs, hbar]
  | vf side ch =>
      have hfin : Fin.ofNat 64 ch.val = ch := Fin.ext (Nat.mod_eq_of_lt ch.isLt)
      cases side <;>
        simp [View.info, MtdmaInfo.ch, buildDmaInfoVf, chanInfo, View.dev, bar0, View.regs, hbar]

/-- The registers of channel `ch` of the physical function. -/
theorem regs_pf_toNat (side : Side) (ch : Fin 64) :
    (View.pf side ch).regs.toNat =
      0x383000 + (0x1000 * ch.val + if side = .rd then 0 else 0x800) := by
  have hch := ch.isLt
  cases side with
  | rd =>
      simp only [View.regs, if_true]
      rw [BitVec.toNat_setWidth, BitVec.toNat_add, BitVec.toNat_mul, BitVec.toNat_ofNat,
        show (0x383000 : U32).toNat = 0x383000 from rfl, show (0x1000 : U32).toNat = 0x1000 from rfl]
      omega
  | wr =>
      simp only [View.regs, reduceCtorEq, if_false]
      rw [BitVec.toNat_setWidth, BitVec.toNat_add, BitVec.toNat_add, BitVec.toNat_mul,
        BitVec.toNat_ofNat, show (0x383000 : U32).toNat = 0x383000 from rfl,
        show (0x1000 : U32).toNat = 0x1000 from rfl, show (0x800 : U32).toNat = 0x800 from rfl]
      omega

/-- The hardware finds the channel of an entry, of a virtual function if there is one. -/
theorem decode_regs (v : View) (hv : v.dev = .gpu ∨ v.ch.val < m.vfNum) :
    m.decode v.dev v.regs = some (v.pair.1, v.ch.val) := by
  cases v with
  | pf side ch =>
      have hch := ch.isLt
      have hregs := regs_pf_toNat side ch
      simp only [View.dev, decode, hregs, pcieDmaChNum, Nat.add_sub_cancel_left, View.pair, View.ch]
      cases side with
      | rd =>
          rw [if_pos (by simp; omega), if_pos (by simp)]
          simp
      | wr =>
          rw [if_pos (by simp; omega), if_neg (by simp)]
          simp
          omega
  | vf side ch =>
      have hlt : ch.val < m.vfNum := by
        cases hv with
        | inl hgpu => contradiction
        | inr hlt => exact hlt
      have hch := ch.isLt
      have htable : (commChannels m.vfNum m.reset ch.val).toNat = ch.val := by
        rw [commChannels, if_pos hlt, BitVec.toNat_ofNat]
        omega
      simp only [View.dev, decode, Nat.add_sub_cancel, htable]
      cases side <;> rfl

/-- The hardware channel of an entry's object. -/
theorem hwChannel_obj (v : View) (hv : v.dev = .gpu ∨ v.ch.val < m.vfNum) :
    m.hwChannel v.obj = some (v.pair.1, v.ch.val) := by
  have hdev : v.obj.dev = v.dev := by cases v <;> rfl
  rw [hwChannel, info_obj, hdev, info_regs, decode_regs m v hv]

/-- Objects of different channels on one side are apart when their host-side windows are. -/
theorem apart_of_views {v w : View} {ch ch' : U32}
    (hv : v.dev = .gpu ∨ v.ch.val < m.vfNum) (hw : w.dev = .gpu ∨ w.ch.val < m.vfNum)
    (hvch : v.ch.val = ch.toNat) (hwch : w.ch.val = ch'.toNat) (hne : ch ≠ ch')
    (hslot : v.hostSlot ≠ w.hostSlot) : m.Apart v.obj w.obj ch ch' := by
  have hside : ∀ v : View, v.obj.side = v.pair.1 := by
    intro v
    cases v <;> rfl
  have hchs : v.ch ≠ w.ch := by
    intro heq
    apply hne
    apply BitVec.eq_of_toNat_eq
    rw [← hvch, ← hwch, heq]
  have hhw : m.hwChannel v.obj ≠ m.hwChannel w.obj := by
    rw [hwChannel_obj m v hv, hwChannel_obj m w hw]
    intro heq
    exact hchs (Fin.ext (congrArg Prod.snd (Option.some.inj heq)))
  refine ⟨fun heq => hhw (congrArg m.hwChannel heq), hhw, ?_, ?_, ?_, ?_⟩
  · rw [info_obj, info_obj, window_disjoint_iff m.probes _ v w 0x80000000 View.deviceSlot
      (View.info_llLaddr_toNat m.probes), ne_eq, View.deviceSlot_eq_iff]
    exact fun heq => hchs (congrArg Prod.snd heq)
  · have hhost : ∀ v : View,
        (v.info m.probes).llLaddrSystem.toNat = 0 + 0x200000 * v.hostSlot := by
      intro v
      rw [View.info_llLaddrSystem_toNat, Nat.zero_add]
    rw [info_obj, info_obj, window_disjoint_iff m.probes _ v w 0 View.hostSlot hhost]
    exact hslot
  · rw [hwChannel_obj m v hv, hside, hvch]
  · rw [hwChannel_obj m w hw, hside, hwch]

end BareSystem

/-! ## routing -/

section
variable (vfNum : Nat) (stack : MtEmuParam) {rw : DmaBareRw}

/-- The library opens the device of the routed entry. -/
theorem pciefOpen_bareXferFun (side : Side) (hch : rw.chNum.toNat < 64) :
    pciefOpen vfNum (bareXferFun vfNum rw.chNum) =
      some (routedView vfNum side ⟨rw.chNum.toNat, hch⟩).dev := by
  unfold bareXferFun routedView
  by_cases hzero : vfNum = 0
  · rw [if_neg (not_not_intro hzero), if_pos hzero]
    rfl
  · rw [if_pos hzero, if_neg hzero]
    by_cases hlt : rw.chNum.toNat < vfNum
    · rw [if_pos hlt, if_pos hlt, pciefOpen, if_neg (by simp [fGpu]), if_neg (by omega),
        if_pos (by omega)]
      rfl
    · rw [if_neg hlt, if_neg hlt]
      rfl

/-- A transfer whose direction is not refused makes its ioctl on the object of the routed
entry. -/
theorem pciefDmaBareXfer_routed (hdir : ¬dmaTransNone ≤ rw.dataDirection)
    (hch : rw.chNum.toNat < 64) :
    ∃ r, pciefDmaBareXfer vfNum stack rw = some r ∧
      bareCh vfNum r =
        (routedView vfNum (bareSide rw.dataDirection) ⟨rw.chNum.toNat, hch⟩).obj := by
  have hopen := pciefOpen_bareXferFun vfNum (bareSide rw.dataDirection) hch
  rw [pciefDmaBareXfer, if_neg hdir, hopen]
  refine ⟨_, rfl, ?_⟩
  by_cases hzero : vfNum = 0
  · rw [bareCh, if_neg (by omega), routedView, if_pos hzero, View.obj, BitVec.ofNat_toNat,
      BitVec.setWidth_eq]
    rfl
  · rw [bareCh, if_pos (by omega), routedView, if_neg hzero]
    split
    · rfl
    · rfl

/-- A routed entry is the physical function's or that of an enabled virtual function. -/
theorem routedView_present (side : Side) (ch : Fin 64) :
    (routedView vfNum side ch).dev = .gpu ∨ (routedView vfNum side ch).ch.val < vfNum := by
  unfold routedView
  split
  · exact .inl rfl
  · split
    · exact .inr ‹_›
    · exact .inl rfl

/-- An entry has the number of its channel unless there are virtual functions and the
channel is none of theirs. -/
theorem routedView_ch_iff (side : Side) (ch : Fin 64) :
    (routedView vfNum side ch).ch = ch ↔ vfNum = 0 ∨ ch.val < vfNum := by
  unfold routedView
  split
  · simp [View.ch, View.pair, *]
  · split
    · simp [View.ch, View.pair, *]
    · have hne : (0 : Fin 64) ≠ ch := by
        intro h0
        subst h0
        simp at *
        omega
      simp [View.ch, View.pair, *]

/-- Two channels of one side with a function each, or both of the physical function, have
different host-side windows. -/
theorem routedView_hostSlot (side : Side) {ch ch' : Fin 64} (hne : ch.val ≠ ch'.val)
    (h : vfNum = 0 ∨ ch.val < vfNum ∧ ch'.val < vfNum) :
    (routedView vfNum side ch).hostSlot ≠ (routedView vfNum side ch').hostSlot := by
  unfold routedView
  by_cases hzero : vfNum = 0
  · rw [if_pos hzero, if_pos hzero]
    cases side <;> simp only [View.hostSlot] <;> omega
  · obtain ⟨hlt, hlt'⟩ := h.resolve_left hzero
    rw [if_neg hzero, if_neg hzero, if_pos hlt, if_pos hlt']
    cases side <;> simp only [View.hostSlot] <;> omega

end

/-- **Routing**: of two channels with one data direction that is not refused, each has its
own object, list and hardware channel exactly when there are no virtual functions or both
channels are virtual functions'. -/
theorem bare_routing_iff (m : BareSystem) (stack : MtEmuParam) {rw rw' : DmaBareRw}
    (hdir : rw.dataDirection = rw'.dataDirection) (hch : rw.chNum.toNat < pcieDmaChNum)
    (hch' : rw'.chNum.toNat < pcieDmaChNum) (hne : rw.chNum ≠ rw'.chNum) :
    m.RoutedApart stack rw rw' ↔
      dmaTransNone ≤ rw.dataDirection ∨ m.vfNum = 0 ∨
        rw.chNum.toNat < m.vfNum ∧ rw'.chNum.toNat < m.vfNum := by
  let side := bareSide rw.dataDirection
  by_cases hnone : dmaTransNone ≤ rw.dataDirection
  · have hvac : m.RoutedApart stack rw rw' := by
      intro r r' hr
      rw [pciefDmaBareXfer, if_pos hnone] at hr
      contradiction
    exact iff_of_true hvac (.inl hnone)
  · obtain ⟨r, hr, hobj⟩ := pciefDmaBareXfer_routed m.vfNum stack hnone hch
    obtain ⟨r', hr', hobj'⟩ :=
      pciefDmaBareXfer_routed m.vfNum stack (hdir ▸ hnone) hch'
    rw [← hdir] at hobj'
    have hv := routedView_present m.vfNum side ⟨rw.chNum.toNat, hch⟩
    have hv' := routedView_present m.vfNum side ⟨rw'.chNum.toNat, hch'⟩
    constructor
    · intro hall
      have hapart := hall r r' hr hr'
      rw [hobj, hobj'] at hapart
      -- the hardware channel of an object is that of its entry
      have hown := hapart.own
      have hown' := hapart.own'
      rw [m.hwChannel_obj _ hv, Option.some.injEq, Prod.mk.injEq] at hown
      rw [m.hwChannel_obj _ hv', Option.some.injEq, Prod.mk.injEq] at hown'
      have hnum := (routedView_ch_iff m.vfNum side ⟨rw.chNum.toNat, hch⟩).1 (Fin.ext hown.2)
      have hnum' := (routedView_ch_iff m.vfNum side ⟨rw'.chNum.toNat, hch'⟩).1 (Fin.ext hown'.2)
      right
      cases hnum with
      | inl hzero => exact .inl hzero
      | inr hlt => exact hnum'.imp_right fun hlt' => ⟨hlt, hlt'⟩
    · intro hcond s s' hs hs'
      rw [hr, Option.some.injEq] at hs
      rw [hr', Option.some.injEq] at hs'
      rw [← hs, ← hs', hobj, hobj']
      have hnum : m.vfNum = 0 ∨ rw.chNum.toNat < m.vfNum ∧ rw'.chNum.toNat < m.vfNum :=
        hcond.resolve_left hnone
      refine m.apart_of_views hv hv' ?_ ?_ hne ?_
      · exact congrArg Fin.val ((routedView_ch_iff m.vfNum side _).2 (hnum.imp_right And.left))
      · exact congrArg Fin.val ((routedView_ch_iff m.vfNum side _).2 (hnum.imp_right And.right))
      · exact routedView_hostSlot m.vfNum side (fun heq => hne (BitVec.eq_of_toNat_eq heq)) hnum

/-- The physical function with all its virtual functions. -/
def sixtyVfs : BareSystem where
  vfNum := vfNumMax
  probes := someProbes
  readl _ := 0
  reset _ := 0
  before _ := .zeroed

/-- A transfer of a page to the device on a channel. -/
def toDevice (ch : U32) : DmaBareRw := ⟨0x1000, 0x2000, 1, 0, 0, 0, 0x1000, ch, 1000⟩

/-- Two virtual functions' channels. -/
theorem bare_routing_iff_vfs :
    sixtyVfs.RoutedApart ⟨0, 0, 0, 0⟩ (toDevice 0) (toDevice 59) ↔
      dmaTransNone ≤ (1 : U32) ∨ sixtyVfs.vfNum = 0 ∨
        (0 : U32).toNat < sixtyVfs.vfNum ∧ (59 : U32).toNat < sixtyVfs.vfNum :=
  bare_routing_iff sixtyVfs ⟨0, 0, 0, 0⟩ rfl (by decide) (by decide) (by decide)

/-- Channel 60 is the physical function's, but its object drives hardware channel 0, that of
the first virtual function, and is the object of channel 61 too. -/
theorem bare_routing_collides :
    sixtyVfs.hwChannel ⟨.gpu, .rd, 0⟩ = some (.rd, 0) ∧
    sixtyVfs.hwChannel ⟨.vgpu 2, .rd, 0⟩ = some (.rd, 0) ∧
    ¬sixtyVfs.RoutedApart ⟨0, 0, 0, 0⟩ (toDevice 60) (toDevice 0) ∧
    ¬sixtyVfs.RoutedApart ⟨0, 0, 0, 0⟩ (toDevice 60) (toDevice 61) := by
  have hpf : sixtyVfs.hwChannel ⟨.gpu, .rd, 0⟩ = some (.rd, 0) :=
    sixtyVfs.hwChannel_obj (.pf .rd 0) (.inl rfl)
  have hvf : sixtyVfs.hwChannel ⟨.vgpu 2, .rd, 0⟩ = some (.rd, 0) :=
    sixtyVfs.hwChannel_obj (.vf .rd 0) (.inr (by decide))
  refine ⟨hpf, hvf, fun h => ?_, fun h => ?_⟩
  · exact (h _ _ rfl rfl).channel (hpf.trans hvf.symm)
  · exact (h _ _ rfl rfl).object rfl

end MtEmu
