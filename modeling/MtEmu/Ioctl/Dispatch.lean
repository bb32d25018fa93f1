import MtEmu.Ioctl.BarRw
import MtEmu.Ipc.Response
import MtEmu.Engine.Owner

/-!
# MtEmu.Ioctl.Dispatch

`mt_test_ioctl` (`mt-emu-ioctl.c`) as a whole: the parameters, the switch and its
fourteen ways out.

`IoctlDev` is what a command can change: the BARs, the configuration space, the power
state as `pci_dev` has it and `MT_IOCTL_GET_POWER` reports it, and the saved
configuration.  `calls` lists, in order, what else was done to the device; the callees
with models of their own are entries of it, with their results in `IoctlEnv`.

`power_isolated_iff` says when a command keeps to its own effect and leaves the power
state alone: always, except that `MT_IOCTL_CFG_RW` runs on into the case of
`MT_IOCTL_SUSPEND` once its transfer is done.
-/

namespace MtEmu

open Bytes

/-! ## commands and calls -/

/-- The commands. -/
inductive MtIoctl where
  | barRw
  | cfgRw
  | readRom
  | suspend
  | resume
  | getPower
  | waitInt
  | ipc
  | irqInit
  | mtdmaBareRw
  | mtdmaRw
  | dmaisrSet
  | trigInt
  deriving DecidableEq

/-- The commands in the order of their numbers. -/
def mtIoctls : List MtIoctl :=
  [.barRw, .cfgRw, .readRom, .suspend, .resume, .getPower, .waitInt, .ipc, .irqInit,
    .mtdmaBareRw, .mtdmaRw, .dmaisrSet, .trigInt]

/-- The command of a code: `_IOR('M', nr, int)`. -/
def mtIoctl (cmd : U32) : Option MtIoctl :=
  if cmd &&& 0xffffff00 = 0x80044d00 then mtIoctls[(cmd &&& 0xff).toNat]? else none

/-- `struct dma_bare_rw`. -/
structure DmaBareRw where
  sar : U64
  dar : U64
  dataDirection : U32
  descDirection : U32
  descCnt : U32
  blockCnt : U32
  size : U32
  chNum : U32
  timeoutMs : U32
  deriving DecidableEq

/-- What is done to the device besides the accesses to the BARs. -/
inductive IoctlCall where
  | cfg (off len : Nat)
  | saveState
  | setPowerState (state : U32)
  | restoreState
  | waitForCompletion (idx : BitVec 8)
  | softInt (src : BitVec 8)
  | doorbell (t : PciefTgt)
  | irqInit (irqType testMode : BitVec 8)
  | mapExpRom
  | unmapExpRom
  | dmaBareXfer (side : Side) (ch : U32) (q : DmaBareRw)
  | emuDmaRw (q : MtdmaRw)

/-- The calls that belong to a command. -/
def IoctlCall.Of : IoctlCall → MtIoctl → Prop
  | .cfg _ _, cmd => cmd = .cfgRw
  | .saveState, cmd => cmd = .suspend
  | .setPowerState _, cmd => cmd = .suspend ∨ cmd = .resume
  | .restoreState, cmd => cmd = .resume
  | .waitForCompletion _, cmd => cmd = .waitInt ∨ cmd = .ipc
  | .softInt _, cmd => cmd = .trigInt
  | .doorbell _, cmd => cmd = .ipc
  | .irqInit _ _, cmd => cmd = .irqInit
  | .mapExpRom, cmd => cmd = .readRom
  | .unmapExpRom, cmd => cmd = .readRom
  | .dmaBareXfer _ _ _, cmd => cmd = .mtdmaBareRw
  | .emuDmaRw _, cmd => cmd = .mtdmaRw

/-! ## the device and its environment -/

/-- The device.  `power` is `current_state`, `saved` the configuration of
`pci_save_state` while there is one. -/
structure IoctlDev where
  type : MtEmuType
  region : BitVec 8 → Window
  cfg : Mem
  power : U32
  saved : Option Mem
  isrDmabare : BitVec 8
  calls : List IoctlCall

/-- What the calls of an ioctl return.  `waited` is what the wait leaves of its timeout,
`softPending` the bit the trigger register reads as. -/
structure IoctlEnv where
  mbox : Bool
  vfNum : Nat
  param : Option MtEmuParam
  copy : CopyOutcome
  setPower : U32 → U32 → U32
  waited : U32
  softPending : Bool
  irqInit : Int
  rom : Bool
  bareRw : Option DmaBareRw
  dmaBareXfer : BitVec 8
  mtdmaRw : Option MtdmaRw
  emuDmaRw : Int

/-- What an ioctl leaves: its result, the device, and what it gave the user. -/
structure IoctlResult where
  ret : Int
  dev : IoctlDev
  param : Option MtEmuParam
  data : Option (List (BitVec 8))

namespace IoctlDev

/-- One more call. -/
def call (d : IoctlDev) (c : IoctlCall) : IoctlDev := { d with calls := d.calls ++ [c] }

/-- `return -EFAULT`. -/
def fault (d : IoctlDev) : IoctlResult := ⟨-efault, d, none, none⟩

/-- `ret = copy_to_user(arg, &emu_param, sizeof(emu_param)); break`. -/
def reply (d : IoctlDev) (e : IoctlEnv) (p : MtEmuParam) : IoctlResult :=
  ⟨e.copy.paramToUser, d, if e.copy.paramToUser = 0 then some p else none, none⟩

/-! ## the configuration space -/

/-- A register of the configuration space that `pci_read_config_*` and
`pci_write_config_*` accept: the others are refused. -/
def CfgReg (off len : Nat) : Prop := off % len = 0 ∧ off + len ≤ 4096

instance (off len : Nat) : Decidable (CfgReg off len) := inferInstanceAs (Decidable (_ ∧ _))

/-- `pci_read_config_*`. -/
def cfgReadAt (offset : U64) (len i : Nat) (s : IoctlDev × Mem) : IoctlDev × Mem :=
  let off := barOff offset i
  (s.1.call (.cfg off len),
    if CfgReg off len then store s.2 i len (load s.1.cfg off len) else s.2)

/-- `pci_write_config_*`. -/
def cfgWriteAt (offset : U64) (data : Mem) (len i : Nat) (d : IoctlDev) : IoctlDev :=
  let off := barOff offset i
  let d := d.call (.cfg off len)
  if CfgReg off len then { d with cfg := store d.cfg off len (load data i len) } else d

/-- The loop over words and the two tails, the last one made when `last i`. -/
def cfgTransfer {σ : Type} (access : Nat → Nat → σ → σ) (size : Nat) (last : Nat → Bool)
    (s : σ) : σ :=
  let n := (size + 3) / 4
  let s := Loop.each n (fun k s => access 4 (4 * k) s) s
  let i := 4 * n
  let (i, s) := if i + 2 ≤ size then (i + 2, access 2 i s) else (i, s)
  if last i then access 1 i s else s

/-! ## the cases -/

/-- `MT_IOCTL_BAR_RW`. -/
def doBarRw (d : IoctlDev) (e : IoctlEnv) (p : MtEmuParam) : Option IoctlResult :=
  (barRw d.region p e.copy).map fun r =>
    ⟨r.ret, { d with region := r.region }, r.param, r.toUser⟩

/-- `MT_IOCTL_CFG_RW` up to `kfree`: it returns early, or it goes on with `ret` and what
it gave the user.  The last byte of a read is read when `i <= size`. -/
def doCfgRw (d : IoctlDev) (e : IoctlEnv) (p : MtEmuParam) : Except IoctlResult IoctlResult :=
  if p.d0 = 0 ∨ p.d0.toNat > qyMaxRw then .error d.fault
  else
    match e.copy.kmalloc with
    | none => .error d.fault
    | some buf =>
        if barRd = p.b1 then
          let s := cfgTransfer (cfgReadAt p.l0) p.d0.toNat (· ≤ p.d0.toNat) (d, buf)
          .ok ⟨e.copy.ret, s.1, if e.copy.paramToUser = 0 then some p else none,
            if e.copy.ret = 0 then some (slice s.2 0 p.d0.toNat) else none⟩
        else
          match e.copy.fromUser with
          | none => .error d.fault
          | some data =>
              .ok ⟨0, cfgTransfer (cfgWriteAt p.l0 data) p.d0.toNat (· < p.d0.toNat) d,
                none, none⟩

/-- `pci_set_power_state`. -/
def setPowerState (d : IoctlDev) (e : IoctlEnv) (state : U32) : IoctlDev :=
  { d.call (.setPowerState state) with power := e.setPower d.power state }

/-- `MT_IOCTL_SUSPEND`. -/
def doSuspend (d : IoctlDev) (e : IoctlEnv) (p : MtEmuParam) : IoctlDev :=
  setPowerState { d.call .saveState with saved := some d.cfg } e p.d0

/-- `MT_IOCTL_RESUME`; `PCI_D0` is 0. -/
def doResume (d : IoctlDev) (e : IoctlEnv) : IoctlDev :=
  let d := (d.setPowerState e 0).call .restoreState
  match d.saved with
  | none => d
  | some cfg => { d with cfg := cfg, saved := none }

/-- `MT_IOCTL_WAIT_INT`. -/
def doWaitInt (d : IoctlDev) (e : IoctlEnv) (p : MtEmuParam) : IoctlResult :=
  if 32 ≤ p.b0.toNat then d.fault
  else
    (d.call (.waitForCompletion p.b0)).reply e { p with b0 := if e.waited = 0 then 0 else 1 }

/-- `MT_IOCTL_TRIG_INT`: the sources of each type, and the write to the mux unless the
interrupt is pending. -/
def doTrigInt (d : IoctlDev) (e : IoctlEnv) (p : MtEmuParam) : IoctlResult :=
  if 32 ≤ p.b0.toNat ∧ d.type = .vgpu then d.fault
  else if 256 ≤ p.b0.toNat ∧ d.type = .gpu then d.fault
  else if 256 ≤ p.b0.toNat ∧ d.type = .apu then d.fault
  else if d.type = .apu then d.reply e p
  else if e.softPending = true then d.reply e { p with b0 := 0 }
  else (d.call (.softInt p.b0)).reply e { p with b0 := 1 }

/-- `MT_IOCTL_IPC`; the completion of a target has the index of its `b0`. -/
def doIpc (d : IoctlDev) (e : IoctlEnv) (p : MtEmuParam) : IoctlResult :=
  match PciefTgt.ofB0 p.b0 with
  | none => d.fault
  | some t =>
      -- with the mailbox the case of the DSP rings nothing
      let d := if e.mbox = true ∧ t = .dsp then d else d.call (.doorbell t)
      (d.call (.waitForCompletion p.b0)).reply e { p with b0 := if e.waited = 0 then 0 else 1 }

/-- `MT_IOCTL_IRQ_INIT`. -/
def doIrqInit (d : IoctlDev) (e : IoctlEnv) (p : MtEmuParam) : IoctlResult :=
  (d.call (.irqInit p.b0 p.b1)).reply e { p with b0 := if e.irqInit ≠ 0 then 1 else 0 }

/-- `MT_IOCTL_READ_ROM`. -/
def doReadRom (d : IoctlDev) (e : IoctlEnv) : IoctlResult :=
  let d := d.call .mapExpRom
  if e.rom = false then d.fault else ⟨0, d.call .unmapExpRom, none, none⟩

/-- `MT_IOCTL_MTDMA_BARE_RW`: `DMA_MEM_TO_MEM` and `DMA_MEM_TO_DEV` are 0 and 1. -/
def doMtdmaBareRw (d : IoctlDev) (e : IoctlEnv) (p : MtEmuParam) : IoctlResult :=
  if p.d0 ≠ 44 then d.fault
  else
    match e.bareRw with
    | none => d.fault
    | some q =>
        let side := if q.dataDirection = 0 ∨ q.dataDirection = 1 then .rd else .wr
        let ch := if e.vfNum > 0 then 0 else q.chNum
        (d.call (.dmaBareXfer side ch q)).reply e { p with b0 := e.dmaBareXfer }

/-- `MT_IOCTL_MTDMA_RW`. -/
def doMtdmaRw (d : IoctlDev) (e : IoctlEnv) (p : MtEmuParam) : IoctlResult :=
  if p.d0 < 32 then d.fault
  else
    match e.mtdmaRw with
    | none => d.fault
    | some q =>
        if p.d0.setWidth 64 ≠ 32 + q.size then d.fault
        else (d.call (.emuDmaRw q)).reply e { p with b0 := if e.emuDmaRw ≠ 0 then 0 else 1 }

/-- The switch.  `MT_IOCTL_CFG_RW` has no `break`: behind its transfer the case of
`MT_IOCTL_SUSPEND` follows. -/
def switch (d : IoctlDev) (e : IoctlEnv) (p : MtEmuParam) : Option MtIoctl → Option IoctlResult
  | some .barRw => d.doBarRw e p
  | some .cfgRw =>
      match d.doCfgRw e p with
      | .error r => some r
      | .ok r => some { r with dev := r.dev.doSuspend e p }
  | some .suspend => some ⟨0, d.doSuspend e p, none, none⟩
  | some .resume => some ⟨0, d.doResume e, none, none⟩
  | some .getPower => some (d.reply e { p with d0 := d.power })
  | some .waitInt => some (d.doWaitInt e p)
  | some .trigInt => some (d.doTrigInt e p)
  | some .ipc => some (d.doIpc e p)
  | some .irqInit => some (d.doIrqInit e p)
  | some .readRom => some (d.doReadRom e)
  | some .mtdmaBareRw => some (d.doMtdmaBareRw e p)
  | some .mtdmaRw => some (d.doMtdmaRw e p)
  | some .dmaisrSet => some ⟨0, { d with isrDmabare := p.b0 }, none, none⟩
  | none => some d.fault

/-- `mt_test_ioctl`; `none` when an access to a BAR faults. -/
def mtTestIoctl (d : IoctlDev) (e : IoctlEnv) (cmd : U32) : Option IoctlResult :=
  match e.param with
  | none => some d.fault
  | some p => d.switch e p (mtIoctl cmd)

/-! ## isolation -/

/-- From `d` to `d'` a command has had only its own effect: the power state and the saved
configuration are as they were, every call is one of the command's, and the BARs, the
configuration space and the interrupt selection are left to the commands for them.

`cfg` is about the ioctl's own `pci_write_config_*` accesses.  What the PCI core writes there
for `map_exp_rom` (`pci_enable_rom`) and `irq_init` (`pci_alloc_irq_vectors`) is part of
these calls, which `calls` allows to their commands only. -/
structure Isolated (cmd : Option MtIoctl) (d d' : IoctlDev) : Prop where
  power : d'.power = d.power
  saved : d'.saved = d.saved
  calls : ∃ cs, d'.calls = d.calls ++ cs ∧ ∀ c ∈ cs, ∃ k, cmd = some k ∧ c.Of k
  region : cmd ≠ some .barRw → d'.region = d.region
  cfg : cmd ≠ some .cfgRw → d'.cfg = d.cfg
  isr : cmd ≠ some .dmaisrSet → d'.isrDmabare = d.isrDmabare

/-- An `MT_IOCTL_CFG_RW` that gets as far as its transfer. -/
def FallsThrough (e : IoctlEnv) (cmd : U32) : Prop :=
  mtIoctl cmd = some .cfgRw ∧ ∃ p, e.param = some p ∧ 1 ≤ p.d0.toNat ∧ p.d0.toNat ≤ qyMaxRw ∧
    e.copy.kmalloc ≠ none ∧ (barRd = p.b1 ∨ e.copy.fromUser ≠ none)

namespace Isolated

variable {cmd : Option MtIoctl} {d d' d'' : IoctlDev}

theorem refl (cmd : Option MtIoctl) (d : IoctlDev) : Isolated cmd d d :=
  ⟨rfl, rfl, ⟨[], (List.append_nil _).symm, by simp⟩, fun _ => rfl, fun _ => rfl, fun _ => rfl⟩

theorem trans (h : Isolated cmd d d') (h' : Isolated cmd d' d'') : Isolated cmd d d'' := by
  obtain ⟨cs, hcs, hof⟩ := h.calls
  obtain ⟨cs', hcs', hof'⟩ := h'.calls
  refine ⟨h'.power.trans h.power, h'.saved.trans h.saved, ⟨cs ++ cs', ?_, ?_⟩,
    fun hne => (h'.region hne).trans (h.region hne), fun hne => (h'.cfg hne).trans (h.cfg hne),
    fun hne => (h'.isr hne).trans (h.isr hne)⟩
  · rw [hcs', hcs, List.append_assoc]
  · exact fun c hc => (List.mem_append.mp hc).elim (hof c) (hof' c)

/-- A call of the command. -/
theorem call {k : MtIoctl} (d : IoctlDev) {c : IoctlCall} (hc : c.Of k) :
    Isolated (some k) d (d.call c) :=
  ⟨rfl, rfl, ⟨[c], rfl, fun _ hmem => ⟨k, rfl, List.mem_singleton.mp hmem ▸ hc⟩⟩,
    fun _ => rfl, fun _ => rfl, fun _ => rfl⟩

end Isolated

variable (d : IoctlDev) (e : IoctlEnv) (p : MtEmuParam)

@[simp] theorem fault_dev : d.fault.dev = d := rfl

@[simp] theorem reply_dev : (d.reply e p).dev = d := rfl

theorem isolated_waitInt : Isolated (some .waitInt) d (d.doWaitInt e p).dev := by
  rw [doWaitInt]
  split
  · exact .refl _ d
  · exact .call d (.inl rfl)

theorem isolated_trigInt : Isolated (some .trigInt) d (d.doTrigInt e p).dev := by
  rw [doTrigInt]
  -- three refusals, a device without the register, and a pending interrupt
  iterate 5 split; exact .refl _ d
  exact .call d rfl

theorem isolated_ipc : Isolated (some .ipc) d (d.doIpc e p).dev := by
  rw [doIpc]
  split
  · exact .refl _ d
  · next t _ =>
      dsimp only
      split
      · exact .call d (.inr rfl)
      · exact (Isolated.call d (c := .doorbell t) rfl).trans (.call _ (.inr rfl))

theorem isolated_irqInit : Isolated (some .irqInit) d (d.doIrqInit e p).dev := .call d rfl

theorem isolated_readRom : Isolated (some .readRom) d (d.doReadRom e).dev := by
  have hmap : Isolated (some .readRom) d (d.call .mapExpRom) := .call d rfl
  rw [doReadRom]
  split
  · exact hmap
  · exact hmap.trans (.call _ rfl)

theorem isolated_mtdmaBareRw : Isolated (some .mtdmaBareRw) d (d.doMtdmaBareRw e p).dev := by
  rw [doMtdmaBareRw]
  split
  · exact .refl _ d
  · split
    · exact .refl _ d
    · exact .call d rfl

theorem isolated_mtdmaRw : Isolated (some .mtdmaRw) d (d.doMtdmaRw e p).dev := by
  rw [doMtdmaRw]
  split
  · exact .refl _ d
  · split
    · exact .refl _ d
    · split
      · exact .refl _ d
      · exact .call d rfl

theorem isolated_barRw {r : IoctlResult} (h : d.doBarRw e p = some r) :
    Isolated (some .barRw) d r.dev := by
  obtain ⟨r', -, rfl⟩ := Option.map_eq_some_iff.mp h
  exact ⟨rfl, rfl, ⟨[], (List.append_nil _).symm, by simp⟩, fun hne => absurd rfl hne,
    fun _ => rfl, fun _ => rfl⟩

/-! ## the transfer of `MT_IOCTL_CFG_RW` -/

/-- What every access keeps, a transfer keeps. -/
theorem cfgTransfer_spec {σ : Type} {access : Nat → Nat → σ → σ} {s : σ} (inv : σ → Prop)
    (haccess : ∀ len i s, inv s → inv (access len i s)) (h0 : inv s) (size : Nat)
    (last : Nat → Bool) : inv (cfgTransfer access size last s) := by
  have hloop : inv (Loop.each ((size + 3) / 4) (fun k s => access 4 (4 * k) s) s) :=
    Loop.each_spec (fun _ => inv) (fun k s _ => haccess 4 (4 * k) s) h0
  rw [cfgTransfer]
  dsimp only
  split <;> dsimp only <;> split
  · exact haccess _ _ _ (haccess _ _ _ hloop)
  · exact haccess _ _ _ hloop
  · exact haccess _ _ _ hloop
  · exact hloop

theorem isolated_cfgRead (offset : U64) (size : Nat) (last : Nat → Bool) (buf : Mem) :
    Isolated (some .cfgRw) d (cfgTransfer (cfgReadAt offset) size last (d, buf)).1 := by
  refine cfgTransfer_spec (fun s : IoctlDev × Mem => Isolated (some .cfgRw) d s.1) ?_
    (.refl _ d) size last
  exact fun len i s hs => hs.trans (.call s.1 rfl)

theorem isolated_cfgWrite (offset : U64) (size : Nat) (last : Nat → Bool) (data : Mem) :
    Isolated (some .cfgRw) d (cfgTransfer (cfgWriteAt offset data) size last d) := by
  refine cfgTransfer_spec (fun s : IoctlDev => Isolated (some .cfgRw) d s) ?_
    (.refl _ d) size last
  intro len i s hs
  refine hs.trans ((Isolated.call s (c := .cfg (barOff offset i) len) rfl).trans ?_)
  rw [cfgWriteAt]
  split
  · exact ⟨rfl, rfl, ⟨[], (List.append_nil _).symm, by simp⟩, fun _ => rfl,
      fun hne => absurd rfl hne, fun _ => rfl⟩
  · exact .refl _ _

/-- `MT_IOCTL_CFG_RW` up to its end: it returns early, with nothing done, or it has made
its transfer. -/
theorem doCfgRw_cases :
    (d.doCfgRw e p = .error d.fault ∧ ¬(1 ≤ p.d0.toNat ∧ p.d0.toNat ≤ qyMaxRw ∧
        e.copy.kmalloc ≠ none ∧ (barRd = p.b1 ∨ e.copy.fromUser ≠ none))) ∨
      ∃ r, d.doCfgRw e p = .ok r ∧ Isolated (some .cfgRw) d r.dev ∧
        1 ≤ p.d0.toNat ∧ p.d0.toNat ≤ qyMaxRw ∧
        e.copy.kmalloc ≠ none ∧ (barRd = p.b1 ∨ e.copy.fromUser ≠ none) := by
  by_cases hsize : p.d0 = 0 ∨ p.d0.toNat > qyMaxRw
  · refine .inl ⟨by rw [doCfgRw, if_pos hsize], fun h => ?_⟩
    rcases hsize with h0 | hbig
    · exact absurd h.1 (by rw [h0]; decide)
    · exact absurd h.2.1 (Nat.not_le_of_lt hbig)
  · have hpos : 1 ≤ p.d0.toNat :=
      BitVec.toNat_pos_of_ne_zero fun h0 => hsize (.inl h0)
    have hle : p.d0.toNat ≤ qyMaxRw := Nat.le_of_not_lt fun h => hsize (.inr h)
    rw [doCfgRw, if_neg hsize]
    cases hk : e.copy.kmalloc with
    | none => exact .inl ⟨rfl, fun h => h.2.2.1 rfl⟩
    | some buf =>
        dsimp only
        by_cases hrd : barRd = p.b1
        · rw [if_pos hrd]
          exact .inr ⟨_, rfl, d.isolated_cfgRead p.l0 p.d0.toNat (· ≤ p.d0.toNat) buf,
            hpos, hle, by simp, .inl hrd⟩
        · rw [if_neg hrd]
          cases hu : e.copy.fromUser with
          | none => exact .inl ⟨rfl, fun h => h.2.2.2.elim hrd fun hne => hne rfl⟩
          | some data =>
              exact .inr ⟨_, rfl, d.isolated_cfgWrite p.l0 p.d0.toNat (· < p.d0.toNat) data,
                hpos, hle, by simp, .inr (by simp)⟩

/-- After a suspend a `pci_save_state` is among the calls. -/
theorem not_isolated_doSuspend {d' : IoctlDev} (h : Isolated (some .cfgRw) d d') :
    ¬Isolated (some .cfgRw) d (d'.doSuspend e p) := by
  intro hs
  obtain ⟨cs, hcs, -⟩ := h.calls
  obtain ⟨cs', hcs', hof⟩ := hs.calls
  have happ : (d'.doSuspend e p).calls = d.calls ++ (cs ++ [.saveState, .setPowerState p.d0]) := by
    simp [doSuspend, setPowerState, call, hcs]
  obtain ⟨k, hk, hcall⟩ := hof .saveState (by
    rw [← List.append_cancel_left (happ.symm.trans hcs')]
    simp)
  rw [← Option.some.inj hk] at hcall
  contradiction

/-! ## the ioctl -/

/-- **Power-state isolation**: a command other than suspend and resume has only its own
effect, and leaves the power state and the saved configuration as they are, unless it is
an `MT_IOCTL_CFG_RW` that gets as far as its transfer. -/
theorem power_isolated_iff (d : IoctlDev) (e : IoctlEnv) (cmd : U32)
    (hsuspend : mtIoctl cmd ≠ some .suspend) (hresume : mtIoctl cmd ≠ some .resume) :
    (∀ r, d.mtTestIoctl e cmd = some r → Isolated (mtIoctl cmd) d r.dev) ↔
      ¬FallsThrough e cmd := by
  cases hp : e.param with
  | none =>
      refine ⟨fun _ hf => ?_, fun _ r hr => ?_⟩
      · obtain ⟨-, p, hp', -⟩ := hf
        rw [hp] at hp'
        contradiction
      · rw [mtTestIoctl, hp] at hr
        exact Option.some.inj hr ▸ .refl _ d
  | some p =>
      have hrun : d.mtTestIoctl e cmd = d.switch e p (mtIoctl cmd) := by rw [mtTestIoctl, hp]
      rw [hrun]
      by_cases hcfg : mtIoctl cmd = some .cfgRw
      · have hfalls : FallsThrough e cmd ↔ 1 ≤ p.d0.toNat ∧ p.d0.toNat ≤ qyMaxRw ∧
            e.copy.kmalloc ≠ none ∧ (barRd = p.b1 ∨ e.copy.fromUser ≠ none) := by
          simp [FallsThrough, hcfg, hp]
        rw [hcfg, switch, hfalls]
        rcases d.doCfgRw_cases e p with ⟨heq, hnot⟩ | ⟨r, heq, hiso, hyes⟩
        · rw [heq]
          exact ⟨fun _ => hnot, fun _ r hr => Option.some.inj hr ▸ .refl _ d⟩
        · rw [heq]
          exact ⟨fun h => absurd (h _ rfl) (d.not_isolated_doSuspend e p hiso),
            fun hnot => absurd hyes hnot⟩
      · refine iff_of_true (fun r hr => ?_) fun hf => hcfg hf.1
        cases hk : mtIoctl cmd with
        | none => rw [hk] at hr; exact Option.some.inj hr ▸ .refl _ d
        | some k =>
            rw [hk] at hr hsuspend hresume hcfg
            cases k with
            | cfgRw => contradiction
            | suspend => contradiction
            | resume => contradiction
            | barRw => exact d.isolated_barRw e p hr
            | readRom => exact Option.some.inj hr ▸ d.isolated_readRom e
            | getPower => exact Option.some.inj hr ▸ .refl _ d
            | waitInt => exact Option.some.inj hr ▸ d.isolated_waitInt e p
            | ipc => exact Option.some.inj hr ▸ d.isolated_ipc e p
            | irqInit => exact Option.some.inj hr ▸ d.isolated_irqInit e p
            | mtdmaBareRw => exact Option.some.inj hr ▸ d.isolated_mtdmaBareRw e p
            | mtdmaRw => exact Option.some.inj hr ▸ d.isolated_mtdmaRw e p
            | trigInt => exact Option.some.inj hr ▸ d.isolated_trigInt e p
            | dmaisrSet =>
                exact Option.some.inj hr ▸ ⟨rfl, rfl, ⟨[], (List.append_nil _).symm, by simp⟩,
                  fun _ => rfl, fun _ => rfl, fun hne => absurd rfl hne⟩

/-- A device in `PCI_D0`. -/
def awake : IoctlDev := ⟨.gpu, someBars, fun _ => 0, 0, none, 0, []⟩

/-- The calls of an ioctl all succeed. -/
def smooth (p : MtEmuParam) : IoctlEnv where
  mbox := true
  vfNum := 0
  param := some p
  copy := .done (fun _ => 0) fun _ => 0
  setPower := fun _ state => state
  waited := 1
  softPending := false
  irqInit := 0
  rom := true
  bareRw := none
  dmaBareXfer := 1
  mtdmaRw := none
  emuDmaRw := 0

/-- `MT_IOCTL_GET_POWER`. -/
theorem power_isolated_getPower : mtIoctl 0x80044d05 = some .getPower ∧
    ∀ r, awake.mtTestIoctl (smooth ⟨0, 0, 0, 0⟩) 0x80044d05 = some r →
      Isolated (mtIoctl 0x80044d05) awake r.dev :=
  ⟨by decide,
    (power_isolated_iff awake (smooth ⟨0, 0, 0, 0⟩) 0x80044d05 (by decide) (by decide)).mpr
      fun h => absurd h.1 (by decide)⟩

/-- A read of three bytes of the configuration space reports success and leaves the device
in `PCI_D3hot`. -/
theorem cfg_read_suspends :
    mtIoctl 0x80044d01 = some .cfgRw ∧ awake.power = 0 ∧
      ∃ r, awake.mtTestIoctl (smooth ⟨0, barRd, 3, 0⟩) 0x80044d01 = some r ∧ r.ret = 0 ∧
        r.dev.power = 3 ∧ r.dev.saved ≠ none :=
  ⟨by decide, rfl, _, rfl, rfl, rfl, by simp [doSuspend, setPowerState, call]⟩

end IoctlDev

end MtEmu
