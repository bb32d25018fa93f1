import MtEmu.Lib.Loop
import MtEmu.Vf.Ddr
import MtEmu.Vf.Eata

/-!
# MtEmu.Vf.EataInit

What `iatu_init` (`mt-emu-gpu.c`) leaves in the table of `MtEmu.Vf.Eata`.

`mtdma_eata_desc_init` clears 48 entries of 48 rows, but the table has 64 of 64 and there
can be 60 virtual functions; the loop that follows writes the first entry of the rows of
`VF_NUM`.  `iatuInit_desc` says what is in each entry afterwards.  So a descriptor of an
earlier driver survives in the rows and columns from 48 on (`eata_stale`), and
`eata_installed_iff` says when the table has the new mappings and nothing else.
-/

namespace MtEmu

open Bytes

/-! ## address translation registers -/

/-- `sreg_u32` calls one after the other, each a register and a value. -/
def sregU32s (regs : List (U64 × U64)) (bar0 : Mem) : Mem :=
  regs.foldl (fun bar0 reg => sregU32 reg.1 reg.2 bar0) bar0

/-- `PCIE_CTRL_CFG_BASE`. -/
def pcieCtrlCfgBase : U64 := 0x00200000

/-- `REG_PCIE_IP_IATU`: a register of a region of the address translation, inbound or
outbound. -/
def regPcieIpIatu (rgn : BitVec 8) (inb : Bool) (addr : BitVec 8) : U64 :=
  pcieCtrlCfgBase + (0x1e0000 : U64) +
    (rgn.setWidth 64 <<< 9 ||| (if inb then 0x1 else 0x0 : U64) <<< 8 ||| addr.setWidth 64)

/-- `PCIE_ATU_UNR_REGION_CTRL1`. -/
def pcieAtuUnrRegionCtrl1 : BitVec 8 := 0x00
/-- `PCIE_ATU_UNR_REGION_CTRL2`. -/
def pcieAtuUnrRegionCtrl2 : BitVec 8 := 0x04
/-- `PCIE_ATU_UNR_LOWER_BASE`. -/
def pcieAtuUnrLowerBase : BitVec 8 := 0x08
/-- `PCIE_ATU_UNR_UPPER_BASE`. -/
def pcieAtuUnrUpperBase : BitVec 8 := 0x0c
/-- `PCIE_ATU_UNR_LOWER_LIMIT`. -/
def pcieAtuUnrLowerLimit : BitVec 8 := 0x10
/-- `PCIE_ATU_UNR_LOWER_TARGET`. -/
def pcieAtuUnrLowerTarget : BitVec 8 := 0x14
/-- `PCIE_ATU_UNR_UPPER_TARGET`. -/
def pcieAtuUnrUpperTarget : BitVec 8 := 0x18
/-- `PCIE_ATU_UNR_REGION_CTRL3`. -/
def pcieAtuUnrRegionCtrl3 : BitVec 8 := 0x1c
/-- `PCIE_ATU_UNR_UPPER_LIMIT`. -/
def pcieAtuUnrUpperLimit : BitVec 8 := 0x20

/-- `PCIE_ATU_INCREASE_REGION_SIZE`. -/
def pcieAtuIncreaseRegionSize : U64 := 1 <<< 13
/-- `PCIE_ATU_ENABLE`. -/
def pcieAtuEnable : U64 := 1 <<< 31
/-- `PCIE_ATU_BAR_MODE_ENABLE`. -/
def pcieAtuBarModeEnable : U64 := 1 <<< 30
/-- `PCIE_ATU_DMA_BYPASS`. -/
def pcieAtuDmaBypass : U64 := 1 <<< 27
/-- `PCIE_ATU_VFBAR_MODE_ENABLE`. -/
def pcieAtuVfbarModeEnable : U64 := 1 <<< 26
/-- `PCIE_ATU_VFMATCH_ENABLE`. -/
def pcieAtuVfmatchEnable : U64 := 1 <<< 20
/-- `PCIE_ATU_FUNC_NUM_MATCH_EN`. -/
def pcieAtuFuncNumMatchEn : U64 := 1 <<< 19

/-- `pcie_prog_inbound_atu`. -/
def pcieProgInboundAtu (index func bar : BitVec 8) (localAddr : U64) : Mem → Mem :=
  sregU32s [
    (regPcieIpIatu index true pcieAtuUnrLowerTarget, (lower32Bits localAddr).setWidth 64),
    (regPcieIpIatu index true pcieAtuUnrUpperTarget, (upper32Bits localAddr).setWidth 64),
    (regPcieIpIatu index true pcieAtuUnrRegionCtrl1,
      pcieAtuIncreaseRegionSize ||| func.setWidth 64 <<< 20),
    (regPcieIpIatu index true pcieAtuUnrRegionCtrl2,
      pcieAtuEnable ||| pcieAtuBarModeEnable ||| pcieAtuFuncNumMatchEn |||
        bar.setWidth 64 <<< 8)]

/-- `pcie_prog_inbound_atu_vf`. -/
def pcieProgInboundAtuVf (index func bar : BitVec 8) (localAddr : U64) : Mem → Mem :=
  sregU32s [
    (regPcieIpIatu index true pcieAtuUnrLowerTarget, (lower32Bits localAddr).setWidth 64),
    (regPcieIpIatu index true pcieAtuUnrUpperTarget, (upper32Bits localAddr).setWidth 64),
    (regPcieIpIatu index true pcieAtuUnrRegionCtrl1, 0),
    (regPcieIpIatu index true pcieAtuUnrRegionCtrl3, func.setWidth 64),
    (regPcieIpIatu index true pcieAtuUnrRegionCtrl2,
      pcieAtuEnable ||| pcieAtuVfbarModeEnable ||| pcieAtuVfmatchEnable |||
        bar.setWidth 64 <<< 8)]

/-- `pcie_prog_outbound_atu`. -/
def pcieProgOutboundAtu (index func : BitVec 8) (localAddr remoteAddr size : U64) : Mem → Mem :=
  let limitAddr := localAddr + size - 1
  sregU32s [
    (regPcieIpIatu index false pcieAtuUnrLowerBase, (lower32Bits localAddr).setWidth 64),
    (regPcieIpIatu index false pcieAtuUnrUpperBase, (upper32Bits localAddr).setWidth 64),
    (regPcieIpIatu index false pcieAtuUnrLowerLimit, (lower32Bits limitAddr).setWidth 64),
    (regPcieIpIatu index false pcieAtuUnrUpperLimit, (upper32Bits limitAddr).setWidth 64),
    (regPcieIpIatu index false pcieAtuUnrLowerTarget, (lower32Bits remoteAddr).setWidth 64),
    (regPcieIpIatu index false pcieAtuUnrUpperTarget, (upper32Bits remoteAddr).setWidth 64),
    (regPcieIpIatu index false pcieAtuUnrRegionCtrl1,
      pcieAtuIncreaseRegionSize ||| func.setWidth 64 <<< 20),
    (regPcieIpIatu index false pcieAtuUnrRegionCtrl2, pcieAtuEnable ||| pcieAtuDmaBypass)]

/-! ## `iatu_init` -/

/-- `EATA_VF_NUM`. -/
def eataVfNum : Nat := 48

/-- `EATA_DESC_NUM`. -/
def eataDescNum : Nat := 48

/-- `IATU_NUM`. -/
def iatuNum : BitVec 8 := 50

/-- `SIZE_OUTBOUND`. -/
def sizeOutbound : U64 := 0x8000000000

/-- `P2P_OUTB_SIZE`. -/
def p2pOutbSize : U64 := 0x40000000

/-- `LADDR_P2P`. -/
def laddrP2p : U64 := 0x0 + sizeOutbound - p2pOutbSize

/-- `LADDR_APU`. -/
def laddrApu (ddrSzGb : Nat) : U64 := ddrSzFree ddrSzGb

/-- `mtdma_eata_desc_init`: the bounds of its loops are written out, and are not those of the
table. -/
def mtdmaEataDescInit : Mem → Mem :=
  Loop.each eataVfNum fun x => Loop.each eataDescNum fun y =>
    sregU32 (eataRegOfDescxVMn pcieDmaEataDsCfgBase (BitVec.ofNat 32 x) + 0x004 * BitVec.ofNat 64 y)
      0x0

/-- A round of the loop of `iatu_init`. -/
def iatuInitVf (use512m : Bool) (ddrSzGb vfNum i : Nat) (bar0 : Mem) : Mem :=
  mtdmaEataDescEn use512m i 0 (laddrVgpu ddrSzGb vfNum i)
    (pcieProgInboundAtuVf (BitVec.ofNat 8 i) (BitVec.ofNat 8 i) 2 (laddrVgpuBase ddrSzGb vfNum)
      bar0)

/-- `iatu_init`, for the build options. -/
def iatuInit (use512m : Bool) (ddrSzGb vfNum : Nat) (bar0 : Mem) : Mem :=
  let bar0 := pcieProgInboundAtu (iatuNum - 1) 0 2 0x0 bar0
  let bar0 := pcieProgInboundAtu (iatuNum - 2) 1 2 (laddrApu ddrSzGb) bar0
  let bar0 := pcieProgOutboundAtu 0 0 0x0 0x0 (sizeOutbound - p2pOutbSize) bar0
  let bar0 := pcieProgOutboundAtu 1 0 laddrP2p 0x5fc10000000 p2pOutbSize bar0
  let bar0 := mtdmaEataDescInit bar0
  Loop.each vfNum (iatuInitVf use512m ddrSzGb vfNum) bar0

/-! ## the entries -/

/-- An entry of the table. -/
def eataDesc (bar0 : Mem) (key : Fin 64 × Fin 64) : Nat := load bar0 (eataEntry key) 4

/-- `EATA_DESC_VALID` is set in an entry. -/
def EataValid (bar0 : Mem) (key : Fin 64 × Fin 64) : Prop :=
  eataDesc bar0 key &&& eataDescValid.toNat ≠ 0

instance (bar0 : Mem) (key : Fin 64 × Fin 64) : Decidable (EataValid bar0 key) :=
  inferInstanceAs (Decidable (_ ≠ _))

/-- What `mtdma_eata_desc_en` writes. -/
def eataDescOf (use512m : Bool) (destAddr : U64) : U32 :=
  (eataDescDestAddr use512m destAddr ||| eataDescSize use512m ||| eataDescValid).setWidth 32

/-- The entries that `mtdma_eata_desc_init` clears. -/
def EataCleared (key : Fin 64 × Fin 64) : Prop := key.1 < eataVfNum ∧ key.2 < eataDescNum

/-- The entries that the loop of `iatu_init` writes. -/
def EataEnabled (vfNum : Nat) (key : Fin 64 × Fin 64) : Prop := key.1 < vfNum ∧ key.2.val = 0

instance (key : Fin 64 × Fin 64) : Decidable (EataCleared key) :=
  inferInstanceAs (Decidable (_ ∧ _))

instance (vfNum : Nat) (key : Fin 64 × Fin 64) : Decidable (EataEnabled vfNum key) :=
  inferInstanceAs (Decidable (_ ∧ _))

/-- The table maps page 0 of each virtual function to its memory and has no other
descriptor. -/
structure EataInstalled (use512m : Bool) (ddrSzGb vfNum : Nat) (bar0 : Mem) : Prop where
  valid : ∀ key, EataValid bar0 key ↔ EataEnabled vfNum key
  mapped : ∀ key, EataEnabled vfNum key →
    eataTable use512m bar0 key = some (laddrVgpu ddrSzGb vfNum key.1).toNat

/-! ## what the calls leave -/

/-- The address translation registers lie in front of the table. -/
theorem regPcieIpIatu_lt (rgn : BitVec 8) (inb : Bool) (addr : BitVec 8) :
    (regPcieIpIatu rgn inb addr).toNat < 0x400000 := by
  have hbits : (rgn.setWidth 64 <<< 9 ||| (if inb then 0x1 else 0x0 : U64) <<< 8 |||
      addr.setWidth 64).toNat < 2 ^ 17 := by
    have hrgn := rgn.isLt
    have haddr := addr.isLt
    rw [BitVec.toNat_or, BitVec.toNat_or]
    refine Nat.or_lt_two_pow (Nat.or_lt_two_pow ?_ ?_) ?_
    · rw [BitVec.toNat_shiftLeft, BitVec.toNat_setWidth, Nat.shiftLeft_eq]
      omega
    · cases inb <;> decide
    · rw [BitVec.toNat_setWidth]
      omega
  have hbase : (pcieCtrlCfgBase + 0x1e0000).toNat = 0x3e0000 := rfl
  rw [regPcieIpIatu, BitVec.toNat_add, hbase]
  omega

/-- Registers in front of the table are not entries. -/
theorem eataDesc_sregU32s {regs : List (U64 × U64)} (h : ∀ reg ∈ regs, reg.1.toNat < 0x400000)
    (bar0 : Mem) (key : Fin 64 × Fin 64) :
    eataDesc (sregU32s regs bar0) key = eataDesc bar0 key := by
  induction regs generalizing bar0 with
  | nil => rfl
  | cons reg regs ih =>
      have hreg := h reg List.mem_cons_self
      have hkey : eataEntry key + 4 ≤ reg.1.toNat ∨ reg.1.toNat + 4 ≤ eataEntry key := by
        simp only [eataEntry, eataRow]
        omega
      have hrest := ih (fun r hr => h r (List.mem_cons_of_mem _ hr)) (sregU32 reg.1 reg.2 bar0)
      rw [sregU32s, List.foldl_cons, ← sregU32s, hrest, eataDesc, sregU32,
        load_store_of_disjoint _ _ hkey, eataDesc]

@[simp] theorem eataDesc_pcieProgInboundAtu (index func bar : BitVec 8) (localAddr : U64)
    (bar0 : Mem) (key : Fin 64 × Fin 64) :
    eataDesc (pcieProgInboundAtu index func bar localAddr bar0) key = eataDesc bar0 key :=
  eataDesc_sregU32s (by simp [regPcieIpIatu_lt]) bar0 key

@[simp] theorem eataDesc_pcieProgInboundAtuVf (index func bar : BitVec 8) (localAddr : U64)
    (bar0 : Mem) (key : Fin 64 × Fin 64) :
    eataDesc (pcieProgInboundAtuVf index func bar localAddr bar0) key = eataDesc bar0 key :=
  eataDesc_sregU32s (by simp [regPcieIpIatu_lt]) bar0 key

@[simp] theorem eataDesc_pcieProgOutboundAtu (index func : BitVec 8)
    (localAddr remoteAddr size : U64) (bar0 : Mem) (key : Fin 64 × Fin 64) :
    eataDesc (pcieProgOutboundAtu index func localAddr remoteAddr size bar0) key =
      eataDesc bar0 key :=
  eataDesc_sregU32s (by simp [regPcieIpIatu_lt]) bar0 key

/-- A store to an entry. -/
theorem eataDesc_store (bar0 : Mem) (key l : Fin 64 × Fin 64) {v : Nat} (hv : v < 0x100000000) :
    eataDesc (store bar0 (eataEntry l) 4 v) key = if key = l then v else eataDesc bar0 key := by
  split
  · subst key
    rw [eataDesc, load_store_self]
    exact Nat.mod_eq_of_lt hv
  · rw [eataDesc, load_store_of_disjoint _ _ (eataEntry_apart (Ne.symm ‹_›)), eataDesc]

/-- A round of the clearing loops. -/
theorem eataDesc_clear (bar0 : Mem) (key : Fin 64 × Fin 64) {x y : Nat} (hx : x < 64)
    (hy : y < 64) :
    eataDesc (sregU32 (eataRegOfDescxVMn pcieDmaEataDsCfgBase (BitVec.ofNat 32 x) +
      0x004 * BitVec.ofNat 64 y) 0x0 bar0) key =
        if key.1.val = x ∧ key.2.val = y then 0 else eataDesc bar0 key := by
  have hidx : (BitVec.ofNat 64 y).toNat = y := by
    rw [BitVec.toNat_ofNat]
    omega
  rw [sregU32, eataReg_entry (⟨x, hx⟩, ⟨y, hy⟩) hidx, eataDesc_store bar0 key _ (BitVec.isLt _)]
  simp only [Prod.ext_iff, Fin.ext_iff]
  rfl

/-- A row is cleared up to the last of the 48 entries, and the other rows are left. -/
theorem eataDesc_clear_row (bar0 : Mem) (key : Fin 64 × Fin 64) {x : Nat} (hx : x < eataVfNum) :
    eataDesc (Loop.each eataDescNum (fun y =>
      sregU32 (eataRegOfDescxVMn pcieDmaEataDsCfgBase (BitVec.ofNat 32 x) +
        0x004 * BitVec.ofNat 64 y) 0x0) bar0) key =
      if key.1.val = x ∧ key.2 < eataDescNum then 0 else eataDesc bar0 key := by
  have hnum : eataVfNum = 48 := rfl
  have hdesc : eataDescNum = 48 := rfl
  split
  · obtain ⟨hrow, hcol⟩ := ‹_ ∧ _›
    refine Loop.each_set (fun bar0 => eataDesc bar0 key) hcol (fun bar0 => ?_)
      fun j hj hlt bar0 => ?_
    · rw [eataDesc_clear bar0 key (by omega) (by omega), if_pos ⟨hrow, rfl⟩]
    · rw [eataDesc_clear bar0 key (by omega) (by omega), if_neg (by omega)]
  · refine Loop.each_keep (fun bar0 => eataDesc bar0 key) fun j hj bar0 => ?_
    rw [eataDesc_clear bar0 key (by omega) (by omega), if_neg (by omega)]

/-- `mtdma_eata_desc_init` clears 48 entries of 48 rows. -/
theorem eataDesc_init (bar0 : Mem) (key : Fin 64 × Fin 64) :
    eataDesc (mtdmaEataDescInit bar0) key = if EataCleared key then 0 else eataDesc bar0 key := by
  rw [mtdmaEataDescInit]
  split
  · obtain ⟨hrow, hcol⟩ := ‹EataCleared key›
    refine Loop.each_set (fun bar0 => eataDesc bar0 key) hrow (fun bar0 => ?_)
      fun j hj hlt bar0 => ?_
    · rw [eataDesc_clear_row bar0 key hrow, if_pos ⟨rfl, hcol⟩]
    · rw [eataDesc_clear_row bar0 key hj, if_neg fun h => hlt.ne h.1]
  · have hout : ¬EataCleared key := ‹_›
    refine Loop.each_keep (fun bar0 => eataDesc bar0 key) fun j hj bar0 => ?_
    rw [eataDesc_clear_row bar0 key hj,
      if_neg fun (h : key.1.val = j ∧ key.2 < eataDescNum) => hout ⟨h.1 ▸ hj, h.2⟩]

/-- A round of the loop of `iatu_init` writes the first entry of a row. -/
theorem eataDesc_iatuInitVf (use512m : Bool) (ddrSzGb vfNum : Nat) {i : Nat} (hi : i < 64)
    (bar0 : Mem) (key : Fin 64 × Fin 64) :
    eataDesc (iatuInitVf use512m ddrSzGb vfNum i bar0) key =
      if key.1.val = i ∧ key.2.val = 0 then (eataDescOf use512m (laddrVgpu ddrSzGb vfNum i)).toNat
      else eataDesc bar0 key := by
  have hpage : (0 : U64).toNat < 64 * eataPage use512m := by
    cases use512m <;> decide
  have hzero : EataSrc.page ⟨0, hpage⟩ = 0 := Fin.ext (Nat.zero_div _)
  have hwrite := mtdmaEataDescEn_eq ⟨i, hi⟩ ⟨0, hpage⟩ (laddrVgpu ddrSzGb vfNum i)
  rw [iatuInitVf, hwrite, hzero]
  simp only
  rw [← eataDescOf, eataDesc_store _ key _ (BitVec.isLt _), eataDesc_pcieProgInboundAtuVf]
  simp only [Prod.ext_iff, Fin.ext_iff]
  rfl

/-- What `iatu_init` leaves in each entry. -/
theorem iatuInit_desc (use512m : Bool) (ddrSzGb : Nat) {vfNum : Nat} (hle : vfNum ≤ vfNumMax)
    (bar0 : Mem) (key : Fin 64 × Fin 64) :
    eataDesc (iatuInit use512m ddrSzGb vfNum bar0) key =
      if EataEnabled vfNum key then
        (eataDescOf use512m (laddrVgpu ddrSzGb vfNum key.1)).toNat
      else if EataCleared key then 0 else eataDesc bar0 key := by
  have hmax : vfNumMax = 60 := rfl
  have hkeep : ∀ j < vfNum, ¬(key.1.val = j ∧ key.2.val = 0) → ∀ bar0,
      eataDesc (iatuInitVf use512m ddrSzGb vfNum j bar0) key = eataDesc bar0 key :=
    fun j hj hne bar0 => by
      rw [eataDesc_iatuInitVf use512m ddrSzGb vfNum (by omega) bar0 key, if_neg hne]
  rw [iatuInit]
  split
  · obtain ⟨hrow, hcol⟩ := ‹EataEnabled vfNum key›
    refine Loop.each_set (fun bar0 => eataDesc bar0 key) hrow (fun bar0 => ?_)
      fun j hj hlt => hkeep j hj fun h => hlt.ne h.1
    rw [eataDesc_iatuInitVf use512m ddrSzGb vfNum key.1.isLt bar0 key, if_pos ⟨rfl, hcol⟩]
  · have hout : ¬EataEnabled vfNum key := ‹_›
    refine (Loop.each_keep (fun bar0 => eataDesc bar0 key) fun j hj =>
      hkeep j hj fun h => hout ⟨h.1 ▸ hj, h.2⟩).trans ?_
    simp [eataDesc_init]

/-! ## the new mappings -/

theorem eataValid_iff {bar0 : Mem} {key : Fin 64 × Fin 64} :
    EataValid bar0 key ↔ eataDesc bar0 key % 2 = 1 := by
  have hvalid : eataDescValid.toNat = 1 := rfl
  rw [EataValid, hvalid, Nat.and_one_is_mod]
  omega

/-- What `mtdma_eata_desc_en` writes is valid, for any destination. -/
theorem eataDescOf_valid (use512m : Bool) (destAddr : U64) :
    (eataDescOf use512m destAddr).toNat % 2 = 1 := by
  have hbit : (eataDescOf use512m destAddr).getLsbD 0 = true := by
    rw [eataDescOf, BitVec.getLsbD_setWidth, BitVec.getLsbD_or]
    simp [eataDescValid]
  rw [BitVec.getLsbD, Nat.testBit_zero, decide_eq_true_eq] at hbit
  exact hbit

/-- An entry has 40 bits for an address. -/
theorem eataDecode_lt {use512m : Bool} {entry frame : Nat} (hentry : entry < 0x100000000)
    (h : eataDecode use512m entry = some frame) : frame < 0x10000000000 := by
  rw [eataDecode] at h
  split at h
  · cases use512m <;>
      simp only [eataUnit, eataPage, Bool.false_eq_true, ↓reduceIte, Option.some.injEq] at h <;>
      omega
  · contradiction

/-- A gigabyte is a number of pages. -/
theorem gigabytes_frame (use512m : Bool) (k : Nat) (h : (gigabytes k).toNat < 0x10000000000) :
    EataDest.frame use512m ⟨gigabytes k, h⟩ = (gigabytes k).toNat := by
  simp only [EataDest.frame, toNat_gigabytes]
  cases use512m <;> simp only [eataPage, Bool.false_eq_true, ↓reduceIte] <;> omega

/-- The memory of a virtual function is mapped if its address has 40 bits. -/
theorem eataDecode_laddrVgpu (use512m : Bool) (ddrSzGb : Nat) {vfNum : Nat}
    (hle : vfNum ≤ vfNumMax) (vf : Nat) :
    eataDecode use512m (eataDescOf use512m (laddrVgpu ddrSzGb vfNum vf)).toNat =
        some (laddrVgpu ddrSzGb vfNum vf).toNat ↔
      (laddrVgpu ddrSzGb vfNum vf).toNat < 0x10000000000 := by
  constructor
  · exact eataDecode_lt (BitVec.isLt _)
  · intro hlt
    have hdec := eataDecode_desc use512m ⟨laddrVgpu ddrSzGb vfNum vf, hlt⟩
    rw [← eataDescOf] at hdec
    rw [hdec]
    simp only [laddrVgpu_eq hle] at hlt ⊢
    rw [gigabytes_frame use512m _ hlt]

/-- There is room for the windows in the part of the memory that 40 bits address.  No entry
maps to an address beyond it (`eataDecode_lt`). -/
def EataRoom (ddrSzGb vfNum : Nat) : Prop :=
  vfNum = 0 ∨ vfNum = vfNumMax ∨ vfNum ≤ ddrFreeGb ddrSzGb ∧ ddrFreeGb ddrSzGb ≤ 1024

/-- All windows have 40-bit addresses. -/
theorem laddrVgpu_lt_iff {ddrSzGb vfNum : Nat} (hle : vfNum ≤ vfNumMax) :
    (∀ vf < vfNum, (laddrVgpu ddrSzGb vfNum vf).toNat < 0x10000000000) ↔
      EataRoom ddrSzGb vfNum := by
  have hmax : vfNumMax = 60 := rfl
  have hfree := ddrFreeGb_lt ddrSzGb
  have haddr : ∀ vf, (laddrVgpu ddrSzGb vfNum vf).toNat = 0x40000000 *
      ((if vfNum = vfNumMax then vf else ddrFreeGb ddrSzGb + (0x400000000 - vfNum) + vf) %
        0x400000000) := fun vf => by rw [laddrVgpu_eq hle, toNat_gigabytes]
  simp only [haddr, EataRoom]
  constructor
  · intro h
    by_cases hzero : vfNum = 0
    · exact .inl hzero
    · by_cases hall : vfNum = vfNumMax
      · exact .inr (.inl hall)
      · have hfirst := h 0 (by omega)
        have hlast := h (vfNum - 1) (by omega)
        rw [if_neg hall] at hfirst hlast
        omega
  · rintro hroom vf hvf
    split
    · omega
    · omega

/-! ## stale descriptors -/

/-- The valid entries afterwards. -/
theorem iatuInit_valid (use512m : Bool) (ddrSzGb : Nat) {vfNum : Nat} (hle : vfNum ≤ vfNumMax)
    (bar0 : Mem) (key : Fin 64 × Fin 64) :
    EataValid (iatuInit use512m ddrSzGb vfNum bar0) key ↔
      EataEnabled vfNum key ∨ ¬EataCleared key ∧ EataValid bar0 key := by
  rw [eataValid_iff, iatuInit_desc use512m ddrSzGb hle, eataValid_iff]
  split
  · exact iff_of_true (eataDescOf_valid use512m _) (.inl ‹_›)
  · split
    · simp [*]
    · simp [*]

/-- The frames of the entries that the loop of `iatu_init` writes. -/
theorem iatuInit_table (use512m : Bool) (ddrSzGb : Nat) {vfNum : Nat} (hle : vfNum ≤ vfNumMax)
    (bar0 : Mem) {key : Fin 64 × Fin 64} (hkey : EataEnabled vfNum key) :
    eataTable use512m (iatuInit use512m ddrSzGb vfNum bar0) key =
      eataDecode use512m (eataDescOf use512m (laddrVgpu ddrSzGb vfNum key.1)).toNat := by
  have hdesc := iatuInit_desc use512m ddrSzGb hle bar0 key
  rw [if_pos hkey, eataDesc] at hdesc
  rw [eataTable, hdesc]

/-- **The table after `iatu_init`**: it has the new mappings and no other descriptor when the
windows have 40-bit addresses and every descriptor that was valid before is in the 48 entries
of 48 rows that are cleared, or is one of those that are written. -/
theorem eata_installed_iff (use512m : Bool) (ddrSzGb : Nat) {vfNum : Nat} (hle : vfNum ≤ vfNumMax)
    (bar0 : Mem) :
    EataInstalled use512m ddrSzGb vfNum (iatuInit use512m ddrSzGb vfNum bar0) ↔
      (∀ key, EataValid bar0 key → EataCleared key ∨ EataEnabled vfNum key) ∧
        EataRoom ddrSzGb vfNum := by
  have hmax : vfNumMax = 60 := rfl
  constructor
  · intro h
    refine ⟨fun key hold => ?_, (laddrVgpu_lt_iff hle).mp fun vf hvf => ?_⟩
    · by_cases hclear : EataCleared key
      · exact .inl hclear
      · have hnew := (iatuInit_valid use512m ddrSzGb hle bar0 key).mpr (.inr ⟨hclear, hold⟩)
        exact .inr ((h.valid key).mp hnew)
    · have hvm : vf < 64 := by omega
      have hkey : EataEnabled vfNum (⟨vf, hvm⟩, 0) := ⟨hvf, rfl⟩
      have hmap := h.mapped _ hkey
      rw [iatuInit_table use512m ddrSzGb hle bar0 hkey] at hmap
      exact (eataDecode_laddrVgpu use512m ddrSzGb hle vf).mp hmap
  · rintro ⟨hold, hroom⟩
    refine ⟨fun key => ?_, fun key hkey => ?_⟩
    · rw [iatuInit_valid use512m ddrSzGb hle]
      constructor
      · rintro (hkey | ⟨hclear, hvalid⟩)
        · exact hkey
        · exact (hold key hvalid).resolve_left hclear
      · exact .inl
    · rw [iatuInit_table use512m ddrSzGb hle bar0 hkey, eataDecode_laddrVgpu use512m ddrSzGb hle]
      exact (laddrVgpu_lt_iff hle).mpr hroom key.1 hkey.1

/-- From a table with nothing in it, for all virtual functions. -/
theorem eata_installed_iff_cold : EataInstalled false 48 60 (iatuInit false 48 60 fun _ => 0) :=
  (eata_installed_iff false 48 (by decide) _).mpr
    ⟨fun _ h => absurd (eataValid_iff.mp h) (by simp [eataDesc, load]), .inr (.inl rfl)⟩

/-- A driver for 47 virtual functions, loaded after one for 60: the descriptors of the last
twelve virtual machines stay. -/
theorem eata_stale :
    ¬EataInstalled false 48 47 (iatuInit false 48 47 (iatuInit false 48 60 fun _ => 0)) := by
  intro h
  have hfirst := (@iatuInit_valid false 48 60 (by decide) (fun _ => 0) (59, 0)).mpr
    (.inl (by decide))
  have hthen := (@iatuInit_valid false 48 47 (by decide)
    (iatuInit false 48 60 fun _ => 0) (59, 0)).mpr (.inr ⟨by decide, hfirst⟩)
  exact absurd ((h.valid _).mp hthen) (by decide)

end MtEmu
