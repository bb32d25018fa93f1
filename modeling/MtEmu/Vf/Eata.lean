import MtEmu.Bare.Desc
import MtEmu.Lib.Bytes

/-!
# MtEmu.Vf.Eata

The table by which the DMA's accesses for a virtual function are translated:
`mtdma_eata_desc_en` and `mtdma_eata_desc_dis` (`eata_api.c`).

The table lies in BAR 0, a row of 64 entries for each of 64 virtual machines.  What the
hardware sees of it is `eataTable`, a page frame or nothing for each entry; `eata_isolated`
says that a call updates one place of it and that calls for different places commute.

A page is 1 GiB, or half of that when the driver is built with `EATA_USE_512M`.
-/

namespace MtEmu

open Bytes

/-! ## entries -/

/-- The bytes of a page. -/
def eataPage (use512m : Bool) : Nat := if use512m then 0x20000000 else 0x40000000

/-- `EATA_DESC_VALID`. -/
def eataDescValid : U64 := 0x1

/-- `EATA_DESC_SIZE`. -/
def eataDescSize (use512m : Bool) : U64 := if use512m then 0xd <<< 3 else 0xe <<< 3

/-- `EATA_DESC_DEST_ADDR`. -/
def eataDescDestAddr (use512m : Bool) (destAddr : U64) : U64 :=
  if use512m then (destAddr >>> 29) <<< 21 else (destAddr >>> 30) <<< 22

/-- `EATA_DESC_IDX`. -/
def eataDescIdx (use512m : Bool) (srcAddr : U64) : U64 :=
  if use512m then srcAddr >>> 29 else srcAddr >>> 30

/-- `PCIE_DMA_EATA_DS_CFG_BASE`. -/
def pcieDmaEataDsCfgBase : U32 := 0x00884000

/-- `PCIE_DMA_EATA_DS_CFG_LIMIT`. -/
def pcieDmaEataDsCfgLimit : U32 := 0x00888000

/-- `EATA_REG_OF_DESCx_VMn`, in the signed arithmetic of `int`. -/
def eataRegOfDescxVMn (base vm : U32) : U64 := (base + vm * 0x100).signExtend 64

/-! ## the calls -/

/-- `sreg_u32`, in the registers of BAR 0 by their offsets; `writel` takes the low word. -/
def sregU32 (addr value : U64) (bar0 : Mem) : Mem :=
  store bar0 addr.toNat 4 (value.setWidth 32).toNat

/-- `mtdma_eata_desc_en`. -/
def mtdmaEataDescEn (use512m : Bool) (vf : Nat) (srcAddr destAddr : U64) : Mem → Mem :=
  sregU32
    (eataRegOfDescxVMn pcieDmaEataDsCfgBase (BitVec.ofNat 32 vf) +
      0x004 * eataDescIdx use512m srcAddr)
    (eataDescDestAddr use512m destAddr ||| eataDescSize use512m ||| eataDescValid)

/-- `mtdma_eata_desc_dis`. -/
def mtdmaEataDescDis (use512m : Bool) (vf : Nat) (srcAddr : U64) : Mem → Mem :=
  sregU32
    (eataRegOfDescxVMn pcieDmaEataDsCfgBase (BitVec.ofNat 32 vf) +
      0x004 * eataDescIdx use512m srcAddr)
    0x0

/-- A source address in one of the 64 pages. -/
abbrev EataSrc (use512m : Bool) := { src : U64 // src.toNat < 64 * eataPage use512m }

/-- The page a source address lies in. -/
def EataSrc.page {use512m : Bool} (src : EataSrc use512m) : Fin 64 :=
  ⟨src.val.toNat / eataPage use512m, Nat.div_lt_of_lt_mul (Nat.mul_comm 64 _ ▸ src.property)⟩

/-- A destination address. -/
abbrev EataDest := { dest : U64 // dest.toNat < 0x10000000000 }

/-- The frame a destination address lies in. -/
def EataDest.frame (use512m : Bool) (dest : EataDest) : Nat :=
  dest.val.toNat / eataPage use512m * eataPage use512m

/-- A call of one of the two functions. -/
inductive EataOp (use512m : Bool) where
  | en (vf : Fin 64) (src : EataSrc use512m) (dest : EataDest)
  | dis (vf : Fin 64) (src : EataSrc use512m)

namespace EataOp

variable {use512m : Bool}

/-- What a call does. -/
def run : EataOp use512m → Mem → Mem
  | en vf src dest => mtdmaEataDescEn use512m vf src.val dest.val
  | dis vf src => mtdmaEataDescDis use512m vf src.val

/-- The entry it is for. -/
def key : EataOp use512m → Fin 64 × Fin 64
  | en vf src _ | dis vf src => (vf, src.page)

/-- What it should put there. -/
def mapping : EataOp use512m → Option Nat
  | en _ _ dest => some (dest.frame use512m)
  | dis _ _ => none

end EataOp

/-! ## the table -/

/-- The offset of a row. -/
def eataRow (vm : Nat) : Nat := 0x884000 + 0x100 * vm

/-- The offset of an entry. -/
def eataEntry (key : Fin 64 × Fin 64) : Nat := eataRow key.1 + 4 * key.2

/-- Where the frame number stands in an entry. -/
def eataUnit (use512m : Bool) : Nat := if use512m then 0x200000 else 0x400000

/-- The frame an entry maps to: below the frame number it has the size and the valid bit
and nothing else. -/
def eataDecode (use512m : Bool) (entry : Nat) : Option Nat :=
  if entry % eataUnit use512m = (eataDescSize use512m ||| eataDescValid).toNat then
    some (entry / eataUnit use512m * eataPage use512m)
  else none

/-- The table as the hardware sees it. -/
def eataTable (use512m : Bool) (bar0 : Mem) (key : Fin 64 × Fin 64) : Option Nat :=
  eataDecode use512m (load bar0 (eataEntry key) 4)

/-- Entries are four bytes of one row, and the rows are inside the table. -/
theorem eataEntry_inside (key : Fin 64 × Fin 64) :
    eataRow key.1 ≤ eataEntry key ∧ eataEntry key + 4 ≤ eataRow (key.1 + 1) ∧
      pcieDmaEataDsCfgBase.toNat ≤ eataRow key.1 ∧
      eataRow (key.1 + 1) ≤ pcieDmaEataDsCfgLimit.toNat := by
  have hbase : pcieDmaEataDsCfgBase.toNat = 0x884000 := rfl
  have hlimit : pcieDmaEataDsCfgLimit.toNat = 0x888000 := rfl
  have hvm := key.1.isLt
  have hi := key.2.isLt
  simp only [eataEntry, eataRow]
  omega

/-- Different entries are apart. -/
theorem eataEntry_apart {k l : Fin 64 × Fin 64} (h : k ≠ l) :
    eataEntry l + 4 ≤ eataEntry k ∨ eataEntry k + 4 ≤ eataEntry l := by
  have hk := k.2.isLt
  have hl := l.2.isLt
  have hne : k.1.val ≠ l.1.val ∨ k.2.val ≠ l.2.val := by
    by_contra hno
    exact h (Prod.ext (Fin.ext (by omega)) (Fin.ext (by omega)))
  simp only [eataEntry, eataRow]
  omega

/-! ## what a call writes -/

/-- The entry number in a register's offset. -/
theorem eataDescIdx_toNat (use512m : Bool) (src : U64) :
    (eataDescIdx use512m src).toNat = src.toNat / eataPage use512m := by
  cases use512m <;>
    simp [eataDescIdx, eataPage, BitVec.toNat_ushiftRight, Nat.shiftRight_eq_div_pow]

/-- The register with the number of an entry of a row is the entry. -/
theorem eataReg_entry (key : Fin 64 × Fin 64) {idx : U64} (hidx : idx.toNat = key.2) :
    (eataRegOfDescxVMn pcieDmaEataDsCfgBase (BitVec.ofNat 32 key.1) + 0x004 * idx).toNat =
      eataEntry key := by
  have hvf := key.1.isLt
  have hpage := key.2.isLt
  have hrow : (eataRegOfDescxVMn pcieDmaEataDsCfgBase (BitVec.ofNat 32 key.1)).toNat =
      0x884000 + 0x100 * key.1 := by
    have hint : (pcieDmaEataDsCfgBase + BitVec.ofNat 32 key.1 * 0x100).toNat =
        0x884000 + 0x100 * key.1 := by
      rw [pcieDmaEataDsCfgBase]
      bv_omega
    rw [eataRegOfDescxVMn, toNat_signExtend_of_lt (by omega), hint]
  rw [eataEntry, eataRow, BitVec.toNat_add, hrow, BitVec.toNat_mul, hidx]
  simp only [BitVec.reduceToNat]
  omega

/-- The register is the entry. -/
theorem eataReg_toNat {use512m : Bool} (vf : Fin 64) (src : EataSrc use512m) :
    (eataRegOfDescxVMn pcieDmaEataDsCfgBase (BitVec.ofNat 32 vf) +
      0x004 * eataDescIdx use512m src.val).toNat = eataEntry (vf, src.page) :=
  eataReg_entry (vf, src.page) (eataDescIdx_toNat use512m src.val)

/-- A call stores its value in its entry. -/
theorem mtdmaEataDescEn_eq {use512m : Bool} (vf : Fin 64) (src : EataSrc use512m) (dest : U64) :
    mtdmaEataDescEn use512m vf src.val dest = fun bar0 =>
      store bar0 (eataEntry (vf, src.page)) 4 ((eataDescDestAddr use512m dest |||
        eataDescSize use512m ||| eataDescValid).setWidth 32).toNat := by
  funext bar0
  rw [mtdmaEataDescEn, sregU32, eataReg_toNat]

theorem mtdmaEataDescDis_eq {use512m : Bool} (vf : Fin 64) (src : EataSrc use512m) :
    mtdmaEataDescDis use512m vf src.val = fun bar0 =>
      store bar0 (eataEntry (vf, src.page)) 4 0 := by
  funext bar0
  rw [mtdmaEataDescDis, sregU32, eataReg_toNat]
  rfl

/-- A frame number above the size and the valid bit. -/
theorem eataDescDestAddr_toNat (use512m : Bool) (dest : EataDest) :
    (eataDescDestAddr use512m dest.val).toNat =
      dest.val.toNat / eataPage use512m * eataUnit use512m := by
  have hdest := dest.property
  cases use512m <;>
    simp only [eataDescDestAddr, eataPage, eataUnit, Bool.false_eq_true, ↓reduceIte,
      BitVec.toNat_shiftLeft, BitVec.toNat_ushiftRight, Nat.shiftRight_eq_div_pow,
      Nat.shiftLeft_eq] <;>
    omega

/-- The fields do not overlap, and fit in 32 bits. -/
theorem eataDesc_toNat (use512m : Bool) (dest : EataDest) :
    ((eataDescDestAddr use512m dest.val ||| eataDescSize use512m ||| eataDescValid).setWidth
      32).toNat = dest.val.toNat / eataPage use512m * eataUnit use512m +
        (eataDescSize use512m ||| eataDescValid).toNat := by
  have hdest := dest.property
  have hpow : ∃ k, eataUnit use512m = 2 ^ k := by
    cases use512m with
    | false => exact ⟨22, rfl⟩
    | true => exact ⟨21, rfl⟩
  obtain ⟨k, hk⟩ := hpow
  have hlow : (eataDescSize use512m ||| eataDescValid).toNat < 2 ^ k := by
    rw [← hk]
    cases use512m <;> decide
  rw [BitVec.or_assoc, BitVec.toNat_setWidth, BitVec.toNat_or, eataDescDestAddr_toNat, hk,
    ← Nat.shiftLeft_eq, ← Nat.shiftLeft_add_eq_or_of_lt hlow, Nat.shiftLeft_eq, ← hk]
  apply Nat.mod_eq_of_lt
  cases use512m <;> simp only [eataPage, eataUnit, eataDescSize, eataDescValid] <;> simp <;> omega

/-- What is stored decodes to the frame. -/
theorem eataDecode_desc (use512m : Bool) (dest : EataDest) :
    eataDecode use512m ((eataDescDestAddr use512m dest.val ||| eataDescSize use512m |||
      eataDescValid).setWidth 32).toNat = some (dest.frame use512m) := by
  have hlow : (eataDescSize use512m ||| eataDescValid).toNat < eataUnit use512m := by
    cases use512m <;> decide
  have hdiv : (dest.val.toNat / eataPage use512m * eataUnit use512m +
      (eataDescSize use512m ||| eataDescValid).toNat) / eataUnit use512m =
        dest.val.toNat / eataPage use512m := by
    rw [Nat.mul_comm, Nat.mul_add_div (Nat.zero_lt_of_lt hlow), Nat.div_eq_of_lt hlow,
      Nat.add_zero]
  rw [eataDesc_toNat, eataDecode, if_pos (Nat.mul_add_mod_of_lt hlow), hdiv]
  rfl

/-- An entry that was cleared maps to nothing. -/
theorem eataDecode_zero (use512m : Bool) : eataDecode use512m 0 = none := by
  cases use512m <;> decide

namespace EataOp

variable {use512m : Bool}

/-- A call stores one entry that decodes to what it should. -/
theorem run_spec (op : EataOp use512m) : ∃ v : Nat, v < 0x100000000 ∧
    eataDecode use512m v = op.mapping ∧
      ∀ bar0, op.run bar0 = store bar0 (eataEntry op.key) 4 v := by
  cases op with
  | en vf src dest =>
      exact ⟨_, BitVec.isLt _, eataDecode_desc use512m dest,
        congrFun (mtdmaEataDescEn_eq vf src dest.val)⟩
  | dis vf src =>
      exact ⟨0, by decide, eataDecode_zero use512m, congrFun (mtdmaEataDescDis_eq vf src)⟩

/-- The table afterwards. -/
theorem eataTable_run (op : EataOp use512m) (bar0 : Mem) :
    eataTable use512m (op.run bar0) =
      Function.update (eataTable use512m bar0) op.key op.mapping := by
  obtain ⟨v, hv, hdec, hrun⟩ := op.run_spec
  funext k
  rw [eataTable, hrun]
  by_cases hk : k = op.key
  · have hmod : v % 256 ^ 4 = v := Nat.mod_eq_of_lt hv
    rw [hk, load_store_self, hmod, hdec, Function.update_self]
  · rw [load_store_of_disjoint _ _ (eataEntry_apart (Ne.symm hk)), Function.update_of_ne hk]
    rfl

/-- Calls for different entries commute. -/
theorem run_comm {op op' : EataOp use512m} (h : op.key ≠ op'.key) (bar0 : Mem) :
    op.run (op'.run bar0) = op'.run (op.run bar0) := by
  obtain ⟨v, -, -, hrun⟩ := op.run_spec
  obtain ⟨w, -, -, hrun'⟩ := op'.run_spec
  rw [hrun, hrun', hrun, hrun', store_comm _ _ _ (eataEntry_apart h.symm)]

end EataOp

/-- **Rows are isolated**: for both page sizes, a call writes the four bytes of one entry,
which is in the row of its virtual machine and in the table; the table then has the frame
of the destination there, or nothing after a disable, and is otherwise as it was; and calls
for different entries commute. -/
theorem eata_isolated (use512m : Bool) (bar0 : Mem) (op : EataOp use512m) :
    (eataRow op.key.1 ≤ eataEntry op.key ∧ eataEntry op.key + 4 ≤ eataRow (op.key.1 + 1) ∧
      pcieDmaEataDsCfgBase.toNat ≤ eataRow op.key.1 ∧
      eataRow (op.key.1 + 1) ≤ pcieDmaEataDsCfgLimit.toNat) ∧
    (∀ b, ¬(eataEntry op.key ≤ b ∧ b < eataEntry op.key + 4) → op.run bar0 b = bar0 b) ∧
    eataTable use512m (op.run bar0) =
      Function.update (eataTable use512m bar0) op.key op.mapping ∧
    ∀ op' : EataOp use512m, op.key ≠ op'.key →
      op.run (op'.run bar0) = op'.run (op.run bar0) := by
  refine ⟨eataEntry_inside op.key, fun b hb => ?_, op.eataTable_run bar0,
    fun op' hne => op.run_comm hne bar0⟩
  obtain ⟨v, -, -, hrun⟩ := op.run_spec
  rw [hrun, store_apply_of_not_mem _ _ hb]

end MtEmu
