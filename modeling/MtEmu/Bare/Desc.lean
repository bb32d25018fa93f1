import MtEmu.Lib.Copy
import Mathlib.Data.BitVec

/-!
# MtEmu.Bare.Desc

Channel registers and DMA descriptors (`mt-emu-mtdma-bare.h`).

A channel is programmed by 32-bit writes: `SET_CH_32` to one of its
registers and `SET_LL_32` to one of the eight words of a descriptor.  The
first descriptor of a transfer lives in the channel's own registers, the
others in 32-byte slots of a list window.  `ChanMem` is what the hardware
sees of all this: list words are kept by device-visible address, so that
following a `lar` link is a lookup.

`setDesc` is the run of eight writes that stores one descriptor;
`writes_setDesc_regs` and `writes_setDesc_slot` say that they replace the
old one whole, and `ofWords_word` that it is read back as it was.
-/

namespace MtEmu

abbrev U32 := BitVec 32
abbrev U64 := BitVec 64

/-- `lower_32_bits`. -/
def lower32Bits (x : U64) : U32 := x.extractLsb' 0 32

/-- `upper_32_bits`. -/
def upper32Bits (x : U64) : U32 := x.extractLsb' 32 32

/-- The two words of a 64-bit field, joined again. -/
@[simp] theorem upper_append_lower (x : U64) : upper32Bits x ++ lower32Bits x = x := by
  apply BitVec.eq_of_toNat_eq
  simp only [upper32Bits, lower32Bits, BitVec.toNat_append, BitVec.extractLsb'_toNat]
  rw [← Nat.shiftLeft_add_eq_or_of_lt (by omega), Nat.shiftLeft_eq, Nat.shiftRight_eq_div_pow]
  omega

/-- An `int` that is not negative keeps its value when it is widened. -/
theorem toNat_signExtend_of_lt {x : U32} (hx : x.toNat < 0x80000000) :
    (x.signExtend 64).toNat = x.toNat := by
  have hmsb : x.msb = false := BitVec.msb_eq_false_iff_two_mul_lt.mpr (by omega)
  rw [BitVec.signExtend_eq_setWidth_of_msb_false hmsb, BitVec.toNat_setWidth]
  omega

/-- Indices below 2 ^ 31 keep their value when an `int` is widened. -/
theorem signExtend_ofNat {k : Nat} (hk : k < 2 ^ 31) :
    (BitVec.ofNat 32 k).signExtend 64 = BitVec.ofNat 64 k := by
  have hidx : (BitVec.ofNat 32 k).toNat = k := Nat.mod_eq_of_lt (by omega)
  apply BitVec.eq_of_toNat_eq
  rw [toNat_signExtend_of_lt (by omega), hidx, BitVec.toNat_ofNat]
  omega

/-! ## registers -/

/-- The channel registers the driver writes or reads, `REG_DMA_CH_*`. -/
inductive ChReg where
  | enable
  | direction
  | mmuAddrType
  | fc
  | intrImsk
  | intrRaw
  | lbarBasic
  deriving DecidableEq

/-- The words of `struct dma_ch_desc`. -/
inductive LLWord where
  | descOp
  | cnt
  | sarLsb
  | sarMsb
  | darLsb
  | darMsb
  | larLsb
  | larMsb
  deriving DecidableEq

/-- `struct dma_ch_desc`. -/
structure DmaChDesc where
  descOp : U32
  cnt : U32
  sar : U64
  dar : U64
  lar : U64
  deriving DecidableEq

/-- `sizeof(struct dma_ch_desc)`. -/
def descSize : U64 := 32

/-- What a `struct dma_ch_desc *` points at: the channel's own descriptor
registers, slot `idx` of the list window the transfer uses, or (only for a
pointer that was never set) memory outside both. -/
inductive Lli where
  | regs
  | slot (idx : U64)
  | other (addr : U64)
  deriving DecidableEq, Inhabited

/-- The device-visible address of a list slot, in a window that starts at
`base`. -/
def slotAddr (base idx : U64) : U64 := base + idx * descSize

/-- The word of a descriptor as it is stored. -/
def DmaChDesc.word (d : DmaChDesc) : LLWord → U32
  | .descOp => d.descOp
  | .cnt => d.cnt
  | .sarLsb => lower32Bits d.sar
  | .sarMsb => upper32Bits d.sar
  | .darLsb => lower32Bits d.dar
  | .darMsb => upper32Bits d.dar
  | .larLsb => lower32Bits d.lar
  | .larMsb => upper32Bits d.lar

/-- The descriptor that eight stored words make up. -/
def DmaChDesc.ofWords (w : LLWord → U32) : DmaChDesc where
  descOp := w .descOp
  cnt := w .cnt
  sar := w .sarMsb ++ w .sarLsb
  dar := w .darMsb ++ w .darLsb
  lar := w .larMsb ++ w .larLsb

@[simp] theorem DmaChDesc.ofWords_word (d : DmaChDesc) : DmaChDesc.ofWords d.word = d := by
  simp [ofWords, word]

/-- The bytes a descriptor moves: `cnt` holds the length less one. -/
def DmaChDesc.seg (d : DmaChDesc) : Copy.Seg U64 := ⟨d.sar, d.dar, d.cnt.toNat + 1⟩

theorem DmaChDesc.seg_len_pos (d : DmaChDesc) : 0 < d.seg.len := Nat.succ_pos _

/-! ## writes and what the hardware sees of them -/

/-- One register or descriptor write. -/
inductive Access where
  | setCh (reg : ChReg) (value : U32)
  | setLL (lli : Lli) (word : LLWord) (value : U32)
  deriving DecidableEq

/-- What the hardware reads when a channel runs: the channel registers, the
descriptor in them, and list memory by device-visible slot address. -/
structure ChanMem where
  ch : ChReg → U32
  desc : LLWord → U32
  ll : U64 → LLWord → U32
  deriving Inhabited

/-- The effect of one write, for a list window at `base`. -/
def ChanMem.write (base : U64) (m : ChanMem) : Access → ChanMem
  | .setCh reg v => { m with ch := Function.update m.ch reg v }
  | .setLL .regs w v => { m with desc := Function.update m.desc w v }
  | .setLL (.slot idx) w v =>
      { m with ll := Function.update m.ll (slotAddr base idx)
                 (Function.update (m.ll (slotAddr base idx)) w v) }
  | .setLL (.other _) _ _ => m

/-- The effect of a run of writes. -/
def ChanMem.writes (base : U64) (m : ChanMem) (as : List Access) : ChanMem :=
  as.foldl (write base) m

@[simp] theorem ChanMem.writes_nil (base : U64) (m : ChanMem) : m.writes base [] = m := rfl

@[simp] theorem ChanMem.writes_cons (base : U64) (m : ChanMem) (a : Access) (as : List Access) :
    m.writes base (a :: as) = (m.write base a).writes base as := rfl

@[simp] theorem ChanMem.writes_append (base : U64) (m : ChanMem) (as bs : List Access) :
    m.writes base (as ++ bs) = (m.writes base as).writes base bs :=
  List.foldl_append

/-- The descriptor in the channel registers. -/
def ChanMem.regDesc (m : ChanMem) : DmaChDesc := .ofWords m.desc

/-- The descriptor at a device-visible address. -/
def ChanMem.descAt (m : ChanMem) (addr : U64) : DmaChDesc := .ofWords (m.ll addr)

/-- The eight writes that store a descriptor, in the driver's order. -/
def setDesc (lli : Lli) (d : DmaChDesc) : List Access :=
  [.descOp, .cnt, .sarLsb, .sarMsb, .darLsb, .darMsb, .larLsb, .larMsb].map fun w =>
    .setLL lli w (d.word w)

/-- Writing all eight words of a table replaces it. -/
theorem update_words (t : LLWord → U32) (d : DmaChDesc) :
    ([.descOp, .cnt, .sarLsb, .sarMsb, .darLsb, .darMsb, .larLsb, .larMsb].foldl
      (fun t w => Function.update t w (d.word w)) t) = d.word := by
  funext w
  cases w <;> rfl

/-- Storing a descriptor in the channel registers. -/
theorem writes_setDesc_regs (base : U64) (m : ChanMem) (d : DmaChDesc) :
    m.writes base (setDesc .regs d) = { m with desc := d.word } := by
  rw [← update_words m.desc d]
  rfl

/-- Storing a descriptor in a list slot. -/
theorem writes_setDesc_slot (base : U64) (m : ChanMem) (idx : U64) (d : DmaChDesc) :
    m.writes base (setDesc (.slot idx) d) =
      { m with ll := Function.update m.ll (slotAddr base idx) d.word } := by
  rw [← update_words (m.ll (slotAddr base idx)) d]
  simp [setDesc, ChanMem.write]

end MtEmu
