import MtEmu.Bare.Desc
import MtEmu.Lib.Loop

/-!
# MtEmu.Bare.Xfer

`dma_bare_xfer` up to the enable write: the three ways it programs a
transfer (`mt-emu-mtdma-bare.c`).

* **single** (`desc_cnt == 0`): the register descriptor alone;
* **chain** (`block_cnt == 0`): the register descriptor and one list;
* **block**: `block_cnt` copies of `size` bytes, each with a list of its
  own, the lists linked at 1024-byte boundaries.

In chain and block mode bit 31 of `desc_cnt` selects random sizing, where
`get_random_bytes` decides how `size` is split.  `draws j k` is the number
drawn in round `k` while block `j` is split (chain mode is block 0).

C locals that are read before they are set are parameters (`Junk`), so a
result that holds for all of them holds whatever the stack held.  `none`
means that the call does not get to the enable write: it divides by zero,
writes past its scratch table or never leaves a loop.  The allocation of the
table succeeds.  The list windows are addressed by slot index; how an
index is computed, with which width and which sign extension, follows the
source expression by expression.
-/

namespace MtEmu

open Loop

/-! ## arguments -/

/-- `struct mtdma_chan_info`. -/
structure MtdmaChanInfo where
  rgVaddr : U64
  llVaddr : U64
  llLaddr : U64
  llVaddrSystem : U64
  llLaddrSystem : U64
  llMax : U32
  deriving DecidableEq, Inhabited

/-- The arguments of `dma_bare_xfer` that program the transfer. -/
structure BareXfer where
  dataDirection : U32
  descDirection : U32
  descCnt : U32
  blockCnt : U32
  sar : U64
  dar : U64
  size : U32
  deriving DecidableEq

/-- What uninitialised memory holds: the locals `i` and `lli`, `desc_cnt_tmp`
of each block, and the scratch table `desc_size` of each block. -/
structure Junk where
  i : U32
  lli : Lli
  descCntTmp : U32 → U32
  descSize : U32 → Nat → U32
  deriving Inhabited

/-- The random numbers of a call, by block and round. -/
abbrev Draws := U32 → Nat → U64

namespace BareXfer

/-- `rand_flag`. -/
def randFlag (x : BareXfer) : Bool := x.descCnt >>> 31 = 1

/-- `desc_direction == DMA_DESC_IN_DEVICE`. -/
def inDevice (x : BareXfer) : Bool := x.descDirection = 0

/-- `chain_en`. -/
def chainEn (x : BareXfer) : U32 := if x.descCnt = 0 then 0 else 1

/-- The device-visible start of the list window the transfer uses. -/
def listBase (x : BareXfer) (info : MtdmaChanInfo) : U64 :=
  if x.inDevice then info.llLaddr else info.llLaddrSystem

/-- The `switch` on the data direction: the cross and dummy-read bits and
the MMU address type; `none` is its `default`. -/
def dirBits (x : BareXfer) : Option (U32 × U32) :=
  if x.dataDirection = 0 then some (0b110, 0)
  else if x.dataDirection = 1 then some (0, 0x100)
  else if x.dataDirection = 2 then some (0b100, 0x1)
  else if x.dataDirection = 3 then some (0b010, 0x101)
  else none

/-- `DMA_CH_EN_BIT_DESC_MST1`: the descriptors lie on the far side. -/
def descMst1 (x : BareXfer) : U32 :=
  if x.inDevice then (if x.dataDirection = 1 ∨ x.dataDirection = 0 then 1 else 0)
  else (if x.dataDirection = 3 ∨ x.dataDirection = 2 then 1 else 0)

end BareXfer

/-! ## the random split -/

/-- `r%(64*1024-4*1024) + 4*1024`, stored in a `u32`. -/
def sizeRand (r : U64) : U32 := (r % 61440 + 4096).setWidth 32

/-- The splitting loop, `while(size_tmp!=0)`: the sizes it stores in
`desc_size`, in order; `none` when the fuel runs out. -/
def randSplit : Nat → U32 → (Nat → U64) → Option (List U32)
  | 0, sizeTmp, _ => if sizeTmp = 0 then some [] else none
  | fuel + 1, sizeTmp, r =>
      if sizeTmp = 0 then some []
      else
        let piece := if sizeTmp < sizeRand (r 0) then sizeTmp else sizeRand (r 0)
        (randSplit fuel (sizeTmp - piece) fun k => r (k + 1)).map (piece :: ·)

/-- `desc_cnt_tmp` and the table `desc_size` of `cap` entries after the
splitting loop of block `j`; `none` when the loop writes past the table.  A
loop that ran no round leaves both as they were. -/
def splitBlock (cap : Nat) (x : BareXfer) (junk : Junk) (draws : Draws) (j : U32) :
    Option (U32 × (Nat → U32)) :=
  (randSplit x.size.toNat x.size (draws j)).bind fun ps =>
    if cap < ps.length then none
    else some (if ps = [] then junk.descCntTmp j else BitVec.ofNat 32 (ps.length - 1),
      fun i => ps.getD i (junk.descSize j i))

/-! ## descriptor lists -/

/-- A descriptor and where the driver stores it. -/
abbrev Entry := Lli × DmaChDesc

/-- What the entries copy, in order. -/
def segsOf (es : List Entry) : List (Copy.Seg U64) := es.map fun en => en.2.seg

/-- `LBAR_BASIC` and the descriptors of a transfer, in the order they are
written; chain mode has one block. -/
structure DescList where
  lbarBasic : U32
  blocks : List (List Entry)

/-- All descriptors of the transfer, in transfer order. -/
def DescList.entries (l : DescList) : List Entry := l.blocks.flatten

/-- The running counters of the descriptor loops. -/
structure Cursor where
  sarTmp : U64
  darTmp : U64
  sizeTmp : U32
  elmCnt : U32
  offset : U32

/-- What is fixed while the descriptors of one list are written. -/
structure ListEnv where
  x : BareXfer
  base : U64
  j : U32
  descCntTmp : U32
  descCntTotal : U32
  sizes : Nat → U32

namespace ListEnv

/-- `elm_cnt` in round `i`. -/
def elmCnt (e : ListEnv) (i : U32) (c : Cursor) : U32 :=
  if e.x.randFlag then e.sizes i.toNat else c.elmCnt

/-- `cnt` in round `i`, where `last` is the last one. -/
def cnt (e : ListEnv) (last i : U32) (c : Cursor) : U32 :=
  if e.x.randFlag then e.elmCnt i c
  else if i = last then c.sizeTmp else e.elmCnt i c

/-- Round `i` of the chain loop. -/
def chainBody (e : ListEnv) (i : U32) (c : Cursor) : Entry × Cursor :=
  let elmCnt := e.elmCnt i c
  let cnt := e.cnt e.descCntTmp i c
  let lli := if i = 0 then .regs else .slot ((i - 1).signExtend 64)
  let lar := e.base + i.signExtend 64 * descSize
  ((lli, { descOp := 0, cnt := cnt - 1, sar := c.sarTmp, dar := c.darTmp, lar := lar }),
    { c with
      sarTmp := c.sarTmp + elmCnt.setWidth 64, darTmp := c.darTmp + elmCnt.setWidth 64
      sizeTmp := c.sizeTmp - cnt, elmCnt := elmCnt })

/-- `lar += 1024-(lar%1024)`. -/
def alignLar (lar : U64) : U64 := lar + (1024 - lar % 1024)

/-- `32-(lar%1024)/32`, the slots skipped by `alignLar`. -/
def alignPad (lar : U64) : U32 := (32 - lar % 1024 / 32).setWidth 32

/-- `desc_op` of a block's last descriptor: chain on unless it is the last
block. -/
def lastDescOp (e : ListEnv) : U32 :=
  if e.j ≠ e.x.blockCnt - 1 then e.descCntTmp * 65536 + 1 else 0

/-- Round `i` of the first block.  Here the source and destination pointers
and the remaining size stay as they are from round to round. -/
def firstBlockBody (e : ListEnv) (i : U32) (c : Cursor) : Entry × Cursor :=
  let elmCnt := e.elmCnt i c
  let cnt := e.cnt e.descCntTmp i c
  let lli := if i = 0 then .regs else .slot ((i - 1).signExtend 64)
  let lar := e.base + i.signExtend 64 * descSize + (c.offset * 32).setWidth 64
  let last := i = e.descCntTmp
  ((lli,
      { descOp := if last then e.lastDescOp else 0
        cnt := cnt - 1, sar := c.sarTmp, dar := c.darTmp
        lar := if last then alignLar lar else lar }),
    { c with
      elmCnt := elmCnt
      offset := if last then c.offset + alignPad lar else c.offset })

/-- The slots before block `j`, as the index expressions of a later block
count them: the running total for random sizing in device memory, the block
number times this block's own count otherwise. -/
def before (e : ListEnv) : U32 :=
  if e.x.inDevice ∧ e.x.randFlag then e.descCntTotal else e.j * e.descCntTmp

/-- Round `i` of a later block. -/
def nextBlockBody (e : ListEnv) (i : U32) (c : Cursor) : Entry × Cursor :=
  let elmCnt := e.elmCnt i c
  let cnt := e.cnt (e.descCntTmp - 1) i c
  let lli := Lli.slot ((i + e.before + c.offset).setWidth 64)
  let lar := e.base + (i + e.before + 1).setWidth 64 * descSize + (c.offset * 32).setWidth 64
  let last := i = e.descCntTmp - 1
  ((lli,
      { descOp := if last then e.lastDescOp else 0
        cnt := cnt - 1, sar := c.sarTmp, dar := c.darTmp
        lar := if last then alignLar lar else lar }),
    { sarTmp := c.sarTmp + elmCnt.setWidth 64, darTmp := c.darTmp + elmCnt.setWidth 64
      sizeTmp := c.sizeTmp - cnt, elmCnt := elmCnt
      offset := if last then c.offset + alignPad lar else c.offset })

end ListEnv

/-- `LBAR_BASIC` for a first list of `descCntTmp` descriptors. -/
def lbarBasic (x : BareXfer) (descCntTmp : U32) : U32 := (descCntTmp <<< 16) ||| x.chainEn

/-! ## chain mode -/

/-- Entries in chain mode's scratch table, `kmalloc(1024 * 1024)`. -/
def chainCap : Nat := 262144

/-- Chain mode: one descriptor in the registers, `desc_cnt_tmp` in the list. -/
def xferChain (x : BareXfer) (info : MtdmaChanInfo) (junk : Junk) (draws : Draws) :
    Option DescList := do
  let (descCntTmp, sizes) ←
    if x.randFlag then splitBlock chainCap x junk draws 0 else some (x.descCnt, junk.descSize 0)
  -- with 2 ^ 32 - 1 the condition `i<=desc_cnt_tmp` never fails
  if descCntTmp + 1 = 0 then none
  else
    let e : ListEnv := ⟨x, x.listBase info, 0, descCntTmp, 0, sizes⟩
    let c : Cursor :=
      if x.randFlag then ⟨x.sar, x.dar, 0, 0, 0⟩
      else ⟨x.sar, x.dar, x.size, x.size / (descCntTmp + 1), 0⟩
    some ⟨lbarBasic x descCntTmp, [(rounds e.chainBody (descCntTmp.toNat + 1) 0 c).1]⟩

/-! ## block mode -/

/-- Entries in a block's scratch table, `kmalloc(100000)`. -/
def blockCap : Nat := 25000

/-- `desc_cnt_tmp` and `desc_size` of block `j`; in a later block of random
sizing the count includes the piece that block 0 has in the registers. -/
def blockCounts (x : BareXfer) (junk : Junk) (draws : Draws) (j : U32) :
    Option (U32 × (Nat → U32)) :=
  if x.randFlag then
    (splitBlock blockCap x junk draws j).map fun s => (if j = 0 then s.1 else s.1 + 1, s.2)
  else some (x.descCnt, junk.descSize j)

/-- The counters that live through all blocks. -/
structure BlockState where
  offset : U32
  descCntTotal : U32

/-- The descriptors of block `j`.  The block's start is computed in 32 bits,
`j*size`, before it is added to the 64-bit pointers. -/
def blockRound (x : BareXfer) (info : MtdmaChanInfo) (junk : Junk) (draws : Draws) (j : U32)
    (st : BlockState) : Option (List Entry × BlockState) := do
  let (descCntTmp, sizes) ← blockCounts x junk draws j
  let sizeTmp := if x.randFlag then 0 else x.size
  let e : ListEnv := ⟨x, x.listBase info, j, descCntTmp, st.descCntTotal, sizes⟩
  if j = 0 then
    -- `size_tmp/(desc_cnt_tmp+1)` traps when the divisor wraps to zero
    if descCntTmp + 1 = 0 then none
    else
      let r := rounds e.firstBlockBody (descCntTmp.toNat + 1) 0
        ⟨x.sar, x.dar, sizeTmp, sizeTmp / (descCntTmp + 1), st.offset⟩
      some (r.1, ⟨r.2.offset, st.descCntTotal + descCntTmp⟩)
  else if descCntTmp = 0 then none
  else
    let r := rounds e.nextBlockBody descCntTmp.toNat 0
      ⟨x.sar + (j * x.size).setWidth 64, x.dar + (j * x.size).setWidth 64, sizeTmp,
        sizeTmp / descCntTmp, st.offset⟩
    some (r.1, ⟨r.2.offset, st.descCntTotal + descCntTmp⟩)

/-- The blocks from `j` on, `n` of them. -/
def blockLoop (x : BareXfer) (info : MtdmaChanInfo) (junk : Junk) (draws : Draws) :
    Nat → U32 → BlockState → Option (List (List Entry))
  | 0, _, _ => some []
  | n + 1, j, st => do
      let (es, st') ← blockRound x info junk draws j st
      let rest ← blockLoop x info junk draws n (j + 1) st'
      some (es :: rest)

/-- Block mode: every block's descriptors, and the count of the first list. -/
def xferBlock (x : BareXfer) (info : MtdmaChanInfo) (junk : Junk) (draws : Draws) :
    Option DescList := do
  let (descCntTmp, _) ← blockCounts x junk draws 0
  let blocks ← blockLoop x info junk draws x.blockCnt.toNat 0 ⟨0, 0⟩
  some ⟨lbarBasic x descCntTmp, blocks⟩

/-! ## the whole programming sequence -/

/-- Single mode.  `LBAR_BASIC` is written, and `lli` set, only `if(i==0)`,
and `i` has no value yet. -/
def xferSingle (mmu : Bool) (addrType : U32) (x : BareXfer) (junk : Junk) : List Access :=
  let lli := if junk.i = 0 then .regs else junk.lli
  (if junk.i = 0 then [.setCh .lbarBasic ((x.descCnt <<< 16) ||| x.chainEn)] else []) ++
  (if mmu then [.setCh .mmuAddrType addrType] else []) ++
  [.setLL lli .cnt (x.size - 1),
   .setLL lli .sarLsb (lower32Bits x.sar), .setLL lli .sarMsb (upper32Bits x.sar),
   .setLL lli .darLsb (lower32Bits x.dar), .setLL lli .darMsb (upper32Bits x.dar)]

/-- The writes that store a descriptor list.  (A later block stores `cnt` a
second time, with the same value.) -/
def DescList.accesses (l : DescList) : List Access :=
  .setCh .lbarBasic l.lbarBasic :: l.entries.flatMap fun e => setDesc e.1 e.2

/-- Chain or block mode, whichever `block_cnt` selects. -/
def xferDescs (x : BareXfer) (info : MtdmaChanInfo) (junk : Junk) (draws : Draws) :
    Option DescList :=
  if x.blockCnt = 0 then xferChain x info junk draws else xferBlock x info junk draws

/-- How far `dma_bare_xfer` gets: it returns -1 for an unknown direction, it
never reaches the enable write, or it makes these writes. -/
inductive XferProg where
  | reject
  | fault
  | run (as : List Access)
  deriving DecidableEq

/-- `dma_bare_xfer` up to and including the enable write; `mmu` is the build
option `MTDMA_MMU`. -/
def dmaBareXfer (mmu : Bool) (info : MtdmaChanInfo) (x : BareXfer) (junk : Junk)
    (draws : Draws) : XferProg :=
  match x.dirBits with
  | none => .reject
  | some (bits, addrType) =>
      let start : List Access :=
        [.setCh .intrImsk 0, .setCh .direction (bits ||| x.descMst1), .setCh .enable 1]
      if x.descCnt = 0 then .run (xferSingle mmu addrType x junk ++ start)
      else
        match xferDescs x info junk draws with
        | none => .fault
        | some l =>
            let mmuWrite : List Access :=
              if mmu ∧ x.blockCnt = 0 then [.setCh .mmuAddrType addrType] else []
            .run (mmuWrite ++ l.accesses ++ start)

/-! ## what a call writes -/

section Writes

variable {mmu : Bool} {info : MtdmaChanInfo} {x : BareXfer} {draws : Draws}

/-- Single mode gets to the enable write for every known direction. -/
theorem dmaBareXfer_single (h0 : x.descCnt = 0) {bits addrType : U32}
    (hdir : x.dirBits = some (bits, addrType)) (junk : Junk) (draws : Draws) :
    dmaBareXfer mmu info x junk draws = .run (xferSingle mmu addrType x junk ++
      [.setCh .intrImsk 0, .setCh .direction (bits ||| x.descMst1), .setCh .enable 1]) := by
  rw [dmaBareXfer, hdir]
  exact if_pos h0

/-- A call that runs knows its direction. -/
theorem dirBits_of_run {junk : Junk} {as : List Access}
    (h : dmaBareXfer mmu info x junk draws = .run as) :
    ∃ bits addrType, x.dirBits = some (bits, addrType) := by
  rw [dmaBareXfer] at h
  cases hd : x.dirBits with
  | none => rw [hd] at h; contradiction
  | some p => exact ⟨p.1, p.2, rfl⟩

/-- The writes of chain and block mode. -/
def descsAccesses (mmu : Bool) (x : BareXfer) (bits addrType : U32) (l : DescList) : List Access :=
  (if mmu ∧ x.blockCnt = 0 then [.setCh .mmuAddrType addrType] else []) ++ l.accesses ++
    [.setCh .intrImsk 0, .setCh .direction (bits ||| x.descMst1), .setCh .enable 1]

theorem dmaBareXfer_descs (h0 : x.descCnt ≠ 0) {bits addrType : U32}
    (hdir : x.dirBits = some (bits, addrType)) (junk : Junk) (as : List Access) :
    dmaBareXfer mmu info x junk draws = .run as ↔
      ∃ l, xferDescs x info junk draws = some l ∧ as = descsAccesses mmu x bits addrType l := by
  rw [dmaBareXfer, hdir]
  simp only [if_neg h0]
  cases xferDescs x info junk draws with
  | none => simp
  | some l =>
      simp only [XferProg.run.injEq, Option.some.injEq, exists_eq_left', descsAccesses]
      exact eq_comm

end Writes

end MtEmu
