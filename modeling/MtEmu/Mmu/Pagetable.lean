import MtEmu.Lib.Loop
import MtEmu.Bare.Desc

/-!
# MtEmu.Mmu.Pagetable

The page tables of the DMA's own MMU (`mmu_init_pagetable.c`).

`mmu_init_pagetable` plans a pool of virtual pages and a pool of table and
data pages for every context and then maps the one to the other, one page at
a time, by `gen_page_desc`.  That function keeps, for each of the four levels
(page catalogue, page root, page directory, page table), the addresses of the
entries it has set up and what they point at; it searches these records
before it takes a new page from the pool.

The number of contexts, the pool length and the page size are macros of the
header and stay parameters here.  Memory is the record of the 8-byte entries
written, by their offset from `vaddr`.
-/

namespace MtEmu

open Loop

/-! ## the header -/

/-- `page_size_e`. -/
inductive PageSize where
  | k4
  | k8
  | k16
  | k64
  | k256
  | m2
  | m32
  | m512
  deriving DecidableEq

/-- The value of an enumerator, as it is stored in `va_page_size`. -/
def PageSize.val : PageSize → BitVec 8
  | .k4 => 0
  | .k8 => 1
  | .k16 => 2
  | .k64 => 3
  | .k256 => 4
  | .m2 => 5
  | .m32 => 6
  | .m512 => 7

def mmuVaBaseAddr : U64 := 0x000000000
def mmuPaBaseAddr : U64 := 0x400000000
def mmuPcBaseAddr : U64 := 0x800000000
def mmuPrBaseAddr : U64 := 0x802000000
def mmuPdBaseAddr : U64 := 0x804000000
def mmuPtBaseAddr : U64 := 0x806000000

/-! ## descriptors -/

/-- `pc_desc_s`. -/
structure PcDesc where
  valid : U64
  unmapFlag : U64
  reserved0 : U64
  pageSizeFlag : U64
  prBaseAddr : U64
  reserved1 : U64

/-- `pr_desc_s`. -/
structure PrDesc where
  valid : U64
  unmapFlag : U64
  reserved0 : U64
  pdBaseAddr : U64
  reserved1 : U64

/-- `pd_desc_s`. -/
structure PdDesc where
  valid : U64
  unmapFlag : U64
  reserved0 : U64
  pageSize : U64
  ptBaseAddr : U64
  reserved1 : U64

/-- `pt_desc_s`, less `meta_protect` and `reserved2`, which are never read. -/
structure PtDesc where
  valid : U64
  unmapFlag : U64
  readOnly : U64
  cacheCoherency : U64
  continuousLength : U64
  atomicDisable : U64
  reserved0 : U64
  physicalPage : U64
  axcache : U64

/-- `pc_context`. -/
def PcDesc.context (d : PcDesc) : U64 :=
  (d.valid &&& 0x1) ||| ((d.unmapFlag &&& 0x1) <<< 1) ||| ((d.reserved0 &&& 0x7f) <<< 2) |||
    ((d.pageSizeFlag &&& 0x7) <<< 9) ||| ((d.prBaseAddr &&& 0xfffffffff) <<< 12) |||
    ((d.reserved1 &&& 0xffff) <<< 48)

/-- `pr_context`. -/
def PrDesc.context (d : PrDesc) : U64 :=
  (d.valid &&& 0x1) ||| ((d.unmapFlag &&& 0x1) <<< 1) ||| ((d.reserved0 &&& 0x3ff) <<< 2) |||
    ((d.pdBaseAddr &&& 0xfffffffff) <<< 12) ||| ((d.reserved1 &&& 0xffff) <<< 48)

/-- `pd_context`. -/
def PdDesc.context (d : PdDesc) : U64 :=
  (d.valid &&& 0x1) ||| ((d.unmapFlag &&& 0x1) <<< 1) ||| ((d.reserved0 &&& 0x7f) <<< 2) |||
    ((d.pageSize &&& 0x7) <<< 9) ||| ((d.ptBaseAddr &&& 0xfffffffff) <<< 12) |||
    ((d.reserved1 &&& 0xffff) <<< 48)

/-- `pt_context`.  The bits from 48 on come from the page directory's
`reserved1`, as in the source. -/
def PtDesc.context (d : PtDesc) (pd : PdDesc) : U64 :=
  (d.valid &&& 0x1) ||| ((d.unmapFlag &&& 0x1) <<< 1) ||| ((d.readOnly &&& 0x1) <<< 2) |||
    ((d.cacheCoherency &&& 0x1) <<< 3) ||| ((d.continuousLength &&& 0x3) <<< 4) |||
    ((d.atomicDisable &&& 0x1) <<< 6) ||| ((d.reserved0 &&& 0x1f) <<< 7) |||
    ((d.physicalPage &&& 0xfffffffff) <<< 12) ||| ((pd.reserved1 &&& 0x3ff) <<< 48) |||
    ((d.axcache &&& 0xf) <<< 58)

/-- The page catalogue descriptor `gen_page_desc` fills in. -/
def pcDesc (entryValid flag base : U64) : PcDesc := ⟨entryValid, 0, 0, flag, base, 0⟩

/-- The page root descriptor `gen_page_desc` fills in. -/
def prDesc (entryValid base : U64) : PrDesc := ⟨entryValid, 0, 0, base, 0⟩

/-- The page directory descriptor `gen_page_desc` fills in. -/
def pdDesc (entryValid vaSize base : U64) : PdDesc := ⟨entryValid, 0, 0, vaSize, base, 0⟩

/-- The page table descriptor `gen_page_desc` fills in. -/
def ptDesc (entryValid page : U64) : PtDesc := ⟨entryValid, 0, 0, 0, 0, 0, 0, page, 0⟩

/-! ## the pools -/

/-- The `switch` of both pool generators: the 4 KiB pages a page takes. -/
def poolStep : Nat → U64
  | 0 => 1
  | 1 => 2
  | 2 => 4
  | 3 => 16
  | 4 => 64
  | 5 => 512
  | 6 => 8192
  | 7 => 131072
  | _ => 1

/-- `gen_va_pool`: `temp_addr` in round `j` of the inner loop, which is what
the round stores.  The statement `va_size - va_page_size[i][j]` assigns
nothing, so the `switch` reads a local that was never set; `junk i j` is what
it finds there. -/
def vaPool (junk : Nat → Nat → U64) (i : Nat) : Nat → U64
  | 0 => mmuVaBaseAddr >>> 12
  | j + 1 => vaPool junk i j + poolStep (junk i j).toNat

/-- `pa_temp_addr` of `gen_pa_pool` when `j / 4` is reached. -/
def paTempAddr (ps : PageSize) : Nat → U64
  | 0 => mmuPaBaseAddr >>> 12
  | d + 1 => paTempAddr ps d + poolStep ps.val.toNat

/-- `i*0x80000`, an `int`, added to a 64-bit page number. -/
def ctxtStride (i : Nat) : U64 := (BitVec.ofNat 32 i * 0x80000).signExtend 64

/-- `gen_pa_pool`. -/
def paPool (ps : PageSize) (i j : Nat) : U64 :=
  if j % 4 = 0 then (mmuPrBaseAddr >>> 12) + ctxtStride i + BitVec.ofNat 64 j
  else if j % 4 = 1 then (mmuPdBaseAddr >>> 12) + ctxtStride i + BitVec.ofNat 64 j
  else if j % 4 = 2 then (mmuPtBaseAddr >>> 12) + ctxtStride i + BitVec.ofNat 64 j
  else paTempAddr ps (j / 4)

/-! ## the records of one level -/

/-- An `*_addr_ass` array and the `*_base_ass` array beside it. -/
structure AssTable where
  addr : Nat × Nat → U64
  base : Nat × Nat → U64

/-- The value that marks an unused record. -/
def unusedAddr : U64 := 0x8000000000000000

/-- The records that a search by context `c` and pool index `d` looks at, in
order. -/
def searched (c d : Nat) : List (Nat × Nat) :=
  (List.range (c + 1)).flatMap fun i => (List.range (d + 1)).map fun j => (i, j)

/-- What a search at one level leaves: the base, the `*_flag` that it was
found, and the records. -/
structure Entered where
  base : U64
  found : Bool
  table : AssTable

/-- One level of `gen_page_desc`: search the records for the address `key`;
when it is not there, note the address `noted` and take a page of the pool. -/
def AssTable.enter (t : AssTable) (c d : Nat) (key noted fresh : U64) : Entered :=
  match (searched c d).find? fun p => t.addr p == key with
  | some p => ⟨t.base p, true, t⟩
  | none => ⟨fresh, false, Function.update t.addr (c, d) noted, Function.update t.base (c, d) fresh⟩

/-! ## `gen_page_desc` -/

/-- The records of all levels and the entries written so far. -/
structure PageTables where
  pc : AssTable
  pr : AssTable
  pd : AssTable
  pt : AssTable
  mem : U64 → Option U64

/-- The address of an entry: `(base << 12) + (index << 3) + 0x0`. -/
def entryAddr (base index : U64) : U64 := (base <<< 12) + (index <<< 3) + 0x0

def pcIndex (va : U64) : U64 := (va >>> 27) &&& 0x1ff

def prIndex (vaSize : Nat) (va : U64) : U64 :=
  if vaSize < 5 then (va >>> 18) &&& 0x1ff else (va >>> 27) &&& 0x1ff

def pdIndex (vaSize : Nat) (va : U64) : U64 :=
  if vaSize < 5 then (va >>> 9) &&& 0x1ff else (va >>> 18) &&& 0x1ff

def ptIndex (vaSize : Nat) (va : U64) : U64 :=
  match vaSize with
  | 0 => va &&& 0x1ff
  | 1 => (va >>> 1) &&& 0xff
  | 2 => (va >>> 2) &&& 0x7f
  | 3 => (va >>> 4) &&& 0x1f
  | 4 => (va >>> 6) &&& 0x7
  | 5 => (va >>> 9) &&& 0x1ff
  | 6 => (va >>> 13) &&& 0x1f
  | 7 => (va >>> 17) &&& 0x1
  | _ => va &&& 0x1ff

/-- A `pcie_memcpy` of one entry behind its condition. -/
def storeIf (cond : Bool) (a e : U64) (mem : U64 → Option U64) : U64 → Option U64 :=
  if cond then Function.update mem a (some e) else mem

/-- `gen_page_desc`. -/
def genPageDesc (pa : Nat → Nat → U64) (va : U64) (ctxtId vaPoolIndex pageSize entryValid : BitVec 8)
    (s : PageTables) : PageTables :=
  let c := ctxtId.toNat
  let d := vaPoolIndex.toNat
  let vaSize := pageSize.toNat
  let valid := entryValid.zeroExtend 64
  let pcBase := (mmuPcBaseAddr >>> 12) + ctxtId.zeroExtend 64
  let pcAddr := entryAddr pcBase (pcIndex va)
  let pr := s.pc.enter c d pcAddr pcAddr (pa c (d * 4))
  let prAddr := entryAddr pr.base (prIndex vaSize va)
  -- the record of this level gets the address of the catalogue entry
  let pd := s.pr.enter c d prAddr pcAddr (pa c (d * 4 + 1))
  let pdAddr := entryAddr pd.base (pdIndex vaSize va)
  let pt := s.pd.enter c d pdAddr pdAddr (pa c (d * 4 + 2))
  let ptAddr := entryAddr pt.base (ptIndex vaSize va)
  let page := s.pt.enter c d ptAddr ptAddr (pa c (d * 4 + 3))
  let invalidate := entryValid == 0
  let pcD := if vaSize ≥ 5 then pcDesc valid 1 pd.base else pcDesc valid 0 pr.base
  let pdD := pdDesc valid (pageSize.zeroExtend 64) pt.base
  { pc := pr.table
    pr := pd.table
    pd := pt.table
    pt := page.table
    mem :=
      storeIf (!page.found || invalidate) ptAddr ((ptDesc valid page.base).context pdD) <|
      storeIf (!pt.found || invalidate) pdAddr pdD.context <|
      storeIf (vaSize < 5 && (!pd.found || invalidate)) prAddr (prDesc valid pd.base).context <|
      storeIf (!pr.found || invalidate) pcAddr pcD.context s.mem }

/-- `setup_page_desc`, for `nC` contexts and a pool of `n` pages.  Both
indices are passed as bytes. -/
def setupPageDesc (ps : PageSize) (nC n : Nat) (va pa : Nat → Nat → U64) (s : PageTables) :
    PageTables :=
  let unused : Nat × Nat → U64 := fun _ => unusedAddr
  let s := { s with
    pc.addr := unused, pr.addr := unused, pd.addr := unused, pt.addr := unused }
  each nC (fun i => each n fun j =>
    genPageDesc pa (va i j) (BitVec.ofNat 8 i) (BitVec.ofNat 8 j) ps.val 1) s

/-- `mmu_init_pagetable`: the entries it writes, when the records hold
whatever an earlier call left in them. -/
def mmuInitPagetable (ps : PageSize) (nC n : Nat) (junk : Nat → Nat → U64)
    (old : AssTable × AssTable × AssTable × AssTable) : U64 → Option U64 :=
  (setupPageDesc ps nC n (vaPool junk) (paPool ps)
    ⟨old.1, old.2.1, old.2.2.1, old.2.2.2, fun _ => none⟩).mem

end MtEmu
