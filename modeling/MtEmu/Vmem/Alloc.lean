import MtEmu.Lib.Loop
import MtEmu.Bare.Desc
import MtEmu.Vmem.Tree

/-!
# MtEmu.Vmem.Alloc

The video memory allocator (`mm.c`): pages of 16 KiB, a tree of the free blocks by their size
and a tree of the allocated ones by their address.

The functions are those of the source.  `none` is the endless loop of a failed `ASSERT`;
memory for the page list and for the nodes is there.  A page of the list is referred to by its
number, as the nodes of the trees do.  `unsigned long` has 64 bits, `int` has 32, and a page
number or a number of pages is an `int` that is not negative.
-/

namespace MtEmu

/-- `VMEM_PAGE_SIZE`. -/
def vmemPageSize : Nat := 16 * 1024

/-- `MAKE_KEY`: `vmem_key_t` has 64 bits, so only the low 32 bits of `a` are left. -/
def makeKey (a b : Nat) : Nat := (a <<< 32) % 2 ^ 64 ||| b

/-- `KEY_TO_VALUE`. -/
def keyToValue (key : Nat) : Nat := key >>> 32

/-- `page_t`. -/
structure VmemPage where
  pageno : Nat
  addr : U64
  used : Bool
  allocPages : Nat
  firstPageno : Int

/-- `video_mm_t`. -/
structure VideoMm where
  freeTree : AvlNode
  allocTree : AvlNode
  pageList : Nat → VmemPage
  numPages : Nat
  baseAddr : U64
  memSize : U64
  freePageCount : Int
  allocPageCount : Int

/-- `vmem_info_t`. -/
structure VmemInfo where
  totalPages : U64
  allocPages : U64
  freePages : U64
  pageSize : U64
  deriving DecidableEq

/-- Change a page of the list. -/
def updatePage (pageno : Nat) (f : VmemPage → VmemPage) (pageList : Nat → VmemPage) :
    Nat → VmemPage :=
  Function.update pageList pageno (f (pageList pageno))

/-- What `set_blocks_free` and `set_blocks_alloc` do to the page list: every page is marked,
the first one has the number of pages and the last one the number of the first. -/
def setBlocks (used : Bool) (pageno npages : Nat) (pageList : Nat → VmemPage) : Nat → VmemPage :=
  let pageList := Loop.each npages (fun i => updatePage (pageno + i) fun page =>
    { page with used := used, allocPages := 0, firstPageno := -1 }) pageList
  let pageList := updatePage pageno (fun page => { page with allocPages := npages }) pageList
  updatePage (pageno + npages - 1) (fun page => { page with firstPageno := pageno }) pageList

/-- `set_blocks_free`. -/
def setBlocksFree (mm : VideoMm) (pageno npages : Nat) : Option VideoMm :=
  if npages = 0 then none
  else if pageno + npages - 1 ≥ mm.numPages then none
  else do
    let pageList := setBlocks false pageno npages mm.pageList
    let freeTree ← avltreeInsert (makeKey npages pageno) pageno mm.freeTree
    return { mm with pageList := pageList, freeTree := freeTree }

/-- `set_blocks_alloc`. -/
def setBlocksAlloc (mm : VideoMm) (pageno npages : Nat) : Option VideoMm :=
  if pageno + npages - 1 ≥ mm.numPages then none
  else do
    let pageList := setBlocks true pageno npages mm.pageList
    let allocTree ← avltreeInsert (makeKey (pageList pageno).addr.toNat 0) pageno mm.allocTree
    return { mm with pageList := pageList, allocTree := allocTree }

/-- `base_addr` of `vmem_init`. -/
def vmemBaseAddr (addr : U64) : U64 :=
  (addr + (BitVec.ofNat 64 vmemPageSize - 1)) &&& ~~~(BitVec.ofNat 64 vmemPageSize - 1)

/-- `mem_size` of `vmem_init`. -/
def vmemMemSize (size : U64) : U64 := size &&& ~~~BitVec.ofNat 64 vmemPageSize

/-- `num_pages` of `vmem_init`, an `int`. -/
def vmemNumPages (size : U64) : Int :=
  ((vmemMemSize size / BitVec.ofNat 64 vmemPageSize).setWidth 32).toInt

/-- `vmem_init`.  Without pages the `ASSERT` of `set_blocks_free` fails; a number of pages below
0 is no list. -/
def vmemInit (addr size : U64) : Option VideoMm :=
  let numPages := vmemNumPages size
  if numPages < 0 then none
  else
    setBlocksFree
      { baseAddr := vmemBaseAddr addr
        memSize := vmemMemSize size
        numPages := numPages.toNat
        pageList := fun i =>
          { pageno := i
            addr := vmemBaseAddr addr + BitVec.ofNat 64 (i * vmemPageSize)
            allocPages := 0
            used := false
            firstPageno := -1 }
        freeTree := .nil
        allocTree := .nil
        freePageCount := numPages
        allocPageCount := 0 } 0 numPages.toNat

/-- `(PhysicalAddress)-1`. -/
def vmemFail : U64 := -1

/-- `vmem_alloc`. -/
def vmemAlloc (mm : VideoMm) (size : U32) : Option (U64 × VideoMm) :=
  if size.toInt ≤ 0 then some (vmemFail, mm)
  else do
    let npages := (size.toNat + vmemPageSize - 1) / vmemPageSize
    let (freeTree, node) ← removeApproxValue (makeKey npages 0) mm.freeTree
    let mm := { mm with freeTree := freeTree }
    match node with
    | none => return (vmemFail, mm)
    | some (key, page) =>
        let freeSize := keyToValue key
        let allocPageno := (mm.pageList page).pageno
        let mm ← setBlocksAlloc mm allocPageno npages
        let mm ← if npages ≠ freeSize then
            setBlocksFree mm (allocPageno + npages) (freeSize - npages)
          else some mm
        return ((mm.pageList allocPageno).addr,
          { mm with
            allocPageCount := mm.allocPageCount + npages
            freePageCount := mm.freePageCount - npages })

/-- The free block in front of an allocated one, as `vmem_free` finds it: its first page and
its size. -/
def prevFree (pageList : Nat → VmemPage) (pageno : Nat) : Option (Nat × Nat) :=
  if 1 ≤ pageno ∧ (pageList (pageno - 1)).used = false then
    let first := (pageList (pageno - 1)).firstPageno.toNat
    some (first, (pageList first).allocPages)
  else none

/-- The free block behind it. -/
def nextFree (pageList : Nat → VmemPage) (numPages next : Nat) : Option (Nat × Nat) :=
  if next ≠ numPages ∧ (pageList next).used = false then some (next, (pageList next).allocPages)
  else none

/-- A neighbour of `vmem_free` leaves the tree of the free blocks: the tree, and the page of
the node.  The `ASSERT` is that it was there. -/
def takeNeighbour (freeTree : AvlNode) (neighbour : Nat × Nat) : Option (AvlNode × Nat) := do
  let (freeTree, found) ← avltreeRemove (makeKey neighbour.2 neighbour.1) freeTree
  match found with
  | none => none
  | some (_, page) => return (freeTree, page)

/-- The free block in front is merged with the pages from `pageno` on: the tree of the free
blocks, `merge_page_no` and `merge_page_size`. -/
def mergePrev (pageList : Nat → VmemPage) (freeTree : AvlNode) (pageno size : Nat) :
    Option (Nat × Nat) → Option (AvlNode × Nat × Nat)
  | none => some (freeTree, pageno, size)
  | some block => (takeNeighbour freeTree block).map fun (freeTree, page) =>
      (freeTree, (pageList page).pageno, size + (pageList page).allocPages)

/-- The free block behind is merged: the tree of the free blocks, and `merge_page_size`. -/
def mergeNext (pageList : Nat → VmemPage) (freeTree : AvlNode) (size : Nat) :
    Option (Nat × Nat) → Option (AvlNode × Nat)
  | none => some (freeTree, size)
  | some block => (takeNeighbour freeTree block).map fun (freeTree, page) =>
      (freeTree, size + (pageList page).allocPages)

/-- `vmem_free`. -/
def vmemFree (mm : VideoMm) (ptr : U64) : Option (Int × VideoMm) := do
  let (allocTree, found) ← avltreeRemove (makeKey ptr.toNat 0) mm.allocTree
  let mm := { mm with allocTree := allocTree }
  match found with
  | none => return (-1, mm)
  | some (_, page) =>
      let pageno := (mm.pageList page).pageno
      let freePageSize := (mm.pageList page).allocPages
      let prev := prevFree mm.pageList pageno
      let next := nextFree mm.pageList mm.numPages (pageno + freePageSize)
      let (freeTree, mergePageNo, mergePageSize) ←
        mergePrev mm.pageList mm.freeTree pageno freePageSize prev
      let (freeTree, mergePageSize) ← mergeNext mm.pageList freeTree mergePageSize next
      let pageList := updatePage page
        (fun page => { page with allocPages := 0, firstPageno := -1 }) mm.pageList
      let mm ← setBlocksFree { mm with pageList := pageList, freeTree := freeTree } mergePageNo
        mergePageSize
      return (0, { mm with
        allocPageCount := mm.allocPageCount - freePageSize
        freePageCount := mm.freePageCount + freePageSize })

/-- `vmem_get_info`. -/
def vmemGetInfo (mm : VideoMm) : VmemInfo where
  totalPages := BitVec.ofNat 64 mm.numPages
  allocPages := BitVec.ofInt 64 mm.allocPageCount
  freePages := BitVec.ofInt 64 mm.freePageCount
  pageSize := BitVec.ofNat 64 vmemPageSize

end MtEmu
