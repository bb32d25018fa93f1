import MtEmu.Lib.Tiling
import MtEmu.Vmem.Alloc

/-!
# MtEmu.Vmem.Heap

What the trees and the page list of the video memory allocator stand for: a tiling of the
arena by blocks that are free or allocated (`VmemRep`), no two free ones next to each other.

Each operation of the source replaces a few blocks in a row by others on the same pages, and
`VmemRep.replace` says once what that takes.  `vmem_alloc` cuts a free block
(`VmemRep.vmemAlloc_block`), `vmem_free` joins an allocated block with the free ones around it
(`VmemRep.vmemFree_block`); `vmemAlloc_spec` and `vmemFree_spec` add which block that is, and what
comes back when there is none.
-/

namespace MtEmu

open Tiling

/-! ## keys -/

section Keys

variable {a b c d : Nat}

theorem makeKey_eq (hb : b < 2 ^ 32) : makeKey a b = a % 2 ^ 32 * 2 ^ 32 + b := by
  have hhigh : (a <<< 32) % 2 ^ 64 = (a % 2 ^ 32) <<< 32 := by
    rw [Nat.shiftLeft_eq, Nat.shiftLeft_eq, show (2 : Nat) ^ 64 = 2 ^ 32 * 2 ^ 32 by rfl,
      Nat.mul_mod_mul_right]
  rw [makeKey, hhigh, ← Nat.shiftLeft_add_eq_or_of_lt hb, Nat.shiftLeft_eq]

theorem keyToValue_makeKey (ha : a < 2 ^ 32) (hb : b < 2 ^ 32) : keyToValue (makeKey a b) = a := by
  rw [keyToValue, makeKey_eq hb, Nat.shiftRight_eq_div_pow, Nat.mod_eq_of_lt ha]
  omega

/-- Keys compare as pairs do, as long as neither part is cut off. -/
theorem makeKey_le_makeKey (ha : a < 2 ^ 32) (hb : b < 2 ^ 32) (hc : c < 2 ^ 32)
    (hd : d < 2 ^ 32) : makeKey a b ≤ makeKey c d ↔ a < c ∨ a = c ∧ b ≤ d := by
  rw [makeKey_eq hb, makeKey_eq hd, Nat.mod_eq_of_lt ha, Nat.mod_eq_of_lt hc]
  omega

/-- The key of an address has its low 32 bits, so addresses that differ above them have one
key. -/
theorem makeKey_zero_inj : makeKey a 0 = makeKey b 0 ↔ a % 2 ^ 32 = b % 2 ^ 32 := by
  rw [makeKey_eq (by decide), makeKey_eq (by decide)]
  omega

end Keys

/-! ## pages -/

/-- The address of a page. -/
def pageAddr (base : U64) (v : Nat) : U64 := base + BitVec.ofNat 64 (v * vmemPageSize)

/-- Two pages of an arena of 4 GiB differ in the low 32 bits of their addresses. -/
theorem pageAddr_low_inj {base : U64} {v w : Nat} (hv : v < 2 ^ 18) (hw : w < 2 ^ 18) :
    (pageAddr base v).toNat % 2 ^ 32 = (pageAddr base w).toNat % 2 ^ 32 ↔ v = w := by
  simp only [pageAddr, BitVec.toNat_add, BitVec.toNat_ofNat, vmemPageSize]
  omega

/-- Page `k` of a block that starts at `v`. -/
def blockPage (base : U64) (v : Nat) (b : Block Bool) (k : Nat) : VmemPage where
  pageno := v + k
  addr := pageAddr base (v + k)
  used := b.tag
  allocPages := if k = 0 then b.size else 0
  firstPageno := if k = b.size - 1 then v else -1

/-- The page list says of a block what it is: every page its own number and address, and the
first and the last one the extent of the block. -/
def Marked (base : U64) (pageList : Nat → VmemPage) (v : Nat) (b : Block Bool) : Prop :=
  ∀ k, k < b.size → pageList (v + k) = blockPage base v b k

/-- The pages of the list are what `vmem_init` made them for: setting blocks never changes a
page's number or address. -/
def Numbered (base : U64) (numPages : Nat) (pageList : Nat → VmemPage) : Prop :=
  ∀ i, i < numPages → (pageList i).pageno = i ∧ (pageList i).addr = pageAddr base i

/-- What the loop of `setBlocks` does to a page: those in the range are set, and the others
stay. -/
theorem each_updatePage (f : VmemPage → VmemPage) (pageno npages i : Nat)
    (pageList : Nat → VmemPage) :
    Loop.each npages (fun k => updatePage (pageno + k) f) pageList i =
      if pageno ≤ i ∧ i < pageno + npages then f (pageList i) else pageList i := by
  induction npages with
  | zero =>
      rw [if_neg (by omega)]
      rfl
  | succ n ih =>
      rw [Loop.each]
      by_cases hi : i = pageno + n
      · subst hi
        rw [if_neg (by omega)] at ih
        rw [if_pos (by omega), updatePage, Function.update_self, ih]
      · rw [updatePage, Function.update_of_ne hi, ih]
        exact if_congr (by omega) rfl rfl

/-- What `setBlocks` does to a page: the loop, and then what it stores at the two ends. -/
theorem setBlocks_apply {used : Bool} {pageno npages i : Nat} {pageList : Nat → VmemPage}
    (hpos : 0 < npages) : setBlocks used pageno npages pageList i =
      if pageno ≤ i ∧ i < pageno + npages then
        { pageList i with
          used := used
          allocPages := if i = pageno then npages else 0
          firstPageno := if i = pageno + npages - 1 then pageno else -1 }
      else pageList i := by
  simp only [setBlocks, updatePage, Function.update_apply, each_updatePage]
  split_ifs <;> grind

section Marks

variable {base : U64} {numPages v w n : Nat} {tag : Bool} {b c : Block Bool}
  {pageList pageList' : Nat → VmemPage} {pre post : List (Block Bool)}

theorem Numbered.setBlocks (h : Numbered base numPages pageList) (hpos : 0 < n) :
    Numbered base numPages (setBlocks tag v n pageList) := by
  intro i hi
  rw [setBlocks_apply hpos]
  split
  · exact h i hi
  · exact h i hi

/-- The block that is set is marked as one, on whatever pages. -/
theorem marked_setBlocks (h : Numbered base numPages pageList) (hpos : 0 < n)
    (hin : v + n ≤ numPages) : Marked base (setBlocks tag v n pageList) v ⟨n, tag⟩ := by
  intro k (hk : k < n)
  obtain ⟨hno, haddr⟩ := h (v + k) (by omega)
  rw [setBlocks_apply hpos, if_pos (by omega)]
  simp only [hno, haddr, blockPage, VmemPage.mk.injEq, true_and]
  exact ⟨if_congr (by omega) rfl rfl, if_congr (by omega) rfl rfl⟩

/-- A block out of the way of a change stays marked. -/
theorem Marked.congr (h : Marked base pageList w c)
    (hsame : ∀ i, w ≤ i → i < w + c.size → pageList' i = pageList i) :
    Marked base pageList' w c := by
  intro k hk
  rw [hsame (w + k) (by omega) (by omega), h k hk]

theorem Marked.first (h : Marked base pageList v b) (hpos : 0 < b.size) :
    (pageList v).pageno = v ∧ (pageList v).addr = pageAddr base v ∧ (pageList v).used = b.tag ∧
      (pageList v).allocPages = b.size := by
  have hfirst := h 0 hpos
  rw [Nat.add_zero] at hfirst
  rw [hfirst]
  exact ⟨rfl, rfl, rfl, rfl⟩

theorem Marked.last (h : Marked base pageList v b) (hpos : 0 < b.size) :
    (pageList (v + b.size - 1)).used = b.tag ∧
      (pageList (v + b.size - 1)).firstPageno = v := by
  have hlast := h (b.size - 1) (by omega)
  rw [← Nat.add_sub_assoc hpos] at hlast
  rw [hlast]
  exact ⟨rfl, if_pos rfl⟩

/-- Blocks in a row are replaced by others on the same pages: the new ones have to be marked,
and the pages around them to be as they were. -/
theorem marked_replace (mid mid' : List (Block Bool))
    (h : ∀ v b, At 0 (pre ++ (mid ++ post)) v b → Marked base pageList v b)
    (htotal : total mid' = total mid)
    (hout : ∀ i, i < total pre ∨ total pre + total mid ≤ i → pageList' i = pageList i)
    (hin : ∀ v b, At (total pre) mid' v b → Marked base pageList' v b) :
    ∀ v b, At 0 (pre ++ (mid' ++ post)) v b → Marked base pageList' v b := by
  intro v b hat
  simp only [at_append, htotal, Nat.zero_add] at hat h
  rcases hat with hat | hat | hat
  · have hbound := hat.bounds.2
    exact (h v b (.inl hat)).congr fun i _ hi => hout i (.inl (by omega))
  · exact hin v b hat
  · have hbound := hat.bounds.1
    exact (h v b (.inr (.inr hat))).congr fun i hi _ => hout i (.inr (by omega))

end Marks

/-! ## the heap -/

/-- Keys of the tree of the free blocks: by size and then by first page, so the first one that
is not below a size is the best fit. -/
def freeKey (j : Nat × Nat) : Nat := makeKey j.1 j.2

/-- Keys of the tree of the allocated blocks: the low half of their address. -/
def allocKey (base : U64) (v : Nat) : Nat := makeKey (pageAddr base v).toNat 0

/-- A free block has a size and a first page. -/
def FreeAt (p : Nat) (bs : List (Block Bool)) (j : Nat × Nat) : Prop := At p bs j.2 ⟨j.1, false⟩

/-- An allocated block starts at a page. -/
def UsedAt (p : Nat) (bs : List (Block Bool)) (v : Nat) : Prop := ∃ n, At p bs v ⟨n, true⟩

/-- The pages of all blocks of one kind. -/
def pagesOf (tag : Bool) (bs : List (Block Bool)) : Nat := total (bs.filter fun b => b.tag = tag)

/-- **What the allocator stands for**: a tiling of the arena by blocks, no two free ones next to
each other.  The page list marks every block, each tree is the index of the blocks of one kind,
and the counts are the pages of each kind. -/
structure VmemRep (mm : VideoMm) (bs : List (Block Bool)) : Prop where
  pages : total bs = mm.numPages
  bound : mm.numPages ≤ 2 ^ 18
  aligned : mm.baseAddr.toNat % vmemPageSize = 0
  solid : Solid bs
  coalesced : Coalesced false bs
  marked : ∀ v b, At 0 bs v b → Marked mm.baseAddr mm.pageList v b
  free : Indexes freeKey Prod.snd (FreeAt 0 bs) mm.freeTree
  alloc : Indexes (allocKey mm.baseAddr) id (UsedAt 0 bs) mm.allocTree
  allocPageCount : mm.allocPageCount = pagesOf true bs
  freePageCount : mm.freePageCount = pagesOf false bs

section Blocks

variable {p v : Nat} {tag : Bool} {b : Block Bool} {j : Nat × Nat} {xs ys : List (Block Bool)}

@[simp] theorem freeAt_append :
    FreeAt p (xs ++ ys) j ↔ FreeAt p xs j ∨ FreeAt (p + total xs) ys j := at_append

@[simp] theorem freeAt_cons :
    FreeAt p (b :: xs) j ↔ (j.2 = p ∧ b = ⟨j.1, false⟩) ∨ FreeAt (p + b.size) xs j := by
  rw [FreeAt, at_cons, eq_comm (a := b)]
  rfl

@[simp] theorem not_freeAt_nil : ¬FreeAt p [] j := id

@[simp] theorem usedAt_append :
    UsedAt p (xs ++ ys) v ↔ UsedAt p xs v ∨ UsedAt (p + total xs) ys v := by
  simp only [UsedAt, at_append, exists_or]

@[simp] theorem usedAt_cons :
    UsedAt p (b :: xs) v ↔ (v = p ∧ b.tag = true) ∨ UsedAt (p + b.size) xs v := by
  simp only [UsedAt, at_cons, exists_or]
  refine or_congr_left ⟨?_, ?_⟩
  · rintro ⟨n, hv, rfl⟩
    exact ⟨hv, rfl⟩
  · rintro ⟨hv, ht⟩
    exact ⟨b.size, hv, by rw [← ht]⟩

@[simp] theorem not_usedAt_nil : ¬UsedAt p [] v := fun ⟨_, h⟩ => h

@[simp] theorem pagesOf_nil : pagesOf tag [] = 0 := rfl

@[simp] theorem pagesOf_cons :
    pagesOf tag (b :: xs) = (if b.tag = tag then b.size else 0) + pagesOf tag xs := by
  rw [pagesOf, List.filter_cons]
  by_cases h : b.tag = tag
  · rw [if_pos (by simpa using h), if_pos h]
    rfl
  · rw [if_neg (by simpa using h), if_neg h, Nat.zero_add]
    rfl

@[simp] theorem pagesOf_append : pagesOf tag (xs ++ ys) = pagesOf tag xs + pagesOf tag ys := by
  rw [pagesOf, List.filter_append, total_append]
  rfl

theorem pagesOf_true_add_false : pagesOf true xs + pagesOf false xs = total xs := by
  induction xs with
  | nil => rfl
  | cons x xs ih =>
      rw [pagesOf_cons, pagesOf_cons, total_cons, ← ih]
      cases x.tag
      · simp
        omega
      · simp
        omega

end Blocks

namespace VmemRep

variable {mm : VideoMm} {bs : List (Block Bool)}

theorem numbered (h : VmemRep mm bs) : Numbered mm.baseAddr mm.numPages mm.pageList := by
  intro i hi
  obtain ⟨v, b, hat, hv, hb⟩ := exists_at (Nat.zero_le i)
    (show i < 0 + total bs by rw [h.pages]; omega)
  have hmark := h.marked v b hat (i - v) (by omega)
  rw [Nat.add_sub_cancel' hv] at hmark
  rw [hmark, blockPage, Nat.add_sub_cancel' hv]
  exact ⟨rfl, rfl⟩

end VmemRep

/-! ## one block more or less in a tree -/

section Keyed

variable {mm : VideoMm} {p v n k : Nat} {j : Nat × Nat} {xs pre post : List (Block Bool)}
  {S S' : Nat × Nat → Prop} {t : AvlNode}

theorem FreeAt.bounds (h : FreeAt p xs j) : p ≤ j.2 ∧ j.2 + j.1 ≤ p + total xs := At.bounds h

theorem FreeAt.pos (hs : Solid xs) (h : FreeAt p xs j) : 0 < j.1 := hs _ (At.mem h)

theorem freeKey_ne (hj : j.2 < 2 ^ 32) (hv : v < 2 ^ 32) (hne : j.2 ≠ v) :
    freeKey j ≠ freeKey (n, v) := by
  rw [freeKey, freeKey, makeKey_eq hj, makeKey_eq hv]
  omega

/-- Free blocks other than one are those with another first page: taking out the key of one
leaves all the others in the tree. -/
theorem freeKey_ne_iff (hS : ∀ j, S j ↔ j = (n, v) ∨ S' j)
    (hne : ∀ j, S' j → j.2 < 2 ^ 32 ∧ j.2 ≠ v) (hv : v < 2 ^ 32) (j : Nat × Nat) :
    S j ∧ freeKey j ≠ freeKey (n, v) ↔ S' j := by
  rw [hS]
  constructor
  · rintro ⟨rfl | h, hkey⟩
    · exact absurd rfl hkey
    · exact h
  · intro h
    exact ⟨.inr h, freeKey_ne (hne j h).1 hv (hne j h).2⟩

/-- `set_blocks_free` of pages of the arena, when no other free block starts there: the pages
are set, and the tree has one block more. -/
theorem setBlocksFree_spec (mm : VideoMm) (hfree : Indexes freeKey Prod.snd S mm.freeTree)
    (hpos : 0 < n) (hin : v + n ≤ mm.numPages) (hv : v < 2 ^ 32)
    (hne : ∀ j, S j → j.2 < 2 ^ 32 ∧ j.2 ≠ v) :
    ∃ freeTree, setBlocksFree mm v n =
        some { mm with pageList := setBlocks false v n mm.pageList, freeTree := freeTree } ∧
      Indexes freeKey Prod.snd (fun j => j = (n, v) ∨ S j) freeTree := by
  obtain ⟨freeTree, hrun, hindex⟩ := hfree.insert (i := (n, v))
    fun j hj => freeKey_ne (hne j hj).1 hv (hne j hj).2
  rw [freeKey] at hrun
  refine ⟨freeTree, ?_, hindex⟩
  rw [setBlocksFree, if_neg (by omega), if_neg (by omega), hrun]
  rfl

/-- A neighbour that is there leaves the tree, and it is the node that is found. -/
theorem takeNeighbour_spec (hfree : Indexes freeKey Prod.snd S t)
    (hS : ∀ j, S j ↔ j = (n, v) ∨ S' j) (hne : ∀ j, S' j → j.2 < 2 ^ 32 ∧ j.2 ≠ v)
    (hv : v < 2 ^ 32) :
    ∃ t', takeNeighbour t (v, n) = some (t', v) ∧ Indexes freeKey Prod.snd S' t' := by
  obtain ⟨t', found, hrun, ⟨-, hnone, -⟩ | ⟨i, hi, hkey, hfound, hindex⟩⟩ :=
    hfree.remove (freeKey (n, v))
  · exact absurd rfl (hnone (n, v) ((hS _).mpr (.inl rfl)))
  · have hnv : i = (n, v) := by
      rcases (hS i).mp hi with rfl | hi'
      · rfl
      · exact absurd hkey (freeKey_ne (hne i hi').1 hv (hne i hi').2)
    subst hnv
    refine ⟨t', ?_, hindex.congr (freeKey_ne_iff hS hne hv)⟩
    rw [freeKey] at hrun
    rw [takeNeighbour, hrun, hfound]
    rfl

theorem UsedAt.bounds (hs : Solid xs) (h : UsedAt p xs v) : p ≤ v ∧ v < p + total xs := by
  obtain ⟨n, hat⟩ := h
  have hpos := hs _ hat.mem
  have hbound := hat.bounds
  simp only at hpos hbound
  omega

theorem freeAt_append_free : FreeAt 0 (pre ++ ⟨n, false⟩ :: post) j ↔
    j = (n, total pre) ∨ FreeAt 0 pre j ∨ FreeAt (total pre + n) post j := by
  obtain ⟨a, b⟩ := j
  simp only [freeAt_append, freeAt_cons, Nat.zero_add, Block.mk.injEq, and_true, Prod.mk.injEq]
  rw [or_left_comm, and_comm, eq_comm]

/-- Free blocks in front of some pages, and behind them, start outside of these pages. -/
theorem outside_of_freeAt {q : Nat} (hs : Solid pre) (hq : total pre ≤ q)
    (h : FreeAt 0 pre j ∨ FreeAt q post j) :
    (j.2 < total pre ∨ q ≤ j.2) ∧ j.2 ≤ q + total post := by
  rcases h with h | h
  · have hbound := h.bounds
    have hpos := h.pos hs
    omega
  · have hbound := h.bounds
    omega

/-- Allocated blocks in front of some pages, and behind them, start outside of these pages, and
inside the arena. -/
theorem outside_of_usedAt {q : Nat} (hs : Solid pre) (hs' : Solid post) (hq : total pre ≤ q)
    (h : UsedAt 0 pre v ∨ UsedAt q post v) :
    (v < total pre ∨ q ≤ v) ∧ v < q + total post := by
  rcases h with h | h
  · have hbound := h.bounds hs
    omega
  · have hbound := h.bounds hs'
    omega

theorem allocKey_inj {base : U64} (hv : v < 2 ^ 18) (hn : n < 2 ^ 18) :
    allocKey base v = allocKey base n ↔ v = n := by
  rw [allocKey, allocKey, makeKey_zero_inj, pageAddr_low_inj hv hn]

end Keyed

namespace VmemRep

variable {mm mm' : VideoMm} {pre old post : List (Block Bool)}

/-- **Blocks in a row are replaced by others on the same pages.**  Both operations of the heap are
of this kind: `vmem_alloc` cuts a free block in two, `vmem_free` joins an allocated block with its
free neighbours.  What the operation itself has to show is about the new blocks: the pages they
mark, the trees that hold them next to the blocks that stay, and the two counts. -/
theorem replace (h : VmemRep mm (pre ++ (old ++ post))) (new : List (Block Bool))
    (hbase : mm'.baseAddr = mm.baseAddr) (hnum : mm'.numPages = mm.numPages)
    (htotal : total new = total old) (hsolid : Solid new)
    (hco : Coalesced false (pre ++ (new ++ post)))
    (hout : ∀ i, i < total pre ∨ total pre + total old ≤ i → mm'.pageList i = mm.pageList i)
    (hin : ∀ v b, At (total pre) new v b → Marked mm.baseAddr mm'.pageList v b)
    (hfree : Indexes freeKey Prod.snd (fun j => FreeAt (total pre) new j ∨
      (FreeAt 0 pre j ∨ FreeAt (total pre + total old) post j)) mm'.freeTree)
    (halloc : Indexes (allocKey mm.baseAddr) id (fun w => UsedAt (total pre) new w ∨
      (UsedAt 0 pre w ∨ UsedAt (total pre + total old) post w)) mm'.allocTree)
    (hallocCount : mm'.allocPageCount - pagesOf true new = mm.allocPageCount - pagesOf true old)
    (hfreeCount : mm'.freePageCount - pagesOf false new = mm.freePageCount - pagesOf false old) :
    VmemRep mm' (pre ++ (new ++ post)) where
  pages := by
    have hpages := h.pages
    simp only [total_append] at hpages ⊢
    omega
  bound := hnum ▸ h.bound
  aligned := hbase ▸ h.aligned
  solid := by
    have hall := h.solid
    simp only [solid_append] at hall ⊢
    exact ⟨hall.1, hsolid, hall.2.2⟩
  coalesced := hco
  marked := by
    rw [hbase]
    exact marked_replace old new h.marked htotal hout hin
  free := hfree.congr fun j => by
    rw [freeAt_append, freeAt_append, Nat.zero_add, htotal]
    exact or_left_comm
  alloc := by
    rw [hbase]
    refine halloc.congr fun w => ?_
    rw [usedAt_append, usedAt_append, Nat.zero_add, htotal]
    exact or_left_comm
  allocPageCount := by
    have hcount := h.allocPageCount
    simp only [pagesOf_append] at hcount ⊢
    omega
  freePageCount := by
    have hcount := h.freePageCount
    simp only [pagesOf_append] at hcount ⊢
    omega

end VmemRep

/-! ## allocation -/

/-- Pages of an allocation: its size rounded up. -/
def pagesFor (size : U32) : Nat := (size.toNat + vmemPageSize - 1) / vmemPageSize

/-- The pages of an allocation have room for it. -/
theorem le_pagesFor (size : U32) : size.toNat ≤ pagesFor size * vmemPageSize := by
  rw [pagesFor, vmemPageSize]
  omega

theorem pagesFor_bounds {size : U32} (h : 0 < size.toInt) :
    0 < pagesFor size ∧ pagesFor size < 2 ^ 18 := by
  rw [BitVec.toInt_eq_toNat_cond] at h
  have hlt : 0 < size.toNat := by
    split at h
    all_goals omega
  have hbound := size.isLt
  rw [pagesFor, vmemPageSize]
  omega

/-- What is left of a free block: a smaller one, or nothing when it fits exactly. -/
def restOf (k : Nat) : List (Block Bool) := if k = 0 then [] else [⟨k, false⟩]

@[simp] theorem total_restOf (k : Nat) : total (restOf k) = k := by
  unfold restOf
  split
  · simp [*]
  · simp

@[simp] theorem solid_restOf (k : Nat) : Solid (restOf k) := by
  unfold restOf
  split
  · simp
  · simpa using Nat.pos_of_ne_zero ‹_›

@[simp] theorem pagesOf_restOf (tag : Bool) (k : Nat) :
    pagesOf tag (restOf k) = if tag = false then k else 0 := by
  unfold restOf
  cases tag
  all_goals
    split
    all_goals simp [*]

@[simp] theorem not_usedAt_restOf (p k v : Nat) : ¬UsedAt p (restOf k) v := by
  unfold restOf
  split
  · simp
  · simp

@[simp] theorem freeAt_restOf (p k : Nat) (j : Nat × Nat) :
    FreeAt p (restOf k) j ↔ k ≠ 0 ∧ j = (k, p) := by
  unfold restOf
  split
  · simp [*]
  · obtain ⟨a, b⟩ := j
    simp [*]
    exact ⟨fun ⟨h, h'⟩ => ⟨h'.symm, h⟩, fun ⟨h, h'⟩ => ⟨h', h.symm⟩⟩

section AllocSpec

variable {mm : VideoMm} {v n m : Nat} {pre post bs : List (Block Bool)}

/-- `set_blocks_alloc` of pages of the arena, when no allocated block with the same key is
there: the pages are set, and the tree has one block more. -/
theorem setBlocksAlloc_spec (mm : VideoMm) {S : Nat → Prop}
    (hnum : Numbered mm.baseAddr mm.numPages mm.pageList)
    (halloc : Indexes (allocKey mm.baseAddr) id S mm.allocTree) (hpos : 0 < n)
    (hin : v + n ≤ mm.numPages)
    (hnew : ∀ w, S w → allocKey mm.baseAddr w ≠ allocKey mm.baseAddr v) :
    ∃ allocTree, setBlocksAlloc mm v n =
        some { mm with pageList := setBlocks true v n mm.pageList, allocTree := allocTree } ∧
      Indexes (allocKey mm.baseAddr) id (fun w => w = v ∨ S w) allocTree := by
  obtain ⟨allocTree, hrun, hindex⟩ := halloc.insert (i := v) hnew
  refine ⟨allocTree, ?_, hindex⟩
  have hnum' : Numbered mm.baseAddr mm.numPages (setBlocks true v n mm.pageList) :=
    hnum.setBlocks hpos
  have haddr := (hnum' v (by omega)).2
  rw [allocKey, id] at hrun
  rw [setBlocksAlloc, if_neg (by omega)]
  simp only [haddr, hrun]
  rfl

/-- What `vmem_alloc` does with the rest of the free block: it is free again, under its own
first page, or there is none. -/
theorem setRest_spec (mm : VideoMm) {S : Nat × Nat → Prop} (k : Nat)
    (hnum : Numbered mm.baseAddr mm.numPages mm.pageList)
    (hfree : Indexes freeKey Prod.snd S mm.freeTree) (hin : v + k ≤ mm.numPages)
    (hv : v < 2 ^ 32) (hne : k ≠ 0 → ∀ j, S j → j.2 < 2 ^ 32 ∧ j.2 ≠ v) :
    ∃ pageList freeTree, (if k ≠ 0 then setBlocksFree mm v k else some mm) =
        some { mm with pageList := pageList, freeTree := freeTree } ∧
      (∀ i, i < v ∨ v + k ≤ i → pageList i = mm.pageList i) ∧
      (∀ w b, At v (restOf k) w b → Marked mm.baseAddr pageList w b) ∧
      Indexes freeKey Prod.snd (fun j => FreeAt v (restOf k) j ∨ S j) freeTree := by
  by_cases hk : k = 0
  · subst hk
    refine ⟨mm.pageList, mm.freeTree, if_neg (by simp), fun _ _ => rfl, fun w b h => h.elim, ?_⟩
    exact hfree.congr fun j => by simp
  · have hpos : 0 < k := Nat.pos_of_ne_zero hk
    obtain ⟨freeTree, hrun, hindex⟩ := setBlocksFree_spec mm hfree hpos hin hv (hne hk)
    refine ⟨_, freeTree, (if_pos hk).trans hrun, fun i hi => ?_, fun w b hat => ?_, ?_⟩
    · rw [setBlocks_apply hpos, if_neg (by omega)]
    · rw [restOf, if_neg hk] at hat
      obtain ⟨rfl, rfl⟩ | hat := hat
      · exact marked_setBlocks hnum hpos hin
      · exact hat.elim
    · exact hindex.congr fun j => by simp [hk]

/-- A block that is cut, into the pages taken and the rest, has no new free neighbours. -/
theorem coalesced_cut (hco : Coalesced false (pre ++ ⟨m, false⟩ :: post)) :
    Coalesced false (pre ++ ⟨n, true⟩ :: (restOf (m - n) ++ post)) := by
  obtain ⟨hpre, hpost, hends⟩ := coalesced_append_cons.mp hco
  refine coalesced_append_cons.mpr ⟨hpre, ?_, fun h => by cases h⟩
  unfold restOf
  split
  · exact hpost
  · exact coalesced_cons.mpr ⟨hpost, fun _ => (hends rfl).2⟩

end AllocSpec

namespace VmemRep

variable {mm : VideoMm} {bs : List (Block Bool)} {size : U32}

/-- A free block is taken: its first pages are allocated, and the rest of them stays free. -/
theorem vmemAlloc_block {pre post : List (Block Bool)} {m : Nat} {freeTree : AvlNode}
    (h : VmemRep mm (pre ++ ⟨m, false⟩ :: post)) (hsize : 0 < size.toInt) (hle : pagesFor size ≤ m)
    (hrun : removeApproxValue (makeKey (pagesFor size) 0) mm.freeTree =
      some (freeTree, some (freeKey (m, total pre), total pre)))
    (hfree : Indexes freeKey Prod.snd
      (fun j => FreeAt 0 pre j ∨ FreeAt (total pre + m) post j) freeTree) :
    ∃ mm', vmemAlloc mm size = some (pageAddr mm.baseAddr (total pre), mm') ∧
      mm'.baseAddr = mm.baseAddr ∧ mm'.numPages = mm.numPages ∧
      VmemRep mm' (pre ++ ⟨pagesFor size, true⟩ :: (restOf (m - pagesFor size) ++ post)) := by
  obtain ⟨hpos, -⟩ := pagesFor_bounds hsize
  have hbound := h.bound
  have htotal := h.pages
  simp only [total_append, total_cons] at htotal
  have hfirst := (h.marked (total pre) ⟨m, false⟩ (by simp)).first (by simpa using by omega)
  obtain ⟨hpre, -, hpost⟩ : Solid pre ∧ 0 < m ∧ Solid post := by simpa using h.solid
  -- the allocated blocks start at other pages
  have hused : ∀ w, UsedAt 0 (pre ++ ⟨m, false⟩ :: post) w →
      allocKey mm.baseAddr w ≠ allocKey mm.baseAddr (total pre) := fun w hw => by
    have hout : UsedAt 0 pre w ∨ UsedAt (total pre + m) post w := by simpa using hw
    replace hout := outside_of_usedAt hpre hpost (Nat.le_add_right _ _) hout
    rw [Ne, allocKey_inj (by omega) (by omega)]
    omega
  have hfit : total pre + pagesFor size ≤ mm.numPages := by omega
  obtain ⟨allocTree, hallocrun, halloc⟩ := setBlocksAlloc_spec
    { mm with freeTree := freeTree } h.numbered h.alloc hpos hfit hused
  have hnum' : Numbered mm.baseAddr mm.numPages
      (setBlocks true (total pre) (pagesFor size) mm.pageList) := h.numbered.setBlocks hpos
  have hin : total pre + pagesFor size + (m - pagesFor size) ≤ mm.numPages := by omega
  have hnew : m - pagesFor size ≠ 0 → ∀ j, FreeAt 0 pre j ∨ FreeAt (total pre + m) post j →
      j.2 < 2 ^ 32 ∧ j.2 ≠ total pre + pagesFor size := fun hk j hj => by
    have := outside_of_freeAt hpre (Nat.le_add_right _ _) hj
    omega
  obtain ⟨pageList, freeTree', hrestrun, hout, hmark, hfree'⟩ := setRest_spec
    { mm with
      freeTree := freeTree
      pageList := setBlocks true (total pre) (pagesFor size) mm.pageList
      allocTree := allocTree } (v := total pre + pagesFor size) (m - pagesFor size)
    hnum' hfree hin (by omega) hnew
  refine ⟨{ mm with
      freeTree := freeTree'
      allocTree := allocTree
      pageList := pageList
      allocPageCount := mm.allocPageCount + pagesFor size
      freePageCount := mm.freePageCount - pagesFor size }, ?_, rfl, rfl, ?_⟩
  · have haddr : (pageList (total pre)).addr = pageAddr mm.baseAddr (total pre) := by
      rw [hout _ (by omega)]
      exact (hnum' _ (by omega)).2
    have hvalue : keyToValue (freeKey (m, total pre)) = m :=
      keyToValue_makeKey (by omega) (by omega)
    have hcond : (pagesFor size ≠ m) = (m - pagesFor size ≠ 0) := propext (by omega)
    have hpages : (size.toNat + vmemPageSize - 1) / vmemPageSize = pagesFor size := rfl
    simp only [vmemAlloc, hpages, if_neg (Int.not_le.mpr hsize), hrun, hvalue, hfirst.1,
      hallocrun, hcond, Option.bind_eq_bind, Option.bind_some, pure]
    by_cases hk : m - pagesFor size ≠ 0
    · rw [if_pos hk] at hrestrun ⊢
      rw [hrestrun, Option.bind_some, haddr]
    · rw [if_neg hk] at hrestrun ⊢
      obtain ⟨rfl, rfl⟩ : freeTree = freeTree' ∧
          setBlocks true (total pre) (pagesFor size) mm.pageList = pageList := by
        simpa using hrestrun
      rw [haddr]
  · have hblock : VmemRep mm (pre ++ ([⟨m, false⟩] ++ post)) := h
    refine hblock.replace (⟨pagesFor size, true⟩ :: restOf (m - pagesFor size)) rfl rfl
      ?_ ?_ (coalesced_cut h.coalesced) ?_ ?_ ?_ ?_ ?_ ?_
    · simp only [total_cons, total_restOf, total_nil]
      omega
    · simp [hpos]
    · intro i hi
      simp only [total_cons, total_nil, Nat.add_zero] at hi
      refine (hout i (by omega)).trans ?_
      simp only
      rw [setBlocks_apply hpos, if_neg (by omega)]
    · rintro w b (⟨rfl, rfl⟩ | hat)
      · exact (marked_setBlocks h.numbered hpos hfit).congr fun i _ hi => hout i (.inl hi)
      · exact hmark w b hat
    · exact hfree'.congr fun j => by simp
    · exact halloc.congr fun w => by simp
    · simp
    · simp
      omega

/-- **Allocation**: fails if no free block has as many pages, and else takes the pages from the
front of the smallest free block that has, the first one of those. -/
theorem vmemAlloc_spec (h : VmemRep mm bs) (hsize : 0 < size.toInt) :
    ((∀ j, FreeAt 0 bs j → j.1 < pagesFor size) ∧ vmemAlloc mm size = some (vmemFail, mm)) ∨
    ∃ pre m post mm', bs = pre ++ ⟨m, false⟩ :: post ∧ pagesFor size ≤ m ∧
      (∀ j, FreeAt 0 bs j → pagesFor size ≤ j.1 → m < j.1 ∨ m = j.1 ∧ total pre ≤ j.2) ∧
      vmemAlloc mm size = some (pageAddr mm.baseAddr (total pre), mm') ∧
      mm'.baseAddr = mm.baseAddr ∧ mm'.numPages = mm.numPages ∧
      VmemRep mm' (pre ++ ⟨pagesFor size, true⟩ :: (restOf (m - pagesFor size) ++ post)) := by
  obtain ⟨hpos, hlarge⟩ := pagesFor_bounds hsize
  have hfreebound : ∀ j, FreeAt 0 bs j → j.1 < 2 ^ 32 ∧ j.2 < 2 ^ 32 := fun j hj => by
    have hbound := hj.bounds
    have hj := hj.pos h.solid
    have htotal := h.pages
    have hsmall := h.bound
    omega
  have hkeys : ∀ j, FreeAt 0 bs j → (makeKey (pagesFor size) 0 ≤ freeKey j ↔ pagesFor size ≤ j.1) :=
    fun j hj => by
      obtain ⟨hj1, hj2⟩ := hfreebound j hj
      rw [freeKey, makeKey_le_makeKey (by omega) (by decide) hj1 hj2]
      omega
  obtain ⟨freeTree, found, hrun,
      ⟨hfound, hnone, rfl⟩ | ⟨⟨m, v⟩, hfreeAt, hkey, hfound, hleast, hfree⟩⟩ :=
    h.free.removeApprox (makeKey (pagesFor size) 0)
  · refine .inl ⟨fun j hj => ?_, ?_⟩
    · have := hnone j hj
      have := hkeys j hj
      omega
    · rw [vmemAlloc, if_neg (by omega)]
      rw [pagesFor] at hrun
      simp [hrun, hfound]
  · obtain ⟨hm32, hv32⟩ := hfreebound _ hfreeAt
    have hle : pagesFor size ≤ m := (hkeys _ hfreeAt).mp hkey
    obtain ⟨pre, post, rfl, hv⟩ := At.split hfreeAt
    rw [Nat.zero_add] at hv
    subst hv hfound
    obtain ⟨hpre, hm, -⟩ : Solid pre ∧ 0 < m ∧ Solid post := by simpa using h.solid
    have hpages := h.pages
    have hbound := h.bound
    simp only [total_append, total_cons] at hpages
    -- the free blocks that stay in the tree start at other pages
    have hrest : ∀ j, FreeAt 0 pre j ∨ FreeAt (total pre + m) post j →
        j.2 < 2 ^ 32 ∧ j.2 ≠ total pre := fun j hj => by
      have hout := outside_of_freeAt hpre (Nat.le_add_right _ _) hj
      omega
    obtain ⟨mm', hrunAlloc, hbase, hnum, hrep⟩ := h.vmemAlloc_block hsize hle hrun
      (hfree.congr (freeKey_ne_iff (fun _ => freeAt_append_free) hrest hv32))
    refine .inr ⟨pre, m, post, mm', rfl, hle, fun j hj hn => ?_, hrunAlloc, hbase, hnum, hrep⟩
    have hmin := hleast j hj ((hkeys j hj).mpr hn)
    rwa [freeKey, freeKey, makeKey_le_makeKey hm32 hv32 (hfreebound j hj).1 (hfreebound j hj).2]
      at hmin

end VmemRep

/-! ## freeing -/

section Neighbours

variable {base : U64} {pageList : Nat → VmemPage} {numPages n : Nat} {b : Block Bool}
  {pre post : List (Block Bool)}

/-- What `vmem_free` finds in front of a block: the free block there, read off the last of its
pages, or nothing. -/
theorem prevFree_spec (hs : Solid pre) (hco : Coalesced false pre)
    (hmark : ∀ v b, At 0 pre v b → Marked base pageList v b) :
    ∃ pre' k, pre = pre' ++ restOf k ∧ (∀ x ∈ pre'.getLast?, x.tag ≠ false) ∧
      prevFree pageList (total pre) = if k = 0 then none else some (total pre', k) := by
  obtain rfl | ⟨pre', b, rfl⟩ := List.eq_nil_or_concat pre
  · exact ⟨[], 0, rfl, fun x hx => (by simp at hx), if_neg (by simp)⟩
  · have hpos : 0 < b.size := hs b (by simp)
    have hb := hmark (total pre') b (by simp)
    have hlast := hb.last hpos
    have htotal : total (pre' ++ [b]) = total pre' + b.size := by simp
    rw [List.concat_eq_append] at *
    obtain ⟨size, tag⟩ := b
    rw [htotal, prevFree, hlast.1]
    cases tag with
    | true =>
        refine ⟨pre' ++ [⟨size, true⟩], 0, by simp [restOf], fun x hx => ?_, if_neg (by simp)⟩
        obtain rfl : ⟨size, true⟩ = x := by simpa using hx
        simp
    | false =>
        have hfirst := (hb.first hpos).2.2.2
        refine ⟨pre', size, by simp [restOf, hpos.ne'], ?_, ?_⟩
        · exact ((coalesced_append_cons.mp hco).2.2 rfl).1
        · rw [if_pos ⟨by omega, rfl⟩, if_neg hpos.ne', hlast.2]
          simp [hfirst]

/-- What `vmem_free` finds behind a block: the free block there, read off the first of its
pages, or nothing. -/
theorem nextFree_spec (hs : Solid post) (hco : Coalesced false post) (q : Nat)
    (hend : q + total post = numPages)
    (hmark : ∀ v b, At q post v b → Marked base pageList v b) :
    ∃ k post', post = restOf k ++ post' ∧ (∀ y ∈ post'.head?, y.tag ≠ false) ∧
      nextFree pageList numPages q = if k = 0 then none else some (q, k) := by
  cases post with
  | nil =>
      rw [total_nil, Nat.add_zero] at hend
      exact ⟨0, [], rfl, fun x hx => (by simp at hx), if_neg (by simp [hend])⟩
  | cons b post =>
      have hpos : 0 < b.size := hs b (by simp)
      obtain ⟨-, -, hused, hsize⟩ := (hmark q b (by simp)).first hpos
      obtain ⟨size, tag⟩ := b
      rw [total_cons] at hend
      have hne : q ≠ numPages := by
        simp only at hpos hend
        omega
      rw [nextFree, hused, hsize]
      cases tag with
      | true =>
          refine ⟨0, ⟨size, true⟩ :: post, rfl, fun x hx => ?_, if_neg (by simp)⟩
          obtain rfl : ⟨size, true⟩ = x := by simpa using hx
          simp
      | false =>
          refine ⟨size, post, by simp [restOf, hpos.ne'], ?_, ?_⟩
          · exact (coalesced_cons.mp hco).2 rfl
          · rw [if_pos ⟨hne, rfl⟩, if_neg hpos.ne']

variable {v k : Nat} {t : AvlNode} {S S' : Nat × Nat → Prop}

/-- A free block in front is merged: it leaves the tree, and the block begins where it did. -/
theorem mergePrev_spec (hfree : Indexes freeKey Prod.snd S t)
    (hS : ∀ j, S j ↔ FreeAt v (restOf k) j ∨ S' j)
    (hne : k ≠ 0 → ∀ j, S' j → j.2 < 2 ^ 32 ∧ j.2 ≠ v) (hv : v < 2 ^ 32)
    (hmark : ∀ w b, At v (restOf k) w b → Marked base pageList w b) :
    ∃ t', mergePrev pageList t (v + k) n (if k = 0 then none else some (v, k)) =
        some (t', v, n + k) ∧ Indexes freeKey Prod.snd S' t' := by
  by_cases hk : k = 0
  · subst hk
    exact ⟨t, rfl, hfree.congr fun j => by simp [hS]⟩
  · obtain ⟨t', hrun, hindex⟩ := takeNeighbour_spec (n := k) hfree
      (fun j => by simp [hS, hk]) (hne hk) hv
    have hfirst := (hmark v ⟨k, false⟩ (by simp [restOf, hk])).first (Nat.pos_of_ne_zero hk)
    refine ⟨t', ?_, hindex⟩
    rw [if_neg hk, mergePrev, hrun, Option.map_some]
    simp only [hfirst]

/-- A free block behind is merged: it leaves the tree, and the block goes on over it. -/
theorem mergeNext_spec (hfree : Indexes freeKey Prod.snd S t)
    (hS : ∀ j, S j ↔ FreeAt v (restOf k) j ∨ S' j)
    (hne : k ≠ 0 → ∀ j, S' j → j.2 < 2 ^ 32 ∧ j.2 ≠ v) (hv : v < 2 ^ 32)
    (hmark : ∀ w b, At v (restOf k) w b → Marked base pageList w b) :
    ∃ t', mergeNext pageList t n (if k = 0 then none else some (v, k)) = some (t', n + k) ∧
      Indexes freeKey Prod.snd S' t' := by
  by_cases hk : k = 0
  · subst hk
    exact ⟨t, rfl, hfree.congr fun j => by simp [hS]⟩
  · obtain ⟨t', hrun, hindex⟩ := takeNeighbour_spec (n := k) hfree
      (fun j => by simp [hS, hk]) (hne hk) hv
    have hfirst := (hmark v ⟨k, false⟩ (by simp [restOf, hk])).first (Nat.pos_of_ne_zero hk)
    refine ⟨t', ?_, hindex⟩
    rw [if_neg hk, mergeNext, hrun, Option.map_some]
    simp only [hfirst]

end Neighbours

namespace VmemRep

variable {mm : VideoMm} {bs : List (Block Bool)}

/-- An allocated block, and what `vmem_free` finds around it: at most one free block on each
side, and no other free block next to these. -/
theorem neighbours {front back : List (Block Bool)} {n : Nat}
    (h : VmemRep mm (front ++ ⟨n, true⟩ :: back)) :
    ∃ pre k k' post, front = pre ++ restOf k ∧ back = restOf k' ++ post ∧
      Coalesced false (pre ++ ⟨n + k + k', false⟩ :: post) ∧
      prevFree mm.pageList (total pre + k) = (if k = 0 then none else some (total pre, k)) ∧
      nextFree mm.pageList mm.numPages (total pre + k + n) =
        if k' = 0 then none else some (total pre + k + n, k') := by
  obtain ⟨hfront, -, hback⟩ : Solid front ∧ 0 < n ∧ Solid back := by simpa using h.solid
  obtain ⟨hcofront, hcoback, -⟩ := coalesced_append_cons.mp h.coalesced
  have htotal := h.pages
  rw [total_append, total_cons, ← Nat.add_assoc] at htotal
  obtain ⟨pre, k, rfl, hlast, hprev⟩ := prevFree_spec hfront hcofront
    (fun v b hb => h.marked v b (at_append.mpr (.inl hb)))
  obtain ⟨k', post, rfl, hhead, hnext⟩ := nextFree_spec hback hcoback _ htotal
    (fun v b hb => h.marked v b (at_append.mpr (.inr (.inr (by simpa using hb)))))
  simp only [total_append, total_restOf] at hprev hnext
  refine ⟨pre, k, k', post, rfl, rfl, ?_, hprev, hnext⟩
  exact coalesced_append_cons.mpr ⟨(List.isChain_append.mp hcofront).1,
    (List.isChain_append.mp hcoback).2.1, fun _ => ⟨hlast, hhead⟩⟩

/-- The free neighbours of an allocated block leave the tree of the free blocks. -/
theorem merge_neighbours {pre post : List (Block Bool)} {k n k' : Nat}
    (h : VmemRep mm (pre ++ (restOf k ++ ⟨n, true⟩ :: (restOf k' ++ post)))) :
    ∃ t t', mergePrev mm.pageList mm.freeTree (total pre + k) n
        (if k = 0 then none else some (total pre, k)) = some (t, total pre, n + k) ∧
      mergeNext mm.pageList t (n + k)
        (if k' = 0 then none else some (total pre + k + n, k')) = some (t', n + k + k') ∧
      Indexes freeKey Prod.snd
        (fun j => FreeAt 0 pre j ∨ FreeAt (total pre + k + n + k') post j) t' := by
  obtain ⟨hpre, hn, -⟩ : Solid pre ∧ 0 < n ∧ Solid post := by simpa using h.solid
  have hbound := h.bound
  have htotal := h.pages
  simp only [total_append, total_cons, total_restOf] at htotal
  -- the free blocks in front, and those behind, with the neighbour and without it
  have hout : ∀ q xs, total pre ≤ q → q + total xs ≤ mm.numPages →
      ∀ j, FreeAt 0 pre j ∨ FreeAt q xs j → j.2 < 2 ^ 32 ∧ (j.2 < total pre ∨ q ≤ j.2) :=
    fun q xs hq hxs j hj => by
      have houtside := outside_of_freeAt hpre hq hj
      omega
  have hmark : ∀ w b, At (total pre) (restOf k) w b ∨
      At (total pre + k + n) (restOf k') w b → Marked mm.baseAddr mm.pageList w b :=
    fun w b hb => h.marked w b (by simp; tauto)
  have hsplit : ∀ j, FreeAt 0 (pre ++ (restOf k ++ ⟨n, true⟩ :: (restOf k' ++ post))) j ↔
      FreeAt (total pre) (restOf k) j ∨
        (FreeAt 0 pre j ∨ FreeAt (total pre + k + n) (restOf k' ++ post) j) := fun j => by
    simp only [freeAt_append, freeAt_cons, total_restOf, Nat.zero_add, Block.mk.injEq,
      Bool.true_eq_false, and_false, false_or]
    exact or_left_comm
  have hsplit' : ∀ j, FreeAt 0 pre j ∨ FreeAt (total pre + k + n) (restOf k' ++ post) j ↔
      FreeAt (total pre + k + n) (restOf k') j ∨
        (FreeAt 0 pre j ∨ FreeAt (total pre + k + n + k') post j) := fun j => by
    simp only [freeAt_append, total_restOf]
    exact or_left_comm
  obtain ⟨t, hprevrun, hfree⟩ := mergePrev_spec (n := n) h.free hsplit
    (fun _ j hj => by
      have := hout _ _ (by omega) (by simp only [total_append, total_restOf]; omega) j hj
      omega) (by omega) (fun w b hb => hmark w b (.inl hb))
  obtain ⟨t', hnextrun, hfree'⟩ := mergeNext_spec (n := n + k) hfree hsplit'
    (fun hk j hj => by
      have := hout _ _ (by omega) (by omega) j hj
      omega) (by omega) (fun w b hb => hmark w b (.inr hb))
  exact ⟨t, t', hprevrun, hnextrun, hfree'⟩

/-- A block is freed together with its free neighbours: the three are one free block. -/
theorem vmemFree_block {pre post : List (Block Bool)} {k n k' : Nat} {ptr : U64}
    {allocTree : AvlNode}
    (h : VmemRep mm (pre ++ (restOf k ++ ⟨n, true⟩ :: (restOf k' ++ post))))
    (hco : Coalesced false (pre ++ ⟨n + k + k', false⟩ :: post))
    (hprev : prevFree mm.pageList (total pre + k) = if k = 0 then none else some (total pre, k))
    (hnext : nextFree mm.pageList mm.numPages (total pre + k + n) =
      if k' = 0 then none else some (total pre + k + n, k'))
    {key : Nat}
    (hrun : avltreeRemove (makeKey ptr.toNat 0) mm.allocTree =
      some (allocTree, some (key, total pre + k)))
    (halloc : Indexes (allocKey mm.baseAddr) id
      (fun w => UsedAt 0 pre w ∨ UsedAt (total pre + k + n + k') post w) allocTree) :
    ∃ mm', vmemFree mm ptr = some (0, mm') ∧ mm'.baseAddr = mm.baseAddr ∧
      mm'.numPages = mm.numPages ∧ VmemRep mm' (pre ++ ⟨n + k + k', false⟩ :: post) := by
  obtain ⟨hpre, hn, -⟩ : Solid pre ∧ 0 < n ∧ Solid post := by simpa using h.solid
  have hbound := h.bound
  have htotal := h.pages
  simp only [total_append, total_cons, total_restOf] at htotal
  have hfirst := (h.marked (total pre + k) ⟨n, true⟩ (by simp)).first hn
  have hpos : 0 < n + k + k' := by omega
  have hfit : total pre + (n + k + k') ≤ mm.numPages := by omega
  have hend : total pre + (k + (n + k')) = total pre + k + n + k' := by omega
  obtain ⟨freeTree, freeTree', hprevrun, hnextrun, hfree⟩ := h.merge_neighbours
  obtain ⟨freeTree'', hfreerun, hfree'⟩ := setBlocksFree_spec
    { mm with
      allocTree := allocTree
      pageList := updatePage (total pre + k)
        (fun page => { page with allocPages := 0, firstPageno := -1 }) mm.pageList
      freeTree := freeTree' } hfree hpos hfit (by omega) fun j hj => by
        have := outside_of_freeAt hpre (by omega) hj
        omega
  have hnum : Numbered mm.baseAddr mm.numPages (updatePage (total pre + k)
      (fun page => { page with allocPages := 0, firstPageno := -1 }) mm.pageList) := fun i hi => by
    rw [updatePage, Function.update_apply]
    split
    · subst i
      exact h.numbered _ hi
    · exact h.numbered i hi
  have hblocks : VmemRep mm (pre ++ ((restOf k ++ ⟨n, true⟩ :: restOf k') ++ post)) := by
    rwa [List.append_assoc, List.cons_append]
  refine ⟨{ mm with
      freeTree := freeTree''
      allocTree := allocTree
      pageList := setBlocks false (total pre) (n + k + k') (updatePage (total pre + k)
        (fun page => { page with allocPages := 0, firstPageno := -1 }) mm.pageList)
      allocPageCount := mm.allocPageCount - n
      freePageCount := mm.freePageCount + n }, ?_, rfl, rfl,
    hblocks.replace [⟨n + k + k', false⟩] rfl rfl
      ?_ ?_ hco ?_ ?_ ?_ ?_ ?_ ?_⟩
  · simp only [vmemFree, hrun, hfirst, hprev, hnext, hprevrun, hnextrun, hfreerun,
      Option.bind_eq_bind, Option.bind_some, pure]
  · simp only [total_append, total_cons, total_restOf, total_nil]
    omega
  · simp only [solid_cons, solid_nil]
    exact ⟨hpos, trivial⟩
  · intro i hi
    simp only [total_append, total_cons, total_restOf] at hi
    refine (setBlocks_apply hpos).trans ((if_neg (by omega)).trans ?_)
    exact Function.update_of_ne (by omega) _ _
  · rintro w b (⟨rfl, rfl⟩ | hat)
    · exact marked_setBlocks hnum hpos hfit
    · exact hat.elim
  · refine hfree'.congr fun j => ?_
    simp [hend, Prod.ext_iff, and_comm, eq_comm]
  · exact halloc.congr fun w => by simp [hend]
  · simp
  · simp
    omega

/-- **Freeing**: fails if no allocated block has the low 32 bits of the address, and else makes
one free block of it and its free neighbours. -/
theorem vmemFree_spec (h : VmemRep mm bs) (ptr : U64) :
    ((∀ w, UsedAt 0 bs w → (pageAddr mm.baseAddr w).toNat % 2 ^ 32 ≠ ptr.toNat % 2 ^ 32) ∧
        vmemFree mm ptr = some (-1, mm)) ∨
    ∃ pre k n k' post mm', bs = pre ++ (restOf k ++ ⟨n, true⟩ :: (restOf k' ++ post)) ∧
      (pageAddr mm.baseAddr (total pre + k)).toNat % 2 ^ 32 = ptr.toNat % 2 ^ 32 ∧
      vmemFree mm ptr = some (0, mm') ∧ mm'.baseAddr = mm.baseAddr ∧
      mm'.numPages = mm.numPages ∧ VmemRep mm' (pre ++ ⟨n + k + k', false⟩ :: post) := by
  obtain ⟨allocTree, found, hrun, ⟨hfound, hnone, rfl⟩ | ⟨w, ⟨n, hat⟩, hkey, hfound, halloc⟩⟩ :=
    h.alloc.remove (makeKey ptr.toNat 0)
  · refine .inl ⟨fun w hw hlow => hnone w hw (makeKey_zero_inj.mpr hlow), ?_⟩
    rw [vmemFree, hrun, hfound]
    rfl
  · obtain ⟨front, back, rfl, hw⟩ := hat.split
    obtain ⟨pre, k, k', post, rfl, rfl, hco, hprev, hnext⟩ := h.neighbours
    obtain ⟨⟨hpre, -⟩, hn, -, hpost⟩ :
        (Solid pre ∧ Solid (restOf k)) ∧ 0 < n ∧ Solid (restOf k') ∧ Solid post := by
      simpa using h.solid
    have htotal := h.pages
    have hbound := h.bound
    simp only [total_append, total_cons, total_restOf, Nat.zero_add] at hw htotal
    subst hw hfound
    -- the other allocated blocks
    have hothers : ∀ w, UsedAt 0 (pre ++ restOf k ++ ⟨n, true⟩ :: (restOf k' ++ post)) w ∧
        allocKey mm.baseAddr w ≠ allocKey mm.baseAddr (total pre + k) ↔
          UsedAt 0 pre w ∨ UsedAt (total pre + k + n + k') post w := fun w => by
        simp only [usedAt_append, usedAt_cons, not_usedAt_restOf, total_append, total_restOf,
          Nat.zero_add, or_false, false_or, and_true]
        constructor
        · rintro ⟨hw | rfl | hw, hne⟩
          · exact .inl hw
          · exact absurd rfl hne
          · exact .inr hw
        · intro hw
          have hout := outside_of_usedAt hpre hpost (by omega) hw
          refine ⟨by tauto, ?_⟩
          rw [Ne, allocKey_inj (by omega) (by omega)]
          omega
    rw [List.append_assoc] at h
    obtain ⟨mm', hfree, hbase, hnum, hrep⟩ := h.vmemFree_block hco hprev hnext hrun
      (halloc.congr hothers)
    exact .inr ⟨pre, k, n, k', post, mm', List.append_assoc _ _ _, makeKey_zero_inj.mp hkey, hfree,
      hbase, hnum, hrep⟩

end VmemRep

/-! ## the start -/

theorem and_not_pageMask (x : U64) :
    x &&& ~~~(BitVec.ofNat 64 vmemPageSize - 1) = (x >>> 14) <<< 14 := by
  have hmask : BitVec.ofNat 64 vmemPageSize - 1 = BitVec.ofNat 64 (2 ^ 14 - 1) := by decide
  rw [hmask]
  apply BitVec.eq_of_getLsbD_eq
  intro i hi
  simp only [BitVec.getLsbD_and, BitVec.getLsbD_not, BitVec.getLsbD_ofNat, BitVec.getLsbD_shiftLeft,
    BitVec.getLsbD_ushiftRight, Nat.testBit_two_pow_sub_one, hi, decide_true, Bool.true_and]
  by_cases h : i < 14
  · simp [h]
  · simp [h, Nat.add_sub_cancel' (Nat.not_lt.mp h)]

theorem vmemBaseAddr_toNat (addr : U64) : (vmemBaseAddr addr).toNat =
    (addr.toNat + (vmemPageSize - 1)) % 2 ^ 64 / vmemPageSize * vmemPageSize := by
  have hlt : (addr + (BitVec.ofNat 64 vmemPageSize - 1)).toNat < 2 ^ 64 := BitVec.isLt _
  have hsum : (addr + (BitVec.ofNat 64 vmemPageSize - 1)).toNat =
      (addr.toNat + (vmemPageSize - 1)) % 2 ^ 64 := by
    rw [BitVec.toNat_add]
    rfl
  rw [vmemBaseAddr, and_not_pageMask, BitVec.toNat_shiftLeft, BitVec.toNat_ushiftRight, hsum,
    Nat.shiftLeft_eq, Nat.shiftRight_eq_div_pow]
  rw [hsum] at hlt
  simp only [vmemPageSize] at hlt ⊢
  omega

/-- `size & ~VMEM_PAGE_SIZE` clears one bit, so that the number of pages is even. -/
theorem vmemMemSize_div (size : U64) :
    vmemMemSize size / BitVec.ofNat 64 vmemPageSize = (size >>> 15) <<< 1 := by
  have hpage : BitVec.ofNat 64 vmemPageSize = BitVec.twoPow 64 14 := by decide
  have hdiv : ∀ x : U64, x / BitVec.twoPow 64 14 = x >>> 14 := fun x => by
    apply BitVec.eq_of_toNat_eq
    simp [BitVec.toNat_udiv, Nat.shiftRight_eq_div_pow]
  rw [vmemMemSize, hpage, hdiv]
  apply BitVec.eq_of_getLsbD_eq
  intro i hi
  simp only [BitVec.getLsbD_and, BitVec.getLsbD_not, BitVec.getLsbD_twoPow,
    BitVec.getLsbD_shiftLeft, BitVec.getLsbD_ushiftRight, hi, decide_true, Bool.true_and]
  by_cases h : i < 1
  · obtain rfl : i = 0 := by omega
    simp
  · rw [show 15 + (i - 1) = 14 + i by omega]
    by_cases h' : 14 + i < 64
    · simp [h, h']
      omega
    · simp [h, h', BitVec.getLsbD_of_ge size (14 + i) (by omega)]

theorem vmemNumPages_eq {size : U64} (h : size.toNat < 2 ^ 45) :
    vmemNumPages size = (2 * (size.toNat / 2 ^ 15) : Nat) := by
  rw [vmemNumPages, vmemMemSize_div, BitVec.toInt_setWidth, BitVec.toNat_shiftLeft,
    BitVec.toNat_ushiftRight, Nat.shiftLeft_eq, Nat.shiftRight_eq_div_pow]
  rw [Int.bmod_eq_of_le (by omega) (by omega)]
  omega

/-- The memory is divided into pages that are all free. -/
theorem vmemInit_spec (addr : U64) {size : U64} (hlow : 2 ^ 15 ≤ size.toNat)
    (hhigh : size.toNat ≤ 2 ^ 32) :
    ∃ mm, vmemInit addr size = some mm ∧ mm.baseAddr = vmemBaseAddr addr ∧
      mm.numPages = 2 * (size.toNat / 2 ^ 15) ∧
      VmemRep mm [⟨2 * (size.toNat / 2 ^ 15), false⟩] := by
  have hnum := vmemNumPages_eq (show size.toNat < 2 ^ 45 by omega)
  have hpos : 0 < 2 * (size.toNat / 2 ^ 15) := by omega
  have hbound : 2 * (size.toNat / 2 ^ 15) ≤ 2 ^ 18 := by omega
  simp only [vmemInit, hnum]
  generalize 2 * (size.toNat / 2 ^ 15) = n at *
  rw [if_neg (by omega), Int.toNat_natCast]
  obtain ⟨freeTree, hrun, hindex⟩ := setBlocksFree_spec (v := 0) (n := n)
    { baseAddr := vmemBaseAddr addr
      memSize := vmemMemSize size
      numPages := n
      pageList := fun i =>
        { pageno := i
          addr := vmemBaseAddr addr + BitVec.ofNat 64 (i * vmemPageSize)
          allocPages := 0
          used := false
          firstPageno := -1 }
      freeTree := .nil
      allocTree := .nil
      freePageCount := n
      allocPageCount := 0 } (S := fun _ => False) .nil hpos (by simp) (by decide)
      fun j hj => hj.elim
  refine ⟨_, hrun, rfl, rfl, ?_, hbound, ?_, ?_, ?_, ?_, ?_, ?_, ?_, ?_⟩
  · simp
  · rw [vmemBaseAddr_toNat]
    exact Nat.mul_mod_left _ _
  · simpa using hpos
  · exact .singleton _
  · rintro v b (⟨rfl, rfl⟩ | hat)
    · exact marked_setBlocks (fun i (_ : i < n) => ⟨rfl, rfl⟩) hpos (by simp)
    · exact hat.elim
  · refine hindex.congr fun j => ?_
    obtain ⟨a, b⟩ := j
    simp only [freeAt_cons, not_freeAt_nil, or_false, Prod.mk.injEq, Block.mk.injEq, and_true]
    rw [and_comm, eq_comm (a := a)]
  · exact .congr .nil fun v => by simp
  · simp
  · simp

end MtEmu
