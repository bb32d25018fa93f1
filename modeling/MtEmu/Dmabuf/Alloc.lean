import MtEmu.Lib.Bitmap
import MtEmu.Lib.Machine
import MtEmu.Bare.Info

/-!
# MtEmu.Dmabuf.Alloc

The allocator of the DMA buffer in the user library: `pcief_dmabuf_malloc` and
`pcief_dmabuf_free` (`mt_pcie_f.c`).

The buffer is cut into blocks of 4096 bytes.  A bitmap says which blocks are in
use, a linked list holds an item for every allocation.  The search for a free run
is the first-fit search of `Bitmap.scan`, taken word by word (`scanWords_eq`).

`malloc` does not ask how the search ended: it marks the run it is left with and
appends an item for it also when that run is too short or empty.  The bitmap and
the list stay in step all the same, which is what `Dmabuf.Inv` states and
`dmabuf_representation` says of every reachable state.
-/

namespace MtEmu

open Bitmap Machine

/-! ## the allocator -/

/-- `MTDMA_BUF_BLK_NUM`. -/
def mtdmaBufBlkNum (resv : Bool) : Nat := (mtdmaBufSize resv + 4096 - 1) / 4096

/-- `MTDMA_BUF_BLK_WORDS`. -/
def mtdmaBufBlkWords (resv : Bool) : Nat := (mtdmaBufBlkNum resv + 32 - 1) / 32

/-- `struct mtdma_buf_list`; `next` is the rest of the list. -/
structure MtdmaBufItem where
  blkStart : U32
  size : U32
  deriving DecidableEq, Repr

/-- `g_pcief_dmabuf_bits` and the list behind `g_mtdma_buf_head`. -/
structure Dmabuf where
  bits : Words
  head : List MtdmaBufItem

/-- The allocator when the library is loaded. -/
def Dmabuf.init : Dmabuf where
  bits := fun _ => 0
  head := []

/-- The inner loop of the search, over `n` bits of word `i` from bit `j` on. -/
def scanWord (bits : Words) (len i : Nat) : Nat → Nat → Run → Run
  | 0, _, r => r
  | n + 1, j, r =>
      let r := r.next (i * 32 + j) (bits i &&& 1#32 <<< j != 0#32)
      if len ≤ r.size then r else scanWord bits len i n (j + 1) r

/-- The outer loop of the search, over `n` words from word `i` on. -/
def scanWords (bits : Words) (len : Nat) : Nat → Nat → Run → Run
  | 0, _, r => r
  | n + 1, i, r =>
      let r := scanWord bits len i 32 0 r
      if len ≤ r.size then r else scanWords bits len n (i + 1) r

/-- `len` in blocks; the addition wraps. -/
def lenBlks (len : U64) : U64 := (len + (4096 - 1)) / 4096

/-- `pcief_dmabuf_malloc`: the address, or `-1`.  The item's `malloc` succeeds. -/
def pciefDmabufMalloc (resv : Bool) (s : Dmabuf) (len : U64) : Int × Dmabuf :=
  let len := (lenBlks len).toNat
  if len > mtdmaBufSize resv ∨ len = 0 then (-1, s)
  else
    let r := scanWords s.bits len (mtdmaBufBlkWords resv) 0 .none
    -- with `start = -1` the run is empty and the loop sets no bit
    let bits := setRange s.bits r.start.toNat r.size
    let item := ⟨BitVec.ofInt 32 r.start, BitVec.ofNat 32 r.size⟩
    (if r.start > 0 then r.start * 4096 else r.start, ⟨bits, s.head ++ [item]⟩)

/-- The loop of `pcief_dmabuf_free`: clear the bits of the first item that starts at
`addr` and take it out of the list.  The loop bound is a 32-bit sum. -/
def unlink (addr : Nat) (bits : Words) : List MtdmaBufItem → Words × List MtdmaBufItem
  | [] => (bits, [])
  | item :: next =>
      if item.blkStart.toNat = addr then
        (clearRange bits item.blkStart.toNat
          ((item.blkStart + item.size).toNat - item.blkStart.toNat), next)
      else
        let r := unlink addr bits next
        (r.1, item :: r.2)

/-- `pcief_dmabuf_free`. -/
def pciefDmabufFree (s : Dmabuf) (addr : Int) : Dmabuf :=
  if addr < 0 then s
  else
    let r := unlink (addr.toNat / 4096) s.bits s.head
    ⟨r.1, r.2⟩

/-- A call of the library. -/
inductive DmabufCall
  | malloc (len : U64)
  | free (addr : Int)

/-- The allocator after a call. -/
def dmabufStep (resv : Bool) (s : Dmabuf) : DmabufCall → Option Dmabuf
  | .malloc len => some (pciefDmabufMalloc resv s len).2
  | .free addr => some (pciefDmabufFree s addr)

/-- The states of the allocator that calls lead to. -/
def DmabufReaches (resv : Bool) : Dmabuf → Prop :=
  Reaches (dmabufStep resv) anyStep (· = Dmabuf.init)

/-! ## the sizes -/

theorem blkNum_mul (resv : Bool) : mtdmaBufBlkNum resv * 4096 = mtdmaBufSize resv := by
  cases resv <;> rfl

theorem blkWords_mul (resv : Bool) : mtdmaBufBlkWords resv * 32 = mtdmaBufBlkNum resv := by
  cases resv <;> rfl

theorem blkNum_le (resv : Bool) : mtdmaBufBlkNum resv ≤ 0x800000 := by
  cases resv <;> decide

/-! ## the search is a search over blocks -/

theorem scanWord_eq (bits : Words) (len i : Nat) {n j : Nat} (hj : j + n ≤ 32) (r : Run) :
    scanWord bits len i n j r = scan (used bits) len n (i * 32 + j) r := by
  induction n generalizing j r with
  | zero => rfl
  | succ n ih =>
      have hdiv : (i * 32 + j) / 32 = i := by omega
      have hmod : (i * 32 + j) % 32 = j := by omega
      have hbit : (bits i &&& 1#32 <<< j != 0#32) = used bits (i * 32 + j) := by
        rw [used, hdiv, hmod]
      rw [scanWord, scan, hbit, ih (by omega), Nat.add_assoc]

/-- The two loops are one search over the blocks. -/
theorem scanWords_eq (bits : Words) (len n i : Nat) {r : Run} (hr : r.size < len) :
    scanWords bits len n i r = scan (used bits) len (n * 32) (i * 32) r := by
  induction n generalizing i r with
  | zero => simp [scanWords, scan]
  | succ n ih =>
      rw [scanWords, scanWord_eq bits len i (by decide), Nat.add_zero,
        show (n + 1) * 32 = 32 + n * 32 by omega, scan_add _ _ _ hr]
      by_cases h : len ≤ (scan (used bits) len 32 (i * 32) r).size
      · simp only [h, ↓reduceIte]
      · simp only [h, ↓reduceIte]
        rw [ih _ (Nat.lt_of_not_le h), Nat.succ_mul]

/-- The run that the search for `len` blocks ends with. -/
def freeRun (resv : Bool) (s : Dmabuf) (len : Nat) : Run :=
  scanWords s.bits len (mtdmaBufBlkWords resv) 0 .none

/-- The search finds a free run, or there is none and it ends with the free blocks at
the end of the buffer. -/
theorem freeRun_spec (resv : Bool) (s : Dmabuf) {len : Nat} (hlen : 0 < len) :
    Found (used s.bits) (mtdmaBufBlkNum resv) len (freeRun resv s len) ∨
      Exhausted (used s.bits) (mtdmaBufBlkNum resv) len (freeRun resv s len) := by
  rw [freeRun, scanWords_eq s.bits len _ 0 (by exact hlen), blkWords_mul, Nat.zero_mul]
  exact scan_spec hlen _

/-- The run left by the search is empty, or a free range of the buffer. -/
theorem freeRun_cases (resv : Bool) (s : Dmabuf) {len : Nat} (hlen : 0 < len) :
    freeRun resv s len = .none ∨
      ∃ a n : Nat, freeRun resv s len = ⟨a, n⟩ ∧ 0 < n ∧ a + n ≤ mtdmaBufBlkNum resv ∧
        Clear (used s.bits) a n := by
  have hspec := freeRun_spec resv s hlen
  generalize freeRun resv s len = r at *
  obtain ⟨start, n⟩ := r
  rcases hspec with ⟨rfl, a, hstart, hend, hclear⟩ | ⟨-, ⟨hle, hclear, -, hstart⟩, -⟩
  · exact .inr ⟨a, n, congrArg (Run.mk · n) hstart, hlen, hend, hclear⟩
  · dsimp only at hle hclear hstart
    by_cases h0 : n = 0
    · rw [if_pos h0] at hstart
      exact .inl (by rw [hstart, h0]; rfl)
    · rw [if_neg h0] at hstart
      exact .inr ⟨_, n, congrArg (Run.mk · n) hstart, Nat.pos_of_ne_zero h0, by omega, hclear⟩

/-! ## items -/

namespace MtdmaBufItem

/-- A block is in the range of an item. -/
def Covers (item : MtdmaBufItem) (blk : Nat) : Prop :=
  item.blkStart.toNat ≤ blk ∧ blk < item.blkStart.toNat + item.size.toNat

instance (item : MtdmaBufItem) (blk : Nat) : Decidable (item.Covers blk) :=
  inferInstanceAs (Decidable (_ ∧ _))

/-- An address is in the first block of an item. -/
def Starts (item : MtdmaBufItem) (addr : Int) : Prop :=
  0 ≤ addr ∧ addr.toNat / 4096 = item.blkStart.toNat

instance (item : MtdmaBufItem) (addr : Int) : Decidable (item.Starts addr) :=
  inferInstanceAs (Decidable (_ ∧ _))

/-- The item of a run. -/
def ofRun (r : Run) : MtdmaBufItem := ⟨BitVec.ofInt 32 r.start, BitVec.ofNat 32 r.size⟩

/-- An item is empty and starts at `(u32)-1`, or it is a range of the buffer. -/
def Ok (resv : Bool) (item : MtdmaBufItem) : Prop :=
  (item.blkStart.toNat = 0xFFFFFFFF ∧ item.size.toNat = 0) ∨
    (0 < item.size.toNat ∧ item.blkStart.toNat + item.size.toNat ≤ mtdmaBufBlkNum resv)

theorem not_covers_none (blk : Nat) : ¬(ofRun .none).Covers blk := by
  intro h
  simp [Covers, ofRun, Run.none] at h
  omega

theorem ok_none (resv : Bool) : (ofRun .none).Ok resv := .inl ⟨rfl, rfl⟩

variable {resv : Bool}

theorem ofRun_toNat {a n : Nat} (h : a + n ≤ mtdmaBufBlkNum resv) :
    (ofRun ⟨a, n⟩).blkStart.toNat = a ∧ (ofRun ⟨a, n⟩).size.toNat = n := by
  have := blkNum_le resv
  simp only [ofRun, BitVec.toNat_ofInt, BitVec.toNat_ofNat]
  omega

theorem covers_ofRun {a n : Nat} (h : a + n ≤ mtdmaBufBlkNum resv) (blk : Nat) :
    (ofRun ⟨a, n⟩).Covers blk ↔ a ≤ blk ∧ blk < a + n := by
  rw [Covers, (ofRun_toNat h).1, (ofRun_toNat h).2]

theorem ok_ofRun {a n : Nat} (hn : 0 < n) (h : a + n ≤ mtdmaBufBlkNum resv) :
    (ofRun ⟨a, n⟩).Ok resv := by
  refine .inr ?_
  rw [(ofRun_toNat h).1, (ofRun_toNat h).2]
  exact ⟨hn, h⟩

/-- The number of rounds of the loop that clears an item's bits. -/
theorem Ok.rounds {item : MtdmaBufItem} (h : item.Ok resv) :
    (item.blkStart + item.size).toNat - item.blkStart.toNat = item.size.toNat := by
  have := blkNum_le resv
  rw [BitVec.toNat_add]
  rcases h with ⟨hstart, hsize⟩ | ⟨-, hend⟩ <;> omega

/-- An item with a range covers the block it starts at. -/
theorem covers_start {item : MtdmaBufItem} (h : item.size.toNat ≠ 0) :
    item.Covers item.blkStart.toNat :=
  ⟨Nat.le_refl _, by omega⟩

/-- An item that starts where one with a range starts has a range. -/
theorem Ok.size_ne {item other : MtdmaBufItem} (hi : item.Ok resv) (ho : other.Ok resv)
    (h : item.blkStart.toNat = other.blkStart.toNat) (hsize : other.size.toNat ≠ 0) :
    item.size.toNat ≠ 0 := by
  have := blkNum_le resv
  rcases hi with ⟨hstart, -⟩ | ⟨hpos, -⟩
  · rcases ho with ⟨-, h0⟩ | ⟨-, hend⟩ <;> omega
  · omega

end MtdmaBufItem

/-! ## the invariant -/

/-- The bitmap and the list are in step. -/
structure Dmabuf.Inv (resv : Bool) (s : Dmabuf) : Prop where
  used_iff : ∀ blk, used s.bits blk = true ↔ ∃ item ∈ s.head, item.Covers blk
  disjoint : s.head.Pairwise fun x y => ∀ blk, x.Covers blk → ¬y.Covers blk
  items : ∀ item ∈ s.head, item.Ok resv

/-- What `malloc` does: it refuses the length, or it marks the run that the search
ended with and appends its item. -/
theorem malloc_cases (resv : Bool) (s : Dmabuf) (len : U64) :
    (((lenBlks len).toNat = 0 ∨ mtdmaBufSize resv < (lenBlks len).toNat) ∧
        pciefDmabufMalloc resv s len = (-1, s)) ∨
      (0 < (lenBlks len).toNat ∧ (lenBlks len).toNat ≤ mtdmaBufSize resv ∧
        ∃ r, r = freeRun resv s (lenBlks len).toNat ∧
          pciefDmabufMalloc resv s len =
            (if r.start > 0 then r.start * 4096 else r.start,
              ⟨setRange s.bits r.start.toNat r.size, s.head ++ [.ofRun r]⟩)) := by
  by_cases h : (lenBlks len).toNat > mtdmaBufSize resv ∨ (lenBlks len).toNat = 0
  · exact .inl ⟨h.symm, by simp only [pciefDmabufMalloc, if_pos h]⟩
  · refine .inr ⟨by omega, by omega, _, rfl, ?_⟩
    simp only [pciefDmabufMalloc, if_neg h]
    rfl

/-- What the loop of `free` does: nothing when no item starts at the address, else it
takes out the first one that does. -/
theorem unlink_cases (addr : Nat) (bits : Words) (l : List MtdmaBufItem) :
    ((∀ item ∈ l, item.blkStart.toNat ≠ addr) ∧ unlink addr bits l = (bits, l)) ∨
      ∃ pre item post, l = pre ++ item :: post ∧ (∀ x ∈ pre, x.blkStart.toNat ≠ addr) ∧
        item.blkStart.toNat = addr ∧
        unlink addr bits l = (clearRange bits item.blkStart.toNat
          ((item.blkStart + item.size).toNat - item.blkStart.toNat), pre ++ post) := by
  induction l with
  | nil => exact .inl ⟨by simp, rfl⟩
  | cons item next ih =>
      by_cases h : item.blkStart.toNat = addr
      · exact .inr ⟨[], item, next, rfl, by simp, h, by simp only [unlink, if_pos h]; rfl⟩
      · rcases ih with ⟨hnone, heq⟩ | ⟨pre, found, post, rfl, hpre, hfound, heq⟩
        · refine .inl ⟨List.forall_mem_cons.mpr ⟨h, hnone⟩, ?_⟩
          simp only [unlink, if_neg h, heq]
        · refine .inr ⟨item :: pre, found, post, rfl, List.forall_mem_cons.mpr ⟨h, hpre⟩,
            hfound, ?_⟩
          simp only [unlink, if_neg h, heq, List.cons_append]

theorem Dmabuf.inv_init (resv : Bool) : Dmabuf.init.Inv resv where
  used_iff blk := by simp [Dmabuf.init]
  disjoint := .nil
  items := by simp [Dmabuf.init]

namespace Dmabuf.Inv

variable {resv : Bool} {s : Dmabuf}

/-- Append the item of a free range and mark its blocks. -/
theorem append (h : s.Inv resv) {a n : Nat} (hn : 0 < n) (hend : a + n ≤ mtdmaBufBlkNum resv)
    (hclear : Clear (used s.bits) a n) :
    Dmabuf.Inv resv ⟨setRange s.bits a n, s.head ++ [.ofRun ⟨a, n⟩]⟩ where
  used_iff blk := by
    simp only [used_setRange, Bool.or_eq_true, decide_eq_true_eq, h.used_iff,
      List.mem_append, List.mem_singleton]
    constructor
    · rintro (hblk | ⟨item, hitem, hblk⟩)
      · exact ⟨_, .inr rfl, (MtdmaBufItem.covers_ofRun hend blk).mpr hblk⟩
      · exact ⟨item, .inl hitem, hblk⟩
    · rintro ⟨item, hitem | rfl, hblk⟩
      · exact .inr ⟨item, hitem, hblk⟩
      · exact .inl ((MtdmaBufItem.covers_ofRun hend blk).mp hblk)
  disjoint := by
    refine List.pairwise_append.mpr ⟨h.disjoint, List.pairwise_singleton _ _, ?_⟩
    intro x hx y hy blk hxb hyb
    rw [List.mem_singleton.mp hy, MtdmaBufItem.covers_ofRun hend] at hyb
    -- the block would be in use and free
    have hused := (h.used_iff blk).mpr ⟨x, hx, hxb⟩
    rw [hclear blk hyb.1 hyb.2] at hused
    contradiction
  items item hitem := by
    rcases List.mem_append.mp hitem with hitem | hitem
    · exact h.items item hitem
    · exact List.mem_singleton.mp hitem ▸ MtdmaBufItem.ok_ofRun hn hend

/-- Append an item without a range. -/
theorem append_none (h : s.Inv resv) : Dmabuf.Inv resv ⟨s.bits, s.head ++ [.ofRun .none]⟩ where
  used_iff blk := by simp [h.used_iff, MtdmaBufItem.not_covers_none, or_and_right, exists_or]
  disjoint := by
    refine List.pairwise_append.mpr ⟨h.disjoint, List.pairwise_singleton _ _, ?_⟩
    intro x hx y hy blk _
    exact List.mem_singleton.mp hy ▸ MtdmaBufItem.not_covers_none blk
  items item hitem := by
    rcases List.mem_append.mp hitem with hitem | hitem
    · exact h.items item hitem
    · exact List.mem_singleton.mp hitem ▸ MtdmaBufItem.ok_none resv

theorem malloc (h : s.Inv resv) (len : U64) : (pciefDmabufMalloc resv s len).2.Inv resv := by
  rcases malloc_cases resv s len with ⟨-, heq⟩ | ⟨hlen, -, r, hr, heq⟩
  · rw [heq]; exact h
  · rw [heq]
    rcases freeRun_cases resv s hlen with hnone | ⟨a, n, hrun, hn, hend, hclear⟩
    · rw [hr, hnone]; exact h.append_none
    · rw [hr, hrun]; exact h.append hn hend hclear

/-- The bits after the blocks of an item of the list are cleared. -/
theorem used_clear (h : s.Inv resv) (hitem : item ∈ s.head) (blk : Nat) :
    used (clearRange s.bits item.blkStart.toNat
      ((item.blkStart + item.size).toNat - item.blkStart.toNat)) blk = true ↔
      used s.bits blk = true ∧ ¬item.Covers blk := by
  rw [(h.items item hitem).rounds, used_clearRange, Bool.and_eq_true, decide_eq_true_eq]
  rfl

/-- Take an item out of the list and clear its blocks. -/
theorem remove {bits : Words} (h : s.Inv resv) (hs : s.head = pre ++ item :: post)
    (hbits : ∀ blk, used bits blk = true ↔ used s.bits blk = true ∧ ¬item.Covers blk) :
    Dmabuf.Inv resv ⟨bits, pre ++ post⟩ := by
  have hsub : (pre ++ post).Sublist s.head := by
    rw [hs]; exact (List.sublist_cons_self item post).append_left pre
  have hdis := h.disjoint
  rw [hs, List.pairwise_append, List.pairwise_cons] at hdis
  obtain ⟨-, ⟨hpost, -⟩, hpre⟩ := hdis
  refine ⟨fun blk => ?_, h.disjoint.sublist hsub, fun x hx => h.items x (hsub.subset hx)⟩
  rw [hbits, h.used_iff, hs]
  constructor
  · rintro ⟨⟨x, hx, hblk⟩, hnot⟩
    refine ⟨x, ?_, hblk⟩
    rcases List.mem_append.mp hx with hx | hx
    · exact List.mem_append_left post hx
    · rcases List.mem_cons.mp hx with rfl | hx
      · contradiction
      · exact List.mem_append_right pre hx
  · rintro ⟨x, hx, hblk⟩
    -- no other item covers a block of the one removed
    rcases List.mem_append.mp hx with hx | hx
    · exact ⟨⟨x, List.mem_append_left _ hx, hblk⟩, hpre x hx item List.mem_cons_self blk hblk⟩
    · exact ⟨⟨x, List.mem_append_right _ (List.mem_cons_of_mem _ hx), hblk⟩,
        fun hi => hpost x hx blk hi hblk⟩

theorem free (h : s.Inv resv) (addr : Int) : (pciefDmabufFree s addr).Inv resv := by
  rw [pciefDmabufFree]
  split
  · exact h
  · rcases unlink_cases (addr.toNat / 4096) s.bits s.head with
      ⟨-, heq⟩ | ⟨pre, item, post, hs, -, -, heq⟩
    · rw [heq]; exact h
    · rw [heq]
      exact h.remove hs (h.used_clear (hs ▸ List.mem_append_right pre List.mem_cons_self))

end Dmabuf.Inv

/-- The bitmap and the list are in step after any calls. -/
theorem DmabufReaches.inv {resv : Bool} {s : Dmabuf} (h : DmabufReaches resv s) : s.Inv resv := by
  refine Reaches.invariant (P := Dmabuf.Inv resv) ?_ ?_ h
  · rintro s rfl
    exact Dmabuf.inv_init resv
  · intro s a s' ih _ hs
    cases a with
    | malloc len => exact Option.some.inj hs ▸ ih.malloc len
    | free addr => exact Option.some.inj hs ▸ ih.free addr

/-! ## the representation -/

/-- With the bitmap and the list in step, a block in use is in one item only. -/
theorem Dmabuf.Inv.used_iff_unique {resv : Bool} {s : Dmabuf} (h : s.Inv resv) (blk : Nat) :
    used s.bits blk = true ↔
      ∃! i : Nat, ∃ item : MtdmaBufItem, s.head[i]? = some item ∧ item.Covers blk := by
  rw [h.used_iff]
  constructor
  · rintro ⟨item, hitem, hblk⟩
    obtain ⟨i, hi⟩ := List.getElem?_of_mem hitem
    refine ⟨i, ⟨item, hi, hblk⟩, ?_⟩
    rintro j ⟨other, hj, hother⟩
    have hdis := List.pairwise_iff_getElem.mp h.disjoint
    obtain ⟨hilt, rfl⟩ := List.getElem?_eq_some_iff.mp hi
    obtain ⟨hjlt, rfl⟩ := List.getElem?_eq_some_iff.mp hj
    rcases Nat.lt_trichotomy i j with hij | hij | hij
    · exact absurd hother (hdis i j hilt hjlt hij blk hblk)
    · exact hij.symm
    · exact absurd hblk (hdis j i hjlt hilt hij blk hother)
  · rintro ⟨i, ⟨item, hi, hblk⟩, -⟩
    exact ⟨item, List.mem_of_getElem? hi, hblk⟩

/-- A free of an address that no item starts at. -/
theorem free_none {s : Dmabuf} {addr : Int} (h : ∀ item ∈ s.head, ¬item.Starts addr) :
    pciefDmabufFree s addr = s := by
  rw [pciefDmabufFree]
  split
  · rfl
  · next haddr =>
      rcases unlink_cases (addr.toNat / 4096) s.bits s.head with
        ⟨-, heq⟩ | ⟨pre, item, post, hs, -, hitem, -⟩
      · rw [heq]
      · exact absurd ⟨Int.not_lt.mp haddr, hitem.symm⟩
          (h item (hs ▸ List.mem_append_right pre List.mem_cons_self))

namespace Dmabuf.Inv

variable {resv : Bool} {s : Dmabuf} {addr : Int}

/-- Items with a range that start at the same block are the same one. -/
theorem starts_inj (h : s.Inv resv) (hs : s.head = pre ++ item :: post)
    (hitem : item.Starts addr) (hsize : item.size.toNat ≠ 0) :
    ∀ x ∈ pre ++ post, ¬x.Starts addr := by
  intro x hx hxaddr
  have hstart : x.blkStart.toNat = item.blkStart.toNat := hxaddr.2.symm.trans hitem.2
  have hmem : ∀ y ∈ pre ++ item :: post, y ∈ s.head := fun y hy => hs ▸ hy
  have hitem' : item ∈ s.head := hmem item (by simp)
  have hxmem : x ∈ s.head := by
    rcases List.mem_append.mp hx with hx | hx
    · exact hmem x (List.mem_append_left _ hx)
    · exact hmem x (List.mem_append_right _ (List.mem_cons_of_mem _ hx))
  have hxsize := (h.items x hxmem).size_ne (h.items item hitem') hstart hsize
  have hcover := MtdmaBufItem.covers_start hsize
  have hxcover := hstart ▸ MtdmaBufItem.covers_start hxsize
  have hdis := h.disjoint
  rw [hs, List.pairwise_append, List.pairwise_cons] at hdis
  rcases List.mem_append.mp hx with hx | hx
  · exact hdis.2.2 x hx item List.mem_cons_self _ hxcover hcover
  · exact hdis.2.1.1 x hx _ hcover hxcover

/-- A free of an address in the first block of an item with a range. -/
theorem free_starts (h : s.Inv resv) (hs : s.head = pre ++ item :: post)
    (hitem : item.Starts addr) (hsize : item.size.toNat ≠ 0) :
    (pciefDmabufFree s addr).head = pre ++ post ∧
      ∀ blk, used (pciefDmabufFree s addr).bits blk = true ↔
        used s.bits blk = true ∧ ¬item.Covers blk := by
  have hothers := h.starts_inj hs hitem hsize
  have hmem : item ∈ s.head := hs ▸ List.mem_append_right pre List.mem_cons_self
  rw [pciefDmabufFree, if_neg (Int.not_lt.mpr hitem.1)]
  rcases unlink_cases (addr.toNat / 4096) s.bits s.head with
    ⟨hnone, -⟩ | ⟨pre', item', post', hs', hpre', hitem', heq⟩
  · exact absurd hitem.2.symm (hnone item hmem)
  · -- the item found is the one given: any other does not start here
    rw [hs] at hs'
    have hfound : item'.Starts addr := ⟨hitem.1, hitem'.symm⟩
    rcases List.append_eq_append_iff.mp hs' with ⟨mid, hpre, hrest⟩ | ⟨mid, hpre, hrest⟩
    · cases mid with
      | nil =>
          obtain ⟨rfl, rfl⟩ := List.cons.inj hrest
          rw [heq, hpre, List.append_nil]
          exact ⟨rfl, h.used_clear hmem⟩
      | cons x mid =>
          obtain ⟨rfl, -⟩ := List.cons.inj hrest
          exact absurd hitem.2.symm (hpre' item (by simp [hpre]))
    · cases mid with
      | nil =>
          obtain ⟨rfl, rfl⟩ := List.cons.inj hrest
          rw [heq, hpre, List.append_nil]
          exact ⟨rfl, h.used_clear hmem⟩
      | cons x mid =>
          obtain ⟨rfl, -⟩ := List.cons.inj hrest
          exact absurd hfound (hothers item' (by simp [hpre]))

end Dmabuf.Inv

/-- **Representation**: after any calls a block's bit is set exactly when the block is
in the range of one item, and ranges of distinct items are disjoint.  A free of an
address in the first block of an item with a range clears that item's blocks and takes
out that item, after which another such free changes nothing; a free of an address that
no item starts at changes nothing. -/
theorem dmabuf_representation {resv : Bool} {s : Dmabuf} (h : DmabufReaches resv s) :
    (∀ blk, used s.bits blk = true ↔
        ∃! i : Nat, ∃ item : MtdmaBufItem, s.head[i]? = some item ∧ item.Covers blk) ∧
      s.head.Pairwise (fun x y => ∀ blk, x.Covers blk → ¬y.Covers blk) ∧
      (∀ pre item post addr, s.head = pre ++ item :: post → item.Starts addr →
        item.size.toNat ≠ 0 →
        (pciefDmabufFree s addr).head = pre ++ post ∧
          (∀ blk, used (pciefDmabufFree s addr).bits blk = true ↔
            used s.bits blk = true ∧ ¬item.Covers blk) ∧
          ∀ again, item.Starts again →
            pciefDmabufFree (pciefDmabufFree s addr) again = pciefDmabufFree s addr) ∧
      ∀ addr, (∀ item ∈ s.head, ¬item.Starts addr) → pciefDmabufFree s addr = s := by
  have hinv := h.inv
  refine ⟨hinv.used_iff_unique, hinv.disjoint, ?_, fun addr => free_none⟩
  intro pre item post addr hs hitem hsize
  obtain ⟨hhead, hbits⟩ := hinv.free_starts hs hitem hsize
  refine ⟨hhead, hbits, fun again hagain => free_none ?_⟩
  rw [hhead]
  exact hinv.starts_inj hs hagain hsize

/-- A run of 30 blocks, and one of 4 blocks that goes from the first word of the bitmap into
the second. -/
def twoItems : Dmabuf := (pciefDmabufMalloc true (pciefDmabufMalloc true .init 0x1e000).2 0x4000).2

theorem reaches_twoItems : DmabufReaches true twoItems := by
  have h0 : DmabufReaches true .init := Reaches.start rfl
  have h1 : DmabufReaches true (pciefDmabufMalloc true .init 0x1e000).2 :=
    Reaches.step (a := .malloc 0x1e000) h0 trivial rfl
  exact Reaches.step (a := .malloc 0x4000) h1 trivial rfl

/-- The second one is freed: its blocks in both words are clear, and the first one is left. -/
theorem dmabuf_representation_two :
    twoItems.head = [⟨0, 30⟩, ⟨30, 4⟩] ∧
      (∀ blk, used twoItems.bits blk = true ↔
        ∃! i : Nat, ∃ item : MtdmaBufItem, twoItems.head[i]? = some item ∧ item.Covers blk) ∧
      (used twoItems.bits 31 = true ∧ used twoItems.bits 32 = true ∧
        used twoItems.bits 34 = false) ∧
      (pciefDmabufFree twoItems 0x1e000).head = [⟨0, 30⟩] ∧
      ∀ blk, used (pciefDmabufFree twoItems 0x1e000).bits blk = true ↔
        used twoItems.bits blk = true ∧ ¬(⟨30, 4⟩ : MtdmaBufItem).Covers blk := by
  obtain ⟨hused, -, hfree, -⟩ := dmabuf_representation reaches_twoItems
  have hhead : twoItems.head = [⟨0, 30⟩, ⟨30, 4⟩] := by decide +kernel
  obtain ⟨hleft, hbits, -⟩ :=
    hfree [⟨0, 30⟩] ⟨30, 4⟩ [] 0x1e000 hhead (by decide) (by decide)
  exact ⟨hhead, hused, by decide +kernel, hleft, hbits⟩

end MtEmu
