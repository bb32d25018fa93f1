import MtEmu.Dmabuf.Result
import MtEmu.Dmabuf.Stream

/-!
# MtEmu.Dmabuf.Clients

The clients of the DMA buffer: threads that take buffers from `pcief_dmabuf_malloc`, use them
through `pcief_dmabuf_write` and `pcief_dmabuf_read`, and give them back (`mt_pcie_f.c`, with
`emu_dmabuf_llseek` of `mt-emu-dmabuf.c`).

`malloc` and `free` hold a mutex.  The two transfers do not: they are an `lseek` and a `write` or
`read` on the one open file that all threads share, so that another thread can move the position
in between (`clients_mixed_up`).  Where no two transfers overlap, no length is refused by the
allocator's slip and every thread stays in its own buffers, a buffer is a memory of its own
(`clients_isolated`).
-/

namespace MtEmu

open Bitmap Bytes Machine

/-! ## the file position -/

/-- `whence`. -/
inductive Whence where
  | seekSet
  | seekCur
  | seekEnd
  | seekOther
  deriving DecidableEq

/-- `emu_dmabuf_llseek`. -/
def DmaFile.emuDmabufLlseek (f : DmaFile) (off : U64) (whence : Whence) : U64 × DmaFile :=
  match whence with
  | .seekSet => (off, { f with fPos := off })
  | .seekCur => (f.fPos + off, { f with fPos := f.fPos + off })
  | .seekEnd | .seekOther => (f.fPos, f)

/-! ## transfers -/

/-- A call of `pcief_dmabuf_write` or `pcief_dmabuf_read`. -/
inductive DmaOp where
  | write (offset : U64) (data : { d : List (BitVec 8) // d.length < 2 ^ 32 })
  | read (offset : U64) (len : U32)

namespace DmaOp

def offset : DmaOp → U64
  | .write offset _ => offset
  | .read offset _ => offset

/-- The bytes it is about, of which the VFS passes `MAX_RW_COUNT` on. -/
def len : DmaOp → Nat
  | .write _ data => min data.1.length maxRwCount
  | .read _ len => min len.toNat maxRwCount

/-- The data of a write, as the driver gets them. -/
def sent (data : { d : List (BitVec 8) // d.length < 2 ^ 32 }) : RwData :=
  ⟨data.1.take maxRwCount, by
    rw [List.length_take]
    exact Nat.min_le_left _ _⟩

/-- The count of a read, as the driver gets it. -/
def asked (len : U32) : RwCount :=
  ⟨BitVec.ofNat 64 (min len.toNat maxRwCount), by
    rw [BitVec.toNat_ofNat]
    exact (Nat.mod_le _ _).trans (Nat.min_le_right _ _)⟩

end DmaOp

/-! ## threads -/

/-- A buffer that is handed out: to whom, where, and what its owner has stored there. -/
structure DmaBuf where
  owner : Nat
  addr : Nat
  len : Nat
  view : Mem

namespace DmaBuf

/-- The bytes `[offset, offset + n)` are in the buffer. -/
def Has (b : DmaBuf) (offset n : Nat) : Prop := b.addr ≤ offset ∧ offset + n ≤ b.addr + b.len

instance (b : DmaBuf) (offset n : Nat) : Decidable (b.Has offset n) :=
  inferInstanceAs (Decidable (_ ∧ _))

/-- What a write of a thread is to the buffer. -/
def stored (b : DmaBuf) (c offset : Nat) (data : List (BitVec 8)) : DmaBuf :=
  if b.owner = c ∧ b.Has offset data.length then
    { b with view := copy (fun k => data.getD k 0) 0 b.view (offset - b.addr) data.length }
  else b

@[simp] theorem stored_owner (b : DmaBuf) (c offset : Nat) (data : List (BitVec 8)) :
    (b.stored c offset data).owner = b.owner := by
  unfold stored
  split <;> rfl

@[simp] theorem stored_addr (b : DmaBuf) (c offset : Nat) (data : List (BitVec 8)) :
    (b.stored c offset data).addr = b.addr := by
  unfold stored
  split <;> rfl

@[simp] theorem stored_len (b : DmaBuf) (c offset : Nat) (data : List (BitVec 8)) :
    (b.stored c offset data).len = b.len := by
  unfold stored
  split <;> rfl

end DmaBuf

/-- The allocator and the open file, the threads between their `lseek` and their transfer, the
buffers handed out, and what each thread read last. -/
structure ClientSys where
  alloc : Dmabuf
  file : DmaFile
  inside : List (Nat × DmaOp)
  bufs : List DmaBuf
  got : Nat → List (BitVec 8)

/-- A step of a thread. -/
inductive ClientAct where
  | malloc (c : Nat) (len : U64)
  | free (c : Nat) (addr : Int)
  | lseek (c : Nat) (op : DmaOp)
  | transfer (c : Nat)

namespace ClientSys

/-- A thread is between its `lseek` and its transfer. -/
def InTransfer (s : ClientSys) (c : Nat) : Prop := (s.inside.lookup c).isSome

instance (s : ClientSys) (c : Nat) : Decidable (s.InTransfer c) :=
  inferInstanceAs (Decidable (_ = true))

/-- `pcief_dmabuf_malloc`; the caller keeps what is not negative. -/
def malloc (resv : Bool) (s : ClientSys) (c : Nat) (len : U64) : ClientSys :=
  let r := pciefDmabufMalloc resv s.alloc len
  { s with
    alloc := r.2
    bufs := if 0 ≤ r.1 then
        ⟨c, r.1.toNat, len.toNat, fun k => s.file.dev.mem (r.1.toNat + k)⟩ :: s.bufs
      else s.bufs }

/-- `pcief_dmabuf_free`. -/
def free (s : ClientSys) (addr : Int) : ClientSys :=
  { s with
    alloc := pciefDmabufFree s.alloc addr
    bufs := s.bufs.filter fun b => (b.addr : Int) ≠ addr }

/-- The `write` or `read` behind the `lseek`; the user's memory is there. -/
def transfer (s : ClientSys) (c : Nat) : DmaOp → ClientSys
  | .write offset data =>
      { s with
        file := s.file.resume (s.file.write (DmaOp.sent data))
        inside := s.inside.filter fun p => p.1 ≠ c
        bufs := s.bufs.map fun b => b.stored c offset.toNat (DmaOp.sent data).1 }
  | .read _ len =>
      let r := s.file.read (DmaOp.asked len)
      { s with
        file := s.file.resume r
        inside := s.inside.filter fun p => p.1 ≠ c
        got := Function.update s.got c r.toUser }

/-- The system after a step. -/
def step (resv : Bool) (s : ClientSys) : ClientAct → Option ClientSys
  | .malloc c len => if s.InTransfer c then none else some (s.malloc resv c len)
  | .free c addr => if s.InTransfer c then none else some (s.free addr)
  | .lseek c op =>
      if s.InTransfer c then none
      else some { s with
        file := (s.file.emuDmabufLlseek op.offset .seekSet).2
        inside := (c, op) :: s.inside }
  | .transfer c => (s.inside.lookup c).map (s.transfer c)

/-- The library is loaded, and the device is there. -/
def Init (resv : Bool) (s : ClientSys) : Prop :=
  s.alloc = .init ∧ s.inside = [] ∧ s.bufs = [] ∧
    s.file.dev.mtdmaSize.toNat = mtdmaBufSize resv

/-- The transfer is inside a buffer of the thread. -/
def Owns (s : ClientSys) (c : Nat) (op : DmaOp) : Prop :=
  ∃ b ∈ s.bufs, b.owner = c ∧ b.Has op.offset.toNat op.len

/-- Threads ask for lengths that are refused or fit, and use and give back their own buffers. -/
def OwnUse (resv : Bool) (s : ClientSys) : ClientAct → Prop
  | .malloc _ len => MallocFits resv s.alloc len
  | .free c addr => ∃ b ∈ s.bufs, b.owner = c ∧ (b.addr : Int) = addr
  | .lseek c op => s.Owns c op
  | .transfer _ => True

/-- And a transfer begins when no other one is under way. -/
def Alone (resv : Bool) (s : ClientSys) (a : ClientAct) : Prop :=
  s.OwnUse resv a ∧ ∀ c op, a = .lseek c op → s.inside = []

/-! ## the invariant -/

/-- The bytes of a buffer. -/
def Holds (s : ClientSys) (b : DmaBuf) : Prop :=
  ∀ j < b.len, s.file.dev.mem (b.addr + j) = b.view j

/-- Each buffer has an item of its own, which covers it, and holds what its owner stored; the
position is that of the one transfer under way. -/
structure Inv (resv : Bool) (s : ClientSys) : Prop where
  alloc : s.alloc.Inv resv
  size : s.file.dev.mtdmaSize.toNat = mtdmaBufSize resv
  items : ∀ b ∈ s.bufs, ∃ item ∈ s.alloc.head, item.size.toNat ≠ 0 ∧
    b.addr = item.blkStart.toNat * 4096 ∧ b.len ≤ item.size.toNat * 4096
  apart : s.bufs.Pairwise fun b b' => b.addr ≠ b'.addr
  holds : ∀ b ∈ s.bufs, s.Holds b
  under : s.inside = [] ∨
    ∃ c op, s.inside = [(c, op)] ∧ s.file.fPos = op.offset ∧ s.Owns c op

variable {resv : Bool} {s s' : ClientSys}

/-- Items with a range are apart. -/
theorem items_apart {d : Dmabuf} (h : d.Inv resv) {item other : MtdmaBufItem}
    (hitem : item ∈ d.head) (hother : other ∈ d.head) (hne : item ≠ other)
    (hsize : item.size.toNat ≠ 0) (hsize' : other.size.toNat ≠ 0) :
    item.blkStart.toNat + item.size.toNat ≤ other.blkStart.toNat ∨
      other.blkStart.toNat + other.size.toNat ≤ item.blkStart.toNat := by
  have hsymm : Std.Symm fun x y : MtdmaBufItem => ∀ blk, x.Covers blk → ¬y.Covers blk :=
    ⟨fun x y hxy blk hy hx => hxy blk hx hy⟩
  have hdis := h.disjoint.forall hitem hother hne
  by_contra hover
  push Not at hover
  refine hdis (max item.blkStart.toNat other.blkStart.toNat) ?_ ?_
  · unfold MtdmaBufItem.Covers
    omega
  · unfold MtdmaBufItem.Covers
    omega

/-- So are the buffers. -/
theorem Inv.bufs_apart (h : s.Inv resv) {b b' : DmaBuf} (hb : b ∈ s.bufs) (hb' : b' ∈ s.bufs)
    (hne : b.addr ≠ b'.addr) : b.addr + b.len ≤ b'.addr ∨ b'.addr + b'.len ≤ b.addr := by
  obtain ⟨item, hitem, hsize, haddr, hlen⟩ := h.items b hb
  obtain ⟨item', hitem', hsize', haddr', hlen'⟩ := h.items b' hb'
  have hitems : item ≠ item' := by
    rintro rfl
    exact hne (haddr.trans haddr'.symm)
  have := items_apart h.alloc hitem hitem' hitems hsize hsize'
  omega

/-- They are inside the DMA buffer. -/
theorem Inv.inside_buf (h : s.Inv resv) {b : DmaBuf} (hb : b ∈ s.bufs) :
    b.addr + b.len ≤ mtdmaBufSize resv := by
  obtain ⟨item, hitem, hsize, haddr, hlen⟩ := h.items b hb
  have hblks := blkNum_mul resv
  obtain ⟨-, h0⟩ | ⟨-, hend⟩ := h.alloc.items item hitem
  · exact absurd h0 hsize
  · omega

theorem inv_of_init (h : Init resv s) : s.Inv resv := by
  obtain ⟨halloc, hinside, hbufs, hsize⟩ := h
  exact ⟨halloc ▸ Dmabuf.inv_init resv, hsize, by simp [hbufs], by simp [hbufs], by simp [hbufs],
    .inl hinside⟩

/-- A buffer of its own for what `malloc` has found. -/
theorem Inv.malloc (h : s.Inv resv) {len : U64} (hfits : MallocFits resv s.alloc len) (c : Nat) :
    (s.malloc resv c len).Inv resv := by
  have halloc := h.alloc.malloc len
  rcases malloc_cases resv s.alloc len with ⟨-, heq⟩ | ⟨hpos, hle, r, hr, heq⟩
  · have hsame : s.malloc resv c len = s := by
      unfold ClientSys.malloc
      rw [heq]
      rfl
    rwa [hsame]
  obtain hfound | ⟨-, -, hno⟩ := freeRun_spec resv s.alloc hpos
  swap
  · rcases hfits with h0 | hbig | hrun
    · omega
    · omega
    · exact absurd hrun hno
  rw [← hr] at hfound
  obtain ⟨start, n⟩ := r
  obtain ⟨rfl, a, rfl, hend, hclear⟩ := hfound
  have hbounds := (lenBlks_bounds hpos).1
  have haddr : (pciefDmabufMalloc resv s.alloc len).1 = ((a * 4096 : Nat) : Int) := by
    rw [heq]
    exact run_addr a
  have hhead : (pciefDmabufMalloc resv s.alloc len).2.head =
      s.alloc.head ++ [.ofRun ⟨a, (lenBlks len).toNat⟩] := by rw [heq]
  obtain ⟨hstart, hsize⟩ := MtdmaBufItem.ofRun_toNat hend
  have hbufs : (s.malloc resv c len).bufs =
      ⟨c, a * 4096, len.toNat, fun k => s.file.dev.mem (a * 4096 + k)⟩ :: s.bufs := by
    simp only [ClientSys.malloc, haddr, Int.toNat_natCast]
    exact if_pos (Int.natCast_nonneg _)
  -- no buffer starts at a block that was free
  have hfresh : ∀ b ∈ s.bufs, a * 4096 ≠ b.addr := fun b hb hsame => by
    obtain ⟨item, hitem, hne, hb', -⟩ := h.items b hb
    have hused := (h.alloc.used_iff a).mpr ⟨item, hitem, by
      unfold MtdmaBufItem.Covers
      omega⟩
    rw [hclear a le_rfl (by omega)] at hused
    contradiction
  refine ⟨halloc, h.size, ?_, ?_, ?_, ?_⟩
  · rw [hbufs, List.forall_mem_cons]
    refine ⟨⟨_, hhead ▸ List.mem_append_right _ List.mem_cons_self, by omega, by rw [hstart],
      by rw [hsize]; exact hbounds⟩, fun b hb => ?_⟩
    obtain ⟨item, hitem, hrest⟩ := h.items b hb
    exact ⟨item, hhead ▸ List.mem_append_left _ hitem, hrest⟩
  · rw [hbufs]
    exact .cons hfresh h.apart
  · rw [hbufs, List.forall_mem_cons]
    exact ⟨fun j _ => rfl, h.holds⟩
  · refine h.under.imp_right fun ⟨d, op, hin, hpos, b, hb, hown⟩ =>
      ⟨d, op, hin, hpos, b, ?_, hown⟩
    rw [hbufs]
    exact List.mem_cons_of_mem _ hb

/-- A buffer that is given back. -/
theorem Inv.free (h : s.Inv resv) {c : Nat} {addr : Int} (hin : ¬s.InTransfer c)
    (hown : ∃ b ∈ s.bufs, b.owner = c ∧ (b.addr : Int) = addr) : (s.free addr).Inv resv := by
  obtain ⟨b, hb, rfl, rfl⟩ := hown
  obtain ⟨item, hitem, hsize, haddr, -⟩ := h.items b hb
  obtain ⟨pre, post, hs⟩ := List.append_of_mem hitem
  have hstarts : item.Starts (b.addr : Int) := ⟨Int.natCast_nonneg _, by
    rw [Int.toNat_natCast]
    omega⟩
  obtain ⟨hhead, -⟩ := h.alloc.free_starts hs hstarts hsize
  have hsub : ∀ x ∈ (s.free b.addr).bufs, x ∈ s.bufs ∧ x.addr ≠ b.addr := fun x hx => by
    obtain ⟨hmem, hne⟩ := List.mem_filter.mp hx
    exact ⟨hmem, by simpa using hne⟩
  refine ⟨h.alloc.free (b.addr : Int), h.size, fun x hx => ?_, h.apart.sublist List.filter_sublist,
    fun x hx => h.holds x (hsub x hx).1, ?_⟩
  · obtain ⟨hmem, hne⟩ := hsub x hx
    obtain ⟨other, hother, hrest⟩ := h.items x hmem
    have hdiff : other ≠ item := by
      rintro rfl
      exact hne (hrest.2.1.trans haddr.symm)
    refine ⟨other, ?_, hrest⟩
    show other ∈ (pciefDmabufFree s.alloc b.addr).head
    rw [hhead]
    rw [hs] at hother
    simp only [List.mem_append, List.mem_cons] at hother ⊢
    obtain hpre | rfl | hpost := hother
    · exact .inl hpre
    · exact absurd rfl hdiff
    · exact .inr hpost
  · refine h.under.imp_right fun ⟨d, op, hinside, hpos, x, hx, hx', hhas⟩ =>
      ⟨d, op, hinside, hpos, x, ?_, hx', hhas⟩
    refine List.mem_filter.mpr ⟨hx, ?_⟩
    -- the thread that gives back is not the one in the transfer
    have hother : d ≠ b.owner := by
      rintro rfl
      refine hin ?_
      simp [InTransfer, hinside]
    have hne : x.addr ≠ b.addr := fun heq => by
      have hsymm : Std.Symm fun b b' : DmaBuf => b.addr ≠ b'.addr := ⟨fun _ _ hne => hne.symm⟩
      by_cases hsame : x = b
      · exact hother (hx'.symm.trans (congrArg DmaBuf.owner hsame))
      · exact h.apart.forall hx hb hsame heq
    simpa using hne

/-- The one transfer under way. -/
theorem Inv.current (h : s.Inv resv) {c : Nat} {op : DmaOp} (hop : s.inside.lookup c = some op) :
    s.inside = [(c, op)] ∧ s.file.fPos = op.offset ∧ s.Owns c op := by
  obtain hnil | ⟨d, op', hin, hpos, hown⟩ := h.under
  · rw [hnil] at hop
    contradiction
  · have hlookup := hop
    rw [hin, List.lookup_cons] at hlookup
    split at hlookup
    · next heq =>
        obtain rfl := Option.some.inj hlookup
        obtain rfl : c = d := by simpa using heq
        exact ⟨hin, hpos, hown⟩
    · contradiction

/-- The count of a read. -/
theorem asked_toNat (len : U32) : (DmaOp.asked len).1.toNat = min len.toNat maxRwCount := by
  have hlen := len.isLt
  rw [DmaOp.asked, BitVec.toNat_ofNat, Nat.mod_eq_of_lt (by omega)]

/-- A read of bytes that are all in front of the end. -/
theorem toUser_read (f : DmaFile) (len : U32)
    (hin : f.fPos.toNat + min len.toNat maxRwCount ≤ f.dev.mtdmaSize.toNat) :
    (f.read (DmaOp.asked len)).toUser =
      slice f.dev.mem f.fPos.toNat (min len.toNat maxRwCount) := by
  rw [DmaFile.read]
  by_cases hlt : f.fPos.toNat < f.dev.mtdmaSize.toNat
  · rw [EmuDmabuf.read_before _ 0 hlt, EmuDmabuf.accepted, asked_toNat,
      Nat.min_eq_left (by omega), Nat.sub_zero]
  · rw [EmuDmabuf.read_end _ 0 (Nat.le_of_not_lt hlt), show min len.toNat maxRwCount = 0 by omega]
    rfl

/-- What a thread stores in its buffer is stored there only. -/
theorem Inv.write (h : s.Inv resv) {c : Nat} {offset : U64}
    {data : { d : List (BitVec 8) // d.length < 2 ^ 32 }}
    (hop : s.inside.lookup c = some (.write offset data)) :
    (s.transfer c (.write offset data)).Inv resv := by
  obtain ⟨hin, hpos, b, hb, hown, hhas⟩ := h.current hop
  have hlen : (DmaOp.sent data).1.length = min data.1.length maxRwCount := by
    rw [DmaOp.sent, List.length_take, Nat.min_comm]
  have hpos : s.file.fPos = offset := hpos
  have hhas : b.Has offset.toNat (DmaOp.sent data).1.length := by
    rw [hlen]
    exact hhas
  obtain ⟨hlow, hhigh⟩ := hhas
  have hend := h.inside_buf hb
  have hfit : (DmaOp.sent data).1.length ≤ s.file.rest := by
    rw [DmaFile.rest, h.size, hpos]
    omega
  have hmem := (DmaFile.mem_resume_write s.file (DmaOp.sent data)).1
  rw [DmaFile.store, Nat.min_eq_left hfit, hpos] at hmem
  have hsize : (s.file.resume (s.file.write (DmaOp.sent data))).dev.mtdmaSize =
      s.file.dev.mtdmaSize := (s.file.dev.confined_write (DmaOp.sent data) s.file.fPos 0).size
  have hsub : ∀ x ∈ (s.transfer c (.write offset data)).bufs, ∃ y ∈ s.bufs,
      x = y.stored c offset.toNat (DmaOp.sent data).1 := fun x hx => by
    obtain ⟨y, hy, rfl⟩ := List.mem_map.mp hx
    exact ⟨y, hy, rfl⟩
  refine ⟨h.alloc, (congrArg BitVec.toNat hsize).trans h.size, fun x hx => ?_, ?_, fun x hx => ?_,
    .inl ?_⟩
  · obtain ⟨y, hy, rfl⟩ := hsub x hx
    rw [DmaBuf.stored_addr, DmaBuf.stored_len]
    exact h.items y hy
  · exact List.pairwise_map.mpr (h.apart.imp fun hne => by simpa using hne)
  · obtain ⟨y, hy, rfl⟩ := hsub x hx
    intro j hj
    rw [DmaBuf.stored_len] at hj
    rw [DmaBuf.stored_addr]
    show (s.file.resume (s.file.write (DmaOp.sent data))).dev.mem (y.addr + j) = _
    rw [hmem]
    have hold := h.holds y hy j hj
    unfold DmaBuf.stored
    by_cases hmine : y.owner = c ∧ y.Has offset.toNat (DmaOp.sent data).1.length
    · obtain ⟨hlow, -⟩ := hmine.2
      rw [if_pos hmine]
      simp only [copy, Nat.zero_add]
      by_cases hj' : offset.toNat - y.addr ≤ j ∧
          j < offset.toNat - y.addr + (DmaOp.sent data).1.length
      · rw [if_pos (by omega), if_pos hj']
        congr 1
        omega
      · rw [if_neg (by omega), if_neg hj', hold]
    · rw [if_neg hmine, ← hold]
      -- the buffer is another one, and the write stays in its own
      have hne : b.addr ≠ y.addr := fun heq => by
        have hsymm : Std.Symm fun b b' : DmaBuf => b.addr ≠ b'.addr := ⟨fun _ _ hne => hne.symm⟩
        have hsame : b = y := by_contra fun hdiff => h.apart.forall hb hy hdiff heq
        subst hsame
        exact hmine ⟨hown, hlow, hhigh⟩
      have hapart := h.bufs_apart hb hy hne
      exact if_neg (by omega)
  · show s.inside.filter _ = []
    rw [hin]
    simp

theorem Inv.read (h : s.Inv resv) {c : Nat} {offset : U64} {len : U32}
    (hop : s.inside.lookup c = some (.read offset len)) :
    (s.transfer c (.read offset len)).Inv resv := by
  obtain ⟨hin, -, -⟩ := h.current hop
  have hfile : (s.transfer c (.read offset len)).file = s.file :=
    DmaFile.resume_read s.file (DmaOp.asked len)
  refine ⟨h.alloc, hfile ▸ h.size, h.items, h.apart, fun b hb j hj => ?_, .inl ?_⟩
  · rw [hfile]
    exact h.holds b hb j hj
  · show s.inside.filter _ = []
    rw [hin]
    simp

/-- Every step keeps the invariant. -/
theorem inv_step {a : ClientAct} (h : s.Inv resv) (hok : Alone resv s a)
    (hs : step resv s a = some s') : s'.Inv resv := by
  cases a with
  | malloc c len =>
      simp only [step] at hs
      split at hs
      · contradiction
      · exact Option.some.inj hs ▸ h.malloc hok.1 c
  | free c addr =>
      simp only [step] at hs
      split at hs
      · contradiction
      · next hin => exact Option.some.inj hs ▸ h.free hin hok.1
  | lseek c op =>
      simp only [step] at hs
      split at hs
      · contradiction
      · obtain rfl := Option.some.inj hs
        refine ⟨h.alloc, h.size, h.items, h.apart, h.holds, .inr ⟨c, op, ?_, rfl, hok.1⟩⟩
        show (c, op) :: s.inside = _
        rw [hok.2 c op rfl]
  | transfer c =>
      obtain ⟨op, hop, rfl⟩ := Option.map_eq_some_iff.mp hs
      cases op with
      | write offset data => exact h.write hop
      | read offset len => exact h.read hop

/-- **Buffers are memories of their own**: in every run in which threads ask for lengths that are
refused or fit, use their own buffers, and begin a transfer only when no other one is under way,
the buffers are apart and inside the DMA buffer, each holds what its owner has stored in it, and
a read gets what its buffer holds. -/
theorem clients_isolated {resv : Bool} {s : ClientSys}
    (h : Reaches (step resv) (Alone resv) (Init resv) s) :
    s.bufs.Pairwise (fun b b' => b.addr + b.len ≤ b'.addr ∨ b'.addr + b'.len ≤ b.addr) ∧
      (∀ b ∈ s.bufs, b.addr + b.len ≤ mtdmaBufSize resv ∧ s.Holds b) ∧
      ∀ c offset len s', s.inside.lookup c = some (.read offset len) →
        step resv s (.transfer c) = some s' → ∃ b ∈ s.bufs, b.owner = c ∧
          s'.got c = slice b.view (offset.toNat - b.addr) (min len.toNat maxRwCount) := by
  have hinv : s.Inv resv :=
    h.invariant (fun _ => inv_of_init) fun _ _ _ hi hok hs => inv_step hi hok hs
  refine ⟨?_, fun b hb => ⟨hinv.inside_buf hb, hinv.holds b hb⟩, ?_⟩
  · refine List.Pairwise.imp_of_mem ?_ hinv.apart
    exact fun hb hb' hne => hinv.bufs_apart hb hb' hne
  · intro c offset len s' hop hs
    obtain ⟨-, hpos, b, hb, hown, hlow, hhigh⟩ := hinv.current hop
    have hpos : s.file.fPos = offset := hpos
    have hlow : b.addr ≤ offset.toNat := hlow
    have hhigh : offset.toNat + min len.toNat maxRwCount ≤ b.addr + b.len := hhigh
    have hend := hinv.inside_buf hb
    have hsize := hinv.size
    refine ⟨b, hb, hown, ?_⟩
    rw [step, hop, Option.map_some, Option.some.injEq] at hs
    rw [← hs]
    show Function.update s.got c (s.file.read (DmaOp.asked len)).toUser c = _
    rw [Function.update_self, toUser_read s.file len (by rw [hpos, hsize]; omega), hpos]
    refine List.map_congr_left fun k hk => ?_
    have hk := List.mem_range.mp hk
    have hbyte := hinv.holds b hb (offset.toNat - b.addr + k) (by omega)
    rw [← hbyte]
    congr 1
    omega

/-! ## threads on one file -/

/-- The library is loaded, and the buffer is all zeroes. -/
def idle : ClientSys := ⟨.init, ⟨DmaFile.zeroedBuf, 0⟩, [], [], fun _ => []⟩

/-- Thread 0 has the first block, thread 1 the second. -/
def twoBufs : ClientSys := (idle.malloc false 0 4096).malloc false 1 4096

theorem twoBufs_reached {ok : ClientSys → ClientAct → Prop}
    (hok : ∀ s c len, MallocFits false s.alloc len → ok s (.malloc c len)) :
    Reaches (step false) ok (Init false) twoBufs := by
  have h0 : Reaches (step false) ok (Init false) idle := .start ⟨rfl, rfl, rfl, rfl⟩
  have h1 : Reaches (step false) ok (Init false) (idle.malloc false 0 4096) := by
    refine h0.step (hok idle 0 4096 (.inr (.inr ⟨0, by decide, fun k _ _ => used_zero k⟩))) ?_
    rfl
  refine h1.step (hok _ 1 4096 (.inr (.inr ⟨1, by decide, fun k hlow hhigh => ?_⟩))) rfl
  obtain rfl : k = 1 := by
    have hhigh : k < 2 := hhigh
    omega
  decide +kernel

/-- The two bytes that thread 0 stores in its buffer. -/
def write0 : DmaOp := .write 0 ⟨[1, 2], by decide⟩

/-- The byte that thread 1 stores in its own. -/
def write1 : DmaOp := .write 4096 ⟨[3], by decide⟩

theorem owns_write0 : twoBufs.Owns 0 write0 :=
  ⟨⟨0, 0, 4096, _⟩, List.mem_cons_of_mem _ List.mem_cons_self, by decide, by decide⟩

/-- One transfer after the other, thread 0 reads what it has written. -/
theorem clients_isolated_twoBufs :
    ∃ s s', s.inside.lookup 0 = some (.read 1 1) ∧ step false s (.transfer 0) = some s' ∧
      (∀ b ∈ s.bufs, s.Holds b) ∧ s'.got 0 = [2] := by
  have h2 : Reaches (step false) (Alone false) (Init false) twoBufs :=
    twoBufs_reached fun _ _ _ hfits => ⟨hfits, fun _ _ h => by contradiction⟩
  have h3 := h2.step (show Alone false twoBufs (.lseek 0 write0) from
    ⟨owns_write0, fun _ _ _ => rfl⟩) rfl
  have h4 := h3.step (show Alone false _ (.transfer 0) from
    ⟨trivial, fun _ _ h => by contradiction⟩) rfl
  have h5 := h4.step (show Alone false _ (.lseek 0 (.read 1 1)) from
    ⟨⟨_, List.mem_cons_of_mem _ List.mem_cons_self, by decide, by decide⟩, fun _ _ _ => rfl⟩) rfl
  obtain ⟨-, hholds, -⟩ := clients_isolated h5
  refine ⟨_, _, rfl, rfl, fun b hb => (hholds b hb).2, ?_⟩
  decide +kernel

/-- Threads that begin a transfer while another one is under way store in each other's
buffers. -/
theorem clients_mixed_up :
    ∃ s, Reaches (step false) (OwnUse false) (Init false) s ∧ ∃ b ∈ s.bufs, ¬s.Holds b := by
  have h2 : Reaches (step false) (OwnUse false) (Init false) twoBufs :=
    twoBufs_reached fun _ _ _ hfits => hfits
  have h3 := h2.step (show OwnUse false _ (.lseek 0 write0) from owns_write0) rfl
  have h4 := h3.step (show OwnUse false _ (.lseek 1 write1) from
    ⟨⟨1, 4096, 4096, _⟩, List.mem_cons_self, by decide, by decide⟩) rfl
  have h5 := h4.step (show OwnUse false _ (.transfer 0) from trivial) rfl
  refine ⟨_, h5, _, List.mem_cons_self, fun hholds => ?_⟩
  have hbyte := hholds 0 (by decide)
  revert hbyte
  decide +kernel

end ClientSys

end MtEmu
