import MtEmu.Dmabuf.Alloc

/-!
# MtEmu.Dmabuf.Result

What `pcief_dmabuf_malloc` returns.

A caller relies on one of two results: an address whose bytes are inside the buffer,
free before and marked now, or `-1` with nothing changed (`MallocSound`).  The code
meets this when it refuses the length or when a free run of enough blocks exists.  In
the one other case, when the search comes to the end of the buffer, it goes on
as if it had found a run (`malloc_exhausted`): with the free blocks at the end it
returns an address too close to the end of the buffer, with none it returns `-1` but
leaves an empty item in the list.
-/

namespace MtEmu

open Bitmap Machine

/-- The bytes `[addr, addr + len)` lie in the buffer, belong to no allocation before
and are marked after. -/
def Allocates (resv : Bool) (s t : Dmabuf) (addr len : Nat) : Prop :=
  addr + len ≤ mtdmaBufSize resv ∧
    ∀ b, addr ≤ b → b < addr + len →
      (∀ item ∈ s.head, ¬item.Covers (b / 4096)) ∧ used t.bits (b / 4096) = true

/-- A result a caller can rely on. -/
def MallocSound (resv : Bool) (s : Dmabuf) (len : U64) : Prop :=
  (∃ addr : Nat, (pciefDmabufMalloc resv s len).1 = addr ∧
      Allocates resv s (pciefDmabufMalloc resv s len).2 addr len.toNat) ∨
    pciefDmabufMalloc resv s len = (-1, s)

/-- The length is refused, or a free run of enough blocks exists. -/
def MallocFits (resv : Bool) (s : Dmabuf) (len : U64) : Prop :=
  (lenBlks len).toNat = 0 ∨ mtdmaBufSize resv < (lenBlks len).toNat ∨
    HasRun (used s.bits) (mtdmaBufBlkNum resv) (lenBlks len).toNat

/-! ## lengths and addresses -/

theorem lenBlks_toNat (len : U64) :
    (lenBlks len).toNat = (len.toNat + 4095) % 0x10000000000000000 / 4096 := rfl

/-- The blocks of a length cover it, and one less does not. -/
theorem lenBlks_bounds {len : U64} (h : 0 < (lenBlks len).toNat) :
    len.toNat ≤ (lenBlks len).toNat * 4096 ∧ (lenBlks len).toNat * 4096 < len.toNat + 4096 := by
  have hlen := len.isLt
  rw [lenBlks_toNat] at h ⊢
  omega

/-- The address of a run with blocks. -/
theorem run_addr (a : Nat) :
    (if (a : Int) > 0 then (a : Int) * 4096 else (a : Int)) = ((a * 4096 : Nat) : Int) := by
  split <;> omega

variable {resv : Bool} {s : Dmabuf} {len : U64}

/-! ## the two ends of the search -/

/-- A run that was found is allocated. -/
theorem malloc_found (h : s.Inv resv) (hlen : 0 < (lenBlks len).toNat)
    (hle : (lenBlks len).toNat ≤ mtdmaBufSize resv)
    (hfound : Found (used s.bits) (mtdmaBufBlkNum resv) (lenBlks len).toNat
      (freeRun resv s (lenBlks len).toNat)) :
    ∃ addr : Nat, (pciefDmabufMalloc resv s len).1 = addr ∧
      Allocates resv s (pciefDmabufMalloc resv s len).2 addr len.toNat := by
  have hbounds := (lenBlks_bounds hlen).1
  have hbuf := blkNum_mul resv
  obtain ⟨hsize, a, hstart, hend, hclear⟩ := hfound
  rcases malloc_cases resv s len with ⟨hbad, -⟩ | ⟨-, -, r, rfl, heq⟩
  · omega
  · rw [heq, hstart, hsize]
    refine ⟨a * 4096, run_addr a, by omega, fun b hb hb' => ⟨fun item hitem hblk => ?_, ?_⟩⟩
    · -- a block of an allocation is in use
      have hused := (h.used_iff (b / 4096)).mpr ⟨item, hitem, hblk⟩
      rw [hclear (b / 4096) (by omega) (by omega)] at hused
      contradiction
    · simp only [Int.toNat_natCast, used_setRange, Bool.or_eq_true, decide_eq_true_eq]
      omega

/-- At the end of the search `malloc` goes on all the same: it appends an item, and the
address it returns, if any, is that of the blocks at the end of the buffer. -/
theorem malloc_exhausted (hlen : 0 < (lenBlks len).toNat)
    (hle : (lenBlks len).toNat ≤ mtdmaBufSize resv)
    (hend : Exhausted (used s.bits) (mtdmaBufBlkNum resv) (lenBlks len).toNat
      (freeRun resv s (lenBlks len).toNat)) :
    (pciefDmabufMalloc resv s len).2.head ≠ s.head ∧
      ∀ addr : Nat, (pciefDmabufMalloc resv s len).1 = addr →
        mtdmaBufSize resv < addr + len.toNat := by
  have hbounds := (lenBlks_bounds hlen).2
  have hbuf := blkNum_mul resv
  obtain ⟨hshort, ⟨hsize, -, -, hstart⟩, -⟩ := hend
  rcases malloc_cases resv s len with ⟨hbad, -⟩ | ⟨-, -, r, rfl, heq⟩
  · omega
  · rw [heq]
    refine ⟨by simp, fun addr haddr => ?_⟩
    rw [hstart] at haddr
    split at haddr
    · -- no free block at the end: the result is `-1`
      simp only [gt_iff_lt, show ¬(0 < (-1 : Int)) by decide, ↓reduceIte] at haddr
      omega
    · rw [run_addr] at haddr
      omega

/-! ## the result -/

/-- The result is sound exactly when the length is refused or fits. -/
theorem Dmabuf.Inv.sound_iff (h : s.Inv resv) : MallocSound resv s len ↔ MallocFits resv s len := by
  rcases malloc_cases resv s len with ⟨hbad, heq⟩ | ⟨hlen, hle, -⟩
  · exact ⟨fun _ => hbad.elim .inl fun hbig => .inr (.inl hbig), fun _ => .inr heq⟩
  · have hfits : MallocFits resv s len ↔
        HasRun (used s.bits) (mtdmaBufBlkNum resv) (lenBlks len).toNat :=
      ⟨fun hf => hf.elim (by omega) fun hf => hf.elim (by omega) id, fun hf => .inr (.inr hf)⟩
    rw [hfits]
    rcases freeRun_spec resv s hlen with hfound | hend
    · exact ⟨fun _ => hfound.hasRun, fun _ => .inl (malloc_found h hlen hle hfound)⟩
    · obtain ⟨hhead, haddr⟩ := malloc_exhausted hlen hle hend
      refine ⟨fun hsound => ?_, fun hf => absurd hf hend.2.2⟩
      rcases hsound with ⟨addr, hret, hin, -⟩ | heq
      · exact absurd (haddr addr hret) (Nat.not_lt.mpr hin)
      · exact absurd (by rw [heq]) hhead

/-- **Result of `malloc`**: in every state that calls lead to, the result is an
allocation inside the buffer or a clean `-1` exactly when the length is refused or some
free run holds it. -/
theorem malloc_sound_iff_fits (h : DmabufReaches resv s) (len : U64) :
    MallocSound resv s len ↔ MallocFits resv s len :=
  h.inv.sound_iff

/-- Behind two items, 31 blocks from block 34 on, over the end of the second word. -/
theorem malloc_sound_two :
    twoItems.head = [⟨0, 30⟩, ⟨30, 4⟩] ∧ (pciefDmabufMalloc true twoItems 0x1f000).1 = 34 * 4096 ∧
      MallocSound true twoItems 0x1f000 := by
  refine ⟨by decide +kernel, by decide +kernel, ?_⟩
  have hfree : ∀ k < 65, 34 ≤ k → used twoItems.bits k = false := by decide +kernel
  exact (malloc_sound_iff_fits reaches_twoItems 0x1f000).mpr
    (.inr (.inr ⟨34, by decide, fun k hle hlt => hfree k hlt hle⟩))

/-- A length of one block more than the buffer has: the fresh allocator hands out the
whole buffer for it. -/
theorem malloc_too_long :
    DmabufReaches true .init ∧ ¬MallocSound true .init 0x800001000 :=
  ⟨Reaches.start rfl, fun h => by
    rcases (Dmabuf.inv_init true).sound_iff.mp h with h | h | ⟨a, ha, -⟩
    · exact absurd h (by decide)
    · exact absurd h (by decide)
    · exact absurd (Nat.le_trans (Nat.le_add_left _ a) ha) (by decide)⟩

end MtEmu
