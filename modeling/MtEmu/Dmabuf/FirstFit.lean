import MtEmu.Dmabuf.Result

/-!
# MtEmu.Dmabuf.FirstFit

Which run `pcief_dmabuf_malloc` takes: the lowest one that is long enough, wherever it
lies in the words of the bitmap.  A length of zero is refused.
-/

namespace MtEmu

open Bitmap Machine

/-- The blocks that a length takes. -/
def blksFor (len : U64) : Nat := (len.toNat + 4095) / 4096

/-- The starts of the free runs that are long enough. -/
def FitStarts (resv : Bool) (s : Dmabuf) (len : U64) : Set Nat :=
  {a | a + blksFor len ≤ mtdmaBufBlkNum resv ∧ Clear (used s.bits) a (blksFor len)}

variable {resv : Bool} {s : Dmabuf} {len : U64}

/-- A length that fits into the buffer is rounded up without overflow. -/
theorem lenBlks_of_fits (h : blksFor len ≤ mtdmaBufBlkNum resv) :
    (lenBlks len).toNat = blksFor len := by
  have hnum := blkNum_le resv
  rw [lenBlks_toNat, blksFor] at *
  omega

/-- **First fit**: in every state a length of at least one byte, for which some free run
is long enough, gets the lowest such run. -/
theorem malloc_first_fit (hlen : 1 ≤ len) (hfit : (FitStarts resv s len).Nonempty) :
    ∃ a : Nat, IsLeast (FitStarts resv s len) a ∧
      (pciefDmabufMalloc resv s len).1 = ((a * 4096 : Nat) : Int) := by
  obtain ⟨b, hb, hclear⟩ := hfit
  have hblks := lenBlks_of_fits (Nat.le_trans (Nat.le_add_left _ b) hb)
  have hpos : 0 < blksFor len := by
    have hone : 1 ≤ len.toNat := BitVec.le_def.mp hlen
    rw [blksFor]
    omega
  have hsmall : blksFor len ≤ mtdmaBufSize resv := by
    have hbuf := blkNum_mul resv
    omega
  have hscan := scan_isLeast hpos ⟨b, hb, hclear⟩
  obtain ⟨-, a, hstart, hleast⟩ := hscan
  refine ⟨a, hleast, ?_⟩
  cases malloc_cases resv s len with
  | inl hbad => omega
  | inr hrun =>
      obtain ⟨-, -, r, hr, heq⟩ := hrun
      have hfree : r.start = a := by
        rw [hr, freeRun, hblks, scanWords_eq s.bits (blksFor len) _ 0 (by exact hpos),
          blkWords_mul, Nat.zero_mul]
        exact hstart
      rw [heq, hfree]
      exact run_addr a

/-- Forty-eight blocks, more than a word of the bitmap, in the fresh buffer. -/
theorem malloc_first_fit_fresh : ∃ a : Nat, IsLeast (FitStarts true .init 0x30000) a ∧
    (pciefDmabufMalloc true .init 0x30000).1 = ((a * 4096 : Nat) : Int) :=
  malloc_first_fit (by decide) ⟨0, by decide, fun k _ _ => used_zero k⟩

/-- No bytes are refused in the fresh buffer, where every block is free. -/
theorem malloc_zero_refused : DmabufReaches true .init ∧ (∀ blk, used Dmabuf.init.bits blk = false) ∧
    (pciefDmabufMalloc true .init 0).1 = -1 ∧
    ¬ ∃ a : Nat, IsLeast (FitStarts true .init 0) a ∧
      (pciefDmabufMalloc true .init 0).1 = ((a * 4096 : Nat) : Int) := by
  have hret : (pciefDmabufMalloc true .init 0).1 = -1 := rfl
  refine ⟨Reaches.start rfl, used_zero, hret, fun ⟨a, _, ha⟩ => ?_⟩
  rw [hret] at ha
  omega

end MtEmu
