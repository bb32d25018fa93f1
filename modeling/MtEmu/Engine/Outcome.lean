import MtEmu.Engine.DmaRw

/-!
# MtEmu.Engine.Outcome

What `emu_dma_rw` returns for the outcomes of its sub-steps
(`mt-emu-mtdma-test.c`), and what `MT_IOCTL_MTDMA_RW` makes of it.

One variable, `ret`, holds a count of pages, a count of mapped entries, a
time that is left and an error code, and every label returns it as it is:

* `get_user_pages_fast` and `dma_map_sg` fail when they return another number
  than `sgs`, and this number, 0 for a list that could not be mapped, is
  returned;
* an iteration is counted as failed when `ret` is 0 after the wait, so a
  transfer that was not prepared or submitted is counted as done;
* only the last iteration is returned, and its wait may have been ended by an
  earlier one's transfer.

`truthful_iff` says for which outcomes the report is right all the same.
-/

namespace MtEmu

/-! ## outcomes -/

/-- What becomes of an iteration: the transfer is not prepared, not submitted,
not completed in time, or something completes its completion with `left`
jiffies left, its own transfer or, `late`, that of an earlier iteration. -/
inductive IterOutcome where
  | prepFails
  | submitFails (cookie : { c : Int // c < 0 })
  | timedOut
  | completed (left : { l : U64 // l ≠ 0 }) (late : Bool)

namespace IterOutcome

/-- The iteration's transfer was completed in time. -/
@[simp] def Done : IterOutcome → Prop
  | .completed _ late => late = false
  | _ => False

instance : (it : IterOutcome) → Decidable it.Done
  | .completed _ late => inferInstanceAs (Decidable (late = false))
  | .prepFails | .submitFails _ | .timedOut => .isFalse id

/-- The transfer was started and the wait returned 0, also as an `int`. -/
@[simp] def TakenForTimeout : IterOutcome → Prop
  | .timedOut => True
  | .completed left _ => left.1.setWidth 32 = 0
  | _ => False

instance : (it : IterOutcome) → Decidable it.TakenForTimeout
  | .timedOut => .isTrue trivial
  | .completed left _ => inferInstanceAs (Decidable (left.1.setWidth 32 = 0))
  | .prepFails | .submitFails _ => .isFalse id

/-- `mtdma_xfer`. -/
def mtdmaXfer : IterOutcome → Int
  | .prepFails => -1
  | .submitFails cookie => cookie
  | .timedOut | .completed _ _ => 0

/-- `wait_for_completion_timeout`, as an `int`. -/
def waitForCompletionTimeout : IterOutcome → Int
  | .completed left _ => (left.1.setWidth 32).toInt
  | _ => 0

/-- `ret` after an iteration. -/
def ret (it : IterOutcome) : Int :=
  let ret := it.mtdmaXfer
  let ret := if ret = 0 then it.waitForCompletionTimeout else ret
  if ret = 0 then -1 else 0

/-- An iteration that was not started is as good as one that was completed. -/
theorem ret_eq_zero_iff (it : IterOutcome) : it.ret = 0 ↔ ¬ it.TakenForTimeout := by
  cases it with
  | prepFails => simp [ret, mtdmaXfer]
  | submitFails cookie =>
      have hc : cookie.1 ≠ 0 := Int.ne_of_lt cookie.2
      simp [ret, mtdmaXfer, hc]
  | timedOut => simp [ret, mtdmaXfer, waitForCompletionTimeout]
  | completed left late =>
      have hl : (left.1.setWidth 32).toInt = 0 ↔ left.1.setWidth 32 = 0#32 := by
        rw [← BitVec.toInt_zero (w := 32), BitVec.toInt_inj]
      simp only [ret, mtdmaXfer, waitForCompletionTimeout, hl, TakenForTimeout, if_true]
      split <;> simp_all

end IterOutcome

/-- The outcomes of a call: whether there is a channel and memory for the page
array, the pages that were pinned, the result of `sg_alloc_table`, the entries
that were mapped, whether the semaphore was got, and the iterations. -/
structure RwOutcome where
  chan : Bool
  kmalloc : Bool
  pinned : Int
  sgAllocTable : Int
  mapped : Int
  sem : Bool
  iter : Nat → IterOutcome

/-! ## the call -/

/-- The loop, entered with `ret`. -/
def RwOutcome.forTest (o : RwOutcome) (testCnt : Nat) (ret : Int) : Int :=
  (List.range testCnt).foldl (fun _ i => (o.iter i).ret) ret

/-- `emu_dma_rw`. -/
def emuDmaRw (q : MtdmaRw) (o : RwOutcome) : Int :=
  if o.chan = false then -1
  else if o.kmalloc = false then -12
  else if BitVec.ofInt 64 o.pinned ≠ q.sgs then o.pinned
  else if o.sgAllocTable ≠ 0 then o.sgAllocTable
  else if BitVec.ofInt 64 o.mapped ≠ q.sgs then o.mapped
  else if o.sem = false then -512
  else o.forTest q.testCnt.toNat o.mapped

/-- The check of `MT_IOCTL_MTDMA_RW`: `size` is that of the request and of the
user's buffer. -/
def MtdmaRw.Fits (q : MtdmaRw) (size : U32) : Prop :=
  32 ≤ size ∧ size.setWidth 64 = 32 + q.size

instance (q : MtdmaRw) (size : U32) : Decidable (q.Fits size) := inferInstanceAs (Decidable (_ ∧ _))

/-- `MT_IOCTL_MTDMA_RW`: what it returns or leaves in `b0`. -/
def mtIoctlMtdmaRw (size : U32) (q : MtdmaRw) (o : RwOutcome) : Except Int (BitVec 8) :=
  if q.Fits size then .ok (if emuDmaRw q o ≠ 0 then 0 else 1) else .error (-14)

/-! ## what is reported -/

namespace RwOutcome

variable {q : MtdmaRw} {o : RwOutcome}

/-- The list is there, to be mapped. -/
def Listed (o : RwOutcome) (q : MtdmaRw) : Prop :=
  o.chan = true ∧ o.kmalloc = true ∧ BitVec.ofInt 64 o.pinned = q.sgs ∧ o.sgAllocTable = 0

instance : Decidable (o.Listed q) := inferInstanceAs (Decidable (_ ∧ _))

/-- The loop is reached. -/
def Reached (o : RwOutcome) (q : MtdmaRw) : Prop :=
  o.Listed q ∧ BitVec.ofInt 64 o.mapped = q.sgs ∧ o.sem = true

instance : Decidable (o.Reached q) := inferInstanceAs (Decidable (_ ∧ _))

/-- All iterations, at least one, were completed in time. -/
def AllDone (o : RwOutcome) (q : MtdmaRw) : Prop :=
  1 ≤ q.testCnt.toNat ∧ o.Reached q ∧ ∀ i < q.testCnt.toNat, (o.iter i).Done

instance : Decidable (o.AllDone q) := inferInstanceAs (Decidable (_ ∧ _ ∧ _))

/-- The call and the ioctl report success if and only if all iterations were
completed. -/
def Truthful (o : RwOutcome) (size : U32) (q : MtdmaRw) : Prop :=
  (emuDmaRw q o = 0 ↔ o.AllDone q) ∧ (mtIoctlMtdmaRw size q o = .ok 1 ↔ o.AllDone q)

/-- The outcomes that are reported as they are: neither the pages nor the
list fail with 0, and the last wait is one that timed out if and only if some
iteration was not completed. -/
structure Plain (o : RwOutcome) (q : MtdmaRw) : Prop where
  pinned : o.chan = true → o.kmalloc = true → o.pinned ≠ 0
  mapped : o.Listed q → o.mapped ≠ 0
  last : o.Reached q → 1 ≤ q.testCnt.toNat →
    ((o.iter (q.testCnt.toNat - 1)).TakenForTimeout ↔ ∃ i < q.testCnt.toNat, ¬ (o.iter i).Done)

/-- Only the last iteration is left. -/
theorem forTest_pos {n : Nat} (hn : 1 ≤ n) (ret : Int) :
    o.forTest n ret = (o.iter (n - 1)).ret := by
  obtain ⟨m, rfl⟩ : ∃ m, n = m + 1 := ⟨n - 1, by omega⟩
  simp [forTest, List.range_succ]

/-- A buffer of a request that passes the check has a page. -/
theorem sgs_ne_zero {size : U32} (hsize : 1 ≤ q.size) (hfits : q.Fits size) : q.sgs ≠ 0 := by
  obtain ⟨hmin, hfits⟩ := hfits
  have hoff : q.offset.toNat < 4096 := Nat.mod_lt _ (by decide)
  have hpos : 1 ≤ q.size.toNat := hsize
  have hle : q.size.toNat < 0x100000000 := by
    have hmin : 32 ≤ size.toNat := hmin
    have hfits := congrArg BitVec.toNat hfits
    simp only [BitVec.ofNat_eq_ofNat, BitVec.toNat_setWidth, BitVec.toNat_add, BitVec.toNat_ofNat]
      at hfits
    omega
  intro h
  have h := congrArg BitVec.toNat h
  simp only [MtdmaRw.sgs, MtdmaRw.pageSize, BitVec.ofNat_eq_ofNat, BitVec.toNat_udiv,
    BitVec.toNat_sub, BitVec.toNat_add, BitVec.toNat_ofNat, Nat.reducePow, Nat.reduceMod] at h
  omega

/-- Where a 0 comes from. -/
theorem emuDmaRw_eq_zero_iff (hsgs : q.sgs ≠ 0) :
    emuDmaRw q o = 0 ↔
      (o.chan = true ∧ o.kmalloc = true ∧ o.pinned = 0) ∨
      (o.Listed q ∧ o.mapped = 0) ∨
      (o.Reached q ∧ 1 ≤ q.testCnt.toNat ∧ ¬ (o.iter (q.testCnt.toNat - 1)).TakenForTimeout) := by
  have hzero : ∀ n : Int, BitVec.ofInt 64 n = q.sgs → n ≠ 0 := by
    rintro n hn rfl
    exact hsgs hn.symm
  unfold emuDmaRw Reached Listed
  by_cases hchan : o.chan = true
  swap
  · simp [hchan]
  by_cases hkmalloc : o.kmalloc = true
  swap
  · simp [hchan, hkmalloc]
  by_cases hpinned : BitVec.ofInt 64 o.pinned = q.sgs
  swap
  · simp [hchan, hkmalloc, hpinned]
  have hpos := hzero _ hpinned
  by_cases htable : o.sgAllocTable = 0
  swap
  · simp [hchan, hkmalloc, hpinned, htable, hpos]
  by_cases hmapped : BitVec.ofInt 64 o.mapped = q.sgs
  swap
  · simp [hchan, hkmalloc, hpinned, htable, hpos, hmapped]
  have hpos' := hzero _ hmapped
  by_cases hsem : o.sem = true
  swap
  · simp [hchan, hkmalloc, hpinned, htable, hpos, hmapped, hpos', hsem]
  simp only [hchan, hkmalloc, hpinned, htable, hpos, hmapped, hpos', hsem]
  by_cases hn : 1 ≤ q.testCnt.toNat
  · simp [forTest_pos hn, IterOutcome.ret_eq_zero_iff, hn]
  · have hn0 : q.testCnt.toNat = 0 := by omega
    simp [hn0, forTest, hpos']

/-- The call reports what happened for plain outcomes only. -/
theorem emuDmaRw_truthful_iff (hsgs : q.sgs ≠ 0) :
    (emuDmaRw q o = 0 ↔ o.AllDone q) ↔ o.Plain q := by
  rw [emuDmaRw_eq_zero_iff hsgs]
  have hzero : ∀ n : Int, BitVec.ofInt 64 n = q.sgs → n ≠ 0 := by
    rintro n hn rfl
    exact hsgs hn.symm
  constructor
  · intro h
    constructor
    · intro hchan hkmalloc hpinned
      obtain ⟨_, hreached, _⟩ := h.mp (.inl ⟨hchan, hkmalloc, hpinned⟩)
      exact hzero _ hreached.1.2.2.1 hpinned
    · intro hlisted hmapped
      obtain ⟨_, hreached, _⟩ := h.mp (.inr (.inl ⟨hlisted, hmapped⟩))
      exact hzero _ hreached.2.1 hmapped
    · intro hreached hn
      have hpinned := hzero _ hreached.1.2.2.1
      have hmapped := hzero _ hreached.2.1
      simp only [hpinned, hmapped, hreached, hn, AllDone, and_false, true_and, false_or] at h
      rw [← not_iff_not, h]
      simp
  · intro h
    constructor
    · rintro (⟨hchan, hkmalloc, hpinned⟩ | ⟨hlisted, hmapped⟩ | ⟨hreached, hn, htaken⟩)
      · exact absurd hpinned (h.pinned hchan hkmalloc)
      · exact absurd hmapped (h.mapped hlisted)
      · refine ⟨hn, hreached, fun i hi => ?_⟩
        by_contra hdone
        exact htaken ((h.last hreached hn).mpr ⟨i, hi, hdone⟩)
    · rintro ⟨hn, hreached, hdone⟩
      refine .inr (.inr ⟨hreached, hn, fun htaken => ?_⟩)
      obtain ⟨i, hi, hnot⟩ := (h.last hreached hn).mp htaken
      exact hnot (hdone i hi)

end RwOutcome

/-- The ioctl passes on what the call returns. -/
theorem mtIoctlMtdmaRw_ok_iff {size : U32} {q : MtdmaRw} {o : RwOutcome} (hfits : q.Fits size) :
    mtIoctlMtdmaRw size q o = .ok 1 ↔ emuDmaRw q o = 0 := by
  unfold mtIoctlMtdmaRw
  rw [if_pos hfits]
  by_cases hret : emuDmaRw q o = 0
  · simp [hret]
  · simp [hret]

/-- **What `emu_dma_rw` reports**: for a request that passes the check of the
ioctl, it reports the outcomes truthfully if and only if they are plain. -/
theorem truthful_iff (size : U32) (q : MtdmaRw) (o : RwOutcome) (hsize : 1 ≤ q.size)
    (hfits : q.Fits size) : o.Truthful size q ↔ o.Plain q := by
  rw [← RwOutcome.emuDmaRw_truthful_iff (RwOutcome.sgs_ne_zero hsize hfits)]
  unfold RwOutcome.Truthful
  rw [mtIoctlMtdmaRw_ok_iff hfits, and_self]

/-- A request for one page to the device, `testCnt` times. -/
def onePage (testCnt : U32) : MtdmaRw := ⟨0x1000, 4096, testCnt, 0, 1, 0x7000⟩

/-- The list is mapped and the iterations go as `its` says, then well. -/
def mappedOutcome (its : List IterOutcome) : RwOutcome :=
  ⟨true, true, 1, 0, 1, true, fun i => its.getD i (.completed ⟨100, by decide⟩ false)⟩

theorem truthful_iff_onePage : (mappedOutcome []).Truthful 4128 (onePage 3) ↔
    (mappedOutcome []).Plain (onePage 3) :=
  truthful_iff _ _ _ (by decide) (by decide)

/-- Three ways in which nothing, or not all, was done and success is reported:
the list could not be mapped, the only transfer was not prepared, and the
first of two timed out and ends the wait of the second. -/
theorem failures_reported_ok :
    ¬ RwOutcome.Truthful { mappedOutcome [] with mapped := 0 } 4128 (onePage 1) ∧
      ¬ (mappedOutcome [.prepFails]).Truthful 4128 (onePage 1) ∧
      ¬ (mappedOutcome [.timedOut, .completed ⟨7, by decide⟩ true]).Truthful 4128 (onePage 2) := by
  unfold RwOutcome.Truthful
  decide

end MtEmu
