import MtEmu.Engine.Outcome
import MtEmu.Lib.Ledger

/-!
# MtEmu.Engine.Balance

What `emu_dma_rw` acquires and what it gives back (`mt-emu-mtdma-test.c`).

`emuDmaRwLog` is `emu_dma_rw` with a log of the channel, the page array, the pinned pages,
the scatter table, its mapping and the semaphore; the labels at its end are one function
each, and every exit falls through those that follow its own.  No label puts a page, and a
list of which fewer entries were mapped leaves by `release_table`, behind the unmapping
(`holds_emuDmaRwLog`).
-/

namespace MtEmu

open Ledger

/-- What a call acquires. -/
inductive RwRes where
  | chan
  | dmaPages
  | page (k : Nat)
  | table
  | mapping
  | sem
  deriving DecidableEq

/-- A log of a call. -/
abbrev RwLog := List (Event RwRes)

namespace RwOutcome

/-! ## the call -/

/-- `release_channel`. -/
def releaseChannel (ret : Int) (log : RwLog) : Int × RwLog := (ret, log ++ [.release .chan])

/-- `release_page`. -/
def releasePage (ret : Int) (log : RwLog) : Int × RwLog :=
  releaseChannel ret (log ++ [.release .dmaPages])

/-- `release_table`. -/
def releaseTable (ret : Int) (log : RwLog) : Int × RwLog :=
  releasePage ret (log ++ [.release .table])

/-- `release_map`. -/
def releaseMap (ret : Int) (log : RwLog) : Int × RwLog :=
  releaseTable ret (log ++ [.release .mapping])

/-- `get_user_pages_fast` pins the first `n` pages. -/
def pinLog (n : Nat) : RwLog := (List.range n).map fun k => .acquire (.page k)

/-- A mapping that does not fail. -/
def mapLog (o : RwOutcome) : RwLog := if 0 < o.mapped then [.acquire .mapping] else []

/-- `emu_dma_rw`: what it returns, and its log. -/
def emuDmaRwLog (q : MtdmaRw) (o : RwOutcome) : Int × RwLog :=
  if o.chan = false then (-1, [])
  else
    let log : RwLog := [.acquire .chan]
    if o.kmalloc = false then releaseChannel (-12) log
    else
      let log := log ++ [.acquire .dmaPages] ++ pinLog o.pinned.toNat
      if BitVec.ofInt 64 o.pinned ≠ q.sgs then releasePage o.pinned log
      else if o.sgAllocTable ≠ 0 then releasePage o.sgAllocTable log
      else
        let log := log ++ [.acquire .table] ++ o.mapLog
        if BitVec.ofInt 64 o.mapped ≠ q.sgs then releaseTable o.mapped log
        else if o.sem = false then releaseMap (-512) log
        else
          -- the iterations acquire nothing of these
          releaseMap (o.forTest q.testCnt.toNat o.mapped) (log ++ [.acquire .sem, .release .sem])

/-- The log does not change what is returned. -/
theorem emuDmaRwLog_fst (q : MtdmaRw) (o : RwOutcome) : (emuDmaRwLog q o).1 = emuDmaRw q o := by
  unfold emuDmaRwLog emuDmaRw
  repeat' split
  all_goals rfl

/-- What the kernel's calls can return: `get_user_pages_fast` an error or a number of
pages, `sg_alloc_table` an error for an empty table, `dma_map_sg` a number of entries. -/
structure Possible (q : MtdmaRw) (o : RwOutcome) : Prop where
  pinned : -4095 ≤ o.pinned ∧ o.pinned ≤ q.sgs.toNat
  table : o.sgAllocTable = 0 → q.sgs ≠ 0
  mapped : 0 ≤ o.mapped ∧ o.mapped ≤ q.sgs.toNat

/-- The list is mapped in fewer entries than it has. -/
def MapsShort (q : MtdmaRw) (o : RwOutcome) : Prop :=
  o.Listed q ∧ 0 < o.mapped ∧ BitVec.ofInt 64 o.mapped ≠ q.sgs

/-- No page is pinned. -/
def PinsNothing (o : RwOutcome) : Prop := o.chan = true → o.kmalloc = true → o.pinned ≤ 0

/-- A resource is released as often as it is acquired. -/
def Settled (log : RwLog) (r : RwRes) : Prop := acquired r log = released r log

/-- A log is in order, from nothing held on, and leaves these resources held. -/
structure Holds (log : RwLog) (P : RwRes → Prop) : Prop where
  sound : Sound (fun _ _ => False) (fun _ => false) log
  held : ∀ r, after (fun _ => false) log r = true ↔ P r

/-- What is left: the pages that were pinned, and a mapping that is short. -/
def Left (q : MtdmaRw) (o : RwOutcome) (r : RwRes) : Prop :=
  (o.chan = true ∧ o.kmalloc = true ∧ ∃ k < o.pinned.toNat, r = .page k) ∨
    (o.MapsShort q ∧ r = .mapping)

/-! ## acquiring and releasing -/

section Holds

variable {log : RwLog} {P Q : RwRes → Prop}

theorem Holds.congr (h : Holds log P) (hPQ : ∀ r, P r ↔ Q r) : Holds log Q :=
  ⟨h.sound, fun r => (h.held r).trans (hPQ r)⟩

theorem holds_nil : Holds [] fun _ => False := ⟨trivial, fun _ => by simp⟩

theorem Holds.acquire {r : RwRes} (h : Holds log P) (hr : ¬ P r) :
    Holds (log ++ [.acquire r]) fun x => x = r ∨ P x where
  sound := h.sound.snoc ⟨Bool.eq_false_iff.mpr fun hh => hr ((h.held r).mp hh), fun _ => False.elim⟩
  held x := by
    rw [after_append, after_cons, after_nil, step, Function.update_apply]
    by_cases hx : x = r
    · simp [hx]
    · simp [hx, h.held]

theorem Holds.release {r : RwRes} (h : Holds log P) (hr : P r) :
    Holds (log ++ [.release r]) fun x => x ≠ r ∧ P x where
  sound := h.sound.snoc ⟨(h.held r).mpr hr, fun _ => False.elim⟩
  held x := by
    rw [after_append, after_cons, after_nil, step, Function.update_apply]
    by_cases hx : x = r
    · simp [hx]
    · simp [hx, h.held]

theorem pinLog_succ (n : Nat) : pinLog (n + 1) = pinLog n ++ [.acquire (.page n)] := by
  simp [pinLog, List.range_succ]

theorem Holds.pin (h : Holds log P) (hfree : ∀ k, ¬ P (.page k)) (n : Nat) :
    Holds (log ++ pinLog n) fun x => (∃ k < n, x = .page k) ∨ P x := by
  induction n with
  | zero => exact (List.append_nil log).symm ▸ h.congr fun r => by simp
  | succ n ih =>
      have hnext : ¬ ((∃ k < n, RwRes.page n = .page k) ∨ P (.page n)) := by
        rintro (⟨k, hk, heq⟩ | hp)
        · have : n = k := RwRes.page.inj heq
          omega
        · exact hfree n hp
      have hstep := ih.acquire hnext
      rw [List.append_assoc, ← pinLog_succ] at hstep
      refine hstep.congr fun r => ?_
      constructor
      · rintro (rfl | ⟨k, hk, rfl⟩ | hp)
        · exact .inl ⟨n, Nat.lt_succ_self n, rfl⟩
        · exact .inl ⟨k, Nat.lt_succ_of_lt hk, rfl⟩
        · exact .inr hp
      · rintro (⟨k, hk, rfl⟩ | hp)
        · rcases Nat.lt_succ_iff_lt_or_eq.mp hk with hlt | rfl
          · exact .inr (.inl ⟨k, hlt, rfl⟩)
          · exact .inl rfl
        · exact .inr (.inr hp)

theorem Holds.map (h : Holds log P) (hfree : ¬ P .mapping) (o : RwOutcome) :
    Holds (log ++ o.mapLog) fun x => (0 < o.mapped ∧ x = .mapping) ∨ P x := by
  unfold mapLog
  split
  · next hpos => exact (h.acquire hfree).congr fun r => by simp [hpos]
  · next hneg => exact (List.append_nil log).symm ▸ h.congr fun r => by simp [hneg]

/-! ## the labels -/

theorem Holds.releaseChannel (h : Holds log P) (hchan : P .chan) (ret : Int) :
    Holds (releaseChannel ret log).2 fun x => x ≠ .chan ∧ P x := h.release hchan

theorem Holds.releasePage (h : Holds log P) (hchan : P .chan) (hpages : P .dmaPages) (ret : Int) :
    Holds (releasePage ret log).2 fun x => x ≠ .chan ∧ x ≠ .dmaPages ∧ P x :=
  (h.release hpages).releaseChannel ⟨nofun, hchan⟩ ret

theorem Holds.releaseTable (h : Holds log P) (hchan : P .chan) (hpages : P .dmaPages)
    (htable : P .table) (ret : Int) :
    Holds (releaseTable ret log).2 fun x =>
      x ≠ .chan ∧ x ≠ .dmaPages ∧ x ≠ .table ∧ P x :=
  (h.release htable).releasePage ⟨nofun, hchan⟩ ⟨nofun, hpages⟩ ret

theorem Holds.releaseMap (h : Holds log P) (hchan : P .chan) (hpages : P .dmaPages)
    (htable : P .table) (hmap : P .mapping) (ret : Int) :
    Holds (releaseMap ret log).2 fun x =>
      x ≠ .chan ∧ x ≠ .dmaPages ∧ x ≠ .table ∧ x ≠ .mapping ∧ P x :=
  (h.release hmap).releaseTable ⟨nofun, hchan⟩ ⟨nofun, hpages⟩ ⟨nofun, htable⟩ ret

end Holds

/-! ## every exit -/

variable {q : MtdmaRw} {o : RwOutcome}

/-- An error or no page is not the number of pages of a table. -/
theorem Possible.pinned_pos (hposs : o.Possible q) (hlisted : o.Listed q) : 0 < o.pinned := by
  obtain ⟨-, -, hpinned, htable⟩ := hlisted
  have hne := hposs.table htable
  have hlow := hposs.pinned.1
  by_contra hle
  have hbound : q.sgs.toNat ≤ 0x10000000000000 := by
    have hsum := (q.offset + q.size + 4096#64 - 1#64).isLt
    simp only [MtdmaRw.sgs, MtdmaRw.pageSize, BitVec.ofNat_eq_ofNat, BitVec.toNat_udiv,
      BitVec.toNat_ofNat, Nat.reducePow, Nat.reduceMod] at hsum ⊢
    omega
  have htoNat := congrArg BitVec.toNat hpinned
  rw [BitVec.toNat_ofInt] at htoNat
  have hzero : q.sgs.toNat ≠ 0 := fun h => hne (BitVec.eq_of_toNat_eq h)
  omega

/-- An entry is mapped when as many are as there are in a table. -/
theorem Possible.mapped_pos (hposs : o.Possible q) (hlisted : o.Listed q)
    (hmapped : BitVec.ofInt 64 o.mapped = q.sgs) : 0 < o.mapped := by
  have hne := hposs.table hlisted.2.2.2
  have hlow := hposs.mapped.1
  by_contra hle
  have hzero : o.mapped = 0 := by omega
  exact hne (by rw [← hmapped, hzero]; rfl)

/-- **One call**: its log is in order, and at its end the pages that were pinned are held,
and a mapping that is short. -/
theorem holds_emuDmaRwLog (hposs : o.Possible q) : Holds (emuDmaRwLog q o).2 (o.Left q) := by
  unfold emuDmaRwLog
  by_cases hchan : o.chan = true
  swap
  · simpa [hchan] using holds_nil.congr fun r => by simp [Left, hchan, MapsShort, Listed]
  have h₁ : Holds [.acquire .chan] fun x => x = .chan ∨ False := holds_nil.acquire not_false
  rw [if_neg (by simp [hchan])]
  by_cases hkmalloc : o.kmalloc = true
  swap
  · rw [if_pos (by simpa using hkmalloc)]
    refine (h₁.releaseChannel (.inl rfl) _).congr fun r => ?_
    simp [Left, hkmalloc, MapsShort, Listed]
  have h₂ := (h₁.acquire (r := .dmaPages) (by simp)).pin (by simp) o.pinned.toNat
  rw [if_neg (by simp [hkmalloc])]
  by_cases hpinned : BitVec.ofInt 64 o.pinned = q.sgs
  swap
  · rw [if_pos hpinned]
    refine (h₂.releasePage (by simp) (by simp) _).congr fun r => ?_
    cases r <;> simp [Left, hchan, hkmalloc, hpinned, MapsShort, Listed]
  rw [if_neg (not_not.mpr hpinned)]
  by_cases htable : o.sgAllocTable = 0
  swap
  · rw [if_pos htable]
    refine (h₂.releasePage (by simp) (by simp) _).congr fun r => ?_
    cases r <;> simp [Left, hchan, hkmalloc, htable, MapsShort, Listed]
  have hlisted : o.Listed q := ⟨hchan, hkmalloc, hpinned, htable⟩
  have h₃ := (h₂.acquire (r := .table) (by simp)).map (by simp) o
  rw [if_neg (not_not.mpr htable)]
  by_cases hmapped : BitVec.ofInt 64 o.mapped = q.sgs
  swap
  · rw [if_pos hmapped]
    refine (h₃.releaseTable (by simp) (by simp) (by simp) _).congr fun r => ?_
    cases r <;> simp [Left, hchan, hkmalloc, hmapped, MapsShort, hlisted]
  have hpos := hposs.mapped_pos hlisted hmapped
  rw [if_neg (not_not.mpr hmapped)]
  by_cases hsem : o.sem = true
  swap
  · rw [if_pos (by simpa using hsem)]
    refine (h₃.releaseMap (by simp) (by simp) (by simp) (by simp [hpos]) _).congr fun r => ?_
    cases r <;> simp [Left, hchan, hkmalloc, hmapped, MapsShort]
  have h₄ := (h₃.acquire (r := .sem) (by simp)).release (r := .sem) (by simp)
  rw [if_neg (by simp [hsem])]
  rw [List.append_assoc _ [_] [_]] at h₄
  refine (h₄.releaseMap (by simp) (by simp) (by simp) (by simp [hpos]) _).congr fun r => ?_
  cases r <;> simp [Left, hchan, hkmalloc, hmapped, MapsShort]

/-! ## what is settled -/

/-- A resource is settled when it is not left. -/
theorem Holds.settled_iff {log : RwLog} {P : RwRes → Prop} (h : Holds log P) (r : RwRes) :
    Settled log r ↔ ¬ P r := by
  have hbal := h.sound.balance r
  rw [Bool.toNat_false, Nat.zero_add] at hbal
  rw [Settled, hbal, ← h.held r]
  cases after (fun _ => false) log r with
  | true => simp
  | false => simp

/-- **Balance of `emu_dma_rw`**: whatever its calls return, everything is released as
often as it was acquired exactly when no page was pinned; the mapping is, exactly when it is
not short; the channel, the page array, the table and the semaphore are always, and nothing
is released that is not held. -/
theorem rw_balanced_iff (hposs : o.Possible q) :
    ((∀ r, Settled (emuDmaRwLog q o).2 r) ↔ o.PinsNothing) ∧
      (Settled (emuDmaRwLog q o).2 .mapping ↔ ¬ o.MapsShort q) ∧
      (∀ r ∈ [RwRes.chan, .dmaPages, .table, .sem], Settled (emuDmaRwLog q o).2 r) ∧
      Sound (fun _ _ => False) (fun _ => false) (emuDmaRwLog q o).2 := by
  have hcall := holds_emuDmaRwLog hposs
  refine ⟨?_, ?_, fun r hr => ?_, hcall.sound⟩
  · simp only [hcall.settled_iff]
    constructor
    · intro h hchan hkmalloc
      by_contra hpos
      exact h (.page 0) (.inl ⟨hchan, hkmalloc, 0, by omega, rfl⟩)
    · rintro h r (⟨hchan, hkmalloc, k, hk, -⟩ | ⟨⟨hlisted, -, -⟩, -⟩)
      · have hle := h hchan hkmalloc
        omega
      · have hpos := hposs.pinned_pos hlisted
        have hle := h hlisted.1 hlisted.2.1
        omega
  · rw [hcall.settled_iff]
    simp [Left]
  · rw [hcall.settled_iff]
    simp only [List.mem_cons, List.not_mem_nil, or_false] at hr
    rcases hr with rfl | rfl | rfl | rfl <;> simp [Left]

/-- A request of which the page cannot be pinned. -/
theorem rw_balanced_iff_notPinned :
    let o : RwOutcome := { mappedOutcome [] with pinned := -14 }
    ((∀ r, Settled (emuDmaRwLog (onePage 1) o).2 r) ↔ o.PinsNothing) ∧
      (Settled (emuDmaRwLog (onePage 1) o).2 .mapping ↔ ¬ o.MapsShort (onePage 1)) ∧
      (∀ r ∈ [RwRes.chan, .dmaPages, .table, .sem], Settled (emuDmaRwLog (onePage 1) o).2 r) ∧
      Sound (fun _ _ => False) (fun _ => false) (emuDmaRwLog (onePage 1) o).2 :=
  rw_balanced_iff ⟨by decide, by decide, by decide⟩

/-- Two pages of which one entry is mapped, and a transfer in which nothing fails: the
pages stay pinned, and the mapping of the first stays as well. -/
theorem pages_never_put :
    Possible (onePage 1) (mappedOutcome []) ∧
      ¬ Settled (emuDmaRwLog (onePage 1) (mappedOutcome [])).2 (.page 0) ∧
      let two : MtdmaRw := { onePage 1 with size := 8192 }
      let short : RwOutcome := { mappedOutcome [] with pinned := 2 }
      Possible two short ∧ ¬ Settled (emuDmaRwLog two short).2 .mapping := by
  refine ⟨⟨by decide, by decide, by decide⟩, by unfold Settled; decide,
    ⟨by decide, by decide, by decide⟩, by unfold Settled; decide⟩

end RwOutcome

end MtEmu
