import Mathlib.Algebra.BigOperators.Fin
import Mathlib.Tactic.Ring

/-!
# MtEmu.Bare.Layout

Where the lists of a block-mode transfer should lie, and where 32-bit
arithmetic puts them, in numbers.

Block `j` has `c j` list descriptors.  The lists are packed one after the
other, each from the next multiple of 32 slots (1024 bytes) on: `listStart`.
The driver gets there by adding two counters, the slots used by earlier
blocks (`X j`) and the slots skipped for alignment (`skipped`), and both wrap
around; the slots it stores to (`slotNo`) and the slots it links to
(`linkNo`) wrap at different places.

`links_agree_iff` says when the two agree all the way: exactly when
`Fits` holds, that is when no sum that is used leaves its range.
-/

namespace MtEmu

open Finset

/-- The next multiple of 32 after `n`. -/
def up32 (n : Nat) : Nat := 32 * (n / 32 + 1)

/-- The list descriptors of the blocks before `j`. -/
def listsBefore (c : Nat → Nat) (j : Nat) : Nat := ∑ k ∈ range j, c k

/-- The first slot of block `j`'s list, every list being aligned. -/
def listStart (c : Nat → Nat) : Nat → Nat
  | 0 => 0
  | j + 1 => up32 (listStart c j + c j)

/-- The slot of descriptor `k` in a list counted from `x + o`, in 32 bits. -/
def slotNo (x o k : Nat) : Nat := (k + x + o) % 2 ^ 32

/-- The slot that follows descriptor `k`, as the link computes it: the two
counters are multiplied by the slot size apart, `offset*32` in 32 bits. -/
def linkNo (x o k : Nat) : Nat := (k + 1 + x) % 2 ^ 32 + o % 2 ^ 27

/-- The link of the last descriptor of block `j`, before it is aligned. -/
def lastLink (c X : Nat → Nat) (o j : Nat) : Nat :=
  if j = 0 then c 0 else linkNo (X j) o (c j - 1)

/-- The slots skipped before block `j`. -/
def skipped (c X : Nat → Nat) : Nat → Nat
  | 0 => 0
  | j + 1 => (skipped c X j + (32 - lastLink c X (skipped c X j) j % 32)) % 2 ^ 32

/-- The links of blocks `0` to `n - 1` lead to the slots used. -/
structure LinksAgree (c X : Nat → Nat) (n : Nat) : Prop where
  inside : ∀ j, 0 < j → j < n → ∀ k, k + 1 < c j →
    linkNo (X j) (skipped c X j) k = slotNo (X j) (skipped c X j) (k + 1)
  across : ∀ j, j + 1 < n →
    up32 (lastLink c X (skipped c X j) j) = slotNo (X (j + 1)) (skipped c X (j + 1)) 0

/-- Block `j` of `n` stays within the driver's arithmetic. -/
structure BlockFits (c X : Nat → Nat) (n j : Nat) : Prop where
  base : X j = listsBefore c j
  slots : listStart c j + c j ≤ 2 ^ 32
  skip : 2 ≤ c j ∨ j + 1 < n → listStart c j - listsBefore c j < 2 ^ 27

/-- Every block after the first stays within the driver's arithmetic. -/
def Fits (c X : Nat → Nat) (n : Nat) : Prop := ∀ j, 0 < j → j < n → BlockFits c X n j

/-- How the driver counts the slots of earlier blocks: their running total,
or the block number times the block's own count. -/
def Counters (c X : Nat → Nat) : Prop :=
  (∀ j, X j = listsBefore c j % 2 ^ 32) ∨ (∀ j, X j = j * c j % 2 ^ 32)

theorem Counters.zero {c X : Nat → Nat} (h : Counters c X) : X 0 = 0 := by
  rcases h with h | h
  · simp [h 0, listsBefore]
  · simp [h 0]

theorem Counters.lt {c X : Nat → Nat} (h : Counters c X) (j : Nat) : X j < 2 ^ 32 := by
  rcases h with h | h
  · rw [h j]; exact Nat.mod_lt _ (by decide)
  · rw [h j]; exact Nat.mod_lt _ (by decide)

/-! ## the intended layout -/

theorem lt_up32 (n : Nat) : n < up32 n := by unfold up32; omega

theorem up32_le (n : Nat) : up32 n ≤ n + 32 := by unfold up32; omega

theorem listsBefore_succ (c : Nat → Nat) (j : Nat) :
    listsBefore c (j + 1) = listsBefore c j + c j := sum_range_succ _ _

/-- Every list is preceded by a gap, and each block adds at most 32 slots. -/
theorem listStart_gap (c : Nat → Nat) (j : Nat) :
    listsBefore c j + j ≤ listStart c j ∧ listStart c j ≤ listsBefore c j + 32 * j := by
  induction j with
  | zero => exact ⟨Nat.zero_le _, Nat.zero_le _⟩
  | succ j ih =>
      have hlt := lt_up32 (listStart c j + c j)
      have hle := up32_le (listStart c j + c j)
      rw [listsBefore_succ, listStart]
      omega

/-- The start of a later list, from the start of the one before it. -/
theorem listStart_succ (c : Nat → Nat) (j : Nat) :
    listStart c (j + 1) = listStart c j + c j + (32 - (listStart c j + c j) % 32) := by
  rw [listStart, up32]
  omega

/-! ## from one block to the next -/

variable {c X : Nat → Nat} {n : Nat}

/-- The counters before block `j` are those of the intended layout. -/
structure OnTrack (c X : Nat → Nat) (j : Nat) : Prop where
  base : X j = listsBefore c j
  start : listStart c j < 2 ^ 32
  skip : skipped c X j = listStart c j - listsBefore c j

/-- The last link of a block on track that fits. -/
theorem lastLink_eq {j : Nat} (hj : 0 < j) (hc : 0 < c j) (h : OnTrack c X j)
    (hslots : listStart c j + c j ≤ 2 ^ 32) :
    lastLink c X (skipped c X j) j =
      listsBefore c j + c j + (listStart c j - listsBefore c j) % 2 ^ 27 := by
  have hgap := (listStart_gap c j).1
  rw [lastLink, if_neg hj.ne', linkNo, h.base, h.skip]
  omega

/-- The slots skipped before the next block. -/
theorem skipped_succ {j : Nat} (hc : 0 < j → 0 < c j) (h : OnTrack c X j)
    (hslots : listStart c j + c j ≤ 2 ^ 32) :
    skipped c X (j + 1) = (listStart c (j + 1) - listsBefore c (j + 1)) % 2 ^ 32 := by
  have hgap := (listStart_gap c j).1
  have hsucc := listStart_succ c j
  rw [skipped, listsBefore_succ]
  cases Nat.eq_zero_or_pos j with
  | inl h0 =>
      subst h0
      simp only [lastLink, if_true, skipped, listStart, listsBefore, range_zero, sum_empty] at hsucc ⊢
      omega
  | inr hj =>
      rw [lastLink_eq hj (hc hj) h hslots, h.skip]
      omega

theorem onTrack_zero (hX : X 0 = 0) : OnTrack c X 0 :=
  ⟨hX, by simp [listStart], rfl⟩

/-- A block that fits links to the start of the next list. -/
theorem up32_lastLink {j : Nat} (hc : 0 < j → 0 < c j) (h : OnTrack c X j)
    (hslots : listStart c j + c j ≤ 2 ^ 32) (hskip : listStart c j - listsBefore c j < 2 ^ 27) :
    up32 (lastLink c X (skipped c X j) j) = listStart c (j + 1) := by
  have hgap := (listStart_gap c j).1
  rw [listStart]
  cases Nat.eq_zero_or_pos j with
  | inl h0 =>
      subst h0
      simp [lastLink, listStart]
  | inr hj =>
      rw [lastLink_eq hj (hc hj) h hslots, Nat.mod_eq_of_lt hskip]
      congr 1
      omega

/-- The slots of a block on track that fits. -/
theorem slotNo_eq {j k : Nat} (h : OnTrack c X j) (hslots : listStart c j + c j ≤ 2 ^ 32)
    (hk : k < c j) : slotNo (X j) (skipped c X j) k = listStart c j + k := by
  have hgap := (listStart_gap c j).1
  rw [slotNo, h.base, h.skip]
  omega

/-! ## a layout that fits agrees -/

theorem onTrack_of_fits (hX : X 0 = 0) (hc : ∀ j, 0 < j → 0 < c j)
    (hfits : Fits c X n) (j : Nat) (hj : j < n) : OnTrack c X j := by
  induction j with
  | zero => exact onTrack_zero hX
  | succ j ih =>
      have hprev := ih (by omega)
      have hfit := hfits (j + 1) (Nat.succ_pos j) hj
      have hslots := hfit.slots
      have hpos := hc (j + 1) (Nat.succ_pos j)
      have hslots' : listStart c j + c j ≤ 2 ^ 32 := by
        rw [listStart_succ] at hslots
        omega
      refine ⟨hfit.base, by omega, ?_⟩
      rw [skipped_succ (hc j) hprev hslots', Nat.mod_eq_of_lt (by omega)]

/-- **Sufficiency**: in a layout that fits every link leads to the next slot. -/
theorem linksAgree_of_fits (hX : X 0 = 0) (hc : ∀ j, 0 < j → 0 < c j) (hc0 : c 0 < 2 ^ 32)
    (hfits : Fits c X n) : LinksAgree c X n := by
  have htrack := onTrack_of_fits hX hc hfits
  constructor
  · intro j hj hn k hk
    have hfit := hfits j hj hn
    have hslots := hfit.slots
    have hskip := hfit.skip (.inl (by omega))
    have hgap := (listStart_gap c j).1
    rw [linkNo, slotNo, (htrack j hn).base, (htrack j hn).skip]
    omega
  · intro j hn
    have hnext := htrack (j + 1) hn
    have hgap := (listStart_gap c (j + 1)).1
    have hlink : up32 (lastLink c X (skipped c X j) j) = listStart c (j + 1) := by
      cases Nat.eq_zero_or_pos j with
      | inl h0 =>
          subst h0
          exact up32_lastLink (hc 0) (htrack 0 (by omega)) (by simp [listStart]; omega)
            (by simp [listStart])
      | inr hj =>
          have hfit := hfits j hj (by omega)
          exact up32_lastLink (hc j) (htrack j (by omega)) hfit.slots (hfit.skip (.inr hn))
    have hstart := hnext.start
    rw [hlink, slotNo, hnext.base, hnext.skip]
    omega

/-! ## links that agree need a layout that fits -/

section Necessity

variable (hlinks : LinksAgree c X n)
include hlinks

/-- The slots of a list do not wrap: the link before the wrap would miss
slot 0. -/
theorem slots_of_links {j : Nat} (hj : 0 < j) (hn : j < n) (h : OnTrack c X j) :
    listStart c j + c j ≤ 2 ^ 32 := by
  by_contra hover
  have hgap := (listStart_gap c j).1
  have hstart := h.start
  have hwrap := hlinks.inside j hj hn (2 ^ 32 - listStart c j - 1) (by omega)
  rw [linkNo, slotNo, h.base, h.skip] at hwrap
  omega

/-- With two descriptors the skipped slots stay small: the first link of the
list would fall short. -/
theorem skip_of_inside {j : Nat} (hj : 0 < j) (hn : j < n) (h : OnTrack c X j) (htwo : 2 ≤ c j) :
    listStart c j - listsBefore c j < 2 ^ 27 := by
  have hgap := (listStart_gap c j).1
  have hslots := slots_of_links hlinks hj hn h
  have hfirst := hlinks.inside j hj hn 0 htwo
  rw [linkNo, slotNo, h.base, h.skip] at hfirst
  omega

/-- The next block is on track when this one is and its link agrees. -/
theorem onTrack_succ {j : Nat} (hcj : 0 < j → 0 < c j) (hn : j + 1 < n) (hX : X (j + 1) < 2 ^ 32)
    (h : OnTrack c X j) (hslots : listStart c j + c j ≤ 2 ^ 32)
    (hskip : listStart c j - listsBefore c j < 2 ^ 27) : OnTrack c X (j + 1) := by
  have hgap := (listStart_gap c (j + 1)).1
  have hacross := hlinks.across j hn
  rw [up32_lastLink hcj h hslots hskip, slotNo, skipped_succ hcj h hslots] at hacross
  refine ⟨by omega, by omega, ?_⟩
  rw [skipped_succ hcj h hslots]
  omega

/-- Before another block the skipped slots stay small even behind a single
descriptor: the link across would fall short, or, where `j * c j` happens to
make up for it, the first link of the next list would. -/
theorem skip_of_across {j : Nat} (hj : 0 < j) (hn : j + 1 < n) (hmax : n ≤ 2 ^ 32)
    (hX : Counters c X) (hpos : 0 < c (j + 1)) (h : OnTrack c X j) (hone : c j = 1) :
    listStart c j - listsBefore c j < 2 ^ 27 := by
  by_contra hover
  obtain ⟨hgap, hsmall⟩ := listStart_gap c j
  obtain ⟨hgap', hsmall'⟩ := listStart_gap c (j + 1)
  have hstart := h.start
  have hslots := slots_of_links hlinks hj (by omega) h
  have hskipped := skipped_succ (fun _ => by omega) h hslots
  have hlast := lastLink_eq hj (by omega) h hslots
  have hacross := hlinks.across j hn
  have hbefore := listsBefore_succ c j
  have hsucc := listStart_succ c j
  -- the counter of the next block is the intended one unless `j * c j` makes up for the skip
  have hnat : X (j + 1) ≠ listsBefore c (j + 1) % 2 ^ 32 := by
    intro hnext
    rw [hlast, slotNo, hskipped, hnext, up32] at hacross
    omega
  rcases hX with hX | hX
  · exact hnat (hX (j + 1))
  · have hbase := h.base
    rw [hX j, hone, Nat.mul_one] at hbase
    by_cases hnext : c (j + 1) = 1
    · apply hnat
      rw [hX (j + 1), hnext]
      omega
    · have hfirst := hlinks.inside (j + 1) (Nat.succ_pos j) hn 0 (by omega)
      rw [linkNo, slotNo, hskipped] at hfirst
      omega

end Necessity

/-- **Necessity**: when every link leads to the next slot, the layout fits. -/
theorem fits_of_linksAgree (hX : Counters c X) (hc : ∀ j, 0 < j → 0 < c j) (hc0 : c 0 < 2 ^ 32)
    (hmax : n ≤ 2 ^ 32) (hlinks : LinksAgree c X n) : Fits c X n := by
  have hfit : ∀ j, 0 < j → j < n → OnTrack c X j → BlockFits c X n j := by
    intro j hj hn h
    refine ⟨h.base, slots_of_links hlinks hj hn h, fun hcase => ?_⟩
    by_cases htwo : 2 ≤ c j
    · exact skip_of_inside hlinks hj hn h htwo
    · have hpos := hc j hj
      exact skip_of_across hlinks hj (by omega) hmax hX (hc (j + 1) (Nat.succ_pos j)) h (by omega)
  have htrack : ∀ j, j < n → OnTrack c X j := by
    intro j
    induction j with
    | zero => exact fun _ => onTrack_zero hX.zero
    | succ j ih =>
        intro hn
        have h := ih (by omega)
        cases Nat.eq_zero_or_pos j with
        | inl h0 =>
            subst h0
            exact onTrack_succ hlinks (hc 0) hn (hX.lt 1) h (by simp [listStart]; omega)
              (by simp [listStart])
        | inr hj =>
            have hf := hfit j hj (by omega) h
            exact onTrack_succ hlinks (hc j) hn (hX.lt _) h hf.slots (hf.skip (.inr hn))
  exact fun j hj hn => hfit j hj hn (htrack j hn)

/-- **Layout**: the links agree with the slots exactly when the layout fits. -/
theorem links_agree_iff (hX : Counters c X) (hc : ∀ j, 0 < j → 0 < c j) (hc0 : c 0 < 2 ^ 32)
    (hmax : n ≤ 2 ^ 32) : LinksAgree c X n ↔ Fits c X n :=
  ⟨fits_of_linksAgree hX hc hc0 hmax, linksAgree_of_fits hX.zero hc hc0⟩

/-! ## a layout within a window -/

/-- The slots skipped before block `j`, for `base j` slots used by earlier blocks,
when nothing wraps around. -/
def gapBefore (c base : Nat → Nat) : Nat → Nat
  | 0 => 0
  | j + 1 => gapBefore c base j + (32 - (base j + c j + gapBefore c base j) % 32)

/-- The list of block `j` ends within the window. -/
def EndsInWindow (c base : Nat → Nat) (j : Nat) : Prop :=
  base j + gapBefore c base j + c j ≤ 65536

theorem le_gapBefore (c base : Nat → Nat) (j : Nat) : j ≤ gapBefore c base j := by
  induction j with
  | zero => exact Nat.zero_le _
  | succ j ih =>
      rw [gapBefore]
      omega

theorem gapBefore_succ_le (c base : Nat → Nat) (j : Nat) :
    gapBefore c base (j + 1) ≤ gapBefore c base j + 32 := by
  rw [gapBefore]
  omega

section Window

variable {base : Nat → Nat} (hX : ∀ j, X j = base j % 2 ^ 32) (h0 : base 0 = 0)
  (hc : ∀ j, 0 < j → 0 < c j)
include hX h0 hc

/-- As long as the lists end within the window the skipped slots do not wrap. -/
theorem skipped_eq_gapBefore {j : Nat} (hends : ∀ i < j, EndsInWindow c base i) :
    skipped c X j = gapBefore c base j := by
  induction j with
  | zero => rfl
  | succ j ih =>
      have hskip := ih fun i hi => hends i (Nat.lt_succ_of_lt hi)
      have hend := hends j (Nat.lt_succ_self j)
      have hXj := hX j
      rw [EndsInWindow] at hend
      rw [skipped, gapBefore, hskip, lastLink]
      cases Nat.eq_zero_or_pos j with
      | inl hj =>
          subst hj
          rw [if_pos rfl, h0, gapBefore]
          omega
      | inr hj =>
          have hcj := hc j hj
          rw [if_neg hj.ne', linkNo]
          omega

/-- **Window**: the slots of the later lists lie within the window exactly when every
list ends there.  `hnext` keeps the arithmetic of a list from wrapping when the lists before
it end within the window. -/
theorem slots_inside_iff (hc0 : c 0 ≤ 65536)
    (hnext : ∀ j, j + 1 < n → (∀ i ≤ j, EndsInWindow c base i) → base (j + 1) + c (j + 1) ≤ 2 ^ 31) :
    (∀ j, 0 < j → j < n → ∀ k < c j, slotNo (X j) (skipped c X j) k < 65536) ↔
      ∀ j, 0 < j → j < n → EndsInWindow c base j := by
  have hfirst : EndsInWindow c base 0 := by
    rw [EndsInWindow, h0, gapBefore]
    omega
  constructor
  · intro hslots j
    induction j using Nat.strong_induction_on with
    | h j ih =>
        intro hj hn
        have hends : ∀ i < j, EndsInWindow c base i := by
          intro i hi
          cases Nat.eq_zero_or_pos i with
          | inl h => rw [h]; exact hfirst
          | inr h => exact ih i hi h (by omega)
        obtain ⟨i, rfl⟩ := Nat.exists_eq_succ_of_ne_zero hj.ne'
        have hcj := hc _ hj
        have hsum := hnext i hn fun i' hi' => hends i' (Nat.lt_succ_of_le hi')
        have hgap := gapBefore_succ_le c base i
        have hprev := hends i (Nat.lt_succ_self i)
        have hlast := hslots _ hj hn (c (i + 1) - 1) (Nat.sub_lt hcj Nat.one_pos)
        have hXj := hX (i + 1)
        rw [skipped_eq_gapBefore hX h0 hc hends, slotNo] at hlast
        rw [EndsInWindow] at hprev ⊢
        simp only [Nat.succ_eq_add_one] at *
        omega
  · intro hends j hj hn k hk
    have hbefore : ∀ i < j, EndsInWindow c base i := by
      intro i hi
      cases Nat.eq_zero_or_pos i with
      | inl h => rw [h]; exact hfirst
      | inr h => exact hends i h (by omega)
    have hend := hends j hj hn
    have hXj := hX j
    rw [EndsInWindow] at hend
    rw [skipped_eq_gapBefore hX h0 hc hbefore, slotNo]
    omega

end Window

end MtEmu
