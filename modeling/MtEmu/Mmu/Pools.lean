import MtEmu.Lib.Ranges
import MtEmu.Mmu.Translate

/-!
# MtEmu.Mmu.Pools

The two pools of `mmu_init_pagetable.c` when pages differ in size.

`gen_va_pool` and `gen_pa_pool` read a size for every page.  The first never uses it: its
`switch` is over a local that nothing assigns.  The second carves the data pages out of the
16 GiB in front of the page catalogues, without a check.  Both conditions are exact
(`va_pool_disjoint_iff`, `pa_pool_disjoint_iff`).
-/

namespace MtEmu

open Ranges

/-! ## the header -/

/-- `MMU_MAX_VA_POOL_NUM`. -/
def mmuMaxVaPoolNum : Nat := 0x4000

/-- The 4 KiB pages in a page. -/
def PageSize.pages : PageSize → Nat
  | .k4 => 1
  | .k8 => 2
  | .k16 => 4
  | .k64 => 16
  | .k256 => 64
  | .m2 => 512
  | .m32 => 8192
  | .m512 => 131072

theorem PageSize.pages_pos (ps : PageSize) : 0 < ps.pages := by
  cases ps <;> decide

theorem PageSize.pages_le (ps : PageSize) : ps.pages ≤ 131072 := by
  cases ps <;> decide

/-- The `switch` knows every size. -/
theorem toNat_poolStep_val (ps : PageSize) : (poolStep ps.val.toNat).toNat = ps.pages := by
  cases ps <;> rfl

theorem toNat_poolStep_bounds (k : Nat) :
    0 < (poolStep k).toNat ∧ (poolStep k).toNat ≤ 131072 := by
  unfold poolStep
  split <;> decide

/-! ## `gen_va_pool` -/

/-- The pages of the pool are in order and do not overlap, `sizes j` being
`va_page_size[i][j]`. -/
structure VaPoolDisjoint (junk : Nat → Nat → U64) (sizes : Nat → PageSize) (i : Nat) : Prop where
  increasing : ∀ j k, j < k → k < mmuMaxVaPoolNum → vaPool junk i j < vaPool junk i k
  disjoint : ∀ j < mmuMaxVaPoolNum, ∀ k < mmuMaxVaPoolNum, j ≠ k →
    Disjoint (Set.Ico (vaPool junk i j).toNat ((vaPool junk i j).toNat + (sizes j).pages))
      (Set.Ico (vaPool junk i k).toNat ((vaPool junk i k).toNat + (sizes k).pages))

/-- What `temp_addr` is advanced by in round `j`. -/
def vaStep (junk : Nat → Nat → U64) (i j : Nat) : Nat := (poolStep (junk i j).toNat).toNat

/-- A running address of at most `mmuMaxVaPoolNum` steps does not wrap. -/
theorem start_lt {base : Nat} {step : Nat → Nat} (hbase : base ≤ 0x400000)
    (hstep : ∀ k, step k ≤ 131072) {j : Nat} (hj : j ≤ mmuMaxVaPoolNum) :
    start base step j < 0x100000000 := by
  have hsum : ∑ k ∈ Finset.range j, step k ≤ j * 131072 := by
    have := Finset.sum_le_card_nsmul (Finset.range j) step 131072 fun k _ => hstep k
    rwa [Finset.card_range, smul_eq_mul] at this
  have hmul : j * 131072 ≤ 0x4000 * 131072 := Nat.mul_le_mul_right _ hj
  rw [start]
  omega

theorem toNat_vaPool (junk : Nat → Nat → U64) (i : Nat) {j : Nat} (hj : j ≤ mmuMaxVaPoolNum) :
    (vaPool junk i j).toNat = start 0 (vaStep junk i) j := by
  induction j with
  | zero => rw [start_zero]; rfl
  | succ j ih =>
      have hlt := start_lt (Nat.zero_le _) (fun k => (toNat_poolStep_bounds (junk i k).toNat).2) hj
      rw [vaPool, BitVec.toNat_add, ih (Nat.le_of_succ_le hj), start_succ]
      rw [start_succ] at hlt
      exact Nat.mod_eq_of_lt (hlt.trans (by decide))

/-- **Virtual pool**: its pages are disjoint exactly when every page but the last fits in the
step that the uninitialised local selects. -/
theorem va_pool_disjoint_iff (junk : Nat → Nat → U64) (sizes : Nat → PageSize) (i : Nat) :
    VaPoolDisjoint junk sizes i ↔ ∀ j, j + 1 < mmuMaxVaPoolNum →
      (sizes j).pages ≤ (poolStep (junk i j).toNat).toNat := by
  have hstep : ∀ k, 0 < vaStep junk i k := fun k => (toNat_poolStep_bounds _).1
  have hiff := disjoint_ranges_iff 0 hstep (fun k => (sizes k).pages_pos) mmuMaxVaPoolNum
  have heq {j : Nat} (hj : j < mmuMaxVaPoolNum) :
      Set.Ico (vaPool junk i j).toNat ((vaPool junk i j).toNat + (sizes j).pages) =
        range 0 (vaStep junk i) (fun k => (sizes k).pages) j := by
    rw [range, toNat_vaPool junk i hj.le]
  constructor
  · intro h
    refine hiff.mp fun j hj k hk hne => ?_
    rw [← heq hj, ← heq hk]
    exact h.disjoint j hj k hk hne
  · intro h
    refine ⟨fun j k hjk hk => ?_, fun j hj k hk hne => ?_⟩
    · rw [BitVec.lt_def, toNat_vaPool junk i (hjk.trans hk).le, toNat_vaPool junk i hk.le]
      exact start_strictMono 0 hstep hjk
    · rw [heq hj, heq hk]
      exact hiff.mpr h j hj k hk hne

/-- A local that holds 0, and pages of 8 KiB: the first two overlap. -/
theorem va_pool_overlap : ¬VaPoolDisjoint (fun _ _ => 0) (fun _ => .k8) 0 := by
  intro h
  have hfirst := h.disjoint 0 (by decide) 1 (by decide) (by decide)
  exact Set.disjoint_left.mp hfirst (show 0 ≤ 1 ∧ 1 < 2 by decide) (show 1 ≤ 1 ∧ 1 < 3 by decide)

/-! ## `gen_pa_pool` -/

/-- `pa_temp_addr` when `j / 4` is reached, `sizes d` being `va_page_size[i][d]`. -/
def paTempAddrOf (sizes : Nat → PageSize) : Nat → U64
  | 0 => mmuPaBaseAddr >>> 12
  | d + 1 => paTempAddrOf sizes d + poolStep (sizes d).val.toNat

/-- `gen_pa_pool`. -/
def paPoolOf (sizes : Nat → PageSize) (i j : Nat) : U64 :=
  if j % 4 = 0 then (mmuPrBaseAddr >>> 12) + ctxtStride i + BitVec.ofNat 64 j
  else if j % 4 = 1 then (mmuPdBaseAddr >>> 12) + ctxtStride i + BitVec.ofNat 64 j
  else if j % 4 = 2 then (mmuPtBaseAddr >>> 12) + ctxtStride i + BitVec.ofNat 64 j
  else paTempAddrOf sizes (j / 4)

/-- With one size for all pages it is the pool of `mmu_init_pagetable`. -/
theorem paPoolOf_const (ps : PageSize) (i j : Nat) :
    paPoolOf (fun _ => ps) i j = paPool ps i j := by
  have htemp (d : Nat) : paTempAddrOf (fun _ => ps) d = paTempAddr ps d := by
    induction d with
    | zero => rfl
    | succ d ih => rw [paTempAddrOf, paTempAddr, ih]
  rw [paPoolOf, paPool, htemp]

/-- The table pages do not depend on the sizes. -/
theorem paPoolOf_table (sizes : Nat → PageSize) (ps : PageSize) (i : Nat) {j : Nat}
    (hj : j % 4 ≠ 3) : paPoolOf sizes i j = paPool ps i j := by
  have hlt := Nat.mod_lt j (show 0 < 4 by decide)
  unfold paPoolOf paPool
  split
  · rfl
  split
  · rfl
  split
  · rfl
  · omega

theorem paPoolOf_page (sizes : Nat → PageSize) (i d : Nat) :
    paPoolOf sizes i (4 * d + 3) = paTempAddrOf sizes d := by
  rw [paPoolOf, if_neg (by omega), if_neg (by omega), if_neg (by omega)]
  congr 1
  omega

theorem toNat_paTempAddrOf (sizes : Nat → PageSize) {d : Nat} (hd : d ≤ mmuMaxVaPoolNum) :
    (paTempAddrOf sizes d).toNat = start 0x400000 (fun k => (sizes k).pages) d := by
  induction d with
  | zero => rw [start_zero]; rfl
  | succ d ih =>
      have hlt := start_lt (Nat.le_refl _) (fun k => (sizes k).pages_le) hd
      rw [paTempAddrOf, BitVec.toNat_add, ih (Nat.le_of_succ_le hd), toNat_poolStep_val, start_succ]
      rw [start_succ] at hlt
      exact Nat.mod_eq_of_lt (hlt.trans (by decide))

/-- What `gen_pa_pool` assigns in a context, and the page catalogue beside it: the data of
page `d`, and the table of a level that comes with it. -/
inductive PoolItem where
  | page (d : Nat)
  | table (l : TableLevel) (d : Nat)
  deriving DecidableEq

namespace PoolItem

/-- It belongs to the pool; there is one page catalogue. -/
def InPool : PoolItem → Prop
  | page d => d < mmuMaxVaPoolNum
  | table l d => d < mmuMaxVaPoolNum ∧ (l = .pc → d = 0)

/-- Its page number. -/
def first (sizes : Nat → PageSize) (ctxtId : BitVec 8) : PoolItem → U64
  | page d => paPoolOf sizes ctxtId.toNat (4 * d + 3)
  | table .pc _ => (mmuPcBaseAddr >>> 12) + ctxtId.zeroExtend 64
  | table .pr d => paPoolOf sizes ctxtId.toNat (4 * d)
  | table .pd d => paPoolOf sizes ctxtId.toNat (4 * d + 1)
  | table .pt d => paPoolOf sizes ctxtId.toNat (4 * d + 2)

/-- How many pages it takes. -/
def pages (sizes : Nat → PageSize) : PoolItem → Nat
  | page d => (sizes d).pages
  | table _ _ => 1

/-- Its page numbers. -/
def extent (sizes : Nat → PageSize) (ctxtId : BitVec 8) (x : PoolItem) : Set Nat :=
  Set.Ico (x.first sizes ctxtId).toNat ((x.first sizes ctxtId).toNat + x.pages sizes)

end PoolItem

/-- No two items of the pool of a context overlap. -/
def PaPoolDisjoint (sizes : Nat → PageSize) (ctxtId : BitVec 8) : Prop :=
  ∀ x y : PoolItem, x.InPool → y.InPool → x ≠ y →
    Disjoint (x.extent sizes ctxtId) (y.extent sizes ctxtId)

section Extents

variable (sizes : Nat → PageSize) (ctxtId : BitVec 8) {d d' : Nat} {l l' : TableLevel}

theorem extent_page (hd : d < mmuMaxVaPoolNum) :
    (PoolItem.page d).extent sizes ctxtId =
      range 0x400000 (fun k => (sizes k).pages) (fun k => (sizes k).pages) d := by
  rw [PoolItem.extent, PoolItem.first, paPoolOf_page, toNat_paTempAddrOf sizes hd.le]
  rfl

theorem first_table (l : TableLevel) (d : Nat) :
    (PoolItem.table l d).first sizes ctxtId = BitVec.ofNat 64 (frame ctxtId.toNat d l) := by
  have hc : ctxtId.toNat < 256 := ctxtId.isLt
  cases l with
  | pc => exact pcBase_eq ctxtId
  | pr =>
      rw [PoolItem.first, paPoolOf_table sizes .k4 _ (by omega), Nat.mul_comm]
      exact paPool_pr .k4 d hc
  | pd =>
      rw [PoolItem.first, paPoolOf_table sizes .k4 _ (by omega), Nat.mul_comm]
      exact paPool_pd .k4 d hc
  | pt =>
      rw [PoolItem.first, paPoolOf_table sizes .k4 _ (by omega), Nat.mul_comm]
      exact paPool_pt .k4 d hc

theorem extent_table (l : TableLevel) (hd : d < mmuMaxVaPoolNum) :
    (PoolItem.table l d).extent sizes ctxtId =
      Set.Ico (frame ctxtId.toNat d l) (frame ctxtId.toNat d l + 1) := by
  have hc : ctxtId.toNat < 256 := ctxtId.isLt
  have hlt : frame ctxtId.toNat d l < 2 ^ 64 := by
    rw [mmuMaxVaPoolNum] at hd
    cases l <;> simp only [frame] <;> omega
  rw [PoolItem.extent, first_table, BitVec.toNat_ofNat, Nat.mod_eq_of_lt hlt]
  rfl

/-- The tables of a context have different frames. -/
theorem frame_inj {c : Nat} (h : frame c d l = frame c d' l') : l = l' ∧ (l = .pc ∨ d = d') := by
  have hc : c ≤ c * 0x80000 := Nat.le_mul_of_pos_right c (by decide)
  constructor <;> cases l <;> cases l' <;> simp only [frame] at h <;>
    generalize c * 0x80000 = m at h hc <;> simp <;> omega

/-- The page catalogue is the first of them. -/
theorem frame_pc_le (c d : Nat) (l : TableLevel) : frame c 0 .pc ≤ frame c d l := by
  have hc : c ≤ c * 0x80000 := Nat.le_mul_of_pos_right c (by decide)
  cases l <;> simp only [frame] <;> omega

/-- The data pages keep clear of a table exactly when they end in front of it. -/
theorem pages_avoid_iff (l : TableLevel) (hd : d < mmuMaxVaPoolNum) :
    (∀ k < mmuMaxVaPoolNum, Disjoint ((PoolItem.page k).extent sizes ctxtId)
        ((PoolItem.table l d).extent sizes ctxtId)) ↔
      start 0x400000 (fun k => (sizes k).pages) mmuMaxVaPoolNum ≤ frame ctxtId.toNat d l := by
  have hbase : 0x400000 ≤ frame ctxtId.toNat d l :=
    (show 0x400000 ≤ 0x800000 + ctxtId.toNat by omega).trans (frame_pc_le ctxtId.toNat d l)
  rw [← avoids_iff (fun k => (sizes k).pages_pos) Nat.one_pos hbase, extent_table sizes ctxtId l hd]
  exact forall₂_congr fun k hk => by rw [extent_page sizes ctxtId hk]

end Extents

/-- **Physical pool**: nothing in it overlaps exactly when the data pages together fit in
front of the page catalogue of the context. -/
theorem pa_pool_disjoint_iff (sizes : Nat → PageSize) (ctxtId : BitVec 8) :
    PaPoolDisjoint sizes ctxtId ↔
      ∑ d ∈ Finset.range mmuMaxVaPoolNum, (sizes d).pages ≤ 0x400000 + ctxtId.toNat := by
  have hfit : start 0x400000 (fun k => (sizes k).pages) mmuMaxVaPoolNum ≤
      frame ctxtId.toNat 0 .pc ↔
        ∑ d ∈ Finset.range mmuMaxVaPoolNum, (sizes d).pages ≤ 0x400000 + ctxtId.toNat := by
    rw [start, frame]
    omega
  rw [← hfit]
  constructor
  · intro h
    refine (pages_avoid_iff sizes ctxtId .pc (by decide)).mp fun k hk => ?_
    exact h (.page k) (.table .pc 0) hk ⟨by decide, fun _ => rfl⟩ (by simp)
  · intro h
    have hpage {k d : Nat} (l : TableLevel) (hk : k < mmuMaxVaPoolNum) (hd : d < mmuMaxVaPoolNum) :
        Disjoint ((PoolItem.page k).extent sizes ctxtId)
          ((PoolItem.table l d).extent sizes ctxtId) :=
      (pages_avoid_iff sizes ctxtId l hd).mpr (h.trans (frame_pc_le _ d l)) k hk
    rintro (d | ⟨l, d⟩) (d' | ⟨l', d'⟩) hx hy hne
    · rw [extent_page sizes ctxtId hx, extent_page sizes ctxtId hy]
      have hpos : ∀ k, 0 < (sizes k).pages := fun k => (sizes k).pages_pos
      exact (disjoint_ranges_iff _ hpos hpos mmuMaxVaPoolNum).mpr (fun _ _ => Nat.le_refl _) d hx
        d' hy fun heq => hne (by rw [heq])
    · exact hpage l' hx hy.1
    · exact (hpage l hy hx.1).symm
    · rw [extent_table sizes ctxtId l hx.1, extent_table sizes ctxtId l' hy.1,
        disjoint_Ico_add Nat.one_pos Nat.one_pos]
      have hframe : frame ctxtId.toNat d l ≠ frame ctxtId.toNat d' l' := fun heq => by
        obtain ⟨rfl, hd⟩ := frame_inj heq
        refine hne ?_
        obtain rfl | rfl := hd
        · rw [hx.2 rfl, hy.2 rfl]
        · rfl
      omega

/-- Pages of 512 MiB: the data of page 32 lie over the page catalogue. -/
theorem pa_pool_overlap : ¬PaPoolDisjoint (fun _ => .m512) 0 := by
  intro h
  have hpage := h (.page 32) (.table .pc 0) (show 32 < 0x4000 by decide)
    ⟨by decide, fun _ => rfl⟩ (by simp)
  have hfirst : ((PoolItem.page 32).first (fun _ => .m512) 0).toNat = 0x800000 := by decide
  have hroot : ((PoolItem.table .pc 0).first (fun _ => .m512) 0).toNat = 0x800000 := by decide
  rw [PoolItem.extent, PoolItem.extent, hfirst, hroot,
    disjoint_Ico_add (by decide) (by decide)] at hpage
  exact absurd hpage (by decide)

end MtEmu
