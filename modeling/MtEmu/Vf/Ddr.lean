import MtEmu.Bare.Desc
import Mathlib.Order.CompletePartialOrder
import Mathlib.Order.Interval.Set.Disjoint

/-!
# MtEmu.Vf.Ddr

The device memory of the virtual functions: `LADDR_VGPU` (`mt-emu-drv.h`), by which
`iatu_init` maps it, and `pcief_vf_base_addr` of the user library.

The driver puts the windows at the top of the free memory, but at 0 when there are
`VF_NUM_MAX` of them; the library always puts them at the top.  All is unsigned 64-bit
arithmetic on gigabytes, so every address is a gigabyte number (`gigabytes`).
-/

namespace MtEmu

/-! ## the two layouts -/

/-- `VF_NUM_MAX`. -/
def vfNumMax : Nat := 60

/-- `DDR_SZ`, for the build option `DDR_SZ_GB`. -/
def ddrSz (ddrSzGb : Nat) : U64 := 0x40000000 * BitVec.ofNat 64 ddrSzGb

/-- `DDR_SZ_RESV`. -/
def ddrSzResv : U64 := 0x0040000000

/-- `DDR_SZ_FREE`. -/
def ddrSzFree (ddrSzGb : Nat) : U64 := ddrSz ddrSzGb - ddrSzResv

/-- `SIZE_VGPU_DDR`. -/
def sizeVgpuDdr : U64 := 0x40000000

/-- `LADDR_VGPU_BASE`, for the build option `VF_NUM`. -/
def laddrVgpuBase (ddrSzGb vfNum : Nat) : U64 :=
  if vfNumMax = vfNum then 0
  else ddrSz ddrSzGb - ddrSzResv - sizeVgpuDdr * BitVec.ofNat 64 vfNum

/-- `LADDR_VGPU`. -/
def laddrVgpu (ddrSzGb vfNum vf : Nat) : U64 :=
  laddrVgpuBase ddrSzGb vfNum + sizeVgpuDdr * BitVec.ofNat 64 vf

/-- `pcief_vf_base_addr`; `vfNum` is what `pcief_get_vf__num` returns. -/
def pciefVfBaseAddr (ddrSzGb : Nat) (vfNum vf : Int) : U64 :=
  if vfNum > 0 then
    ddrSz ddrSzGb - ddrSzResv - sizeVgpuDdr * BitVec.ofInt 64 vfNum +
      sizeVgpuDdr * BitVec.ofInt 64 vf
  else 0

/-- The window the driver maps for a virtual function. -/
def vgpuWindow (ddrSzGb vfNum vf : Nat) : Set Nat :=
  Set.Ico (laddrVgpu ddrSzGb vfNum vf).toNat
    ((laddrVgpu ddrSzGb vfNum vf).toNat + sizeVgpuDdr.toNat)

/-- The windows lie in the free memory and apart, and the library computes their bases. -/
structure VfLayoutAgrees (ddrSzGb vfNum : Nat) : Prop where
  inside : ∀ vf < vfNum, vgpuWindow ddrSzGb vfNum vf ⊆ Set.Ico 0 (ddrSzFree ddrSzGb).toNat
  apart : ∀ vf < vfNum, ∀ vf' < vfNum, vf ≠ vf' →
    Disjoint (vgpuWindow ddrSzGb vfNum vf) (vgpuWindow ddrSzGb vfNum vf')
  base : ∀ vf < vfNum, pciefVfBaseAddr ddrSzGb vfNum vf = laddrVgpu ddrSzGb vfNum vf

/-! ## in gigabytes -/

/-- An address of `k` gigabytes. -/
def gigabytes (k : Nat) : U64 := 0x40000000 * BitVec.ofNat 64 k

/-- Addresses wrap around at 2^34 gigabytes. -/
@[simp] theorem toNat_gigabytes (k : Nat) :
    (gigabytes k).toNat = 0x40000000 * (k % 0x400000000) := by
  rw [gigabytes]
  bv_omega

theorem gigabytes_inj {k l : Nat} :
    gigabytes k = gigabytes l ↔ k % 0x400000000 = l % 0x400000000 := by
  rw [← BitVec.toNat_inj, toNat_gigabytes, toNat_gigabytes]
  omega

/-- The free memory in gigabytes: what `DDR_SZ_GB` gives but one, modulo 2^34. -/
def ddrFreeGb (ddrSzGb : Nat) : Nat := (ddrSzGb + 0x3ffffffff) % 0x400000000

theorem ddrSzFree_eq (ddrSzGb : Nat) : ddrSzFree ddrSzGb = gigabytes (ddrFreeGb ddrSzGb) := by
  rw [← BitVec.toNat_inj, toNat_gigabytes, ddrSzFree, ddrSz, ddrSzResv, ddrFreeGb]
  bv_omega

/-- `vf` gigabytes above the top `n` of `f`. -/
theorem gigabytes_top {f n : Nat} (hn : n ≤ vfNumMax) (vf : Nat) :
    gigabytes f - sizeVgpuDdr * BitVec.ofNat 64 n + sizeVgpuDdr * BitVec.ofNat 64 vf =
      gigabytes (f + (0x400000000 - n) + vf) := by
  have hmax : vfNumMax = 60 := rfl
  rw [← BitVec.toNat_inj, toNat_gigabytes, BitVec.toNat_add, BitVec.toNat_sub, toNat_gigabytes,
    sizeVgpuDdr]
  bv_omega

/-- The library's base. -/
theorem pciefVfBaseAddr_eq {n : Nat} (hpos : 1 ≤ n) (hn : n ≤ vfNumMax) (ddrSzGb vf : Nat) :
    pciefVfBaseAddr ddrSzGb n vf =
      gigabytes (ddrFreeGb ddrSzGb + (0x400000000 - n) + vf) := by
  have hvf : (n : Int) > 0 := by omega
  rw [pciefVfBaseAddr, if_pos hvf, BitVec.ofInt_natCast, BitVec.ofInt_natCast, ← ddrSzFree,
    ddrSzFree_eq, gigabytes_top hn]

/-- The driver's base. -/
theorem laddrVgpu_eq {n : Nat} (hn : n ≤ vfNumMax) (ddrSzGb vf : Nat) :
    laddrVgpu ddrSzGb n vf =
      gigabytes (if n = vfNumMax then vf
        else ddrFreeGb ddrSzGb + (0x400000000 - n) + vf) := by
  rw [laddrVgpu, laddrVgpuBase]
  split
  · rw [if_pos (Eq.symm ‹_›)]
    exact BitVec.zero_add _
  · rw [if_neg (Ne.symm ‹_›), ← ddrSzFree, ddrSzFree_eq, gigabytes_top hn]

/-- The windows are those of the gigabytes from `k` on. -/
theorem vgpuWindow_eq {n : Nat} (hn : n ≤ vfNumMax) {ddrSzGb vf k : Nat}
    (hk : (if n = vfNumMax then vf
      else ddrFreeGb ddrSzGb + (0x400000000 - n) + vf) % 0x400000000 = k) :
    vgpuWindow ddrSzGb n vf = Set.Ico (0x40000000 * k) (0x40000000 * k + 0x40000000) := by
  rw [vgpuWindow, laddrVgpu_eq hn, toNat_gigabytes, hk]
  rfl

/-! ## when they agree -/

/-- Windows of different gigabytes are apart. -/
theorem disjoint_gigabytes {k l : Nat} (h : k ≠ l) :
    Disjoint (Set.Ico (0x40000000 * k) (0x40000000 * k + 0x40000000))
      (Set.Ico (0x40000000 * l) (0x40000000 * l + 0x40000000)) := by
  rw [Set.Ico_disjoint_Ico]
  omega

theorem gigabyte_inside {k f : Nat} :
    Set.Ico (0x40000000 * k) (0x40000000 * k + 0x40000000) ⊆ Set.Ico 0 (0x40000000 * f) ↔
      k < f := by
  rw [Set.Ico_subset_Ico_iff (by omega)]
  omega

theorem ddrFreeGb_lt (ddrSzGb : Nat) : ddrFreeGb ddrSzGb < 0x400000000 :=
  Nat.mod_lt _ (by decide)

theorem toNat_ddrSzFree (ddrSzGb : Nat) :
    (ddrSzFree ddrSzGb).toNat = 0x40000000 * ddrFreeGb ddrSzGb := by
  rw [ddrSzFree_eq, toNat_gigabytes, Nat.mod_eq_of_lt (ddrFreeGb_lt ddrSzGb)]

/-- With the windows at the top both layouts are the same; they are inside the free memory
when it has room for them all. -/
theorem layout_agrees_top {ddrSzGb n : Nat} (hpos : 1 ≤ n) (hn : n < vfNumMax) :
    VfLayoutAgrees ddrSzGb n ↔ n ≤ ddrFreeGb ddrSzGb := by
  have hmax : vfNumMax = 60 := rfl
  have hf := ddrFreeGb_lt ddrSzGb
  have hif : ∀ vf, (if n = vfNumMax then vf else ddrFreeGb ddrSzGb + (0x400000000 - n) + vf) =
      ddrFreeGb ddrSzGb + (0x400000000 - n) + vf := fun vf => if_neg hn.ne
  constructor
  · intro h
    have hin := h.inside 0 hpos
    rw [vgpuWindow_eq hn.le rfl, hif, toNat_ddrSzFree, gigabyte_inside] at hin
    omega
  · intro hroom
    have hwin : ∀ vf < n, vgpuWindow ddrSzGb n vf =
        Set.Ico (0x40000000 * (ddrFreeGb ddrSzGb - n + vf))
          (0x40000000 * (ddrFreeGb ddrSzGb - n + vf) + 0x40000000) := fun vf hvf =>
      vgpuWindow_eq hn.le (by rw [hif]; omega)
    refine ⟨fun vf hvf => ?_, fun vf hvf vf' hvf' hne => ?_, fun vf _ => ?_⟩
    · rw [hwin vf hvf, toNat_ddrSzFree, gigabyte_inside]
      omega
    · rw [hwin vf hvf, hwin vf' hvf']
      exact disjoint_gigabytes (by omega)
    · rw [pciefVfBaseAddr_eq hpos hn.le, laddrVgpu_eq hn.le, hif]

/-- With the windows at 0 the library is right only when the free memory is just theirs. -/
theorem layout_agrees_max {ddrSzGb : Nat} :
    VfLayoutAgrees ddrSzGb vfNumMax ↔ ddrFreeGb ddrSzGb = vfNumMax := by
  have hmax : vfNumMax = 60 := rfl
  have hf := ddrFreeGb_lt ddrSzGb
  have hbase : ∀ vf : Nat, pciefVfBaseAddr ddrSzGb vfNumMax vf = laddrVgpu ddrSzGb vfNumMax vf ↔
      (ddrFreeGb ddrSzGb + (0x400000000 - vfNumMax) + vf) % 0x400000000 = vf % 0x400000000 :=
    fun vf => by
      rw [pciefVfBaseAddr_eq (by decide) le_rfl, laddrVgpu_eq le_rfl, if_pos rfl, gigabytes_inj]
  constructor
  · intro h
    have hzero := (hbase 0).mp (h.base 0 (by decide))
    omega
  · intro hfree
    have hwin : ∀ vf < vfNumMax, vgpuWindow ddrSzGb vfNumMax vf =
        Set.Ico (0x40000000 * vf) (0x40000000 * vf + 0x40000000) := fun vf hvf =>
      vgpuWindow_eq le_rfl (by rw [if_pos rfl]; omega)
    refine ⟨fun vf hvf => ?_, fun vf hvf vf' hvf' hne => ?_, fun vf _ => ?_⟩
    · rw [hwin vf hvf, toNat_ddrSzFree, gigabyte_inside]
      omega
    · rw [hwin vf hvf, hwin vf' hvf']
      exact disjoint_gigabytes hne
    · rw [hbase]
      omega

/-- **Layout of the virtual functions**: driver and library agree on windows inside the free
memory when there are fewer than `VF_NUM_MAX` and it has room for them, or when there are
`VF_NUM_MAX` and they fill it. -/
theorem vf_layout_agrees_iff (ddrSzGb : Nat) {vfNum : Nat} (hpos : 1 ≤ vfNum)
    (hle : vfNum ≤ vfNumMax) : VfLayoutAgrees ddrSzGb vfNum ↔
      (vfNum < vfNumMax ∧ vfNum ≤ ddrFreeGb ddrSzGb) ∨
        (vfNum = vfNumMax ∧ ddrFreeGb ddrSzGb = vfNumMax) := by
  rcases hle.lt_or_eq with hlt | rfl
  · rw [layout_agrees_top hpos hlt]
    simp [hlt, hlt.ne]
  · rw [layout_agrees_max]
    simp

/-- Forty virtual functions in 48 gigabytes. -/
theorem vf_layout_agrees_forty : VfLayoutAgrees 48 40 :=
  (vf_layout_agrees_iff 48 (by decide) (by decide)).mpr (.inl (by decide))

/-- The build options as they stand in `mt-emu-drv.h`. -/
theorem vf_layout_disagrees : ¬VfLayoutAgrees 48 60 := fun h =>
  absurd (h.base 0 (by decide)) (by decide)

end MtEmu
