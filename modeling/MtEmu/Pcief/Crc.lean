import MtEmu.Bare.Desc
import MtEmu.Lib.Bytes
import MtEmu.Lib.Crc
import MtEmu.Lib.Loop

/-!
# MtEmu.Pcief.Crc

The checksum by which the DMA tests compare their buffers: `make_crc32_table` and `make_crc`
(`mt_pcie_f.c`).

The table holds eight steps of the division by the reflected polynomial for each byte
(`makeCrc32Table_apply`), so `make_crc` computes that division over the string, and a string
may be checked by parts (`make_crc_divides`).  A buffer with one wrong byte has another
checksum (`makeCrc_update_ne`).
-/

namespace MtEmu

open Bytes

/-! ## the code -/

/-- The polynomial of `make_crc32_table`, reflected. -/
def crc32Poly : U32 := 0xEDB88320

/-- `crc32_table`. -/
abbrev Crc32Table := Fin 256 → U32

/-- A round of the inner loop of `make_crc32_table`. -/
def makeCrc32Bit (c : U32) : U32 :=
  if c &&& 1 ≠ 0 then (c >>> 1) ^^^ 0xEDB88320 else c >>> 1

/-- `make_crc32_table`: the table after it.  All 256 entries are written, so that nothing is
left of the table before. -/
def makeCrc32Table : Crc32Table → Crc32Table :=
  Loop.each 256 fun i table j =>
    if j.val = i then Loop.each 8 (fun _ c => makeCrc32Bit c) (BitVec.ofNat 32 i) else table j

/-- The index of `make_crc`, which is always one of the table's. -/
def crc32Index (x : U32) : Fin 256 :=
  ⟨(x &&& 0xff).toNat, by
    rw [BitVec.toNat_and]
    exact Nat.lt_succ_of_le Nat.and_le_right⟩

/-- The loop of `make_crc`; `while (size--)` tests the size before it counts it down. -/
def makeCrcLoop (table : Crc32Table) (m : Mem) : Nat → Nat → U32 → U32
  | 0, _, crc => crc
  | size + 1, string, crc =>
      makeCrcLoop table m size (string + 1)
        ((crc >>> 8) ^^^ table (crc32Index (crc ^^^ (m string).setWidth 32)))

/-- `make_crc`, for a string at an address.  The caller gives the checksum to go on from, and
neither it nor the result is inverted, as the usual form of this checksum has it. -/
def makeCrc (table : Crc32Table) (crc : U32) (m : Mem) (string : Nat) (size : U32) : U32 :=
  makeCrcLoop table m size.toNat string crc

/-! ## the table -/

/-- A round is a step of the division. -/
theorem makeCrc32Bit_eq (c : U32) : makeCrc32Bit c = Crc.shift crc32Poly c := by
  have hbit : c &&& 1 ≠ 0 ↔ c.getLsbD 0 = true := by
    have hand : c &&& 1 = (BitVec.ofBool (c.getLsbD 0)).setWidth 32 :=
      BitVec.and_one_eq_setWidth_ofBool_getLsbD
    rw [hand]
    cases c.getLsbD 0 <;> decide
  simp only [makeCrc32Bit, Crc.shift, hbit]
  rfl

/-- Each entry holds eight steps from its index, whatever the table held. -/
theorem makeCrc32Table_apply (table : Crc32Table) (j : Fin 256) :
    makeCrc32Table table j = (Crc.shift crc32Poly)^[8] (BitVec.ofNat 32 j) := by
  have hsteps : Loop.each 8 (fun _ c => makeCrc32Bit c) (BitVec.ofNat 32 j) =
      (Crc.shift crc32Poly)^[8] (BitVec.ofNat 32 j) := by
    simp only [makeCrc32Bit_eq]
    rfl
  refine Loop.each_set (fun table : Crc32Table => table j) j.isLt (fun table => ?_)
    fun i _ hlt table => if_neg hlt.ne
  rw [if_pos rfl, hsteps]

/-- The table at the index is what the division adds for the low byte. -/
theorem makeCrc32Table_index (table : Crc32Table) (c : U32) :
    makeCrc32Table table (crc32Index c) = (Crc.shift crc32Poly)^[8] (c &&& Crc.low 32 8) := by
  have hindex : BitVec.ofNat 32 (crc32Index c) = c &&& Crc.low 32 8 := by
    rw [crc32Index, BitVec.ofNat_toNat, BitVec.setWidth_eq]
    rfl
  rw [makeCrc32Table_apply, hindex]

/-! ## the checksum -/

theorem makeCrcLoop_eq (table : Crc32Table) (m : Mem) (size string : Nat) (crc : U32) :
    makeCrcLoop (makeCrc32Table table) m size string crc =
      Crc.crc crc32Poly crc (slice m string size) := by
  induction size generalizing string crc with
  | zero => rfl
  | succ size ih =>
      have hbyte := Crc.update_eq_lookup crc32Poly (makeCrc32Table_index table) crc (m string)
      rw [makeCrcLoop, ih, slice_succ, Crc.crc_cons, hbyte, Crc.lookup]

theorem makeCrc_eq (table : Crc32Table) (crc : U32) (m : Mem) (string : Nat) (size : U32) :
    makeCrc (makeCrc32Table table) crc m string size =
      Crc.crc crc32Poly crc (slice m string size.toNat) :=
  makeCrcLoop_eq table m size.toNat string crc

/-- The string at `string` with `size` bytes. -/
def StringAt (m : Mem) (string : Nat) (size : U32) (s : List (BitVec 8)) : Prop :=
  slice m string size.toNat = s

instance (m : Mem) (string : Nat) (size : U32) (s : List (BitVec 8)) :
    Decidable (StringAt m string size s) :=
  inferInstanceAs (Decidable (_ = _))

/-- **The checksum is the division**: `make_crc` takes in each byte by an exclusive or and
eight steps, and taking in one string after another is taking in both at once. -/
theorem make_crc_divides (table : Crc32Table) (c : U32) :
    (∀ m string size, makeCrc (makeCrc32Table table) c m string size =
      Crc.crc crc32Poly c (slice m string size.toNat)) ∧
    ∀ a b m m' m'' string string' string'' size size' size'',
      StringAt m string size a → StringAt m' string' size' b →
      StringAt m'' string'' size'' (a ++ b) →
      makeCrc (makeCrc32Table table) (makeCrc (makeCrc32Table table) c m string size) m' string'
          size' =
        makeCrc (makeCrc32Table table) c m'' string'' size'' := by
  refine ⟨fun m string size => makeCrc_eq table c m string size, ?_⟩
  intro a b m m' m'' string string' string'' size size' size'' ha hb hab
  simp only [makeCrc_eq]
  rw [ha, hb, hab, Crc.crc_append]

/-- The digits in two parts, and the check value of the polynomial for all of them. -/
theorem make_crc_divides_digits :
    let m : Mem := fun a => 0x31 + BitVec.ofNat 8 a
    let table := makeCrc32Table fun _ => 0
    makeCrc table (makeCrc table 0xffffffff m 0 4) m 4 5 = 0x340bc6d9 := by
  intro m table
  have hparts := (make_crc_divides (fun _ => 0) 0xffffffff).2 [0x31, 0x32, 0x33, 0x34]
    [0x35, 0x36, 0x37, 0x38, 0x39] m m m 0 4 0 4 5 9 (by decide) (by decide) (by decide)
  have hwhole := (make_crc_divides (fun _ => 0) 0xffffffff).1 m 0 9
  rw [hparts, hwhole]
  decide +kernel

/-! ## what it detects -/

/-- One wrong byte in the buffer changes the checksum. -/
theorem makeCrc_update_ne (table : Crc32Table) (c : U32) (m : Mem) (string : Nat) {size : U32}
    {i : Nat} (hi : i < size.toNat) {b : BitVec 8} (hb : b ≠ m (string + i)) :
    makeCrc (makeCrc32Table table) c (Function.update m (string + i) b) string size ≠
      makeCrc (makeCrc32Table table) c m string size := by
  obtain ⟨j, hj⟩ : ∃ j, size.toNat = i + (j + 1) := ⟨size.toNat - i - 1, by omega⟩
  have hout : ∀ a n, a + n ≤ string + i ∨ string + i < a →
      slice (Function.update m (string + i) b) a n = slice m a n := fun a n ha =>
    List.map_congr_left fun k hk => by
      have hlt := List.mem_range.mp hk
      have hne : a + k ≠ string + i := by omega
      exact Function.update_of_ne hne b m
  have hsplit : ∀ m' : Mem, slice m' string size.toNat =
      slice m' string i ++ m' (string + i) :: slice m' (string + i + 1) j := fun m' => by
    rw [hj, slice_append, slice_succ]
  rw [makeCrc_eq, makeCrc_eq, hsplit, hsplit, hout string i (.inl (Nat.le_refl _)),
    hout (string + i + 1) j (.inr (Nat.lt_succ_self _)), Function.update_self]
  exact Crc.crc_ne_of_chunk_ne (by decide) (by decide) c _ _ hb

end MtEmu
