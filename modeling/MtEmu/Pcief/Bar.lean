import MtEmu.Lib.Bytes
import MtEmu.Lib.Loop
import MtEmu.Bare.Desc

/-!
# MtEmu.Pcief.Bar

`pcief_write` and `pcief_read` (`test/lib/mt_pcie_f.c`): a range of a mapped BAR through
accesses of eight bytes, and of four, two and one for what is left.

The position is an `int` that is compared with unsigned bounds.  Whatever the length is, it
runs through `[0, len)` once (`pciefTransfer_reach`); below 2^31 it is also the offset that
the accesses are at.  `pcief_write_read` is the round trip.
-/

namespace MtEmu

open Bytes Loop

/-! ## the transfer -/

/-- `struct pcief_bar`: the size, the bytes from `bar_map_addr` on, and the offsets of the
bytes touched so far. -/
structure PciefBar where
  barSize : U64
  mem : Mem
  touched : List U64

section Transfer

variable {σ : Type}

/-- The four steps of a transfer; `access n i` makes the access of `n` bytes at `i`. -/
def pciefTransfer (access : Nat → U32 → σ → σ) (len : U32) (s : σ) : Option (U32 × σ) :=
  (whileBelow (len / 8 * 8) 8 (access 8) len.toNat (0, s)).map fun r =>
    let r := ifBelow (len / 4 * 4) 4 (access 4) r
    let r := ifBelow (len / 2 * 2) 2 (access 2) r
    ifBelow len 1 (access 1) r

end Transfer

/-- `data + i`, the `int` sign-extended. -/
def dataAt (i : U32) : Nat := (i.signExtend 64).toNat

/-- `offset + i`. -/
def barAt (offset : U64) (i : U32) : U64 := offset + i.signExtend 64

/-- The bytes of an access. -/
def accessBytes (offset : U64) (n : Nat) (i : U32) : List U64 :=
  (List.range n).map fun k => barAt offset i + BitVec.ofNat 64 k

/-- An access of `n` bytes from `data` to the BAR. -/
def pciefWriteAt (offset : U64) (data : Mem) (n : Nat) (i : U32) (b : PciefBar) : PciefBar :=
  { b with
    mem := store b.mem (barAt offset i).toNat n (load data (dataAt i) n)
    touched := b.touched ++ accessBytes offset n i }

/-- An access of `n` bytes from the BAR to `data`. -/
def pciefReadAt (offset : U64) (n : Nat) (i : U32) (s : PciefBar × Mem) : PciefBar × Mem :=
  ({ s.1 with touched := s.1.touched ++ accessBytes offset n i },
    store s.2 (dataAt i) n (load s.1.mem (barAt offset i).toNat n))

theorem pciefWriteAt_mem (offset : U64) (data : Mem) (n : Nat) (i : U32) (b : PciefBar) :
    (pciefWriteAt offset data n i b).mem =
      store b.mem (barAt offset i).toNat n (load data (dataAt i) n) := rfl

theorem pciefReadAt_data (offset : U64) (n : Nat) (i : U32) (s : PciefBar × Mem) :
    (pciefReadAt offset n i s).2 = store s.2 (dataAt i) n (load s.1.mem (barAt offset i).toNat n) :=
  rfl

/-- The range check passes. -/
def PciefBar.Accepts (b : PciefBar) (offset : U64) (len : U32) : Prop :=
  ¬b.barSize < offset + len.setWidth 64

instance (b : PciefBar) (offset : U64) (len : U32) : Decidable (b.Accepts offset len) :=
  inferInstanceAs (Decidable (¬_))

/-- `pcief_write`: the result and the BAR. -/
def pciefWrite (b : PciefBar) (offset : U64) (len : U32) (data : Mem) :
    Option (Int × PciefBar) :=
  if ¬b.Accepts offset len then some (-1, b)
  else (pciefTransfer (pciefWriteAt offset data) len b).map fun r => (0, r.2)

/-- `pcief_read`: the result, the BAR and the data. -/
def pciefRead (b : PciefBar) (offset : U64) (len : U32) (data : Mem) :
    Option (Int × PciefBar × Mem) :=
  if ¬b.Accepts offset len then some (-1, b, data)
  else (pciefTransfer (pciefReadAt offset) len (b, data)).map fun r => (0, r.2)

/-! ## positions -/

/-- The widths that the steps use. -/
def IsWidth (n : Nat) : Prop := n = 1 ∨ n = 2 ∨ n = 4 ∨ n = 8

namespace IsWidth

variable {n : Nat}

theorem toNat_ofNat (hn : IsWidth n) : (BitVec.ofNat 32 n).toNat = n := by
  obtain rfl | rfl | rfl | rfl := hn <;> rfl

theorem pos (hn : IsWidth n) : 0 < n := by
  obtain rfl | rfl | rfl | rfl := hn <;> decide

/-- `len / n * n`. -/
theorem toNat_bound (hn : IsWidth n) (len : U32) :
    (len / BitVec.ofNat 32 n * BitVec.ofNat 32 n).toNat = len.toNat / n * n := by
  have hlt := len.isLt
  have hle := Nat.div_mul_le_self len.toNat n
  rw [BitVec.toNat_mul, BitVec.toNat_udiv, hn.toNat_ofNat, Nat.mod_eq_of_lt (by omega)]

/-- A step from below the last multiple of the width does not wrap. -/
theorem fits (hn : IsWidth n) (len : U32) : len.toNat / n * n + n ≤ 2 ^ 32 := by
  have hlt := len.isLt
  obtain rfl | rfl | rfl | rfl := hn <;> omega

end IsWidth

section Reach

variable {σ : Type} {access : Nat → U32 → σ → σ} {len : U32}

/-- The loop of one width runs to the last multiple of the width. -/
theorem width_reach {n : Nat} (fuel : Nat) {r : U32 × σ} (inv : Nat → σ → Prop) (hn : IsWidth n)
    (hle : r.1.toNat ≤ len.toNat / n * n) (hdvd : n ∣ r.1.toNat) (hfuel : len.toNat ≤ fuel)
    (hbody : ∀ i s, i.toNat + n ≤ len.toNat → inv i.toNat s → inv (i.toNat + n) (access n i s))
    (h0 : inv r.1.toNat r.2) :
    ∃ r', whileBelow (len / BitVec.ofNat 32 n * BitVec.ofNat 32 n) (BitVec.ofNat 32 n) (access n)
        fuel r = some r' ∧ r'.1.toNat = len.toNat / n * n ∧ inv (len.toNat / n * n) r'.2 := by
  have hbound := hn.toNat_bound len
  have hmul := Nat.div_mul_le_self len.toNat n
  obtain ⟨s', hrun, hinv⟩ := whileBelow_reach (access n) fuel (r := r) inv
    (by rw [hn.toNat_ofNat]; exact hn.pos) (by rw [hbound, hn.toNat_ofNat]; exact hn.fits len)
    (by rw [hbound]; exact hle)
    (by rw [hbound, hn.toNat_ofNat]; exact Nat.dvd_sub (Nat.dvd_mul_left n _) hdvd)
    (fun i s hi => by rw [hn.toNat_ofNat] at hi ⊢; exact hbody i s (by omega)) (by omega) h0
  rw [hbound] at hinv
  exact ⟨_, hrun, hbound, hinv⟩

/-- So does one step, when at most one is left. -/
theorem width_step {n : Nat} {r : U32 × σ} (inv : Nat → σ → Prop) (hn : IsWidth n)
    (hle : r.1.toNat ≤ len.toNat / n * n) (hone : len.toNat / n * n ≤ r.1.toNat + n)
    (hdvd : n ∣ r.1.toNat)
    (hbody : ∀ i s, i.toNat + n ≤ len.toNat → inv i.toNat s → inv (i.toNat + n) (access n i s))
    (h0 : inv r.1.toNat r.2) :
    let r' := ifBelow (len / BitVec.ofNat 32 n * BitVec.ofNat 32 n) (BitVec.ofNat 32 n) (access n) r
    r'.1.toNat = len.toNat / n * n ∧ inv (len.toNat / n * n) r'.2 := by
  obtain ⟨r', hrun, hend⟩ :=
    width_reach _ inv hn hle hdvd (Nat.le_succ len.toNat) hbody h0
  rw [ifBelow_eq_whileBelow _ _ (by rw [hn.toNat_bound, hn.toNat_ofNat]; exact hn.fits len)
    (by rw [hn.toNat_bound, hn.toNat_ofNat]; exact hone)] at hrun
  rw [Option.some.inj hrun]
  exact hend

theorem div_one_mul (len : U32) : len / BitVec.ofNat 32 1 * BitVec.ofNat 32 1 = len := by
  apply BitVec.eq_of_toNat_eq
  rw [IsWidth.toNat_bound (.inl rfl), Nat.div_one, Nat.mul_one]

/-- **Transfer**: it ends, at `len`, and an invariant that each access keeps holds there. -/
theorem pciefTransfer_reach (access : Nat → U32 → σ → σ) (len : U32) {s : σ}
    (inv : Nat → σ → Prop)
    (hbody : ∀ n i s, IsWidth n → i.toNat + n ≤ len.toNat → inv i.toNat s →
      inv (i.toNat + n) (access n i s))
    (h0 : inv 0 s) :
    ∃ s', pciefTransfer access len s = some (len, s') ∧ inv len.toNat s' := by
  have h1 : IsWidth 1 := .inl rfl
  have h2 : IsWidth 2 := .inr (.inl rfl)
  have h4 : IsWidth 4 := .inr (.inr (.inl rfl))
  have h8 : IsWidth 8 := .inr (.inr (.inr rfl))
  obtain ⟨r8, hrun, hpos8, hinv8⟩ := width_reach len.toNat (r := ((0 : U32), s)) inv h8
    (Nat.zero_le _) (Nat.dvd_zero 8) (Nat.le_refl len.toNat) (fun i s => hbody 8 i s h8) h0
  rw [← hpos8] at hinv8
  obtain ⟨hpos4, hinv4⟩ := width_step inv h4 (by omega) (by omega) (by omega)
    (fun i s => hbody 4 i s h4) hinv8
  rw [← hpos4] at hinv4
  obtain ⟨hpos2, hinv2⟩ := width_step inv h2 (by omega) (by omega) (by omega)
    (fun i s => hbody 2 i s h2) hinv4
  rw [← hpos2] at hinv2
  obtain ⟨hpos1, hinv1⟩ := width_step inv h1 (by omega) (by omega) (Nat.one_dvd _)
    (fun i s => hbody 1 i s h1) hinv2
  rw [Nat.div_one, Nat.mul_one] at hpos1 hinv1
  rw [div_one_mul] at hpos1 hinv1
  have hend := BitVec.eq_of_toNat_eq hpos1
  refine ⟨_, ?_, hinv1⟩
  exact (congrArg (Option.map _) hrun).trans (congrArg some (Prod.ext hend rfl))

end Reach

/-! ## the bytes -/

variable {b : PciefBar} {offset : U64} {len : U32}

theorem dataAt_eq {i : U32} (hi : i.toNat < 0x80000000) : dataAt i = i.toNat :=
  toNat_signExtend_of_lt hi

theorem barAt_eq {i : U32} (hi : i.toNat < 0x80000000) :
    barAt offset i = offset + BitVec.ofNat 64 i.toNat := by
  have hdata := dataAt_eq hi
  rw [barAt]
  congr 1
  apply BitVec.eq_of_toNat_eq
  rw [BitVec.toNat_ofNat, ← hdata, dataAt, Nat.mod_eq_of_lt (BitVec.isLt _)]

theorem barAt_toNat {i : U32} (hi : i.toNat < 0x80000000)
    (hin : offset.toNat + i.toNat < 0x10000000000000000) :
    (barAt offset i).toNat = offset.toNat + i.toNat := by
  rw [barAt_eq hi, BitVec.toNat_add, BitVec.toNat_ofNat]
  omega

/-- A range in the BAR passes the check. -/
theorem accepts_of_le (hin : offset.toNat + len.toNat ≤ b.barSize.toNat) :
    b.Accepts offset len := by
  have hsize := b.barSize.isLt
  have hlen := len.isLt
  rw [PciefBar.Accepts, BitVec.not_lt, BitVec.le_def, BitVec.toNat_add, BitVec.toNat_setWidth]
  omega

/-- The first `i` bytes of a write are copied. -/
def PciefBar.Written (b : PciefBar) (offset : U64) (data : Mem) (i : Nat) (b' : PciefBar) : Prop :=
  b'.barSize = b.barSize ∧ b'.mem = copy data 0 b.mem offset.toNat i

/-- The first `i` bytes of a read are copied. -/
def PciefBar.ReadBack (b : PciefBar) (offset : U64) (data : Mem) (i : Nat)
    (s : PciefBar × Mem) : Prop :=
  s.1.mem = b.mem ∧ s.2 = copy b.mem offset.toNat data 0 i

theorem written_step {data : Mem} {n : Nat} {i : U32} {b' : PciefBar} (hlen : i.toNat < 0x80000000)
    (hin : offset.toNat + i.toNat < 0x10000000000000000) (h : b.Written offset data i.toNat b') :
    b.Written offset data (i.toNat + n) (pciefWriteAt offset data n i b') := by
  obtain ⟨hsize, hmem⟩ := h
  refine ⟨hsize, ?_⟩
  have happ := copy_append data 0 b.mem offset.toNat i.toNat n
  rw [Nat.zero_add] at happ
  rw [pciefWriteAt_mem, barAt_toNat hlen hin, dataAt_eq hlen, store_load, hmem, happ]

theorem readBack_step {data : Mem} {n : Nat} {i : U32} {s : PciefBar × Mem}
    (hlen : i.toNat < 0x80000000) (hin : offset.toNat + i.toNat < 0x10000000000000000)
    (h : b.ReadBack offset data i.toNat s) :
    b.ReadBack offset data (i.toNat + n) (pciefReadAt offset n i s) := by
  obtain ⟨hmem, hdata⟩ := h
  refine ⟨hmem, ?_⟩
  have happ := copy_append b.mem offset.toNat data 0 i.toNat n
  rw [Nat.zero_add] at happ
  rw [pciefReadAt_data, barAt_toNat hlen hin, dataAt_eq hlen, store_load, hmem, hdata, happ]

/-- A write inside the BAR copies the data. -/
theorem pciefWrite_spec (data : Mem) (hin : offset.toNat + len.toNat ≤ b.barSize.toNat)
    (hlen : len.toNat < 0x80000000) :
    ∃ b', pciefWrite b offset len data = some (0, b') ∧ b.Written offset data len.toNat b' := by
  have hsize := b.barSize.isLt
  obtain ⟨b', hrun, hb'⟩ := pciefTransfer_reach (pciefWriteAt offset data) len (s := b)
    (b.Written offset data)
    (fun n i s hn hi hs => written_step (by have := hn.pos; omega) (by have := hn.pos; omega) hs)
    ⟨rfl, (copy_zero ..).symm⟩
  refine ⟨b', ?_, hb'⟩
  rw [pciefWrite, if_neg (not_not_intro (accepts_of_le hin)), hrun]
  rfl

/-- A read inside the BAR copies its bytes. -/
theorem pciefRead_spec (data : Mem) (hin : offset.toNat + len.toNat ≤ b.barSize.toNat)
    (hlen : len.toNat < 0x80000000) :
    ∃ s, pciefRead b offset len data = some (0, s) ∧ b.ReadBack offset data len.toNat s := by
  have hsize := b.barSize.isLt
  obtain ⟨s, hrun, hs⟩ := pciefTransfer_reach (pciefReadAt offset) len (s := (b, data))
    (b.ReadBack offset data)
    (fun n i s hn hi hs => readBack_step (by have := hn.pos; omega) (by have := hn.pos; omega) hs)
    ⟨rfl, (copy_zero ..).symm⟩
  refine ⟨s, ?_, hs⟩
  rw [pciefRead, if_neg (not_not_intro (accepts_of_le hin)), hrun]
  rfl

/-- **Round trip**: a write and a read of one range of the BAR succeed, the bytes read are
the bytes written, and the bytes of the BAR around the range are as they were. -/
theorem pcief_write_read (data buf : Mem) (hin : offset.toNat + len.toNat ≤ b.barSize.toNat)
    (hlen : len.toNat < 0x80000000) :
    ∃ b' s, pciefWrite b offset len data = some (0, b') ∧
      pciefRead b' offset len buf = some (0, s) ∧
      slice s.2 0 len.toNat = slice data 0 len.toNat ∧
      (∀ a, len.toNat ≤ a → s.2 a = buf a) ∧
      b'.barSize = b.barSize ∧ s.1.mem = b'.mem ∧
      ∀ a, a < offset.toNat ∨ offset.toNat + len.toNat ≤ a → b'.mem a = b.mem a := by
  obtain ⟨b', hwrite, hsize, hmem⟩ := pciefWrite_spec data hin hlen
  rw [← hsize] at hin
  obtain ⟨s, hread, hsame, hdata⟩ := pciefRead_spec (b := b') buf hin hlen
  refine ⟨b', s, hwrite, hread, ?_, fun a ha => ?_, hsize, hsame, fun a ha => ?_⟩
  · rw [hdata, slice_copy, hmem, slice_copy]
  · rw [hdata, copy, if_neg (by omega)]
  · rw [hmem, copy, if_neg (by omega)]

/-- Fifteen bytes: one access of each width. -/
theorem pcief_write_read_fifteen :
    let b : PciefBar := ⟨0x1000, fun _ => 0, []⟩
    ∃ b' s, pciefWrite b 3 15 (BitVec.ofNat 8) = some (0, b') ∧
      pciefRead b' 3 15 (fun _ => 0xff) = some (0, s) ∧
      slice s.2 0 15 = slice (BitVec.ofNat 8) 0 15 ∧
      (∀ a, 15 ≤ a → s.2 a = 0xff) ∧
      b'.barSize = 0x1000 ∧ s.1.mem = b'.mem ∧
      ∀ a, a < 3 ∨ 3 + 15 ≤ a → b'.mem a = 0 :=
  pcief_write_read (BitVec.ofNat 8) (fun _ => 0xff) (by decide) (by decide)

end MtEmu
