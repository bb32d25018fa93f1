import MtEmu.Pcief.Bar

/-!
# MtEmu.Pcief.Bounds

The range check of `pcief_write` and `pcief_read` (`test/lib/mt_pcie_f.c`).

The sum `offset + len` is taken modulo 2^64, and the position is an `int`.  A transfer
touches the bytes from `offset` on, modulo 2^64 (`pciefTransfer_touched`), and leaves the
position at `len`, modulo 2^32: `pcief_bounds_iff` says which requests that pass the check
stay in the BAR.
-/

namespace MtEmu

open Bytes

/-- The bytes `[offset, offset + n)`, modulo 2^64. -/
def rangeBytes (offset : U64) (n : Nat) : List U64 :=
  (List.range n).map fun k => offset + BitVec.ofNat 64 k

theorem mem_rangeBytes {offset a : U64} {n : Nat} :
    a ∈ rangeBytes offset n ↔ ∃ k < n, offset + BitVec.ofNat 64 k = a := by
  simp [rangeBytes]

/-- The next access touches the next bytes. -/
theorem rangeBytes_append {offset : U64} {i : U32} (n : Nat) (hi : i.toNat < 0x80000000) :
    rangeBytes offset i.toNat ++ accessBytes offset n i = rangeBytes offset (i.toNat + n) := by
  rw [rangeBytes, rangeBytes, List.range_add, List.map_append, List.map_map, accessBytes,
    barAt_eq hi]
  congr 1
  refine List.map_congr_left fun k _ => ?_
  rw [Function.comp, BitVec.ofNat_add, BitVec.add_assoc]

/-- The bytes of a range all lie below `size` exactly when the range does, without
wrap-around. -/
theorem rangeBytes_below_iff {offset size : U64} {n : Nat}
    (hsum : (offset.toNat + n) % 0x10000000000000000 ≤ size.toNat) :
    (∀ a ∈ rangeBytes offset n, a < size) ↔ n = 0 ∨ offset.toNat + n < 0x10000000000000000 := by
  have hsize := size.isLt
  have hoff := offset.isLt
  constructor
  · intro h
    by_contra! hwrap
    -- the last byte of the address space is one of them
    have hlast := h _ (mem_rangeBytes.mpr ⟨0xffffffffffffffff - offset.toNat, by omega, rfl⟩)
    rw [BitVec.lt_def, BitVec.toNat_add, BitVec.toNat_ofNat] at hlast
    omega
  · rintro h a ha
    obtain ⟨k, hk, rfl⟩ := mem_rangeBytes.mp ha
    rw [BitVec.lt_def, BitVec.toNat_add, BitVec.toNat_ofNat]
    omega

/-! ## the transfer -/

section Transfer

variable {σ : Type} {access : Nat → U32 → σ → σ} (touched : σ → List U64) {offset : U64}
  {len : U32} {s : σ}

/-- A transfer ends at `len`, whatever its accesses do. -/
theorem pciefTransfer_ends (access : Nat → U32 → σ → σ) (len : U32) (s : σ) :
    ∃ s', pciefTransfer access len s = some (len, s') := by
  obtain ⟨s', hrun, -⟩ := pciefTransfer_reach access len (s := s)
    (fun _ _ => True) (fun _ _ _ _ _ _ => trivial) trivial
  exact ⟨s', hrun⟩

/-- The bytes that a transfer touches. -/
theorem pciefTransfer_touched
    (haccess : ∀ n i s, touched (access n i s) = touched s ++ accessBytes offset n i)
    (hlen : len.toNat < 0x80000000) :
    ∃ s', pciefTransfer access len s = some (len, s') ∧
      touched s' = touched s ++ rangeBytes offset len.toNat :=
  pciefTransfer_reach access len (fun i s' => touched s' = touched s ++ rangeBytes offset i)
    (fun n i s' hn hi hs => by
      have := hn.pos
      rw [haccess, hs, List.append_assoc, rangeBytes_append n (by omega)])
    (List.append_nil _).symm

/-- A transfer of a BAR that ends, with the position that the length stands for, and
touches bytes of the BAR only. -/
def InBar (b : PciefBar) (len : U32) (touched : σ → List U64) (run : Option (U32 × σ)) : Prop :=
  ∃ i s' xs, run = some (i, s') ∧ i.toInt = len.toNat ∧ touched s' = b.touched ++ xs ∧
    ∀ a ∈ xs, a < b.barSize

theorem inBar_iff {b : PciefBar} (hs : touched s = b.touched)
    (haccess : ∀ n i s, touched (access n i s) = touched s ++ accessBytes offset n i)
    (hacc : b.Accepts offset len) :
    InBar b len touched (pciefTransfer access len s) ↔
      offset.toNat + len.toNat < 0x10000000000000000 ∧ len.toNat < 0x80000000 := by
  have hoff := offset.isLt
  have hsum : (offset.toNat + len.toNat) % 0x10000000000000000 ≤ b.barSize.toNat := by
    rw [PciefBar.Accepts, BitVec.not_lt, BitVec.le_def, BitVec.toNat_add,
      BitVec.toNat_setWidth] at hacc
    have := len.isLt
    omega
  constructor
  · rintro ⟨i, s', xs, hrun, hpos, htouched, hin⟩
    have hlen : len.toNat < 0x80000000 := by
      obtain ⟨t, hend⟩ := pciefTransfer_ends access len s
      rw [hend] at hrun
      obtain ⟨rfl, -⟩ := Prod.mk.inj (Option.some.inj hrun)
      have := BitVec.toInt_lt (x := len)
      omega
    obtain ⟨t, hend, hbytes⟩ := pciefTransfer_touched touched (s := s) haccess hlen
    rw [hend] at hrun
    obtain ⟨rfl, rfl⟩ := Prod.mk.inj (Option.some.inj hrun)
    rw [hbytes, hs] at htouched
    obtain rfl := List.append_cancel_left htouched
    have hfit := (rangeBytes_below_iff hsum).mp hin
    omega
  · rintro ⟨hfit, hlen⟩
    obtain ⟨s', hend, hbytes⟩ := pciefTransfer_touched touched (s := s) haccess hlen
    have hmsb : 2 * len.toNat < 2 ^ 32 := by omega
    exact ⟨len, s', _, hend, BitVec.toInt_eq_toNat_of_lt hmsb, hs ▸ hbytes,
      (rangeBytes_below_iff hsum).mpr (.inr hfit)⟩

end Transfer

/-- **Bounds**: what passes the check of `pcief_write` and `pcief_read` stays in the BAR,
with an exact position, exactly when the range ends below 2^64 and the length is an `int`. -/
theorem pcief_bounds_iff (b : PciefBar) (offset : U64) (len : U32) (data buf : Mem) :
    ((b.Accepts offset len →
        InBar b len PciefBar.touched (pciefTransfer (pciefWriteAt offset data) len b)) ↔
      (¬b.Accepts offset len ∨
        offset.toNat + len.toNat < 0x10000000000000000 ∧ len.toNat < 0x80000000)) ∧
    ((b.Accepts offset len →
        InBar b len (fun s => s.1.touched) (pciefTransfer (pciefReadAt offset) len (b, buf))) ↔
      (¬b.Accepts offset len ∨
        offset.toNat + len.toNat < 0x10000000000000000 ∧ len.toNat < 0x80000000)) := by
  refine ⟨?_, ?_⟩
  · rw [imp_iff_not_or]
    exact or_congr_right' fun hacc =>
      inBar_iff PciefBar.touched rfl (fun _ _ _ => rfl) (not_not.mp hacc)
  · rw [imp_iff_not_or]
    exact or_congr_right' fun hacc =>
      inBar_iff (fun s : PciefBar × Mem => s.1.touched) rfl (fun _ _ _ => rfl)
        (not_not.mp hacc)

/-- Eight bytes from four below 2^64 on, in a BAR of 4 KiB. -/
theorem write_past_bar :
    let b : PciefBar := ⟨0x1000, fun _ => 0, []⟩
    ∃ b', pciefWrite b 0xfffffffffffffffc 8 (fun _ => 0) = some (0, b') ∧
      0xfffffffffffffffc ∈ b'.touched ∧ ¬(0xfffffffffffffffc : U64) < b.barSize :=
  ⟨_, rfl, by decide, by decide⟩

end MtEmu
