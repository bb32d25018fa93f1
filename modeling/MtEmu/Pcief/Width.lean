import MtEmu.Pcief.Bar

/-!
# MtEmu.Pcief.Width

`pcief_write_s` and `pcief_read_s` (`test/lib/mt_pcie_f.c`): a transfer whose widest access
is chosen by `type`.

The loop of eight bytes starts the position at zero, and only `type == 8` runs it.  The
loops of the other widths go on from whatever the uninitialised `int i` holds: from zero
they make the transfer (`pciefTransferS_reach`), from elsewhere they leave out the first
byte (`pciefTransferS_keeps`).
-/

namespace MtEmu

open Bytes Loop

/-- `if (c) while (i < len / n * n)`. -/
def widthLoop {σ : Type} (c : Prop) [Decidable c] (access : Nat → U32 → σ → σ) (len : U32) (n : Nat)
    (r : U32 × σ) : Option (U32 × σ) :=
  if c then
    whileBelow (len / BitVec.ofNat 32 n * BitVec.ofNat 32 n) (BitVec.ofNat 32 n) (access n)
      len.toNat r
  else some r

/-- The four loops; `i` is the position before it is set. -/
def pciefTransferS {σ : Type} (access : Nat → U32 → σ → σ) (len type i : U32) (s : σ) :
    Option (U32 × σ) :=
  (widthLoop (type = 8) access len 8 (if type = 8 then 0 else i, s)).bind fun r =>
    (widthLoop (type = 8 ∨ type = 4) access len 4 r).bind fun r =>
      (widthLoop (type = 8 ∨ type = 4 ∨ type = 2) access len 2 r).bind fun r =>
        widthLoop (type = 8 ∨ type = 4 ∨ type = 2 ∨ type = 1) access len 1 r

/-- `pcief_write_s`: the result and the BAR. -/
def pciefWriteS (b : PciefBar) (offset : U64) (len : U32) (data : Mem) (type i : U32) :
    Option (Int × PciefBar) :=
  if ¬b.Accepts offset len then some (-1, b)
  else (pciefTransferS (pciefWriteAt offset data) len type i b).map fun r => (0, r.2)

/-- `pcief_read_s`: the result, the BAR and the data. -/
def pciefReadS (b : PciefBar) (offset : U64) (len : U32) (data : Mem) (type i : U32) :
    Option (Int × PciefBar × Mem) :=
  if ¬b.Accepts offset len then some (-1, b, data)
  else (pciefTransferS (pciefReadAt offset) len type i (b, data)).map fun r => (0, r.2)

/-! ## the loops -/

section Loops

variable {σ : Type} {access : Nat → U32 → σ → σ} {len type i : U32}

/-- One loop, from a multiple of its width. -/
theorem widthLoop_reach {c : Prop} [Decidable c] {n : Nat} {r : U32 × σ} (inv : Nat → σ → Prop)
    (hn : IsWidth n) (hle : r.1.toNat ≤ len.toNat / n * n) (hdvd : n ∣ r.1.toNat)
    (hbody : ∀ n i s, IsWidth n → i.toNat + n ≤ len.toNat → inv i.toNat s →
      inv (i.toNat + n) (access n i s))
    (h0 : inv r.1.toNat r.2) :
    ∃ r', widthLoop c access len n r = some r' ∧
      r'.1.toNat = (if c then len.toNat / n * n else r.1.toNat) ∧ inv r'.1.toNat r'.2 := by
  by_cases hc : c
  · obtain ⟨r', hrun, hend, hinv⟩ :=
      width_reach _ inv hn hle hdvd (Nat.le_refl len.toNat) (fun i s => hbody n i s hn) h0
    exact ⟨r', by rw [widthLoop, if_pos hc, hrun], by rw [if_pos hc, hend], by rwa [hend]⟩
  · exact ⟨r, by rw [widthLoop, if_neg hc], by rw [if_neg hc], h0⟩

/-- From a position of zero the loops are a transfer. -/
theorem pciefTransferS_reach (access : Nat → U32 → σ → σ) {s : σ} (inv : Nat → σ → Prop)
    (htype : IsWidth type.toNat) (hstart : type = 8 ∨ i = 0)
    (hbody : ∀ n i s, IsWidth n → i.toNat + n ≤ len.toNat → inv i.toNat s →
      inv (i.toNat + n) (access n i s))
    (h0 : inv 0 s) :
    ∃ s', pciefTransferS access len type i s = some (len, s') ∧ inv len.toNat s' := by
  have hzero : (if type = 8 then 0 else i) = 0 := by
    obtain h | h := hstart
    · rw [if_pos h]
    · rw [h, ite_self]
  obtain ⟨r8, hrun8, hpos8, hinv8⟩ := widthLoop_reach (c := type = 8) (r := ((0 : U32), s)) inv
    (.inr (.inr (.inr rfl)) : IsWidth 8) (Nat.zero_le _) (Nat.dvd_zero 8) hbody h0
  have hat8 : r8.1.toNat = len.toNat / 8 * 8 ∨ r8.1.toNat = 0 := by
    rw [hpos8]
    exact (ite_eq_or_eq ..).imp id id
  obtain ⟨r4, hrun4, hpos4, hinv4⟩ := widthLoop_reach (c := type = 8 ∨ type = 4) inv
    (.inr (.inr (.inl rfl)) : IsWidth 4) (by omega) (by omega) hbody hinv8
  have hat4 : r4.1.toNat = len.toNat / 4 * 4 ∨ r4.1.toNat = r8.1.toNat := by
    rw [hpos4]
    exact (ite_eq_or_eq ..).imp id id
  obtain ⟨r2, hrun2, hpos2, hinv2⟩ := widthLoop_reach (c := type = 8 ∨ type = 4 ∨ type = 2) inv
    (.inr (.inl rfl) : IsWidth 2) (by omega) (by omega) hbody hinv4
  have hat2 : r2.1.toNat = len.toNat / 2 * 2 ∨ r2.1.toNat = r4.1.toNat := by
    rw [hpos2]
    exact (ite_eq_or_eq ..).imp id id
  obtain ⟨r1, hrun1, hpos1, hinv1⟩ :=
    widthLoop_reach (c := type = 8 ∨ type = 4 ∨ type = 2 ∨ type = 1) inv
      (.inl rfl : IsWidth 1) (by omega) (Nat.one_dvd _) hbody hinv2
  have hany : type = 8 ∨ type = 4 ∨ type = 2 ∨ type = 1 := by
    obtain h | h | h | h := htype
    · exact .inr (.inr (.inr (BitVec.eq_of_toNat_eq h)))
    · exact .inr (.inr (.inl (BitVec.eq_of_toNat_eq h)))
    · exact .inr (.inl (BitVec.eq_of_toNat_eq h))
    · exact .inl (BitVec.eq_of_toNat_eq h)
  rw [if_pos hany, Nat.div_one, Nat.mul_one] at hpos1
  have hend : r1.1 = len := BitVec.eq_of_toNat_eq hpos1
  refine ⟨r1.2, ?_, hpos1 ▸ hinv1⟩
  rw [pciefTransferS, hzero, hrun8, Option.bind_some, hrun4, Option.bind_some, hrun2,
    Option.bind_some, hrun1, ← hend]

/-- One loop, from anywhere. -/
theorem widthLoop_keeps {c : Prop} [Decidable c] {n : Nat} {r : U32 × σ} (inv : U32 → σ → Prop)
    (hn : IsWidth n)
    (hbody : ∀ n i s j, i.toNat < len.toNat → j.toNat = i.toNat + n → inv i s →
      inv j (access n i s))
    (h0 : inv r.1 r.2) : ∃ r', widthLoop c access len n r = some r' ∧ inv r'.1 r'.2 := by
  by_cases hc : c
  · have hbound := hn.toNat_bound len
    have hmul := Nat.div_mul_le_self len.toNat n
    have hfit : (len / BitVec.ofNat 32 n * BitVec.ofNat 32 n).toNat +
        (BitVec.ofNat 32 n).toNat ≤ 2 ^ 32 := by
      rw [hbound, hn.toNat_ofNat]
      exact hn.fits len
    obtain ⟨r', hrun, -, hinv⟩ := whileBelow_spec (access n) len.toNat inv
      (by rw [hn.toNat_ofNat]; exact hn.pos) hfit (fun i s hi hs => by
        have hlt : i.toNat < _ := hi
        refine hbody n i s _ (by omega) ?_ hs
        rw [toNat_add_step hfit hi, hn.toNat_ofNat])
      (by omega) h0
    exact ⟨r', by rw [widthLoop, if_pos hc, hrun], hinv⟩
  · exact ⟨r, by rw [widthLoop, if_neg hc], h0⟩

/-- From any position the loops end, and keep what their accesses keep. -/
theorem pciefTransferS_keeps (access : Nat → U32 → σ → σ) (len : U32) {s : σ}
    (inv : U32 → σ → Prop) (htype : type ≠ 8)
    (hbody : ∀ n i s j, i.toNat < len.toNat → j.toNat = i.toNat + n → inv i s →
      inv j (access n i s))
    (h0 : inv i s) : ∃ r, pciefTransferS access len type i s = some r ∧ inv r.1 r.2 := by
  obtain ⟨r4, hrun4, hinv4⟩ := widthLoop_keeps (c := type = 8 ∨ type = 4) (r := (i, s)) inv
    (.inr (.inr (.inl rfl)) : IsWidth 4) hbody h0
  obtain ⟨r2, hrun2, hinv2⟩ := widthLoop_keeps (c := type = 8 ∨ type = 4 ∨ type = 2) inv
    (.inr (.inl rfl) : IsWidth 2) hbody hinv4
  obtain ⟨r1, hrun1, hinv1⟩ :=
    widthLoop_keeps (c := type = 8 ∨ type = 4 ∨ type = 2 ∨ type = 1) inv
      (.inl rfl : IsWidth 1) hbody hinv2
  refine ⟨r1, ?_, hinv1⟩
  rw [pciefTransferS, if_neg htype, widthLoop, if_neg htype, Option.bind_some, hrun4,
    Option.bind_some, hrun2, Option.bind_some, hrun1]

/-- Without bytes the position does not matter. -/
theorem pciefTransferS_covers (access : Nat → U32 → σ → σ) {s : σ} (inv : Nat → σ → Prop)
    (htype : IsWidth type.toNat) (hstart : type = 8 ∨ len = 0 ∨ i = 0)
    (hbody : ∀ n i s, IsWidth n → i.toNat + n ≤ len.toNat → inv i.toNat s →
      inv (i.toNat + n) (access n i s))
    (h0 : inv 0 s) : ∃ r, pciefTransferS access len type i s = some r ∧ inv len.toNat r.2 := by
  by_cases hreach : type = 8 ∨ i = 0
  · obtain ⟨s', hrun, hinv⟩ := pciefTransferS_reach access inv htype hreach hbody h0
    exact ⟨_, hrun, hinv⟩
  · rw [not_or] at hreach
    obtain ⟨h8, hi⟩ := hreach
    obtain rfl : len = 0 := (hstart.resolve_left h8).resolve_right hi
    exact pciefTransferS_keeps access 0 (fun _ s => inv 0 s) h8
      (fun n i s j hlt _ _ => absurd hlt (Nat.not_lt_zero _)) h0

end Loops

/-! ## the bytes -/

variable {b : PciefBar} {offset : U64} {len type i : U32}

/-- `pcief_write_s` returns what `pcief_write` returns and leaves the same bytes. -/
def WriteAgrees (b : PciefBar) (offset : U64) (len type i : U32) (data : Mem) : Prop :=
  (pciefWriteS b offset len data type i).map (fun r => (r.1, r.2.mem)) =
    (pciefWrite b offset len data).map fun r => (r.1, r.2.mem)

/-- `pcief_read_s` returns what `pcief_read` returns and reads the same bytes. -/
def ReadAgrees (b : PciefBar) (offset : U64) (len type i : U32) (buf : Mem) : Prop :=
  (pciefReadS b offset len buf type i).map (fun r => (r.1, r.2.2)) =
    (pciefRead b offset len buf).map fun r => (r.1, r.2.2)

theorem writeS_agrees (htype : IsWidth type.toNat)
    (hin : offset.toNat + len.toNat ≤ b.barSize.toNat) (hlen : len.toNat < 0x80000000)
    (hstart : type = 8 ∨ len = 0 ∨ i = 0) (data : Mem) : WriteAgrees b offset len type i data := by
  have hsize := b.barSize.isLt
  obtain ⟨r, hrun, -, hmem⟩ := pciefTransferS_covers (pciefWriteAt offset data) (s := b)
    (b.Written offset data) htype hstart
    (fun n i s hn hi hs => written_step (by have := hn.pos; omega) (by have := hn.pos; omega) hs)
    ⟨rfl, (copy_zero ..).symm⟩
  obtain ⟨b'', hwrite, -, hmem'⟩ := pciefWrite_spec data hin hlen
  rw [WriteAgrees, hwrite, pciefWriteS, if_neg (not_not_intro (accepts_of_le hin)), hrun]
  simp only [Option.map_some, hmem, hmem']

theorem readS_agrees (htype : IsWidth type.toNat)
    (hin : offset.toNat + len.toNat ≤ b.barSize.toNat) (hlen : len.toNat < 0x80000000)
    (hstart : type = 8 ∨ len = 0 ∨ i = 0) (buf : Mem) : ReadAgrees b offset len type i buf := by
  have hsize := b.barSize.isLt
  obtain ⟨r, hrun, -, hdata⟩ := pciefTransferS_covers (pciefReadAt offset) (s := (b, buf))
    (b.ReadBack offset buf) htype hstart
    (fun n i s hn hi hs => readBack_step (by have := hn.pos; omega) (by have := hn.pos; omega) hs)
    ⟨rfl, (copy_zero ..).symm⟩
  obtain ⟨s', hread, -, hdata'⟩ := pciefRead_spec buf hin hlen
  rw [ReadAgrees, hread, pciefReadS, if_neg (not_not_intro (accepts_of_le hin)), hrun]
  simp only [Option.map_some, hdata, hdata']

/-- From a position that is not zero, no access is at the first byte of the BAR's range. -/
theorem writeS_first (hin : offset.toNat + len.toNat ≤ b.barSize.toNat)
    (hlen : len.toNat < 0x80000000) (htype : type ≠ 8) (hi : i ≠ 0) (data : Mem) :
    ∃ b', pciefWriteS b offset len data type i = some (0, b') ∧
      b'.mem offset.toNat = b.mem offset.toNat := by
  have hsize := b.barSize.isLt
  obtain ⟨r, hrun, -, hmem⟩ := pciefTransferS_keeps (pciefWriteAt offset data) len (s := b)
    (fun i b' => 0 < i.toNat ∧ b'.mem offset.toNat = b.mem offset.toNat) htype
    (fun n i s j hlt hj hs => by
      refine ⟨by omega, ?_⟩
      rw [pciefWriteAt_mem, barAt_toNat (by omega) (by omega),
        store_apply_of_not_mem _ _ (by omega), hs.2])
    ⟨BitVec.toNat_pos_of_ne_zero hi, rfl⟩
  exact ⟨r.2, by rw [pciefWriteS, if_neg (not_not_intro (accepts_of_le hin)), hrun]; rfl, hmem⟩

/-- From a position that is not zero, no access is at the first byte of the data. -/
theorem readS_first (hin : offset.toNat + len.toNat ≤ b.barSize.toNat)
    (hlen : len.toNat < 0x80000000) (htype : type ≠ 8) (hi : i ≠ 0) (buf : Mem) :
    ∃ s, pciefReadS b offset len buf type i = some (0, s) ∧ s.2 0 = buf 0 := by
  obtain ⟨r, hrun, -, hdata⟩ := pciefTransferS_keeps (pciefReadAt offset) len (s := (b, buf))
    (fun i s => 0 < i.toNat ∧ s.2 0 = buf 0) htype
    (fun n i s j hlt hj hs => by
      refine ⟨by omega, ?_⟩
      rw [pciefReadAt_data, dataAt_eq (by omega), store_apply_of_not_mem _ _ (by omega), hs.2])
    ⟨BitVec.toNat_pos_of_ne_zero hi, rfl⟩
  exact ⟨r.2, by rw [pciefReadS, if_neg (not_not_intro (accepts_of_le hin)), hrun]; rfl, hdata⟩

theorem add_one_ne_byte (x : BitVec 8) : x + 1 ≠ x := by bv_omega

/-- **Widths**: for a range in the BAR, `pcief_write_s` and `pcief_read_s` do what
`pcief_write` and `pcief_read` do exactly when the loop of eight bytes is run, there is
nothing to do, or the uninitialised position happens to be zero. -/
theorem width_agrees_iff (htype : IsWidth type.toNat)
    (hin : offset.toNat + len.toNat ≤ b.barSize.toNat) (hlen : len.toNat < 0x80000000) :
    ((∀ data, WriteAgrees b offset len type i data) ↔ type = 8 ∨ len = 0 ∨ i = 0) ∧
      ((∀ buf, ReadAgrees b offset len type i buf) ↔ type = 8 ∨ len = 0 ∨ i = 0) := by
  refine ⟨⟨fun h => ?_, writeS_agrees htype hin hlen⟩, ⟨fun h => ?_, readS_agrees htype hin hlen⟩⟩
  · by_contra! hno
    obtain ⟨h8, hne, hi⟩ := hno
    have hpos : 0 < len.toNat := BitVec.toNat_pos_of_ne_zero hne
    -- data whose first byte is not that of the BAR
    let data : Mem := fun _ => b.mem offset.toNat + 1
    obtain ⟨b', hrunS, hkept⟩ := writeS_first hin hlen h8 hi data
    obtain ⟨b'', hrun, -, hmem⟩ := pciefWrite_spec data hin hlen
    have hagree := h data
    rw [WriteAgrees, hrunS, hrun, Option.map_some, Option.map_some, Option.some.injEq,
      Prod.mk.injEq] at hagree
    have hbyte := congrFun hagree.2 offset.toNat
    rw [hkept, hmem, copy, if_pos (by omega)] at hbyte
    exact add_one_ne_byte _ hbyte.symm
  · by_contra! hno
    obtain ⟨h8, hne, hi⟩ := hno
    have hpos : 0 < len.toNat := BitVec.toNat_pos_of_ne_zero hne
    let buf : Mem := fun _ => b.mem offset.toNat + 1
    obtain ⟨s, hrunS, hkept⟩ := readS_first hin hlen h8 hi buf
    obtain ⟨s', hrun, -, hdata⟩ := pciefRead_spec buf hin hlen
    have hagree := h buf
    rw [ReadAgrees, hrunS, hrun, Option.map_some, Option.map_some, Option.some.injEq,
      Prod.mk.injEq] at hagree
    have hbyte := congrFun hagree.2 0
    rw [hkept, hdata, copy, if_pos (by omega), Nat.sub_self, Nat.add_zero] at hbyte
    exact add_one_ne_byte _ hbyte

/-- Seven bytes in accesses of two. -/
theorem width_agrees_iff_two :
    let b : PciefBar := ⟨0x1000, fun _ => 0, []⟩
    ((∀ data, WriteAgrees b 0x10 7 2 5 data) ↔ (2 : U32) = 8 ∨ (7 : U32) = 0 ∨ (5 : U32) = 0) ∧
      ((∀ buf, ReadAgrees b 0x10 7 2 5 buf) ↔ (2 : U32) = 8 ∨ (7 : U32) = 0 ∨ (5 : U32) = 0) :=
  width_agrees_iff (.inr (.inl rfl)) (by decide) (by decide)

/-- Four bytes in one access, with a position left at four: nothing is written or read. -/
theorem word_not_written :
    let b : PciefBar := ⟨0x1000, fun _ => 0, []⟩
    let data : Mem := fun _ => 0x5a
    (pciefWriteS b 0 4 data 4 4).map (fun r => r.2.mem 0) = some 0 ∧
      (pciefWrite b 0 4 data).map (fun r => r.2.mem 0) = some 0x5a ∧
      (pciefReadS b 0 4 data 4 4).map (fun r => r.2.2 0) = some 0x5a ∧
      (pciefRead b 0 4 data).map (fun r => r.2.2 0) = some 0 := by
  decide

end MtEmu
