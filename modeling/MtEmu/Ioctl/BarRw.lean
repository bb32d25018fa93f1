import MtEmu.Lib.Bytes
import MtEmu.Lib.Loop
import MtEmu.Bare.Desc

/-!
# MtEmu.Ioctl.BarRw

`MT_IOCTL_BAR_RW` (`mt-emu-ioctl.c`): a request reads or writes `size` bytes of a BAR
through 32-bit accesses, with a 16-bit and an 8-bit tail.

The loop runs while `i < size`, so it rounds the size up to words and leaves nothing
for the tails (`transfer_eq`).  `bar_rw_frame_iff` says what follows: the request stays
in its range exactly when the size is a multiple of four.
-/

namespace MtEmu

open Bytes

/-! ## requests -/

/-- `struct mt_emu_param`, the fields `mt_test_ioctl` reads. -/
structure MtEmuParam where
  b0 : BitVec 8
  b1 : BitVec 8
  d0 : U32
  l0 : U64

/-- `QY_MAX_RW`. -/
def qyMaxRw : Nat := 2 * 1024 * 1024

/-- `BAR_RD`. -/
def barRd : BitVec 8 := 1

/-- `EFAULT`. -/
def efault : Int := 14

/-- The outcomes of the calls a transfer makes: the buffer of `kmalloc` with what is in
it, the user's data if they can be read, and the bytes that the two `copy_to_user`
calls, of the parameters and of the data, leave uncopied. -/
structure CopyOutcome where
  kmalloc : Option Mem
  fromUser : Option Mem
  paramToUser : Nat
  dataToUser : Nat

/-- Every call succeeds. -/
def CopyOutcome.done (buf data : Mem) : CopyOutcome := ⟨some buf, some data, 0, 0⟩

/-! ## the transfer -/

variable {σ : Type}

/-- The loop over words and the two tails; `access len i` makes the access of `len` bytes
at `i`. -/
def transfer (access : Nat → Nat → σ → Option σ) (size : Nat) (s : σ) : Option σ :=
  let n := (size + 3) / 4
  let s := Loop.each n (fun k s => s.bind (access 4 (4 * k))) (some s)
  let i := 4 * n
  let (i, s) := if i + 2 ≤ size then (i + 2, s.bind (access 2 i)) else (i, s)
  if i < size then s.bind (access 1 i) else s

/-- Byte `i` of the request in the window. -/
def barOff (offset : U64) (i : Nat) : Nat := (offset + BitVec.ofNat 64 i).toNat

/-- `readl`, `readw` and `readb` into the buffer. -/
def barReadAt (offset : U64) (len i : Nat) (s : Window × Mem) : Option (Window × Mem) :=
  (s.1.read (barOff offset i) len).map fun r => (r.2, store s.2 i len r.1)

/-- `writel`, `writew` and `writeb` from the buffer. -/
def barWriteAt (offset : U64) (data : Mem) (len i : Nat) (w : Window) : Option Window :=
  w.write (barOff offset i) len (load data i len)

/-- What a request leaves: the result, the BARs, and what was copied to the user, the
parameters and the data. -/
structure BarRwResult where
  ret : Int
  region : BitVec 8 → Window
  param : Option MtEmuParam
  toUser : Option (List (BitVec 8))

/-- A request that ends early. -/
def BarRwResult.error (region : BitVec 8 → Window) : BarRwResult := ⟨-efault, region, none, none⟩

/-- The result of the two copies to the user; the second is made if the first succeeds. -/
def CopyOutcome.ret (o : CopyOutcome) : Nat :=
  if o.paramToUser = 0 then o.dataToUser else o.paramToUser

/-- `MT_IOCTL_BAR_RW`; `none` when an access faults. -/
def barRw (region : BitVec 8 → Window) (p : MtEmuParam) (o : CopyOutcome) : Option BarRwResult :=
  if p.b0 ≠ 0 ∧ p.b0 ≠ 2 then some (.error region)
  else if p.d0 = 0 ∨ p.d0.toNat > qyMaxRw then some (.error region)
  else
    match o.kmalloc with
    | none => some (.error region)
    | some buf =>
        if barRd = p.b1 then
          (transfer (barReadAt p.l0) p.d0.toNat (region p.b0, buf)).map fun s =>
            ⟨o.ret, Function.update region p.b0 s.1, if o.paramToUser = 0 then some p else none,
              if o.ret = 0 then some (slice s.2 0 p.d0.toNat) else none⟩
        else
          match o.fromUser with
          | none => some (.error region)
          | some data =>
              (transfer (barWriteAt p.l0 data) p.d0.toNat (region p.b0)).map fun w =>
                ⟨0, Function.update region p.b0 w, none, none⟩

/-! ## the loop and the tails -/

/-- The loop is all of the transfer. -/
theorem transfer_eq (access : Nat → Nat → σ → Option σ) (size : Nat) (s : σ) :
    transfer access size s =
      Loop.each ((size + 3) / 4) (fun k s => s.bind (access 4 (4 * k))) (some s) := by
  have hword : ¬4 * ((size + 3) / 4) + 2 ≤ size := by omega
  have hbyte : ¬4 * ((size + 3) / 4) < size := by omega
  simp only [transfer, if_neg hword, if_neg hbyte]

/-- The accesses of `n` words from `a` on. -/
def wordAccesses (a n : Nat) : List Extent := (List.range n).map fun k => ⟨a + 4 * k, 4⟩

theorem wordAccesses_succ (a n : Nat) :
    wordAccesses a (n + 1) = wordAccesses a n ++ [⟨a + 4 * n, 4⟩] := by
  simp [wordAccesses, List.range_succ]

theorem barOff_eq {offset : U64} {i : Nat} (h : offset.toNat + i < 0x10000000000000000) :
    barOff offset i = offset.toNat + i := by
  rw [barOff, BitVec.toNat_add, BitVec.toNat_ofNat]
  omega

/-- The words before the last one all lie in the window. -/
theorem barOff_word {offset : U64} {w : Window} {size k : Nat}
    (hin : offset.toNat + size ≤ w.size.toNat) (hk : k < (size + 3) / 4) :
    barOff offset (4 * k) = offset.toNat + 4 * k := by
  have := w.size.isLt
  exact barOff_eq (by omega)

/-- `n` words of a read: they are in the buffer, and the window is as it was. -/
theorem read_words {offset : U64} {w : Window} {buf : Mem} {n size : Nat} {s : Window × Mem}
    (hin : offset.toNat + size ≤ w.size.toNat) (hn : n ≤ (size + 3) / 4)
    (h : Loop.each n (fun k s => s.bind (barReadAt offset 4 (4 * k))) (some (w, buf)) = some s) :
    s = (⟨w.size, w.mem, w.log ++ wordAccesses offset.toNat n⟩,
      copy w.mem offset.toNat buf 0 (4 * n)) := by
  induction n generalizing s with
  | zero =>
      rw [← Option.some.inj h]
      simp [wordAccesses]
  | succ n ih =>
      obtain ⟨t, ht, hs⟩ := Option.bind_eq_some_iff.mp h
      obtain rfl := ih (Nat.le_of_succ_le hn) ht
      simp only [barReadAt, Window.read, barOff_word hin hn] at hs
      split at hs
      · simp only [Option.map_some, Option.some.injEq] at hs
        rw [← hs, wordAccesses_succ, List.append_assoc, store_load]
        have := copy_append w.mem offset.toNat buf 0 (4 * n) 4
        rw [Nat.zero_add] at this
        rw [Nat.mul_succ, this]
      · contradiction

/-- `n` words of a write: they are in the window. -/
theorem write_words {offset : U64} {w : Window} {data : Mem} {n size : Nat} {w' : Window}
    (hin : offset.toNat + size ≤ w.size.toNat) (hn : n ≤ (size + 3) / 4)
    (h : Loop.each n (fun k s => s.bind (barWriteAt offset data 4 (4 * k))) (some w) = some w') :
    w' = ⟨w.size, copy data 0 w.mem offset.toNat (4 * n),
      w.log ++ wordAccesses offset.toNat n⟩ := by
  induction n generalizing w' with
  | zero =>
      rw [← Option.some.inj h]
      simp [wordAccesses]
  | succ n ih =>
      obtain ⟨t, ht, hs⟩ := Option.bind_eq_some_iff.mp h
      obtain rfl := ih (Nat.le_of_succ_le hn) ht
      simp only [barWriteAt, Window.write, barOff_word hin hn] at hs
      split at hs
      · rw [← Option.some.inj hs, wordAccesses_succ, List.append_assoc, store_load]
        have := copy_append data 0 w.mem offset.toNat (4 * n) 4
        rw [Nat.zero_add] at this
        rw [Nat.mul_succ, this]
      · contradiction

/-- A read of whole words does not fault. -/
theorem read_words_some {offset : U64} {w : Window} (buf : Mem) {n : Nat}
    (hin : offset.toNat + 4 * n ≤ w.size.toNat) :
    ∃ s, Loop.each n (fun k s => s.bind (barReadAt offset 4 (4 * k))) (some (w, buf)) =
      some s := by
  suffices h : ∃ s, Loop.each n (fun k s => s.bind (barReadAt offset 4 (4 * k)))
      (some (w, buf)) = some s ∧ s.1.size = w.size from h.imp fun s hs => hs.1
  refine Loop.each_spec (fun _ s => ∃ t : Window × Mem, s = some t ∧ t.1.size = w.size) ?_ ⟨_, rfl, rfl⟩
  rintro k _ hk ⟨t, rfl, hsize⟩
  have hword : barOff offset (4 * k) + 4 ≤ t.1.size.toNat := by
    rw [hsize, barOff_word hin (by omega)]
    omega
  rw [Option.bind_some, barReadAt, Window.read_inside hword, Option.map_some]
  exact ⟨_, rfl, hsize⟩

/-- A write of whole words does not fault. -/
theorem write_words_some {offset : U64} {w : Window} (data : Mem) {n : Nat}
    (hin : offset.toNat + 4 * n ≤ w.size.toNat) :
    ∃ w', Loop.each n (fun k s => s.bind (barWriteAt offset data 4 (4 * k))) (some w) =
      some w' := by
  suffices h : ∃ w', Loop.each n (fun k s => s.bind (barWriteAt offset data 4 (4 * k)))
      (some w) = some w' ∧ w'.size = w.size from h.imp fun w' hw => hw.1
  refine Loop.each_spec (fun _ s => ∃ t : Window, s = some t ∧ t.size = w.size) ?_ ⟨_, rfl, rfl⟩
  rintro k _ hk ⟨t, rfl, hsize⟩
  have hword : barOff offset (4 * k) + 4 ≤ t.size.toNat := by
    rw [hsize, barOff_word hin (by omega)]
    omega
  rw [Option.bind_some, barWriteAt, Window.write_inside _ hword]
  exact ⟨_, rfl, hsize⟩

/-- The words of a request lie in its range exactly when the size is a multiple of four. -/
theorem wordAccesses_within (a : Nat) {size : Nat} :
    (∀ x ∈ wordAccesses a ((size + 3) / 4), x.Within a size) ↔ size % 4 = 0 := by
  constructor
  · intro h
    by_cases h0 : size = 0
    · rw [h0]
    · -- the last word ends at the size rounded up
      have hlast := h ⟨a + 4 * ((size + 3) / 4 - 1), 4⟩
        (List.mem_map.mpr ⟨(size + 3) / 4 - 1, List.mem_range.mpr (by omega), rfl⟩)
      have hend := hlast.2
      dsimp only at hend
      omega
  · intro h x hx
    obtain ⟨k, hk, rfl⟩ := List.mem_map.mp hx
    have hlt := List.mem_range.mp hk
    exact ⟨Nat.le_add_right a _, by dsimp only; omega⟩

/-! ## the frame of a request -/

/-- A request of the kind the ioctl admits, for a range inside the BAR. -/
structure BarRwAdmitted (region : BitVec 8 → Window) (p : MtEmuParam) : Prop where
  bar : p.b0 = 0 ∨ p.b0 = 2
  pos : 1 ≤ p.d0.toNat
  le : p.d0.toNat ≤ qyMaxRw
  inside : p.l0.toNat + p.d0.toNat ≤ (region p.b0).size.toNat

/-- A request succeeds and stays in its range: a read returns the bytes of the range and
leaves the BAR as it is, a write sets them to the user's and no others; no access leaves
the range, and the other BARs are not touched. -/
def BarRwFramed (region : BitVec 8 → Window) (p : MtEmuParam) (buf data : Mem) : Prop :=
  ∃ r accesses, barRw region p (.done buf data) = some r ∧ r.ret = 0 ∧
    (∀ bar, bar ≠ p.b0 → r.region bar = region bar) ∧
    (r.region p.b0).log = (region p.b0).log ++ accesses ∧
    (∀ x ∈ accesses, x.Within p.l0.toNat p.d0.toNat) ∧
    if barRd = p.b1 then
      (r.region p.b0).mem = (region p.b0).mem ∧
        r.toUser = some (slice (region p.b0).mem p.l0.toNat p.d0.toNat)
    else (r.region p.b0).mem = copy data 0 (region p.b0).mem p.l0.toNat p.d0.toNat

variable {region : BitVec 8 → Window} {p : MtEmuParam}

/-- The checks let an admitted request pass. -/
theorem BarRwAdmitted.checks (h : BarRwAdmitted region p) :
    ¬(p.b0 ≠ 0 ∧ p.b0 ≠ 2) ∧ ¬(p.d0 = 0 ∨ p.d0.toNat > qyMaxRw) := by
  refine ⟨fun ⟨h0, h2⟩ => h.bar.elim h0 h2, fun hbad => ?_⟩
  rcases hbad with h0 | hbig
  · have := h.pos
    rw [h0] at this
    exact absurd this (by decide)
  · exact absurd h.le (Nat.not_le_of_lt hbig)

/-- **Frame of `MT_IOCTL_BAR_RW`**: an admitted request stays in its range exactly when
its size is a multiple of four. -/
theorem bar_rw_frame_iff (h : BarRwAdmitted region p) (buf data : Mem) :
    BarRwFramed region p buf data ↔ p.d0.toNat % 4 = 0 := by
  obtain ⟨hbar, hsize⟩ := h.checks
  rw [BarRwFramed, barRw, if_neg hbar, if_neg hsize]
  simp only [CopyOutcome.done, transfer_eq]
  by_cases hrd : barRd = p.b1
  · simp only [if_pos hrd, CopyOutcome.ret, ↓reduceIte, Option.map_eq_some_iff]
    constructor
    · rintro ⟨r, accesses, ⟨s, hs, rfl⟩, -, -, hlog, hin, -⟩
      obtain rfl := read_words h.inside (Nat.le_refl _) hs
      simp only [Function.update_self, List.append_cancel_left_eq] at hlog
      exact (wordAccesses_within _).mp (hlog ▸ hin)
    · intro h4
      have hn : 4 * ((p.d0.toNat + 3) / 4) = p.d0.toNat := by omega
      obtain ⟨s, hs⟩ := read_words_some buf (hn.symm ▸ h.inside)
      refine ⟨_, wordAccesses p.l0.toNat ((p.d0.toNat + 3) / 4), ⟨s, hs, rfl⟩, rfl, ?_, ?_,
        (wordAccesses_within _).mpr h4, ?_⟩
      · exact fun bar hne => Function.update_of_ne hne _ _
      all_goals obtain rfl := read_words h.inside (Nat.le_refl _) hs
      · simp only [Function.update_self]
      · simp only [Function.update_self, hn, slice_copy, and_self]
  · simp only [if_neg hrd, Option.map_eq_some_iff]
    constructor
    · rintro ⟨r, accesses, ⟨w', hw, rfl⟩, -, -, hlog, hin, -⟩
      obtain rfl := write_words h.inside (Nat.le_refl _) hw
      simp only [Function.update_self, List.append_cancel_left_eq] at hlog
      exact (wordAccesses_within _).mp (hlog ▸ hin)
    · intro h4
      have hn : 4 * ((p.d0.toNat + 3) / 4) = p.d0.toNat := by omega
      obtain ⟨w', hw⟩ := write_words_some data (hn.symm ▸ h.inside)
      refine ⟨_, wordAccesses p.l0.toNat ((p.d0.toNat + 3) / 4), ⟨w', hw, rfl⟩, rfl, ?_, ?_,
        (wordAccesses_within _).mpr h4, ?_⟩
      · exact fun bar hne => Function.update_of_ne hne _ _
      all_goals obtain rfl := write_words h.inside (Nat.le_refl _) hw
      · simp only [Function.update_self]
      · simp only [Function.update_self, hn]

/-- BARs of 4096 bytes. -/
def someBars : BitVec 8 → Window := fun _ => ⟨4096, fun _ => 0, []⟩

/-- Two words at offset 8 of BAR 0. -/
theorem bar_rw_frame_words :
    BarRwFramed someBars ⟨0, 1, 8, 8⟩ (fun _ => 0) (fun _ => 0xff) :=
  (bar_rw_frame_iff ⟨.inl rfl, by decide, by decide, by decide⟩ _ _).mpr (by decide)

/-- A write of one byte at offset 0 of BAR 0 sets the three bytes behind it as well. -/
theorem bar_rw_overruns : BarRwAdmitted someBars ⟨0, 0, 1, 0⟩ ∧
    ¬BarRwFramed someBars ⟨0, 0, 1, 0⟩ (fun _ => 0) (fun _ => 0xff) := by
  refine ⟨⟨.inl rfl, by decide, by decide, by decide⟩, ?_⟩
  rintro ⟨r, accesses, hr, -, -, -, -, hmem⟩
  have hbyte : (barRw someBars ⟨0, 0, 1, 0⟩ (.done (fun _ => 0) fun _ => 0xff)).map
      (fun r => (r.region 0).mem 1) = some 0xff := by decide
  rw [hr, Option.map_some, Option.some.injEq] at hbyte
  rw [if_neg (by decide)] at hmem
  exact absurd (hbyte.symm.trans (congrFun hmem 1)) (by decide)

end MtEmu
