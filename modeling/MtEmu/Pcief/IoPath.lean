import MtEmu.Pcief.Bar
import MtEmu.Pcief.IoSplit

/-!
# MtEmu.Pcief.IoPath

The two ways to a BAR: `pcief_io_write` and `pcief_io_read` with their requests answered by
`MT_IOCTL_BAR_RW` of the driver, and `pcief_write` and `pcief_read` through the mapping.

The driver rounds a request up to words (`MtEmu.Ioctl.BarRw`), and `QY_MAX_RW` is a multiple of
four, so only the last request of a transfer goes past its end.  A write then leaves what is
behind the user's bytes in the kernel's buffer on the BAR, and a read is right as long as the
last word is inside the BAR (`io_paths_agree_iff`).

The split into requests is that of `MtEmu.Pcief.IoSplit`, for the answers that the driver
gives; here each answer is computed from the BARs as the request before it left them.
-/

namespace MtEmu

open Bytes Copy Loop

/-! ## one request -/

/-- The BARs of a function, by their number, as the driver has them mapped. -/
abbrev Bars := BitVec 8 → Window

/-- Only the bytes that are copied matter. -/
theorem copy_congr {src src' : Mem} {a a' : Nat} {dst : Mem} {b n : Nat}
    (h : ∀ k < n, src (a + k) = src' (a' + k)) : copy src a dst b n = copy src' a' dst b n := by
  funext c
  unfold copy
  split
  · next hc => exact h _ (by omega)
  · rfl

/-- The window with `n` bytes written from `a` on, in words: up to three bytes more. -/
def wroteWords (w : Window) (data : Mem) (a n : Nat) : Window :=
  ⟨w.size, copy data 0 w.mem a (4 * ((n + 3) / 4)), w.log ++ wordAccesses a ((n + 3) / 4)⟩

/-- The window with `n` bytes read from `a` on, in words. -/
def readWords (w : Window) (a n : Nat) : Window :=
  ⟨w.size, w.mem, w.log ++ wordAccesses a ((n + 3) / 4)⟩

theorem wordAccesses_add (a m n : Nat) :
    wordAccesses a (m + n) = wordAccesses a m ++ wordAccesses (a + 4 * m) n := by
  simp only [wordAccesses, List.range_add, List.map_append, List.map_map]
  congr 1
  refine List.map_congr_left fun k _ => ?_
  rw [Function.comp_apply, Nat.mul_add, Nat.add_assoc]

/-- Whole words and what is written behind them are one longer write: no bytes are rounded in
between. -/
theorem wroteWords_add (w : Window) {data data' : Mem} {a m n : Nat} (hm : m % 4 = 0)
    (hdata : ∀ k < 4 * ((n + 3) / 4), data' k = data (m + k)) :
    wroteWords (wroteWords w data a m) data' (a + m) n = wroteWords w data a (m + n) := by
  have hwords : (m + n + 3) / 4 = (m + 3) / 4 + (n + 3) / 4 := by omega
  have hbytes : 4 * ((m + 3) / 4) = m := by omega
  have hmem : copy data' 0 (copy data 0 w.mem a m) (a + m) (4 * ((n + 3) / 4)) =
      copy data 0 w.mem a (m + 4 * ((n + 3) / 4)) := by
    rw [← copy_append, Nat.zero_add]
    exact copy_congr fun k hk => by rw [Nat.zero_add, hdata k hk]
  unfold wroteWords
  simp only [hwords, wordAccesses_add, Nat.mul_add, hbytes, List.append_assoc, hmem]

theorem readWords_add (w : Window) {a m : Nat} (hm : m % 4 = 0) (n : Nat) :
    readWords (readWords w a m) (a + m) n = readWords w a (m + n) := by
  have hwords : (m + n + 3) / 4 = (m + 3) / 4 + (n + 3) / 4 := by omega
  have hbytes : 4 * ((m + 3) / 4) = m := by omega
  unfold readWords
  rw [hwords, wordAccesses_add, hbytes, List.append_assoc]

/-- A read of words that does not fault stays in the window, the last word included. -/
theorem inside_of_read_words {offset : U64} {w : Window} {buf : Mem} {n size : Nat}
    {s : Window × Mem} (hin : offset.toNat + size ≤ w.size.toNat) (hn : n ≤ (size + 3) / 4)
    (h : Loop.each n (fun k s => s.bind (barReadAt offset 4 (4 * k))) (some (w, buf)) = some s) :
    offset.toNat + 4 * n ≤ w.size.toNat ∨ n = 0 := by
  cases n with
  | zero => exact .inr rfl
  | succ n =>
      obtain ⟨t, ht, hs⟩ := Option.bind_eq_some_iff.mp h
      obtain rfl := read_words hin (Nat.le_of_succ_le hn) ht
      simp only [barReadAt, Window.read, barOff_word hin hn] at hs
      split at hs
      · next hle => exact .inl (by omega)
      · contradiction

/-- A write of words that does not fault stays in the window. -/
theorem inside_of_write_words {offset : U64} {w : Window} {data : Mem} {n size : Nat} {w' : Window}
    (hin : offset.toNat + size ≤ w.size.toNat) (hn : n ≤ (size + 3) / 4)
    (h : Loop.each n (fun k s => s.bind (barWriteAt offset data 4 (4 * k))) (some w) = some w') :
    offset.toNat + 4 * n ≤ w.size.toNat ∨ n = 0 := by
  cases n with
  | zero => exact .inr rfl
  | succ n =>
      obtain ⟨t, ht, hs⟩ := Option.bind_eq_some_iff.mp h
      obtain rfl := write_words hin (Nat.le_of_succ_le hn) ht
      simp only [barWriteAt, Window.write, barOff_word hin hn] at hs
      split at hs
      · next hle => exact .inl (by omega)
      · contradiction

section Request

variable {region : Bars} {p : MtEmuParam}

/-- The last word of a request is inside the BAR. -/
def WordsFit (region : Bars) (p : MtEmuParam) : Prop :=
  p.l0.toNat + 4 * ((p.d0.toNat + 3) / 4) ≤ (region p.b0).size.toNat

instance (region : Bars) (p : MtEmuParam) : Decidable (WordsFit region p) :=
  inferInstanceAs (Decidable (_ ≤ _))

/-- A write request that the driver admits is carried out in words, or faults at the end of
the BAR. -/
theorem barRw_write (h : BarRwAdmitted region p) (hwr : barRd ≠ p.b1) (buf data : Mem) :
    barRw region p (.done buf data) = if WordsFit region p then
      some ⟨0, Function.update region p.b0
        (wroteWords (region p.b0) data p.l0.toNat p.d0.toNat), none, none⟩ else none := by
  obtain ⟨hbar, hsize⟩ := h.checks
  have hpos := h.pos
  rw [barRw, if_neg hbar, if_neg hsize]
  simp only [CopyOutcome.done, transfer_eq, if_neg hwr]
  by_cases hfit : WordsFit region p
  · obtain ⟨w', hw⟩ := write_words_some data hfit
    rw [if_pos hfit, hw, write_words h.inside le_rfl hw]
    rfl
  · rw [if_neg hfit, Option.map_eq_none_iff]
    refine Option.eq_none_iff_forall_ne_some.mpr fun w' hw => ?_
    obtain hin | hzero := inside_of_write_words h.inside le_rfl hw
    · exact hfit hin
    · omega

/-- A read request that the driver admits, in the same way. -/
theorem barRw_read (h : BarRwAdmitted region p) (hrd : barRd = p.b1) (buf data : Mem) :
    barRw region p (.done buf data) = if WordsFit region p then
      some ⟨0, Function.update region p.b0 (readWords (region p.b0) p.l0.toNat p.d0.toNat), some p,
        some (slice (region p.b0).mem p.l0.toNat p.d0.toNat)⟩ else none := by
  obtain ⟨hbar, hsize⟩ := h.checks
  have hpos := h.pos
  rw [barRw, if_neg hbar, if_neg hsize]
  simp only [CopyOutcome.done, transfer_eq, if_pos hrd]
  by_cases hfit : WordsFit region p
  · obtain ⟨s, hs⟩ := read_words_some buf hfit
    rw [if_pos hfit, hs, read_words h.inside le_rfl hs]
    have hslice : slice (copy (region p.b0).mem p.l0.toNat buf 0 (4 * ((p.d0.toNat + 3) / 4))) 0
        p.d0.toNat = slice (region p.b0).mem p.l0.toNat p.d0.toNat :=
      List.map_congr_left fun k hk => by
        have := List.mem_range.mp hk
        rw [copy, if_pos (by omega), Nat.zero_add, Nat.sub_zero]
    simp only [CopyOutcome.ret, ↓reduceIte, Option.map_some, hslice]
    rfl
  · rw [if_neg hfit, Option.map_eq_none_iff]
    refine Option.eq_none_iff_forall_ne_some.mpr fun s hs => ?_
    obtain hin | hzero := inside_of_read_words h.inside le_rfl hs
    · exact hfit hin
    · omega

end Request

/-! ## the library over the driver -/

/-- The driver's answer to a request: the result, the BARs, `none` after an access that faults,
and the bytes for the user. -/
def driverRw (bars : Option Bars) (p : MtEmuParam) (buf data : Mem) :
    Int × Option Bars × List (BitVec 8) :=
  match bars.bind fun region => barRw region p (.done buf data) with
  | some r => (r.ret, some r.region, r.toUser.getD [])
  | none => (-efault, none, [])

/-- The answer to a write request. -/
theorem driverRw_write {region : Bars} {p : MtEmuParam} (h : BarRwAdmitted region p)
    (hwr : barRd ≠ p.b1) (buf data : Mem) :
    driverRw (some region) p buf data = if WordsFit region p then
      (0, some (Function.update region p.b0
        (wroteWords (region p.b0) data p.l0.toNat p.d0.toNat)), []) else (-efault, none, []) := by
  rw [driverRw, Option.bind_some, barRw_write h hwr]
  by_cases hfit : WordsFit region p
  · rw [if_pos hfit, if_pos hfit]
    rfl
  · rw [if_neg hfit, if_neg hfit]

/-- The answer to a read request. -/
theorem driverRw_read {region : Bars} {p : MtEmuParam} (h : BarRwAdmitted region p)
    (hrd : barRd = p.b1) (buf data : Mem) :
    driverRw (some region) p buf data = if WordsFit region p then
      (0, some (Function.update region p.b0 (readWords (region p.b0) p.l0.toNat p.d0.toNat)),
        slice (region p.b0).mem p.l0.toNat p.d0.toNat) else (-efault, none, []) := by
  rw [driverRw, Option.bind_some, barRw_read h hrd]
  by_cases hfit : WordsFit region p
  · rw [if_pos hfit, if_pos hfit]
    rfl
  · rw [if_neg hfit, if_neg hfit]

/-- What `copy_from_user` leaves in the kernel's buffer: the user's bytes, and behind them what
`kmalloc` found there. -/
def IoReq.buffer (q : IoReq) (junk : Mem) (data : Int → BitVec 8) : Mem := fun k =>
  if k < q.param.d0.toNat then data (q.pos + k) else junk k

/-- A round of `pcief_io_write`; `junk n` is what `kmalloc` finds for request `n`. -/
def ioWriteBarRound (junk : Nat → Mem) (bar : BitVec 8) (offset : U64) (len : U32)
    (data : Int → BitVec 8) (n : Nat) (s : Option Bars × List (MtEmuParam × List (BitVec 8))) :
    Int × Option Bars × List (MtEmuParam × List (BitVec 8)) :=
  let q := ioReq bar barWr offset len n
  let a := driverRw s.1 q.param (junk n) (q.buffer (junk n) data)
  let r := ioWriteRound (fun _ => a.1) bar offset len data n s.2
  (r.1, a.2.1, r.2)

/-- `pcief_io_write` with its ioctls. -/
def pciefIoWriteBar (junk : Nat → Mem) (ret : Int) (bar : BitVec 8) (offset : U64) (len : U32)
    (data : Int → BitVec 8) (bars : Bars) :
    Int × Option Bars × List (MtEmuParam × List (BitVec 8)) :=
  untilFail (ioWriteBarRound junk bar offset len data) (ioCount len) 0 (ret, some bars, [])

/-- A round of `pcief_io_read`, in which the answer's bytes are copied to the user. -/
def ioReadBarRound (junk : Nat → Mem) (bar : BitVec 8) (offset : U64) (len : U32)
    (n : Nat) (s : Option Bars × List MtEmuParam × (Int → BitVec 8)) :
    Int × Option Bars × List MtEmuParam × (Int → BitVec 8) :=
  let q := ioReq bar barRd offset len n
  let a := driverRw s.1 q.param (junk n) (junk n)
  let r := ioReadRound (fun _ => a.1) (fun _ k => a.2.2.getD k 0) bar offset len n s.2
  (r.1, a.2.1, r.2)

/-- `pcief_io_read` with its ioctls. -/
def pciefIoReadBar (junk : Nat → Mem) (ret : Int) (bar : BitVec 8) (offset : U64) (len : U32)
    (data : Int → BitVec 8) (bars : Bars) :
    Int × Option Bars × List MtEmuParam × (Int → BitVec 8) :=
  untilFail (ioReadBarRound junk bar offset len) (ioCount len) 0 (ret, some bars, [], data)

section Answers

variable {α σ τ : Type} {b : Nat → σ × τ → Int × σ × τ} {c : (Nat → α) → Nat → τ → Int × τ}

/-- Loops whose rounds agree from `k` on agree from round `k` on. -/
theorem untilFail_congr {ρ : Type} {f g : Nat → ρ → Int × ρ} {n k : Nat} (r : Int × ρ)
    (h : ∀ j ≥ k, f j = g j) : untilFail f n k r = untilFail g n k r := by
  induction n generalizing k r with
  | zero => rfl
  | succ n ih =>
      rw [untilFail, untilFail, h k le_rfl]
      split
      · exact ih _ fun j hj => h j (Nat.le_of_succ_le hj)
      · rfl

/-- A loop whose answers come from a state of its own is the loop for the answers it gets. -/
theorem untilFail_answers (hlocal : ∀ f g k, f k = g k → c f k = c g k)
    (h : ∀ k s, ∃ a, ∀ f, f k = a → c f k s.2 = ((b k s).1, (b k s).2.2))
    [Inhabited α] (n k : Nat) (r : Int × σ × τ) :
    ∃ f, untilFail (c f) n k (r.1, r.2.2) = ((untilFail b n k r).1, (untilFail b n k r).2.2) := by
  induction n generalizing k r with
  | zero => exact ⟨fun _ => default, rfl⟩
  | succ n ih =>
      obtain ⟨a, ha⟩ := h k r.2
      obtain ⟨f, hf⟩ := ih (k + 1) (b k r.2)
      have hthis := ha (Function.update f k a) (Function.update_self ..)
      have hlater : ∀ j ≥ k + 1, c (Function.update f k a) j = c f j := fun j hj =>
        hlocal _ _ j (Function.update_of_ne (by omega) _ _)
      refine ⟨Function.update f k a, ?_⟩
      rw [untilFail, untilFail, hthis]
      by_cases h0 : (b k r.2).1 = 0
      · rw [if_pos h0, if_pos h0, untilFail_congr _ hlater, hf]
      · rw [if_neg h0, if_neg h0]

end Answers

/-- These are runs of `pcief_io_write`, for the ioctls that the driver answers. -/
theorem pciefIoWriteBar_calls (junk : Nat → Mem) (ret : Int) (bar : BitVec 8) (offset : U64)
    (len : U32) (data : Int → BitVec 8) (bars : Bars) :
    ∃ ioctl, pciefIoWrite ioctl ret bar offset len data =
      ((pciefIoWriteBar junk ret bar offset len data bars).1,
        (pciefIoWriteBar junk ret bar offset len data bars).2.2) :=
  untilFail_answers (c := fun ioctl => ioWriteRound ioctl bar offset len data)
    (fun f g k hfg => by funext s; rw [ioWriteRound, ioWriteRound, hfg])
    (fun k s => ⟨_, fun f hf => by rw [ioWriteRound, hf]; rfl⟩) (ioCount len) 0 (ret, some bars, [])

/-- And of `pcief_io_read`, whose ioctls return the data. -/
theorem pciefIoReadBar_calls (junk : Nat → Mem) (ret : Int) (bar : BitVec 8) (offset : U64)
    (len : U32) (data : Int → BitVec 8) (bars : Bars) :
    ∃ ioctl bufRd, pciefIoRead ioctl bufRd ret bar offset len data =
      ((pciefIoReadBar junk ret bar offset len data bars).1,
        (pciefIoReadBar junk ret bar offset len data bars).2.2) := by
  obtain ⟨f, hf⟩ := untilFail_answers
    (c := fun (f : Nat → Int × Mem) =>
      ioReadRound (fun k => (f k).1) (fun k => (f k).2) bar offset len)
    (b := ioReadBarRound junk bar offset len)
    (fun f g k hfg => by funext s; simp only [ioReadRound, hfg])
    (fun k s => ⟨((driverRw s.1 (ioReq bar barRd offset len k).param (junk k) (junk k)).1,
      fun j => (driverRw s.1 (ioReq bar barRd offset len k).param (junk k) (junk k)).2.2.getD j 0),
      fun f hf => by simp only [ioReadRound, ioReadBarRound, hf]⟩)
    (ioCount len) 0 (ret, some bars, [], data)
  exact ⟨fun k => (f k).1, fun k => (f k).2, hf⟩

/-! ## what a transfer leaves -/

section Transfers

variable {bar : BitVec 8} {offset : U64} {len : U32} {bars : Bars} {junk : Nat → Mem}

/-- How far the first `n` requests get: `QY_MAX_RW` bytes each, and the last one what is
left. -/
def ioDone (len : U32) (n : Nat) : Nat := min len.toNat (n * 0x200000)

/-- The last word of the first `n` requests is inside the BAR. -/
def IoFits (w : Window) (offset : U64) (len : U32) (n : Nat) : Prop :=
  offset.toNat + 4 * ((ioDone len n + 3) / 4) ≤ w.size.toNat

instance (w : Window) (offset : U64) (len : U32) (n : Nat) : Decidable (IoFits w offset len n) :=
  inferInstanceAs (Decidable (_ ≤ _))

/-- What the driver writes: the user's bytes, and what the last request has behind them. -/
def ioWritten (junk : Nat → Mem) (data : Mem) (len : U32) : Mem := fun k =>
  if k < len.toNat then data k
  else junk (ioCount len - 1) (k - (ioCount len - 1) * 0x200000)

/-- A transfer of at least one byte inside BAR 0 or BAR 2, of a length that is not negative as
an `int`. -/
structure IoInside (bars : Bars) (bar : BitVec 8) (offset : U64) (len : U32) : Prop where
  admitted : bar = 0 ∨ bar = 2
  pos : len ≠ 0
  short : len.toNat < 0x80000000
  inside : offset.toNat + len.toNat ≤ (bars bar).size.toNat

theorem IoInside.count (h : IoInside bars bar offset len) :
    ioCount len = (len.toNat - 1) / 0x200000 + 1 :=
  ioCount_of_le h.pos (by have := h.short; omega)

/-- Request `n` is one that the driver admits, at its place in the range. -/
theorem IoInside.request (h : IoInside bars bar offset len) (op : BitVec 8) {n : Nat}
    (hn : n < ioCount len) :
    let q := ioReq bar op offset len n
    q.param.d0.toNat = ioDone len (n + 1) - ioDone len n ∧
      q.param.l0.toNat = offset.toNat + ioDone len n ∧ q.pos = (ioDone len n : Nat) ∧
      ioDone len n = n * 0x200000 ∧ ioDone len n < ioDone len (n + 1) ∧
      ioDone len (n + 1) ≤ len.toNat ∧
      ∀ region : Bars, (region bar).size = (bars bar).size → BarRwAdmitted region q.param := by
  have hpos : 0 < len.toNat := BitVec.toNat_pos_of_ne_zero h.pos
  have hshort := h.short
  have hinside := h.inside
  have hsize := (bars bar).size.isLt
  have hqy : qyMaxRw = 0x200000 := rfl
  rw [h.count] at hn
  have hin : n * 0x200000 < len.toNat := by omega
  have hd := @ioReq_size bar op offset len n hin
  have hl := @ioReq_offset bar op offset len n (by omega)
  rw [if_pos (by omega)] at hl
  have hp := @ioReq_pos bar op offset len n (by omega)
  have hdone : ioDone len n = n * 0x200000 := by
    rw [ioDone]
    omega
  have hnext : ioDone len (n + 1) = min len.toNat (n * 0x200000 + 0x200000) := by
    rw [ioDone, Nat.succ_mul]
  rw [hdone, hnext]
  refine ⟨by rw [hd]; omega, by rw [hl]; omega, hp, rfl, by omega, Nat.min_le_left _ _,
    fun region hregion => ⟨h.admitted, by rw [hd]; omega, by rw [hd, hqy]; omega, ?_⟩⟩
  show _ ≤ (region bar).size.toNat
  rw [hregion, hl, hd]
  omega

@[simp] theorem wroteWords_zero (w : Window) (data : Mem) (a : Nat) :
    wroteWords w data a 0 = w := by
  simp [wroteWords, wordAccesses]

@[simp] theorem readWords_zero (w : Window) (a : Nat) : readWords w a 0 = w := by
  simp [readWords, wordAccesses]

@[simp] theorem ioDone_zero (len : U32) : ioDone len 0 = 0 := by simp [ioDone]

/-- The BARs after the first `n` requests of a write. -/
def ioWroteBars (bars : Bars) (junk : Nat → Mem) (bar : BitVec 8) (offset : U64) (len : U32)
    (data : Mem) (n : Nat) : Bars :=
  Function.update bars bar
    (wroteWords (bars bar) (ioWritten junk data len) offset.toNat (ioDone len n))

/-- Request `n` of a write: when its last word fits the BARs go on by it, and else the access
faults. -/
theorem ioWriteBarRound_eq (h : IoInside bars bar offset len) (data : Mem) {n : Nat}
    (hn : n < ioCount len) :
    ioWriteBarRound junk bar offset len (fun x => data x.toNat) n
        (some (ioWroteBars bars junk bar offset len data n),
          ioSent bar offset len (fun x => data x.toNat) n) =
      (if IoFits (bars bar) offset len (n + 1) then 0 else -efault,
        if IoFits (bars bar) offset len (n + 1) then
          some (ioWroteBars bars junk bar offset len data (n + 1)) else none,
        ioSent bar offset len (fun x => data x.toNat) (n + 1)) := by
  obtain ⟨hd, hl, hp, hstart, hlt, hle, hadm⟩ := h.request barWr hn
  have hcount := h.count
  have hself : ioWroteBars bars junk bar offset len data n bar =
      wroteWords (bars bar) (ioWritten junk data len) offset.toNat (ioDone len n) :=
    Function.update_self ..
  have hadm := hadm (ioWroteBars bars junk bar offset len data n) (by rw [hself]; rfl)
  have hfit : WordsFit (ioWroteBars bars junk bar offset len data n)
      (ioReq bar barWr offset len n).param ↔ IoFits (bars bar) offset len (n + 1) := by
    rw [WordsFit, IoFits, hd, hl, show (ioReq bar barWr offset len n).param.b0 = bar from rfl,
      hself]
    show _ ≤ (bars bar).size.toNat ↔ _
    omega
  have hwords : wroteWords (wroteWords (bars bar) (ioWritten junk data len) offset.toNat
        (ioDone len n)) ((ioReq bar barWr offset len n).buffer (junk n) fun x => data x.toNat)
        (offset.toNat + ioDone len n) (ioDone len (n + 1) - ioDone len n) =
      wroteWords (bars bar) (ioWritten junk data len) offset.toNat (ioDone len (n + 1)) := by
    rw [wroteWords_add (m := ioDone len n) _ (by omega) fun k hk => ?_, Nat.add_sub_cancel' hlt.le]
    rw [IoReq.buffer, ioWritten, hd, hp]
    by_cases hin : k < ioDone len (n + 1) - ioDone len n
    · rw [if_pos hin, if_pos (by omega), ← Nat.cast_add, Int.toNat_natCast]
    · -- only the last request has bytes behind it
      have hlast : ioDone len (n + 1) = len.toNat ∧ n = ioCount len - 1 := by
        unfold ioDone at *
        omega
      rw [if_neg hin, if_neg (by omega), ← hlast.2, ← hstart, Nat.add_sub_cancel_left]
  have hsent := @ioWriteRound_sent bar offset len
    (fun _ => if IoFits (bars bar) offset len (n + 1) then 0 else -efault)
    (fun x => data x.toNat) n hn
  have hdriver := driverRw_write hadm (show barRd ≠ barWr by decide) (junk n)
    ((ioReq bar barWr offset len n).buffer (junk n) fun x => data x.toNat)
  rw [show (ioReq bar barWr offset len n).param.b0 = bar from rfl, hself, hd, hl, hwords] at hdriver
  by_cases hin : IoFits (bars bar) offset len (n + 1)
  · rw [if_pos (hfit.mpr hin)] at hdriver
    simp only [if_pos hin] at hsent
    rw [ioWriteBarRound, hdriver, if_pos hin, if_pos hin, hsent]
    simp only [ioWroteBars, Function.update_idem]
  · rw [if_neg (mt hfit.mp hin)] at hdriver
    simp only [if_neg hin] at hsent
    rw [ioWriteBarRound, hdriver, if_neg hin, if_neg hin, hsent]

/-- The requests in front of the last one fit: their lengths are multiples of four, inside the
range. -/
theorem IoInside.fits (h : IoInside bars bar offset len) {n : Nat} (hn : n + 1 < ioCount len) :
    IoFits (bars bar) offset len (n + 1) := by
  obtain ⟨-, -, -, hstart, hlt, hle, -⟩ := h.request barWr hn
  have hinside := h.inside
  unfold IoFits
  omega

/-- All of them are the transfer: together they get to its end. -/
theorem IoInside.done_all (h : IoInside bars bar offset len) :
    ioDone len (ioCount len) = len.toNat := by
  have hpos : 0 < len.toNat := BitVec.toNat_pos_of_ne_zero h.pos
  have hcount := h.count
  unfold ioDone
  omega

/-- They all fit if the last word of the transfer is inside the BAR. -/
theorem IoInside.fits_iff (h : IoInside bars bar offset len) :
    IoFits (bars bar) offset len (ioCount len) ↔
      offset.toNat + 4 * ((len.toNat + 3) / 4) ≤ (bars bar).size.toNat := by
  rw [IoFits, h.done_all]

/-- A loop over the requests, of which only the last can fail, is done with all of them or has
failed in the last. -/
theorem IoInside.untilFail_eq {σ : Type} (h : IoInside bars bar offset len)
    (round : Nat → σ → Int × σ) (st left : Nat → σ) (ret : Int)
    (hround : ∀ n < ioCount len, round n (st n) =
      (if IoFits (bars bar) offset len (n + 1) then 0 else -efault,
        if IoFits (bars bar) offset len (n + 1) then st (n + 1) else left n)) :
    untilFail round (ioCount len) 0 (ret, st 0) =
      if IoFits (bars bar) offset len (ioCount len) then (0, st (ioCount len))
      else (-efault, left (ioCount len - 1)) := by
  have hcount := h.count
  obtain ⟨hall, hfirst⟩ := @untilFail_spec _ round st (ioCount len) ret
    (fun n => if IoFits (bars bar) offset len (n + 1) then 0 else -efault) left fun n hn => by
      rw [hround n hn]
      by_cases hin : IoFits (bars bar) offset len (n + 1)
      · simp only [if_pos hin, if_pos]
      · simp only [if_neg hin, if_neg (show -efault ≠ 0 by decide)]
  by_cases hin : IoFits (bars bar) offset len (ioCount len)
  · rw [if_pos hin, hall fun n hn => ?_, if_neg (by omega)]
    obtain hlast | hlt := (show n + 1 ≤ ioCount len from hn).eq_or_lt
    · rw [hlast, if_pos hin]
    · exact if_pos (h.fits hlt)
  · have hlast : ioCount len - 1 + 1 = ioCount len := by omega
    rw [if_neg hin, hfirst (ioCount len - 1) (by omega) (fun n hn => if_pos (h.fits (by omega))),
      hlast, if_neg hin]
    rw [hlast, if_neg hin]
    decide

/-- A write through the driver: its result, and what it leaves on the BAR behind the range. -/
theorem pciefIoWriteBar_eq (h : IoInside bars bar offset len) (ret : Int) (data : Mem) :
    pciefIoWriteBar junk ret bar offset len (fun x => data x.toNat) bars =
      if IoFits (bars bar) offset len (ioCount len) then
        (0, some (ioWroteBars bars junk bar offset len data (ioCount len)),
          ioSent bar offset len (fun x => data x.toNat) (ioCount len))
      else (-efault, none,
        ioSent bar offset len (fun x => data x.toNat) (ioCount len - 1 + 1)) := by
  have hrun := h.untilFail_eq (ioWriteBarRound junk bar offset len fun x => data x.toNat)
    (fun n => (some (ioWroteBars bars junk bar offset len data n),
      ioSent bar offset len (fun x => data x.toNat) n))
    (fun n => (none, ioSent bar offset len (fun x => data x.toNat) (n + 1))) ret
    fun n hn => by
      rw [ioWriteBarRound_eq h data hn]
      split <;> rfl
  have hfirst : ioWroteBars bars junk bar offset len data 0 = bars := by
    rw [ioWroteBars, ioDone_zero, wroteWords_zero, Function.update_eq_self]
  rw [← hrun, hfirst]
  rfl

/-- The BARs after the first `n` requests of a read. -/
def ioReadBars (bars : Bars) (bar : BitVec 8) (offset : U64) (len : U32) (n : Nat) : Bars :=
  Function.update bars bar (readWords (bars bar) offset.toNat (ioDone len n))

/-- And the user's data, filled as far as the requests got. -/
def ioReadData (mem : Mem) (offset : U64) (len : U32) (data : Int → BitVec 8) (n : Nat) :
    Int → BitVec 8 :=
  fun x => if 0 ≤ x ∧ x < ioDone len n then mem (offset.toNat + x.toNat) else data x

theorem getD_slice (m : Mem) (a : Nat) {n k : Nat} (hk : k < n) :
    (slice m a n).getD k 0 = m (a + k) := by
  rw [slice, List.getD, List.getElem?_map, List.getElem?_range hk]
  rfl

/-- Request `n` of a read, when its last word fits and when it does not. -/
theorem ioReadBarRound_eq (h : IoInside bars bar offset len) (data : Int → BitVec 8) {n : Nat}
    (hn : n < ioCount len) :
    ioReadBarRound junk bar offset len n
        (some (ioReadBars bars bar offset len n),
          ((ioReqs bar barRd offset len).take n).map IoReq.param,
          ioReadData (bars bar).mem offset len data n) =
      (if IoFits (bars bar) offset len (n + 1) then 0 else -efault,
        if IoFits (bars bar) offset len (n + 1) then
          some (ioReadBars bars bar offset len (n + 1)) else none,
        ((ioReqs bar barRd offset len).take (n + 1)).map IoReq.param,
        ioReadData (bars bar).mem offset len data
          (if IoFits (bars bar) offset len (n + 1) then n + 1 else n)) := by
  obtain ⟨hd, hl, hp, hstart, hlt, hle, hadm⟩ := h.request barRd hn
  have hcount := h.count
  have hself : ioReadBars bars bar offset len n bar =
      readWords (bars bar) offset.toNat (ioDone len n) := Function.update_self ..
  have hadm := hadm (ioReadBars bars bar offset len n) (by rw [hself]; rfl)
  have hfit : WordsFit (ioReadBars bars bar offset len n)
      (ioReq bar barRd offset len n).param ↔ IoFits (bars bar) offset len (n + 1) := by
    rw [WordsFit, IoFits, hd, hl, show (ioReq bar barRd offset len n).param.b0 = bar from rfl,
      hself]
    show _ ≤ (bars bar).size.toNat ↔ _
    omega
  have hwords := readWords_add (bars bar) (a := offset.toNat) (m := ioDone len n) (by omega)
    (ioDone len (n + 1) - ioDone len n)
  rw [Nat.add_sub_cancel' hlt.le] at hwords
  have hparams : ((ioReqs bar barRd offset len).take (n + 1)).map IoReq.param =
      ((ioReqs bar barRd offset len).take n).map IoReq.param ++
        [(ioReq bar barRd offset len n).param] := by
    rw [take_ioReqs hn, take_ioReqs (Nat.le_of_succ_le hn), List.range_succ, List.map_append,
      List.map_append]
    rfl
  have hfill : (ioReq bar barRd offset len n).fill
        (fun k => (slice (readWords (bars bar) offset.toNat (ioDone len n)).mem
          (offset.toNat + ioDone len n) (ioDone len (n + 1) - ioDone len n)).getD k 0)
        (ioReadData (bars bar).mem offset len data n) =
      ioReadData (bars bar).mem offset len data (n + 1) := by
    funext x
    simp only [IoReq.fill, ioReadData, hd, hp]
    by_cases hx : (ioDone len n : ℤ) ≤ x ∧
        x < (ioDone len n : ℤ) + (ioDone len (n + 1) - ioDone len n : ℕ)
    · have hk : (x - ioDone len n).toNat < ioDone len (n + 1) - ioDone len n := by omega
      rw [if_pos hx, if_pos (by omega), getD_slice _ _ hk]
      exact congrArg (bars bar).mem (by omega)
    · rw [if_neg hx]
      by_cases hx' : 0 ≤ x ∧ x < ioDone len n
      · rw [if_pos hx', if_pos (by omega)]
      · rw [if_neg hx', if_neg (by omega)]
  have hdriver := driverRw_read hadm rfl (junk n) (junk n)
  rw [show (ioReq bar barRd offset len n).param.b0 = bar from rfl, hself, hd, hl, hwords] at hdriver
  by_cases hin : IoFits (bars bar) offset len (n + 1)
  · rw [if_pos (hfit.mpr hin)] at hdriver
    rw [ioReadBarRound, hdriver, if_pos hin, if_pos hin, if_pos hin, hparams, ← hfill]
    simp only [ioReadRound, ioReadBars, Function.update_idem, ne_eq, not_true_eq_false, if_false]
  · rw [if_neg (mt hfit.mp hin)] at hdriver
    rw [ioReadBarRound, hdriver, if_neg hin, if_neg hin, if_neg hin, hparams]
    simp only [ioReadRound, ne_eq, show ¬-efault = 0 by decide, not_false_eq_true, if_true]

/-- A read through the driver: its result, the data, and BARs that are as before. -/
theorem pciefIoReadBar_eq (h : IoInside bars bar offset len) (ret : Int) (data : Int → BitVec 8) :
    pciefIoReadBar junk ret bar offset len data bars =
      if IoFits (bars bar) offset len (ioCount len) then
        (0, some (ioReadBars bars bar offset len (ioCount len)),
          ((ioReqs bar barRd offset len).take (ioCount len)).map IoReq.param,
          ioReadData (bars bar).mem offset len data (ioCount len))
      else (-efault, none,
        ((ioReqs bar barRd offset len).take (ioCount len - 1 + 1)).map IoReq.param,
        ioReadData (bars bar).mem offset len data (ioCount len - 1)) := by
  have hrun := h.untilFail_eq (ioReadBarRound junk bar offset len)
    (fun n => (some (ioReadBars bars bar offset len n),
      ((ioReqs bar barRd offset len).take n).map IoReq.param,
      ioReadData (bars bar).mem offset len data n))
    (fun n => (none, ((ioReqs bar barRd offset len).take (n + 1)).map IoReq.param,
      ioReadData (bars bar).mem offset len data n)) ret
    fun n hn => by
      rw [ioReadBarRound_eq h data hn]
      split <;> rfl
  have hfirst : ioReadBars bars bar offset len 0 = bars := by
    rw [ioReadBars, ioDone_zero, readWords_zero, Function.update_eq_self]
  have hdata : ioReadData (bars bar).mem offset len data 0 = data := by
    funext x
    rw [ioReadData, ioDone_zero]
    exact if_neg (by omega)
  rw [← hrun, hfirst, hdata]
  rfl

end Transfers

/-! ## the two paths -/

/-- The mapping of a BAR that the library's other path uses: the same bytes and the same
size. -/
def mappedBar (w : Window) : PciefBar := ⟨w.size, w.mem, []⟩

/-- A write through the driver does what it does through the mapping, and nothing else. -/
def IoWriteAgrees (bars : Bars) (bar : BitVec 8) (offset : U64) (len : U32) (data : Mem) : Prop :=
  ∀ junk ret, ∃ bars' calls b,
    pciefIoWriteBar junk ret bar offset len (fun x => data x.toNat) bars =
        (0, some bars', calls) ∧
      pciefWrite (mappedBar (bars bar)) offset len data = some (0, b) ∧
      (bars' bar).mem = b.mem ∧ ∀ other, other ≠ bar → bars' other = bars other

/-- A read through the driver gives what it gives through the mapping, and changes nothing. -/
def IoReadAgrees (bars : Bars) (bar : BitVec 8) (offset : U64) (len : U32) (data : Mem) : Prop :=
  ∀ junk ret, ∃ bars' params data' s,
    pciefIoReadBar junk ret bar offset len (fun x => data x.toNat) bars =
        (0, some bars', params, data') ∧
      pciefRead (mappedBar (bars bar)) offset len data = some (0, s) ∧
      (∀ k : Nat, data' k = s.2 k) ∧ (bars' bar).mem = (bars bar).mem ∧
      ∀ other, other ≠ bar → bars' other = bars other

section Paths

variable {bars : Bars} {bar : BitVec 8} {offset : U64} {len : U32}

theorem ioWriteAgrees_iff (h : IoInside bars bar offset len) (data : Mem) :
    IoWriteAgrees bars bar offset len data ↔ len.toNat % 4 = 0 := by
  obtain ⟨b, hwrite, -, hmem⟩ := pciefWrite_spec (b := mappedBar (bars bar)) data h.inside
    h.short
  have hbars : ∀ junk, (ioWroteBars bars junk bar offset len data (ioCount len) bar).mem =
      copy (ioWritten junk data len) 0 (bars bar).mem offset.toNat (4 * ((len.toNat + 3) / 4)) :=
    fun junk => by rw [ioWroteBars, Function.update_self, wroteWords, h.done_all]
  constructor
  · intro hagrees
    by_contra hodd
    -- the byte behind the range, with something else in the kernel's buffer
    obtain ⟨bars', calls, b', hrun, hwrite', hbyte, -⟩ :=
      hagrees (fun _ _ => (bars bar).mem (offset.toNat + len.toNat) + 1) 0
    obtain rfl : b = b' := congrArg Prod.snd (Option.some.inj (hwrite.symm.trans hwrite'))
    rw [pciefIoWriteBar_eq h] at hrun
    split at hrun
    · obtain rfl := Option.some.inj (congrArg (fun r => r.2.1) hrun)
      rw [hbars, hmem] at hbyte
      replace hbyte := congrFun hbyte (offset.toNat + len.toNat)
      rw [copy, if_pos (by omega), copy, if_neg (by omega), ioWritten, if_neg (by omega)] at hbyte
      have hne : ∀ x : BitVec 8, x + 1 ≠ x := by decide
      exact hne _ hbyte
    · exact absurd (congrArg Prod.fst hrun) (show -efault ≠ 0 by decide)
  · intro h4 junk ret
    have hfits := h.fits_iff.mpr (by have := h.inside; omega)
    refine ⟨_, _, b, by rw [pciefIoWriteBar_eq h, if_pos hfits], hwrite, ?_,
      fun other hne => Function.update_of_ne hne _ _⟩
    rw [hbars, hmem, show 4 * ((len.toNat + 3) / 4) = len.toNat by omega]
    exact copy_congr fun k hk => if_pos (by rwa [Nat.zero_add])

theorem ioReadAgrees_iff (h : IoInside bars bar offset len) (data : Mem) :
    IoReadAgrees bars bar offset len data ↔
      offset.toNat + 4 * ((len.toNat + 3) / 4) ≤ (bars bar).size.toNat := by
  obtain ⟨s, hread, -, hdata⟩ := pciefRead_spec (b := mappedBar (bars bar)) data h.inside
    h.short
  rw [← h.fits_iff]
  constructor
  · intro hagrees
    obtain ⟨bars', params, data', s', hrun, -⟩ := hagrees (fun _ _ => 0) 0
    by_contra hout
    rw [pciefIoReadBar_eq h, if_neg hout] at hrun
    exact absurd (congrArg Prod.fst hrun) (show -efault ≠ 0 by decide)
  · intro hfits junk ret
    refine ⟨_, _, _, s, by rw [pciefIoReadBar_eq h, if_pos hfits], hread, fun k => ?_, ?_,
      fun other hne => Function.update_of_ne hne _ _⟩
    · rw [hdata, ioReadData, h.done_all, copy]
      by_cases hk : k < len.toNat
      · rw [if_pos (by omega), if_pos (by omega), Int.toNat_natCast, Nat.sub_zero]
        rfl
      · rw [if_neg (by omega), if_neg (by omega), Int.toNat_natCast]
    · rw [ioReadBars, Function.update_self]
      rfl

/-- **Two paths**: for a range inside a BAR, a write through the driver is the write through the
mapping exactly when its length is a multiple of four, and a read is the read through the mapping
exactly when the length rounded up still ends inside the BAR. -/
theorem io_paths_agree_iff (h : IoInside bars bar offset len) (data : Mem) :
    (IoWriteAgrees bars bar offset len data ↔ len.toNat % 4 = 0) ∧
      (IoReadAgrees bars bar offset len data ↔
        offset.toNat + 4 * ((len.toNat + 3) / 4) ≤ (bars bar).size.toNat) :=
  ⟨ioWriteAgrees_iff h data, ioReadAgrees_iff h data⟩

/-- Up to the end of a BAR whose size is odd: neither agrees with the mapping. -/
theorem io_paths_differ :
    let bars : Bars := fun _ => ⟨0x600005, fun _ => 0, []⟩
    ¬IoWriteAgrees bars 2 2 0x600003 (fun _ => 1) ∧ ¬IoReadAgrees bars 2 2 0x600003 fun _ => 1 := by
  intro bars
  have h : IoInside bars 2 2 0x600003 := ⟨.inr rfl, by decide, by decide, by decide⟩
  obtain ⟨hwrite, hread⟩ := io_paths_agree_iff h fun _ => 1
  exact ⟨mt hwrite.mp (by decide), mt hread.mp (by decide)⟩

end Paths

end MtEmu
