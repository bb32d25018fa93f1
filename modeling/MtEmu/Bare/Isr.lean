import MtEmu.Bare.Desc
import Mathlib.Logic.Function.Iterate

/-!
# MtEmu.Bare.Isr

The interrupt path of the bare DMA: `emu_dma_isr` (`mt-emu-ioctl.c`) and
`dma_bare_isr` (`mt-emu-mtdma-bare.c`).

The merged status says which side has a pending channel, the C32/C64 words
which channels; `emu_dma_isr` looks at bit 0 of a pending channel's status
and calls `dma_bare_isr`, which sets `int_error`, clears the raw status and
completes `int_done`.  On a virtual function there is one channel a side and
no merged status.

`emuDmaIsr_ch` says what one interrupt does to one channel.  `dma_bare_isr`
is called for channels whose done bit is set only, and for those it clears
`int_error`: an error is never reported (`error_never_reported`).
-/

namespace MtEmu

/-! ## one channel -/

/-- `DMA_CH_INTR_BIT_DONE`. -/
def intrDone : U32 := 0b1

/-- `DMA_CH_INTR_BIT_ERR_DATA`, `_DESC_READ`, `_CFG` and `_DUMMY_READ`. -/
def intrErr : U32 := 0b11110

/-- The done bit is bit 0. -/
theorem done_ne_zero_iff (val : U32) : val &&& intrDone ≠ 0 ↔ val[0] = true := by
  constructor
  · intro h
    by_contra hbit
    apply h
    apply BitVec.eq_of_getElem_eq
    intro i hi
    cases i with
    | zero => simp_all
    | succ i => simp [intrDone]
  · intro hbit h
    have h0 : (val &&& intrDone)[0] = false := by rw [h]; rfl
    rw [BitVec.getElem_and, hbit] at h0
    contradiction

/-- The interrupt side of `struct dma_bare_ch`: the channel's raw status and
mask, the count of the completion `int_done`, and `int_error`. -/
structure BareCh where
  intrRaw : U32
  intrImsk : U32
  intDone : Nat
  intError : U32
  deriving DecidableEq, Inhabited

namespace BareCh

/-- `REG_DMA_CH_INTR_STATUS`. -/
def intrStatus (ch : BareCh) : U32 := ch.intrRaw &&& ~~~ch.intrImsk

/-- A channel whose status is not zero sets its merge bit. -/
def pending (ch : BareCh) : Bool := ch.intrStatus ≠ 0

/-- `dma_bare_isr`: the channel afterwards and the return value. -/
def dmaBareIsr (ch : BareCh) : BareCh × Int :=
  let val := ch.intrRaw
  let intError :=
    if val &&& intrDone ≠ 0 then 0
    else if val &&& intrErr ≠ 0 then 1
    else ch.intError
  -- the raw status is cleared by writing ones
  ({ ch with
      intError := intError, intrRaw := ch.intrRaw &&& ~~~val, intDone := ch.intDone + 1 },
    if intError ≠ 0 then -1 else 0)

/-- What `dma_bare_xfer` returns when its wait ends: 0 for a timeout, else 2
or 1 by `int_error`. -/
def waitResult (ch : BareCh) : Nat :=
  if ch.intDone = 0 then 0 else if ch.intError ≠ 0 then 2 else 1

/-- The channel as an interrupt leaves it: `dma_bare_isr` is called when bit 0
of the status is set. -/
def serve (ch : BareCh) : BareCh :=
  if ch.intrStatus &&& 1 = 1 then ch.dmaBareIsr.1 else ch

/-- A channel that `emu_dma_isr` serves has its done bit up. -/
theorem done_of_status (ch : BareCh) (h : ch.intrStatus &&& 1 = 1) :
    ch.intrRaw &&& intrDone ≠ 0 := by
  rw [done_ne_zero_iff]
  have h0 : (ch.intrStatus &&& 1)[0] = true := by rw [h]; rfl
  simp [intrStatus] at h0
  exact h0.1

end BareCh

/-! ## the dispatch -/

/-- `rd_ch` and `wr_ch`. -/
inductive Side where
  | rd
  | wr
  deriving DecidableEq

/-- What `emu_dma_isr` sees of a function: its number, its channels and the
mask of the merged interrupt. -/
structure EmuPcie where
  devfn : Int
  rdCh : Nat → BareCh
  wrCh : Nat → BareCh
  mrgImsk : U32

/-- `PCIE_DMA_CH_NUM`. -/
def pcieDmaChNum : Nat := 64

/-- A channel of a function. -/
def EmuPcie.ch (s : EmuPcie) : Side → Nat → BareCh
  | .rd => s.rdCh
  | .wr => s.wrCh

/-- The channels of a side whose merge bits are set. -/
def mergeSts (chs : Nat → BareCh) (i : Nat) : Bool := i < pcieDmaChNum && (chs i).pending

/-- `REG_DMA_COMM_MRG_PF0_STS`: bit 0 for the read side, bit 16 for the write
side. -/
def EmuPcie.mrgSts (s : EmuPcie) : U32 :=
  (if (List.range pcieDmaChNum).any (mergeSts s.rdCh) then 0x1 else 0) |||
    (if (List.range pcieDmaChNum).any (mergeSts s.wrCh) then 0x10000 else 0)

/-- The loop over the channels of one side; `sts` was read before it. -/
def serveAll (sts : Nat → Bool) (chs : Nat → BareCh) : Nat → (Nat → BareCh)
  | 0 => chs
  | n + 1 =>
      let chs' := serveAll sts chs n
      if sts n then Function.update chs' n (chs' n).serve else chs'

/-- `emu_dma_isr`. -/
def emuDmaIsr (s : EmuPcie) : EmuPcie :=
  if 0 ≤ s.devfn ∧ s.devfn < 2 then
    if s.mrgSts &&& 0x1 ≠ 0 then
      { s with
        rdCh := serveAll (mergeSts s.rdCh) s.rdCh pcieDmaChNum
        -- bit 0 of the mask is set before the loop and cleared after it
        mrgImsk := (s.mrgImsk ||| 0x1) &&& ~~~0x1 }
    else if s.mrgSts &&& 0x10000 ≠ 0 then
      { s with
        wrCh := serveAll (mergeSts s.wrCh) s.wrCh pcieDmaChNum
        mrgImsk := (s.mrgImsk ||| 0x10000) &&& ~~~0x10000 }
    else s
  else if 2 ≤ s.devfn then
    { s with
      rdCh := Function.update s.rdCh 0 (s.rdCh 0).serve
      wrCh := Function.update s.wrCh 0 (s.wrCh 0).serve }
  else s

/-! ## what one interrupt does -/

/-- The loop serves each channel once, if its bit was read as set. -/
theorem serveAll_apply (sts : Nat → Bool) (chs : Nat → BareCh) (n i : Nat) :
    serveAll sts chs n i = if i < n ∧ sts i then (chs i).serve else chs i := by
  induction n with
  | zero => simp [serveAll]
  | succ n ih =>
      unfold serveAll
      by_cases hi : i = n
      · subst hi
        have hkeep : serveAll sts chs i i = chs i := by rw [ih, if_neg (by simp)]
        cases hs : sts i with
        | true => simp [hkeep]
        | false => simp [hkeep]
      · have hlt : i < n + 1 ↔ i < n := by omega
        cases hs : sts n with
        | true => simp [ih, hi, hlt]
        | false => simp [ih, hlt]

/-- A channel without a status is left alone. -/
theorem serve_of_not_pending {ch : BareCh} (h : ch.pending = false) : ch.serve = ch := by
  have hst : ch.intrStatus = 0 := by simpa [BareCh.pending] using h
  unfold BareCh.serve
  rw [hst, if_neg (by decide)]

/-- The pending channels that an interrupt takes up: all of one side, the read
side first, or those of a virtual function. -/
def EmuPcie.takenUp (s : EmuPcie) : List (Side × Nat) :=
  if 0 ≤ s.devfn ∧ s.devfn < 2 then
    if s.mrgSts &&& 0x1 ≠ 0 then
      ((List.range pcieDmaChNum).filter (mergeSts s.rdCh)).map fun i => (.rd, i)
    else if s.mrgSts &&& 0x10000 ≠ 0 then
      ((List.range pcieDmaChNum).filter (mergeSts s.wrCh)).map fun i => (.wr, i)
    else []
  else if 2 ≤ s.devfn then [(.rd, 0), (.wr, 0)].filter fun c => (s.ch c.1 c.2).pending
  else []

/-- On a virtual function the first channel of a side is served, if at all. -/
theorem update_serve (chs : Nat → BareCh) (i : Nat) :
    Function.update chs 0 (chs 0).serve i =
      if i = 0 ∧ (chs i).pending = true then (chs i).serve else chs i := by
  by_cases hi : i = 0
  · subst hi
    cases hp : (chs 0).pending with
    | true => simp
    | false => simp [serve_of_not_pending hp]
  · simp [hi]

/-- **One interrupt**: the channels that it takes up are served, and no other
channel is touched. -/
theorem emuDmaIsr_ch_eq (s : EmuPcie) (side : Side) (i : Nat) :
    (emuDmaIsr s).ch side i =
      if (side, i) ∈ s.takenUp then (s.ch side i).serve else s.ch side i := by
  unfold emuDmaIsr EmuPcie.takenUp
  split
  · split
    · cases side with
      | rd => simp [EmuPcie.ch, serveAll_apply]
      | wr => simp [EmuPcie.ch]
    · split
      · cases side with
        | rd => simp [EmuPcie.ch]
        | wr => simp [EmuPcie.ch, serveAll_apply]
      · simp
  · split
    · cases side with
      | rd => simp [EmuPcie.ch, update_serve]
      | wr => simp [EmuPcie.ch, update_serve]
    · simp

/-- One interrupt, one channel: it is served once or left alone. -/
theorem emuDmaIsr_ch (s : EmuPcie) (side : Side) (i : Nat) :
    (emuDmaIsr s).ch side i = (s.ch side i).serve ∨ (emuDmaIsr s).ch side i = s.ch side i := by
  rw [emuDmaIsr_ch_eq]
  split
  · exact .inl rfl
  · exact .inr rfl

/-- A channel that is served has its done bit set, and its error is cleared. -/
theorem serve_eq (ch : BareCh) : ch.serve = ch ∨
    (ch.serve.intError = 0 ∧ ch.serve.intDone = ch.intDone + 1 ∧ ch.serve.intrRaw = 0) := by
  unfold BareCh.serve
  split
  · next h =>
      have hdone := ch.done_of_status h
      right
      simp only [BareCh.dmaBareIsr, if_pos hdone]
      simp
  · exact .inl rfl

/-! ## no error is reported -/

/-- No error is waiting to be reported to a caller. -/
def BareCh.NoError (ch : BareCh) : Prop := ch.intDone = 0 ∨ ch.intError = 0

theorem noError_serve {ch : BareCh} (h : ch.NoError) : ch.serve.NoError := by
  rcases serve_eq ch with heq | ⟨herr, _⟩
  · rw [heq]; exact h
  · exact .inr herr

/-- One interrupt reports no error. -/
theorem noError_emuDmaIsr {s : EmuPcie} {side : Side} {i : Nat} (h : (s.ch side i).NoError) :
    ((emuDmaIsr s).ch side i).NoError := by
  rcases emuDmaIsr_ch s side i with heq | heq
  · rw [heq]; exact noError_serve h
  · rw [heq]; exact h

/-- Nor does any number of interrupts. -/
theorem noError_iterate {s : EmuPcie} {side : Side} {i : Nat} (h : (s.ch side i).NoError) (n : Nat) :
    ((emuDmaIsr^[n] s).ch side i).NoError := by
  induction n with
  | zero => exact h
  | succ n ih =>
      rw [Function.iterate_succ_apply']
      exact noError_emuDmaIsr ih

/-- The caller on a channel is told of an error and the status is cleared. -/
def BareCh.ErrorReported (ch : BareCh) : Prop := ch.waitResult = 2 ∧ ch.intrRaw = 0

/-- **Errors are not reported**: whatever a channel's raw status holds, error
bits with the done bit or without it, no number of interrupts makes the
caller that waits on the channel return 2. -/
theorem error_never_reported {s : EmuPcie} {side : Side} {i : Nat}
    (hwait : (s.ch side i).intDone = 0) (n : Nat) :
    ¬ ((emuDmaIsr^[n] s).ch side i).ErrorReported := by
  rintro ⟨htwo, -⟩
  unfold BareCh.waitResult at htwo
  rcases noError_iterate (.inl hwait) n with hdone | herror
  · rw [if_pos hdone] at htwo
    cases htwo
  · simp [herror] at htwo
    split at htwo <;> cases htwo

/-- Channel 3 of the physical function's read side has a data error. -/
def dataError : EmuPcie where
  devfn := 0
  rdCh := fun i => if i = 3 then ⟨0b00010, 0, 0, 0⟩ else default
  wrCh := default
  mrgImsk := 0

/-- The write channel of a virtual function is done, with a data error. -/
def doneWithError : EmuPcie where
  devfn := 2
  rdCh := default
  wrCh := fun _ => ⟨0b00011, 0, 0, 0⟩
  mrgImsk := 0

theorem error_never_reported_doneWithError :
    ¬ ((emuDmaIsr^[1] doneWithError).ch .wr 0).ErrorReported :=
  error_never_reported (by decide) 1

/-- An error alone leaves the caller waiting and the status set; an error with
the done bit is reported as success. -/
theorem errors_lost :
    (emuDmaIsr dataError).ch .rd 3 = dataError.ch .rd 3 ∧
      ((emuDmaIsr dataError).ch .rd 3).waitResult = 0 ∧
      ((emuDmaIsr doneWithError).ch .wr 0).waitResult = 1 := by
  decide

end MtEmu
