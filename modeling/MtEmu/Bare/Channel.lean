import MtEmu.Lib.Machine
import MtEmu.Bare.Xfer
import MtEmu.Bare.Isr

/-!
# MtEmu.Bare.Channel

One bare channel, its callers, its interrupt and its hardware.

Any number of `dma_bare_xfer` calls run on the channel, each under its own
number and each going through the function step by step: `mutex_lock`,
`reinit_completion`, `int_error = 0`, the writes that program the transfer
one at a time, the wait, `mutex_unlock` and the decoding of the result.
`dma_bare_isr` runs in three steps (read, clear, complete) that interleave
with the callers, behind the test of the done bit in `emu_dma_isr`.  The
hardware runs a transfer from the enable write until it raises status bits.

`running`, `doneBy`, the frame's `dones` and `delivered` are bookkeeping: the
transfers in progress, those whose done bit is up, those whose done bit the
interrupt in progress has read, and those whose interrupt was delivered.
-/

namespace MtEmu

open Machine

/-! ## states -/

/-- Where a `dma_bare_xfer` call is. -/
inductive CallPc where
  | idle
  | entered (p : XferProg)
  | locked (p : XferProg)
  | reinited (p : XferProg)
  | writing (rest : List Access)
  | faulted
  | waiting
  | woken
  | timedOut
  | unlocked (woken : Bool)
  | returned (ret : Int)
  deriving DecidableEq

/-- `dma_bare_isr` between its steps: the status it read, whether it has been
cleared, and whose done bit it was. -/
structure IsrFrame where
  val : U32
  cleared : Bool
  dones : List Nat
  deriving DecidableEq

/-- A channel and everything that acts on it. -/
structure BareSys where
  ch : BareCh
  owner : Option Nat
  pc : Nat → CallPc
  isr : Option IsrFrame
  running : List Nat
  doneBy : List Nat
  delivered : List Nat

/-- What can happen. -/
inductive BareAct where
  | call (c : Nat) (x : BareXfer) (junk : Junk) (draws : Draws)
  | lock (c : Nat)
  | reinit (c : Nat)
  | clearError (c : Nat)
  | write (c : Nat)
  | wake (c : Nat)
  | timeout (c : Nat)
  | unlock (c : Nat)
  | ret (c : Nat)
  | hwEnd (c : Nat) (bits : U32)
  | isrRead
  | isrClear
  | isrComplete

namespace BareSys

/-- Move a call on. -/
def setPc (s : BareSys) (c : Nat) (p : CallPc) : BareSys :=
  { s with pc := Function.update s.pc c p }

/-- The effect of a register write on the interrupt side of the channel. -/
def writeCh (ch : BareCh) : Access → BareCh
  | .setCh .intrImsk v => { ch with intrImsk := v }
  | .setCh .intrRaw v => { ch with intrRaw := ch.intrRaw &&& ~~~v }
  | _ => ch

/-- The write that starts the hardware. -/
def enableWrite : Access := .setCh .enable 1

/-- A call writes; behind its last write it waits. -/
def write (s : BareSys) (c : Nat) (a : Access) (rest : List Access) : BareSys :=
  { s.setPc c (if rest = [] then .waiting else .writing rest) with
    ch := writeCh s.ch a
    running := if a = enableWrite then c :: s.running else s.running }

/-- The hardware ends a transfer and raises status bits. -/
def hwEnd (s : BareSys) (c : Nat) (bits : U32) : BareSys :=
  { s with
    ch := { s.ch with intrRaw := s.ch.intrRaw ||| bits }
    running := s.running.filter (· ≠ c)
    doneBy := if bits &&& intrDone ≠ 0 then c :: s.doneBy else s.doneBy }

/-- `dma_bare_isr` reads the raw status and sets `int_error`. -/
def isrRead (s : BareSys) : BareSys :=
  { s with
    ch := { s.ch with intError := s.ch.dmaBareIsr.1.intError }
    isr := some ⟨s.ch.intrRaw, false, s.doneBy⟩
    doneBy := [] }

/-- It clears what it read; a done bit raised since then is lost. -/
def isrClear (s : BareSys) (f : IsrFrame) : BareSys :=
  { s with
    ch := { s.ch with intrRaw := s.ch.intrRaw &&& ~~~f.val }
    isr := some { f with cleared := true }
    doneBy := if f.val &&& intrDone ≠ 0 then [] else s.doneBy }

/-- It completes `int_done`. -/
def isrComplete (s : BareSys) (f : IsrFrame) : BareSys :=
  { s with
    ch := { s.ch with intDone := s.ch.intDone + 1 }
    isr := none
    delivered := f.dones ++ s.delivered }

/-- One step of a channel with the given build option and list windows. -/
def step (mmu : Bool) (info : MtdmaChanInfo) (s : BareSys) : BareAct → Option BareSys
  | .call c x junk draws =>
      match s.pc c, dmaBareXfer mmu info x junk draws with
      | .idle, .reject => some (s.setPc c (.returned (-1)))
      | .idle, p => some (s.setPc c (.entered p))
      | _, _ => none
  | .lock c =>
      match s.pc c with
      | .entered p => if s.owner = none then some { s.setPc c (.locked p) with owner := some c } else none
      | _ => none
  | .reinit c =>
      match s.pc c with
      | .locked p => some { s.setPc c (.reinited p) with ch := { s.ch with intDone := 0 } }
      | _ => none
  | .clearError c =>
      match s.pc c with
      | .reinited (.run as) => some { s.setPc c (.writing as) with ch := { s.ch with intError := 0 } }
      | .reinited _ => some { s.setPc c .faulted with ch := { s.ch with intError := 0 } }
      | _ => none
  | .write c =>
      match s.pc c with
      | .writing (a :: rest) => some (s.write c a rest)
      | _ => none
  | .wake c =>
      if s.pc c = .waiting ∧ s.ch.intDone ≠ 0 then
        some { s.setPc c .woken with ch := { s.ch with intDone := s.ch.intDone - 1 } }
      else none
  | .timeout c =>
      if s.pc c = .waiting ∧ s.ch.intDone = 0 then some (s.setPc c .timedOut) else none
  | .unlock c =>
      match s.pc c with
      | .woken => some { s.setPc c (.unlocked true) with owner := none }
      | .timedOut => some { s.setPc c (.unlocked false) with owner := none }
      | _ => none
  | .ret c =>
      match s.pc c with
      | .unlocked true => some (s.setPc c (.returned (if s.ch.intError ≠ 0 then 2 else 1)))
      | .unlocked false => some (s.setPc c (.returned 0))
      | _ => none
  | .hwEnd c bits =>
      if c ∈ s.running ∧ bits &&& (intrDone ||| intrErr) ≠ 0 then some (s.hwEnd c bits) else none
  | .isrRead =>
      if s.isr = none ∧ s.ch.intrStatus &&& 1 = 1 then some s.isrRead else none
  | .isrClear =>
      match s.isr with
      | some f => if f.cleared then none else some (s.isrClear f)
      | none => none
  | .isrComplete =>
      match s.isr with
      | some f => if f.cleared then some (s.isrComplete f) else none
      | none => none

/-- A channel after `mtdma_bare_init`: nothing has happened. -/
def init : BareSys where
  ch := ⟨0, 0, 0, 0⟩
  owner := none
  pc := fun _ => .idle
  isr := none
  running := []
  doneBy := []
  delivered := []

/-- The three steps of the interrupt, one after the other, are
`dma_bare_isr`. -/
theorem isr_eq_dmaBareIsr (mmu : Bool) (info : MtdmaChanInfo) (s : BareSys) (h : s.isr = none)
    (hst : s.ch.intrStatus &&& 1 = 1) :
    ∃ s', exec (step mmu info) s [.isrRead, .isrClear, .isrComplete] = some s' ∧
      s'.ch = s.ch.dmaBareIsr.1 ∧ s'.isr = none := by
  have hread : step mmu info s .isrRead = some s.isrRead := if_pos ⟨h, hst⟩
  exact ⟨_, by rw [exec_cons, hread]; rfl, rfl, rfl⟩

/-! ## what a step does -/

@[simp] theorem setPc_pc (s : BareSys) (c : Nat) (p : CallPc) :
    (s.setPc c p).pc = Function.update s.pc c p := rfl

/-- The steps of the machine, each with what it needs and what it leaves. -/
inductive Move (mmu : Bool) (info : MtdmaChanInfo) (s : BareSys) : BareAct → BareSys → Prop
  | rejected {c x junk draws} (h : s.pc c = .idle) :
      Move mmu info s (.call c x junk draws) (s.setPc c (.returned (-1)))
  | called {c x junk draws} (h : s.pc c = .idle) :
      Move mmu info s (.call c x junk draws)
        (s.setPc c (.entered (dmaBareXfer mmu info x junk draws)))
  | locked {c p} (h : s.pc c = .entered p) (hfree : s.owner = none) :
      Move mmu info s (.lock c) { s.setPc c (.locked p) with owner := some c }
  | reinited {c p} (h : s.pc c = .locked p) :
      Move mmu info s (.reinit c) { s.setPc c (.reinited p) with ch := { s.ch with intDone := 0 } }
  | cleared {c as} (h : s.pc c = .reinited (.run as)) :
      Move mmu info s (.clearError c)
        { s.setPc c (.writing as) with ch := { s.ch with intError := 0 } }
  | faulted {c p} (h : s.pc c = .reinited p) :
      Move mmu info s (.clearError c) { s.setPc c .faulted with ch := { s.ch with intError := 0 } }
  | wrote {c a rest} (h : s.pc c = .writing (a :: rest)) :
      Move mmu info s (.write c) (s.write c a rest)
  | woke {c} (h : s.pc c = .waiting) (hdone : s.ch.intDone ≠ 0) :
      Move mmu info s (.wake c)
        { s.setPc c .woken with ch := { s.ch with intDone := s.ch.intDone - 1 } }
  | timedOut {c} (h : s.pc c = .waiting) (hdone : s.ch.intDone = 0) :
      Move mmu info s (.timeout c) (s.setPc c .timedOut)
  | unlocked {c} (h : s.pc c = .woken) :
      Move mmu info s (.unlock c) { s.setPc c (.unlocked true) with owner := none }
  | gaveUp {c} (h : s.pc c = .timedOut) :
      Move mmu info s (.unlock c) { s.setPc c (.unlocked false) with owner := none }
  | returned {c} (h : s.pc c = .unlocked true) :
      Move mmu info s (.ret c) (s.setPc c (.returned (if s.ch.intError ≠ 0 then 2 else 1)))
  | returnedZero {c} (h : s.pc c = .unlocked false) :
      Move mmu info s (.ret c) (s.setPc c (.returned 0))
  | ended {c bits} (h : c ∈ s.running) : Move mmu info s (.hwEnd c bits) (s.hwEnd c bits)
  | isrReads (h : s.isr = none) (hst : s.ch.intrStatus &&& 1 = 1) :
      Move mmu info s .isrRead s.isrRead
  | isrClears {f} (h : s.isr = some f) (hc : f.cleared = false) :
      Move mmu info s .isrClear (s.isrClear f)
  | isrCompletes {f} (h : s.isr = some f) (hc : f.cleared = true) :
      Move mmu info s .isrComplete (s.isrComplete f)

/-- Every step is one of these. -/
theorem move_of_step {mmu : Bool} {info : MtdmaChanInfo} {s s' : BareSys} {a : BareAct}
    (h : step mmu info s a = some s') : Move mmu info s a s' := by
  cases a with
  | call c x junk draws =>
      simp only [step] at h
      split at h
      · next hpc _ => cases h; exact .rejected hpc
      · next hpc _ => cases h; exact .called hpc
      · contradiction
  | lock c =>
      simp only [step] at h
      split at h
      · next hpc =>
          split at h
          · next hfree => cases h; exact .locked hpc hfree
          · contradiction
      · contradiction
  | reinit c =>
      simp only [step] at h
      split at h
      · next hpc => cases h; exact .reinited hpc
      · contradiction
  | clearError c =>
      simp only [step] at h
      split at h
      · next hpc => cases h; exact .cleared hpc
      · next hpc => cases h; exact .faulted hpc
      · contradiction
  | write c =>
      simp only [step] at h
      split at h
      · next hpc => cases h; exact .wrote hpc
      · contradiction
  | wake c =>
      simp only [step] at h
      split at h
      · next hw => cases h; exact .woke hw.1 hw.2
      · contradiction
  | timeout c =>
      simp only [step] at h
      split at h
      · next hw => cases h; exact .timedOut hw.1 hw.2
      · contradiction
  | unlock c =>
      simp only [step] at h
      split at h
      · next hpc => cases h; exact .unlocked hpc
      · next hpc => cases h; exact .gaveUp hpc
      · contradiction
  | ret c =>
      simp only [step] at h
      split at h
      · next hpc => cases h; exact .returned hpc
      · next hpc => cases h; exact .returnedZero hpc
      · contradiction
  | hwEnd c bits =>
      simp only [step] at h
      split at h
      · next hw => cases h; exact .ended hw.1
      · contradiction
  | isrRead =>
      simp only [step] at h
      split at h
      · next hw => cases h; exact .isrReads hw.1 hw.2
      · contradiction
  | isrClear =>
      simp only [step] at h
      split at h
      · next hf =>
          split at h
          · contradiction
          · next hc => cases h; exact .isrClears hf (by simpa using hc)
      · contradiction
  | isrComplete =>
      simp only [step] at h
      split at h
      · next hf =>
          split at h
          · next hc => cases h; exact .isrCompletes hf hc
          · contradiction
      · contradiction

end BareSys

/-! ## the enable write comes last -/

/-- The only enable write among these is the last one. -/
def EndsWithEnable (as : List Access) : Prop :=
  ∃ pre, as = pre ++ [BareSys.enableWrite] ∧ BareSys.enableWrite ∉ pre

/-- Either this is the enable write, behind which nothing comes, or it is
another write and the enable write is still to come. -/
theorem EndsWithEnable.cons {a : Access} {rest : List Access} (h : EndsWithEnable (a :: rest)) :
    (rest = [] ∧ a = BareSys.enableWrite) ∨
      (rest ≠ [] ∧ a ≠ BareSys.enableWrite ∧ EndsWithEnable rest) := by
  obtain ⟨pre, heq, hpre⟩ := h
  cases pre with
  | nil => simp_all
  | cons b pre =>
      obtain ⟨rfl, rfl⟩ := List.cons.inj heq
      right
      simp only [List.mem_cons, not_or] at hpre
      exact ⟨by simp, Ne.symm hpre.1, pre, rfl, hpre.2⟩

theorem enableWrite_not_mem_single (mmu : Bool) (t : U32) (x : BareXfer) (junk : Junk) :
    BareSys.enableWrite ∉ xferSingle mmu t x junk := by
  unfold xferSingle BareSys.enableWrite
  by_cases hi : junk.i = 0 <;> cases mmu <;> simp [hi]

theorem enableWrite_not_mem_accesses (l : DescList) : BareSys.enableWrite ∉ l.accesses := by
  simp [DescList.accesses, BareSys.enableWrite, setDesc]

/-- Whatever the arguments, `dma_bare_xfer` enables the channel last. -/
theorem endsWithEnable_dmaBareXfer {mmu : Bool} {info : MtdmaChanInfo} {x : BareXfer} {junk : Junk}
    {draws : Draws} {as : List Access} (h : dmaBareXfer mmu info x junk draws = .run as) :
    EndsWithEnable as := by
  unfold dmaBareXfer at h
  split at h
  · contradiction
  · next bits t _ =>
      dsimp only at h
      split at h
      · cases h
        refine ⟨xferSingle mmu t x junk ++
            [.setCh .intrImsk 0, .setCh .direction (bits ||| x.descMst1)],
          by simp [BareSys.enableWrite], ?_⟩
        rw [List.mem_append, not_or]
        exact ⟨enableWrite_not_mem_single mmu t x junk, by simp [BareSys.enableWrite]⟩
      · split at h
        · contradiction
        · next l _ =>
            cases h
            refine ⟨(if mmu = true ∧ x.blockCnt = 0 then [.setCh .mmuAddrType t] else []) ++ l.accesses ++
              [.setCh .intrImsk 0, .setCh .direction (bits ||| x.descMst1)],
              by simp [BareSys.enableWrite], ?_⟩
            rw [List.mem_append, List.mem_append, not_or, not_or]
            refine ⟨⟨?_, enableWrite_not_mem_accesses l⟩, by simp [BareSys.enableWrite]⟩
            split <;> simp [BareSys.enableWrite]

end MtEmu
