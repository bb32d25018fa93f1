import MtEmu.Lib.Machine
import MtEmu.Engine.Calls

/-!
# MtEmu.Engine.Hw

A dmaengine channel with its hardware, its interrupt and its tasklet.

The hardware executes the chunks it is given and ends each with status bits
in the raw status.  `mtdma_isr` runs in three steps (read and clear, done
part, abort part) between which anything else may happen; bits that are
raised while it clears, or interrupts that get lost, are the action `lose`.
The tasklet takes `desc_completed` and runs one callback after the other.
What the status register says is whether a chunk is executed.

`errs`, `called` and `cookies` are bookkeeping: the descriptors for a chunk
of which the hardware raised an error bit, the callbacks with their results,
and the cookies that submissions returned.
-/

namespace MtEmu

open Machine

/-- `mtdma_isr` between its steps: the status, and whether its done part is
over. -/
structure MtdmaIsrFrame where
  status : U32
  doneOver : Bool
  deriving DecidableEq

/-- A channel and everything that acts on it. -/
structure EngineSys where
  chan : MtdmaChan
  nextId : Nat
  raw : U32
  isr : Option MtdmaIsrFrame
  running : List Nat
  taken : List (VirtDmaDesc MtdmaDesc)
  errs : List Nat
  called : List (Nat × TxResult)
  cookies : List (Nat × Int)
  deriving DecidableEq

/-- What can happen. -/
inductive EngineAct where
  | prep (sgl : List SgEntry) (len : U32) (allocOk : Bool)
  | submit (id : Nat)
  | issuePending
  | terminateAll
  | freeChanResources (inTime : Bool)
  | allocChanResources
  | config (config : DmaSlaveConfig)
  | hwFinish (id : Nat) (bits : U32)
  | lose (bits : U32)
  | isrRead
  | isrDone
  | isrAbort
  | taskletTake
  | taskletCall

namespace EngineSys

/-- `mtdma_v0_core_ch_status`: a chunk is executed. -/
def busy (s : EngineSys) : Bool := s.running ≠ []

/-- A chunk is handed to the hardware: `mtdma_v0_core_start` clears the raw
status and enables the channel. -/
def give (s : EngineSys) : Option Handed → EngineSys
  | none => s
  | some hd => { s with raw := s.raw &&& ~~~s.raw, running := hd.1 :: s.running }

/-- The hardware ends a chunk. -/
def hwFinish (s : EngineSys) (id : Nat) (bits : U32) : EngineSys :=
  { s with
    raw := s.raw ||| bits
    running := s.running.erase id
    errs := if bits &&& intrErr ≠ 0 then id :: s.errs else s.errs }

/-- The state after a call of the channel; a submission returns its cookie. -/
def after (s : EngineSys) (a : ChanAct) (r : ChanCall) : EngineSys :=
  { s with
    chan := r.chan
    nextId := r.nextId
    cookies := match a with
      | .submit id => (id, r.chan.vc.cookie) :: s.cookies
      | _ => s.cookies }.give r.handed

/-- A call of the channel. -/
def call (s : EngineSys) (a : ChanAct) : Option EngineSys :=
  (s.chan.call s.nextId a).map (s.after a)

/-- One step: a client calls the channel, or the hardware, the interrupt or the
tasklet acts.  What a client reads of the status register is whether a chunk is
executed, once or, when time is up at once, not at all. -/
def step (s : EngineSys) : EngineAct → Option EngineSys
  | .prep sgl len allocOk => s.call (.prep sgl len allocOk)
  | .submit id => s.call (.submit id)
  | .issuePending => s.call .issuePending
  | .terminateAll => s.call (.terminateAll s.busy)
  | .freeChanResources inTime => s.call (.freeChanResources (if inTime then [s.busy] else []))
  | .allocChanResources => s.call .allocChanResources
  | .config config => s.call (.config config)
  | .hwFinish id bits =>
      if id ∈ s.running ∧ bits &&& (intrDone ||| intrErr) ≠ 0 then some (s.hwFinish id bits) else none
  | .lose bits => some { s with raw := s.raw &&& ~~~bits }
  | .isrRead =>
      match s.isr with
      | none => some { s with isr := some ⟨s.raw, false⟩, raw := s.raw &&& ~~~s.raw }
      | some _ => none
  | .isrDone =>
      match s.isr with
      | some ⟨status, false⟩ =>
          let s' := { s with isr := some ⟨status, true⟩ }
          if status &&& intrDone ≠ 0 then s'.call .doneInterrupt else some s'
      | _ => none
  | .isrAbort =>
      match s.isr with
      | some ⟨status, true⟩ =>
          let s' := { s with isr := none }
          if status &&& abortBits ≠ 0 then s'.call .abortInterrupt else some s'
      | _ => none
  | .taskletTake =>
      if s.taken = [] then
        some { s with
          chan := { s.chan with vc := { s.chan.vc with completed := [] } }
          taken := s.chan.vc.completed }
      else none
  | .taskletCall =>
      match s.taken with
      | d :: rest => some { s with taken := rest, called := (d.id, d.result) :: s.called }
      | [] => none

/-- A channel after its setup. -/
def Init (s : EngineSys) : Prop := ∃ dir info, s = ⟨.setup dir info, 0, 0, none, [], [], [], [], []⟩

/-! ## what a step does -/

variable {s s' : EngineSys}

@[simp] theorem give_chan (hd : Option Handed) : (s.give hd).chan = s.chan := by
  cases hd <;> rfl

@[simp] theorem give_isr (hd : Option Handed) : (s.give hd).isr = s.isr := by
  cases hd <;> rfl

theorem call_doneInterrupt : s.call .doneInterrupt =
    some ({ s with chan := s.chan.mtdmaDoneInterrupt.1 }.give s.chan.mtdmaDoneInterrupt.2) := rfl

theorem call_abortInterrupt :
    s.call .abortInterrupt = some { s with chan := s.chan.mtdmaAbortInterrupt } := rfl

/-- The done part and the abort part of the interrupt, one after the other,
are `mtdma_isr`. -/
theorem isr_eq_mtdmaIsr (h : s.isr = none) :
    ∃ s', exec step s [.isrRead, .isrDone, .isrAbort] = some s' ∧
      s'.chan = (s.chan.mtdmaIsr s.raw).1 ∧ s'.isr = none := by
  simp only [exec, step, h, Option.bind_some, MtdmaChan.mtdmaIsr, call_doneInterrupt,
    call_abortInterrupt]
  split <;> simp <;> split <;> simp

/-- The steps of the machine. -/
inductive Move (s : EngineSys) : EngineAct → EngineSys → Prop
  | prepFails {sgl len allocOk} (h : s.chan.mtdmaDeviceTransfer sgl len allocOk = none) :
      Move s (.prep sgl len allocOk) s
  | prep {sgl len allocOk body} (h : s.chan.mtdmaDeviceTransfer sgl len allocOk = some body)
      (hchunks : body.chunks ≠ []) :
      Move s (.prep sgl len allocOk)
        { s with
          chan := { s.chan with vc := s.chan.vc.vchanTxPrep ⟨s.nextId, 0, .noError, body⟩ }
          nextId := s.nextId + 1 }
  | submit {id vc} (h : s.chan.vc.vchanTxSubmit id = some vc) :
      Move s (.submit id)
        { s with chan := { s.chan with vc := vc }, cookies := (id, vc.cookie) :: s.cookies }
  | issue {ch hd} (h : s.chan.Issue ch hd) (heq : s.chan.mtdmaDeviceIssuePending = (ch, hd)) :
      Move s .issuePending ({ s with chan := ch }.give hd)
  | terminate {ch} (h : s.chan.Terminate s.busy ch) : Move s .terminateAll { s with chan := ch }
  | freeNothing : Move s (.freeChanResources false) s
  | free {ch} (h : s.chan.Terminate s.busy ch) :
      Move s (.freeChanResources true) { s with chan := ch }
  | alloc : Move s .allocChanResources s
  | config {config} : Move s (.config config) { s with chan := s.chan.mtdmaDeviceConfig config }
  | finished {id bits} (h : id ∈ s.running) (hbits : bits &&& (intrDone ||| intrErr) ≠ 0) :
      Move s (.hwFinish id bits) (s.hwFinish id bits)
  | lost {bits} : Move s (.lose bits) { s with raw := s.raw &&& ~~~bits }
  | isrReads (h : s.isr = none) :
      Move s .isrRead { s with isr := some ⟨s.raw, false⟩, raw := s.raw &&& ~~~s.raw }
  | isrDone {status ch hd} (h : s.isr = some ⟨status, false⟩) (hst : status &&& intrDone ≠ 0)
      (hdone : s.chan.Done ch hd) (heq : s.chan.mtdmaDoneInterrupt = (ch, hd)) :
      Move s .isrDone ({ s with isr := some ⟨status, true⟩, chan := ch }.give hd)
  | isrNotDone {status} (h : s.isr = some ⟨status, false⟩) (hst : status &&& intrDone = 0) :
      Move s .isrDone { s with isr := some ⟨status, true⟩ }
  | isrAbort {status} (h : s.isr = some ⟨status, true⟩) (hst : status &&& abortBits ≠ 0) :
      Move s .isrAbort { s with isr := none, chan := s.chan.mtdmaAbortInterrupt }
  | isrNoAbort {status} (h : s.isr = some ⟨status, true⟩) (hst : status &&& abortBits = 0) :
      Move s .isrAbort { s with isr := none }
  | taskletTakes (h : s.taken = []) :
      Move s .taskletTake { s with
        chan := { s.chan with vc := { s.chan.vc with completed := [] } }
        taken := s.chan.vc.completed }
  | taskletCalls {d rest} (h : s.taken = d :: rest) :
      Move s .taskletCall { s with taken := rest, called := (d.id, d.result) :: s.called }

/-- A call of the channel is one of the ways a call can end. -/
theorem calls_of_call {a : ChanAct} (h : s.call a = some s') :
    ∃ r, s.chan.Calls s.nextId a r ∧ s.after a r = s' := by
  obtain ⟨r, hr, rfl⟩ := Option.map_eq_some_iff.mp h
  exact ⟨r, MtdmaChan.calls_of_eq hr, rfl⟩

/-- Every step is one of these. -/
theorem move_of_step {a : EngineAct} (h : step s a = some s') : Move s a s' := by
  cases a with
  | prep sgl len allocOk =>
      obtain ⟨r, hc, rfl⟩ := calls_of_call h
      cases hc with
      | prepFails hbody => exact .prepFails hbody
      | prep hbody hchunks => exact .prep hbody hchunks
  | submit id =>
      obtain ⟨r, hc, rfl⟩ := calls_of_call h
      cases hc with
      | submit hvc => exact .submit hvc
  | issuePending =>
      obtain ⟨r, hc, rfl⟩ := calls_of_call h
      cases hc with
      | issue hi heq => exact .issue hi heq
  | terminateAll =>
      obtain ⟨r, hc, rfl⟩ := calls_of_call h
      cases hc with
      | terminate ht => exact .terminate ht
  | freeChanResources inTime =>
      cases inTime with
      | false =>
          obtain ⟨r, hc, rfl⟩ := calls_of_call (a := .freeChanResources []) h
          cases hc
          exact .freeNothing
      | true =>
          obtain ⟨r, hc, rfl⟩ := calls_of_call (a := .freeChanResources [s.busy]) h
          cases hc with
          | free ht => exact .free ht
  | allocChanResources =>
      obtain ⟨r, hc, rfl⟩ := calls_of_call h
      cases hc
      exact .alloc
  | config config =>
      obtain ⟨r, hc, rfl⟩ := calls_of_call h
      cases hc
      exact .config
  | hwFinish id bits =>
      simp only [step] at h
      split at h
      · next hrun => cases h; exact .finished hrun.1 hrun.2
      · contradiction
  | lose bits =>
      cases h
      exact .lost
  | isrRead =>
      simp only [step] at h
      split at h
      · next hisr => cases h; exact .isrReads hisr
      · contradiction
  | isrDone =>
      simp only [step] at h
      split at h
      · next hisr =>
          split at h
          · next hst =>
              obtain ⟨r, hc, rfl⟩ := calls_of_call h
              cases hc with
              | done hdone heq => exact .isrDone hisr hst hdone heq
          · next hst => cases h; exact .isrNotDone hisr (not_not.mp hst)
      · contradiction
  | isrAbort =>
      simp only [step] at h
      split at h
      · next hisr =>
          split at h
          · next hst =>
              obtain ⟨r, hc, rfl⟩ := calls_of_call h
              cases hc
              exact .isrAbort hisr hst
          · next hst => cases h; exact .isrNoAbort hisr (not_not.mp hst)
      · contradiction
  | taskletTake =>
      simp only [step] at h
      split at h
      · next ht => cases h; exact .taskletTakes ht
      · contradiction
  | taskletCall =>
      simp only [step] at h
      split at h
      · next ht => cases h; exact .taskletCalls ht
      · contradiction

end EngineSys

end MtEmu
