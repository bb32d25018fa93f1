import Mathlib.Logic.Function.Basic
import MtEmu.Lib.Machine
import MtEmu.Probe.Irq

/-!
# MtEmu.Ipc.Response

`MT_IOCTL_IPC` (`mt-emu-ioctl.c`): the doorbell, the response and the wait.

A call rings the doorbell of its target and waits for the completion that the
interrupt of the target's response completes.  With `PCIE_USE_MBOX`, which
the build defines, it rings in front of `mutex_lock` and `reinit_completion`,
and not at all for the DSP; without it, behind them.

The completions are not the call's alone.  The handler of an interrupt
completes one only in irq test mode, and is called only for a vector that
`irq_init` has requested; `MT_IOCTL_IRQ_INIT`, which holds `io_mutex` and no
other lock, gives the vectors back, asks for new ones and ends by emptying
the completions; and `MT_IOCTL_WAIT_INT` takes a count of one.

Any number of calls run beside the targets and these.  `rung` and `answered`
are bookkeeping: whether a call's doorbell was rung, and whether its target
has responded since.  `responses_observed` says that no response is lost in
the runs in which none comes between a call's doorbell and its
`reinit_completion`, and nothing else takes or empties the completion of a
response; without the mailbox the first of these is every run.
-/

namespace MtEmu

open Machine

/-! ## calls and targets -/

/-- The targets, in the order of `PCIEF_TGT_DSP`, `_FEC` and `_SMC`.  The
index of a target's response in `int_done` and `int_mutex` is the same. -/
inductive PciefTgt where
  | dsp
  | fec
  | smc
  deriving DecidableEq

/-- The target for `b0`, which has to be below 3. -/
def PciefTgt.ofB0 (b0 : BitVec 8) : Option PciefTgt :=
  if b0 = 0 then some .dsp else if b0 = 1 then some .fec else if b0 = 2 then some .smc else none

/-- `idx` of a target: `QY_INT_SRC_SGI_DSP_RES`, `_FEC_RES` and `_SMC_RES`. -/
def PciefTgt.intSrc : PciefTgt → Nat
  | .dsp => 0
  | .fec => 1
  | .smc => 2

@[simp] theorem PciefTgt.intSrc_inj {t t' : PciefTgt} : t.intSrc = t'.intSrc ↔ t = t' := by
  cases t <;> cases t' <;> decide

/-- The target is the index of its response. -/
theorem PciefTgt.intSrc_ofB0 {b0 : BitVec 8} {t : PciefTgt}
    (h : PciefTgt.ofB0 b0 = some t) : t.intSrc = b0.toNat := by
  rw [PciefTgt.ofB0] at h
  split at h
  · subst b0
    cases h
    rfl
  · split at h
    · subst b0
      cases h
      rfl
    · split at h
      · subst b0
        cases h
        rfl
      · contradiction

/-- The handler of an interrupt gets to `complete`: `irq_init` has requested the interrupt, and
the device is in irq test mode. -/
def IrqDev.Hears (d : IrqDev) (irq : Nat) : Prop := d.irqAllocated irq = true ∧ d.irqTestMode ≠ 0

instance (d : IrqDev) (irq : Nat) : Decidable (d.Hears irq) :=
  inferInstanceAs (Decidable (_ ∧ _))

/-- Where a call is: named by what it has done last. -/
inductive IpcPc where
  | idle
  | fault
  | entered (t : PciefTgt)
  | switched (t : PciefTgt)
  | locked (t : PciefTgt)
  | reinited (t : PciefTgt)
  | waiting (t : PciefTgt)
  | waited (t : PciefTgt) (ok : Bool)
  | returned (ok : Bool)
  deriving DecidableEq

namespace IpcPc

/-- The target of a call whose wait has not ended. -/
def tgt : IpcPc → Option PciefTgt
  | .entered t | .switched t | .locked t | .reinited t | .waiting t => some t
  | _ => none

/-- The target whose mutex the call has. -/
def holds : IpcPc → Option PciefTgt
  | .locked t | .reinited t | .waiting t | .waited t _ => some t
  | _ => none

/-- The call is behind the last place where it rings. -/
def Sent : IpcPc → Prop
  | .waiting _ | .waited _ _ | .returned _ => True
  | _ => False

instance : (p : IpcPc) → Decidable p.Sent
  | .waiting _ | .waited _ _ | .returned _ => .isTrue trivial
  | .idle | .fault | .entered _ | .switched _ | .locked _ | .reinited _ => .isFalse id

end IpcPc

/-- The calls and the targets: the interrupts of the device with the counts of
`int_done`, what is left of an `irq_init` that has `io_mutex`, `int_mutex`, the
doorbell bits, and whether a target executes a command. -/
structure IpcSys where
  irq : IrqDev
  irqOps : List IrqDev.IrqOp
  mutex : PciefTgt → Option Nat
  bell : PciefTgt → Bool
  serving : PciefTgt → Bool
  pc : Nat → IpcPc
  rung : Nat → Bool
  answered : Nat → Bool

/-- What can happen: the steps of a call, of a target, and of the commands beside
them; `otherInt` is an interrupt that is no response. -/
inductive IpcAct where
  | call (c : Nat) (b0 : BitVec 8)
  | switch (c : Nat)
  | lock (c : Nat)
  | reinit (c : Nat)
  | setSgi (c : Nat)
  | wake (c : Nat) (left : { l : U64 // l ≠ 0 })
  | timeout (c : Nat)
  | unlock (c : Nat)
  | waitInt (t : PciefTgt)
  | irqInit (b0 b1 : BitVec 8) (o : IrqOutcome)
  | irqOp
  | otherInt (t : PciefTgt)
  | take (t : PciefTgt)
  | respond (t : PciefTgt)

namespace IpcSys

/-- Move a call on. -/
def setPc (s : IpcSys) (c : Nat) (p : IpcPc) : IpcSys := { s with pc := Function.update s.pc c p }

/-- A call rings the doorbell of a target. -/
def ring (s : IpcSys) (c : Nat) (t : PciefTgt) : IpcSys :=
  { s with bell := Function.update s.bell t true, rung := Function.update s.rung c true }

/-- The count of a target's completion. -/
def done (s : IpcSys) (t : PciefTgt) : Nat := s.irq.intDone t.intSrc

/-- The completion of a target is completed, emptied, or a count of it taken. -/
def setDone (s : IpcSys) (t : PciefTgt) (n : Nat) : IpcSys :=
  { s with irq := { s.irq with intDone := Function.update s.irq.intDone t.intSrc n } }

/-- The interrupt of a target's response is raised. -/
def interrupt (s : IpcSys) (t : PciefTgt) : IpcSys :=
  if s.irq.Hears t.intSrc then s.setDone t (s.done t + 1) else s

/-- The response of a target, with its interrupt. -/
def respond (s : IpcSys) (t : PciefTgt) : IpcSys :=
  { s.interrupt t with
    serving := Function.update s.serving t false
    answered := fun c => s.answered c || (s.rung c && (s.pc c).tgt = some t) }

/-- One step, of a build with `PCIE_USE_MBOX` or without it. -/
def step (mbox : Bool) (s : IpcSys) : IpcAct → Option IpcSys
  | .call c b0 =>
      if s.pc c = .idle ∨ s.pc c = .fault ∨ s.pc c = .returned false ∨ s.pc c = .returned true then
        match PciefTgt.ofB0 b0 with
        | none => some (s.setPc c .fault)
        | some t =>
            some { s.setPc c (.entered t) with
              rung := Function.update s.rung c false
              answered := Function.update s.answered c false }
      else none
  | .switch c =>
      match s.pc c with
      | .entered t =>
          -- the case of the DSP is empty with the mailbox
          some (if mbox = true ∧ t ≠ .dsp then (s.setPc c (.switched t)).ring c t
            else s.setPc c (.switched t))
      | _ => none
  | .lock c =>
      match s.pc c with
      | .switched t =>
          if s.mutex t = none then
            some { s.setPc c (.locked t) with mutex := Function.update s.mutex t (some c) }
          else none
      | _ => none
  | .reinit c =>
      match s.pc c with
      | .locked t => some ((s.setPc c (.reinited t)).setDone t 0)
      | _ => none
  | .setSgi c =>
      match s.pc c with
      | .reinited t =>
          some (if mbox then s.setPc c (.waiting t) else (s.setPc c (.waiting t)).ring c t)
      | _ => none
  | .wake c left =>
      match s.pc c with
      | .waiting t =>
          if s.done t ≠ 0 then
            -- the time that is left is kept in an `int`
            some ((s.setPc c (.waited t (left.1.setWidth 32 ≠ 0))).setDone t (s.done t - 1))
          else none
      | _ => none
  | .timeout c =>
      match s.pc c with
      | .waiting t => if s.done t = 0 then some (s.setPc c (.waited t false)) else none
      | _ => none
  | .unlock c =>
      match s.pc c with
      | .waited t ok => some { s.setPc c (.returned ok) with mutex := Function.update s.mutex t none }
      | _ => none
  | .waitInt t => if s.done t ≠ 0 then some (s.setDone t (s.done t - 1)) else none
  | .irqInit b0 b1 o =>
      match s.irqOps with
      | [] => some { s with irqOps := s.irq.irqOps b0.toNat b1.toNat o }
      | _ :: _ => none
  | .irqOp =>
      match s.irqOps with
      | [] => none
      | op :: ops => some { s with irq := s.irq.perform op, irqOps := ops }
  | .otherInt t => some (s.interrupt t)
  | .take t =>
      if s.bell t = true ∧ s.serving t = false then
        some { s with
          bell := Function.update s.bell t false, serving := Function.update s.serving t true }
      else none
  | .respond t => if s.serving t = true then some (s.respond t) else none

/-- Nothing has been sent to the targets of a device. -/
def init (irq : IrqDev) : IpcSys where
  irq := irq
  irqOps := []
  mutex := fun _ => none
  bell := fun _ => false
  serving := fun _ => false
  pc := fun _ => .idle
  rung := fun _ => false
  answered := fun _ => false

/-- What is left of an `irq_init`, step by step. -/
theorem exec_irqOps (mbox : Bool) (s : IpcSys) {ops : List IrqDev.IrqOp} (hops : s.irqOps = ops) :
    exec (step mbox) s (List.replicate ops.length .irqOp) =
      some { s with irq := ops.foldl IrqDev.perform s.irq, irqOps := [] } := by
  induction ops generalizing s with
  | nil =>
      rw [List.length_nil, List.replicate_zero, exec_nil, List.foldl_nil, ← hops]
  | cons op ops ih =>
      have hstep : step mbox s .irqOp = some { s with irq := s.irq.perform op, irqOps := ops } := by
        simp only [step, hops]
      rw [List.length_cons, List.replicate_succ, exec_cons, hstep, Option.bind_some, ih _ rfl,
        List.foldl_cons]

/-- `MT_IOCTL_IRQ_INIT`, when nothing comes between its steps. -/
theorem exec_irqInit (mbox : Bool) {s : IpcSys} (hfree : s.irqOps = []) (b0 b1 : BitVec 8)
    (o : IrqOutcome) :
    exec (step mbox) s (.irqInit b0 b1 o ::
        List.replicate (s.irq.irqOps b0.toNat b1.toNat o).length .irqOp) =
      some { s with irq := (s.irq.irqInit b0.toNat b1.toNat o).1 } := by
  have hstep : step mbox s (.irqInit b0 b1 o) =
      some { s with irqOps := s.irq.irqOps b0.toNat b1.toNat o } := by
    simp only [step, hfree]
  rw [exec_cons, hstep, Option.bind_some, exec_irqOps mbox _ rfl, IrqDev.foldl_irqOps, hfree]

/-! ## what is wanted -/

/-- Every call that is behind the doorbell has rung it, and every call whose
target responded between the doorbell and the end of the wait returns
success. -/
structure Observed (s : IpcSys) : Prop where
  bell : ∀ c, (s.pc c).Sent → s.rung c = true
  success : ∀ c, s.pc c = .returned false → s.answered c = false

/-- A call has emptied its completion and its wait has not ended. -/
def Window (s : IpcSys) (c : Nat) (t : PciefTgt) : Prop :=
  s.pc c = .reinited t ∨ s.pc c = .waiting t

instance (s : IpcSys) (c : Nat) (t : PciefTgt) : Decidable (s.Window c t) :=
  inferInstanceAs (Decidable (_ ∨ _))

/-- No answered call is about to observe the response of a target. -/
def Unawaited (s : IpcSys) (t : PciefTgt) : Prop :=
  ∀ c ∈ s.mutex t, s.Window c t → s.answered c = false

instance (s : IpcSys) (t : PciefTgt) : Decidable (s.Unawaited t) :=
  inferInstanceAs (Decidable (∀ c ∈ s.mutex t, s.Window c t → s.answered c = false))

/-- A step of `irq_init` empties no completion of such a response. -/
def Spares (s : IpcSys) : IrqDev.IrqOp → Prop
  | .reinit i => ∀ t ∈ [PciefTgt.dsp, .fec, .smc], t.intSrc = i → s.Unawaited t
  | _ => True

instance (s : IpcSys) : (op : IrqDev.IrqOp) → Decidable (s.Spares op)
  | .reinit i =>
      inferInstanceAs (Decidable (∀ t ∈ [PciefTgt.dsp, .fec, .smc], t.intSrc = i → s.Unawaited t))
  | .freeIrq _ | .freeVectors | .alloc _ | .set _ _ _ | .request _ => .isTrue trivial

/-- With the mailbox: the target is not the DSP, and a call empties its
completion only when its target has not responded yet.  Always: the time left
is not taken for a timeout; neither `MT_IOCTL_WAIT_INT` nor the end of
`irq_init` takes the response that an answered call waits for; and the
interrupt of a response to a call in its window is heard. -/
def Fresh (mbox : Bool) (s : IpcSys) : IpcAct → Prop
  | .switch c => mbox = true → s.pc c ≠ .entered .dsp
  | .reinit c => mbox = true → s.answered c = false
  | .wake c left => s.answered c = true → left.1.setWidth 32 ≠ 0
  | .waitInt t => s.Unawaited t
  | .irqOp => ∀ op ∈ s.irqOps.head?, s.Spares op
  | .respond t => ∀ c ∈ s.mutex t, s.Window c t → s.rung c = true → s.irq.Hears t.intSrc
  | _ => True

instance (mbox : Bool) (s : IpcSys) : (a : IpcAct) → Decidable (Fresh mbox s a)
  | .switch c => inferInstanceAs (Decidable (mbox = true → s.pc c ≠ .entered .dsp))
  | .reinit c => inferInstanceAs (Decidable (mbox = true → s.answered c = false))
  | .wake c left => inferInstanceAs (Decidable (s.answered c = true → left.1.setWidth 32 ≠ 0))
  | .waitInt t => inferInstanceAs (Decidable (s.Unawaited t))
  | .irqOp => inferInstanceAs (Decidable (∀ op ∈ s.irqOps.head?, s.Spares op))
  | .respond t =>
      inferInstanceAs (Decidable
        (∀ c ∈ s.mutex t, s.Window c t → s.rung c = true → s.irq.Hears t.intSrc))
  | .call _ _ | .lock _ | .setSgi _ | .timeout _ | .unlock _ | .irqInit _ _ _ | .otherInt _
  | .take _ => .isTrue trivial

/-! ## what a step does -/

variable {mbox : Bool} {s s' : IpcSys}

@[simp] theorem done_setDone (s : IpcSys) (t t' : PciefTgt) (n : Nat) :
    (s.setDone t n).done t' = if t' = t then n else s.done t' := by
  simp [done, setDone, Function.update_apply]

/-- An interrupt changes nothing but the device. -/
theorem interrupt_eq (s : IpcSys) (t : PciefTgt) : ∃ irq, s.interrupt t = { s with irq := irq } := by
  rw [interrupt]
  split
  · exact ⟨_, rfl⟩
  · exact ⟨s.irq, rfl⟩

/-- An interrupt takes nothing from a completion. -/
theorem le_done_interrupt (s : IpcSys) (t t' : PciefTgt) : s.done t' ≤ (s.interrupt t).done t' := by
  rw [interrupt]
  split
  · rw [done_setDone]
    split
    · next ht => exact ht ▸ Nat.le_succ _
    · exact le_rfl
  · exact le_rfl

/-- An interrupt that is heard completes its completion. -/
theorem done_interrupt_ne_zero {t : PciefTgt} (h : s.irq.Hears t.intSrc) :
    (s.interrupt t).done t ≠ 0 := by
  rw [interrupt, if_pos h, done_setDone, if_pos rfl]
  exact Nat.succ_ne_zero _

/-- A step of `irq_init` that spares a completion that is awaited. -/
theorem Spares.done {op : IrqDev.IrqOp} {t : PciefTgt} (h : s.Spares op) (ht : ¬s.Unawaited t) :
    (s.irq.perform op).intDone t.intSrc = s.done t := by
  cases op with
  | reinit i =>
      refine Function.update_of_ne (fun heq => ht (h t ?_ heq)) _ _
      cases t <;> decide
  | freeIrq | freeVectors | alloc | set | request =>
      rw [IrqDev.intDone_perform _ (by simp)]
      rfl

/-- The steps of the machine. -/
inductive Move (mbox : Bool) (s : IpcSys) : IpcAct → IpcSys → Prop
  | fault {c b0} : Move mbox s (.call c b0) (s.setPc c .fault)
  | call {c b0 t} : Move mbox s (.call c b0)
      { s.setPc c (.entered t) with
        rung := Function.update s.rung c false
        answered := Function.update s.answered c false }
  | ringMbox {c t} (hpc : s.pc c = .entered t) (hm : mbox = true ∧ t ≠ .dsp) :
      Move mbox s (.switch c) ((s.setPc c (.switched t)).ring c t)
  | switch {c t} (hpc : s.pc c = .entered t) (hm : mbox = true → t = .dsp) :
      Move mbox s (.switch c) (s.setPc c (.switched t))
  | lock {c t} (hpc : s.pc c = .switched t) (hfree : s.mutex t = none) :
      Move mbox s (.lock c)
        { s.setPc c (.locked t) with mutex := Function.update s.mutex t (some c) }
  | reinit {c t} (hpc : s.pc c = .locked t) :
      Move mbox s (.reinit c) ((s.setPc c (.reinited t)).setDone t 0)
  | wait {c t} (hpc : s.pc c = .reinited t) (hm : mbox = true) :
      Move mbox s (.setSgi c) (s.setPc c (.waiting t))
  | ringSgi {c t} (hpc : s.pc c = .reinited t) (hm : mbox = false) :
      Move mbox s (.setSgi c) ((s.setPc c (.waiting t)).ring c t)
  | wake {c t left} (hpc : s.pc c = .waiting t) (hdone : s.done t ≠ 0) :
      Move mbox s (.wake c left)
        ((s.setPc c (.waited t (left.1.setWidth 32 ≠ 0))).setDone t (s.done t - 1))
  | timeout {c t} (hpc : s.pc c = .waiting t) (hdone : s.done t = 0) :
      Move mbox s (.timeout c) (s.setPc c (.waited t false))
  | unlock {c t ok} (hpc : s.pc c = .waited t ok) :
      Move mbox s (.unlock c)
        { s.setPc c (.returned ok) with mutex := Function.update s.mutex t none }
  | waitInt {t} : Move mbox s (.waitInt t) (s.setDone t (s.done t - 1))
  | irqInit {b0 b1 o} : Move mbox s (.irqInit b0 b1 o)
      { s with irqOps := s.irq.irqOps b0.toNat b1.toNat o }
  | irqOp {op ops} (hops : s.irqOps = op :: ops) : Move mbox s .irqOp
      { s with irq := s.irq.perform op, irqOps := ops }
  | otherInt {t} : Move mbox s (.otherInt t) (s.interrupt t)
  | take {t bell serving} : Move mbox s (.take t) { s with bell := bell, serving := serving }
  | respond {t} : Move mbox s (.respond t) (s.respond t)

/-- Every step is one of these. -/
theorem move_of_step {a : IpcAct} (h : step mbox s a = some s') : Move mbox s a s' := by
  cases a with
  | call c b0 =>
      simp only [step] at h
      split at h
      · split at h
        · cases h; exact .fault
        · cases h; exact .call
      · contradiction
  | switch c =>
      simp only [step] at h
      split at h
      · next t hpc =>
          split at h
          · next hm => cases h; exact .ringMbox hpc hm
          · next hm => cases h; exact .switch hpc fun hmbox => by simpa [hmbox] using hm
      · contradiction
  | lock c =>
      simp only [step] at h
      split at h
      · next hpc =>
          split at h
          · next hfree => cases h; exact .lock hpc hfree
          · contradiction
      · contradiction
  | reinit c =>
      simp only [step] at h
      split at h
      · next hpc => cases h; exact .reinit hpc
      · contradiction
  | setSgi c =>
      simp only [step] at h
      split at h
      · next hpc =>
          split at h
          · next hm => cases h; exact .wait hpc hm
          · next hm => cases h; exact .ringSgi hpc (by simpa using hm)
      · contradiction
  | wake c left =>
      simp only [step] at h
      split at h
      · next hpc =>
          split at h
          · next hdone => cases h; exact .wake hpc hdone
          · contradiction
      · contradiction
  | timeout c =>
      simp only [step] at h
      split at h
      · next hpc =>
          split at h
          · next hdone => cases h; exact .timeout hpc hdone
          · contradiction
      · contradiction
  | unlock c =>
      simp only [step] at h
      split at h
      · next hpc => cases h; exact .unlock hpc
      · contradiction
  | waitInt t =>
      simp only [step] at h
      split at h
      · cases h; exact .waitInt
      · contradiction
  | irqInit b0 b1 o =>
      simp only [step] at h
      split at h
      · cases h; exact .irqInit
      · contradiction
  | irqOp =>
      simp only [step] at h
      split at h
      · contradiction
      · next hops => cases h; exact .irqOp hops
  | otherInt t => cases h; exact .otherInt
  | take t =>
      simp only [step] at h
      split at h
      · cases h; exact .take
      · contradiction
  | respond t =>
      simp only [step] at h
      split at h
      · cases h; exact .respond
      · contradiction

/-! ## the invariant -/

/-- What a call's position says: it has rung where it should have, and an
answer between its doorbell and the end of its wait is in the completion. -/
def CallOk (mbox : Bool) (s : IpcSys) (c : Nat) : IpcPc → Prop
  | .idle | .fault => True
  | .entered _ => s.rung c = false
  | .switched _ => s.rung c = mbox
  | .locked t => s.mutex t = some c ∧ s.rung c = mbox
  | .reinited t =>
      s.mutex t = some c ∧ s.rung c = mbox ∧ (s.answered c = true → s.done t ≠ 0)
  | .waiting t =>
      s.mutex t = some c ∧ s.rung c = true ∧ (s.answered c = true → s.done t ≠ 0)
  | .waited t ok => s.mutex t = some c ∧ s.rung c = true ∧ (ok = false → s.answered c = false)
  | .returned ok => s.rung c = true ∧ (ok = false → s.answered c = false)

/-- **The invariant**: every call is as its position says, and only a call that
has rung is answered. -/
structure Inv (mbox : Bool) (s : IpcSys) : Prop where
  calls : ∀ c, s.CallOk mbox c (s.pc c)
  quiet : ∀ c, s.rung c = false → s.answered c = false

/-- What the position of a call is known to say. -/
theorem Inv.call {c : Nat} {p : IpcPc} (h : Inv mbox s) (hpc : s.pc c = p) : s.CallOk mbox c p :=
  hpc ▸ h.calls c

/-- A call that holds a mutex owns it. -/
theorem CallOk.owner {c : Nat} {p : IpcPc} {t : PciefTgt} (h : s.CallOk mbox c p)
    (hp : p.holds = some t) : s.mutex t = some c := by
  cases p <;> simp_all [CallOk, IpcPc.holds]

/-- From `reinit_completion` to the end of the wait a call holds the mutex. -/
theorem holds_of_window {p : IpcPc} {t : PciefTgt} (hp : p = .reinited t ∨ p = .waiting t) :
    p.holds = some t := by
  rcases hp with rfl | rfl <;> rfl

/-- What a step of others may change of a call: the count of its completion
stays above 0, and its mutex stays its own. -/
theorem CallOk.frame {c : Nat} {p : IpcPc} (h : s.CallOk mbox c p) (hrung : s'.rung c = s.rung c)
    (hans : s'.answered c = s.answered c)
    (hmutex : ∀ t, p.holds = some t → s'.mutex t = s.mutex t)
    (hdone : ∀ t, p = .reinited t ∨ p = .waiting t → s.answered c = true →
      s.done t ≠ 0 → s'.done t ≠ 0) : s'.CallOk mbox c p := by
  cases p <;> simp_all [CallOk, IpcPc.holds]

/-- A step of call `c`: it leaves the bookkeeping of the others, and the
mutexes and completions that they hold, as they are. -/
theorem Inv.callStep {c : Nat} {p : IpcPc} (h : Inv mbox s) (hpc : s'.pc = Function.update s.pc c p)
    (hc : s'.CallOk mbox c p) (hquiet : s'.rung c = false → s'.answered c = false)
    (hrung : ∀ d ≠ c, s'.rung d = s.rung d) (hans : ∀ d ≠ c, s'.answered d = s.answered d)
    (hmutex : ∀ d ≠ c, ∀ t, s.mutex t = some d → s'.mutex t = s.mutex t)
    (hdone : ∀ d ≠ c, ∀ t, s.mutex t = some d → s'.done t = s.done t) : Inv mbox s' := by
  constructor
  · intro d
    rw [hpc]
    by_cases hd : d = c
    · subst hd
      simpa using hc
    · have hcall := h.calls d
      rw [Function.update_of_ne hd]
      refine hcall.frame (hrung d hd) (hans d hd) ?_ ?_
      · intro t ht
        exact hmutex d hd t (hcall.owner ht)
      · intro t ht _ hne
        rwa [hdone d hd t (hcall.owner (holds_of_window ht))]
  · intro d
    by_cases hd : d = c
    · subst hd
      exact hquiet
    · rw [hrung d hd, hans d hd]
      exact h.quiet d

/-- A step of call `c` at a mutex that no other call has. -/
theorem Inv.holderStep {c : Nat} {p : IpcPc} {t : PciefTgt} (h : Inv mbox s)
    (hfree : ∀ d, s.mutex t = some d → d = c) (hpc : s'.pc = Function.update s.pc c p)
    (hc : s'.CallOk mbox c p) (hans : s'.answered = s.answered)
    (hrung : ∀ d, s.rung d = true ∨ d ≠ c → s'.rung d = s.rung d)
    (hmutex : ∀ t' ≠ t, s'.mutex t' = s.mutex t') (hdone : ∀ t' ≠ t, s'.done t' = s.done t') :
    Inv mbox s' := by
  have hne {d : Nat} {t' : PciefTgt} (hd : d ≠ c) (ht : s.mutex t' = some d) : t' ≠ t := by
    rintro rfl
    exact hd (hfree d ht)
  refine h.callStep hpc hc ?_ (fun d hd => hrung d (.inr hd)) ?_ ?_ ?_
  · intro hr
    rw [hans]
    cases hrc : s.rung c with
    | false => exact h.quiet c hrc
    | true => rw [hrung c (.inl hrc), hrc] at hr; cases hr
  · intro d _
    rw [hans]
  · exact fun d hd t' ht => hmutex t' (hne hd ht)
  · exact fun d hd t' ht => hdone t' (hne hd ht)

/-- The response of a target completes the completion of every call that is
answered by it, if its interrupt is heard. -/
theorem Inv.respond (h : Inv mbox s) {t : PciefTgt}
    (hheard : ∀ c ∈ s.mutex t, s.Window c t → s.rung c = true → s.irq.Hears t.intSrc) :
    Inv mbox (s.respond t) := by
  have hwindow {c : Nat} {t' : PciefTgt} (hpc : s.Window c t') (howner : s.mutex t' = some c)
      (hold : s.answered c = true → s.done t' ≠ 0) (hans : (s.respond t).answered c = true) :
      (s.interrupt t).done t' ≠ 0 := by
    cases hbefore : s.answered c with
    | true =>
        have hpos := hold hbefore
        have hle := s.le_done_interrupt t t'
        omega
    | false =>
        -- the call is answered by this response
        have hnow : s.rung c = true ∧ (s.pc c).tgt = some t := by
          simpa [IpcSys.respond, hbefore] using hans
        obtain rfl : t' = t := by
          rcases hpc with hpc | hpc <;> simpa [hpc, IpcPc.tgt] using hnow.2
        exact done_interrupt_ne_zero (hheard c howner hpc hnow.1)
  obtain ⟨irq, hirq⟩ := s.interrupt_eq t
  rw [hirq] at hwindow
  simp only [IpcSys.respond, hirq] at hwindow ⊢
  constructor
  · intro c
    have hcall := h.calls c
    dsimp only
    cases hpc : s.pc c with
    | idle | fault => trivial
    | entered | switched | locked =>
        rw [hpc] at hcall
        exact hcall
    | reinited t' =>
        rw [hpc] at hcall
        obtain ⟨howner, hrung, hold⟩ := hcall
        exact ⟨howner, hrung, hwindow (.inl hpc) howner hold⟩
    | waiting t' =>
        rw [hpc] at hcall
        obtain ⟨howner, hrung, hold⟩ := hcall
        exact ⟨howner, hrung, hwindow (.inr hpc) howner hold⟩
    | waited | returned => simpa [hpc, CallOk, IpcPc.tgt] using hcall
  · intro c hrung
    have hquiet := h.quiet c hrung
    simp_all

theorem inv_init (irq : IrqDev) : Inv mbox (init irq) := ⟨fun _ => trivial, fun _ _ => rfl⟩

/-- Every step that meets the condition keeps the invariant. -/
theorem inv_step {a : IpcAct} (h : Inv mbox s) (hok : Fresh mbox s a) (hs : step mbox s a = some s') :
    Inv mbox s' := by
  cases move_of_step hs with
  | @fault c => refine h.callStep rfl trivial (h.quiet c) ?_ ?_ ?_ ?_ <;> simp [setPc, done]
  | @call c b0 t =>
      refine h.callStep rfl (by simp [CallOk]) (by simp) ?_ ?_ ?_ ?_ <;> simp +contextual [setPc, done]
  | @ringMbox c t hpc hm =>
      refine h.callStep rfl (by simp [CallOk, ring, hm.1]) (by simp [ring]) ?_ ?_ ?_ ?_ <;>
        simp +contextual [setPc, ring, done]
  | @switch c t hpc hm =>
      have hcall := h.call hpc
      cases mbox with
      | true => exact absurd (hm rfl ▸ hpc) (hok rfl)
      | false => refine h.callStep rfl hcall (h.quiet c) ?_ ?_ ?_ ?_ <;> simp [setPc, done]
  | @lock c t hpc hfree =>
      have hcall := h.call hpc
      refine h.holderStep (t := t) (by simp [hfree]) rfl ?_ rfl (fun _ _ => rfl) ?_ ?_
      · simpa [CallOk, setPc] using hcall
      · simp +contextual
      · simp [setPc, done]
  | @reinit c t hpc =>
      obtain ⟨howner, hrung⟩ := h.call hpc
      refine h.holderStep (t := t) (by simp [howner]) rfl ?_ rfl (fun _ _ => rfl) ?_ ?_
      · have hans : s.answered c = false := by
          cases mbox with
          | true => exact hok rfl
          | false => exact h.quiet c hrung
        exact ⟨howner, hrung, by simp [setDone, setPc, hans]⟩
      · simp [setDone, setPc]
      · simp +contextual [setDone, setPc, done]
  | @wait c t hpc hm =>
      obtain ⟨howner, hrung, hdone⟩ := h.call hpc
      refine h.holderStep (t := t) (by simp [howner]) rfl ?_ rfl (fun _ _ => rfl) ?_ ?_
      · exact ⟨howner, hrung.trans hm, hdone⟩
      · simp [setPc]
      · simp [setPc, done]
  | @ringSgi c t hpc hm =>
      obtain ⟨howner, hrung, hdone⟩ := h.call hpc
      refine h.holderStep (t := t) (by simp [howner]) rfl ?_ rfl ?_ ?_ ?_
      · exact ⟨howner, by simp [ring], hdone⟩
      · intro d hd
        by_cases hdc : d = c
        · simp_all [ring, setPc]
        · simp [ring, setPc, hdc]
      · simp [ring, setPc]
      · simp [ring, setPc, done]
  | @wake c t left hpc _ =>
      obtain ⟨howner, hrung, hdone⟩ := h.call hpc
      refine h.holderStep (t := t) (by simp [howner]) rfl ?_ rfl (fun _ _ => rfl) ?_ ?_
      · refine ⟨howner, hrung, fun hleft => ?_⟩
        cases hans : s.answered c with
        | false => exact hans
        | true => exact absurd (hok hans) (by simpa using hleft)
      · simp [setDone, setPc]
      · simp +contextual [setDone, setPc, done]
  | @timeout c t hpc hzero =>
      obtain ⟨howner, hrung, hdone⟩ := h.call hpc
      refine h.holderStep (t := t) (by simp [howner]) rfl ?_ rfl (fun _ _ => rfl) ?_ ?_
      · refine ⟨howner, hrung, fun _ => ?_⟩
        cases hans : s.answered c with
        | false => exact hans
        | true => exact absurd hzero (hdone hans)
      · simp [setPc]
      · simp [setPc, done]
  | @unlock c t ok hpc =>
      obtain ⟨howner, hrung, hans⟩ := h.call hpc
      refine h.holderStep (t := t) (by simp [howner]) rfl ⟨hrung, hans⟩ rfl (fun _ _ => rfl) ?_ ?_
      · simp +contextual
      · simp [setPc, done]
  | @waitInt t =>
      refine ⟨fun c => (h.calls c).frame rfl rfl (fun _ _ => rfl) ?_, h.quiet⟩
      intro t' hpc hans hne
      by_cases ht : t' = t
      · subst ht
        have hnot : s.answered c = false :=
          hok c ((h.calls c).owner (holds_of_window hpc)) hpc
        rw [hnot] at hans
        cases hans
      · simpa [ht] using hne
  | irqInit => exact ⟨fun c => (h.calls c).frame rfl rfl (fun _ _ => rfl) fun _ _ _ hne => hne,
      h.quiet⟩
  | @irqOp op ops hops =>
      refine ⟨fun c => (h.calls c).frame rfl rfl (fun _ _ => rfl) ?_, h.quiet⟩
      intro t hpc hans hne
      have hspares : s.Spares op := hok op (by simp [hops])
      rw [done, hspares.done fun hun => ?_]
      · exact hne
      · have hnot := hun c ((h.calls c).owner (holds_of_window hpc)) hpc
        rw [hnot] at hans
        cases hans
  | @otherInt t =>
      have hle := s.le_done_interrupt t
      obtain ⟨irq, hirq⟩ := s.interrupt_eq t
      rw [hirq] at hle ⊢
      refine ⟨fun c => (h.calls c).frame rfl rfl (fun _ _ => rfl) ?_, h.quiet⟩
      intro t' _ _ hne
      exact Nat.pos_iff_ne_zero.mp ((Nat.pos_of_ne_zero hne).trans_le (hle t'))
  | take => exact ⟨h.calls, h.quiet⟩
  | respond => exact h.respond hok

/-- **Responses are observed** in every run whose steps meet the condition, on a
device in any state. -/
theorem responses_observed {mbox : Bool} {s : IpcSys}
    (h : Reaches (step mbox) (Fresh mbox) (fun s => ∃ irq, s = init irq) s) : s.Observed := by
  have hinv : Inv mbox s :=
    h.invariant (by rintro _ ⟨irq, rfl⟩; exact inv_init irq) fun _ _ _ hi hok hs =>
      inv_step hi hok hs
  constructor
  · intro c hsent
    have hcall := hinv.calls c
    cases hpc : s.pc c <;> simp_all [CallOk, IpcPc.Sent]
  · intro c hpc
    exact (hinv.call hpc).2 rfl

/-- A completion that is emptied after the response is a lost response, if
nothing else comes. -/
theorem lost_of_reinit {c : Nat} {t : PciefTgt} (hpc : s.pc c = .locked t)
    (hans : s.answered c = true) : ∃ s', exec (step true) s
      [.reinit c, .setSgi c, .timeout c, .unlock c] = some s' ∧ ¬ s'.Observed := by
  have hrun : exec (step true) s [.reinit c, .setSgi c, .timeout c, .unlock c] =
      some { (s.setPc c (.returned false)).setDone t 0 with
        mutex := Function.update s.mutex t none } := by
    simp [exec, step, hpc, setPc, setDone, done]
  refine ⟨_, hrun, fun hobs => ?_⟩
  have hlost : s.answered c = false := hobs.success c (by simp [setPc, setDone])
  rw [hans] at hlost
  cases hlost

/-- So is a completion that `irq_init` empties, and a response whose interrupt is
not heard: the wait of an answered call without a count times out. -/
theorem lost_of_empty {c : Nat} {t : PciefTgt} (hpc : s.pc c = .waiting t)
    (hdone : s.done t = 0) (hans : s.answered c = true) :
    ∃ s', exec (step mbox) s [.timeout c, .unlock c] = some s' ∧ ¬ s'.Observed := by
  have hrun : exec (step mbox) s [.timeout c, .unlock c] =
      some { s.setPc c (.returned false) with mutex := Function.update s.mutex t none } := by
    simp [exec, step, hpc, hdone, setPc]
  refine ⟨_, hrun, fun hobs => ?_⟩
  have hlost : s.answered c = false := hobs.success c (by simp [setPc])
  rw [hans] at hlost
  cases hlost

/-! ## runs -/

/-- Some time is left. -/
def someLeft : { l : U64 // l ≠ 0 } := ⟨250, by decide⟩

/-- Three vectors and their interrupts are given. -/
def threeVectors : IrqOutcome := ⟨3, 40, fun _ => 0⟩

/-- A GPU behind `irq_init`, in irq test mode or not. -/
def gpuDev (testMode : Int) : IrqDev := ((IrqDev.zeroed .gpu).irqInit 2 testMode threeVectors).1

theorem init_gpuDev (testMode : Int) : ∃ irq, init (gpuDev testMode) = init irq := ⟨_, rfl⟩

/-- Call 0 of a build with the mailbox, for the target `b0`, up to the wait;
the target responds at once if `fast`, and else behind it. -/
def callRun (b0 : BitVec 8) (t : PciefTgt) (fast : Bool) : List IpcAct :=
  [.call 0 b0, .switch 0] ++ (if fast then [.take t, .respond t] else []) ++
    [.lock 0, .reinit 0, .setSgi 0] ++ (if fast then [] else [.take t, .respond t])

theorem responses_observed_smc :
    ∃ s, Reaches (step true) (Fresh true) (fun s => ∃ irq, s = init irq) s ∧
      s.pc 0 = .returned true ∧ s.answered 0 = true ∧ s.Observed := by
  obtain ⟨s, h, hpc, hans⟩ : ∃ s,
      Reaches (step true) (Fresh true) (fun s => ∃ irq, s = init irq) s ∧
        s.pc 0 = .returned true ∧ s.answered 0 = true :=
    exists_reaches (callRun 2 .smc false ++ [.wake 0 someLeft, .unlock 0]) (init_gpuDev 1)
      (by decide)
  exact ⟨s, h, hpc, hans, responses_observed h⟩

/-- A response that comes in front of `reinit_completion` is lost, and the DSP
never gets its doorbell.  Without the mailbox `irq_init` empties a completion
behind the response, and outside irq test mode no response is heard. -/
theorem responses_lost :
    (∃ s, Reaches (step true) anyStep (fun s => ∃ irq, s = init irq) s ∧
      ¬ (s.pc 0 = .returned false → s.answered 0 = false)) ∧
    (∃ s, Reaches (step true) anyStep (fun s => ∃ irq, s = init irq) s ∧
      ¬ ((s.pc 0).Sent → s.rung 0 = true)) ∧
    (∃ s, Reaches (step false) anyStep (fun s => ∃ irq, s = init irq) s ∧
      s.irq.irqTestMode = 1 ∧ ¬ (s.pc 0 = .returned false → s.answered 0 = false)) ∧
    ∃ s, Reaches (step false) anyStep (fun s => ∃ irq, s = init irq) s ∧
      s.irq.irqTestMode = 0 ∧ ¬ (s.pc 0 = .returned false → s.answered 0 = false) :=
  ⟨exists_reaches (callRun 2 .smc true ++ [.timeout 0, .unlock 0]) (init_gpuDev 1) (by decide),
    exists_reaches [.call 0 0, .switch 0, .lock 0, .reinit 0, .setSgi 0] (init_gpuDev 1)
      (by decide),
    exists_reaches (callRun 2 .smc false ++ [.irqInit 2 1 threeVectors] ++
      List.replicate 12 .irqOp ++ [.timeout 0, .unlock 0]) (init_gpuDev 1) (by decide),
    exists_reaches (callRun 2 .smc false ++ [.timeout 0, .unlock 0]) (init_gpuDev 0) (by decide)⟩

end IpcSys

end MtEmu
