import MtEmu.Lib.Machine
import MtEmu.Engine.Calls

/-!
# MtEmu.Engine.Driver

A dmaengine channel under its callbacks, in any order.

The actions of the machine are the calls of a channel (`ChanAct`), and its
steps are theirs: an interrupt may come at any time, or never, and the status
register may say anything when it is read.  Four records are kept beside the
channel:

* `asked`: the descriptors on which `issue_pending` was called after their
  submission;
* `handed`: the chunks given to the hardware, the last one first;
* `unanswered`: the descriptors with a chunk for which no interrupt has been
  handled;
* `left`: the descriptors that were queued when `terminate_all` made the
  channel idle.
-/

namespace MtEmu

open Machine

/-- A channel and its records; `nextId` is the next descriptor's identity.  No
callback reads a record: they say what was done, for the invariants to speak
of. -/
structure Driver where
  chan : MtdmaChan
  nextId : Nat
  asked : List Nat
  handed : List Handed
  unanswered : List Nat
  left : List Nat
  deriving DecidableEq

namespace Driver

/-- The identities of the descriptors that wait. -/
def queuedIds (s : Driver) : List Nat := s.chan.vc.queued.map (·.id)

/-- The identities of the descriptors that had a chunk handed. -/
def begun (s : Driver) : List Nat := s.handed.map (·.1)

/-- A chunk is handed to the hardware, if a call does that: from now on its
descriptor owes an interrupt. -/
def give (s : Driver) : Option Handed → Driver
  | none => s
  | some hd => { s with handed := hd :: s.handed, unanswered := hd.1 :: s.unanswered }

/-- An interrupt is handled: it answers for the first issued descriptor, which
is the one that the handlers look up, whether or not its chunk is the one that
the hardware has ended. -/
def answer (s : Driver) : Driver :=
  { s with
    unanswered := match s.chan.vc.issued with
      | [] => s.unanswered
      | d :: _ => s.unanswered.filter (· ≠ d.id) }

/-- A termination left the channel `ch`.  When that made it idle, nothing will
start the descriptors that were queued before it is configured and issued
again. -/
def terminated (s : Driver) (ch : MtdmaChan) : Driver :=
  { s with
    chan := ch
    left := if s.chan.configured ∧ !ch.configured then s.queuedIds ++ s.left else s.left }

/-- What a call that leaves the channel `ch` adds to the records, its chunk
apart. -/
def record (s : Driver) (ch : MtdmaChan) : ChanAct → Driver
  | .issuePending => { s with asked := s.queuedIds ++ s.asked }
  | .doneInterrupt | .abortInterrupt => s.answer
  | .terminateAll _ | .freeChanResources _ => s.terminated ch
  | .prep _ _ _ | .submit _ | .allocChanResources | .config _ => s

/-- The state after a call: the records are made of the channel before it, and
then the channel is the one that the call leaves. -/
def after (s : Driver) (a : ChanAct) (r : ChanCall) : Driver :=
  { s.record r.chan a with chan := r.chan, nextId := r.nextId }.give r.handed

/-- One callback or interrupt. -/
def step (s : Driver) (a : ChanAct) : Option Driver :=
  (s.chan.call s.nextId a).map (s.after a)

/-- A channel after its setup. -/
def Init (s : Driver) : Prop := ∃ dir info, s = ⟨.setup dir info, 0, [], [], [], []⟩

/-! ## the records -/

variable {s s' : Driver}

@[simp] theorem give_chan (hd : Option Handed) : (s.give hd).chan = s.chan := by
  cases hd <;> rfl

@[simp] theorem give_nextId (hd : Option Handed) : (s.give hd).nextId = s.nextId := by
  cases hd <;> rfl

@[simp] theorem give_asked (hd : Option Handed) : (s.give hd).asked = s.asked := by
  cases hd <;> rfl

@[simp] theorem answer_nextId : s.answer.nextId = s.nextId := rfl

@[simp] theorem answer_asked : s.answer.asked = s.asked := rfl

@[simp] theorem answer_handed : s.answer.handed = s.handed := rfl

@[simp] theorem answer_left : s.answer.left = s.left := rfl

@[simp] theorem terminated_chan (ch : MtdmaChan) : (s.terminated ch).chan = ch := rfl

@[simp] theorem after_chan (a : ChanAct) (r : ChanCall) : (s.after a r).chan = r.chan := give_chan _

@[simp] theorem after_nextId (a : ChanAct) (r : ChanCall) : (s.after a r).nextId = r.nextId :=
  give_nextId _

theorem terminated_chan_self : s.terminated s.chan = s := by
  simp [terminated]

theorem after_freeNothing : s.after (.freeChanResources []) ⟨s.chan, s.nextId, none⟩ = s :=
  terminated_chan_self

/-- Every step is a call of the channel. -/
theorem call_of_step {a : ChanAct} (h : step s a = some s') :
    ∃ r, s.chan.Calls s.nextId a r ∧ s.after a r = s' := by
  obtain ⟨r, hr, rfl⟩ := Option.map_eq_some_iff.mp h
  exact ⟨r, MtdmaChan.calls_of_eq hr, rfl⟩

/-- Every step leaves the live descriptors distinct. -/
theorem distinct_after {a : ChanAct} {r : ChanCall} (hc : s.chan.Calls s.nextId a r)
    (h : s.chan.vc.Distinct s.nextId) : (s.after a r).chan.vc.Distinct (s.after a r).nextId := by
  rw [after_chan, after_nextId]
  exact hc.distinct h

theorem distinct_of_init (h : Init s) : s.chan.vc.Distinct s.nextId := by
  obtain ⟨dir, info, rfl⟩ := h
  exact VirtDmaChan.distinct_vchanInit 0

end Driver

end MtEmu
