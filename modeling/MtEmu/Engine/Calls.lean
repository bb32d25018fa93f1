import MtEmu.Engine.Core

/-!
# MtEmu.Engine.Calls

What is called on a channel, in any order: the callbacks of the dmaengine and
the two interrupt handlers.

Every machine that runs a channel runs these calls.  The machines differ in
what they keep beside the channel (the hardware, the tasklet, the records that
a property is about) and in where an interrupt comes from.  What a call does to
the channel, to the identity of the next descriptor and to the hardware is said
here once: by `MtdmaChan.call` as the source has it, and by `MtdmaChan.Calls`,
one constructor for each way a call can end, as the proofs use it.
-/

namespace MtEmu

/-- The callbacks of the dmaengine and the interrupt handlers.  What a call
reads from outside of the channel is an argument: whether an allocation
succeeds, and what the status register says each time it is read. -/
inductive ChanAct where
  | prep (sgl : List SgEntry) (len : U32) (allocOk : Bool)
  | submit (id : Nat)
  | issuePending
  | doneInterrupt
  | abortInterrupt
  | terminateAll (running : Bool)
  | freeChanResources (polls : List Bool)
  | allocChanResources
  | config (config : DmaSlaveConfig)

/-- What a call leaves: the channel, the identity that the next descriptor will
get, and the chunk that was handed to the hardware. -/
structure ChanCall where
  chan : MtdmaChan
  nextId : Nat
  handed : Option Handed

namespace MtdmaChan

/-- One call; `none` if the descriptor to submit is not there. -/
def call (ch : MtdmaChan) (nextId : Nat) : ChanAct → Option ChanCall
  | .prep sgl len allocOk =>
      match ch.mtdmaDevicePrepSlaveSg nextId sgl len allocOk with
      | none => some ⟨ch, nextId, none⟩
      | some ch => some ⟨ch, nextId + 1, none⟩
  | .submit id => (ch.vc.vchanTxSubmit id).map fun vc => ⟨{ ch with vc := vc }, nextId, none⟩
  | .issuePending =>
      let r := ch.mtdmaDeviceIssuePending
      some ⟨r.1, nextId, r.2⟩
  | .doneInterrupt =>
      let r := ch.mtdmaDoneInterrupt
      some ⟨r.1, nextId, r.2⟩
  | .abortInterrupt => some ⟨ch.mtdmaAbortInterrupt, nextId, none⟩
  | .terminateAll running => some ⟨(ch.mtdmaDeviceTerminateAll running).1, nextId, none⟩
  | .freeChanResources polls => some ⟨ch.mtdmaFreeChanResources polls, nextId, none⟩
  -- the channel is left as it is, whether it can be had or not
  | .allocChanResources => some ⟨ch, nextId, none⟩
  | .config config => some ⟨ch.mtdmaDeviceConfig config, nextId, none⟩

/-- The ways a call can end. -/
inductive Calls (ch : MtdmaChan) (nextId : Nat) : ChanAct → ChanCall → Prop
  | prepFails {sgl len allocOk} (h : ch.mtdmaDeviceTransfer sgl len allocOk = none) :
      Calls ch nextId (.prep sgl len allocOk) ⟨ch, nextId, none⟩
  | prep {sgl len allocOk body} (h : ch.mtdmaDeviceTransfer sgl len allocOk = some body)
      (hchunks : body.chunks ≠ []) :
      Calls ch nextId (.prep sgl len allocOk)
        ⟨{ ch with vc := ch.vc.vchanTxPrep ⟨nextId, 0, .noError, body⟩ }, nextId + 1, none⟩
  | submit {id vc} (h : ch.vc.vchanTxSubmit id = some vc) :
      Calls ch nextId (.submit id) ⟨{ ch with vc := vc }, nextId, none⟩
  | issue {ch' hd} (h : ch.Issue ch' hd) (heq : ch.mtdmaDeviceIssuePending = (ch', hd)) :
      Calls ch nextId .issuePending ⟨ch', nextId, hd⟩
  | done {ch' hd} (h : ch.Done ch' hd) (heq : ch.mtdmaDoneInterrupt = (ch', hd)) :
      Calls ch nextId .doneInterrupt ⟨ch', nextId, hd⟩
  | abort : Calls ch nextId .abortInterrupt ⟨ch.mtdmaAbortInterrupt, nextId, none⟩
  | terminate {running ch'} (h : ch.Terminate running ch') :
      Calls ch nextId (.terminateAll running) ⟨ch', nextId, none⟩
  | freeNothing : Calls ch nextId (.freeChanResources []) ⟨ch, nextId, none⟩
  | free {running polls ch'} (h : ch.Terminate running ch') :
      Calls ch nextId (.freeChanResources (running :: polls)) ⟨ch', nextId, none⟩
  | alloc : Calls ch nextId .allocChanResources ⟨ch, nextId, none⟩
  | config {config} : Calls ch nextId (.config config) ⟨ch.mtdmaDeviceConfig config, nextId, none⟩

variable {ch : MtdmaChan} {nextId : Nat} {a : ChanAct} {r : ChanCall}

/-- Every call ends in one of these ways. -/
theorem calls_of_eq (h : ch.call nextId a = some r) : ch.Calls nextId a r := by
  cases a with
  | prep sgl len allocOk =>
      simp only [call] at h
      cases hbody : ch.mtdmaDeviceTransfer sgl len allocOk with
      | none =>
          rw [mtdmaDevicePrepSlaveSg, hbody] at h
          cases h
          exact .prepFails hbody
      | some body =>
          rw [mtdmaDevicePrepSlaveSg, hbody] at h
          cases h
          exact .prep hbody (chunks_ne_nil hbody)
  | submit id =>
      obtain ⟨vc, hvc, rfl⟩ := Option.map_eq_some_iff.mp h
      exact .submit hvc
  | issuePending =>
      cases h
      exact .issue (issue_of_eq rfl) rfl
  | doneInterrupt =>
      cases h
      exact .done (done_of_eq rfl) rfl
  | abortInterrupt =>
      cases h
      exact .abort
  | terminateAll running =>
      cases h
      exact .terminate (ch.terminate_terminateAll running)
  | freeChanResources polls =>
      cases h
      cases polls with
      | nil => exact .freeNothing
      | cons running polls =>
          rw [mtdmaFreeChanResources_cons]
          exact .free (ch.terminate_terminateAll running)
  | allocChanResources =>
      cases h
      exact .alloc
  | config config =>
      cases h
      exact .config

/-- Every call leaves the live descriptors distinct. -/
theorem Calls.distinct (hc : ch.Calls nextId a r) (h : ch.vc.Distinct nextId) :
    r.chan.vc.Distinct r.nextId := by
  cases hc with
  | prep _ _ => exact h.vchanTxPrep rfl
  | submit hs => exact h.of_perm (VirtDmaChan.liveIds_vchanTxSubmit hs)
  | issue hi => exact h.of_perm (List.Perm.of_eq hi.liveIds)
  | done hd => exact h.of_sublist hd.liveIds
  | abort => exact h.of_sublist VirtDmaChan.liveIds_retire
  | terminate ht => exact ht.vc ▸ h
  | free ht => exact ht.vc ▸ h
  | prepFails _ | freeNothing | alloc | config => exact h

end MtdmaChan

end MtEmu
