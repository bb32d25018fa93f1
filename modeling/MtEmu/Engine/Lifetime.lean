import MtEmu.Engine.DmaRw

/-!
# MtEmu.Engine.Lifetime

What runs when `emu_dma_rw` unmaps its buffer.

`terminate_all` does not stop a running chunk: it leaves a request that an
interrupt may serve later, and reports success.  Nor does it take back what is
queued when it finds the hardware idle: a done interrupt that is handled
afterwards goes on with the next chunk.  The buffer is unmapped in safety
(`nothing_runs_at_unmap`) when neither happens (`Stopped`); otherwise a chunk
runs on into pages that were given up (`running_at_unmap`).
-/

namespace MtEmu

open Machine

/-- While a transfer may run. -/
def RwPc.Running (p : RwPc) : Prop := p = .waiting ∨ p = .judged

instance (p : RwPc) : Decidable p.Running := inferInstanceAs (Decidable (_ ∨ _))

/-- Between `dmaengine_slave_config` and `dmaengine_terminate_all`. -/
def RwPc.Configured : RwPc → Prop
  | .configured | .prepped | .submitted | .waiting | .judged => True
  | _ => False

/-! ## the channel -/

namespace EngineSys

variable {s s' : EngineSys}

/-- Nothing is executed, and the channel does not wait for an interrupt. -/
def Settled (s : EngineSys) : Prop := s.running = [] ∧ s.chan.status ≠ .busy

/-- A done interrupt on a channel that is not busy finds no chunk to go on
with. -/
def NoRestart (s : EngineSys) : Prop :=
  ∀ f ∈ s.isr, f.doneOver = false → f.status &&& intrDone ≠ 0 → s.chan.status ≠ .busy →
    s.chan.request = .none → ∀ d ∈ s.chan.vc.issued.head?, d.body.chunks = []

instance : Decidable s.NoRestart := inferInstanceAs (Decidable (∀ _ ∈ _, _))

/-- The hardware, the interrupt and the tasklet leave the channel configured. -/
theorem Move.configured {a : EngineAct} (hm : Move s a s') (ha : a.OfHardware) :
    s'.chan.configured = s.chan.configured := by
  cases hm with
  | isrDone _ _ hdone => simpa using hdone.configured
  | finished | lost | isrReads | isrNotDone | isrAbort | isrNoAbort | taskletTakes | taskletCalls => rfl
  | _ => cases ha

/-- On a settled channel they start nothing. -/
theorem Settled.hw {a : EngineAct} (h : s.Settled) (hok : a = .isrDone → s.NoRestart)
    (ha : a.OfHardware) (hm : Move s a s') : s'.Settled := by
  cases hm with
  | finished hrun => simp [h.1] at hrun
  | @isrDone status ch hd hisr hst hdone =>
      cases hdone with
      | next hi hreq hc _ => exact absurd (hok rfl _ hisr rfl hst h.2 hreq _ (by simp [hi])) hc
      | nothing => exact h
      | retires => exact ⟨h.1, by simp [give]⟩
      | pauses => exact ⟨h.1, by simp [give]⟩
  | isrAbort => exact ⟨h.1, by simp [MtdmaChan.mtdmaAbortInterrupt]⟩
  | lost | isrReads | isrNotDone | isrNoAbort | taskletTakes | taskletCalls => exact h
  | _ => cases ha

/-- Configuring, preparing and submitting start nothing either, and leave a
configured channel configured. -/
theorem Settled.client {a : EngineAct} (h : s.Settled)
    (ha : (∃ c, a = .config c) ∨ (∃ sgl len ok, a = .prep sgl len ok) ∨ ∃ id, a = .submit id)
    (hm : Move s a s') :
    s'.Settled ∧ (s.chan.configured = true ∨ (∃ c, a = .config c) → s'.chan.configured = true) := by
  rcases ha with ⟨c, rfl⟩ | ⟨sgl, len, ok, rfl⟩ | ⟨id, rfl⟩ <;> cases hm
  · exact ⟨h, fun _ => rfl⟩
  · exact ⟨h, by simp⟩
  · exact ⟨h, by simp⟩
  · exact ⟨h, by simp⟩

/-- A termination that finds nothing executed settles a configured channel. -/
theorem settled_of_terminate {ch : MtdmaChan} (h : s.running = []) (hc : s.chan.configured = true)
    (ht : s.chan.Terminate s.busy ch) : Settled { s with chan := ch } := by
  cases ht with
  | nothing hno =>
      rw [hc] at hno
      cases hno
  | reset => exact ⟨h, by simp⟩
  | stop _ _ hrun => simp [busy, h] at hrun

/-- A settled channel stays so when it is given up. -/
theorem Settled.free {inTime : Bool} (h : s.Settled) (hm : Move s (.freeChanResources inTime) s') :
    s'.Settled := by
  cases hm with
  | freeNothing => exact h
  | free ht =>
      cases ht with
      | nothing => exact h
      | reset => exact ⟨h.1, by simp⟩
      | stop _ hbusy => exact absurd hbusy h.2

end EngineSys

/-! ## the call -/

namespace RwSys

variable {r r' : RwSys}

/-- `emu_dma_rw` terminates the channel when nothing is executed, and outside
the wait no done interrupt goes on with a chunk on a channel that is not busy. -/
def Stopped (r : RwSys) : RwAct → Prop
  | .terminateAll => r.eng.running = []
  | .hw .isrDone => ¬ r.pc.Running → r.eng.NoRestart
  | _ => True

instance (a : RwAct) : Decidable (r.Stopped a) := by
  unfold Stopped
  split <;> infer_instance

/-- **The invariant**: outside the wait the channel is settled. -/
structure Settling (r : RwSys) : Prop where
  settled : ¬ r.pc.Running → r.eng.Settled
  configured : r.pc.Configured → r.eng.chan.configured = true

/-- Configuring, preparing and submitting keep the invariant. -/
theorem Settling.client {a : EngineAct} (h : r.Settling) (hrun : ¬ r.pc.Running)
    (ha : (∃ c, a = .config c) ∨ (∃ sgl len ok, a = .prep sgl len ok) ∨ ∃ id, a = .submit id)
    (hc : r.pc.Configured ∨ ∃ c, a = .config c) (he : r.eng.step a = some r'.eng) :
    r'.Settling := by
  obtain ⟨hs, hconf⟩ := (h.settled hrun).client ha (EngineSys.move_of_step he)
  constructor
  · exact fun _ => hs
  · exact fun _ => hconf (hc.imp_left h.configured)

/-- **Step**: the invariant is kept. -/
theorem Settling.move {a : RwAct} (h : r.Settling) (hok : r.Stopped a) (hm : Move r a r') :
    r'.Settling := by
  cases hm with
  | @outside _ _ p p' hpc hp hpc' hp' heng =>
      constructor
      · intro _
        rw [heng]
        apply h.settled
        rw [hpc]
        cases p <;> simp_all [RwPc.Running]
      · rw [hpc']
        cases p' <;> simp_all [RwPc.Configured]
  | reinit hpc =>
      constructor
      · exact fun _ => h.settled (by simp [hpc, RwPc.Running])
      · simp [RwPc.Configured]
  | config hpc he =>
      exact h.client (by simp [hpc, RwPc.Running]) (.inl ⟨_, rfl⟩) (.inr ⟨_, rfl⟩) he
  | prepFails hpc he =>
      exact h.client (by simp [hpc, RwPc.Running]) (.inr (.inl ⟨_, _, _, rfl⟩))
        (.inl (by simp [hpc, RwPc.Configured])) he
  | prep hpc he =>
      exact h.client (by simp [hpc, RwPc.Running]) (.inr (.inl ⟨_, _, _, rfl⟩))
        (.inl (by simp [hpc, RwPc.Configured])) he
  | submitFails hpc _ he =>
      exact h.client (by simp [hpc, RwPc.Running]) (.inr (.inr ⟨_, rfl⟩))
        (.inl (by simp [hpc, RwPc.Configured])) he
  | submit hpc _ he =>
      exact h.client (by simp [hpc, RwPc.Running]) (.inr (.inr ⟨_, rfl⟩))
        (.inl (by simp [hpc, RwPc.Configured])) he
  | issue hpc he =>
      have hc := h.configured (by simp [hpc, RwPc.Configured])
      cases EngineSys.move_of_step he with
      | issue hi =>
          constructor
          · simp [RwPc.Running]
          · intro _
            simpa [hi.configured] using hc
  | woke hpc =>
      constructor
      · simp [RwPc.Running]
      · exact fun _ => h.configured (by simp [hpc, RwPc.Configured])
  | timedOut hpc =>
      constructor
      · simp [RwPc.Running]
      · exact fun _ => h.configured (by simp [hpc, RwPc.Configured])
  | terminate hpc he =>
      cases EngineSys.move_of_step he with
      | terminate ht =>
          constructor
          · intro _
            have hc := h.configured (by simp [hpc, RwPc.Configured])
            exact EngineSys.settled_of_terminate hok hc ht
          · simp [RwPc.Configured]
  | release hpc he =>
      constructor
      · intro _
        exact (h.settled (by simp [hpc, RwPc.Running])).free (EngineSys.move_of_step he)
      · simp [RwPc.Configured]
  | @hw a eng ha he =>
      have hm := EngineSys.move_of_step he
      constructor
      · intro hpc
        refine (h.settled hpc).hw ?_ ha hm
        rintro rfl
        exact hok hpc
      · intro hpc
        exact (hm.configured ha).trans (h.configured hpc)

end RwSys

end MtEmu
