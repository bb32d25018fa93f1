import MtEmu.Engine.Driver

/-!
# MtEmu.Engine.Stall

Work that was issued and waits on an idle channel.

`issue_pending` looks at the lists of an idle channel only; on a busy one it
does nothing, and what was submitted stays in `desc_submitted`.  An interrupt
that finishes a descriptor makes the channel idle without a look at what
waits.  So a second descriptor waits until somebody calls `issue_pending`
again (`stalled`).  As long as no asked descriptor waits behind the one that
an interrupt finishes, and none waits when an idle channel is configured
(`NothingBehind`), issued work is never left on an idle channel
(`issued_never_stalls`).
-/

namespace MtEmu

open Machine

namespace Driver

variable {s s' : Driver}

/-- On a ready channel nothing waits for which `issue_pending` was called. -/
def NoStall (s : Driver) : Prop := s.chan.Ready → ∀ d ∈ s.chan.vc.queued, d.id ∉ s.asked

instance : Decidable s.NoStall := inferInstanceAs (Decidable (_ → _))

/-- A done interrupt finishes the first issued descriptor. -/
def Finishes (s : Driver) : Prop :=
  s.chan.request = .stop ∨
    s.chan.request = .none ∧ ∀ d ∈ s.chan.vc.issued.head?, d.body.chunks = []

instance : Decidable s.Finishes := inferInstanceAs (Decidable (_ ∨ _))

/-- An interrupt that finishes a descriptor on a configured channel leaves no
asked descriptor behind, and none waits when an idle channel is configured. -/
def NothingBehind (s : Driver) : ChanAct → Prop
  | .doneInterrupt =>
      s.chan.configured = true → s.chan.vc.issued ≠ [] → s.Finishes →
        ∀ d ∈ s.chan.vc.behind, d.id ∉ s.asked
  | .abortInterrupt => s.chan.configured = true → ∀ d ∈ s.chan.vc.behind, d.id ∉ s.asked
  | .config _ =>
      s.chan.request = .none → s.chan.status = .idle → ∀ d ∈ s.chan.vc.queued, d.id ∉ s.asked
  | _ => True

instance (a : ChanAct) : Decidable (s.NothingBehind a) := by
  unfold NothingBehind
  split <;> infer_instance

/-- **The invariant**: besides `NoStall`, nothing is asked for before it is
submitted. -/
structure Flowing (s : Driver) : Prop where
  distinct : s.chan.vc.Distinct s.nextId
  asked : ∀ id ∈ s.asked, id < s.nextId
  allocated : ∀ d ∈ s.chan.vc.allocated, d.id ∉ s.asked
  noStall : s.NoStall

theorem flowing_of_init (h : Init s) : s.Flowing := by
  have hd := distinct_of_init h
  obtain ⟨dir, info, rfl⟩ := h
  constructor
  · exact hd
  · simp
  · simp
  · simp [NoStall]

/-- `issue_pending` asks for all that waits, and leaves nothing of it on a
ready channel. -/
theorem Flowing.issue {ch : MtdmaChan} {hd : Option Handed} (h : s.Flowing)
    (hi : s.chan.Issue ch hd) :
    ({ s with chan := ch, asked := s.queuedIds ++ s.asked }.give hd).Flowing := by
  have halloc : ch.vc.allocated = s.chan.vc.allocated := by
    cases hi with
    | start _ _ hs => exact hs.allocated
    | _ => rfl
  constructor
  · simpa using h.distinct.of_perm (List.Perm.of_eq hi.liveIds)
  · intro id hid
    simp only [give_asked, give_nextId, List.mem_append] at hid ⊢
    exact hid.elim h.distinct.lt_of_queued (h.asked id)
  · intro d hd
    simp only [give_chan, halloc] at hd
    simp only [give_asked, List.mem_append, not_or]
    exact ⟨h.distinct.not_queued hd, h.allocated d hd⟩
  · intro hready d hd
    simp only [give_chan] at hready hd
    cases hi with
    | ignored hno => exact absurd hready hno
    | nothing _ hq => simp_all [VirtDmaChan.vchanIssuePending, VirtDmaChan.queued]
    | start _ _ hs => exact absurd hready (hs.not_ready rfl)

/-- The done interrupt starts the next chunk or finishes a descriptor. -/
theorem Flowing.done {ch : MtdmaChan} {hd : Option Handed} (h : s.Flowing)
    (hok : s.NothingBehind .doneInterrupt) (hdone : s.chan.Done ch hd) :
    ({ s.answer with chan := ch }.give hd).Flowing := by
  have halloc : ch.vc.allocated = s.chan.vc.allocated := by
    cases hdone with
    | next _ _ _ hs => exact hs.allocated
    | retires => exact VirtDmaChan.allocated_retire
    | _ => rfl
  constructor
  · simpa using h.distinct.of_sublist hdone.liveIds
  · simpa using h.asked
  · simpa [halloc] using h.allocated
  · intro hready d hd
    simp only [give_chan, give_asked, answer_asked] at hready hd ⊢
    cases hdone with
    | nothing => exact h.noStall hready d hd
    | next _ _ _ hs => exact absurd hready (hs.not_ready rfl)
    | retires hi hreq =>
        rw [VirtDmaChan.queued_retire] at hd
        exact hok hready.1 (by simp [hi]) (by simpa [Finishes, hi] using hreq) d hd
    | pauses => exact absurd hready.2.2 (by simp)

/-- A termination leaves the channel unconfigured or busy. -/
theorem Flowing.terminate {running : Bool} {ch : MtdmaChan} (h : s.Flowing)
    (ht : s.chan.Terminate running ch) : (s.terminated ch).Flowing := by
  constructor
  · exact ht.vc ▸ h.distinct
  · exact h.asked
  · exact ht.vc ▸ h.allocated
  · intro hready
    cases ht with
    | nothing => exact h.noStall hready
    | reset => exact absurd hready.1 (by simp)
    | stop => exact absurd hready.2.1 (by simp)

/-- **Step**: the invariant is kept. -/
theorem Flowing.call {a : ChanAct} {r : ChanCall} (h : s.Flowing) (hok : s.NothingBehind a)
    (hc : s.chan.Calls s.nextId a r) : (s.after a r).Flowing := by
  have hdist := distinct_after hc h.distinct
  cases hc with
  | prep _ _ =>
      constructor
      · exact hdist
      · exact fun id hid => Nat.lt_succ_of_lt (h.asked id hid)
      · intro e he
        rcases List.mem_append.mp he with he | he
        · exact h.allocated e he
        · obtain rfl := List.mem_singleton.mp he
          exact fun hmem => Nat.lt_irrefl _ (h.asked _ hmem)
      · exact h.noStall
  | submit hs =>
      obtain ⟨l, d, r, heq, _, rfl⟩ := VirtDmaChan.exists_of_vchanTxSubmit hs
      have halloc := h.allocated
      rw [heq] at halloc
      constructor
      · exact hdist
      · exact h.asked
      · exact fun e he => halloc e (by simp at he ⊢; tauto)
      · intro hready e he
        simp only [after_chan, VirtDmaChan.queued, ← List.append_assoc, List.mem_append,
          List.mem_singleton] at he
        rcases he with he | rfl
        · exact h.noStall hready e (List.mem_append.mpr he)
        · exact halloc d (by simp)
  | issue hi => exact h.issue hi
  | done hdone => exact h.done hok hdone
  | abort =>
      constructor
      · exact hdist
      · exact h.asked
      · exact fun d hd => h.allocated d (VirtDmaChan.allocated_retire ▸ hd)
      · intro hready d hd
        exact hok hready.1 d (VirtDmaChan.queued_retire ▸ hd)
  | terminate ht => exact h.terminate ht
  | free ht => exact h.terminate ht
  | config =>
      constructor
      · exact hdist
      · exact h.asked
      · exact h.allocated
      · exact fun hready => hok hready.2.1 hready.2.2
  | freeNothing =>
      rw [after_freeNothing]
      exact h
  | prepFails _ | alloc => exact h

/-- **Run**: issued work never waits on an idle channel, when no asked
descriptor waits behind one that an interrupt finishes. -/
theorem issued_never_stalls (h : Reaches step NothingBehind Init s) : s.NoStall :=
  (h.invariant (fun _ => flowing_of_init) fun _ _ _ hf hok hs => by
    obtain ⟨r, hc, rfl⟩ := call_of_step hs
    exact hf.call hok hc).noStall

/-- A client that configures the channel, and prepares and submits a
descriptor of one chunk. -/
def submitOne (id : Nat) : List ChanAct :=
  [.config ⟨0x1000, 0x2000⟩, .prep [⟨0x8000, 64⟩] 1 true, .submit id]

theorem issued_never_stalls_twoDescs :
    ∃ s, Reaches step NothingBehind Init s ∧ s.chan.Ready ∧ s.NoStall ∧
      s.chan.vc.queued.map (·.id) = [1] := by
  -- the second descriptor is submitted while the first one runs, and not issued
  obtain ⟨s, hr, hready, hq⟩ : ∃ s, Reaches step NothingBehind Init s ∧ s.chan.Ready ∧
      s.chan.vc.queued.map (·.id) = [1] :=
    exists_reaches (submitOne 0 ++ [.issuePending] ++ submitOne 1 ++ [.doneInterrupt])
      ⟨.memToDev, ⟨0, 0, 0, 0, 0, 1⟩, rfl⟩ (by decide)
  exact ⟨s, hr, hready, issued_never_stalls hr, hq⟩

/-- **A stall**: two descriptors are submitted and issued one after the other,
and the interrupt of the first leaves the second on an idle channel. -/
theorem stalled : ∃ s, Reaches step anyStep Init s ∧ ¬ s.NoStall :=
  exists_reaches (submitOne 0 ++ [.issuePending] ++ submitOne 1 ++ [.issuePending, .doneInterrupt])
    ⟨.memToDev, ⟨0, 0, 0, 0, 0, 1⟩, rfl⟩ (by decide)

end Driver

end MtEmu
