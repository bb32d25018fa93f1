import MtEmu.Engine.Driver

/-!
# MtEmu.Engine.Busy

What the status of a channel says about the hardware.

A busy channel has had a chunk of its first issued descriptor handed to the
hardware, and no interrupt was handled for it; an idle one starts the first
chunk of what is queued (`BusyTruthful`).  `terminate_all` breaks this: it
makes the channel idle and leaves the lists as they are, so that the next
`issue_pending` goes on with the old descriptor (`stale_chunk`).  The status
is right in every run whose terminations reset the channel only when nothing
is queued (`NothingQueued`, `busy_truthful`).
-/

namespace MtEmu

open Machine

namespace Driver

variable {s s' : Driver}

/-- The status tells the truth: a busy channel waits for an interrupt of its
first issued descriptor; on an idle one `issue_pending` hands the first chunk
of the first descriptor submitted since the last reset. -/
structure BusyTruthful (s : Driver) : Prop where
  busy : s.chan.status = .busy → ∃ d rest, s.chan.vc.issued = d :: rest ∧
    d.id ∈ s.begun ∧ d.id ∈ s.unanswered
  idle : s.chan.configured = true → s.chan.status = .idle →
    ∀ d rest, s.chan.vc.queued = d :: rest → ∃ c, s.chan.mtdmaDeviceIssuePending.2 = some (d.id, c) ∧
      d.body.chunks.head? = some c ∧ d.id ∉ s.begun ∧ d.id ∉ s.left

/-- A termination that resets the channel finds nothing queued. -/
def NothingQueued (s : Driver) : ChanAct → Prop
  | .terminateAll running => s.chan.Resets running → s.chan.vc.queued = []
  | .freeChanResources polls => ∀ running ∈ polls, s.chan.Resets running → s.chan.vc.queued = []
  | _ => True

instance (a : ChanAct) : Decidable (s.NothingQueued a) := by
  unfold NothingQueued
  split <;> infer_instance

/-! ## the invariant -/

/-- No chunk of the descriptor was handed, and it has one. -/
def Unbegun (s : Driver) (d : VirtDmaDesc MtdmaDesc) : Prop :=
  d.body.chunks ≠ [] ∧ d.id ∉ s.begun

/-- **The invariant**: only the first issued descriptor of a busy channel is
begun, and it waits for an interrupt. -/
structure Truthful (s : Driver) : Prop where
  distinct : s.chan.vc.Distinct s.nextId
  begun : ∀ id ∈ s.begun, id < s.nextId
  left : s.left = []
  request : s.chan.request = .none ∨ s.chan.request = .stop ∧ s.chan.status = .busy
  status : s.chan.status ≠ .pause
  behind : ∀ d ∈ s.chan.vc.behind ++ s.chan.vc.allocated, s.Unbegun d
  busy : s.chan.status = .busy → ∃ d rest, s.chan.vc.issued = d :: rest ∧
    d.id ∈ s.begun ∧ d.id ∈ s.unanswered
  idle : s.chan.status ≠ .busy → ∀ d ∈ s.chan.vc.issued, s.Unbegun d

theorem truthful_of_init (h : Init s) : s.Truthful := by
  have hd := distinct_of_init h
  obtain ⟨dir, info, rfl⟩ := h
  constructor
  · exact hd
  all_goals simp [begun, MtdmaChan.setup, VirtDmaChan.vchanInit, VirtDmaChan.behind]

theorem Truthful.live (h : s.Truthful) (hs : s.chan.status ≠ .busy) :
    ∀ d ∈ s.chan.vc.live, s.Unbegun d := by
  intro d hd
  have hb := h.behind d
  have hi := h.idle hs d
  cases hiss : s.chan.vc.issued <;>
    simp_all [VirtDmaChan.live, VirtDmaChan.queued, VirtDmaChan.behind]
  grind

theorem Truthful.busyTruthful (h : s.Truthful) : s.BusyTruthful := by
  constructor
  · exact h.busy
  · intro hc hi d rest hq
    have hreq : s.chan.request = .none := by
      rcases h.request with hr | ⟨_, hb⟩
      · exact hr
      · rw [hi] at hb
        cases hb
    have hd : s.Unbegun d := h.live (by simp [hi]) d (by simp [VirtDmaChan.live, hq])
    obtain ⟨c, cs, hchunks⟩ := List.exists_cons_of_ne_nil hd.1
    refine ⟨c, ?_, by simp [hchunks], hd.2, by simp [h.left]⟩
    have hiss : s.chan.vc.issued ++ s.chan.vc.submitted = d :: rest := hq
    simp [MtdmaChan.mtdmaDeviceIssuePending, hc, hreq, hi, VirtDmaChan.vchanIssuePending, hiss,
      MtdmaChan.mtdmaStartTransfer, hchunks]

/-! ## steps -/

/-- A chunk of the first issued descriptor is handed: the channel is busy with
it, and the others are as before. -/
theorem truthful_start {ch : MtdmaChan} {hd : Option Handed} (hs : s.chan.Start ch hd)
    (hdist : s.chan.vc.Distinct s.nextId) (hbegun : ∀ id ∈ s.begun, id < s.nextId)
    (hleft : s.left = []) (hreq : s.chan.request = .none) (hbusy : s.chan.status = .busy)
    (hne : ∃ d rest, s.chan.vc.issued = d :: rest ∧ d.body.chunks ≠ [])
    (hbehind : ∀ d ∈ s.chan.vc.behind ++ s.chan.vc.allocated, s.Unbegun d) :
    ({ s with chan := ch }.give hd).Truthful := by
  have hids := hs.liveIds
  cases hs with
  | nothing hno =>
      obtain ⟨d, rest, hi, hc⟩ := hne
      exact absurd (hno d rest hi) hc
  | @chunk d rest c cs hi hc d' hid _ _ _ =>
      have hnodup := hdist.nodup
      have hlt : d.id < s.nextId := hdist.lt _ (by simp [VirtDmaChan.liveIds, VirtDmaChan.live,
        VirtDmaChan.queued, hi])
      simp only [VirtDmaChan.liveIds, VirtDmaChan.live, VirtDmaChan.queued, hi, List.cons_append,
        List.map_cons, List.nodup_cons] at hnodup
      simp only [VirtDmaChan.behind, hi, List.tail_cons] at hbehind
      constructor
      · exact ⟨by simpa [hids] using hdist.nodup, by simpa [hids] using hdist.lt⟩
      · intro id hmem
        rcases List.mem_cons.mp hmem with rfl | hmem
        · exact hlt
        · exact hbegun id hmem
      · exact hleft
      · exact .inl hreq
      · simp [hbusy]
      · intro e he
        obtain ⟨hchunks, hnot⟩ := hbehind e he
        refine ⟨hchunks, ?_⟩
        have hne : e.id ≠ d.id := fun heq => hnodup.1 (heq ▸ List.mem_map_of_mem he)
        simpa [begun, give, hne] using hnot
      · intro _
        exact ⟨d', rest, rfl, by simp [begun, give, hid], by simp [give, hid]⟩
      · intro hno
        exact absurd hbusy hno

/-- `issue_pending` starts the first descriptor of an idle channel. -/
theorem Truthful.issue {ch : MtdmaChan} {hd : Option Handed} (h : s.Truthful)
    (hi : s.chan.Issue ch hd) :
    ({ s with chan := ch, asked := s.queuedIds ++ s.asked }.give hd).Truthful := by
  cases hi with
  | ignored => exact { h with }
  | nothing hready hq =>
      have hvc : s.chan.vc.vchanIssuePending.1 = s.chan.vc := by
        obtain ⟨hiss, hsub⟩ := List.append_eq_nil_iff.mp hq
        cases hv : s.chan.vc
        simp_all [VirtDmaChan.vchanIssuePending]
      rw [hvc]
      exact { h with }
  | start hready hq hs =>
      have hlive := h.live (by simp [hready.2.2])
      obtain ⟨d, rest, hcons⟩ := List.exists_cons_of_ne_nil hq
      have hiss : s.chan.vc.vchanIssuePending.1.issued = d :: rest := hcons
      refine truthful_start (s := { s with
        chan := { s.chan with vc := s.chan.vc.vchanIssuePending.1, status := .busy }
        asked := s.queuedIds ++ s.asked }) hs ?_ h.begun h.left hready.2.1 rfl ⟨d, rest, hiss, ?_⟩ ?_
      · exact h.distinct.of_perm (List.Perm.of_eq VirtDmaChan.liveIds_vchanIssuePending)
      · exact (hlive d (by simp [VirtDmaChan.live, hcons])).1
      · intro e he
        apply hlive e
        simp only [VirtDmaChan.live, hcons]
        simp only [VirtDmaChan.behind, hiss, List.tail_cons] at he
        simp at he ⊢
        exact .inr he

/-- A channel whose first issued descriptor was retired is idle, with nothing
begun. -/
theorem Truthful.retired (h : s.Truthful) :
    Truthful { s.answer with
      chan := { s.chan with vc := s.chan.vc.retire, request := .none, status := .idle } } := by
  have hunbegun : ∀ d ∈ s.chan.vc.behind ++ s.chan.vc.allocated,
      Unbegun { s.answer with
        chan := { s.chan with vc := s.chan.vc.retire, request := .none, status := .idle } } d := by
    simpa [Unbegun, Driver.begun] using h.behind
  rw [← VirtDmaChan.queued_retire, ← @VirtDmaChan.allocated_retire _ s.chan.vc] at hunbegun
  constructor
  · simpa using h.distinct.of_sublist VirtDmaChan.liveIds_retire
  · simpa [Driver.begun] using h.begun
  · simpa using h.left
  · exact .inl rfl
  · simp
  · intro d hd
    apply hunbegun
    simp only [VirtDmaChan.behind, VirtDmaChan.queued, List.mem_append] at hd ⊢
    exact hd.imp_left (Or.imp_left List.mem_of_mem_tail)
  · simp
  · intro _ d hd
    exact hunbegun d (by simp [VirtDmaChan.queued, show d ∈ s.chan.vc.retire.issued from hd])

/-- The done interrupt hands the next chunk or retires the descriptor. -/
theorem Truthful.done {ch : MtdmaChan} {hd : Option Handed} (h : s.Truthful)
    (hdone : s.chan.Done ch hd) : ({ s.answer with chan := ch }.give hd).Truthful := by
  cases hdone with
  | nothing hi =>
      have hs : s.answer = s := by simp [answer, hi]
      rw [hs]
      exact h
  | @next ch hd d rest hi hreq hc hs =>
      refine truthful_start (s := { s.answer with chan := { s.chan with status := .busy } }) hs ?_ ?_ ?_
        hreq rfl ⟨d, rest, hi, hc⟩ ?_
      · simpa using h.distinct
      · simpa [Driver.begun] using h.begun
      · simpa using h.left
      · intro e he
        simpa [Unbegun, Driver.begun] using h.behind e he
  | retires => exact h.retired
  | pauses _ hreq => rcases h.request with hr | ⟨hr, _⟩ <;> rw [hr] at hreq <;> cases hreq

/-- A termination resets the channel with nothing queued, or asks a busy one
to stop. -/
theorem Truthful.terminate {running : Bool} {ch : MtdmaChan} (h : s.Truthful)
    (hok : s.chan.Resets running → s.chan.vc.queued = []) (ht : s.chan.Terminate running ch) :
    (s.terminated ch).Truthful := by
  cases ht with
  | nothing =>
      rw [terminated_chan_self]
      exact h
  | reset hres =>
      have hq := hok hres
      have hiss := (List.append_eq_nil_iff.mp hq).1
      have hidle : s.chan.status ≠ .busy := by
        intro hb
        obtain ⟨d, rest, hi, _⟩ := h.busy hb
        simp [hi] at hiss
      constructor
      · exact h.distinct
      · exact h.begun
      · simp [terminated, queuedIds, hq, h.left]
      · exact h.request.imp_right fun hr => absurd hr.2 hidle
      · simp [terminated]
      · exact h.behind
      · simp [terminated]
      · exact fun _ => h.idle hidle
  | stop hc hb _ =>
      constructor
      · exact h.distinct
      · exact h.begun
      · simp [terminated, hc, h.left]
      · exact .inr ⟨rfl, hb⟩
      · exact h.status
      · exact h.behind
      · exact h.busy
      · exact h.idle

/-- **Step**: the invariant is kept. -/
theorem Truthful.call {a : ChanAct} {r : ChanCall} (h : s.Truthful) (hok : s.NothingQueued a)
    (hc : s.chan.Calls s.nextId a r) : (s.after a r).Truthful := by
  have hdist := distinct_after hc h.distinct
  cases hc with
  | prep _ hchunks =>
      constructor
      · exact hdist
      · exact fun id hid => Nat.lt_succ_of_lt (h.begun id hid)
      · exact h.left
      · exact h.request
      · exact h.status
      · intro e he
        simp only [after_chan, VirtDmaChan.vchanTxPrep, ← List.append_assoc, List.mem_append] at he
        rcases he with he | he
        · exact h.behind e (List.mem_append.mpr he)
        · obtain rfl := List.mem_singleton.mp he
          exact ⟨hchunks, fun hmem => Nat.lt_irrefl _ (h.begun _ hmem)⟩
      · exact h.busy
      · exact h.idle
  | submit hs =>
      obtain ⟨l, d, r, heq, _, rfl⟩ := VirtDmaChan.exists_of_vchanTxSubmit hs
      have hbehind := h.behind
      rw [heq] at hbehind
      constructor
      · exact hdist
      · exact h.begun
      · exact h.left
      · exact h.request
      · exact h.status
      · intro e he
        simp only [after_chan, VirtDmaChan.behind, List.mem_append, List.mem_singleton] at he hbehind
        rcases he with (he | he | rfl) | he
        · exact hbehind e (.inl (.inl he))
        · exact hbehind e (.inl (.inr he))
        · exact hbehind d (.inr (.inr List.mem_cons_self))
        · exact hbehind e (.inr (he.imp_right (List.mem_cons_of_mem d)))
      · exact h.busy
      · exact h.idle
  | issue hi => exact h.issue hi
  | done hdone => exact h.done hdone
  | abort => exact h.retired
  | terminate ht => exact h.terminate hok ht
  | freeNothing =>
      rw [after_freeNothing]
      exact h
  | free ht => exact h.terminate (hok _ List.mem_cons_self) ht
  | config => exact { h with }
  | prepFails _ | alloc => exact h

/-- **Run**: the status of a channel is truthful, when it is only reset with
nothing queued. -/
theorem busy_truthful (h : Reaches step NothingQueued Init s) : s.BusyTruthful :=
  (h.invariant (fun _ => truthful_of_init) fun _ _ _ ht hok hs => by
    obtain ⟨r, hc, rfl⟩ := call_of_step hs
    exact ht.call hok hc).busyTruthful

/-- A client that configures the channel, prepares and submits a descriptor of
two chunks and issues it. -/
def startTwoChunks (id : Nat) : List ChanAct :=
  [.config ⟨0x1000, 0x2000⟩, .prep [⟨0x8000, 64⟩, ⟨0x9000, 32⟩] 2 true, .submit id, .issuePending]

theorem busy_truthful_twoChunks :
    ∃ s, Reaches step NothingQueued Init s ∧ s.chan.status = .busy ∧ s.BusyTruthful := by
  -- the first descriptor completes and the channel is reset before the second one
  obtain ⟨s, hr, hb⟩ : ∃ s, Reaches step NothingQueued Init s ∧ s.chan.status = .busy :=
    exists_reaches (startTwoChunks 0 ++ [.doneInterrupt, .doneInterrupt, .terminateAll false] ++
      startTwoChunks 1) ⟨.memToDev, ⟨0, 0, 0, 0, 0, 1⟩, rfl⟩ (by decide)
  exact ⟨s, hr, hb, busy_truthful hr⟩

/-- **A stale chunk**: the interrupt of a chunk is lost and the channel is
terminated; the next descriptor is submitted, and `issue_pending` is about to
hand the second chunk of the old one. -/
theorem stale_chunk :
    ∃ s, Reaches step anyStep Init s ∧ s.queuedIds = [0, 1] ∧ 0 ∈ s.left ∧ ¬ s.BusyTruthful := by
  obtain ⟨s, hr, hc, hi, hq, hl, hb⟩ : ∃ s, Reaches step anyStep Init s ∧
      s.chan.configured = true ∧ s.chan.status = .idle ∧ s.queuedIds = [0, 1] ∧ 0 ∈ s.left ∧
      0 ∈ s.begun :=
    exists_reaches (startTwoChunks 0 ++ [.terminateAll false] ++ (startTwoChunks 1).dropLast)
      ⟨.memToDev, ⟨0, 0, 0, 0, 0, 1⟩, rfl⟩ (by decide)
  refine ⟨s, hr, hq, hl, fun ht => ?_⟩
  obtain ⟨d, rest, hcons, hid, _⟩ := List.map_eq_cons_iff.mp hq
  obtain ⟨_, _, _, hnot, _⟩ := ht.idle hc hi d rest hcons
  rw [hid] at hnot
  exact hnot hb

end Driver

end MtEmu
