import MtEmu.Engine.Hw

/-!
# MtEmu.Engine.Retire

What one call of `mtdma_isr` does to the descriptors, for any status word.

`mtdma_isr` looks at the done bit and at the error bits one after the other, so a status
with both runs both handlers.  Each takes up the completion of a chunk if a descriptor is
issued.  When the done handler has started the next chunk, the abort handler completes
its descriptor and makes the channel idle with that chunk in the hardware; when it has
completed the descriptor, the abort handler completes the next one, of which no chunk
was started (`one_retirement_iff`).
-/

namespace MtEmu

open Machine

/-! ## events -/

/-- What a handler does, in order: it takes up the completion of a chunk of a descriptor,
starts a chunk, and completes a descriptor. -/
inductive IsrEvent where
  | takes (id : Nat)
  | starts (hd : Handed)
  | retires (id : Nat)
  deriving DecidableEq

namespace IsrEvent

@[simp] def isTake : IsrEvent → Bool
  | takes _ => true
  | _ => false

@[simp] def isStart : IsrEvent → Bool
  | starts _ => true
  | _ => false

@[simp] def isRetire : IsrEvent → Bool
  | retires _ => true
  | _ => false

/-- The descriptor that an event completes. -/
@[simp] def retired : IsrEvent → Option Nat
  | retires id => some id
  | _ => none

/-- The chunk that an event starts. -/
@[simp] def started : IsrEvent → Option Handed
  | starts hd => some hd
  | _ => none

end IsrEvent

namespace MtdmaChan

/-- The events of `mtdma_done_interrupt`. -/
def doneEvents (ch : MtdmaChan) : List IsrEvent :=
  match ch.vc.vchanNextDesc with
  | none => []
  | some d =>
      match ch.request with
      | .none =>
          if d.body.chunksAlloc ≠ 0 then
            .takes d.id :: ({ ch with status := .busy }.mtdmaStartTransfer.2.toList.map .starts)
          else [.takes d.id, .retires d.id]
      | .stop => [.takes d.id, .retires d.id]
      | .pause => [.takes d.id]

/-- The events of `mtdma_abort_interrupt`. -/
def abortEvents (ch : MtdmaChan) : List IsrEvent :=
  match ch.vc.vchanNextDesc with
  | none => []
  | some d => [.takes d.id, .retires d.id]

/-- The first half of `mtdma_isr`. -/
def donePart (ch : MtdmaChan) (status : U32) : MtdmaChan × Option Handed :=
  if status &&& intrDone ≠ 0 then ch.mtdmaDoneInterrupt else (ch, none)

/-- The events of `mtdma_isr`. -/
def isrEvents (ch : MtdmaChan) (status : U32) : List IsrEvent :=
  (if status &&& intrDone ≠ 0 then ch.doneEvents else []) ++
    if status &&& abortBits ≠ 0 then (ch.donePart status).1.abortEvents else []

/-- One retirement at most and one completion taken up at most; behind the start of a chunk
nothing is completed, and the channel is not left idle. -/
def OneRetirement (ch : MtdmaChan) (status : U32) : Prop :=
  (ch.isrEvents status).countP IsrEvent.isRetire ≤ 1 ∧
    (ch.isrEvents status).countP IsrEvent.isTake ≤ 1 ∧
    ((ch.isrEvents status).any IsrEvent.isStart →
      ((ch.isrEvents status).dropWhile (!·.isStart)).countP IsrEvent.isRetire = 0 ∧
        (ch.mtdmaIsr status).1.status ≠ .idle)

instance (ch : MtdmaChan) (status : U32) : Decidable (ch.OneRetirement status) :=
  inferInstanceAs (Decidable (_ ∧ _))

/-- Only one of the handlers finds a descriptor: the status has not both kinds of bits, or
nothing is issued, or the only issued descriptor is one that the done handler completes. -/
def Alone (ch : MtdmaChan) (status : U32) : Prop :=
  status &&& intrDone = 0 ∨ status &&& abortBits = 0 ∨ ch.vc.issued = [] ∨
    ∃ d, ch.vc.issued = [d] ∧ (ch.request = .stop ∨ d.body.chunks = [])

/-! ## one handler -/

variable {ch ch' : MtdmaChan} {hd : Option Handed}

/-- What `mtdma_done_interrupt` does, with its events. -/
inductive DoneWith (ch : MtdmaChan) : List IsrEvent → MtdmaChan → Option Handed → Prop
  | nothing (h : ch.vc.issued = []) : DoneWith ch [] ch none
  | starts {ch' d d' rest child chunks} (h : ch.vc.issued = d :: rest) (hreq : ch.request = .none)
      (hchunks : d.body.chunks = child :: chunks) (hid : d'.id = d.id)
      (h' : ch'.vc.issued = d' :: rest) (hbusy : ch'.status = .busy) :
      DoneWith ch [.takes d.id, .starts (d.id, child)] ch' (some (d.id, child))
  | retires {ch' d rest} (h : ch.vc.issued = d :: rest)
      (hreq : ch.request = .stop ∨ ch.request = .none ∧ d.body.chunks = [])
      (h' : ch'.vc.issued = rest) :
      DoneWith ch [.takes d.id, .retires d.id] ch' none
  | pauses {ch' d rest} (h : ch.vc.issued = d :: rest) (hreq : ch.request = .pause)
      (h' : ch'.vc.issued = d :: rest) :
      DoneWith ch [.takes d.id] ch' none

theorem doneWith_doneEvents (ch : MtdmaChan) :
    ch.DoneWith ch.doneEvents ch.mtdmaDoneInterrupt.1 ch.mtdmaDoneInterrupt.2 := by
  unfold doneEvents mtdmaDoneInterrupt VirtDmaChan.vchanNextDesc
  cases hi : ch.vc.issued with
  | nil => exact .nothing hi
  | cons d rest =>
      simp only [List.head?_cons]
      cases hr : ch.request with
      | none =>
          cases hc : d.body.chunks with
          | nil =>
              simp only [MtdmaDesc.chunksAlloc, hc, List.length_nil, ne_eq, not_true_eq_false,
                if_false]
              exact .retires hi (.inr ⟨hr, hc⟩) (VirtDmaChan.issued_retire hi)
          | cons child chunks =>
              simp only [MtdmaDesc.chunksAlloc, hc, List.length_cons, ne_eq, Nat.succ_ne_zero,
                not_false_eq_true, if_true, mtdmaStartTransfer, hi]
              refine .starts hi hr hc ?_ rfl rfl
              rfl
      | stop => exact .retires hi (.inl hr) (VirtDmaChan.issued_retire hi)
      | pause => exact .pauses hi hr hi

/-- The abort handler takes up and completes the first issued descriptor. -/
theorem abortEvents_eq (ch : MtdmaChan) :
    ch.abortEvents = match ch.vc.issued with
      | [] => []
      | d :: _ => [.takes d.id, .retires d.id] := by
  unfold abortEvents VirtDmaChan.vchanNextDesc
  cases ch.vc.issued with
  | nil => rfl
  | cons d rest => rfl

/-! ## the events are what happens -/

/-- From `ch` to `ch'` the completed descriptors leave `desc_issued` in order, and the
started chunk is handed to the hardware. -/
def Accounts (ch : MtdmaChan) (events : List IsrEvent) (ch' : MtdmaChan) (hd : Option Handed) :
    Prop :=
  ch.vc.issued.map (·.id) =
      events.filterMap IsrEvent.retired ++ ch'.vc.issued.map (·.id) ∧
    events.filterMap IsrEvent.started = hd.toList

theorem DoneWith.accounts {events : List IsrEvent} (h : ch.DoneWith events ch' hd) :
    ch.Accounts events ch' hd := by
  cases h with
  | nothing => exact ⟨rfl, rfl⟩
  | starts h _ _ hid h' => simp [Accounts, List.filterMap_cons, h, h', hid]
  | retires h _ h' => simp [Accounts, List.filterMap_cons, h, h']
  | pauses h _ h' => simp [Accounts, List.filterMap_cons, h, h']

theorem abort_accounts (ch : MtdmaChan) :
    ch.Accounts ch.abortEvents ch.mtdmaAbortInterrupt none := by
  rw [abortEvents_eq, mtdmaAbortInterrupt]
  cases hi : ch.vc.issued with
  | nil => simp [Accounts, VirtDmaChan.retire, hi]
  | cons d rest => simp [Accounts, List.filterMap_cons, hi, VirtDmaChan.issued_retire hi]

theorem mtdmaIsr_eq (ch : MtdmaChan) (status : U32) :
    ch.mtdmaIsr status =
      if status &&& abortBits ≠ 0 then
        ((ch.donePart status).1.mtdmaAbortInterrupt, (ch.donePart status).2)
      else ch.donePart status := rfl

/-- The events are those of `mtdma_isr`. -/
theorem isr_accounts (ch : MtdmaChan) (status : U32) :
    ch.Accounts (ch.isrEvents status) (ch.mtdmaIsr status).1 (ch.mtdmaIsr status).2 := by
  have hdone : ch.Accounts (if status &&& intrDone ≠ 0 then ch.doneEvents else [])
      (ch.donePart status).1 (ch.donePart status).2 := by
    unfold donePart
    split
    · exact (doneWith_doneEvents ch).accounts
    · exact ⟨rfl, rfl⟩
  rw [isrEvents, mtdmaIsr_eq]
  by_cases habort : status &&& abortBits = 0
  · rw [if_neg (not_not_intro habort), if_neg (not_not_intro habort), List.append_nil]
    exact hdone
  · rw [if_pos habort, if_pos habort]
    obtain ⟨hids, hstarted⟩ := abort_accounts (ch.donePart status).1
    constructor
    · rw [hdone.1, hids, List.filterMap_append, List.append_assoc]
    · rw [List.filterMap_append, hdone.2, hstarted, Option.toList_none, List.append_nil]

/-! ## one call -/

/-- A status without both kinds of bits runs one handler at most. -/
theorem oneRetirement_of_bits {status : U32}
    (h : status &&& intrDone = 0 ∨ status &&& abortBits = 0) : ch.OneRetirement status := by
  by_cases hdone : status &&& intrDone = 0
  · have hevents : ch.isrEvents status =
        if status &&& abortBits ≠ 0 then ch.abortEvents else [] := by
      rw [isrEvents, donePart, if_neg (not_not_intro hdone), if_neg (not_not_intro hdone),
        List.nil_append]
    rw [OneRetirement, hevents, abortEvents_eq]
    split
    · cases ch.vc.issued <;> simp [List.countP_cons]
    · simp
  · have habort := h.resolve_left hdone
    have hevents : ch.isrEvents status = ch.doneEvents := by
      rw [isrEvents, if_pos hdone, if_neg (not_not_intro habort), List.append_nil]
    have hisr : ch.mtdmaIsr status = ch.mtdmaDoneInterrupt := by
      rw [mtdmaIsr, if_pos hdone, if_neg (not_not_intro habort)]
    rw [OneRetirement, hevents, hisr]
    have hcase := doneWith_doneEvents ch
    generalize ch.doneEvents = events at hcase ⊢
    generalize ch.mtdmaDoneInterrupt = r at hcase ⊢
    obtain ⟨ch₁, hd⟩ := r
    cases hcase with
    | nothing => simp
    | starts _ _ _ _ _ hbusy =>
        have hnot : ch₁.status ≠ .idle := by
          intro hidle
          rw [hidle] at hbusy
          contradiction
        simp [List.countP_cons, hnot]
    | retires => simp [List.countP_cons]
    | pauses => simp [List.countP_cons]

/-- A status with both kinds of bits. -/
theorem oneRetirement_both_iff {status : U32} (hdone : status &&& intrDone ≠ 0)
    (habort : status &&& abortBits ≠ 0) (hreq : ch.request ≠ .pause) :
    ch.OneRetirement status ↔ ch.vc.issued = [] ∨
      ∃ d, ch.vc.issued = [d] ∧ (ch.request = .stop ∨ d.body.chunks = []) := by
  have hevents : ch.isrEvents status = ch.doneEvents ++ ch.mtdmaDoneInterrupt.1.abortEvents := by
    rw [isrEvents, donePart, if_pos hdone, if_pos habort, if_pos hdone]
  have hidle : (ch.mtdmaIsr status).1.status = .idle := by
    rw [mtdmaIsr, if_pos habort]
    rfl
  rw [OneRetirement, hevents, hidle, abortEvents_eq]
  have hcase := doneWith_doneEvents ch
  generalize ch.doneEvents = events at hcase ⊢
  generalize ch.mtdmaDoneInterrupt.1 = ch₁ at hcase ⊢
  generalize ch.mtdmaDoneInterrupt.2 = hd at hcase
  cases hcase with
  | nothing h => simp [h]
  | starts h hnone hchunks _ h' =>
      -- the started chunk runs when its descriptor is completed
      simp [h, h', hchunks, hnone]
  | @retires _ d rest h hwhy h' =>
      rw [h, h']
      cases rest with
      | nil =>
          have hretires : ch.request = .stop ∨ d.body.chunks = [] := hwhy.imp_right And.right
          simp [List.countP_cons, hretires]
      | cons e rest =>
          -- the second descriptor is completed as well
          simp [List.countP_cons]
  | pauses _ hpause => exact absurd hpause hreq

/-! ## requests -/

theorem Start.request (h : ch.Start ch' hd) : ch'.request = ch.request := by
  cases h <;> rfl

theorem Issue.request (h : ch.Issue ch' hd) : ch'.request = ch.request := by
  cases h with
  | start _ _ hs => exact hs.request
  | _ => rfl

theorem Done.request_ne_pause (h : ch.Done ch' hd) (hne : ch.request ≠ .pause) :
    ch'.request ≠ .pause := by
  cases h with
  | nothing => exact hne
  | next _ _ _ hs => exact hs.request ▸ hne
  | retires => simp
  | pauses => simp

theorem Terminate.request_ne_pause {running : Bool} (h : ch.Terminate running ch')
    (hne : ch.request ≠ .pause) : ch'.request ≠ .pause := by
  cases h with
  | nothing => exact hne
  | reset => exact hne
  | stop => simp

end MtdmaChan

namespace EngineSys

variable {s s' : EngineSys}

theorem give_running (hd : Option Handed) :
    (s.give hd).running = hd.toList.map Prod.fst ++ s.running := by
  cases hd <;> rfl

/-- A call of `mtdma_isr` without anything between its steps; what it starts is executed
when it returns. -/
theorem isrCall_running (h : s.isr = none) :
    ∃ s', exec step s [.isrRead, .isrDone, .isrAbort] = some s' ∧
      s'.chan = (s.chan.mtdmaIsr s.raw).1 ∧
      s'.running = ((s.chan.mtdmaIsr s.raw).2.toList.map Prod.fst) ++ s.running := by
  rw [MtdmaChan.mtdmaIsr_eq, MtdmaChan.donePart]
  simp only [exec, step, h, Option.bind_some, call_doneInterrupt, call_abortInterrupt]
  split <;> simp <;> split <;> simp [give_running]

/-- No request to pause is ever made. -/
theorem request_ne_pause (h : Reaches step anyStep Init s) : s.chan.request ≠ .pause := by
  refine h.invariant (P := fun s => s.chan.request ≠ .pause) ?_ ?_
  · intro s hinit
    obtain ⟨dir, info, rfl⟩ := hinit
    simp [MtdmaChan.setup]
  · intro s a s' hne _ hs
    cases move_of_step hs with
    | issue hi => rw [give_chan, hi.request]; exact hne
    | terminate ht => exact ht.request_ne_pause hne
    | free ht => exact ht.request_ne_pause hne
    | isrDone _ _ hdone => rw [give_chan]; exact hdone.request_ne_pause hne
    | isrAbort => simp [MtdmaChan.mtdmaAbortInterrupt]
    | _ => exact hne

/-- **One interrupt, one retirement**: in a reachable state a call retires one descriptor,
takes up one completion and leaves what it starts alone exactly when only one of its
handlers finds a descriptor. -/
theorem one_retirement_iff (h : Reaches step anyStep Init s) (status : U32) :
    s.chan.OneRetirement status ↔ s.chan.Alone status := by
  unfold MtdmaChan.Alone
  by_cases hbits : status &&& intrDone = 0 ∨ status &&& abortBits = 0
  · exact iff_of_true (MtdmaChan.oneRetirement_of_bits hbits) (or_assoc.mp (.inl hbits))
  · obtain ⟨hdone, habort⟩ := not_or.mp hbits
    rw [MtdmaChan.oneRetirement_both_iff hdone habort (request_ne_pause h), or_iff_right hdone,
      or_iff_right habort]

/-- A client's descriptor with an entry for each chunk, up to the interrupt that reports the
first one both done and failed. -/
def doneAndFailed (sgl : List SgEntry) : List EngineAct :=
  [.config ⟨0x1000, 0x2000⟩, .prep sgl (BitVec.ofNat 32 sgl.length) true, .submit 0, .issuePending,
    .hwFinish 0 0b11]

/-- The last chunk of the only descriptor. -/
theorem one_retirement_lastChunk :
    ∃ s, Reaches step anyStep Init s ∧ s.raw = 0b11 ∧ s.chan.OneRetirement 0b11 := by
  obtain ⟨s, hr, hraw, hchunks⟩ : ∃ s, Reaches step anyStep Init s ∧ s.raw = 0b11 ∧
      s.chan.vc.issued.map (·.body.chunks) = [[]] :=
    exists_reaches (doneAndFailed [⟨0x8000, 64⟩])
      ⟨.memToDev, ⟨0, 0, 0, 0, 0, 1⟩, rfl⟩ (by decide)
  obtain ⟨d, hd, hnil⟩ := List.map_eq_singleton_iff.mp hchunks
  exact ⟨s, hr, hraw, (one_retirement_iff hr 0b11).2 (.inr (.inr (.inr ⟨d, hd, .inr hnil⟩)))⟩

/-- The first of two chunks: the second one is started, and its descriptor is completed and
the channel idle when the call returns. -/
theorem isr_abandons_chunk :
    ∃ s, Reaches step anyStep Init s ∧ s.isr = none ∧ s.raw = 0b11 ∧
      (s.chan.mtdmaIsr 0b11).2 = some (0, ⟨[⟨0x9000, 0x2040, 32⟩], 32⟩) ∧
      (s.chan.mtdmaIsr 0b11).1.status = .idle ∧ (s.chan.mtdmaIsr 0b11).1.vc.issued = [] ∧
      ¬s.chan.OneRetirement 0b11 :=
  exists_reaches (doneAndFailed [⟨0x8000, 64⟩, ⟨0x9000, 32⟩])
    ⟨.memToDev, ⟨0, 0, 0, 0, 0, 1⟩, rfl⟩ (by decide)

end EngineSys

end MtEmu
