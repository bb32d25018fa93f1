import MtEmu.Engine.Hw

/-!
# MtEmu.Engine.Delivery

What the hardware of a dmaengine channel is given, over whole runs.

Four records are kept beside the channel and its hardware: the chunks given to the hardware,
the chunks each descriptor was prepared with, the submissions in order, and the descriptors
that `terminate_all` asked to stop after their chunk.

Whatever happens, the hardware is given the chunks of each descriptor from the first one on,
none twice and none left out in between, and one descriptor after the other in the order of
their submission (`chunks_in_order`).  It may be given a chunk while it executes another, and a
descriptor may be completed early; when each chunk ends with either a done or an error, and
`terminate_all` takes no channel for falsely busy whose interrupt is still to come, neither
happens but for errors and requests to stop (`whole_descriptors`).

The first result is an invariant over the lists and the records (`Inv`), which every step
keeps because it has one of five effects on them (`Effect`).  The second one needs to know
where the hardware is between two steps as well: it is at rest, executes a chunk of the first
issued descriptor, has raised the bits of its end, or the interrupt has read them and not
acted on them yet (`Phase`).
-/

namespace MtEmu

open Machine

/-- A channel with its hardware, and the records: `given` and `order` grow at the end,
`planned` is set once for each descriptor, and `stopped` only grows. -/
structure DeliverySys where
  eng : EngineSys
  given : List Handed
  planned : Nat → List MtdmaChunk
  order : List Nat
  stopped : List Nat

namespace EngineSys

/-- The chunk that a step gives to the hardware: only `issue_pending` and the done part of the
interrupt start one. -/
def hands (s : EngineSys) : EngineAct → Option Handed
  | .issuePending => s.chan.mtdmaDeviceIssuePending.2
  | .isrDone =>
      match s.isr with
      | some ⟨status, false⟩ =>
          if status &&& intrDone ≠ 0 then s.chan.mtdmaDoneInterrupt.2 else none
      | _ => none
  | _ => none

/-- The chunks of a descriptor that a step prepares. -/
def plans (s : EngineSys) : EngineAct → Option (List MtdmaChunk)
  | .prep sgl len allocOk => (s.chan.mtdmaDeviceTransfer sgl len allocOk).map (·.chunks)
  | _ => none

/-- The step calls `terminate_all`, as `mtdma_free_chan_resources` does unless its time is up
at once. -/
def Terminates : EngineAct → Prop
  | .terminateAll => True
  | .freeChanResources inTime => inTime = true
  | _ => False

instance : (a : EngineAct) → Decidable (Terminates a)
  | .terminateAll => .isTrue trivial
  | .freeChanResources inTime => inferInstanceAs (Decidable (inTime = true))
  | .prep _ _ _ | .submit _ | .issuePending | .allocChanResources | .config _ | .hwFinish _ _
  | .lose _ | .isrRead | .isrDone | .isrAbort | .taskletTake | .taskletCall => .isFalse nofun

/-- The identities of the descriptors that were completed, the oldest first: those whose
callback has run, those that the tasklet has taken, and those it has not seen yet. -/
def doneIds (s : EngineSys) : List Nat :=
  (s.called.map (·.1)).reverse ++ s.taken.map (·.id) ++ s.chan.vc.completed.map (·.id)

/-- A step that touches none of these lists completes nothing. -/
theorem doneIds_congr {s s' : EngineSys} (hcalled : s'.called = s.called)
    (htaken : s'.taken = s.taken)
    (hcompleted : s'.chan.vc.completed = s.chan.vc.completed) : s'.doneIds = s.doneIds := by
  rw [doneIds, hcalled, htaken, hcompleted, doneIds]

end EngineSys

namespace DeliverySys

/-- The state after a step: that of the channel with its hardware, and what the step adds to
the records. -/
def step (s : DeliverySys) (a : EngineAct) : Option DeliverySys :=
  (s.eng.step a).map fun eng =>
    { eng := eng
      given := s.given ++ (s.eng.hands a).toList
      planned := match s.eng.plans a with
        | some chunks => Function.update s.planned s.eng.nextId chunks
        | none => s.planned
      order := match a with
        | .submit id => s.order ++ [id]
        | _ => s.order
      stopped := if EngineSys.Terminates a ∧ s.eng.chan.configured = true ∧
          s.eng.chan.status = .busy ∧ s.eng.busy = true then
            (s.eng.chan.vc.issued.head?.map (·.id)).toList ++ s.stopped
        else s.stopped }

/-- A channel after its setup. -/
def Init (s : DeliverySys) : Prop :=
  EngineSys.Init s.eng ∧ s.given = [] ∧ s.planned = (fun _ => []) ∧ s.order = [] ∧ s.stopped = []

/-- How many chunks of a descriptor were given. -/
def count (s : DeliverySys) (id : Nat) : Nat := (s.given.map (·.1)).count id

/-- The chunks of a descriptor that were given, if they are its first ones: as many of the
planned ones as were counted. -/
def part (s : DeliverySys) (id : Nat) : List Handed :=
  ((s.planned id).take (s.count id)).map (id, ·)

/-- What is submitted and not completed, in the order in which it will be begun. -/
def queued (s : DeliverySys) : List (VirtDmaDesc MtdmaDesc) := s.eng.chan.vc.queued

def allocated (s : DeliverySys) : List (VirtDmaDesc MtdmaDesc) := s.eng.chan.vc.allocated

variable {s s' : DeliverySys}

theorem queued_of_issued {d : VirtDmaDesc MtdmaDesc} {rest : List (VirtDmaDesc MtdmaDesc)}
    (h : s.eng.chan.vc.issued = d :: rest) :
    s.queued = d :: (rest ++ s.eng.chan.vc.submitted) := by
  rw [queued, VirtDmaChan.queued, h]
  rfl

/-! ## what a step does -/

/-- What a step does to the descriptors and the records: nothing, or it prepares, submits, gives
a chunk of the first descriptor, or completes that one. -/
inductive Effect (s s' : DeliverySys) : Prop
  | keeps (hqueued : s'.queued = s.queued) (halloc : s'.allocated = s.allocated)
      (hdone : s'.eng.doneIds = s.eng.doneIds) (hgiven : s'.given = s.given)
      (hplanned : s'.planned = s.planned) (horder : s'.order = s.order)
      (hnext : s'.eng.nextId = s.eng.nextId)
  | prepares (d : VirtDmaDesc MtdmaDesc) (hid : d.id = s.eng.nextId)
      (hqueued : s'.queued = s.queued) (halloc : s'.allocated = s.allocated ++ [d])
      (hdone : s'.eng.doneIds = s.eng.doneIds) (hgiven : s'.given = s.given)
      (hplanned : s'.planned = Function.update s.planned s.eng.nextId d.body.chunks)
      (horder : s'.order = s.order) (hnext : s'.eng.nextId = s.eng.nextId + 1)
  | submits (l : List (VirtDmaDesc MtdmaDesc)) (d d' : VirtDmaDesc MtdmaDesc)
      (r : List (VirtDmaDesc MtdmaDesc)) (hfrom : s.allocated = l ++ d :: r) (hid : d'.id = d.id)
      (hbody : d'.body = d.body) (hqueued : s'.queued = s.queued ++ [d'])
      (halloc : s'.allocated = l ++ r) (hdone : s'.eng.doneIds = s.eng.doneIds)
      (hgiven : s'.given = s.given) (hplanned : s'.planned = s.planned)
      (horder : s'.order = s.order ++ [d.id]) (hnext : s'.eng.nextId = s.eng.nextId)
  | gives (d d' : VirtDmaDesc MtdmaDesc) (rest : List (VirtDmaDesc MtdmaDesc)) (child : MtdmaChunk)
      (chunks : List MtdmaChunk) (hfrom : s.queued = d :: rest)
      (hchunks : d.body.chunks = child :: chunks) (hid : d'.id = d.id)
      (hchunks' : d'.body.chunks = chunks) (hqueued : s'.queued = d' :: rest)
      (halloc : s'.allocated = s.allocated) (hdone : s'.eng.doneIds = s.eng.doneIds)
      (hgiven : s'.given = s.given ++ [(d.id, child)]) (hplanned : s'.planned = s.planned)
      (horder : s'.order = s.order) (hnext : s'.eng.nextId = s.eng.nextId)
  | completes (d : VirtDmaDesc MtdmaDesc) (rest : List (VirtDmaDesc MtdmaDesc))
      (hfrom : s.queued = d :: rest) (hqueued : s'.queued = rest)
      (halloc : s'.allocated = s.allocated) (hdone : s'.eng.doneIds = s.eng.doneIds ++ [d.id])
      (hgiven : s'.given = s.given) (hplanned : s'.planned = s.planned)
      (horder : s'.order = s.order) (hnext : s'.eng.nextId = s.eng.nextId)

/-- Starting a chunk takes it from the first descriptor that waits, which stays in front; or
there is no chunk to take, and the lists are the same. -/
theorem start_queued {ch ch' : MtdmaChan} {hd : Option Handed} (h : ch.Start ch' hd) :
    ch'.vc.allocated = ch.vc.allocated ∧ ch'.vc.completed = ch.vc.completed ∧
      (ch'.vc.queued = ch.vc.queued ∧ hd = none ∨ ∃ d d' rest child chunks,
        ch.vc.queued = d :: rest ∧ d.body.chunks = child :: chunks ∧ d'.id = d.id ∧
          d'.body.chunks = chunks ∧ ch'.vc.queued = d' :: rest ∧ hd = some (d.id, child)) := by
  refine ⟨h.allocated, h.completed, ?_⟩
  cases h with
  | nothing => exact .inl ⟨rfl, rfl⟩
  | @chunk d rest child chunks hi hd d' hid hcookie hresult hchunks =>
      refine .inr ⟨d, d', rest ++ ch.vc.submitted, child, chunks, ?_, hd, hid, hchunks, rfl, rfl⟩
      rw [VirtDmaChan.queued, hi]
      rfl

/-- Neither the tasklet nor a client has a part in the step: what they keep stays as it is. -/
structure Frame (s s' : DeliverySys) : Prop where
  called : s'.eng.called = s.eng.called
  taken : s'.eng.taken = s.eng.taken
  planned : s'.planned = s.planned
  order : s'.order = s.order
  nextId : s'.eng.nextId = s.eng.nextId

theorem Frame.doneIds (h : Frame s s') (hcompleted : s'.eng.chan.vc.completed =
    s.eng.chan.vc.completed) : s'.eng.doneIds = s.eng.doneIds :=
  EngineSys.doneIds_congr h.called h.taken hcompleted

/-- The lists change as starting a chunk changes them, whatever the step did to the status
before. -/
theorem Effect.of_start {ch ch' : MtdmaChan} {hd : Option Handed} (hs : ch.Start ch' hd)
    (hqueued : ch.vc.queued = s.queued) (halloc : ch.vc.allocated = s.allocated)
    (hcompleted : ch.vc.completed = s.eng.chan.vc.completed) (hchan : s'.eng.chan = ch')
    (hgiven : s'.given = s.given ++ hd.toList) (hf : Frame s s') : Effect s s' := by
  obtain ⟨halloc', hcompleted', hcase⟩ := start_queued hs
  have hdone : s'.eng.doneIds = s.eng.doneIds := hf.doneIds (by rw [hchan, hcompleted', hcompleted])
  have halloc'' : s'.allocated = s.allocated := by
    rw [allocated, hchan, halloc', halloc]
  obtain ⟨hsame, rfl⟩ | ⟨d, d', rest, child, chunks, hfrom, hchunks, hid, hchunks', hto, rfl⟩ :=
    hcase
  · refine .keeps ?_ halloc'' hdone (by simpa using hgiven) hf.planned hf.order hf.nextId
    rw [queued, hchan, hsame, hqueued]
  · refine .gives d d' rest child chunks (hqueued ▸ hfrom) hchunks hid hchunks' ?_ halloc'' hdone
      hgiven hf.planned hf.order hf.nextId
    rw [queued, hchan, hto]

/-- The first descriptor is completed, if there is one. -/
theorem Effect.of_retire (hvc : s'.eng.chan.vc = s.eng.chan.vc.retire) (hgiven : s'.given = s.given)
    (hf : Frame s s') : Effect s s' := by
  have halloc : s'.allocated = s.allocated := by
    rw [allocated, hvc, VirtDmaChan.allocated_retire, allocated]
  cases hi : s.eng.chan.vc.issued with
  | nil =>
      have hvc : s'.eng.chan.vc = s.eng.chan.vc := by rw [hvc, VirtDmaChan.retire, hi]
      exact .keeps (congrArg VirtDmaChan.queued hvc) halloc (hf.doneIds (by rw [hvc])) hgiven
        hf.planned hf.order hf.nextId
  | cons d rest =>
      refine .completes d (rest ++ s.eng.chan.vc.submitted) (queued_of_issued hi) ?_ halloc ?_
        hgiven hf.planned hf.order hf.nextId
      · rw [queued, hvc, VirtDmaChan.queued_retire, VirtDmaChan.behind, hi]
        rfl
      · rw [EngineSys.doneIds, hvc, hf.called, hf.taken, EngineSys.doneIds, VirtDmaChan.retire, hi]
        simp [VirtDmaChan.vchanCookieComplete]

/-- The lists stay as they are. -/
theorem Effect.of_vc (hvc : s'.eng.chan.vc = s.eng.chan.vc) (hgiven : s'.given = s.given)
    (hf : Frame s s') : Effect s s' :=
  .keeps (congrArg VirtDmaChan.queued hvc) (congrArg VirtDmaChan.allocated hvc)
    (hf.doneIds (by rw [hvc])) hgiven hf.planned hf.order hf.nextId

/-- Giving a chunk to the hardware touches its registers and nothing that the tasklet or a
client keeps. -/
theorem give_frame (e : EngineSys) (hd : Option Handed) : (e.give hd).called = e.called ∧
    (e.give hd).taken = e.taken ∧ (e.give hd).nextId = e.nextId := by
  cases hd <;> exact ⟨rfl, rfl, rfl⟩

/-- What `issue_pending` and the done interrupt do to the lists. -/
theorem Effect.of_issue {ch : MtdmaChan} {hd : Option Handed} (hi : s.eng.chan.Issue ch hd)
    (hchan : s'.eng.chan = ch) (hgiven : s'.given = s.given ++ hd.toList) (hf : Frame s s') :
    Effect s s' := by
  cases hi with
  | ignored => exact .of_vc (congrArg _ hchan) (hgiven.trans (List.append_nil _)) hf
  | nothing =>
      refine .keeps ?_ ?_ (hf.doneIds ?_) (hgiven.trans (List.append_nil _)) hf.planned hf.order
        hf.nextId
      · rw [queued, hchan, VirtDmaChan.queued_vchanIssuePending, queued]
      · rw [allocated, hchan, VirtDmaChan.allocated_vchanIssuePending, allocated]
      · rw [hchan, VirtDmaChan.completed_vchanIssuePending]
  | start _ _ hs =>
      exact .of_start hs VirtDmaChan.queued_vchanIssuePending rfl rfl hchan hgiven hf

theorem Effect.of_done {ch : MtdmaChan} {hd : Option Handed} (h : s.eng.chan.Done ch hd)
    (hchan : s'.eng.chan = ch) (hgiven : s'.given = s.given ++ hd.toList) (hf : Frame s s') :
    Effect s s' := by
  cases h with
  | nothing => exact .of_vc (congrArg _ hchan) (hgiven.trans (List.append_nil _)) hf
  | next _ _ _ hs => exact .of_start hs rfl rfl rfl hchan hgiven hf
  | retires => exact .of_retire (by rw [hchan]) (hgiven.trans (List.append_nil _)) hf
  | pauses => exact .of_vc (by rw [hchan]) (hgiven.trans (List.append_nil _)) hf

/-- Every step has one of these effects. -/
theorem effect_of_step {a : EngineAct} (h : s.step a = some s') : Effect s s' := by
  obtain ⟨eng, heng, rfl⟩ := Option.map_eq_some_iff.mp h
  cases EngineSys.move_of_step heng with
  | prepFails hbody =>
      refine .of_vc rfl (List.append_nil _) ⟨rfl, rfl, ?_, rfl, rfl⟩
      simp [EngineSys.plans, hbody]
  | @prep sgl len allocOk body hbody hchunks =>
      refine .prepares ⟨s.eng.nextId, 0, .noError, body⟩ rfl rfl rfl rfl (List.append_nil _) ?_ rfl
        rfl
      simp [EngineSys.plans, hbody]
  | submit hvc =>
      obtain ⟨l, d, r, hfrom, rfl, rfl⟩ := VirtDmaChan.exists_of_vchanTxSubmit hvc
      exact .submits l d { d with cookie := dmaCookieAssign s.eng.chan.vc.cookie } r hfrom rfl rfl
        (List.append_assoc _ _ _).symm rfl rfl (List.append_nil _) rfl rfl rfl
  | @issue ch hd hi heq =>
      obtain ⟨hcalled, htaken, hnext⟩ := give_frame { s.eng with chan := ch } hd
      refine .of_issue hi (EngineSys.give_chan _) ?_ ⟨hcalled, htaken, rfl, rfl, hnext⟩
      simp only [EngineSys.hands, heq]
  | terminate ht => exact .of_vc ht.vc (List.append_nil _) ⟨rfl, rfl, rfl, rfl, rfl⟩
  | free ht => exact .of_vc ht.vc (List.append_nil _) ⟨rfl, rfl, rfl, rfl, rfl⟩
  | @isrDone status ch hd hisr hst hdone heq =>
      obtain ⟨hcalled, htaken, hnext⟩ :=
        give_frame { s.eng with isr := some ⟨status, true⟩, chan := ch } hd
      refine .of_done hdone (EngineSys.give_chan _) ?_ ⟨hcalled, htaken, rfl, rfl, hnext⟩
      simp only [EngineSys.hands, hisr, if_pos hst, heq]
  | isrNotDone hisr hst =>
      refine .of_vc rfl ?_ ⟨rfl, rfl, rfl, rfl, rfl⟩
      simp only [EngineSys.hands, hisr, if_neg (not_not.mpr hst)]
      exact List.append_nil _
  | isrAbort => exact .of_retire rfl (List.append_nil _) ⟨rfl, rfl, rfl, rfl, rfl⟩
  | taskletTakes ht =>
      refine .keeps rfl rfl ?_ (List.append_nil _) rfl rfl rfl
      simp [EngineSys.doneIds, ht]
  | taskletCalls ht =>
      refine .keeps rfl rfl ?_ (List.append_nil _) rfl rfl rfl
      simp [EngineSys.doneIds, ht]
  | freeNothing | alloc | config | finished | lost | isrReads | isrNoAbort =>
      exact .of_vc rfl (List.append_nil _) ⟨rfl, rfl, rfl, rfl, rfl⟩

/-! ## what was given -/

/-- What was given of each descriptor are its first chunks, in order of submission; what is left
of it is the rest, and only the first one that waits and the completed ones are begun. -/
structure Inv (s : DeliverySys) : Prop where
  fresh : ∀ id ∈ s.order, id < s.eng.nextId
  nodup : s.order.Nodup
  order : s.order = s.eng.doneIds ++ s.queued.map (·.id)
  apart : (s.allocated.map (·.id)).Nodup ∧
    ∀ d ∈ s.allocated, d.id ∉ s.order ∧ d.id < s.eng.nextId
  rest : ∀ d ∈ s.queued ++ s.allocated, d.body.chunks = (s.planned d.id).drop (s.count d.id)
  bound : ∀ id, s.count id ≤ (s.planned id).length
  begun : ∀ id, s.count id ≠ 0 → id ∈ s.eng.doneIds ∨ id ∈ s.queued.head?.map (·.id)
  given : s.given = s.order.flatMap s.part

theorem part_congr {id : Nat} (hplanned : s'.planned id = s.planned id)
    (hcount : s'.count id = s.count id) : s'.part id = s.part id := by
  rw [part, hplanned, hcount, part]

/-- Of a descriptor that was not begun no part was given. -/
theorem part_nil {id : Nat} (h : s.count id = 0) : s.part id = [] := by
  rw [part, h]
  rfl

/-- Nothing was given of any of them. -/
theorem flatMap_part_nil {ds : List (VirtDmaDesc MtdmaDesc)} (h : ∀ d ∈ ds, s.count d.id = 0) :
    (ds.map (·.id)).flatMap s.part = [] := by
  rw [List.flatMap_eq_nil_iff]
  intro id hid
  obtain ⟨d, hd, rfl⟩ := List.mem_map.mp hid
  exact part_nil (h d hd)

theorem inv_of_init (h : Init s) : s.Inv := by
  obtain ⟨⟨dir, info, heng⟩, hgiven, hplanned, horder, -⟩ := h
  have hcount : ∀ id, s.count id = 0 := fun id => by rw [count, hgiven]; rfl
  refine ⟨by simp [horder], by simp [horder], ?_, ?_, ?_, fun id => ?_, fun id hid => ?_, ?_⟩
  · rw [horder, queued, heng]
    rfl
  · rw [allocated, heng]
    exact ⟨List.nodup_nil, nofun⟩
  · rw [queued, allocated, heng]
    exact nofun
  · rw [hcount]
    exact Nat.zero_le _
  · exact absurd (hcount id) hid
  · rw [hgiven, horder]
    rfl

/-- The first descriptor that waits is neither completed nor behind itself. -/
theorem Inv.head (h : s.Inv) {d : VirtDmaDesc MtdmaDesc} {rest : List (VirtDmaDesc MtdmaDesc)}
    (hfrom : s.queued = d :: rest) :
    d.id ∉ s.eng.doneIds ∧ (∀ e ∈ rest, e.id ≠ d.id) ∧ d.id ∈ s.order := by
  have hnodup := h.nodup
  rw [h.order, hfrom, List.map_cons, List.nodup_append] at hnodup
  obtain ⟨-, hcons, hdis⟩ := hnodup
  refine ⟨fun hmem => hdis _ hmem _ List.mem_cons_self rfl, fun e he heq => ?_, ?_⟩
  · exact (List.nodup_cons.mp hcons).1 (heq ▸ List.mem_map_of_mem he)
  · rw [h.order, hfrom]
    exact List.mem_append_right _ List.mem_cons_self

/-- What waits behind the first one is not begun: a chunk is only ever taken from the front. -/
theorem Inv.unbegun (h : s.Inv) {d : VirtDmaDesc MtdmaDesc} {rest : List (VirtDmaDesc MtdmaDesc)}
    (hfrom : s.queued = d :: rest) {e : VirtDmaDesc MtdmaDesc} (he : e ∈ rest) :
    s.count e.id = 0 := by
  by_contra hcount
  have hnodup := h.nodup
  rw [h.order, hfrom, List.map_cons, List.nodup_append] at hnodup
  rcases h.begun _ hcount with hmem | hhead
  · exact hnodup.2.2 _ hmem _ (List.mem_cons_of_mem _ (List.mem_map_of_mem he)) rfl
  · rw [hfrom] at hhead
    exact (h.head hfrom).2.1 e he (Option.some.inj hhead).symm

/-- Neither is what is not submitted. -/
theorem Inv.count_of_not_mem (h : s.Inv) {id : Nat} (hid : id ∉ s.order) : s.count id = 0 := by
  by_contra hcount
  rw [h.order, List.mem_append, not_or] at hid
  rcases h.begun _ hcount with hmem | hhead
  · exact hid.1 hmem
  · cases hq : s.queued with
    | nil =>
        rw [hq] at hhead
        contradiction
    | cons d rest =>
        rw [hq] at hhead hid
        exact hid.2 (Option.some.inj hhead ▸ List.mem_cons_self)

theorem count_congr (h : s'.given = s.given) (id : Nat) : s'.count id = s.count id := by
  rw [count, h, count]

/-- One more chunk of the first descriptor that waits: its count goes up by one, and no
other. -/
theorem count_give {id : Nat} {child : MtdmaChunk} (h : s'.given = s.given ++ [(id, child)])
    (j : Nat) : s'.count j = s.count j + if id = j then 1 else 0 := by
  rw [count, h, List.map_append, List.count_append, List.map_singleton, List.count_singleton,
    count]
  simp

theorem take_succ_of_drop {α : Type} {l : List α} {n : Nat} {x : α} {xs : List α}
    (h : l.drop n = x :: xs) : l.take (n + 1) = l.take n ++ [x] ∧ l.drop (n + 1) = xs ∧
      n + 1 ≤ l.length := by
  refine ⟨?_, ?_, ?_⟩
  · rw [List.take_add, h]
    rfl
  · rw [← List.drop_drop, h]
    rfl
  · have hlen := congrArg List.length h
    rw [List.length_drop, List.length_cons] at hlen
    omega

theorem Inv.keeps (h : s.Inv) (hqueued : s'.queued = s.queued) (halloc : s'.allocated = s.allocated)
    (hdone : s'.eng.doneIds = s.eng.doneIds) (hgiven : s'.given = s.given)
    (hplanned : s'.planned = s.planned) (horder : s'.order = s.order)
    (hnext : s'.eng.nextId = s.eng.nextId) : s'.Inv := by
  have hcount := count_congr hgiven
  have hpart : s'.part = s.part := funext fun id => part_congr (by rw [hplanned]) (hcount id)
  obtain ⟨hfresh, hnodup, horder', hapart, hrest, hbound, hbegun, hgiven'⟩ := h
  refine ⟨?_, ?_, ?_, ?_, ?_, ?_, ?_, ?_⟩
  · rwa [horder, hnext]
  · rwa [horder]
  · rwa [horder, hdone, hqueued]
  · rwa [halloc, horder, hnext]
  · rw [hqueued, halloc, hplanned]
    exact fun d hd => by rw [hcount, hrest d hd]
  · rw [hplanned]
    exact fun id => by rw [hcount]; exact hbound id
  · rw [hdone, hqueued]
    exact fun id hid => hbegun id (by rwa [hcount] at hid)
  · rwa [hgiven, horder, hpart]

/-- **Step**: a chunk of the first descriptor that waits is given.  It is the next one of
those planned, and what was given ends with that descriptor's part, so the longer part is
what was given before with the chunk at its end. -/
theorem Inv.gives (h : s.Inv) {d d' : VirtDmaDesc MtdmaDesc} {rest : List (VirtDmaDesc MtdmaDesc)}
    {child : MtdmaChunk} {chunks : List MtdmaChunk} (hfrom : s.queued = d :: rest)
    (hchunks : d.body.chunks = child :: chunks) (hid : d'.id = d.id)
    (hchunks' : d'.body.chunks = chunks) (hqueued : s'.queued = d' :: rest)
    (halloc : s'.allocated = s.allocated) (hdone : s'.eng.doneIds = s.eng.doneIds)
    (hgiven : s'.given = s.given ++ [(d.id, child)]) (hplanned : s'.planned = s.planned)
    (horder : s'.order = s.order) (hnext : s'.eng.nextId = s.eng.nextId) : s'.Inv := by
  have hcount := count_give hgiven
  obtain ⟨hnotdone, hbehind, hmem⟩ := h.head hfrom
  have hother : ∀ j, d.id ≠ j → s'.count j = s.count j := fun j hj => by
    rw [hcount, if_neg hj, Nat.add_zero]
  have hself : s'.count d.id = s.count d.id + 1 := by rw [hcount, if_pos rfl]
  have hdrop := (h.rest d (by rw [hfrom]; exact List.mem_append_left _ List.mem_cons_self)).symm
  rw [hchunks] at hdrop
  obtain ⟨htake, hdrop', hlen⟩ := take_succ_of_drop hdrop
  have hids : s'.queued.map (·.id) = s.queued.map (·.id) := by
    rw [hqueued, hfrom, List.map_cons, List.map_cons, hid]
  refine ⟨?_, ?_, ?_, ?_, ?_, ?_, ?_, ?_⟩
  · rw [horder, hnext]
    exact h.fresh
  · rw [horder]
    exact h.nodup
  · rw [horder, hdone, hids]
    exact h.order
  · rw [halloc, horder, hnext]
    exact h.apart
  · intro e he
    rw [hqueued, halloc, List.cons_append] at he
    rw [hplanned]
    rcases List.mem_cons.mp he with rfl | he
    · rw [hid, hself, hdrop', hchunks']
    · have hne : d.id ≠ e.id := fun heq => by
        rcases List.mem_append.mp he with he | he
        · exact hbehind e he heq.symm
        · exact (h.apart.2 e he).1 (heq ▸ hmem)
      rw [hother _ hne]
      refine h.rest e ?_
      rw [hfrom, List.cons_append]
      exact List.mem_cons_of_mem _ he
  · intro id
    rw [hplanned]
    by_cases heq : d.id = id
    · rw [← heq, hself]
      exact hlen
    · rw [hother id heq]
      exact h.bound id
  · intro id hcount'
    by_cases heq : d.id = id
    · right
      rw [hqueued, ← heq]
      exact congrArg some hid
    · rw [hother id heq] at hcount'
      rw [hdone]
      refine .inl ((h.begun id hcount').resolve_right fun hhead => heq ?_)
      rw [hfrom] at hhead
      exact Option.some.inj hhead
  · have hpart : ∀ j, d.id ≠ j → s'.part j = s.part j := fun j hj =>
      part_congr (by rw [hplanned]) (hother j hj)
    have hbefore : s.eng.doneIds.flatMap s'.part = s.eng.doneIds.flatMap s.part :=
      List.flatMap_congr fun j hj => hpart j fun heq => hnotdone (heq ▸ hj)
    have hafter : (rest.map (·.id)).flatMap s.part = [] := flatMap_part_nil fun e he =>
      h.unbegun hfrom he
    have hafter' : (rest.map (·.id)).flatMap s'.part = [] := flatMap_part_nil fun e he => by
      rw [hother _ fun heq => hbehind e he heq.symm, h.unbegun hfrom he]
    have hnew : s'.part d.id = s.part d.id ++ [(d.id, child)] := by
      rw [part, hplanned, hself, htake, List.map_append, part]
      rfl
    rw [hgiven, h.given, horder, h.order, hfrom, List.map_cons, List.flatMap_append,
      List.flatMap_append, List.flatMap_cons, List.flatMap_cons, hafter, hafter', hbefore, hnew,
      List.append_nil, List.append_nil, List.append_assoc]

/-- **Step**: a descriptor is prepared under a new identity, of which nothing was given or
submitted before. -/
theorem Inv.prepares (h : s.Inv) {d : VirtDmaDesc MtdmaDesc} (hid : d.id = s.eng.nextId)
    (hqueued : s'.queued = s.queued) (halloc : s'.allocated = s.allocated ++ [d])
    (hdone : s'.eng.doneIds = s.eng.doneIds) (hgiven : s'.given = s.given)
    (hplanned : s'.planned = Function.update s.planned s.eng.nextId d.body.chunks)
    (horder : s'.order = s.order) (hnext : s'.eng.nextId = s.eng.nextId + 1) : s'.Inv := by
  have hcount := count_congr hgiven
  have hnew : s.eng.nextId ∉ s.order := fun hmem => Nat.lt_irrefl _ (h.fresh _ hmem)
  have hnone : s.count s.eng.nextId = 0 := h.count_of_not_mem hnew
  have hold : ∀ j, j < s.eng.nextId → s'.planned j = s.planned j := fun j hj => by
    rw [hplanned, Function.update_of_ne (Nat.ne_of_lt hj)]
  have hself : s'.planned s.eng.nextId = d.body.chunks := by rw [hplanned, Function.update_self]
  have hwaits : ∀ e ∈ s.queued, e.id < s.eng.nextId := fun e he => h.fresh _ (by
    rw [h.order]
    exact List.mem_append_right _ (List.mem_map_of_mem he))
  refine ⟨?_, ?_, ?_, ?_, ?_, ?_, ?_, ?_⟩
  · rw [horder, hnext]
    exact fun id hmem => Nat.lt_succ_of_lt (h.fresh id hmem)
  · rw [horder]
    exact h.nodup
  · rw [horder, hdone, hqueued]
    exact h.order
  · rw [halloc, horder, hnext, List.map_append]
    refine ⟨List.nodup_append.mpr ⟨h.apart.1, List.nodup_singleton _, ?_⟩, fun e he => ?_⟩
    · intro i hi j hj heq
      obtain ⟨e, he, rfl⟩ := List.mem_map.mp hi
      have hlt := (h.apart.2 e he).2
      have hj : j = d.id := List.mem_singleton.mp hj
      omega
    · rcases List.mem_append.mp he with he | he
      · exact ⟨(h.apart.2 e he).1, Nat.lt_succ_of_lt (h.apart.2 e he).2⟩
      · rw [List.mem_singleton.mp he, hid]
        exact ⟨hnew, Nat.lt_succ_self _⟩
  · intro e he
    rw [hqueued, halloc, ← List.append_assoc] at he
    rcases List.mem_append.mp he with he | he
    · have hlt : e.id < s.eng.nextId := (List.mem_append.mp he).elim (hwaits e) fun he =>
        (h.apart.2 e he).2
      rw [hold _ hlt, hcount, h.rest e he]
    · rw [List.mem_singleton.mp he, hid, hself, hcount, hnone]
      rfl
  · intro id
    rw [hcount]
    by_cases heq : id = s.eng.nextId
    · rw [heq, hnone]
      exact Nat.zero_le _
    · rw [hplanned, Function.update_of_ne heq]
      exact h.bound id
  · intro id hid'
    rw [hdone, hqueued]
    exact h.begun id (hcount id ▸ hid')
  · rw [hgiven, h.given, horder]
    exact List.flatMap_congr fun j hj => (part_congr (hold j (h.fresh j hj)) (hcount j)).symm

/-- **Step**: a descriptor is submitted, behind all that wait. -/
theorem Inv.submits (h : s.Inv) {l r : List (VirtDmaDesc MtdmaDesc)} {d d' : VirtDmaDesc MtdmaDesc}
    (hfrom : s.allocated = l ++ d :: r) (hid : d'.id = d.id) (hbody : d'.body = d.body)
    (hqueued : s'.queued = s.queued ++ [d']) (halloc : s'.allocated = l ++ r)
    (hdone : s'.eng.doneIds = s.eng.doneIds) (hgiven : s'.given = s.given)
    (hplanned : s'.planned = s.planned) (horder : s'.order = s.order ++ [d.id])
    (hnext : s'.eng.nextId = s.eng.nextId) : s'.Inv := by
  have hcount := count_congr hgiven
  have hpart : s'.part = s.part := funext fun id => part_congr (by rw [hplanned]) (hcount id)
  have hd : d ∈ s.allocated := by
    rw [hfrom]
    exact List.mem_append_right _ List.mem_cons_self
  have hsub : ∀ e ∈ l ++ r, e ∈ s.allocated := fun e he => by
    rw [hfrom]
    exact (List.Sublist.append_left (List.sublist_cons_self d r) l).subset he
  obtain ⟨hnot, hlt⟩ := h.apart.2 d hd
  have hnodup := h.apart.1
  rw [hfrom, List.map_append, List.map_cons, List.nodup_middle] at hnodup
  refine ⟨?_, ?_, ?_, ?_, ?_, ?_, ?_, ?_⟩
  · intro id hmem
    rw [hnext]
    rw [horder] at hmem
    rcases List.mem_append.mp hmem with hmem | hmem
    · exact h.fresh id hmem
    · rwa [List.mem_singleton.mp hmem]
  · rw [horder, List.nodup_append]
    refine ⟨h.nodup, List.nodup_singleton _, fun i hi j hj heq => hnot ?_⟩
    rwa [← List.mem_singleton.mp hj, ← heq]
  · rw [horder, hdone, hqueued, h.order, List.map_append, List.append_assoc, List.map_singleton,
      hid]
  · rw [halloc, horder, hnext, List.map_append]
    refine ⟨(List.nodup_cons.mp hnodup).2, fun e he => ?_⟩
    refine ⟨fun hmem => ?_, (h.apart.2 e (hsub e he)).2⟩
    rcases List.mem_append.mp hmem with hmem | hmem
    · exact (h.apart.2 e (hsub e he)).1 hmem
    · refine (List.nodup_cons.mp hnodup).1 ?_
      rw [← List.map_append, ← List.mem_singleton.mp hmem]
      exact List.mem_map_of_mem he
  · intro e he
    rw [hqueued, halloc] at he
    rw [hplanned, hcount]
    rcases List.mem_append.mp he with he | he
    · rcases List.mem_append.mp he with he | he
      · exact h.rest e (List.mem_append_left _ he)
      · rw [List.mem_singleton.mp he, hid, hbody]
        exact h.rest d (List.mem_append_right _ hd)
    · exact h.rest e (List.mem_append_right _ (hsub e he))
  · rw [hplanned]
    exact fun id => by rw [hcount]; exact h.bound id
  · intro id hid'
    rw [hcount] at hid'
    refine (h.begun id hid').imp (fun hmem => hdone ▸ hmem) fun hhead => ?_
    rw [hqueued]
    cases hq : s.queued with
    | nil =>
        rw [hq] at hhead
        contradiction
    | cons e rest =>
        rw [hq] at hhead
        exact hhead
  · rw [hgiven, h.given, horder, hpart, List.flatMap_append, List.flatMap_singleton,
      part_nil (h.count_of_not_mem hnot), List.append_nil]

/-- **Step**: the first descriptor that waits is completed, begun or not.  The one behind it
becomes the first, and nothing was given of it yet. -/
theorem Inv.completes (h : s.Inv) {d : VirtDmaDesc MtdmaDesc}
    {rest : List (VirtDmaDesc MtdmaDesc)} (hfrom : s.queued = d :: rest)
    (hqueued : s'.queued = rest) (halloc : s'.allocated = s.allocated)
    (hdone : s'.eng.doneIds = s.eng.doneIds ++ [d.id])
    (hgiven : s'.given = s.given) (hplanned : s'.planned = s.planned)
    (horder : s'.order = s.order) (hnext : s'.eng.nextId = s.eng.nextId) : s'.Inv := by
  have hcount := count_congr hgiven
  have hpart : s'.part = s.part := funext fun id => part_congr (by rw [hplanned]) (hcount id)
  refine ⟨?_, ?_, ?_, ?_, ?_, ?_, ?_, ?_⟩
  · rw [horder, hnext]
    exact h.fresh
  · rw [horder]
    exact h.nodup
  · rw [horder, hdone, hqueued, h.order, hfrom, List.map_cons, List.append_assoc]
    rfl
  · rw [halloc, horder, hnext]
    exact h.apart
  · intro e he
    rw [hqueued, halloc] at he
    rw [hplanned, hcount]
    refine h.rest e ?_
    rw [hfrom, List.cons_append]
    exact List.mem_cons_of_mem _ he
  · rw [hplanned]
    exact fun id => by rw [hcount]; exact h.bound id
  · intro id hid
    rw [hcount] at hid
    rw [hdone]
    refine .inl ((h.begun id hid).elim (List.mem_append_left _) fun hhead => ?_)
    rw [hfrom] at hhead
    exact List.mem_append_right _ (List.mem_singleton.mpr (Option.some.inj hhead).symm)
  · rw [hgiven, h.given, horder, hpart]

theorem Inv.effect (h : s.Inv) (he : Effect s s') : s'.Inv := by
  cases he with
  | keeps h1 h2 h3 h4 h5 h6 h7 => exact h.keeps h1 h2 h3 h4 h5 h6 h7
  | prepares d h1 h2 h3 h4 h5 h6 h7 h8 => exact h.prepares h1 h2 h3 h4 h5 h6 h7 h8
  | submits l d d' r h1 h2 h3 h4 h5 h6 h7 h8 h9 h10 =>
      exact h.submits h1 h2 h3 h4 h5 h6 h7 h8 h9 h10
  | gives d d' rest child chunks h1 h2 h3 h4 h5 h6 h7 h8 h9 h10 h11 =>
      exact h.gives h1 h2 h3 h4 h5 h6 h7 h8 h9 h10 h11
  | completes d rest h1 h2 h3 h4 h5 h6 h7 h8 => exact h.completes h1 h2 h3 h4 h5 h6 h7 h8

theorem inv_of_reaches {ok : DeliverySys → EngineAct → Prop} (h : Reaches step ok Init s) : s.Inv :=
  h.invariant (fun _ => inv_of_init) fun _ _ _ hinv _ hstep => hinv.effect (effect_of_step hstep)

/-- **Chunks in order**: what the hardware was given, in the order it was given, are of every
completed descriptor, and then of the first one that waits, in the order of their submission,
the first chunks.  This holds in every run, whatever the hardware and the clients do. -/
theorem chunks_in_order (h : Reaches step anyStep Init s) :
    s.order.Nodup ∧ s.order = s.eng.doneIds ++ s.queued.map (·.id) ∧
      s.given = (s.eng.doneIds ++ (s.queued.head?.map (·.id)).toList).flatMap s.part := by
  have hinv := inv_of_reaches h
  refine ⟨hinv.nodup, hinv.order, hinv.given.trans ?_⟩
  rw [hinv.order]
  cases hq : s.queued with
  | nil => rfl
  | cons d rest =>
      have hrest : (rest.map (·.id)).flatMap s.part = [] := flatMap_part_nil fun e he =>
        hinv.unbegun hq he
      rw [List.map_cons, List.flatMap_append, List.flatMap_cons, hrest, List.append_nil,
        List.flatMap_append]
      simp

/-- A channel that takes one burst a chunk, and nothing recorded. -/
def idle : DeliverySys :=
  ⟨⟨.setup .memToDev ⟨0, 0, 0, 0, 0, 1⟩, 0, 0, none, [], [], [], [], []⟩, [], fun _ => [], [], []⟩

theorem init_idle : Init idle := ⟨⟨_, _, rfl⟩, rfl, rfl, rfl, rfl⟩

/-- Two descriptors, the second one submitted first, and the start of its first chunk. -/
def twoDescs : List EngineAct :=
  [.config ⟨0x1000, 0x2000⟩, .prep [⟨0x8000, 64⟩] 1 true,
    .prep [⟨0x9000, 64⟩, ⟨0xa000, 64⟩] 2 true, .submit 1, .submit 0, .issuePending]

/-- The hardware's next chunk is done. -/
def chunkDone : List EngineAct := [.hwFinish 1 intrDone, .isrRead, .isrDone, .isrAbort]

theorem chunks_in_order_twoDescs : ∃ s, Reaches step anyStep Init s ∧
    s.given.map (·.1) = [1, 1] ∧ s.order = [1, 0] ∧
      s.given = (s.eng.doneIds ++ (s.queued.head?.map (·.id)).toList).flatMap s.part := by
  obtain ⟨s, hs, hgiven, horder⟩ : ∃ s, Reaches step anyStep Init s ∧
      s.given.map (·.1) = [1, 1] ∧ s.order = [1, 0] :=
    exists_reaches (twoDescs ++ chunkDone) init_idle (by decide)
  exact ⟨s, hs, hgiven, horder, (chunks_in_order hs).2.2⟩

end DeliverySys

/-! ## the hardware -/

/-- Bits on which `mtdma_isr` does something. -/
def Acts (bits : U32) : Prop := bits &&& (intrDone ||| abortBits) ≠ 0

instance (bits : U32) : Decidable (Acts bits) := inferInstanceAs (Decidable (_ ≠ _))

theorem acts_iff (bits : U32) : Acts bits ↔ bits &&& intrDone ≠ 0 ∨ bits &&& abortBits ≠ 0 := by
  rw [Acts, BitVec.and_or_distrib_left]
  exact (not_congr BitVec.or_eq_zero_iff).trans not_and_or

theorem not_acts_zero : ¬Acts 0 := by decide

theorem acts_or (a b : U32) : Acts (a ||| b) ↔ Acts a ∨ Acts b := by
  rw [Acts, BitVec.and_or_distrib_right]
  exact (not_congr BitVec.or_eq_zero_iff).trans not_and_or

/-- Clearing bits sets none. -/
theorem clear_and {a m : U32} (b : U32) (h : a &&& m = 0) : a &&& ~~~b &&& m = 0 := by
  rw [BitVec.and_assoc, BitVec.and_comm (~~~b), ← BitVec.and_assoc, h]
  exact BitVec.zero_and

theorem acts_of_clear {a b : U32} (h : Acts (a &&& ~~~b)) : Acts a :=
  fun hzero => h (clear_and b hzero)

/-- When there is no done bit, what the interrupt acts on is what its abort part looks at. -/
theorem acts_abort_iff {bits : U32} (h : bits &&& intrDone = 0) :
    Acts (bits &&& abortBits) ↔ Acts bits := by
  have habort : bits &&& abortBits &&& (intrDone ||| abortBits) = bits &&& abortBits := by
    rw [BitVec.and_assoc]
    rfl
  rw [acts_iff bits, Acts, habort]
  exact ⟨.inr, fun hor => hor.resolve_left fun hdone => hdone h⟩

/-- What the rest of `mtdma_isr` looks at in the status that it has read: after the done part
only the error bits. -/
def MtdmaIsrFrame.left (f : MtdmaIsrFrame) : U32 :=
  if f.doneOver then f.status &&& abortBits else f.status

namespace EngineSys

/-- The bits that `mtdma_isr` has read and not yet acted on. -/
def inHand (e : EngineSys) : U32 :=
  match e.isr with
  | none => 0
  | some f => f.left

/-- An interrupt is outstanding: there are bits to act on that the interrupt has not read, or
that it has read and not acted on. -/
def Outstanding (e : EngineSys) : Prop := Acts e.raw ∨ Acts e.inHand

instance (e : EngineSys) : Decidable e.Outstanding := inferInstanceAs (Decidable (_ ∨ _))

/-- The channel is busy with the descriptor. -/
structure Works (e : EngineSys) (id : Nat) : Prop where
  busy : e.chan.status = .busy
  head : e.chan.vc.issued.head?.map (·.id) = some id

/-- Bits with which the hardware ends a chunk of the descriptor: a done or an error and not
both, and an error is in the record. -/
structure Ends (e : EngineSys) (id : Nat) (bits : U32) : Prop where
  acts : Acts bits
  single : bits &&& intrDone = 0 ∨ bits &&& abortBits = 0
  error : bits &&& abortBits ≠ 0 → id ∈ e.errs

/-- **Where the hardware is**: a chunk of the first issued descriptor is executed, or has raised
its bits, or they were read; or none of it.  In each phase the others are excluded, which is
what makes the next interrupt one of this chunk. -/
inductive Phase (e : EngineSys) : Prop
  | quiet (hrun : e.running = []) (hraw : ¬Acts e.raw) (hhand : ¬Acts e.inHand)
  | runs {id : Nat} (hworks : e.Works id) (hrun : e.running = [id]) (hraw : ¬Acts e.raw)
      (hhand : ¬Acts e.inHand)
  | raised {id : Nat} (hworks : e.Works id) (hrun : e.running = []) (hraw : e.Ends id e.raw)
      (hhand : ¬Acts e.inHand)
  | read {id : Nat} (hworks : e.Works id) (hrun : e.running = []) (hraw : ¬Acts e.raw)
      (hhand : e.Ends id e.inHand)

variable {e e' : EngineSys}

theorem Works.congr {id : Nat} (h : e.Works id) (hstatus : e'.chan.status = e.chan.status)
    (hissued : e'.chan.vc.issued = e.chan.vc.issued) : e'.Works id :=
  ⟨hstatus.trans h.busy, by rw [hissued, h.head]⟩

theorem Ends.congr {id : Nat} {bits : U32} (h : e.Ends id bits) (herrs : e'.errs = e.errs) :
    e'.Ends id bits :=
  ⟨h.acts, h.single, fun habort => herrs ▸ h.error habort⟩

/-- Clearing bits leaves the end of a chunk, or nothing of it to act on: the interrupt is then
lost. -/
theorem Ends.clear {id : Nat} {bits : U32} (h : e.Ends id bits) (b : U32)
    (hacts : Acts (bits &&& ~~~b)) : e.Ends id (bits &&& ~~~b) :=
  ⟨hacts, h.single.imp (clear_and b) (clear_and b),
    fun habort => h.error fun hzero => habort (clear_and b hzero)⟩

/-- A step that changes nothing that has to do with the hardware leaves the phase. -/
theorem Phase.congr (h : e.Phase) (hstatus : e'.chan.status = e.chan.status)
    (hissued : e'.chan.vc.issued = e.chan.vc.issued) (hrunning : e'.running = e.running)
    (hraw' : e'.raw = e.raw) (hisr : e'.inHand = e.inHand) (herrs : e'.errs = e.errs) :
    e'.Phase := by
  cases h with
  | quiet hrun hraw hhand =>
      exact .quiet (hrunning.trans hrun) (hraw' ▸ hraw) (hisr ▸ hhand)
  | runs hworks hrun hraw hhand =>
      exact .runs (hworks.congr hstatus hissued) (hrunning.trans hrun) (hraw' ▸ hraw) (hisr ▸ hhand)
  | raised hworks hrun hraw hhand =>
      refine .raised (hworks.congr hstatus hissued) (hrunning.trans hrun) ?_ (hisr ▸ hhand)
      exact hraw' ▸ hraw.congr herrs
  | read hworks hrun hraw hhand =>
      refine .read (hworks.congr hstatus hissued) (hrunning.trans hrun) (hraw' ▸ hraw) ?_
      exact hisr ▸ hhand.congr herrs

/-- On a channel that is not busy nothing is executed and nothing is outstanding. -/
theorem Phase.of_not_busy (h : e.Phase) (hstatus : e.chan.status ≠ .busy) :
    e.running = [] ∧ ¬Acts e.raw ∧ ¬Acts e.inHand := by
  cases h with
  | quiet hrun hraw hhand => exact ⟨hrun, hraw, hhand⟩
  | runs hworks => exact absurd hworks.busy hstatus
  | raised hworks => exact absurd hworks.busy hstatus
  | read hworks => exact absurd hworks.busy hstatus

/-- A chunk is started where nothing is executed and nothing is outstanding. -/
theorem Phase.of_start {ch ch' : MtdmaChan} {hd : Option Handed} (hs : ch.Start ch' hd)
    (hbusy : ch.status = .busy) (hchan : e.chan = ch') (hrun : e.running = []) (hraw : ¬Acts e.raw)
    (hhand : ¬Acts e.inHand) : (e.give hd).Phase := by
  cases hs with
  | nothing => exact .quiet hrun hraw hhand
  | @chunk d rest child chunks hissued hchunks d' hid =>
      have hworks : (e.give (some (d.id, child))).Works d.id := by
        refine ⟨(congrArg MtdmaChan.status hchan).trans hbusy, ?_⟩
        show e.chan.vc.issued.head?.map (·.id) = _
        rw [hchan]
        exact congrArg some hid
      refine .runs hworks (congrArg _ hrun) ?_ hhand
      show ¬Acts (e.raw &&& ~~~e.raw)
      rw [BitVec.and_not_self]
      exact not_acts_zero

/-- The hardware ends the chunk that it executes. -/
theorem Phase.finish (h : e.Phase) {id : Nat} {bits : U32} (hid : id ∈ e.running)
    (hsingle : bits &&& intrDone = 0 ∨ bits &&& abortBits = 0) : (e.hwFinish id bits).Phase := by
  have hnone : e.running = [] → (e.hwFinish id bits).Phase := fun hrun => by
    rw [hrun] at hid
    contradiction
  cases h with
  | quiet hrun => exact hnone hrun
  | raised _ hrun => exact hnone hrun
  | read _ hrun => exact hnone hrun
  | @runs head hworks hrun hraw hhand =>
      obtain rfl : id = head := by
        rw [hrun] at hid
        exact List.mem_singleton.mp hid
      have hrun' : (e.hwFinish id bits).running = [] := by
        show e.running.erase id = []
        rw [hrun]
        exact List.erase_cons_head id []
      have hzero : ∀ m, e.raw &&& m = 0 → bits &&& m = (e.raw ||| bits) &&& m := fun m hm => by
        rw [BitVec.and_or_distrib_right, hm]
        exact BitVec.zero_or.symm
      have hraw' := (acts_iff e.raw).not.mp hraw
      rw [not_or, not_not, not_not] at hraw'
      by_cases hacts : Acts bits
      · have hworks' : (e.hwFinish id bits).Works id := ⟨hworks.busy, hworks.head⟩
        refine .raised hworks' hrun' ⟨(acts_or _ _).mpr (.inr hacts), ?_, fun habort => ?_⟩
          hhand
        · exact hsingle.imp (fun h => (hzero _ hraw'.1).symm.trans h)
            (fun h => (hzero _ hraw'.2).symm.trans h)
        · have herr : bits &&& intrErr ≠ 0 := fun h => habort (by
            show (e.raw ||| bits) &&& abortBits = 0
            rw [← hzero _ hraw'.2, show abortBits = intrErr &&& abortBits from rfl,
              ← BitVec.and_assoc, h]
            exact BitVec.zero_and)
          show id ∈ if bits &&& intrErr ≠ 0 then id :: e.errs else e.errs
          rw [if_pos herr]
          exact List.mem_cons_self
      · exact .quiet hrun' (fun h => ((acts_or _ _).mp h).elim hraw hacts) hhand

/-- Bits are cleared that nobody read: the chunk stays ended, and its interrupt may be gone. -/
theorem Phase.lose (h : e.Phase) (bits : U32) :
    Phase { e with raw := e.raw &&& ~~~bits } := by
  cases h with
  | quiet hrun hraw hhand => exact .quiet hrun (fun h => hraw (acts_of_clear h)) hhand
  | runs hworks hrun hraw hhand =>
      exact .runs ⟨hworks.busy, hworks.head⟩ hrun (fun h => hraw (acts_of_clear h)) hhand
  | @raised id hworks hrun hraw hhand =>
      by_cases hacts : Acts (e.raw &&& ~~~bits)
      · have hends := hraw.clear bits hacts
        have hworks' : Works { e with raw := e.raw &&& ~~~bits } id := ⟨hworks.busy, hworks.head⟩
        exact .raised hworks' hrun ⟨hends.acts, hends.single, hends.error⟩ hhand
      · exact .quiet hrun hacts hhand
  | read hworks hrun hraw hhand =>
      exact .read ⟨hworks.busy, hworks.head⟩ hrun (fun h => hraw (acts_of_clear h))
        ⟨hhand.acts, hhand.single, hhand.error⟩

/-- The interrupt reads the raw status and clears it. -/
theorem Phase.isrRead (h : e.Phase) (hisr : e.isr = none) :
    Phase { e with isr := some ⟨e.raw, false⟩, raw := e.raw &&& ~~~e.raw } := by
  have hraw' : ¬Acts (e.raw &&& ~~~e.raw) := by
    rw [BitVec.and_not_self]
    exact not_acts_zero
  cases h with
  | quiet hrun hraw => exact .quiet hrun hraw' hraw
  | runs hworks hrun hraw => exact .runs ⟨hworks.busy, hworks.head⟩ hrun hraw' hraw
  | raised hworks hrun hraw =>
      exact .read ⟨hworks.busy, hworks.head⟩ hrun hraw' ⟨hraw.acts, hraw.single, hraw.error⟩
  | read _ _ _ hhand =>
      have hacts := hhand.acts
      rw [inHand, hisr] at hacts
      exact absurd hacts not_acts_zero

/-- The done part of the interrupt. -/
theorem Phase.isrDone (h : e.Phase) {status : U32} (hisr : e.isr = some ⟨status, false⟩)
    (hst : status &&& intrDone ≠ 0) {ch : MtdmaChan} {hd : Option Handed}
    (hdone : e.chan.Done ch hd) :
    (EngineSys.give { e with isr := some ⟨status, true⟩, chan := ch } hd).Phase := by
  have hhand' : e.inHand = status := by rw [inHand, hisr]; rfl
  have hacts : Acts e.inHand := by
    rw [hhand', acts_iff]
    exact .inl hst
  cases h with
  | quiet _ _ hhand => exact absurd hacts hhand
  | runs _ _ _ hhand => exact absurd hacts hhand
  | raised _ _ _ hhand => exact absurd hacts hhand
  | read hworks hrun hraw hhand =>
      have habort : ¬Acts (status &&& abortBits) := by
        have hsingle := hhand.single
        rw [hhand'] at hsingle
        rw [hsingle.resolve_left hst]
        exact not_acts_zero
      cases hdone with
      | nothing => exact .quiet hrun hraw habort
      | next _ _ _ hs => exact .of_start hs rfl rfl hrun hraw habort
      | retires => exact .quiet hrun hraw habort
      | pauses => exact .quiet hrun hraw habort

/-- The done part without a done. -/
theorem Phase.isrNotDone (h : e.Phase) {status : U32} (hisr : e.isr = some ⟨status, false⟩)
    (hst : status &&& intrDone = 0) : Phase { e with isr := some ⟨status, true⟩ } := by
  have hhand' : e.inHand = status := by rw [inHand, hisr]; rfl
  have hiff : Acts (status &&& abortBits) ↔ Acts e.inHand := by rw [hhand', acts_abort_iff hst]
  cases h with
  | quiet hrun hraw hhand => exact .quiet hrun hraw (hiff.not.mpr hhand)
  | runs hworks hrun hraw hhand =>
      exact .runs ⟨hworks.busy, hworks.head⟩ hrun hraw (hiff.not.mpr hhand)
  | raised hworks hrun hraw hhand =>
      exact .raised ⟨hworks.busy, hworks.head⟩ hrun ⟨hraw.acts, hraw.single, hraw.error⟩
        (hiff.not.mpr hhand)
  | read hworks hrun hraw hhand =>
      have habort : status &&& abortBits &&& abortBits = status &&& abortBits := by
        rw [BitVec.and_assoc]
        rfl
      refine .read ⟨hworks.busy, hworks.head⟩ hrun hraw
        ⟨hiff.mpr hhand.acts, .inl ?_, fun hne => ?_⟩
      · show status &&& abortBits &&& intrDone = 0
        rw [BitVec.and_assoc]
        exact BitVec.and_zero
      · refine hhand.error ?_
        rw [hhand', ← habort]
        exact hne

/-- The abort part of the interrupt. -/
theorem Phase.isrAbort (h : e.Phase) {status : U32} (hisr : e.isr = some ⟨status, true⟩)
    (hst : status &&& abortBits ≠ 0) :
    Phase { e with isr := none, chan := e.chan.mtdmaAbortInterrupt } := by
  have habort : status &&& abortBits &&& abortBits = status &&& abortBits := by
    rw [BitVec.and_assoc]
    rfl
  have hacts : Acts e.inHand := by
    rw [inHand, hisr, acts_iff]
    exact .inr (by rwa [← habort] at hst)
  cases h with
  | quiet _ _ hhand => exact absurd hacts hhand
  | runs _ _ _ hhand => exact absurd hacts hhand
  | raised _ _ _ hhand => exact absurd hacts hhand
  | read _ hrun hraw => exact .quiet hrun hraw not_acts_zero

/-- The end of the interrupt without an abort. -/
theorem Phase.isrNoAbort (h : e.Phase) {status : U32} (hisr : e.isr = some ⟨status, true⟩)
    (hst : status &&& abortBits = 0) : Phase { e with isr := none } := by
  have hhand' : e.inHand = 0 := by
    rw [inHand, hisr]
    exact hst
  exact h.congr rfl rfl rfl rfl hhand'.symm rfl

/-- `issue_pending` starts a chunk only on a channel that is not busy, where the hardware is at
rest. -/
theorem Phase.issue (h : e.Phase) {ch : MtdmaChan} {hd : Option Handed} (hi : e.chan.Issue ch hd) :
    (EngineSys.give { e with chan := ch } hd).Phase := by
  have hidle : e.chan.Ready → e.chan.status ≠ .busy := fun hready hbusy => by
    rw [hready.2.2] at hbusy
    contradiction
  cases hi with
  | ignored => exact h
  | nothing hready =>
      obtain ⟨hrun, hraw, hhand⟩ := h.of_not_busy (hidle hready)
      exact .quiet hrun hraw hhand
  | start hready _ hs =>
      obtain ⟨hrun, hraw, hhand⟩ := h.of_not_busy (hidle hready)
      exact .of_start hs rfl rfl hrun hraw hhand

theorem Phase.terminate (h : e.Phase) {ch : MtdmaChan} (ht : e.chan.Terminate e.busy ch)
    (hok : e.busy = false → ¬e.Outstanding) : Phase { e with chan := ch } := by
  cases ht with
  | nothing => exact h
  | stop => exact h.congr rfl rfl rfl rfl rfl rfl
  | reset hreset =>
      rcases hreset.2 with hstatus | hrunning
      · obtain ⟨hrun, hraw, hhand⟩ := h.of_not_busy hstatus
        exact .quiet hrun hraw hhand
      · have hout := hok hrunning
        rw [Outstanding, not_or] at hout
        refine .quiet (of_not_not fun hne => ?_) hout.1 hout.2
        rw [busy, decide_eq_false_iff_not] at hrunning
        exact hrunning hne

end EngineSys

namespace DeliverySys

variable {s s' : DeliverySys}

/-- Every chunk ends with a done or with an error, not both, and `terminate_all` finds the
hardware not running only when no interrupt is outstanding. -/
def Sound (s : DeliverySys) : EngineAct → Prop
  | .hwFinish _ bits => bits &&& intrDone = 0 ∨ bits &&& abortBits = 0
  | a => EngineSys.Terminates a → s.eng.busy = false → ¬s.eng.Outstanding

theorem phase_of_step {a : EngineAct} (h : s.eng.Phase) (hok : s.Sound a)
    (hstep : s.step a = some s') : s'.eng.Phase := by
  obtain ⟨eng, heng, rfl⟩ := Option.map_eq_some_iff.mp hstep
  cases EngineSys.move_of_step heng with
  | prepFails => exact h
  | prep => exact h.congr rfl rfl rfl rfl rfl rfl
  | @submit id vc hvc =>
      obtain ⟨l, d, r, hfrom, rfl, rfl⟩ := VirtDmaChan.exists_of_vchanTxSubmit hvc
      exact h.congr rfl rfl rfl rfl rfl rfl
  | issue hi => exact h.issue hi
  | terminate ht => exact h.terminate ht (hok trivial)
  | freeNothing => exact h
  | free ht => exact h.terminate ht (hok rfl)
  | alloc => exact h
  | config => exact h.congr rfl rfl rfl rfl rfl rfl
  | finished hid => exact h.finish hid hok
  | lost => exact h.lose _
  | isrReads hisr => exact h.isrRead hisr
  | isrDone hisr hst hdone => exact h.isrDone hisr hst hdone
  | isrNotDone hisr hst => exact h.isrNotDone hisr hst
  | isrAbort hisr hst => exact h.isrAbort hisr hst
  | isrNoAbort hisr hst => exact h.isrNoAbort hisr hst
  | taskletTakes => exact h.congr rfl rfl rfl rfl rfl rfl
  | taskletCalls => exact h.congr rfl rfl rfl rfl rfl rfl

/-! ## whole descriptors -/

/-- What is asked of the channel, if anything, is to stop after the running chunk, and the
first issued descriptor is recorded as one that was to be stopped. -/
def Stops (s : DeliverySys) : Prop :=
  s.eng.chan.request = .none ∨
    s.eng.chan.request = .stop ∧ ∀ d ∈ s.eng.chan.vc.issued.head?, d.id ∈ s.stopped

/-- The descriptor had an error, was to be stopped, or all its chunks were given: the three
reasons for which it may be completed. -/
def Over (s : DeliverySys) (id : Nat) : Prop :=
  id ∈ s.eng.errs ∨ id ∈ s.stopped ∨ s.count id = (s.planned id).length

/-- Neither the request nor the first descriptor changes. -/
theorem Stops.congr (h : s.Stops) (hreq : s'.eng.chan.request = s.eng.chan.request)
    (hhead : ∀ d' ∈ s'.eng.chan.vc.issued.head?, ∃ d ∈ s.eng.chan.vc.issued.head?, d.id = d'.id)
    (hstopped : s.stopped ⊆ s'.stopped) : s'.Stops := by
  rw [Stops, hreq]
  refine h.imp_right fun ⟨hstop, hall⟩ => ⟨hstop, fun d' hd' => ?_⟩
  obtain ⟨d, hd, hid⟩ := hhead d' hd'
  exact hid ▸ hstopped (hall d hd)

theorem stopped_subset {a : EngineAct} (hstep : s.step a = some s') : s.stopped ⊆ s'.stopped := by
  obtain ⟨eng, -, rfl⟩ := Option.map_eq_some_iff.mp hstep
  intro id hid
  show id ∈ if _ then _ else s.stopped
  split
  · exact List.mem_append_right _ hid
  · exact hid

/-- A call of `terminate_all` asks to stop only when the hardware is running, and then the
first issued descriptor is put in the record. -/
theorem Stops.terminate {a : EngineAct} {ch : MtdmaChan} (h : s.Stops)
    (ht : s.eng.chan.Terminate s.eng.busy ch) (ha : EngineSys.Terminates a)
    (hstep : s.step a = some s') (hchan : s'.eng.chan = ch) : s'.Stops := by
  have hsub := stopped_subset hstep
  have hhead : ∀ {c : MtdmaChan}, c.vc = s.eng.chan.vc → ∀ d' ∈ c.vc.issued.head?,
      ∃ d ∈ s.eng.chan.vc.issued.head?, d.id = d'.id := fun hvc d' hd' => ⟨d', hvc ▸ hd', rfl⟩
  cases ht with
  | nothing => exact h.congr (by rw [hchan]) (hhead (by rw [hchan])) hsub
  | reset => exact h.congr (by rw [hchan]) (hhead (by rw [hchan])) hsub
  | stop hconfigured hbusy hrun =>
      refine .inr ⟨by rw [hchan], fun d hd => ?_⟩
      rw [hchan] at hd
      obtain ⟨eng, -, rfl⟩ := Option.map_eq_some_iff.mp hstep
      have hd : s.eng.chan.vc.issued.head? = some d := hd
      show d.id ∈ if _ then _ else s.stopped
      rw [if_pos ⟨ha, hconfigured, hbusy, hrun⟩, hd]
      exact List.mem_append_left _ (List.mem_singleton.mpr rfl)

theorem start_request {ch ch' : MtdmaChan} {hd : Option Handed} (h : ch.Start ch' hd) :
    ch'.request = ch.request := by
  cases h <;> rfl

theorem stops_of_step {a : EngineAct} (h : s.Stops) (hstep : s.step a = some s') : s'.Stops := by
  have hsub := stopped_subset hstep
  have hsame : s'.eng.chan.request = s.eng.chan.request →
      s'.eng.chan.vc.issued = s.eng.chan.vc.issued → s'.Stops := fun hreq hissued =>
    h.congr hreq (fun d' hd' => ⟨d', hissued ▸ hd', rfl⟩) hsub
  obtain ⟨eng, heng, rfl⟩ := Option.map_eq_some_iff.mp hstep
  cases EngineSys.move_of_step heng with
  | prepFails | prep | alloc | config | finished | lost | isrReads | isrNotDone | isrNoAbort
  | taskletTakes | taskletCalls | freeNothing => exact hsame rfl rfl
  | submit hvc =>
      obtain ⟨l, d, r, hfrom, rfl, rfl⟩ := VirtDmaChan.exists_of_vchanTxSubmit hvc
      exact hsame rfl rfl
  | terminate ht =>
      exact h.terminate ht (show EngineSys.Terminates .terminateAll from trivial) hstep rfl
  | free ht =>
      have ha : EngineSys.Terminates (.freeChanResources true) := rfl
      exact h.terminate ht ha hstep rfl
  | @issue ch hd hi =>
      rw [Stops, EngineSys.give_chan]
      cases hi with
      | ignored => exact hsame (by rw [EngineSys.give_chan]) (by rw [EngineSys.give_chan])
      | nothing hready => exact .inl hready.2.1
      | start hready _ hs => exact .inl ((start_request hs).trans hready.2.1)
  | @isrDone status ch hd hisr hst hdone =>
      cases hdone with
      | nothing => exact hsame rfl rfl
      | next _ hreq _ hs =>
          rw [Stops, EngineSys.give_chan]
          exact .inl ((start_request hs).trans hreq)
      | retires => exact .inl rfl
      | pauses => exact .inl rfl
  | isrAbort => exact .inl rfl

/-! ### completed descriptors -/

/-- A retirement completes the first descriptor that was issued, if there is one, and puts it
behind all that were completed before. -/
theorem head_of_retire {e e' : EngineSys} {id : Nat} (hid : id ∈ e'.doneIds)
    (hcalled : e'.called = e.called) (htaken : e'.taken = e.taken)
    (hcompleted : e'.chan.vc.completed = e.chan.vc.retire.completed) :
    id ∈ e.doneIds ∨ ∃ d ∈ e.chan.vc.issued.head?, d.id = id := by
  cases hi : e.chan.vc.issued with
  | nil =>
      rw [EngineSys.doneIds_congr hcalled htaken (by rw [hcompleted, VirtDmaChan.retire, hi])] at hid
      exact .inl hid
  | cons d rest =>
      rw [EngineSys.doneIds, hcalled, htaken, hcompleted, VirtDmaChan.retire, hi] at hid
      rcases List.mem_append.mp hid with hid | hid
      · exact .inl (List.mem_append_left _ hid)
      · simp only [VirtDmaChan.vchanCookieComplete, List.map_append] at hid
        refine (List.mem_append.mp hid).imp (List.mem_append_right _) fun hid => ?_
        exact ⟨d, rfl, (List.mem_singleton.mp hid).symm⟩

/-- What completes the first descriptor: a request to stop, a done interrupt with no chunk left,
or an abort. -/
def Retires (e : EngineSys) (d : VirtDmaDesc MtdmaDesc) : Prop :=
  e.chan.request = .stop ∨ d.body.chunks = [] ∨ e.inHand &&& abortBits ≠ 0

/-- A step completes no other descriptor than the first one that was issued. -/
theorem head_of_done {e e' : EngineSys} {a : EngineAct} (hstep : e.step a = some e') {id : Nat}
    (hid : id ∈ e'.doneIds) :
    id ∈ e.doneIds ∨ ∃ d ∈ e.chan.vc.issued.head?, d.id = id ∧ Retires e d := by
  have hsame : e'.called = e.called → e'.taken = e.taken →
      e'.chan.vc.completed = e.chan.vc.completed →
        id ∈ e.doneIds ∨ ∃ d ∈ e.chan.vc.issued.head?, d.id = id ∧ Retires e d :=
    fun hcalled htaken hcompleted => .inl (EngineSys.doneIds_congr hcalled htaken hcompleted ▸ hid)
  cases EngineSys.move_of_step hstep with
  | prepFails | prep | alloc | config | finished | lost | isrReads | isrNotDone | isrNoAbort
  | freeNothing => exact hsame rfl rfl rfl
  | submit hvc =>
      obtain ⟨l, d, r, hfrom, rfl, rfl⟩ := VirtDmaChan.exists_of_vchanTxSubmit hvc
      exact hsame rfl rfl rfl
  | taskletTakes ht =>
      refine .inl ?_
      simpa [EngineSys.doneIds, ht] using hid
  | taskletCalls ht =>
      refine .inl ?_
      simpa [EngineSys.doneIds, ht] using hid
  | terminate ht => exact hsame rfl rfl (by rw [← ht.vc])
  | free ht => exact hsame rfl rfl (by rw [← ht.vc])
  | @issue ch hd hi =>
      obtain ⟨hcalled, htaken, -⟩ := give_frame { e with chan := ch } hd
      refine hsame hcalled htaken ?_
      rw [EngineSys.give_chan]
      cases hi with
      | ignored => rfl
      | nothing => rfl
      | start _ _ hs => exact hs.completed
  | @isrDone status ch hd hisr hst hdone =>
      obtain ⟨hcalled, htaken, -⟩ :=
        give_frame { e with isr := some ⟨status, true⟩, chan := ch } hd
      cases hdone with
      | nothing => exact hsame rfl rfl rfl
      | next _ _ _ hs =>
          refine hsame hcalled htaken ?_
          rw [EngineSys.give_chan]
          exact hs.completed
      | pauses => exact hsame rfl rfl rfl
      | @retires d rest hissued hreq =>
          refine (head_of_retire (e := e) hid rfl rfl rfl).imp_right ?_
          rintro ⟨d', hd', rfl⟩
          refine ⟨d', hd', rfl, hreq.imp_right fun ⟨_, hchunks⟩ => .inl ?_⟩
          rw [hissued] at hd'
          obtain rfl : d = d' := Option.some.inj hd'
          exact hchunks
  | @isrAbort status hisr hst =>
      refine (head_of_retire (e := e) hid rfl rfl rfl).imp_right ?_
      rintro ⟨d, hd, rfl⟩
      refine ⟨d, hd, rfl, .inr (.inr ?_)⟩
      have hhand : e.inHand = status &&& abortBits := by rw [EngineSys.inHand, hisr]; rfl
      rw [hhand, BitVec.and_assoc]
      exact hst

/-- An abort is read from an interrupt that has an error, and by the phase that interrupt is
one of a chunk of the first issued descriptor, whose error is in the record. -/
theorem error_of_abort (hphase : s.eng.Phase) (habort : s.eng.inHand &&& abortBits ≠ 0)
    {d : VirtDmaDesc MtdmaDesc} (hd : d ∈ s.eng.chan.vc.issued.head?) : d.id ∈ s.eng.errs := by
  have hacts : Acts s.eng.inHand := (acts_iff _).mpr (.inr habort)
  cases hphase with
  | quiet _ _ hnot => exact absurd hacts hnot
  | runs _ _ _ hnot => exact absurd hacts hnot
  | raised _ _ _ hnot => exact absurd hacts hnot
  | read hworks _ _ hends =>
      have hhead := hworks.head
      rw [hd] at hhead
      have hid : d.id = _ := Option.some.inj hhead
      exact hid ▸ hends.error habort

/-- A first descriptor that is completed had an error, was to be stopped, or has nothing left:
one invariant for each of the three reasons. -/
theorem over_of_retires (h : s.Inv) (hphase : s.eng.Phase) (hstops : s.Stops)
    {d : VirtDmaDesc MtdmaDesc} (hd : d ∈ s.eng.chan.vc.issued.head?) (hr : Retires s.eng d) :
    s.Over d.id := by
  rcases hr with hstop | hchunks | habort
  · rcases hstops with hnone | ⟨-, hstopped⟩
    · rw [hnone] at hstop
      contradiction
    · exact .inr (.inl (hstopped d hd))
  · obtain ⟨rest, hissued⟩ := List.head?_eq_some_iff.mp hd
    have hrest := h.rest d (List.mem_append_left _ (by
      rw [queued_of_issued hissued]
      exact List.mem_cons_self))
    rw [hchunks, eq_comm, List.drop_eq_nil_iff] at hrest
    exact .inr (.inr (Nat.le_antisymm (h.bound d.id) hrest))
  · exact .inl (error_of_abort hphase habort hd)

/-- A descriptor that a step completes was submitted, and is over. -/
theorem over_of_done {a : EngineAct} (h : s.Inv) (hphase : s.eng.Phase) (hstops : s.Stops)
    (hstep : s.step a = some s') {id : Nat} (hid : id ∈ s'.eng.doneIds) :
    id ∈ s.eng.doneIds ∨ id ∈ s.order ∧ s.Over id := by
  obtain ⟨eng, heng, rfl⟩ := Option.map_eq_some_iff.mp hstep
  rcases head_of_done heng hid with hdone | ⟨d, hd, rfl, hr⟩
  · exact .inl hdone
  · obtain ⟨rest, hissued⟩ := List.head?_eq_some_iff.mp hd
    exact .inr ⟨(h.head (queued_of_issued hissued)).2.2, over_of_retires h hphase hstops hd hr⟩

theorem errs_subset {e e' : EngineSys} {a : EngineAct} (h : EngineSys.Move e a e') :
    e.errs ⊆ e'.errs := by
  have hgive : ∀ (e : EngineSys) hd, (e.give hd).errs = e.errs := fun e hd => by cases hd <;> rfl
  cases h with
  | issue => rw [hgive]; exact List.Subset.refl _
  | isrDone => rw [hgive]; exact List.Subset.refl _
  | @finished id bits =>
      intro j hj
      show j ∈ if _ then _ else e.errs
      split
      · exact List.mem_cons_of_mem _ hj
      · exact hj
  | _ => exact List.Subset.refl _

/-- What a descriptor was prepared with stays, since no identity is given out again. -/
theorem planned_of_lt {a : EngineAct} {id : Nat} (hstep : s.step a = some s')
    (hid : id < s.eng.nextId) : s'.planned id = s.planned id := by
  obtain ⟨eng, -, rfl⟩ := Option.map_eq_some_iff.mp hstep
  dsimp only
  cases s.eng.plans a with
  | none => rfl
  | some chunks => exact Function.update_of_ne (Nat.ne_of_lt hid) _ _

/-- A descriptor that is over stays so: two of the records only grow, and no more can be given
than was planned. -/
theorem Over.step {a : EngineAct} {id : Nat} (hover : s.Over id) (h' : s'.Inv)
    (hstep : s.step a = some s') (hid : id < s.eng.nextId) : s'.Over id := by
  have hsub := stopped_subset hstep
  obtain ⟨eng, heng, rfl⟩ := Option.map_eq_some_iff.mp hstep
  rcases hover with herr | hstopped | hall
  · exact .inl (errs_subset (EngineSys.move_of_step heng) herr)
  · exact .inr (.inl (hsub hstopped))
  · refine .inr (.inr (Nat.le_antisymm (h'.bound id) ?_))
    refine Nat.le_trans (Nat.le_of_eq ?_) (Nat.le_trans hall.ge ?_)
    · rw [planned_of_lt hstep hid]
    · show s.count id ≤ List.count id (List.map _ (s.given ++ _))
      rw [List.map_append, List.count_append]
      exact Nat.le_add_right _ _

/-- **The invariant** of the runs in which the hardware keeps to its part: the order of what
was given, the phase of the hardware, the request, and that all that was completed is over. -/
structure Kept (s : DeliverySys) : Prop where
  inv : s.Inv
  phase : s.eng.Phase
  stops : s.Stops
  ended : ∀ id ∈ s.eng.doneIds, s.Over id

theorem kept_of_init (h : Init s) : s.Kept := by
  have hinv := inv_of_init h
  obtain ⟨⟨dir, info, heng⟩, -⟩ := h
  refine ⟨hinv, ?_, ?_, ?_⟩
  · rw [heng]
    exact .quiet rfl not_acts_zero not_acts_zero
  · rw [Stops, heng]
    exact .inl rfl
  · rw [heng]
    exact nofun

theorem Kept.step {a : EngineAct} (h : s.Kept) (hok : s.Sound a) (hstep : s.step a = some s') :
    s'.Kept := by
  have hinv := h.inv.effect (effect_of_step hstep)
  refine ⟨hinv, phase_of_step h.phase hok hstep, stops_of_step h.stops hstep, fun id hid => ?_⟩
  rcases over_of_done h.inv h.phase h.stops hstep hid with hdone | ⟨hmem, hover⟩
  · refine (h.ended id hdone).step hinv hstep (h.inv.fresh id ?_)
    rw [h.inv.order]
    exact List.mem_append_left _ hdone
  · exact hover.step hinv hstep (h.inv.fresh id hmem)

theorem kept_of_reaches (h : Reaches step Sound Init s) : s.Kept :=
  h.invariant (fun _ => kept_of_init) fun _ _ _ hkept hok hstep => hkept.step hok hstep

/-- What was given of one descriptor, among all that was given: its part, when it was
submitted once. -/
theorem filter_flatMap {f : Nat → List Handed} (hf : ∀ j, ∀ x ∈ f j, x.1 = j) {l : List Nat}
    (hl : l.Nodup) {id : Nat} (hid : id ∈ l) :
    (l.flatMap f).filter (·.1 = id) = f id := by
  have hself : (f id).filter (·.1 = id) = f id := by
    rw [List.filter_eq_self]
    exact fun x hx => decide_eq_true (hf id x hx)
  have hother : ∀ l : List Nat, id ∉ l → (l.flatMap f).filter (·.1 = id) = [] := fun l hnot => by
    rw [List.filter_eq_nil_iff]
    intro x hx
    obtain ⟨j, hj, hx⟩ := List.mem_flatMap.mp hx
    rw [decide_eq_true_eq, hf j x hx]
    exact fun heq => hnot (heq ▸ hj)
  obtain ⟨l₁, l₂, rfl⟩ := List.append_of_mem hid
  rw [List.nodup_middle, List.nodup_cons, List.mem_append, not_or] at hl
  rw [List.flatMap_append, List.flatMap_cons, List.filter_append, List.filter_append,
    hother l₁ hl.1.1, hother l₂ hl.1.2, hself, List.nil_append, List.append_nil]

/-- **Whole descriptors**: the hardware executes no two chunks at once and none of a completed
descriptor, and a descriptor is completed when all its chunks were given, each once and in order,
unless it had an error or was to be stopped. -/
theorem whole_descriptors (h : Reaches step Sound Init s) :
    s.eng.running.length ≤ 1 ∧
      ∀ id ∈ s.eng.doneIds, id ∉ s.eng.running ∧
        (id ∉ s.eng.errs → id ∉ s.stopped →
          (s.given.filter (·.1 = id)).map (·.2) = s.planned id) := by
  obtain ⟨hinv, hphase, -, hover⟩ := kept_of_reaches h
  refine ⟨?_, fun id hid => ⟨?_, fun herr hstopped => ?_⟩⟩
  · cases hphase with
    | quiet hrun => rw [hrun]; exact Nat.zero_le _
    | runs _ hrun => rw [hrun]; exact Nat.le_refl _
    | raised _ hrun => rw [hrun]; exact Nat.zero_le _
    | read _ hrun => rw [hrun]; exact Nat.zero_le _
  · cases hphase with
    | quiet hrun => rw [hrun]; exact List.not_mem_nil
    | raised _ hrun => rw [hrun]; exact List.not_mem_nil
    | read _ hrun => rw [hrun]; exact List.not_mem_nil
    | @runs head hworks hrun =>
        rw [hrun, List.mem_singleton]
        rintro rfl
        have hhead := hworks.head
        cases hi : s.eng.chan.vc.issued with
        | nil =>
            rw [hi] at hhead
            contradiction
        | cons d rest =>
            rw [hi] at hhead
            have heq : d.id = id := Option.some.inj hhead
            exact (hinv.head (queued_of_issued hi)).1 (heq ▸ hid)
  · have hall := ((hover id hid).resolve_left herr).resolve_left hstopped
    have hmem : id ∈ s.order := by
      rw [hinv.order]
      exact List.mem_append_left _ hid
    have hpart : ∀ j, ∀ x ∈ s.part j, x.1 = j := fun j x hx => by
      obtain ⟨chunk, -, rfl⟩ := List.mem_map.mp hx
      rfl
    rw [hinv.given, filter_flatMap hpart hinv.nodup hmem, part, hall, List.take_length,
      List.map_map]
    exact List.map_id _

instance : (a : EngineAct) → Decidable (s.Sound a)
  | .terminateAll | .freeChanResources _ | .prep _ _ _ | .submit _ | .issuePending
  | .allocChanResources | .config _ =>
      inferInstanceAs
        (Decidable (EngineSys.Terminates _ → s.eng.busy = false → ¬s.eng.Outstanding))
  | .hwFinish _ _ => inferInstanceAs (Decidable (_ ∨ _))
  | .lose _ | .isrRead | .isrDone | .isrAbort | .taskletTake | .taskletCall =>
      inferInstanceAs
        (Decidable (EngineSys.Terminates _ → s.eng.busy = false → ¬s.eng.Outstanding))

/-- Both chunks of the first submitted descriptor were given when it is completed. -/
theorem whole_descriptors_twoDescs : ∃ s, Reaches step Sound Init s ∧ (s.planned 1).length = 2 ∧
    (s.given.filter (·.1 = 1)).map (·.2) = s.planned 1 := by
  obtain ⟨s, hs, hlen, hdone, herrs, hstopped⟩ : ∃ s, Reaches step Sound Init s ∧
      (s.planned 1).length = 2 ∧ 1 ∈ s.eng.doneIds ∧ s.eng.errs = [] ∧ s.stopped = [] :=
    exists_reaches (twoDescs ++ chunkDone ++ chunkDone) init_idle (by decide)
  refine ⟨s, hs, hlen, ((whole_descriptors hs).2 1 hdone).2 ?_ ?_⟩
  · rw [herrs]
    exact List.not_mem_nil
  · rw [hstopped]
    exact List.not_mem_nil

end DeliverySys

end MtEmu
