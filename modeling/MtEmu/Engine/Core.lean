import MtEmu.Engine.Vchan
import MtEmu.Bare.Xfer
import MtEmu.Bare.Isr

/-!
# MtEmu.Engine.Core

The callbacks of one dmaengine channel (`mt-emu-mtdma-core.c`): prepare,
configure, issue, terminate, and the done and abort interrupts.

A descriptor is a list of chunks, each a list of bursts.  The hardware is
given one chunk at a time; `mtdma_start_transfer` takes it off the first
issued descriptor.  Everything that starts a chunk returns it next to the
channel, as the descriptor's identity and the chunk.

The status of the hardware (`mtdma_v0_core_ch_status`) and the success of
the allocations are parameters.  `chunks_alloc` is the length of the chunk
list, with which the source counts it up and down.

The second half says once what each callback can do (`Start`, `Terminate`,
`Issue`, `Done`): one constructor for each way it can end, with the tests that
lead there.  The invariants of the machines that run a channel are proved from
these.
-/

namespace MtEmu

/-! ## types -/

/-- `enum mtdma_request`. -/
inductive MtdmaRequest where
  | none
  | stop
  | pause
  deriving DecidableEq

/-- The values of the enumeration: `mtdma_device_terminate_all` compares
requests by their order. -/
def MtdmaRequest.val : MtdmaRequest → Nat
  | .none => 0
  | .stop => 1
  | .pause => 2

/-- `enum mtdma_status`. -/
inductive MtdmaStatus where
  | idle
  | pause
  | busy
  deriving DecidableEq

/-- `enum dma_transfer_direction`, as far as a channel can have it. -/
inductive DmaTransferDirection where
  | memToDev
  | devToMem
  deriving DecidableEq

/-- `struct mtdma_burst`: one transfer of `sz` bytes from `sar` to `dar`, which
becomes one hardware descriptor. -/
structure MtdmaBurst where
  sar : U64
  dar : U64
  sz : U32
  deriving DecidableEq

/-- `struct mtdma_chunk`: its bursts and `ll_region.sz`, the sum of their sizes.
A chunk is what the hardware is given at a time; where its list is stored is
the channel's and not the chunk's. -/
structure MtdmaChunk where
  bursts : List MtdmaBurst
  sz : U32
  deriving DecidableEq

/-- What `struct mtdma_desc` adds to its `vd`: the chunks that are still to be
handed over, the bytes of all of them at the start, and the bytes handed over. -/
structure MtdmaDesc where
  chunks : List MtdmaChunk
  allocSz : U32
  xferSz : U32
  deriving DecidableEq

/-- `chunks_alloc`, by which `mtdma_done_interrupt` decides whether a descriptor
goes on. -/
def MtdmaDesc.chunksAlloc (d : MtdmaDesc) : Nat := d.chunks.length

/-- The addresses in `struct dma_slave_config`, the only fields that the
callbacks read. -/
structure DmaSlaveConfig where
  srcAddr : U64
  dstAddr : U64
  deriving DecidableEq, Inhabited

/-- An entry of a mapped scatter list: `sg_dma_address` and `sg_dma_len`. -/
structure SgEntry where
  dmaAddress : U64
  dmaLen : U32
  deriving DecidableEq

/-- `struct mtdma_chan`: the virtual channel with its lists, the direction and
the window from the setup, and the small state machine of `request`, `status`
and `configured`. -/
structure MtdmaChan where
  vc : VirtDmaChan MtdmaDesc
  dir : DmaTransferDirection
  info : MtdmaChanInfo
  request : MtdmaRequest
  status : MtdmaStatus
  configured : Bool
  config : DmaSlaveConfig
  deriving DecidableEq

/-- A chunk that was given to the hardware, and the identity of the descriptor
whose it is. -/
abbrev Handed := Nat × MtdmaChunk

/-- The error bits on which `mtdma_isr` aborts: data, descriptor read and
configuration, without the dummy read. -/
def abortBits : U32 := 0b01110

namespace MtdmaChan

/-- A channel after `mtdma_channel_setup`: idle, not configured, with nothing in
its lists. -/
def setup (dir : DmaTransferDirection) (info : MtdmaChanInfo) : MtdmaChan where
  vc := .vchanInit
  dir := dir
  info := info
  request := .none
  status := .idle
  configured := false
  config := default

/-! ## preparing -/

/-- The loop variables of `mtdma_device_transfer`: the chunks in the list
before the last one, the last one, the device address, which runs on by the
length of each entry, and `alloc_sz`. -/
structure TransferState where
  before : List MtdmaChunk
  chunk : MtdmaChunk
  addr : U64
  allocSz : U32

/-- One scatter entry becomes one burst, in a new chunk if the last one is
full.  The host's end of the burst is the entry, the device's end the running
address. -/
def transferRound (ch : MtdmaChan) (st : TransferState) (sg : SgEntry) : TransferState :=
  let full := BitVec.ofNat 32 st.chunk.bursts.length = ch.info.llMax
  let before := if full then st.before ++ [st.chunk] else st.before
  let chunk := if full then ⟨[], 0⟩ else st.chunk
  let burst : MtdmaBurst :=
    match ch.dir with
    | .memToDev => ⟨sg.dmaAddress, st.addr, sg.dmaLen⟩
    | .devToMem => ⟨st.addr, sg.dmaAddress, sg.dmaLen⟩
  { before := before
    chunk := ⟨chunk.bursts ++ [burst], chunk.sz + burst.sz⟩
    addr := st.addr + sg.dmaLen.setWidth 64
    allocSz := st.allocSz + burst.sz }

/-- `mtdma_device_transfer` up to `vchan_tx_prep`: the descriptor, if the
channel is configured, the list is not empty and all allocations succeed. -/
def mtdmaDeviceTransfer (ch : MtdmaChan) (sgl : List SgEntry) (len : U32) (allocOk : Bool) :
    Option MtdmaDesc :=
  if !ch.configured then none
  else if len < 1 then none
  else if !allocOk then none
  else
    let addr := match ch.dir with
      | .memToDev => ch.config.dstAddr
      | .devToMem => ch.config.srcAddr
    let st := (sgl.take len.toNat).foldl ch.transferRound ⟨[], ⟨[], 0⟩, addr, 0⟩
    some ⟨st.before ++ [st.chunk], st.allocSz, 0⟩

/-- `mtdma_device_prep_slave_sg`; the new descriptor gets the identity `id`. -/
def mtdmaDevicePrepSlaveSg (ch : MtdmaChan) (id : Nat) (sgl : List SgEntry) (len : U32)
    (allocOk : Bool) : Option MtdmaChan :=
  (ch.mtdmaDeviceTransfer sgl len allocOk).map fun body =>
    { ch with vc := ch.vc.vchanTxPrep ⟨id, 0, .noError, body⟩ }

/-! ## configuring, issuing and terminating -/

/-- `mtdma_start_transfer`: the first chunk of the first issued descriptor goes
to the hardware and is freed.  Nothing happens when no descriptor is issued, or
when the first one has no chunk left. -/
def mtdmaStartTransfer (ch : MtdmaChan) : MtdmaChan × Option Handed :=
  match ch.vc.issued with
  | [] => (ch, none)
  | d :: rest =>
      match d.body.chunks with
      | [] => (ch, none)
      | child :: chunks =>
          let body := { d.body with chunks := chunks, xferSz := d.body.xferSz + child.sz }
          ({ ch with vc := { ch.vc with issued := { d with body := body } :: rest } },
            some (d.id, child))

/-- `mtdma_device_config`, which may be called at any time and looks at nothing:
a channel that was terminated is in use again, with the lists that it had. -/
def mtdmaDeviceConfig (ch : MtdmaChan) (config : DmaSlaveConfig) : MtdmaChan :=
  { ch with config := config, configured := true }

/-- `mtdma_device_terminate_all`; `running` is what the status register of the
channel says, and -1 is `-EPERM`.  None of its branches touches the lists, and
only the last one waits for the hardware. -/
def mtdmaDeviceTerminateAll (ch : MtdmaChan) (running : Bool) : MtdmaChan × Int :=
  if !ch.configured then (ch, 0)
  else if ch.status = .pause then ({ ch with status := .idle, configured := false }, 0)
  else if ch.status = .idle then ({ ch with configured := false }, 0)
  -- a false BUSY state: the interrupt was lost or has not come yet
  else if !running then ({ ch with status := .idle, configured := false }, 0)
  else if MtdmaRequest.pause.val < ch.request.val then (ch, -1)
  else ({ ch with request := .stop }, 0)

/-- `mtdma_device_issue_pending`; the lists are only touched on a configured,
idle channel.  On a busy one the call is forgotten: what was submitted stays
where it is. -/
def mtdmaDeviceIssuePending (ch : MtdmaChan) : MtdmaChan × Option Handed :=
  if ch.configured ∧ ch.request = .none ∧ ch.status = .idle then
    let (vc, any) := ch.vc.vchanIssuePending
    if any then { ch with vc := vc, status := .busy }.mtdmaStartTransfer
    else ({ ch with vc := vc }, none)
  else (ch, none)

/-- `mtdma_alloc_chan_resources`: `-EBUSY` unless the channel is idle. -/
def mtdmaAllocChanResources (ch : MtdmaChan) : Int := if ch.status ≠ .idle then -16 else 0

/-- `mtdma_free_chan_resources`: terminate until it succeeds or time is up;
`polls` is what the status register says each time. -/
def mtdmaFreeChanResources (ch : MtdmaChan) : List Bool → MtdmaChan
  | [] => ch
  | running :: polls =>
      let (ch', err) := ch.mtdmaDeviceTerminateAll running
      if err = 0 then ch' else ch'.mtdmaFreeChanResources polls

/-! ## interrupts -/

/-- `mtdma_done_interrupt`: the first issued descriptor goes on with its next
chunk or is completed; after a request to stop it is completed with chunks
left. -/
def mtdmaDoneInterrupt (ch : MtdmaChan) : MtdmaChan × Option Handed :=
  match ch.vc.vchanNextDesc with
  | none => (ch, none)
  | some d =>
      match ch.request with
      | .none =>
          if d.body.chunksAlloc ≠ 0 then { ch with status := .busy }.mtdmaStartTransfer
          else ({ ch with vc := ch.vc.retire, status := .idle }, none)
      | .stop => ({ ch with vc := ch.vc.retire, request := .none, status := .idle }, none)
      | .pause => ({ ch with request := .none, status := .pause }, none)

/-- `mtdma_abort_interrupt`: the first issued descriptor is completed like one
that succeeded, and the channel is idle whatever else waits. -/
def mtdmaAbortInterrupt (ch : MtdmaChan) : MtdmaChan :=
  { ch with vc := ch.vc.retire, request := .none, status := .idle }

/-- `mtdma_isr` behind its read of the raw status.  The two tests are
independent: a status with both kinds of bits runs both handlers. -/
def mtdmaIsr (ch : MtdmaChan) (status : U32) : MtdmaChan × Option Handed :=
  let r := if status &&& intrDone ≠ 0 then ch.mtdmaDoneInterrupt else (ch, none)
  if status &&& abortBits ≠ 0 then (r.1.mtdmaAbortInterrupt, r.2) else r

/-! ## what they do -/

variable {ch ch' : MtdmaChan} {hd : Option Handed}

/-- A new descriptor has a chunk: the first one is allocated before the loop. -/
theorem chunks_ne_nil {sgl : List SgEntry} {len : U32} {allocOk : Bool} {body : MtdmaDesc}
    (h : ch.mtdmaDeviceTransfer sgl len allocOk = some body) : body.chunks ≠ [] := by
  unfold mtdmaDeviceTransfer at h
  split at h
  · cases h
  split at h
  · cases h
  split at h
  · cases h
  · cases h
    simp

/-- What `mtdma_start_transfer` does with the first issued descriptor: it stays
in front, with one chunk less. -/
inductive Start (ch : MtdmaChan) : MtdmaChan → Option Handed → Prop
  | nothing (h : ∀ d rest, ch.vc.issued = d :: rest → d.body.chunks = []) : Start ch ch none
  | chunk {d rest child chunks} (h : ch.vc.issued = d :: rest)
      (hd : d.body.chunks = child :: chunks) {d' : VirtDmaDesc MtdmaDesc} (hid : d'.id = d.id)
      (hcookie : d'.cookie = d.cookie) (hresult : d'.result = d.result)
      (hchunks : d'.body.chunks = chunks) :
      Start ch { ch with vc := { ch.vc with issued := d' :: rest } } (some (d.id, child))

theorem start_of_eq (h : ch.mtdmaStartTransfer = (ch', hd)) : ch.Start ch' hd := by
  unfold mtdmaStartTransfer at h
  split at h
  · next hi => cases h; exact .nothing (by simp [hi])
  · next d rest hi =>
      split at h
      · next hc => cases h; exact .nothing (by simp [hi, hc])
      · next child chunks hc => cases h; exact .chunk hi hc rfl rfl rfl rfl

/-- `mtdma_device_terminate_all` never fails: no request is greater than
`MTDMA_REQ_PAUSE`. -/
theorem terminateAll_err (running : Bool) : (ch.mtdmaDeviceTerminateAll running).2 = 0 := by
  unfold mtdmaDeviceTerminateAll
  cases ch.request <;> grind [MtdmaRequest.val]

/-- So it is called at most once when a channel is given up, and the loop of
`mtdma_free_chan_resources` does not wait for the hardware. -/
theorem mtdmaFreeChanResources_cons (running : Bool) (polls : List Bool) :
    ch.mtdmaFreeChanResources (running :: polls) = (ch.mtdmaDeviceTerminateAll running).1 := by
  simp [mtdmaFreeChanResources, terminateAll_err]

/-- `terminate_all` makes the channel idle and unconfigured: it was not busy, or
only falsely so. -/
def Resets (ch : MtdmaChan) (running : Bool) : Prop :=
  ch.configured = true ∧ (ch.status ≠ .busy ∨ running = false)

instance (running : Bool) : Decidable (ch.Resets running) := inferInstanceAs (Decidable (_ ∧ _))

/-- What `mtdma_device_terminate_all` does: nothing, a reset of the state with
the lists left as they are, or a request to stop after the running chunk. -/
inductive Terminate (ch : MtdmaChan) (running : Bool) : MtdmaChan → Prop
  | nothing (h : ch.configured = false) : Terminate ch running ch
  | reset (h : ch.Resets running) :
      Terminate ch running { ch with status := .idle, configured := false }
  | stop (h : ch.configured = true) (hbusy : ch.status = .busy) (hrun : running = true) :
      Terminate ch running { ch with request := .stop }

theorem terminate_terminateAll (ch : MtdmaChan) (running : Bool) :
    ch.Terminate running (ch.mtdmaDeviceTerminateAll running).1 := by
  have herr : (ch.mtdmaDeviceTerminateAll running).2 = 0 := terminateAll_err running
  unfold mtdmaDeviceTerminateAll at herr ⊢
  cases hc : ch.configured with
  | false => simpa using Terminate.nothing hc
  | true =>
      simp only [hc, Bool.not_true, Bool.false_eq_true, if_false] at herr ⊢
      cases hs : ch.status with
      | pause => simpa using Terminate.reset ⟨hc, .inl (by simp [hs])⟩
      | idle =>
          have h : ch.Terminate running _ := .reset ⟨hc, .inl (by simp [hs])⟩
          simpa [← hs] using h
      | busy =>
          cases hr : running with
          | false => simpa using Terminate.reset ⟨hc, .inr rfl⟩
          | true =>
              simp only [hs, hr, reduceCtorEq, if_false, Bool.not_true, Bool.false_eq_true] at herr ⊢
              split at herr
              · cases herr
              · next hle =>
                  rw [if_neg hle]
                  have h : ch.Terminate true _ := .stop hc hs rfl
                  simpa [hs, hc] using h

/-- A channel on which `issue_pending` looks at its lists. -/
def Ready (ch : MtdmaChan) : Prop :=
  ch.configured = true ∧ ch.request = .none ∧ ch.status = .idle

instance : Decidable ch.Ready := inferInstanceAs (Decidable (_ ∧ _ ∧ _))

/-- What `mtdma_device_issue_pending` does: it starts the first of everything
that waits, or finds that nothing does, or is ignored. -/
inductive Issue (ch : MtdmaChan) : MtdmaChan → Option Handed → Prop
  | ignored (h : ¬ ch.Ready) : Issue ch ch none
  | nothing (h : ch.Ready) (hq : ch.vc.queued = []) :
      Issue ch { ch with vc := ch.vc.vchanIssuePending.1 } none
  | start {ch' : MtdmaChan} {hd : Option Handed} (h : ch.Ready) (hq : ch.vc.queued ≠ [])
      (hs : { ch with vc := ch.vc.vchanIssuePending.1, status := .busy }.Start ch' hd) :
      Issue ch ch' hd

theorem issue_of_eq (h : ch.mtdmaDeviceIssuePending = (ch', hd)) : ch.Issue ch' hd := by
  unfold mtdmaDeviceIssuePending at h
  split at h
  · next hready =>
      dsimp only at h
      split at h
      · next hq =>
          have hne : ch.vc.queued ≠ [] := by
            simpa [VirtDmaChan.vchanIssuePending, VirtDmaChan.queued] using hq
          exact .start hready hne (start_of_eq h)
      · next hq =>
          cases h
          exact .nothing hready (by simpa [VirtDmaChan.vchanIssuePending, VirtDmaChan.queued] using hq)
  · next hready => cases h; exact .ignored hready

/-- What `mtdma_done_interrupt` does, by the request and by what is left of the
first issued descriptor. -/
inductive Done (ch : MtdmaChan) : MtdmaChan → Option Handed → Prop
  | nothing (h : ch.vc.issued = []) : Done ch ch none
  | next {ch' : MtdmaChan} {hd : Option Handed} {d rest} (h : ch.vc.issued = d :: rest)
      (hreq : ch.request = .none) (hchunks : d.body.chunks ≠ [])
      (hs : { ch with status := .busy }.Start ch' hd) : Done ch ch' hd
  | retires {d rest} (h : ch.vc.issued = d :: rest)
      (hreq : ch.request = .stop ∨ ch.request = .none ∧ d.body.chunks = []) :
      Done ch { ch with vc := ch.vc.retire, request := .none, status := .idle } none
  | pauses {d rest} (h : ch.vc.issued = d :: rest) (hreq : ch.request = .pause) :
      Done ch { ch with request := .none, status := .pause } none

theorem done_of_eq (h : ch.mtdmaDoneInterrupt = (ch', hd)) : ch.Done ch' hd := by
  unfold mtdmaDoneInterrupt VirtDmaChan.vchanNextDesc at h
  cases hi : ch.vc.issued with
  | nil =>
      rw [hi] at h
      cases h
      exact .nothing hi
  | cons d rest =>
      rw [hi] at h
      simp only [List.head?_cons] at h
      split at h
      · next hr =>
          split at h
          · next hc => exact .next hi hr (by simpa [MtdmaDesc.chunksAlloc] using hc) (start_of_eq h)
          · next hc =>
              cases h
              have hd : ch.Done _ none :=
                .retires hi (.inr ⟨hr, by simpa [MtdmaDesc.chunksAlloc] using hc⟩)
              simpa [← hr] using hd
      · next hr => cases h; exact .retires hi (.inl hr)
      · next hr => cases h; exact .pauses hi hr

/-! ## the lists

No callback but `prep` makes a descriptor, and none but a retirement takes one
out of the lists; they only pass from one list to the next. -/

theorem Start.liveIds (h : ch.Start ch' hd) : ch'.vc.liveIds = ch.vc.liveIds := by
  cases h with
  | nothing => rfl
  | chunk hi _ hid => simp [VirtDmaChan.liveIds, VirtDmaChan.live, VirtDmaChan.queued, hi, hid]

theorem Start.tags (h : ch.Start ch' hd) : ch'.vc.tags = ch.vc.tags := by
  cases h with
  | nothing => rfl
  | chunk hi _ hid hcookie => simp [VirtDmaChan.tags, VirtDmaChan.queued, hi, hid, hcookie]

theorem Start.issuedIds (h : ch.Start ch' hd) :
    ch'.vc.issued.map (·.id) = ch.vc.issued.map (·.id) := by
  cases h with
  | nothing => rfl
  | chunk hi _ hid => simp [hi, hid]

theorem Start.ordered (h : ch.Start ch' hd) (ho : ch.vc.Ordered) : ch'.vc.Ordered := by
  apply ho.of_eq _ _ h.tags <;> cases h <;> rfl

theorem Start.completed (h : ch.Start ch' hd) : ch'.vc.completed = ch.vc.completed := by
  cases h <;> rfl

theorem Start.allocated (h : ch.Start ch' hd) : ch'.vc.allocated = ch.vc.allocated := by
  cases h <;> rfl

theorem Start.configured (h : ch.Start ch' hd) : ch'.configured = ch.configured := by
  cases h <;> rfl

/-- Starting a chunk on a busy channel leaves it busy. -/
theorem Start.not_ready (h : ch.Start ch' hd) (hbusy : ch.status = .busy) : ¬ ch'.Ready := by
  cases h <;> simp [Ready, hbusy]

theorem Issue.liveIds (h : ch.Issue ch' hd) : ch'.vc.liveIds = ch.vc.liveIds := by
  cases h with
  | ignored => rfl
  | nothing => exact VirtDmaChan.liveIds_vchanIssuePending
  | start _ _ hs => exact hs.liveIds.trans VirtDmaChan.liveIds_vchanIssuePending

theorem Done.liveIds (h : ch.Done ch' hd) : ch'.vc.liveIds.Sublist ch.vc.liveIds := by
  cases h with
  | nothing => exact List.Sublist.refl _
  | next _ _ _ hs => simp [hs.liveIds]
  | retires => exact VirtDmaChan.liveIds_retire
  | pauses => exact List.Sublist.refl _

theorem Issue.configured (h : ch.Issue ch' hd) : ch'.configured = ch.configured := by
  cases h with
  | start _ _ hs => exact hs.configured
  | _ => rfl

theorem Done.configured (h : ch.Done ch' hd) : ch'.configured = ch.configured := by
  cases h with
  | next _ _ _ hs => exact hs.configured
  | _ => rfl

theorem Terminate.vc {running : Bool} (h : ch.Terminate running ch') : ch'.vc = ch.vc := by
  cases h <;> rfl

end MtdmaChan

end MtEmu
