import Mathlib.Logic.Function.Basic
import MtEmu.Engine.Hw

/-!
# MtEmu.Engine.DmaRw

`emu_dma_rw` on a dmaengine channel (`mt-emu-mtdma-test.c`).

One call after the other has the channel: `dma_request_chan` gives it to one
client at a time.  A call gets the channel, pins the pages of the user's
buffer, builds and maps a scatter list, and then `test_cnt` times starts a
transfer (`mtdma_xfer`), waits for its callback or the timeout, and
terminates the channel; at the end it unmaps the list and gives everything
up.  Every kernel call has its outcome as a parameter of the action, and the
hardware, the interrupt and the tasklet act at any time in between.

`cur` is the descriptor of the current iteration, `own` are the descriptors
of the call, `counted` those whose iteration was counted as successful, and
`cb` says which completion a descriptor's callback completes.
-/

namespace MtEmu

open Machine

/-! ## the call -/

/-- `struct mtdma_rw` and the user's buffer: what one `MT_IOCTL_MTDMA_RW` asks
for.  `userbuf` is an address in the caller's memory, and `laddr` one in the
device's. -/
structure MtdmaRw where
  laddr : U64
  size : U64
  testCnt : U32
  ch : U32
  dir : U32
  userbuf : U64
  deriving DecidableEq, Inhabited

namespace MtdmaRw

/-- `PAGE_SIZE`. -/
def pageSize : U64 := 4096

/-- `dir == DMA_DEV_TO_MEM`.  Any other value takes the other branch, for the
completion and for the address that is set. -/
def devToMem (q : MtdmaRw) : Bool := q.dir = 2

/-- The completion: `done_wr[ch]` or `done_rd[ch]`. -/
def done (q : MtdmaRw) : Bool × U32 := (q.devToMem, q.ch)

/-- `offset_in_page(userbuf)`. -/
def offset (q : MtdmaRw) : U64 := q.userbuf % pageSize

/-- `sgs`, the number of pages. -/
def sgs (q : MtdmaRw) : U64 := (q.offset + q.size + pageSize - 1) / pageSize

/-- The scatter entries over pages at these DMA addresses: the first one
starts at the buffer's offset in its page. -/
def sgEntries (leftToMap offset : U64) : List U64 → List SgEntry
  | [] => []
  | addr :: addrs =>
      let len := if pageSize < leftToMap then pageSize else leftToMap
      let len := if pageSize < offset + len then pageSize - offset else len
      ⟨addr + offset, len.setWidth 32⟩ :: sgEntries (leftToMap - len) 0 addrs

/-- The configuration that `mtdma_xfer` sets: the address it does not set is
whatever the stack held. -/
def slaveConfig (q : MtdmaRw) (junk : U64) : DmaSlaveConfig :=
  if q.devToMem then ⟨q.laddr, junk⟩ else ⟨junk, q.laddr⟩

end MtdmaRw

/-- Where `emu_dma_rw` is: named by what it has done last, or by the label it
is at.  A failure jumps into the row of labels, and from there each of them
is passed. -/
inductive RwPc where
  | idle
  | haveChan
  | havePages
  | pinned
  | haveTable
  | mapped
  | forTest
  | reinited
  | configured
  | prepped
  | submitted
  | waiting
  | judged
  | releaseMap
  | releaseTable
  | releasePage
  | releaseChannel
  deriving DecidableEq

/-- Between `reinit_completion` and the end of the wait. -/
@[simp] def RwPc.InWindow : RwPc → Prop
  | .reinited | .configured | .prepped | .submitted | .waiting => True
  | _ => False

instance (p : RwPc) : Decidable p.InWindow := by
  cases p <;> unfold RwPc.InWindow <;> infer_instance

/-- Outside an iteration of the loop. -/
@[simp] def RwPc.Outside (p : RwPc) : Prop := ¬ p.InWindow ∧ p ≠ .judged

instance (p : RwPc) : Decidable p.Outside := inferInstanceAs (Decidable (_ ∧ _))

/-- A channel and the call that has it: `pc`, `req`, `ret`, `i` and `sgl` are its
locals, and `done` counts the completions that were completed and not waited
for.  The other fields are described above. -/
structure RwSys where
  eng : EngineSys
  pc : RwPc
  req : MtdmaRw
  ret : Int
  i : Nat
  sgl : List SgEntry
  done : Bool × U32 → Nat
  cb : Nat → Bool × U32
  cur : Option Nat
  own : List Nat
  counted : List Nat

/-- What can happen.  A call of the kernel carries its outcome: a number that it
returns, whether it succeeds, or the addresses that it maps. -/
inductive RwAct where
  | request (q : MtdmaRw)
  | noChannel
  | kmalloc (ok : Bool)
  | getUserPages (r : Int)
  | sgAllocTable (r : Int)
  | dmaMapSg (r : Int) (addrs : List U64)
  | downInterruptible (ok : Bool)
  | forTest
  | slaveConfig (junk : U64)
  | prepSlaveSg (allocOk : Bool)
  | txSubmit
  | issuePending
  | wake
  | timeout
  | terminateAll
  | dmaUnmapSg
  | sgFreeTable
  | kfree
  | releaseChannel (inTime : Bool)
  | hw (a : EngineAct)

/-- The hardware, the interrupt and the tasklet, as opposed to the client. -/
def EngineAct.OfHardware : EngineAct → Prop
  | .hwFinish _ _ | .lose _ | .isrRead | .isrDone | .isrAbort | .taskletTake | .taskletCall => True
  | _ => False

instance : (a : EngineAct) → Decidable a.OfHardware
  | .hwFinish _ _ | .lose _ | .isrRead | .isrDone | .isrAbort | .taskletTake | .taskletCall =>
      .isTrue trivial
  | .prep _ _ _ | .submit _ | .issuePending | .terminateAll | .freeChanResources _
  | .allocChanResources | .config _ => .isFalse id

namespace RwSys

/-- The completions after a step of the hardware: a callback completes one, the
one of the iteration that prepared its descriptor, which may be over. -/
def doneAfter (r : RwSys) : EngineAct → (Bool × U32 → Nat)
  | .taskletCall =>
      match r.eng.taken with
      | d :: _ => Function.update r.done (r.cb d.id) (r.done (r.cb d.id) + 1)
      | [] => r.done
  | _ => r.done

/-- One step. -/
def step (r : RwSys) : RwAct → Option RwSys
  | .request q =>
      if r.pc = .idle ∧ r.eng.chan.mtdmaAllocChanResources = 0 then
        some { r with pc := .haveChan, req := q, own := [] }
      else none
  | .noChannel => if r.pc = .idle then some { r with ret := -1 } else none
  | .kmalloc ok =>
      if r.pc = .haveChan then
        some (if ok then { r with pc := .havePages } else { r with pc := .releaseChannel, ret := -12 })
      else none
  | .getUserPages n =>
      if r.pc = .havePages then
        some { r with pc := if BitVec.ofInt 64 n = r.req.sgs then .pinned else .releasePage, ret := n }
      else none
  | .sgAllocTable n =>
      if r.pc = .pinned then
        some { r with pc := if n = 0 then .haveTable else .releasePage, ret := n }
      else none
  | .dmaMapSg n addrs =>
      if r.pc = .haveTable then
        some { r with
          pc := if BitVec.ofInt 64 n = r.req.sgs then .mapped else .releaseTable
          ret := n
          sgl := MtdmaRw.sgEntries r.req.size r.req.offset addrs }
      else none
  | .downInterruptible ok =>
      if r.pc = .mapped then
        some (if ok then { r with pc := .forTest, i := 0 } else { r with pc := .releaseMap, ret := -512 })
      else none
  | .forTest =>
      if r.pc = .forTest then
        some (if r.i < r.req.testCnt.toNat then
          { r with pc := .reinited, done := Function.update r.done r.req.done 0, cur := none }
        else { r with pc := .releaseMap })
      else none
  | .slaveConfig junk =>
      if r.pc = .reinited then
        (r.eng.step (.config (r.req.slaveConfig junk))).map fun eng =>
          { r with eng := eng, pc := .configured }
      else none
  | .prepSlaveSg allocOk =>
      if r.pc = .configured then
        (r.eng.step (.prep r.sgl (r.req.sgs.setWidth 32) allocOk)).map fun eng =>
          -- `mtdma_xfer` fails without a descriptor, and `ret` becomes 0
          if eng.nextId = r.eng.nextId then { r with eng := eng, pc := .judged, ret := 0 }
          else
            { r with
              eng := eng
              pc := .prepped
              cb := Function.update r.cb r.eng.nextId r.req.done
              cur := some r.eng.nextId
              own := r.eng.nextId :: r.own }
      else none
  | .txSubmit =>
      match r.pc, r.cur with
      | .prepped, some id =>
          (r.eng.step (.submit id)).map fun eng =>
            if eng.chan.vc.cookie < 0 then { r with eng := eng, pc := .judged, ret := 0 }
            else { r with eng := eng, pc := .submitted }
      | _, _ => none
  | .issuePending =>
      if r.pc = .submitted then
        (r.eng.step .issuePending).map fun eng => { r with eng := eng, pc := .waiting }
      else none
  | .wake =>
      if r.pc = .waiting ∧ r.done r.req.done ≠ 0 then
        some { r with
          pc := .judged
          ret := 0
          done := Function.update r.done r.req.done (r.done r.req.done - 1)
          counted := r.cur.toList ++ r.counted }
      else none
  | .timeout =>
      if r.pc = .waiting ∧ r.done r.req.done = 0 then some { r with pc := .judged, ret := -1 } else none
  | .terminateAll =>
      if r.pc = .judged then
        (r.eng.step .terminateAll).map fun eng => { r with eng := eng, pc := .forTest, i := r.i + 1 }
      else none
  | .dmaUnmapSg => if r.pc = .releaseMap then some { r with pc := .releaseTable } else none
  | .sgFreeTable => if r.pc = .releaseTable then some { r with pc := .releasePage } else none
  | .kfree => if r.pc = .releasePage then some { r with pc := .releaseChannel } else none
  | .releaseChannel inTime =>
      if r.pc = .releaseChannel then
        (r.eng.step (.freeChanResources inTime)).map fun eng => { r with eng := eng, pc := .idle }
      else none
  | .hw a =>
      if a.OfHardware then
        (r.eng.step a).map fun eng => { r with eng := eng, done := r.doneAfter a }
      else none

/-- A channel that nobody has had yet. -/
def Init (r : RwSys) : Prop :=
  ∃ eng : EngineSys, eng.Init ∧
    r = ⟨eng, .idle, default, 0, 0, [], fun _ => 0, fun _ => (false, 0), none, [], []⟩

/-! ## what a step does -/

variable {r r' : RwSys}

/-- The steps of the machine.  A step outside the loop leaves the channel and
what was counted as they are; each step inside it is one of the client's calls
on the channel, named as in the source. -/
inductive Move (r : RwSys) : RwAct → RwSys → Prop
  | outside {a r' p p'} (hpc : r.pc = p) (hp : p.Outside) (hpc' : r'.pc = p') (hp' : p'.Outside)
      (heng : r'.eng = r.eng) (hcounted : r'.counted = r.counted) : Move r a r'
  | reinit (hpc : r.pc = .forTest) :
      Move r .forTest
        { r with pc := .reinited, done := Function.update r.done r.req.done 0, cur := none }
  | config {junk eng} (hpc : r.pc = .reinited)
      (he : r.eng.step (.config (r.req.slaveConfig junk)) = some eng) :
      Move r (.slaveConfig junk) { r with eng := eng, pc := .configured }
  | prepFails {allocOk eng} (hpc : r.pc = .configured)
      (he : r.eng.step (.prep r.sgl (r.req.sgs.setWidth 32) allocOk) = some eng) :
      Move r (.prepSlaveSg allocOk) { r with eng := eng, pc := .judged, ret := 0 }
  | prep {allocOk eng} (hpc : r.pc = .configured)
      (he : r.eng.step (.prep r.sgl (r.req.sgs.setWidth 32) allocOk) = some eng) :
      Move r (.prepSlaveSg allocOk) { r with
        eng := eng
        pc := .prepped
        cb := Function.update r.cb r.eng.nextId r.req.done
        cur := some r.eng.nextId
        own := r.eng.nextId :: r.own }
  | submitFails {id eng} (hpc : r.pc = .prepped) (hcur : r.cur = some id)
      (he : r.eng.step (.submit id) = some eng) :
      Move r .txSubmit { r with eng := eng, pc := .judged, ret := 0 }
  | submit {id eng} (hpc : r.pc = .prepped) (hcur : r.cur = some id)
      (he : r.eng.step (.submit id) = some eng) :
      Move r .txSubmit { r with eng := eng, pc := .submitted }
  | issue {eng} (hpc : r.pc = .submitted) (he : r.eng.step .issuePending = some eng) :
      Move r .issuePending { r with eng := eng, pc := .waiting }
  | woke (hpc : r.pc = .waiting) (hdone : r.done r.req.done ≠ 0) :
      Move r .wake { r with
        pc := .judged
        ret := 0
        done := Function.update r.done r.req.done (r.done r.req.done - 1)
        counted := r.cur.toList ++ r.counted }
  | timedOut (hpc : r.pc = .waiting) : Move r .timeout { r with pc := .judged, ret := -1 }
  | terminate {eng} (hpc : r.pc = .judged) (he : r.eng.step .terminateAll = some eng) :
      Move r .terminateAll { r with eng := eng, pc := .forTest, i := r.i + 1 }
  | release {inTime eng} (hpc : r.pc = .releaseChannel)
      (he : r.eng.step (.freeChanResources inTime) = some eng) :
      Move r (.releaseChannel inTime) { r with eng := eng, pc := .idle }
  | hw {a eng} (ha : a.OfHardware) (he : r.eng.step a = some eng) :
      Move r (.hw a) { r with eng := eng, done := r.doneAfter a }

/-- Every step is one of these. -/
theorem move_of_step {a : RwAct} (h : step r a = some r') : Move r a r' := by
  cases a with
  | request q =>
      simp only [step] at h
      split at h
      · next hpc => cases h; exact .outside hpc.1 (by simp) rfl (by simp) rfl rfl
      · contradiction
  | noChannel =>
      simp only [step] at h
      split at h
      · next hpc => cases h; exact .outside hpc (by simp) hpc (by simp) rfl rfl
      · contradiction
  | kmalloc ok =>
      simp only [step] at h
      split at h
      · next hpc =>
          cases h
          cases ok with
          | true => exact .outside hpc (by simp) rfl (by simp) rfl rfl
          | false => exact .outside hpc (by simp) rfl (by simp) rfl rfl
      · contradiction
  | getUserPages n =>
      simp only [step] at h
      split at h
      · next hpc => cases h; exact .outside hpc (by simp) rfl (by split <;> simp) rfl rfl
      · contradiction
  | sgAllocTable n =>
      simp only [step] at h
      split at h
      · next hpc => cases h; exact .outside hpc (by simp) rfl (by split <;> simp) rfl rfl
      · contradiction
  | dmaMapSg n addrs =>
      simp only [step] at h
      split at h
      · next hpc => cases h; exact .outside hpc (by simp) rfl (by split <;> simp) rfl rfl
      · contradiction
  | downInterruptible ok =>
      simp only [step] at h
      split at h
      · next hpc =>
          cases h
          cases ok with
          | true => exact .outside hpc (by simp) rfl (by simp) rfl rfl
          | false => exact .outside hpc (by simp) rfl (by simp) rfl rfl
      · contradiction
  | forTest =>
      simp only [step] at h
      split at h
      · next hpc =>
          cases h
          split
          · exact .reinit hpc
          · exact .outside hpc (by simp) rfl (by simp) rfl rfl
      · contradiction
  | slaveConfig junk =>
      simp only [step] at h
      split at h
      · next hpc =>
          obtain ⟨eng, he, rfl⟩ := Option.map_eq_some_iff.mp h
          exact .config hpc he
      · contradiction
  | prepSlaveSg allocOk =>
      simp only [step] at h
      split at h
      · next hpc =>
          obtain ⟨eng, he, rfl⟩ := Option.map_eq_some_iff.mp h
          split
          · exact .prepFails hpc he
          · exact .prep hpc he
      · contradiction
  | txSubmit =>
      simp only [step] at h
      split at h
      · next hpc hcur =>
          obtain ⟨eng, he, rfl⟩ := Option.map_eq_some_iff.mp h
          split
          · exact .submitFails hpc hcur he
          · exact .submit hpc hcur he
      · contradiction
  | issuePending =>
      simp only [step] at h
      split at h
      · next hpc =>
          obtain ⟨eng, he, rfl⟩ := Option.map_eq_some_iff.mp h
          exact .issue hpc he
      · contradiction
  | wake =>
      simp only [step] at h
      split at h
      · next hw => cases h; exact .woke hw.1 hw.2
      · contradiction
  | timeout =>
      simp only [step] at h
      split at h
      · next hw => cases h; exact .timedOut hw.1
      · contradiction
  | terminateAll =>
      simp only [step] at h
      split at h
      · next hpc =>
          obtain ⟨eng, he, rfl⟩ := Option.map_eq_some_iff.mp h
          exact .terminate hpc he
      · contradiction
  | dmaUnmapSg =>
      simp only [step] at h
      split at h
      · next hpc => cases h; exact .outside hpc (by simp) rfl (by simp) rfl rfl
      · contradiction
  | sgFreeTable =>
      simp only [step] at h
      split at h
      · next hpc => cases h; exact .outside hpc (by simp) rfl (by simp) rfl rfl
      · contradiction
  | kfree =>
      simp only [step] at h
      split at h
      · next hpc => cases h; exact .outside hpc (by simp) rfl (by simp) rfl rfl
      · contradiction
  | releaseChannel inTime =>
      simp only [step] at h
      split at h
      · next hpc =>
          obtain ⟨eng, he, rfl⟩ := Option.map_eq_some_iff.mp h
          exact .release hpc he
      · contradiction
  | hw a =>
      simp only [step] at h
      split at h
      · next ha =>
          obtain ⟨eng, he, rfl⟩ := Option.map_eq_some_iff.mp h
          exact .hw ha he
      · contradiction

/-! ## runs -/

/-- A channel whose list window holds one descriptor. -/
def smallChan : RwSys :=
  ⟨⟨.setup .memToDev ⟨0, 0, 0, 0, 0, 1⟩, 0, 0, none, [], [], [], [], []⟩, .idle, default, 0, 0, [],
    fun _ => 0, fun _ => (false, 0), none, [], []⟩

theorem init_smallChan : Init smallChan := ⟨_, ⟨_, _, rfl⟩, rfl⟩

/-- A call that sends `size` bytes `testCnt` times, up to the loop; the pages
are mapped at `addrs`. -/
def openCall (size : U64) (testCnt : U32) (addrs : List U64) : List RwAct :=
  [.request ⟨0x1000, size, testCnt, 0, 1, 0x7000⟩, .kmalloc true, .getUserPages addrs.length,
    .sgAllocTable 0, .dmaMapSg addrs.length addrs, .downInterruptible true]

/-- An iteration up to the wait. -/
def startIteration : List RwAct :=
  [.forTest, .slaveConfig 0, .prepSlaveSg true, .txSubmit, .issuePending]

/-- The hardware ends a chunk and its interrupt is handled. -/
def interrupt (id : Nat) (bits : U32) : List RwAct :=
  [.hw (.hwFinish id bits), .hw .isrRead, .hw .isrDone, .hw .isrAbort]

/-- The tasklet runs one callback. -/
def tasklet : List RwAct := [.hw .taskletTake, .hw .taskletCall]

end RwSys

end MtEmu
