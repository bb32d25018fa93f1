import MtEmu.Lib.Machine
import MtEmu.Engine.Core

/-!
# MtEmu.Engine.Start

`mtdma_v0_core_start` (`mt-emu-mtdma-core.c`), register access by register
access, against a channel that may finish at any time.

The function writes the chunk's descriptors, the enable register, flow
control and the interrupt mask, puts back what it reads from the raw status,
and writes the enable register again.  The channel starts on a write that has
the enable bit set; `DMA_CH_EN_BIT_DESC_MST1`, which stands in the first of
the two writes when the channel's direction is memory to device, is the same
bit.

`StartSys` interleaves the accesses with the hardware, and `start_sound_iff`
says for which direction nothing goes wrong.
-/

namespace MtEmu

open Machine

/-! ## the accesses -/

/-- A register access of `mtdma_v0_core_start`; `putBack` writes the value
that was read last. -/
inductive StartOp where
  | set (a : Access)
  | get (reg : ChReg)
  | putBack (reg : ChReg)
  deriving DecidableEq

/-- `DMA_CH_DESC_BIT_INTR_EN`. -/
def descBitIntrEn : U32 := 0b01

/-- `DMA_CH_DESC_BIT_CHAIN_EN`. -/
def descBitChainEn : U32 := 0b10

/-- `DMA_CH_EN_BIT_ENABLE`. -/
def chEnBitEnable : U32 := 0b1

/-- `DMA_CH_EN_BIT_DESC_MST1`. -/
def chEnBitDescMst1 : U32 := 0b1

/-- `WCH_FC_THLD`. -/
def wchFcThld : U32 := 0x10

/-- Where burst `i` is stored: the registers, or the list from slot 0 on. -/
def burstLli (i : U32) : Lli := if i = 0 then .regs else .slot ((i - 1).setWidth 64)

/-- The descriptor of burst `i`. -/
def burstDesc (info : MtdmaChanInfo) (i : U32) (child : MtdmaBurst) : DmaChDesc where
  descOp := descBitChainEn
  cnt := child.sz - 1
  sar := child.sar
  dar := child.dar
  lar := info.llLaddr + i.setWidth 64 * descSize

/-- The loop of `mtdma_v0_core_write_chunk` from burst `i` on and the write
after it; `lli` is never set when there is no burst. -/
def writeBursts (info : MtdmaChanInfo) : List MtdmaBurst → U32 → Lli → List Access
  | [], _, lli => [.setLL lli .descOp descBitIntrEn]
  | child :: bursts, i, _ =>
      setDesc (burstLli i) (burstDesc info i child) ++ writeBursts info bursts (i + 1) (burstLli i)

/-- `mtdma_v0_core_write_chunk`; `lli` holds whatever it held. -/
def mtdmaV0CoreWriteChunk (info : MtdmaChanInfo) (chunk : MtdmaChunk) (lli : Lli) : List Access :=
  writeBursts info chunk.bursts 0 lli

/-- `ch_en`. -/
def chEn (dir : DmaTransferDirection) : U32 := if dir = .memToDev then chEnBitDescMst1 else 0

/-- `mtdma_v0_core_start`. -/
def mtdmaV0CoreStart (info : MtdmaChanInfo) (dir : DmaTransferDirection) (chunk : MtdmaChunk)
    (lli : Lli) : List StartOp :=
  (mtdmaV0CoreWriteChunk info chunk lli).map .set ++
    [.set (.setCh .enable (chEn dir)),
     .set (.setCh .fc ((0b1 : U32) ||| (wchFcThld <<< 1))),
     .set (.setCh .intrImsk 0x0),
     .get .intrRaw, .putBack .intrRaw,
     .get .enable,
     .set (.setCh .enable (chEn dir ||| chEnBitEnable))]

/-! ## the channel beside it -/

/-- What the hardware has done with the chunk. -/
inductive ChunkRun where
  | idle
  | running
  | done
  deriving DecidableEq

/-- The accesses still to be made, the value last read, the channel, and what
became of the chunk.  `erased` notes that the function cleared the done bit
after the chunk had raised it. -/
structure StartSys where
  rest : List StartOp
  value : U32
  mem : ChanMem
  run : ChunkRun
  erased : Bool

/-- What can happen next: the function's next access, or the end of the chunk. -/
inductive StartAct where
  | access
  | complete

namespace StartSys

/-- A write of a channel register.  Status bits are cleared by writing ones,
and an enable bit starts the channel. -/
def setCh (s : StartSys) (reg : ChReg) (v : U32) : StartSys :=
  match reg with
  | .intrRaw =>
      { s with
        mem.ch := Function.update s.mem.ch .intrRaw (s.mem.ch .intrRaw &&& ~~~v)
        erased := s.erased || (s.run = .done && v &&& intrDone ≠ 0) }
  | .enable =>
      { s with
        mem.ch := Function.update s.mem.ch .enable v
        run := if s.run = .idle ∧ v &&& chEnBitEnable ≠ 0 then .running else s.run }
  | reg => { s with mem.ch := Function.update s.mem.ch reg v }

/-- The effect of one access, for a list window at `base`. -/
def perform (base : U64) (s : StartSys) : StartOp → StartSys
  | .set (.setCh reg v) => s.setCh reg v
  | .set a => { s with mem := s.mem.write base a }
  | .get reg => { s with value := s.mem.ch reg }
  | .putBack reg => s.setCh reg s.value

/-- One step of the two. -/
def step (base : U64) (s : StartSys) : StartAct → Option StartSys
  | .access =>
      match s.rest with
      | [] => none
      | op :: rest => some ({ s with rest := rest }.perform base op)
  | .complete =>
      if s.run = .running then
        some { s with
          run := .done
          mem.ch := Function.update s.mem.ch .intrRaw (s.mem.ch .intrRaw ||| intrDone) }
      else none

/-- `mtdma_v0_core_start` is called. -/
def init (info : MtdmaChanInfo) (dir : DmaTransferDirection) (chunk : MtdmaChunk) (lli : Lli)
    (mem : ChanMem) (value : U32) : StartSys :=
  ⟨mtdmaV0CoreStart info dir chunk lli, value, mem, .idle, false⟩

/-- The done bit of the chunk has not been erased, and the channel was not
started with flow control or interrupt mask still to be written. -/
def Sound (s : StartSys) : Prop :=
  s.erased = false ∧ (s.run ≠ .idle → ∀ v, .set (.setCh .fc v) ∉ s.rest ∧
    .set (.setCh .intrImsk v) ∉ s.rest)

end StartSys

@[simp] theorem StartSys.rest_perform (base : U64) (s : StartSys) (op : StartOp) :
    (s.perform base op).rest = s.rest := by
  cases op with
  | get reg => rfl
  | putBack reg => cases reg <;> rfl
  | set a =>
      cases a with
      | setLL lli w v => rfl
      | setCh reg v => cases reg <;> rfl

/-- The chunk is written by descriptor writes only. -/
theorem writeBursts_setLL (info : MtdmaChanInfo) (bursts : List MtdmaBurst) (i : U32) (lli : Lli) :
    ∀ a ∈ writeBursts info bursts i lli, ∃ lli w v, a = .setLL lli w v := by
  induction bursts generalizing i lli with
  | nil =>
      intro a ha
      exact ⟨lli, .descOp, _, List.mem_singleton.mp ha⟩
  | cons child bursts ih =>
      intro a ha
      rcases List.mem_append.mp ha with ha | ha
      · obtain ⟨w, -, rfl⟩ := List.mem_map.mp ha
        exact ⟨_, w, _, rfl⟩
      · exact ih _ _ a ha

/-! ## device to memory -/

/-- An access that sets the enable bit. -/
def StartOp.Enables (op : StartOp) : Prop :=
  ∃ v, op = .set (.setCh .enable v) ∧ v &&& chEnBitEnable ≠ 0

/-- An access that is not an enabling one leaves an idle channel idle, and
erases nothing there. -/
theorem StartSys.perform_idle {base : U64} {s : StartSys} {op : StartOp} (hs : s.run = .idle)
    (hop : ¬ op.Enables) (hput : op ≠ .putBack .enable) :
    (s.perform base op).run = .idle ∧ (s.perform base op).erased = s.erased := by
  cases op with
  | get reg => exact ⟨hs, rfl⟩
  | putBack reg => cases reg <;> simp_all [perform, setCh]
  | set a =>
      cases a with
      | setLL lli w v => exact ⟨hs, rfl⟩
      | setCh reg v =>
          cases reg with
          | enable =>
              have hv : v &&& chEnBitEnable = 0 := by
                by_contra hne
                exact hop ⟨v, rfl, hne⟩
              simp [perform, setCh, hs, hv]
          | _ => simp [perform, setCh, hs]

/-- The function is before its last access, the only one that can start the
channel, or has returned. -/
def StartSys.Late (s : StartSys) : Prop :=
  s.erased = false ∧ (s.rest = [] ∨ s.run = .idle ∧ ∃ pre v, s.rest = pre ++ [.set (.setCh .enable v)] ∧
    ∀ op ∈ pre, ¬ op.Enables ∧ op ≠ .putBack .enable)

theorem StartSys.Late.step {base : U64} {s s' : StartSys} {a : StartAct} (h : s.Late)
    (hs : s.step base a = some s') : s'.Late := by
  obtain ⟨herased, hrest⟩ := h
  cases a with
  | complete =>
      simp only [StartSys.step] at hs
      split at hs
      · next hrun =>
          obtain rfl := Option.some.inj hs
          refine ⟨herased, hrest.imp_right ?_⟩
          intro ⟨hidle, _⟩
          rw [hidle] at hrun
          contradiction
      · contradiction
  | access =>
      simp only [StartSys.step] at hs
      rcases hrest with hnil | ⟨hidle, pre, v, hpre, hops⟩
      · rw [hnil] at hs
        contradiction
      · rw [hpre] at hs
        cases pre with
        | nil =>
            obtain rfl := Option.some.inj hs
            exact ⟨herased, .inl rfl⟩
        | cons op pre =>
            obtain rfl := Option.some.inj hs
            obtain ⟨hop, hput⟩ := hops op List.mem_cons_self
            have hperform := @perform_idle base { s with rest := pre ++ [.set (.setCh .enable v)] } op
              hidle hop hput
            exact ⟨hperform.2.trans herased, .inr ⟨hperform.1, pre, v, rest_perform _ _ op,
              fun o ho => hops o (List.mem_cons_of_mem _ ho)⟩⟩

/-- Device to memory, the first write of the enable register clears it. -/
theorem late_init (info : MtdmaChanInfo) (chunk : MtdmaChunk) (lli : Lli) (mem : ChanMem)
    (value : U32) : (StartSys.init info .devToMem chunk lli mem value).Late := by
  refine ⟨rfl, .inr ⟨rfl, (mtdmaV0CoreWriteChunk info chunk lli).map .set ++
    [.set (.setCh .enable (chEn .devToMem)), .set (.setCh .fc ((0b1 : U32) ||| (wchFcThld <<< 1))),
     .set (.setCh .intrImsk 0x0), .get .intrRaw, .putBack .intrRaw, .get .enable],
    chEn .devToMem ||| chEnBitEnable, ?_, fun op hop => ?_⟩⟩
  · simp [StartSys.init, mtdmaV0CoreStart]
  · rcases List.mem_append.mp hop with hop | hop
    · obtain ⟨a, ha, rfl⟩ := List.mem_map.mp hop
      obtain ⟨lli, w, v, rfl⟩ := writeBursts_setLL _ _ _ _ a ha
      exact ⟨fun ⟨v, hv, _⟩ => by simp at hv, by simp⟩
    · simp only [List.mem_cons, List.not_mem_nil, or_false] at hop
      rcases hop with rfl | rfl | rfl | rfl | rfl | rfl <;>
        refine ⟨fun ⟨v, hv, hne⟩ => ?_, by simp⟩ <;> simp at hv
      subst hv
      exact hne rfl

/-- A function before its last access has erased nothing and enabled nothing. -/
theorem StartSys.Late.sound {s : StartSys} (h : s.Late) : s.Sound := by
  obtain ⟨herased, hnil | ⟨hidle, _⟩⟩ := h
  · exact ⟨herased, fun _ v => by simp [hnil]⟩
  · exact ⟨herased, fun hne => absurd hidle hne⟩

/-! ## memory to device -/

/-- The chunk is written with the channel as it was. -/
theorem reaches_written {init : StartSys → Prop} (base : U64) {as : List Access}
    {more : List StartOp} (has : ∀ a ∈ as, ∃ lli w v, a = .setLL lli w v) (s : StartSys)
    (h : Reaches (StartSys.step base) anyStep init { s with rest := as.map .set ++ more }) :
    ∃ mem, Reaches (StartSys.step base) anyStep init { s with rest := more, mem := mem } := by
  induction as generalizing s with
  | nil => exact ⟨s.mem, h⟩
  | cons a as ih =>
      obtain ⟨lli, w, v, rfl⟩ := has a List.mem_cons_self
      have hstep : Reaches (StartSys.step base) anyStep init
          { s with rest := as.map .set ++ more, mem := s.mem.write base (.setLL lli w v) } :=
        h.step (a := .access) trivial rfl
      exact ih (fun b hb => has b (List.mem_cons_of_mem _ hb))
        { s with mem := s.mem.write base (.setLL lli w v) } hstep

/-- Memory to device, the channel is started before flow control is written. -/
theorem memToDev_not_sound (info : MtdmaChanInfo) (chunk : MtdmaChunk) (lli : Lli) (base : U64)
    (mem : ChanMem) (value : U32) : ∃ s, Reaches (StartSys.step base) anyStep
      (· = StartSys.init info .memToDev chunk lli mem value) s ∧ ¬ s.Sound := by
  have hinit : Reaches (StartSys.step base) anyStep
      (· = StartSys.init info .memToDev chunk lli mem value) _ := .start rfl
  obtain ⟨mem', hwritten⟩ :=
    reaches_written base (writeBursts_setLL info chunk.bursts 0 lli)
      (StartSys.init info .memToDev chunk lli mem value) hinit
  refine ⟨_, hwritten.step (a := .access) trivial rfl, fun hsound => ?_⟩
  have hfc := (hsound.2 (by simp [StartSys.perform, StartSys.setCh, StartSys.init, chEn,
    chEnBitDescMst1, chEnBitEnable]) ((0b1 : U32) ||| (wchFcThld <<< 1))).1
  exact hfc (by simp)

/-- **Exactly a channel from device to memory is started soundly**: then the
done bit of the chunk is never erased by the function, and flow control and
interrupt mask are written before the channel is enabled, whenever the chunk
ends. -/
theorem start_sound_iff (info : MtdmaChanInfo) (dir : DmaTransferDirection) (chunk : MtdmaChunk)
    (lli : Lli) (base : U64) (mem : ChanMem) (value : U32) :
    (∀ s, Reaches (StartSys.step base) anyStep
      (· = StartSys.init info dir chunk lli mem value) s → s.Sound) ↔ dir = .devToMem := by
  cases dir with
  | memToDev =>
      refine ⟨fun h => ?_, fun h => by cases h⟩
      obtain ⟨s, hs, hno⟩ := memToDev_not_sound info chunk lli base mem value
      exact absurd (h s hs) hno
  | devToMem =>
      refine ⟨fun _ => rfl, fun _ s hs => StartSys.Late.sound ?_⟩
      refine hs.invariant ?_ fun s a s' hl _ => hl.step
      rintro s rfl
      exact late_init info chunk lli mem value

/-- A chunk of one burst from memory to the device. -/
def oneBurst : MtdmaChunk := ⟨[⟨0x1000, 0x2000, 64⟩], 64⟩

/-- The chunk ends right after the first write of the enable register: the
function reads its done bit and puts it back. -/
theorem oneBurst_erased : ∃ s, Reaches (StartSys.step 0) anyStep
    (· = StartSys.init default .memToDev oneBurst (.other 0) ⟨fun _ => 0, fun _ => 0, fun _ _ => 0⟩ 0)
      s ∧
    s.run = .done ∧ s.erased = true ∧ s.mem.ch .intrRaw &&& intrDone = 0 ∧ s.rest ≠ [] :=
  exists_reaches (List.replicate 10 .access ++ .complete :: List.replicate 4 .access) rfl
    (by decide)

end MtEmu
