import MtEmu.Bare.Block
import MtEmu.Bare.Chain
import MtEmu.Engine.Start

/-!
# MtEmu.Engine.History

What a transfer inherits from the transfers before it on the same channel.

Both DMA stacks program the same registers, and each mode writes its own
subset of them.  `ChanMem.consulted` is what the hardware looks at when the
channel is enabled; `historyFree_iff` says, for the next `dma_bare_xfer` or
`mtdma_v0_core_start`, what two histories must have left alike for it to be
programmed alike.

* single mode does not write `desc_op`, and writes `LBAR_BASIC` and the rest
  of the register descriptor only if its uninitialised `i` is zero;
* chain mode writes everything;
* block mode does not write `MMU_ADDR_TYPE`;
* `mtdma_v0_core_start` writes neither `LBAR_BASIC` nor `DIRECTION` nor
  `MMU_ADDR_TYPE`.
-/

namespace MtEmu

open Loop

/-! ## what the hardware consults -/

/-- The registers the hardware reads when the channel is enabled. -/
structure Consulted where
  descOp : U32
  cnt : U32
  sar : U64
  dar : U64
  lar : Option U64
  lbarBasic : U32
  direction : U32
  mmuAddrType : Option U32
  deriving DecidableEq

/-- The link is followed: the chain bit of `LBAR_BASIC`, or that of the
descriptor, is set. -/
def ChanMem.chaining (m : ChanMem) : Bool :=
  m.ch .lbarBasic &&& 1 ≠ 0 || m.regDesc.descOp &&& descBitChainEn ≠ 0

/-- What the hardware finds in a channel. -/
def ChanMem.consulted (mmu : Bool) (m : ChanMem) : Consulted where
  descOp := m.regDesc.descOp
  cnt := m.regDesc.cnt
  sar := m.regDesc.sar
  dar := m.regDesc.dar
  lar := if m.chaining then some m.regDesc.lar else none
  lbarBasic := m.ch .lbarBasic
  direction := m.ch .direction
  mmuAddrType := if mmu then some (m.ch .mmuAddrType) else none

/-! ## histories -/

/-- The channel after `mtdma_v0_core_start`. -/
def engineStarted (info : MtdmaChanInfo) (dir : DmaTransferDirection) (chunk : MtdmaChunk)
    (lli : Lli) (m : ChanMem) : ChanMem :=
  ((mtdmaV0CoreStart info dir chunk lli).foldl (StartSys.perform info.llLaddr)
    ⟨[], 0, m, .idle, false⟩).mem

/-- A transfer on a channel: a `dma_bare_xfer` call that gets to the enable
write, or a chunk that `mtdma_v0_core_start` starts. -/
inductive Transfer (mmu : Bool) (info : MtdmaChanInfo) where
  | bare (x : BareXfer) (junk : Junk) (draws : Draws) (as : List Access)
      (runs : dmaBareXfer mmu info x junk draws = .run as)
  | engine (dir : DmaTransferDirection) (chunk : MtdmaChunk) (lli : Lli)

/-- The channel after a transfer has been programmed. -/
def Transfer.apply {mmu : Bool} {info : MtdmaChanInfo} (m : ChanMem) : Transfer mmu info → ChanMem
  | .bare x _ _ as _ => m.writes (x.listBase info) as
  | .engine dir chunk lli => engineStarted info dir chunk lli m

/-- The channel after a history of transfers. -/
def afterHistory {mmu : Bool} {info : MtdmaChanInfo} (m : ChanMem)
    (h : List (Transfer mmu info)) : ChanMem :=
  h.foldl Transfer.apply m

/-- The call that follows: its arguments, and for `dma_bare_xfer` the numbers
it draws. -/
inductive NextStart where
  | bare (x : BareXfer) (draws : Draws)
  | engine (dir : DmaTransferDirection) (chunk : MtdmaChunk)

/-- What the call can make of a channel; its uninitialised locals hold
anything. -/
def NextStart.Leaves (mmu : Bool) (info : MtdmaChanInfo) (m r : ChanMem) : NextStart → Prop
  | .bare x draws => ∃ junk as, dmaBareXfer mmu info x junk draws = .run as ∧
      r = m.writes (x.listBase info) as
  | .engine dir chunk => ∃ lli, r = engineStarted info dir chunk lli m

/-- From either channel the call leaves the same for the hardware to consult. -/
def HistoryFree (mmu : Bool) (info : MtdmaChanInfo) (next : NextStart) (m₁ m₂ : ChanMem) : Prop :=
  ∀ r₁ r₂, next.Leaves mmu info m₁ r₁ → next.Leaves mmu info m₂ r₂ →
    r₁.consulted mmu = r₂.consulted mmu

/-! ## what has to be alike -/

/-- A channel holds what a single transfer would have put there. -/
structure HoldsSingle (x : BareXfer) (m : ChanMem) : Prop where
  lbarBasic : m.ch .lbarBasic = 0
  cnt : m.regDesc.cnt = x.size - 1
  sar : m.regDesc.sar = x.sar
  dar : m.regDesc.dar = x.dar

/-- Before a single transfer. -/
structure SingleAlike (x : BareXfer) (m₁ m₂ : ChanMem) : Prop where
  descOp : m₁.regDesc.descOp = m₂.regDesc.descOp
  lar : m₁.regDesc.descOp &&& descBitChainEn ≠ 0 → m₁.regDesc.lar = m₂.regDesc.lar
  left : HoldsSingle x m₁
  right : HoldsSingle x m₂

/-- Before a chain or block transfer. -/
structure DescsAlike (mmu : Bool) (x : BareXfer) (m₁ m₂ : ChanMem) : Prop where
  sized : x.randFlag = true → x.size ≠ 0
  mmuAddrType : mmu = true → x.blockCnt ≠ 0 → m₁.ch .mmuAddrType = m₂.ch .mmuAddrType

/-- Before a chunk of the engine. -/
structure EngineAlike (mmu : Bool) (chunk : MtdmaChunk) (m₁ m₂ : ChanMem) : Prop where
  lbarBasic : m₁.ch .lbarBasic = m₂.ch .lbarBasic
  direction : m₁.ch .direction = m₂.ch .direction
  mmuAddrType : mmu = true → m₁.ch .mmuAddrType = m₂.ch .mmuAddrType
  noBurst : chunk.bursts = [] → m₁.regDesc.descOp = descBitIntrEn ∧
    m₂.regDesc.descOp = descBitIntrEn ∧ m₁.consulted mmu = m₂.consulted mmu

/-- What two histories must have left alike before the call, when it gets to
the enable write at all. -/
def Alike (mmu : Bool) (info : MtdmaChanInfo) (m₁ m₂ : ChanMem) : NextStart → Prop
  | .bare x draws => (∃ junk as, dmaBareXfer mmu info x junk draws = .run as) →
      if x.descCnt = 0 then SingleAlike x m₁ m₂ else DescsAlike mmu x m₁ m₂
  | .engine _ chunk => EngineAlike mmu chunk m₁ m₂

/-! ## writes by register -/

section Writes

variable (base : U64) {m : ChanMem} {as : List Access}

/-- Writes of descriptors leave the channel registers alone. -/
theorem ch_writes_setLL (h : ∀ a ∈ as, ∃ lli w v, a = .setLL lli w v) :
    (m.writes base as).ch = m.ch := by
  induction as generalizing m with
  | nil => rfl
  | cons a as ih =>
      obtain ⟨lli, w, v, rfl⟩ := h a List.mem_cons_self
      rw [ChanMem.writes_cons, ih fun b hb => h b (List.mem_cons_of_mem _ hb)]
      cases lli <;> rfl

/-- The register descriptor after some writes depends on no other register
before them. -/
theorem desc_writes_congr (base' : U64) {m' : ChanMem} (h : m.desc = m'.desc) :
    (m.writes base as).desc = (m'.writes base' as).desc := by
  induction as generalizing m m' with
  | nil => exact h
  | cons a as ih =>
      rw [ChanMem.writes_cons, ChanMem.writes_cons]
      apply ih
      cases a with
      | setCh r v => exact h
      | setLL lli w v => cases lli <;> simp [ChanMem.write, h]

/-- Entries in list slots leave the register descriptor alone. -/
theorem desc_storeAll_slots {es : List Entry} (h : ∀ e ∈ es, ∃ i, e.1 = .slot i) :
    (m.writes base (storeAll es)).desc = m.desc := by
  induction es generalizing m with
  | nil => rfl
  | cons e es ih =>
      obtain ⟨i, hi⟩ := h e List.mem_cons_self
      simp only [storeAll, List.flatMap_cons, ChanMem.writes_append] at ih ⊢
      rw [ih fun e' he' => h e' (List.mem_cons_of_mem _ he'), hi, writes_setDesc_slot]

end Writes

/-- What is consulted follows from the register descriptor and three
registers. -/
theorem consulted_congr {mmu : Bool} {m₁ m₂ : ChanMem} (hreg : m₁.regDesc = m₂.regDesc)
    (hlbar : m₁.ch .lbarBasic = m₂.ch .lbarBasic) (hdir : m₁.ch .direction = m₂.ch .direction)
    (hmmu : mmu = true → m₁.ch .mmuAddrType = m₂.ch .mmuAddrType) :
    m₁.consulted mmu = m₂.consulted mmu := by
  unfold ChanMem.consulted ChanMem.chaining
  rw [hreg, hlbar, hdir]
  cases mmu with
  | false => rfl
  | true => rw [hmmu rfl]

/-! ## the engine -/

section Engine

variable {info : MtdmaChanInfo} {dir : DmaTransferDirection} {chunk : MtdmaChunk} {lli : Lli}
  {m : ChanMem}

/-- Descriptor writes, made one after the other by the function. -/
theorem foldl_perform_setLL {base : U64} {as : List Access} (s : StartSys)
    (h : ∀ a ∈ as, ∃ lli w v, a = .setLL lli w v) :
    (as.map .set).foldl (StartSys.perform base) s = { s with mem := s.mem.writes base as } := by
  induction as generalizing s with
  | nil => rfl
  | cons a as ih =>
      obtain ⟨lli, w, v, rfl⟩ := h a List.mem_cons_self
      rw [List.map_cons, List.foldl_cons, ih _ fun b hb => h b (List.mem_cons_of_mem _ hb)]
      rfl

/-- What a started chunk leaves in the registers the hardware consults. -/
theorem engineStarted_regs (info : MtdmaChanInfo) (dir : DmaTransferDirection) (chunk : MtdmaChunk)
    (lli : Lli) (m : ChanMem) :
    (engineStarted info dir chunk lli m).regDesc =
        (m.writes info.llLaddr (mtdmaV0CoreWriteChunk info chunk lli)).regDesc ∧
      (engineStarted info dir chunk lli m).ch .lbarBasic = m.ch .lbarBasic ∧
      (engineStarted info dir chunk lli m).ch .direction = m.ch .direction ∧
      (engineStarted info dir chunk lli m).ch .mmuAddrType = m.ch .mmuAddrType := by
  have hset : ∀ a ∈ mtdmaV0CoreWriteChunk info chunk lli, ∃ lli w v, a = .setLL lli w v :=
    writeBursts_setLL _ _ _ _
  have hch := ch_writes_setLL info.llLaddr (m := m) hset
  rw [engineStarted, mtdmaV0CoreStart, List.foldl_append, foldl_perform_setLL _ hset, ← hch]
  exact ⟨rfl, rfl, rfl, rfl⟩

/-- A chunk with a burst writes the register descriptor whole. -/
theorem regDesc_writeChunk (h : chunk.bursts ≠ []) {base base' : U64} {m' : ChanMem} {lli' : Lli} :
    (m.writes base (mtdmaV0CoreWriteChunk info chunk lli)).regDesc =
      (m'.writes base' (mtdmaV0CoreWriteChunk info chunk lli')).regDesc := by
  unfold mtdmaV0CoreWriteChunk
  cases hb : chunk.bursts with
  | nil => exact absurd hb h
  | cons child bursts =>
      have hlli : burstLli 0 = .regs := rfl
      simp only [writeBursts, ChanMem.writes_append, hlli, writes_setDesc_regs]
      exact congrArg DmaChDesc.ofWords (desc_writes_congr base base' rfl)

/-- A chunk without a burst writes `desc_op` at most, wherever `lli` points. -/
theorem regDesc_noBurst (h : chunk.bursts = []) {base : U64} :
    (m.writes base (mtdmaV0CoreWriteChunk info chunk lli)).regDesc =
      if lli = .regs then { m.regDesc with descOp := descBitIntrEn } else m.regDesc := by
  rw [mtdmaV0CoreWriteChunk, h, writeBursts]
  cases lli <;> rfl

/-- A chunk without a burst leaves what is consulted, when `desc_op` already
is what it writes or `lli` points elsewhere. -/
theorem consulted_noBurst (h : chunk.bursts = []) (mmu : Bool)
    (hop : lli = .regs → m.regDesc.descOp = descBitIntrEn) :
    (engineStarted info dir chunk lli m).consulted mmu = m.consulted mmu := by
  obtain ⟨hreg, hlbar, hdir, hmmu⟩ := engineStarted_regs info dir chunk lli m
  refine consulted_congr (hreg.trans ?_) hlbar hdir fun _ => hmmu
  rw [regDesc_noBurst h]
  split
  · next hl => rw [← hop hl]
  · rfl

/-- **The next chunk of the engine.** -/
theorem engine_historyFree_iff (mmu : Bool) (m₁ m₂ : ChanMem) :
    HistoryFree mmu info (.engine dir chunk) m₁ m₂ ↔ EngineAlike mmu chunk m₁ m₂ := by
  constructor
  · intro h
    obtain ⟨_, hlbar₁, hdir₁, hmmu₁⟩ := engineStarted_regs info dir chunk (.other 0) m₁
    obtain ⟨_, hlbar₂, hdir₂, hmmu₂⟩ := engineStarted_regs info dir chunk (.other 0) m₂
    have hsame := h _ _ ⟨.other 0, rfl⟩ ⟨.other 0, rfl⟩
    refine ⟨?_, ?_, fun hm => ?_, fun hno => ⟨?_, ?_, ?_⟩⟩
    · rw [← hlbar₁, ← hlbar₂]
      exact congrArg Consulted.lbarBasic hsame
    · rw [← hdir₁, ← hdir₂]
      exact congrArg Consulted.direction hsame
    · have hmm := congrArg Consulted.mmuAddrType hsame
      simpa only [ChanMem.consulted, hm, if_true, Option.some.injEq, hmmu₁, hmmu₂] using hmm
    · -- one run has `lli` at the registers, the other elsewhere
      have hop := congrArg Consulted.descOp (h _ _ ⟨.other 0, rfl⟩ ⟨.regs, rfl⟩)
      simpa [ChanMem.consulted, (engineStarted_regs info dir chunk _ _).1, regDesc_noBurst hno]
        using hop
    · have hop := congrArg Consulted.descOp (h _ _ ⟨.regs, rfl⟩ ⟨.other 0, rfl⟩)
      simpa [ChanMem.consulted, (engineStarted_regs info dir chunk _ _).1, regDesc_noBurst hno]
        using hop.symm
    · rwa [consulted_noBurst hno mmu (by simp), consulted_noBurst hno mmu (by simp)] at hsame
  · rintro ⟨hlbar, hdir, hmmu, hno⟩ _ _ ⟨lli₁, rfl⟩ ⟨lli₂, rfl⟩
    by_cases hb : chunk.bursts = []
    · obtain ⟨hop₁, hop₂, hsame⟩ := hno hb
      rw [consulted_noBurst hb mmu fun _ => hop₁, consulted_noBurst hb mmu fun _ => hop₂, hsame]
    · obtain ⟨hreg₁, hlbar₁, hdir₁, hmmu₁⟩ := engineStarted_regs info dir chunk lli₁ m₁
      obtain ⟨hreg₂, hlbar₂, hdir₂, hmmu₂⟩ := engineStarted_regs info dir chunk lli₂ m₂
      refine consulted_congr ?_ ?_ ?_ fun hm => ?_
      · rw [hreg₁, hreg₂, regDesc_writeChunk hb]
      · rw [hlbar₁, hlbar₂, hlbar]
      · rw [hdir₁, hdir₂, hdir]
      · rw [hmmu₁, hmmu₂, hmmu hm]

end Engine

/-! ## single mode -/

section Single

variable {mmu : Bool} {info : MtdmaChanInfo} {x : BareXfer} {draws : Draws} {m m₁ m₂ : ChanMem}

/-- The channel after a single transfer has been programmed. -/
def singleLeft (mmu : Bool) (info : MtdmaChanInfo) (x : BareXfer) (bits addrType : U32) (junk : Junk)
    (m : ChanMem) : ChanMem :=
  m.writes (x.listBase info) (xferSingle mmu addrType x junk ++
    [.setCh .intrImsk 0, .setCh .direction (bits ||| x.descMst1), .setCh .enable 1])

/-- What single mode leaves in the registers the hardware consults. -/
theorem singleLeft_regs (mmu : Bool) (info : MtdmaChanInfo) (h0 : x.descCnt = 0)
    (bits addrType : U32) (junk : Junk) (m : ChanMem) :
    (singleLeft mmu info x bits addrType junk m).regDesc =
        (if junk.i = 0 ∨ junk.lli = .regs then
          { m.regDesc with cnt := x.size - 1, sar := x.sar, dar := x.dar } else m.regDesc) ∧
      (singleLeft mmu info x bits addrType junk m).ch .lbarBasic =
        (if junk.i = 0 then 0 else m.ch .lbarBasic) ∧
      (singleLeft mmu info x bits addrType junk m).ch .direction = bits ||| x.descMst1 ∧
      (mmu = true → (singleLeft mmu info x bits addrType junk m).ch .mmuAddrType = addrType) := by
  have hlbar : (x.descCnt <<< 16) ||| x.chainEn = 0 := by simp [BareXfer.chainEn, h0]
  obtain ⟨ji, lli, _, _⟩ := junk
  by_cases hi : ji = 0
  · cases mmu <;>
      simp [singleLeft, xferSingle, hi, hlbar, ChanMem.write, ChanMem.regDesc, DmaChDesc.ofWords]
  · simp only [singleLeft, xferSingle, hi, if_false, false_or]
    cases mmu <;> cases lli <;> simp [ChanMem.write, ChanMem.regDesc, DmaChDesc.ofWords]

/-- A call whose `i` starts at zero. -/
def zeroJunk : Junk := ⟨0, .regs, fun _ => 0, fun _ _ => 0⟩

/-- A call whose `i` does not, and whose `lli` points elsewhere. -/
def oneJunk : Junk := ⟨1, .other 0, fun _ => 0, fun _ _ => 0⟩

/-- A channel that holds what the transfer would have put there has the same
consulted registers after it, whatever the locals held. -/
theorem HoldsSingle.consulted (h : HoldsSingle x m) (h0 : x.descCnt = 0) (bits addrType : U32)
    (junk : Junk) :
    (singleLeft mmu info x bits addrType junk m).consulted mmu =
      { descOp := m.regDesc.descOp, cnt := x.size - 1, sar := x.sar, dar := x.dar
        lar := if m.regDesc.descOp &&& descBitChainEn ≠ 0 then some m.regDesc.lar else none
        lbarBasic := 0, direction := bits ||| x.descMst1
        mmuAddrType := if mmu then some addrType else none } := by
  obtain ⟨hreg, hlbar, hdir, hmmu⟩ := singleLeft_regs mmu info h0 bits addrType junk m
  have hreg' : (singleLeft mmu info x bits addrType junk m).regDesc =
      ⟨m.regDesc.descOp, x.size - 1, x.sar, x.dar, m.regDesc.lar⟩ := by
    rw [hreg]
    split
    · rfl
    · rw [← h.cnt, ← h.sar, ← h.dar]
  have hlbar' : (singleLeft mmu info x bits addrType junk m).ch .lbarBasic = 0 := by
    rw [hlbar, h.lbarBasic, ite_self]
  unfold ChanMem.consulted ChanMem.chaining
  rw [hreg', hlbar', hdir]
  cases mmu with
  | false => simp
  | true => simp [hmmu rfl]

/-- A call whose `i` is zero on one channel, and one that leaves the other
channel's descriptor as it was: what the other channel must have held. -/
theorem holdsSingle_of_consulted (h0 : x.descCnt = 0) (bits addrType : U32)
    (h : (singleLeft mmu info x bits addrType zeroJunk m₁).consulted mmu =
      (singleLeft mmu info x bits addrType oneJunk m₂).consulted mmu) :
    m₁.regDesc.descOp = m₂.regDesc.descOp ∧ HoldsSingle x m₂ := by
  obtain ⟨hreg₁, hlbar₁, _⟩ := singleLeft_regs mmu info h0 bits addrType zeroJunk m₁
  obtain ⟨hreg₂, hlbar₂, _⟩ := singleLeft_regs mmu info h0 bits addrType oneJunk m₂
  rw [if_pos (.inl rfl)] at hreg₁
  rw [if_neg (by simp [oneJunk])] at hreg₂
  have hzero : zeroJunk.i = 0 := rfl
  rw [if_pos hzero] at hlbar₁
  rw [if_neg (by simp [oneJunk])] at hlbar₂
  simp only [ChanMem.consulted, hreg₁, hreg₂, hlbar₁, hlbar₂, Consulted.mk.injEq] at h
  obtain ⟨hop, hcnt, hsar, hdar, _, hlbar, _⟩ := h
  exact ⟨hop, hlbar.symm, hcnt.symm, hsar.symm, hdar.symm⟩

/-- **The next single transfer.** -/
theorem single_historyFree_iff (h0 : x.descCnt = 0) {bits addrType : U32}
    (hdir : x.dirBits = some (bits, addrType)) :
    HistoryFree mmu info (.bare x draws) m₁ m₂ ↔ SingleAlike x m₁ m₂ := by
  have hleaves : ∀ m r, (NextStart.bare x draws).Leaves mmu info m r ↔
      ∃ junk, r = singleLeft mmu info x bits addrType junk m := by
    intro m r
    simp only [NextStart.Leaves, dmaBareXfer_single h0 hdir, XferProg.run.injEq]
    constructor
    · rintro ⟨junk, as, rfl, hr⟩
      exact ⟨junk, hr⟩
    · rintro ⟨junk, hr⟩
      exact ⟨junk, _, rfl, hr⟩
  simp only [HistoryFree, hleaves]
  constructor
  · intro h
    obtain ⟨hop, hright⟩ :=
      holdsSingle_of_consulted h0 bits addrType (h _ _ ⟨zeroJunk, rfl⟩ ⟨oneJunk, rfl⟩)
    obtain ⟨_, hleft⟩ :=
      holdsSingle_of_consulted h0 bits addrType (h _ _ ⟨oneJunk, rfl⟩ ⟨zeroJunk, rfl⟩).symm
    refine ⟨hop, fun hchain => ?_, hleft, hright⟩
    have hlar := congrArg Consulted.lar (h _ _ ⟨zeroJunk, rfl⟩ ⟨zeroJunk, rfl⟩)
    rw [hleft.consulted h0, hright.consulted h0] at hlar
    simpa only [← hop, if_pos hchain, Option.some.injEq] using hlar
  · rintro ⟨hop, hlar, hleft, hright⟩ _ _ ⟨junk₁, rfl⟩ ⟨junk₂, rfl⟩
    rw [hleft.consulted h0, hright.consulted h0, ← hop]
    split
    · next hchain => rw [hlar hchain]
    · rfl

end Single

/-! ## chain and block mode -/

/-- The first entry goes to the registers, the others to list slots. -/
def StartsWith (d : DmaChDesc) (es : List Entry) : Prop :=
  ∃ rest, es = (.regs, d) :: rest ∧ ∀ e ∈ rest, ∃ i, e.1 = .slot i

section Descs

variable {mmu : Bool} {info : MtdmaChanInfo} {x : BareXfer} {draws : Draws} {m m₁ m₂ : ChanMem}

theorem writes_descsAccesses (bits addrType : U32) (l : DescList) (base : U64) (m : ChanMem) :
    m.writes base (descsAccesses mmu x bits addrType l) =
      (((m.writes base (if mmu ∧ x.blockCnt = 0 then [.setCh .mmuAddrType addrType] else [])).write
        base (.setCh .lbarBasic l.lbarBasic)).writes base (storeAll l.entries)).writes base
        [.setCh .intrImsk 0, .setCh .direction (bits ||| x.descMst1), .setCh .enable 1] := by
  rw [descsAccesses, ChanMem.writes_append, ChanMem.writes_append]
  rfl

/-- What a stored list leaves in the channel registers. -/
theorem ch_descsAccesses (mmu : Bool) (x : BareXfer) (bits addrType : U32) (l : DescList)
    (base : U64) (m : ChanMem) :
    (m.writes base (descsAccesses mmu x bits addrType l)).ch .lbarBasic = l.lbarBasic ∧
      (m.writes base (descsAccesses mmu x bits addrType l)).ch .direction = bits ||| x.descMst1 ∧
      (m.writes base (descsAccesses mmu x bits addrType l)).ch .mmuAddrType =
        if mmu ∧ x.blockCnt = 0 then addrType else m.ch .mmuAddrType := by
  rw [writes_descsAccesses]
  refine ⟨by simp [ChanMem.write], by simp [ChanMem.write], ?_⟩
  split <;> simp [ChanMem.write]

/-- The first entry is what a stored list leaves in the register descriptor. -/
theorem regDesc_descsAccesses (bits addrType : U32) {l : DescList} {d : DmaChDesc}
    (h : StartsWith d l.entries) (base : U64) (m : ChanMem) :
    (m.writes base (descsAccesses mmu x bits addrType l)).regDesc = d := by
  obtain ⟨rest, hes, hslots⟩ := h
  have hdesc : ∀ m' : ChanMem, (m'.writes base (storeAll l.entries)).regDesc = d := by
    intro m'
    rw [hes, storeAll, List.flatMap_cons, ChanMem.writes_append, writes_setDesc_regs]
    exact (congrArg DmaChDesc.ofWords (desc_storeAll_slots base hslots)).trans d.ofWords_word
  rw [writes_descsAccesses]
  exact hdesc _

/-- The count and the size of the first piece that a random split of `size`
bytes leaves do not depend on what the locals held. -/
theorem splitBlock_first (cap : Nat) (draws : Draws) (hsize : x.size ≠ 0) : ∃ n s₀, ∀ junk r,
    splitBlock cap x junk draws 0 = some r → r.1 = n ∧ r.2 0 = s₀ := by
  obtain ⟨ps, hps⟩ := exists_randSplit x.size (draws 0)
  have hne : ps ≠ [] := List.ne_nil_of_length_pos
    ((pieces_of_randSplit hps).length ▸ pieceCount_pos (draws 0) hsize)
  obtain ⟨p, rest, rfl⟩ := List.exists_cons_of_ne_nil hne
  refine ⟨BitVec.ofNat 32 rest.length, p, fun junk r hr => ?_⟩
  rw [splitBlock, hps, Option.bind_some] at hr
  split at hr
  · contradiction
  · obtain rfl := Option.some.inj hr
    exact ⟨rfl, rfl⟩

/-- A loop over descriptors whose round 0 stores in the registers and whose
other rounds store in list slots. -/
theorem rounds_startsWith {body : U32 → Cursor → Entry × Cursor} {n : U32} (hn : n + 1 ≠ 0)
    {c : Cursor} {d : DmaChDesc} (h0 : (body 0 c).1 = (.regs, d))
    (hslot : ∀ i c, i ≠ 0 → ∃ k, (body i c).1.1 = .slot k) :
    StartsWith d (rounds body (n.toNat + 1) 0 c).1 := by
  have hmax : n.toNat + 1 < 2 ^ 32 := by
    by_contra hge
    have hlt := n.isLt
    exact hn (BitVec.eq_of_toNat_eq (by rw [BitVec.toNat_add]; simp; omega))
  refine ⟨(rounds body n.toNat 1 (body 0 c).2).1, by rw [rounds_succ, h0]; rfl, fun e he => ?_⟩
  obtain ⟨k, hk⟩ := List.mem_iff_getElem?.mp he
  have hitems := (@rounds_spec _ _ _ _ _ body n.toNat (body 0 c).2
    (fun k => BitVec.ofNat 32 (k + 1)) (fun _ _ => True)
    (fun _ (e : Entry) => ∃ i, e.1 = .slot i) (fun k => ofNat_succ (k + 1))
    (fun k s hk _ => ⟨hslot _ s (ofNat_ne_zero (Nat.succ_pos k) (by omega)), trivial⟩) trivial).1
  exact hitems k e hk

/-- Chain mode's loop, from the count and, for random sizing, the size of the
first piece. -/
theorem chainRounds_startsWith (e : ListEnv) (s₀ : U32) (c : Cursor)
    (h0 : e.x.randFlag = true → e.sizes 0 = s₀) (hn : e.descCntTmp + 1 ≠ 0) :
    StartsWith ({ e with sizes := fun _ => s₀ }.chainBody 0 c).1.2
      (rounds e.chainBody (e.descCntTmp.toNat + 1) 0 c).1 := by
  refine rounds_startsWith hn ?_ fun i c hi => ⟨_, if_neg hi⟩
  cases hr : e.x.randFlag with
  | true => simp [ListEnv.chainBody, ListEnv.cnt, ListEnv.elmCnt, hr, h0 hr]
  | false => simp [ListEnv.chainBody, ListEnv.cnt, ListEnv.elmCnt, hr]

/-- The loop over the first block. -/
theorem firstBlock_startsWith (e : ListEnv) (s₀ : U32) (c : Cursor)
    (h0 : e.x.randFlag = true → e.sizes 0 = s₀) (hn : e.descCntTmp + 1 ≠ 0) :
    StartsWith ({ e with sizes := fun _ => s₀ }.firstBlockBody 0 c).1.2
      (rounds e.firstBlockBody (e.descCntTmp.toNat + 1) 0 c).1 := by
  refine rounds_startsWith hn ?_ fun i c hi => ⟨_, if_neg hi⟩
  cases hr : e.x.randFlag with
  | true => simp [ListEnv.firstBlockBody, ListEnv.cnt, ListEnv.elmCnt, ListEnv.lastDescOp, hr, h0 hr]
  | false => simp [ListEnv.firstBlockBody, ListEnv.cnt, ListEnv.elmCnt, ListEnv.lastDescOp, hr]

/-- The counts that chain mode starts from. -/
theorem chainCounts_first (draws : Draws) (hsize : x.randFlag = true → x.size ≠ 0) : ∃ n s₀, ∀ junk r,
    (if x.randFlag then splitBlock chainCap x junk draws 0 else some (x.descCnt, junk.descSize 0)) =
      some r → r.1 = n ∧ (x.randFlag = true → r.2 0 = s₀) := by
  cases hr : x.randFlag with
  | false =>
      refine ⟨x.descCnt, 0, fun junk r h => ?_⟩
      rw [if_neg (by simp), Option.some.injEq] at h
      exact ⟨h ▸ rfl, fun hf => absurd hf (by simp)⟩
  | true =>
      obtain ⟨n, s₀, hsplit⟩ := splitBlock_first chainCap draws (hsize hr)
      refine ⟨n, s₀, fun junk r h => ?_⟩
      rw [if_pos rfl] at h
      exact ⟨(hsplit junk r h).1, fun _ => (hsplit junk r h).2⟩

/-- The counts that block mode starts from. -/
theorem blockCounts_first (draws : Draws) (hsize : x.randFlag = true → x.size ≠ 0) : ∃ n s₀, ∀ junk r,
    blockCounts x junk draws 0 = some r → r.1 = n ∧ (x.randFlag = true → r.2 0 = s₀) := by
  unfold blockCounts
  cases hr : x.randFlag with
  | false =>
      refine ⟨x.descCnt, 0, fun junk r h => ?_⟩
      rw [if_neg (by simp), Option.some.injEq] at h
      exact ⟨h ▸ rfl, fun hf => absurd hf (by simp)⟩
  | true =>
      obtain ⟨n, s₀, hsplit⟩ := splitBlock_first blockCap draws (hsize hr)
      refine ⟨n, s₀, fun junk r h => ?_⟩
      rw [if_pos rfl] at h
      obtain ⟨r', hr', rfl⟩ := Option.map_eq_some_iff.mp h
      exact ⟨(hsplit junk r' hr').1, fun _ => (hsplit junk r' hr').2⟩

/-- The entries of a block transfer: the first block's, and then slots only. -/
theorem xferBlock_startsWith {junk : Junk} {l : DescList} {d : DmaChDesc} (hb : x.blockCnt ≠ 0)
    (h : xferBlock x info junk draws = some l)
    (hfirst : ∀ n sizes, blockCounts x junk draws 0 = some (n, sizes) → n + 1 ≠ 0 →
      StartsWith d (firstRounds x info ⟨0, 0⟩ n sizes).1) : StartsWith d l.entries := by
  obtain ⟨hlen, sts, h0, hround⟩ := xferBlock_eq_some h
  cases hbs : l.blocks with
  | nil =>
      rw [hbs] at hlen
      exact absurd (BitVec.eq_of_toNat_eq (by simpa using hlen.symm)) hb
  | cons b bs =>
      obtain ⟨n, sizes, hc, hn, rfl, -⟩ := blockRound_zero.mp (hround 0 b (by rw [hbs]; rfl))
      obtain ⟨rest, hrest, hslots⟩ := hfirst n sizes hc hn
      rw [h0] at hbs
      refine ⟨rest ++ bs.flatten, by rw [DescList.entries, hbs, List.flatten_cons, hrest]; rfl, ?_⟩
      intro e he
      rcases List.mem_append.mp he with he | he
      · exact hslots e he
      · -- a later block
        obtain ⟨b', hb', he⟩ := List.mem_flatten.mp he
        obtain ⟨k, hk⟩ := List.mem_iff_getElem?.mp hb'
        have hkb : l.blocks[k + 1]? = some b' := by rw [hbs]; exact hk
        have hlt : k + 1 < 2 ^ 32 := by
          have := (List.getElem?_eq_some_iff.mp hkb).1
          have := x.blockCnt.isLt
          omega
        obtain ⟨n', sizes', -, -, rfl, -⟩ :=
          (blockRound_later (ofNat_ne_zero (Nat.succ_pos k) hlt)).mp (hround (k + 1) b' hkb)
        obtain ⟨i, hi⟩ := List.mem_iff_getElem?.mp he
        exact (rounds_spec (BitVec.ofNat 32) (fun _ _ => True) (fun _ (e : Entry) => ∃ i, e.1 = .slot i)
          ofNat_succ (fun _ _ _ _ => ⟨⟨_, rfl⟩, trivial⟩) trivial).1 i e hi

/-- **What chain and block mode put first**, the descriptor in the registers
and `LBAR_BASIC`, follows from the arguments and the draws. -/
theorem xferDescs_first (info : MtdmaChanInfo) (draws : Draws)
    (hsize : x.randFlag = true → x.size ≠ 0) : ∃ d lbar, ∀ junk l,
    xferDescs x info junk draws = some l → StartsWith d l.entries ∧ l.lbarBasic = lbar := by
  unfold xferDescs
  split
  · obtain ⟨n, s₀, hcounts⟩ := chainCounts_first draws hsize
    let e : ListEnv := ⟨x, x.listBase info, 0, n, 0, fun _ => s₀⟩
    refine ⟨(e.chainBody 0 (chainCursor x n)).1.2, lbarBasic x n, fun junk l hl => ?_⟩
    rw [xferChain_eq] at hl
    obtain ⟨⟨n', sizes⟩, hc, hl⟩ := Option.bind_eq_some_iff.mp hl
    obtain ⟨rfl, hs⟩ := hcounts junk _ hc
    split at hl
    · contradiction
    · next hn =>
        obtain rfl := Option.some.inj hl
        refine ⟨?_, rfl⟩
        simp only [DescList.entries, List.flatten_cons, List.flatten_nil, List.append_nil]
        exact chainRounds_startsWith ⟨x, x.listBase info, 0, n', 0, sizes⟩ s₀ _ hs hn
  · next hb =>
      obtain ⟨n, s₀, hcounts⟩ := blockCounts_first draws hsize
      let e : ListEnv := ⟨x, x.listBase info, 0, n, 0, fun _ => s₀⟩
      refine ⟨(e.firstBlockBody 0 (firstCursor x ⟨0, 0⟩ n)).1.2, lbarBasic x n, fun junk l hl => ?_⟩
      refine ⟨xferBlock_startsWith hb hl fun n' sizes hc hn => ?_, ?_⟩
      · obtain ⟨rfl, hs⟩ := hcounts junk _ hc
        exact firstBlock_startsWith ⟨x, x.listBase info, 0, n', 0, sizes⟩ s₀ _ hs hn
      · simp only [xferBlock, Option.bind_eq_bind, Option.bind_eq_some_iff] at hl
        obtain ⟨⟨n', sizes⟩, hc, bs, -, hl⟩ := hl
        obtain rfl := Option.some.inj hl
        exact congrArg (lbarBasic x) (hcounts junk _ hc).1

/-- A call of random sizing without a size: its count is what `desc_cnt_tmp`
held. -/
def countJunk (n : U32) : Junk := ⟨0, .regs, fun j => if j = 0 then n else 0, fun _ _ => 0⟩

theorem splitBlock_sizeless (cap : Nat) (draws : Draws) (hsize : x.size = 0) (junk : Junk) (j : U32) :
    ∃ sizes, splitBlock cap x junk draws j = some (junk.descCntTmp j, sizes) := by
  rw [splitBlock, hsize]
  exact ⟨_, rfl⟩

theorem blockCounts_sizeless (draws : Draws) (hr : x.randFlag = true) (hsize : x.size = 0) (n j : U32) :
    ∃ sizes, blockCounts x (countJunk n) draws j = some (if j = 0 then n else 1, sizes) := by
  obtain ⟨sizes, hs⟩ := splitBlock_sizeless blockCap draws hsize (countJunk n) j
  have hcount : (countJunk n).descCntTmp j = if j = 0 then n else 0 := rfl
  refine ⟨sizes, ?_⟩
  rw [blockCounts, if_pos hr, hs, Option.map_some, hcount]
  by_cases hj : j = 0
  · rw [if_pos hj, if_pos hj, if_pos hj]
  · rw [if_neg hj, if_neg hj, if_neg hj]
    rfl

/-- Such a call gets to the enable write, with that count in `LBAR_BASIC`. -/
theorem exists_xferDescs_sizeless (info : MtdmaChanInfo) (draws : Draws) (hr : x.randFlag = true)
    (hsize : x.size = 0) {n : U32} (hn : n + 1 ≠ 0) :
    ∃ l, xferDescs x info (countJunk n) draws = some l ∧ l.lbarBasic = lbarBasic x n := by
  unfold xferDescs
  split
  · obtain ⟨sizes, hs⟩ := splitBlock_sizeless chainCap draws hsize (countJunk n) 0
    have hcount : (countJunk n).descCntTmp 0 = n := rfl
    rw [xferChain_eq, if_pos hr, hs, Option.bind_some, hcount, if_neg hn]
    exact ⟨_, rfl, rfl⟩
  · next hb =>
      obtain ⟨l, hl⟩ := @exists_xferBlock x info (countJunk n) draws hb (fun _ _ => True) (by
        intro k st hk _
        obtain ⟨sizes, hs⟩ := blockCounts_sizeless draws hr hsize n (BitVec.ofNat 32 k)
        rcases Nat.eq_zero_or_pos k with rfl | hpos
        · exact ⟨_, _, blockRound_zero.mpr ⟨n, sizes, hs, hn, rfl, rfl⟩, trivial⟩
        · have hj := ofNat_ne_zero hpos (hk.trans x.blockCnt.isLt)
          rw [if_neg hj] at hs
          exact ⟨_, _, (blockRound_later hj).mpr ⟨1, sizes, hs, by decide, rfl, rfl⟩, trivial⟩) trivial
      refine ⟨l, hl, ?_⟩
      obtain ⟨sizes, hs⟩ := blockCounts_sizeless draws hr hsize n 0
      simp only [xferBlock, hs, Option.bind_eq_bind, Option.bind_some] at hl
      obtain ⟨bs, -, hl⟩ := Option.bind_eq_some_iff.mp hl
      obtain rfl := Option.some.inj hl
      rfl

/-- **The next chain or block transfer.** -/
theorem descs_historyFree_iff (h0 : x.descCnt ≠ 0)
    (hruns : ∃ junk as, dmaBareXfer mmu info x junk draws = .run as) :
    HistoryFree mmu info (.bare x draws) m₁ m₂ ↔ DescsAlike mmu x m₁ m₂ := by
  obtain ⟨junk, as, hrun⟩ := hruns
  obtain ⟨bits, addrType, hdir⟩ := dirBits_of_run hrun
  obtain ⟨l, hl, -⟩ := (dmaBareXfer_descs h0 hdir junk as).mp hrun
  have hleaves : ∀ m r, (NextStart.bare x draws).Leaves mmu info m r ↔ ∃ junk l,
      xferDescs x info junk draws = some l ∧
        r = m.writes (x.listBase info) (descsAccesses mmu x bits addrType l) := by
    intro m r
    simp only [NextStart.Leaves, dmaBareXfer_descs h0 hdir]
    constructor
    · rintro ⟨junk, as, ⟨l, hl, rfl⟩, hr⟩
      exact ⟨junk, l, hl, hr⟩
    · rintro ⟨junk, l, hl, hr⟩
      exact ⟨junk, _, ⟨l, hl, rfl⟩, hr⟩
  simp only [HistoryFree, hleaves]
  constructor
  · intro h
    refine ⟨fun hr hsize => ?_, fun hm hb => ?_⟩
    · -- two counts that the locals may hold
      obtain ⟨l₀, hl₀, hn₀⟩ :=
        exists_xferDescs_sizeless info draws hr hsize (by decide : (0 : U32) + 1 ≠ 0)
      obtain ⟨l₁, hl₁, hn₁⟩ :=
        exists_xferDescs_sizeless info draws hr hsize (by decide : (1 : U32) + 1 ≠ 0)
      have hlbar := congrArg Consulted.lbarBasic (h _ _ ⟨_, l₀, hl₀, rfl⟩ ⟨_, l₁, hl₁, rfl⟩)
      simp only [ChanMem.consulted, (ch_descsAccesses _ _ _ _ _ _ _).1, hn₀, hn₁, lbarBasic,
        BareXfer.chainEn, if_neg h0] at hlbar
      exact absurd hlbar (by decide)
    · have hmmu := congrArg Consulted.mmuAddrType (h _ _ ⟨_, l, hl, rfl⟩ ⟨_, l, hl, rfl⟩)
      simpa only [ChanMem.consulted, (ch_descsAccesses _ _ _ _ _ _ _).2.2, hm, if_true, true_and,
        if_neg hb, Option.some.injEq] using hmmu
  · rintro ⟨hsize, hmmu⟩ _ _ ⟨junk₁, l₁, hl₁, rfl⟩ ⟨junk₂, l₂, hl₂, rfl⟩
    obtain ⟨d, lbar, hfirst⟩ := xferDescs_first info draws hsize
    obtain ⟨hstart₁, hlbar₁⟩ := hfirst junk₁ l₁ hl₁
    obtain ⟨hstart₂, hlbar₂⟩ := hfirst junk₂ l₂ hl₂
    obtain ⟨hb₁, hd₁, hm₁⟩ := ch_descsAccesses mmu x bits addrType l₁ (x.listBase info) m₁
    obtain ⟨hb₂, hd₂, hm₂⟩ := ch_descsAccesses mmu x bits addrType l₂ (x.listBase info) m₂
    refine consulted_congr ?_ ?_ ?_ fun hm => ?_
    · rw [regDesc_descsAccesses _ _ hstart₁, regDesc_descsAccesses _ _ hstart₂]
    · rw [hb₁, hb₂, hlbar₁, hlbar₂]
    · rw [hd₁, hd₂]
    · rw [hm₁, hm₂]
      split
      · rfl
      · next hno => exact hmmu hm fun hb => hno ⟨hm, hb⟩

end Descs

/-! ## any two histories -/

/-- **A transfer depends on the channel's history exactly through what the
call does not write**: after any two histories, and whatever its uninitialised
locals hold, the call leaves the same for the hardware to consult if and only
if the histories left alike what `Alike` says. -/
theorem historyFree_iff (mmu : Bool) (info : MtdmaChanInfo) (m : ChanMem)
    (h₁ h₂ : List (Transfer mmu info)) (next : NextStart) :
    HistoryFree mmu info next (afterHistory m h₁) (afterHistory m h₂) ↔
      Alike mmu info (afterHistory m h₁) (afterHistory m h₂) next := by
  cases next with
  | engine dir chunk => exact engine_historyFree_iff mmu _ _
  | bare x draws =>
      by_cases hruns : ∃ junk as, dmaBareXfer mmu info x junk draws = .run as
      · by_cases h0 : x.descCnt = 0
        · obtain ⟨junk, as, hrun⟩ := hruns
          obtain ⟨bits, addrType, hdir⟩ := dirBits_of_run hrun
          rw [Alike, single_historyFree_iff h0 hdir, if_pos h0]
          exact ⟨fun h _ => h, fun h => h ⟨junk, as, hrun⟩⟩
        · rw [Alike, descs_historyFree_iff h0 hruns, if_neg h0]
          exact ⟨fun h _ => h, fun h => h hruns⟩
      · refine ⟨fun _ hno => absurd hno hruns, fun _ r₁ r₂ ⟨junk, as, hrun, _⟩ => ?_⟩
        exact absurd ⟨junk, as, hrun⟩ hruns

/-- A channel after reset. -/
def resetMem : ChanMem := ⟨fun _ => 0, fun _ => 0, fun _ _ => 0⟩

/-- Seven bytes in one descriptor. -/
def sevenAtOnce : BareXfer := ⟨1, 0, 0, 0, 0x1000, 0x2000, 7⟩

/-- Seven bytes in a chain of two. -/
def sevenChained : BareXfer := ⟨1, 0, 1, 0, 0x1000, 0x2000, 7⟩

/-- A history of one chain transfer. -/
def afterChain : List (Transfer false default) :=
  [.bare sevenChained zeroJunk (fun _ _ => 0) _ rfl]

/-- A history of one chunk of the engine. -/
def afterChunk : List (Transfer false default) := [.engine .devToMem oneBurst .regs]

/-- A single transfer finds the `desc_op` of the chain transfer or of the
chunk, even when its `i` is zero both times. -/
theorem sevenAtOnce_inherits :
    ¬ HistoryFree false default (.bare sevenAtOnce fun _ _ => 0) (afterHistory resetMem afterChain)
      (afterHistory resetMem afterChunk) := by
  intro h
  have hsame := h _ _ ⟨zeroJunk, _, rfl, rfl⟩ ⟨zeroJunk, _, rfl, rfl⟩
  exact absurd (congrArg Consulted.descOp hsame) (by decide)

end MtEmu
