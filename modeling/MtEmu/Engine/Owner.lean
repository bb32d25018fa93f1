import MtEmu.Engine.DmaRw

/-!
# MtEmu.Engine.Owner

Who handles a channel's interrupt.

Two paths drive the same channels: `dma_bare_xfer` with `dma_bare_isr`, and
the dmaengine channels with `mtdma_isr`.  `MT_IOCTL_DMAISR_SET` stores which
of the two is to have the interrupts in `isr_dmabare`, and
`pcief_mtdma_engine_start` and its bare counterpart set it before each
transfer.  `emu_dma_isr` does not read it: it calls `dma_bare_isr`, and
nothing calls `emu_mtdma_isr`.

`OwnSys` is a device with its mode, its channels as both paths see them, and
its interrupts.  `taken` notes each done or error interrupt of a channel that
was taken up, or that the start of the next transfer cleared, and
`interrupts_owned` says in which runs all of them went to the handler that was
selected.
-/

namespace MtEmu

open Machine

/-! ## the device -/

/-- The two ways to drive a channel, each with a handler of its own. -/
inductive DmaPath where
  | bare
  | engine
  deriving DecidableEq

/-- `emu_pcie->type`. -/
inductive MtEmuType where
  | gpu
  | apu
  | vgpu
  deriving DecidableEq

/-- A channel with a done or an error interrupt. -/
def BareCh.Raised (ch : BareCh) : Prop := ch.intrStatus &&& (intrDone ||| intrErr) ≠ 0

instance (ch : BareCh) : Decidable ch.Raised := inferInstanceAs (Decidable (_ ≠ _))

/-- An interrupt of a channel that was taken up or is gone: what was selected
then, who had started the channel, and whose handler was called. -/
structure TakenIntr where
  side : Side
  ch : Nat
  selected : DmaPath
  started : Option DmaPath
  handler : Option DmaPath
  deriving DecidableEq

/-- It was handled as selected, hence by its own path if that was selected. -/
def TakenIntr.Owned (t : TakenIntr) : Prop :=
  t.handler = some t.selected ∧ (t.started = some t.selected → t.handler = t.started)

instance (t : TakenIntr) : Decidable t.Owned := inferInstanceAs (Decidable (_ ∧ _))

/-- A device.  The raw status of a channel is that of `pcie`; the dmaengine
channels of `eng` see it too. -/
structure OwnSys where
  type : MtEmuType
  irqTestMode : Bool
  isrDmabare : Bool
  pcie : EmuPcie
  eng : Side → Nat → EngineSys
  started : Side → Nat → Option DmaPath
  taken : List TakenIntr

/-- What can happen. -/
inductive OwnAct where
  | dmaisrSet (b0 : BitVec 8)
  | bareStart (side : Side) (i : Nat)
  | engine (side : Side) (i : Nat) (a : EngineAct)
  | hwEnd (side : Side) (i : Nat) (bits : U32)
  | pcieTh (irq : Nat)

/-- What a dmaengine channel does other than in its interrupt handler. -/
def EngineAct.NotIsr : EngineAct → Prop
  | .isrRead | .isrDone | .isrAbort | .lose _ => False
  | _ => True

instance : (a : EngineAct) → Decidable a.NotIsr
  | .isrRead | .isrDone | .isrAbort | .lose _ => .isFalse id
  | .hwFinish _ _ | .taskletTake | .taskletCall | .prep _ _ _ | .submit _ | .issuePending
  | .terminateAll | .freeChanResources _ | .allocChanResources | .config _ => .isTrue trivial

/-- Change a table of channels at one channel. -/
def setAt {α : Type} (f : Side → Nat → α) (side : Side) (i : Nat) (x : α) : Side → Nat → α :=
  fun side' i' => if side' = side ∧ i' = i then x else f side' i'

/-- Put a channel. -/
def EmuPcie.setCh (s : EmuPcie) (side : Side) (i : Nat) (ch : BareCh) : EmuPcie :=
  match side with
  | .rd => { s with rdCh := Function.update s.rdCh i ch }
  | .wr => { s with wrCh := Function.update s.wrCh i ch }

namespace OwnSys

/-- What the last `MT_IOCTL_DMAISR_SET` selected. -/
def selected (s : OwnSys) : DmaPath := if s.isrDmabare then .bare else .engine

/-- The note on a channel's interrupt. -/
def note (s : OwnSys) (side : Side) (i : Nat) (handler : Option DmaPath) : TakenIntr :=
  ⟨side, i, s.selected, s.started side i, handler⟩

/-- `pcie_th` calls `emu_dma_isr` for this interrupt. -/
def Dispatches (s : OwnSys) (irq : Nat) : Prop :=
  match s.type with
  | .gpu => s.irqTestMode = false
  | .vgpu => s.irqTestMode = false ∧ (irq = 3 ∨ irq = 2)
  | .apu => False

instance (s : OwnSys) (irq : Nat) : Decidable (s.Dispatches irq) := by
  unfold Dispatches
  split <;> infer_instance

/-- The dmaengine channel with the raw status of the hardware. -/
def engAt (s : OwnSys) (side : Side) (i : Nat) : EngineSys :=
  { s.eng side i with raw := (s.pcie.ch side i).intrRaw }

/-- The action hands a chunk to the hardware. -/
def hands (s : OwnSys) (side : Side) (i : Nat) : EngineAct → Bool
  | .issuePending => (s.engAt side i).chan.mtdmaDeviceIssuePending.2.isSome
  | _ => false

/-- The channels whose done or error interrupt is taken up. -/
def raised (s : OwnSys) : List (Side × Nat) :=
  s.pcie.takenUp.filter fun c => (s.pcie.ch c.1 c.2).Raised

/-- The notes of an interrupt: `dma_bare_isr` is called for the channels that
have the done bit set. -/
def notes (s : OwnSys) : List TakenIntr :=
  s.raised.map fun c =>
    s.note c.1 c.2 (if (s.pcie.ch c.1 c.2).intrStatus &&& 1 = 1 then some .bare else none)

/-- One step. -/
def step (s : OwnSys) : OwnAct → Option OwnSys
  | .dmaisrSet b0 => some { s with isrDmabare := b0 ≠ 0 }
  | .bareStart side i =>
      let ch := s.pcie.ch side i
      some { s with
        pcie := s.pcie.setCh side i { ch with intDone := 0, intError := 0, intrImsk := 0 }
        started := setAt s.started side i (some .bare) }
  | .engine side i a =>
      if a.NotIsr then
        ((s.engAt side i).step a).map fun eng =>
          let ch := s.pcie.ch side i
          let ch' := { ch with
            intrRaw := eng.raw, intrImsk := if s.hands side i a then 0 else ch.intrImsk }
          { s with
            pcie := s.pcie.setCh side i ch'
            eng := setAt s.eng side i eng
            started := if s.hands side i a then setAt s.started side i (some .engine) else s.started
            -- `mtdma_v0_core_start` clears the raw status
            taken :=
              if ch.Raised ∧ ¬ ch'.Raised then s.note side i none :: s.taken else s.taken }
      else none
  | .hwEnd side i bits =>
      let ch := s.pcie.ch side i
      some { s with pcie := s.pcie.setCh side i { ch with intrRaw := ch.intrRaw ||| bits } }
  | .pcieTh irq =>
      if s.Dispatches irq then
        some { s with pcie := emuDmaIsr s.pcie, taken := s.notes ++ s.taken }
      else some s

/-- A device of which no interrupt has been taken. -/
def Init (s : OwnSys) : Prop := s.taken = []

/-- An interrupt is taken only while the bare path is selected and for
channels with the done bit, and no chunk is handed to a channel that has one. -/
def Selects (s : OwnSys) : OwnAct → Prop
  | .pcieTh irq =>
      s.Dispatches irq → ∀ c ∈ s.raised,
        s.isrDmabare = true ∧ (s.pcie.ch c.1 c.2).intrStatus &&& 1 = 1
  | .engine side i a => s.hands side i a = true → ¬ (s.pcie.ch side i).Raised
  | _ => True

instance (s : OwnSys) (a : OwnAct) : Decidable (s.Selects a) := by
  unfold Selects
  split <;> infer_instance

/-! ## interrupts that are there -/

variable {s s' : OwnSys}

@[simp] theorem ch_setCh (p : EmuPcie) (side side' : Side) (i i' : Nat) (ch : BareCh) :
    (p.setCh side i ch).ch side' i' =
      if side' = side ∧ i' = i then ch else p.ch side' i' := by
  cases side with
  | rd =>
      cases side' with
      | rd => simp [EmuPcie.setCh, EmuPcie.ch, Function.update_apply]
      | wr => simp [EmuPcie.setCh, EmuPcie.ch]
  | wr =>
      cases side' with
      | rd => simp [EmuPcie.setCh, EmuPcie.ch]
      | wr => simp [EmuPcie.setCh, EmuPcie.ch, Function.update_apply]

/-- More status bits, behind no more of a mask, take no interrupt back. -/
theorem raised_of_le {ch ch' : BareCh} {bits : U32} (h : ch.Raised)
    (hraw : ch'.intrRaw = ch.intrRaw ||| bits)
    (hmsk : ch'.intrImsk = ch.intrImsk ∨ ch'.intrImsk = 0) : ch'.Raised := by
  unfold BareCh.Raised BareCh.intrStatus at h ⊢
  intro h'
  apply h
  ext i hi
  have hbit : (ch'.intrRaw &&& ~~~ch'.intrImsk &&& (intrDone ||| intrErr))[i] = false := by
    rw [h']; simp
  rcases hmsk with hmsk | hmsk
  · simp only [hraw, hmsk, BitVec.getElem_and, BitVec.getElem_or, BitVec.getElem_not] at hbit ⊢
    grind
  · simp only [hraw, hmsk, BitVec.getElem_and, BitVec.getElem_or, BitVec.getElem_not] at hbit ⊢
    grind

/-- A step that hands no chunk to the hardware clears no status. -/
theorem raw_of_step {side : Side} {i : Nat} {a : EngineAct} {eng : EngineSys} (ha : a.NotIsr)
    (hhands : s.hands side i a = false) (h : (s.engAt side i).step a = some eng) :
    ∃ bits, eng.raw = (s.pcie.ch side i).intrRaw ||| bits := by
  cases a with
  | issuePending =>
      cases h
      have hnone : (s.engAt side i).chan.mtdmaDeviceIssuePending.2 = none := by
        simpa [hands] using hhands
      refine ⟨0, ?_⟩
      rw [hnone]
      simp [EngineSys.after, EngineSys.give, engAt]
  | hwFinish id bits =>
      cases EngineSys.move_of_step h with
      | finished => exact ⟨bits, rfl⟩
  | isrRead | isrDone | isrAbort | lose => contradiction
  | _ =>
      cases EngineSys.move_of_step h <;> exact ⟨0, by simp [engAt]⟩

/-- A chunk that is handed to the hardware clears the status. -/
theorem raw_of_hands {side : Side} {i : Nat} {a : EngineAct} {eng : EngineSys}
    (hhands : s.hands side i a = true) (h : (s.engAt side i).step a = some eng) : eng.raw = 0 := by
  cases a with
  | issuePending =>
      cases h
      obtain ⟨hd, hsome⟩ : ∃ hd, (s.engAt side i).chan.mtdmaDeviceIssuePending.2 = some hd := by
        simpa [hands, Option.isSome_iff_exists] using hhands
      rw [hsome]
      simp [EngineSys.after, EngineSys.give]
  | _ => simp [hands] at hhands

/-! ## what is noted -/

/-- What a step adds to the notes: an interrupt what it took up, and a chunk
that is handed to the hardware the interrupt that it clears. -/
def news (s : OwnSys) : OwnAct → List TakenIntr
  | .pcieTh irq => if s.Dispatches irq then s.notes else []
  | .engine side i a =>
      if s.hands side i a = true ∧ (s.pcie.ch side i).Raised then [s.note side i none] else []
  | _ => []

theorem news_pcieTh {irq : Nat} (hd : s.Dispatches irq) : s.news (.pcieTh irq) = s.notes := if_pos hd

theorem taken_of_step {a : OwnAct} (h : step s a = some s') : s'.taken = s.news a ++ s.taken := by
  cases a with
  | dmaisrSet b0 => cases h; rfl
  | bareStart side i => cases h; rfl
  | engine side i a =>
      simp only [step] at h
      split at h
      · next ha =>
          obtain ⟨eng, he, rfl⟩ := Option.map_eq_some_iff.mp h
          cases hhands : s.hands side i a with
          | false =>
              obtain ⟨bits, hraw⟩ := raw_of_step ha hhands he
              simp only [news, hhands]
              rw [if_neg, if_neg (by simp)]
              · rfl
              · rintro ⟨hp, hnot⟩
                exact hnot (raised_of_le hp hraw (.inl rfl))
          | true =>
              have hclear (ch : BareCh) :
                  ¬ ({ ch with intrRaw := eng.raw, intrImsk := 0 } : BareCh).Raised := by
                simp [BareCh.Raised, BareCh.intrStatus, raw_of_hands hhands he]
              by_cases hp : (s.pcie.ch side i).Raised
              · simpa [news, hhands, hp] using hclear (s.pcie.ch side i)
              · simp [news, hhands, hp]
      · contradiction
  | hwEnd side i bits => cases h; rfl
  | pcieTh irq =>
      simp only [step] at h
      split at h
      · next hd => cases h; rw [news_pcieTh hd]
      · next hd => cases h; simp [news, hd]

/-- No interrupt is lost sight of: it stays until there is a note. -/
theorem raised_or_noted {a : OwnAct} {side : Side} {i : Nat} (h : step s a = some s')
    (hp : (s.pcie.ch side i).Raised) :
    (s'.pcie.ch side i).Raised ∨ ∃ handler, s.note side i handler ∈ s.news a := by
  cases a with
  | dmaisrSet b0 => cases h; exact .inl hp
  | bareStart side' i' =>
      cases h
      left
      rw [ch_setCh]
      split
      · next heq =>
          obtain ⟨rfl, rfl⟩ := heq
          exact raised_of_le hp BitVec.or_zero.symm (.inr rfl)
      · exact hp
  | engine side' i' a =>
      simp only [step] at h
      split at h
      · next ha =>
          obtain ⟨eng, he, rfl⟩ := Option.map_eq_some_iff.mp h
          by_cases heq : side = side' ∧ i = i'
          · obtain ⟨rfl, rfl⟩ := heq
            cases hhands : s.hands side i a with
            | false =>
                obtain ⟨bits, hraw⟩ := raw_of_step ha hhands he
                left
                rw [ch_setCh, if_pos ⟨rfl, rfl⟩]
                exact raised_of_le hp hraw (.inl rfl)
            | true =>
                right
                exact ⟨none, by simp [news, hhands, hp]⟩
          · left
            simpa [heq] using hp
      · contradiction
  | hwEnd side' i' bits =>
      cases h
      left
      rw [ch_setCh]
      split
      · next heq =>
          obtain ⟨rfl, rfl⟩ := heq
          exact raised_of_le hp rfl (.inl rfl)
      · exact hp
  | pcieTh irq =>
      simp only [step] at h
      split at h
      · next hd =>
          cases h
          rw [emuDmaIsr_ch_eq]
          split
          · next hin =>
              right
              rw [news_pcieTh hd]
              exact ⟨_, List.mem_map.mpr ⟨(side, i), by simp [raised, hin, hp], rfl⟩⟩
          · exact .inl hp
      · cases h
        exact .inl hp

/-- A note of the bare handler is right if the bare path is selected. -/
theorem owned_note_bare_iff (s : OwnSys) (side : Side) (i : Nat) :
    (s.note side i (some .bare)).Owned ↔ s.isrDmabare = true := by
  unfold note TakenIntr.Owned selected
  cases s.isrDmabare with
  | false => simp
  | true => simpa using Eq.symm

/-- A note of no handler never is. -/
theorem not_owned_note_none (s : OwnSys) (side : Side) (i : Nat) : ¬ (s.note side i none).Owned := by
  simp [note, TakenIntr.Owned]

/-- The notes of a step are those of interrupts that went to the selected
handler if and only if the step meets the condition. -/
theorem news_owned_iff (s : OwnSys) (a : OwnAct) : (∀ t ∈ s.news a, t.Owned) ↔ s.Selects a := by
  cases a with
  | dmaisrSet | bareStart | hwEnd => simp [news, Selects]
  | engine side i a =>
      cases hhands : s.hands side i a with
      | false => simp [news, Selects, hhands]
      | true =>
          by_cases hp : (s.pcie.ch side i).Raised
          · simp [news, Selects, hhands, hp, not_owned_note_none]
          · simp [news, Selects, hp]
  | pcieTh irq =>
      by_cases hd : s.Dispatches irq
      · have hsel : s.Selects (.pcieTh irq) ↔ ∀ c ∈ s.raised,
            s.isrDmabare = true ∧ (s.pcie.ch c.1 c.2).intrStatus &&& 1 = 1 := forall_prop_of_true hd
        rw [news_pcieTh hd, hsel, notes, List.forall_mem_map]
        refine forall₂_congr fun c _ => ?_
        split
        · next hst =>
            rw [owned_note_bare_iff]
            exact (and_iff_left hst).symm
        · next hst => exact iff_of_false (s.not_owned_note_none _ _) fun h => hst h.2
      · simp [news, Selects, hd]

/-- **Who handles an interrupt**: in a run, every interrupt of a channel that
was taken up or is gone went to the handler that was selected if and only if
every step of a run to the same state meets the condition. -/
theorem interrupts_owned (h : Reaches step anyStep Init s) :
    (∀ t ∈ s.taken, t.Owned) ↔ Reaches step Selects Init s := by
  constructor
  · intro howned
    induction h with
    | start h0 => exact .start h0
    | @step s s' a _ _ hs ih =>
        rw [taken_of_step hs] at howned
        have hnews : ∀ t ∈ s.news a, t.Owned := fun t ht => howned t (List.mem_append_left _ ht)
        have hok : s.Selects a := (news_owned_iff s a).mp hnews
        exact (ih fun t ht => howned t (List.mem_append_right _ ht)).step hok hs
  · intro hrun
    refine hrun.invariant (P := fun s => ∀ t ∈ s.taken, t.Owned) ?_ ?_
    · intro s h0
      rw [show s.taken = [] from h0]
      simp
    · intro s a s' ih hok hs
      rw [taken_of_step hs]
      intro t ht
      rcases List.mem_append.mp ht with ht | ht
      · exact (news_owned_iff s a).mpr hok t ht
      · exact ih t ht

/-! ## runs -/

/-- A physical function, all of whose channels are quiet. -/
def quietDevice : OwnSys where
  type := .gpu
  irqTestMode := false
  isrDmabare := false
  pcie := ⟨0, default, default, 0⟩
  eng := fun _ _ => ⟨.setup .memToDev ⟨0, 0, 0, 0, 0, 1⟩, 0, 0, none, [], [], [], [], []⟩
  started := fun _ _ => none
  taken := []

/-- A virtual function, which has the dmaengine channels 0: the probe of the physical
function does not register any. -/
def quietVf : OwnSys := { quietDevice with type := .vgpu, pcie := ⟨2, default, default, 0⟩ }

/-- The dmaengine path sends a page on read channel 0 of a virtual function, after selecting
the handler `b0`, and the channel's done interrupt comes. -/
def engineRun (b0 : BitVec 8) : List OwnAct :=
  [.dmaisrSet b0, .engine .rd 0 (.config ⟨0, 0x1000⟩), .engine .rd 0 (.prep [⟨0x7000, 4096⟩] 1 true),
    .engine .rd 0 (.submit 0), .engine .rd 0 .issuePending, .engine .rd 0 (.hwFinish 0 1), .pcieTh 3]

/-- The bare path, on write channel 7 of the physical function. -/
def bareRun (b0 : BitVec 8) : List OwnAct :=
  [.dmaisrSet b0, .bareStart .wr 7, .hwEnd .wr 7 1, .pcieTh 5]

theorem interrupts_owned_bareRun : ∃ s, Reaches step Selects Init s ∧
    s.taken = [⟨.wr, 7, .bare, some .bare, some .bare⟩] ∧ ∀ t ∈ s.taken, t.Owned := by
  obtain ⟨s, h, htaken⟩ : ∃ s, Reaches step Selects Init s ∧
      s.taken = [⟨.wr, 7, .bare, some .bare, some .bare⟩] :=
    exists_reaches (s := quietDevice) (bareRun 1) rfl (by decide)
  exact ⟨s, h, htaken, (interrupts_owned h.unguarded).mpr h⟩

/-- The dmaengine path of a virtual function selects its handler and starts a transfer; its
done interrupt goes to the bare handler all the same. -/
theorem engine_interrupt_bare : ∃ s, Reaches step anyStep Init s ∧ ¬ ∀ t ∈ s.taken, t.Owned :=
  exists_reaches (s := quietVf) (engineRun 0) rfl (by decide)

end OwnSys

end MtEmu
