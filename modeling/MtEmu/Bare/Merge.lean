import MtEmu.Bare.Isr

/-!
# MtEmu.Bare.Merge

The dispatch of `emu_dma_isr` on the physical function (`mt-emu-ioctl.c`), from the
registers it reads.

`MRG_PF0_STS` says on which side something is pending, a pair of 32-bit registers a
side which of its 64 channels.  Here these registers hold anything; `emuDmaIsrPf`
makes the dispatch, with the calls of `dma_bare_isr` in order, and with the registers
that the channels themselves raise it is `emuDmaIsr` (`emuDmaIsrPf_raised`).

The write side is behind an `else`: with a read channel pending it is not looked at
(`dispatch_exact_iff`).  On a virtual function both sides are.
-/

namespace MtEmu

/-! ## the registers -/

/-- The merged status that `emu_dma_isr` reads on the physical function. -/
structure MrgRegs where
  sts : U32
  rdC32 : U32
  rdC64 : U32
  wrC32 : U32
  wrC64 : U32

namespace MrgRegs

/-- `mrg_rch_sts` and `mrg_wch_sts`. -/
def map (r : MrgRegs) : Side → U64
  | .rd => r.rdC32.setWidth 64 ||| r.rdC64.setWidth 64 <<< 32
  | .wr => r.wrC64.setWidth 64 <<< 32 ||| r.wrC32.setWidth 64

/-- `mrg_rch_sts >> i & 0x1`. -/
def pending (r : MrgRegs) (side : Side) (i : Nat) : Bool := r.map side >>> i &&& 0x1 ≠ 0

/-- The bits of `MRG_PF0_STS` sum up the maps: bit 0 the read side, bit 16 the write
side. -/
structure Summed (r : MrgRegs) : Prop where
  rd : r.sts &&& 0x1 ≠ 0 ↔ r.map .rd ≠ 0
  wr : r.sts &&& 0x10000 ≠ 0 ↔ r.map .wr ≠ 0

end MrgRegs

/-! ## the dispatch -/

/-- The loop over the first `n` channels of a side: the channels afterwards and those
for which `dma_bare_isr` was called. -/
def serveLoop (sts : Nat → Bool) (chs : Nat → BareCh) : Nat → (Nat → BareCh) × List Nat
  | 0 => (chs, [])
  | n + 1 =>
      let s := serveLoop sts chs n
      if sts n ∧ (s.1 n).intrStatus &&& 1 = 1 then
        (Function.update s.1 n (s.1 n).dmaBareIsr.1, s.2 ++ [n])
      else s

/-- `emu_dma_isr` on the physical function: the function afterwards, and the calls of
`dma_bare_isr` in order. -/
def emuDmaIsrPf (r : MrgRegs) (s : EmuPcie) : EmuPcie × List (Side × Nat) :=
  if r.sts &&& 0x1 ≠ 0 then
    let c := serveLoop (r.pending .rd) s.rdCh pcieDmaChNum
    ({ s with rdCh := c.1, mrgImsk := (s.mrgImsk ||| 0x1) &&& ~~~0x1 }, c.2.map fun i => (.rd, i))
  else if r.sts &&& 0x10000 ≠ 0 then
    let c := serveLoop (r.pending .wr) s.wrCh pcieDmaChNum
    ({ s with wrCh := c.1, mrgImsk := (s.mrgImsk ||| 0x10000) &&& ~~~0x10000 },
      c.2.map fun i => (.wr, i))
  else (s, [])

/-- A channel is due: its merge bit and its done bit are set. -/
def Due (r : MrgRegs) (s : EmuPcie) (side : Side) (i : Nat) : Prop :=
  i < pcieDmaChNum ∧ r.pending side i = true ∧ (s.ch side i).intrStatus &&& 1 = 1

instance (r : MrgRegs) (s : EmuPcie) (side : Side) (i : Nat) : Decidable (Due r s side i) :=
  inferInstanceAs (Decidable (_ ∧ _ ∧ _))

/-- One interrupt services the channels of `P`, each once, and touches no other. -/
structure Services (r : MrgRegs) (s : EmuPcie) (P : Side → Nat → Prop)
    [∀ side i, Decidable (P side i)] : Prop where
  calls : ∀ side i, (emuDmaIsrPf r s).2.count (side, i) = if P side i then 1 else 0
  state : ∀ side i, (emuDmaIsrPf r s).1.ch side i =
    if P side i then (s.ch side i).dmaBareIsr.1 else s.ch side i

/-! ## the loop -/

/-- The loop goes over the channels once. -/
theorem serveLoop_spec (sts : Nat → Bool) (chs : Nat → BareCh) (n : Nat) :
    (∀ i, (serveLoop sts chs n).1 i =
      if i < n ∧ sts i ∧ (chs i).intrStatus &&& 1 = 1 then (chs i).dmaBareIsr.1 else chs i) ∧
    ∀ i, (serveLoop sts chs n).2.count i =
      if i < n ∧ sts i ∧ (chs i).intrStatus &&& 1 = 1 then 1 else 0 := by
  induction n with
  | zero => simp [serveLoop]
  | succ n ih =>
      obtain ⟨hch, hcount⟩ := ih
      have hkeep : (serveLoop sts chs n).1 n = chs n := by rw [hch, if_neg (by omega)]
      have hnone : (serveLoop sts chs n).2.count n = 0 := by rw [hcount, if_neg (by omega)]
      rw [serveLoop, hkeep]
      by_cases hn : sts n ∧ (chs n).intrStatus &&& 1 = 1
      · simp only [if_pos hn]
        constructor <;> intro i <;> by_cases hi : i = n
        · subst hi
          rw [Function.update_self, if_pos ⟨Nat.lt_succ_self i, hn⟩]
        · rw [Function.update_of_ne hi, hch]
          simp only [show i < n + 1 ↔ i < n by omega]
        · subst hi
          rw [List.count_append, hnone, if_pos ⟨Nat.lt_succ_self i, hn⟩]
          simp
        · rw [List.count_append, hcount]
          simp only [show i < n + 1 ↔ i < n by omega, List.count_singleton,
            beq_iff_eq, if_neg (Ne.symm hi), Nat.add_zero]
      · simp only [if_neg hn]
        constructor <;> intro i <;> by_cases hi : i = n
        · subst hi
          rw [hkeep, if_neg (fun h => hn h.2)]
        · rw [hch]
          simp only [show i < n + 1 ↔ i < n by omega]
        · subst hi
          rw [hnone, if_neg (fun h => hn h.2)]
        · rw [hcount]
          simp only [show i < n + 1 ↔ i < n by omega]

/-- The calls of a side are calls for its channels. -/
theorem count_side (a side : Side) (l : List Nat) (i : Nat) :
    (l.map fun k => (a, k)).count (side, i) = if side = a then l.count i else 0 := by
  by_cases h : side = a
  · subst h
    rw [if_pos rfl]
    exact List.count_map_of_injective l _ (fun _ _ hk => (Prod.mk.inj hk).2) i
  · rw [if_neg h, List.count_eq_zero]
    intro hmem
    obtain ⟨k, _, hk⟩ := List.mem_map.mp hmem
    exact h (Prod.mk.inj hk).1.symm

/-! ## the two branches -/

variable {r : MrgRegs} {s : EmuPcie}

/-- A side whose map is zero has no channel that is due. -/
theorem not_due_of_map {side : Side} (h : r.map side = 0) (i : Nat) : ¬Due r s side i := by
  rintro ⟨-, hpend, -⟩
  simp [MrgRegs.pending, h] at hpend

theorem Services.congr {P Q : Side → Nat → Prop} [∀ side i, Decidable (P side i)]
    [∀ side i, Decidable (Q side i)] (h : Services r s P) (hpq : ∀ side i, P side i ↔ Q side i) :
    Services r s Q where
  calls side i := by rw [h.calls]; simp only [hpq]
  state side i := by rw [h.state]; simp only [hpq]

/-- The branch of the read side. -/
theorem services_rd (h : r.sts &&& 0x1 ≠ 0) :
    Services r s fun side i => side = .rd ∧ Due r s side i := by
  obtain ⟨hch, hcount⟩ := serveLoop_spec (r.pending .rd) s.rdCh pcieDmaChNum
  refine ⟨fun side i => ?_, fun side i => ?_⟩ <;> rw [emuDmaIsrPf, if_pos h]
  · cases side with
    | rd => rw [count_side, if_pos rfl, hcount]; simp [Due, EmuPcie.ch]
    | wr => rw [count_side]; simp
  · cases side with
    | rd => exact (hch i).trans (by simp [Due, EmuPcie.ch])
    | wr => simp [EmuPcie.ch]

/-- The branch of the write side. -/
theorem services_wr (hrd : ¬r.sts &&& 0x1 ≠ 0) (h : r.sts &&& 0x10000 ≠ 0) :
    Services r s fun side i => side = .wr ∧ Due r s side i := by
  obtain ⟨hch, hcount⟩ := serveLoop_spec (r.pending .wr) s.wrCh pcieDmaChNum
  refine ⟨fun side i => ?_, fun side i => ?_⟩ <;> rw [emuDmaIsrPf, if_neg hrd, if_pos h]
  · cases side with
    | rd => rw [count_side]; simp
    | wr => rw [count_side, if_pos rfl, hcount]; simp [Due, EmuPcie.ch]
  · cases side with
    | rd => simp [EmuPcie.ch]
    | wr => exact (hch i).trans (by simp [Due, EmuPcie.ch])

/-- Neither branch. -/
theorem services_none (hrd : ¬r.sts &&& 0x1 ≠ 0) (hwr : ¬r.sts &&& 0x10000 ≠ 0) :
    Services r s fun _ _ => False := by
  constructor <;> intro side i <;> rw [emuDmaIsrPf, if_neg hrd, if_neg hwr] <;> rfl

/-! ## the registers that the channels raise -/

/-- The loop over registers that the channels raise is `serveAll`. -/
theorem serveLoop_raised {side : Side} {chs : Nat → BareCh}
    (hmap : ∀ i, i < pcieDmaChNum → r.pending side i = (chs i).pending) :
    (serveLoop (r.pending side) chs pcieDmaChNum).1 =
      serveAll (mergeSts chs) chs pcieDmaChNum := by
  funext i
  rw [(serveLoop_spec _ _ _).1, serveAll_apply]
  by_cases hi : i < pcieDmaChNum
  · have hmerge : mergeSts chs i = (chs i).pending := by simp [mergeSts, hi]
    rw [hmap i hi, hmerge]
    cases hp : (chs i).pending with
    | true => simp [hi, BareCh.serve]
    | false => simp
  · simp [hi]

/-- With these registers the dispatch is that of `emu_dma_isr`. -/
theorem emuDmaIsrPf_raised (hdev : 0 ≤ s.devfn ∧ s.devfn < 2) (hsts : r.sts = s.mrgSts)
    (hmap : ∀ side i, i < pcieDmaChNum → r.pending side i = (s.ch side i).pending) :
    (emuDmaIsrPf r s).1 = emuDmaIsr s := by
  have hrd := @serveLoop_raised r .rd s.rdCh (hmap .rd)
  have hwr := @serveLoop_raised r .wr s.wrCh (hmap .wr)
  rw [emuDmaIsrPf, emuDmaIsr, if_pos hdev, hsts]
  by_cases h0 : s.mrgSts &&& 0x1 ≠ 0
  · simp only [if_pos h0, hrd]
  · by_cases h16 : s.mrgSts &&& 0x10000 ≠ 0
    · simp only [if_neg h0, if_pos h16, hwr]
    · simp only [if_neg h0, if_neg h16]

/-! ## when the dispatch is complete -/

/-- With a read channel pending and a write channel due, the write channel is left
alone. -/
theorem not_services_of_due (h : r.Summed) (hmap : r.map .rd ≠ 0) {i : Nat}
    (hdue : Due r s .wr i) : ¬Services r s (Due r s) := by
  intro hall
  have hcall := (services_rd (s := s) (h.rd.mpr hmap)).calls .wr i
  rw [hall.calls, if_pos hdue, if_neg (by simp)] at hcall
  exact absurd hcall (by decide)

/-- With no read channel pending, or no write channel due, all that are due are
serviced. -/
theorem services_due (h : r.Summed) (hsides : r.map .rd = 0 ∨ ∀ i, ¬Due r s .wr i) :
    Services r s (Due r s) := by
  by_cases hrd : r.map .rd = 0
  · have hbit : ¬r.sts &&& 0x1 ≠ 0 := fun hb => h.rd.mp hb hrd
    by_cases hwr : r.map .wr = 0
    · refine (services_none hbit fun hb => h.wr.mp hb hwr).congr fun side i => ?_
      cases side with
      | rd => simp [not_due_of_map hrd i]
      | wr => simp [not_due_of_map hwr i]
    · refine (services_wr hbit (h.wr.mpr hwr)).congr fun side i => ?_
      cases side with
      | rd => simp [not_due_of_map hrd i]
      | wr => simp
  · refine (services_rd (h.rd.mpr hrd)).congr fun side i => ?_
    cases side with
    | rd => simp
    | wr => simp [hsides.resolve_left hrd i]

/-- **Dispatch**: one interrupt of the physical function services exactly the channels
that are due, unless a read channel is pending while a write channel is due. -/
theorem dispatch_exact_iff (h : r.Summed) :
    Services r s (Due r s) ↔ r.map .rd = 0 ∨ ∀ i, ¬Due r s .wr i := by
  refine ⟨fun hall => ?_, services_due h⟩
  by_contra hnot
  obtain ⟨hmap, hdue⟩ := not_or.mp hnot
  obtain ⟨i, hi⟩ := not_forall_not.mp hdue
  exact not_services_of_due h hmap hi hall

/-- Write channel 40 alone is pending. -/
def writeDone : MrgRegs := ⟨0x10000, 0, 0, 0, 0x100⟩

/-- Read channel 3 and write channel 40 are pending. -/
def bothDone : MrgRegs := ⟨0x10001, 0x8, 0, 0, 0x100⟩

/-- A physical function all of whose channels are done. -/
def allDone : EmuPcie where
  devfn := 0
  rdCh := fun _ => ⟨1, 0, 0, 0⟩
  wrCh := fun _ => ⟨1, 0, 0, 0⟩
  mrgImsk := 0

theorem dispatch_exact_writeDone :
    Services writeDone allDone (Due writeDone allDone) ↔
      writeDone.map .rd = 0 ∨ ∀ i, ¬Due writeDone allDone .wr i :=
  dispatch_exact_iff ⟨by decide, by decide⟩

/-- Both channels are done, but the write channel is not serviced. -/
theorem bothDone_not_exact :
    bothDone.Summed ∧ Due bothDone allDone .rd 3 ∧ Due bothDone allDone .wr 40 ∧
      (emuDmaIsrPf bothDone allDone).2 = [(.rd, 3)] ∧
      ¬Services bothDone allDone (Due bothDone allDone) := by
  have hsum : bothDone.Summed := ⟨by decide, by decide⟩
  have hdue : Due bothDone allDone .wr 40 := by decide
  exact ⟨hsum, by decide, hdue, by decide, not_services_of_due hsum (by decide) hdue⟩

end MtEmu
