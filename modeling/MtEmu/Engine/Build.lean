import MtEmu.Engine.Grow

/-!
# MtEmu.Engine.Build

Building a descriptor in kernel memory: `mtdma_device_transfer` with its allocations.

As long as no allocation fails, what lies in memory is the descriptor of
`MtdmaChan.transferRound` so far (`transferLoop_spec`); when one fails, what lies there is
still a descriptor, which `mtdma_free_desc` frees (`mtdmaDeviceTransfer_spec`).
-/

namespace MtEmu

open ListHead

/-! ## the code -/

namespace KMem

/-- A round of `mtdma_device_transfer` once its chunk is chosen. -/
def addSg (m : KMem) (ch : MtdmaChan) (desc chunk : Ptr) (sg : SgEntry) (srcAddr dstAddr : U64) :
    Option Ptr × KMem :=
  match m.mtdmaAllocBurst chunk with
  | (none, m) => (none, m)
  | (some burst, m) =>
      (some chunk, { m with mem := fillBurst ch desc chunk burst sg srcAddr dstAddr m.mem })

/-- A round of `mtdma_device_transfer`: the chunk that is filled, unless an allocation
fails, and the memory. -/
def transferStep (m : KMem) (ch : MtdmaChan) (desc chunk : Ptr) (sg : SgEntry)
    (srcAddr dstAddr : U64) : Option Ptr × KMem :=
  if (m.mem chunk).val.chunk.burstsAlloc = ch.info.llMax then
    match m.mtdmaAllocChunk desc with
    | (none, m) => (none, m)
    | (some chunk, m) => m.addSg ch desc chunk sg srcAddr dstAddr
  else m.addSg ch desc chunk sg srcAddr dstAddr

/-- `src_addr` and `dst_addr` after a round: the one on the device's side runs on. -/
def advance (ch : MtdmaChan) (sg : SgEntry) (srcAddr dstAddr : U64) : U64 × U64 :=
  match ch.dir with
  | .memToDev => (srcAddr, dstAddr + sg.dmaLen.setWidth 64)
  | .devToMem => (srcAddr + sg.dmaLen.setWidth 64, dstAddr)

/-- The loop of `mtdma_device_transfer`: whether it gets to its end, and the memory. -/
def transferLoop (ch : MtdmaChan) (desc : Ptr) :
    List SgEntry → Ptr → U64 → U64 → KMem → Bool × KMem
  | [], _, _, _, m => (true, m)
  | sg :: sgl, chunk, srcAddr, dstAddr, m =>
      match m.transferStep ch desc chunk sg srcAddr dstAddr with
      | (none, m) => (false, m)
      | (some chunk, m) =>
          let addrs := advance ch sg srcAddr dstAddr
          transferLoop ch desc sgl chunk addrs.1 addrs.2 m

/-- `mtdma_device_transfer` on the lists `vc`: the descriptor it returns, the lists and the
memory. -/
def mtdmaDeviceTransfer (m : KMem) (ch : MtdmaChan) (vc : VirtDmaChan Unit) (sgl : List SgEntry)
    (len : U32) : Option (Option Ptr × VirtDmaChan Unit × KMem) :=
  if !ch.configured then some (none, vc, m)
  else if len < 1 then some (none, vc, m)
  else
    match m.mtdmaAllocDesc with
    | (none, m) => some (none, vc, m)
    | (some desc, m) =>
        match m.mtdmaAllocChunk desc with
        | (none, m) => (m.mtdmaFreeDesc desc).map fun m => (none, vc, m)
        | (some chunk, m) =>
            match transferLoop ch desc (sgl.take len.toNat) chunk ch.config.srcAddr
              ch.config.dstAddr m with
            | (false, m) => (m.mtdmaFreeDesc desc).map fun m => (none, vc, m)
            | (true, m) => some (some desc, vc.vchanTxPrep ⟨desc, 0, .noError, ()⟩, m)

end KMem

/-- The loop variables of `mtdma_device_transfer` as a descriptor. -/
def MtdmaChan.TransferState.desc (st : MtdmaChan.TransferState) : MtdmaDesc :=
  ⟨st.before ++ [st.chunk], st.allocSz, 0⟩

namespace KMem

variable {m₀ m : KMem} {others : Nat → Bool} {v : DescView} {d : MtdmaDesc} {cv : ChunkView}
  {c : MtdmaChunk} {cvs : List ChunkView} {cs : List MtdmaChunk}

/-! ## one round -/

theorem deviceAddr_advance (ch : MtdmaChan) (sg : SgEntry) (srcAddr dstAddr : U64) :
    ch.deviceAddr (advance ch sg srcAddr dstAddr).1 (advance ch sg srcAddr dstAddr).2 =
      ch.deviceAddr srcAddr dstAddr + sg.dmaLen.setWidth 64 := by
  unfold advance MtdmaChan.deviceAddr
  cases ch.dir <;> rfl

/-- **The chosen chunk** has one more burst, unless the allocation fails. -/
theorem addSg_spec (ch : MtdmaChan) (sg : SgEntry) (srcAddr dstAddr : U64)
    (h : DescAt m.mem v d) (ho : Owns m₀ others m v.ids) (hv : v.chunks = cvs ++ [cv])
    (hd : d.chunks = cs ++ [c]) :
    (∃ m', m.addSg ch v.ptr cv.ptr sg srcAddr dstAddr = (none, m') ∧ ¬ m.AllOk ∧
      DescAt m'.mem v d ∧ Owns m₀ others m' v.ids) ∨
    ∃ m' v' cvs' cv', m.addSg ch v.ptr cv.ptr sg srcAddr dstAddr = (some cv'.ptr, m') ∧
      (m.AllOk → m'.AllOk) ∧ v'.ptr = v.ptr ∧ v'.chunks = cvs' ++ [cv'] ∧
      DescAt m'.mem v' { d with
        chunks := cs ++ [⟨c.bursts ++ [ch.burstOf sg (ch.deviceAddr srcAddr dstAddr)], c.sz + sg.dmaLen⟩]
        allocSz := d.allocSz + sg.dmaLen } ∧
      Owns m₀ others m' v'.ids := by
  cases hok : m.answers 0 with
  | false =>
      refine .inl ⟨{ m with answers := fun n => m.answers (n + 1) },
        by rw [addSg, mtdmaAllocBurst_fail hok], fun hall => ?_, h, ?_⟩
      · rw [hall 0] at hok
        contradiction
      · have hnone := ho.kzalloc_none hok
        rwa [kzalloc_fail hok] at hnone
  | true =>
      obtain ⟨m', hburst, hanswers, hdesc, howns⟩ :=
        addBurst_spec ch sg srcAddr dstAddr h ho hv hd hok
      refine .inr ⟨_, { v with chunks := cvs ++ [cv.snoc m.fresh] }, cvs, cv.snoc m.fresh,
        by rw [addSg, hburst]; rfl, fun hall n => ?_, rfl, rfl, hdesc, howns⟩
      show m'.answers n = true
      rw [hanswers]
      exact hall _

/-- **One round**: when no allocation fails, what lies in memory is the descriptor after
`transferRound`; otherwise it is a descriptor. -/
theorem transferStep_spec (ch : MtdmaChan) (sg : SgEntry) {srcAddr dstAddr : U64}
    {st : MtdmaChan.TransferState} (h : DescAt m.mem v st.desc) (ho : Owns m₀ others m v.ids)
    (hv : v.chunks = cvs ++ [cv]) (haddr : st.addr = ch.deviceAddr srcAddr dstAddr) :
    (∃ m' v' d', m.transferStep ch v.ptr cv.ptr sg srcAddr dstAddr = (none, m') ∧ ¬ m.AllOk ∧
      v'.ptr = v.ptr ∧ DescAt m'.mem v' d' ∧ Owns m₀ others m' v'.ids) ∨
    ∃ m' v' cvs' cv', m.transferStep ch v.ptr cv.ptr sg srcAddr dstAddr = (some cv'.ptr, m') ∧
      (m.AllOk → m'.AllOk) ∧ v'.ptr = v.ptr ∧ v'.chunks = cvs' ++ [cv'] ∧
      DescAt m'.mem v' (ch.transferRound st sg).desc ∧ Owns m₀ others m' v'.ids := by
  obtain ⟨-, hc⟩ := forall₂_concat.mp (hv ▸ h.chunks : List.Forall₂ _ _ (st.before ++ [st.chunk]))
  have hlen : cv.bursts.length = st.chunk.bursts.length := by
    rw [← hc.bursts, List.length_map]
  rw [ch.transferRound_eq, haddr, transferStep, hc.burstsAlloc, hlen]
  by_cases hfull : BitVec.ofNat 32 st.chunk.bursts.length = ch.info.llMax
  · simp only [if_pos hfull]
    cases mtdmaAllocChunk_spec h ho with
    | inl hfail =>
        obtain ⟨m', hchunk, hall, hdesc, howns⟩ := hfail
        exact .inl ⟨m', v, _, by rw [hchunk], hall, rfl, hdesc, howns⟩
    | inr hchunk =>
        obtain ⟨m₁, cv₁, hchunk, hall₁, hdesc₁, howns₁⟩ := hchunk
        rw [hchunk]
        cases addSg_spec ch sg srcAddr dstAddr hdesc₁ howns₁ rfl rfl with
        | inl hfail =>
            obtain ⟨m', hstep, hall, hdesc, howns⟩ := hfail
            exact .inl ⟨m', { v with chunks := v.chunks ++ [cv₁] }, _, hstep,
              fun hok => hall (hall₁ hok), rfl, hdesc, howns⟩
        | inr hstep =>
            obtain ⟨m', v', cvs', cv', hstep, hall, hptr, hv', hdesc, howns⟩ := hstep
            exact .inr ⟨m', v', cvs', cv', hstep, fun hok => hall (hall₁ hok), hptr, hv', hdesc,
              howns⟩
  · simp only [if_neg hfull]
    cases addSg_spec ch sg srcAddr dstAddr h ho hv rfl with
    | inl hfail =>
        obtain ⟨m', hstep, hall, hdesc, howns⟩ := hfail
        exact .inl ⟨m', v, _, hstep, hall, rfl, hdesc, howns⟩
    | inr hstep => exact .inr hstep

/-! ## the whole call -/

theorem transferLoop_spec (ch : MtdmaChan) (sgl : List SgEntry) {srcAddr dstAddr : U64}
    {st : MtdmaChan.TransferState} (h : DescAt m.mem v st.desc) (ho : Owns m₀ others m v.ids)
    (hv : v.chunks = cvs ++ [cv]) (haddr : st.addr = ch.deviceAddr srcAddr dstAddr) :
    (∃ m' v' d', transferLoop ch v.ptr sgl cv.ptr srcAddr dstAddr m = (false, m') ∧ ¬ m.AllOk ∧
      v'.ptr = v.ptr ∧ DescAt m'.mem v' d' ∧ Owns m₀ others m' v'.ids) ∨
    ∃ m' v', transferLoop ch v.ptr sgl cv.ptr srcAddr dstAddr m = (true, m') ∧
      v'.ptr = v.ptr ∧ DescAt m'.mem v' (sgl.foldl ch.transferRound st).desc ∧
      Owns m₀ others m' v'.ids := by
  induction sgl generalizing m v cvs cv st srcAddr dstAddr with
  | nil => exact .inr ⟨m, v, rfl, rfl, h, ho⟩
  | cons sg sgl ih =>
      rw [transferLoop]
      cases transferStep_spec ch sg h ho hv haddr with
      | inl hfail =>
          obtain ⟨m', v', d', hstep, hall, hptr, hdesc, howns⟩ := hfail
          exact .inl ⟨m', v', d', by rw [hstep], hall, hptr, hdesc, howns⟩
      | inr hstep =>
          obtain ⟨m₁, v₁, cvs₁, cv₁, hstep, hall₁, hptr₁, hv₁, hdesc₁, howns₁⟩ := hstep
          have hnext : (ch.transferRound st sg).addr = ch.deviceAddr
              (advance ch sg srcAddr dstAddr).1 (advance ch sg srcAddr dstAddr).2 := by
            rw [deviceAddr_advance, ← haddr]
            rfl
          rw [hstep, ← hptr₁, List.foldl_cons]
          cases ih hdesc₁ howns₁ hv₁ hnext with
          | inl hfail =>
              obtain ⟨m', v', d', hloop, hall, hptr, hdesc, howns⟩ := hfail
              exact .inl ⟨m', v', d', hloop, fun hok => hall (hall₁ hok), hptr, hdesc, howns⟩
          | inr hend => exact .inr hend

/-- **`mtdma_device_transfer`** builds the descriptor of the scatter list, or holds nothing
when it returns NULL. -/
theorem mtdmaDeviceTransfer_spec (ch : MtdmaChan) (vc : VirtDmaChan Unit) (sgl : List SgEntry)
    (len : U32) (ho : Owns m₀ others m []) :
    (∃ m', m.mtdmaDeviceTransfer ch vc sgl len = some (none, vc, m') ∧
      (m.AllOk → ch.configured = true → len < 1) ∧ Owns m₀ others m' []) ∨
    ∃ m' v d, m.mtdmaDeviceTransfer ch vc sgl len =
        some (some v.ptr, vc.vchanTxPrep ⟨v.ptr, 0, .noError, ()⟩, m') ∧
      ch.mtdmaDeviceTransfer sgl len true = some d ∧ DescAt m'.mem v d ∧
      Owns m₀ others m' v.ids := by
  rw [mtdmaDeviceTransfer]
  cases hconf : ch.configured with
  | false => exact .inl ⟨m, rfl, fun _ h => by contradiction, ho⟩
  | true =>
      by_cases hlen : len < 1
      · exact .inl ⟨m, by rw [if_neg (by simp), if_pos hlen], fun _ _ => hlen, ho⟩
      simp only [Bool.not_true, Bool.false_eq_true, if_false, if_neg hlen]
      cases mtdmaAllocDesc_spec ho with
      | inl hfail =>
          obtain ⟨m', hdesc, hall, howns⟩ := hfail
          exact .inl ⟨m', by rw [hdesc], fun hok => absurd hok hall, howns⟩
      | inr hdesc =>
          obtain ⟨m₁, v₁, hdesc, hall₁, hat₁, howns₁⟩ := hdesc
          simp only [hdesc]
          cases mtdmaAllocChunk_spec hat₁ howns₁ with
          | inl hfail =>
              obtain ⟨m₂, hchunk, hall, hat₂, howns₂⟩ := hfail
              obtain ⟨m', hfree, howns⟩ := mtdmaFreeDesc_spec hat₂ howns₂
              exact .inl ⟨m', by simp only [hchunk, hfree, Option.map_some],
                fun hok => absurd (hall₁ hok) hall, howns⟩
          | inr hchunk =>
              obtain ⟨m₂, cv, hchunk, hall₂, hat₂, howns₂⟩ := hchunk
              simp only [hchunk]
              let st : MtdmaChan.TransferState :=
                ⟨[], ⟨[], 0⟩, ch.deviceAddr ch.config.srcAddr ch.config.dstAddr, 0⟩
              have hat : DescAt m₂.mem _ st.desc := hat₂
              cases transferLoop_spec ch (sgl.take len.toNat) hat howns₂ rfl rfl with
              | inl hfail =>
                  obtain ⟨m₃, v₃, d₃, hloop, hall, hptr, hat₃, howns₃⟩ := hfail
                  obtain ⟨m', hfree, howns⟩ := mtdmaFreeDesc_spec hat₃ howns₃
                  rw [hptr] at hfree
                  exact .inl ⟨m', by simp only [hloop, hfree, Option.map_some],
                    fun hok => absurd (hall₂ (hall₁ hok)) hall, howns⟩
              | inr hloop =>
                  obtain ⟨m', v', hloop, hptr, hat', howns'⟩ := hloop
                  refine .inr ⟨m', v', _, by simp only [hloop, hptr], ?_, hat', howns'⟩
                  rw [MtdmaChan.mtdmaDeviceTransfer, hconf, if_neg hlen]
                  rfl

end KMem

end MtEmu
