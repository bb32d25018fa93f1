import MtEmu.Engine.Build

/-!
# MtEmu.Engine.Scatter

What a scatter list becomes: `mtdma_device_transfer` (`mt-emu-mtdma-core.c`).

The entries become bursts in their order, at addresses that run on from the configured one
on the device's side (`runOn`).  A chunk is filled up before the next one is begun, so that
every chunk but the last one has `ll_max` bursts and the last one has one at least
(`Chunked`, kept by `transferRound`).
-/

namespace MtEmu

namespace MtdmaChan

/-! ## what is asked for -/

/-- The entries as bursts, one behind the other on the device's side from `addr` on. -/
def runOn (ch : MtdmaChan) : U64 → List SgEntry → List MtdmaBurst
  | _, [] => []
  | addr, sg :: sgl => ch.burstOf sg addr :: ch.runOn (addr + sg.dmaLen.setWidth 64) sgl

/-- The configured address on the device's side. -/
def base (ch : MtdmaChan) : U64 := ch.deviceAddr ch.config.srcAddr ch.config.dstAddr

/-- The bytes of some bursts, in 32 bits. -/
def burstBytes (bursts : List MtdmaBurst) : U32 := (bursts.map MtdmaBurst.sz).sum

theorem burstBytes_append (bursts more : List MtdmaBurst) :
    burstBytes (bursts ++ more) = burstBytes bursts + burstBytes more := by
  rw [burstBytes, List.map_append, List.sum_append]
  rfl

theorem runOn_concat (ch : MtdmaChan) (addr : U64) (sgl : List SgEntry) (sg : SgEntry) :
    ch.runOn addr (sgl ++ [sg]) = ch.runOn addr sgl ++
      [ch.burstOf sg (addr + (sgl.map fun sg => sg.dmaLen.setWidth 64).sum)] := by
  induction sgl generalizing addr with
  | nil => simp [runOn]
  | cons sg' sgl ih => simp [runOn, ih, BitVec.add_assoc]

/-! ## the loop -/

/-- The loop variables when the entries `done` are in chunks. -/
structure Chunked (ch : MtdmaChan) (done : List SgEntry) (st : TransferState) : Prop where
  bursts : (st.before ++ [st.chunk]).flatMap MtdmaChunk.bursts = ch.runOn ch.base done
  addr : st.addr = ch.base + (done.map fun sg => sg.dmaLen.setWidth 64).sum
  full : ∀ c ∈ st.before, c.bursts.length = ch.info.llMax.toNat
  le : st.chunk.bursts.length ≤ ch.info.llMax.toNat
  ne_nil : done ≠ [] → st.chunk.bursts ≠ []
  sz : ∀ c ∈ st.before ++ [st.chunk], c.sz = burstBytes c.bursts
  allocSz : st.allocSz = burstBytes (ch.runOn ch.base done)

variable {ch : MtdmaChan}

theorem chunked_nil (ch : MtdmaChan) : Chunked ch [] ⟨[], ⟨[], 0⟩, ch.base, 0⟩ where
  bursts := rfl
  addr := (add_zero _).symm
  full := nofun
  le := Nat.zero_le _
  ne_nil := nofun
  sz c hc := by rw [List.mem_singleton.mp hc]; rfl
  allocSz := rfl

/-- A round puts the next entry into the last chunk, a new one if that is full. -/
theorem Chunked.round {done : List SgEntry} {st : TransferState} (h : Chunked ch done st)
    (hmax : ch.info.llMax ≠ 0) (sg : SgEntry) :
    Chunked ch (done ++ [sg]) (ch.transferRound st sg) := by
  have hpos : 0 < ch.info.llMax.toNat :=
    BitVec.toNat_pos_of_ne_zero hmax
  have hbursts := h.bursts
  have hle := h.le
  have hfull : BitVec.ofNat 32 st.chunk.bursts.length = ch.info.llMax ↔
      st.chunk.bursts.length = ch.info.llMax.toNat := by
    rw [← BitVec.toNat_inj, BitVec.toNat_ofNat,
      Nat.mod_eq_of_lt (hle.trans_lt ch.info.llMax.isLt)]
  have hnew : ch.runOn ch.base (done ++ [sg]) = ch.runOn ch.base done ++ [ch.burstOf sg st.addr] := by
    rw [runOn_concat, ← h.addr]
  have haddr : st.addr + sg.dmaLen.setWidth 64 =
      ch.base + ((done ++ [sg]).map fun sg => sg.dmaLen.setWidth 64).sum := by
    simp [h.addr, BitVec.add_assoc]
  have halloc : st.allocSz + sg.dmaLen = burstBytes (ch.runOn ch.base (done ++ [sg])) := by
    rw [hnew, burstBytes_append, ← h.allocSz]
    simp [burstBytes]
  rw [transferRound_eq]
  by_cases hf : st.chunk.bursts.length = ch.info.llMax.toNat
  · simp only [if_pos (hfull.mpr hf)]
    refine ⟨?_, haddr, ?_, hpos, fun _ => List.cons_ne_nil _ _, ?_, halloc⟩
    · rw [hnew, List.flatMap_append, hbursts]
      rfl
    · intro c hc
      cases List.mem_append.mp hc with
      | inl hin => exact h.full c hin
      | inr hlast => rw [List.mem_singleton.mp hlast, hf]
    · intro c hc
      cases List.mem_append.mp hc with
      | inl hin => exact h.sz c hin
      | inr hlast =>
          rw [List.mem_singleton.mp hlast]
          simp [burstBytes]
  · simp only [if_neg fun heq => hf (hfull.mp heq)]
    refine ⟨?_, haddr, h.full, ?_, fun _ => by simp, ?_, halloc⟩
    · rw [List.flatMap_append, List.flatMap_singleton] at hbursts
      rw [hnew, List.flatMap_append, List.flatMap_singleton, ← List.append_assoc, hbursts]
    · rw [List.length_append, List.length_singleton]
      omega
    · intro c hc
      cases List.mem_append.mp hc with
      | inl hin => exact h.sz c (List.mem_append_left _ hin)
      | inr hlast =>
          have hsz := h.sz st.chunk (List.mem_append_right _ List.mem_cons_self)
          rw [List.mem_singleton.mp hlast, burstBytes_append, hsz]
          simp [burstBytes]

/-- The whole loop. -/
theorem Chunked.foldl {done : List SgEntry} {st : TransferState} (h : Chunked ch done st)
    (hmax : ch.info.llMax ≠ 0) (sgl : List SgEntry) :
    Chunked ch (done ++ sgl) (sgl.foldl ch.transferRound st) := by
  induction sgl generalizing done st with
  | nil => rwa [List.append_nil]
  | cons sg sgl ih =>
      have hrest := ih (h.round hmax sg)
      rwa [List.append_assoc] at hrest

/-- What a scatter list becomes. -/
structure Scattered (ch : MtdmaChan) (entries : List SgEntry) (d : MtdmaDesc) : Prop where
  bursts : d.chunks.flatMap MtdmaChunk.bursts = ch.runOn ch.base entries
  chunk : ∀ c ∈ d.chunks, 1 ≤ c.bursts.length ∧ c.bursts.length ≤ ch.info.llMax.toNat
  sz : ∀ c ∈ d.chunks, c.sz = burstBytes c.bursts
  allocSz : d.allocSz = burstBytes (d.chunks.flatMap MtdmaChunk.bursts)

theorem scattered_of_transfer {sgl : List SgEntry} {len : U32} {d : MtdmaDesc}
    (h : ch.mtdmaDeviceTransfer sgl len true = some d) (hmax : ch.info.llMax ≠ 0)
    (hsgl : sgl ≠ []) : Scattered ch (sgl.take len.toNat) d := by
  have hpos : 0 < ch.info.llMax.toNat :=
    BitVec.toNat_pos_of_ne_zero hmax
  unfold mtdmaDeviceTransfer at h
  split at h
  · cases h
  split at h
  · cases h
  next hlen =>
    have hcount : 0 < len.toNat := by
      rw [BitVec.lt_def] at hlen
      simp at hlen
      omega
    have hne : sgl.take len.toNat ≠ [] := fun h0 =>
      (List.take_eq_nil_iff.mp h0).elim (Nat.ne_of_gt hcount) hsgl
    have hend := (chunked_nil ch).foldl hmax (sgl.take len.toNat)
    rw [List.nil_append] at hend
    obtain rfl := Option.some.inj h
    constructor
    · exact hend.bursts
    · intro c hc
      cases List.mem_append.mp hc with
      | inl hin =>
          rw [hend.full c hin]
          exact ⟨hpos, Nat.le_refl _⟩
      | inr hlast =>
          rw [List.mem_singleton.mp hlast]
          exact ⟨List.length_pos_iff.mpr (hend.ne_nil hne), hend.le⟩
    · exact hend.sz
    · exact hend.allocSz.trans (congrArg burstBytes hend.bursts.symm)

theorem length_runOn (ch : MtdmaChan) (addr : U64) (sgl : List SgEntry) :
    (ch.runOn addr sgl).length = sgl.length := by
  induction sgl generalizing addr with
  | nil => rfl
  | cons sg sgl ih => rw [runOn, List.length_cons, List.length_cons, ih]

/-- There are no more chunks than bursts. -/
theorem length_le_flatMap {chunks : List MtdmaChunk} (h : ∀ c ∈ chunks, 1 ≤ c.bursts.length) :
    chunks.length ≤ (chunks.flatMap MtdmaChunk.bursts).length := by
  induction chunks with
  | nil => exact Nat.zero_le _
  | cons c chunks ih =>
      have hrest := ih fun c' hc' => h c' (List.mem_cons_of_mem _ hc')
      have hfst := h c List.mem_cons_self
      rw [List.flatMap_cons, List.length_append, List.length_cons]
      omega

theorem Scattered.length_lt {sgl : List SgEntry} {len : U32} {d : MtdmaDesc}
    (h : Scattered ch (sgl.take len.toNat) d) : d.chunks.length < 2 ^ 32 := by
  have hle := length_le_flatMap fun c hc => (h.chunk c hc).1
  rw [h.bursts, length_runOn, List.length_take] at hle
  have hlt := len.isLt
  omega

end MtdmaChan

open MtdmaChan KMem

/-- **Scatter lists**: when all allocations succeed, the descriptor that
`mtdma_device_transfer` leaves in memory has the entries as its bursts, in chunks of at
most `ll_max`, with the sizes added up and the chunks counted. -/
theorem deviceTransfer_scattered {m : KMem} (hm : m.Good) (hok : m.AllOk) (ch : MtdmaChan)
    (vc : VirtDmaChan Unit) (sgl : List SgEntry) (len : U32) (hconf : ch.configured = true)
    (hmax : ch.info.llMax ≠ 0) (hsgl : sgl ≠ []) (hlen : 1 ≤ len) :
    ∃ v d m', m.mtdmaDeviceTransfer ch vc sgl len =
        some (some v.ptr, vc.vchanTxPrep ⟨v.ptr, 0, .noError, ()⟩, m') ∧
      DescAt m'.mem v d ∧ Scattered ch (sgl.take len.toNat) d ∧
      (m'.mem v.ptr).val.desc.chunksAlloc.toNat = d.chunks.length := by
  have howns := hm.owns List.nodup_nil nofun
  cases mtdmaDeviceTransfer_spec ch vc sgl len howns with
  | inl hfail =>
      obtain ⟨m', -, hlt, -⟩ := hfail
      exact absurd (hlt hok hconf) (BitVec.not_lt.mpr hlen)
  | inr hdone =>
      obtain ⟨m', v, d, hcall, hcore, hdesc, -⟩ := hdone
      have hscat := scattered_of_transfer hcore hmax hsgl
      refine ⟨v, d, m', hcall, hdesc, hscat, ?_⟩
      rw [hdesc.chunksAlloc, hdesc.chunks.length_eq, BitVec.toNat_ofNat,
        Nat.mod_eq_of_lt hscat.length_lt]

/-- A configured channel with room for two bursts. -/
def twoSlotChan : MtdmaChan :=
  { MtdmaChan.setup .memToDev { (default : MtdmaChanInfo) with llMax := 2 } with
    configured := true, config := ⟨0, 0x1000⟩ }

/-- Four entries fill two of its chunks. -/
def fourEntries : List SgEntry := [⟨0x8000, 64⟩, ⟨0x9000, 1⟩, ⟨0xa000, 0xffffffff⟩, ⟨0xb000, 2⟩]

theorem deviceTransfer_scattered_fourEntries :
    ∃ v d m', (boot fun _ => true).mtdmaDeviceTransfer twoSlotChan .vchanInit fourEntries 4 =
        some (some v.ptr, VirtDmaChan.vchanInit.vchanTxPrep ⟨v.ptr, 0, .noError, ()⟩, m') ∧
      DescAt m'.mem v d ∧ Scattered twoSlotChan (fourEntries.take 4) d ∧
      (m'.mem v.ptr).val.desc.chunksAlloc.toNat = d.chunks.length :=
  deviceTransfer_scattered (good_boot _) (fun _ => rfl) twoSlotChan .vchanInit fourEntries 4 rfl
    (by decide) (List.cons_ne_nil _ _) (by decide)

end MtEmu
