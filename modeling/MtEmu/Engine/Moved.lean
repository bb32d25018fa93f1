import MtEmu.Engine.Chunk
import MtEmu.Engine.Pages
import MtEmu.Engine.Scatter
import MtEmu.Lib.Copy

/-!
# MtEmu.Engine.Moved

From the user's buffer to the memory of the device: the scatter table of `emu_dma_rw`, the
descriptor that `mtdma_device_transfer` makes of it, the chunks as
`mtdma_v0_core_write_chunk` writes them, and the bytes that the hardware then moves.

The hardware moves a block of bytes for each descriptor that it visits (`ChanMem.moved`).  Over
all chunks of a request these are the bytes of the user's buffer, in order, and those at the
device's address (`MtdmaRw.moved_chunks`).
-/

namespace MtEmu

open Copy MtdmaChan

/-! ## what the hardware moves -/

/-- A burst moves a block of bytes. -/
def MtdmaBurst.bytes (b : MtdmaBurst) : List (U64 × U64) := block b.sz.toNat b.sar b.dar

/-- So does a descriptor. -/
def DmaChDesc.bytes (d : DmaChDesc) : List (U64 × U64) := block (d.cnt.toNat + 1) d.sar d.dar

/-- The byte pairs that the hardware moves when it is started. -/
def ChanMem.moved (m : ChanMem) (fuel : Nat) : Option (List (U64 × U64)) :=
  (m.chainWalk fuel m.regDesc).map fun ds => ds.flatMap DmaChDesc.bytes

/-- The chunks of a descriptor, each one written and run behind the other; `lli` is what the
variable of that name holds before. -/
def movedChunks (info : MtdmaChanInfo) (fuel : Nat) :
    ChanMem → List (MtdmaChunk × Lli) → Option (List (U64 × U64))
  | _, [] => some []
  | m, (chunk, lli) :: chunks => do
      let m := m.writes info.llLaddr (mtdmaV0CoreWriteChunk info chunk lli)
      let now ← m.moved fuel
      let later ← movedChunks info fuel m chunks
      return now ++ later

/-- A chunk moves its bursts. -/
theorem moved_writeChunk (info : MtdmaChanInfo) {chunk : MtdmaChunk} {fuel : Nat} (lli : Lli)
    (m : ChanMem) (hne : chunk.bursts ≠ []) (hfuel : chunk.bursts.length ≤ fuel)
    (hlen : chunk.bursts.length < 2 ^ 32) (hsz : ∀ child ∈ chunk.bursts, child.sz ≠ 0) :
    (m.writes info.llLaddr (mtdmaV0CoreWriteChunk info chunk lli)).moved fuel =
      some (chunk.bursts.flatMap MtdmaBurst.bytes) := by
  rw [mtdmaV0CoreWriteChunk, writes_writeBursts info _ _ hne]
  have hheld := holds_storeAll (m := m) (chunkEntries_apart info hlen)
    (chunkEntries_place info hlen)
  have hlink := chunkEntries_linked info hlen
  have hmoves := chunkEntries_moves info hlen hsz
  have hchain := chunkEntries_bit info hlen hne
    (fun op => op &&& descBitChainEn ≠ 0) true false rfl rfl
  have hfirst := fun en => @getElem?_chunkEntries info _ hlen 0 en
  have hcount := length_chunkEntries info chunk.bursts 0
  generalize chunkEntries info chunk.bursts 0 = es at *
  cases es with
  | nil => exact absurd (List.length_eq_zero_iff.mp hcount.symm) hne
  | cons e es =>
      obtain ⟨-, -, hregs, -⟩ := hfirst e rfl
      have hreg : (m.writes info.llLaddr (storeAll (e :: es))).regDesc = e.2 := by
        have hfst := hheld e List.mem_cons_self
        unfold Holds at hfst
        simpa only [hregs, firstPlace] using hfst
      rw [List.length_cons] at hcount
      have hwalk := chainWalk_of_linked (show es.length ≤ fuel by omega) hlink
        (fun e' he' => hheld e' (List.mem_cons_of_mem e he'))
        (by rw [show es.length = chunk.bursts.length - 1 by omega]; exact hchain)
      have hbytes : ∀ ds : List Entry, ∀ bs : List MtdmaBurst,
          ds.map (fun en => en.2.moves) = bs.map MtdmaBurst.moves →
          (ds.map Prod.snd).flatMap DmaChDesc.bytes = bs.flatMap MtdmaBurst.bytes :=
        fun ds bs hmoves => by
          have hblock := congrArg (List.flatMap fun t : U64 × U64 × Nat => block t.2.2 t.1 t.2.1)
            hmoves
          rw [List.flatMap_map, List.flatMap_map] at hblock
          rw [List.flatMap_map]
          exact hblock
      rw [ChanMem.moved, hreg, hwalk, Option.map_some, hbytes _ _ hmoves]

/-- All chunks of a descriptor move all its bursts. -/
theorem movedChunks_eq (info : MtdmaChanInfo) {fuel : Nat} {chunks : List (MtdmaChunk × Lli)}
    (m : ChanMem) (hfuel : info.llMax.toNat ≤ fuel)
    (hchunks : ∀ c ∈ chunks, 1 ≤ c.1.bursts.length ∧ c.1.bursts.length ≤ info.llMax.toNat)
    (hsz : ∀ child ∈ (chunks.map Prod.fst).flatMap MtdmaChunk.bursts, child.sz ≠ 0) :
    movedChunks info fuel m chunks =
      some (((chunks.map Prod.fst).flatMap MtdmaChunk.bursts).flatMap MtdmaBurst.bytes) := by
  induction chunks generalizing m with
  | nil => rfl
  | cons c chunks ih =>
      obtain ⟨chunk, lli⟩ := c
      obtain ⟨hpos, hmax⟩ := hchunks (chunk, lli) List.mem_cons_self
      rw [List.map_cons, List.flatMap_cons] at hsz ⊢
      have hnow := moved_writeChunk info lli m (List.length_pos_iff.mp hpos) (hmax.trans hfuel)
        (hmax.trans_lt info.llMax.isLt) fun child h => hsz child (List.mem_append_left _ h)
      have hlater := ih (m.writes info.llLaddr (mtdmaV0CoreWriteChunk info chunk lli))
        (fun c' hc' => hchunks c' (List.mem_cons_of_mem _ hc'))
        (fun child h => hsz child (List.mem_append_right _ h))
      rw [movedChunks]
      simp only [hnow, hlater, Option.bind_eq_bind, Option.bind_some]
      rw [List.flatMap_append]
      rfl

/-! ## the user's buffer -/

namespace MtdmaRw

variable {q : MtdmaRw} {addrs : List U64}

/-- The DMA address of byte `j` of the user's buffer, over pages mapped at `addrs`. -/
def userAddr (q : MtdmaRw) (addrs : List U64) (j : Nat) : U64 :=
  let byte := q.userByte (fun k => addrs.getD k 0) j
  byte.1 + BitVec.ofNat 64 byte.2

/-- The address of byte `j` on the device's side. -/
def deviceByte (q : MtdmaRw) (j : Nat) : U64 := q.laddr + BitVec.ofNat 64 j

/-- What the request asks to move for byte `j`. -/
def wanted (q : MtdmaRw) (addrs : List U64) (j : Nat) : U64 × U64 :=
  if q.devToMem then (q.deviceByte j, q.userAddr addrs j) else (q.userAddr addrs j, q.deviceByte j)

/-- The direction of the channel that a request is given. -/
def direction (q : MtdmaRw) : DmaTransferDirection := if q.devToMem then .devToMem else .memToDev

/-- A request that passes the check of the ioctl, its pages mapped at `addrs`, and the channel
that `mtdma_xfer` has configured for it. -/
structure Ready (q : MtdmaRw) (addrs : List U64) (ch : MtdmaChan) : Prop where
  size : 1 ≤ q.size
  fits : ∃ s, q.Fits s
  addrs : addrs.length = q.sgs.toNat
  configured : ch.configured = true
  dir : ch.dir = q.direction
  config : ∃ junk, ch.config = q.slaveConfig junk
  llMax : ch.info.llMax ≠ 0

/-- A burst for an entry whose bytes are those of the buffer from byte `c` on. -/
theorem bytes_burstOf (addrs : List U64) {ch : MtdmaChan} (hdir : ch.dir = q.direction)
    (sg : SgEntry) (c : Nat)
    (haddr : ∀ t, t < sg.dmaLen.toNat →
      sg.dmaAddress + BitVec.ofNat 64 t = q.userAddr addrs (c + t)) :
    (ch.burstOf sg (q.deviceByte c)).bytes =
      (List.range' c sg.dmaLen.toNat).map (q.wanted addrs) := by
  have hdev : ∀ t : Nat, q.deviceByte c + (t : U64) = q.deviceByte (c + t) := fun t => by
    rw [deviceByte, deviceByte, BitVec.add_assoc, BitVec.ofNat_add]
    rfl
  rw [MtdmaBurst.bytes, burstOf_sz, block, List.range'_eq_map_range, List.map_map]
  refine List.map_congr_left fun t ht => ?_
  have huser := haddr t (List.mem_range.mp ht)
  rw [Function.comp, wanted]
  unfold burstOf
  rw [hdir, direction]
  cases q.devToMem with
  | true => exact Prod.ext (hdev t) huser
  | false => exact Prod.ext huser (hdev t)

/-- The entries from page `k` on move the bytes from there on, and none is empty. -/
theorem bytes_runOn (addrs : List U64) {ch : MtdmaChan} (hdir : ch.dir = q.direction)
    (hpos : 0 < q.size.toNat) (hsize : q.size.toNat < 0x100000000) (n k : Nat) (left : U64)
    (hk : k + n = q.sgs.toNat) (hleft : left.toNat = q.size.toNat - q.covered k) :
    let bursts := ch.runOn (q.deviceByte (q.covered k))
      ((Loop.rounds (q.sgRound fun k => addrs.getD k 0) n k left).1.map sgEntry)
    bursts.flatMap MtdmaBurst.bytes =
        (List.range' (q.covered k) (q.size.toNat - q.covered k)).map (q.wanted addrs) ∧
      ∀ b ∈ bursts, b.sz ≠ 0 := by
  induction n generalizing k left with
  | zero =>
      have hend := covered_sgs hsize
      rw [show k = q.sgs.toNat from hk, hend, Nat.sub_self]
      exact ⟨rfl, nofun⟩
  | succ n ih =>
      have hlt : k < q.sgs.toNat := by omega
      obtain ⟨hpage, hne, hin, hoff, hlen, hrest⟩ :=
        @sgRound_spec _ q (fun k => addrs.getD k 0) k left hpos hsize hlt hleft
      have hstart := covered_of_lt hsize hlt
      have hmod := q.offset_toNat
      have hle : q.covered k ≤ q.covered (k + 1) ∧ q.covered (k + 1) ≤ q.size.toNat := by
        simp only [covered]
        omega
      simp only [Loop.rounds_succ, List.map_cons, runOn, List.flatMap_cons, List.forall_mem_cons]
      generalize q.sgRound (fun k => addrs.getD k 0) k left = r at *
      -- the entry has the bytes from `covered k` to `covered (k + 1)`
      have hfirst := bytes_burstOf addrs hdir (sgEntry r.1) (q.covered k)
        fun t ht => by
          replace ht : t < r.1.length.toNat := ht
          have hindex :
              (q.userbuf.toNat + (q.covered k + t)) / 4096 - q.userbuf.toNat / 4096 = k := by omega
          have hplace : (q.userbuf.toNat + (q.covered k + t)) % 4096 = r.1.offset.toNat + t := by
            omega
          simp only [sgEntry, userAddr, userByte, hindex, hplace]
          rw [hpage, BitVec.ofNat_add, BitVec.ofNat_toNat, BitVec.add_assoc]
      have hnext : q.deviceByte (q.covered k) + (sgEntry r.1).dmaLen.setWidth 64 =
          q.deviceByte (q.covered (k + 1)) := by
        have hsum : q.covered (k + 1) = q.covered k + r.1.length.toNat := by omega
        rw [deviceByte, deviceByte, hsum, BitVec.ofNat_add, BitVec.ofNat_toNat, BitVec.add_assoc]
        rfl
      obtain ⟨hbytes, hsz⟩ := ih (k + 1) r.2 (by omega) hrest
      rw [hnext]
      refine ⟨?_, ?_, hsz⟩
      swap
      · rw [burstOf_sz]
        exact fun h0 => hne.ne' (congrArg BitVec.toNat h0)
      rw [hfirst, hbytes, ← List.map_append]
      congr 1
      have happ := List.range'_append_1 (s := q.covered k) (m := (sgEntry r.1).dmaLen.toNat)
        (n := q.size.toNat - q.covered (k + 1))
      have hlen' : (sgEntry r.1).dmaLen.toNat = q.covered (k + 1) - q.covered k := hlen
      rw [hlen', show q.covered k + (q.covered (k + 1) - q.covered k) = q.covered (k + 1) by omega,
        show q.covered (k + 1) - q.covered k + (q.size.toNat - q.covered (k + 1)) =
          q.size.toNat - q.covered k by omega] at happ
      rw [hlen', happ]

theorem Ready.size_lt {ch : MtdmaChan} (h : q.Ready addrs ch) : q.size.toNat < 0x100000000 := by
  obtain ⟨s, hfits⟩ := h.fits
  exact hfits.size_lt

/-- The configured address is that of the first byte. -/
theorem Ready.base {ch : MtdmaChan} (h : q.Ready addrs ch) :
    ch.base = q.deviceByte (q.covered 0) := by
  obtain ⟨junk, hconfig⟩ := h.config
  rw [covered_zero, deviceByte, MtdmaChan.base, MtdmaChan.deviceAddr, h.dir, hconfig, direction,
    slaveConfig]
  cases q.devToMem with
  | true => exact (add_zero q.laddr).symm
  | false => exact (add_zero q.laddr).symm

/-- A request that is ready gets a descriptor with the bytes of the user's buffer. -/
theorem Ready.moved {ch : MtdmaChan} (h : q.Ready addrs ch) :
    ∃ d, ch.mtdmaDeviceTransfer (sgEntries q.size q.offset addrs) (q.sgs.setWidth 32) true =
        some d ∧
      ∀ (m : ChanMem) (fuel : Nat) (chunks : List (MtdmaChunk × Lli)),
        chunks.map Prod.fst = d.chunks → ch.info.llMax.toNat ≤ fuel →
        movedChunks ch.info fuel m chunks =
          some ((List.range q.size.toNat).map (q.wanted addrs)) := by
  have hlt := h.size_lt
  have hpos : 0 < q.size.toNat := h.size
  have hsgs := sgs_toNat hlt
  have hoff := q.offset_lt
  have hlen : (q.sgs.setWidth 32).toNat = q.sgs.toNat := by
    rw [BitVec.toNat_setWidth]
    omega
  have hcount : (q.buildSg fun k => addrs.getD k 0).length = q.sgs.toNat := Loop.length_rounds ..
  have hentries := sgEntries_eq h.addrs
  have htake : (sgEntries q.size q.offset addrs).take (q.sgs.setWidth 32).toNat =
      sgEntries q.size q.offset addrs :=
    List.take_of_length_le (by rw [hentries, List.length_map, hcount, hlen])
  have hne : sgEntries q.size q.offset addrs ≠ [] := fun h0 => by
    have hzero := congrArg List.length h0
    rw [hentries, List.length_map, hcount, List.length_nil] at hzero
    omega
  have hone : ¬q.sgs.setWidth 32 < 1 := by
    rw [BitVec.lt_def, hlen]
    simp only [BitVec.ofNat_eq_ofNat, BitVec.toNat_ofNat]
    omega
  obtain ⟨d, hd⟩ : ∃ d, ch.mtdmaDeviceTransfer (sgEntries q.size q.offset addrs)
      (q.sgs.setWidth 32) true = some d := by
    simp only [mtdmaDeviceTransfer, h.configured, Bool.not_true, Bool.false_eq_true, if_false,
      if_neg hone]
    exact ⟨_, rfl⟩
  refine ⟨d, hd, fun m fuel chunks hchunks hfuel => ?_⟩
  have hscat := scattered_of_transfer hd h.llMax hne
  have hbursts := hscat.bursts
  rw [htake, hentries, h.base] at hbursts
  obtain ⟨hbytes, hsz⟩ := bytes_runOn addrs h.dir hpos hlt q.sgs.toNat 0 q.size
    (Nat.zero_add _) (by rw [covered_zero, Nat.sub_zero])
  rw [buildSg] at hbursts
  rw [← hbursts] at hbytes hsz
  rw [movedChunks_eq ch.info m hfuel (fun c hc => hscat.chunk c.1 ?_) (by rw [hchunks]; exact hsz),
    hchunks, hbytes, covered_zero, Nat.sub_zero, List.range_eq_range']
  rw [← hchunks]
  exact List.mem_map.mpr ⟨c, hc, rfl⟩

/-- Pages that are mapped each at a place of its own. -/
def PagesApart (addrs : List U64) : Prop := addrs.Nodup ∧ ∀ a ∈ addrs, a.toNat % 4096 = 0

/-- The page and the place of a byte. -/
theorem Ready.userAddr_toNat {ch : MtdmaChan} (h : q.Ready addrs ch) (hpages : PagesApart addrs)
    {j : Nat} (hj : j < q.size.toNat) :
    ∃ hk : (q.userbuf.toNat + j) / 4096 - q.userbuf.toNat / 4096 < addrs.length,
      (q.userAddr addrs j).toNat =
        (addrs[(q.userbuf.toNat + j) / 4096 - q.userbuf.toNat / 4096]).toNat +
          (q.userbuf.toNat + j) % 4096 := by
  have hsgs := sgs_toNat h.size_lt
  have hoff := q.offset_toNat
  have hk : (q.userbuf.toNat + j) / 4096 - q.userbuf.toNat / 4096 < addrs.length := by
    rw [h.addrs, hsgs]
    omega
  refine ⟨hk, ?_⟩
  have halign := hpages.2 _ (List.getElem_mem hk)
  have hlt := (addrs[(q.userbuf.toNat + j) / 4096 - q.userbuf.toNat / 4096]).isLt
  have hget : addrs.getD ((q.userbuf.toNat + j) / 4096 - q.userbuf.toNat / 4096) 0 =
      addrs[(q.userbuf.toNat + j) / 4096 - q.userbuf.toNat / 4096] := by simp [hk]
  simp only [userAddr, userByte, hget]
  rw [BitVec.toNat_add, BitVec.toNat_ofNat]
  omega

/-- Then the bytes of the buffer have addresses of their own. -/
theorem Ready.userAddr_inj {ch : MtdmaChan} (h : q.Ready addrs ch) (hpages : PagesApart addrs)
    {i j : Nat} (hi : i < q.size.toNat) (hj : j < q.size.toNat)
    (heq : q.userAddr addrs i = q.userAddr addrs j) : i = j := by
  obtain ⟨hki, haddri⟩ := h.userAddr_toNat hpages hi
  obtain ⟨hkj, haddrj⟩ := h.userAddr_toNat hpages hj
  have hi0 := hpages.2 _ (List.getElem_mem hki)
  have hj0 := hpages.2 _ (List.getElem_mem hkj)
  have hpage : addrs[(q.userbuf.toNat + i) / 4096 - q.userbuf.toNat / 4096] =
      addrs[(q.userbuf.toNat + j) / 4096 - q.userbuf.toNat / 4096] := by
    apply BitVec.eq_of_toNat_eq
    rw [heq] at haddri
    omega
  have hindex := (List.getElem_inj hpages.1).mp hpage
  rw [heq, hpage] at haddri
  omega

/-- The bytes on the device's side have addresses of their own. -/
theorem deviceByte_inj {i j : Nat} (hsize : q.size.toNat < 0x100000000) (hi : i < q.size.toNat)
    (hj : j < q.size.toNat) (heq : q.deviceByte i = q.deviceByte j) : i = j := by
  have hsub := add_left_cancel (G := U64) heq
  have hnat := congrArg BitVec.toNat hsub
  rw [BitVec.toNat_ofNat, BitVec.toNat_ofNat] at hnat
  omega

/-- A transfer moves these byte pairs, whatever is in the channel before. -/
def Moves (q : MtdmaRw) (addrs : List U64) (ch : MtdmaChan) (pairs : List (U64 × U64)) : Prop :=
  ∃ d, ch.mtdmaDeviceTransfer (sgEntries q.size q.offset addrs) (q.sgs.setWidth 32) true = some d ∧
    ∀ regs fuel (chunks : List (MtdmaChunk × Lli)), chunks.map Prod.fst = d.chunks →
      ch.info.llMax.toNat ≤ fuel → movedChunks ch.info fuel regs chunks = some pairs

/-- **There and back**: what a request writes to the device, another one for as many bytes at the
same address reads back into its buffer, byte for byte; the first one changes nothing else on
the device, the second one nothing else in memory. -/
theorem write_read_back {q q' : MtdmaRw} {addrs addrs' : List U64} {ch ch' : MtdmaChan}
    (h : q.Ready addrs ch) (h' : q'.Ready addrs' ch') (hwrite : q.devToMem = false)
    (hread : q'.devToMem = true) (hladdr : q'.laddr = q.laddr) (hsize : q'.size = q.size)
    (hpages : PagesApart addrs') {β : Type} (host dev : U64 → β) :
    ∃ pairs pairs', q.Moves addrs ch pairs ∧ q'.Moves addrs' ch' pairs' ∧
      (∀ j, j < q.size.toNat →
        store (store host pairs dev) pairs' host (q'.userAddr addrs' j) =
          host (q.userAddr addrs j)) ∧
      (∀ a, (∀ j, j < q.size.toNat → q.deviceByte j ≠ a) → store host pairs dev a = dev a) ∧
      ∀ a, (∀ j, j < q.size.toNat → q'.userAddr addrs' j ≠ a) →
        store (store host pairs dev) pairs' host a = host a := by
  obtain ⟨d, hd, hmoved⟩ := h.moved
  obtain ⟨d', hd', hmoved'⟩ := h'.moved
  have hwanted : q.wanted addrs = fun j => (q.userAddr addrs j, q.deviceByte j) := by
    funext j
    rw [wanted, hwrite]
    rfl
  have hwanted' : q'.wanted addrs' = fun j => (q.deviceByte j, q'.userAddr addrs' j) := by
    funext j
    rw [wanted, hread, deviceByte, deviceByte, hladdr]
    rfl
  rw [hwanted] at hmoved
  rw [hwanted', hsize] at hmoved'
  refine ⟨_, _, ⟨d, hd, hmoved⟩, ⟨d', hd', hmoved'⟩, fun j hj => ?_, fun a ha => ?_,
    fun a ha => ?_⟩
  · have hinj : ∀ i j, i < q.size.toNat → j < q.size.toNat →
        q'.userAddr addrs' i = q'.userAddr addrs' j → i = j := fun i j hi hj =>
      h'.userAddr_inj hpages (by rw [hsize]; exact hi) (by rw [hsize]; exact hj)
    rw [store_range hinj _ _ hj,
      store_range (fun i j => deviceByte_inj h.size_lt) host dev hj]
  · refine store_of_notMem fun p hp => ?_
    obtain ⟨j, hj, rfl⟩ := List.mem_map.mp hp
    exact ha j (List.mem_range.mp hj)
  · refine store_of_notMem fun p hp => ?_
    obtain ⟨j, hj, rfl⟩ := List.mem_map.mp hp
    exact ha j (List.mem_range.mp hj)

/-- Five thousand bytes, from two pages to two others. -/
theorem write_read_back_twoPages :
    let q : MtdmaRw := ⟨0x1000, 5000, 1, 0, 1, 0x7800⟩
    let q' : MtdmaRw := ⟨0x1000, 5000, 1, 0, 2, 0x9000⟩
    let ch := { twoSlotChan with config := q.slaveConfig 0 }
    let ch' := { twoSlotChan with dir := .devToMem, config := q'.slaveConfig 0 }
    ∃ pairs pairs', q.Moves [0x50000, 0x30000] ch pairs ∧ q'.Moves [0x90000, 0xa0000] ch' pairs' ∧
      (∀ j, j < q.size.toNat →
        store (store BitVec.toNat pairs fun _ => 0) pairs' BitVec.toNat
          (q'.userAddr [0x90000, 0xa0000] j) = (q.userAddr [0x50000, 0x30000] j).toNat) ∧
      (∀ a, (∀ j, j < q.size.toNat → q.deviceByte j ≠ a) →
        store BitVec.toNat pairs (fun _ => 0) a = 0) ∧
      ∀ a, (∀ j, j < q.size.toNat → q'.userAddr [0x90000, 0xa0000] j ≠ a) →
        store (store BitVec.toNat pairs fun _ => 0) pairs' BitVec.toNat a = a.toNat := by
  intro q q' ch ch'
  have h : q.Ready [0x50000, 0x30000] ch :=
    ⟨by decide, ⟨5032, by decide⟩, by decide, rfl, rfl, ⟨0, rfl⟩, by decide⟩
  have h' : q'.Ready [0x90000, 0xa0000] ch' :=
    ⟨by decide, ⟨5032, by decide⟩, by decide, rfl, rfl, ⟨0, rfl⟩, by decide⟩
  have hwrite : q.devToMem = false := by decide
  have hread : q'.devToMem = true := by decide
  have hpages : PagesApart [0x90000, 0xa0000] := ⟨by decide, by simp⟩
  exact write_read_back h h' hwrite hread rfl rfl hpages BitVec.toNat fun _ => 0

end MtdmaRw

end MtEmu
