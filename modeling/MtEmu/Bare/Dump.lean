import MtEmu.Bare.Info

/-!
# MtEmu.Bare.Dump

The tool that prints the descriptor lists, `scripts/dump_desc.c`, beside the layout of
`build_dma_info`.

The tool steps by lists of 65535 descriptors and takes the lists of a channel to be side by
side; the driver's lists have 65536, and those for reading come after all those for
writing.  `dump_desc_agrees_iff` says what the tool reads of the driver's lists and when its
own ranges are apart.
-/

namespace MtEmu

/-! ## the tool -/

/-- `MAP_MASK`. -/
def mapMask : U64 := 4095

/-- `MAP_SIZE`. -/
def mapSize : Nat := 0x20000000

/-- What `main` maps at `desc_base`. -/
def dumpBase (bar2Base : U64) : U64 := (bar2Base + 0x80000000) &&& ~~~mapMask

/-- `pdesc_ch_wr` and `pdesc_ch_rd`, as what they are mapped to. -/
def pdescCh (bar2Base : U64) (ch : U32) : Side → U64
  | .wr => dumpBase bar2Base + (ch * 65535 * 32 * 2).signExtend 64
  | .rd => dumpBase bar2Base + (ch * 65535 * 32 * 2).signExtend 64 + 65535 * 32

/-- The descriptor of a round of `print_desc`. -/
def dumpDesc (bar2Base : U64) (ch : U32) (side : Side) (i : U32) : U64 :=
  pdescCh bar2Base ch side + 32 * i.signExtend 64

/-- The bytes that `print_desc` reads; the counter and `desc_num` are `int`. -/
def dumpReads (bar2Base : U64) (ch : U32) (side : Side) (descNum : U32) : Set U64 :=
  { a | ∃ i : Nat, (i : Int) < descNum.toInt ∧
      ∃ j < 32, a = dumpDesc bar2Base ch side (BitVec.ofNat 32 i) + BitVec.ofNat 64 j }

/-- The descriptor in the driver's list, in BAR 2. -/
def slotDesc (bar2Base : U64) (dmaInfo : MtdmaInfo) (side : Side) (ch idx : Nat) : U64 :=
  bar2Base + (dmaInfo.ch side ch).llLaddr + 32 * BitVec.ofNat 64 idx

/-! ## offsets -/

/-- The place of a list in the tool's row of lists. -/
def dumpSlot (ch : Nat) : Side → Nat
  | .wr => 2 * ch
  | .rd => 2 * ch + 1

theorem dumpSlot_lt {ch : Nat} (hch : ch < 64) (side : Side) : dumpSlot ch side < 128 := by
  cases side <;> simp only [dumpSlot] <;> omega

theorem dumpSlot_inj {ch ch' : Nat} {side side' : Side} :
    dumpSlot ch side = dumpSlot ch' side' ↔ side = side' ∧ ch = ch' := by
  cases side <;> cases side' <;>
    simp only [dumpSlot, reduceCtorEq, true_and, false_and, iff_false] <;> omega

/-- The bytes of `i` descriptors. -/
theorem descs_eq (i : Nat) : 32 * BitVec.ofNat 64 i = BitVec.ofNat 64 (32 * i) := by
  rw [BitVec.ofNat_mul]
  rfl

/-- A descriptor behind the mapped base. -/
theorem dumpDesc_eq (bar2Base : U64) {ch i : Nat} (hch : ch < 64) (side : Side)
    (hi : i < 0x80000000) :
    dumpDesc bar2Base (BitVec.ofNat 32 ch) side (BitVec.ofNat 32 i) =
      dumpBase bar2Base + BitVec.ofNat 64 (65535 * 32 * dumpSlot ch side + 32 * i) := by
  have hlists : (BitVec.ofNat 32 ch * 65535 * 32 * 2 : U32).toNat = 65535 * 64 * ch := by
    bv_omega
  have hwide : (BitVec.ofNat 32 ch * 65535 * 32 * 2 : U32).signExtend 64 =
      BitVec.ofNat 64 (65535 * 64 * ch) := by
    apply BitVec.eq_of_toNat_eq
    rw [toNat_signExtend_of_lt (by omega), hlists, BitVec.toNat_ofNat]
    omega
  have hiwide : (BitVec.ofNat 32 i).signExtend 64 = BitVec.ofNat 64 i := signExtend_ofNat hi
  have hsize : (65535 * 32 : U64) = BitVec.ofNat 64 (65535 * 32) := rfl
  cases side with
  | wr =>
      have hsum : 65535 * 32 * (2 * ch) = 65535 * 64 * ch := by omega
      rw [dumpDesc, pdescCh, hwide, hiwide, descs_eq, dumpSlot, hsum, BitVec.ofNat_add,
        BitVec.add_assoc]
  | rd =>
      have hsum : 65535 * 32 * (2 * ch + 1) + 32 * i = 65535 * 64 * ch + 65535 * 32 + 32 * i := by
        omega
      rw [dumpDesc, pdescCh, hwide, hiwide, descs_eq, dumpSlot, hsum, hsize, BitVec.ofNat_add,
        BitVec.ofNat_add, BitVec.add_assoc, BitVec.add_assoc, BitVec.add_assoc]

/-- It lies in what is mapped. -/
theorem dumpDesc_mapped {ch i : Nat} (hch : ch < 64) (side : Side) (hi : i < 65536) :
    65535 * 32 * dumpSlot ch side + 32 * i + 32 ≤ mapSize := by
  have hslot := dumpSlot_lt hch side
  rw [mapSize]
  omega

/-- The mask takes an address to its page. -/
theorem and_not_mapMask (x : U64) : (x &&& ~~~mapMask).toNat = x.toNat - x.toNat % 4096 := by
  have hpage : x &&& ~~~mapMask = x >>> 12 <<< 12 := by
    have hmask : ∀ i < 64, mapMask.getLsbD i = decide (i < 12) := by decide
    apply BitVec.eq_of_getLsbD_eq
    intro i hi
    rw [BitVec.getLsbD_and, BitVec.getLsbD_not, BitVec.getLsbD_shiftLeft,
      BitVec.getLsbD_ushiftRight, hmask i hi]
    by_cases hlow : i < 12
    · simp [hlow]
    · have hback : 12 + (i - 12) = i := by omega
      simp [hlow, hi, hback]
  rw [hpage, BitVec.toNat_shiftLeft, BitVec.toNat_ushiftRight, Nat.shiftRight_eq_div_pow,
    Nat.shiftLeft_eq]
  omega

/-- Offsets from a page and from an address in it. -/
theorem page_add_eq_iff (x : U64) {d e : Nat} (hd : d < 0x100000000) (he : e < 0x100000000) :
    (x &&& ~~~mapMask) + BitVec.ofNat 64 d = x + BitVec.ofNat 64 e ↔ d = e + x.toNat % 4096 := by
  have hx := x.isLt
  have hdmod : d % 2 ^ 64 = d := Nat.mod_eq_of_lt (by omega)
  have hemod : e % 2 ^ 64 = e := Nat.mod_eq_of_lt (by omega)
  rw [← BitVec.toNat_inj, BitVec.toNat_add, BitVec.toNat_add, and_not_mapMask, BitVec.toNat_ofNat,
    BitVec.toNat_ofNat, hdmod, hemod]
  omega

/-- A descriptor of the driver's list of a channel. -/
theorem slotDesc_eq (bar2Base mtdmaVaddr rgVaddr llVaddr : U64) (stale : MtdmaInfo) (side : Side)
    (ch : Fin 64) (idx : Nat) :
    slotDesc bar2Base (buildDmaInfo mtdmaVaddr rgVaddr llVaddr 64 64 stale) side ch idx =
      bar2Base + 0x80000000 +
        BitVec.ofNat 64 (0x200000 * (View.pf side ch).deviceSlot + 32 * idx) := by
  have hlist : ((buildDmaInfo mtdmaVaddr rgVaddr llVaddr 64 64 stale).ch side ch).llLaddr =
      0x80000000 + BitVec.ofNat 64 (0x200000 * (View.pf side ch).deviceSlot) := by
    have hch := ch.isLt
    have hoff : ((buildDmaInfo mtdmaVaddr rgVaddr llVaddr 64 64 stale).ch side ch).llLaddr =
        llBefore ch + (View.pf side ch).off := by
      cases side <;> simp [MtdmaInfo.ch, buildDmaInfo, chanInfo] <;> rfl
    apply BitVec.eq_of_toNat_eq
    rw [hoff, BitVec.toNat_add, llBefore_toNat, BitVec.toNat_add, BitVec.toNat_ofNat]
    cases side <;> simp only [View.off, View.pair, View.deviceSlot, BitVec.reduceToNat] <;> omega
  rw [slotDesc, hlist, descs_eq, BitVec.ofNat_add, BitVec.add_assoc, BitVec.add_assoc,
    BitVec.add_assoc]

/-! ## the two layouts -/

/-- The tool reads a descriptor of the driver's list for the writes of channel 0 only. -/
theorem dumpDesc_eq_slotDesc_iff (bar2Base mtdmaVaddr rgVaddr llVaddr : U64) (stale : MtdmaInfo)
    (side : Side) (ch : Fin 64) (idx : Fin 65536) :
    dumpDesc bar2Base (BitVec.ofNat 32 ch) side (BitVec.ofNat 32 idx) =
        slotDesc bar2Base (buildDmaInfo mtdmaVaddr rgVaddr llVaddr 64 64 stale) side ch idx ↔
      side = .wr ∧ ch = 0 ∧ bar2Base.toNat % 4096 = 0 := by
  have hch := ch.isLt
  have hidx := idx.isLt
  have hslot := dumpSlot_lt hch side
  have hdevice := (View.pf side ch).deviceSlot_lt
  have hpage : (bar2Base + 0x80000000).toNat % 4096 = bar2Base.toNat % 4096 := by
    bv_omega
  rw [dumpDesc_eq bar2Base hch side (by omega), slotDesc_eq, dumpBase,
    page_add_eq_iff _ (by omega) (by omega), hpage, Fin.ext_iff]
  have hzero : (0 : Fin 64).val = 0 := rfl
  rw [hzero]
  -- a list of the tool starts 32 bytes earlier for each list in front of it
  cases side <;>
    simp only [dumpSlot, View.deviceSlot, reduceCtorEq, true_and, false_and, iff_false] <;> omega

/-- The tool's reads, by their offsets. -/
theorem mem_dumpReads {bar2Base : U64} {ch : Nat} (hch : ch < 64) {side : Side} {descNum : U32}
    {a : U64} : a ∈ dumpReads bar2Base (BitVec.ofNat 32 ch) side descNum ↔
      ∃ i : Nat, (i : Int) < descNum.toInt ∧ ∃ j < 32,
        a = dumpBase bar2Base + BitVec.ofNat 64 (65535 * 32 * dumpSlot ch side + 32 * i + j) := by
  have hint : descNum.toInt < 0x80000000 := by
    have hlt := BitVec.toInt_lt (x := descNum)
    omega
  refine exists_congr fun i => and_congr_right fun hi => exists_congr fun j =>
    and_congr_right fun _ => ?_
  rw [dumpDesc_eq bar2Base hch side (by omega), BitVec.add_assoc, ← BitVec.ofNat_add]

/-- The tool's ranges are apart for counts that fit its lists. -/
theorem dumpReads_disjoint_iff (bar2Base : U64) (descNum : U32) :
    (∀ side side' (ch ch' : Fin 64), (side, ch) ≠ (side', ch') →
      Disjoint (dumpReads bar2Base (BitVec.ofNat 32 ch) side descNum)
        (dumpReads bar2Base (BitVec.ofNat 32 ch') side' descNum)) ↔
      descNum.toInt ≤ 65535 := by
  constructor
  · intro h
    by_contra hmany
    have hwr : dumpBase bar2Base + BitVec.ofNat 64 (65535 * 32) ∈
        dumpReads bar2Base (BitVec.ofNat 32 0) .wr descNum :=
      (mem_dumpReads (by decide)).mpr ⟨65535, by omega, 0, by decide, rfl⟩
    have hrd : dumpBase bar2Base + BitVec.ofNat 64 (65535 * 32) ∈
        dumpReads bar2Base (BitVec.ofNat 32 0) .rd descNum :=
      (mem_dumpReads (by decide)).mpr ⟨0, by omega, 0, by decide, rfl⟩
    exact Set.disjoint_left.mp (h .wr .rd 0 0 (by simp)) hwr hrd
  · intro hfew side side' ch ch' hne
    have hslot := dumpSlot_lt ch.isLt side
    have hslot' := dumpSlot_lt ch'.isLt side'
    have hapart : dumpSlot ch side ≠ dumpSlot ch' side' := fun heq => by
      obtain ⟨hside, hch⟩ := dumpSlot_inj.mp heq
      exact hne (Prod.ext hside (Fin.ext hch))
    rw [Set.disjoint_left]
    intro a ha ha'
    obtain ⟨i, hi, j, hj, hat⟩ := (mem_dumpReads ch.isLt).mp ha
    obtain ⟨i', hi', j', hj', hat'⟩ := (mem_dumpReads ch'.isLt).mp ha'
    have heq : BitVec.ofNat 64 (65535 * 32 * dumpSlot ch side + 32 * i + j) =
        BitVec.ofNat 64 (65535 * 32 * dumpSlot ch' side' + 32 * i' + j') :=
      BitVec.add_right_inj _ |>.mp (hat.symm.trans hat')
    rw [← BitVec.toNat_inj, BitVec.toNat_ofNat, BitVec.toNat_ofNat, Nat.mod_eq_of_lt (by omega),
      Nat.mod_eq_of_lt (by omega)] at heq
    omega

/-- **Tool and driver**: of the descriptors of the driver's lists the tool reads those that
channel 0 writes with, when the BAR starts at a page, and no others; its ranges are apart
when it prints at most 65535 descriptors of a list. -/
theorem dump_desc_agrees_iff (bar2Base mtdmaVaddr rgVaddr llVaddr : U64) (stale : MtdmaInfo) :
    (∀ side (ch : Fin 64) (idx : Fin 65536),
      dumpDesc bar2Base (BitVec.ofNat 32 ch) side (BitVec.ofNat 32 idx) =
          slotDesc bar2Base (buildDmaInfo mtdmaVaddr rgVaddr llVaddr 64 64 stale) side ch idx ↔
        side = .wr ∧ ch = 0 ∧ bar2Base.toNat % 4096 = 0) ∧
    ∀ descNum : U32,
      (∀ side side' (ch ch' : Fin 64), (side, ch) ≠ (side', ch') →
        Disjoint (dumpReads bar2Base (BitVec.ofNat 32 ch) side descNum)
          (dumpReads bar2Base (BitVec.ofNat 32 ch') side' descNum)) ↔
        descNum.toInt ≤ 65535 :=
  ⟨dumpDesc_eq_slotDesc_iff bar2Base mtdmaVaddr rgVaddr llVaddr stale,
    dumpReads_disjoint_iff bar2Base⟩

/-- The list by which channel 1 writes, and the one by which channel 0 reads. -/
theorem dump_desc_drifts :
    let dmaInfo := buildDmaInfo 0 0 0 64 64 ⟨0, 0, fun _ => default, fun _ => default⟩
    dumpDesc 0x4000000000 1 .wr 0 ≠ slotDesc 0x4000000000 dmaInfo .wr 1 0 ∧
      dumpDesc 0x4000000000 0 .rd 0 ≠ slotDesc 0x4000000000 dmaInfo .rd 0 0 := by
  decide

end MtEmu
