import MtEmu.Bare.Links

/-!
# MtEmu.Bare.Counts

The counts a block-mode transfer announces.

The hardware is told how many descriptors a list has before it gets there: the
first list's count stands in `LBAR_BASIC`, every other one in `desc_op` of the
last descriptor of the block before (`nxt_lb_desc_acnt` of `struct desc_word0`,
`dump_desc.c`).  The driver writes the block's own count there
(`firstRounds_lastDescOp`, `laterRounds_lastDescOp`), so what is announced is right when
all blocks have the same number of list descriptors (`counts_announced_iff`).
-/

namespace MtEmu

open Loop

/-! ## what a descriptor announces -/

/-- `nxt_lb_desc_acnt`. -/
def nxtLbDescAcnt (descOp : U32) : Nat := (descOp >>> 16).toNat

/-- `lba_type_en`. -/
def lbaTypeEn (descOp : U32) : Bool := descOp.getLsbD 0

/-- The counts of a transfer are announced: the list descriptors of the first
block, those behind the one in the registers, in `LBAR_BASIC`; those of a later
block in the last descriptor of the block before; and behind the last block no
further list. -/
structure CountsAnnounced (l : DescList) : Prop where
  first : ∀ b, l.blocks[0]? = some b → nxtLbDescAcnt l.lbarBasic = b.tail.length
  next : ∀ j b b', l.blocks[j]? = some b → l.blocks[j + 1]? = some b' →
    ∃ en, b[b.length - 1]? = some en ∧ lbaTypeEn en.2.descOp = true ∧
      nxtLbDescAcnt en.2.descOp = b'.length
  last : ∀ b, l.blocks[l.blocks.length - 1]? = some b →
    ∃ en, b[b.length - 1]? = some en ∧ en.2.descOp = 0

/-- The calls whose announced counts are right: a random split has something to
split and fits its scratch table, a count fits its 16 bits, and all blocks have the
same number of list descriptors. -/
structure CountsEven (x : BareXfer) (draws : Draws) : Prop where
  split : x.randFlag = true →
    x.size ≠ 0 ∧ ∀ j < x.blockCnt.toNat, pieceCount (draws (BitVec.ofNat 32 j)) x.size ≤ blockCap
  bits : listCount x draws 0 < 65536
  even : ∀ j, j + 1 < x.blockCnt.toNat → listCount x draws j = listCount x draws (j + 1)

theorem nxtLbDescAcnt_eq (n : U32) : nxtLbDescAcnt (n * 65536 + 1) = n.toNat % 65536 :=
  descOp_count n

theorem lbaTypeEn_eq (n : U32) : lbaTypeEn (n * 65536 + 1) = true := by
  have hodd : (n * 65536 + 1).toNat % 2 = 1 := by
    rw [BitVec.toNat_add, BitVec.toNat_mul]
    simp
    omega
  rw [lbaTypeEn, BitVec.getLsbD, Nat.testBit_zero, hodd]
  rfl

/-! ## the last descriptor of a block -/

section Rounds

variable {x : BareXfer} {info : MtdmaChanInfo} {junk : Junk} {draws : Draws}

/-- What the last descriptor of block `j` says. -/
theorem lastDescOp_eq {j : Nat} (hj : j < x.blockCnt.toNat) (st : BlockState) (n : U32)
    (sizes : Nat → U32) :
    (blockEnv x info (BitVec.ofNat 32 j) st n sizes).lastDescOp =
      if j + 1 < x.blockCnt.toNat then n * 65536 + 1 else 0 := by
  have hlt := x.blockCnt.isLt
  have hne : x.blockCnt ≠ 0 := fun h => by rw [h] at hj; exact absurd hj (Nat.not_lt_zero j)
  have hlast : BitVec.ofNat 32 j = x.blockCnt - 1 ↔ j + 1 = x.blockCnt.toNat := by
    rw [← BitVec.toNat_inj, toNat_sub_one hne, BitVec.toNat_ofNat, Nat.mod_eq_of_lt (by omega)]
    omega
  rw [ListEnv.lastDescOp]
  by_cases h : j + 1 < x.blockCnt.toNat
  · rw [if_pos h, if_pos (by rw [ne_eq, hlast]; omega)]
  · rw [if_neg h, if_neg (by rw [ne_eq, not_not, hlast]; omega)]

/-- Block `j` in counts: its length and what its last descriptor says. -/
structure BlockCounts (x : BareXfer) (draws : Draws) (j : Nat) (b : List Entry) : Prop where
  length : b.length = listCount x draws j + if j = 0 then 1 else 0
  lastOp : ∃ n : U32, n.toNat = listCount x draws j ∧ ∃ en, b[b.length - 1]? = some en ∧
    en.2.descOp = if j + 1 < x.blockCnt.toNat then n * 65536 + 1 else 0

/-- One round of the loop over blocks. -/
theorem blockCounts_of_round (hsize : x.randFlag = true → x.size ≠ 0) {j : Nat}
    (hj : j < x.blockCnt.toNat) {st st' : BlockState} {b : List Entry}
    (h : blockRound x info junk draws (BitVec.ofNat 32 j) st = some (b, st')) :
    BlockCounts x draws j b := by
  have hlt : j < 2 ^ 32 := hj.trans x.blockCnt.isLt
  cases Nat.eq_zero_or_pos j with
  | inl h0 =>
      subst h0
      obtain ⟨n, sizes, hc, _, rfl, _⟩ := blockRound_zero.mp h
      obtain ⟨hn, _⟩ := counts_eq hsize hlt hc
      have hlen : (firstRounds x info st n sizes).1.length = n.toNat + 1 := length_firstRounds ..
      obtain ⟨en, hen⟩ : ∃ en, (firstRounds x info st n sizes).1[n.toNat]? = some en :=
        ⟨_, List.getElem?_eq_getElem (by omega)⟩
      refine ⟨by rw [hlen, hn, if_pos rfl], n, hn, en, ?_, ?_⟩
      · rw [hlen, Nat.add_sub_cancel, hen]
      · exact (firstRounds_lastDescOp st n sizes hen).trans (lastDescOp_eq hj st n sizes)
  | inr hpos =>
      obtain ⟨n, sizes, hc, hn0, rfl, _⟩ := (blockRound_later (ofNat_ne_zero hpos hlt)).mp h
      obtain ⟨hn, _⟩ := counts_eq hsize hlt hc
      have hlen : (laterRounds x info (BitVec.ofNat 32 j) st n sizes).1.length = n.toNat :=
        length_laterRounds ..
      have hn1 : 0 < n.toNat := BitVec.toNat_pos_of_ne_zero hn0
      obtain ⟨en, hen⟩ :
          ∃ en, (laterRounds x info (BitVec.ofNat 32 j) st n sizes).1[n.toNat - 1]? = some en :=
        ⟨_, List.getElem?_eq_getElem (by omega)⟩
      refine ⟨by rw [hlen, hn, if_neg hpos.ne', Nat.add_zero], n, hn, en, ?_, ?_⟩
      · rw [hlen, hen]
      · exact (laterRounds_lastDescOp _ st sizes hn0 hen).trans (lastDescOp_eq hj st n sizes)

/-! ## the whole transfer -/

/-- A transfer in counts. -/
theorem blockCounts_of_transfer (hsize : x.randFlag = true → x.size ≠ 0) {l : DescList}
    (hl : xferBlock x info junk draws = some l) :
    l.blocks.length = x.blockCnt.toNat ∧
      ∀ j b, l.blocks[j]? = some b → BlockCounts x draws j b := by
  obtain ⟨hlen, sts, _, hblocks⟩ := xferBlock_eq_some hl
  refine ⟨hlen, fun j b hb => ?_⟩
  have hj : j < x.blockCnt.toNat := hlen ▸ (List.getElem?_eq_some_iff.mp hb).1
  exact blockCounts_of_round hsize hj (hblocks j b hb)

/-- `LBAR_BASIC` has the first block's count. -/
theorem lbarBasic_of_transfer (hsize : x.randFlag = true → x.size ≠ 0) {l : DescList}
    (hl : xferBlock x info junk draws = some l) :
    nxtLbDescAcnt l.lbarBasic = listCount x draws 0 % 65536 := by
  simp only [xferBlock, Option.bind_eq_bind, Option.bind_eq_some_iff] at hl
  obtain ⟨⟨n, sizes⟩, hcounts, bs, _, heq⟩ := hl
  obtain rfl := Option.some.inj heq
  rw [nxtLbDescAcnt, lbarBasic_count, (counts_eq (j := 0) hsize (by decide) hcounts).1]

/-- In counts, what is announced is right when all lists are equally long and fit
their 16 bits. -/
theorem countsAnnounced_iff {l : DescList} (hb : x.blockCnt ≠ 0)
    (hlen : l.blocks.length = x.blockCnt.toNat)
    (hblocks : ∀ j b, l.blocks[j]? = some b → BlockCounts x draws j b)
    (hlbar : nxtLbDescAcnt l.lbarBasic = listCount x draws 0 % 65536) :
    CountsAnnounced l ↔ listCount x draws 0 < 65536 ∧
      ∀ j, j + 1 < x.blockCnt.toNat →
        listCount x draws j % 65536 = listCount x draws (j + 1) := by
  have hpos : 0 < x.blockCnt.toNat := BitVec.toNat_pos_of_ne_zero hb
  have hget : ∀ j, j < x.blockCnt.toNat → ∃ b, l.blocks[j]? = some b := fun j hj =>
    ⟨_, List.getElem?_eq_getElem (hlen ▸ hj)⟩
  constructor
  · intro h
    constructor
    · obtain ⟨b, hb0⟩ := hget 0 hpos
      have hfirst := h.first b hb0
      rw [hlbar, List.length_tail, (hblocks 0 b hb0).length, if_pos rfl,
        Nat.add_sub_cancel] at hfirst
      omega
    · intro j hj
      obtain ⟨b, hbj⟩ := hget j (by omega)
      obtain ⟨b', hbj'⟩ := hget (j + 1) hj
      obtain ⟨en, hen, _, hnext⟩ := h.next j b b' hbj hbj'
      obtain ⟨n, hn, en', hen', hop⟩ := (hblocks j b hbj).lastOp
      obtain rfl := Option.some.inj (hen.symm.trans hen')
      rwa [hop, if_pos hj, nxtLbDescAcnt_eq, hn, (hblocks (j + 1) b' hbj').length,
        if_neg (Nat.succ_ne_zero j), Nat.add_zero] at hnext
  · rintro ⟨hbits, heven⟩
    refine ⟨fun b hb0 => ?_, fun j b b' hbj hbj' => ?_, fun b hbl => ?_⟩
    · rw [hlbar, Nat.mod_eq_of_lt hbits, List.length_tail, (hblocks 0 b hb0).length, if_pos rfl,
        Nat.add_sub_cancel]
    · have hj : j + 1 < x.blockCnt.toNat := hlen ▸ (List.getElem?_eq_some_iff.mp hbj').1
      obtain ⟨n, hn, en, hen, hop⟩ := (hblocks j b hbj).lastOp
      rw [if_pos hj] at hop
      refine ⟨en, hen, hop ▸ lbaTypeEn_eq n, ?_⟩
      have hlen' := (hblocks (j + 1) b' hbj').length
      rw [if_neg (Nat.succ_ne_zero j), Nat.add_zero] at hlen'
      rw [hop, nxtLbDescAcnt_eq, hn, heven j hj, hlen']
    · obtain ⟨_, _, en, hen, hop⟩ := (hblocks _ b hbl).lastOp
      exact ⟨en, hen, hop.trans (if_neg (by omega))⟩

/-- A count that fits 16 bits is what comes through them. -/
theorem even_of_announced (hbits : listCount x draws 0 < 65536)
    (hnext : ∀ j, j + 1 < x.blockCnt.toNat →
      listCount x draws j % 65536 = listCount x draws (j + 1)) :
    ∀ j, j + 1 < x.blockCnt.toNat → listCount x draws j = listCount x draws (j + 1) := by
  intro j hj
  have hj' : listCount x draws j < 65536 := by
    cases j with
    | zero => exact hbits
    | succ j => rw [← hnext j (by omega)]; exact Nat.mod_lt _ (by decide)
  rw [← hnext j hj, Nat.mod_eq_of_lt hj']

/-- Equal counts come through the 16 bits if the first one does. -/
theorem listCount_lt_of_even (hbits : listCount x draws 0 < 65536)
    (heven : ∀ j, j + 1 < x.blockCnt.toNat → listCount x draws j = listCount x draws (j + 1)) :
    ∀ j, j < x.blockCnt.toNat → listCount x draws j < 65536 := by
  intro j hj
  induction j with
  | zero => exact hbits
  | succ j ih => rw [← heven j hj]; exact ih (by omega)

/-- A call whose counts are announced has equal ones. -/
theorem countsEven_of_announced (hb : x.blockCnt ≠ 0)
    (h : ∀ junk, ∃ l, xferBlock x info junk draws = some l ∧ CountsAnnounced l) :
    CountsEven x draws := by
  have hsize : x.randFlag = true → x.size ≠ 0 := fun hr =>
    let ⟨_, hl, _⟩ := h ⟨0, .regs, fun _ => -1, fun _ _ => 0⟩
    size_of_transfer rfl hb hr hl
  obtain ⟨l, hl, hcounts⟩ := h default
  obtain ⟨hlen, hblocks⟩ := blockCounts_of_transfer hsize hl
  obtain ⟨hbits, hnext⟩ :=
    (countsAnnounced_iff hb hlen hblocks (lbarBasic_of_transfer hsize hl)).mp hcounts
  exact ⟨fun hr => ⟨hsize hr, fits_of_transfer hr hl⟩, hbits, even_of_announced hbits hnext⟩

/-- A call with equal counts announces them. -/
theorem announced_of_countsEven (hb : x.blockCnt ≠ 0) (hd : x.descCnt ≠ 0)
    (h : CountsEven x draws) (junk : Junk) :
    ∃ l, xferBlock x info junk draws = some l ∧ CountsAnnounced l := by
  have hsize : x.randFlag = true → x.size ≠ 0 := fun hr => (h.split hr).1
  obtain ⟨l, hl⟩ : ∃ l, xferBlock x info junk draws = some l := exists_transfer hb hd h.split junk
  obtain ⟨hlen, hblocks⟩ := blockCounts_of_transfer hsize hl
  refine ⟨l, hl, (countsAnnounced_iff hb hlen hblocks (lbarBasic_of_transfer hsize hl)).mpr
    ⟨h.bits, fun j hj => ?_⟩⟩
  rw [Nat.mod_eq_of_lt (listCount_lt_of_even h.bits h.even j (by omega)), h.even j hj]

/-- **Announced counts**: the counts of a block-mode call are announced, whatever
the uninitialised locals hold, exactly when all its blocks have the same number of
list descriptors, and one that fits 16 bits. -/
theorem counts_announced_iff (hb : x.blockCnt ≠ 0) (hd : x.descCnt ≠ 0) :
    (∀ junk, ∃ l, xferBlock x info junk draws = some l ∧ CountsAnnounced l) ↔
      CountsEven x draws :=
  ⟨countsEven_of_announced hb, announced_of_countsEven hb hd⟩

end Rounds

/-- Three blocks of five bytes, each divided in two: one list descriptor a block. -/
theorem counts_announced_fiveBytesThrice :
    (∀ junk, ∃ l, xferBlock fiveBytesThrice default junk default = some l ∧ CountsAnnounced l) ↔
      CountsEven fiveBytesThrice default :=
  counts_announced_iff (by decide) (by decide)

/-- Two random blocks of one piece each: the first block has no list descriptor and
announces none, the second one has one. -/
theorem hostPieces_not_announced :
    hostPieces.blockCnt ≠ 0 ∧ hostPieces.descCnt ≠ 0 ∧
      (∃ l, xferBlock hostPieces default default default = some l ∧
        (l.blocks.map fun b => (b.length, b.map fun en => nxtLbDescAcnt en.2.descOp)) =
          [(1, [0]), (1, [0])]) ∧
      ¬ ∀ junk, ∃ l, xferBlock hostPieces default junk default = some l ∧ CountsAnnounced l := by
  have hrun : ∃ l, xferBlock hostPieces default default default = some l ∧
      (l.blocks.map fun b => (b.length, b.map fun en => nxtLbDescAcnt en.2.descOp)) =
        [(1, [0]), (1, [0])] := ⟨_, rfl, by decide⟩
  refine ⟨by decide, by decide, hrun, fun h => ?_⟩
  have hcounts := (countsEven_of_announced (by decide) h).even 0 (by decide)
  have hone : pieceCount 0 hostPieces.size = 1 :=
    (pieceCount_eq_one_iff _ (by decide)).mpr (by decide)
  have hzero : listCount hostPieces default 0 = 0 := by
    rw [listCount, if_pos (by decide)]
    change pieceCount 0 hostPieces.size - 1 = 0
    rw [hone]
  have hnext : listCount hostPieces default 1 = 1 := by
    rw [listCount, if_pos (by decide)]
    change pieceCount 0 hostPieces.size - 0 = 1
    rw [hone]
  rw [hzero, hnext] at hcounts
  contradiction

end MtEmu
