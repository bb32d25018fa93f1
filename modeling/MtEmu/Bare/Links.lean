import MtEmu.Bare.Block
import MtEmu.Bare.Walk
import MtEmu.Bare.Layout

/-!
# MtEmu.Bare.Links

The links of a block-mode transfer.

Every slot and every `lar` of block mode is a slot number behind the list
base; `firstRounds_links` and `laterRounds_links` read these numbers off the
loops, and `blocks_shape` follows the block counters along.  With them the
question whether the links lead to the slots used becomes the question of
`MtEmu.Bare.Layout`, and `block_links_iff` is its answer for the code.
-/

namespace MtEmu

open Loop

/-! ## slot numbers -/

theorem slotAddr_toNat (base : U64) (a : Nat) :
    (slotAddr base (BitVec.ofNat 64 a)).toNat = (base.toNat + 32 * a) % 2 ^ 64 := by
  rw [slotAddr, BitVec.toNat_add, BitVec.toNat_mul, BitVec.toNat_ofNat,
    show descSize.toNat = 32 from rfl]
  omega

theorem slotAddr_ofNat_inj {base : U64} {a b : Nat} (ha : a < 2 ^ 59) (hb : b < 2 ^ 59) :
    slotAddr base (BitVec.ofNat 64 a) = slotAddr base (BitVec.ofNat 64 b) ↔ a = b := by
  refine ⟨fun h => ?_, fun h => by rw [h]⟩
  have hnat := congrArg BitVec.toNat h
  rw [slotAddr_toNat, slotAddr_toNat] at hnat
  omega

section Align

variable {base : U64} (hbase : base % 1024 = 0)
include hbase

theorem slotAddr_mod (a : Nat) :
    (slotAddr base (BitVec.ofNat 64 a) % 1024).toNat = 32 * (a % 32) := by
  have hmod := congrArg BitVec.toNat hbase
  rw [BitVec.toNat_umod] at hmod ⊢
  rw [slotAddr_toNat]
  simp at hmod ⊢
  omega

/-- Aligning a slot address moves it to the next multiple of 32 slots. -/
theorem alignLar_slotAddr (a : Nat) :
    ListEnv.alignLar (slotAddr base (BitVec.ofNat 64 a)) =
      slotAddr base (BitVec.ofNat 64 (up32 a)) := by
  have hmod := slotAddr_mod hbase a
  apply BitVec.eq_of_toNat_eq
  rw [ListEnv.alignLar, BitVec.toNat_add,
    BitVec.toNat_sub_of_le (by rw [BitVec.le_def, hmod]; simp; omega), hmod, slotAddr_toNat,
    slotAddr_toNat, up32]
  simp
  omega

theorem alignPad_slotAddr (a : Nat) :
    (ListEnv.alignPad (slotAddr base (BitVec.ofNat 64 a))).toNat = 32 - a % 32 := by
  have hmod := slotAddr_mod hbase a
  have hdiv : (slotAddr base (BitVec.ofNat 64 a) % 1024 / 32).toNat = a % 32 := by
    rw [BitVec.toNat_udiv, hmod]
    simp
  rw [ListEnv.alignPad, BitVec.toNat_setWidth,
    BitVec.toNat_sub_of_le (by rw [BitVec.le_def, hdiv]; simp; omega), hdiv]
  simp
  omega

end Align

/-- The slot of a later block's descriptor, as a number. -/
theorem laterSlot_eq (X o : U32) (k : Nat) :
    (BitVec.ofNat 32 k + X + o).setWidth 64 = BitVec.ofNat 64 (slotNo X.toNat o.toNat k) := by
  apply BitVec.eq_of_toNat_eq
  rw [slotNo]
  simp

/-- The link of a later block's descriptor, as a slot number. -/
theorem laterLar_eq (base : U64) (X o : U32) (k : Nat) :
    base + (BitVec.ofNat 32 k + X + 1).setWidth 64 * descSize + (o * 32).setWidth 64 =
      slotAddr base (BitVec.ofNat 64 (linkNo X.toNat o.toNat k)) := by
  apply BitVec.eq_of_toNat_eq
  rw [slotAddr_toNat, linkNo, BitVec.toNat_add, BitVec.toNat_add, BitVec.toNat_mul,
    show descSize.toNat = 32 from rfl]
  simp
  omega

/-! ## one round -/

namespace ListEnv

variable {e : ListEnv} (hbase : e.base % 1024 = 0) {k : Nat} {c : Cursor}
include hbase

/-- Where round `k` of the first block stores and links to. -/
theorem firstBlockBody_links (h0 : c.offset = 0) (hk : k ≤ e.descCntTmp.toNat)
    (hmax : e.descCntTmp.toNat < 2 ^ 31) :
    (e.firstBlockBody (BitVec.ofNat 32 k) c).1.1 = firstPlace k ∧
      (e.firstBlockBody (BitVec.ofNat 32 k) c).1.2.lar = slotAddr e.base
        (BitVec.ofNat 64 (if k = e.descCntTmp.toNat then up32 k else k)) ∧
      (e.firstBlockBody (BitVec.ofNat 32 k) c).2.offset.toNat =
        if k = e.descCntTmp.toNat then 32 - k % 32 else 0 := by
  have hidx : BitVec.ofNat 32 k = e.descCntTmp ↔ k = e.descCntTmp.toNat := by
    rw [← BitVec.toNat_inj, BitVec.toNat_ofNat, Nat.mod_eq_of_lt (by omega)]
  have hlar : e.base + (BitVec.ofNat 32 k).signExtend 64 * descSize + (c.offset * 32).setWidth 64 =
      slotAddr e.base (BitVec.ofNat 64 k) := by
    rw [signExtend_ofNat (by omega), h0, slotAddr]
    simp
  refine ⟨firstPlace_eq (by omega), ?_, ?_⟩
  · simp only [firstBlockBody, hidx, hlar]
    split
    · exact alignLar_slotAddr hbase k
    · rfl
  · simp only [firstBlockBody, hidx, hlar]
    split
    · rw [h0, ← alignPad_slotAddr hbase k]
      exact congrArg BitVec.toNat (BitVec.zero_add _)
    · rw [h0]
      rfl

/-- Where round `k` of a later block stores and links to. -/
theorem nextBlockBody_links (hn : e.descCntTmp ≠ 0) (hk : k < e.descCntTmp.toNat) :
    (e.nextBlockBody (BitVec.ofNat 32 k) c).1.1 =
        .slot (BitVec.ofNat 64 (slotNo e.before.toNat c.offset.toNat k)) ∧
      (e.nextBlockBody (BitVec.ofNat 32 k) c).1.2.lar = slotAddr e.base (BitVec.ofNat 64
        (if k + 1 = e.descCntTmp.toNat then up32 (linkNo e.before.toNat c.offset.toNat k)
          else linkNo e.before.toNat c.offset.toNat k)) ∧
      (e.nextBlockBody (BitVec.ofNat 32 k) c).2.offset.toNat =
        if k + 1 = e.descCntTmp.toNat then
          (c.offset.toNat + (32 - linkNo e.before.toNat c.offset.toNat k % 32)) % 2 ^ 32
        else c.offset.toNat := by
  have hlt := e.descCntTmp.isLt
  have hidx : BitVec.ofNat 32 k = e.descCntTmp - 1 ↔ k + 1 = e.descCntTmp.toNat := by
    rw [← BitVec.toNat_inj, toNat_sub_one hn, BitVec.toNat_ofNat, Nat.mod_eq_of_lt (by omega)]
    omega
  refine ⟨congrArg Lli.slot (laterSlot_eq ..), ?_, ?_⟩
  · simp only [nextBlockBody, hidx, laterLar_eq]
    split
    · exact alignLar_slotAddr hbase _
    · rfl
  · simp only [nextBlockBody, hidx, laterLar_eq]
    split
    · rw [BitVec.toNat_add, alignPad_slotAddr hbase]
    · rfl

end ListEnv

/-! ## the loops -/

section Rounds

variable {x : BareXfer} {info : MtdmaChanInfo} (hbase : x.listBase info % 1024 = 0)
include hbase

/-- The places and links of the first block, and the slots it skips. -/
theorem firstRounds_links {st : BlockState} {n : U32} (sizes : Nat → U32) (h0 : st.offset = 0)
    (hn : n.toNat < 2 ^ 31) :
    (∀ (k : Nat) (en : Entry), (firstRounds x info st n sizes).1[k]? = some en →
      en.1 = firstPlace k ∧ en.2.lar = slotAddr (x.listBase info)
        (BitVec.ofNat 64 (if k = n.toNat then up32 k else k))) ∧
      (firstRounds x info st n sizes).2.offset.toNat = 32 - n.toNat % 32 := by
  obtain ⟨hitems, hend⟩ := rounds_spec (BitVec.ofNat 32)
    (fun k (c : Cursor) => c.offset.toNat = if k ≤ n.toNat then 0 else 32 - n.toNat % 32)
    (fun k (en : Entry) => en.1 = firstPlace k ∧ en.2.lar = slotAddr (x.listBase info)
      (BitVec.ofNat 64 (if k = n.toNat then up32 k else k)))
    ofNat_succ (n := n.toNat + 1) (s := firstCursor x st n)
    (fun k c hk hc => by
      rw [if_pos (by omega)] at hc
      obtain ⟨hplace, hlar, hoff⟩ := ListEnv.firstBlockBody_links
        (e := blockEnv x info 0 st n sizes) hbase (BitVec.eq_of_toNat_eq hc)
        (show k ≤ n.toNat by omega) hn
      refine ⟨⟨hplace, hlar⟩, hoff.trans ?_⟩
      by_cases hlast : k = n.toNat
      · rw [if_pos hlast, if_neg (by omega), hlast]
      · rw [if_neg hlast, if_pos (by omega)])
    (by simp [firstCursor, h0])
  exact ⟨hitems, hend.trans (if_neg (by omega))⟩

/-- The places and links of a later block, and the slots it skips. -/
theorem laterRounds_links {j : U32} {st : BlockState} {n : U32} (sizes : Nat → U32) (hn : n ≠ 0)
    {X o : Nat} (hX : (blockEnv x info j st n sizes).before.toNat = X) (ho : st.offset.toNat = o) :
    (∀ (k : Nat) (en : Entry), (laterRounds x info j st n sizes).1[k]? = some en →
      en.1 = .slot (BitVec.ofNat 64 (slotNo X o k)) ∧
        en.2.lar = slotAddr (x.listBase info) (BitVec.ofNat 64
          (if k + 1 = n.toNat then up32 (linkNo X o k) else linkNo X o k))) ∧
      (laterRounds x info j st n sizes).2.offset.toNat =
        (o + (32 - linkNo X o (n.toNat - 1) % 32)) % 2 ^ 32 := by
  subst hX ho
  have hpos : 0 < n.toNat := BitVec.toNat_pos_of_ne_zero hn
  obtain ⟨hitems, hend⟩ := rounds_spec (BitVec.ofNat 32)
    (fun k (c : Cursor) => c.offset.toNat = if k < n.toNat then st.offset.toNat else
      (st.offset.toNat + (32 - linkNo (blockEnv x info j st n sizes).before.toNat st.offset.toNat
        (n.toNat - 1) % 32)) % 2 ^ 32)
    (fun k (en : Entry) =>
      en.1 = .slot (BitVec.ofNat 64
        (slotNo (blockEnv x info j st n sizes).before.toNat st.offset.toNat k)) ∧
      en.2.lar = slotAddr (x.listBase info) (BitVec.ofNat 64 (if k + 1 = n.toNat
        then up32 (linkNo (blockEnv x info j st n sizes).before.toNat st.offset.toNat k)
        else linkNo (blockEnv x info j st n sizes).before.toNat st.offset.toNat k)))
    ofNat_succ (n := n.toNat) (s := laterCursor x j st n)
    (fun k c hk hc => by
      rw [if_pos hk] at hc
      obtain ⟨hplace, hlar, hoff⟩ := ListEnv.nextBlockBody_links
        (e := blockEnv x info j st n sizes) hbase (c := c) hn hk
      rw [hc] at hplace hlar hoff
      refine ⟨⟨hplace, hlar⟩, hoff.trans ?_⟩
      by_cases hlast : k + 1 = n.toNat
      · rw [if_pos hlast, if_neg (by omega), ← hlast, Nat.add_sub_cancel]
      · rw [if_neg hlast, if_pos (by omega)])
    (by simp [laterCursor, hpos])
  exact ⟨hitems, hend.trans (if_neg (by omega))⟩

end Rounds

/-! ## the shape of a transfer -/

/-- The list descriptors of block `j`: one for each piece, but block 0 keeps
its first piece in the registers. -/
noncomputable def listCount (x : BareXfer) (draws : Draws) (j : Nat) : Nat :=
  if x.randFlag then
    pieceCount (draws (BitVec.ofNat 32 j)) x.size - if j = 0 then 1 else 0
  else x.descCnt.toNat

/-- The slots of earlier blocks, as block `j` counts them. -/
noncomputable def slotsCounted (x : BareXfer) (draws : Draws) (j : Nat) : Nat :=
  if x.inDevice ∧ x.randFlag then listsBefore (listCount x draws) j % 2 ^ 32
  else j * listCount x draws j % 2 ^ 32

theorem counters_slotsCounted (x : BareXfer) (draws : Draws) :
    Counters (listCount x draws) (slotsCounted x draws) := by
  by_cases h : x.inDevice ∧ x.randFlag
  · exact .inl fun j => if_pos h
  · exact .inr fun j => if_neg h

/-- Block `j` in numbers: where its entries are stored and link to. -/
structure BlockShape (base : U64) (c X : Nat → Nat) (j : Nat) (b : List Entry) : Prop where
  length : b.length = if j = 0 then c 0 + 1 else c j
  place : ∀ k en, b[k]? = some en → en.1 = if j = 0 then firstPlace k
    else .slot (BitVec.ofNat 64 (slotNo (X j) (skipped c X j) k))
  lar : ∀ k en, b[k]? = some en → en.2.lar = slotAddr base (BitVec.ofNat 64
    (if k + 1 = b.length then up32 (lastLink c X (skipped c X j) j)
      else if j = 0 then k else linkNo (X j) (skipped c X j) k))

section Shape

variable {x : BareXfer} {info : MtdmaChanInfo} {junk : Junk} {draws : Draws}

/-- A count without bit 31. -/
theorem descCnt_lt (hr : x.randFlag = false) : x.descCnt.toNat < 2 ^ 31 := by
  have hbit : x.descCnt >>> 31 ≠ 1 := by simpa [BareXfer.randFlag] using hr
  by_contra hbig
  apply hbit
  have hlt := x.descCnt.isLt
  apply BitVec.eq_of_toNat_eq
  rw [BitVec.toNat_ushiftRight, Nat.shiftRight_eq_div_pow]
  simp
  omega

/-- The count a block works with. -/
theorem counts_eq (hsize : x.randFlag = true → x.size ≠ 0) {j : Nat} (hj : j < 2 ^ 32) {n : U32}
    {sizes : Nat → U32} (h : blockCounts x junk draws (BitVec.ofNat 32 j) = some (n, sizes)) :
    n.toNat = listCount x draws j ∧ n.toNat < 2 ^ 31 := by
  cases hr : x.randFlag with
  | false =>
      simp only [blockCounts, hr, Bool.false_eq_true, if_false, Option.some.injEq] at h
      obtain ⟨rfl, _⟩ := Prod.mk.inj h
      exact ⟨by simp [listCount, hr], descCnt_lt hr⟩
  | true =>
      have hfit : pieceCount (draws (BitVec.ofNat 32 j)) x.size ≤ blockCap := by
        by_contra hover
        rw [blockCounts, hr, if_pos rfl, splitBlock_eq_none junk (Nat.lt_of_not_le hover)] at h
        cases h
      obtain ⟨ps, n', sizes', hps, hcounts, _, hn, _, hcap⟩ :=
        blockCounts_random junk hr (hsize hr) hfit
      obtain ⟨rfl, _⟩ := Prod.mk.inj (Option.some.inj (h.symm.trans hcounts))
      have hj0 : BitVec.ofNat 32 j = 0 ↔ j = 0 := by
        rw [← BitVec.toNat_inj, BitVec.toNat_ofNat, Nat.mod_eq_of_lt hj]
        rfl
      rw [hn, listCount, hr, if_pos rfl, ← hps.length]
      simp only [hj0]
      split <;> omega

/-- The counters and the entries of a block, from the counters before it. -/
theorem blockShape_step (hbase : x.listBase info % 1024 = 0)
    (hsize : x.randFlag = true → x.size ≠ 0) {j : Nat} (hj : j < 2 ^ 32) {st st' : BlockState}
    {b : List Entry} (h : blockRound x info junk draws (BitVec.ofNat 32 j) st = some (b, st'))
    (hoff : st.offset.toNat = skipped (listCount x draws) (slotsCounted x draws) j)
    (htotal : st.descCntTotal.toNat = listsBefore (listCount x draws) j % 2 ^ 32) :
    BlockShape (x.listBase info) (listCount x draws) (slotsCounted x draws) j b ∧
      (j ≠ 0 → 0 < listCount x draws j) ∧
      st'.offset.toNat = skipped (listCount x draws) (slotsCounted x draws) (j + 1) ∧
      st'.descCntTotal.toNat = listsBefore (listCount x draws) (j + 1) % 2 ^ 32 := by
  cases Nat.eq_zero_or_pos j with
  | inl h0 =>
      subst h0
      obtain ⟨n, sizes, hc, _, rfl, rfl⟩ := blockRound_zero.mp h
      obtain ⟨hn, hmax⟩ := counts_eq hsize hj hc
      have ho : st.offset = 0 := BitVec.eq_of_toNat_eq hoff
      obtain ⟨hitems, hend⟩ := firstRounds_links hbase sizes ho hmax
      have hlen : (firstRounds x info st n sizes).1.length = n.toNat + 1 := length_firstRounds ..
      rw [hn] at hitems hlen hend
      refine ⟨⟨hlen, fun k en hk => (hitems k en hk).1, fun k en hk => ?_⟩,
        fun h => absurd rfl h, ?_, ?_⟩
      · rw [(hitems k en hk).2, hlen, lastLink]
        simp only [if_true, Nat.add_right_cancel_iff]
        by_cases hlast : k = listCount x draws 0
        · rw [if_pos hlast, if_pos hlast, hlast]
        · rw [if_neg hlast, if_neg hlast]
      · rw [skipped, lastLink, if_pos rfl, skipped]
        refine hend.trans ?_
        omega
      · rw [BitVec.toNat_add, htotal, hn, listsBefore_succ]
        omega
  | inr hpos =>
      obtain ⟨n, sizes, hc, hn0, rfl, rfl⟩ := (blockRound_later (ofNat_ne_zero hpos hj)).mp h
      obtain ⟨hn, hmax⟩ := counts_eq hsize hj hc
      have hX : (blockEnv x info (BitVec.ofNat 32 j) st n sizes).before.toNat =
          slotsCounted x draws j := by
        rw [ListEnv.before, slotsCounted]
        split
        · exact htotal
        · rw [BitVec.toNat_mul, BitVec.toNat_ofNat, hn, Nat.mod_mul_mod]
      obtain ⟨hitems, hend⟩ := laterRounds_links hbase sizes hn0 hX hoff
      have hlen : (laterRounds x info (BitVec.ofNat 32 j) st n sizes).1.length = n.toNat :=
        length_laterRounds ..
      have hcount : n.toNat ≠ 0 := fun h0 => hn0 (BitVec.eq_of_toNat_eq h0)
      rw [hn] at hitems hlen hend hcount
      refine ⟨⟨?_, fun k en hk => ?_, fun k en hk => ?_⟩, fun _ => Nat.pos_of_ne_zero hcount, ?_, ?_⟩
      · rw [hlen, if_neg hpos.ne']
      · rw [(hitems k en hk).1, if_neg hpos.ne']
      · rw [(hitems k en hk).2, hlen, lastLink, if_neg hpos.ne', if_neg hpos.ne']
        by_cases hlast : k + 1 = listCount x draws j
        · rw [if_pos hlast, if_pos hlast, ← hlast, Nat.add_sub_cancel]
        · rw [if_neg hlast, if_neg hlast]
      · rw [skipped, lastLink, if_neg hpos.ne']
        exact hend
      · rw [BitVec.toNat_add, htotal, hn, listsBefore_succ]
        omega

/-- **Shape**: every block of a transfer has the shape its counters give. -/
theorem blocks_shape (hbase : x.listBase info % 1024 = 0)
    (hsize : x.randFlag = true → x.size ≠ 0) {l : DescList}
    (hl : xferBlock x info junk draws = some l) :
    l.blocks.length = x.blockCnt.toNat ∧ ∀ j b, l.blocks[j]? = some b →
      BlockShape (x.listBase info) (listCount x draws) (slotsCounted x draws) j b ∧
        (j ≠ 0 → 0 < listCount x draws j) := by
  obtain ⟨hlen, sts, h0, hblocks⟩ := xferBlock_eq_some hl
  have hlt : ∀ {j b}, l.blocks[j]? = some b → j < 2 ^ 32 := fun h =>
    (hlen ▸ (List.getElem?_eq_some_iff.mp h).1).trans x.blockCnt.isLt
  have hstate : ∀ j, j ≤ l.blocks.length →
      (sts j).offset.toNat = skipped (listCount x draws) (slotsCounted x draws) j ∧
        (sts j).descCntTotal.toNat = listsBefore (listCount x draws) j % 2 ^ 32 := by
    intro j
    induction j with
    | zero => simp [h0, skipped, listsBefore]
    | succ j ih =>
        intro hj
        obtain ⟨hoff, htotal⟩ := ih (by omega)
        have hb : l.blocks[j]? = some l.blocks[j] := List.getElem?_eq_getElem hj
        exact (blockShape_step hbase hsize (hlt hb) (hblocks j _ hb) hoff htotal).2.2
  refine ⟨hlen, fun j b hb => ?_⟩
  obtain ⟨hoff, htotal⟩ := hstate j (List.getElem?_eq_some_iff.mp hb).1.le
  obtain ⟨hshape, hpos, _⟩ := blockShape_step hbase hsize (hlt hb) (hblocks j b hb) hoff htotal
  exact ⟨hshape, hpos⟩

end Shape

/-! ## links -/

theorem isChain_iff_getElem? {α : Type} {R : α → α → Prop} {l : List α} :
    l.IsChain R ↔ ∀ (k : Nat) (a a' : α), l[k]? = some a → l[k + 1]? = some a' → R a a' := by
  rw [List.isChain_iff_getElem]
  constructor
  · intro h k a a' ha ha'
    obtain ⟨_, rfl⟩ := List.getElem?_eq_some_iff.mp ha
    obtain ⟨hk, rfl⟩ := List.getElem?_eq_some_iff.mp ha'
    exact h k hk
  · exact fun h k hk => h k _ _ (List.getElem?_eq_getElem _) (List.getElem?_eq_getElem hk)

/-- A run of runs is a chain when each run is one and the runs are joined. -/
theorem isChain_flatten_iff {α : Type} {R : α → α → Prop} {bs : List (List α)}
    (hne : ∀ b ∈ bs, b ≠ []) :
    bs.flatten.IsChain R ↔
      (∀ (j : Nat) (b : List α), bs[j]? = some b → ∀ (k : Nat) (a a' : α),
        b[k]? = some a → b[k + 1]? = some a' → R a a') ∧
      ∀ (j : Nat) (b b' : List α), bs[j]? = some b → bs[j + 1]? = some b' →
        ∀ a a', b[b.length - 1]? = some a → b'[0]? = some a' → R a a' := by
  rw [List.isChain_flatten fun h => hne [] h rfl, isChain_iff_getElem?]
  simp only [List.getLast?_eq_getElem?, List.head?_eq_getElem?]
  constructor
  · rintro ⟨hin, hacross⟩
    refine ⟨fun j b hb => isChain_iff_getElem?.mp (hin b (List.mem_of_getElem? hb)), ?_⟩
    exact fun j b b' hb hb' a a' ha ha' => hacross j b b' hb hb' a ha a' ha'
  · rintro ⟨hin, hacross⟩
    refine ⟨fun b hb => ?_, fun j b b' hb hb' a ha a' ha' => hacross j b b' hb hb' a a' ha ha'⟩
    obtain ⟨j, hj⟩ := List.mem_iff_getElem?.mp hb
    exact isChain_iff_getElem?.mpr (hin j b hj)

theorem linkNo_lt (X o k : Nat) : linkNo X o k < 2 ^ 33 := by
  unfold linkNo
  omega

theorem slotNo_lt (X o k : Nat) : slotNo X o k < 2 ^ 32 := Nat.mod_lt _ (by decide)

section Linked

variable {base : U64} {c X : Nat → Nat}

/-- Inside a block the question is about one slot number. -/
theorem BlockShape.follows_iff {j k : Nat} {b : List Entry} {en en' : Entry}
    (h : BlockShape base c X j b) (hen : b[k]? = some en) (hen' : b[k + 1]? = some en') :
    Follows base en en' ↔
      j = 0 ∨ linkNo (X j) (skipped c X j) k = slotNo (X j) (skipped c X j) (k + 1) := by
  have hk : k + 1 < b.length := (List.getElem?_eq_some_iff.mp hen').1
  rw [Follows, h.place _ en' hen', h.lar k en hen, if_neg hk.ne]
  by_cases h0 : j = 0
  · simp [h0, firstPlace]
  · rw [if_neg h0, if_neg h0, isAt_slot, or_iff_right h0,
      slotAddr_ofNat_inj ((slotNo_lt ..).trans (by decide)) ((linkNo_lt ..).trans (by decide))]
    exact eq_comm

/-- Between two blocks too. -/
theorem BlockShape.follows_across_iff {j : Nat} {b b' : List Entry} {en en' : Entry}
    (h : BlockShape base c X j b) (h' : BlockShape base c X (j + 1) b') (hc0 : c 0 < 2 ^ 32)
    (hen : b[b.length - 1]? = some en) (hen' : b'[0]? = some en') :
    Follows base en en' ↔
      up32 (lastLink c X (skipped c X j) j) = slotNo (X (j + 1)) (skipped c X (j + 1)) 0 := by
  have hlen : b.length - 1 < b.length := (List.getElem?_eq_some_iff.mp hen).1
  have hlast : lastLink c X (skipped c X j) j < 2 ^ 33 := by
    rw [lastLink]
    split
    · omega
    · exact linkNo_lt ..
  have hup := up32_le (lastLink c X (skipped c X j) j)
  rw [Follows, h'.place 0 en' hen', h.lar _ en hen, if_neg (Nat.succ_ne_zero j),
    if_pos (by omega), isAt_slot, slotAddr_ofNat_inj ((slotNo_lt ..).trans (by decide)) (by omega)]
  exact eq_comm

variable {bs : List (List Entry)} (hshape : ∀ j b, bs[j]? = some b → BlockShape base c X j b)
  (hc : ∀ j, j ≠ 0 → j < bs.length → 0 < c j)
include hshape hc

theorem blocks_ne_nil : ∀ b ∈ bs, b ≠ [] := by
  intro b hb hnil
  obtain ⟨j, hj⟩ := List.mem_iff_getElem?.mp hb
  have hlen := (hshape j b hj).length
  rw [hnil, List.length_nil] at hlen
  split at hlen
  · omega
  · next h0 =>
      have := hc j h0 (List.getElem?_eq_some_iff.mp hj).1
      omega

/-- **Links**: entries are linked exactly when the link numbers agree with
the slots. -/
theorem linked_iff (hc0 : c 0 < 2 ^ 32) :
    bs.flatten.IsChain (Follows base) ↔ LinksAgree c X bs.length := by
  rw [isChain_flatten_iff (blocks_ne_nil hshape hc)]
  constructor
  · rintro ⟨hin, hacross⟩
    constructor
    · intro j hj hn k hk
      have hb : bs[j]? = some bs[j] := List.getElem?_eq_getElem hn
      have hs := hshape j _ hb
      have hlen := hs.length
      rw [if_neg hj.ne'] at hlen
      have hen : bs[j][k]? = some bs[j][k] := List.getElem?_eq_getElem (by omega)
      have hen' : bs[j][k + 1]? = some bs[j][k + 1] := List.getElem?_eq_getElem (by omega)
      exact ((hs.follows_iff hen hen').mp (hin j _ hb k _ _ hen hen')).resolve_left hj.ne'
    · intro j hn
      have hb : bs[j]? = some bs[j] := List.getElem?_eq_getElem (by omega)
      have hb' : bs[j + 1]? = some bs[j + 1] := List.getElem?_eq_getElem hn
      have hj : j < bs.length := by omega
      have hne := List.length_pos_of_ne_nil (blocks_ne_nil hshape hc _ (List.getElem_mem hj))
      have hne' := List.length_pos_of_ne_nil (blocks_ne_nil hshape hc _ (List.getElem_mem hn))
      have hen : bs[j][bs[j].length - 1]? = some bs[j][bs[j].length - 1] :=
        List.getElem?_eq_getElem (by omega)
      have hen' : bs[j + 1][0]? = some bs[j + 1][0] := List.getElem?_eq_getElem hne'
      exact ((hshape j _ hb).follows_across_iff (hshape _ _ hb') hc0 hen hen').mp
        (hacross j _ _ hb hb' _ _ hen hen')
  · intro h
    refine ⟨fun j b hb k en en' hen hen' => ?_, fun j b b' hb hb' en en' hen hen' => ?_⟩
    · have hs := hshape j b hb
      have hn := (List.getElem?_eq_some_iff.mp hb).1
      have hk := (List.getElem?_eq_some_iff.mp hen').1
      refine (hs.follows_iff hen hen').mpr ?_
      by_cases h0 : j = 0
      · exact .inl h0
      · rw [hs.length, if_neg h0] at hk
        exact .inr (h.inside j (Nat.pos_of_ne_zero h0) hn k hk)
    · have hn := (List.getElem?_eq_some_iff.mp hb').1
      exact ((hshape j b hb).follows_across_iff (hshape _ b' hb') hc0 hen hen').mpr (h.across j hn)

end Linked

/-! ## places -/

/-- The order in which a transfer uses places: the registers, then the slots
upwards. -/
def Lli.Before : Lli → Lli → Prop
  | .regs, .slot _ => True
  | .slot i, .slot i' => i.toNat < i'.toNat
  | _, _ => False

theorem Lli.Before.trans {l₁ l₂ l₃ : Lli} (h : l₁.Before l₂) (h' : l₂.Before l₃) :
    l₁.Before l₃ := by
  cases l₁ <;> cases l₂ <;> cases l₃ <;> simp only [Lli.Before] at h h' ⊢
  exact Nat.lt_trans h h'

theorem Lli.Before.ne {l l' : Lli} (h : l.Before l') : l ≠ l' := by
  rintro rfl
  cases l with
  | regs => exact h
  | other a => exact h
  | slot i => exact Nat.lt_irrefl _ h

instance : Trans (fun e e' : Entry => e.1.Before e'.1) (fun e e' : Entry => e.1.Before e'.1)
    (fun e e' : Entry => e.1.Before e'.1) := ⟨Lli.Before.trans⟩

theorem before_ofNat {a b : Nat} (h : a < b) (hb : b < 2 ^ 64) :
    (Lli.slot (BitVec.ofNat 64 a)).Before (.slot (BitVec.ofNat 64 b)) := by
  simp only [Lli.Before, BitVec.toNat_ofNat]
  omega

theorem firstPlace_before {k k' : Nat} (h : k < k') (hk : k' < 2 ^ 64) :
    (firstPlace k).Before (firstPlace k') := by
  obtain ⟨k', rfl⟩ := Nat.exists_eq_succ_of_ne_zero (Nat.ne_of_gt (Nat.zero_lt_of_lt h))
  cases k with
  | zero => trivial
  | succ k => exact before_ofNat (by omega) (by omega)

theorem firstPlace_before_slot {k b : Nat} (h : k ≤ b) (hb : b < 2 ^ 64) :
    (firstPlace k).Before (.slot (BitVec.ofNat 64 b)) := by
  cases k with
  | zero => trivial
  | succ k => exact before_ofNat (by omega) hb

section Places

variable {base : U64} {c X : Nat → Nat} {bs : List (List Entry)}
  (hshape : ∀ j b, bs[j]? = some b → BlockShape base c X j b)
  (hX : X 0 = 0) (hc : ∀ j, 0 < j → 0 < c j) (hc0 : c 0 < 2 ^ 32) (hfits : Fits c X bs.length)
include hshape hX hc hc0 hfits

/-- In a layout that fits the places are used upwards. -/
theorem places_ascend : bs.flatten.Pairwise fun e e' => e.1.Before e'.1 := by
  have htrack := onTrack_of_fits hX hc hfits
  rw [← List.isChain_iff_pairwise,
    isChain_flatten_iff (blocks_ne_nil hshape fun j h0 _ => hc j (Nat.pos_of_ne_zero h0))]
  refine ⟨fun j b hb k en en' hen hen' => ?_, fun j b b' hb hb' en en' hen hen' => ?_⟩
  · have hs := hshape j b hb
    have hn := (List.getElem?_eq_some_iff.mp hb).1
    have hk := (List.getElem?_eq_some_iff.mp hen').1
    rw [hs.length] at hk
    rw [hs.place k en hen, hs.place _ en' hen']
    by_cases h0 : j = 0
    · rw [if_pos h0] at hk
      rw [if_pos h0, if_pos h0]
      exact firstPlace_before (Nat.lt_succ_self k) (by omega)
    · have hslots := (hfits j (Nat.pos_of_ne_zero h0) hn).slots
      rw [if_neg h0] at hk
      rw [if_neg h0, if_neg h0, slotNo_eq (htrack j hn) hslots (by omega),
        slotNo_eq (htrack j hn) hslots hk]
      exact before_ofNat (by omega) (by omega)
  · have hs := hshape j b hb
    have hn := (List.getElem?_eq_some_iff.mp hb').1
    have hk := (List.getElem?_eq_some_iff.mp hen).1
    have hslots' := (hfits (j + 1) (Nat.succ_pos j) hn).slots
    have hpos' := hc (j + 1) (Nat.succ_pos j)
    have hsucc := listStart_succ c j
    rw [hs.place _ en hen, (hshape _ b' hb').place 0 en' hen', if_neg (Nat.succ_ne_zero j),
      slotNo_eq (htrack _ hn) hslots' hpos', hs.length]
    by_cases h0 : j = 0
    · subst h0
      rw [if_pos rfl, if_pos rfl, Nat.add_sub_cancel]
      exact firstPlace_before_slot (by omega) (by omega)
    · have hslots := (hfits j (Nat.pos_of_ne_zero h0) (by omega)).slots
      have hpos := hc j (Nat.pos_of_ne_zero h0)
      rw [if_neg h0, if_neg h0, slotNo_eq (htrack j (by omega)) hslots (by omega)]
      exact before_ofNat (by omega) (by omega)

omit hc0 in
/-- In a layout that fits every later block starts at a 1024-byte boundary. -/
theorem starts_aligned (hbase : base % 1024 = 0) {j : Nat} {b : List Entry} {en : Entry}
    (hb : bs[j + 1]? = some b) (hen : b[0]? = some en) :
    ∃ addr, en.1.IsAt base addr ∧ addr % 1024 = 0 := by
  have hn := (List.getElem?_eq_some_iff.mp hb).1
  have hslots := (hfits (j + 1) (Nat.succ_pos j) hn).slots
  refine ⟨slotAddr base (BitVec.ofNat 64 (listStart c (j + 1))), ?_, ?_⟩
  · rw [(hshape _ b hb).place 0 en hen, if_neg (Nat.succ_ne_zero j),
      slotNo_eq (onTrack_of_fits hX hc hfits _ hn) hslots (hc _ (Nat.succ_pos j))]
    rfl
  · apply BitVec.eq_of_toNat_eq
    rw [slotAddr_mod hbase, listStart, up32]
    simp

end Places

/-! ## block-mode transfers -/

/-- What the descriptors of a transfer owe the hardware: each link leads to
where the next descriptor is stored, every block after the first starts at a
1024-byte boundary, and no place is used twice. -/
structure LinkedTransfer (base : U64) (l : DescList) : Prop where
  linked : l.entries.IsChain (Follows base)
  aligned : ∀ b ∈ l.blocks.tail, ∀ en, b[0]? = some en →
    ∃ addr, en.1.IsAt base addr ∧ addr % 1024 = 0
  distinct : (l.entries.map Prod.fst).Nodup

/-- The calls whose lists stay within the driver's arithmetic: a random split
has something to split and fits its scratch table, and the layout fits. -/
structure TransferFits (x : BareXfer) (draws : Draws) : Prop where
  split : x.randFlag = true →
    x.size ≠ 0 ∧ ∀ j < x.blockCnt.toNat, pieceCount (draws (BitVec.ofNat 32 j)) x.size ≤ blockCap
  layout : Fits (listCount x draws) (slotsCounted x draws) x.blockCnt.toNat

section Transfer

variable {x : BareXfer} {info : MtdmaChanInfo} {draws : Draws}

theorem listCount_pos (hd : x.descCnt ≠ 0) (hsize : x.randFlag = true → x.size ≠ 0) (j : Nat)
    (hj : 0 < j) : 0 < listCount x draws j := by
  rw [listCount, if_neg hj.ne']
  split
  · next hr => exact pieceCount_pos _ (hsize hr)
  · exact BitVec.toNat_pos_of_ne_zero hd

theorem listCount_lt (j : Nat) : listCount x draws j < 2 ^ 32 := by
  have hlt := x.size.isLt
  have hcount : pieceCount (draws (BitVec.ofNat 32 j)) x.size ≤ 2 ^ 20 :=
    pieceCount_le _ (by omega)
  have hd := x.descCnt.isLt
  rw [listCount]
  split <;> omega

/-- A block that gets its counts had room for its pieces. -/
theorem fit_of_counts {junk : Junk} {j : U32} {r : U32 × (Nat → U32)} (hr : x.randFlag = true)
    (h : blockCounts x junk draws j = some r) : pieceCount (draws j) x.size ≤ blockCap := by
  by_contra hover
  rw [blockCounts, hr, if_pos rfl, splitBlock_eq_none junk (Nat.lt_of_not_le hover)] at h
  cases h

/-- The transfer gets to the enable write. -/
theorem exists_transfer (hb : x.blockCnt ≠ 0) (hd : x.descCnt ≠ 0)
    (hsplit : x.randFlag = true → x.size ≠ 0 ∧
      ∀ j < x.blockCnt.toNat, pieceCount (draws (BitVec.ofNat 32 j)) x.size ≤ blockCap)
    (junk : Junk) : ∃ l, xferBlock x info junk draws = some l := by
  refine exists_xferBlock (P := fun _ _ => True) hb (fun j st hj _ => ?_) trivial
  have hlt : j < 2 ^ 32 := hj.trans x.blockCnt.isLt
  obtain ⟨⟨n, sizes⟩, hcounts⟩ :
      ∃ r, blockCounts x junk draws (BitVec.ofNat 32 j) = some r := by
    cases hr : x.randFlag with
    | false => exact ⟨_, by simp only [blockCounts, hr, Bool.false_eq_true, if_false]; rfl⟩
    | true =>
        obtain ⟨hsize, hfit⟩ := hsplit hr
        obtain ⟨ps, n, sizes, _, hcounts, _⟩ := blockCounts_random junk hr hsize (hfit j hj)
        exact ⟨_, hcounts⟩
  obtain ⟨hn, hmax⟩ := counts_eq (fun hr => (hsplit hr).1) hlt hcounts
  cases Nat.eq_zero_or_pos j with
  | inl h0 =>
      subst h0
      have hsucc : n + 1 ≠ 0 := fun hz => by
        have hnat := congrArg BitVec.toNat hz
        rw [BitVec.toNat_add] at hnat
        simp at hnat
        omega
      exact ⟨_, _, blockRound_zero.mpr ⟨n, sizes, hcounts, hsucc, rfl, rfl⟩, trivial⟩
  | inr hpos =>
      have hn0 : n ≠ 0 := fun hz => by
        have hcount : 0 < listCount x draws j :=
          listCount_pos hd (fun hr => (hsplit hr).1) j hpos
        rw [← hn, hz] at hcount
        exact absurd hcount (by decide)
      exact ⟨_, _, (blockRound_later (ofNat_ne_zero hpos hlt)).mpr
        ⟨n, sizes, hcounts, hn0, rfl, rfl⟩, trivial⟩

/-- A random split of nothing leaves its count unset, and some count never
gets there. -/
theorem size_of_transfer {junk : Junk} {l : DescList} (hjunk : junk.descCntTmp 0 = -1)
    (hb : x.blockCnt ≠ 0) (hr : x.randFlag = true)
    (hl : xferBlock x info junk draws = some l) : x.size ≠ 0 := by
  intro hsize
  obtain ⟨hlen, sts, _, hblocks⟩ := xferBlock_eq_some hl
  have hpos : 0 < x.blockCnt.toNat := BitVec.toNat_pos_of_ne_zero hb
  obtain ⟨n, sizes, hcounts, hn, _⟩ :=
    blockRound_zero.mp (hblocks 0 _ (List.getElem?_eq_getElem (by omega)))
  simp only [blockCounts, hr, if_true, splitBlock, hsize] at hcounts
  simp [randSplit] at hcounts
  have hn0 : junk.descCntTmp 0 = n := hcounts.1
  exact hn (by rw [← hn0, hjunk]; rfl)

/-- Blocks that are there had room for their pieces. -/
theorem fits_of_transfer {junk : Junk} {l : DescList} (hr : x.randFlag = true)
    (hl : xferBlock x info junk draws = some l) (j : Nat) (hj : j < x.blockCnt.toNat) :
    pieceCount (draws (BitVec.ofNat 32 j)) x.size ≤ blockCap := by
  obtain ⟨hlen, sts, _, hblocks⟩ := xferBlock_eq_some hl
  have hround := hblocks j _ (List.getElem?_eq_getElem (by omega))
  have hmax := x.blockCnt.isLt
  cases Nat.eq_zero_or_pos j with
  | inl h0 =>
      subst h0
      obtain ⟨n, sizes, hcounts, _⟩ := blockRound_zero.mp hround
      exact fit_of_counts hr hcounts
  | inr hpos =>
      obtain ⟨n, sizes, hcounts, _⟩ := (blockRound_later (ofNat_ne_zero hpos (by omega))).mp hround
      exact fit_of_counts hr hcounts

/-- Calls whose lists fit have linked descriptors. -/
theorem linked_of_transferFits (hbase : x.listBase info % 1024 = 0) (hb : x.blockCnt ≠ 0)
    (hd : x.descCnt ≠ 0) (h : TransferFits x draws) (junk : Junk) :
    ∃ l, xferBlock x info junk draws = some l ∧ LinkedTransfer (x.listBase info) l := by
  have hcounters := counters_slotsCounted x draws
  have hX := hcounters.zero
  have hsplit : x.randFlag = true → x.size ≠ 0 := fun hr => (h.split hr).1
  have hc : ∀ j, 0 < j → 0 < listCount x draws j := listCount_pos hd hsplit
  have hc0 : listCount x draws 0 < 2 ^ 32 := listCount_lt 0
  obtain ⟨l, hl⟩ : ∃ l, xferBlock x info junk draws = some l := exists_transfer hb hd h.split junk
  obtain ⟨hlen, hblocks⟩ := blocks_shape hbase hsplit hl
  have hshape := fun j b hj => (hblocks j b hj).1
  have hfits := h.layout
  have hmax := x.blockCnt.isLt.le
  rw [← hlen] at hfits hmax
  refine ⟨l, hl, ?_, ?_, ?_⟩
  · exact (linked_iff hshape (fun j h0 _ => hc j (Nat.pos_of_ne_zero h0)) hc0).mpr
      ((links_agree_iff hcounters hc hc0 hmax).mpr hfits)
  · intro b hb' en hen
    obtain ⟨j, hj⟩ := List.mem_iff_getElem?.mp hb'
    rw [List.getElem?_tail] at hj
    exact starts_aligned hshape hX hc hfits hbase hj hen
  · have hasc := places_ascend hshape hX hc hc0 hfits
    rw [List.nodup_iff_pairwise_ne, List.pairwise_map]
    exact hasc.imp Lli.Before.ne

/-- Calls whose descriptors are linked have lists that fit. -/
theorem transferFits_of_linked (hbase : x.listBase info % 1024 = 0) (hb : x.blockCnt ≠ 0)
    (hd : x.descCnt ≠ 0)
    (h : ∀ junk, ∃ l, xferBlock x info junk draws = some l ∧
      LinkedTransfer (x.listBase info) l) : TransferFits x draws := by
  have hsplit : x.randFlag = true → x.size ≠ 0 := fun hr =>
    let ⟨_, hl, _⟩ := h ⟨0, .regs, fun _ => -1, fun _ _ => 0⟩
    size_of_transfer rfl hb hr hl
  obtain ⟨l, hl, hlinked⟩ := h default
  obtain ⟨hlen, hshape⟩ := blocks_shape hbase hsplit hl
  refine ⟨fun hr => ⟨hsplit hr, fits_of_transfer hr hl⟩, ?_⟩
  have hagree := (linked_iff (fun j b hj => (hshape j b hj).1)
    (fun j h0 hj => (hshape j _ (List.getElem?_eq_getElem hj)).2 h0)
    (listCount_lt 0)).mp hlinked.linked
  rw [hlen] at hagree
  exact (links_agree_iff (counters_slotsCounted x draws) (listCount_pos hd hsplit)
    (listCount_lt 0) x.blockCnt.isLt.le).mp hagree

/-- **Block-mode links**: with a list base aligned to 1024 bytes, the
descriptors of a block-mode call are linked, whatever the uninitialised
locals hold, exactly when the call's lists stay within the driver's
arithmetic. -/
theorem block_links_iff (hbase : x.listBase info % 1024 = 0) (hb : x.blockCnt ≠ 0)
    (hd : x.descCnt ≠ 0) :
    (∀ junk, ∃ l, xferBlock x info junk draws = some l ∧ LinkedTransfer (x.listBase info) l) ↔
      TransferFits x draws :=
  ⟨transferFits_of_linked hbase hb hd, linked_of_transferFits hbase hb hd⟩

end Transfer

/-- Three blocks of five bytes, each divided in two, with device lists. -/
def fiveBytesThrice : BareXfer := ⟨1, 0, 1, 3, 0x1000, 0x2000, 5⟩

theorem block_links_iff_fiveBytesThrice :
    (∀ junk, ∃ l, xferBlock fiveBytesThrice default junk default = some l ∧
        LinkedTransfer (fiveBytesThrice.listBase default) l) ↔
      TransferFits fiveBytesThrice default :=
  block_links_iff (by decide) (by decide) (by decide)

/-- Two random blocks of one piece each, with host lists. -/
def hostPieces : BareXfer := ⟨1, 1, 0x80000000, 2, 0x1000, 0x2000, 5⟩

/-- The first block links to slot 32, but the second one is stored in slot
33: it counts one earlier list descriptor where there is none. -/
theorem hostPieces_not_linked :
    hostPieces.listBase default % 1024 = 0 ∧ hostPieces.blockCnt ≠ 0 ∧ hostPieces.descCnt ≠ 0 ∧
      (∃ l, xferBlock hostPieces default default default = some l ∧
        (l.entries.map fun en => (en.1, en.2.lar)) =
          [(.regs, slotAddr 0 32), (.slot 33, slotAddr 0 64)] ∧
        ¬ l.entries.IsChain (Follows (hostPieces.listBase default))) ∧
      ¬ ∀ junk, ∃ l, xferBlock hostPieces default junk default = some l ∧
        LinkedTransfer (hostPieces.listBase default) l := by
  have hrun : ∃ l, xferBlock hostPieces default default default = some l ∧
      (l.entries.map fun en => (en.1, en.2.lar)) =
        [(.regs, slotAddr 0 32), (.slot 33, slotAddr 0 64)] ∧
      ¬ l.entries.IsChain (Follows (hostPieces.listBase default)) :=
    ⟨_, rfl, by decide, by decide⟩
  refine ⟨by decide, by decide, by decide, hrun, fun h => ?_⟩
  obtain ⟨l, hl, _, hnot⟩ := hrun
  obtain ⟨l', hl', hlinked⟩ := h default
  obtain rfl := Option.some.inj (hl.symm.trans hl')
  exact hnot hlinked.linked

end MtEmu
