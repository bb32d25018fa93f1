import MtEmu.Bare.Counters

/-!
# MtEmu.Bare.Block

What block mode copies.

`blockLoop_inv` takes a successful run apart into its rounds and
`exists_blockLoop` puts one together; the two inversions `blockRound_zero`
and `blockRound_later` say what a round needs and leaves.

A later block of a random split covers its `size` bytes from
`sar + j * size`, with the product taken in 32 bits (`laterBlock_covers`).
The first block does not move its pointers: with two descriptors or more,
all of them start at `sar` (`firstBlock_start`), so it copies right only
when it is a single piece.
-/

namespace MtEmu

open Loop

/-! ## the loop over blocks -/

section Rounds

variable {x : BareXfer} {info : MtdmaChanInfo} {junk : Junk} {draws : Draws}

/-- A loop that ends went through its rounds one after the other. -/
theorem blockLoop_inv {n i : Nat} {st : BlockState} {bs : List (List Entry)}
    (h : blockLoop x info junk draws n (BitVec.ofNat 32 i) st = some bs) :
    bs.length = n ∧ ∃ sts : Nat → BlockState, sts 0 = st ∧ ∀ k b, bs[k]? = some b →
      blockRound x info junk draws (BitVec.ofNat 32 (i + k)) (sts k) = some (b, sts (k + 1)) := by
  induction n generalizing i st bs with
  | zero =>
      rw [blockLoop, Option.some.injEq] at h
      subst h
      exact ⟨rfl, fun _ => st, rfl, fun k b hb => by simp at hb⟩
  | succ n ih =>
      simp only [blockLoop, Option.bind_eq_bind, Option.bind_eq_some_iff] at h
      obtain ⟨⟨es, st'⟩, hround, rest, hrest, heq⟩ := h
      obtain rfl := Option.some.inj heq
      rw [← ofNat_succ] at hrest
      obtain ⟨hlen, sts, hst, hk⟩ := ih hrest
      refine ⟨congrArg Nat.succ hlen, fun k => k.casesOn st fun k => sts k, rfl, ?_⟩
      intro k b hb
      cases k with
      | zero =>
          obtain rfl := Option.some.inj hb
          change blockRound x info junk draws (BitVec.ofNat 32 i) st = some (es, sts 0)
          rw [hst]
          exact hround
      | succ k =>
          rw [show i + (k + 1) = i + 1 + k by omega]
          exact hk k b hb

/-- Rounds that keep an invariant of the block counters make a loop that
ends. -/
theorem exists_blockLoop {n i : Nat} {st : BlockState} {P : Nat → BlockState → Prop}
    (hround : ∀ k st, k < n → P k st → ∃ b st',
      blockRound x info junk draws (BitVec.ofNat 32 (i + k)) st = some (b, st') ∧ P (k + 1) st')
    (h0 : P 0 st) : ∃ bs, blockLoop x info junk draws n (BitVec.ofNat 32 i) st = some bs := by
  induction n generalizing i st P with
  | zero => exact ⟨[], rfl⟩
  | succ n ih =>
      obtain ⟨b, st', hb, hP⟩ := hround 0 st (Nat.succ_pos n) h0
      obtain ⟨bs, hbs⟩ := @ih (i + 1) st' (fun k => P (k + 1)) (fun k st hk hs => by
        rw [show i + 1 + k = i + (k + 1) by omega]
        exact hround (k + 1) st (Nat.succ_lt_succ hk) hs) hP
      rw [ofNat_succ] at hbs
      rw [Nat.add_zero] at hb
      refine ⟨b :: bs, ?_⟩
      simp only [blockLoop, Option.bind_eq_bind, hb, Option.bind_some, hbs]

/-- What is fixed in block `j`. -/
abbrev blockEnv (x : BareXfer) (info : MtdmaChanInfo) (j : U32) (st : BlockState) (n : U32)
    (sizes : Nat → U32) : ListEnv :=
  ⟨x, x.listBase info, j, n, st.descCntTotal, sizes⟩

/-- The counters the first block starts with. -/
def firstCursor (x : BareXfer) (st : BlockState) (n : U32) : Cursor :=
  let sizeTmp := if x.randFlag then 0 else x.size
  ⟨x.sar, x.dar, sizeTmp, sizeTmp / (n + 1), st.offset⟩

/-- The counters a later block starts with. -/
def laterCursor (x : BareXfer) (j : U32) (st : BlockState) (n : U32) : Cursor :=
  let sizeTmp := if x.randFlag then 0 else x.size
  ⟨x.sar + (j * x.size).setWidth 64, x.dar + (j * x.size).setWidth 64, sizeTmp, sizeTmp / n,
    st.offset⟩

/-- The loop over the descriptors of the first block. -/
def firstRounds (x : BareXfer) (info : MtdmaChanInfo) (st : BlockState) (n : U32)
    (sizes : Nat → U32) : List Entry × Cursor :=
  rounds (blockEnv x info 0 st n sizes).firstBlockBody (n.toNat + 1) 0 (firstCursor x st n)

/-- The loop over the descriptors of a later block. -/
def laterRounds (x : BareXfer) (info : MtdmaChanInfo) (j : U32) (st : BlockState) (n : U32)
    (sizes : Nat → U32) : List Entry × Cursor :=
  rounds (blockEnv x info j st n sizes).nextBlockBody n.toNat 0 (laterCursor x j st n)

/-- The first block of a transfer. -/
theorem blockRound_zero {st st' : BlockState} {es : List Entry} :
    blockRound x info junk draws 0 st = some (es, st') ↔
      ∃ n sizes, blockCounts x junk draws 0 = some (n, sizes) ∧ n + 1 ≠ 0 ∧
        es = (firstRounds x info st n sizes).1 ∧
        st' = ⟨(firstRounds x info st n sizes).2.offset, st.descCntTotal + n⟩ := by
  simp only [blockRound, Option.bind_eq_bind, Option.bind_eq_some_iff, if_true, firstRounds,
    firstCursor]
  constructor
  · rintro ⟨⟨n, sizes⟩, hc, hr⟩
    split at hr
    · cases hr
    · next hn =>
        cases hr
        exact ⟨n, sizes, hc, hn, rfl, rfl⟩
  · rintro ⟨n, sizes, hc, hn, rfl, rfl⟩
    exact ⟨(n, sizes), hc, if_neg hn⟩

/-- A later block of a transfer. -/
theorem blockRound_later {j : U32} (hj : j ≠ 0) {st st' : BlockState} {es : List Entry} :
    blockRound x info junk draws j st = some (es, st') ↔
      ∃ n sizes, blockCounts x junk draws j = some (n, sizes) ∧ n ≠ 0 ∧
        es = (laterRounds x info j st n sizes).1 ∧
        st' = ⟨(laterRounds x info j st n sizes).2.offset, st.descCntTotal + n⟩ := by
  simp only [blockRound, Option.bind_eq_bind, Option.bind_eq_some_iff, if_neg hj, laterRounds,
    laterCursor]
  constructor
  · rintro ⟨⟨n, sizes⟩, hc, hr⟩
    split at hr
    · cases hr
    · next hn =>
        cases hr
        exact ⟨n, sizes, hc, hn, rfl, rfl⟩
  · rintro ⟨n, sizes, hc, hn, rfl, rfl⟩
    exact ⟨(n, sizes), hc, if_neg hn⟩

/-! ## the first block -/

/-- Every descriptor of the first block starts at `sar` and `dar`. -/
theorem firstBlock_start {st : BlockState} {n : U32} {sizes : Nat → U32} :
    ∀ (k : Nat) (en : Entry), (firstRounds x info st n sizes).1[k]? = some en →
      en.2.sar = x.sar ∧ en.2.dar = x.dar :=
  (rounds_spec (BitVec.ofNat 32) (fun _ (c : Cursor) => c.sarTmp = x.sar ∧ c.darTmp = x.dar)
    (fun _ (en : Entry) => en.2.sar = x.sar ∧ en.2.dar = x.dar) ofNat_succ
    (fun _ _ _ hc => ⟨hc, hc⟩) ⟨rfl, rfl⟩).1

theorem length_firstRounds (st : BlockState) (n : U32) (sizes : Nat → U32) :
    (firstRounds x info st n sizes).1.length = n.toNat + 1 := length_rounds ..

theorem length_laterRounds (j : U32) (st : BlockState) (n : U32) (sizes : Nat → U32) :
    (laterRounds x info j st n sizes).1.length = n.toNat := length_rounds ..

/-- A first block in one piece covers the block. -/
theorem firstBlock_covers {st : BlockState} {sizes : Nat → U32} (hr : x.randFlag = true)
    (hsize : x.size ≠ 0) (h0 : sizes 0 = x.size) :
    Copy.Covers x.sar x.dar x.size.toNat (segsOf (firstRounds x info st 0 sizes).1) := by
  have hlen : ∀ d : DmaChDesc, d.cnt = x.size - 1 → d.seg.len = x.size.toNat := fun d hd =>
    seg_len hd (by simpa [Nat.pos_iff_ne_zero, ← BitVec.toNat_inj] using hsize)
  refine ⟨rfl, rfl, ?_, ?_⟩
  · rw [hlen _ (by simp [ListEnv.firstBlockBody, ListEnv.cnt, ListEnv.elmCnt, hr, h0])]
  · rw [hlen _ (by simp [ListEnv.firstBlockBody, ListEnv.cnt, ListEnv.elmCnt, hr, h0]),
      Nat.sub_self]
    rfl

/-! ## later blocks -/

/-- Every descriptor of a later block moves its length at its offset. -/
theorem laterRounds_moves {j : U32} {st : BlockState} {n : U32} {sizes : Nat → U32} (hn : n ≠ 0)
    (hpos : ∀ k < n.toNat, 0 < (blockEnv x info j st n sizes).len (n - 1) k) :
    ∀ (k : Nat) (en : Entry), (laterRounds x info j st n sizes).1[k]? = some en →
      (blockEnv x info j st n sizes).Moves (n - 1) (x.sar + (j * x.size).setWidth 64)
        (x.dar + (j * x.size).setWidth 64) k en := by
  have hlast := toNat_sub_one hn
  have hn0 : 0 < n.toNat := BitVec.toNat_pos_of_ne_zero hn
  have hmax : n - 1 ≠ -1 := fun h => hn (by rw [← sub_add_cancel n 1, h]; rfl)
  refine (rounds_spec (BitVec.ofNat 32)
    (fun k c => k ≤ (n - 1).toNat → (blockEnv x info j st n sizes).Running (n - 1)
      (x.sar + (j * x.size).setWidth 64) (x.dar + (j * x.size).setWidth 64) k c)
    ((blockEnv x info j st n sizes).Moves (n - 1) _ _) ofNat_succ ?_
    fun _ => ⟨?_, ?_, fun hr => ?_⟩).1
  · intro k c hk hc
    have hrun := hc (by omega)
    have hcnt := ListEnv.cnt_toNat hrun (by omega)
    refine ⟨⟨hrun.sar, hrun.dar, ?_⟩, fun hk' => hrun.next hk' hmax rfl rfl rfl rfl⟩
    exact (seg_len rfl (hcnt ▸ hpos k hk)).trans hcnt
  · simp [laterCursor, ListEnv.start]
  · simp [laterCursor, ListEnv.start]
  · rw [laterCursor, if_neg (by simpa using hr), sub_add_cancel]
    exact ⟨rfl, by simp [ListEnv.start]⟩

/-- The counts of a random block that fits the table: one descriptor for
each piece, less the one in the registers for the first block. -/
theorem blockCounts_random (junk : Junk) {j : U32} (hr : x.randFlag = true) (hsize : x.size ≠ 0)
    (hfit : pieceCount (draws j) x.size ≤ blockCap) :
    ∃ (ps : List U32) (n : U32) (sizes : Nat → U32), Pieces x.size (draws j) ps ∧
      blockCounts x junk draws j = some (n, sizes) ∧
      (sizes = fun i => ps.getD i (junk.descSize j i)) ∧
      n.toNat = (if j = 0 then ps.length - 1 else ps.length) ∧
      0 < ps.length ∧ ps.length ≤ 25000 := by
  obtain ⟨ps, hps, hsplit⟩ := splitBlock_eq junk hfit
  have hlen : 0 < ps.length := hps.length ▸ pieceCount_pos _ hsize
  have hcap : ps.length ≤ 25000 := hps.length ▸ hfit
  have hne : ps ≠ [] := List.ne_nil_of_length_pos hlen
  have hn : BitVec.ofNat 32 (ps.length - 1) + 1 = BitVec.ofNat 32 ps.length := by
    rw [← ofNat_succ, Nat.sub_add_cancel hlen]
  refine ⟨ps, if j = 0 then BitVec.ofNat 32 (ps.length - 1) else BitVec.ofNat 32 ps.length, _,
    hps, ?_, rfl, ?_, hlen, hcap⟩
  · simp only [blockCounts, hr, if_true, hsplit, Option.map_some, if_neg hne, hn]
  · split <;> simp <;> omega

/-- **Later blocks**: a random split of block `j` covers its bytes from the
32-bit product `j * size` on. -/
theorem laterBlock_covers {j : U32} (hj : j ≠ 0) (hr : x.randFlag = true) (hsize : x.size ≠ 0)
    (hfit : pieceCount (draws j) x.size ≤ blockCap) (st : BlockState) :
    ∃ es st', blockRound x info junk draws j st = some (es, st') ∧
      Copy.Covers (x.sar + (j * x.size).setWidth 64) (x.dar + (j * x.size).setWidth 64)
        x.size.toNat (segsOf es) := by
  obtain ⟨ps, n, sizes, hps, hcounts, hsizes, hn, hlen, _⟩ :=
    blockCounts_random junk hr hsize hfit
  rw [if_neg hj] at hn
  have hn0 : n ≠ 0 := fun h => by
    rw [h] at hn
    simp at hn
    omega
  refine ⟨(laterRounds x info j st n sizes).1,
    ⟨(laterRounds x info j st n sizes).2.offset, st.descCntTotal + n⟩, ?_, ?_⟩
  · exact (blockRound_later hj).mpr ⟨n, sizes, hcounts, hn0, rfl, rfl⟩
  have hpos : ∀ k < n.toNat, 0 < (blockEnv x info j st n sizes).len (n - 1) k := by
    intro k hk
    exact ListEnv.len_random_pos (e := blockEnv x info j st n sizes) (n - 1) hr hsizes hps
      (hn ▸ hk)
  have hsum := ListEnv.sum_random (e := blockEnv x info j st n sizes) (n - 1) hr hsizes hps
  have hcovers := ListEnv.covers_of_moves (laterRounds_moves hn0 hpos)
  rwa [length_laterRounds, hn, hsum] at hcovers

/-- The first block of a random split whose first draw is enough. -/
theorem firstRound_covers (info : MtdmaChanInfo) (junk : Junk) (hr : x.randFlag = true)
    (hsize : x.size ≠ 0) (hone : x.size ≤ sizeRand (draws 0 0)) (st : BlockState) :
    ∃ es st', blockRound x info junk draws 0 st = some (es, st') ∧
      Copy.Covers x.sar x.dar x.size.toNat (segsOf es) := by
  have hcount := (pieceCount_eq_one_iff (draws 0) hsize).mpr hone
  obtain ⟨ps, n, sizes, hps, hcounts, hsizes, hn, _⟩ :=
    blockCounts_random junk (j := 0) hr hsize (by rw [hcount]; decide)
  have hlen := hps.length.trans hcount
  obtain ⟨p, rfl⟩ := List.length_eq_one_iff.mp hlen
  obtain rfl : n = 0 := BitVec.eq_of_toNat_eq (by simpa using hn)
  have h0 : sizes 0 = x.size := by
    rw [hsizes]
    exact BitVec.eq_of_toNat_eq (by simpa using hps.sum)
  exact ⟨_, _, blockRound_zero.mpr ⟨0, sizes, hcounts, by decide, rfl, rfl⟩,
    firstBlock_covers hr hsize h0⟩

/-- A first block of two descriptors or more starts the second one where the
first one started. -/
theorem firstBlock_single {st : BlockState} {n : U32} {sizes : Nat → U32} {rest : List Entry}
    {a b : U64} {m : Nat} (h : Copy.Covers a b m
      (segsOf ((firstRounds x info st n sizes).1 ++ rest))) : n = 0 := by
  have hlen : (firstRounds x info st n sizes).1.length = n.toNat + 1 := length_firstRounds ..
  have hstart : ∀ (k : Nat) (en : Entry), (firstRounds x info st n sizes).1[k]? = some en →
      en.2.sar = x.sar ∧ en.2.dar = x.dar := firstBlock_start
  generalize (firstRounds x info st n sizes).1 = es at h hlen hstart
  by_contra hn
  have hn0 : 0 < n.toNat := BitVec.toNat_pos_of_ne_zero hn
  match es, hlen, hstart, h with
  | [], hlen, _, _ => simp at hlen
  | [e], hlen, _, _ => simp at hlen; omega
  | e :: e' :: es, _, hstart, h =>
      obtain ⟨hsrc, _⟩ := hstart 0 e rfl
      obtain ⟨hsrc', _⟩ := hstart 1 e' rfl
      obtain ⟨ha, _, _, ha', _⟩ := h
      simp only [DmaChDesc.seg] at ha ha'
      rw [hsrc'] at ha'
      rw [← ha, hsrc, left_eq_add] at ha'
      have hcast := congrArg BitVec.toNat ha'
      have := e.2.cnt.isLt
      rw [BitVec.natCast_eq_ofNat, BitVec.toNat_ofNat] at hcast
      simp at hcast
      omega

/-! ## the announced counts -/

/-- The count field of `LBAR_BASIC`. -/
theorem lbarBasic_count (x : BareXfer) (n : U32) :
    (lbarBasic x n >>> 16).toNat = n.toNat % 65536 := by
  have hen : x.chainEn.toNat >>> 16 = 0 := by
    unfold BareXfer.chainEn
    split <;> rfl
  rw [lbarBasic, BitVec.toNat_ushiftRight, BitVec.toNat_or, Nat.shiftRight_or_distrib, hen,
    Nat.or_zero, BitVec.toNat_shiftLeft, Nat.shiftLeft_eq, Nat.shiftRight_eq_div_pow]
  omega

/-- The count field of a `desc_op`. -/
theorem descOp_count (n : U32) : ((n * 65536 + 1) >>> 16).toNat = n.toNat % 65536 := by
  rw [BitVec.toNat_ushiftRight, Nat.shiftRight_eq_div_pow, BitVec.toNat_add, BitVec.toNat_mul]
  simp
  omega

/-- The count field of a last descriptor's `desc_op`. -/
theorem lastDescOp_count {e : ListEnv} (h : e.j ≠ e.x.blockCnt - 1) :
    (e.lastDescOp >>> 16).toNat = e.descCntTmp.toNat % 65536 := by
  rw [ListEnv.lastDescOp, if_pos h, descOp_count]

/-- The last descriptor of the first block. -/
theorem firstRounds_lastDescOp (st : BlockState) (n : U32) (sizes : Nat → U32) {en : Entry}
    (h : (firstRounds x info st n sizes).1[n.toNat]? = some en) :
    en.2.descOp = (blockEnv x info 0 st n sizes).lastDescOp := by
  have hlt := n.isLt
  refine (rounds_spec (BitVec.ofNat 32) (fun _ _ => True)
    (fun k (en : Entry) => k = n.toNat → en.2.descOp = (blockEnv x info 0 st n sizes).lastDescOp)
    ofNat_succ (fun k c _ _ => ⟨fun hk => ?_, trivial⟩) trivial).1 _ en h rfl
  have hidx : BitVec.ofNat 32 k = n := by rw [hk, BitVec.ofNat_toNat, BitVec.setWidth_eq]
  exact if_pos hidx

/-- The last descriptor of a later block. -/
theorem laterRounds_lastDescOp (j : U32) (st : BlockState) {n : U32} (sizes : Nat → U32)
    (hn : n ≠ 0) {en : Entry}
    (h : (laterRounds x info j st n sizes).1[n.toNat - 1]? = some en) :
    en.2.descOp = (blockEnv x info j st n sizes).lastDescOp := by
  refine (rounds_spec (BitVec.ofNat 32) (fun _ _ => True)
    (fun k (en : Entry) => k = n.toNat - 1 →
      en.2.descOp = (blockEnv x info j st n sizes).lastDescOp)
    ofNat_succ (fun k c _ _ => ⟨fun hk => ?_, trivial⟩) trivial).1 _ en h rfl
  have hidx : BitVec.ofNat 32 k = n - 1 := by
    rw [hk, ← toNat_sub_one hn, BitVec.ofNat_toNat, BitVec.setWidth_eq]
  exact if_pos hidx

/-! ## the whole transfer -/

/-- A transfer that gets to the enable write, block by block. -/
theorem xferBlock_eq_some {l : DescList} :
    xferBlock x info junk draws = some l → l.blocks.length = x.blockCnt.toNat ∧
      ∃ sts : Nat → BlockState, sts 0 = ⟨0, 0⟩ ∧ ∀ k b, l.blocks[k]? = some b →
        blockRound x info junk draws (BitVec.ofNat 32 k) (sts k) = some (b, sts (k + 1)) := by
  intro h
  simp only [xferBlock, Option.bind_eq_bind, Option.bind_eq_some_iff] at h
  obtain ⟨c, _, bs, hbs, heq⟩ := h
  obtain rfl := Option.some.inj heq
  obtain ⟨hlen, sts, h0, hk⟩ := blockLoop_inv (i := 0) hbs
  exact ⟨hlen, sts, h0, fun k b hkb => by simpa using hk k b hkb⟩

/-- Rounds that keep an invariant make a transfer that gets there. -/
theorem exists_xferBlock (hb : x.blockCnt ≠ 0) {P : Nat → BlockState → Prop}
    (hround : ∀ k st, k < x.blockCnt.toNat → P k st → ∃ b st',
      blockRound x info junk draws (BitVec.ofNat 32 k) st = some (b, st') ∧ P (k + 1) st')
    (h0 : P 0 ⟨0, 0⟩) : ∃ l, xferBlock x info junk draws = some l := by
  obtain ⟨bs, hbs⟩ := exists_blockLoop (i := 0) (by simpa using hround) h0
  have hpos : 0 < x.blockCnt.toNat := BitVec.toNat_pos_of_ne_zero hb
  obtain ⟨b, st', hb0, _⟩ := hround 0 _ hpos h0
  obtain ⟨n, sizes, hc, _⟩ := blockRound_zero.mp hb0
  have hbs0 : blockLoop x info junk draws x.blockCnt.toNat 0 ⟨0, 0⟩ = some bs := hbs
  exact ⟨⟨lbarBasic x n, bs⟩,
    by simp only [xferBlock, hc, Option.bind_eq_bind, Option.bind_some, hbs0]⟩

theorem segsOf_entries (l : DescList) : segsOf l.entries = (l.blocks.map segsOf).flatten := by
  rw [DescList.entries, segsOf, List.map_flatten]
  rfl

theorem copied_entries_iff (l : DescList) (n : Nat) (a b : U64) :
    Copy.copied (segsOf l.entries) = Copy.block n a b ↔ Copy.Covers a b n (segsOf l.entries) := by
  apply Copy.copied_eq_block_iff
  intro s hs
  obtain ⟨en, _, rfl⟩ := List.mem_map.mp hs
  exact en.2.seg_len_pos

/-- Block `k` starts where 32-bit arithmetic puts it. -/
theorem blockStart_eq (x : BareXfer) (k : Nat) :
    (BitVec.ofNat 32 k * x.size).setWidth 64 = ((k * x.size.toNat % 2 ^ 32 : Nat) : U64) := by
  rw [setWidth_eq_cast, BitVec.toNat_mul, BitVec.toNat_ofNat, Nat.mod_mul_mod]

/-- What a block copies when its split is random. -/
theorem round_covers (info : MtdmaChanInfo) (junk : Junk) (hr : x.randFlag = true)
    (hsize : x.size ≠ 0) (hone : x.size ≤ sizeRand (draws 0 0)) {k : Nat} (hk : k < x.blockCnt.toNat)
    (st : BlockState) :
    ∃ es st', blockRound x info junk draws (BitVec.ofNat 32 k) st = some (es, st') ∧
      Copy.Covers (x.sar + ((k * x.size.toNat % 2 ^ 32 : Nat) : U64))
        (x.dar + ((k * x.size.toNat % 2 ^ 32 : Nat) : U64)) x.size.toNat (segsOf es) := by
  cases Nat.eq_zero_or_pos k with
  | inl h =>
      subst h
      simpa using firstRound_covers info junk hr hsize hone st
  | inr h =>
      have hsmall : x.size.toNat ≤ 16 * 4096 := by
        have := (sizeRand_bounds (draws 0 0)).2
        rw [BitVec.le_def] at hone
        omega
      have hfit : pieceCount (draws (BitVec.ofNat 32 k)) x.size ≤ blockCap :=
        (pieceCount_le _ hsmall).trans (by decide)
      have hlt : k < 2 ^ 32 := hk.trans x.blockCnt.isLt
      rw [← blockStart_eq]
      exact laterBlock_covers (ofNat_ne_zero h hlt) hr hsize hfit st

/-- In such a transfer every block covers `size` bytes from its own start. -/
theorem blocks_cover {l : DescList} (hr : x.randFlag = true) (hsize : x.size ≠ 0)
    (hone : x.size ≤ sizeRand (draws 0 0)) (hl : xferBlock x info junk draws = some l) :
    (l.blocks.map segsOf).length = x.blockCnt.toNat ∧
      ∀ k segs, (l.blocks.map segsOf)[k]? = some segs →
        Copy.Covers (x.sar + ((k * x.size.toNat % 2 ^ 32 : Nat) : U64))
          (x.dar + ((k * x.size.toNat % 2 ^ 32 : Nat) : U64)) x.size.toNat segs := by
  obtain ⟨hlen, sts, _, hblocks⟩ := xferBlock_eq_some hl
  refine ⟨(List.length_map _).trans hlen, fun k segs hk => ?_⟩
  rw [List.getElem?_map, Option.map_eq_some_iff] at hk
  obtain ⟨b, hkb, rfl⟩ := hk
  have hlt : k < x.blockCnt.toNat := hlen ▸ (List.getElem?_eq_some_iff.mp hkb).1
  obtain ⟨es, st', hround, hes⟩ := round_covers info junk hr hsize hone hlt (sts k)
  obtain ⟨rfl, _⟩ := Prod.mk.inj (Option.some.inj ((hblocks k b hkb).symm.trans hround))
  exact hes

/-- **Block mode copies** when every split is random, the first block is one
piece and no block starts past 32 bits. -/
theorem block_copies (hb : x.blockCnt ≠ 0) (hr : x.randFlag = true) (hsize : x.size ≠ 0)
    (hone : x.size ≤ sizeRand (draws 0 0))
    (hwrap : (x.blockCnt.toNat - 1) * x.size.toNat < 2 ^ 32) :
    ∃ l, xferBlock x info junk draws = some l ∧
      Copy.copied (segsOf l.entries) =
        Copy.block (x.blockCnt.toNat * x.size.toNat) x.sar x.dar := by
  obtain ⟨l, hl⟩ := exists_xferBlock (P := fun _ _ => True) hb
    (fun k st hk _ => by
      obtain ⟨es, st', hround, _⟩ := round_covers info junk hr hsize hone hk st
      exact ⟨es, st', hround, trivial⟩) trivial
  obtain ⟨hlen, hblocks⟩ := blocks_cover hr hsize hone hl
  refine ⟨l, hl, (copied_entries_iff ..).mpr ?_⟩
  have hcovers : Copy.Covers x.sar x.dar ((l.blocks.map segsOf).length * x.size.toNat)
      (l.blocks.map segsOf).flatten := by
    refine Copy.covers_flatten fun k segs hk => ?_
    have hlt : k < x.blockCnt.toNat := hlen ▸ (List.getElem?_eq_some_iff.mp hk).1
    have hle : k * x.size.toNat ≤ (x.blockCnt.toNat - 1) * x.size.toNat :=
      Nat.mul_le_mul_right _ (by omega)
    have hes := hblocks k segs hk
    rwa [Nat.mod_eq_of_lt (hle.trans_lt hwrap)] at hes
  rwa [hlen, ← segsOf_entries] at hcovers

/-- What the first block says about the call: the split is random, the size
is not zero and the first draw is enough. -/
theorem first_of_covers {l : DescList} {m : Nat} (hb : x.blockCnt ≠ 0) (hd : x.descCnt ≠ 0)
    (hl : xferBlock x info junk draws = some l)
    (hcovers : Copy.Covers x.sar x.dar (m * x.size.toNat) (segsOf l.entries)) :
    x.randFlag = true ∧ x.size ≠ 0 ∧ x.size ≤ sizeRand (draws 0 0) := by
  obtain ⟨hlen, sts, _, hblocks⟩ := xferBlock_eq_some hl
  have hpos : 0 < x.blockCnt.toNat := BitVec.toNat_pos_of_ne_zero hb
  rw [DescList.entries] at hcovers
  cases hbs : l.blocks with
  | nil => rw [hbs] at hlen; simp at hlen; omega
  | cons b rest =>
      rw [hbs, List.flatten_cons] at hcovers
      obtain ⟨n, sizes, hcounts, _, rfl, _⟩ := blockRound_zero.mp (hblocks 0 b (by rw [hbs]; rfl))
      have hn := firstBlock_single hcovers
      subst hn
      have hr : x.randFlag = true := by
        cases hr : x.randFlag with
        | true => rfl
        | false =>
            simp only [blockCounts, hr, Bool.false_eq_true, if_false, Option.some.injEq] at hcounts
            exact absurd (Prod.mk.inj hcounts).1 hd
      have hsize : x.size ≠ 0 := by
        intro h0
        have htotal := hcovers.total_eq
        cases hes : (firstRounds x info (sts 0) 0 sizes).1 with
        | nil =>
            have hlen0 : (firstRounds x info (sts 0) 0 sizes).1.length = 1 := length_firstRounds ..
            rw [hes] at hlen0
            cases hlen0
        | cons en es =>
            rw [hes, h0] at htotal
            simp [segsOf, DmaChDesc.seg] at htotal
      refine ⟨hr, hsize, ?_⟩
      by_cases hfit : pieceCount (draws 0) x.size ≤ blockCap
      · obtain ⟨ps, n, sizes', hps, hcounts', _, hn, hlen, _⟩ :=
          blockCounts_random junk hr hsize hfit
        obtain ⟨rfl, _⟩ := Prod.mk.inj (Option.some.inj (hcounts.symm.trans hcounts'))
        rw [← pieceCount_eq_one_iff _ hsize, ← hps.length]
        simp at hn
        omega
      · rw [blockCounts, hr, if_pos rfl, splitBlock_eq_none junk (Nat.lt_of_not_le hfit)] at hcounts
        cases hcounts

/-- No block starts past 32 bits when the transfer covers its bytes: the last
block would start too low. -/
theorem wrap_of_covers {l : DescList} (hb : x.blockCnt ≠ 0) (hr : x.randFlag = true)
    (hsize : x.size ≠ 0) (hone : x.size ≤ sizeRand (draws 0 0))
    (hl : xferBlock x info junk draws = some l)
    (hcovers : Copy.Covers x.sar x.dar (x.blockCnt.toNat * x.size.toNat) (segsOf l.entries)) :
    (x.blockCnt.toNat - 1) * x.size.toNat < 2 ^ 32 := by
  have hpos : 0 < x.blockCnt.toNat := BitVec.toNat_pos_of_ne_zero hb
  have hn : x.size.toNat ≠ 0 := fun h => hsize (BitVec.eq_of_toNat_eq h)
  obtain ⟨hlen, hblocks⟩ := blocks_cover hr hsize hone hl
  rw [segsOf_entries] at hcovers
  have hstart := hcovers.start_of_flatten hn hblocks (k := x.blockCnt.toNat - 1) (by omega)
  have hnat := congrArg BitVec.toNat (add_left_cancel hstart)
  have hlt : (x.blockCnt.toNat - 1) * x.size.toNat < 2 ^ 64 := by
    calc (x.blockCnt.toNat - 1) * x.size.toNat < 2 ^ 32 * 2 ^ 32 :=
          Nat.mul_lt_mul'' (by have := x.blockCnt.isLt; omega) x.size.isLt
      _ = 2 ^ 64 := by decide
  rw [BitVec.natCast_eq_ofNat, BitVec.natCast_eq_ofNat, BitVec.toNat_ofNat, BitVec.toNat_ofNat,
    Nat.mod_eq_of_lt hlt, Nat.mod_eq_of_lt ((Nat.mod_lt _ (by decide)).trans (by decide))] at hnat
  exact hnat ▸ Nat.mod_lt _ (by decide)

/-- **Block mode**: a block-mode call copies its `block_cnt * size` bytes
exactly when the split is random, the size is not zero, the first draw of the
first block covers it, and no block starts past 32 bits. -/
theorem block_copies_iff (hb : x.blockCnt ≠ 0) (hd : x.descCnt ≠ 0) :
    (∃ l, xferBlock x info junk draws = some l ∧ Copy.copied (segsOf l.entries) =
        Copy.block (x.blockCnt.toNat * x.size.toNat) x.sar x.dar) ↔
      x.randFlag = true ∧ x.size ≠ 0 ∧ x.size ≤ sizeRand (draws 0 0) ∧
        (x.blockCnt.toNat - 1) * x.size.toNat < 2 ^ 32 := by
  constructor
  · rintro ⟨l, hl, hcopied⟩
    have hcovers := (copied_entries_iff ..).mp hcopied
    obtain ⟨hr, hsize, hone⟩ := first_of_covers hb hd hl hcovers
    exact ⟨hr, hsize, hone, wrap_of_covers hb hr hsize hone hl hcovers⟩
  · rintro ⟨hr, hsize, hone, hwrap⟩
    exact block_copies hb hr hsize hone hwrap

end Rounds

/-- Two blocks of five bytes, split at random: each is one piece. -/
def fiveBytesTwice : BareXfer := ⟨1, 0, 0x80000000, 2, 0x1000, 0x2000, 5⟩

theorem block_copies_iff_fiveBytesTwice :
    (∃ l, xferBlock fiveBytesTwice default default default = some l ∧
        Copy.copied (segsOf l.entries) = Copy.block (2 * 5) 0x1000 0x2000) ↔
      fiveBytesTwice.randFlag = true ∧ fiveBytesTwice.size ≠ 0 ∧
        fiveBytesTwice.size ≤ sizeRand 0 ∧ (2 - 1) * 5 < 2 ^ 32 :=
  @block_copies_iff fiveBytesTwice default default default (by decide) (by decide)

/-- One block of two bytes, divided in two. -/
def twoBytes : BareXfer := ⟨1, 0, 1, 1, 0x1000, 0x2000, 2⟩

/-- Both descriptors of the block start at `sar`, so its first byte is copied
twice. -/
theorem twoBytes_not_copied :
    twoBytes.descCnt ≠ 0 ∧ twoBytes.blockCnt ≠ 0 ∧
      (xferBlock twoBytes default default default).map (fun l => Copy.copied (segsOf l.entries)) =
        some [(0x1000, 0x2000), (0x1000, 0x2000), (0x1001, 0x2001)] ∧
      (xferBlock twoBytes default default default).map (fun l => Copy.copied (segsOf l.entries)) ≠
        some (Copy.block (twoBytes.blockCnt.toNat * twoBytes.size.toNat) twoBytes.sar
          twoBytes.dar) := by
  decide

end MtEmu
