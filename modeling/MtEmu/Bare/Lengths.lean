import MtEmu.Bare.Chain
import MtEmu.Bare.Links
import Mathlib.Algebra.Order.BigOperators.Group.List

/-!
# MtEmu.Bare.Lengths

The lengths that `dma_bare_xfer` writes, in every mode.

A `cnt` holds a length less one, so a length of zero is written as the largest
count.  `cntsWritten` lists every `cnt` a call writes, also of a call that a later
block ends; `cntsOf_dmaBareXfer` says that they are those of its accesses.
A random split has pieces of at least one byte, whatever is drawn; a fixed
division has an empty piece when there are more descriptors than bytes
(`lengths_in_range_iff`).
-/

namespace MtEmu

open Loop

/-! ## the counts that are written -/

/-- The value of a write to a count. -/
def Access.cnt : Access → Option U32
  | .setLL _ .cnt v => some v
  | _ => none

/-- The counts that a run of writes stores. -/
def cntsOf (as : List Access) : List U32 := as.filterMap Access.cnt

/-- The blocks from `j` on that are stored: the `n` of them, or those before the one
that faults. -/
def blocksStored (x : BareXfer) (info : MtdmaChanInfo) (junk : Junk) (draws : Draws) :
    Nat → U32 → BlockState → List (List Entry)
  | 0, _, _ => []
  | n + 1, j, st =>
      match blockRound x info junk draws j st with
      | none => []
      | some (es, st') => es :: blocksStored x info junk draws n (j + 1) st'

/-- The descriptors that chain or block mode stores. -/
def entriesStored (x : BareXfer) (info : MtdmaChanInfo) (junk : Junk) (draws : Draws) :
    List Entry :=
  if x.blockCnt = 0 then (xferChain x info junk draws).elim [] DescList.entries
  else (blocksStored x info junk draws x.blockCnt.toNat 0 ⟨0, 0⟩).flatten

/-- The counts that a call of `dma_bare_xfer` writes. -/
def cntsWritten (x : BareXfer) (info : MtdmaChanInfo) (junk : Junk) (draws : Draws) : List U32 :=
  if x.dirBits = none then []
  else if x.descCnt = 0 then [x.size - 1]
  else (entriesStored x info junk draws).map fun en => en.2.cnt

section Written

variable {x : BareXfer} {info : MtdmaChanInfo} {junk : Junk} {draws : Draws}

theorem cntsOf_append (as bs : List Access) : cntsOf (as ++ bs) = cntsOf as ++ cntsOf bs :=
  List.filterMap_append

theorem cntsOf_storeAll (es : List Entry) :
    cntsOf (es.flatMap fun e => setDesc e.1 e.2) = es.map fun en => en.2.cnt := by
  induction es with
  | nil => rfl
  | cons e es ih =>
      rw [List.flatMap_cons, cntsOf_append, ih]
      rfl

theorem cntsOf_single (mmu : Bool) (addrType : U32) :
    cntsOf (xferSingle mmu addrType x junk) = [x.size - 1] := by
  unfold xferSingle cntsOf
  cases mmu <;> split <;> rfl

/-- A loop that gets through all blocks has stored them all. -/
theorem blocksStored_eq {n : Nat} {j : U32} {st : BlockState} {bs : List (List Entry)}
    (h : blockLoop x info junk draws n j st = some bs) :
    blocksStored x info junk draws n j st = bs := by
  induction n generalizing j st bs with
  | zero => exact Option.some.inj h
  | succ n ih =>
      simp only [blockLoop, Option.bind_eq_bind, Option.bind_eq_some_iff] at h
      obtain ⟨⟨es, st'⟩, hround, rest, hrest, heq⟩ := h
      rw [← Option.some.inj heq, ← ih hrest, blocksStored, hround]

theorem entriesStored_eq {l : DescList} (h : xferDescs x info junk draws = some l) :
    entriesStored x info junk draws = l.entries := by
  unfold xferDescs at h
  unfold entriesStored
  split at h
  · next hb => rw [if_pos hb, h, Option.elim_some]
  · next hb =>
      simp only [xferBlock, Option.bind_eq_bind, Option.bind_eq_some_iff] at h
      obtain ⟨_, _, bs, hbs, heq⟩ := h
      rw [if_neg hb, blocksStored_eq hbs, ← Option.some.inj heq, DescList.entries]

/-- The counts of a call that gets to the enable write are those of its writes. -/
theorem cntsOf_dmaBareXfer {mmu : Bool} {as : List Access}
    (h : dmaBareXfer mmu info x junk draws = .run as) :
    cntsOf as = cntsWritten x info junk draws := by
  obtain ⟨bits, addrType, hdir⟩ := dirBits_of_run h
  rw [cntsWritten, if_neg (by simp [hdir])]
  by_cases h0 : x.descCnt = 0
  · rw [dmaBareXfer_single h0 hdir, XferProg.run.injEq] at h
    rw [if_pos h0, ← h, cntsOf_append, cntsOf_single]
    rfl
  · obtain ⟨l, hl, rfl⟩ := (dmaBareXfer_descs h0 hdir junk as).mp h
    have hmmu : cntsOf (if mmu ∧ x.blockCnt = 0 then [.setCh .mmuAddrType addrType] else []) = [] := by
      split <;> rfl
    rw [if_neg h0, entriesStored_eq hl, descsAccesses, cntsOf_append, cntsOf_append, hmmu,
      ← cntsOf_storeAll]
    exact List.append_nil _

end Written

/-! ## lengths in range -/

/-- A count stands for a length of at least one byte and at most `size`. -/
def LengthIn (size cnt : U32) : Prop := cnt.toNat + 1 ∈ Set.Icc 1 size.toNat

/-- The calls without an empty piece: there is nothing to divide, or the split is
random, or there is a byte for every descriptor. -/
def DividesWell (x : BareXfer) : Prop :=
  x.dirBits = none ∨ x.descCnt = 0 ∨ x.randFlag = true ∨ x.descCnt < x.size

theorem lengthIn_of_len {size : U32} {d : DmaChDesc} (h : d.seg.len ≤ size.toNat) :
    LengthIn size d.cnt := ⟨Nat.succ_pos _, h⟩

namespace ListEnv

variable {e : ListEnv} {last : U32}

theorem len_fixed_le (hr : e.x.randFlag = false) (k : Nat) : e.len last k ≤ e.x.size.toNat := by
  rw [len, hr, BitVec.toNat_udiv]
  simp only [Bool.false_eq_true, if_false]
  split
  · exact Nat.sub_le _ _
  · exact Nat.div_le_self _ _

theorem len_random_le {ps : List U32} {junk : Nat → U32} {r : Nat → U64}
    (hr : e.x.randFlag = true) (hsizes : e.sizes = fun i => ps.getD i (junk i))
    (hps : Pieces e.x.size r ps) {k : Nat} (hk : k < ps.length) :
    e.len last k ≤ e.x.size.toNat := by
  rw [len_random last hr hsizes hk, ← hps.sum]
  exact List.le_sum_of_mem (List.mem_map_of_mem (List.getElem_mem hk))

end ListEnv

section Rounds

variable {x : BareXfer} {info : MtdmaChanInfo} {junk : Junk} {draws : Draws}

/-- A chain whose lengths are in range has its counts in range. -/
theorem chainRounds_lengthIn {e : ListEnv} {c : Cursor}
    (h : e.Running e.descCntTmp e.x.sar e.x.dar 0 c) (hmax : e.descCntTmp.toNat < 2 ^ 31)
    (hlen : ∀ k ≤ e.descCntTmp.toNat, 0 < e.len e.descCntTmp k ∧
      e.len e.descCntTmp k ≤ e.x.size.toNat) :
    ∀ en ∈ (rounds e.chainBody (e.descCntTmp.toNat + 1) 0 c).1, LengthIn e.x.size en.2.cnt := by
  intro en hen
  obtain ⟨k, hk⟩ := List.mem_iff_getElem?.mp hen
  have hlt := (List.getElem?_eq_some_iff.mp hk).1
  rw [length_rounds] at hlt
  have hentry := chainRounds_spec h hmax (fun k hk => (hlen k hk).1) k en hk
  exact lengthIn_of_len (hentry.moves.len ▸ (hlen k (by omega)).2)

/-- The counts of chain mode are right. -/
theorem chain_lengthIn (hsize : x.size ≠ 0) (hdiv : x.randFlag = true ∨ x.descCnt < x.size)
    {l : DescList} (hl : xferChain x info junk draws = some l) :
    ∀ en ∈ l.entries, LengthIn x.size en.2.cnt := by
  rw [xferChain_eq, Option.bind_eq_some_iff] at hl
  obtain ⟨⟨n, sizes⟩, hcounts, hl⟩ := hl
  split at hl
  · contradiction
  next hn =>
  obtain rfl := Option.some.inj hl
  rw [DescList.entries, List.flatten_singleton]
  let e : ListEnv := ⟨x, x.listBase info, 0, n, 0, sizes⟩
  suffices hlen : n.toNat < 2 ^ 31 ∧ e.Running n x.sar x.dar 0 (chainCursor x n) ∧
      ∀ k ≤ n.toNat, 0 < e.len n k ∧ e.len n k ≤ x.size.toNat from
    chainRounds_lengthIn (e := e) hlen.2.1 hlen.1 hlen.2.2
  cases hr : x.randFlag with
  | false =>
      simp only [hr, Bool.false_eq_true, if_false, Option.some.injEq, Prod.mk.injEq] at hcounts
      obtain ⟨rfl, rfl⟩ := hcounts
      have hlt : x.descCnt < x.size := hdiv.resolve_left (by simp [hr])
      refine ⟨descCnt_lt hr, ⟨?_, ?_, fun _ => ?_⟩, fun k _ => ?_⟩
      · simp [chainCursor, hr, ListEnv.start]
      · simp [chainCursor, hr, ListEnv.start]
      · simp [chainCursor, hr, ListEnv.start, e]
      · exact ⟨ListEnv.len_fixed_pos (e := e) hr hlt k, ListEnv.len_fixed_le (e := e) hr k⟩
  | true =>
      rw [if_pos hr] at hcounts
      have hfit : pieceCount (draws 0) x.size ≤ chainCap := by
        by_contra hover
        rw [splitBlock_eq_none junk (Nat.lt_of_not_le hover)] at hcounts
        cases hcounts
      obtain ⟨ps, hps, hsplit⟩ := splitBlock_eq junk hfit
      have hpieces : 0 < ps.length := hps.length ▸ pieceCount_pos _ hsize
      have hcap : ps.length ≤ 262144 := hps.length ▸ hfit
      rw [hsplit, if_neg (List.ne_nil_of_length_pos hpieces), Option.some.injEq,
        Prod.mk.injEq] at hcounts
      obtain ⟨rfl, rfl⟩ := hcounts
      have hnat : (BitVec.ofNat 32 (ps.length - 1)).toNat = ps.length - 1 := by simp; omega
      refine ⟨by omega, ⟨?_, ?_, fun h => ?_⟩, fun k hk => ?_⟩
      · simp [chainCursor, hr, ListEnv.start]
      · simp [chainCursor, hr, ListEnv.start]
      · exact absurd (hr.symm.trans h) (by decide)
      · exact ⟨ListEnv.len_random_pos (e := e) _ hr rfl hps (by omega),
          ListEnv.len_random_le (e := e) hr rfl hps (by omega)⟩

/-- The counts a block works with: those of the call, or one for each piece of its
split. -/
theorem blockCounts_cases (hsize : x.size ≠ 0) {j n : U32} {sizes : Nat → U32}
    (h : blockCounts x junk draws j = some (n, sizes)) :
    (x.randFlag = false ∧ n = x.descCnt) ∨
      (x.randFlag = true ∧ ∃ ps, Pieces x.size (draws j) ps ∧
        sizes = (fun i => ps.getD i (junk.descSize j i)) ∧
        n.toNat = (if j = 0 then ps.length - 1 else ps.length) ∧ 0 < ps.length) := by
  cases hr : x.randFlag with
  | false =>
      simp only [blockCounts, hr, Bool.false_eq_true, if_false, Option.some.injEq] at h
      exact .inl ⟨rfl, (Prod.mk.inj h).1.symm⟩
  | true =>
      obtain ⟨ps, n', sizes', hps, hcounts, hsizes, hn, hlen, _⟩ :=
        blockCounts_random junk hr hsize (fit_of_counts hr h)
      obtain ⟨rfl, rfl⟩ := Prod.mk.inj (Option.some.inj (h.symm.trans hcounts))
      exact .inr ⟨rfl, ps, hps, hsizes, hn, hlen⟩

/-- What round `k` of the first block stores: the remaining size is never counted
down, so a fixed division stores all of it for its last descriptor. -/
theorem firstRounds_cnt (st : BlockState) (n : U32) (sizes : Nat → U32) :
    ∀ (k : Nat) (en : Entry), (firstRounds x info st n sizes).1[k]? = some en → k ≤ n.toNat →
      en.2.cnt = (if x.randFlag then sizes k
        else if k = n.toNat then x.size else x.size / (n + 1)) - 1 := by
  refine (rounds_spec (BitVec.ofNat 32)
    (fun _ (c : Cursor) => x.randFlag = false → c.sizeTmp = x.size ∧ c.elmCnt = x.size / (n + 1))
    (fun k (en : Entry) => k ≤ n.toNat → en.2.cnt = (if x.randFlag then sizes k
      else if k = n.toNat then x.size else x.size / (n + 1)) - 1)
    ofNat_succ (fun k c _ hc => ⟨fun hk => ?_, fun hr => ?_⟩) fun hr => ?_).1
  · have hlt := n.isLt
    have hk' : (BitVec.ofNat 32 k).toNat = k := Nat.mod_eq_of_lt (by omega)
    have hlast : BitVec.ofNat 32 k = n ↔ k = n.toNat := by rw [← BitVec.toNat_inj, hk']
    cases hr : x.randFlag with
    | true => simp [ListEnv.firstBlockBody, ListEnv.cnt, ListEnv.elmCnt, hr, hk']
    | false =>
        obtain ⟨hs, he⟩ := hc hr
        simp only [ListEnv.firstBlockBody, ListEnv.cnt, ListEnv.elmCnt, hr, hlast, hs, he,
          Bool.false_eq_true, if_false]
  · obtain ⟨hs, he⟩ := hc hr
    simp only [ListEnv.firstBlockBody, ListEnv.elmCnt, hr, hs, he, Bool.false_eq_true, if_false,
      and_self]
  · simp [firstCursor, hr]

/-- A length in range is written as a count in range. -/
theorem lengthIn_sub_one {size len : U32} (hpos : 0 < len.toNat) (hle : len.toNat ≤ size.toNat) :
    LengthIn size (len - 1) := by
  have hsub : (len - 1).toNat = len.toNat - 1 :=
    BitVec.toNat_sub_of_le (by rw [BitVec.le_def]; exact hpos)
  refine ⟨Nat.succ_pos _, ?_⟩
  rw [hsub]
  omega

/-- The counts of the first block are right. -/
theorem firstRounds_lengthIn (hsize : x.size ≠ 0)
    (hdiv : x.randFlag = true ∨ x.descCnt < x.size) {st : BlockState} {n : U32}
    {sizes : Nat → U32} (hcounts : blockCounts x junk draws 0 = some (n, sizes)) :
    ∀ en ∈ (firstRounds x info st n sizes).1, LengthIn x.size en.2.cnt := by
  intro en hen
  obtain ⟨k, hk⟩ := List.mem_iff_getElem?.mp hen
  have hlt := (List.getElem?_eq_some_iff.mp hk).1
  rw [length_firstRounds] at hlt
  have hpos : 0 < x.size.toNat := BitVec.toNat_pos_of_ne_zero hsize
  rw [firstRounds_cnt st n sizes k en hk (by omega)]
  rcases blockCounts_cases hsize hcounts with ⟨hr, rfl⟩ | ⟨hr, ps, hps, rfl, hn, hlen⟩
  · have hlt' : x.descCnt < x.size := hdiv.resolve_left (by simp [hr])
    rw [hr, if_neg (by decide)]
    split
    · exact lengthIn_sub_one hpos (Nat.le_refl _)
    · have hquot : (x.size / (x.descCnt + 1)).toNat = x.size.toNat / (x.descCnt.toNat + 1) := by
        rw [BitVec.toNat_udiv, toNat_add_one fun hm => ?_]
        rw [hm, BitVec.lt_def] at hlt'
        have := x.size.isLt
        simp at hlt'
        omega
      refine lengthIn_sub_one ?_ ?_
      · rw [hquot]
        exact Nat.div_pos hlt' (Nat.succ_pos _)
      · rw [hquot]
        exact Nat.div_le_self _ _
  · rw [if_pos rfl] at hn
    have hk' : k < ps.length := by omega
    have hget : (if x.randFlag then (fun i => ps.getD i (junk.descSize 0 i)) k
        else if k = n.toNat then x.size else x.size / (n + 1)) = ps[k] := by simp [hr, hk']
    rw [hget]
    refine lengthIn_sub_one (hps.pos _ (List.getElem_mem _)) ?_
    rw [← hps.sum]
    exact List.le_sum_of_mem (List.mem_map_of_mem (List.getElem_mem _))

/-- The counts of a later block are right. -/
theorem laterRounds_lengthIn (hsize : x.size ≠ 0)
    (hdiv : x.randFlag = true ∨ x.descCnt < x.size) {j : U32} (hj : j ≠ 0) {st : BlockState}
    {n : U32} {sizes : Nat → U32} (hcounts : blockCounts x junk draws j = some (n, sizes))
    (hn : n ≠ 0) : ∀ en ∈ (laterRounds x info j st n sizes).1, LengthIn x.size en.2.cnt := by
  have hlast := toNat_sub_one hn
  have hn0 : 0 < n.toNat := BitVec.toNat_pos_of_ne_zero hn
  have hlen : ∀ k < n.toNat, 0 < (blockEnv x info j st n sizes).len (n - 1) k ∧
      (blockEnv x info j st n sizes).len (n - 1) k ≤ x.size.toNat := by
    intro k hk
    rcases blockCounts_cases hsize hcounts with ⟨hr, rfl⟩ | ⟨hr, ps, hps, rfl, hn', -⟩
    · have hlt : x.descCnt < x.size := hdiv.resolve_left (by simp [hr])
      have hlt' : x.descCnt - 1 < x.size := by
        rw [BitVec.lt_def] at hlt ⊢
        omega
      exact ⟨ListEnv.len_fixed_pos (e := blockEnv x info j st _ sizes) hr hlt' k,
        ListEnv.len_fixed_le (e := blockEnv x info j st _ sizes) hr k⟩
    · rw [if_neg hj] at hn'
      exact ⟨ListEnv.len_random_pos (e := blockEnv x info j st n _) _ hr rfl hps (by omega),
        ListEnv.len_random_le (e := blockEnv x info j st n _) hr rfl hps (by omega)⟩
  intro en hen
  obtain ⟨k, hk⟩ := List.mem_iff_getElem?.mp hen
  have hlt := (List.getElem?_eq_some_iff.mp hk).1
  rw [length_laterRounds] at hlt
  have hmoves := laterRounds_moves hn (fun k hk => (hlen k hk).1) k en hk
  exact lengthIn_of_len (hmoves.len ▸ (hlen k hlt).2)

/-- So are those of every block that is stored. -/
theorem blocksStored_lengthIn (hsize : x.size ≠ 0)
    (hdiv : x.randFlag = true ∨ x.descCnt < x.size) (n : Nat) (j : U32) (st : BlockState) :
    ∀ en ∈ (blocksStored x info junk draws n j st).flatten, LengthIn x.size en.2.cnt := by
  induction n generalizing j st with
  | zero => simp [blocksStored]
  | succ n ih =>
      intro en hen
      rw [blocksStored] at hen
      cases hround : blockRound x info junk draws j st with
      | none => simp [hround] at hen
      | some r =>
          obtain ⟨es, st'⟩ := r
          simp only [hround, List.flatten_cons, List.mem_append] at hen
          rcases hen with hen | hen
          · by_cases hj : j = 0
            · subst hj
              obtain ⟨m, sizes, hcounts, _, rfl, _⟩ := blockRound_zero.mp hround
              exact firstRounds_lengthIn hsize hdiv hcounts en hen
            · obtain ⟨m, sizes, hcounts, hm, rfl, _⟩ := (blockRound_later hj).mp hround
              exact laterRounds_lengthIn hsize hdiv hj hcounts hm en hen
          · exact ih (j + 1) st' en hen

/-! ## a division with an empty piece -/

/-- With more descriptors than bytes the quotient is zero. -/
theorem quotient_zero (hr : x.randFlag = false) (h : ¬ x.descCnt < x.size) :
    x.size / (x.descCnt + 1) = 0 := by
  have hmax := descCnt_lt hr
  have hne : x.descCnt ≠ -1 := fun hm => by
    rw [hm] at hmax
    exact absurd hmax (by decide)
  apply BitVec.eq_of_toNat_eq
  rw [BitVec.toNat_udiv, toNat_add_one hne]
  rw [BitVec.lt_def] at h
  exact Nat.div_eq_of_lt (by omega)

/-- Then the first descriptor is written with the largest count. -/
theorem largest_stored (hd : x.descCnt ≠ 0) (hr : x.randFlag = false)
    (h : ¬ x.descCnt < x.size) : ∃ en ∈ entriesStored x info junk draws, en.2.cnt = -1 := by
  have hmax := descCnt_lt hr
  have hq := quotient_zero hr h
  have hsucc : x.descCnt + 1 ≠ 0 := fun h0 => by
    have hnat := congrArg BitVec.toNat h0
    rw [BitVec.toNat_add] at hnat
    simp at hnat
    omega
  rw [entriesStored]
  by_cases hb : x.blockCnt = 0
  · rw [if_pos hb, xferChain_eq, if_neg (by simp [hr]), Option.bind_some, if_neg hsucc,
      Option.elim_some, DescList.entries, List.flatten_singleton, rounds_succ]
    refine ⟨_, List.mem_cons_self, ?_⟩
    simp only [ListEnv.chainBody, ListEnv.cnt, ListEnv.elmCnt, chainCursor, hr,
      Bool.false_eq_true, if_false, if_neg (Ne.symm hd), hq]
    rfl
  · obtain ⟨m, hm⟩ := Nat.exists_eq_succ_of_ne_zero fun h => hb (BitVec.eq_of_toNat_eq h)
    have hcounts : blockCounts x junk draws 0 = some (x.descCnt, junk.descSize 0) := by
      rw [blockCounts, if_neg (by simp [hr])]
    have hround := (@blockRound_zero x info junk draws ⟨0, 0⟩ _ _).mpr
      ⟨x.descCnt, junk.descSize 0, hcounts, hsucc, rfl, rfl⟩
    have hlen : (firstRounds x info ⟨0, 0⟩ x.descCnt (junk.descSize 0)).1.length =
        x.descCnt.toNat + 1 := length_firstRounds ..
    have hfst := List.getElem?_eq_getElem
      (l := (firstRounds x info ⟨0, 0⟩ x.descCnt (junk.descSize 0)).1) (i := 0) (by omega)
    have hne : 0 ≠ x.descCnt.toNat := fun h0 => hd (BitVec.eq_of_toNat_eq h0.symm)
    have hcnt := firstRounds_cnt _ _ _ 0 _ hfst (Nat.zero_le _)
    rw [if_neg (by simp [hr]), if_neg hne, hq] at hcnt
    refine ⟨_, ?_, hcnt⟩
    rw [if_neg hb, hm, blocksStored, hround]
    exact List.mem_append_left _ (List.getElem_mem _)

/-! ## all modes -/

/-- **Lengths**: every count that a call writes, in every mode and for every draws,
stands for a length between one byte and the size exactly when there is no empty
piece. -/
theorem lengths_in_range_iff (hsize : x.size ≠ 0) :
    (∀ cnt ∈ cntsWritten x info junk draws, LengthIn x.size cnt) ↔ DividesWell x := by
  have hpos : 0 < x.size.toNat := BitVec.toNat_pos_of_ne_zero hsize
  rw [cntsWritten, DividesWell]
  by_cases hdir : x.dirBits = none
  · simp [hdir]
  rw [if_neg hdir]
  by_cases hd : x.descCnt = 0
  · rw [if_pos hd]
    refine ⟨fun _ => .inr (.inl hd), fun _ cnt hcnt => ?_⟩
    rw [List.mem_singleton.mp hcnt]
    exact lengthIn_sub_one hpos (Nat.le_refl _)
  rw [if_neg hd]
  constructor
  · intro h
    by_contra hnot
    simp only [hdir, hd, false_or, not_or, Bool.not_eq_true] at hnot
    obtain ⟨en, hen, hcnt⟩ := @largest_stored x info junk draws hd hnot.1 hnot.2
    have hle := (h _ (List.mem_map_of_mem hen)).2
    have hlt := x.size.isLt
    rw [hcnt, show (-1 : U32).toNat = 4294967295 from rfl] at hle
    omega
  · intro h cnt hcnt
    have hdiv : x.randFlag = true ∨ x.descCnt < x.size :=
      (h.resolve_left hdir).resolve_left hd
    obtain ⟨en, hen, rfl⟩ := List.mem_map.mp hcnt
    rw [entriesStored] at hen
    split at hen
    · cases hl : xferChain x info junk draws with
      | none => simp [hl] at hen
      | some l => exact chain_lengthIn hsize hdiv hl en (by simpa [hl] using hen)
    · exact blocksStored_lengthIn hsize hdiv _ _ _ en hen

end Rounds

/-- Seven bytes behind two list descriptors. -/
theorem lengths_in_range_sevenBytes :
    (∀ cnt ∈ cntsWritten sevenBytes default default default, LengthIn 7 cnt) ↔
      DividesWell sevenBytes :=
  lengths_in_range_iff (x := sevenBytes) (by decide)

/-- Two bytes divided by three descriptors, as a chain. -/
def twoBytesChain : BareXfer := ⟨1, 0, 2, 0, 0x1000, 0x2000, 2⟩

/-- The first two descriptors are told to move 4 GiB. -/
theorem twoBytesChain_wraps :
    twoBytesChain.size ≠ 0 ∧ cntsWritten twoBytesChain default default default =
        [0xffffffff, 0xffffffff, 1] ∧
      ¬ ∀ cnt ∈ cntsWritten twoBytesChain default default default, LengthIn 2 cnt := by
  have hcnts : cntsWritten twoBytesChain default default default = [0xffffffff, 0xffffffff, 1] := by
    decide
  refine ⟨by decide, hcnts, fun h => ?_⟩
  have hle := (h 0xffffffff (by rw [hcnts]; exact List.mem_cons_self)).2
  exact absurd hle (by decide)

end MtEmu
