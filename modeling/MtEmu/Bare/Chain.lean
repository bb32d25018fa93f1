import MtEmu.Bare.Counters
import MtEmu.Bare.Walk

/-!
# MtEmu.Bare.Chain

Chain mode of `dma_bare_xfer`: one descriptor in the registers and the rest
in one list.

`chainBody_spec` is what one round stores, `chainRounds_spec` the same for
the whole loop: entry `k` sits in the registers or in slot `k - 1`, links to
slot `k` and moves `len k` bytes.  From there the entries are linked, lie
apart and cover the block, and `walk_of_linked` says what the hardware
visits.
-/

namespace MtEmu

open Loop Finset

/-- A chain-mode call: a known direction, list mode, no blocks; fixed
division into at most 65536 pieces none of which is empty, or a random split
into at most 65536. -/
structure ChainCall (x : BareXfer) (draws : Draws) : Prop where
  dir : x.dirBits ≠ none
  list : x.descCnt ≠ 0
  chain : x.blockCnt = 0
  fixed : x.randFlag = false → x.descCnt < x.size ∧ x.descCnt.toNat ≤ 65535
  random : x.randFlag = true → x.size ≠ 0 ∧ pieceCount (draws 0) x.size ≤ 65536

/-! ## one round -/

/-- Descriptor `k` of a chain that ends with descriptor `last`. -/
structure ChainEntry (e : ListEnv) (last : U32) (k : Nat) (en : Entry) : Prop where
  place : en.1 = firstPlace k
  lar : en.2.lar = slotAddr e.base (BitVec.ofNat 64 k)
  moves : e.Moves last e.x.sar e.x.dar k en

/-- Round `k` stores descriptor `k` and keeps the counters running. -/
theorem chainBody_spec {e : ListEnv} {k : Nat} {c : Cursor}
    (h : e.Running e.descCntTmp e.x.sar e.x.dar k c) (hk : k ≤ e.descCntTmp.toNat)
    (hmax : e.descCntTmp.toNat < 2 ^ 31) (hpos : 0 < e.len e.descCntTmp k) :
    ChainEntry e e.descCntTmp k (e.chainBody (BitVec.ofNat 32 k) c).1 ∧
      (k + 1 ≤ e.descCntTmp.toNat → e.Running e.descCntTmp e.x.sar e.x.dar (k + 1)
        (e.chainBody (BitVec.ofNat 32 k) c).2) := by
  have hcnt := ListEnv.cnt_toNat h hk
  have hlast : e.descCntTmp ≠ -1 := fun hm => by
    rw [hm] at hmax
    exact absurd hmax (by decide)
  refine ⟨⟨?_, ?_, h.sar, h.dar, ?_⟩, fun hk' => h.next hk' hlast rfl rfl rfl rfl⟩
  · exact firstPlace_eq (by omega)
  · simp only [ListEnv.chainBody, slotAddr, signExtend_ofNat (show k < 2 ^ 31 by omega)]
  · rw [seg_len rfl (by rw [hcnt]; exact hpos), hcnt]

/-- The loop stores descriptor `k` in round `k`. -/
theorem chainRounds_spec {e : ListEnv} {c : Cursor}
    (h : e.Running e.descCntTmp e.x.sar e.x.dar 0 c) (hmax : e.descCntTmp.toNat < 2 ^ 31)
    (hpos : ∀ k ≤ e.descCntTmp.toNat, 0 < e.len e.descCntTmp k) :
    ∀ k en, (rounds e.chainBody (e.descCntTmp.toNat + 1) 0 c).1[k]? = some en →
      ChainEntry e e.descCntTmp k en := by
  refine (rounds_spec (BitVec.ofNat 32)
    (fun k c => k ≤ e.descCntTmp.toNat → e.Running e.descCntTmp e.x.sar e.x.dar k c)
    (ChainEntry e e.descCntTmp) ofNat_succ ?_ fun _ => h).1
  intro k s hk hs
  exact chainBody_spec (hs (by omega)) (by omega) hmax (hpos k (by omega))

/-! ## the whole list -/

/-- Entries at the places of a first list, each with a link to the next place. -/
theorem linked_of_places {base : U64} {es : List Entry}
    (hes : ∀ k en, es[k]? = some en →
      en.1 = firstPlace k ∧ en.2.lar = slotAddr base (BitVec.ofNat 64 k)) :
    es.IsChain (Follows base) := by
  rw [List.isChain_iff_getElem]
  intro k hk
  have hfst := hes k _ (List.getElem?_eq_getElem (by omega))
  have hsnd := hes (k + 1) _ (List.getElem?_eq_getElem hk)
  unfold Follows Lli.IsAt
  rw [hsnd.1, hfst.2]
  rfl

/-- The places of a first list are different. -/
theorem apart_of_places {base : U64} {es : List Entry}
    (hes : ∀ k en, es[k]? = some en → en.1 = firstPlace k) (hlen : es.length ≤ 2 ^ 59) :
    es.Pairwise (Apart base) := by
  rw [List.pairwise_iff_getElem]
  intro i j hi hj hij
  have hfst := hes i _ (List.getElem?_eq_getElem hi)
  have hsnd := hes j _ (List.getElem?_eq_getElem hj)
  obtain ⟨j, rfl⟩ := Nat.exists_eq_succ_of_ne_zero (Nat.ne_of_gt (Nat.zero_lt_of_lt hij))
  unfold Apart
  rw [hfst, hsnd]
  cases i with
  | zero => trivial
  | succ i =>
      intro heq
      have hidx := congrArg BitVec.toNat (slotAddr_inj (by simp; omega) (by simp; omega) heq)
      simp at hidx
      omega

section List

variable {e : ListEnv} {es : List Entry}
  (hes : ∀ k en, es[k]? = some en → ChainEntry e e.descCntTmp k en)
include hes

theorem chain_linked : es.IsChain (Follows e.base) :=
  linked_of_places fun k en hk => ⟨(hes k en hk).place, (hes k en hk).lar⟩

theorem chain_apart (hlen : es.length ≤ 2 ^ 59) : es.Pairwise (Apart e.base) :=
  apart_of_places (fun k en hk => (hes k en hk).place) hlen

end List

section Cursor

variable {x : BareXfer} {info : MtdmaChanInfo} {draws : Draws}

/-- The counters that chain mode starts with. -/
def chainCursor (x : BareXfer) (n : U32) : Cursor :=
  if x.randFlag then ⟨x.sar, x.dar, 0, 0, 0⟩ else ⟨x.sar, x.dar, x.size, x.size / (n + 1), 0⟩

/-- Chain mode with its counters as one function of the counts. -/
theorem xferChain_eq (junk : Junk) : xferChain x info junk draws =
    (if x.randFlag then splitBlock chainCap x junk draws 0
      else some (x.descCnt, junk.descSize 0)).bind fun p =>
        if p.1 + 1 = 0 then none
        else some ⟨lbarBasic x p.1, [(rounds (ListEnv.chainBody ⟨x, x.listBase info, 0, p.1, 0, p.2⟩)
          (p.1.toNat + 1) 0 (chainCursor x p.1)).1]⟩ := by
  unfold xferChain chainCursor
  cases x.randFlag <;> rfl

end Cursor

/-- What chain mode leaves in memory order: `n` list descriptors behind the
one in the registers, linked, apart, and covering the block. -/
structure ChainList (x : BareXfer) (base : U64) (n : U32) (es : List Entry) : Prop where
  length : es.length = n.toNat + 1
  bound : n.toNat ≤ 65535
  head : es[0]?.map Prod.fst = some .regs
  place : ∀ en ∈ es, ∀ a, en.1 ≠ .other a
  linked : es.IsChain (Follows base)
  apart : es.Pairwise (Apart base)
  covers : Copy.Covers x.sar x.dar x.size.toNat (segsOf es)

/-- A loop whose lengths are positive and add up to the size builds a chain
list. -/
theorem chainList_of_rounds {e : ListEnv} {c : Cursor}
    (h : e.Running e.descCntTmp e.x.sar e.x.dar 0 c) (hmax : e.descCntTmp.toNat ≤ 65535)
    (hpos : ∀ k ≤ e.descCntTmp.toNat, 0 < e.len e.descCntTmp k)
    (hsum : e.start e.descCntTmp (e.descCntTmp.toNat + 1) = e.x.size.toNat) :
    ChainList e.x e.base e.descCntTmp
      (rounds e.chainBody (e.descCntTmp.toNat + 1) 0 c).1 := by
  have hes := chainRounds_spec h (by omega) hpos
  have hlen := length_rounds e.chainBody (e.descCntTmp.toNat + 1) 0 c
  generalize (rounds e.chainBody (e.descCntTmp.toNat + 1) 0 c).1 = es at hes hlen ⊢
  refine ⟨hlen, hmax, ?_, ?_, chain_linked hes, chain_apart hes (by omega), ?_⟩
  · cases hs : es[0]? with
    | none => rw [List.getElem?_eq_none_iff] at hs; omega
    | some en => rw [Option.map_some, (hes 0 en hs).place, firstPlace]
  · intro en hen a
    obtain ⟨k, hk⟩ := List.mem_iff_getElem?.mp hen
    rw [(hes k en hk).place]
    cases k <;> simp [firstPlace]
  · have := ListEnv.covers_of_moves fun k en hen => (hes k en hen).moves
    rwa [hlen, hsum] at this

/-- **Chain mode**: every chain-mode call builds a chain list. -/
theorem xferChain_spec {x : BareXfer} {draws : Draws} (h : ChainCall x draws)
    (info : MtdmaChanInfo) (junk : Junk) :
    ∃ n es, xferChain x info junk draws = some ⟨lbarBasic x n, [es]⟩ ∧
      ChainList x (x.listBase info) n es := by
  cases hr : x.randFlag with
  | false =>
      obtain ⟨hlt, hle⟩ := h.fixed hr
      have hmax : x.descCnt ≠ -1 := fun hm => by
        rw [hm] at hle
        exact absurd hle (by decide)
      have hsucc : x.descCnt + 1 ≠ 0 := fun h0 => by
        have := toNat_add_one hmax
        rw [h0] at this
        simp at this
      let e : ListEnv := ⟨x, x.listBase info, 0, x.descCnt, 0, junk.descSize 0⟩
      have hrun : e.Running x.descCnt x.sar x.dar 0
          ⟨x.sar, x.dar, x.size, x.size / (x.descCnt + 1), 0⟩ :=
        ⟨by simp [ListEnv.start], by simp [ListEnv.start], fun _ => ⟨rfl, by simp [ListEnv.start, e]⟩⟩
      have hpos : ∀ k, 0 < e.len x.descCnt k := ListEnv.len_fixed_pos (e := e) hr hlt
      have hsum := ListEnv.sum_fixed (e := e) hr hmax
      refine ⟨x.descCnt, _, ?_, chainList_of_rounds (e := e) hrun hle (fun k _ => hpos k) hsum⟩
      simp only [xferChain, hr, Bool.false_eq_true, if_false, Option.bind_eq_bind,
        Option.bind_some]
      rw [if_neg hsucc]
  | true =>
      obtain ⟨hsize, hcount⟩ := h.random hr
      have hfit : pieceCount (draws 0) x.size ≤ chainCap := hcount.trans (by decide)
      obtain ⟨ps, hps, hsplit⟩ := splitBlock_eq junk hfit
      have hlen : 0 < ps.length := by
        rw [hps.length]
        exact pieceCount_pos _ hsize
      have hbound : ps.length ≤ 65536 := by rw [hps.length]; exact hcount
      let n : U32 := BitVec.ofNat 32 (ps.length - 1)
      have hn : n.toNat = ps.length - 1 := by simp [n]; omega
      let e : ListEnv :=
        ⟨x, x.listBase info, 0, n, 0, fun i => ps.getD i (junk.descSize 0 i)⟩
      have hrun : e.Running n x.sar x.dar 0 ⟨x.sar, x.dar, 0, 0, 0⟩ :=
        ⟨by simp [ListEnv.start], by simp [ListEnv.start], fun h => by rw [hr] at h; cases h⟩
      have hsum : e.start n (n.toNat + 1) = x.size.toNat := by
        rw [hn, Nat.sub_add_cancel hlen]
        exact ListEnv.sum_random n (e := e) hr rfl hps
      have hpos : ∀ k ≤ n.toNat, 0 < e.len n k := fun k hk =>
        ListEnv.len_random_pos n (e := e) hr rfl hps (by omega)
      refine ⟨n, _, ?_, chainList_of_rounds (e := e) hrun (show n.toNat ≤ 65535 by omega) hpos hsum⟩
      have hne : ps ≠ [] := List.ne_nil_of_length_pos hlen
      have hsucc : n + 1 ≠ 0 := fun h0 => by
        have := congrArg BitVec.toNat h0
        rw [BitVec.toNat_add, hn] at this
        simp at this
        omega
      simp only [xferChain, hr, hsplit, if_true, if_neg hne, Option.bind_eq_bind, Option.bind_some]
      rw [if_neg hsucc]

/-! ## what the hardware visits -/

/-- `LBAR_BASIC` counts the list descriptors and enables the chain. -/
theorem lbarBasic_eq {x : BareXfer} {n : U32} (hx : x.descCnt ≠ 0) (hn : n.toNat ≤ 65535) :
    (lbarBasic x n >>> 16).toNat = n.toNat ∧ (lbarBasic x n).getLsbD 0 = true := by
  have hval : (lbarBasic x n).toNat = n.toNat * 65536 + 1 := by
    rw [lbarBasic, BareXfer.chainEn, if_neg hx]
    simp only [BitVec.toNat_or, BitVec.toNat_shiftLeft]
    rw [Nat.mod_eq_of_lt (by rw [Nat.shiftLeft_eq]; omega)]
    exact (Nat.shiftLeft_add_eq_or_of_lt (show 1 < 2 ^ 16 by omega) _).symm.trans
      (by rw [Nat.shiftLeft_eq])
  constructor
  · rw [BitVec.toNat_ushiftRight, hval, Nat.shiftRight_eq_div_pow]
    omega
  · rw [BitVec.getLsbD, hval, Nat.testBit_zero]
    simp
    omega

/-- The writes of a chain-mode call, in order. -/
theorem dmaBareXfer_chain {x : BareXfer} {draws : Draws} (h : ChainCall x draws) (mmu : Bool)
    (info : MtdmaChanInfo) (junk : Junk) {l : DescList}
    (hl : xferChain x info junk draws = some l) :
    ∃ before after, (∀ a ∈ after, a.Aside) ∧
      dmaBareXfer mmu info x junk draws = .run (before ++ l.accesses ++ after) := by
  cases hd : x.dirBits with
  | none => exact absurd hd h.dir
  | some b =>
      refine ⟨if mmu ∧ x.blockCnt = 0 then [.setCh .mmuAddrType b.2] else [],
        [.setCh .intrImsk 0, .setCh .direction (b.1 ||| x.descMst1), .setCh .enable 1], ?_, ?_⟩
      · intro a ha
        simp only [List.mem_cons, List.not_mem_nil, or_false] at ha
        rcases ha with rfl | rfl | rfl <;> exact ⟨_, _, rfl, by decide⟩
      · have hne := h.list
        simp only [dmaBareXfer, hd, if_neg hne, xferDescs, h.chain, if_true, hl]

/-- **Chain transfers**: the random split always ends, and after the writes
of a chain-mode call the hardware visits exactly the descriptors built, which
copy the block once and in order. -/
theorem chain_transfer :
    (∀ (size : U32) (r : Nat → U64), ∃ ps, randSplit size.toNat size r = some ps) ∧
    ∀ (mmu : Bool) (info : MtdmaChanInfo) (x : BareXfer) (junk : Junk) (draws : Draws)
      (m : ChanMem), ChainCall x draws →
      ∃ as l, dmaBareXfer mmu info x junk draws = .run as ∧
        xferChain x info junk draws = some l ∧
        ((m.writes (x.listBase info) as).ch .lbarBasic).getLsbD 0 = true ∧
        (m.writes (x.listBase info) as).walk = l.entries.map Prod.snd ∧
        Copy.copied (segsOf l.entries) = Copy.block x.size.toNat x.sar x.dar := by
  refine ⟨exists_randSplit, fun mmu info x junk draws m h => ?_⟩
  obtain ⟨n, es, hl, hes⟩ := xferChain_spec h info junk
  obtain ⟨before, after, hafter, hrun⟩ := dmaBareXfer_chain h mmu info junk hl
  obtain ⟨hcnt, hen⟩ := lbarBasic_eq h.list hes.bound
  have hentries : DescList.entries ⟨lbarBasic x n, [es]⟩ = es := List.append_nil es
  have hlinked : (DescList.entries ⟨lbarBasic x n, [es]⟩).IsChain (Follows (x.listBase info)) := by
    rw [hentries]
    exact hes.linked
  obtain ⟨hlbar, hwalk⟩ := walk_writes (m := m) hafter (by rw [hentries]; exact hes.head)
    (by rw [hentries]; exact hes.place) hlinked (by rw [hentries]; exact hes.apart)
    (by rw [hentries, hes.length, hcnt])
  refine ⟨_, _, hrun, hl, ?_, hwalk, ?_⟩
  · rw [hlbar]
    exact hen
  · rw [hentries]
    exact hes.covers.copied_eq

/-- Seven bytes to the device by a host list of two behind the registers. -/
def sevenBytes : BareXfer := ⟨1, 1, 2, 0, 0x1000, 0x2000, 7⟩

theorem chain_transfer_sevenBytes :
    ∃ as l, dmaBareXfer true default sevenBytes default default = .run as ∧
      xferChain sevenBytes default default default = some l ∧
      (((default : ChanMem).writes (sevenBytes.listBase default) as).ch .lbarBasic).getLsbD 0 =
        true ∧
      ((default : ChanMem).writes (sevenBytes.listBase default) as).walk =
        l.entries.map Prod.snd ∧
      Copy.copied (segsOf l.entries) =
        Copy.block sevenBytes.size.toNat sevenBytes.sar sevenBytes.dar :=
  chain_transfer.2 true default sevenBytes default default default
    ⟨by decide, by decide, rfl, fun _ => by decide, fun h => absurd h (by decide)⟩

end MtEmu
