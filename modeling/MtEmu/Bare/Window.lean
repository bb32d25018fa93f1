import MtEmu.Bare.Chain
import MtEmu.Bare.Info
import MtEmu.Bare.Links

/-!
# MtEmu.Bare.Window

Whether `dma_bare_xfer` stays in the list window of its channel.

The window has 65536 slots and the count fields of `LBAR_BASIC` and `desc_op`
have 16 bits, but `MT_IOCTL_MTDMA_BARE_RW` takes any `desc_cnt` and `block_cnt` and
`dma_bare_xfer` checks neither.  `WindowSafe` is what a call owes its channel: it gets to
the enable write, stores to slots of its own window only, which is nobody else's and which
the driver's pointer reaches, and writes its counts untruncated.  `windowSafe_iff` says which
calls do, for every entry the probes build.

`ListsOf` is the shape of a call's lists in numbers, for chain and block mode alike; the
arithmetic of the block loop is that of `MtEmu.Bare.Layout`.
-/

namespace MtEmu

open Loop

/-! ## slots and windows -/

/-- The bytes of a list slot. -/
def slotBytes (base idx : U64) : Set Nat :=
  Set.Ico (slotAddr base idx).toNat ((slotAddr base idx).toNat + 32)

/-- By the field `start`, where the windows begin, list slot `idx` lies in the window of entry
`v` and in no other channel's. -/
def SlotSound (p : Probes) (start : MtdmaChanInfo → U64) (v : View) (idx : U64) : Prop :=
  slotBytes (start (v.info p)) idx ⊆ (v.info p).window (start (v.info p)) ∧
  ∀ w : View, w.pair ≠ v.pair →
    Disjoint (slotBytes (start (v.info p)) idx) ((w.info p).window (start (w.info p)))

/-- Where a call on the channel of entry `v` may store: in the registers, or in a slot of the
channel's own window.  The windows are told apart as the hardware reads the lists, by their
link addresses; for device lists these are the places in region 2 that the driver stores to.
Lists in host memory the driver stores through `ll_vaddr_system`, so that a slot has to be
sound by that pointer too, and the pointer has to lead into the mapping of the DMA buffer: a
virtual function, whose probe passes `NULL` for the mapping, traps there. -/
def Lli.InWindow (p : Probes) (v : View) (x : BareXfer) : Lli → Prop
  | .regs => True
  | .slot idx =>
      SlotSound p x.listBase v idx ∧
      (x.inDevice = false → SlotSound p MtdmaChanInfo.llVaddrSystem v idx ∧
        slotBytes (v.info p).llVaddrSystem idx ⊆ p.mapping)
  | .other _ => False

/-- No other channel's window in host memory is this entry's. -/
def View.HostApart : View → Prop
  | pf .wr c | vf .wr c => c.val = 0
  | pf .rd c => c.val ≠ 0
  | vf .rd _ => False

/-- The driver reaches the entry's window in host memory, and it is nobody else's: write
channel 0 of the physical function and, in the build with reserved memory, its read channels
other than 0. -/
def View.HostOwn (p : Probes) : View → Prop
  | pf .wr c => c.val = 0
  | pf .rd c => c.val ≠ 0 ∧ p.resv = true
  | vf _ _ => False

/-- The windows that can be used are those that nobody else has and the driver reaches. -/
theorem View.hostOwn_iff (p : Probes) (v : View) : v.HostOwn p ↔ v.HostApart ∧ HostBacked p v := by
  rw [hostBacked_iff]
  cases v with
  | pf side c =>
      cases side with
      | rd => simp [HostOwn, HostApart]
      | wr =>
          simp only [HostOwn, HostApart]
          constructor
          · intro hc
            exact ⟨hc, .wr, c, rfl, .inr ⟨rfl, by omega⟩⟩
          · exact And.left
  | vf side c => simp [HostOwn]

/-- The number of an entry's window, in the memory the lists are in. -/
def View.slot (v : View) (x : BareXfer) : Nat := if x.inDevice then v.deviceSlot else v.hostSlot

/-- The first byte of the row of windows the lists are in. -/
def windowRow (x : BareXfer) : Nat := if x.inDevice then 0x80000000 else 0

theorem View.slot_lt (v : View) (x : BareXfer) : v.slot x < 128 := by
  unfold slot
  split
  · exact v.deviceSlot_lt
  · exact v.hostSlot_lt

/-- Where the list window of an entry starts. -/
theorem listBase_toNat (p : Probes) (v : View) (x : BareXfer) :
    (x.listBase (v.info p)).toNat = windowRow x + 0x200000 * v.slot x := by
  unfold BareXfer.listBase windowRow View.slot
  cases x.inDevice with
  | true => exact v.info_llLaddr_toNat p
  | false => exact (v.info_llLaddrSystem_toNat p).trans (Nat.zero_add _).symm

theorem listBase_mod (p : Probes) (v : View) (x : BareXfer) :
    x.listBase (v.info p) % 1024 = 0 := by
  apply BitVec.eq_of_toNat_eq
  rw [BitVec.toNat_umod, listBase_toNat, windowRow]
  simp
  split <;> omega

/-- An entry is alone with its window in host memory exactly for these entries. -/
theorem View.hostApart_iff (v : View) :
    (∀ w : View, w.pair ≠ v.pair → v.hostSlot ≠ w.hostSlot) ↔ v.HostApart := by
  constructor
  · intro h
    cases v with
    | pf side c =>
      cases side with
      | rd =>
        intro hc
        exact h (.vf .rd 63) (by grind [pair]) (by simp [hostSlot, hc])
      | wr =>
        by_contra hc
        refine h (.vf .rd ⟨c.val - 1, by omega⟩) (by simp [pair]) ?_
        simp only [HostApart, hostSlot] at hc ⊢
        omega
    | vf side c =>
      cases side with
      | rd =>
        by_cases hc : c.val = 63
        · exact h (.pf .rd 0) (by grind [pair]) (by simp [hostSlot, hc])
        · exact h (.vf .wr ⟨c.val + 1, by omega⟩) (by simp [pair]) (Nat.add_comm ..)
      | wr =>
        by_contra hc
        refine h (.vf .rd ⟨c.val - 1, by omega⟩) (by simp [pair]) ?_
        simp only [HostApart, hostSlot] at hc ⊢
        omega
  · intro h w hpair
    cases v with
    | pf side c =>
      cases w with
      | pf side' d => cases side <;> cases side' <;> grind [hostSlot, pair, HostApart, Fin.ext]
      | vf side' d => cases side <;> cases side' <;> grind [hostSlot, pair, HostApart, Fin.ext]
    | vf side c =>
      cases w with
      | pf side' d => cases side <;> cases side' <;> grind [hostSlot, pair, HostApart, Fin.ext]
      | vf side' d => cases side <;> cases side' <;> grind [hostSlot, pair, HostApart, Fin.ext]

/-- An entry is alone with its window when no other channel's entry has its number. -/
theorem View.apart_iff (v : View) (x : BareXfer) :
    (∀ w : View, w.pair ≠ v.pair → v.slot x ≠ w.slot x) ↔ x.inDevice = true ∨ v.HostApart := by
  unfold slot
  cases x.inDevice with
  | true =>
    simp only [if_true, true_or, iff_true]
    intro w hpair hslot
    exact hpair ((v.deviceSlot_eq_iff w).1 hslot).symm
  | false =>
    simp only [Bool.false_eq_true, if_false, false_or]
    exact v.hostApart_iff

/-- A slot of a row of windows is sound when it is one of the window's and the window's number
is nobody else's. -/
theorem slotSound_iff (p : Probes) (start : MtdmaChanInfo → U64) (v : View) {base a : Nat}
    (slot : View → Nat) (hslot : ∀ v, (start (v.info p)).toNat = base + 0x200000 * slot v)
    (hend : base + 0x200000 * slot v + 32 * a < 2 ^ 64) :
    SlotSound p start v (BitVec.ofNat 64 a) ↔
      a < 65536 ∧ ∀ w : View, w.pair ≠ v.pair → slot v ≠ slot w := by
  have hmax : (65536 : U32).toNat = 65536 := rfl
  have haddr : (slotAddr (start (v.info p)) (BitVec.ofNat 64 a)).toNat =
      base + 0x200000 * slot v + 32 * a := by
    rw [slotAddr_toNat, hslot]
    omega
  simp only [SlotSound, slotBytes, MtdmaChanInfo.window, View.info_llMax, hmax, haddr, hslot,
    Set.Ico_disjoint_Ico]
  rw [Set.Ico_subset_Ico_iff (by omega)]
  constructor
  · rintro ⟨hinside, hapart⟩
    refine ⟨by omega, fun w hpair hsame => ?_⟩
    have := hapart w hpair
    omega
  · rintro ⟨hinside, hapart⟩
    refine ⟨by omega, fun w hpair => ?_⟩
    have := hapart w hpair
    omega

/-- Where the driver reaches the window of an entry of the physical function: behind the start of
the mapping, or wrapped around to addresses that are not the kernel's. -/
theorem pf_pointer (p : Probes) (side : Side) (c : Fin 64) :
    ((View.pf side c).info p).llVaddrSystem.toNat =
        p.mtdmaVaddr.toNat + 0x200000 * (View.pf side c).hostSlot ∨
      0x10000000000000000 ≤ p.mtdmaVaddr.toNat + 0x200000 * (View.pf side c).hostSlot ∧
        ((View.pf side c).info p).llVaddrSystem.toNat < 0x10000000 := by
  have hv := View.info_llVaddrSystem_toNat p (.pf side c)
  have hlt := View.hostSlot_lt (.pf side c)
  have hvaddr := p.mtdmaVaddr.isLt
  simp only [View.mapped] at hv
  omega

/-- That of a virtual function is below all kernel addresses. -/
theorem vf_pointer (p : Probes) (side : Side) (c : Fin 64) :
    ((View.vf side c).info p).llVaddrSystem.toNat < 0x10000000 := by
  have hv := View.info_llVaddrSystem_toNat p (.vf side c)
  have hlt := View.hostSlot_lt (.vf side c)
  simp [View.mapped] at hv
  omega

/-- The slots of a window that the driver reaches are reached, in that window only if no other
channel has it. -/
theorem slot_reached {p : Probes} {v : View} {a : Nat} (ha : a < 65536) (hapart : v.HostApart)
    (hback : HostBacked p v) :
    SlotSound p MtdmaChanInfo.llVaddrSystem v (BitVec.ofNat 64 a) ∧
      slotBytes (v.info p).llVaddrSystem (BitVec.ofNat 64 a) ⊆ p.mapping := by
  have hmax : (65536 : U32).toNat = 65536 := rfl
  have hkernel := p.kernel
  have hfits := p.fits
  have hslots := (View.hostApart_iff v).mpr hapart
  obtain ⟨side, c, rfl, -⟩ := (hostBacked_iff p v).mp hback
  simp only [HostBacked, MtdmaChanInfo.window, Probes.mapping, View.info_llMax, hmax] at hback
  rw [Set.Ico_subset_Ico_iff (by omega)] at hback
  have hv : ((View.pf side c).info p).llVaddrSystem.toNat =
      p.mtdmaVaddr.toNat + 0x200000 * (View.pf side c).hostSlot :=
    (pf_pointer p side c).resolve_right fun h => by omega
  have haddr : (slotAddr ((View.pf side c).info p).llVaddrSystem (BitVec.ofNat 64 a)).toNat =
      ((View.pf side c).info p).llVaddrSystem.toNat + 32 * a := by
    rw [slotAddr_toNat]
    omega
  simp only [SlotSound, slotBytes, MtdmaChanInfo.window, Probes.mapping, View.info_llMax, hmax,
    haddr, Set.Ico_disjoint_Ico]
  rw [Set.Ico_subset_Ico_iff (by omega), Set.Ico_subset_Ico_iff (by omega)]
  refine ⟨⟨by omega, fun w hpair => ?_⟩, by omega⟩
  have hne := hslots w hpair
  cases w with
  | pf side' d =>
      rcases pf_pointer p side' d with hw | ⟨-, hw⟩
      · rw [hw, hv]
        omega
      · omega
  | vf side' d =>
      have hw := vf_pointer p side' d
      omega

/-- A slot that the driver reaches is one of a window that it reaches. -/
theorem hostBacked_of_slot {p : Probes} {v : View} {a : Nat} (ha : a < 65536)
    (hmap : slotBytes (v.info p).llVaddrSystem (BitVec.ofNat 64 a) ⊆ p.mapping) :
    HostBacked p v := by
  have hkernel := p.kernel
  have hfits := p.fits
  simp only [slotBytes, Probes.mapping] at hmap
  rw [Set.Ico_subset_Ico_iff (by omega), slotAddr_toNat] at hmap
  rw [hostBacked_iff]
  cases v with
  | pf side c =>
      have hptr := pf_pointer p side c
      refine ⟨side, c, rfl, ?_⟩
      cases hresv : p.resv with
      | true => exact .inl rfl
      | false =>
          rw [hresv, mtdmaBufSize, if_neg Bool.false_ne_true] at hmap hfits
          cases side <;> simp [View.hostSlot] at hptr ⊢ <;> omega
  | vf side c =>
      have hptr := vf_pointer p side c
      omega

/-- **Slots**: a slot number is a place of the call exactly when it is less than `ll_max` and
the window is the channel's alone and, in host memory, one that the driver reaches. -/
theorem inWindow_slot_iff (p : Probes) (v : View) (x : BareXfer) {a : Nat} (ha : a < 2 ^ 33) :
    (Lli.slot (BitVec.ofNat 64 a)).InWindow p v x ↔
      a < 65536 ∧ (x.inDevice = true ∨ v.HostOwn p) := by
  have hrow : windowRow x ≤ 0x80000000 := by
    unfold windowRow
    split <;> omega
  have hslot := v.slot_lt x
  rw [Lli.InWindow, slotSound_iff p x.listBase v (fun v => v.slot x) (listBase_toNat p · x)
    (by omega), View.apart_iff, View.hostOwn_iff]
  cases x.inDevice with
  | true => simp
  | false =>
      simp only [Bool.false_eq_true, false_or, true_implies, and_assoc]
      refine and_congr_right fun hlt => and_congr_right fun hapart => ?_
      exact ⟨fun h => hostBacked_of_slot hlt h.2, slot_reached hlt hapart⟩

/-! ## the lists of a call -/

/-- The lists of a call in numbers: how long they are, where their descriptors are stored,
and the counts that announce them. -/
structure ListsOf (x : BareXfer) (draws : Draws) (l : DescList) : Prop where
  blocks : l.blocks.length = if x.blockCnt = 0 then 1 else x.blockCnt.toNat
  length : ∀ j b, l.blocks[j]? = some b →
    b.length = if j = 0 then listCount x draws 0 + 1 else listCount x draws j
  place : ∀ j b, l.blocks[j]? = some b → ∀ k en, b[k]? = some en →
    en.1 = if j = 0 then firstPlace k else .slot (BitVec.ofNat 64 (slotNo (slotsCounted x draws j)
      (skipped (listCount x draws) (slotsCounted x draws) j) k))
  first : (l.lbarBasic >>> 16).toNat = listCount x draws 0 % 65536
  later : ∀ (j : Nat) (b : List Entry) (en : Entry), l.blocks[j]? = some b →
    j + 1 < l.blocks.length →
    b[b.length - 1]? = some en → (en.2.descOp >>> 16).toNat = listCount x draws j % 65536

section Lists

variable {x : BareXfer} {info : MtdmaChanInfo} {junk : Junk} {draws : Draws}

/-- The count of a random split. -/
theorem splitBlock_count {cap : Nat} (hcap : cap < 2 ^ 32) (hsize : x.size ≠ 0) {j n : U32}
    {sizes : Nat → U32} (h : splitBlock cap x junk draws j = some (n, sizes)) :
    n.toNat = pieceCount (draws j) x.size - 1 ∧ pieceCount (draws j) x.size ≤ cap := by
  have hfit : pieceCount (draws j) x.size ≤ cap := by
    by_contra hover
    rw [splitBlock_eq_none junk (Nat.lt_of_not_le hover)] at h
    contradiction
  obtain ⟨ps, hps, heq⟩ := splitBlock_eq junk hfit
  have hpos := pieceCount_pos (draws j) hsize
  have hne : ps ≠ [] := List.ne_nil_of_length_pos (hps.length ▸ hpos)
  rw [h, Option.some.injEq, Prod.mk.injEq, if_neg hne] at heq
  refine ⟨?_, hfit⟩
  rw [heq.1, hps.length, BitVec.toNat_ofNat]
  omega

/-- Chain mode in numbers. -/
theorem listsOf_chain (hb : x.blockCnt = 0) (hsize : x.randFlag = true → x.size ≠ 0) {l : DescList}
    (h : xferChain x info junk draws = some l) : ListsOf x draws l := by
  rw [xferChain_eq] at h
  obtain ⟨⟨n, sizes⟩, hc, hl⟩ := Option.bind_eq_some_iff.mp h
  have hn : n.toNat = listCount x draws 0 ∧ n.toNat < 2 ^ 31 := by
    cases hr : x.randFlag with
    | false =>
        rw [if_neg (by simp [hr]), Option.some.injEq, Prod.mk.injEq] at hc
        rw [← hc.1, listCount, if_neg (by simp [hr])]
        exact ⟨rfl, descCnt_lt hr⟩
    | true =>
        rw [if_pos hr] at hc
        obtain ⟨hcount, hcap⟩ := splitBlock_count (by decide) (hsize hr) hc
        rw [listCount, if_pos hr, if_pos rfl]
        refine ⟨hcount, ?_⟩
        unfold chainCap at hcap
        omega
  split at hl
  · contradiction
  · obtain rfl := Option.some.inj hl
    have hplaces : ∀ (k : Nat) (en : Entry),
        (rounds (ListEnv.chainBody ⟨x, x.listBase info, 0, n, 0, sizes⟩) (n.toNat + 1) 0
          (chainCursor x n)).1[k]? = some en → en.1 = firstPlace k :=
      (rounds_spec (BitVec.ofNat 32) (fun _ _ => True)
        (fun k (en : Entry) => en.1 = firstPlace k) ofNat_succ
        (fun k _ hk _ => ⟨firstPlace_eq (by omega), trivial⟩) trivial).1
    have hone : ∀ {j : Nat} {b b' : List Entry}, [b'][j]? = some b → j = 0 ∧ b = b' := by
      intro j b b' hj
      cases j with
      | zero => exact ⟨rfl, (Option.some.inj hj).symm⟩
      | succ j => simp at hj
    refine ⟨?_, fun j b hj => ?_, fun j b hj k en hk => ?_, ?_, fun j b en hj hlt => ?_⟩
    · rw [if_pos hb]
      rfl
    · obtain ⟨rfl, rfl⟩ := hone hj
      rw [if_pos rfl, length_rounds, hn.1]
    · obtain ⟨rfl, rfl⟩ := hone hj
      rw [if_pos rfl]
      exact hplaces k en hk
    · rw [lbarBasic_count, hn.1]
    · simp at hlt

/-- Block mode in numbers. -/
theorem listsOf_block (hbase : x.listBase info % 1024 = 0) (hb : x.blockCnt ≠ 0)
    (hsize : x.randFlag = true → x.size ≠ 0) {l : DescList}
    (h : xferBlock x info junk draws = some l) : ListsOf x draws l := by
  obtain ⟨hlen, hshape⟩ := blocks_shape hbase hsize h
  obtain ⟨-, sts, -, hround⟩ := xferBlock_eq_some h
  have hlt : ∀ {j : Nat} {b : List Entry}, l.blocks[j]? = some b → j < x.blockCnt.toNat :=
    fun hj => hlen ▸ (List.getElem?_eq_some_iff.mp hj).1
  refine ⟨by rw [hlen, if_neg hb], fun j b hj => (hshape j b hj).1.length,
    fun j b hj => (hshape j b hj).1.place, ?_, fun j b en hj hnext hen => ?_⟩
  · simp only [xferBlock, Option.bind_eq_bind, Option.bind_eq_some_iff] at h
    obtain ⟨⟨n, sizes⟩, hc, bs, -, hl⟩ := h
    obtain rfl := Option.some.inj hl
    have hcount := (counts_eq hsize (j := 0) (by decide) hc).1
    rw [lbarBasic_count, hcount]
  · have hj32 : j < 2 ^ 32 := (hlt hj).trans x.blockCnt.isLt
    have hblock : (BitVec.ofNat 32 j : U32) ≠ x.blockCnt - 1 := by
      intro heq
      have hnat := congrArg BitVec.toNat heq
      rw [toNat_sub_one hb, BitVec.toNat_ofNat, Nat.mod_eq_of_lt hj32] at hnat
      omega
    have hblen := (hshape j b hj).1.length
    cases Nat.eq_zero_or_pos j with
    | inl h0 =>
        subst h0
        obtain ⟨n, sizes, hc, -, rfl, -⟩ := blockRound_zero.mp (hround 0 b hj)
        have hcount := (counts_eq hsize (by decide) hc).1
        rw [length_firstRounds, Nat.add_sub_cancel] at hen
        rw [firstRounds_lastDescOp _ n sizes hen, lastDescOp_count hblock, hcount]
    | inr hpos =>
        obtain ⟨n, sizes, hc, hn, rfl, -⟩ :=
          (blockRound_later (ofNat_ne_zero hpos hj32)).mp (hround j b hj)
        have hcount := (counts_eq hsize hj32 hc).1
        rw [length_laterRounds] at hen
        rw [laterRounds_lastDescOp _ _ sizes hn hen, lastDescOp_count hblock, hcount]

/-- **Lists**: what a call of chain or block mode stores, in numbers. -/
theorem listsOf_xferDescs (hbase : x.listBase info % 1024 = 0)
    (hsize : x.randFlag = true → x.size ≠ 0) {l : DescList}
    (h : xferDescs x info junk draws = some l) : ListsOf x draws l := by
  unfold xferDescs at h
  split at h
  · next hb => exact listsOf_chain hb hsize h
  · next hb => exact listsOf_block hbase hb hsize h

/-! ## calls that get to the enable write -/

/-- A call whose lists have sizes and fit the scratch tables gets there. -/
theorem exists_xferDescs (hd : x.descCnt ≠ 0) (hfirst : listCount x draws 0 ≤ 65535)
    (hsplit : x.randFlag = true → x.size ≠ 0 ∧
      ∀ j < x.blockCnt.toNat, pieceCount (draws (BitVec.ofNat 32 j)) x.size ≤ blockCap)
    (junk : Junk) : ∃ l, xferDescs x info junk draws = some l := by
  unfold xferDescs
  split
  · next hb =>
    rw [xferChain_eq]
    have hcounts : ∃ n sizes, (if x.randFlag then splitBlock chainCap x junk draws 0
        else some (x.descCnt, junk.descSize 0)) = some (n, sizes) ∧ n + 1 ≠ 0 := by
      have hsucc : ∀ n : U32, n.toNat ≤ 65535 → n + 1 ≠ 0 := by
        intro n hn h0
        have hnat := congrArg BitVec.toNat h0
        rw [BitVec.toNat_add] at hnat
        simp at hnat
        omega
      cases hr : x.randFlag with
      | false =>
          rw [listCount, if_neg (by simp [hr])] at hfirst
          exact ⟨_, _, if_neg (by simp), hsucc _ hfirst⟩
      | true =>
          rw [listCount, if_pos hr, if_pos rfl] at hfirst
          have hfit : pieceCount (draws 0) x.size ≤ chainCap := by
            change pieceCount (draws 0) x.size - 1 ≤ 65535 at hfirst
            unfold chainCap
            omega
          obtain ⟨ps, -, heq⟩ := splitBlock_eq junk hfit
          obtain ⟨hcount, -⟩ := splitBlock_count (by decide) (hsplit hr).1 heq
          refine ⟨_, _, (if_pos rfl).trans heq, hsucc _ ?_⟩
          rw [hcount]
          exact hfirst
    obtain ⟨n, sizes, hc, hn⟩ := hcounts
    rw [hc, Option.bind_some, if_neg hn]
    exact ⟨_, rfl⟩
  · next hb => exact exists_transfer hb hd hsplit junk

/-- A random call without a size may never get there. -/
theorem size_of_xferDescs (hjunk : junk.descCntTmp 0 = -1) (hr : x.randFlag = true)
    {l : DescList} (h : xferDescs x info junk draws = some l) : x.size ≠ 0 := by
  unfold xferDescs at h
  split at h
  · intro hsize
    rw [xferChain_eq, if_pos hr, splitBlock, hsize] at h
    have hwrap : junk.descCntTmp 0 + 1 = 0 := by rw [hjunk]; rfl
    simp [randSplit] at h
    exact h.1 hwrap
  · next hb => exact size_of_transfer hjunk hb hr h

/-! ## the places of a call -/

/-- Where descriptor `k` of block `j` is stored. -/
noncomputable def listPlace (x : BareXfer) (draws : Draws) (j k : Nat) : Lli :=
  if j = 0 then firstPlace k
  else .slot (BitVec.ofNat 64 (slotNo (slotsCounted x draws j)
    (skipped (listCount x draws) (slotsCounted x draws) j) k))

/-- The descriptors of block `j`, the one in the registers included. -/
noncomputable def blockLength (x : BareXfer) (draws : Draws) (j : Nat) : Nat :=
  if j = 0 then listCount x draws 0 + 1 else listCount x draws j

/-- There is a first block. -/
theorem ListsOf.blocks_pos {l : DescList} (h : ListsOf x draws l) : 0 < l.blocks.length := by
  rw [h.blocks]
  split
  · exact Nat.one_pos
  · next hb => exact BitVec.toNat_pos_of_ne_zero hb

theorem ListsOf.forall_place {l : DescList} (h : ListsOf x draws l) (P : Lli → Prop) :
    (∀ en ∈ l.entries, P en.1) ↔
      ∀ j < l.blocks.length, ∀ k < blockLength x draws j, P (listPlace x draws j k) := by
  constructor
  · intro hall j hj k hk
    have hb : l.blocks[j]? = some l.blocks[j] := List.getElem?_eq_getElem hj
    have hlen : l.blocks[j].length = blockLength x draws j := h.length j _ hb
    have hen : l.blocks[j][k]? = some (l.blocks[j][k]) :=
      List.getElem?_eq_getElem (by omega)
    have hplace : l.blocks[j][k].1 = listPlace x draws j k := h.place j _ hb k _ hen
    rw [← hplace]
    exact hall _ (List.mem_flatten_of_mem (List.getElem_mem hj) (List.getElem_mem _))
  · intro hall en hen
    obtain ⟨b, hb, hen⟩ := List.mem_flatten.mp hen
    obtain ⟨j, hj⟩ := List.mem_iff_getElem?.mp hb
    obtain ⟨k, hk⟩ := List.mem_iff_getElem?.mp hen
    have hlen : b.length = blockLength x draws j := h.length j b hj
    have hplace : en.1 = listPlace x draws j k := h.place j b hj k en hk
    rw [hplace]
    exact hall j (List.getElem?_eq_some_iff.mp hj).1 k
      (hlen ▸ (List.getElem?_eq_some_iff.mp hk).1)

/-- The places of a call are its own when the first list and the slots of the later ones
lie within the window, and the window can be used or no slot is. -/
theorem ListsOf.inside_iff {p : Probes} {v : View} {l : DescList} (h : ListsOf x draws l)
    (hc : ∀ j, 0 < j → 0 < listCount x draws j) :
    (∀ en ∈ l.entries, en.1.InWindow p v x) ↔
      listCount x draws 0 ≤ 65536 ∧
      (∀ j, 0 < j → j < x.blockCnt.toNat → ∀ k < listCount x draws j,
        slotNo (slotsCounted x draws j)
          (skipped (listCount x draws) (slotsCounted x draws) j) k < 65536) ∧
      (x.inDevice = true ∨ v.HostOwn p ∨ listCount x draws 0 = 0 ∧ x.blockCnt.toNat ≤ 1) := by
  have hfirst : listCount x draws 0 < 2 ^ 32 := listCount_lt 0
  have hlen : ∀ j, 0 < j → (j < l.blocks.length ↔ j < x.blockCnt.toNat) := by
    intro j hj
    rw [h.blocks]
    split
    · next hb =>
      rw [hb]
      simp
      omega
    · exact Iff.rfl
  rw [h.forall_place (Lli.InWindow p v x)]
  constructor
  · intro hall
    have hlist : ∀ k < listCount x draws 0, k < 65536 ∧ (x.inDevice = true ∨ v.HostOwn p) :=
      fun k hk => (inWindow_slot_iff p v x (by omega)).1
        (hall 0 h.blocks_pos (k + 1) (Nat.succ_lt_succ hk))
    have hlater : ∀ j, 0 < j → j < x.blockCnt.toNat → ∀ k < listCount x draws j,
        slotNo (slotsCounted x draws j)
          (skipped (listCount x draws) (slotsCounted x draws) j) k < 65536 ∧
        (x.inDevice = true ∨ v.HostOwn p) := by
      intro j hj hn k hk
      have hplace := hall j ((hlen j hj).2 hn) k (by rw [blockLength, if_neg hj.ne']; exact hk)
      rw [listPlace, if_neg hj.ne'] at hplace
      exact (inWindow_slot_iff p v x ((slotNo_lt ..).trans (by decide))).1 hplace
    refine ⟨?_, fun j hj hn k hk => (hlater j hj hn k hk).1, ?_⟩
    · by_contra hover
      exact absurd (hlist 65536 (by omega)).1 (Nat.lt_irrefl _)
    · rw [← or_assoc]
      by_cases hzero : listCount x draws 0 = 0
      · by_cases hone : x.blockCnt.toNat ≤ 1
        · exact .inr ⟨hzero, hone⟩
        · exact .inl (hlater 1 Nat.one_pos (by omega) 0 (hc 1 Nat.one_pos)).2
      · exact .inl (hlist 0 (Nat.pos_of_ne_zero hzero)).2
  · rintro ⟨hlist, hlater, hapart⟩ j hj k hk
    rw [← or_assoc] at hapart
    cases j with
    | zero =>
        cases k with
        | zero => trivial
        | succ k =>
            have hk : k < listCount x draws 0 := Nat.lt_of_succ_lt_succ hk
            exact (inWindow_slot_iff p v x (by omega)).2
              ⟨by omega, hapart.resolve_right fun h0 => by omega⟩
    | succ j =>
        have hn := (hlen (j + 1) j.succ_pos).1 hj
        rw [listPlace, if_neg j.succ_ne_zero]
        exact (inWindow_slot_iff p v x ((slotNo_lt ..).trans (by decide))).2
          ⟨hlater (j + 1) j.succ_pos hn k hk, hapart.resolve_right fun h0 => by omega⟩

end Lists

/-! ## window safety -/

/-- The counts of a call are those of its lists. -/
structure DescList.CountsTrue (l : DescList) : Prop where
  first : ∀ b, l.blocks[0]? = some b → (l.lbarBasic >>> 16).toNat + 1 = b.length
  later : ∀ (j : Nat) (b : List Entry) (en : Entry), l.blocks[j]? = some b →
    j + 1 < l.blocks.length → b[b.length - 1]? = some en →
      (en.2.descOp >>> 16).toNat = b.length - if j = 0 then 1 else 0

/-- What a call owes the channel of entry `v`: it gets to the enable write or is rejected,
stores to places of its own only, and writes true counts. -/
structure SafeCall (p : Probes) (v : View) (x : BareXfer) (draws : Draws) (junk : Junk) :
    Prop where
  runs : ∀ mmu, dmaBareXfer mmu (v.info p) x junk draws ≠ .fault
  inside : ∀ mmu as, dmaBareXfer mmu (v.info p) x junk draws = .run as →
    ∀ (place : Lli) (word : LLWord) (value : U32), .setLL place word value ∈ as →
      place.InWindow p v x
  single : x.descCnt = 0 → ∀ mmu as, dmaBareXfer mmu (v.info p) x junk draws = .run as →
    ∀ value : U32, .setCh .lbarBasic value ∈ as → value >>> 16 = 0
  counts : x.dirBits ≠ none → x.descCnt ≠ 0 →
    ∀ l, xferDescs x (v.info p) junk draws = some l → l.CountsTrue

/-- The same whatever the locals hold, `i` and `lli` apart. -/
def WindowSafe (p : Probes) (v : View) (x : BareXfer) (draws : Draws) (i : U32) (lli : Lli) :
    Prop :=
  ∀ descCntTmp descSize, SafeCall p v x draws ⟨i, lli, descCntTmp, descSize⟩

/-- The slots of the blocks before `j`: with host lists of random sizes the driver takes
block `j`'s own count for every earlier one. -/
noncomputable def usedBefore (x : BareXfer) (draws : Draws) (j : Nat) : Nat :=
  if x.inDevice = true ∨ x.randFlag = false then listsBefore (listCount x draws) j
  else j * listCount x draws j

/-- The calls of chain and block mode whose lists fit: within the window, which is the channel's
own unless no slot is used. -/
structure ListsFit (p : Probes) (v : View) (x : BareXfer) (draws : Draws) : Prop where
  split : x.randFlag = true → x.size ≠ 0 ∧
    ∀ j < x.blockCnt.toNat, pieceCount (draws (BitVec.ofNat 32 j)) x.size ≤ blockCap
  first : listCount x draws 0 ≤ 65535
  later : ∀ j, 0 < j → j < x.blockCnt.toNat →
    EndsInWindow (listCount x draws) (usedBefore x draws) j
  apart : x.inDevice = true ∨ v.HostOwn p ∨ listCount x draws 0 = 0 ∧ x.blockCnt.toNat ≤ 1

section Safe

variable {p : Probes} {v : View} {x : BareXfer} {draws : Draws} {i : U32} {lli : Lli}

/-- Single mode has one place, which is unset unless `i` happens to be zero. -/
theorem windowSafe_single (h0 : x.descCnt = 0) (hdir : x.dirBits ≠ none) :
    WindowSafe p v x draws i lli ↔ i = 0 ∨ lli.InWindow p v x := by
  obtain ⟨⟨bits, addrType⟩, hbits⟩ := Option.ne_none_iff_exists'.mp hdir
  have hrun : ∀ mmu junk, dmaBareXfer mmu (v.info p) x junk draws =
      .run (xferSingle mmu addrType x junk ++
        [.setCh .intrImsk 0, .setCh .direction (bits ||| x.descMst1), .setCh .enable 1]) :=
    fun mmu junk => dmaBareXfer_single h0 hbits junk draws
  constructor
  · intro h
    by_cases hi : i = 0
    · exact .inl hi
    · have hmem : Access.setLL lli .cnt (x.size - 1) ∈
          xferSingle false addrType x ⟨i, lli, fun _ => 0, fun _ _ => 0⟩ := by
        simp only [xferSingle, if_neg hi]
        simp
      exact .inr ((h (fun _ => 0) fun _ _ => 0).inside false _ (hrun _ _) lli .cnt (x.size - 1)
        (List.mem_append_left _ hmem))
  · intro h tmp sizes
    refine ⟨fun mmu => ?_, fun mmu as has place word value hmem => ?_,
      fun _ mmu as has value hmem => ?_, fun _ hd => absurd h0 hd⟩
    · rw [hrun]
      exact XferProg.noConfusion
    · obtain rfl := XferProg.run.inj ((hrun _ _).symm.trans has)
      have hplace : place = if i = 0 then .regs else lli := by
        by_cases hi : i = 0 <;> cases mmu <;> simp [xferSingle, hi] at hmem ⊢ <;> grind
      rw [hplace]
      by_cases hi : i = 0
      · rw [if_pos hi]
        trivial
      · rw [if_neg hi]
        exact h.resolve_left hi
    · obtain rfl := XferProg.run.inj ((hrun _ _).symm.trans has)
      have hvalue : value = (x.descCnt <<< 16) ||| x.chainEn := by
        by_cases hi : i = 0 <;> cases mmu <;> simp [xferSingle, hi] at hmem ⊢ <;> grind
      rw [hvalue, h0, BareXfer.chainEn, if_pos h0]
      rfl

/-! ## chain and block mode -/

theorem listsBefore_fixed (hr : x.randFlag = false) (j : Nat) :
    listsBefore (listCount x draws) j = j * listCount x draws j := by
  have hcount : ∀ j, listCount x draws j = x.descCnt.toNat := fun j => by
    rw [listCount, if_neg (by simp [hr])]
  induction j with
  | zero => simp [listsBefore]
  | succ j ih =>
      rw [listsBefore_succ, ih, hcount, hcount, Nat.succ_mul]

/-- The driver's count of earlier slots wraps around. -/
theorem slotsCounted_eq (j : Nat) : slotsCounted x draws j = usedBefore x draws j % 2 ^ 32 := by
  rw [slotsCounted, usedBefore]
  cases hr : x.randFlag with
  | false => simp [listsBefore_fixed hr]
  | true => cases x.inDevice <;> simp

theorem usedBefore_zero : usedBefore x draws 0 = 0 := by
  rw [usedBefore]
  split
  · simp [listsBefore]
  · exact Nat.zero_mul _

/-- The next list does not wrap when the lists before it end within the window. -/
theorem usedBefore_succ_le {j : Nat}
    (hcount : listCount x draws (j + 1) ≤ 65535)
    (hrandom : x.randFlag = true → listCount x draws (j + 1) ≤ 25000)
    (hend : EndsInWindow (listCount x draws) (usedBefore x draws) j) :
    usedBefore x draws (j + 1) + listCount x draws (j + 1) ≤ 2 ^ 31 := by
  have hgap := le_gapBefore (listCount x draws) (usedBefore x draws) j
  rw [EndsInWindow] at hend
  by_cases hsum : x.inDevice = true ∨ x.randFlag = false
  · have hbase : ∀ j, usedBefore x draws j = listsBefore (listCount x draws) j :=
      fun j => if_pos hsum
    have hsucc := listsBefore_succ (listCount x draws) j
    rw [hbase] at hend ⊢
    omega
  · have hr : x.randFlag = true := by simpa using fun h => hsum (.inr h)
    have hbase : usedBefore x draws (j + 1) = (j + 1) * listCount x draws (j + 1) := if_neg hsum
    have hmul : (j + 1) * listCount x draws (j + 1) ≤ 65537 * 25000 :=
      Nat.mul_le_mul (by omega) (hrandom hr)
    omega

/-- The slots of the later lists lie within the window when the lists end there. -/
theorem laterSlots_iff (hd : x.descCnt ≠ 0)
    (hsplit : x.randFlag = true → x.size ≠ 0 ∧
      ∀ j < x.blockCnt.toNat, pieceCount (draws (BitVec.ofNat 32 j)) x.size ≤ blockCap)
    (hfirst : listCount x draws 0 ≤ 65535) :
    (∀ j, 0 < j → j < x.blockCnt.toNat → ∀ k < listCount x draws j,
        slotNo (slotsCounted x draws j)
          (skipped (listCount x draws) (slotsCounted x draws) j) k < 65536) ↔
      ∀ j, 0 < j → j < x.blockCnt.toNat →
        EndsInWindow (listCount x draws) (usedBefore x draws) j := by
  have hpos : ∀ j, 0 < j → 0 < listCount x draws j := listCount_pos hd fun hr => (hsplit hr).1
  refine slots_inside_iff slotsCounted_eq usedBefore_zero hpos (by omega) fun j hj hends => ?_
  have hrandom : x.randFlag = true → listCount x draws (j + 1) ≤ 25000 := by
    intro hr
    rw [listCount, if_pos hr, if_neg j.succ_ne_zero]
    exact (hsplit hr).2 _ hj
  refine usedBefore_succ_le ?_ hrandom (hends j (Nat.le_refl j))
  cases hr : x.randFlag with
  | false =>
      rw [listCount, if_neg (by simp [hr])] at hfirst ⊢
      exact hfirst
  | true => exact (hrandom hr).trans (by decide)

/-- The stores of a list are those of its entries. -/
theorem forall_setLL_iff (mmu : Bool) (x : BareXfer) (bits addrType : U32) (l : DescList)
    (P : Lli → Prop) :
    (∀ (place : Lli) (word : LLWord) (value : U32),
      .setLL place word value ∈ descsAccesses mmu x bits addrType l → P place) ↔
    ∀ en ∈ l.entries, P en.1 := by
  have hmmu : ∀ place word value, Access.setLL place word value ∉
      (if mmu ∧ x.blockCnt = 0 then [Access.setCh .mmuAddrType addrType] else []) := by
    intro place word value
    split <;> simp
  constructor
  · intro h en hen
    refine h en.1 .cnt (en.2.word .cnt) ?_
    simp only [descsAccesses, DescList.accesses, List.mem_append, List.mem_cons,
      List.mem_flatMap]
    exact .inl (.inr (.inr ⟨en, hen, by simp [setDesc]⟩))
  · intro h place word value hmem
    simp only [descsAccesses, DescList.accesses, List.mem_append, List.mem_cons,
      List.mem_flatMap, reduceCtorEq, List.not_mem_nil, or_false, hmmu, false_or] at hmem
    obtain ⟨en, hen, hset⟩ := hmem
    obtain ⟨w, -, heq⟩ := List.mem_map.mp hset
    obtain rfl : en.1 = place := (Access.setLL.inj heq).1
    exact h en hen

/-- The counts of lists of at most 65535 descriptors. -/
theorem ListsOf.countsTrue {l : DescList} (h : ListsOf x draws l)
    (hfirst : listCount x draws 0 ≤ 65535)
    (hlater : ∀ j, 0 < j → j + 1 < l.blocks.length → listCount x draws j ≤ 65535) :
    l.CountsTrue := by
  refine ⟨fun b hb => ?_, fun j b en hb hj hen => ?_⟩
  · rw [h.first, h.length 0 b hb, if_pos rfl, Nat.mod_eq_of_lt (by omega)]
  · rw [h.later j b en hb hj hen, h.length j b hb]
    cases Nat.eq_zero_or_pos j with
    | inl h0 =>
        subst h0
        rw [if_pos rfl, if_pos rfl, Nat.mod_eq_of_lt (by omega), Nat.add_sub_cancel]
    | inr hpos =>
        have := hlater j hpos hj
        rw [if_neg hpos.ne', if_neg hpos.ne', Nat.mod_eq_of_lt (by omega), Nat.sub_zero]

/-- A true count of the first list fits its field. -/
theorem ListsOf.first_le {l : DescList} (h : ListsOf x draws l) (hcounts : l.CountsTrue) :
    listCount x draws 0 ≤ 65535 := by
  have hpos := h.blocks_pos
  have hb : l.blocks[0]? = some l.blocks[0] := List.getElem?_eq_getElem hpos
  have hfirst := hcounts.first _ hb
  rw [h.first, h.length 0 _ hb, if_pos rfl] at hfirst
  omega

/-- A call of chain or block mode is safe exactly when its lists fit. -/
theorem windowSafe_descs (hd : x.descCnt ≠ 0) (hdir : x.dirBits ≠ none) :
    WindowSafe p v x draws i lli ↔ ListsFit p v x draws := by
  obtain ⟨⟨bits, addrType⟩, hbits⟩ := Option.ne_none_iff_exists'.mp hdir
  have hbase := listBase_mod p v x
  constructor
  · intro h
    have hruns : ∀ tmp sizes, ∃ l, xferDescs x (v.info p) ⟨i, lli, tmp, sizes⟩ draws = some l := by
      intro tmp sizes
      by_contra hno
      have hnone := Option.eq_none_iff_forall_ne_some.mpr fun l hl => hno ⟨l, hl⟩
      refine (h tmp sizes).runs false ?_
      rw [dmaBareXfer, hbits]
      simp only [if_neg hd, hnone]
    have hsize : x.randFlag = true → x.size ≠ 0 := by
      intro hr
      obtain ⟨l, hl⟩ := hruns (fun _ => -1) fun _ _ => 0
      exact size_of_xferDescs rfl hr hl
    obtain ⟨l, hl⟩ := hruns (fun _ => 0) fun _ _ => 0
    have hlists := listsOf_xferDescs hbase hsize hl
    have hfirst := hlists.first_le ((h _ _).counts hdir hd l hl)
    have hrun : dmaBareXfer false (v.info p) x _ draws =
        .run (descsAccesses false x bits addrType l) :=
      (dmaBareXfer_descs hd hbits _ _).2 ⟨l, hl, rfl⟩
    have hplaces := (forall_setLL_iff false x bits addrType l (Lli.InWindow p v x)).1
      ((h _ _).inside false _ hrun)
    have hsplit : x.randFlag = true → x.size ≠ 0 ∧
        ∀ j < x.blockCnt.toNat, pieceCount (draws (BitVec.ofNat 32 j)) x.size ≤ blockCap := by
      intro hr
      refine ⟨hsize hr, fun j hj => ?_⟩
      unfold xferDescs at hl
      split at hl
      · next hb =>
        rw [hb] at hj
        exact absurd hj (Nat.not_lt_zero j)
      · exact fits_of_transfer hr hl j hj
    obtain ⟨-, hslots, hapart⟩ := (hlists.inside_iff (listCount_pos hd hsize)).1 hplaces
    exact ⟨hsplit, hfirst, (laterSlots_iff hd hsplit hfirst).1 hslots, hapart⟩
  · intro hfit tmp sizes
    have hsize : x.randFlag = true → x.size ≠ 0 := fun hr => (hfit.split hr).1
    obtain ⟨l, hl⟩ : ∃ l, xferDescs x (v.info p) ⟨i, lli, tmp, sizes⟩ draws = some l :=
      exists_xferDescs hd hfit.first hfit.split _
    have hlists := listsOf_xferDescs hbase hsize hl
    have hplaces := (hlists.inside_iff (p := p) (v := v) (listCount_pos hd hsize)).2
      ⟨hfit.first.trans (by decide), (laterSlots_iff hd hfit.split hfit.first).2 hfit.later,
        hfit.apart⟩
    have hrun : ∀ mmu, dmaBareXfer mmu (v.info p) x ⟨i, lli, tmp, sizes⟩ draws =
        .run (descsAccesses mmu x bits addrType l) :=
      fun mmu => (dmaBareXfer_descs hd hbits _ _).2 ⟨l, hl, rfl⟩
    refine ⟨fun mmu => ?_, fun mmu as has => ?_, fun h0 => absurd h0 hd, fun _ _ l' hl' => ?_⟩
    · rw [hrun]
      exact XferProg.noConfusion
    · obtain rfl := XferProg.run.inj ((hrun mmu).symm.trans has)
      exact (forall_setLL_iff mmu x bits addrType l (Lli.InWindow p v x)).2 hplaces
    · obtain rfl := Option.some.inj (hl.symm.trans hl')
      refine hlists.countsTrue hfit.first fun j hj hlt => ?_
      have hn : j < x.blockCnt.toNat := by
        rw [hlists.blocks] at hlt
        split at hlt <;> omega
      -- a later list is behind a gap
      have hend := hfit.later j hj hn
      have hgap := le_gapBefore (listCount x draws) (usedBefore x draws) j
      rw [EndsInWindow] at hend
      omega

/-- **Descriptor windows**: a call stays in the list window of its channel, and announces
its lists truly, whatever the uninitialised locals other than `i` and `lli` hold, exactly
when its direction is unknown, it is a single transfer whose place is set, or its lists
fit. -/
theorem windowSafe_iff :
    WindowSafe p v x draws i lli ↔
      x.dirBits = none ∨
      x.descCnt = 0 ∧ (i = 0 ∨ lli.InWindow p v x) ∨
      x.descCnt ≠ 0 ∧ ListsFit p v x draws := by
  by_cases hdir : x.dirBits = none
  · have hreject : ∀ mmu junk, dmaBareXfer mmu (v.info p) x junk draws = .reject := by
      intro mmu junk
      rw [dmaBareXfer, hdir]
    simp only [hdir, true_or, iff_true]
    intro tmp sizes
    refine ⟨fun mmu => ?_, fun mmu as has => ?_, fun _ mmu as has => ?_, fun h => absurd hdir h⟩
    · rw [hreject]
      exact XferProg.noConfusion
    · rw [hreject] at has
      contradiction
    · rw [hreject] at has
      contradiction
  · by_cases hd : x.descCnt = 0
    · have hno : ¬ (x.descCnt ≠ 0 ∧ ListsFit p v x draws) := fun h => h.1 hd
      rw [windowSafe_single hd hdir, or_iff_right hdir, or_iff_left hno, and_iff_right hd]
    · have hno : ¬ (x.descCnt = 0 ∧ (i = 0 ∨ lli.InWindow p v x)) := fun h => hd h.1
      rw [windowSafe_descs hd hdir, or_iff_right hdir, or_iff_right hno, and_iff_right hd]

end Safe

/-- Two blocks in 40001 and 40000 pieces, with device lists. -/
def twoLongLists : BareXfer := ⟨1, 0, 40000, 2, 0x1000, 0x2000, 0x20000⟩

/-- A chain of 65537 pieces, with a device list. -/
def longChain : BareXfer := ⟨1, 0, 0x10000, 0, 0x1000, 0x2000, 0x20000⟩

/-- A chain of two pieces from the device, with a list in host memory. -/
def hostChain : BareXfer := ⟨2, 1, 1, 0, 0x1000, 0x2000, 8⟩

/-- The second list starts at slot 40032 and runs on into the next channel's window; the
count of the long chain is written as zero; and a virtual function stores its list in host
memory through a pointer near `NULL`. -/
theorem long_lists_unsafe :
    ¬ WindowSafe someProbes (.pf .rd 0) twoLongLists default 0 .regs ∧
    ¬ WindowSafe someProbes (.pf .rd 0) longChain default 0 .regs ∧
    ¬ WindowSafe someProbes (.vf .wr 0) hostChain default 0 .regs := by
  have hcount : ∀ x : BareXfer, x.randFlag = false → ∀ j,
      listCount x default j = x.descCnt.toNat := by
    intro x hr j
    rw [listCount, if_neg (by simp [hr])]
  refine ⟨?_, ?_, ?_⟩
  · rw [windowSafe_iff]
    rintro (h | ⟨h, -⟩ | ⟨-, hfit⟩)
    · exact absurd h (by decide)
    · exact absurd h (by decide)
    · have hend := hfit.later 1 Nat.one_pos (by decide)
      rw [EndsInWindow, usedBefore, if_pos (.inl rfl), listsBefore_fixed rfl, gapBefore,
        gapBefore, usedBefore_zero, hcount _ rfl, hcount _ rfl] at hend
      exact absurd hend (by decide)
  · rw [windowSafe_iff]
    rintro (h | ⟨h, -⟩ | ⟨-, hfit⟩)
    · exact absurd h (by decide)
    · exact absurd h (by decide)
    · have hfirst := hfit.first
      rw [hcount _ rfl] at hfirst
      exact absurd hfirst (by decide)
  · rw [windowSafe_iff]
    rintro (h | ⟨h, -⟩ | ⟨-, hfit⟩)
    · exact absurd h (by decide)
    · exact absurd h (by decide)
    · rcases hfit.apart with h | h | ⟨h, -⟩
      · exact absurd h (by decide)
      · exact h
      · rw [hcount _ rfl] at h
        exact absurd h (by decide)

end MtEmu
