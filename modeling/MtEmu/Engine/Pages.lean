import MtEmu.Engine.Outcome
import MtEmu.Lib.Loop

/-!
# MtEmu.Engine.Pages

The scatter table of `emu_dma_rw`, over the pinned pages (`mt-emu-mtdma-test.c`).

The first entry starts at the buffer's offset in its page, the others at the start of
theirs, and each takes what is left of the buffer, a page at most.  Before round `k` the
first `covered q k` bytes are in entries (`sgRound_spec`), so that the entries are the
buffer page by page (`scatter_covers`).
-/

namespace MtEmu

/-- `struct scatterlist` after `sg_set_page`. -/
structure Scatterlist (P : Type) where
  page : P
  length : U32
  offset : U32

/-- The bytes of an entry: a page and a place in it. -/
def Scatterlist.bytes {P : Type} (sg : Scatterlist P) : List (P × Nat) :=
  (List.range sg.length.toNat).map fun k => (sg.page, sg.offset.toNat + k)

namespace MtdmaRw

variable {P : Type}

/-- Round `i` of `for_each_sg`: the entry, and `left_to_map` afterwards. -/
def sgRound (q : MtdmaRw) (dmaPages : Nat → P) (i : Nat) (leftToMap : U64) : Scatterlist P × U64 :=
  let len : U32 := (if pageSize < leftToMap then pageSize else leftToMap).setWidth 32
  let offset : U32 := if i = 0 then q.offset.setWidth 32 else 0
  let len : U32 := if i = 0 ∧ 4096 < offset + len then 4096 - offset else len
  (⟨dmaPages i, len, offset⟩, leftToMap - len.setWidth 64)

/-- The table that `emu_dma_rw` builds over `dma_pages`. -/
def buildSg (q : MtdmaRw) (dmaPages : Nat → P) : List (Scatterlist P) :=
  (Loop.rounds (q.sgRound dmaPages) q.sgs.toNat 0 q.size).1

/-- Byte `j` of the user's buffer: its page, the first of which is that of `userbuf`, and
its place in the page. -/
def userByte (q : MtdmaRw) (dmaPages : Nat → P) (j : Nat) : P × Nat :=
  (dmaPages ((q.userbuf.toNat + j) / 4096 - q.userbuf.toNat / 4096), (q.userbuf.toNat + j) % 4096)

/-- The bytes in the first `k` entries. -/
def covered (q : MtdmaRw) (k : Nat) : Nat := min q.size.toNat (4096 * k - q.offset.toNat)

/-! ## sizes -/

theorem offset_toNat (q : MtdmaRw) : q.offset.toNat = q.userbuf.toNat % 4096 := rfl

theorem offset_lt (q : MtdmaRw) : q.offset.toNat < 4096 := Nat.mod_lt _ (by decide)

/-- The ioctl admits sizes of 32 bits only. -/
theorem Fits.size_lt {q : MtdmaRw} {size : U32} (h : q.Fits size) : q.size.toNat < 0x100000000 := by
  obtain ⟨hmin, hsize⟩ := h
  have hmin : 32 ≤ size.toNat := hmin
  have hsize := congrArg BitVec.toNat hsize
  simp only [BitVec.ofNat_eq_ofNat, BitVec.toNat_setWidth, BitVec.toNat_add, BitVec.toNat_ofNat]
    at hsize
  omega

/-- The number of pages, rounded up. -/
theorem sgs_toNat {q : MtdmaRw} (hsize : q.size.toNat < 0x100000000) :
    q.sgs.toNat = (q.offset.toNat + q.size.toNat + 4095) / 4096 := by
  have hoff := q.offset_lt
  simp only [sgs, pageSize, BitVec.ofNat_eq_ofNat, BitVec.toNat_udiv, BitVec.toNat_sub,
    BitVec.toNat_add, BitVec.toNat_ofNat, Nat.reducePow, Nat.reduceMod]
  omega

theorem covered_zero (q : MtdmaRw) : q.covered 0 = 0 := by
  simp [covered]

/-- All pages together have the buffer. -/
theorem covered_sgs {q : MtdmaRw} (hsize : q.size.toNat < 0x100000000) :
    q.covered q.sgs.toNat = q.size.toNat := by
  rw [covered, sgs_toNat hsize]
  omega

/-- Before a round the entries are full but for the offset. -/
theorem covered_of_lt {q : MtdmaRw} {k : Nat} (hsize : q.size.toNat < 0x100000000)
    (hk : k < q.sgs.toNat) : q.covered k = 4096 * k - q.offset.toNat := by
  rw [sgs_toNat hsize] at hk
  rw [covered]
  omega

/-! ## one round -/

theorem min_page (left : U64) :
    (if pageSize < left then pageSize else left).toNat = min 4096 left.toNat := by
  by_cases h : pageSize < left
  · have hlt : 4096 < left.toNat := h
    rw [if_pos h, Nat.min_eq_left hlt.le]
    rfl
  · have hle : left.toNat ≤ 4096 := Nat.le_of_not_lt h
    rw [if_neg h, Nat.min_eq_right hle]

/-- `left_to_map -= len`. -/
theorem sub_setWidth {left : U64} {len : U32} (h : len.toNat ≤ left.toNat) :
    (left - len.setWidth 64).toNat = left.toNat - len.toNat := by
  have hwide : (len.setWidth 64).toNat = len.toNat := by
    rw [BitVec.toNat_setWidth]
    have := len.isLt
    omega
  rw [BitVec.toNat_sub_of_le (by rw [BitVec.le_def, hwide]; exact h), hwide]

/-- The entry of round `k`, when `covered q k` bytes are in the entries before it: it is
not empty, it lies in page `k`, and it has the buffer's next bytes. -/
theorem sgRound_spec {q : MtdmaRw} {dmaPages : Nat → P} {k : Nat} {left : U64}
    (hpos : 0 < q.size.toNat) (hsize : q.size.toNat < 0x100000000) (hk : k < q.sgs.toNat)
    (hleft : left.toNat = q.size.toNat - q.covered k) :
    let r := q.sgRound dmaPages k left
    r.1.page = dmaPages k ∧ 0 < r.1.length.toNat ∧
      r.1.offset.toNat + r.1.length.toNat ≤ 4096 ∧
      r.1.offset.toNat = (q.userbuf.toNat + q.covered k) % 4096 ∧
      r.1.length.toNat = q.covered (k + 1) - q.covered k ∧
      r.2.toNat = q.size.toNat - q.covered (k + 1) := by
  have hoff := q.offset_lt
  have hmod := q.offset_toNat
  have hbefore := covered_of_lt hsize hk
  have hlt : 4096 * k - q.offset.toNat < q.size.toNat := by
    rw [sgs_toNat hsize] at hk
    omega
  rw [hbefore] at hleft ⊢
  have hlen : ((if pageSize < left then pageSize else left).setWidth 32).toNat =
      min 4096 left.toNat := by
    rw [BitVec.toNat_setWidth, min_page]
    omega
  have hoff32 : (q.offset.setWidth 32).toNat = q.offset.toNat := by
    rw [BitVec.toNat_setWidth]
    omega
  simp only [sgRound, covered]
  by_cases h0 : k = 0
  · -- the first page has the offset
    subst h0
    have hcmp : (4096 < q.offset.setWidth 32 +
        (if pageSize < left then pageSize else left).setWidth 32) ↔
        4096 < q.offset.toNat + min 4096 left.toNat := by
      rw [BitVec.lt_def, BitVec.toNat_add, hoff32, hlen, Nat.mod_eq_of_lt (by omega)]
      rfl
    simp only [true_and, if_true, hcmp]
    by_cases hfull : 4096 < q.offset.toNat + min 4096 left.toNat
    · have hcut : ((4096 : U32) - q.offset.setWidth 32).toNat = 4096 - q.offset.toNat := by
        rw [BitVec.toNat_sub_of_le (by rw [BitVec.le_def, hoff32]; exact hoff.le), hoff32]
        rfl
      rw [if_pos hfull, sub_setWidth (by rw [hcut]; omega), hcut, hoff32]
      omega
    · rw [if_neg hfull, sub_setWidth (by rw [hlen]; omega), hlen, hoff32]
      omega
  · simp only [h0, false_and, if_false]
    rw [sub_setWidth (by rw [hlen]; omega), hlen, show (0 : U32).toNat = 0 from rfl]
    refine ⟨trivial, ?_, ?_, ?_, ?_, ?_⟩ <;> omega

/-! ## all rounds -/

/-- **Scatter table**: for a request that passes the check of the ioctl, the entries are
one a page, none is empty, each lies in its page, and their bytes are those of the user's
buffer, in order, as many as there are. -/
theorem scatter_covers {s : U32} {q : MtdmaRw} (hsize : 1 ≤ q.size) (hfits : q.Fits s)
    (dmaPages : Nat → P) :
    (q.buildSg dmaPages).length = q.sgs.toNat ∧ q.sgs ≠ 0 ∧
      (∀ k sg, (q.buildSg dmaPages)[k]? = some sg →
        sg.page = dmaPages k ∧ 0 < sg.length.toNat ∧ sg.offset.toNat + sg.length.toNat ≤ 4096) ∧
      (q.buildSg dmaPages).flatMap Scatterlist.bytes =
        (List.range q.size.toNat).map (q.userByte dmaPages) ∧
      ((q.buildSg dmaPages).map fun sg => sg.length.toNat).sum = q.size.toNat := by
  have hlt := hfits.size_lt
  have hpos : 0 < q.size.toNat := hsize
  have hlength : (q.buildSg dmaPages).length = q.sgs.toNat := Loop.length_rounds ..
  obtain ⟨hitems, -⟩ : (∀ k sg, (q.buildSg dmaPages)[k]? = some sg →
      sg.page = dmaPages k ∧ 0 < sg.length.toNat ∧ sg.offset.toNat + sg.length.toNat ≤ 4096 ∧
        sg.offset.toNat = (q.userbuf.toNat + q.covered k) % 4096 ∧
        sg.length.toNat = q.covered (k + 1) - q.covered k) ∧ _ :=
    Loop.rounds_spec id (fun k left => left.toNat = q.size.toNat - q.covered k) _ (fun _ => rfl)
      (fun k left hk hleft => by
        obtain ⟨hpage, hne, hin, hoff, hlen, hrest⟩ := sgRound_spec hpos hlt hk hleft
        exact ⟨⟨hpage, hne, hin, hoff, hlen⟩, hrest⟩)
      (by rw [q.covered_zero]; rfl)
  have hentry : ∀ k sg, (q.buildSg dmaPages)[k]? = some sg →
      sg.bytes = (List.range' (q.covered k) (q.covered (k + 1) - q.covered k)).map
        (q.userByte dmaPages) := by
    intro k sg hsg
    obtain ⟨hpage, -, hin, hoff, hlen⟩ := hitems k sg hsg
    have hk : k < q.sgs.toNat := hlength ▸ (List.getElem?_eq_some_iff.mp hsg).1
    have hstart := covered_of_lt hlt hk
    have hmod := q.offset_toNat
    rw [Scatterlist.bytes, hlen, List.range'_eq_map_range, List.map_map]
    refine List.map_congr_left fun t ht => ?_
    have ht := List.mem_range.mp ht
    rw [← hlen] at ht
    rw [hpage, hoff, Function.comp, userByte]
    congr 1
    · congr 1
      omega
    · omega
  obtain ⟨-, hbytes⟩ := Loop.flatMap_slices (c := q.covered)
    (fun k _ => by simp only [covered]; omega) hentry
  rw [hlength, covered_sgs hlt, q.covered_zero, Nat.sub_zero, ← List.range_eq_range'] at hbytes
  refine ⟨hlength, ?_, fun k sg hsg => ?_, hbytes, ?_⟩
  · intro h0
    have hnone := sgs_toNat hlt
    rw [h0, show (0 : U64).toNat = 0 from rfl] at hnone
    omega
  · obtain ⟨hpage, hne, hin, -, -⟩ := hitems k sg hsg
    exact ⟨hpage, hne, hin⟩
  · have hcount := congrArg List.length hbytes
    rw [List.length_flatMap, List.length_map, List.length_range] at hcount
    simpa [Scatterlist.bytes] using hcount

/-- Ten thousand bytes from the middle of a page on. -/
theorem scatter_covers_threePages :
    let q : MtdmaRw := ⟨0x1000, 10000, 1, 0, 1, 0x7800⟩
    (q.buildSg id).length = q.sgs.toNat ∧ q.sgs ≠ 0 ∧
      (∀ k (sg : Scatterlist Nat), (q.buildSg id)[k]? = some sg →
        sg.page = k ∧ 0 < sg.length.toNat ∧ sg.offset.toNat + sg.length.toNat ≤ 4096) ∧
      (q.buildSg id).flatMap Scatterlist.bytes = (List.range q.size.toNat).map (q.userByte id) ∧
      ((q.buildSg id).map fun sg => sg.length.toNat).sum = q.size.toNat :=
  scatter_covers (s := 10032) (by decide) (by decide) id

/-! ## at DMA addresses -/

/-- What `dma_map_sg` makes of an entry whose page is mapped at `page`. -/
def sgEntry (sg : Scatterlist U64) : SgEntry := ⟨sg.page + sg.offset.setWidth 64, sg.length⟩

/-- One round, in 64 bits. -/
theorem sgEntry_sgRound (q : MtdmaRw) (dmaPages : Nat → U64) (i : Nat) (left : U64) :
    let offset := if i = 0 then q.offset else 0
    let len := if pageSize < left then pageSize else left
    let len := if pageSize < offset + len then pageSize - offset else len
    sgEntry (q.sgRound dmaPages i left).1 = ⟨dmaPages i + offset, len.setWidth 32⟩ ∧
      (q.sgRound dmaPages i left).2 = left - len := by
  have hoff := q.offset_lt
  have hpage : (pageSize : U64) = 4096 := rfl
  have hmin : (if (4096 : U64) < left then 4096 else left) ≤ 4096 := by
    split
    · exact Nat.le_refl _
    · next h => exact BitVec.not_lt.mp h
  have hoffset : q.offset < 4096 := hoff
  simp only [sgRound, sgEntry, hpage]
  generalize q.offset = offset at hoffset
  generalize (if (4096 : U64) < left then 4096 else left) = len at hmin
  by_cases h0 : i = 0
  · simp only [h0, true_and, if_true]
    have hcmp : 4096 < offset.setWidth 32 + len.setWidth 32 ↔ 4096 < offset + len := by
      bv_omega
    have hwide : (offset.setWidth 32).setWidth 64 = offset := by bv_omega
    simp only [hcmp, hwide]
    split
    · have hcut : (4096 : U32) - offset.setWidth 32 = ((4096 : U64) - offset).setWidth 32 := by
        bv_omega
      have hwide' : (((4096 : U64) - offset).setWidth 32).setWidth 64 = 4096 - offset := by bv_omega
      rw [hcut, hwide']
      exact ⟨rfl, rfl⟩
    · have hwide' : (len.setWidth 32).setWidth 64 = len := by bv_omega
      rw [hwide']
      exact ⟨rfl, rfl⟩
  · have hcmp : ¬ 4096 < 0 + len := by bv_omega
    simp only [h0, false_and, if_false, hcmp]
    refine ⟨?_, ?_⟩
    · rw [show (0 : U32).setWidth 64 = (0 : U64) from rfl]
    · bv_omega

/-- The table mapped at `addrs` is the list that the channel is given. -/
theorem sgEntries_eq {q : MtdmaRw} {addrs : List U64} (haddrs : addrs.length = q.sgs.toNat) :
    sgEntries q.size q.offset addrs = (q.buildSg fun k => addrs.getD k 0).map sgEntry := by
  have hrounds : ∀ (dmaPages : Nat → U64) (i : Nat) (left : U64) (l : List U64),
      (∀ k (hk : k < l.length), dmaPages (i + k) = l[k]) →
      sgEntries left (if i = 0 then q.offset else 0) l =
        (Loop.rounds (q.sgRound dmaPages) l.length i left).1.map sgEntry := by
    intro dmaPages i left l
    induction l generalizing i left with
    | nil => intro _; rfl
    | cons addr l ih =>
        intro hl
        have hfirst : dmaPages i = addr := hl 0 (Nat.succ_pos _)
        obtain ⟨hentry, hleft⟩ := sgEntry_sgRound q dmaPages i left
        have hrest := ih (i + 1) (q.sgRound dmaPages i left).2 fun k hk => by
          have := hl (k + 1) (Nat.succ_lt_succ hk)
          rwa [← Nat.add_assoc, Nat.add_right_comm] at this
        rw [List.length_cons, Loop.rounds_succ, List.map_cons, hentry, ← hrest, hleft, hfirst]
        rfl
  rw [buildSg, ← haddrs]
  exact hrounds _ 0 q.size addrs fun k hk => by
    simp [hk]

end MtdmaRw

end MtEmu
