import MtEmu.Bare.Chain
import MtEmu.Engine.Start

/-!
# MtEmu.Engine.Chunk

What the hardware finds after `mtdma_v0_core_write_chunk` (`mt-emu-mtdma-core.c`).

The first burst goes to the channel registers, burst `k` to slot `k - 1` of the list
window, each with a link to the next slot and the chain bit; behind the loop the last
one gets the interrupt bit instead.  Together this stores `chunkEntries`
(`writes_writeBursts`), which are linked and apart, and hardware that follows links while
it reads the chain bit visits what is linked (`chainWalk_of_linked`).
-/

namespace MtEmu

/-! ## the hardware -/

/-- The chain bit of a descriptor. -/
def DmaChDesc.chainEn (d : DmaChDesc) : Bool := d.descOp &&& descBitChainEn ≠ 0

/-- The interrupt bit of a descriptor. -/
def DmaChDesc.intrEn (d : DmaChDesc) : Bool := d.descOp &&& descBitIntrEn ≠ 0

/-- What a descriptor moves: source, destination and `cnt + 1`. -/
def DmaChDesc.moves (d : DmaChDesc) : U64 × U64 × Nat := (d.sar, d.dar, d.cnt.toNat + 1)

/-- What a burst asks for. -/
def MtdmaBurst.moves (b : MtdmaBurst) : U64 × U64 × Nat := (b.sar, b.dar, b.sz.toNat)

/-- The descriptors visited from `d` on, along `lar` while the chain bit is set;
`none` when there are more links than `fuel`. -/
def ChanMem.chainWalk (m : ChanMem) : Nat → DmaChDesc → Option (List DmaChDesc)
  | 0, d => if d.chainEn then none else some [d]
  | n + 1, d =>
      if d.chainEn then (m.chainWalk n (m.descAt d.lar)).map (d :: ·) else some [d]

/-- Linked entries that have the chain bit, all but the last one, are visited. -/
theorem chainWalk_of_linked {base : U64} {m : ChanMem} {e : Entry} {es : List Entry} {fuel : Nat}
    (hfuel : es.length ≤ fuel) (hlink : (e :: es).IsChain (Follows base))
    (hheld : ∀ e' ∈ es, Holds base m e')
    (hchain : (e :: es).map (fun en => en.2.chainEn) = List.replicate es.length true ++ [false]) :
    m.chainWalk fuel e.2 = some ((e :: es).map Prod.snd) := by
  induction es generalizing e fuel with
  | nil =>
      have hlast : e.2.chainEn = false := by simpa using hchain
      cases fuel <;> simp [ChanMem.chainWalk, hlast]
  | cons e' es ih =>
      obtain ⟨fuel, rfl⟩ := Nat.exists_eq_succ_of_ne_zero (n := fuel)
        (by rw [List.length_cons] at hfuel; omega)
      obtain ⟨hfst, hrest⟩ := List.isChain_cons_cons.mp hlink
      rw [List.map_cons, List.length_cons, List.replicate_succ, List.cons_append,
        List.cons.injEq] at hchain
      have hnext : m.descAt e.2.lar = e'.2 := descAt_of_follows hfst (hheld e' List.mem_cons_self)
      rw [ChanMem.chainWalk, if_pos hchain.1, hnext,
        ih (Nat.le_of_succ_le_succ hfuel) hrest
          (fun t ht => hheld t (List.mem_cons_of_mem e' ht)) hchain.2]
      rfl

/-- The hardware, started on the registers, runs the bursts: it visits one descriptor for
each, in order, and stops on the only one with the interrupt bit. -/
def ChanMem.Runs (m : ChanMem) (bursts : List MtdmaBurst) : Prop :=
  ∀ fuel, bursts.length ≤ fuel → ∃ ds, m.chainWalk fuel m.regDesc = some ds ∧
    ds.map DmaChDesc.moves = bursts.map MtdmaBurst.moves ∧
    ds.map DmaChDesc.intrEn = List.replicate (bursts.length - 1) false ++ [true]

/-! ## the entries of a chunk -/

section Entries

variable (info : MtdmaChanInfo)

/-- The control word of burst `k` of `n`, after the last write. -/
def burstOp (n k : Nat) : U32 := if k + 1 = n then descBitIntrEn else descBitChainEn

/-- The descriptors of bursts `i`, `i + 1`, ... and where they are stored. -/
def chunkEntries (info : MtdmaChanInfo) (bursts : List MtdmaBurst) (i : U32) : List Entry :=
  bursts.mapIdx fun k child =>
    (burstLli (i + BitVec.ofNat 32 k),
      { burstDesc info (i + BitVec.ofNat 32 k) child with descOp := burstOp bursts.length k })

@[simp] theorem length_chunkEntries (bursts : List MtdmaBurst) (i : U32) :
    (chunkEntries info bursts i).length = bursts.length :=
  List.length_mapIdx

theorem chunkEntries_cons {child : MtdmaBurst} {bursts : List MtdmaBurst} (h : bursts ≠ [])
    (i : U32) : chunkEntries info (child :: bursts) i =
      (burstLli i, burstDesc info i child) :: chunkEntries info bursts (i + 1) := by
  have hlen : bursts.length ≠ 0 := fun h0 => h (List.length_eq_zero_iff.mp h0)
  rw [chunkEntries, List.mapIdx_cons]
  congr 1
  · rw [burstOp, if_neg (by rw [List.length_cons]; omega),
      show i + BitVec.ofNat 32 0 = i from add_zero i]
    rfl
  · rw [chunkEntries]
    congr 1
    funext k b
    have hidx : i + BitVec.ofNat 32 (k + 1) = i + 1 + BitVec.ofNat 32 k := by
      rw [ofNat_succ, add_assoc, add_comm 1]
    simp only [hidx, burstOp, List.length_cons, Nat.add_right_cancel_iff]

/-- The control word of a stored descriptor is overwritten. -/
theorem writes_setDesc_descOp (base : U64) (m : ChanMem) (lli : Lli) (d : DmaChDesc) (v : U32) :
    m.writes base (setDesc lli d ++ [.setLL lli .descOp v]) =
      m.writes base (setDesc lli { d with descOp := v }) := by
  have hword : Function.update d.word .descOp v = { d with descOp := v : DmaChDesc }.word := by
    funext w
    cases w <;> rfl
  rw [ChanMem.writes_append]
  cases lli with
  | other a => rfl
  | regs => simp [writes_setDesc_regs, ChanMem.write, hword]
  | slot idx => simp [writes_setDesc_slot, ChanMem.write, hword]

/-- The loop and the write behind it store the entries. -/
theorem writes_writeBursts (base : U64) (m : ChanMem) {bursts : List MtdmaBurst}
    (h : bursts ≠ []) (i : U32) (lli : Lli) :
    m.writes base (writeBursts info bursts i lli) =
      m.writes base (storeAll (chunkEntries info bursts i)) := by
  induction bursts generalizing m i lli with
  | nil => exact absurd rfl h
  | cons child bursts ih =>
      rw [writeBursts]
      cases bursts with
      | nil =>
          have hone : chunkEntries info [child] i =
              [(burstLli i, { burstDesc info i child with descOp := descBitIntrEn })] := by
            simp [chunkEntries, burstOp]
          rw [writeBursts, writes_setDesc_descOp, hone, storeAll, List.flatMap_singleton]
      | cons next bursts =>
          rw [chunkEntries_cons info (List.cons_ne_nil _ _), ChanMem.writes_append,
            ih _ (List.cons_ne_nil _ _), ← ChanMem.writes_append]
          rfl

/-- Burst `k` of a chunk is stored in place `k`. -/
theorem burstLli_ofNat {k : Nat} (hk : k < 2 ^ 32) : burstLli (BitVec.ofNat 32 k) = firstPlace k := by
  cases k with
  | zero => rfl
  | succ k =>
      have hne : BitVec.ofNat 32 (k + 1) ≠ 0 := ofNat_ne_zero (Nat.succ_pos k) hk
      have hpred : BitVec.ofNat 32 (k + 1) - 1 = BitVec.ofNat 32 k := by
        rw [ofNat_succ]
        exact add_sub_cancel_right _ _
      rw [burstLli, if_neg hne, hpred, firstPlace, BitVec.setWidth_ofNat_of_le_of_lt (by omega)
        (by omega)]

/-- Entry `k` of a chunk: where it is, what it links to and what it moves. -/
theorem getElem?_chunkEntries {bursts : List MtdmaBurst} (hlen : bursts.length < 2 ^ 32) {k : Nat}
    {en : Entry} (h : (chunkEntries info bursts 0)[k]? = some en) :
    ∃ child, bursts[k]? = some child ∧ en.1 = firstPlace k ∧
      en.2 = { descOp := burstOp bursts.length k, cnt := child.sz - 1, sar := child.sar
               dar := child.dar, lar := slotAddr info.llLaddr (BitVec.ofNat 64 k) } := by
  rw [chunkEntries, List.getElem?_mapIdx, Option.map_eq_some_iff] at h
  obtain ⟨child, hchild, rfl⟩ := h
  have hk : k < 2 ^ 32 := (List.getElem?_eq_some_iff.mp hchild).1.trans hlen
  have hwide : (BitVec.ofNat 32 k).setWidth 64 = BitVec.ofNat 64 k :=
    BitVec.setWidth_ofNat_of_le_of_lt (by omega) hk
  have hidx : (0 : U32) + BitVec.ofNat 32 k = BitVec.ofNat 32 k := zero_add _
  refine ⟨child, hchild, ?_, ?_⟩
  · rw [hidx, burstLli_ofNat hk]
  · rw [hidx, burstDesc, hwide, slotAddr]

variable {bursts : List MtdmaBurst}

theorem chunkEntries_linked (hlen : bursts.length < 2 ^ 32) :
    (chunkEntries info bursts 0).IsChain (Follows info.llLaddr) :=
  linked_of_places fun k en hk => by
    obtain ⟨child, -, hplace, hdesc⟩ := getElem?_chunkEntries info hlen hk
    exact ⟨hplace, by rw [hdesc]⟩

theorem chunkEntries_apart (hlen : bursts.length < 2 ^ 32) :
    (chunkEntries info bursts 0).Pairwise (Apart info.llLaddr) := by
  refine apart_of_places (fun k en hk => ?_) (by rw [length_chunkEntries]; omega)
  obtain ⟨child, -, hplace, -⟩ := getElem?_chunkEntries info hlen hk
  exact hplace

theorem chunkEntries_place (hlen : bursts.length < 2 ^ 32) :
    ∀ en ∈ chunkEntries info bursts 0, ∀ a, en.1 ≠ .other a := by
  intro en hen a
  obtain ⟨k, hk⟩ := List.mem_iff_getElem?.mp hen
  obtain ⟨child, -, hplace, -⟩ := getElem?_chunkEntries info hlen hk
  rw [hplace]
  cases k <;> simp [firstPlace]

/-- What the entries move is what the bursts ask for. -/
theorem chunkEntries_moves (hlen : bursts.length < 2 ^ 32) (hsz : ∀ b ∈ bursts, b.sz ≠ 0) :
    (chunkEntries info bursts 0).map (fun en => en.2.moves) = bursts.map MtdmaBurst.moves := by
  refine List.ext_getElem? fun k => ?_
  rw [List.getElem?_map, List.getElem?_map]
  cases hen : (chunkEntries info bursts 0)[k]? with
  | none =>
      rw [List.getElem?_eq_none_iff, length_chunkEntries] at hen
      rw [List.getElem?_eq_none_iff.mpr hen]
      rfl
  | some en =>
      obtain ⟨child, hchild, -, hdesc⟩ := getElem?_chunkEntries info hlen hen
      have hne := hsz child (List.mem_of_getElem? hchild)
      have hpos : 0 < child.sz.toNat :=
        BitVec.toNat_pos_of_ne_zero hne
      have hcnt : (child.sz - 1).toNat + 1 = child.sz.toNat := by
        rw [toNat_sub_one hne]
        omega
      rw [hchild, Option.map_some, Option.map_some, hdesc, DmaChDesc.moves, MtdmaBurst.moves, hcnt]

/-- A bit that all control words but the last have, or only the last. -/
theorem chunkEntries_bit (hlen : bursts.length < 2 ^ 32) (hne : bursts ≠ []) (p : U32 → Bool)
    (more last : Bool) (hmore : p descBitChainEn = more) (hlast : p descBitIntrEn = last) :
    (chunkEntries info bursts 0).map (fun en => p en.2.descOp) =
      List.replicate (bursts.length - 1) more ++ [last] := by
  have hpos := List.length_pos_iff.mpr hne
  refine List.ext_getElem? fun k => ?_
  rw [List.getElem?_map]
  cases hen : (chunkEntries info bursts 0)[k]? with
  | none =>
      rw [List.getElem?_eq_none_iff, length_chunkEntries] at hen
      rw [Option.map_none, eq_comm, List.getElem?_eq_none_iff]
      simp
      omega
  | some en =>
      obtain ⟨child, hchild, -, hdesc⟩ := getElem?_chunkEntries info hlen hen
      have hk := (List.getElem?_eq_some_iff.mp hchild).1
      rw [Option.map_some, hdesc, burstOp]
      by_cases hl : k + 1 = bursts.length
      · rw [if_pos hl, hlast, List.getElem?_append_right (by simp; omega)]
        simp [show k - (bursts.length - 1) = 0 by omega]
      · rw [if_neg hl, hmore, List.getElem?_append_left (by simp; omega),
          List.getElem?_replicate_of_lt (by omega)]

/-- The writes reach no slot at `n` or above, if there are at most `n + 1` bursts. -/
theorem slots_writeBursts {n : Nat} (hn : n < 2 ^ 32) (hpos : 0 < n) {i : Nat} {lli : Lli}
    (hlen : i + bursts.length ≤ n + 1) (hlli : bursts = [] → ∀ idx, lli = .slot idx → idx.toNat < n) :
    ∀ a ∈ writeBursts info bursts (BitVec.ofNat 32 i) lli,
      ∀ idx w v, a = .setLL (.slot idx) w v → idx.toNat < n := by
  induction bursts generalizing i lli with
  | nil =>
      intro a ha idx w v heq
      rw [List.mem_singleton.mp ha] at heq
      exact hlli rfl idx (Access.setLL.inj heq).1
  | cons child bursts ih =>
      rw [List.length_cons] at hlen
      have hplace : ∀ idx, burstLli (BitVec.ofNat 32 i) = .slot idx → idx.toNat < n := by
        intro idx heq
        rw [burstLli_ofNat (by omega)] at heq
        cases i with
        | zero => exact absurd heq (by simp [firstPlace])
        | succ k =>
            obtain rfl := Lli.slot.inj heq
            rw [BitVec.toNat_ofNat]
            omega
      intro a ha idx w v heq
      rw [writeBursts, ← ofNat_succ] at ha
      cases List.mem_append.mp ha with
      | inl ha =>
          obtain ⟨w', -, rfl⟩ := List.mem_map.mp ha
          exact hplace idx (Access.setLL.inj heq).1
      | inr ha => exact ih (by omega) (fun _ => hplace) a ha idx w v heq

end Entries

/-! ## the chunk as the hardware runs it -/

/-- **Chunks**: after a chunk of at most `ll_max` bursts, none of them empty, has been
written, the hardware runs exactly its bursts, and only slots of the window were used. -/
theorem writeChunk_runs (info : MtdmaChanInfo) (chunk : MtdmaChunk) (lli : Lli) (m : ChanMem)
    (hne : chunk.bursts ≠ []) (hmax : chunk.bursts.length ≤ info.llMax.toNat)
    (hsz : ∀ child ∈ chunk.bursts, child.sz ≠ 0) :
    (m.writes info.llLaddr (mtdmaV0CoreWriteChunk info chunk lli)).Runs chunk.bursts ∧
      ∀ idx w v, .setLL (.slot idx) w v ∈ mtdmaV0CoreWriteChunk info chunk lli →
        idx.toNat < info.llMax.toNat := by
  have hlen : chunk.bursts.length < 2 ^ 32 := hmax.trans_lt info.llMax.isLt
  have hpos := List.length_pos_iff.mpr hne
  constructor
  · rw [mtdmaV0CoreWriteChunk, writes_writeBursts info _ _ hne]
    have hheld := holds_storeAll (m := m) (chunkEntries_apart info hlen)
      (chunkEntries_place info hlen)
    have hlink := chunkEntries_linked info hlen
    have hmoves := chunkEntries_moves info hlen hsz
    have hchain := chunkEntries_bit info hlen hne
      (fun op => op &&& descBitChainEn ≠ 0) true false rfl rfl
    have hintr := chunkEntries_bit info hlen hne
      (fun op => op &&& descBitIntrEn ≠ 0) false true rfl rfl
    have hfst := fun en => @getElem?_chunkEntries info _ hlen 0 en
    have hcount := length_chunkEntries info chunk.bursts 0
    generalize chunkEntries info chunk.bursts 0 = es at *
    intro fuel hfuel
    cases es with
    | nil => rw [List.length_nil] at hcount; omega
    | cons e es =>
        obtain ⟨-, -, hregs, -⟩ := hfst e rfl
        have hreg : (m.writes info.llLaddr (storeAll (e :: es))).regDesc = e.2 := by
          have := hheld e List.mem_cons_self
          unfold Holds at this
          simpa only [hregs, firstPlace] using this
        rw [List.length_cons] at hcount
        have hwalk : (m.writes info.llLaddr (storeAll (e :: es))).chainWalk fuel e.2 =
            some ((e :: es).map Prod.snd) :=
          chainWalk_of_linked (by omega) hlink
            (fun e' he' => hheld e' (List.mem_cons_of_mem e he'))
            (by rw [show es.length = chunk.bursts.length - 1 by omega]; exact hchain)
        refine ⟨_, by rw [hreg]; exact hwalk, ?_, ?_⟩
        · rw [List.map_map]
          exact hmoves
        · rw [List.map_map]
          exact hintr
  · intro idx w v hmem
    exact slots_writeBursts info info.llMax.isLt (by omega) (i := 0) (by omega)
      (fun h => absurd h hne) _ hmem idx w v rfl

/-- A window of three slots. -/
def threeSlots : MtdmaChanInfo := { (default : MtdmaChanInfo) with llMax := 3 }

/-- A chunk that fills it. -/
def threeBursts : MtdmaChunk := ⟨[⟨1, 2, 64⟩, ⟨3, 4, 1⟩, ⟨5, 6, 0xffffffff⟩], 64⟩

theorem writeChunk_runs_threeBursts :
    (ChanMem.writes threeSlots.llLaddr default
      (mtdmaV0CoreWriteChunk threeSlots threeBursts (.other 0))).Runs threeBursts.bursts ∧
    ∀ idx w v, .setLL (.slot idx) w v ∈ mtdmaV0CoreWriteChunk threeSlots threeBursts (.other 0) →
      idx.toNat < threeSlots.llMax.toNat :=
  writeChunk_runs threeSlots threeBursts (.other 0) default (List.cons_ne_nil _ _) (by decide)
    (by decide)

end MtEmu
