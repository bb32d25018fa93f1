import MtEmu.Vmem.Heap

/-!
# MtEmu.Vmem.Runs

Runs of the video memory allocator, and what its clients see of them.

A run is a sequence of calls of `vmem_alloc` and `vmem_free` in any order, with any arguments.
The blocks a client holds follow from the calls and their answers alone (`vmemLive`): what was
handed out and not freed at its own address.  The allocator itself tells addresses by their low
32 bits, which is what `MAKE_KEY` leaves of them, so the blocks it keeps (`vmemKept`) are fewer
once a client frees an alias of a block: another address with the same low bits.  What it does
with its trees and its page list is the best fit between the blocks it keeps (`BestFit`), and its
answers depend on them only.  Without aliases (`NoAliases`) these are the blocks that are held.
-/

namespace MtEmu

open Tiling

/-! ## calls and answers -/

/-- A call of the allocator. -/
inductive VmemCall where
  | alloc (size : U32)
  | free (ptr : U64)
  deriving DecidableEq

/-- A call and its answer.  This is all that a client sees of the allocator, and what is wanted
of a run is said of its events alone. -/
inductive VmemEvent where
  | alloc (size : U32) (ptr : U64)
  | free (ptr : U64) (ret : Int)
  deriving DecidableEq

/-- One call.  `none` is an `ASSERT` of the source that does not hold; no run comes to one
(`vmem_run_conforms`). -/
def vmemCall (mm : VideoMm) : VmemCall → Option (VmemEvent × VideoMm)
  | .alloc size => (vmemAlloc mm size).map fun (ptr, mm) => (.alloc size ptr, mm)
  | .free ptr => (vmemFree mm ptr).map fun (ret, mm) => (.free ptr ret, mm)

/-- Calls in a row. -/
def vmemRun : List VmemCall → VideoMm → Option (List VmemEvent × VideoMm)
  | [], mm => some ([], mm)
  | call :: calls, mm => do
      let (event, mm) ← vmemCall mm call
      let (events, mm) ← vmemRun calls mm
      return (event :: events, mm)

/-- The low 32 bits of two addresses agree: this is all that the key of a block says of its
address. -/
def SameLow (a b : U64) : Prop := a.toNat % 2 ^ 32 = b.toNat % 2 ^ 32

instance (a b : U64) : Decidable (SameLow a b) := inferInstanceAs (Decidable (_ = _))

/-- The blocks after a call, address and size: `same` says which blocks a freed address
stands for.  With equality these are the blocks that a client holds, and with `SameLow` those
that the allocator keeps.  A call that fails changes neither. -/
def heldAfter (same : U64 → U64 → Prop) [DecidableRel same] (held : List (U64 × U32)) :
    VmemEvent → List (U64 × U32)
  | .alloc size ptr => if ptr = vmemFail then held else (ptr, size) :: held
  | .free ptr ret => if ret = 0 then held.filter fun b => ¬same b.1 ptr else held

/-- The blocks that are held after calls: handed out and not freed at their own address.  The
size is the one asked for, not that of the pages it takes. -/
def vmemLive (events : List VmemEvent) : List (U64 × U32) := events.foldl (heldAfter (· = ·)) []

/-- The blocks that the allocator keeps: an address frees what has its low 32 bits. -/
def vmemKept (events : List VmemEvent) : List (U64 × U32) := events.foldl (heldAfter SameLow) []

/-- The page of an address. -/
def pageIndex (base ptr : U64) : Nat := (ptr - base).toNat / vmemPageSize

/-- A page is in a block that a client holds: from the page of the block's address on, as many
pages as its size takes. -/
def Taken (base : U64) (live : List (U64 × U32)) (i : Nat) : Prop :=
  ∃ b ∈ live, pageIndex base b.1 ≤ i ∧ i < pageIndex base b.1 + pagesFor b.2

/-- `n` pages in a row, as far as they go, that no client holds. -/
def Vacant (base : U64) (numPages : Nat) (live : List (U64 × U32)) (v n : Nat) : Prop :=
  Gap (fun i => ¬Taken base live i) 0 numPages v n

/-- **Best fit**: the first one of the smallest gaps that have `n` pages.  A gap is as long as it
can be (`Gap`), so that no two gaps touch. -/
def BestFit (base : U64) (numPages : Nat) (live : List (U64 × U32)) (n v : Nat) : Prop :=
  ∃ m, Vacant base numPages live v m ∧ n ≤ m ∧
    ∀ w k, Vacant base numPages live w k → n ≤ k → m < k ∨ m = k ∧ v ≤ w

/-- What a call answers, by the blocks there are and the ones that an address stands for.  An
allocation fails for no bytes, for a size that is negative as an `int`, and for more pages than
any gap has; a free fails for an address that stands for no block. -/
def Answers (same : U64 → U64 → Prop) (base : U64) (numPages : Nat) (held : List (U64 × U32)) :
    VmemEvent → Prop
  | .alloc size ptr =>
      if size.toInt ≤ 0 then ptr = vmemFail
      else ptr = vmemFail ∧ (∀ v n, Vacant base numPages held v n → n < pagesFor size) ∨
        ∃ v, BestFit base numPages held (pagesFor size) v ∧ ptr = pageAddr base v
  | .free ptr ret =>
      ret = -1 ∧ (∀ b ∈ held, ¬same b.1 ptr) ∨ ret = 0 ∧ ∃ b ∈ held, same b.1 ptr

/-- Every call of a run answers so. -/
def AnswersAll (same : U64 → U64 → Prop) [DecidableRel same] (base : U64) (numPages : Nat) :
    List (U64 × U32) → List VmemEvent → Prop
  | _, [] => True
  | held, event :: events =>
      Answers same base numPages held event ∧
        AnswersAll same base numPages (heldAfter same held event) events

/-- Every call answers as it should: by the blocks that are held, each of which is freed at its
own address only. -/
def ConformsAll (base : U64) (numPages : Nat) (events : List VmemEvent) : Prop :=
  AnswersAll (· = ·) base numPages [] events

/-- A call frees no alias of a block that is held: no address but the block's own that has the
same low 32 bits.  Any other address that is no block's may be freed, and the call fails. -/
def NoAlias (live : List (U64 × U32)) : VmemEvent → Prop
  | .alloc _ _ => True
  | .free ptr _ => ∀ b ∈ live, SameLow b.1 ptr → b.1 = ptr

/-- No call of a run does, from the blocks that are held at its start. -/
def NoAliasesFrom : List (U64 × U32) → List VmemEvent → Prop
  | _, [] => True
  | live, event :: events =>
      NoAlias live event ∧ NoAliasesFrom (heldAfter (· = ·) live event) events

/-- No call of a run from the start does. -/
def NoAliases (events : List VmemEvent) : Prop := NoAliasesFrom [] events

instance decidableNoAlias (live : List (U64 × U32)) : (event : VmemEvent) →
    Decidable (NoAlias live event)
  | .alloc _ _ => inferInstanceAs (Decidable True)
  -- not over all blocks there could be, which are finite as well
  | .free ptr _ => List.decidableBAll (fun b : U64 × U32 => SameLow b.1 ptr → b.1 = ptr) live

instance decidableNoAliasesFrom : (live : List (U64 × U32)) → (events : List VmemEvent) →
    Decidable (NoAliasesFrom live events)
  | _, [] => inferInstanceAs (Decidable True)
  | live, event :: events =>
      @instDecidableAnd _ _ (decidableNoAlias live event)
        (decidableNoAliasesFrom (heldAfter (· = ·) live event) events)

instance (events : List VmemEvent) : Decidable (NoAliases events) :=
  decidableNoAliasesFrom [] events

/-! ## the blocks of the arena -/

/-- A block of the arena is held: its address and its pages. -/
def HeldAt (held : List (U64 × U32)) (ptr : U64) (n : Nat) : Prop :=
  ∃ size, (ptr, size) ∈ held ∧ pagesFor size = n

/-- What the allocator stands for, and the blocks that it keeps: the allocated blocks of the
arena are those in `held`, each once, at the addresses of their pages. -/
structure VmemOwns (mm : VideoMm) (bs : List (Block Bool)) (held : List (U64 × U32)) : Prop where
  rep : VmemRep mm bs
  nodup : (held.map Prod.fst).Nodup
  holds : ∀ ptr n, HeldAt held ptr n ↔ ∃ v, At 0 bs v ⟨n, true⟩ ∧ ptr = pageAddr mm.baseAddr v
  count : (held.map fun b => pagesFor b.2).sum = pagesOf true bs

section Blocks

variable {pre post bs : List (Block Bool)} {k k' m n v j : Nat} {base : U64}

theorem pageAddr_inj (hv : v < 2 ^ 18) (hn : n < 2 ^ 18) (h : pageAddr base v = pageAddr base n) :
    v = n :=
  (pageAddr_low_inj hv hn).mp (by rw [h])

theorem pageAddr_sub (hv : v < 2 ^ 18) : (pageAddr base v - base).toNat = v * vmemPageSize := by
  rw [pageAddr, BitVec.add_comm, BitVec.add_sub_cancel, BitVec.toNat_ofNat, vmemPageSize]
  omega

theorem pageIndex_pageAddr (hv : v < 2 ^ 18) : pageIndex base (pageAddr base v) = v := by
  rw [pageIndex, pageAddr_sub hv, Nat.mul_div_cancel _ (by decide)]

theorem pageAddr_aligned (h : base.toNat % vmemPageSize = 0) :
    (pageAddr base v).toNat % vmemPageSize = 0 := by
  rw [pageAddr, BitVec.toNat_add, BitVec.toNat_ofNat]
  rw [vmemPageSize] at h ⊢
  omega

/-- A page has an address that is not the one of a failure. -/
theorem pageAddr_ne_fail (h : base.toNat % vmemPageSize = 0) : pageAddr base v ≠ vmemFail := by
  intro heq
  have hnat := pageAddr_aligned (v := v) h
  rw [heq] at hnat
  exact absurd hnat (by decide)

@[simp] theorem not_at_restOf_true (p : Nat) : ¬At p (restOf k) v ⟨n, true⟩ :=
  fun h => not_usedAt_restOf p k v ⟨n, h⟩

/-- The allocated blocks when a free one is cut. -/
theorem at_cut (hle : n ≤ m) :
    At 0 (pre ++ ⟨n, true⟩ :: (restOf (m - n) ++ post)) v ⟨j, true⟩ ↔
      (v = total pre ∧ j = n) ∨ At 0 (pre ++ ⟨m, false⟩ :: post) v ⟨j, true⟩ := by
  have hend : total pre + n + (m - n) = total pre + m := by omega
  simp only [at_append, at_cons, total_restOf, Nat.zero_add, hend, not_at_restOf_true,
    Block.mk.injEq, and_true, Bool.true_eq_false, and_false, false_or]
  exact or_left_comm

/-- The allocated blocks when one of them is freed. -/
theorem at_freed (hs : Solid (pre ++ (restOf k ++ ⟨n, true⟩ :: (restOf k' ++ post)))) :
    At 0 (pre ++ ⟨n + k + k', false⟩ :: post) v ⟨j, true⟩ ↔
      At 0 (pre ++ (restOf k ++ ⟨n, true⟩ :: (restOf k' ++ post))) v ⟨j, true⟩ ∧
        v ≠ total pre + k := by
  obtain ⟨hpre, hn, hpost⟩ : Solid pre ∧ 0 < n ∧ Solid post := by simpa using hs
  have hend : total pre + (n + k + k') = total pre + k + n + k' := by omega
  simp only [at_append, at_cons, total_restOf, Nat.zero_add, hend, not_at_restOf_true,
    Block.mk.injEq, and_true, Bool.true_eq_false, and_false, false_or]
  constructor
  · rintro (h | h)
    · have hbound := h.bounds.2
      have hpos := hpre _ h.mem
      simp only at hbound hpos
      exact ⟨.inl h, by omega⟩
    · have hbound := h.bounds.1
      exact ⟨.inr (.inr h), by omega⟩
  · rintro ⟨h | ⟨rfl, -⟩ | h, hne⟩
    · exact .inl h
    · exact absurd rfl hne
    · exact .inr h

end Blocks

namespace VmemOwns

variable {mm : VideoMm} {bs : List (Block Bool)} {held : List (U64 × U32)}

/-- An allocated block lies in the arena. -/
theorem at_bounds (h : VmemOwns mm bs held) {v n : Nat} {tag : Bool} (hat : At 0 bs v ⟨n, tag⟩) :
    0 < n ∧ v + n ≤ mm.numPages ∧ v < 2 ^ 18 := by
  have hpos := h.rep.solid _ hat.mem
  have hbound := hat.bounds.2
  have hsmall := h.rep.bound
  rw [Nat.zero_add, h.rep.pages] at hbound
  simp only at hpos hbound
  omega

/-- The pages that are held are those of the allocated blocks. -/
theorem taken_iff (h : VmemOwns mm bs held) {i : Nat} :
    Taken mm.baseAddr held i ↔ Tagged true 0 bs i := by
  constructor
  · rintro ⟨⟨ptr, size⟩, hmem, hle, hlt⟩
    obtain ⟨v, hat, rfl⟩ := (h.holds ptr _).mp ⟨size, hmem, rfl⟩
    rw [pageIndex_pageAddr (h.at_bounds hat).2.2] at hle hlt
    exact ⟨v, _, hat, rfl, hle, hlt⟩
  · rintro ⟨v, ⟨n, tag⟩, hat, rfl, hle, hlt⟩
    obtain ⟨size, hmem, hsize⟩ := (h.holds _ n).mpr ⟨v, hat, rfl⟩
    refine ⟨_, hmem, ?_, ?_⟩
    · rwa [pageIndex_pageAddr (h.at_bounds hat).2.2]
    · rwa [pageIndex_pageAddr (h.at_bounds hat).2.2, hsize]

theorem not_taken_iff (h : VmemOwns mm bs held) {i : Nat} (hi : i < mm.numPages) :
    ¬Taken mm.baseAddr held i ↔ Tagged false 0 bs i := by
  rw [h.taken_iff]
  obtain ⟨v, ⟨n, tag⟩, hat, hle, hlt⟩ := exists_at (Nat.zero_le i)
    (show i < 0 + total bs by rw [Nat.zero_add, h.rep.pages]; exact hi)
  constructor
  · intro hnot
    cases tag with
    | true => exact absurd ⟨v, _, hat, rfl, hle, hlt⟩ hnot
    | false => exact ⟨v, _, hat, rfl, hle, hlt⟩
  · intro hfree htrue
    cases hfree.eq h.rep.solid htrue

/-- The free blocks are the gaps. -/
theorem vacant_iff (h : VmemOwns mm bs held) {v n : Nat} :
    Vacant mm.baseAddr mm.numPages held v n ↔ FreeAt 0 bs (n, v) := by
  have hpages := h.rep.pages
  rw [FreeAt, at_free_iff h.rep.solid h.rep.coalesced, Nat.zero_add, hpages]
  constructor
  · exact fun hgap => hgap.congr fun i _ hi => h.not_taken_iff hi
  · exact fun hgap => hgap.congr fun i _ hi => (h.not_taken_iff hi).symm

/-- **Allocation** is best fit. -/
theorem alloc (h : VmemOwns mm bs held) (size : U32) :
    ∃ ptr mm' bs', vmemAlloc mm size = some (ptr, mm') ∧
      Answers SameLow mm.baseAddr mm.numPages held (.alloc size ptr) ∧
      VmemOwns mm' bs' (heldAfter SameLow held (.alloc size ptr)) ∧
      mm'.baseAddr = mm.baseAddr ∧ mm'.numPages = mm.numPages := by
  by_cases hsize : size.toInt ≤ 0
  · refine ⟨vmemFail, mm, bs, if_pos hsize, ?_, ?_, rfl, rfl⟩
    · rw [Answers, if_pos hsize]
    · rwa [heldAfter, if_pos rfl]
  · obtain ⟨hnone, hrun⟩ | ⟨pre, m, post, mm', rfl, hle, hleast, hrun, hbase, hnum, hrep⟩ :=
      h.rep.vmemAlloc_spec (Int.not_le.mp hsize)
    · refine ⟨vmemFail, mm, bs, hrun, ?_, ?_, rfl, rfl⟩
      · rw [Answers, if_neg hsize]
        exact .inl ⟨rfl, fun v n hgap => hnone (n, v) (h.vacant_iff.mp hgap)⟩
      · rwa [heldAfter, if_pos rfl]
    · have hat : At 0 (pre ++ ⟨m, false⟩ :: post) (total pre) ⟨m, false⟩ := by simp
      obtain ⟨-, -, hsmall⟩ := h.at_bounds hat
      refine ⟨_, mm', pre ++ ⟨pagesFor size, true⟩ :: (restOf (m - pagesFor size) ++ post), hrun,
        ?_, ?_, hbase, hnum⟩
      · rw [Answers, if_neg hsize]
        refine .inr ⟨total pre, ⟨m, h.vacant_iff.mpr hat, hle, fun w k hgap hk => ?_⟩, rfl⟩
        exact hleast (k, w) (h.vacant_iff.mp hgap) hk
      · rw [heldAfter, if_neg (pageAddr_ne_fail h.rep.aligned)]
        refine ⟨hrep, ?_, fun ptr n => ?_, ?_⟩
        · -- the pages were free, so that no block is held at their address
          rw [List.map_cons, List.nodup_cons]
          refine ⟨fun hmem => ?_, h.nodup⟩
          obtain ⟨⟨ptr, size'⟩, hmem, hptr⟩ := List.mem_map.mp hmem
          obtain ⟨v, hat', rfl⟩ := (h.holds ptr _).mp ⟨size', hmem, rfl⟩
          obtain rfl := pageAddr_inj (h.at_bounds hat').2.2 hsmall hptr
          cases hat.unique h.rep.solid hat'
        · simp only [at_cut hle, hbase]
          constructor
          · rintro ⟨size', hmem, rfl⟩
            rcases List.mem_cons.mp hmem with heq | hmem
            · obtain ⟨rfl, rfl⟩ := Prod.mk.inj heq
              exact ⟨_, .inl ⟨rfl, rfl⟩, rfl⟩
            · obtain ⟨v, hat', hptr⟩ := (h.holds ptr _).mp ⟨size', hmem, rfl⟩
              exact ⟨v, .inr hat', hptr⟩
          · rintro ⟨v, ⟨rfl, rfl⟩ | hat', rfl⟩
            · exact ⟨size, List.mem_cons_self, rfl⟩
            · obtain ⟨size', hmem, hn⟩ := (h.holds _ n).mpr ⟨v, hat', rfl⟩
              exact ⟨size', List.mem_cons_of_mem _ hmem, hn⟩
        · have hcount := h.count
          simp only [List.map_cons, List.sum_cons, pagesOf_append, pagesOf_cons, pagesOf_restOf,
            Bool.false_eq_true, Bool.true_eq_false, if_false, if_true] at hcount ⊢
          omega

end VmemOwns

/-- A block is taken out of a list. -/
theorem sum_filter_ne {g : U64 × U32 → Nat} {ptr : U64} {size : U32} {held : List (U64 × U32)}
    (hnodup : (held.map Prod.fst).Nodup) (hmem : (ptr, size) ∈ held) :
    ((held.filter fun b => b.1 ≠ ptr).map g).sum + g (ptr, size) = (held.map g).sum := by
  induction held with
  | nil => cases hmem
  | cons b held ih =>
      rw [List.map_cons, List.nodup_cons] at hnodup
      rcases List.mem_cons.mp hmem with rfl | hmem
      · have hrest : held.filter (fun b => b.1 ≠ ptr) = held :=
          List.filter_eq_self.mpr fun b hb => by
            simpa using fun heq => hnodup.1 (List.mem_map.mpr ⟨b, hb, heq⟩)
        rw [List.filter_cons_of_neg (by simp), hrest, List.map_cons, List.sum_cons, Nat.add_comm]
      · have hne : b.1 ≠ ptr := fun heq => hnodup.1 (List.mem_map.mpr ⟨_, hmem, heq.symm⟩)
        rw [List.filter_cons_of_pos (by simpa using hne), List.map_cons, List.sum_cons,
          List.map_cons, List.sum_cons, ← ih hnodup.2 hmem, Nat.add_assoc]

namespace VmemOwns

variable {mm : VideoMm} {bs : List (Block Bool)} {held : List (U64 × U32)}

/-- **Freeing** gives up the block with the low 32 bits of the address. -/
theorem free (h : VmemOwns mm bs held) (ptr : U64) :
    ∃ ret mm' bs', vmemFree mm ptr = some (ret, mm') ∧
      Answers SameLow mm.baseAddr mm.numPages held (.free ptr ret) ∧
      VmemOwns mm' bs' (heldAfter SameLow held (.free ptr ret)) ∧
      mm'.baseAddr = mm.baseAddr ∧ mm'.numPages = mm.numPages := by
  obtain ⟨hnone, hrun⟩ | ⟨pre, k, n, k', post, mm', rfl, hlow, hrun, hbase, hnum, hrep⟩ :=
    h.rep.vmemFree_spec ptr
  · refine ⟨-1, mm, bs, hrun, .inl ⟨rfl, ?_⟩, h, rfl, rfl⟩
    rintro ⟨ptr', size⟩ hmem
    obtain ⟨v, hat, rfl⟩ := (h.holds ptr' _).mp ⟨size, hmem, rfl⟩
    exact hnone v ⟨_, hat⟩
  · have hat : At 0 (pre ++ (restOf k ++ ⟨n, true⟩ :: (restOf k' ++ post))) (total pre + k)
        ⟨n, true⟩ := by simp
    obtain ⟨hn, hin, hsmall⟩ := h.at_bounds hat
    obtain ⟨size, hmem, hsize⟩ := (h.holds _ n).mpr ⟨_, hat, rfl⟩
    -- the low 32 bits are those of this block only
    have hsame : ∀ b ∈ held, SameLow b.1 ptr ↔ b.1 = pageAddr mm.baseAddr (total pre + k) := by
      rintro ⟨ptr', size'⟩ hb
      obtain ⟨v, hat', rfl⟩ := (h.holds ptr' _).mp ⟨size', hb, rfl⟩
      have hv := (h.at_bounds hat').2.2
      rw [SameLow, ← hlow, pageAddr_low_inj hv hsmall]
      exact ⟨fun heq => by rw [heq], fun heq => pageAddr_inj hv hsmall heq⟩
    have hfilter : held.filter (fun b => ¬SameLow b.1 ptr) =
        held.filter fun b => b.1 ≠ pageAddr mm.baseAddr (total pre + k) :=
      List.filter_congr fun b hb => by simp [hsame b hb]
    refine ⟨0, mm', pre ++ ⟨n + k + k', false⟩ :: post, hrun,
      .inr ⟨rfl, _, hmem, (hsame _ hmem).mpr rfl⟩, ?_, hbase, hnum⟩
    rw [heldAfter, if_pos rfl, hfilter]
    refine ⟨hrep, h.nodup.sublist (List.filter_sublist.map _), fun ptr' j => ?_, ?_⟩
    · simp only [at_freed h.rep.solid, hbase]
      constructor
      · rintro ⟨size', hb, rfl⟩
        obtain ⟨hb, hne⟩ := List.mem_filter.mp hb
        obtain ⟨v, hat', rfl⟩ := (h.holds ptr' _).mp ⟨size', hb, rfl⟩
        refine ⟨v, ⟨hat', ?_⟩, rfl⟩
        rintro rfl
        simp at hne
      · rintro ⟨v, ⟨hat', hne⟩, rfl⟩
        obtain ⟨size', hb, hj⟩ := (h.holds _ j).mpr ⟨v, hat', rfl⟩
        refine ⟨size', List.mem_filter.mpr ⟨hb, ?_⟩, hj⟩
        simpa using fun heq => hne (pageAddr_inj (h.at_bounds hat').2.2 hsmall heq)
    · have hcount := h.count
      have hsum := sum_filter_ne (g := fun b => pagesFor b.2) h.nodup hmem
      simp only [pagesOf_append, pagesOf_cons, pagesOf_restOf, Bool.false_eq_true,
        Bool.true_eq_false, if_false, if_true] at hcount hsum ⊢
      omega

/-- **One call**: it ends, and answers by the blocks that are held. -/
theorem call (h : VmemOwns mm bs held) (call : VmemCall) :
    ∃ event mm' bs', vmemCall mm call = some (event, mm') ∧
      Answers SameLow mm.baseAddr mm.numPages held event ∧
      VmemOwns mm' bs' (heldAfter SameLow held event) ∧
      mm'.baseAddr = mm.baseAddr ∧ mm'.numPages = mm.numPages := by
  cases call with
  | alloc size =>
      obtain ⟨ptr, mm', bs', hrun, hrest⟩ := h.alloc size
      exact ⟨_, mm', bs', by rw [vmemCall, hrun]; rfl, hrest⟩
  | free ptr =>
      obtain ⟨ret, mm', bs', hrun, hrest⟩ := h.free ptr
      exact ⟨_, mm', bs', by rw [vmemCall, hrun]; rfl, hrest⟩

/-- **Calls in a row.** -/
theorem run (h : VmemOwns mm bs held) (calls : List VmemCall) :
    ∃ events mm' bs', vmemRun calls mm = some (events, mm') ∧
      AnswersAll SameLow mm.baseAddr mm.numPages held events ∧
      VmemOwns mm' bs' (events.foldl (heldAfter SameLow) held) ∧
      mm'.baseAddr = mm.baseAddr ∧ mm'.numPages = mm.numPages := by
  induction calls generalizing mm bs held with
  | nil => exact ⟨[], mm, bs, rfl, trivial, h, rfl, rfl⟩
  | cons call calls ih =>
      obtain ⟨event, mm₁, bs₁, hcall, hconf, h₁, hbase₁, hnum₁⟩ := h.call call
      obtain ⟨events, mm₂, bs₂, hrun, hconfs, h₂, hbase₂, hnum₂⟩ := ih h₁
      rw [hbase₁, hnum₁] at hconfs
      refine ⟨event :: events, mm₂, bs₂, ?_, ⟨hconf, hconfs⟩, h₂, hbase₂.trans hbase₁,
        hnum₂.trans hnum₁⟩
      rw [vmemRun, hcall, Option.bind_eq_bind, Option.bind_some]
      simp only [hrun, Option.bind_eq_bind, Option.bind_some]
      rfl

end VmemOwns

/-! ## from the start -/

/-- The number of pages of a region: whole pairs of pages. -/
def arenaPages (size : U64) : Nat := 2 * (size.toNat / 2 ^ 15)

/-- Nothing is held of a fresh arena. -/
theorem vmemInit_owns (addr size : U64) (hlow : 2 ^ 15 ≤ size.toNat)
    (hhigh : size.toNat ≤ 2 ^ 32) :
    ∃ mm, vmemInit addr size = some mm ∧ mm.baseAddr = vmemBaseAddr addr ∧
      mm.numPages = arenaPages size ∧ VmemOwns mm [⟨arenaPages size, false⟩] [] := by
  obtain ⟨mm, hrun, hbase, hnum, hrep⟩ := vmemInit_spec addr hlow hhigh
  refine ⟨mm, hrun, hbase, hnum, hrep, .nil, fun ptr n => ?_, ?_⟩
  · simp [HeldAt]
  · simp

/-- What holds at the end of every run from the start. -/
theorem vmemRun_owns {addr size : U64} {mm mm' : VideoMm} {calls : List VmemCall}
    {events : List VmemEvent} (hlow : 2 ^ 15 ≤ size.toNat) (hhigh : size.toNat ≤ 2 ^ 32)
    (hinit : vmemInit addr size = some mm) (hrun : vmemRun calls mm = some (events, mm')) :
    ∃ bs, VmemOwns mm' bs (vmemKept events) ∧ mm'.baseAddr = vmemBaseAddr addr ∧
      mm'.numPages = arenaPages size ∧
      AnswersAll SameLow (vmemBaseAddr addr) (arenaPages size) [] events := by
  obtain ⟨mm₀, hinit₀, hbase, hnum, howns⟩ := vmemInit_owns addr size hlow hhigh
  obtain rfl := Option.some.inj (hinit₀.symm.trans hinit)
  obtain ⟨events₀, mm₁, bs, hrun₀, hans, hend, hbase', hnum'⟩ := howns.run calls
  obtain ⟨rfl, rfl⟩ := Prod.mk.inj (Option.some.inj (hrun₀.symm.trans hrun))
  rw [hbase, hnum] at hans
  exact ⟨bs, hend, hbase'.trans hbase, hnum'.trans hnum, hans⟩

/-! ## aliases

What the allocator keeps against what is held.  The two part at the first call that frees an
alias: the allocator gives up a block that is still held, and its answers follow the blocks that
it keeps from there on. -/

section Aliases

variable {base : U64} {numPages : Nat} {live kept : List (U64 × U32)} {event : VmemEvent}
  {events : List VmemEvent}

/-- A block of the arena: its first page, and room for its pages. -/
def InArena (base : U64) (numPages : Nat) (b : U64 × U32) : Prop :=
  ∃ v, 0 < pagesFor b.2 ∧ v + pagesFor b.2 ≤ numPages ∧ b.1 = pageAddr base v

/-- Blocks of an arena of at most 4 GiB that one address stands for are at one address. -/
theorem InArena.eq_of_sameLow {b c : U64 × U32} {ptr : U64} (hsmall : numPages ≤ 2 ^ 18)
    (hb : InArena base numPages b) (hc : InArena base numPages c) (hlow : SameLow b.1 ptr)
    (hlow' : SameLow c.1 ptr) : b.1 = c.1 := by
  obtain ⟨v, hbpos, hv, hbv⟩ := hb
  obtain ⟨w, hcpos, hw, hcw⟩ := hc
  rw [SameLow, hbv] at hlow
  rw [SameLow, ← hlow, hcw, pageAddr_low_inj (by omega) (by omega)] at hlow'
  rw [hbv, hcw, hlow']

/-- What is handed out is a block of the arena. -/
theorem Answers.inArena {same : U64 → U64 → Prop} {size : U32} {ptr : U64}
    (h : Answers same base numPages kept (.alloc size ptr)) (hptr : ptr ≠ vmemFail) :
    InArena base numPages (ptr, size) := by
  rw [Answers] at h
  split at h
  · exact absurd h hptr
  · next hsize =>
      obtain ⟨hfail, -⟩ | ⟨v, ⟨m, hgap, hle, -⟩, heq⟩ := h
      · exact absurd hfail hptr
      · have hhigh := hgap.high
        exact ⟨v, (pagesFor_bounds (Int.not_le.mp hsize)).1, by simp only; omega, heq⟩

/-- So all that is held is in the arena, whatever the allocator keeps of it. -/
theorem inArena_after (hlive : ∀ b ∈ live, InArena base numPages b)
    (h : Answers SameLow base numPages kept event) :
    ∀ b ∈ heldAfter (· = ·) live event, InArena base numPages b := by
  intro b hb
  cases event with
  | alloc size ptr =>
      rw [heldAfter] at hb
      split at hb
      · exact hlive b hb
      · next hptr =>
          rcases List.mem_cons.mp hb with rfl | hb
          · exact h.inArena hptr
          · exact hlive b hb
  | free ptr ret =>
      rw [heldAfter] at hb
      split at hb
      · exact hlive b (List.mem_filter.mp hb).1
      · exact hlive b hb

theorem inArena_run (hlive : ∀ b ∈ live, InArena base numPages b)
    (h : AnswersAll SameLow base numPages kept events) :
    ∀ b ∈ events.foldl (heldAfter (· = ·)) live, InArena base numPages b := by
  induction events generalizing live kept with
  | nil => exact hlive
  | cons event events ih => exact ih (inArena_after hlive h.1) h.2

theorem inArena_live (h : AnswersAll SameLow base numPages [] events) :
    ∀ b ∈ vmemLive events, InArena base numPages b :=
  inArena_run (fun b hb => absurd hb (List.not_mem_nil (a := b))) h

/-- The allocator keeps nothing that is not held. -/
theorem heldAfter_subset (h : kept ⊆ live) :
    heldAfter SameLow kept event ⊆ heldAfter (· = ·) live event := by
  cases event with
  | alloc size ptr =>
      by_cases hptr : ptr = vmemFail
      · rwa [heldAfter, heldAfter, if_pos hptr, if_pos hptr]
      · rw [heldAfter, heldAfter, if_neg hptr, if_neg hptr]
        exact List.cons_subset_cons _ h
  | free ptr ret =>
      by_cases hret : ret = 0
      · rw [heldAfter, heldAfter, if_pos hret, if_pos hret]
        intro b hb
        obtain ⟨hmem, hlow⟩ := List.mem_filter.mp hb
        refine List.mem_filter.mpr ⟨h hmem, ?_⟩
        simp only [decide_eq_true_eq] at hlow ⊢
        rintro rfl
        exact hlow rfl
      · rwa [heldAfter, heldAfter, if_neg hret, if_neg hret]

theorem kept_subset_live (h : kept ⊆ live) :
    events.foldl (heldAfter SameLow) kept ⊆ events.foldl (heldAfter (· = ·)) live := by
  induction events generalizing live kept with
  | nil => exact h
  | cons event events ih => exact ih (heldAfter_subset h)

/-- **One call**: the allocator, which answers by the low 32 bits, answers as it should exactly
if the call frees no alias. -/
theorem answers_eq_iff (hsmall : numPages ≤ 2 ^ 18) (hlive : ∀ b ∈ live, InArena base numPages b)
    (h : Answers SameLow base numPages live event) :
    Answers (· = ·) base numPages live event ↔ NoAlias live event := by
  cases event with
  | alloc size ptr => exact iff_of_true h trivial
  | free ptr ret =>
      constructor
      · rintro (⟨rfl, hnone⟩ | ⟨rfl, c, hc, rfl⟩) b hb hlow
        · obtain ⟨-, hnone'⟩ | ⟨hret, -⟩ := h
          · exact absurd hlow (hnone' b hb)
          · cases hret
        · exact (hlive b hb).eq_of_sameLow hsmall (hlive c hc) hlow rfl
      · intro hno
        obtain ⟨rfl, hnone⟩ | ⟨rfl, b, hb, hlow⟩ := h
        · exact .inl ⟨rfl, fun b hb heq => hnone b hb (heq ▸ rfl)⟩
        · exact .inr ⟨rfl, b, hb, hno b hb hlow⟩

/-- Without an alias the same blocks are given up. -/
theorem heldAfter_eq (h : NoAlias live event) :
    heldAfter SameLow live event = heldAfter (· = ·) live event := by
  cases event with
  | alloc size ptr => rfl
  | free ptr ret =>
      rw [heldAfter, heldAfter]
      refine if_congr Iff.rfl (List.filter_congr fun b hb => ?_) rfl
      have hiff : SameLow b.1 ptr ↔ b.1 = ptr := ⟨h b hb, fun heq => heq ▸ rfl⟩
      simp only [hiff]

/-- **A run**: from the first alias on the answers are wrong. -/
theorem answersAll_eq_iff (hsmall : numPages ≤ 2 ^ 18)
    (hlive : ∀ b ∈ live, InArena base numPages b)
    (h : AnswersAll SameLow base numPages live events) :
    AnswersAll (· = ·) base numPages live events ↔ NoAliasesFrom live events := by
  induction events generalizing live with
  | nil => exact Iff.rfl
  | cons event events ih =>
      rw [AnswersAll, NoAliasesFrom, answers_eq_iff hsmall hlive h.1]
      refine and_congr_right fun hno => ih (inArena_after hlive h.1) ?_
      rw [← heldAfter_eq hno]
      exact h.2

/-- Without aliases the allocator keeps what is held. -/
theorem kept_eq_live (h : NoAliasesFrom live events) :
    events.foldl (heldAfter SameLow) live = events.foldl (heldAfter (· = ·)) live := by
  induction events generalizing live with
  | nil => rfl
  | cons event events ih =>
      rw [List.foldl_cons, List.foldl_cons, heldAfter_eq h.1]
      exact ih h.2

end Aliases

/-- The arenas are of at most 4 GiB. -/
theorem arenaPages_le {size : U64} (hhigh : size.toNat ≤ 2 ^ 32) : arenaPages size ≤ 2 ^ 18 := by
  rw [arenaPages]
  omega

/-! ## what the clients see -/

/-- What `vmem_get_info` reports when some blocks are held. -/
def heldInfo (size : U64) (held : List (U64 × U32)) : VmemInfo where
  totalPages := BitVec.ofNat 64 (arenaPages size)
  allocPages := BitVec.ofNat 64 (held.map fun b => pagesFor b.2).sum
  freePages := BitVec.ofNat 64 (arenaPages size - (held.map fun b => pagesFor b.2).sum)
  pageSize := BitVec.ofNat 64 vmemPageSize

/-- The counters are those of the blocks that the allocator keeps. -/
theorem VmemOwns.getInfo {mm : VideoMm} {bs : List (Block Bool)} {held : List (U64 × U32)}
    {size : U64} (h : VmemOwns mm bs held) (hnum : mm.numPages = arenaPages size) :
    vmemGetInfo mm = heldInfo size held := by
  have hcount := h.count
  have hpages := h.rep.pages
  rw [← pagesOf_true_add_false, hnum, ← hcount] at hpages
  have hfree : pagesOf false bs =
      arenaPages size - (held.map fun b => pagesFor b.2).sum := by omega
  rw [vmemGetInfo, hnum, h.rep.allocPageCount, h.rep.freePageCount, ← hcount,
    BitVec.ofInt_natCast, BitVec.ofInt_natCast, hfree]
  rfl

/-- **Refinement**: no call of any run stops at an `ASSERT`.  Every call answers as best fit on the
blocks that are held does if and only if no call frees an alias, and then the counters are those
of these blocks. -/
theorem vmem_run_conforms (addr : U64) {size : U64} (hlow : 2 ^ 15 ≤ size.toNat)
    (hhigh : size.toNat ≤ 2 ^ 32) (calls : List VmemCall) :
    ∃ mm events mm', vmemInit addr size = some mm ∧ vmemRun calls mm = some (events, mm') ∧
      (ConformsAll (vmemBaseAddr addr) (arenaPages size) events ↔ NoAliases events) ∧
      (NoAliases events → vmemGetInfo mm' = heldInfo size (vmemLive events)) := by
  obtain ⟨mm, hinit, hbase, hnum, howns⟩ := vmemInit_owns addr size hlow hhigh
  obtain ⟨events, mm', bs, hrun, hans, hend, -, hnum'⟩ := howns.run calls
  rw [hbase, hnum] at hans
  refine ⟨mm, events, mm', hinit, hrun,
    answersAll_eq_iff (arenaPages_le hhigh) (by simp) hans, fun hno => ?_⟩
  rw [hend.getInfo (hnum'.trans hnum), kept_eq_live hno, vmemLive]

theorem vmem_run_conforms_five :
    ∃ mm events mm', vmemInit 0x1000 0x14000 = some mm ∧
      vmemRun [.alloc 0x4001, .alloc 1, .alloc 0x8000, .free 0x4000, .alloc 0x4000] mm =
        some (events, mm') ∧
      (ConformsAll (vmemBaseAddr 0x1000) (arenaPages 0x14000) events ↔ NoAliases events) ∧
      (NoAliases events → vmemGetInfo mm' = heldInfo 0x14000 (vmemLive events)) :=
  vmem_run_conforms 0x1000 (by decide) (by decide) _

example : ((vmemInit 0x1000 0x14000).bind fun mm =>
    (vmemRun [.alloc 0x4001, .alloc 1, .alloc 0x8000, .free 0x4000, .alloc 0x4000] mm).map
      Prod.fst) =
    some [.alloc 0x4001 0x4000, .alloc 1 0xc000, .alloc 0x8000 vmemFail, .free 0x4000 0,
      .alloc 0x4000 0x10000] := by decide +kernel

-- address 0 is an alias of 4 GiB: its free gives up the block, which is handed out once more
example : ((vmemInit 0x100000000 0xc000).bind fun mm =>
    (vmemRun [.alloc 1, .free 0, .alloc 1] mm).map Prod.fst) =
    some [.alloc 1 0x100000000, .free 0 0, .alloc 1 0x100000000] := by decide +kernel

/-- **Isolation**: the blocks held at the end of any run lie in the arena at addresses of pages,
and do not overlap unless an alias was freed. -/
theorem vmem_live_disjoint {addr size : U64} {mm mm' : VideoMm} {calls : List VmemCall}
    {events : List VmemEvent} (hlow : 2 ^ 15 ≤ size.toNat) (hhigh : size.toNat ≤ 2 ^ 32)
    (hinit : vmemInit addr size = some mm) (hrun : vmemRun calls mm = some (events, mm')) :
    (∀ b ∈ vmemLive events, b.1.toNat % vmemPageSize = 0 ∧
      (b.1 - vmemBaseAddr addr).toNat + b.2.toNat ≤ arenaPages size * vmemPageSize) ∧
    (NoAliases events → (vmemLive events).Pairwise fun a b =>
      (a.1 - vmemBaseAddr addr).toNat + a.2.toNat ≤ (b.1 - vmemBaseAddr addr).toNat ∨
        (b.1 - vmemBaseAddr addr).toNat + b.2.toNat ≤ (a.1 - vmemBaseAddr addr).toNat) := by
  obtain ⟨bs, howns, hbase, hnum, hans⟩ := vmemRun_owns hlow hhigh hinit hrun
  constructor
  · intro b hb
    obtain ⟨v, hpos, hin, hptr⟩ := inArena_live hans b hb
    have hsmall := arenaPages_le hhigh
    have haligned := howns.rep.aligned
    rw [hbase] at haligned
    rw [hptr]
    refine ⟨pageAddr_aligned haligned, ?_⟩
    calc (pageAddr (vmemBaseAddr addr) v - vmemBaseAddr addr).toNat + b.2.toNat
        ≤ v * vmemPageSize + pagesFor b.2 * vmemPageSize :=
          Nat.add_le_add (pageAddr_sub (by omega)).le (le_pagesFor b.2)
      _ = (v + pagesFor b.2) * vmemPageSize := (Nat.add_mul _ _ _).symm
      _ ≤ arenaPages size * vmemPageSize := Nat.mul_le_mul_right _ hin
  · intro hno
    rw [vmemLive, ← kept_eq_live hno, ← hbase]
    refine (List.pairwise_map.mp howns.nodup).imp_of_mem ?_
    rintro ⟨p, m⟩ ⟨q, n⟩ hp hq hne
    obtain ⟨v, hatv, rfl⟩ := (howns.holds p _).mp ⟨m, hp, rfl⟩
    obtain ⟨w, hatw, rfl⟩ := (howns.holds q _).mp ⟨n, hq, rfl⟩
    have hm := le_pagesFor m
    have hn := le_pagesFor n
    simp only [pageAddr_sub (howns.at_bounds hatv).2.2, pageAddr_sub (howns.at_bounds hatw).2.2]
    rcases hatv.disjoint howns.rep.solid hatw with ⟨rfl, -⟩ | h | h
    · exact absurd rfl hne
    · have hmul : (v + pagesFor m) * vmemPageSize ≤ w * vmemPageSize := Nat.mul_le_mul_right _ h
      rw [Nat.add_mul] at hmul
      exact .inl (by omega)
    · have hmul : (w + pagesFor n) * vmemPageSize ≤ v * vmemPageSize := Nat.mul_le_mul_right _ h
      rw [Nat.add_mul] at hmul
      exact .inr (by omega)

theorem vmem_live_disjoint_two :
    ∃ mm events mm', vmemInit 0x1000 0x14000 = some mm ∧
      vmemRun [.alloc 0x4001, .alloc 1] mm = some (events, mm') ∧
      (∀ b ∈ vmemLive events, b.1.toNat % vmemPageSize = 0 ∧
        (b.1 - vmemBaseAddr 0x1000).toNat + b.2.toNat ≤ arenaPages 0x14000 * vmemPageSize) ∧
      (NoAliases events → (vmemLive events).Pairwise fun a b =>
        (a.1 - vmemBaseAddr 0x1000).toNat + a.2.toNat ≤ (b.1 - vmemBaseAddr 0x1000).toNat ∨
          (b.1 - vmemBaseAddr 0x1000).toNat + b.2.toNat ≤ (a.1 - vmemBaseAddr 0x1000).toNat) := by
  obtain ⟨mm, hinit, -, -, howns⟩ := vmemInit_owns 0x1000 0x14000 (by decide) (by decide)
  obtain ⟨events, mm', -, hrun, -⟩ := howns.run [.alloc 0x4001, .alloc 1]
  exact ⟨mm, events, mm', hinit, hrun, vmem_live_disjoint (by decide) (by decide) hinit hrun⟩

/-- **Completeness**: after any run that frees no alias, a request fails exactly if it is for no
bytes or more pages than there are in a row that nobody holds; and then nothing changes. -/
theorem vmemAlloc_fails_iff {addr size : U64} {mm mm' : VideoMm} {calls : List VmemCall}
    {events : List VmemEvent} (hlow : 2 ^ 15 ≤ size.toNat) (hhigh : size.toNat ≤ 2 ^ 32)
    (hinit : vmemInit addr size = some mm) (hrun : vmemRun calls mm = some (events, mm'))
    (hno : NoAliases events) (request : U32) :
    vmemAlloc mm' request = some (vmemFail, mm') ↔
      request.toInt ≤ 0 ∨ ∀ a, a + pagesFor request ≤ arenaPages size →
        ∃ i, a ≤ i ∧ i < a + pagesFor request ∧
          Taken (vmemBaseAddr addr) (vmemLive events) i := by
  obtain ⟨bs, howns, hbase, hnum, -⟩ := vmemRun_owns hlow hhigh hinit hrun
  rw [vmemLive, ← kept_eq_live hno, ← vmemKept, ← hbase, ← hnum]
  by_cases hsize : request.toInt ≤ 0
  · exact ⟨fun _ => .inl hsize, fun _ => if_pos hsize⟩
  · have hpos := (pagesFor_bounds (Int.not_le.mp hsize)).1
    rw [or_iff_right hsize]
    obtain ⟨hnone, hfail⟩ | ⟨pre, m, post, mm'', rfl, hle, -, hok, -⟩ :=
      howns.rep.vmemAlloc_spec (Int.not_le.mp hsize)
    · refine ⟨fun _ a ha => ?_, fun _ => hfail⟩
      by_contra hall
      push Not at hall
      have hfree : ∀ i, a ≤ i → i < a + pagesFor request → Tagged false 0 bs i :=
        fun i hai hia => (howns.not_taken_iff (by omega)).mp (hall i hai hia)
      obtain ⟨v, ⟨n, tag⟩, hat, rfl, hva, hav⟩ := run_in_block howns.rep.solid howns.rep.coalesced
        hpos (Nat.zero_le a) (by rw [Nat.zero_add, howns.rep.pages]; exact ha)
        fun i hai hia v c hc hvi hiv => Tagged.eq howns.rep.solid ⟨v, c, hc, rfl, hvi, hiv⟩
          (hfree i hai hia)
      have hlt := hnone (n, v) hat
      simp only at hlt hav
      omega
    · refine ⟨fun hfail => ?_, fun hall => ?_⟩
      · have hptr := congrArg Prod.fst (Option.some.inj (hok.symm.trans hfail))
        exact absurd hptr (pageAddr_ne_fail howns.rep.aligned)
      · have hat : At 0 (pre ++ ⟨m, false⟩ :: post) (total pre) ⟨m, false⟩ := by simp
        have hin := (howns.at_bounds hat).2.1
        obtain ⟨i, hai, hia, htaken⟩ := hall (total pre) (by omega)
        refine absurd htaken ((howns.not_taken_iff (by omega)).mpr ?_)
        exact ⟨_, _, hat, rfl, hai, by simp only; omega⟩

theorem vmemAlloc_fails_iff_two :
    ∃ mm mm', vmemInit 0x1000 0x14000 = some mm ∧
      vmemRun [.alloc 0x4001, .alloc 1] mm =
        some ([.alloc 0x4001 0x4000, .alloc 1 0xc000], mm') ∧
      (vmemAlloc mm' 0x8000 = some (vmemFail, mm') ↔
        BitVec.toInt (0x8000 : U32) ≤ 0 ∨ ∀ a, a + pagesFor 0x8000 ≤ arenaPages 0x14000 →
          ∃ i, a ≤ i ∧ i < a + pagesFor 0x8000 ∧
            Taken (vmemBaseAddr 0x1000)
              (vmemLive [.alloc 0x4001 0x4000, .alloc 1 0xc000]) i) := by
  obtain ⟨mm, hinit, -, -, howns⟩ := vmemInit_owns 0x1000 0x14000 (by decide) (by decide)
  obtain ⟨events, mm', -, hrun, -⟩ := howns.run [.alloc 0x4001, .alloc 1]
  have hevents : ((vmemInit 0x1000 0x14000).bind fun mm =>
      (vmemRun [.alloc 0x4001, .alloc 1] mm).map Prod.fst) =
      some [.alloc 0x4001 0x4000, .alloc 1 0xc000] := by
    decide +kernel
  rw [hinit, Option.bind_some, hrun, Option.map_some] at hevents
  obtain rfl := Option.some.inj hevents
  exact ⟨mm, mm', hinit, hrun,
    vmemAlloc_fails_iff (by decide) (by decide) hinit hrun (by decide +kernel) 0x8000⟩

/-! ## what the answers depend on -/

/-- Clients hold the same blocks, in whatever order they got them: at every address a block of
as many pages. -/
def SameHolds (held held' : List (U64 × U32)) : Prop :=
  ∀ ptr n, HeldAt held ptr n ↔ HeldAt held' ptr n

namespace SameHolds

variable {base : U64} {numPages : Nat} {held held' : List (U64 × U32)}

theorem symm (h : SameHolds held held') : SameHolds held' held := fun ptr n => (h ptr n).symm

theorem taken (h : SameHolds held held') {i : Nat} (htaken : Taken base held i) :
    Taken base held' i := by
  obtain ⟨⟨ptr, size⟩, hmem, hle, hlt⟩ := htaken
  obtain ⟨size', hmem', hsize⟩ := (h ptr _).mp ⟨size, hmem, rfl⟩
  exact ⟨_, hmem', hle, by rwa [hsize]⟩

theorem vacant (h : SameHolds held held') {v n : Nat} (hgap : Vacant base numPages held v n) :
    Vacant base numPages held' v n :=
  hgap.congr fun _ _ _ => not_congr ⟨h.taken, h.symm.taken⟩

theorem low (h : SameHolds held held') {ptr : U64} (hlow : ∃ b ∈ held, SameLow b.1 ptr) :
    ∃ b ∈ held', SameLow b.1 ptr := by
  obtain ⟨⟨p, size⟩, hmem, hlow⟩ := hlow
  obtain ⟨size', hmem', -⟩ := (h p _).mp ⟨size, hmem, rfl⟩
  exact ⟨_, hmem', hlow⟩

/-- The first one of the smallest gaps is one page. -/
theorem bestFit_unique (h : SameHolds held held') {n v w : Nat}
    (hv : BestFit base numPages held n v) (hw : BestFit base numPages held' n w) : v = w := by
  obtain ⟨m, hgap, hle, hleast⟩ := hv
  obtain ⟨m', hgap', hle', hleast'⟩ := hw
  have hone := hleast w m' (h.symm.vacant hgap') hle'
  have htwo := hleast' v m (h.vacant hgap) hle
  omega

/-- The same blocks are held after the same call. -/
theorem after (h : SameHolds held held') (event : VmemEvent) :
    SameHolds (heldAfter SameLow held event) (heldAfter SameLow held' event) := by
  cases event with
  | alloc size ptr =>
      rw [heldAfter, heldAfter]
      split
      · exact h
      · intro p n
        simp only [HeldAt, List.mem_cons, or_and_right, exists_or]
        exact or_congr_right (h p n)
  | free ptr ret =>
      rw [heldAfter, heldAfter]
      split
      · intro p n
        simp only [HeldAt, List.mem_filter, decide_eq_true_eq]
        have hiff := h p n
        constructor
        · rintro ⟨size, ⟨hmem, hlow⟩, hsize⟩
          obtain ⟨size', hmem', hsize'⟩ := hiff.mp ⟨size, hmem, hsize⟩
          exact ⟨size', ⟨hmem', hlow⟩, hsize'⟩
        · rintro ⟨size, ⟨hmem, hlow⟩, hsize⟩
          obtain ⟨size', hmem', hsize'⟩ := hiff.mpr ⟨size, hmem, hsize⟩
          exact ⟨size', ⟨hmem', hlow⟩, hsize'⟩
      · exact h

end SameHolds

section Same

variable {mm mm' : VideoMm} {bs bs' : List (Block Bool)} {held held' : List (U64 × U32)}

/-- The blocks that are held determine all blocks. -/
theorem VmemOwns.blocks_eq (h : VmemOwns mm bs held) (h' : VmemOwns mm' bs' held')
    (hbase : mm.baseAddr = mm'.baseAddr) (hnum : mm.numPages = mm'.numPages)
    (hsame : SameHolds held held') : bs = bs' := by
  have hcross : ∀ {mm mm' : VideoMm} {bs bs' held held'}, VmemOwns mm bs held →
      VmemOwns mm' bs' held' → mm.baseAddr = mm'.baseAddr → SameHolds held held' →
      ∀ v n, At 0 bs v ⟨n, true⟩ → At 0 bs' v ⟨n, true⟩ :=
    fun h h' hbase hsame v n hat => by
      obtain ⟨w, hat', heq⟩ := (h'.holds _ n).mp ((hsame _ n).mp ((h.holds _ n).mpr ⟨v, hat, rfl⟩))
      rw [hbase] at heq
      rwa [pageAddr_inj (h.at_bounds hat).2.2 (h'.at_bounds hat').2.2 heq]
  refine Coalesced.eq_of_taken h.rep.solid h'.rep.solid h.rep.coalesced h'.rep.coalesced
    (p := 0) (by rw [h.rep.pages, h'.rep.pages, hnum]) ?_
  rintro v ⟨n, tag⟩ htag
  obtain rfl : tag = true := by simpa using htag
  exact ⟨hcross h h' hbase hsame v n, hcross h' h hbase.symm hsame.symm v n⟩

end Same

namespace SameHolds

variable {base : U64} {numPages : Nat} {held held' : List (U64 × U32)}

/-- An allocation has one answer. -/
theorem alloc_eq (h : SameHolds held held') {size : U32} {ptr ptr' : U64}
    (hptr : Answers SameLow base numPages held (.alloc size ptr))
    (hptr' : Answers SameLow base numPages held' (.alloc size ptr')) : ptr = ptr' := by
  rw [Answers] at hptr hptr'
  split at hptr
  · next hsize =>
      rw [if_pos hsize] at hptr'
      rw [hptr, hptr']
  · next hsize =>
      rw [if_neg hsize] at hptr'
      obtain ⟨rfl, hnone⟩ | ⟨v, hfit, rfl⟩ := hptr
      · obtain ⟨rfl, -⟩ | ⟨v, ⟨m, hgap, hle, -⟩, -⟩ := hptr'
        · rfl
        · exact absurd (hnone v m (h.symm.vacant hgap)) (Nat.not_lt.mpr hle)
      · obtain ⟨-, hnone⟩ | ⟨w, hfit', rfl⟩ := hptr'
        · obtain ⟨m, hgap, hle, -⟩ := hfit
          exact absurd (hnone v m (h.vacant hgap)) (Nat.not_lt.mpr hle)
        · rw [h.bestFit_unique hfit hfit']

/-- So has the freeing of a block. -/
theorem free_eq (h : SameHolds held held') {ptr : U64} {ret ret' : Int}
    (hret : Answers SameLow base numPages held (.free ptr ret))
    (hret' : Answers SameLow base numPages held' (.free ptr ret')) : ret = ret' := by
  obtain ⟨rfl, hnone⟩ | ⟨rfl, hsome⟩ := hret
  · obtain ⟨rfl, -⟩ | ⟨-, hsome⟩ := hret'
    · rfl
    · obtain ⟨b, hb, hlow⟩ := h.symm.low hsome
      exact absurd hlow (hnone b hb)
  · obtain ⟨-, hnone⟩ | ⟨rfl, -⟩ := hret'
    · obtain ⟨b, hb, hlow⟩ := h.low hsome
      exact absurd hlow (hnone b hb)
    · rfl

end SameHolds

section Same

variable {mm mm' : VideoMm} {bs bs' : List (Block Bool)} {held held' : List (U64 × U32)}

/-- The answer of a call is determined by the blocks that are held. -/
theorem VmemOwns.call_eq (h : VmemOwns mm bs held) (h' : VmemOwns mm' bs' held')
    (hbase : mm.baseAddr = mm'.baseAddr) (hnum : mm.numPages = mm'.numPages)
    (hsame : SameHolds held held') (call : VmemCall) :
    ∃ event mm₁ mm₁' bs₁ bs₁', vmemCall mm call = some (event, mm₁) ∧
      vmemCall mm' call = some (event, mm₁') ∧ VmemOwns mm₁ bs₁ (heldAfter SameLow held event) ∧
      VmemOwns mm₁' bs₁' (heldAfter SameLow held' event) ∧ mm₁.baseAddr = mm₁'.baseAddr ∧
      mm₁.numPages = mm₁'.numPages := by
  cases call with
  | alloc size =>
      obtain ⟨ptr, mm₁, bs₁, hrun, hconf, howns, hbase₁, hnum₁⟩ := h.alloc size
      obtain ⟨ptr', mm₁', bs₁', hrun', hconf', howns', hbase₁', hnum₁'⟩ := h'.alloc size
      rw [← hbase, ← hnum] at hconf'
      obtain rfl := hsame.alloc_eq hconf hconf'
      refine ⟨_, mm₁, mm₁', bs₁, bs₁', by rw [vmemCall, hrun]; rfl, by rw [vmemCall, hrun']; rfl,
        howns, howns', ?_, ?_⟩
      · rw [hbase₁, hbase₁', hbase]
      · rw [hnum₁, hnum₁', hnum]
  | free ptr =>
      obtain ⟨ret, mm₁, bs₁, hrun, hconf, howns, hbase₁, hnum₁⟩ := h.free ptr
      obtain ⟨ret', mm₁', bs₁', hrun', hconf', howns', hbase₁', hnum₁'⟩ := h'.free ptr
      rw [← hbase, ← hnum] at hconf'
      obtain rfl := hsame.free_eq hconf hconf'
      refine ⟨_, mm₁, mm₁', bs₁, bs₁', by rw [vmemCall, hrun]; rfl, by rw [vmemCall, hrun']; rfl,
        howns, howns', ?_, ?_⟩
      · rw [hbase₁, hbase₁', hbase]
      · rw [hnum₁, hnum₁', hnum]

/-- So are those of a run. -/
theorem VmemOwns.run_eq (h : VmemOwns mm bs held) (h' : VmemOwns mm' bs' held')
    (hbase : mm.baseAddr = mm'.baseAddr) (hnum : mm.numPages = mm'.numPages)
    (hsame : SameHolds held held') (calls : List VmemCall) :
    ∃ events mm₁ mm₁', vmemRun calls mm = some (events, mm₁) ∧
      vmemRun calls mm' = some (events, mm₁') := by
  induction calls generalizing mm mm' bs bs' held held' with
  | nil => exact ⟨[], mm, mm', rfl, rfl⟩
  | cons call calls ih =>
      obtain ⟨event, mm₁, mm₁', bs₁, bs₁', hrun, hrun', h₁, h₁', hbase₁, hnum₁⟩ :=
        h.call_eq h' hbase hnum hsame call
      obtain ⟨events, mm₂, mm₂', hrest, hrest'⟩ := ih h₁ h₁' hbase₁ hnum₁ (hsame.after event)
      refine ⟨event :: events, mm₂, mm₂', ?_, ?_⟩
      · rw [vmemRun, hrun, Option.bind_eq_bind, Option.bind_some]
        simp only [hrest, Option.bind_eq_bind, Option.bind_some]
        rfl
      · rw [vmemRun, hrun', Option.bind_eq_bind, Option.bind_some]
        simp only [hrest', Option.bind_eq_bind, Option.bind_some]
        rfl

/-- States that stand for the same blocks have the same page list and the same entries. -/
theorem VmemRep.state_eq (h : VmemRep mm bs) (h' : VmemRep mm' bs)
    (hbase : mm.baseAddr = mm'.baseAddr) :
    (∀ i, i < mm.numPages → mm.pageList i = mm'.pageList i) ∧
      mm.freeTree.toList = mm'.freeTree.toList ∧ mm.allocTree.toList = mm'.allocTree.toList := by
  refine ⟨fun i hi => ?_, ?_, ?_⟩
  · obtain ⟨v, b, hat, hv, hb⟩ := exists_at (Nat.zero_le i)
      (show i < 0 + total bs by rw [Nat.zero_add, h.pages]; exact hi)
    have hmark := h.marked v b hat (i - v) (by omega)
    have hmark' := h'.marked v b hat (i - v) (by omega)
    rw [Nat.add_sub_cancel' hv] at hmark hmark'
    rw [hmark, hmark', hbase]
  · exact h.free.sorted.eq_of_mem h'.free.sorted fun x => by rw [h.free.mem, h'.free.mem]
  · refine h.alloc.sorted.eq_of_mem h'.alloc.sorted fun x => ?_
    rw [h.alloc.mem, h'.alloc.mem, hbase]

/-- **History is forgotten**: two runs that free no alias and leave the same blocks held leave the
same page list and the same entries in the trees, and get the same answers from then on. -/
theorem vmem_history_forgotten {addr size : U64} {mm mm₁ mm₂ : VideoMm}
    {calls₁ calls₂ : List VmemCall} {events₁ events₂ : List VmemEvent}
    (hlow : 2 ^ 15 ≤ size.toNat) (hhigh : size.toNat ≤ 2 ^ 32)
    (hinit : vmemInit addr size = some mm) (hrun₁ : vmemRun calls₁ mm = some (events₁, mm₁))
    (hrun₂ : vmemRun calls₂ mm = some (events₂, mm₂)) (hno₁ : NoAliases events₁)
    (hno₂ : NoAliases events₂)
    (hsame : SameHolds (vmemLive events₁) (vmemLive events₂)) :
    (∀ i, i < arenaPages size → mm₁.pageList i = mm₂.pageList i) ∧
      mm₁.freeTree.toList = mm₂.freeTree.toList ∧ mm₁.allocTree.toList = mm₂.allocTree.toList ∧
      ∀ calls, ∃ events mm₁' mm₂', vmemRun calls mm₁ = some (events, mm₁') ∧
        vmemRun calls mm₂ = some (events, mm₂') := by
  obtain ⟨bs, h₁, hbase₁, hnum₁, -⟩ := vmemRun_owns hlow hhigh hinit hrun₁
  obtain ⟨bs', h₂, hbase₂, hnum₂, -⟩ := vmemRun_owns hlow hhigh hinit hrun₂
  have hbase : mm₁.baseAddr = mm₂.baseAddr := hbase₁.trans hbase₂.symm
  have hnum : mm₁.numPages = mm₂.numPages := hnum₁.trans hnum₂.symm
  rw [vmemLive, vmemLive, ← kept_eq_live hno₁, ← kept_eq_live hno₂] at hsame
  obtain rfl := h₁.blocks_eq h₂ hbase hnum hsame
  obtain ⟨hlist, hfree, halloc⟩ := h₁.rep.state_eq h₂.rep hbase
  rw [hnum₁] at hlist
  exact ⟨hlist, hfree, halloc, h₁.run_eq h₂ hbase hnum hsame⟩

/-- All blocks are freed: the arena is as it was. -/
theorem vmem_history_forgotten_freed :
    ∃ mm events mm', vmemInit 0x1000 0x14000 = some mm ∧
      vmemRun [.alloc 0x4001, .alloc 1, .free 0x4000, .free 0xc000] mm = some (events, mm') ∧
      (∀ i, i < arenaPages 0x14000 → mm'.pageList i = mm.pageList i) ∧
      mm'.freeTree.toList = mm.freeTree.toList ∧ mm'.allocTree.toList = mm.allocTree.toList ∧
      ∀ calls, ∃ events mm₁ mm₂, vmemRun calls mm' = some (events, mm₁) ∧
        vmemRun calls mm = some (events, mm₂) := by
  obtain ⟨mm, hinit, -, -, howns⟩ := vmemInit_owns 0x1000 0x14000 (by decide) (by decide)
  obtain ⟨events, mm', -, hrun, -⟩ :=
    howns.run [.alloc 0x4001, .alloc 1, .free 0x4000, .free 0xc000]
  have hevents : ((vmemInit 0x1000 0x14000).bind fun mm =>
      (vmemRun [.alloc 0x4001, .alloc 1, .free 0x4000, .free 0xc000] mm).map Prod.fst) =
      some [.alloc 0x4001 0x4000, .alloc 1 0xc000, .free 0x4000 0, .free 0xc000 0] := by
    decide +kernel
  rw [hinit, Option.bind_some, hrun, Option.map_some] at hevents
  obtain rfl := Option.some.inj hevents
  have hlive : vmemLive [.alloc 0x4001 0x4000, .alloc 1 0xc000, .free 0x4000 0, .free 0xc000 0] =
      vmemLive [] := by decide
  exact ⟨mm, _, mm', hinit, hrun, vmem_history_forgotten (by decide) (by decide) hinit hrun
    (show vmemRun [] mm = some ([], mm) from rfl) (by decide +kernel) trivial fun ptr n => by
      rw [hlive]⟩

end Same

/-! ## the region -/

theorem pagesOf_pos {bs : List (Block Bool)} {b : Block Bool} (hs : Solid bs) (hb : b ∈ bs) :
    0 < pagesOf b.tag bs := by
  induction bs with
  | nil => cases hb
  | cons c bs ih =>
      rw [pagesOf_cons]
      rcases List.mem_cons.mp hb with rfl | hb
      · rw [if_pos rfl]
        exact Nat.add_pos_left (solid_cons.mp hs).1 _
      · exact Nat.add_pos_right _ (ih (solid_cons.mp hs).2 hb)

/-- A request of one page. -/
def pageBytes : U32 := BitVec.ofNat 32 vmemPageSize

namespace VmemOwns

variable {mm : VideoMm} {bs : List (Block Bool)} {held : List (U64 × U32)}

/-- One page is there as long as there are free pages. -/
theorem alloc_onePage (h : VmemOwns mm bs held) (hfree : 0 < pagesOf false bs) :
    ∃ ptr mm' bs', vmemCall mm (.alloc pageBytes) = some (.alloc pageBytes ptr, mm') ∧
      heldAfter SameLow held (.alloc pageBytes ptr) = (ptr, pageBytes) :: held ∧
      VmemOwns mm' bs' ((ptr, pageBytes) :: held) ∧ pagesOf false bs' + 1 = pagesOf false bs ∧
      mm'.baseAddr = mm.baseAddr ∧ mm'.numPages = mm.numPages := by
  obtain ⟨ptr, mm', bs', hrun, hconf, howns, hbase, hnum⟩ := h.alloc pageBytes
  rw [Answers, if_neg (by decide)] at hconf
  have hptr : ptr ≠ vmemFail := by
    rcases hconf with ⟨-, hnone⟩ | ⟨v, -, rfl⟩
    · -- there is a free block, and it has a page
      obtain ⟨b, hb, htag⟩ : ∃ b ∈ bs, b.tag = false := by
        by_contra hall
        push Not at hall
        have hnil : bs.filter (fun b => b.tag = false) = [] :=
          List.filter_eq_nil_iff.mpr fun b hb => by simpa using hall b hb
        rw [pagesOf, hnil] at hfree
        exact absurd hfree (Nat.lt_irrefl 0)
      obtain ⟨pre, post, rfl⟩ := List.append_of_mem hb
      obtain ⟨n, tag⟩ := b
      obtain rfl : tag = false := htag
      have hat : FreeAt 0 (pre ++ ⟨n, false⟩ :: post) (n, total pre) := by simp [FreeAt]
      have hlt := hnone _ n (h.vacant_iff.mpr hat)
      have hpos := hat.pos h.rep.solid
      have hone : pagesFor pageBytes = 1 := by decide
      simp only at hpos
      omega
    · exact pageAddr_ne_fail h.rep.aligned
  have hlive : heldAfter SameLow held (.alloc pageBytes ptr) = (ptr, pageBytes) :: held :=
    if_neg hptr
  rw [hlive] at howns
  refine ⟨ptr, mm', bs', by rw [vmemCall, hrun]; rfl, hlive, howns, ?_, hbase, hnum⟩
  have hcount := h.count
  have hcount' := howns.count
  have hone : pagesFor pageBytes = 1 := by decide
  have hall := h.rep.pages
  have hall' := howns.rep.pages
  rw [← pagesOf_true_add_false] at hall hall'
  rw [List.map_cons, List.sum_cons, hone] at hcount'
  omega

/-- As many requests of one page as there are free pages are all met.  This is how memory behind
a region is reached: after them every page of the arena is handed out. -/
theorem fill (h : VmemOwns mm bs held) (hlive : ∀ b ∈ held, b.2 = pageBytes) {k : Nat}
    (hfree : pagesOf false bs = k) :
    ∃ events mm' bs', vmemRun (List.replicate k (.alloc pageBytes)) mm = some (events, mm') ∧
      VmemOwns mm' bs' (events.foldl (heldAfter SameLow) held) ∧
      (∀ b ∈ events.foldl (heldAfter SameLow) held, b.2 = pageBytes) ∧ pagesOf false bs' = 0 ∧
      mm'.baseAddr = mm.baseAddr ∧ mm'.numPages = mm.numPages := by
  induction k generalizing mm bs held with
  | zero => exact ⟨[], mm, bs, rfl, h, hlive, hfree, rfl, rfl⟩
  | succ k ih =>
      obtain ⟨ptr, mm₁, bs₁, hcall, hafter, h₁, hfree₁, hbase₁, hnum₁⟩ :=
        h.alloc_onePage (by omega)
      have hlive₁ : ∀ b ∈ (ptr, pageBytes) :: held, b.2 = pageBytes := fun b hb => by
        rcases List.mem_cons.mp hb with rfl | hb
        · rfl
        · exact hlive b hb
      obtain ⟨events, mm₂, bs₂, hrun, h₂, hlive₂, hfree₂, hbase₂, hnum₂⟩ :=
        ih h₁ hlive₁ (by omega)
      refine ⟨.alloc pageBytes ptr :: events, mm₂, bs₂, ?_, ?_, ?_, hfree₂, hbase₂.trans hbase₁,
        hnum₂.trans hnum₁⟩
      · rw [List.replicate_succ, vmemRun, hcall, Option.bind_eq_bind, Option.bind_some]
        simp only [hrun, Option.bind_eq_bind, Option.bind_some]
        rfl
      · rwa [List.foldl_cons, hafter]
      · rwa [List.foldl_cons, hafter]

end VmemOwns

theorem arena_bounds {addr size : U64} (hwrap : addr.toNat + size.toNat + vmemPageSize ≤ 2 ^ 64) :
    addr.toNat ≤ (vmemBaseAddr addr).toNat ∧
      ((vmemBaseAddr addr).toNat + arenaPages size * vmemPageSize ≤ addr.toNat + size.toNat ↔
        (vmemBaseAddr addr).toNat - addr.toNat ≤ size.toNat % 2 ^ 15) ∧
      (vmemBaseAddr addr).toNat + arenaPages size * vmemPageSize ≤ 2 ^ 64 := by
  rw [vmemBaseAddr_toNat, arenaPages]
  simp only [vmemPageSize] at hwrap ⊢
  omega

theorem pageAddr_toNat {base : U64} {v : Nat} (h : base.toNat + v * vmemPageSize < 2 ^ 64) :
    (pageAddr base v).toNat = base.toNat + v * vmemPageSize := by
  rw [pageAddr, BitVec.toNat_add, BitVec.toNat_ofNat]
  rw [vmemPageSize] at h ⊢
  omega

/-- **The region**: the base is rounded up and the size is not rounded down to go with it, so that
memory behind the region is handed out, unless the rounding of the base fits into what the
size has over pairs of pages. -/
theorem vmem_in_region_iff {addr size : U64} {mm : VideoMm} (hlow : 2 ^ 15 ≤ size.toNat)
    (hhigh : size.toNat ≤ 2 ^ 32) (hwrap : addr.toNat + size.toNat + vmemPageSize ≤ 2 ^ 64)
    (hinit : vmemInit addr size = some mm) :
    (∀ calls events mm', vmemRun calls mm = some (events, mm') → ∀ b ∈ vmemLive events,
        addr.toNat ≤ b.1.toNat ∧ b.1.toNat + b.2.toNat ≤ addr.toNat + size.toNat) ↔
      (vmemBaseAddr addr).toNat - addr.toNat ≤ size.toNat % 2 ^ 15 := by
  obtain ⟨hle, hiff, hend⟩ := arena_bounds hwrap
  rw [← hiff]
  constructor
  · intro hall
    obtain ⟨mm₀, hinit₀, hbase, hnum, howns⟩ := vmemInit_owns addr size hlow hhigh
    obtain rfl := Option.some.inj (hinit₀.symm.trans hinit)
    obtain ⟨events, mm', bs, hrun, hfill, hone, hfree, hbase', hnum'⟩ :=
      howns.fill (k := arenaPages size) (by simp) (by simp)
    -- all pages are held, the last one by a block of one page
    have hpos : 0 < arenaPages size := by
      rw [arenaPages]
      omega
    obtain ⟨v, ⟨n, tag⟩, hat, hv, hn⟩ := exists_at
      (Nat.zero_le (arenaPages size - 1))
      (show arenaPages size - 1 < 0 + total bs by rw [hfill.rep.pages, hnum', hnum]; omega)
    have htag : tag = true := by
      cases tag with
      | true => rfl
      | false =>
          have := pagesOf_pos hfill.rep.solid hat.mem
          simp only at this
          omega
    subst htag
    obtain ⟨hn0, hin, hv18⟩ := hfill.at_bounds hat
    obtain ⟨size', hmem, hsize⟩ := (hfill.holds _ n).mpr ⟨v, hat, rfl⟩
    obtain rfl : size' = pageBytes := hone _ hmem
    have hn1 : n = 1 := hsize.symm.trans (by decide)
    obtain ⟨-, hinside⟩ := hall _ events mm' hrun _ (kept_subset_live (List.Subset.refl _) hmem)
    rw [hnum', hnum] at hin
    have hv1 : v + 1 = arenaPages size := by
      simp only at hn
      omega
    have hpage : pageBytes.toNat = vmemPageSize := by decide
    rw [hbase', hbase] at hinside
    simp only [hpage] at hinside
    rw [← hv1, Nat.add_mul, Nat.one_mul] at hend ⊢
    rw [pageAddr_toNat (by rw [vmemPageSize] at hend ⊢; omega)] at hinside
    omega
  · intro hinside calls events mm' hrun b hb
    obtain ⟨-, -, -, -, hans⟩ := vmemRun_owns hlow hhigh hinit hrun
    obtain ⟨v, hpos, hin, hptr⟩ := inArena_live hans b hb
    have hroom := le_pagesFor b.2
    have hmul : (v + pagesFor b.2) * vmemPageSize ≤ arenaPages size * vmemPageSize :=
      Nat.mul_le_mul_right _ hin
    rw [Nat.add_mul] at hmul
    have hmulpos : 0 < pagesFor b.2 * vmemPageSize := Nat.mul_pos hpos (by decide)
    rw [hptr, pageAddr_toNat (by omega)]
    omega

/-- A region of two pages that starts in the middle of a page. -/
theorem vmem_in_region_iff_fails :
    ∃ mm, vmemInit 0x1000 0x8000 = some mm ∧
      ¬∀ calls events mm', vmemRun calls mm = some (events, mm') → ∀ b ∈ vmemLive events,
        (0x1000 : U64).toNat ≤ b.1.toNat ∧
          b.1.toNat + b.2.toNat ≤ (0x1000 : U64).toNat + (0x8000 : U64).toNat := by
  obtain ⟨mm, hinit, -⟩ := vmemInit_owns 0x1000 0x8000 (by decide) (by decide)
  refine ⟨mm, hinit, fun hall => ?_⟩
  have hfit := (vmem_in_region_iff (by decide) (by decide) (by decide) hinit).mp hall
  exact absurd hfit (by decide)

end MtEmu
