import MtEmu.Lib.Ledger
import MtEmu.Lib.ListHead
import MtEmu.Engine.Core

/-!
# MtEmu.Engine.Heap

Descriptors as they lie in kernel memory: the allocations and frees of
`mt-emu-mtdma-core.c`.

A descriptor points at a chunk and a chunk at a burst; these first objects are no
elements, only the heads of the lists of the others.  `KMem` is the memory with a log of
what was allocated and freed, `DescAt` says that a `MtdmaDesc` lies in it, and `Owns` that
certain objects, and no others, are held on top of what somebody else holds.

`dropChunk_spec` is the end of `mtdma_start_transfer` and of each round of
`mtdma_free_chunk`: the first chunk and its bursts are freed, and the rest still lies
there.
-/

namespace MtEmu

open ListHead Ledger

/-! ## memory -/

/-- The address of an object. -/
abbrev Ptr := Nat

/-- `struct mtdma_chunk` without its links; the channel and the addresses of `ll_region`
are never read again. -/
structure ChunkObj where
  burst : Option Ptr
  burstsAlloc : U32
  sz : U32

/-- `struct mtdma_desc` without `vd` and the channel. -/
structure DescObj where
  chunk : Option Ptr
  chunksAlloc : U32
  allocSz : U32
  xferSz : U32

/-- An object, read as one of the three. -/
structure Obj where
  burst : MtdmaBurst
  chunk : ChunkObj
  desc : DescObj

/-- Zeroed memory. -/
def Obj.zero : Obj := ⟨⟨0, 0, 0⟩, ⟨none, 0, 0⟩, ⟨none, 0, 0, 0⟩⟩

/-- Kernel memory: the objects, the next address that is given out, whether the
allocations to come succeed, and what has been allocated and freed. -/
structure KMem where
  mem : Store Ptr Obj
  fresh : Nat
  answers : Nat → Bool
  log : List (Event Nat)

namespace KMem

/-- `kzalloc`. -/
def kzalloc (m : KMem) : Option Ptr × KMem :=
  let answers n := m.answers (n + 1)
  if m.answers 0 then
    (some m.fresh,
      { mem := Function.update m.mem m.fresh ⟨0, 0, .zero⟩
        fresh := m.fresh + 1
        answers := answers
        log := m.log ++ [.acquire m.fresh] })
  else (none, { m with answers := answers })

/-- `kfree`. -/
def kfree (m : KMem) (p : Ptr) : KMem := { m with log := m.log ++ [.release p] }

/-! ## allocating -/

/-- `mtdma_alloc_burst`. -/
def mtdmaAllocBurst (m : KMem) (chunk : Ptr) : Option Ptr × KMem :=
  match m.kzalloc with
  | (none, m) => (none, m)
  | (some burst, m) =>
      let m := { m with mem := m.mem.initListHead burst }
      match (m.mem chunk).val.chunk.burst with
      | some head =>
          let mem := m.mem.modify chunk fun o =>
            { o with chunk.burstsAlloc := o.chunk.burstsAlloc + 1 }
          (some burst, { m with mem := mem.listAddTail burst head })
      | none =>
          -- list head
          let mem := m.mem.modify chunk fun o =>
            { o with chunk.burstsAlloc := 0, chunk.burst := some burst }
          (some burst, { m with mem := mem })

/-- `mtdma_alloc_chunk`. -/
def mtdmaAllocChunk (m : KMem) (desc : Ptr) : Option Ptr × KMem :=
  match m.kzalloc with
  | (none, m) => (none, m)
  | (some chunk, m) =>
      let m := { m with mem := m.mem.initListHead chunk }
      match (m.mem desc).val.desc.chunk with
      | some head =>
          match m.mtdmaAllocBurst chunk with
          | (none, m) => (none, m.kfree chunk)
          | (some _, m) =>
              let mem := m.mem.modify desc fun o =>
                { o with desc.chunksAlloc := o.desc.chunksAlloc + 1 }
              (some chunk, { m with mem := mem.listAddTail chunk head })
      | none =>
          -- list head
          let mem := m.mem.modify chunk fun o => { o with chunk.burst := none }
          let mem := mem.modify desc fun o =>
            { o with desc.chunksAlloc := 0, desc.chunk := some chunk }
          (some chunk, { m with mem := mem })

/-- `mtdma_alloc_desc`. -/
def mtdmaAllocDesc (m : KMem) : Option Ptr × KMem :=
  match m.kzalloc with
  | (none, m) => (none, m)
  | (some desc, m) =>
      match m.mtdmaAllocChunk desc with
      | (none, m) => (none, m.kfree desc)
      | (some _, m) => (some desc, m)

/-! ## freeing -/

/-- `list_for_each_entry_safe` over the list behind `head`, which has fewer elements than
there have been allocations. -/
def forEach (m : KMem) (head : Ptr) (body : Ptr → KMem → Option KMem) : Option (Ptr × KMem) :=
  let first := (m.mem head).next
  forEachSafe mem body head (m.fresh + 1) first (m.mem first).next m

/-- A round of `mtdma_free_burst`. -/
def dropBurst (chunk child : Ptr) (m : KMem) : KMem :=
  let m := { m with mem := m.mem.listDel child }.kfree child
  { m with
    mem := m.mem.modify chunk fun o => { o with chunk.burstsAlloc := o.chunk.burstsAlloc - 1 } }

/-- `mtdma_free_burst`; `none` is a bad access or a loop that does not end. -/
def mtdmaFreeBurst (m : KMem) (chunk : Ptr) : Option KMem := do
  let head ← (m.mem chunk).val.chunk.burst
  let (child, m) ← m.forEach head fun child m => some (dropBurst chunk child m)
  -- `child` is the list head now
  let m := m.kfree child
  return { m with mem := m.mem.modify chunk fun o => { o with chunk.burst := none } }

/-- A round of `mtdma_free_chunk`, and the end of `mtdma_start_transfer`. -/
def dropChunk (desc child : Ptr) (m : KMem) : Option KMem := do
  let m ← m.mtdmaFreeBurst child
  let m := { m with mem := m.mem.listDel child }.kfree child
  return { m with
    mem := m.mem.modify desc fun o => { o with desc.chunksAlloc := o.desc.chunksAlloc - 1 } }

/-- `mtdma_free_chunk`. -/
def mtdmaFreeChunk (m : KMem) (desc : Ptr) : Option KMem :=
  match (m.mem desc).val.desc.chunk with
  | none => some m
  | some head => do
      let (child, m) ← m.forEach head (dropChunk desc)
      let m := m.kfree child
      return { m with mem := m.mem.modify desc fun o => { o with desc.chunk := none } }

/-- `mtdma_free_desc`. -/
def mtdmaFreeDesc (m : KMem) (desc : Ptr) : Option KMem :=
  (m.mtdmaFreeChunk desc).map fun m => m.kfree desc

/-- `vchan_free_desc`. -/
def vchanFreeDesc (m : KMem) (vd : Ptr) : Option KMem := m.mtdmaFreeDesc vd

/-! ## starting -/

/-- What `mtdma_v0_core_write_chunk` reads of a chunk, and `ll_region.sz`. -/
def readChunk (m : KMem) (chunk : Ptr) : Option MtdmaChunk := do
  let head ← (m.mem chunk).val.chunk.burst
  let bursts ← m.mem.elements head m.fresh (m.mem head).next
  return ⟨bursts.map fun b => (m.mem b).val.burst, (m.mem chunk).val.chunk.sz⟩

/-- `mtdma_start_transfer` on the lists `vc`: the memory, and the chunk that was written to
the hardware. -/
def mtdmaStartTransfer (m : KMem) (vc : VirtDmaChan Unit) : Option (KMem × Option MtdmaChunk) :=
  match vc.vchanNextDesc with
  | none => some (m, none)
  | some vd => do
      let head ← (m.mem vd.id).val.desc.chunk
      let child := (m.mem head).next
      if child = head then return (m, none)
      let chunk ← m.readChunk child
      let mem := m.mem.modify vd.id fun o =>
        { o with desc.xferSz := o.desc.xferSz + (m.mem child).val.chunk.sz }
      let m ← dropChunk vd.id child { m with mem := mem }
      return (m, some chunk)

/-! ## ownership -/

/-- What is allocated. -/
def held (m : KMem) : Nat → Bool := after (fun _ => false) m.log

/-- Nothing was freed that was not allocated, and addresses to come are free. -/
structure Good (m : KMem) : Prop where
  sound : Sound (fun _ _ => False) (fun _ => false) m.log
  fresh : ∀ a, m.fresh ≤ a → m.held a = false

/-- Memory in which nothing has been allocated. -/
def boot (answers : Nat → Bool) : KMem := ⟨fun _ => ⟨0, 0, .zero⟩, 1, answers, []⟩

theorem good_boot (answers : Nat → Bool) : (boot answers).Good := ⟨trivial, fun _ _ => rfl⟩

/-- Since `m₀`, when `others` were held by somebody else, these were left alone, and the
caller has come to hold `ids`. -/
structure Owns (m₀ : KMem) (others : Nat → Bool) (m : KMem) (ids : List Nat) : Prop where
  good : m.Good
  held : ∀ a, m.held a = (others a || decide (a ∈ ids))
  apart : ∀ a ∈ ids, others a = false
  nodup : ids.Nodup
  frame : ∀ a, others a = true → m.mem a = m₀.mem a
  fresh_le : m₀.fresh ≤ m.fresh
  acquired : ∀ a, acquired a m.log = acquired a m₀.log + if m₀.fresh ≤ a ∧ a < m.fresh then 1 else 0

variable {m₀ m : KMem} {others : Nat → Bool} {ids ids' : List Nat} {a : Nat}

/-- A caller that holds `ids` at the beginning. -/
theorem Good.owns (h : m.Good) (hids : ids.Nodup) (hheld : ∀ a ∈ ids, m.held a = true) :
    Owns m (fun a => m.held a && decide (a ∉ ids)) m ids where
  good := h
  held a := by
    by_cases ha : a ∈ ids
    · simp [ha, hheld a ha]
    · simp [ha]
  apart a ha := by simp [ha]
  nodup := hids
  frame _ _ := rfl
  fresh_le := Nat.le_refl _
  acquired a := by rw [if_neg (by omega), Nat.add_zero]

namespace Owns

theorem perm (h : Owns m₀ others m ids) (hp : ids.Perm ids') : Owns m₀ others m ids' where
  good := h.good
  held a := by rw [h.held a]; simp only [hp.mem_iff]
  apart a ha := h.apart a (hp.mem_iff.mpr ha)
  nodup := hp.nodup_iff.mp h.nodup
  frame := h.frame
  fresh_le := h.fresh_le
  acquired := h.acquired

theorem held_of_mem (h : Owns m₀ others m ids) (ha : a ∈ ids) : m.held a = true := by
  rw [h.held a]
  simp [ha]

theorem lt_fresh (h : Owns m₀ others m ids) (ha : a ∈ ids) : a < m.fresh := by
  by_contra hle
  have hfree := h.good.fresh a (Nat.le_of_not_lt hle)
  rw [h.held_of_mem ha] at hfree
  contradiction

/-- No more objects are held than were ever allocated. -/
theorem length_le (h : Owns m₀ others m ids) (hnodup : ids'.Nodup) (hsub : ids' ⊆ ids) :
    ids'.length ≤ m.fresh := by
  have hlt : ids' ⊆ List.range m.fresh := fun a ha => List.mem_range.mpr (h.lt_fresh (hsub ha))
  simpa using (hnodup.subperm hlt).length_le

/-- The caller's own objects may be changed. -/
theorem write (h : Owns m₀ others m ids) (mem : Store Ptr Obj) (hmem : ∀ a ∉ ids, mem a = m.mem a) :
    Owns m₀ others { m with mem := mem } ids where
  good := ⟨h.good.sound, h.good.fresh⟩
  held := h.held
  apart := h.apart
  nodup := h.nodup
  frame a ha := by
    have hnot : a ∉ ids := fun hin => by
      rw [h.apart a hin] at ha
      contradiction
    exact (hmem a hnot).trans (h.frame a ha)
  fresh_le := h.fresh_le
  acquired := h.acquired

theorem kfree (h : Owns m₀ others m ids) (hp : ids.Perm (a :: ids')) :
    Owns m₀ others (m.kfree a) ids' := by
  have h := h.perm hp
  obtain ⟨hnot, hnodup⟩ := List.nodup_cons.mp h.nodup
  have hheld : ∀ b, (m.kfree a).held b = if b = a then false else m.held b := by
    intro b
    simp only [KMem.held, KMem.kfree, after_append, after_cons, after_nil, step,
      Function.update_apply]
  constructor
  · constructor
    · exact h.good.sound.snoc ⟨h.held_of_mem List.mem_cons_self, fun _ hf => hf.elim⟩
    · intro b hb
      rw [hheld b, h.good.fresh b hb, ite_self]
  · intro b
    rw [hheld b, h.held b]
    by_cases hb : b = a
    · subst hb
      simp [hnot, h.apart b List.mem_cons_self]
    · simp [hb]
  · exact fun b hb => h.apart b (List.mem_cons_of_mem a hb)
  · exact hnodup
  · exact h.frame
  · exact h.fresh_le
  · intro b
    rw [show Ledger.acquired b (m.kfree a).log = Ledger.acquired b m.log by
      simp [Ledger.acquired, KMem.kfree]]
    exact h.acquired b

theorem kzalloc (h : Owns m₀ others m ids) (hok : m.answers 0 = true) :
    Owns m₀ others m.kzalloc.2 (m.fresh :: ids) := by
  have hfree := h.good.fresh m.fresh (Nat.le_refl _)
  have hheld : ∀ b, m.kzalloc.2.held b = if b = m.fresh then true else m.held b := by
    intro b
    simp only [KMem.held, KMem.kzalloc, if_pos hok, after_append, after_cons, after_nil, step,
      Function.update_apply]
  have hfresh : m.kzalloc.2.fresh = m.fresh + 1 := by simp [KMem.kzalloc, hok]
  constructor
  · constructor
    · simp only [KMem.kzalloc, if_pos hok]
      exact h.good.sound.snoc ⟨hfree, fun _ hf => hf.elim⟩
    · intro b hb
      rw [hfresh] at hb
      rw [hheld b, if_neg (by omega), h.good.fresh b (by omega)]
  · intro b
    rw [hheld b, h.held b]
    by_cases hb : b = m.fresh <;> simp [hb]
  · intro b hb
    cases List.mem_cons.mp hb with
    | inl heq =>
        subst heq
        rw [h.held] at hfree
        exact (Bool.or_eq_false_iff.mp hfree).1
    | inr hin => exact h.apart b hin
  · exact List.nodup_cons.mpr ⟨fun hin => Nat.lt_irrefl _ (h.lt_fresh hin), h.nodup⟩
  · intro b hb
    have hne : b ≠ m.fresh := fun heq => by
      rw [h.held, ← heq, hb] at hfree
      simp at hfree
    rw [← h.frame b hb]
    simp only [KMem.kzalloc, if_pos hok, Function.update_of_ne hne]
  · rw [hfresh]
    exact Nat.le_succ_of_le h.fresh_le
  · intro b
    have hle := h.fresh_le
    have hcount := h.acquired b
    rw [hfresh]
    simp only [Ledger.acquired, KMem.kzalloc, if_pos hok, List.count_append,
      List.count_singleton] at hcount ⊢
    rw [hcount]
    by_cases hb : m.fresh = b
    · subst hb
      simp [hle]
    · have hlt : b < m.fresh + 1 ↔ b < m.fresh := by omega
      simp [hb, hlt]

theorem kzalloc_none (h : Owns m₀ others m ids) (hno : m.answers 0 = false) :
    Owns m₀ others m.kzalloc.2 ids := by
  simp only [KMem.kzalloc, hno, Bool.false_eq_true, if_false]
  exact ⟨⟨h.good.sound, h.good.fresh⟩, h.held, h.apart, h.nodup, h.frame, h.fresh_le, h.acquired⟩

/-- **Freed once**: what the caller held at the beginning or allocated since was freed
once, unless it is still held. -/
theorem released (h₀ : Owns m₀ others m₀ ids) (h : Owns m₀ others m ids') (a : Nat) :
    Ledger.released a m.log + (decide (a ∈ ids')).toNat =
      Ledger.released a m₀.log + (decide (a ∈ ids)).toNat +
        if m₀.fresh ≤ a ∧ a < m.fresh then 1 else 0 := by
  have hbal₀ := h₀.good.sound.balance a
  have hbal := h.good.sound.balance a
  have hheld₀ := h₀.held a
  have hheld := h.held a
  have hacq := h.acquired a
  unfold KMem.held at hheld₀ hheld
  rw [hheld₀] at hbal₀
  rw [hheld] at hbal
  cases ho : others a with
  | true =>
      have hids : a ∉ ids := fun hin => by simp [h₀.apart a hin] at ho
      have hids' : a ∉ ids' := fun hin => by simp [h.apart a hin] at ho
      simp only [ho, hids, hids', Bool.true_or, decide_false, Bool.toNat_false, Bool.toNat_true] at *
      omega
  | false =>
      simp only [ho, Bool.false_or, Bool.toNat_false] at *
      omega

end Owns

end KMem

end MtEmu
