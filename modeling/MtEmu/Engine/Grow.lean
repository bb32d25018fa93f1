import MtEmu.Engine.Free

/-!
# MtEmu.Engine.Grow

Descriptors in kernel memory that grow: the allocations of a descriptor
(`mtdmaAllocDesc_spec`), of a chunk at its end (`mtdmaAllocChunk_spec`) and of a burst in its
last chunk (`addBurst_spec`), each of which may fail.

Each of these says three things of the memory behind the call: what the descriptor is now
(`DescAt`), which objects are its own (`Owns`), and whether an allocation failed.  The proofs
go through the store step by step.  An object that `kzalloc` gives out is new, so no object
of the descriptor is it (`Owns.lt_fresh`); what is written besides is the object itself, the
links around it, and a counter.  `DescAt.addChunk` and `DescAt.replaceLast` say once what a
store must keep for the descriptor to be what it was with its end replaced.

The first chunk of a descriptor and the first burst of a chunk are no elements but the heads
of the lists, which the same two functions allocate (`mtdmaAllocChunk_head`,
`mtdmaAllocBurst_head`).
-/

namespace MtEmu

open ListHead

/-! ## bursts -/

namespace MtdmaChan

/-- Of two addresses, the one on the device's side: only that one runs on from entry to
entry. -/
def deviceAddr (ch : MtdmaChan) (srcAddr dstAddr : U64) : U64 :=
  match ch.dir with
  | .memToDev => dstAddr
  | .devToMem => srcAddr

/-- The burst between a scatter entry and the device address `addr`, in the direction of the
channel. -/
def burstOf (ch : MtdmaChan) (sg : SgEntry) (addr : U64) : MtdmaBurst :=
  match ch.dir with
  | .memToDev => ⟨sg.dmaAddress, addr, sg.dmaLen⟩
  | .devToMem => ⟨addr, sg.dmaAddress, sg.dmaLen⟩

@[simp] theorem burstOf_sz (ch : MtdmaChan) (sg : SgEntry) (addr : U64) :
    (ch.burstOf sg addr).sz = sg.dmaLen := by
  unfold burstOf
  cases ch.dir <;> rfl

/-- The last chunk takes the burst, or a new one if it is full: a round of the loop with the
direction out of the way. -/
theorem transferRound_eq (ch : MtdmaChan) (st : TransferState) (sg : SgEntry) :
    let full := BitVec.ofNat 32 st.chunk.bursts.length = ch.info.llMax
    let chunk := if full then ⟨[], 0⟩ else st.chunk
    ch.transferRound st sg =
      { before := if full then st.before ++ [st.chunk] else st.before
        chunk := ⟨chunk.bursts ++ [ch.burstOf sg st.addr], chunk.sz + sg.dmaLen⟩
        addr := st.addr + sg.dmaLen.setWidth 64
        allocSz := st.allocSz + sg.dmaLen } := by
  unfold transferRound burstOf
  cases ch.dir <;> rfl

end MtdmaChan

/-! ## descriptors that grow -/

/-- A chunk with one more burst, the object `b`, at the end of its list. -/
def ChunkView.snoc (v : ChunkView) (b : Nat) : ChunkView := { v with bursts := v.bursts ++ [b] }

variable {s s' : Store Ptr Obj} {v : DescView} {d : MtdmaDesc} {cv : ChunkView} {c : MtdmaChunk}

/-- A chunk none of whose objects have changed is what it was, wherever else the memory was
written. -/
theorem ChunkAt.frame (h : ChunkAt s cv c) (hs : ∀ a ∈ cv.ids, s' a = s a) : ChunkAt s' cv c := by
  refine h.congr (fun a ha => ?_) (fun a ha => ?_) ?_ fun a ha => ?_
  · rw [hs a (List.mem_cons_of_mem _ ha)]
  · rw [hs a (List.mem_cons_of_mem _ ha)]
  · rw [hs cv.ptr List.mem_cons_self]
  · rw [hs a (List.mem_cons_of_mem _ (List.mem_cons_of_mem _ ha))]

/-- A descriptor none of whose objects have changed is what it was: this is all that a failed
allocation needs. -/
theorem DescAt.frame (h : DescAt s v d) (hs : ∀ a ∈ v.ids, s' a = s a) : DescAt s' v d := by
  have hptr : s' v.ptr = s v.ptr := hs _ List.mem_cons_self
  have hflat : ∀ cv ∈ v.chunks, ∀ a ∈ cv.ids, s' a = s a := fun cv hcv a ha =>
    hs a (List.mem_cons_of_mem _ (List.mem_cons_of_mem _ (List.mem_flatMap.mpr ⟨cv, hcv, ha⟩)))
  constructor
  · rw [hptr, h.chunk]
  · refine h.ring.frame fun a ha => ?_
    cases List.mem_cons.mp ha with
    | inl heq => exact hs a (heq ▸ List.mem_cons_of_mem _ List.mem_cons_self)
    | inr hin =>
        obtain ⟨cv, hcv, rfl⟩ := List.mem_map.mp hin
        exact hflat cv hcv cv.ptr List.mem_cons_self
  · refine ((List.forall₂_and_left _ _).mpr ⟨hflat, h.chunks⟩).imp fun cv c hcc => ?_
    exact hcc.2.frame hcc.1
  · rw [hptr, h.chunksAlloc]
  · rw [hptr, h.allocSz]
  · rw [hptr, h.xferSz]

theorem forall₂_concat {α β : Type} {r : α → β → Prop} {xs : List α} {ys : List β} {x : α}
    {y : β} : List.Forall₂ r (xs ++ [x]) (ys ++ [y]) ↔ List.Forall₂ r xs ys ∧ r x y := by
  rw [← List.forall₂_reverse_iff, List.reverse_append, List.reverse_append,
    List.reverse_singleton, List.reverse_singleton, List.singleton_append, List.singleton_append,
    List.forall₂_cons, List.forall₂_reverse_iff, and_comm]

/-- The last chunk becomes another one in its place, and nothing else changes but the
descriptor's own size.  The objects of the last chunk may change as they like as long as it
keeps its links; those of the chunks before it, and the list head, are disjoint from it and
have to be as they were. -/
theorem DescAt.replaceLast {cvs : List ChunkView} {cs : List MtdmaChunk} {cv' : ChunkView}
    {c' : MtdmaChunk} {sz : U32} (h : DescAt s v d) (hnodup : v.ids.Nodup)
    (hv : v.chunks = cvs ++ [cv]) (hd : d.chunks = cs ++ [c])
    (hsame : ∀ a ∈ v.ids, a ∉ cv.ids → a ≠ v.ptr → s' a = s a)
    (hdesc : (s' v.ptr).val.desc = { (s v.ptr).val.desc with allocSz := sz })
    (hptr : cv'.ptr = cv.ptr) (hnext : (s' cv.ptr).next = (s cv.ptr).next)
    (hprev : (s' cv.ptr).prev = (s cv.ptr).prev) (hc : ChunkAt s' cv' c') :
    DescAt s' { v with chunks := cvs ++ [cv'] }
      { d with chunks := cs ++ [c'], allocSz := sz } := by
  have hring := h.ring
  have hcount := h.chunksAlloc
  obtain ⟨hcs, -⟩ := forall₂_concat.mp (hv ▸ hd ▸ h.chunks)
  rw [hv] at hring hcount
  have hids : v.ids = v.ptr :: v.head :: (cvs.flatMap ChunkView.ids ++ cv.ids) := by
    rw [DescView.ids, hv, List.flatMap_append, List.flatMap_singleton]
  rw [hids] at hnodup hsame
  obtain ⟨hdptr, hmore⟩ := List.nodup_cons.mp hnodup
  obtain ⟨hdhead, hflat⟩ := List.nodup_cons.mp hmore
  have hapart := (List.nodup_append.mp hflat).2.2
  have hhead : s' v.head = s v.head :=
    hsame v.head (List.mem_cons_of_mem _ List.mem_cons_self)
      (fun hin => hdhead (List.mem_append_right _ hin))
      fun heq => hdptr (heq ▸ List.mem_cons_self)
  have hother : ∀ cv₀ ∈ cvs, ∀ a ∈ cv₀.ids, s' a = s a := by
    intro cv₀ hcv₀ a ha
    have hin : a ∈ cvs.flatMap ChunkView.ids := List.mem_flatMap.mpr ⟨cv₀, hcv₀, ha⟩
    exact hsame a (List.mem_cons_of_mem _ (List.mem_cons_of_mem _ (List.mem_append_left _ hin)))
      (fun hcv => hapart a hin a hcv rfl)
      fun heq => hdptr (heq ▸ List.mem_cons_of_mem _ (List.mem_append_left _ hin))
  have hlinks : ∀ a ∈ v.head :: (cvs ++ [cv]).map ChunkView.ptr,
      (s' a).next = (s a).next ∧ (s' a).prev = (s a).prev := by
    intro a ha
    rw [List.map_append, List.map_singleton, List.mem_cons, List.mem_append,
      List.mem_singleton] at ha
    rcases ha with rfl | ha | rfl
    · exact ⟨by rw [hhead], by rw [hhead]⟩
    · obtain ⟨cv₀, hcv₀, rfl⟩ := List.mem_map.mp ha
      have hsame₀ := hother cv₀ hcv₀ cv₀.ptr List.mem_cons_self
      exact ⟨by rw [hsame₀], by rw [hsame₀]⟩
    · exact ⟨hnext, hprev⟩
  constructor
  · rw [hdesc, h.chunk]
  · rw [List.map_append, List.map_singleton, hptr, ← List.map_singleton, ← List.map_append]
    exact hring.congr (fun a ha => (hlinks a ha).1) fun a ha => (hlinks a ha).2
  · refine forall₂_concat.mpr ⟨?_, hc⟩
    refine ((List.forall₂_and_left _ _).mpr ⟨hother, hcs⟩).imp fun cv₀ c₀ hcc => ?_
    exact hcc.2.frame hcc.1
  · rw [hdesc]
    simpa using hcount
  · rw [hdesc]
  · rw [hdesc, h.xferSz]

/-- One more chunk at the end: the list of the chunks is longer, no chunk's own contents have
changed, and it was counted.  The links of the chunks are part of the longer ring, which is
why their objects are only asked to keep what is not a link. -/
theorem DescAt.addChunk {cv' : ChunkView} {c' : MtdmaChunk} (h : DescAt s v d)
    (hnodup : v.ids.Nodup) (hring : Ring s' v.head (v.chunks.map ChunkView.ptr ++ [cv'.ptr]))
    (hinner : ∀ a ∈ v.ids, a ∉ v.head :: v.chunks.map ChunkView.ptr → a ≠ v.ptr → s' a = s a)
    (hchunk : ∀ cv ∈ v.chunks, (s' cv.ptr).val.chunk = (s cv.ptr).val.chunk)
    (hdesc : (s' v.ptr).val.desc =
      { (s v.ptr).val.desc with chunksAlloc := (s v.ptr).val.desc.chunksAlloc + 1 })
    (hc : ChunkAt s' cv' c') :
    DescAt s' { v with chunks := v.chunks ++ [cv'] } { d with chunks := d.chunks ++ [c'] } := by
  obtain ⟨hdptr, hmore⟩ := List.nodup_cons.mp hnodup
  obtain ⟨hdhead, hflat⟩ := List.nodup_cons.mp hmore
  have hbursts : ∀ cv ∈ v.chunks, ∀ a ∈ cv.head :: cv.bursts, s' a = s a := by
    intro cv hcv a ha
    have hin : a ∈ v.chunks.flatMap ChunkView.ids :=
      List.mem_flatMap.mpr ⟨cv, hcv, List.mem_cons_of_mem _ ha⟩
    refine hinner a (List.mem_cons_of_mem _ (List.mem_cons_of_mem _ hin)) (fun hring => ?_)
      fun heq => hdptr (heq ▸ List.mem_cons_of_mem _ hin)
    cases List.mem_cons.mp hring with
    | inl heq => exact hdhead (heq ▸ hin)
    | inr hptr => exact not_mem_ptrs hflat hcv ha hptr
  constructor
  · rw [hdesc, h.chunk]
  · rw [List.map_append, List.map_singleton]
    exact hring
  · refine forall₂_concat.mpr ⟨?_, hc⟩
    refine ((List.forall₂_and_left _ _).mpr ⟨fun cv hcv => hcv, h.chunks⟩).imp fun cv c hcc => ?_
    obtain ⟨hcv, hc⟩ := hcc
    refine hc.congr (fun a ha => ?_) (fun a ha => ?_) (hchunk cv hcv) fun a ha => ?_
    · rw [hbursts cv hcv a ha]
    · rw [hbursts cv hcv a ha]
    · rw [hbursts cv hcv a (List.mem_cons_of_mem _ ha)]
  · rw [hdesc, List.length_append, List.length_singleton, BitVec.ofNat_add, h.chunksAlloc]
    rfl
  · rw [hdesc, h.allocSz]
  · rw [hdesc, h.xferSz]

/-! ## allocations -/

namespace KMem

variable {m₀ m : KMem} {others : Nat → Bool}

/-- All allocations to come succeed.  A failure is proved as the negation of this, so that a
caller that assumes it has no failing path left. -/
def AllOk (m : KMem) : Prop := ∀ n, m.answers n = true

/-- Memory with one more object, zero and linked to itself: what `kzalloc` and
`INIT_LIST_HEAD` leave, which begin every allocation here. -/
def zeroed (m : KMem) : Store Ptr Obj :=
  Store.initListHead (Function.update m.mem m.fresh ⟨0, 0, .zero⟩) m.fresh

theorem zeroed_of_ne {a : Nat} (h : a ≠ m.fresh) : m.zeroed a = m.mem a := by
  rw [zeroed, Store.initListHead_of_ne h, Function.update_of_ne h]

@[simp] theorem zeroed_val_fresh : (m.zeroed m.fresh).val = .zero := by
  rw [zeroed, Store.initListHead_val, Function.update_self]

theorem ring_zeroed : Ring m.zeroed m.fresh [] := ring_initListHead _ _

theorem kzalloc_ok (h : m.answers 0 = true) :
    m.kzalloc = (some m.fresh, m.kzalloc.2) := by
  simp only [kzalloc, if_pos h]

theorem kzalloc_fail (h : m.answers 0 = false) :
    m.kzalloc = (none, { m with answers := fun n => m.answers (n + 1) }) := by
  simp only [kzalloc, h, Bool.false_eq_true, if_false]

/-- The next object is given out, linked to itself: the store of the functions is
`zeroed`. -/
theorem initListHead_kzalloc (h : m.answers 0 = true) :
    m.kzalloc.2.mem.initListHead m.fresh = m.zeroed := by
  simp only [kzalloc, if_pos h, zeroed]

theorem mem_kzalloc_of_ne {a : Nat} (h : a ≠ m.fresh) : m.kzalloc.2.mem a = m.mem a := by
  rw [kzalloc]
  split
  · exact Function.update_of_ne h _ _
  · rfl

theorem fresh_kzalloc (h : m.answers 0 = true) : m.kzalloc.2.fresh = m.fresh + 1 := by
  simp only [kzalloc, if_pos h]

theorem answers_kzalloc : m.kzalloc.2.answers = fun n => m.answers (n + 1) := by
  rw [kzalloc]
  split <;> rfl

/-- The first burst of a chunk is its list head: it is not counted and never filled. -/
theorem mtdmaAllocBurst_head {chunk : Nat} (h : m.answers 0 = true) (hne : chunk ≠ m.fresh)
    (hnone : (m.mem chunk).val.chunk.burst = none) :
    m.mtdmaAllocBurst chunk = (some m.fresh,
      { m.kzalloc.2 with
        mem := m.zeroed.modify chunk fun o =>
          { o with chunk.burstsAlloc := 0, chunk.burst := some m.fresh } }) := by
  rw [mtdmaAllocBurst, kzalloc_ok h]
  simp only [initListHead_kzalloc h, zeroed_of_ne hne, hnone]

/-- What `mtdma_alloc_burst` leaves of a chunk with a list: one more in the count, and the new
object between the last burst and the head. -/
def grown (m : KMem) (cv : ChunkView) : Store Ptr Obj :=
  (m.zeroed.modify cv.ptr fun o =>
    { o with chunk.burstsAlloc := o.chunk.burstsAlloc + 1 }).listAddTail m.fresh cv.head

/-- The others are its elements, which the loop of `mtdma_device_transfer` fills. -/
theorem mtdmaAllocBurst_elem {cv : ChunkView} (h : m.answers 0 = true) (hne : cv.ptr ≠ m.fresh)
    (hsome : (m.mem cv.ptr).val.chunk.burst = some cv.head) :
    m.mtdmaAllocBurst cv.ptr = (some m.fresh, { m.kzalloc.2 with mem := m.grown cv }) := by
  rw [mtdmaAllocBurst, kzalloc_ok h]
  simp only [initListHead_kzalloc h, zeroed_of_ne hne, hsome]
  rfl

theorem mtdmaAllocBurst_fail {chunk : Nat} (h : m.answers 0 = false) :
    m.mtdmaAllocBurst chunk = (none, { m with answers := fun n => m.answers (n + 1) }) := by
  rw [mtdmaAllocBurst, kzalloc_fail h]

/-! ## a new chunk -/

/-- The objects of a descriptor, those of its last chunk at the end. -/
theorem ids_concat {v : DescView} {cv : ChunkView} {cvs : List ChunkView} (hv : v.chunks = cvs ++ [cv]) :
    v.ids = v.ptr :: v.head :: (cvs.flatMap ChunkView.ids ++ cv.ids) := by
  rw [DescView.ids, hv, List.flatMap_append, List.flatMap_singleton]

/-- Memory when the new chunk is linked to itself and its burst list is still to be
allocated: here the second allocation may fail, and the chunk is freed again. -/
def oneMore (m : KMem) : KMem := { m.kzalloc.2 with mem := m.zeroed }

section NewChunk

variable {v : DescView} {d : MtdmaDesc}

theorem Owns.oneMore {ids : List Nat} (ho : Owns m₀ others m ids) (h : m.answers 0 = true) :
    Owns m₀ others m.oneMore (m.fresh :: ids) :=
  (ho.kzalloc h).write m.zeroed fun a ha => by
    have hne : a ≠ m.fresh := fun heq => ha (heq ▸ List.mem_cons_self)
    rw [zeroed_of_ne hne, mem_kzalloc_of_ne hne]

/-- Memory when the new chunk has its list head and is counted, and is not yet in the list of
the descriptor. -/
def counted (m : KMem) (desc : Nat) : Store Ptr Obj :=
  (m.oneMore.zeroed.modify m.fresh fun o =>
    { o with chunk.burstsAlloc := 0, chunk.burst := some m.oneMore.fresh }).modify desc fun o =>
      { o with desc.chunksAlloc := o.desc.chunksAlloc + 1 }

theorem mtdmaAllocChunk_elem {desc head : Nat} (h₀ : m.answers 0 = true) (h₁ : m.answers 1 = true)
    (hne : desc ≠ m.fresh) (hsome : (m.mem desc).val.desc.chunk = some head) :
    m.mtdmaAllocChunk desc = (some m.fresh,
      { m.oneMore.kzalloc.2 with mem := (m.counted desc).listAddTail m.fresh head }) := by
  have hhead := @mtdmaAllocBurst_head m.oneMore m.fresh
    (by rw [oneMore, answers_kzalloc]; exact h₁)
    (by rw [oneMore, fresh_kzalloc h₀]; exact Nat.ne_of_lt (Nat.lt_succ_self _))
    (by rw [oneMore, zeroed_val_fresh]; rfl)
  rw [mtdmaAllocChunk, kzalloc_ok h₀]
  simp only [initListHead_kzalloc h₀, zeroed_of_ne hne, hsome]
  rw [← oneMore, hhead]
  rfl

theorem mtdmaAllocChunk_burst_fail {desc head : Nat} (h₀ : m.answers 0 = true)
    (h₁ : m.answers 1 = false) (hne : desc ≠ m.fresh)
    (hsome : (m.mem desc).val.desc.chunk = some head) :
    m.mtdmaAllocChunk desc = (none,
      KMem.kfree { m.oneMore with answers := fun n => m.oneMore.answers (n + 1) } m.fresh) := by
  rw [mtdmaAllocChunk, kzalloc_ok h₀]
  simp only [initListHead_kzalloc h₀, zeroed_of_ne hne, hsome]
  rw [← oneMore, mtdmaAllocBurst_fail (by rw [oneMore, answers_kzalloc]; exact h₁)]

theorem mtdmaAllocChunk_fail {desc : Nat} (h : m.answers 0 = false) :
    m.mtdmaAllocChunk desc = (none, { m with answers := fun n => m.answers (n + 1) }) := by
  rw [mtdmaAllocChunk, kzalloc_fail h]

theorem zeroed_oneMore {a : Nat} (h₀ : m.answers 0 = true) (ha : a < m.fresh) :
    m.oneMore.zeroed a = m.mem a := by
  rw [zeroed_of_ne (by rw [oneMore, fresh_kzalloc h₀]; omega)]
  show m.zeroed a = m.mem a
  exact zeroed_of_ne (Nat.ne_of_lt ha)

@[simp] theorem counted_next {desc a : Nat} :
    (m.counted desc a).next = (m.oneMore.zeroed a).next := by
  simp [counted]

@[simp] theorem counted_prev {desc a : Nat} :
    (m.counted desc a).prev = (m.oneMore.zeroed a).prev := by
  simp [counted]

theorem counted_chunk {desc a : Nat} (ha : a ≠ m.fresh) :
    (m.counted desc a).val.chunk = (m.oneMore.zeroed a).val.chunk := by
  rw [counted, Store.modify_val, apply_ite Obj.chunk, ite_self, Store.modify_of_ne ha]

theorem counted_of_ne {desc a : Nat} (ha : a ≠ m.fresh) (hd : a ≠ desc) :
    m.counted desc a = m.oneMore.zeroed a := by
  rw [counted, Store.modify_of_ne hd, Store.modify_of_ne ha]

/-- The list of chunks, its head included, consists of the descriptor's objects. -/
theorem list_subset {a : Nat} (ha : a ∈ v.head :: v.chunks.map ChunkView.ptr) : a ∈ v.ids := by
  cases List.mem_cons.mp ha with
  | inl heq => exact heq ▸ List.mem_cons_of_mem _ List.mem_cons_self
  | inr hin =>
      obtain ⟨cv, hcv, rfl⟩ := List.mem_map.mp hin
      exact List.mem_cons_of_mem _ (List.mem_cons_of_mem _
        (List.mem_flatMap.mpr ⟨cv, hcv, List.mem_cons_self⟩))

/-- The list of chunks before the new one is added is as it was: what was written up to there
has no link of it. -/
theorem ring_listed (h : DescAt m.mem v d) (ho : Owns m₀ others m v.ids)
    (h₀ : m.answers 0 = true) :
    Ring (m.counted v.ptr) v.head (v.chunks.map ChunkView.ptr) :=
  h.ring.congr
    (fun a ha => by rw [counted_next, zeroed_oneMore h₀ (ho.lt_fresh (list_subset ha))])
    fun a ha => by rw [counted_prev, zeroed_oneMore h₀ (ho.lt_fresh (list_subset ha))]

/-- The descriptor with a new chunk at the end: `list_add_tail` puts it between the last chunk
and the head. -/
theorem addChunk_desc (h : DescAt m.mem v d) (ho : Owns m₀ others m v.ids)
    (h₀ : m.answers 0 = true) :
    DescAt ((m.counted v.ptr).listAddTail m.fresh v.head)
      { v with chunks := v.chunks ++ [⟨m.fresh, m.fresh + 1, []⟩] }
      { d with chunks := d.chunks ++ [⟨[], 0⟩] } := by
  have hlt : ∀ a ∈ v.ids, a < m.fresh := fun a ha => ho.lt_fresh ha
  have hz : ∀ a ∈ v.ids, m.oneMore.zeroed a = m.mem a := fun a ha => zeroed_oneMore h₀ (hlt a ha)
  have hptr : ∀ cv ∈ v.chunks, cv.ptr ∈ v.ids := fun cv hcv =>
    List.mem_cons_of_mem _ (List.mem_cons_of_mem _
      (List.mem_flatMap.mpr ⟨cv, hcv, List.mem_cons_self⟩))
  have hring := ring_listed h ho h₀
  have hnew : m.fresh ∉ v.head :: v.chunks.map ChunkView.ptr := fun hin =>
    Nat.lt_irrefl _ (hlt _ (list_subset hin))
  have hlast : m.fresh + 1 ∉ v.head :: v.chunks.map ChunkView.ptr := fun hin =>
    Nat.not_succ_le_self _ (Nat.le_of_lt (hlt _ (list_subset hin)))
  have hfresh : m.oneMore.fresh = m.fresh + 1 := fresh_kzalloc h₀
  have hbound : v.ptr < m.fresh := hlt _ List.mem_cons_self
  refine h.addChunk ho.nodup (hring.listAddTail hnew) (fun a ha hin hne => ?_)
    (fun cv hcv => ?_) ?_ ?_
  · rw [listAddTail_of_not_mem hring hin (Nat.ne_of_lt (hlt a ha)),
      counted_of_ne (Nat.ne_of_lt (hlt a ha)) hne, hz a ha]
  · rw [Store.listAddTail_val, counted_chunk (Nat.ne_of_lt (hlt _ (hptr cv hcv))),
      hz _ (hptr cv hcv)]
  · rw [Store.listAddTail_val, counted, Store.modify_val, if_pos rfl,
      Store.modify_of_ne (Nat.ne_of_lt hbound), hz _ List.mem_cons_self]
  · have hchunk : ((m.counted v.ptr).listAddTail m.fresh v.head m.fresh).val.chunk =
        ⟨some (m.fresh + 1), 0, 0⟩ := by
      have hzero : (m.oneMore.zeroed m.fresh).val = .zero := by
        rw [zeroed_of_ne (by rw [hfresh]; exact Nat.ne_of_lt (Nat.lt_succ_self _))]
        show (m.zeroed m.fresh).val = .zero
        exact zeroed_val_fresh
      rw [Store.listAddTail_val, counted, Store.modify_val, if_neg (Nat.ne_of_gt hbound),
        Store.modify_val, if_pos rfl, hzero, hfresh]
      rfl
    have hself : ∀ a ∈ [m.fresh + 1],
        (m.counted v.ptr).listAddTail m.fresh v.head a = m.counted v.ptr a := by
      intro a ha
      rw [List.mem_singleton.mp ha]
      exact listAddTail_of_not_mem hring hlast (Nat.succ_ne_self _)
    constructor
    · rw [hchunk]
    · have hzeroed : Ring m.oneMore.zeroed (m.fresh + 1) [] := hfresh ▸ ring_zeroed
      exact hzeroed.congr (fun a ha => by rw [hself a ha, counted_next])
        fun a ha => by rw [hself a ha, counted_prev]
    · rfl
    · rw [hchunk]
      rfl
    · rw [hchunk]

/-- **`mtdma_alloc_chunk`** fails and leaves the descriptor as it was, or adds a chunk
without bursts.  It makes two allocations, and the cases are theirs: the first fails, the
second fails and the chunk is given back, or both succeed and the descriptor owns two objects
more. -/
theorem mtdmaAllocChunk_spec (h : DescAt m.mem v d) (ho : Owns m₀ others m v.ids) :
    (∃ m', m.mtdmaAllocChunk v.ptr = (none, m') ∧ ¬ m.AllOk ∧ DescAt m'.mem v d ∧
      Owns m₀ others m' v.ids) ∨
    ∃ m' cv, m.mtdmaAllocChunk v.ptr = (some cv.ptr, m') ∧ (m.AllOk → m'.AllOk) ∧
      DescAt m'.mem { v with chunks := v.chunks ++ [cv] }
        { d with chunks := d.chunks ++ [⟨[], 0⟩] } ∧
      Owns m₀ others m' (DescView.ids { v with chunks := v.chunks ++ [cv] }) := by
  have hne : ∀ a ∈ v.ids, a ≠ m.fresh := fun a ha => Nat.ne_of_lt (ho.lt_fresh ha)
  have hptr : v.ptr ≠ m.fresh := hne _ List.mem_cons_self
  cases h₀ : m.answers 0 with
  | false =>
      refine .inl ⟨_, mtdmaAllocChunk_fail h₀, fun hok => ?_, h, ?_⟩
      · rw [hok 0] at h₀
        contradiction
      · have hnone := ho.kzalloc_none h₀
        rwa [kzalloc_fail h₀] at hnone
  | true =>
      have hown := Owns.oneMore ho h₀
      have hframe : DescAt m.zeroed v d := h.frame fun a ha => zeroed_of_ne (hne a ha)
      cases h₁ : m.answers 1 with
      | false =>
          refine .inl ⟨_, mtdmaAllocChunk_burst_fail h₀ h₁ hptr h.chunk, fun hok => ?_, hframe, ?_⟩
          · rw [hok 1] at h₁
            contradiction
          · have hno : m.oneMore.answers 0 = false := by
              rw [oneMore, answers_kzalloc]
              exact h₁
            have hnone := hown.kzalloc_none hno
            rw [kzalloc_fail hno] at hnone
            exact hnone.kfree (List.Perm.refl _)
      | true =>
          have hyes : m.oneMore.answers 0 = true := by
            rw [oneMore, answers_kzalloc]
            exact h₁
          refine .inr ⟨_, ⟨m.fresh, m.fresh + 1, []⟩, mtdmaAllocChunk_elem h₀ h₁ hptr h.chunk,
            fun hok n => ?_, addChunk_desc h ho h₀, ?_⟩
          · show m.oneMore.kzalloc.2.answers n = true
            rw [answers_kzalloc, oneMore, answers_kzalloc]
            exact hok _
          · refine ((hown.kzalloc hyes).write _ fun a ha => ?_).perm ?_
            · simp only [List.mem_cons, not_or] at ha
              obtain ⟨hlast, hf, hold⟩ := ha
              rw [mem_kzalloc_of_ne hlast, listAddTail_of_not_mem (ring_listed h ho h₀)
                (fun hin => hold (list_subset hin)) hf, counted_of_ne hf fun heq => hold ?_,
                zeroed_of_ne hlast]
              exact heq ▸ List.mem_cons_self
            · rw [show m.oneMore.fresh = m.fresh + 1 from fresh_kzalloc h₀, DescView.ids,
                DescView.ids, List.flatMap_append, List.flatMap_singleton, List.perm_iff_count]
              intro a
              simp only [ChunkView.ids, List.count_cons, List.count_append, List.count_nil]
              omega

/-! ## a new descriptor -/

/-- Memory when the new descriptor has its list head, a chunk without a burst list. -/
def headed (m : KMem) (desc : Nat) : Store Ptr Obj :=
  (m.zeroed.modify m.fresh fun o => { o with chunk.burst := none }).modify desc fun o =>
    { o with desc.chunksAlloc := 0, desc.chunk := some m.fresh }

/-- The first chunk of a descriptor is its list head: it gets no burst, is not counted and
cannot fail half-way. -/
theorem mtdmaAllocChunk_head {desc : Nat} (h : m.answers 0 = true) (hne : desc ≠ m.fresh)
    (hnone : (m.mem desc).val.desc.chunk = none) :
    m.mtdmaAllocChunk desc = (some m.fresh, { m.kzalloc.2 with mem := m.headed desc }) := by
  rw [mtdmaAllocChunk, kzalloc_ok h]
  simp only [initListHead_kzalloc h, zeroed_of_ne hne, hnone]
  rfl

/-- **`mtdma_alloc_desc`** fails and leaves nothing, or leaves an empty descriptor: no chunk,
no size, and two objects of its own, itself and the list head. -/
theorem mtdmaAllocDesc_spec (ho : Owns m₀ others m []) :
    (∃ m', m.mtdmaAllocDesc = (none, m') ∧ ¬ m.AllOk ∧ Owns m₀ others m' []) ∨
    ∃ m' v, m.mtdmaAllocDesc = (some v.ptr, m') ∧ (m.AllOk → m'.AllOk) ∧
      DescAt m'.mem v ⟨[], 0, 0⟩ ∧ Owns m₀ others m' v.ids := by
  cases h₀ : m.answers 0 with
  | false =>
      refine .inl ⟨{ m with answers := fun n => m.answers (n + 1) }, ?_, fun hok => ?_, ?_⟩
      · rw [mtdmaAllocDesc, kzalloc_fail h₀]
      · rw [hok 0] at h₀
        contradiction
      · have hnone := ho.kzalloc_none h₀
        rwa [kzalloc_fail h₀] at hnone
  | true =>
      have hown := ho.kzalloc h₀
      have hfresh := fresh_kzalloc h₀
      have hval : (m.kzalloc.2.mem m.fresh).val = .zero := by
        simp only [kzalloc, if_pos h₀, Function.update_self]
      have hne : m.fresh ≠ m.kzalloc.2.fresh := by rw [hfresh]; exact (Nat.succ_ne_self _).symm
      cases h₁ : m.answers 1 with
      | false =>
          have hno : m.kzalloc.2.answers 0 = false := by rw [answers_kzalloc]; exact h₁
          have hnone := hown.kzalloc_none hno
          rw [kzalloc_fail hno] at hnone
          refine .inl ⟨_, ?_, fun hok => ?_, hnone.kfree (List.Perm.refl _)⟩
          · rw [mtdmaAllocDesc, kzalloc_ok h₀]
            simp only [mtdmaAllocChunk_fail hno]
          · rw [hok 1] at h₁
            contradiction
      | true =>
          have hyes : m.kzalloc.2.answers 0 = true := by rw [answers_kzalloc]; exact h₁
          refine .inr ⟨{ m.kzalloc.2.kzalloc.2 with mem := m.kzalloc.2.headed m.fresh },
            ⟨m.fresh, m.kzalloc.2.fresh, []⟩, ?_, fun hok n => ?_, ?_, ?_⟩
          · rw [mtdmaAllocDesc, kzalloc_ok h₀]
            simp only [mtdmaAllocChunk_head hyes hne (by rw [hval]; rfl)]
          · show m.kzalloc.2.kzalloc.2.answers n = true
            rw [answers_kzalloc, answers_kzalloc]
            exact hok _
          · have hdesc : (m.kzalloc.2.headed m.fresh m.fresh).val.desc =
                ⟨some m.kzalloc.2.fresh, 0, 0, 0⟩ := by
              rw [headed, Store.modify_val, if_pos rfl, Store.modify_of_ne hne, zeroed_of_ne hne,
                hval]
              rfl
            constructor
            · exact congrArg DescObj.chunk hdesc
            · exact ring_zeroed.congr (fun a _ => by simp [headed]) fun a _ => by simp [headed]
            · exact .nil
            · exact congrArg DescObj.chunksAlloc hdesc
            · exact congrArg DescObj.allocSz hdesc
            · exact congrArg DescObj.xferSz hdesc
          · refine ((hown.kzalloc hyes).write _ fun a ha => ?_).perm (List.Perm.swap _ _ _)
            simp only [List.mem_cons, List.not_mem_nil, or_false, not_or] at ha
            rw [mem_kzalloc_of_ne ha.1, headed, Store.modify_of_ne ha.2, Store.modify_of_ne ha.1,
              zeroed_of_ne ha.1]

end NewChunk

/-! ## a new burst -/

/-- What a round of `mtdma_device_transfer` stores in a new burst, and adds to the sizes; the
size is read back from the burst, as the source does. -/
def fillBurst (ch : MtdmaChan) (desc chunk burst : Ptr) (sg : SgEntry) (srcAddr dstAddr : U64)
    (mem : Store Ptr Obj) : Store Ptr Obj :=
  let mem := mem.modify burst fun o => { o with burst.sz := sg.dmaLen }
  let sz := (mem burst).val.burst.sz
  let mem := mem.modify chunk fun o => { o with chunk.sz := o.chunk.sz + sz }
  let mem := mem.modify desc fun o => { o with desc.allocSz := o.desc.allocSz + sz }
  match ch.dir with
  | .memToDev =>
      mem.modify burst fun o => { o with burst.dar := dstAddr, burst.sar := sg.dmaAddress }
  | .devToMem =>
      mem.modify burst fun o => { o with burst.sar := srcAddr, burst.dar := sg.dmaAddress }

section Round

variable {ch : MtdmaChan} {desc chunk burst a : Nat} {sg : SgEntry} {srcAddr dstAddr : U64}
  {mem : Store Ptr Obj}

@[simp] theorem fillBurst_next :
    (fillBurst ch desc chunk burst sg srcAddr dstAddr mem a).next = (mem a).next := by
  unfold fillBurst
  cases ch.dir <;> simp

@[simp] theorem fillBurst_prev :
    (fillBurst ch desc chunk burst sg srcAddr dstAddr mem a).prev = (mem a).prev := by
  unfold fillBurst
  cases ch.dir <;> simp

theorem fillBurst_burst :
    (fillBurst ch desc chunk burst sg srcAddr dstAddr mem a).val.burst =
      if a = burst then ch.burstOf sg (ch.deviceAddr srcAddr dstAddr) else (mem a).val.burst := by
  unfold fillBurst MtdmaChan.burstOf MtdmaChan.deviceAddr
  cases ch.dir <;> simp only [Store.modify_val, apply_ite Obj.burst, ite_self] <;>
    by_cases hb : a = burst <;> simp [hb]

theorem fillBurst_chunk :
    (fillBurst ch desc chunk burst sg srcAddr dstAddr mem a).val.chunk =
      if a = chunk then { (mem a).val.chunk with sz := (mem a).val.chunk.sz + sg.dmaLen }
      else (mem a).val.chunk := by
  unfold fillBurst
  cases ch.dir <;> simp only [Store.modify_val, apply_ite Obj.chunk, ite_self] <;>
    by_cases hc : a = chunk <;> simp [hc]

theorem fillBurst_desc :
    (fillBurst ch desc chunk burst sg srcAddr dstAddr mem a).val.desc =
      if a = desc then { (mem a).val.desc with allocSz := (mem a).val.desc.allocSz + sg.dmaLen }
      else (mem a).val.desc := by
  unfold fillBurst
  cases ch.dir <;> simp only [Store.modify_val, apply_ite Obj.desc, ite_self] <;>
    by_cases hd : a = desc <;> simp [hd]

theorem fillBurst_of_ne (hb : a ≠ burst) (hc : a ≠ chunk) (hd : a ≠ desc) :
    fillBurst ch desc chunk burst sg srcAddr dstAddr mem a = mem a := by
  unfold fillBurst
  cases ch.dir <;> simp only [Store.modify_of_ne hb, Store.modify_of_ne hc, Store.modify_of_ne hd]

end Round

section Rounds

variable {v : DescView} {d : MtdmaDesc} {cv : ChunkView} {c : MtdmaChunk} {cvs : List ChunkView}
  {cs : List MtdmaChunk}

theorem ids_snoc (hv : v.chunks = cvs ++ [cv]) (b : Nat) :
    (b :: v.ids).Perm (DescView.ids { v with chunks := cvs ++ [cv.snoc b] }) := by
  rw [ids_concat hv, ids_concat rfl, List.perm_iff_count]
  intro a
  simp only [ChunkView.ids, ChunkView.snoc, List.count_cons, List.count_append, List.count_nil]
  omega

section Grown

variable {a : Nat}

theorem grown_val : (m.grown cv a).val =
    if a = cv.ptr then
      { (m.zeroed a).val with chunk.burstsAlloc := (m.zeroed a).val.chunk.burstsAlloc + 1 }
    else (m.zeroed a).val := by
  rw [grown, Store.listAddTail_val, Store.modify_val]

@[simp] theorem grown_burst : (m.grown cv a).val.burst = (m.zeroed a).val.burst := by
  rw [grown_val, apply_ite Obj.burst, ite_self]

@[simp] theorem grown_desc : (m.grown cv a).val.desc = (m.zeroed a).val.desc := by
  rw [grown_val, apply_ite Obj.desc, ite_self]

variable (hc : ChunkAt m.mem cv c) (hnew : m.fresh ∉ cv.ids)
include hc hnew

/-- The chunk's list before the new burst is added is as it was: the new object is none of its
own, and counting writes no link. -/
theorem ring_counted : Ring (m.zeroed.modify cv.ptr fun o =>
    { o with chunk.burstsAlloc := o.chunk.burstsAlloc + 1 }) cv.head cv.bursts := by
  have hz : ∀ a ∈ cv.head :: cv.bursts, m.zeroed a = m.mem a := fun a ha =>
    zeroed_of_ne fun heq => hnew (heq ▸ List.mem_cons_of_mem _ ha)
  exact hc.ring.congr (fun a ha => by rw [Store.modify_next, hz a ha])
    fun a ha => by rw [Store.modify_prev, hz a ha]

theorem ring_grown : Ring (m.grown cv) cv.head (cv.snoc m.fresh).bursts :=
  (ring_counted hc hnew).listAddTail fun hin => hnew (List.mem_cons_of_mem _ hin)

theorem grown_of_not_mem (ha : a ∉ cv.ids) (hf : a ≠ m.fresh) : m.grown cv a = m.mem a := by
  have hin : a ∉ cv.head :: cv.bursts := fun hin => ha (List.mem_cons_of_mem _ hin)
  have hptr : a ≠ cv.ptr := fun heq => ha (heq ▸ List.mem_cons_self)
  rw [grown, listAddTail_of_not_mem (ring_counted hc hnew) hin hf, Store.modify_of_ne hptr,
    zeroed_of_ne hf]

theorem grown_links (hnodup : cv.ids.Nodup) :
    (m.grown cv cv.ptr).next = (m.mem cv.ptr).next ∧
      (m.grown cv cv.ptr).prev = (m.mem cv.ptr).prev := by
  have hf : cv.ptr ≠ m.fresh := fun heq => hnew (heq ▸ List.mem_cons_self)
  rw [grown, listAddTail_of_not_mem (ring_counted hc hnew) (List.nodup_cons.mp hnodup).1 hf,
    Store.modify_next, Store.modify_prev, zeroed_of_ne hf]
  exact ⟨rfl, rfl⟩

end Grown

/-- **A round without a new chunk**: the last chunk has one more burst, filled, its size and
the descriptor's are those of the round in `transferRound`, and the new object is the
descriptor's. -/
theorem addBurst_spec (ch : MtdmaChan) (sg : SgEntry) (srcAddr dstAddr : U64)
    (h : DescAt m.mem v d) (ho : Owns m₀ others m v.ids) (hv : v.chunks = cvs ++ [cv])
    (hd : d.chunks = cs ++ [c]) (hok : m.answers 0 = true) :
    ∃ m', m.mtdmaAllocBurst cv.ptr = (some m.fresh, m') ∧
      m'.answers = (fun n => m.answers (n + 1)) ∧
      let mem := fillBurst ch v.ptr cv.ptr m.fresh sg srcAddr dstAddr m'.mem
      DescAt mem { v with chunks := cvs ++ [cv.snoc m.fresh] }
        { d with
          chunks := cs ++ [⟨c.bursts ++ [ch.burstOf sg (ch.deviceAddr srcAddr dstAddr)], c.sz + sg.dmaLen⟩]
          allocSz := d.allocSz + sg.dmaLen } ∧
      Owns m₀ others { m' with mem := mem }
        (DescView.ids { v with chunks := cvs ++ [cv.snoc m.fresh] }) := by
  obtain ⟨-, hc⟩ := forall₂_concat.mp (hv ▸ hd ▸ h.chunks)
  have hcv : ∀ a ∈ cv.ids, a ∈ v.ids := fun a ha => by
    rw [ids_concat hv]
    exact List.mem_cons_of_mem _ (List.mem_cons_of_mem _ (List.mem_append_right _ ha))
  have hnew : m.fresh ∉ v.ids := fun hin => Nat.lt_irrefl _ (ho.lt_fresh hin)
  have hcnew : m.fresh ∉ cv.ids := fun hin => hnew (hcv _ hin)
  have hne : ∀ a ∈ v.ids, a ≠ m.fresh := fun a ha heq => hnew (heq ▸ ha)
  have hz : ∀ a ∈ v.ids, m.zeroed a = m.mem a := fun a ha => zeroed_of_ne (hne a ha)
  have hptr : cv.ptr ∈ v.ids := hcv _ List.mem_cons_self
  have hcnodup : cv.ids.Nodup := by
    have hnodup := ho.nodup
    rw [ids_concat hv] at hnodup
    exact (List.nodup_append.mp (List.nodup_cons.mp (List.nodup_cons.mp hnodup).2).2).2.1
  refine ⟨_, mtdmaAllocBurst_elem hok (hne _ hptr) hc.burst, answers_kzalloc, ?_, ?_⟩
  · show DescAt (fillBurst ch v.ptr cv.ptr m.fresh sg srcAddr dstAddr (m.grown cv)) _ _
    refine h.replaceLast ho.nodup hv hd (fun a ha hcva hva => ?_) ?_ rfl ?_ ?_ ?_
    · rw [fillBurst_of_ne (hne a ha) (fun heq => hcva (heq ▸ List.mem_cons_self)) hva,
        grown_of_not_mem hc hcnew hcva (hne a ha)]
    · rw [fillBurst_desc, if_pos rfl, grown_desc, hz _ List.mem_cons_self, h.allocSz]
    · rw [fillBurst_next, (grown_links hc hcnew hcnodup).1]
    · rw [fillBurst_prev, (grown_links hc hcnew hcnodup).2]
    · have hchunk : (fillBurst ch v.ptr cv.ptr m.fresh sg srcAddr dstAddr (m.grown cv)
          cv.ptr).val.chunk = ⟨some cv.head, BitVec.ofNat 32 cv.bursts.length + 1,
            c.sz + sg.dmaLen⟩ := by
        rw [fillBurst_chunk, if_pos rfl, grown_val, if_pos rfl, hz _ hptr]
        simp only [hc.burst, hc.burstsAlloc, hc.sz]
      constructor
      · show (fillBurst _ _ _ _ _ _ _ _ cv.ptr).val.chunk.burst = _
        rw [hchunk]
        rfl
      · exact (ring_grown hc hcnew).congr (fun a _ => fillBurst_next) fun a _ => fillBurst_prev
      · rw [ChunkView.snoc, List.map_append, List.map_singleton, fillBurst_burst, if_pos rfl,
          ← hc.bursts]
        refine congrArg (· ++ _) (List.map_congr_left fun a ha => ?_)
        have hin := hcv a (List.mem_cons_of_mem _ (List.mem_cons_of_mem _ ha))
        rw [fillBurst_burst, if_neg (hne a hin), grown_burst, hz a hin]
      · show (fillBurst _ _ _ _ _ _ _ _ cv.ptr).val.chunk.burstsAlloc = _
        rw [hchunk, ChunkView.snoc, List.length_append, List.length_singleton, BitVec.ofNat_add]
        rfl
      · show (fillBurst _ _ _ _ _ _ _ _ cv.ptr).val.chunk.sz = _
        rw [hchunk]
  · refine ((ho.kzalloc hok).write _ fun a ha => ?_).perm (ids_snoc hv _)
    obtain ⟨hf, hold⟩ := not_or.mp (fun hin => ha (List.mem_cons.mpr hin))
    rw [fillBurst_of_ne hf (fun heq => hold (heq ▸ hptr))
      (fun heq => hold (heq ▸ List.mem_cons_self)), mem_kzalloc_of_ne hf]
    exact grown_of_not_mem hc hcnew (fun hin => hold (hcv a hin)) hf

end Rounds

end KMem

end MtEmu
