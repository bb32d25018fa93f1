import MtEmu.Engine.Heap

/-!
# MtEmu.Engine.Free

Freeing a descriptor in kernel memory, whole or chunk by chunk.

`DescAt` says that a descriptor lies in memory, with the addresses of its parts in a
`DescView`.  The end of `mtdma_start_transfer` and of each round of `mtdma_free_chunk` is
the same: the first chunk and its bursts are freed, and the rest still lies there
(`dropChunk_spec`).
-/

namespace MtEmu

open ListHead

/-! ## descriptors in memory -/

/-- Where a chunk lies: its address, the head of its list of bursts, and the bursts.  The head
is an object of its own, a burst that carries no data (`mtdma_alloc_burst` makes it first). -/
structure ChunkView where
  ptr : Nat
  head : Nat
  bursts : List Nat

/-- Where a descriptor lies: its address, the head of its list of chunks, and the chunks. -/
structure DescView where
  ptr : Nat
  head : Nat
  chunks : List ChunkView

/-- The objects of a chunk. -/
def ChunkView.ids (v : ChunkView) : List Nat := v.ptr :: v.head :: v.bursts

/-- The objects of a descriptor. -/
def DescView.ids (v : DescView) : List Nat := v.ptr :: v.head :: v.chunks.flatMap ChunkView.ids

/-- The chunk `c` lies at `v`: the ring of its bursts holds the list that `c` has, and the
counters in memory are those of the list. -/
structure ChunkAt (s : Store Ptr Obj) (v : ChunkView) (c : MtdmaChunk) : Prop where
  burst : (s v.ptr).val.chunk.burst = some v.head
  ring : Ring s v.head v.bursts
  bursts : v.bursts.map (fun b => (s b).val.burst) = c.bursts
  burstsAlloc : (s v.ptr).val.chunk.burstsAlloc = BitVec.ofNat 32 v.bursts.length
  sz : (s v.ptr).val.chunk.sz = c.sz

/-- The descriptor `d` lies at `v`, every chunk of it where the view says.  Nothing is said of
the objects being apart: that is what `Owns` says of `v.ids`. -/
structure DescAt (s : Store Ptr Obj) (v : DescView) (d : MtdmaDesc) : Prop where
  chunk : (s v.ptr).val.desc.chunk = some v.head
  ring : Ring s v.head (v.chunks.map ChunkView.ptr)
  chunks : List.Forall₂ (ChunkAt s) v.chunks d.chunks
  chunksAlloc : (s v.ptr).val.desc.chunksAlloc = BitVec.ofNat 32 v.chunks.length
  allocSz : (s v.ptr).val.desc.allocSz = d.allocSz
  xferSz : (s v.ptr).val.desc.xferSz = d.xferSz

variable {s s' : Store Ptr Obj} {v : DescView} {d : MtdmaDesc} {cv : ChunkView} {c : MtdmaChunk}

/-- A chunk stays where it is when its list does, and what its objects hold. -/
theorem ChunkAt.congr (h : ChunkAt s cv c)
    (hnext : ∀ a ∈ cv.head :: cv.bursts, (s' a).next = (s a).next)
    (hprev : ∀ a ∈ cv.head :: cv.bursts, (s' a).prev = (s a).prev)
    (hchunk : (s' cv.ptr).val.chunk = (s cv.ptr).val.chunk)
    (hburst : ∀ a ∈ cv.bursts, (s' a).val.burst = (s a).val.burst) : ChunkAt s' cv c where
  burst := by rw [hchunk, h.burst]
  ring := h.ring.congr hnext hprev
  bursts := by
    rw [← h.bursts]
    exact List.map_congr_left hburst
  burstsAlloc := by rw [hchunk, h.burstsAlloc]
  sz := by rw [hchunk, h.sz]

/-- A change of the `mtdma_desc` itself leaves its chunks alone. -/
theorem ChunkAt.modify (h : ChunkAt s cv c) (a : Nat) {f : Obj → Obj}
    (hf : ∀ o, (f o).chunk = o.chunk ∧ (f o).burst = o.burst) : ChunkAt (s.modify a f) cv c := by
  refine h.congr (fun b _ => by simp) (fun b _ => by simp) ?_ fun b _ => ?_
  · rw [Store.modify_val]
    split
    · exact (hf _).1
    · rfl
  · rw [Store.modify_val]
    split
    · exact (hf _).2
    · rfl

/-- What `mtdma_start_transfer` leaves of a descriptor: the chunk that it hands to the hardware
is freed at once, and its size is added to what was transferred. -/
def MtdmaDesc.started (d : MtdmaDesc) : MtdmaDesc :=
  match d.chunks with
  | [] => d
  | c :: cs => { d with chunks := cs, xferSz := d.xferSz + c.sz }

/-- The chunk that is started is the first one. -/
theorem MtdmaDesc.head_append_take (d : MtdmaDesc) (n : Nat) :
    d.chunks.head?.toList ++ d.started.chunks.take n = d.chunks.take (n + 1) := by
  rw [started]
  cases h : d.chunks with
  | nil => simp [h]
  | cons c cs => rfl

/-- Where that lies. -/
def DescView.started (v : DescView) : DescView := { v with chunks := v.chunks.tail }

/-- Where it lies after `n` starts. -/
theorem DescView.iterate_started (v : DescView) (n : Nat) :
    started^[n] v = { v with chunks := v.chunks.drop n } := by
  induction n generalizing v with
  | zero => rfl
  | succ n ih =>
      rw [Function.iterate_succ_apply, ih, started]
      simp only [List.drop_tail]

/-- No chunk lies where another chunk's bursts do. -/
theorem not_mem_ptrs {cvs : List ChunkView} (h : (cvs.flatMap ChunkView.ids).Nodup)
    (hcv : cv ∈ cvs) {a : Nat} (ha : a ∈ cv.head :: cv.bursts) : a ∉ cvs.map ChunkView.ptr := by
  induction cvs with
  | nil => exact absurd hcv List.not_mem_nil
  | cons cv' cvs ih =>
      rw [List.flatMap_cons, List.nodup_append] at h
      obtain ⟨hfst, hrest, hapart⟩ := h
      have hsub : ∀ cv ∈ cvs, cv.ids ⊆ cvs.flatMap ChunkView.ids := fun cv hcv a ha =>
        List.mem_flatMap.mpr ⟨cv, hcv, ha⟩
      rw [List.map_cons, List.mem_cons, not_or]
      cases List.mem_cons.mp hcv with
      | inl heq =>
          subst heq
          constructor
          · exact fun heq => (List.nodup_cons.mp hfst).1 (heq ▸ ha)
          · intro hin
            obtain ⟨cv', hcv', heq⟩ := List.mem_map.mp hin
            exact hapart a (List.mem_cons_of_mem _ ha) a
              (hsub cv' hcv' (heq ▸ List.mem_cons_self)) rfl
      | inr hin =>
          constructor
          · exact fun heq => hapart a (heq ▸ List.mem_cons_self) a
              (hsub cv hin (List.mem_cons_of_mem _ ha)) rfl
          · exact ih hrest hin

namespace KMem

variable {m₀ m : KMem} {others : Nat → Bool} {ids rest : List Nat}

/-! ## bursts -/

/-- Of `ids`, the links are as before, and what is not `p` holds what it held.  `p` is the
object whose counter goes down with each object freed. -/
def Kept (p : Nat) (ids : List Nat) (m m' : KMem) : Prop :=
  ∀ a ∈ ids, (m'.mem a).next = (m.mem a).next ∧ (m'.mem a).prev = (m.mem a).prev ∧
    (a ≠ p → (m'.mem a).val = (m.mem a).val)

/-- Before each round of `mtdma_free_burst`, `xs` being the bursts that are left. -/
structure Freeing (m₀ : KMem) (others : Nat → Bool) (m : KMem) (cv : ChunkView) (rest : List Nat)
    (xs : List Nat) (m' : KMem) : Prop where
  ring : Ring m'.mem cv.head xs
  owns : Owns m₀ others m' (cv.head :: xs ++ rest)
  kept : Kept cv.ptr rest m m'

theorem Freeing.round {xs : List Nat} {x : Nat} {m' : KMem} (hptr : cv.ptr ∈ rest)
    (h : Freeing m₀ others m cv rest (x :: xs) m') :
    Freeing m₀ others m cv rest xs (dropBurst cv.ptr x m') := by
  have hmem : (dropBurst cv.ptr x m').mem = (m'.mem.listDel x).modify cv.ptr fun o =>
      { o with chunk.burstsAlloc := o.chunk.burstsAlloc - 1 } := rfl
  have hp : (cv.head :: (x :: xs) ++ rest).Perm (x :: (cv.head :: xs ++ rest)) :=
    List.Perm.swap x cv.head (xs ++ rest)
  constructor
  · rw [hmem]
    exact h.ring.listDel.congr (fun a _ => by simp) fun a _ => by simp
  · refine (((h.owns.write _ fun a ha => ?_).kfree hp).write _ fun a ha => ?_)
    · refine listDel_of_not_mem h.ring fun hin => ha ?_
      simp only [List.mem_cons, List.mem_append] at hin ⊢
      tauto
    · refine Store.modify_of_ne fun heq => ha (heq ▸ ?_)
      exact List.mem_append_right _ hptr
  · intro a ha
    have hnot : a ∉ cv.head :: x :: xs := fun hin =>
      (List.nodup_append.mp h.owns.nodup).2.2 a hin a ha rfl
    obtain ⟨hnext, hprev, hval⟩ := h.kept a ha
    have hdel : m'.mem.listDel x a = m'.mem a := listDel_of_not_mem h.ring fun hin => hnot (by
      simp only [List.mem_cons] at hin ⊢
      tauto)
    rw [hmem]
    refine ⟨by simp [hdel, hnext], by simp [hdel, hprev], fun hne => ?_⟩
    simp [hdel, hne, hval hne]

/-- **`mtdma_free_burst`** frees the bursts and their list head, and nothing else. -/
theorem mtdmaFreeBurst_spec (hc : ChunkAt m.mem cv c)
    (ho : Owns m₀ others m (cv.head :: cv.bursts ++ rest)) (hptr : cv.ptr ∈ rest) :
    ∃ m', m.mtdmaFreeBurst cv.ptr = some m' ∧ Owns m₀ others m' rest ∧ Kept cv.ptr rest m m' := by
  have hfuel : cv.bursts.length < m.fresh + 1 :=
    Nat.lt_succ_of_le (ho.length_le (List.nodup_cons.mp hc.ring.nodup).2 fun a ha =>
      List.mem_append_left rest (List.mem_cons_of_mem _ ha))
  have hstart : Freeing m₀ others m cv rest cv.bursts m :=
    ⟨hc.ring, ho, fun _ _ => ⟨rfl, rfl, fun _ => rfl⟩⟩
  obtain ⟨m', hloop, hend⟩ := forEachSafe_spec mem
    (fun child m => some (dropBurst cv.ptr child m)) (Freeing m₀ others m cv rest) (fun _ _ h => h.ring)
    (fun x xs m' h => ⟨_, rfl, h.round hptr⟩) hstart hfuel
  have hkfree := hend.owns.kfree (List.Perm.refl _)
  refine ⟨_, ?_, hkfree.write (m'.mem.modify cv.ptr fun o => { o with chunk.burst := none })
    fun a ha => Store.modify_of_ne fun heq => ha (heq ▸ hptr), ?_⟩
  · simp only [mtdmaFreeBurst, hc.burst, Option.bind_eq_bind, Option.bind_some, forEach, hloop]
    rfl
  · intro a ha
    obtain ⟨hnext, hprev, hval⟩ := hend.kept a ha
    refine ⟨by simp [hnext], by simp [hprev], fun hne => ?_⟩
    simp [hne, hval hne]

/-! ## chunks -/

theorem ids_perm {cvs : List ChunkView} (hv : v.chunks = cv :: cvs) :
    v.ids.Perm (cv.head :: cv.bursts ++ cv.ptr :: DescView.ids { v with chunks := cvs }) := by
  rw [DescView.ids, DescView.ids, hv, List.flatMap_cons, List.perm_iff_count]
  intro a
  simp only [ChunkView.ids, List.count_cons, List.count_append]
  omega

/-- When the first chunk is taken off the ring of a descriptor, the other chunks lie where
they did: only their places in the ring are linked anew. -/
theorem chunks_listDel {mem mem₁ : Store Ptr Obj} {head p : Ptr} {cvs : List ChunkView}
    {cs : List MtdmaChunk} (hcs : List.Forall₂ (ChunkAt mem) cvs cs)
    (hring : Ring mem₁ head (p :: cvs.map ChunkView.ptr))
    (hnodup : (head :: cvs.flatMap ChunkView.ids).Nodup)
    (hkept : ∀ a ∈ cvs.flatMap ChunkView.ids, (mem₁ a).next = (mem a).next ∧
      (mem₁ a).prev = (mem a).prev ∧ (mem₁ a).val = (mem a).val) :
    List.Forall₂ (ChunkAt (mem₁.listDel p)) cvs cs := by
  obtain ⟨hhead, hflat⟩ := List.nodup_cons.mp hnodup
  refine ((List.forall₂_and_left cvs cs).mpr ⟨fun cv hcv => hcv, hcs⟩).imp ?_
  intro cv c hcc
  obtain ⟨hcv, hc⟩ := hcc
  have hids : ∀ a ∈ cv.ids, a ∈ cvs.flatMap ChunkView.ids := fun a ha =>
    List.mem_flatMap.mpr ⟨cv, hcv, ha⟩
  have hinner : ∀ a ∈ cv.head :: cv.bursts, mem₁.listDel p a = mem₁ a := by
    intro a ha
    refine listDel_of_not_mem hring fun hin => ?_
    cases List.mem_cons.mp hin with
    | inl heq => exact hhead (heq ▸ hids a (List.mem_cons_of_mem _ ha))
    | inr hin => exact not_mem_ptrs hflat hcv ha hin
  have hk : ∀ a ∈ cv.ids, (mem₁ a).next = (mem a).next ∧ (mem₁ a).prev = (mem a).prev ∧
      (mem₁ a).val = (mem a).val := fun a ha => hkept a (hids a ha)
  refine hc.congr (fun a ha => ?_) (fun a ha => ?_) ?_ fun a ha => ?_
  · rw [hinner a ha, (hk a (List.mem_cons_of_mem _ ha)).1]
  · rw [hinner a ha, (hk a (List.mem_cons_of_mem _ ha)).2.1]
  · rw [Store.listDel_val, (hk cv.ptr List.mem_cons_self).2.2]
  · rw [Store.listDel_val, (hk a (List.mem_cons_of_mem _ (List.mem_cons_of_mem _ ha))).2.2]

/-- **One chunk less**: the first chunk of a descriptor and its bursts are freed, and what
is left of the descriptor lies where it did. -/
theorem dropChunk_spec {cvs : List ChunkView} {cs : List MtdmaChunk} (h : DescAt m.mem v d)
    (ho : Owns m₀ others m v.ids) (hv : v.chunks = cv :: cvs) (hd : d.chunks = c :: cs) :
    ∃ m', m.dropChunk v.ptr cv.ptr = some m' ∧
      DescAt m'.mem { v with chunks := cvs } { d with chunks := cs } ∧
      Owns m₀ others m' (DescView.ids { v with chunks := cvs }) := by
  have hring := h.ring
  have hcount := h.chunksAlloc
  obtain ⟨hc, hcs⟩ := List.forall₂_cons.mp (hv ▸ hd ▸ h.chunks)
  rw [hv] at hring hcount
  obtain ⟨m₁, hfree, ho₁, hkept⟩ :=
    mtdmaFreeBurst_spec hc (ho.perm (ids_perm hv)) List.mem_cons_self
  have hptrs : ∀ a ∈ v.head :: cv.ptr :: cvs.map ChunkView.ptr,
      a ∈ cv.ptr :: DescView.ids { v with chunks := cvs } := by
    intro a ha
    simp only [DescView.ids, List.mem_cons, List.mem_map, List.mem_flatMap] at ha ⊢
    rcases ha with ha | ha | ⟨cv', hcv', rfl⟩
    · exact .inr (.inr (.inl ha))
    · exact .inl ha
    · exact .inr (.inr (.inr ⟨cv', hcv', List.mem_cons_self⟩))
  have hring₁ : Ring m₁.mem v.head (cv.ptr :: cvs.map ChunkView.ptr) :=
    hring.congr (fun a ha => (hkept a (hptrs a ha)).1) fun a ha => (hkept a (hptrs a ha)).2.1
  have hdel : ∀ a ∉ v.head :: cvs.map ChunkView.ptr, m₁.mem.listDel cv.ptr a = m₁.mem a :=
    fun a ha => listDel_of_not_mem hring₁ ha
  obtain ⟨hnot, hnodup⟩ := List.nodup_cons.mp ho₁.nodup
  have hval : (m₁.mem v.ptr).val = (m.mem v.ptr).val :=
    (hkept v.ptr (List.mem_cons_of_mem _ List.mem_cons_self)).2.2 fun heq =>
      hnot (heq ▸ List.mem_cons_self)
  let mem := (m₁.mem.listDel cv.ptr).modify v.ptr fun o =>
    { o with desc.chunksAlloc := o.desc.chunksAlloc - 1 }
  have hmem : ∀ a ∉ cv.ptr :: DescView.ids { v with chunks := cvs }, mem a = m₁.mem a := by
    intro a ha
    refine (Store.modify_of_ne fun heq => ha ?_).trans (hdel a fun hin => ha (hptrs a ?_))
    · exact heq ▸ List.mem_cons_of_mem _ List.mem_cons_self
    · simp only [List.mem_cons] at hin ⊢
      tauto
  refine ⟨{ m₁ with mem := mem }.kfree cv.ptr, ?_, ?_, (ho₁.write mem hmem).kfree (List.Perm.refl _)⟩
  · simp only [dropChunk, hfree, Option.bind_eq_bind, Option.bind_some]
    rfl
  · show DescAt mem _ _
    constructor
    · simp [mem, hval, h.chunk]
    · exact hring₁.listDel.congr (fun a _ => by simp [mem]) fun a _ => by simp [mem]
    · have hrest : ∀ a ∈ cvs.flatMap ChunkView.ids, a ∈ DescView.ids { v with chunks := cvs } :=
        fun a ha => List.mem_cons_of_mem _ (List.mem_cons_of_mem _ ha)
      refine (chunks_listDel hcs hring₁ (List.nodup_cons.mp hnodup).2 fun a ha => ?_).imp
        fun _ _ hlinked => hlinked.modify v.ptr fun _ => ⟨rfl, rfl⟩
      obtain ⟨hnext, hprev, hsame⟩ := hkept a (List.mem_cons_of_mem _ (hrest a ha))
      exact ⟨hnext, hprev, hsame fun heq => hnot (heq ▸ hrest a ha)⟩
    · simp [mem, hval, hcount, BitVec.ofNat_add]
    · simp [mem, hval, h.allocSz]
    · simp [mem, hval, h.xferSz]

/-! ## starting -/

/-- The hardware is written what lies there. -/
theorem readChunk_eq (hc : ChunkAt m.mem cv c) (hlen : cv.bursts.length ≤ m.fresh) :
    m.readChunk cv.ptr = some c := by
  simp only [readChunk, hc.burst, hc.ring.elements hlen, hc.bursts, hc.sz, Option.bind_eq_bind,
    Option.bind_some]
  rfl

/-- **`mtdma_start_transfer`** writes the first chunk of the first issued descriptor to the
hardware and frees it. -/
theorem mtdmaStartTransfer_spec {vc : VirtDmaChan Unit} (h : DescAt m.mem v d)
    (ho : Owns m₀ others m v.ids) (hvc : vc.vchanNextDesc.map (·.id) = some v.ptr) :
    ∃ m', m.mtdmaStartTransfer vc = some (m', d.chunks.head?) ∧
      DescAt m'.mem v.started d.started ∧ Owns m₀ others m' v.started.ids := by
  obtain ⟨vd, hvd, hid⟩ := Option.map_eq_some_iff.mp hvc
  have hnext := h.ring.next_head
  have hchunks := h.chunks
  cases hv : v.chunks with
  | nil =>
      rw [hv] at hnext hchunks
      have hd : d.chunks = [] := List.forall₂_nil_left_iff.mp hchunks
      have hsame : v.started = v := by
        obtain ⟨ptr, head, chunks⟩ := v
        obtain rfl : chunks = [] := hv
        rfl
      refine ⟨m, ?_, ?_, ?_⟩
      · simp only [mtdmaStartTransfer, hvd, hid, h.chunk, hnext, hd, List.map_nil, List.headD_nil,
          Option.bind_eq_bind, Option.bind_some, if_true]
        rfl
      · rw [hsame, MtdmaDesc.started, hd]
        exact h
      · rw [hsame]
        exact ho
  | cons cv cvs =>
      rw [hv] at hnext hchunks
      obtain ⟨c, cs, hc, -, hd⟩ := List.forall₂_cons_left_iff.mp hchunks
      have hne : cv.ptr ≠ v.head := fun heq => by
        have hnodup := h.ring.nodup
        rw [hv] at hnodup
        simp [heq] at hnodup
      have hlen : cv.bursts.length ≤ m.fresh :=
        ho.length_le (List.nodup_cons.mp hc.ring.nodup).2 fun a ha =>
          (ids_perm hv).mem_iff.mpr (List.mem_append_left _ (List.mem_cons_of_mem _ ha))
      let mem := m.mem.modify v.ptr fun o =>
        { o with desc.xferSz := o.desc.xferSz + (m.mem cv.ptr).val.chunk.sz }
      have ho' : Owns m₀ others { m with mem := mem } v.ids :=
        ho.write mem fun a ha => Store.modify_of_ne fun heq => ha (heq ▸ List.mem_cons_self)
      have h' : DescAt mem v { d with xferSz := d.xferSz + c.sz } := by
        constructor
        · simp [mem, h.chunk]
        · exact h.ring.congr (fun a _ => by simp [mem]) fun a _ => by simp [mem]
        · exact h.chunks.imp fun cv c hc => hc.modify v.ptr fun _ => ⟨rfl, rfl⟩
        · simp [mem, h.chunksAlloc]
        · simp [mem, h.allocSz]
        · simp [mem, h.xferSz, hc.sz]
      obtain ⟨m', hdrop, hdesc, howns⟩ :=
        @dropChunk_spec v _ cv c m₀ { m with mem := mem } others cvs cs h' ho' hv hd
      have hstarted : v.started = { v with chunks := cvs } := by rw [DescView.started, hv]; rfl
      refine ⟨m', ?_, ?_, ?_⟩
      · simp only [mtdmaStartTransfer, hvd, hid, h.chunk, hnext, List.map_cons, List.headD_cons,
          Option.bind_eq_bind, Option.bind_some, if_neg hne, readChunk_eq hc hlen, hd,
          List.head?_cons]
        rw [hdrop]
        rfl
      · rw [hstarted, MtdmaDesc.started, hd]
        exact hdesc
      · rw [hstarted]
        exact howns

/-- `mtdma_start_transfer`, `n` times, with the chunks that are handed to the hardware.  In the
driver an interrupt comes between two of them, which leaves the descriptor alone. -/
def starts (vc : VirtDmaChan Unit) : Nat → KMem → Option (KMem × List MtdmaChunk)
  | 0, m => some (m, [])
  | n + 1, m => do
      let (m, c) ← m.mtdmaStartTransfer vc
      let (m, cs) ← starts vc n m
      return (m, c.toList ++ cs)

/-- They are the first `n`, and the rest of the descriptor lies where it did. -/
theorem starts_spec {vc : VirtDmaChan Unit} (n : Nat) (h : DescAt m.mem v d)
    (ho : Owns m₀ others m v.ids) (hvc : vc.vchanNextDesc.map (·.id) = some v.ptr) :
    ∃ m', starts vc n m = some (m', d.chunks.take n) ∧
      DescAt m'.mem (DescView.started^[n] v) (MtdmaDesc.started^[n] d) ∧
      Owns m₀ others m' (DescView.started^[n] v).ids := by
  induction n generalizing m v d with
  | zero => exact ⟨m, rfl, h, ho⟩
  | succ n ih =>
      obtain ⟨m₁, hstart, h₁, ho₁⟩ := mtdmaStartTransfer_spec h ho hvc
      obtain ⟨m', hstarts, h', ho'⟩ := ih h₁ ho₁ hvc
      refine ⟨m', ?_, h', ho'⟩
      simp only [starts, hstart, hstarts, Option.bind_eq_bind, Option.bind_some]
      rw [MtdmaDesc.head_append_take]
      rfl

/-! ## freeing the descriptor -/

/-- Before each round of `mtdma_free_chunk`, `xs` being the chunks that are left. -/
def Dropping (m₀ : KMem) (others : Nat → Bool) (v : DescView) (xs : List Nat) (m : KMem) : Prop :=
  ∃ v' d, v'.ptr = v.ptr ∧ v'.head = v.head ∧ v'.chunks.map ChunkView.ptr = xs ∧
    DescAt m.mem v' d ∧ Owns m₀ others m v'.ids

theorem Dropping.round {x : Nat} {xs : List Nat} (h : Dropping m₀ others v (x :: xs) m) :
    ∃ m', dropChunk v.ptr x m = some m' ∧ Dropping m₀ others v xs m' := by
  obtain ⟨v', d, hptr, hhead, hxs, hdesc, howns⟩ := h
  cases hv : v'.chunks with
  | nil =>
      rw [hv] at hxs
      contradiction
  | cons cv cvs =>
      rw [hv, List.map_cons, List.cons.injEq] at hxs
      obtain ⟨rfl, rfl⟩ := hxs
      obtain ⟨c, cs, -, -, hd⟩ := List.forall₂_cons_left_iff.mp (hv ▸ hdesc.chunks)
      obtain ⟨m', hdrop, hdesc', howns'⟩ := dropChunk_spec hdesc howns hv hd
      exact ⟨m', hptr ▸ hdrop, { v' with chunks := cvs }, _, hptr, hhead, rfl, hdesc', howns'⟩

theorem mtdmaFreeChunk_spec (h : DescAt m.mem v d) (ho : Owns m₀ others m v.ids) :
    ∃ m', m.mtdmaFreeChunk v.ptr = some m' ∧ Owns m₀ others m' [v.ptr] := by
  have hfuel : (v.chunks.map ChunkView.ptr).length < m.fresh + 1 := by
    refine Nat.lt_succ_of_le (ho.length_le (List.nodup_cons.mp h.ring.nodup).2 fun a ha => ?_)
    obtain ⟨cv, hcv, rfl⟩ := List.mem_map.mp ha
    exact List.mem_cons_of_mem _ (List.mem_cons_of_mem _
      (List.mem_flatMap.mpr ⟨cv, hcv, List.mem_cons_self⟩))
  obtain ⟨m', hloop, v', d', hptr, hhead, hnil, -, howns⟩ := forEachSafe_spec mem (dropChunk v.ptr)
    (Dropping m₀ others v) (fun xs m' hd => by
      obtain ⟨v', d', -, hhead, rfl, hdesc, -⟩ := hd
      exact hhead ▸ hdesc.ring) (fun x xs m' hd => hd.round) ⟨v, d, rfl, rfl, rfl, h, ho⟩ hfuel
  have hids : v'.ids = [v.ptr, v.head] := by
    rw [DescView.ids, List.map_eq_nil_iff.mp hnil, hptr, hhead]
    rfl
  rw [hids] at howns
  have hkfree := howns.kfree (List.Perm.swap v.head v.ptr [])
  refine ⟨_, ?_, hkfree.write (m'.mem.modify v.ptr fun o => { o with desc.chunk := none })
    fun a ha => Store.modify_of_ne fun heq => ha (heq ▸ List.mem_cons_self)⟩
  simp only [mtdmaFreeChunk, h.chunk, forEach, hloop, Option.bind_eq_bind, Option.bind_some]
  rfl

/-- **`mtdma_free_desc`** frees all that is left of a descriptor. -/
theorem mtdmaFreeDesc_spec (h : DescAt m.mem v d) (ho : Owns m₀ others m v.ids) :
    ∃ m', m.mtdmaFreeDesc v.ptr = some m' ∧ Owns m₀ others m' [] := by
  obtain ⟨m', hfree, howns⟩ := mtdmaFreeChunk_spec h ho
  exact ⟨m'.kfree v.ptr, by rw [mtdmaFreeDesc, hfree]; rfl, howns.kfree (List.Perm.refl _)⟩

end KMem

end MtEmu
