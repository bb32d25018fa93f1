import Mathlib.Data.Nat.Cast.Basic
import Mathlib.Algebra.BigOperators.Fin
import MtEmu.Lib.Loop

/-!
# MtEmu.Lib.Copy

What a list of copy segments copies.

A segment moves `len` bytes from `src` to `dst`; its meaning is the list of
its (source, destination) byte pairs, in order.  `copied` is that list for a
run of segments and `block n a b` is the copy of one block of `n` bytes, so
`copied segs = block n a b` says that the segments copy the block: every
byte once, in order, at the same offset.

Proofs use `Covers`, which walks the segments and checks that each starts
where the one before it ended.  The two agree when no segment is empty
(`copied_eq_block_iff`); `covers_append` splits a run in two, and
`covers_of_offsets` covers a block by lengths that add up, such as the
`pieces` of a block.  Addresses live in any `AddMonoidWithOne`, so
fixed-width address arithmetic is covered.  `store` is what byte pairs do to
a memory.
-/

namespace Copy

/-- One copy: `len` bytes from `src` to `dst`. -/
structure Seg (α : Type) where
  src : α
  dst : α
  len : Nat

variable {α : Type} [AddMonoidWithOne α]

/-- The byte pairs of a block of `n` bytes from `a` to `b`, in order. -/
def block (n : Nat) (a b : α) : List (α × α) :=
  (List.range n).map fun k : Nat => (a + (k : α), b + (k : α))

/-- The byte pairs a segment copies, in order. -/
def Seg.bytes (s : Seg α) : List (α × α) := block s.len s.src s.dst

/-- The byte pairs a run of segments copies, in order. -/
def copied (segs : List (Seg α)) : List (α × α) := segs.flatMap Seg.bytes

/-- The number of bytes a run of segments moves. -/
def total (segs : List (Seg α)) : Nat := (segs.map Seg.len).sum

/-- The segments cover `n` bytes from `a` to `b`: each starts where the one
before it ended, and nothing is left at the end. -/
def Covers (a b : α) : Nat → List (Seg α) → Prop
  | n, [] => n = 0
  | n, s :: segs => s.src = a ∧ s.dst = b ∧ s.len ≤ n ∧
      Covers (a + (s.len : α)) (b + (s.len : α)) (n - s.len) segs

/-! ## blocks -/

@[simp] theorem length_block (n : Nat) (a b : α) : (block n a b).length = n := by
  simp [block]

theorem block_add (m n : Nat) (a b : α) :
    block (m + n) a b = block m a b ++ block n (a + (m : α)) (b + (m : α)) := by
  simp [block, List.range_add, Function.comp_def, add_assoc]

theorem head?_block {n : Nat} (h : 0 < n) (a b : α) : (block n a b).head? = some (a, b) := by
  obtain ⟨n, rfl⟩ := Nat.exists_eq_succ_of_ne_zero h.ne'
  simp [block, List.range_succ_eq_map]

/-! ## sizes -/

omit [AddMonoidWithOne α] in
@[simp] theorem total_nil : total ([] : List (Seg α)) = 0 := rfl

omit [AddMonoidWithOne α] in
@[simp] theorem total_cons (s : Seg α) (segs : List (Seg α)) :
    total (s :: segs) = s.len + total segs := by
  simp [total]

omit [AddMonoidWithOne α] in
@[simp] theorem total_append (xs ys : List (Seg α)) : total (xs ++ ys) = total xs + total ys := by
  simp [total]

@[simp] theorem length_copied (segs : List (Seg α)) : (copied segs).length = total segs := by
  induction segs with
  | nil => rfl
  | cons s segs ih =>
      simp only [copied, List.flatMap_cons, List.length_append, total_cons] at ih ⊢
      rw [ih, Seg.bytes, length_block]

theorem Covers.total_eq : {segs : List (Seg α)} → {a b : α} → {n : Nat} →
    Covers a b n segs → total segs = n
  | [], _, _, _, h => h.symm
  | s :: segs, _, _, n, ⟨_, _, hle, h⟩ => by
      rw [total_cons, Covers.total_eq h]
      omega

/-! ## the two readings agree -/

/-- Segments that cover a block copy it. -/
theorem Covers.copied_eq : {segs : List (Seg α)} → {a b : α} → {n : Nat} →
    Covers a b n segs → copied segs = block n a b
  | [], _, _, _, h => by rw [show _ = 0 from h]; rfl
  | s :: segs, _, _, n, ⟨hs, hd, hle, h⟩ => by
      obtain ⟨m, rfl⟩ := Nat.exists_eq_add_of_le hle
      rw [Nat.add_sub_cancel_left] at h
      rw [block_add, ← h.copied_eq]
      simp [copied, Seg.bytes, hs, hd]

/-- Non-empty segments that copy a block cover it. -/
theorem covers_of_copied : {segs : List (Seg α)} → {a b : α} → {n : Nat} →
    (∀ s ∈ segs, 0 < s.len) → copied segs = block n a b → Covers a b n segs
  | [], a, b, n, _, h => by
      have hlen := congrArg List.length h
      rw [length_copied, length_block] at hlen
      exact hlen.symm
  | s :: segs, a, b, n, hpos, h => by
      have hs : 0 < s.len := hpos s List.mem_cons_self
      have hlen : s.len + total segs = n := by
        rw [← total_cons, ← length_copied, h, length_block]
      have hsplit : s.bytes ++ copied segs =
          block s.len a b ++ block (total segs) (a + (s.len : α)) (b + (s.len : α)) := by
        rw [← block_add, hlen, ← h]
        rfl
      obtain ⟨hfst, hsnd⟩ := List.append_inj hsplit (by rw [Seg.bytes, length_block, length_block])
      have hhead : some (s.src, s.dst) = some (a, b) := by
        rw [← head?_block hs, ← head?_block hs, ← hfst, Seg.bytes]
      obtain ⟨hsrc, hdst⟩ := Prod.mk.inj (Option.some.inj hhead)
      refine ⟨hsrc, hdst, by omega, ?_⟩
      rw [show n - s.len = total segs by omega]
      exact covers_of_copied (fun t ht => hpos t (List.mem_cons_of_mem s ht)) hsnd

/-- **Reading of `Covers`**: non-empty segments copy a block exactly when
they cover it. -/
theorem copied_eq_block_iff {segs : List (Seg α)} {a b : α} {n : Nat}
    (hpos : ∀ s ∈ segs, 0 < s.len) : copied segs = block n a b ↔ Covers a b n segs :=
  ⟨covers_of_copied hpos, Covers.copied_eq⟩

/-! ## splitting a run -/

/-- A run covers a block exactly when its first part covers a front of the
block and its second part the rest. -/
theorem covers_append (xs ys : List (Seg α)) (a b : α) (n : Nat) :
    Covers a b n (xs ++ ys) ↔
      total xs ≤ n ∧ Covers a b (total xs) xs ∧
        Covers (a + (total xs : α)) (b + (total xs : α)) (n - total xs) ys := by
  induction xs generalizing a b n with
  | nil => simp [Covers]
  | cons s xs ih =>
      simp only [List.cons_append, Covers, total_cons, ih, Nat.cast_add, add_assoc,
        Nat.add_sub_cancel_left]
      constructor
      · rintro ⟨hs, hd, hle, hle', hx, hy⟩
        refine ⟨by omega, ⟨hs, hd, by omega, hx⟩, ?_⟩
        rwa [← Nat.sub_sub]
      · rintro ⟨hle, ⟨hs, hd, _, hx⟩, hy⟩
        refine ⟨hs, hd, by omega, by omega, hx, ?_⟩
        rwa [Nat.sub_sub]

/-- Two runs that cover adjacent blocks cover their union. -/
theorem Covers.append {xs ys : List (Seg α)} {a b : α} {m n : Nat} (hx : Covers a b m xs)
    (hy : Covers (a + (m : α)) (b + (m : α)) n ys) : Covers a b (m + n) (xs ++ ys) := by
  rw [covers_append, hx.total_eq]
  exact ⟨by omega, hx, by rwa [Nat.add_sub_cancel_left]⟩

/-- Segments of lengths `f 0`, `f 1`, … that start where the lengths before
them add up to cover their sum. -/
theorem covers_of_offsets {segs : List (Seg α)} {a b : α} {f : Nat → Nat}
    (h : ∀ k s, segs[k]? = some s →
      s.src = a + ((∑ i ∈ Finset.range k, f i : Nat) : α) ∧
        s.dst = b + ((∑ i ∈ Finset.range k, f i : Nat) : α) ∧ s.len = f k) :
    Covers a b (∑ i ∈ Finset.range segs.length, f i) segs := by
  induction segs generalizing a b f with
  | nil => rfl
  | cons s segs ih =>
      obtain ⟨hs, hd, hl⟩ := h 0 s rfl
      have hrest := @ih (a + (f 0 : α)) (b + (f 0 : α)) (fun k => f (k + 1)) fun k t ht => by
        have := h (k + 1) t (by simpa using ht)
        rw [Finset.sum_range_succ', Nat.add_comm] at this
        simpa [add_assoc] using this
      rw [List.length_cons, Finset.sum_range_succ']
      refine ⟨by simpa using hs, by simpa using hd, by omega, ?_⟩
      rwa [hl, Nat.add_sub_cancel]

/-- A segment of a run that covers a block lies in it. -/
theorem Covers.seg_bounds {segs : List (Seg ℤ)} {a b : ℤ} {n : Nat} (h : Covers a b n segs)
    {s : Seg ℤ} (hs : s ∈ segs) : a ≤ s.src ∧ s.src + s.len ≤ a + n := by
  induction segs generalizing a b n with
  | nil => contradiction
  | cons t segs ih =>
      obtain ⟨hsrc, -, hle, hrest⟩ := h
      obtain rfl | hs := List.mem_cons.mp hs
      · omega
      · have := ih hrest hs
        omega

/-- Where a run that covers something starts. -/
theorem Covers.start_unique {segs : List (Seg α)} {a b a' b' : α} {m n : Nat} (hne : segs ≠ [])
    (h : Covers a b m segs) (h' : Covers a' b' n segs) : a = a' := by
  cases segs with
  | nil => exact absurd rfl hne
  | cons s segs => exact h.1.symm.trans h'.1

/-- Runs that cover `n` bytes each, one block after the other, cover all the
blocks. -/
theorem covers_flatten {runs : List (List (Seg α))} {a b : α} {n : Nat}
    (h : ∀ k segs, runs[k]? = some segs →
      Covers (a + ((k * n : Nat) : α)) (b + ((k * n : Nat) : α)) n segs) :
    Covers a b (runs.length * n) runs.flatten := by
  induction runs generalizing a b with
  | nil => simp [Covers]
  | cons segs runs ih =>
      have hhead := h 0 segs rfl
      simp only [Nat.zero_mul, Nat.cast_zero, add_zero] at hhead
      have hrest := @ih (a + (n : α)) (b + (n : α)) fun k segs hk => by
        have := h (k + 1) segs hk
        simpa [Nat.succ_mul, Nat.add_comm, add_assoc] using this
      rw [List.length_cons, Nat.succ_mul, Nat.add_comm, List.flatten_cons]
      exact hhead.append hrest

omit [AddMonoidWithOne α] in
/-- Runs of `n` bytes each move `n` bytes a run. -/
theorem total_flatten {runs : List (List (Seg α))} {n : Nat} (h : ∀ segs ∈ runs, total segs = n) :
    total runs.flatten = runs.length * n := by
  induction runs with
  | nil => simp
  | cons segs runs ih =>
      rw [List.flatten_cons, total_append, h segs List.mem_cons_self,
        ih fun t ht => h t (List.mem_cons_of_mem segs ht), List.length_cons, Nat.succ_mul,
        Nat.add_comm]

/-- When runs of `n` bytes each cover a block together, run `k` starts
`k * n` bytes into it. -/
theorem Covers.start_of_flatten {runs : List (List (Seg α))} {a b : α} {m n : Nat}
    {src dst : Nat → α} (hn : n ≠ 0) (h : Covers a b m runs.flatten)
    (hruns : ∀ k segs, runs[k]? = some segs → Covers (src k) (dst k) n segs) {k : Nat}
    (hk : k < runs.length) : src k = a + ((k * n : Nat) : α) := by
  have hrun := hruns k _ (List.getElem?_eq_getElem hk)
  have htotal : total (runs.take k).flatten = k * n := by
    rw [total_flatten, List.length_take, Nat.min_eq_left hk.le]
    intro segs hsegs
    obtain ⟨i, hi⟩ := List.mem_iff_getElem?.mp (List.mem_of_mem_take hsegs)
    exact (hruns i segs hi).total_eq
  rw [← List.take_append_drop k runs, List.drop_eq_getElem_cons hk, List.flatten_append,
    List.flatten_cons, covers_append, htotal, covers_append] at h
  refine hrun.start_unique (fun hnil => ?_) h.2.2.2.1
  rw [hnil] at hrun
  exact hn hrun

/-! ## pieces -/

open Loop (numPieces pieceLen lt_numPieces)

/-- A block cut in pieces of at most `m` bytes. -/
def pieces (m n : Nat) (a b : α) : List (Seg α) :=
  (List.range (numPieces m n)).map fun k : Nat =>
    ⟨a + ((k * m : Nat) : α), b + ((k * m : Nat) : α), pieceLen m n k⟩

@[simp] theorem length_pieces (m n : Nat) (a b : α) : (pieces m n a b).length = numPieces m n := by
  simp [pieces]

theorem getElem?_pieces {m n k : Nat} {a b : α} {s : Seg α} (h : (pieces m n a b)[k]? = some s) :
    k < numPieces m n ∧ s = ⟨a + ((k * m : Nat) : α), b + ((k * m : Nat) : α), pieceLen m n k⟩ := by
  obtain ⟨hk, rfl⟩ := List.getElem?_eq_some_iff.mp h
  rw [length_pieces] at hk
  exact ⟨hk, by simp [pieces]⟩

/-- The lengths of the first pieces add up. -/
theorem sum_pieceLen (m n k : Nat) : ∑ i ∈ Finset.range k, pieceLen m n i = min n (k * m) := by
  induction k with
  | zero => simp
  | succ k ih =>
      rw [Finset.sum_range_succ, ih, Nat.succ_mul, pieceLen]
      omega

/-- The pieces cover the block. -/
theorem covers_pieces {m n : Nat} (hm : 0 < m) (a b : α) : Covers a b n (pieces m n a b) := by
  have hend : n ≤ numPieces m n * m := by
    rw [← Nat.not_lt, ← lt_numPieces hm]
    exact Nat.lt_irrefl _
  have hcover : Covers a b (∑ i ∈ Finset.range (pieces m n a b).length, pieceLen m n i)
      (pieces m n a b) :=
    covers_of_offsets fun k s hs => by
      obtain ⟨hk, rfl⟩ := getElem?_pieces hs
      rw [sum_pieceLen, Nat.min_eq_right ((lt_numPieces hm).mp hk).le]
      exact ⟨rfl, rfl, rfl⟩
  rwa [length_pieces, sum_pieceLen, Nat.min_eq_left hend] at hcover

/-- No piece is empty or longer than `m`. -/
theorem len_pieces {m n : Nat} (hm : 0 < m) {a b : α} {s : Seg α} (hs : s ∈ pieces m n a b) :
    1 ≤ s.len ∧ s.len ≤ m := by
  obtain ⟨k, hk⟩ := List.mem_iff_getElem?.mp hs
  obtain ⟨hlt, rfl⟩ := getElem?_pieces hk
  rw [lt_numPieces hm] at hlt
  simp only [pieceLen]
  omega

/-! ## memories -/

section Memories

variable {ι κ β : Type} [DecidableEq κ]

/-- A byte for each pair, read at the source and written at the destination, one after the
other. -/
def store (src : ι → β) (pairs : List (ι × κ)) (dst : κ → β) : κ → β :=
  pairs.foldl (fun dst p => Function.update dst p.2 (src p.1)) dst

/-- What is not a destination stays as it is. -/
theorem store_of_notMem {src : ι → β} {pairs : List (ι × κ)} {dst : κ → β} {b : κ}
    (h : ∀ p ∈ pairs, p.2 ≠ b) : store src pairs dst b = dst b := by
  induction pairs generalizing dst with
  | nil => rfl
  | cons p pairs ih =>
      have hfirst := h p List.mem_cons_self
      rw [store, List.foldl_cons]
      exact (ih fun q hq => h q (List.mem_cons_of_mem p hq)).trans
        (Function.update_of_ne (Ne.symm hfirst) _ _)

/-- Bytes with destinations of their own arrive. -/
theorem store_range {n : Nat} {f : Nat → ι} {g : Nat → κ}
    (hinj : ∀ i j, i < n → j < n → g i = g j → i = j) (src : ι → β) (dst : κ → β) {k : Nat}
    (hk : k < n) : store src ((List.range n).map fun j => (f j, g j)) dst (g k) = src (f k) := by
  induction n with
  | zero => omega
  | succ n ih =>
      rw [List.range_succ, List.map_append, store, List.foldl_append]
      by_cases hlast : k = n
      · subst hlast
        exact Function.update_self _ _ _
      · have hlt : k < n := by omega
        have hne : g k ≠ g n := fun h => hlast (hinj k n hk (Nat.lt_succ_self n) h)
        have hrest := ih (fun i j hi hj => hinj i j (by omega) (by omega)) hlt
        exact (Function.update_of_ne hne _ _).trans hrest

end Memories

end Copy
