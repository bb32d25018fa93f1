import Mathlib.Data.List.Chain

/-!
# MtEmu.Lib.Tiling

A stretch of places cut into blocks.

A tiling is the list of its blocks from the first place on, each with a size and a tag; `At`
says which block starts where.  Blocks do not overlap (`At.disjoint`) and leave no place out
(`exists_at`).  With one tag for free blocks, a tiling in which no two free blocks are
neighbours is `Coalesced`: then free places in a row lie in one block (`run_in_block`), and
the blocks that are not free determine the tiling (`Coalesced.eq_of_taken`).

A heap that merges what it frees keeps a coalesced tiling.  The first of the two facts is why
such a heap need not look further than single blocks for room, the second why its state does
not depend on how it got there.
-/

namespace Tiling

variable {τ : Type}

/-- A block: how many places, and what they are used for.  Where it starts is not part of it
but follows from the blocks in front. -/
structure Block (τ : Type) where
  size : Nat
  tag : τ
  deriving DecidableEq

/-- The number of places. -/
def total : List (Block τ) → Nat
  | [] => 0
  | b :: bs => b.size + total bs

/-- No block is empty. -/
def Solid (bs : List (Block τ)) : Prop := ∀ b ∈ bs, 0 < b.size

/-- Block `c` starts at `v`, the first one starting at `p`: the places are added up along the
list. -/
def At : Nat → List (Block τ) → Nat → Block τ → Prop
  | _, [], _, _ => False
  | p, b :: bs, v, c => v = p ∧ c = b ∨ At (p + b.size) bs v c

variable {p v w : Nat} {b c d : Block τ} {bs xs ys : List (Block τ)}

@[simp] theorem total_nil : total ([] : List (Block τ)) = 0 := rfl

@[simp] theorem total_cons : total (b :: bs) = b.size + total bs := rfl

@[simp] theorem total_append : total (xs ++ ys) = total xs + total ys := by
  induction xs with
  | nil => simp
  | cons x xs ih => rw [List.cons_append, total_cons, ih, total_cons, Nat.add_assoc]

@[simp] theorem solid_nil : Solid ([] : List (Block τ)) := fun _ h => by cases h

@[simp] theorem solid_cons : Solid (b :: bs) ↔ 0 < b.size ∧ Solid bs := List.forall_mem_cons

@[simp] theorem solid_append : Solid (xs ++ ys) ↔ Solid xs ∧ Solid ys := List.forall_mem_append

@[simp] theorem at_nil : ¬At p ([] : List (Block τ)) v c := id

@[simp] theorem at_cons :
    At p (b :: bs) v c ↔ v = p ∧ c = b ∨ At (p + b.size) bs v c := Iff.rfl

@[simp] theorem at_append :
    At p (xs ++ ys) v c ↔ At p xs v c ∨ At (p + total xs) ys v c := by
  induction xs generalizing p with
  | nil => simp
  | cons x xs ih => rw [List.cons_append, at_cons, ih, at_cons, total_cons, or_assoc, Nat.add_assoc]

namespace At

theorem mem (h : At p bs v c) : c ∈ bs := by
  induction bs generalizing p with
  | nil => exact h.elim
  | cons b bs ih =>
      rcases h with ⟨-, rfl⟩ | h
      · exact List.mem_cons_self
      · exact List.mem_cons_of_mem b (ih h)

/-- The place of a block in the list: the list is cut in front of it, and the blocks before it
take up what is in front of `v`. -/
theorem split (h : At p bs v c) : ∃ pre post, bs = pre ++ c :: post ∧ v = p + total pre := by
  induction bs generalizing p with
  | nil => exact h.elim
  | cons b bs ih =>
      rcases h with ⟨rfl, rfl⟩ | h
      · exact ⟨[], bs, rfl, rfl⟩
      · obtain ⟨pre, post, rfl, rfl⟩ := ih h
        exact ⟨b :: pre, post, rfl, by rw [total_cons, Nat.add_assoc]⟩

/-- A block lies inside the stretch that the list takes up. -/
theorem bounds (h : At p bs v c) : p ≤ v ∧ v + c.size ≤ p + total bs := by
  obtain ⟨pre, post, rfl, rfl⟩ := h.split
  rw [total_append, total_cons]
  omega

/-- Blocks do not overlap: two of them are the same, or one ends before the other starts. -/
theorem disjoint (hs : Solid bs) (hc : At p bs v c) (hd : At p bs w d) :
    v = w ∧ c = d ∨ v + c.size ≤ w ∨ w + d.size ≤ v := by
  induction bs generalizing p with
  | nil => exact hc.elim
  | cons b bs ih =>
      have hrest : Solid bs := (solid_cons.mp hs).2
      rcases hc with ⟨rfl, rfl⟩ | hc
      · rcases hd with ⟨rfl, rfl⟩ | hd
        · exact .inl ⟨rfl, rfl⟩
        · exact .inr (.inl hd.bounds.1)
      · rcases hd with ⟨rfl, rfl⟩ | hd
        · exact .inr (.inr hc.bounds.1)
        · exact ih hrest hc hd

/-- At most one block starts at a place, since none is empty. -/
theorem unique (hs : Solid bs) (hc : At p bs v c) (hd : At p bs v d) : c = d := by
  have hcpos := hs c hc.mem
  have hdpos := hs d hd.mem
  rcases hc.disjoint hs hd with ⟨-, h⟩ | h | h
  · exact h
  · omega
  · omega

end At

/-- Blocks leave no place out: each place of the stretch is in one. -/
theorem exists_at {i : Nat} (hlow : p ≤ i) (hhigh : i < p + total bs) :
    ∃ v c, At p bs v c ∧ v ≤ i ∧ i < v + c.size := by
  induction bs generalizing p with
  | nil =>
      rw [total_nil] at hhigh
      omega
  | cons b bs ih =>
      by_cases hi : i < p + b.size
      · exact ⟨p, b, .inl ⟨rfl, rfl⟩, hlow, hi⟩
      · rw [total_cons] at hhigh
        obtain ⟨v, c, hat, hin⟩ := ih (Nat.not_lt.mp hi) (by omega)
        exact ⟨v, c, .inr hat, hin⟩

/-! ## free blocks -/

/-- No two neighbours are free. -/
def Coalesced (free : τ) (bs : List (Block τ)) : Prop :=
  bs.IsChain fun a b => ¬(a.tag = free ∧ b.tag = free)

variable {free : τ}

/-- A tiling around a block is coalesced when the parts are and the block, if it is free, has no
free neighbour. -/
theorem coalesced_append_cons : Coalesced free (xs ++ b :: ys) ↔
    Coalesced free xs ∧ Coalesced free ys ∧
      (b.tag = free → (∀ x ∈ xs.getLast?, x.tag ≠ free) ∧ ∀ y ∈ ys.head?, y.tag ≠ free) := by
  simp only [Coalesced, List.isChain_append, List.isChain_cons, List.head?_cons,
    Option.mem_some_iff, forall_eq']
  constructor
  · rintro ⟨hxs, ⟨hb, hys⟩, hlast⟩
    exact ⟨hxs, hys, fun hfree => ⟨fun x hx h => hlast x hx ⟨h, hfree⟩,
      fun y hy h => hb y hy ⟨hfree, h⟩⟩⟩
  · rintro ⟨hxs, hys, h⟩
    exact ⟨hxs, ⟨fun y hy hby => (h hby.1).2 y hy hby.2, hys⟩,
      fun x hx hxb => (h hxb.2).1 x hx hxb.1⟩

theorem coalesced_cons : Coalesced free (b :: ys) ↔
    Coalesced free ys ∧ (b.tag = free → ∀ y ∈ ys.head?, y.tag ≠ free) := by
  rw [← List.nil_append (b :: ys), coalesced_append_cons]
  constructor
  · rintro ⟨-, hys, h⟩
    exact ⟨hys, fun hfree => (h hfree).2⟩
  · rintro ⟨hys, h⟩
    exact ⟨.nil, hys, fun hfree => ⟨fun x hx => (by simp at hx), h hfree⟩⟩

/-- The block behind a block starts where that one ends; in a coalesced tiling they are not
both free. -/
theorem At.next (hat : At p bs v c) (free : τ) (hin : v + c.size < p + total bs) :
    ∃ d, At p bs (v + c.size) d ∧ (Coalesced free bs → c.tag = free → d.tag ≠ free) := by
  obtain ⟨pre, post, rfl, rfl⟩ := hat.split
  cases post with
  | nil =>
      rw [total_append, total_cons, total_nil] at hin
      omega
  | cons d post =>
      refine ⟨d, ?_, fun hco hc hd => ?_⟩
      · rw [at_append, at_cons, at_cons]
        exact .inr (.inr (.inl ⟨rfl, rfl⟩))
      · have hchain := (List.isChain_append.mp hco).2.1
        exact (List.isChain_cons_cons.mp hchain).1 ⟨hc, hd⟩

/-- **Free places in a row** lie in one block: at the end of a free block the row ends too, as
the block behind it is not free. -/
theorem run_in_block (hs : Solid bs) (hco : Coalesced free bs) {a n : Nat} (hn : 0 < n)
    (hlow : p ≤ a) (hhigh : a + n ≤ p + total bs)
    (hrun : ∀ i, a ≤ i → i < a + n → ∀ v c, At p bs v c → v ≤ i → i < v + c.size → c.tag = free) :
    ∃ v c, At p bs v c ∧ c.tag = free ∧ v ≤ a ∧ a + n ≤ v + c.size := by
  obtain ⟨v, c, hat, hva, hav⟩ := exists_at hlow (show a < p + total bs by omega)
  have hc := hrun a (Nat.le_refl a) (by omega) v c hat hva hav
  refine ⟨v, c, hat, hc, hva, Nat.le_of_not_lt fun hend => ?_⟩
  -- else the block behind it would be free too
  obtain ⟨d, hd, hnot⟩ := hat.next free (by omega)
  have hpos := hs d hd.mem
  exact hnot hco hc (hrun (v + c.size) (by omega) hend _ d hd (Nat.le_refl _) (by omega))

/-- A place is in a block with a tag. -/
def Tagged (t : τ) (p : Nat) (bs : List (Block τ)) (i : Nat) : Prop :=
  ∃ v c, At p bs v c ∧ c.tag = t ∧ v ≤ i ∧ i < v + c.size

/-- The places `v, …, v + n - 1` of `lo, …, hi - 1` are in a set, and it does not go on. -/
structure Gap (P : Nat → Prop) (lo hi v n : Nat) : Prop where
  pos : 0 < n
  low : lo ≤ v
  high : v + n ≤ hi
  all : ∀ i, v ≤ i → i < v + n → P i
  left : v = lo ∨ ¬P (v - 1)
  right : v + n = hi ∨ ¬P (v + n)

/-- A gap is a matter of the places between the bounds; sets that agree there have the same
gaps. -/
theorem Gap.congr {P Q : Nat → Prop} {lo hi n : Nat} (h : Gap P lo hi v n)
    (hiff : ∀ i, lo ≤ i → i < hi → (P i ↔ Q i)) : Gap Q lo hi v n := by
  obtain ⟨hpos, hlow, hhigh, hall, hleft, hright⟩ := h
  refine ⟨hpos, hlow, hhigh, fun i hvi hiv => (hiff i (by omega) (by omega)).mp (hall i hvi hiv),
    or_iff_not_imp_left.mpr fun hne hq => ?_, or_iff_not_imp_left.mpr fun hne hq => ?_⟩
  · exact hleft.elim hne fun hp => hp ((hiff _ (by omega) (by omega)).mpr hq)
  · exact hright.elim hne fun hp => hp ((hiff _ (by omega) (by omega)).mpr hq)

/-- A place has one tag: two blocks that hold it are the same. -/
theorem Tagged.eq {t u : τ} {i : Nat} (hs : Solid bs) (ht : Tagged t p bs i)
    (hu : Tagged u p bs i) : t = u := by
  obtain ⟨v, c, hv, rfl, hvi, hiv⟩ := ht
  obtain ⟨w, d, hw, rfl, hwi, hiw⟩ := hu
  rcases hv.disjoint hs hw with ⟨-, rfl⟩ | h | h
  · rfl
  · omega
  · omega

/-- **Free blocks** are the gaps between the others, so what is free can be said without the
tiling. -/
theorem at_free_iff (hs : Solid bs) (hco : Coalesced free bs) {n : Nat} :
    At p bs v ⟨n, free⟩ ↔ Gap (Tagged free p bs) p (p + total bs) v n := by
  constructor
  · intro hat
    have hbound := hat.bounds
    have hpos := hs _ hat.mem
    refine ⟨hpos, hbound.1, hbound.2, fun i hvi hiv => ⟨v, _, hat, rfl, hvi, hiv⟩, ?_, ?_⟩
    · refine or_iff_not_imp_left.mpr fun hne => ?_
      rintro ⟨w, d, hd, hfree, hwi, hiw⟩
      -- a free block in front would have this one behind it
      have hend : w + d.size = v := by
        have := hat.disjoint hs hd
        omega
      obtain ⟨e, he, hnot⟩ := hd.next free (by rw [hend]; simp only at hpos hbound; omega)
      rw [hend] at he
      exact hnot hco hfree (by rw [he.unique hs hat])
    · refine or_iff_not_imp_left.mpr fun hne htagged => ?_
      obtain ⟨d, hd, hnot⟩ := hat.next free (by simp only at hbound ⊢; omega)
      exact hnot hco rfl (Tagged.eq hs ⟨_, d, hd, rfl, Nat.le_refl _,
        Nat.lt_add_of_pos_right (hs d hd.mem)⟩ htagged)
  · intro hgap
    obtain ⟨w, ⟨m, t⟩, hat, rfl, hwv, hvw⟩ := run_in_block hs hco hgap.pos hgap.low hgap.high
      fun i hvi hiv w c hc hwi hiw => Tagged.eq hs ⟨w, c, hc, rfl, hwi, hiw⟩ (hgap.all i hvi hiv)
    simp only at hat hvw
    have hbound := hat.bounds
    simp only at hbound
    -- the block does not go further than the gap
    have hstart : w = v := by
      refine Nat.le_antisymm hwv (Nat.le_of_not_lt fun hlt => ?_)
      exact hgap.left.elim (fun h => by omega)
        fun h => h ⟨w, _, hat, rfl, by omega, by simp only; have := hgap.pos; omega⟩
    subst hstart
    have hend : m = n := by
      refine Nat.le_antisymm (Nat.le_of_not_lt fun hlt => ?_) (by omega)
      exact hgap.right.elim (fun h => by omega)
        fun h => h ⟨w, _, hat, rfl, by omega, by simp only; omega⟩
    exact hend ▸ hat

/-- **Canonical form**: the blocks that are not free determine the tiling.  The induction goes
along both lists; where one begins with a free block the other has to as well, and the two
free blocks are the same gap. -/
theorem Coalesced.eq_of_taken (hs : Solid xs) (hs' : Solid ys) (hco : Coalesced free xs)
    (hco' : Coalesced free ys) (htotal : total xs = total ys)
    (h : ∀ v c, c.tag ≠ free → (At p xs v c ↔ At p ys v c)) : xs = ys := by
  induction xs generalizing p ys with
  | nil =>
      cases ys with
      | nil => rfl
      | cons y ys =>
          have hpos := hs' y List.mem_cons_self
          simp only [total_nil, total_cons] at htotal
          omega
  | cons x xs ih =>
      cases ys with
      | nil =>
          have hpos := hs x List.mem_cons_self
          simp only [total_nil, total_cons] at htotal
          omega
      | cons y ys =>
          have hx : At p (x :: xs) p x := .inl ⟨rfl, rfl⟩
          have hy : At p (y :: ys) p y := .inl ⟨rfl, rfl⟩
          have hxpos := hs x List.mem_cons_self
          have hypos := hs' y List.mem_cons_self
          have hxy : x = y := by
            by_cases hxfree : x.tag = free
            · by_cases hyfree : y.tag = free
              · -- neither can end inside the other, for a block that is taken follows it
                have hsize : x.size = y.size := by
                  rcases Nat.lt_trichotomy x.size y.size with hlt | heq | hgt
                  · obtain ⟨d, hd, hnot⟩ := hx.next free (by rw [htotal, total_cons]; omega)
                    have hd' := (h _ d (hnot hco hxfree)).mp hd
                    have := hy.disjoint hs' hd'
                    omega
                  · exact heq
                  · obtain ⟨d, hd, hnot⟩ := hy.next free
                      (by rw [← htotal, total_cons]; omega)
                    have hd' := (h _ d (hnot hco' hyfree)).mpr hd
                    have := hx.disjoint hs hd'
                    omega
                cases x
                cases y
                simp_all
              · exact (hx.unique hs ((h p y hyfree).mpr hy))
            · exact ((h p x hxfree).mp hx).unique hs' hy
          subst hxy
          simp only [total_cons, Nat.add_left_cancel_iff] at htotal
          have hrest := ih (p := p + x.size) (solid_cons.mp hs).2 (solid_cons.mp hs').2 hco.tail
            hco'.tail htotal fun v c hc => ?_
          · rw [hrest]
          · -- a block behind the first one starts behind it
            have hiff := h v c hc
            rw [at_cons, at_cons] at hiff
            constructor
            · intro hat
              have hbound := hat.bounds.1
              exact (hiff.mp (.inr hat)).resolve_left fun heq => by omega
            · intro hat
              have hbound := hat.bounds.1
              exact (hiff.mpr (.inr hat)).resolve_left fun heq => by omega

end Tiling
