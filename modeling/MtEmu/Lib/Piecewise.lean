/-!
# MtEmu.Lib.Piecewise

Copying a buffer in pieces.

A buffer is a function from offsets to values; `put src dst p` copies the
piece `p` of `src` into `dst`.  `Pending` is what holds between two pieces,
whatever their order and overlaps: an offset is copied already, or one of the
pieces that are left has it.
-/

namespace Piecewise

/-- A range of offsets. -/
structure Piece where
  off : Nat
  len : Nat
  deriving DecidableEq

/-- The piece contains an offset. -/
def Piece.Has (p : Piece) (j : Nat) : Prop := p.off ≤ j ∧ j < p.off + p.len

instance (p : Piece) (j : Nat) : Decidable (p.Has j) := inferInstanceAs (Decidable (_ ∧ _))

variable {α : Type}

/-- Copy one piece. -/
def put (src dst : Nat → α) (p : Piece) : Nat → α := fun j => if p.Has j then src j else dst j

/-- Every offset below `n` is in one of the pieces. -/
def Covers (ps : List Piece) (n : Nat) : Prop := ∀ j < n, ∃ p ∈ ps, p.Has j

/-- An offset is copied already, or one of the pieces left will copy it.  A loop
over the pieces keeps this, and it says that everything is copied when none is
left. -/
def Pending (src dst : Nat → α) (ps : List Piece) (n : Nat) : Prop :=
  ∀ j < n, dst j = src j ∨ ∃ p ∈ ps, p.Has j

/-- At first all pieces are left. -/
theorem Covers.pending {ps : List Piece} {n : Nat} (h : Covers ps n) (src dst : Nat → α) :
    Pending src dst ps n :=
  fun j hj => .inr (h j hj)

/-- Copying the next piece leaves the others. -/
theorem Pending.put {src dst : Nat → α} {p : Piece} {ps : List Piece} {n : Nat}
    (h : Pending src dst (p :: ps) n) : Pending src (put src dst p) ps n := by
  intro j hj
  by_cases hp : p.Has j
  · exact .inl (if_pos hp)
  · rcases h j hj with heq | ⟨q, hq, hhas⟩
    · exact .inl ((if_neg hp).trans heq)
    · rcases List.mem_cons.mp hq with rfl | hq
      · exact absurd hhas hp
      · exact .inr ⟨q, hq, hhas⟩

/-- In the end everything is copied. -/
theorem Pending.eq {src dst : Nat → α} {n : Nat} (h : Pending src dst [] n) {j : Nat} (hj : j < n) :
    dst j = src j := by
  rcases h j hj with heq | ⟨_, hmem, _⟩
  · exact heq
  · cases hmem

end Piecewise
