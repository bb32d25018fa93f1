import Mathlib.Data.Nat.Fib.Basic
import Mathlib.Order.Defs.LinearOrder

/-!
# MtEmu.Lib.Avl

Binary trees that store their heights, and what keeps them balanced.

`HeightTree` has keys and values; `toList` is its inorder.  Nothing in the type says that the stored
heights are right: `Balanced` does, and that the heights of siblings differ by one at most.
A tree with one sibling two higher than the other is balanced again by a rotation
(`Balanced.rotate_left`, `Balanced.rotate_left_right` and their mirrors), which leaves the
inorder as it is.  A balanced tree has at least a Fibonacci number of entries
(`Balanced.fib_le_length`).

`Sorted` lists and what search trees do to them come last: `insertKey` puts an entry behind
those that are not greater, and a search or a removal goes to one side of the root.
-/

namespace Avl

/-- A binary tree that stores heights.  The height of a node is data, to be kept up by whoever
changes the tree. -/
inductive HeightTree (κ ν : Type) where
  | nil
  | node (left : HeightTree κ ν) (key : κ) (val : ν) (height : Int) (right : HeightTree κ ν)
  deriving DecidableEq

variable {κ ν : Type}

namespace HeightTree

/-- The stored height; an empty tree has -1. -/
def height : HeightTree κ ν → Int
  | nil => -1
  | node _ _ _ h _ => h

/-- The entries in order. -/
def toList : HeightTree κ ν → List (κ × ν)
  | nil => []
  | node l k v _ r => l.toList ++ (k, v) :: r.toList

/-- A node with the height that its children say. -/
def mk (l : HeightTree κ ν) (k : κ) (v : ν) (r : HeightTree κ ν) : HeightTree κ ν :=
  node l k v (max l.height r.height + 1) r

/-- Heights are right, and those of siblings differ by one at most, at every node.  A rotation
is chosen by the stored heights of two levels, so both are needed at once. -/
def Balanced : HeightTree κ ν → Prop
  | nil => True
  | node l _ _ h r => l.Balanced ∧ r.Balanced ∧ h = max l.height r.height + 1 ∧
      l.height ≤ r.height + 1 ∧ r.height ≤ l.height + 1

@[simp] theorem height_nil : (nil : HeightTree κ ν).height = -1 := rfl

@[simp] theorem height_node (l : HeightTree κ ν) (k : κ) (v : ν) (h : Int) (r : HeightTree κ ν) :
    (node l k v h r).height = h := rfl

@[simp] theorem height_mk (l : HeightTree κ ν) (k : κ) (v : ν) (r : HeightTree κ ν) :
    (mk l k v r).height = max l.height r.height + 1 := rfl

@[simp] theorem toList_nil : (nil : HeightTree κ ν).toList = [] := rfl

@[simp] theorem toList_node (l : HeightTree κ ν) (k : κ) (v : ν) (h : Int) (r : HeightTree κ ν) :
    (node l k v h r).toList = l.toList ++ (k, v) :: r.toList := rfl

@[simp] theorem toList_mk (l : HeightTree κ ν) (k : κ) (v : ν) (r : HeightTree κ ν) :
    (mk l k v r).toList = l.toList ++ (k, v) :: r.toList := rfl

@[simp] theorem balanced_nil : (nil : HeightTree κ ν).Balanced := trivial

theorem balanced_mk {l r : HeightTree κ ν} {k : κ} {v : ν} :
    (mk l k v r).Balanced ↔ l.Balanced ∧ r.Balanced ∧ l.height ≤ r.height + 1 ∧
      r.height ≤ l.height + 1 := by
  simp [mk, Balanced]

namespace Balanced

variable {l r : HeightTree κ ν} {k : κ} {v : ν} {h : Int}

theorem left (hb : (node l k v h r).Balanced) : l.Balanced := hb.1

theorem right (hb : (node l k v h r).Balanced) : r.Balanced := hb.2.1

/-- A balanced node is the one that its children say. -/
theorem eq_mk (hb : (node l k v h r).Balanced) : node l k v h r = mk l k v r := by
  rw [mk, ← hb.2.2.1]

theorem neg_one_le {t : HeightTree κ ν} (hb : t.Balanced) : -1 ≤ t.height := by
  induction t with
  | nil => exact Int.le_refl _
  | node l k v h r ihl ihr =>
      have hl := ihl hb.left
      have hh : h = max l.height r.height + 1 := hb.2.2.1
      show -1 ≤ h
      omega

/-! ## rotations -/

variable {a b c d : HeightTree κ ν} {k₁ k₂ k₃ : κ} {v₁ v₂ v₃ : ν}

/-- The right child is two higher, and its own right child is no lower than its left one. -/
theorem rotate_left (ha : a.Balanced) (hr : (node b k₂ v₂ h c).Balanced)
    (htwo : h = a.height + 2) (hle : b.height ≤ c.height) :
    (mk (mk a k₁ v₁ b) k₂ v₂ c).Balanced := by
  obtain ⟨hb, hc, hh, hbc, hcb⟩ := hr
  simp only [balanced_mk, height_mk]
  exact ⟨⟨ha, hb, by omega, by omega⟩, hc, by omega, by omega⟩

/-- The left child is two higher, and its own left child is no lower than its right one. -/
theorem rotate_right (hc : c.Balanced) (hl : (node a k₁ v₁ h b).Balanced)
    (htwo : h = c.height + 2) (hle : b.height ≤ a.height) :
    (mk a k₁ v₁ (mk b k₂ v₂ c)).Balanced := by
  obtain ⟨ha, hb, hh, hab, hba⟩ := hl
  simp only [balanced_mk, height_mk]
  exact ⟨ha, ⟨hb, hc, by omega, by omega⟩, by omega, by omega⟩

/-- The right child is two higher, and its left child is the higher one. -/
theorem rotate_right_left {h' : Int} (ha : a.Balanced)
    (hr : (node (node b k₂ v₂ h' c) k₃ v₃ h d).Balanced) (htwo : h = a.height + 2)
    (hlt : d.height < h') :
    (mk (mk a k₁ v₁ b) k₂ v₂ (mk c k₃ v₃ d)).Balanced := by
  obtain ⟨⟨hb, hc, hh', hbc, hcb⟩, hd, hh, hld, hdl⟩ := hr
  simp only [balanced_mk, height_mk]
  rw [height_node] at hld hdl hh
  exact ⟨⟨ha, hb, by omega, by omega⟩, ⟨hc, hd, by omega, by omega⟩, by omega, by omega⟩

/-- The left child is two higher, and its right child is the higher one. -/
theorem rotate_left_right {h' : Int} (hd : d.Balanced)
    (hl : (node a k₁ v₁ h (node b k₂ v₂ h' c)).Balanced) (htwo : h = d.height + 2)
    (hlt : a.height < h') :
    (mk (mk a k₁ v₁ b) k₂ v₂ (mk c k₃ v₃ d)).Balanced := by
  obtain ⟨ha, ⟨hb, hc, hh', hbc, hcb⟩, hh, hal, hla⟩ := hl
  simp only [balanced_mk, height_mk]
  rw [height_node] at hal hla hh
  exact ⟨⟨ha, hb, by omega, by omega⟩, ⟨hc, hd, by omega, by omega⟩, by omega, by omega⟩

/-! ## size -/

/-- **Depth**: a balanced tree of a height has at least a Fibonacci number of entries.  One child
is one lower than its parent, and the other at most two. -/
theorem fib_le_length {t : HeightTree κ ν} (hb : t.Balanced) :
    Nat.fib (t.height + 3).toNat ≤ t.toList.length + 1 := by
  induction t with
  | nil => exact Nat.le_refl 1
  | node l k v h r ihl ihr =>
      have hl := ihl hb.left
      have hr := ihr hb.right
      have hlpos := hb.left.neg_one_le
      have hrpos := hb.right.neg_one_le
      obtain ⟨-, -, hh, hlr, hrl⟩ := hb
      have hlen : (node l k v h r).toList.length = l.toList.length + r.toList.length + 1 := by
        simp only [toList_node, List.length_append, List.length_cons]
        omega
      have hstep : Nat.fib (h + 3).toNat = Nat.fib (h + 1).toNat + Nat.fib (h + 2).toNat := by
        have hthree : (h + 3).toNat = (h + 1).toNat + 2 := by omega
        have htwo : (h + 2).toNat = (h + 1).toNat + 1 := by omega
        rw [hthree, htwo, Nat.fib_add_two]
      have hone : h + 1 ≤ min l.height r.height + 3 := by omega
      rw [hlen, height, hstep]
      -- the higher child has height `h - 1`, the other one at least `h - 2`
      rcases Int.le_total l.height r.height with hle | hle
      · have hlow : Nat.fib (h + 1).toNat ≤ Nat.fib (l.height + 3).toNat :=
          Nat.fib_mono (by omega)
        have hhigh : h + 2 = r.height + 3 := by omega
        rw [hhigh]
        omega
      · have hlow : Nat.fib (h + 1).toNat ≤ Nat.fib (r.height + 3).toNat :=
          Nat.fib_mono (by omega)
        have hhigh : h + 2 = l.height + 3 := by omega
        rw [hhigh]
        omega

end Balanced

end HeightTree

/-! ## sorted lists -/

section Sorted

variable [LinearOrder κ]

/-- Keys increase. -/
def Sorted (xs : List (κ × ν)) : Prop := xs.Pairwise fun x y => x.1 < y.1

/-- Put an entry behind those with keys that are not greater.  In a sorted list
without the key this is the only place for it. -/
def insertKey (k : κ) (v : ν) : List (κ × ν) → List (κ × ν)
  | [] => [(k, v)]
  | x :: xs => if k < x.1 then (k, v) :: x :: xs else x :: insertKey k v xs

variable {k : κ} {v : ν} {x : κ × ν} {xs ys : List (κ × ν)}

theorem insertKey_cons : insertKey k v (x :: xs) =
    if k < x.1 then (k, v) :: x :: xs else x :: insertKey k v xs := rfl

theorem sorted_append_cons :
    Sorted (xs ++ x :: ys) ↔ Sorted xs ∧ Sorted ys ∧ (∀ y ∈ xs, y.1 < x.1) ∧
      ∀ y ∈ ys, x.1 < y.1 := by
  rw [Sorted, List.pairwise_append, List.pairwise_cons]
  constructor
  · rintro ⟨hxs, ⟨hx, hys⟩, hcross⟩
    exact ⟨hxs, hys, fun y hy => hcross y hy x List.mem_cons_self, hx⟩
  · rintro ⟨hxs, hys, hleft, hright⟩
    refine ⟨hxs, ⟨hright, hys⟩, fun y hy z hz => ?_⟩
    rcases List.mem_cons.mp hz with rfl | hz
    · exact hleft y hy
    · exact (hleft y hy).trans (hright z hz)

/-- Sorted lists with the same entries. -/
theorem Sorted.eq_of_mem (hs : Sorted xs) (hs' : Sorted ys) (h : ∀ y, y ∈ xs ↔ y ∈ ys) :
    xs = ys := by
  have hnodup : ∀ {zs : List (κ × ν)}, Sorted zs → zs.Nodup := fun {zs} hzs => by
    rw [Sorted] at hzs
    exact hzs.imp fun hlt heq => hlt.ne (congrArg Prod.fst heq)
  refine List.Perm.eq_of_pairwise (fun a b _ _ hab hba => absurd hab (lt_asymm hba)) hs hs' ?_
  exact (List.perm_ext_iff_of_nodup (hnodup hs) (hnodup hs')).mpr h

theorem mem_insertKey {y : κ × ν} : y ∈ insertKey k v xs ↔ y = (k, v) ∨ y ∈ xs := by
  induction xs with
  | nil => simp [insertKey]
  | cons x xs ih =>
      rw [insertKey]
      split
      · exact List.mem_cons
      · rw [List.mem_cons, ih, List.mem_cons]
        tauto

theorem insertKey_of_lt (h : k < x.1) :
    insertKey k v (xs ++ x :: ys) = insertKey k v xs ++ x :: ys := by
  induction xs with
  | nil => exact if_pos h
  | cons z xs ih =>
      rw [List.cons_append, insertKey_cons, insertKey_cons]
      split
      · rfl
      · rw [ih, List.cons_append]

theorem insertKey_of_le (hs : Sorted (xs ++ x :: ys)) (h : x.1 ≤ k) :
    insertKey k v (xs ++ x :: ys) = xs ++ x :: insertKey k v ys := by
  obtain ⟨-, -, hleft, -⟩ := sorted_append_cons.mp hs
  clear hs
  induction xs with
  | nil => exact if_neg (not_lt.mpr h)
  | cons z xs ih =>
      have hz : z.1 < x.1 := hleft z List.mem_cons_self
      rw [List.cons_append, insertKey_cons, if_neg (not_lt.mpr (hz.le.trans h)),
        ih fun y hy => hleft y (List.mem_cons_of_mem z hy), List.cons_append]

/-- A new key keeps the order. -/
theorem sorted_insertKey (hs : Sorted xs) (hnew : ∀ y ∈ xs, y.1 ≠ k) :
    Sorted (insertKey k v xs) := by
  induction xs with
  | nil => exact List.pairwise_singleton _ _
  | cons x xs ih =>
      obtain ⟨hx, hxs⟩ := List.pairwise_cons.mp hs
      rw [insertKey]
      split
      · next hlt =>
          refine List.pairwise_cons.mpr ⟨fun y hy => ?_, hs⟩
          rcases List.mem_cons.mp hy with rfl | hy
          · exact hlt
          · exact hlt.trans (hx y hy)
      · next hge =>
          have hlt : x.1 < k := lt_of_le_of_ne (not_lt.mp hge) (hnew x List.mem_cons_self)
          refine List.pairwise_cons.mpr ⟨fun y hy => ?_, ih hxs fun y hy =>
            hnew y (List.mem_cons_of_mem x hy)⟩
          rcases mem_insertKey.mp hy with rfl | hy
          · exact hlt
          · exact hx y hy

/-! ## the first entry of a kind -/

/-- The first entry that meets `p`, and the list without it.  In a list sorted by sizes, with
`p` for "large enough", this is best fit. -/
def takeFirst {α : Type} (p : α → Bool) (xs : List α) : Option α × List α :=
  (xs.find? p, xs.eraseP p)

section TakeFirst

variable {α : Type} {p : α → Bool} {x y : α} {xs ys : List α}

theorem takeFirst_none (h : ∀ y ∈ xs, ¬p y = true) : takeFirst p xs = (none, xs) := by
  rw [takeFirst, List.find?_eq_none.mpr h, List.eraseP_of_forall_not h]

/-- It is not in front of a place. -/
theorem takeFirst_right (hxs : ∀ y ∈ xs, ¬p y = true) (hx : ¬p x = true) :
    takeFirst p (xs ++ x :: ys) = ((takeFirst p ys).1, xs ++ x :: (takeFirst p ys).2) := by
  rw [takeFirst, List.find?_append, List.find?_eq_none.mpr hxs, Option.none_or,
    List.find?_cons_of_neg hx, List.eraseP_append_right _ hxs, List.eraseP_cons_of_neg hx]
  rfl

/-- It is in front of a place. -/
theorem takeFirst_left (h : (takeFirst p xs).1 = some y) :
    takeFirst p (xs ++ ys) = (some y, (takeFirst p xs).2 ++ ys) := by
  have hfind : xs.find? p = some y := h
  rw [takeFirst, List.find?_append, hfind, Option.some_or,
    List.eraseP_append_left (List.find?_some hfind) _ (List.mem_of_find?_eq_some hfind)]
  rfl

/-- It is at the place. -/
theorem takeFirst_mid (hxs : ∀ y ∈ xs, ¬p y = true) (hx : p x = true) :
    takeFirst p (xs ++ x :: ys) = (some x, xs ++ ys) := by
  rw [takeFirst, List.find?_append, List.find?_eq_none.mpr hxs, Option.none_or,
    List.find?_cons_of_pos hx, List.eraseP_append_right _ hxs, List.eraseP_cons_of_pos hx]

theorem takeFirst_eq_none (h : (takeFirst p xs).1 = none) : ∀ y ∈ xs, ¬p y = true :=
  List.find?_eq_none.mp h

end TakeFirst

/-- What is left of a sorted list, and that the entry taken is the least of its kind. -/
theorem takeFirst_sorted {p : κ × ν → Bool} {y : κ × ν} (hs : Sorted xs)
    (h : (takeFirst p xs).1 = some y) :
    y ∈ xs ∧ p y = true ∧ (∀ z ∈ xs, p z = true → y.1 ≤ z.1) ∧ Sorted (takeFirst p xs).2 ∧
      ∀ z, z ∈ (takeFirst p xs).2 ↔ z ∈ xs ∧ z.1 ≠ y.1 := by
  obtain ⟨hy, front, back, rfl, hfront⟩ := List.find?_eq_some_iff_append.mp h
  obtain ⟨hsf, hsb, hlt, hgt⟩ := sorted_append_cons.mp hs
  have hnot : ∀ z ∈ front, ¬p z = true := fun z hz => by simpa using hfront z hz
  have hrest : (takeFirst p (front ++ y :: back)).2 = front ++ back := by
    rw [takeFirst_mid hnot hy]
  refine ⟨by simp, hy, fun z hz hp => ?_, ?_, fun z => ?_⟩
  · rcases List.mem_append.mp hz with hz | hz
    · exact absurd hp (hnot z hz)
    · rcases List.mem_cons.mp hz with rfl | hz
      · exact le_refl _
      · exact (hgt z hz).le
  · rw [hrest]
    exact List.pairwise_append.mpr ⟨hsf, hsb, fun a ha b hb => (hlt a ha).trans (hgt b hb)⟩
  · rw [hrest, List.mem_append, List.mem_append, List.mem_cons]
    constructor
    · rintro (hz | hz)
      · exact ⟨.inl hz, (hlt z hz).ne⟩
      · exact ⟨.inr (.inr hz), (hgt z hz).ne'⟩
    · rintro ⟨hz | rfl | hz, hne⟩
      · exact .inl hz
      · exact absurd rfl hne
      · exact .inr hz

end Sorted

end Avl
