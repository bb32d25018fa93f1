import MtEmu.Lib.Avl

/-!
# MtEmu.Vmem.Tree

The AVL trees of the video memory allocator (`mm.c`).

Nodes carry a key and the number of a page.  The functions are those of the source, with the
stored heights they read and write; `none` is the endless loop of a failed `ASSERT`.  A call
that hands a node back through `found_node` returns it beside the tree.  Memory for a new node
is there.

On a balanced tree none of them fails: an insertion, a removal and a removal of the nearest
key from above leave the tree balanced, and change its entries as they would change a sorted
list (`avltreeInsert_spec`, `avltreeRemove_spec`, `removeApproxValue_spec`).

The source balances on the way back from a recursive call, and reads heights that earlier
calls stored.  So what one level has to know of its child is that it is balanced and at most
one higher or lower than before (`Grown`, `Shrunk`), and what it does with that is
`doBalance_spec`.  The allocator uses these trees as the index of a set of blocks
(`Indexes`).
-/

namespace MtEmu

open Avl

/-- `avl_node_t *`: `key` and the page number of `page`; `HEIGHT` is `height`. -/
abbrev AvlNode := Avl.HeightTree Nat Nat

/-- `rotation_dir_t`. -/
inductive RotationDir where
  | left
  | right
  deriving DecidableEq

namespace AvlNode

/-- `tree->height = MAX(HEIGHT(tree->left), HEIGHT(tree->right)) + 1`, if there is a tree. -/
def setHeight : AvlNode → AvlNode
  | .nil => .nil
  | .node l k p _ r => .mk l k p r

/-- `make_avl_node`. -/
def make (key page : Nat) : AvlNode := .node .nil key page 0 .nil

end AvlNode

open AvlNode

/-! ## balancing -/

/-- `get_balance_factor`, from the stored heights of the children; a missing child has
height -1. -/
def getBalanceFactor : AvlNode → Int
  | .nil => 0
  | .node l _ _ _ r => r.height - l.height

/-- `rotation_left`, which sets the heights of the two nodes it turns. -/
def rotationLeft : AvlNode → AvlNode
  | .nil => .nil
  | .node l k p h .nil => .node l k p h .nil
  | .node l k p _ (.node rl rk rp _ rr) => .mk (.mk l k p rl) rk rp rr

/-- `rotation_right`; without a left child the tree is lost. -/
def rotationRight : AvlNode → AvlNode
  | .nil => .nil
  | .node .nil _ _ _ _ => .nil
  | .node (.node ll lk lp _ lr) k p _ r => .mk ll lk lp (.mk lr k p r)

/-- `do_balance`: one rotation or two, by the balance factors of the node and of its higher
child, or none; it fails where the child is out of balance itself. -/
def doBalance : AvlNode → Option AvlNode
  | .nil => some .nil
  | .node l k p h r =>
      let bfactor := r.height - l.height
      if 2 ≤ bfactor then
        let childBfactor := getBalanceFactor r
        if childBfactor = 1 ∨ childBfactor = 0 then some (rotationLeft (.node l k p h r))
        else if childBfactor = -1 then some (rotationLeft (.node l k p h (rotationRight r)))
        else none
      else if bfactor ≤ -2 then
        let childBfactor := getBalanceFactor l
        if childBfactor = -1 ∨ childBfactor = 0 then some (rotationRight (.node l k p h r))
        else if childBfactor = 1 then some (rotationRight (.node (rotationLeft l) k p h r))
        else none
      else some (.node l k p h r)

/-! ## insertion and removal -/

/-- What a parent does with its child after `unlink_end_node`: a child that is gone is
replaced by the other child of the node found, which is then left with none. -/
def relink (dir : RotationDir) (child found : AvlNode) : AvlNode × AvlNode :=
  match child, found with
  | .nil, .node l k p h r =>
      (match dir with | .left => r | .right => l, .node .nil k p h .nil)
  | child, found => (child, found)

/-- `unlink_end_node`: the tree, and `*found_node`. -/
def unlinkEndNode (dir : RotationDir) : AvlNode → Option (AvlNode × AvlNode)
  | .nil => some (.nil, .nil)
  | .node l k p h r =>
      match dir with
      | .left =>
          if l = .nil then some (.nil, .node l k p h r)
          else do
            let (child, found) ← unlinkEndNode .left l
            let (child, found) := relink .left child found
            return (← doBalance (.mk child k p r), found)
      | .right =>
          if r = .nil then some (.nil, .node l k p h r)
          else do
            let (child, found) ← unlinkEndNode .right r
            let (child, found) := relink .right child found
            return (← doBalance (.mk l k p child), found)

/-- `avltree_insert`, by recursion on the side where the key belongs; an equal key goes to the
right. -/
def avltreeInsert (key page : Nat) : AvlNode → Option AvlNode
  | .nil => (doBalance (make key page)).map setHeight
  | .node l k p h r => do
      let tree ←
        if key ≥ k then (avltreeInsert key page r).map fun r => .node l k p h r
        else (avltreeInsert key page l).map fun l => .node l k p h r
      return (← doBalance tree).setHeight

/-- `end_node` in the place of the node that is unlinked: it gets that node's children. -/
def takePlace (endNode left right : AvlNode) : AvlNode :=
  match endNode with
  | .nil => .nil
  | .node _ k p _ _ => .mk left k p right

/-- `do_unlink`, for the children of the node: `end_node` is the first node of the right
subtree, else the last of the left one, else the root of the one that is there. -/
def doUnlink (left right : AvlNode) : Option AvlNode := do
  let (node, endNode) ← unlinkEndNode .left right
  if node ≠ .nil then return takePlace endNode left node
  else
    let (node, endNode) ← unlinkEndNode .right left
    if node ≠ .nil then return takePlace endNode node right
    else
      match right, left with
      | .node rl rk rp rh rr, _ => return takePlace (.node rl rk rp rh rr) left rr
      | .nil, .node ll lk lp lh lr => return takePlace (.node ll lk lp lh lr) ll .nil
      | .nil, .nil => return .nil

/-- `avltree_remove`: the tree, and the key and page of `*found_node`. -/
def avltreeRemove (key : Nat) : AvlNode → Option (AvlNode × Option (Nat × Nat))
  | .nil => some (.nil, none)
  | .node l k p h r => do
      let (tree, found) ←
        if key = k then (doUnlink l r).map fun tree => (tree, some (k, p))
        else if key > k then (avltreeRemove key r).map fun res => (.node l k p h res.1, res.2)
        else (avltreeRemove key l).map fun res => (.node res.1 k p h r, res.2)
      return (← doBalance tree.setHeight, found)

/-- `remove_approx_value`. -/
def removeApproxValue (key : Nat) : AvlNode → Option (AvlNode × Option (Nat × Nat))
  | .nil => some (.nil, none)
  | .node l k p h r => do
      let (tree, found) ←
        if key = k then (doUnlink l r).map fun tree => (tree, some (k, p))
        else if key > k then (removeApproxValue key r).map fun res => (.node l k p h res.1, res.2)
        else (removeApproxValue key l).bind fun res =>
          match res.2 with
          | some found => some (.node res.1 k p h r, some found)
          | none => (doUnlink res.1 r).map fun tree => (tree, some (k, p))
      return (← doBalance tree.setHeight, found)

/-! ## what balancing does -/

/-- A tree with the entries of a node, balanced and about as high: as high as the higher child
or one higher, and the latter when the children's heights differ by one at most. -/
structure Rebalanced (l : AvlNode) (k p : Nat) (r t : AvlNode) : Prop where
  balanced : t.Balanced
  toList : t.toList = l.toList ++ (k, p) :: r.toList
  low : max l.height r.height ≤ t.height
  high : t.height ≤ max l.height r.height + 1
  near : l.height ≤ r.height + 1 → r.height ≤ l.height + 1 →
    t.height = max l.height r.height + 1

section Balance

variable {l r : AvlNode} {k p : Nat} {h : Int}

@[simp] theorem setHeight_mk : setHeight (.mk l k p r) = .mk l k p r := rfl

@[simp] theorem setHeight_node : setHeight (.node l k p h r) = .mk l k p r := rfl

/-- The right child is two higher: one rotation, or two when the weight is on the inside. -/
theorem doBalance_right (hl : l.Balanced) (hr : r.Balanced) (htwo : r.height = l.height + 2) :
    ∃ t, doBalance (.node l k p h r) = some t ∧ Rebalanced l k p r t ∧ t.setHeight = t := by
  cases r with
  | nil =>
      have hpos := hl.neg_one_le
      simp only [HeightTree.height_nil] at htwo
      omega
  | node rl rk rp rh rr =>
      have hrh : rh = l.height + 2 := htwo
      obtain ⟨hrl, hrr, hmax, hnear, hnear'⟩ := id hr
      have hfactor : (2 : Int) ≤ (HeightTree.node rl rk rp rh rr : AvlNode).height - l.height := by
        rw [htwo]
        omega
      rw [doBalance, if_pos hfactor]
      by_cases hle : rl.height ≤ rr.height
      · have hchild : getBalanceFactor (.node rl rk rp rh rr) = 1 ∨
            getBalanceFactor (.node rl rk rp rh rr) = 0 := by
          simp only [getBalanceFactor]
          omega
        rw [if_pos hchild]
        rw [rotationLeft]
        refine ⟨_, rfl, ⟨hl.rotate_left hr hrh hle, ?_, ?_, ?_, ?_⟩, rfl⟩
        · simp
        all_goals
          simp only [HeightTree.height_node, HeightTree.height_mk]
          omega
      · have hchild : ¬(getBalanceFactor (.node rl rk rp rh rr) = 1 ∨
            getBalanceFactor (.node rl rk rp rh rr) = 0) := by
          simp only [getBalanceFactor]
          omega
        have hminus : getBalanceFactor (.node rl rk rp rh rr) = -1 := by
          simp only [getBalanceFactor]
          omega
        rw [if_neg hchild, if_pos hminus]
        cases rl with
        | nil =>
            have hpos := hrr.neg_one_le
            simp only [HeightTree.height_nil] at hle
            omega
        | node b k₂ p₂ h₂ c =>
            have hlt : rr.height < h₂ := Int.not_le.mp hle
            obtain ⟨-, -, hh₂, hbc, hcb⟩ := hrl
            have hrot : rotationLeft (.node l k p h
                (rotationRight (.node (.node b k₂ p₂ h₂ c) rk rp rh rr))) =
                  .mk (.mk l k p b) k₂ p₂ (.mk c rk rp rr) := rfl
            rw [hrot]
            refine ⟨_, rfl, ⟨hl.rotate_right_left hr hrh hlt, ?_, ?_, ?_, ?_⟩, rfl⟩
            · simp
            all_goals
              simp only [HeightTree.height_node, HeightTree.height_mk] at *
              omega

/-- The left child is two higher, in the same way. -/
theorem doBalance_left (hl : l.Balanced) (hr : r.Balanced) (htwo : l.height = r.height + 2) :
    ∃ t, doBalance (.node l k p h r) = some t ∧ Rebalanced l k p r t ∧ t.setHeight = t := by
  cases l with
  | nil =>
      have hpos := hr.neg_one_le
      simp only [HeightTree.height_nil] at htwo
      omega
  | node ll lk lp lh lr =>
      have hlh : lh = r.height + 2 := htwo
      obtain ⟨hll, hlr, hmax, hnear, hnear'⟩ := id hl
      have hfactor : ¬(2 : Int) ≤ r.height - (HeightTree.node ll lk lp lh lr : AvlNode).height := by
        rw [htwo]
        omega
      have hfactor' : r.height - (HeightTree.node ll lk lp lh lr : AvlNode).height ≤ -2 := by
        rw [htwo]
        omega
      rw [doBalance, if_neg hfactor, if_pos hfactor']
      by_cases hle : lr.height ≤ ll.height
      · have hchild : getBalanceFactor (.node ll lk lp lh lr) = -1 ∨
            getBalanceFactor (.node ll lk lp lh lr) = 0 := by
          simp only [getBalanceFactor]
          omega
        rw [if_pos hchild]
        rw [rotationRight]
        refine ⟨_, rfl, ⟨hr.rotate_right hl hlh hle, ?_, ?_, ?_, ?_⟩, rfl⟩
        · simp
        all_goals
          simp only [HeightTree.height_node, HeightTree.height_mk]
          omega
      · have hchild : ¬(getBalanceFactor (.node ll lk lp lh lr) = -1 ∨
            getBalanceFactor (.node ll lk lp lh lr) = 0) := by
          simp only [getBalanceFactor]
          omega
        have hplus : getBalanceFactor (.node ll lk lp lh lr) = 1 := by
          simp only [getBalanceFactor]
          omega
        rw [if_neg hchild, if_pos hplus]
        cases lr with
        | nil =>
            have hpos := hll.neg_one_le
            simp only [HeightTree.height_nil] at hle
            omega
        | node b k₂ p₂ h₂ c =>
            have hlt : ll.height < h₂ := Int.not_le.mp hle
            obtain ⟨-, -, hh₂, hbc, hcb⟩ := hlr
            have hrot : rotationRight (.node
                (rotationLeft (.node ll lk lp lh (.node b k₂ p₂ h₂ c))) k p h r) =
                  .mk (.mk ll lk lp b) k₂ p₂ (.mk c k p r) := rfl
            rw [hrot]
            refine ⟨_, rfl, ⟨hr.rotate_left_right hl hlh hlt, ?_, ?_, ?_, ?_⟩, rfl⟩
            · simp
            all_goals
              simp only [HeightTree.height_node, HeightTree.height_mk] at *
              omega

/-- **Balancing**: of a node whose children differ by two at most.  The height of the node
itself is not read, and left as it is when there is nothing to do. -/
theorem doBalance_spec (hl : l.Balanced) (hr : r.Balanced) (hlr : l.height ≤ r.height + 2)
    (hrl : r.height ≤ l.height + 2) :
    ∃ t, doBalance (.node l k p h r) = some t ∧ Rebalanced l k p r t.setHeight ∧
      (h = max l.height r.height + 1 → t.setHeight = t) := by
  by_cases hright : r.height = l.height + 2
  · obtain ⟨t, hrun, ht, hset⟩ := doBalance_right hl hr hright (k := k) (p := p) (h := h)
    exact ⟨t, hrun, hset.symm ▸ ht, fun _ => hset⟩
  · by_cases hleft : l.height = r.height + 2
    · obtain ⟨t, hrun, ht, hset⟩ := doBalance_left hl hr hleft (k := k) (p := p) (h := h)
      exact ⟨t, hrun, hset.symm ▸ ht, fun _ => hset⟩
    · refine ⟨.node l k p h r, ?_, ⟨?_, rfl, ?_, ?_, fun _ _ => rfl⟩, fun hh => ?_⟩
      · simp only [doBalance]
        rw [if_neg (by omega), if_neg (by omega)]
      · exact HeightTree.balanced_mk.mpr ⟨hl, hr, by omega, by omega⟩
      · simp only [setHeight_node, HeightTree.height_mk]
        omega
      · simp only [setHeight_node, HeightTree.height_mk]
        omega
      · rw [setHeight_node, hh, HeightTree.mk]

/-- A balanced node is left as it is, its height too. -/
theorem doBalance_self (hb : (.node l k p h r : AvlNode).Balanced) :
    doBalance (.mk l k p r) = some (.node l k p h r) := by
  rw [← hb.eq_mk, doBalance]
  obtain ⟨-, -, -, hlr, hrl⟩ := hb
  simp only
  rw [if_neg (by omega), if_neg (by omega)]

/-- Balancing a node whose height has been set before. -/
theorem doBalance_mk (hl : l.Balanced) (hr : r.Balanced) (hlr : l.height ≤ r.height + 2)
    (hrl : r.height ≤ l.height + 2) :
    ∃ t, doBalance (.mk l k p r) = some t ∧ Rebalanced l k p r t := by
  obtain ⟨t, hrun, ht, hset⟩ :=
    doBalance_spec hl hr hlr hrl (k := k) (p := p) (h := max l.height r.height + 1)
  exact ⟨t, hrun, hset rfl ▸ ht⟩

end Balance

/-! ## taller and lower trees -/

/-- A tree after something was put into it: balanced, and as high or one higher. -/
structure Grown (t t' : AvlNode) : Prop where
  balanced : t'.Balanced
  low : t.height ≤ t'.height
  high : t'.height ≤ t.height + 1

/-- A tree after something was taken out of it: balanced, and as high or one lower. -/
structure Shrunk (t t' : AvlNode) : Prop where
  balanced : t'.Balanced
  low : t.height ≤ t'.height + 1
  high : t'.height ≤ t.height

namespace Rebalanced

variable {l l' r r' t : AvlNode} {k k₀ p p₀ : Nat} {h : Int}

theorem ne_nil (ht : Rebalanced l k p r t) : t ≠ .nil := by
  rintro rfl
  have hlist := congrArg List.length ht.toList
  simp at hlist

/-- When a child has grown and the node was balanced again, the node has grown. -/
theorem grown (hb : (.node l k₀ p₀ h r : AvlNode).Balanced) (ht : Rebalanced l' k p r' t)
    (hl : Grown l l' ∧ r' = r ∨ l' = l ∧ Grown r r') : Grown (.node l k₀ p₀ h r) t := by
  obtain ⟨-, -, hh, hlr, hrl⟩ := hb
  have hnear := ht.near
  have hlow := ht.low
  have hhigh := ht.high
  rcases hl with ⟨⟨-, hlow', hhigh'⟩, rfl⟩ | ⟨rfl, -, hlow', hhigh'⟩
  · exact ⟨ht.balanced, by rw [HeightTree.height_node]; omega,
      by rw [HeightTree.height_node]; omega⟩
  · exact ⟨ht.balanced, by rw [HeightTree.height_node]; omega,
      by rw [HeightTree.height_node]; omega⟩

/-- When a child has shrunk and the node was balanced again, the node has shrunk. -/
theorem shrunk (hb : (.node l k₀ p₀ h r : AvlNode).Balanced) (ht : Rebalanced l' k p r' t)
    (hl : Shrunk l l' ∧ r' = r ∨ l' = l ∧ Shrunk r r') : Shrunk (.node l k₀ p₀ h r) t := by
  obtain ⟨-, -, hh, hlr, hrl⟩ := hb
  have hnear := ht.near
  have hlow := ht.low
  have hhigh := ht.high
  rcases hl with ⟨⟨-, hlow', hhigh'⟩, rfl⟩ | ⟨rfl, -, hlow', hhigh'⟩
  · exact ⟨ht.balanced, by rw [HeightTree.height_node]; omega,
      by rw [HeightTree.height_node]; omega⟩
  · exact ⟨ht.balanced, by rw [HeightTree.height_node]; omega,
      by rw [HeightTree.height_node]; omega⟩

end Rebalanced

namespace Shrunk

variable {l l' r r' : AvlNode} {k p k₀ p₀ : Nat} {h : Int}

theorem refl {t : AvlNode} (hb : t.Balanced) : Shrunk t t :=
  ⟨hb, by omega, Int.le_refl _⟩

/-- A node without a left child goes, and its right child comes up. -/
theorem of_right (hb : (.node .nil k p h r : AvlNode).Balanced) :
    Shrunk (.node .nil k p h r) r := by
  obtain ⟨-, hr, hh, -, -⟩ := hb
  have hpos := hr.neg_one_le
  simp only [HeightTree.height_nil] at hh
  exact ⟨hr, by rw [HeightTree.height_node]; omega, by rw [HeightTree.height_node]; omega⟩

/-- A node without a right child goes, and its left child comes up. -/
theorem of_left (hb : (.node l k p h .nil : AvlNode).Balanced) :
    Shrunk (.node l k p h .nil) l := by
  obtain ⟨hl, -, hh, -, -⟩ := hb
  have hpos := hl.neg_one_le
  simp only [HeightTree.height_nil] at hh
  exact ⟨hl, by rw [HeightTree.height_node]; omega, by rw [HeightTree.height_node]; omega⟩

/-- Balancing works where a child has shrunk: the heights still differ by two at most. -/
theorem balance_left (hb : (.node l k₀ p₀ h r : AvlNode).Balanced) (hl : Shrunk l l') :
    ∃ t, doBalance (.mk l' k p r) = some t ∧ Rebalanced l' k p r t ∧
      Shrunk (.node l k₀ p₀ h r) t := by
  have hlow := hl.low
  have hhigh := hl.high
  obtain ⟨-, hr, -, hlr, hrl⟩ := id hb
  obtain ⟨t, hrun, ht⟩ := doBalance_mk hl.balanced hr (by omega) (by omega) (k := k) (p := p)
  exact ⟨t, hrun, ht, ht.shrunk hb (.inl ⟨hl, rfl⟩)⟩

theorem balance_right (hb : (.node l k₀ p₀ h r : AvlNode).Balanced) (hr : Shrunk r r') :
    ∃ t, doBalance (.mk l k p r') = some t ∧ Rebalanced l k p r' t ∧
      Shrunk (.node l k₀ p₀ h r) t := by
  have hlow := hr.low
  have hhigh := hr.high
  obtain ⟨hl, -, -, hlr, hrl⟩ := id hb
  obtain ⟨t, hrun, ht⟩ := doBalance_mk hl hr.balanced (by omega) (by omega) (k := k) (p := p)
  exact ⟨t, hrun, ht, ht.shrunk hb (.inr ⟨rfl, hr⟩)⟩

end Shrunk

/-! ## what insertion does -/

/-- **Insertion**: the tree stays balanced and has the entry where it belongs.  The induction is
over the tree, with `Grown` for the child. -/
theorem avltreeInsert_spec (key page : Nat) {t : AvlNode} (hb : t.Balanced)
    (hs : Sorted t.toList) :
    ∃ t', avltreeInsert key page t = some t' ∧ Grown t t' ∧
      t'.toList = insertKey key page t.toList := by
  induction t with
  | nil =>
      refine ⟨.mk .nil key page .nil, ?_, ⟨?_, ?_, ?_⟩, rfl⟩
      · simp [avltreeInsert, make, doBalance]
      · exact HeightTree.balanced_mk.mpr ⟨trivial, trivial, by decide, by decide⟩
      all_goals simp
  | node l k p h r ihl ihr =>
      obtain ⟨hl, hr, -, hlr, hrl⟩ := id hb
      obtain ⟨hsl, hsr, -, -⟩ := sorted_append_cons.mp hs
      by_cases hge : key ≥ k
      · obtain ⟨r', hrun, hr', hlist⟩ := ihr hr hsr
        have hlow := hr'.low
        have hhigh := hr'.high
        obtain ⟨t, hbal, ht, -⟩ := doBalance_spec hl hr'.balanced (by omega) (by omega)
          (k := k) (p := p) (h := h)
        refine ⟨t.setHeight, ?_, ht.grown hb (.inr ⟨rfl, hr'⟩), ?_⟩
        · simp [avltreeInsert, hge, hrun, hbal]
        · rw [ht.toList, hlist, HeightTree.toList_node, insertKey_of_le hs hge]
      · obtain ⟨l', hrun, hl', hlist⟩ := ihl hl hsl
        have hlow := hl'.low
        have hhigh := hl'.high
        obtain ⟨t, hbal, ht, -⟩ := doBalance_spec hl'.balanced hr (by omega) (by omega)
          (k := k) (p := p) (h := h)
        refine ⟨t.setHeight, ?_, ht.grown hb (.inl ⟨hl', rfl⟩), ?_⟩
        · simp [avltreeInsert, hge, hrun, hbal]
        · rw [ht.toList, hlist, HeightTree.toList_node, insertKey_of_lt (not_le.mp hge)]

/-! ## what removal does -/

/-- A child that is there stays where it is, and nothing is relinked. -/
theorem relink_of_ne_nil (dir : RotationDir) {child : AvlNode} (hne : child ≠ .nil)
    (found : AvlNode) : relink dir child found = (child, found) := by
  cases child with
  | nil => exact absurd rfl hne
  | node => rfl

/-- The first node is taken out, if it is not the root: it is handed back with what was its
right child, and the rest is balanced. -/
theorem unlinkEndNode_left {l r : AvlNode} {k p : Nat} {h : Int}
    (hb : (.node l k p h r : AvlNode).Balanced) (hne : l ≠ .nil) :
    ∃ t k' p' h', unlinkEndNode .left (.node l k p h r) =
        some (t, .node .nil k' p' h' .nil) ∧ t ≠ .nil ∧ Shrunk (.node l k p h r) t ∧
      (k', p') :: t.toList = l.toList ++ (k, p) :: r.toList := by
  induction l generalizing k p h r with
  | nil => exact absurd rfl hne
  | node ll lk lp lh lr ihl _ =>
      by_cases hend : ll = .nil
      · -- the child is the first node, and its right child takes its place
        subst hend
        obtain ⟨t, hrun, ht, hshrunk⟩ := (Shrunk.of_right hb.left).balance_left hb (k := k) (p := p)
        refine ⟨t, lk, lp, lh, ?_, ht.ne_nil, hshrunk, ?_⟩
        · simp [unlinkEndNode, relink, hrun]
        · simp [ht.toList]
      · obtain ⟨l', k', p', h', hrun, hl', hshrunk, hlist⟩ := ihl hb.left hend
        obtain ⟨t, hbal, ht, hshrunk'⟩ := hshrunk.balance_left hb (k := k) (p := p)
        refine ⟨t, k', p', h', ?_, ht.ne_nil, hshrunk', ?_⟩
        · rw [unlinkEndNode, if_neg (by simp), hrun]
          simp [relink_of_ne_nil _ hl', hbal]
        · rw [ht.toList, HeightTree.toList_node, ← hlist]
          rfl

/-- The last node is taken out, if it is not the root, in the same way. -/
theorem unlinkEndNode_right {l r : AvlNode} {k p : Nat} {h : Int}
    (hb : (.node l k p h r : AvlNode).Balanced) (hne : r ≠ .nil) :
    ∃ t k' p' h', unlinkEndNode .right (.node l k p h r) =
        some (t, .node .nil k' p' h' .nil) ∧ t ≠ .nil ∧ Shrunk (.node l k p h r) t ∧
      t.toList ++ [(k', p')] = l.toList ++ (k, p) :: r.toList := by
  induction r generalizing k p h l with
  | nil => exact absurd rfl hne
  | node rl rk rp rh rr _ ihr =>
      by_cases hend : rr = .nil
      · -- the child is the last node, and its left child takes its place
        subst hend
        obtain ⟨t, hrun, ht, hshrunk⟩ :=
          (Shrunk.of_left hb.right).balance_right hb (k := k) (p := p)
        refine ⟨t, rk, rp, rh, ?_, ht.ne_nil, hshrunk, ?_⟩
        · simp [unlinkEndNode, relink, hrun]
        · simp [ht.toList]
      · obtain ⟨r', k', p', h', hrun, hr', hshrunk, hlist⟩ := ihr hb.right hend
        obtain ⟨t, hbal, ht, hshrunk'⟩ := hshrunk.balance_right hb (k := k) (p := p)
        refine ⟨t, k', p', h', ?_, ht.ne_nil, hshrunk', ?_⟩
        · rw [unlinkEndNode, if_neg (by simp), hrun]
          simp [relink_of_ne_nil _ hr', hbal]
        · rw [ht.toList, HeightTree.toList_node, ← hlist]
          simp

/-- An empty subtree, or one that starts at its root. -/
theorem unlinkEndNode_left_root {t : AvlNode} (h : ∀ l k p ht r, t = .node l k p ht r → l = .nil) :
    unlinkEndNode .left t = some (.nil, t) := by
  cases t with
  | nil => rfl
  | node l k p ht r => simp [unlinkEndNode, h l k p ht r rfl]

/-- An empty subtree, or one that ends at its root. -/
theorem unlinkEndNode_right_root {t : AvlNode} (h : ∀ l k p ht r, t = .node l k p ht r → r = .nil) :
    unlinkEndNode .right t = some (.nil, t) := by
  cases t with
  | nil => rfl
  | node l k p ht r => simp [unlinkEndNode, h l k p ht r rfl]

/-- A tree balanced after the node with these children has been unlinked. -/
structure Unlinked (l : AvlNode) (k p : Nat) (h : Int) (r t : AvlNode) : Prop where
  setHeight : t.setHeight = t
  balance : ∃ t', doBalance t = some t' ∧ Shrunk (.node l k p h r) t' ∧
    t'.toList = l.toList ++ r.toList

/-- **Unlinking**: what comes in the place of the node has the entries of its children, and can
be balanced.  There is one case for each place the source takes `end_node` from. -/
theorem doUnlink_spec {l r : AvlNode} {k p : Nat} {h : Int}
    (hb : (.node l k p h r : AvlNode).Balanced) :
    ∃ t, doUnlink l r = some t ∧ Unlinked l k p h r t := by
  by_cases hr : ∀ rl rk rp rh rr, r = .node rl rk rp rh rr → rl = .nil
  · have hfirst := unlinkEndNode_left_root hr
    by_cases hl : ∀ ll lk lp lh lr, l = .node ll lk lp lh lr → lr = .nil
    · have hsecond := unlinkEndNode_right_root hl
      match r, l with
      | .node rl rk rp rh rr, l =>
          obtain rfl := hr _ _ _ _ _ rfl
          obtain ⟨t, hrun, ht, hshrunk⟩ :=
            (Shrunk.of_right hb.right).balance_right hb (k := rk) (p := rp)
          refine ⟨.mk l rk rp rr, ?_, rfl, t, hrun, hshrunk, ?_⟩
          · simp [doUnlink, hfirst, hsecond, takePlace]
          · simp [ht.toList]
      | .nil, .node ll lk lp lh lr =>
          obtain rfl := hl _ _ _ _ _ rfl
          obtain ⟨t, hrun, ht, hshrunk⟩ :=
            (Shrunk.of_left hb.left).balance_left hb (k := lk) (p := lp)
          refine ⟨.mk ll lk lp .nil, ?_, rfl, t, hrun, hshrunk, ?_⟩
          · simp [doUnlink, hfirst, hsecond, takePlace]
          · simp [ht.toList]
      | .nil, .nil =>
          refine ⟨.nil, ?_, rfl, .nil, rfl, .of_right hb, rfl⟩
          simp [doUnlink, hfirst, hsecond]
    · push Not at hl
      obtain ⟨ll, lk, lp, lh, lr, rfl, hne⟩ := hl
      obtain ⟨l', k', p', h', hrun, hl', hshrunk, hlist⟩ := unlinkEndNode_right hb.left hne
      obtain ⟨t, hbal, ht, hshrunk'⟩ := hshrunk.balance_left hb (k := k') (p := p')
      refine ⟨.mk l' k' p' r, ?_, rfl, t, hbal, hshrunk', ?_⟩
      · simp [doUnlink, hfirst, hrun, hl', takePlace]
      · rw [ht.toList, HeightTree.toList_node, ← hlist]
        simp
  · push Not at hr
    obtain ⟨rl, rk, rp, rh, rr, rfl, hne⟩ := hr
    obtain ⟨r', k', p', h', hrun, hr', hshrunk, hlist⟩ := unlinkEndNode_left hb.right hne
    obtain ⟨t, hbal, ht, hshrunk'⟩ := hshrunk.balance_right hb (k := k') (p := p')
    refine ⟨.mk l k' p' r', ?_, rfl, t, hbal, hshrunk', ?_⟩
    · simp [doUnlink, hrun, hr', takePlace]
    · rw [ht.toList, HeightTree.toList_node, ← hlist]

/-- The root is removed: the rest has the entries on both sides of it. -/
theorem unlink_root {l r : AvlNode} {k p : Nat} {h : Int} {q : Nat × Nat → Bool}
    (hb : (.node l k p h r : AvlNode).Balanced) (hl : ∀ y ∈ l.toList, ¬q y = true)
    (hq : q (k, p) = true) :
    ∃ t, doUnlink l r = some t ∧ ∃ t', doBalance t.setHeight = some t' ∧
      Shrunk (.node l k p h r) t' ∧
        (some (k, p), t'.toList) = takeFirst q (l.toList ++ (k, p) :: r.toList) := by
  obtain ⟨t, hrun, hset, t', hbal, hshrunk, hlist⟩ := doUnlink_spec hb
  exact ⟨t, hrun, t', by rw [hset, hbal], hshrunk, by rw [takeFirst_mid hl hq, hlist]⟩

/-- **Removal**: the tree stays balanced, and the entry of the key is taken out if there is
one. -/
theorem avltreeRemove_spec (key : Nat) {t : AvlNode} (hb : t.Balanced) (hs : Sorted t.toList) :
    ∃ t' found, avltreeRemove key t = some (t', found) ∧ Shrunk t t' ∧
      (found, t'.toList) = takeFirst (fun x => x.1 = key) t.toList ∧ (found = none → t' = t) := by
  induction t with
  | nil => exact ⟨.nil, none, rfl, .refl trivial, rfl, fun _ => rfl⟩
  | node l k p h r ihl ihr =>
      obtain ⟨hsl, hsr, hlt, hgt⟩ := sorted_append_cons.mp hs
      rw [HeightTree.toList_node]
      by_cases heq : key = k
      · have hleft : ∀ y ∈ l.toList, ¬decide (y.1 = key) = true := fun y hy => by
          simpa [heq] using (hlt y hy).ne
        obtain ⟨t, hrun, t', hbal, hshrunk, hlist⟩ := unlink_root hb hleft (by simp [heq])
        refine ⟨t', some (k, p), ?_, hshrunk, hlist, fun h => by cases h⟩
        rw [avltreeRemove]
        simp only [if_pos heq, hrun]
        simp [hbal]
      · by_cases hright : key > k
        · have hleft : ∀ y ∈ l.toList, ¬decide (y.1 = key) = true := fun y hy => by
            simpa using ((hlt y hy).trans hright).ne
          obtain ⟨r', found, hrun, hr', hlist, hsame⟩ := ihr hb.right hsr
          obtain ⟨t, hbal, ht, hshrunk⟩ := hr'.balance_right hb (k := k) (p := p)
          refine ⟨t, found, ?_, hshrunk, ?_, fun hnone => ?_⟩
          · rw [avltreeRemove]
            simp only [if_neg heq, if_pos hright, hrun]
            simp [hbal]
          · rw [takeFirst_right hleft (by simpa using Ne.symm heq), ← hlist, ht.toList]
          · rw [hsame hnone, doBalance_self hb] at hbal
            exact (Option.some.inj hbal).symm
        · obtain ⟨l', found, hrun, hl', hlist, hsame⟩ := ihl hb.left hsl
          obtain ⟨t, hbal, ht, hshrunk⟩ := hl'.balance_left hb (k := k) (p := p)
          refine ⟨t, found, ?_, hshrunk, ?_, fun hnone => ?_⟩
          · rw [avltreeRemove]
            simp only [if_neg heq, if_neg hright, hrun]
            simp [hbal]
          · have hlt' : key < k := lt_of_le_of_ne (not_lt.mp hright) heq
            rw [ht.toList]
            cases found with
            | some y =>
                rw [takeFirst_left (y := y) (by rw [← hlist]), ← hlist]
            | none =>
                have hnone := takeFirst_eq_none (show (takeFirst _ l.toList).1 = none by
                  rw [← hlist])
                rw [hsame rfl, takeFirst_none]
                intro y hy
                rcases List.mem_append.mp hy with hy | hy
                · exact hnone y hy
                · rcases List.mem_cons.mp hy with rfl | hy
                  · simpa using Ne.symm heq
                  · simpa using (hlt'.trans (hgt y hy)).ne'
          · rw [hsame hnone, doBalance_self hb] at hbal
            exact (Option.some.inj hbal).symm

/-- **Removal from above**: the tree stays balanced, and the entry with the least key that is
not below the one given is taken out, if there is one. -/
theorem removeApproxValue_spec (key : Nat) {t : AvlNode} (hb : t.Balanced)
    (hs : Sorted t.toList) :
    ∃ t' found, removeApproxValue key t = some (t', found) ∧ Shrunk t t' ∧
      (found, t'.toList) = takeFirst (fun x => key ≤ x.1) t.toList ∧ (found = none → t' = t) := by
  induction t with
  | nil => exact ⟨.nil, none, rfl, .refl trivial, rfl, fun _ => rfl⟩
  | node l k p h r ihl ihr =>
      obtain ⟨hsl, hsr, hlt, hgt⟩ := sorted_append_cons.mp hs
      rw [HeightTree.toList_node]
      by_cases heq : key = k
      · have hleft : ∀ y ∈ l.toList, ¬decide (key ≤ y.1) = true := fun y hy => by
          simpa [heq] using hlt y hy
        obtain ⟨t, hrun, t', hbal, hshrunk, hlist⟩ := unlink_root hb hleft (by simp [heq])
        refine ⟨t', some (k, p), ?_, hshrunk, hlist, fun h => by cases h⟩
        rw [removeApproxValue]
        simp only [if_pos heq, hrun]
        simp [hbal]
      · by_cases hright : key > k
        · have hleft : ∀ y ∈ l.toList, ¬decide (key ≤ y.1) = true := fun y hy => by
            simpa using (hlt y hy).trans hright
          obtain ⟨r', found, hrun, hr', hlist, hsame⟩ := ihr hb.right hsr
          obtain ⟨t, hbal, ht, hshrunk⟩ := hr'.balance_right hb (k := k) (p := p)
          refine ⟨t, found, ?_, hshrunk, ?_, fun hnone => ?_⟩
          · rw [removeApproxValue]
            simp only [if_neg heq, if_pos hright, hrun]
            simp [hbal]
          · rw [takeFirst_right hleft (by simpa using hright), ← hlist, ht.toList]
          · rw [hsame hnone, doBalance_self hb] at hbal
            exact (Option.some.inj hbal).symm
        · obtain ⟨l', found, hrun, hl', hlist, hsame⟩ := ihl hb.left hsl
          cases found with
          | some y =>
              obtain ⟨t, hbal, ht, hshrunk⟩ := hl'.balance_left hb (k := k) (p := p)
              refine ⟨t, some y, ?_, hshrunk, ?_, fun h => by cases h⟩
              · rw [removeApproxValue]
                simp only [if_neg heq, if_neg hright, hrun]
                simp [hbal]
              · rw [ht.toList, takeFirst_left (y := y) (by rw [← hlist]), ← hlist]
          | none =>
              -- nothing on the left is as great as the key, so it is the root
              obtain rfl := hsame rfl
              have hleft := takeFirst_eq_none (show (takeFirst _ l'.toList).1 = none by
                rw [← hlist])
              have hroot : decide (key ≤ k) = true := decide_eq_true (not_lt.mp hright)
              obtain ⟨t, hunlink, t', hbal, hshrunk, hlist'⟩ := unlink_root hb hleft hroot
              refine ⟨t', some (k, p), ?_, hshrunk, hlist', fun h => by cases h⟩
              rw [removeApproxValue]
              simp only [if_neg heq, if_neg hright, hrun]
              simp [hunlink, hbal]

/-! ## runs -/

/-- A call on a tree, as the allocator makes them. -/
inductive AvlCall where
  | insert (key page : Nat)
  | remove (key : Nat)
  | removeApprox (key : Nat)
  deriving DecidableEq

/-- What a call finds, and the tree after it. -/
def avlCall (t : AvlNode) : AvlCall → Option (Option (Nat × Nat) × AvlNode)
  | .insert key page => (avltreeInsert key page t).map fun t => (none, t)
  | .remove key => (avltreeRemove key t).map Prod.swap
  | .removeApprox key => (removeApproxValue key t).map Prod.swap

/-- Calls in a row, with what each of them finds; `none` once one of them does not end. -/
def avlRun : List AvlCall → AvlNode → Option (List (Option (Nat × Nat)) × AvlNode)
  | [], t => some ([], t)
  | call :: calls, t => do
      let (found, t) ← avlCall t call
      let (founds, t) ← avlRun calls t
      return (found :: founds, t)

/-- The call on a sorted list of entries, which is what the tree is for. -/
def listCall (xs : List (Nat × Nat)) : AvlCall → Option (Nat × Nat) × List (Nat × Nat)
  | .insert key page => (none, insertKey key page xs)
  | .remove key => takeFirst (fun x => x.1 = key) xs
  | .removeApprox key => takeFirst (fun x => key ≤ x.1) xs

/-- The calls on a sorted list. -/
def listRun : List AvlCall → List (Nat × Nat) → List (Option (Nat × Nat)) × List (Nat × Nat)
  | [], xs => ([], xs)
  | call :: calls, xs =>
      let rest := listRun calls (listCall xs call).2
      ((listCall xs call).1 :: rest.1, rest.2)

/-- Only keys that are not there are inserted. -/
def NewKeys : List AvlCall → List (Nat × Nat) → Prop
  | [], _ => True
  | call :: calls, xs =>
      (∀ key page, call = .insert key page → ∀ y ∈ xs, y.1 ≠ key) ∧
        NewKeys calls (listCall xs call).2

/-- What is left by the call on a sorted list is sorted. -/
theorem sorted_takeFirst {p : Nat × Nat → Bool} {xs : List (Nat × Nat)} (hs : Sorted xs) :
    Sorted (takeFirst p xs).2 := by
  cases hfound : (takeFirst p xs).1 with
  | none => rwa [takeFirst_none (takeFirst_eq_none hfound)]
  | some y => exact (takeFirst_sorted hs hfound).2.2.2.1

/-- **One call** on a balanced tree is the call on its entries. -/
theorem avlCall_spec {t : AvlNode} (hb : t.Balanced) (hs : Sorted t.toList) (call : AvlCall)
    (hnew : ∀ key page, call = .insert key page → ∀ y ∈ t.toList, y.1 ≠ key) :
    ∃ t', avlCall t call = some ((listCall t.toList call).1, t') ∧
      t'.toList = (listCall t.toList call).2 ∧ t'.Balanced ∧ Sorted t'.toList := by
  cases call with
  | insert key page =>
      obtain ⟨t', hrun, hgrown, hlist⟩ := avltreeInsert_spec key page hb hs
      refine ⟨t', by rw [avlCall, hrun]; rfl, hlist, hgrown.balanced, ?_⟩
      rw [hlist]
      exact sorted_insertKey hs (hnew key page rfl)
  | remove key =>
      obtain ⟨t', found, hrun, hshrunk, hlist, -⟩ := avltreeRemove_spec key hb hs
      have hrest : t'.toList = (takeFirst (fun x => x.1 = key) t.toList).2 :=
        congrArg Prod.snd hlist
      refine ⟨t', ?_, hrest, hshrunk.balanced, hrest ▸ sorted_takeFirst hs⟩
      rw [avlCall, hrun, listCall, ← hlist]
      rfl
  | removeApprox key =>
      obtain ⟨t', found, hrun, hshrunk, hlist, -⟩ := removeApproxValue_spec key hb hs
      have hrest : t'.toList = (takeFirst (fun x => key ≤ x.1) t.toList).2 :=
        congrArg Prod.snd hlist
      refine ⟨t', ?_, hrest, hshrunk.balanced, hrest ▸ sorted_takeFirst hs⟩
      rw [avlCall, hrun, listCall, ← hlist]
      rfl

/-- Calls in a row from a balanced tree are the calls on its entries, by induction on the
calls. -/
theorem avlRun_spec {t : AvlNode} (hb : t.Balanced) (hs : Sorted t.toList)
    (calls : List AvlCall) (hnew : NewKeys calls t.toList) :
    ∃ t', avlRun calls t = some ((listRun calls t.toList).1, t') ∧
      t'.toList = (listRun calls t.toList).2 ∧ t'.Balanced := by
  induction calls generalizing t with
  | nil => exact ⟨t, rfl, rfl, hb⟩
  | cons call calls ih =>
      obtain ⟨t₁, hcall, hlist₁, hb₁, hs₁⟩ := avlCall_spec hb hs call hnew.1
      obtain ⟨t₂, hrun, hlist₂, hb₂⟩ := ih hb₁ hs₁ (by rw [hlist₁]; exact hnew.2)
      rw [hlist₁] at hrun hlist₂
      refine ⟨t₂, ?_, hlist₂, hb₂⟩
      simp only [avlRun, hcall, hrun, Option.bind_eq_bind, Option.bind_some]
      rfl

/-- **Trees are sorted lists**: no call of any run from the empty tree stops at the `ASSERT` of
`do_balance`, every call finds what it finds in a sorted list, and the tree is as deep as a
Fibonacci number of entries allows at most. -/
theorem avl_run_refines (calls : List AvlCall) (hnew : NewKeys calls []) :
    ∃ t, avlRun calls .nil = some ((listRun calls []).1, t) ∧ t.toList = (listRun calls []).2 ∧
      t.Balanced ∧ Nat.fib (t.height + 3).toNat ≤ t.toList.length + 1 := by
  obtain ⟨t, hrun, hlist, hb⟩ := avlRun_spec (t := .nil) trivial .nil calls hnew
  exact ⟨t, hrun, hlist, hb, hb.fib_le_length⟩

theorem avl_run_refines_five :
    ∃ t, avlRun [.insert 2 7, .insert 1 8, .insert 3 9, .removeApprox 2, .remove 5] .nil =
        some ([none, none, none, some (2, 7), none], t) ∧ t.toList = [(1, 8), (3, 9)] ∧
      t.Balanced ∧ Nat.fib (t.height + 3).toNat ≤ t.toList.length + 1 :=
  avl_run_refines [.insert 2 7, .insert 1 8, .insert 3 9, .removeApprox 2, .remove 5]
    (by simp [NewKeys, listCall, insertKey, takeFirst])

/-! ## trees of a set -/

/-- The tree has an entry for each element of a set, and no other.  The elements are given by
their key and the page they are found with; the set itself is a predicate, so what an
operation does to the tree is what it does to the set. -/
structure Indexes {ι : Type} (key page : ι → Nat) (S : ι → Prop) (t : AvlNode) : Prop where
  balanced : t.Balanced
  sorted : Sorted t.toList
  mem : ∀ x, x ∈ t.toList ↔ ∃ i, S i ∧ x = (key i, page i)

namespace Indexes

variable {ι : Type} {key page : ι → Nat} {S S' : ι → Prop} {t : AvlNode}

theorem congr (h : Indexes key page S t) (hiff : ∀ i, S i ↔ S' i) : Indexes key page S' t := by
  refine ⟨h.balanced, h.sorted, fun x => ?_⟩
  rw [h.mem x]
  exact exists_congr fun i => and_congr_left fun _ => hiff i

theorem nil : Indexes key page (fun _ => False) .nil :=
  ⟨trivial, .nil, by simp⟩

/-- A new element, whose key none of the set has. -/
theorem insert (h : Indexes key page S t) {i : ι} (hnew : ∀ j, S j → key j ≠ key i) :
    ∃ t', avltreeInsert (key i) (page i) t = some t' ∧
      Indexes key page (fun j => j = i ∨ S j) t' := by
  obtain ⟨t', hrun, hgrown, hlist⟩ := avltreeInsert_spec (key i) (page i) h.balanced h.sorted
  refine ⟨t', hrun, hgrown.balanced, ?_, fun x => ?_⟩
  · rw [hlist]
    refine sorted_insertKey h.sorted fun y hy => ?_
    obtain ⟨j, hj, rfl⟩ := (h.mem y).mp hy
    exact hnew j hj
  · rw [hlist, mem_insertKey, h.mem x]
    constructor
    · rintro (rfl | ⟨j, hj, rfl⟩)
      · exact ⟨i, .inl rfl, rfl⟩
      · exact ⟨j, .inr hj, rfl⟩
    · rintro ⟨j, rfl | hj, rfl⟩
      · exact .inl rfl
      · exact .inr ⟨j, hj, rfl⟩

/-- What is left when the entry of an element has been taken out are the elements with other
keys. -/
theorem of_takeFirst (h : Indexes key page S t) {p : Nat × Nat → Bool} {t' : AvlNode}
    {found : Option (Nat × Nat)} (hshrunk : Shrunk t t')
    (hlist : (found, t'.toList) = takeFirst p t.toList) :
    (found = none ∧ ∀ j, S j → ¬p (key j, page j) = true) ∨
      ∃ i, S i ∧ p (key i, page i) = true ∧ found = some (key i, page i) ∧
        (∀ j, S j → p (key j, page j) = true → key i ≤ key j) ∧
          Indexes key page (fun j => S j ∧ key j ≠ key i) t' := by
  have hfound : (takeFirst p t.toList).1 = found := congrArg Prod.fst hlist.symm
  have hrest : t'.toList = (takeFirst p t.toList).2 := congrArg Prod.snd hlist
  cases found with
  | none =>
      exact .inl ⟨rfl, fun j hj => takeFirst_eq_none hfound _ ((h.mem _).mpr ⟨j, hj, rfl⟩)⟩
  | some y =>
      obtain ⟨hy, hpy, hleast, hsorted, hmem⟩ := takeFirst_sorted h.sorted hfound
      obtain ⟨i, hi, rfl⟩ := (h.mem y).mp hy
      refine .inr ⟨i, hi, hpy, rfl, fun j hj hp => hleast _ ((h.mem _).mpr ⟨j, hj, rfl⟩) hp,
        hshrunk.balanced, ?_, fun x => ?_⟩
      · rw [hrest]
        exact hsorted
      · rw [hrest, hmem, h.mem]
        constructor
        · rintro ⟨⟨j, hj, rfl⟩, hne⟩
          exact ⟨j, ⟨hj, hne⟩, rfl⟩
        · rintro ⟨j, ⟨hj, hne⟩, rfl⟩
          exact ⟨⟨j, hj, rfl⟩, hne⟩

/-- **Removal** from the tree of a set: no element has the key and the tree is as before, or
one has and is gone. -/
theorem remove (h : Indexes key page S t) (k : Nat) :
    ∃ t' found, avltreeRemove k t = some (t', found) ∧
      ((found = none ∧ (∀ j, S j → key j ≠ k) ∧ t' = t) ∨
        ∃ i, S i ∧ key i = k ∧ found = some (key i, page i) ∧
          Indexes key page (fun j => S j ∧ key j ≠ key i) t') := by
  obtain ⟨t', found, hrun, hshrunk, hlist, hsame⟩ := avltreeRemove_spec k h.balanced h.sorted
  refine ⟨t', found, hrun, (h.of_takeFirst hshrunk hlist).imp ?_ ?_⟩
  · rintro ⟨hnone, hall⟩
    exact ⟨hnone, fun j hj => by simpa using hall j hj, hsame hnone⟩
  · rintro ⟨i, hi, hp, hfound, -, hrest⟩
    exact ⟨i, hi, by simpa using hp, hfound, hrest⟩

/-- **Removal from above** from the tree of a set: the element with the least key that is not
below the one given, or none. -/
theorem removeApprox (h : Indexes key page S t) (k : Nat) :
    ∃ t' found, removeApproxValue k t = some (t', found) ∧
      ((found = none ∧ (∀ j, S j → key j < k) ∧ t' = t) ∨
        ∃ i, S i ∧ k ≤ key i ∧ found = some (key i, page i) ∧
          (∀ j, S j → k ≤ key j → key i ≤ key j) ∧
            Indexes key page (fun j => S j ∧ key j ≠ key i) t') := by
  obtain ⟨t', found, hrun, hshrunk, hlist, hsame⟩ := removeApproxValue_spec k h.balanced h.sorted
  refine ⟨t', found, hrun, (h.of_takeFirst hshrunk hlist).imp ?_ ?_⟩
  · rintro ⟨hnone, hall⟩
    exact ⟨hnone, fun j hj => by simpa using hall j hj, hsame hnone⟩
  · rintro ⟨i, hi, hp, hfound, hleast, hrest⟩
    exact ⟨i, hi, by simpa using hp, hfound, fun j hj hk => hleast j hj (by simpa using hk), hrest⟩

end Indexes

end MtEmu
