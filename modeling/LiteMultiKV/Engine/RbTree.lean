import LiteMultiKV.Core.LinkedTree
import LiteMultiKV.Engine.Memory

/-!
# The red-black engine

`kvs_rbtree.c` is the textbook pointer algorithm with parent links and one
sentinel node `nil`, whose colour is set once and whose parent field is
borrowed during a deletion; its child fields and key are never initialised, so
reading them has no defined result.  The mirrored branches of the source are
one definition with the side as a parameter.  Loops take fuel; the theorems of
the later files show that the number of allocated nodes is enough.
-/

namespace LiteMultiKV.RbTree

open CText Dictionary LinkedTree Memory RedBlack

/-- `rbtree`, with the memory of its nodes. -/
abbrev KvsRbtree := Heap CStr StrPtr

/-- The loop of `rbtree_mini`. -/
def walk : ℕ → KvsRbtree → ℕ → Option ℕ
  | 0, _, _ => none
  | fuel + 1, tree, x => do
      let below ← tree.child .left x
      if below ≠ tree.nil then walk fuel tree below else return x

def rbtreeMini (tree : KvsRbtree) (x : ℕ) : Option ℕ :=
  walk tree.next tree x

/-- The upward loop of `rbtree_successor`. -/
def climb : ℕ → KvsRbtree → ℕ → ℕ → Option ℕ
  | 0, _, _, _ => none
  | fuel + 1, tree, x, y =>
      if y ≠ tree.nil ∧ x = tree.link .right y then
        climb fuel tree y (tree.parent y)
      else some y

def rbtreeSuccessor (tree : KvsRbtree) (x : ℕ) : Option ℕ := do
  let right ← tree.child .right x
  if right ≠ tree.nil then rbtreeMini tree right
  else climb tree.next tree x (tree.parent x)

/-- Put `y` where the parent of `x` points at `x`.  The source asks for one
side first and takes the other one otherwise. -/
def replaceChild (side : Side) (tree : KvsRbtree) (x y : ℕ) : KvsRbtree :=
  let up := tree.parent x
  if up = tree.nil then tree.setRoot y
  else if x = tree.link side up then tree.setLink side up y
  else tree.setLink side.opposite up y

/-- The rotation that moves `x` down to `side`. -/
def rotate (side : Side) (tree : KvsRbtree) (x : ℕ) : Option KvsRbtree := do
  let y ← tree.child side.opposite x
  let middle ← tree.child side y
  let tree := tree.setLink side.opposite x middle
  let tree := if middle ≠ tree.nil then tree.setParent middle x else tree
  let tree := tree.setParent y (tree.parent x)
  let tree := replaceChild side tree x y
  let tree := tree.setLink side y x
  return tree.setParent x y

def rbtreeLeftRotate : KvsRbtree → ℕ → Option KvsRbtree :=
  rotate .left

def rbtreeRightRotate : KvsRbtree → ℕ → Option KvsRbtree :=
  rotate .right

/-- Which child of its parent a node is, by the test of the source. -/
def sideOf (tree : KvsRbtree) (x up : ℕ) : Option Side := do
  let left ← tree.child .left up
  return if x = left then .left else .right

/-- The first half of the branch of `rbtree_insert_fixup` for a black uncle:
bring the red pair to the outer side. -/
def insertInner (side : Side) (tree : KvsRbtree) (z : ℕ) : Option (KvsRbtree × ℕ) := do
  let inner ← tree.child side.opposite (tree.parent z)
  if z = inner then
    let z := tree.parent z
    let tree ← rotate side tree z
    return (tree, z)
  else return (tree, z)

/-- The second half: recolour and rotate the grandparent down. -/
def insertOuter (side : Side) (tree : KvsRbtree) (z : ℕ) : Option KvsRbtree :=
  let tree := tree.setColor (tree.parent z) .black
  let tree := tree.setColor (tree.parent (tree.parent z)) .red
  rotate side.opposite tree (tree.parent (tree.parent z))

def rbtreeInsertFixup : ℕ → KvsRbtree → ℕ → Option KvsRbtree
  | 0, _, _ => none
  | fuel + 1, tree, z =>
      if tree.color (tree.parent z) = .red then do
        let grand := tree.parent (tree.parent z)
        let side ← sideOf tree (tree.parent z) grand
        let uncle ← tree.child side.opposite grand
        if tree.color uncle = .red then
          let tree := tree.setColor (tree.parent z) .black
          let tree := tree.setColor uncle .black
          let tree := tree.setColor (tree.parent (tree.parent z)) .red
          rbtreeInsertFixup fuel tree (tree.parent (tree.parent z))
        else
          let (tree, z) ← insertInner side tree z
          let tree ← insertOuter side tree z
          rbtreeInsertFixup fuel tree z
      else some (tree.setColor tree.root .black)

/-- The descent of `rbtree_insert`: the node to hang the new one on, or
`some none` when the key is found. -/
def insertPoint (key : CStr) : ℕ → KvsRbtree → ℕ → ℕ → Option (Option ℕ)
  | 0, _, _, _ => none
  | fuel + 1, tree, x, y =>
      if x = tree.nil then some (some y)
      else if strcmp key (tree.key x) < 0 then
        insertPoint key fuel tree (tree.link .left x) x
      else if strcmp key (tree.key x) > 0 then
        insertPoint key fuel tree (tree.link .right x) x
      else some none

def rbtreeInsert (tree : KvsRbtree) (z : ℕ) : Option KvsRbtree := do
  match ← insertPoint (tree.key z) tree.next tree tree.root tree.nil with
  | none => return tree
  | some y =>
      let tree := tree.setParent z y
      let tree :=
        if y = tree.nil then tree.setRoot z
        else if strcmp (tree.key z) (tree.key y) < 0 then tree.setLink .left y z
        else tree.setLink .right y z
      let tree := tree.setLink .left z tree.nil
      let tree := tree.setLink .right z tree.nil
      let tree := tree.setColor z .red
      rbtreeInsertFixup tree.next tree z

/-- The first branch of `rbtree_delete_fixup`: a red sibling is rotated away. -/
def redSibling (side : Side) (tree : KvsRbtree) (x w : ℕ) : Option (KvsRbtree × ℕ) :=
  if tree.color w = .red then do
    let tree := tree.setColor w .black
    let tree := tree.setColor (tree.parent x) .red
    let tree ← rotate side tree (tree.parent x)
    let w ← tree.child side.opposite (tree.parent x)
    return (tree, w)
  else return (tree, w)

/-- Make the far child of the sibling red if it is not. -/
def nearRed (side : Side) (tree : KvsRbtree) (x w : ℕ) : Option (KvsRbtree × ℕ) := do
  let far ← tree.child side.opposite w
  if tree.color far = .black then do
    let near ← tree.child side w
    let tree := tree.setColor near .black
    let tree := tree.setColor w .red
    let tree ← rotate side.opposite tree w
    let w ← tree.child side.opposite (tree.parent x)
    return (tree, w)
  else return (tree, w)

/-- The last rotation of `rbtree_delete_fixup`. -/
def farRed (side : Side) (tree : KvsRbtree) (x w : ℕ) : Option KvsRbtree := do
  let tree := tree.setColor w (tree.color (tree.parent x))
  let tree := tree.setColor (tree.parent x) .black
  let far ← tree.child side.opposite w
  let tree := tree.setColor far .black
  rotate side tree (tree.parent x)

/-- The branch for a black sibling with a red child. -/
def redChild (side : Side) (tree : KvsRbtree) (x w : ℕ) : Option KvsRbtree := do
  let (tree, w) ← nearRed side tree x w
  farRed side tree x w

def rbtreeDeleteFixup : ℕ → KvsRbtree → ℕ → Option KvsRbtree
  | 0, _, _ => none
  | fuel + 1, tree, x =>
      if x ≠ tree.root ∧ tree.color x = .black then do
        let side ← sideOf tree x (tree.parent x)
        let w ← tree.child side.opposite (tree.parent x)
        let (tree, w) ← redSibling side tree x w
        let left ← tree.child .left w
        let right ← tree.child .right w
        if tree.color left = .black ∧ tree.color right = .black then
          rbtreeDeleteFixup fuel (tree.setColor w .red) (tree.parent x)
        else
          let tree ← redChild side tree x w
          rbtreeDeleteFixup fuel tree tree.root
      else some (tree.setColor x .black)

/-- Exchange the contents of two nodes. -/
def swapContents (tree : KvsRbtree) (z y : ℕ) : KvsRbtree :=
  let key := tree.key z
  let value := tree.value z
  let tree := (tree.setKey z (tree.key y)).setKey y key
  (tree.setValue z (tree.value y)).setValue y value

/-- The child that takes the place of a node with at most one child. -/
def onlyChild (tree : KvsRbtree) (left right : ℕ) : ℕ :=
  if left ≠ tree.nil then left else if right ≠ tree.nil then right else tree.nil

/-- The part of `rbtree_delete` after the node `y` to unlink has been chosen. -/
def unlink (tree : KvsRbtree) (z y : ℕ) : Option (KvsRbtree × ℕ) := do
  let left ← tree.child .left y
  let right ← tree.child .right y
  let x := onlyChild tree left right
  let tree := tree.setParent x (tree.parent y)
  let tree := replaceChild .left tree y x
  let tree := if y ≠ z then swapContents tree z y else tree
  let tree ← if tree.color y = .black then rbtreeDeleteFixup tree.next tree x else some tree
  return (tree, y)

/-- Unlinks a node and returns it; its key and value are those of `z`. -/
def rbtreeDelete (tree : KvsRbtree) (z : ℕ) : Option (KvsRbtree × ℕ) := do
  let left ← tree.child .left z
  let right ← tree.child .right z
  let y ← if left = tree.nil ∨ right = tree.nil then some z else rbtreeSuccessor tree z
  unlink tree z y

/-- The loop of `rbtree_search`. -/
def searchFrom (key : CStr) : ℕ → KvsRbtree → ℕ → Option ℕ
  | 0, _, _ => none
  | fuel + 1, tree, node =>
      if node = tree.nil then some tree.nil
      else if strcmp key (tree.key node) < 0 then
        searchFrom key fuel tree (tree.link .left node)
      else if strcmp key (tree.key node) > 0 then
        searchFrom key fuel tree (tree.link .right node)
      else some node

def rbtreeSearch (tree : KvsRbtree) (key : CStr) : Option ℕ :=
  searchFrom key tree.next tree tree.root

/-- The nodes `rbtree_traversal` visits, in order. -/
def rbtreeTraversal : ℕ → KvsRbtree → ℕ → Store
  | 0, _, _ => []
  | fuel + 1, tree, node =>
      if node = tree.nil then []
      else
        rbtreeTraversal fuel tree (tree.link .left node) ++
          entry (tree.key node) (tree.value node) ::
            rbtreeTraversal fuel tree (tree.link .right node)

/-! ## The engine interface -/

def kvsRbtreeCreate : KvsRbtree where
  link := fun _ _ => 0
  parent := fun _ => 0
  color := fun _ => .black
  key := fun _ => lit ""
  value := fun _ => .null
  root := 0
  nil := 0
  next := 1

/-- A fresh node with its key and value. -/
def newNode (tree : KvsRbtree) (key : CStr) (value : StrPtr) : KvsRbtree :=
  (tree.allocate.setKey tree.next key).setValue tree.next value

def kvsRbtreeSet (alloc : Alloc) (tree : KvsRbtree) :
    Option CStr → Option CStr → Option (KvsRbtree × ℤ)
  | some key, some value => do
      let existing ← rbtreeSearch tree key
      if existing ≠ tree.nil then return (tree, 1)
      else if alloc 0 && alloc 1 && alloc 2 then
        let tree ← rbtreeInsert (newNode tree key (.text value)) tree.next
        return (tree, 0)
      else return (tree, -2)
  | _, _ => some (tree, -1)

def kvsRbtreeGet (tree : KvsRbtree) : Option CStr → Option StrPtr
  | none => some .null
  | some key => do
      let node ← rbtreeSearch tree key
      return if node = tree.nil then .null else tree.value node

def kvsRbtreeDel (tree : KvsRbtree) : Option CStr → Option (KvsRbtree × ℤ)
  | none => some (tree, -1)
  | some key => do
      let node ← rbtreeSearch tree key
      if node = tree.nil then return (tree, 1)
      else
        let (tree, _) ← rbtreeDelete tree node
        return (tree, 0)

/-- The old value is freed first; a failed allocation leaves a null pointer. -/
def kvsRbtreeMod (alloc : Alloc) (tree : KvsRbtree) :
    Option CStr → Option CStr → Option (KvsRbtree × ℤ)
  | some key, some value => do
      let node ← rbtreeSearch tree key
      if node = tree.nil then return (tree, 1)
      else if alloc 0 then return (tree.setValue node (.text value), 0)
      else return (tree.setValue node .null, -2)
  | _, _ => some (tree, -1)

def kvsRbtreeExist (tree : KvsRbtree) : Option CStr → Option ℤ
  | none => some (-1)
  | some key => do
      let node ← rbtreeSearch tree key
      return if node = tree.nil then 1 else 0

end LiteMultiKV.RbTree
