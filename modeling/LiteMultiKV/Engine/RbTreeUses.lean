import LiteMultiKV.Engine.RbTreeShape

/-!
# The nodes a repair uses

The two repair loops follow pointers to a grandparent, to a sibling and to the
child that a rotation lifts, and take each for a node of the tree.  The functions
of this file are the loops and the operations that call them with a list of these
uses in their result.  Without the list they are the functions of the model.
-/

namespace LiteMultiKV.RbTree

open List CText LinkedTree Memory RedBlack

inductive Use where
  /-- `z->parent->parent` of `rbtree_insert_fixup`. -/
  | grandparent (node : ℕ)
  /-- The node a rotation moves down and the child it lifts. -/
  | pivot (x y : ℕ)
  /-- The sibling `w` of `x` in `rbtree_delete_fixup`, with the memory at that moment. -/
  | sibling (tree : KvsRbtree) (x w : ℕ)

/-- In this memory the subtree at `x` is one black node short, and the parent field of
`x` names the parent of its place.  An empty subtree has the sentinel's field. -/
def DoubledBlack (tree : KvsRbtree) (x : ℕ) : Prop :=
  ∃ (focus : Node) (frame : Frame CStr StrPtr) (frames : Path) (height : ℕ),
    Represents tree focus (frame :: frames) ∧ x = top tree.nil focus ∧
    focus.color = .black ∧ Balanced focus height ∧
    PathBalanced (frame :: frames) (height + 1) ∧ tree.parent x = frame.cell.address

/-- The use is of nodes, and a sibling is read where a black node is missing. -/
def Use.Sound (nil : ℕ) : Use → Prop
  | .grandparent node => node ≠ nil
  | .pivot x y => x ≠ nil ∧ y ≠ nil
  | .sibling tree x w => w ≠ nil ∧ DoubledBlack tree x

/-- The nodes that `rotate side tree x` turns. -/
def pivotUse (side : Side) (tree : KvsRbtree) (x : ℕ) : Use :=
  .pivot x (tree.link side.opposite x)

/-! ## Insertion -/

def innerUses (side : Side) (tree : KvsRbtree) (z : ℕ) : List Use :=
  if z = tree.link side.opposite (tree.parent z) then [pivotUse side tree (tree.parent z)] else []

def outerUses (side : Side) (tree : KvsRbtree) (z : ℕ) : List Use :=
  let grand := tree.parent (tree.parent z)
  [.grandparent grand, pivotUse side.opposite tree grand]

/-- One round of the loop of `rbtree_insert_fixup`. -/
def insertRound (tree : KvsRbtree) (z : ℕ) : Option ((KvsRbtree × ℕ) × List Use) := do
  let grand := tree.parent (tree.parent z)
  let side ← sideOf tree (tree.parent z) grand
  let uncle ← tree.child side.opposite grand
  if tree.color uncle = .red then
    let tree := tree.setColor (tree.parent z) .black
    let tree := tree.setColor uncle .black
    let tree := tree.setColor (tree.parent (tree.parent z)) .red
    return ((tree, tree.parent (tree.parent z)), [.grandparent grand])
  else
    let (turned, lower) ← insertInner side tree z
    let after ← insertOuter side turned lower
    return ((after, lower),
      .grandparent grand :: (innerUses side tree z ++ outerUses side turned lower))

def insertFixupUses : ℕ → KvsRbtree → ℕ → Option (KvsRbtree × List Use)
  | 0, _, _ => none
  | fuel + 1, tree, z =>
      if tree.color (tree.parent z) = .red then do
        let ((tree, z), uses) ← insertRound tree z
        let (tree, later) ← insertFixupUses fuel tree z
        return (tree, uses ++ later)
      else some (tree.setColor tree.root .black, [])

/-- A round is what the loop of the model does once. -/
theorem insertFixup_round (fuel : ℕ) {tree : KvsRbtree} {z : ℕ}
    (hred : tree.color (tree.parent z) = .red) :
    rbtreeInsertFixup (fuel + 1) tree z =
      (insertRound tree z).bind fun round => rbtreeInsertFixup fuel round.1.1 round.1.2 := by
  rw [rbtreeInsertFixup, if_pos hred]
  simp only [insertRound, Option.bind_eq_bind, Option.bind_assoc]
  refine Option.bind_congr fun side _ => Option.bind_congr fun uncle _ => ?_
  split
  · rfl
  · simp only [Option.bind_assoc, Option.pure_def, Option.bind_some]

theorem insertFixupUses_fst (fuel : ℕ) (tree : KvsRbtree) (z : ℕ) :
    (insertFixupUses fuel tree z).map Prod.fst = rbtreeInsertFixup fuel tree z := by
  induction fuel generalizing tree z with
  | zero => rfl
  | succ fuel ih =>
      by_cases hred : tree.color (tree.parent z) = .red
      · rw [insertFixup_round fuel hred, insertFixupUses, if_pos hred]
        simp only [Option.bind_eq_bind, Option.map_bind]
        refine Option.bind_congr fun round _ => ?_
        rw [← ih, Function.comp_apply]
        cases insertFixupUses fuel round.1.1 round.1.2 <;> rfl
      · rw [insertFixupUses, rbtreeInsertFixup, if_neg hred, if_neg hred]
        rfl

/-! ## Deletion -/

def redSiblingUses (side : Side) (tree : KvsRbtree) (x w : ℕ) (turned : KvsRbtree) (below : ℕ) :
    List Use :=
  if tree.color w = .red then
    [pivotUse side tree (tree.parent x), .sibling turned x below]
  else []

def nearRedUses (side : Side) (tree : KvsRbtree) (x w : ℕ) (turned : KvsRbtree) (outer : ℕ) :
    List Use :=
  if tree.color (tree.link side.opposite w) = .black then
    [pivotUse side.opposite tree w, .sibling turned x outer]
  else []

/-- The part of a round after the sibling has been made black. -/
def blackSibling (side : Side) (tree : KvsRbtree) (x w : ℕ) :
    Option ((KvsRbtree × ℕ) × List Use) := do
  let left ← tree.child .left w
  let right ← tree.child .right w
  if tree.color left = .black ∧ tree.color right = .black then
    return ((tree.setColor w .red, tree.parent x), [])
  else
    let (turned, outer) ← nearRed side tree x w
    let after ← farRed side turned x outer
    return ((after, after.root),
      nearRedUses side tree x w turned outer ++ [pivotUse side turned (turned.parent x)])

/-- One round of the loop of `rbtree_delete_fixup`. -/
def deleteRound (tree : KvsRbtree) (x : ℕ) : Option ((KvsRbtree × ℕ) × List Use) := do
  let side ← sideOf tree x (tree.parent x)
  let w ← tree.child side.opposite (tree.parent x)
  let (turned, below) ← redSibling side tree x w
  let (next, later) ← blackSibling side turned x below
  return (next, .sibling tree x w :: (redSiblingUses side tree x w turned below ++ later))

def deleteFixupUses : ℕ → KvsRbtree → ℕ → Option (KvsRbtree × List Use)
  | 0, _, _ => none
  | fuel + 1, tree, x =>
      if x ≠ tree.root ∧ tree.color x = .black then do
        let ((tree, x), uses) ← deleteRound tree x
        let (tree, later) ← deleteFixupUses fuel tree x
        return (tree, uses ++ later)
      else some (tree.setColor x .black, [])

theorem deleteFixup_round (fuel : ℕ) {tree : KvsRbtree} {x : ℕ}
    (hround : x ≠ tree.root ∧ tree.color x = .black) :
    rbtreeDeleteFixup (fuel + 1) tree x =
      (deleteRound tree x).bind fun round => rbtreeDeleteFixup fuel round.1.1 round.1.2 := by
  rw [rbtreeDeleteFixup, if_pos hround]
  simp only [deleteRound, blackSibling, Option.bind_eq_bind, Option.bind_assoc]
  refine Option.bind_congr fun side _ => Option.bind_congr fun w _ =>
    Option.bind_congr fun turned _ => Option.bind_congr fun left _ =>
    Option.bind_congr fun right _ => ?_
  split
  · rfl
  · simp only [redChild, Option.bind_eq_bind, Option.bind_assoc, Option.pure_def,
      Option.bind_some]

theorem deleteFixupUses_fst (fuel : ℕ) (tree : KvsRbtree) (x : ℕ) :
    (deleteFixupUses fuel tree x).map Prod.fst = rbtreeDeleteFixup fuel tree x := by
  induction fuel generalizing tree x with
  | zero => rfl
  | succ fuel ih =>
      by_cases hround : x ≠ tree.root ∧ tree.color x = .black
      · rw [deleteFixup_round fuel hround, deleteFixupUses, if_pos hround]
        simp only [Option.bind_eq_bind, Option.map_bind]
        refine Option.bind_congr fun round _ => ?_
        rw [← ih, Function.comp_apply]
        cases deleteFixupUses fuel round.1.1 round.1.2 <;> rfl
      · rw [deleteFixupUses, rbtreeDeleteFixup, if_neg hround, if_neg hround]
        rfl

/-! ## The operations -/

/-- The memory in which `rbtree_insert` starts the repair: `z` hangs below `y`. -/
def linked (tree : KvsRbtree) (z y : ℕ) : KvsRbtree :=
  let tree := tree.setParent z y
  let tree :=
    if y = tree.nil then tree.setRoot z
    else if strcmp (tree.key z) (tree.key y) < 0 then tree.setLink .left y z
    else tree.setLink .right y z
  let tree := tree.setLink .left z tree.nil
  let tree := tree.setLink .right z tree.nil
  tree.setColor z .red

def rbtreeInsertUses (tree : KvsRbtree) (z : ℕ) : Option (KvsRbtree × List Use) := do
  match ← insertPoint (tree.key z) tree.next tree tree.root tree.nil with
  | none => return (tree, [])
  | some y => insertFixupUses (linked tree z y).next (linked tree z y) z

def kvsRbtreeSetUses (alloc : Alloc) (tree : KvsRbtree) :
    Option CStr → Option CStr → Option ((KvsRbtree × ℤ) × List Use)
  | some key, some value => do
      let existing ← rbtreeSearch tree key
      if existing ≠ tree.nil then return ((tree, 1), [])
      else if alloc 0 && alloc 1 && alloc 2 then
        let (after, uses) ← rbtreeInsertUses (newNode tree key (.text value)) tree.next
        return ((after, 0), uses)
      else return ((tree, -2), [])
  | _, _ => some ((tree, -1), [])

/-- The memory in which `rbtree_delete` starts the repair: `x` is in the place of `y`. -/
def unlinked (tree : KvsRbtree) (z y x : ℕ) : KvsRbtree :=
  let tree := tree.setParent x (tree.parent y)
  let tree := replaceChild .left tree y x
  if y ≠ z then swapContents tree z y else tree

def unlinkUses (tree : KvsRbtree) (z y : ℕ) : Option (KvsRbtree × List Use) := do
  let left ← tree.child .left y
  let right ← tree.child .right y
  let x := onlyChild tree left right
  let tree := unlinked tree z y x
  if tree.color y = .black then deleteFixupUses tree.next tree x else some (tree, [])

def rbtreeDeleteUses (tree : KvsRbtree) (z : ℕ) : Option (KvsRbtree × List Use) := do
  let left ← tree.child .left z
  let right ← tree.child .right z
  let y ← if left = tree.nil ∨ right = tree.nil then some z else rbtreeSuccessor tree z
  unlinkUses tree z y

def kvsRbtreeDelUses (tree : KvsRbtree) : Option CStr → Option ((KvsRbtree × ℤ) × List Use)
  | none => some ((tree, -1), [])
  | some key => do
      let node ← rbtreeSearch tree key
      if node = tree.nil then return ((tree, 1), [])
      else
        let (after, uses) ← rbtreeDeleteUses tree node
        return ((after, 0), uses)

theorem rbtreeInsertUses_fst (tree : KvsRbtree) (z : ℕ) :
    (rbtreeInsertUses tree z).map Prod.fst = rbtreeInsert tree z := by
  simp only [rbtreeInsertUses, rbtreeInsert, Option.bind_eq_bind, Option.map_bind]
  refine Option.bind_congr fun point _ => ?_
  cases point with
  | none => rfl
  | some y => exact insertFixupUses_fst _ _ _

theorem kvsRbtreeSetUses_fst (alloc : Alloc) (tree : KvsRbtree) (key value : Option CStr) :
    (kvsRbtreeSetUses alloc tree key value).map Prod.fst = kvsRbtreeSet alloc tree key value := by
  cases key with
  | none => rfl
  | some key =>
      cases value with
      | none => rfl
      | some value =>
          simp only [kvsRbtreeSetUses, kvsRbtreeSet, Option.bind_eq_bind, Option.map_bind]
          refine Option.bind_congr fun existing _ => ?_
          rw [Function.comp_apply, ← rbtreeInsertUses_fst]
          split_ifs
          · rfl
          · cases rbtreeInsertUses (newNode tree key (.text value)) tree.next <;> rfl
          · rfl

theorem unlinkUses_fst (tree : KvsRbtree) (z y : ℕ) :
    (unlinkUses tree z y).map Prod.fst = (unlink tree z y).map Prod.fst := by
  simp only [unlinkUses, unlink, Option.bind_eq_bind, Option.map_bind]
  refine Option.bind_congr fun left _ => ?_
  simp only [Function.comp_apply, Option.map_bind]
  refine Option.bind_congr fun right _ => ?_
  have hunlinked := unlinked.eq_1 tree z y (onlyChild tree left right)
  rw [← hunlinked, ← deleteFixupUses_fst]
  split_ifs
  · cases deleteFixupUses (unlinked tree z y (onlyChild tree left right)).next
      (unlinked tree z y (onlyChild tree left right)) (onlyChild tree left right) <;> rfl
  · rfl

theorem rbtreeDeleteUses_fst (tree : KvsRbtree) (z : ℕ) :
    (rbtreeDeleteUses tree z).map Prod.fst = (rbtreeDelete tree z).map Prod.fst := by
  simp only [rbtreeDeleteUses, rbtreeDelete, Option.bind_eq_bind, Option.map_bind]
  refine Option.bind_congr fun left _ => ?_
  simp only [Function.comp_apply, Option.map_bind]
  refine Option.bind_congr fun right _ => ?_
  split_ifs
  · exact unlinkUses_fst tree z z
  · rw [Option.map_bind, Option.map_bind]
    exact Option.bind_congr fun y _ => unlinkUses_fst tree z y

theorem kvsRbtreeDelUses_fst (tree : KvsRbtree) (key : Option CStr) :
    (kvsRbtreeDelUses tree key).map Prod.fst = kvsRbtreeDel tree key := by
  cases key with
  | none => rfl
  | some key =>
      simp only [kvsRbtreeDelUses, kvsRbtreeDel, Option.bind_eq_bind, Option.map_bind]
      refine Option.bind_congr fun node _ => ?_
      rw [Function.comp_apply]
      split_ifs
      · rfl
      · have herased := rbtreeDeleteUses_fst tree node
        cases hdelete : rbtreeDelete tree node with
        | none =>
            rw [hdelete, Option.map_none, Option.map_eq_none_iff] at herased
            rw [herased]
            rfl
        | some result =>
            rw [hdelete, Option.map_some, Option.map_eq_some_iff] at herased
            obtain ⟨logged, hlogged, hsame⟩ := herased
            rw [hlogged, Option.bind_some, Option.bind_some, ← hsame]
            rfl

/-! ## Every use of an insertion is of nodes

A link of the sentinel has no value in the model, so a round that has a result has
not read one. -/

theorem ne_nil_of_child {tree : KvsRbtree} {side : Side} {x y : ℕ}
    (hchild : tree.child side x = some y) : x ≠ tree.nil ∧ tree.link side x = y := by
  rw [Heap.child] at hchild
  split at hchild
  · cases hchild
  next hne => exact ⟨hne, Option.some.inj hchild⟩

theorem replaceChild_nil (side : Side) (tree : KvsRbtree) (x y : ℕ) :
    (replaceChild side tree x y).nil = tree.nil := by
  simp only [replaceChild]
  split_ifs <;> rfl

theorem pivotUse_sound {side : Side} {tree after : KvsRbtree} {x : ℕ}
    (hrotate : rotate side tree x = some after) :
    (pivotUse side tree x).Sound tree.nil ∧ after.nil = tree.nil := by
  simp only [rotate, Option.bind_eq_bind, Option.bind_eq_some_iff, Option.pure_def,
    Option.some.injEq] at hrotate
  obtain ⟨y, hy, middle, hmiddle, rfl⟩ := hrotate
  obtain ⟨hx, hlink⟩ := ne_nil_of_child hy
  refine ⟨⟨hx, ?_⟩, ?_⟩
  · rw [hlink]
    exact (ne_nil_of_child hmiddle).1
  · simp only [Heap.setParent_nil, Heap.setLink_nil, replaceChild_nil]
    split <;> rfl

theorem innerUses_sound {side : Side} {tree turned : KvsRbtree} {z lower : ℕ}
    (hinner : insertInner side tree z = some (turned, lower)) :
    (∀ use ∈ innerUses side tree z, use.Sound tree.nil) ∧ turned.nil = tree.nil := by
  simp only [insertInner, Option.bind_eq_bind, Option.bind_eq_some_iff] at hinner
  obtain ⟨inner, hchild, hturn⟩ := hinner
  obtain ⟨-, hlink⟩ := ne_nil_of_child hchild
  rw [innerUses, hlink]
  split at hturn
  next heq =>
    simp only [Option.bind_eq_some_iff, Option.pure_def, Option.some.injEq,
      Prod.mk.injEq] at hturn
    obtain ⟨after, hrotate, rfl, rfl⟩ := hturn
    obtain ⟨hpivot, hnil⟩ := pivotUse_sound hrotate
    rw [if_pos heq]
    exact ⟨fun use huse => mem_singleton.1 huse ▸ hpivot, hnil⟩
  next hne =>
    simp only [Option.pure_def, Option.some.injEq, Prod.mk.injEq] at hturn
    rw [if_neg hne]
    exact ⟨by simp, by rw [hturn.1]⟩

theorem outerUses_sound {side : Side} {tree after : KvsRbtree} {z : ℕ}
    (houter : insertOuter side tree z = some after) :
    (∀ use ∈ outerUses side tree z, use.Sound tree.nil) ∧ after.nil = tree.nil := by
  obtain ⟨hpivot, hnil⟩ := pivotUse_sound houter
  refine ⟨fun use huse => ?_, hnil⟩
  rcases mem_cons.1 huse with rfl | huse
  · exact hpivot.1
  · exact mem_singleton.1 huse ▸ hpivot

theorem insertRound_sound {tree after : KvsRbtree} {z next : ℕ} {uses : List Use}
    (hround : insertRound tree z = some ((after, next), uses)) :
    (∀ use ∈ uses, use.Sound tree.nil) ∧ after.nil = tree.nil := by
  simp only [insertRound, Option.bind_eq_bind, Option.bind_eq_some_iff] at hround
  obtain ⟨side, -, uncle, huncle, hround⟩ := hround
  have hgrand : (Use.grandparent (tree.parent (tree.parent z))).Sound tree.nil :=
    (ne_nil_of_child huncle).1
  split at hround
  · simp only [Option.pure_def, Option.some.injEq, Prod.mk.injEq] at hround
    obtain ⟨⟨rfl, -⟩, rfl⟩ := hround
    exact ⟨fun use huse => mem_singleton.1 huse ▸ hgrand, rfl⟩
  · simp only [Option.bind_eq_some_iff, Option.pure_def, Option.some.injEq,
      Prod.mk.injEq] at hround
    obtain ⟨⟨turned, lower⟩, hinner, last, houter, ⟨rfl, -⟩, rfl⟩ := hround
    obtain ⟨hinnerSound, hturned⟩ := innerUses_sound hinner
    obtain ⟨houterSound, hlast⟩ := outerUses_sound houter
    rw [hturned] at houterSound hlast
    refine ⟨fun use huse => ?_, hlast⟩
    rcases mem_cons.1 huse with rfl | huse
    · exact hgrand
    · exact (mem_append.1 huse).elim (hinnerSound use) (houterSound use)

theorem insertFixupUses_sound {fuel : ℕ} {tree after : KvsRbtree} {z : ℕ} {uses : List Use}
    (hfixup : insertFixupUses fuel tree z = some (after, uses)) :
    ∀ use ∈ uses, use.Sound tree.nil := by
  induction fuel generalizing tree after z uses with
  | zero => cases hfixup
  | succ fuel ih =>
      rw [insertFixupUses] at hfixup
      split at hfixup
      · simp only [Option.bind_eq_bind, Option.bind_eq_some_iff, Option.pure_def,
          Option.some.injEq, Prod.mk.injEq] at hfixup
        obtain ⟨⟨⟨turned, next⟩, first⟩, hround, ⟨last, later⟩, hrest, -, rfl⟩ := hfixup
        obtain ⟨hfirst, hnil⟩ := insertRound_sound hround
        have hlater := ih hrest
        rw [hnil] at hlater
        exact fun use huse => (mem_append.1 huse).elim (hfirst use) (hlater use)
      · simp only [Option.some.injEq, Prod.mk.injEq] at hfixup
        simp [← hfixup.2]

theorem linked_nil (tree : KvsRbtree) (z y : ℕ) : (linked tree z y).nil = tree.nil := by
  simp only [linked]
  split_ifs <;> rfl

theorem kvsRbtreeSetUses_sound {alloc : Alloc} {tree : KvsRbtree} {key value : Option CStr}
    {result : KvsRbtree × ℤ} {uses : List Use}
    (hset : kvsRbtreeSetUses alloc tree key value = some (result, uses)) :
    ∀ use ∈ uses, use.Sound tree.nil := by
  cases key with
  | none => cases hset; simp
  | some key =>
      cases value with
      | none => cases hset; simp
      | some value =>
          simp only [kvsRbtreeSetUses, Option.bind_eq_bind, Option.bind_eq_some_iff] at hset
          obtain ⟨existing, -, hset⟩ := hset
          split_ifs at hset
          · cases hset; simp
          · simp only [Option.bind_eq_some_iff, Option.pure_def, Option.some.injEq,
              Prod.mk.injEq, rbtreeInsertUses, Option.bind_eq_bind] at hset
            obtain ⟨⟨after, logged⟩, ⟨point, -, hinsert⟩, -, rfl⟩ := hset
            cases point with
            | none => cases hinsert; simp
            | some y =>
                have hsound := insertFixupUses_sound hinsert
                rw [linked_nil] at hsound
                exact hsound
          · cases hset; simp

end LiteMultiKV.RbTree
