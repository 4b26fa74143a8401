import LiteMultiKV.Core.Dictionary

/-!
# Red-black trees with a focus

A tree whose nodes carry heap addresses, together with the path from a focused
subtree up to the root.  Imperative red-black code works exactly there: it
repairs the subtree under its loop variable and moves the variable along the
parent pointers.  The file gives the balance invariant of a whole tree and of
a path with a hole, and for every case of the insertion and deletion repair
the fact that it restores balance and keeps the in-order entries.
-/

namespace LiteMultiKV.RedBlack

open List Dictionary

inductive Color where
  | red
  | black
  deriving DecidableEq

inductive Side where
  | left
  | right
  deriving DecidableEq

def Side.opposite : Side → Side
  | .left => .right
  | .right => .left

@[simp]
theorem Side.opposite_opposite (side : Side) : side.opposite.opposite = side := by
  cases side <;> rfl

@[simp]
theorem Side.opposite_ne (side : Side) : side.opposite ≠ side := by
  cases side <;> simp [Side.opposite]

@[simp]
theorem Side.ne_opposite (side : Side) : side ≠ side.opposite :=
  (Side.opposite_ne side).symm

theorem Side.eq_or_eq_opposite (side other : Side) :
    side = other ∨ side = other.opposite := by
  cases side <;> cases other <;> simp [Side.opposite]

variable {K V : Type*}

/-- The contents of a node, and where it lives. -/
structure Cell (K V : Type*) where
  address : ℕ
  color : Color
  key : K
  value : V

def Cell.paint (cell : Cell K V) (color : Color) : Cell K V :=
  { cell with color := color }

@[simp]
theorem Cell.paint_address (cell : Cell K V) (color : Color) :
    (cell.paint color).address = cell.address := rfl

@[simp]
theorem Cell.paint_color (cell : Cell K V) (color : Color) :
    (cell.paint color).color = color := rfl

@[simp]
theorem Cell.paint_key (cell : Cell K V) (color : Color) :
    (cell.paint color).key = cell.key := rfl

@[simp]
theorem Cell.paint_value (cell : Cell K V) (color : Color) :
    (cell.paint color).value = cell.value := rfl

inductive Tree (K V : Type*) where
  | leaf
  | node (cell : Cell K V) (left right : Tree K V)

/-- A node whose child on `side` is `near` and whose other child is `far`. -/
def join (side : Side) (cell : Cell K V) (near far : Tree K V) : Tree K V :=
  match side with
  | .left => .node cell near far
  | .right => .node cell far near

theorem node_eq_join (side : Side) (cell : Cell K V) (left right : Tree K V) :
    ∃ near far, Tree.node cell left right = join side cell near far := by
  cases side with
  | left => exact ⟨left, right, rfl⟩
  | right => exact ⟨right, left, rfl⟩

theorem exists_join_of_ne_leaf {tree : Tree K V} (hne : tree ≠ .leaf) (side : Side) :
    ∃ cell near far, tree = join side cell near far := by
  cases tree with
  | leaf => exact absurd rfl hne
  | node cell left right =>
      obtain ⟨near, far, hjoin⟩ := node_eq_join side cell left right
      exact ⟨cell, near, far, hjoin⟩

@[simp]
theorem join_opposite (side : Side) (cell : Cell K V) (near far : Tree K V) :
    join side.opposite cell near far = join side cell far near := by
  cases side <;> rfl

@[simp]
theorem join_ne_leaf (side : Side) (cell : Cell K V) (near far : Tree K V) :
    join side cell near far ≠ Tree.leaf := by
  cases side <;> simp [join]

/-- Leaves count as black. -/
def Tree.color : Tree K V → Color
  | .leaf => .black
  | .node cell _ _ => cell.color

/-- Set the colour of the root node. -/
def Tree.paint : Tree K V → Color → Tree K V
  | .leaf, _ => .leaf
  | .node cell left right, color => .node (cell.paint color) left right

def Tree.addresses : Tree K V → List ℕ
  | .leaf => []
  | .node cell left right => cell.address :: (left.addresses ++ right.addresses)

/-- In-order enumeration. -/
def Tree.entries : Tree K V → Entries K V
  | .leaf => []
  | .node cell left right =>
      left.entries ++ entry cell.key cell.value :: right.entries

@[simp]
theorem join_color (side : Side) (cell : Cell K V) (near far : Tree K V) :
    (join side cell near far).color = cell.color := by
  cases side <;> rfl

@[simp]
theorem join_paint (side : Side) (cell : Cell K V) (near far : Tree K V)
    (color : Color) :
    (join side cell near far).paint color = join side (cell.paint color) near far := by
  cases side <;> rfl

@[simp]
theorem paint_entries (tree : Tree K V) (color : Color) :
    (tree.paint color).entries = tree.entries := by
  cases tree <;> rfl

@[simp]
theorem paint_addresses (tree : Tree K V) (color : Color) :
    (tree.paint color).addresses = tree.addresses := by
  cases tree <;> rfl

theorem paint_color_self (tree : Tree K V) : tree.paint tree.color = tree := by
  cases tree <;> rfl

theorem join_addresses_perm (side : Side) (cell : Cell K V) (near far : Tree K V) :
    (join side cell near far).addresses.Perm
      (cell.address :: (near.addresses ++ far.addresses)) := by
  cases side with
  | left => exact Perm.refl _
  | right => exact perm_append_comm.cons _

/-! ## Paths -/

/-- One step of a path: the node above the hole, the side of the hole, and the
subtree on the other side. -/
structure Frame (K V : Type*) where
  side : Side
  cell : Cell K V
  sibling : Tree K V

/-- Close a path around a subtree; the innermost frame comes first. -/
def plug : Tree K V → List (Frame K V) → Tree K V
  | tree, [] => tree
  | tree, frame :: frames =>
      plug (join frame.side frame.cell tree frame.sibling) frames

def pathAddresses : List (Frame K V) → List ℕ
  | [] => []
  | frame :: frames =>
      frame.cell.address :: (frame.sibling.addresses ++ pathAddresses frames)

/-- Entries to the left of the hole, inside one frame. -/
def Frame.before (frame : Frame K V) : Entries K V :=
  match frame.side with
  | .left => []
  | .right => frame.sibling.entries ++ [entry frame.cell.key frame.cell.value]

def Frame.after (frame : Frame K V) : Entries K V :=
  match frame.side with
  | .left => entry frame.cell.key frame.cell.value :: frame.sibling.entries
  | .right => []

def pathBefore : List (Frame K V) → Entries K V
  | [] => []
  | frame :: frames => pathBefore frames ++ frame.before

def pathAfter : List (Frame K V) → Entries K V
  | [] => []
  | frame :: frames => frame.after ++ pathAfter frames

theorem join_entries (frame : Frame K V) (tree : Tree K V) :
    (join frame.side frame.cell tree frame.sibling).entries =
      frame.before ++ tree.entries ++ frame.after := by
  cases hside : frame.side <;>
    simp [join, Tree.entries, Frame.before, Frame.after, hside]

/-- The in-order entries of a closed path. -/
theorem plug_entries (tree : Tree K V) (frames : List (Frame K V)) :
    (plug tree frames).entries =
      pathBefore frames ++ tree.entries ++ pathAfter frames := by
  induction frames generalizing tree with
  | nil => simp [plug, pathBefore, pathAfter]
  | cons frame frames ih =>
      rw [plug, ih, join_entries]
      simp [pathBefore, pathAfter]

theorem plug_addresses_perm (tree : Tree K V) (frames : List (Frame K V)) :
    (plug tree frames).addresses.Perm (tree.addresses ++ pathAddresses frames) := by
  induction frames generalizing tree with
  | nil => simp [plug, pathAddresses]
  | cons frame frames ih =>
      have hjoin := join_addresses_perm frame.side frame.cell tree frame.sibling
      calc
        (plug (join frame.side frame.cell tree frame.sibling) frames).addresses ~
            (join frame.side frame.cell tree frame.sibling).addresses ++
              pathAddresses frames := ih _
        _ ~ (frame.cell.address :: (tree.addresses ++ frame.sibling.addresses)) ++
              pathAddresses frames := hjoin.append_right _
        _ = frame.cell.address :: (tree.addresses ++
              (frame.sibling.addresses ++ pathAddresses frames)) := by simp
        _ ~ tree.addresses ++ pathAddresses (frame :: frames) := perm_middle.symm

theorem plug_append (tree : Tree K V) (inner outer : List (Frame K V)) :
    plug tree (inner ++ outer) = plug (plug tree inner) outer := by
  induction inner generalizing tree with
  | nil => rfl
  | cons frame inner ih => exact ih _

theorem pathBefore_append (inner outer : List (Frame K V)) :
    pathBefore (inner ++ outer) = pathBefore outer ++ pathBefore inner := by
  induction inner with
  | nil => simp [pathBefore]
  | cons frame inner ih => simp [pathBefore, ih]

theorem pathAfter_append (inner outer : List (Frame K V)) :
    pathAfter (inner ++ outer) = pathAfter inner ++ pathAfter outer := by
  induction inner with
  | nil => simp [pathAfter]
  | cons frame inner ih => simp [pathAfter, ih]

theorem pathAddresses_append (inner outer : List (Frame K V)) :
    pathAddresses (inner ++ outer) = pathAddresses inner ++ pathAddresses outer := by
  induction inner with
  | nil => rfl
  | cons frame inner ih => simp [pathAddresses, ih]

theorem length_le_pathAddresses (frames : List (Frame K V)) :
    frames.length ≤ (pathAddresses frames).length := by
  induction frames with
  | nil => exact le_rfl
  | cons frame frames ih =>
      simp only [pathAddresses, length_cons, length_append]
      omega

/-! ## Balance -/

/-- `Balanced tree height`: no red node has a red child, and every way down to a
leaf meets `height` black nodes. -/
inductive Balanced : Tree K V → ℕ → Prop where
  | leaf : Balanced .leaf 0
  | red {cell : Cell K V} {left right : Tree K V} {height : ℕ}
      (hcolor : cell.color = .red)
      (hleft : Balanced left height) (hright : Balanced right height)
      (hleftBlack : left.color = .black) (hrightBlack : right.color = .black) :
      Balanced (.node cell left right) height
  | black {cell : Cell K V} {left right : Tree K V} {height : ℕ}
      (hcolor : cell.color = .black)
      (hleft : Balanced left height) (hright : Balanced right height) :
      Balanced (.node cell left right) (height + 1)

theorem balanced_join_red {side : Side} {cell : Cell K V} {near far : Tree K V}
    {height : ℕ} (hcolor : cell.color = .red) :
    Balanced (join side cell near far) height ↔
      Balanced near height ∧ Balanced far height ∧
        near.color = .black ∧ far.color = .black := by
  constructor
  · intro hbalanced
    cases side <;> cases hbalanced <;> simp_all
  · rintro ⟨hnear, hfar, hnearBlack, hfarBlack⟩
    cases side with
    | left => exact .red hcolor hnear hfar hnearBlack hfarBlack
    | right => exact .red hcolor hfar hnear hfarBlack hnearBlack

theorem balanced_join_black {side : Side} {cell : Cell K V} {near far : Tree K V}
    {height : ℕ} (hcolor : cell.color = .black) :
    Balanced (join side cell near far) height ↔
      ∃ below, height = below + 1 ∧ Balanced near below ∧ Balanced far below := by
  constructor
  · intro hbalanced
    cases side <;> cases hbalanced <;> simp_all
  · rintro ⟨below, rfl, hnear, hfar⟩
    cases side with
    | left => exact .black hcolor hnear hfar
    | right => exact .black hcolor hfar hnear

/-- A subtree of positive black height is a node. -/
theorem Balanced.exists_join {tree : Tree K V} {height : ℕ}
    (hbalanced : Balanced tree (height + 1)) (side : Side) :
    ∃ cell near far, tree = join side cell near far := by
  apply exists_join_of_ne_leaf
  rintro rfl
  cases hbalanced

theorem Balanced.paint_black {tree : Tree K V} {height : ℕ}
    (hbalanced : Balanced tree height) (hred : tree.color = .red) :
    Balanced (tree.paint .black) (height + 1) := by
  cases hbalanced with
  | leaf => cases hred
  | red hcolor hleft hright _ _ => exact .black rfl hleft hright
  | black hcolor _ _ =>
      simp only [Tree.color] at hred
      rw [hred] at hcolor
      cases hcolor

/-- The colour just above the hole.  The outside of the tree counts as red, so
that a root is required to be black. -/
def pathColor : List (Frame K V) → Color
  | [] => .red
  | frame :: _ => frame.cell.color

/-- A path that is balanced as soon as a subtree of black height `height`
fills its hole, apart from a possible red-red pair at the hole itself. -/
def PathBalanced : List (Frame K V) → ℕ → Prop
  | [], _ => True
  | frame :: frames, height =>
      Balanced frame.sibling height ∧
        (frame.cell.color = .red →
          frame.sibling.color = .black ∧ pathColor frames = .black) ∧
        PathBalanced frames
          (if frame.cell.color = .black then height + 1 else height)

/-- The invariant of a whole tree: balanced, with a black root. -/
def WellFormed (tree : Tree K V) : Prop :=
  (∃ height, Balanced tree height) ∧ tree.color = .black

theorem wellFormed_leaf : WellFormed (Tree.leaf : Tree K V) :=
  ⟨⟨0, .leaf⟩, rfl⟩

theorem WellFormed.paint_black {tree : Tree K V} (hwell : WellFormed tree) :
    tree.paint .black = tree := by
  rw [← hwell.2]
  exact paint_color_self tree

/-- Filling the hole with a subtree of the right height and colour. -/
theorem wellFormed_plug {tree : Tree K V} {frames : List (Frame K V)} {height : ℕ}
    (hpath : PathBalanced frames height) (htree : Balanced tree height)
    (hcolor : pathColor frames = .red → tree.color = .black) :
    WellFormed (plug tree frames) := by
  induction frames generalizing tree height with
  | nil => exact ⟨⟨height, htree⟩, hcolor rfl⟩
  | cons frame frames ih =>
      obtain ⟨hsibling, hred, hrest⟩ := hpath
      cases hframe : frame.cell.color with
      | red =>
          obtain ⟨hsiblingBlack, hparent⟩ := hred hframe
          rw [if_neg (by simp [hframe])] at hrest
          apply ih hrest
          · rw [balanced_join_red hframe]
            exact ⟨htree, hsibling, hcolor hframe, hsiblingBlack⟩
          · intro houter
            rw [hparent] at houter
            cases houter
      | black =>
          rw [if_pos hframe] at hrest
          apply ih hrest
          · rw [balanced_join_black hframe]
            exact ⟨height, rfl, htree, hsibling⟩
          · intro _
            simpa using hframe

/-- Opening a well-formed tree along a path. -/
theorem WellFormed.open_plug {tree : Tree K V} {frames : List (Frame K V)}
    (hwell : WellFormed (plug tree frames)) :
    ∃ height, PathBalanced frames height ∧ Balanced tree height ∧
      (pathColor frames = .red → tree.color = .black) := by
  induction frames generalizing tree with
  | nil =>
      obtain ⟨⟨height, hbalanced⟩, hblack⟩ := hwell
      exact ⟨height, trivial, hbalanced, fun _ => hblack⟩
  | cons frame frames ih =>
      obtain ⟨height, hrest, hjoin, hcolor⟩ := ih hwell
      cases hframe : frame.cell.color with
      | red =>
          obtain ⟨htree, hsibling, htreeBlack, hsiblingBlack⟩ :=
            (balanced_join_red hframe).1 hjoin
          have hparent : pathColor frames = .black := by
            cases hparent : pathColor frames with
            | black => rfl
            | red =>
                have hblack := hcolor hparent
                rw [join_color, hframe] at hblack
                cases hblack
          exact ⟨height, ⟨hsibling, fun _ => ⟨hsiblingBlack, hparent⟩, by
            rw [if_neg (by simp [hframe])]
            exact hrest⟩, htree, fun _ => htreeBlack⟩
      | black =>
          obtain ⟨below, rfl, htree, hsibling⟩ := (balanced_join_black hframe).1 hjoin
          refine ⟨below, ⟨hsibling, fun hred => ?_, by
            rw [if_pos hframe]
            exact hrest⟩, htree, fun hred => ?_⟩
          · rw [hframe] at hred
            cases hred
          · simp only [pathColor, hframe] at hred
            cases hred

/-- Balance looks at the colour of a node only. -/
theorem Balanced.of_color_eq {cell cell' : Cell K V} {left right : Tree K V} {height : ℕ}
    (hbalanced : Balanced (.node cell left right) height)
    (hcolor : cell'.color = cell.color) : Balanced (.node cell' left right) height := by
  cases hbalanced with
  | red hred hleft hright hleftBlack hrightBlack =>
      exact .red (hcolor.trans hred) hleft hright hleftBlack hrightBlack
  | black hblack hleft hright => exact .black (hcolor.trans hblack) hleft hright

/-! ## Search -/

section Search

variable [LinearOrder K]

/-- Walk down towards a key, with the path taken so far. -/
def locate (key : K) : Tree K V → List (Frame K V) → Tree K V × List (Frame K V)
  | .leaf, frames => (.leaf, frames)
  | .node cell left right, frames =>
      if key < cell.key then locate key left (⟨.left, cell, right⟩ :: frames)
      else if cell.key < key then locate key right (⟨.right, cell, left⟩ :: frames)
      else (.node cell left right, frames)

theorem plug_locate (key : K) (tree : Tree K V) (frames : List (Frame K V)) :
    plug (locate key tree frames).1 (locate key tree frames).2 = plug tree frames := by
  fun_induction locate key tree frames with
  | case1 frames => rfl
  | case2 cell left right frames hlt ih => exact ih
  | case3 cell left right frames hge hgt ih => exact ih
  | case4 cell left right frames hge hle => rfl

/-- The walk stops at a leaf or at the key. -/
theorem locate_key {key : K} {tree : Tree K V} {frames : List (Frame K V)} :
    ∀ {cell left right}, (locate key tree frames).1 = .node cell left right →
      cell.key = key := by
  fun_induction locate key tree frames with
  | case1 frames => intro cell left right hnode; cases hnode
  | case2 cell left right frames hlt ih => exact ih
  | case3 cell left right frames hge hgt ih => exact ih
  | case4 cell left right frames hge hle =>
      intro found _ _ hnode
      cases hnode
      exact le_antisymm (not_lt.1 hge) (not_lt.1 hle)

/-- The hole of the path lies where the key belongs. -/
def Separates (key : K) (frames : List (Frame K V)) : Prop :=
  (∀ item ∈ pathBefore frames, item.1 < key) ∧ ∀ item ∈ pathAfter frames, key < item.1

theorem separates_nil (key : K) : Separates key ([] : List (Frame K V)) :=
  ⟨by simp [pathBefore], by simp [pathAfter]⟩

theorem separates_locate {key : K} {tree : Tree K V} {frames : List (Frame K V)}
    (hsorted : SortedKeys tree.entries) (hseparates : Separates key frames) :
    Separates key (locate key tree frames).2 := by
  fun_induction locate key tree frames with
  | case1 frames => exact hseparates
  | case2 cell left right frames hlt ih =>
      rw [Tree.entries, ← singleton_append, ← append_assoc] at hsorted
      obtain ⟨_, hright, hrest⟩ := hsorted.between
      refine ih (sortedKeys_append.1 hrest).1 ⟨?_, ?_⟩
      · simpa [pathBefore, Frame.before] using hseparates.1
      · intro item hitem
        simp only [pathAfter, Frame.after, cons_append, mem_cons, mem_append] at hitem
        rcases hitem with rfl | hitem | hitem
        · exact hlt
        · exact hlt.trans (hright item hitem)
        · exact hseparates.2 item hitem
  | case3 cell left right frames hge hgt ih =>
      rw [Tree.entries, ← singleton_append, ← append_assoc] at hsorted
      obtain ⟨hleft, _, hrest⟩ := hsorted.between
      refine ih (sortedKeys_append.1 hrest).2.1 ⟨?_, ?_⟩
      · intro item hitem
        simp only [pathBefore, Frame.before, mem_append, mem_singleton] at hitem
        rcases hitem with hitem | hitem | rfl
        · exact hseparates.1 item hitem
        · exact (hleft item hitem).trans hgt
        · exact hgt
      · simpa [pathAfter, Frame.after] using hseparates.2
  | case4 cell left right frames hge hle => exact hseparates

/-- The side of the hole, recovered by comparing with the key just above it. -/
theorem Separates.side_eq {key : K} {frame : Frame K V} {frames : List (Frame K V)}
    (hseparates : Separates key (frame :: frames)) :
    frame.side = if key < frame.cell.key then .left else .right := by
  cases hside : frame.side with
  | left =>
      have hlt : key < frame.cell.key :=
        hseparates.2 (entry frame.cell.key frame.cell.value)
          (by simp [pathAfter, Frame.after, hside])
      rw [if_pos hlt]
  | right =>
      have hlt : frame.cell.key < key :=
        hseparates.1 (entry frame.cell.key frame.cell.value)
          (by simp [pathBefore, Frame.before, hside])
      rw [if_neg hlt.not_gt]

end Search

/-! ## Moves that keep the entries -/

@[simp]
theorem entries_join_paint (side : Side) (cell : Cell K V) (color : Color)
    (near far : Tree K V) :
    (join side (cell.paint color) near far).entries =
      (join side cell near far).entries := by
  cases side <;> rfl

theorem plug_entries_congr {tree tree' : Tree K V} (frames : List (Frame K V))
    (hentries : tree.entries = tree'.entries) :
    (plug tree frames).entries = (plug tree' frames).entries := by
  rw [plug_entries, plug_entries, hentries]

theorem join_entries_congr (side : Side) (cell : Cell K V)
    {near near' far far' : Tree K V} (hnear : near.entries = near'.entries)
    (hfar : far.entries = far'.entries) :
    (join side cell near far).entries = (join side cell near' far').entries := by
  cases side <;> simp [join, Tree.entries, hnear, hfar]

/-- A rotation keeps the in-order sequence. -/
theorem entries_rotate (side : Side) (upper lower : Cell K V)
    (outer middle inner : Tree K V) :
    (join side lower (join side upper outer middle) inner).entries =
      (join side upper outer (join side lower middle inner)).entries := by
  cases side <;> simp [join, Tree.entries]

/-! ## Repair after an insertion

The focus is a red node that may have a red parent. -/

/-- Above a red parent there is a black grandparent. -/
theorem PathBalanced.of_red_parent {frame : Frame K V} {frames : List (Frame K V)}
    {height : ℕ} (hpath : PathBalanced (frame :: frames) height)
    (hred : frame.cell.color = .red) :
    ∃ grand above, frames = grand :: above ∧ grand.cell.color = .black ∧
      Balanced frame.sibling height ∧ frame.sibling.color = .black ∧
      Balanced grand.sibling height ∧ PathBalanced above (height + 1) := by
  obtain ⟨hsibling, hcondition, hrest⟩ := hpath
  obtain ⟨hsiblingBlack, hparent⟩ := hcondition hred
  rw [if_neg (by simp [hred])] at hrest
  cases frames with
  | nil => cases hparent
  | cons grand above =>
      obtain ⟨huncle, _, habove⟩ := hrest
      have hgrand : grand.cell.color = .black := hparent
      rw [if_pos hgrand] at habove
      exact ⟨grand, above, rfl, hgrand, hsibling, hsiblingBlack, huncle, habove⟩

/-- A red uncle: the red level moves up two steps. -/
theorem balanced_recolor {side upperSide : Side} {parent grand : Cell K V}
    {tree sibling uncle : Tree K V} {height : ℕ}
    (htree : Balanced tree height) (hsibling : Balanced sibling height)
    (huncle : Balanced uncle height) (hred : uncle.color = .red) :
    Balanced (join upperSide (grand.paint .red)
      (join side (parent.paint .black) tree sibling) (uncle.paint .black))
      (height + 1) := by
  rw [balanced_join_red rfl]
  refine ⟨(balanced_join_black rfl).2 ⟨height, rfl, htree, hsibling⟩,
    huncle.paint_black hred, by simp, ?_⟩
  cases uncle <;> rfl

/-- A black uncle, the focus on the outer side: one rotation. -/
theorem balanced_outer {side : Side} {parent grand : Cell K V}
    {tree sibling uncle : Tree K V} {height : ℕ}
    (htree : Balanced tree height) (hsibling : Balanced sibling height)
    (hsiblingBlack : sibling.color = .black) (huncle : Balanced uncle height)
    (huncleBlack : uncle.color = .black) :
    Balanced (join side (parent.paint .black) tree
      (join side (grand.paint .red) sibling uncle)) (height + 1) := by
  rw [balanced_join_black rfl]
  exact ⟨height, rfl, htree,
    (balanced_join_red rfl).2 ⟨hsibling, huncle, hsiblingBlack, huncleBlack⟩⟩

/-! ## Repair after a removal

The focus is one black node short. -/

/-- A subtree that lacks one black node, or gets it back by turning black. -/
def Short (tree : Tree K V) (height : ℕ) : Prop :=
  (tree.color = .black ∧ Balanced tree height) ∨
    (tree.color = .red ∧ Balanced (tree.paint .black) (height + 1))

theorem Balanced.short {tree : Tree K V} {height : ℕ}
    (hbalanced : Balanced tree height) : Short tree height := by
  cases hcolor : tree.color with
  | red => exact .inr ⟨hcolor, hbalanced.paint_black hcolor⟩
  | black => exact .inl ⟨hcolor, hbalanced⟩

/-- Taking out a node with at most one child. -/
theorem WellFormed.unlink {side : Side} {cell : Cell K V} {child : Tree K V}
    {frames : List (Frame K V)}
    (hwell : WellFormed (plug (join side cell child .leaf) frames)) :
    (cell.color = .red → WellFormed (plug child frames)) ∧
      (cell.color = .black →
        ∃ height, Short child height ∧ PathBalanced frames (height + 1)) := by
  obtain ⟨height, hpath, hjoin, _⟩ := hwell.open_plug
  constructor
  · intro hred
    obtain ⟨hchild, _, hblack, _⟩ := (balanced_join_red hred).1 hjoin
    exact wellFormed_plug hpath hchild fun _ => hblack
  · intro hblack
    obtain ⟨below, rfl, hchild, _⟩ := (balanced_join_black hblack).1 hjoin
    exact ⟨below, hchild.short, hpath⟩

/-- A red sibling: after the rotation the new sibling is black. -/
theorem PathBalanced.red_sibling {side : Side} {parent sibling : Cell K V}
    {near far : Tree K V} {frames : List (Frame K V)} {height : ℕ}
    (hpath : PathBalanced (⟨side, parent, join side sibling near far⟩ :: frames) height)
    (hred : sibling.color = .red) :
    PathBalanced (⟨side, parent.paint .red, near⟩ ::
      ⟨side, sibling.paint .black, far⟩ :: frames) height ∧ near.color = .black := by
  obtain ⟨hsibling, hcondition, hrest⟩ := hpath
  obtain ⟨hnear, hfar, hnearBlack, _⟩ := (balanced_join_red hred).1 hsibling
  have hparent : parent.color = .black := by
    cases hparent : parent.color with
    | black => rfl
    | red =>
        have hblack := (hcondition hparent).1
        rw [join_color, hred] at hblack
        cases hblack
  rw [if_pos hparent] at hrest
  refine ⟨⟨hnear, fun _ => ⟨hnearBlack, rfl⟩, ?_⟩, hnearBlack⟩
  rw [if_neg (by simp)]
  exact ⟨hfar, fun himpossible => (by cases himpossible), hrest⟩

/-- A black sibling with black children: the shortage moves up one step. -/
theorem PathBalanced.black_children {side : Side} {parent sibling : Cell K V}
    {tree near far : Tree K V} {frames : List (Frame K V)} {height : ℕ}
    (hpath : PathBalanced
      (⟨side, parent, join side sibling near far⟩ :: frames) (height + 1))
    (hblack : sibling.color = .black) (hnear : near.color = .black)
    (hfar : far.color = .black) (htree : Balanced tree height) :
    ∃ above, Short (join side parent tree (join side (sibling.paint .red) near far))
      above ∧ PathBalanced frames (above + 1) := by
  obtain ⟨hsibling, hcondition, hrest⟩ := hpath
  obtain ⟨below, hbelow, hnearBalanced, hfarBalanced⟩ :=
    (balanced_join_black hblack).1 hsibling
  obtain rfl : height = below := Nat.succ_injective hbelow
  have hnew : Balanced (join side (sibling.paint .red) near far) height :=
    (balanced_join_red rfl).2 ⟨hnearBalanced, hfarBalanced, hnear, hfar⟩
  cases hparent : parent.color with
  | red =>
      rw [if_neg (by simp [hparent])] at hrest
      refine ⟨height, .inr ⟨by simpa using hparent, ?_⟩, hrest⟩
      rw [join_paint, balanced_join_black rfl]
      exact ⟨height, rfl, htree, hnew⟩
  | black =>
      rw [if_pos hparent] at hrest
      refine ⟨height + 1, .inl ⟨by simpa using hparent, ?_⟩, hrest⟩
      rw [balanced_join_black hparent]
      exact ⟨height, rfl, htree, hnew⟩

/-- A black sibling whose near child only is red: after the rotation the far
child of the new sibling is red. -/
theorem PathBalanced.near_red {side : Side} {parent sibling inner : Cell K V}
    {middle outer far : Tree K V} {frames : List (Frame K V)} {height : ℕ}
    (hpath : PathBalanced (⟨side, parent,
      join side sibling (join side inner middle outer) far⟩ :: frames) (height + 1))
    (hblack : sibling.color = .black) (hred : inner.color = .red)
    (hfar : far.color = .black) :
    PathBalanced (⟨side, parent, join side (inner.paint .black) middle
      (join side (sibling.paint .red) outer far)⟩ :: frames) (height + 1) := by
  obtain ⟨hsibling, hcondition, hrest⟩ := hpath
  obtain ⟨below, hbelow, hnear, hfarBalanced⟩ := (balanced_join_black hblack).1 hsibling
  obtain ⟨hmiddle, houter, _, houterBlack⟩ := (balanced_join_red hred).1 hnear
  refine ⟨?_, fun hparent => ⟨by simp, (hcondition hparent).2⟩, hrest⟩
  rw [balanced_join_black rfl]
  exact ⟨below, hbelow, hmiddle,
    (balanced_join_red rfl).2 ⟨houter, hfarBalanced, houterBlack, hfar⟩⟩

/-- A black sibling whose far child is red: the rotation restores balance. -/
theorem PathBalanced.far_red {side : Side} {parent sibling : Cell K V}
    {tree near far : Tree K V} {frames : List (Frame K V)} {height : ℕ}
    (hpath : PathBalanced
      (⟨side, parent, join side sibling near far⟩ :: frames) (height + 1))
    (hblack : sibling.color = .black) (hfar : far.color = .red)
    (htree : Balanced tree height) :
    WellFormed (plug (join side (sibling.paint parent.color)
      (join side (parent.paint .black) tree near) (far.paint .black)) frames) := by
  obtain ⟨hsibling, hcondition, hrest⟩ := hpath
  obtain ⟨below, hbelow, hnearBalanced, hfarBalanced⟩ :=
    (balanced_join_black hblack).1 hsibling
  obtain rfl : height = below := Nat.succ_injective hbelow
  have hinner : Balanced (join side (parent.paint .black) tree near) (height + 1) :=
    (balanced_join_black rfl).2 ⟨height, rfl, htree, hnearBalanced⟩
  have houter : Balanced (far.paint .black) (height + 1) :=
    hfarBalanced.paint_black hfar
  have houterBlack : (far.paint .black).color = .black := by
    cases far <;> rfl
  cases hparent : parent.color with
  | red =>
      rw [if_neg (by simp [hparent])] at hrest
      apply wellFormed_plug hrest
      · rw [balanced_join_red rfl]
        exact ⟨hinner, houter, by simp, houterBlack⟩
      · intro houterColor
        rw [(hcondition hparent).2] at houterColor
        cases houterColor
  | black =>
      rw [if_pos hparent] at hrest
      apply wellFormed_plug hrest
      · rw [balanced_join_black rfl]
        exact ⟨height + 1, rfl, hinner, houter⟩
      · intro _
        simp

end LiteMultiKV.RedBlack
