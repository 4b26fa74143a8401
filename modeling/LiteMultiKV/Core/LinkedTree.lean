import LiteMultiKV.Core.RedBlack

/-!
# Pointer memories that represent a tree

Nodes with two child links and a parent link, below a root pointer and with a
sentinel in place of the leaves.  `Represents` says that the memory holds a
given tree, seen from a focused subtree and the path above it; the focus can be
moved freely, so that a program that writes a few fields is followed by moving
the focus to them.
-/

namespace LiteMultiKV.LinkedTree

open List RedBlack

variable {K V : Type*}

/-- One component per field of a node; `next` is the first address that no
allocation has handed out. -/
structure Heap (K V : Type*) where
  link : Side → ℕ → ℕ
  parent : ℕ → ℕ
  color : ℕ → Color
  key : ℕ → K
  value : ℕ → V
  root : ℕ
  nil : ℕ
  next : ℕ

namespace Heap

/-- The sentinel has no child fields that may be read. -/
def child (heap : Heap K V) (side : Side) (address : ℕ) : Option ℕ :=
  if address = heap.nil then none else some (heap.link side address)

@[simps]
def setLink (heap : Heap K V) (side : Side) (address target : ℕ) : Heap K V :=
  { heap with
    link := Function.update heap.link side
      (Function.update (heap.link side) address target) }

@[simps]
def setParent (heap : Heap K V) (address target : ℕ) : Heap K V :=
  { heap with parent := Function.update heap.parent address target }

@[simps]
def setColor (heap : Heap K V) (address : ℕ) (color : Color) : Heap K V :=
  { heap with color := Function.update heap.color address color }

@[simps]
def setKey (heap : Heap K V) (address : ℕ) (key : K) : Heap K V :=
  { heap with key := Function.update heap.key address key }

@[simps]
def setValue (heap : Heap K V) (address : ℕ) (value : V) : Heap K V :=
  { heap with value := Function.update heap.value address value }

@[simps]
def setRoot (heap : Heap K V) (target : ℕ) : Heap K V :=
  { heap with root := target }

/-- Take a fresh address. -/
@[simps]
def allocate (heap : Heap K V) : Heap K V :=
  { heap with next := heap.next + 1 }

end Heap

/-! ## Unchanged nodes -/

/-- Two memories have the same node at an address. -/
structure SameAt (before after : Heap K V) (address : ℕ) : Prop where
  link : ∀ side, after.link side address = before.link side address
  parent : after.parent address = before.parent address
  color : after.color address = before.color address
  key : after.key address = before.key address
  value : after.value address = before.value address

theorem SameAt.refl (heap : Heap K V) (address : ℕ) : SameAt heap heap address :=
  ⟨fun _ => rfl, rfl, rfl, rfl, rfl⟩

theorem SameAt.trans {first second third : Heap K V} {address : ℕ}
    (hfirst : SameAt first second address) (hsecond : SameAt second third address) :
    SameAt first third address where
  link := fun side => (hsecond.link side).trans (hfirst.link side)
  parent := hsecond.parent.trans hfirst.parent
  color := hsecond.color.trans hfirst.color
  key := hsecond.key.trans hfirst.key
  value := hsecond.value.trans hfirst.value

theorem sameAt_setLink (heap : Heap K V) (side : Side) {address changed : ℕ}
    (target : ℕ) (hne : address ≠ changed) :
    SameAt heap (heap.setLink side changed target) address := by
  refine ⟨fun other => ?_, rfl, rfl, rfl, rfl⟩
  by_cases hside : other = side
  · subst hside
    simp [hne]
  · simp [hside]

theorem sameAt_setParent (heap : Heap K V) {address changed : ℕ} (target : ℕ)
    (hne : address ≠ changed) :
    SameAt heap (heap.setParent changed target) address :=
  ⟨fun _ => rfl, by simp [hne], rfl, rfl, rfl⟩

theorem sameAt_setColor (heap : Heap K V) {address changed : ℕ} (color : Color)
    (hne : address ≠ changed) :
    SameAt heap (heap.setColor changed color) address :=
  ⟨fun _ => rfl, rfl, by simp [hne], rfl, rfl⟩

theorem sameAt_setKey (heap : Heap K V) {address changed : ℕ} (key : K)
    (hne : address ≠ changed) :
    SameAt heap (heap.setKey changed key) address :=
  ⟨fun _ => rfl, rfl, rfl, by simp [hne], rfl⟩

theorem sameAt_setValue (heap : Heap K V) {address changed : ℕ} (value : V)
    (hne : address ≠ changed) :
    SameAt heap (heap.setValue changed value) address :=
  ⟨fun _ => rfl, rfl, rfl, rfl, by simp [hne]⟩

theorem sameAt_setRoot (heap : Heap K V) (address target : ℕ) :
    SameAt heap (heap.setRoot target) address :=
  ⟨fun _ => rfl, rfl, rfl, rfl, rfl⟩

/-! ## Representation -/

/-- The pointer to a subtree. -/
def top (nil : ℕ) : Tree K V → ℕ
  | .leaf => nil
  | .node cell _ _ => cell.address

/-- The node just above the hole of a path. -/
def pathTop (nil : ℕ) : List (Frame K V) → ℕ
  | [] => nil
  | frame :: _ => frame.cell.address

@[simp]
theorem top_leaf (nil : ℕ) : top nil (Tree.leaf : Tree K V) = nil := rfl

@[simp]
theorem top_node (nil : ℕ) (cell : Cell K V) (left right : Tree K V) :
    top nil (.node cell left right) = cell.address := rfl

@[simp]
theorem top_join (nil : ℕ) (side : Side) (cell : Cell K V) (near far : Tree K V) :
    top nil (join side cell near far) = cell.address := by
  cases side <;> rfl

@[simp]
theorem top_paint (nil : ℕ) (tree : Tree K V) (color : Color) :
    top nil (tree.paint color) = top nil tree := by
  cases tree <;> rfl

/-- The memory holds `cell`, below `up` and above `near` and `far`. -/
structure NodeAt (heap : Heap K V) (cell : Cell K V) (up : ℕ) (side : Side)
    (near far : ℕ) : Prop where
  ne_nil : cell.address ≠ heap.nil
  lt_next : cell.address < heap.next
  parent : heap.parent cell.address = up
  color : heap.color cell.address = cell.color
  key : heap.key cell.address = cell.key
  value : heap.value cell.address = cell.value
  link_near : heap.link side cell.address = near
  link_far : heap.link side.opposite cell.address = far

theorem NodeAt.flip {heap : Heap K V} {cell : Cell K V} {up : ℕ} {side : Side}
    {near far : ℕ} (hnode : NodeAt heap cell up side near far) :
    NodeAt heap cell up side.opposite far near :=
  { hnode with
    link_near := hnode.link_far
    link_far := by
      rw [Side.opposite_opposite]
      exact hnode.link_near }

theorem NodeAt.congr {before after : Heap K V} {cell : Cell K V} {up : ℕ}
    {side : Side} {near far : ℕ} (hnode : NodeAt before cell up side near far)
    (hsame : SameAt before after cell.address) (hnil : after.nil = before.nil)
    (hnext : before.next ≤ after.next) :
    NodeAt after cell up side near far where
  ne_nil := by
    rw [hnil]
    exact hnode.ne_nil
  lt_next := lt_of_lt_of_le hnode.lt_next hnext
  parent := hsame.parent.trans hnode.parent
  color := hsame.color.trans hnode.color
  key := hsame.key.trans hnode.key
  value := hsame.value.trans hnode.value
  link_near := (hsame.link side).trans hnode.link_near
  link_far := (hsame.link side.opposite).trans hnode.link_far

/-- The memory holds a subtree whose parent is `up`. -/
def Holds (heap : Heap K V) : ℕ → Tree K V → Prop
  | _, .leaf => True
  | up, .node cell left right =>
      NodeAt heap cell up .left (top heap.nil left) (top heap.nil right) ∧
        Holds heap cell.address left ∧ Holds heap cell.address right

/-- The memory holds a path whose hole is the pointer `focus`. -/
def Hung (heap : Heap K V) : ℕ → List (Frame K V) → Prop
  | focus, [] => heap.root = focus
  | focus, frame :: frames =>
      NodeAt heap frame.cell (pathTop heap.nil frames) frame.side focus
          (top heap.nil frame.sibling) ∧
        Holds heap frame.cell.address frame.sibling ∧
        Hung heap frame.cell.address frames

theorem holds_join {heap : Heap K V} {up : ℕ} {side : Side} {cell : Cell K V}
    {near far : Tree K V} :
    Holds heap up (join side cell near far) ↔
      NodeAt heap cell up side (top heap.nil near) (top heap.nil far) ∧
        Holds heap cell.address near ∧ Holds heap cell.address far := by
  cases side with
  | left => rfl
  | right =>
      constructor
      · rintro ⟨hnode, hfar, hnear⟩
        exact ⟨hnode.flip, hnear, hfar⟩
      · rintro ⟨hnode, hnear, hfar⟩
        exact ⟨hnode.flip, hfar, hnear⟩

/-- A memory that keeps all nodes of a subtree still holds it. -/
theorem Holds.congr {before after : Heap K V} {up : ℕ} {tree : Tree K V}
    (hholds : Holds before up tree)
    (hsame : ∀ address ∈ tree.addresses, SameAt before after address)
    (hnil : after.nil = before.nil) (hnext : before.next ≤ after.next) :
    Holds after up tree := by
  induction tree generalizing up with
  | leaf => trivial
  | node cell left right ihleft ihright =>
      obtain ⟨hnode, hleft, hright⟩ := hholds
      simp only [Tree.addresses, mem_cons, mem_append] at hsame
      refine ⟨?_, ihleft hleft ?_, ihright hright ?_⟩
      · rw [hnil]
        exact hnode.congr (hsame _ (.inl rfl)) hnil hnext
      · exact fun address haddress => hsame address (.inr (.inl haddress))
      · exact fun address haddress => hsame address (.inr (.inr haddress))

theorem Hung.congr {before after : Heap K V} {focus : ℕ} {frames : List (Frame K V)}
    (hhung : Hung before focus frames)
    (hsame : ∀ address ∈ pathAddresses frames, SameAt before after address)
    (hroot : after.root = before.root) (hnil : after.nil = before.nil)
    (hnext : before.next ≤ after.next) : Hung after focus frames := by
  induction frames generalizing focus with
  | nil => exact hroot.trans hhung
  | cons frame frames ih =>
      obtain ⟨hnode, hsibling, hrest⟩ := hhung
      simp only [pathAddresses, mem_cons, mem_append] at hsame
      refine ⟨?_, hsibling.congr ?_ hnil hnext, ih hrest ?_⟩
      · rw [hnil]
        exact hnode.congr (hsame _ (.inl rfl)) hnil hnext
      · exact fun address haddress => hsame address (.inr (.inl haddress))
      · exact fun address haddress => hsame address (.inr (.inr haddress))

/-- Hanging a subtree below another parent. -/
theorem Holds.setParent {heap : Heap K V} {up : ℕ} {tree : Tree K V}
    (hholds : Holds heap up tree) (hnodup : tree.addresses.Nodup) (target : ℕ) :
    Holds (heap.setParent (top heap.nil tree) target) target tree := by
  cases tree with
  | leaf => trivial
  | node cell left right =>
      obtain ⟨hnode, hleft, hright⟩ := hholds
      simp only [Tree.addresses, nodup_cons, mem_append, not_or] at hnodup
      obtain ⟨⟨hfreshLeft, hfreshRight⟩, _⟩ := hnodup
      have hsame : ∀ subtree : Tree K V, cell.address ∉ subtree.addresses →
          ∀ address ∈ subtree.addresses,
            SameAt heap (heap.setParent cell.address target) address := by
        intro subtree hfresh address haddress
        exact sameAt_setParent heap target fun heq => hfresh (heq ▸ haddress)
      exact ⟨{ hnode with parent := by simp [top] },
        hleft.congr (hsame left hfreshLeft) rfl le_rfl,
        hright.congr (hsame right hfreshRight) rfl le_rfl⟩

/-- Point the hole of a path at another node. -/
def relink (heap : Heap K V) (frames : List (Frame K V)) (target : ℕ) : Heap K V :=
  match frames with
  | [] => heap.setRoot target
  | frame :: _ => heap.setLink frame.side frame.cell.address target

theorem sameAt_relink (heap : Heap K V) {frames : List (Frame K V)} {address : ℕ}
    (target : ℕ) (hfresh : address ∉ pathAddresses frames) :
    SameAt heap (relink heap frames target) address := by
  cases frames with
  | nil => exact sameAt_setRoot heap address target
  | cons frame frames =>
      apply sameAt_setLink
      intro heq
      exact hfresh (heq ▸ mem_cons_self)

@[simp]
theorem relink_nil (heap : Heap K V) (frames : List (Frame K V)) (target : ℕ) :
    (relink heap frames target).nil = heap.nil := by
  cases frames <;> rfl

@[simp]
theorem relink_next (heap : Heap K V) (frames : List (Frame K V)) (target : ℕ) :
    (relink heap frames target).next = heap.next := by
  cases frames <;> rfl

@[simp]
theorem relink_parent (heap : Heap K V) (frames : List (Frame K V)) (target : ℕ) :
    (relink heap frames target).parent = heap.parent := by
  cases frames <;> rfl

@[simp]
theorem relink_color (heap : Heap K V) (frames : List (Frame K V)) (target : ℕ) :
    (relink heap frames target).color = heap.color := by
  cases frames <;> rfl

@[simp]
theorem relink_key (heap : Heap K V) (frames : List (Frame K V)) (target : ℕ) :
    (relink heap frames target).key = heap.key := by
  cases frames <;> rfl

@[simp]
theorem relink_value (heap : Heap K V) (frames : List (Frame K V)) (target : ℕ) :
    (relink heap frames target).value = heap.value := by
  cases frames <;> rfl

theorem Hung.relink {heap : Heap K V} {focus : ℕ} {frames : List (Frame K V)}
    (hhung : Hung heap focus frames) (hnodup : (pathAddresses frames).Nodup)
    (target : ℕ) : Hung (relink heap frames target) target frames := by
  cases frames with
  | nil => rfl
  | cons frame frames =>
      obtain ⟨hnode, hsibling, hrest⟩ := hhung
      simp only [pathAddresses, nodup_cons, mem_append, not_or] at hnodup
      obtain ⟨⟨hfreshSibling, hfreshRest⟩, _⟩ := hnodup
      have hsame : ∀ address, address ≠ frame.cell.address →
          SameAt heap (heap.setLink frame.side frame.cell.address target) address :=
        fun address hne => sameAt_setLink heap frame.side target hne
      refine ⟨{ hnode with link_near := ?_, link_far := ?_ }, ?_, ?_⟩
      · simp [LinkedTree.relink]
      · simpa [LinkedTree.relink] using hnode.link_far
      · exact hsibling.congr
          (fun address haddress => hsame address fun heq => hfreshSibling (heq ▸ haddress))
          rfl le_rfl
      · exact hrest.congr
          (fun address haddress => hsame address fun heq => hfreshRest (heq ▸ haddress))
          rfl rfl le_rfl

/-- The memory represents the tree `plug tree frames`, and the sentinel is as
the algorithms expect it. -/
structure Represents (heap : Heap K V) (tree : Tree K V) (frames : List (Frame K V)) :
    Prop where
  holds : Holds heap (pathTop heap.nil frames) tree
  hung : Hung heap (top heap.nil tree) frames
  nodup : (tree.addresses ++ pathAddresses frames).Nodup
  nil_black : heap.color heap.nil = .black
  nil_lt : heap.nil < heap.next

/-- The focus may be moved between a node and its child on either side. -/
theorem represents_join {heap : Heap K V} {frame : Frame K V}
    {frames : List (Frame K V)} {tree : Tree K V} :
    Represents heap (join frame.side frame.cell tree frame.sibling) frames ↔
      Represents heap tree (frame :: frames) := by
  have hperm : ((join frame.side frame.cell tree frame.sibling).addresses ++
      pathAddresses frames).Perm (tree.addresses ++ pathAddresses (frame :: frames)) :=
    (plug_addresses_perm _ frames).symm.trans
      (plug_addresses_perm tree (frame :: frames))
  constructor
  · rintro ⟨hholds, hhung, hnodup, hblack, hlt⟩
    obtain ⟨hnode, htree, hsibling⟩ := holds_join.1 hholds
    rw [top_join] at hhung
    exact ⟨htree, ⟨hnode, hsibling, hhung⟩, hperm.nodup_iff.1 hnodup, hblack, hlt⟩
  · rintro ⟨htree, ⟨hnode, hsibling, hhung⟩, hnodup, hblack, hlt⟩
    refine ⟨holds_join.2 ⟨hnode, htree, hsibling⟩, ?_, hperm.nodup_iff.2 hnodup,
      hblack, hlt⟩
    rw [top_join]
    exact hhung

theorem represents_near {heap : Heap K V} {side : Side} {cell : Cell K V}
    {near far : Tree K V} {frames : List (Frame K V)} :
    Represents heap (join side cell near far) frames ↔
      Represents heap near (⟨side, cell, far⟩ :: frames) := by
  rw [← represents_join]

theorem represents_far {heap : Heap K V} {side : Side} {cell : Cell K V}
    {near far : Tree K V} {frames : List (Frame K V)} :
    Represents heap (join side cell near far) frames ↔
      Represents heap far (⟨side.opposite, cell, near⟩ :: frames) := by
  rw [← represents_join]
  simp

/-- All focus positions describe the same memory. -/
theorem represents_plug {heap : Heap K V} {tree : Tree K V}
    {frames : List (Frame K V)} :
    Represents heap (plug tree frames) [] ↔ Represents heap tree frames := by
  induction frames generalizing tree with
  | nil => rfl
  | cons frame frames ih => rw [plug, ih, represents_join]

namespace Represents

variable {heap : Heap K V} {side : Side} {cell : Cell K V}
  {tree near far : Tree K V} {frames : List (Frame K V)}

theorem node_at (hrep : Represents heap (join side cell near far) frames) :
    NodeAt heap cell (pathTop heap.nil frames) side (top heap.nil near)
      (top heap.nil far) :=
  (holds_join.1 hrep.holds).1

theorem child_near (hrep : Represents heap (join side cell near far) frames) :
    heap.child side cell.address = some (top heap.nil near) := by
  rw [Heap.child, if_neg hrep.node_at.ne_nil, hrep.node_at.link_near]

theorem child_far (hrep : Represents heap (join side cell near far) frames) :
    heap.child side.opposite cell.address = some (top heap.nil far) := by
  rw [Heap.child, if_neg hrep.node_at.ne_nil, hrep.node_at.link_far]

theorem parent_top (hrep : Represents heap tree frames) (htree : tree ≠ .leaf) :
    heap.parent (top heap.nil tree) = pathTop heap.nil frames := by
  cases tree with
  | leaf => exact absurd rfl htree
  | node cell left right => exact hrep.holds.1.parent

theorem color_top (hrep : Represents heap tree frames) :
    heap.color (top heap.nil tree) = tree.color := by
  cases tree with
  | leaf => exact hrep.nil_black
  | node cell left right => exact hrep.holds.1.color

theorem top_eq_nil_iff (hrep : Represents heap tree frames) :
    top heap.nil tree = heap.nil ↔ tree = .leaf := by
  cases tree with
  | leaf => simp [top]
  | node cell left right =>
      have hne : cell.address ≠ heap.nil := hrep.holds.1.ne_nil
      simp [top, hne]

/-- Siblings have different addresses, unless both are the sentinel. -/
theorem top_ne (hrep : Represents heap (join side cell near far) frames)
    (hnear : near ≠ .leaf) : top heap.nil near ≠ top heap.nil far := by
  have hnodup := hrep.nodup
  rw [((join_addresses_perm side cell near far).append_right _).nodup_iff] at hnodup
  cases near with
  | leaf => exact absurd rfl hnear
  | node nearCell left right =>
      intro heq
      cases far with
      | leaf =>
          have hne := (holds_join.1 hrep.holds).2.1.1.ne_nil
          exact hne heq
      | node farCell left' right' =>
          simp only [top] at heq
          simp [Tree.addresses, heq] at hnodup

/-- The node addresses are distinct, allocated, and not the sentinel. -/
theorem addresses_lt {up : ℕ} (hholds : Holds heap up tree) :
    ∀ address ∈ tree.addresses, address < heap.next ∧ address ≠ heap.nil := by
  induction tree generalizing up with
  | leaf => simp [Tree.addresses]
  | node cell left right ihleft ihright =>
      obtain ⟨hnode, hleft, hright⟩ := hholds
      intro address haddress
      simp only [Tree.addresses, mem_cons, mem_append] at haddress
      rcases haddress with rfl | haddress | haddress
      · exact ⟨hnode.lt_next, hnode.ne_nil⟩
      · exact ihleft hleft address haddress
      · exact ihright hright address haddress

/-- The number of nodes is bounded by the number of allocations. -/
theorem length_lt (hrep : Represents heap tree frames) :
    (tree.addresses ++ pathAddresses frames).length < heap.next := by
  have hwhole := represents_plug.2 hrep
  have hperm := plug_addresses_perm tree frames
  have hnodup : (heap.nil :: (plug tree frames).addresses).Nodup := by
    rw [nodup_cons]
    refine ⟨fun hmem => (addresses_lt hwhole.holds _ hmem).2 rfl, ?_⟩
    exact hperm.nodup_iff.2 hrep.nodup
  have hsubset : heap.nil :: (plug tree frames).addresses ⊆ range heap.next := by
    intro address haddress
    rw [mem_range]
    rcases mem_cons.1 haddress with rfl | hmem
    · exact hrep.nil_lt
    · exact (addresses_lt hwhole.holds _ hmem).1
  have hle := (hnodup.subperm hsubset).length_le
  rw [length_cons, length_range, hperm.length_eq] at hle
  exact hle

/-- A path is entered from the root. -/
theorem root_mem {focus : ℕ} (hhung : Hung heap focus frames) (hne : frames ≠ []) :
    heap.root ∈ pathAddresses frames := by
  induction frames generalizing focus with
  | nil => exact absurd rfl hne
  | cons frame frames ih =>
      rw [pathAddresses, mem_cons, mem_append]
      cases frames with
      | nil => exact .inl hhung.2.2
      | cons next frames => exact .inr (.inr (ih hhung.2.2 (by simp)))

theorem top_ne_root {frame : Frame K V} (hrep : Represents heap tree (frame :: frames)) :
    top heap.nil tree ≠ heap.root := by
  have hroot := root_mem hrep.hung (by simp)
  intro heq
  rw [← heq] at hroot
  cases tree with
  | leaf =>
      have hwhole := (represents_plug.2 hrep).holds
      have hperm := plug_addresses_perm .leaf (frame :: frames)
      exact (addresses_lt hwhole _ (hperm.mem_iff.2 (mem_append_right _ hroot))).2 rfl
  | node cell left right =>
      exact (nodup_append'.1 hrep.nodup).2.2 mem_cons_self hroot

/-- A memory that keeps every node of the tree represents it as well. -/
theorem congr {after : Heap K V} (hrep : Represents heap tree frames)
    (hsame : ∀ address ∈ tree.addresses ++ pathAddresses frames, SameAt heap after address)
    (hroot : after.root = heap.root) (hnil : after.nil = heap.nil)
    (hblack : after.color heap.nil = .black) (hnext : heap.next ≤ after.next) :
    Represents after tree frames where
  holds := by
    rw [hnil]
    exact hrep.holds.congr (fun address haddress => hsame address (mem_append_left _ haddress))
      hnil hnext
  hung := by
    rw [hnil]
    exact hrep.hung.congr (fun address haddress => hsame address (mem_append_right _ haddress))
      hroot hnil hnext
  nodup := hrep.nodup
  nil_black := by
    rw [hnil]
    exact hblack
  nil_lt := by
    rw [hnil]
    exact lt_of_lt_of_le hrep.nil_lt hnext

/-- Every allocated node of the tree lies below `next`. -/
theorem mem_lt (hrep : Represents heap tree frames) :
    ∀ address ∈ tree.addresses ++ pathAddresses frames,
      address < heap.next ∧ address ≠ heap.nil := by
  intro address haddress
  have hperm := plug_addresses_perm tree frames
  exact addresses_lt (represents_plug.2 hrep).holds address (hperm.mem_iff.2 haddress)

/-- Writing the colour of the focus; the sentinel must stay black. -/
theorem setColor (hrep : Represents heap tree frames) (color : Color)
    (hleaf : tree = .leaf → color = .black) :
    Represents (heap.setColor (top heap.nil tree) color) (tree.paint color) frames := by
  have hnodup := hrep.nodup
  cases tree with
  | leaf =>
      obtain rfl := hleaf rfl
      have hself : heap.setColor heap.nil .black = heap := by
        rw [Heap.setColor, Function.update_eq_self_iff.2 hrep.nil_black.symm]
      simpa only [top, hself, Tree.paint] using hrep
  | node cell left right =>
      obtain ⟨hnode, hleft, hright⟩ := hrep.holds
      simp only [Tree.addresses, cons_append, append_assoc, nodup_cons, mem_append,
        not_or] at hnodup
      obtain ⟨⟨hfreshLeft, hfreshRight, hfreshPath⟩, _⟩ := hnodup
      have hsame : ∀ addresses : List ℕ, cell.address ∉ addresses →
          ∀ address ∈ addresses, SameAt heap (heap.setColor cell.address color) address := by
        intro addresses hfresh address haddress
        exact sameAt_setColor heap color fun heq => hfresh (heq ▸ haddress)
      refine ⟨⟨{ hnode with color := ?_ }, ?_, ?_⟩, ?_, ?_, ?_, hrep.nil_lt⟩
      · simp [top]
      · exact hleft.congr (hsame _ hfreshLeft) rfl le_rfl
      · exact hright.congr (hsame _ hfreshRight) rfl le_rfl
      · exact hrep.hung.congr (hsame _ hfreshPath) rfl rfl le_rfl
      · simpa using hrep.nodup
      · simp [top, hnode.ne_nil.symm, hrep.nil_black]

/-- Writing the key and the value of the focused node. -/
theorem setContents {left right : Tree K V}
    (hrep : Represents heap (.node cell left right) frames) (key : K) (value : V) :
    Represents ((heap.setKey cell.address key).setValue cell.address value)
      (.node { cell with key := key, value := value } left right) frames := by
  have hnodup := hrep.nodup
  obtain ⟨hnode, hleft, hright⟩ := hrep.holds
  simp only [Tree.addresses, cons_append, append_assoc, nodup_cons, mem_append,
    not_or] at hnodup
  obtain ⟨⟨hfreshLeft, hfreshRight, hfreshPath⟩, _⟩ := hnodup
  have hsame : ∀ addresses : List ℕ, cell.address ∉ addresses → ∀ address ∈ addresses,
      SameAt heap ((heap.setKey cell.address key).setValue cell.address value) address := by
    intro addresses hfresh address haddress
    have hne : address ≠ cell.address := fun heq => hfresh (heq ▸ haddress)
    exact (sameAt_setKey heap key hne).trans (sameAt_setValue _ value hne)
  refine ⟨⟨{ hnode with key := ?_, value := ?_ }, ?_, ?_⟩, ?_, hrep.nodup, hrep.nil_black,
    hrep.nil_lt⟩
  · simp
  · simp
  · exact hleft.congr (hsame _ hfreshLeft) rfl le_rfl
  · exact hright.congr (hsame _ hfreshRight) rfl le_rfl
  · exact hrep.hung.congr (hsame _ hfreshPath) rfl rfl le_rfl

end Represents

end LiteMultiKV.LinkedTree
