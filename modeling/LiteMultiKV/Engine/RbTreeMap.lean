import LiteMultiKV.Engine.RbTreeDelete

/-!
# The red-black engine as a dictionary

The invariant of the engine, the search, and the effect of the five operations
on the in-order entries.
-/

namespace LiteMultiKV.RbTree

open List CText Dictionary LinkedTree Memory RedBlack

/-- The entries in the order of `rbtree_traversal`. -/
def entries (tree : KvsRbtree) : Store :=
  rbtreeTraversal tree.next tree tree.root

/-- The memory represents a balanced search tree. -/
def Valid (tree : KvsRbtree) : Prop :=
  ∃ whole : Node, Represents tree whole [] ∧ WellFormed whole ∧ SortedKeys whole.entries

variable {tree : KvsRbtree} {focus : Node} {frames : Path} {key : CStr}

theorem traversal_eq {fuel up : ℕ} (hholds : Holds tree up focus)
    (hfuel : focus.addresses.length < fuel) :
    rbtreeTraversal fuel tree (top tree.nil focus) = focus.entries := by
  induction focus generalizing fuel up with
  | leaf =>
      obtain ⟨fuel, rfl⟩ : ∃ less, fuel = less + 1 := ⟨fuel - 1, by omega⟩
      simp [rbtreeTraversal, Tree.entries]
  | node cell left right ihleft ihright =>
      obtain ⟨fuel, rfl⟩ : ∃ less, fuel = less + 1 := ⟨fuel - 1, by omega⟩
      obtain ⟨hnode, hleft, hright⟩ := hholds
      simp only [Tree.addresses, length_cons, length_append] at hfuel
      have hlinkRight : tree.link .right cell.address = top tree.nil right := hnode.link_far
      simp only [rbtreeTraversal, top_node, hnode.ne_nil, if_false, hnode.link_near, hlinkRight,
        ihleft hleft (by omega : _ < fuel), ihright hright (by omega : _ < fuel), hnode.key,
        hnode.value, Tree.entries]

/-- The search loop follows the walk towards the key. -/
theorem searchFrom_eq (key : CStr) {fuel up : ℕ} (hholds : Holds tree up focus)
    (hfuel : focus.addresses.length < fuel) (frames : Path) :
    searchFrom key fuel tree (top tree.nil focus) =
      some (top tree.nil (locate key focus frames).1) := by
  induction focus generalizing fuel up frames with
  | leaf =>
      obtain ⟨fuel, rfl⟩ : ∃ less, fuel = less + 1 := ⟨fuel - 1, by omega⟩
      simp [searchFrom, locate]
  | node cell left right ihleft ihright =>
      obtain ⟨fuel, rfl⟩ : ∃ less, fuel = less + 1 := ⟨fuel - 1, by omega⟩
      obtain ⟨hnode, hleft, hright⟩ := hholds
      simp only [Tree.addresses, length_cons, length_append] at hfuel
      have hlinkRight : tree.link .right cell.address = top tree.nil right := hnode.link_far
      simp only [searchFrom, top_node, hnode.ne_nil, if_false, hnode.key, strcmp_neg_iff, gt_iff_lt,
        strcmp_pos_iff, hnode.link_near, hlinkRight, locate]
      split_ifs with hlt hgt
      · exact ihleft hleft (by omega) _
      · exact ihright hright (by omega) _
      · rfl

/-- The descent of `rbtree_insert` ends at the parent of the hole. -/
theorem insertPoint_eq {fuel up : ℕ} (hholds : Holds tree up focus)
    (hfuel : focus.addresses.length < fuel)
    (habsent : (locate key focus frames).1 = .leaf) :
    insertPoint key fuel tree (top tree.nil focus) (pathTop tree.nil frames) =
      some (some (pathTop tree.nil (locate key focus frames).2)) := by
  induction focus generalizing fuel up frames with
  | leaf =>
      obtain ⟨fuel, rfl⟩ : ∃ less, fuel = less + 1 := ⟨fuel - 1, by omega⟩
      simp [insertPoint, locate]
  | node cell left right ihleft ihright =>
      obtain ⟨fuel, rfl⟩ : ∃ less, fuel = less + 1 := ⟨fuel - 1, by omega⟩
      obtain ⟨hnode, hleft, hright⟩ := hholds
      simp only [Tree.addresses, length_cons, length_append] at hfuel
      have hlinkRight : tree.link .right cell.address = top tree.nil right := hnode.link_far
      simp only [insertPoint, top_node, hnode.ne_nil, if_false, hnode.key, strcmp_neg_iff,
        gt_iff_lt, strcmp_pos_iff, hnode.link_near, hlinkRight]
      rw [locate] at habsent ⊢
      split_ifs at habsent ⊢ with hlt hgt
      · exact ihleft hleft (by omega) habsent
      · exact ihright hright (by omega) habsent

theorem entries_eq {whole : Node} (hrep : Represents tree whole []) :
    entries tree = whole.entries := by
  have hlength := hrep.length_lt
  rw [pathAddresses, append_nil] at hlength
  rw [entries, ← traversal_eq hrep.holds hlength]
  exact congrArg _ hrep.hung

/-- Where the search for a key ends. -/
theorem search_cases {whole : Node} (hrep : Represents tree whole [])
    (hsorted : SortedKeys whole.entries) (key : CStr) :
    (∃ frames, rbtreeSearch tree key = some tree.nil ∧ plug .leaf frames = whole ∧
      Separates key frames ∧ insertPoint key tree.next tree tree.root tree.nil =
        some (some (pathTop tree.nil frames))) ∨
    (∃ cell left right frames, rbtreeSearch tree key = some cell.address ∧
      cell.key = key ∧ plug (.node cell left right) frames = whole) := by
  have hlength := hrep.length_lt
  rw [pathAddresses, append_nil] at hlength
  have hsearch := searchFrom_eq key hrep.holds hlength []
  have hroot : tree.root = top tree.nil whole := hrep.hung
  rw [← hroot] at hsearch
  have hplug := plug_locate key whole []
  have hseparates := separates_locate hsorted (separates_nil key)
  cases hfound : (locate key whole []).1 with
  | leaf =>
      have hpoint := insertPoint_eq hrep.holds hlength hfound
      rw [hfound] at hsearch hplug
      refine .inl ⟨_, hsearch, hplug, hseparates, ?_⟩
      rw [hroot]
      exact hpoint
  | node cell left right =>
      have hkey := locate_key hfound
      rw [hfound] at hsearch hplug
      exact .inr ⟨cell, left, right, _, hsearch, hkey, hplug⟩

/-! ## Insertion -/

/-- A new node is allocated outside the tree. -/
theorem newNode_represents (hrep : Represents tree focus frames) (key : CStr)
    (value : StrPtr) : Represents (newNode tree key value) focus frames := by
  refine hrep.congr (fun address haddress => ?_) rfl rfl hrep.nil_black (Nat.le_succ _)
  have hne : address ≠ tree.next := (hrep.mem_lt address haddress).1.ne
  have hallocate : SameAt tree tree.allocate address := ⟨fun _ => rfl, rfl, rfl, rfl, rfl⟩
  exact (hallocate.trans (sameAt_setKey _ key hne)).trans (sameAt_setValue _ value hne)

/-- The memory after the new node `z` is hung into the hole of a path. -/
def hang (tree : KvsRbtree) (frames : Path) (z : ℕ) : KvsRbtree :=
  let hung := relink (tree.setParent z (pathTop tree.nil frames)) frames z
  ((hung.setLink .left z tree.nil).setLink .right z tree.nil).setColor z .red

theorem hang_represents {z : ℕ} (hrep : Represents tree .leaf frames)
    (hfresh : z ∉ pathAddresses frames) (hnil : z ≠ tree.nil) (hlt : z < tree.next) :
    Represents (hang tree frames z)
      (.node ⟨z, .red, tree.key z, tree.value z⟩ .leaf .leaf) frames := by
  have hpath : (pathAddresses frames).Nodup := by simpa [Tree.addresses] using hrep.nodup
  have hparent : Hung (tree.setParent z (pathTop tree.nil frames)) tree.nil frames := by
    refine hrep.hung.congr (fun address haddress => sameAt_setParent _ _ ?_) rfl rfl le_rfl
    exact fun heq => hfresh (heq ▸ haddress)
  refine ⟨⟨?_, trivial, trivial⟩, ?_, ?_, ?_, ?_⟩
  · constructor <;> simp [hang, hnil, hlt, Side.opposite]
  · refine (hparent.relink hpath z).congr (fun address haddress => ?_) rfl rfl le_rfl
    have hne : address ≠ z := fun heq => hfresh (heq ▸ haddress)
    exact ((sameAt_setLink _ _ _ hne).trans (sameAt_setLink _ _ _ hne)).trans
      (sameAt_setColor _ _ hne)
  · simpa [Tree.addresses] using ⟨hfresh, hpath⟩
  · simpa [hang, hnil.symm] using hrep.nil_black
  · simpa [hang] using hrep.nil_lt

/-- `rbtree_insert` puts an absent key where the search ended. -/
theorem rbtreeInsert_spec {z : ℕ} (hrep : Represents tree .leaf frames)
    (hwell : WellFormed (plug .leaf frames)) (hseparates : Separates (tree.key z) frames)
    (hpoint : insertPoint (tree.key z) tree.next tree tree.root tree.nil =
      some (some (pathTop tree.nil frames)))
    (hfresh : z ∉ pathAddresses frames) (hnil : z ≠ tree.nil) (hlt : z < tree.next) :
    ∃ after, rbtreeInsert tree z = some after ∧
      Repaired (hang tree frames z) (pathBefore frames ++
        [entry (tree.key z) (tree.value z)] ++ pathAfter frames) after := by
  have hhang := hang_represents hrep hfresh hnil hlt
  obtain ⟨height, hpath, hleaf, _⟩ := hwell.open_plug
  cases hleaf
  have hlength := hhang.length_lt
  have hframes := length_le_pathAddresses frames
  rw [length_append] at hlength
  obtain ⟨after, hfixup, hrepaired⟩ := insertFixup_spec (hang tree frames z).next hhang rfl
    (.red rfl .leaf .leaf rfl rfl) hpath (by omega)
  rw [plug_entries] at hrepaired
  refine ⟨after, ?_, hrepaired⟩
  have hlink : (if pathTop tree.nil frames = tree.nil then
      (tree.setParent z (pathTop tree.nil frames)).setRoot z
      else if strcmp (tree.key z) (tree.key (pathTop tree.nil frames)) < 0 then
        (tree.setParent z (pathTop tree.nil frames)).setLink .left (pathTop tree.nil frames) z
      else (tree.setParent z (pathTop tree.nil frames)).setLink .right
        (pathTop tree.nil frames) z) =
      relink (tree.setParent z (pathTop tree.nil frames)) frames z := by
    cases frames with
    | nil => simp [pathTop, relink]
    | cons frame frames =>
        have hnode := hrep.hung.1
        have hside := hseparates.side_eq
        simp only [pathTop, hnode.ne_nil, if_false, hnode.key, strcmp_neg_iff, relink, hside]
        split_ifs <;> rfl
  simp only [rbtreeInsert, hpoint, Option.bind_eq_bind, Option.bind_some,
    Heap.setParent_nil, Heap.setParent_key, hlink]
  simpa [hang] using hfixup

/-! ## Deletion -/

/-- The leftmost node of a subtree, which `rbtree_mini` finds. -/
theorem walk_left {fuel up : ℕ} (hholds : Holds tree up focus) (hfocus : focus ≠ .leaf)
    (hfuel : focus.addresses.length < fuel) :
    ∃ cell below inner, walk fuel tree (top tree.nil focus) = some cell.address ∧
      focus = plug (.node cell .leaf below) inner ∧ pathBefore inner = [] := by
  induction focus generalizing fuel up with
  | leaf => exact absurd rfl hfocus
  | node cell left right ihleft _ =>
      obtain ⟨fuel, rfl⟩ : ∃ less, fuel = less + 1 := ⟨fuel - 1, by omega⟩
      obtain ⟨hnode, hleft, _⟩ := hholds
      simp only [Tree.addresses, length_cons, length_append] at hfuel
      have hchild : tree.child .left cell.address = some (top tree.nil left) := by
        rw [Heap.child, if_neg hnode.ne_nil, hnode.link_near]
      cases hshape : left with
      | leaf =>
          refine ⟨cell, right, [], ?_, rfl, rfl⟩
          simp [walk, hchild, hshape]
      | node leftCell first second =>
          have hne : left ≠ .leaf := by simp [hshape]
          obtain ⟨found, below, inner, hwalk, hplug, hbefore⟩ :=
            ihleft hleft hne (by omega : _ < fuel)
          refine ⟨found, below, inner ++ [⟨.left, cell, right⟩], ?_, ?_, ?_⟩
          · have htop : top tree.nil left ≠ tree.nil := by
              rw [hshape] at hleft ⊢
              exact hleft.1.ne_nil
            simp [walk, hchild, htop, hwalk]
          · rw [← hshape, plug_append, ← hplug]
            rfl
          · simp [pathBefore_append, hbefore, pathBefore, Frame.before]

/-- The pointer to a subtree is not a node of the path above it. -/
theorem ne_top_of_mem_path (hrep : Represents tree focus frames) {address : ℕ}
    (haddress : address ∈ pathAddresses frames) : address ≠ top tree.nil focus := by
  cases focus with
  | leaf => exact (hrep.mem_lt address (mem_append_right _ haddress)).2
  | node cell left right =>
      intro heq
      rw [top_node] at heq
      exact (nodup_append'.1 hrep.nodup).2.2 mem_cons_self (heq ▸ haddress)

/-- Taking out a node with at most one child. -/
theorem unlink_represents {side : Side} {cell : Cell CStr StrPtr} {child : Node}
    (hrep : Represents tree (join side cell child .leaf) frames) :
    replaceChild .left (tree.setParent (top tree.nil child) (tree.parent cell.address))
        cell.address (top tree.nil child) =
      relink (tree.setParent (top tree.nil child) (tree.parent cell.address)) frames
        (top tree.nil child) ∧
    Represents (relink (tree.setParent (top tree.nil child) (tree.parent cell.address)) frames
      (top tree.nil child)) child frames := by
  have hparent : tree.parent cell.address = pathTop tree.nil frames := hrep.node_at.parent
  have hchildRep := represents_near.1 hrep
  have hnodup := hchildRep.nodup
  simp only [pathAddresses, Tree.addresses, nil_append, nodup_append', nodup_cons,
    disjoint_cons_right] at hnodup
  obtain ⟨hchildNodup, ⟨hcellPath, hpathNodup⟩, hcellChild, hdisjoint⟩ := hnodup
  have hne : cell.address ≠ top tree.nil child := ne_top_of_mem_path hchildRep mem_cons_self
  have hpathNe : ∀ address ∈ pathAddresses frames, address ≠ top tree.nil child := by
    intro address haddress
    exact ne_top_of_mem_path hchildRep
      (by simp [pathAddresses, haddress])
  have hhung : Hung (tree.setParent (top tree.nil child) (tree.parent cell.address))
      cell.address frames := by
    have hwhole := hrep.hung
    rw [top_join] at hwhole
    exact hwhole.congr (fun address haddress => sameAt_setParent _ _ (hpathNe address haddress))
      rfl rfl le_rfl
  have hsibling := sibling_ne_top hrep (join_ne_leaf side cell child .leaf)
  rw [top_join] at hsibling
  refine ⟨replaceChild_eq_relink .left _ (by simp [hne, hparent]) hhung hsibling, ?_⟩
  refine ⟨?_, ?_, ?_, ?_, ?_⟩
  · rw [relink_nil, Heap.setParent_nil, hparent]
    refine (hchildRep.holds.setParent hchildNodup (pathTop tree.nil frames)).congr
      (fun address haddress => sameAt_relink _ _ ?_) (by simp) (by simp)
    exact hdisjoint haddress
  · rw [relink_nil]
    exact hhung.relink hpathNodup (top tree.nil child)
  · exact nodup_append'.2 ⟨hchildNodup, hpathNodup, hdisjoint⟩
  · simpa using hrep.nil_black
  · simpa using hrep.nil_lt

/-- The repair after a node of the given colour has been taken out. -/
theorem deleteFixup_finish {color : Color} (hrep : Represents tree focus frames)
    (hknown : ParentKnown tree focus frames)
    (hred : color = .red → WellFormed (plug focus frames))
    (hblack : color = .black → ∃ height, Short focus height ∧
      PathBalanced frames (height + 1)) :
    ∃ after uses, (if color = .black then deleteFixupUses tree.next tree (top tree.nil focus)
        else some (tree, [])) = some (after, uses) ∧
      Repaired tree (plug focus frames).entries after ∧ ∀ use ∈ uses, use.Sound tree.nil := by
  cases color with
  | red =>
      exact ⟨tree, [], by simp, ⟨plug focus frames, represents_plug.2 hrep, hred rfl, rfl,
        SameSentinel.refl tree⟩, by simp⟩
  | black =>
      have hlength := hrep.length_lt
      have hframes := length_le_pathAddresses frames
      rw [length_append] at hlength
      obtain ⟨after, uses, hfixup, hrepaired, hsound⟩ :=
        deleteFixupUses_spec tree.next ⟨hrep, fun _ => hknown, hblack rfl⟩ (by omega)
      exact ⟨after, uses, by simpa using hfixup, hrepaired, hsound⟩

/-- What an operation leaves behind: a well-formed tree with given entries. -/
def Restored (entries : Store) (after : KvsRbtree) : Prop :=
  ∃ final : Node, Represents after final [] ∧ WellFormed final ∧ final.entries = entries

theorem Repaired.restored {before after : KvsRbtree} {entries : Store}
    (hrepaired : Repaired before entries after) : Restored entries after := by
  obtain ⟨final, hrep, hwell, hentries, _⟩ := hrepaired
  exact ⟨final, hrep, hwell, hentries⟩

/-- Taking out the node at `y`, whose contents may first have moved to `z`. -/
theorem unlink_spec {side : Side} {cell : Cell CStr StrPtr} {child : Node} {frames' : Path}
    {after : KvsRbtree} (z : ℕ)
    (hrep : Represents tree (join side cell child .leaf) frames)
    (hafter : after = if cell.address ≠ z then
      swapContents (relink (tree.setParent (top tree.nil child) (tree.parent cell.address)) frames
        (top tree.nil child)) z cell.address
      else relink (tree.setParent (top tree.nil child) (tree.parent cell.address)) frames
        (top tree.nil child))
    (hmoved : Represents after child frames')
    (htop : pathTop tree.nil frames' = pathTop tree.nil frames)
    (hwell : WellFormed (plug (join side cell child .leaf) frames')) :
    ∃ final uses, unlinkUses tree z cell.address = some (final, uses) ∧
      Restored (plug child frames').entries final ∧ ∀ use ∈ uses, use.Sound tree.nil := by
  have hnil : after.nil = tree.nil := by
    rw [hafter]
    split_ifs <;> simp [swapContents]
  have hparent : after.parent (top tree.nil child) = tree.parent cell.address := by
    rw [hafter]
    split_ifs <;> simp [swapContents]
  have hcolor : after.color cell.address = cell.color := by
    rw [hafter]
    split_ifs <;> simp [swapContents, hrep.node_at.color]
  have hknown : ParentKnown after child frames' := by
    rw [ParentKnown, hnil, hparent, htop]
    exact hrep.node_at.parent
  obtain ⟨final, uses, hfixup, hrepaired, hsound⟩ :=
    deleteFixup_finish hmoved hknown hwell.unlink.1 hwell.unlink.2
  rw [hnil] at hfixup hsound
  refine ⟨final, uses, ?_, hrepaired.restored, hsound⟩
  have hchild : ∃ left right, tree.child .left cell.address = some left ∧
      tree.child .right cell.address = some right ∧
      onlyChild tree left right = top tree.nil child := by
    have hnear := hrep.child_near
    have hfar := hrep.child_far
    rw [top_leaf] at hfar
    cases side with
    | left =>
        refine ⟨_, _, hnear, hfar, ?_⟩
        by_cases hempty : top tree.nil child = tree.nil <;> simp [onlyChild, hempty]
    | right =>
        refine ⟨_, _, hfar, hnear, ?_⟩
        by_cases hempty : top tree.nil child = tree.nil <;> simp [onlyChild, hempty]
  obtain ⟨left, right, hleft, hright, honly⟩ := hchild
  simp only [unlinkUses, unlinked, hleft, hright, honly, Option.bind_eq_bind, Option.bind_some,
    (unlink_represents hrep).1, ← hafter, hcolor]
  exact hfixup

/-- Moving the contents of the unlinked successor into the node that stays. -/
theorem swapContents_represents {cell other : Cell CStr StrPtr} {left below : Node}
    {inner : Path} (hrep : Represents tree below (inner ++ ⟨.right, cell, left⟩ :: frames))
    (hkey : tree.key other.address = other.key)
    (hvalue : tree.value other.address = other.value)
    (hfresh : other.address ∉ below.addresses ++
      pathAddresses (inner ++ ⟨.right, cell, left⟩ :: frames)) :
    Represents (swapContents tree cell.address other.address) below
      (inner ++ ⟨.right, { cell with key := other.key, value := other.value }, left⟩ ::
        frames) := by
  have hfocus : Represents tree (.node cell left (plug below inner)) frames := by
    have hplug := represents_plug.2 hrep
    rw [plug_append] at hplug
    exact represents_plug.1 hplug
  have hcontents : Represents ((tree.setKey cell.address other.key).setValue cell.address
      other.value) (join .right { cell with key := other.key, value := other.value }
        (plug below inner) left) frames :=
    hfocus.setContents other.key other.value
  have hmoved : Represents ((tree.setKey cell.address other.key).setValue cell.address
      other.value) below (inner ++
        ⟨.right, { cell with key := other.key, value := other.value }, left⟩ :: frames) := by
    rw [← represents_plug, plug_append]
    exact represents_plug.2 (represents_near.1 hcontents)
  have hne : cell.address ≠ other.address := by
    intro heq
    apply hfresh
    simp [pathAddresses_append, pathAddresses, ← heq]
  have hswap : swapContents tree cell.address other.address =
      (((tree.setKey cell.address other.key).setValue cell.address other.value).setKey
        other.address (tree.key cell.address)).setValue other.address
        (tree.value cell.address) := by
    simp only [swapContents, hkey, Heap.setKey_value, hvalue]
    rfl
  rw [hswap]
  refine hmoved.congr (fun address haddress => ?_) rfl rfl hrep.nil_black le_rfl
  have hother : address ≠ other.address := by
    rintro rfl
    apply hfresh
    simpa [pathAddresses_append, pathAddresses] using haddress
  exact (sameAt_setKey _ _ hother).trans (sameAt_setValue _ _ hother)

/-- `rbtree_delete` of a node with two children, by way of its successor. -/
theorem rbtreeDelete_successor {cell : Cell CStr StrPtr} {left right : Node}
    (hrep : Represents tree (.node cell left right) frames)
    (hwell : WellFormed (plug (.node cell left right) frames)) (hleft : left ≠ .leaf)
    (hright : right ≠ .leaf) :
    ∃ after uses, rbtreeDeleteUses tree cell.address = some (after, uses) ∧
      Restored (pathBefore frames ++ (left.entries ++ right.entries) ++ pathAfter frames)
        after ∧ ∀ use ∈ uses, use.Sound tree.nil := by
  have hjoin : Represents tree (join .left cell left right) frames := hrep
  have hleftRep := represents_near.1 hjoin
  have hrightRep := represents_far.1 hjoin
  have hleftTop : top tree.nil left ≠ tree.nil := hleftRep.top_eq_nil_iff.not.2 hleft
  have hrightTop : top tree.nil right ≠ tree.nil := hrightRep.top_eq_nil_iff.not.2 hright
  have hlength := hrightRep.length_lt
  rw [length_append] at hlength
  obtain ⟨found, below, inner, hwalk, rfl, hbefore⟩ :=
    walk_left hrightRep.holds hright (by omega : _ < tree.next)
  have hchoose : rbtreeDeleteUses tree cell.address =
      unlinkUses tree cell.address found.address := by
    have hrightChild : tree.child .right cell.address = some (top tree.nil
        (plug (.node found .leaf below) inner)) := hjoin.child_far
    simp [rbtreeDeleteUses, rbtreeSuccessor, rbtreeMini, hjoin.child_near, hrightChild, hleftTop,
      hrightTop, hwalk]
  -- the successor has no left child; focus on it
  have hfound : Represents tree (join .right found below .leaf)
      (inner ++ ⟨.right, cell, left⟩ :: frames) := by
    rw [← represents_plug, plug_append]
    exact represents_plug.2 hrightRep
  have hnodup := (represents_near.1 hfound).nodup
  simp only [pathAddresses, Tree.addresses, nil_append] at hnodup
  have hfresh : found.address ∉ below.addresses ++
      pathAddresses (inner ++ ⟨.right, cell, left⟩ :: frames) :=
    (nodup_cons.1 (nodup_middle.1 hnodup)).1
  have hne : found.address ≠ cell.address := by
    intro heq
    apply hfresh
    simp [pathAddresses_append, pathAddresses, heq]
  have hmoved := swapContents_represents (unlink_represents hfound).2
    (by simpa using hfound.node_at.key) (by simpa using hfound.node_at.value) hfresh
  have hwell' : WellFormed (plug (join .right found below .leaf) (inner ++
      ⟨.right, { cell with key := found.key, value := found.value }, left⟩ :: frames)) := by
    obtain ⟨height, hpath, hbalanced, hcolor⟩ := hwell.open_plug
    have hnode : WellFormed (plug (.node { cell with key := found.key, value := found.value }
        left (plug (.node found .leaf below) inner)) frames) :=
      wellFormed_plug hpath (hbalanced.of_color_eq rfl) hcolor
    rw [plug_append]
    exact hnode
  obtain ⟨after, uses, hunlink, hrestored, hsound⟩ := unlink_spec cell.address hfound
    (by rw [if_pos hne]) hmoved (by cases inner <;> rfl) hwell'
  refine ⟨after, uses, hchoose.trans hunlink, ?_, hsound⟩
  have hentries : (plug below (inner ++
      ⟨.right, { cell with key := found.key, value := found.value }, left⟩ ::
        frames)).entries = pathBefore frames ++ (left.entries ++
      (plug (.node found .leaf below) inner).entries) ++ pathAfter frames := by
    simp [plug_entries, pathBefore_append, pathAfter_append, pathBefore, pathAfter,
      Frame.before, Frame.after, hbefore, Tree.entries]
  rw [← hentries]
  exact hrestored

/-- `rbtree_delete` removes exactly the entry of the node. -/
theorem rbtreeDelete_spec {cell : Cell CStr StrPtr} {left right : Node}
    (hrep : Represents tree (.node cell left right) frames)
    (hwell : WellFormed (plug (.node cell left right) frames)) :
    ∃ after uses, rbtreeDeleteUses tree cell.address = some (after, uses) ∧
      Restored (pathBefore frames ++ (left.entries ++ right.entries) ++ pathAfter frames)
        after ∧ ∀ use ∈ uses, use.Sound tree.nil := by
  have hjoin : Represents tree (join .left cell left right) frames := hrep
  have hleftChild := hjoin.child_near
  have hrightChild : tree.child .right cell.address = some (top tree.nil right) :=
    hjoin.child_far
  by_cases hboth : left ≠ .leaf ∧ right ≠ .leaf
  · exact rbtreeDelete_successor hrep hwell hboth.1 hboth.2
  · obtain ⟨side, child, hshape, hentries⟩ : ∃ side child,
        RedBlack.Tree.node cell left right = join side cell child .leaf ∧
          left.entries ++ right.entries = child.entries := by
      rw [not_and_or, not_not, not_not] at hboth
      rcases hboth with rfl | rfl
      · exact ⟨.right, right, rfl, rfl⟩
      · exact ⟨.left, left, rfl, append_nil _⟩
    have hempty : top tree.nil left = tree.nil ∨ top tree.nil right = tree.nil := by
      rw [not_and_or, not_not, not_not] at hboth
      exact hboth.imp (fun h => by rw [h, top_leaf]) (fun h => by rw [h, top_leaf])
    have hchoose : rbtreeDeleteUses tree cell.address =
        unlinkUses tree cell.address cell.address := by
      simp [rbtreeDeleteUses, hleftChild, hrightChild, hempty]
    rw [hshape] at hrep hwell
    obtain ⟨after, uses, hunlink, hrestored, hsound⟩ := unlink_spec cell.address hrep (by simp)
      (unlink_represents hrep).2 rfl hwell
    refine ⟨after, uses, hchoose.trans hunlink, ?_, hsound⟩
    rw [hentries, ← plug_entries]
    exact hrestored

/-! ## The operations -/

theorem create_valid : Valid kvsRbtreeCreate := by
  refine ⟨.leaf, ⟨trivial, rfl, by simp [Tree.addresses, pathAddresses], rfl, ?_⟩,
    wellFormed_leaf, Pairwise.nil⟩
  exact Nat.one_pos

theorem create_entries : entries kvsRbtreeCreate = [] := rfl

theorem entries_sorted (hvalid : Valid tree) : SortedKeys (entries tree) := by
  obtain ⟨whole, hrep, _, hsorted⟩ := hvalid
  rw [entries_eq hrep]
  exact hsorted

/-- The search result read off the dictionary. -/
theorem search_spec (hvalid : Valid tree) (key : CStr) :
    (denote (entries tree) key = none ∧ rbtreeSearch tree key = some tree.nil) ∨
      ∃ node, node ≠ tree.nil ∧ rbtreeSearch tree key = some node ∧
        denote (entries tree) key = some (tree.value node) := by
  obtain ⟨whole, hrep, _, hsorted⟩ := hvalid
  rw [entries_eq hrep]
  rcases search_cases hrep hsorted key with
    ⟨frames, hsearch, rfl, hseparates, _⟩ |
    ⟨cell, left, right, frames, hsearch, hkey, rfl⟩
  · refine .inl ⟨?_, hsearch⟩
    rw [plug_entries, Tree.entries, append_nil]
    exact denote_eq_none_of_between hseparates.1 hseparates.2
  · have hnode := (represents_plug.1 hrep).holds.1
    refine .inr ⟨cell.address, hnode.ne_nil, hsearch, ?_⟩
    rw [denote_eq_some_iff hsorted.nodupKeys, hnode.value, ← hkey]
    simp [plug_entries, Tree.entries]

theorem search_absent (hvalid : Valid tree) (habsent : denote (entries tree) key = none) :
    rbtreeSearch tree key = some tree.nil := by
  rcases search_spec hvalid key with ⟨_, hsearch⟩ | ⟨node, _, _, hpresent⟩
  · exact hsearch
  · rw [habsent] at hpresent
    cases hpresent

theorem get_eq (hvalid : Valid tree) (key : CStr) :
    kvsRbtreeGet tree (some key) = some (toPtr (denote (entries tree) key)) := by
  rcases search_spec hvalid key with ⟨habsent, hsearch⟩ | ⟨node, hnode, hsearch, hpresent⟩
  · simp [kvsRbtreeGet, hsearch, habsent, toPtr]
  · simp [kvsRbtreeGet, hsearch, hnode, hpresent, toPtr]

theorem exist_eq (hvalid : Valid tree) (key : CStr) :
    kvsRbtreeExist tree (some key) =
      some (if denote (entries tree) key = none then 1 else 0) := by
  rcases search_spec hvalid key with ⟨habsent, hsearch⟩ | ⟨node, hnode, hsearch, hpresent⟩
  · simp [kvsRbtreeExist, hsearch, habsent]
  · simp [kvsRbtreeExist, hsearch, hnode, hpresent]

theorem set_present (hvalid : Valid tree) (hpresent : denote (entries tree) key ≠ none)
    (alloc : Alloc) (value : CStr) :
    kvsRbtreeSet alloc tree (some key) (some value) = some (tree, 1) := by
  rcases search_spec hvalid key with ⟨habsent, _⟩ | ⟨node, hnode, hsearch, _⟩
  · exact absurd habsent hpresent
  · simp [kvsRbtreeSet, hsearch, hnode]

/-- A denied allocation leaves the tree as it is. -/
theorem set_denied (hvalid : Valid tree) (habsent : denote (entries tree) key = none)
    {alloc : Alloc} (hdenied : (alloc 0 && alloc 1 && alloc 2) = false) (value : CStr) :
    kvsRbtreeSet alloc tree (some key) (some value) = some (tree, -2) := by
  simp only [kvsRbtreeSet, search_absent hvalid habsent, hdenied]
  simp

theorem set_absent (hvalid : Valid tree) (habsent : denote (entries tree) key = none)
    (value : CStr) :
    ∃ after, kvsRbtreeSet allocOk tree (some key) (some value) = some (after, 0) ∧
      Valid after ∧
      Splice [] [entry key (.text value)] (entries tree) (entries after) := by
  have hsearch := search_absent hvalid habsent
  obtain ⟨whole, hrep, hwell, hsorted⟩ := hvalid
  have hnew := newNode_represents hrep key (.text value)
  rw [entries_eq hrep] at habsent ⊢
  have hkey : (newNode tree key (.text value)).key tree.next = key := by simp [newNode]
  have hvalue : (newNode tree key (.text value)).value tree.next = .text value := by
    simp [newNode]
  rcases search_cases hnew hsorted key with
    ⟨frames, _, rfl, hseparates, hpoint⟩ | ⟨cell, left, right, frames, _, hfound, rfl⟩
  · have hleaf := represents_plug.1 hrep
    have hfresh : tree.next ∉ pathAddresses frames := fun hmem =>
      lt_irrefl _ (hleaf.mem_lt _ (mem_append_right _ hmem)).1
    obtain ⟨after, hinsert, hrepaired⟩ := rbtreeInsert_spec (represents_plug.1 hnew) hwell
      (by rwa [hkey]) (by rwa [hkey]) hfresh hrep.nil_lt.ne' (Nat.lt_succ_self _)
    rw [hkey, hvalue] at hrepaired
    obtain ⟨final, hfinal, hfinalWell, hentries⟩ := hrepaired.restored
    rw [plug_entries, Tree.entries, append_nil] at hsorted
    have hnodup : SortedKeys final.entries := by
      rw [hentries]
      exact sortedKeys_insert hsorted _ hseparates.1 hseparates.2
    refine ⟨after, ?_, ⟨final, hfinal, hfinalWell, hnodup⟩, ?_⟩
    · simp [kvsRbtreeSet, hsearch, hinsert]
    · rw [entries_eq hfinal, hentries, plug_entries, Tree.entries]
      exact ⟨_, _, rfl, rfl⟩
  · rw [denote_eq_none_iff, plug_entries] at habsent
    exact absurd (by simp [Tree.entries, hfound]) habsent

/-- An insertion keeps the invariant, whatever allocations fail. -/
theorem set_valid (hvalid : Valid tree) (alloc : Alloc) (key value : CStr) :
    ∃ after code, kvsRbtreeSet alloc tree (some key) (some value) = some (after, code) ∧
      Valid after := by
  cases hpresent : denote (entries tree) key with
  | some pointer =>
      exact ⟨tree, 1, set_present hvalid (by simp [hpresent]) alloc value, hvalid⟩
  | none =>
      cases halloc : alloc 0 && alloc 1 && alloc 2 with
      | false => exact ⟨tree, -2, set_denied hvalid hpresent halloc value, hvalid⟩
      | true =>
          obtain ⟨after, hset, hafter, -⟩ := set_absent hvalid hpresent value
          refine ⟨after, 0, ?_, hafter⟩
          rw [← hset]
          simp [kvsRbtreeSet, search_absent hvalid hpresent, halloc]

theorem mod_absent (hvalid : Valid tree) (habsent : denote (entries tree) key = none)
    (alloc : Alloc) (value : CStr) :
    kvsRbtreeMod alloc tree (some key) (some value) = some (tree, 1) := by
  simp [kvsRbtreeMod, search_absent hvalid habsent]

theorem del_absent (hvalid : Valid tree) (habsent : denote (entries tree) key = none) :
    kvsRbtreeDel tree (some key) = some (tree, 1) := by
  simp [kvsRbtreeDel, search_absent hvalid habsent]

/-- A present key is found at a node of the represented tree. -/
theorem exists_node {whole : Node} (hrep : Represents tree whole [])
    (hsorted : SortedKeys whole.entries) {old : StrPtr}
    (hpresent : denote (entries tree) key = some old) :
    ∃ cell left right frames, rbtreeSearch tree key = some cell.address ∧
      cell.address ≠ tree.nil ∧ cell.key = key ∧ cell.value = old ∧
      plug (.node cell left right) frames = whole := by
  rw [entries_eq hrep] at hpresent
  rcases search_cases hrep hsorted key with
    ⟨frames, _, rfl, hseparates, _⟩ | ⟨cell, left, right, frames, hsearch, rfl, rfl⟩
  · rw [plug_entries, Tree.entries, append_nil,
      denote_eq_none_of_between hseparates.1 hseparates.2] at hpresent
    cases hpresent
  · have hstored : denote (plug (.node cell left right) frames).entries cell.key =
        some cell.value := by
      rw [denote_eq_some_iff hsorted.nodupKeys]
      simp [plug_entries, Tree.entries]
    rw [hstored, Option.some.injEq] at hpresent
    exact ⟨cell, left, right, frames, hsearch, (represents_plug.1 hrep).holds.1.ne_nil, rfl,
      hpresent, rfl⟩

/-- Replacing the value of a present key rewrites the value of its node. -/
theorem mod_held (hvalid : Valid tree) {old : StrPtr}
    (hpresent : denote (entries tree) key = some old) (alloc : Alloc) (value : CStr) :
    ∃ after, kvsRbtreeMod alloc tree (some key) (some value) =
        some (after, if alloc 0 then 0 else -2) ∧ Valid after ∧
      Splice [entry key old] [entry key (if alloc 0 then .text value else .null)]
        (entries tree) (entries after) := by
  generalize hpointer : (if alloc 0 then StrPtr.text value else .null) = pointer
  obtain ⟨whole, hrep, hwell, hsorted⟩ := hvalid
  obtain ⟨cell, left, right, frames, hsearch, hnil, rfl, rfl, rfl⟩ :=
    exists_node hrep hsorted hpresent
  have hnode := represents_plug.1 hrep
  have hself : tree.setKey cell.address cell.key = tree := by
    rw [Heap.setKey, Function.update_eq_self_iff.2 hnode.holds.1.key.symm]
  have hwritten := hnode.setContents cell.key pointer
  rw [hself] at hwritten
  have hwhole := represents_plug.2 hwritten
  obtain ⟨height, hpath, hbalanced, hcolor⟩ := hwell.open_plug
  have hsplice : Splice [entry cell.key cell.value] [entry cell.key pointer]
      (plug (.node cell left right) frames).entries
      (plug (.node { cell with value := pointer } left right) frames).entries := by
    refine ⟨pathBefore frames ++ left.entries, right.entries ++ pathAfter frames, ?_, ?_⟩ <;>
      simp [plug_entries, Tree.entries]
  refine ⟨tree.setValue cell.address pointer, ?_,
    ⟨_, hwhole, wellFormed_plug hpath (hbalanced.of_color_eq rfl) hcolor, ?_⟩, ?_⟩
  · rw [← hpointer]
    cases halloc : alloc 0 <;> simp [kvsRbtreeMod, hsearch, hnil, halloc]
  · obtain ⟨front, back, hbefore, hafter⟩ := hsplice
    rw [hbefore] at hsorted
    have hbetween := hsorted.between
    rw [hafter]
    exact sortedKeys_insert hbetween.2.2 _ hbetween.1 hbetween.2.1
  · rw [entries_eq hrep, entries_eq hwhole]
    exact hsplice

/-- The deletion of a present key with the nodes its repair uses. -/
theorem delUses_present (hvalid : Valid tree) {old : StrPtr}
    (hpresent : denote (entries tree) key = some old) :
    ∃ after uses, kvsRbtreeDelUses tree (some key) = some ((after, 0), uses) ∧ Valid after ∧
      Splice [entry key old] [] (entries tree) (entries after) ∧
      ∀ use ∈ uses, use.Sound tree.nil := by
  obtain ⟨whole, hrep, hwell, hsorted⟩ := hvalid
  obtain ⟨cell, left, right, frames, hsearch, hnil, rfl, rfl, rfl⟩ :=
    exists_node hrep hsorted hpresent
  obtain ⟨after, uses, hdelete, ⟨final, hfinal, hfinalWell, hentries⟩, hsound⟩ :=
    rbtreeDelete_spec (represents_plug.1 hrep) hwell
  have hsplice : Splice [entry cell.key cell.value] []
      (plug (.node cell left right) frames).entries final.entries := by
    rw [hentries]
    refine ⟨pathBefore frames ++ left.entries, right.entries ++ pathAfter frames, ?_, ?_⟩ <;>
      simp [plug_entries, Tree.entries]
  refine ⟨after, uses, ?_, ⟨final, hfinal, hfinalWell, ?_⟩, ?_, hsound⟩
  · simp [kvsRbtreeDelUses, hsearch, hnil, hdelete]
  · obtain ⟨front, back, hbefore, hafter⟩ := hsplice
    rw [hbefore] at hsorted
    rw [hafter, append_nil]
    exact hsorted.between.2.2
  · rw [entries_eq hrep, entries_eq hfinal]
    exact hsplice

theorem del_present (hvalid : Valid tree) {old : StrPtr}
    (hpresent : denote (entries tree) key = some old) :
    ∃ after, kvsRbtreeDel tree (some key) = some (after, 0) ∧ Valid after ∧
      Splice [entry key old] [] (entries tree) (entries after) := by
  obtain ⟨after, uses, hdel, hafter, hsplice, -⟩ := delUses_present hvalid hpresent
  refine ⟨after, ?_, hafter, hsplice⟩
  rw [← kvsRbtreeDelUses_fst, hdel]
  rfl

/-- Whatever the key, a deletion uses nodes. -/
theorem delUses_sound (hvalid : Valid tree) {key : Option CStr} {result : KvsRbtree × ℤ}
    {uses : List Use} (hdel : kvsRbtreeDelUses tree key = some (result, uses)) :
    ∀ use ∈ uses, use.Sound tree.nil := by
  cases key with
  | none =>
      cases hdel
      simp
  | some key =>
      cases hpresent : denote (entries tree) key with
      | none =>
          simp only [kvsRbtreeDelUses, search_absent hvalid hpresent, Option.bind_eq_bind,
            Option.bind_some, if_true] at hdel
          cases hdel
          simp
      | some old =>
          obtain ⟨after, used, hused, -, -, hsound⟩ := delUses_present hvalid hpresent
          rw [hused] at hdel
          cases hdel
          exact hsound

end LiteMultiKV.RbTree
