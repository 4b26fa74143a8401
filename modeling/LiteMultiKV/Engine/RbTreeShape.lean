import LiteMultiKV.Engine.RbTree

/-!
# Pointer surgery on the red-black tree

What the writes of `rotate` and `replaceChild` do to the tree that the memory
represents.
-/

namespace LiteMultiKV.RbTree

open List CText LinkedTree Memory RedBlack

/-- Trees and paths as this engine labels them. -/
abbrev Node := Tree CStr StrPtr

abbrev Path := List (Frame CStr StrPtr)

/-- What a repair leaves alone: the sentinel, its borrowed parent field, and the
set of allocated addresses. -/
structure SameSentinel (before after : KvsRbtree) : Prop where
  nil : after.nil = before.nil
  next : after.next = before.next
  parent : after.parent before.nil = before.parent before.nil

theorem SameSentinel.refl (tree : KvsRbtree) : SameSentinel tree tree :=
  ⟨rfl, rfl, rfl⟩

theorem SameSentinel.trans {first second third : KvsRbtree}
    (hfirst : SameSentinel first second) (hsecond : SameSentinel second third) :
    SameSentinel first third where
  nil := hsecond.nil.trans hfirst.nil
  next := hsecond.next.trans hfirst.next
  parent := by
    have hparent := hsecond.parent
    rw [hfirst.nil] at hparent
    exact hparent.trans hfirst.parent

theorem sameSentinel_setColor (tree : KvsRbtree) (address : ℕ) (color : Color) :
    SameSentinel tree (tree.setColor address color) :=
  ⟨rfl, rfl, rfl⟩

/-- The search for the parent's link finds the hole of the path. -/
theorem replaceChild_eq_relink {tree : KvsRbtree} (side : Side) {x : ℕ} (y : ℕ)
    {frames : Path} (hparent : tree.parent x = pathTop tree.nil frames)
    (hhung : Hung tree x frames)
    (hsibling : ∀ frame ∈ frames.head?, top tree.nil frame.sibling ≠ x) :
    replaceChild side tree x y = relink tree frames y := by
  cases frames with
  | nil =>
      have hnil : tree.parent x = tree.nil := hparent
      simp [replaceChild, hnil, relink]
  | cons frame frames =>
      have hnode := hhung.1
      have hup : tree.parent x = frame.cell.address := hparent
      have hother := hsibling frame rfl
      rcases Side.eq_or_eq_opposite frame.side side with hside | hside
      · have hlink : tree.link side frame.cell.address = x := hside ▸ hnode.link_near
        simp [replaceChild, hup, hnode.ne_nil, hlink, relink, hside]
      · have hlink : tree.link side frame.cell.address = top tree.nil frame.sibling := by
          have hfar := hnode.link_far
          rwa [hside, Side.opposite_opposite] at hfar
        simp [replaceChild, hup, hnode.ne_nil, hlink, relink, hside, hother.symm]

/-- The sibling of a focused node is another node. -/
theorem sibling_ne_top {tree : KvsRbtree} {focus : Node} {frames : Path}
    (hrep : Represents tree focus frames) (hfocus : focus ≠ .leaf) :
    ∀ frame ∈ frames.head?, top tree.nil frame.sibling ≠ top tree.nil focus := by
  intro frame hframe
  cases frames with
  | nil => cases hframe
  | cons first frames =>
      obtain rfl : first = frame := by simpa using hframe
      exact ((represents_join.2 hrep).top_ne hfocus).symm

section Rotation

variable {tree : KvsRbtree} {side : Side} {upper lower : Cell CStr StrPtr}
  {outer middle inner : Node} {frames : Path}

/-- The first half of `rotate`: the middle subtree changes its parent. -/
def adopt (tree : KvsRbtree) (side : Side) (x middle : ℕ) : KvsRbtree :=
  let linked := tree.setLink side.opposite x middle
  if middle ≠ tree.nil then linked.setParent middle x else linked

@[simp]
theorem adopt_nil (x middle : ℕ) : (adopt tree side x middle).nil = tree.nil := by
  unfold adopt
  split <;> rfl

@[simp]
theorem adopt_root (x middle : ℕ) : (adopt tree side x middle).root = tree.root := by
  unfold adopt
  split <;> rfl

@[simp]
theorem adopt_next (x middle : ℕ) : (adopt tree side x middle).next = tree.next := by
  unfold adopt
  split <;> rfl

@[simp]
theorem adopt_color (x middle : ℕ) : (adopt tree side x middle).color = tree.color := by
  unfold adopt
  split <;> rfl

@[simp]
theorem adopt_key (x middle : ℕ) : (adopt tree side x middle).key = tree.key := by
  unfold adopt
  split <;> rfl

@[simp]
theorem adopt_value (x middle : ℕ) : (adopt tree side x middle).value = tree.value := by
  unfold adopt
  split <;> rfl

theorem adopt_link (x middle : ℕ) :
    (adopt tree side x middle).link = (tree.setLink side.opposite x middle).link := by
  unfold adopt
  split <;> rfl

theorem adopt_parent {x middle address : ℕ} (hne : middle ≠ tree.nil → address ≠ middle) :
    (adopt tree side x middle).parent address = tree.parent address := by
  unfold adopt
  split
  · rename_i hnil
    simp [hne hnil]
  · rfl

theorem sameAt_adopt {x middle address : ℕ} (hx : address ≠ x)
    (hne : middle ≠ tree.nil → address ≠ middle) :
    SameAt tree (adopt tree side x middle) address := by
  have hlink := sameAt_setLink tree side.opposite middle hx
  unfold adopt
  split
  · rename_i hnil
    exact hlink.trans (sameAt_setParent _ _ (hne hnil))
  · exact hlink

/-- The memory in which `rotate` ends, its search for the parent's link
resolved. -/
def rotated (tree : KvsRbtree) (side : Side) (x y middle : ℕ) (frames : Path) :
    KvsRbtree :=
  let hung := (adopt tree side x middle).setParent y (tree.parent x)
  ((relink hung frames y).setLink side y x).setParent x y

theorem sameAt_rotated {x y below address : ℕ} (hx : address ≠ x) (hy : address ≠ y)
    (hpath : address ∉ pathAddresses frames) :
    SameAt (adopt tree side x below) (rotated tree side x y below frames) address := by
  have hhung := sameAt_setParent (adopt tree side x below) (tree.parent x) hy
  have hrelink := hhung.trans (sameAt_relink _ y hpath)
  have hlink := hrelink.trans (sameAt_setLink _ side x hy)
  exact hlink.trans (sameAt_setParent _ y hx)

/-- What the rotation pattern says about its addresses: the two nodes differ,
and each part avoids all the others. -/
structure Apart (upper lower : ℕ) (outer middle inner path : List ℕ) : Prop where
  ne : upper ≠ lower
  upper_outer : upper ∉ outer
  upper_middle : upper ∉ middle
  upper_inner : upper ∉ inner
  upper_path : upper ∉ path
  lower_outer : lower ∉ outer
  lower_middle : lower ∉ middle
  lower_inner : lower ∉ inner
  lower_path : lower ∉ path
  outer_middle : outer.Disjoint middle
  middle_nodup : middle.Nodup
  middle_inner : middle.Disjoint inner
  middle_path : middle.Disjoint path
  outer_path : outer.Disjoint path
  inner_path : inner.Disjoint path
  path_nodup : path.Nodup

private theorem rotation_perm (side : Side) (upper lower : Cell CStr StrPtr)
    (outer middle inner : Node) (path : List ℕ) :
    ((join side upper outer (join side lower middle inner)).addresses ++ path).Perm
      (upper.address :: lower.address ::
        (outer.addresses ++ (middle.addresses ++ (inner.addresses ++ path)))) := by
  have hlower := join_addresses_perm side lower middle inner
  have hupper := join_addresses_perm side upper outer (join side lower middle inner)
  calc
    _ ~ (upper.address :: (outer.addresses ++ (lower.address ::
          (middle.addresses ++ inner.addresses)))) ++ path :=
        (hupper.trans ((hlower.append_left _).cons _)).append_right _
    _ = upper.address :: (outer.addresses ++ lower.address ::
          (middle.addresses ++ (inner.addresses ++ path))) := by simp
    _ ~ _ := perm_middle.cons _

private theorem rotation_addresses (side : Side) (upper lower : Cell CStr StrPtr)
    (outer middle inner : Node) (path : List ℕ) :
    ((join side lower (join side upper outer middle) inner).addresses ++ path).Perm
      ((join side upper outer (join side lower middle inner)).addresses ++ path) := by
  have hbefore := rotation_perm side upper lower outer middle inner path
  have hafter := rotation_perm side.opposite lower upper inner middle outer path
  rw [join_opposite, join_opposite] at hafter
  have hrest : (inner.addresses ++ (middle.addresses ++ (outer.addresses ++ path))).Perm
      (outer.addresses ++ (middle.addresses ++ (inner.addresses ++ path))) := by
    calc
      _ = (inner.addresses ++ middle.addresses) ++ (outer.addresses ++ path) := by simp
      _ ~ (middle.addresses ++ inner.addresses) ++ (outer.addresses ++ path) :=
          perm_append_comm.append_right _
      _ = ((middle.addresses ++ inner.addresses) ++ outer.addresses) ++ path := by simp
      _ ~ (outer.addresses ++ (middle.addresses ++ inner.addresses)) ++ path :=
          perm_append_comm.append_right _
      _ = _ := by simp
  calc
    _ ~ lower.address :: upper.address ::
          (inner.addresses ++ (middle.addresses ++ (outer.addresses ++ path))) := hafter
    _ ~ upper.address :: lower.address ::
          (outer.addresses ++ (middle.addresses ++ (inner.addresses ++ path))) :=
        (Perm.swap _ _ _).trans ((hrest.cons _).cons _)
    _ ~ _ := hbefore.symm

/-- The pointer to a non-empty subtree is one of its addresses. -/
theorem ne_top_of_notMem {focus : Node} {address : ℕ} (hfresh : address ∉ focus.addresses)
    (hnil : top tree.nil focus ≠ tree.nil) : address ≠ top tree.nil focus := by
  cases focus with
  | leaf => exact absurd rfl hnil
  | node cell left right => exact fun heq => hfresh (heq ▸ mem_cons_self)

variable (hrep : Represents tree (join side upper outer (join side lower middle inner)) frames)
include hrep

theorem rotation_apart :
    Apart upper.address lower.address outer.addresses middle.addresses inner.addresses
      (pathAddresses frames) := by
  have hnodup := (rotation_perm side upper lower outer middle inner _).nodup_iff.1 hrep.nodup
  simp only [nodup_cons, mem_cons, mem_append, not_or, nodup_append',
    disjoint_append_right] at hnodup
  obtain ⟨⟨hne, huo, hum, hui, hup⟩, ⟨hlo, hlm, hli, hlp⟩, _, ⟨hmiddle, ⟨_, hpath, hip⟩,
    hmi, hmp⟩, hom, _, hop⟩ := hnodup
  exact ⟨hne, huo, hum, hui, hup, hlo, hlm, hli, hlp, hom, hmiddle, hmi, hmp, hop, hip, hpath⟩

/-- The path is not touched before its hole is pointed at the lower node. -/
private theorem hung_adopt :
    Hung ((adopt tree side upper.address (top tree.nil middle)).setParent lower.address
      (tree.parent upper.address)) upper.address frames := by
  have hapart := rotation_apart hrep
  have hhung := hrep.hung
  rw [top_join] at hhung
  refine hhung.congr ?_ (by simp) (by simp) (by simp)
  intro address haddress
  have hupper : address ≠ upper.address := fun heq => hapart.upper_path (heq ▸ haddress)
  have hlower : address ≠ lower.address := fun heq => hapart.lower_path (heq ▸ haddress)
  have hmiddle : address ∉ middle.addresses := fun hmem => hapart.middle_path hmem haddress
  exact (sameAt_adopt hupper (ne_top_of_notMem hmiddle)).trans (sameAt_setParent _ _ hlower)

/-- `rotate` ends in the memory `rotated`. -/
theorem rotate_eq :
    rotate side tree upper.address =
      some (rotated tree side upper.address lower.address (top tree.nil middle) frames) := by
  have hapart := rotation_apart hrep
  have hlowerRep : Represents tree (join side lower middle inner)
      (⟨side.opposite, upper, outer⟩ :: frames) := by
    rw [← represents_join]
    simpa using hrep
  have hfar := hrep.child_far
  have hnear := hlowerRep.child_near
  rw [top_join] at hfar
  have hparent : (adopt tree side upper.address (top tree.nil middle)).parent upper.address =
      tree.parent upper.address :=
    adopt_parent (ne_top_of_notMem hapart.upper_middle)
  have hsibling := sibling_ne_top hrep (join_ne_leaf side upper outer _)
  have hreplace := replaceChild_eq_relink side lower.address
    (by simp [hapart.ne, hparent, hrep.node_at.parent]) (hung_adopt hrep)
    (by simpa using hsibling)
  rw [rotated, ← hreplace]
  simp only [rotate, hfar, hnear, Option.bind_eq_bind, Option.bind_some, Option.pure_def,
    Heap.setLink_nil, ← hparent]
  rfl

private theorem rotated_lower :
    NodeAt (rotated tree side upper.address lower.address (top tree.nil middle) frames) lower
      (pathTop tree.nil frames) side upper.address (top tree.nil inner) := by
  have hapart := rotation_apart hrep
  have hlower := (holds_join.1 (holds_join.1 hrep.holds).2.2).1
  have hfar := (sameAt_relink ((adopt tree side upper.address (top tree.nil middle)).setParent
    lower.address (tree.parent upper.address)) lower.address hapart.lower_path).link side.opposite
  constructor
  · simpa [rotated] using hlower.ne_nil
  · simpa [rotated] using hlower.lt_next
  · simpa [rotated, hapart.ne.symm] using hrep.node_at.parent
  · simpa [rotated] using hlower.color
  · simpa [rotated] using hlower.key
  · simpa [rotated] using hlower.value
  · simp [rotated]
  · simpa [rotated, hfar, adopt_link, hapart.ne.symm] using hlower.link_far

private theorem rotated_upper :
    NodeAt (rotated tree side upper.address lower.address (top tree.nil middle) frames) upper
      lower.address side (top tree.nil outer) (top tree.nil middle) := by
  have hapart := rotation_apart hrep
  have hupper := hrep.node_at
  have hlink := (sameAt_relink ((adopt tree side upper.address (top tree.nil middle)).setParent
    lower.address (tree.parent upper.address)) lower.address hapart.upper_path).link
  constructor
  · simpa [rotated] using hupper.ne_nil
  · simpa [rotated] using hupper.lt_next
  · simp [rotated]
  · simpa [rotated] using hupper.color
  · simpa [rotated] using hupper.key
  · simpa [rotated] using hupper.value
  · simpa [rotated, hlink, adopt_link, hapart.ne] using hupper.link_near
  · simp [rotated, hlink, adopt_link]

private theorem rotated_middle :
    Holds (rotated tree side upper.address lower.address (top tree.nil middle) frames)
      upper.address middle := by
  have hapart := rotation_apart hrep
  have hmiddle := (holds_join.1 (holds_join.1 hrep.holds).2.2).2.1
  have hlinked : Holds (tree.setLink side.opposite upper.address (top tree.nil middle))
      lower.address middle := by
    refine hmiddle.congr (fun address haddress => sameAt_setLink _ _ _ ?_) rfl le_rfl
    exact fun heq => hapart.upper_middle (heq ▸ haddress)
  have hadopt : Holds (adopt tree side upper.address (top tree.nil middle))
      upper.address middle := by
    cases middle with
    | leaf => trivial
    | node cell left right =>
        have hnil : top tree.nil (.node cell left right) ≠ tree.nil := hmiddle.1.ne_nil
        rw [adopt, if_pos hnil]
        exact hlinked.setParent hapart.middle_nodup upper.address
  refine hadopt.congr (fun address haddress => sameAt_rotated ?_ ?_ ?_) ?_ ?_
  · exact fun heq => hapart.upper_middle (heq ▸ haddress)
  · exact fun heq => hapart.lower_middle (heq ▸ haddress)
  · exact fun hpath => hapart.middle_path haddress hpath
  · simp [rotated]
  · simp [rotated]

private theorem rotated_path :
    Hung (rotated tree side upper.address lower.address (top tree.nil middle) frames)
      lower.address frames := by
  have hapart := rotation_apart hrep
  refine ((hung_adopt hrep).relink hapart.path_nodup lower.address).congr ?_ ?_ ?_ ?_
  · intro address haddress
    have hupper : address ≠ upper.address := fun heq => hapart.upper_path (heq ▸ haddress)
    have hlower : address ≠ lower.address := fun heq => hapart.lower_path (heq ▸ haddress)
    exact (sameAt_setLink _ side _ hlower).trans (sameAt_setParent _ _ hupper)
  · rfl
  · rfl
  · rfl

/-- A rotation moves the upper node below the lower one. -/
theorem rotated_represents :
    Represents (rotated tree side upper.address lower.address (top tree.nil middle) frames)
      (join side lower (join side upper outer middle) inner) frames := by
  have hapart := rotation_apart hrep
  obtain ⟨_, houter, hlower⟩ := holds_join.1 hrep.holds
  have hinner := (holds_join.1 hlower).2.2
  have hnil : (rotated tree side upper.address lower.address (top tree.nil middle)
      frames).nil = tree.nil := by simp [rotated]
  -- the outer and the inner subtree keep their nodes and their parents
  have hkeep : ∀ {up : ℕ} {subtree : Node}, Holds tree up subtree →
      upper.address ∉ subtree.addresses → lower.address ∉ subtree.addresses →
      middle.addresses.Disjoint subtree.addresses →
      subtree.addresses.Disjoint (pathAddresses frames) →
      Holds (rotated tree side upper.address lower.address (top tree.nil middle) frames)
        up subtree := by
    intro up subtree hholds hupper hlower hmiddle hpath
    refine hholds.congr (fun address haddress => ?_) hnil (by simp [rotated])
    have hne : address ≠ upper.address := fun heq => hupper (heq ▸ haddress)
    have hfresh : address ∉ middle.addresses := fun hmem => hmiddle hmem haddress
    exact (sameAt_adopt hne (ne_top_of_notMem hfresh)).trans
      (sameAt_rotated hne (fun heq => hlower (heq ▸ haddress)) (hpath haddress))
  constructor
  · rw [hnil, holds_join, holds_join, hnil, top_join]
    exact ⟨rotated_lower hrep, ⟨rotated_upper hrep,
      hkeep houter hapart.upper_outer hapart.lower_outer hapart.outer_middle.symm
        hapart.outer_path, rotated_middle hrep⟩,
      hkeep hinner hapart.upper_inner hapart.lower_inner hapart.middle_inner
        hapart.inner_path⟩
  · rw [hnil, top_join]
    exact rotated_path hrep
  · exact (rotation_addresses side upper lower outer middle inner _).nodup_iff.2 hrep.nodup
  · simpa [rotated] using hrep.nil_black
  · simpa [rotated] using hrep.nil_lt

theorem rotated_sameSentinel :
    SameSentinel tree
      (rotated tree side upper.address lower.address (top tree.nil middle) frames) := by
  have hupper : tree.nil ≠ upper.address := hrep.node_at.ne_nil.symm
  have hlower : tree.nil ≠ lower.address :=
    (holds_join.1 (holds_join.1 hrep.holds).2.2).1.ne_nil.symm
  refine ⟨by simp [rotated], by simp [rotated], ?_⟩
  simpa [rotated, hupper, hlower] using adopt_parent fun hne => hne.symm

/-- The effect of `rotate` on the represented tree. -/
theorem rotate_spec :
    ∃ after, rotate side tree upper.address = some after ∧ SameSentinel tree after ∧
      Represents after (join side lower (join side upper outer middle) inner) frames :=
  ⟨_, rotate_eq hrep, rotated_sameSentinel hrep, rotated_represents hrep⟩

end Rotation

end LiteMultiKV.RbTree
