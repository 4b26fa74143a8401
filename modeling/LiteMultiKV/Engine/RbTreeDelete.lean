import LiteMultiKV.Engine.RbTreeInsert
import LiteMultiKV.Engine.RbTreeUses

/-!
# Deletion repair

The loop of `rbtree_delete_fixup` carries a subtree that is one black node
short up the tree.  Its sibling is always a real node, the borrowed parent
field of the sentinel is right whenever the short subtree is empty, and the
loop ends with a well-formed tree that has the same in-order entries.
-/

namespace LiteMultiKV.RbTree

open List CText LinkedTree Memory RedBlack

variable {tree : KvsRbtree} {side : Side} {parent sibling : Cell CStr StrPtr}
  {focus near far : Node} {frames : Path}

/-- The parent field of the focus is right, also when the focus is empty and
the field is the sentinel's. -/
def ParentKnown (tree : KvsRbtree) (focus : Node) (frames : Path) : Prop :=
  tree.parent (top tree.nil focus) = pathTop tree.nil frames

theorem ParentKnown.transport {after : KvsRbtree} {frames' : Path}
    (hknown : ParentKnown tree focus frames) (hsame : SameSentinel tree after)
    (hrep : Represents after focus frames')
    (htop : pathTop tree.nil frames' = pathTop tree.nil frames) :
    ParentKnown after focus frames' := by
  cases focus with
  | leaf =>
      have hparent := hsame.parent
      unfold ParentKnown at hknown ⊢
      rw [hsame.nil, htop, ← hknown]
      exact hparent
  | node cell left right => exact hrep.parent_top (by simp)

theorem ParentKnown.parent_eq {after : KvsRbtree} {frames' : Path}
    (hknown : ParentKnown tree focus frames) (hsame : SameSentinel tree after)
    (hrep : Represents after focus frames')
    (htop : pathTop tree.nil frames' = pathTop tree.nil frames) :
    after.parent (top tree.nil focus) = pathTop tree.nil frames' := by
  have htransport := hknown.transport hsame hrep htop
  rwa [ParentKnown, hsame.nil] at htransport

/-- A focus that turns black, or the root, ends the loop. -/
theorem deleteFixup_exit (fuel : ℕ) {height : ℕ} (hrep : Represents tree focus frames)
    (hshort : Short focus height) (hpath : PathBalanced frames (height + 1))
    (hstop : frames = [] ∨ focus.color = .red) :
    ∃ after, deleteFixupUses (fuel + 1) tree (top tree.nil focus) = some (after, []) ∧
      Repaired tree (plug focus frames).entries after := by
  have hcondition : ¬ (top tree.nil focus ≠ tree.root ∧
      tree.color (top tree.nil focus) = .black) := by
    rintro ⟨hroot, hblack⟩
    rcases hstop with rfl | hred
    · exact hroot hrep.hung.symm
    · rw [hrep.color_top, hred] at hblack
      cases hblack
  have hpaint : (focus.paint .black).color = .black := by
    cases focus <;> rfl
  have hwell : WellFormed (plug (focus.paint .black) frames) := by
    rcases hshort with ⟨hblack, hbalanced⟩ | ⟨_, hbalanced⟩
    · obtain rfl : frames = [] := by
        rcases hstop with hnil | hred
        · exact hnil
        · rw [hblack] at hred
          cases hred
      have hself : focus.paint .black = focus := by
        rw [← hblack]
        exact paint_color_self focus
      rw [hself]
      exact ⟨⟨height, hbalanced⟩, hblack⟩
    · exact wellFormed_plug hpath hbalanced fun _ => hpaint
  refine ⟨tree.setColor (top tree.nil focus) .black, ?_, plug (focus.paint .black) frames,
    represents_plug.2 (hrep.setColor .black fun _ => rfl), hwell,
    plug_entries_congr frames (paint_entries focus .black), sameSentinel_setColor _ _ _⟩
  rw [deleteFixupUses, if_neg hcondition]

/-- A red sibling is rotated above the parent; the new sibling is its near
child. -/
theorem redSibling_spec
    (hrep : Represents tree focus (⟨side, parent, join side sibling near far⟩ :: frames))
    (hknown : ParentKnown tree focus (⟨side, parent, join side sibling near far⟩ :: frames))
    (hred : sibling.color = .red) :
    ∃ after, redSibling side tree (top tree.nil focus) sibling.address =
        some (after, top tree.nil near) ∧ SameSentinel tree after ∧
      Represents after focus
        (⟨side, parent.paint .red, near⟩ :: ⟨side, sibling.paint .black, far⟩ :: frames) := by
  have hparentRep := represents_near.2 hrep
  have hup : tree.parent (top tree.nil focus) = parent.address := hknown
  have hcolor : tree.color sibling.address = .red := by
    have htop := (represents_far.1 hparentRep).color_top
    rwa [top_join, join_color, hred] at htop
  have hsibling := (represents_far.1 hparentRep).setColor .black (by simp)
  rw [top_join, join_paint] at hsibling
  have hparent := (represents_far.2 hsibling).setColor .red (by simp)
  rw [top_join, join_paint] at hparent
  obtain ⟨after, hrotate, hsame, hafter⟩ := rotate_spec hparent
  have hresult := represents_near.1 (represents_near.1 hafter)
  have hsentinel : SameSentinel tree after :=
    (sameSentinel_setColor _ _ _).trans ((sameSentinel_setColor _ _ _).trans hsame)
  have hknown' : after.parent (top tree.nil focus) = parent.address :=
    hknown.parent_eq hsentinel hresult rfl
  have hchild : after.child side.opposite parent.address = some (top tree.nil near) := by
    have hfar := (represents_near.1 hafter).child_far
    rwa [hsentinel.nil] at hfar
  refine ⟨after, ?_, hsentinel, hresult⟩
  simp only [redSibling, hcolor, hup, if_true, Heap.setColor_parent, Option.bind_eq_bind]
  rw [Cell.paint_address] at hrotate
  rw [hrotate, Option.bind_some, hknown', hchild]
  rfl

/-- If only the near child of the sibling is red, a rotation makes the far child
of the new sibling red. -/
theorem nearRed_spec {inner : Cell CStr StrPtr} {middle outer : Node}
    (hrep : Represents tree focus
      (⟨side, parent, join side sibling (join side inner middle outer) far⟩ :: frames))
    (hknown : ParentKnown tree focus
      (⟨side, parent, join side sibling (join side inner middle outer) far⟩ :: frames))
    (hfar : far.color = .black) :
    ∃ after, nearRed side tree (top tree.nil focus) sibling.address =
        some (after, inner.address) ∧ SameSentinel tree after ∧
      Represents after focus (⟨side, parent, join side (inner.paint .black) middle
        (join side (sibling.paint .red) outer far)⟩ :: frames) := by
  have hparentRep := represents_near.2 hrep
  have hsiblingRep := represents_far.1 hparentRep
  have hfarColor : tree.color (top tree.nil far) = .black := by
    rw [(represents_far.1 hsiblingRep).color_top, hfar]
  have hinner := (represents_near.1 hsiblingRep).setColor .black (by simp)
  rw [top_join, join_paint] at hinner
  have hsibling := (represents_near.2 hinner).setColor .red (by simp)
  rw [top_join, join_paint] at hsibling
  have hpattern : Represents ((tree.setColor inner.address .black).setColor
      sibling.address .red) (join side.opposite (sibling.paint .red) far
        (join side.opposite (inner.paint .black) outer middle))
      (⟨side.opposite, parent, focus⟩ :: frames) := by
    rw [join_opposite, join_opposite]
    exact hsibling
  obtain ⟨after, hrotate, hsame, hafter⟩ := rotate_spec hpattern
  rw [join_opposite, join_opposite] at hafter
  have hresult := represents_near.1 (represents_far.2 hafter)
  have hsentinel : SameSentinel tree after :=
    (sameSentinel_setColor _ _ _).trans ((sameSentinel_setColor _ _ _).trans hsame)
  have hknown' : after.parent (top tree.nil focus) = parent.address :=
    hknown.parent_eq hsentinel hresult rfl
  have hchild : after.child side.opposite parent.address = some inner.address := by
    have hfar := (represents_far.2 hafter).child_far
    rwa [top_join, Cell.paint_address] at hfar
  refine ⟨after, ?_, hsentinel, hresult⟩
  have hnearChild := hsiblingRep.child_near
  rw [top_join] at hnearChild
  simp only [nearRed, hsiblingRep.child_far, hfarColor, hnearChild, if_true,
    Option.bind_eq_bind, Option.bind_some]
  rw [Cell.paint_address] at hrotate
  rw [hrotate, Option.bind_some, hknown', hchild]
  rfl

/-- The last rotation: the sibling takes the place and colour of the parent. -/
theorem farRed_spec
    (hrep : Represents tree focus (⟨side, parent, join side sibling near far⟩ :: frames))
    (hknown : ParentKnown tree focus (⟨side, parent, join side sibling near far⟩ :: frames)) :
    ∃ after, farRed side tree (top tree.nil focus) sibling.address = some after ∧
      SameSentinel tree after ∧
      Represents after (join side (sibling.paint parent.color)
        (join side (parent.paint .black) focus near) (far.paint .black)) frames := by
  have hparentRep := represents_near.2 hrep
  have hup : tree.parent (top tree.nil focus) = parent.address := hknown
  have hparentColor : tree.color parent.address = parent.color := hparentRep.node_at.color
  have hsibling := (represents_far.1 hparentRep).setColor parent.color (by simp)
  rw [top_join, join_paint] at hsibling
  have hparent := (represents_far.2 hsibling).setColor .black (by simp)
  rw [top_join, join_paint] at hparent
  have hsiblingRep := represents_far.1 hparent
  have hfar := (represents_far.1 hsiblingRep).setColor .black fun _ => rfl
  have hpattern := represents_far.2 (represents_far.2 hfar)
  obtain ⟨after, hrotate, hsame, hafter⟩ := rotate_spec hpattern
  refine ⟨after, ?_, ?_, hafter⟩
  · have hchild := hsiblingRep.child_far
    rw [Cell.paint_address] at hchild hrotate
    simp only [farRed, hup, hparentColor, Heap.setColor_parent, Option.bind_eq_bind, hchild,
      Option.bind_some]
    exact hrotate
  · exact (sameSentinel_setColor _ _ _).trans ((sameSentinel_setColor _ _ _).trans
      ((sameSentinel_setColor _ _ _).trans hsame))

/-! ### In-order entries of the rotations -/

section Entries

variable {inner : Cell CStr StrPtr} {middle outer : Node}

theorem redSibling_entries : (plug focus
      (⟨side, parent.paint .red, near⟩ :: ⟨side, sibling.paint .black, far⟩ :: frames)).entries =
    (plug focus (⟨side, parent, join side sibling near far⟩ :: frames)).entries := by
  simp only [plug]
  apply plug_entries_congr
  rw [entries_join_paint, ← entries_rotate]
  exact join_entries_congr side sibling (entries_join_paint side parent .red _ _) rfl

theorem nearRed_entries : (plug focus (⟨side, parent, join side (inner.paint .black) middle
      (join side (sibling.paint .red) outer far)⟩ :: frames)).entries =
    (plug focus (⟨side, parent, join side sibling (join side inner middle outer) far⟩ ::
      frames)).entries := by
  simp only [plug]
  apply plug_entries_congr
  apply join_entries_congr side parent rfl
  rw [entries_join_paint, entries_rotate]
  exact join_entries_congr side inner rfl (entries_join_paint side sibling .red outer far)

theorem farRed_entries {color : Color} : (plug (join side (sibling.paint color)
      (join side (parent.paint .black) focus near) (far.paint .black)) frames).entries =
    (plug focus (⟨side, parent, join side sibling near far⟩ :: frames)).entries := by
  simp only [plug]
  apply plug_entries_congr
  rw [entries_join_paint, ← entries_rotate]
  exact join_entries_congr side sibling (entries_join_paint side parent .black focus near)
    (paint_entries far .black)

end Entries

/-! ### One round -/

/-- The focus is where a black node is missing. -/
structure Shortage (tree : KvsRbtree) (focus : Node) (frames : Path) : Prop where
  represents : Represents tree focus frames
  known : frames ≠ [] → ParentKnown tree focus frames
  short : ∃ height, Short focus height ∧ PathBalanced frames (height + 1)

/-- What a round, or a part of it, has done and what it has used. -/
structure Passed (tree : KvsRbtree) (entries : Store) (after : KvsRbtree) (focus : Node)
    (frames : Path) (uses : List Use) : Prop where
  sentinel : SameSentinel tree after
  shortage : Shortage after focus frames
  entries_eq : (plug focus frames).entries = entries
  sound : ∀ use ∈ uses, use.Sound tree.nil

/-- A turn before the rest of a round. -/
theorem Passed.after_turn {turned after : KvsRbtree} {entries turnedEntries : Store}
    {first uses : List Use} (hpassed : Passed turned turnedEntries after focus frames uses)
    (hsame : SameSentinel tree turned) (hentries : turnedEntries = entries)
    (hfirst : ∀ use ∈ first, use.Sound tree.nil) :
    Passed tree entries after focus frames (first ++ uses) where
  sentinel := hsame.trans hpassed.sentinel
  shortage := hpassed.shortage
  entries_eq := hpassed.entries_eq.trans hentries
  sound := by
    intro use huse
    rcases mem_append.1 huse with huse | huse
    · exact hfirst use huse
    · exact hsame.nil ▸ hpassed.sound use huse

theorem pivot_sound
    (hrep : Represents tree focus (⟨side, parent, join side sibling near far⟩ :: frames)) :
    (pivotUse side tree parent.address).Sound tree.nil := by
  have hparentRep := represents_near.2 hrep
  have hlink := hparentRep.node_at.link_far
  rw [top_join] at hlink
  refine ⟨hparentRep.node_at.ne_nil, ?_⟩
  rw [hlink]
  exact (represents_far.1 hparentRep).node_at.ne_nil

section Sibling

variable {height : ℕ}
  (hrep : Represents tree focus (⟨side, parent, join side sibling near far⟩ :: frames))
  (hknown : ParentKnown tree focus (⟨side, parent, join side sibling near far⟩ :: frames))
  (hpath : PathBalanced (⟨side, parent, join side sibling near far⟩ :: frames) (height + 1))
include hrep hknown hpath

theorem sibling_sound {before : KvsRbtree} (hblack : focus.color = .black)
    (hfocus : Balanced focus height) (hsame : SameSentinel before tree) :
    (Use.sibling tree (top before.nil focus) sibling.address).Sound before.nil := by
  rw [← hsame.nil]
  exact ⟨(represents_far.1 (represents_near.2 hrep)).node_at.ne_nil, focus, _, frames, height,
    hrep, rfl, hblack, hfocus, hpath, hknown⟩

/-- The final rotation: the root is all that is left to look at. -/
theorem farRed_passed (hblack : sibling.color = .black) (hfar : far.color = .red)
    (hfocus : Balanced focus height) :
    ∃ after whole, farRed side tree (top tree.nil focus) sibling.address = some after ∧
      after.root = top tree.nil whole ∧
      Passed tree (plug focus (⟨side, parent, join side sibling near far⟩ :: frames)).entries
        after whole [] [pivotUse side tree (tree.parent (top tree.nil focus))] := by
  obtain ⟨after, hturn, hsame, hturned⟩ := farRed_spec hrep hknown
  have hup : tree.parent (top tree.nil focus) = parent.address := hknown
  have hwhole := represents_plug.2 hturned
  obtain ⟨⟨height', hbalanced⟩, -⟩ := hpath.far_red hblack hfar hfocus
  refine ⟨after, _, hturn, ?_, hsame, ⟨hwhole, fun hne => absurd rfl hne, height',
    hbalanced.short, trivial⟩, farRed_entries, fun use huse => ?_⟩
  · rw [← hsame.nil]
    exact hwhole.hung
  · rw [mem_singleton.1 huse, hup]
    exact pivot_sound hrep

/-- A black sibling with a red child: at most two rotations finish. -/
theorem redChild_passed
    (hsibling : sibling.color = .black) (hred : near.color = .red ∨ far.color = .red)
    (hblack : focus.color = .black) (hfocus : Balanced focus height) :
    ∃ turned outer after whole,
      nearRed side tree (top tree.nil focus) sibling.address = some (turned, outer) ∧
      farRed side turned (top tree.nil focus) outer = some after ∧
      after.root = top tree.nil whole ∧
      Passed tree (plug focus (⟨side, parent, join side sibling near far⟩ :: frames)).entries
        after whole [] (nearRedUses side tree (top tree.nil focus) sibling.address turned outer ++
          [pivotUse side turned (turned.parent (top tree.nil focus))]) := by
  have hsiblingRep := represents_far.1 (represents_near.2 hrep)
  have hfarLink : tree.link side.opposite sibling.address = top tree.nil far :=
    hsiblingRep.node_at.link_far
  have hfarColor := (represents_far.1 hsiblingRep).color_top
  cases hfar : far.color with
  | red =>
      rw [hfar] at hfarColor
      obtain ⟨after, whole, hturn, hroot, hpassed⟩ :=
        farRed_passed hrep hknown hpath hsibling hfar hfocus
      have hkeep : nearRed side tree (top tree.nil focus) sibling.address =
          some (tree, sibling.address) := by
        simp [nearRed, hsiblingRep.child_far, hfarColor]
      refine ⟨tree, sibling.address, after, whole, hkeep, hturn, hroot, ?_⟩
      simpa [nearRedUses, hfarLink, hfarColor] using hpassed
  | black =>
      rw [hfar] at hfarColor
      have hnear : near.color = .red := by
        rcases hred with hnear | hcontra
        · exact hnear
        · rw [hfar] at hcontra
          cases hcontra
      have hnode : near ≠ .leaf := by
        rintro rfl
        cases hnear
      obtain ⟨inner, middle, outer, rfl⟩ := exists_join_of_ne_leaf hnode side
      obtain ⟨turned, hturn, hsame, hturned⟩ := nearRed_spec hrep hknown hfar
      rw [join_color] at hnear
      have hknown' := hknown.transport hsame hturned rfl
      have hpath' := hpath.near_red hsibling hnear hfar
      obtain ⟨after, whole, hfinish, hroot, hpassed⟩ :=
        farRed_passed hturned hknown' hpath' rfl (by simp) hfocus
      rw [Cell.paint_address, hsame.nil] at hfinish
      rw [hsame.nil] at hroot hpassed
      refine ⟨turned, inner.address, after, whole, hturn, hfinish, hroot,
        hpassed.after_turn hsame nearRed_entries fun use huse => ?_⟩
      rw [nearRedUses, hfarLink, if_pos hfarColor] at huse
      rcases mem_cons.1 huse with rfl | huse
      · -- the near child is lifted over the sibling
        have hlink := hsiblingRep.node_at.link_near
        rw [top_join] at hlink
        refine ⟨hsiblingRep.node_at.ne_nil, ?_⟩
        rw [Side.opposite_opposite, hlink]
        exact (represents_near.1 hsiblingRep).node_at.ne_nil
      · have hsibling := sibling_sound hturned hknown' hpath' hblack hfocus hsame
        rw [mem_singleton.1 huse]
        exact hsibling

/-- A black sibling: either the shortage moves up one step, or the repair ends here. -/
theorem blackSibling_passed (hsibling : sibling.color = .black) (hblack : focus.color = .black)
    (hfocus : Balanced focus height) :
    ∃ after next above uses,
      blackSibling side tree (top tree.nil focus) sibling.address =
        some ((after, top tree.nil next), uses) ∧
      Passed tree (plug focus (⟨side, parent, join side sibling near far⟩ :: frames)).entries
        after next above uses ∧
      (above = [] ∨ above = frames ∧ next.color = parent.color) := by
  have hup : tree.parent (top tree.nil focus) = parent.address := hknown
  have hsiblingRep := represents_far.1 (represents_near.2 hrep)
  have hnearColor := (represents_near.1 hsiblingRep).color_top
  have hfarColor := (represents_far.1 hsiblingRep).color_top
  have hnearChild := hsiblingRep.child_near
  have hfarChild := hsiblingRep.child_far
  have hstep : blackSibling side tree (top tree.nil focus) sibling.address =
      if near.color = .black ∧ far.color = .black then
        some ((tree.setColor sibling.address .red, parent.address), [])
      else (nearRed side tree (top tree.nil focus) sibling.address).bind fun turned =>
        (farRed side turned.1 (top tree.nil focus) turned.2).bind fun after =>
          some ((after, after.root), nearRedUses side tree (top tree.nil focus) sibling.address
            turned.1 turned.2 ++ [pivotUse side turned.1
              (turned.1.parent (top tree.nil focus))]) := by
    cases side with
    | left =>
        simp only [Side.opposite] at hfarChild
        simp only [blackSibling, hnearChild, hfarChild, hnearColor, hfarColor, hup,
          Option.bind_eq_bind, Option.bind_some, Option.pure_def]
    | right =>
        simp only [Side.opposite] at hfarChild
        simp only [blackSibling, hnearChild, hfarChild, hnearColor, hfarColor, hup,
          Option.bind_eq_bind, Option.bind_some, Option.pure_def, and_comm]
  rw [hstep]
  by_cases hchildren : near.color = .black ∧ far.color = .black
  · rw [if_pos hchildren]
    have hpainted := hsiblingRep.setColor .red (by simp)
    rw [top_join, join_paint] at hpainted
    have hmoved := represents_far.2 hpainted
    obtain ⟨above, hshort, habove⟩ :=
      hpath.black_children hsibling hchildren.1 hchildren.2 hfocus
    refine ⟨_, join side parent focus (join side (sibling.paint .red) near far), frames, [],
      by rw [top_join], ⟨sameSentinel_setColor _ _ _, ⟨hmoved,
        fun _ => hmoved.parent_top (join_ne_leaf _ _ _ _), above, hshort, habove⟩, ?_, by simp⟩,
      .inr ⟨rfl, by simp⟩⟩
    simp only [plug]
    apply plug_entries_congr
    exact join_entries_congr side parent rfl (entries_join_paint side sibling .red near far)
  · rw [if_neg hchildren]
    have hred : near.color = .red ∨ far.color = .red := by
      cases hnear : near.color with
      | red => exact .inl rfl
      | black =>
          cases hfar : far.color with
          | red => exact .inr rfl
          | black => exact absurd ⟨hnear, hfar⟩ hchildren
    obtain ⟨turned, outer, after, whole, hnear, hfar, hroot, hpassed⟩ :=
      redChild_passed hrep hknown hpath hsibling hred hblack hfocus
    refine ⟨after, whole, [], _, ?_, hpassed, .inl rfl⟩
    simp only [hnear, hfar, hroot, Option.bind_some]

end Sibling

/-- One round below the root with a black focus, its reads of the parent resolved. -/
theorem deleteRound_eq
    (hrep : Represents tree focus (⟨side, parent, join side sibling near far⟩ :: frames))
    (hknown : ParentKnown tree focus (⟨side, parent, join side sibling near far⟩ :: frames)) :
    deleteRound tree (top tree.nil focus) = (do
      let (turned, below) ← redSibling side tree (top tree.nil focus) sibling.address
      let (next, later) ← blackSibling side turned (top tree.nil focus) below
      return (next, .sibling tree (top tree.nil focus) sibling.address ::
        (redSiblingUses side tree (top tree.nil focus) sibling.address turned below ++
          later))) := by
  have hup : tree.parent (top tree.nil focus) = parent.address := hknown
  have hparentRep := represents_near.2 hrep
  have hchild := hparentRep.child_far
  rw [top_join] at hchild
  have hne : top tree.nil focus ≠ top tree.nil (join side sibling near far) := by
    have hswap : Represents tree
        (join side.opposite parent (join side sibling near far) focus) frames := by
      rw [join_opposite]
      exact hparentRep
    exact (hswap.top_ne (join_ne_leaf _ _ _ _)).symm
  rw [deleteRound, hup, sideOf_eq hrep hne]
  simp only [Option.bind_eq_bind, Option.bind_some, hchild]

/-- A round moves the shortage up the path, to a red node or to the root. -/
theorem deleteRound_passed {frame : Frame CStr StrPtr}
    (hshortage : Shortage tree focus (frame :: frames)) (hblack : focus.color = .black) :
    ∃ after next above uses,
      deleteRound tree (top tree.nil focus) = some ((after, top tree.nil next), uses) ∧
      Passed tree (plug focus (frame :: frames)).entries after next above uses ∧
      (above = [] ∨ next.color = .red ∨ above = frames) := by
  obtain ⟨hrep, hknown, height, hshort, hpath⟩ := hshortage
  have hknown := hknown (cons_ne_nil _ _)
  have hfocus : Balanced focus height := by
    rcases hshort with ⟨-, hbalanced⟩ | ⟨hred, -⟩
    · exact hbalanced
    · rw [hblack] at hred
      cases hred
  obtain ⟨side, parent, sibling⟩ := frame
  obtain ⟨sibling, near, far, rfl⟩ :=
    Balanced.exists_join (show Balanced sibling (height + 1) from hpath.1) side
  have hfirst := sibling_sound hrep hknown hpath hblack hfocus (SameSentinel.refl tree)
  have htop := (represents_far.1 (represents_near.2 hrep)).color_top
  rw [top_join, join_color] at htop
  rw [deleteRound_eq hrep hknown]
  cases hcolor : sibling.color with
  | black =>
      have hkeep : redSibling side tree (top tree.nil focus) sibling.address =
          some (tree, sibling.address) := by
        simp [redSibling, htop, hcolor]
      obtain ⟨after, next, above, uses, hstep, hpassed, habove⟩ :=
        blackSibling_passed hrep hknown hpath hcolor hblack hfocus
      have huses : redSiblingUses side tree (top tree.nil focus) sibling.address tree
          sibling.address = [] := by
        simp [redSiblingUses, htop, hcolor]
      refine ⟨after, next, above, [.sibling tree (top tree.nil focus) sibling.address] ++ uses,
        ?_, hpassed.after_turn (SameSentinel.refl tree) rfl (by simpa using hfirst),
        habove.imp_right fun habove => .inr habove.1⟩
      simp only [hkeep, hstep, huses, Option.bind_eq_bind, Option.bind_some]
      rfl
  | red =>
      obtain ⟨turned, hturn, hsame, hturned⟩ := redSibling_spec hrep hknown hcolor
      obtain ⟨hpath', hnear⟩ := hpath.red_sibling hcolor
      obtain ⟨cell, inner, outer, rfl⟩ :=
        Balanced.exists_join (show Balanced near (height + 1) from hpath'.1) side
      rw [join_color] at hnear
      have hknown' := hknown.transport hsame hturned rfl
      have hup : tree.parent (top tree.nil focus) = parent.address := hknown
      obtain ⟨after, next, above, uses, hstep, hpassed, habove⟩ :=
        blackSibling_passed hturned hknown' hpath' hnear hblack hfocus
      rw [hsame.nil] at hstep
      refine ⟨after, next, above, (.sibling tree (top tree.nil focus) sibling.address ::
        redSiblingUses side tree (top tree.nil focus) sibling.address turned cell.address) ++
          uses, ?_, hpassed.after_turn hsame redSibling_entries fun use huse => ?_,
        habove.imp_right fun habove => .inl habove.2⟩
      · simp only [hturn, top_join, hstep, Option.bind_eq_bind, Option.bind_some]
        rfl
      · simp only [redSiblingUses, htop, hcolor, if_true, mem_cons, hup, not_mem_nil,
          or_false] at huse
        rcases huse with rfl | rfl | rfl
        · exact hfirst
        · exact pivot_sound hrep
        · exact sibling_sound hturned hknown' hpath' hblack hfocus hsame

/-- The whole loop of `rbtree_delete_fixup`. -/
theorem deleteFixupUses_spec (fuel : ℕ) {tree : KvsRbtree} {focus : Node} {frames : Path}
    (hshortage : Shortage tree focus frames) (hfuel : frames.length < fuel) :
    ∃ after uses, deleteFixupUses fuel tree (top tree.nil focus) = some (after, uses) ∧
      Repaired tree (plug focus frames).entries after ∧
      ∀ use ∈ uses, use.Sound tree.nil := by
  have hexit : ∀ (fuel : ℕ) {tree : KvsRbtree} {focus : Node} {frames : Path},
      Shortage tree focus frames → frames = [] ∨ focus.color = .red →
      ∃ after uses, deleteFixupUses (fuel + 1) tree (top tree.nil focus) = some (after, uses) ∧
        Repaired tree (plug focus frames).entries after ∧
        ∀ use ∈ uses, use.Sound tree.nil := by
    intro fuel tree focus frames hshortage hstop
    obtain ⟨height, hshort, hpath⟩ := hshortage.short
    obtain ⟨after, hfixup, hrepaired⟩ :=
      deleteFixup_exit fuel hshortage.represents hshort hpath hstop
    exact ⟨after, [], hfixup, hrepaired, by simp⟩
  induction frames generalizing fuel tree focus with
  | nil =>
      obtain ⟨fuel, rfl⟩ : ∃ less, fuel = less + 1 := ⟨fuel - 1, by omega⟩
      exact hexit fuel hshortage (.inl rfl)
  | cons frame frames ih =>
      simp only [length_cons] at hfuel
      obtain ⟨fuel, rfl⟩ : ∃ less, fuel = less + 2 := ⟨fuel - 2, by omega⟩
      cases hcolor : focus.color with
      | red => exact hexit (fuel + 1) hshortage (.inr hcolor)
      | black =>
          have hrep := hshortage.represents
          have hround : top tree.nil focus ≠ tree.root ∧
              tree.color (top tree.nil focus) = .black :=
            ⟨hrep.top_ne_root, by rw [hrep.color_top, hcolor]⟩
          obtain ⟨middle, next, above, uses, hstep, ⟨hsame, hnext, hentries, hsound⟩, habove⟩ :=
            deleteRound_passed hshortage hcolor
          obtain ⟨after, later, hrest, hrepaired, hlater⟩ : ∃ after later,
              deleteFixupUses (fuel + 1) middle (top middle.nil next) = some (after, later) ∧
              Repaired middle (plug next above).entries after ∧
              ∀ use ∈ later, use.Sound middle.nil := by
            rcases habove with hroot | hred | rfl
            · exact hexit fuel hnext (.inl hroot)
            · exact hexit fuel hnext (.inr hred)
            · exact ih (fuel + 1) hnext (by omega)
          rw [hsame.nil] at hrest hlater
          refine ⟨after, uses ++ later, ?_, ?_, fun use huse => ?_⟩
          · rw [deleteFixupUses, if_pos hround, hstep]
            simp only [Option.bind_eq_bind, Option.bind_some, hrest]
            rfl
          · rw [← hentries]
            exact hrepaired.of_sameSentinel hsame
          · exact (mem_append.1 huse).elim (hsound use) (hlater use)

end LiteMultiKV.RbTree
