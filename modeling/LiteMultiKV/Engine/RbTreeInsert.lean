import LiteMultiKV.Engine.RbTreeShape

/-!
# Insertion repair

The loop of `rbtree_insert_fixup` ends within the length of the path above the
new node, never reads a field of the sentinel that is not initialised, and
leaves a well-formed tree with the same in-order entries.
-/

namespace LiteMultiKV.RbTree

open List CText LinkedTree Memory RedBlack

variable {tree : KvsRbtree} {side : Side} {parent grand : Cell CStr StrPtr}
  {focus sibling uncle : Node} {frames : Path}

/-- The comparison with the parent's left link finds the side of the hole. -/
theorem sideOf_eq (hrep : Represents tree focus (⟨side, parent, sibling⟩ :: frames))
    (hne : top tree.nil focus ≠ top tree.nil sibling) :
    sideOf tree (top tree.nil focus) parent.address = some side := by
  have hnode := hrep.hung.1
  cases side with
  | left =>
      have hlink : tree.link .left parent.address = top tree.nil focus := hnode.link_near
      simp [sideOf, Heap.child, hnode.ne_nil, hlink]
  | right =>
      have hlink : tree.link .left parent.address = top tree.nil sibling := hnode.link_far
      simp [sideOf, Heap.child, hnode.ne_nil, hlink, hne]

/-- The last rotation of a black-uncle step. -/
theorem insertOuter_spec
    (hrep : Represents tree focus (⟨side, parent, sibling⟩ :: ⟨side, grand, uncle⟩ :: frames))
    (hfocus : focus ≠ .leaf) :
    ∃ after, insertOuter side tree (top tree.nil focus) = some after ∧
      SameSentinel tree after ∧
      Represents after (join side (parent.paint .black) focus
        (join side (grand.paint .red) sibling uncle)) frames := by
  have hparentRep := represents_near.2 hrep
  have hup : tree.parent (top tree.nil focus) = parent.address := hrep.parent_top hfocus
  have hgrand : tree.parent parent.address = grand.address := hparentRep.node_at.parent
  have hblack := hparentRep.setColor .black (by simp)
  rw [top_join, join_paint] at hblack
  have hred := (represents_near.2 hblack).setColor .red (by simp)
  rw [top_join, join_paint] at hred
  have hpattern : Represents ((tree.setColor parent.address .black).setColor grand.address .red)
      (join side.opposite (grand.paint .red) uncle
        (join side.opposite (parent.paint .black) sibling focus)) frames := by
    rw [join_opposite, join_opposite]
    exact hred
  obtain ⟨after, hrotate, hsame, hafter⟩ := rotate_spec hpattern
  rw [join_opposite, join_opposite] at hafter
  refine ⟨after, ?_, ?_, hafter⟩
  · simpa [insertOuter, hup, hgrand] using hrotate
  · exact (sameSentinel_setColor _ _ _).trans ((sameSentinel_setColor _ _ _).trans hsame)

/-- A red uncle: three colours change and the focus moves to the grandparent. -/
theorem recolor_represents {upperSide : Side}
    (hrep : Represents tree focus
      (⟨side, parent, sibling⟩ :: ⟨upperSide, grand, uncle⟩ :: frames)) :
    Represents (((tree.setColor parent.address .black).setColor (top tree.nil uncle)
        .black).setColor grand.address .red)
      (join upperSide (grand.paint .red) (join side (parent.paint .black) focus sibling)
        (uncle.paint .black)) frames := by
  have hparent := (represents_near.2 hrep).setColor .black (by simp)
  rw [top_join, join_paint] at hparent
  have huncle := (represents_far.1 (represents_near.2 hparent)).setColor .black (fun _ => rfl)
  have hgrand := (represents_far.2 huncle).setColor .red (by simp)
  rw [top_join, join_paint] at hgrand
  exact hgrand

/-- What a finished repair of the path above `focus` guarantees. -/
def Repaired (before : KvsRbtree) (entries : Store) (after : KvsRbtree) : Prop :=
  ∃ final : Node, Represents after final [] ∧ WellFormed final ∧
    final.entries = entries ∧ SameSentinel before after

theorem Repaired.of_sameSentinel {before middle after : KvsRbtree} {entries : Store}
    (hsame : SameSentinel before middle) (hrepaired : Repaired middle entries after) :
    Repaired before entries after := by
  obtain ⟨final, hrep, hwell, hentries, hlast⟩ := hrepaired
  exact ⟨final, hrep, hwell, hentries, hsame.trans hlast⟩

/-- The loop stops below a black node or at the root, and blackens the root. -/
theorem insertFixup_exit (fuel : ℕ) (hrep : Represents tree focus frames)
    (hfocus : focus ≠ .leaf) (hstop : frames ≠ [] → pathColor frames = .black)
    (hwell : WellFormed ((plug focus frames).paint .black)) :
    ∃ after, rbtreeInsertFixup (fuel + 1) tree (top tree.nil focus) = some after ∧
      Repaired tree (plug focus frames).entries after := by
  have hcolor : tree.color (tree.parent (top tree.nil focus)) = .black := by
    rw [hrep.parent_top hfocus]
    cases frames with
    | nil => exact hrep.nil_black
    | cons frame frames => exact hrep.hung.1.color.trans (hstop (by simp))
  have hwhole := represents_plug.2 hrep
  have hroot : tree.root = top tree.nil (plug focus frames) := hwhole.hung
  refine ⟨tree.setColor tree.root .black, ?_, (plug focus frames).paint .black, ?_, hwell,
    by simp, sameSentinel_setColor _ _ _⟩
  · simp [rbtreeInsertFixup, hcolor]
  · rw [hroot]
    exact hwhole.setColor .black (fun _ => rfl)

/-- A black uncle, the red pair on the outer side: one rotation and the next
test of the loop condition finish the repair. -/
theorem insertOuter_finish (fuel : ℕ) {height : ℕ}
    (hrep : Represents tree focus (⟨side, parent, sibling⟩ :: ⟨side, grand, uncle⟩ :: frames))
    (hfocus : focus ≠ .leaf) (hbalanced : Balanced focus height)
    (hsibling : Balanced sibling height) (hsiblingBlack : sibling.color = .black)
    (huncle : Balanced uncle height) (huncleBlack : uncle.color = .black)
    (hpath : PathBalanced frames (height + 1)) :
    ∃ after, (do
        let turned ← insertOuter side tree (top tree.nil focus)
        rbtreeInsertFixup (fuel + 1) turned (top tree.nil focus)) = some after ∧
      Repaired tree (plug focus
        (⟨side, parent, sibling⟩ :: ⟨side, grand, uncle⟩ :: frames)).entries after := by
  obtain ⟨turned, houter, hsame, hturned⟩ := insertOuter_spec hrep hfocus
  have hwell : WellFormed (plug (join side (parent.paint .black) focus
      (join side (grand.paint .red) sibling uncle)) frames) :=
    wellFormed_plug hpath
      (balanced_outer hbalanced hsibling hsiblingBlack huncle huncleBlack) (by simp)
  have hstop : WellFormed ((plug focus (⟨side, parent.paint .black,
      join side (grand.paint .red) sibling uncle⟩ :: frames)).paint .black) := by
    rw [plug, hwell.paint_black]
    exact hwell
  obtain ⟨after, hfixup, hrepaired⟩ :=
    insertFixup_exit fuel (represents_near.1 hturned) hfocus (fun _ => rfl) hstop
  have hentries : (plug focus (⟨side, parent.paint .black,
      join side (grand.paint .red) sibling uncle⟩ :: frames)).entries =
      (plug focus (⟨side, parent, sibling⟩ :: ⟨side, grand, uncle⟩ :: frames)).entries := by
    simp only [plug]
    apply plug_entries_congr
    rw [entries_join_paint, entries_rotate]
    exact join_entries_congr side parent rfl (entries_join_paint side grand .red sibling uncle)
  refine ⟨after, ?_, hentries ▸ hrepaired.of_sameSentinel hsame⟩
  rw [houter, Option.bind_eq_bind, Option.bind_some, ← hsame.nil]
  exact hfixup

/-- A black uncle: after the possible first rotation the red pair is on the
outer side. -/
theorem blackUncle_finish {lowerSide : Side} (fuel : ℕ) {height : ℕ}
    (hrep : Represents tree focus
      (⟨lowerSide, parent, sibling⟩ :: ⟨side, grand, uncle⟩ :: frames))
    (hred : focus.color = .red) (hparent : parent.color = .red)
    (hbalanced : Balanced focus height)
    (hsibling : Balanced sibling height) (hsiblingBlack : sibling.color = .black)
    (huncle : Balanced uncle height) (huncleBlack : uncle.color = .black)
    (hpath : PathBalanced frames (height + 1)) :
    ∃ after, (do
        let (turned, z) ← insertInner side tree (top tree.nil focus)
        let turned ← insertOuter side turned z
        rbtreeInsertFixup (fuel + 1) turned z) = some after ∧
      Repaired tree (plug focus
        (⟨lowerSide, parent, sibling⟩ :: ⟨side, grand, uncle⟩ :: frames)).entries after := by
  have hfocus : focus ≠ .leaf := by
    rintro rfl
    cases hred
  have hup : tree.parent (top tree.nil focus) = parent.address := hrep.parent_top hfocus
  have hparentRep := represents_near.2 hrep
  rcases Side.eq_or_eq_opposite lowerSide side with rfl | rfl
  · have hne : top tree.nil focus ≠ top tree.nil sibling := hparentRep.top_ne hfocus
    have hinner : insertInner lowerSide tree (top tree.nil focus) =
        some (tree, top tree.nil focus) := by
      simp [insertInner, hup, hparentRep.child_far, hne]
    simp only [hinner, Option.bind_eq_bind, Option.bind_some]
    exact insertOuter_finish fuel hrep hfocus hbalanced hsibling hsiblingBlack huncle huncleBlack
      hpath
  · obtain ⟨cell, near, far, rfl⟩ := exists_join_of_ne_leaf hfocus side
    rw [join_color] at hred
    rw [top_join] at hup
    obtain ⟨hnear, hfar, hnearBlack, hfarBlack⟩ := (balanced_join_red hred).1 hbalanced
    rw [join_opposite] at hparentRep
    obtain ⟨turned, hrotate, hsame, hturned⟩ := rotate_spec hparentRep
    have hinner : insertInner side tree (top tree.nil (join side cell near far)) =
        some (turned, parent.address) := by
      simp [insertInner, hup, hparentRep.child_far, hrotate]
    obtain ⟨after, hfinish, hrepaired⟩ := insertOuter_finish fuel
      (represents_near.1 hturned) (join_ne_leaf _ _ _ _)
      ((balanced_join_red hparent).2 ⟨hsibling, hnear, hsiblingBlack, hnearBlack⟩)
      hfar hfarBlack huncle huncleBlack hpath
    have hentries : (plug (join side parent sibling near)
        (⟨side, cell, far⟩ :: ⟨side, grand, uncle⟩ :: frames)).entries =
        (plug (join side cell near far)
          (⟨side.opposite, parent, sibling⟩ :: ⟨side, grand, uncle⟩ :: frames)).entries := by
      simp only [plug, join_opposite]
      apply plug_entries_congr
      exact join_entries_congr side grand (entries_rotate side parent cell sibling near far) rfl
    rw [top_join] at hfinish
    refine ⟨after, ?_, hentries ▸ hrepaired.of_sameSentinel hsame⟩
    simp only [hinner, Option.bind_eq_bind, Option.bind_some]
    exact hfinish

/-- The whole loop of `rbtree_insert_fixup`. -/
theorem insertFixup_spec (fuel : ℕ) {tree : KvsRbtree} {focus : Node} {frames : Path}
    {height : ℕ} (hrep : Represents tree focus frames) (hred : focus.color = .red)
    (hbalanced : Balanced focus height) (hpath : PathBalanced frames height)
    (hfuel : frames.length < fuel) :
    ∃ after, rbtreeInsertFixup fuel tree (top tree.nil focus) = some after ∧
      Repaired tree (plug focus frames).entries after := by
  induction fuel using Nat.strong_induction_on generalizing tree focus frames height with
  | _ fuel ih =>
  obtain ⟨fuel, rfl⟩ : ∃ less, fuel = less + 1 := ⟨fuel - 1, by omega⟩
  have hfocus : focus ≠ .leaf := by
    rintro rfl
    cases hred
  cases frames with
  | nil =>
      refine insertFixup_exit fuel hrep hfocus (fun hne => absurd rfl hne) ?_
      refine ⟨⟨height + 1, hbalanced.paint_black hred⟩, ?_⟩
      cases focus with
      | leaf => rfl
      | node cell left right => rfl
  | cons frame frames =>
      cases hcolor : frame.cell.color with
      | black =>
          have hwell : WellFormed (plug focus (frame :: frames)) := by
            apply wellFormed_plug hpath hbalanced
            intro hparent
            rw [pathColor, hcolor] at hparent
            cases hparent
          refine insertFixup_exit fuel hrep hfocus (fun _ => hcolor) ?_
          rw [hwell.paint_black]
          exact hwell
      | red =>
          obtain ⟨grand, above, rfl, hgrand, hsibling, hsiblingBlack, huncle, habove⟩ :=
            hpath.of_red_parent hcolor
          obtain ⟨side, parent, sibling⟩ := frame
          obtain ⟨upperSide, grand, uncle⟩ := grand
          have hparentRep := represents_near.2 hrep
          have hgrandRep := represents_near.2 hparentRep
          have hup : tree.parent (top tree.nil focus) = parent.address :=
            hrep.parent_top hfocus
          have hupper : tree.parent parent.address = grand.address :=
            hparentRep.node_at.parent
          have hparentRed : tree.color parent.address = .red :=
            hparentRep.node_at.color.trans hcolor
          have hside : sideOf tree parent.address grand.address = some upperSide := by
            simpa using sideOf_eq hparentRep (hgrandRep.top_ne (join_ne_leaf _ _ _ _))
          have huncleColor := (represents_far.1 hgrandRep).color_top
          simp only [rbtreeInsertFixup, hup, hupper, hparentRed, hside, hgrandRep.child_far,
            huncleColor, Option.bind_eq_bind, Option.bind_some, if_true, Heap.setColor_parent]
          cases huncleColor' : uncle.color with
          | red =>
              have hrecolor := recolor_represents hrep
              obtain ⟨after, hfixup, hrepaired⟩ := ih fuel (by omega) hrecolor (by simp)
                (balanced_recolor hbalanced hsibling huncle huncleColor') habove
                (by simp only [length_cons] at hfuel; omega)
              rw [top_join] at hfixup
              refine ⟨after, hfixup, ?_⟩
              have hentries : (plug (join upperSide (grand.paint .red)
                  (join side (parent.paint .black) focus sibling) (uncle.paint .black))
                  above).entries = (plug focus (⟨side, parent, sibling⟩ ::
                    ⟨upperSide, grand, uncle⟩ :: above)).entries := by
                simp only [plug]
                apply plug_entries_congr
                rw [entries_join_paint]
                exact join_entries_congr upperSide grand
                  (entries_join_paint side parent .black focus sibling)
                  (paint_entries uncle .black)
              rw [← hentries]
              exact hrepaired.of_sameSentinel (by constructor <;> rfl)
          | black =>
              obtain ⟨less, rfl⟩ : ∃ less, fuel = less + 1 :=
                ⟨fuel - 1, by simp only [length_cons] at hfuel; omega⟩
              exact blackUncle_finish less hrep hred hcolor hbalanced hsibling hsiblingBlack
                huncle huncleColor' habove

end LiteMultiKV.RbTree
