import LiteMultiKV.Core.LinkedTree

/-!
# Walks in a pointer tree

The balance of a tree read off its memory: which nodes the links reach, how many
black nodes a walk down meets, and how long it can be.
-/

namespace LiteMultiKV.LinkedTree

open List RedBlack

variable {K V : Type*}

/-- The nodes that links reach from the root. -/
inductive Reaches (heap : Heap K V) : ℕ → Prop where
  | root (hne : heap.root ≠ heap.nil) : Reaches heap heap.root
  | child {node : ℕ} (hnode : Reaches heap node) (side : Side)
      (hne : heap.link side node ≠ heap.nil) : Reaches heap (heap.link side node)

/-- `Walk heap start nodes stop`: links lead from `start` down to `stop` over the
given nodes. -/
inductive Walk (heap : Heap K V) : ℕ → List ℕ → ℕ → Prop where
  | stay (node : ℕ) : Walk heap node [] node
  | down {node stop : ℕ} {nodes : List ℕ} (hne : node ≠ heap.nil) (side : Side)
      (hwalk : Walk heap (heap.link side node) nodes stop) :
      Walk heap node (node :: nodes) stop

/-- The number of black nodes among the given ones. -/
def blackCount (heap : Heap K V) (nodes : List ℕ) : ℕ :=
  nodes.countP fun node => heap.color node = .black

/-- A tree of black height `height` has at least `2 ^ height - 1` entries. -/
theorem two_pow_le_of_balanced {tree : Tree K V} {height : ℕ} (hbalanced : Balanced tree height) :
    2 ^ height ≤ tree.entries.length + 1 := by
  induction hbalanced with
  | leaf => simp [Tree.entries]
  | red hcolor hleft hright hleftBlack hrightBlack ihleft ihright =>
      simp only [Tree.entries, length_append, length_cons]
      omega
  | black hcolor hleft hright ihleft ihright =>
      simp only [Tree.entries, length_append, length_cons, pow_succ]
      omega

variable {heap : Heap K V} {tree whole : Tree K V}

/-- A reached node is the focus of some view of the tree. -/
theorem Represents.exists_focus (hrep : Represents heap whole []) {node : ℕ}
    (hreach : Reaches heap node) :
    ∃ cell left right frames, cell.address = node ∧
      Represents heap (.node cell left right) frames ∧
      plug (.node cell left right) frames = whole := by
  induction hreach with
  | root hne =>
      have hroot : heap.root = top heap.nil whole := hrep.hung
      cases whole with
      | leaf => exact absurd hroot hne
      | node cell left right => exact ⟨cell, left, right, [], hroot.symm, hrep, rfl⟩
  | child hnode side hne ih =>
      obtain ⟨cell, left, right, frames, rfl, hfocus, hplug⟩ := ih
      obtain ⟨near, far, hjoin⟩ := node_eq_join side cell left right
      rw [hjoin] at hfocus hplug
      have hchild := represents_near.1 hfocus
      have hlink := hfocus.node_at.link_near
      cases near with
      | leaf => exact absurd hlink hne
      | node below left' right' =>
          exact ⟨below, left', right', ⟨side, cell, far⟩ :: frames, hlink.symm, hchild, hplug⟩

/-- In a balanced tree a walk passes at most two nodes for each black one, and a walk
to the sentinel meets as many black nodes as the tree is high. -/
theorem Walk.balanced {up start stop height : ℕ} {nodes : List ℕ}
    (hwalk : Walk heap start nodes stop) (hholds : Holds heap up tree)
    (hstart : start = top heap.nil tree) (hbalanced : Balanced tree height) :
    nodes.length ≤ 2 * height + (if tree.color = .red then 1 else 0) ∧
      (stop = heap.nil → blackCount heap nodes = height) := by
  induction hwalk generalizing tree up height with
  | stay node =>
      refine ⟨Nat.zero_le _, fun hstop => ?_⟩
      cases tree with
      | leaf =>
          cases hbalanced
          rfl
      | node cell left right => exact absurd (hstart.symm.trans hstop) hholds.1.ne_nil
  | down hne side hwalk ih =>
      cases tree with
      | leaf => exact absurd hstart hne
      | node cell left right =>
          obtain ⟨near, far, hjoin⟩ := node_eq_join side cell left right
          rw [hjoin] at hholds hbalanced hstart ⊢
          obtain ⟨hnode, hnear, -⟩ := holds_join.1 hholds
          rw [top_join] at hstart
          subst hstart
          have hcolor : heap.color cell.address = cell.color := hnode.color
          rw [join_color]
          cases hcell : cell.color with
          | red =>
              obtain ⟨hbelow, -, hblack, -⟩ := (balanced_join_red hcell).1 hbalanced
              obtain ⟨hlength, hcount⟩ := ih hnear hnode.link_near hbelow
              rw [hblack] at hlength
              refine ⟨by simpa using hlength, fun hstop => ?_⟩
              rw [blackCount, countP_cons_of_neg (by simp [hcolor, hcell])]
              exact hcount hstop
          | black =>
              obtain ⟨below, rfl, hbelow, -⟩ := (balanced_join_black hcell).1 hbalanced
              obtain ⟨hlength, hcount⟩ := ih hnear hnode.link_near hbelow
              refine ⟨?_, fun hstop => ?_⟩
              · rw [length_cons]
                split at hlength <;> simp <;> omega
              · rw [blackCount, countP_cons_of_pos (by simp [hcolor, hcell])]
                exact congrArg (· + 1) (hcount hstop)

/-- No walk down from the root is longer than twice the logarithm of the number of
entries. -/
theorem Walk.length_le_log {stop : ℕ} {nodes : List ℕ} (hrep : Represents heap whole [])
    (hwell : WellFormed whole) (hwalk : Walk heap heap.root nodes stop) :
    nodes.length ≤ 2 * Nat.log 2 (whole.entries.length + 1) := by
  obtain ⟨⟨height, hbalanced⟩, hblack⟩ := hwell
  obtain ⟨hlength, -⟩ := hwalk.balanced hrep.holds hrep.hung hbalanced
  have hlog : height ≤ Nat.log 2 (whole.entries.length + 1) :=
    Nat.le_log_of_pow_le (by decide) (two_pow_le_of_balanced hbalanced)
  rw [if_neg (by simp [hblack])] at hlength
  omega

end LiteMultiKV.LinkedTree
