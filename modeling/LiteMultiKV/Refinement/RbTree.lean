import LiteMultiKV.Core.TreeWalks
import LiteMultiKV.Persist.RoundTrip
import LiteMultiKV.Refinement.Engines

/-!
# Runs of the red-black engine

The pointer-level invariants that every run of insertions and deletions keeps, and the
engine as a finite map that is saved in key order.
-/

namespace LiteMultiKV.Refinement

open List CText Dictionary Families LinkedTree Memory Persist
open LiteMultiKV.RbTree (KvsRbtree kvsRbtreeCreate kvsRbtreeSet kvsRbtreeDel)
open RedBlack Run

/-! ## Invariants -/

/-- The red-black invariants of the memory of a tree. -/
structure RedBlackTree (tree : KvsRbtree) : Prop where
  sorted : (RbTree.entries tree).Pairwise fun left right => strcmp left.1 right.1 < 0
  root_black : tree.color tree.root = .black
  nil_black : tree.color tree.nil = .black
  red_child : ∀ node, Reaches tree node → tree.color node = .red →
    ∀ side, tree.color (tree.link side node) = .black
  black_count : ∀ node, Reaches tree node → ∀ left right,
    Walk tree node left tree.nil → Walk tree node right tree.nil →
      blackCount tree left = blackCount tree right
  root_parent : tree.root ≠ tree.nil → tree.parent tree.root = tree.nil
  child_parent : ∀ node, Reaches tree node → ∀ side, tree.link side node ≠ tree.nil →
    tree.parent (tree.link side node) = node
  height : ∀ nodes stop, Walk tree tree.root nodes stop →
    nodes.length ≤ 2 * Nat.log 2 ((RbTree.entries tree).length + 1)

variable {tree : KvsRbtree}

theorem redBlackTree_of_valid (hvalid : RbTree.Valid tree) : RedBlackTree tree := by
  have hsorted := RbTree.entries_sorted hvalid
  obtain ⟨whole, hrep, hwell, -⟩ := hvalid
  have hroot : tree.root = top tree.nil whole := hrep.hung
  -- what is seen from a reached node
  have hfocus : ∀ node, Reaches tree node → ∀ side, ∃ cell near far frames height,
      cell.address = node ∧ Represents tree (join side cell near far) frames ∧
      Balanced (join side cell near far) height := by
    intro node hreach side
    obtain ⟨cell, left, right, frames, haddress, hnode, hplug⟩ := hrep.exists_focus hreach
    obtain ⟨height, -, hbalanced, -⟩ := WellFormed.open_plug (hplug ▸ hwell)
    obtain ⟨near, far, hjoin⟩ := node_eq_join side cell left right
    rw [hjoin] at hnode hbalanced
    exact ⟨cell, near, far, frames, height, haddress, hnode, hbalanced⟩
  constructor
  case sorted => exact hsorted.imp strcmp_neg_iff.2
  case root_black =>
    rw [hroot, hrep.color_top]
    exact hwell.2
  case nil_black => exact hrep.nil_black
  case red_child =>
    intro node hreach hred side
    obtain ⟨cell, near, far, frames, height, rfl, hnode, hbalanced⟩ := hfocus node hreach side
    rw [hnode.node_at.color] at hred
    rw [hnode.node_at.link_near, (represents_near.1 hnode).color_top]
    exact ((balanced_join_red hred).1 hbalanced).2.2.1
  case black_count =>
    intro node hreach left right hleft hright
    obtain ⟨cell, near, far, frames, height, rfl, hnode, hbalanced⟩ := hfocus node hreach .left
    have hstart : cell.address = top tree.nil (join .left cell near far) := (top_join ..).symm
    rw [(hleft.balanced hnode.holds hstart hbalanced).2 rfl,
      (hright.balanced hnode.holds hstart hbalanced).2 rfl]
  case root_parent =>
    intro hne
    rw [hroot] at hne ⊢
    exact hrep.parent_top fun hleaf => hne (hrep.top_eq_nil_iff.2 hleaf)
  case child_parent =>
    intro node hreach side hne
    obtain ⟨cell, near, far, frames, height, rfl, hnode, -⟩ := hfocus node hreach side
    have hnear := represents_near.1 hnode
    rw [hnode.node_at.link_near] at hne ⊢
    exact hnear.parent_top fun hleaf => hne (hnear.top_eq_nil_iff.2 hleaf)
  case height =>
    intro nodes stop hwalk
    rw [RbTree.entries_eq hrep]
    exact hwalk.length_le_log hrep hwell

/-- A call of `kvs_rbtree_set` or `kvs_rbtree_del`; pointers may be null and allocations
may fail. -/
inductive TreeCall where
  | set (alloc : Alloc) (key value : Option CStr)
  | del (key : Option CStr)

def treeStep (tree : KvsRbtree) : TreeCall → Option (KvsRbtree × ℤ)
  | .set alloc key value => kvsRbtreeSet alloc tree key value
  | .del key => kvsRbtreeDel tree key

theorem treeStep_valid (hvalid : RbTree.Valid tree) (call : TreeCall) :
    ∃ after code, treeStep tree call = some (after, code) ∧ RbTree.Valid after := by
  cases call with
  | set alloc key value =>
      cases key with
      | none => exact ⟨tree, -1, rfl, hvalid⟩
      | some key =>
          cases value with
          | none => exact ⟨tree, -1, rfl, hvalid⟩
          | some value => exact RbTree.set_valid hvalid alloc key value
  | del key =>
      cases key with
      | none => exact ⟨tree, -1, rfl, hvalid⟩
      | some key =>
          cases hpresent : denote (RbTree.entries tree) key with
          | none => exact ⟨tree, 1, RbTree.del_absent hvalid hpresent, hvalid⟩
          | some pointer =>
              obtain ⟨after, hdel, hafter, -⟩ := RbTree.del_present hvalid hpresent
              exact ⟨after, 0, hdel, hafter⟩

theorem run_valid (calls : List TreeCall) :
    ∃ tree codes, run treeStep kvsRbtreeCreate calls = some (tree, codes) ∧
      RbTree.Valid tree := by
  have hstep : ∀ (tree : KvsRbtree) (call : TreeCall), RbTree.Valid tree → True →
      ∃ after code, treeStep tree call = some (after, code) ∧ RbTree.Valid after ∧ True := by
    intro tree call hvalid _
    obtain ⟨after, code, hcall, hafter⟩ := treeStep_valid hvalid call
    exact ⟨after, code, hcall, hafter, trivial⟩
  have halong : Along treeStep (fun _ _ => True) kvsRbtreeCreate calls :=
    along_of_forall (fun _ _ _ => trivial) _
  exact (run_invariant RbTree.Valid hstep RbTree.create_valid halong).1

/-- Every run of insertions and deletions ends in a red-black tree. -/
theorem rbtree_invariants_of_run (calls : List TreeCall) :
    ∃ tree codes, run treeStep kvsRbtreeCreate calls = some (tree, codes) ∧
      RedBlackTree tree := by
  obtain ⟨tree, codes, hrun, hvalid⟩ := run_valid calls
  exact ⟨tree, codes, hrun, redBlackTree_of_valid hvalid⟩

/-- A call with the nodes that its repair loop uses. -/
def treeUses (tree : KvsRbtree) : TreeCall → Option ((KvsRbtree × ℤ) × List RbTree.Use)
  | .set alloc key value => RbTree.kvsRbtreeSetUses alloc tree key value
  | .del key => RbTree.kvsRbtreeDelUses tree key

theorem treeUses_fst (tree : KvsRbtree) (call : TreeCall) :
    (treeUses tree call).map Prod.fst = treeStep tree call := by
  cases call with
  | set alloc key value => exact RbTree.kvsRbtreeSetUses_fst alloc tree key value
  | del key => exact RbTree.kvsRbtreeDelUses_fst tree key

theorem treeUses_sound (hvalid : RbTree.Valid tree) {call : TreeCall}
    {result : KvsRbtree × ℤ} {uses : List RbTree.Use}
    (huses : treeUses tree call = some (result, uses)) : ∀ use ∈ uses, use.Sound tree.nil := by
  cases call with
  | set alloc key value => exact RbTree.kvsRbtreeSetUses_sound huses
  | del key => exact RbTree.delUses_sound hvalid huses

/-- After every run the repair loop of the next call ends, and every grandparent, sibling
and pivot it uses is a node. -/
theorem fixups_use_nodes (calls : List TreeCall) :
    ∃ tree codes, run treeStep kvsRbtreeCreate calls = some (tree, codes) ∧
      ∀ call, ∃ result uses, treeUses tree call = some (result, uses) ∧
        treeStep tree call = some result ∧ ∀ use ∈ uses, use.Sound tree.nil := by
  obtain ⟨tree, codes, hrun, hvalid⟩ := run_valid calls
  refine ⟨tree, codes, hrun, fun call => ?_⟩
  obtain ⟨after, code, hcall, -⟩ := treeStep_valid hvalid call
  have herased := treeUses_fst tree call
  rw [hcall, Option.map_eq_some_iff] at herased
  obtain ⟨⟨result, uses⟩, huses, rfl⟩ := herased
  exact ⟨(after, code), uses, huses, hcall, treeUses_sound hvalid huses⟩

/-! ## The finite map -/

/-- The records of the red-black engine are written in ascending key order. -/
theorem recordsIn_rbtree_sorted {engines : Engines} (hsound : Sound engines) :
    (recordsIn .rbtree engines).Pairwise fun left right =>
      strcmp left.key right.key < 0 := by
  have hsorted : SortedKeys (entries .rbtree engines) :=
    RbTree.entries_sorted (hsound.valid .rbtree)
  rw [recordsIn, pairwise_map]
  exact hsorted.imp fun hlt => strcmp_neg_iff.2 hlt

/-- Every run of calls is answered as by a finite map, and a save visits each key of the
map once, in ascending order. -/
theorem rbtree_refines_map (inputs : List CoinCall) :
    ∃ texts engines answers records, run mapStep emptyMap inputs = some (texts, answers) ∧
      run (familyStep .rbtree) Engines.create inputs = some (engines, answers) ∧
      recordsOf .rbtree engines = some records ∧
      (records.Pairwise fun left right => strcmp left.key right.key < 0) ∧
      ∀ record, record ∈ records ↔
        record.family = .rbtree ∧ texts record.key = some record.value := by
  obtain ⟨texts, engines, answers, hmap, hrun, hsound, rfl⟩ :=
    run_refines_map .rbtree inputs (fun _ _ hhash => by cases hhash)
      (fun harray => by cases harray)
  exact ⟨_, engines, answers, recordsIn .rbtree engines, hmap, hrun,
    recordsOf_eq hsound .rbtree, recordsIn_rbtree_sorted hsound,
    fun record => mem_recordsIn hsound⟩

end LiteMultiKV.Refinement
