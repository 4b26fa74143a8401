import Mathlib

/-!
# Order in a binary heap

A heap with the root at index 1, seen as a function from indices to keys.  A sift keeps
the order everywhere but around one index, which it exchanges with a neighbour until the
order holds there too.
-/

namespace LiteMultiKV.BinaryHeap

variable {κ : Type*} [LinearOrder κ] {size idx : ℕ} {key : ℕ → κ}

/-- No node is smaller than its parent. -/
def Ordered (size : ℕ) (key : ℕ → κ) : Prop :=
  ∀ i, 2 ≤ i → i ≤ size → key (i / 2) ≤ key i

/-- The order holds, except that the node at `idx` may be greater than its children. -/
structure ExceptBelow (size : ℕ) (key : ℕ → κ) (idx : ℕ) : Prop where
  apart : ∀ i, 2 ≤ i → i ≤ size → i / 2 ≠ idx → key (i / 2) ≤ key i
  across : ∀ i, 2 ≤ i → i ≤ size → i / 2 = idx → 2 ≤ idx → key (idx / 2) ≤ key i

/-- The order holds, except that the node at `idx` may be smaller than its parent. -/
structure ExceptAbove (size : ℕ) (key : ℕ → κ) (idx : ℕ) : Prop where
  apart : ∀ i, 2 ≤ i → i ≤ size → i ≠ idx → key (i / 2) ≤ key i
  across : ∀ i, 2 ≤ i → i ≤ size → i / 2 = idx → 2 ≤ idx → key (idx / 2) ≤ key i

/-- The root is the least key. -/
theorem Ordered.root_le (hordered : Ordered size key) {i : ℕ} (hi : 1 ≤ i) (hsize : i ≤ size) :
    key 1 ≤ key i := by
  induction i using Nat.strong_induction_on with
  | _ i ih =>
      rcases Nat.lt_or_eq_of_le hi with hlarge | rfl
      · exact (ih (i / 2) (by omega) (by omega) (by omega)).trans
          (hordered i (by omega) hsize)
      · exact le_rfl

/-- One round of a sift towards the leaves. -/
theorem ExceptBelow.move (hexcept : ExceptBelow size key idx) {child : ℕ} (hidx : 1 ≤ idx)
    (hchild : child / 2 = idx) (hsize : child ≤ size) (hless : key child < key idx)
    (hleast : ∀ i, i ≤ size → i / 2 = idx → key child ≤ key i) :
    ExceptBelow size (key ∘ Equiv.swap child idx) child := by
  have hother : ∀ i, i ≠ child → i ≠ idx → (key ∘ Equiv.swap child idx) i = key i := by
    intro i hleft hright
    rw [Function.comp_apply, Equiv.swap_apply_of_ne_of_ne hleft hright]
  have hatChild : (key ∘ Equiv.swap child idx) child = key idx := by simp
  have hatIdx : (key ∘ Equiv.swap child idx) idx = key child := by simp
  constructor
  · intro i hi hle hparent
    by_cases hown : i = idx
    · subst hown
      rw [hatIdx, hother (i / 2) hparent (by omega)]
      exact hexcept.across child (by omega) hsize hchild hi
    · by_cases hdown : i = child
      · subst hdown
        rw [hatChild, hchild, hatIdx]
        exact hless.le
      · rw [hother i hdown hown]
        by_cases hsibling : i / 2 = idx
        · rw [hsibling, hatIdx]
          exact hleast i hle hsibling
        · rw [hother (i / 2) hparent hsibling]
          exact hexcept.apart i hi hle hsibling
  · intro i hi hle hparent _
    rw [hchild, hatIdx, hother i (by omega) (by omega), ← hparent]
    exact hexcept.apart i hi hle (by omega)

/-- A sift towards the leaves ends where no child is smaller. -/
theorem ExceptBelow.finish (hexcept : ExceptBelow size key idx)
    (hleast : ∀ i, 2 ≤ i → i ≤ size → i / 2 = idx → key idx ≤ key i) : Ordered size key := by
  intro i hi hle
  by_cases hparent : i / 2 = idx
  · rw [hparent]
    exact hleast i hi hle hparent
  · exact hexcept.apart i hi hle hparent

/-- One round of a sift towards the root. -/
theorem ExceptAbove.move (hexcept : ExceptAbove size key idx) (hidx : 2 ≤ idx)
    (hsize : idx ≤ size) (hless : key idx < key (idx / 2)) :
    ExceptAbove size (key ∘ Equiv.swap (idx / 2) idx) (idx / 2) := by
  have hother : ∀ i, i ≠ idx / 2 → i ≠ idx →
      (key ∘ Equiv.swap (idx / 2) idx) i = key i := by
    intro i hleft hright
    rw [Function.comp_apply, Equiv.swap_apply_of_ne_of_ne hleft hright]
  have hatParent : (key ∘ Equiv.swap (idx / 2) idx) (idx / 2) = key idx := by simp
  have hatIdx : (key ∘ Equiv.swap (idx / 2) idx) idx = key (idx / 2) := by simp
  constructor
  · intro i hi hle hne
    by_cases hown : i = idx
    · subst hown
      rw [hatParent, hatIdx]
      exact hless.le
    · rw [hother i hne hown]
      by_cases hbelow : i / 2 = idx
      · rw [hbelow, hatIdx]
        exact hexcept.across i hi hle hbelow hidx
      · have hkeep := hexcept.apart i hi hle hown
        by_cases hsibling : i / 2 = idx / 2
        · rw [hsibling] at hkeep ⊢
          rw [hatParent]
          exact hless.le.trans hkeep
        · rw [hother (i / 2) hsibling hbelow]
          exact hkeep
  · intro i hi hle hparent hgrand
    have hup := hexcept.apart (idx / 2) hgrand (by omega) (by omega)
    rw [hother (idx / 2 / 2) (by omega) (by omega)]
    by_cases hown : i = idx
    · rw [hown, hatIdx]
      exact hup
    · have hkeep := hexcept.apart i hi hle hown
      rw [hparent] at hkeep
      rw [hother i (by omega) hown]
      exact hup.trans hkeep

/-- A sift towards the root ends where the parent is not greater. -/
theorem ExceptAbove.finish (hexcept : ExceptAbove size key idx)
    (hleast : 2 ≤ idx → key (idx / 2) ≤ key idx) : Ordered size key := by
  intro i hi hle
  by_cases hown : i = idx
  · rw [hown]
    exact hleast (hown ▸ hi)
  · exact hexcept.apart i hi hle hown

end LiteMultiKV.BinaryHeap
