import Mathlib

/-!
# Singly linked chains

A chain is the list of nodes met by following a link field from a start node.
Reading the field of a node may fail (`none`); a successful read returns the
next node or the null pointer.
-/

namespace LiteMultiKV.Chain

open List

variable {α : Type*}

/-- Following `read` from `start` meets exactly the nodes `chain`, then null. -/
def Linked (read : α → Option (Option α)) : α → List α → Prop
  | start, [] => read start = some none
  | start, node :: chain => read start = some (some node) ∧ Linked read node chain

/-- The last node of a segment, or the node before an empty one. -/
def lastOf (start : α) (segment : List α) : α :=
  segment.getLastD start

@[simp]
theorem lastOf_nil (start : α) : lastOf start [] = start := rfl

@[simp]
theorem lastOf_cons (start node : α) (segment : List α) :
    lastOf start (node :: segment) = lastOf node segment := by
  cases segment <;> rfl

theorem lastOf_append (start : α) (front back : List α) :
    lastOf start (front ++ back) = lastOf (lastOf start front) back := by
  induction front generalizing start with
  | nil => rfl
  | cons node front ih => simp [ih]

theorem lastOf_mem (start : α) (segment : List α) :
    lastOf start segment ∈ start :: segment := by
  induction segment generalizing start with
  | nil => exact mem_cons_self
  | cons node segment ih =>
      rw [lastOf_cons]
      exact mem_cons_of_mem _ (ih node)

/-- Every node of a chain is the last one of a segment. -/
theorem exists_lastOf_eq {start node : α} {chain : List α} (hnode : node ∈ start :: chain) :
    ∃ front back, chain = front ++ back ∧ lastOf start front = node := by
  induction chain generalizing start with
  | nil => exact ⟨[], [], rfl, (mem_singleton.1 hnode).symm⟩
  | cons next chain ih =>
      rcases mem_cons.1 hnode with rfl | hnode
      · exact ⟨[], next :: chain, rfl, rfl⟩
      · obtain ⟨front, back, rfl, hlast⟩ := ih hnode
        exact ⟨next :: front, back, rfl, by rw [lastOf_cons, hlast]⟩

variable {read read' : α → Option (Option α)} {start node : α} {front back : List α}

theorem Linked.read_start {chain : List α} (hchain : Linked read start chain) :
    read start = some chain.head? := by
  cases chain with
  | nil => exact hchain
  | cons node chain => exact hchain.1

/-- A chain splits at any of its nodes. -/
theorem Linked.drop (hchain : Linked read start (front ++ back)) :
    Linked read (lastOf start front) back := by
  induction front generalizing start with
  | nil => exact hchain
  | cons node front ih =>
      rw [lastOf_cons]
      exact ih hchain.2

/-- Replacing the part of a chain behind one of its nodes. -/
theorem Linked.splice {back' : List α} (hchain : Linked read start (front ++ back))
    (hkeep : ∀ other ∈ (start :: front).dropLast, read' other = read other)
    (hback : Linked read' (lastOf start front) back') :
    Linked read' start (front ++ back') := by
  induction front generalizing start with
  | nil => exact hback
  | cons node front ih =>
      rw [dropLast_cons_cons, forall_mem_cons] at hkeep
      exact ⟨hkeep.1.trans hchain.1, ih hchain.2 hkeep.2 (by simpa using hback)⟩

theorem Linked.congr {chain : List α} (hchain : Linked read start chain)
    (hkeep : ∀ other ∈ start :: chain, read' other = read other) :
    Linked read' start chain := by
  induction chain generalizing start with
  | nil => exact (hkeep start mem_cons_self).trans hchain
  | cons node chain ih =>
      exact ⟨(hkeep start mem_cons_self).trans hchain.1,
        ih hchain.2 fun other hother => hkeep other (mem_cons_of_mem _ hother)⟩

/-- All but the last node of a segment differ from the last one. -/
theorem ne_lastOf_of_mem_dropLast (hnodup : (start :: front).Nodup) {other : α}
    (hother : other ∈ (start :: front).dropLast) : other ≠ lastOf start front := by
  induction front generalizing start with
  | nil => simp at hother
  | cons node front ih =>
      rw [dropLast_cons_cons, mem_cons] at hother
      rw [lastOf_cons]
      rcases hother with rfl | hother
      · intro heq
        exact (nodup_cons.1 hnodup).1 (heq ▸ lastOf_mem node front)
      · exact ih (nodup_cons.1 hnodup).2 hother

/-- Linking a fresh node behind one of the nodes. -/
theorem Linked.insert (hchain : Linked read start (front ++ back))
    (hnodup : (start :: (front ++ back)).Nodup)
    (hkeep : ∀ other ∈ start :: (front ++ back), other ≠ lastOf start front →
      read' other = read other)
    (hlast : read' (lastOf start front) = some (some node))
    (hnode : read' node = read (lastOf start front)) :
    Linked read' start (front ++ node :: back) := by
  have hfront : (start :: front).Nodup := (cons_append ▸ hnodup).of_append_left
  refine hchain.splice (fun other hother => ?_) ⟨hlast, ?_⟩
  · refine hkeep other ?_ (ne_lastOf_of_mem_dropLast hfront hother)
    rw [← cons_append]
    exact mem_append_left _ (mem_of_mem_dropLast hother)
  · have hdrop := hchain.drop
    cases back with
    | nil => exact hnode.trans hdrop
    | cons next back =>
        refine ⟨hnode.trans hdrop.1, hdrop.2.congr fun other hother => hkeep other ?_ ?_⟩
        · exact mem_cons_of_mem _ (mem_append_right _ hother)
        · rintro rfl
          rw [← cons_append] at hnodup
          exact (nodup_append'.1 hnodup).2.2 (lastOf_mem start front) hother

/-- Unlinking the node behind a segment. -/
theorem Linked.remove (hchain : Linked read start (front ++ node :: back))
    (hnodup : (start :: (front ++ node :: back)).Nodup)
    (hkeep : ∀ other ∈ start :: (front ++ back), other ≠ lastOf start front →
      read' other = read other)
    (hlast : read' (lastOf start front) = read node) :
    Linked read' start (front ++ back) := by
  have hfront : (start :: front).Nodup := (cons_append ▸ hnodup).of_append_left
  refine hchain.splice (fun other hother => ?_) ?_
  · refine hkeep other ?_ (ne_lastOf_of_mem_dropLast hfront hother)
    rw [← cons_append]
    exact mem_append_left _ (mem_of_mem_dropLast hother)
  · have hdrop := hchain.drop.2
    cases back with
    | nil => exact hlast.trans hdrop
    | cons next back =>
        refine ⟨hlast.trans hdrop.1, hdrop.2.congr fun other hother => hkeep other ?_ ?_⟩
        · exact mem_cons_of_mem _ (mem_append_right _ hother)
        · rintro rfl
          rw [← cons_append] at hnodup
          exact (nodup_append'.1 hnodup).2.2 (lastOf_mem start front)
            (mem_cons_of_mem _ hother)

/-- Move along the chain as long as the next node passes a test. -/
def skipWhile (read : α → Option (Option α)) (test : α → Bool) : ℕ → α → Option α
  | 0, _ => none
  | fuel + 1, current => do
      match ← read current with
      | none => return current
      | some next => if test next then skipWhile read test fuel next else return current

/-- The walk stops before the first node that fails the test. -/
theorem skipWhile_eq {test : α → Bool} (hchain : Linked read start (front ++ back))
    (hfront : ∀ other ∈ front, test other = true)
    (hback : ∀ other ∈ back.head?, test other = false) {fuel : ℕ}
    (hfuel : front.length < fuel) :
    skipWhile read test fuel start = some (lastOf start front) := by
  induction front generalizing start fuel with
  | nil =>
      obtain ⟨fuel, rfl⟩ : ∃ less, fuel = less + 1 := ⟨fuel - 1, by omega⟩
      cases back with
      | nil =>
          have hread : read start = some none := hchain
          simp [skipWhile, hread]
      | cons next back =>
          have hread : read start = some (some next) := hchain.1
          simp [skipWhile, hread, hback next rfl]
  | cons next front ih =>
      obtain ⟨fuel, rfl⟩ : ∃ less, fuel = less + 1 := ⟨fuel - 1, by omega⟩
      have hread : read start = some (some next) := hchain.1
      rw [forall_mem_cons] at hfront
      rw [length_cons] at hfuel
      simp [skipWhile, hread, hfront.1, ih hchain.2 hfront.2 (by omega : _ < fuel)]

end LiteMultiKV.Chain
